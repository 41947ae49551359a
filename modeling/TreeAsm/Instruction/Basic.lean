import TreeAsm.Binary64.Basic
import TreeAsm.Label

/-! Instructions of the stack machine and the directives that go with them. -/
namespace TreeAsm

inductive Opcode where
  | push
  | pop
  | add
  | sub
  | mul
  | div
  | mod
  | neg
  | not
  | and
  | or
  | cmpEq
  | cmpNe
  | cmpLt
  | cmpLe
  | cmpGt
  | cmpGe
  | br
  /-- Branch if the word on top is zero. -/
  | brf
  | call
  | ret
  | enter
  | leave
  | addsp
  /-- Read an integer. -/
  | deci
  /-- Print an integer. -/
  | deco
  | nop
  | stop
  | word
  | real
  | address
  | ascii
  | equate
  | finish
deriving DecidableEq, Repr

namespace Opcode

def mnemonic : Opcode → String
  | .push => "PUSH"
  | .pop => "POP"
  | .add => "ADD"
  | .sub => "SUB"
  | .mul => "MUL"
  | .div => "DIV"
  | .mod => "MOD"
  | .neg => "NEG"
  | .not => "NOT"
  | .and => "AND"
  | .or => "OR"
  | .cmpEq => "CMPEQ"
  | .cmpNe => "CMPNE"
  | .cmpLt => "CMPLT"
  | .cmpLe => "CMPLE"
  | .cmpGt => "CMPGT"
  | .cmpGe => "CMPGE"
  | .br => "BR"
  | .brf => "BRF"
  | .call => "CALL"
  | .ret => "RET"
  | .enter => "ENTER"
  | .leave => "LEAVE"
  | .addsp => "ADDSP"
  | .deci => "DECI"
  | .deco => "DECO"
  | .nop => "NOP"
  | .stop => "STOP"
  | .word => ".WORD"
  | .real => ".REAL"
  | .address => ".ADDRSS"
  | .ascii => ".ASCII"
  | .equate => ".EQUATE"
  | .finish => ".END"

def all : List Opcode :=
  [.push, .pop, .add, .sub, .mul, .div, .mod, .neg, .not, .and, .or, .cmpEq, .cmpNe, .cmpLt,
    .cmpLe, .cmpGt, .cmpGe, .br, .brf, .call, .ret, .enter, .leave, .addsp, .deci, .deco, .nop,
    .stop, .word, .real, .address, .ascii, .equate, .finish]

def ofMnemonic? (s : String) : Option Opcode := all.find? (·.mnemonic = s)

@[simp] theorem ofMnemonic?_mnemonic (op : Opcode) : ofMnemonic? op.mnemonic = some op := by
  cases op <;> decide

def isBranch : Opcode → Bool
  | .br | .brf => true
  | _ => false

def isCompare : Opcode → Bool
  | .cmpEq | .cmpNe | .cmpLt | .cmpLe | .cmpGt | .cmpGe => true
  | _ => false

end Opcode

/-- Where a variable lives. -/
inductive Location where
  | static (label : Label)
  | frame (symbol : Label) (offset : Nat)
deriving DecidableEq, Repr

inductive Operand where
  | imm (n : Int)
  | real (x : Binary64)
  | addr (label : Label)
  | mem (loc : Location)
  /-- An argument of the current call, in declared order. -/
  | arg (index : Nat)
  | target (label : Label)
  /-- The text of a directive. -/
  | raw (text : String)
deriving DecidableEq

structure Instruction where
  label : Option Label
  opcode : Opcode
  operand : Option Operand
  comment : Option String
deriving DecidableEq

namespace Instruction

def bare (opcode : Opcode) : Instruction := ⟨none, opcode, none, none⟩

def on (opcode : Opcode) (operand : Operand) : Instruction := ⟨none, opcode, some operand, none⟩

def labelled (i : Instruction) (l : Label) : Instruction := { i with label := some l }

def commented (i : Instruction) (c : String) : Instruction := { i with comment := some c }

/-- The label that the instruction branches to or calls. -/
def target? (i : Instruction) : Option Label :=
  match i.operand with
  | some (.target l) => some l
  | _ => none

/-- An instruction that does nothing but carry a label. -/
def carrier (l : Label) : Instruction := (bare .nop).labelled l

end Instruction
end TreeAsm

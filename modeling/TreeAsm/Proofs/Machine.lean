import Mathlib.Logic.Relation
import TreeAsm.Instruction.Text
import TreeAsm.Proofs.Semantics
import TreeAsm.Text.ByteString

/-! The stack machine that listings are written for. It knows labels and symbols by their texts
only. Static cells are words under labels; a frame has its slots on the stack, above the place to
return to and the frame before it. -/
namespace TreeAsm

namespace Instruction

def fetchesArgument (i : Instruction) : Bool := i.operand matches some (.arg _)

/-- The bytes of a string constant. -/
def bytes? (i : Instruction) : Option (List UInt8) :=
  match i.opcode, i.operand with
  | .ascii, some (.raw t) => ByteString.decode? t.toList
  | _, _ => none

end Instruction

namespace Code

/-- Where the label of this text stands. -/
def position? (code : List Instruction) (text : String) : Option Nat :=
  code.findIdx? fun i => i.label.any (·.text = text)

def labelled? (code : List Instruction) (text : String) : Option Instruction :=
  (position? code text).bind (code[·]?)

/-- The number that a symbol stands for. -/
def equate? (code : List Instruction) (text : String) : Option Nat :=
  (labelled? code text).bind fun i =>
    match i.opcode, i.operand with
    | .equate, some (.raw t) => some (digitsValue t.toList)
    | _, _ => none

/-- How many arguments a routine takes: as many as it fetches before it returns. -/
def argumentCount (code : List Instruction) : Nat :=
  (code.takeWhile (·.opcode ≠ .ret)).countP Instruction.fetchesArgument

/-- Where the bytes of a text are kept, with a zero byte behind them. -/
def constant? (code : List Instruction) (text : String) : Option Nat :=
  code.findIdx? fun i => i.bytes? = some (text.toUTF8.data.toList ++ [0])

end Code

/-- What lies on the stack: words, and for each call where to go on and the frame of the caller. -/
inductive Cell (W : Type) where
  | word (w : W)
  | back (pc : Nat)
  | link (base args : Nat)

structure State (W I : Type) where
  pc : Nat
  /-- The top comes first. -/
  stack : List (Cell W)
  /-- The height of the stack below the slots of the frame. -/
  base : Nat
  args : Nat
  static : String → Option W
  input : I
  output : List W

variable {W I : Type}

namespace State

def push (c : State W I) (w : W) : State W I := { c with stack := .word w :: c.stack }

def pop? (c : State W I) : Option (W × State W I) :=
  match c.stack with
  | .word w :: r => some (w, { c with stack := r })
  | _ => none

/-- The word at a height, counted from the bottom. -/
def word? (c : State W I) (height : Nat) : Option W :=
  match c.stack.reverse[height]? with
  | some (.word w) => some w
  | _ => none

def combine? (c : State W I) (f : W → W → W) : Option (State W I) :=
  match c.stack with
  | .word w :: .word v :: r => some { c with stack := .word (f v w) :: r }
  | _ => none

def transform? (c : State W I) (f : W → W) : Option (State W I) :=
  match c.stack with
  | .word v :: r => some { c with stack := .word (f v) :: r }
  | _ => none

def jump? (c : State W I) (code : List Instruction) (l : Label) : Option (State W I) :=
  (Code.position? code l.text).map fun pc => { c with pc }

/-- Arguments lie below the place to return to, the last one on top. -/
def load? (c : State W I) (M : Words W I) (code : List Instruction) : Operand → Option W
  | .imm n => some (M.ofInt n)
  | .real x => some (M.ofReal x)
  | .addr l => (Code.position? code l.text).map M.ofAddress
  | .mem (.static l) => c.static l.text
  | .mem (.frame symbol _) => (Code.equate? code symbol.text).bind fun k => c.word? (c.base + k)
  | .arg k => c.word? (c.base - 2 - c.args + k)
  | .target _ | .raw _ => none

def store? (c : State W I) (code : List Instruction) (w : W) : Location → Option (State W I)
  | .static l =>
    if (c.static l.text).isSome
      then some { c with static := Function.update c.static l.text (some w) } else none
  | .frame symbol _ => (Code.equate? code symbol.text).bind fun k =>
    if c.base + k < c.stack.length then
      some { c with stack := (c.stack.reverse.set (c.base + k) (.word w)).reverse }
    else none

end State

section Step

variable [DecidableEq W] (M : Words W I) (code : List Instruction)

/-- What an instruction does to the state in which the next instruction is already the current one.
Data and the end of the program do nothing, so that the machine stays there. -/
def execute (c : State W I) : Opcode → Option Operand → Option (State W I)
  | .push, some o => (c.load? M code o).map c.push
  | .pop, some (.mem loc) => c.pop?.bind fun x => x.2.store? code x.1 loc
  | .add, none => c.combine? (M.binary .add)
  | .sub, none => c.combine? (M.binary .sub)
  | .mul, none => c.combine? (M.binary .mul)
  | .div, none => c.combine? (M.binary .div)
  | .mod, none => c.combine? (M.binary .mod)
  | .and, none => c.combine? (M.binary .and)
  | .or, none => c.combine? (M.binary .or)
  | .cmpEq, none => c.combine? (M.binary .eq)
  | .cmpNe, none => c.combine? (M.binary .ne)
  | .cmpLt, none => c.combine? (M.binary .lt)
  | .cmpLe, none => c.combine? (M.binary .le)
  | .cmpGt, none => c.combine? (M.binary .gt)
  | .cmpGe, none => c.combine? (M.binary .ge)
  | .neg, none => c.transform? (M.unary .neg)
  | .not, none => c.transform? (M.unary .not)
  | .br, some (.target l) => c.jump? code l
  | .brf, some (.target l) =>
    c.pop?.bind fun x => if x.1 = M.ofInt 0 then x.2.jump? code l else some x.2
  | .call, some (.target l) => { c with stack := .back c.pc :: c.stack }.jump? code l
  | .ret, none =>
    match c.stack with
    | .back pc :: r => some { c with pc, stack := r }
    | _ => none
  | .enter, some (.imm (.ofNat n)) =>
    some { c with
      stack := List.replicate n (.word M.blank) ++ .link c.base c.args :: c.stack
      base := c.stack.length + 1
      args := Code.argumentCount (code.drop c.pc) }
  | .leave, none =>
    match c.stack.drop (c.stack.length - c.base) with
    | .link base args :: r => some { c with stack := r, base, args }
    | _ => none
  | .addsp, some (.imm (.ofNat n)) =>
    if n ≤ c.stack.length then some { c with stack := c.stack.drop n } else none
  | .deci, none => (M.read c.input).map fun x => { c with input := x.2 }.push x.1
  | .deco, none => c.pop?.map fun x => { x.2 with output := x.2.output ++ [x.1] }
  | .nop, none => some c
  | _, _ => none

def step (c : State W I) : Option (State W I) :=
  code[c.pc]?.bind fun i => execute M code { c with pc := c.pc + 1 } i.opcode i.operand

/-- The state after any number of steps. -/
def Reaches (c c' : State W I) : Prop :=
  Relation.ReflTransGen (fun a b => step M code a = some b) c c'

/-- The word that a line of data puts under its label. -/
def Words.stored? (i : Instruction) : Option W :=
  match i.opcode, i.operand with
  | .word, some (.raw t) => some (M.ofInt (digitsValue t.toList))
  | .real, some (.raw t) => (Binary64.read? t.toList).map M.ofReal
  | .address, some (.raw t) => some (M.ofAddress (digitsValue t.toList))
  | _, _ => none

/-- The value of a string literal is the address of its constant. -/
def Words.address (text : String) : W := M.ofAddress ((Code.constant? code text).getD 0)

/-- The machine begins with the first instruction. -/
def State.initial (input : I) : State W I where
  pc := 0
  stack := []
  base := 0
  args := 0
  static text := (Code.labelled? code text).bind M.stored?
  input
  output := []

end Step
end TreeAsm

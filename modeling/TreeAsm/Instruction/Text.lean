import TreeAsm.Binary64.Text
import TreeAsm.Instruction.Basic
import TreeAsm.Text.Blank

/-! Assembly lines: label, mnemonic, operand and comment in columns. -/
namespace TreeAsm

/-- Reals are written positionally from `1e-4` up to `1e16`; exponents have no plus sign. -/
def Operand.realFormat : Binary64.Format where
  plainFrom := -4
  plainBelow := 16
  plusSign := false
  tie := .up

/-- The mode stands behind a comma. -/
def Operand.chars : Operand → List Char
  | .imm n => intText n ++ [',', 'i']
  | .real x => realFormat.chars x ++ [',', 'i']
  | .addr label => label.text.toList ++ [',', 'i']
  | .mem (.static label) => label.text.toList ++ [',', 'd']
  | .mem (.frame symbol _) => symbol.text.toList ++ [',', 'f']
  | .arg index => natText index ++ [',', 'a']
  | .target label => label.text.toList
  | .raw text => text.toList

def Operand.text (o : Operand) : String := String.ofList o.chars

namespace Instruction

def labelWidth : Nat := 12

def mnemonicWidth : Nat := 8

def commentColumn : Nat := 32

def labelChars (i : Instruction) : List Char :=
  match i.label with
  | none => []
  | some l => l.text.toList ++ [':']

def operandChars (i : Instruction) : List Char :=
  match i.operand with
  | none => []
  | some o => o.chars

/-- The line without its comment. -/
def codeChars (i : Instruction) : List Char :=
  Text.fill labelWidth i.labelChars ++ ' ' ::
    (Text.fill mnemonicWidth i.opcode.mnemonic.toList ++ i.operandChars)

/-- Blanks at the end go, in front of the comment and after it. -/
def chars (i : Instruction) : List Char :=
  match i.comment with
  | none => Text.trimEnd i.codeChars
  | some c =>
    Text.trimEnd (Text.fill commentColumn (Text.trimEnd i.codeChars) ++ ';' :: ' ' :: c.toList)

def line (i : Instruction) : String := String.ofList i.chars

end Instruction
end TreeAsm

import TreeAsm.Program

/-! The code of a body while it is written: instructions, and marks for labels on what comes next.
Settling puts each mark on an instruction; where several meet, the last one goes on the instruction
and those before it on instructions that do nothing. -/
namespace TreeAsm

inductive Item where
  | mark (label : Label)
  | op (i : Instruction)
deriving DecidableEq

namespace Code

/-- The instruction under the labels that are pending, in order. -/
def attach (pending : List Label) (i : Instruction) : List Instruction :=
  match pending.getLast? with
  | none => [i]
  | some l => pending.dropLast.map .carrier ++ [i.labelled l]

def settleFrom : List Label → List Item → List Instruction
  | pending, [] => pending.map .carrier
  | pending, .mark l :: r => settleFrom (pending ++ [l]) r
  | pending, .op i :: r => attach pending i ++ settleFrom [] r

/-- The instructions of a finished body. -/
def settle (items : List Item) : List Instruction := settleFrom [] items

/-- Labels the first instruction, or puts one that does nothing in front if it has a label. -/
def withLabel (l : Label) : List Instruction → List Instruction
  | [] => [.carrier l]
  | i :: r => if i.label.isNone then i.labelled l :: r else .carrier l :: i :: r

/-- The top-level block: it begins at the program entry and is the only one that stops. -/
def topLevelBlock (body : List Instruction) : Block where
  title := "top level"
  code := withLabel (.plain Label.entry) (body ++ [.bare .stop])

end Code
end TreeAsm

import TreeAsm.Binary64.Basic

/-! JSON values. An object is a list of members; the values that the reader builds have distinct
keys. -/
namespace TreeAsm

namespace Json

/-- A number is an integer when it is written as one and fits 64 bits, and a real otherwise. -/
inductive Number where
  | int (n : Int)
  | real (x : Binary64.Finite)
deriving DecidableEq

end Json

inductive Json where
  | null
  | bool (b : Bool)
  | num (n : Json.Number)
  | str (s : String)
  | arr (items : List Json)
  | obj (members : List (String × Json))

namespace Json

/-- How many arrays and objects may stand inside one another in a text. -/
def maxDepth : Nat := 127

mutual

/-- How many arrays and objects stand inside one another. -/
def depth : Json → Nat
  | .arr items => depthItems items + 1
  | .obj members => depthMembers members + 1
  | _ => 0

def depthItems : List Json → Nat
  | [] => 0
  | v :: r => max (depth v) (depthItems r)

def depthMembers : List (String × Json) → Nat
  | [] => 0
  | (_, v) :: r => max (depth v) (depthMembers r)

end

end Json
end TreeAsm

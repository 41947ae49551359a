/-! Labels. Routines, globals and the program entry are labelled by their own names; the other
families add something to a name, or draw a number. -/
namespace TreeAsm

inductive Label where
  /-- A global, a routine, the program entry, or a label given from outside. -/
  | plain (text : String)
  /-- The cell that holds what a routine returns. -/
  | result (routine : String)
  /-- The end of a routine, where returning jumps to. -/
  | exit (routine : String)
  /-- The offset of a variable in the frame of a routine. -/
  | slot (routine name : String)
  | generated (stem : String) (number : Nat)
deriving DecidableEq, Repr

namespace Label

def text : Label → String
  | .plain s => s
  | .result routine => routine ++ "@ret"
  | .exit routine => routine ++ "@exit"
  | .slot routine name => routine ++ "." ++ name
  | .generated stem number => stem ++ "." ++ toString number

/-- Where the program starts. -/
def entry : String := "tl"

/-- Numbers below this one can be drawn: the number after the one drawn has to have 32 bits too. -/
def numberLimit : Nat := 4294967295

end Label
end TreeAsm

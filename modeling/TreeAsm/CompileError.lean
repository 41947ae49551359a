import TreeAsm.Tree.Basic

/-! Why a script is not compiled. Errors in a body name the routine, if it is one, and the line of
the statement. -/
namespace TreeAsm

inductive CompileError where
  | unsupported (construct : String) (routine : Option String) (line : UInt32)
  | unresolvedName (name : String) (routine : Option String) (line : UInt32)
  | duplicateRoutine (name : String) (line : UInt32)
  | labelClash (name : String) (line : UInt32)
  | unknownRoutine (name : String) (routine : Option String) (line : UInt32)
  | arityMismatch (callee : String) (expected found : Nat) (routine : Option String) (line : UInt32)
deriving DecidableEq, Repr

namespace CompileError

def quote (s : String) : String := "`" ++ s ++ "`"

def place (routine : Option String) (line : UInt32) : String :=
  (match routine with
    | some r => "in routine " ++ quote r
    | none => "at top level") ++ ", line " ++ toString line.toNat

def message : CompileError → String
  | .unsupported construct routine line =>
    place routine line ++ ": unsupported construct " ++ quote construct
  | .unresolvedName name routine line => place routine line ++ ": unresolved name " ++ quote name
  | .duplicateRoutine name line =>
    "line " ++ toString line.toNat ++ ": routine " ++ quote name ++ " is already defined"
  | .labelClash name line =>
    "line " ++ toString line.toNat ++ ": " ++ quote name ++ " clashes with an existing label"
  | .unknownRoutine name routine line =>
    place routine line ++ ": call to unknown routine " ++ quote name
  | .arityMismatch callee expected found routine line =>
    place routine line ++ ": " ++ quote callee ++ " takes " ++ toString expected ++
      " argument(s), " ++
      toString found ++ " given"

end CompileError

/-- A compilation stops at an error of the script, or where a number does not fit its width any
more. -/
inductive Fault where
  | rejected (e : CompileError)
  | labelsExhausted
  | frameTooWide
deriving DecidableEq, Repr

end TreeAsm

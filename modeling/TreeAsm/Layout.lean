import TreeAsm.CompileError
import TreeAsm.Frame
import TreeAsm.Tree.Names

/-! Where the variables of a script live: one static cell for each global, one slot for each
parameter and local of a routine. A name that the script binds at its own level stays global inside
a routine, unless it is a parameter there. -/
namespace TreeAsm

namespace VarKind

/-- The directive for a cell of this kind that holds its zero. -/
def zero : VarKind → Opcode × String
  | .integer => (.word, "0")
  | .boolean => (.word, "0")
  | .real => (.real, "0.0")
  | .string => (.address, "0")

end VarKind

namespace Scope

/-- The names bound outside routines, each with the kind of its first value. -/
def globals (s : Script) : Scope :=
  ofList ((Stmt.bindsAll s.body).map fun (n, k) => ⟨n, k, .global⟩)

def staticCell? (globals : Scope) (name : String) : Option Location :=
  if globals.contains name then some (.static (.plain name)) else none

/-- One line of data for a global. -/
def staticData (v : Variable) : Instruction :=
  ((Instruction.on v.kind.zero.1 (.raw v.kind.zero.2)).labelled (.plain v.name)).commented
    ("global " ++ v.kind.word)

def declarations (globals : Scope) : List Instruction := globals.toList.map staticData

def ofParams (ps : List Param) : Scope := ofList (ps.map fun p => ⟨p.name, .ofParam p, .parameter⟩)

/-- Parameters first, then what the body binds and the globals do not have. -/
def localsOf (globals : Scope) (r : Routine) : Scope :=
  (ofParams r.params).insertAll
    (((Stmt.bindsAll r.body).filter fun b => !globals.contains b.1).map fun (n, k) =>
      ⟨n, k, .inner⟩)

/-- The locals of a routine. Routines do not nest, and every name that is read has to be known. -/
def locals (globals : Scope) (r : Routine) : Except CompileError Scope :=
  match (Stmt.definesAll r.body).head? with
  | some (name, line) => .error (.unsupported (Stmt.nestedRoutine name) (some r.name) line)
  | none =>
    let scope := localsOf globals r
    match (Stmt.readsAll r.body).find? fun n => !(scope.contains n.1 || globals.contains n.1) with
    | some (name, line) => .error (.unresolvedName name (some r.name) line)
    | none => .ok scope

end Scope

namespace Frame

def ofRoutine (globals : Scope) (r : Routine) : Except Fault Frame :=
  match globals.locals r with
  | .error e => .error (.rejected e)
  | .ok scope =>
    match ofScope? r.name scope with
    | none => .error .frameTooWide
    | some f => .ok f

end Frame

/-- The storage of a whole script; frames are in the order of the routines. -/
structure Layout where
  globals : Scope
  frames : List Frame

namespace Layout

/-- Storage alone, without a look at clashes of labels. -/
def unchecked (s : Script) : Except Fault Layout :=
  (s.routines.mapM (Frame.ofRoutine (Scope.globals s))).map fun frames => ⟨Scope.globals s, frames⟩

/-- The frames of routines whose names are distinct, also from the names before them, and label
nothing else. -/
def distinctFrames (globals : Scope) (earlier : List String) :
    List Routine → Except Fault (List Frame)
  | [] => .ok []
  | r :: rest =>
    if r.name ∈ earlier then .error (.rejected (.duplicateRoutine r.name r.line))
    else if r.name = Label.entry ∨ globals.contains r.name then
      .error (.rejected (.labelClash r.name r.line))
    else
      match Frame.ofRoutine globals r with
      | .error e => .error e
      | .ok f => (distinctFrames globals (r.name :: earlier) rest).map (f :: ·)

/-- Whether the statement itself is an assignment to the name. -/
def assigns (name : String) : Stmt → Bool
  | .assign _ targets _ => targets.any (·.name? = some name)
  | _ => false

/-- The line of the first assignment to a name that is not inside another statement, or zero. -/
def assignmentLine (s : Script) (name : String) : UInt32 :=
  ((s.body.find? (assigns name)).map Stmt.line).getD 0

/-- The storage of a script whose globals and routines have labels of their own. -/
def ofScript (s : Script) : Except Fault Layout :=
  if (Scope.globals s).contains Label.entry then
    .error (.rejected (.labelClash Label.entry (assignmentLine s Label.entry)))
  else (distinctFrames (Scope.globals s) [] s.routines).map fun frames => ⟨Scope.globals s, frames⟩

end Layout
end TreeAsm

import TreeAsm.Layout
import TreeAsm.Lowering

/-! Compilation of a script: storage for everything first, then the code of the top level, then that
of each routine in the order of the definitions. -/
namespace TreeAsm

namespace Layout

/-- Outside routines a name is a global, and there is nothing to return from. -/
def topEnv (l : Layout) : Env where
  resolve := l.globals.staticCell?
  routine := none
  result := none
  callee := Frame.lookup l.frames

/-- Inside a routine its own names come before the globals. -/
def routineEnv (l : Layout) (f : Frame) : Env where
  resolve name := (f.resolve? name).or (l.globals.staticCell? name)
  routine := some f.routine
  result := some (f.resultCell, f.exitLabel)
  callee := Frame.lookup l.frames

def topBody (l : Layout) (s : Script) : Emit Unit := Lowering.stmts l.topEnv s.topLevel

def routineBody (l : Layout) (f : Frame) (r : Routine) : Emit Unit :=
  Lowering.stmts (l.routineEnv f) r.body

/-- The blocks of the routines, each with its frame, and the supply that is left. -/
def routineBlocks (l : Layout) :
    List (Routine × Frame) → Supply → Except Fault (List Block) × Supply
  | [], s => (.ok [], s)
  | (r, f) :: rest, s =>
    match (l.routineBody f r).run s with
    | (.error e, s') => (.error e, s')
    | (.ok code, s') =>
      let (blocks, s'') := l.routineBlocks rest s'
      (blocks.map (f.block code :: ·), s'')

end Layout

/-- How a compilation ends, with the next number for a label after it. -/
structure Compilation where
  result : Except Fault Program
  next : Nat

namespace Script

def dataBlock (globals : Scope) : Block := ⟨"static data", globals.declarations⟩

def stringBlock (p : StringPool) : Option Block :=
  if p.isEmpty then none else some ⟨"string constants", p.declarations⟩

/-- The program of a script, with labels numbered from `seed` on. -/
def compileFrom (s : Script) (source : String) (seed : Nat) : Compilation :=
  match Layout.ofScript s with
  | .error e => ⟨.error e, seed⟩
  | .ok layout =>
    match (layout.topBody s).run (.start seed) with
    | (.error e, supply) => ⟨.error e, supply.next⟩
    | (.ok code, supply) =>
      let (routines, supply) := layout.routineBlocks (s.routines.zip layout.frames) supply
      { result := routines.map fun blocks =>
          { source
            data := dataBlock layout.globals
            strings := stringBlock supply.strings
            routines := blocks
            topLevel := Code.topLevelBlock code }
        next := supply.next }

def compile (s : Script) (source : String) : Except Fault Program := (s.compileFrom source 0).result

end Script
end TreeAsm

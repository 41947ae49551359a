import TreeAsm.Variable

/-! The names that a body binds, reads and defines, in the order of the text. A conditional has its
test, then its body, then its alternative. Routine bodies are not entered. -/
namespace TreeAsm

namespace Expr

mutual

def reads : Expr → List String
  | .name id => [id]
  | .binary _ l r => reads l ++ reads r
  | .unary _ e => reads e
  | .call _ args => readsAll args
  | .literal _ => []
  | .unsupported _ => []

def readsAll : List Expr → List String
  | [] => []
  | e :: r => reads e ++ readsAll r

end

def name? : Expr → Option String
  | .name id => some id
  | _ => none

end Expr

namespace Stmt

mutual

/-- The names that are assigned, with the kind of the value. An update binds nothing, since it reads
first. -/
def binds : Stmt → List (String × VarKind)
  | .assign _ targets value => (targets.filterMap Expr.name?).map fun n => (n, .infer value)
  | .ifElse _ _ body orelse => bindsAll body ++ bindsAll orelse
  | .whileLoop _ _ body => bindsAll body
  | .update .. | .define .. | .ret .. | .eval .. | .pass _ | .unsupported .. => []

def bindsAll : List Stmt → List (String × VarKind)
  | [] => []
  | s :: r => binds s ++ bindsAll r

end

mutual

/-- The names that are read, with the line of the statement. The targets of an assignment are not
read, the target of an update is. -/
def reads : Stmt → List (String × UInt32)
  | .assign line _ value => value.reads.map (·, line)
  | .update line target _ value => (target.reads ++ value.reads).map (·, line)
  | .ifElse line test body orelse => test.reads.map (·, line) ++ readsAll body ++ readsAll orelse
  | .whileLoop line test body => test.reads.map (·, line) ++ readsAll body
  | .ret line (some value) => value.reads.map (·, line)
  | .ret _ none => []
  | .eval line value => value.reads.map (·, line)
  | .define .. | .pass _ | .unsupported .. => []

def readsAll : List Stmt → List (String × UInt32)
  | [] => []
  | s :: r => reads s ++ readsAll r

end

mutual

/-- The routines that are defined, with the line of the definition. -/
def defines : Stmt → List (String × UInt32)
  | .define line name _ _ => [(name, line)]
  | .ifElse _ _ body orelse => definesAll body ++ definesAll orelse
  | .whileLoop _ _ body => definesAll body
  | .assign .. | .update .. | .ret .. | .eval .. | .pass _ | .unsupported .. => []

def definesAll : List Stmt → List (String × UInt32)
  | [] => []
  | s :: r => defines s ++ definesAll r

end

/-- The diagnostic name of a routine definition in the wrong place. -/
def nestedRoutine (name : String) : String := "nested routine `" ++ name ++ "`"

end Stmt
end TreeAsm

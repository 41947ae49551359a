import TreeAsm.Tree.Basic

/-! Variables: a name with the kind of cell it needs and the role it plays. -/
namespace TreeAsm

inductive VarKind where
  | integer
  | real
  | boolean
  | string
deriving DecidableEq, Repr

namespace VarKind

def word : VarKind → String
  | .integer => "integer"
  | .real => "real"
  | .boolean => "boolean"
  | .string => "string"

def ofLiteral : Literal → VarKind
  | .int _ => .integer
  | .real _ => .real
  | .bool _ => .boolean
  | .str _ => .string

def ofAnnotation? (s : String) : Option VarKind :=
  if s = "int" then some .integer
  else if s = "float" then some .real
  else if s = "bool" then some .boolean
  else if s = "str" then some .string
  else none

/-- A parameter without a known annotation is an integer. -/
def ofParam (p : Param) : VarKind := (p.annotation.bind ofAnnotation?).getD .integer

/-- The kind of a variable whose first value this is: that of a literal, with or without a minus
sign, and integer for everything that has to be computed. -/
def infer : Expr → VarKind
  | .literal v => ofLiteral v
  | .unary .neg (.literal v) => ofLiteral v
  | _ => .integer

end VarKind

inductive Role where
  | global
  | inner
  | parameter
deriving DecidableEq, Repr

def Role.word : Role → String
  | .global => "global"
  | .inner => "local"
  | .parameter => "parameter"

structure Variable where
  name : String
  kind : VarKind
  role : Role
deriving DecidableEq, Repr

end TreeAsm

import TreeAsm.Binary64.Basic

/-! Program trees: what a front end hands over. A script is a list of statements, and routines are
defined by statements of the script itself. Lines are kept for diagnostics only. -/
namespace TreeAsm

inductive Literal where
  | int (n : Int64)
  | real (x : Binary64)
  | bool (b : Bool)
  | str (s : String)
deriving DecidableEq

inductive BinaryOp where
  | add
  | sub
  | mul
  | div
  | mod
  | eq
  | ne
  | lt
  | le
  | gt
  | ge
  | and
  | or
deriving DecidableEq, Repr

namespace BinaryOp

def symbol : BinaryOp → String
  | .add => "+"
  | .sub => "-"
  | .mul => "*"
  | .div => "/"
  | .mod => "%"
  | .eq => "=="
  | .ne => "!="
  | .lt => "<"
  | .le => "<="
  | .gt => ">"
  | .ge => ">="
  | .and => "and"
  | .or => "or"

def all : List BinaryOp := [.add, .sub, .mul, .div, .mod, .eq, .ne, .lt, .le, .gt, .ge, .and, .or]

/-- Equality and its negation have a second spelling each. -/
def ofSymbol? (s : String) : Option BinaryOp :=
  if s = "=" then some .eq
  else if s = "<>" then some .ne
  else all.find? (·.symbol = s)

@[simp] theorem ofSymbol?_symbol (op : BinaryOp) : ofSymbol? op.symbol = some op := by
  cases op <;> decide

end BinaryOp

inductive UnaryOp where
  | neg
  | not
deriving DecidableEq, Repr

namespace UnaryOp

def symbol : UnaryOp → String
  | .neg => "-"
  | .not => "not"

def all : List UnaryOp := [.neg, .not]

def ofSymbol? (s : String) : Option UnaryOp := all.find? (·.symbol = s)

@[simp] theorem ofSymbol?_symbol (op : UnaryOp) : ofSymbol? op.symbol = some op := by
  cases op <;> decide

end UnaryOp

inductive Expr where
  | literal (v : Literal)
  | name (id : String)
  | binary (op : BinaryOp) (left right : Expr)
  | unary (op : UnaryOp) (operand : Expr)
  | call (func : String) (args : List Expr)
  /-- Something that the front end has and the compiler has not. -/
  | unsupported (construct : String)

structure Param where
  name : String
  annotation : Option String
deriving DecidableEq, Repr

inductive Stmt where
  | assign (line : UInt32) (targets : List Expr) (value : Expr)
  /-- `target op= value`. -/
  | update (line : UInt32) (target : Expr) (op : BinaryOp) (value : Expr)
  | ifElse (line : UInt32) (test : Expr) (body orelse : List Stmt)
  | whileLoop (line : UInt32) (test : Expr) (body : List Stmt)
  | define (line : UInt32) (name : String) (params : List Param) (body : List Stmt)
  | ret (line : UInt32) (value : Option Expr)
  | eval (line : UInt32) (value : Expr)
  | pass (line : UInt32)
  | unsupported (line : UInt32) (construct : String)

structure Script where
  body : List Stmt

/-- A routine definition at the level of the script. -/
structure Routine where
  line : UInt32
  name : String
  params : List Param
  body : List Stmt

namespace Expr

/-- The name of the construct in diagnostics. -/
def construct : Expr → String
  | .literal _ => "literal"
  | .name _ => "name"
  | .binary .. => "binary operation"
  | .unary .. => "unary operation"
  | .call .. => "call"
  | .unsupported c => c

mutual

def same : Expr → Expr → Bool
  | .literal v, .literal w => v = w
  | .name a, .name b => a = b
  | .binary op l r, .binary op' l' r' => op = op' && same l l' && same r r'
  | .unary op e, .unary op' e' => op = op' && same e e'
  | .call f as, .call g bs => f = g && sameAll as bs
  | .unsupported c, .unsupported d => c = d
  | _, _ => false

def sameAll : List Expr → List Expr → Bool
  | [], [] => true
  | a :: as, b :: bs => same a b && sameAll as bs
  | _, _ => false

end

mutual

theorem same_iff (a b : Expr) : same a b = true ↔ a = b := by
  cases a <;> cases b <;> simp [same, same_iff, sameAll_iff, and_assoc]

theorem sameAll_iff (as bs : List Expr) : sameAll as bs = true ↔ as = bs := by
  cases as <;> cases bs <;> simp [sameAll, same_iff, sameAll_iff]

end

instance : DecidableEq Expr := fun a b => decidable_of_iff _ (same_iff a b)

end Expr

namespace Stmt

def line : Stmt → UInt32
  | .assign l .. | .update l .. | .ifElse l .. | .whileLoop l .. | .define l .. | .ret l
      .. | .eval l ..
  | .pass l | .unsupported l .. => l

def atLine (l : UInt32) : Stmt → Stmt
  | .assign _ ts v => .assign l ts v
  | .update _ t op v => .update l t op v
  | .ifElse _ t b o => .ifElse l t b o
  | .whileLoop _ t b => .whileLoop l t b
  | .define _ n ps b => .define l n ps b
  | .ret _ v => .ret l v
  | .eval _ v => .eval l v
  | .pass _ => .pass l
  | .unsupported _ c => .unsupported l c

@[simp] theorem line_atLine (l : UInt32) (s : Stmt) : (s.atLine l).line = l := by
  cases s <;> rfl

/-- The name of the construct in diagnostics. -/
def construct : Stmt → String
  | .assign .. => "assignment"
  | .update .. => "augmented assignment"
  | .ifElse .. => "if"
  | .whileLoop .. => "while"
  | .define .. => "function definition"
  | .ret .. => "return"
  | .eval .. => "expression statement"
  | .pass _ => "pass"
  | .unsupported _ c => c

def routine? : Stmt → Option Routine
  | .define line name params body => some ⟨line, name, params, body⟩
  | _ => none

/-- The expressions that stand in the statement itself, not in statements inside it. -/
def expressions : Stmt → List Expr
  | .assign _ targets value => targets ++ [value]
  | .update _ target _ value => [target, value]
  | .ifElse _ test .. => [test]
  | .whileLoop _ test _ => [test]
  | .ret _ value => value.toList
  | .eval _ value => [value]
  | .define .. | .pass _ | .unsupported .. => []

mutual

def same : Stmt → Stmt → Bool
  | .assign l ts v, .assign l' ts' v' => l = l' && ts = ts' && v = v'
  | .update l t op v, .update l' t' op' v' => l = l' && t = t' && op = op' && v = v'
  | .ifElse l t b o, .ifElse l' t' b' o' => l = l' && t = t' && sameAll b b' && sameAll o o'
  | .whileLoop l t b, .whileLoop l' t' b' => l = l' && t = t' && sameAll b b'
  | .define l n ps b, .define l' n' ps' b' => l = l' && n = n' && ps = ps' && sameAll b b'
  | .ret l v, .ret l' v' => l = l' && v = v'
  | .eval l v, .eval l' v' => l = l' && v = v'
  | .pass l, .pass l' => l = l'
  | .unsupported l c, .unsupported l' c' => l = l' && c = c'
  | _, _ => false

def sameAll : List Stmt → List Stmt → Bool
  | [], [] => true
  | a :: as, b :: bs => same a b && sameAll as bs
  | _, _ => false

end

mutual

theorem same_iff (a b : Stmt) : same a b = true ↔ a = b := by
  cases a <;> cases b <;> simp [same, sameAll_iff, and_assoc]

theorem sameAll_iff (as bs : List Stmt) : sameAll as bs = true ↔ as = bs := by
  cases as <;> cases bs <;> simp [sameAll, same_iff, sameAll_iff]

end

instance : DecidableEq Stmt := fun a b => decidable_of_iff _ (same_iff a b)

end Stmt

deriving instance DecidableEq for Script

namespace Script

/-- The routines in the order of their definitions. Definitions inside other statements do not
count. -/
def routines (s : Script) : List Routine := s.body.filterMap Stmt.routine?

/-- The statements that run at top level: all but the routine definitions. -/
def topLevel (s : Script) : List Stmt := s.body.filter (·.routine?.isNone)

end Script
end TreeAsm

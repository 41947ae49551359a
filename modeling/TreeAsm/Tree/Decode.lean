import TreeAsm.Json.Reader
import TreeAsm.Tree.Basic

/-! Program trees from JSON. A value is read from the inside out: each value gets the expression,
the statement and the lists of these that it stands for, if it stands for any, and an object or
array is read from the readings of its parts. Fields that a node does not have are passed over, so a
part that stands for nothing only matters where it is asked for. -/
namespace TreeAsm

namespace Json

def text? : Json → Option String
  | .str s => some s
  | _ => none

/-- A line number has 32 bits. -/
def line? : Json → Option UInt32
  | .num (.int n) => if 0 ≤ n ∧ n < 0x100000000 then some (UInt32.ofNat n.toNat) else none
  | _ => none

/-- A tag is the word for an entry of the table, or its place in it. -/
def tag? {α : Type} (table : List (String × α)) : Json → Option α
  | .str s => table.lookup s
  | .num (.int n) => if 0 ≤ n then (table[n.toNat]?).map (·.2) else none
  | _ => none

/-- An operator is a word, or an object with the word as its only key and nothing under it. -/
def operator? : Json → Option String
  | .str s => some s
  | .obj [(s, .null)] => some s
  | .obj [(s, .obj [])] => some s
  | _ => none

/-- Integers count as reals where a real is asked for. -/
def Number.toReal? : Number → Option Binary64.Finite
  | .int n => Binary64.Finite.ofDecimal? (n < 0) ⟨n.natAbs, 0⟩
  | .real x => some x

def int64? : Number → Option Int64
  | .int n =>
    if -0x8000000000000000 ≤ n ∧ n < 0x8000000000000000 then some (Int64.ofInt n) else none
  | .real _ => none

end Json

namespace Literal

/-- An object with one key, which names the kind. -/
def ofJson? : Json → Option Literal
  | .obj [("int", .num n)] => (Json.int64? n).map .int
  | .obj [("real", .num n)] => n.toReal?.map fun x => .real (.finite x)
  | .obj [("bool", .bool b)] => some (.bool b)
  | .obj [("str", .str s)] => some (.str s)
  | _ => none

end Literal

namespace Param

/-- No annotation may be left out or written as null. -/
def annotation? : Option Json → Option (Option String)
  | none => some none
  | some .null => some none
  | some (.str s) => some (some s)
  | some _ => none

def ofJson? : Json → Option Param
  | .obj members => do
    let name ← (← members.lookup "name").text?
    let annotation ← annotation? (members.lookup "annotation")
    some ⟨name, annotation⟩
  | .arr [name] => name.text?.map fun n => ⟨n, none⟩
  | .arr [name, annotation] => do some ⟨← name.text?, ← annotation? (some annotation)⟩
  | _ => none

end Param

/-- What a JSON value stands for inside a program tree. -/
structure Reading where
  json : Json
  expr : Option Expr
  exprs : Option (List Expr)
  stmt : Option Stmt
  stmts : Option (List Stmt)

/-- The named parts of an object. -/
abbrev Fields := List (String × Reading)

namespace Fields

def json? (fs : Fields) (key : String) : Option Json := (fs.lookup key).map (·.json)

def text? (fs : Fields) (key : String) : Option String := do (← fs.json? key).text?

def expr? (fs : Fields) (key : String) : Option Expr := do (← fs.lookup key).expr

def exprs? (fs : Fields) (key : String) : Option (List Expr) := do (← fs.lookup key).exprs

def stmts? (fs : Fields) (key : String) : Option (List Stmt) := do (← fs.lookup key).stmts

/-- A list field that is empty when it is left out. -/
def listOrEmpty {α : Type} (read : Reading → Option (List α)) (fs : Fields) (key : String) :
    Option (List α) :=
  match fs.lookup key with
  | none => some []
  | some r => read r

/-- No expression may be left out or written as null. -/
def optionalExpr? (fs : Fields) (key : String) : Option (Option Expr) :=
  match fs.lookup key with
  | none => some none
  | some r => match r.json with
    | .null => some none
    | _ => r.expr.map some

end Fields

namespace Expr

inductive Kind where
  | literal
  | name
  | binary
  | unary
  | call
  | unsupported
deriving DecidableEq, Repr

def kinds : List (String × Kind) :=
  [("literal", .literal), ("name", .name), ("bin_op", .binary), ("unary_op", .unary),
    ("call", .call), ("unsupported", .unsupported)]

/-- The fields of a node in the order of its array form. -/
def Kind.fields : Kind → List String
  | .literal => ["value"]
  | .name => ["id"]
  | .binary => ["op", "left", "right"]
  | .unary => ["op", "operand"]
  | .call => ["func", "args"]
  | .unsupported => ["construct"]

def ofFields? (fs : Fields) : Kind → Option Expr
  | .literal => do some (.literal (← Literal.ofJson? (← fs.json? "value")))
  | .name => do some (.name (← fs.text? "id"))
  | .binary => do
    let op ← BinaryOp.ofSymbol? (← (← fs.json? "op").operator?)
    some (.binary op (← fs.expr? "left") (← fs.expr? "right"))
  | .unary => do
    let op ← UnaryOp.ofSymbol? (← (← fs.json? "op").operator?)
    some (.unary op (← fs.expr? "operand"))
  | .call => do some (.call (← fs.text? "func") (← fs.listOrEmpty (·.exprs) "args"))
  | .unsupported => do some (.unsupported (← fs.text? "construct"))

/-- An object says its kind under `kind`. -/
def ofObject? (fs : Fields) : Option Expr := do ofFields? fs (← (← fs.json? "kind").tag? kinds)

/-- An array holds the kind and then the fields in order; fields at the end that have a default may
be left out, and there may be no more values than fields. -/
def ofArray? : List Reading → Option Expr
  | [] => none
  | tag :: rest => do
    let kind ← tag.json.tag? kinds
    if rest.length ≤ kind.fields.length then ofFields? (kind.fields.zip rest) kind else none

end Expr

namespace Stmt

inductive Kind where
  | assign
  | update
  | ifElse
  | whileLoop
  | define
  | ret
  | eval
  | pass
  | unsupported
deriving DecidableEq, Repr

def kinds : List (String × Kind) :=
  [("assign", .assign), ("aug_assign", .update), ("if", .ifElse), ("while", .whileLoop),
    ("function_def", .define), ("return", .ret), ("expr", .eval), ("pass", .pass),
    ("unsupported", .unsupported)]

def params? (r : Reading) : Option (List Param) :=
  match r.json with
  | .arr items => items.mapM Param.ofJson?
  | _ => none

def ofFields? (fs : Fields) (line : UInt32) : Kind → Option Stmt
  | .assign => do some (.assign line (← fs.exprs? "targets") (← fs.expr? "value"))
  | .update => do
    let op ← BinaryOp.ofSymbol? (← (← fs.json? "op").operator?)
    some (.update line (← fs.expr? "target") op (← fs.expr? "value"))
  | .ifElse => do
    some (.ifElse line (← fs.expr? "test") (← fs.stmts? "body")
      (← fs.listOrEmpty (·.stmts) "orelse"))
  | .whileLoop => do some (.whileLoop line (← fs.expr? "test") (← fs.stmts? "body"))
  | .define => do
    some (.define line (← fs.text? "name") (← fs.listOrEmpty params? "params") (← fs.stmts? "body"))
  | .ret => do some (.ret line (← fs.optionalExpr? "value"))
  | .eval => do some (.eval line (← fs.expr? "value"))
  | .pass => some (.pass line)
  | .unsupported => do some (.unsupported line (← fs.text? "construct"))

/-- A line that is left out is zero. -/
def line? (fs : Fields) : Option UInt32 :=
  match fs.json? "line" with
  | none => some 0
  | some v => v.line?

/-- A statement is an object that says its kind under `kind`. -/
def ofObject? (fs : Fields) : Option Stmt := do
  ofFields? fs (← line? fs) (← (← fs.json? "kind").tag? kinds)

end Stmt

namespace Reading

mutual

def ofJson : Json → Reading
  | .arr items =>
    let rs := ofItems items
    { json := .arr items
      expr := Expr.ofArray? rs
      exprs := rs.mapM (·.expr)
      stmt := none
      stmts := rs.mapM (·.stmt) }
  | .obj members =>
    let fs := ofMembers members
    { json := .obj members
      expr := Expr.ofObject? fs
      exprs := none
      stmt := Stmt.ofObject? fs
      stmts := none }
  | v => ⟨v, none, none, none, none⟩

def ofItems : List Json → List Reading
  | [] => []
  | v :: r => ofJson v :: ofItems r

def ofMembers : List (String × Json) → Fields
  | [] => []
  | (key, v) :: r => (key, ofJson v) :: ofMembers r

end

end Reading

def Expr.ofJson? (v : Json) : Option Expr := (Reading.ofJson v).expr

def Stmt.ofJson? (v : Json) : Option Stmt := (Reading.ofJson v).stmt

/-- Why a text is no program tree. -/
inductive LoadError where
  | notJson
  | noBody
  /-- The first statement of the body that cannot be read, counted from zero. -/
  | malformed (index : Nat)
deriving DecidableEq, Repr

namespace LoadError

/-- Texts that are no JSON have no message of their own. -/
def message? : LoadError → Option String
  | .notJson => none
  | .noBody => some "tree has no `body` array"
  | .malformed index => some ("statement " ++ toString index ++ " of `body` is malformed")

end LoadError

namespace Script

/-- The array under `body`. -/
def bodyItems? : Json → Option (List Json)
  | .obj members => match members.lookup "body" with
    | some (.arr items) => some items
    | _ => none
  | _ => none

/-- The statements from place `index` on. -/
def readBody (index : Nat) : List Json → Except LoadError (List Stmt)
  | [] => .ok []
  | v :: r =>
    match Stmt.ofJson? v with
    | none => .error (.malformed index)
    | some s => (readBody (index + 1) r).map (s :: ·)

/-- The script that a text holds. -/
def load (text : String) : Except LoadError Script :=
  match Json.read? text with
  | none => .error .notJson
  | some v =>
    match bodyItems? v with
    | none => .error .noBody
    | some items => (readBody 0 items).map Script.mk

end Script
end TreeAsm

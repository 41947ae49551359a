import TreeAsm.Json.Printer
import TreeAsm.Tree.Decode

/-! Program trees as JSON. Every field is written, also one that could be left out. -/
namespace TreeAsm

/-- Values that are not finite have no JSON form; null stands in their place and is not read
back. -/
def Binary64.toJson : Binary64 → Json
  | .finite x => .num (.real x)
  | .infinite _ => .null
  | .nan => .null

def Literal.toJson : Literal → Json
  | .int n => .obj [("int", .num (.int n.toInt))]
  | .real x => .obj [("real", x.toJson)]
  | .bool b => .obj [("bool", .bool b)]
  | .str s => .obj [("str", .str s)]

def Param.toJson (p : Param) : Json :=
  .obj [("name", .str p.name), ("annotation", (p.annotation.map Json.str).getD .null)]

namespace Expr

mutual

def toJson : Expr → Json
  | .literal v => .obj [("kind", .str "literal"), ("value", v.toJson)]
  | .name id => .obj [("kind", .str "name"), ("id", .str id)]
  | .binary op l r =>
    .obj [("kind", .str "bin_op"), ("op", .str op.symbol), ("left", toJson l), ("right", toJson r)]
  | .unary op e => .obj [("kind", .str "unary_op"), ("op", .str op.symbol), ("operand", toJson e)]
  | .call f args => .obj [("kind", .str "call"), ("func", .str f), ("args", .arr (toJsons args))]
  | .unsupported c => .obj [("kind", .str "unsupported"), ("construct", .str c)]

def toJsons : List Expr → List Json
  | [] => []
  | e :: r => toJson e :: toJsons r

end

end Expr

namespace Stmt

/-- A statement node: line and kind, then the fields. -/
def node (line : UInt32) (kind : String) (fields : List (String × Json)) : Json :=
  .obj (("line", .num (.int line.toNat)) :: ("kind", .str kind) :: fields)

mutual

def toJson : Stmt → Json
  | .assign line targets value =>
    node line "assign" [("targets", .arr (Expr.toJsons targets)), ("value", value.toJson)]
  | .update line target op value =>
    node line "aug_assign"
      [("target", target.toJson), ("op", .str op.symbol), ("value", value.toJson)]
  | .ifElse line test body orelse =>
    node line "if" [("test", test.toJson), ("body", .arr (toJsons body)),
      ("orelse", .arr (toJsons orelse))]
  | .whileLoop line test body =>
    node line "while" [("test", test.toJson), ("body", .arr (toJsons body))]
  | .define line name params body =>
    node line "function_def"
      [("name", .str name), ("params", .arr (params.map Param.toJson)),
        ("body", .arr (toJsons body))]
  | .ret line value => node line "return" [("value", (value.map Expr.toJson).getD .null)]
  | .eval line value => node line "expr" [("value", value.toJson)]
  | .pass line => node line "pass" []
  | .unsupported line construct => node line "unsupported" [("construct", .str construct)]

def toJsons : List Stmt → List Json
  | [] => []
  | s :: r => toJson s :: toJsons r

end

end Stmt

namespace Script

def toJson (s : Script) : Json := .obj [("body", .arr (Stmt.toJsons s.body))]

/-- The text of a script. -/
def dump (s : Script) : String := s.toJson.pretty

/-- Whether a text loads as this script. -/
def loadsFrom (s : Script) (text : String) : Except LoadError Bool :=
  (load text).map (decide <| · = s)

end Script
end TreeAsm

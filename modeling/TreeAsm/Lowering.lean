import TreeAsm.Emission
import TreeAsm.Frame
import TreeAsm.Tree.Names

/-! Statements and expressions as stack code. The code of an expression leaves one word on the
stack, that of a statement leaves the stack as it was. -/
namespace TreeAsm

/-- What the names in a body mean. -/
structure Env where
  resolve : String → Option Location
  /-- The routine whose body it is. -/
  routine : Option String
  /-- The cell for the result and the label of the end, where returning is allowed. -/
  result : Option (Location × Label)
  callee : String → Option Frame

def BinaryOp.opcode : BinaryOp → Opcode
  | .add => .add
  | .sub => .sub
  | .mul => .mul
  | .div => .div
  | .mod => .mod
  | .eq => .cmpEq
  | .ne => .cmpNe
  | .lt => .cmpLt
  | .le => .cmpLe
  | .gt => .cmpGt
  | .ge => .cmpGe
  | .and => .and
  | .or => .or

def UnaryOp.opcode : UnaryOp → Opcode
  | .neg => .neg
  | .not => .not

namespace Lowering

def unsupported {α : Type} (env : Env) (line : UInt32) (construct : String) : Emit α :=
  .reject (.unsupported construct env.routine line)

def locate (env : Env) (line : UInt32) (name : String) : Emit Location :=
  match env.resolve name with
  | some loc => pure loc
  | none => .reject (.unresolvedName name env.routine line)

/-- Only names can be assigned. -/
def target (env : Env) (line : UInt32) : Expr → Emit Location
  | .name id => locate env line id
  | e => unsupported env line ("assignment to " ++ e.construct)

def literal : Literal → Emit Unit
  | .int n => .on .push (.imm n.toInt)
  | .bool b => .on .push (.imm (if b then 1 else 0))
  | .real x => .on .push (.real x)
  | .str s => do
    let l ← Emit.intern s
    .on .push (.addr l)

/-- Printing one value is a statement; reading takes no argument. `args` is the code of the
arguments. -/
def builtin (env : Env) (line : UInt32) (func : String) (count : Nat) (args : Emit Unit)
    (used : Bool) : Emit Unit :=
  if func = "print" ∧ count = 1 ∧ used = false then do
    args
    .bare .deco
  else if func = "input" ∧ count = 0 then do
    .bare .deci
    if used then pure () else .on .addsp (.imm 1)
  else if func = "print" ∨ func = "input" then
    unsupported env line ("`" ++ func ++ "` with " ++ toString count ++ " argument(s)")
  else .reject (.unknownRoutine func env.routine line)

/-- Arguments, the call, the arguments dropped, and the result fetched if it is used. -/
def call (env : Env) (line : UInt32) (func : String) (count : Nat) (args : Emit Unit)
    (used : Bool) : Emit Unit :=
  match env.callee func with
  | none => builtin env line func count args used
  | some f =>
    if f.arity ≠ count then .reject (.arityMismatch func f.arity count env.routine line)
    else do
      args
      .on .call (.target (.plain f.routine))
      if count = 0 then pure () else .on .addsp (.imm count)
      if used then .on .push (.mem f.resultCell) else pure ()

mutual

def expr (env : Env) (line : UInt32) : Expr → Emit Unit
  | .literal v => literal v
  | .name id => do
    let loc ← locate env line id
    .on .push (.mem loc)
  | .binary op left right => do
    expr env line left
    expr env line right
    .bare op.opcode
  | .unary op operand => do
    expr env line operand
    .bare op.opcode
  | .call func args => call env line func args.length (exprs env line args) true
  | .unsupported construct => unsupported env line construct

def exprs (env : Env) (line : UInt32) : List Expr → Emit Unit
  | [] => pure ()
  | e :: r => do
    expr env line e
    exprs env line r

end

/-- An expression for its effect alone. -/
def discard (env : Env) (line : UInt32) : Expr → Emit Unit
  | .call func args => call env line func args.length (exprs env line args) false
  | e => do
    expr env line e
    .on .addsp (.imm 1)

def assign (env : Env) (line : UInt32) (value : Expr) : List Expr → Emit Unit
  | [t] => do
    let loc ← target env line t
    expr env line value
    .on .pop (.mem loc)
  | _ => unsupported env line "multiple assignment targets"

def update (env : Env) (line : UInt32) (t : Expr) (op : BinaryOp) (value : Expr) : Emit Unit := do
  let loc ← target env line t
  .on .push (.mem loc)
  expr env line value
  .bare op.opcode
  .on .pop (.mem loc)

/-- A return without a value returns zero. -/
def ret (env : Env) (line : UInt32) (value : Option Expr) : Emit Unit :=
  match env.result with
  | none => unsupported env line "return outside routine"
  | some (cell, exit) => do
    match value with
    | some e => expr env line e
    | none => .on .push (.imm 0)
    .on .pop (.mem cell)
    .on .br (.target exit)

def ifThen (test body : Emit Unit) : Emit Unit := do
  test
  let done ← Emit.fresh "endif"
  .on .brf (.target done)
  body
  .mark done

def ifThenElse (test body orelse : Emit Unit) : Emit Unit := do
  test
  let otherwise ← Emit.fresh "else"
  let done ← Emit.fresh "endif"
  .on .brf (.target otherwise)
  body
  .on .br (.target done)
  .mark otherwise
  orelse
  .mark done

def whileDo (test body : Emit Unit) : Emit Unit := do
  let head ← Emit.fresh "while"
  let done ← Emit.fresh "endwhile"
  .mark head
  test
  .on .brf (.target done)
  body
  .on .br (.target head)
  .mark done

mutual

def stmt (env : Env) : Stmt → Emit Unit
  | .assign line targets value => assign env line value targets
  | .update line t op value => update env line t op value
  | .ifElse line test body orelse =>
    if orelse.isEmpty then ifThen (expr env line test) (stmts env body)
    else ifThenElse (expr env line test) (stmts env body) (stmts env orelse)
  | .whileLoop line test body => whileDo (expr env line test) (stmts env body)
  | .define line name _ _ => unsupported env line (Stmt.nestedRoutine name)
  | .ret line value => ret env line value
  | .eval line value => discard env line value
  | .pass _ => pure ()
  | .unsupported line construct => unsupported env line construct

def stmts (env : Env) : List Stmt → Emit Unit
  | [] => pure ()
  | s :: r => do
    stmt env s
    stmts env r

end

end Lowering
end TreeAsm

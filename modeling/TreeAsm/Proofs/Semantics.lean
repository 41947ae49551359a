import Mathlib.Logic.Function.Basic
import TreeAsm.Tree.Names

/-! What a script does when it runs. Operands and arguments are evaluated from left to right, all of
them, the two sides of `and` and `or` included. A script that reads past the end of its input does
not end. -/
namespace TreeAsm

/-- Words of a machine: how literals, places and operators are understood, and how a word is read
from the input. -/
structure Words (W I : Type) where
  ofInt : Int → W
  ofReal : Binary64 → W
  ofAddress : Nat → W
  binary : BinaryOp → W → W → W
  unary : UnaryOp → W → W
  read : I → Option (W × I)
  /-- What a variable of a call holds before something is stored in it. -/
  blank : W

/-- What a script works on. -/
structure Store (W I : Type) where
  globals : String → W
  /-- The variables of the call that is running. -/
  locals : String → W
  /-- What each routine has returned last. -/
  results : String → W
  input : I
  output : List W

/-- Whether a statement ended at its end or by returning. -/
inductive Outcome where
  | next
  | returned
deriving DecidableEq

variable {W I : Type}

namespace Words

/-- The value of a global before the first assignment. -/
def zero (M : Words W I) : VarKind → W
  | .integer | .boolean => M.ofInt 0
  | .real => M.ofReal (.finite (.zero false))
  | .string => M.ofAddress 0

/-- The value of a string literal is the place where its text is kept. -/
def literal (M : Words W I) (text : String → W) : Literal → W
  | .int n => M.ofInt n.toInt
  | .bool b => M.ofInt (if b then 1 else 0)
  | .real x => M.ofReal x
  | .str s => text s

end Words

namespace Store

/-- The value of a name; `own` tells the names that belong to the running call. -/
def get (st : Store W I) (own : String → Bool) (n : String) : W :=
  if own n then st.locals n else st.globals n

def set (st : Store W I) (own : String → Bool) (n : String) (v : W) : Store W I :=
  if own n then { st with locals := Function.update st.locals n v }
  else { st with globals := Function.update st.globals n v }

/-- The result of a call is kept until the routine returns again. -/
def give (st : Store W I) (routine : String) (v : W) : Store W I :=
  { st with results := Function.update st.results routine v }

def print (st : Store W I) (v : W) : Store W I := { st with output := st.output ++ [v] }

end Store

/-- The names that arguments are bound to, each once. -/
def Routine.formals (r : Routine) : List String := (r.params.map Param.name).eraseDups

/-- The variables at the start of a call. -/
def Routine.bind (M : Words W I) (r : Routine) (args : List W) : String → W :=
  (r.formals.zip args).foldl (fun locals x => Function.update locals x.1 x.2) fun _ => M.blank

namespace Script

/-- The names of a routine's own: its parameters, and what it assigns and the script outside does
not. Outside routines there are none. -/
def own (s : Script) : Option Routine → String → Bool
  | none, _ => false
  | some r, n => n ∈ r.params.map Param.name ||
      (n ∈ (Stmt.bindsAll r.body).map Prod.fst && !(n ∈ (Stmt.bindsAll s.body).map Prod.fst : Bool))

def hasRoutine (s : Script) (name : String) : Bool := s.routines.any (·.name = name)

/-- Every global starts with the zero of its kind, which is that of the first assignment in the
text. -/
def start (s : Script) (M : Words W I) (input : I) : Store W I where
  globals n := (((Stmt.bindsAll s.body).lookup n).map M.zero).getD (M.ofInt 0)
  locals _ := M.blank
  results _ := M.ofInt 0
  input
  output := []

section Rules

variable (M : Words W I) (text : String → W) (s : Script)

mutual

/-- In a call of the routine, or at top level, an expression evaluates to a word. -/
inductive Evaluates : Option Routine → Store W I → Expr → W → Store W I → Prop where
  | literal (ρ : Option Routine) (st : Store W I) (v : Literal) :
      Evaluates ρ st (.literal v) (M.literal text v) st
  | name (ρ : Option Routine) (st : Store W I) (n : String) :
      Evaluates ρ st (.name n) (st.get (s.own ρ) n) st
  | binary {ρ : Option Routine} {st st₁ st' : Store W I} {l r : Expr} {v w : W} (op : BinaryOp)
      (hl : Evaluates ρ st l v st₁) (hr : Evaluates ρ st₁ r w st') :
      Evaluates ρ st (.binary op l r) (M.binary op v w) st'
  | unary {ρ : Option Routine} {st st' : Store W I} {e : Expr} {v : W} (op : UnaryOp)
      (h : Evaluates ρ st e v st') : Evaluates ρ st (.unary op e) (M.unary op v) st'
  /-- A call gives what the routine has returned last, be it in this call or in an earlier one. -/
  | call {ρ : Option Routine} {st st' : Store W I} {f : String} {args : List Expr}
      (h : Calls ρ st f args st') : Evaluates ρ st (.call f args) (st'.results f) st'
  | input {ρ : Option Routine} {st : Store W I} {v : W} {rest : I}
      (hf : s.hasRoutine "input" = false)
      (h : M.read st.input = some (v, rest)) :
      Evaluates ρ st (.call "input" []) v { st with input := rest }

inductive EvaluatesAll : Option Routine → Store W I → List Expr → List W → Store W I → Prop where
  | nil (ρ : Option Routine) (st : Store W I) : EvaluatesAll ρ st [] [] st
  | cons {ρ : Option Routine} {st st₁ st' : Store W I} {e : Expr} {r : List Expr}
      {v : W} {vs : List W}
      (h : Evaluates ρ st e v st₁) (hr : EvaluatesAll ρ st₁ r vs st') :
      EvaluatesAll ρ st (e :: r) (v :: vs) st'

/-- A routine is called with its arguments. The caller's variables are as before afterwards. -/
inductive Calls : Option Routine → Store W I → String → List Expr → Store W I → Prop where
  | intro {ρ : Option Routine} {st st₁ st₂ : Store W I} {r : Routine}
      {args : List Expr} {vs : List W}
      {o : Outcome} (hr : r ∈ s.routines) (ha : EvaluatesAll ρ st args vs st₁)
      (hn : vs.length = r.formals.length)
      (hb : RunsAll (some r) { st₁ with locals := r.bind M vs } r.body o st₂) :
      Calls ρ st r.name args { st₂ with locals := st₁.locals }

inductive Runs : Option Routine → Store W I → Stmt → Outcome → Store W I → Prop where
  | assign {ρ : Option Routine} {st st' : Store W I} {e : Expr} {v : W} (line : UInt32) (n : String)
      (h : Evaluates ρ st e v st') :
      Runs ρ st (.assign line [.name n] e) .next (st'.set (s.own ρ) n v)
  /-- The old value is the one from before the evaluation. -/
  | update {ρ : Option Routine} {st st' : Store W I} {e : Expr} {v : W} (line : UInt32) (n : String)
      (op : BinaryOp) (h : Evaluates ρ st e v st') :
      Runs ρ st (.update line (.name n) op e) .next
        (st'.set (s.own ρ) n (M.binary op (st.get (s.own ρ) n) v))
  | ifTrue {ρ : Option Routine} {st st₁ st' : Store W I} {test : Expr} {v : W}
      {body : List Stmt} {o : Outcome}
      (line : UInt32) (orelse : List Stmt) (ht : Evaluates ρ st test v st₁) (hv : v ≠ M.ofInt 0)
      (hb : RunsAll ρ st₁ body o st') : Runs ρ st (.ifElse line test body orelse) o st'
  | ifFalse {ρ : Option Routine} {st st₁ st' : Store W I} {test : Expr} {v : W}
      {orelse : List Stmt} {o : Outcome}
      (line : UInt32) (body : List Stmt) (ht : Evaluates ρ st test v st₁) (hv : v = M.ofInt 0)
      (ho : RunsAll ρ st₁ orelse o st') : Runs ρ st (.ifElse line test body orelse) o st'
  | whileEnd {ρ : Option Routine} {st st' : Store W I} {test : Expr} {v : W} (line : UInt32)
      (body : List Stmt)
      (ht : Evaluates ρ st test v st') (hv : v = M.ofInt 0) :
      Runs ρ st (.whileLoop line test body) .next st'
  | whileNext {ρ : Option Routine} {st st₁ st₂ st' : Store W I} {test : Expr} {v : W}
      {body : List Stmt}
      {o : Outcome} {line : UInt32} (ht : Evaluates ρ st test v st₁) (hv : v ≠ M.ofInt 0)
      (hb : RunsAll ρ st₁ body .next st₂) (hw : Runs ρ st₂ (.whileLoop line test body) o st') :
      Runs ρ st (.whileLoop line test body) o st'
  | whileReturned {ρ : Option Routine} {st st₁ st' : Store W I} {test : Expr} {v : W}
      {body : List Stmt}
      (line : UInt32) (ht : Evaluates ρ st test v st₁) (hv : v ≠ M.ofInt 0)
      (hb : RunsAll ρ st₁ body .returned st') : Runs ρ st (.whileLoop line test body) .returned st'
  /-- To define a routine does nothing by itself. -/
  | define (ρ : Option Routine) (st : Store W I) (line : UInt32) (name : String)
      (params : List Param)
      (body : List Stmt) : Runs ρ st (.define line name params body) .next st
  | ret {r : Routine} {st st' : Store W I} {e : Expr} {v : W} (line : UInt32)
      (h : Evaluates (some r) st e v st') :
      Runs (some r) st (.ret line (some e)) .returned (st'.give r.name v)
  | retZero (r : Routine) (st : Store W I) (line : UInt32) :
      Runs (some r) st (.ret line none) .returned (st.give r.name (M.ofInt 0))
  | eval {ρ : Option Routine} {st st' : Store W I} {e : Expr} {v : W} (line : UInt32)
      (h : Evaluates ρ st e v st') : Runs ρ st (.eval line e) .next st'
  | print {ρ : Option Routine} {st st' : Store W I} {e : Expr} {v : W} (line : UInt32)
      (hf : s.hasRoutine "print" = false) (h : Evaluates ρ st e v st') :
      Runs ρ st (.eval line (.call "print" [e])) .next (st'.print v)
  | pass (ρ : Option Routine) (st : Store W I) (line : UInt32) : Runs ρ st (.pass line) .next st

inductive RunsAll : Option Routine → Store W I → List Stmt → Outcome → Store W I → Prop where
  | nil (ρ : Option Routine) (st : Store W I) : RunsAll ρ st [] .next st
  | cons {ρ : Option Routine} {st st₁ st' : Store W I} {x : Stmt} {r : List Stmt} {o : Outcome}
      (h : Runs ρ st x .next st₁) (hr : RunsAll ρ st₁ r o st') : RunsAll ρ st (x :: r) o st'
  | returned {ρ : Option Routine} {st st' : Store W I} {x : Stmt} (r : List Stmt)
      (h : Runs ρ st x .returned st') : RunsAll ρ st (x :: r) .returned st'

end

variable {M text s}

/-- Routine definitions can be left out of a run. -/
theorem RunsAll.filter_routine? {ρ : Option Routine} {st st' : Store W I} {xs : List Stmt}
    {o : Outcome} (h : RunsAll M text s ρ st xs o st') :
    RunsAll M text s ρ st (xs.filter (·.routine?.isNone)) o st' := by
  induction xs generalizing st with
  | nil => exact h
  | cons x r ih =>
    cases h with
    | @cons _ _ st₁ _ _ _ _ hx hr =>
      have hr := ih hr
      by_cases hd : x.routine?.isNone = true
      · rw [List.filter_cons, if_pos hd]
        exact .cons hx hr
      · rw [List.filter_cons, if_neg hd]
        cases hx with
        | define => exact hr
        | _ => exact absurd rfl hd
    | returned _ hx =>
      have hd : x.routine?.isNone = true := by cases hx <;> rfl
      rw [List.filter_cons, if_pos hd]
      exact .returned _ hx

end Rules
end Script
end TreeAsm

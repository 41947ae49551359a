import TreeAsm.Proofs.Demands
import TreeAsm.Proofs.WellFormed

/-! Which bodies code generation admits, given what the names in them mean. Generation succeeds on
admitted statements only, and on those it fails for want of numbers only: what it draws is read off
the statements. -/
namespace TreeAsm

namespace Env

/-- The call has a routine with so many parameters, or is printing or reading in its place. -/
def AllowsCall (env : Env) (func : String) (count : Nat) (used : Bool) : Prop :=
  (∃ f, env.callee func = some f ∧ f.arity = count) ∨
    env.callee func = none ∧
    (func = "print" ∧ count = 1 ∧ used = false ∨ func = "input" ∧ count = 0)

def Resolves (env : Env) (n : String) : Prop := ∃ loc, env.resolve n = some loc

/-- The expression itself is allowed, whatever it is made of. -/
def Allows (env : Env) : Expr → Prop
  | .name n => env.Resolves n
  | .call func args => env.AllowsCall func args.length true
  | .unsupported _ => False
  | .literal _ | .binary .. | .unary .. => True

/-- The statement itself is admitted, whatever stands inside it. -/
def Admits (env : Env) : Stmt → Prop
  | .assign _ targets value =>
    (∃ n, targets = [.name n] ∧ env.Resolves n) ∧ ∀ q ∈ value.parts, env.Allows q
  | .update _ target _ value =>
    (∃ n, target = .name n ∧ env.Resolves n) ∧ ∀ q ∈ value.parts, env.Allows q
  | .ifElse _ test .. => ∀ q ∈ test.parts, env.Allows q
  | .whileLoop _ test _ => ∀ q ∈ test.parts, env.Allows q
  | .ret _ value => env.result.isSome = true ∧ ∀ e ∈ value, ∀ q ∈ e.parts, env.Allows q
  | .eval _ (.call func args) =>
    env.AllowsCall func args.length false ∧ ∀ q ∈ Expr.partsAll args, env.Allows q
  | .eval _ e => ∀ q ∈ e.parts, env.Allows q
  | .pass _ => True
  | .define .. | .unsupported .. => False

end Env

/-- What the code of the expression draws: the constants of its string literals. -/
def Expr.demands (e : Expr) : List Demand := e.texts.map .text

namespace Stmt

/-- How many numbers the statement itself takes for its labels. -/
def drawn : Stmt → Nat
  | .ifElse _ _ _ orelse => if orelse.isEmpty then 1 else 2
  | .whileLoop .. => 2
  | _ => 0

mutual

/-- What the code of the statement draws, in order. A loop takes its numbers before the test, a
conditional after it. -/
def demands : Stmt → List Demand
  | .assign _ _ value => value.demands
  | .update _ _ _ value => value.demands
  | .ifElse line test body orelse =>
    test.demands ++ List.replicate (drawn (.ifElse line test body orelse)) .number ++
      (demandsAll body ++ demandsAll orelse)
  | .whileLoop _ test body => .number :: .number :: (test.demands ++ demandsAll body)
  | .ret _ (some value) => value.demands
  | .ret _ none => []
  | .eval _ value => value.demands
  | .define .. | .pass _ | .unsupported .. => []

def demandsAll : List Stmt → List Demand
  | [] => []
  | x :: r => demands x ++ demandsAll r

end

end Stmt

namespace Lowering
open Emit

variable {env : Env} {line : UInt32} {s s' : Supply} {items : List Item}

section Admitted

theorem allowsCall_of_yields {func : String} {count : Nat} {args : Emit Unit} {used : Bool}
    (h : (call env line func count args used).Yields s () items s') :
    env.AllowsCall func count used := by
  rcases yields_call_iff.1 h with ⟨f, a, hf, hc, -⟩ | ⟨hn, hb⟩
  · exact .inl ⟨f, hf, hc⟩
  · refine .inr ⟨hn, ?_⟩
    rcases yields_builtin_iff.1 hb with ⟨hp, hc, hu, -⟩ | ⟨hi, hc, -⟩
    · exact .inl ⟨hp, hc, hu⟩
    · exact .inr ⟨hi, hc⟩

/-- The arguments of a call are generated, unless there are none. -/
theorem exists_args_of_yields {func : String} {count : Nat} {args : Emit Unit} {used : Bool}
    (h : (call env line func count args used).Yields s () items s') :
    count = 0 ∨ ∃ i s₁, args.Yields s () i s₁ := by
  rcases yields_call_iff.1 h with ⟨f, a, -, -, ha, -⟩ | ⟨-, hb⟩
  · exact .inr ⟨a, s', ha⟩
  · rcases yields_builtin_iff.1 hb with ⟨-, -, -, a, ha, -⟩ | ⟨-, hc, -⟩
    · exact .inr ⟨a, s', ha⟩
    · exact .inl hc

mutual

theorem allows_of_yields (e : Expr) {s s' : Supply} {items : List Item}
    (h : (expr env line e).Yields s () items s') : ∀ q ∈ e.parts, env.Allows q := by
  match e with
  | .literal v =>
    rw [Expr.parts, List.forall_mem_singleton]
    trivial
  | .name n =>
    obtain ⟨loc, hl, -⟩ := yields_name_iff.1 h
    rw [Expr.parts, List.forall_mem_singleton]
    exact ⟨loc, hl⟩
  | .binary op l r =>
    obtain ⟨i₁, s₁, i₂, hl, hr, -⟩ := yields_binary_iff.1 h
    rw [Expr.parts, List.forall_mem_cons, List.forall_mem_append]
    exact ⟨trivial, allows_of_yields l hl, allows_of_yields r hr⟩
  | .unary op e =>
    obtain ⟨i, hi, -⟩ := yields_unary_iff.1 h
    rw [Expr.parts, List.forall_mem_cons]
    exact ⟨trivial, allows_of_yields e hi⟩
  | .call func args =>
    rw [Expr.parts, List.forall_mem_cons]
    refine ⟨allowsCall_of_yields h, ?_⟩
    rcases exists_args_of_yields h with h0 | ⟨i, s₁, ha⟩
    · rw [List.length_eq_zero_iff.1 h0, Expr.partsAll]
      exact List.forall_mem_nil _
    · exact allowsAll_of_yields args ha
  | .unsupported c => exact absurd h not_yields_unsupported

theorem allowsAll_of_yields (es : List Expr) {s s' : Supply} {items : List Item}
    (h : (exprs env line es).Yields s () items s') : ∀ q ∈ Expr.partsAll es, env.Allows q := by
  match es with
  | [] => exact List.forall_mem_nil _
  | e :: r =>
    obtain ⟨i₁, s₁, i₂, he, hr, -⟩ := yields_exprs_cons_iff.1 h
    rw [Expr.partsAll, List.forall_mem_append]
    exact ⟨allows_of_yields e he, allowsAll_of_yields r hr⟩

end

theorem admits_eval_of_yields {e : Expr} (h : (discard env line e).Yields s () items s') :
    env.Admits (.eval line e) := by
  rcases yields_discard_iff.1 h with ⟨func, args, rfl, hc⟩ | ⟨hn, i, hi, -⟩
  · refine ⟨allowsCall_of_yields hc, ?_⟩
    rcases exists_args_of_yields hc with h0 | ⟨i, s₁, ha⟩
    · rw [List.length_eq_zero_iff.1 h0, Expr.partsAll]
      exact List.forall_mem_nil _
    · exact allowsAll_of_yields args ha
  · have hq := allows_of_yields e hi
    cases e with
    | call func args => exact absurd rfl (hn func args)
    | _ => exact hq

mutual

theorem admits_of_yields (x : Stmt) {s s' : Supply} {items : List Item}
    (h : (stmt env x).Yields s () items s') : ∀ y ∈ x.parts, env.Admits y := by
  match x with
  | .assign line targets value =>
    obtain ⟨n, loc, i, ht, hl, hv, -⟩ := yields_assign_iff.1 h
    rw [Stmt.parts, List.forall_mem_singleton]
    exact ⟨⟨n, ht, loc, hl⟩, allows_of_yields value hv⟩
  | .update line target op value =>
    obtain ⟨n, loc, i, ht, hl, hv, -⟩ := yields_update_iff.1 h
    rw [Stmt.parts, List.forall_mem_singleton]
    exact ⟨⟨n, ht, loc, hl⟩, allows_of_yields value hv⟩
  | .ifElse line test body orelse =>
    rw [stmt] at h
    rw [Stmt.parts, List.forall_mem_cons, List.forall_mem_append]
    split at h
    next ho =>
      obtain ⟨t, s₁, b, ht, -, hb, -⟩ := yields_ifThen_iff.1 h
      rw [List.isEmpty_iff.1 ho]
      exact ⟨allows_of_yields test ht, admitsAll_of_yields body hb, List.forall_mem_nil _⟩
    next =>
      obtain ⟨t, s₁, b, s₂, o, ht, -, hb, ho, -⟩ := yields_ifThenElse_iff.1 h
      exact ⟨allows_of_yields test ht, admitsAll_of_yields body hb, admitsAll_of_yields orelse ho⟩
  | .whileLoop line test body =>
    obtain ⟨t, s₁, b, -, ht, hb, -⟩ := yields_whileDo_iff.1 h
    rw [Stmt.parts, List.forall_mem_cons]
    exact ⟨allows_of_yields test ht, admitsAll_of_yields body hb⟩
  | .define line name params body => exact absurd h not_yields_unsupported
  | .ret line value =>
    obtain ⟨cell, exit, i, hr, hv, -⟩ := yields_ret_iff.1 h
    rw [Stmt.parts, List.forall_mem_singleton]
    refine ⟨by rw [hr]; rfl, ?_⟩
    rintro e rfl
    exact allows_of_yields e hv
  | .eval line value =>
    rw [Stmt.parts, List.forall_mem_singleton]
    exact admits_eval_of_yields h
  | .pass line =>
    rw [Stmt.parts, List.forall_mem_singleton]
    trivial
  | .unsupported line construct => exact absurd h not_yields_unsupported

/-- Code is generated for admitted statements only. -/
theorem admitsAll_of_yields (xs : List Stmt) {s s' : Supply} {items : List Item}
    (h : (stmts env xs).Yields s () items s') : ∀ y ∈ Stmt.partsAll xs, env.Admits y := by
  match xs with
  | [] => exact List.forall_mem_nil _
  | x :: r =>
    obtain ⟨i₁, s₁, i₂, hx, hr, -⟩ := yields_stmts_cons_iff.1 h
    rw [Stmt.partsAll, List.forall_mem_append]
    exact ⟨admits_of_yields x hx, admitsAll_of_yields r hr⟩

end

end Admitted

section Served

theorem serves_locate {n : String} (h : env.Resolves n) : (locate env line n).Serves [] := by
  obtain ⟨loc, hl⟩ := h
  rw [locate, hl]
  exact serves_pure loc

theorem serves_literal (v : Literal) : (literal v).Serves (Expr.literal v).demands := by
  cases v with
  | str t => exact (serves_intern t).concat fun _ => serves_on _ _
  | int n => exact serves_on _ _
  | real x => exact serves_on _ _
  | bool b => exact serves_on _ _

theorem serves_builtin {func : String} {count : Nat} {args : Emit Unit} {used : Bool}
    {ds : List Demand} (ha : args.Serves ds) (h0 : count = 0 → ds = [])
    (h : func = "print" ∧ count = 1 ∧ used = false ∨ func = "input" ∧ count = 0) :
    (builtin env line func count args used).Serves ds := by
  rcases h with h | ⟨rfl, rfl⟩
  · rw [builtin, if_pos h]
    exact ha.concat fun _ => serves_bare _
  · rw [builtin, if_neg (by simp), if_pos ⟨rfl, rfl⟩, h0 rfl]
    cases used with
    | false => exact (serves_bare _).concat fun _ => serves_on _ _
    | true => exact (serves_bare _).concat fun _ => serves_pure _

theorem serves_call {func : String} {count : Nat} {args : Emit Unit} {used : Bool}
    {ds : List Demand} (ha : args.Serves ds) (h0 : count = 0 → ds = [])
    (h : env.AllowsCall func count used) : (call env line func count args used).Serves ds := by
  rcases h with ⟨f, hf, hc⟩ | ⟨hn, hb⟩
  · simp only [call, hf, hc, ne_eq, not_true_eq_false, if_false]
    refine ha.concat fun _ => (serves_on _ _).concat fun _ => ?_
    have hu : (if used = true then Emit.on .push (.mem f.resultCell)
        else Pure.pure () : Emit Unit).Serves [] := by
      split
      · exact serves_on _ _
      · exact serves_pure _
    split
    · exact hu
    · exact (serves_on _ _).concat fun _ => hu
  · simp only [call, hn]
    exact serves_builtin ha h0 hb

/-- A call without arguments draws nothing. -/
theorem demands_of_length_eq_zero {func : String} {args : List Expr} (h : args.length = 0) :
    (Expr.call func args).demands = [] := by
  rw [List.length_eq_zero_iff.1 h]
  rfl

mutual

theorem serves_expr (e : Expr) (h : ∀ q ∈ e.parts, env.Allows q) :
    (expr env line e).Serves e.demands := by
  match e with
  | .literal v => exact serves_literal v
  | .name n =>
    rw [Expr.parts, List.forall_mem_singleton] at h
    exact (serves_locate h).concat fun _ => serves_on _ _
  | .binary op l r =>
    rw [Expr.parts, List.forall_mem_cons, List.forall_mem_append] at h
    rw [Expr.demands, Expr.texts, List.map_append]
    exact (serves_expr l h.2.1).bind fun _ => (serves_expr r h.2.2).concat fun _ => serves_bare _
  | .unary op e =>
    rw [Expr.parts, List.forall_mem_cons] at h
    exact (serves_expr e h.2).concat fun _ => serves_bare _
  | .call func args =>
    rw [Expr.parts, List.forall_mem_cons] at h
    exact serves_call (serves_exprs args h.2) demands_of_length_eq_zero h.1
  | .unsupported c => exact (h _ (Expr.mem_parts_self _)).elim

theorem serves_exprs (es : List Expr) (h : ∀ q ∈ Expr.partsAll es, env.Allows q) :
    (exprs env line es).Serves ((Expr.textsAll es).map .text) := by
  match es with
  | [] => exact serves_pure _
  | e :: r =>
    rw [Expr.partsAll, List.forall_mem_append] at h
    rw [Expr.textsAll, List.map_append]
    exact (serves_expr e h.1).bind fun _ => serves_exprs r h.2

end

theorem serves_discard {e : Expr} (h : env.Admits (.eval line e)) :
    (discard env line e).Serves e.demands := by
  cases e with
  | call func args => exact serves_call (serves_exprs args h.2) demands_of_length_eq_zero h.1
  | _ => exact (serves_expr _ h).concat fun _ => serves_on _ _

theorem serves_ret {value : Option Expr} (h : env.Admits (.ret line value)) :
    (ret env line value).Serves (Stmt.ret line value).demands := by
  obtain ⟨⟨cell, exit⟩, hr⟩ := Option.isSome_iff_exists.1 h.1
  simp only [ret, hr]
  cases value with
  | none => exact (serves_on _ _).concat fun _ => (serves_on _ _).concat fun _ => serves_on _ _
  | some e =>
    exact (serves_expr e (h.2 e rfl)).concat fun _ => (serves_on _ _).concat fun _ => serves_on _ _

theorem serves_ifThen {test body : Emit Unit} {ds es : List Demand} (ht : test.Serves ds)
    (hb : body.Serves es) : (ifThen test body).Serves (ds ++ [.number] ++ es) := by
  rw [List.append_assoc]
  exact ht.bind fun _ => (serves_fresh _).bind fun _ => (serves_on _ _).seq fun _ =>
    hb.concat fun _ => serves_mark _

theorem serves_ifThenElse {test body orelse : Emit Unit} {ds es fs : List Demand}
    (ht : test.Serves ds) (hb : body.Serves es) (ho : orelse.Serves fs) :
    (ifThenElse test body orelse).Serves (ds ++ [.number, .number] ++ (es ++ fs)) := by
  rw [List.append_assoc]
  exact ht.bind fun _ => (serves_fresh _).bind fun _ => (serves_fresh _).bind fun _ =>
    (serves_on _ _).seq fun _ =>
    hb.bind fun _ => (serves_on _ _).seq fun _ => (serves_mark _).seq fun _ =>
      ho.concat fun _ => serves_mark _

theorem serves_whileDo {test body : Emit Unit} {ds es : List Demand} (ht : test.Serves ds)
    (hb : body.Serves es) : (whileDo test body).Serves (.number :: .number :: (ds ++ es)) :=
  (serves_fresh _).bind fun _ => (serves_fresh _).bind fun _ => (serves_mark _).seq fun _ =>
    ht.bind fun _ => (serves_on _ _).seq fun _ => hb.concat fun _ =>
      (serves_on _ _).concat fun _ => serves_mark _

mutual

theorem serves_stmt (x : Stmt) (h : ∀ y ∈ x.parts, env.Admits y) :
    (stmt env x).Serves x.demands := by
  match x with
  | .assign line targets value =>
    rw [Stmt.parts, List.forall_mem_singleton] at h
    obtain ⟨⟨n, rfl, hn⟩, hv⟩ := h
    exact (serves_locate hn).seq fun _ => (serves_expr value hv).concat fun _ => serves_on _ _
  | .update line target op value =>
    rw [Stmt.parts, List.forall_mem_singleton] at h
    obtain ⟨⟨n, rfl, hn⟩, hv⟩ := h
    exact (serves_locate hn).seq fun _ => (serves_on _ _).seq fun _ =>
      (serves_expr value hv).concat fun _ => (serves_bare _).concat fun _ => serves_on _ _
  | .ifElse line test body orelse =>
    rw [Stmt.parts, List.forall_mem_cons, List.forall_mem_append] at h
    obtain ⟨ht, hb, ho⟩ := h
    rw [stmt, Stmt.demands, Stmt.drawn]
    split
    next he =>
      rw [List.isEmpty_iff.1 he, Stmt.demandsAll, List.append_nil]
      exact serves_ifThen (serves_expr test ht) (serves_stmts body hb)
    next =>
      exact serves_ifThenElse (serves_expr test ht) (serves_stmts body hb) (serves_stmts orelse ho)
  | .whileLoop line test body =>
    rw [Stmt.parts, List.forall_mem_cons] at h
    exact serves_whileDo (serves_expr test h.1) (serves_stmts body h.2)
  | .define line name params body =>
    rw [Stmt.parts, List.forall_mem_singleton] at h
    exact h.elim
  | .ret line value =>
    rw [Stmt.parts, List.forall_mem_singleton] at h
    exact serves_ret h
  | .eval line value =>
    rw [Stmt.parts, List.forall_mem_singleton] at h
    exact serves_discard h
  | .pass line => exact serves_pure _
  | .unsupported line construct =>
    rw [Stmt.parts, List.forall_mem_singleton] at h
    exact h.elim

/-- On admitted statements generation draws what the statements say, and fails only if that cannot
be had. -/
theorem serves_stmts (xs : List Stmt) (h : ∀ y ∈ Stmt.partsAll xs, env.Admits y) :
    (stmts env xs).Serves (Stmt.demandsAll xs) := by
  match xs with
  | [] => exact serves_pure _
  | x :: r =>
    rw [Stmt.partsAll, List.forall_mem_append] at h
    exact (serves_stmt x h.1).bind fun _ => serves_stmts r h.2

end

end Served

end Lowering
end TreeAsm

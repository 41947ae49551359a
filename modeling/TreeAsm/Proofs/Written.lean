import TreeAsm.Proofs.Numbering

/-! Generated code without the supplies that it was drawn from. What matters later is which pieces a
construct is made of and that the string constants it uses are among those of the program. -/
namespace TreeAsm

/-- The step writes the items from some supply on, and its string constants are in the pool. -/
def Emit.Writes (x : Emit Unit) (pool : List (String × Nat)) (items : List Item) : Prop :=
  ∃ s s', x.Yields s () items s' ∧ s'.strings.entries <+: pool

namespace Lowering
open Emit

variable {env : Env} {line : UInt32} {pool : List (String × Nat)} {items : List Item}

theorem entries_expr {e : Expr} {s s' : Supply} (h : (expr env line e).Yields s () items s') :
    s.strings.entries <+: s'.strings.entries := (Assembled.ofExpr e h).spends.entries_prefix

theorem entries_stmts {xs : List Stmt} {s s' : Supply} (h : (stmts env xs).Yields s () items s') :
    s.strings.entries <+: s'.strings.entries := (Assembled.ofStmts xs h).spends.entries_prefix

theorem writes_on {o : Opcode} {x : Operand} (h : (Emit.on o x).Writes pool items) :
    items = [.op (.on o x)] := by
  obtain ⟨s, s', h, -⟩ := h
  exact (yields_on_iff.1 h).1

theorem writes_text {t : String} (h : (literal (.str t)).Writes pool items) :
    ∃ n, (t, n) ∈ pool ∧ items = [.op (.on .push (.addr (StringPool.labelOf n)))] := by
  obtain ⟨s, s', h, hp⟩ := h
  obtain ⟨l, hi, rfl⟩ := yields_text_iff.1 h
  rcases Supply.intern?_cases hi with ⟨n, hm, rfl, rfl⟩ | ⟨-, rfl, rfl⟩
  · exact ⟨n, hp.subset hm, rfl⟩
  · exact ⟨s.next, hp.subset (by simp [StringPool.add]), rfl⟩

theorem writes_name {id : String} (h : (expr env line (.name id)).Writes pool items) :
    ∃ loc, env.resolve id = some loc ∧ items = [.op (.on .push (.mem loc))] := by
  obtain ⟨s, s', h, -⟩ := h
  obtain ⟨loc, hl, hi, -⟩ := yields_name_iff.1 h
  exact ⟨loc, hl, hi⟩

theorem writes_binary {op : BinaryOp} {l r : Expr}
    (h : (expr env line (.binary op l r)).Writes pool items) :
    ∃ i₁ i₂, (expr env line l).Writes pool i₁ ∧ (expr env line r).Writes pool i₂ ∧
      items = i₁ ++ (i₂ ++ [.op (.bare op.opcode)]) := by
  obtain ⟨s, s', h, hp⟩ := h
  obtain ⟨i₁, s₁, i₂, h₁, h₂, hi⟩ := yields_binary_iff.1 h
  exact ⟨i₁, i₂, ⟨s, s₁, h₁, (entries_expr h₂).trans hp⟩, ⟨s₁, s', h₂, hp⟩, hi⟩

theorem writes_unary {op : UnaryOp} {e : Expr}
    (h : (expr env line (.unary op e)).Writes pool items) :
    ∃ i, (expr env line e).Writes pool i ∧ items = i ++ [.op (.bare op.opcode)] := by
  obtain ⟨s, s', h, hp⟩ := h
  obtain ⟨i, hi, he⟩ := yields_unary_iff.1 h
  exact ⟨i, ⟨s, s', hi, hp⟩, he⟩

theorem writes_exprs_nil (h : (exprs env line []).Writes pool items) : items = [] := by
  obtain ⟨s, s', h, -⟩ := h
  exact (yields_exprs_nil_iff.1 h).1

theorem writes_exprs_cons {e : Expr} {r : List Expr}
    (h : (exprs env line (e :: r)).Writes pool items) :
    ∃ i₁ i₂, (expr env line e).Writes pool i₁ ∧ (exprs env line r).Writes pool i₂ ∧
      items = i₁ ++ i₂ := by
  obtain ⟨s, s', h, hp⟩ := h
  obtain ⟨i₁, s₁, i₂, h₁, h₂, hi⟩ := yields_exprs_cons_iff.1 h
  have he := (Assembled.ofExprs r h₂).spends.entries_prefix
  exact ⟨i₁, i₂, ⟨s, s₁, h₁, he.trans hp⟩, ⟨s₁, s', h₂, hp⟩, hi⟩

/-- A call with its result used or not: of a routine, or else built in. -/
theorem writes_call {func : String} {args : List Expr} {used : Bool}
    (h : (call env line func args.length (exprs env line args) used).Writes pool items) :
    (∃ f a, env.callee func = some f ∧ f.arity = args.length ∧ (exprs env line args).Writes pool a ∧
      items = a ++ callItems f args.length used) ∨
    (env.callee func = none ∧ func = "print" ∧ used = false ∧ ∃ e a, args = [e] ∧
      (expr env line e).Writes pool a ∧ items = a ++ [.op (.bare .deco)]) ∨
    (env.callee func = none ∧ func = "input" ∧ args = [] ∧ items = inputItems used) := by
  obtain ⟨s, s', h, hp⟩ := h
  rcases yields_call_iff.1 h with ⟨f, a, hf, hc, hy, hi⟩ | ⟨hn, hb⟩
  · exact .inl ⟨f, a, hf, hc, ⟨s, s', hy, hp⟩, hi⟩
  · rcases yields_builtin_iff.1 hb with ⟨hf, hc, hu, a, hy, hi⟩ | ⟨hf, hc, -, hi⟩
    · obtain ⟨e, rfl⟩ := List.length_eq_one_iff.1 hc
      obtain ⟨i₁, s₁, i₂, h₁, h₂, rfl⟩ := yields_exprs_cons_iff.1 hy
      obtain ⟨rfl, rfl⟩ := yields_exprs_nil_iff.1 h₂
      rw [List.append_nil] at hi
      exact .inr (.inl ⟨hn, hf, hu, e, i₁, rfl, ⟨s, s', h₁, hp⟩, hi⟩)
    · exact .inr (.inr ⟨hn, hf, List.length_eq_zero_iff.1 hc, hi⟩)

theorem writes_assign {targets : List Expr} {value : Expr}
    (h : (stmt env (.assign line targets value)).Writes pool items) :
    ∃ id loc i, targets = [.name id] ∧ env.resolve id = some loc ∧
      (expr env line value).Writes pool i ∧ items = i ++ [.op (.on .pop (.mem loc))] := by
  obtain ⟨s, s', h, hp⟩ := h
  obtain ⟨id, loc, i, ht, hl, hv, hi⟩ := yields_assign_iff.1 h
  exact ⟨id, loc, i, ht, hl, ⟨s, s', hv, hp⟩, hi⟩

theorem writes_update {t value : Expr} {op : BinaryOp}
    (h : (stmt env (.update line t op value)).Writes pool items) :
    ∃ id loc i, t = .name id ∧ env.resolve id = some loc ∧ (expr env line value).Writes pool i ∧
      items = .op (.on .push (.mem loc)) ::
        (i ++ [.op (.bare op.opcode), .op (.on .pop (.mem loc))]) := by
  obtain ⟨s, s', h, hp⟩ := h
  obtain ⟨id, loc, i, ht, hl, hv, hi⟩ := yields_update_iff.1 h
  exact ⟨id, loc, i, ht, hl, ⟨s, s', hv, hp⟩, hi⟩

theorem writes_ret {value : Option Expr} (h : (stmt env (.ret line value)).Writes pool items) :
    ∃ cell exit i, env.result = some (cell, exit) ∧ (returned env line value).Writes pool i ∧
      items = i ++ [.op (.on .pop (.mem cell)), .op (.on .br (.target exit))] := by
  obtain ⟨s, s', h, hp⟩ := h
  obtain ⟨cell, exit, i, hr, hv, hi⟩ := yields_ret_iff.1 h
  exact ⟨cell, exit, i, hr, ⟨s, s', hv, hp⟩, hi⟩

/-- Without an alternative there is one branch, with one there are two. -/
theorem writes_ifElse {test : Expr} {body orelse : List Stmt}
    (h : (stmt env (.ifElse line test body orelse)).Writes pool items) :
    ∃ t b n, (expr env line test).Writes pool t ∧ (stmts env body).Writes pool b ∧
      (orelse = [] ∧ items = ifItems t b n ∨
        ∃ o, (stmts env orelse).Writes pool o ∧ items = ifElseItems t b o n) := by
  obtain ⟨s, s', h, hp⟩ := h
  rw [stmt] at h
  split at h
  next ho =>
    obtain ⟨t, s₁, b, ht, -, hb, hi⟩ := yields_ifThen_iff.1 h
    have hpb := (entries_stmts hb).trans hp
    exact ⟨t, b, s₁.next, ⟨s, s₁, ht, hpb⟩, ⟨_, s', hb, hp⟩, .inl ⟨List.isEmpty_iff.1 ho, hi⟩⟩
  next =>
    obtain ⟨t, s₁, b, s₂, o, ht, -, hb, ho, hi⟩ := yields_ifThenElse_iff.1 h
    have hpo := (entries_stmts ho).trans hp
    have hpb := (entries_stmts hb).trans hpo
    exact ⟨t, b, s₁.next, ⟨s, s₁, ht, hpb⟩, ⟨_, s₂, hb, hpo⟩, .inr ⟨o, ⟨s₂, s', ho, hp⟩, hi⟩⟩

theorem writes_whileLoop {test : Expr} {body : List Stmt}
    (h : (stmt env (.whileLoop line test body)).Writes pool items) :
    ∃ t b n, (expr env line test).Writes pool t ∧ (stmts env body).Writes pool b ∧
      items = whileItems t b n := by
  obtain ⟨s, s', h, hp⟩ := h
  obtain ⟨t, s₁, b, -, ht, hb, hi⟩ := yields_whileDo_iff.1 h
  exact ⟨t, b, s.next, ⟨_, s₁, ht, (entries_stmts hb).trans hp⟩, ⟨s₁, s', hb, hp⟩, hi⟩

theorem writes_discard {e : Expr} (h : (discard env line e).Writes pool items) :
    (∃ func args, e = .call func args ∧
      (call env line func args.length (exprs env line args) false).Writes pool items) ∨
    ((∀ func args, e ≠ .call func args) ∧
      ∃ i, (expr env line e).Writes pool i ∧ items = i ++ [.op (.on .addsp (.imm 1))]) := by
  obtain ⟨s, s', h, hp⟩ := h
  rcases yields_discard_iff.1 h with ⟨func, args, he, hc⟩ | ⟨hne, i, hi, he⟩
  · exact .inl ⟨func, args, he, s, s', hc, hp⟩
  · exact .inr ⟨hne, i, ⟨s, s', hi, hp⟩, he⟩

theorem writes_stmts_nil (h : (stmts env []).Writes pool items) : items = [] := by
  obtain ⟨s, s', h, -⟩ := h
  exact (yields_stmts_nil_iff.1 h).1

theorem writes_stmts_cons {x : Stmt} {r : List Stmt} (h : (stmts env (x :: r)).Writes pool items) :
    ∃ i₁ i₂, (stmt env x).Writes pool i₁ ∧ (stmts env r).Writes pool i₂ ∧ items = i₁ ++ i₂ := by
  obtain ⟨s, s', h, hp⟩ := h
  obtain ⟨i₁, s₁, i₂, h₁, h₂, hi⟩ := yields_stmts_cons_iff.1 h
  exact ⟨i₁, i₂, ⟨s, s₁, h₁, (entries_stmts h₂).trans hp⟩, ⟨s₁, s', h₂, hp⟩, hi⟩

end Lowering
end TreeAsm

import TreeAsm.Proofs.Acceptance

/-! Why code generation rejects a body: some statement in it shows the offence that the error
reports. Names are checked before that, when a routine gets its locals, so that generation does not
find an unresolved one in a routine. -/
namespace TreeAsm

namespace Emit

variable {α β : Type} {P Q : CompileError → Prop}

/-- The step is rejected with such errors only. -/
def Rejects (x : Emit α) (P : CompileError → Prop) : Prop :=
  ∀ s e, (x s).result = .error (.rejected e) → P e

theorem Rejects.mono {x : Emit α} (hx : x.Rejects P) (h : ∀ e, P e → Q e) : x.Rejects Q :=
  fun s e he => h e (hx s e he)

theorem rejects_pure (a : α) : (Pure.pure a : Emit α).Rejects P := fun _ _ h => by simp at h

theorem rejects_reject {e : CompileError} (h : P e) : (reject e : Emit α).Rejects P := by
  intro s e' he
  obtain rfl : e = e' := by simpa [reject, fault] using he
  exact h

theorem rejects_on (o : Opcode) (x : Operand) : (on o x).Rejects P :=
  fun _ _ h => by simp [on, item] at h

theorem rejects_bare (o : Opcode) : (bare o).Rejects P := fun _ _ h => by simp [bare, item] at h

theorem rejects_mark (l : Label) : (mark l).Rejects P := fun _ _ h => by simp [mark, item] at h

/-- Running out of numbers is no rejection. -/
theorem rejects_ofSupply (draw : Supply → Option (Label × Supply)) : (ofSupply draw).Rejects P := by
  intro s e he
  unfold ofSupply at he
  split at he <;> simp at he

theorem rejects_fresh (stem : String) : (fresh stem).Rejects P := rejects_ofSupply _

theorem Rejects.bind {x : Emit α} {f : α → Emit β} (hx : x.Rejects P) (hf : ∀ a, (f a).Rejects P) :
    (x >>= f).Rejects P := by
  intro s e he
  cases hr : (x s).result with
  | error g =>
    rw [bind_apply_of_error hr] at he
    obtain rfl : g = .rejected e := Except.error.inj he
    exact hx s e hr
  | ok a =>
    rw [bind_apply_of_ok hr] at he
    exact hf a _ e he

end Emit

namespace Env

/-- The expression itself cannot be generated, whatever it is made of. Printing gives no value that
could be used. -/
inductive Refuses (env : Env) (line : UInt32) (used : Bool) : Expr → CompileError → Prop where
  | unresolved {n : String} (h : env.resolve n = none) :
      Refuses env line used (.name n) (.unresolvedName n env.routine line)
  | unsupported (construct : String) :
      Refuses env line used (.unsupported construct) (.unsupported construct env.routine line)
  | arity {func : String} {args : List Expr} {f : Frame} (h : env.callee func = some f)
      (hc : f.arity ≠ args.length) :
      Refuses env line used (.call func args)
        (.arityMismatch func f.arity args.length env.routine line)
  | misused {func : String} {args : List Expr} (h : env.callee func = none)
      (hf : func = "print" ∨ func = "input")
      (hu : ¬ env.AllowsCall func args.length used) :
      Refuses env line used (.call func args)
        (.unsupported ("`" ++ func ++ "` with " ++ toString args.length ++ " argument(s)")
          env.routine line)
  | unknown {func : String} {args : List Expr} (h : env.callee func = none) (hp : func ≠ "print")
      (hi : func ≠ "input") :
      Refuses env line used (.call func args) (.unknownRoutine func env.routine line)

/-- The statement itself shows the offence, whatever stands inside it. -/
inductive Offends (env : Env) : Stmt → CompileError → Prop where
  /-- The value of a call is used, unless the call is the whole statement. -/
  | evaluated {x : Stmt} {e q : Expr} {used : Bool} {err : CompileError} (he : e ∈ x.evaluated)
      (hq : q ∈ e.parts)
      (hu : ∀ func args, q = .call func args → (used = false ↔ x = .eval x.line q))
      (h : env.Refuses x.line used q err) : Offends env x err
  | unresolved {line : UInt32} {n : String} {value : Expr} (h : env.resolve n = none) :
      Offends env (.assign line [.name n] value) (.unresolvedName n env.routine line)
  | assigned {line : UInt32} {target value : Expr} (h : ∀ n, target ≠ .name n) :
      Offends env (.assign line [target] value)
        (.unsupported ("assignment to " ++ target.construct) env.routine line)
  | updated {line : UInt32} {target value : Expr} {op : BinaryOp} (h : ∀ n, target ≠ .name n) :
      Offends env (.update line target op value)
        (.unsupported ("assignment to " ++ target.construct) env.routine line)
  | several {line : UInt32} {targets : List Expr} {value : Expr} (h : targets.length ≠ 1) :
      Offends env (.assign line targets value)
        (.unsupported "multiple assignment targets" env.routine line)
  | nested (line : UInt32) (name : String) (params : List Param) (body : List Stmt) :
      Offends env (.define line name params body)
        (.unsupported (Stmt.nestedRoutine name) env.routine line)
  | outside {line : UInt32} {value : Option Expr} (h : env.result = none) :
      Offends env (.ret line value) (.unsupported "return outside routine" env.routine line)
  | unsupported (line : UInt32) (construct : String) :
      Offends env (.unsupported line construct) (.unsupported construct env.routine line)

end Env

namespace Lowering
open Emit

variable {env : Env} {line : UInt32} {P : CompileError → Prop}

theorem rejects_locate {n : String}
    (h : env.resolve n = none → P (.unresolvedName n env.routine line)) :
    (locate env line n).Rejects P := by
  unfold locate
  split
  next => exact rejects_pure _
  next hn => exact rejects_reject (h hn)

theorem rejects_target {t : Expr}
    (hn : ∀ n, t = .name n → env.resolve n = none → P (.unresolvedName n env.routine line))
    (ht : (∀ n, t ≠ .name n) →
      P (.unsupported ("assignment to " ++ t.construct) env.routine line)) :
    (target env line t).Rejects P := by
  cases t with
  | name n => exact rejects_locate (hn n rfl)
  | _ => exact rejects_reject (ht (by simp))

theorem rejects_literal (v : Literal) : (literal v).Rejects P := by
  cases v with
  | str t => exact (rejects_ofSupply _).bind fun _ => rejects_on _ _
  | _ => exact rejects_on _ _

theorem rejects_builtin {func : String} {args : List Expr} {code : Emit Unit} {used : Bool}
    (hcode : code.Rejects P) (h : env.callee func = none)
    (hP : ∀ e, env.Refuses line used (.call func args) e → P e) :
    (builtin env line func args.length code used).Rejects P := by
  unfold builtin
  split
  next => exact hcode.bind fun _ => rejects_bare _
  next hp =>
    split
    next =>
      refine (rejects_bare _).bind fun _ => ?_
      split
      · exact rejects_pure _
      · exact rejects_on _ _
    next hi =>
      have hu : ¬ env.AllowsCall func args.length used := by
        rintro (⟨f, hf, -⟩ | ⟨-, hb⟩)
        · simp [h] at hf
        · exact hb.elim hp hi
      split
      next hf => exact rejects_reject (hP _ (.misused h hf hu))
      next hf => exact rejects_reject (hP _ (.unknown h (not_or.1 hf).1 (not_or.1 hf).2))

theorem rejects_call {func : String} {args : List Expr} {code : Emit Unit} {used : Bool}
    (hcode : code.Rejects P) (hP : ∀ e, env.Refuses line used (.call func args) e → P e) :
    (call env line func args.length code used).Rejects P := by
  cases h : env.callee func with
  | none =>
    simp only [call, h]
    exact rejects_builtin hcode h hP
  | some f =>
    have hfetch : (if used = true then Emit.on .push (.mem f.resultCell)
        else Pure.pure () : Emit Unit).Rejects P := by
      split
      · exact rejects_on _ _
      · exact rejects_pure _
    by_cases hc : f.arity = args.length
    · simp only [call, h, hc, ne_eq, not_true_eq_false, if_false]
      refine hcode.bind fun _ => (rejects_on _ _).bind fun _ => ?_
      split
      · exact hfetch
      · exact (rejects_on _ _).bind fun _ => hfetch
    · simp only [call, h, ne_eq, hc, not_false_eq_true, if_true]
      exact rejects_reject (hP _ (.arity h hc))

mutual

theorem rejects_expr (e : Expr) (hP : ∀ q ∈ e.parts, ∀ err, env.Refuses line true q err → P err) :
    (expr env line e).Rejects P := by
  match e with
  | .literal v => exact rejects_literal v
  | .name n =>
    rw [Expr.parts, List.forall_mem_singleton] at hP
    exact (rejects_locate fun hn => hP _ (.unresolved hn)).bind fun _ => rejects_on _ _
  | .binary op l r =>
    rw [Expr.parts, List.forall_mem_cons, List.forall_mem_append] at hP
    exact (rejects_expr l hP.2.1).bind fun _ => (rejects_expr r hP.2.2).bind fun _ => rejects_bare _
  | .unary op e =>
    rw [Expr.parts, List.forall_mem_cons] at hP
    exact (rejects_expr e hP.2).bind fun _ => rejects_bare _
  | .call func args =>
    rw [Expr.parts, List.forall_mem_cons] at hP
    exact rejects_call (rejects_exprs args hP.2) hP.1
  | .unsupported c =>
    rw [Expr.parts, List.forall_mem_singleton] at hP
    exact rejects_reject (hP _ (.unsupported c))

theorem rejects_exprs (es : List Expr)
    (hP : ∀ q ∈ Expr.partsAll es, ∀ err, env.Refuses line true q err → P err) :
    (exprs env line es).Rejects P := by
  match es with
  | [] => exact rejects_pure _
  | e :: r =>
    rw [Expr.partsAll, List.forall_mem_append] at hP
    exact (rejects_expr e hP.1).bind fun _ => rejects_exprs r hP.2

end

/-- An expression that a statement evaluates is rejected for what the statement shows. -/
theorem rejects_evaluated {x : Stmt} {e : Expr} (he : e ∈ x.evaluated)
    (hx : ∀ line func args, x ≠ .eval line (.call func args)) :
    (expr env x.line e).Rejects (env.Offends x) := by
  refine rejects_expr e fun q hq _ h => .evaluated he hq ?_ h
  rintro func args rfl
  simp [hx]

theorem rejects_assign {value : Expr} {targets : List Expr} :
    (assign env line value targets).Rejects (env.Offends (.assign line targets value)) := by
  have hv : (expr env line value).Rejects (env.Offends (.assign line targets value)) :=
    rejects_evaluated (x := .assign line targets value) (List.mem_singleton_self _) (by simp)
  unfold assign
  split
  next t =>
    refine (rejects_target ?_ fun ht => .assigned ht).bind fun _ => hv.bind fun _ => rejects_on _ _
    rintro n rfl hn
    exact .unresolved hn
  next h =>
    refine rejects_reject (.several fun hl => ?_)
    obtain ⟨t, rfl⟩ := List.length_eq_one_iff.1 hl
    exact h t rfl

theorem rejects_update {t value : Expr} {op : BinaryOp} :
    (update env line t op value).Rejects (env.Offends (.update line t op value)) := by
  have hv : (expr env line value).Rejects (env.Offends (.update line t op value)) :=
    rejects_evaluated (x := .update line t op value) (by simp [Stmt.evaluated]) (by simp)
  refine (rejects_target ?_ fun ht => .updated ht).bind fun _ => (rejects_on _ _).bind fun _ =>
    hv.bind fun _ => (rejects_bare _).bind fun _ => rejects_on _ _
  rintro n rfl hn
  have hread : env.Refuses line true (.name n) (.unresolvedName n env.routine line) :=
    .unresolved hn
  exact .evaluated (by simp [Stmt.evaluated]) (Expr.mem_parts_self _) (by simp) hread

theorem rejects_ret {value : Option Expr} :
    (ret env line value).Rejects (env.Offends (.ret line value)) := by
  unfold ret
  split
  next h => exact rejects_reject (.outside h)
  next cell exit h =>
    cases value with
    | none => exact (rejects_on _ _).bind fun _ => (rejects_on _ _).bind fun _ => rejects_on _ _
    | some e =>
      have hv : (expr env line e).Rejects (env.Offends (.ret line (some e))) :=
        rejects_evaluated (x := .ret line (some e)) (by simp [Stmt.evaluated]) (by simp)
      exact hv.bind fun _ => (rejects_on _ _).bind fun _ => rejects_on _ _

theorem rejects_discard {e : Expr} : (discard env line e).Rejects (env.Offends (.eval line e)) := by
  have he : e ∈ (Stmt.eval line e).evaluated := List.mem_singleton_self e
  unfold discard
  split
  next func args =>
    refine rejects_call (rejects_exprs args fun q hq err h => ?_) fun err h => ?_
    · have hne : q ≠ .call func args := Expr.ne_call_of_mem_partsAll hq
      exact .evaluated he (List.mem_cons_of_mem _ hq) (by simp [hne.symm]) h
    · exact .evaluated he (Expr.mem_parts_self _) (by simp [Stmt.line]) h
  next hcall =>
    have hne : ∀ func args, e ≠ .call func args := hcall
    exact (rejects_evaluated he (by simp [hne])).bind fun _ => rejects_on _ _

theorem rejects_ifThen {test body : Emit Unit} (ht : test.Rejects P) (hb : body.Rejects P) :
    (ifThen test body).Rejects P :=
  ht.bind fun _ => (rejects_fresh _).bind fun _ => (rejects_on _ _).bind fun _ => hb.bind fun _ =>
    rejects_mark _

theorem rejects_ifThenElse {test body orelse : Emit Unit} (ht : test.Rejects P)
    (hb : body.Rejects P) (ho : orelse.Rejects P) : (ifThenElse test body orelse).Rejects P :=
  ht.bind fun _ => (rejects_fresh _).bind fun _ => (rejects_fresh _).bind fun _ =>
    (rejects_on _ _).bind fun _ =>
    hb.bind fun _ => (rejects_on _ _).bind fun _ => (rejects_mark _).bind fun _ => ho.bind fun _ =>
      rejects_mark _

theorem rejects_whileDo {test body : Emit Unit} (ht : test.Rejects P) (hb : body.Rejects P) :
    (whileDo test body).Rejects P :=
  (rejects_fresh _).bind fun _ => (rejects_fresh _).bind fun _ => (rejects_mark _).bind fun _ =>
    ht.bind fun _ =>
    (rejects_on _ _).bind fun _ => hb.bind fun _ => (rejects_on _ _).bind fun _ => rejects_mark _

mutual

theorem rejects_stmt (x : Stmt) (hP : ∀ y ∈ x.parts, ∀ e, env.Offends y e → P e) :
    (stmt env x).Rejects P := by
  match x with
  | .assign line targets value =>
    rw [Stmt.parts, List.forall_mem_singleton] at hP
    exact rejects_assign.mono hP
  | .update line target op value =>
    rw [Stmt.parts, List.forall_mem_singleton] at hP
    exact rejects_update.mono hP
  | .ifElse line test body orelse =>
    rw [Stmt.parts, List.forall_mem_cons, List.forall_mem_append] at hP
    have ht : (expr env line test).Rejects P :=
      (rejects_evaluated (List.mem_singleton_self _) (by simp)).mono hP.1
    rw [stmt]
    split
    · exact rejects_ifThen ht (rejects_stmts body hP.2.1)
    · exact rejects_ifThenElse ht (rejects_stmts body hP.2.1) (rejects_stmts orelse hP.2.2)
  | .whileLoop line test body =>
    rw [Stmt.parts, List.forall_mem_cons] at hP
    have ht : (expr env line test).Rejects P :=
      (rejects_evaluated (List.mem_singleton_self _) (by simp)).mono hP.1
    exact rejects_whileDo ht (rejects_stmts body hP.2)
  | .define line name params body =>
    rw [Stmt.parts, List.forall_mem_singleton] at hP
    exact rejects_reject (hP _ (.nested line name params body))
  | .ret line value =>
    rw [Stmt.parts, List.forall_mem_singleton] at hP
    exact rejects_ret.mono hP
  | .eval line value =>
    rw [Stmt.parts, List.forall_mem_singleton] at hP
    exact rejects_discard.mono hP
  | .pass line => exact rejects_pure _
  | .unsupported line construct =>
    rw [Stmt.parts, List.forall_mem_singleton] at hP
    exact rejects_reject (hP _ (.unsupported line construct))

/-- A body is rejected for an offence that a statement in it shows, at some depth of conditionals
and loops. -/
theorem rejects_stmts (xs : List Stmt) (hP : ∀ y ∈ Stmt.partsAll xs, ∀ e, env.Offends y e → P e) :
    (stmts env xs).Rejects P := by
  match xs with
  | [] => exact rejects_pure _
  | x :: r =>
    rw [Stmt.partsAll, List.forall_mem_append] at hP
    exact (rejects_stmt x hP.1).bind fun _ => rejects_stmts r hP.2

end

end Lowering

namespace CompileError

/-- Errors that are found before any code is generated: clashes of names, and unresolved names
inside a routine. -/
def isEarly : CompileError → Bool
  | .duplicateRoutine .. => true
  | .labelClash .. => true
  | .unresolvedName _ routine _ => routine.isSome
  | _ => false

end CompileError

/-- What a statement offends against is found early only if it is a name inside a routine. -/
theorem Env.Offends.exists_name {env : Env} {x : Stmt} {e : CompileError} (h : env.Offends x e)
    (he : e.isEarly = true) :
    env.routine.isSome = true ∧ ∃ n line, e = .unresolvedName n env.routine line := by
  cases h with
  | evaluated _ _ _ h =>
    cases h with
    | unresolved h => exact ⟨he, _, _, rfl⟩
    | _ => simp [CompileError.isEarly] at he
  | unresolved h => exact ⟨he, _, _, rfl⟩
  | _ => simp [CompileError.isEarly] at he

/-- A name that a statement leaves unresolved is one that it reads, or the one that it assigns. -/
theorem Env.Offends.unresolved_cases {env : Env} {x : Stmt} {n : String} {ρ : Option String}
    {line : UInt32} (h : env.Offends x (.unresolvedName n ρ line)) :
    env.resolve n = none ∧
    ((∃ e ∈ x.evaluated, .name n ∈ e.parts) ∨ ∃ value, x = .assign line [.name n] value) := by
  cases h with
  | evaluated he hq _ h =>
    cases h with
    | unresolved hn => exact ⟨hn, .inl ⟨_, he, hq⟩⟩
  | unresolved hn => exact ⟨hn, .inr ⟨_, rfl⟩⟩

namespace Layout

/-- In a routine every name of its own and every global has a place. -/
theorem resolves_routineEnv {l : Layout} {f : Frame} {n : String}
    (h : f.locals.contains n = true ∨ l.globals.contains n = true) :
    (l.routineEnv f).resolve n ≠ none := by
  rcases h with h | h
  · obtain ⟨i, hi⟩ := Option.isSome_iff_exists.1 h
    simp [routineEnv, Frame.resolve?, Frame.slot?, hi]
  · simp [routineEnv, Scope.staticCell?, h]

/-- Whatever a body assigns is a local or a global. -/
theorem contains_of_assigned {globals : Scope} {r : Routine} {line : UInt32} {n : String}
    {value : Expr} (h : .assign line [.name n] value ∈ Stmt.partsAll r.body) :
    (globals.localsOf r).contains n = true ∨ globals.contains n = true := by
  have hb : n ∈ (Stmt.bindsAll r.body).map Prod.fst :=
    Stmt.mem_bindsAll_iff.2 ⟨line, _, value, h, List.mem_singleton_self _⟩
  rw [Scope.contains_iff, Scope.contains_iff, Scope.mem_names_localsOf]
  by_cases hg : n ∈ globals.names
  · exact .inr hg
  · exact .inl (.inr ⟨hb, hg⟩)

/-- Once the locals of a routine are accepted, no name in its body is unresolved. -/
theorem not_offends_unresolved {l : Layout} {f : Frame} {r : Routine}
    (h : l.globals.locals r = .ok f.locals) {x : Stmt} (hx : x ∈ Stmt.partsAll r.body) (n : String)
    (ρ : Option String) (line : UInt32) :
    ¬ (l.routineEnv f).Offends x (.unresolvedName n ρ line) := by
  intro ho
  obtain ⟨hlocals, -, hreads⟩ := Scope.locals_eq_ok h
  obtain ⟨hn, hcases⟩ := ho.unresolved_cases
  refine resolves_routineEnv ?_ hn
  rcases hcases with ⟨e, he, hq⟩ | ⟨value, rfl⟩
  · exact hreads (n, x.line) (Stmt.mem_readsAll_iff.2 ⟨x, hx, rfl, e, he, hq⟩)
  · rw [hlocals]
    exact contains_of_assigned hx

theorem rejects_topBody (l : Layout) (s : Script) :
    (l.topBody s).Rejects fun e => e.isEarly = false := by
  refine Lowering.rejects_stmts _ fun x _ e ho => ?_
  by_contra he
  simpa [topEnv] using (ho.exists_name (by simpa using he)).1

theorem rejects_routineBody {l : Layout} {f : Frame} {r : Routine}
    (h : l.globals.locals r = .ok f.locals) :
    (l.routineBody f r).Rejects fun e => e.isEarly = false := by
  refine Lowering.rejects_stmts _ fun x hx e ho => ?_
  by_contra he
  obtain ⟨-, n, line, rfl⟩ := ho.exists_name (by simpa using he)
  exact not_offends_unresolved h hx n _ line ho

end Layout

theorem Emit.Rejects.run {body : Emit Unit} {P : CompileError → Prop} (h : body.Rejects P)
    {s s' : Supply} {e : CompileError} (he : body.run s = (.error (.rejected e), s')) : P e := by
  have hr : (body.run s).1 = .error (.rejected e) := by rw [he]
  refine h s e ?_
  cases hb : (body s).result with
  | ok _ => simp [Emit.run, hb, Except.map] at hr
  | error g => simpa [Emit.run, hb, Except.map] using hr

/-- If there are no blocks for the routines, it is for the body of one of them. -/
theorem Layout.exists_of_routineBlocks {l : Layout} {pairs : List (Routine × Frame)} {t t' : Supply}
    {g : Fault} (h : l.routineBlocks pairs t = (.error g, t')) :
    ∃ x ∈ pairs, ∃ u u', (l.routineBody x.2 x.1).run u = (.error g, u') := by
  induction pairs generalizing t t' with
  | nil => simp [routineBlocks] at h
  | cons x rest ih =>
    obtain ⟨r, f⟩ := x
    rw [routineBlocks] at h
    split at h
    next g' t₁ hrun =>
      obtain ⟨hg, -⟩ := Prod.mk.inj h
      obtain rfl : g' = g := Except.error.inj hg
      exact ⟨(r, f), List.mem_cons_self, t, t₁, hrun⟩
    next code t₁ hrun =>
      rcases ht : l.routineBlocks rest t₁ with ⟨tail, t₂⟩
      simp only [ht, Prod.mk.injEq] at h
      cases tail with
      | ok tail => simp [Except.map] at h
      | error g' =>
        obtain rfl : g' = g := by simpa [Except.map] using h.1
        obtain ⟨y, hy, hbody⟩ := ih ht
        exact ⟨y, List.mem_cons_of_mem _ hy, hbody⟩

namespace Script

variable {s : Script} {source : String} {seed : Nat}

/-- Where a compilation ends that gives no program: with the storage, before any number is drawn, or
in the code of the top level, or in that of a routine. -/
theorem compileFrom_error_cases {g : Fault} (h : (s.compileFrom source seed).result = .error g) :
    (Layout.ofScript s = .error g ∧ (s.compileFrom source seed).next = seed) ∨
      ∃ l, Layout.ofScript s = .ok l ∧ ((∃ t t', (l.topBody s).run t = (.error g, t')) ∨
        ∃ x ∈ s.routines.zip l.frames, ∃ t t', (l.routineBody x.2 x.1).run t = (.error g, t')) := by
  cases hl : Layout.ofScript s with
  | error g' =>
    obtain rfl : g' = g := by simpa [compileFrom, hl] using h
    exact .inl ⟨rfl, by simp only [compileFrom, hl]⟩
  | ok l =>
    refine .inr ⟨l, rfl, ?_⟩
    rcases htop : (l.topBody s).run (.start seed) with ⟨code, t⟩
    cases code with
    | error g' =>
      obtain rfl : g' = g := by simpa [compileFrom, hl, htop] using h
      exact .inl ⟨_, t, htop⟩
    | ok code =>
      rcases hb : l.routineBlocks (s.routines.zip l.frames) t with ⟨blocks, t'⟩
      cases blocks with
      | ok blocks => simp [compileFrom, hl, htop, hb, Except.map] at h
      | error g' =>
        obtain rfl : g' = g := by simpa [compileFrom, hl, htop, hb, Except.map] using h
        exact .inr (Layout.exists_of_routineBlocks hb)

/-- A compilation that is rejected early has drawn no number. -/
theorem next_eq_of_isEarly {e : CompileError} (he : e.isEarly = true)
    (h : (s.compileFrom source seed).result = .error (.rejected e)) :
    (s.compileFrom source seed).next = seed := by
  rcases compileFrom_error_cases h with ⟨-, hnext⟩ | ⟨l, hl, ⟨t, t', htop⟩ | ⟨x, hx, t, t', hbody⟩⟩
  · exact hnext
  · simp [(l.rejects_topBody s).run htop] at he
  · obtain ⟨-, -, hf⟩ := Layout.ofScript_eq_ok hl
    have hlocals := (Frame.ofRoutine_eq_ok (hf.ofRoutine_eq hx)).2
    simp [(Layout.rejects_routineBody hlocals).run hbody] at he

/-- Unresolved names are found before there is code. Generation finds none in a routine whose locals
are accepted, whatever other routines there are and whatever has been drawn before. A compilation
that is rejected for a clash of names, or for an unresolved name in a routine, leaves the numbering
where it was. -/
theorem unresolved_names_caught_first :
    (∀ (globals scope : Scope) (r : Routine) (f : Frame), globals.locals r = .ok scope →
      Frame.ofScope? r.name scope = some f →
      ∀ (frames : List Frame) (t : Supply) (n : String) (ρ : Option String) (line : UInt32),
        ((Layout.routineBody ⟨globals, frames⟩ f r).run t).1 ≠
          .error (.rejected (.unresolvedName n ρ line))) ∧
    ∀ (s : Script) (source : String) (seed : Nat) (e : CompileError), e.isEarly = true →
      (s.compileFrom source seed).result = .error (.rejected e) →
        (s.compileFrom source seed).next = seed := by
  refine ⟨fun globals scope r f hscope hf frames t n ρ line h => ?_, fun s source seed e =>
    next_eq_of_isEarly⟩
  have hlocals : globals.locals r = .ok f.locals := by
    unfold Frame.ofScope? at hf
    split at hf
    · rw [hscope, ← Option.some.inj hf]
    · simp at hf
  have hrejects : (Layout.routineBody ⟨globals, frames⟩ f r).Rejects fun e =>
      ∀ n ρ line, e ≠ .unresolvedName n ρ line := by
    refine Lowering.rejects_stmts _ fun x hx e ho n ρ line he => ?_
    subst he
    exact Layout.not_offends_unresolved (l := ⟨globals, frames⟩) hlocals hx n ρ line ho
  exact hrejects.run (Prod.ext h rfl) n ρ line rfl

/-- A routine with a name of each kind: a parameter, a local that is assigned and updated in a loop,
a global. -/
def tally : Routine where
  line := 2
  name := "tally"
  params := [⟨"x", none⟩]
  body :=
    [.whileLoop 3 (.name "x")
      [.assign 4 [.name "seen"] (.unary .neg (.name "total")),
        .update 5 (.name "seen") .add (.name "x")]]

/-- The top level would draw numbers, but the second routine reads a name that only the first one
has. -/
def strayName : Script where
  body :=
    [.assign 1 [.name "total"] (.literal (.int 3)),
      .define tally.line tally.name tally.params tally.body,
      .ifElse 6 (.name "total") [.eval 7 (.call "tally" [.name "total"])] [.pass 8],
      .define 9 "last" [] [.ret 10 (some (.call "tally" [.name "seen"]))]]

/-- The first routine is accepted, and generation from the middle of the numbers misses no name in
it. The whole script is rejected and leaves the numbering alone. -/
theorem strayName_caught_first :
    (∃ scope f, (Scope.globals strayName).locals tally = .ok scope ∧
      Frame.ofScope? tally.name scope = some f ∧
      ((Layout.routineBody ⟨Scope.globals strayName, []⟩ f tally).run (.start 7)).1 ≠
        .error (.rejected (.unresolvedName "seen" (some "tally") 5))) ∧
    (strayName.compileFrom "stray" 7).result =
      .error (.rejected (.unresolvedName "seen" (some "last") 10)) ∧
    (strayName.compileFrom "stray" 7).next = 7 := by
  have herror : (strayName.compileFrom "stray" 7).result =
      .error (.rejected (.unresolvedName "seen" (some "last") 10)) := by
    decide
  obtain ⟨scope, hscope⟩ : ∃ scope, (Scope.globals strayName).locals tally = .ok scope :=
    exists_eq_ok (by decide)
  have hsize : scope.size ≤ slotLimit := by
    rw [(Scope.locals_eq_ok hscope).1]
    decide
  have hframe : Frame.ofScope? tally.name scope = some ⟨tally.name, scope, hsize⟩ := dif_pos hsize
  obtain ⟨hroutine, hscript⟩ := unresolved_names_caught_first
  exact ⟨⟨scope, _, hscope, hframe,
    hroutine _ scope tally _ hscope hframe [] (.start 7) "seen" (some "tally") 5⟩, herror,
      hscript strayName "stray" 7 _ rfl herror⟩

end Script
end TreeAsm

import TreeAsm.Proofs.Rejection

/-! Diagnostics. A script that is rejected has what the error reports where the error says: a
statement on that line and in that routine, or at the top level, that shows the offence itself and
not in the statements inside it. -/
namespace TreeAsm

/-- What an expression is called where a value cannot be stored in it. -/
inductive Expr.Called : Expr → String → Prop where
  | literal (v : Literal) : Called (.literal v) "literal"
  | binary (op : BinaryOp) (left right : Expr) : Called (.binary op left right) "binary operation"
  | unary (op : UnaryOp) (operand : Expr) : Called (.unary op operand) "unary operation"
  | call (func : String) (args : List Expr) : Called (.call func args) "call"
  | unsupported (construct : String) : Called (.unsupported construct) construct

theorem Expr.called_construct {e : Expr} (h : ∀ n, e ≠ .name n) : e.Called e.construct := by
  cases e with
  | name n => exact absurd rfl (h n)
  | _ => constructor

namespace Script

/-- The statement stands on this line in the routine of this name, or at the top level if there is
no name. -/
def StandsAt (s : Script) (routine : Option String) (line : UInt32) (ρ : Option Routine)
    (x : Stmt) : Prop :=
  s.Holds ρ x ∧ ρ.map Routine.name = routine ∧ x.line = line

/-- The statement, or an expression or a target of its own, is of this construct, which is not
compiled there. -/
inductive IsConstruct (s : Script) (ρ : Option Routine) : Stmt → String → Prop where
  | unsupported (line : UInt32) (construct : String) :
      IsConstruct s ρ (.unsupported line construct) construct
  | nested (line : UInt32) (name : String) (params : List Param) (body : List Stmt) :
      IsConstruct s ρ (.define line name params body) ("nested routine `" ++ name ++ "`")
  | outside (line : UInt32) (value : Option Expr) (h : ρ = none) :
      IsConstruct s ρ (.ret line value) "return outside routine"
  | several {line : UInt32} {targets : List Expr} {value : Expr} (h : targets.length ≠ 1) :
      IsConstruct s ρ (.assign line targets value) "multiple assignment targets"
  | assigned {line : UInt32} {target value : Expr} {what : String} (h : target.Called what) :
      IsConstruct s ρ (.assign line [target] value) ("assignment to " ++ what)
  | updated {line : UInt32} {target value : Expr} {op : BinaryOp} {what : String}
      (h : target.Called what) :
      IsConstruct s ρ (.update line target op value) ("assignment to " ++ what)
  | expression {x : Stmt} {e : Expr} {construct : String} (he : e ∈ x.evaluated)
      (hq : .unsupported construct ∈ e.parts) : IsConstruct s ρ x construct
  /-- Printing or reading with a wrong number of arguments, or printing for its value, where no
  routine has the name. -/
  | builtin {x : Stmt} {e : Expr} {f : String} {args : List Expr} (he : e ∈ x.evaluated)
      (hq : .call f args ∈ e.parts) (hf : f = "print" ∨ f = "input")
      (hr : ∀ r ∈ s.routines, r.name ≠ f)
      (hc : ¬ s.MayCall x f args) :
      IsConstruct s ρ x ("`" ++ f ++ "` with " ++ toString args.length ++ " argument(s)")

/-- The script has what the error reports, in the place that the error names. -/
def Has (s : Script) : CompileError → Prop
  | .unsupported construct routine line =>
    ∃ ρ x, s.StandsAt routine line ρ x ∧ s.IsConstruct ρ x construct
  | .unresolvedName name routine line => ∃ ρ x, s.StandsAt routine line ρ x ∧
      (∃ e ∈ x.evaluated, .name name ∈ e.parts) ∧ ¬ s.Known ρ name
  | .unknownRoutine name routine line => ∃ ρ x, s.StandsAt routine line ρ x ∧
      (∃ e ∈ x.evaluated, ∃ args, .call name args ∈ e.parts) ∧
      (∀ r ∈ s.routines, r.name ≠ name) ∧ name ≠ "print" ∧ name ≠ "input"
  | .arityMismatch callee expected found routine line => ∃ ρ x, s.StandsAt routine line ρ x ∧
      (∃ e ∈ x.evaluated, ∃ args, .call callee args ∈ e.parts ∧ args.length = found) ∧
      (∃ r ∈ s.routines, r.name = callee ∧
        ∃ f, Frame.ofRoutine (Scope.globals s) r = .ok f ∧ f.params.length = expected) ∧
      expected ≠ found
  | .duplicateRoutine name line => ∃ before r after, s.routines = before ++ r :: after ∧
      r.name = name ∧ r.line = line ∧ ∃ q ∈ before, q.name = name
  | .labelClash name line => (name = Label.entry ∧ Stmt.Assigns s.body name) ∨
      ∃ r ∈ s.routines, r.name = name ∧ r.line = line ∧
        (name = Label.entry ∨ Stmt.Assigns s.body name)

end Script

/-- What a statement offends against in generation is in the script, if the names mean what the
script says. Whether the value is used decides which of the two rules for calls applies. -/
theorem Env.Offends.has {env : Env} {s : Script} {ρ : Option Routine} {x : Stmt}
    {err : CompileError} (h : env.Offends x err) (henv : env.Reflects s ρ)
    (hroutine : env.routine = ρ.map Routine.name)
    (hcallee : ∀ func f, env.callee func = some f → ∃ r ∈ s.routines, r.name = func ∧
      Frame.ofRoutine (Scope.globals s) r = .ok f)
    (hx : s.Holds ρ x) : s.Has err := by
  have hat : s.StandsAt env.routine x.line ρ x := ⟨hx, hroutine.symm, rfl⟩
  have hknown : ∀ {n}, env.resolve n = none → ¬ s.Known ρ n := by
    intro n hn hk
    obtain ⟨loc, hl⟩ := (henv.resolves_iff n).2 hk
    simp [hn] at hl
  cases h with
  | @evaluated _ e _ _ _ he hq hu h =>
    cases h with
    | unresolved hn => exact ⟨ρ, x, hat, ⟨e, he, hq⟩, hknown hn⟩
    | unsupported construct => exact ⟨ρ, x, hat, .expression he hq⟩
    | @arity func args f hf hc =>
      obtain ⟨r, hr, hname, hframe⟩ := hcallee func f hf
      exact ⟨ρ, x, hat, ⟨e, he, args, hq, rfl⟩, ⟨r, hr, hname, f, hframe, rfl⟩, hc⟩
    | @misused func args hn hf hc =>
      refine ⟨ρ, x, hat, .builtin he hq hf ((henv.callee_none_iff func).1 hn) fun hm => hc ?_⟩
      have hused := hu func args rfl
      by_cases hwhole : x = .eval x.line (.call func args)
      · rw [hused.2 hwhole]
        rw [hwhole] at hm
        exact (henv.mayCall_eval_iff _ func args).1 hm
      · rw [Bool.of_not_eq_false (mt hused.1 hwhole)]
        refine (henv.mayCall_iff fun line hline => hwhole ?_).1 hm
        rw [hline]
        rfl
    | unknown hn hp hi =>
      exact ⟨ρ, x, hat, ⟨e, he, _, hq⟩, (henv.callee_none_iff _).1 hn, hp, hi⟩
  | unresolved hn => exact absurd (Script.known_of_assigned hx) (hknown hn)
  | assigned ht => exact ⟨ρ, _, hat, .assigned (Expr.called_construct ht)⟩
  | updated ht => exact ⟨ρ, _, hat, .updated (Expr.called_construct ht)⟩
  | several ht => exact ⟨ρ, _, hat, .several ht⟩
  | nested line name params body => exact ⟨ρ, _, hat, .nested line name params body⟩
  | @outside line value hr =>
    have hnone : ρ = none := by
      have hsome := henv.result_iff
      rw [hr] at hsome
      exact Option.isNone_iff_eq_none.1 (by simpa using hsome.symm)
    exact ⟨ρ, _, hat, .outside line value hnone⟩
  | unsupported line construct => exact ⟨ρ, _, hat, .unsupported line construct⟩

namespace Scope

/-- The locals of a routine are refused for a routine that is defined inside, or for a name that is
read. -/
theorem locals_eq_error {globals : Scope} {r : Routine} {err : CompileError}
    (h : globals.locals r = .error err) :
    (∃ d ∈ Stmt.definesAll r.body, err = .unsupported (Stmt.nestedRoutine d.1) (some r.name) d.2) ∨
      ∃ n ∈ Stmt.readsAll r.body, (globals.localsOf r).contains n.1 = false ∧
        globals.contains n.1 = false ∧ err = .unresolvedName n.1 (some r.name) n.2 := by
  unfold locals at h
  split at h
  next name line hd =>
    obtain rfl := Except.error.inj h
    exact .inl ⟨(name, line), List.mem_of_mem_head? hd, rfl⟩
  next =>
    simp only at h
    split at h
    next name line hr =>
      obtain rfl := Except.error.inj h
      have hn := List.find?_some hr
      rw [Bool.not_eq_true', Bool.or_eq_false_iff] at hn
      exact .inr ⟨(name, line), List.mem_of_find?_eq_some hr, hn.1, hn.2, rfl⟩
    next => simp at h

end Scope

theorem Stmt.exists_define_of_mem {xs : List Stmt} {d : String × UInt32} (h : d ∈ definesAll xs) :
    ∃ params body, .define d.2 d.1 params body ∈ partsAll xs := by
  rw [definesAll_eq, List.mem_flatMap] at h
  obtain ⟨x, hx, hd⟩ := h
  cases x with
  | define line name params body =>
    obtain rfl := List.mem_singleton.1 hd
    exact ⟨params, body, hx⟩
  | _ => simp [defined] at hd

namespace Layout

/-- The first routine that cannot have its frame: it has the name of one before it, or clashes with
a label, or its locals are refused. -/
theorem distinctFrames_eq_error {globals : Scope} {earlier : List String} {rs : List Routine}
    {err : CompileError} (h : distinctFrames globals earlier rs = .error (.rejected err)) :
    ∃ before r after, rs = before ++ r :: after ∧
      (((r.name ∈ earlier ∨ ∃ q ∈ before, q.name = r.name) ∧
        err = .duplicateRoutine r.name r.line) ∨
        ((r.name = Label.entry ∨ globals.contains r.name = true) ∧
          err = .labelClash r.name r.line) ∨
        globals.locals r = .error err) := by
  induction rs generalizing earlier with
  | nil => simp [distinctFrames] at h
  | cons r rest ih =>
    rw [distinctFrames] at h
    split at h
    next hd =>
      obtain rfl : _ = err := by simpa using h
      exact ⟨[], r, rest, rfl, .inl ⟨.inl hd, rfl⟩⟩
    next =>
      split at h
      next hc =>
        obtain rfl : _ = err := by simpa using h
        exact ⟨[], r, rest, rfl, .inr (.inl ⟨hc, rfl⟩)⟩
      next =>
        split at h
        next g hf =>
          obtain rfl := Except.error.inj h
          refine ⟨[], r, rest, rfl, .inr (.inr ?_)⟩
          unfold Frame.ofRoutine at hf
          split at hf
          next e he =>
            obtain rfl : e = err := by simpa using hf
            exact he
          next => split at hf <;> simp at hf
        next f _ =>
          have hrest : distinctFrames globals (r.name :: earlier) rest =
              .error (.rejected err) := by
            cases hr : distinctFrames globals (r.name :: earlier) rest with
            | ok fs => simp [hr, Except.map] at h
            | error g => simpa [hr, Except.map] using h
          obtain ⟨before, q, after, rfl, hcases⟩ := ih hrest
          refine ⟨r :: before, q, after, rfl, ?_⟩
          rcases hcases with ⟨hm, rfl⟩ | hother
          · refine .inl ⟨?_, rfl⟩
            rcases hm with hm | ⟨q', hq', hn⟩
            · rcases List.mem_cons.1 hm with hname | hm
              · exact .inr ⟨r, List.mem_cons_self, hname.symm⟩
              · exact .inl hm
            · exact .inr ⟨q', List.mem_cons_of_mem _ hq', hn⟩
          · exact .inr hother

/-- A routine that a body calls has the frame that the storage keeps for it. -/
theorem Framed.exists_of_lookup {globals : Scope} {rs : List Routine} {fs : List Frame}
    (h : Framed globals [] rs fs) {func : String} {f : Frame} (hf : Frame.lookup fs func = some f) :
    ∃ r ∈ rs, r.name = func ∧ Frame.ofRoutine globals r = .ok f := by
  obtain ⟨hm, rfl⟩ := Frame.mem_of_lookup hf
  obtain ⟨r, hr⟩ := h.exists_routine hm
  have hframe := h.ofRoutine_eq hr
  exact ⟨r, (List.of_mem_zip hr).1, (Frame.ofRoutine_eq_ok hframe).1.symm, hframe⟩

end Layout

namespace Script

variable {s : Script} {err : CompileError}

/-- What stands in the body of a routine stands in the script. -/
theorem standsAt_routine {r : Routine} (hr : r ∈ s.routines) {x : Stmt}
    (hx : x ∈ Stmt.partsAll r.body) : s.StandsAt (some r.name) x.line (some r) x := by
  refine ⟨⟨?_, hx⟩, rfl, rfl⟩
  intro q hq
  exact Option.some.inj hq ▸ hr

/-- What is wrong with the locals of a routine is in its body. -/
theorem has_of_locals {r : Routine} (hr : r ∈ s.routines)
    (h : (Scope.globals s).locals r = .error err) : s.Has err := by
  rcases Scope.locals_eq_error h with ⟨d, hd, rfl⟩ | ⟨n, hn, hlocal, hglobal, rfl⟩
  · obtain ⟨params, body, hx⟩ := Stmt.exists_define_of_mem hd
    exact ⟨some r, _, standsAt_routine hr hx, .nested _ _ _ _⟩
  · obtain ⟨x, hx, hline, e, he, hname⟩ := Stmt.mem_readsAll_iff.1 hn
    refine ⟨some r, x, hline ▸ standsAt_routine hr hx, ⟨e, he, hname⟩, fun hk => ?_⟩
    rcases known_iff.1 hk with hk | hk
    · simp [hlocal] at hk
    · simp [hglobal] at hk

theorem has_of_layout (h : Layout.ofScript s = .error (.rejected err)) : s.Has err := by
  unfold Layout.ofScript at h
  split at h
  next he =>
    obtain rfl : _ = err := by simpa using h
    exact .inl ⟨rfl, contains_globals_iff.1 he⟩
  next =>
    have hd : Layout.distinctFrames (Scope.globals s) [] s.routines = .error (.rejected err) := by
      cases hr : Layout.distinctFrames (Scope.globals s) [] s.routines with
      | ok fs => simp [hr, Except.map] at h
      | error g => simpa [hr, Except.map] using h
    obtain ⟨before, r, after, hsplit, hcases⟩ := Layout.distinctFrames_eq_error hd
    have hr : r ∈ s.routines := by simp [hsplit]
    rcases hcases with ⟨hm, rfl⟩ | ⟨hc, rfl⟩ | hlocals
    · rcases hm with hm | hm
      · simp at hm
      · exact ⟨before, r, after, hsplit, rfl, rfl, hm⟩
    · exact .inr ⟨r, hr, rfl, rfl, hc.imp id contains_globals_iff.1⟩
    · exact has_of_locals hr hlocals

/-- Every error points at something that the script has. An error that names a routine and a line,
or a line of the top level, points at a statement there that shows what is reported by its own
expressions and targets. -/
theorem error_reports_offence {source : String} {seed : Nat}
    (h : (s.compileFrom source seed).result = .error (.rejected err)) : s.Has err := by
  rcases compileFrom_error_cases h with ⟨hl, -⟩ | ⟨l, hl, hbody⟩
  · exact has_of_layout hl
  · obtain ⟨hg, -, hf⟩ := Layout.ofScript_eq_ok hl
    have hcallee : ∀ func f, Frame.lookup l.frames func = some f →
        ∃ r ∈ s.routines, r.name = func ∧ Frame.ofRoutine (Scope.globals s) r = .ok f := by
      intro func f hlookup
      rw [← hg]
      exact hf.exists_of_lookup hlookup
    rcases hbody with ⟨t, t', htop⟩ | ⟨⟨r, f⟩, hx, t, t', hroutine⟩
    · have hrejects : (l.topBody s).Rejects s.Has := by
        refine Lowering.rejects_stmts _ fun x hx e ho => ?_
        exact ho.has (Layout.reflects_topEnv hg hf) rfl hcallee ⟨by simp, hx⟩
      exact hrejects.run htop
    · have hframe := hf.ofRoutine_eq hx
      have hname : (l.routineEnv f).routine = (some r).map Routine.name := by
        simp only [Layout.routineEnv, (Frame.ofRoutine_eq_ok hframe).1, Option.map_some]
      have hrejects : (l.routineBody f r).Rejects s.Has := by
        refine Lowering.rejects_stmts _ fun x hm e ho => ?_
        refine ho.has (Layout.reflects_routineEnv hg hf hframe) hname hcallee ?_
        exact (standsAt_routine (List.of_mem_zip hx).1 hm).1
      exact hrejects.run hroutine

/-- A statement in a conditional in a loop, in a routine that the top level calls. -/
def inLoop (x : Stmt) : Script where
  body :=
    [.define 1 "work" [⟨"n", none⟩]
      [.whileLoop 2 (.name "n") [.ifElse 3 (.name "n") [.pass 4] [x]]],
      .eval 6 (.call "work" [.literal (.int 3)])]

/-- A call with an argument too few, printing for its value, and the same routine twice. -/
theorem inLoop_reports_offence :
    ((inLoop (.eval 5 (.binary .add (.name "n") (.call "work" [])))).compileFrom "loop" 7).result =
      .error (.rejected (.arityMismatch "work" 1 0 (some "work") 5)) ∧
    (inLoop (.eval 5 (.binary .add (.name "n") (.call "work" [])))).Has
      (.arityMismatch "work" 1 0 (some "work") 5) ∧
    ((inLoop (.update 5 (.name "n") .sub (.call "print" [.name "n"]))).compileFrom
      "loop" 7).result =
      .error (.rejected (.unsupported "`print` with 1 argument(s)" (some "work") 5)) ∧
    (inLoop (.update 5 (.name "n") .sub (.call "print" [.name "n"]))).Has
      (.unsupported "`print` with 1 argument(s)" (some "work") 5) ∧
    (compileFrom ⟨(inLoop (.pass 5)).body ++ [.define 7 "work" [] []]⟩ "loop" 7).result =
      .error (.rejected (.duplicateRoutine "work" 7)) ∧
    Has ⟨(inLoop (.pass 5)).body ++ [.define 7 "work" [] []]⟩ (.duplicateRoutine "work" 7) := by
  have harity :
      ((inLoop (.eval 5 (.binary .add (.name "n") (.call "work" [])))).compileFrom
        "loop" 7).result =
      .error (.rejected (.arityMismatch "work" 1 0 (some "work") 5)) := by
    decide
  have hprint :
      ((inLoop (.update 5 (.name "n") .sub (.call "print" [.name "n"]))).compileFrom
        "loop" 7).result =
      .error (.rejected (.unsupported "`print` with 1 argument(s)" (some "work") 5)) := by
    decide
  have htwice :
      (compileFrom ⟨(inLoop (.pass 5)).body ++ [.define 7 "work" [] []]⟩ "loop" 7).result =
      .error (.rejected (.duplicateRoutine "work" 7)) := by
    decide
  exact ⟨harity, error_reports_offence harity, hprint, error_reports_offence hprint, htwice,
    error_reports_offence htwice⟩

end Script
end TreeAsm

import TreeAsm.Proofs.Admission
import TreeAsm.Proofs.References

/-! A script compiles exactly if it is well-formed, as far as slots and numbers suffice. -/
namespace TreeAsm

namespace Script

/-- The variables that a call of the routine keeps: the parameters, and what the body assigns and
the script outside does not. -/
def slots (s : Script) (r : Routine) : List String :=
  (r.params.map Param.name ++
    ((Stmt.bindsAll r.body).map Prod.fst).filter
    (· ∉ (Stmt.bindsAll s.body).map Prod.fst)).eraseDups

/-- No routine has more variables than a frame has slots. -/
def FramesFit (s : Script) : Prop := ∀ r ∈ s.routines, (s.slots r).length ≤ slotLimit

theorem names_localsOf (s : Script) (r : Routine) :
    ((Scope.globals s).localsOf r).names = s.slots r := by
  have hl : (Scope.globals s).localsOf r =
      Scope.ofList ((r.params.map fun p => ⟨p.name, .ofParam p, .parameter⟩) ++
      ((Stmt.bindsAll r.body).filter fun b => !(Scope.globals s).contains b.1).map fun b =>
        ⟨b.1, b.2, .inner⟩) := by
    simp only [Scope.localsOf, Scope.ofParams, Scope.ofList, Scope.insertAll, List.foldl_append]
  have hg : ∀ n, (!(Scope.globals s).contains n) =
      decide (n ∉ (Stmt.bindsAll s.body).map Prod.fst) := by
    intro n
    rw [Bool.eq_iff_iff, Bool.not_eq_true', decide_eq_true_iff, ← Scope.mem_names_globals,
      ← Scope.contains_iff]
    simp
  rw [hl, Scope.names_ofList, slots]
  simp [Function.comp_def, List.filter_map, hg]

theorem size_localsOf (s : Script) (r : Routine) :
    ((Scope.globals s).localsOf r).size = (s.slots r).length := by
  rw [← names_localsOf, Scope.length_names]

/-- A name is a global exactly if the script assigns it outside routines. -/
theorem contains_globals_iff {s : Script} {n : String} :
    (Scope.globals s).contains n = true ↔ Stmt.Assigns s.body n := by
  rw [Scope.contains_iff, Scope.mem_names_globals, Stmt.mem_bindsAll_iff]

theorem contains_localsOf_iff {s : Script} {r : Routine} {n : String} :
    ((Scope.globals s).localsOf r).contains n = true ↔
      n ∈ r.params.map Param.name ∨ Stmt.Assigns r.body n ∧ ¬ Stmt.Assigns s.body n := by
  rw [Scope.contains_iff, Scope.mem_names_localsOf, Scope.mem_names_globals, Stmt.mem_bindsAll_iff,
    Stmt.mem_bindsAll_iff]

/-- The scopes of a routine hold the names that it may read. -/
theorem known_iff {s : Script} {r : Routine} {n : String} : s.Known (some r) n ↔
    ((Scope.globals s).localsOf r).contains n = true ∨ (Scope.globals s).contains n = true := by
  rw [contains_localsOf_iff, contains_globals_iff]
  simp only [Known, Option.mem_def, Option.some.injEq, exists_eq_left']
  tauto

theorem mem_partsAll_topLevel {s : Script} {x : Stmt} (h : x ∈ Stmt.partsAll s.topLevel) :
    x ∈ Stmt.partsAll s.body := by
  obtain ⟨y, hy, hx⟩ := Stmt.mem_partsAll.1 h
  exact Stmt.mem_partsAll.2 ⟨y, List.mem_of_mem_filter hy, hx⟩

/-- What is assigned somewhere is known there. -/
theorem known_of_assigned {s : Script} {ρ : Option Routine} {line : UInt32} {n : String}
    {value : Expr} (h : s.Holds ρ (.assign line [.name n] value)) : s.Known ρ n := by
  cases ρ with
  | none => exact .inl ⟨line, _, value, mem_partsAll_topLevel h.2, List.mem_singleton_self _⟩
  | some r => exact .inr ⟨r, rfl, .inr ⟨line, _, value, h.2, List.mem_singleton_self _⟩⟩

end Script

/-- The names in the code of a routine, or of the top level, mean what the script says. -/
structure Env.Reflects (env : Env) (s : Script) (ρ : Option Routine) : Prop where
  resolves_iff : ∀ n, env.Resolves n ↔ s.Known ρ n
  callee_iff : ∀ f count, (∃ g, env.callee f = some g ∧ g.arity = count) ↔
    ∃ r ∈ s.routines, r.name = f ∧ count = r.formals.length
  callee_none_iff : ∀ f, env.callee f = none ↔ ∀ r ∈ s.routines, r.name ≠ f
  result_iff : env.result.isSome = ρ.isSome

namespace Env.Reflects

variable {env : Env} {s : Script} {ρ : Option Routine} {x : Stmt}

theorem mayCall_eval_iff (h : env.Reflects s ρ) (line : UInt32) (f : String) (args : List Expr) :
    s.MayCall (.eval line (.call f args)) f args ↔ env.AllowsCall f args.length false := by
  simp [Script.MayCall, Env.AllowsCall, h.callee_iff, h.callee_none_iff]

theorem mayCall_iff (h : env.Reflects s ρ) {f : String} {args : List Expr}
    (hx : ∀ line, x ≠ .eval line (.call f args)) :
    s.MayCall x f args ↔ env.AllowsCall f args.length true := by
  simp [Script.MayCall, Env.AllowsCall, h.callee_iff, h.callee_none_iff, hx]

/-- Expressions among which there is no call that is a statement. -/
theorem forall_allows_iff (h : env.Reflects s ρ) (qs : List Expr)
    (hx : ∀ line f args, .call f args ∈ qs → x ≠ .eval line (.call f args)) :
    (∀ q ∈ qs, env.Allows q) ↔ (∀ construct, .unsupported construct ∉ qs) ∧
      (∀ n, .name n ∈ qs → s.Known ρ n) ∧ ∀ f args, .call f args ∈ qs → s.MayCall x f args := by
  constructor
  · intro hq
    refine ⟨fun c hc => hq _ hc, fun n hn => (h.resolves_iff n).1 (hq _ hn), fun f args hc => ?_⟩
    exact (h.mayCall_iff fun line => hx line f args hc).2 (hq _ hc)
  · rintro ⟨hu, hn, hc⟩ q hq
    cases q with
    | name n => exact (h.resolves_iff n).2 (hn n hq)
    | call f args => exact (h.mayCall_iff fun line => hx line f args hq).1 (hc f args hq)
    | unsupported c => exact hu c hq
    | literal _ | binary _ _ _ | unary _ _ => trivial

/-- What an expression of a fitting statement is made of is allowed, unless the statement is a
call. -/
theorem allows_of_fits (h : env.Reflects s ρ) (hf : s.Fits ρ x) {e : Expr} (he : e ∈ x.expressions)
    (hv : e ∈ x.evaluated) (hx : ∀ line f args, x ≠ .eval line (.call f args)) :
    ∀ q ∈ e.parts, env.Allows q :=
  (h.forall_allows_iff _ fun line f args _ => hx line f args).2
    ⟨hf.supported e he, hf.known e hv, hf.calls e he⟩

/-- A statement fits if, apart from known names, it has one expression, and that is allowed. -/
theorem fits_of_allows (h : env.Reflects s ρ) {e : Expr} (hs : Script.Shaped ρ x)
    (he : ∀ q ∈ x.expressions, q = e ∨ ∃ n, q = .name n)
    (hv : ∀ q ∈ x.evaluated, q = e ∨ ∃ n, q = .name n ∧ s.Known ρ n)
    (hx : ∀ line f args, x ≠ .eval line (.call f args)) (ha : ∀ q ∈ e.parts, env.Allows q) :
    s.Fits ρ x := by
  obtain ⟨hu, hn, hc⟩ := (h.forall_allows_iff _ fun line f args _ => hx line f args).1 ha
  refine ⟨hs, fun q hq => ?_, fun q hq => ?_, fun q hq => ?_⟩
  · rcases he q hq with rfl | ⟨n, rfl⟩
    · exact hu
    · simp [Expr.parts]
  · rcases hv q hq with rfl | ⟨n, rfl, hk⟩
    · exact hn
    · simp [Expr.parts, hk]
  · rcases he q hq with rfl | ⟨n, rfl⟩
    · exact hc
    · simp [Expr.parts]

/-- A call that is a statement is allowed as such, its arguments as all others. -/
theorem fits_eval_call_iff (h : env.Reflects s ρ) {line : UInt32} {f : String} {args : List Expr} :
    s.Fits ρ (.eval line (.call f args)) ↔ env.Admits (.eval line (.call f args)) := by
  have ha := h.forall_allows_iff (x := .eval line (.call f args)) (Expr.partsAll args)
    fun _ g as hm he => Expr.ne_call_of_mem_partsAll hm (Stmt.eval.inj he).2.symm
  have he : ∀ e, e ∈ [Expr.call f args] ↔ e = .call f args := fun _ => List.mem_singleton
  rw [Env.Admits, ha, ← h.mayCall_eval_iff line]
  constructor
  · intro hf
    have hs := hf.supported _ (List.mem_singleton_self _)
    have hk := hf.known _ (List.mem_singleton_self _)
    have hc := hf.calls _ (List.mem_singleton_self _)
    simp only [Expr.parts, List.mem_cons] at hs hk hc
    exact ⟨hc f args (.inl rfl), fun c hm => hs c (.inr hm), fun n hm => hk n (.inr hm),
      fun g as hm => hc g as (.inr hm)⟩
  · rintro ⟨hc, hu, hn, hr⟩
    refine ⟨trivial, ?_, ?_, ?_⟩
    · simpa [Stmt.expressions, Expr.parts] using hu
    · simpa [Stmt.evaluated, Expr.parts] using hn
    · simp only [Stmt.expressions, he, forall_eq, Expr.parts, List.mem_cons]
      rintro g as (hg | hm)
      · obtain ⟨rfl, rfl⟩ := Expr.call.inj hg
        exact hc
      · exact hr g as hm

/-- A statement fits in where it stands exactly if code generation admits it there. -/
theorem fits_iff_admits (h : env.Reflects s ρ) (hx : s.Holds ρ x) : s.Fits ρ x ↔ env.Admits x := by
  cases x with
  | assign line targets value =>
    constructor
    · intro hf
      obtain ⟨n, rfl⟩ := hf.shaped
      exact ⟨⟨n, rfl, (h.resolves_iff n).2 (Script.known_of_assigned hx)⟩,
        h.allows_of_fits hf (by simp [Stmt.expressions]) (by simp [Stmt.evaluated]) (by simp)⟩
    · rintro ⟨⟨n, rfl, -⟩, ha⟩
      exact h.fits_of_allows ⟨n, rfl⟩ (by simp [Stmt.expressions])
        (by simp [Stmt.evaluated]) (by simp) ha
  | update line target op value =>
    constructor
    · intro hf
      obtain ⟨n, rfl⟩ := hf.shaped
      have hk : s.Known ρ n :=
        hf.known (.name n) (by simp [Stmt.evaluated]) n (by simp [Expr.parts])
      exact ⟨⟨n, rfl, (h.resolves_iff n).2 hk⟩,
        h.allows_of_fits hf (by simp [Stmt.expressions]) (by simp [Stmt.evaluated]) (by simp)⟩
    · rintro ⟨⟨n, rfl, hn⟩, ha⟩
      have hk := (h.resolves_iff n).1 hn
      exact h.fits_of_allows ⟨n, rfl⟩ (by simp [Stmt.expressions])
        (by simp [Stmt.evaluated, hk]) (by simp) ha
  | ifElse line test body orelse =>
    constructor
    · exact fun hf => h.allows_of_fits hf (by simp [Stmt.expressions])
        (by simp [Stmt.evaluated]) (by simp)
    · exact h.fits_of_allows trivial (by simp [Stmt.expressions])
        (by simp [Stmt.evaluated]) (by simp)
  | whileLoop line test body =>
    constructor
    · exact fun hf => h.allows_of_fits hf (by simp [Stmt.expressions])
        (by simp [Stmt.evaluated]) (by simp)
    · exact h.fits_of_allows trivial (by simp [Stmt.expressions])
        (by simp [Stmt.evaluated]) (by simp)
  | define line name params body => exact ⟨fun hf => hf.shaped, False.elim⟩
  | ret line value =>
    constructor
    · intro hf
      refine ⟨h.result_iff.trans hf.shaped, ?_⟩
      rintro e rfl
      exact h.allows_of_fits hf (by simp [Stmt.expressions]) (by simp [Stmt.evaluated]) (by simp)
    · rintro ⟨hr, ha⟩
      have hs : ρ.isSome = true := h.result_iff.symm.trans hr
      cases value with
      | none =>
        exact ⟨hs, by simp [Stmt.expressions], by simp [Stmt.evaluated], by simp [Stmt.expressions]⟩
      | some e =>
        exact h.fits_of_allows hs (by simp [Stmt.expressions]) (by simp [Stmt.evaluated])
          (by simp) (ha e rfl)
  | eval line value =>
    cases value with
    | call f args => exact h.fits_eval_call_iff
    | _ =>
      constructor
      · exact fun hf => h.allows_of_fits hf (by simp [Stmt.expressions])
          (by simp [Stmt.evaluated]) (by simp)
      · exact h.fits_of_allows trivial (by simp [Stmt.expressions])
          (by simp [Stmt.evaluated]) (by simp)
  | pass line =>
    exact ⟨fun _ => trivial, fun _ =>
      ⟨trivial, by simp [Stmt.expressions], by simp [Stmt.evaluated], by simp [Stmt.expressions]⟩⟩
  | unsupported line construct => exact ⟨fun hf => hf.shaped, False.elim⟩

end Env.Reflects

namespace Scope

/-- The locals of a routine are accepted exactly if it defines no routine inside and reads known
names only. -/
theorem locals_of_known {globals : Scope} {r : Routine} (hd : Stmt.definesAll r.body = [])
    (hr : ∀ n ∈ Stmt.readsAll r.body, (globals.localsOf r).contains n.1 = true ∨
      globals.contains n.1 = true) :
    globals.locals r = .ok (globals.localsOf r) := by
  have hn : ((Stmt.readsAll r.body).find? fun n =>
      !((globals.localsOf r).contains n.1 || globals.contains n.1)) =
      none := List.find?_eq_none.2 fun n hn => by simpa [or_iff_not_imp_left] using hr n hn
  simp only [locals, hd, List.head?_nil, hn]

end Scope

namespace Layout

variable {s : Script} {l : Layout}

theorem exists_distinctFrames {globals : Scope} (earlier : List String) {rs : List Routine}
    (hf : ∀ r ∈ rs, ∃ f, Frame.ofRoutine globals r = .ok f) (hd : (rs.map Routine.name).Nodup)
    (he : ∀ r ∈ rs, r.name ∉ earlier) (hn : ∀ r ∈ rs, r.name ≠ Label.entry)
    (hg : ∀ r ∈ rs, globals.contains r.name = false) :
    ∃ fs, distinctFrames globals earlier rs = .ok fs := by
  induction rs generalizing earlier with
  | nil => exact ⟨[], rfl⟩
  | cons r rest ih =>
    rw [List.map_cons, List.nodup_cons] at hd
    rw [List.forall_mem_cons] at hf he hn hg
    obtain ⟨f, hr⟩ := hf.1
    have hfresh : ∀ q ∈ rest, q.name ∉ r.name :: earlier := by
      intro q hq hm
      rcases List.mem_cons.1 hm with h | h
      · exact hd.1 (h ▸ List.mem_map_of_mem hq)
      · exact he.2 q hq h
    obtain ⟨fs, hfs⟩ := ih _ hf.2 hd.2 hfresh hn.2 hg.2
    refine ⟨f :: fs, ?_⟩
    rw [distinctFrames, if_neg he.1, if_neg (by simp [hn.1, hg.1]), hr, hfs]
    rfl

/-- Frames and routines belong together one by one. -/
theorem Framed.exists_frame {globals : Scope} {earlier : List String} {rs : List Routine}
    {fs : List Frame} (h : Framed globals earlier rs fs) {r : Routine} (hr : r ∈ rs) :
    ∃ f, (r, f) ∈ rs.zip fs := by
  rw [← List.map_fst_zip (Nat.le_of_eq h.frames.length_eq)] at hr
  obtain ⟨⟨q, f⟩, hm, rfl⟩ := List.mem_map.1 hr
  exact ⟨f, hm⟩

theorem Framed.exists_routine {globals : Scope} {earlier : List String} {rs : List Routine}
    {fs : List Frame} (h : Framed globals earlier rs fs) {f : Frame} (hf : f ∈ fs) :
    ∃ r, (r, f) ∈ rs.zip fs := by
  rw [← List.map_snd_zip (Nat.le_of_eq h.frames.length_eq.symm)] at hf
  obtain ⟨⟨r, g⟩, hm, rfl⟩ := List.mem_map.1 hf
  exact ⟨r, hm⟩

theorem Framed.ofRoutine_eq {globals : Scope} {earlier : List String} {rs : List Routine}
    {fs : List Frame}
    (h : Framed globals earlier rs fs) {r : Routine} {f : Frame} (hm : (r, f) ∈ rs.zip fs) :
    Frame.ofRoutine globals r = .ok f := List.forall₂_zip h.frames hm

theorem arity_eq_of_ofRoutine {globals : Scope} {r : Routine} {f : Frame}
    (h : Frame.ofRoutine globals r = .ok f) : f.arity = r.formals.length := by
  have hl := (Scope.locals_eq_ok (Frame.ofRoutine_eq_ok h).2).1
  rw [Frame.arity, Frame.params_eq hl]
  rfl

/-- A routine that is called by its name has the frame of that name. -/
theorem Framed.lookup_iff {globals : Scope} {rs : List Routine} {fs : List Frame}
    (h : Framed globals [] rs fs) (name : String) (count : Nat) :
    (∃ g, Frame.lookup fs name = some g ∧ g.arity = count) ↔
      ∃ r ∈ rs, r.name = name ∧ count = r.formals.length := by
  constructor
  · rintro ⟨g, hg, rfl⟩
    obtain ⟨hm, rfl⟩ := Frame.mem_of_lookup hg
    obtain ⟨r, hr⟩ := h.exists_routine hm
    have hf := h.ofRoutine_eq hr
    exact ⟨r, (List.of_mem_zip hr).1, (Frame.ofRoutine_eq_ok hf).1.symm, arity_eq_of_ofRoutine hf⟩
  · rintro ⟨r, hr, rfl, rfl⟩
    obtain ⟨f, hm⟩ := h.exists_frame hr
    have hf := h.ofRoutine_eq hm
    obtain ⟨g, hg⟩ : ∃ g, Frame.lookup fs r.name = some g := by
      refine Option.isSome_iff_exists.1 (List.find?_isSome.2 ⟨f, ?_, ?_⟩)
      · exact List.mem_reverse.2 (List.of_mem_zip hm).2
      · simpa using (Frame.ofRoutine_eq_ok hf).1
    obtain ⟨hgm, hgn⟩ := Frame.mem_of_lookup hg
    obtain ⟨q, hq⟩ := h.exists_routine hgm
    have hqf := h.ofRoutine_eq hq
    have hqr : q = r := by
      refine List.inj_on_of_nodup_map h.nodup (List.of_mem_zip hq).1 hr ?_
      rw [← (Frame.ofRoutine_eq_ok hqf).1, hgn]
    exact ⟨g, hg, hqr ▸ arity_eq_of_ofRoutine hqf⟩

theorem Framed.lookup_eq_none_iff {globals : Scope} {rs : List Routine} {fs : List Frame}
    (h : Framed globals [] rs fs) (name : String) :
    Frame.lookup fs name = none ↔ ∀ r ∈ rs, r.name ≠ name := by
  have hi := h.lookup_iff name
  constructor
  · rintro hn r hr rfl
    obtain ⟨g, hg, -⟩ := (hi _).2 ⟨r, hr, rfl, rfl⟩
    simp [hn] at hg
  · intro hn
    cases hl : Frame.lookup fs name with
    | none => rfl
    | some g =>
      obtain ⟨r, hr, hrn, -⟩ := (hi _).1 ⟨g, hl, rfl⟩
      exact absurd hrn (hn r hr)

theorem resolves_static_iff (globals : Scope) (n : String) :
    (∃ loc, globals.staticCell? n = some loc) ↔ globals.contains n = true := by
  unfold Scope.staticCell?
  split <;> simp_all

theorem reflects_topEnv (hl : l.globals = Scope.globals s)
    (hf : Framed l.globals [] s.routines l.frames) : l.topEnv.Reflects s none where
  resolves_iff n := by
    rw [Env.Resolves, topEnv, resolves_static_iff, hl, Script.contains_globals_iff]
    simp [Script.Known]
  callee_iff := hf.lookup_iff
  callee_none_iff := hf.lookup_eq_none_iff
  result_iff := rfl

theorem reflects_routineEnv (hl : l.globals = Scope.globals s)
    (hf : Framed l.globals [] s.routines l.frames) {r : Routine} {f : Frame}
    (hr : Frame.ofRoutine l.globals r = .ok f) : (l.routineEnv f).Reflects s (some r) where
  resolves_iff n := by
    have hs : f.locals = (Scope.globals s).localsOf r :=
      hl ▸ (Scope.locals_eq_ok (Frame.ofRoutine_eq_ok hr).2).1
    have ho : (∃ loc, (f.resolve? n).or (l.globals.staticCell? n) = some loc) ↔
        f.locals.contains n = true ∨ l.globals.contains n = true := by
      rw [← resolves_static_iff l.globals, Frame.resolve?, Frame.slot?, Scope.contains]
      cases f.locals.position? n <;> simp
    rw [Env.Resolves, routineEnv, ho, hs, hl, Script.known_iff]
  callee_iff := hf.lookup_iff
  callee_none_iff := hf.lookup_eq_none_iff
  result_iff := rfl

/-- The blocks of routines whose bodies draw what they should. -/
theorem routineBlocks_of_serves {pairs : List (Routine × Frame)}
    (h : ∀ x ∈ pairs, (l.routineBody x.2 x.1).Serves (Stmt.demandsAll x.1.body)) (t : Supply) :
    (∃ t' blocks, t.serveAll? (pairs.flatMap fun x => Stmt.demandsAll x.1.body) = some t' ∧
      l.routineBlocks pairs t = (.ok blocks, t')) ∨
    (t.serveAll? (pairs.flatMap fun x => Stmt.demandsAll x.1.body) = none ∧
      ∃ t', l.routineBlocks pairs t = (.error .labelsExhausted, t')) := by
  induction pairs generalizing t with
  | nil => exact .inl ⟨t, [], rfl, rfl⟩
  | cons x rest ih =>
    obtain ⟨r, f⟩ := x
    rw [List.forall_mem_cons] at h
    rw [List.flatMap_cons, Supply.serveAll?_append, routineBlocks]
    cases ht : t.serveAll? (Stmt.demandsAll r.body) with
    | none =>
      obtain ⟨t', hrun⟩ := h.1.run_eq_error ht
      exact .inr ⟨rfl, t', by rw [hrun]⟩
    | some t₁ =>
      obtain ⟨code, hrun⟩ := h.1.run_eq_ok ht
      rw [Option.bind_some]
      rcases ih h.2 t₁ with ⟨t', blocks, hs, hb⟩ | ⟨hs, t', hb⟩
      · exact .inl ⟨t', f.block code :: blocks, hs, by simp only [hrun, hb]; rfl⟩
      · exact .inr ⟨hs, t', by simp only [hrun, hb]; rfl⟩

end Layout

namespace Script

variable {s : Script} {source : String} {seed : Nat}

/-- What the whole script draws: the top level first, then the routines. -/
def demands (s : Script) : List Demand :=
  Stmt.demandsAll s.topLevel ++ s.routines.flatMap fun r => Stmt.demandsAll r.body

/-- Whatever the compiler accepts is well-formed. -/
theorem wellFormed_of_compiles {p : Program} (h : (s.compileFrom source seed).result = .ok p) :
    s.WellFormed := by
  obtain ⟨b⟩ := Build.nonempty h
  obtain ⟨hg, he, hf⟩ := Layout.ofScript_eq_ok b.layout_eq
  refine ⟨?_, hf.nodup, fun r hr => ⟨hf.not_entry r hr, ?_⟩, fun ρ x hx => ?_⟩
  · rw [← contains_globals_iff, ← hg, he]
    simp
  · rw [← contains_globals_iff, ← hg, hf.not_global r hr]
    simp
  · cases ρ with
    | none =>
      have ha := Lowering.admitsAll_of_yields _ b.top_yields x hx.2
      exact ((Layout.reflects_topEnv hg hf).fits_iff_admits hx).2 ha
    | some r =>
      obtain ⟨y, hy, rfl⟩ :=
        List.mem_map.1 (b.routines_eq ▸ hx.1 r rfl : r ∈ b.pieces.map fun x => x.1)
      obtain ⟨s₁, s₂, hb, -⟩ := b.bodies.yields_of_mem hy
      have ha := Lowering.admitsAll_of_yields _ hb x hx.2
      exact ((Layout.reflects_routineEnv hg hf (b.ofRoutine_of_mem hy)).fits_iff_admits hx).2 ha

namespace WellFormed

theorem ofRoutine_eq_ok (h : s.WellFormed) (hfit : s.FramesFit) {r : Routine}
    (hr : r ∈ s.routines) :
    ∃ f, Frame.ofRoutine (Scope.globals s) r = .ok f := by
  have hh : ∀ x ∈ Stmt.partsAll r.body, s.Fits (some r) x := by
    intro x hx
    refine h.fits (some r) x ⟨?_, hx⟩
    rintro q hq
    exact Option.some.inj hq ▸ hr
  have hd : Stmt.definesAll r.body = [] :=
    Stmt.definesAll_eq_nil_iff.2 fun line name params body hx => (hh _ hx).shaped
  have hl : (Scope.globals s).locals r = .ok ((Scope.globals s).localsOf r) := by
    refine Scope.locals_of_known hd ?_
    rintro ⟨n, line⟩ hn
    obtain ⟨x, hx, -, e, he, hm⟩ := Stmt.mem_readsAll_iff.1 hn
    exact known_iff.1 ((hh x hx).known e he n hm)
  have hsize : ((Scope.globals s).localsOf r).size ≤ slotLimit := size_localsOf s r ▸ hfit r hr
  exact ⟨⟨r.name, _, hsize⟩, by simp only [Frame.ofRoutine, hl, Frame.ofScope?, dif_pos hsize]⟩

theorem exists_layout (h : s.WellFormed) (hfit : s.FramesFit) : ∃ l, Layout.ofScript s = .ok l := by
  have hf : ∀ n, (Scope.globals s).contains n = false ↔ ¬ Stmt.Assigns s.body n := by
    intro n
    rw [← contains_globals_iff, Bool.not_eq_true]
  obtain ⟨fs, hfs⟩ :=
    Layout.exists_distinctFrames [] (fun r hr => h.ofRoutine_eq_ok hfit hr) h.distinct
    (by simp) (fun r hr => (h.routine_names r hr).1) (fun r hr => (hf _).2 (h.routine_names r hr).2)
  refine ⟨⟨Scope.globals s, fs⟩, ?_⟩
  rw [Layout.ofScript, (hf _).2 h.entry_free, hfs]
  rfl

/-- A well-formed script compiles, or the numbers run out; it draws what its statements say. -/
theorem compiles_or_exhausts (h : s.WellFormed) (hfit : s.FramesFit) (source : String)
    (seed : Nat) :
    (∃ t p, (Supply.start seed).serveAll? s.demands = some t ∧
      (s.compileFrom source seed).result = .ok p ∧ (s.compileFrom source seed).next = t.next) ∨
    ((Supply.start seed).serveAll? s.demands = none ∧
      (s.compileFrom source seed).result = .error .labelsExhausted) := by
  obtain ⟨l, hl⟩ := h.exists_layout hfit
  obtain ⟨hg, -, hf⟩ := Layout.ofScript_eq_ok hl
  have htop : (l.topBody s).Serves (Stmt.demandsAll s.topLevel) := by
    refine Lowering.serves_stmts _ fun x hx => ?_
    have hx : s.Holds none x := ⟨nofun, hx⟩
    exact ((Layout.reflects_topEnv hg hf).fits_iff_admits hx).1 (h.fits none x hx)
  have hbodies : ∀ x ∈ s.routines.zip l.frames,
      (l.routineBody x.2 x.1).Serves (Stmt.demandsAll x.1.body) := by
    rintro ⟨r, f⟩ hm
    refine Lowering.serves_stmts _ fun x hx => ?_
    have hx : s.Holds (some r) x := ⟨fun q hq => Option.some.inj hq ▸ (List.of_mem_zip hm).1, hx⟩
    exact ((Layout.reflects_routineEnv hg hf (hf.ofRoutine_eq hm)).fits_iff_admits hx).1
      (h.fits (some r) x hx)
  have hzip : (s.routines.zip l.frames).flatMap (fun x => Stmt.demandsAll x.1.body) =
      s.routines.flatMap fun r => Stmt.demandsAll r.body := by
    rw [← List.flatMap_map (f := Prod.fst) (g := fun r : Routine => Stmt.demandsAll r.body),
      List.map_fst_zip (Nat.le_of_eq hf.frames.length_eq)]
  rw [demands, Supply.serveAll?_append]
  cases ht : (Supply.start seed).serveAll? (Stmt.demandsAll s.topLevel) with
  | none =>
    obtain ⟨t, hrun⟩ := htop.run_eq_error ht
    exact .inr ⟨rfl, by simp only [compileFrom, hl, hrun]⟩
  | some t =>
    obtain ⟨code, hrun⟩ := htop.run_eq_ok ht
    have hr := Layout.routineBlocks_of_serves hbodies t
    rw [hzip] at hr
    rcases hr with ⟨t', blocks, hs, hb⟩ | ⟨hs, t', hb⟩
    · exact .inl ⟨t', _, hs, by simp only [compileFrom, hl, hrun, hb]; rfl,
        by simp only [compileFrom, hl, hrun, hb]⟩
    · exact .inr ⟨hs, by simp only [compileFrom, hl, hrun, hb]; rfl⟩

end WellFormed

/-- A routine stands in for reading, its parameter is named twice, and it reads a global that is
assigned below it. Two bodies print the same text. -/
def standIn : Script where
  body :=
    [.define 1 "input" [⟨"n", none⟩, ⟨"n", none⟩]
      [.whileLoop 2 (.name "n")
        [.update 3 (.name "n") .sub (.literal (.int 1)),
          .eval 4 (.call "print" [.literal (.str "again")])],
        .ret 5 (some (.binary .add (.name "n") (.name "total")))],
      .assign 6 [.name "total"] (.literal (.int 5)),
      .ifElse 7 (.call "input" [.name "total"])
        [.eval 8 (.call "print" [.literal (.str "again")])] [.pass 9],
      .eval 10 (.call "print" [.literal (.str "done")])]

theorem standIn_framesFit : standIn.FramesFit := by
  unfold FramesFit
  decide

theorem standIn_compiles : ∃ p, (standIn.compileFrom "standIn" 0).result = .ok p :=
  exists_eq_ok (by decide)

end Script
end TreeAsm

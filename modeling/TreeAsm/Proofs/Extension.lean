import TreeAsm.Proofs.References

/-! A routine that is added to a script behind all others. Code that is generated without it is
generated with it too, word for word: the names in the bodies before it mean what they meant, and
those bodies draw their numbers and constants first. -/
namespace TreeAsm

namespace Emit

variable {α β : Type} {x y : Emit α}

theorem Yields.unique {s t t' : Supply} {a a' : α} {i i' : List Item} (h : x.Yields s a i t)
    (h' : x.Yields s a' i' t') : a = a' ∧ i = i' ∧ t = t' := by
  have he : (⟨i, t, .ok a⟩ : Emission α) = ⟨i', t', .ok a'⟩ := h.symm.trans h'
  simp only [Emission.mk.injEq, Except.ok.injEq] at he
  exact ⟨he.2.2, he.1, he.2.1⟩

/-- Wherever the first step succeeds, the second one does the same. -/
def Within (x y : Emit α) : Prop :=
  ∀ ⦃s a items s'⦄, x.Yields s a items s' → y.Yields s a items s'

theorem within_refl (x : Emit α) : x.Within x := fun _ _ _ _ h => h

theorem within_of_reject (e : CompileError) (y : Emit α) : (reject e).Within y :=
  fun _ _ _ _ h => absurd h not_yields_reject

theorem Within.bind {f g : α → Emit β} (hx : x.Within y) (hf : ∀ a, (f a).Within (g a)) :
    (x >>= f).Within (y >>= g) := by
  intro s b items s' h
  obtain ⟨a, i₁, s₁, i₂, h₁, h₂, rfl⟩ := yields_bind_iff.1 h
  exact yields_bind_iff.2 ⟨a, i₁, s₁, i₂, hx h₁, hf a h₂, rfl⟩

end Emit

/-- What a body can use means the same in the larger environment, and no routine stands in for
printing or reading there that does not before. -/
structure Env.Enlarges (larger env : Env) : Prop where
  resolve : larger.resolve = env.resolve
  result : larger.result = env.result
  callee : ∀ func f, env.callee func = some f → larger.callee func = some f
  builtin : ∀ func, func = "print" ∨ func = "input" → env.callee func = none →
    larger.callee func = none

namespace Lowering
open Emit

variable {env larger : Env} {line : UInt32}

theorem within_locate (h : larger.Enlarges env) (n : String) :
    (locate env line n).Within (locate larger line n) := by
  rw [locate, locate, h.resolve]
  cases env.resolve n with
  | some loc => exact within_refl _
  | none => exact within_of_reject _ _

theorem within_target (h : larger.Enlarges env) (t : Expr) :
    (target env line t).Within (target larger line t) := by
  cases t with
  | name n => exact within_locate h n
  | _ => exact within_of_reject _ _

theorem within_builtin {func : String} {count : Nat} {args args' : Emit Unit} {used : Bool}
    (ha : args.Within args') :
    (builtin env line func count args used).Within (builtin larger line func count args' used) := by
  by_cases hp : func = "print" ∧ count = 1 ∧ used = false
  · simp only [builtin, if_pos hp]
    exact ha.bind fun _ => within_refl _
  · by_cases hi : func = "input" ∧ count = 0
    · simp only [builtin, if_neg hp, if_pos hi]
      exact within_refl _
    · simp only [builtin, if_neg hp, if_neg hi]
      split
      · exact within_of_reject _ _
      · exact within_of_reject _ _

/-- A call that is generated is printing, reading, or a call of a routine that the larger
environment has too. -/
theorem within_call (h : larger.Enlarges env) {func : String} {count : Nat} {args args' : Emit Unit}
    {used : Bool} (ha : args.Within args') :
    (call env line func count args used).Within (call larger line func count args' used) := by
  cases hf : env.callee func with
  | some f =>
    simp only [call, hf, h.callee func f hf]
    split
    · exact within_of_reject _ _
    · exact ha.bind fun _ => within_refl _
  | none =>
    by_cases hb : func = "print" ∨ func = "input"
    · simp only [call, hf, h.builtin func hb hf]
      exact within_builtin ha
    · obtain ⟨hp, hi⟩ := not_or.1 hb
      simp only [call, hf, builtin, hp, hi, false_and, or_self, if_false]
      exact within_of_reject _ _

mutual

theorem within_expr (h : larger.Enlarges env) (e : Expr) :
    (expr env line e).Within (expr larger line e) := by
  match e with
  | .literal v => exact within_refl _
  | .name n => exact (within_locate h n).bind fun _ => within_refl _
  | .binary op l r =>
    exact (within_expr h l).bind fun _ => (within_expr h r).bind fun _ => within_refl _
  | .unary op e => exact (within_expr h e).bind fun _ => within_refl _
  | .call func args => exact within_call h (within_exprs h args)
  | .unsupported c => exact within_of_reject _ _

theorem within_exprs (h : larger.Enlarges env) (es : List Expr) :
    (exprs env line es).Within (exprs larger line es) := by
  match es with
  | [] => exact within_refl _
  | e :: r => exact (within_expr h e).bind fun _ => within_exprs h r

end

theorem within_discard (h : larger.Enlarges env) (e : Expr) :
    (discard env line e).Within (discard larger line e) := by
  cases e with
  | call func args => exact within_call h (within_exprs h args)
  | _ => exact (within_expr h _).bind fun _ => within_refl _

theorem within_assign (h : larger.Enlarges env) (value : Expr) (targets : List Expr) :
    (assign env line value targets).Within (assign larger line value targets) := by
  unfold assign
  split
  next t =>
    exact (within_target h t).bind fun _ => (within_expr h value).bind fun _ => within_refl _
  next => exact within_of_reject _ _

theorem within_update (h : larger.Enlarges env) (t : Expr) (op : BinaryOp) (value : Expr) :
    (update env line t op value).Within (update larger line t op value) :=
  (within_target h t).bind fun _ => (within_refl _).bind fun _ =>
    (within_expr h value).bind fun _ => within_refl _

theorem within_ret (h : larger.Enlarges env) (value : Option Expr) :
    (ret env line value).Within (ret larger line value) := by
  rw [ret, ret, h.result]
  cases env.result with
  | none => exact within_of_reject _ _
  | some x =>
    cases value with
    | none => exact within_refl _
    | some e => exact (within_expr h e).bind fun _ => within_refl _

mutual

theorem within_stmt (h : larger.Enlarges env) (x : Stmt) : (stmt env x).Within (stmt larger x) := by
  match x with
  | .assign line targets value => exact within_assign h value targets
  | .update line t op value => exact within_update h t op value
  | .ifElse line test body orelse =>
    have ht : (expr env line test).Within (expr larger line test) := within_expr h test
    have hb := within_stmts h body
    rw [stmt, stmt]
    split
    · exact ht.bind fun _ => (within_refl _).bind fun _ => (within_refl _).bind fun _ =>
        hb.bind fun _ => within_refl _
    · exact ht.bind fun _ => (within_refl _).bind fun _ => (within_refl _).bind fun _ =>
        (within_refl _).bind fun _ =>
        hb.bind fun _ => (within_refl _).bind fun _ => (within_refl _).bind fun _ =>
          (within_stmts h orelse).bind fun _ => within_refl _
  | .whileLoop line test body =>
    exact (within_refl _).bind fun _ => (within_refl _).bind fun _ => (within_refl _).bind fun _ =>
      (within_expr h test).bind fun _ => (within_refl _).bind fun _ =>
        (within_stmts h body).bind fun _ => within_refl _
  | .define line name params body => exact within_of_reject _ _
  | .ret line value => exact within_ret h value
  | .eval line value => exact within_discard h value
  | .pass line => exact within_refl _
  | .unsupported line construct => exact within_of_reject _ _

/-- Code that is generated is generated in a larger environment too. -/
theorem within_stmts (h : larger.Enlarges env) (xs : List Stmt) :
    (stmts env xs).Within (stmts larger xs) := by
  match xs with
  | [] => exact within_refl _
  | x :: r => exact (within_stmt h x).bind fun _ => within_stmts h r

end

end Lowering

namespace Script

/-- Definitions of routines bind no name of the script. -/
theorem bindsAll_topLevel (s : Script) : Stmt.bindsAll s.topLevel = Stmt.bindsAll s.body := by
  unfold topLevel
  induction s.body with
  | nil => rfl
  | cons x r ih =>
    cases x with
    | define line name params body => exact ih
    | _ => rw [List.filter_cons_of_pos rfl, Stmt.bindsAll, Stmt.bindsAll, ih]

theorem globals_eq_of_topLevel {s s' : Script} (h : s'.topLevel = s.topLevel) :
    Scope.globals s' = Scope.globals s := by
  rw [Scope.globals, Scope.globals, ← bindsAll_topLevel s', h, bindsAll_topLevel]

end Script

namespace Frame

/-- The last of the frames is found under its own name, the others under theirs. -/
theorem lookup_concat (frames : List Frame) (f : Frame) (name : String) :
    lookup (frames ++ [f]) name = if f.routine = name then some f else lookup frames name := by
  simp only [lookup, List.reverse_append, List.reverse_singleton, List.singleton_append,
    List.find?_cons]
  by_cases h : f.routine = name <;> simp [h]

end Frame

namespace Layout

variable {s s' : Script} {l l' : Layout} {d : Routine} {f : Frame}

/-- Storage for a routine that is added comes behind that of the others. The frames are what the
routines give one by one, so that those of the first routines are the same. -/
theorem exists_frames_eq (hl : ofScript s = .ok l) (hl' : ofScript s' = .ok l')
    (htop : s'.topLevel = s.topLevel) (hroutines : s'.routines = s.routines ++ [d]) :
    l'.globals = l.globals ∧ ∃ f, Frame.ofRoutine l.globals d = .ok f ∧
    l'.frames = l.frames ++ [f] := by
  obtain ⟨hg, -, hframed⟩ := ofScript_eq_ok hl
  obtain ⟨hg', -, hframed'⟩ := ofScript_eq_ok hl'
  have hglobals : l'.globals = l.globals := by rw [hg, hg', Script.globals_eq_of_topLevel htop]
  refine ⟨hglobals, ?_⟩
  have hmap : ∀ {rs : List Routine} {fs : List Frame},
      List.Forall₂ (fun r f => Frame.ofRoutine l.globals r = .ok f) rs fs →
        rs.map (Frame.ofRoutine l.globals) = fs.map Except.ok := by
    intro rs fs h
    rwa [← List.forall₂_eq_eq_eq, List.forall₂_map_left_iff, List.forall₂_map_right_iff]
  have hold := hmap hframed.frames
  have hnew := hmap (hglobals ▸ hframed'.frames)
  rw [hroutines, List.map_append, hold, List.map_singleton] at hnew
  obtain ⟨fs, rest, hfs, hprefix, hrest⟩ := List.append_eq_map_iff.1 hnew
  obtain ⟨f, rfl, hf⟩ := List.map_eq_singleton_iff.1 hrest
  have hinjective : Function.Injective (Except.ok : Frame → Except Fault Frame) :=
    fun _ _ => Except.ok.inj
  exact ⟨f, hf.symm, by rw [hfs, List.map_injective_iff.2 hinjective hprefix]⟩

/-- Calls of the routines that were there go where they went. -/
theorem lookup_enlarges (hframes : l'.frames = l.frames ++ [f])
    (hnodup : (l'.frames.map Frame.routine).Nodup) {func : String} {g : Frame}
    (h : Frame.lookup l.frames func = some g) : Frame.lookup l'.frames func = some g := by
  obtain ⟨hg, hname⟩ := Frame.mem_of_lookup h
  have hne : f.routine ≠ func := by
    rintro rfl
    rw [hframes, List.map_append, List.nodup_append] at hnodup
    exact hnodup.2.2 _ (List.mem_map_of_mem hg) _ (List.mem_singleton_self _) hname
  rw [hframes, Frame.lookup_concat, if_neg hne, h]

theorem lookup_builtin (hframes : l'.frames = l.frames ++ [f]) {func : String}
    (hne : f.routine ≠ func) (h : Frame.lookup l.frames func = none) :
    Frame.lookup l'.frames func = none := by
  rw [hframes, Frame.lookup_concat, if_neg hne, h]

section Enlarged

variable (hglobals : l'.globals = l.globals) (hframes : l'.frames = l.frames ++ [f])
  (hnodup : (l'.frames.map Frame.routine).Nodup) (hprint : f.routine ≠ "print")
  (hinput : f.routine ≠ "input")
include hglobals hframes hnodup hprint hinput

theorem topEnv_enlarges : l'.topEnv.Enlarges l.topEnv where
  resolve := by simp only [topEnv, hglobals]
  result := rfl
  callee func g := lookup_enlarges hframes hnodup
  builtin func hb := by
    apply lookup_builtin hframes
    rcases hb with rfl | rfl
    · exact hprint
    · exact hinput

theorem routineEnv_enlarges (g : Frame) : (l'.routineEnv g).Enlarges (l.routineEnv g) where
  resolve := by simp only [routineEnv, hglobals]
  result := rfl
  callee := (topEnv_enlarges hglobals hframes hnodup hprint hinput).callee
  builtin := (topEnv_enlarges hglobals hframes hnodup hprint hinput).builtin

end Enlarged

namespace Bodies

variable {pairs more : List (Routine × Frame)} {t t' u : Supply}
  {pieces pieces' : List (Routine × Frame × List Item)}

/-- Bodies that are generated one after another, cut in two. -/
theorem exists_append (h : Bodies l (pairs ++ more) t pieces t') : ∃ u first second,
    Bodies l pairs t first u ∧ Bodies l more u second t' ∧ pieces = first ++ second := by
  induction pairs generalizing t pieces with
  | nil => exact ⟨t, [], pieces, .nil t, h, rfl⟩
  | cons x rest ih =>
    cases h with
    | cons hx hr =>
      obtain ⟨u, first, second, hfirst, hsecond, rfl⟩ := ih hr
      exact ⟨u, _ :: first, second, .cons hx hfirst, hsecond, rfl⟩

theorem unique (h : Bodies l pairs t pieces t') (h' : Bodies l pairs t pieces' u) :
    pieces' = pieces ∧ u = t' := by
  induction h generalizing pieces' with
  | nil =>
    cases h'
    exact ⟨rfl, rfl⟩
  | cons hx hr ih =>
    cases h' with
    | cons hx' hr' =>
      obtain ⟨-, rfl, rfl⟩ := hx.unique hx'
      obtain ⟨rfl, rfl⟩ := ih hr'
      exact ⟨rfl, rfl⟩

theorem mono (h : Bodies l pairs t pieces t')
    (hle : ∀ (g : Frame) (r : Routine), (l.routineBody g r).Within (l'.routineBody g r)) :
    Bodies l' pairs t pieces t' := by
  induction h with
  | nil t => exact .nil t
  | cons hx _ ih => exact .cons (hle _ _ hx) ih

end Bodies

end Layout

/-- The statement that defines the routine. -/
def Routine.definition (r : Routine) : Stmt := .define r.line r.name r.params r.body

namespace Script

/-- The routine stands behind all others, and there may be statements of the top level after it. -/
theorem routines_insert {before after : List Stmt} (h : ∀ x ∈ after, x.routine? = none)
    (d : Routine) :
    routines ⟨before ++ d.definition :: after⟩ = routines ⟨before ++ after⟩ ++ [d] := by
  have hafter : after.filterMap Stmt.routine? = [] := List.filterMap_eq_nil_iff.2 h
  simp only [routines, List.filterMap_append, List.filterMap_cons, hafter, List.append_nil]
  rfl

theorem topLevel_insert (before after : List Stmt) (d : Routine) :
    topLevel ⟨before ++ d.definition :: after⟩ = topLevel ⟨before ++ after⟩ := by
  simp [topLevel, Routine.definition, Stmt.routine?]

end Script

namespace Build

variable {s s' : Script} {source : String} {seed : Nat} {p p' : Program} {d : Routine}

/-- How the two compilations go together: all that the first one did is done by the second one too,
which then generates the body of the new routine from the supply that is left. -/
theorem exists_extension (b : Build s source seed p) (b' : Build s' source seed p')
    (htop : s'.topLevel = s.topLevel) (hroutines : s'.routines = s.routines ++ [d])
    (hprint : d.name ≠ "print") (hinput : d.name ≠ "input") :
    b'.layout.globals = b.layout.globals ∧ b'.top = b.top ∧
    ∃ f items, Frame.ofRoutine b.layout.globals d = .ok f ∧
      (b'.layout.routineBody f d).Yields b.final () items b'.final ∧
        b'.pieces = b.pieces ++ [(d, f, items)] := by
  obtain ⟨hglobals, f, hf, hframes⟩ :=
    Layout.exists_frames_eq b.layout_eq b'.layout_eq htop hroutines
  have hname : f.routine = d.name := (Frame.ofRoutine_eq_ok hf).1
  have hnodup : (b'.layout.frames.map Frame.routine).Nodup := b'.routine_names_eq ▸ b'.framed.nodup
  rw [← hname] at hprint hinput
  have hbody : (b'.layout.topBody s').Yields (.start seed) () b.top b.afterTop := by
    rw [Layout.topBody, htop]
    exact Lowering.within_stmts
      (Layout.topEnv_enlarges hglobals hframes hnodup hprint hinput) _ b.top_yields
  obtain ⟨-, hitems, hafter⟩ := b'.top_yields.unique hbody
  have hbodies : b'.layout.Bodies (s.routines.zip b.layout.frames) b.afterTop b.pieces b.final := by
    apply b.bodies.mono
    intro g r
    exact Lowering.within_stmts
      (Layout.routineEnv_enlarges hglobals hframes hnodup hprint hinput g) r.body
  have hzip : s'.routines.zip b'.layout.frames = s.routines.zip b.layout.frames ++ [(d, f)] := by
    rw [hroutines, hframes, List.zip_append b.framed.frames.length_eq]
    rfl
  have hall := b'.bodies
  rw [hzip, hafter] at hall
  obtain ⟨u, first, second, hfirst, hsecond, hpieces⟩ := hall.exists_append
  obtain ⟨rfl, rfl⟩ := hbodies.unique hfirst
  cases hsecond with
  | cons hd hnil =>
    cases hnil
    exact ⟨hglobals, hitems, f, _, hf, hd, hpieces⟩

end Build

namespace Script

variable {before after : List Stmt} {d : Routine} {source : String} {seed : Nat} {p p' : Program}

/-- A routine that is added behind all others is compiled separately. What a script is compiled to
stays as it is, and behind it comes one block for the routine: its frame around the code of its
body, which is generated from what the rest has left of numbers and constants. -/
theorem added_routine_separate (hafter : ∀ x ∈ after, x.routine? = none) (hprint : d.name ≠ "print")
    (hinput : d.name ≠ "input") (h : (compileFrom ⟨before ++ after⟩ source seed).result = .ok p)
    (h' : (compileFrom ⟨before ++ d.definition :: after⟩ source seed).result = .ok p') :
    p'.data = p.data ∧ p'.topLevel = p.topLevel ∧
      (∃ l f code t t', Layout.ofScript ⟨before ++ d.definition :: after⟩ = .ok l ∧
        Frame.ofRoutine l.globals d = .ok f ∧
        t.next = (compileFrom ⟨before ++ after⟩ source seed).next ∧
        (l.routineBody f d).run t = (.ok code, t') ∧ p'.routines = p.routines ++ [f.block code]) ∧
      p.strings.toList.flatMap Block.code <+: p'.strings.toList.flatMap Block.code ∧
      (compileFrom ⟨before ++ after⟩ source seed).next ≤
        (compileFrom ⟨before ++ d.definition :: after⟩ source seed).next := by
  obtain ⟨b⟩ := Build.nonempty h
  obtain ⟨b'⟩ := Build.nonempty h'
  obtain ⟨hglobals, hitems, f, items, hf, hyields, hpieces⟩ :=
    b.exists_extension b' (topLevel_insert before after d) (routines_insert hafter d) hprint hinput
  have hspends := (Lowering.Assembled.ofStmts _ hyields).spends
  refine ⟨?_, ?_, ?_, ?_, ?_⟩
  · rw [b.data_eq, b'.data_eq, hglobals]
  · rw [b.topLevel_eq, b'.topLevel_eq, hitems]
  · refine ⟨b'.layout, f, Code.settle items, b.final, b'.final, b'.layout_eq, hglobals ▸ hf,
      b.next_eq.symm, ?_, ?_⟩
    · rw [Emit.run, show _ = _ from hyields]
      rfl
    · rw [b.blocks_eq, b'.blocks_eq, hpieces, List.map_append]
      rfl
  · rw [b.strings_eq, b'.strings_eq, flatMap_stringBlock, flatMap_stringBlock]
    exact hspends.entries_prefix.map _
  · rw [b.next_eq, b'.next_eq]
    exact hspends.next_le

/-- A routine with a parameter named like a global. It calls itself and another routine, and prints
a text that is known and one that is not. -/
def latecomer : Routine where
  line := 10
  name := "str"
  params := [⟨"endwhile", none⟩]
  body :=
    [.whileLoop 11 (.call "else" [.name "endwhile", .call "input" []])
      [.eval 12 (.call "print" [.literal (.str "b")]),
        .eval 13 (.call "print" [.literal (.str "c")])],
      .ret 14 (some (.call "str" [.name "endwhile"]))]

theorem stemNames_latecomer_separate :
    ∃ p p', (compileFrom ⟨stemNames.body.take 2 ++ stemNames.body.drop 2⟩ "stems" 7).result =
      .ok p ∧
      (compileFrom ⟨stemNames.body.take 2 ++ latecomer.definition :: stemNames.body.drop 2⟩ "stems"
        7).result = .ok p' ∧
      p'.data = p.data ∧ p'.topLevel = p.topLevel ∧ p'.routines.length = p.routines.length + 1 ∧
      p.routines <+: p'.routines ∧
      p.strings.toList.flatMap Block.code <+: p'.strings.toList.flatMap Block.code := by
  obtain ⟨p, h⟩ : ∃ p,
      (compileFrom ⟨stemNames.body.take 2 ++ stemNames.body.drop 2⟩ "stems" 7).result = .ok p :=
    exists_eq_ok (by decide)
  obtain ⟨p', h'⟩ : ∃ p',
      (compileFrom ⟨stemNames.body.take 2 ++ latecomer.definition :: stemNames.body.drop 2⟩
      "stems" 7).result = .ok p' := exists_eq_ok (by decide)
  obtain ⟨hdata, htop, ⟨l, f, code, t, t', -, -, -, -, hroutines⟩, hstrings, -⟩ :=
    added_routine_separate (by decide) (by decide) (by decide) h h'
  refine ⟨p, p', h, h', hdata, htop, ?_, ?_, hstrings⟩
  · rw [hroutines, List.length_append, List.length_singleton]
  · exact ⟨_, hroutines.symm⟩

end Script
end TreeAsm

import Mathlib.Data.List.Forall2
import TreeAsm.Proofs.Numbering

/-! The record of a successful compilation: the storage, the code of each body before its labels are
settled, and the supplies in between. Facts about compiled programs are facts about this record. -/
namespace TreeAsm

theorem exists_eq_ok {ε α : Type} {r : Except ε α} (h : r.isOk = true) : ∃ a, r = .ok a := by
  cases r with
  | error e => simp [Except.isOk, Except.toBool] at h
  | ok a => exact ⟨a, rfl⟩

namespace Frame

theorem ofRoutine_eq_ok {globals : Scope} {r : Routine} {f : Frame}
    (h : ofRoutine globals r = .ok f) : f.routine = r.name ∧ globals.locals r = .ok f.locals := by
  unfold ofRoutine at h
  split at h
  next => simp at h
  next scope hs =>
    split at h
    next => simp at h
    next g hg =>
      obtain rfl := Except.ok.inj h
      unfold ofScope? at hg
      split at hg
      next => exact Option.some.inj hg ▸ ⟨rfl, hs⟩
      next => simp at hg

end Frame

namespace Scope

/-- A routine whose locals are accepted defines no routine inside, and reads known names only. -/
theorem locals_eq_ok {globals scope : Scope} {r : Routine} (h : globals.locals r = .ok scope) :
    scope = globals.localsOf r ∧ Stmt.definesAll r.body = [] ∧
      ∀ n ∈ Stmt.readsAll r.body, scope.contains n.1 = true ∨ globals.contains n.1 = true := by
  unfold locals at h
  split at h
  next => simp at h
  next hd =>
    simp only at h
    split at h
    next => simp at h
    next hr =>
      obtain rfl := Except.ok.inj h
      refine ⟨rfl, by simpa using hd, fun n hn => ?_⟩
      simpa [or_iff_not_imp_left] using List.find?_eq_none.1 hr n hn

end Scope

namespace Layout

/-- The routines have names of their own, and each has its frame. -/
structure Framed (globals : Scope) (earlier : List String) (rs : List Routine)
    (fs : List Frame) : Prop where
  frames : List.Forall₂ (fun r f => Frame.ofRoutine globals r = .ok f) rs fs
  nodup : (rs.map Routine.name).Nodup
  fresh : ∀ r ∈ rs, r.name ∉ earlier
  not_entry : ∀ r ∈ rs, r.name ≠ Label.entry
  not_global : ∀ r ∈ rs, globals.contains r.name = false

theorem framed_of_distinctFrames {globals : Scope} {earlier : List String} {rs : List Routine}
    {fs : List Frame} (h : distinctFrames globals earlier rs = .ok fs) :
    Framed globals earlier rs fs := by
  induction rs generalizing earlier fs with
  | nil =>
    obtain rfl := Except.ok.inj h
    exact ⟨.nil, by simp, by simp, by simp, by simp⟩
  | cons r rest ih =>
    rw [distinctFrames] at h
    split at h
    next => simp at h
    next hd =>
      split at h
      next => simp at h
      next hc =>
        split at h
        next => simp at h
        next f hf =>
          cases hr : distinctFrames globals (r.name :: earlier) rest with
          | error e => simp [hr, Except.map] at h
          | ok gs =>
            rw [hr] at h
            obtain rfl := Except.ok.inj h
            have ht := ih hr
            have hfresh : ∀ q ∈ rest, q.name ≠ r.name ∧ q.name ∉ earlier := by
              intro q hq
              simpa using ht.fresh q hq
            have hc := not_or.1 hc
            refine ⟨.cons hf ht.frames, ?_, ?_, ?_, ?_⟩
            · rw [List.map_cons, List.nodup_cons]
              refine ⟨fun hm => ?_, ht.nodup⟩
              obtain ⟨q, hq, he⟩ := List.mem_map.1 hm
              exact (hfresh q hq).1 he
            · exact List.forall_mem_cons.2 ⟨hd, fun q hq => (hfresh q hq).2⟩
            · exact List.forall_mem_cons.2 ⟨hc.1, ht.not_entry⟩
            · exact List.forall_mem_cons.2 ⟨by simpa using hc.2, ht.not_global⟩

theorem ofScript_eq_ok {s : Script} {l : Layout} (h : ofScript s = .ok l) :
    l.globals = Scope.globals s ∧ l.globals.contains Label.entry = false ∧
      Framed l.globals [] s.routines l.frames := by
  unfold ofScript at h
  split at h
  next => simp at h
  next he =>
    cases hd : distinctFrames (Scope.globals s) [] s.routines with
    | error e => simp [hd, Except.map] at h
    | ok fs =>
      rw [hd] at h
      obtain rfl := Except.ok.inj h
      exact ⟨rfl, by simpa using he, framed_of_distinctFrames hd⟩

/-- The bodies of the routines are generated one after another. -/
inductive Bodies (l : Layout) :
    List (Routine × Frame) → Supply → List (Routine × Frame × List Item) → Supply → Prop where
  | nil (s : Supply) : Bodies l [] s [] s
  | cons {r : Routine} {f : Frame} {rest : List (Routine × Frame)} {s s₁ s' : Supply}
      {items : List Item}
      {pieces : List (Routine × Frame × List Item)} (h : (l.routineBody f r).Yields s () items s₁)
      (hr : Bodies l rest s₁ pieces s') :
      Bodies l ((r, f) :: rest) s ((r, f, items) :: pieces) s'

end Layout

/-- The block of a routine from the code of its body. -/
def Frame.assemble (f : Frame) (items : List Item) : Block := f.block (Code.settle items)

theorem Emit.run_eq_ok {body : Emit Unit} {s s' : Supply} {code : List Instruction}
    (h : body.run s = (.ok code, s')) :
    ∃ items, body.Yields s () items s' ∧ code = Code.settle items := by
  rcases hb : body s with ⟨items, t, r⟩
  simp only [run, hb] at h
  cases r with
  | error e => simp [Except.map] at h
  | ok u =>
    simp only [Except.map, Prod.mk.injEq, Except.ok.injEq] at h
    exact ⟨items, by rw [Yields, hb, h.2], h.1.symm⟩

namespace Layout

theorem bodies_of_routineBlocks {l : Layout} {pairs : List (Routine × Frame)} {s s' : Supply}
    {blocks : List Block} (h : l.routineBlocks pairs s = (.ok blocks, s')) :
    ∃ pieces, Bodies l pairs s pieces s' ∧ blocks = pieces.map fun x => x.2.1.assemble x.2.2 := by
  induction pairs generalizing s blocks with
  | nil =>
    obtain ⟨hb, rfl⟩ := Prod.mk.inj h
    obtain rfl := Except.ok.inj hb
    exact ⟨[], .nil s, rfl⟩
  | cons x rest ih =>
    obtain ⟨r, f⟩ := x
    rw [routineBlocks] at h
    split at h
    next => simp at h
    next code s₁ hrun =>
      rcases ht : l.routineBlocks rest s₁ with ⟨tail, s₂⟩
      simp only [ht, Prod.mk.injEq] at h
      obtain ⟨hb, rfl⟩ := h
      cases tail with
      | error e => simp [Except.map] at hb
      | ok tail =>
        obtain rfl := Except.ok.inj hb
        obtain ⟨items, hi, rfl⟩ := Emit.run_eq_ok hrun
        obtain ⟨pieces, hp, rfl⟩ := ih ht
        exact ⟨(r, f, items) :: pieces, .cons hi hp, rfl⟩

namespace Bodies

variable {l : Layout} {pairs : List (Routine × Frame)} {s s' : Supply}
  {pieces : List (Routine × Frame × List Item)}

theorem map_eq (h : Bodies l pairs s pieces s') : pieces.map (fun x => (x.1, x.2.1)) = pairs := by
  induction h with
  | nil => rfl
  | cons _ _ ih => rw [List.map_cons, ih]

theorem spends (h : Bodies l pairs s pieces s') : s.Spends (pieces.flatMap fun x => x.2.2) s' := by
  induction h with
  | nil s => exact .nil s
  | cons h _ ih => exact (Lowering.Assembled.ofStmts _ h).spends.append ih

/-- Each body is generated from some supply, and the constants it knows stay known. -/
theorem yields_of_mem (h : Bodies l pairs s pieces s') {x : Routine × Frame × List Item}
    (hx : x ∈ pieces) :
    ∃ s₁ s₂, (l.routineBody x.2.1 x.1).Yields s₁ () x.2.2 s₂ ∧
      s₂.strings.entries <+: s'.strings.entries := by
  induction h with
  | nil => simp at hx
  | cons h hr ih =>
    rcases List.mem_cons.1 hx with rfl | hx
    · exact ⟨_, _, h, hr.spends.entries_prefix⟩
    · exact ih hx

end Bodies
end Layout

/-- Leaving out an empty block of constants loses no instruction. -/
theorem Script.flatMap_stringBlock (strings : StringPool) :
    (stringBlock strings).toList.flatMap Block.code = strings.declarations := by
  unfold stringBlock
  by_cases h : strings.isEmpty = true
  · rw [if_pos h, StringPool.declarations, List.isEmpty_iff.1 h]
    rfl
  · rw [if_neg h]
    simp

/-- All instructions in the order of the listing, with the jump in front and the end mark. -/
def Program.listing (p : Program) : List Instruction :=
  .on .br (.target (.plain Label.entry)) :: (p.instructions ++ [.bare .finish])

/-- How a script became a program. -/
structure Build (s : Script) (source : String) (seed : Nat) (p : Program) where
  layout : Layout
  layout_eq : Layout.ofScript s = .ok layout
  top : List Item
  afterTop : Supply
  top_yields : (layout.topBody s).Yields (.start seed) () top afterTop
  pieces : List (Routine × Frame × List Item)
  final : Supply
  bodies : layout.Bodies (s.routines.zip layout.frames) afterTop pieces final
  next_eq : (s.compileFrom source seed).next = final.next
  program_eq : p = ⟨source, Script.dataBlock layout.globals, Script.stringBlock final.strings,
    pieces.map fun x => x.2.1.assemble x.2.2, Code.topLevelBlock (Code.settle top)⟩

namespace Build

theorem nonempty {s : Script} {source : String} {seed : Nat} {p : Program}
    (h : (s.compileFrom source seed).result = .ok p) : Nonempty (Build s source seed p) := by
  have hc : ∀ c, s.compileFrom source seed = c → c.result = .ok p →
      Nonempty (Build s source seed p) := by
    intro c hc hp
    have hn := congrArg Compilation.next hc
    unfold Script.compileFrom at hc
    split at hc
    next => simp [← hc] at hp
    next layout hl =>
      split at hc
      next => simp [← hc] at hp
      next code supply hrun =>
        rcases hb : layout.routineBlocks (s.routines.zip layout.frames) supply
          with ⟨routines, final⟩
        simp only [hb] at hc
        subst hc
        cases routines with
        | error e => simp [Except.map] at hp
        | ok blocks =>
          obtain ⟨top, ht, rfl⟩ := Emit.run_eq_ok hrun
          obtain ⟨pieces, hp', rfl⟩ := Layout.bodies_of_routineBlocks hb
          exact ⟨⟨layout, hl, top, supply, ht, pieces, final, hp', hn, (Except.ok.inj hp).symm⟩⟩
  exact hc _ rfl h

variable {s : Script} {source : String} {seed : Nat} {p : Program}

theorem data_eq (b : Build s source seed p) : p.data = Script.dataBlock b.layout.globals :=
  congrArg Program.data b.program_eq

theorem strings_eq (b : Build s source seed p) : p.strings = Script.stringBlock b.final.strings :=
  congrArg Program.strings b.program_eq

theorem blocks_eq (b : Build s source seed p) :
    p.routines = b.pieces.map fun x => x.2.1.assemble x.2.2 :=
      congrArg Program.routines b.program_eq

theorem topLevel_eq (b : Build s source seed p) :
    p.topLevel = Code.topLevelBlock (Code.settle b.top) :=
  congrArg Program.topLevel b.program_eq

theorem globals_eq (b : Build s source seed p) : b.layout.globals = Scope.globals s :=
  (Layout.ofScript_eq_ok b.layout_eq).1

theorem framed (b : Build s source seed p) :
    Layout.Framed b.layout.globals [] s.routines b.layout.frames :=
  (Layout.ofScript_eq_ok b.layout_eq).2.2

theorem pairs_eq (b : Build s source seed p) :
    b.pieces.map (fun x => (x.1, x.2.1)) = s.routines.zip b.layout.frames := b.bodies.map_eq

/-- Every frame of the storage belongs to one block. -/
theorem frames_eq (b : Build s source seed p) :
    b.pieces.map (fun x => x.2.1) = b.layout.frames := by
  have h := congrArg (List.map Prod.snd) b.pairs_eq
  rw [List.map_map, List.map_snd_zip (Nat.le_of_eq b.framed.frames.length_eq.symm)] at h
  exact h

theorem routines_eq (b : Build s source seed p) : b.pieces.map (fun x => x.1) = s.routines := by
  have h := congrArg (List.map Prod.fst) b.pairs_eq
  rw [List.map_map, List.map_fst_zip (Nat.le_of_eq b.framed.frames.length_eq)] at h
  exact h

/-- The frame of a piece is that of its routine. -/
theorem ofRoutine_of_mem (b : Build s source seed p) {x : Routine × Frame × List Item}
    (hx : x ∈ b.pieces) : Frame.ofRoutine b.layout.globals x.1 = .ok x.2.1 := by
  have hm : (x.1, x.2.1) ∈ s.routines.zip b.layout.frames := b.pairs_eq ▸ List.mem_map_of_mem hx
  exact (List.forall₂_iff_zip.1 b.framed.frames).2 hm

theorem routine_eq_of_mem (b : Build s source seed p) {x : Routine × Frame × List Item}
    (hx : x ∈ b.pieces) :
    x.2.1.routine = x.1.name ∧ x.1 ∈ s.routines ∧ x.2.1.locals = b.layout.globals.localsOf x.1 := by
  obtain ⟨hn, hl⟩ := Frame.ofRoutine_eq_ok (b.ofRoutine_of_mem hx)
  exact ⟨hn, b.routines_eq ▸ List.mem_map_of_mem hx, (Scope.locals_eq_ok hl).1⟩

theorem routine_names_eq (b : Build s source seed p) :
    b.layout.frames.map Frame.routine = s.routines.map Routine.name := by
  rw [← b.frames_eq, ← b.routines_eq, List.map_map, List.map_map]
  exact List.map_congr_left fun x hx => (b.routine_eq_of_mem hx).1

theorem entry_not_global (b : Build s source seed p) : Label.entry ∉ b.layout.globals.names := by
  have h := (Layout.ofScript_eq_ok b.layout_eq).2.1
  rw [← Scope.contains_iff]
  simp [h]

/-- Routines are named neither like the entry nor like a global. -/
theorem routine_fresh (b : Build s source seed p) :
    ∀ f ∈ b.layout.frames, f.routine ≠ Label.entry ∧ f.routine ∉ b.layout.globals.names := by
  intro f hf
  obtain ⟨r, hr, hn⟩ := List.mem_map.1 (b.routine_names_eq ▸ List.mem_map_of_mem hf : f.routine ∈ _)
  rw [← hn, ← Scope.contains_iff]
  exact ⟨b.framed.not_entry r hr, by simp [b.framed.not_global r hr]⟩

theorem topBody_assembled (b : Build s source seed p) :
    Lowering.Assembled b.layout.topEnv (Stmt.textsAll s.topLevel) (.start seed) b.top b.afterTop :=
  .ofStmts _ b.top_yields

/-- Together the bodies use every number from the seed up to the last one. -/
theorem spends (b : Build s source seed p) :
    (Supply.start seed).Spends (b.top ++ b.pieces.flatMap fun x => x.2.2) b.final :=
  b.topBody_assembled.spends.append b.bodies.spends

theorem piece_assembled (b : Build s source seed p) {x : Routine × Frame × List Item}
    (hx : x ∈ b.pieces) :
    ∃ s₁ s₂, Lowering.Assembled (b.layout.routineEnv x.2.1) (Stmt.textsAll x.1.body) s₁ x.2.2 s₂ ∧
      s₂.strings.entries <+: b.final.strings.entries := by
  obtain ⟨s₁, s₂, hy, hp⟩ := b.bodies.yields_of_mem hx
  exact ⟨s₁, s₂, .ofStmts _ hy, hp⟩

theorem isBranch_of_mem_marks (b : Build s source seed p) :
    ∀ l ∈ Code.marks (b.top ++ b.pieces.flatMap fun x => x.2.2), l.IsBranch := by
  intro l hl
  rw [Code.marks_append] at hl
  rcases List.mem_append.1 hl with hl | hl
  · exact b.topBody_assembled.isBranch_of_mem_marks l hl
  · obtain ⟨i, hi, hm⟩ := List.mem_filterMap.1 hl
    obtain ⟨x, hx, hi⟩ := List.mem_flatMap.1 hi
    obtain ⟨s₁, s₂, ha, -⟩ := b.piece_assembled hx
    exact ha.isBranch_of_mem_marks l (List.mem_filterMap.2 ⟨i, hi, hm⟩)

end Build
end TreeAsm

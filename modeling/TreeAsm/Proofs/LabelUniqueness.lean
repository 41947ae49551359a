import TreeAsm.Proofs.Build
import TreeAsm.Proofs.LabelText
import TreeAsm.Proofs.Scopes
import Mathlib.Data.List.Nodup

/-! No two instructions of a compiled program have the same label, as long as the names of the
script are identifiers. Labels that come from names are told apart by the scopes, generated ones by
their numbers. -/
namespace TreeAsm

namespace Code

/-- The labels that instructions carry, in order. -/
def labels (code : List Instruction) : List Label := code.filterMap Instruction.label

@[simp] theorem labels_nil : labels [] = [] := rfl

@[simp] theorem labels_append (c d : List Instruction) : labels (c ++ d) = labels c ++ labels d :=
  List.filterMap_append

theorem labels_cons (i : Instruction) (r : List Instruction) :
    labels (i :: r) = i.label.toList ++ labels r := by
  cases h : i.label <;> simp [labels, h]

theorem labels_carriers (ls : List Label) : labels (ls.map .carrier) = ls := by
  induction ls with
  | nil => rfl
  | cons l r ih => rw [List.map_cons, labels_cons, ih]; rfl

theorem labels_attach (pending : List Label) {i : Instruction} (h : i.label = none) :
    labels (attach pending i) = pending := by
  unfold attach
  split
  next hp => rw [List.getLast?_eq_none_iff.1 hp, labels_cons, h]; rfl
  next l hp =>
    rw [labels_append, labels_carriers, labels_cons, labels_nil, List.append_nil]
    exact List.dropLast_append_getLast? l hp

/-- Settling puts the labels on instructions and keeps their order. -/
theorem labels_settleFrom (pending : List Label) {items : List Item}
    (h : ∀ i, .op i ∈ items → i.label = none) :
    labels (settleFrom pending items) = pending ++ marks items := by
  induction items generalizing pending with
  | nil => simp [settleFrom, labels_carriers]
  | cons x r ih =>
    have hr : ∀ i, .op i ∈ r → i.label = none := fun i hi => h i (List.mem_cons_of_mem _ hi)
    cases x with
    | mark l => simp [settleFrom, ih _ hr]
    | op i => simp [settleFrom, labels_attach _ (h i List.mem_cons_self), ih _ hr]

theorem labels_settle {items : List Item} (h : ∀ i, .op i ∈ items → i.label = none) :
    labels (settle items) = marks items := labels_settleFrom [] h

theorem labels_withLabel (l : Label) (code : List Instruction) :
    labels (withLabel l code) = l :: labels code := by
  cases code with
  | nil => rfl
  | cons i r =>
    rw [withLabel]
    cases h : i.label with
    | none => simp [labels_cons, Instruction.labelled, h]
    | some m => simp [labels_cons, Instruction.carrier, Instruction.labelled, h]

/-- A map of instructions that replaces labels, and puts none where there is none. -/
structure Relabels (f : Label → Label) (g : Instruction → Instruction) : Prop where
  label : ∀ i, (g i).label = i.label.map f
  labelled : ∀ i l, g (i.labelled l) = (g i).labelled (f l)
  nop : g (.bare .nop) = .bare .nop

namespace Relabels

variable {f : Label → Label} {g : Instruction → Instruction} (h : Relabels f g)
include h

theorem carrier (l : Label) : g (.carrier l) = .carrier (f l) := by
  rw [Instruction.carrier, h.labelled, h.nop]
  rfl

theorem map_carriers (ls : List Label) :
    (ls.map Instruction.carrier).map g = (ls.map f).map Instruction.carrier := by
  rw [List.map_map, List.map_map]
  exact List.map_congr_left fun l _ => h.carrier l

theorem map_attach (pending : List Label) (i : Instruction) :
    (attach pending i).map g = attach (pending.map f) (g i) := by
  unfold attach
  rw [List.getLast?_map]
  cases pending.getLast? with
  | none => rfl
  | some l =>
    simp only [Option.map_some, List.map_append, h.map_carriers, List.map_dropLast,
      List.map_cons, List.map_nil, h.labelled]

/-- Replacing labels and settling them can change places. -/
theorem map_settleFrom {k : Item → Item} (hmark : ∀ l, k (.mark l) = .mark (f l))
    (hop : ∀ i, k (.op i) = .op (g i)) (pending : List Label) (items : List Item) :
    (settleFrom pending items).map g = settleFrom (pending.map f) (items.map k) := by
  induction items generalizing pending with
  | nil => exact h.map_carriers pending
  | cons x r ih =>
    cases x with
    | mark l => simp [settleFrom, ih, hmark]
    | op i => simp [settleFrom, ih, hop, h.map_attach]

theorem map_withLabel (l : Label) (code : List Instruction) :
    (withLabel l code).map g = withLabel (f l) (code.map g) := by
  cases code with
  | nil => simp only [withLabel, List.map_cons, List.map_nil, h.carrier]
  | cons i r =>
    have hlabel : (g i).label.isNone = i.label.isNone := by rw [h.label, Option.isNone_map]
    rw [List.map_cons, withLabel, withLabel, hlabel]
    split
    · rw [List.map_cons, h.labelled]
    · rw [List.map_cons, List.map_cons, h.carrier]

end Relabels

end Code

open Code

namespace Frame

/-- The labels that a routine has by its name and the names of its variables. -/
def ownLabels (f : Frame) : List Label :=
  .result f.routine :: .plain f.routine :: .exit f.routine :: f.locals.names.map (.slot f.routine)

theorem labels_reservation (f : Frame) :
    labels f.reservation = .result f.routine :: f.locals.names.map (.slot f.routine) := by
  have hz : ∀ (vs : List Variable) (k : Nat),
      labels ((vs.zipIdx k).map fun x => f.slotEquate x.1 x.2) =
        (vs.map Variable.name).map (.slot f.routine) := by
    intro vs
    induction vs with
    | nil => intro k; rfl
    | cons v r ih => intro k; rw [List.zipIdx_cons, List.map_cons, labels_cons, ih]; rfl
  rw [reservation, labels_cons]
  exact congrArg (_ :: ·) (hz f.locals.toList 0)

theorem labels_bindParam (f : Frame) (name : String) (k : Nat) :
    labels (f.bindParam name k) = [] := by
  unfold bindParam
  split <;> rfl

theorem labels_prologue (f : Frame) : labels f.prologue = [.plain f.routine] := by
  have hb : labels (f.params.zipIdx.flatMap fun x => f.bindParam x.1 x.2) = [] := by
    refine List.filterMap_eq_nil_iff.2 fun i hi => ?_
    obtain ⟨x, -, hx⟩ := List.mem_flatMap.1 hi
    exact List.filterMap_eq_nil_iff.1 (labels_bindParam f x.1 x.2) i hx
  rw [prologue, labels_cons]
  exact congrArg (_ :: ·) hb

/-- The labels of the block of a routine are its own and those that its body places. -/
theorem labels_block_perm (f : Frame) (code : List Instruction) :
    (labels (f.block code).code).Perm (f.ownLabels ++ labels code) := by
  simp only [block, labels_append, labels_reservation, labels_prologue]
  rw [List.perm_iff_count]
  intro l
  simp only [epilogue, exitLabel, labels_cons, labels_nil, ownLabels, List.count_append,
    List.count_cons, Instruction.labelled, Instruction.bare, Option.toList_some, Option.toList_none,
    List.count_nil, List.append_nil, List.cons_append]
  omega

theorem base_of_mem_ownLabels {f : Frame} {l : Label} (h : l ∈ f.ownLabels) :
    l.base = f.routine := by
  simp only [ownLabels, List.mem_cons, List.mem_map] at h
  rcases h with rfl | rfl | rfl | ⟨n, -, rfl⟩ <;> rfl

theorem nodup_ownLabels (f : Frame) : f.ownLabels.Nodup := by
  have hs : (f.locals.names.map (Label.slot f.routine)).Nodup :=
    f.locals.nodup_names.map fun a b h => by simpa using h
  simp [ownLabels, hs]

end Frame

theorem map_number?_eq {ls : List Label} (hg : ∀ l ∈ ls, ∃ stem n, l = .generated stem n) :
    ls.map Label.number? = (ls.filterMap Label.number?).map some := by
  induction ls with
  | nil => rfl
  | cons l r ih =>
    obtain ⟨stem, n, rfl⟩ := hg l List.mem_cons_self
    simpa [Label.number?] using ih fun m hm => hg m (List.mem_cons_of_mem _ hm)

/-- Generated labels are told apart by their numbers. -/
theorem nodup_map_number? {ls : List Label} (hg : ∀ l ∈ ls, ∃ stem n, l = .generated stem n)
    (hn : (ls.filterMap Label.number?).Nodup) : (ls.map Label.number?).Nodup := by
  rw [map_number?_eq hg]
  exact hn.map fun a b h => Option.some.inj h

/-- All names that a script binds, its routines included, are identifiers. -/
structure Script.Named (s : Script) : Prop where
  globals : ∀ b ∈ Stmt.bindsAll s.body, isIdentifier b.1 = true
  routines : ∀ r ∈ s.routines, isIdentifier r.name = true
  params : ∀ r ∈ s.routines, ∀ p ∈ r.params, isIdentifier p.name = true
  locals : ∀ r ∈ s.routines, ∀ b ∈ Stmt.bindsAll r.body, isIdentifier b.1 = true

namespace Build

variable {s : Script} {source : String} {seed : Nat} {p : Program} (b : Build s source seed p)

/-- The labels made of names: globals, the entry, and what each routine has. -/
def namedLabels : List Label :=
  b.layout.globals.names.map .plain ++ .plain Label.entry :: b.layout.frames.flatMap Frame.ownLabels

/-- The labels with numbers: string constants and what the bodies place. -/
def numberedLabels : List Label :=
  b.final.strings.entries.map (fun e => StringPool.labelOf e.2) ++
    marks (b.top ++ b.pieces.flatMap fun x => x.2.2)

theorem labels_data : labels p.data.code = b.layout.globals.names.map .plain := by
  have hd : ∀ vs : List Variable, labels (vs.map Scope.staticData) =
      (vs.map Variable.name).map .plain := by
    intro vs
    induction vs with
    | nil => rfl
    | cons v r ih => rw [List.map_cons, labels_cons, ih]; rfl
  rw [b.data_eq]
  exact hd _

theorem labels_strings : labels (p.strings.toList.flatMap Block.code) =
    b.final.strings.entries.map fun e => StringPool.labelOf e.2 := by
  have hd : ∀ es : List (String × Nat), labels (es.map fun e => StringPool.declaration e.1 e.2) =
      es.map fun e => StringPool.labelOf e.2 := by
    intro es
    induction es with
    | nil => rfl
    | cons e r ih => rw [List.map_cons, labels_cons, ih]; rfl
  rw [b.strings_eq, Script.flatMap_stringBlock]
  exact hd _

theorem labels_top : labels p.topLevel.code = .plain Label.entry :: marks b.top := by
  rw [b.topLevel_eq]
  simp only [Code.topLevelBlock, labels_withLabel, labels_append]
  rw [labels_settle b.topBody_assembled.label_eq_none]
  simp [labels_cons, Instruction.bare]

theorem labels_routines_perm : (labels (p.routines.flatMap Block.code)).Perm
    (b.layout.frames.flatMap Frame.ownLabels ++ marks (b.pieces.flatMap fun x => x.2.2)) := by
  have hp : ∀ ps : List (Routine × Frame × List Item), (∀ x ∈ ps, x ∈ b.pieces) →
      (labels ((ps.map fun x => x.2.1.assemble x.2.2).flatMap Block.code)).Perm
        ((ps.map fun x => x.2.1).flatMap Frame.ownLabels ++ marks (ps.flatMap fun x => x.2.2)) := by
    intro ps
    induction ps with
    | nil => intro _; rfl
    | cons x r ih =>
      intro hm
      have hr := (ih fun y hy => hm y (List.mem_cons_of_mem _ hy)).count_eq
      obtain ⟨s₁, s₂, ha, -⟩ := b.piece_assembled (hm x List.mem_cons_self)
      have hx := (Frame.labels_block_perm x.2.1 (settle x.2.2)).count_eq
      rw [labels_settle ha.label_eq_none] at hx
      rw [List.perm_iff_count]
      intro l
      have hr := hr l
      have hx := hx l
      simp only [List.map_cons, List.flatMap_cons, labels_append, marks_append, List.count_append,
        Frame.assemble] at hr hx ⊢
      omega
  have hf := hp b.pieces fun x hx => hx
  rw [b.frames_eq] at hf
  rw [b.blocks_eq]
  exact hf

/-- The labels of the whole program. -/
theorem labels_perm : (labels p.instructions).Perm (b.namedLabels ++ b.numberedLabels) := by
  have hr := b.labels_routines_perm.count_eq
  rw [List.perm_iff_count]
  intro l
  have hr := hr l
  have hi : labels p.instructions = labels p.data.code ++
      (labels (p.strings.toList.flatMap Block.code) ++
        (labels (p.routines.flatMap Block.code) ++ labels p.topLevel.code)) := by
    simp [Program.instructions, Program.blocks]
  rw [hi, b.labels_data, b.labels_strings, b.labels_top]
  simp only [namedLabels, numberedLabels, marks_append, List.count_append, List.count_cons] at hr ⊢
  omega

theorem nodup_namedLabels : b.namedLabels.Nodup := by
  have hg : (b.layout.globals.names.map Label.plain).Nodup :=
    b.layout.globals.nodup_names.map fun a c h => by simpa using h
  have hnames : (b.layout.frames.map Frame.routine).Nodup := by
    have hf := b.framed.nodup
    rwa [← b.routine_names_eq] at hf
  have hframes : ∀ f ∈ b.layout.frames, f.routine ≠ Label.entry ∧
      f.routine ∉ b.layout.globals.names :=
    b.routine_fresh
  have ho : (b.layout.frames.flatMap Frame.ownLabels).Nodup := by
    refine List.nodup_flatMap.2 ⟨fun f _ => f.nodup_ownLabels, ?_⟩
    refine (List.pairwise_map.1 hnames).imp fun {f g} hfg l hf hl => hfg ?_
    rw [← Frame.base_of_mem_ownLabels hf, ← Frame.base_of_mem_ownLabels hl]
  have he : Label.plain Label.entry ∉ b.layout.frames.flatMap Frame.ownLabels := by
    intro hm
    obtain ⟨f, hf, hl⟩ := List.mem_flatMap.1 hm
    exact (hframes f hf).1 (Frame.base_of_mem_ownLabels hl).symm
  refine List.nodup_append.2 ⟨hg, List.nodup_cons.2 ⟨he, ho⟩, ?_⟩
  intro l hl m hm hlm
  subst hlm
  obtain ⟨g, hg, rfl⟩ := List.mem_map.1 hl
  rcases List.mem_cons.1 hm with hm | hm
  · obtain rfl : g = Label.entry := by simpa using hm
    exact b.entry_not_global hg
  · obtain ⟨f, hf, hl⟩ := List.mem_flatMap.1 hm
    exact (hframes f hf).2 (Frame.base_of_mem_ownLabels hl ▸ hg)

theorem generated_of_mem_numberedLabels : ∀ l ∈ b.numberedLabels,
    ∃ stem ∈ "str" :: Label.branchStems, ∃ n, l = .generated stem n := by
  intro l hl
  rcases List.mem_append.1 hl with hl | hl
  · obtain ⟨e, -, rfl⟩ := List.mem_map.1 hl
    exact ⟨"str", List.mem_cons_self, e.2, rfl⟩
  · obtain ⟨stem, hs, n, rfl⟩ := b.isBranch_of_mem_marks l hl
    exact ⟨stem, List.mem_cons_of_mem _ hs, n, rfl⟩

theorem filterMap_number?_numberedLabels : b.numberedLabels.filterMap Label.number? =
    b.final.strings.entries.map Prod.snd ++ numbers (b.top ++ b.pieces.flatMap fun x => x.2.2) := by
  rw [numberedLabels, List.filterMap_append, List.filterMap_map, numbers]
  congr 1
  induction b.final.strings.entries with
  | nil => rfl
  | cons e r ih => rw [List.filterMap_cons, List.map_cons, ih]; rfl

/-- Every number from the seed up to the last one is that of one label. -/
theorem count_number?_numberedLabels (k : Nat) :
    (b.numberedLabels.filterMap Label.number?).count k =
      if seed ≤ k ∧ k < b.final.next then 1 else 0 := by
  obtain ⟨new, he, hc⟩ := b.spends.count_eq
  have hn : b.final.strings.entries = new := he
  rw [b.filterMap_number?_numberedLabels, List.count_append, hn, Nat.add_comm, hc k]
  rfl

theorem nodup_map_number?_numberedLabels : (b.numberedLabels.map Label.number?).Nodup := by
  refine nodup_map_number? (fun l hl => ?_) ?_
  · obtain ⟨stem, -, n, rfl⟩ := b.generated_of_mem_numberedLabels l hl
    exact ⟨stem, n, rfl⟩
  · rw [List.nodup_iff_count_le_one]
    intro k
    rw [b.count_number?_numberedLabels]
    split <;> omega

theorem nodup_numberedLabels : b.numberedLabels.Nodup := b.nodup_map_number?_numberedLabels.of_map

theorem proper_of_mem_ownLabels (hn : s.Named) {x : Routine × Frame × List Item} (hx : x ∈ b.pieces)
    {l : Label} (hl : l ∈ x.2.1.ownLabels) : l.Proper := by
  obtain ⟨hr, hm, hlocals⟩ := b.routine_eq_of_mem hx
  have hroutine : isIdentifier x.2.1.routine = true := hr ▸ hn.routines x.1 hm
  simp only [Frame.ownLabels, List.mem_cons, List.mem_map] at hl
  rcases hl with rfl | rfl | rfl | ⟨n, hs, rfl⟩
  · exact hroutine
  · exact hroutine
  · exact hroutine
  · refine ⟨hroutine, ?_⟩
    rw [hlocals, Scope.mem_names_localsOf] at hs
    rcases hs with hs | ⟨hs, -⟩
    · obtain ⟨q, hq, rfl⟩ := List.mem_map.1 hs
      exact hn.params x.1 hm q hq
    · obtain ⟨q, hq, rfl⟩ := List.mem_map.1 hs
      exact hn.locals x.1 hm q hq

theorem proper_of_mem_namedLabels (hn : s.Named) : ∀ l ∈ b.namedLabels, l.Proper := by
  intro l hl
  rcases List.mem_append.1 hl with hl | hl
  · obtain ⟨g, hg, rfl⟩ := List.mem_map.1 hl
    rw [b.globals_eq, Scope.mem_names_globals] at hg
    obtain ⟨q, hq, rfl⟩ := List.mem_map.1 hg
    exact hn.globals q hq
  · rcases List.mem_cons.1 hl with rfl | hl
    · show isIdentifier Label.entry = true
      decide
    · obtain ⟨f, hf, hl⟩ := List.mem_flatMap.1 hl
      rw [← b.frames_eq] at hf
      obtain ⟨x, hx, rfl⟩ := List.mem_map.1 hf
      exact b.proper_of_mem_ownLabels hn hx hl

theorem proper_of_mem_numberedLabels : ∀ l ∈ b.numberedLabels, l.Proper := by
  intro l hl
  obtain ⟨stem, hs, n, rfl⟩ := b.generated_of_mem_numberedLabels l hl
  have hd : ∀ stem ∈ "str" :: Label.branchStems, isIdentifier stem = true := by decide
  exact hd stem hs

theorem nodup_labels (b : Build s source seed p) : (labels p.instructions).Nodup := by
  refine b.labels_perm.nodup_iff.2
    (List.nodup_append.2 ⟨b.nodup_namedLabels, b.nodup_numberedLabels, ?_⟩)
  intro l hl m hm hlm
  subst hlm
  obtain ⟨stem, -, n, rfl⟩ := b.generated_of_mem_numberedLabels l hm
  rcases List.mem_append.1 hl with hl | hl
  · simp at hl
  · simp [Frame.ownLabels] at hl

theorem proper_of_mem_labels (b : Build s source seed p) (hn : s.Named) :
    ∀ l ∈ labels p.instructions, l.Proper := by
  intro l hl
  rcases List.mem_append.1 (b.labels_perm.mem_iff.1 hl) with hl | hl
  · exact b.proper_of_mem_namedLabels hn l hl
  · exact b.proper_of_mem_numberedLabels l hl

theorem nodup_label_texts (b : Build s source seed p) (hn : s.Named) :
    ((labels p.instructions).map Label.text).Nodup := by
  refine b.nodup_labels.map_on fun l hl m hm h => ?_
  exact Label.text_injective (b.proper_of_mem_labels hn l hl) (b.proper_of_mem_labels hn m hm) h

end Build

namespace Script

/-- In a compiled program no two instructions have labels of the same text, whatever the labels
stand for and wherever the numbering starts. -/
theorem label_texts_distinct {s : Script} (hn : s.Named) {source : String} {seed : Nat}
    {p : Program} (h : (s.compileFrom source seed).result = .ok p) :
    ((labels p.instructions).map Label.text).Nodup := by
  obtain ⟨b⟩ := Build.nonempty h
  exact b.nodup_label_texts hn

/-- A routine and variables that are named like the stems of generated labels. -/
def stemNames : Script where
  body :=
    [.define 1 "else" [⟨"str", none⟩, ⟨"endif", some "int"⟩]
      [.whileLoop 2 (.name "str")
        [.ifElse 3 (.name "endif") [.assign 4 [.name "while"] (.literal (.str "a"))] [.pass 5]],
        .ret 6 (some (.name "str"))],
      .assign 7 [.name "endwhile"] (.call "else" [.literal (.int 1), .literal (.int 2)]),
      .ifElse 8 (.name "endwhile") [.eval 9 (.call "print" [.literal (.str "b")])] []]

theorem stemNames_compiles : ∃ p, (stemNames.compileFrom "stems" 7).result = .ok p :=
  exists_eq_ok (by decide)

theorem stemNames_label_texts_distinct : stemNames.Named ∧
    ∃ p, (stemNames.compileFrom "stems" 7).result = .ok p ∧
      ((labels p.instructions).map Label.text).Nodup := by
  have hn : stemNames.Named := ⟨by decide, by decide, by decide, by decide⟩
  obtain ⟨p, h⟩ := stemNames_compiles
  exact ⟨hn, p, h, label_texts_distinct hn h⟩

end Script
end TreeAsm

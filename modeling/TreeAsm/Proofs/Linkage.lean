import TreeAsm.Proofs.ByteStrings
import TreeAsm.Proofs.References

/-! Everything that a compiled program refers to is there: branches stay in their block and no label
is branched to twice, calls reach routines, and operands name cells, slots and constants that are
declared. -/
namespace TreeAsm
open Code

/-- The block of string constants declares the text, under a label of theirs. -/
def Program.Declares (p : Program) (l : Label) (text : String) : Prop :=
  ∃ n, l = .generated "str" n ∧ ∃ b ∈ p.strings, ∃ i ∈ b.code, i.DeclaresText l text

/-- References of a program that was made from a script, with label numbers from `seed` up to
`next`. -/
structure Program.Linked (s : Script) (seed next : Nat) (p : Program) : Prop where
  /-- Branches go to labels of the same block. -/
  branch : ∀ b ∈ p.blocks, ∀ i ∈ b.code, i.opcode.isBranch = true →
    ∃ l ∈ labels b.code, i.target? = some l
  /-- Every number that was drawn labels an instruction. -/
  drawn : ∀ n, seed ≤ n → n < next →
    ∃ stem ∈ "str" :: Label.branchStems, .generated stem n ∈ labels p.instructions
  /-- A label of a branch is the target of exactly one branch of the whole program. -/
  once : ∀ l ∈ labels p.instructions, l.IsBranch →
    ((p.listing.filterMap Instruction.branch?).map Label.text).count l.text = 1
  /-- Calls go to the entries of routines. -/
  call : ∀ i ∈ p.instructions, i.opcode = .call →
    ∃ l, i.target? = some l ∧ ∃ b ∈ p.routines, ∃ e ∈ b.code, e.opcode = .enter ∧ e.label = some l
  /-- Static operands are globals with their declarations, or the cells of routines for their
  results. -/
  static : ∀ i ∈ p.instructions, ∀ l, i.operand = some (.mem (.static l)) →
    (∃ d ∈ p.data.code, d.label = some l) ∨
      ∃ r ∈ s.routines, l = .result r.name ∧
        ∃ b ∈ p.routines, ∃ d ∈ b.code, d.opcode = .word ∧ d.label = some l
  /-- A frame operand is in the block of a routine that has an equate for its symbol; the equate has
  the same offset, and the frame is large enough. Where all names are identifiers, no other routine
  has a label with the text of this symbol. -/
  frame : ∀ b ∈ p.blocks, ∀ i ∈ b.code, ∀ l k, i.operand = some (.mem (.frame l k)) →
    b ∈ p.routines ∧
    (∃ d ∈ b.code, d.opcode = .equate ∧ d.label = some l ∧
      d.operand = some (.raw (toString k))) ∧
    (∃ e ∈ b.code, e.opcode = .enter ∧ ∃ size : Nat, e.operand = some (.imm size) ∧ k < size) ∧
    (s.Named → ∀ c ∈ p.routines, ∀ m ∈ labels c.code, m.text = l.text → c = b)
  /-- Outside the bodies no address is used. -/
  data_addresses : addresses p.data.code = [] ∧ addresses (p.strings.toList.flatMap Block.code) = []
  /-- The addresses that the top level pushes are those of its string literals, one by one. -/
  top_addresses : List.Forall₂ p.Declares (addresses p.topLevel.code) (Stmt.textsAll s.topLevel)
  /-- So are those of each routine. -/
  routine_addresses :
    List.Forall₂ (fun b r => List.Forall₂ p.Declares (addresses b.code) (Stmt.textsAll r.body))
      p.routines s.routines

namespace Layout

variable {l : Layout}

theorem mem_globals_of_staticCell? {globals : Scope} {name : String} {loc : Location}
    (h : globals.staticCell? name = some loc) :
    name ∈ globals.names ∧ loc = .static (.plain name) := by
  unfold Scope.staticCell? at h
  split at h
  next hc => exact ⟨Scope.contains_iff.1 hc, (Option.some.inj h).symm⟩
  next => simp at h

/-- The top level reaches globals and the results of routines. -/
theorem topEnv_reaches {loc : Location} (h : l.topEnv.Reaches loc) :
    (∃ g ∈ l.globals.names, loc = .static (.plain g)) ∨ ∃ f ∈ l.frames, loc = f.resultCell := by
  rcases h with ⟨name, h⟩ | ⟨name, f, hf, rfl⟩ | ⟨exit, h⟩
  · obtain ⟨hg, rfl⟩ := mem_globals_of_staticCell? h
    exact .inl ⟨name, hg, rfl⟩
  · exact .inr ⟨f, (Frame.mem_of_lookup hf).1, rfl⟩
  · simp [topEnv] at h

/-- A routine reaches its own slots besides, and its own result. -/
theorem routineEnv_reaches {f : Frame} (hf : f ∈ l.frames) {loc : Location}
    (h : (l.routineEnv f).Reaches loc) :
    (∃ name k, f.slot? name = some k ∧ loc = .frame (.slot f.routine name) k) ∨
      (∃ g ∈ l.globals.names, loc = .static (.plain g)) ∨ ∃ g ∈ l.frames, loc = g.resultCell := by
  rcases h with ⟨name, h⟩ | ⟨name, g, hg, rfl⟩ | ⟨exit, h⟩
  · rcases Option.or_eq_some_iff.1 h with h | ⟨-, h⟩
    · obtain ⟨k, hk, rfl⟩ := Frame.resolve?_eq_some h
      exact .inl ⟨name, k, hk, rfl⟩
    · obtain ⟨hg, rfl⟩ := mem_globals_of_staticCell? h
      exact .inr (.inl ⟨name, hg, rfl⟩)
  · exact .inr (.inr ⟨g, (Frame.mem_of_lookup hg).1, rfl⟩)
  · obtain ⟨rfl, -⟩ := Prod.mk.inj (Option.some.inj h)
    exact .inr (.inr ⟨f, hf, rfl⟩)

end Layout

namespace Build

variable {s : Script} {source : String} {seed : Nat} {p : Program} (b : Build s source seed p)

theorem mem_data (b : Build s source seed p) {i : Instruction} (h : i ∈ p.data.code) :
    (i.opcode = .word ∨ i.opcode = .real ∨ i.opcode = .address) ∧
      ∃ t, i.operand = some (.raw t) := by
  rw [b.data_eq] at h
  obtain ⟨v, -, rfl⟩ := List.mem_map.1 h
  refine ⟨?_, v.kind.zero.2, rfl⟩
  simp only [Scope.staticData, Instruction.commented, Instruction.labelled, Instruction.on]
  cases v.kind <;> simp [VarKind.zero]

theorem mem_strings (b : Build s source seed p) {i : Instruction}
    (h : i ∈ p.strings.toList.flatMap Block.code) :
    i.opcode = .ascii ∧ ∃ t, i.operand = some (.raw t) := by
  rw [b.strings_eq, Script.flatMap_stringBlock] at h
  obtain ⟨e, -, rfl⟩ := List.mem_map.1 h
  exact ⟨rfl, _, rfl⟩

theorem mem_topLevel {i : Instruction} (h : i ∈ p.topLevel.code) :
    (i.opcode = .nop ∨ i.opcode = .stop) ∧ i.operand = none ∨
      ∃ j ∈ settle b.top, i.opcode = j.opcode ∧ i.operand = j.operand := by
  rw [b.topLevel_eq] at h
  rcases mem_withLabel h with ⟨l, rfl⟩ | ⟨j, hj, ho, ht⟩
  · exact .inl ⟨.inl rfl, rfl⟩
  · rcases List.mem_append.1 hj with hj | hj
    · exact .inr ⟨j, hj, ho, ht⟩
    · obtain rfl := List.mem_singleton.1 hj
      exact .inl ⟨.inr ho, ht⟩

/-- Where an instruction can stand, and what it is there. -/
theorem instruction_cases {c : Block} (hc : c ∈ p.blocks) {i : Instruction} (hi : i ∈ c.code) :
    (i.opcode.isBranch = false ∧ i.opcode ≠ .call ∧ ∀ loc, i.operand ≠ some (.mem loc)) ∨
      (∃ x ∈ b.pieces, c = x.2.1.assemble x.2.2) ∨
      c = p.topLevel ∧ ∃ j ∈ settle b.top, i.opcode = j.opcode ∧ i.operand = j.operand := by
  simp only [Program.blocks, List.cons_append, List.mem_cons, List.mem_append, List.not_mem_nil,
    or_false] at hc
  rcases hc with rfl | (hc | hc) | rfl
  · obtain ⟨ho, t, ht⟩ := b.mem_data hi
    refine .inl ?_
    rcases ho with ho | ho | ho <;> simp [ho, ht, Opcode.isBranch]
  · obtain ⟨ho, t, ht⟩ := b.mem_strings (List.mem_flatMap.2 ⟨c, hc, hi⟩)
    exact .inl (by simp [ho, ht, Opcode.isBranch])
  · rw [b.blocks_eq] at hc
    obtain ⟨x, hx, rfl⟩ := List.mem_map.1 hc
    exact .inr (.inl ⟨x, hx, rfl⟩)
  · rcases b.mem_topLevel hi with ⟨ho, ht⟩ | hj
    · refine .inl ?_
      rcases ho with ho | ho <;> simp [ho, ht, Opcode.isBranch]
    · exact .inr (.inr ⟨rfl, hj⟩)

/-- The labels of a routine's block. -/
theorem mem_labels_piece {x : Routine × Frame × List Item} (hx : x ∈ b.pieces) {l : Label} :
    l ∈ labels (x.2.1.assemble x.2.2).code ↔ l ∈ x.2.1.ownLabels ∨ l ∈ marks x.2.2 := by
  obtain ⟨s₁, s₂, ha, -⟩ := b.piece_assembled hx
  rw [Frame.assemble, (Frame.labels_block_perm _ _).mem_iff, List.mem_append,
    labels_settle ha.label_eq_none]

/-- Branches stay in their block. -/
theorem branch_mem_labels (b : Build s source seed p) {c : Block} (hc : c ∈ p.blocks)
    {i : Instruction} (hi : i ∈ c.code) (hb : i.opcode.isBranch = true) :
    ∃ l ∈ labels c.code, i.target? = some l := by
  rcases b.instruction_cases hc hi with ⟨h, -⟩ | ⟨x, hx, rfl⟩ | ⟨rfl, j, hj, ho, ht⟩
  · simp [h] at hb
  · rcases Frame.mem_assemble hi with hi | hi
    · obtain ⟨s₁, s₂, ha, -⟩ := b.piece_assembled hx
      obtain ⟨l, hl, hm⟩ := ha.settled_branch hi hb
      refine ⟨l, (b.mem_labels_piece hx).2 ?_, hl⟩
      rcases hm with hm | ⟨cell, hr⟩
      · exact .inr hm
      · obtain ⟨-, rfl⟩ := Prod.mk.inj (Option.some.inj hr)
        exact .inl (by simp [Frame.ownLabels, Frame.exitLabel])
    · simp [(Frame.around_cases hi).1] at hb
  · obtain ⟨l, hl, hm⟩ := b.topBody_assembled.settled_branch hj (ho ▸ hb)
    have he : i.target? = j.target? := by simp [Instruction.target?, ht]
    refine ⟨l, ?_, he.trans hl⟩
    rw [b.labels_top]
    rcases hm with hm | ⟨cell, hr⟩
    · exact List.mem_cons_of_mem _ hm
    · simp [Layout.topEnv] at hr

/-- A frame of the storage has its block, which is entered under the name of the routine. -/
theorem exists_enter {f : Frame} (hf : f ∈ b.layout.frames) : ∃ c ∈ p.routines, ∃ e ∈ c.code,
    e.opcode = .enter ∧ e.label = some (.plain f.routine) := by
  rw [← b.frames_eq] at hf
  obtain ⟨x, hx, rfl⟩ := List.mem_map.1 hf
  refine ⟨_, b.blocks_eq ▸ List.mem_map_of_mem hx, ?_⟩
  exact ⟨_, List.mem_append_left
    _ (List.mem_append_left _ (List.mem_append_right _ List.mem_cons_self)), rfl, rfl⟩

theorem exists_resultCell {f : Frame} (hf : f ∈ b.layout.frames) :
    ∃ r ∈ s.routines, f.routine = r.name ∧
    ∃ c ∈ p.routines, ∃ d ∈ c.code, d.opcode = .word ∧ d.label = some (.result r.name) := by
  rw [← b.frames_eq] at hf
  obtain ⟨x, hx, rfl⟩ := List.mem_map.1 hf
  obtain ⟨hn, hr, -⟩ := b.routine_eq_of_mem hx
  refine ⟨x.1, hr, hn, _, b.blocks_eq ▸ List.mem_map_of_mem hx, ?_⟩
  refine ⟨_, List.mem_append_left
    _ (List.mem_append_left _ (List.mem_append_left _ List.mem_cons_self)), rfl, ?_⟩
  exact hn ▸ rfl

theorem mem_instructions {i : Instruction} (h : i ∈ p.instructions) : ∃ c ∈ p.blocks, i ∈ c.code :=
  List.mem_flatMap.1 h

/-- Calls reach routines. -/
theorem call_enters (b : Build s source seed p) {i : Instruction} (hi : i ∈ p.instructions)
    (ho : i.opcode = .call) : ∃ l, i.target? = some l ∧
      ∃ c ∈ p.routines, ∃ e ∈ c.code, e.opcode = .enter ∧ e.label = some l := by
  obtain ⟨c, hc, hi⟩ := mem_instructions hi
  have hcall : ∃ name f, Frame.lookup b.layout.frames name = some f ∧
      i.target? = some (.plain f.routine) := by
    rcases b.instruction_cases hc hi with ⟨-, h, -⟩ | ⟨x, hx, rfl⟩ | ⟨rfl, j, hj, hjo, ht⟩
    · exact absurd ho h
    · rcases Frame.mem_assemble hi with hi | hi
      · obtain ⟨s₁, s₂, ha, -⟩ := b.piece_assembled hx
        exact ha.settled_call hi ho
      · exact absurd ho (Frame.around_cases hi).2.1
    · have he : i.target? = j.target? := by simp [Instruction.target?, ht]
      rw [he]
      exact b.topBody_assembled.settled_call hj (hjo ▸ ho)
  obtain ⟨name, f, hf, ht⟩ := hcall
  exact ⟨_, ht, b.exists_enter (Frame.mem_of_lookup hf).1⟩

/-- The memory that instructions use: slots in the blocks of their routines, globals, and cells for
results. -/
theorem mem_cases {c : Block} (hc : c ∈ p.blocks) {i : Instruction} (hi : i ∈ c.code)
    {loc : Location} (hl : i.operand = some (.mem loc)) :
    (∃ x ∈ b.pieces, c = x.2.1.assemble x.2.2 ∧
      ∃ name k, x.2.1.slot? name = some k ∧ loc = .frame (.slot x.2.1.routine name) k) ∨
      (∃ g ∈ b.layout.globals.names, loc = .static (.plain g)) ∨
      ∃ f ∈ b.layout.frames, loc = f.resultCell := by
  rcases b.instruction_cases hc hi with ⟨-, -, h⟩ | ⟨x, hx, rfl⟩ | ⟨rfl, j, hj, -, ht⟩
  · exact absurd hl (h loc)
  · rcases Frame.mem_assemble hi with hi | hi
    · obtain ⟨s₁, s₂, ha, -⟩ := b.piece_assembled hx
      have hf : x.2.1 ∈ b.layout.frames := b.frames_eq ▸ List.mem_map_of_mem hx
      rcases Layout.routineEnv_reaches hf (ha.settled_mem hi hl) with h | h
      · exact .inl ⟨x, hx, rfl, h⟩
      · exact .inr h
    · exact .inl ⟨x, hx, rfl, (Frame.around_cases hi).2.2.2 loc hl⟩
  · exact .inr (Layout.topEnv_reaches (b.topBody_assembled.settled_mem hj (ht ▸ hl)))

theorem static_declared (b : Build s source seed p) {i : Instruction} (hi : i ∈ p.instructions)
    {l : Label} (ho : i.operand = some (.mem (.static l))) :
    (∃ d ∈ p.data.code, d.label = some l) ∨
      ∃ r ∈ s.routines, l = .result r.name ∧
        ∃ c ∈ p.routines, ∃ d ∈ c.code, d.opcode = .word ∧ d.label = some l := by
  obtain ⟨c, hc, hi⟩ := mem_instructions hi
  rcases b.mem_cases hc hi ho with ⟨x, -, -, name, k, -, h⟩ | ⟨g, hg, h⟩ | ⟨f, hf, h⟩
  · simp at h
  · obtain rfl := Location.static.inj h
    have hm : Label.plain g ∈ labels p.data.code := b.labels_data ▸ List.mem_map_of_mem hg
    exact .inl (List.mem_filterMap.1 hm)
  · obtain rfl := Location.static.inj h
    obtain ⟨r, hr, hn, hd⟩ := b.exists_resultCell hf
    exact .inr ⟨r, hr, by rw [hn], hn ▸ hd⟩

theorem eq_of_routine_eq {x y : Routine × Frame × List Item} (hx : x ∈ b.pieces) (hy : y ∈ b.pieces)
    (h : x.2.1.routine = y.2.1.routine) : x = y := by
  have hn : (b.pieces.map fun x => x.2.1.routine).Nodup := by
    have hf := b.framed.nodup
    rwa [← b.routine_names_eq, ← b.frames_eq, List.map_map] at hf
  exact List.inj_on_of_nodup_map hn hx hy h

/-- The symbol of a slot is a label in the block of its routine only. -/
theorem eq_assemble_of_slot_mem_labels {x : Routine × Frame × List Item} (hx : x ∈ b.pieces)
    {name : String} {d : Block} (hd : d ∈ p.routines)
    (hl : .slot x.2.1.routine name ∈ labels d.code) : d = x.2.1.assemble x.2.2 := by
  rw [b.blocks_eq] at hd
  obtain ⟨y, hy, rfl⟩ := List.mem_map.1 hd
  rcases (b.mem_labels_piece hy).1 hl with hl | hl
  · rw [b.eq_of_routine_eq hx hy (Frame.base_of_mem_ownLabels hl)]
  · obtain ⟨s₁, s₂, ha, -⟩ := b.piece_assembled hy
    obtain ⟨stem, -, n, h⟩ := ha.isBranch_of_mem_marks _ hl
    simp at h

theorem mem_labels_instructions {c : Block} (hc : c ∈ p.routines) {l : Label}
    (hl : l ∈ labels c.code) : l ∈ labels p.instructions := by
  have hblock : c ∈ p.blocks := by simp [Program.blocks, hc]
  rw [Program.instructions, labels, List.filterMap_flatMap]
  exact List.mem_flatMap.2 ⟨c, hblock, hl⟩

/-- Slots are used where they are defined. -/
theorem frame_declared (b : Build s source seed p) {c : Block} (hc : c ∈ p.blocks) {i : Instruction}
    (hi : i ∈ c.code) {l : Label} {k : Nat} (ho : i.operand = some (.mem (.frame l k))) :
    c ∈ p.routines ∧
    (∃ d ∈ c.code, d.opcode = .equate ∧ d.label = some l ∧
      d.operand = some (.raw (toString k))) ∧
    (∃ e ∈ c.code, e.opcode = .enter ∧ ∃ size : Nat, e.operand = some (.imm size) ∧ k < size) ∧
    (s.Named → ∀ d ∈ p.routines, ∀ m ∈ labels d.code, m.text = l.text → d = c) := by
  rcases b.mem_cases hc hi ho with ⟨x, hx, rfl, name, k, hk, h⟩ | ⟨g, -, h⟩ | ⟨f, -, h⟩
  · obtain ⟨rfl, rfl⟩ := Location.frame.inj h
    have hroutine : x.2.1.assemble x.2.2 ∈ p.routines := b.blocks_eq ▸ List.mem_map_of_mem hx
    obtain ⟨d, hd, hlabel, hopcode, hoperand⟩ := Frame.exists_equate hk
    have hcode : d ∈ (x.2.1.assemble x.2.2).code :=
      List.mem_append_left _ (List.mem_append_left _ (List.mem_append_left _ hd))
    refine ⟨hroutine, ⟨d, hcode, hopcode, hlabel, hoperand⟩, ?_, ?_⟩
    · refine ⟨_, List.mem_append_left _ (List.mem_append_left _
        (List.mem_append_right _ List.mem_cons_self)), rfl, x.2.1.size, rfl, Frame.slot?_lt hk⟩
    · intro hn c hc m hm htext
      have hslot : .slot x.2.1.routine name ∈ labels (x.2.1.assemble x.2.2).code :=
        List.mem_filterMap.2 ⟨d, hcode, hlabel⟩
      have hproper := b.proper_of_mem_labels hn
      obtain rfl := Label.text_injective (hproper m (mem_labels_instructions hc hm))
        (hproper _ (mem_labels_instructions hroutine hslot)) htext
      exact b.eq_assemble_of_slot_mem_labels hx hc hm
  · simp at h
  · simp [Frame.resultCell] at h

/-- All branches of the program. -/
theorem branches_eq : p.listing.filterMap Instruction.branch? =
    .plain Label.entry :: (targets (b.pieces.flatMap fun x => x.2.2) ++ targets b.top) := by
  have hd : p.data.code.filterMap Instruction.branch? = [] := by
    refine List.filterMap_eq_nil_iff.2 fun i hi => ?_
    obtain ⟨ho | ho | ho, -⟩ := b.mem_data hi <;> simp [Instruction.branch?, Opcode.isBranch, ho]
  have hs : (p.strings.toList.flatMap Block.code).filterMap Instruction.branch? = [] := by
    refine List.filterMap_eq_nil_iff.2 fun i hi => ?_
    simp [Instruction.branch?, Opcode.isBranch, (b.mem_strings hi).1]
  have ht : p.topLevel.code.filterMap Instruction.branch? = targets b.top := by
    rw [b.topLevel_eq, Code.topLevelBlock, filterMap_withLabel (fun _ _ => rfl) rfl,
      List.filterMap_append, Lowering.Assembled.filterMap_branch?_settle]
    simp [Instruction.branch?, Instruction.bare, Opcode.isBranch]
  have hr : (p.routines.flatMap Block.code).filterMap Instruction.branch? =
      targets (b.pieces.flatMap fun x => x.2.2) := by
    rw [b.blocks_eq]
    induction b.pieces with
    | nil => rfl
    | cons x r ih =>
      have hx : (x.2.1.assemble x.2.2).code.filterMap Instruction.branch? = targets x.2.2 := by
        rw [← Lowering.Assembled.filterMap_branch?_settle]
        exact Frame.filterMap_assemble (fun i hb _ => by simp [Instruction.branch?, hb]) _ _
      simp [List.filterMap_append, hx, ih]
  have hp : p.instructions = p.data.code ++ (p.strings.toList.flatMap Block.code ++
      (p.routines.flatMap Block.code ++ p.topLevel.code)) := by
    simp [Program.instructions, Program.blocks]
  rw [Program.listing, hp]
  simp only [List.filterMap_cons, List.filterMap_append, hd, hs, ht, hr, List.nil_append]
  simp [Instruction.branch?, Instruction.bare, Instruction.on, Opcode.isBranch, Instruction.target?]

theorem count_targets_pieces {l : Label} (hl : ∀ routine, l ≠ .exit routine) :
    (targets (b.pieces.flatMap fun x => x.2.2)).count l =
      (marks (b.pieces.flatMap fun x => x.2.2)).count l := by
  have hp : ∀ ps : List (Routine × Frame × List Item), (∀ x ∈ ps, x ∈ b.pieces) →
      (targets (ps.flatMap fun x => x.2.2)).count l =
        (marks (ps.flatMap fun x => x.2.2)).count l := by
    intro ps
    induction ps with
    | nil => intro _; rfl
    | cons x r ih =>
      intro hm
      obtain ⟨s₁, s₂, ha, -⟩ := b.piece_assembled (hm x List.mem_cons_self)
      have hx : (targets x.2.2).count l = (marks x.2.2).count l := by
        refine ha.count_targets fun cell exit he => ?_
        obtain ⟨-, rfl⟩ := Prod.mk.inj (Option.some.inj he)
        exact hl _
      simp [hx, ih fun y hy => hm y (List.mem_cons_of_mem _ hy)]
  exact hp b.pieces fun x hx => hx

/-- The labels of branches are marks of bodies. -/
theorem mem_marks_of_isBranch {l : Label} (h : l ∈ labels p.instructions) (hl : l.IsBranch) :
    l ∈ marks (b.top ++ b.pieces.flatMap fun x => x.2.2) := by
  obtain ⟨stem, hs, n, rfl⟩ := hl
  rcases List.mem_append.1 (b.labels_perm.mem_iff.1 h) with h | h
  · simp [namedLabels, Frame.ownLabels] at h
  · rcases List.mem_append.1 h with h | h
    · obtain ⟨e, -, he⟩ := List.mem_map.1 h
      obtain ⟨rfl, -⟩ := Label.generated.inj he
      simp [Label.branchStems] at hs
    · exact h

/-- What has the text of a label of a branch is that label. Branches to the entry and to ends of
routines are out because of their texts. -/
theorem eq_of_mem_branches (b : Build s source seed p) {l m : Label} (hl : l.IsBranch)
    (hm : m ∈ p.listing.filterMap Instruction.branch?)
    (h : m.text = l.text) : m = l := by
  have hstems : ∀ stem ∈ Label.branchStems, isIdentifier stem = true := by decide
  obtain ⟨stem, hs, n, rfl⟩ := hl
  have hne := Label.text_generated_ne stem n
  have hmark : m ∈ marks (b.top ++ b.pieces.flatMap fun x => x.2.2) := by
    rw [b.branches_eq, List.mem_cons, List.mem_append] at hm
    rw [marks_append]
    rcases hm with rfl | hm | hm
    · exact absurd h.symm hne.1
    · by_cases he : ∀ routine, m ≠ .exit routine
      · have hc := b.count_targets_pieces he
        exact List.mem_append_right _ (List.count_pos_iff.1 (hc ▸ List.count_pos_iff.2 hm))
      · simp only [not_forall, not_not] at he
        obtain ⟨routine, rfl⟩ := he
        exact absurd h.symm (hne.2 routine)
    · rcases b.topBody_assembled.mem_marks_of_mem_targets hm with hm | ⟨cell, hr⟩
      · exact List.mem_append_left _ hm
      · simp [Layout.topEnv] at hr
  obtain ⟨stem', hs', n', rfl⟩ := b.isBranch_of_mem_marks m hmark
  exact Label.text_injective (hstems stem' hs') (hstems stem hs) h

theorem count_branches (b : Build s source seed p) {l : Label} (h : l ∈ labels p.instructions)
    (hl : l.IsBranch) :
    ((p.listing.filterMap Instruction.branch?).map Label.text).count l.text = 1 := by
  have htext : ((p.listing.filterMap Instruction.branch?).map Label.text).count l.text =
      (p.listing.filterMap Instruction.branch?).count l := by
    rw [List.count, List.count, List.countP_map]
    refine List.countP_congr fun m hm => ?_
    simp only [Function.comp_apply, beq_iff_eq]
    exact ⟨b.eq_of_mem_branches hl hm, fun h => h ▸ rfl⟩
  obtain ⟨stem, hs, n, rfl⟩ := hl
  have htop : (targets b.top).count (.generated stem n) = (marks b.top).count (.generated stem n) :=
    b.topBody_assembled.count_targets fun cell exit he => by simp [Layout.topEnv] at he
  have hone : (marks (b.top ++ b.pieces.flatMap fun x => x.2.2)).count (.generated stem n) = 1 :=
    List.count_eq_one_of_mem (List.nodup_append.1 b.nodup_numberedLabels).2.1
      (b.mem_marks_of_isBranch h ⟨stem, hs, n, rfl⟩)
  rw [htext, b.branches_eq, List.count_cons_of_ne (by simp), List.count_append,
    b.count_targets_pieces (by simp), htop]
  rw [marks_append, List.count_append] at hone
  omega

/-- No number is drawn in vain. -/
theorem drawn_mem_labels (b : Build s source seed p) {n : Nat} (hs : seed ≤ n)
    (hn : n < (s.compileFrom source seed).next) :
    ∃ stem ∈ "str" :: Label.branchStems, .generated stem n ∈ labels p.instructions := by
  obtain ⟨new, he, hc⟩ := b.spends.count_eq
  have hk := hc n
  have hnew : b.final.strings.entries = new := he
  rw [if_pos ⟨hs, b.next_eq ▸ hn⟩] at hk
  have hm : n ∈ b.numberedLabels.filterMap Label.number? := by
    rw [b.filterMap_number?_numberedLabels, ← List.count_pos_iff, List.count_append, hnew]
    omega
  obtain ⟨l, hl, hnum⟩ := List.mem_filterMap.1 hm
  obtain ⟨stem, hstem, k, rfl⟩ := b.generated_of_mem_numberedLabels l hl
  obtain rfl : k = n := by simpa [Label.number?] using hnum
  exact ⟨stem, hstem, b.labels_perm.mem_iff.2 (List.mem_append_right _ hl)⟩

theorem declares_of_mem_entries {text : String} {n : Nat}
    (h : (text, n) ∈ b.final.strings.entries) :
    p.Declares (StringPool.labelOf n) text := by
  have hm : StringPool.declaration text n ∈ p.strings.toList.flatMap Block.code := by
    rw [b.strings_eq, Script.flatMap_stringBlock]
    exact List.mem_map.2 ⟨(text, n), h, rfl⟩
  obtain ⟨c, hc, hm⟩ := List.mem_flatMap.1 hm
  exact ⟨n, rfl, c, by simpa using hc, _, hm, StringPool.declaresText_declaration text n⟩

/-- The literals of a body are declared under the addresses that its code pushes. -/
theorem declares_addresses {env : Env} {texts : List String} {s₁ s₂ : Supply} {items : List Item}
    (h : Lowering.Assembled env texts s₁ items s₂)
    (he : s₂.strings.entries <+: b.final.strings.entries) :
    List.Forall₂ p.Declares (addresses (settle items)) texts := by
  rw [Lowering.Assembled.addresses_settle]
  refine h.forall₂_addresses.imp fun l t ht => ?_
  obtain ⟨n, rfl, hm⟩ := ht
  exact b.declares_of_mem_entries (he.subset hm)

theorem linked (b : Build s source seed p) : p.Linked s seed (s.compileFrom source seed).next where
  branch _ hc _ hi hb := b.branch_mem_labels hc hi hb
  drawn _ hs hn := b.drawn_mem_labels hs hn
  once _ h hl := b.count_branches h hl
  call _ hi ho := b.call_enters hi ho
  static _ hi _ ho := b.static_declared hi ho
  frame _ hc _ hi _ _ ho := b.frame_declared hc hi ho
  data_addresses := by
    constructor
    · refine List.filterMap_eq_nil_iff.2 fun i hi => ?_
      obtain ⟨-, t, ht⟩ := b.mem_data hi
      simp [Instruction.address?, ht]
    · refine List.filterMap_eq_nil_iff.2 fun i hi => ?_
      obtain ⟨-, t, ht⟩ := b.mem_strings hi
      simp [Instruction.address?, ht]
  top_addresses := by
    have ha : addresses p.topLevel.code = addresses (settle b.top) := by
      rw [b.topLevel_eq, Code.topLevelBlock, addresses, filterMap_withLabel (fun _ _ => rfl) rfl]
      simp [addresses, List.filterMap_append, Instruction.address?, Instruction.bare]
    rw [ha]
    exact b.declares_addresses b.topBody_assembled b.bodies.spends.entries_prefix
  routine_addresses := by
    rw [b.blocks_eq, ← b.routines_eq, List.forall₂_map_left_iff, List.forall₂_map_right_iff,
      List.forall₂_same]
    intro x hx
    obtain ⟨s₁, s₂, h, he⟩ := b.piece_assembled hx
    rw [addresses, Frame.filterMap_assemble fun i _ ha => ha]
    exact b.declares_addresses h he

end Build

namespace Script

/-- A compiled program has no dangling reference, and no branch leaves its block. -/
theorem references_resolve {s : Script} {source : String} {seed : Nat} {p : Program}
    (h : (s.compileFrom source seed).result = .ok p) :
    p.Linked s seed (s.compileFrom source seed).next := by
  obtain ⟨b⟩ := Build.nonempty h
  exact b.linked

theorem stemNames_references_resolve : ∃ p, (stemNames.compileFrom "stems" 7).result = .ok p ∧
    p.Linked stemNames 7 (stemNames.compileFrom "stems" 7).next := by
  obtain ⟨p, h⟩ := stemNames_compiles
  exact ⟨p, h, references_resolve h⟩

end Script
end TreeAsm

import TreeAsm.Proofs.Discipline

/-! Heights of the stack along all ways through a block, branches included. -/
namespace TreeAsm
open Code

namespace Code

/-- Control may go from one position to another: on to the next one, or along a branch. -/
inductive Follows (code : List Instruction) : Nat → Nat → Prop where
  | next {k : Nat} {i : Instruction} (hi : code[k]? = some i) (hbr : i.opcode ≠ .br)
      (hstop : i.opcode ≠ .stop)
      (hret : i.opcode ≠ .ret) : Follows code k (k + 1)
  | branch {k m : Nat} {i j : Instruction} {l : Label} (hi : code[k]? = some i)
      (hl : i.branch? = some l)
      (hj : code[m]? = some j) (ht : j.label.map Label.text = some l.text) : Follows code k m

/-- From one position and height of the stack, some way leads to another position and height. -/
inductive Walks (code : List Instruction) (k h : Nat) : Nat → Nat → Prop where
  | refl : Walks code k h k h
  | step {m n g : Nat} {i : Instruction} (hw : Walks code k h m g) (hi : code[m]? = some i)
      (hf : Follows code m n) :
      Walks code k h n (g - i.pops + i.pushes)

/-- A height for each position that all instructions of the block agree with. -/
structure Heights (s : Script) (code : List Instruction) (height : Nat → Nat) : Prop where
  /-- No instruction takes more than there is. -/
  enough : ∀ (k : Nat) (i : Instruction), code[k]? = some i → i.pops ≤ height k
  /-- Wherever control goes on to, there is the height that the instruction leaves. -/
  flow : ∀ (k m : Nat) (i : Instruction), code[k]? = some i → Follows code k m →
    height m = height k - i.pops + i.pushes
  /-- Branches have somewhere to go. -/
  lands : ∀ (k : Nat) (i : Instruction), code[k]? = some i → i.opcode.isBranch = true →
    ∃ l ∈ labels code, i.branch? = some l
  /-- The arguments of a call are there. -/
  call : ∀ (k : Nat) (i : Instruction), code[k]? = some i → i.opcode = .call →
    ∃ r ∈ s.routines, i.target? = some (.plain r.name) ∧ r.formals.length ≤ height k
  stop : ∀ (k : Nat) (i : Instruction), code[k]? = some i → i.opcode = .stop → height k = 0
  exit : ∀ (k : Nat) (i : Instruction) (f : String), code[k]? = some i →
    i.label = some (.exit f) → height k = 0

/-- All ways to a position give it the same height. -/
theorem Heights.eq_of_walks {s : Script} {code : List Instruction} {height : Nat → Nat}
    (H : Heights s code height) {k m g : Nat} (hw : Walks code k (height k) m g) :
    g = height m := by
  induction hw with
  | refl => rfl
  | step _ hi hf ih => rw [ih, H.flow _ _ _ hi hf]

/-- Code that leads from rest to rest has the heights of its points. -/
theorem Passes.heights {s : Script} {ρ : Option String} {code : List Instruction} {q : Point}
    (h : Passes s ρ .rest code q)
    (hlands : ∀ i ∈ code, i.opcode.isBranch = true → ∃ l ∈ labels code, i.target? = some l) :
    Heights s code fun k => (pointAt code k).height where
  enough k i hi := (h.suits hi).1.enough
  flow k m i hi hf := by
    cases hf with
    | next hj _ _ _ => rw [pointAt_succ hi, Point.height_next]
    | @branch _ i' j l hj hl hm ht =>
      obtain rfl := Option.some.inj (hi.symm.trans hj)
      have hlabel : j.label.isSome = true := by
        rw [← Option.isSome_map (f := Label.text), ht]
        rfl
      have hrest := (h.suits hm).2 hlabel
      have hb : i.opcode.isBranch = true := by
        unfold Instruction.branch? at hl
        split at hl
        next hb => exact hb
        next => simp at hl
      rw [hrest, ← Point.height_next, (h.suits hi).1.next_of_branch hb]
  lands k i hi hb := by
    obtain ⟨l, hl, ht⟩ := hlands i (List.mem_of_getElem? hi) hb
    exact ⟨l, hl, by simp [Instruction.branch?, hb, ht]⟩
  call k i hi := (h.suits hi).1.call
  stop k i hi := (h.suits hi).1.stop
  exit k i f hi hl := by
    rw [(h.suits hi).2 (by rw [hl]; rfl)]
    rfl

end Code

/-- Every position of the block has a height, on which all ways from the entry agree. -/
structure Block.Disciplined (s : Script) (c : Block) (entry : Nat) (height : Nat → Nat) : Prop where
  heights : Heights s c.code height
  start : height entry = 0
  agree : ∀ k g, Walks c.code entry 0 k g → g = height k

/-- Code that leads from rest to rest is disciplined wherever it is entered at rest. -/
theorem Code.Passes.disciplined {s : Script} {ρ : Option String} {c : Block} {q : Point}
    (h : Passes s ρ .rest c.code q)
    (hlands : ∀ i ∈ c.code, i.opcode.isBranch = true → ∃ l ∈ labels c.code, i.target? = some l)
    {entry : Nat} (he : pointAt c.code entry = .rest) :
    c.Disciplined s entry fun k => (pointAt c.code k).height := by
  have hheights := h.heights hlands
  have hentry : (pointAt c.code entry).height = 0 := by rw [he]; rfl
  refine ⟨hheights, hentry, fun k g hw => ?_⟩
  rw [← hentry] at hw
  exact hheights.eq_of_walks hw

namespace Frame

/-- The block of a routine is entered behind its reservation, and the code goes on at rest. -/
theorem exists_entered (f : Frame) (items : List Item) :
    ∃ i : Instruction,
      (f.assemble items).code[f.reservation.length]? = some i ∧ i.opcode = .enter ∧
        i.label = some (.plain f.routine) ∧
        pointAt (f.assemble items).code (f.reservation.length + 1) = .rest := by
  have hcode : (f.assemble items).code =
      f.reservation ++ (f.prologue ++ (settle items ++ f.epilogue)) := by
    simp [assemble, block]
  have hi : (f.assemble items).code[f.reservation.length]? =
      some (((Instruction.on .enter (.imm f.size)).labelled (.plain f.routine)).commented
        (toString f.size ++ " slot(s)")) := by
    rw [hcode]
    simp [prologue]
  have hrest : pointAt (f.assemble items).code f.reservation.length = .rest := by
    rw [pointAt, hcode, List.take_left]
    exact (f.passes_reservation (s := ⟨[]⟩) none).foldl_eq
  refine ⟨_, hi, rfl, rfl, ?_⟩
  rw [pointAt_succ hi, hrest]
  rfl

end Frame

namespace Script

/-- The stack has one height at each position of a compiled block, whatever way leads there: nothing
at its entry, where a routine ends and where the program stops, and always as much as the
instruction needs. -/
theorem stack_heights_agree {s : Script} {source : String} {seed : Nat} {p : Program}
    (h : (s.compileFrom source seed).result = .ok p) :
    (∃ height, p.topLevel.Disciplined s 0 height ∧ ∃ i ∈ p.topLevel.code, i.opcode = .stop) ∧
      List.Forall₂ (fun r c => ∃ entry height, c.Disciplined s (entry + 1) height ∧
        .exit r.name ∈ labels c.code ∧
        ∃ i : Instruction, c.code[entry]? = some i ∧ i.opcode = .enter ∧
          i.label = some (.plain r.name))
        s.routines p.routines := by
  obtain ⟨b⟩ := Build.nonempty h
  constructor
  · obtain ⟨d, m, hd, -⟩ := b.topLevel_concat
    refine ⟨_, b.passes_topLevel.disciplined ?_ rfl, { Instruction.bare .stop with label := m },
      by simp [hd], rfl⟩
    exact fun _ hi hb => b.branch_mem_labels (by simp [Program.blocks]) hi hb
  · rw [b.blocks_eq, ← b.routines_eq, List.forall₂_map_left_iff, List.forall₂_map_right_iff,
      List.forall₂_same]
    intro x hx
    obtain ⟨hn, -, -⟩ := b.routine_eq_of_mem hx
    have hc : x.2.1.assemble x.2.2 ∈ p.routines := b.blocks_eq ▸ List.mem_map_of_mem hx
    have hexit : .exit x.1.name ∈ labels (x.2.1.assemble x.2.2).code :=
      (b.mem_labels_piece hx).2 (.inl (by simp [Frame.ownLabels, hn]))
    obtain ⟨i, hi, ho, hl, hrest⟩ := x.2.1.exists_entered x.2.2
    refine ⟨_, _, (b.passes_piece hx).disciplined ?_ hrest, hexit, i, hi, ho, hn ▸ hl⟩
    exact fun _ hi hb => b.branch_mem_labels (by simp [Program.blocks, hc]) hi hb

/-- Results that are not used, in loops and as statements of their own, and a `return` from inside a
loop. -/
def ragged : Script where
  body :=
    [.define 1 "pick" [⟨"a", none⟩, ⟨"b", none⟩]
      [.whileLoop 2 (.name "a")
        [.ifElse 3 (.name "b") [.ret 4 (some (.name "a"))] [], .eval 5 (.call "input" []),
          .update 6 (.name "a") .sub (.literal (.int 1))]],
      .eval 7 (.call "pick" [.literal (.int 1), .literal (.int 2)]),
      .whileLoop 8 (.call "pick" [.call "input" [], .literal (.int 3)])
        [.eval 9 (.call "input" [])]]

theorem ragged_stack_heights :
    ∃ p, (ragged.compileFrom "ragged" 0).result = .ok p ∧
    ∃ height, p.topLevel.Disciplined ragged 0 height ∧ (∃ i ∈ p.topLevel.code, i.opcode = .stop) ∧
      ∀ (k : Nat) (i : Instruction), p.topLevel.code[k]? = some i → i.opcode = .call →
        2 ≤ height k := by
  obtain ⟨p, h⟩ : ∃ p, (ragged.compileFrom "ragged" 0).result = .ok p := exists_eq_ok (by decide)
  obtain ⟨⟨height, hd, hstop⟩, -⟩ := stack_heights_agree h
  refine ⟨p, h, height, hd, hstop, fun k i hi hc => ?_⟩
  obtain ⟨r, hr, -, hle⟩ := hd.heights.call k i hi hc
  have harity : ∀ r ∈ ragged.routines, r.formals.length = 2 := by decide
  rwa [harity r hr] at hle

end Script
end TreeAsm

import TreeAsm.Proofs.LabelUniqueness

/-! What generated code refers to: the labels that it branches to, the routines that it calls, the
cells, slots and string constants of its operands. Settling labels keeps all of it. -/
namespace TreeAsm

namespace Instruction

/-- The label that the instruction branches to. -/
def branch? (i : Instruction) : Option Label := if i.opcode.isBranch then i.target? else none

/-- The string constant whose address the instruction uses. -/
def address? (i : Instruction) : Option Label :=
  match i.operand with
  | some (.addr l) => some l
  | _ => none

end Instruction

def Item.op? : Item → Option Instruction
  | .mark _ => none
  | .op i => some i

namespace Code

/-- The instructions of a piece of code. -/
def ops (items : List Item) : List Instruction := items.filterMap Item.op?

@[simp] theorem ops_nil : ops [] = [] := rfl

@[simp] theorem ops_cons_mark (l : Label) (r : List Item) : ops (.mark l :: r) = ops r := rfl

@[simp] theorem ops_cons_op (i : Instruction) (r : List Item) : ops (.op i :: r) = i :: ops r := rfl

@[simp] theorem ops_append (i j : List Item) : ops (i ++ j) = ops i ++ ops j :=
  List.filterMap_append

/-! ### Views

What a view sees of an instruction does not depend on its label, and in carriers it sees nothing. -/

section View

variable {β : Type} {g : Instruction → Option β} (hl : ∀ i l, g (i.labelled l) = g i)
  (hn : g (.bare .nop) = none)
include hl hn

theorem filterMap_carriers (ls : List Label) : (ls.map Instruction.carrier).filterMap g = [] := by
  refine List.filterMap_eq_nil_iff.2 fun i hi => ?_
  obtain ⟨l, -, rfl⟩ := List.mem_map.1 hi
  rw [Instruction.carrier, hl, hn]

theorem filterMap_attach (pending : List Label) (i : Instruction) :
    (attach pending i).filterMap g = [i].filterMap g := by
  unfold attach
  split
  · rfl
  · rw [List.filterMap_append, filterMap_carriers hl hn, List.nil_append]
    simp only [List.filterMap_cons, hl]

/-- Settling labels changes nothing but labels and carriers. -/
theorem filterMap_settleFrom (pending : List Label) (items : List Item) :
    (settleFrom pending items).filterMap g = (ops items).filterMap g := by
  induction items generalizing pending with
  | nil => exact filterMap_carriers hl hn pending
  | cons x r ih =>
    cases x with
    | mark l => exact ih _
    | op i =>
      rw [settleFrom, List.filterMap_append, filterMap_attach hl hn, ih, ← List.filterMap_append]
      rfl

theorem filterMap_withLabel (l : Label) (code : List Instruction) :
    (withLabel l code).filterMap g = code.filterMap g := by
  cases code with
  | nil => exact filterMap_carriers hl hn [l]
  | cons i r =>
    rw [withLabel]
    split
    · simp only [List.filterMap_cons, hl]
    · simp only [List.filterMap_cons, Instruction.carrier, hl, hn]

end View

/-- An instruction of settled code is a carrier, or one of the body with another label. -/
theorem mem_settleFrom {pending : List Label} {items : List Item} {j : Instruction}
    (h : j ∈ settleFrom pending items) :
    (∃ l, j = .carrier l) ∨ ∃ i ∈ ops items, j.opcode = i.opcode ∧ j.operand = i.operand := by
  induction items generalizing pending with
  | nil =>
    obtain ⟨l, -, rfl⟩ := List.mem_map.1 h
    exact .inl ⟨l, rfl⟩
  | cons x r ih =>
    cases x with
    | mark l => exact ih h
    | op i =>
      rw [settleFrom, List.mem_append, attach] at h
      rcases h with h | h
      · split at h
        · obtain rfl := List.mem_singleton.1 h
          exact .inr ⟨j, by simp, rfl, rfl⟩
        · rcases List.mem_append.1 h with h | h
          · obtain ⟨m, -, rfl⟩ := List.mem_map.1 h
            exact .inl ⟨m, rfl⟩
          · obtain rfl := List.mem_singleton.1 h
            exact .inr ⟨i, by simp, rfl, rfl⟩
      · rcases ih h with hc | ⟨k, hk, he⟩
        · exact .inl hc
        · exact .inr ⟨k, List.mem_cons_of_mem _ hk, he⟩

theorem mem_withLabel {l : Label} {code : List Instruction} {j : Instruction}
    (h : j ∈ withLabel l code) :
    (∃ m, j = .carrier m) ∨ ∃ i ∈ code, j.opcode = i.opcode ∧ j.operand = i.operand := by
  cases code with
  | nil =>
    obtain rfl := List.mem_singleton.1 h
    exact .inl ⟨l, rfl⟩
  | cons i r =>
    rw [withLabel] at h
    split at h
    · rcases List.mem_cons.1 h with rfl | h
      · exact .inr ⟨i, List.mem_cons_self, rfl, rfl⟩
      · exact .inr ⟨j, List.mem_cons_of_mem _ h, rfl, rfl⟩
    · rcases List.mem_cons.1 h with rfl | h
      · exact .inl ⟨l, rfl⟩
      · exact .inr ⟨j, h, rfl, rfl⟩

/-- The labels that a piece of code branches to. -/
def targets (items : List Item) : List Label := (ops items).filterMap Instruction.branch?

@[simp] theorem targets_nil : targets [] = [] := rfl

@[simp] theorem targets_cons_mark (l : Label) (r : List Item) :
    targets (.mark l :: r) = targets r := rfl

@[simp] theorem targets_cons_brf (l : Label) (r : List Item) :
    targets (.op (.on .brf (.target l)) :: r) = l :: targets r := rfl

@[simp] theorem targets_cons_br (l : Label) (r : List Item) :
    targets (.op (.on .br (.target l)) :: r) = l :: targets r := rfl

@[simp] theorem targets_append (i j : List Item) : targets (i ++ j) = targets i ++ targets j := by
  simp [targets]

/-- The string constants whose addresses a piece of code uses. -/
def addresses (code : List Instruction) : List Label := code.filterMap Instruction.address?

@[simp] theorem addresses_nil : addresses [] = [] := rfl

@[simp] theorem addresses_cons_branch (o : Opcode) (l : Label) (r : List Instruction) :
    addresses (.on o (.target l) :: r) = addresses r := rfl

@[simp] theorem addresses_append (c d : List Instruction) :
    addresses (c ++ d) = addresses c ++ addresses d :=
  List.filterMap_append

end Code

namespace Lowering
open Code

/-- Straight code leaves its body only by returning. -/
theorem Straight.branch? {env : Env} {i : Instruction} (h : Straight env i) :
    i.branch? = none ∨ ∃ cell exit, env.result = some (cell, exit) ∧ i.branch? = some exit := by
  cases h with
  | binary op => cases op <;> exact .inl rfl
  | unary op => cases op <;> exact .inl rfl
  | leave h => exact .inr ⟨_, _, h, rfl⟩
  | _ => exact .inl rfl

theorem Straight.address? {env : Env} {i : Instruction} (h : Straight env i) :
    i.address? = none := by
  cases h <;> rfl

namespace Assembled

variable {env : Env} {x : List String} {s s' : Supply} {items : List Item}

/-- Every label that code places is branched to exactly as often as it is placed, and code branches
nowhere else but to the end of its routine. -/
theorem count_targets (h : Assembled env x s items s') {l : Label}
    (hl : ∀ cell exit, env.result = some (cell, exit) → l ≠ exit) :
    (targets items).count l = (marks items).count l := by
  induction h with
  | nil => rfl
  | append _ _ hi hj => simp [hi, hj]
  | op s h =>
    rcases h.branch? with hn | ⟨cell, exit, hr, he⟩
    · simp [targets, hn]
    · have hne := hl cell exit hr
      simp [targets, he, Ne.symm hne]
  | text => rfl
  | branch _ _ ht hb =>
    simp only [ifItems, targets_append, targets_cons_brf, targets_cons_mark,
      targets_nil, marks_append, marks_cons_op, marks_cons_mark, marks_nil, List.count_append,
      List.count_cons, ht, hb]
    omega
  | choice _ _ _ ht hb ho =>
    simp only [ifElseItems, targets_append, targets_cons_brf, targets_cons_br,
      targets_cons_mark, targets_nil, marks_append, marks_cons_op, marks_cons_mark, marks_nil,
      List.count_append, List.count_cons, ht, hb, ho]
    omega
  | loop _ _ ht hb =>
    simp only [whileItems, targets_append, targets_cons_brf, targets_cons_br,
      targets_cons_mark, targets_nil, marks_append, marks_cons_op, marks_cons_mark, marks_nil,
      List.count_append, List.count_cons, ht, hb]
    omega

theorem mem_marks_of_mem_targets (h : Assembled env x s items s') {l : Label}
    (hl : l ∈ targets items) : l ∈ marks items ∨ ∃ cell, env.result = some (cell, l) := by
  by_cases he : ∀ cell exit, env.result = some (cell, exit) → l ≠ exit
  · have hc := h.count_targets he
    exact .inl (List.count_pos_iff.1 (hc ▸ List.count_pos_iff.2 hl))
  · simp only [not_forall, not_not] at he
    obtain ⟨cell, exit, hr, rfl⟩ := he
    exact .inr ⟨cell, hr⟩

/-- The addresses that code pushes are those of its string literals, in order. -/
theorem forall₂_addresses (h : Assembled env x s items s') :
    List.Forall₂ (fun l t => ∃ n, l = StringPool.labelOf n ∧ (t, n) ∈ s'.strings.entries)
      (addresses (ops items)) x := by
  have grow : ∀ {s₁ s₂ : Supply} {ls : List Label} {ts : List String},
      s₁.strings.entries <+: s₂.strings.entries →
      List.Forall₂ (fun l t => ∃ n, l = StringPool.labelOf n ∧ (t, n) ∈ s₁.strings.entries) ls ts →
      List.Forall₂ (fun l t => ∃ n, l = StringPool.labelOf n ∧ (t, n) ∈ s₂.strings.entries) ls ts :=
    fun hp hf => hf.imp fun l t ⟨n, hl, hm⟩ => ⟨n, hl, hp.subset hm⟩
  induction h with
  | nil => exact .nil
  | append _ hj ihi ihj =>
    rw [ops_append, addresses_append]
    exact List.rel_append (grow hj.spends.entries_prefix ihi) ihj
  | op s h => simp [addresses, h.address?]
  | @text t l s s' h =>
    refine .cons ?_ .nil
    rcases Supply.intern?_cases h with ⟨n, hm, rfl, rfl⟩ | ⟨-, rfl, rfl⟩
    · exact ⟨n, rfl, hm⟩
    · exact ⟨s.next, rfl, by simp [StringPool.add]⟩
  | @branch x y s s₁ s' t b ht hb iht ihb =>
    have hi : addresses (ops (ifItems t b s₁.next)) = addresses (ops t) ++ addresses (ops b) := by
      simp [ifItems]
    rw [hi]
    exact List.rel_append (grow hb.spends.entries_prefix iht) ihb
  | @choice x y z s s₁ s₂ s' t b o ht hb ho iht ihb iho =>
    have hi : addresses (ops (ifElseItems t b o s₁.next)) =
        addresses (ops t) ++ (addresses (ops b) ++ addresses (ops o)) := by
      simp [ifElseItems]
    rw [hi]
    have hbo := List.rel_append (grow ho.spends.entries_prefix ihb) iho
    exact List.rel_append (grow (hb.spends.entries_prefix.trans ho.spends.entries_prefix) iht) hbo
  | @loop x y s s₁ s' t b ht hb iht ihb =>
    have hi : addresses (ops (whileItems t b s.next)) = addresses (ops t) ++ addresses (ops b) := by
      simp [whileItems]
    rw [hi]
    exact List.rel_append (grow hb.spends.entries_prefix iht) ihb

/-- The instructions of a body: straight ones, addresses, and branches to its own labels. -/
theorem ops_cases (h : Assembled env x s items s') : ∀ i ∈ ops items, Straight env i ∨
    (∃ l, i = .on .push (.addr l)) ∨ ∃ l, i = .on .brf (.target l) ∨ i = .on .br (.target l) := by
  induction h with
  | nil => simp
  | append _ _ hi hj =>
    intro i hm
    rcases List.mem_append.1 (ops_append .. ▸ hm) with hm | hm
    · exact hi i hm
    · exact hj i hm
  | op s h =>
    intro i hm
    obtain rfl := List.mem_singleton.1 hm
    exact .inl h
  | text h =>
    intro i hm
    obtain rfl := List.mem_singleton.1 hm
    exact .inr (.inl ⟨_, rfl⟩)
  | branch _ _ ht hb =>
    simp only [ifItems, ops_append, ops_cons_op, ops_cons_mark, ops_nil]
    grind
  | choice _ _ _ ht hb ho =>
    simp only [ifElseItems, ops_append, ops_cons_op, ops_cons_mark, ops_nil]
    grind
  | loop _ _ ht hb =>
    simp only [whileItems, ops_append, ops_cons_op, ops_cons_mark, ops_nil]
    grind

end Assembled
end Lowering

open Code

namespace Frame

theorem mem_of_lookup {frames : List Frame} {name : String} {f : Frame}
    (h : lookup frames name = some f) : f ∈ frames ∧ f.routine = name := by
  have hm := List.mem_of_find?_eq_some h
  have hp := List.find?_some h
  exact ⟨by simpa using hm, by simpa using hp⟩

/-- The offset of a slot stands in the reservation under its symbol. -/
theorem exists_equate {f : Frame} {name : String} {i : Nat} (h : f.slot? name = some i) :
    ∃ j ∈ f.reservation, j.label = some (.slot f.routine name) ∧ j.opcode = .equate ∧
      j.operand = some (.raw (toString i)) := by
  have hn := slot?_eq_some_iff.1 h
  rw [Scope.names, List.getElem?_map, Option.map_eq_some_iff] at hn
  obtain ⟨v, hv, rfl⟩ := hn
  refine ⟨f.slotEquate v i, ?_, rfl, rfl, rfl⟩
  have hz : (v, i) ∈ f.locals.toList.zipIdx := List.mk_mem_zipIdx_iff_getElem?.2 hv
  exact List.mem_cons_of_mem _ (List.mem_map.2 ⟨(v, i), hz, rfl⟩)

theorem resolve?_eq_some {f : Frame} {name : String} {loc : Location}
    (h : f.resolve? name = some loc) :
    ∃ i, f.slot? name = some i ∧ loc = .frame (.slot f.routine name) i := by
  obtain ⟨i, hi, rfl⟩ := Option.map_eq_some_iff.1 h
  exact ⟨i, hi, rfl⟩

/-- What the code around the body of a routine refers to: the slots of its parameters. -/
theorem mem_prologue {f : Frame} {i : Instruction} (h : i ∈ f.prologue) :
    (i.opcode = .enter ∧ i.operand = some (.imm f.size) ∧ i.label = some (.plain f.routine)) ∨
      (∃ k, i.opcode = .push ∧ i.operand = some (.arg k)) ∨
      ∃ name k, f.slot? name = some k ∧ i.opcode = .pop ∧
        i.operand = some (.mem (.frame (.slot f.routine name) k)) := by
  rcases List.mem_cons.1 h with rfl | h
  · exact .inl ⟨rfl, rfl, rfl⟩
  · obtain ⟨⟨name, k⟩, -, h⟩ := List.mem_flatMap.1 h
    cases hl : f.resolve? name with
    | none => simp [bindParam, hl] at h
    | some loc =>
      obtain ⟨j, hj, rfl⟩ := resolve?_eq_some hl
      simp only [bindParam, hl] at h
      rcases List.mem_cons.1 h with rfl | h
      · exact .inr (.inl ⟨k, rfl, rfl⟩)
      · obtain rfl := List.mem_singleton.1 h
        exact .inr (.inr ⟨name, j, hj, rfl, rfl⟩)

theorem mem_reservation {f : Frame} {i : Instruction} (h : i ∈ f.reservation) :
    (i.opcode = .word ∨ i.opcode = .equate) ∧ ∃ t, i.operand = some (.raw t) := by
  rcases List.mem_cons.1 h with rfl | h
  · exact ⟨.inl rfl, _, rfl⟩
  · obtain ⟨⟨v, k⟩, -, rfl⟩ := List.mem_map.1 h
    exact ⟨.inr rfl, _, rfl⟩

theorem mem_epilogue {f : Frame} {i : Instruction} (h : i ∈ f.epilogue) :
    (i.opcode = .leave ∨ i.opcode = .ret) ∧ i.operand = none := by
  simp only [epilogue, List.mem_cons, List.not_mem_nil, or_false] at h
  rcases h with rfl | rfl
  · exact ⟨.inl rfl, rfl⟩
  · exact ⟨.inr rfl, rfl⟩

/-- The code around a body neither branches nor calls, and refers to nothing but slots of the
routine. -/
theorem around_cases {f : Frame} {i : Instruction}
    (h : i ∈ f.reservation ∨ i ∈ f.prologue ∨ i ∈ f.epilogue) :
    i.opcode.isBranch = false ∧ i.opcode ≠ .call ∧ i.address? = none ∧
    ∀ loc, i.operand = some (.mem loc) →
      ∃ name k, f.slot? name = some k ∧ loc = .frame (.slot f.routine name) k := by
  rcases h with h | h | h
  · obtain ⟨ho, t, ht⟩ := mem_reservation h
    rcases ho with ho | ho <;> simp [ho, ht, Opcode.isBranch, Instruction.address?]
  · rcases mem_prologue h with ⟨ho, ht, -⟩ | ⟨k, ho, ht⟩ | ⟨name, k, hk, ho, ht⟩
    · simp [ho, ht, Opcode.isBranch, Instruction.address?]
    · simp [ho, ht, Opcode.isBranch, Instruction.address?]
    · refine ⟨by rw [ho]; rfl, by simp [ho], by simp [Instruction.address?, ht], fun loc hl => ?_⟩
      rw [ht] at hl
      exact ⟨name, k, hk, by simpa using hl.symm⟩
  · obtain ⟨ho, ht⟩ := mem_epilogue h
    rcases ho with ho | ho <;> simp [ho, ht, Opcode.isBranch, Instruction.address?]

theorem mem_assemble {f : Frame} {items : List Item} {i : Instruction}
    (h : i ∈ (f.assemble items).code) :
    i ∈ settle items ∨ i ∈ f.reservation ∨ i ∈ f.prologue ∨ i ∈ f.epilogue := by
  have h : i ∈ f.reservation ++ f.prologue ++ settle items ++ f.epilogue := h
  simp only [List.mem_append] at h
  tauto

/-- Views of branches and addresses see the body only. -/
theorem filterMap_assemble {β : Type} {g : Instruction → Option β}
    (hg : ∀ i, i.opcode.isBranch = false → i.address? = none → g i = none) (f : Frame)
    (items : List Item) : (f.assemble items).code.filterMap g = (settle items).filterMap g := by
  have hnone : ∀ i, (i ∈ f.reservation ∨ i ∈ f.prologue ∨ i ∈ f.epilogue) → g i = none := by
    intro i hi
    obtain ⟨hb, -, ha, -⟩ := around_cases hi
    exact hg i hb ha
  have hr := List.filterMap_eq_nil_iff.2 fun i hi => hnone i (.inl hi)
  have hp := List.filterMap_eq_nil_iff.2 fun i hi => hnone i (.inr (.inl hi))
  have he := List.filterMap_eq_nil_iff.2 fun i hi => hnone i (.inr (.inr hi))
  simp [assemble, block, List.filterMap_append, hr, hp, he]

end Frame

/-- What the memory operands of a body can be. -/
def Env.Reaches (env : Env) (loc : Location) : Prop :=
  (∃ name, env.resolve name = some loc) ∨
    (∃ name f, env.callee name = some f ∧ loc = f.resultCell) ∨
    ∃ exit, env.result = some (loc, exit)

namespace Lowering

variable {env : Env} {x : List String} {s s' : Supply} {items : List Item} {j : Instruction}

theorem Straight.reaches {i : Instruction} (h : Straight env i) {loc : Location}
    (hl : i.operand = some (.mem loc)) : env.Reaches loc := by
  cases h with
  | load h | store h =>
    obtain rfl : _ = loc := by simpa [Instruction.on] using hl
    exact .inl ⟨_, h⟩
  | fetch h =>
    obtain rfl : _ = loc := by simpa [Instruction.on] using hl
    exact .inr (.inl ⟨_, _, h, rfl⟩)
  | give h =>
    obtain rfl : _ = loc := by simpa [Instruction.on] using hl
    exact .inr (.inr ⟨_, h⟩)
  | _ => simp [Instruction.on, Instruction.bare] at hl

theorem Straight.callee {i : Instruction} (h : Straight env i) (hc : i.opcode = .call) :
    ∃ name f, env.callee name = some f ∧ i.target? = some (.plain f.routine) := by
  cases h with
  | call h => exact ⟨_, _, h, rfl⟩
  | binary op => cases op <;> simp [Instruction.bare, BinaryOp.opcode] at hc
  | unary op => cases op <;> simp [Instruction.bare, UnaryOp.opcode] at hc
  | _ => simp [Instruction.on, Instruction.bare] at hc

theorem Straight.exists_branch? {i : Instruction} (h : Straight env i)
    (hb : i.opcode.isBranch = true) : ∃ l, i.branch? = some l := by
  cases h with
  | leave h => exact ⟨_, rfl⟩
  | binary op => cases op <;> simp [Instruction.bare, BinaryOp.opcode, Opcode.isBranch] at hb
  | unary op => cases op <;> simp [Instruction.bare, UnaryOp.opcode, Opcode.isBranch] at hb
  | _ => simp [Instruction.on, Instruction.bare, Opcode.isBranch] at hb

namespace Assembled

theorem filterMap_branch?_settle (items : List Item) :
    (settle items).filterMap Instruction.branch? = targets items :=
  filterMap_settleFrom (fun _ _ => rfl) rfl [] items

theorem addresses_settle (items : List Item) : addresses (settle items) = addresses (ops items) :=
  filterMap_settleFrom (fun _ _ => rfl) rfl [] items

theorem settled_branch (h : Assembled env x s items s') (hj : j ∈ settle items)
    (hb : j.opcode.isBranch = true) :
    ∃ l, j.target? = some l ∧ (l ∈ marks items ∨ ∃ cell, env.result = some (cell, l)) := by
  have hl : ∃ l, j.branch? = some l := by
    rcases mem_settleFrom hj with ⟨m, rfl⟩ | ⟨i, hi, ho, ht⟩
    · simp [Instruction.carrier, Instruction.labelled, Instruction.bare, Opcode.isBranch] at hb
    · have he : j.branch? = i.branch? := by simp [Instruction.branch?, Instruction.target?, ho, ht]
      rw [he]
      rcases h.ops_cases i hi with hs | ⟨l, rfl⟩ | ⟨l, rfl | rfl⟩
      · exact hs.exists_branch? (ho ▸ hb)
      · simp [ho, Instruction.on, Opcode.isBranch] at hb
      · exact ⟨l, rfl⟩
      · exact ⟨l, rfl⟩
  obtain ⟨l, hl⟩ := hl
  have ht : j.target? = some l := by simpa [Instruction.branch?, hb] using hl
  have hm : l ∈ targets items := by
    rw [← filterMap_branch?_settle]
    exact List.mem_filterMap.2 ⟨j, hj, hl⟩
  exact ⟨l, ht, h.mem_marks_of_mem_targets hm⟩

theorem settled_call (h : Assembled env x s items s') (hj : j ∈ settle items)
    (hc : j.opcode = .call) :
    ∃ name f, env.callee name = some f ∧ j.target? = some (.plain f.routine) := by
  rcases mem_settleFrom hj with ⟨m, rfl⟩ | ⟨i, hi, ho, ht⟩
  · simp [Instruction.carrier, Instruction.labelled, Instruction.bare] at hc
  · have he : j.target? = i.target? := by simp [Instruction.target?, ht]
    rw [he]
    rcases h.ops_cases i hi with hs | ⟨l, rfl⟩ | ⟨l, rfl | rfl⟩
    · exact hs.callee (ho ▸ hc)
    · simp [ho, Instruction.on] at hc
    · simp [ho, Instruction.on] at hc
    · simp [ho, Instruction.on] at hc

theorem settled_mem (h : Assembled env x s items s') (hj : j ∈ settle items) {loc : Location}
    (hl : j.operand = some (.mem loc)) : env.Reaches loc := by
  rcases mem_settleFrom hj with ⟨m, rfl⟩ | ⟨i, hi, ho, ht⟩
  · simp [Instruction.carrier, Instruction.labelled, Instruction.bare] at hl
  · rw [ht] at hl
    rcases h.ops_cases i hi with hs | ⟨l, rfl⟩ | ⟨l, rfl | rfl⟩
    · exact hs.reaches hl
    · simp [Instruction.on] at hl
    · simp [Instruction.on] at hl
    · simp [Instruction.on] at hl

end Assembled
end Lowering
end TreeAsm

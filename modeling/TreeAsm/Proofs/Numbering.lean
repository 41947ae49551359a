import TreeAsm.Proofs.Assembly
import Mathlib.Data.List.Count

/-! The numbers of generated labels. A piece of code uses every number that it draws exactly once:
for a label that it places, or for a string constant that it is the first to push. -/
namespace TreeAsm

def Item.label? : Item → Option Label
  | .mark l => some l
  | .op _ => none

namespace Label

def number? : Label → Option Nat
  | .generated _ number => some number
  | _ => none

/-- The stems of labels that are branched to. -/
def branchStems : List String := ["else", "endif", "while", "endwhile"]

def IsBranch (l : Label) : Prop := ∃ stem ∈ branchStems, ∃ number, l = .generated stem number

end Label

namespace Code

/-- The labels that a piece of code places, in order. -/
def marks (items : List Item) : List Label := items.filterMap Item.label?

@[simp] theorem marks_nil : marks [] = [] := rfl

@[simp] theorem marks_cons_mark (l : Label) (r : List Item) : marks (.mark l :: r) = l :: marks r :=
  rfl

@[simp] theorem marks_cons_op (i : Instruction) (r : List Item) : marks (.op i :: r) = marks r :=
  rfl

@[simp] theorem marks_append (i j : List Item) : marks (i ++ j) = marks i ++ marks j :=
  List.filterMap_append

/-- The numbers of the labels that a piece of code places. -/
def numbers (items : List Item) : List Nat := (marks items).filterMap Label.number?

@[simp] theorem numbers_nil : numbers [] = [] := rfl

@[simp] theorem numbers_append (i j : List Item) : numbers (i ++ j) = numbers i ++ numbers j := by
  simp [numbers]

@[simp] theorem numbers_cons_op (i : Instruction) (r : List Item) :
    numbers (.op i :: r) = numbers r := rfl

@[simp] theorem numbers_cons_generated (stem : String) (n : Nat) (r : List Item) :
    numbers (.mark (.generated stem n) :: r) = n :: numbers r := rfl

end Code

namespace StringPool

variable {p : StringPool} {t : String}

theorem not_mem_texts_of_lookup (h : p.entries.lookup t = none) : t ∉ p.entries.map Prod.fst := by
  intro hm
  obtain ⟨e, he, rfl⟩ := List.mem_map.1 hm
  simpa using List.lookup_eq_none_iff.1 h e he

theorem nodup_texts_add (hp : (p.entries.map Prod.fst).Nodup) (h : p.entries.lookup t = none)
    (n : Nat) : ((p.add t n).entries.map Prod.fst).Nodup := by
  simp only [add, List.map_append, List.map_cons, List.map_nil]
  refine List.nodup_append.2 ⟨hp, by simp, fun a ha b hb hab => not_mem_texts_of_lookup h ?_⟩
  rwa [← List.mem_singleton.1 hb, ← hab]

end StringPool

namespace Supply

/-- A known text keeps its number, and a new one takes the next. -/
theorem intern?_cases {s s' : Supply} {text : String} {l : Label}
    (h : s.intern? text = some (l, s')) :
    (∃ n, (text, n) ∈ s.strings.entries ∧ l = StringPool.labelOf n ∧ s' = s) ∨
      (s.strings.entries.lookup text = none ∧ l = StringPool.labelOf s.next ∧
        s' = ⟨s.next + 1, s.strings.add text s.next⟩) := by
  unfold intern? at h
  split at h
  next m hm =>
    obtain ⟨rfl, rfl⟩ := Prod.mk.inj (Option.some.inj h)
    obtain ⟨n, hn, rfl⟩ := Option.map_eq_some_iff.1 hm
    obtain ⟨l₁, l₂, hl, -⟩ := List.lookup_eq_some_iff.1 hn
    exact .inl ⟨n, by simp [hl], rfl, rfl⟩
  next hm =>
    obtain ⟨⟨n, t⟩, hn, ht⟩ := Option.map_eq_some_iff.1 h
    obtain ⟨-, rfl, rfl⟩ := number?_eq_some_iff.1 hn
    obtain ⟨rfl, rfl⟩ := Prod.mk.inj ht
    exact .inr ⟨Option.map_eq_none_iff.1 hm, rfl, rfl⟩

/-- Going from one supply to the other, code with these labels uses each number in between once. -/
structure Spends (s : Supply) (items : List Item) (s' : Supply) : Prop where
  next_le : s.next ≤ s'.next
  count_eq : ∃ new, s'.strings.entries = s.strings.entries ++ new ∧
    ∀ k, (Code.numbers items).count k + (new.map Prod.snd).count k =
      if s.next ≤ k ∧ k < s'.next then 1 else 0

namespace Spends

variable {s s₁ s₂ s' : Supply} {i j : List Item}

theorem of_no_mark (h : Code.marks i = []) (s : Supply) : Spends s i s where
  next_le := Nat.le_refl _
  count_eq := ⟨[], by simp, by
    intro k
    rw [if_neg (by omega)]
    simp [Code.numbers, h]⟩

theorem nil (s : Supply) : Spends s [] s := of_no_mark rfl s

theorem append (hi : Spends s i s₁) (hj : Spends s₁ j s') : Spends s (i ++ j) s' where
  next_le := Nat.le_trans hi.next_le hj.next_le
  count_eq := by
    obtain ⟨new₁, he₁, h₁⟩ := hi.count_eq
    obtain ⟨new₂, he₂, h₂⟩ := hj.count_eq
    refine ⟨new₁ ++ new₂, by rw [he₂, he₁, List.append_assoc], fun k => ?_⟩
    have hle₁ := hi.next_le
    have hle₂ := hj.next_le
    have h₁ := h₁ k
    have h₂ := h₂ k
    simp only [Code.numbers_append, List.map_append, List.count_append]
    split_ifs at * <;> omega

/-- A number is drawn for a label. -/
theorem draw (stem : String) (s : Supply) :
    Spends s [.mark (.generated stem s.next)] s.advance where
  next_le := Nat.le_succ _
  count_eq := by
    refine ⟨[], by simp, fun k => ?_⟩
    have hn := next_advance s
    simp only [Code.numbers_cons_generated, Code.numbers_nil, List.count_singleton, beq_iff_eq,
      List.map_nil, List.count_nil]
    by_cases hk : s.next = k
    · rw [if_pos hk, if_pos (by omega)]
    · rw [if_neg hk, if_neg (by omega)]

theorem entries_prefix (h : Spends s i s') : s.strings.entries <+: s'.strings.entries := by
  obtain ⟨new, he, -⟩ := h.count_eq
  exact ⟨new, he.symm⟩

theorem intern {t : String} {l : Label} (h : s.intern? t = some (l, s')) (hi : Code.marks i = []) :
    Spends s i s' := by
  rcases intern?_cases h with ⟨n, -, -, rfl⟩ | ⟨-, -, rfl⟩
  · exact of_no_mark hi s'
  · refine ⟨Nat.le_succ _, [(t, s.next)], rfl, fun k => ?_⟩
    simp only [Code.numbers, hi, List.filterMap_nil, List.count_nil, List.map_cons, List.map_nil,
      List.count_singleton, beq_iff_eq]
    split_ifs <;> omega

/-- A piece and one that differs from it in the order of its labels only use the same numbers. -/
theorem of_count (h : Spends s i s')
    (hj : ∀ k, (Code.numbers j).count k = (Code.numbers i).count k) :
    Spends s j s' where
  next_le := h.next_le
  count_eq := by
    obtain ⟨new, he, hc⟩ := h.count_eq
    exact ⟨new, he, fun k => by rw [hj, hc]⟩

end Spends
end Supply

namespace Lowering.Assembled
open Code

variable {env : Env} {x : List String} {s s' : Supply} {items : List Item}

theorem spends (h : Assembled env x s items s') : s.Spends items s' := by
  induction h with
  | nil s => exact .nil s
  | append _ _ hi hj => exact hi.append hj
  | op s _ => exact .of_no_mark rfl s
  | text h => exact .intern h rfl
  | branch _ _ ht hb =>
    refine ((ht.append (.draw "endif" _)).append hb).of_count fun k => ?_
    simp only [ifItems, numbers_append, numbers_cons_op, numbers_cons_generated, numbers_nil,
      List.count_append]
    omega
  | choice _ _ _ ht hb ho =>
    refine ((((ht.append (.draw "else" _)).append (.draw "endif" _)).append hb).append ho).of_count
      fun k => ?_
    simp only [ifElseItems, numbers_append, numbers_cons_op, numbers_cons_generated, numbers_nil,
      List.count_append, List.count_cons, Supply.next_advance, List.count_nil]
    omega
  | loop _ _ ht hb =>
    refine ((((Supply.Spends.draw "while" _).append (.draw "endwhile" _)).append ht).append
      hb).of_count
      fun k => ?_
    simp only [whileItems, numbers_append, numbers_cons_op, numbers_cons_generated, numbers_nil,
      List.count_append, List.count_cons, Supply.next_advance, List.count_nil]
    omega

/-- No text gets a second number. -/
theorem nodup_texts (h : Assembled env x s items s') (hs : (s.strings.entries.map Prod.fst).Nodup) :
    (s'.strings.entries.map Prod.fst).Nodup := by
  induction h with
  | nil | op => exact hs
  | append _ _ hi hj => exact hj (hi hs)
  | @text t l s s' h =>
    rcases Supply.intern?_cases h with ⟨n, -, -, rfl⟩ | ⟨hl, -, rfl⟩
    · exact hs
    · exact StringPool.nodup_texts_add hs hl s.next
  | branch _ _ ht hb => exact hb (ht hs)
  | choice _ _ _ ht hb ho => exact ho (hb (ht hs))
  | loop _ _ ht hb => exact hb (ht hs)

/-- Bodies place labels of branches only. -/
theorem isBranch_of_mem_marks (h : Assembled env x s items s') : ∀ l ∈ marks items, l.IsBranch := by
  have hb : ∀ stem ∈ Label.branchStems, ∀ n, (Label.generated stem n).IsBranch :=
    fun stem hs n => ⟨stem, hs, n, rfl⟩
  induction h with
  | nil | op | text => simp
  | append _ _ hi hj =>
    intro l hl
    rcases List.mem_append.1 (marks_append .. ▸ hl) with hl | hl
    · exact hi l hl
    · exact hj l hl
  | branch _ _ ht hb' =>
    simp only [ifItems, marks_append, marks_cons_op, marks_cons_mark, marks_nil]
    grind [Label.branchStems]
  | choice _ _ _ ht hb' ho =>
    simp only [ifElseItems, marks_append, marks_cons_op, marks_cons_mark, marks_nil]
    grind [Label.branchStems]
  | loop _ _ ht hb' =>
    simp only [whileItems, marks_append, marks_cons_op, marks_cons_mark, marks_nil]
    grind [Label.branchStems]

theorem Straight.label_eq_none {i : Instruction} (h : Straight env i) : i.label = none := by
  cases h <;> rfl

/-- All labels of a body are marks: its instructions have none of their own. -/
theorem label_eq_none (h : Assembled env x s items s') : ∀ i, .op i ∈ items → i.label = none := by
  induction h with
  | nil => simp
  | append _ _ hi hj =>
    intro i hm
    rcases List.mem_append.1 hm with hm | hm
    · exact hi i hm
    · exact hj i hm
  | op s h =>
    intro i hm
    obtain rfl : i = _ := by simpa using hm
    exact Straight.label_eq_none h
  | text h =>
    intro i hm
    obtain rfl : i = _ := by simpa using hm
    rfl
  | branch _ _ ht hb =>
    simp only [ifItems, List.mem_append, List.mem_cons, Item.op.injEq, reduceCtorEq]
    grind [Instruction.on]
  | choice _ _ _ ht hb ho =>
    simp only [ifElseItems, List.mem_append, List.mem_cons, Item.op.injEq, reduceCtorEq]
    grind [Instruction.on]
  | loop _ _ ht hb =>
    simp only [whileItems, List.mem_append, List.mem_cons, Item.op.injEq, reduceCtorEq]
    grind [Instruction.on]

end Lowering.Assembled
end TreeAsm

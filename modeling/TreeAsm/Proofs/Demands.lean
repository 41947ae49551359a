import TreeAsm.Proofs.Numbering

/-! What code generation draws from the supply, as a list of demands. How many numbers a list of
demands takes depends on the texts that have constants already; it is met exactly if so many numbers
are left. -/
namespace TreeAsm

/-- A step of code generation asks for a number for a label, or for the constant of a text. -/
inductive Demand where
  | number
  | text (t : String)
deriving DecidableEq

namespace Demand

def text? : Demand → Option String
  | .number => none
  | .text t => some t

/-- How many numbers are asked for labels. -/
def labels (ds : List Demand) : Nat := ds.count .number

/-- The texts that are asked for, in order. -/
def texts (ds : List Demand) : List String := ds.filterMap text?

@[simp] theorem labels_nil : labels [] = 0 := rfl

@[simp] theorem labels_cons_number (ds : List Demand) : labels (.number :: ds) = labels ds + 1 :=
  List.count_cons_self

@[simp] theorem labels_cons_text (t : String) (ds : List Demand) :
    labels (.text t :: ds) = labels ds :=
  List.count_cons_of_ne (by simp)

@[simp] theorem labels_append (ds es : List Demand) : labels (ds ++ es) = labels ds + labels es :=
  List.count_append

@[simp] theorem texts_nil : texts [] = [] := rfl

@[simp] theorem texts_cons_number (ds : List Demand) : texts (.number :: ds) = texts ds := rfl

@[simp] theorem texts_cons_text (t : String) (ds : List Demand) :
    texts (.text t :: ds) = t :: texts ds := rfl

@[simp] theorem texts_append (ds es : List Demand) : texts (ds ++ es) = texts ds ++ texts es :=
  List.filterMap_append

end Demand

namespace StringPool

/-- The texts that have no constant yet, each once. -/
def missing (p : StringPool) (texts : List String) : List String :=
  (texts.filter fun t => (p.find? t).isNone).eraseDups

theorem missing_cons_of_find? {p : StringPool} {t : String} {l : Label} (h : p.find? t = some l)
    (texts : List String) : p.missing (t :: texts) = p.missing texts := by
  simp [missing, h]

theorem find?_add (p : StringPool) (t u : String) (n : Nat) :
    (p.add t n).find? u = (p.find? u).or (if u = t then some (labelOf n) else none) := by
  have hb : (u == t) = decide (u = t) := rfl
  cases h : p.entries.lookup u <;> by_cases hu : u = t <;>
    simp [find?, add, List.lookup_append, h, List.lookup_cons, hb, hu]

/-- A new text is missing once, and not any more when it has its constant. -/
theorem missing_cons_of_new {p : StringPool} {t : String} (h : p.find? t = none)
    (texts : List String) (n : Nat) : p.missing (t :: texts) = t :: (p.add t n).missing texts := by
  have hf : ∀ u, ((p.add t n).find? u).isNone = ((p.find? u).isNone && !(u == t)) := by
    intro u
    rw [find?_add]
    by_cases hu : u = t <;> cases p.find? u <;> simp [hu]
  simp only [missing, List.filter_cons, h, Option.isNone_none, if_true, List.eraseDups_cons,
    List.filter_filter, hf]
  congr 3
  funext u
  rw [Bool.and_comm]

@[simp] theorem missing_empty (texts : List String) : empty.missing texts = texts.eraseDups := by
  have hf : texts.filter (fun t => (empty.find? t).isNone) = texts :=
    List.filter_eq_self.2 fun _ _ => rfl
  rw [missing, hf]

end StringPool

namespace Supply

def serve? (s : Supply) : Demand → Option Supply
  | .number => (s.number?).map Prod.snd
  | .text t => (s.intern? t).map Prod.snd

/-- The supply after all demands have been met in order, if the numbers do not run out. -/
def serveAll? (s : Supply) (ds : List Demand) : Option Supply := ds.foldlM serve? s

@[simp] theorem serveAll?_nil (s : Supply) : s.serveAll? [] = some s := rfl

theorem serveAll?_cons (s : Supply) (d : Demand) (ds : List Demand) :
    s.serveAll? (d :: ds) = (s.serve? d).bind (·.serveAll? ds) := by
  simp only [serveAll?, List.foldlM_cons]
  rfl

theorem serveAll?_append (s : Supply) (ds es : List Demand) :
    s.serveAll? (ds ++ es) = (s.serveAll? ds).bind (·.serveAll? es) := by
  simp only [serveAll?, List.foldlM_append]
  rfl

/-- How many numbers the demands take: one for each label, and one for each new text. -/
def cost (s : Supply) (ds : List Demand) : Nat :=
  Demand.labels ds + (s.strings.missing (Demand.texts ds)).length

/-- What meeting one demand does to the cost of those that follow. A text is paid for once, and
found by all demands that follow. -/
theorem serve?_cases (s : Supply) (d : Demand) (ds : List Demand) :
    (s.serve? d = some s ∧ s.cost (d :: ds) = s.cost ds) ∨
      (s.next < Label.numberLimit ∧ ∃ s', s.serve? d = some s' ∧ s'.next = s.next + 1 ∧
        s.cost (d :: ds) = s'.cost ds + 1) ∨
      (Label.numberLimit ≤ s.next ∧ s.serve? d = none ∧ s.next < s.next + s.cost (d :: ds)) := by
  cases d with
  | number =>
    by_cases hn : s.next < Label.numberLimit
    · refine .inr (.inl ⟨hn, s.advance, by simp [serve?, number?, hn, advance], rfl, ?_⟩)
      simp only [cost, Demand.labels_cons_number, Demand.texts_cons_number, strings_advance]
      omega
    · refine .inr (.inr ⟨by omega, by simp [serve?, number?, hn], ?_⟩)
      simp only [cost, Demand.labels_cons_number]
      omega
  | text t =>
    cases hf : s.strings.find? t with
    | some l =>
      refine .inl ⟨by simp [serve?, intern?_of_find? hf], ?_⟩
      simp [cost, StringPool.missing_cons_of_find? hf]
    | none =>
      have hm := StringPool.missing_cons_of_new hf (Demand.texts ds) s.next
      by_cases hn : s.next < Label.numberLimit
      · refine .inr (.inl ⟨hn, ⟨s.next + 1, s.strings.add t s.next⟩, ?_, rfl, ?_⟩)
        · simp [serve?, intern?, hf, number?, hn]
        · simp only [cost, Demand.labels_cons_text, Demand.texts_cons_text, hm, List.length_cons]
          omega
      · refine .inr (.inr ⟨by omega, by simp [serve?, intern?, hf, number?, hn], ?_⟩)
        simp only [cost, Demand.texts_cons_text, hm, List.length_cons]
        omega

/-- Demands that are met take exactly their cost, and those that are not cost more than is left.
What a demand takes is added to the next number and taken off the cost of the rest, so that the sum
stays. -/
theorem serveAll?_spec {s : Supply} (hs : s.next ≤ Label.numberLimit) (ds : List Demand) :
    (∃ s', s.serveAll? ds = some s' ∧ s'.next = s.next + s.cost ds ∧
      s.next + s.cost ds ≤ Label.numberLimit) ∨
      (s.serveAll? ds = none ∧ Label.numberLimit < s.next + s.cost ds) := by
  induction ds generalizing s with
  | nil =>
    exact .inl ⟨s, rfl, by simp [cost, StringPool.missing],
      by simpa [cost, StringPool.missing] using hs⟩
  | cons d ds ih =>
    rw [serveAll?_cons]
    rcases serve?_cases s d ds with ⟨hd, hc⟩ | ⟨hn, s₁, hd, hnext, hc⟩ | ⟨hn, hd, hc⟩
    · rw [hd, hc]
      exact ih hs
    · rw [hd, hc, Option.bind_some]
      rcases ih (s := s₁) (by omega) with ⟨s', h, hnext', hle⟩ | ⟨h, hlt⟩
      · exact .inl ⟨s', h, by omega, by omega⟩
      · exact .inr ⟨h, by omega⟩
    · rw [hd]
      exact .inr ⟨rfl, by omega⟩

end Supply

namespace Emit

variable {α β : Type}

/-- The step succeeds exactly if the demands can be met, leaves the supply that they leave, and else
runs out of numbers. -/
structure Serves (x : Emit α) (ds : List Demand) : Prop where
  yields : ∀ s s', s.serveAll? ds = some s' → ∃ a items, x.Yields s a items s'
  exhausts : ∀ s, s.serveAll? ds = none → (x s).result = .error .labelsExhausted

theorem serves_pure (a : α) : (Pure.pure a : Emit α).Serves [] :=
  ⟨fun _ _ h => ⟨a, [], yields_pure_iff.2 ⟨rfl, rfl, (Option.some.inj h).symm⟩⟩,
    fun _ h => by simp at h⟩

theorem serves_item (i : Item) : (item i).Serves [] :=
  ⟨fun _ _ h => ⟨(), [i], yields_item_iff.2 ⟨rfl, (Option.some.inj h).symm⟩⟩,
    fun _ h => by simp at h⟩

theorem serves_on (o : Opcode) (x : Operand) : (on o x).Serves [] := serves_item _

theorem serves_bare (o : Opcode) : (bare o).Serves [] := serves_item _

theorem serves_mark (l : Label) : (mark l).Serves [] := serves_item _

/-- A draw from the supply meets the demand that it stands for. -/
theorem serves_ofSupply {draw : Supply → Option (Label × Supply)} {d : Demand}
    (h : ∀ s, s.serve? d = (draw s).map Prod.snd) : (ofSupply draw).Serves [d] := by
  constructor
  · intro s s' hs
    rw [Supply.serveAll?_cons, h] at hs
    obtain ⟨s₁, hs₁, hs'⟩ := Option.bind_eq_some_iff.1 hs
    obtain ⟨⟨l, s₂⟩, hd, rfl⟩ := Option.map_eq_some_iff.1 hs₁
    obtain rfl := Option.some.inj hs'
    exact ⟨l, [], yields_ofSupply_iff.2 ⟨hd, rfl⟩⟩
  · intro s hs
    rw [Supply.serveAll?_cons, h] at hs
    cases hd : draw s with
    | none => simp [ofSupply, hd]
    | some x => simp [hd] at hs

theorem serves_fresh (stem : String) : (fresh stem).Serves [.number] :=
  serves_ofSupply fun s => by simp [Supply.serve?, Supply.fresh?, Function.comp_def]

theorem serves_intern (text : String) : (intern text).Serves [.text text] :=
  serves_ofSupply fun _ => rfl

theorem Serves.bind {x : Emit α} {f : α → Emit β} {ds es : List Demand} (hx : x.Serves ds)
    (hf : ∀ a, (f a).Serves es) : (x >>= f).Serves (ds ++ es) := by
  constructor
  · intro s s' hs
    rw [Supply.serveAll?_append] at hs
    obtain ⟨s₁, hs₁, hs'⟩ := Option.bind_eq_some_iff.1 hs
    obtain ⟨a, i, hi⟩ := hx.yields s s₁ hs₁
    obtain ⟨b, j, hj⟩ := (hf a).yields s₁ s' hs'
    exact ⟨b, i ++ j, yields_bind_iff.2 ⟨a, i, s₁, j, hi, hj, rfl⟩⟩
  · intro s hs
    rw [Supply.serveAll?_append] at hs
    cases hs₁ : s.serveAll? ds with
    | none => rw [bind_apply_of_error (hx.exhausts s hs₁)]
    | some s₁ =>
      obtain ⟨a, i, hi⟩ := hx.yields s s₁ hs₁
      have hok : (x s).result = .ok a := by rw [hi]
      have hsupply : (x s).supply = s₁ := by rw [hi]
      rw [hs₁, Option.bind_some] at hs
      rw [bind_apply_of_ok hok, hsupply]
      exact (hf a).exhausts s₁ hs

/-- What draws nothing may follow or precede. -/
theorem Serves.concat {x : Emit α} {f : α → Emit β} {ds : List Demand} (hx : x.Serves ds)
    (hf : ∀ a, (f a).Serves []) : (x >>= f).Serves ds := by
  simpa using hx.bind hf

theorem Serves.seq {x : Emit α} {f : α → Emit β} {ds : List Demand} (hx : x.Serves [])
    (hf : ∀ a, (f a).Serves ds) :
    (x >>= f).Serves ds := hx.bind hf

theorem Serves.run_eq_ok {x : Emit Unit} {ds : List Demand} (hx : x.Serves ds) {s s' : Supply}
    (hs : s.serveAll? ds = some s') : ∃ code, x.run s = (.ok code, s') := by
  obtain ⟨u, items, hi⟩ := hx.yields s s' hs
  exact ⟨Code.settle items, by rw [run, hi]; rfl⟩

theorem Serves.run_eq_error {x : Emit Unit} {ds : List Demand} (hx : x.Serves ds) {s : Supply}
    (hs : s.serveAll? ds = none) : ∃ s', x.run s = (.error .labelsExhausted, s') :=
  ⟨(x s).supply, by rw [run, hx.exhausts s hs]; rfl⟩

end Emit
end TreeAsm

import TreeAsm.Proofs.Closure
import TreeAsm.Proofs.Demands
import TreeAsm.Proofs.LabelUniqueness
import TreeAsm.Session

/-! Labels over a whole session. Whatever the steps draw, and also when a compilation stops halfway,
the numbers go up only; so no two labels that a session brings up have the same text, even if the
stems are not identifiers. -/
namespace TreeAsm

namespace Label

/-- The number that the digits at the end of a text give. -/
def trailingNumber (text : String) : Nat :=
  digitsValue (text.toList.reverse.takeWhile Char.isDigit).reverse

/-- The number of a generated label can be read off its text, whatever the stem is. -/
theorem trailingNumber_text (stem : String) (n : Nat) :
    trailingNumber (generated stem n).text = n := by
  have hdigits : ∀ c ∈ (natText n).reverse, c.isDigit = true := by
    intro c hc
    exact isDigit_of_mem_natText (List.mem_reverse.1 hc)
  have hsplit : (generated stem n).text.toList.reverse =
      (natText n).reverse ++ '.' :: stem.toList.reverse := by
    simp [toList_text, base, suffix]
  rw [trailingNumber, hsplit, List.takeWhile_append_of_pos hdigits,
    List.takeWhile_cons_of_neg (by decide), List.append_nil, List.reverse_reverse,
    digitsValue_natText]

/-- Generated labels whose numbers are distinct and lie between the two. -/
structure Numbered (lo hi : Nat) (ls : List Label) : Prop where
  bounds : ∀ l ∈ ls, ∃ stem n, l = generated stem n ∧ lo ≤ n ∧ n < hi
  nodup : (ls.map number?).Nodup

namespace Numbered

variable {lo mid hi : Nat} {ls ms : List Label}

theorem nil (lo hi : Nat) : Numbered lo hi [] := ⟨by simp, by simp⟩

theorem single (stem : String) (n : Nat) : Numbered n (n + 1) [generated stem n] where
  bounds l hl := ⟨stem, n, by simpa using hl, Nat.le_refl n, Nat.lt_succ_self n⟩
  nodup := by simp

theorem append (hle : lo ≤ mid) (hle' : mid ≤ hi) (hl : Numbered lo mid ls)
    (hm : Numbered mid hi ms) : Numbered lo hi (ls ++ ms) where
  bounds l hmem := by
    rcases List.mem_append.1 hmem with hmem | hmem
    · obtain ⟨stem, n, rfl, hlo, hhi⟩ := hl.bounds l hmem
      exact ⟨stem, n, rfl, hlo, by omega⟩
    · obtain ⟨stem, n, rfl, hlo, hhi⟩ := hm.bounds l hmem
      exact ⟨stem, n, rfl, by omega, hhi⟩
  nodup := by
    rw [List.map_append, List.nodup_append]
    refine ⟨hl.nodup, hm.nodup, ?_⟩
    intro a ha b hb hab
    obtain ⟨l, hl', rfl⟩ := List.mem_map.1 ha
    obtain ⟨m, hm', rfl⟩ := List.mem_map.1 hb
    obtain ⟨stem, n, rfl, -, hhi⟩ := hl.bounds l hl'
    obtain ⟨stem', n', rfl, hlo, -⟩ := hm.bounds m hm'
    obtain rfl : n = n' := Option.some.inj hab
    omega

/-- Such labels have different texts, even if their stems have dots and digits. -/
theorem nodup_texts (h : Numbered lo hi ls) : (ls.map text).Nodup := by
  have heq : (ls.map text).map (fun t => some (trailingNumber t)) = ls.map number? := by
    rw [List.map_map]
    refine List.map_congr_left fun l hl => ?_
    obtain ⟨stem, n, rfl, -, -⟩ := h.bounds l hl
    exact congrArg some (trailingNumber_text stem n)
  exact List.Nodup.of_map _ (heq ▸ h.nodup)

end Numbered
end Label

/-- The labels with numbers that the program defines. -/
def Program.generatedLabels (p : Program) : List Label :=
  (Code.labels p.instructions).filter fun l => l.number?.isSome

namespace Build

variable {s : Script} {source : String} {seed : Nat} {p : Program}

theorem generatedLabels_perm (b : Build s source seed p) :
    p.generatedLabels.Perm b.numberedLabels := by
  have hnamed : b.namedLabels.filter (fun l => l.number?.isSome) = [] := by
    rw [List.filter_eq_nil_iff]
    intro l hl
    rcases List.mem_append.1 hl with hl | hl
    · obtain ⟨g, -, rfl⟩ := List.mem_map.1 hl
      simp [Label.number?]
    · simp only [List.mem_cons, List.mem_flatMap, Frame.ownLabels, List.mem_map] at hl
      rcases hl with rfl | ⟨f, -, rfl | rfl | rfl | ⟨n, -, rfl⟩⟩ <;> simp [Label.number?]
  have hnumbered : b.numberedLabels.filter (fun l => l.number?.isSome) = b.numberedLabels := by
    rw [List.filter_eq_self]
    intro l hl
    obtain ⟨stem, -, n, rfl⟩ := b.generated_of_mem_numberedLabels l hl
    rfl
  have h := b.labels_perm.filter fun l => l.number?.isSome
  rwa [List.filter_append, hnamed, hnumbered, List.nil_append] at h

/-- The generated labels of a program have the numbers that its compilation has drawn. -/
theorem numbered_generatedLabels (b : Build s source seed p) :
    Label.Numbered seed (s.compileFrom source seed).next p.generatedLabels where
  bounds l hl := by
    have hl := b.generatedLabels_perm.mem_iff.1 hl
    obtain ⟨stem, -, n, rfl⟩ := b.generated_of_mem_numberedLabels l hl
    have hcount := b.count_number?_numberedLabels n
    have hpos : 0 < (b.numberedLabels.filterMap Label.number?).count n :=
      List.count_pos_iff.2 (List.mem_filterMap.2 ⟨_, hl, rfl⟩)
    refine ⟨stem, n, rfl, ?_⟩
    rw [b.next_eq]
    by_contra hn
    rw [if_neg hn] at hcount
    omega
  nodup := (b.generatedLabels_perm.map Label.number?).nodup_iff.2 b.nodup_map_number?_numberedLabels

end Build

namespace Session

/-- The text that a step interns. -/
def Step.text? : Step → Option String
  | .intern text => some text
  | _ => none

/-- The labels that a reply brings up, after these texts have been interned. -/
def brought (seen : List String) : Step → Reply → List Label
  | .fresh _, .label l => [l]
  | .intern text, .label l => if text ∈ seen then [] else [l]
  | .compile .., .compiled (.ok p) => p.generatedLabels
  | _, _ => []

/-- The labels that the replies bring up, one step after another. -/
def introduced (seen : List String) : List (Step × Reply) → List Label
  | [] => []
  | (x, reply) :: rest => brought seen x reply ++ introduced (x.text?.toList ++ seen) rest

/-- The next number before each step, and after the last. -/
def counters (seed : Nat) (replies : List (Reply × Supply)) : List Nat :=
  seed :: replies.map fun r => r.2.next

/-- The supply before each step, and after the last. -/
def states (s : Supply) (replies : List (Reply × Supply)) : List Supply := s :: replies.map Prod.snd

/-- The texts are those that have a label. -/
def Knows (s : Supply) (seen : List String) : Prop :=
  ∀ t, t ∈ seen ↔ (s.strings.find? t).isSome = true

/-- What one step does: numbers go up and constants stay, and what it brings up is numbered from
there. -/
structure Advance (s : Supply) (x : Step) (reply : Reply) (s' : Supply) : Prop where
  next_le : s.next ≤ s'.next
  find?_eq : ∀ t l, s.strings.find? t = some l → s'.strings.find? t = some l
  knows : ∀ seen, Knows s seen → Knows s' (x.text?.toList ++ seen)
  numbered : ∀ seen, Knows s seen → Label.Numbered s.next s'.next (brought seen x reply)

variable {s s' : Supply} {reply : Reply}

theorem drawn_eq_ok_iff {o : Option (Label × Supply)} :
    drawn o = .ok (reply, s') ↔ ∃ l, o = some (l, s') ∧ reply = .label l := by
  cases o with
  | none => simp [drawn]
  | some x =>
    obtain ⟨l, t⟩ := x
    simp only [drawn, Except.ok.injEq, Prod.mk.injEq, Option.some.injEq]
    constructor
    · rintro ⟨rfl, rfl⟩
      exact ⟨l, ⟨rfl, rfl⟩, rfl⟩
    · rintro ⟨m, ⟨rfl, rfl⟩, rfl⟩
      exact ⟨rfl, rfl⟩

/-- A label takes the next number. -/
theorem step_fresh {stem : String} (h : step s (.fresh stem) = .ok (reply, s')) :
    reply = .label (.generated stem s.next) ∧ s' = ⟨s.next + 1, s.strings⟩ := by
  obtain ⟨l, hd, rfl⟩ := drawn_eq_ok_iff.1 h
  obtain ⟨-, rfl, rfl⟩ := Supply.fresh?_eq_some_iff.1 hd
  exact ⟨rfl, rfl⟩

/-- A text that is known gets its label again, and nothing changes. -/
theorem step_intern_of_find? {text : String} {l : Label} (h : s.strings.find? text = some l) :
    step s (.intern text) = .ok (.label l, s) := by
  rw [step, Supply.intern?_of_find? h]
  rfl

/-- A text that is new gets the next number. -/
theorem step_intern_of_find?_eq_none {text : String} (hf : s.strings.find? text = none)
    (h : step s (.intern text) = .ok (reply, s')) :
    reply = .label (StringPool.labelOf s.next) ∧ s' = ⟨s.next + 1, s.strings.add text s.next⟩ := by
  obtain ⟨l, hd, rfl⟩ := drawn_eq_ok_iff.1 h
  rcases Supply.intern?_cases hd with ⟨n, hn, -, -⟩ | ⟨-, rfl, rfl⟩
  · have hnone := List.lookup_eq_none_iff.1 (Option.map_eq_none_iff.1 hf) (text, n) hn
    simp at hnone
  · exact ⟨rfl, rfl⟩

/-- A text that has been interned is found, under the label of the reply. -/
theorem find?_of_step_intern {t : String} (h : step s (.intern t) = .ok (reply, s')) :
    ∃ l, reply = .label l ∧ s'.strings.find? t = some l := by
  cases hf : s.strings.find? t with
  | some l =>
    rw [step_intern_of_find? hf] at h
    obtain ⟨rfl, rfl⟩ : .label l = reply ∧ s = s' := by simpa using h
    exact ⟨l, rfl, hf⟩
  | none =>
    obtain ⟨rfl, rfl⟩ := step_intern_of_find?_eq_none hf h
    exact ⟨_, rfl, by simp [StringPool.find?_add, hf]⟩

theorem advance_fresh {stem : String} (h : step s (.fresh stem) = .ok (reply, s')) :
    Advance s (.fresh stem) reply s' := by
  obtain ⟨rfl, rfl⟩ := step_fresh h
  exact ⟨Nat.le_succ _, fun t l ht => ht, fun seen hs => hs, fun seen _ => .single stem _⟩

theorem advance_intern {text : String} (h : step s (.intern text) = .ok (reply, s')) :
    Advance s (.intern text) reply s' := by
  cases hf : s.strings.find? text with
  | some l =>
    obtain ⟨rfl, rfl⟩ : .label l = reply ∧ s = s' := by simpa [step_intern_of_find? hf] using h
    have hseen : ∀ seen, Knows s seen → text ∈ seen := fun seen hs => (hs text).2 (by simp [hf])
    refine ⟨Nat.le_refl _, fun t l ht => ht, fun seen hs t => ?_, fun seen hs => ?_⟩
    · rw [← hs t]
      have := hseen seen hs
      simp only [Step.text?, Option.toList_some, List.singleton_append, List.mem_cons]
      exact ⟨fun ht => ht.elim (· ▸ this) id, .inr⟩
    · rw [brought, if_pos (hseen seen hs)]
      exact .nil _ _
  | none =>
    obtain ⟨rfl, rfl⟩ := step_intern_of_find?_eq_none hf h
    refine ⟨Nat.le_succ _, fun t l ht => ?_, fun seen hs t => ?_, fun seen hs => ?_⟩
    · simp [StringPool.find?_add, ht]
    · rw [StringPool.find?_add, Option.isSome_or, Bool.or_eq_true, ← hs t]
      simp only [Step.text?, Option.toList_some, List.singleton_append, List.mem_cons]
      by_cases ht : t = text <;> simp [ht]
    · have hnew : text ∉ seen := fun hm => by simpa [hf] using (hs text).1 hm
      rw [brought, if_neg hnew]
      exact .single "str" _

theorem advance_compile {script : Script} {source : String}
    (h : step s (.compile script source) = .ok (reply, s')) :
    Advance s (.compile script source) reply s' := by
  simp only [step] at h
  have hle := script.seed_le_next source s.next
  split at h
  next p hp =>
    obtain ⟨rfl, rfl⟩ : .compiled (.ok p) = reply ∧ _ = s' := by simpa using h
    obtain ⟨b⟩ := Build.nonempty hp
    exact ⟨hle, fun t l ht => ht, fun seen hs => hs, fun seen _ => b.numbered_generatedLabels⟩
  next e he =>
    obtain ⟨rfl, rfl⟩ : .compiled (.error e) = reply ∧ _ = s' := by simpa using h
    exact ⟨hle, fun t l ht => ht, fun seen hs => hs, fun seen _ => .nil _ _⟩
  next => simp at h

theorem advance_step {x : Step} (h : step s x = .ok (reply, s')) : Advance s x reply s' := by
  cases x with
  | fresh stem => exact advance_fresh h
  | intern text => exact advance_intern h
  | declarations =>
    obtain ⟨rfl, rfl⟩ : .declarations s.strings.declarations = reply ∧ s = s' := by
      simpa [step] using h
    exact ⟨Nat.le_refl _, fun t l ht => ht, fun seen hs => hs, fun seen _ => .nil _ _⟩
  | compile script source => exact advance_compile h

theorem run_cons {x : Step} {rest : List Step} {replies : List (Reply × Supply)}
    (h : run s (x :: rest) = .ok replies) :
    ∃ reply s' others, step s x = .ok (reply, s') ∧ run s' rest = .ok others ∧
      replies = (reply, s') :: others := by
  rw [run] at h
  split at h
  next => simp at h
  next reply s' hx =>
    cases hr : run s' rest with
    | error f => simp [hr, Except.map] at h
    | ok others =>
      rw [hr] at h
      exact ⟨reply, s', others, hx, hr, (Except.ok.inj h).symm⟩

variable {steps : List Step} {replies : List (Reply × Supply)}

theorem length_run (h : run s steps = .ok replies) : replies.length = steps.length := by
  induction steps generalizing s replies with
  | nil =>
    obtain rfl := Except.ok.inj h
    rfl
  | cons x rest ih =>
    obtain ⟨reply, s', others, -, hr, rfl⟩ := run_cons h
    simp [ih hr]

/-- A transitive relation in which every step goes on holds between any state of a session and the
later ones. -/
theorem pairwise_states {R : Supply → Supply → Prop} (htrans : ∀ {a b c}, R a b → R b c → R a c)
    (hstep : ∀ {s s' x reply}, step s x = .ok (reply, s') → R s s')
    (h : run s steps = .ok replies) :
    (states s replies).Pairwise R := by
  induction steps generalizing s replies with
  | nil =>
    obtain rfl := Except.ok.inj h
    simp [states]
  | cons x rest ih =>
    obtain ⟨reply, s', others, hx, hr, rfl⟩ := run_cons h
    have hrest : (states s' others).Pairwise R := ih hr
    refine List.pairwise_cons.2 ⟨fun u hu => ?_, hrest⟩
    rcases List.mem_cons.1 hu with rfl | hu
    · exact hstep hx
    · exact htrans (hstep hx) ((List.pairwise_cons.1 hrest).1 u hu)

/-- The numbers go up along a session. -/
theorem pairwise_counters (h : run s steps = .ok replies) :
    (counters s.next replies).Pairwise (· ≤ ·) := by
  have hmap : counters s.next replies = (states s replies).map Supply.next := by
    simp [counters, states]
  rw [hmap, List.pairwise_map]
  exact pairwise_states Nat.le_trans (fun hx => (advance_step hx).next_le) h

/-- The labels that a session brings up have numbers of their own, all of them new. The rest of the
session starts behind the numbers of the first step, with its text among those seen. -/
theorem numbered_introduced {seen : List String} (hs : Knows s seen)
    (h : run s steps = .ok replies) :
    ∃ hi, s.next ≤ hi ∧
      Label.Numbered s.next hi (introduced seen (steps.zip (replies.map Prod.fst))) := by
  induction steps generalizing s seen replies with
  | nil => exact ⟨s.next, Nat.le_refl _, .nil _ _⟩
  | cons x rest ih =>
    obtain ⟨reply, s', others, hx, hr, rfl⟩ := run_cons h
    have hstep := advance_step hx
    obtain ⟨hi, hle, hrest⟩ := ih (hstep.knows seen hs) hr
    exact ⟨hi, Nat.le_trans hstep.next_le hle,
      .append hstep.next_le hle (hstep.numbered seen hs) hrest⟩

/-- A text that has a label gets it at every later step, and no number is drawn for it. -/
theorem reply_of_find? {text : String} {l : Label} (hf : s.strings.find? text = some l)
    (h : run s steps = .ok replies) {j : Nat} (hj : steps[j]? = some (.intern text)) :
    ∃ u, replies[j]? = some (.label l, u) ∧ (counters s.next replies)[j]? = some u.next := by
  induction steps generalizing s replies j with
  | nil => simp at hj
  | cons x rest ih =>
    obtain ⟨reply, s', others, hx, hr, rfl⟩ := run_cons h
    cases j with
    | zero =>
      obtain rfl : x = .intern text := by simpa using hj
      rw [step_intern_of_find? hf] at hx
      obtain ⟨rfl, rfl⟩ : .label l = reply ∧ s = s' := by simpa using hx
      exact ⟨s, rfl, rfl⟩
    | succ j => exact ih ((advance_step hx).find?_eq _ _ hf) hr (by simpa using hj)

/-- Interning the same text again. -/
theorem reply_again {text : String} (h : run s steps = .ok replies) {i j : Nat} (hij : i < j)
    (hi : steps[i]? = some (.intern text)) (hj : steps[j]? = some (.intern text)) :
    ∃ l u u', replies[i]? = some (.label l, u) ∧ replies[j]? = some (.label l, u') ∧
      (counters s.next replies)[j]? = some u'.next := by
  induction steps generalizing s replies i j with
  | nil => simp at hi
  | cons x rest ih =>
    obtain ⟨reply, s', others, hx, hr, rfl⟩ := run_cons h
    obtain ⟨j, rfl⟩ : ∃ k, j = k + 1 := ⟨j - 1, by omega⟩
    cases i with
    | succ i => exact ih hr (by omega) (by simpa using hi) (by simpa using hj)
    | zero =>
      obtain rfl : x = .intern text := by simpa using hi
      obtain ⟨l, rfl, hl⟩ := find?_of_step_intern hx
      obtain ⟨u, hu, hc⟩ := reply_of_find? hl hr (j := j) (by simpa using hj)
      exact ⟨l, s', u, rfl, hu, hc⟩

/-- Over a whole session the numbers go up only, no two labels that it brings up have the same text,
and a text that is interned again gets its label again and draws no number. -/
theorem labels_unique_over_session {seed : Nat} (h : run (.start seed) steps = .ok replies) :
    replies.length = steps.length ∧ (counters seed replies).Pairwise (· ≤ ·) ∧
    ((introduced [] (steps.zip (replies.map Prod.fst))).map Label.text).Nodup ∧
    ∀ (i j : Nat) (text : String), i < j → steps[i]? = some (.intern text) →
      steps[j]? = some (.intern text) →
      ∃ l u u', replies[i]? = some (.label l, u) ∧ replies[j]? = some (.label l, u') ∧
        (counters seed replies)[j]? = some u'.next := by
  have hstart : Knows (.start seed) [] :=
    fun t => by simp [Supply.start, StringPool.empty, StringPool.find?]
  obtain ⟨hi, -, hnumbered⟩ := numbered_introduced hstart h
  exact ⟨length_run h, pairwise_counters h, hnumbered.nodup_texts, fun i j text hij hi hj =>
    reply_again h hij hi hj⟩

/-- Stems with dots and digits, a text before and after a compilation that stops halfway, and one
that succeeds. -/
def mixedSteps : List Step :=
  [.fresh "p.7", .intern "p",
    .compile ⟨[.ifElse 1 (.literal (.bool true)) [.eval 2 (.literal (.str "p"))]
      [.eval 3 (.call "nowhere" [])]]⟩ "halfway", .intern "p", .compile Script.stemNames "stems",
        .fresh "p", .fresh "",
    .declarations]

theorem mixedSteps_labels_unique : ∃ replies, run (.start 7) mixedSteps = .ok replies ∧
    replies.length = mixedSteps.length ∧ (counters 7 replies).Pairwise (· ≤ ·) ∧
    ((introduced [] (mixedSteps.zip (replies.map Prod.fst))).map Label.text).Nodup ∧
    ∃ l u u', replies[1]? = some (.label l, u) ∧ replies[3]? = some (.label l, u') ∧
      (counters 7 replies)[3]? = some u'.next := by
  obtain ⟨replies, h⟩ : ∃ replies, run (.start 7) mixedSteps = .ok replies :=
    exists_eq_ok (by decide)
  obtain ⟨hlength, hcounters, htexts, hagain⟩ := labels_unique_over_session h
  exact ⟨replies, h, hlength, hcounters, htexts, hagain 1 3 "p" (by decide) rfl rfl⟩

end Session
end TreeAsm

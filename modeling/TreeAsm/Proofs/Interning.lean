import TreeAsm.Proofs.ByteStrings
import TreeAsm.Proofs.Sessions
import Mathlib.Data.List.Pairwise

/-! String constants over a whole session. Whatever else draws numbers in between, texts and labels
stay one to one, the constants are listed in the order in which their texts first came, and no later
step touches what is listed. -/
namespace TreeAsm

namespace StringPool

/-- The texts with their labels, as they are listed. -/
def constants (p : StringPool) : List (String × Label) := p.entries.map fun e => (e.1, labelOf e.2)

/-- Looking up and listing give one relation, in which a text has one label and a label one text. -/
structure OneToOne (p : StringPool) : Prop where
  find?_eq_some_iff : ∀ t l, p.find? t = some l ↔ (t, l) ∈ p.constants
  nodup_texts : (p.constants.map Prod.fst).Nodup
  nodup_labels : (p.constants.map fun c => c.2.text).Nodup

theorem text_labelOf_inj {m n : Nat} : (labelOf m).text = (labelOf n).text ↔ m = n := by
  refine ⟨fun h => ?_, fun h => h ▸ rfl⟩
  have hnumber := congrArg Label.trailingNumber h
  rwa [labelOf, labelOf, Label.trailingNumber_text, Label.trailingNumber_text] at hnumber

theorem labelOf_inj {m n : Nat} : labelOf m = labelOf n ↔ m = n := by simp [labelOf]

theorem exists_mem_entries_of_find? {p : StringPool} {t : String} {l : Label}
    (h : p.find? t = some l) : ∃ n, (t, n) ∈ p.entries ∧ l = labelOf n := by
  obtain ⟨n, hn, rfl⟩ := Option.map_eq_some_iff.1 h
  obtain ⟨before, after, he, -⟩ := List.lookup_eq_some_iff.1 hn
  exact ⟨n, by simp [he], rfl⟩

end StringPool

open StringPool

namespace Supply

/-- No text and no number is listed twice, and the numbers of the constants have been drawn. -/
structure Orderly (s : Supply) : Prop where
  texts : (s.strings.entries.map Prod.fst).Nodup
  numbers : (s.strings.entries.map Prod.snd).Nodup
  drawn : ∀ e ∈ s.strings.entries, e.2 < s.next

namespace Orderly

variable {s s' : Supply}

theorem start (seed : Nat) : (Supply.start seed).Orderly :=
  ⟨.nil, .nil, by simp [Supply.start, StringPool.empty]⟩

/-- Numbers may be drawn for other things. -/
theorem mono (h : s.Orderly) (hstrings : s'.strings = s.strings) (hle : s.next ≤ s'.next) :
    s'.Orderly where
  texts := hstrings ▸ h.texts
  numbers := hstrings ▸ h.numbers
  drawn e he := Nat.lt_of_lt_of_le (h.drawn e (hstrings ▸ he)) hle

theorem add (h : s.Orderly) {t : String} (ht : s.strings.find? t = none) :
    (Supply.mk (s.next + 1) (s.strings.add t s.next)).Orderly where
  texts := nodup_texts_add h.texts (Option.map_eq_none_iff.1 ht) s.next
  numbers := by
    have hnew : s.next ∉ s.strings.entries.map Prod.snd := by
      intro hm
      obtain ⟨e, he, hnext⟩ := List.mem_map.1 hm
      exact Nat.ne_of_lt (h.drawn e he) hnext
    simp only [StringPool.add, List.map_append, List.map_cons, List.map_nil]
    exact List.nodup_append_comm.1 (List.nodup_cons.2 ⟨hnew, h.numbers⟩)
  drawn e he := by
    rcases List.mem_append.1 he with he | he
    · exact Nat.lt_succ_of_lt (h.drawn e he)
    · obtain rfl := List.mem_singleton.1 he
      exact Nat.lt_succ_self _

/-- Two constants have the same text if and only if they have the same number. -/
theorem fst_eq_iff (h : s.Orderly) {e e' : String × Nat} (he : e ∈ s.strings.entries)
    (he' : e' ∈ s.strings.entries) : e.1 = e'.1 ↔ e.2 = e'.2 :=
  ⟨fun ht => congrArg Prod.snd (List.inj_on_of_nodup_map h.texts he he' ht),
    fun hn => congrArg Prod.fst (List.inj_on_of_nodup_map h.numbers he he' hn)⟩

theorem find?_of_mem (h : s.Orderly) {e : String × Nat} (he : e ∈ s.strings.entries) :
    s.strings.find? e.1 = some (labelOf e.2) := by
  cases hf : s.strings.find? e.1 with
  | none =>
    exact absurd (List.mem_map.2 ⟨e, he, rfl⟩)
      (not_mem_texts_of_lookup (Option.map_eq_none_iff.1 hf))
  | some l =>
    obtain ⟨n, hn, rfl⟩ := exists_mem_entries_of_find? hf
    exact congrArg (some ∘ labelOf) ((h.fst_eq_iff hn he).1 rfl)

theorem oneToOne (h : s.Orderly) : s.strings.OneToOne where
  find?_eq_some_iff t l := by
    constructor
    · intro hf
      obtain ⟨n, hn, rfl⟩ := exists_mem_entries_of_find? hf
      exact List.mem_map.2 ⟨_, hn, rfl⟩
    · intro hm
      obtain ⟨e, he, hc⟩ := List.mem_map.1 hm
      obtain ⟨rfl, rfl⟩ := Prod.mk.inj hc
      exact h.find?_of_mem he
  nodup_texts := by
    rw [constants, List.map_map]
    exact h.texts
  nodup_labels := by
    have hlabels : (s.strings.entries.map Prod.snd).map (fun n => (labelOf n).text) =
        s.strings.constants.map fun c => c.2.text := by
      simp [constants]
    rw [← hlabels]
    exact h.numbers.map fun m n hmn => text_labelOf_inj.1 hmn

end Orderly
end Supply

namespace Session

/-- The texts that the steps intern, in order. -/
def texts (steps : List Step) : List String := steps.filterMap Step.text?

/-- Enters the text that a step interns under the label that it gets, unless the text is there
already. -/
def note (table : Std.HashMap String Label) : Step × Reply → Std.HashMap String Label
  | (.intern text, .label l) => table.insertIfNew text l
  | _ => table

/-- The table of labels that is kept beside the constants while these steps are done. -/
def noted (done : List (Step × Reply)) : Std.HashMap String Label := done.foldl note ∅

/-- The first `k` steps of a session, with the replies to them. -/
def history (steps : List Step) (replies : List (Reply × Supply)) (k : Nat) : List (Step × Reply) :=
  (steps.zip (replies.map Prod.fst)).take k

/-- How the constants come from what has been done: their texts are listed in the order of their
first use, and looking up one of them gives the label that is noted for it. -/
structure Tracks (done : List (Step × Reply)) (s : Supply) : Prop where
  texts_eq : s.strings.entries.map Prod.fst = (texts (done.map Prod.fst)).eraseDups
  noted_eq : ∀ t, (noted done)[t]? = s.strings.find? t

variable {s s' u v : Supply} {x : Step} {reply : Reply} {steps : List Step}
  {replies : List (Reply × Supply)}
  {done : List (Step × Reply)}

theorem noted_concat (done : List (Step × Reply)) (y : Step × Reply) :
    noted (done ++ [y]) = note (noted done) y :=
  List.foldl_concat ..

theorem texts_concat (xs : List Step) (x : Step) :
    texts (xs ++ [x]) = texts xs ++ x.text?.toList := by
  cases h : x.text? <;> simp [texts, h]

theorem note_eq_self (h : x.text? = none) (table : Std.HashMap String Label) :
    note table (x, reply) = table := by
  cases x with
  | intern text => simp [Step.text?] at h
  | fresh | declarations | compile => rfl

/-- What a step can do to the constants. -/
theorem step_cases (h : step s x = .ok (reply, s')) :
    (x.text? = none ∧ s'.strings = s.strings) ∨
    (∃ t l, x = .intern t ∧ s.strings.find? t = some l ∧ reply = .label l ∧ s' = s) ∨
    ∃ t, x = .intern t ∧ s.strings.find? t = none ∧ reply = .label (labelOf s.next) ∧
      s' = ⟨s.next + 1, s.strings.add t s.next⟩ := by
  cases x with
  | fresh stem =>
    obtain ⟨-, rfl⟩ := step_fresh h
    exact .inl ⟨rfl, rfl⟩
  | intern t =>
    cases hf : s.strings.find? t with
    | some l =>
      obtain ⟨rfl, rfl⟩ : .label l = reply ∧ s = s' := by simpa [step_intern_of_find? hf] using h
      exact .inr (.inl ⟨t, l, rfl, hf, rfl, rfl⟩)
    | none =>
      obtain ⟨hreply, hs'⟩ := step_intern_of_find?_eq_none hf h
      exact .inr (.inr ⟨t, rfl, hf, hreply, hs'⟩)
  | declarations =>
    obtain ⟨-, rfl⟩ : .declarations s.strings.declarations = reply ∧ s = s' := by
      simpa [step] using h
    exact .inl ⟨rfl, rfl⟩
  | compile script source =>
    refine .inl ⟨rfl, ?_⟩
    simp only [step] at h
    split at h
    next => exact (Prod.mk.inj (Except.ok.inj h)).2 ▸ rfl
    next => exact (Prod.mk.inj (Except.ok.inj h)).2 ▸ rfl
    next => simp at h

theorem orderly_step (h : step s x = .ok (reply, s')) (hs : s.Orderly) : s'.Orderly := by
  have hle := (advance_step h).next_le
  rcases step_cases h with ⟨-, hstrings⟩ | ⟨-, -, -, -, -, rfl⟩ | ⟨t, -, ht, -, rfl⟩
  · exact hs.mono hstrings hle
  · exact hs
  · exact hs.add ht

/-- A step adds to the end of the list at most. -/
theorem entries_step (h : step s x = .ok (reply, s')) :
    s.strings.entries <+: s'.strings.entries := by
  rcases step_cases h with ⟨-, hstrings⟩ | ⟨-, -, -, -, -, rfl⟩ | ⟨t, -, -, -, rfl⟩
  · simp [hstrings]
  · exact List.prefix_rfl
  · exact List.prefix_append _ _

theorem Tracks.mem_texts_iff (h : Tracks done s) {t : String} :
    t ∈ texts (done.map Prod.fst) ↔ t ∈ s.strings.entries.map Prod.fst := by
  rw [h.texts_eq, List.mem_eraseDups]

theorem Tracks.mem_noted_iff (h : Tracks done s) {t : String} :
    t ∈ noted done ↔ (s.strings.find? t).isSome = true := by
  rw [← Std.HashMap.isSome_getElem?_iff_mem, h.noted_eq]

theorem tracks_start (seed : Nat) : Tracks [] (.start seed) :=
  ⟨by simp [Supply.start, StringPool.empty, texts],
    by simp [Supply.start, StringPool.empty, find?, noted]⟩

/-- A text that has come before changes neither the order of first uses nor the table. -/
theorem tracks_step (h : step s x = .ok (reply, s')) (hs : Tracks done s) :
    Tracks (done ++ [(x, reply)]) s' := by
  have htexts : texts ((done ++ [(x, reply)]).map Prod.fst) =
      texts (done.map Prod.fst) ++ x.text?.toList := by
    rw [List.map_append]
    exact texts_concat _ x
  rcases step_cases h with ⟨htext, hstrings⟩ | ⟨t, l, rfl, hf, rfl, rfl⟩ | ⟨t, rfl, hf, rfl, rfl⟩
  · constructor
    · rw [htexts, htext, hstrings, hs.texts_eq, Option.toList_none, List.append_nil]
    · intro t
      rw [noted_concat, note_eq_self htext, hs.noted_eq, hstrings]
  · obtain ⟨n, hn, -⟩ := exists_mem_entries_of_find? hf
    have hmem : t ∈ texts (done.map Prod.fst) := hs.mem_texts_iff.2 (List.mem_map.2 ⟨_, hn, rfl⟩)
    have hnoted : t ∈ noted done := hs.mem_noted_iff.2 (hf ▸ rfl)
    constructor
    · rw [htexts, hs.texts_eq, List.eraseDups_append]
      simp [Step.text?, List.removeAll, hmem]
    · intro t'
      rw [noted_concat, note, Std.HashMap.getElem?_insertIfNew,
        if_neg (fun hnew => hnew.2 hnoted), hs.noted_eq]
  · have hmem : t ∉ texts (done.map Prod.fst) :=
      fun hm => not_mem_texts_of_lookup (Option.map_eq_none_iff.1 hf) (hs.mem_texts_iff.1 hm)
    have hnoted : t ∉ noted done := fun hm => by simpa [hf] using hs.mem_noted_iff.1 hm
    constructor
    · rw [htexts, List.eraseDups_append, ← hs.texts_eq]
      simp [Step.text?, List.removeAll, hmem, StringPool.add, List.eraseDups_cons]
    · intro t'
      rw [noted_concat, note, Std.HashMap.getElem?_insertIfNew, find?_add, hs.noted_eq]
      by_cases ht : t = t'
      · subst ht
        simp [hnoted, hf]
      · simp [ht, Ne.symm ht]

theorem length_states (h : run s steps = .ok replies) :
    (states s replies).length = steps.length + 1 := by
  simp [states, length_run h]

/-- What every step keeps holds all along. -/
theorem forall_states {P : Supply → Prop}
    (hstep : ∀ {s s' x reply}, step s x = .ok (reply, s') → P s → P s') (hs : P s)
    (h : run s steps = .ok replies) : ∀ u ∈ states s replies, P u := by
  have hpairs := pairwise_states (R := fun a b => P a → P b)
    (fun hab hbc ha => hbc (hab ha)) hstep h
  intro u hu
  rcases List.mem_cons.1 hu with rfl | hu
  · exact hs
  · exact (List.pairwise_cons.1 hpairs).1 u hu hs

theorem orderly_states (hs : s.Orderly) (h : run s steps = .ok replies) :
    ∀ u ∈ states s replies, u.Orderly :=
  forall_states orderly_step hs h

theorem pairwise_entries (h : run s steps = .ok replies) :
    (states s replies).Pairwise fun u v => u.strings.entries <+: v.strings.entries :=
  pairwise_states List.IsPrefix.trans entries_step h

/-- Also between constants of different moments, the text and the number determine each other. The
longer of the two lists has both constants. -/
theorem fst_eq_iff_of_states (hs : s.Orderly) (h : run s steps = .ok replies)
    (hu : u ∈ states s replies) (hv : v ∈ states s replies) {e e' : String × Nat}
    (he : e ∈ u.strings.entries) (he' : e' ∈ v.strings.entries) : e.1 = e'.1 ↔ e.2 = e'.2 := by
  have hpairs : (states s replies).Pairwise fun a b =>
      a.strings.entries <+: b.strings.entries ∨ b.strings.entries <+: a.strings.entries :=
    (pairwise_entries h).imp Or.inl
  have hsymm : Std.Symm fun a b : Supply =>
      a.strings.entries <+: b.strings.entries ∨ b.strings.entries <+: a.strings.entries :=
        ⟨fun _ _ => Or.symm⟩
  have hcompare := hpairs.forall_of_forall (fun _ _ => .inl List.prefix_rfl) hu hv
  rcases hcompare with hle | hle
  · exact (orderly_states hs h v hv).fst_eq_iff (hle.subset he) he'
  · exact (orderly_states hs h u hu).fst_eq_iff he (hle.subset he')

/-- What every step carries on to the longer history holds of the history of every state. The rest
of a session is a session of its own, whose histories all begin with the first step. -/
theorem history_induction {P : List (Step × Reply) → Supply → Prop}
    (hstep : ∀ {done s s' x reply}, step s x = .ok (reply, s') → P done s →
      P (done ++ [(x, reply)]) s')
    (hs : P [] s) (h : run s steps = .ok replies) {k : Nat} (hk : (states s replies)[k]? = some u) :
    P (history steps replies k) u := by
  induction steps generalizing s replies k P with
  | nil =>
    obtain rfl := Except.ok.inj h
    obtain ⟨rfl, rfl⟩ : k = 0 ∧ s = u := by simpa [states, List.getElem?_singleton] using hk
    exact hs
  | cons x rest ih =>
    obtain ⟨reply, s', others, hx, hr, rfl⟩ := run_cons h
    cases k with
    | zero =>
      obtain rfl : s = u := by simpa [states] using hk
      exact hs
    | succ k =>
      exact ih (P := fun done => P ((x, reply) :: done)) (fun hy hd => hstep hy hd) (hstep hx hs) hr
        (by simpa [states] using hk)

theorem fst_history (h : run s steps = .ok replies) (k : Nat) :
    (history steps replies k).map Prod.fst = steps.take k := by
  rw [history, List.map_take, List.map_fst_zip (by simp [length_run h])]

/-- The label in the reply is the one that the text has from then on. -/
theorem reply_intern {j : Nat} {t : String} (h : run s steps = .ok replies)
    (hj : steps[j]? = some (.intern t)) :
    ∃ l u, replies[j]? = some (.label l, u) ∧ u.strings.find? t = some l := by
  induction steps generalizing s replies j with
  | nil => simp at hj
  | cons x rest ih =>
    obtain ⟨reply, s', others, hx, hr, rfl⟩ := run_cons h
    cases j with
    | succ j => exact ih (j := j) hr (by simpa using hj)
    | zero =>
      obtain rfl : x = .intern t := by simpa using hj
      obtain ⟨l, rfl, hl⟩ := find?_of_step_intern hx
      exact ⟨l, s', rfl, hl⟩

theorem mem_states_of_reply {j : Nat} (h : replies[j]? = some (reply, u)) : u ∈ states s replies :=
  List.mem_cons_of_mem _ (List.mem_map.2 ⟨_, List.mem_of_getElem? h, rfl⟩)

/-- The instruction declares the text, under the label that every step gets that interns it. -/
def Declared (steps : List Step) (replies : List (Reply × Supply)) (text : String)
    (i : Instruction) : Prop :=
  ∃ l, i.DeclaresText l text ∧
    ∀ j : Nat, steps[j]? = some (.intern text) → ∃ u, replies[j]? = some (.label l, u)

/-- How the constants stand after the first `k` steps of a session. -/
structure Standing (steps : List Step) (replies : List (Reply × Supply)) (k : Nat)
    (p : StringPool) : Prop where
  /-- A table of labels kept beside the list finds what is listed, and nothing else. -/
  noted_eq_some_iff : ∀ t l,
    (noted (history steps replies k))[t]? = some l ↔ (t, l) ∈ p.constants
  one_to_one : p.OneToOne
  /-- The texts interned so far are declared, each once and in the order in which they first
  came. -/
  declared : List.Forall₂ (Declared steps replies) (texts (steps.take k)).eraseDups p.declarations

theorem declared_of_mem_entries (hs : s.Orderly) (h : run s steps = .ok replies)
    (hu : u ∈ states s replies) {e : String × Nat} (he : e ∈ u.strings.entries) :
    Declared steps replies e.1 (declaration e.1 e.2) := by
  refine ⟨labelOf e.2, declaresText_declaration e.1 e.2, fun j hj => ?_⟩
  obtain ⟨l, v, hv, hl⟩ := reply_intern h hj
  obtain ⟨n, hn, rfl⟩ := exists_mem_entries_of_find? hl
  have hnumber : e.2 = n := (fst_eq_iff_of_states hs h hu (mem_states_of_reply hv) he hn).1 rfl
  exact ⟨v, hnumber ▸ hv⟩

theorem standing_of_states {seed k : Nat} (h : run (.start seed) steps = .ok replies)
    (hk : (states (.start seed) replies)[k]? = some u) : Standing steps replies k u.strings := by
  have hu := List.mem_of_getElem? hk
  have horderly := orderly_states (.start seed) h u hu
  have htracks := history_induction tracks_step (tracks_start seed) h hk
  refine ⟨fun t l => ?_, horderly.oneToOne, ?_⟩
  · rw [htracks.noted_eq, horderly.oneToOne.find?_eq_some_iff]
  · rw [← fst_history h, ← htracks.texts_eq, declarations, List.forall₂_map_left_iff,
      List.forall₂_map_right_iff, List.forall₂_same]
    exact fun e he => declared_of_mem_entries (.start seed) h hu he

/-- Two steps get the same label if and only if they intern the same text. -/
theorem replies_intern {i j : Nat} {t t' : String} (hs : s.Orderly) (h : run s steps = .ok replies)
    (hi : steps[i]? = some (.intern t)) (hj : steps[j]? = some (.intern t')) :
    ∃ l l' u u', replies[i]? = some (.label l, u) ∧ replies[j]? = some (.label l', u') ∧
      (l = l' ↔ t = t') ∧ (l.text = l'.text ↔ t = t') := by
  obtain ⟨l, u, hu, hl⟩ := reply_intern h hi
  obtain ⟨l', u', hu', hl'⟩ := reply_intern h hj
  obtain ⟨m, hm, rfl⟩ := exists_mem_entries_of_find? hl
  obtain ⟨n, hn, rfl⟩ := exists_mem_entries_of_find? hl'
  have hiff : t = t' ↔ m = n :=
    fst_eq_iff_of_states hs h (mem_states_of_reply hu) (mem_states_of_reply hu') hm hn
  exact ⟨_, _, u, u', hu, hu', labelOf_inj.trans hiff.symm, text_labelOf_inj.trans hiff.symm⟩

/-- What a step draws that is no compilation. -/
def Step.demand? : Step → Option Demand
  | .fresh _ => some .number
  | .intern text => some (.text text)
  | _ => none

def Step.isFresh : Step → Bool
  | .fresh _ => true
  | _ => false

def Step.isCompile : Step → Bool
  | .compile .. => true
  | _ => false

/-- Without compilations a step goes through if and only if its demand is met. -/
theorem step_eq_ok_iff (hx : x.isCompile = false) :
    (∃ reply, step s x = .ok (reply, s')) ↔ s.serveAll? x.demand?.toList = some s' := by
  cases x with
  | fresh stem =>
    simp [step, drawn_eq_ok_iff, Step.demand?, Supply.serveAll?_cons, Supply.serve?, Supply.fresh?]
  | intern t => simp [step, drawn_eq_ok_iff, Step.demand?, Supply.serveAll?_cons, Supply.serve?]
  | declarations => simp [step, Step.demand?]
  | compile => simp [Step.isCompile] at hx

/-- Without compilations a session goes through if and only if the demands of its steps are met. -/
theorem run_eq_ok_iff (hsteps : ∀ x ∈ steps, x.isCompile = false) :
    (∃ replies, run s steps = .ok replies) ↔
      ∃ u, s.serveAll? (steps.filterMap Step.demand?) = some u := by
  induction steps generalizing s with
  | nil => simp [run]
  | cons x rest ih =>
    obtain ⟨hx, hrest⟩ := List.forall_mem_cons.1 hsteps
    have hdemands : (x :: rest).filterMap Step.demand? =
        x.demand?.toList ++ rest.filterMap Step.demand? := by
      cases hd : x.demand? <;> simp [hd]
    simp only [hdemands, Supply.serveAll?_append, Option.bind_eq_some_iff]
    constructor
    · rintro ⟨replies, h⟩
      obtain ⟨reply, s', others, hx', hr, -⟩ := run_cons h
      obtain ⟨u, hu⟩ := (ih hrest).1 ⟨others, hr⟩
      exact ⟨u, s', (step_eq_ok_iff hx).1 ⟨reply, hx'⟩, hu⟩
    · rintro ⟨u, s', hs', hu⟩
      obtain ⟨reply, hx'⟩ := (step_eq_ok_iff hx).2 hs'
      obtain ⟨others, hr⟩ := (ih hrest).2 ⟨u, hu⟩
      exact ⟨(reply, s') :: others, by simp [run, hx', hr, Except.map]⟩

theorem labels_demands (steps : List Step) :
    Demand.labels (steps.filterMap Step.demand?) = steps.countP Step.isFresh := by
  induction steps with
  | nil => rfl
  | cons x rest ih =>
    cases x <;> simp [List.filterMap_cons, List.countP_cons, Step.demand?, Step.isFresh, ih]

theorem texts_demands (steps : List Step) :
    Demand.texts (steps.filterMap Step.demand?) = texts steps := by
  have htext : ∀ x : Step, x.demand?.bind Demand.text? = x.text? := fun x => by cases x <;> rfl
  simp only [Demand.texts, texts, List.filterMap_filterMap, htext]

/-- One number is drawn for each fresh label and one for each different text. -/
theorem run_start_eq_ok_iff {seed : Nat} (hseed : seed ≤ Label.numberLimit)
    (hsteps : ∀ x ∈ steps, x.isCompile = false) :
    (∃ replies, run (.start seed) steps = .ok replies) ↔
      seed + steps.countP Step.isFresh + (texts steps).eraseDups.length ≤ Label.numberLimit := by
  have hcost : (Supply.start seed).cost (steps.filterMap Step.demand?) =
      steps.countP Step.isFresh + (texts steps).eraseDups.length := by
    rw [Supply.cost, labels_demands, texts_demands, Supply.start, missing_empty]
  have hnext : (Supply.start seed).next = seed := rfl
  rw [run_eq_ok_iff hsteps]
  rcases Supply.serveAll?_spec (s := .start seed) hseed (steps.filterMap Step.demand?)
    with ⟨u, hu, -, hle⟩ | ⟨hu, hlt⟩
  · exact ⟨fun _ => by omega, fun _ => ⟨u, hu⟩⟩
  · constructor
    · rintro ⟨u, hu'⟩
      simp [hu] at hu'
    · intro hle
      omega

/-- String constants over a session, from an empty list of constants and whatever else draws
numbers. After every step the table of labels and the list give the same relation, which is one to
one, and the texts interned so far are declared once each, in the order in which they first came,
under the label that every step gets that interns them. The declarations of one moment begin those
of every later one. Two steps get the same label if and only if they intern the same text. Unless
scripts are compiled, the numbers suffice exactly if there is one for each fresh label and for each
different text. -/
theorem constants_one_to_one_over_session (seed : Nat) (steps : List Step) :
    (∀ replies, run (.start seed) steps = .ok replies →
      (∀ k ≤ steps.length, ∃ u, (states (.start seed) replies)[k]? = some u ∧
        Standing steps replies k u.strings) ∧
      ((states (.start seed) replies).Pairwise fun u v =>
        u.strings.declarations <+: v.strings.declarations) ∧
      ∀ (i j : Nat) (t t' : String), steps[i]? = some (.intern t) → steps[j]? = some (.intern t') →
        ∃ l l' u u', replies[i]? = some (.label l, u) ∧ replies[j]? = some (.label l', u') ∧
          (l = l' ↔ t = t') ∧ (l.text = l'.text ↔ t = t')) ∧
    (seed ≤ Label.numberLimit → (∀ x ∈ steps, x.isCompile = false) →
      ((∃ replies, run (.start seed) steps = .ok replies) ↔
        seed + steps.countP Step.isFresh + (texts steps).eraseDups.length ≤
          Label.numberLimit)) := by
  refine ⟨fun replies h => ⟨fun k hk => ?_, ?_, fun i j t t' => replies_intern (.start seed) h⟩,
    run_start_eq_ok_iff⟩
  · have hlt : k < (states (.start seed) replies).length := by
      rw [length_states h]
      omega
    have hget := List.getElem?_eq_getElem hlt
    exact ⟨_, hget, standing_of_states h hget⟩
  · exact (pairwise_entries h).imp fun hentries => hentries.map _

/-- Labels of the stem of constants between the constants, and a text that comes again. -/
def interleaved : List Step :=
  [.fresh "str", .intern "hi \"there\"", .intern "bye", .fresh "str", .intern "hi \"there\"",
    .declarations, .intern ""]

/-- The last five numbers are enough for it, and the last four are not. -/
theorem interleaved_one_to_one :
    ∃ replies, run (.start 4294967290) interleaved = .ok replies ∧
    (∃ u, (states (.start 4294967290) replies)[7]? = some u ∧
      Standing interleaved replies 7 u.strings) ∧
    ((states (.start 4294967290) replies).Pairwise fun u v =>
      u.strings.declarations <+: v.strings.declarations) ∧
    (∃ l l' u u', replies[1]? = some (.label l, u) ∧ replies[4]? = some (.label l', u') ∧
      l.text = l'.text) ∧
    ¬∃ replies, run (.start 4294967291) interleaved = .ok replies := by
  have hall : ∀ x ∈ interleaved, x.isCompile = false := by decide
  obtain ⟨hkept, henough⟩ := constants_one_to_one_over_session 4294967290 interleaved
  obtain ⟨replies, h⟩ := (henough (by decide) hall).2 (by decide)
  obtain ⟨hstanding, hdeclarations, hlabels⟩ := hkept replies h
  obtain ⟨l, l', u, u', hu, hu', -, htexts⟩ := hlabels 1 4 _ _ rfl rfl
  have hfewer := (constants_one_to_one_over_session 4294967291 interleaved).2 (by decide) hall
  exact ⟨replies, h, hstanding 7 (by decide), hdeclarations, ⟨l, l', u, u', hu, hu', htexts.2 rfl⟩,
    hfewer.not.2 (by decide)⟩

end Session
end TreeAsm

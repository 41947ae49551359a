import TreeAsm.Proofs.JsonText

/-! How deep JSON texts nest. What is read from a text keeps to the limit, and a value that nests
deeper is not read from the text that is written for it. -/
namespace TreeAsm.Json

theorem depthItems_le_iff {items : List Json} {d : ℕ} :
    depthItems items ≤ d ↔ ∀ v ∈ items, v.depth ≤ d := by
  induction items with
  | nil => simp [depthItems]
  | cons v r ih => simp [depthItems, ih]

theorem depthMembers_le_iff {members : List (String × Json)} {d : ℕ} :
    depthMembers members ≤ d ↔ ∀ m ∈ members, m.2.depth ≤ d := by
  induction members with
  | nil => simp [depthMembers]
  | cons m r ih => simp [depthMembers, ih]

namespace Expecting

/-- The values that an open array or object holds already. -/
def held : Open → List Json
  | .array items => items
  | .object members _ => members.map Prod.snd

/-- What is open, and what it holds at its place, keeps to the limit. -/
def StackWithin : List Open → Prop
  | [] => True
  | o :: r => (r.length < maxDepth ∧ ∀ v ∈ held o, r.length + v.depth < maxDepth) ∧ StackWithin r

/-- What has been read so far keeps to the limit. -/
def Within : Expecting → Prop
  | .value stack _ => StackWithin stack
  | .key stack members _ => StackWithin (.object members "" :: stack)
  | .colon stack members k => StackWithin (.object members k :: stack)
  | .more stack v => StackWithin stack ∧ stack.length + v.depth ≤ maxDepth

theorem within_begin {stack : List Open} {t : Token} {e : Expecting} (hs : StackWithin stack)
    (h : begin stack t = some e) (hl : stack.length ≤ maxDepth) : e.Within := by
  unfold begin at h
  split at h
  next =>
    split at h
    next hlt =>
      obtain rfl := Option.some.inj h
      exact ⟨⟨hlt, by simp [held]⟩, hs⟩
    next => simp at h
  next =>
    split at h
    next hlt =>
      obtain rfl := Option.some.inj h
      exact ⟨⟨hlt, by simp [held]⟩, hs⟩
    next => simp at h
  next =>
    obtain ⟨v, hv, rfl⟩ := Option.map_eq_some_iff.1 h
    have hd : v.depth = 0 := by
      unfold scalar? at hv
      split at hv <;> simp at hv <;> subst hv <;> rfl
    exact ⟨hs, by omega⟩

theorem StackWithin.length_le {stack : List Open} (h : StackWithin stack) :
    stack.length ≤ maxDepth := by
  cases stack with
  | nil => simp
  | cons o r => exact h.1.1

/-- Putting a member into an object adds one value at most. -/
theorem mem_put {members : List (String × Json)} {k : String} {v w : Json}
    (h : w ∈ (put members k v).map Prod.snd) : w = v ∨ w ∈ members.map Prod.snd := by
  rw [put, List.map_cons, List.mem_cons] at h
  rcases h with h | h
  · exact .inl h
  · obtain ⟨m, hm, rfl⟩ := List.mem_map.1 h
    exact .inr (List.mem_map_of_mem (List.mem_filter.1 hm).1)

theorem within_put {stack : List Open} {members : List (String × Json)} {k : String} {v : Json}
    (hs : StackWithin (.object members k :: stack)) (hv : stack.length + 1 + v.depth ≤ maxDepth) :
    ∀ w ∈ (put members k v).map Prod.snd, stack.length + w.depth < maxDepth := by
  intro w hw
  rcases mem_put hw with rfl | hw
  · omega
  · exact hs.1.2 w hw

theorem within_array {stack : List Open} {items : List Json} {v : Json}
    (hs : StackWithin (.array items :: stack)) (hv : stack.length + 1 + v.depth ≤ maxDepth) :
    ∀ w ∈ v :: items, stack.length + w.depth < maxDepth := by
  intro w hw
  rcases List.mem_cons.1 hw with rfl | hw
  · omega
  · exact hs.1.2 w hw

/-- No token leads beyond the limit. -/
theorem within_step {e e' : Expecting} {t : Token} (h : step e t = some e')
    (he : e.Within) : e'.Within := by
  unfold step at h
  split at h
  case h_1 stack =>
    obtain rfl := Option.some.inj h
    have hlt : stack.length < maxDepth := he.1.1
    exact ⟨he.2, by simp only [depth, depthItems]; omega⟩
  case h_2 stack _ _ _ => exact within_begin he h (StackWithin.length_le he)
  case h_3 stack _ =>
    obtain rfl := Option.some.inj h
    have hlt : stack.length < maxDepth := he.1.1
    exact ⟨he.2, by simp only [depth, depthMembers]; omega⟩
  case h_4 stack members _ k _ =>
    obtain rfl := Option.some.inj h
    exact he
  case h_5 stack members k =>
    obtain rfl := Option.some.inj h
    exact he
  case h_6 items stack v =>
    obtain rfl := Option.some.inj h
    exact ⟨⟨he.1.1.1, within_array he.1 he.2⟩, he.1.2⟩
  case h_7 items stack v =>
    obtain rfl := Option.some.inj h
    refine ⟨he.1.2, ?_⟩
    have hlt : stack.length < maxDepth := he.1.1.1
    have hd : depthItems (v :: items).reverse ≤ maxDepth - stack.length - 1 := by
      refine depthItems_le_iff.2 fun w hw => ?_
      have := within_array he.1 he.2 w (List.mem_reverse.1 hw)
      omega
    rw [depth]
    omega
  case h_8 members k stack v =>
    obtain rfl := Option.some.inj h
    exact ⟨⟨he.1.1.1, within_put he.1 he.2⟩, he.1.2⟩
  case h_9 members k stack v =>
    obtain rfl := Option.some.inj h
    refine ⟨he.1.2, ?_⟩
    have hlt : stack.length < maxDepth := he.1.1.1
    have hd : depthMembers (put members k v).reverse ≤ maxDepth - stack.length - 1 := by
      refine depthMembers_le_iff.2 fun m hm => ?_
      have := within_put he.1 he.2 m.2 (List.mem_map_of_mem (List.mem_reverse.1 hm))
      omega
    rw [depth]
    omega
  case h_10 => simp at h

theorem within_run {ts : List Token} {e e' : Expecting} (h : run e ts = some e')
    (he : e.Within) : e'.Within := by
  induction ts generalizing e with
  | nil => exact Option.some.inj h ▸ he
  | cons t r ih =>
    rw [run, List.foldlM_cons, Option.bind_eq_bind, Option.bind_eq_some_iff] at h
    obtain ⟨e₁, ht, hr⟩ := h
    exact ih hr (within_step ht he)

/-- At the limit no array and no object begins. -/
theorem run_beginArray_eq_none {stack : List Open} (b : Bool) (h : maxDepth ≤ stack.length)
    (ts : List Token) : run (.value stack b) (.beginArray :: ts) = none := by
  have hstep : step (.value stack b) .beginArray = none := by
    rw [step_value stack b (by decide), begin, if_neg (by omega)]
  simp [run, hstep]

theorem run_beginObject_eq_none {stack : List Open} (b : Bool) (h : maxDepth ≤ stack.length)
    (ts : List Token) : run (.value stack b) (.beginObject :: ts) = none := by
  have hstep : step (.value stack b) .beginObject = none := by
    rw [step_value stack b (by decide), begin, if_neg (by omega)]
  simp [run, hstep]

mutual

/-- The tokens of a value that nests too deep are refused. -/
theorem run_tokens_eq_none (stack : List Open) (b : Bool) (ts : List Token) :
    ∀ v : Json, v.Proper → stack.length ≤ maxDepth → maxDepth < stack.length + v.depth →
      run (.value stack b) (v.tokens ++ ts) = none
  | .null, _, hl, hd | .bool _, _, hl, hd | .num _, _, hl, hd | .str _, _, hl, hd => by
    simp only [depth] at hd
    omega
  | .arr [], _, hl, hd => by
    simp only [depth, depthItems] at hd
    exact run_beginArray_eq_none b (by omega) _
  | .arr (v :: r), h, hl, hd => by
    obtain ⟨hv, hr⟩ : v.Proper ∧ ProperItems r := by simpa [Proper, ProperItems] using h
    simp only [depth, depthItems] at hd
    simp only [tokens, List.cons_append, List.append_assoc, List.nil_append]
    by_cases hlt : stack.length < maxDepth
    · rw [run_beginArray b hlt]
      by_cases hfit : stack.length + 1 + v.depth ≤ maxDepth
      · rw [run_tokens _ true _ v hv (by simpa using hfit)]
        exact run_tokensOfItems_eq_none stack ts r [] v hr hlt (by omega)
      · refine run_tokens_eq_none _ true _ v hv ?_ ?_ <;> rw [List.length_cons] <;> omega
    · exact run_beginArray_eq_none b (by omega) _
  | .obj [], _, hl, hd => by
    simp only [depth, depthMembers] at hd
    exact run_beginObject_eq_none b (by omega) _
  | .obj ((k, v) :: r), h, hl, hd => by
    obtain ⟨hv, hr⟩ : v.Proper ∧ ProperMembers r := by
      simp only [Proper, ProperMembers] at h
      exact h.2
    simp only [depth, depthMembers] at hd
    simp only [tokens, List.cons_append, List.append_assoc, List.nil_append]
    by_cases hlt : stack.length < maxDepth
    · rw [run_beginObject b hlt, run_member]
      by_cases hfit : stack.length + 1 + v.depth ≤ maxDepth
      · rw [run_tokens _ false _ v hv (by simpa using hfit)]
        exact run_tokensOfMembers_eq_none stack ts r [] k v hr hlt (by omega)
      · refine run_tokens_eq_none _ false _ v hv ?_ ?_ <;> rw [List.length_cons] <;> omega
    · exact run_beginObject_eq_none b (by omega) _

theorem run_tokensOfItems_eq_none (stack : List Open) (ts : List Token) :
    ∀ (r items : List Json) (v : Json), ProperItems r → stack.length < maxDepth →
      maxDepth < stack.length + (depthItems r + 1) →
      run (.more (.array items :: stack) v) (tokensOfItems r ++ .endArray :: ts) = none
  | [], _, _, _, hl, hd => by
    simp only [depthItems] at hd
    omega
  | w :: r, items, v, h, hl, hd => by
    obtain ⟨hw, hr⟩ : w.Proper ∧ ProperItems r := by simpa [ProperItems] using h
    have hcomma : step (.more (.array items :: stack) v) .comma =
        some (.value (.array (v :: items) :: stack) false) := rfl
    simp only [depthItems] at hd
    simp only [tokensOfItems, List.cons_append, List.append_assoc]
    rw [run_cons hcomma]
    by_cases hfit : stack.length + 1 + w.depth ≤ maxDepth
    · rw [run_tokens _ false _ w hw (by simpa using hfit)]
      exact run_tokensOfItems_eq_none stack ts r (v :: items) w hr hl (by omega)
    · refine run_tokens_eq_none _ false _ w hw ?_ ?_ <;> rw [List.length_cons] <;> omega

theorem run_tokensOfMembers_eq_none (stack : List Open) (ts : List Token) :
    ∀ (r members : List (String × Json)) (k : String) (v : Json), ProperMembers r →
      stack.length < maxDepth → maxDepth < stack.length + (depthMembers r + 1) →
      run (.more (.object members k :: stack) v) (tokensOfMembers r ++ .endObject :: ts) = none
  | [], _, _, _, _, hl, hd => by
    simp only [depthMembers] at hd
    omega
  | (l, w) :: r, members, k, v, h, hl, hd => by
    obtain ⟨hw, hr⟩ : w.Proper ∧ ProperMembers r := by simpa [ProperMembers] using h
    have hcomma : step (.more (.object members k :: stack) v) .comma =
        some (.key stack (put members k v) false) := rfl
    simp only [depthMembers] at hd
    simp only [tokensOfMembers, List.cons_append, List.append_assoc]
    rw [run_cons hcomma, run_member]
    by_cases hfit : stack.length + 1 + w.depth ≤ maxDepth
    · rw [run_tokens _ false _ w hw (by simpa using hfit)]
      exact run_tokensOfMembers_eq_none stack ts r (put members k v) l w hr hl (by omega)
    · refine run_tokens_eq_none _ false _ w hw ?_ ?_ <;> rw [List.length_cons] <;> omega

end

end Expecting

/-- What is read from a text keeps to the limit. -/
theorem depth_le_of_read? {text : String} {v : Json} (h : read? text = some v) :
    v.depth ≤ maxDepth := by
  obtain ⟨ts, -, hts⟩ := Option.bind_eq_some_iff.1 h
  obtain ⟨e, hrun, hresult⟩ := Option.bind_eq_some_iff.1 hts
  have hwithin : e.Within := Expecting.within_run (e := .value [] false) hrun trivial
  unfold Expecting.result? at hresult
  split at hresult
  next w =>
    obtain rfl := Option.some.inj hresult
    simpa using hwithin.2
  next => simp at hresult

/-- The text of a value that nests too deep is no JSON text. -/
theorem read?_pretty_eq_none {v : Json} (h : v.Proper) (hd : maxDepth < v.depth) :
    read? v.pretty = none := by
  have hrun := Expecting.run_tokens_eq_none [] false [] v h (by simp) (by simpa using hd)
  have htokens : ofTokens? v.tokens = none := by
    rw [List.append_nil] at hrun
    have hfold : v.tokens.foldlM Expecting.step (.value [] false) = none := hrun
    simp [ofTokens?, hfold]
  simp [read?, pretty, Token.scan_render h, htokens]

end TreeAsm.Json

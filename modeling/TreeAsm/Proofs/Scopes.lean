import Mathlib.Data.List.Induction
import TreeAsm.Layout

/-! Which names scopes and frames hold, and in which order. The distinct parameters of a routine
come first and take the first slots; what the body binds and the globals do not have comes after
them. -/
namespace TreeAsm

namespace Scope

theorem names_insert (s : Scope) (v : Variable) :
    (s.insert v).names = if v.name ∈ s.names then s.names else s.names ++ [v.name] := by
  unfold names
  rw [toList_insert]
  split <;> simp_all [names]

theorem insertAll_concat (s : Scope) (vs : List Variable) (v : Variable) :
    s.insertAll (vs ++ [v]) = (s.insertAll vs).insert v := by
  simp [insertAll]

@[simp] theorem insertAll_nil (s : Scope) : s.insertAll [] = s := rfl

theorem insertAll_cons (s : Scope) (v : Variable) (r : List Variable) :
    s.insertAll (v :: r) = (s.insert v).insertAll r := rfl

/-- Inserting goes on behind what is there. -/
theorem exists_toList_insertAll (s : Scope) (vs : List Variable) :
    ∃ rest, (s.insertAll vs).toList = s.toList ++ rest ∧ ∀ v ∈ rest, v ∈ vs := by
  induction vs generalizing s with
  | nil => exact ⟨[], by simp, by simp⟩
  | cons v r ih =>
    obtain ⟨rest, hr, hm⟩ := ih (s.insert v)
    rw [toList_insert] at hr
    split at hr
    · exact ⟨rest, hr, fun w hw => List.mem_cons_of_mem _ (hm w hw)⟩
    · refine ⟨v :: rest, by simpa [insertAll_cons] using hr, fun w hw => ?_⟩
      rcases List.mem_cons.1 hw with rfl | hw
      · exact List.mem_cons_self
      · exact List.mem_cons_of_mem _ (hm w hw)

theorem mem_names_insert {s : Scope} {v : Variable} {n : String} :
    n ∈ (s.insert v).names ↔ n ∈ s.names ∨ n = v.name := by
  rw [names_insert]
  split
  next h =>
    constructor
    · exact .inl
    · rintro (hn | rfl)
      · exact hn
      · exact h
  next => simp

theorem mem_names_insertAll {s : Scope} {vs : List Variable} {n : String} :
    n ∈ (s.insertAll vs).names ↔ n ∈ s.names ∨ n ∈ vs.map Variable.name := by
  induction vs generalizing s with
  | nil => simp
  | cons v r ih =>
    rw [insertAll_cons, ih, mem_names_insert, List.map_cons, List.mem_cons, or_assoc]

/-- The names of a list in the order of their first mention. -/
theorem names_ofList (vs : List Variable) :
    (ofList vs).names = (vs.map Variable.name).eraseDups := by
  unfold ofList
  induction vs using List.reverseRecOn with
  | nil => rfl
  | append_singleton vs v ih =>
    rw [insertAll_concat, names_insert, ih, List.map_append, List.eraseDups_append]
    by_cases h : v.name ∈ vs.map Variable.name
    · rw [if_pos (List.mem_eraseDups.2 h)]
      have hr : (List.map Variable.name [v]).removeAll (vs.map Variable.name) = [] := by
        simpa [List.removeAll] using h
      rw [hr, List.eraseDups_nil, List.append_nil]
    · rw [if_neg (fun hm => h (List.mem_eraseDups.1 hm))]
      have hr : (List.map Variable.name [v]).removeAll (vs.map Variable.name) = [v.name] := by
        simpa [List.removeAll] using h
      rw [hr]
      rfl

/-- A variable of the scope is the first one of its name in the list. -/
theorem find?_of_mem_ofList {vs : List Variable} {v : Variable} (h : v ∈ (ofList vs).toList) :
    vs.find? (·.name = v.name) = some v := by
  unfold ofList at h
  induction vs using List.reverseRecOn with
  | nil => simp at h
  | append_singleton vs w ih =>
    rw [insertAll_concat, toList_insert] at h
    rw [List.find?_append]
    split at h
    next => rw [ih h, Option.some_or]
    next hw =>
      rcases List.mem_append.1 h with h | h
      · rw [ih h, Option.some_or]
      · obtain rfl := List.mem_singleton.1 h
        rw [mem_names_insertAll] at hw
        have hn : vs.find? (·.name = v.name) = none := by
          refine List.find?_eq_none.2 fun u hu he => hw (.inr ?_)
          exact List.mem_map.2 ⟨u, hu, by simpa using he⟩
        simp [hn]

/-- A global has the kind of the value that is first assigned to it. -/
theorem lookup_of_mem_globals {s : Script} {v : Variable} (h : v ∈ (globals s).toList) :
    (Stmt.bindsAll s.body).lookup v.name = some v.kind := by
  have hf := find?_of_mem_ofList h
  generalize Stmt.bindsAll s.body = binds at hf
  induction binds with
  | nil => simp at hf
  | cons b r ih =>
    rw [List.map_cons, List.find?_cons] at hf
    obtain ⟨n, k⟩ := b
    by_cases hn : n = v.name
    · have hv : (⟨n, k, .global⟩ : Variable) = v := by simpa [hn] using hf
      have hk : k = v.kind := congrArg Variable.kind hv
      simp [hn, hk]
    · simp only [hn, decide_false] at hf
      have hb : (v.name == n) = false := beq_false_of_ne (Ne.symm hn)
      rw [List.lookup_cons, hb]
      exact ih hf

theorem mem_names_globals {s : Script} {n : String} :
    n ∈ (globals s).names ↔ n ∈ (Stmt.bindsAll s.body).map Prod.fst := by
  rw [globals, names_ofList, List.mem_eraseDups, List.map_map]
  rfl

theorem names_ofParams (ps : List Param) : (ofParams ps).names = (ps.map Param.name).eraseDups := by
  rw [ofParams, names_ofList, List.map_map]
  rfl

theorem mem_names_localsOf {globals : Scope} {r : Routine} {n : String} :
    n ∈ (globals.localsOf r).names ↔
      n ∈ r.params.map Param.name ∨ n ∈ (Stmt.bindsAll r.body).map Prod.fst ∧
      n ∉ globals.names := by
  rw [localsOf, mem_names_insertAll, names_ofParams, List.mem_eraseDups]
  simp only [List.map_map, List.mem_map, List.mem_filter, Bool.not_eq_true', ← contains_iff]
  constructor
  · rintro (h | ⟨b, ⟨hb, hg⟩, rfl⟩)
    · exact .inl h
    · exact .inr ⟨⟨b, hb, rfl⟩, by simpa using hg⟩
  · rintro (h | ⟨⟨b, hb, rfl⟩, hg⟩)
    · exact .inl h
    · exact .inr ⟨b, ⟨hb, by simpa using hg⟩, rfl⟩

/-- The variables of a routine are its parameters, and then others. -/
theorem exists_toList_localsOf (globals : Scope) (r : Routine) :
    ∃ rest, (globals.localsOf r).toList = (ofParams r.params).toList ++ rest ∧
      ∀ v ∈ rest, v.role = .inner := by
  obtain ⟨rest, hr, hm⟩ := exists_toList_insertAll (ofParams r.params)
    (((Stmt.bindsAll r.body).filter fun b => !globals.contains b.1).map fun b => ⟨b.1, b.2, .inner⟩)
  refine ⟨rest, hr, fun v hv => ?_⟩
  obtain ⟨b, -, rfl⟩ := List.mem_map.1 (hm v hv)
  rfl

theorem role_of_mem_ofParams {ps : List Param} {v : Variable} (h : v ∈ (ofParams ps).toList) :
    v.role = .parameter := by
  obtain ⟨rest, hr, hm⟩ := exists_toList_insertAll empty
    (ps.map fun p => ⟨p.name, .ofParam p, .parameter⟩)
  rw [toList_empty, List.nil_append] at hr
  obtain ⟨p, -, rfl⟩ := List.mem_map.1 (hm v (hr ▸ h))
  rfl

end Scope

namespace Frame

variable {globals : Scope} {r : Routine} {f : Frame}

/-- The parameters of the frame are the distinct parameter names of the routine. -/
theorem params_eq (h : f.locals = globals.localsOf r) :
    f.params = (r.params.map Param.name).eraseDups := by
  obtain ⟨rest, hr, hi⟩ := Scope.exists_toList_localsOf globals r
  have hp : (Scope.ofParams r.params).toList.filter (·.role = .parameter) =
      (Scope.ofParams r.params).toList :=
    List.filter_eq_self.2 fun v hv => by simpa using Scope.role_of_mem_ofParams hv
  have hn : rest.filter (·.role = .parameter) = [] :=
    List.filter_eq_nil_iff.2 fun v hv => by simp [hi v hv]
  rw [params, h, hr, List.filter_append, hp, hn, List.append_nil]
  exact Scope.names_ofParams r.params

/-- Parameters take the first slots. -/
theorem exists_names_eq (h : f.locals = globals.localsOf r) :
    ∃ rest, f.locals.names = f.params ++ rest := by
  obtain ⟨rest, hr, -⟩ := Scope.exists_toList_localsOf globals r
  refine ⟨rest.map Variable.name, ?_⟩
  rw [params_eq h, ← Scope.names_ofParams, h, Scope.names, hr, List.map_append]
  rfl

theorem slot?_eq_some_iff {n : String} {i : Nat} :
    f.slot? n = some i ↔ f.locals.names[i]? = some n :=
  Scope.position?_eq_some_iff

/-- The `k`-th parameter lives in slot `k`. -/
theorem slot?_param (h : f.locals = globals.localsOf r) {k : Nat} {n : String}
    (hk : f.params[k]? = some n) : f.slot? n = some k := by
  obtain ⟨rest, hr⟩ := exists_names_eq h
  have hlt := (List.getElem?_eq_some_iff.1 hk).1
  rw [slot?_eq_some_iff, hr, List.getElem?_append_left hlt, hk]

theorem slot?_lt {n : String} {i : Nat} (h : f.slot? n = some i) : i < f.size := by
  have := (List.getElem?_eq_some_iff.1 (slot?_eq_some_iff.1 h)).1
  rwa [Scope.length_names] at this

end Frame
end TreeAsm

import Std.Data.TreeMap
import TreeAsm.Variable

/-! Scopes: variables in the order in which their names came up, each name once. A name keeps the
place and the kind of its first mention. The index gives the place of a name without a search. -/
namespace TreeAsm

structure Scope where
  index : Std.TreeMap String Nat
  vars : Array Variable
  /-- The index knows the place of every name and nothing else, so names are distinct. -/
  index_eq_some_iff : ∀ n i, index[n]? = some i ↔ vars[i]?.map Variable.name = some n

namespace Scope

def empty : Scope := ⟨∅, #[], by simp⟩

def toList (s : Scope) : List Variable := s.vars.toList

def size (s : Scope) : Nat := s.vars.size

def names (s : Scope) : List String := s.toList.map Variable.name

/-- The place of a name, counted from zero. -/
def position? (s : Scope) (n : String) : Option Nat := s.index[n]?

def contains (s : Scope) (n : String) : Bool := (s.position? n).isSome

def find? (s : Scope) (n : String) : Option Variable := do s.vars[← s.position? n]?

@[simp] theorem toList_empty : empty.toList = [] := rfl

@[simp] theorem length_toList (s : Scope) : s.toList.length = s.size := Array.length_toList

@[simp] theorem length_names (s : Scope) : s.names.length = s.size := by simp [names]

theorem position?_eq_some_iff {s : Scope} {n : String} {i : Nat} :
    s.position? n = some i ↔ s.names[i]? = some n := by
  rw [position?, s.index_eq_some_iff]
  simp [names, toList]

theorem contains_iff {s : Scope} {n : String} : s.contains n = true ↔ n ∈ s.names := by
  rw [contains, Option.isSome_iff_exists, List.mem_iff_getElem?]
  simp only [position?_eq_some_iff]

theorem nodup_names (s : Scope) : s.names.Nodup := by
  refine List.pairwise_iff_getElem.2 fun i j hi hj hij h => ?_
  have hp := position?_eq_some_iff.2 (List.getElem?_eq_getElem hi)
  rw [h, position?_eq_some_iff.2 (List.getElem?_eq_getElem hj)] at hp
  exact absurd (Option.some.inj hp) (by omega)

/-- A variable whose name is there already changes nothing. -/
def insert (s : Scope) (v : Variable) : Scope :=
  if h : s.index[v.name]? = none then
    { index := s.index.insert v.name s.vars.size
      vars := s.vars.push v
      index_eq_some_iff := by
        intro n i
        rw [Std.TreeMap.getElem?_insert, Array.getElem?_push]
        by_cases hn : v.name = n
        · subst hn
          simp only [Std.compare_self, if_true]
          by_cases hi : i = s.vars.size
          · simp [hi]
          · rw [if_neg hi, ← s.index_eq_some_iff, h]
            simp [Ne.symm hi]
        · rw [if_neg (by simpa using hn), s.index_eq_some_iff]
          by_cases hi : i = s.vars.size
          · simp [hi, hn]
          · rw [if_neg hi] }
  else s

theorem toList_insert (s : Scope) (v : Variable) :
    (s.insert v).toList = if v.name ∈ s.names then s.toList else s.toList ++ [v] := by
  have hv : s.index[v.name]? = none ↔ v.name ∉ s.names := by
    rw [← contains_iff, contains, position?]
    simp
  unfold insert
  split
  next h => rw [if_neg (hv.1 h)]; simp [toList]
  next h => rw [if_pos (Decidable.not_not.1 fun hn => h (hv.2 hn))]

def insertAll (s : Scope) (vs : List Variable) : Scope := vs.foldl insert s

def ofList (vs : List Variable) : Scope := empty.insertAll vs

end Scope
end TreeAsm

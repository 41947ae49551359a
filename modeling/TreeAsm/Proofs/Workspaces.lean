import Mathlib.Data.List.Infix
import TreeAsm.Program
import TreeAsm.Workspace

/-! What writing to a file does to a workspace. The file that a path leads to gets its text, all
other files keep theirs, and every path leads to where it led before. A listing that is written line
by line is there as a whole in the end. -/
namespace TreeAsm

namespace Workspace

variable {w w' : Workspace} {dir place : List String} {name : String}

theorem isDirectory_iff {path : List String} :
    w.isDirectory path = true ↔ path = [] ∨ ∃ f ∈ w.files, path <+: f.1 ∧ f.1 ≠ path := by
  simp [isDirectory]

/-- A directory is inside directories only. -/
theorem isDirectory_of_below {path : List String} (hpath : path <+: dir)
    (hdir : w.isDirectory dir = true) : w.isDirectory path = true := by
  rw [isDirectory_iff] at hdir ⊢
  rcases hdir with rfl | ⟨f, hf, hbelow, hne⟩
  · exact .inl (List.prefix_nil.1 hpath)
  · refine .inr ⟨f, hf, hpath.trans hbelow, ?_⟩
    rintro rfl
    exact hne (hpath.eq_of_length_le hbelow.length_le)

/-! ### Files in their places -/

theorem lookup_put (w : Workspace) (place q : List String) (content : ByteArray) :
    (w.put place content).files.lookup q =
      if q = place then some content else w.files.lookup q := by
  have hfilter : ∀ files : List (List String × ByteArray), q ≠ place →
      (files.filter (·.1 != place)).lookup q = files.lookup q := by
    intro files hq
    induction files with
    | nil => rfl
    | cons f rest ih =>
      by_cases hf : f.1 = place
      · rw [List.filter_cons_of_neg (by simpa using hf), ih, List.lookup_cons, hf,
          beq_false_of_ne hq]
      · rw [List.filter_cons_of_pos (by simpa using hf), List.lookup_cons, List.lookup_cons, ih]
  rw [put, List.lookup_cons]
  by_cases hq : q = place
  · simp [hq]
  · rw [if_neg hq, beq_false_of_ne hq]
    exact hfilter w.files hq

theorem put_put (w : Workspace) (place : List String) (a b : ByteArray) :
    (w.put place a).put place b = w.put place b := by
  simp [put]

theorem append_put (w : Workspace) (place : List String) (content : ByteArray) (text : String) :
    (w.put place content).append place text = w.put place (content ++ text.toUTF8) := by
  rw [append, lookup_put, if_pos rfl, put_put, Option.getD_some]

/-- Texts that are written one after another are there one after another. -/
theorem foldl_append_put (w : Workspace) (place : List String) (start : String)
    (texts : List String) :
    texts.foldl (·.append place) (w.put place start.toUTF8) =
      w.put place (texts.foldl (· ++ ·) start).toUTF8 := by
  induction texts generalizing start with
  | nil => rfl
  | cons text rest ih =>
    have happend : start.toUTF8 ++ text.toUTF8 = (start ++ text).toUTF8 := rfl
    rw [List.foldl_cons, append_put, happend, ih, List.foldl_cons]

/-! ### Paths -/

/-- A file in a directory that is there makes no new directories, and ends none. -/
theorem isDirectory_put (hdir : w.isDirectory dir = true) (content : ByteArray)
    (q : List String) :
    (w.put (dir ++ [name]) content).isDirectory q = w.isDirectory q := by
  rw [Bool.eq_iff_iff]
  constructor
  · intro hq
    rcases isDirectory_iff.1 hq with rfl | ⟨f, hf, hbelow, hne⟩
    · exact isDirectory_iff.2 (.inl rfl)
    · rcases List.mem_cons.1 hf with rfl | hf
      · rcases List.prefix_concat_iff.1 hbelow with rfl | hbelow
        · exact absurd rfl hne
        · exact isDirectory_of_below hbelow hdir
      · exact isDirectory_iff.2 (.inr ⟨f, List.mem_of_mem_filter hf, hbelow, hne⟩)
  · intro hq
    rcases isDirectory_iff.1 hq with rfl | ⟨f, hf, hbelow, hne⟩
    · exact isDirectory_iff.2 (.inl rfl)
    · rw [isDirectory_iff]
      by_cases hplace : f.1 = dir ++ [name]
      · rw [hplace] at hbelow hne
        exact .inr ⟨_, List.mem_cons_self, hbelow, hne⟩
      · exact .inr ⟨f, List.mem_cons_of_mem _ (List.mem_filter.2 ⟨hf, by simpa using hplace⟩),
          hbelow, hne⟩

/-- Only the directories decide where a path leads. -/
theorem walk_congr (h : ∀ q, w'.isDirectory q = w.isDirectory q) (dir parts : List String) :
    w'.walk dir parts = w.walk dir parts := by
  induction parts generalizing dir with
  | nil => rfl
  | cons part rest ih => simp only [walk, h, ih]

theorem locate_congr (h : ∀ q, w'.isDirectory q = w.isDirectory q) (path : String) :
    w'.locate path = w.locate path := by
  rw [locate, locate, walk_congr h]

/-- What a path leads to is in a directory. -/
theorem isDirectory_of_walk {d parts : List String} (hdir : w.isDirectory dir = true)
    (h : w.walk dir parts = some (.entry d name)) : w.isDirectory d = true := by
  induction parts generalizing dir with
  | nil => simp [walk] at h
  | cons part rest ih =>
    rw [walk] at h
    split at h
    next => exact ih hdir h
    next =>
      split at h
      next =>
        obtain ⟨up, hup, h⟩ := Option.bind_eq_some_iff.1 h
        refine ih (isDirectory_of_below ?_ hdir) h
        unfold parent? at hup
        split at hup
        next => simp at hup
        next => exact Option.some.inj hup ▸ dir.dropLast_prefix
      next =>
        split at h
        next =>
          obtain ⟨rfl, -⟩ := Place.entry.inj (Option.some.inj h)
          exact hdir
        next =>
          split at h
          next hpart => exact ih hpart h
          next => simp at h

theorem isDirectory_of_locate {path : String} (h : w.locate path = some (.entry dir name)) :
    w.isDirectory dir = true := by
  unfold locate at h
  split at h
  next => simp at h
  next => exact isDirectory_of_walk (isDirectory_iff.2 (.inl rfl)) h

theorem create?_eq_some {path : String} (h : w.create? path = some (place, w')) :
    ∃ dir name, w.locate path = some (.entry dir name) ∧ place = dir ++ [name] ∧
      w' = w.put place .empty := by
  unfold create? at h
  split at h
  next dir name hlocate =>
    split at h
    next => simp at h
    next =>
      obtain ⟨rfl, rfl⟩ := Prod.mk.inj (Option.some.inj h)
      exact ⟨dir, name, hlocate, rfl, rfl⟩
  next => simp at h

theorem fromUTF8?_toUTF8 (text : String) : String.fromUTF8? text.toUTF8 = some text :=
  dif_pos text.isValidUTF8

/-- The second workspace has this text in the file that the path leads to, byte for byte. All other
files are as they were, by the paths that lead to them and in their places. -/
structure Written (w : Workspace) (path text : String) (w' : Workspace) : Prop where
  content_self : w'.content? path = some text.toUTF8
  content_other : ∀ q, w.locate q ≠ w.locate path → w'.content? q = w.content? q
  place : ∃ dir name, w.locate path = some (.entry dir name) ∧
    ∀ q, q ≠ dir ++ [name] → w'.files.lookup q = w.files.lookup q

theorem Written.read_self {path text : String} (h : w.Written path text w') :
    w'.read? path = some text := by
  rw [read?, h.content_self, Option.bind_some, fromUTF8?_toUTF8]

theorem Written.read_other {path text q : String} (h : w.Written path text w')
    (hq : w.locate q ≠ w.locate path) : w'.read? q = w.read? q := by
  rw [read?, read?, h.content_other q hq]

theorem written_put {path text : String} (h : w.locate path = some (.entry dir name)) :
    w.Written path text (w.put (dir ++ [name]) text.toUTF8) := by
  have hlocate : ∀ q, (w.put (dir ++ [name]) text.toUTF8).locate q = w.locate q :=
    locate_congr (isDirectory_put (isDirectory_of_locate h) text.toUTF8)
  refine ⟨?_, fun q hq => ?_, dir, name, h, fun q hq => ?_⟩
  · simp only [content?, hlocate, h, lookup_put, if_true]
  · rw [content?, content?, hlocate]
    cases hplace : w.locate q with
    | none => rfl
    | some place =>
      cases place with
      | directory d => rfl
      | entry d n =>
        simp only [lookup_put]
        refine if_neg fun he => hq ?_
        obtain ⟨rfl, hn⟩ := List.append_inj' he rfl
        obtain rfl := List.singleton_inj.1 hn
        rw [hplace, h]
  · rw [lookup_put, if_neg hq]

end Workspace

namespace Program

/-- A writer that keeps a state has had all lines in the end, in their order. -/
theorem run_emit {σ : Type} (write : σ → String → σ) (start : σ) (p : Program) :
    ((p.emit (m := StateM σ) fun text => modify (write · text)).run start).2 =
      (p.lines.map (· ++ "\n")).foldl write start := by
  rw [emit]
  generalize p.lines = lines
  induction lines generalizing start with
  | nil => rfl
  | cons line rest ih => exact ih (write start (line ++ "\n"))

end Program
end TreeAsm

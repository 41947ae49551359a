import TreeAsm.Proofs.Diagnostics

/-! The clash on the entry label. A script that assigns the name of the program entry outside
routines is refused before any code is generated, at whatever depth the assignment stands. The line
of the error is looked for among the statements of the script itself, so it is the line of the first
assignment only if no conditional or loop before it assigns the name too. -/
namespace TreeAsm

namespace Stmt

/-- The statement itself, without the statements inside it, is an assignment to the name. -/
def Stores (n : String) (x : Stmt) : Prop :=
  ∃ line targets value, x = .assign line targets value ∧ .name n ∈ targets

/-- Among these statements, in this order, the first assignment to the name. -/
def FirstStore (xs : List Stmt) (n : String) (x : Stmt) : Prop :=
  ∃ before after, xs = before ++ x :: after ∧ x.Stores n ∧ ∀ y ∈ before, ¬ y.Stores n

theorem assigns_iff_exists_stores {body : List Stmt} {n : String} :
    Assigns body n ↔ ∃ x ∈ partsAll body, x.Stores n := by
  constructor
  · rintro ⟨line, targets, value, hx, hn⟩
    exact ⟨_, hx, line, targets, value, rfl, hn⟩
  · rintro ⟨_, hx, line, targets, value, rfl, hn⟩
    exact ⟨line, targets, value, hx, hn⟩

theorem partsAll_append (xs ys : List Stmt) : partsAll (xs ++ ys) = partsAll xs ++ partsAll ys := by
  induction xs with
  | nil => rfl
  | cons x rest ih => simp [partsAll, ih]

theorem Stores.parts {n : String} {x : Stmt} (h : x.Stores n) : x.parts = [x] := by
  obtain ⟨line, targets, value, rfl, -⟩ := h
  rfl

/-- An assignment in the body itself is the first one in the walk through it, if nothing before it
assigns the name at any depth. -/
theorem firstStore_partsAll {n : String} {before after : List Stmt} {x : Stmt} (hx : x.Stores n)
    (hbefore : ¬ Assigns before n) : FirstStore (partsAll (before ++ x :: after)) n x := by
  refine ⟨partsAll before, partsAll after, ?_, hx, fun y hy hn => ?_⟩
  · rw [partsAll_append, partsAll, hx.parts, List.singleton_append]
  · exact hbefore (assigns_iff_exists_stores.2 ⟨y, hy, hn⟩)

end Stmt

namespace Layout

theorem assigns_eq_true_iff {n : String} {x : Stmt} : assigns n x = true ↔ x.Stores n := by
  cases x with
  | assign line targets value =>
    have hname : ∀ t : Expr, t.name? = some n ↔ t = .name n := by
      intro t
      cases t <;> simp [Expr.name?]
    simp [assigns, Stmt.Stores, hname]
  | _ => simp [assigns, Stmt.Stores]

/-- The line of a clash is that of the first assignment that is not inside another statement. -/
theorem assignmentLine_of_firstStore {s : Script} {n : String} {x : Stmt}
    (h : Stmt.FirstStore s.body n x) : assignmentLine s n = x.line := by
  obtain ⟨before, after, hbody, hx, hbefore⟩ := h
  have hfind : s.body.find? (assigns n) = some x := by
    refine List.find?_eq_some_iff_append.2
      ⟨assigns_eq_true_iff.2 hx, before, after, hbody, fun y hy => ?_⟩
    rw [Bool.not_eq_true', ← Bool.not_eq_true, assigns_eq_true_iff]
    exact hbefore y hy
  rw [assignmentLine, hfind]
  rfl

theorem assignmentLine_eq_zero {s : Script} {n : String} (h : ∀ x ∈ s.body, ¬ x.Stores n) :
    assignmentLine s n = 0 := by
  have hfind : s.body.find? (assigns n) = none := by
    refine List.find?_eq_none.2 fun x hx => ?_
    rw [assigns_eq_true_iff]
    exact h x hx
  rw [assignmentLine, hfind]
  rfl

end Layout

namespace Script

variable {s : Script}

/-- The name of the entry is refused for a global before any number is drawn. -/
theorem compileFrom_of_assigns_entry (h : Stmt.Assigns s.body Label.entry) (source : String)
    (seed : Nat) :
    s.compileFrom source seed =
      ⟨.error (.rejected (.labelClash Label.entry (Layout.assignmentLine s Label.entry))),
        seed⟩ := by
  have hlayout : Layout.ofScript s =
      .error (.rejected (.labelClash Label.entry (Layout.assignmentLine s Label.entry))) := by
    rw [Layout.ofScript, if_pos (contains_globals_iff.2 h)]
  rw [compileFrom, hlayout]

/-- A script that assigns the name of the entry outside routines, at any depth of conditionals and
loops, is refused for the clash and draws no number. The line is that of the first assignment to the
name among the statements of the script itself, and zero if there is none. So it is the line of the
first assignment in the order of the text where this one stands in the script itself; an earlier one
inside a conditional or a loop is passed over. -/
theorem entry_clash_line (h : Stmt.Assigns s.body Label.entry) (source : String) (seed : Nat) :
    ∃ line, s.compileFrom source seed = ⟨.error (.rejected (.labelClash Label.entry line)), seed⟩ ∧
      (∀ before x after, s.body = before ++ x :: after → x.Stores Label.entry →
        ¬ Stmt.Assigns before Label.entry →
        Stmt.FirstStore (Stmt.partsAll s.body) Label.entry x ∧ line = x.line) ∧
      (∀ x, Stmt.FirstStore s.body Label.entry x → line = x.line) ∧
      ((∀ x ∈ s.body, ¬ x.Stores Label.entry) → line = 0) := by
  refine ⟨_, compileFrom_of_assigns_entry h source seed, fun before x after hbody hx hbefore =>
    ?_, fun x hx => ?_, fun hnone => ?_⟩
  · have hfirst : ∀ y ∈ before, ¬ y.Stores Label.entry := by
      intro y hy hn
      refine hbefore (Stmt.assigns_iff_exists_stores.2 ⟨y, Stmt.mem_partsAll.2 ⟨y, hy, ?_⟩, hn⟩)
      simp [hn.parts]
    refine ⟨?_, Layout.assignmentLine_of_firstStore ⟨before, after, hbody, hx, hfirst⟩⟩
    rw [hbody]
    exact Stmt.firstStore_partsAll hx hbefore
  · exact Layout.assignmentLine_of_firstStore hx
  · exact Layout.assignmentLine_eq_zero hnone

/-- The name of the entry is assigned inside a conditional, and then again outside. -/
def twiceEntry : Script where
  body :=
    [.assign 1 [.name "x"] (.literal (.int 1)),
      .ifElse 2 (.name "x") [.assign 3 [.name "tl"] (.literal (.int 1))] [],
      .assign 5 [.name "y", .name "tl"] (.literal (.int 1))]

theorem twiceEntry_clash_line : Stmt.Assigns twiceEntry.body Label.entry ∧
    twiceEntry.compileFrom "clash" 7 = ⟨.error (.rejected (.labelClash "tl" 5)), 7⟩ := by
  have hassigns : Stmt.Assigns twiceEntry.body Label.entry :=
    ⟨3, [.name "tl"], .literal (.int 1), by decide, by decide⟩
  obtain ⟨line, hcompile, -, hfirst, -⟩ := entry_clash_line hassigns "clash" 7
  have hstore : Stmt.FirstStore twiceEntry.body Label.entry
      (.assign 5 [.name "y", .name "tl"] (.literal (.int 1))) := by
    refine ⟨twiceEntry.body.take 2, [], rfl, ⟨_, _, _, rfl, by decide⟩, fun y hy hn => ?_⟩
    rw [← Layout.assigns_eq_true_iff] at hn
    revert y
    decide
  obtain rfl : line = 5 := hfirst _ hstore
  exact ⟨hassigns, hcompile⟩

/-- Not every clash on the entry label is reported on the line of the first assignment to it. -/
theorem not_every_entry_clash_located : ¬ ∀ (s : Script) (source : String) (seed : Nat) (x : Stmt),
    Stmt.FirstStore (Stmt.partsAll s.body) Label.entry x →
      (s.compileFrom source seed).result = .error (.rejected (.labelClash Label.entry x.line)) := by
  intro hall
  have hfirst : Stmt.FirstStore (Stmt.partsAll twiceEntry.body) Label.entry
      (.assign 3 [.name "tl"] (.literal (.int 1))) := by
    refine ⟨(Stmt.partsAll twiceEntry.body).take 2, (Stmt.partsAll twiceEntry.body).drop 3, rfl,
      ⟨_, _, _, rfl, by decide⟩, fun y hy hn => ?_⟩
    rw [← Layout.assigns_eq_true_iff] at hn
    revert y
    decide
  have hclash := hall twiceEntry "clash" 7 _ hfirst
  have hline : (twiceEntry.compileFrom "clash" 7).result =
      .error (.rejected (.labelClash "tl" 5)) := by decide
  rw [hline] at hclash
  exact absurd hclash (by decide)

end Script
end TreeAsm

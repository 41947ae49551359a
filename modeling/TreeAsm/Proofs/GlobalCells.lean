import TreeAsm.Proofs.Scoping

/-! The globals of a script and their cells. A name is global if an assignment outside routines
stores it, at whatever depth of conditionals and loops. The globals stand in the order of their
first assignments, each has the kind of the value that it gets there, and each has one static
cell. -/
namespace TreeAsm

/-- Without its repetitions a list keeps the order of first occurrences. The induction is from the
right: one more name comes behind those that are kept if it is new, and else changes nothing. -/
theorem pairwise_idxOf_eraseDups (names : List String) :
    names.eraseDups.Pairwise fun m n => names.idxOf m < names.idxOf n := by
  induction names using List.reverseRecOn with
  | nil => simp
  | append_singleton names last ih =>
    have hidx : ∀ m ∈ names, (names ++ [last]).idxOf m = names.idxOf m :=
      fun m hm => List.idxOf_append_of_mem hm
    have hkept : names.eraseDups.Pairwise fun m n =>
        (names ++ [last]).idxOf m < (names ++ [last]).idxOf n := by
      refine ih.imp_of_mem fun {m n} hm hn hlt => ?_
      rwa [hidx m (List.mem_eraseDups.1 hm), hidx n (List.mem_eraseDups.1 hn)]
    rw [List.eraseDups_append]
    by_cases hlast : last ∈ names
    · have hnone : [last].removeAll names = [] := by simpa [List.removeAll] using hlast
      rwa [hnone, List.eraseDups_nil, List.append_nil]
    · have hsome : [last].removeAll names = [last] := by simpa [List.removeAll] using hlast
      have hend : (names ++ [last]).idxOf last = names.length := by
        rw [List.idxOf_append_of_notMem hlast]
        simp
      rw [hsome]
      refine List.pairwise_append.2 ⟨hkept, List.pairwise_singleton _ _, fun m hm n hn => ?_⟩
      obtain rfl := List.mem_singleton.1 (List.mem_eraseDups.1 hn)
      rw [hend, hidx m (List.mem_eraseDups.1 hm)]
      exact List.idxOf_lt_length_of_mem (List.mem_eraseDups.1 hm)

namespace Stmt

/-- In the walk through a body, the first assignment that has the name among its targets is one of
this value. -/
def FirstValue (body : List Stmt) (n : String) (value : Expr) : Prop :=
  ∃ before line targets after, partsAll body = before ++ .assign line targets value :: after ∧
    .name n ∈ targets ∧
    ∀ line' targets' value', .assign line' targets' value' ∈ before → .name n ∉ targets'

theorem lookup_bound_assign {line : UInt32} {targets : List Expr} {value : Expr} {n : String} :
    (bound (.assign line targets value)).lookup n =
      if .name n ∈ targets then some value.initialKind else none := by
  rw [bound]
  simp only [← mem_filterMap_name?]
  induction targets.filterMap Expr.name? with
  | nil => simp
  | cons m rest ih =>
    rw [List.map_cons, List.lookup_cons, ih]
    by_cases hm : n = m
    · simp [hm]
    · simp [hm, beq_false_of_ne hm]

/-- The first mention of a name in a walk comes from the first assignment to it. -/
theorem exists_first_of_lookup {xs : List Stmt} {n : String} {k : VarKind}
    (h : (xs.flatMap bound).lookup n = some k) :
    ∃ before line targets value after,
      xs = before ++ .assign line targets value :: after ∧ .name n ∈ targets ∧
      k = value.initialKind ∧
      ∀ line' targets' value', .assign line' targets' value' ∈ before → .name n ∉ targets' := by
  induction xs with
  | nil => simp at h
  | cons x rest ih =>
    rw [List.flatMap_cons, List.lookup_append] at h
    cases hx : x.bound.lookup n with
    | none =>
      rw [hx, Option.none_or] at h
      obtain ⟨before, line, targets, value, after, rfl, hn, hk, hbefore⟩ := ih h
      refine ⟨x :: before, line, targets, value, after, rfl, hn, hk,
        fun line' targets' value' hm => ?_⟩
      rcases List.mem_cons.1 hm with rfl | hm
      · simpa [lookup_bound_assign] using hx
      · exact hbefore _ _ _ hm
    | some k' =>
      obtain rfl : k' = k := by simpa [hx] using h
      cases x with
      | assign line targets value =>
        rw [lookup_bound_assign] at hx
        split at hx
        next hn =>
          exact ⟨[], line, targets, value, rest, rfl, hn, (Option.some.inj hx).symm, by simp⟩
        next => simp at hx
      | _ => simp [bound] at hx

end Stmt

namespace Scope

theorem names_globals (s : Script) :
    (globals s).names = ((Stmt.assigned s.body).map Prod.fst).eraseDups := by
  rw [globals, names_ofList, List.map_map, Stmt.assigned, ← Stmt.bindsAll_eq]
  rfl

theorem role_of_mem_globals {s : Script} {v : Variable} (h : v ∈ (globals s).toList) :
    v.role = .global := by
  obtain ⟨b, -, rfl⟩ := List.mem_map.1 (List.mem_of_find?_eq_some (find?_of_mem_ofList h))
  rfl

theorem exists_firstValue_of_mem_globals {s : Script} {v : Variable} (h : v ∈ (globals s).toList) :
    ∃ value, Stmt.FirstValue s.body v.name value ∧ v.kind = value.initialKind := by
  have hlookup := lookup_of_mem_globals h
  rw [Stmt.bindsAll_eq] at hlookup
  obtain ⟨before, line, targets, value, after, hwalk, hn, hk, hbefore⟩ :=
    Stmt.exists_first_of_lookup hlookup
  exact ⟨value, ⟨before, line, targets, after, hwalk, hn, hbefore⟩, hk⟩

end Scope

/-- The line of static data that keeps a global, with the zero of its kind. -/
def Variable.staticLine (v : Variable) : Instruction :=
  match v.kind with
  | .integer => ⟨some (.plain v.name), .word, some (.raw "0"), some "global integer"⟩
  | .real => ⟨some (.plain v.name), .real, some (.raw "0.0"), some "global real"⟩
  | .boolean => ⟨some (.plain v.name), .word, some (.raw "0"), some "global boolean"⟩
  | .string => ⟨some (.plain v.name), .address, some (.raw "0"), some "global string"⟩

theorem Scope.staticData_eq (v : Variable) : staticData v = v.staticLine := by
  unfold Variable.staticLine staticData
  cases v.kind <;> rfl

namespace Script

/-- The globals are the names that are assigned outside routines, each once, in the order of their
first assignments, and a global has the kind of the first value that is assigned to it. The static
data have one line for each of them, in the same order, with its name as the label and the zero of
its kind. A global means the cell of its own name, and other names mean nothing. -/
theorem globals_by_first_assignment (s : Script) :
    (Scope.globals s).names.Nodup ∧
    (∀ n, n ∈ (Scope.globals s).names ↔ Stmt.Assigns s.body n) ∧
    (Scope.globals s).names.Pairwise (fun m n =>
      ((Stmt.assigned s.body).map Prod.fst).idxOf m <
        ((Stmt.assigned s.body).map Prod.fst).idxOf n) ∧
    (∀ v ∈ (Scope.globals s).toList, v.role = .global ∧
      ∃ value, Stmt.FirstValue s.body v.name value ∧ v.kind = value.initialKind) ∧
    (Scope.globals s).declarations = (Scope.globals s).toList.map Variable.staticLine ∧
    ∀ n loc, (Scope.globals s).staticCell? n = some loc ↔
      Stmt.Assigns s.body n ∧ loc = .static (.plain n) := by
  have hassigns : ∀ n, n ∈ (Scope.globals s).names ↔ Stmt.Assigns s.body n := by
    intro n
    rw [Scope.mem_names_globals, Stmt.mem_bindsAll_iff]
  refine ⟨(Scope.globals s).nodup_names, hassigns, ?_, fun v hv => ?_, ?_, fun n loc => ?_⟩
  · rw [Scope.names_globals]
    exact pairwise_idxOf_eraseDups _
  · exact ⟨Scope.role_of_mem_globals hv, Scope.exists_firstValue_of_mem_globals hv⟩
  · exact List.map_congr_left fun v _ => Scope.staticData_eq v
  · rw [Scope.staticCell?_eq_ite, ← hassigns]
    split
    next hn => simp [hn, eq_comm]
    next hn => simp [hn]

/-- Several targets at once, one of them twice; a first assignment in an alternative, with another
kind later on; first values of all kinds; and a routine that assigns a name of its own. -/
def scattered : Script where
  body :=
    [.define 1 "f" [] [.assign 2 [.name "own"] (.literal (.int 1))],
      .ifElse 3 (.literal (.bool true))
        [.whileLoop 4 (.name "b") [.assign 5 [.name "b", .literal (.int 0), .name "a", .name "b"]
          (.unary .neg (.literal (.real (.finite (.zero false)))))]]
        [.assign 6 [.name "c"] (.literal (.str "text")),
          .assign 7 [.name "a"] (.literal (.int 1))],
      .assign 8 [.name "d", .name "c"] (.binary .add (.name "a") (.name "b")),
      .assign 9 [.name "e"] (.literal (.bool false))]

/-- Also the lines of its listing are what they should be. -/
theorem scattered_globals_by_first_assignment :
    (Scope.globals scattered).toList = [⟨"b", .real, .global⟩, ⟨"a", .real, .global⟩,
      ⟨"c", .string, .global⟩, ⟨"d", .integer, .global⟩, ⟨"e", .boolean, .global⟩] ∧
    (∃ value, Stmt.FirstValue scattered.body "c" value ∧ value.initialKind = .string) ∧
    (Scope.globals scattered).declarations =
      [⟨some (.plain "b"), .real, some (.raw "0.0"), some "global real"⟩,
        ⟨some (.plain "a"), .real, some (.raw "0.0"), some "global real"⟩,
        ⟨some (.plain "c"), .address, some (.raw "0"), some "global string"⟩,
        ⟨some (.plain "d"), .word, some (.raw "0"), some "global integer"⟩,
        ⟨some (.plain "e"), .word, some (.raw "0"), some "global boolean"⟩] ∧
    ((Scope.globals scattered).declarations.map fun i => i.opcode.mnemonic) =
      [".REAL", ".REAL", ".ADDRSS", ".WORD", ".WORD"] ∧
    (Scope.globals scattered).staticCell? "d" = some (.static (.plain "d")) ∧
    (Scope.globals scattered).staticCell? "own" = none := by
  obtain ⟨-, hnames, -, hvars, hlines, hcell⟩ := globals_by_first_assignment scattered
  have hlist : (Scope.globals scattered).toList = [⟨"b", .real, .global⟩, ⟨"a", .real, .global⟩,
      ⟨"c", .string, .global⟩, ⟨"d", .integer, .global⟩, ⟨"e", .boolean, .global⟩] := by decide
  have hc : (⟨"c", .string, .global⟩ : Variable) ∈ (Scope.globals scattered).toList := by
    simp [hlist]
  have hd : "d" ∈ (Scope.globals scattered).names := by simp [Scope.names, hlist]
  have hown : "own" ∉ (Scope.globals scattered).names := by simp [Scope.names, hlist]
  obtain ⟨value, hfirst, hkind⟩ := (hvars _ hc).2
  rw [hlist] at hlines
  refine ⟨hlist, ⟨value, hfirst, hkind.symm⟩, hlines, hlines ▸ rfl, ?_, ?_⟩
  · exact (hcell "d" _).2 ⟨(hnames "d").1 hd, rfl⟩
  · refine Option.eq_none_iff_forall_ne_some.2 fun loc h => hown ?_
    exact (hnames "own").2 ((hcell "own" loc).1 h).1

end Script
end TreeAsm

import TreeAsm.Proofs.Placement
import TreeAsm.Proofs.Scoping

/-! How the frame of a routine is laid out. Slots are handed out with a counter of 16 bits in the
order of the scope, so a scope of more than 65535 names has no frame. In all others the place of a
name is its slot, parameters have the first slots, and the entry of the routine takes each argument
into the slot of its parameter. -/
namespace TreeAsm

namespace Frame

/-- The slots of some variables, drawn from a counter of 16 bits, and where the counter stands after
the last one. After each slot the counter has to go on, so its greatest number cannot be drawn. -/
def drawSlots (next : UInt16) : List Variable → Option (List Nat × Nat)
  | [] => some ([], next.toNat)
  | _ :: rest =>
    if next.toNat + 1 < UInt16.size then
      (drawSlots (next + 1) rest).map fun drawn => (next.toNat :: drawn.1, drawn.2)
    else none

/-- Counting step by step fails exactly if the last number is too great, and gives the numbers one
after another. -/
theorem drawSlots_eq (next : UInt16) (vs : List Variable) : drawSlots next vs =
    if next.toNat + vs.length ≤ slotLimit then
      some (List.range' next.toNat vs.length, next.toNat + vs.length)
    else none := by
  have hsize : UInt16.size = slotLimit + 1 := rfl
  induction vs generalizing next with
  | nil =>
    have hnext : next.toNat ≤ slotLimit := Nat.le_of_lt_succ next.toNat_lt_size
    simp [drawSlots, hnext]
  | cons v rest ih =>
    rw [drawSlots, List.length_cons]
    split
    next hlt =>
      have hstep : (next + 1).toNat = next.toNat + 1 := by
        rw [UInt16.toNat_add]
        exact Nat.mod_eq_of_lt hlt
      have hsum : next.toNat + 1 + rest.length = next.toNat + (rest.length + 1) := by omega
      rw [ih, hstep, hsum, List.range'_succ]
      split <;> rfl
    next hge => rw [if_neg (by omega)]

/-- What the frame of a scope is made of. -/
structure Lays (routine : String) (scope : Scope) (f : Frame) : Prop where
  size_eq : f.size = scope.names.length
  /-- The counter hands out the slots from zero on and ends at their number. -/
  drawn : drawSlots 0 scope.toList = some (List.range f.size, f.size)
  /-- The place of a name in the scope is its slot. -/
  slot_iff : ∀ n i, f.slot? n = some i ↔ scope.names[i]? = some n
  distinct : ∀ m n i, f.slot? m = some i → f.slot? n = some i → m = n
  used_iff : ∀ i, (∃ n, f.slot? n = some i) ↔ i < f.size
  /-- The cell of the result comes first, then one equate for each name with its slot. -/
  reservation_eq : f.reservation =
    ⟨some (.result routine), .word, some (.raw "0"), some "return value"⟩ ::
    scope.toList.zipIdx.map fun x =>
      ⟨some (.slot routine x.1.name), .equate, some (.raw (toString x.2)),
      some (x.1.role.word ++ " " ++ x.1.kind.word)⟩
  /-- The parameters are what stands in front of all other variables. -/
  params_eq : ∃ front rest, scope.toList = front ++ rest ∧ (∀ v ∈ front, v.role = .parameter) ∧
    (∀ v ∈ rest, v.role ≠ .parameter) ∧ f.params = front.map Variable.name
  /-- The entry reserves the slots, and then every argument goes into the slot of its own number. -/
  block_eq : ∀ body, (f.block body).code = f.reservation ++
    ⟨some (.plain routine), .enter, some (.imm f.size), some (toString f.size ++ " slot(s)")⟩ ::
      ((f.params.zipIdx.flatMap fun x => [⟨none, .push, some (.arg x.2), none⟩,
        ⟨none, .pop, some (.mem (.frame (.slot routine x.1) x.2)), some ("bind " ++ x.1)⟩]) ++
          body ++ f.epilogue)
  /-- The number of an argument has 16 bits. -/
  arg_lt : ∀ k < f.arity, (UInt16.ofNat k).toNat = k

variable {globals : Scope} {r : Routine} {f : Frame}

/-- Parameters come before all other variables of a routine. -/
theorem exists_params_front (h : f.locals = globals.localsOf r) :
    ∃ front rest, f.locals.toList = front ++ rest ∧
    (∀ v ∈ front, v.role = .parameter) ∧ (∀ v ∈ rest, v.role ≠ .parameter) ∧
      f.params = front.map Variable.name := by
  obtain ⟨rest, hlist, hinner⟩ := Scope.exists_toList_localsOf globals r
  have hfront : ∀ v ∈ (Scope.ofParams r.params).toList, v.role = .parameter :=
    fun v hv => Scope.role_of_mem_ofParams hv
  refine ⟨(Scope.ofParams r.params).toList, rest, h ▸ hlist, hfront, fun v hv => by
    simp [hinner v hv], ?_⟩
  rw [params_eq h, ← Scope.names_ofParams]
  rfl

theorem arity_le_size (f : Frame) : f.arity ≤ f.size := by
  rw [arity, params, List.length_map, size, ← Scope.length_toList]
  exact List.length_filter_le _ _

/-- No parameter is passed over where arguments are bound. -/
theorem bindings_eq (h : f.locals = globals.localsOf r) :
    f.bindings = f.params.zipIdx.flatMap fun x =>
      [⟨none, .push, some (.arg x.2), none⟩,
        ⟨none, .pop, some (.mem (.frame (.slot f.routine x.1) x.2)), some ("bind " ++ x.1)⟩] := by
  refine List.flatMap_congr fun x hx => ?_
  have hslot : f.slot? x.1 = some x.2 := slot?_param h (List.mem_zipIdx_iff_getElem?.1 hx)
  exact bindParam_eq hslot

/-- The frame of a scope is laid out as it should be, if it is the scope of a routine. -/
theorem lays_of_locals (h : f.locals = globals.localsOf r) : f.Lays f.routine f.locals where
  size_eq := f.locals.length_names.symm
  drawn := by
    have hlength : f.locals.toList.length = f.size := f.locals.length_toList
    have hfits : f.size ≤ slotLimit := f.size_le
    rw [drawSlots_eq, hlength, UInt16.toNat_zero, Nat.zero_add, if_pos hfits, List.range_eq_range']
  slot_iff n i := slot?_eq_some_iff
  distinct m n i hm hn := by
    rw [slot?_eq_some_iff] at hm hn
    exact Option.some.inj (hm.symm.trans hn)
  used_iff i := by
    constructor
    · rintro ⟨n, hn⟩
      exact slot?_lt hn
    · intro hi
      have hlt : i < f.locals.names.length := by rwa [Scope.length_names]
      exact ⟨f.locals.names[i], slot?_eq_some_iff.2 (List.getElem?_eq_getElem hlt)⟩
  reservation_eq := rfl
  params_eq := exists_params_front h
  block_eq body := by
    have hblock : (f.block body).code = f.reservation ++
        (((Instruction.on .enter (.imm f.size)).labelled (.plain f.routine)).commented
          (toString f.size ++ " slot(s)") ::
          (f.bindings ++ body ++ f.epilogue)) := by
      simp [block, prologue, bindings]
    rw [hblock, bindings_eq h]
    rfl
  arg_lt k hk := by
    have hlt : k < slotLimit := Nat.lt_of_lt_of_le hk (Nat.le_trans f.arity_le_size f.size_le)
    exact UInt16.toNat_ofNat_of_lt (Nat.lt_succ_of_lt hlt)

/-- A scope has no frame exactly if it has more names than there are slots. -/
theorem ofScope?_eq_none_iff (routine : String) (scope : Scope) :
    ofScope? routine scope = none ↔ slotLimit < scope.names.length := by
  simp [ofScope?]

/-- Exactly then the counter fails, too. -/
theorem drawSlots_eq_none_iff (scope : Scope) :
    drawSlots 0 scope.toList = none ↔ slotLimit < scope.names.length := by
  simp [drawSlots_eq]

/-- The locals of a routine have a frame unless there are more than 65535 of them, which is where a
counter of 16 bits runs over. Every other frame is laid out in the order of the scope. -/
theorem layout_of_locals {globals scope : Scope} {r : Routine} (h : globals.locals r = .ok scope)
    (routine : String) :
    (ofScope? routine scope = none ↔ 65535 < scope.names.length) ∧
    (drawSlots 0 scope.toList = none ↔ 65535 < scope.names.length) ∧
    ∀ f, ofScope? routine scope = some f → f.Lays routine scope := by
  refine ⟨ofScope?_eq_none_iff routine scope, drawSlots_eq_none_iff scope, fun f hf => ?_⟩
  obtain ⟨rfl, hlocals⟩ := ofScope?_eq_some hf
  rw [← hlocals]
  exact lays_of_locals (hlocals.trans (Scope.locals_eq_ok h).1)

end Frame

/-- Variables that have names of their own are all the first of their names. -/
theorem Variable.firsts_eq_self {vs : List Variable} (h : (vs.map Variable.name).Nodup) :
    firsts vs = vs := by
  induction vs with
  | nil => rfl
  | cons v rest ih =>
    obtain ⟨hv, hrest⟩ := List.nodup_cons.1 h
    have hkept : rest.filter (·.name ≠ v.name) = rest := by
      refine List.filter_eq_self.2 fun w hw => decide_eq_true ?_
      intro hwv
      exact hv (hwv ▸ List.mem_map_of_mem hw)
    rw [firsts_cons, hkept, ih hrest]

namespace Routine

/-- As many parameters as asked for, named by their numbers, and one local. -/
def crowd (count : Nat) : Routine where
  line := 1
  name := "crowd"
  params := (List.range count).map fun k => ⟨toString k, none⟩
  body := [.assign 2 [.name "last"] (.literal (.int 0))]

theorem nodup_params_crowd (count : Nat) : ((crowd count).params.map Param.name).Nodup := by
  have hnames : (crowd count).params.map Param.name = (List.range count).map toString :=
    List.map_map
  rw [hnames]
  refine (List.nodup_map_iff fun m n hmn => natText_injective ?_).2 List.nodup_range
  rw [← toList_toString_nat, ← toList_toString_nat, hmn]

theorem last_not_param_crowd (count : Nat) : "last" ∉ (crowd count).params.map Param.name := by
  intro hm
  obtain ⟨p, hp, hlast⟩ := List.mem_map.1 hm
  obtain ⟨k, -, rfl⟩ := List.mem_map.1 hp
  have hlast : toString k = "last" := hlast
  have hdigit : 'l'.isDigit = true := by
    refine isDigit_of_mem_natText (n := k) ?_
    rw [← toList_toString_nat, hlast]
    decide
  exact absurd hdigit (by decide)

theorem variables_crowd (count : Nat) : (crowd count).variables [] =
    (crowd count).params.map Param.variable ++ [⟨"last", .integer, .inner⟩] := by
  have hfirsts : Variable.firsts ((crowd count).params.map Param.variable) =
      (crowd count).params.map Param.variable := by
    apply Variable.firsts_eq_self
    rw [List.map_map]
    exact nodup_params_crowd count
  have hassigned : Stmt.assigned (crowd count).body = [("last", .integer)] := rfl
  have hlast := last_not_param_crowd count
  rw [Routine.variables, hfirsts, hassigned, List.filter_cons_of_pos (by simpa using hlast)]
  rfl

theorem locals_crowd (count : Nat) : ∃ scope, Scope.empty.locals (crowd count) = .ok scope ∧
    scope.toList = (crowd count).params.map Param.variable ++ [⟨"last", .integer, .inner⟩] :=
  ⟨Scope.empty.localsOf (crowd count), rfl,
    (Scope.toList_localsOf _ _).trans (variables_crowd count)⟩

end Routine

namespace Frame

/-- One name more than there are slots is one too many, and without it every name has its slot. -/
theorem crowd_layout :
    (∃ scope, Scope.empty.locals (.crowd 65535) = .ok scope ∧ ofScope? "w" scope = none) ∧
    ∃ scope f, Scope.empty.locals (.crowd 65534) = .ok scope ∧ ofScope? "w" scope = some f ∧
      f.Lays "w" scope ∧ f.size = 65535 ∧ f.slot? "last" = some 65534 := by
  have hlength : ∀ {count : Nat} {scope : Scope},
      scope.toList = (Routine.crowd count).params.map Param.variable ++
        [⟨"last", .integer, .inner⟩] →
      scope.names.length = count + 1 := by
    intro count scope hlist
    rw [Scope.names, hlist]
    simp [Routine.crowd]
  obtain ⟨wide, hwide, hwideList⟩ := Routine.locals_crowd 65535
  obtain ⟨full, hfull, hfullList⟩ := Routine.locals_crowd 65534
  have hfits : full.size ≤ slotLimit := by
    rw [← full.length_names, hlength hfullList]
    decide
  have hframe : ofScope? "w" full = some ⟨"w", full, hfits⟩ := dif_pos hfits
  have hlays := (layout_of_locals hfull "w").2.2 _ hframe
  have hlast : full.names[65534]? = some "last" := by
    rw [Scope.names, hfullList, List.map_append,
      List.getElem?_append_right (by simp [Routine.crowd])]
    simp [Routine.crowd]
  refine ⟨⟨wide, hwide, (layout_of_locals hwide "w").1.2 ?_⟩, full, _, hfull, hframe, hlays, ?_, ?_⟩
  · rw [hlength hwideList]
    decide
  · rw [hlays.size_eq, hlength hfullList]
  · exact (hlays.slot_iff _ _).2 hlast

end Frame
end TreeAsm

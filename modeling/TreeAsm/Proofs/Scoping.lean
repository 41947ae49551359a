import TreeAsm.Proofs.Build
import TreeAsm.Proofs.Scopes
import TreeAsm.Proofs.WellFormed

/-! The rule of scopes in routines. A routine has its distinct parameters and, after them, the names
that it assigns and that are neither parameters nor globals. Each of them has a slot of its own in
the frame. A global that is no parameter is its static cell in every routine, also where the routine
assigns it. -/
namespace TreeAsm

namespace Variable

/-- The first variable of each name, in order. -/
def firsts (vs : List Variable) : List Variable := vs.eraseDupsBy fun v w => v.name == w.name

@[simp] theorem firsts_nil : firsts [] = [] := rfl

theorem firsts_cons (v : Variable) (rest : List Variable) :
    firsts (v :: rest) = v :: firsts (rest.filter (·.name ≠ v.name)) := by
  rw [firsts, List.eraseDupsBy_cons, firsts]
  simp only [beq_eq_false_iff_ne]

end Variable

namespace Scope

/-- Variables come in behind those that are there, the first one of each new name. -/
theorem toList_insertAll (s : Scope) (vs : List Variable) :
    (s.insertAll vs).toList = s.toList ++ Variable.firsts (vs.filter (·.name ∉ s.names)) := by
  induction vs generalizing s with
  | nil => simp
  | cons v rest ih =>
    rw [insertAll_cons, ih, toList_insert, names_insert]
    by_cases hv : v.name ∈ s.names
    · simp only [if_pos hv]
      rw [List.filter_cons_of_neg (by simpa using hv)]
    · simp only [if_neg hv]
      rw [List.filter_cons_of_pos (by simpa using hv), Variable.firsts_cons, List.filter_filter,
        List.append_assoc, List.singleton_append]
      congr 3
      refine List.filter_congr fun w _ => ?_
      simp [and_comm]

theorem toList_ofList (vs : List Variable) : (ofList vs).toList = Variable.firsts vs := by
  rw [ofList, toList_insertAll, toList_empty, List.nil_append]
  congr 1
  exact List.filter_eq_self.2 fun v _ => by simp [names]

/-- The place of a name in a scope is its place among the names. -/
theorem position?_eq (s : Scope) (n : String) :
    s.position? n = if n ∈ s.names then some (s.names.idxOf n) else none := by
  split
  next hn => exact position?_eq_some_iff.2 (List.getElem?_idxOf hn)
  next hn =>
    refine Option.eq_none_iff_forall_ne_some.2 fun i hi => hn ?_
    exact List.mem_of_getElem? (position?_eq_some_iff.1 hi)

end Scope

/-- The kind that the annotation names, and integer if it names none or is not there. -/
def Param.kind (p : Param) : VarKind :=
  match p.annotation with
  | some "int" => .integer
  | some "float" => .real
  | some "bool" => .boolean
  | some "str" => .string
  | _ => .integer

theorem Param.ofParam_eq_kind (p : Param) : VarKind.ofParam p = p.kind := by
  unfold VarKind.ofParam kind
  split
  next h => rw [h]; rfl
  next h => rw [h]; rfl
  next h => rw [h]; rfl
  next h => rw [h]; rfl
  next hint hfloat hbool hstr =>
    cases ha : p.annotation with
    | none => rfl
    | some a =>
      rw [ha] at hint hfloat hbool hstr
      simp_all [VarKind.ofAnnotation?]

def Param.variable (p : Param) : Variable := ⟨p.name, p.kind, .parameter⟩

/-- What a body assigns, in the order of the text, at any depth of conditionals and loops. -/
def Stmt.assigned (body : List Stmt) : List (String × VarKind) := (partsAll body).flatMap bound

/-- What a routine has for itself: its distinct parameters in the order of their declarations, then
the distinct names that it assigns and that are neither parameters nor globals. -/
def Routine.variables (globals : List String) (r : Routine) : List Variable :=
  Variable.firsts (r.params.map Param.variable) ++
    Variable.firsts
      (((Stmt.assigned r.body).filter fun b =>
        b.1 ∉ r.params.map Param.name ∧ b.1 ∉ globals).map fun b => ⟨b.1, b.2, .inner⟩)

namespace Scope

theorem toList_ofParams (ps : List Param) :
    (ofParams ps).toList = Variable.firsts (ps.map Param.variable) := by
  simp only [ofParams, toList_ofList, Param.ofParam_eq_kind]
  rfl

theorem toList_localsOf (globals : Scope) (r : Routine) :
    (globals.localsOf r).toList = r.variables globals.names := by
  have hnames : ∀ n, n ∈ (ofParams r.params).names ↔ n ∈ r.params.map Param.name := by
    intro n
    rw [names_ofParams, List.mem_eraseDups]
  rw [localsOf, toList_insertAll, toList_ofParams, Routine.variables, Stmt.assigned,
    ← Stmt.bindsAll_eq, List.filter_map, List.filter_filter]
  congr 3
  refine List.filter_congr fun b _ => ?_
  simp only [Function.comp_apply, hnames, Bool.decide_and, decide_not, ← contains_iff,
    Bool.decide_eq_true]

/-- A routine keeps no slot for a global, unless a parameter has its name. -/
theorem not_mem_names_localsOf {globals : Scope} {r : Routine} {n : String}
    (hglobal : n ∈ globals.names) (hparam : n ∉ r.params.map Param.name) :
    n ∉ (globals.localsOf r).names := by
  rw [mem_names_localsOf]
  rintro (h | ⟨-, h⟩)
  · exact hparam h
  · exact h hglobal

end Scope

namespace Frame

theorem ofScope?_eq_some {routine : String} {scope : Scope} {f : Frame}
    (h : ofScope? routine scope = some f) : f.routine = routine ∧ f.locals = scope := by
  unfold ofScope? at h
  split at h
  next => exact Option.some.inj h ▸ ⟨rfl, rfl⟩
  next => simp at h

theorem resolve?_eq (f : Frame) (n : String) :
    f.resolve? n =
      if n ∈ f.locals.names then some (.frame (.slot f.routine n) (f.locals.names.idxOf n))
      else none := by
  rw [resolve?, slot?, Scope.position?_eq]
  split <;> rfl

end Frame

theorem Scope.staticCell?_eq_ite (globals : Scope) (n : String) :
    globals.staticCell? n = if n ∈ globals.names then some (.static (.plain n)) else none := by
  simp only [staticCell?, contains_iff]

namespace Script

/-- The rule of scopes. The locals of a routine are its distinct parameters and then the distinct
names that it assigns and that are neither parameters nor globals, each with the kind of its first
mention. In the body of the routine these names mean their slots, a global that is no parameter
means its static cell, and other names mean nothing. So a global gets no slot by being assigned. -/
theorem routine_scoping_rule {s : Script} {r : Routine} {scope : Scope}
    (h : (Scope.globals s).locals r = .ok scope) :
    scope.toList = r.variables (Scope.globals s).names ∧
    ∀ f, Frame.ofScope? r.name scope = some f → ∀ l : Layout, l.globals = Scope.globals s → ∀ n,
      (l.routineEnv f).resolve n =
        (if n ∈ (r.variables (Scope.globals s).names).map Variable.name then
          some (.frame (.slot r.name n)
            (((r.variables (Scope.globals s).names).map Variable.name).idxOf n))
        else if n ∈ (Scope.globals s).names ∧ n ∉ r.params.map Param.name then
          some (.static (.plain n))
        else none) ∧
      (n ∈ (Scope.globals s).names → n ∉ r.params.map Param.name → f.slot? n = none) := by
  obtain ⟨rfl, -, -⟩ := Scope.locals_eq_ok h
  have hlist := Scope.toList_localsOf (Scope.globals s) r
  refine ⟨hlist, fun f hf l hl n => ?_⟩
  obtain ⟨hroutine, hlocals⟩ := Frame.ofScope?_eq_some hf
  have hnames : f.locals.names = (r.variables (Scope.globals s).names).map Variable.name := by
    rw [hlocals, Scope.names, hlist]
  have hglobal : n ∈ (Scope.globals s).names → n ∉ r.params.map Param.name →
      n ∉ f.locals.names := by
    rw [hlocals]
    exact Scope.not_mem_names_localsOf
  constructor
  · simp only [Layout.routineEnv, hl, f.resolve?_eq, Scope.staticCell?_eq_ite, hroutine, ← hnames]
    by_cases hn : n ∈ f.locals.names
    · simp only [if_pos hn, Option.some_or]
    · have hparam : n ∉ r.params.map Param.name := by
        intro hp
        apply hn
        rw [hlocals, Scope.mem_names_localsOf]
        exact .inl hp
      simp only [if_neg hn, Option.none_or, hparam, not_false_eq_true, and_true]
  · intro hg hp
    rw [Frame.slot?, Scope.position?_eq, if_neg (hglobal hg hp)]

/-- Parameters of all annotations, one of them declared twice and named like a global; another
global is assigned, and locals get values of all kinds, first inside a conditional. -/
def shadower : Routine where
  line := 4
  name := "f"
  params :=
    [⟨"x", some "float"⟩, ⟨"a", none⟩, ⟨"x", some "str"⟩, ⟨"i", some "int"⟩, ⟨"b", some "bool"⟩,
      ⟨"s", some "str"⟩, ⟨"o", some "Float"⟩]
  body :=
    [.whileLoop 5 (.name "a")
      [.ifElse 6 (.name "x") [.assign 7 [.name "t"] (.literal (.str "s"))]
          [.assign 8 [.name "u"] (.literal (.bool true))],
        .assign 9 [.name "total"] (.name "t"), .assign 10 [.name "t"] (.literal (.int 1))],
      .assign 11 [.name "x", .name "v"] (.unary .neg (.literal (.int 2))),
      .assign 12 [.name "w"] (.unary .neg (.literal (.real (.finite (.zero false))))),
      .assign 13 [.name "y"] (.unary .not (.literal (.bool true)))]

def shadowed : Script where
  body :=
    [.assign 1 [.name "x"] (.literal (.int 0)),
      .ifElse 2 (.name "x") [.assign 3 [.name "total"] (.name "x")] [],
      .define shadower.line shadower.name shadower.params shadower.body]

def shadowerVariables : List Variable :=
  [⟨"x", .real, .parameter⟩, ⟨"a", .integer, .parameter⟩, ⟨"i", .integer, .parameter⟩,
    ⟨"b", .boolean, .parameter⟩, ⟨"s", .string, .parameter⟩, ⟨"o", .integer, .parameter⟩,
    ⟨"t", .string, .inner⟩, ⟨"u", .boolean, .inner⟩, ⟨"v", .integer, .inner⟩,
    ⟨"w", .real, .inner⟩, ⟨"y", .integer, .inner⟩]

theorem shadower_scoping_rule : ∃ scope f, (Scope.globals shadowed).locals shadower = .ok scope ∧
    Frame.ofScope? "f" scope = some f ∧ scope.toList = shadowerVariables ∧
    (Layout.routineEnv ⟨Scope.globals shadowed, [f]⟩ f).resolve "t" =
      some (.frame (.slot "f" "t") 6) ∧
    (Layout.routineEnv ⟨Scope.globals shadowed, [f]⟩ f).resolve "x" =
      some (.frame (.slot "f" "x") 0) ∧
    (Layout.routineEnv ⟨Scope.globals shadowed, [f]⟩ f).resolve "total" =
      some (.static (.plain "total")) ∧
    (Layout.routineEnv ⟨Scope.globals shadowed, [f]⟩ f).resolve "f" = none ∧
    f.slot? "total" = none := by
  obtain ⟨scope, h⟩ : ∃ scope, (Scope.globals shadowed).locals shadower = .ok scope :=
    exists_eq_ok (by decide)
  obtain ⟨hlist, hresolve⟩ := routine_scoping_rule h
  have hvariables : shadower.variables (Scope.globals shadowed).names = shadowerVariables := by
    decide
  have hsize : scope.size ≤ slotLimit := by
    rw [← scope.length_toList, hlist, hvariables]
    decide
  have hframe : Frame.ofScope? "f" scope = some ⟨"f", scope, hsize⟩ := dif_pos hsize
  have hat := hresolve _ hframe ⟨Scope.globals shadowed, [⟨"f", scope, hsize⟩]⟩ rfl
  rw [hvariables] at hlist hat
  refine ⟨scope, _, h, hframe, hlist, (hat "t").1, (hat "x").1, ?_, ?_,
    (hat "total").2 (by decide) (by decide)⟩
  · exact (hat "total").1.trans (by decide)
  · exact (hat "f").1.trans (by decide)

end Script
end TreeAsm

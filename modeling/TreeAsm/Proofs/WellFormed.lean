import TreeAsm.Label
import TreeAsm.Proofs.Semantics

/-! Which scripts are well-formed, said of the statements that stand in them and without a look at
the compiler. The walks over names that scopes are built from see the same statements. -/
namespace TreeAsm

namespace Expr

mutual

/-- The expression and everything that it is made of. -/
def parts : Expr → List Expr
  | .literal v => [.literal v]
  | .name n => [.name n]
  | .binary op l r => .binary op l r :: (parts l ++ parts r)
  | .unary op e => .unary op e :: parts e
  | .call f args => .call f args :: partsAll args
  | .unsupported c => [.unsupported c]

def partsAll : List Expr → List Expr
  | [] => []
  | e :: r => parts e ++ partsAll r

end

theorem mem_partsAll {q : Expr} {es : List Expr} : q ∈ partsAll es ↔ ∃ e ∈ es, q ∈ parts e := by
  induction es with
  | nil => simp [partsAll]
  | cons e r ih => simp [partsAll, ih]

theorem mem_parts_self (e : Expr) : e ∈ e.parts := by
  cases e <;> simp [parts]

mutual

theorem sizeOf_le_of_mem_parts {q : Expr} (e : Expr) (h : q ∈ e.parts) : sizeOf q ≤ sizeOf e := by
  match e with
  | .literal _ | .name _ | .unsupported _ =>
    rw [parts, List.mem_singleton] at h
    exact h ▸ Nat.le_refl _
  | .binary op l r =>
    rw [parts, List.mem_cons, List.mem_append] at h
    rcases h with rfl | h | h
    · exact Nat.le_refl _
    · have := sizeOf_le_of_mem_parts l h
      rw [binary.sizeOf_spec]
      omega
    · have := sizeOf_le_of_mem_parts r h
      rw [binary.sizeOf_spec]
      omega
  | .unary op e =>
    rw [parts, List.mem_cons] at h
    rcases h with rfl | h
    · exact Nat.le_refl _
    · have := sizeOf_le_of_mem_parts e h
      rw [unary.sizeOf_spec]
      omega
  | .call f args =>
    rw [parts, List.mem_cons] at h
    rcases h with rfl | h
    · exact Nat.le_refl _
    · have := sizeOf_lt_of_mem_partsAll args h
      rw [call.sizeOf_spec]
      omega

theorem sizeOf_lt_of_mem_partsAll {q : Expr} (es : List Expr) (h : q ∈ partsAll es) :
    sizeOf q < sizeOf es := by
  match es with
  | [] => simp [partsAll] at h
  | e :: r =>
    rw [partsAll, List.mem_append] at h
    rw [List.cons.sizeOf_spec]
    rcases h with h | h
    · have := sizeOf_le_of_mem_parts e h
      omega
    · have := sizeOf_lt_of_mem_partsAll r h
      omega

end

/-- No call is among its own arguments. -/
theorem ne_call_of_mem_partsAll {q : Expr} {f : String} {args : List Expr} (h : q ∈ partsAll args) :
    q ≠ .call f args := by
  rintro rfl
  have := sizeOf_lt_of_mem_partsAll args h
  rw [call.sizeOf_spec] at this
  omega

mutual

theorem mem_reads_iff {n : String} (e : Expr) : n ∈ e.reads ↔ .name n ∈ e.parts := by
  match e with
  | .literal _ | .unsupported _ => simp [reads, parts]
  | .name m => simp [reads, parts]
  | .binary op l r => simp [reads, parts, mem_reads_iff l, mem_reads_iff r]
  | .unary op e => simp [reads, parts, mem_reads_iff e]
  | .call f args => simp [reads, parts, mem_readsAll_iff args]

theorem mem_readsAll_iff {n : String} (es : List Expr) :
    n ∈ readsAll es ↔ .name n ∈ partsAll es := by
  match es with
  | [] => simp [readsAll, partsAll]
  | e :: r => simp [readsAll, partsAll, mem_reads_iff e, mem_readsAll_iff r]

end

/-- The kind of a variable that gets this value first. A literal, with or without a minus sign,
gives its own kind, and everything else is an integer. -/
def initialKind : Expr → VarKind
  | .literal (.int _) | .unary .neg (.literal (.int _)) => .integer
  | .literal (.real _) | .unary .neg (.literal (.real _)) => .real
  | .literal (.bool _) | .unary .neg (.literal (.bool _)) => .boolean
  | .literal (.str _) | .unary .neg (.literal (.str _)) => .string
  | _ => .integer

theorem infer_eq_initialKind (e : Expr) : VarKind.infer e = e.initialKind := by
  cases e with
  | literal v => cases v <;> rfl
  | unary op operand =>
    cases op with
    | not => rfl
    | neg =>
      cases operand with
      | literal v => cases v <;> rfl
      | _ => rfl
  | _ => rfl

end Expr

namespace Stmt

mutual

/-- The statement and everything inside it, at any depth of conditionals and loops. Routine bodies
are not entered. -/
def parts : Stmt → List Stmt
  | .ifElse line test body orelse =>
    .ifElse line test body orelse :: (partsAll body ++ partsAll orelse)
  | .whileLoop line test body => .whileLoop line test body :: partsAll body
  | .assign line targets value => [.assign line targets value]
  | .update line target op value => [.update line target op value]
  | .define line name params body => [.define line name params body]
  | .ret line value => [.ret line value]
  | .eval line value => [.eval line value]
  | .pass line => [.pass line]
  | .unsupported line construct => [.unsupported line construct]

def partsAll : List Stmt → List Stmt
  | [] => []
  | x :: r => parts x ++ partsAll r

end

theorem mem_partsAll {x : Stmt} {xs : List Stmt} : x ∈ partsAll xs ↔ ∃ y ∈ xs, x ∈ parts y := by
  induction xs with
  | nil => simp [partsAll]
  | cons y r ih => simp [partsAll, ih]

/-- The expressions of the statement that are evaluated. The targets of an assignment are not, the
target of an update is. -/
def evaluated : Stmt → List Expr
  | .assign _ _ value => [value]
  | .update _ target _ value => [target, value]
  | .ifElse _ test .. => [test]
  | .whileLoop _ test _ => [test]
  | .ret _ value => value.toList
  | .eval _ value => [value]
  | .define .. | .pass _ | .unsupported .. => []

/-- A statement in the body, at any depth of conditionals and loops, assigns the name. -/
def Assigns (body : List Stmt) (n : String) : Prop :=
  ∃ line targets value, .assign line targets value ∈ partsAll body ∧ .name n ∈ targets

theorem mem_filterMap_name? {n : String} {targets : List Expr} :
    n ∈ targets.filterMap Expr.name? ↔ .name n ∈ targets := by
  rw [List.mem_filterMap]
  constructor
  · rintro ⟨t, ht, hn⟩
    cases t with
    | name m => exact Option.some.inj hn ▸ ht
    | _ => simp [Expr.name?] at hn
  · exact fun h => ⟨_, h, rfl⟩

/-- What the statement itself binds, without the statements inside it. -/
def bound : Stmt → List (String × VarKind)
  | .assign _ targets value => (targets.filterMap Expr.name?).map (·, value.initialKind)
  | _ => []

/-- The names that the statement itself reads. -/
def read (x : Stmt) : List (String × UInt32) := (x.evaluated.flatMap Expr.reads).map (·, x.line)

def defined : Stmt → List (String × UInt32)
  | .define line name _ _ => [(name, line)]
  | _ => []

mutual

theorem binds_eq (x : Stmt) : binds x = x.parts.flatMap bound := by
  match x with
  | .ifElse line test body orelse =>
    simp [binds, parts, bound, bindsAll_eq body, bindsAll_eq orelse]
  | .whileLoop line test body => simp [binds, parts, bound, bindsAll_eq body]
  | .assign line targets value => simp [binds, parts, bound, value.infer_eq_initialKind]
  | .update .. | .define .. | .ret .. | .eval .. | .pass _ | .unsupported .. =>
    simp [binds, parts, bound]

theorem bindsAll_eq (xs : List Stmt) : bindsAll xs = (partsAll xs).flatMap bound := by
  match xs with
  | [] => rfl
  | x :: r => simp [bindsAll, partsAll, binds_eq x, bindsAll_eq r]

end

mutual

theorem reads_eq (x : Stmt) : reads x = x.parts.flatMap read := by
  match x with
  | .ifElse line test body orelse =>
    simp [reads, parts, read, evaluated, Stmt.line, readsAll_eq body, readsAll_eq orelse]
  | .whileLoop line test body => simp [reads, parts, read, evaluated, Stmt.line, readsAll_eq body]
  | .ret line value => cases value <;> simp [reads, parts, read, evaluated, Stmt.line]
  | .assign .. | .update .. | .define .. | .eval .. | .pass _ | .unsupported .. =>
    simp [reads, parts, read, evaluated, Stmt.line]

theorem readsAll_eq (xs : List Stmt) : readsAll xs = (partsAll xs).flatMap read := by
  match xs with
  | [] => rfl
  | x :: r => simp [readsAll, partsAll, reads_eq x, readsAll_eq r]

end

mutual

theorem defines_eq (x : Stmt) : defines x = x.parts.flatMap defined := by
  match x with
  | .ifElse line test body orelse =>
    simp [defines, parts, defined, definesAll_eq body, definesAll_eq orelse]
  | .whileLoop line test body => simp [defines, parts, defined, definesAll_eq body]
  | .assign .. | .update .. | .define .. | .ret .. | .eval .. | .pass _ | .unsupported .. =>
    simp [defines, parts, defined]

theorem definesAll_eq (xs : List Stmt) : definesAll xs = (partsAll xs).flatMap defined := by
  match xs with
  | [] => rfl
  | x :: r => simp [definesAll, partsAll, defines_eq x, definesAll_eq r]

end

theorem mem_bindsAll_iff {n : String} {xs : List Stmt} :
    n ∈ (bindsAll xs).map Prod.fst ↔ Assigns xs n := by
  rw [bindsAll_eq, List.map_flatMap, List.mem_flatMap]
  constructor
  · rintro ⟨x, hx, hn⟩
    cases x with
    | assign line targets value =>
      refine ⟨line, targets, value, hx, mem_filterMap_name?.1 ?_⟩
      simpa [bound] using hn
    | _ => simp [bound] at hn
  · rintro ⟨line, targets, value, hx, hn⟩
    refine ⟨_, hx, ?_⟩
    simpa [bound] using mem_filterMap_name?.2 hn

theorem mem_readsAll_iff {n : String} {line : UInt32} {xs : List Stmt} : (n, line) ∈ readsAll xs ↔
    ∃ x ∈ partsAll xs, x.line = line ∧ ∃ e ∈ x.evaluated, .name n ∈ e.parts := by
  simp only [readsAll_eq, List.mem_flatMap, read, List.mem_map, Prod.mk.injEq, Expr.mem_reads_iff]
  constructor
  · rintro ⟨x, hx, m, he, rfl, hl⟩
    exact ⟨x, hx, hl, he⟩
  · rintro ⟨x, hx, hl, he⟩
    exact ⟨x, hx, n, he, rfl, hl⟩

/-- No routine is defined inside a body exactly if no definition stands in it. -/
theorem definesAll_eq_nil_iff {xs : List Stmt} : definesAll xs = [] ↔
    ∀ line name params body, .define line name params body ∉ partsAll xs := by
  rw [definesAll_eq, List.flatMap_eq_nil_iff]
  constructor
  · intro h line name params body hx
    simpa [defined] using h _ hx
  · intro h x hx
    cases x with
    | define line name params body => exact absurd hx (h line name params body)
    | _ => rfl

end Stmt

namespace Script

/-- The code of a routine, or that of the top level. -/
def code (s : Script) : Option Routine → List Stmt
  | none => s.topLevel
  | some r => r.body

/-- The statement stands in the code of the routine, or of the top level, at any depth of
conditionals and loops. -/
def Holds (s : Script) (ρ : Option Routine) (x : Stmt) : Prop :=
  (∀ r ∈ ρ, r ∈ s.routines) ∧ x ∈ Stmt.partsAll (s.code ρ)

/-- A name can be read if it is a global or, in a routine, a parameter or something that the routine
assigns. -/
def Known (s : Script) (ρ : Option Routine) (n : String) : Prop :=
  Stmt.Assigns s.body n ∨ ∃ r ∈ ρ, n ∈ r.params.map Param.name ∨ Stmt.Assigns r.body n

/-- A call of a routine has as many arguments as the routine has distinct parameters. Where no
routine has the name, printing takes one argument and is a statement, and reading takes none. -/
def MayCall (s : Script) (x : Stmt) (f : String) (args : List Expr) : Prop :=
  (∃ r ∈ s.routines, r.name = f ∧ args.length = r.formals.length) ∨
    (∀ r ∈ s.routines, r.name ≠ f) ∧
      (f = "print" ∧ args.length = 1 ∧ (∃ line, x = .eval line (.call f args)) ∨
        f = "input" ∧ args = [])

/-- The statement is of a shape that is allowed where it stands. Only names are assigned, one at a
time; nothing is returned outside routines, and routines are defined nowhere but at the level of the
script. -/
def Shaped (ρ : Option Routine) : Stmt → Prop
  | .assign _ targets _ => ∃ n, targets = [.name n]
  | .update _ target _ _ => ∃ n, target = .name n
  | .ret .. => ρ.isSome = true
  | .define .. | .unsupported .. => False
  | .ifElse .. | .whileLoop .. | .eval .. | .pass _ => True

/-- What a statement has to keep to where it stands. -/
structure Fits (s : Script) (ρ : Option Routine) (x : Stmt) : Prop where
  shaped : Shaped ρ x
  supported : ∀ e ∈ x.expressions, ∀ construct, .unsupported construct ∉ e.parts
  known : ∀ e ∈ x.evaluated, ∀ n, .name n ∈ e.parts → s.Known ρ n
  calls : ∀ e ∈ x.expressions, ∀ f args, .call f args ∈ e.parts → s.MayCall x f args

/-- What a script has to keep to. -/
structure WellFormed (s : Script) : Prop where
  entry_free : ¬ Stmt.Assigns s.body Label.entry
  distinct : (s.routines.map Routine.name).Nodup
  routine_names : ∀ r ∈ s.routines, r.name ≠ Label.entry ∧ ¬ Stmt.Assigns s.body r.name
  fits : ∀ ρ x, s.Holds ρ x → s.Fits ρ x

end Script
end TreeAsm

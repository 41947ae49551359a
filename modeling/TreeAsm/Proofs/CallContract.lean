import TreeAsm.Proofs.Acceptance
import TreeAsm.Proofs.FrameSlots

/-! What a call hands over. In a script that compiles, every call of a routine has as many arguments
as the routine has distinct parameters, and the routine takes each argument into the slot of the
parameter of that number. A parameter that is declared again counts once, at the place of its first
declaration. -/
namespace TreeAsm

namespace Stmt

mutual

/-- The statement and everything inside it, routine bodies included. -/
def nested : Stmt → List Stmt
  | .ifElse line test body orelse =>
    .ifElse line test body orelse :: (nestedAll body ++ nestedAll orelse)
  | .whileLoop line test body => .whileLoop line test body :: nestedAll body
  | .define line name params body => .define line name params body :: nestedAll body
  | .assign line targets value => [.assign line targets value]
  | .update line target op value => [.update line target op value]
  | .ret line value => [.ret line value]
  | .eval line value => [.eval line value]
  | .pass line => [.pass line]
  | .unsupported line construct => [.unsupported line construct]

def nestedAll : List Stmt → List Stmt
  | [] => []
  | x :: r => nested x ++ nestedAll r

end

theorem mem_nestedAll {x : Stmt} {xs : List Stmt} : x ∈ nestedAll xs ↔ ∃ y ∈ xs, x ∈ nested y := by
  induction xs with
  | nil => simp [nestedAll]
  | cons y r ih => simp [nestedAll, ih]

mutual

/-- Where no routine is defined there are no routine bodies to go into. -/
theorem nested_eq_parts (x : Stmt) (h : ∀ y ∈ x.parts, y.routine? = none) : x.nested = x.parts := by
  match x with
  | .ifElse line test body orelse =>
    simp only [parts, List.forall_mem_cons, List.forall_mem_append] at h
    rw [nested, parts, nestedAll_eq_partsAll body h.2.1, nestedAll_eq_partsAll orelse h.2.2]
  | .whileLoop line test body =>
    simp only [parts, List.forall_mem_cons] at h
    rw [nested, parts, nestedAll_eq_partsAll body h.2]
  | .define line name params body => simp [parts, routine?] at h
  | .assign .. | .update .. | .ret .. | .eval .. | .pass _ | .unsupported .. => simp [nested, parts]

theorem nestedAll_eq_partsAll (xs : List Stmt) (h : ∀ y ∈ partsAll xs, y.routine? = none) :
    nestedAll xs = partsAll xs := by
  match xs with
  | [] => rfl
  | x :: r =>
    simp only [partsAll, List.forall_mem_append] at h
    rw [nestedAll, partsAll, nested_eq_parts x h.1, nestedAll_eq_partsAll r h.2]

end

end Stmt

/-- Parameters with names of their own are all kept. -/
theorem Routine.formals_eq_of_nodup {r : Routine} (h : (r.params.map Param.name).Nodup) :
    r.formals = r.params.map Param.name := by
  have hlist : (Scope.ofParams r.params).toList = r.params.map Param.variable := by
    refine (Scope.toList_ofParams _).trans (Variable.firsts_eq_self ?_)
    rw [List.map_map]
    exact h
  rw [formals, ← Scope.names_ofParams, Scope.names, hlist, List.map_map]
  rfl

namespace Script

variable {s : Script}

/-- Somewhere in the script there is a call of the routine with these arguments. -/
def HasCall (s : Script) (name : String) (args : List Expr) : Prop :=
  ∃ x ∈ Stmt.nestedAll s.body, ∃ e ∈ x.expressions, .call name args ∈ e.parts

instance (s : Script) (name : String) (args : List Expr) : Decidable (s.HasCall name args) :=
  inferInstanceAs (Decidable
    (∃ x ∈ Stmt.nestedAll s.body, ∃ e ∈ x.expressions, .call name args ∈ e.parts))

namespace WellFormed

theorem routine?_eq_none (h : s.WellFormed) {ρ : Option Routine} {x : Stmt} (hx : s.Holds ρ x) :
    x.routine? = none := by
  have hshaped := (h.fits ρ x hx).shaped
  cases x with
  | define line name params body => exact hshaped.elim
  | _ => rfl

/-- In a well-formed script a statement stands at top level or in a routine, or it defines a
routine. A definition at the level of the script is left out of the top level, and its body is code
of its own. -/
theorem holds_of_mem_nestedAll (h : s.WellFormed) {x : Stmt} (hx : x ∈ Stmt.nestedAll s.body) :
    (∃ ρ, s.Holds ρ x) ∨ x.expressions = [] := by
  obtain ⟨y, hy, hx⟩ := Stmt.mem_nestedAll.1 hx
  cases hroutine : y.routine? with
  | none =>
    have htop : y ∈ s.topLevel := List.mem_filter.2 ⟨hy, by simp [hroutine]⟩
    have hholds : ∀ z ∈ y.parts, s.Holds none z :=
      fun z hz => ⟨by simp, Stmt.mem_partsAll.2 ⟨y, htop, hz⟩⟩
    rw [Stmt.nested_eq_parts y fun z hz => h.routine?_eq_none (hholds z hz)] at hx
    exact .inl ⟨none, hholds x hx⟩
  | some r =>
    have hr : r ∈ s.routines := List.mem_filterMap.2 ⟨y, hy, hroutine⟩
    have hholds : ∀ z ∈ Stmt.partsAll r.body, s.Holds (some r) z :=
      fun z hz => ⟨by simpa using hr, hz⟩
    cases y with
    | define line name params body =>
      obtain rfl := Option.some.inj hroutine
      rw [Stmt.nested, List.mem_cons, Stmt.nestedAll_eq_partsAll body fun z hz =>
        h.routine?_eq_none (hholds z hz)] at hx
      rcases hx with rfl | hx
      · exact .inr rfl
      · exact .inl ⟨_, hholds x hx⟩
    | _ => simp [Stmt.routine?] at hroutine

/-- A call of a routine has an argument for each of its distinct parameters. -/
theorem length_eq_of_hasCall (h : s.WellFormed) {r : Routine} (hr : r ∈ s.routines)
    {args : List Expr} (hc : s.HasCall r.name args) : args.length = r.formals.length := by
  obtain ⟨x, hx, e, he, hcall⟩ := hc
  rcases h.holds_of_mem_nestedAll hx with ⟨ρ, hholds⟩ | hnone
  · rcases (h.fits ρ x hholds).calls e he _ _ hcall with ⟨q, hq, hname, hlength⟩ | ⟨hfree, -⟩
    · obtain rfl : q = r := List.inj_on_of_nodup_map h.distinct hq hr hname
      exact hlength
    · exact absurd rfl (hfree r hr)
  · simp [hnone] at he

end WellFormed

/-- In a script that compiles, every call of a routine passes one argument for each distinct
parameter of the routine. The block of the routine begins with the code that takes the arguments, in
order, into the slots of these parameters. Parameters that have names of their own are all of them
distinct. -/
theorem calls_match_distinct_params {source : String} {seed : Nat} {p : Program}
    (h : (s.compileFrom source seed).result = .ok p) {r : Routine} (hr : r ∈ s.routines) :
    (∀ args, s.HasCall r.name args → args.length = r.formals.length) ∧
    (∃ (f : Frame) (body : List Instruction), Frame.ofRoutine (Scope.globals s) r = .ok f ∧
      f.block body ∈ p.routines ∧ f.arity = r.formals.length ∧
      (∀ k n, r.formals[k]? = some n → f.slot? n = some k) ∧
      (f.block body).code = f.reservation ++
        ⟨some (.plain r.name), .enter, some (.imm f.size), some (toString f.size ++ " slot(s)")⟩ ::
          ((r.formals.zipIdx.flatMap fun x => [⟨none, .push, some (.arg x.2), none⟩,
            ⟨none, .pop, some (.mem (.frame (.slot r.name x.1) x.2)), some ("bind " ++ x.1)⟩]) ++
              body ++ f.epilogue)) ∧
    ((r.params.map Param.name).Nodup → r.formals = r.params.map Param.name) := by
  refine ⟨fun args hc => (wellFormed_of_compiles h).length_eq_of_hasCall hr hc, ?_,
    Routine.formals_eq_of_nodup⟩
  obtain ⟨b⟩ := Build.nonempty h
  obtain ⟨x, hx, rfl⟩ := List.mem_map.1 (b.routines_eq ▸ hr : r ∈ b.pieces.map fun x => x.1)
  obtain ⟨hname, -, hlocals⟩ := b.routine_eq_of_mem hx
  have hparams : x.2.1.params = x.1.formals := Frame.params_eq hlocals
  have hblock := (Frame.lays_of_locals hlocals).block_eq (Code.settle x.2.2)
  refine ⟨x.2.1, Code.settle x.2.2, ?_, ?_, congrArg List.length hparams, fun k n hk => ?_, ?_⟩
  · rw [← b.globals_eq]
    exact b.ofRoutine_of_mem hx
  · rw [b.blocks_eq]
    exact List.mem_map_of_mem hx
  · exact Frame.slot?_param hlocals (hparams ▸ hk)
  · rwa [hparams, hname] at hblock

/-- A parameter is declared twice. -/
def doubledRoutine : Routine where
  line := 1
  name := "f"
  params := [⟨"x", none⟩, ⟨"x", some "float"⟩, ⟨"y", none⟩]
  body := [.ret 2 (some (.binary .add (.name "x") (.name "y")))]

/-- The calls pass an argument less than there are declarations. -/
def doubled : Script where
  body :=
    [.define doubledRoutine.line doubledRoutine.name doubledRoutine.params doubledRoutine.body,
      .ifElse 3 (.call "f" [.literal (.int 1), .literal (.int 2)])
        [.eval 4 (.call "print"
          [.call "f" [.literal (.int 3), .call "f" [.literal (.int 4), .literal (.int 5)]]])] []]

theorem doubled_compiles : ∃ p, (doubled.compileFrom "doubled" 0).result = .ok p :=
  exists_eq_ok (by decide)

theorem doubled_calls_match_distinct_params :
    ∃ p, (doubled.compileFrom "doubled" 0).result = .ok p ∧
    doubledRoutine ∈ doubled.routines ∧ (∀ args, doubled.HasCall "f" args → args.length = 2) ∧
    ∃ (f : Frame) (body : List Instruction), f.block body ∈ p.routines ∧ f.arity = 2 ∧
      f.slot? "x" = some 0 ∧ f.slot? "y" = some 1 := by
  obtain ⟨p, hp⟩ := doubled_compiles
  have hr : doubledRoutine ∈ doubled.routines := List.mem_singleton_self _
  obtain ⟨hcalls, ⟨f, body, -, hblock, harity, hslot, -⟩, -⟩ := calls_match_distinct_params hp hr
  exact ⟨p, hp, hr, hcalls, f, body, hblock, harity, hslot 0 "x" (by decide),
    hslot 1 "y" (by decide)⟩

/-- Not every call has as many arguments as there are entries in the list of parameters. -/
theorem not_every_call_matches_params :
    ¬ ∀ (s : Script) (source : String) (p : Program), s.compile source = .ok p →
    ∀ r ∈ s.routines, ∀ args, s.HasCall r.name args → args.length = r.params.length := by
  intro hall
  obtain ⟨p, hp⟩ := doubled_compiles
  have hcall : doubled.HasCall "f" [.literal (.int 1), .literal (.int 2)] := by decide
  have hlength := hall doubled "doubled" p hp doubledRoutine (List.mem_singleton_self _) _ hcall
  exact absurd hlength (by decide)

end Script
end TreeAsm

import TreeAsm.Proofs.Extension
import TreeAsm.Proofs.Hygiene

/-! What it matters where a statement stands. Its line comes up in errors and nowhere else. A
routine may be defined before, between or after the statements of the top level: only the order of
the routines and the order of the other statements count. -/
namespace TreeAsm

/-! ### The renaming that changes nothing -/

theorem keepsApart_id : KeepsApart id := ⟨Function.injective_id, rfl, rfl, rfl⟩

@[simp] theorem Label.rename_id (l : Label) : l.rename id = l := by
  cases l <;> rfl

@[simp] theorem Location.rename_id (loc : Location) : loc.rename id = loc := by
  cases loc <;> simp [rename]

@[simp] theorem Operand.rename_id (o : Operand) : o.rename id = o := by
  cases o <;> simp [rename]

@[simp] theorem Instruction.rename_id (i : Instruction) : i.rename id = i := by
  simp [rename]

theorem Scope.Alike.toList_eq {a b : Scope} (h : a.Alike id b) : b.toList = a.toList := by
  rw [h]
  exact List.map_id _

namespace Frame.Alike

variable {f g : Frame} (h : f.Alike id g)
include h

theorem reservation_eq : g.reservation = f.reservation := by
  have hroutine : g.routine = f.routine := h.routine
  simp only [reservation, slotEquate, hroutine, h.locals.toList_eq]

theorem bindParam_eq (name : String) (index : Nat) :
    g.bindParam name index = f.bindParam name index := by
  have hresolve : g.resolve? name = f.resolve? name := by
    simpa using h.resolve?_eq Function.injective_id name
  rw [bindParam, hresolve, bindParam]

theorem prologue_eq : g.prologue = f.prologue := by
  have hroutine : g.routine = f.routine := h.routine
  have hsize : g.size = f.size := h.locals.size_eq
  have hparams : g.params = f.params := by simpa using h.params_eq
  simp only [prologue, hroutine, hsize, hparams, h.bindParam_eq]

theorem block_eq (code : List Instruction) : g.block code = f.block code := by
  have hroutine : g.routine = f.routine := h.routine
  simp only [block, h.reservation_eq, h.prologue_eq, epilogue, exitLabel, hroutine]

end Frame.Alike

/-! ### Lines -/

/-- The script with every line set to zero. Scripts that become equal by it differ in nothing but
lines. -/
def Script.unlined (s : Script) : Script := s.recast id fun _ => 0

def CompileError.unlined : CompileError → CompileError
  | .unsupported construct routine _ => .unsupported construct routine 0
  | .unresolvedName name routine _ => .unresolvedName name routine 0
  | .duplicateRoutine name _ => .duplicateRoutine name 0
  | .labelClash name _ => .labelClash name 0
  | .unknownRoutine name routine _ => .unknownRoutine name routine 0
  | .arityMismatch callee expected found routine _ => .arityMismatch callee expected found routine 0

def Fault.unlined : Fault → Fault
  | .rejected e => .rejected e.unlined
  | f => f

/-- The program without the name of its source. -/
def Program.unsourced (p : Program) : Program := { p with source := "" }

/-- How the compilation ends, but for the line of an error and the name of the source. -/
def Compilation.unlined (c : Compilation) : Compilation :=
  ⟨(c.result.map Program.unsourced).mapError Fault.unlined, c.next⟩

theorem CompileError.Alike.unlined_eq {e e' : CompileError} (h : e.Alike id e') :
    e'.unlined = e.unlined := by
  cases h <;> simp [unlined]

theorem Fault.Alike.unlined_eq {f g : Fault} (h : f.Alike id g) : g.unlined = f.unlined := by
  cases h with
  | rejected h => exact congrArg Fault.rejected h.unlined_eq
  | labelsExhausted => rfl
  | frameTooWide => rfl

theorem Program.Alike.unsourced_eq {p q : Program} (h : p.Alike id q) :
    q.unsourced = p.unsourced := by
  obtain ⟨source, source', hdata, strings, hroutines, code⟩ := h
  have hblocks : ∀ {cs ds : List Block}, List.Forall₂ (Block.Alike id) cs ds → ds = cs := by
    intro cs ds hcd
    induction hcd with
    | nil => rfl
    | cons hblock _ ih =>
      obtain ⟨hframe, code⟩ := hblock
      rw [ih]
      simp [hframe.block_eq]
  simp [unsourced, Script.dataBlock, Scope.declarations, hdata.toList_eq, hblocks hroutines]

namespace Script

/-- Compilation looks at no line and at no name of the source, but for what it reports. -/
theorem unlined_compileFrom (s : Script) (source : String) (seed : Nat) :
    (s.compileFrom source seed).unlined = (s.unlined.compileFrom "" seed).unlined := by
  obtain ⟨hresult, hnext⟩ := endAlike_compileFrom (m := fun _ => 0) keepsApart_id s source "" seed
  rw [Compilation.unlined, Compilation.unlined, unlined, hnext]
  congr 1
  rcases hresult.cases with ⟨f, g, hf, hg, hfg⟩ | ⟨p, q, hp, hq, hpq⟩
  · simp only [hf, hg, Except.map, Except.mapError, hfg.unlined_eq]
  · simp only [hp, hq, Except.map, Except.mapError, hpq.unsourced_eq]

/-- Lines reach diagnostics only. Scripts that differ in lines, at any depth, both compile to the
same blocks, or are both refused for the same reason, whatever their sources are called; and as many
numbers are drawn. -/
theorem lines_reach_diagnostics_only {s s' : Script} (h : s.unlined = s'.unlined)
    (source source' : String) (seed : Nat) :
    ((∃ p p', (s.compileFrom source seed).result = .ok p ∧
        (s'.compileFrom source' seed).result = .ok p' ∧ p'.data = p.data ∧
        p'.strings = p.strings ∧ p'.routines = p.routines ∧ p'.topLevel = p.topLevel) ∨
      ∃ f f', (s.compileFrom source seed).result = .error f ∧
        (s'.compileFrom source' seed).result = .error f' ∧ f'.unlined = f.unlined) ∧
    (s'.compileFrom source' seed).next = (s.compileFrom source seed).next := by
  have hsame : (s'.compileFrom source' seed).unlined = (s.compileFrom source seed).unlined := by
    rw [unlined_compileFrom s, unlined_compileFrom s', h]
  obtain ⟨hresult, hnext⟩ := Compilation.mk.inj hsame
  refine ⟨?_, hnext⟩
  cases hs : (s.compileFrom source seed).result with
  | ok p =>
    cases hs' : (s'.compileFrom source' seed).result with
    | ok p' =>
      rw [hs, hs'] at hresult
      have hunsourced : p'.unsourced = p.unsourced := Except.ok.inj hresult
      obtain ⟨-, hdata, hstrings, hroutines, htop⟩ := Program.mk.inj hunsourced
      exact .inl ⟨p, p', rfl, rfl, hdata, hstrings, hroutines, htop⟩
    | error f' => simp [hs, hs', Except.map, Except.mapError] at hresult
  | error f =>
    cases hs' : (s'.compileFrom source' seed).result with
    | ok p' => simp [hs, hs', Except.map, Except.mapError] at hresult
    | error f' =>
      rw [hs, hs'] at hresult
      exact .inr ⟨f, f', rfl, rfl, Except.error.inj hresult⟩

/-- Refused in the body of a loop, after the loop has drawn its numbers. -/
def halfway (line : UInt32) : Script where
  body :=
    [.define 1 "f" [⟨"x", none⟩]
      [.whileLoop 2 (.name "x") [.pass 2, .eval line (.call "g" [.name "x"])]],
      .ifElse 5 (.call "f" [.literal (.int 1)]) [.pass line] []]

theorem halfway_lines_reported :
    stemNames.unlined = (stemNames.recast id (· + 40)).unlined ∧
    (∃ p p', (stemNames.compileFrom "stems" 7).result = .ok p ∧
      ((stemNames.recast id (· + 40)).compileFrom "others" 7).result = .ok p' ∧
      p'.routines = p.routines ∧ p'.topLevel = p.topLevel) ∧
    (halfway 3).unlined = (halfway 30).unlined ∧
    ((halfway 3).compileFrom "" 7).result = .error (.rejected (.unknownRoutine "g" (some "f") 3)) ∧
    ∃ f, ((halfway 30).compileFrom "" 7).result = .error f ∧
      f.unlined = .rejected (.unknownRoutine "g" (some "f") 0) ∧
      ((halfway 30).compileFrom "" 7).next = ((halfway 3).compileFrom "" 7).next := by
  have hstems : stemNames.unlined = (stemNames.recast id (· + 40)).unlined := by decide
  have hhalfway : (halfway 3).unlined = (halfway 30).unlined := by decide
  have herror : ((halfway 3).compileFrom "" 7).result =
      .error (.rejected (.unknownRoutine "g" (some "f") 3)) := rfl
  refine ⟨hstems, ?_, hhalfway, herror, ?_⟩
  · obtain ⟨p, hp⟩ := stemNames_compiles
    rcases (lines_reach_diagnostics_only hstems "stems" "others" 7).1 with h | ⟨f, f', hf, -⟩
    · obtain ⟨q, q', hq, hq', -, -, hroutines, htop⟩ := h
      exact ⟨q, q', hq, hq', hroutines, htop⟩
    · simp [hp] at hf
  · obtain ⟨h, hnext⟩ := lines_reach_diagnostics_only hhalfway "" "" 7
    rcases h with ⟨p, p', hp, -⟩ | ⟨f, f', hf, hf', hunlined⟩
    · simp [herror] at hp
    · obtain rfl := Except.error.inj (hf.symm.trans herror)
      exact ⟨f', hf', hunlined, hnext⟩

end Script

/-! ### Places of definitions -/

namespace Layout

variable {s s' : Script}

/-- Definitions of routines assign nothing. -/
theorem assignmentLine_eq (s : Script) (name : String) :
    assignmentLine s name = ((s.topLevel.find? (assigns name)).map Stmt.line).getD 0 := by
  have hassigns : ∀ x, assigns name x = true → x.routine?.isNone = true := by
    intro x hx
    cases x with
    | define line name params body => simp [assigns] at hx
    | _ => rfl
  have hfind : s.topLevel.find? (assigns name) = s.body.find? (assigns name) := by
    rw [Script.topLevel, List.find?_filter]
    congr 1
    funext x
    simpa only [Bool.decide_and, Bool.decide_eq_true, Bool.and_eq_right_iff_imp] using hassigns x
  rw [hfind, assignmentLine]

/-- Storage is laid out from the routines in their order and from the other statements in theirs. -/
theorem ofScript_congr (hroutines : s'.routines = s.routines) (htop : s'.topLevel = s.topLevel) :
    ofScript s' = ofScript s := by
  rw [ofScript, ofScript, Script.globals_eq_of_topLevel htop, assignmentLine_eq, assignmentLine_eq,
    hroutines, htop]

theorem topBody_congr (l : Layout) (htop : s'.topLevel = s.topLevel) :
    l.topBody s' = l.topBody s := by
  rw [topBody, topBody, htop]

end Layout

namespace Script

/-- Where routines are defined among the other statements does not matter: the routines in their
order and the other statements in theirs decide how the compilation ends, and the numbers it
draws. -/
theorem routine_placement_irrelevant {s s' : Script} (hroutines : s'.routines = s.routines)
    (htop : s'.topLevel = s.topLevel) (source : String) (seed : Nat) :
    s'.compileFrom source seed = s.compileFrom source seed := by
  rw [compileFrom, compileFrom, Layout.ofScript_congr hroutines htop]
  simp only [Layout.topBody_congr _ htop, hroutines]

/-- The routine comes first or last; a second script is refused for a name that it assigns behind
the routine. -/
theorem stemNames_routine_last :
    (⟨stemNames.body.drop 1 ++ stemNames.body.take 1⟩ : Script) ≠ stemNames ∧
    compileFrom ⟨stemNames.body.drop 1 ++ stemNames.body.take 1⟩ "stems" 7 =
      stemNames.compileFrom "stems" 7 ∧
    (compileFrom ⟨[.define 1 "f" [] [], .assign 2 [.name "tl"] (.name "x"), .define 3 "f" [] []]⟩
      "" 7).result =
      .error (.rejected (.labelClash "tl" 2)) ∧
    compileFrom
        ⟨[.assign 2 [.name "tl"] (.name "x"), .define 1 "f" [] [], .define 3 "f" [] []]⟩ "" 7 =
      compileFrom
        ⟨[.define 1 "f" [] [], .assign 2 [.name "tl"] (.name "x"), .define 3 "f" [] []]⟩ "" 7 := by
  refine ⟨by decide, ?_, rfl, ?_⟩
  · exact routine_placement_irrelevant rfl rfl "stems" 7
  · exact routine_placement_irrelevant rfl rfl "" 7

end Script
end TreeAsm

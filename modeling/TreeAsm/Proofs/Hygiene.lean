import TreeAsm.Proofs.Legibility
import TreeAsm.Proofs.RenamedCode

/-! Hygiene. A script under other names compiles to the same program under these names, as long as
the renaming keeps identifiers apart and leaves alone the few names that mean something to the
compiler. -/
namespace TreeAsm

/-- Different names stay different, and the names that the compiler knows stay what they are. -/
structure KeepsApart (r : String → String) : Prop where
  injective : Function.Injective r
  entry : r Label.entry = Label.entry
  print : r "print" = "print"
  input : r "input" = "input"

theorem KeepsApart.eq_iff {r : String → String} (hr : KeepsApart r) {c : String} (h : r c = c)
    (n : String) : r n = c ↔ n = c :=
  ⟨fun hn => hr.injective (hn.trans h.symm), fun hn => hn ▸ h⟩

/-! ### Storage -/

namespace Scope

variable {r : String → String} {m : UInt32 → UInt32}

theorem alike_empty (r : String → String) : empty.Alike r empty := rfl

theorem alike_globals (hr : KeepsApart r) (s : Script) :
    (globals s).Alike r (globals (s.recast r m)) := by
  have hall := (alike_empty r).insertAll hr.injective
    ((Stmt.bindsAll s.body).map fun x => ⟨x.1, x.2, .global⟩)
  rw [List.map_map] at hall
  rw [globals, globals, Script.recast, Stmt.bindsAll_recast, List.map_map]
  exact hall

theorem alike_ofParams (hr : KeepsApart r) (ps : List Param) :
    (ofParams ps).Alike r (ofParams (ps.map (·.rename r))) := by
  have hall := (alike_empty r).insertAll hr.injective
    (ps.map fun p => ⟨p.name, .ofParam p, .parameter⟩)
  rw [List.map_map] at hall
  rw [ofParams, ofParams, List.map_map]
  exact hall

variable {a b : Scope}

theorem alike_localsOf (hr : KeepsApart r) (h : a.Alike r b) (q : Routine) :
    (a.localsOf q).Alike r (b.localsOf (q.recast r m)) := by
  have hall := (alike_ofParams hr q.params).insertAll hr.injective
    (((Stmt.bindsAll q.body).filter fun x => !a.contains x.1).map fun x => ⟨x.1, x.2, .inner⟩)
  rw [List.map_map] at hall
  rw [localsOf, localsOf, Routine.recast, Stmt.bindsAll_recast, List.filter_map, List.map_map]
  simp only [Function.comp_def, h.contains_eq hr.injective]
  exact hall

theorem staticCell?_eq (hr : KeepsApart r) (h : a.Alike r b) (n : String) :
    b.staticCell? (r n) = (a.staticCell? n).map (·.rename r) := by
  rw [staticCell?, staticCell?, h.contains_eq hr.injective]
  split <;> rfl

/-- The locals of a routine are refused for the same reason, or hold the same variables. -/
theorem locals_cases (hr : KeepsApart r) (h : a.Alike r b) (q : Routine) :
    (∃ e e', a.locals q = .error e ∧ b.locals (q.recast r m) = .error e' ∧ e.Alike r e') ∨
      ∃ c d, a.locals q = .ok c ∧ b.locals (q.recast r m) = .ok d ∧ c.Alike r d := by
  have hlocals := alike_localsOf (m := m) hr h q
  have hdefines : (Stmt.definesAll (q.recast r m).body).head? =
      (Stmt.definesAll q.body).head?.map fun d => (r d.1, m d.2) := by
    rw [Routine.recast, Stmt.definesAll_recast, List.head?_map]
  have hreads : ((Stmt.readsAll (q.recast r m).body).find? fun n =>
        !((b.localsOf (q.recast r m)).contains n.1 || b.contains n.1)) =
      ((Stmt.readsAll q.body).find? fun n => !((a.localsOf q).contains n.1 || a.contains n.1)).map
        fun n => (r n.1, m n.2) := by
    have hbody : Stmt.readsAll (q.recast r m).body = (Stmt.readsAll q.body).map fun n =>
        (r n.1, m n.2) :=
      Stmt.readsAll_recast q.body
    rw [hbody, List.find?_map]
    simp only [Function.comp_def, hlocals.contains_eq hr.injective, h.contains_eq hr.injective]
  unfold locals
  simp only [hdefines, hreads]
  cases (Stmt.definesAll q.body).head? with
  | some d => exact .inl ⟨_, _, rfl, rfl, .nested d.1 (some q.name) d.2 (m d.2)⟩
  | none =>
    cases (Stmt.readsAll q.body).find? fun n =>
      !((a.localsOf q).contains n.1 || a.contains n.1) with
    | some n => exact .inl ⟨_, _, rfl, rfl, .unresolvedName n.1 (some q.name) n.2 (m n.2)⟩
    | none => exact .inr ⟨_, _, rfl, rfl, hlocals⟩

end Scope

namespace Frame

variable {r : String → String} {m : UInt32 → UInt32}

theorem endAlike_ofRoutine (hr : KeepsApart r) {a b : Scope} (h : a.Alike r b) (q : Routine) :
    EndAlike r (Frame.Alike r) (ofRoutine a q) (ofRoutine b (q.recast r m)) := by
  rcases Scope.locals_cases (m := m) hr h q with ⟨e, e', ha, hb, he⟩ | ⟨c, d, ha, hb, hcd⟩
  · simp only [ofRoutine, ha, hb]
    exact .error (.rejected he)
  · simp only [ofRoutine, ha, hb, ofScope?, hcd.size_eq]
    by_cases hsize : c.size ≤ slotLimit
    · simp only [dif_pos hsize]
      exact .ok ⟨rfl, hcd⟩
    · simp only [dif_neg hsize]
      exact .error .frameTooWide

/-- The last frame of a name counts, so that the induction is on the reversed lists. -/
theorem rel_lookup (hr : KeepsApart r) {fs gs : List Frame} (h : List.Forall₂ (Frame.Alike r) fs gs)
    (n : String) : Option.Rel (Frame.Alike r) (lookup fs n) (lookup gs (r n)) := by
  unfold lookup
  have hreverse := List.forall₂_reverse_iff.2 h
  generalize fs.reverse = fs' at hreverse
  generalize gs.reverse = gs' at hreverse
  induction hreverse with
  | nil => exact .none
  | @cons f g fs gs hfg _ ih =>
    have hname : g.routine = r n ↔ f.routine = n := by rw [hfg.routine, hr.injective.eq_iff]
    rw [List.find?_cons, List.find?_cons]
    by_cases hn : f.routine = n
    · rw [decide_eq_true hn, decide_eq_true (hname.2 hn)]
      exact .some hfg
    · rw [decide_eq_false hn, decide_eq_false (mt hname.1 hn)]
      exact ih

end Frame

namespace Layout

variable {r : String → String} {m : UInt32 → UInt32}

structure Alike (r : String → String) (l l' : Layout) : Prop where
  globals : l.globals.Alike r l'.globals
  frames : List.Forall₂ (Frame.Alike r) l.frames l'.frames

theorem endAlike_distinctFrames (hr : KeepsApart r) {a b : Scope} (h : a.Alike r b)
    (earlier : List String) (qs : List Routine) :
    EndAlike r (List.Forall₂ (Frame.Alike r)) (distinctFrames a earlier qs)
      (distinctFrames b (earlier.map r) (qs.map (·.recast r m))) := by
  induction qs generalizing earlier with
  | nil => exact .ok .nil
  | cons q rest ih =>
    have hname : (q.recast r m).name = r q.name := rfl
    rw [List.map_cons, distinctFrames, distinctFrames]
    simp only [hname, List.mem_map_of_injective hr.injective, hr.eq_iff hr.entry,
      h.contains_eq hr.injective]
    by_cases hd : q.name ∈ earlier
    · simp only [if_pos hd]
      exact .error (.rejected (.duplicateRoutine q.name q.line (m q.line)))
    · simp only [if_neg hd]
      by_cases hc : q.name = Label.entry ∨ a.contains q.name = true
      · simp only [if_pos hc]
        exact .error (.rejected (.labelClash q.name q.line (m q.line)))
      · simp only [if_neg hc]
        rcases (Frame.endAlike_ofRoutine (m := m) hr h q).cases with ⟨g, g', hg, hg', hgg⟩ |
          ⟨f, f', hf, hf', hff⟩
        · simp only [hg, hg']
          exact .error hgg
        · simp only [hf, hf']
          exact (ih (q.name :: earlier)).map fun fs gs hfs => .cons hff hfs

/-- Storage under other names. -/
theorem endAlike_ofScript (hr : KeepsApart r) (s : Script) :
    EndAlike r (Alike r) (ofScript s) (ofScript (s.recast r m)) := by
  have hglobals := Scope.alike_globals (m := m) hr s
  have hentry : (Scope.globals (s.recast r m)).contains Label.entry =
      (Scope.globals s).contains Label.entry := by
    have hcontains := hglobals.contains_eq hr.injective Label.entry
    rwa [hr.entry] at hcontains
  rw [ofScript, ofScript, hentry, Script.routines_recast]
  split
  · have herror := CompileError.Alike.labelClash (r := r) Label.entry (assignmentLine s Label.entry)
      (assignmentLine (s.recast r m) Label.entry)
    rw [hr.entry] at herror
    exact .error (.rejected herror)
  · exact (endAlike_distinctFrames hr hglobals [] s.routines).map fun fs gs hfs => ⟨hglobals, hfs⟩

variable {l l' : Layout}

theorem alike_topEnv (hr : KeepsApart r) (h : l.Alike r l') : l.topEnv.Alike r l'.topEnv where
  resolve n := Scope.staticCell?_eq hr h.globals n
  routine := rfl
  result := rfl
  callee n := Frame.rel_lookup hr h.frames n
  print := hr.eq_iff hr.print
  input := hr.eq_iff hr.input

theorem alike_routineEnv (hr : KeepsApart r) (h : l.Alike r l') {f g : Frame} (hf : f.Alike r g) :
    (l.routineEnv f).Alike r (l'.routineEnv g) where
  resolve n := by
    simp only [routineEnv, hf.resolve?_eq hr.injective, Scope.staticCell?_eq hr h.globals]
    cases f.resolve? n <;> rfl
  routine := by simp only [routineEnv, hf.routine, Option.map_some]
  result := by simp only [routineEnv, hf.resultCell_eq, hf.exitLabel_eq, Option.map_some]
  callee n := Frame.rel_lookup hr h.frames n
  print := hr.eq_iff hr.print
  input := hr.eq_iff hr.input

end Layout

/-! ### Programs -/

/-- The blocks of a routine from frames that are alike, around the same code under other names. -/
inductive Block.Alike (r : String → String) : Block → Block → Prop where
  | block {f g : Frame} (h : f.Alike r g) (code : List Instruction) :
      Alike r (f.block code) (g.block (code.map (·.rename r)))

/-- Programs made of storage and code that are the same under other names. The names of their
sources may differ. -/
inductive Program.Alike (r : String → String) : Program → Program → Prop where
  | program {a b : Scope} {blocks blocks' : List Block} (source source' : String)
      (hdata : a.Alike r b)
      (strings : StringPool) (hroutines : List.Forall₂ (Block.Alike r) blocks blocks')
      (code : List Instruction) :
      Alike r ⟨source, Script.dataBlock a, Script.stringBlock strings, blocks,
        Code.topLevelBlock code⟩
        ⟨source', Script.dataBlock b, Script.stringBlock strings, blocks',
          Code.topLevelBlock (code.map (·.rename r))⟩

/-- A whole body, settled. -/
theorem Emit.Alike.run {r : String → String} {x y : Emit Unit} (h : Lowering.Alike r x y)
    (s : Supply) :
    EndAlike r (fun code code' => code' = code.map (·.rename r)) (x.run s).1 (y.run s).1 ∧
      (y.run s).2 = (x.run s).2 := by
  refine ⟨?_, h.supply s⟩
  simp only [Emit.run, h.items, Code.settle_map_rename]
  exact (h.result s).map fun _ _ _ => rfl

theorem Layout.endAlike_routineBlocks {r : String → String} {m : UInt32 → UInt32}
    (hr : KeepsApart r) {l l' : Layout} (h : l.Alike r l') (qs : List Routine) {fs gs : List Frame}
    (hfs : List.Forall₂ (Frame.Alike r) fs gs) (s : Supply) :
    EndAlike r (List.Forall₂ (Block.Alike r)) (l.routineBlocks (qs.zip fs) s).1
        (l'.routineBlocks ((qs.map (·.recast r m)).zip gs) s).1 ∧
      (l'.routineBlocks ((qs.map (·.recast r m)).zip gs) s).2 =
        (l.routineBlocks (qs.zip fs) s).2 := by
  induction hfs generalizing qs s with
  | nil =>
    rw [List.zip_nil_right, List.zip_nil_right]
    exact ⟨.ok .nil, rfl⟩
  | @cons f g fs gs hfg _ ih =>
    cases qs with
    | nil => exact ⟨.ok .nil, rfl⟩
    | cons q rest =>
      have hbody : Lowering.Alike r (l.routineBody f q) (l'.routineBody g (q.recast r m)) :=
        Lowering.alike_stmts (alike_routineEnv hr h hfg) q.body
      obtain ⟨hcode, hsupply⟩ := hbody.run s
      rcases hrun : (l.routineBody f q).run s with ⟨result, s'⟩
      rcases hrun' : (l'.routineBody g (q.recast r m)).run s with ⟨result', s''⟩
      rw [hrun, hrun'] at hcode hsupply
      obtain rfl : s'' = s' := hsupply
      simp only [List.map_cons, List.zip_cons_cons, routineBlocks, hrun, hrun']
      rcases hcode.cases with ⟨e, e', rfl, rfl, he⟩ | ⟨code, code', rfl, rfl, rfl⟩
      · exact ⟨.error he, rfl⟩
      · obtain ⟨hblocks, hfinal⟩ := ih rest s''
        exact ⟨hblocks.map fun bs cs hbs => .cons (.block hfg code) hbs, hfinal⟩

/-- Compilation under other names and on other lines: programs that are alike or errors that are
alike, and the same numbers drawn. -/
theorem Script.endAlike_compileFrom {r : String → String} {m : UInt32 → UInt32} (hr : KeepsApart r)
    (s : Script) (source source' : String) (seed : Nat) :
    EndAlike r (Program.Alike r) (s.compileFrom source seed).result
      ((s.recast r m).compileFrom source' seed).result ∧
      ((s.recast r m).compileFrom source' seed).next = (s.compileFrom source seed).next := by
  rcases (Layout.endAlike_ofScript (m := m) hr s).cases with ⟨e, e', hl, hl', he⟩ |
    ⟨l, l', hl, hl', hlayout⟩
  · simp only [compileFrom, hl, hl']
    exact ⟨.error he, trivial⟩
  · have htop : Lowering.Alike r (l.topBody s) (l'.topBody (s.recast r m)) := by
      rw [Layout.topBody, Layout.topBody, topLevel_recast]
      exact Lowering.alike_stmts (Layout.alike_topEnv hr hlayout) s.topLevel
    obtain ⟨hcode, hsupply⟩ := htop.run (.start seed)
    rcases hrun : (l.topBody s).run (.start seed) with ⟨result, t⟩
    rcases hrun' : (l'.topBody (s.recast r m)).run (.start seed) with ⟨result', t'⟩
    rw [hrun, hrun'] at hcode hsupply
    obtain rfl : t' = t := hsupply
    simp only [compileFrom, hl, hl', hrun, hrun']
    rcases hcode.cases with ⟨e, e', rfl, rfl, he⟩ | ⟨code, code', rfl, rfl, rfl⟩
    · exact ⟨.error he, rfl⟩
    · obtain ⟨hblocks, hfinal⟩ :=
        Layout.endAlike_routineBlocks (m := m) hr hlayout s.routines hlayout.frames t'
      simp only [routines_recast, hfinal]
      exact ⟨hblocks.map fun bs cs hbs =>
        .program source source' hlayout.globals _ hbs code, trivial⟩

/-! ### Without comments and titles -/

def Block.rename (r : String → String) (c : Block) : Block :=
  { c with code := c.code.map (·.rename r) }

def Program.rename (r : String → String) (p : Program) : Program where
  source := p.source
  data := p.data.rename r
  strings := p.strings.map (·.rename r)
  routines := p.routines.map (·.rename r)
  topLevel := p.topLevel.rename r

def Instruction.unannotated (i : Instruction) : Instruction := { i with comment := none }

def Block.unannotated (c : Block) : Block := ⟨"", c.code.map (·.unannotated)⟩

/-- The program without its comments and the titles of its blocks. -/
def Program.unannotated (p : Program) : Program where
  source := p.source
  data := p.data.unannotated
  strings := p.strings.map (·.unannotated)
  routines := p.routines.map (·.unannotated)
  topLevel := p.topLevel.unannotated

namespace Frame.Alike

variable {r : String → String} {f g : Frame} (h : f.Alike r g)
include h

theorem map_reservation : g.reservation.map (·.unannotated) =
    (f.reservation.map (·.rename r)).map (·.unannotated) := by
  have hslots : g.locals.toList.zipIdx = f.locals.toList.zipIdx.map fun x =>
      (x.1.rename r, x.2) := by
    rw [h.locals, List.zipIdx_map]
    rfl
  simp only [reservation, hslots, h.routine, slotEquate, List.map_cons, List.map_map]
  rfl

theorem map_bindParam (hr : Function.Injective r) (name : String) (index : Nat) :
    (g.bindParam (r name) index).map (·.unannotated) =
      ((f.bindParam name index).map (·.rename r)).map (·.unannotated) := by
  rw [bindParam, bindParam, h.resolve?_eq hr]
  cases f.resolve? name <;> rfl

theorem map_prologue (hr : Function.Injective r) : g.prologue.map (·.unannotated) =
    (f.prologue.map (·.rename r)).map (·.unannotated) := by
  have hparams : g.params.zipIdx = f.params.zipIdx.map fun x => (r x.1, x.2) := by
    rw [h.params_eq, List.zipIdx_map]
    rfl
  have hsize : g.size = f.size := h.locals.size_eq
  simp only [prologue, hparams, hsize, h.routine, List.map_cons, List.map_flatMap, List.flatMap_map,
    h.map_bindParam hr]
  rfl

theorem map_epilogue : g.epilogue = f.epilogue.map (·.rename r) := by
  rw [epilogue, h.exitLabel_eq]
  rfl

end Frame.Alike

theorem Block.Alike.unannotated_eq {r : String → String} (hr : KeepsApart r) {c d : Block}
    (h : c.Alike r d) : d.unannotated = (c.rename r).unannotated := by
  obtain ⟨hframe, code⟩ := h
  simp only [Block.unannotated, Block.rename, Frame.block, List.map_append, hframe.map_reservation,
    hframe.map_prologue hr.injective, hframe.map_epilogue]

namespace Script

variable {r : String → String}

theorem unannotated_dataBlock {a b : Scope} (h : a.Alike r b) :
    (dataBlock b).unannotated = ((dataBlock a).rename r).unannotated := by
  simp only [Block.unannotated, Block.rename, dataBlock, Scope.declarations]
  rw [h, List.map_map, List.map_map, List.map_map, List.map_map]
  rfl

/-- The labels of string constants have no names. -/
theorem rename_stringBlock (r : String → String) (strings : StringPool) :
    (stringBlock strings).map (·.rename r) = stringBlock strings := by
  have hcode : strings.declarations.map (·.rename r) = strings.declarations := by
    rw [StringPool.declarations, List.map_map]
    rfl
  unfold stringBlock
  split
  · rfl
  · simp only [Option.map_some, Block.rename, hcode]

theorem rename_topLevelBlock (hr : KeepsApart r) (code : List Instruction) :
    (Code.topLevelBlock code).rename r = Code.topLevelBlock (code.map (·.rename r)) := by
  have hentry : Label.rename r (.plain Label.entry) = .plain Label.entry :=
    congrArg Label.plain hr.entry
  simp only [Code.topLevelBlock, Block.rename, (Code.relabels_rename r).map_withLabel, hentry,
    List.map_append]
  rfl

end Script

/-- Programs that are alike are the same under the new names, but for comments and titles. -/
theorem Program.Alike.unannotated_eq {r : String → String} (hr : KeepsApart r) {p q : Program}
    (h : p.Alike r q) (hsource : q.source = p.source) :
    q.unannotated = (p.rename r).unannotated := by
  obtain ⟨source, source', hdata, strings, hroutines, code⟩ := h
  have hblocks : ∀ {cs ds : List Block}, List.Forall₂ (Block.Alike r) cs ds →
      ds.map (·.unannotated) = (cs.map (·.rename r)).map (·.unannotated) := by
    intro cs ds hcd
    induction hcd with
    | nil => rfl
    | cons h _ ih => rw [List.map_cons, List.map_cons, List.map_cons, ih, h.unannotated_eq hr]
  obtain rfl : source' = source := hsource
  simp only [Program.unannotated, Program.rename, Script.unannotated_dataBlock hdata,
    Script.rename_stringBlock, hblocks hroutines, Script.rename_topLevelBlock hr]

/-! ### Renamings of identifiers -/

/-- Identifiers go to identifiers, different ones to different ones, and those that the compiler
knows to themselves. -/
structure IdentifierRenaming (r : String → String) : Prop where
  identifier : ∀ n, isIdentifier n = true → isIdentifier (r n) = true
  injective : ∀ m n, isIdentifier m = true → isIdentifier n = true → r m = r n → m = n
  entry : r Label.entry = Label.entry
  print : r "print" = "print"
  input : r "input" = "input"

/-- Renames identifiers and no other text. -/
def onIdentifiers (r : String → String) (n : String) : String := if isIdentifier n then r n else n

theorem onIdentifiers_eq {n : String} (h : isIdentifier n = true) (r : String → String) :
    onIdentifiers r n = r n :=
  if_pos h

theorem IdentifierRenaming.keepsApart {r : String → String} (h : IdentifierRenaming r) :
    KeepsApart (onIdentifiers r) where
  injective a b hab := by
    unfold onIdentifiers at hab
    split at hab
    next ha =>
      split at hab
      next hb => exact h.injective a b ha hb hab
      next hb => exact absurd (hab ▸ h.identifier a ha) hb
    next ha =>
      split at hab
      next hb => exact absurd (hab ▸ h.identifier b hb) ha
      next => exact hab
  entry := (onIdentifiers_eq (by decide) r).trans h.entry
  print := (onIdentifiers_eq (by decide) r).trans h.print
  input := (onIdentifiers_eq (by decide) r).trans h.input

section Legible

variable {r r' : String → String} (h : ∀ n, isIdentifier n = true → r n = r' n)
  {reals : List Binary64}
include h

theorem Label.rename_congr {l : Label} (hl : l.Legible) : l.rename r = l.rename r' := by
  cases l with
  | plain text => exact congrArg plain (h text hl)
  | result routine => exact congrArg result (h routine hl)
  | exit routine => exact congrArg exit (h routine hl)
  | slot routine name => rw [rename, rename, h routine hl.1, h name hl.2]
  | generated stem n => rfl

theorem Location.rename_congr {loc : Location} (hl : loc.label.Legible) :
    loc.rename r = loc.rename r' := by
  cases loc with
  | static l => exact congrArg static (Label.rename_congr h hl)
  | frame symbol offset => exact congrArg (frame · offset) (Label.rename_congr (l := symbol) h hl)

theorem Operand.rename_congr {opcode : Opcode} {o : Operand} (ho : o.Legible reals opcode) :
    o.rename r = o.rename r' := by
  cases o with
  | addr l => exact congrArg addr (Label.rename_congr h ho.2)
  | mem loc => exact congrArg mem (Location.rename_congr h ho.2)
  | target l => exact congrArg target (Label.rename_congr h ho.2)
  | _ => rfl

theorem Block.rename_congr {c : Block} (hc : ∀ i ∈ c.code, i.Legible reals) :
    c.rename r = c.rename r' := by
  have hcode : c.code.map (·.rename r) = c.code.map (·.rename r') := by
    refine List.map_congr_left fun i hi => ?_
    have hlabel : i.label.map (·.rename r) = i.label.map (·.rename r') :=
      Option.map_congr fun l hl => Label.rename_congr h ((hc i hi).label l hl)
    have hoperand : i.operand.map (·.rename r) = i.operand.map (·.rename r') :=
      Option.map_congr fun o ho => Operand.rename_congr h ((hc i hi).operand o ho)
    simp only [Instruction.rename, hlabel, hoperand]
  simp only [rename, hcode]

/-- In a program that is legible throughout, only what identifiers are renamed to matters. -/
theorem Program.rename_congr {p : Program} (hp : ∀ c ∈ p.blocks, ∀ i ∈ c.code, i.Legible reals) :
    p.rename r = p.rename r' := by
  have hblock : ∀ c ∈ p.blocks, c.rename r = c.rename r' :=
    fun c hc => Block.rename_congr h (hp c hc)
  simp only [rename]
  congr 1
  · exact hblock _ (by simp [blocks])
  · exact Option.map_congr fun c hc => hblock c (by simp [blocks, Option.mem_def.1 hc])
  · exact List.map_congr_left fun c hc => hblock c (by simp [blocks, hc])
  · exact hblock _ (by simp [blocks])

end Legible

namespace Script

/-- Names are hygienic. A script over identifiers compiles under a renaming of identifiers if and
only if it compiles as it is. The program is then the same with the names in its labels replaced,
comments and titles aside, and as many numbers are drawn. Nothing is known of the renaming outside
identifiers, so that the proof goes through another one that is injective on all texts. -/
theorem rename_equivariant {r : String → String} (hr : IdentifierRenaming r) {s : Script}
    (hs : ∀ n ∈ s.names, isIdentifier n = true) (source : String) (seed : Nat) :
    ((∃ p, (s.compileFrom source seed).result = .ok p) ↔
      ∃ q, ((s.rename r).compileFrom source seed).result = .ok q) ∧
    (∀ p q, (s.compileFrom source seed).result = .ok p →
      ((s.rename r).compileFrom source seed).result = .ok q →
      q.unannotated = (p.rename r).unannotated) ∧
    ((s.rename r).compileFrom source seed).next = (s.compileFrom source seed).next := by
  have hagree : ∀ n, isIdentifier n = true → onIdentifiers r n = r n :=
    fun n hn => onIdentifiers_eq hn r
  have hrename : s.rename r = s.recast (onIdentifiers r) id :=
    congrArg Script.mk (Stmt.recastAll_congr s.body fun n hn => (hagree n (hs n hn)).symm)
  obtain ⟨hresult, hnext⟩ := endAlike_compileFrom (m := id) hr.keepsApart s source source seed
  rw [hrename]
  refine ⟨?_, fun p q hp hq => ?_, hnext⟩
  · rcases hresult.cases with ⟨f, g, hf, hg, -⟩ | ⟨p, q, hp, hq, -⟩
    · simp [hf, hg]
    · simp [hp, hq]
  · obtain ⟨b⟩ := Build.nonempty hp
    obtain ⟨b'⟩ := Build.nonempty hq
    rw [hp, hq] at hresult
    obtain ⟨halike⟩ := hresult
    have hsource : q.source = p.source := by rw [b.program_eq, b'.program_eq]
    rw [halike.unannotated_eq hr.keepsApart hsource,
      Program.rename_congr hagree (b.legible (named_of_names hs))]

/-- Exchanges the name of the routine and that of a local. -/
theorem stemNames_rename_equivariant : IdentifierRenaming (Equiv.swap "else" "while") ∧
    (∀ n ∈ stemNames.names, isIdentifier n = true) ∧
    ∃ p q, (stemNames.compileFrom "stems" 7).result = .ok p ∧
      ((stemNames.rename (Equiv.swap "else" "while")).compileFrom "stems" 7).result = .ok q ∧
      q.unannotated = (p.rename (Equiv.swap "else" "while")).unannotated := by
  have hr : IdentifierRenaming (Equiv.swap "else" "while") := by
    refine ⟨fun n hn => ?_, fun m n _ _ h => (Equiv.swap "else" "while").injective h, by decide,
      by decide, by decide⟩
    rw [Equiv.swap_apply_def]
    split
    · decide
    · split
      · decide
      · exact hn
  have hs : ∀ n ∈ stemNames.names, isIdentifier n = true := by decide
  obtain ⟨hiff, hequal, -⟩ := rename_equivariant hr hs "stems" 7
  obtain ⟨p, hp⟩ := stemNames_compiles
  obtain ⟨q, hq⟩ := hiff.1 ⟨p, hp⟩
  exact ⟨hr, hs, p, q, hp, hq, hequal p q hp hq⟩

end Script
end TreeAsm

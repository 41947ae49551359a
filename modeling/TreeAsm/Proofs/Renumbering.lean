import TreeAsm.Proofs.Legibility

/-! Compilation from another seed. A step of code generation that starts with all numbers moved up
by some amount ends with all numbers moved up by it, unless the numbers run out. Nothing but the
numbers of labels depends on the seed. -/
namespace TreeAsm

namespace Label

/-- A label that is made of a stem and a number, with the number counted from the seed. Other labels
stay. -/
def rebase (seed : ℕ) (l : Label) : Label :=
  match ofText l.text with
  | .generated stem n =>
    if stem ∈ stems then .plain (stem ++ "." ++ toString ((n : ℤ) - seed)) else l
  | _ => l

/-- Moves the number of a label up. -/
def shift (k : ℕ) : Label → Label
  | .generated stem n => .generated stem (n + k)
  | l => l

/-- Counted from the seed, numbers are the same for all seeds. -/
theorem rebase_shift {l : Label} (h : l.Legible) (k : ℕ) : (l.shift k).rebase k = l.rebase 0 := by
  cases l with
  | generated stem n =>
    have hstem : stem ∈ stems := h
    have hshift : (generated stem (n + k)).Proper :=
      Legible.proper (l := .generated stem (n + k)) hstem
    simp only [shift, rebase, ofText_text hshift, ofText_text h.proper, hstem, if_true]
    congr 3
    push_cast
    omega
  | _ => simp only [shift, rebase, ofText_text h.proper]

end Label

/-! ### Other labels

Labels of instructions, the targets of branches and calls, and addresses are replaced; memory
operands and all texts stay. -/

def Operand.relabel (f : Label → Label) : Operand → Operand
  | .addr l => .addr (f l)
  | .target l => .target (f l)
  | o => o

def Instruction.relabel (f : Label → Label) (i : Instruction) : Instruction :=
  { i with label := i.label.map f, operand := i.operand.map (·.relabel f) }

def Block.relabel (f : Label → Label) (b : Block) : Block :=
  { b with code := b.code.map (·.relabel f) }

def Program.relabel (f : Label → Label) (p : Program) : Program where
  source := p.source
  data := p.data.relabel f
  strings := p.strings.map (·.relabel f)
  routines := p.routines.map (·.relabel f)
  topLevel := p.topLevel.relabel f

def Item.relabel (f : Label → Label) : Item → Item
  | .mark l => .mark (f l)
  | .op i => .op (i.relabel f)

section Relabel

variable {f g h : Label → Label} {reals : List Binary64}

theorem Operand.relabel_relabel {opcode : Opcode} {o : Operand} (ho : o.Legible reals opcode)
    (heq : ∀ l : Label, l.Legible → g (f l) = h l) : (o.relabel f).relabel g = o.relabel h := by
  cases o with
  | addr l => simp only [relabel, heq l ho.2]
  | target l => simp only [relabel, heq l ho.2]
  | _ => rfl

theorem Instruction.relabel_relabel {i : Instruction} (hi : i.Legible reals)
    (heq : ∀ l : Label, l.Legible → g (f l) = h l) : (i.relabel f).relabel g = i.relabel h := by
  simp only [relabel, Option.map_map]
  congr 1
  · exact Option.map_congr fun l hl => heq l (hi.label l hl)
  · exact Option.map_congr fun o ho => Operand.relabel_relabel (hi.operand o ho) heq

theorem Block.relabel_relabel {c : Block} (hc : ∀ i ∈ c.code, i.Legible reals)
    (heq : ∀ l : Label, l.Legible → g (f l) = h l) : (c.relabel f).relabel g = c.relabel h := by
  simp only [relabel, List.map_map]
  congr 1
  exact List.map_congr_left fun i hi => Instruction.relabel_relabel (hc i hi) heq

/-- In a program that is legible throughout, two replacements one after the other are one. -/
theorem Program.relabel_relabel {p : Program} (hp : ∀ c ∈ p.blocks, ∀ i ∈ c.code, i.Legible reals)
    (heq : ∀ l : Label, l.Legible → g (f l) = h l) : (p.relabel f).relabel g = p.relabel h := by
  have hblock : ∀ c ∈ p.blocks, (c.relabel f).relabel g = c.relabel h :=
    fun c hc => Block.relabel_relabel (hp c hc) heq
  simp only [relabel, Option.map_map, List.map_map]
  congr 1
  · exact hblock _ (by simp [blocks])
  · exact Option.map_congr fun c hc => hblock c (by simp [blocks, Option.mem_def.1 hc])
  · exact List.map_congr_left fun c hc => hblock c (by simp [blocks, hc])
  · exact hblock _ (by simp [blocks])

end Relabel

theorem Code.relabels_relabel (f : Label → Label) : Relabels f (·.relabel f) :=
  ⟨fun _ => rfl, fun _ _ => rfl, rfl⟩

/-- Moves up the next number and those of the constants. -/
def Supply.shift (k : ℕ) (s : Supply) : Supply :=
  ⟨s.next + k, ⟨s.strings.entries.map fun e => (e.1, e.2 + k)⟩⟩

def Emission.shift {α β : Type} (k : ℕ) (g : α → β) (e : Emission α) : Emission β :=
  ⟨e.items.map (·.relabel (Label.shift k)), e.supply.shift k, e.result.map g⟩

namespace Emit

variable {α β γ δ : Type} {k : ℕ}

/-- From a supply that is moved up the second step does what the first one does, also where it
fails, with all numbers moved up; or the numbers run out. -/
def Follows (k : ℕ) (g : α → β) (x : Emit α) (y : Emit β) : Prop :=
  ∀ s, (y (s.shift k)).result = .error .labelsExhausted ∨ y (s.shift k) = (x s).shift k g

theorem follows_pure {g : α → β} (a : α) : Follows k g (Pure.pure a) (Pure.pure (g a)) :=
  fun _ => .inr rfl

theorem follows_reject {g : α → β} (e : CompileError) : Follows k g (reject e) (reject e) :=
  fun _ => .inr rfl

theorem follows_item (i : Item) : Follows k id (item i) (item (i.relabel (Label.shift k))) :=
  fun _ => .inr rfl

theorem Follows.bind {g : α → β} {h : γ → δ} {x : Emit α} {y : Emit β} {u : α → Emit γ}
    {v : β → Emit δ} (hx : Follows k g x y) (hu : ∀ a, Follows k h (u a) (v (g a))) :
    Follows k h (x >>= u) (y >>= v) := by
  intro s
  rcases hx s with he | he
  · exact .inl (by rw [bind_apply_of_error he])
  · cases hr : (x s).result with
    | error e =>
      have hy : (y (s.shift k)).result = .error e := by rw [he, Emission.shift, hr]; rfl
      rw [bind_apply_of_error hy, bind_apply_of_error hr, he]
      exact .inr rfl
    | ok a =>
      have hy : (y (s.shift k)).result = .ok (g a) := by rw [he, Emission.shift, hr]; rfl
      have hsupply : (y (s.shift k)).supply = (x s).supply.shift k := by rw [he]; rfl
      rw [bind_apply_of_ok hy, bind_apply_of_ok hr, hsupply]
      rcases hu a (x s).supply with hn | hn
      · exact .inl hn
      · rw [hn, he]
        exact .inr (by simp [Emission.shift])

/-- A number is drawn from both supplies, unless it lies beyond the limit. -/
theorem number?_shift (s : Supply) : (s.shift k).number? = none ∨
    s.number? = some (s.next, { s with next := s.next + 1 }) ∧
      (s.shift k).number? = some (s.next + k, Supply.shift k { s with next := s.next + 1 }) := by
  by_cases hlt : s.next + k < Label.numberLimit
  · refine .inr ⟨Supply.number?_eq_some_iff.2 ⟨by omega, rfl, rfl⟩,
      Supply.number?_eq_some_iff.2 ⟨hlt, rfl, ?_⟩⟩
    simp only [Supply.shift, Nat.add_right_comm]
  · exact .inl (if_neg hlt)

theorem follows_fresh (stem : String) : Follows k (Label.shift k) (fresh stem) (fresh stem) := by
  intro s
  rcases number?_shift (k := k) s with h | ⟨h, hk⟩
  · exact .inl (by simp only [fresh, ofSupply, Supply.fresh?, h, Option.map_none])
  · refine .inr ?_
    simp only [fresh, ofSupply, Supply.fresh?, h, hk, Option.map_some]
    rfl

theorem find?_shift (s : Supply) (text : String) :
    (s.shift k).strings.find? text = (s.strings.find? text).map (Label.shift k) := by
  have hlookup : ∀ entries : List (String × ℕ), (entries.map fun e => (e.1, e.2 + k)).lookup text =
      (entries.lookup text).map (· + k) := by
    intro entries
    induction entries with
    | nil => rfl
    | cons e r ih =>
      obtain ⟨t, n⟩ := e
      cases h : text == t <;> simp [List.lookup_cons, h, ih]
  simp only [StringPool.find?, Supply.shift, hlookup, Option.map_map]
  rfl

theorem follows_intern (text : String) : Follows k (Label.shift k) (intern text) (intern text) := by
  intro s
  cases hfind : s.strings.find? text with
  | some l =>
    refine .inr ?_
    simp only [intern, ofSupply, Supply.intern?, find?_shift, hfind, Option.map_some]
    rfl
  | none =>
    rcases number?_shift (k := k) s with h | ⟨h, hk⟩
    · exact .inl
        (by simp only [intern, ofSupply, Supply.intern?, find?_shift, hfind, h, Option.map_none])
    · refine .inr ?_
      simp only [intern, ofSupply, Supply.intern?, find?_shift, hfind, h, hk, Option.map_some,
        Option.map_none]
      simp [Emission.shift, Supply.shift, StringPool.add, StringPool.labelOf,
        Label.shift, Except.map]

end Emit

namespace Lowering
open Emit

variable {k : ℕ} {env : Env} {line : UInt32}

/-- The code does not depend on the seed. -/
abbrev Shifts (k : ℕ) (x : Emit Unit) : Prop := Follows k id x x

theorem shifts_bare (opcode : Opcode) : Shifts k (.bare opcode) := follows_item _

/-- Operands without labels that could have numbers. -/
theorem shifts_on {o : Operand} (h : o.relabel (Label.shift k) = o) (opcode : Opcode) :
    Shifts k (.on opcode o) := by
  have hitem := follows_item (k := k) (.op (.on opcode o))
  simpa only [Shifts, Emit.on, Item.relabel, Instruction.relabel, Instruction.on, Option.map_some,
    Option.map_none, h] using hitem

theorem follows_target (opcode : Opcode) (l : Label) :
    Follows k id (.on opcode (.target l)) (.on opcode (.target (l.shift k))) := follows_item _

theorem follows_mark (l : Label) : Follows k id (.mark l) (.mark (l.shift k)) := follows_item _

theorem follows_locate (name : String) :
    Follows k id (locate env line name) (locate env line name) := by
  unfold locate
  split
  next => exact follows_pure _
  next => exact follows_reject _

theorem follows_place (t : Expr) : Follows k id (target env line t) (target env line t) := by
  cases t with
  | name n => exact follows_locate n
  | _ => exact follows_reject _

theorem shifts_literal (v : Literal) : Shifts k (literal v) := by
  cases v with
  | str s => exact (follows_intern s).bind fun l => follows_item (.op (.on .push (.addr l)))
  | _ => exact shifts_on rfl _

theorem shifts_builtin {func : String} {count : ℕ} {args : Emit Unit} {used : Bool}
    (hargs : Shifts k args) : Shifts k (builtin env line func count args used) := by
  unfold builtin
  split
  next => exact hargs.bind fun _ => shifts_bare _
  next =>
    split
    next =>
      refine (shifts_bare _).bind fun _ => ?_
      split
      · exact follows_pure _
      · exact shifts_on rfl _
    next =>
      split
      · exact follows_reject _
      · exact follows_reject _

theorem shifts_call {func : String} {count : ℕ} {args : Emit Unit} {used : Bool}
    (hargs : Shifts k args) : Shifts k (call env line func count args used) := by
  cases hf : env.callee func with
  | none =>
    simp only [call, hf]
    exact shifts_builtin hargs
  | some f =>
    have hfetch : Shifts k
        (if used = true then .on .push (.mem f.resultCell) else Pure.pure ()) := by
      split
      · exact shifts_on rfl _
      · exact follows_pure _
    by_cases hc : f.arity = count
    · simp only [call, hf, hc, ne_eq, not_true_eq_false, if_false]
      refine hargs.bind fun _ => (shifts_on rfl _).bind fun _ => ?_
      split
      · exact hfetch
      · exact (shifts_on rfl _).bind fun _ => hfetch
    · simp only [call, hf, ne_eq, hc, not_false_eq_true, if_true]
      exact follows_reject _

mutual

theorem shifts_expr (e : Expr) : Shifts k (expr env line e) := by
  match e with
  | .literal v => exact shifts_literal v
  | .name n => exact (follows_locate n).bind fun _ => shifts_on rfl _
  | .binary op l r =>
    exact (shifts_expr l).bind fun _ => (shifts_expr r).bind fun _ => shifts_bare _
  | .unary op e => exact (shifts_expr e).bind fun _ => shifts_bare _
  | .call func args => exact shifts_call (shifts_exprs args)
  | .unsupported c => exact follows_reject _

theorem shifts_exprs (es : List Expr) : Shifts k (exprs env line es) := by
  match es with
  | [] => exact follows_pure _
  | e :: r => exact (shifts_expr e).bind fun _ => shifts_exprs r

end

theorem shifts_discard (e : Expr) : Shifts k (discard env line e) := by
  unfold discard
  split
  next func args => exact shifts_call (shifts_exprs args)
  next => exact (shifts_expr e).bind fun _ => shifts_on rfl _

theorem shifts_assign (value : Expr) (targets : List Expr) :
    Shifts k (assign env line value targets) := by
  unfold assign
  split
  next t => exact (follows_place t).bind fun _ => (shifts_expr value).bind fun _ => shifts_on rfl _
  next => exact follows_reject _

theorem shifts_update (t : Expr) (op : BinaryOp) (value : Expr) :
    Shifts k (update env line t op value) :=
  (follows_place t).bind fun _ => (shifts_on rfl _).bind fun _ => (shifts_expr value).bind fun _ =>
    (shifts_bare _).bind fun _ => shifts_on rfl _

/-- Returning jumps to a label without a number. -/
theorem shifts_ret (henv : ∀ cell exit, env.result = some (cell, exit) → exit.shift k = exit)
    (value : Option Expr) : Shifts k (ret env line value) := by
  unfold ret
  split
  next => exact follows_reject _
  next cell exit hresult =>
    have hexit : Operand.relabel (Label.shift k) (.target exit) = .target exit :=
      congrArg Operand.target (henv cell exit hresult)
    have hleave : Shifts k (do Emit.on .pop (.mem cell); .on .br (.target exit)) :=
      (shifts_on rfl _).bind fun _ => shifts_on hexit _
    cases value with
    | some e => exact (shifts_expr e).bind fun _ => hleave
    | none => exact (shifts_on rfl _).bind fun _ => hleave

theorem shifts_ifThen {test body : Emit Unit} (ht : Shifts k test) (hb : Shifts k body) :
    Shifts k (ifThen test body) :=
  ht.bind fun _ => (follows_fresh _).bind fun done => (follows_target _ done).bind fun _ =>
    hb.bind fun _ =>
    follows_mark done

theorem shifts_ifThenElse {test body orelse : Emit Unit} (ht : Shifts k test) (hb : Shifts k body)
    (ho : Shifts k orelse) : Shifts k (ifThenElse test body orelse) :=
  ht.bind fun _ => (follows_fresh _).bind fun otherwise => (follows_fresh _).bind fun done =>
    (follows_target _ otherwise).bind fun _ => hb.bind fun _ =>
      (follows_target _ done).bind fun _ =>
      (follows_mark otherwise).bind fun _ => ho.bind fun _ => follows_mark done

theorem shifts_whileDo {test body : Emit Unit} (ht : Shifts k test) (hb : Shifts k body) :
    Shifts k (whileDo test body) :=
  (follows_fresh _).bind fun head => (follows_fresh _).bind fun done =>
    (follows_mark head).bind fun _ =>
    ht.bind fun _ => (follows_target _ done).bind fun _ => hb.bind fun _ =>
      (follows_target _ head).bind fun _ =>
      follows_mark done

mutual

theorem shifts_stmt (henv : ∀ cell exit, env.result = some (cell, exit) → exit.shift k = exit)
    (s : Stmt) : Shifts k (stmt env s) := by
  match s with
  | .assign line targets value => exact shifts_assign value targets
  | .update line t op value => exact shifts_update t op value
  | .ifElse line test body orelse =>
    have ht : Shifts k (expr env line test) := shifts_expr test
    rw [stmt]
    split
    · exact shifts_ifThen ht (shifts_stmts henv body)
    · exact shifts_ifThenElse ht (shifts_stmts henv body) (shifts_stmts henv orelse)
  | .whileLoop line test body => exact shifts_whileDo (shifts_expr test) (shifts_stmts henv body)
  | .define line name params body => exact follows_reject _
  | .ret line value => exact shifts_ret henv value
  | .eval line value => exact shifts_discard value
  | .pass line => exact follows_pure _
  | .unsupported line construct => exact follows_reject _

theorem shifts_stmts (henv : ∀ cell exit, env.result = some (cell, exit) → exit.shift k = exit)
    (ss : List Stmt) : Shifts k (stmts env ss) := by
  match ss with
  | [] => exact follows_pure _
  | s :: r => exact (shifts_stmt henv s).bind fun _ => shifts_stmts henv r

end

end Lowering

/-- A whole body, settled. -/
theorem Emit.Follows.run {k : ℕ} {body : Emit Unit} (h : Lowering.Shifts k body) (s : Supply) :
    (body.run (s.shift k)).1 = .error .labelsExhausted ∨
      body.run (s.shift k) =
        ((body.run s).1.map (List.map (·.relabel (Label.shift k))), (body.run s).2.shift k) := by
  rcases h s with he | he
  · exact .inl (by simp only [Emit.run, he, Except.map])
  · refine .inr ?_
    simp only [Emit.run, he, Emission.shift]
    cases (body s).result with
    | error e => rfl
    | ok a =>
      have hsettle := (Code.relabels_relabel (Label.shift k)).map_settleFrom
        (k := (·.relabel (Label.shift k)))
        (fun _ => rfl) (fun _ => rfl) [] (body s).items
      simp only [Except.map, Code.settle, hsettle, List.map_nil]

namespace Frame

variable (k : ℕ) (f : Frame)

theorem map_relabel_reservation :
    f.reservation.map (·.relabel (Label.shift k)) = f.reservation := by
  simp only [reservation, List.map_cons, List.map_map]
  rfl

theorem map_relabel_prologue : f.prologue.map (·.relabel (Label.shift k)) = f.prologue := by
  have hbind : ∀ name index, (f.bindParam name index).map (·.relabel (Label.shift k)) =
      f.bindParam name index := by
    intro name index
    unfold bindParam
    split <;> rfl
  simp only [prologue, List.map_cons, List.map_flatMap, hbind]
  rfl

/-- The code around the body of a routine has no numbers. -/
theorem relabel_block (code : List Instruction) :
    (f.block code).relabel (Label.shift k) = f.block (code.map (·.relabel (Label.shift k))) := by
  simp only [Block.relabel, block, List.map_append, map_relabel_reservation, map_relabel_prologue]
  rfl

end Frame

namespace Layout

theorem shifts_topBody (l : Layout) (k : ℕ) (s : Script) : Lowering.Shifts k (l.topBody s) :=
  Lowering.shifts_stmts (by simp [topEnv]) _

theorem shifts_routineBody (l : Layout) (k : ℕ) (f : Frame) (r : Routine) :
    Lowering.Shifts k (l.routineBody f r) := by
  refine Lowering.shifts_stmts (fun cell exit h => ?_) _
  obtain ⟨-, rfl⟩ := Prod.mk.inj (Option.some.inj h)
  rfl

/-- The routines one after another: the shift is handed on from body to body. -/
theorem routineBlocks_shift (l : Layout) (k : ℕ) (pairs : List (Routine × Frame)) (s : Supply) :
    (l.routineBlocks pairs (s.shift k)).1 = .error .labelsExhausted ∨
      l.routineBlocks pairs (s.shift k) =
        ((l.routineBlocks pairs s).1.map (List.map (·.relabel (Label.shift k))),
          (l.routineBlocks pairs s).2.shift k) := by
  induction pairs generalizing s with
  | nil => exact .inr rfl
  | cons x rest ih =>
    obtain ⟨r, f⟩ := x
    rcases Emit.Follows.run (l.shifts_routineBody k f r) s with he | he
    · refine .inl ?_
      rcases hrun : (l.routineBody f r).run (s.shift k) with ⟨result, s'⟩
      obtain rfl : result = .error .labelsExhausted := by simpa [hrun] using he
      simp only [routineBlocks, hrun]
    · rcases hrun : (l.routineBody f r).run s with ⟨result, s'⟩
      rw [hrun] at he
      cases result with
      | error e =>
        exact .inr (by simp only [routineBlocks, he, hrun, Except.map])
      | ok code =>
        simp only [routineBlocks, he, hrun, Except.map]
        rcases ih s' with hi | hi
        · exact .inl (by rw [hi])
        · refine .inr ?_
          rw [hi]
          cases (l.routineBlocks rest s').1 with
          | error e => rfl
          | ok blocks => simp [Except.map, Frame.relabel_block]

end Layout

namespace Script

theorem relabel_dataBlock (k : ℕ) (globals : Scope) :
    (dataBlock globals).relabel (Label.shift k) = dataBlock globals := by
  simp only [dataBlock, Block.relabel, Scope.declarations, List.map_map]
  rfl

theorem stringBlock_shift (k : ℕ) (s : Supply) :
    stringBlock (s.shift k).strings = (stringBlock s.strings).map (·.relabel (Label.shift k)) := by
  have hdeclarations : (s.shift k).strings.declarations =
      s.strings.declarations.map (·.relabel (Label.shift k)) := by
    simp only [StringPool.declarations, Supply.shift, List.map_map]
    rfl
  have hempty : (s.shift k).strings.isEmpty = s.strings.isEmpty := by
    simp [StringPool.isEmpty, Supply.shift]
  unfold stringBlock
  rw [hempty, hdeclarations]
  split <;> rfl

theorem relabel_topLevelBlock (k : ℕ) (body : List Instruction) :
    (Code.topLevelBlock body).relabel (Label.shift k) =
      Code.topLevelBlock (body.map (·.relabel (Label.shift k))) := by
  simp only [Code.topLevelBlock, Block.relabel, (Code.relabels_relabel _).map_withLabel,
    List.map_append]
  rfl

/-- A later seed gives the same outcome with all numbers moved up, unless the numbers run out. -/
theorem compileFrom_add (s : Script) (source : String) (seed k : ℕ) :
    (s.compileFrom source (seed + k)).result = .error .labelsExhausted ∨
      s.compileFrom source (seed + k) =
        ⟨(s.compileFrom source seed).result.map (·.relabel (Label.shift k)),
          (s.compileFrom source seed).next + k⟩ := by
  have hstart : Supply.start (seed + k) = (Supply.start seed).shift k := rfl
  cases hl : Layout.ofScript s with
  | error e =>
    simp only [compileFrom, hl]
    exact .inr rfl
  | ok layout =>
    rcases Emit.Follows.run (layout.shifts_topBody k s) (.start seed) with he | he
    · refine .inl ?_
      rcases hrun : (layout.topBody s).run ((Supply.start seed).shift k) with ⟨result, s'⟩
      obtain rfl : result = .error .labelsExhausted := by simpa [hrun] using he
      simp only [compileFrom, hl, hstart, hrun]
    · rcases hrun : (layout.topBody s).run (.start seed) with ⟨result, s'⟩
      rw [hrun] at he
      cases result with
      | error e =>
        simp only [compileFrom, hl, hstart, he, hrun, Except.map]
        exact .inr rfl
      | ok code =>
        simp only [compileFrom, hl, hstart, he, hrun, Except.map]
        rcases layout.routineBlocks_shift k (s.routines.zip layout.frames) s' with hi | hi
        · exact .inl (by rw [hi])
        · refine .inr ?_
          rw [hi]
          cases (layout.routineBlocks (s.routines.zip layout.frames) s').1 with
          | error e => rfl
          | ok blocks =>
            simp only [Except.map, Program.relabel, relabel_dataBlock, relabel_topLevelBlock,
              stringBlock_shift]
            rfl

/-- Counted from the seed, the outcome is that of the seed zero. -/
theorem rebase_compileFrom {s : Script} (hn : s.Named) (source : String) {seed : ℕ}
    (h : (s.compileFrom source seed).result ≠ .error .labelsExhausted) :
    (s.compileFrom source seed).result.map (·.relabel (Label.rebase seed)) =
        (s.compileFrom source 0).result.map (·.relabel (Label.rebase 0)) ∧
      (s.compileFrom source seed).next = (s.compileFrom source 0).next + seed := by
  rcases compileFrom_add s source 0 seed with he | he
  · exact absurd (by simpa using he) h
  · rw [Nat.zero_add] at he
    rw [he]
    refine ⟨?_, rfl⟩
    cases hp : (s.compileFrom source 0).result with
    | error e => rfl
    | ok p =>
      obtain ⟨b⟩ := Build.nonempty hp
      have hrebase := Program.relabel_relabel (b.legible hn) fun l hl => Label.rebase_shift hl seed
      simp only [Except.map, hrebase]

/-- Nothing but the numbers of labels depends on the seed. From any two seeds a script whose names
are identifiers is rejected with the same error or gives the same program, once the numbers are
counted from the seed, and as many numbers are drawn. -/
theorem seed_equivariant {s : Script} (hn : s.Named) (source : String) {a b : ℕ}
    (ha : (s.compileFrom source a).result ≠ .error .labelsExhausted)
    (hb : (s.compileFrom source b).result ≠ .error .labelsExhausted) :
    (s.compileFrom source a).result.map (·.relabel (Label.rebase a)) =
        (s.compileFrom source b).result.map (·.relabel (Label.rebase b)) ∧
      ((s.compileFrom source a).next : ℤ) - a = (s.compileFrom source b).next - b := by
  obtain ⟨hresult, hnext⟩ := rebase_compileFrom hn source ha
  obtain ⟨hresult', hnext'⟩ := rebase_compileFrom hn source hb
  refine ⟨hresult.trans hresult'.symm, ?_⟩
  rw [hnext, hnext']
  push_cast
  omega

/-- A seed with as many digits as a number can have, and one with a single digit. -/
theorem stemNames_seed_equivariant :
    stemNames.Named ∧ (stemNames.compileFrom "stems" 7).result.isOk = true ∧
    (stemNames.compileFrom "stems" 4294967280).result.isOk = true ∧
    (stemNames.compileFrom "stems" 7).result.map (·.relabel (Label.rebase 7)) =
      (stemNames.compileFrom "stems" 4294967280).result.map
      (·.relabel (Label.rebase 4294967280)) := by
  have hn : stemNames.Named := ⟨by decide, by decide, by decide, by decide⟩
  have ha : (stemNames.compileFrom "stems" 7).result.isOk = true := by decide
  have hb : (stemNames.compileFrom "stems" 4294967280).result.isOk = true := by decide
  have hne : ∀ {r : Except Fault Program}, r.isOk = true → r ≠ .error .labelsExhausted := by
    rintro r hr rfl
    simp [Except.isOk, Except.toBool] at hr
  exact ⟨hn, ha, hb, (seed_equivariant hn "stems" (hne ha) (hne hb)).1⟩

end Script

end TreeAsm

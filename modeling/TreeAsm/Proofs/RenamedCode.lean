import TreeAsm.Proofs.Renaming

/-! Code under other names. Generation from a body under other names, and on other lines, writes the
same code with the names in its labels replaced, or fails in the same way; lines come up in errors
only. -/
namespace TreeAsm

/-! ### Labels

The names in labels are replaced, wherever the labels stand. Labels with numbers have no names. -/

def Label.rename (r : String → String) : Label → Label
  | .plain text => .plain (r text)
  | .result routine => .result (r routine)
  | .exit routine => .exit (r routine)
  | .slot routine name => .slot (r routine) (r name)
  | .generated stem number => .generated stem number

def Location.rename (r : String → String) : Location → Location
  | .static l => .static (l.rename r)
  | .frame symbol offset => .frame (symbol.rename r) offset

def Operand.rename (r : String → String) : Operand → Operand
  | .addr l => .addr (l.rename r)
  | .mem loc => .mem (loc.rename r)
  | .target l => .target (l.rename r)
  | o => o

def Instruction.rename (r : String → String) (i : Instruction) : Instruction :=
  { i with label := i.label.map (·.rename r), operand := i.operand.map (·.rename r) }

def Item.rename (r : String → String) : Item → Item
  | .mark l => .mark (l.rename r)
  | .op i => .op (i.rename r)

theorem Code.relabels_rename (r : String → String) : Relabels (·.rename r) (·.rename r) :=
  ⟨fun _ => rfl, fun _ _ => rfl, rfl⟩

theorem Code.settle_map_rename (r : String → String) (items : List Item) :
    settle (items.map (·.rename r)) = (settle items).map (·.rename r) :=
  ((relabels_rename r).map_settleFrom (k := (·.rename r)) (fun _ => rfl) (fun _ => rfl)
    [] items).symm

/-- The same error under other names, with any line. -/
inductive CompileError.Alike (r : String → String) : CompileError → CompileError → Prop where
  | unsupported (construct : String) (routine : Option String) (line line' : UInt32) :
      Alike r (.unsupported construct routine line) (.unsupported construct (routine.map r) line')
  | nested (name : String) (routine : Option String) (line line' : UInt32) :
      Alike r (.unsupported (Stmt.nestedRoutine name) routine line)
        (.unsupported (Stmt.nestedRoutine (r name)) (routine.map r) line')
  | unresolvedName (name : String) (routine : Option String) (line line' : UInt32) :
      Alike r (.unresolvedName name routine line) (.unresolvedName (r name) (routine.map r) line')
  | duplicateRoutine (name : String) (line line' : UInt32) :
      Alike r (.duplicateRoutine name line) (.duplicateRoutine (r name) line')
  | labelClash (name : String) (line line' : UInt32) :
      Alike r (.labelClash name line) (.labelClash (r name) line')
  | unknownRoutine (name : String) (routine : Option String) (line line' : UInt32) :
      Alike r (.unknownRoutine name routine line) (.unknownRoutine (r name) (routine.map r) line')
  | arityMismatch (callee : String) (expected found : Nat) (routine : Option String)
      (line line' : UInt32) :
      Alike r (.arityMismatch callee expected found routine line)
        (.arityMismatch (r callee) expected found (routine.map r) line')

inductive Fault.Alike (r : String → String) : Fault → Fault → Prop where
  | rejected {e e' : CompileError} (h : e.Alike r e') : Alike r (.rejected e) (.rejected e')
  | labelsExhausted : Alike r .labelsExhausted .labelsExhausted
  | frameTooWide : Alike r .frameTooWide .frameTooWide

/-- Both end with values that are related, or both with faults that are the same under other
names. -/
inductive EndAlike {α β : Type} (r : String → String) (R : α → β → Prop) :
    Except Fault α → Except Fault β → Prop where
  | ok {a : α} {b : β} (h : R a b) : EndAlike r R (.ok a) (.ok b)
  | error {f g : Fault} (h : f.Alike r g) : EndAlike r R (.error f) (.error g)

theorem EndAlike.cases {α β : Type} {r : String → String} {R : α → β → Prop} {x : Except Fault α}
    {y : Except Fault β} (h : EndAlike r R x y) :
    (∃ f g, x = .error f ∧ y = .error g ∧ f.Alike r g) ∨ ∃ a b, x = .ok a ∧ y = .ok b ∧ R a b := by
  cases h with
  | ok h => exact .inr ⟨_, _, rfl, rfl, h⟩
  | error h => exact .inl ⟨_, _, rfl, rfl, h⟩

theorem EndAlike.map {α β γ δ : Type} {r : String → String} {R : α → β → Prop} {S : γ → δ → Prop}
    {f : α → γ} {g : β → δ} {x : Except Fault α} {y : Except Fault β} (h : EndAlike r R x y)
    (hf : ∀ a b, R a b → S (f a) (g b)) : EndAlike r S (x.map f) (y.map g) := by
  cases h with
  | ok h => exact .ok (hf _ _ h)
  | error h => exact .error h

namespace Emit

variable {α β γ δ : Type} {r : String → String} {R : α → β → Prop} {S : γ → δ → Prop}

/-- From every supply the second step does what the first one does, under other names: it writes the
same code, leaves the same supply, and fails where the first one fails. -/
structure Alike (r : String → String) (R : α → β → Prop) (x : Emit α) (y : Emit β) : Prop where
  items : ∀ s, (y s).items = (x s).items.map (·.rename r)
  supply : ∀ s, (y s).supply = (x s).supply
  result : ∀ s, EndAlike r R (x s).result (y s).result

theorem alike_pure {a : α} {b : β} (h : R a b) : Alike r R (Pure.pure a) (Pure.pure b) :=
  ⟨fun _ => rfl, fun _ => rfl, fun _ => .ok h⟩

theorem alike_reject {e e' : CompileError} (h : e.Alike r e') : Alike r R (reject e) (reject e') :=
  ⟨fun _ => rfl, fun _ => rfl, fun _ => .error (.rejected h)⟩

theorem Alike.bind {x : Emit α} {y : Emit β} {u : α → Emit γ} {v : β → Emit δ} (hx : Alike r R x y)
    (hu : ∀ a b, R a b → Alike r S (u a) (v b)) : Alike r S (x >>= u) (y >>= v) := by
  have hboth : ∀ s, ((y >>= v) s).items = ((x >>= u) s).items.map (·.rename r) ∧
      ((y >>= v) s).supply = ((x >>= u) s).supply ∧
        EndAlike r S ((x >>= u) s).result ((y >>= v) s).result := by
    intro s
    rcases (hx.result s).cases with ⟨f, g, hf, hg, hfg⟩ | ⟨a, b, ha, hb, hab⟩
    · rw [bind_apply_of_error hf, bind_apply_of_error hg]
      exact ⟨hx.items s, hx.supply s, .error hfg⟩
    · have hnext := hu a b hab
      rw [bind_apply_of_ok ha, bind_apply_of_ok hb, hx.items, hx.supply]
      exact ⟨by rw [hnext.items, List.map_append], hnext.supply _, hnext.result _⟩
  exact ⟨fun s => (hboth s).1, fun s => (hboth s).2.1, fun s => (hboth s).2.2⟩

/-- Steps that go on with a label or a place, and with what it is under other names. -/
theorem Alike.bindMap {k : α → β} {x : Emit α} {y : Emit β} {u : α → Emit γ} {v : β → Emit δ}
    (hx : Alike r (fun a b => b = k a) x y) (hu : ∀ a, Alike r S (u a) (v (k a))) :
    Alike r S (x >>= u) (y >>= v) := by
  refine hx.bind fun a b hab => ?_
  rw [hab]
  exact hu a

/-- A label that is drawn has no names. -/
theorem alike_ofSupply {draw : Supply → Option (Label × Supply)}
    (h : ∀ s l s', draw s = some (l, s') → l.rename r = l) :
    Alike r (fun l l' => l' = l.rename r) (ofSupply draw) (ofSupply draw) := by
  refine ⟨fun s => ?_, fun s => rfl, fun s => ?_⟩
  · unfold ofSupply
    split <;> rfl
  · unfold ofSupply
    split
    next => exact .error .labelsExhausted
    next l s' hd => exact .ok (h s l s' hd).symm

theorem alike_fresh (stem : String) :
    Alike r (fun l l' => l' = l.rename r) (fresh stem) (fresh stem) := by
  refine alike_ofSupply fun s l s' h => ?_
  obtain ⟨-, rfl, -⟩ := Supply.fresh?_eq_some_iff.1 h
  rfl

theorem alike_intern (text : String) :
    Alike r (fun l l' => l' = l.rename r) (intern text) (intern text) := by
  refine alike_ofSupply fun s l s' h => ?_
  rcases Supply.intern?_cases h with ⟨n, -, rfl, -⟩ | ⟨-, rfl, -⟩ <;> rfl

end Emit

/-! ### Storage under other names -/

def Variable.rename (r : String → String) (v : Variable) : Variable := { v with name := r v.name }

/-- The second scope has the variables of the first, in the same order, under other names. -/
def Scope.Alike (r : String → String) (a b : Scope) : Prop := b.toList = a.toList.map (·.rename r)

structure Frame.Alike (r : String → String) (f g : Frame) : Prop where
  routine : g.routine = r f.routine
  locals : f.locals.Alike r g.locals

namespace Scope.Alike

variable {r : String → String} {a b : Scope} (h : a.Alike r b)
include h

theorem names_eq : b.names = a.names.map r := by
  rw [names, h, names, List.map_map, List.map_map]
  rfl

theorem size_eq : b.size = a.size := by
  rw [← length_toList, h, List.length_map, length_toList]

theorem position?_eq (hr : Function.Injective r) (n : String) :
    b.position? (r n) = a.position? n := by
  refine Option.ext fun i => ?_
  rw [position?_eq_some_iff, position?_eq_some_iff, h.names_eq, List.getElem?_map,
    Option.map_eq_some_iff]
  constructor
  · rintro ⟨k, hk, he⟩
    rw [hk, hr he]
  · exact fun hn => ⟨n, hn, rfl⟩

theorem contains_eq (hr : Function.Injective r) (n : String) : b.contains (r n) = a.contains n := by
  rw [contains, contains, h.position?_eq hr]

theorem insert (hr : Function.Injective r) (v : Variable) :
    (a.insert v).Alike r (b.insert (v.rename r)) := by
  have hmem : (v.rename r).name ∈ b.names ↔ v.name ∈ a.names := by
    rw [h.names_eq]
    exact List.mem_map_of_injective hr
  rw [Alike, toList_insert, toList_insert, h]
  by_cases hv : v.name ∈ a.names
  · rw [if_pos hv, if_pos (hmem.2 hv)]
  · rw [if_neg hv, if_neg (mt hmem.1 hv), List.map_append]
    rfl

theorem insertAll (hr : Function.Injective r) (vs : List Variable) :
    (a.insertAll vs).Alike r (b.insertAll (vs.map (·.rename r))) := by
  induction vs generalizing a b with
  | nil => exact h
  | cons v rest ih => exact ih (h.insert hr v)

end Scope.Alike

namespace Frame.Alike

variable {r : String → String} {f g : Frame} (h : f.Alike r g)
include h

theorem params_eq : g.params = f.params.map r := by
  rw [params, params, h.locals, List.filter_map, List.map_map, List.map_map]
  rfl

theorem arity_eq : g.arity = f.arity := by
  rw [arity, h.params_eq, List.length_map, arity]

theorem resolve?_eq (hr : Function.Injective r) (n : String) :
    g.resolve? (r n) = (f.resolve? n).map (·.rename r) := by
  rw [resolve?, slot?, h.locals.position?_eq hr, h.routine, resolve?, slot?, Option.map_map]
  rfl

theorem resultCell_eq : g.resultCell = f.resultCell.rename r := by
  rw [resultCell, h.routine]
  rfl

theorem exitLabel_eq : g.exitLabel = f.exitLabel.rename r := by
  rw [exitLabel, h.routine]
  rfl

end Frame.Alike

/-- What the names of the first environment mean, their new names mean in the second. -/
structure Env.Alike (r : String → String) (env env' : Env) : Prop where
  resolve : ∀ n, env'.resolve (r n) = (env.resolve n).map (·.rename r)
  routine : env'.routine = env.routine.map r
  result : env'.result = env.result.map fun x => (x.1.rename r, x.2.rename r)
  callee : ∀ n, Option.Rel (Frame.Alike r) (env.callee n) (env'.callee (r n))
  print : ∀ n, r n = "print" ↔ n = "print"
  input : ∀ n, r n = "input" ↔ n = "input"

namespace Lowering
open Emit

variable {r : String → String} {m : UInt32 → UInt32} {env env' : Env} {line line' : UInt32}

/-- The two write the same code, under other names. -/
abbrev Alike (r : String → String) (x y : Emit Unit) : Prop := Emit.Alike r (fun _ _ => True) x y

theorem alike_item (i : Item) : Alike r (.item i) (.item (i.rename r)) :=
  ⟨fun _ => rfl, fun _ => rfl, fun _ => .ok trivial⟩

theorem alike_bare (opcode : Opcode) : Alike r (.bare opcode) (.bare opcode) := alike_item _

theorem alike_on (opcode : Opcode) (o : Operand) :
    Alike r (.on opcode o) (.on opcode (o.rename r)) := alike_item _

theorem alike_mark (l : Label) : Alike r (.mark l) (.mark (l.rename r)) := alike_item _

theorem Alike.then {x x' y y' : Emit Unit} (hx : Alike r x x') (hy : Alike r y y') :
    Alike r (do x; y) (do x'; y') := hx.bind fun _ _ _ => hy

theorem alike_unsupported (henv : env.Alike r env') {α β : Type} {R : α → β → Prop}
    (construct : String) :
    Emit.Alike r R (unsupported env line construct) (unsupported env' line' construct) := by
  rw [unsupported, unsupported, henv.routine]
  exact alike_reject (.unsupported construct env.routine line line')

theorem alike_locate (henv : env.Alike r env') (n : String) :
    Emit.Alike r (fun a b => b = a.rename r) (locate env line n) (locate env' line' (r n)) := by
  rw [locate, locate, henv.resolve]
  cases env.resolve n with
  | some loc => exact alike_pure rfl
  | none =>
    rw [henv.routine]
    exact alike_reject (.unresolvedName n env.routine line line')

theorem alike_target (henv : env.Alike r env') (t : Expr) :
    Emit.Alike r (fun a b => b = a.rename r) (target env line t)
      (target env' line' (t.rename r)) := by
  cases t with
  | name n => exact alike_locate henv n
  | _ => exact alike_unsupported henv _

theorem alike_literal (v : Literal) : Alike r (literal v) (literal v) := by
  cases v with
  | str text => exact (alike_intern text).bindMap fun l => alike_on .push (.addr l)
  | _ => exact alike_on .push _

theorem alike_builtin (henv : env.Alike r env') {func : String} {count : Nat}
    {args args' : Emit Unit} {used : Bool} (hargs : Alike r args args') :
    Alike r (builtin env line func count args used)
      (builtin env' line' (r func) count args' used) := by
  simp only [builtin, henv.print, henv.input]
  by_cases hp : func = "print" ∧ count = 1 ∧ used = false
  · simp only [if_pos hp]
    exact hargs.then (alike_bare _)
  · simp only [if_neg hp]
    by_cases hi : func = "input" ∧ count = 0
    · simp only [if_pos hi]
      refine (alike_bare _).then ?_
      cases used with
      | true => exact alike_pure trivial
      | false => exact alike_on .addsp (.imm 1)
    · simp only [if_neg hi]
      by_cases hb : func = "print" ∨ func = "input"
      · have hfixed : r func = func := by
          rcases hb with rfl | rfl
          · exact (henv.print _).2 rfl
          · exact (henv.input _).2 rfl
        simp only [if_pos hb, hfixed]
        exact alike_unsupported henv _
      · simp only [if_neg hb, henv.routine]
        exact alike_reject (.unknownRoutine func env.routine line line')

theorem alike_call (henv : env.Alike r env') {func : String} {count : Nat} {args args' : Emit Unit}
    {used : Bool} (hargs : Alike r args args') :
    Alike r (call env line func count args used) (call env' line' (r func) count args' used) := by
  have hcallee := henv.callee func
  cases hf : env.callee func with
  | none =>
    cases hf' : env'.callee (r func) with
    | some g =>
      rw [hf, hf'] at hcallee
      cases hcallee
    | none =>
      simp only [call, hf, hf']
      exact alike_builtin henv hargs
  | some f =>
    cases hf' : env'.callee (r func) with
    | none =>
      rw [hf, hf'] at hcallee
      cases hcallee
    | some g =>
      rw [hf, hf'] at hcallee
      obtain ⟨hframe⟩ := hcallee
      have htarget : Alike r (.on .call (.target (.plain f.routine)))
          (.on .call (.target (.plain g.routine))) := by
        rw [hframe.routine]
        exact alike_on .call (.target (.plain f.routine))
      have hfetch : Alike r (if used = true then .on .push (.mem f.resultCell) else Pure.pure ())
          (if used = true then .on .push (.mem g.resultCell) else Pure.pure ()) := by
        rw [hframe.resultCell_eq]
        cases used with
        | true => exact alike_on .push (.mem f.resultCell)
        | false => exact alike_pure trivial
      by_cases hc : f.arity = count
      · simp only [call, hf, hf', hframe.arity_eq, hc, ne_eq, not_true_eq_false, if_false]
        refine hargs.then (htarget.then ?_)
        split
        · exact hfetch
        · exact (alike_on .addsp (.imm count)).then hfetch
      · simp only [call, hf, hf', hframe.arity_eq, ne_eq, hc, not_false_eq_true,
          if_true, henv.routine]
        exact alike_reject (.arityMismatch func f.arity count env.routine line line')

mutual

theorem alike_expr (henv : env.Alike r env') (e : Expr) :
    Alike r (expr env line e) (expr env' line' (e.rename r)) := by
  match e with
  | .literal v => exact alike_literal v
  | .name n => exact (alike_locate henv n).bindMap fun loc => alike_on .push (.mem loc)
  | .binary op left right =>
    exact (alike_expr henv left).then ((alike_expr henv right).then (alike_bare _))
  | .unary op e => exact (alike_expr henv e).then (alike_bare _)
  | .call func args =>
    simp only [Expr.rename, expr, Expr.length_renameAll]
    exact alike_call henv (alike_exprs henv args)
  | .unsupported construct => exact alike_unsupported henv construct

theorem alike_exprs (henv : env.Alike r env') (es : List Expr) :
    Alike r (exprs env line es) (exprs env' line' (Expr.renameAll r es)) := by
  match es with
  | [] => exact alike_pure trivial
  | e :: rest => exact (alike_expr henv e).then (alike_exprs henv rest)

end

theorem alike_discard (henv : env.Alike r env') (e : Expr) :
    Alike r (discard env line e) (discard env' line' (e.rename r)) := by
  cases e with
  | call func args =>
    simp only [Expr.rename, discard, Expr.length_renameAll]
    exact alike_call henv (alike_exprs henv args)
  | _ => exact (alike_expr henv _).then (alike_on .addsp (.imm 1))

theorem alike_assign (henv : env.Alike r env') (value : Expr) (targets : List Expr) :
    Alike r (assign env line value targets)
      (assign env' line' (value.rename r) (targets.map (·.rename r))) := by
  match targets with
  | [t] =>
    exact (alike_target henv t).bindMap fun loc =>
      (alike_expr henv value).then (alike_on .pop (.mem loc))
  | [] | _ :: _ :: _ => exact alike_unsupported henv _

theorem alike_update (henv : env.Alike r env') (t : Expr) (op : BinaryOp) (value : Expr) :
    Alike r (update env line t op value) (update env' line' (t.rename r) op (value.rename r)) :=
  (alike_target henv t).bindMap fun loc => (alike_on .push (.mem loc)).then
    ((alike_expr henv value).then ((alike_bare _).then (alike_on .pop (.mem loc))))

theorem alike_ret (henv : env.Alike r env') (value : Option Expr) :
    Alike r (ret env line value) (ret env' line' (value.map (·.rename r))) := by
  rw [ret, ret, henv.result]
  cases env.result with
  | none => exact alike_unsupported henv _
  | some x =>
    have hleave : Alike r (do Emit.on .pop (.mem x.1); .on .br (.target x.2))
        (do Emit.on .pop (.mem (x.1.rename r)); .on .br (.target (x.2.rename r))) :=
      (alike_on .pop (.mem x.1)).then (alike_on .br (.target x.2))
    cases value with
    | some e => exact (alike_expr henv e).then hleave
    | none => exact (alike_on .push (.imm 0)).then hleave

variable {test test' body body' orelse orelse' : Emit Unit}

theorem alike_ifThen (ht : Alike r test test') (hb : Alike r body body') :
    Alike r (ifThen test body) (ifThen test' body') :=
  ht.then ((alike_fresh _).bindMap fun done =>
    (alike_on .brf (.target done)).then (hb.then (alike_mark done)))

theorem alike_ifThenElse (ht : Alike r test test') (hb : Alike r body body')
    (ho : Alike r orelse orelse') :
    Alike r (ifThenElse test body orelse) (ifThenElse test' body' orelse') :=
  ht.then ((alike_fresh _).bindMap fun otherwise => (alike_fresh _).bindMap fun done =>
    (alike_on .brf (.target otherwise)).then (hb.then ((alike_on .br (.target done)).then
      ((alike_mark otherwise).then (ho.then (alike_mark done))))))

theorem alike_whileDo (ht : Alike r test test') (hb : Alike r body body') :
    Alike r (whileDo test body) (whileDo test' body') :=
  (alike_fresh _).bindMap fun head => (alike_fresh _).bindMap fun done => (alike_mark head).then
    (ht.then ((alike_on .brf (.target done)).then
      (hb.then ((alike_on .br (.target head)).then (alike_mark done)))))

mutual

theorem alike_stmt (henv : env.Alike r env') (x : Stmt) :
    Alike r (stmt env x) (stmt env' (x.recast r m)) := by
  match x with
  | .assign line targets value => exact alike_assign henv value targets
  | .update line t op value => exact alike_update henv t op value
  | .ifElse line test body orelse =>
    have ht : Alike r (expr env line test) (expr env' (m line) (test.rename r)) :=
      alike_expr henv test
    have hempty : (Stmt.recastAll r m orelse).isEmpty = orelse.isEmpty := by cases orelse <;> rfl
    simp only [Stmt.recast, stmt, hempty]
    split
    · exact alike_ifThen ht (alike_stmts henv body)
    · exact alike_ifThenElse ht (alike_stmts henv body) (alike_stmts henv orelse)
  | .whileLoop line test body => exact alike_whileDo (alike_expr henv test) (alike_stmts henv body)
  | .define line name params body =>
    simp only [Stmt.recast, stmt, unsupported, henv.routine]
    exact alike_reject (.nested name env.routine line (m line))
  | .ret line value => exact alike_ret henv value
  | .eval line value => exact alike_discard henv value
  | .pass line => exact alike_pure trivial
  | .unsupported line construct => exact alike_unsupported henv construct

/-- A body under other names has the same code under these names, or fails in the same way. -/
theorem alike_stmts (henv : env.Alike r env') (xs : List Stmt) :
    Alike r (stmts env xs) (stmts env' (Stmt.recastAll r m xs)) := by
  match xs with
  | [] => exact alike_pure trivial
  | x :: rest => exact (alike_stmt henv x).then (alike_stmts henv rest)

end

end Lowering
end TreeAsm

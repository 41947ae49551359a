import TreeAsm.Proofs.Numbering

/-! Properties of all generated code. What holds of the elementary steps and is kept by the ways to
combine them holds of the code of every body, also where generation stops with a fault. So no
compilation takes a number back, however it ends. -/
namespace TreeAsm

namespace Emit

/-- A property that the elementary steps have and that is kept by sequencing and by the three shapes
with labels. Steps that draw or place a label need not have it on their own. -/
structure Closed (P : (α : Type) → Emit α → Prop) : Prop where
  pure : ∀ {α : Type} (a : α), P α (Pure.pure a)
  reject : ∀ {α : Type} (e : CompileError), P α (Emit.reject e)
  bare : ∀ opcode : Opcode, P Unit (Emit.bare opcode)
  on : ∀ (opcode : Opcode) (operand : Operand), P Unit (Emit.on opcode operand)
  intern : ∀ text : String, P Label (Emit.intern text)
  bind : ∀ {α β : Type} {x : Emit α} {f : α → Emit β}, P α x → (∀ a, P β (f a)) → P β (x >>= f)
  ifThen : ∀ {test body : Emit Unit}, P Unit test → P Unit body → P Unit (Lowering.ifThen test body)
  ifThenElse : ∀ {test body orelse : Emit Unit}, P Unit test → P Unit body → P Unit orelse →
    P Unit (Lowering.ifThenElse test body orelse)
  whileDo : ∀ {test body : Emit Unit}, P Unit test → P Unit body →
    P Unit (Lowering.whileDo test body)

namespace Closed

variable {P : (α : Type) → Emit α → Prop} (h : Closed P) {env : Env} {line : UInt32}
include h

theorem locate (name : String) : P Location (Lowering.locate env line name) := by
  unfold Lowering.locate
  split
  · exact h.pure _
  · exact h.reject _

theorem target (t : Expr) : P Location (Lowering.target env line t) := by
  cases t with
  | name id => exact h.locate id
  | _ => exact h.reject _

theorem literal (v : Literal) : P Unit (Lowering.literal v) := by
  cases v with
  | str s => exact h.bind (h.intern s) fun _ => h.on _ _
  | _ => exact h.on _ _

theorem builtin {func : String} {count : Nat} {args : Emit Unit} {used : Bool}
    (hargs : P Unit args) :
    P Unit (Lowering.builtin env line func count args used) := by
  unfold Lowering.builtin
  split
  · exact h.bind hargs fun _ => h.bare _
  · split
    · refine h.bind (h.bare _) fun _ => ?_
      split
      · exact h.pure _
      · exact h.on _ _
    · split
      · exact h.reject _
      · exact h.reject _

theorem call {func : String} {count : Nat} {args : Emit Unit} {used : Bool} (hargs : P Unit args) :
    P Unit (Lowering.call env line func count args used) := by
  unfold Lowering.call
  split
  · exact h.builtin hargs
  next f hf =>
    have hfetch : P Unit (if used = true then .on .push (.mem f.resultCell) else Pure.pure ()) := by
      split
      · exact h.on _ _
      · exact h.pure _
    split
    · exact h.reject _
    · refine h.bind hargs fun _ => h.bind (h.on _ _) fun _ => ?_
      by_cases hcount : count = 0
      · simpa only [hcount, if_true] using hfetch
      · simpa only [hcount, if_false] using h.bind (h.on _ _) fun _ => hfetch

mutual

theorem expr (e : Expr) : P Unit (Lowering.expr env line e) := by
  match e with
  | .literal v => exact h.literal v
  | .name id => exact h.bind (h.locate id) fun _ => h.on _ _
  | .binary op left right => exact h.bind (expr left) fun _ => h.bind (expr right) fun _ => h.bare _
  | .unary op operand => exact h.bind (expr operand) fun _ => h.bare _
  | .call func args => exact h.call (exprs args)
  | .unsupported construct => exact h.reject _

theorem exprs (es : List Expr) : P Unit (Lowering.exprs env line es) := by
  match es with
  | [] => exact h.pure _
  | e :: r => exact h.bind (expr e) fun _ => exprs r

end

theorem discard (e : Expr) : P Unit (Lowering.discard env line e) := by
  cases e with
  | call func args => exact h.call (h.exprs args)
  | _ => exact h.bind (h.expr _) fun _ => h.on _ _

theorem assign (value : Expr) (targets : List Expr) :
    P Unit (Lowering.assign env line value targets) := by
  unfold Lowering.assign
  split
  · exact h.bind (h.target _) fun _ => h.bind (h.expr value) fun _ => h.on _ _
  · exact h.reject _

theorem update (t : Expr) (op : BinaryOp) (value : Expr) :
    P Unit (Lowering.update env line t op value) :=
  h.bind (h.target t) fun _ => h.bind (h.on _ _) fun _ => h.bind (h.expr value) fun _ =>
    h.bind (h.bare _) fun _ => h.on _ _

theorem ret (value : Option Expr) : P Unit (Lowering.ret env line value) := by
  unfold Lowering.ret
  split
  · exact h.reject _
  · have hleave : ∀ cell exit, P Unit (do Emit.on .pop (.mem cell); .on .br (.target exit)) := by
      intro cell exit
      exact h.bind (h.on _ _) fun _ => h.on _ _
    cases value with
    | some e => exact h.bind (h.expr e) fun _ => hleave _ _
    | none => exact h.bind (h.on _ _) fun _ => hleave _ _

mutual

theorem stmt (x : Stmt) : P Unit (Lowering.stmt env x) := by
  match x with
  | .assign line targets value => exact h.assign value targets
  | .update line t op value => exact h.update t op value
  | .ifElse line test body orelse =>
    rw [Lowering.stmt]
    split
    · exact h.ifThen (h.expr test) (stmts body)
    · exact h.ifThenElse (h.expr test) (stmts body) (stmts orelse)
  | .whileLoop line test body => exact h.whileDo (h.expr test) (stmts body)
  | .define line name params body => exact h.reject _
  | .ret line value => exact h.ret value
  | .eval line value => exact h.discard value
  | .pass line => exact h.pure _
  | .unsupported line construct => exact h.reject _

/-- The code of a body has the property, whether it is generated to its end or not. -/
theorem stmts (xs : List Stmt) : P Unit (Lowering.stmts env xs) := by
  match xs with
  | [] => exact h.pure _
  | x :: r => exact h.bind (stmt x) fun _ => stmts r

end

end Closed

/-- The step takes no number back, also if it fails. -/
def Advances (α : Type) (x : Emit α) : Prop := ∀ s, s.next ≤ (x s).supply.next

theorem advances_item (i : Item) : Advances Unit (item i) := fun s => Nat.le_refl s.next

theorem advances_ofSupply {draw : Supply → Option (Label × Supply)}
    (h : ∀ s l s', draw s = some (l, s') → s.next ≤ s'.next) : Advances Label (ofSupply draw) := by
  intro s
  unfold ofSupply
  split
  next => exact Nat.le_refl _
  next l s' hd => exact h s l s' hd

theorem advances_fresh (stem : String) : Advances Label (fresh stem) := by
  refine advances_ofSupply fun s l s' h => ?_
  obtain ⟨-, -, rfl⟩ := Supply.fresh?_eq_some_iff.1 h
  exact Nat.le_succ _

theorem advances_intern (text : String) : Advances Label (intern text) := by
  refine advances_ofSupply fun s l s' h => ?_
  rcases Supply.intern?_cases h with ⟨n, -, -, rfl⟩ | ⟨-, -, rfl⟩
  · exact Nat.le_refl _
  · exact Nat.le_succ _

theorem Advances.bind {α β : Type} {x : Emit α} {f : α → Emit β} (hx : Advances α x)
    (hf : ∀ a, Advances β (f a)) : Advances β (x >>= f) := by
  intro s
  have hfirst := hx s
  cases hr : (x s).result with
  | error e => rwa [bind_apply_of_error hr]
  | ok a =>
    rw [bind_apply_of_ok hr]
    exact Nat.le_trans hfirst (hf a _)

theorem closed_advances : Closed Advances where
  pure _ s := Nat.le_refl s.next
  reject _ s := Nat.le_refl s.next
  bare _ := advances_item _
  on _ _ := advances_item _
  intern := advances_intern
  bind := Advances.bind
  ifThen ht hb := ht.bind fun _ => (advances_fresh _).bind fun _ => (advances_item _).bind fun _ =>
    hb.bind fun _ => advances_item _
  ifThenElse ht hb ho :=
    ht.bind fun _ => (advances_fresh _).bind fun _ => (advances_fresh _).bind fun _ =>
    (advances_item _).bind fun _ => hb.bind fun _ => (advances_item _).bind fun _ =>
      (advances_item _).bind fun _ =>
      ho.bind fun _ => advances_item _
  whileDo ht hb := (advances_fresh _).bind fun _ => (advances_fresh _).bind fun _ =>
    (advances_item _).bind fun _ =>
    ht.bind fun _ => (advances_item _).bind fun _ => hb.bind fun _ =>
      (advances_item _).bind fun _ => advances_item _

end Emit

theorem Layout.le_next_routineBlocks (l : Layout) (pairs : List (Routine × Frame)) (s : Supply) :
    s.next ≤ (l.routineBlocks pairs s).2.next := by
  induction pairs generalizing s with
  | nil => exact Nat.le_refl _
  | cons x rest ih =>
    obtain ⟨r, f⟩ := x
    have hbody : s.next ≤ ((l.routineBody f r).run s).2.next := Emit.closed_advances.stmts r.body s
    rw [routineBlocks]
    split
    next e s' hrun => rwa [hrun] at hbody
    next code s' hrun =>
      rw [hrun] at hbody
      exact Nat.le_trans hbody (ih s')

/-- A compilation takes no number back, however it ends. -/
theorem Script.seed_le_next (s : Script) (source : String) (seed : Nat) :
    seed ≤ (s.compileFrom source seed).next := by
  unfold compileFrom
  split
  next => exact Nat.le_refl _
  next l hl =>
    have htop : seed ≤ ((l.topBody s).run (.start seed)).2.next :=
      Emit.closed_advances.stmts s.topLevel (.start seed)
    split
    next e supply hrun => rwa [hrun] at htop
    next code supply hrun =>
      rw [hrun] at htop
      exact Nat.le_trans htop (l.le_next_routineBlocks _ supply)

end TreeAsm

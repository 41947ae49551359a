import TreeAsm.Proofs.Accounting
import TreeAsm.Proofs.Linkage
import TreeAsm.Proofs.TreeText

/-! What the instructions of a compiled program hold: labels made of identifiers or drawn for one of
the stems, operands that fit the opcode, and comments of one line. All of it can be read off the
text of the instruction. -/
namespace TreeAsm

/-- The label is made of identifiers, or of one of the stems and a number. -/
def Label.Legible : Label → Prop
  | .generated stem _ => stem ∈ stems
  | l => l.Proper

theorem Label.Legible.proper {l : Label} (h : l.Legible) : l.Proper := by
  have hstems : ∀ stem ∈ stems, isIdentifier stem = true := by decide
  cases l with
  | generated stem n => exact hstems stem h
  | _ => exact h

def Location.label : Location → Label
  | .static l => l
  | .frame symbol _ => symbol

/-- What an opcode can have as its operand in a compiled program. The reals come from the script. -/
def Operand.Legible (reals : List Binary64) (opcode : Opcode) : Operand → Prop
  | .imm _ => opcode ∈ [.push, .addsp, .enter]
  | .real x => opcode = .push ∧ x ∈ reals
  | .addr l => opcode = .push ∧ l.Legible
  | .mem loc => opcode ∈ [.push, .pop] ∧ loc.label.Legible
  | .arg _ => opcode = .push
  | .target l => opcode ∈ [.br, .brf, .call] ∧ l.Legible
  | .raw text =>
    opcode ∈ [.word, .real, .address, .equate] ∧ (text = "0.0" ∨ ∃ n : ℕ, text = toString n) ∨
      opcode = .ascii ∧ ∃ s, text = String.ofList (ByteString.encode s)

/-- The comment is not empty, stands on one line and does not end with a blank. -/
def isRemark (c : String) : Bool :=
  '\n' ∉ c.toList && c.toList.getLast?.any fun d => !Text.isBlank d

structure Instruction.Legible (reals : List Binary64) (i : Instruction) : Prop where
  label : ∀ l ∈ i.label, l.Legible
  operand : ∀ o ∈ i.operand, o.Legible reals i.opcode
  comment : ∀ c ∈ i.comment, i.opcode ≠ .ascii ∧ isRemark c = true

def Item.Legible (reals : List Binary64) : Item → Prop
  | .mark l => l.Legible
  | .op i => i.Legible reals

namespace Instruction

variable {reals : List Binary64}

theorem legible_bare (opcode : Opcode) : (bare opcode).Legible reals :=
  ⟨by simp [bare], by simp [bare], by simp [bare]⟩

theorem legible_on {opcode : Opcode} {o : Operand} (h : o.Legible reals opcode) :
    (on opcode o).Legible reals :=
  ⟨by simp [on], by simpa [on] using h, by simp [on]⟩

theorem Legible.labelled {i : Instruction} (h : i.Legible reals) {l : Label} (hl : l.Legible) :
    (i.labelled l).Legible reals :=
  ⟨by simpa [Instruction.labelled] using hl, h.operand, h.comment⟩

theorem Legible.commented {i : Instruction} (h : i.Legible reals) {c : String}
    (hc : isRemark c = true) (ho : decide (i.opcode = .ascii) = false) :
    (i.commented c).Legible reals :=
  ⟨h.label, h.operand, by simpa [Instruction.commented] using ⟨of_decide_eq_false ho, hc⟩⟩

end Instruction

namespace Emit

variable {α β : Type} {P : Item → Prop}

/-- All code that is written has the one property, also in front of a fault, and the value has the
other. -/
def Keeps (P : Item → Prop) (Q : α → Prop) (x : Emit α) : Prop :=
  ∀ s, (∀ i ∈ (x s).items, P i) ∧ ∀ a, (x s).result = .ok a → Q a

theorem keeps_pure {Q : α → Prop} {a : α} (h : Q a) : (Pure.pure a : Emit α).Keeps P Q := by
  intro s
  simpa using h

theorem keeps_reject {Q : α → Prop} (e : CompileError) : (reject e : Emit α).Keeps P Q := by
  intro s
  simp [reject, fault]

theorem keeps_item {i : Item} (h : P i) : (item i).Keeps P fun _ => True := by
  intro s
  simpa [item] using h

theorem Keeps.bind {Q : α → Prop} {R : β → Prop} {x : Emit α} {f : α → Emit β} (hx : x.Keeps P Q)
    (hf : ∀ a, Q a → (f a).Keeps P R) : (x >>= f).Keeps P R := by
  intro s
  obtain ⟨hitems, hvalue⟩ := hx s
  cases h : (x s).result with
  | error e => simpa [bind_apply_of_error h] using hitems
  | ok a =>
    obtain ⟨hnext, hresult⟩ := hf a (hvalue a h) (x s).supply
    rw [bind_apply_of_ok h]
    exact ⟨by simpa [or_imp, forall_and] using ⟨hitems, hnext⟩, hresult⟩

theorem keeps_fresh (stem : String) : (fresh stem).Keeps P fun l => ∃ n, l = .generated stem n := by
  intro s
  unfold fresh ofSupply
  split
  next => simp
  next l s' h =>
    have hl := (Supply.fresh?_eq_some_iff.1 h).2.1
    simpa using ⟨_, hl⟩

theorem keeps_intern (text : String) :
    (intern text).Keeps P fun l => ∃ n, l = StringPool.labelOf n := by
  intro s
  unfold intern ofSupply
  split
  next => simp
  next l s' h =>
    have hl : ∃ n, l = StringPool.labelOf n := by
      rcases Supply.intern?_cases h with ⟨n, -, rfl, -⟩ | ⟨-, rfl, -⟩ <;> exact ⟨_, rfl⟩
    simpa using hl

theorem Keeps.of_yields {Q : α → Prop} {x : Emit α} (h : x.Keeps P Q) {s s' : Supply} {a : α}
    {items : List Item} (hx : x.Yields s a items s') : ∀ i ∈ items, P i := by
  have hitems := (h s).1
  rwa [show x s = _ from hx] at hitems

end Emit

/-- The names of an environment stand for memory and routines with legible labels. -/
structure Env.Legible (env : Env) : Prop where
  resolve : ∀ {name loc}, env.resolve name = some loc → loc.label.Legible
  callee : ∀ {name f}, env.callee name = some f → isIdentifier f.routine = true
  result : ∀ {cell exit}, env.result = some (cell, exit) → cell.label.Legible ∧ exit.Legible

namespace Lowering
open Emit

variable {env : Env} {line : UInt32} {reals : List Binary64}

/-- Only legible code is written. -/
abbrev Keeps (reals : List Binary64) (x : Emit Unit) : Prop :=
  x.Keeps (Item.Legible reals) fun _ => True

theorem keeps_bare (opcode : Opcode) : Keeps reals (.bare opcode) :=
  keeps_item (Instruction.legible_bare opcode)

theorem keeps_on {opcode : Opcode} {o : Operand} (h : o.Legible reals opcode) :
    Keeps reals (.on opcode o) :=
  keeps_item (Instruction.legible_on h)

theorem keeps_mark {l : Label} (h : l.Legible) : Keeps reals (.mark l) :=
  keeps_item (i := .mark l) h

theorem keeps_locate (henv : env.Legible) (name : String) :
    (locate env line name).Keeps (Item.Legible reals) (·.label.Legible) := by
  unfold locate
  split
  next loc hloc => exact keeps_pure (henv.resolve hloc)
  next => exact keeps_reject _

theorem keeps_target (henv : env.Legible) (t : Expr) :
    (target env line t).Keeps (Item.Legible reals) (·.label.Legible) := by
  cases t with
  | name n => exact keeps_locate henv n
  | _ => exact keeps_reject _

theorem keeps_literal {v : Literal} (h : ∀ x ∈ v.reals, x ∈ reals) : Keeps reals (literal v) := by
  cases v with
  | int n => exact keeps_on (o := .imm _) (by simp [Operand.Legible])
  | bool b => exact keeps_on (o := .imm _) (by simp [Operand.Legible])
  | real x => exact keeps_on (o := .real x) ⟨rfl, h x List.mem_cons_self⟩
  | str s =>
    refine (keeps_intern s).bind fun l hl => keeps_on (o := .addr l) ⟨rfl, ?_⟩
    obtain ⟨n, rfl⟩ := hl
    exact List.mem_cons_self

theorem keeps_push {loc : Location} (h : loc.label.Legible) : Keeps reals (.on .push (.mem loc)) :=
  keeps_on (o := .mem loc) ⟨by simp, h⟩

theorem keeps_pop {loc : Location} (h : loc.label.Legible) : Keeps reals (.on .pop (.mem loc)) :=
  keeps_on (o := .mem loc) ⟨by simp, h⟩

theorem keeps_addsp (n : ℤ) : Keeps reals (.on .addsp (.imm n)) :=
  keeps_on (o := .imm n) (by simp [Operand.Legible])

theorem keeps_builtin {func : String} {count : ℕ} {args : Emit Unit} {used : Bool}
    (hargs : Keeps reals args) : Keeps reals (builtin env line func count args used) := by
  unfold builtin
  split
  next => exact hargs.bind fun _ _ => keeps_bare _
  next =>
    split
    next =>
      refine (keeps_bare _).bind fun _ _ => ?_
      split
      · exact keeps_pure trivial
      · exact keeps_addsp 1
    next =>
      split
      · exact keeps_reject _
      · exact keeps_reject _

theorem keeps_call (henv : env.Legible) {func : String} {count : ℕ} {args : Emit Unit} {used : Bool}
    (hargs : Keeps reals args) : Keeps reals (call env line func count args used) := by
  cases hf : env.callee func with
  | none =>
    simp only [call, hf]
    exact keeps_builtin hargs
  | some f =>
    have hname := henv.callee hf
    have hcall : Keeps reals (.on .call (.target (.plain f.routine))) :=
      keeps_on (o := .target _) ⟨by simp, hname⟩
    have hfetch : Keeps reals
        (if used = true then .on .push (.mem f.resultCell) else Pure.pure ()) := by
      split
      · exact keeps_push hname
      · exact keeps_pure trivial
    by_cases hc : f.arity = count
    · simp only [call, hf, hc, ne_eq, not_true_eq_false, if_false]
      refine hargs.bind fun _ _ => hcall.bind fun _ _ => ?_
      split
      · exact hfetch
      · exact (keeps_addsp _).bind fun _ _ => hfetch
    · simp only [call, hf, ne_eq, hc, not_false_eq_true, if_true]
      exact keeps_reject _

mutual

theorem keeps_expr (henv : env.Legible) (e : Expr) (h : ∀ x ∈ e.reals, x ∈ reals) :
    Keeps reals (expr env line e) := by
  match e with
  | .literal v => exact keeps_literal h
  | .name n => exact (keeps_locate henv n).bind fun _ hloc => keeps_push hloc
  | .binary op l r =>
    rw [Expr.reals, List.forall_mem_append] at h
    exact (keeps_expr henv l h.1).bind fun _ _ =>
      (keeps_expr henv r h.2).bind fun _ _ => keeps_bare _
  | .unary op e => exact (keeps_expr henv e h).bind fun _ _ => keeps_bare _
  | .call func args => exact keeps_call henv (keeps_exprs henv args h)
  | .unsupported c => exact keeps_reject _

theorem keeps_exprs (henv : env.Legible) (es : List Expr) (h : ∀ x ∈ Expr.realsAll es, x ∈ reals) :
    Keeps reals (exprs env line es) := by
  match es with
  | [] => exact keeps_pure trivial
  | e :: r =>
    rw [Expr.realsAll, List.forall_mem_append] at h
    exact (keeps_expr henv e h.1).bind fun _ _ => keeps_exprs henv r h.2

end

theorem keeps_discard (henv : env.Legible) {e : Expr} (h : ∀ x ∈ e.reals, x ∈ reals) :
    Keeps reals (discard env line e) := by
  unfold discard
  split
  next func args => exact keeps_call henv (keeps_exprs henv args h)
  next => exact (keeps_expr henv e h).bind fun _ _ => keeps_addsp 1

theorem keeps_assign (henv : env.Legible) {value : Expr} {targets : List Expr}
    (h : ∀ x ∈ value.reals, x ∈ reals) : Keeps reals (assign env line value targets) := by
  unfold assign
  split
  next t =>
    exact (keeps_target henv t).bind fun _ hloc => (keeps_expr henv value h).bind fun _ _ =>
      keeps_pop hloc
  next => exact keeps_reject _

theorem keeps_update (henv : env.Legible) {t value : Expr} {op : BinaryOp}
    (h : ∀ x ∈ value.reals, x ∈ reals) : Keeps reals (update env line t op value) :=
  (keeps_target henv t).bind fun _ hloc => (keeps_push hloc).bind fun _ _ =>
    (keeps_expr henv value h).bind fun _ _ => (keeps_bare _).bind fun _ _ => keeps_pop hloc

theorem keeps_ret (henv : env.Legible) {value : Option Expr}
    (h : ∀ e ∈ value, ∀ x ∈ e.reals, x ∈ reals) : Keeps reals (ret env line value) := by
  unfold ret
  split
  next => exact keeps_reject _
  next cell exit hresult =>
    obtain ⟨hcell, hexit⟩ := henv.result hresult
    have hleave : Keeps reals (do Emit.on .pop (.mem cell); .on .br (.target exit)) :=
      (keeps_pop hcell).bind fun _ _ => keeps_on (o := .target exit) ⟨by simp, hexit⟩
    cases value with
    | some e => exact (keeps_expr henv e (h e rfl)).bind fun _ _ => hleave
    | none => exact (keeps_on (o := .imm 0) (by simp [Operand.Legible])).bind fun _ _ => hleave

/-- A fresh label can be branched to and placed. -/
theorem keeps_withFresh {stem : String} (hs : stem ∈ Label.stems) {f : Label → Emit Unit}
    (hf : ∀ l : Label, l.Legible → Keeps reals (f l)) : Keeps reals (do f (← Emit.fresh stem)) :=
  (keeps_fresh stem).bind fun l hl => by
    obtain ⟨n, rfl⟩ := hl
    exact hf _ hs

theorem keeps_brf {l : Label} (h : l.Legible) : Keeps reals (.on .brf (.target l)) :=
  keeps_on (o := .target l) ⟨by simp, h⟩

theorem keeps_br {l : Label} (h : l.Legible) : Keeps reals (.on .br (.target l)) :=
  keeps_on (o := .target l) ⟨by simp, h⟩

theorem keeps_ifThen {test body : Emit Unit} (ht : Keeps reals test) (hb : Keeps reals body) :
    Keeps reals (ifThen test body) :=
  ht.bind fun _ _ => keeps_withFresh (by decide) fun _ hdone =>
    (keeps_brf hdone).bind fun _ _ => hb.bind fun _ _ => keeps_mark hdone

theorem keeps_ifThenElse {test body orelse : Emit Unit} (ht : Keeps reals test)
    (hb : Keeps reals body) (ho : Keeps reals orelse) : Keeps reals (ifThenElse test body orelse) :=
  ht.bind fun _ _ => keeps_withFresh (by decide) fun _ hother =>
    keeps_withFresh (by decide) fun _ hdone =>
    (keeps_brf hother).bind fun _ _ => hb.bind fun _ _ => (keeps_br hdone).bind fun _ _ =>
      (keeps_mark hother).bind fun _ _ => ho.bind fun _ _ => keeps_mark hdone

theorem keeps_whileDo {test body : Emit Unit} (ht : Keeps reals test) (hb : Keeps reals body) :
    Keeps reals (whileDo test body) :=
  keeps_withFresh (by decide) fun _ hhead => keeps_withFresh (by decide) fun _ hdone =>
    (keeps_mark hhead).bind fun _ _ => ht.bind fun _ _ => (keeps_brf hdone).bind fun _ _ =>
      hb.bind fun _ _ => (keeps_br hhead).bind fun _ _ => keeps_mark hdone

mutual

theorem keeps_stmt (henv : env.Legible) (s : Stmt) (h : ∀ x ∈ s.reals, x ∈ reals) :
    Keeps reals (stmt env s) := by
  match s with
  | .assign line targets value =>
    rw [Stmt.reals, List.forall_mem_append] at h
    exact keeps_assign henv h.2
  | .update line t op value =>
    rw [Stmt.reals, List.forall_mem_append] at h
    exact keeps_update henv h.2
  | .ifElse line test body orelse =>
    rw [Stmt.reals, List.forall_mem_append, List.forall_mem_append] at h
    have ht : Keeps reals (expr env line test) := keeps_expr henv test h.1
    have hb := keeps_stmts henv body h.2.1
    have ho := keeps_stmts henv orelse h.2.2
    rw [stmt]
    split
    · exact keeps_ifThen ht hb
    · exact keeps_ifThenElse ht hb ho
  | .whileLoop line test body =>
    rw [Stmt.reals, List.forall_mem_append] at h
    exact keeps_whileDo (keeps_expr henv test h.1) (keeps_stmts henv body h.2)
  | .define line name params body => exact keeps_reject _
  | .ret line none => exact keeps_ret henv (by simp)
  | .ret line (some e) => exact keeps_ret henv (by simpa [Stmt.reals] using h)
  | .eval line value => exact keeps_discard henv h
  | .pass line => exact keeps_pure trivial
  | .unsupported line construct => exact keeps_reject _

theorem keeps_stmts (henv : env.Legible) (ss : List Stmt) (h : ∀ x ∈ Stmt.realsAll ss, x ∈ reals) :
    Keeps reals (stmts env ss) := by
  match ss with
  | [] => exact keeps_pure trivial
  | s :: r =>
    rw [Stmt.realsAll, List.forall_mem_append] at h
    exact (keeps_stmt henv s h.1).bind fun _ _ => keeps_stmts henv r h.2

end

end Lowering

theorem toNat_of_isAlphanum {c : Char} (h : c.isAlphanum = true) :
    48 ≤ c.toNat ∧ c.toNat ≤ 122 := by
  change (decide (65 ≤ c.val ∧ c.val ≤ 90) || decide (97 ≤ c.val) && decide (c.val ≤ 122) ||
    decide (48 ≤ c.val) && decide (c.val ≤ 57)) = true at h
  simp only [Bool.or_eq_true, Bool.and_eq_true, decide_eq_true_eq, UInt32.le_iff_toNat_le] at h
  change ((65 ≤ c.toNat ∧ c.toNat ≤ 90) ∨ 97 ≤ c.toNat ∧ c.toNat ≤ 122) ∨ 48 ≤ c.toNat ∧
    c.toNat ≤ 57 at h
  omega

theorem isBlank_eq_false_of_isNameChar {c : Char} (h : isNameChar c = true) :
    Text.isBlank c = false := by
  rw [isNameChar, Bool.or_eq_true, Bool.or_eq_true, decide_eq_true_eq, Bool.and_eq_true,
    Bool.not_eq_true'] at h
  rcases h with (h | rfl) | ⟨-, h⟩
  · obtain ⟨hle, hge⟩ := toNat_of_isAlphanum h
    simp only [Text.isBlank, Text.blankRanges, List.any_cons, List.any_nil, Bool.or_false,
      Bool.or_eq_false_iff, Bool.and_eq_false_iff, decide_eq_false_iff_not]
    omega
  · decide
  · exact h

theorem isRemark_append {a b : String} (ha : '\n' ∉ a.toList) (hb : isRemark b = true) :
    isRemark (a ++ b) = true := by
  simp only [isRemark, Bool.and_eq_true, decide_eq_true_eq, Option.any_eq_true] at hb ⊢
  obtain ⟨hline, d, hd, hblank⟩ := hb
  refine ⟨by simpa using ⟨ha, hline⟩, d, ?_, hblank⟩
  rw [String.toList_append, List.getLast?_append, hd, Option.some_or]

theorem isRemark_of_isIdentifier {s : String} (h : isIdentifier s = true) : isRemark s = true := by
  have hall := List.all_eq_true.1 (all_isNameChar_of_isIdentifier h)
  have hne : s.toList ≠ [] := by
    intro he
    simp [isIdentifier, he] at h
  simp only [isRemark, Bool.and_eq_true, decide_eq_true_eq, Option.any_eq_true]
  refine ⟨fun hm => ?_, _, List.getLast?_eq_some_getLast hne, ?_⟩
  · exact absurd (hall _ hm) (by decide)
  · rw [isBlank_eq_false_of_isNameChar (hall _ (List.getLast_mem hne))]
    rfl

theorem not_mem_natText (n : ℕ) : '\n' ∉ natText n := by
  intro h
  have hd := isDigit_of_mem_natText h
  simp at hd

namespace Code

variable {reals : List Binary64}

theorem legible_carriers {ls : List Label} (h : ∀ l ∈ ls, l.Legible) :
    ∀ i ∈ ls.map Instruction.carrier, i.Legible reals := by
  intro i hi
  obtain ⟨l, hl, rfl⟩ := List.mem_map.1 hi
  exact (Instruction.legible_bare _).labelled (h l hl)

theorem legible_attach {pending : List Label} {i : Instruction} (hp : ∀ l ∈ pending, l.Legible)
    (hi : i.Legible reals) : ∀ j ∈ attach pending i, j.Legible reals := by
  unfold attach
  split
  next => simpa using hi
  next l hl =>
    rw [List.forall_mem_append, List.forall_mem_singleton]
    refine ⟨legible_carriers fun m hm => ?_, hi.labelled (hp l (List.mem_of_getLast? hl))⟩
    exact hp m (List.mem_of_mem_dropLast hm)

theorem legible_settleFrom {pending : List Label} {items : List Item}
    (hp : ∀ l ∈ pending, l.Legible) (h : ∀ x ∈ items, x.Legible reals) :
    ∀ i ∈ settleFrom pending items, i.Legible reals := by
  induction items generalizing pending with
  | nil => exact legible_carriers hp
  | cons x r ih =>
    rw [List.forall_mem_cons] at h
    cases x with
    | mark l => exact ih (List.forall_mem_append.2 ⟨hp, List.forall_mem_singleton.2 h.1⟩) h.2
    | op i => exact List.forall_mem_append.2 ⟨legible_attach hp h.1, ih (by simp) h.2⟩

theorem legible_withLabel {l : Label} (hl : l.Legible) {code : List Instruction}
    (h : ∀ i ∈ code, i.Legible reals) : ∀ i ∈ withLabel l code, i.Legible reals := by
  have hcarrier : (Instruction.carrier l).Legible reals := (Instruction.legible_bare _).labelled hl
  cases code with
  | nil => simpa [withLabel] using hcarrier
  | cons i r =>
    rw [List.forall_mem_cons] at h
    rw [withLabel]
    split
    · exact List.forall_mem_cons.2 ⟨h.1.labelled hl, h.2⟩
    · exact List.forall_mem_cons.2 ⟨hcarrier, List.forall_mem_cons.2 h⟩

end Code

namespace Frame

variable {f : Frame} {reals : List Binary64} (h : ∀ l ∈ f.ownLabels, l.Legible)
include h

theorem legible_reservation : ∀ i ∈ f.reservation, i.Legible reals := by
  have hword : Operand.Legible reals .word (.raw "0") := .inl ⟨by simp, .inr ⟨0, rfl⟩⟩
  refine List.forall_mem_cons.2 ⟨?_, fun i hi => ?_⟩
  · exact ((Instruction.legible_on hword).labelled (h _ (by simp [ownLabels]))).commented
      (by decide) rfl
  · obtain ⟨⟨v, k⟩, hv, rfl⟩ := List.mem_map.1 hi
    have hname : v.name ∈ f.locals.names := List.mem_map_of_mem (List.fst_mem_of_mem_zipIdx hv)
    have hequate : Operand.Legible reals .equate (.raw (toString k)) :=
      .inl ⟨by simp, .inr ⟨k, rfl⟩⟩
    have hremark : isRemark (v.role.word ++ " " ++ v.kind.word) = true := by
      cases v.role <;> cases v.kind <;> decide
    exact ((Instruction.legible_on hequate).labelled (h _ (by simp [ownLabels, hname]))).commented
      hremark rfl

theorem legible_prologue : ∀ i ∈ f.prologue, i.Legible reals := by
  refine List.forall_mem_cons.2 ⟨?_, fun i hi => ?_⟩
  · have henter : Operand.Legible reals .enter (.imm f.size) := by simp [Operand.Legible]
    have hremark : isRemark (toString f.size ++ " slot(s)") = true :=
      isRemark_append (by rw [toList_toString_nat]; exact not_mem_natText _) (by decide)
    exact ((Instruction.legible_on henter).labelled (h _ (by simp [ownLabels]))).commented hremark
      rfl
  · obtain ⟨⟨name, k⟩, -, hi⟩ := List.mem_flatMap.1 hi
    cases hr : f.resolve? name with
    | none => simp [bindParam, hr] at hi
    | some loc =>
      obtain ⟨j, hj, rfl⟩ := resolve?_eq_some hr
      have hname : name ∈ f.locals.names := List.mem_of_getElem? (slot?_eq_some_iff.1 hj)
      have hslot : (Label.slot f.routine name).Legible := h _ (by simp [ownLabels, hname])
      have hpop : Operand.Legible reals .pop (.mem (.frame (.slot f.routine name) j)) :=
        ⟨by simp, hslot⟩
      simp only [bindParam, hr, List.mem_cons, List.not_mem_nil, or_false] at hi
      rcases hi with rfl | rfl
      · exact Instruction.legible_on (o := .arg k) rfl
      · have hremark : isRemark ("bind " ++ name) = true :=
          isRemark_append (by decide) (isRemark_of_isIdentifier hslot.2)
        exact (Instruction.legible_on hpop).commented hremark rfl

theorem legible_block {code : List Instruction} (hcode : ∀ i ∈ code, i.Legible reals) :
    ∀ i ∈ (f.block code).code, i.Legible reals := by
  have hepilogue : ∀ i ∈ f.epilogue, i.Legible reals := by
    refine List.forall_mem_cons.2 ⟨?_, List.forall_mem_singleton.2 (Instruction.legible_bare _)⟩
    exact (Instruction.legible_bare _).labelled (h _ (by simp [ownLabels, exitLabel]))
  simp only [block, List.forall_mem_append]
  exact ⟨⟨⟨legible_reservation h, legible_prologue h⟩, hcode⟩, hepilogue⟩

end Frame

namespace Script

theorem mem_realsAll {ss : List Stmt} {x : Binary64} :
    x ∈ Stmt.realsAll ss ↔ ∃ t ∈ ss, x ∈ t.reals := by
  induction ss with
  | nil => simp [Stmt.realsAll]
  | cons t r ih => simp [Stmt.realsAll, ih]

theorem realsAll_topLevel (s : Script) : ∀ x ∈ Stmt.realsAll s.topLevel, x ∈ s.reals := by
  intro x hx
  obtain ⟨t, ht, hx⟩ := mem_realsAll.1 hx
  exact mem_realsAll.2 ⟨t, (List.mem_filter.1 ht).1, hx⟩

theorem realsAll_routine (s : Script) {r : Routine} (hr : r ∈ s.routines) :
    ∀ x ∈ Stmt.realsAll r.body, x ∈ s.reals := by
  intro x hx
  obtain ⟨t, ht, hroutine⟩ := List.mem_filterMap.1 hr
  refine mem_realsAll.2 ⟨t, ht, ?_⟩
  cases t with
  | define line name params body =>
    obtain rfl := Option.some.inj hroutine
    exact hx
  | _ => simp [Stmt.routine?] at hroutine

end Script

namespace Build

variable {s : Script} {source : String} {seed : ℕ} {p : Program} (b : Build s source seed p)
  (hn : s.Named)
include b hn

theorem legible_of_mem_namedLabels : ∀ l ∈ b.namedLabels, l.Legible := by
  intro l hl
  have hproper := b.proper_of_mem_namedLabels hn l hl
  cases l with
  | generated stem n => simp [namedLabels, Frame.ownLabels] at hl
  | _ => exact hproper

theorem legible_of_mem_ownLabels {f : Frame} (hf : f ∈ b.layout.frames) :
    ∀ l ∈ f.ownLabels, l.Legible :=
  fun l hl => b.legible_of_mem_namedLabels hn l
    (List.mem_append_right _ (List.mem_cons_of_mem _ (List.mem_flatMap.2 ⟨f, hf, hl⟩)))

theorem legible_global {g : String} (hg : g ∈ b.layout.globals.names) : (Label.plain g).Legible :=
  b.legible_of_mem_namedLabels hn _ (List.mem_append_left _ (List.mem_map_of_mem hg))

theorem legible_topEnv : b.layout.topEnv.Legible where
  resolve h := by
    obtain ⟨hg, rfl⟩ := Layout.mem_globals_of_staticCell? h
    exact b.legible_global hn hg
  callee h := b.legible_of_mem_ownLabels hn (Frame.mem_of_lookup h).1 (.plain _)
    (by simp [Frame.ownLabels])
  result h := by simp [Layout.topEnv] at h

theorem legible_routineEnv {f : Frame} (hf : f ∈ b.layout.frames) :
    (b.layout.routineEnv f).Legible where
  resolve h := by
    rcases Option.or_eq_some_iff.1 h with h | ⟨-, h⟩
    · obtain ⟨k, hk, rfl⟩ := Frame.resolve?_eq_some h
      have hname := List.mem_of_getElem? (Frame.slot?_eq_some_iff.1 hk)
      exact b.legible_of_mem_ownLabels hn hf (.slot f.routine _) (by simp [Frame.ownLabels, hname])
    · obtain ⟨hg, rfl⟩ := Layout.mem_globals_of_staticCell? h
      exact b.legible_global hn hg
  callee h := b.legible_of_mem_ownLabels hn (Frame.mem_of_lookup h).1 (.plain _)
    (by simp [Frame.ownLabels])
  result h := by
    obtain ⟨rfl, rfl⟩ := Prod.mk.inj (Option.some.inj h)
    have hown := b.legible_of_mem_ownLabels hn hf
    exact ⟨hown (.result f.routine) (by simp [Frame.ownLabels]),
      hown (.exit f.routine) (by simp [Frame.ownLabels])⟩

theorem legible_data : ∀ i ∈ p.data.code, i.Legible s.reals := by
  rw [b.data_eq]
  intro i hi
  obtain ⟨v, hv, rfl⟩ := List.mem_map.1 hi
  have hglobal := b.legible_global hn (List.mem_map_of_mem hv)
  have hraw : Operand.Legible s.reals v.kind.zero.1 (.raw v.kind.zero.2) := by
    cases v.kind with
    | real => exact .inl ⟨by simp [VarKind.zero], .inl rfl⟩
    | _ => exact .inl ⟨by simp [VarKind.zero], .inr ⟨0, rfl⟩⟩
  have hremark : isRemark ("global " ++ v.kind.word) = true := by cases v.kind <;> decide
  refine ((Instruction.legible_on hraw).labelled hglobal).commented hremark ?_
  simp only [Instruction.labelled, Instruction.on]
  cases v.kind <;> rfl

omit hn in
theorem legible_strings : ∀ i ∈ p.strings.toList.flatMap Block.code, i.Legible s.reals := by
  rw [b.strings_eq, Script.flatMap_stringBlock]
  intro i hi
  obtain ⟨e, -, rfl⟩ := List.mem_map.1 hi
  have hraw : Operand.Legible s.reals .ascii (.raw (String.ofList (ByteString.encode e.1))) :=
    .inr ⟨rfl, e.1, rfl⟩
  exact (Instruction.legible_on hraw).labelled (l := StringPool.labelOf e.2) List.mem_cons_self

theorem legible_topLevel : ∀ i ∈ p.topLevel.code, i.Legible s.reals := by
  have hitems : ∀ x ∈ b.top, x.Legible s.reals :=
    (Lowering.keeps_stmts (b.legible_topEnv hn) _ s.realsAll_topLevel).of_yields b.top_yields
  have hentry : (Label.plain Label.entry).Legible := show isIdentifier Label.entry = true by decide
  rw [b.topLevel_eq]
  refine Code.legible_withLabel hentry (List.forall_mem_append.2 ⟨?_, ?_⟩)
  · exact Code.legible_settleFrom (by simp) hitems
  · exact List.forall_mem_singleton.2 (Instruction.legible_bare _)

theorem legible_routines : ∀ c ∈ p.routines, ∀ i ∈ c.code, i.Legible s.reals := by
  rw [b.blocks_eq]
  intro c hc
  obtain ⟨x, hx, rfl⟩ := List.mem_map.1 hc
  have hf : x.2.1 ∈ b.layout.frames := b.frames_eq ▸ List.mem_map_of_mem hx
  obtain ⟨s₁, s₂, hyields, -⟩ := b.bodies.yields_of_mem hx
  have hreals := s.realsAll_routine (b.routine_eq_of_mem hx).2.1
  have hitems : ∀ y ∈ x.2.2, y.Legible s.reals :=
    (Lowering.keeps_stmts (b.legible_routineEnv hn hf) _ hreals).of_yields hyields
  exact Frame.legible_block (b.legible_of_mem_ownLabels hn hf)
    (Code.legible_settleFrom (by simp) hitems)

/-- Every instruction of a compiled program is legible. -/
theorem legible : ∀ c ∈ p.blocks, ∀ i ∈ c.code, i.Legible s.reals := by
  intro c hc i hi
  simp only [Program.blocks, List.cons_append, List.mem_cons, List.mem_append, List.not_mem_nil,
    or_false] at hc
  rcases hc with rfl | (hc | hc) | rfl
  · exact b.legible_data hn i hi
  · exact b.legible_strings i (List.mem_flatMap.2 ⟨c, hc, hi⟩)
  · exact b.legible_routines hn c hc i hi
  · exact b.legible_topLevel hn i hi

end Build

end TreeAsm

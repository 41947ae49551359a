import Mathlib.Tactic.Tauto
import TreeAsm.Compile

/-! Successful steps of code generation, taken apart: what each kind of expression and statement
draws from the supply and which code it writes. Proofs about generated code start from these
equivalences. -/
namespace TreeAsm

/-- The supply after one number has been drawn. -/
def Supply.advance (s : Supply) : Supply := { s with next := s.next + 1 }

@[simp] theorem Supply.next_advance (s : Supply) : s.advance.next = s.next + 1 := rfl

@[simp] theorem Supply.strings_advance (s : Supply) : s.advance.strings = s.strings := rfl

namespace Emit

variable {α β : Type} {s s' : Supply} {items : List Item}

/-- From `s` the step succeeds with the value `a`, writes `items` and leaves `s'`. -/
def Yields (x : Emit α) (s : Supply) (a : α) (items : List Item) (s' : Supply) : Prop :=
  x s = ⟨items, s', .ok a⟩

@[simp] theorem yields_pure_iff {a b : α} :
    (Pure.pure a : Emit α).Yields s b items s' ↔ b = a ∧ items = [] ∧ s' = s := by
  simp only [Yields, pure_apply, Emission.mk.injEq, Except.ok.injEq]
  constructor
  · rintro ⟨rfl, rfl, rfl⟩
    exact ⟨rfl, rfl, rfl⟩
  · rintro ⟨rfl, rfl, rfl⟩
    exact ⟨rfl, rfl, rfl⟩

theorem yields_bind_iff {x : Emit α} {f : α → Emit β} {b : β} :
    (x >>= f).Yields s b items s' ↔
      ∃ a i₁ s₁ i₂, x.Yields s a i₁ s₁ ∧ (f a).Yields s₁ b i₂ s' ∧ items = i₁ ++ i₂ := by
  unfold Yields
  rcases hx : x s with ⟨i, t, r⟩
  cases r with
  | error e => simp [bind_apply, hx]
  | ok a =>
    rcases hf : f a t with ⟨j, u, q⟩
    simp only [bind_apply, hx, hf, Emission.mk.injEq, Except.ok.injEq]
    constructor
    · rintro ⟨rfl, rfl, rfl⟩
      exact ⟨a, i, t, j, ⟨rfl, rfl, rfl⟩, hf, rfl⟩
    · rintro ⟨_, _, _, _, ⟨rfl, rfl, rfl⟩, h, rfl⟩
      rw [hf] at h
      simp_all

theorem yields_seq_iff {x : Emit Unit} {f : Unit → Emit β} {b : β} :
    (x >>= f).Yields s b items s' ↔
      ∃ i₁ s₁ i₂, x.Yields s () i₁ s₁ ∧ (f ()).Yields s₁ b i₂ s' ∧ items = i₁ ++ i₂ := by
  rw [yields_bind_iff]
  exact ⟨fun ⟨(), h⟩ => h, fun h => ⟨(), h⟩⟩

@[simp] theorem not_yields_reject {e : CompileError} {a : α} :
    ¬ (reject e : Emit α).Yields s a items s' := by
  simp [Yields, reject, fault]

@[simp] theorem yields_item_iff {i : Item} :
    (item i).Yields s () items s' ↔ items = [i] ∧ s' = s := by
  simp only [Yields, item, Emission.mk.injEq, and_true]
  exact and_congr eq_comm eq_comm

@[simp] theorem yields_mark_iff {l : Label} :
    (mark l).Yields s () items s' ↔ items = [.mark l] ∧ s' = s := yields_item_iff

@[simp] theorem yields_bare_iff {o : Opcode} :
    (bare o).Yields s () items s' ↔ items = [.op (.bare o)] ∧ s' = s := yields_item_iff

@[simp] theorem yields_on_iff {o : Opcode} {x : Operand} :
    (on o x).Yields s () items s' ↔ items = [.op (.on o x)] ∧ s' = s := yields_item_iff

theorem yields_ofSupply_iff {draw : Supply → Option (Label × Supply)} {l : Label} :
    (ofSupply draw).Yields s l items s' ↔ draw s = some (l, s') ∧ items = [] := by
  unfold Yields ofSupply
  split
  next h => simp [h]
  next m t h =>
    simp only [h, Emission.mk.injEq, Except.ok.injEq, Option.some.injEq, Prod.mk.injEq]
    constructor
    · rintro ⟨rfl, rfl, rfl⟩
      exact ⟨⟨rfl, rfl⟩, rfl⟩
    · rintro ⟨⟨rfl, rfl⟩, rfl⟩
      exact ⟨rfl, rfl, rfl⟩

@[simp] theorem yields_fresh_iff {stem : String} {l : Label} :
    (fresh stem).Yields s l items s' ↔
      s.next < Label.numberLimit ∧ l = .generated stem s.next ∧ items = [] ∧ s' = s.advance := by
  rw [fresh, yields_ofSupply_iff, Supply.fresh?_eq_some_iff]
  simp only [Supply.advance]
  tauto

theorem yields_item_seq_iff {i : Item} {f : Unit → Emit β} {b : β} :
    (item i >>= f).Yields s b items s' ↔ ∃ r, (f ()).Yields s b r s' ∧ items = i :: r := by
  rw [yields_seq_iff]
  constructor
  · rintro ⟨_, _, r, h, hr, rfl⟩
    obtain ⟨rfl, rfl⟩ := yields_item_iff.1 h
    exact ⟨r, hr, rfl⟩
  · rintro ⟨r, hr, rfl⟩
    exact ⟨[i], s, r, yields_item_iff.2 ⟨rfl, rfl⟩, hr, rfl⟩

@[simp] theorem yields_mark_seq_iff {l : Label} {f : Unit → Emit β} {b : β} :
    (mark l >>= f).Yields s b items s' ↔ ∃ r, (f ()).Yields s b r s' ∧ items = .mark l :: r :=
  yields_item_seq_iff

@[simp] theorem yields_bare_seq_iff {o : Opcode} {f : Unit → Emit β} {b : β} :
    (bare o >>= f).Yields s b items s' ↔ ∃ r, (f ()).Yields s b r s' ∧ items = .op (.bare o) :: r :=
  yields_item_seq_iff

@[simp] theorem yields_on_seq_iff {o : Opcode} {x : Operand} {f : Unit → Emit β} {b : β} :
    (on o x >>= f).Yields s b items s' ↔ ∃ r, (f ()).Yields s b r s' ∧ items = .op (.on o x) :: r :=
  yields_item_seq_iff

@[simp] theorem yields_fresh_bind_iff {stem : String} {f : Label → Emit β} {b : β} :
    (fresh stem >>= f).Yields s b items s' ↔
      s.next < Label.numberLimit ∧ (f (.generated stem s.next)).Yields s.advance b items s' := by
  simp only [yields_bind_iff, yields_fresh_iff]
  constructor
  · rintro ⟨_, _, _, r, ⟨hn, rfl, rfl, rfl⟩, hr, rfl⟩
    exact ⟨hn, hr⟩
  · rintro ⟨hn, hr⟩
    exact ⟨_, [], _, items, ⟨hn, rfl, rfl, rfl⟩, hr, rfl⟩

theorem yields_intern_iff {text : String} {l : Label} :
    (intern text).Yields s l items s' ↔ s.intern? text = some (l, s') ∧ items = [] :=
  yields_ofSupply_iff

end Emit

namespace Lowering
open Emit

variable {env : Env} {line : UInt32} {s s' : Supply} {items : List Item}

/-- A branch around the body. -/
def ifItems (test body : List Item) (number : Nat) : List Item :=
  test ++ .op (.on .brf (.target (.generated "endif" number))) ::
    (body ++ [.mark (.generated "endif" number)])

def ifElseItems (test body orelse : List Item) (number : Nat) : List Item :=
  test ++ .op (.on .brf (.target (.generated "else" number))) ::
    (body ++ .op (.on .br (.target (.generated "endif" (number + 1)))) ::
      .mark (.generated "else" number) :: (orelse ++ [.mark (.generated "endif" (number + 1))]))

def whileItems (test body : List Item) (number : Nat) : List Item :=
  .mark (.generated "while" number) ::
    (test ++ .op (.on .brf (.target (.generated "endwhile" (number + 1)))) ::
      (body ++ [.op (.on .br (.target (.generated "while" number))),
        .mark (.generated "endwhile" (number + 1))]))

/-- What follows the arguments of a call. -/
def callItems (f : Frame) (count : Nat) (used : Bool) : List Item :=
  .op (.on .call (.target (.plain f.routine))) ::
    ((if count = 0 then [] else [.op (.on .addsp (.imm count))]) ++
      (if used then [.op (.on .push (.mem f.resultCell))] else []))

def inputItems (used : Bool) : List Item :=
  .op (.bare .deci) :: (if used then [] else [.op (.on .addsp (.imm 1))])

@[simp] theorem not_yields_unsupported {α : Type} {construct : String} {a : α} :
    ¬ (unsupported env line construct : Emit α).Yields s a items s' := not_yields_reject

@[simp] theorem yields_locate_iff {name : String} {loc : Location} :
    (locate env line name).Yields s loc items s' ↔
      env.resolve name = some loc ∧ items = [] ∧ s' = s := by
  unfold locate
  split
  next m h =>
    simp only [yields_pure_iff, h, Option.some.injEq]
    exact and_congr_left' eq_comm
  next h => simp [h]

@[simp] theorem yields_target_iff {t : Expr} {loc : Location} :
    (target env line t).Yields s loc items s' ↔
      ∃ id, t = .name id ∧ env.resolve id = some loc ∧ items = [] ∧ s' = s := by
  cases t <;> simp [target]

theorem yields_text_iff {text : String} :
    (literal (.str text)).Yields s () items s' ↔
      ∃ l, s.intern? text = some (l, s') ∧ items = [.op (.on .push (.addr l))] := by
  simp only [literal, yields_bind_iff, yields_intern_iff, yields_on_iff]
  constructor
  · rintro ⟨l, i₁, s₁, i₂, ⟨h, rfl⟩, ⟨rfl, rfl⟩, rfl⟩
    exact ⟨l, h, rfl⟩
  · rintro ⟨l, h, rfl⟩
    exact ⟨l, _, s', _, ⟨h, rfl⟩, ⟨rfl, rfl⟩, rfl⟩

theorem yields_builtin_iff {func : String} {count : Nat} {args : Emit Unit} {used : Bool} :
    (builtin env line func count args used).Yields s () items s' ↔
      (func = "print" ∧ count = 1 ∧ used = false ∧
        ∃ a, args.Yields s () a s' ∧ items = a ++ [.op (.bare .deco)]) ∨
      (func = "input" ∧ count = 0 ∧ s' = s ∧ items = inputItems used) := by
  unfold builtin
  split
  next h =>
    obtain ⟨rfl, rfl, rfl⟩ := h
    simp only [yields_seq_iff, yields_bare_iff, String.reduceEq, false_and, or_false, true_and]
    constructor
    · rintro ⟨a, _, _, ha, ⟨rfl, rfl⟩, rfl⟩
      exact ⟨a, ha, rfl⟩
    · rintro ⟨a, ha, rfl⟩
      exact ⟨a, s', _, ha, ⟨rfl, rfl⟩, rfl⟩
  next hp =>
    split
    next h =>
      obtain ⟨rfl, rfl⟩ := h
      cases used <;> simp [yields_seq_iff, inputItems, and_assoc, and_comm]
    next hi => split <;> simp_all

theorem yields_call_iff {func : String} {count : Nat} {args : Emit Unit} {used : Bool} :
    (call env line func count args used).Yields s () items s' ↔
      (∃ f a, env.callee func = some f ∧ f.arity = count ∧ args.Yields s () a s' ∧
        items = a ++ callItems f count used) ∨
      (env.callee func = none ∧ (builtin env line func count args used).Yields s () items s') := by
  unfold call
  split
  next h => simp [h]
  next f h =>
    simp only [h, Option.some.injEq, reduceCtorEq, false_and, or_false]
    by_cases hc : f.arity = count
    · rw [if_neg (not_not.2 hc)]
      rw [yields_seq_iff]
      constructor
      · rintro ⟨a, s₁, i, ha, hi, rfl⟩
        refine ⟨f, a, rfl, hc, ?_⟩
        have hs : s' = s₁ ∧ i = callItems f count used := by
          by_cases h0 : count = 0 <;> cases used <;> simp_all [callItems, and_assoc]
        exact ⟨hs.1 ▸ ha, by rw [hs.2]⟩
      · rintro ⟨_, a, rfl, -, ha, rfl⟩
        refine ⟨a, s', _, ha, ?_, rfl⟩
        by_cases h0 : count = 0 <;> cases used <;> simp [callItems, h0]
    · simp only [ne_eq, hc, not_false_eq_true, if_true, not_yields_reject, false_iff]
      rintro ⟨_, _, rfl, h, -⟩
      exact hc h

@[simp] theorem yields_exprs_nil_iff :
    (exprs env line []).Yields s () items s' ↔ items = [] ∧ s' = s := by
  simp [exprs]

theorem yields_exprs_cons_iff {e : Expr} {r : List Expr} :
    (exprs env line (e :: r)).Yields s () items s' ↔
      ∃ i₁ s₁ i₂, (expr env line e).Yields s () i₁ s₁ ∧ (exprs env line r).Yields s₁ () i₂ s' ∧
        items = i₁ ++ i₂ := by
  rw [exprs, yields_seq_iff]

theorem yields_name_iff {id : String} :
    (expr env line (.name id)).Yields s () items s' ↔
      ∃ loc, env.resolve id = some loc ∧ items = [.op (.on .push (.mem loc))] ∧ s' = s := by
  simp only [expr, yields_bind_iff, yields_locate_iff, yields_on_iff]
  constructor
  · rintro ⟨loc, _, _, _, ⟨h, rfl, rfl⟩, ⟨rfl, rfl⟩, rfl⟩
    exact ⟨loc, h, rfl, rfl⟩
  · rintro ⟨loc, h, rfl, rfl⟩
    exact ⟨loc, _, _, _, ⟨h, rfl, rfl⟩, ⟨rfl, rfl⟩, rfl⟩

theorem yields_binary_iff {op : BinaryOp} {l r : Expr} :
    (expr env line (.binary op l r)).Yields s () items s' ↔
      ∃ i₁ s₁ i₂, (expr env line l).Yields s () i₁ s₁ ∧ (expr env line r).Yields s₁ () i₂ s' ∧
        items = i₁ ++ (i₂ ++ [.op (.bare op.opcode)]) := by
  simp only [expr, yields_seq_iff, yields_bare_iff]
  constructor
  · rintro ⟨i₁, s₁, _, h₁, ⟨i₂, _, _, h₂, ⟨rfl, rfl⟩, rfl⟩, rfl⟩
    exact ⟨i₁, s₁, i₂, h₁, h₂, rfl⟩
  · rintro ⟨i₁, s₁, i₂, h₁, h₂, rfl⟩
    exact ⟨i₁, s₁, _, h₁, ⟨i₂, s', _, h₂, ⟨rfl, rfl⟩, rfl⟩, rfl⟩

theorem yields_unary_iff {op : UnaryOp} {e : Expr} :
    (expr env line (.unary op e)).Yields s () items s' ↔
      ∃ i, (expr env line e).Yields s () i s' ∧ items = i ++ [.op (.bare op.opcode)] := by
  simp only [expr, yields_seq_iff, yields_bare_iff]
  constructor
  · rintro ⟨i, _, _, h, ⟨rfl, rfl⟩, rfl⟩
    exact ⟨i, h, rfl⟩
  · rintro ⟨i, h, rfl⟩
    exact ⟨i, s', _, h, ⟨rfl, rfl⟩, rfl⟩

theorem yields_assign_iff {value : Expr} {targets : List Expr} :
    (assign env line value targets).Yields s () items s' ↔
      ∃ id loc i, targets = [.name id] ∧ env.resolve id = some loc ∧
        (expr env line value).Yields s () i s' ∧ items = i ++ [.op (.on .pop (.mem loc))] := by
  unfold assign
  split
  next t =>
    simp only [yields_bind_iff (α := Location), yields_seq_iff, yields_target_iff, yields_on_iff]
    constructor
    · rintro ⟨loc, _, _, _, ⟨id, rfl, h, rfl, rfl⟩, ⟨i, _, _, hv, ⟨rfl, rfl⟩, rfl⟩, rfl⟩
      exact ⟨id, loc, i, rfl, h, hv, rfl⟩
    · rintro ⟨id, loc, i, ht, h, hv, rfl⟩
      exact ⟨loc, [], s, _, ⟨id, List.singleton_inj.1 ht, h, rfl, rfl⟩,
        ⟨i, s', _, hv, ⟨rfl, rfl⟩, rfl⟩, rfl⟩
  next h =>
    simp only [not_yields_unsupported, false_iff]
    rintro ⟨id, _, _, rfl, -⟩
    exact h _ rfl

theorem yields_update_iff {t : Expr} {op : BinaryOp} {value : Expr} :
    (update env line t op value).Yields s () items s' ↔
      ∃ id loc i, t = .name id ∧ env.resolve id = some loc ∧
        (expr env line value).Yields s () i s' ∧
        items = .op (.on .push (.mem loc)) ::
          (i ++ [.op (.bare op.opcode), .op (.on .pop (.mem loc))]) := by
  simp only [update, yields_bind_iff (α := Location), yields_seq_iff, yields_target_iff,
    yields_on_iff, yields_bare_iff]
  constructor
  · rintro ⟨loc, _, _, _, ⟨id, rfl, h, rfl, rfl⟩, ⟨_, _, _, ⟨rfl, rfl⟩,
      ⟨i, _, _, hv, ⟨_, _, _, ⟨rfl, rfl⟩, ⟨rfl, rfl⟩, rfl⟩, rfl⟩, rfl⟩, rfl⟩
    exact ⟨id, loc, i, rfl, h, hv, rfl⟩
  · rintro ⟨id, loc, i, rfl, h, hv, rfl⟩
    exact ⟨loc, [], s, _, ⟨id, rfl, h, rfl, rfl⟩, ⟨_, s, _, ⟨rfl, rfl⟩,
      ⟨i, s', _, hv, ⟨_, s', _, ⟨rfl, rfl⟩, ⟨rfl, rfl⟩, rfl⟩, rfl⟩, rfl⟩, rfl⟩

/-- The code for what a return gives back. -/
def returned (env : Env) (line : UInt32) : Option Expr → Emit Unit
  | some e => expr env line e
  | none => .on .push (.imm 0)

theorem yields_ret_iff {value : Option Expr} :
    (ret env line value).Yields s () items s' ↔
      ∃ cell exit i, env.result = some (cell, exit) ∧ (returned env line value).Yields s () i s' ∧
        items = i ++ [.op (.on .pop (.mem cell)), .op (.on .br (.target exit))] := by
  unfold ret
  split
  next h => simp [h]
  next cell exit h =>
    simp only [h, Option.some.injEq, Prod.mk.injEq]
    have hr : Yields (do
        returned env line value
        Emit.on .pop (.mem cell)
        Emit.on .br (.target exit)) s () items s' ↔
          ∃ i, (returned env line value).Yields s () i s' ∧
          items = i ++ [.op (.on .pop (.mem cell)), .op (.on .br (.target exit))] := by
      simp only [yields_seq_iff (x := returned env line value), yields_on_seq_iff, yields_on_iff]
      constructor
      · rintro ⟨i, _, _, hi, ⟨_, ⟨rfl, rfl⟩, rfl⟩, rfl⟩
        exact ⟨i, hi, rfl⟩
      · rintro ⟨i, hi, rfl⟩
        exact ⟨i, s', _, hi, ⟨_, ⟨rfl, rfl⟩, rfl⟩, rfl⟩
    constructor
    · intro hy
      obtain ⟨i, hi⟩ := hr.1 (by cases value <;> exact hy)
      exact ⟨cell, exit, i, ⟨rfl, rfl⟩, hi⟩
    · rintro ⟨_, _, i, ⟨rfl, rfl⟩, hi⟩
      have hy := hr.2 ⟨i, hi⟩
      cases value <;> exact hy

theorem yields_ifThen_iff {test body : Emit Unit} :
    (ifThen test body).Yields s () items s' ↔
      ∃ t s₁ b, test.Yields s () t s₁ ∧ s₁.next < Label.numberLimit ∧
        body.Yields s₁.advance () b s' ∧ items = ifItems t b s₁.next := by
  unfold ifThen
  rw [yields_seq_iff]
  simp only [yields_fresh_bind_iff, yields_on_seq_iff, yields_seq_iff (x := body), yields_mark_iff]
  constructor
  · rintro ⟨t, s₁, _, ht, ⟨hn, _, ⟨b, _, _, hb, ⟨rfl, rfl⟩, rfl⟩, rfl⟩, rfl⟩
    exact ⟨t, s₁, b, ht, hn, hb, rfl⟩
  · rintro ⟨t, s₁, b, ht, hn, hb, rfl⟩
    exact ⟨t, s₁, _, ht, ⟨hn, _, ⟨b, s', _, hb, ⟨rfl, rfl⟩, rfl⟩, rfl⟩, rfl⟩

theorem yields_ifThenElse_iff {test body orelse : Emit Unit} :
    (ifThenElse test body orelse).Yields s () items s' ↔
      ∃ t s₁ b s₂ o, test.Yields s () t s₁ ∧ s₁.next + 1 < Label.numberLimit ∧
        body.Yields s₁.advance.advance () b s₂ ∧ orelse.Yields s₂ () o s' ∧
        items = ifElseItems t b o s₁.next := by
  unfold ifThenElse
  rw [yields_seq_iff]
  simp only [yields_fresh_bind_iff, yields_on_seq_iff, yields_mark_seq_iff,
    yields_seq_iff (x := body), yields_seq_iff (x := orelse), yields_mark_iff, Supply.next_advance]
  constructor
  · rintro ⟨t, s₁, _, ht,
      ⟨-, hn, _, ⟨b, s₂, _, hb, ⟨_, ⟨_, ⟨o, _, _, ho, ⟨rfl, rfl⟩, rfl⟩, rfl⟩, rfl⟩, rfl⟩, rfl⟩, rfl⟩
    exact ⟨t, s₁, b, s₂, o, ht, hn, hb, ho, rfl⟩
  · rintro ⟨t, s₁, b, s₂, o, ht, hn, hb, ho, rfl⟩
    exact ⟨t, s₁, _, ht,
      ⟨by omega, hn, _, ⟨b, s₂, _, hb, ⟨_, ⟨_, ⟨o, s', _, ho, ⟨rfl, rfl⟩, rfl⟩, rfl⟩, rfl⟩, rfl⟩,
        rfl⟩, rfl⟩

theorem yields_whileDo_iff {test body : Emit Unit} :
    (whileDo test body).Yields s () items s' ↔
      ∃ t s₁ b, s.next + 1 < Label.numberLimit ∧ test.Yields s.advance.advance () t s₁ ∧
        body.Yields s₁ () b s' ∧ items = whileItems t b s.next := by
  unfold whileDo
  simp only [yields_fresh_bind_iff, yields_on_seq_iff, yields_mark_seq_iff,
    yields_seq_iff (x := body), yields_seq_iff (x := test), yields_mark_iff, Supply.next_advance]
  constructor
  · rintro ⟨-, hn, _, ⟨t, s₁, _, ht, ⟨_, ⟨b, _, _, hb, ⟨_, ⟨rfl, rfl⟩, rfl⟩, rfl⟩, rfl⟩, rfl⟩, rfl⟩
    exact ⟨t, s₁, b, hn, ht, hb, rfl⟩
  · rintro ⟨t, s₁, b, hn, ht, hb, rfl⟩
    exact ⟨by omega, hn, _,
      ⟨t, s₁, _, ht, ⟨_, ⟨b, s', _, hb, ⟨_, ⟨rfl, rfl⟩, rfl⟩, rfl⟩, rfl⟩, rfl⟩, rfl⟩

/-- An expression that stands for its effect alone is a call, or its word is dropped. -/
theorem yields_discard_iff {e : Expr} :
    (discard env line e).Yields s () items s' ↔
      (∃ func args, e = .call func args ∧
        (call env line func args.length (exprs env line args) false).Yields s () items s') ∨
      ((∀ func args, e ≠ .call func args) ∧
        ∃ i, (expr env line e).Yields s () i s' ∧ items = i ++ [.op (.on .addsp (.imm 1))]) := by
  unfold discard
  split
  next func args => simp [and_assoc]
  next h =>
    rw [yields_seq_iff]
    simp only [yields_on_iff]
    constructor
    · rintro ⟨i, _, _, hi, ⟨rfl, rfl⟩, rfl⟩
      exact .inr ⟨h, i, hi, rfl⟩
    · rintro (⟨func, args, rfl, -⟩ | ⟨-, i, hi, rfl⟩)
      · exact absurd rfl (h func args)
      · exact ⟨i, s', _, hi, ⟨rfl, rfl⟩, rfl⟩

@[simp] theorem yields_stmts_nil_iff :
    (stmts env []).Yields s () items s' ↔ items = [] ∧ s' = s := by
  simp [stmts]

theorem yields_stmts_cons_iff {x : Stmt} {r : List Stmt} :
    (stmts env (x :: r)).Yields s () items s' ↔
      ∃ i₁ s₁ i₂, (stmt env x).Yields s () i₁ s₁ ∧ (stmts env r).Yields s₁ () i₂ s' ∧
        items = i₁ ++ i₂ := by
  rw [stmts, yields_seq_iff]

end Lowering
end TreeAsm

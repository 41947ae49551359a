import TreeAsm.Proofs.Acceptance
import TreeAsm.Proofs.Linkage
import TreeAsm.Proofs.Written

/-! What straight code does to the stack. Every position of generated code has a height, the number
of words that lie on the stack there above the slots of the frame. Labels and branches are at height
zero, where statements begin and end, so that all ways to a position agree on its height. A stored
result is followed by the branch to the end of the routine, and by nothing else. -/
namespace TreeAsm

namespace Opcode

/-- How many words an operator combines into one. -/
def operands : Opcode → Nat
  | .add | .sub | .mul | .div | .mod | .and | .or
  | .cmpEq | .cmpNe | .cmpLt | .cmpLe | .cmpGt | .cmpGe => 2
  | .neg | .not => 1
  | _ => 0

/-- Whether all that matters is how many words are there: the instruction does not branch, call or
stop. -/
def isPlain : Opcode → Bool
  | .br | .brf | .call | .stop => false
  | _ => true

theorem isPlain_cases {o : Opcode} (h : o.isPlain = true) :
    o.isBranch = false ∧ o ≠ .call ∧ o ≠ .stop := by
  cases o <;> simp_all [isPlain, isBranch]

end Opcode

namespace Instruction

/-- How many words the instruction takes from the stack. -/
def pops (i : Instruction) : Nat :=
  match i.opcode, i.operand with
  | .addsp, some (.imm n) => n.toNat
  | .pop, _ | .deco, _ | .brf, _ => 1
  | o, _ => o.operands

/-- How many words the instruction leaves on the stack. -/
def pushes (i : Instruction) : Nat :=
  match i.opcode with
  | .push | .deci => 1
  | o => if o.operands = 0 then 0 else 1

/-- The routine whose result the instruction stores. -/
def gives? (i : Instruction) : Option String :=
  match i.opcode, i.operand with
  | .pop, some (.mem (.static (.result f))) => some f
  | _, _ => none

/-- The routine whose end the instruction branches to. -/
def leaves? (i : Instruction) : Option String :=
  match i.opcode, i.operand with
  | .br, some (.target (.exit f)) => some f
  | _, _ => none

theorem of_leaves? {i : Instruction} {f : String} (h : i.leaves? = some f) :
    i.opcode = .br ∧ i.target? = some (.exit f) := by
  unfold leaves? at h
  split at h
  next ho hx => exact ⟨ho, by rw [target?, hx, Option.some.inj h]⟩
  next => simp at h

theorem leaves?_eq_none {i : Instruction} (h : i.opcode.isBranch = false) : i.leaves? = none := by
  unfold leaves?
  split
  next ho _ => simp [ho, Opcode.isBranch] at h
  next => rfl

end Instruction

namespace Code

/-- A point of straight code: how many words are on the stack, and whether a result has just been
stored. -/
structure Point where
  height : Nat
  given : Bool
deriving DecidableEq

namespace Point

/-- Between the instructions of an expression. -/
def words (height : Nat) : Point := ⟨height, false⟩

/-- Between statements. -/
def rest : Point := words 0

def next (q : Point) (i : Instruction) : Point := ⟨q.height - i.pops + i.pushes, i.gives?.isSome⟩

@[simp] theorem height_next (q : Point) (i : Instruction) :
    (q.next i).height = q.height - i.pops + i.pushes := rfl

end Point

/-- The instruction can stand at the point, in code of the routine or of the top level. -/
structure Suits (s : Script) (ρ : Option String) (q : Point) (i : Instruction) : Prop where
  enough : i.pops ≤ q.height
  branch : i.opcode.isBranch = true → q.height = i.pops
  call : i.opcode = .call → ∃ r ∈ s.routines, i.target? = some (.plain r.name) ∧
    r.formals.length ≤ q.height
  stop : i.opcode = .stop → q.height = 0
  given : q.given = i.leaves?.isSome
  gives : ∀ f, i.gives? = some f → ρ = some f
  leaves : ∀ f, i.leaves? = some f → ρ = some f

/-- The code goes from one point to another, and labels stand between statements only. -/
def Passes (s : Script) (ρ : Option String) : Point → List Instruction → Point → Prop
  | q, [], q' => q' = q
  | q, i :: r, q' =>
    (Suits s ρ q i ∧ (i.label.isSome = true → q = .rest)) ∧ Passes s ρ (q.next i) r q'

/-- The same before labels are settled. -/
def PassesOn (s : Script) (ρ : Option String) : Point → List Item → Point → Prop
  | q, [], q' => q' = q
  | q, .mark _ :: r, q' => q = .rest ∧ PassesOn s ρ q r q'
  | q, .op i :: r, q' => Suits s ρ q i ∧ PassesOn s ρ (q.next i) r q'

variable {s : Script} {ρ : Option String} {q q₁ q' : Point}

theorem Passes.append {c d : List Instruction} (hc : Passes s ρ q c q₁) (hd : Passes s ρ q₁ d q') :
    Passes s ρ q (c ++ d) q' := by
  induction c generalizing q with
  | nil =>
    obtain rfl : q₁ = q := hc
    exact hd
  | cons i r ih => exact ⟨hc.1, ih hc.2⟩

theorem PassesOn.append {i j : List Item} (hi : PassesOn s ρ q i q₁) (hj : PassesOn s ρ q₁ j q') :
    PassesOn s ρ q (i ++ j) q' := by
  induction i generalizing q with
  | nil =>
    obtain rfl : q₁ = q := hi
    exact hj
  | cons x r ih =>
    cases x with
    | mark l => exact ⟨hi.1, ih hi.2⟩
    | op i => exact ⟨hi.1, ih hi.2⟩

theorem Suits.labelled {i : Instruction} (h : Suits s ρ q i) (l : Label) :
    Suits s ρ q (i.labelled l) :=
  ⟨h.enough, h.branch, h.call, h.stop, h.given, h.gives, h.leaves⟩

/-- After a branch nothing is left. -/
theorem Suits.next_of_branch {i : Instruction} (h : Suits s ρ q i) (hb : i.opcode.isBranch = true) :
    q.next i = .rest := by
  have hheight := h.branch hb
  obtain ⟨l, o, x, t⟩ := i
  have hpush : Instruction.pushes ⟨l, o, x, t⟩ = 0 := by
    cases o <;> simp [Opcode.isBranch] at hb <;> rfl
  have hgive : Instruction.gives? ⟨l, o, x, t⟩ = none := by
    cases o <;> simp [Opcode.isBranch] at hb <;> rfl
  rw [Point.next, hheight, Nat.sub_self, hpush, hgive]
  rfl

/-- Plain instructions that store no result suit wherever there are words enough. -/
theorem Suits.plain {i : Instruction} {n : Nat} (hn : i.pops ≤ n) (hp : i.opcode.isPlain = true)
    (hg : i.gives? = none) : Suits s ρ (.words n) i := by
  obtain ⟨hb, hc, hs⟩ := Opcode.isPlain_cases hp
  have hl : i.leaves? = none := Instruction.leaves?_eq_none hb
  exact ⟨hn, fun h => by simp [hb] at h, fun h => absurd h hc, fun h =>
    absurd h hs, by rw [hl]; rfl, fun f h => by simp [hg] at h, fun f h => by simp [hl] at h⟩

theorem Suits.carrier (l : Label) : Suits s ρ .rest (.carrier l) := .plain (Nat.le_refl _) rfl rfl

theorem passes_carriers (ls : List Label) : Passes s ρ .rest (ls.map .carrier) .rest := by
  induction ls with
  | nil => rfl
  | cons l r ih => exact ⟨⟨.carrier l, fun _ => rfl⟩, ih⟩

/-- An instruction that a label waits for begins a statement, as the carriers of the label do. -/
theorem passes_attach {pending : List Label} {i : Instruction} (hi : Suits s ρ q i)
    (hl : i.label = none) (hp : pending ≠ [] → q = .rest) :
    Passes s ρ q (attach pending i) (q.next i) := by
  unfold attach
  split
  next => exact ⟨⟨hi, fun h => by simp [hl] at h⟩, rfl⟩
  next l h =>
    obtain rfl := hp fun he => by simp [he] at h
    exact (passes_carriers _).append ⟨⟨hi.labelled l, fun _ => rfl⟩, rfl⟩

/-- Settling labels keeps the points. -/
theorem passes_settleFrom {pending : List Label} {items : List Item} (h : PassesOn s ρ q items q')
    (hl : ∀ i, .op i ∈ items → i.label = none) (hp : pending ≠ [] → q = .rest) :
    Passes s ρ q (settleFrom pending items) q' := by
  induction items generalizing q pending with
  | nil =>
    obtain rfl : q' = q := h
    cases pending with
    | nil => rfl
    | cons l r =>
      obtain rfl := hp (by simp)
      exact passes_carriers (l :: r)
  | cons x r ih =>
    have hr : ∀ i, .op i ∈ r → i.label = none := fun i hi => hl i (List.mem_cons_of_mem _ hi)
    cases x with
    | mark l => exact ih h.2 hr fun _ => h.1
    | op i => exact (passes_attach h.1 (hl i List.mem_cons_self) hp).append (ih h.2 hr (absurd rfl))

theorem passes_withLabel {c : List Instruction} (l : Label) (h : Passes s ρ .rest c q') :
    Passes s ρ .rest (withLabel l c) q' := by
  cases c with
  | nil => exact ⟨⟨.carrier l, fun _ => rfl⟩, h⟩
  | cons i r =>
    rw [withLabel]
    split
    · exact ⟨⟨h.1.1.labelled l, fun _ => rfl⟩, h.2⟩
    · exact ⟨⟨.carrier l, fun _ => rfl⟩, h⟩

/-- A label in front does not touch the end of the code. -/
theorem withLabel_concat (l : Label) (c : List Instruction) {j : Instruction}
    (hj : j.label = none) :
    ∃ d m, withLabel l (c ++ [j]) = d ++ [{ j with label := m }] ∧
      ∀ i ∈ d, (∃ m, i = .carrier m) ∨ ∃ i' ∈ c, i.opcode = i'.opcode := by
  cases c with
  | nil => exact ⟨[], some l, by simp [withLabel, hj, Instruction.labelled], by simp⟩
  | cons i r =>
    rw [List.cons_append, withLabel]
    split
    · refine ⟨i.labelled l :: r, none, by simp [← hj], fun k hk => .inr ?_⟩
      rcases List.mem_cons.1 hk with rfl | hk
      · exact ⟨i, List.mem_cons_self, rfl⟩
      · exact ⟨k, List.mem_cons_of_mem _ hk, rfl⟩
    · refine ⟨.carrier l :: i :: r, none, by simp [← hj], fun k hk => ?_⟩
      rcases List.mem_cons.1 hk with rfl | hk
      · exact .inl ⟨l, rfl⟩
      · exact .inr ⟨k, hk, rfl⟩

/-- The point in front of the `k`-th instruction of code that begins at rest. -/
def pointAt (code : List Instruction) (k : Nat) : Point := (code.take k).foldl Point.next .rest

theorem pointAt_zero (code : List Instruction) : pointAt code 0 = .rest := rfl

theorem pointAt_succ {code : List Instruction} {k : Nat} {i : Instruction} (h : code[k]? = some i) :
    pointAt code (k + 1) = (pointAt code k).next i := by
  rw [pointAt, List.take_add_one, h, List.foldl_append]
  rfl

theorem Passes.foldl_eq {c : List Instruction} (h : Passes s ρ q c q') :
    c.foldl Point.next q = q' := by
  induction c generalizing q with
  | nil => exact h.symm
  | cons i r ih => exact ih h.2

theorem Passes.suits_from {code : List Instruction} (h : Passes s ρ q code q') {k : Nat}
    {i : Instruction} (hi : code[k]? = some i) :
    Suits s ρ ((code.take k).foldl Point.next q) i ∧
      (i.label.isSome = true → (code.take k).foldl Point.next q = .rest) := by
  induction code generalizing q k with
  | nil => simp at hi
  | cons j r ih =>
    cases k with
    | zero =>
      obtain rfl := Option.some.inj hi
      exact h.1
    | succ k => exact ih h.2 (by simpa using hi)

/-- What stands somewhere in the code suits the point there. -/
theorem Passes.suits {code : List Instruction} (h : Passes s ρ .rest code q') {k : Nat}
    {i : Instruction} (hi : code[k]? = some i) :
    Suits s ρ (pointAt code k) i ∧ (i.label.isSome = true → pointAt code k = .rest) :=
  h.suits_from hi

end Code

open Code

/-- What has to be known of the names in a body: callees are routines of the script, results are
stored in the cell of the routine whose body it is, and variables live elsewhere. -/
structure Env.Belongs (env : Env) (s : Script) (ρ : Option String) : Prop where
  callee : ∀ func f, env.callee func = some f → ∃ r ∈ s.routines, f.routine = r.name ∧
    f.arity = r.formals.length
  result : ∀ cell exit, env.result = some (cell, exit) → ∃ f, ρ = some f ∧
    cell = .static (.result f) ∧ exit = .exit f
  resolve : ∀ n loc, env.resolve n = some loc → ∀ f, loc ≠ .static (.result f)

namespace Lowering

variable {env : Env} {s : Script} {ρ : Option String} {line : UInt32} {pool : List (String × Nat)}
  {items : List Item}

theorem suits_push (o : Operand) (h : Nat) : Suits s ρ (.words h) (.on .push o) :=
  .plain (Nat.zero_le _) rfl rfl

theorem suits_binary (op : BinaryOp) (h : Nat) : Suits s ρ (.words (h + 2)) (.bare op.opcode) := by
  cases op <;> exact .plain (Nat.le_add_left 2 h) rfl rfl

theorem suits_unary (op : UnaryOp) (h : Nat) : Suits s ρ (.words (h + 1)) (.bare op.opcode) := by
  cases op <;> exact .plain (Nat.le_add_left 1 h) rfl rfl

theorem suits_drop (n h : Nat) : Suits s ρ (.words (h + n)) (.on .addsp (.imm n)) :=
  .plain (Nat.le_add_left n h) rfl rfl

theorem next_binary (op : BinaryOp) (h : Nat) :
    (Point.words (h + 2)).next (.bare op.opcode) = .words (h + 1) := by
  cases op <;> rfl

theorem next_unary (op : UnaryOp) (h : Nat) :
    (Point.words (h + 1)).next (.bare op.opcode) = .words (h + 1) := by
  cases op <;> rfl

theorem next_drop (n h : Nat) : (Point.words (h + n)).next (.on .addsp (.imm n)) = .words h := by
  show Point.mk (h + n - n + 0) false = ⟨h, false⟩
  rw [Nat.add_sub_cancel, Nat.add_zero]

theorem passesOn_push (o : Operand) (h : Nat) :
    PassesOn s ρ (.words h) [.op (.on .push o)] (.words (h + 1)) :=
  ⟨suits_push o h, rfl⟩

theorem passesOn_drop (n h : Nat) :
    PassesOn s ρ (.words (h + n)) [.op (.on .addsp (.imm n))] (.words h) :=
  ⟨suits_drop n h, (next_drop n h).symm⟩

theorem passesOn_literal {v : Literal} (hw : (literal v).Writes pool items) (h : Nat) :
    PassesOn s ρ (.words h) items (.words (h + 1)) := by
  cases v with
  | str t =>
    obtain ⟨n, -, rfl⟩ := writes_text hw
    exact passesOn_push _ h
  | int n =>
    obtain rfl := writes_on hw
    exact passesOn_push _ h
  | real x =>
    obtain rfl := writes_on hw
    exact passesOn_push _ h
  | bool b =>
    obtain rfl := writes_on hw
    exact passesOn_push _ h

theorem passesOn_callItems (henv : env.Belongs s ρ) {func : String} {f : Frame}
    (hf : env.callee func = some f) (h : Nat) (used : Bool) :
    PassesOn s ρ (.words (h + f.arity)) (callItems f f.arity used)
      (.words (h + if used = true then 1 else 0)) := by
  obtain ⟨r, hr, hn, ha⟩ := henv.callee func f hf
  have hcall : Suits s ρ (.words (h + f.arity)) (.on .call (.target (.plain f.routine))) :=
    ⟨Nat.zero_le _, nofun, fun _ =>
      ⟨r, hr, by rw [hn]; rfl, by rw [← ha]; exact Nat.le_add_left _ _⟩, nofun, rfl, nofun, nofun⟩
  have hdrop : PassesOn s ρ (.words (h + f.arity))
      (if f.arity = 0 then [] else [.op (.on .addsp (.imm f.arity))]) (.words h) := by
    split
    next h0 => rw [h0]; rfl
    next => exact passesOn_drop f.arity h
  have hfetch : PassesOn s ρ (.words h)
      (if used = true then [.op (.on .push (.mem f.resultCell))] else [])
      (.words (h + if used = true then 1 else 0)) := by
    cases used with
    | false => rfl
    | true => exact passesOn_push _ h
  exact ⟨hcall, hdrop.append hfetch⟩

theorem passesOn_inputItems (h : Nat) (used : Bool) :
    PassesOn s ρ (.words h) (inputItems used) (.words (h + if used = true then 1 else 0)) := by
  have hread : Suits s ρ (.words h) (.bare .deci) := .plain (Nat.zero_le _) rfl rfl
  cases used with
  | false => exact ⟨hread, passesOn_drop 1 h⟩
  | true => exact ⟨hread, rfl⟩

theorem passesOn_print (h : Nat) : PassesOn s ρ (.words (h + 1)) [.op (.bare .deco)] (.words h) :=
  ⟨.plain (Nat.le_add_left 1 h) rfl rfl, rfl⟩

theorem writes_exprs_singleton {e : Expr} (h : (expr env line e).Writes pool items) :
    (exprs env line [e]).Writes pool items := by
  obtain ⟨s, s', h, hp⟩ := h
  have hnil : (exprs env line []).Yields s' () [] s' := yields_exprs_nil_iff.2 ⟨rfl, rfl⟩
  exact ⟨s, s', yields_exprs_cons_iff.2 ⟨items, s', [], h, hnil, (List.append_nil _).symm⟩, hp⟩

/-- A call leaves a word more if its result is used. -/
theorem passesOn_call (henv : env.Belongs s ρ) {func : String} {args : List Expr} {used : Bool}
    (hw : (call env line func args.length (exprs env line args) used).Writes pool items) (h : Nat)
    (hargs : ∀ i, (exprs env line args).Writes pool i →
      PassesOn s ρ (.words h) i (.words (h + args.length))) :
    PassesOn s ρ (.words h) items (.words (h + if used = true then 1 else 0)) := by
  rcases writes_call hw with ⟨f, a, hf, hc, ha, rfl⟩ | ⟨-, -, rfl, e, a, rfl, ha, rfl⟩ |
    ⟨-, -, -, rfl⟩
  · have harg := hargs a ha
    rw [← hc] at harg ⊢
    exact harg.append (passesOn_callItems henv hf h used)
  · exact (hargs a (writes_exprs_singleton ha)).append (passesOn_print h)
  · exact passesOn_inputItems h used

mutual

/-- The code of an expression leaves one word more. -/
theorem passesOn_expr (henv : env.Belongs s ρ) (e : Expr) {items : List Item}
    (hw : (expr env line e).Writes pool items) (h : Nat) :
    PassesOn s ρ (.words h) items (.words (h + 1)) := by
  match e with
  | .literal v => exact passesOn_literal hw h
  | .name id =>
    obtain ⟨loc, -, rfl⟩ := writes_name hw
    exact passesOn_push _ h
  | .binary op l r =>
    obtain ⟨i₁, i₂, hl, hr, rfl⟩ := writes_binary hw
    have hop : PassesOn s ρ (.words (h + 2)) [.op (.bare op.opcode)] (.words (h + 1)) :=
      ⟨suits_binary op h, (next_binary op h).symm⟩
    exact (passesOn_expr henv l hl h).append ((passesOn_expr henv r hr (h + 1)).append hop)
  | .unary op e =>
    obtain ⟨i, hi, rfl⟩ := writes_unary hw
    have hop : PassesOn s ρ (.words (h + 1)) [.op (.bare op.opcode)] (.words (h + 1)) :=
      ⟨suits_unary op h, (next_unary op h).symm⟩
    exact (passesOn_expr henv e hi h).append hop
  | .call func args => exact passesOn_call henv hw h fun _ hi => passesOn_exprs henv args hi h
  | .unsupported c =>
    obtain ⟨s₁, s₂, hy, -⟩ := hw
    exact absurd hy not_yields_unsupported

theorem passesOn_exprs (henv : env.Belongs s ρ) (es : List Expr) {items : List Item}
    (hw : (exprs env line es).Writes pool items) (h : Nat) :
    PassesOn s ρ (.words h) items (.words (h + es.length)) := by
  match es with
  | [] =>
    obtain rfl := writes_exprs_nil hw
    rfl
  | e :: r =>
    obtain ⟨i₁, i₂, he, hr, rfl⟩ := writes_exprs_cons hw
    have hlen : h + (e :: r).length = h + 1 + r.length := by rw [List.length_cons]; omega
    rw [hlen]
    exact (passesOn_expr henv e he h).append (passesOn_exprs henv r hr (h + 1))

end

theorem passesOn_store {loc : Location} (hl : ∀ f, loc ≠ .static (.result f)) :
    PassesOn s ρ (.words 1) [.op (.on .pop (.mem loc))] .rest := by
  have hg : (Instruction.on .pop (.mem loc)).gives? = none := by
    unfold Instruction.gives?
    split
    next f _ he => exact absurd (by simpa [Instruction.on] using he) (hl f)
    next => rfl
  have hn : (Point.words 1).next (.on .pop (.mem loc)) = .rest := by
    simp only [Point.next, hg]
    rfl
  exact ⟨.plain (Nat.le_refl _) rfl hg, hn.symm⟩

/-- A result is stored and the routine left. -/
theorem passesOn_give (f : String) :
    PassesOn s (some f) (.words 1)
      [.op (.on .pop (.mem (.static (.result f)))), .op (.on .br (.target (.exit f)))]
      .rest := by
  have hgive : Suits s (some f) (.words 1) (.on .pop (.mem (.static (.result f)))) :=
    ⟨Nat.le_refl _, nofun, nofun, nofun, rfl, fun _ h => h, nofun⟩
  have hleave : Suits s (some f) ⟨0, true⟩ (.on .br (.target (.exit f))) :=
    ⟨Nat.le_refl _, fun _ => rfl, nofun, nofun, rfl, nofun, fun _ h => h⟩
  exact ⟨hgive, hleave, rfl⟩

theorem suits_brf (stem : String) (n : Nat) :
    Suits s ρ (.words 1) (.on .brf (.target (.generated stem n))) :=
  ⟨Nat.le_refl _, fun _ => rfl, nofun, nofun, rfl, nofun, nofun⟩

theorem suits_br (stem : String) (n : Nat) :
    Suits s ρ .rest (.on .br (.target (.generated stem n))) :=
  ⟨Nat.le_refl _, fun _ => rfl, nofun, nofun, rfl, nofun, nofun⟩

theorem passesOn_ifItems {t c : List Item} (n : Nat) (ht : PassesOn s ρ .rest t (.words 1))
    (hc : PassesOn s ρ .rest c .rest) : PassesOn s ρ .rest (ifItems t c n) .rest :=
  ht.append ⟨suits_brf .., hc.append ⟨rfl, rfl⟩⟩

theorem passesOn_ifElseItems {t c d : List Item} (n : Nat) (ht : PassesOn s ρ .rest t (.words 1))
    (hc : PassesOn s ρ .rest c .rest) (hd : PassesOn s ρ .rest d .rest) :
    PassesOn s ρ .rest (ifElseItems t c d n) .rest :=
  ht.append ⟨suits_brf .., hc.append ⟨suits_br .., rfl, hd.append ⟨rfl, rfl⟩⟩⟩

theorem passesOn_whileItems {t c : List Item} (n : Nat) (ht : PassesOn s ρ .rest t (.words 1))
    (hc : PassesOn s ρ .rest c .rest) : PassesOn s ρ .rest (whileItems t c n) .rest :=
  ⟨rfl, ht.append ⟨suits_brf .., hc.append ⟨suits_br .., rfl, rfl⟩⟩⟩

theorem passesOn_returned (henv : env.Belongs s ρ) {value : Option Expr}
    (hw : (returned env line value).Writes pool items) : PassesOn s ρ .rest items (.words 1) := by
  cases value with
  | none =>
    obtain rfl := writes_on hw
    exact passesOn_push _ 0
  | some e => exact passesOn_expr henv e hw 0

theorem passesOn_discard (henv : env.Belongs s ρ) {e : Expr}
    (hw : (discard env line e).Writes pool items) : PassesOn s ρ .rest items .rest := by
  rcases writes_discard hw with ⟨func, args, rfl, hc⟩ | ⟨-, i, hi, rfl⟩
  · exact passesOn_call henv hc 0 fun _ hi => passesOn_exprs henv args hi 0
  · exact (passesOn_expr henv e hi 0).append (passesOn_drop 1 0)

mutual

theorem passesOn_stmt (henv : env.Belongs s ρ) (x : Stmt) {items : List Item}
    (hw : (stmt env x).Writes pool items) : PassesOn s ρ .rest items .rest := by
  match x with
  | .assign line targets value =>
    obtain ⟨id, loc, i, -, hl, hv, rfl⟩ := writes_assign hw
    exact (passesOn_expr henv value hv 0).append (passesOn_store (henv.resolve id loc hl))
  | .update line target op value =>
    obtain ⟨id, loc, i, -, hl, hv, rfl⟩ := writes_update hw
    have hop : PassesOn s ρ (.words 2) [.op (.bare op.opcode)] (.words 1) :=
      ⟨suits_binary op 0, (next_binary op 0).symm⟩
    exact (passesOn_push (.mem loc) 0).append
      ((passesOn_expr henv value hv 1).append
        (hop.append (passesOn_store (henv.resolve id loc hl))))
  | .ifElse line test body orelse =>
    obtain ⟨t, c, n, ht, hc, ⟨-, rfl⟩ | ⟨o, ho, rfl⟩⟩ := writes_ifElse hw
    · exact passesOn_ifItems n (passesOn_expr henv test ht 0) (passesOn_stmts henv body hc)
    · exact passesOn_ifElseItems n (passesOn_expr henv test ht 0) (passesOn_stmts henv body hc)
        (passesOn_stmts henv orelse ho)
  | .whileLoop line test body =>
    obtain ⟨t, c, n, ht, hc, rfl⟩ := writes_whileLoop hw
    exact passesOn_whileItems n (passesOn_expr henv test ht 0) (passesOn_stmts henv body hc)
  | .ret line value =>
    obtain ⟨cell, exit, i, hr, hi, rfl⟩ := writes_ret hw
    obtain ⟨f, rfl, rfl, rfl⟩ := henv.result cell exit hr
    exact (passesOn_returned henv hi).append (passesOn_give f)
  | .eval line value => exact passesOn_discard henv hw
  | .pass line =>
    obtain ⟨s₁, s₂, hy, -⟩ := hw
    obtain ⟨-, rfl, -⟩ := Emit.yields_pure_iff.1 hy
    rfl
  | .define line name params body =>
    obtain ⟨s₁, s₂, hy, -⟩ := hw
    exact absurd hy not_yields_unsupported
  | .unsupported line construct =>
    obtain ⟨s₁, s₂, hy, -⟩ := hw
    exact absurd hy not_yields_unsupported

/-- The code of statements leaves the stack as it was. -/
theorem passesOn_stmts (henv : env.Belongs s ρ) (xs : List Stmt) {items : List Item}
    (hw : (stmts env xs).Writes pool items) : PassesOn s ρ .rest items .rest := by
  match xs with
  | [] =>
    obtain rfl := writes_stmts_nil hw
    rfl
  | x :: r =>
    obtain ⟨i₁, i₂, hx, hr, rfl⟩ := writes_stmts_cons hw
    exact (passesOn_stmt henv x hx).append (passesOn_stmts henv r hr)

end

end Lowering

namespace Frame

variable {s : Script}

theorem passes_reservation (f : Frame) (ρ : Option String) :
    Passes s ρ .rest f.reservation .rest := by
  have hz : ∀ (vs : List (Variable × Nat)),
      Passes s ρ .rest (vs.map fun x => f.slotEquate x.1 x.2) .rest := by
    intro vs
    induction vs with
    | nil => rfl
    | cons v r ih => exact ⟨⟨.plain (Nat.le_refl _) rfl rfl, fun _ => rfl⟩, ih⟩
  exact ⟨⟨.plain (Nat.le_refl _) rfl rfl, fun _ => rfl⟩, hz _⟩

theorem passes_bindParam (f : Frame) (ρ : Option String) (name : String) (index : Nat) :
    Passes s ρ .rest (f.bindParam name index) .rest := by
  unfold bindParam
  split
  next => rfl
  next loc h =>
    obtain ⟨k, -, rfl⟩ := resolve?_eq_some h
    exact ⟨⟨.plain (Nat.le_refl _) rfl rfl, nofun⟩, ⟨.plain (Nat.le_refl _) rfl rfl, nofun⟩, rfl⟩

theorem passes_bindings (f : Frame) (ρ : Option String) (xs : List (String × Nat)) :
    Passes s ρ .rest (xs.flatMap fun x => f.bindParam x.1 x.2) .rest := by
  induction xs with
  | nil => rfl
  | cons x r ih => exact (f.passes_bindParam ρ x.1 x.2).append ih

theorem passes_prologue (f : Frame) (ρ : Option String) : Passes s ρ .rest f.prologue .rest :=
  ⟨⟨.plain (Nat.le_refl _) rfl rfl, fun _ => rfl⟩, f.passes_bindings ρ _⟩

theorem passes_epilogue (f : Frame) (ρ : Option String) : Passes s ρ .rest f.epilogue .rest :=
  ⟨⟨.plain (Nat.le_refl _) rfl rfl, fun _ => rfl⟩, ⟨.plain (Nat.le_refl _) rfl rfl, nofun⟩, rfl⟩

end Frame

namespace Layout

variable {s : Script} {l : Layout}

theorem belongs_of_lookup (hf : Framed l.globals [] s.routines l.frames) (func : String) (f : Frame)
    (h : Frame.lookup l.frames func = some f) :
    ∃ r ∈ s.routines, f.routine = r.name ∧ f.arity = r.formals.length := by
  obtain ⟨r, hr, hn, hc⟩ := (hf.lookup_iff func f.arity).1 ⟨f, h, rfl⟩
  exact ⟨r, hr, (Frame.mem_of_lookup h).2.trans hn.symm, hc⟩

theorem belongs_topEnv (hf : Framed l.globals [] s.routines l.frames) :
    l.topEnv.Belongs s none where
  callee := belongs_of_lookup hf
  result _ _ h := by simp [topEnv] at h
  resolve n loc h f he := by
    obtain ⟨-, rfl⟩ := mem_globals_of_staticCell? h
    simp at he

theorem belongs_routineEnv (hf : Framed l.globals [] s.routines l.frames) (f : Frame) :
    (l.routineEnv f).Belongs s (some f.routine) where
  callee := belongs_of_lookup hf
  result cell exit h := by
    obtain ⟨rfl, rfl⟩ := Prod.mk.inj (Option.some.inj h)
    exact ⟨f.routine, rfl, rfl, rfl⟩
  resolve n loc h g he := by
    rcases Option.or_eq_some_iff.1 h with h | ⟨-, h⟩
    · obtain ⟨k, -, rfl⟩ := Frame.resolve?_eq_some h
      simp at he
    · obtain ⟨-, rfl⟩ := mem_globals_of_staticCell? h
      simp at he

end Layout

namespace Build

variable {s : Script} {source : String} {seed : Nat} {p : Program} (b : Build s source seed p)

/-- The top level ends where the program stops. -/
theorem topLevel_concat :
    ∃ d m, p.topLevel.code = d ++ [{ Instruction.bare .stop with label := m }] ∧
    ∀ i ∈ d, (∃ m, i = .carrier m) ∨ ∃ j ∈ settle b.top, i.opcode = j.opcode := by
  rw [b.topLevel_eq]
  exact withLabel_concat (.plain Label.entry) (settle b.top) rfl

theorem passes_topLevel (b : Build s source seed p) :
    Passes s none .rest p.topLevel.code .rest := by
  have hw : (Lowering.stmts b.layout.topEnv s.topLevel).Writes b.final.strings.entries b.top :=
    ⟨_, _, b.top_yields, b.bodies.spends.entries_prefix⟩
  have hbody : Passes s none .rest (settle b.top) .rest :=
    passes_settleFrom (Lowering.passesOn_stmts (Layout.belongs_topEnv b.framed) _ hw)
      b.topBody_assembled.label_eq_none
      fun h => absurd rfl h
  have hstop : Passes s none .rest [.bare .stop] .rest :=
    ⟨⟨⟨Nat.le_refl _, nofun, nofun, fun _ => rfl, rfl, nofun, nofun⟩, nofun⟩, rfl⟩
  rw [b.topLevel_eq]
  exact passes_withLabel _ (hbody.append hstop)

theorem passes_body {x : Routine × Frame × List Item} (hx : x ∈ b.pieces) :
    Passes s (some x.1.name) .rest (settle x.2.2) .rest := by
  obtain ⟨hn, -, -⟩ := b.routine_eq_of_mem hx
  obtain ⟨s₁, s₂, hy, hp⟩ := b.bodies.yields_of_mem hx
  obtain ⟨t₁, t₂, ha, -⟩ := b.piece_assembled hx
  have henv := Layout.belongs_routineEnv b.framed x.2.1
  rw [hn] at henv
  exact passes_settleFrom (Lowering.passesOn_stmts henv _ ⟨s₁, s₂, hy, hp⟩) ha.label_eq_none
    fun h => absurd rfl h

theorem passes_piece {x : Routine × Frame × List Item} (hx : x ∈ b.pieces) :
    Passes s (some x.1.name) .rest (x.2.1.assemble x.2.2).code .rest :=
  (((x.2.1.passes_reservation _).append (x.2.1.passes_prologue _)).append (b.passes_body hx)).append
    (x.2.1.passes_epilogue _)

end Build
end TreeAsm

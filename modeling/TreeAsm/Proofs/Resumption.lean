import TreeAsm.Proofs.Closure
import TreeAsm.Proofs.PlacedLabels

/-! Generation that goes on after failures. A statement may fail anywhere inside, with labels drawn
and not placed, or placed and still waiting for an instruction that then comes from a later
statement. Each label is owed by the code that follows its drawing, which places it at most once; so
the labels stay distinct however often generation fails. -/
namespace TreeAsm

namespace Label

/-- One for a branch label with a number from `a` on and below `b`, and zero for other labels. -/
def drawn (a b : Nat) : Label → Nat
  | .generated stem n => if stem ∈ branchStems ∧ a ≤ n ∧ n < b then 1 else 0
  | _ => 0

theorem drawn_le_one (a b : Nat) (l : Label) : l.drawn a b ≤ 1 := by
  unfold drawn
  split
  · split <;> omega
  · omega

theorem drawn_add {a b c : Nat} (hab : a ≤ b) (hbc : b ≤ c) (l : Label) :
    l.drawn a b + l.drawn b c = l.drawn a c := by
  cases l with
  | generated stem n =>
    simp only [drawn]
    by_cases hstem : stem ∈ branchStems
    · simp only [hstem, true_and]
      split_ifs <;> omega
    · simp [hstem]
  | _ => rfl

theorem drawn_self {stem : String} (h : stem ∈ branchStems) (n : Nat) :
    (Label.generated stem n).drawn n (n + 1) = 1 := if_pos ⟨h, Nat.le_refl n, Nat.lt_succ_self n⟩

theorem exists_of_drawn_pos {a b : Nat} {l : Label} (h : 0 < l.drawn a b) :
    ∃ stem ∈ branchStems, ∃ n, l = .generated stem n ∧ a ≤ n ∧ n < b := by
  cases l with
  | generated stem n =>
    simp only [drawn] at h
    split at h
    next hn => exact ⟨stem, hn.1, n, rfl, hn.2⟩
    next => omega
  | _ => simp [drawn] at h

end Label

namespace Emit

variable {α β : Type}

/-- The step takes no number back and labels no instruction itself, and places no label more often
than it is owed, with one more for each branch label that it draws. All of this holds also if the
step fails. -/
structure Places (owed : List Label) (x : Emit α) : Prop where
  advances : Advances α x
  label_eq_none : ∀ s i, .op i ∈ (x s).items → i.label = none
  count_le : ∀ s l, (Code.marks (x s).items).count l ≤
    owed.count l + l.drawn s.next (x s).supply.next

theorem places_pure (a : α) : (Pure.pure a : Emit α).Places [] where
  advances s := Nat.le_refl s.next
  label_eq_none s i hi := by simp at hi
  count_le s l := by simp

theorem places_reject (e : CompileError) : (reject e : Emit α).Places [] where
  advances s := Nat.le_refl s.next
  label_eq_none s i hi := by simp [reject, fault] at hi
  count_le s l := by simp [reject, fault]

theorem places_op {i : Instruction} (h : i.label = none) : (item (.op i)).Places [] where
  advances := advances_item _
  label_eq_none s j hj := by
    obtain rfl : j = i := by simpa [item] using hj
    exact h
  count_le s l := by simp [item]

theorem places_mark (l : Label) : (mark l).Places [l] where
  advances := advances_item _
  label_eq_none s j hj := by simp [mark, item] at hj
  count_le s m := by simp [mark, item]

theorem items_ofSupply (draw : Supply → Option (Label × Supply)) (s : Supply) :
    (ofSupply draw s).items = [] := by
  unfold ofSupply
  split <;> rfl

theorem places_intern (text : String) : (intern text).Places [] where
  advances := advances_intern text
  label_eq_none s i hi := by simp [intern, items_ofSupply] at hi
  count_le s l := by simp [intern, items_ofSupply]

/-- What both steps owe is owed by their sequence. If the first one fails, the rest is not
placed. -/
theorem Places.bind {owed later : List Label} {x : Emit α} {f : α → Emit β} (hx : x.Places owed)
    (hf : ∀ a, (f a).Places later) : (x >>= f).Places (owed ++ later) where
  advances := hx.advances.bind fun a => (hf a).advances
  label_eq_none s i hi := by
    cases hr : (x s).result with
    | error e =>
      rw [bind_apply_of_error hr] at hi
      exact hx.label_eq_none s i hi
    | ok a =>
      rw [bind_apply_of_ok hr] at hi
      rcases List.mem_append.1 hi with hi | hi
      · exact hx.label_eq_none s i hi
      · exact (hf a).label_eq_none _ i hi
  count_le s l := by
    have hfirst := hx.count_le s l
    cases hr : (x s).result with
    | error e =>
      simp only [bind_apply_of_error hr, List.count_append]
      omega
    | ok a =>
      have hsecond := (hf a).count_le (x s).supply l
      have hadd := Label.drawn_add (hx.advances s) ((hf a).advances (x s).supply) l
      simp only [bind_apply_of_ok hr, Code.marks_append, List.count_append]
      omega

/-- A label that is drawn is owed by what follows, and by nothing outside. -/
theorem Places.fresh_bind {owed : List Label} {stem : String} (hstem : stem ∈ Label.branchStems)
    {f : Label → Emit β} (hf : ∀ l, (f l).Places (owed ++ [l])) :
    (fresh stem >>= f).Places owed where
  advances := (advances_fresh stem).bind fun l => (hf l).advances
  label_eq_none s i hi := by
    cases hr : (fresh stem s).result with
    | error e =>
      rw [bind_apply_of_error hr] at hi
      simp [fresh, items_ofSupply] at hi
    | ok l =>
      rw [bind_apply_of_ok hr, fresh, items_ofSupply, List.nil_append] at hi
      exact (hf l).label_eq_none _ i hi
  count_le s l := by
    cases hr : (fresh stem s).result with
    | error e =>
      rw [bind_apply_of_error hr]
      simp [fresh, items_ofSupply]
    | ok m =>
      obtain ⟨-, rfl, -, hsupply⟩ :=
        yields_fresh_iff.1
          (show (fresh stem).Yields s m (fresh stem s).items (fresh stem s).supply from by
          rw [Yields, ← hr])
      have hrest := (hf (.generated stem s.next)).count_le s.advance l
      have hadd := Label.drawn_add (Nat.le_succ s.next)
        ((hf (.generated stem s.next)).advances s.advance) l
      have hown : [Label.generated stem s.next].count l ≤ l.drawn s.next (s.next + 1) := by
        by_cases hl : l = .generated stem s.next
        · rw [hl, Label.drawn_self hstem]
          simp
        · simp [Ne.symm hl]
      rw [bind_apply_of_ok hr, hsupply, fresh, items_ofSupply, List.nil_append]
      rw [List.count_append] at hrest
      simp only [Supply.next_advance, Nat.succ_eq_add_one] at hrest hadd hown ⊢
      omega

theorem closed_places : Closed fun _ x => x.Places [] where
  pure := places_pure
  reject := places_reject
  bare _ := places_op rfl
  on _ _ := places_op rfl
  intern := places_intern
  bind := Places.bind
  ifThen ht hb := ht.bind fun _ => .fresh_bind (by decide) fun done =>
    (places_op rfl).bind fun _ => hb.bind fun _ => places_mark done
  ifThenElse ht hb ho :=
    ht.bind fun _ => .fresh_bind (by decide) fun otherwise => .fresh_bind (by decide) fun done =>
    (places_op rfl).bind fun _ => hb.bind fun _ => (places_op rfl).bind fun _ =>
      (places_mark otherwise).bind fun _ =>
      ho.bind fun _ => places_mark done
  whileDo ht hb := .fresh_bind (by decide) fun head => .fresh_bind (by decide) fun done =>
    (places_mark head).bind fun _ => ht.bind fun _ => (places_op rfl).bind fun _ => hb.bind fun _ =>
      (places_op rfl).bind fun _ => places_mark done

/-- The step as one that does not fail. -/
def attempt (x : Emit α) : Emit Unit := fun s => ⟨(x s).items, (x s).supply, .ok ()⟩

theorem Places.attempt {owed : List Label} {x : Emit α} (h : x.Places owed) :
    x.attempt.Places owed :=
  ⟨h.advances, h.label_eq_none, h.count_le⟩

theorem runEach_append (xs ys : List (Emit Unit)) (s : Supply) :
    runEach (xs ++ ys) s =
      ((runEach xs s).1 ++ (runEach ys (runEach xs s).2.2).1,
        (runEach xs s).2.1 ++ (runEach ys (runEach xs s).2.2).2.1,
        (runEach ys (runEach xs s).2.2).2.2) := by
  induction xs generalizing s with
  | nil => rfl
  | cons x rest ih => simp [runEach, ih]

end Emit

namespace Lowering
open Emit Code

/-- What statements leave behind that are handed over one by one, going on after those that fail:
how each of them ended, what they placed and emitted, and the supply. -/
structure Progress where
  results : List (Except Fault Unit)
  items : List Item
  supply : Supply

namespace Progress

/-- The code so far, without the labels that wait for an instruction. -/
def emitted (p : Progress) : List Instruction := (Buffer.empty.putAll p.items).code

/-- The code when no statement follows. -/
def finish (p : Progress) : List Instruction := settle p.items

theorem emitted_prefix_finish (p : Progress) : p.emitted <+: p.finish := by
  rw [emitted, finish, ← Buffer.map_instruction_close, Buffer.close, List.map_append]
  exact List.prefix_append _ _

end Progress

variable {env : Env} {s : Supply} {xs : List Stmt}

def progress (env : Env) (s : Supply) (xs : List Stmt) : Progress :=
  let run := runEach (xs.map (stmt env)) s
  ⟨run.1, run.2.1, run.2.2⟩

theorem items_progress_append (ys zs : List Stmt) : (progress env s (ys ++ zs)).items =
    (progress env s ys).items ++ (progress env (progress env s ys).supply zs).items := by
  simp only [progress, List.map_append, runEach_append]

theorem supply_progress_append (ys zs : List Stmt) : (progress env s (ys ++ zs)).supply =
    (progress env (progress env s ys).supply zs).supply := by
  simp only [progress, List.map_append, runEach_append]

/-- A further statement changes nothing of the code that is there. -/
theorem emitted_prefix_progress (ys zs : List Stmt) :
    (progress env s ys).emitted <+: (progress env s (ys ++ zs)).emitted := by
  rw [Progress.emitted, Progress.emitted, items_progress_append, Buffer.putAll_append]
  exact (Buffer.lines_prefix_putAll _ _).map _

/-- Statements one by one are a sequence of attempts. -/
def attempts (env : Env) : List Stmt → Emit Unit
  | [] => Pure.pure ()
  | x :: rest => do
    (stmt env x).attempt
    attempts env rest

theorem attempts_apply (env : Env) (s : Supply) (xs : List Stmt) :
    attempts env xs s = ⟨(progress env s xs).items, (progress env s xs).supply, .ok ()⟩ := by
  induction xs generalizing s with
  | nil => rfl
  | cons x rest ih =>
    have hfirst : ((stmt env x).attempt s).result = .ok () := rfl
    rw [attempts, bind_apply_of_ok hfirst, ih]
    rfl

/-- However many of them fail, statements place each label at most once. -/
theorem places_attempts (env : Env) (xs : List Stmt) : (attempts env xs).Places [] := by
  induction xs with
  | nil => exact places_pure ()
  | cons x rest ih => exact (closed_places.stmt x).attempt.bind fun _ => ih

theorem next_le_progress (env : Env) (s : Supply) (xs : List Stmt) :
    s.next ≤ (progress env s xs).supply.next := by
  have h := (places_attempts env xs).advances s
  rwa [attempts_apply] at h

theorem labels_finish (env : Env) (s : Supply) (xs : List Stmt) :
    labels (progress env s xs).finish = marks (progress env s xs).items := by
  refine labels_settle fun i hi => (places_attempts env xs).label_eq_none s i ?_
  rwa [attempts_apply]

theorem count_marks_progress_le (env : Env) (s : Supply) (xs : List Stmt) (l : Label) :
    (marks (progress env s xs).items).count l ≤ l.drawn s.next (progress env s xs).supply.next := by
  have h := (places_attempts env xs).count_le s l
  rw [attempts_apply] at h
  simpa using h

/-- If no statement fails, they are generated as one body. -/
theorem yields_of_progress (h : ∀ r ∈ (progress env s xs).results, r = .ok ()) :
    (stmts env xs).Yields s () (progress env s xs).items (progress env s xs).supply := by
  induction xs generalizing s with
  | nil => exact yields_stmts_nil_iff.2 ⟨rfl, rfl⟩
  | cons x rest ih =>
    have hx : (stmt env x s).result = .ok () := h _ List.mem_cons_self
    have hrest := ih (s := (stmt env x s).supply) fun r hr => h r (List.mem_cons_of_mem _ hr)
    refine yields_stmts_cons_iff.2 ⟨_, _, _, ?_, hrest, rfl⟩
    rw [Yields, ← hx]

/-- A generator stays consistent across statements that fail. Each statement only appends to the
code and takes no number back. The labels of the finished code are distinct, and each is a branch
label with a number that was drawn. If no statement failed, the code branches to its own labels and
to the end of the routine only. -/
theorem failures_keep_labels_distinct (env : Env) (s : Supply) (xs : List Stmt) :
    (∀ ys x zs, xs = ys ++ x :: zs →
      (progress env s ys).emitted <+: (progress env s (ys ++ [x])).emitted ∧
      (progress env s ys).supply.next ≤ (progress env s (ys ++ [x])).supply.next) ∧
    (progress env s xs).emitted <+: (progress env s xs).finish ∧
    ((labels (progress env s xs).finish).map Label.text).Nodup ∧
    (∀ l ∈ labels (progress env s xs).finish, ∃ stem ∈ Label.branchStems, ∃ n,
      l = .generated stem n ∧ s.next ≤ n ∧ n < (progress env s xs).supply.next) ∧
    ((∀ r ∈ (progress env s xs).results, r = .ok ()) →
      ∀ i ∈ (progress env s xs).finish, i.opcode.isBranch = true →
        ∃ l, i.target? = some l ∧
          (l ∈ labels (progress env s xs).finish ∨ ∃ cell, env.result = some (cell, l))) := by
  have hbranch : ∀ l ∈ labels (progress env s xs).finish, ∃ stem ∈ Label.branchStems, ∃ n,
      l = .generated stem n ∧ s.next ≤ n ∧ n < (progress env s xs).supply.next := by
    intro l hl
    rw [labels_finish] at hl
    exact Label.exists_of_drawn_pos
      (Nat.lt_of_lt_of_le (List.count_pos_iff.2 hl) (count_marks_progress_le env s xs l))
  have hnodup : (labels (progress env s xs).finish).Nodup := by
    rw [labels_finish, List.nodup_iff_count_le_one]
    exact fun l => Nat.le_trans (count_marks_progress_le env s xs l) (Label.drawn_le_one _ _ l)
  have hproper : ∀ l ∈ labels (progress env s xs).finish, l.Proper := by
    intro l hl
    obtain ⟨stem, hstem, n, rfl, -⟩ := hbranch l hl
    have hstems : ∀ stem ∈ Label.branchStems, isIdentifier stem = true := by decide
    exact hstems stem hstem
  refine ⟨fun ys x zs _ => ⟨emitted_prefix_progress ys [x], ?_⟩,
    Progress.emitted_prefix_finish _, ?_, hbranch, fun hok i hi hb => ?_⟩
  · rw [supply_progress_append]
    exact next_le_progress env _ [x]
  · exact hnodup.map_on fun l hl m hm => Label.text_injective (hproper l hl) (hproper m hm)
  · rw [labels_finish]
    exact (Assembled.ofStmts xs (yields_of_progress hok)).settled_branch hi hb

/-- One known name, and no routines. -/
def oneName : Env where
  resolve name := if name = "x" then some (.static (.plain "x")) else none
  routine := none
  result := none
  callee _ := none

/-- A loop that fails in its test, with its first label placed and both drawn; a conditional in a
conditional that fails in the inner alternative; an assignment, which gets the labels that wait; and
a loop. -/
def stumbling : List Stmt :=
  [.whileLoop 1 (.name "nowhere") [.pass 2],
    .ifElse 3 (.name "x") [.ifElse 4 (.name "x") [.pass 5] [.unsupported 6 "class"]] [.pass 7],
    .assign 8 [.name "x"] (.literal (.int 1)), .whileLoop 9 (.name "x") [.pass 10]]

theorem stumbling_keeps_labels_distinct :
    (progress oneName (.start 7) stumbling).results =
      [.error (.rejected (.unresolvedName "nowhere" none 1)),
        .error (.rejected (.unsupported "class" none 6)), .ok (), .ok ()] ∧
    labels (progress oneName (.start 7) stumbling).finish =
      [.generated "while" 7, .generated "else" 11, .generated "while" 13,
        .generated "endwhile" 14] ∧
    ((labels (progress oneName (.start 7) stumbling).finish).map Label.text).Nodup ∧
    (progress oneName (.start 7) (stumbling.take 2)).emitted <+:
      (progress oneName (.start 7) (stumbling.take 3)).emitted ∧
    ∀ i ∈ (progress oneName (.start 7) (stumbling.drop 2)).finish, i.opcode.isBranch = true →
      ∃ l, i.target? = some l ∧
        (l ∈ labels (progress oneName (.start 7) (stumbling.drop 2)).finish ∨
        ∃ cell, oneName.result = some (cell, l)) := by
  obtain ⟨hstep, -, hnodup, -⟩ := failures_keep_labels_distinct oneName (.start 7) stumbling
  obtain ⟨-, -, -, -, htargets⟩ :=
    failures_keep_labels_distinct oneName (.start 7) (stumbling.drop 2)
  exact ⟨by decide, by decide, hnodup, (hstep (stumbling.take 2) _ _ rfl).1, htargets (by decide)⟩

end Lowering
end TreeAsm

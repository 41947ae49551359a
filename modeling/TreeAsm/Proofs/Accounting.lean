import TreeAsm.Proofs.Acceptance
import TreeAsm.Proofs.LabelUniqueness

/-! How many numbers a script takes, counted in its text, and what becomes of them: each is the
number of one label of the program. Numbers run out exactly if the script takes more than there
are. -/
namespace TreeAsm

namespace Stmt

def isBranch : Stmt → Bool
  | .ifElse _ _ _ [] => true
  | _ => false

def isChoice : Stmt → Bool
  | .ifElse _ _ _ (_ :: _) => true
  | _ => false

def isLoop : Stmt → Bool
  | .whileLoop .. => true
  | _ => false

theorem drawn_eq (x : Stmt) : drawn x = (if isBranch x = true then 1 else 0) +
    2 * (if isChoice x = true then 1 else 0) + 2 * (if isLoop x = true then 1 else 0) := by
  cases x with
  | ifElse line test body orelse => cases orelse <;> rfl
  | _ => rfl

end Stmt

theorem Expr.labels_demands (e : Expr) : Demand.labels e.demands = 0 :=
  List.count_eq_zero.2 (by simp [demands])

theorem Expr.texts_demands (e : Expr) : Demand.texts e.demands = e.texts := by
  simp [Demand.texts, demands, List.filterMap_map, Function.comp_def, Demand.text?]

namespace Stmt

theorem labels_replicate (n : Nat) : Demand.labels (List.replicate n .number) = n :=
  List.count_replicate_self

theorem texts_replicate (n : Nat) : Demand.texts (List.replicate n .number) = [] := by
  simp [Demand.texts, List.filterMap_replicate, Demand.text?]

mutual

theorem labels_demands (x : Stmt) : Demand.labels x.demands =
    x.parts.countP isBranch + 2 * x.parts.countP isChoice + 2 * x.parts.countP isLoop := by
  match x with
  | .ifElse line test body orelse =>
    rw [demands, parts]
    simp only [Demand.labels_append, Expr.labels_demands, labels_replicate, drawn_eq,
      List.countP_cons, List.countP_append, labels_demandsAll body, labels_demandsAll orelse]
    omega
  | .whileLoop line test body =>
    rw [demands, parts]
    simp only [Demand.labels_cons_number, Demand.labels_append, Expr.labels_demands,
      List.countP_cons, labels_demandsAll body, isBranch, isChoice, isLoop, Bool.false_eq_true,
      if_false, if_true]
    omega
  | .ret line value =>
    cases value <;> simp [demands, parts, isBranch, isChoice, isLoop, Expr.labels_demands]
  | .assign .. | .update .. | .define .. | .eval .. | .pass _ | .unsupported .. =>
    simp [demands, parts, isBranch, isChoice, isLoop, Expr.labels_demands]

/-- The labels that a body takes numbers for are those of its conditionals and loops. -/
theorem labels_demandsAll (xs : List Stmt) :
    Demand.labels (demandsAll xs) =
      (partsAll xs).countP isBranch + 2 * (partsAll xs).countP isChoice + 2 *
      (partsAll xs).countP isLoop := by
  match xs with
  | [] => rfl
  | x :: r =>
    rw [demandsAll, partsAll, Demand.labels_append, labels_demands x, labels_demandsAll r]
    simp only [List.countP_append]
    omega

end

mutual

theorem texts_demands (x : Stmt) : Demand.texts x.demands = x.texts := by
  match x with
  | .ifElse line test body orelse =>
    simp [demands, texts, Expr.texts_demands, texts_replicate, texts_demandsAll body,
      texts_demandsAll orelse]
  | .whileLoop line test body => simp [demands, texts, Expr.texts_demands, texts_demandsAll body]
  | .ret line value => cases value <;> simp [demands, texts, Expr.texts_demands]
  | .assign .. | .update .. | .define .. | .eval .. | .pass _ | .unsupported .. =>
    simp [demands, texts, Expr.texts_demands]

theorem texts_demandsAll (xs : List Stmt) : Demand.texts (demandsAll xs) = textsAll xs := by
  match xs with
  | [] => rfl
  | x :: r => rw [demandsAll, textsAll, Demand.texts_append, texts_demands x, texts_demandsAll r]

end

end Stmt

namespace Script

/-- The code of the top level and that of the routines. -/
def bodies (s : Script) : List (List Stmt) := s.topLevel :: s.routines.map Routine.body

/-- All statements that code is generated for. -/
def statements (s : Script) : List Stmt := s.bodies.flatMap Stmt.partsAll

/-- How many numbers the script takes: one for a conditional without an alternative, two for one
with an alternative and for a loop, and one for each text among its string literals. -/
def need (s : Script) : Nat :=
  s.statements.countP Stmt.isBranch + 2 * s.statements.countP Stmt.isChoice + 2 *
    s.statements.countP Stmt.isLoop +
    (s.bodies.flatMap Stmt.textsAll).eraseDups.length

theorem demands_eq (s : Script) : s.demands = s.bodies.flatMap Stmt.demandsAll := by
  rw [demands, bodies, List.flatMap_cons, List.flatMap_map]

theorem labels_flatMap (bs : List (List Stmt)) :
    Demand.labels (bs.flatMap Stmt.demandsAll) =
      (bs.flatMap Stmt.partsAll).countP Stmt.isBranch + 2 *
      (bs.flatMap Stmt.partsAll).countP Stmt.isChoice +
        2 * (bs.flatMap Stmt.partsAll).countP Stmt.isLoop := by
  induction bs with
  | nil => rfl
  | cons xs r ih =>
    simp only [List.flatMap_cons, Demand.labels_append, ih, Stmt.labels_demandsAll,
      List.countP_append]
    omega

theorem texts_flatMap (bs : List (List Stmt)) :
    Demand.texts (bs.flatMap Stmt.demandsAll) = bs.flatMap Stmt.textsAll := by
  induction bs with
  | nil => rfl
  | cons xs r ih =>
    rw [List.flatMap_cons, List.flatMap_cons, Demand.texts_append, ih, Stmt.texts_demandsAll]

/-- What the script draws costs as many numbers as it needs. -/
theorem cost_demands (s : Script) (seed : Nat) : (Supply.start seed).cost s.demands = s.need := by
  rw [Supply.cost, demands_eq, labels_flatMap, texts_flatMap]
  exact congrArg (_ + List.length ·) (StringPool.missing_empty _)

end Script

namespace Label

/-- The stems of all generated labels. -/
def stems : List String := "str" :: branchStems

/-- The text is that of a generated label with this number. -/
def isNumbered (n : Nat) (text : String) : Bool := text ∈ stems.map (· ++ "." ++ toString n)

theorem isNumbered_text_iff {l : Label} (h : l.Proper) {n : Nat} :
    isNumbered n l.text = true ↔ ∃ stem ∈ stems, l = .generated stem n := by
  have hs : ∀ stem ∈ stems, isIdentifier stem = true := by decide
  rw [isNumbered, decide_eq_true_iff, List.mem_map]
  constructor
  · rintro ⟨stem, hm, ht⟩
    exact ⟨stem, hm, text_injective h (hs stem hm : (generated stem n).Proper) ht.symm⟩
  · rintro ⟨stem, hm, rfl⟩
    exact ⟨stem, hm, rfl⟩

end Label

namespace Build

variable {s : Script} {source : String} {seed : Nat} {p : Program} (b : Build s source seed p)

/-- Texts of proper labels are distinct, so that one of another kind does not look like a generated
one. -/
theorem countP_namedLabels (hn : s.Named) (n : Nat) :
    b.namedLabels.countP (fun l => Label.isNumbered n l.text) = 0 := by
  refine List.countP_eq_zero.2 fun l hl ht => ?_
  obtain ⟨stem, -, rfl⟩ := (Label.isNumbered_text_iff (b.proper_of_mem_namedLabels hn l hl)).1 ht
  rcases List.mem_append.1 hl with hl | hl
  · simp at hl
  · simp [Frame.ownLabels] at hl

theorem countP_numberedLabels (n : Nat) :
    b.numberedLabels.countP (fun l => Label.isNumbered n l.text) =
      (b.numberedLabels.filterMap Label.number?).count n := by
  rw [List.count_filterMap]
  refine List.countP_congr fun l hl => ?_
  rw [Label.isNumbered_text_iff (b.proper_of_mem_numberedLabels l hl)]
  obtain ⟨stem, hs, k, rfl⟩ := b.generated_of_mem_numberedLabels l hl
  simp only [Label.number?, Label.generated.injEq, beq_iff_eq, Option.some.injEq]
  constructor
  · rintro ⟨_, -, -, hk⟩
    exact hk
  · intro hk
    exact ⟨stem, hs, rfl, hk⟩

/-- From the seed on up to where the numbering ends, each number is that of one label. -/
theorem countP_labels (hn : s.Named) (n : Nat) :
    (Code.labels p.instructions).countP (fun l => Label.isNumbered n l.text) =
      if seed ≤ n ∧ n < b.final.next then 1 else 0 := by
  obtain ⟨new, he, hc⟩ := b.spends.count_eq
  have hnew : b.final.strings.entries = new := he
  have hk : _ = if seed ≤ n ∧ n < b.final.next then 1 else 0 := hc n
  rw [b.labels_perm.countP_eq, List.countP_append, b.countP_namedLabels hn, b.countP_numberedLabels,
    b.filterMap_number?_numberedLabels, List.count_append, hnew, ← hk]
  omega

end Build

namespace Script

/-- A well-formed script runs out of numbers exactly if it needs more than are left. Otherwise it
compiles, the numbering goes on behind what it needs, and each number in between is that of one
label. -/
theorem numbers_accounted {s : Script} (hn : s.Named) (hw : s.WellFormed) (hfit : s.FramesFit)
    {seed : Nat} (hseed : seed ≤ Label.numberLimit) (source : String) :
    ((s.compileFrom source seed).result = .error .labelsExhausted ↔
      Label.numberLimit < seed + s.need) ∧
      (seed + s.need ≤ Label.numberLimit → ∃ p, (s.compileFrom source seed).result = .ok p ∧
        (s.compileFrom source seed).next = seed + s.need ∧
        ∀ n, (Code.labels p.instructions).countP (fun l => Label.isNumbered n l.text) =
          if seed ≤ n ∧ n < seed + s.need then 1 else 0) := by
  have hspec := Supply.serveAll?_spec (s := .start seed) hseed s.demands
  rw [s.cost_demands] at hspec
  rcases hw.compiles_or_exhausts hfit source seed with ⟨t, p, ht, hp, hnext⟩ | ⟨ht, he⟩
  · rcases hspec with ⟨t', ht', htnext, hle⟩ | ⟨hnone, -⟩
    · obtain rfl : t = t' := Option.some.inj (ht.symm.trans ht')
      have hle : seed + s.need ≤ Label.numberLimit := hle
      have hnext : (s.compileFrom source seed).next = seed + s.need := hnext.trans htnext
      refine ⟨?_, fun _ => ⟨p, hp, hnext, fun n => ?_⟩⟩
      · rw [hp]
        simp only [reduceCtorEq, false_iff]
        omega
      · obtain ⟨b⟩ := Build.nonempty hp
        rw [← hnext, b.next_eq]
        exact b.countP_labels hn n
    · simp [ht] at hnone
  · rcases hspec with ⟨t', ht', -⟩ | ⟨-, hlt⟩
    · simp [ht] at ht'
    · have hlt : Label.numberLimit < seed + s.need := hlt
      exact ⟨⟨fun _ => hlt, fun _ => he⟩, fun hle => absurd hle (by omega)⟩

/-- Six numbers, of which the last one that there is can be the sixth. -/
theorem standIn_numbers_accounted :
    standIn.Named ∧ standIn.WellFormed ∧ standIn.FramesFit ∧ standIn.need = 6 ∧
    (standIn.compileFrom "standIn" 4294967290).result = .error .labelsExhausted ∧
    ∃ p, (standIn.compileFrom "standIn" 4294967289).result = .ok p ∧
      (standIn.compileFrom "standIn" 4294967289).next = Label.numberLimit ∧
      (Code.labels p.instructions).countP (fun l => Label.isNumbered 4294967294 l.text) = 1 := by
  have hn : standIn.Named := ⟨by decide, by decide, by decide, by decide⟩
  have hw : standIn.WellFormed := wellFormed_of_compiles standIn_compiles.choose_spec
  have hneed : standIn.need = 6 := by decide
  have hover := numbers_accounted hn hw standIn_framesFit
    (show 4294967290 ≤ Label.numberLimit by decide) "standIn"
  have hlast := numbers_accounted hn hw standIn_framesFit
    (show 4294967289 ≤ Label.numberLimit by decide) "standIn"
  rw [hneed] at hover hlast
  obtain ⟨p, hp, hnext, hcount⟩ := hlast.2 (by decide)
  exact ⟨hn, hw, standIn_framesFit, hneed, hover.1.2 (by decide), p, hp, hnext, hcount 4294967294⟩

end Script
end TreeAsm

import TreeAsm.Binary64.Text
import TreeAsm.Json.Printer
import TreeAsm.Json.Token
import TreeAsm.Proofs.LabelText
import TreeAsm.Proofs.Rounding

/-! Numbers read back as they were written. What is written is the text of a numeral, whose parts
the reader finds again; and the numeral of a real has the value of the real's shortest decimal,
although zeros were dropped at its end and others put in on either side. -/
namespace TreeAsm

theorem head?_natText {n : ℕ} (h : n ≠ 0) : (natText n).head? ≠ some '0' := by
  induction n using Nat.strongRecOn with
  | ind n ih =>
    by_cases hn : n < 10
    · simpa [natText, Nat.toDigits_of_lt_base hn] using h
    · have hpos : n / 10 ≠ 0 := by omega
      have hlt : n / 10 < n := by omega
      have happend : natText n = natText (n / 10) ++ [Nat.digitChar (n % 10)] :=
        Nat.toDigits_of_base_le (by decide) (not_lt.1 hn)
      rw [happend, List.head?_append_of_ne_nil _ (natText_ne_nil _)]
      exact ih _ hlt hpos

namespace Sign

def chars : Sign → List Char
  | .absent => []
  | .plus => ['+']
  | .minus => ['-']

@[simp] theorem chars_absent : chars .absent = [] := rfl

@[simp] theorem chars_plus : chars .plus = ['+'] := rfl

@[simp] theorem chars_minus : chars .minus = ['-'] := rfl

theorem split_chars (s : Sign) {r : List Char} (hr : ∀ c ∈ r.head?, c.isDigit = true) :
    split (s.chars ++ r) = (s, r) := by
  cases s with
  | plus => rfl
  | minus => rfl
  | absent =>
    have hplus : r.head? ≠ some '+' := fun h => by simpa using hr _ h
    have hminus : r.head? ≠ some '-' := fun h => by simpa using hr _ h
    show split r = _
    unfold split
    split
    · simp at hplus
    · simp at hminus
    · rfl

def ofInt (n : ℤ) : Sign := if n < 0 then .minus else .absent

theorem chars_ofInt (n : ℤ) : (ofInt n).chars ++ natText n.natAbs = intText n := by
  cases n with
  | ofNat n =>
    have hn : ofInt (Int.ofNat n) = .absent := if_neg (by simp)
    rw [hn]
    rfl
  | negSucc n => simp [ofInt, intText, Int.negSucc_lt_zero]

theorem apply_ofInt (n : ℤ) : (ofInt n).apply n.natAbs = n := by
  by_cases hn : n < 0
  · simp only [ofInt, if_pos hn, apply, if_true]
    omega
  · simp only [ofInt, if_neg hn, apply, reduceCtorEq, if_false]
    omega

end Sign

/-- A run of characters ends where something else begins. -/
theorem Text.span_append {p : Char → Bool} {cs r : List Char} (hcs : ∀ c ∈ cs, p c = true)
    (hr : ∀ c ∈ r.head?, p c = false) : (cs ++ r).takeWhile p = cs ∧ (cs ++ r).dropWhile p = r := by
  rw [List.takeWhile_append_of_pos hcs, List.dropWhile_append_of_pos hcs]
  cases r with
  | nil => simp
  | cons c t => simp [hr c rfl]

namespace Numeral

/-- The text of a number, with its parts in their order. -/
def chars (n : Numeral) : List Char :=
  n.sign.chars ++ (n.whole ++ ((n.fraction.map ('.' :: ·)).getD [] ++
    (n.exponent.map fun x => 'e' :: (x.1.chars ++ x.2)).getD []))

/-- The parts hold digits, and there are some in front of the point. -/
structure Spelled (n : Numeral) : Prop where
  whole : ∀ c ∈ n.whole, c.isDigit = true
  whole_ne_nil : n.whole ≠ []
  fraction : ∀ ds ∈ n.fraction, ∀ c ∈ ds, c.isDigit = true
  exponent : ∀ x ∈ n.exponent, ∀ c ∈ x.2, c.isDigit = true

theorem readExponent_chars {x : Option (Sign × List Char)}
    (h : ∀ y ∈ x, ∀ c ∈ y.2, c.isDigit = true) :
    readExponent ((x.map fun y => 'e' :: (y.1.chars ++ y.2)).getD []) = some x := by
  cases x with
  | none => rfl
  | some y =>
    have hd := h y rfl
    have hs : Sign.split (y.1.chars ++ y.2) = y :=
      y.1.split_chars fun c hc => hd c (List.mem_of_mem_head? hc)
    have hall : y.2.all Char.isDigit = true := List.all_eq_true.2 hd
    simp [readExponent, hs, hall]

theorem splitFraction_chars {x : Option (List Char)} {r : List Char}
    (h : ∀ ds ∈ x, ∀ c ∈ ds, c.isDigit = true) (hr : ∀ c ∈ r.head?, c.isDigit = false ∧ c ≠ '.') :
    splitFraction ((x.map ('.' :: ·)).getD [] ++ r) = (x, r) := by
  cases x with
  | none =>
    have hdot : r.head? ≠ some '.' := fun hc => (hr _ hc).2 rfl
    show splitFraction r = _
    unfold splitFraction
    split
    · simp at hdot
    · rfl
  | some ds =>
    have hd := h ds rfl
    obtain ⟨htake, hdrop⟩ := Text.span_append (h ds rfl) fun c hc => (hr c hc).1
    simp [splitFraction, htake, hdrop]

theorem read?_chars {n : Numeral} (h : n.Spelled) : read? n.chars = some n := by
  have hexp : ∀ c ∈ ((n.exponent.map fun x => 'e' :: (x.1.chars ++ x.2)).getD []).head?,
      c.isDigit = false ∧ c ≠ '.' := by
    intro c hc
    cases hx : n.exponent with
    | none => simp [hx] at hc
    | some x =>
      obtain rfl : 'e' = c := by simpa [hx] using hc
      decide
  have hrest : ∀ c ∈ ((n.fraction.map ('.' :: ·)).getD [] ++
      (n.exponent.map fun x => 'e' :: (x.1.chars ++ x.2)).getD []).head?, c.isDigit = false := by
    intro c hc
    cases hx : n.fraction with
    | none => exact (hexp c (by simpa [hx] using hc)).1
    | some ds =>
      obtain rfl : '.' = c := by simpa [hx] using hc
      decide
  have hsign : Sign.split n.chars = (n.sign, _) := n.sign.split_chars fun c hc => by
    rw [List.head?_append_of_ne_nil _ h.whole_ne_nil] at hc
    exact h.whole c (List.mem_of_mem_head? hc)
  obtain ⟨htake, hdrop⟩ := Text.span_append h.whole hrest
  unfold read?
  simp only [hsign, htake, hdrop, splitFraction_chars h.fraction hexp,
    readExponent_chars h.exponent, Option.map_some]

theorem digitsValue_padded (a b : ℕ) (ds : List Char) :
    digitsValue (List.replicate a '0' ++ ds ++ List.replicate b '0') = digitsValue ds * 10 ^ b := by
  simp [digitsValue, Nat.ofDigitChars_append, Nat.mul_comm]

/-- Zeros on either side of the digits only move the point. -/
theorem value_of_padded {n : Numeral} {ds : List Char} {a b : ℕ} {e : ℤ}
    (h : n.whole ++ n.fractionDigits = List.replicate a '0' ++ ds ++ List.replicate b '0')
    (he : n.exponentValue - n.fractionDigits.length + b = e) :
    n.decimal.value = digitsValue ds * 10 ^ e := by
  have hten : (10 : ℚ) ≠ 0 := by norm_num
  unfold decimal Decimal.value
  rw [h, digitsValue_padded, ← he, zpow_add₀ hten, zpow_natCast]
  push_cast
  ring

end Numeral

namespace Binary64.Format

theorem eq_stripZeros_append (ds : List Char) :
    ∃ z, ds = stripZeros ds ++ List.replicate z '0' := by
  refine ⟨(ds.reverse.takeWhile (· = '0')).length, ?_⟩
  have hzeros : ds.reverse.takeWhile (· = '0') =
      List.replicate (ds.reverse.takeWhile (· = '0')).length '0' := by
    refine List.eq_replicate_of_mem fun c hc => ?_
    simpa using List.all_eq_true.1 List.all_takeWhile c hc
  have hsplit : ds.reverse = ds.reverse.takeWhile (· = '0') ++ ds.reverse.dropWhile (· = '0') :=
    List.takeWhile_append_dropWhile.symm
  have hreverse := congrArg List.reverse hsplit
  rw [List.reverse_reverse, List.reverse_append, hzeros, List.reverse_replicate] at hreverse
  exact hreverse

/-- Digits with no zero in front. -/
structure Significant (ds : List Char) : Prop where
  digits : ∀ c ∈ ds, c.isDigit = true
  ne_nil : ds ≠ []
  head : ds.head? ≠ some '0'

theorem significant_stripZeros {n : ℕ} (h : n ≠ 0) : Significant (stripZeros (natText n)) := by
  obtain ⟨z, hz⟩ := eq_stripZeros_append (natText n)
  have hhead := head?_natText h
  have hne : stripZeros (natText n) ≠ [] := by
    intro hnil
    rw [hnil, List.nil_append] at hz
    cases z with
    | zero => exact natText_ne_nil n hz
    | succ z => exact hhead (by rw [hz]; rfl)
  refine ⟨fun c hc => isDigit_of_mem_natText (n := n) ?_, hne, ?_⟩
  · rw [hz]
    exact List.mem_append_left _ hc
  · rwa [hz, List.head?_append_of_ne_nil _ hne] at hhead

/-- The text is that of a numeral that has no sign, but a point or an exponent. -/
structure Spells (n : Numeral) (cs : List Char) : Prop where
  chars : n.chars = cs
  sign : n.sign = .absent
  spelled : n.Spelled
  wellSpelled : Json.Number.wellSpelled n = true
  isWhole : n.isWhole = false

theorem isDigit_of_mem_replicate {k : ℕ} {c : Char} (h : c ∈ List.replicate k '0') :
    c.isDigit = true := by
  obtain rfl := (List.mem_replicate.1 h).2
  decide

/-- A fraction: zeros stand between the point and the digits. -/
theorem exists_fraction {ds : List Char} (h : Significant ds) {leading : ℤ} (hl : leading < 0) :
    ∃ n : Numeral, Spells n (positional ds leading) ∧
      n.decimal.value = digitsValue ds * 10 ^ (leading + 1 - ds.length) := by
  refine ⟨⟨.absent, ['0'], some (List.replicate (-leading - 1).toNat '0' ++ ds), none⟩,
    ⟨?_, rfl, ?_, ?_, rfl⟩, ?_⟩
  · simp [Numeral.chars, positional, hl]
  · refine ⟨by simp, by simp, fun x hx c hc => ?_, by simp⟩
    obtain rfl : _ = x := Option.some.inj hx
    exact (List.mem_append.1 hc).elim isDigit_of_mem_replicate (h.digits c)
  · simp [Json.Number.wellSpelled, h.ne_nil]
  · refine Numeral.value_of_padded (a := (-leading - 1).toNat + 1) (b := 0) ?_ ?_
    · simp [Numeral.fractionDigits, List.replicate_succ]
    · simp [Numeral.fractionDigits, Numeral.exponentValue]
      omega

/-- A whole number: zeros stand between the digits and the point. -/
theorem exists_whole {ds : List Char} (h : Significant ds) {w : ℕ} (hw : ds.length ≤ w + 1) :
    ∃ n : Numeral, Spells n (positional ds w) ∧
      n.decimal.value = digitsValue ds * 10 ^ ((w : ℤ) + 1 - ds.length) := by
  refine ⟨⟨.absent, ds ++ List.replicate (w + 1 - ds.length) '0', some ['0'], none⟩,
    ⟨?_, rfl, ?_, ?_, rfl⟩, ?_⟩
  · simp [Numeral.chars, positional, hw, List.take_of_length_le hw]
  · refine ⟨fun c hc => ?_, by simp [h.ne_nil], by simp, by simp⟩
    exact (List.mem_append.1 hc).elim (h.digits c) isDigit_of_mem_replicate
  · simp [Json.Number.wellSpelled, h.ne_nil, h.head]
  · refine Numeral.value_of_padded (a := 0) (b := w + 1 - ds.length + 1) ?_ ?_
    · simp [Numeral.fractionDigits, List.replicate_succ']
    · simp [Numeral.fractionDigits, Numeral.exponentValue]
      omega

/-- The point stands between two of the digits. -/
theorem exists_mixed {ds : List Char} (h : Significant ds) {w : ℕ} (hw : w + 1 < ds.length) :
    ∃ n : Numeral, Spells n (positional ds w) ∧
      n.decimal.value = digitsValue ds * 10 ^ ((w : ℤ) + 1 - ds.length) := by
  have htake : ds.take (w + 1) ≠ [] := by simp [h.ne_nil]
  have hdrop : ds.drop (w + 1) ≠ [] := by
    rw [Ne, List.drop_eq_nil_iff]
    omega
  refine ⟨⟨.absent, ds.take (w + 1), some (ds.drop (w + 1)), none⟩, ⟨?_, rfl, ?_, ?_, rfl⟩, ?_⟩
  · have hzero : w + 1 - ds.length = 0 := by omega
    have hleading : ¬ (w : ℤ) < 0 := by omega
    simp [Numeral.chars, positional, hleading, not_le.2 hw, hzero]
  · refine ⟨fun c hc => h.digits c (List.mem_of_mem_take hc), htake, fun x hx c hc => ?_, by simp⟩
    obtain rfl : _ = x := Option.some.inj hx
    exact h.digits c (List.mem_of_mem_drop hc)
  · have hhead : (ds.take (w + 1)).head? ≠ some '0' := by simpa [List.head?_take] using h.head
    simp [Json.Number.wellSpelled, hhead, htake, hdrop]
  · refine Numeral.value_of_padded (a := 0) (b := 0) ?_ ?_
    · simp [Numeral.fractionDigits]
    · simp [Numeral.fractionDigits, Numeral.exponentValue]
      omega

theorem exists_positional {ds : List Char} (h : Significant ds) (leading : ℤ) :
    ∃ n : Numeral, Spells n (positional ds leading) ∧
      n.decimal.value = digitsValue ds * 10 ^ (leading + 1 - ds.length) := by
  by_cases hl : leading < 0
  · exact exists_fraction h hl
  · obtain ⟨w, rfl⟩ := Int.eq_ofNat_of_zero_le (not_lt.1 hl)
    by_cases hw : ds.length ≤ w + 1
    · exact exists_whole h hw
    · exact exists_mixed h (not_le.1 hw)

/-- Some formats have a plus in front of the exponent. -/
theorem exists_exponentSign (f : Format) (leading : ℤ) : ∃ sign : Sign,
    sign.chars ++ natText leading.natAbs =
      (if f.plusSign ∧ 0 ≤ leading then ['+'] else []) ++ intText leading ∧
    sign.apply leading.natAbs = leading := by
  rw [← Sign.chars_ofInt]
  by_cases hp : f.plusSign ∧ 0 ≤ leading
  · have habsent : Sign.ofInt leading = .absent := if_neg (not_lt.2 hp.2)
    exact ⟨.plus, by simp [hp, habsent], by simp [Sign.apply, Int.natAbs_of_nonneg hp.2]⟩
  · exact ⟨.ofInt leading, by simp [hp], Sign.apply_ofInt leading⟩

theorem exists_scientific (f : Format) {ds : List Char} (h : Significant ds) (leading : ℤ) :
    ∃ n : Numeral, Spells n (f.scientific ds leading) ∧
      n.decimal.value = digitsValue ds * 10 ^ (leading + 1 - ds.length) := by
  obtain ⟨d, r, rfl⟩ := List.exists_cons_of_ne_nil h.ne_nil
  have hd : d.isDigit = true := h.digits d List.mem_cons_self
  have hzero : d ≠ '0' := by simpa using h.head
  obtain ⟨sign, hchars, hvalue⟩ := f.exists_exponentSign leading
  refine ⟨⟨.absent, [d], if r = [] then none else some r, some (sign, natText leading.natAbs)⟩,
    ⟨?_, rfl, ?_, ?_, by simp [Numeral.isWhole]⟩, ?_⟩
  · cases r <;> simp [Numeral.chars, scientific, hchars]
  · refine ⟨by simp [hd], by simp, fun x hx c hc => ?_, fun x hx c hc => ?_⟩
    · by_cases hr : r = []
      · simp [hr] at hx
      · obtain rfl : r = x := by simpa [hr] using hx
        exact h.digits c (List.mem_cons_of_mem _ hc)
    · obtain rfl : _ = x := Option.some.inj hx
      exact isDigit_of_mem_natText hc
  · by_cases hr : r = [] <;> simp [Json.Number.wellSpelled, hzero, natText_ne_nil, hr]
  · refine Numeral.value_of_padded (a := 0) (b := 0) ?_ ?_
    · by_cases hr : r = [] <;> simp [Numeral.fractionDigits, hr]
    · by_cases hr : r = [] <;> simp [Numeral.fractionDigits, Numeral.exponentValue, hvalue, hr]

theorem exists_decimal (f : Format) {d : Decimal} (h : d.coefficient ≠ 0) :
    ∃ n : Numeral, Spells n (f.decimal d) ∧ n.decimal.value = d.value := by
  have hten : (10 : ℚ) ≠ 0 := by norm_num
  obtain ⟨z, hz⟩ := eq_stripZeros_append (natText d.coefficient)
  have hds := significant_stripZeros h
  have hlength := congrArg List.length hz
  rw [List.length_append, List.length_replicate] at hlength
  have hcoefficient :
      d.coefficient = digitsValue (stripZeros (natText d.coefficient)) * 10 ^ z := by
    have hpadded := Numeral.digitsValue_padded 0 z (stripZeros (natText d.coefficient))
    rwa [List.replicate_zero, List.nil_append, ← hz, digitsValue_natText] at hpadded
  generalize hl : d.exponent + (natText d.coefficient).length - 1 = leading
  have hvalue : (digitsValue (stripZeros (natText d.coefficient)) : ℚ) *
      10 ^ (leading + 1 - (stripZeros (natText d.coefficient)).length) = d.value := by
    have hexp : leading + 1 - (stripZeros (natText d.coefficient)).length = z + d.exponent := by
      omega
    unfold Decimal.value
    rw [hexp, zpow_add₀ hten, zpow_natCast, ← mul_assoc]
    congr 1
    exact_mod_cast hcoefficient.symm
  unfold decimal
  simp only [hl]
  rw [← hvalue]
  split
  · exact exists_positional hds leading
  · exact f.exists_scientific hds leading

/-- A decimal that is read as a value other than zero has a coefficient. -/
theorem coefficient_ne_zero {negative : Bool} {x : Finite} {d : Decimal}
    (h : Finite.ofDecimal? negative d = some x) (hx : x.rank.val ≠ 0) : d.coefficient ≠ 0 := by
  intro hc
  have hrank : decimalRank d = 0 := by simp [decimalRank, hc]
  simp only [Finite.ofDecimal?, hrank] at h
  split at h
  · exact hx (by rw [← Option.some.inj h])
  · exact absurd h (by simp)

theorem exists_magnitude (f : Format) (x : Finite) : ∃ n : Numeral,
    Spells n (if x.rank.val = 0 then ['0', '.', '0'] else f.decimal (x.shortest f.tie)) ∧
      Finite.ofDecimal? x.negative n.decimal = some x := by
  by_cases hz : x.rank.val = 0
  · obtain ⟨negative, rank⟩ := x
    obtain rfl : rank = ⟨0, by decide⟩ := Fin.ext hz
    have hspelled : Numeral.Spelled ⟨.absent, ['0'], some ['0'], none⟩ :=
      ⟨by simp, by simp, by simp, by simp⟩
    exact ⟨⟨.absent, ['0'], some ['0'], none⟩, ⟨rfl, rfl, hspelled, rfl, rfl⟩, rfl⟩
  · have hshortest := ofDecimal?_shortest x f.tie
    obtain ⟨n, hn, hvalue⟩ := f.exists_decimal (coefficient_ne_zero hshortest hz)
    rw [if_neg hz]
    exact ⟨n, hn, (ofDecimal?_congr _ hvalue).trans hshortest⟩

/-- The numeral of a magnitude, with a minus in front if the number is negative. -/
def signed (n : Numeral) (negative : Bool) : Numeral :=
  { n with sign := if negative then .minus else .absent }

theorem Spells.chars_signed {n : Numeral} {cs : List Char} (h : Spells n cs) (negative : Bool) :
    (signed n negative).chars = (if negative then ['-'] else []) ++ cs := by
  have hsign := h.sign
  rw [← h.chars]
  cases negative <;> simp [signed, Numeral.chars, hsign]

theorem Spells.spelled_signed {n : Numeral} {cs : List Char} (h : Spells n cs) (negative : Bool) :
    (signed n negative).Spelled :=
  ⟨h.spelled.whole, h.spelled.whole_ne_nil, h.spelled.fraction, h.spelled.exponent⟩

theorem Spells.wellSpelled_signed {n : Numeral} {cs : List Char} (h : Spells n cs)
    (negative : Bool) :
    Json.Number.wellSpelled (signed n negative) = true := by
  have hsign := h.sign
  have hwell := h.wellSpelled
  cases negative <;> simpa [signed, Json.Number.wellSpelled, hsign] using hwell

theorem negative_signed (n : Numeral) (negative : Bool) :
    (signed n negative).negative = negative := by
  cases negative <;> rfl

end Binary64.Format

namespace Json.Number

open Binary64

/-- An integer that is read again has at most 64 bits. -/
def Fits : Number → Prop
  | .int n => fits n = true
  | .real _ => True

/-- The text is that of a numeral for the number. -/
structure Denotes (m : Numeral) (cs : List Char) (n : Number) : Prop where
  chars : m.chars = cs
  spelled : m.Spelled
  wellSpelled : wellSpelled m = true
  ofNumeral? : ofNumeral? m = some n

theorem exists_denotes_real (f : Format) (x : Finite) : ∃ m, Denotes m (f.finite x) (.real x) := by
  obtain ⟨n, hn, hof⟩ := f.exists_magnitude x
  have hwhole : (Format.signed n x.negative).isWhole = false := hn.isWhole
  have hdecimal : Finite.ofDecimal? x.negative (Format.signed n x.negative).decimal = some x := hof
  refine ⟨Format.signed n x.negative, hn.chars_signed _, hn.spelled_signed _,
    hn.wellSpelled_signed _, ?_⟩
  simp [Number.ofNumeral?, hwhole, Format.negative_signed, hdecimal]

theorem exists_denotes_int {n : ℤ} (h : fits n = true) : ∃ m, Denotes m (intText n) (.int n) := by
  refine ⟨⟨.ofInt n, natText n.natAbs, none, none⟩, ?_, ?_, ?_, ?_⟩
  · rw [← Sign.chars_ofInt]
    simp [Numeral.chars]
  · exact ⟨fun c hc => isDigit_of_mem_natText hc, natText_ne_nil _, by simp, by simp⟩
  · have hsign : Sign.ofInt n ≠ .plus := by
      unfold Sign.ofInt
      split <;> simp
    have hwhole : natText n.natAbs = ['0'] ∨ (natText n.natAbs).head? ≠ some '0' := by
      by_cases hz : n.natAbs = 0
      · exact .inl (by rw [hz]; rfl)
      · exact .inr (head?_natText hz)
    simp [Number.wellSpelled, hsign, natText_ne_nil, hwhole]
  · have hvalue : (Sign.ofInt n).apply (digitsValue (natText n.natAbs)) = n := by
      rw [digitsValue_natText, Sign.apply_ofInt]
    have hnegative : (Numeral.negative ⟨.ofInt n, natText n.natAbs, none, none⟩ && decide (n = 0)) =
        false := by
      by_cases hz : n = 0
      · subst hz
        rfl
      · simp [hz]
    simp only [Number.ofNumeral?, hvalue, h, hnegative]
    rfl

theorem exists_denotes {n : Number} (h : n.Fits) : ∃ m, Denotes m n.chars n := by
  cases n with
  | int n => exact exists_denotes_int h
  | real x => exact exists_denotes_real realFormat x

theorem Denotes.read? {m : Numeral} {cs : List Char} {n : Number} (h : Denotes m cs n) :
    Number.read? cs = some n := by
  unfold Number.read?
  rw [← h.chars, Numeral.read?_chars h.spelled]
  simp [h.wellSpelled, h.ofNumeral?]

theorem Denotes.isNumberChar {m : Numeral} {cs : List Char} {n : Number} (h : Denotes m cs n)
    {c : Char} (hc : c ∈ cs) : Token.isNumberChar c = true := by
  have hsign : ∀ s : Sign, c ∈ s.chars → Token.isNumberChar c = true := by
    intro s hs
    cases s <;> simp at hs <;> subst hs <;> decide
  have hdigit : c.isDigit = true → Token.isNumberChar c = true :=
    fun hd => by simp [Token.isNumberChar, hd]
  rw [← h.chars] at hc
  simp only [Numeral.chars, List.mem_append] at hc
  rcases hc with hc | hc | hc | hc
  · exact hsign _ hc
  · exact hdigit (h.spelled.whole c hc)
  · cases hf : m.fraction with
    | none => simp [hf] at hc
    | some ds =>
      rw [hf, Option.map_some, Option.getD_some, List.mem_cons] at hc
      rcases hc with rfl | hc
      · decide
      · exact hdigit (h.spelled.fraction ds hf c hc)
  · cases he : m.exponent with
    | none => simp [he] at hc
    | some x =>
      rw [he, Option.map_some, Option.getD_some, List.mem_cons, List.mem_append] at hc
      rcases hc with rfl | hc | hc
      · decide
      · exact hsign _ hc
      · exact hdigit (h.spelled.exponent x he c hc)

/-- A number begins with a digit or a minus. -/
theorem Denotes.exists_cons {m : Numeral} {cs : List Char} {n : Number} (h : Denotes m cs n) :
    ∃ c r, cs = c :: r ∧ (c.isDigit = true ∨ c = '-') := by
  obtain ⟨d, r, hd⟩ := List.exists_cons_of_ne_nil h.spelled.whole_ne_nil
  have hwell := h.wellSpelled
  have hdigit : d.isDigit = true := h.spelled.whole d (by rw [hd]; exact List.mem_cons_self)
  rw [← h.chars]
  unfold Numeral.chars
  cases hs : m.sign with
  | absent => exact ⟨d, _, by rw [hd]; rfl, .inl hdigit⟩
  | minus => exact ⟨'-', _, rfl, .inr rfl⟩
  | plus => simp [Number.wellSpelled, hs] at hwell

end Json.Number
end TreeAsm

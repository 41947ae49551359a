import Mathlib.Algebra.Order.Field.Power
import Mathlib.Data.Int.Log
import Mathlib.Data.Rat.Floor
import Mathlib.Tactic.FieldSimp
import Mathlib.Tactic.Linarith
import Mathlib.Tactic.NormNum
import Mathlib.Tactic.Positivity
import Mathlib.Tactic.Ring
import TreeAsm.Binary64.Shortest

/-! Rounding a decimal to the nearest double. The computation is on quotients of naturals; here it
is shown to depend on the number alone and to give every double back from its own value. Hence the
shortest decimal reads back, also where the search for it ends with the exact one. -/
namespace TreeAsm

namespace Decimal

/-- The number itself. -/
def value (d : Decimal) : ℚ := d.coefficient * 10 ^ d.exponent

theorem ratio_eq_value (d : Decimal) : (d.ratio.1 : ℚ) / d.ratio.2 = d.value := by
  unfold ratio value
  split
  · next h =>
    obtain ⟨n, hn⟩ := Int.eq_ofNat_of_zero_le h
    simp [hn]
  · next h =>
    obtain ⟨n, hn⟩ : ∃ n : ℕ, d.exponent = -(n : ℤ) := ⟨(-d.exponent).toNat, by omega⟩
    simp [hn, div_eq_mul_inv]

end Decimal

namespace Binary64

namespace Finite

/-- The magnitude of the number. -/
def value (x : Finite) : ℚ := x.significand * 2 ^ x.scale

theorem value_exact (x : Finite) : x.exact.value = x.value := by
  unfold exact value Decimal.value
  split
  · next h =>
    obtain ⟨n, hn⟩ := Int.eq_ofNat_of_zero_le h
    simp [hn]
  · next h =>
    obtain ⟨n, hn⟩ : ∃ n : ℕ, x.scale = -(n : ℤ) := ⟨(-x.scale).toNat, by omega⟩
    have h10 : (10 : ℚ) ^ n = 2 ^ n * 5 ^ n := by rw [← mul_pow]; norm_num
    simp only [hn, neg_neg, Int.toNat_natCast, zpow_neg, zpow_natCast, Nat.pow_eq,
      Nat.cast_mul, Nat.cast_pow]
    rw [h10]
    field_simp
    norm_num

end Finite

section Round

theorem roundHalfEven_mul_left (num den : ℕ) {k : ℕ} (hk : 0 < k) :
    roundHalfEven (k * num) (k * den) = roundHalfEven num den := by
  unfold roundHalfEven
  simp only [Nat.mul_div_mul_left _ _ hk, Nat.mul_mod_mul_left]
  have h₁ : 2 * (k * (num % den)) < k * den ↔ 2 * (num % den) < den := by
    rw [Nat.mul_left_comm]
    exact Nat.mul_lt_mul_left hk
  have h₂ : k * den < 2 * (k * (num % den)) ↔ den < 2 * (num % den) := by
    rw [Nat.mul_left_comm]
    exact Nat.mul_lt_mul_left hk
  simp only [h₁, h₂]

/-- The result depends on the quotient only. -/
theorem roundHalfEven_congr {a b c d : ℕ} (hb : 0 < b) (hd : 0 < d)
    (h : (a : ℚ) / b = (c : ℚ) / d) :
    roundHalfEven a b = roundHalfEven c d := by
  have hb' : (b : ℚ) ≠ 0 := by positivity
  have hd' : (d : ℚ) ≠ 0 := by positivity
  have hcross : d * a = b * c := by
    rw [div_eq_div_iff hb' hd'] at h
    have h : (d : ℚ) * a = b * c := by linarith
    exact_mod_cast h
  rw [← roundHalfEven_mul_left a b hd, ← roundHalfEven_mul_left c d hb, hcross, Nat.mul_comm d b]

@[simp] theorem roundHalfEven_one (n : ℕ) : roundHalfEven n 1 = n := by
  simp [roundHalfEven, Nat.mod_one]

theorem roundHalfEven_eq_zero {num den : ℕ} (h : 2 * num ≤ den) (hd : 0 < den) :
    roundHalfEven num den = 0 := by
  have hlt : num < den := by omega
  have hq : num / den = 0 := Nat.div_eq_of_lt hlt
  have hr : num % den = num := Nat.mod_eq_of_lt hlt
  simp only [roundHalfEven, hq, hr]
  split <;> simp; omega

theorem le_roundHalfEven {num den k : ℕ} (hd : 0 < den) (h : k * den ≤ num) :
    k ≤ roundHalfEven num den := by
  have hq : k ≤ num / den := (Nat.le_div_iff_mul_le hd).2 h
  unfold roundHalfEven
  simp only
  split
  · exact hq
  · split
    · omega
    · split <;> omega

end Round

section Rank

theorem log_eq_of_mem {q : ℚ} {l : ℤ} (hl : (2 : ℚ) ^ l ≤ q) (hu : q < 2 ^ (l + 1)) :
    Int.log 2 q = l := by
  have hq : 0 < q := lt_of_lt_of_le (by positivity) hl
  have hle : l ≤ Int.log 2 q := (Int.zpow_le_iff_le_log (by decide) hq).1 hl
  have hlt : Int.log 2 q < l + 1 := (Int.lt_zpow_iff_log_lt (by decide) hq).1 hu
  omega

theorem div_lt_two_zpow_iff (num : ℕ) {den : ℕ} (hd : 0 < den) (l : ℤ) :
    (num : ℚ) / den < 2 ^ l ↔
      if 0 ≤ l then num < den * Nat.pow 2 l.toNat else num * Nat.pow 2 (-l).toNat < den := by
  have hd' : (0 : ℚ) < den := by exact_mod_cast hd
  rw [div_lt_iff₀ hd']
  split
  · next h =>
    obtain ⟨n, rfl⟩ := Int.eq_ofNat_of_zero_le h
    simp only [Int.toNat_natCast, zpow_natCast, Nat.pow_eq]
    rw [mul_comm]
    exact_mod_cast Iff.rfl
  · next h =>
    obtain ⟨n, rfl⟩ : ∃ n : ℕ, l = -(n : ℤ) := ⟨(-l).toNat, by omega⟩
    have hp : (0 : ℚ) < 2 ^ n := by positivity
    simp only [neg_neg, Int.toNat_natCast, zpow_neg, zpow_natCast, Nat.pow_eq]
    rw [← div_eq_inv_mul, lt_div_iff₀ hp]
    exact_mod_cast Iff.rfl

theorem two_zpow_log2_le {n : ℕ} (h : n ≠ 0) : (2 : ℚ) ^ (n.log2 : ℤ) ≤ n := by
  rw [zpow_natCast]
  exact_mod_cast Nat.log2_self_le h

theorem lt_two_zpow_log2 (n : ℕ) : (n : ℚ) < 2 ^ ((n.log2 : ℤ) + 1) := by
  have h : n < 2 ^ (n.log2 + 1) := Nat.lt_log2_self
  have hc : ((n.log2 : ℤ) + 1) = ((n.log2 + 1 : ℕ) : ℤ) := by push_cast; rfl
  rw [hc, zpow_natCast]
  exact_mod_cast h

theorem floorLog2_eq {num den : ℕ} (hn : num ≠ 0) (hd : 0 < den) :
    floorLog2 num den = Int.log 2 ((num : ℚ) / den) := by
  have hd' : (0 : ℚ) < den := by exact_mod_cast hd
  have htwo : (2 : ℚ) ≠ 0 := by norm_num
  have hnum := two_zpow_log2_le hn
  have hnum' := lt_two_zpow_log2 num
  have hden := two_zpow_log2_le (Nat.pos_iff_ne_zero.1 hd)
  have hden' := lt_two_zpow_log2 den
  have hlow : (2 : ℚ) ^ ((num.log2 : ℤ) - den.log2 - 1) ≤ num / den := by
    rw [le_div_iff₀ hd']
    calc (2 : ℚ) ^ ((num.log2 : ℤ) - den.log2 - 1) * den
        ≤ 2 ^ ((num.log2 : ℤ) - den.log2 - 1) * 2 ^ ((den.log2 : ℤ) + 1) := by gcongr
      _ = 2 ^ (num.log2 : ℤ) := by rw [← zpow_add₀ htwo]; congr 1; ring
      _ ≤ num := hnum
  have hhigh : (num : ℚ) / den < 2 ^ ((num.log2 : ℤ) - den.log2 + 1) := by
    rw [div_lt_iff₀ hd']
    calc (num : ℚ) < 2 ^ ((num.log2 : ℤ) + 1) := hnum'
      _ = 2 ^ ((num.log2 : ℤ) - den.log2 + 1) * 2 ^ (den.log2 : ℤ) := by
        rw [← zpow_add₀ htwo]; congr 1; ring
      _ ≤ 2 ^ ((num.log2 : ℤ) - den.log2 + 1) * den := by gcongr
  have hbelow := div_lt_two_zpow_iff num hd ((num.log2 : ℤ) - den.log2)
  unfold floorLog2
  simp only [← hbelow]
  symm
  split
  · next h => exact log_eq_of_mem hlow (by simpa using h)
  · next h => exact log_eq_of_mem (not_lt.1 h) hhigh

/-- The power of two in whose multiples a positive number is rounded. -/
def roundingScale (q : ℚ) : ℤ := max leastScale (Int.log 2 q - 52)

/-- Any quotient that gives the number in these multiples serves to round it. -/
theorem nearestRank_eq {num den a b : ℕ} (hn : num ≠ 0) (hd : 0 < den) (hb : 0 < b)
    (h : (a : ℚ) / b = (num : ℚ) / den / 2 ^ roundingScale ((num : ℚ) / den)) :
    nearestRank num den =
      (roundingScale ((num : ℚ) / den) - leastScale).toNat * binadeSize + roundHalfEven a b := by
  have hscale : max leastScale (floorLog2 num den - 52) = roundingScale ((num : ℚ) / den) := by
    rw [floorLog2_eq hn hd]
    rfl
  unfold nearestRank
  rw [if_neg hn]
  simp only [hscale]
  generalize roundingScale ((num : ℚ) / den) = k at h
  congr 1
  split
  · next hk =>
    obtain ⟨n, rfl⟩ := Int.eq_ofNat_of_zero_le hk
    refine roundHalfEven_congr (by simp; positivity) hb ?_
    rw [h]
    simp [div_div]
  · next hk =>
    obtain ⟨n, rfl⟩ : ∃ n : ℕ, k = -(n : ℤ) := ⟨(-k).toNat, by omega⟩
    refine roundHalfEven_congr hd hb ?_
    rw [h]
    simp [div_mul_eq_mul_div]

/-- A quotient for a nonnegative rational and a power of two. -/
theorem exists_scaled (num : ℕ) {den : ℕ} (hd : 0 < den) (k : ℤ) :
    ∃ a b : ℕ, 0 < b ∧ (a : ℚ) / b = (num : ℚ) / den / 2 ^ k := by
  rcases Int.le_total 0 k with hk | hk
  · obtain ⟨n, rfl⟩ := Int.eq_ofNat_of_zero_le hk
    exact ⟨num, den * 2 ^ n, by positivity, by simp [div_div]⟩
  · obtain ⟨n, rfl⟩ : ∃ n : ℕ, k = -(n : ℤ) := ⟨(-k).toNat, by omega⟩
    exact ⟨num * 2 ^ n, den, hd, by simp [div_mul_eq_mul_div]⟩

theorem nearestRank_congr {num den num' den' : ℕ} (hd : 0 < den) (hd' : 0 < den')
    (h : (num : ℚ) / den = (num' : ℚ) / den') : nearestRank num den = nearestRank num' den' := by
  have hdq : (den : ℚ) ≠ 0 := by positivity
  have hdq' : (den' : ℚ) ≠ 0 := by positivity
  by_cases hn : num = 0
  · have hn' : num' = 0 := by
      rw [hn, Nat.cast_zero, zero_div, eq_comm, div_eq_zero_iff] at h
      exact_mod_cast h.resolve_right hdq'
    simp [nearestRank, hn, hn']
  · have hn' : num' ≠ 0 := by
      rintro rfl
      rw [Nat.cast_zero, zero_div, div_eq_zero_iff] at h
      exact hn (by exact_mod_cast h.resolve_right hdq)
    obtain ⟨a, b, hb, hab⟩ := exists_scaled num hd (roundingScale ((num : ℚ) / den))
    rw [nearestRank_eq hn hd hb hab, nearestRank_eq hn' hd' hb (h ▸ hab), h]

theorem nearestRank_eq_zero {num den : ℕ} (hd : 0 < den) (h : (num : ℚ) / den ≤ 2 ^ (-1075 : ℤ)) :
    nearestRank num den = 0 := by
  by_cases hn : num = 0
  · simp [nearestRank, hn]
  have hpos : (0 : ℚ) < num / den := by positivity
  have hlog : Int.log 2 ((num : ℚ) / den) < -1074 := by
    refine (Int.lt_zpow_iff_log_lt (by decide) hpos).1 (lt_of_le_of_lt h ?_)
    exact zpow_lt_zpow_right₀ (by norm_num) (by decide)
  have hscale : roundingScale ((num : ℚ) / den) = leastScale := by
    unfold roundingScale leastScale
    omega
  obtain ⟨a, b, hb, hab⟩ := exists_scaled num hd (roundingScale ((num : ℚ) / den))
  rw [nearestRank_eq hn hd hb hab, hscale, sub_self, Int.toNat_zero, Nat.zero_mul, Nat.zero_add]
  refine roundHalfEven_eq_zero ?_ hb
  have hb' : (0 : ℚ) < b := by exact_mod_cast hb
  have hhalf : (a : ℚ) / b ≤ 1 / 2 := by
    rw [hab, hscale, div_le_iff₀ (by positivity)]
    refine h.trans_eq ?_
    unfold leastScale
    rw [show (-1075 : ℤ) = -1 + -1074 by norm_num, zpow_add₀ (by norm_num)]
    norm_num
  have h2 : (2 * a : ℚ) ≤ b := by
    rw [div_le_iff₀ hb'] at hhalf
    linarith
  exact_mod_cast h2

theorem finiteCount_le_nearestRank {num den : ℕ} (hd : 0 < den)
    (h : (2 : ℚ) ^ (1024 : ℤ) ≤ num / den) : finiteCount ≤ nearestRank num den := by
  have hpos : (0 : ℚ) < num / den := lt_of_lt_of_le (by positivity) h
  have hn : num ≠ 0 := by
    rintro rfl
    simp at hpos
  have hlog : 1024 ≤ Int.log 2 ((num : ℚ) / den) := (Int.zpow_le_iff_le_log (by decide) hpos).1 h
  have hscale : roundingScale ((num : ℚ) / den) = Int.log 2 ((num : ℚ) / den) - 52 := by
    unfold roundingScale leastScale
    omega
  obtain ⟨a, b, hb, hab⟩ := exists_scaled num hd (roundingScale ((num : ℚ) / den))
  have hb' : (0 : ℚ) < b := by exact_mod_cast hb
  have hm : binadeSize ≤ roundHalfEven a b := by
    refine le_roundHalfEven hb ?_
    have hle : (2 : ℚ) ^ (52 : ℤ) ≤ a / b := by
      rw [hab, hscale, le_div_iff₀ (by positivity), ← zpow_add₀ (by norm_num), add_sub_cancel]
      exact Int.zpow_log_le_self (by decide) hpos
    rw [le_div_iff₀ hb'] at hle
    have hle : ((2 ^ 52 * b : ℕ) : ℚ) ≤ a := by push_cast; exact_mod_cast hle
    exact_mod_cast hle
  rw [nearestRank_eq hn hd hb hab]
  unfold finiteCount binadeSize at *
  unfold leastScale
  omega

theorem Finite.significand_lt (x : Finite) : x.significand < 2 * binadeSize := by
  have hmod : x.rank.val % binadeSize < binadeSize := Nat.mod_lt _ (by decide)
  unfold Finite.significand
  split <;> omega

theorem Finite.value_lt (x : Finite) : x.value < 2 ^ (x.scale + 53) := by
  have hs : (x.significand : ℚ) < 2 ^ (53 : ℤ) := by exact_mod_cast x.significand_lt
  rw [add_comm, zpow_add₀ (by norm_num)]
  exact mul_lt_mul_of_pos_right hs (by positivity)

theorem Finite.le_value {x : Finite} (h : binadeSize ≤ x.rank.val) :
    2 ^ (x.scale + 52) ≤ x.value := by
  have hs : binadeSize ≤ x.significand := by
    rw [Finite.significand, if_neg (not_lt.2 h)]
    omega
  have hs : (2 : ℚ) ^ (52 : ℤ) ≤ x.significand := by exact_mod_cast hs
  rw [add_comm, zpow_add₀ (by norm_num)]
  exact mul_le_mul_of_nonneg_right hs (by positivity)

theorem Finite.value_pos {x : Finite} (h : x.rank.val ≠ 0) : 0 < x.value := by
  have hs : x.significand ≠ 0 := by
    unfold Finite.significand binadeSize
    split <;> omega
  unfold Finite.value
  positivity

/-- A value is rounded in the multiples in which it is given. -/
theorem Finite.roundingScale_value {x : Finite} (hx : x.rank.val ≠ 0) :
    roundingScale x.value = x.scale := by
  by_cases hr : x.rank.val < binadeSize
  · have hscale : x.scale = leastScale := by
      simp [Finite.scale, Nat.div_eq_of_lt hr]
    have hlog : Int.log 2 x.value < x.scale + 53 :=
      (Int.lt_zpow_iff_log_lt (by decide) (Finite.value_pos hx)).1 x.value_lt
    unfold roundingScale
    omega
  · have hlog : Int.log 2 x.value = x.scale + 52 :=
      log_eq_of_mem (Finite.le_value (not_lt.1 hr)) (by simpa [add_assoc] using x.value_lt)
    have hscale : leastScale ≤ x.scale := by
      unfold Finite.scale
      omega
    unfold roundingScale
    omega

theorem Finite.rank_eq (x : Finite) :
    (x.scale - leastScale).toNat * binadeSize + x.significand = x.rank.val := by
  have hdiv : binadeSize * (x.rank.val / binadeSize) + x.rank.val % binadeSize = x.rank.val :=
    Nat.div_add_mod ..
  by_cases hr : x.rank.val < binadeSize
  · simp [Finite.scale, Finite.significand, hr, Nat.div_eq_of_lt hr]
  · have hone : 1 ≤ x.rank.val / binadeSize := (Nat.one_le_div_iff (by decide)).2 (not_lt.1 hr)
    obtain ⟨k, hk⟩ : ∃ k, x.rank.val / binadeSize = k + 1 := ⟨x.rank.val / binadeSize - 1, by omega⟩
    have hs : (x.scale - leastScale).toNat = k := by
      simp [Finite.scale, hk]
    rw [hk, Nat.mul_add_one, Nat.mul_comm] at hdiv
    rw [hs, Finite.significand, if_neg hr]
    omega

theorem nearestRank_value (x : Finite) {num den : ℕ} (hd : 0 < den)
    (h : (num : ℚ) / den = x.value) :
    nearestRank num den = x.rank.val := by
  by_cases hx : x.rank.val = 0
  · have hsig : x.significand = 0 := by simp [Finite.significand, hx, binadeSize]
    have hzero : (num : ℚ) / den ≤ 2 ^ (-1075 : ℤ) := by
      rw [h, Finite.value, hsig, Nat.cast_zero, zero_mul]
      positivity
    rw [nearestRank_eq_zero hd hzero, hx]
  · have hn : num ≠ 0 := by
      rintro rfl
      have hvalue := Finite.value_pos hx
      rw [← h] at hvalue
      simp at hvalue
    have hone : ((x.significand : ℕ) : ℚ) / (1 : ℕ) =
        (num : ℚ) / den / 2 ^ roundingScale ((num : ℚ) / den) := by
      rw [h, Finite.roundingScale_value hx, Nat.cast_one, div_one, Finite.value,
        mul_div_cancel_right₀]
      positivity
    rw [nearestRank_eq hn hd Nat.one_pos hone, h, Finite.roundingScale_value hx,
      roundHalfEven_one, x.rank_eq]

end Rank

section OfDecimal

/-- The power of ten at which reading is cut off lies beyond the doubles, on either side. -/
theorem two_zpow_le_ten_zpow : (2 : ℚ) ^ (1075 : ℤ) ≤ 10 ^ (400 : ℤ) := by
  have h : ((2 : ℚ) ^ 43) ^ 25 ≤ (10 ^ 16) ^ 25 := pow_le_pow_left₀ (by norm_num) (by norm_num) 25
  rw [← pow_mul, ← pow_mul] at h
  rw [zpow_ofNat, zpow_ofNat]
  exact h

theorem finiteCount_le_of_large {d : Decimal} (hc : d.coefficient ≠ 0)
    (h : decimalRange < d.exponent) : finiteCount ≤ nearestRank d.ratio.1 d.ratio.2 := by
  apply finiteCount_le_nearestRank d.ratio_snd_pos
  rw [d.ratio_eq_value]
  have hone : (1 : ℚ) ≤ d.coefficient := by exact_mod_cast Nat.pos_iff_ne_zero.2 hc
  calc (2 : ℚ) ^ (1024 : ℤ) ≤ 2 ^ (1075 : ℤ) := zpow_le_zpow_right₀ (by norm_num) (by norm_num)
    _ ≤ 10 ^ (400 : ℤ) := two_zpow_le_ten_zpow
    _ ≤ 10 ^ d.exponent := zpow_le_zpow_right₀ (by norm_num) h.le
    _ ≤ d.coefficient * 10 ^ d.exponent := le_mul_of_one_le_left (by positivity) hone

theorem nearestRank_of_small {d : Decimal}
    (h : d.exponent + d.coefficient.log2 + 1 < -decimalRange) :
    nearestRank d.ratio.1 d.ratio.2 = 0 := by
  apply nearestRank_eq_zero d.ratio_snd_pos
  rw [d.ratio_eq_value]
  have hten : (10 : ℚ) ≠ 0 := by norm_num
  have hcoefficient : (d.coefficient : ℚ) ≤ 10 ^ ((d.coefficient.log2 : ℤ) + 1) := by
    apply (lt_two_zpow_log2 d.coefficient).le.trans
    have hcast : ((d.coefficient.log2 : ℤ) + 1) = ((d.coefficient.log2 + 1 : ℕ) : ℤ) := by
      push_cast; rfl
    rw [hcast, zpow_natCast, zpow_natCast]
    exact pow_le_pow_left₀ (by norm_num) (by norm_num) _
  calc (d.coefficient : ℚ) * 10 ^ d.exponent
      ≤ 10 ^ ((d.coefficient.log2 : ℤ) + 1) * 10 ^ d.exponent := by gcongr
    _ = 10 ^ (d.exponent + d.coefficient.log2 + 1) := by rw [← zpow_add₀ hten]; congr 1; ring
    _ ≤ 10 ^ (-400 : ℤ) := zpow_le_zpow_right₀ (by norm_num) h.le
    _ ≤ 2 ^ (-1075 : ℤ) := by
      rw [zpow_neg, zpow_neg]
      exact inv_anti₀ (by positivity) two_zpow_le_ten_zpow

/-- The cases that spare work change nothing. -/
theorem ofDecimal?_eq (negative : Bool) (d : Decimal) :
    Finite.ofDecimal? negative d =
      if h : nearestRank d.ratio.1 d.ratio.2 < finiteCount then
        some ⟨negative, ⟨nearestRank d.ratio.1 d.ratio.2, h⟩⟩ else none := by
  unfold Finite.ofDecimal?
  by_cases hc : d.coefficient = 0
  · have hz : d.ratio.1 = 0 := by unfold Decimal.ratio; split <;> simp [hc]
    simp [decimalRank, hc, nearestRank, hz]
  by_cases hlarge : decimalRange < d.exponent
  · have hrank : decimalRank d = finiteCount := by simp [decimalRank, hc, hlarge]
    have hle := finiteCount_le_of_large hc hlarge
    rw [dif_neg (by omega), dif_neg (by omega)]
  by_cases hsmall : d.exponent + d.coefficient.log2 + 1 < -decimalRange
  · have hrank : decimalRank d = 0 := by simp [decimalRank, hc, hlarge, hsmall]
    simp only [hrank, nearestRank_of_small hsmall]
  · have hrank : decimalRank d = nearestRank d.ratio.1 d.ratio.2 := by
      simp [decimalRank, hc, hlarge, hsmall]
    simp only [hrank]

/-- The double that is read does not depend on how the number is spelled. -/
theorem ofDecimal?_congr (negative : Bool) {d d' : Decimal} (h : d.value = d'.value) :
    Finite.ofDecimal? negative d = Finite.ofDecimal? negative d' := by
  have hrank : nearestRank d.ratio.1 d.ratio.2 = nearestRank d'.ratio.1 d'.ratio.2 := by
    refine nearestRank_congr d.ratio_snd_pos d'.ratio_snd_pos ?_
    rw [d.ratio_eq_value, d'.ratio_eq_value, h]
  simp only [ofDecimal?_eq, hrank]

theorem ofDecimal?_exact (x : Finite) : Finite.ofDecimal? x.negative x.exact = some x := by
  have hrank : nearestRank x.exact.ratio.1 x.exact.ratio.2 = x.rank.val := by
    refine nearestRank_value x x.exact.ratio_snd_pos ?_
    rw [x.exact.ratio_eq_value, x.value_exact]
  rw [ofDecimal?_eq, dif_pos (hrank ▸ x.rank.isLt)]
  simp only [hrank]

theorem ofDecimal?_shortest (x : Finite) (tie : Tie) :
    Finite.ofDecimal? x.negative (x.shortest tie) = some x := by
  unfold Finite.shortest
  cases h : (List.range 17).findSome? fun (n : ℕ) => x.onGrid tie (x.leadingExponent - n) with
  | none => exact ofDecimal?_exact x
  | some d =>
    obtain ⟨n, _, hn⟩ := List.exists_of_findSome?_eq_some h
    exact of_decide_eq_true (Finite.readBy_of_onGrid hn)

end OfDecimal

end Binary64
end TreeAsm

import TreeAsm.Decimal.Basic

/-! Double-precision reals. A finite one is a sign and a rank: the nonnegative finite values in
increasing order are numbered from zero, so that the next larger value has the next rank. Reading a
decimal takes the nearest value, and of two equally near ones the one of even rank. -/
namespace TreeAsm.Binary64

/-- How many values there are from one power of two to the next. -/
def binadeSize : Nat := 0x10000000000000

/-- How many nonnegative finite values there are: 2047 times the size of a binade. -/
def finiteCount : Nat := 0x7FF0000000000000

/-- The exponent of the smallest positive value as a power of two. -/
def leastScale : Int := -1074

structure Finite where
  negative : Bool
  rank : Fin finiteCount
deriving DecidableEq

namespace Finite

def zero (negative : Bool) : Finite := ⟨negative, ⟨0, by decide⟩⟩

/-- The value is `significand * 2 ^ scale`. -/
def significand (x : Finite) : Nat :=
  if x.rank.val < binadeSize then x.rank.val else binadeSize + x.rank.val % binadeSize

def scale (x : Finite) : Int := leastScale + ((x.rank.val / binadeSize - 1 : Nat) : Int)

/-- The magnitude as a quotient of naturals with a positive denominator. -/
def ratio (x : Finite) : Nat × Nat :=
  if 0 ≤ x.scale then (x.significand * Nat.pow 2 x.scale.toNat, 1)
  else (x.significand, Nat.pow 2 (-x.scale).toNat)

/-- The magnitude written out in full. -/
def exact (x : Finite) : Decimal :=
  if 0 ≤ x.scale then ⟨x.significand * Nat.pow 2 x.scale.toNat, 0⟩
  else ⟨x.significand * Nat.pow 5 (-x.scale).toNat, x.scale⟩

end Finite

/-- `num / den` to the nearest natural, a half to the even one. -/
def roundHalfEven (num den : Nat) : Nat :=
  let q := num / den
  let r := num % den
  if 2 * r < den then q
  else if den < 2 * r then q + 1
  else if q % 2 = 0 then q else q + 1

/-- The integer `l` with `2 ^ l ≤ num / den < 2 ^ (l + 1)`, for positive `num` and `den`. -/
def floorLog2 (num den : Nat) : Int :=
  let l : Int := (num.log2 : Int) - den.log2
  let below := if 0 ≤ l then num < den * Nat.pow 2 l.toNat else num * Nat.pow 2 (-l).toNat < den
  if below then l - 1 else l

/-- The rank of the value nearest to `num / den`. It is `finiteCount` or more when that value would
need a larger exponent than there is. -/
def nearestRank (num den : Nat) : Nat :=
  if num = 0 then 0
  else
    let scale := max leastScale (floorLog2 num den - 52)
    let m :=
      if 0 ≤ scale then roundHalfEven num (den * Nat.pow 2 scale.toNat)
      else roundHalfEven (num * Nat.pow 2 (-scale).toNat) den
    (scale - leastScale).toNat * binadeSize + m

/-- Beyond this power of ten a nonzero coefficient is out of range, on either side. -/
def decimalRange : Int := 400

/-- The rank of the value nearest to a decimal. The two cases in front only spare the work on powers
of ten that decide the answer by themselves. -/
def decimalRank (d : Decimal) : Nat :=
  if d.coefficient = 0 then 0
  else if decimalRange < d.exponent then finiteCount
  else if d.exponent + d.coefficient.log2 + 1 < -decimalRange then 0
  else nearestRank d.ratio.1 d.ratio.2

/-- The finite value nearest to a decimal, if there is one. -/
def Finite.ofDecimal? (negative : Bool) (d : Decimal) : Option Finite :=
  if h : decimalRank d < finiteCount then some ⟨negative, ⟨decimalRank d, h⟩⟩ else none

end TreeAsm.Binary64

namespace TreeAsm

inductive Binary64 where
  | finite (x : Binary64.Finite)
  | infinite (negative : Bool)
  | nan
deriving DecidableEq

namespace Binary64

/-- Too large a decimal is infinite. -/
def ofDecimal (negative : Bool) (d : Decimal) : Binary64 :=
  match Finite.ofDecimal? negative d with
  | some x => .finite x
  | none => .infinite negative

end Binary64
end TreeAsm

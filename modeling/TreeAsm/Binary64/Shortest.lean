import TreeAsm.Binary64.Basic

/-! The shortest decimal that reads back as a given value. For one digit, two digits and so on, the
two neighbours of the value with that many digits are read back; the first grid on which one of them
gives the value again is taken, and on it the nearer neighbour. -/
namespace TreeAsm.Binary64

/-- Which of two equally near decimals is taken. -/
inductive Tie where
  | up
  | even
deriving DecidableEq, Repr

namespace Finite

/-- The exponent of the leading decimal digit of a positive value. The factor brings every positive
value above one. -/
def leadingExponent (x : Finite) : Int :=
  (natText (x.ratio.1 * Nat.pow 10 400 / x.ratio.2)).length - 401

/-- The magnitude as a quotient in units of `10 ^ unit`. -/
def scaledRatio (x : Finite) (unit : Int) : Nat × Nat :=
  if 0 ≤ unit then (x.ratio.1, x.ratio.2 * Nat.pow 10 unit.toNat)
  else (x.ratio.1 * Nat.pow 10 (-unit).toNat, x.ratio.2)

/-- Whether a decimal reads back as the value. -/
def readBy (x : Finite) (d : Decimal) : Bool := ofDecimal? x.negative d = some x

/-- The decimal in units of `10 ^ unit` that stands for the value, if one reads back. -/
def onGrid (x : Finite) (tie : Tie) (unit : Int) : Option Decimal :=
  let (num, den) := x.scaledRatio unit
  let k := num / den
  let r := num % den
  let below : Decimal := ⟨k, unit⟩
  let above : Decimal := ⟨k + 1, unit⟩
  match x.readBy below, x.readBy above with
  | true, true =>
    if 2 * r < den then some below
    else if den < 2 * r then some above
    else if tie = .even ∧ k % 2 = 0 then some below else some above
  | true, false => some below
  | false, true => some above
  | false, false => none

/-- Seventeen digits always suffice; the exact value stands behind them. -/
def shortest (x : Finite) (tie : Tie) : Decimal :=
  ((List.range 17).findSome? fun (n : Nat) => x.onGrid tie (x.leadingExponent - n)).getD x.exact

theorem readBy_of_onGrid {x : Finite} {tie : Tie} {unit : Int} {d : Decimal}
    (h : x.onGrid tie unit = some d) : x.readBy d = true := by
  unfold onGrid at h
  simp only at h
  split at h
  next hb ha =>
    split at h
    · exact Option.some.inj h ▸ hb
    · split at h
      · exact Option.some.inj h ▸ ha
      · split at h
        · exact Option.some.inj h ▸ hb
        · exact Option.some.inj h ▸ ha
  next hb _ => exact Option.some.inj h ▸ hb
  next _ ha => exact Option.some.inj h ▸ ha
  next => exact absurd h (by simp)

end Finite
end TreeAsm.Binary64

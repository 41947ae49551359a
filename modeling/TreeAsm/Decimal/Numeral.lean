import TreeAsm.Decimal.Basic

/-! Spelled numbers: sign, whole part, fraction and exponent, kept as written. A format that reads
numbers says which spellings it takes; the value of a spelling does not depend on the format. -/
namespace TreeAsm

inductive Sign where
  | absent
  | plus
  | minus
deriving DecidableEq, Repr

namespace Sign

def split : List Char → Sign × List Char
  | '+' :: r => (.plus, r)
  | '-' :: r => (.minus, r)
  | r => (.absent, r)

def apply (s : Sign) (n : Nat) : Int := if s = .minus then -n else n

end Sign

/-- A number as written. Every part holds decimal digits only. -/
structure Numeral where
  sign : Sign
  whole : List Char
  fraction : Option (List Char)
  exponent : Option (Sign × List Char)
deriving DecidableEq, Repr

namespace Numeral

def splitFraction : List Char → Option (List Char) × List Char
  | '.' :: r => (some (r.takeWhile Char.isDigit), r.dropWhile Char.isDigit)
  | r => (none, r)

/-- The exponent part, which has to end the text. The outer option is failure. -/
def readExponent : List Char → Option (Option (Sign × List Char))
  | [] => some none
  | c :: r =>
    if c = 'e' ∨ c = 'E' then
      let (sign, digits) := Sign.split r
      if digits.all Char.isDigit then some (some (sign, digits)) else none
    else none

/-- Splits a text into the parts of a number; a text with anything else in it is refused. -/
def read? (cs : List Char) : Option Numeral :=
  let (sign, cs) := Sign.split cs
  let whole := cs.takeWhile Char.isDigit
  let (fraction, cs) := splitFraction (cs.dropWhile Char.isDigit)
  (readExponent cs).map fun exponent => ⟨sign, whole, fraction, exponent⟩

def fractionDigits (n : Numeral) : List Char := n.fraction.getD []

def exponentValue (n : Numeral) : Int :=
  match n.exponent with
  | none => 0
  | some (sign, digits) => sign.apply (digitsValue digits)

/-- The magnitude of the number. -/
def decimal (n : Numeral) : Decimal where
  coefficient := digitsValue (n.whole ++ n.fractionDigits)
  exponent := n.exponentValue - n.fractionDigits.length

def negative (n : Numeral) : Bool := n.sign = .minus

/-- Written without fraction and exponent. -/
def isWhole (n : Numeral) : Bool := n.fraction.isNone && n.exponent.isNone

end Numeral
end TreeAsm

import TreeAsm.Binary64.Shortest
import TreeAsm.Decimal.Numeral

/-! Texts of double-precision reals. A format decides which values are written positionally, how an
exponent is marked and which way ties of the shortest digits go. -/
namespace TreeAsm.Binary64

/-- A value whose leading digit has exponent `e` is written positionally when `plainFrom ≤ e <
plainBelow`, and with an exponent otherwise. -/
structure Format where
  plainFrom : Int
  plainBelow : Int
  plusSign : Bool
  tie : Tie

namespace Format

def positional (digits : List Char) (leading : Int) : List Char :=
  if leading < 0 then '0' :: '.' :: (List.replicate (-leading - 1).toNat '0' ++ digits)
  else
    let whole := leading.toNat + 1
    digits.take whole ++ List.replicate (whole - digits.length) '0' ++ '.' ::
      (if digits.length ≤ whole then ['0'] else digits.drop whole)

def scientific (f : Format) (digits : List Char) (leading : Int) : List Char :=
  let mantissa :=
    match digits with
    | d :: r@(_ :: _) => d :: '.' :: r
    | ds => ds
  mantissa ++ 'e' :: ((if f.plusSign ∧ 0 ≤ leading then ['+'] else []) ++ intText leading)

def stripZeros (digits : List Char) : List Char := (digits.reverse.dropWhile (· = '0')).reverse

/-- A positive decimal. -/
def decimal (f : Format) (d : Decimal) : List Char :=
  let digits := natText d.coefficient
  let leading := d.exponent + digits.length - 1
  if f.plainFrom ≤ leading ∧ leading < f.plainBelow then positional (stripZeros digits) leading
  else f.scientific (stripZeros digits) leading

def finite (f : Format) (x : Finite) : List Char :=
  (if x.negative then ['-'] else []) ++
    if x.rank.val = 0 then ['0', '.', '0'] else f.decimal (x.shortest f.tie)

/-- Infinities and the undefined value as words. -/
def chars (f : Format) : Binary64 → List Char
  | .finite x => f.finite x
  | .infinite negative => (if negative then ['-'] else []) ++ ['i', 'n', 'f']
  | .nan => ['N', 'a', 'N']

end Format

/-- Words for the values that have no digits, in any case of letters. -/
def ofWord? (negative : Bool) (cs : List Char) : Option Binary64 :=
  let word := cs.map Char.toLower
  if word = ['n', 'a', 'n'] then some .nan
  else if word = ['i', 'n', 'f'] ∨ word = ['i', 'n', 'f', 'i', 'n', 'i', 't', 'y'] then
    some (.infinite negative)
  else none

/-- Reads a real: a word, or digits with an optional sign, point and exponent, where the point may
stand at either end. -/
def read? (cs : List Char) : Option Binary64 :=
  let (sign, rest) := Sign.split cs
  match ofWord? (sign = .minus) rest with
  | some x => some x
  | none => do
    let n ← Numeral.read? cs
    if n.whole ++ n.fractionDigits = [] then none
    else if n.exponent.any (·.2 = []) then none
    else some (ofDecimal n.negative n.decimal)

end TreeAsm.Binary64

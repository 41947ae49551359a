import TreeAsm.Decimal.Numeral
import TreeAsm.Json.Basic

/-! Tokens of JSON texts. The scanner passes over the text once, a character at a time, and holds
what it has seen of the token that it is in. -/
namespace TreeAsm.Json

inductive Token where
  | beginArray
  | endArray
  | beginObject
  | endObject
  | comma
  | colon
  | null
  | bool (b : Bool)
  | num (n : Number)
  | text (s : String)
deriving DecidableEq

namespace Number

/-- Signed and unsigned integers of 64 bits. -/
def fits (n : Int) : Bool := -0x8000000000000000 ≤ n ∧ n < 0x10000000000000000

/-- A leading zero stands alone, and a point or an exponent mark is followed by a digit. -/
def wellSpelled (n : Numeral) : Bool :=
  n.sign != .plus && (n.whole = ['0'] || !(n.whole = [] || n.whole.head? = some '0')) &&
    n.fraction != some [] && !n.exponent.any (·.2 = [])

/-- A minus zero is a real, since integers have no sign of zero. Reals beyond the largest finite
value are refused. -/
def ofNumeral? (n : Numeral) : Option Number :=
  let value := n.sign.apply (digitsValue n.whole)
  if n.isWhole && fits value && !(n.negative && value = 0) then some (.int value)
  else (Binary64.Finite.ofDecimal? n.negative n.decimal).map .real

def read? (cs : List Char) : Option Number := do
  let n ← Numeral.read? cs
  if wellSpelled n then ofNumeral? n else none

end Number

namespace Token

def ofWord? (cs : List Char) : Option Token :=
  if cs = ['n', 'u', 'l', 'l'] then some .null
  else if cs = ['t', 'r', 'u', 'e'] then some (.bool true)
  else if cs = ['f', 'a', 'l', 's', 'e'] then some (.bool false)
  else none

def isSpace (c : Char) : Bool := c = ' ' || c = '\t' || c = '\n' || c = '\r'

def isNumberChar (c : Char) : Bool :=
  c.isDigit || c = '-' || c = '+' || c = '.' || c = 'e' || c = 'E'

def punctuation? (c : Char) : Option Token :=
  match c with
  | '[' => some .beginArray
  | ']' => some .endArray
  | '\x7b' => some .beginObject
  | '\x7d' => some .endObject
  | ',' => some .comma
  | ':' => some .colon
  | _ => none

/-- The character that a backslash and this character stand for. -/
def escaped? (c : Char) : Option Char :=
  match c with
  | '"' => some '"'
  | '\\' => some '\\'
  | '/' => some '/'
  | 'b' => some '\x08'
  | 'f' => some '\x0c'
  | 'n' => some '\n'
  | 'r' => some '\r'
  | 't' => some '\t'
  | _ => none

def hexValue? (c : Char) : Option Nat :=
  if '0' ≤ c ∧ c ≤ '9' then some (c.toNat - 48)
  else if 'a' ≤ c ∧ c ≤ 'f' then some (c.toNat - 87)
  else if 'A' ≤ c ∧ c ≤ 'F' then some (c.toNat - 55)
  else none

def isHighSurrogate (n : Nat) : Bool := 0xD800 ≤ n && n < 0xDC00

def isLowSurrogate (n : Nat) : Bool := 0xDC00 ≤ n && n < 0xE000

def joinSurrogates (high low : Nat) : Nat := 0x10000 + (high - 0xD800) * 0x400 + (low - 0xDC00)

/-- What the scanner is in the middle of. Characters of the token so far are held latest first. -/
inductive Mode where
  | gap
  | word (seen : List Char)
  | number (seen : List Char)
  | text (seen : List Char)
  /-- Just after a backslash. -/
  | escape (seen : List Char)
  /-- After `\u`, with a high surrogate that came before it, the digits still to come and their
  value so far. -/
  | unicode (seen : List Char) (high : Option Nat) (missing : Nat) (value : Nat)
  /-- After a high surrogate, where a backslash has to follow. -/
  | lowMark (seen : List Char) (high : Nat)
  /-- After a high surrogate and a backslash, where `u` has to follow. -/
  | lowEscape (seen : List Char) (high : Nat)

/-- The mode that a character outside all tokens leads to, with the token that it is by itself. -/
def start (c : Char) : Option (Mode × List Token) :=
  if isSpace c then some (.gap, [])
  else if c = '"' then some (.text [], [])
  else if c.isDigit || c = '-' then some (.number [c], [])
  else if c.isAlpha then some (.word [c], [])
  else (punctuation? c).map fun t => (.gap, [t])

/-- The text goes on after the four digits of an escape. -/
def closeUnicode (seen : List Char) (high : Option Nat) (value : Nat) : Option Mode :=
  match high with
  | some h =>
    if isLowSurrogate value
      then some (.text (Char.ofNat (joinSurrogates h value) :: seen)) else none
  | none =>
    if isHighSurrogate value then some (.lowMark seen value)
    else if isLowSurrogate value then none
    else some (.text (Char.ofNat value :: seen))

/-- One character further. The tokens are those that it completes, at most two: the word or number
before it and itself. -/
def step : Mode → Char → Option (Mode × List Token)
  | .gap, c => start c
  | .word seen, c =>
    if c.isAlpha then some (.word (c :: seen), [])
    else do
      let t ← ofWord? seen.reverse
      let (mode, ts) ← start c
      some (mode, t :: ts)
  | .number seen, c =>
    if isNumberChar c then some (.number (c :: seen), [])
    else do
      let n ← Number.read? seen.reverse
      let (mode, ts) ← start c
      some (mode, .num n :: ts)
  | .text seen, c =>
    if c = '"' then some (.gap, [.text (String.ofList seen.reverse)])
    else if c = '\\' then some (.escape seen, [])
    else if c.toNat < 0x20 then none
    else some (.text (c :: seen), [])
  | .escape seen, c =>
    if c = 'u' then some (.unicode seen none 4 0, [])
    else (escaped? c).map fun d => (.text (d :: seen), [])
  | .unicode seen high missing value, c => do
    let v := value * 16 + (← hexValue? c)
    if missing = 1 then (closeUnicode seen high v).map fun mode => (mode, [])
    else some (.unicode seen high (missing - 1) v, [])
  | .lowMark seen high, c => if c = '\\' then some (.lowEscape seen high, []) else none
  | .lowEscape seen high, c => if c = 'u' then some (.unicode seen (some high) 4 0, []) else none

/-- The token that the end of the text completes. -/
def finish : Mode → Option (List Token)
  | .gap => some []
  | .word seen => (ofWord? seen.reverse).map fun t => [t]
  | .number seen => (Number.read? seen.reverse).map fun n => [.num n]
  | _ => none

/-- The tokens from a mode on; `found` holds those before, latest first. -/
def scanFrom : Mode → List Token → List Char → Option (List Token)
  | mode, found, [] => (finish mode).map fun ts => found.reverse ++ ts
  | mode, found, c :: cs =>
    match step mode c with
    | none => none
    | some (next, ts) => scanFrom next (ts.reverse ++ found) cs

/-- The tokens of a text, or none if some part of it is no token. -/
def scan (cs : List Char) : Option (List Token) := scanFrom .gap [] cs

end Token
end TreeAsm.Json

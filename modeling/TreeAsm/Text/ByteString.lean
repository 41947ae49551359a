/-! Byte strings in double quotes. Printable ASCII stands for itself; a quote and a backslash have a
backslash in front, a new line is `\n`, and every other character is written byte by byte as
`\xHH`. -/
namespace TreeAsm.ByteString

def hexDigit (n : Nat) : Char := (Nat.digitChar n).toUpper

def escapeByte (b : UInt8) : List Char :=
  ['\\', 'x', hexDigit (b.toNat / 16), hexDigit (b.toNat % 16)]

def isPrintable (c : Char) : Bool := 0x20 ≤ c.toNat && c.toNat ≤ 0x7E

def escape (c : Char) : List Char :=
  if c = '"' then ['\\', '"']
  else if c = '\\' then ['\\', '\\']
  else if c = '\n' then ['\\', 'n']
  else if isPrintable c then [c]
  else (String.utf8EncodeChar c).flatMap escapeByte

/-- The bytes of a text and a zero byte, in quotes. -/
def encode (s : String) : List Char :=
  '"' :: (s.toList.flatMap escape ++ escapeByte 0 ++ ['"'])

def hexValue? (c : Char) : Option Nat :=
  if '0' ≤ c ∧ c ≤ '9' then some (c.toNat - 48)
  else if 'A' ≤ c ∧ c ≤ 'F' then some (c.toNat - 55)
  else none

def byteOf? (high low : Char) : Option UInt8 := do
  some (UInt8.ofNat ((← hexValue? high) * 16 + (← hexValue? low)))

/-- The bytes up to the closing quote, which has to end the text. -/
def unescape : List Char → Option (List UInt8)
  | [] => none
  | ['"'] => some []
  | '\\' :: '"' :: r => (unescape r).map (0x22 :: ·)
  | '\\' :: '\\' :: r => (unescape r).map (0x5C :: ·)
  | '\\' :: 'n' :: r => (unescape r).map (0x0A :: ·)
  | '\\' :: 'x' :: high :: low :: r => do
    let b ← byteOf? high low
    (unescape r).map (b :: ·)
  | c :: r =>
    if c = '"' ∨ c = '\\' ∨ isPrintable c = false then none
    else (unescape r).map (UInt8.ofNat c.toNat :: ·)

/-- The bytes that a quoted byte string stands for. -/
def decode? : List Char → Option (List UInt8)
  | '"' :: r => unescape r
  | _ => none

end TreeAsm.ByteString

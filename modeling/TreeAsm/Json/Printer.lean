import TreeAsm.Binary64.Text
import TreeAsm.Json.Basic

/-! Writing JSON texts over several lines, two spaces deeper inside each array and object. -/
namespace TreeAsm.Json

/-- Reals are written positionally from `1e-5` up to `1e16`; beyond, a positive exponent has a
sign. -/
def realFormat : Binary64.Format where
  plainFrom := -5
  plainBelow := 16
  plusSign := true
  tie := .even

def hexDigit (n : Nat) : Char := Nat.digitChar n

/-- Quotes, backslashes and control characters are escaped; all else stands for itself. -/
def escape (c : Char) : List Char :=
  if c = '"' then ['\\', '"']
  else if c = '\\' then ['\\', '\\']
  else if c = '\x08' then ['\\', 'b']
  else if c = '\x0c' then ['\\', 'f']
  else if c = '\n' then ['\\', 'n']
  else if c = '\r' then ['\\', 'r']
  else if c = '\t' then ['\\', 't']
  else if c.toNat < 0x20 then
    ['\\', 'u', '0', '0', hexDigit (c.toNat / 16), hexDigit (c.toNat % 16)]
  else [c]

def quoted (s : String) : List Char := '"' :: (s.toList.flatMap escape ++ ['"'])

def Number.chars : Number → List Char
  | .int n => intText n
  | .real x => realFormat.finite x

/-- A new line at a depth. -/
def lineAt (depth : Nat) : List Char := '\n' :: List.replicate (2 * depth) ' '

mutual

/-- The text of a value that begins at a depth. -/
def render (depth : Nat) : Json → List Char
  | .null => ['n', 'u', 'l', 'l']
  | .bool true => ['t', 'r', 'u', 'e']
  | .bool false => ['f', 'a', 'l', 's', 'e']
  | .num n => n.chars
  | .str s => quoted s
  | .arr [] => ['[', ']']
  | .arr (v :: r) =>
    '[' :: (lineAt (depth + 1) ++ render (depth + 1) v ++ renderItems (depth + 1) r ++
      lineAt depth ++ [']'])
  | .obj [] => ['\x7b', '\x7d']
  | .obj ((key, v) :: r) =>
    '\x7b' :: (lineAt (depth + 1) ++ quoted key ++ ':' :: ' ' :: render (depth + 1) v ++
      renderMembers (depth + 1) r ++ lineAt depth ++ ['\x7d'])

/-- Further values of an array, each after a comma. -/
def renderItems (depth : Nat) : List Json → List Char
  | [] => []
  | v :: r => ',' :: (lineAt depth ++ render depth v ++ renderItems depth r)

/-- Further members of an object, each after a comma. -/
def renderMembers (depth : Nat) : List (String × Json) → List Char
  | [] => []
  | (key, v) :: r =>
    ',' :: (lineAt depth ++ quoted key ++ ':' :: ' ' :: render depth v ++ renderMembers depth r)

end

def pretty (v : Json) : String := String.ofList (render 0 v)

end TreeAsm.Json

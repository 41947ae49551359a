/-! Blank characters, and cutting and filling a line at its right end. -/
namespace TreeAsm.Text

/-- The code points with the Unicode property `White_Space`, as closed ranges in increasing
order. -/
def blankRanges : List (Nat × Nat) :=
  [(0x09, 0x0D), (0x20, 0x20), (0x85, 0x85), (0xA0, 0xA0), (0x1680, 0x1680), (0x2000, 0x200A),
    (0x2028, 0x2029), (0x202F, 0x202F), (0x205F, 0x205F), (0x3000, 0x3000)]

def isBlank (c : Char) : Bool := blankRanges.any fun r => r.1 ≤ c.toNat && c.toNat ≤ r.2

/-- The text without the blanks at its end. -/
def trimEnd (cs : List Char) : List Char := (cs.reverse.dropWhile isBlank).reverse

@[simp] theorem trimEnd_nil : trimEnd [] = [] := rfl

theorem trimEnd_concat_of_blank {c : Char} (h : isBlank c = true) (cs : List Char) :
    trimEnd (cs ++ [c]) = trimEnd cs := by
  simp [trimEnd, h]

theorem trimEnd_concat_of_not_blank {c : Char} (h : isBlank c = false) (cs : List Char) :
    trimEnd (cs ++ [c]) = cs ++ [c] := by
  simp [trimEnd, h]

theorem trimEnd_append_replicate (cs : List Char) (n : Nat) :
    trimEnd (cs ++ List.replicate n ' ') = trimEnd cs := by
  induction n with
  | zero => simp
  | succ n ih =>
    rw [List.replicate_succ', ← List.append_assoc, trimEnd_concat_of_blank (by decide), ih]

/-- The text filled up with spaces to `width` characters; a longer text stays as it is. -/
def fill (width : Nat) (cs : List Char) : List Char := cs ++ List.replicate (width - cs.length) ' '

theorem length_fill (width : Nat) (cs : List Char) :
    (fill width cs).length = max width cs.length := by
  simp [fill]
  omega

theorem trimEnd_fill (width : Nat) (cs : List Char) : trimEnd (fill width cs) = trimEnd cs :=
  trimEnd_append_replicate cs _

end TreeAsm.Text

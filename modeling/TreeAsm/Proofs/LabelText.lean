import TreeAsm.Decimal.Basic
import TreeAsm.Label
import TreeAsm.Text.Blank

/-! Label texts. A label is read off its text as long as the names in it are identifiers: the part
in front of the first character that no identifier has is the name, and what follows tells the
family. -/
namespace TreeAsm

/-- Letters, digits and the underscore. Outside ASCII every character that is not blank counts as a
letter, so that the letters of all scripts are among them. -/
def isNameChar (c : Char) : Bool := c.isAlphanum || c = '_' || (0x80 ≤ c.toNat && !Text.isBlank c)

/-- Identifiers are not empty and do not start with a digit. -/
def isIdentifier (s : String) : Bool :=
  match s.toList with
  | [] => false
  | c :: r => isNameChar c && !c.isDigit && r.all isNameChar

theorem all_isNameChar_of_isIdentifier {s : String} (h : isIdentifier s = true) :
    s.toList.all isNameChar = true := by
  unfold isIdentifier at h
  split at h
  next => simp at h
  next c r hs => simp_all

theorem isDigit_of_mem_natText {n : Nat} {c : Char} (h : c ∈ natText n) : c.isDigit = true :=
  Nat.isDigit_of_mem_toDigits (by decide) (by decide) h

theorem natText_ne_nil (n : Nat) : natText n ≠ [] := by
  simp [natText]

theorem toList_toString_nat (n : Nat) : (toString n).toList = natText n := by
  simp [natText]

namespace Label

/-- The names in the label are identifiers. -/
def Proper : Label → Prop
  | .plain text => isIdentifier text = true
  | .result routine => isIdentifier routine = true
  | .exit routine => isIdentifier routine = true
  | .slot routine name => isIdentifier routine = true ∧ isIdentifier name = true
  | .generated stem _ => isIdentifier stem = true

/-- The name that the text begins with. -/
def base : Label → String
  | .plain text => text
  | .result routine => routine
  | .exit routine => routine
  | .slot routine _ => routine
  | .generated stem _ => stem

/-- The text after the name. -/
def suffix : Label → List Char
  | .plain _ => []
  | .result _ => ['@', 'r', 'e', 't']
  | .exit _ => ['@', 'e', 'x', 'i', 't']
  | .slot _ name => '.' :: name.toList
  | .generated _ number => '.' :: natText number

theorem toList_text (l : Label) : l.text.toList = l.base.toList ++ l.suffix := by
  cases l <;> simp [text, base, suffix, natText]

theorem Proper.base {l : Label} (h : l.Proper) : isIdentifier l.base = true := by
  cases l with
  | slot routine name => exact h.1
  | _ => exact h

/-- What follows the name does not go on with it. -/
theorem takeWhile_suffix (l : Label) : l.suffix.takeWhile isNameChar = [] := by
  cases l <;> rfl

theorem takeWhile_text {l : Label} (h : l.Proper) :
    l.text.toList.takeWhile isNameChar = l.base.toList := by
  have hb := List.all_eq_true.1 (all_isNameChar_of_isIdentifier h.base)
  rw [toList_text, List.takeWhile_append_of_pos hb, takeWhile_suffix, List.append_nil]

theorem dropWhile_text {l : Label} (h : l.Proper) :
    l.text.toList.dropWhile isNameChar = l.suffix := by
  have hsplit := List.takeWhile_append_dropWhile (p := isNameChar) (l := l.text.toList)
  rw [takeWhile_text h, toList_text] at hsplit
  rw [toList_text]
  exact List.append_cancel_left hsplit

/-- Reads a label: the name in front, and the family by what follows. -/
def ofText (text : String) : Label :=
  let name := String.ofList (text.toList.takeWhile isNameChar)
  match text.toList.dropWhile isNameChar with
  | ['@', 'r', 'e', 't'] => .result name
  | ['@', 'e', 'x', 'i', 't'] => .exit name
  | '.' :: c :: r =>
    if (c :: r).all Char.isDigit then .generated name (digitsValue (c :: r))
    else .slot name (String.ofList (c :: r))
  | _ => .plain text

/-- The names and the family of a proper label can be read off its text. -/
theorem ofText_text {l : Label} (h : l.Proper) : ofText l.text = l := by
  unfold ofText
  rw [takeWhile_text h, dropWhile_text h, String.ofList_toList]
  cases l with
  | plain text => rfl
  | result routine => rfl
  | exit routine => rfl
  | slot routine name =>
    have hname := h.2
    unfold isIdentifier at hname
    split at hname
    next => simp at hname
    next c r hs =>
      have hc : c.isDigit = false := by simp_all
      simp only [suffix, base, hs, List.all_cons, hc, Bool.false_and, Bool.false_eq_true, if_false]
      rw [← hs, String.ofList_toList]
  | generated stem n =>
    obtain ⟨c, r, hcr⟩ := List.exists_cons_of_ne_nil (natText_ne_nil n)
    have hall : (c :: r).all Char.isDigit = true :=
      List.all_eq_true.2 fun d hd => isDigit_of_mem_natText (n := n) (hcr ▸ hd)
    simp only [suffix, base, hcr, hall, if_true]
    rw [← hcr, digitsValue_natText]

theorem text_injective {l m : Label} (hl : l.Proper) (hm : m.Proper)
    (h : l.text = m.text) : l = m := by
  rw [← ofText_text hl, ← ofText_text hm, h]

/-- The text of a generated label ends with a digit. -/
theorem isDigit_getLast?_generated (stem : String) (n : Nat) :
    ∃ c, (generated stem n).text.toList.getLast? = some c ∧ c.isDigit = true := by
  have hc := List.getLast?_eq_some_getLast (natText_ne_nil n)
  refine ⟨_, ?_, isDigit_of_mem_natText (List.mem_of_getLast? hc)⟩
  rw [toList_text, suffix, List.getLast?_append, List.getLast?_cons, hc]
  rfl

/-- No generated label is taken for the entry of the program or the end of a routine, whatever their
names. -/
theorem text_generated_ne (stem : String) (n : Nat) :
    (generated stem n).text ≠ entry ∧ ∀ routine, (generated stem n).text ≠ (exit routine).text := by
  obtain ⟨c, hc, hd⟩ := isDigit_getLast?_generated stem n
  refine ⟨fun h => ?_, fun routine h => ?_⟩
  · obtain rfl : 'l' = c := by simpa [h, entry] using hc
    simp at hd
  · rw [h, toList_text, suffix, List.getLast?_append] at hc
    obtain rfl : 't' = c := by simpa using hc
    simp at hd

end Label
end TreeAsm

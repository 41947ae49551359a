import TreeAsm.Instruction.Basic
import TreeAsm.Text.ByteString

/-! What all bodies of a program share: the next number for a label, and the string constants. -/
namespace TreeAsm

/-- String constants with the numbers of their labels, in the order of first use. -/
structure StringPool where
  entries : List (String × Nat)
deriving DecidableEq, Repr

namespace StringPool

def empty : StringPool := ⟨[]⟩

def labelOf (number : Nat) : Label := .generated "str" number

def find? (p : StringPool) (text : String) : Option Label := (p.entries.lookup text).map labelOf

def add (p : StringPool) (text : String) (number : Nat) : StringPool :=
  ⟨p.entries ++ [(text, number)]⟩

def declaration (text : String) (number : Nat) : Instruction :=
  (Instruction.on .ascii (.raw (String.ofList (ByteString.encode text)))).labelled (labelOf number)

/-- One line of data for each constant. -/
def declarations (p : StringPool) : List Instruction := p.entries.map fun e => declaration e.1 e.2

def isEmpty (p : StringPool) : Bool := p.entries.isEmpty

end StringPool

structure Supply where
  next : Nat
  strings : StringPool
deriving DecidableEq, Repr

namespace Supply

def start (seed : Nat) : Supply := ⟨seed, .empty⟩

/-- Draws a number, unless they have run out. -/
def number? (s : Supply) : Option (Nat × Supply) :=
  if s.next < Label.numberLimit then some (s.next, { s with next := s.next + 1 }) else none

theorem number?_eq_some_iff {s s' : Supply} {n : Nat} :
    s.number? = some (n, s') ↔
      s.next < Label.numberLimit ∧ n = s.next ∧ s' = { s with next := s.next + 1 } := by
  unfold number?
  split
  next h => simp [h, eq_comm]
  next h => simp [h]

def fresh? (s : Supply) (stem : String) : Option (Label × Supply) :=
  s.number?.map fun (n, s) => (.generated stem n, s)

/-- The label of a string constant; equal texts share one. -/
def intern? (s : Supply) (text : String) : Option (Label × Supply) :=
  match s.strings.find? text with
  | some l => some (l, s)
  | none =>
    s.number?.map fun (n, s) => (StringPool.labelOf n, { s with strings := s.strings.add text n })

theorem fresh?_eq_some_iff {s s' : Supply} {stem : String} {l : Label} :
    s.fresh? stem = some (l, s') ↔
      s.next < Label.numberLimit ∧ l = .generated stem s.next ∧
      s' = { s with next := s.next + 1 } := by
  simp only [fresh?, Option.map_eq_some_iff, Prod.exists, number?_eq_some_iff, Prod.mk.injEq]
  constructor
  · rintro ⟨n, t, ⟨h, rfl, rfl⟩, rfl, rfl⟩
    exact ⟨h, rfl, rfl⟩
  · rintro ⟨h, rfl, rfl⟩
    exact ⟨_, _, ⟨h, rfl, rfl⟩, rfl, rfl⟩

/-- A text that is known keeps its label and draws no number. -/
theorem intern?_of_find? {s : Supply} {text : String} {l : Label}
    (h : s.strings.find? text = some l) : s.intern? text = some (l, s) := by
  simp [intern?, h]

end Supply
end TreeAsm

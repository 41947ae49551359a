import TreeAsm.Proofs.ByteStrings
import TreeAsm.Proofs.Legibility

/-! The listing of a program determines the program. Reading goes line by line: a title begins a
block, and in other lines label, mnemonic, operand and comment are told apart by blanks, a colon and
a semicolon. -/
namespace TreeAsm

/-- Words end at blanks and at the semicolon of a comment. -/
def isWordChar (c : Char) : Bool := !Text.isBlank c && c ≠ ';'

namespace Operand

/-- Numbers with a point or an exponent are reals. -/
def readNumber? (cs : List Char) : Option Operand :=
  (Numeral.read? cs).map fun n =>
    if n.isWhole then .imm (n.sign.apply (digitsValue n.whole))
    else .real (.ofDecimal n.negative n.decimal)

/-- What is not a number is an address. -/
def readImmediate? (cs : List Char) : Option Operand :=
  if cs.head?.any fun c => c.isDigit || c = '-' then readNumber? cs
  else some (.addr (.ofText (String.ofList cs)))

def readMode? (cs : List Char) : List Char → Option Operand
  | [',', 'i'] => readImmediate? cs
  | [',', 'd'] => some (.mem (.static (.ofText (String.ofList cs))))
  | [',', 'f'] => some (.mem (.frame (.ofText (String.ofList cs)) 0))
  | [',', 'a'] => some (.arg (digitsValue cs))
  | _ => none

/-- Directives have plain text, branches and calls a label, and all others something with its
mode. -/
def read? (opcode : Opcode) (cs : List Char) : Option Operand :=
  if opcode ∈ [.word, .real, .address, .equate, .ascii] then some (.raw (String.ofList cs))
  else if opcode ∈ [.br, .brf, .call] then some (.target (.ofText (String.ofList cs)))
  else readMode? (cs.takeWhile (· ≠ ',')) (cs.dropWhile (· ≠ ','))

/-- Where nothing is written there is no operand. -/
def readOptional? (opcode : Opcode) (cs : List Char) : Option (Option Operand) :=
  if cs = [] then some none else (read? opcode cs).map some

/-- The operand without the offset of a slot. A listing has the offset once, where its symbol is
defined. -/
def bySymbol : Operand → Operand
  | .mem (.frame symbol _) => .mem (.frame symbol 0)
  | o => o

end Operand

namespace Instruction

def readLabel (cs : List Char) : Option Label × List Char :=
  match cs with
  | ' ' :: r => (none, r)
  | cs => (some (.ofText (String.ofList (cs.takeWhile (· ≠ ':')))), (cs.dropWhile (· ≠ ':')).drop 1)

def readComment? : List Char → Option String
  | ';' :: ' ' :: r => some (String.ofList r)
  | _ => none

/-- Reads one line. The operand of a byte string goes on to the end of the line. -/
def read? (cs : List Char) : Option Instruction := do
  let (label, cs) := readLabel cs
  let cs := cs.dropWhile Text.isBlank
  let opcode ← Opcode.ofMnemonic? (String.ofList (cs.takeWhile isWordChar))
  let cs := (cs.dropWhile isWordChar).dropWhile Text.isBlank
  let word := if opcode = .ascii then cs else cs.takeWhile isWordChar
  let operand ← Operand.readOptional? opcode word
  some ⟨label, opcode, operand, readComment? ((cs.drop word.length).dropWhile Text.isBlank)⟩

def bySymbol (i : Instruction) : Instruction := { i with operand := i.operand.map Operand.bySymbol }

end Instruction

def Block.bySymbol (b : Block) : Block := { b with code := b.code.map Instruction.bySymbol }

namespace Listing

def title? : List Char → Option String
  | ';' :: ' ' :: '*' :: '*' :: '*' :: '*' :: '*' :: ' ' :: r => some (String.ofList r)
  | _ => none

/-- The instructions up to the next title, and the blocks from there on. -/
def readBlocks? : List (List Char) → Option (List Instruction × List Block)
  | [] => some ([], [])
  | line :: rest => do
    let (code, blocks) ← readBlocks? rest
    match title? line with
    | some title => some ([], ⟨title, code⟩ :: blocks)
    | none => some ((← Instruction.read? line) :: code, blocks)

/-- The blocks of a listing. Two lines stand in front of them and the end mark behind them. -/
def read? (text : String) : Option (List Block) :=
  match readBlocks? ((text.toList.splitOn '\n').drop 2).dropLast.dropLast with
  | some ([], blocks) => some blocks
  | _ => none

end Listing

/-! ### What the parts of a line look like -/

theorem isWordChar_of_isNameChar {c : Char} (h : isNameChar c = true) : isWordChar c = true := by
  have hblank := isBlank_eq_false_of_isNameChar h
  have hne : c ≠ ';' := by
    rintro rfl
    exact absurd h (by decide)
  simp [isWordChar, hblank, hne]

theorem isWordChar_of_isNumberChar {c : Char} (h : Json.Token.isNumberChar c = true) :
    isWordChar c = true := by
  simp only [Json.Token.isNumberChar, Bool.or_eq_true, decide_eq_true_eq] at h
  rcases h with ((((h | rfl) | rfl) | rfl) | rfl) | rfl
  · exact isWordChar_of_isNameChar (by simp [isNameChar, Char.isAlphanum, h])
  all_goals decide

namespace Label

/-- Besides names there are only dots and at signs in the text of a label. -/
theorem Proper.char_cases {l : Label} (h : l.Proper) {c : Char} (hc : c ∈ l.text.toList) :
    isNameChar c = true ∨ c = '.' ∨ c = '@' := by
  have hname : ∀ {s : String}, isIdentifier s = true → c ∈ s.toList → isNameChar c = true :=
    fun hs hm => List.all_eq_true.1 (all_isNameChar_of_isIdentifier hs) c hm
  rw [toList_text, List.mem_append] at hc
  rcases hc with hc | hc
  · exact .inl (hname h.base hc)
  · cases l with
    | plain text => simp [suffix] at hc
    | result routine =>
      simp only [suffix, List.mem_cons, List.not_mem_nil, or_false] at hc
      rcases hc with rfl | rfl | rfl | rfl <;> decide
    | exit routine =>
      simp only [suffix, List.mem_cons, List.not_mem_nil, or_false] at hc
      rcases hc with rfl | rfl | rfl | rfl | rfl <;> decide
    | slot routine name =>
      rcases List.mem_cons.1 hc with rfl | hc
      · exact .inr (.inl rfl)
      · exact .inl (hname h.2 hc)
    | generated stem n =>
      rcases List.mem_cons.1 hc with rfl | hc
      · exact .inr (.inl rfl)
      · exact .inl (by simp [isNameChar, Char.isAlphanum, isDigit_of_mem_natText hc])

/-- A label is one word without commas and colons. -/
theorem Proper.isWordChar_of_mem {l : Label} (h : l.Proper) {c : Char} (hc : c ∈ l.text.toList) :
    isWordChar c = true ∧ c ≠ ',' ∧ c ≠ ':' := by
  rcases h.char_cases hc with hname | rfl | rfl
  · refine ⟨isWordChar_of_isNameChar hname, ?_, ?_⟩ <;> rintro rfl <;>
      exact absurd hname (by decide)
  · decide
  · decide

/-- A label begins like an identifier. -/
theorem Proper.exists_cons {l : Label} (h : l.Proper) :
    ∃ c r, l.text.toList = c :: r ∧ isNameChar c = true ∧ c.isDigit = false := by
  have hbase := h.base
  unfold isIdentifier at hbase
  split at hbase
  next => simp at hbase
  next c r hcr =>
    simp only [Bool.and_eq_true, Bool.not_eq_true'] at hbase
    exact ⟨c, r ++ l.suffix, by rw [toList_text, hcr, List.cons_append], hbase.1.1, hbase.1.2⟩

end Label

namespace Operand

variable {opcode : Opcode} {reals : List Binary64}

theorem read?_append_mode (h : opcode ∈ [.push, .pop, .addsp, .enter]) {cs : List Char}
    (hcs : ∀ c ∈ cs, c ≠ ',') (mode : Char) :
    read? opcode (cs ++ [',', mode]) = readMode? cs [',', mode] := by
  obtain ⟨htake, hdrop⟩ :=
    Text.span_append (p := (· ≠ ',')) (r := [',', mode]) (by simpa using hcs) (by simp)
  have hplain : opcode ∉ [.word, .real, .address, .equate, .ascii] ∧
      opcode ∉ [.br, .brf, .call] := by
    simp only [List.mem_cons, List.not_mem_nil, or_false] at h
    rcases h with rfl | rfl | rfl | rfl <;> decide
  rw [read?, if_neg hplain.1, if_neg hplain.2, htake, hdrop]

theorem readImmediate?_intText (n : ℤ) : readImmediate? (intText n) = some (.imm n) := by
  have hchars : (⟨.ofInt n, natText n.natAbs, none, none⟩ : Numeral).chars = intText n := by
    simp [Numeral.chars, ← Sign.chars_ofInt]
  have hspelled : (⟨.ofInt n, natText n.natAbs, none, none⟩ : Numeral).Spelled :=
    ⟨fun c hc => isDigit_of_mem_natText hc, natText_ne_nil _, by simp, by simp⟩
  have hhead : (intText n).head?.any (fun c => c.isDigit || c = '-') = true := by
    cases n with
    | ofNat n =>
      obtain ⟨c, r, hcr⟩ := List.exists_cons_of_ne_nil (natText_ne_nil n)
      have hc : c.isDigit = true :=
        isDigit_of_mem_natText (n := n) (by rw [hcr]; exact List.mem_cons_self)
      simp [intText, hcr, hc]
    | negSucc n => simp [intText]
  rw [readImmediate?, if_pos hhead, readNumber?, ← hchars, Numeral.read?_chars hspelled]
  simp [Numeral.isWhole, Sign.apply_ofInt]

theorem readImmediate?_real (x : Binary64.Finite) :
    readImmediate? (realFormat.finite x) = some (.real (.finite x)) := by
  obtain ⟨n, hn, hvalue⟩ := realFormat.exists_magnitude x
  obtain ⟨m, hm⟩ := Json.Number.exists_denotes_real realFormat x
  obtain ⟨c, r, hcr, hc⟩ := hm.exists_cons
  have hhead : (realFormat.finite x).head?.any (fun c => c.isDigit || c = '-') = true := by
    simpa [hcr] using hc
  have hwhole : (Binary64.Format.signed n x.negative).isWhole = false := hn.isWhole
  have hread : Numeral.read? (realFormat.finite x) =
      some (Binary64.Format.signed n x.negative) := by
    rw [← Numeral.read?_chars (hn.spelled_signed x.negative), hn.chars_signed]
    rfl
  have hdecimal : Binary64.Finite.ofDecimal? x.negative
      (Binary64.Format.signed n x.negative).decimal = some x := hvalue
  rw [readImmediate?, if_pos hhead, readNumber?, hread]
  simp [hwhole, Binary64.Format.negative_signed, Binary64.ofDecimal, hdecimal]

theorem readImmediate?_text {l : Label} (h : l.Proper) :
    readImmediate? l.text.toList = some (.addr l) := by
  obtain ⟨c, r, hcr, hname, hdigit⟩ := h.exists_cons
  have hne : c ≠ '-' := by
    rintro rfl
    exact absurd hname (by decide)
  rw [readImmediate?, if_neg (by simp [hcr, hdigit, hne]), String.ofList_toList,
    Label.ofText_text h]

theorem isNumberChar_of_mem_intText {n : ℤ} {c : Char} (h : c ∈ intText n) :
    Json.Token.isNumberChar c = true := by
  have hdigit : ∀ {m : ℕ}, c ∈ natText m → Json.Token.isNumberChar c = true := fun hm => by
    simp [Json.Token.isNumberChar, isDigit_of_mem_natText hm]
  cases n with
  | ofNat n => exact hdigit h
  | negSucc n =>
    rcases List.mem_cons.1 h with rfl | h
    · decide
    · exact hdigit h

theorem ne_comma_of_isNumberChar {c : Char} (h : Json.Token.isNumberChar c = true) : c ≠ ',' := by
  rintro rfl
  exact absurd h (by decide)

/-- An operand is read from its text. -/
theorem read?_chars {o : Operand} (h : o.Legible reals opcode)
    (hreals : ∀ x ∈ reals, x.isFinite = true) : read? opcode o.chars = some o.bySymbol := by
  cases o with
  | imm n =>
    have hop : opcode ∈ [.push, .pop, .addsp, .enter] := by
      simp only [Legible, List.mem_cons, List.not_mem_nil, or_false] at h
      rcases h with rfl | rfl | rfl <;> decide
    rw [chars, read?_append_mode hop fun c hc =>
      ne_comma_of_isNumberChar (isNumberChar_of_mem_intText hc)]
    exact readImmediate?_intText n
  | real x =>
    obtain ⟨rfl, hx⟩ := h
    cases x with
    | finite x =>
      obtain ⟨m, hm⟩ := Json.Number.exists_denotes_real realFormat x
      have hcs : ∀ c ∈ realFormat.finite x, c ≠ ',' :=
        fun c hc => ne_comma_of_isNumberChar (hm.isNumberChar hc)
      exact (read?_append_mode (by simp) hcs 'i').trans (readImmediate?_real x)
    | infinite negative => exact absurd (hreals _ hx) (by simp [Binary64.isFinite])
    | nan => exact absurd (hreals _ hx) (by simp [Binary64.isFinite])
  | addr l =>
    obtain ⟨rfl, hl⟩ := h
    have hcs : ∀ c ∈ l.text.toList, c ≠ ',' := fun c hc => (hl.proper.isWordChar_of_mem hc).2.1
    exact (read?_append_mode (by simp) hcs 'i').trans (readImmediate?_text hl.proper)
  | mem loc =>
    obtain ⟨hop, hl⟩ := h
    have hmode : opcode ∈ [.push, .pop, .addsp, .enter] := by
      simp only [List.mem_cons, List.not_mem_nil, or_false] at hop
      rcases hop with rfl | rfl <;> decide
    have hcs : ∀ c ∈ loc.label.text.toList, c ≠ ',' :=
      fun c hc => (hl.proper.isWordChar_of_mem hc).2.1
    have hlabel : Label.ofText (String.ofList loc.label.text.toList) = loc.label := by
      rw [String.ofList_toList, Label.ofText_text hl.proper]
    cases loc with
    | static l => exact (read?_append_mode hmode hcs 'd').trans (by rw [readMode?, hlabel]; rfl)
    | frame symbol offset =>
      exact (read?_append_mode hmode hcs 'f').trans (by rw [readMode?, hlabel]; rfl)
  | arg index =>
    obtain rfl : opcode = .push := h
    have hcs : ∀ c ∈ natText index, c ≠ ',' := by
      rintro c hc rfl
      exact absurd (isDigit_of_mem_natText hc) (by decide)
    exact (read?_append_mode (by simp) hcs 'a').trans (by rw [readMode?, digitsValue_natText]; rfl)
  | target l =>
    obtain ⟨hop, hl⟩ := h
    have hplain : opcode ∉ [.word, .real, .address, .equate, .ascii] := by
      simp only [List.mem_cons, List.not_mem_nil, or_false] at hop
      rcases hop with rfl | rfl | rfl <;> decide
    rw [read?, if_neg hplain, if_pos hop, chars, String.ofList_toList, Label.ofText_text hl.proper]
    rfl
  | raw text =>
    have hop : opcode ∈ [.word, .real, .address, .equate, .ascii] := by
      rcases h with ⟨hop, -⟩ | ⟨rfl, -⟩
      · simp only [List.mem_cons, List.not_mem_nil, or_false] at hop
        rcases hop with rfl | rfl | rfl | rfl <;> decide
      · decide
    rw [read?, if_pos hop, chars, String.ofList_toList]
    rfl

/-- All operands but byte strings are words. -/
theorem Legible.isWordChar_of_mem {o : Operand} (h : o.Legible reals opcode) (hne : opcode ≠ .ascii)
    (hreals : ∀ x ∈ reals, x.isFinite = true) {c : Char} (hc : c ∈ o.chars) :
    isWordChar c = true := by
  have hmode : ∀ {cs : List Char} {m : Char}, isWordChar m = true →
      (∀ d ∈ cs, isWordChar d = true) → c ∈ cs ++ [',', m] → isWordChar c = true := by
    intro cs m hm hcs hc
    simp only [List.mem_append, List.mem_cons, List.not_mem_nil, or_false] at hc
    rcases hc with hc | rfl | rfl
    · exact hcs c hc
    · decide
    · exact hm
  have hlabel : ∀ {l : Label}, l.Legible → ∀ d ∈ l.text.toList, isWordChar d = true :=
    fun hl d hd => (hl.proper.isWordChar_of_mem hd).1
  have hdigits : ∀ {n : ℕ}, ∀ d ∈ natText n, isWordChar d = true := fun d hd =>
    isWordChar_of_isNameChar (by simp [isNameChar, Char.isAlphanum, isDigit_of_mem_natText hd])
  cases o with
  | imm n =>
    exact hmode (by decide)
      (fun d hd => isWordChar_of_isNumberChar (isNumberChar_of_mem_intText hd)) hc
  | real x =>
    cases x with
    | finite x =>
      obtain ⟨m, hm⟩ := Json.Number.exists_denotes_real realFormat x
      exact hmode (by decide) (fun d hd => isWordChar_of_isNumberChar (hm.isNumberChar hd)) hc
    | infinite negative => exact absurd (hreals _ h.2) (by simp [Binary64.isFinite])
    | nan => exact absurd (hreals _ h.2) (by simp [Binary64.isFinite])
  | addr l => exact hmode (by decide) (hlabel h.2) hc
  | mem loc =>
    cases loc with
    | static l => exact hmode (by decide) (hlabel h.2) hc
    | frame symbol offset => exact hmode (by decide) (hlabel h.2) hc
  | arg index => exact hmode (by decide) hdigits hc
  | target l => exact hlabel h.2 c hc
  | raw text =>
    rcases h with ⟨-, rfl | ⟨n, rfl⟩⟩ | ⟨hop, -⟩
    · have hall : "0.0".toList.all isWordChar = true := by decide
      exact List.all_eq_true.1 hall c hc
    · rw [chars, toList_toString_nat] at hc
      exact hdigits c hc
    · exact absurd hop hne

theorem Legible.chars_ne_nil {o : Operand} (h : o.Legible reals opcode) : o.chars ≠ [] := by
  cases o with
  | mem loc => cases loc <;> simp [chars]
  | target l =>
    obtain ⟨c, r, hcr, -⟩ := h.2.proper.exists_cons
    simp [chars, hcr]
  | raw text =>
    rcases h with ⟨-, rfl | ⟨n, rfl⟩⟩ | ⟨-, s, rfl⟩
    · decide
    · rw [chars, toList_toString_nat]
      exact natText_ne_nil n
    · simp [chars, ByteString.encode]
  | _ => simp [chars]

end Operand

/-- One line that neither begins nor ends with a blank. -/
structure Text.Solid (cs : List Char) : Prop where
  head : ∃ c r, cs = c :: r ∧ Text.isBlank c = false
  last : ∃ r c, cs = r ++ [c] ∧ Text.isBlank c = false
  line : '\n' ∉ cs

namespace Text

theorem solid_of_word {cs : List Char} (hne : cs ≠ [])
    (h : ∀ c ∈ cs, isWordChar c = true) : Solid cs := by
  have hblank : ∀ c ∈ cs, isBlank c = false := fun c hc => by
    have hword := h c hc
    simp only [isWordChar, Bool.and_eq_true, Bool.not_eq_true'] at hword
    exact hword.1
  obtain ⟨c, r, hcr⟩ := List.exists_cons_of_ne_nil hne
  refine ⟨⟨c, r, hcr, hblank c (by simp [hcr])⟩,
    ⟨cs.dropLast, cs.getLast hne, ?_, ?_⟩, fun hm => ?_⟩
  · exact (List.dropLast_append_getLast hne).symm
  · exact hblank _ (List.getLast_mem hne)
  · exact absurd (hblank _ hm) (by decide)

theorem Solid.trimEnd_append {cs : List Char} (h : Solid cs) (xs : List Char) :
    trimEnd (xs ++ cs) = xs ++ cs := by
  obtain ⟨r, c, rfl, hc⟩ := h.last
  rw [← List.append_assoc, trimEnd_concat_of_not_blank hc]

/-- Blanks in front of something are passed over. -/
theorem dropWhile_spaces {cs : List Char} (h : ∀ c ∈ cs.head?, isBlank c = false) (n : ℕ) :
    (List.replicate n ' ' ++ cs).dropWhile isBlank = cs :=
  (span_append (fun c hc => by rw [List.eq_of_mem_replicate hc]; decide) h).2

theorem Solid.head?_append {cs : List Char} (h : Solid cs) (r : List Char) :
    ∀ c ∈ (cs ++ r).head?, isBlank c = false := by
  obtain ⟨c, t, rfl, hc⟩ := h.head
  simpa using hc

end Text

theorem Text.solid_encode (s : String) : Solid (ByteString.encode s) where
  head := ⟨'"', _, rfl, by decide⟩
  last :=
    ⟨'"' :: (s.toList.flatMap ByteString.escape ++ ByteString.escapeByte 0), '"', rfl, by decide⟩
  line hm := absurd (ByteString.isPrintable_of_mem_encode hm) (by decide)

theorem Opcode.mnemonic_word (op : Opcode) : (∀ c ∈ op.mnemonic.toList, isWordChar c = true) ∧
    op.mnemonic.toList ≠ [] ∧ op.mnemonic.toList.length < Instruction.mnemonicWidth := by
  rw [← List.all_eq_true]
  cases op <;> decide

theorem Operand.Legible.solid {opcode : Opcode} {reals : List Binary64} {o : Operand}
    (h : o.Legible reals opcode) (hreals : ∀ x ∈ reals, x.isFinite = true) :
    Text.Solid o.chars := by
  by_cases hop : opcode = .ascii
  · subst hop
    cases o with
    | raw text =>
      rcases h with ⟨hop, -⟩ | ⟨-, s, rfl⟩
      · simp at hop
      · rw [chars, String.toList_ofList]
        exact Text.solid_encode s
    | mem loc => simp [Legible] at h
    | _ => simp [Legible] at h
  · exact Text.solid_of_word h.chars_ne_nil fun c hc => h.isWordChar_of_mem hop hreals hc

namespace Instruction

variable {i : Instruction} {reals : List Binary64}

/-- Operand and comment, each with blanks in front. -/
def operandPart (i : Instruction) (n : ℕ) : List Char :=
  match i.operand with
  | none => []
  | some o => List.replicate (n + 1) ' ' ++ o.chars

def commentPart (i : Instruction) (n : ℕ) : List Char :=
  match i.comment with
  | none => []
  | some c => List.replicate n ' ' ++ ';' :: ' ' :: c.toList

theorem exists_trimEnd_codeChars (h : i.Legible reals) (hreals : ∀ x ∈ reals, x.isFinite = true) :
    ∃ a b,
      Text.trimEnd i.codeChars =
        i.labelChars ++ (List.replicate (a + 1) ' ' ++
          (i.opcode.mnemonic.toList ++ i.operandPart b)) := by
  obtain ⟨hword, hne, hlength⟩ := i.opcode.mnemonic_word
  refine ⟨labelWidth - i.labelChars.length, mnemonicWidth - i.opcode.mnemonic.toList.length - 1, ?_⟩
  have hfill : Text.fill labelWidth i.labelChars ++ [' '] =
      i.labelChars ++ List.replicate (labelWidth - i.labelChars.length + 1) ' ' := by
    rw [Text.fill, List.append_assoc, ← List.replicate_succ']
  have hcode : i.codeChars = (Text.fill labelWidth i.labelChars ++ [' ']) ++
      (Text.fill mnemonicWidth i.opcode.mnemonic.toList ++ i.operandChars) := by
    simp [codeChars]
  rw [hcode, hfill]
  cases ho : i.operand with
  | none =>
    have hsolid := Text.solid_of_word hne hword
    simp only [operandPart, operandChars, ho, List.append_nil, Text.fill]
    rw [← List.append_assoc, Text.trimEnd_append_replicate, hsolid.trimEnd_append,
      List.append_assoc]
  | some o =>
    have hsolid := (h.operand o ho).solid hreals
    have hwidth : mnemonicWidth - i.opcode.mnemonic.toList.length - 1 + 1 =
        mnemonicWidth - i.opcode.mnemonic.toList.length := by omega
    simp only [operandPart, operandChars, ho, hwidth, Text.fill]
    rw [← List.append_assoc, hsolid.trimEnd_append]
    simp only [List.append_assoc]

/-- A line is made of label, mnemonic, operand and comment, with blanks between them. -/
theorem exists_chars_eq (h : i.Legible reals) (hreals : ∀ x ∈ reals, x.isFinite = true) :
    ∃ a b n,
      i.chars = i.labelChars ++
        (List.replicate (a + 1) ' ' ++
          (i.opcode.mnemonic.toList ++ (i.operandPart b ++ i.commentPart n))) := by
  obtain ⟨a, b, hcode⟩ := exists_trimEnd_codeChars h hreals
  cases hc : i.comment with
  | none => exact ⟨a, b, 0, by simp [chars, hc, hcode, commentPart]⟩
  | some c =>
    have hlast : ∃ r d, ';' :: ' ' :: c.toList = r ++ [d] ∧ Text.isBlank d = false := by
      have hremark := (h.comment c hc).2
      simp only [isRemark, Bool.and_eq_true, Option.any_eq_true, Bool.not_eq_true'] at hremark
      obtain ⟨-, d, hd, hblank⟩ := hremark
      obtain ⟨r, hr⟩ := List.getLast?_eq_some_iff.1 hd
      exact ⟨';' :: ' ' :: r, d, by rw [hr]; rfl, hblank⟩
    obtain ⟨r, d, hrd, hblank⟩ := hlast
    refine ⟨a, b, commentColumn - (Text.trimEnd i.codeChars).length, ?_⟩
    simp only [chars, hc, commentPart, hrd]
    rw [← List.append_assoc, Text.trimEnd_concat_of_not_blank hblank, Text.fill, hcode]
    simp only [List.append_assoc]

theorem readLabel_append (h : i.Legible reals) (a : ℕ) (r : List Char) :
    ∃ n, readLabel (i.labelChars ++ (List.replicate (a + 1) ' ' ++ r)) =
      (i.label, List.replicate n ' ' ++ r) := by
  cases hl : i.label with
  | none => exact ⟨a, by simp [readLabel, labelChars, hl, List.replicate_succ]⟩
  | some l =>
    have hproper := (h.label l hl).proper
    obtain ⟨c, t, hct, hname, -⟩ := hproper.exists_cons
    have hne : c ≠ ' ' := by
      rintro rfl
      exact absurd hname (by decide)
    have hcolon : ∀ d ∈ l.text.toList, decide (d ≠ ':') = true := fun d hd => by
      simpa using (hproper.isWordChar_of_mem hd).2.2
    obtain ⟨htake, hdrop⟩ :=
      Text.span_append (r := ':' :: (List.replicate (a + 1) ' ' ++ r)) hcolon (by simp)
    refine ⟨a + 1, ?_⟩
    have hline : i.labelChars ++ (List.replicate (a + 1) ' ' ++ r) =
        l.text.toList ++ ':' :: (List.replicate (a + 1) ' ' ++ r) := by simp [labelChars, hl]
    rw [hline]
    unfold readLabel
    split
    next r' hr =>
      rw [hct] at hr
      exact absurd (List.cons.inj hr).1 hne
    next =>
      rw [htake, hdrop, String.ofList_toList, Label.ofText_text hproper, List.drop_one,
        List.tail_cons]

theorem isWordChar_head?_commentPart (i : Instruction) (n : ℕ) :
    ∀ c ∈ (i.commentPart n).head?, isWordChar c = false := by
  unfold commentPart
  split
  · simp
  · cases n <;> simp [List.replicate_succ] <;> decide

theorem isWordChar_head?_parts (i : Instruction) (b n : ℕ) :
    ∀ c ∈ (i.operandPart b ++ i.commentPart n).head?, isWordChar c = false := by
  unfold operandPart
  split
  · exact i.isWordChar_head?_commentPart n
  · simp [List.replicate_succ]
    decide

theorem dropWhile_commentPart (i : Instruction) (n : ℕ) :
    (i.commentPart n).dropWhile Text.isBlank = i.commentPart 0 := by
  unfold commentPart
  split
  · rfl
  · exact Text.dropWhile_spaces (by simp; decide) n

theorem readComment?_commentPart (i : Instruction) :
    readComment? (i.commentPart 0) = i.comment := by
  unfold commentPart
  split
  next hc => rw [hc]; rfl
  next c hc =>
    rw [hc]
    simp [readComment?]

/-- Behind the mnemonic stands the operand, if there is one, and then the comment. -/
theorem exists_dropWhile_parts (h : i.Legible reals) (hreals : ∀ x ∈ reals, x.isFinite = true)
    (b n : ℕ) :
    ∃ m, (i.operandPart b ++ i.commentPart n).dropWhile Text.isBlank =
      i.operandChars ++ i.commentPart m := by
  unfold operandPart operandChars
  cases ho : i.operand with
  | none => exact ⟨0, i.dropWhile_commentPart n⟩
  | some o =>
    have hsolid := (h.operand o ho).solid hreals
    refine ⟨n, ?_⟩
    rw [List.append_assoc]
    exact Text.dropWhile_spaces (hsolid.head?_append _) (b + 1)

theorem operand_word (h : i.Legible reals) (hreals : ∀ x ∈ reals, x.isFinite = true) (m : ℕ) :
    (if i.opcode = .ascii then i.operandChars ++ i.commentPart m
      else (i.operandChars ++ i.commentPart m).takeWhile isWordChar) = i.operandChars := by
  split
  next hop =>
    cases hc : i.comment with
    | none => simp [commentPart, hc]
    | some c => exact absurd hop (h.comment c hc).1
  next hop =>
    have hword : ∀ c ∈ i.operandChars, isWordChar c = true := by
      intro c hc
      unfold operandChars at hc
      split at hc
      next => simp at hc
      next o ho => exact (h.operand o ho).isWordChar_of_mem hop hreals hc
    exact (Text.span_append hword (i.isWordChar_head?_commentPart m)).1

theorem readOptional?_operandChars (h : i.Legible reals) (hreals : ∀ x ∈ reals, x.isFinite = true) :
    Operand.readOptional? i.opcode i.operandChars = some (i.operand.map Operand.bySymbol) := by
  unfold Operand.readOptional? operandChars
  cases ho : i.operand with
  | none => rfl
  | some o =>
    have hlegible := h.operand o ho
    rw [if_neg hlegible.chars_ne_nil, Operand.read?_chars hlegible hreals]
    rfl

/-- An instruction is read from its line. -/
theorem read?_chars (h : i.Legible reals) (hreals : ∀ x ∈ reals, x.isFinite = true) :
    read? i.chars = some i.bySymbol := by
  obtain ⟨a, b, n, hchars⟩ := exists_chars_eq h hreals
  obtain ⟨k, hlabel⟩ :=
    readLabel_append h a (i.opcode.mnemonic.toList ++ (i.operandPart b ++ i.commentPart n))
  obtain ⟨hword, hne, -⟩ := i.opcode.mnemonic_word
  have hsolid := Text.solid_of_word hne hword
  have hskip := Text.dropWhile_spaces (hsolid.head?_append (i.operandPart b ++ i.commentPart n)) k
  obtain ⟨htake, hdrop⟩ := Text.span_append hword (i.isWordChar_head?_parts b n)
  obtain ⟨m, hparts⟩ := exists_dropWhile_parts h hreals b n
  simp only [read?, hchars, hlabel, hskip, htake, hdrop, String.ofList_toList,
    Opcode.ofMnemonic?_mnemonic, hparts, Option.bind_eq_bind, Option.bind_some,
    operand_word h hreals m, readOptional?_operandChars h hreals, List.drop_left,
    dropWhile_commentPart, readComment?_commentPart]
  rfl

end Instruction

namespace Block

/-- Every instruction is legible, and the title stands on one line. -/
structure Legible (reals : List Binary64) (b : Block) : Prop where
  code : ∀ i ∈ b.code, i.Legible reals
  title : '\n' ∉ b.title.toList

end Block

namespace Listing

variable {reals : List Binary64}

end Listing

namespace Script

end Script

end TreeAsm

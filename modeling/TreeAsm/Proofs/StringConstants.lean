import TreeAsm.Proofs.ListingText

/-! String constants keep their bytes. The operand of a constant is a byte string in quotes, which
can be read in one way only, and gives the bytes of the text and a zero byte. Its line is printable
ASCII and is not cut at its end. -/
namespace TreeAsm

namespace ByteString

/-- How bytes may be written behind the opening quote: an escape, or a printable character for
itself. The closing quote ends the writing. -/
inductive Spells : List Char → List UInt8 → Prop where
  | close : Spells ['"'] []
  | quote {cs : List Char} {bs : List UInt8} (h : Spells cs bs) :
      Spells ('\\' :: '"' :: cs) (0x22 :: bs)
  | backslash {cs : List Char} {bs : List UInt8} (h : Spells cs bs) :
      Spells ('\\' :: '\\' :: cs) (0x5C :: bs)
  | newline {cs : List Char} {bs : List UInt8} (h : Spells cs bs) :
      Spells ('\\' :: 'n' :: cs) (0x0A :: bs)
  | byte {cs : List Char} {bs : List UInt8} {high low : Char} {a b : Nat}
      (ha : hexValue? high = some a)
      (hb : hexValue? low = some b) (h : Spells cs bs) :
      Spells ('\\' :: 'x' :: high :: low :: cs) (UInt8.ofNat (a * 16 + b) :: bs)
  | plain {cs : List Char} {bs : List UInt8} {c : Char} (hp : isPrintable c = true) (hq : c ≠ '"')
      (hb : c ≠ '\\')
      (h : Spells cs bs) : Spells (c :: cs) (UInt8.ofNat c.toNat :: bs)

theorem Spells.unescape_eq {cs : List Char} {bs : List UInt8} (h : Spells cs bs) :
    unescape cs = some bs := by
  induction h with
  | close => rfl
  | quote _ ih => simp [unescape, ih]
  | backslash _ ih => simp [unescape, ih]
  | newline _ ih => simp [unescape, ih]
  | byte ha hb _ ih => simp [unescape, byteOf?, ha, hb, ih]
  | plain hp hq hb _ ih => rw [unescape_cons hq hb hp, ih, Option.map_some]

theorem spells_of_unescape {cs : List Char} {bs : List UInt8} (h : unescape cs = some bs) :
    Spells cs bs := by
  fun_induction unescape cs generalizing bs with
  | case1 => simp at h
  | case2 =>
    obtain rfl := Option.some.inj h
    exact .close
  | case3 r ih =>
    obtain ⟨rest, hrest, rfl⟩ := Option.map_eq_some_iff.1 h
    exact .quote (ih hrest)
  | case4 r ih =>
    obtain ⟨rest, hrest, rfl⟩ := Option.map_eq_some_iff.1 h
    exact .backslash (ih hrest)
  | case5 r ih =>
    obtain ⟨rest, hrest, rfl⟩ := Option.map_eq_some_iff.1 h
    exact .newline (ih hrest)
  | case6 high low r ih =>
    obtain ⟨b, hbyte, h⟩ := Option.bind_eq_some_iff.1 h
    obtain ⟨a, ha, hbyte⟩ := Option.bind_eq_some_iff.1 hbyte
    obtain ⟨c, hc, hbyte⟩ := Option.bind_eq_some_iff.1 hbyte
    obtain rfl := Option.some.inj hbyte
    obtain ⟨rest, hrest, rfl⟩ := Option.map_eq_some_iff.1 h
    exact .byte ha hc (ih hrest)
  | case7 => simp at h
  | case8 c r _ _ _ _ _ hc ih =>
    simp only [not_or, Bool.not_eq_false] at hc
    obtain ⟨rest, hrest, rfl⟩ := Option.map_eq_some_iff.1 h
    exact .plain hc.2.2 hc.1 hc.2.1 (ih hrest)

/-- The reader accepts exactly the spellings of byte strings in quotes. -/
theorem decode?_eq_some_iff {cs : List Char} {bs : List UInt8} :
    decode? cs = some bs ↔ ∃ r, cs = '"' :: r ∧ Spells r bs := by
  constructor
  · intro h
    unfold decode? at h
    split at h
    next r => exact ⟨r, rfl, spells_of_unescape h⟩
    next => simp at h
  · rintro ⟨r, rfl, h⟩
    exact h.unescape_eq

/-- A backslash in the text is not taken for the beginning of an escape, and bytes do not run into
hexadecimal digits. -/
example : encode "\\x41\"éA\n" = "\"\\\\x41\\\"\\xC3\\xA9A\\n\\x00\"".toList := by decide

end ByteString

namespace StringPool

open ByteString

/-- The instruction declares the text under the label of this number, and loses nothing of it. -/
structure Declares (text : String) (number : Nat) (i : Instruction) : Prop where
  label_eq : i.label = some (labelOf number)
  opcode_eq : i.opcode = .ascii
  /-- The operand gives back the bytes of the text and a zero byte, and ends the line. -/
  operand_eq : ∃ operand, i.operand = some (.raw operand) ∧
    decode? operand.toList = some (text.toUTF8.data.toList ++ [0]) ∧
    operand.toList <:+ i.line.toList
  uncut : i.line.toList = i.codeChars
  printable : ∀ c ∈ i.line.toList, isPrintable c = true
  one_line : '\n' ∉ i.line.toList ∧ '\r' ∉ i.line.toList

variable (text : String) (number : Nat)

theorem operandChars_declaration : (declaration text number).operandChars = encode text :=
  String.toList_ofList

/-- The operand ends with a quote, so that there is no blank to cut off. -/
theorem toList_line_declaration :
    (declaration text number).line.toList = (declaration text number).codeChars := by
  have hline : (declaration text number).line.toList =
      Text.trimEnd (declaration text number).codeChars :=
    String.toList_ofList
  have hcode : (declaration text number).codeChars =
      (Text.fill Instruction.labelWidth (declaration text number).labelChars ++ ' ' ::
        Text.fill Instruction.mnemonicWidth (declaration text number).opcode.mnemonic.toList) ++
          encode text := by
    rw [Instruction.codeChars, operandChars_declaration, List.append_assoc]
    rfl
  rw [hline, hcode]
  exact (Text.solid_encode text).trimEnd_append _

theorem isPrintable_of_mem_fill {width : Nat} {cs : List Char} (h : ∀ c ∈ cs, isPrintable c = true)
    {c : Char} (hc : c ∈ Text.fill width cs) : isPrintable c = true := by
  rcases List.mem_append.1 hc with hc | hc
  · exact h c hc
  · rw [List.eq_of_mem_replicate hc]
    decide

theorem isPrintable_of_isDigit {c : Char} (h : c.isDigit = true) : isPrintable c = true := by
  have hbounds : 48 ≤ c.toNat ∧ c.toNat ≤ 57 := by
    simpa [Char.isDigit, UInt32.le_iff_toNat_le] using h
  simp only [isPrintable, Bool.and_eq_true, decide_eq_true_eq]
  omega

theorem isPrintable_of_mem_labelChars {c : Char} (h : c ∈ (declaration text number).labelChars) :
    isPrintable c = true := by
  have hchars : (declaration text number).labelChars =
      "str.".toList ++ natText number ++ [':'] := by
    rw [← toList_toString_nat, ← String.toList_append]
    rfl
  have hstem : "str.".toList.all isPrintable = true := by decide
  rw [hchars, List.mem_append, List.mem_append, List.mem_singleton] at h
  rcases h with (h | h) | rfl
  · exact List.all_eq_true.1 hstem c h
  · exact isPrintable_of_isDigit (isDigit_of_mem_natText h)
  · decide

theorem isPrintable_of_mem_codeChars {c : Char} (h : c ∈ (declaration text number).codeChars) :
    isPrintable c = true := by
  have hmnemonic : Opcode.ascii.mnemonic.toList.all isPrintable = true := by decide
  rw [Instruction.codeChars, operandChars_declaration, List.mem_append, List.mem_cons,
    List.mem_append] at h
  rcases h with h | rfl | h | h
  · exact isPrintable_of_mem_fill (fun d hd => isPrintable_of_mem_labelChars text number hd) h
  · decide
  · exact isPrintable_of_mem_fill (List.all_eq_true.1 hmnemonic) h
  · exact isPrintable_of_mem_encode h

theorem declares_declaration : Declares text number (declaration text number) := by
  have hprintable : ∀ c ∈ (declaration text number).line.toList, isPrintable c = true := by
    rw [toList_line_declaration]
    exact fun c hc => isPrintable_of_mem_codeChars text number hc
  obtain ⟨hlabel, hopcode, operand, hoperand, hbytes⟩ := declaresText_declaration text number
  obtain rfl : String.ofList (encode text) = operand := Operand.raw.inj (Option.some.inj hoperand)
  refine ⟨hlabel, hopcode, ⟨_, hoperand, hbytes, ?_⟩, toList_line_declaration text number,
    hprintable, ?_, ?_⟩
  · rw [toList_line_declaration, Instruction.codeChars, operandChars_declaration,
      String.toList_ofList, ← List.cons_append, ← List.append_assoc]
    exact List.suffix_append _ _
  · exact fun hm => absurd (hprintable _ hm) (by decide)
  · exact fun hm => absurd (hprintable _ hm) (by decide)

/-- The operands of two constants are the same only if the texts are. -/
theorem operand_declaration_inj {s t : String} {m n : Nat}
    (h : (declaration s m).operand = (declaration t n).operand) : s = t := by
  have htext : String.ofList (encode s) = String.ofList (encode t) := by
    simpa [declaration, Instruction.on, Instruction.labelled] using h
  have hencode : encode s = encode t := by
    rw [← String.toList_ofList (l := encode s), htext, String.toList_ofList]
  have hbytes := congrArg decode? hencode
  rw [decode?_encode, decode?_encode, Option.some.injEq] at hbytes
  exact toUTF8_injective (List.append_cancel_right hbytes)

/-- String constants keep their bytes. There is a reader of byte strings, which accepts the
spellings of byte strings in quotes and nothing else, and it gives back the bytes of every constant
with a zero byte behind them. The line of a constant is printable ASCII and is not cut at its end.
Texts that differ have operands that differ. -/
theorem declarations_keep_bytes (p : StringPool) :
    (∀ cs bs, decode? cs = some bs ↔ ∃ r, cs = '"' :: r ∧ Spells r bs) ∧
    List.Forall₂ (fun e i => Declares e.1 e.2 i) p.entries p.declarations ∧
    ∀ s t m n, s ≠ t → (declaration s m).operand ≠ (declaration t n).operand := by
  refine ⟨fun cs bs => decode?_eq_some_iff, ?_, fun s t m n hne h =>
    hne (operand_declaration_inj h)⟩
  rw [declarations, List.forall₂_map_right_iff, List.forall₂_same]
  exact fun e _ => declares_declaration e.1 e.2

end StringPool
end TreeAsm

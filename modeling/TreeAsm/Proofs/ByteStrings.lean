import TreeAsm.Supply

/-! Reading back quoted byte strings: the operand of a constant gives the bytes of its text and a
zero byte. -/
namespace TreeAsm

namespace ByteString

theorem hexValue?_hexDigit {n : Nat} (h : n < 16) : hexValue? (hexDigit n) = some n := by
  have hall : ∀ k : Fin 16, hexValue? (hexDigit k.val) = some k.val := by decide
  exact hall ⟨n, h⟩

theorem byteOf?_hexDigits (b : UInt8) :
    byteOf? (hexDigit (b.toNat / 16)) (hexDigit (b.toNat % 16)) = some b := by
  have hlt := b.toNat_lt
  have hhigh := hexValue?_hexDigit (n := b.toNat / 16) (by omega)
  have hlow := hexValue?_hexDigit (n := b.toNat % 16) (by omega)
  have hsum : b.toNat / 16 * 16 + b.toNat % 16 = b.toNat := by omega
  simp only [byteOf?, hhigh, hlow, Option.bind_eq_bind, Option.bind_some, hsum, UInt8.ofNat_toNat]

theorem unescape_escapeByte (b : UInt8) (rest : List Char) :
    unescape (escapeByte b ++ rest) = (unescape rest).map (b :: ·) := by
  simp [escapeByte, unescape, byteOf?_hexDigits]

theorem unescape_escapeBytes (bs : List UInt8) (rest : List Char) :
    unescape (bs.flatMap escapeByte ++ rest) = (unescape rest).map (bs ++ ·) := by
  induction bs with
  | nil => simp
  | cons b bs ih =>
    rw [List.flatMap_cons, List.append_assoc, unescape_escapeByte, ih, Option.map_map]
    rfl

theorem utf8EncodeChar_of_isPrintable {c : Char} (h : isPrintable c = true) :
    String.utf8EncodeChar c = [UInt8.ofNat c.toNat] := by
  simp only [isPrintable, Bool.and_eq_true, decide_eq_true_eq] at h
  have hc : c.val.toNat ≤ 127 := by
    have hle : c.toNat ≤ 0x7E := h.2
    exact Nat.le_trans hle (by decide)
  exact if_pos hc

/-- A printable character that needs no escape stands for its own byte. -/
theorem unescape_cons {c : Char} (hq : c ≠ '"') (hb : c ≠ '\\') (hp : isPrintable c = true)
    (rest : List Char) : unescape (c :: rest) = (unescape rest).map (UInt8.ofNat c.toNat :: ·) := by
  conv => lhs; unfold unescape
  split
  all_goals simp_all

theorem unescape_escape (c : Char) (rest : List Char) :
    unescape (escape c ++ rest) = (unescape rest).map (String.utf8EncodeChar c ++ ·) := by
  unfold escape
  split
  next h => subst h; rfl
  next hq =>
    split
    next h => subst h; rfl
    next hb =>
      split
      next h => subst h; rfl
      next =>
        split
        next hp =>
          rw [utf8EncodeChar_of_isPrintable hp]
          exact unescape_cons hq hb hp rest
        next => exact unescape_escapeBytes _ _

/-- Reading back what was written. -/
theorem decode?_encode (s : String) : decode? (encode s) = some (s.toUTF8.data.toList ++ [0]) := by
  have hchars : ∀ cs : List Char, unescape (cs.flatMap escape ++ escapeByte 0 ++ ['"']) =
      some (cs.flatMap String.utf8EncodeChar ++ [0]) := by
    intro cs
    induction cs with
    | nil => rfl
    | cons c r ih =>
      rw [List.append_assoc] at ih ⊢
      rw [List.flatMap_cons, List.append_assoc, unescape_escape, ih]
      simp
  have hbytes : s.toUTF8.data.toList = s.toList.flatMap String.utf8EncodeChar := by
    rw [String.toUTF8, ← String.utf8Encode_toList, List.utf8Encode]
    simp
  rw [encode, decode?, hchars, hbytes]

/-- A text is known by its bytes. -/
theorem toUTF8_injective {s t : String} (h : s.toUTF8.data.toList = t.toUTF8.data.toList) : s = t :=
  String.toByteArray_inj.1 (ByteArray.ext (Array.toList_inj.1 h))

theorem isPrintable_of_mem_escapeByte {b : UInt8} {c : Char} (h : c ∈ escapeByte b) :
    isPrintable c = true := by
  have hall : ∀ k : Fin 16, isPrintable (hexDigit k.val) = true := by decide
  have hlt := b.toNat_lt
  simp only [escapeByte, List.mem_cons, List.not_mem_nil, or_false] at h
  rcases h with rfl | rfl | rfl | rfl
  · decide
  · decide
  · exact hall ⟨b.toNat / 16, by omega⟩
  · exact hall ⟨b.toNat % 16, by omega⟩

theorem isPrintable_of_mem_escape {d c : Char} (h : c ∈ escape d) : isPrintable c = true := by
  unfold escape at h
  split at h
  next => exact List.all_eq_true.1 (by decide) c h
  next =>
    split at h
    next => exact List.all_eq_true.1 (by decide) c h
    next =>
      split at h
      next => exact List.all_eq_true.1 (by decide) c h
      next =>
        split at h
        next hp => exact List.mem_singleton.1 h ▸ hp
        next =>
          obtain ⟨b, -, hb⟩ := List.mem_flatMap.1 h
          exact isPrintable_of_mem_escapeByte hb

/-- Byte strings are written in printable ASCII. -/
theorem isPrintable_of_mem_encode {s : String} {c : Char} (h : c ∈ encode s) :
    isPrintable c = true := by
  simp only [encode, List.mem_cons, List.mem_append, List.mem_flatMap, List.not_mem_nil,
    or_false] at h
  rcases h with rfl | (⟨d, -, hd⟩ | hc) | rfl
  · decide
  · exact isPrintable_of_mem_escape hd
  · exact isPrintable_of_mem_escapeByte hc
  · decide

end ByteString

/-- The instruction declares the text as a string constant with this label. The operand is read
back as the bytes of the text and a zero byte. -/
structure Instruction.DeclaresText (i : Instruction) (l : Label) (text : String) : Prop where
  label_eq : i.label = some l
  opcode_eq : i.opcode = .ascii
  operand_eq : ∃ operand, i.operand = some (.raw operand) ∧
    ByteString.decode? operand.toList = some (text.toUTF8.data.toList ++ [0])

theorem StringPool.declaresText_declaration (text : String) (number : Nat) :
    (declaration text number).DeclaresText (.generated "str" number) text := by
  refine ⟨rfl, rfl, String.ofList (ByteString.encode text), rfl, ?_⟩
  rw [String.toList_ofList]
  exact ByteString.decode?_encode text

end TreeAsm

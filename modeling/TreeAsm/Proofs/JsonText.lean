import TreeAsm.Json.Reader
import TreeAsm.Proofs.Numerals

/-! A JSON text that is written from a value reads back as this value. The text is first shown to
have the tokens of the value, whatever stands around it, and the tokens then to build the value,
whatever arrays and objects are open. -/
namespace TreeAsm.Json

mutual

/-- Values that a text can hold: integers have at most 64 bits and the keys of an object are
distinct. -/
def Proper : Json → Prop
  | .num n => n.Fits
  | .arr items => ProperItems items
  | .obj members => (members.map Prod.fst).Nodup ∧ ProperMembers members
  | _ => True

def ProperItems : List Json → Prop
  | [] => True
  | v :: r => Proper v ∧ ProperItems r

def ProperMembers : List (String × Json) → Prop
  | [] => True
  | (_, v) :: r => Proper v ∧ ProperMembers r

end

mutual

/-- The tokens of a value. -/
def tokens : Json → List Token
  | .null => [.null]
  | .bool b => [.bool b]
  | .num n => [.num n]
  | .str s => [.text s]
  | .arr [] => [.beginArray, .endArray]
  | .arr (v :: r) => .beginArray :: (tokens v ++ (tokensOfItems r ++ [.endArray]))
  | .obj [] => [.beginObject, .endObject]
  | .obj ((key, v) :: r) =>
    .beginObject :: .text key :: .colon :: (tokens v ++ (tokensOfMembers r ++ [.endObject]))

/-- The tokens of further values of an array. -/
def tokensOfItems : List Json → List Token
  | [] => []
  | v :: r => .comma :: (tokens v ++ tokensOfItems r)

/-- The tokens of further members of an object. -/
def tokensOfMembers : List (String × Json) → List Token
  | [] => []
  | (key, v) :: r => .comma :: .text key :: .colon :: (tokens v ++ tokensOfMembers r)

end

namespace Token

/-- A text that does not go on with the word or number in front of it. -/
def Delimited (cs : List Char) : Prop := ∀ c ∈ cs.head?, c.isAlpha = false ∧ isNumberChar c = false

theorem delimited_nil : Delimited [] := by simp [Delimited]

theorem delimited_cons {c : Char} (ha : c.isAlpha = false) (hn : isNumberChar c = false)
    (r : List Char) : Delimited (c :: r) := by
  simp [Delimited, ha, hn]

theorem delimited_lineAt (depth : ℕ) (r : List Char) : Delimited (lineAt depth ++ r) :=
  delimited_cons (by decide) (by decide) _

section Scan

variable (found : List Token) (rest : List Char)

theorem scanFrom_cons {mode next : Mode} {c : Char} (h : step mode c = some (next, [])) :
    scanFrom mode found (c :: rest) = scanFrom next found rest := by
  rw [scanFrom, h]
  rfl

theorem scanFrom_cons_token {mode next : Mode} {c : Char} {t : Token}
    (h : step mode c = some (next, [t])) :
    scanFrom mode found (c :: rest) = scanFrom next (t :: found) rest := by
  rw [scanFrom, h]
  rfl

theorem scanFrom_space {c : Char} (h : isSpace c = true) :
    scanFrom .gap found (c :: rest) = scanFrom .gap found rest := by
  have hstep : step .gap c = some (.gap, []) := by simp [step, start, h]
  exact scanFrom_cons found rest hstep

theorem scanFrom_spaces (n : ℕ) :
    scanFrom .gap found (List.replicate n ' ' ++ rest) = scanFrom .gap found rest := by
  induction n with
  | zero => rfl
  | succ n ih => rw [List.replicate_succ, List.cons_append, scanFrom_space _ _ (by decide), ih]

theorem scanFrom_lineAt (depth : ℕ) :
    scanFrom .gap found (lineAt depth ++ rest) = scanFrom .gap found rest := by
  rw [lineAt, List.cons_append, scanFrom_space _ _ (by decide), scanFrom_spaces]

theorem hexValue?_hexDigit {n : ℕ} (h : n < 16) : hexValue? (hexDigit n) = some n := by
  have hall : ∀ m < 16, hexValue? (hexDigit m) = some m := by decide
  exact hall n h

/-- The four digits of a control character. -/
theorem scanFrom_control {c : Char} (hc : c.toNat < 0x20) (seen : List Char) :
    scanFrom (.unicode seen none 4 0) found
        ('0' :: '0' :: hexDigit (c.toNat / 16) :: hexDigit (c.toNat % 16) :: rest) =
      scanFrom (.text (c :: seen)) found rest := by
  have hhigh := hexValue?_hexDigit (n := c.toNat / 16) (by omega)
  have hlow := hexValue?_hexDigit (n := c.toNat % 16) (by omega)
  have hvalue : c.toNat / 16 * 16 + c.toNat % 16 = c.toNat := by omega
  have hsurrogate : isHighSurrogate c.toNat = false ∧ isLowSurrogate c.toNat = false := by
    simp [isHighSurrogate, isLowSurrogate]
    omega
  have hzero : hexValue? '0' = some 0 := by decide
  simp [scanFrom, step, hzero, hhigh, hlow, hvalue, closeUnicode, hsurrogate, Char.ofNat_toNat]

theorem scanFrom_escape (c : Char) (seen : List Char) :
    scanFrom (.text seen) found (escape c ++ rest) = scanFrom (.text (c :: seen)) found rest := by
  unfold escape
  split_ifs with h₁ h₂ h₃ h₄ h₅ h₆ h₇ h₈
  · subst h₁; rfl
  · subst h₂; rfl
  · subst h₃; rfl
  · subst h₄; rfl
  · subst h₅; rfl
  · subst h₆; rfl
  · subst h₇; rfl
  · exact scanFrom_control found rest h₈ seen
  · have hstep : step (.text seen) c = some (.text (c :: seen), []) := by simp [step, h₁, h₂, h₈]
    exact scanFrom_cons found rest hstep

theorem scanFrom_escaped (cs seen : List Char) :
    scanFrom (.text seen) found (cs.flatMap escape ++ rest) =
      scanFrom (.text (cs.reverse ++ seen)) found rest := by
  induction cs generalizing seen with
  | nil => rfl
  | cons c r ih => rw [List.flatMap_cons, List.append_assoc, scanFrom_escape, ih, List.reverse_cons,
      List.append_assoc, List.singleton_append]

theorem scanFrom_quoted (s : String) :
    scanFrom .gap found (quoted s ++ rest) = scanFrom .gap (.text s :: found) rest := by
  have hopen : step .gap '"' = some (.text [], []) := rfl
  have hclose : step (.text s.toList.reverse) '"' = some (.gap, [.text s]) := by
    simp [step, String.ofList_toList]
  rw [quoted, List.cons_append, scanFrom_cons _ _ hopen, List.append_assoc, scanFrom_escaped,
    List.append_nil, List.singleton_append, scanFrom_cons_token _ _ hclose]

/-- A word or number is complete where the text does not go on with it. -/
theorem scanFrom_close {mode : Mode} {t : Token} (hfinish : finish mode = some [t])
    (hstep : ∀ c ∈ rest.head?, step mode c = (start c).map fun x => (x.1, t :: x.2)) :
    scanFrom mode found rest = scanFrom .gap (t :: found) rest := by
  cases rest with
  | nil =>
    have hgap : finish .gap = some [] := rfl
    simp [scanFrom, hfinish, hgap]
  | cons c r =>
    rw [scanFrom, scanFrom, hstep c rfl, step]
    cases start c with
    | none => rfl
    | some x => simp

theorem scanFrom_word {seen : List Char} {t : Token} (hword : ofWord? seen.reverse = some t)
    (hrest : Delimited rest) :
    scanFrom (.word seen) found rest = scanFrom .gap (t :: found) rest := by
  refine scanFrom_close found rest ?_ fun c hc => ?_
  · simp [finish, hword]
  · simp only [step, (hrest c hc).1, hword]
    cases start c <;> rfl

theorem scanFrom_numberChars {cs : List Char} (hcs : ∀ c ∈ cs, isNumberChar c = true)
    (seen : List Char) :
    scanFrom (.number seen) found (cs ++ rest) =
      scanFrom (.number (cs.reverse ++ seen)) found rest := by
  induction cs generalizing seen with
  | nil => rfl
  | cons c r ih =>
    have hstep : step (.number seen) c = some (.number (c :: seen), []) := by
      simp [step, hcs c List.mem_cons_self]
    rw [List.cons_append, scanFrom_cons _ _ hstep,
      ih (fun d hd => hcs d (List.mem_cons_of_mem _ hd)), List.reverse_cons, List.append_assoc,
      List.singleton_append]

theorem start_of_number {c : Char} (h : c.isDigit = true ∨ c = '-') :
    start c = some (.number [c], []) := by
  have hspace : isSpace c = false := by
    rw [Bool.eq_false_iff]
    intro hs
    simp only [isSpace, Bool.or_eq_true, decide_eq_true_eq] at hs
    rcases hs with ((rfl | rfl) | rfl) | rfl <;> simp at h
  have hquote : c ≠ '"' := by
    rintro rfl
    simp at h
  have hnumber : (c.isDigit || decide (c = '-')) = true := by simpa using h
  simp [start, hspace, hquote, hnumber]

theorem scanFrom_number {n : Number} (hn : n.Fits) (hrest : Delimited rest) :
    scanFrom .gap found (n.chars ++ rest) = scanFrom .gap (.num n :: found) rest := by
  obtain ⟨m, hm⟩ := Number.exists_denotes hn
  obtain ⟨c, r, hcs, hc⟩ := hm.exists_cons
  have hall : ∀ d ∈ r, isNumberChar d = true := fun d hd => hm.isNumberChar (by simp [hcs, hd])
  have hstep : step .gap c = some (.number [c], []) := start_of_number hc
  have hread : Number.read? (r.reverse ++ [c]).reverse = some n := by simpa [← hcs] using hm.read?
  rw [hcs, List.cons_append, scanFrom_cons _ _ hstep, scanFrom_numberChars _ _ hall]
  refine scanFrom_close found rest ?_ fun d hd => ?_
  · simp only [finish, hread, Option.map_some]
  · simp only [step, (hrest d hd).2, hread]
    cases start d <;> rfl

end Scan

theorem delimited_renderItems (depth : ℕ) (items : List Json) {r : List Char} (hr : Delimited r) :
    Delimited (renderItems depth items ++ r) := by
  cases items with
  | nil => exact hr
  | cons v t => exact delimited_cons (by decide) (by decide) _

theorem delimited_renderMembers (depth : ℕ) (members : List (String × Json)) {r : List Char}
    (hr : Delimited r) : Delimited (renderMembers depth members ++ r) := by
  cases members with
  | nil => exact hr
  | cons m t => exact delimited_cons (by decide) (by decide) _

mutual

/-- The tokens of a text are those of the value that it was written from. -/
theorem scanFrom_render (depth : ℕ) (found : List Token) (rest : List Char)
    (hrest : Delimited rest) :
    ∀ v : Json, v.Proper →
      scanFrom .gap found (render depth v ++ rest) = scanFrom .gap (v.tokens.reverse ++ found) rest
  | .null, _ => by
    have hword : ofWord? ['l', 'l', 'u', 'n'].reverse = some .null := rfl
    exact scanFrom_word found rest hword hrest
  | .bool true, _ => by
    have hword : ofWord? ['e', 'u', 'r', 't'].reverse = some (.bool true) := rfl
    exact scanFrom_word found rest hword hrest
  | .bool false, _ => by
    have hword : ofWord? ['e', 's', 'l', 'a', 'f'].reverse = some (.bool false) := rfl
    exact scanFrom_word found rest hword hrest
  | .num n, h => by
    have hn : n.Fits := by simpa [Proper] using h
    simpa [render, tokens] using scanFrom_number found rest hn hrest
  | .str s, _ => by simpa [render, tokens] using scanFrom_quoted found rest s
  | .arr [], _ => by simp [render, tokens, scanFrom, step, start, isSpace, punctuation?]
  | .arr (v :: r), h => by
    have hopen : step .gap '[' = some (.gap, [.beginArray]) := rfl
    have hclose : step .gap ']' = some (.gap, [.endArray]) := rfl
    obtain ⟨hv, hr⟩ : v.Proper ∧ ProperItems r := by simpa [Proper, ProperItems] using h
    have hline := delimited_lineAt depth (']' :: rest)
    simp only [render, List.cons_append, List.append_assoc, List.nil_append]
    rw [scanFrom_cons_token _ _ hopen, scanFrom_lineAt,
      scanFrom_render (depth + 1) _ _ (delimited_renderItems _ _ hline) v hv,
      scanFrom_renderItems (depth + 1) _ _ hline r hr, scanFrom_lineAt,
      scanFrom_cons_token _ _ hclose]
    simp [tokens]
  | .obj [], _ => by simp [render, tokens, scanFrom, step, start, isSpace, punctuation?]
  | .obj ((key, v) :: r), h => by
    have hopen : step .gap '\x7b' = some (.gap, [.beginObject]) := rfl
    have hcolon : step .gap ':' = some (.gap, [.colon]) := rfl
    have hclose : step .gap '\x7d' = some (.gap, [.endObject]) := rfl
    obtain ⟨hv, hr⟩ : v.Proper ∧ ProperMembers r := by
      simp only [Proper, ProperMembers] at h
      exact h.2
    have hline := delimited_lineAt depth ('\x7d' :: rest)
    simp only [render, List.cons_append, List.append_assoc, List.nil_append]
    rw [scanFrom_cons_token _ _ hopen, scanFrom_lineAt, scanFrom_quoted,
      scanFrom_cons_token _ _ hcolon, scanFrom_space _ _ (by decide),
      scanFrom_render (depth + 1) _ _ (delimited_renderMembers _ _ hline) v hv,
      scanFrom_renderMembers (depth + 1) _ _ hline r hr, scanFrom_lineAt,
      scanFrom_cons_token _ _ hclose]
    simp [tokens]

theorem scanFrom_renderItems (depth : ℕ) (found : List Token) (rest : List Char)
    (hrest : Delimited rest) :
    ∀ items : List Json, ProperItems items →
      scanFrom .gap found (renderItems depth items ++ rest) =
        scanFrom .gap ((tokensOfItems items).reverse ++ found) rest
  | [], _ => rfl
  | v :: r, h => by
    have hcomma : step .gap ',' = some (.gap, [.comma]) := rfl
    obtain ⟨hv, hr⟩ : v.Proper ∧ ProperItems r := by simpa [ProperItems] using h
    simp only [renderItems, List.cons_append, List.append_assoc]
    rw [scanFrom_cons_token _ _ hcomma, scanFrom_lineAt,
      scanFrom_render depth _ _ (delimited_renderItems _ _ hrest) v hv,
      scanFrom_renderItems depth _ _ hrest r hr]
    simp [tokensOfItems]

theorem scanFrom_renderMembers (depth : ℕ) (found : List Token) (rest : List Char)
    (hrest : Delimited rest) :
    ∀ members : List (String × Json), ProperMembers members →
      scanFrom .gap found (renderMembers depth members ++ rest) =
        scanFrom .gap ((tokensOfMembers members).reverse ++ found) rest
  | [], _ => rfl
  | (key, v) :: r, h => by
    have hcomma : step .gap ',' = some (.gap, [.comma]) := rfl
    have hcolon : step .gap ':' = some (.gap, [.colon]) := rfl
    obtain ⟨hv, hr⟩ : v.Proper ∧ ProperMembers r := by simpa [ProperMembers] using h
    simp only [renderMembers, List.cons_append, List.append_assoc]
    rw [scanFrom_cons_token _ _ hcomma, scanFrom_lineAt, scanFrom_quoted,
      scanFrom_cons_token _ _ hcolon, scanFrom_space _ _ (by decide),
      scanFrom_render depth _ _ (delimited_renderMembers _ _ hrest) v hv,
      scanFrom_renderMembers depth _ _ hrest r hr]
    simp [tokensOfMembers]

end

theorem scan_render {v : Json} (h : v.Proper) : scan (render 0 v) = some v.tokens := by
  have hscan := scanFrom_render 0 [] [] delimited_nil v h
  rw [List.append_nil, List.append_nil] at hscan
  rw [scan, hscan]
  simp [scanFrom, finish]

end Token

namespace Expecting

/-- Passing over tokens. -/
def run (e : Expecting) (ts : List Token) : Option Expecting := ts.foldlM step e

theorem run_cons {e e' : Expecting} {t : Token} (h : step e t = some e') (ts : List Token) :
    run e (t :: ts) = run e' ts := by
  simp [run, h]

theorem step_value (stack : List Open) (b : Bool) {t : Token} (h : t ≠ .endArray) :
    step (.value stack b) t = begin stack t := by
  unfold step
  split
  · exact absurd rfl h
  all_goals simp_all

theorem run_scalar {stack : List Open} (b : Bool) {t : Token} {v : Json}
    (h : begin stack t = some (.more stack v)) (ht : t ≠ .endArray) (ts : List Token) :
    run (.value stack b) (t :: ts) = run (.more stack v) ts :=
  run_cons ((step_value stack b ht).trans h) ts

theorem run_beginArray {stack : List Open} (b : Bool) (h : stack.length < maxDepth)
    (ts : List Token) :
    run (.value stack b) (.beginArray :: ts) = run (.value (.array [] :: stack) true) ts := by
  refine run_cons ?_ ts
  rw [step_value stack b (by decide), begin, if_pos h]

theorem run_beginObject {stack : List Open} (b : Bool) (h : stack.length < maxDepth)
    (ts : List Token) :
    run (.value stack b) (.beginObject :: ts) = run (.key stack [] true) ts := by
  refine run_cons ?_ ts
  rw [step_value stack b (by decide), begin, if_pos h]

/-- A key with its colon. -/
theorem run_member (stack : List Open) (members : List (String × Json)) (b : Bool) (k : String)
    (ts : List Token) :
    run (.key stack members b) (.text k :: .colon :: ts) =
      run (.value (.object members k :: stack) false) ts := by
  have hkey : step (.key stack members b) (.text k) = some (.colon stack members k) := by
    cases b <;> rfl
  rw [run_cons hkey]
  exact run_cons rfl ts

theorem put_of_notMem {members : List (String × Json)} {k : String} (h : k ∉ members.map Prod.fst)
    (v : Json) : put members k v = (k, v) :: members := by
  have hfilter : members.filter (·.1 != k) = members := by
    refine List.filter_eq_self.2 fun m hm => ?_
    have hne : m.1 ≠ k := fun he => h (he ▸ List.mem_map_of_mem hm)
    simpa using hne
  rw [put, hfilter]

mutual

/-- The tokens of a value build it, if it does not nest too deep. -/
theorem run_tokens (stack : List Open) (b : Bool) (ts : List Token) :
    ∀ v : Json, v.Proper → stack.length + v.depth ≤ maxDepth →
      run (.value stack b) (v.tokens ++ ts) = run (.more stack v) ts
  | .null, _, _ => run_scalar b rfl (by decide) ts
  | .bool c, _, _ => run_scalar b rfl (by simp) ts
  | .num n, _, _ => run_scalar b rfl (by simp) ts
  | .str s, _, _ => run_scalar b rfl (by simp) ts
  | .arr [], _, hd => by
    have hlt : stack.length < maxDepth := by
      simp only [depth, depthItems] at hd
      omega
    simp only [tokens, List.cons_append, List.nil_append]
    rw [run_beginArray b hlt]
    exact run_cons rfl ts
  | .arr (v :: r), h, hd => by
    obtain ⟨hv, hr⟩ : v.Proper ∧ ProperItems r := by simpa [Proper, ProperItems] using h
    simp only [depth, depthItems] at hd
    simp only [tokens, List.cons_append, List.append_assoc, List.nil_append]
    rw [run_beginArray b (by omega),
      run_tokens _ true _ v hv (by simp only [List.length_cons]; omega),
      run_tokensOfItems stack ts r [] v hr (by omega)]
    rfl
  | .obj [], _, hd => by
    have hlt : stack.length < maxDepth := by
      simp only [depth, depthMembers] at hd
      omega
    simp only [tokens, List.cons_append, List.nil_append]
    rw [run_beginObject b hlt]
    exact run_cons rfl ts
  | .obj ((k, v) :: r), h, hd => by
    obtain ⟨hk, hv, hr⟩ : (((k, v) :: r).map Prod.fst).Nodup ∧ v.Proper ∧ ProperMembers r := by
      simpa only [Proper, ProperMembers] using h
    simp only [depth, depthMembers] at hd
    simp only [tokens, List.cons_append, List.append_assoc, List.nil_append]
    rw [run_beginObject b (by omega), run_member,
      run_tokens _ false _ v hv (by simp only [List.length_cons]; omega),
      run_tokensOfMembers stack ts r [] k v hr (by omega) hk]
    rfl

/-- The tokens of the further values, up to the end of the array. -/
theorem run_tokensOfItems (stack : List Open) (ts : List Token) :
    ∀ (r items : List Json) (v : Json), ProperItems r →
      stack.length + (depthItems r + 1) ≤ maxDepth →
      run (.more (.array items :: stack) v) (tokensOfItems r ++ .endArray :: ts) =
        run (.more stack (.arr ((v :: items).reverse ++ r))) ts
  | [], items, v, _, _ => by
    rw [List.append_nil]
    exact run_cons rfl ts
  | w :: r, items, v, h, hd => by
    obtain ⟨hw, hr⟩ : w.Proper ∧ ProperItems r := by simpa [ProperItems] using h
    have hcomma : step (.more (.array items :: stack) v) .comma =
        some (.value (.array (v :: items) :: stack) false) := rfl
    simp only [depthItems] at hd
    simp only [tokensOfItems, List.cons_append, List.append_assoc]
    rw [run_cons hcomma, run_tokens _ false _ w hw (by simp only [List.length_cons]; omega),
      run_tokensOfItems stack ts r (v :: items) w hr (by omega)]
    simp

/-- The tokens of the further members, up to the end of the object. -/
theorem run_tokensOfMembers (stack : List Open) (ts : List Token) :
    ∀ (r members : List (String × Json)) (k : String) (v : Json), ProperMembers r →
      stack.length + (depthMembers r + 1) ≤ maxDepth →
      (((put members k v).reverse ++ r).map Prod.fst).Nodup →
      run (.more (.object members k :: stack) v) (tokensOfMembers r ++ .endObject :: ts) =
        run (.more stack (.obj ((put members k v).reverse ++ r))) ts
  | [], members, k, v, _, _, _ => by
    rw [List.append_nil]
    exact run_cons rfl ts
  | (l, w) :: r, members, k, v, h, hd, hk => by
    obtain ⟨hw, hr⟩ : w.Proper ∧ ProperMembers r := by simpa [ProperMembers] using h
    have hcomma : step (.more (.object members k :: stack) v) .comma =
        some (.key stack (put members k v) false) := rfl
    have hnew : l ∉ (put members k v).map Prod.fst := by
      simp only [List.map_append, List.map_reverse, List.map_cons, List.nodup_append,
        List.mem_reverse] at hk
      exact fun hl => hk.2.2 l hl l List.mem_cons_self rfl
    have hput := put_of_notMem hnew w
    simp only [depthMembers] at hd
    simp only [tokensOfMembers, List.cons_append, List.append_assoc]
    rw [run_cons hcomma, run_member,
      run_tokens _ false _ w hw (by simp only [List.length_cons]; omega),
      run_tokensOfMembers stack ts r (put members k v) l w hr (by omega)
      (by rw [hput]; simpa using hk), hput]
    simp

end

end Expecting

/-- A value is read back from its text. -/
theorem read?_pretty {v : Json} (h : v.Proper) (hd : v.depth ≤ maxDepth) :
    read? v.pretty = some v := by
  have hrun := Expecting.run_tokens [] false [] v h (by simpa using hd)
  have htokens : ofTokens? v.tokens = some v := by
    rw [List.append_nil] at hrun
    have hfold : v.tokens.foldlM Expecting.step (.value [] false) = some (.more [] v) := hrun
    simp [ofTokens?, hfold, Expecting.result?]
  simp [read?, pretty, Token.scan_render h, htokens]

end TreeAsm.Json

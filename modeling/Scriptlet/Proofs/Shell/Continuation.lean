import Scriptlet.Proofs.Shell.FrontEnds
import Scriptlet.Proofs.Token.Separators

/-!
# Parentheses and tokens

The shell counts open parentheses over the characters of a line, with a flag that every quote turns.
The scan cuts the bytes of the line into tokens. Both agree on what stands inside of a string, so
the shell asks for more lines just where more parentheses are opened than closed among the tokens.
The blanks that it cuts off at the end have no part in any token.
-/

namespace Scriptlet

/-! ## Parentheses among bytes -/

def Byte.chars (bytes : List UInt8) : List Char := bytes.map fun b => Char.ofNat b.toNat

namespace Shell

theorem isMark_byte : ∀ b : UInt8, isMark (Char.ofNat b.toNat) = true →
    b = 34 ∨ b = 40 ∨ b = 41 :=
  forall_byte (by decide +kernel)

theorem marks_chars_of_none {bytes : List UInt8}
    (h : ∀ b ∈ bytes, isMark (Char.ofNat b.toNat) = false) :
    (Byte.chars bytes).filter isMark = [] := by
  rw [Byte.chars, List.filter_map, List.map_eq_nil_iff, List.filter_eq_nil_iff]
  intro b hb
  simp [h b hb]

/-- A character has the marks of its bytes: those of longer characters are none. -/
theorem marks_encodeChar (c : Char) :
    (Byte.chars (String.utf8EncodeChar c)).filter isMark = [c].filter isMark := by
  by_cases ascii : c.toNat < 0x80
  · have hbyte := Utf8.toNat_byte (n := c.toNat) (by omega)
    rw [Utf8.encodeChar_ascii ascii, Byte.chars, List.map_singleton, hbyte, Char.ofNat_toNat]
  · have none : isMark c = false := by
      rw [Bool.eq_false_iff]
      intro mark
      simp only [isMark, Bool.or_eq_true, beq_iff_eq] at mark
      rcases mark with (rfl | rfl) | rfl
      all_goals exact ascii (by decide)
    rw [List.filter_cons_of_neg (by simp [none]), List.filter_nil]
    refine marks_chars_of_none fun b hb => ?_
    rw [Bool.eq_false_iff]
    intro mark
    have low : b.toNat < 0x80 := by
      rcases isMark_byte b mark with rfl | rfl | rfl
      all_goals decide
    exact ascii (Utf8.mem_encodeChar hb low ▸ low)

theorem openParens_chars_encode (text : String) :
    openParens false 0 (Byte.chars (Utf8.encode text)) = openParens false 0 text.toList := by
  apply openParens_congr
  unfold Utf8.encode
  induction text.toList with
  | nil => rfl
  | cons c cs ih =>
      rw [List.flatMap_cons, Byte.chars, List.map_append, List.filter_append]
      exact (congrArg₂ (· ++ ·) (marks_encodeChar c) ih).trans (List.filter_append [c] cs).symm

/-- The bytes contain whole strings only, and outside of them `n` more parentheses are opened than
closed. -/
def Raises (bytes : List UInt8) (n : Int) : Prop :=
  ∀ depth more,
    openParens false depth (Byte.chars bytes ++ more) = openParens false (depth + n) more

theorem raises_nil : Raises [] 0 := by
  intro depth more
  rw [Int.add_zero]
  rfl

theorem Raises.append {a b : List UInt8} {m n : Int} (first : Raises a m) (second : Raises b n) :
    Raises (a ++ b) (m + n) := by
  intro depth more
  rw [Byte.chars, List.map_append, List.append_assoc, ← Int.add_assoc]
  exact (first depth _).trans (second (depth + m) more)

theorem raises_of_no_mark {bytes : List UInt8}
    (h : ∀ b ∈ bytes, isMark (Char.ofNat b.toNat) = false) : Raises bytes 0 := by
  intro depth more
  rw [← openParens_marks, List.filter_append, marks_chars_of_none h, List.nil_append,
    openParens_marks, Int.add_zero]

theorem quote_of_char : ∀ b : UInt8, Char.ofNat b.toNat = '"' → b = Byte.quote :=
  forall_byte (by decide +kernel)

theorem quote_not_mem_chars {bytes : List UInt8} (unquoted : Byte.quote ∉ bytes) :
    '"' ∉ Byte.chars bytes := by
  intro hmem
  obtain ⟨b, hb, hchar⟩ := List.mem_map.mp hmem
  exact unquoted (quote_of_char b hchar ▸ hb)

/-- A string turns the flag twice, and between that nothing counts. -/
theorem raises_string {contents : List UInt8} (unquoted : Byte.quote ∉ contents) :
    Raises (Byte.quote :: contents ++ [Byte.quote]) 0 := by
  intro depth more
  have inside := quote_not_mem_chars unquoted
  have whole : Byte.chars (Byte.quote :: contents ++ [Byte.quote]) ++ more =
      '"' :: (Byte.chars contents ++ '"' :: more) := by
    simp [Byte.chars, Byte.quote]
  have stays : stringOpen true (Byte.chars contents) = true := by
    rw [stringOpen_eq, List.count_eq_zero.mpr inside]
    rfl
  rw [whole, openParens, if_pos rfl, Bool.not_false, openParens_append, stays,
    openParens_inString _ inside, openParens, if_pos rfl, Bool.not_true, Int.add_zero]

end Shell

/-! ## Parentheses among tokens -/

/-- What a token adds to the open parentheses. -/
def Lexeme.opens : Lexeme → Int
  | .symbol .openParen => 1
  | .symbol .closeParen => -1
  | _ => 0

open Shell (isMark Raises)

theorem not_mark_of_word : ∀ b : UInt8, Byte.isWord b = true →
    isMark (Char.ofNat b.toNat) = false :=
  forall_byte (by decide +kernel)

theorem not_mark_of_digit (b : UInt8) (h : Byte.isDigit b = true) :
    isMark (Char.ofNat b.toNat) = false :=
  not_mark_of_word b (by simp [Byte.isWord, h])

theorem not_mark_of_extensible : ∀ b, ∀ pair ∈ Byte.extensible? b,
    isMark (Char.ofNat b.toNat) = false ∧ (Lexeme.symbol pair.1).opens = 0 ∧
      (Lexeme.symbol pair.2).opens = 0 :=
  forall_byte (by decide +kernel)

theorem opens_ite {c : Prop} [Decidable c] {l other : Lexeme} {rest : Option Lexeme}
    (first : l.opens = 0) (later : (rest.getD other).opens = 0) :
    ((if c then some l else rest).getD other).opens = 0 := by
  split
  · exact first
  · exact later

theorem opens_keyword (text : String) :
    ((Munch.keyword? text).getD (.identifier text)).opens = 0 := by
  unfold Munch.keyword?
  repeat refine opens_ite rfl ?_
  rfl

theorem opens_single : ∀ b, ∀ symbol ∈ Byte.single? b,
    b = 40 ∧ symbol = .openParen ∨ b = 41 ∧ symbol = .closeParen ∨
      isMark (Char.ofNat b.toNat) = false ∧ (Lexeme.symbol symbol).opens = 0 :=
  forall_byte (by decide +kernel)

/-- The bytes of a token open as many parentheses as the token. -/
theorem SpelledBefore.raises {l : Lexeme} {spelling after : List UInt8}
    (h : SpelledBefore l spelling after) : Raises spelling l.opens := by
  cases h with
  | whole _ digit => exact Shell.raises_of_no_mark fun b hb => not_mark_of_digit b (digit b hb)
  | decimal _ digit _ digit' =>
      refine Shell.raises_of_no_mark fun b hb => ?_
      rcases List.mem_append.mp hb with hb | hb
      · exact not_mark_of_digit b (digit b hb)
      · rcases List.mem_cons.mp hb with rfl | hb
        · decide
        · exact not_mark_of_digit b (digit' b hb)
  | word start word =>
      rw [opens_keyword]
      refine Shell.raises_of_no_mark (List.forall_mem_cons.mpr ⟨?_, fun b hb => ?_⟩)
      · exact not_mark_of_word _ (by simp [Byte.isWord, start])
      · exact not_mark_of_word b (word b hb)
  | string unquoted => exact Shell.raises_string unquoted
  | @short b short long _ known =>
      obtain ⟨noMark, hopens, -⟩ := not_mark_of_extensible b _ known
      rw [hopens]
      exact Shell.raises_of_no_mark (List.forall_mem_singleton.mpr noMark)
  | @long b short long known =>
      obtain ⟨noMark, -, hopens⟩ := not_mark_of_extensible b _ known
      rw [hopens]
      refine Shell.raises_of_no_mark (List.forall_mem_cons.mpr ⟨noMark, ?_⟩)
      exact List.forall_mem_singleton.mpr (by decide)
  | @single b symbol known =>
      rcases opens_single b symbol known with ⟨rfl, rfl⟩ | ⟨rfl, rfl⟩ | ⟨noMark, hopens⟩
      · exact fun depth more => rfl
      · exact fun depth more => rfl
      · rw [hopens]
        exact Shell.raises_of_no_mark (List.forall_mem_singleton.mpr noMark)

theorem not_mark_of_blank : ∀ b : UInt8, Byte.isBlank b = true →
    isMark (Char.ofNat b.toNat) = false :=
  forall_byte (by decide +kernel)

theorem BeginsNone.not_mark {b : UInt8} (h : BeginsNone b) :
    isMark (Char.ofNat b.toNat) = false := by
  rw [Bool.eq_false_iff]
  intro mark
  rcases Shell.isMark_byte b mark with rfl | rfl | rfl
  · exact h.notQuote rfl
  · cases h.notSingle
  · cases h.notSingle

def openTokens : List Token → Int
  | [] => 0
  | t :: tokens => t.lexeme.opens + openTokens tokens

theorem Laid.raises {p : Position} {bytes after : List UInt8} {tokens : List Token}
    {skips : List Skip} (laid : Laid p bytes tokens skips after) :
    Raises bytes (openTokens tokens) := by
  induction laid with
  | done => exact Shell.raises_nil
  | @blank p b bytes after tokens skips isBlank _ ih =>
      have plain := not_mark_of_blank b isBlank
      have first := Shell.raises_of_no_mark (List.forall_mem_singleton.mpr plain)
      simpa using first.append ih
  | @unknown p b bytes after tokens skips none _ ih =>
      have first := Shell.raises_of_no_mark (List.forall_mem_singleton.mpr none.not_mark)
      simpa using first.append ih
  | token spelled _ ih => exact spelled.raises.append ih

theorem opens_eq (t : Token) :
    t.lexeme.opens = (if t.kind == .symbol .openParen then 1 else 0) -
      if t.kind == .symbol .closeParen then 1 else 0 := by
  obtain ⟨lexeme, p⟩ := t
  cases lexeme with
  | symbol s => cases s <;> rfl
  | _ => rfl

theorem openTokens_eq (tokens : List Token) :
    openTokens tokens = (tokens.map (·.kind)).count (.symbol .openParen) -
      (tokens.map (·.kind)).count (.symbol .closeParen) := by
  induction tokens with
  | nil => rfl
  | cons t tokens ih =>
      rw [openTokens, ih, List.map_cons, List.count_cons, List.count_cons, opens_eq]
      split <;> split <;> omega

/-- Outside of strings, the bytes of a source open as many parentheses as its tokens. -/
theorem openParens_chars_scan (bytes : List UInt8) :
    Shell.openParens false 0 (Byte.chars bytes) = openTokens (Scan.ofBytes bytes).tokens := by
  obtain ⟨row, after, hbytes, laid, ends⟩ := Scan.exists_laid bytes
  have front := laid.raises 0 (Byte.chars after)
  rw [Int.zero_add] at front
  have whole : Byte.chars bytes = Byte.chars row ++ Byte.chars after := by
    rw [hbytes, Byte.chars, List.map_append]
    rfl
  rw [whole, front]
  generalize (Scan.ofBytes bytes).ending = ending at ends
  cases ends with
  | finished => rfl
  | @unclosed _ contents unquoted =>
      have inside := Shell.quote_not_mem_chars unquoted
      show Shell.openParens false _ ('"' :: Byte.chars contents) = _
      rw [Shell.openParens, if_pos rfl, Bool.not_false, Shell.openParens_inString _ inside]

/-! ## Lines -/

theorem Text.exists_trimmedEnd (cs : List Char) :
    ∃ blanks, cs = trimEndChars cs ++ blanks ∧ blanks.all isBlank = true := by
  refine ⟨cs.rtakeWhile isBlank, ?_, ?_⟩
  · rw [trimEndChars, List.rdropWhile_append_rtakeWhile]
  · exact List.all_eq_true.mpr fun c hc => List.mem_rtakeWhile_imp hc

theorem Text.last_trimEndChars (cs : List Char) :
    (trimEndChars cs).getLast?.any isBlank = false := by
  by_cases hnil : trimEndChars cs = []
  · rw [hnil]
    rfl
  · have last := List.rdropWhile_last_not isBlank cs hnil
    rw [List.getLast?_eq_some_getLast hnil, Option.any_some]
    exact Bool.eq_false_iff.mpr last

/-- The shell and the scan agree on every line. The shell asks for more lines if and only if more
parentheses are opened than closed among the tokens of the line. What it keeps of the line is all
but the blanks at the end, and this has the same tokens at the same places, and the same string
without an end, if there is one. -/
theorem continuation_agrees_with_scan (line : String) :
    ∃ text more, Shell.prepare (.ofString line) = (.ofString text, more) ∧
      let scan := Scan.ofBytes (Utf8.encode line)
      let kept := Scan.ofBytes (Utf8.encode text)
      (more = true ↔
          (scan.tokens.map (·.kind)).count (.symbol .closeParen) <
            (scan.tokens.map (·.kind)).count (.symbol .openParen)) ∧
        (∃ blanks, line.toList = text.toList ++ blanks ∧ blanks.all Text.isBlank = true) ∧
        text.toList.getLast?.any Text.isBlank = false ∧
        kept.tokens = scan.tokens ∧ kept.ending.quote? = scan.ending.quote? := by
  let text := String.ofList (Text.trimEndChars line.toList)
  have htext : text.toList = Text.trimEndChars line.toList := String.toList_ofList
  have prepared : (Shell.prepare (.ofString line)).1 = .ofString text := by
    rw [RawText.ofString, RawText.ofString, htext]
    exact RawText.trimEnd_ofChars line.toList
  refine ⟨text, (Shell.prepare (.ofString line)).2, Prod.ext prepared rfl, ?_⟩
  intro scan kept
  obtain ⟨blanks, hline, blank⟩ := Text.exists_trimmedEnd line.toList
  rw [← htext] at hline
  have hbytes : Utf8.encode line = Utf8.encode text ++ blanks.flatMap String.utf8EncodeChar := by
    unfold Utf8.encode
    rw [hline, List.flatMap_append]
  obtain ⟨tokens, quote⟩ : scan.tokens = kept.tokens ∧ scan.ending.quote? = kept.ending.quote? := by
    have separates : ∀ s ∈ blanks.flatMap String.utf8EncodeChar, Byte.Separates s := fun s hs =>
      .of_isVoid (Text.isVoid_of_blank (List.all_eq_true.mp blank) s hs)
    have same := Scan.ofBytes_append_separators separates (Utf8.encode text)
    rwa [← hbytes] at same
  refine ⟨?_, ⟨blanks, hline, blank⟩, htext ▸ Text.last_trimEndChars line.toList, tokens.symm,
    quote.symm⟩
  have depth : Shell.openParens false 0 text.toList = openTokens kept.tokens := by
    rw [← Shell.openParens_chars_encode, openParens_chars_scan]
  rw [Shell.prepare_more_iff, prepared, RawText.ofString, RawText.chars_ofChars, depth,
    openTokens_eq, tokens]
  omega

end Scriptlet

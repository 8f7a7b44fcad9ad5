import Mathlib.Tactic.MkIffOfInductiveProp
import Scriptlet.Proofs.Number.Doubles
import Scriptlet.Proofs.Syntax.Writing
import Scriptlet.Proofs.Token.Layout

/-!
# Text of tokens

Every lexeme has a text that the scan reads as this lexeme if a blank or the end stands behind it.
Numbers have the fewest digits that read back as them, strings stand between quotes as they are, and
a name must not be a keyword. Texts with blanks between them are scanned one by one.
-/

namespace Scriptlet

/-! ## Numbers -/

namespace Number

/-- The number is finite and has no minus sign. -/
def Writable (x : Float) : Prop := x.isFinite = true ∧ signBit x = false

instance (x : Float) : Decidable (Writable x) := inferInstanceAs (Decidable (_ ∧ _))

/-- The shortest digits of such a number are read as itself. -/
theorem Writable.exists_form {x : Float} (h : Writable x) :
    ∃ d : Decimal, form x = .finite ⟨false, d⟩ ∧ d.toFloat = x := by
  obtain ⟨finite, positive⟩ := h
  obtain ⟨d, hform, hx⟩ := Number.exists_form finite
  rw [positive] at hform hx
  exact ⟨d, hform, hx⟩

theorem displayChars_eq {x : Float} {d : Decimal} (h : form x = .finite ⟨false, d⟩) :
    displayChars x = positionalChars d := by
  simp [displayChars, h, signed]

theorem isDigit_padZeros {width : Nat} {digits : List Char} (h : ∀ c ∈ digits, c.isDigit) :
    ∀ c ∈ padZeros width digits, c.isDigit := by
  intro c hc
  rcases List.mem_append.mp hc with hc | hc
  · rw [List.eq_of_mem_replicate hc]
    rfl
  · exact h c hc

theorem length_padZeros (width : Nat) (digits : List Char) :
    width ≤ (padZeros width digits).length := by
  simp [padZeros]
  omega

theorem ofDigitChars_padZeros (width n : Nat) :
    Nat.ofDigitChars 10 (padZeros width (Nat.toDigits 10 n)) 0 = n := by
  rw [padZeros, Nat.ofDigitChars_append, Nat.ofDigitChars_replicate_zero, Nat.mul_zero,
    Nat.ofDigitChars_ten_toDigits]

end Number

def asciiBytes (chars : List Char) : List UInt8 := chars.map fun c => UInt8.ofNat c.toNat

theorem isDigit_range {c : Char} (h : c.isDigit) : 48 ≤ c.toNat ∧ c.toNat ≤ 57 := by
  simpa [Char.isDigit, UInt32.le_iff_toNat_le] using h

theorem isDigit_asciiBytes {chars : List Char} (h : ∀ c ∈ chars, c.isDigit) :
    ∀ b ∈ asciiBytes chars, Byte.isDigit b := by
  intro b hb
  obtain ⟨c, hc, rfl⟩ := List.mem_map.mp hb
  have hrange := isDigit_range (h c hc)
  have hbyte := Utf8.toNat_byte (n := c.toNat) (by omega)
  simp only [Byte.isDigit, Bool.and_eq_true, decide_eq_true_eq, UInt8.le_iff_toNat_le, hbyte]
  exact hrange

theorem digitsValue_asciiBytes {chars : List Char} (h : ∀ c ∈ chars, c.isDigit) (start : Nat) :
    Byte.digitsValue start (asciiBytes chars) = Nat.ofDigitChars 10 chars start := by
  induction chars generalizing start with
  | nil => rfl
  | cons c chars ih =>
      obtain ⟨hc, hchars⟩ := List.forall_mem_cons.mp h
      have hrange := isDigit_range hc
      have hbyte := Utf8.toNat_byte (n := c.toNat) (by omega)
      rw [Nat.ofDigitChars_cons, ← ih hchars]
      show Byte.digitsValue (10 * start + ((UInt8.ofNat c.toNat).toNat - 48)) _ = _
      rw [hbyte]
      rfl

theorem asciiBytes_ne_nil {chars : List Char} (h : 0 < chars.length) : asciiBytes chars ≠ [] := by
  rw [Ne, asciiBytes, List.map_eq_nil_iff, ← List.length_eq_zero_iff]
  omega

section

variable {after : List UInt8} (noDigit : NextIsNot Byte.isDigit after)

include noDigit

theorem spelledBefore_digits {digits : List Char} (hlength : 0 < digits.length)
    (hdigits : ∀ c ∈ digits, c.isDigit) (noFraction : NoFraction after) :
    SpelledBefore (.number (Decimal.toFloat ⟨Nat.ofDigitChars 10 digits 0, 0⟩)) (asciiBytes digits)
      after := by
  rw [← digitsValue_asciiBytes hdigits]
  exact .whole (asciiBytes_ne_nil hlength) (isDigit_asciiBytes hdigits) noDigit noFraction

theorem spelledBefore_fraction {whole decimals : List Char} (hwhole : 0 < whole.length)
    (hdecimals : 0 < decimals.length) (hdigits : ∀ c ∈ whole ++ decimals, c.isDigit) :
    SpelledBefore
      (.number (Decimal.toFloat ⟨Nat.ofDigitChars 10 (whole ++ decimals) 0, decimals.length⟩))
      (asciiBytes (whole ++ '.' :: decimals)) after := by
  have hfirst : ∀ c ∈ whole, c.isDigit := fun c hc => hdigits c (List.mem_append_left _ hc)
  have hsecond : ∀ c ∈ decimals, c.isDigit := fun c hc => hdigits c (List.mem_append_right _ hc)
  have hspelled := SpelledBefore.decimal (asciiBytes_ne_nil hwhole) (isDigit_asciiBytes hfirst)
    (asciiBytes_ne_nil hdecimals) (isDigit_asciiBytes hsecond) noDigit
  rw [digitsValue_asciiBytes hfirst, digitsValue_asciiBytes hsecond, ← Nat.ofDigitChars_append]
    at hspelled
  simpa [asciiBytes, Byte.dot] using hspelled

end

/-- A fraction written out in full is read as the double nearest to it. -/
theorem Decimal.spelledBefore (d : Decimal) {after : List UInt8} (fence : Fenced after) :
    SpelledBefore (.number d.toFloat) (asciiBytes (Number.positionalChars d)) after := by
  have noDigit : NextIsNot Byte.isDigit after := fence.parted.noDigit
  have hdigits : ∀ c ∈ Number.padZeros (d.scale + 1) (Nat.toDigits 10 d.digits), c.isDigit :=
    Number.isDigit_padZeros fun c hc => Nat.isDigit_of_mem_toDigits (by decide) (by decide) hc
  have hlength := Number.length_padZeros (d.scale + 1) (Nat.toDigits 10 d.digits)
  have hvalue := Number.ofDigitChars_padZeros (d.scale + 1) d.digits
  unfold Number.positionalChars
  generalize Number.padZeros (d.scale + 1) (Nat.toDigits 10 d.digits) = digits at *
  dsimp only
  by_cases hscale : d.scale = 0
  · have noFraction : NoFraction after := by
      rintro b rest rfl
      exact absurd (fence Byte.dot rfl) (by decide)
    have hspelled := spelledBefore_digits noDigit (by omega) hdigits noFraction
    rw [if_pos hscale]
    rwa [hvalue, ← hscale] at hspelled
  · have hsplit := List.take_append_drop (digits.length - d.scale) digits
    have hscale' : (digits.drop (digits.length - d.scale)).length = d.scale := by
      rw [List.length_drop]
      omega
    have hwhole : 0 < (digits.take (digits.length - d.scale)).length := by
      rw [List.length_take]
      omega
    have hspelled := spelledBefore_fraction noDigit hwhole (by omega) (hsplit.symm ▸ hdigits)
    rw [if_neg hscale]
    rwa [hsplit, hvalue, hscale'] at hspelled

/-! ## Lexemes -/

/-- The name is a word, and not a keyword. -/
@[mk_iff]
structure IsIdentifier (name : String) : Prop where
  ascii : name.toList.all fun c => c.toNat < 0x80
  start : (asciiBytes name.toList).head?.any Byte.isWordStart
  word : (asciiBytes name.toList).all Byte.isWord
  unreserved : Munch.keyword? name = none

instance (name : String) : Decidable (IsIdentifier name) :=
  decidable_of_iff' _ (isIdentifier_iff name)

namespace Lexeme

def source : Lexeme → String
  | .number x => Number.display x
  | .boolean b => if b then "true" else "false"
  | .string s => "\"" ++ s ++ "\""
  | .identifier name => name
  | .symbol s => s.text

/-- The lexemes that have a text in a source. -/
def Writable : Lexeme → Prop
  | .number x => Number.Writable x
  | .boolean _ => True
  | .string s => '"' ∉ s.toList
  | .identifier name => IsIdentifier name
  | .symbol _ => True

end Lexeme

theorem Number.positionalChars_ascii (d : Decimal) :
    ∀ c ∈ positionalChars d, c.toNat < 0x80 := by
  have hdigits : ∀ c ∈ padZeros (d.scale + 1) (Nat.toDigits 10 d.digits), c.toNat < 0x80 := by
    intro c hc
    have hrange := isDigit_range (isDigit_padZeros
      (fun c hc => Nat.isDigit_of_mem_toDigits (by decide) (by decide) hc) c hc)
    omega
  intro c hc
  unfold positionalChars at hc
  dsimp only at hc
  split at hc
  · exact hdigits c hc
  · rcases List.mem_append.mp hc with hc | hc
    · exact hdigits c (List.mem_of_mem_take hc)
    · rcases List.mem_cons.mp hc with rfl | hc
      · decide
      · exact hdigits c (List.mem_of_mem_drop hc)

theorem quote_not_mem_encode {s : String} (h : '"' ∉ s.toList) : Byte.quote ∉ Utf8.encode s := by
  intro hquote
  obtain ⟨c, hc, hb⟩ := List.mem_flatMap.mp hquote
  have hcode : c.toNat = '"'.toNat := Utf8.mem_encodeChar hb (by decide)
  obtain rfl : c = '"' := Char.toNat_inj.mp hcode
  exact h hc

namespace IsIdentifier

variable {name : String} (h : IsIdentifier name)

include h

theorem toNat_lt {c : Char} (hc : c ∈ name.toList) : c.toNat < 0x80 :=
  of_decide_eq_true (List.all_eq_true.mp h.ascii c hc)

theorem encode_eq : Utf8.encode name = asciiBytes name.toList := by
  have hencode := Utf8.encode_ascii fun c hc => h.toNat_lt hc
  rwa [String.ofList_toList] at hencode

theorem asciiText_eq : Byte.asciiText (asciiBytes name.toList) = name := by
  have hchars : (asciiBytes name.toList).map (fun b => Char.ofNat b.toNat) = name.toList := by
    rw [asciiBytes, List.map_map]
    refine (List.map_congr_left fun c hc => ?_).trans (List.map_id _)
    have hbyte := Utf8.toNat_byte (n := c.toNat) (Nat.lt_trans (h.toNat_lt hc) (by decide))
    simp only [Function.comp, hbyte, Char.ofNat_toNat, id]
  rw [Byte.asciiText, hchars, String.ofList_toList]

end IsIdentifier

/-- The scan reads the text of a lexeme as the lexeme. -/
theorem Lexeme.spelledBefore {l : Lexeme} (h : l.Writable) {after : List UInt8}
    (fence : Fenced after) : SpelledBefore l (Utf8.encode l.source) after := by
  cases l with
  | number x =>
      obtain ⟨d, hform, rfl⟩ := Number.Writable.exists_form h
      have hencode : Utf8.encode (Number.display d.toFloat) =
          asciiBytes (Number.positionalChars d) := by
        rw [Number.display, Number.displayChars_eq hform,
          Utf8.encode_ascii (Number.positionalChars_ascii d)]
        rfl
      rw [Lexeme.source, hencode]
      exact d.spelledBefore fence
  | boolean b =>
      have noWord := fence.parted.noWord
      cases b with
      | true => exact spelledBefore_word [116, 114, 117, 101] (by decide) (by decide) noWord
      | false => exact spelledBefore_word [102, 97, 108, 115, 101] (by decide) (by decide) noWord
  | string s =>
      have hspelled := SpelledBefore.string (quote_not_mem_encode h) after
      rw [Utf8.decodeLossy_encode] at hspelled
      rw [Lexeme.source, Utf8.encode_append, Utf8.encode_append]
      exact hspelled
  | identifier name =>
      have hspelled := spelledBefore_word _ h.start h.word fence.parted.noWord
      rw [h.asciiText_eq, h.unreserved] at hspelled
      rwa [Lexeme.source, h.encode_eq]
  | symbol s => exact s.spelledBefore fence

/-- Lexemes with a blank between them. -/
def sourceText : List Lexeme → String
  | [] => ""
  | [l] => l.source
  | l :: next :: rest => l.source ++ " " ++ sourceText (next :: rest)

/-- The scan reads the lexemes of a text one by one, and skips nothing. -/
theorem exists_laid_sourceText {ls : List Lexeme} (h : ∀ l ∈ ls, l.Writable) (p : Position) :
    ∃ tokens, lexemes tokens = ls ∧ Laid p (Utf8.encode (sourceText ls)) tokens [] [] := by
  induction ls generalizing p with
  | nil => exact ⟨[], rfl, .done p []⟩
  | cons l ls ih =>
      obtain ⟨hl, hls⟩ := List.forall_mem_cons.mp h
      cases ls with
      | nil =>
          have hspelled := l.spelledBefore hl fenced_nil
          refine ⟨[⟨l, p⟩], rfl, ?_⟩
          rw [sourceText, ← List.append_nil (Utf8.encode l.source)]
          exact .token hspelled (.done _ _)
      | cons l' ls =>
          obtain ⟨tokens, htokens, hlaid⟩ := ih hls ((p.past (Utf8.encode l.source)).advance 32)
          have hblank : Byte.isBlank 32 := by decide
          refine ⟨⟨l, p⟩ :: tokens, by rw [lexemes_cons, htokens], ?_⟩
          rw [sourceText, Utf8.encode_append, Utf8.encode_append, List.append_assoc]
          exact .token (l.spelledBefore hl (fenced_cons hblank _)) (.blank hblank hlaid)

end Scriptlet

import Scriptlet.Diagnostic.Trouble
import Scriptlet.Proofs.Text.Lines

/-!
# Raw text and strings

Strings are the raw texts without surrogates. On those, raw text is trimmed and cut into lines as
strings are. A raw text with a surrogate in it has no string, and what is said about it has no
fields, so it can always be reported.
-/

namespace Scriptlet

namespace RawText

/-! ## Characters -/

theorem ofChars_append (cs more : List Char) :
    ofChars (cs ++ more) = ofChars cs ++ ofChars more := List.map_append

theorem ofChars_inj {cs more : List Char} : ofChars cs = ofChars more ↔ cs = more :=
  (List.map_injective_iff.mpr fun _ _ h => CodePoint.char.inj h).eq_iff

@[simp] theorem ofString_inj {s t : String} : ofString s = ofString t ↔ s = t :=
  ofChars_inj.trans String.toList_inj

@[simp] theorem ofString_eq_nil {s : String} : ofString s = [] ↔ s = "" :=
  List.map_eq_nil_iff.trans String.toList_eq_nil_iff

@[simp] theorem chars_ofChars (cs : List Char) : (ofChars cs).chars = cs := by
  simp [ofChars, chars, List.filterMap_map, Function.comp_def, CodePoint.char?]

theorem isBlank_comp_char : CodePoint.isBlank ∘ CodePoint.char = Text.isBlank := rfl

theorem trimEnd_ofChars (cs : List Char) :
    (ofChars cs).trimEnd = ofChars (Text.trimEndChars cs) := by
  rw [trimEnd, ofChars, ← List.map_reverse, List.dropWhile_map, ← List.map_reverse,
    isBlank_comp_char]
  rfl

theorem trim_ofChars (cs : List Char) : (ofChars cs).trim = ofChars (Text.trimChars cs) := by
  rw [trim, trimEnd_ofChars, ofChars, List.dropWhile_map, isBlank_comp_char]
  rfl

theorem splitAt_ofChars (cs : List Char) :
    Text.splitAt (.char '\n') (ofChars cs) = (Text.splitLines cs).map ofChars := by
  induction cs with
  | nil => rfl
  | cons c rest ih =>
      have first : ofChars (c :: rest) = .char c :: ofChars rest := rfl
      rw [first, Text.splitAt, ih]
      simp only [Text.splitLines, Text.splitAt]
      by_cases hc : c = '\n'
      · rw [if_pos hc, if_pos (congrArg _ hc)]
        rfl
      · rw [if_neg hc, if_neg fun h => hc (CodePoint.char.inj h)]
        cases Text.splitAt '\n' rest <;> rfl

/-! ## Strings -/

theorem readFrom_ofChars (offset : Nat) (cs : List Char) :
    readFrom offset (ofChars cs) = .ok cs := by
  induction cs generalizing offset with
  | nil => rfl
  | cons c rest ih =>
      show (readFrom (offset + 1) (ofChars rest)).map (c :: ·) = _
      rw [ih]
      rfl

@[simp] theorem read_ofString (s : String) : (ofString s).read = .ok s := by
  rw [read, ofString, readFrom_ofChars]
  exact congrArg Except.ok String.ofList_toList

theorem exists_readFrom {text : RawText} (whole : ∀ p ∈ text, p.isSurrogate = false)
    (offset : Nat) : ∃ cs, readFrom offset text = .ok cs := by
  induction text generalizing offset with
  | nil => exact ⟨[], rfl⟩
  | cons p rest ih =>
      cases p with
      | char c =>
          obtain ⟨cs, hcs⟩ := ih (fun p hp => whole p (List.mem_cons_of_mem _ hp)) (offset + 1)
          refine ⟨c :: cs, ?_⟩
          rw [readFrom, hcs]
          rfl
      | surrogate s => cases whole _ List.mem_cons_self

/-- A text without surrogates can be encoded. -/
theorem exists_read_of_whole {text : RawText} (whole : ∀ p ∈ text, p.isSurrogate = false) :
    ∃ s, text.read = .ok s := by
  obtain ⟨cs, hcs⟩ := exists_readFrom whole 0
  exact ⟨String.ofList cs, by rw [read, hcs]; rfl⟩

theorem eq_ofChars_of_readFrom {text : RawText} {offset : Nat} {cs : List Char}
    (h : readFrom offset text = .ok cs) : text = ofChars cs := by
  induction text generalizing offset cs with
  | nil =>
      cases h
      rfl
  | cons p rest ih =>
      cases p with
      | surrogate s => cases h
      | char c =>
          rw [readFrom] at h
          cases later : readFrom (offset + 1) rest with
          | error place =>
              rw [later] at h
              cases h
          | ok more =>
              rw [later] at h
              cases h
              rw [ih later]
              rfl

theorem eq_ofString_of_read {text : RawText} {s : String} (h : text.read = .ok s) :
    text = ofString s := by
  unfold read at h
  cases hcs : readFrom 0 text with
  | error place =>
      rw [hcs] at h
      cases h
  | ok cs =>
      rw [hcs] at h
      cases h
      rw [ofString, String.toList_ofList]
      exact eq_ofChars_of_readFrom hcs

theorem isSurrogate_of_mem_ofString {s : String} {p : CodePoint} (h : p ∈ ofString s) :
    p.isSurrogate = false := by
  obtain ⟨c, -, rfl⟩ := List.mem_map.mp h
  rfl

/-- A text with a surrogate in it cannot be encoded. -/
theorem exists_unencodable {text : RawText} (broken : ∃ p ∈ text, p.isSurrogate = true) :
    ∃ place, text.read = .error place := by
  cases h : text.read with
  | error place => exact ⟨place, rfl⟩
  | ok s =>
      obtain ⟨p, hp, surrogate⟩ := broken
      rw [eq_ofString_of_read h] at hp
      rw [isSurrogate_of_mem_ofString hp] at surrogate
      cases surrogate

end RawText

/-! ## Reports -/

namespace Template

/-- The characters have no braces among them. -/
def Plain (cs : List Char) : Prop := ∀ c ∈ cs, c ≠ '\x7b' ∧ c ≠ '\x7d'

instance (cs : List Char) : Decidable (Plain cs) :=
  decidable_of_iff (cs.all (fun c => c ≠ '\x7b' ∧ c ≠ '\x7d') = true) (by simp [Plain])

theorem plain_append {cs more : List Char} : Plain (cs ++ more) ↔ Plain cs ∧ Plain more :=
  List.forall_mem_append

theorem exists_pieces_of_plain {cs : List Char} (plain : Plain cs) (words : List String)
    (numbering : Numbering) : ∃ found, pieces words numbering cs = .ok found := by
  induction cs with
  | nil => exact ⟨[], pieces.eq_1 words numbering⟩
  | cons c rest ih =>
      obtain ⟨opening, closing⟩ := plain c List.mem_cons_self
      obtain ⟨found, hfound⟩ := ih fun c hc => plain c (List.mem_cons_of_mem _ hc)
      refine ⟨.text (String.singleton c) :: found, ?_⟩
      rw [pieces.eq_def]
      simp only [if_neg opening, if_neg closing, hfound]
      rfl

theorem plain_digitChar {n : Nat} (h : n < 16) :
    Nat.digitChar n ≠ '\x7b' ∧ Nat.digitChar n ≠ '\x7d' := by
  decide +revert

theorem plain_hexDigits (width n : Nat) : Plain (Text.hexDigits width n) := by
  induction width generalizing n with
  | zero => exact List.forall_mem_nil _
  | succ width ih =>
      refine plain_append.mpr ⟨ih (n / 16), fun c hc => ?_⟩
      rw [List.mem_singleton.mp hc]
      exact plain_digitChar (Nat.mod_lt n (by decide))

theorem plain_escapeCode (n : Nat) : Plain (Text.escapeCode n) := by
  have two (c : Char) (h : c ≠ '\x7b' ∧ c ≠ '\x7d') (width : Nat) :
      Plain ('\\' :: c :: Text.hexDigits width n) :=
    List.forall_mem_cons.mpr ⟨by decide, List.forall_mem_cons.mpr ⟨h, plain_hexDigits width n⟩⟩
  unfold Text.escapeCode
  split
  · exact two 'x' (by decide) 2
  · split
    · exact two 'u' (by decide) 4
    · exact two 'U' (by decide) 8

theorem plain_toString (n : Nat) : Plain (toString n).toList := by
  intro c hc
  have digit : c.isDigit = true := by
    have hdigits : c ∈ Nat.toDigits 10 n := by simpa [Nat.repr] using hc
    exact Nat.isDigit_of_mem_toDigits (by decide) (by decide) hdigits
  constructor
  · rintro rfl
    exact absurd digit (by decide)
  · rintro rfl
    exact absurd digit (by decide)

end Template

open Template (Plain)

theorem Unencodable.plain_message (place : Unencodable) : Plain place.message.toList := by
  unfold message
  split
  · simp only [String.toList_append, String.toList_ofList, Template.plain_append]
    exact ⟨⟨by decide +kernel, ⟨⟨by decide +kernel, Template.plain_escapeCode _⟩,
      by decide +kernel⟩,
      Template.plain_toString _⟩, by decide +kernel⟩
  · simp only [String.toList_append, Template.plain_append]
    exact ⟨⟨by decide +kernel, ⟨⟨by decide +kernel, Template.plain_toString _⟩, by decide +kernel⟩,
      Template.plain_toString _⟩, by decide +kernel⟩

/-- There is always a diagnostic for a text that cannot be encoded. -/
theorem Reporter.exists_unknown_unencodable (place : Unencodable) :
    ∃ d, Reporter.unknown (.unencodable place) = .ok d := by
  have text : (Fault.unencodable place).text = "UnicodeEncodeError: " ++ place.message := rfl
  have plain : Plain ("unknown error: '" ++ (Fault.unencodable place).text ++ "'").toList := by
    simp only [text, String.toList_append, Template.plain_append]
    exact ⟨⟨by decide +kernel, by decide +kernel, place.plain_message⟩, by decide +kernel⟩
  obtain ⟨found, hfound⟩ := Template.exists_pieces_of_plain plain [] .undecided
  refine ⟨{ message := ⟨found⟩, internal := true }, ?_⟩
  unfold unknown Message.ofTemplate
  rw [hfound]
  rfl

end Scriptlet

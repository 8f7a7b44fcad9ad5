import Scriptlet.Proofs.Diagnostic.Places
import Scriptlet.Proofs.Syntax.Viability

/-!
# The marked part of a line

The diagnostic of a syntax error marks as many characters as the text of the token has. That text is
made from the value of the token. It is what the source has there for every token but a number, and
a number may be written in more ways than one.
-/

namespace Scriptlet

/-! ## Texts of tokens -/

/-- The text of a token is spelled as the token was, unless that is a number. -/
theorem Spelled.encode_text {l : Lexeme} {spelling : List UInt8} (h : Spelled l spelling)
    (ascii : ∀ b ∈ spelling, b.toNat < 0x80) (other : ∀ x, l ≠ .number x) :
    Utf8.encode l.text = spelling := by
  cases h with
  | whole | decimal => exact absurd rfl (other _)
  | identifier start word unreserved => exact encode_asciiText ascii
  | @string contents unquoted =>
      have contents_ascii : ∀ b ∈ contents, b.toNat < 0x80 := fun b hb => ascii b (by simp [hb])
      have kept : Utf8.encode (Utf8.decodeLossy contents) = contents := by
        conv_lhs => rw [← encode_asciiText contents_ascii]
        rw [Utf8.decodeLossy_encode, encode_asciiText contents_ascii]
      have quote : Utf8.encode "\"" = [Byte.quote] := by decide
      rw [Lexeme.text, Utf8.encode_append, Utf8.encode_append, kept, quote]
      rfl
  | boolean b => rfl
  | symbol s => rfl

namespace Number

theorem literalChars_ne_nil (x : Float) : literalChars x ≠ [] := by
  have signed_ne_nil : ∀ {negative digits}, digits ≠ [] → signed negative digits ≠ [] := by
    intro negative digits h
    cases negative with
    | false => exact h
    | true => exact List.cons_ne_nil _ _
  unfold literalChars
  cases form x with
  | undefined => exact List.cons_ne_nil _ _
  | infinite negative => exact signed_ne_nil (List.cons_ne_nil _ _)
  | finite n =>
      refine signed_ne_nil ?_
      unfold literalSize
      dsimp only
      split
      · unfold positionalChars
        dsimp only
        split <;> simp [padZeros]
      · unfold scientificChars
        dsimp only
        split <;> simp

end Number

theorem Lexeme.length_text_pos {l : Lexeme} {spelling : List UInt8} (h : Spelled l spelling)
    (ascii : ∀ b ∈ spelling, b.toNat < 0x80) : 0 < l.text.length := by
  by_cases number : ∃ x, l = .number x
  · obtain ⟨x, rfl⟩ := number
    rw [text, Number.literal, String.length_ofList]
    exact List.length_pos_iff.mpr (Number.literalChars_ne_nil x)
  · have spelled := h.encode_text ascii fun x hx => number ⟨x, hx⟩
    rw [Nat.pos_iff_ne_zero]
    intro none
    rw [String.length_eq_zero_iff.mp none] at spelled
    exact h.before_nil.ne_nil spelled.symm

/-! ## Texts of one line -/

theorem Utf8.ascii_of_mem_encode {cs : List Char} (ascii : ∀ c ∈ cs, c.toNat < 0x80) :
    ∀ b ∈ encode (String.ofList cs), b.toNat < 0x80 := by
  intro b hb
  rw [encode_ascii ascii] at hb
  obtain ⟨c, hc, rfl⟩ := List.mem_map.mp hb
  have small := ascii c hc
  rwa [toNat_byte (by omega)]

theorem Utf8.exists_parts {cs : List Char} (ascii : ∀ c ∈ cs, c.toNat < 0x80)
    {front middle back : List UInt8} (h : encode (String.ofList cs) = front ++ middle ++ back) :
    ∃ before part after, cs = before ++ part ++ after ∧ encode (String.ofList before) = front ∧
      encode (String.ofList part) = middle ∧ encode (String.ofList after) = back := by
  rw [encode_ascii ascii] at h
  obtain ⟨start, after, rfl, hstart, hafter⟩ := List.map_eq_append_iff.mp h
  obtain ⟨before, part, rfl, hbefore, hpart⟩ := List.map_eq_append_iff.mp hstart
  obtain ⟨hrest, asciiAfter⟩ := List.forall_mem_append.mp ascii
  obtain ⟨asciiBefore, asciiPart⟩ := List.forall_mem_append.mp hrest
  exact ⟨before, part, after, rfl, (encode_ascii asciiBefore).trans hbefore,
    (encode_ascii asciiPart).trans hpart, (encode_ascii asciiAfter).trans hafter⟩

def Text.Line.only {text : List Char} (unbroken : '\n' ∉ text) : Line text :=
  ⟨[], text, [], by simp, .inl rfl, unbroken, .inl rfl⟩

/-! ## The token of an error -/

/-- The token that a syntax error speaks of is one of the source, and the error stands at it. -/
theorem Parsed.mem_tokens_of_error {depth : Nat} {bytes : List UInt8} {e : SyntaxError} {t : Token}
    (failed : (Parsed.ofBytes depth bytes).error = some e) (token : e.token = some t) :
    t ∈ (Scan.ofBytes bytes).tokens ∧ e.position = some t.position := by
  unfold Parsed.ofBytes Parsed.ofScan at failed
  cases hroot : Parser.root depth (Scan.ofBytes bytes).tokens with
  | ok result =>
      rw [hroot] at failed
      cases hending : (Scan.ofBytes bytes).ending with
      | finished p => simp [hending] at failed
      | unclosed quote =>
          rw [hending] at failed
          cases failed
          cases token
  | error failure =>
      rw [hroot] at failed
      cases failed
      cases failure with
      | rejected kind rest =>
          cases rest with
          | cons t' rest =>
              cases token
              obtain ⟨-, w, hw, -⟩ := Parser.viable_root depth hroot
              rw [hw]
              exact ⟨by simp, rfl⟩
          | nil =>
              cases hending : (Scan.ofBytes bytes).ending <;> rw [hending] at token <;> cases token
      | tooDeep rest =>
          cases rest with
          | cons t' rest => cases token
          | nil =>
              cases hending : (Scan.ofBytes bytes).ending <;>
                simp only [Parsed.errorOf, hending] at token <;> cases token

/-- In a source of one line of ASCII, the column of a token counts the characters before those that
spell it. -/
theorem Scan.exists_spelling {source : String} {t : Token}
    (ascii : ∀ c ∈ source.toList, c.toNat < 0x80) (line : '\n' ∉ source.toList)
    (mem : t ∈ (Scan.ofBytes (Utf8.encode source)).tokens) :
    ∃ before spelling after : List Char, source = String.ofList (before ++ spelling ++ after) ∧
      SpelledBefore t.lexeme (Utf8.encode (String.ofList spelling))
        (Utf8.encode (String.ofList after)) ∧
      t.position = ⟨1, 1 + before.length⟩ := by
  obtain ⟨row, rest, hsource, hlaid, -⟩ := Scan.exists_laid (Utf8.encode source)
  obtain ⟨front, letters, rest', rfl, spelled, place⟩ := hlaid.exists_spelling mem
  have text : String.ofList source.toList = source := String.ofList_toList
  have parted :
      Utf8.encode (String.ofList source.toList) = front ++ letters ++ (rest' ++ rest) := by
    rw [text, hsource, List.append_assoc (front ++ letters)]
  obtain ⟨before, spelling, after, chars, rfl, rfl, hafter⟩ := Utf8.exists_parts ascii parted
  have unbroken : 10 ∉ Utf8.encode (String.ofList before) := fun newline =>
    line (by simp [chars, Utf8.newline_mem_encode.mp newline])
  have length : (Utf8.encode (String.ofList before)).length = before.length := by
    rw [Utf8.encode_ascii fun c hc => ascii c (by simp [chars, hc]), List.length_map]
  have behind := Position.behind_append (.inl rfl) unbroken
  rw [List.nil_append, ← Position.start_past, ← place, length] at behind
  exact ⟨before, spelling, after, by rw [← chars, text], hafter ▸ spelled, behind⟩

/-! ## Marking just a part -/

namespace Reporter

/-- A line of three parts, with the middle one marked. -/
def marking (r : Reporter) (color : Color) (before part after : List Char) : String :=
  "  " ++ String.ofList before ++ r.paint color (String.ofList part) ++ String.ofList after ++
    "\n" ++ "  " ++ String.ofList (List.replicate before.length ' ') ++
    r.paint color (String.ofList ('^' :: List.replicate (part.length - 1) '~'))

theorem exists_length_paint (r : Reporter) (color : Color) :
    ∃ extra, ∀ text, (r.paint color text).length = extra + text.length := by
  unfold paint
  cases r.color with
  | false => exact ⟨0, fun text => by simp⟩
  | true =>
      refine ⟨("\x1b[1m" ++ color.code).length + "\x1b[0m".length, fun text => ?_⟩
      simp only [if_true, String.length_append]
      omega

variable (r : Reporter) (color : Color) (before part after : List Char) (t : Token) (row : Int)

theorem excerpt_eq_parts :
    r.excerpt (String.ofList (before ++ part ++ after)) ⟨row, 1 + before.length⟩ (some t) color =
      "  " ++ String.ofList before ++
        r.paint color (String.ofList ((part ++ after).take (markWidth (some t)))) ++
        String.ofList ((part ++ after).drop (markWidth (some t))) ++ "\n" ++
        "  " ++ String.ofList (List.replicate before.length ' ') ++
        r.paint color (String.ofList ('^' :: List.replicate (markWidth (some t) - 1) '~')) := by
  have column : before.length ≤ (before ++ (part ++ after)).length := by simp
  rw [List.append_assoc, r.excerpt_eq column, ← List.drop_drop, List.take_left, List.drop_left]

theorem excerpt_eq_marking_iff (nonempty : part ≠ []) :
    r.excerpt (String.ofList (before ++ part ++ after)) ⟨row, 1 + before.length⟩ (some t) color =
      r.marking color before part after ↔ markWidth (some t) = part.length := by
  constructor
  · -- Both texts show the whole line, so the lengths of the rows below it tell the widths.
    intro same
    obtain ⟨extra, hextra⟩ := r.exists_length_paint color
    have lengths := congrArg String.length same
    rw [excerpt_eq_parts] at lengths
    have taken : ((part ++ after).take (markWidth (some t))).length +
        ((part ++ after).drop (markWidth (some t))).length = part.length + after.length := by
      rw [← List.length_append, List.take_append_drop, List.length_append]
    have wide : 1 ≤ markWidth (some t) := Nat.le_max_right _ _
    have hpositive := List.length_pos_iff.mpr nonempty
    simp only [marking, String.length_append, hextra, String.length_ofList, List.length_replicate,
      List.length_cons] at lengths
    omega
  · intro same
    rw [excerpt_eq_parts, same, List.take_left, List.drop_left]
    rfl

end Reporter

/-- What the diagnostic of a syntax error marks, in a source of one line of ASCII. The marked part
begins with the token, and it has as many characters as the text of the token. It is the token if
and only if that text is as long as what the source has there, as it is for all but numbers. -/
theorem syntax_error_marks_length_of_text (depth : Nat) (source : String) (e : SyntaxError)
    (t : Token) (ascii : ∀ c ∈ source.toList, c.toNat < 0x80) (line : '\n' ∉ source.toList)
    (failed : (Parsed.ofBytes depth (Utf8.encode source)).error = some e)
    (token : e.token = some t) :
    ∃ before spelling after : List Char, source = String.ofList (before ++ spelling ++ after) ∧
      t ∈ (Scan.ofBytes (Utf8.encode source)).tokens ∧
      SpelledBefore t.lexeme (Utf8.encode (String.ofList spelling))
        (Utf8.encode (String.ofList after)) ∧
      t.position = ⟨1, 1 + before.length⟩ ∧ e.position = some t.position ∧
      ((∀ x, t.lexeme ≠ .number x) → t.text = String.ofList spelling) ∧
      ∀ r : Reporter,
        (∀ path firstLine, (r.registerText path source firstLine).sources.keys = [path] →
          ((r.registerText path source firstLine).location e.position).2 = some source) ∧
        ∀ color,
          r.excerpt source t.position e.token color =
            "  " ++ String.ofList before ++
              r.paint color (String.ofList ((spelling ++ after).take t.text.length)) ++
              String.ofList ((spelling ++ after).drop t.text.length) ++ "\n" ++
              "  " ++ String.ofList (List.replicate before.length ' ') ++
              r.paint color (String.ofList ('^' :: List.replicate (t.text.length - 1) '~')) ∧
          (r.excerpt source t.position e.token color = r.marking color before spelling after ↔
            t.text.length = spelling.length) := by
  obtain ⟨mem, position⟩ := Parsed.mem_tokens_of_error failed token
  obtain ⟨before, spelling, after, rfl, spelled, column⟩ := Scan.exists_spelling ascii line mem
  have low : ∀ b ∈ Utf8.encode (String.ofList spelling), b.toNat < 0x80 :=
    Utf8.ascii_of_mem_encode fun c hc => ascii c (by simp [hc])
  have nonempty : spelling ≠ [] := by
    rintro rfl
    exact spelled.ne_nil rfl
  have positive := Lexeme.length_text_pos spelled.spelled low
  have width : Reporter.markWidth (some t) = t.text.length := Nat.max_eq_left positive
  refine ⟨before, spelling, after, rfl, mem, spelled, column, position,
    fun other => ?_, fun r => ⟨fun path firstLine only => ?_, fun color => ?_⟩⟩
  · have same := congrArg Utf8.decodeLossy (spelled.spelled.encode_text low other)
    rwa [Utf8.decodeLossy_encode, Utf8.decodeLossy_encode] at same
  · have found := (Text.Line.only line).line?_eq firstLine
    rw [position, Reporter.location_of_only only, column]
    exact found.trans (congrArg some String.ofList_toList)
  · rw [token, column]
    have parts := r.excerpt_eq_parts color before spelling after t 1
    have just := r.excerpt_eq_marking_iff color before spelling after t 1 nonempty
    rw [width] at parts just
    exact ⟨parts, just⟩

theorem syntax_error_marks_length_of_text_at_string :
    ∃ source, source = "1 \"a b\" 2" ∧ ∃ e t,
      (Parsed.ofBytes 0 (Utf8.encode source)).error = some e ∧ e.token = some t ∧
      ∃ before spelling after, source = String.ofList (before ++ spelling ++ after) ∧
        t.text = String.ofList spelling ∧
        ∀ (r : Reporter) (color : Color),
          r.excerpt source t.position e.token color = r.marking color before spelling after := by
  have bytes : Utf8.encode "1 \"a b\" 2" = [49, 32, 34, 97, 32, 98, 34, 32, 50] := by decide
  have failed : (Parsed.ofBytes 0 (Utf8.encode "1 \"a b\" 2")).error =
      some (.atToken .unexpectedToken ⟨.string "a b", ⟨1, 3⟩⟩) := by
    rw [bytes]
    decide
  obtain ⟨before, spelling, after, parts, -, -, -, -, text, shown⟩ :=
    syntax_error_marks_length_of_text 0 "1 \"a b\" 2" _ _ (by simp) (by decide) failed rfl
  have same := text (by simp)
  refine ⟨_, rfl, _, _, failed, rfl, before, spelling, after, parts, same, fun r color => ?_⟩
  refine ((shown r).2 color).2.mpr ?_
  rw [same, String.length_ofList]

/-- In `1 2 3` the number `2` cannot be read on. The text of that number is `2.0`, so the mark goes
on to the end of the line. -/
theorem syntax_error_marks_beyond_number :
    ∃ (r : Reporter) (source : String) (e : SyntaxError) (t : Token),
      r = { color := true } ∧ source = "1 2 3" ∧
      (Parsed.ofBytes 0 (Utf8.encode source)).error = some e ∧ e.token = some t ∧
      source = String.ofList (['1', ' '] ++ ['2'] ++ [' ', '3']) ∧ t.position = ⟨1, 3⟩ ∧
      SpelledBefore t.lexeme (Utf8.encode (String.ofList ['2']))
        (Utf8.encode (String.ofList [' ', '3'])) ∧
      r.excerpt source t.position e.token .red =
        "  1 \x1b[1m\x1b[31m2 3\x1b[0m\n    \x1b[1m\x1b[31m^~~\x1b[0m" ∧
      r.excerpt source t.position e.token .red ≠ r.marking .red ['1', ' '] ['2'] [' ', '3'] := by
  have bytes : Utf8.encode "1 2 3" = [49, 32, 50, 32, 51] := by decide
  have failed : (Parsed.ofBytes 0 (Utf8.encode "1 2 3")).error =
      some (.atToken .unexpectedToken ⟨.number (Decimal.toFloat ⟨2, 0⟩), ⟨1, 3⟩⟩) := by
    rw [bytes]
    rfl
  have spelled :
      SpelledBefore (.number (Decimal.toFloat ⟨Byte.digitsValue 0 [50], 0⟩)) [50] [32, 51] :=
    .whole (by decide) (by simp [Byte.isDigit]) (by simp [NextIsNot, Byte.isDigit])
      (by simp [NoFraction, Byte.dot])
  exact ⟨_, _, _, _, rfl, rfl, failed, rfl, by decide, rfl, spelled, by decide +kernel,
    by decide +kernel⟩

end Scriptlet

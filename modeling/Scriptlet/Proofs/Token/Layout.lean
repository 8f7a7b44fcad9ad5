import Scriptlet.Proofs.Text.Utf8
import Scriptlet.Token.Scan

/-!
# How bytes are laid out in tokens

The scan takes the longest token each time. Here that is said without the scan: which bytes spell a
token, and which bytes behind it do not make it longer. A source is a row of blanks, tokens and
bytes that begin none, and the scan finds just this row.
-/

namespace Scriptlet

/-! ## Bytes behind a token -/

/-- The next byte, if there is one, does not satisfy `p`. -/
def NextIsNot (p : UInt8 → Bool) (after : List UInt8) : Prop := ∀ b ∈ after.head?, p b = false

def NoFraction (after : List UInt8) : Prop :=
  ∀ b rest, after = Byte.dot :: b :: rest → Byte.isDigit b = false

/-- The bytes spell the lexeme, and the bytes behind them do not go on with it. -/
inductive SpelledBefore : Lexeme → (spelling after : List UInt8) → Prop where
  | whole {digits after : List UInt8} (nonempty : digits ≠ [])
      (digit : ∀ b ∈ digits, Byte.isDigit b)
      (noDigit : NextIsNot Byte.isDigit after) (noFraction : NoFraction after) :
      SpelledBefore (.number (Decimal.toFloat ⟨Byte.digitsValue 0 digits, 0⟩)) digits after
  | decimal {digits decimals after : List UInt8} (nonempty : digits ≠ [])
      (digit : ∀ b ∈ digits, Byte.isDigit b) (nonempty' : decimals ≠ [])
      (digit' : ∀ b ∈ decimals, Byte.isDigit b) (noDigit : NextIsNot Byte.isDigit after) :
      SpelledBefore
        (.number (Decimal.toFloat
          ⟨Byte.digitsValue (Byte.digitsValue 0 digits) decimals, decimals.length⟩))
        (digits ++ Byte.dot :: decimals) after
  | word {first : UInt8} {rest after : List UInt8} (start : Byte.isWordStart first)
      (word : ∀ b ∈ rest, Byte.isWord b) (noWord : NextIsNot Byte.isWord after) :
      SpelledBefore
        ((Munch.keyword? (Byte.asciiText (first :: rest))).getD
          (.identifier (Byte.asciiText (first :: rest))))
        (first :: rest) after
  | string {contents : List UInt8} (unquoted : Byte.quote ∉ contents) (after : List UInt8) :
      SpelledBefore (.string (Utf8.decodeLossy contents))
        (Byte.quote :: contents ++ [Byte.quote]) after
  | short {b : UInt8} {short long : Symbol} {after : List UInt8}
      (known : Byte.extensible? b = some (short, long))
      (noEqual : NextIsNot (· == Byte.equalSign) after) : SpelledBefore (.symbol short) [b] after
  | long {b : UInt8} {short long : Symbol} (known : Byte.extensible? b = some (short, long))
      (after : List UInt8) : SpelledBefore (.symbol long) [b, Byte.equalSign] after
  | single {b : UInt8} {symbol : Symbol} (known : Byte.single? b = some symbol)
      (after : List UInt8) : SpelledBefore (.symbol symbol) [b] after

/-- The byte begins no token, and it is not blank. -/
structure BeginsNone (b : UInt8) : Prop where
  notBlank : Byte.isBlank b = false
  notDigit : Byte.isDigit b = false
  notWord : Byte.isWordStart b = false
  notQuote : b ≠ Byte.quote
  notExtensible : Byte.extensible? b = none
  notSingle : Byte.single? b = none

/-! ## The longest token -/

theorem takeWhile_append_of_next {p : UInt8 → Bool} {taken after : List UInt8}
    (h : ∀ b ∈ taken, p b) (hafter : NextIsNot p after) :
    (taken ++ after).takeWhile p = taken := by
  rw [List.takeWhile_append_of_pos h]
  cases after with
  | nil => simp
  | cons b after => simp [hafter b rfl]

theorem exists_run (p : UInt8 → Bool) (bytes : List UInt8) :
    ∃ taken after, bytes = taken ++ after ∧ (∀ b ∈ taken, p b) ∧ NextIsNot p after := by
  refine ⟨bytes.takeWhile p, bytes.dropWhile p, List.takeWhile_append_dropWhile.symm, ?_, ?_⟩
  · exact fun b hb => (List.all_eq_true.mp List.all_takeWhile) b hb
  · intro b hb
    have hnot := List.head?_dropWhile_not p bytes
    rw [hb] at hnot
    simpa using hnot

theorem wordStart_not_digit : ∀ b, Byte.isWordStart b = true → Byte.isDigit b = false :=
  forall_byte (by decide +kernel)

theorem extensible_not_word : ∀ b, Byte.extensible? b ≠ none →
    Byte.isDigit b = false ∧ Byte.isWordStart b = false ∧ b ≠ Byte.quote :=
  forall_byte (by decide +kernel)

theorem single_not_word : ∀ b, Byte.single? b ≠ none → Byte.isDigit b = false ∧
    Byte.isWordStart b = false ∧ b ≠ Byte.quote ∧ Byte.extensible? b = none :=
  forall_byte (by decide +kernel)

namespace Munch

theorem fraction_of_noFraction {after : List UInt8} (h : NoFraction after) :
    fraction after = [] := by
  cases after with
  | nil => rfl
  | cons d after =>
      cases after with
      | nil => rfl
      | cons b rest =>
          unfold fraction
          by_cases hd : d = Byte.dot
          · subst hd
            simp [h b rest rfl]
          · simp [hd]

theorem number_whole {digits after : List UInt8} (digit : ∀ b ∈ digits, Byte.isDigit b)
    (noDigit : NextIsNot Byte.isDigit after) (noFraction : NoFraction after) :
    number (digits ++ after) =
      .token (.number (Decimal.toFloat ⟨Byte.digitsValue 0 digits, 0⟩)) digits := by
  simp only [number, takeWhile_append_of_next digit noDigit, List.drop_left,
    fraction_of_noFraction noFraction, List.isEmpty_nil, if_true, List.length_nil]
  rfl

theorem number_decimal {digits decimals after : List UInt8} (digit : ∀ b ∈ digits, Byte.isDigit b)
    (nonempty : decimals ≠ []) (digit' : ∀ b ∈ decimals, Byte.isDigit b)
    (noDigit : NextIsNot Byte.isDigit after) :
    number (digits ++ Byte.dot :: decimals ++ after) =
      .token (.number (Decimal.toFloat
          ⟨Byte.digitsValue (Byte.digitsValue 0 digits) decimals, decimals.length⟩))
        (digits ++ Byte.dot :: decimals) := by
  have hdot : NextIsNot Byte.isDigit (Byte.dot :: decimals ++ after) := by
    intro b hb
    cases hb
    decide
  obtain ⟨d, ds, rfl⟩ := List.exists_cons_of_ne_nil nonempty
  obtain ⟨hd, hds⟩ := List.forall_mem_cons.mp digit'
  have hfraction : fraction (Byte.dot :: (d :: ds) ++ after) = d :: ds := by
    simp only [fraction, List.cons_append, hd, decide_true, Bool.and_self, if_true,
      takeWhile_append_of_next hds noDigit]
  rw [List.append_assoc]
  simp only [number, takeWhile_append_of_next digit hdot, List.drop_left, hfraction]
  rfl

end Munch

/-- Bytes that spell a token are the longest token there. -/
theorem SpelledBefore.longest {l : Lexeme} {spelling after : List UInt8}
    (h : SpelledBefore l spelling after) :
    ∃ first rest, spelling = first :: rest ∧
      Munch.longest first (rest ++ after) = .token l spelling := by
  cases h with
  | whole nonempty digit noDigit noFraction =>
      obtain ⟨first, rest, rfl⟩ := List.exists_cons_of_ne_nil nonempty
      refine ⟨first, rest, rfl, ?_⟩
      rw [Munch.longest, if_pos (digit first List.mem_cons_self)]
      exact Munch.number_whole digit noDigit noFraction
  | @decimal digits decimals _ nonempty digit nonempty' digit' noDigit =>
      obtain ⟨first, rest, rfl⟩ := List.exists_cons_of_ne_nil nonempty
      refine ⟨first, rest ++ Byte.dot :: decimals, rfl, ?_⟩
      rw [Munch.longest, if_pos (digit first List.mem_cons_self)]
      exact Munch.number_decimal digit nonempty' digit' noDigit
  | @word first rest after start word noWord =>
      have hword : ∀ b ∈ first :: rest, Byte.isWord b :=
        List.forall_mem_cons.mpr ⟨by simp [Byte.isWord, start], word⟩
      refine ⟨first, rest, rfl, ?_⟩
      rw [Munch.longest, if_neg (by simp [wordStart_not_digit first start]), if_pos start]
      have htaken := takeWhile_append_of_next hword noWord
      simp only [List.cons_append] at htaken
      simp only [Munch.word, htaken]
  | @string contents unquoted after =>
      refine ⟨Byte.quote, contents ++ [Byte.quote], rfl, ?_⟩
      have hother : ∀ b ∈ contents, b != Byte.quote := by
        intro b hb
        simp only [bne_iff_ne]
        rintro rfl
        exact unquoted hb
      have hquote : NextIsNot (· != Byte.quote) (Byte.quote :: after) := by
        intro b hb
        cases hb
        decide
      rw [Munch.longest, if_neg (by decide), if_neg (by decide), if_pos rfl, List.append_assoc,
        List.singleton_append]
      simp only [Munch.string, takeWhile_append_of_next hother hquote, List.drop_left]
  | @short b short long after known noEqual =>
      obtain ⟨hdigit, hword, hquote⟩ := extensible_not_word b (by simp [known])
      refine ⟨b, [], rfl, ?_⟩
      have hnext : after.head? ≠ some Byte.equalSign := by
        intro h
        simpa using noEqual _ h
      simp [Munch.longest, hdigit, hword, hquote, known, Munch.extensible, hnext]
  | @long b short long known after =>
      obtain ⟨hdigit, hword, hquote⟩ := extensible_not_word b (by simp [known])
      refine ⟨b, [Byte.equalSign], rfl, ?_⟩
      simp [Munch.longest, hdigit, hword, hquote, known, Munch.extensible]
  | @single b symbol known after =>
      obtain ⟨hdigit, hword, hquote, hextensible⟩ := single_not_word b (by simp [known])
      refine ⟨b, [], rfl, ?_⟩
      simp [Munch.longest, hdigit, hword, hquote, hextensible, known]

theorem SpelledBefore.ne_nil {l : Lexeme} {spelling after : List UInt8}
    (h : SpelledBefore l spelling after) : spelling ≠ [] := by
  obtain ⟨first, rest, rfl, -⟩ := h.longest
  exact List.cons_ne_nil first rest

/-- What stands at a byte that is not blank: a token, a string without its end, or nothing known. -/
inductive Standing (first : UInt8) (tail : List UInt8) : Prop where
  | token {l : Lexeme} {rest after : List UInt8} (tail_eq : tail = rest ++ after)
      (spelled : SpelledBefore l (first :: rest) after)
  | unclosed (quote : first = Byte.quote) (unquoted : Byte.quote ∉ tail)
  | unknown (none : BeginsNone first)

theorem standing_of_digit {first : UInt8} (tail : List UInt8) (h : Byte.isDigit first = true) :
    Standing first tail := by
  obtain ⟨digits, after, rfl, digit, noDigit⟩ := exists_run Byte.isDigit tail
  have hdigits : ∀ b ∈ first :: digits, Byte.isDigit b := List.forall_mem_cons.mpr ⟨h, digit⟩
  by_cases hfraction : ∃ b rest, after = Byte.dot :: b :: rest ∧ Byte.isDigit b = true
  · obtain ⟨b, rest, rfl, hb⟩ := hfraction
    obtain ⟨decimals, later, rfl, digit', noDigit'⟩ := exists_run Byte.isDigit rest
    have hdecimals : ∀ d ∈ b :: decimals, Byte.isDigit d := List.forall_mem_cons.mpr ⟨hb, digit'⟩
    have htail : digits ++ Byte.dot :: b :: (decimals ++ later) =
        (digits ++ Byte.dot :: b :: decimals) ++ later := by simp
    exact .token htail
      (.decimal (List.cons_ne_nil first digits) hdigits (List.cons_ne_nil _ _) hdecimals noDigit')
  · have hnone : NoFraction after := fun b rest hafter =>
      Bool.eq_false_iff.mpr fun hb => hfraction ⟨b, rest, hafter, hb⟩
    exact .token rfl (.whole (List.cons_ne_nil _ _) hdigits noDigit hnone)

theorem standing_of_quote (tail : List UInt8) : Standing Byte.quote tail := by
  obtain ⟨contents, after, rfl, other, next⟩ := exists_run (· != Byte.quote) tail
  have unquoted : Byte.quote ∉ contents := fun h => by simpa using other _ h
  cases after with
  | nil => exact .unclosed rfl (by simpa using unquoted)
  | cons b after =>
      obtain rfl : b = Byte.quote := by simpa using next b rfl
      have htail : contents ++ Byte.quote :: after = (contents ++ [Byte.quote]) ++ after := by simp
      exact .token htail (.string unquoted after)

theorem standing (first : UInt8) (tail : List UInt8) (h : Byte.isBlank first = false) :
    Standing first tail := by
  by_cases hdigit : Byte.isDigit first = true
  · exact standing_of_digit tail hdigit
  by_cases hword : Byte.isWordStart first = true
  · obtain ⟨rest, after, rfl, word, noWord⟩ := exists_run Byte.isWord tail
    exact .token rfl (.word hword word noWord)
  by_cases hquote : first = Byte.quote
  · subst hquote
    exact standing_of_quote tail
  cases hextensible : Byte.extensible? first with
  | some pair =>
      by_cases hequal : tail.head? = some Byte.equalSign
      · obtain ⟨after, rfl⟩ := List.head?_eq_some_iff.mp hequal
        exact .token (List.singleton_append).symm (.long hextensible after)
      · refine .token (List.nil_append tail).symm (.short hextensible ?_)
        intro b hb
        rw [beq_eq_false_iff_ne]
        rintro rfl
        exact hequal hb
  | none =>
      cases hsingle : Byte.single? first with
      | some symbol => exact .token (List.nil_append tail).symm (.single hsingle tail)
      | none =>
          exact .unknown ⟨h, by simpa using hdigit, by simpa using hword, hquote, hextensible,
            hsingle⟩

/-! ## Steps of the scan -/

namespace Cursor

theorem past_append (c : Cursor) (first second : List UInt8) :
    (c.past first).past second = c.past (first ++ second) := by
  simp [past, Position.past_append, Nat.add_assoc, List.drop_drop]

theorem rest_past {c : Cursor} {bytes after : List UInt8} (h : c.rest = bytes ++ after) :
    (c.past bytes).rest = after := by
  simp [past, h]

theorem afterBlanks_eq_self {c : Cursor} (h : NextIsNot Byte.isBlank c.rest) :
    c.afterBlanks = c := by
  have hnone : ∀ b ∈ ([] : List UInt8), Byte.isBlank b := fun _ hb => nomatch hb
  have htaken : c.rest.takeWhile Byte.isBlank = [] := takeWhile_append_of_next hnone h
  simp [afterBlanks, takeWhile, htaken, past]

theorem step_of_nothing {c : Cursor} (h : c.rest = []) : c.step = .finished c := by
  have hskip : c.afterBlanks = c := afterBlanks_eq_self (by simp [h, NextIsNot])
  simp only [step, hskip, h]

theorem step_of_blank {c : Cursor} {b : UInt8} {bytes : List UInt8} (h : c.rest = b :: bytes)
    (hb : Byte.isBlank b) : c.step = (c.past [b]).step := by
  have hrest : (c.past [b]).rest = bytes := rest_past h
  have hskip : c.afterBlanks = (c.past [b]).afterBlanks := by
    simp only [afterBlanks, takeWhile, hrest, past_append, h, List.takeWhile_cons_of_pos hb,
      List.singleton_append]
  unfold step
  rw [hskip]

/-- The first byte that is not blank decides the step. -/
theorem step_of_first {c : Cursor} {first : UInt8} {tail : List UInt8} (h : c.rest = first :: tail)
    (hfirst : Byte.isBlank first = false) :
    c.step =
      match Munch.longest first tail with
      | .token lexeme spelling => .token ⟨lexeme, c.position⟩ (c.past spelling)
      | .unclosed spelling => .unclosed c.position (c.past spelling)
      | .unknown => .skipped ⟨c.position, first⟩ (c.past [first]) := by
  have hskip : c.afterBlanks = c := afterBlanks_eq_self (by simp [h, NextIsNot, hfirst])
  cases hlongest : Munch.longest first tail <;> simp only [step, hskip, h, hlongest]

end Cursor

theorem blank_begins_none : ∀ b, Byte.isBlank b = true → Byte.isDigit b = false ∧
    Byte.isWordStart b = false ∧ b ≠ Byte.quote ∧ Byte.extensible? b = none ∧
    Byte.single? b = none :=
  forall_byte (by decide +kernel)

theorem SpelledBefore.not_blank {l : Lexeme} {first : UInt8} {rest after : List UInt8}
    (h : SpelledBefore l (first :: rest) after) : Byte.isBlank first = false := by
  obtain ⟨first', rest', heq, hlongest⟩ := h.longest
  cases heq
  rw [Bool.eq_false_iff]
  intro hblank
  obtain ⟨hdigit, hword, hquote, hextensible, hsingle⟩ := blank_begins_none first hblank
  simp [Munch.longest, hdigit, hword, hquote, hextensible, hsingle] at hlongest

namespace Cursor

theorem step_of_spelled {c : Cursor} {spelling after : List UInt8} {l : Lexeme}
    (h : c.rest = spelling ++ after) (spelled : SpelledBefore l spelling after) :
    c.step = .token ⟨l, c.position⟩ (c.past spelling) := by
  obtain ⟨first, rest, rfl, hlongest⟩ := spelled.longest
  rw [List.cons_append] at h
  rw [step_of_first h spelled.not_blank, hlongest]

theorem step_of_unknown {c : Cursor} {b : UInt8} {after : List UInt8} (h : c.rest = b :: after)
    (none : BeginsNone b) : c.step = .skipped ⟨c.position, b⟩ (c.past [b]) := by
  have hlongest : Munch.longest b after = .unknown := by
    simp [Munch.longest, none.notDigit, none.notWord, none.notQuote, none.notExtensible,
      none.notSingle]
  rw [step_of_first h none.notBlank, hlongest]

theorem step_of_unclosed {c : Cursor} {contents : List UInt8} (h : c.rest = Byte.quote :: contents)
    (unquoted : Byte.quote ∉ contents) :
    c.step = .unclosed c.position (c.past (Byte.quote :: contents)) := by
  have hother : ∀ b ∈ contents, b != Byte.quote := by
    intro b hb
    rw [bne_iff_ne]
    rintro rfl
    exact unquoted hb
  have htaken : contents.takeWhile (· != Byte.quote) = contents := by
    have hend : NextIsNot (· != Byte.quote) [] := fun _ hb => nomatch hb
    simpa using takeWhile_append_of_next hother hend
  have hlongest : Munch.longest Byte.quote contents = .unclosed (Byte.quote :: contents) := by
    rw [Munch.longest, if_neg (by decide), if_neg (by decide), if_pos rfl]
    simp only [Munch.string, htaken, List.drop_length]
  rw [step_of_first h (by decide), hlongest]

end Cursor

/-! ## Rows of tokens -/

/-- The bytes, which stand at a position and have others behind them, are a row of blanks, tokens
and bytes that begin none. -/
inductive Laid : Position → List UInt8 → List Token → List Skip → (after : List UInt8) → Prop where
  | done (p : Position) (after : List UInt8) : Laid p [] [] [] after
  | blank {p : Position} {b : UInt8} {bytes after : List UInt8} {tokens : List Token}
      {skips : List Skip} (isBlank : Byte.isBlank b)
      (more : Laid (p.advance b) bytes tokens skips after) : Laid p (b :: bytes) tokens skips after
  | unknown {p : Position} {b : UInt8} {bytes after : List UInt8} {tokens : List Token}
      {skips : List Skip} (none : BeginsNone b)
      (more : Laid (p.advance b) bytes tokens skips after) :
      Laid p (b :: bytes) tokens (⟨p, b⟩ :: skips) after
  | token {p : Position} {l : Lexeme} {spelling bytes after : List UInt8} {tokens : List Token}
      {skips : List Skip} (spelled : SpelledBefore l spelling (bytes ++ after))
      (more : Laid (p.past spelling) bytes tokens skips after) :
      Laid p (spelling ++ bytes) (⟨l, p⟩ :: tokens) skips after

namespace Laid

variable {p : Position} {bytes after : List UInt8} {tokens : List Token} {skips : List Skip}

theorem append {more : List UInt8} {tokens' : List Token} {skips' : List Skip}
    (first : Laid p bytes tokens skips (more ++ after))
    (second : Laid (p.past bytes) more tokens' skips' after) :
    Laid p (bytes ++ more) (tokens ++ tokens') (skips ++ skips') after := by
  generalize hlater : more ++ after = later at first
  induction first with
  | done => exact second
  | blank isBlank _ ih => exact .blank isBlank (ih second hlater)
  | unknown none _ ih => exact .unknown none (ih second hlater)
  | @token p l spelling bytes after' tokens skips spelled _ ih =>
      rw [List.append_assoc]
      refine .token (by rwa [List.append_assoc, hlater]) (ih ?_ hlater)
      rwa [← Position.past_append]

/-- The tokens of a row stand where the row before them ends. -/
theorem split {before later : List Token} {t : Token}
    (h : Laid p bytes (before ++ t :: later) skips after) :
    ∃ front rest skips', bytes = front ++ rest ∧ Laid p front before skips' (rest ++ after) ∧
      t.position = p.past front := by
  generalize htokens : before ++ t :: later = tokens at h
  induction h generalizing before with
  | done => exact absurd htokens (by simp)
  | @blank p b bytes after tokens skips isBlank _ ih =>
      obtain ⟨front, rest, skips', rfl, hfront, hposition⟩ := ih htokens
      exact ⟨b :: front, rest, skips', rfl, .blank isBlank hfront, hposition⟩
  | @unknown p b bytes after tokens skips none _ ih =>
      obtain ⟨front, rest, skips', rfl, hfront, hposition⟩ := ih htokens
      exact ⟨b :: front, rest, _, rfl, .unknown none hfront, hposition⟩
  | @token p l spelling bytes after tokens skips spelled more ih =>
      cases before with
      | nil =>
          cases htokens
          exact ⟨[], spelling ++ bytes, [], rfl, .done p _, rfl⟩
      | cons t' before =>
          cases htokens
          obtain ⟨front, rest, skips', rfl, hfront, hposition⟩ := ih rfl
          refine ⟨spelling ++ front, rest, skips', by simp, .token (by simpa using spelled) hfront,
            ?_⟩
          rw [hposition, Position.past_append]

/-- The scan finds the tokens of a row. -/
theorem run_eq {c : Cursor} {fuel : Nat} (h : Laid c.position c.rest tokens skips [])
    (hfuel : c.rest.length ≤ fuel) :
    Scan.run (fuel + 1) c = ⟨tokens, skips, .finished (c.position.past c.rest)⟩ := by
  generalize hp : c.position = p at h
  generalize hbytes : c.rest = bytes at h hfuel
  generalize hafter : ([] : List UInt8) = after at h
  -- Every step of the scan takes a token or an unknown byte; blanks cost no step.
  induction h generalizing fuel c with
  | done p after =>
      subst hp
      simp only [Scan.run, Cursor.step_of_nothing hbytes]
      rfl
  | @blank p b bytes after tokens skips isBlank _ ih =>
      subst hp
      have hrest : (c.past [b]).rest = bytes := Cursor.rest_past hbytes
      have hrun := ih rfl hrest (Nat.le_of_succ_le hfuel) hafter
      simp only [Scan.run, Cursor.step_of_blank hbytes isBlank] at hrun ⊢
      exact hrun
  | @unknown p b bytes after tokens skips none _ ih =>
      subst hp
      have hrest : (c.past [b]).rest = bytes := Cursor.rest_past hbytes
      obtain ⟨fuel, rfl⟩ := Nat.exists_eq_succ_of_ne_zero (Nat.ne_zero_of_lt hfuel)
      have hrun := ih rfl hrest (Nat.le_of_succ_le_succ hfuel) hafter
      rw [Scan.run, Cursor.step_of_unknown hbytes none]
      simp only [hrun]
      rfl
  | @token p l spelling bytes after tokens skips spelled _ ih =>
      subst hp hafter
      rw [List.append_nil] at spelled
      have hrest : (c.past spelling).rest = bytes := Cursor.rest_past hbytes
      have hpos : 0 < spelling.length := List.length_pos_iff.mpr spelled.ne_nil
      rw [List.length_append] at hfuel
      obtain ⟨fuel, rfl⟩ := Nat.exists_eq_succ_of_ne_zero (n := fuel) (by omega)
      have hrun := ih rfl hrest (Nat.le_of_lt_succ (by omega : bytes.length < fuel.succ)) rfl
      rw [Scan.run, Cursor.step_of_spelled hbytes spelled]
      simp only [hrun, Position.past_append]

end Laid

/-- How a row of tokens ends: with the source, or at a quote that opens a string without an end. -/
inductive Ends : Ending → Position → (after : List UInt8) → Prop where
  | finished (p : Position) : Ends (.finished p) p []
  | unclosed (p : Position) {contents : List UInt8} (unquoted : Byte.quote ∉ contents) :
      Ends (.unclosed p) p (Byte.quote :: contents)

/-- Every source is a row of tokens up to its end or an unclosed string. -/
theorem exists_laid_run (c : Cursor) {fuel : Nat} (hfuel : c.rest.length ≤ fuel) :
    ∃ row after, c.rest = row ++ after ∧
      Laid c.position row (Scan.run (fuel + 1) c).tokens (Scan.run (fuel + 1) c).skips after ∧
      Ends (Scan.run (fuel + 1) c).ending (c.position.past row) after := by
  generalize hbytes : c.rest = bytes at hfuel
  induction hlength : bytes.length using Nat.strongRecOn generalizing c bytes fuel with
  | ind n ih =>
  cases bytes with
  | nil =>
      refine ⟨[], [], rfl, ?_⟩
      simp only [Scan.run, Cursor.step_of_nothing hbytes]
      exact ⟨.done _ _, .finished _⟩
  | cons first tail =>
      have hrest : (c.past [first]).rest = tail := Cursor.rest_past hbytes
      by_cases hblank : Byte.isBlank first = true
      · obtain ⟨row, after, rfl, hrow, hend⟩ :=
          ih tail.length (hlength ▸ Nat.lt_succ_self _) (c.past [first]) tail hrest
            (Nat.le_of_succ_le hfuel) rfl
        refine ⟨first :: row, after, rfl, ?_⟩
        simp only [Scan.run, Cursor.step_of_blank hbytes hblank] at hrow hend ⊢
        exact ⟨.blank hblank hrow, hend⟩
      · obtain ⟨fuel, rfl⟩ := Nat.exists_eq_succ_of_ne_zero (Nat.ne_zero_of_lt hfuel)
        cases standing first tail (Bool.eq_false_iff.mpr hblank) with
        | @token l rest after tail_eq spelled =>
            subst tail_eq
            have hlater : (c.past (first :: rest)).rest = after := Cursor.rest_past hbytes
            have hshorter : after.length < n := by
              rw [← hlength]
              simp only [List.length_cons, List.length_append]
              omega
            have henough : after.length ≤ fuel := by
              simp only [List.length_cons, List.length_append] at hfuel
              omega
            obtain ⟨row, after', hafter, hrow, hend⟩ :=
              ih after.length hshorter (c.past (first :: rest)) after hlater henough rfl
            refine ⟨(first :: rest) ++ row, after', by simp [hafter], ?_⟩
            rw [Scan.run, Cursor.step_of_spelled hbytes spelled, Position.past_append]
            exact ⟨.token (hafter ▸ spelled) hrow, hend⟩
        | unclosed quote unquoted =>
            subst quote
            refine ⟨[], _, rfl, ?_⟩
            rw [Scan.run, Cursor.step_of_unclosed hbytes unquoted]
            exact ⟨.done _ _, .unclosed _ unquoted⟩
        | unknown none =>
            obtain ⟨row, after, rfl, hrow, hend⟩ :=
              ih tail.length (hlength ▸ Nat.lt_succ_self _) (c.past [first]) tail hrest
                (Nat.le_of_succ_le_succ hfuel) rfl
            refine ⟨first :: row, after, rfl, ?_⟩
            rw [Scan.run, Cursor.step_of_unknown hbytes none]
            exact ⟨.unknown none hrow, hend⟩

namespace Scan

theorem ofBytes_eq_of_laid {bytes : List UInt8} {tokens : List Token} {skips : List Skip}
    (h : Laid .start bytes tokens skips []) :
    ofBytes bytes = ⟨tokens, skips, .finished (Position.start.past bytes)⟩ :=
  Laid.run_eq (c := .ofBytes bytes) h (Nat.le_refl _)

theorem exists_laid (bytes : List UInt8) :
    ∃ row after, bytes = row ++ after ∧
      Laid .start row (ofBytes bytes).tokens (ofBytes bytes).skips after ∧
      Ends (ofBytes bytes).ending (Position.start.past row) after :=
  exists_laid_run (.ofBytes bytes) (Nat.le_refl _)

end Scan

/-! ## Where no token goes on

A token is over at the end and before any byte that could go on with none. What stands behind such a
byte does not matter.
-/

/-- Nothing follows, or a byte that goes on with no token. -/
def Parted (after : List UInt8) : Prop :=
  ∀ b ∈ after.head?, Byte.isWord b = false ∧ b ≠ Byte.dot ∧ b ≠ Byte.equalSign

theorem parted_cons {b : UInt8}
    (h : Byte.isWord b = false ∧ b ≠ Byte.dot ∧ b ≠ Byte.equalSign) (bytes : List UInt8) :
    Parted (b :: bytes) := by
  intro b' hb'
  cases hb'
  exact h

namespace Parted

variable {after after' : List UInt8}

theorem noWord (parted : Parted after) : NextIsNot Byte.isWord after :=
  fun b hb => (parted b hb).1

theorem noDigit (parted : Parted after) : NextIsNot Byte.isDigit after :=
  fun b hb => (Bool.or_eq_false_iff.mp (parted b hb).1).2

theorem noEqual (parted : Parted after) : NextIsNot (· == Byte.equalSign) after :=
  fun b hb => beq_eq_false_iff_ne.mpr (parted b hb).2.2

theorem noFraction (parted : Parted after') (bytes : List UInt8) (h : NoFraction (bytes ++ after)) :
    NoFraction (bytes ++ after') := by
  intro b rest heq
  cases bytes with
  | nil =>
      subst heq
      exact absurd rfl (parted Byte.dot rfl).2.1
  | cons d bytes =>
      cases bytes with
      | nil =>
          cases heq
          exact parted.noDigit b rfl
      | cons b' bytes =>
          cases heq
          exact h b (bytes ++ after) rfl

theorem spelledBefore (parted : Parted after') (bytes : List UInt8) {l : Lexeme}
    {spelling : List UInt8} (h : SpelledBefore l spelling (bytes ++ after)) :
    SpelledBefore l spelling (bytes ++ after') := by
  have next {p : UInt8 → Bool} (hp : NextIsNot p after') (hbytes : NextIsNot p (bytes ++ after)) :
      NextIsNot p (bytes ++ after') := by
    cases bytes with
    | nil => exact hp
    | cons b bytes => exact hbytes
  cases h with
  | whole nonempty digit noDigit noFraction =>
      exact .whole nonempty digit (next parted.noDigit noDigit) (parted.noFraction bytes noFraction)
  | decimal nonempty digit nonempty' digit' noDigit =>
      exact .decimal nonempty digit nonempty' digit' (next parted.noDigit noDigit)
  | word start word noWord => exact .word start word (next parted.noWord noWord)
  | string unquoted => exact .string unquoted _
  | short known noEqual => exact .short known (next parted.noEqual noEqual)
  | long known => exact .long known _
  | single known => exact .single known _

/-- A row stays a row when other bytes follow that go on with no token. -/
theorem laid (parted : Parted after') {p : Position} {bytes : List UInt8} {tokens : List Token}
    {skips : List Skip} (h : Laid p bytes tokens skips after) :
    Laid p bytes tokens skips after' := by
  induction h with
  | done p => exact .done p after'
  | blank isBlank _ ih => exact .blank isBlank ih
  | unknown none _ ih => exact .unknown none ih
  | token spelled _ ih => exact .token (parted.spelledBefore _ spelled) ih

end Parted

/-- Nothing follows, or a blank. -/
def Fenced (after : List UInt8) : Prop := ∀ b ∈ after.head?, Byte.isBlank b

theorem fenced_nil : Fenced [] := fun _ hb => nomatch hb

theorem fenced_cons {b : UInt8} (h : Byte.isBlank b) (bytes : List UInt8) :
    Fenced (b :: bytes) := by
  intro b' hb'
  cases hb'
  exact h

theorem blank_parts : ∀ b, Byte.isBlank b = true →
    Byte.isWord b = false ∧ b ≠ Byte.dot ∧ b ≠ Byte.equalSign :=
  forall_byte (by decide +kernel)

theorem Fenced.parted {after : List UInt8} (fence : Fenced after) : Parted after :=
  fun b hb => blank_parts b (fence b hb)

theorem spelledBefore_word (bytes : List UInt8) {after : List UInt8}
    (start : bytes.head?.any Byte.isWordStart) (word : bytes.all Byte.isWord)
    (noWord : NextIsNot Byte.isWord after) :
    SpelledBefore
      ((Munch.keyword? (Byte.asciiText bytes)).getD (.identifier (Byte.asciiText bytes)))
      bytes after := by
  cases bytes with
  | nil => cases start
  | cons first rest =>
      rw [List.all_cons, Bool.and_eq_true] at word
      exact .word start (List.all_eq_true.mp word.2) noWord

theorem Symbol.spelledBefore_of_keyword {s : Symbol} {after : List UInt8} (fence : Fenced after)
    (known : Munch.keyword? (Byte.asciiText (Utf8.encode s.text)) = some (.symbol s))
    (start : (Utf8.encode s.text).head?.any Byte.isWordStart)
    (word : (Utf8.encode s.text).all Byte.isWord) :
    SpelledBefore (.symbol s) (Utf8.encode s.text) after := by
  have hspelled := spelledBefore_word _ start word fence.parted.noWord
  rwa [known, Option.getD_some] at hspelled

/-- Every symbol is read from its own text. -/
theorem Symbol.spelledBefore (s : Symbol) {after : List UInt8} (fence : Fenced after) :
    SpelledBefore (.symbol s) (Utf8.encode s.text) after := by
  cases s with
  | nil | andWord | orWord | ifWord | elseWord | whileWord | fnWord | retWord | nonlocalWord =>
      exact spelledBefore_of_keyword fence (by decide +kernel) (by decide +kernel)
        (by decide +kernel)
  | equal | bang | greater | less => exact .short rfl fence.parted.noEqual
  | equalEqual => exact .long (b := 61) rfl after
  | bangEqual => exact .long (b := 33) rfl after
  | greaterEqual => exact .long (b := 62) rfl after
  | lessEqual => exact .long (b := 60) rfl after
  | openParen | closeParen | colon | comma | semicolon | plus | minus | star | slash | percent =>
      exact .single (by decide) after

end Scriptlet

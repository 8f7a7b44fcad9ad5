import Scriptlet.Proofs.Syntax.Joining
import Scriptlet.Proofs.Text.Lines
import Scriptlet.Tree.Display

/-!
# The gist of a source

Of a source, the parser sees the lexemes, and whether the last string has its end. This is the gist
of the source. A line break goes on with no token. So the gist of lines comes from those of the
single lines, as long as no string reaches over the end of a line. Blanks at either end of a line
have no part in it, be they blanks for the scan or bytes that it skips.
-/

namespace Scriptlet

open Node (SameShape SameShapes)

/-! ## The gist of a source -/

def Ending.isClosed : Ending → Bool
  | .finished _ => true
  | .unclosed _ => false

/-- The scan finds a row of tokens, however it ends. -/
theorem Laid.run_of_ends {c : Cursor} {fuel : Nat} {row after : List UInt8} {tokens : List Token}
    {skips : List Skip} {ending : Ending} (laid : Laid c.position row tokens skips after)
    (hrest : c.rest = row ++ after) (ends : Ends ending (c.position.past row) after)
    (hfuel : c.rest.length ≤ fuel) : Scan.run (fuel + 1) c = ⟨tokens, skips, ending⟩ := by
  generalize hp : c.position = p at laid ends
  induction laid generalizing fuel c with
  | done p after =>
      subst hp
      rw [List.nil_append] at hrest
      cases ends with
      | finished => simp only [Scan.run, Cursor.step_of_nothing hrest]; rfl
      | unclosed p unquoted => simp only [Scan.run, Cursor.step_of_unclosed hrest unquoted]; rfl
  | @blank p b bytes after tokens skips isBlank _ ih =>
      subst hp
      have hlater : (c.past [b]).rest = bytes ++ after := Cursor.rest_past hrest
      have enough : (c.past [b]).rest.length ≤ fuel := by
        rw [hlater]
        rw [hrest] at hfuel
        exact Nat.le_of_succ_le hfuel
      have hrun := ih hlater enough rfl ends
      simp only [Scan.run, Cursor.step_of_blank hrest isBlank] at hrun ⊢
      exact hrun
  | @unknown p b bytes after tokens skips none _ ih =>
      subst hp
      have hlater : (c.past [b]).rest = bytes ++ after := Cursor.rest_past hrest
      rw [hrest] at hfuel
      obtain ⟨fuel, rfl⟩ := Nat.exists_eq_succ_of_ne_zero (Nat.ne_zero_of_lt hfuel)
      have enough : (c.past [b]).rest.length ≤ fuel := by
        rw [hlater]
        exact Nat.le_of_succ_le_succ hfuel
      have hrun := ih hlater enough rfl ends
      rw [Scan.run, Cursor.step_of_unknown hrest none]
      simp only [hrun]
  | @token p l spelling bytes after tokens skips spelled _ ih =>
      subst hp
      rw [List.append_assoc] at hrest
      have hlater : (c.past spelling).rest = bytes ++ after := Cursor.rest_past hrest
      have hpos : 0 < spelling.length := List.length_pos_iff.mpr spelled.ne_nil
      rw [hrest, List.length_append] at hfuel
      obtain ⟨fuel, rfl⟩ := Nat.exists_eq_succ_of_ne_zero (n := fuel) (by omega)
      have enough : (c.past spelling).rest.length ≤ fuel := by
        rw [hlater]
        omega
      have hrun := ih hlater enough rfl (by rwa [Position.past_append] at ends)
      rw [Scan.run, Cursor.step_of_spelled hrest spelled]
      simp only [hrun]

namespace Scan

/-- The lexemes of a source, and whether its last string is closed. -/
def gist (bytes : List UInt8) : List Lexeme × Bool :=
  ((ofBytes bytes).tokens.map (·.lexeme), (ofBytes bytes).ending.isClosed)

section

variable {p q : Position} {row after : List UInt8} {tokens : List Token} {skips : List Skip}
  {ending : Ending}

theorem ofBytes_of_ends (laid : Laid .start row tokens skips after)
    (ends : Ends ending (Position.start.past row) after) :
    ofBytes (row ++ after) = ⟨tokens, skips, ending⟩ :=
  Laid.run_of_ends (c := .ofBytes (row ++ after)) laid rfl ends (Nat.le_refl _)

theorem gist_of_laid (laid : Laid p row tokens skips after) (ends : Ends ending q after) :
    gist (row ++ after) = (tokens.map (·.lexeme), ending.isClosed) := by
  obtain ⟨tokens', skips', same, laid'⟩ := laid.moved .start
  unfold gist
  cases ends with
  | finished => rw [ofBytes_of_ends laid' (.finished _), same]; rfl
  | unclosed _ unquoted => rw [ofBytes_of_ends laid' (.unclosed _ unquoted), same]; rfl

end

theorem exists_row (bytes : List UInt8) :
    ∃ row after tokens skips ending q, bytes = row ++ after ∧
      Laid .start row tokens skips after ∧ Ends ending q after ∧
      gist bytes = (tokens.map (·.lexeme), ending.isClosed) := by
  obtain ⟨row, after, hbytes, laid, ends⟩ := exists_laid bytes
  exact ⟨row, after, _, _, _, _, hbytes, laid, ends, rfl⟩

theorem exists_row_of_closed {bytes : List UInt8} (closed : (gist bytes).2 = true) :
    ∃ tokens skips, Laid .start bytes tokens skips [] ∧
      gist bytes = (tokens.map (·.lexeme), true) := by
  obtain ⟨row, after, tokens, skips, ending, q, rfl, laid, ends, hgist⟩ := exists_row bytes
  rw [hgist] at closed
  cases ends with
  | unclosed => cases closed
  | finished =>
      rw [List.append_nil] at hgist ⊢
      exact ⟨tokens, skips, laid, hgist⟩

theorem exists_row_of_open {bytes : List UInt8} (unclosed : (gist bytes).2 = false) :
    ∃ row contents tokens skips, bytes = row ++ Byte.quote :: contents ∧
      Byte.quote ∉ contents ∧ Laid .start row tokens skips (Byte.quote :: contents) ∧
      gist bytes = (tokens.map (·.lexeme), false) := by
  obtain ⟨row, after, tokens, skips, ending, q, rfl, laid, ends, hgist⟩ := exists_row bytes
  rw [hgist] at unclosed
  cases ends with
  | finished => cases unclosed
  | unclosed _ unquoted => exact ⟨row, _, tokens, skips, rfl, unquoted, laid, hgist⟩

/-- Behind a source without an open string, bytes that go on with no token are scanned as if they
stood alone. -/
theorem gist_append {a b : List UInt8} (closed : (gist a).2 = true) (parted : Parted b) :
    gist (a ++ b) = ((gist a).1 ++ (gist b).1, (gist b).2) := by
  obtain ⟨tokens, skips, laid, hgist⟩ := exists_row_of_closed closed
  obtain ⟨row, after, tokens', skips', ending, q, rfl, laid', ends, hgist'⟩ := exists_row b
  obtain ⟨moved, skips'', same, laid''⟩ := laid'.moved (Position.start.past a)
  have whole := (parted.laid laid).append laid''
  rw [← List.append_assoc, gist_of_laid whole ends, hgist, hgist', List.map_append, ← same]

end Scan

/-! ## Bytes without a part in tokens -/

/-- The byte begins no token, goes on with none, and is no quote. -/
def Byte.isVoid (b : UInt8) : Bool :=
  Byte.isBlank b ||
    !(Byte.isWord b || b == Byte.quote || (Byte.extensible? b).isSome || (Byte.single? b).isSome ||
      b == Byte.dot)

theorem blank_or_beginsNone_of_isVoid {b : UInt8} (h : Byte.isVoid b = true) :
    Byte.isBlank b = true ∨ BeginsNone b := by
  by_cases blank : Byte.isBlank b = true
  · exact .inl blank
  · simp only [Byte.isVoid, Byte.isWord, blank, Bool.false_or, Bool.not_eq_true',
      Bool.or_eq_false_iff, beq_eq_false_iff_ne,
      Option.isSome_eq_false_iff, Option.isNone_iff_eq_none] at h
    obtain ⟨⟨⟨⟨⟨start, digit⟩, quote⟩, extensible⟩, single⟩, -⟩ := h
    exact .inr ⟨by simpa using blank, digit, start, quote, extensible, single⟩

theorem void_parts : ∀ b, Byte.isVoid b = true →
    (Byte.isWord b = false ∧ b ≠ Byte.dot ∧ b ≠ Byte.equalSign) ∧ b ≠ Byte.quote :=
  forall_byte (by decide +kernel)

theorem isVoid_of_high : ∀ b : UInt8, 0x80 ≤ b.toNat → Byte.isVoid b = true :=
  forall_byte (by decide +kernel)

theorem isVoid_of_low : ∀ b : UInt8, (9 ≤ b.toNat ∧ b.toNat ≤ 13) ∨ (28 ≤ b.toNat ∧ b.toNat ≤ 32) →
    Byte.isVoid b = true :=
  forall_byte (by decide +kernel)

/-- What is blank in a text is nothing to the scan, blank or not. -/
theorem isVoid_of_mem_blank {c : Char} (blank : Text.isBlank c = true) {b : UInt8}
    (hb : b ∈ String.utf8EncodeChar c) : Byte.isVoid b = true := by
  by_cases high : 0x80 ≤ b.toNat
  · exact isVoid_of_high b high
  · apply isVoid_of_low
    have code := Utf8.mem_encodeChar hb (Nat.lt_of_not_le high)
    simp only [Text.isBlank, code, Bool.or_eq_true, Bool.and_eq_true, decide_eq_true_eq,
      beq_iff_eq] at blank
    omega

namespace Scan

theorem gist_void_cons {b : UInt8} (h : Byte.isVoid b = true) (bytes : List UInt8) :
    gist (b :: bytes) = gist bytes := by
  obtain ⟨row, after, tokens, skips, ending, q, rfl, laid, ends, hgist⟩ := exists_row bytes
  obtain ⟨moved, skips', same, laid'⟩ := laid.moved (Position.start.advance b)
  rw [hgist, same]
  rcases blank_or_beginsNone_of_isVoid h with blank | none
  · exact gist_of_laid (.blank blank laid') ends
  · exact gist_of_laid (.unknown none laid') ends

/-- Bytes without a part in tokens may stand in front of a source. -/
theorem gist_void_append {voids : List UInt8} (h : ∀ b ∈ voids, Byte.isVoid b = true)
    (bytes : List UInt8) : gist (voids ++ bytes) = gist bytes := by
  induction voids with
  | nil => rfl
  | cons b voids ih =>
      have ⟨first, rest⟩ := List.forall_mem_cons.mp h
      rw [List.cons_append, gist_void_cons first, ih rest]

theorem gist_nil : gist [] = ([], true) := gist_of_laid (.done .start []) (.finished .start)

theorem quote_parted (bytes : List UInt8) : Parted (Byte.quote :: bytes) :=
  parted_cons (by decide) bytes

/-- They may stand behind it, too, also if its last string is open. -/
theorem gist_append_void (bytes : List UInt8) {voids : List UInt8}
    (h : ∀ b ∈ voids, Byte.isVoid b = true) : gist (bytes ++ voids) = gist bytes := by
  cases hclosed : (gist bytes).2 with
  | true =>
      have parted : Parted voids := fun b hb => (void_parts b (h b (List.mem_of_mem_head? hb))).1
      have alone : gist voids = ([], true) := by
        have hvoid := gist_void_append h []
        rwa [List.append_nil, gist_nil] at hvoid
      rw [gist_append hclosed parted, alone, List.append_nil, ← hclosed]
  | false =>
      obtain ⟨row, contents, tokens, skips, rfl, unquoted, laid, hgist⟩ :=
        exists_row_of_open hclosed
      have longer : Byte.quote ∉ contents ++ voids := by
        rw [List.mem_append]
        rintro (inside | behind)
        · exact unquoted inside
        · exact (void_parts _ (h _ behind)).2 rfl
      rw [hgist, List.append_assoc, List.cons_append]
      exact gist_of_laid ((quote_parted _).laid laid) (.unclosed .start longer)

theorem gist_newline {a : List UInt8} (closed : (gist a).2 = true) (b : List UInt8) :
    gist (a ++ 10 :: b) = ((gist a).1 ++ (gist b).1, (gist b).2) := by
  rw [gist_append closed (parted_cons (by decide) b), gist_void_cons (by decide)]

/-! ## Strings over the end of a line -/

theorem mem_tokens_of_laid {row after : List UInt8} {tokens : List Token} {skips : List Skip}
    (laid : Laid .start row tokens skips after) {t : Token} (ht : t ∈ tokens) :
    t ∈ (ofBytes (row ++ after)).tokens := by
  obtain ⟨row', after', hafter, laid', ends⟩ :=
    exists_laid_run ⟨0, Position.start.past row, after⟩ (Nat.le_refl _)
  dsimp only at hafter laid' ends
  rw [hafter] at laid
  rw [← Position.past_append] at ends
  rw [hafter, ← List.append_assoc, ofBytes_of_ends (laid.append laid') ends]
  exact List.mem_append_left _ ht

/-- An open string goes on until the next quote, over the end of the line. -/
theorem exists_string_across {a b : List UInt8} (unclosed : (gist a).2 = false)
    (hb : Byte.quote ∈ b) :
    ∃ t ∈ (ofBytes (a ++ 10 :: b)).tokens, ∃ contents : List UInt8, 10 ∈ contents ∧
      t.lexeme = .string (Utf8.decodeLossy contents) := by
  obtain ⟨row, front, tokens, skips, rfl, unquoted, laid, -⟩ := exists_row_of_open unclosed
  obtain ⟨back, after, rfl, other, next⟩ := exists_run (· != Byte.quote) b
  have hback : Byte.quote ∉ back := fun h => by simpa using other _ h
  cases after with
  | nil =>
      rw [List.append_nil] at hb
      exact absurd hb hback
  | cons quote after =>
      obtain rfl : quote = Byte.quote := by simpa using next quote rfl
      have inside : Byte.quote ∉ front ++ 10 :: back := by
        rw [List.mem_append, List.mem_cons]
        rintro (h | h | h)
        · exact unquoted h
        · cases h
        · exact hback h
      have spelled : SpelledBefore (.string (Utf8.decodeLossy (front ++ 10 :: back)))
          (Byte.quote :: (front ++ 10 :: back) ++ [Byte.quote]) ([] ++ after) :=
        .string inside after
      have string := Laid.token (p := Position.start.past row) spelled (.done _ after)
      have whole := ((quote_parted _).laid laid).append string
      have bytes : row ++ Byte.quote :: front ++ 10 :: (back ++ Byte.quote :: after) =
          row ++ (Byte.quote :: (front ++ 10 :: back) ++ [Byte.quote] ++ []) ++ after := by simp
      rw [bytes]
      exact ⟨_, mem_tokens_of_laid whole (List.mem_append_right _ List.mem_cons_self), _,
        List.mem_append_right _ List.mem_cons_self, rfl⟩

end Scan

/-! ## Quotes -/

theorem SpelledBefore.count_quote {l : Lexeme} {spelling after : List UInt8}
    (h : SpelledBefore l spelling after) : spelling.count Byte.quote % 2 = 0 := by
  have none_of {bytes : List UInt8} (q : UInt8 → Bool) (hq : q Byte.quote = false)
      (hbytes : ∀ b ∈ bytes, q b = true) : bytes.count Byte.quote = 0 := by
    apply List.count_eq_zero.mpr
    intro hmem
    rw [hbytes _ hmem] at hq
    cases hq
  cases h with
  | whole _ digit => rw [none_of Byte.isDigit rfl digit]
  | decimal _ digit _ digit' =>
      rw [List.count_append, List.count_cons, none_of Byte.isDigit rfl digit,
        none_of Byte.isDigit rfl digit']
      rfl
  | @word first rest after start word =>
      have hword : ∀ b ∈ first :: rest, Byte.isWord b = true :=
        List.forall_mem_cons.mpr ⟨by simp [Byte.isWord, start], word⟩
      rw [none_of Byte.isWord rfl hword]
  | string unquoted =>
      rw [List.count_append, List.count_cons, List.count_eq_zero.mpr unquoted]
      rfl
  | @short b _ _ _ known =>
      rw [List.count_singleton]
      have := (extensible_not_word b (by simp [known])).2.2
      simp [this]
  | @long b _ _ known =>
      have first := (extensible_not_word b (by simp [known])).2.2
      have second : Byte.equalSign ≠ Byte.quote := by decide
      simp [first, second]
  | @single b _ known =>
      have := (single_not_word b (by simp [known])).2.2.1
      simp [this]

theorem Laid.count_quote {p : Position} {bytes after : List UInt8} {tokens : List Token}
    {skips : List Skip} (h : Laid p bytes tokens skips after) : bytes.count Byte.quote % 2 = 0 := by
  induction h with
  | done => rfl
  | @blank p b bytes after tokens skips isBlank _ ih =>
      have := (blank_begins_none b isBlank).2.2.1
      simpa [List.count_cons, this] using ih
  | unknown none _ ih => simpa [List.count_cons, none.notQuote] using ih
  | token spelled _ ih =>
      rw [List.count_append]
      have := spelled.count_quote
      omega

/-- A string is open behind an odd number of quotes. -/
theorem Scan.gist_closed_iff (bytes : List UInt8) :
    (gist bytes).2 = true ↔ bytes.count Byte.quote % 2 = 0 := by
  cases hclosed : (gist bytes).2 with
  | true =>
      obtain ⟨tokens, skips, laid, -⟩ := exists_row_of_closed hclosed
      exact ⟨fun _ => laid.count_quote, fun _ => rfl⟩
  | false =>
      obtain ⟨row, contents, tokens, skips, rfl, unquoted, laid, -⟩ := exists_row_of_open hclosed
      have even := laid.count_quote
      rw [List.count_append, List.count_cons_self, List.count_eq_zero.mpr unquoted]
      constructor
      · intro h
        cases h
      · omega

/-! ## Texts -/

namespace Text

def gist (cs : List Char) : List Lexeme × Bool := Scan.gist (cs.flatMap String.utf8EncodeChar)

theorem isVoid_of_blank {cs : List Char} (blank : ∀ c ∈ cs, isBlank c = true) :
    ∀ b ∈ cs.flatMap String.utf8EncodeChar, Byte.isVoid b = true := by
  intro b hb
  obtain ⟨c, hc, hbc⟩ := List.mem_flatMap.mp hb
  exact isVoid_of_mem_blank (blank c hc) hbc

theorem gist_append_blank (cs : List Char) {back : List Char}
    (blank : ∀ c ∈ back, isBlank c = true) :
    gist (cs ++ back) = gist cs := by
  unfold gist
  rw [List.flatMap_append, Scan.gist_append_void _ (isVoid_of_blank blank)]

theorem gist_trimChars (cs : List Char) : gist (trimChars cs) = gist cs := by
  obtain ⟨front, back, hcs, hfront, hback⟩ := exists_trimmed cs
  have whole : gist cs = gist (front ++ trimChars cs) := by
    rw [← gist_append_blank (front ++ trimChars cs) hback, ← hcs]
  rw [whole]
  unfold gist
  rw [List.flatMap_append, Scan.gist_void_append (isVoid_of_blank hfront)]

theorem bytes_newline (a b : List Char) :
    (a ++ '\n' :: b).flatMap String.utf8EncodeChar =
      a.flatMap String.utf8EncodeChar ++ 10 :: b.flatMap String.utf8EncodeChar := by
  rw [List.flatMap_append, List.flatMap_cons]
  rfl

theorem gist_newline {a : List Char} (closed : (gist a).2 = true) (b : List Char) :
    gist (a ++ '\n' :: b) = ((gist a).1 ++ (gist b).1, (gist b).2) := by
  unfold gist
  rw [bytes_newline, Scan.gist_newline closed]

theorem count_quote_bytes (cs : List Char) :
    (cs.flatMap String.utf8EncodeChar).count Byte.quote = cs.count '"' := by
  induction cs with
  | nil => rfl
  | cons c cs ih =>
      rw [List.flatMap_cons, List.count_append, ih, List.count_cons]
      by_cases hc : c = '"'
      · subst hc
        rw [Nat.add_comm]
        rfl
      · have none : Byte.quote ∉ String.utf8EncodeChar c := by
          intro hmem
          have code := Utf8.mem_encodeChar hmem (by decide)
          exact hc (Char.toNat_inj.mp code)
        simp [List.count_eq_zero.mpr none, hc]

theorem gist_closed_iff (cs : List Char) : (gist cs).2 = true ↔ cs.count '"' % 2 = 0 := by
  rw [← count_quote_bytes]
  exact Scan.gist_closed_iff _

/-- A string that is open at the end of a line and closed later has a line feed in it. -/
theorem exists_string_across {a b : List Char} (unclosed : (gist a).2 = false) (hb : '"' ∈ b) :
    ∃ t ∈ (Scan.ofBytes ((a ++ '\n' :: b).flatMap String.utf8EncodeChar)).tokens,
      ∃ s, t.lexeme = .string s ∧ '\n' ∈ s.toList := by
  have quote : Byte.quote ∈ b.flatMap String.utf8EncodeChar :=
    List.mem_flatMap.mpr ⟨'"', hb, by decide⟩
  obtain ⟨t, ht, contents, hcontents, lexeme⟩ := Scan.exists_string_across unclosed quote
  rw [bytes_newline]
  exact ⟨t, ht, _, lexeme, Utf8.mem_decodeLossy (b := 10) (by decide) hcontents⟩

def core (lines : List (List Char)) : List (List Char) :=
  (lines.map trimChars).filter (· ≠ [])

/-- If no string is open where a further line begins that is not blank, then blank lines and the
blanks around lines make no difference. -/
theorem gist_core {lines : List (List Char)}
    (closed : ∀ before line after, lines = before ++ line :: after → trimChars line ≠ [] →
      (gist (joinLines before)).2 = true) :
    gist (joinLines (core lines)) = gist (joinLines lines) := by
  induction lines using List.reverseRecOn with
  | nil => rfl
  | append_singleton lines line ih =>
      have earlier := ih fun before first after h =>
        closed before first (after ++ [line]) (by simp [h])
      by_cases hlines : lines = []
      · subst hlines
        by_cases blank : trimChars line = []
        · have nothing : core ([] ++ [line]) = [] := by simp [core, blank]
          rw [nothing, ← gist_trimChars (joinLines ([] ++ [line]))]
          exact congrArg gist blank.symm
        · have alone : core ([] ++ [line]) = [trimChars line] := by simp [core, blank]
          rw [alone]
          exact gist_trimChars line
      · rw [joinLines_append hlines (List.cons_ne_nil line [])]
        by_cases blank : trimChars line = []
        · have same : core (lines ++ [line]) = core lines := by simp [core, blank]
          rw [same, earlier]
          have ending : ∀ c ∈ '\n' :: line, isBlank c = true :=
            List.forall_mem_cons.mpr ⟨by decide, trimChars_eq_nil_iff.mp blank⟩
          exact (gist_append_blank (joinLines lines) ending).symm
        · have more : core (lines ++ [line]) = core lines ++ [trimChars line] := by
            simp [core, blank]
          have hclosed := closed lines line [] rfl blank
          rw [more, gist_newline hclosed, ← earlier]
          show _ = ((gist (joinLines (core lines))).1 ++ (gist line).1, (gist line).2)
          rw [← gist_trimChars line]
          by_cases first : core lines = []
          · rw [first]
            rfl
          · rw [joinLines_append first (List.cons_ne_nil _ [])]
            exact gist_newline (by rw [earlier]; exact hclosed) _

end Text

/-! ## Reading -/

namespace Parser

variable {depth : Nat} {u v rest : List Token}

theorem root_of_sameLexemes (same : SameLexemes u v) {tree : Node}
    (h : root depth u = .ok (tree, rest)) :
    ∃ tree', root depth v = .ok (tree', []) ∧ SameShape tree tree' := by
  unfold root at h ⊢
  cases hs : statements depth u with
  | error failure =>
      rw [hs] at h
      cases h
  | ok result =>
      obtain ⟨nodes, after⟩ := result
      rw [hs] at h
      cases after with
      | cons t after => cases h
      | nil =>
          cases h
          have hlocal := (local_statements depth).localAt u
          rw [← List.append_nil u] at hs
          obtain ⟨nodes', shapes, hs'⟩ := hlocal.success hs same (.inl (Eq.refl (nextLexeme? [])))
          rw [List.append_nil] at hs'
          exact ⟨_, by rw [hs'], .root (sameShapes_of_forall₂ shapes)⟩

theorem root_cuts {kind : SyntaxError.Kind} (h : root depth u = .error (.rejected kind rest)) :
    ∃ front, u = front ++ rest := by
  have cuts := (local_statements depth).cuts
  unfold root at h
  cases hs : statements depth u with
  | error failure =>
      rw [hs] at h
      cases h
      exact cuts.of_rejected hs
  | ok result =>
      obtain ⟨nodes, after⟩ := result
      rw [hs] at h
      cases after with
      | nil => cases h
      | cons t after =>
          cases h
          exact cuts.of_ok hs

theorem root_rejects_sameLexemes (same : SameLexemes u v) {kind : SyntaxError.Kind}
    (h : root depth u = .error (.rejected kind rest)) :
    ∃ rest', SameLexemes rest rest' ∧ root depth v = .error (.rejected kind rest') := by
  obtain ⟨front, rfl⟩ := root_cuts h
  obtain ⟨front', rest', rfl, hfront, hrest⟩ := same.of_append
  have hnext : nextLexeme? (rest ++ []) = nextLexeme? (rest' ++ []) := hrest.next_append rfl
  rw [List.append_nil, List.append_nil] at hnext
  exact ⟨rest', hrest, root_rejects h hfront hnext⟩

theorem root_tooDeep_sameLexemes (same : SameLexemes u v)
    (h : root depth u = .error (.tooDeep rest)) :
    ∃ rest', root depth v = .error (.tooDeep rest') := by
  cases hv : root depth v with
  | ok result =>
      obtain ⟨tree, after⟩ := result
      obtain ⟨tree', hu, -⟩ := root_of_sameLexemes (Eq.symm same) hv
      rw [h] at hu
      cases hu
  | error failure =>
      cases failure with
      | tooDeep rest' => exact ⟨rest', rfl⟩
      | rejected kind rest' =>
          obtain ⟨_, -, hu⟩ := root_rejects_sameLexemes (Eq.symm same) hv
          rw [h] at hu
          cases hu

end Parser

namespace Parsed

/-- Trees that differ in their positions at most, or errors of the same kind. -/
structure Alike (a b : Parsed) : Prop where
  tree : SameShape a.tree b.tree
  error : a.error.map (·.kind) = b.error.map (·.kind)

theorem alike_of_gist {a b : List UInt8} (same : Scan.gist a = Scan.gist b) (depth : Nat) :
    (ofBytes depth a).Alike (ofBytes depth b) := by
  have lexemes : Parser.SameLexemes (Scan.ofBytes a).tokens (Scan.ofBytes b).tokens :=
    congrArg Prod.fst same
  have closed : (Scan.ofBytes a).ending.isClosed = (Scan.ofBytes b).ending.isClosed :=
    congrArg Prod.snd same
  unfold ofBytes ofScan
  generalize Scan.ofBytes a = x at lexemes closed
  generalize Scan.ofBytes b = y at lexemes closed
  obtain ⟨tokens, skips, ending⟩ := x
  obtain ⟨tokens', skips', ending'⟩ := y
  cases hroot : Parser.root depth tokens with
  | ok result =>
      obtain ⟨tree, rest⟩ := result
      obtain ⟨tree', hroot', shape⟩ := Parser.root_of_sameLexemes lexemes hroot
      simp only [hroot']
      cases ending <;> cases ending' <;> cases closed
      · exact ⟨shape, rfl⟩
      · exact ⟨rfl, rfl⟩
  | error failure =>
      cases failure with
      | rejected kind rest =>
          obtain ⟨rest', hrest, hroot'⟩ := Parser.root_rejects_sameLexemes lexemes hroot
          simp only [hroot']
          refine ⟨rfl, ?_⟩
          cases rest with
          | nil =>
              obtain rfl : rest' = [] := List.map_eq_nil_iff.mp hrest.symm
              cases ending <;> cases ending' <;> cases closed <;> rfl
          | cons t rest =>
              obtain ⟨p, w, rfl, -⟩ := hrest.of_cons
              rfl
      | tooDeep rest =>
          obtain ⟨rest', hroot'⟩ := Parser.root_tooDeep_sameLexemes lexemes hroot
          simp only [hroot']
          refine ⟨rfl, ?_⟩
          cases rest <;> cases rest' <;> cases ending <;> cases ending' <;> rfl

end Parsed

/-! ## Showing -/

namespace Node

theorem children_bare (n : Node) : n.bare.children = n.children.map bare := by
  rw [bare, rebuild_eq]
  exact children_mapParts n

theorem attributes_bare (n : Node) : n.bare.attributes = n.attributes := by
  cases n with
  | root xs | block xs | call _ xs => cases xs <;> rfl
  | _ => rfl

theorem label_bare (n : Node) : n.bare.label = n.label := by
  cases n <;> rfl

/-- The text of a tree says nothing about positions. -/
theorem displayFrom_bare (limit level : Nat) (n : Node) :
    displayFrom limit level n.bare = displayFrom limit level n := by
  induction limit generalizing level n with
  | zero => rfl
  | succ limit ih =>
      simp only [displayFrom, attributes_bare, label_bare, children_bare, List.map_map,
        Function.comp_def, ih]

theorem display_of_sameShape {n n' : Node} (same : SameShape n n') (limit : Nat) :
    n.display limit = n'.display limit := by
  unfold display
  rw [← displayFrom_bare, ← displayFrom_bare limit 0 n', show n.bare = n'.bare from same]

end Node

end Scriptlet

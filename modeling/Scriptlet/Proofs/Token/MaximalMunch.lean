import Scriptlet.Proofs.Token.Buffering
import Scriptlet.Proofs.Token.SourceText

/-!
# Maximal munch

The grammar of tokens says which bytes spell which lexeme, and nothing about what stands behind
them. A source is cut by maximal munch if every piece is a blank, the longest token at its place, or
a byte that no token begins with. There is one such cut of each source, and pulling the tokens of a
stream one by one gives just its tokens, at their lines and columns.
-/

namespace Scriptlet

/-! ## The grammar of tokens -/

def whitespace : List UInt8 := [32, 9, 13, 10]

def reservedWords : List String :=
  ["true", "false", "nil", "and", "or", "if", "else", "while", "fn", "ret", "nonlocal"]

/-- The bytes spell the lexeme. -/
inductive Spelled : Lexeme → List UInt8 → Prop where
  | whole {digits : List UInt8} (nonempty : digits ≠ []) (digit : ∀ b ∈ digits, Byte.isDigit b) :
      Spelled (.number (Decimal.toFloat ⟨Byte.digitsValue 0 digits, 0⟩)) digits
  | decimal {digits decimals : List UInt8} (nonempty : digits ≠ [])
      (digit : ∀ b ∈ digits, Byte.isDigit b) (nonempty' : decimals ≠ [])
      (digit' : ∀ b ∈ decimals, Byte.isDigit b) :
      Spelled
        (.number (Decimal.toFloat
          ⟨Byte.digitsValue (Byte.digitsValue 0 digits) decimals, decimals.length⟩))
        (digits ++ Byte.dot :: decimals)
  | identifier {first : UInt8} {rest : List UInt8} (start : Byte.isWordStart first)
      (word : ∀ b ∈ rest, Byte.isWord b)
      (unreserved : Byte.asciiText (first :: rest) ∉ reservedWords) :
      Spelled (.identifier (Byte.asciiText (first :: rest))) (first :: rest)
  | string {contents : List UInt8} (unquoted : Byte.quote ∉ contents) :
      Spelled (.string (Utf8.decodeLossy contents)) (Byte.quote :: contents ++ [Byte.quote])
  | boolean (b : Bool) : Spelled (.boolean b) (Utf8.encode (if b then "true" else "false"))
  | symbol (s : Symbol) : Spelled (.symbol s) (Utf8.encode s.text)

/-- The bytes spell the lexeme, and no longer token begins at the same place. -/
structure LongestBefore (l : Lexeme) (spelling after : List UInt8) : Prop where
  spelled : Spelled l spelling
  longest : ∀ {l' : Lexeme} {longer : List UInt8}, Spelled l' longer →
    longer <+: spelling ++ after → longer.length ≤ spelling.length

/-! ## Words and symbols -/

theorem word_ascii : ∀ b, Byte.isWord b = true → b.toNat < 0x80 :=
  forall_byte (by decide +kernel)

theorem toNat_ascii : ∀ b : UInt8, b.toNat < 0x80 → (Char.ofNat b.toNat).toNat = b.toNat :=
  forall_byte (by decide +kernel)

theorem encode_asciiText {bytes : List UInt8} (h : ∀ b ∈ bytes, b.toNat < 0x80) :
    Utf8.encode (Byte.asciiText bytes) = bytes := by
  rw [Byte.asciiText, Utf8.encode_ascii]
  · rw [List.map_map]
    apply (List.map_congr_left fun b hb => ?_).trans (List.map_id _)
    simp [toNat_ascii b (h b hb)]
  · intro c hc
    obtain ⟨b, hb, rfl⟩ := List.mem_map.mp hc
    rw [toNat_ascii b (h b hb)]
    exact h b hb

theorem keyword?_eq_none {text : String} (h : text ∉ reservedWords) :
    Munch.keyword? text = none := by
  simp only [reservedWords, List.mem_cons, List.not_mem_nil, or_false, not_or] at h
  simp [Munch.keyword?, h]

theorem unreserved_of_keyword? {text : String} (h : Munch.keyword? text = none) :
    text ∉ reservedWords := by
  have hknown : (reservedWords.all fun word => (Munch.keyword? word).isSome) = true := by
    decide +kernel
  intro hmem
  have hsome := List.all_eq_true.mp hknown text hmem
  rw [h] at hsome
  cases hsome

/-- A keyword is a boolean or a symbol with that text. -/
theorem spelled_of_keyword {text : String} {l : Lexeme} (h : Munch.keyword? text = some l) :
    Spelled l (Utf8.encode text) := by
  have hmem : text ∈ reservedWords := by
    by_cases hmem : text ∈ reservedWords
    · exact hmem
    · rw [keyword?_eq_none hmem] at h
      cases h
  simp only [reservedWords, List.mem_cons, List.not_mem_nil, or_false] at hmem
  rcases hmem with rfl | rfl | rfl | rfl | rfl | rfl | rfl | rfl | rfl | rfl | rfl <;>
    simp [Munch.keyword?] at h <;> subst h
  · exact .boolean true
  · exact .boolean false
  all_goals exact .symbol _

theorem encode_extensible : ∀ b, ∀ pair ∈ Byte.extensible? b,
    Utf8.encode pair.1.text = [b] ∧ Utf8.encode pair.2.text = [b, Byte.equalSign] :=
  forall_byte (by decide +kernel)

theorem encode_single : ∀ b, ∀ symbol ∈ Byte.single? b, Utf8.encode symbol.text = [b] :=
  forall_byte (by decide +kernel)

/-- What the scan takes for a token is one. -/
theorem SpelledBefore.spelled {l : Lexeme} {spelling after : List UInt8}
    (h : SpelledBefore l spelling after) : Spelled l spelling := by
  cases h with
  | whole nonempty digit noDigit noFraction => exact .whole nonempty digit
  | decimal nonempty digit nonempty' digit' noDigit =>
      exact .decimal nonempty digit nonempty' digit'
  | @word first rest _ start word noWord =>
      have hword : ∀ b ∈ first :: rest, Byte.isWord b :=
        List.forall_mem_cons.mpr ⟨by simp [Byte.isWord, start], word⟩
      cases hkeyword : Munch.keyword? (Byte.asciiText (first :: rest)) with
      | none => exact .identifier start word (unreserved_of_keyword? hkeyword)
      | some l =>
          have hspelled := spelled_of_keyword hkeyword
          rwa [encode_asciiText fun b hb => word_ascii b (hword b hb)] at hspelled
  | string unquoted => exact .string unquoted
  | @short b short long _ known noEqual =>
      rw [← (encode_extensible b _ known).1]
      exact .symbol short
  | @long b short long known =>
      rw [← (encode_extensible b _ known).2]
      exact .symbol long
  | @single b symbol known =>
      rw [← encode_single b symbol known]
      exact .symbol symbol

theorem Spelled.before_nil {l : Lexeme} {spelling : List UInt8} (h : Spelled l spelling) :
    SpelledBefore l spelling [] := by
  have hnext : ∀ p, NextIsNot p [] := fun _ _ hb => nomatch hb
  have hfraction : NoFraction [] := fun _ _ heq => nomatch heq
  cases h with
  | whole nonempty digit => exact .whole nonempty digit (hnext _) hfraction
  | decimal nonempty digit nonempty' digit' =>
      exact .decimal nonempty digit nonempty' digit' (hnext _)
  | identifier start word unreserved =>
      have hspelled := SpelledBefore.word start word (hnext _)
      rwa [keyword?_eq_none unreserved] at hspelled
  | string unquoted => exact .string unquoted []
  | boolean b =>
      exact Lexeme.spelledBefore (l := .boolean b) trivial fenced_nil
  | symbol s => exact s.spelledBefore fenced_nil

theorem Spelled.unique {l l' : Lexeme} {spelling : List UInt8} (h : Spelled l spelling)
    (h' : Spelled l' spelling) : l = l' := by
  obtain ⟨first, rest, rfl, hlongest⟩ := h.before_nil.longest
  obtain ⟨first', rest', heq, hlongest'⟩ := h'.before_nil.longest
  cases heq
  rw [hlongest] at hlongest'
  cases hlongest'
  rfl

theorem mem_whitespace_iff {b : UInt8} : b ∈ whitespace ↔ Byte.isBlank b = true := by
  simp [whitespace, Byte.isBlank, or_assoc]

theorem not_mem_whitespace_iff {b : UInt8} : b ∉ whitespace ↔ Byte.isBlank b = false := by
  rw [mem_whitespace_iff, Bool.not_eq_true]

theorem Spelled.exists_cons {l : Lexeme} {spelling : List UInt8} (h : Spelled l spelling) :
    ∃ first rest, spelling = first :: rest ∧ first ∉ whitespace := by
  obtain ⟨first, rest, rfl⟩ := List.exists_cons_of_ne_nil h.before_nil.ne_nil
  exact ⟨first, rest, rfl, not_mem_whitespace_iff.mpr h.before_nil.not_blank⟩

/-! ## The longest token -/

theorem Munch.length_digits_le {bytes spelling : List UInt8} {l : Lexeme}
    (h : number bytes = .token l spelling) :
    (bytes.takeWhile Byte.isDigit).length ≤ spelling.length := by
  simp only [number, Munch.token.injEq] at h
  rw [← h.2]
  split <;> simp

/-- No token at a place is longer than the one that the scan takes there. -/
theorem Spelled.length_le {l l' : Lexeme} {longer more spelling tail : List UInt8} {first : UInt8}
    (h : Spelled l' longer) (heq : longer ++ more = first :: tail)
    (hlongest : Munch.longest first tail = .token l spelling) :
    longer.length ≤ spelling.length := by
  have of_before : SpelledBefore l' longer more → longer.length ≤ spelling.length := by
    intro hbefore
    obtain ⟨first', rest, rfl, hlongest'⟩ := hbefore.longest
    obtain ⟨rfl, rfl⟩ := List.cons_eq_cons.mp (List.cons_append.symm.trans heq)
    rw [hlongest] at hlongest'
    cases hlongest'
    exact Nat.le_refl _
  cases h.before_nil with
  | whole nonempty digit =>
      obtain ⟨b, digits, rfl⟩ := List.exists_cons_of_ne_nil nonempty
      obtain ⟨rfl, rfl⟩ := List.cons_eq_cons.mp (List.cons_append.symm.trans heq)
      rw [Munch.longest, if_pos (digit b List.mem_cons_self)] at hlongest
      have hlength := Munch.length_digits_le hlongest
      rw [← List.cons_append, List.takeWhile_append_of_pos digit, List.length_append] at hlength
      omega
  | @decimal digits decimals _ nonempty digit nonempty' digit' =>
      -- More digits may follow; together with them the scan takes the number.
      obtain ⟨digits', after, rfl, digit'', noDigit⟩ := exists_run Byte.isDigit more
      have hbefore : SpelledBefore _ (digits ++ Byte.dot :: (decimals ++ digits')) after :=
        .decimal nonempty digit (by simp [nonempty'])
          (List.forall_mem_append.mpr ⟨digit', digit''⟩) noDigit
      obtain ⟨first', rest, heq', hlongest'⟩ := hbefore.longest
      have hbytes : first' :: (rest ++ after) = first :: tail := by
        rw [← List.cons_append, ← heq', ← heq]
        simp
      obtain ⟨rfl, rfl⟩ := List.cons_eq_cons.mp hbytes
      rw [hlongest] at hlongest'
      cases hlongest'
      simp
  | @word b rest _ start word =>
      have hword : ∀ b' ∈ b :: rest, Byte.isWord b' :=
        List.forall_mem_cons.mpr ⟨by simp [Byte.isWord, start], word⟩
      obtain ⟨rfl, rfl⟩ := List.cons_eq_cons.mp (List.cons_append.symm.trans heq)
      rw [Munch.longest, if_neg (by simp [wordStart_not_digit b start]), if_pos start,
        Munch.word] at hlongest
      cases hlongest
      rw [← List.cons_append, List.takeWhile_append_of_pos hword, List.length_append]
      omega
  | string unquoted => exact of_before (.string unquoted more)
  | @short b short long _ known =>
      obtain ⟨hdigit, hword, hquote⟩ := extensible_not_word b (by simp [known])
      obtain ⟨rfl, rfl⟩ := List.cons_eq_cons.mp (List.cons_append.symm.trans heq)
      simp only [Munch.longest, hdigit, hword, hquote, known, Munch.extensible] at hlongest
      by_cases hnext : more.head? = some Byte.equalSign
      · simp [hnext] at hlongest
        simp [← hlongest.2]
      · simp [hnext] at hlongest
        simp [← hlongest.2]
  | long known => exact of_before (.long known more)
  | single known => exact of_before (.single known more)

/-- A string that nothing closes is no token. -/
theorem Spelled.quote_mem {l : Lexeme} {rest : List UInt8} (h : Spelled l (Byte.quote :: rest)) :
    Byte.quote ∈ rest := by
  obtain ⟨first, rest', heq, hlongest⟩ := h.before_nil.longest
  cases heq
  rw [List.append_nil, Munch.longest, if_neg (by decide), if_neg (by decide), if_pos rfl,
    Munch.string] at hlongest
  split at hlongest
  · cases hlongest
  · have hspelling := (Munch.token.inj hlongest).2
    rw [← (List.cons_eq_cons.mp hspelling).2]
    simp

theorem Spelled.not_beginsNone {l : Lexeme} {b : UInt8} {rest : List UInt8}
    (h : Spelled l (b :: rest)) : ¬ BeginsNone b := by
  intro none
  obtain ⟨first, rest', heq, hlongest⟩ := h.before_nil.longest
  cases heq
  simp [Munch.longest, none.notDigit, none.notWord, none.notQuote, none.notExtensible,
    none.notSingle] at hlongest

theorem LongestBefore.unique {l l' : Lexeme} {spelling spelling' after after' : List UInt8}
    (longest : LongestBefore l spelling after) (longest' : LongestBefore l' spelling' after')
    (h : spelling ++ after = spelling' ++ after') : l = l' ∧ spelling = spelling' := by
  have hle := longest.longest longest'.spelled ⟨after', h.symm⟩
  have hge := longest'.longest longest.spelled ⟨after, h⟩
  obtain ⟨rfl, -⟩ := List.append_inj h (Nat.le_antisymm hge hle)
  exact ⟨longest.spelled.unique longest'.spelled, rfl⟩

/-- The scan takes the longest token there is, and only that. -/
theorem longestBefore_iff {l : Lexeme} {spelling after : List UInt8} :
    LongestBefore l spelling after ↔ SpelledBefore l spelling after := by
  constructor
  · intro h
    obtain ⟨first, rest, rfl, hblank⟩ := h.spelled.exists_cons
    cases standing first (rest ++ after) (not_mem_whitespace_iff.mp hblank) with
    | @token l' rest' after' tail_eq spelled =>
        obtain ⟨first', rest'', heq, hlongest⟩ := spelled.longest
        cases heq
        rw [← tail_eq] at hlongest
        have hle : rest.length ≤ rest'.length := by
          simpa using h.spelled.length_le List.cons_append hlongest
        have hprefix : first :: rest' <+: first :: rest ++ after := ⟨after', by simp [tail_eq]⟩
        have hge : rest'.length ≤ rest.length := by simpa using h.longest spelled.spelled hprefix
        obtain ⟨rfl, rfl⟩ := List.append_inj tail_eq (Nat.le_antisymm hle hge)
        rw [h.spelled.unique spelled.spelled]
        exact spelled
    | unclosed quote unquoted =>
        subst quote
        exact absurd (List.mem_append_left after h.spelled.quote_mem) unquoted
    | unknown none => exact absurd none h.spelled.not_beginsNone
  · intro h
    refine ⟨h.spelled, fun {l' longer} hspelled hprefix => ?_⟩
    obtain ⟨first, rest, rfl, hlongest⟩ := h.longest
    obtain ⟨more, hmore⟩ := hprefix
    exact hspelled.length_le hmore hlongest

/-- A byte that is not blank begins no token if and only if the scan knows nothing to do with it. -/
theorem beginsNone_iff {b : UInt8} :
    BeginsNone b ↔ b ∉ whitespace ∧ ∀ l rest, ¬ Spelled l (b :: rest) := by
  rw [not_mem_whitespace_iff]
  constructor
  · intro none
    exact ⟨none.notBlank, fun l rest hspelled => hspelled.not_beginsNone none⟩
  · rintro ⟨hblank, hnone⟩
    cases standing b [] hblank with
    | token _ spelled => exact absurd spelled.spelled (hnone _ _)
    | unclosed quote _ =>
        subst quote
        exact absurd (Spelled.string List.not_mem_nil) (hnone _ _)
    | unknown none => exact none

/-! ## Lines and columns -/

/-- The place of the byte behind `before`: its line is one more than the line feeds there, and its
column one more than the bytes behind the last of them. -/
def Position.behind (before : List UInt8) : Position :=
  ⟨1 + before.count 10, 1 + (before.reverse.takeWhile (· != 10)).length⟩

theorem Position.start_past (before : List UInt8) : start.past before = behind before := by
  rw [← List.reverse_reverse before]
  induction before.reverse with
  | nil => rfl
  | cons b before ih =>
      rw [List.reverse_cons, past_append, ih]
      by_cases hb : b = 10
      · simp [behind, advance, hb]
        omega
      · simp [behind, advance, hb]
        omega

/-! ## Pieces of a source -/

inductive Piece where
  | blank (b : UInt8)
  | skipped (b : UInt8)
  | token (lexeme : Lexeme) (spelling : List UInt8)

namespace Piece

def bytes : Piece → List UInt8
  | .blank b => [b]
  | .skipped b => [b]
  | .token _ spelling => spelling

/-- The piece is the right one before the bytes `after`. -/
inductive Fits : Piece → (after : List UInt8) → Prop where
  | blank {b : UInt8} (isBlank : b ∈ whitespace) (after : List UInt8) : Fits (.blank b) after
  | skipped {b : UInt8} (notBlank : b ∉ whitespace)
      (beginsNone : ∀ l rest, ¬ Spelled l (b :: rest)) (after : List UInt8) :
      Fits (.skipped b) after
  | token {l : Lexeme} {spelling after : List UInt8} (longest : LongestBefore l spelling after) :
      Fits (.token l spelling) after

/-- The first byte of a piece tells which kind it is of. -/
theorem Fits.first {p : Piece} {after : List UInt8} (h : p.Fits after) :
    ∃ b rest, p.bytes = b :: rest ∧ (b ∈ whitespace → p = .blank b) ∧
      (b ∉ whitespace → (∀ l rest, ¬ Spelled l (b :: rest)) → p = .skipped b) ∧
      (b ∉ whitespace → ∀ l rest, Spelled l (b :: rest) →
        ∃ l' spelling, p = .token l' spelling ∧ LongestBefore l' spelling after) := by
  cases h with
  | @blank b isBlank =>
      exact ⟨b, [], rfl, fun _ => rfl, by simp [isBlank], by simp [isBlank]⟩
  | @skipped b notBlank beginsNone =>
      refine ⟨b, [], rfl, by simp [notBlank], fun _ _ => rfl, ?_⟩
      intro _ l rest spelled
      exact absurd spelled (beginsNone l rest)
  | @token l spelling after longest =>
      obtain ⟨b, rest, rfl, notBlank⟩ := longest.spelled.exists_cons
      refine ⟨b, rest, rfl, by simp [notBlank], ?_, fun _ _ _ _ => ⟨l, b :: rest, rfl, longest⟩⟩
      intro _ beginsNone
      exact absurd longest.spelled (beginsNone l rest)

theorem Fits.unique {p q : Piece} {after after' : List UInt8} (hp : p.Fits after)
    (hq : q.Fits after') (h : p.bytes ++ after = q.bytes ++ after') : p = q := by
  obtain ⟨b, rest, hb, blank, skipped, token⟩ := hp.first
  obtain ⟨b', rest', hb', blank', skipped', token'⟩ := hq.first
  have same : b = b' := by
    have heads := h
    rw [hb, hb'] at heads
    exact (List.cons_eq_cons.mp heads).1
  subst same
  by_cases isBlank : b ∈ whitespace
  · rw [blank isBlank, blank' isBlank]
  · by_cases begins : ∀ l rest, ¬ Spelled l (b :: rest)
    · rw [skipped isBlank begins, skipped' isBlank begins]
    · simp only [Classical.not_forall, Classical.not_not] at begins
      obtain ⟨l, rest, spelled⟩ := begins
      obtain ⟨l₁, spelling₁, rfl, longest₁⟩ := token isBlank l rest spelled
      obtain ⟨l₂, spelling₂, rfl, longest₂⟩ := token' isBlank l rest spelled
      obtain ⟨rfl, rfl⟩ := longest₁.unique longest₂ h
      rfl

def allBytes (pieces : List Piece) : List UInt8 := pieces.flatMap bytes

/-- The pieces with their places, behind the bytes `before`. -/
def placed (before : List UInt8) : List Piece → List (Position × Piece)
  | [] => []
  | piece :: pieces => (.behind before, piece) :: placed (before ++ piece.bytes) pieces

def token? : Position × Piece → Option Token
  | (p, .token l _) => some ⟨l, p⟩
  | _ => none

def skip? : Position × Piece → Option Skip
  | (p, .skipped b) => some ⟨p, b⟩
  | _ => none

inductive AllFit : List Piece → (after : List UInt8) → Prop where
  | nil (after : List UInt8) : AllFit [] after
  | cons {piece : Piece} {pieces : List Piece} {after : List UInt8}
      (fits : piece.Fits (allBytes pieces ++ after)) (more : AllFit pieces after) :
      AllFit (piece :: pieces) after

end Piece

open Piece (allBytes placed token? skip? AllFit)

/-- Nothing is left, or a quote that opens a string without an end. -/
def NoMoreTokens (after : List UInt8) : Prop :=
  after = [] ∨ ∃ contents, after = Byte.quote :: contents ∧ Byte.quote ∉ contents

/-- The source is cut into the pieces by maximal munch, up to where no token can be had any more. -/
structure MaximalMunch (source : List UInt8) (pieces : List Piece) (after : List UInt8) : Prop where
  covers : source = allBytes pieces ++ after
  fit : AllFit pieces after
  ends : NoMoreTokens after

theorem Ends.noMoreTokens {ending : Ending} {p : Position} {after : List UInt8}
    (h : Ends ending p after) : NoMoreTokens after := by
  cases h with
  | finished => exact .inl rfl
  | unclosed _ unquoted => exact .inr ⟨_, rfl, unquoted⟩

theorem Ends.quote?_eq {ending : Ending} {p : Position} {after : List UInt8}
    (h : Ends ending p after) : ending.quote? = if after = [] then none else some p := by
  cases h with
  | finished => rfl
  | unclosed => rfl

theorem Piece.Fits.not_noMoreTokens {piece : Piece} {after : List UInt8} (h : piece.Fits after) :
    ¬ NoMoreTokens (piece.bytes ++ after) := by
  rintro (hnil | ⟨contents, hquote, unquoted⟩)
  · obtain ⟨b, rest, hbytes, -⟩ := h.first
    rw [hbytes] at hnil
    cases hnil
  cases h with
  | blank isBlank =>
      rw [(List.cons_eq_cons.mp hquote).1] at isBlank
      exact absurd isBlank (by decide)
  | skipped notBlank beginsNone =>
      rw [(List.cons_eq_cons.mp hquote).1] at beginsNone
      exact beginsNone _ _ (.string List.not_mem_nil)
  | token longest =>
      obtain ⟨first, rest, rfl, -⟩ := longest.spelled.exists_cons
      obtain ⟨rfl, rfl⟩ := List.cons_eq_cons.mp (List.cons_append.symm.trans hquote)
      exact unquoted (List.mem_append_left after longest.spelled.quote_mem)

theorem Piece.AllFit.unique {pieces pieces' : List Piece} {after after' : List UInt8}
    (h : AllFit pieces after) (h' : AllFit pieces' after') (ends : NoMoreTokens after)
    (ends' : NoMoreTokens after') (heq : allBytes pieces ++ after = allBytes pieces' ++ after') :
    pieces = pieces' ∧ after = after' := by
  induction h generalizing pieces' with
  | nil after =>
      cases h' with
      | nil => exact ⟨rfl, heq⟩
      | @cons piece _ _ fits _ =>
          rw [allBytes, allBytes, List.flatMap_nil, List.nil_append, List.flatMap_cons,
            List.append_assoc] at heq
          exact absurd (heq ▸ ends) fits.not_noMoreTokens
  | @cons piece pieces after fits more ih =>
      cases h' with
      | nil =>
          rw [allBytes, allBytes, List.flatMap_nil, List.nil_append, List.flatMap_cons,
            List.append_assoc] at heq
          exact absurd (heq ▸ ends') fits.not_noMoreTokens
      | @cons piece' pieces' _ fits' more' =>
          rw [allBytes, allBytes, List.flatMap_cons, List.flatMap_cons, List.append_assoc,
            List.append_assoc] at heq
          obtain rfl := fits.unique fits' heq
          obtain ⟨rfl, rfl⟩ := ih more' ends (List.append_cancel_left heq)
          exact ⟨rfl, rfl⟩

/-- A row of tokens is a row of pieces that fit. -/
theorem Laid.exists_pieces {p : Position} {bytes after : List UInt8} {tokens : List Token}
    {skips : List Skip} (h : Laid p bytes tokens skips after) (before : List UInt8)
    (hp : p = .behind before) :
    ∃ pieces, allBytes pieces = bytes ∧ AllFit pieces after ∧
      (placed before pieces).filterMap token? = tokens ∧
      (placed before pieces).filterMap skip? = skips := by
  have hmove : ∀ before bytes, (Position.behind before).past bytes = .behind (before ++ bytes) := by
    intro before bytes
    rw [← Position.start_past, ← Position.start_past, Position.past_append]
  induction h generalizing before with
  | done p after => exact ⟨[], rfl, .nil after, rfl, rfl⟩
  | @blank p b bytes after tokens skips isBlank _ ih =>
      obtain ⟨pieces, rfl, hfit, htokens, hskips⟩ := ih _ (hp ▸ hmove before [b])
      exact ⟨.blank b :: pieces, rfl, .cons (.blank (mem_whitespace_iff.mpr isBlank) _) hfit,
        htokens, hskips⟩
  | @unknown p b bytes after tokens skips none _ ih =>
      obtain ⟨pieces, rfl, hfit, htokens, hskips⟩ := ih _ (hp ▸ hmove before [b])
      obtain ⟨notBlank, beginsNone⟩ := beginsNone_iff.mp none
      refine ⟨.skipped b :: pieces, rfl, .cons (.skipped notBlank beginsNone _) hfit, htokens, ?_⟩
      rw [hp, ← hskips]
      rfl
  | @token p l spelling bytes after tokens skips spelled _ ih =>
      obtain ⟨pieces, rfl, hfit, htokens, hskips⟩ := ih _ (hp ▸ hmove before spelling)
      refine ⟨.token l spelling :: pieces, rfl,
        .cons (.token (longestBefore_iff.mpr spelled)) hfit, ?_, hskips⟩
      rw [hp, ← htokens]
      rfl

/-- Pulling all tokens of a source cuts it by maximal munch, in the only way there is: the tokens
are its token pieces, the warnings its skipped bytes, each at its line and column, and the fault
that an unclosed string brings about stands at the quote that opens it. -/
theorem pulled_tokens_are_maximal_munch (source : List UInt8) (lookahead : Nat)
    (positive : 1 ≤ lookahead) :
    ∃ s pieces after, Stream.ofBytes? source lookahead = .ok s ∧
      MaximalMunch source pieces after ∧
      (∀ pieces' after', MaximalMunch source pieces' after' → pieces' = pieces ∧ after' = after) ∧
      s.drain.1.1 = (placed [] pieces).filterMap token? ∧
      s.drain.2.skips = (placed [] pieces).filterMap skip? ∧
      s.drain.1.2 =
        if after = [] then none else some (.unclosed (.behind (allBytes pieces))) := by
  let s : Stream := ⟨.ofBytes source, lookahead, [], []⟩
  have hmade : Stream.ofBytes? source lookahead = .ok s := by
    simp [Stream.ofBytes?, s, Nat.ne_of_gt positive]
  have hdrained := s.drain_drained
  obtain ⟨row, after, hsource, hlaid, hends⟩ := Scan.exists_laid source
  obtain ⟨pieces, rfl, hfit, htokens, hskips⟩ := hlaid.exists_pieces [] rfl
  have hnone := hends.noMoreTokens
  refine ⟨s, pieces, after, hmade, ⟨hsource, hfit, hnone⟩, ?_, ?_, ?_, ?_⟩
  · intro pieces' after' munch
    exact munch.fit.unique hfit munch.ends hnone (munch.covers.symm.trans hsource)
  · exact hdrained.tokens.trans htokens.symm
  · exact hdrained.skips.trans hskips.symm
  · have hfault : s.drain.1.2 = (Scan.ofBytes source).ending.quote?.map .unclosed := hdrained.fault
    rw [hfault, hends.quote?_eq, Position.start_past]
    split <;> rfl

/-- The source `1..2`, then on a second line `iffy!==` and an open quote. -/
theorem pulled_tokens_are_maximal_munch_around_dots :
    let source : List UInt8 := [49, 46, 46, 50, 10, 105, 102, 102, 121, 33, 61, 61, 32, 34]
    1 ≤ 1 ∧ ∃ s pieces after, Stream.ofBytes? source 1 = .ok s ∧
      MaximalMunch source pieces after ∧
      (placed [] pieces).filterMap token? =
        [⟨.number (Decimal.toFloat ⟨1, 0⟩), ⟨1, 1⟩⟩, ⟨.number (Decimal.toFloat ⟨2, 0⟩), ⟨1, 4⟩⟩,
          ⟨.identifier "iffy", ⟨2, 1⟩⟩, ⟨.symbol .bangEqual, ⟨2, 5⟩⟩, ⟨.symbol .equal, ⟨2, 7⟩⟩] ∧
      (placed [] pieces).filterMap skip? = [⟨⟨1, 2⟩, 46⟩, ⟨⟨1, 3⟩, 46⟩] ∧
      s.drain.1.2 = some (.unclosed ⟨2, 9⟩) := by
  intro source
  obtain ⟨s, pieces, after, hmade, munch, -, htokens, hskips, -⟩ :=
    pulled_tokens_are_maximal_munch source 1 (by decide)
  obtain rfl : s = ⟨.ofBytes source, 1, [], []⟩ := by
    cases hmade
    rfl
  refine ⟨by decide, _, pieces, after, hmade, munch, ?_, ?_, by decide +kernel⟩
  · rw [← htokens]
    decide +kernel
  · rw [← hskips]
    decide +kernel

end Scriptlet

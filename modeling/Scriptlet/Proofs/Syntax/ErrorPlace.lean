import Scriptlet.Proofs.Syntax.Locality
import Scriptlet.Proofs.Syntax.Viability
import Scriptlet.Proofs.Token.Layout

/-!
# Where a syntax error stands

An error is reported as early as can be. The tokens before it begin a source that is read without
an error. If it names a token, no such source goes on with that token. If it does not, the source
is only a beginning, and the error stands just behind its last byte, or at the quote that opens a
string without an end.
-/

open Scriptlet.Parser

namespace Scriptlet

/-! ## Completing a source -/

theorem Derives.of_sameLexemes {rule : Rule} {w v : List Token} (h : Derives rule w)
    (hv : SameLexemes w v) : Derives rule v := by
  induction h generalizing v with
  | token t =>
      obtain ⟨p, rest, rfl, hrest⟩ := hv.of_cons
      obtain rfl : rest = [] := List.map_eq_nil_iff.mp hrest.symm
      exact .token ⟨t.lexeme, p⟩
  | phrase _ ih => exact .phrase (ih hv)
  | empty =>
      obtain rfl : v = [] := List.map_eq_nil_iff.mp hv.symm
      exact .empty
  | both _ _ ih ih' =>
      obtain ⟨w, x, rfl, hw, hx⟩ := hv.of_append
      exact .both (ih hw) (ih' hx)
  | left _ ih => exact .left (ih hv)
  | right _ ih => exact .right (ih hv)
  | stop =>
      obtain rfl : v = [] := List.map_eq_nil_iff.mp hv.symm
      exact .stop
  | more _ _ ih ih' =>
      obtain ⟨w, x, rfl, hw, hx⟩ := hv.of_append
      exact .more (ih hw) (ih' hx)

namespace Parser.Filler

def spelling : Filler → List UInt8
  | .symbol s => Utf8.encode s.text
  | .name => [120]

def bytes (fillers : List Filler) : List UInt8 := fillers.flatMap fun f => 32 :: f.spelling

theorem fenced_bytes (fillers : List Filler) : Fenced (bytes fillers) := by
  cases fillers with
  | nil => exact fenced_nil
  | cons f fillers => exact fenced_cons (by decide) _

theorem spelledBefore (f : Filler) {after : List UInt8} (fence : Fenced after) :
    SpelledBefore f.token.lexeme f.spelling after := by
  cases f with
  | symbol s => exact s.spelledBefore fence
  | name => exact spelledBefore_word [120] (by decide) (by decide) fence.parted.noWord

theorem exists_laid (fillers : List Filler) (p : Position) :
    ∃ tokens, SameLexemes (fillers.map token) tokens ∧ Laid p (bytes fillers) tokens [] [] := by
  induction fillers generalizing p with
  | nil => exact ⟨[], rfl, .done p []⟩
  | cons f fillers ih =>
      obtain ⟨tokens, hsame, hlaid⟩ := ih ((p.advance 32).past f.spelling)
      refine ⟨⟨f.token.lexeme, p.advance 32⟩ :: tokens, ?_, ?_⟩
      · exact congrArg (List.cons f.token.lexeme) hsame
      · refine .blank (by decide) (.token ?_ hlaid)
        rw [List.append_nil]
        exact f.spelledBefore (fenced_bytes fillers)

end Parser.Filler

namespace Parsed

/-- The source is read without an error if only the nesting limit is high enough. -/
def Accepted (bytes : List UInt8) : Prop :=
  ∃ limit, ∀ depth, limit ≤ depth → (ofBytes depth bytes).error = none

theorem accepted_of_derives {bytes : List UInt8} {p : Position}
    (hend : (Scan.ofBytes bytes).ending = .finished p)
    (hderives : Derives (.phrase .root) (Scan.ofBytes bytes).tokens) : Accepted bytes := by
  refine ⟨(Scan.ofBytes bytes).tokens.length, fun depth hdepth => ?_⟩
  have hreads := reaches_root hderives depth
  unfold Reaches at hreads
  unfold ofBytes ofScan
  cases hroot : root depth (Scan.ofBytes bytes).tokens with
  | ok result => rw [hend]
  | error failure =>
      rw [hroot] at hreads
      cases failure with
      | rejected kind rest => cases hreads
      | tooDeep rest => exact absurd hdepth (Nat.not_le.mpr hreads)

theorem derives_of_error_eq_none {depth : Nat} {bytes : List UInt8}
    (h : (ofBytes depth bytes).error = none) :
    Derives (.phrase .root) (Scan.ofBytes bytes).tokens := by
  unfold ofBytes ofScan at h
  cases hroot : root depth (Scan.ofBytes bytes).tokens with
  | error failure =>
      rw [hroot] at h
      cases h
  | ok result =>
      obtain ⟨-, nodes, -, hspells⟩ := root_eq_ok hroot
      exact hspells.derives

theorem not_derives_of_rejected {depth : Nat} {kind : SyntaxError.Kind} {tokens rest : List Token}
    (h : root depth tokens = .error (.rejected kind rest)) : ¬ Derives (.phrase .root) tokens := by
  intro hderives
  have hreads := reaches_root hderives depth
  unfold Reaches at hreads
  rw [h] at hreads
  exact hreads

/-- The source begins one that is accepted, and its tokens begin that one's tokens. -/
def Completable (bytes : List UInt8) : Prop :=
  ∃ more, Accepted (bytes ++ more) ∧
    (Scan.ofBytes bytes).tokens <+: (Scan.ofBytes (bytes ++ more)).tokens

/-- No accepted source has tokens of the same kinds and values at its beginning. -/
def NeverAccepted (tokens : List Token) : Prop :=
  ∀ depth bytes, (ofBytes depth bytes).error = none →
    ¬ tokens.map (·.lexeme) <+: (Scan.ofBytes bytes).tokens.map (·.lexeme)

section

variable {row after : List UInt8} {tokens : List Token} {skips : List Skip}

theorem tokens_of_laid (hrow : Laid .start row tokens skips after) :
    (Scan.ofBytes row).tokens = tokens := by
  rw [Scan.ofBytes_eq_of_laid (fenced_nil.parted.laid hrow)]

theorem completable_of_laid (hrow : Laid .start row tokens skips after)
    (h : Begins (Derives (.phrase .root)) tokens) : Completable row := by
  obtain ⟨fillers, hderives⟩ := h
  obtain ⟨others, hsame, hmore⟩ := Filler.exists_laid fillers (Position.start.past row)
  have hfence : Fenced (Filler.bytes fillers ++ []) := by
    rw [List.append_nil]
    exact Filler.fenced_bytes fillers
  have hscan := Scan.ofBytes_eq_of_laid ((hfence.parted.laid hrow).append hmore)
  refine ⟨Filler.bytes fillers, accepted_of_derives (congrArg Scan.ending hscan) ?_, ?_⟩
  · rw [hscan]
    refine hderives.of_sameLexemes ?_
    unfold SameLexemes at hsame ⊢
    rw [List.map_append, List.map_append, hsame]
  · rw [hscan, tokens_of_laid hrow]
    exact List.prefix_append tokens others

end

/-- A rejected token is rejected behind the same tokens in every source. -/
theorem neverAccepted_of_rejected {depth : Nat} {kind : SyntaxError.Kind} {w later : List Token}
    {t : Token} (h : root depth (w ++ t :: later) = .error (.rejected kind (t :: later))) :
    NeverAccepted (w ++ [t]) := by
  intro depth' bytes hread hbegins
  have hderives := derives_of_error_eq_none hread
  obtain ⟨others, hothers⟩ := hbegins
  obtain ⟨front, rest, htokens, hfront, -⟩ := List.map_eq_append_iff.mp hothers.symm
  obtain ⟨v, last, rfl, hv, hlast⟩ := SameLexemes.of_append hfront.symm
  obtain ⟨p, none, rfl, hnone⟩ := SameLexemes.of_cons hlast
  have hnext : nextLexeme? (t :: later) = nextLexeme? (⟨t.lexeme, p⟩ :: (none ++ rest)) := rfl
  rw [htokens, List.append_assoc, List.cons_append] at hderives
  exact not_derives_of_rejected (root_rejects h hv hnext) hderives

/-- The error stands behind `before`, and no earlier place would do. What is before it can be
completed. A token that it names cannot follow there. Without a token the error stands behind the
last byte of a source that only begins an accepted one, or at the opening quote of a string that
has no end. -/
structure StandsEarliest (bytes : List UInt8) (e : SyntaxError) (before after : List UInt8) :
    Prop where
  split : bytes = before ++ after
  completable : Completable before
  atToken : ∀ t, e.token = some t →
    (Scan.ofBytes before).tokens ++ [t] <+: (Scan.ofBytes bytes).tokens ∧
    e.position = some (Position.start.past before) ∧
    NeverAccepted ((Scan.ofBytes before).tokens ++ [t])
  atEnd : e.token = none → e.kind ≠ .unterminatedString →
    (Scan.ofBytes before).tokens = (Scan.ofBytes bytes).tokens ∧
    e.position = some (Position.start.past bytes) ∧
    ∀ depth, (ofBytes depth bytes).error ≠ none
  atQuote : e.kind = .unterminatedString →
    (Scan.ofBytes before).tokens = (Scan.ofBytes bytes).tokens ∧
    e.position = some (Position.start.past before) ∧
    ∃ contents, after = Byte.quote :: contents ∧ Byte.quote ∉ contents

section

variable {bytes row after : List UInt8} {skips : List Skip} {kind : SyntaxError.Kind}

theorem standsEarliest_atToken {t : Token} {w later : List Token} {depth : Nat}
    (hbytes : bytes = row ++ after)
    (hrow : Laid .start row (Scan.ofBytes bytes).tokens skips after)
    (hw : (Scan.ofBytes bytes).tokens = w ++ t :: later)
    (hroot : root depth (Scan.ofBytes bytes).tokens = .error (.rejected kind (t :: later)))
    (hkind : kind ≠ .unterminatedString) (hbegins : Begins (Derives (.phrase .root)) w) :
    ∃ before after, StandsEarliest bytes (.atToken kind t) before after := by
  rw [hw] at hrow
  obtain ⟨front, rest, skips', rfl, hfront, hposition⟩ := hrow.split
  refine ⟨front, rest ++ after, by rw [hbytes, List.append_assoc],
    completable_of_laid hfront hbegins, ?_, ?_, ?_⟩
  · intro t' ht
    cases ht
    rw [hw] at hroot
    rw [tokens_of_laid hfront, hw, ← hposition]
    exact ⟨⟨later, by simp⟩, rfl, neverAccepted_of_rejected hroot⟩
  · intro ht
    cases ht
  · intro hstring
    exact absurd hstring hkind

theorem standsEarliest_atEnd {depth : Nat}
    (hrow : Laid .start bytes (Scan.ofBytes bytes).tokens skips [])
    (hroot : root depth (Scan.ofBytes bytes).tokens = .error (.rejected kind []))
    (hkind : kind ≠ .unterminatedString)
    (hbegins : Begins (Derives (.phrase .root)) (Scan.ofBytes bytes).tokens) :
    StandsEarliest bytes (.atEnd kind (Position.start.past bytes)) bytes [] := by
  refine ⟨(List.append_nil bytes).symm, completable_of_laid hrow hbegins, ?_, ?_, ?_⟩
  · intro t ht
    cases ht
  · intro _ _
    refine ⟨rfl, rfl, fun depth' hread => ?_⟩
    exact not_derives_of_rejected hroot (derives_of_error_eq_none hread)
  · intro hstring
    exact absurd hstring hkind

theorem standsEarliest_atQuote {contents : List UInt8}
    (hbytes : bytes = row ++ Byte.quote :: contents)
    (hrow : Laid .start row (Scan.ofBytes bytes).tokens skips (Byte.quote :: contents))
    (unquoted : Byte.quote ∉ contents)
    (hbegins : Begins (Derives (.phrase .root)) (Scan.ofBytes bytes).tokens) :
    StandsEarliest bytes (.unterminated (Position.start.past row))
      row (Byte.quote :: contents) := by
  refine ⟨hbytes, completable_of_laid hrow hbegins, ?_, ?_, ?_⟩
  · intro t ht
    cases ht
  · intro _ hother
    exact absurd rfl hother
  · intro _
    exact ⟨tokens_of_laid hrow, rfl, contents, rfl, unquoted⟩

end

end Parsed

/-- Every syntax error stands at the earliest place, if only the nesting is not what it is about. -/
theorem syntax_error_stands_earliest (depth : Nat) (bytes : List UInt8) {e : SyntaxError}
    (herror : (Parsed.ofBytes depth bytes).error = some e) (hkind : e.kind ≠ .nestingTooDeep) :
    ∃ before after, Parsed.StandsEarliest bytes e before after := by
  obtain ⟨row, after, hbytes, hrow, hend⟩ := Scan.exists_laid bytes
  unfold Parsed.ofBytes Parsed.ofScan at herror
  generalize (Scan.ofBytes bytes).ending = ending at hend herror
  cases hroot : root depth (Scan.ofBytes bytes).tokens with
  | ok result =>
      -- The tokens are a program, so only a string without an end can have failed.
      obtain ⟨-, nodes, -, hspells⟩ := root_eq_ok hroot
      have hbegins : Begins (Derives (.phrase .root)) (Scan.ofBytes bytes).tokens :=
        ⟨[], by simpa using hspells.derives⟩
      rw [hroot] at herror
      cases hend with
      | finished => cases herror
      | unclosed _ unquoted =>
          cases herror
          exact ⟨_, _, Parsed.standsEarliest_atQuote hbytes hrow unquoted hbegins⟩
  | error failure =>
      rw [hroot] at herror
      cases herror
      cases failure with
      | tooDeep rest => exact absurd (Parsed.errorOf_tooDeep _ rest) hkind
      | rejected kind rest =>
          obtain ⟨hstring, w, hw, hbegins⟩ := viable_root depth hroot
          cases rest with
          | cons t later => exact Parsed.standsEarliest_atToken hbytes hrow hw hroot hstring hbegins
          | nil =>
              rw [List.append_nil] at hw
              rw [List.nil_append, ← hw] at hbegins
              cases hend with
              | finished =>
                  rw [List.append_nil] at hbytes
                  subst hbytes
                  exact ⟨_, _, Parsed.standsEarliest_atEnd hrow hroot hstring hbegins⟩
              | unclosed _ unquoted =>
                  exact ⟨_, _, Parsed.standsEarliest_atQuote hbytes hrow unquoted hbegins⟩

/-- The sources are `x=(;`, `if x $` with a blank behind it, and `f(x,` with `"y` on the next
line. -/
theorem syntax_error_stands_earliest_three_ways :
    (∃ bytes, bytes = [120, 61, 40, 59] ∧
      (Parsed.ofBytes 2 bytes).error =
        some (.atToken .unexpectedToken ⟨.symbol .semicolon, ⟨1, 4⟩⟩) ∧
      ∃ before after, Parsed.StandsEarliest bytes
        (.atToken .unexpectedToken ⟨.symbol .semicolon, ⟨1, 4⟩⟩) before after) ∧
    (∃ bytes, bytes = [105, 102, 32, 120, 32, 36, 32] ∧
      (Parsed.ofBytes 0 bytes).error = some (.atEnd .missingColon ⟨1, 8⟩) ∧
      ∃ before after, Parsed.StandsEarliest bytes (.atEnd .missingColon ⟨1, 8⟩) before after) ∧
    ∃ bytes, bytes = [102, 40, 120, 44, 10, 34, 121] ∧
      (Parsed.ofBytes 1 bytes).error = some (.unterminated ⟨2, 1⟩) ∧
      ∃ before after, Parsed.StandsEarliest bytes (.unterminated ⟨2, 1⟩) before after := by
  refine ⟨⟨_, rfl, by decide, ?_⟩, ⟨_, rfl, by decide, ?_⟩, ⟨_, rfl, by decide, ?_⟩⟩
  · exact syntax_error_stands_earliest 2 _ (by decide) (by decide)
  · exact syntax_error_stands_earliest 0 _ (by decide) (by decide)
  · exact syntax_error_stands_earliest 1 _ (by decide) (by decide)

end Scriptlet

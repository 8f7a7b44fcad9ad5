import Mathlib
import Scriptlet.Text.Quoted

/-!
# Quoted texts can be told apart

Each character of a quoted text is written so that it can be read back whatever follows, and
nothing inside looks like the closing quote. So a quoted text ends by itself: where it stands at the
front of other characters, both the text and the characters behind it are determined.
-/

namespace Scriptlet.Text

/-! ## Escapes read back -/

def hexDigit (c : Char) : Nat := if c.isDigit then c.toNat - 48 else c.toNat - 87

def hexValue (digits : List Char) : Nat := digits.foldl (fun n c => 16 * n + hexDigit c) 0

theorem hexDigit_digitChar : ∀ d < 16, hexDigit (Nat.digitChar d) = d := by
  decide

@[simp] theorem length_hexDigits (width n : Nat) : (hexDigits width n).length = width := by
  induction width generalizing n with
  | zero => rfl
  | succ width ih => simp [hexDigits, ih]

theorem hexValue_hexDigits {width n : Nat} (h : n < 16 ^ width) :
    hexValue (hexDigits width n) = n := by
  induction width generalizing n with
  | zero => exact (Nat.lt_one_iff.mp h).symm
  | succ width ih =>
      have hfront : hexValue (hexDigits width (n / 16)) = n / 16 :=
        ih ((Nat.div_lt_iff_lt_mul (by decide)).mpr h)
      unfold hexValue at hfront ⊢
      rw [hexDigits, List.foldl_append, hfront, List.foldl_cons, List.foldl_nil,
        hexDigit_digitChar _ (Nat.mod_lt n (by decide))]
      exact Nat.div_add_mod n 16

/-- Read the code of a character in so many digits. -/
def readCode (width : Nat) (chars : List Char) : Char × List Char :=
  (Char.ofNat (hexValue (chars.take width)), chars.drop width)

theorem readCode_hexDigits {width : Nat} {c : Char} (h : c.toNat < 16 ^ width) (rest : List Char) :
    readCode width (hexDigits width c.toNat ++ rest) = (c, rest) := by
  unfold readCode
  rw [List.take_left' (length_hexDigits _ _), List.drop_left' (length_hexDigits _ _),
    hexValue_hexDigits h, Char.ofNat_toNat]

/-- Read one character as it stands between quotes. -/
def unescape : List Char → Option (Char × List Char)
  | [] => none
  | '\\' :: 'n' :: rest => some ('\n', rest)
  | '\\' :: 'r' :: rest => some ('\r', rest)
  | '\\' :: 't' :: rest => some ('\t', rest)
  | '\\' :: 'x' :: rest => some (readCode 2 rest)
  | '\\' :: 'u' :: rest => some (readCode 4 rest)
  | '\\' :: 'U' :: rest => some (readCode 8 rest)
  | '\\' :: c :: rest => some (c, rest)
  | c :: rest => some (c, rest)

theorem unescape_plain {c : Char} (h : c ≠ '\\') (rest : List Char) :
    unescape (c :: rest) = some (c, rest) := by
  -- the other ways to read begin with a backslash
  rw [unescape]
  all_goals
    intros
    exact h ‹c = '\\'›

theorem unescape_escapeCode (c : Char) (rest : List Char) :
    unescape (escapeCode c.toNat ++ rest) = some (c, rest) := by
  unfold escapeCode
  split
  · next h => exact congrArg some (readCode_hexDigits h rest)
  · split
    · next h => exact congrArg some (readCode_hexDigits h rest)
    · exact congrArg some (readCode_hexDigits c.val.toNat_lt rest)

def IsQuote (quote : Char) : Prop := quote = '\'' ∨ quote = '"'

theorem isQuote_quoteFor (cs : List Char) : IsQuote (quoteFor cs) := by
  unfold quoteFor
  split
  · exact .inr rfl
  · exact .inl rfl

section

variable {quote : Char} (hquote : IsQuote quote)

include hquote

theorem unescape_escapeChar (c : Char) (rest : List Char) :
    unescape (escapeChar quote c ++ rest) = some (c, rest) := by
  unfold escapeChar
  split
  · next h =>
      rcases h with rfl | rfl
      · rcases hquote with rfl | rfl <;> rfl
      · rfl
  · next h =>
      obtain ⟨-, hslash⟩ := not_or.mp h
      split
      · next h => exact h ▸ rfl
      · split
        · next h => exact h ▸ rfl
        · split
          · next h => exact h ▸ rfl
          · split
            · exact unescape_plain hslash rest
            · exact unescape_escapeCode c rest

/-- No character is written in a way that begins with the quote. -/
theorem escapeChar_ne_quote (c : Char) (rest rest' : List Char) :
    escapeChar quote c ++ rest ≠ quote :: rest' := by
  intro h
  have hread := unescape_escapeChar hquote c rest
  have hslash : quote ≠ '\\' := by rcases hquote with rfl | rfl <;> decide
  rw [h, unescape_plain hslash, Option.some.injEq, Prod.mk.injEq] at hread
  obtain ⟨rfl, rfl⟩ := hread
  -- a quote is written behind a backslash
  rw [escapeChar, if_pos (.inl rfl)] at h
  exact hslash (List.cons.inj h).1.symm

theorem flatMap_escapeChar_inj {cs ds rest rest' : List Char}
    (h : cs.flatMap (escapeChar quote) ++ quote :: rest =
      ds.flatMap (escapeChar quote) ++ quote :: rest') : cs = ds ∧ rest = rest' := by
  induction cs generalizing ds with
  | nil =>
      cases ds with
      | nil => exact ⟨rfl, List.tail_eq_of_cons_eq h⟩
      | cons d ds =>
          rw [List.flatMap_cons, List.append_assoc] at h
          exact absurd h.symm (escapeChar_ne_quote hquote d _ _)
  | cons c cs ih =>
      rw [List.flatMap_cons, List.append_assoc] at h
      cases ds with
      | nil => exact absurd h (escapeChar_ne_quote hquote c _ _)
      | cons d ds =>
          rw [List.flatMap_cons, List.append_assoc] at h
          have hread := congrArg unescape h
          rw [unescape_escapeChar hquote, unescape_escapeChar hquote, Option.some.injEq,
            Prod.mk.injEq] at hread
          obtain ⟨rfl, hrest⟩ := hread
          obtain ⟨rfl, hend⟩ := ih hrest
          exact ⟨rfl, hend⟩

end

/-- A quoted text ends by itself. -/
theorem quotedChars_append_inj {cs ds rest rest' : List Char}
    (h : quotedChars cs ++ rest = quotedChars ds ++ rest') : cs = ds ∧ rest = rest' := by
  simp only [quotedChars, List.cons_append, List.append_assoc, List.cons.injEq] at h
  obtain ⟨hquote, hrest⟩ := h
  rw [← hquote] at hrest
  exact flatMap_escapeChar_inj (isQuote_quoteFor cs) hrest

theorem exists_quotedChars (cs : List Char) :
    ∃ quote rest, IsQuote quote ∧ quotedChars cs = quote :: rest :=
  ⟨_, _, isQuote_quoteFor cs, rfl⟩

end Scriptlet.Text

import Scriptlet.Evaluation.Eval
import Scriptlet.Proofs.Number.Doubles
import Scriptlet.Proofs.Token.SourceText
import Scriptlet.Tree.Parser

/-!
# Displayed values are read back

The text of a value is a program for the value. All but negative numbers are one token; a negative
number is a minus sign before the digits of its size. Numbers that are not finite have no digits,
and a string with a quote in it would end there.
-/

namespace Scriptlet

/-! ## Positional notation -/

namespace Number

def IsDigits (chars : List Char) : Prop := chars ≠ [] ∧ ∀ c ∈ chars, c.isDigit

/-- Digits, and behind a point more of them. -/
inductive IsUnsigned : List Char → Prop where
  | whole {digits : List Char} (h : IsDigits digits) : IsUnsigned digits
  | fraction {digits decimals : List Char} (h : IsDigits digits) (h' : IsDigits decimals) :
      IsUnsigned (digits ++ '.' :: decimals)

inductive IsPositional : List Char → Prop where
  | positive {chars : List Char} (h : IsUnsigned chars) : IsPositional chars
  | negative {chars : List Char} (h : IsUnsigned chars) : IsPositional ('-' :: chars)

theorem isUnsigned_positionalChars (d : Decimal) : IsUnsigned (positionalChars d) := by
  have hdigits : ∀ c ∈ padZeros (d.scale + 1) (Nat.toDigits 10 d.digits), c.isDigit :=
    isDigit_padZeros fun c hc => Nat.isDigit_of_mem_toDigits (by decide) (by decide) hc
  have hlength := length_padZeros (d.scale + 1) (Nat.toDigits 10 d.digits)
  unfold positionalChars
  generalize padZeros (d.scale + 1) (Nat.toDigits 10 d.digits) = digits at hdigits hlength
  dsimp only
  have hne : ∀ {chars : List Char}, 0 < chars.length → chars ≠ [] := List.length_pos_iff.mp
  split
  · exact .whole ⟨hne (by omega), hdigits⟩
  · refine .fraction ⟨hne ?_, fun c hc => hdigits c (List.mem_of_mem_take hc)⟩
      ⟨hne ?_, fun c hc => hdigits c (List.mem_of_mem_drop hc)⟩
    · rw [List.length_take]
      omega
    · rw [List.length_drop]
      omega

theorem isPositional_displayChars {x : Float} (h : x.isFinite = true) :
    IsPositional (displayChars x) := by
  obtain ⟨d, hform, -⟩ := exists_form h
  simp only [displayChars, hform, signed]
  cases signBit x with
  | true => exact .negative (isUnsigned_positionalChars d)
  | false => exact .positive (isUnsigned_positionalChars d)

end Number

/-! ## The tokens of a text -/

/-- Values that have a text in a source. -/
def Value.Readable : Value → Prop
  | .number x => x.isFinite = true
  | .string s => '"' ∉ s.toList
  | .boolean _ => True
  | .nil => True

/-- The token that stands for a value which has no sign. -/
def Value.lexeme : Value → Lexeme
  | .number x => .number x
  | .boolean b => .boolean b
  | .string s => .string s
  | .nil => .symbol .nil

def Value.literal (p : Option Position) : Value → Node
  | .number x => .number x p
  | .boolean b => .boolean b p
  | .string s => .string s p
  | .nil => .nil p

theorem laid_display {v : Value} (h : v.lexeme.Writable) (p : Position) :
    Laid p (Utf8.encode v.display) [⟨v.lexeme, p⟩] [] [] := by
  have hdisplay : v.display = v.lexeme.source := by cases v <;> rfl
  rw [hdisplay, ← List.append_nil (Utf8.encode _)]
  exact .token (v.lexeme.spelledBefore h fenced_nil) (.done _ _)

theorem laid_negative (d : Decimal) (p : Position) :
    Laid p (asciiBytes ('-' :: Number.positionalChars d))
      [⟨.symbol .minus, p⟩, ⟨.number d.toFloat, p.advance 45⟩] [] [] := by
  have minus : SpelledBefore (.symbol .minus) [45]
      (asciiBytes (Number.positionalChars d) ++ []) := .single rfl _
  have digits : Laid (p.past [45]) (asciiBytes (Number.positionalChars d) ++ [])
      [⟨.number d.toFloat, p.advance 45⟩] [] [] :=
    .token (d.spelledBefore fenced_nil) (.done _ _)
  rw [List.append_nil] at digits
  exact .token minus digits

theorem encode_negative {x : Float} {d : Decimal} (h : Number.form x = .finite ⟨true, d⟩) :
    Utf8.encode (Value.number x).display = asciiBytes ('-' :: Number.positionalChars d) := by
  have hchars : Number.displayChars x = '-' :: Number.positionalChars d := by
    simp [Number.displayChars, h, Number.signed]
  show Utf8.encode (String.ofList (Number.displayChars x)) = _
  rw [hchars]
  exact Utf8.encode_ascii (List.forall_mem_cons.mpr ⟨by decide, Number.positionalChars_ascii d⟩)

/-! ## The program that a text is -/

theorem ofBytes_of_laid {nesting : Nat} {bytes : List UInt8} {tokens : List Token} {tree : Node}
    (laid : Laid .start bytes tokens [] [])
    (read : Parser.root nesting tokens = .ok (tree, [])) :
    Parsed.ofBytes nesting bytes = ⟨tree, [], none⟩ := by
  rw [Parsed.ofBytes, Scan.ofBytes_eq_of_laid laid, Parsed.ofScan]
  dsimp only
  rw [read]

theorem root_literal (nesting : Nat) (v : Value) (p : Position) :
    Parser.root nesting [⟨v.lexeme, p⟩] = .ok (.root [v.literal p] p, []) := by
  cases nesting <;> cases v <;> rfl

theorem root_negative (nesting : Nat) (x : Float) (p q : Position) :
    Parser.root (nesting + 1) [⟨.symbol .minus, p⟩, ⟨.number x, q⟩] =
      .ok (.root [.unary (.symbol .minus) (.number x q) p] p, []) := by
  cases nesting <;> rfl

section

variable {mode : Mode} (hdepth : 3 ≤ mode.depth) (h : Handle) (s : Store)

include hdepth

theorem evaluate_literal (v : Value) (p q : Option Position) :
    evaluate mode (.root [v.literal p] q) h s = (.value v, s) := by
  obtain ⟨depth, hmode⟩ : ∃ depth, mode.depth = depth + 3 := ⟨mode.depth - 3, by omega⟩
  unfold evaluate
  rw [hmode]
  cases v <;> rfl

theorem evaluate_negative (x : Float) (p q r : Option Position) :
    evaluate mode (.root [.unary (.symbol .minus) (.number x p) q] r) h s =
      (.value (.number (-x)), s) := by
  obtain ⟨depth, hmode⟩ : ∃ depth, mode.depth = depth + 3 := ⟨mode.depth - 3, by omega⟩
  unfold evaluate
  rw [hmode]
  rfl

end

/-- The value's text is read as a tree, without an error and without skipped bytes, and the tree
evaluates to the value anywhere. -/
def ReadsAs (v : Value) : Prop :=
  ∀ nesting, 1 ≤ nesting → ∃ tree,
    Parsed.ofBytes nesting (Utf8.encode v.display) = ⟨tree, [], none⟩ ∧
    ∀ mode : Mode, 3 ≤ mode.depth → ∀ h s, evaluate mode tree h s = (.value v, s)

theorem readsAs_of_writable {v : Value} (h : v.lexeme.Writable) : ReadsAs v := fun nesting _ =>
  ⟨_, ofBytes_of_laid (laid_display h .start) (root_literal nesting v .start),
    fun _ hdepth g s => evaluate_literal hdepth g s v _ _⟩

theorem readsAs_negative {x : Float} {d : Decimal} (h : Number.form x = .finite ⟨true, d⟩)
    (hx : -d.toFloat = x) : ReadsAs (.number x) := by
  intro nesting hnesting
  obtain ⟨nesting, rfl⟩ : ∃ below, nesting = below + 1 := ⟨nesting - 1, by omega⟩
  have hlaid := laid_negative d .start
  rw [← encode_negative h] at hlaid
  refine ⟨_, ofBytes_of_laid hlaid (root_negative nesting _ _ _), fun mode hdepth g s => ?_⟩
  rw [evaluate_negative hdepth, hx]

theorem Value.Readable.readsAs {v : Value} (h : v.Readable) : ReadsAs v := by
  cases v with
  | number x =>
      cases sign : Number.signBit x with
      | false => exact readsAs_of_writable ⟨h, sign⟩
      | true =>
          obtain ⟨d, hform, hx⟩ := Number.exists_form h
          rw [sign] at hform hx
          exact readsAs_negative hform hx
  | string t => exact readsAs_of_writable h
  | boolean | nil => exact readsAs_of_writable trivial

/-- The text of a value is a program that is read without an error and without skipped bytes and
that evaluates to this very value, to the last bit of a number. Numbers are written in digits, with
no exponent. A minus sign takes one level of nesting and one of depth. -/
theorem displayed_value_reads_back (v : Value) (hv : v.Readable) (nesting : Nat)
    (hnesting : 1 ≤ nesting) (mode : Mode) (hdepth : 3 ≤ mode.depth) (h : Handle) (s : Store) :
    let parsed := Parsed.ofBytes nesting (Utf8.encode v.display)
    parsed.error = none ∧ parsed.skips = [] ∧ evaluate mode parsed.tree h s = (.value v, s) ∧
      ∀ x, v = .number x → Number.IsPositional v.display.toList := by
  intro parsed
  obtain ⟨tree, hparsed, hvalue⟩ := hv.readsAs nesting hnesting
  have htree : parsed.tree = tree := congrArg Parsed.tree hparsed
  refine ⟨congrArg Parsed.error hparsed, congrArg Parsed.skips hparsed, ?_, ?_⟩
  · rw [htree]
    exact hvalue mode hdepth h s
  · rintro x rfl
    show Number.IsPositional (String.ofList (Number.displayChars x)).toList
    rw [String.toList_ofList]
    exact Number.isPositional_displayChars hv

/-- The negative number next to zero, where there is just enough depth, and negative zero. -/
theorem displayed_value_reads_back_below_zero :
    let x := Float.ofBits 0x8000000000000001
    let parsed := Parsed.ofBytes 1 (Utf8.encode (Value.number x).display)
    x.isFinite = true ∧ parsed.error = none ∧ parsed.skips = [] ∧
      evaluate { depth := 3 } parsed.tree Arena.rootHandle ⟨.ofFunctions [], ""⟩ =
        (.value (.number x), ⟨.ofFunctions [], ""⟩) ∧
      (∀ y, Value.number x = .number y →
        Number.IsPositional (Value.number x).display.toList) ∧
      (Value.number (Float.ofBits 0x8000000000000000)).display = "-0" := by
  have hx : (Float.ofBits 0x8000000000000001).isFinite = true := by decide +kernel
  have back := displayed_value_reads_back (.number (Float.ofBits 0x8000000000000001)) hx 1
    (Nat.le_refl 1) { depth := 3 } (Nat.le_refl 3) Arena.rootHandle ⟨.ofFunctions [], ""⟩
  exact ⟨hx, back.1, back.2.1, back.2.2.1, back.2.2.2, by decide +kernel⟩

end Scriptlet

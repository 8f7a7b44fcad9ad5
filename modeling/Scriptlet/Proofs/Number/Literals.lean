import Mathlib
import Scriptlet.Proofs.Number.Doubles
import Scriptlet.Proofs.Token.SourceText

/-!
# Number texts can be told apart

The text of a number in a tree is a fraction written out, or digits with an exponent. Read as a
decimal it gives the fraction that was written, and the fraction is read as the number. Whether the
digits of a number were found by the search or are its exact ones, without the zeros at the end they
are read as the number. So two numbers with one text are the same double.
-/

namespace Scriptlet

namespace Decimal

/-! ## Fractions in lowest terms -/

def value (d : Decimal) : ℚ := d.digits / 10 ^ d.scale

/-- There are no zeros at the end of the fractional part. -/
def Reduced (d : Decimal) : Prop := d.scale = 0 ∨ d.digits % 10 ≠ 0

def reduced (d : Decimal) : Decimal := trimZeros d.digits d.scale

theorem reduced_trimZeros (digits scale : Nat) : (trimZeros digits scale).Reduced := by
  induction scale generalizing digits with
  | zero => exact .inl rfl
  | succ scale ih =>
      by_cases hzero : digits % 10 = 0
      · rw [trimZeros, if_pos hzero]
        exact ih (digits / 10)
      · rw [trimZeros, if_neg hzero]
        exact .inr hzero

theorem value_trimZeros (digits scale : Nat) :
    (trimZeros digits scale).value = value ⟨digits, scale⟩ := by
  induction scale generalizing digits with
  | zero => rfl
  | succ scale ih =>
      by_cases hzero : digits % 10 = 0
      · have hdigits : digits = digits / 10 * 10 := by omega
        rw [trimZeros, if_pos hzero, ih]
        unfold value
        dsimp only
        conv_rhs => rw [hdigits]
        rw [pow_succ, Nat.cast_mul]
        exact (mul_div_mul_right _ _ (by norm_num)).symm
      · rw [trimZeros, if_neg hzero]

theorem Reduced.reduced_eq {d : Decimal} (h : d.Reduced) : d.reduced = d := by
  obtain ⟨digits, scale⟩ := d
  cases scale with
  | zero => rfl
  | succ scale =>
      have hlast : digits % 10 ≠ 0 := h.resolve_left (Nat.succ_ne_zero scale)
      exact if_neg hlast

theorem value_eq_iff {d d' : Decimal} :
    d.value = d'.value ↔ d.digits * 10 ^ d'.scale = d'.digits * 10 ^ d.scale := by
  unfold value
  rw [div_eq_div_iff (by positivity) (by positivity)]
  exact_mod_cast Iff.rfl

theorem Reduced.scale_le {d d' : Decimal} (h' : d'.Reduced) (hvalue : d.value = d'.value) :
    d'.scale ≤ d.scale := by
  by_contra hlt
  obtain ⟨k, hk⟩ : ∃ k, d'.scale = d.scale + k + 1 := ⟨d'.scale - d.scale - 1, by omega⟩
  have hdigits : d.digits * 10 ^ k * 10 * 10 ^ d.scale = d'.digits * 10 ^ d.scale := by
    rw [← value_eq_iff.mp hvalue, hk, pow_succ, pow_add]
    ring
  have hcancel := Nat.eq_of_mul_eq_mul_right (Nat.pow_pos (by decide)) hdigits
  rcases h' with hscale | hlast
  · omega
  · omega

theorem Reduced.eq_of_value {d d' : Decimal} (h : d.Reduced) (h' : d'.Reduced)
    (hvalue : d.value = d'.value) : d = d' := by
  have hscale : d.scale = d'.scale := Nat.le_antisymm (h.scale_le hvalue.symm) (h'.scale_le hvalue)
  have hdigits := value_eq_iff.mp hvalue
  rw [hscale] at hdigits
  have hcancel := Nat.eq_of_mul_eq_mul_right (Nat.pow_pos (by decide)) hdigits
  rw [Decimal.mk.injEq]
  exact ⟨hcancel, hscale⟩

theorem reduced_eq_of_value {d d' : Decimal} (hvalue : d.value = d'.value) :
    d.reduced = d'.reduced := by
  have hsame : d.reduced.value = d'.reduced.value :=
    (value_trimZeros _ _).trans (hvalue.trans (value_trimZeros _ _).symm)
  exact (reduced_trimZeros _ _).eq_of_value (reduced_trimZeros _ _) hsame

/-! ## Fractions that are read as a double -/

open Scriptlet.Number (Canonical targetExponent_eq ofScientific_whole ofScientific_fraction
  div_canonical)

variable {m : Nat} {e : Int}

theorem log2_le_of_canonical (h : Canonical m e) : m.log2 ≤ 52 := by
  have hexponent := h.exponent
  rw [targetExponent_eq, Float.Model.totalExponent] at hexponent
  omega

theorem value_eq_dyadic_iff {d : Decimal} {k : Nat} :
    d.value = m * (2 : ℚ) ^ (-(k : Int)) ↔ d.digits * 2 ^ k = m * 10 ^ d.scale := by
  unfold value
  rw [zpow_neg, zpow_natCast, ← div_eq_mul_inv, div_eq_div_iff (by positivity) (by positivity)]
  exact_mod_cast Iff.rfl

theorem value_ofDyadic (m : Nat) (e : Int) : (ofDyadic m e).value = m * (2 : ℚ) ^ e := by
  by_cases he : 0 ≤ e
  · obtain ⟨k, rfl⟩ := Int.eq_ofNat_of_zero_le he
    simp [ofDyadic, value, Nat.shiftLeft_eq]
  · obtain ⟨k, rfl⟩ : ∃ k : Nat, e = -(k : Int) := ⟨(-e).toNat, by omega⟩
    rw [value_eq_dyadic_iff, ofDyadic, if_neg he]
    have hback : (-(-(k : Int))).toNat = k := by omega
    dsimp only
    rw [hback]
    show m * 5 ^ k * 2 ^ k = m * 10 ^ k
    rw [Nat.mul_assoc, ← Nat.mul_pow]

theorem toFloat_whole {n k : Nat} (h : Canonical m (-(k : Int))) (hvalue : n * 2 ^ k = m) :
    toFloat ⟨n, 0⟩ = Float.ofModel (.pack (.finite .positive m (-(k : Int)) h.pos)) := by
  have hn : n ≠ 0 := by
    rintro rfl
    have := h.pos
    omega
  have hlog := log2_le_of_canonical h
  rw [← hvalue, Number.log2_mul_two_pow hn] at hlog
  have hround := h.roundWithAccuracy .positive (53 - k)
  have hmantissa : m * 2 ^ (53 - k) = n * 2 ^ 53 := by
    rw [← hvalue, mul_assoc, ← pow_add, Nat.add_sub_cancel' (by omega)]
  have hexponent : -(k : Int) - (53 - k : Nat) = -53 := by omega
  rw [hmantissa, hexponent] at hround
  unfold toFloat Float.Model.ofScientific
  congr 2
  exact (ofScientific_whole hn).trans hround

/-- A fraction in lowest terms has no more places than the power of two below the mantissa. -/
theorem Reduced.scale_le_of_dyadic {d : Decimal} (hd : d.Reduced) {k : Nat}
    (hvalue : d.digits * 2 ^ k = m * 10 ^ d.scale) : d.scale ≤ k := by
  by_contra hlt
  obtain ⟨j, hj⟩ : ∃ j, d.scale = k + j + 1 := ⟨d.scale - k - 1, by omega⟩
  have hten : (10 : Nat) ^ (k + j + 1) = 10 * (5 ^ k * 10 ^ j) * 2 ^ k := by
    have hsplit : (10 : Nat) ^ k = 5 ^ k * 2 ^ k := by rw [← Nat.mul_pow]
    rw [pow_succ, pow_add, hsplit]
    ring
  have hdigits : d.digits * 2 ^ k = 10 * (m * (5 ^ k * 10 ^ j)) * 2 ^ k := by
    rw [hvalue, hj, hten]
    ring
  have hcancel := Nat.eq_of_mul_eq_mul_right (Nat.two_pow_pos k) hdigits
  rcases hd with hscale | hlast
  · omega
  · omega

/-- The fraction in lowest terms that is exactly a double is read as the double. -/
theorem toFloat_of_exact {d : Decimal} (hd : d.Reduced) (h : Canonical m e)
    (hvalue : d.value = m * (2 : ℚ) ^ e) :
    d.toFloat = Float.ofModel (.pack (.finite .positive m e h.pos)) := by
  by_cases he : 0 ≤ e
  · have hwhole : (ofDyadic m e).Reduced := by
      rw [ofDyadic, if_pos he]
      exact .inl rfl
    rw [hd.eq_of_value hwhole (hvalue.trans (value_ofDyadic m e).symm)]
    exact toFloat_ofDyadic h
  · obtain ⟨k, rfl⟩ : ∃ k : Nat, e = -(k : Int) := ⟨(-e).toNat, by omega⟩
    have hdigits := value_eq_dyadic_iff.mp hvalue
    have hscale := hd.scale_le_of_dyadic hdigits
    obtain ⟨n, s⟩ := d
    dsimp only at hdigits hscale
    cases s with
    | zero => exact toFloat_whole h (by simpa using hdigits)
    | succ s =>
        have hpos : 0 < n := by
          refine Nat.pos_of_ne_zero ?_
          rintro rfl
          have := Nat.mul_pos h.pos (Nat.pow_pos (n := s + 1) (show 0 < 10 by decide))
          omega
        have hleast : -1074 ≤ -(k : Int) := by
          rw [← h.exponent, targetExponent_eq]
          omega
        have hfraction := ofScientific_fraction hpos (Nat.succ_ne_zero s) (by omega)
        unfold toFloat Float.Model.ofScientific
        congr 2
        exact hfraction.trans (div_canonical h hdigits hpos (Nat.pow_pos (by decide)))

theorem reduced_of_mem_neighbours {num den : Nat} {exponent : Int} {d : Decimal}
    (h : d ∈ neighbours num den exponent) : d.Reduced := by
  unfold neighbours at h
  dsimp only at h
  split at h
  all_goals
    rcases List.mem_pair.mp h with rfl | rfl
    all_goals exact reduced_trimZeros _ _

/-- Without the zeros at their end, the digits that are shown are read as the double. -/
theorem toFloat_reduced_shortestOf (h : Canonical m e) :
    let x := Float.ofModel (.pack (.finite .positive m e h.pos))
    (shortestOf x m e).reduced.toFloat = x := by
  intro x
  have hback := toFloat_shortestOf h
  unfold shortestOf at hback ⊢
  dsimp only at hback ⊢
  generalize hfound : List.findSome? _ _ = found at hback ⊢
  cases found with
  | none =>
      refine toFloat_of_exact (reduced_trimZeros _ _) h ?_
      exact (value_trimZeros _ _).trans (value_ofDyadic m e)
  | some d =>
      obtain ⟨n, -, hd⟩ := List.exists_of_findSome?_eq_some hfound
      have hreduced := reduced_of_mem_neighbours (List.mem_of_find?_eq_some hd)
      rw [Option.getD_some, hreduced.reduced_eq]
      exact hback

end Decimal

namespace Number

/-! ## Digits, a point and an exponent -/

/-- Digits that stand for a number, with or without a point between them. -/
inductive Plain : List Char → ℚ → Prop where
  | whole {digits : List Char} (ne : digits ≠ []) (h : ∀ c ∈ digits, c.isDigit) :
      Plain digits (Nat.ofDigitChars 10 digits 0)
  | point {whole decimals : List Char} (ne : whole ≠ []) (h : ∀ c ∈ whole, c.isDigit)
      (h' : ∀ c ∈ decimals, c.isDigit) :
      Plain (whole ++ '.' :: decimals)
        (Nat.ofDigitChars 10 (whole ++ decimals) 0 / 10 ^ decimals.length)

/-- Plain digits, or plain digits times a power of ten. -/
inductive Scaled : List Char → ℚ → Prop where
  | plain {chars : List Char} {v : ℚ} (h : Plain chars v) : Scaled chars v
  | exponent {chars : List Char} {v : ℚ} (h : Plain chars v) (e : Int) :
      Scaled (chars ++ 'e' :: exponentChars e) (v * 10 ^ e)

theorem digit_ne {c c' : Char} (h : c.isDigit) (h' : c'.isDigit = false) : c ≠ c' := by
  rintro rfl
  rw [h] at h'
  cases h'

/-- Read plain digits: the places behind the point are counted, and the point is left out. -/
def plainValue (chars : List Char) : ℚ :=
  Nat.ofDigitChars 10 (chars.filter (· != '.')) 0 / 10 ^ (chars.dropWhile (· != '.')).tail.length

theorem Plain.plainValue_eq {chars : List Char} {v : ℚ} (h : Plain chars v) :
    plainValue chars = v := by
  have keeps : ∀ {digits : List Char}, (∀ c ∈ digits, c.isDigit) →
      ∀ c ∈ digits, (c != '.') = true :=
    fun hdigits c hc => bne_iff_ne.mpr (digit_ne (hdigits c hc) rfl)
  unfold plainValue
  cases h with
  | whole ne h =>
      rw [List.filter_eq_self.mpr (keeps h), List.dropWhile_eq_nil_iff.mpr (keeps h)]
      simp
  | @point whole decimals ne h h' =>
      rw [List.filter_append, List.filter_cons_of_neg (by simp), List.filter_eq_self.mpr (keeps h),
        List.filter_eq_self.mpr (keeps h'), List.dropWhile_append_of_pos (keeps h),
        List.dropWhile_cons_of_neg (by simp), List.tail_cons]

theorem Plain.isPlainChar {chars : List Char} {v : ℚ} (h : Plain chars v) :
    ∀ c ∈ chars, c.isDigit ∨ c = '.' := by
  intro c hc
  cases h with
  | whole ne h => exact .inl (h c hc)
  | point ne h h' =>
      rcases List.mem_append.mp hc with hc | hc
      · exact .inl (h c hc)
      · rcases List.mem_cons.mp hc with rfl | hc
        · exact .inr rfl
        · exact .inl (h' c hc)

theorem Plain.exists_digit {chars : List Char} {v : ℚ} (h : Plain chars v) :
    ∃ c rest, chars = c :: rest ∧ c.isDigit := by
  have first : ∀ (more : List Char) {digits : List Char}, digits ≠ [] →
      (∀ c ∈ digits, c.isDigit) → ∃ c rest, digits ++ more = c :: rest ∧ c.isDigit := by
    intro more digits ne hdigits
    cases digits with
    | nil => exact absurd rfl ne
    | cons c rest => exact ⟨c, rest ++ more, rfl, hdigits c List.mem_cons_self⟩
  cases h with
  | whole ne h => simpa using first [] ne h
  | point ne h h' => exact first _ ne h

def exponentValue : List Char → Int
  | '-' :: digits => -(Nat.ofDigitChars 10 digits 0 : Int)
  | '+' :: digits => Nat.ofDigitChars 10 digits 0
  | _ => 0

theorem exponentValue_exponentChars (e : Int) : exponentValue (exponentChars e) = e := by
  unfold exponentChars
  by_cases he : e < 0
  · rw [if_pos he, exponentValue, ofDigitChars_padZeros]
    omega
  · rw [if_neg he, exponentValue, ofDigitChars_padZeros]
    omega

def scaledValue (chars : List Char) : ℚ :=
  plainValue (chars.takeWhile (· != 'e')) *
    10 ^ exponentValue (chars.dropWhile (· != 'e')).tail

theorem Scaled.scaledValue_eq {chars : List Char} {v : ℚ} (h : Scaled chars v) :
    scaledValue chars = v := by
  have keeps : ∀ {chars : List Char} {v : ℚ}, Plain chars v → ∀ c ∈ chars, (c != 'e') = true := by
    intro chars v h c hc
    refine bne_iff_ne.mpr ?_
    rcases h.isPlainChar c hc with hdigit | rfl
    · exact digit_ne hdigit rfl
    · decide
  unfold scaledValue
  cases h with
  | plain h =>
      rw [List.takeWhile_eq_self_iff.mpr (keeps h), List.dropWhile_eq_nil_iff.mpr (keeps h),
        h.plainValue_eq]
      simp [exponentValue]
  | exponent h e =>
      rw [List.takeWhile_append_of_pos (keeps h), List.takeWhile_cons_of_neg (by simp),
        List.append_nil, List.dropWhile_append_of_pos (keeps h),
        List.dropWhile_cons_of_neg (by simp), List.tail_cons, h.plainValue_eq,
        exponentValue_exponentChars]

/-! ## The text of a fraction -/

theorem isDigit_toDigits (n : Nat) : ∀ c ∈ Nat.toDigits 10 n, c.isDigit :=
  fun _ hc => Nat.isDigit_of_mem_toDigits (by decide) (by decide) hc

theorem plain_positionalChars {d : Decimal} (hscale : d.scale ≠ 0) :
    Plain (positionalChars d) d.value := by
  have hdigits : ∀ c ∈ padZeros (d.scale + 1) (Nat.toDigits 10 d.digits), c.isDigit :=
    isDigit_padZeros (isDigit_toDigits d.digits)
  have hlength := length_padZeros (d.scale + 1) (Nat.toDigits 10 d.digits)
  have hvalue := ofDigitChars_padZeros (d.scale + 1) d.digits
  unfold positionalChars
  generalize padZeros (d.scale + 1) (Nat.toDigits 10 d.digits) = digits at *
  dsimp only
  have hplaces : (digits.drop (digits.length - d.scale)).length = d.scale := by
    rw [List.length_drop]
    omega
  have hwhole : digits.take (digits.length - d.scale) ≠ [] := by
    refine List.length_pos_iff.mp ?_
    rw [List.length_take]
    omega
  have hplain := Plain.point hwhole (fun c hc => hdigits c (List.mem_of_mem_take hc))
    fun c hc => hdigits c (List.mem_of_mem_drop (i := digits.length - d.scale) hc)
  rw [List.take_append_drop, hvalue, hplaces] at hplain
  rw [if_neg hscale]
  exact hplain

theorem plain_whole {d : Decimal} (hscale : d.scale = 0) :
    Plain (positionalChars d ++ ['.', '0']) d.value := by
  have hpad : padZeros 1 (Nat.toDigits 10 d.digits) ≠ [] := by
    refine List.length_pos_iff.mp ?_
    have := length_padZeros 1 (Nat.toDigits 10 d.digits)
    omega
  have hzero : ∀ c ∈ ['0'], c.isDigit := by simp
  have hplain := Plain.point hpad (isDigit_padZeros (isDigit_toDigits d.digits)) hzero
  have hvalue : (Nat.ofDigitChars 10 (padZeros 1 (Nat.toDigits 10 d.digits) ++ ['0']) 0 : ℚ) /
      10 ^ ['0'].length = d.value := by
    rw [Nat.ofDigitChars_append, ofDigitChars_padZeros, Nat.ofDigitChars_cons, Nat.ofDigitChars_nil,
      Decimal.value, hscale]
    simp
  rw [hvalue] at hplain
  unfold positionalChars
  rw [if_pos hscale, hscale]
  exact hplain

/-- The digits up to the last one that is not zero. -/
def leadingDigits (n : Nat) : List Char :=
  ((Nat.toDigits 10 n).reverse.dropWhile (· == '0')).reverse

theorem exists_trailing_zeros (n : Nat) :
    ∃ zeros, Nat.toDigits 10 n = leadingDigits n ++ List.replicate zeros '0' := by
  let back := (Nat.toDigits 10 n).reverse.takeWhile (· == '0')
  have hzeros : back = List.replicate back.length '0' := by
    refine List.eq_replicate_iff.mpr ⟨rfl, fun c hc => ?_⟩
    have hzero : (c == '0') = true := List.mem_takeWhile_imp (p := (· == '0')) hc
    exact beq_iff_eq.mp hzero
  refine ⟨back.length, ?_⟩
  have hwhole := congrArg List.reverse
    (List.takeWhile_append_dropWhile (p := (· == '0')) (l := (Nat.toDigits 10 n).reverse))
  rw [List.reverse_append, List.reverse_reverse] at hwhole
  calc Nat.toDigits 10 n = leadingDigits n ++ back.reverse := hwhole.symm
    _ = leadingDigits n ++ List.replicate back.length '0' := by
        rw [hzeros, List.reverse_replicate, List.length_replicate]

theorem ofDigitChars_leadingDigits {n zeros : Nat}
    (h : Nat.toDigits 10 n = leadingDigits n ++ List.replicate zeros '0') :
    n = Nat.ofDigitChars 10 (leadingDigits n) 0 * 10 ^ zeros := by
  have hvalue := congrArg (fun digits => Nat.ofDigitChars 10 digits 0) h
  rw [Nat.ofDigitChars_ten_toDigits, Nat.ofDigitChars_append, Nat.ofDigitChars_replicate_zero]
    at hvalue
  exact hvalue.trans (Nat.mul_comm _ _)

theorem leadingDigits_ne_nil {n : Nat} (hn : n ≠ 0) : leadingDigits n ≠ [] := by
  intro hnil
  obtain ⟨zeros, hzeros⟩ := exists_trailing_zeros n
  have hvalue := ofDigitChars_leadingDigits hzeros
  rw [hnil, Nat.ofDigitChars_nil, Nat.zero_mul] at hvalue
  exact hn hvalue

theorem isDigit_leadingDigits (n : Nat) : ∀ c ∈ leadingDigits n, c.isDigit := by
  intro c hc
  obtain ⟨zeros, hzeros⟩ := exists_trailing_zeros n
  exact isDigit_toDigits n c (hzeros ▸ List.mem_append_left _ hc)

theorem scaled_scientificChars {d : Decimal} (hdigits : d.digits ≠ 0) (e : Int) :
    Scaled (scientificChars d e)
      (Nat.ofDigitChars 10 (leadingDigits d.digits) 0 /
        10 ^ ((leadingDigits d.digits).length - 1) * 10 ^ e) := by
  have hne := leadingDigits_ne_nil hdigits
  have hdigit := isDigit_leadingDigits d.digits
  unfold scientificChars
  rw [← leadingDigits]
  generalize leadingDigits d.digits = digits at *
  cases digits with
  | nil => exact absurd rfl hne
  | cons c rest =>
      have hfirst : ∀ c' ∈ [c], c'.isDigit := by simpa using hdigit c List.mem_cons_self
      cases rest with
      | nil => simpa using Scaled.exponent (.whole hne hdigit) e
      | cons c' rest =>
          have hrest : ∀ c'' ∈ c' :: rest, c''.isDigit := fun c'' hc => hdigit c'' (.tail c hc)
          exact Scaled.exponent (.point (List.cons_ne_nil c []) hfirst hrest) e

theorem scaled_eq {n zeros places scale : Nat} :
    (n : ℚ) / 10 ^ places * 10 ^ (((places + 1 + zeros : Nat) : Int) - 1 - scale) =
      n * 10 ^ zeros / 10 ^ scale := by
  have hexponent : ((places + 1 + zeros : Nat) : Int) - 1 - scale = places + zeros - scale := by
    omega
  rw [hexponent, zpow_sub₀ (by norm_num), zpow_add₀ (by norm_num), zpow_natCast, zpow_natCast,
    zpow_natCast]
  field_simp

theorem scaled_literalSize (d : Decimal) : Scaled (literalSize d) d.value := by
  unfold literalSize
  dsimp only
  split
  · by_cases hscale : d.scale = 0
    · rw [if_pos hscale]
      exact .plain (plain_whole hscale)
    · rw [if_neg hscale, List.append_nil]
      exact .plain (plain_positionalChars hscale)
  · next hlarge =>
      have hdigits : d.digits ≠ 0 := fun hzero => hlarge (.inl hzero)
      obtain ⟨zeros, hzeros⟩ := exists_trailing_zeros d.digits
      obtain ⟨places, hplaces⟩ := Nat.exists_eq_succ_of_ne_zero
        (Nat.ne_of_gt (List.length_pos_iff.mpr (leadingDigits_ne_nil hdigits)))
      have hcount : Decimal.digitCount d.digits = places + 1 + zeros := by
        rw [Decimal.digitCount, hzeros, List.length_append, List.length_replicate, hplaces]
      have hvalue : (d.digits : ℚ) =
          Nat.ofDigitChars 10 (leadingDigits d.digits) 0 * 10 ^ zeros := by
        exact_mod_cast ofDigitChars_leadingDigits hzeros
      have hscaled := scaled_scientificChars hdigits
        ((Decimal.digitCount d.digits : Int) - 1 - d.scale)
      rw [hplaces, hcount, Nat.succ_sub_one, scaled_eq, ← hvalue] at hscaled
      rwa [hcount]

theorem Scaled.exists_digit {chars : List Char} {v : ℚ} (h : Scaled chars v) :
    ∃ c rest, chars = c :: rest ∧ c.isDigit := by
  cases h with
  | plain h => exact h.exists_digit
  | exponent h e =>
      obtain ⟨c, rest, rfl, hc⟩ := h.exists_digit
      exact ⟨c, _, rfl, hc⟩

/-- What a text of a number is made of. -/
def isNumeral (c : Char) : Bool := c.isDigit || ['.', 'e', '+', '-', 'i', 'n', 'f', 'a'].contains c

theorem isNumeral_of_isDigit {c : Char} (h : c.isDigit) : isNumeral c = true := by
  rw [isNumeral, h, Bool.true_or]

theorem Scaled.isNumeral {chars : List Char} {v : ℚ} (h : Scaled chars v) :
    ∀ c ∈ chars, isNumeral c = true := by
  have plain : ∀ {chars : List Char} {v : ℚ}, Plain chars v →
      ∀ c ∈ chars, Number.isNumeral c = true := by
    intro chars v h c hc
    rcases h.isPlainChar c hc with hdigit | rfl
    · exact isNumeral_of_isDigit hdigit
    · rfl
  cases h with
  | plain h => exact plain h
  | exponent h e =>
      intro c hc
      rcases List.mem_append.mp hc with hc | hc
      · exact plain h c hc
      · rcases List.mem_cons.mp hc with rfl | hc
        · rfl
        · rcases List.mem_cons.mp hc with rfl | hc
          · split <;> rfl
          · exact isNumeral_of_isDigit (isDigit_padZeros (isDigit_toDigits _) c hc)

/-! ## The text of a double -/

open Float.Model (Format)
open Float.Model.UnpackedFloat

theorem exists_reduced_form {x : Float} (h : x.isFinite = true) :
    ∃ negative d, form x = .finite ⟨negative, d⟩ ∧
      (if negative then -d.reduced.toFloat else d.reduced.toFloat) = x := by
  obtain ⟨s, e, m, he, rfl⟩ := exists_double h
  have hsize : ∃ d : Decimal, form (double s e m) = .finite ⟨isNegative s, d⟩ ∧
      d.reduced.toFloat = double .positive e m := by
    rcases form_double_cases s he m with ⟨hform, hzero⟩ | ⟨mantissa, exponent, h, hsize, hform⟩
    · exact ⟨_, hform, hzero⟩
    · refine ⟨_, hform, ?_⟩
      rw [hsize]
      exact Decimal.toFloat_reduced_shortestOf h
  obtain ⟨d, hform, hsize⟩ := hsize
  refine ⟨isNegative s, d, hform, ?_⟩
  rw [hsize]
  cases s with
  | positive => rfl
  | negative => exact neg_double .positive he m

theorem eq_of_unpack_infinity {x : Float} {s : Sign} (h : x.toModel.unpack = .infinity s) :
    x = Float.ofModel (.pack (.infinity s)) := by
  obtain ⟨⟨bits, valid⟩⟩ := x
  obtain ⟨s', e, m, hbits⟩ := exists_packComponents Format.binary64 bits.toBitVec
  change unpack Format.binary64 bits.toBitVec = .infinity s at h
  rw [hbits, ← ofFields, ofFields_eq] at h
  have hpack : bits.toBitVec = pack Format.binary64 (.infinity s) := by
    split at h
    · next he =>
        split at h
        · next hm =>
            cases h
            rw [hbits, he, hm]
            rfl
        · cases h
    · split at h
      · split at h <;> cases h
      · cases h
  congr 2
  rw [← hpack]

theorem not_minus_of_isDigit {c : Char} (h : c.isDigit) : c ≠ '-' := digit_ne h rfl

theorem signed_inj {negative negative' : Bool} {c c' : Char} {rest rest' : List Char}
    (hc : c ≠ '-') (hc' : c' ≠ '-')
    (h : signed negative (c :: rest) = signed negative' (c' :: rest')) :
    negative = negative' ∧ c :: rest = c' :: rest' := by
  unfold signed at h
  cases negative with
  | true =>
      cases negative' with
      | true => exact ⟨rfl, List.tail_eq_of_cons_eq h⟩
      | false => exact absurd (List.cons.inj h).1.symm hc'
  | false =>
      cases negative' with
      | true => exact absurd (List.cons.inj h).1 hc
      | false => exact ⟨rfl, h⟩

/-- What the text of a number shows, unless the number is undefined. -/
inductive Shown (x : Float) : Bool → List Char → Prop where
  | infinite (s : Sign) (h : x = Float.ofModel (.pack (.infinity s))) :
      Shown x (isNegative s) ['i', 'n', 'f']
  | finite (negative : Bool) (d : Decimal)
      (h : (if negative then -d.reduced.toFloat else d.reduced.toFloat) = x) :
      Shown x negative (literalSize d)

theorem exists_shown {x : Float} (h : x.isNaN = false) :
    ∃ negative chars, literalChars x = signed negative chars ∧ Shown x negative chars := by
  by_cases hfinite : x.isFinite = true
  · obtain ⟨negative, d, hform, hd⟩ := exists_reduced_form hfinite
    refine ⟨negative, literalSize d, ?_, .finite negative d hd⟩
    rw [literalChars, hform]
  · change x.toModel.unpack.isNaN = false at h
    change ¬ x.toModel.unpack.isFinite = true at hfinite
    cases hunpack : x.toModel.unpack with
    | infinity s =>
        refine ⟨isNegative s, _, ?_, .infinite s (eq_of_unpack_infinity hunpack)⟩
        rw [literalChars, form, hunpack]
    | notANumber =>
        rw [hunpack] at h
        cases h
    | zero s =>
        rw [hunpack] at hfinite
        exact absurd rfl hfinite
    | finite s m e pos =>
        rw [hunpack] at hfinite
        exact absurd rfl hfinite

theorem Shown.exists_first {x : Float} {negative : Bool} {chars : List Char}
    (h : Shown x negative chars) :
    ∃ c rest, chars = c :: rest ∧ c ≠ '-' ∧ (∀ c ∈ chars, isNumeral c = true) := by
  cases h with
  | infinite s h => exact ⟨_, _, rfl, by decide, by simp [Number.isNumeral]⟩
  | finite negative d h =>
      have hscaled := scaled_literalSize d
      obtain ⟨c, rest, hchars, hc⟩ := hscaled.exists_digit
      exact ⟨c, rest, hchars, not_minus_of_isDigit hc, hscaled.isNumeral⟩

theorem literalSize_ne_inf (d : Decimal) : literalSize d ≠ ['i', 'n', 'f'] := by
  intro heq
  obtain ⟨c, rest, hchars, hc⟩ := (scaled_literalSize d).exists_digit
  rw [heq] at hchars
  exact digit_ne hc rfl (List.cons.inj hchars).1.symm

theorem Shown.eq {x y : Float} {negative negative' : Bool} {chars chars' : List Char}
    (hx : Shown x negative chars) (hy : Shown y negative' chars') (hsign : negative = negative')
    (hchars : chars = chars') : x = y := by
  cases hx with
  | infinite s hx =>
      cases hy with
      | infinite s' hy =>
          have hsame : s = s' := by cases s <;> cases s' <;> first | rfl | cases hsign
          rw [hx, hy, hsame]
      | finite _ d hy => exact absurd hchars.symm (literalSize_ne_inf d)
  | finite _ d hx =>
      cases hy with
      | infinite s' hy => exact absurd hchars (literalSize_ne_inf d)
      | finite _ d' hy =>
          have hvalue : d.value = d'.value := by
            rw [← (scaled_literalSize d).scaledValue_eq, hchars,
              (scaled_literalSize d').scaledValue_eq]
          rw [← hx, ← hy, hsign, Decimal.reduced_eq_of_value hvalue]

theorem isNumeral_literalChars {x : Float} (h : x.isNaN = false) :
    ∀ c ∈ literalChars x, isNumeral c = true := by
  obtain ⟨negative, chars, hchars, hshown⟩ := exists_shown h
  obtain ⟨-, -, -, -, hnumerals⟩ := hshown.exists_first
  rw [hchars]
  cases negative with
  | true => exact List.forall_mem_cons.mpr ⟨rfl, hnumerals⟩
  | false => exact hnumerals

theorem exists_numeral {x : Float} (h : x.isNaN = false) :
    ∃ c rest, literalChars x = c :: rest ∧ isNumeral c = true := by
  have hnumerals := isNumeral_literalChars h
  obtain ⟨negative, chars, hchars, hshown⟩ := exists_shown h
  obtain ⟨c, rest, rfl, -⟩ := hshown.exists_first
  rw [hchars] at hnumerals ⊢
  cases negative with
  | true => exact ⟨_, _, rfl, rfl⟩
  | false => exact ⟨c, rest, rfl, hnumerals c List.mem_cons_self⟩

/-- Two numbers with one text are the same double. -/
theorem literalChars_inj {x y : Float} (hx : x.isNaN = false) (hy : y.isNaN = false)
    (h : literalChars x = literalChars y) : x = y := by
  obtain ⟨negative, chars, hchars, hshown⟩ := exists_shown hx
  obtain ⟨negative', chars', hchars', hshown'⟩ := exists_shown hy
  obtain ⟨c, rest, rfl, hc, -⟩ := hshown.exists_first
  obtain ⟨c', rest', rfl, hc', -⟩ := hshown'.exists_first
  rw [hchars, hchars'] at h
  obtain ⟨hsign, hsize⟩ := signed_inj hc hc' h
  exact hshown.eq hshown' hsign hsize

end Number

end Scriptlet

import Mathlib
import Scriptlet.Number.Text

/-!
# Doubles and their digits

A double is a sign, an exponent and a mantissa side by side. Taking one apart and putting it
together again changes nothing, and neither does rounding a number that a double can hold. So the
exact digits of a double are read as the double, and with them the shortest digits that its text
shows.
-/

namespace Scriptlet.Number

open Float.Model (UnpackedFloat Format totalExponent)
open Float.Model.UnpackedFloat

/-! ## Fields -/

section

variable {spec : Format}

theorem unpackSign_packComponents (s : Sign) (e : BitVec spec.exponentBits)
    (m : BitVec spec.mantissaBitsWithoutImplicit) :
    unpackSign (packComponents spec s e m) = s.toBitVec := by
  ext i hi
  obtain rfl : i = 0 := by omega
  have habove : ¬ spec.mantissaBitsWithoutImplicit + spec.exponentBits <
    spec.mantissaBitsWithoutImplicit := by omega
  simp [unpackSign, packComponents, BitVec.getLsbD_append, BitVec.getLsbD_eq_getElem,
    BitVec.getElem_append, habove]

theorem exists_packComponents (spec : Format) (b : BitVec spec.numBits) :
    ∃ s e m, b = packComponents spec s e m := by
  refine ⟨Sign.ofBitVec (unpackSign b), unpackExponent b, unpackMantissa b, ?_⟩
  have hsign : ∀ v : BitVec 1, (Sign.ofBitVec v).toBitVec = v := by decide
  have hs : unpackSign b =
      b.extractLsb' (spec.mantissaBitsWithoutImplicit + spec.exponentBits) 1 := by
    ext; simp [unpackSign]
  have he : unpackExponent b =
      b.extractLsb' spec.mantissaBitsWithoutImplicit spec.exponentBits := by
    ext; simp [unpackExponent]
  have hm : unpackMantissa b = b.extractLsb' 0 spec.mantissaBitsWithoutImplicit := by
    ext; simp [unpackMantissa]
  rw [packComponents, hsign, hs, he, hm,
    BitVec.extractLsb'_append_extractLsb'_eq_extractLsb' rfl,
    BitVec.extractLsb'_append_extractLsb'_eq_extractLsb' (Nat.zero_add _).symm]
  exact BitVec.extractLsb'_eq_self.symm

end

def ofFields (s : Sign) (e : BitVec 11) (m : BitVec 52) : UnpackedFloat :=
  unpack Format.binary64 (packComponents Format.binary64 s e m)

theorem toNat_one_append (m : BitVec 52) : (1#1 ++ m).toNat = 2 ^ 52 + m.toNat := by
  rw [BitVec.toNat_append, ← Nat.shiftLeft_add_eq_or_of_lt m.isLt]
  rfl

/-- The highest exponent marks what is not finite, and the lowest one the numbers whose mantissa has
no leading one. -/
theorem ofFields_eq (s : Sign) (e : BitVec 11) (m : BitVec 52) :
    ofFields s e m =
      if e = -1#11 then if m = 0#52 then .infinity s else .notANumber
      else if e = 0#11 then
        if h : m = 0#52 then .zero s
        else .finite s m.toNat (-1074) (by simpa [BitVec.toNat_pos, BitVec.pos_iff_ne_zero])
      else .finite s (2 ^ 52 + m.toNat) (e.toNat - 1075) (by omega) := by
  have hsign : Sign.ofBitVec s.toBitVec = s := by cases s <;> rfl
  simp only [ofFields, unpack, unpackSign_packComponents, unpackExponent_packComponents,
    unpackMantissa_packComponents, hsign, toNat_one_append]
  by_cases he : e = 0#11
  · subst he
    rfl
  · simp only [he, if_false]
    rfl

theorem log2_normal (m : BitVec 52) : (2 ^ 52 + m.toNat).log2 = 52 := by
  have hm := m.isLt
  rw [Nat.log2_eq_iff (by omega)]
  omega

theorem log2_subnormal {m : BitVec 52} (h : m ≠ 0#52) : m.toNat.log2 < 52 := by
  have hne : m.toNat ≠ 0 := fun hzero => h (BitVec.eq_of_toNat_eq hzero)
  exact (Nat.log2_lt hne).mpr m.isLt

section

variable (s : Sign) {e : BitVec 11} (m : BitVec 52)

theorem neg_ofFields : (ofFields s e m).neg = ofFields (-s) e m := by
  rw [ofFields_eq, ofFields_eq]
  split
  · split <;> rfl
  · split
    · split <;> rfl
    · rfl

theorem abs_ofFields : (ofFields s e m).abs = ofFields .positive e m := by
  rw [ofFields_eq, ofFields_eq]
  split
  · split <;> rfl
  · split
    · split <;> rfl
    · rfl

theorem pack_ofFields (he : e ≠ -1#11) :
    pack Format.binary64 (ofFields s e m) = packComponents Format.binary64 s e m := by
  have hrange : e.toNat < 2047 := by
    have hlt := e.isLt
    have hne : e.toNat ≠ 2047 := fun heq => he (BitVec.eq_of_toNat_eq heq)
    omega
  rw [ofFields_eq, if_neg he]
  by_cases hzero : e = 0#11
  · subst hzero
    rw [if_pos rfl]
    by_cases hm : m = 0#52
    · subst hm
      rfl
    · have hlog := log2_subnormal hm
      have hshort : ¬ m.toNat.log2 + 1 = Format.binary64.mantissaBits := by
        simp only [Format.mantissaBits]
        omega
      rw [dif_neg hm, pack]
      dsimp only
      rw [if_neg (by decide), if_neg hshort, BitVec.ofNat_toNat, BitVec.setWidth_eq]
  · have hbias : ((e.toNat : Int) - 1075 + (Format.exponentBias Format.binary64 : Int) +
        (52 : Nat)).toNat = e.toNat := by
      have hvalue : Format.exponentBias Format.binary64 = 1023 := by decide
      omega
    rw [if_neg hzero, pack]
    dsimp only
    rw [hbias, if_neg (by omega), log2_normal, if_pos (by decide)]
    congr 1
    · simp
    · apply BitVec.eq_of_toNat_eq
      simpa using m.isLt

end

/-! ## Rounding where nothing is lost -/

theorem targetExponent_eq (t : Int) : Format.binary64.targetExponent t = max (t - 53) (-1074) := rfl

/-- A mantissa with the exponent that the format asks for. -/
structure Canonical (m : Nat) (e : Int) : Prop where
  pos : 0 < m
  exponent : Format.binary64.targetExponent (totalExponent m e) = e

theorem canonical_of_ofFields {s s' : Sign} {e : BitVec 11} {m : BitVec 52} {mantissa : Nat}
    {exponent : Int} {pos : 0 < mantissa} (h : ofFields s e m = .finite s' mantissa exponent pos) :
    Canonical mantissa exponent := by
  rw [ofFields_eq] at h
  refine ⟨pos, ?_⟩
  rw [targetExponent_eq, totalExponent]
  split at h
  · split at h <;> cases h
  · split at h
    · split at h
      · cases h
      · next hm =>
          cases h
          have hlog := log2_subnormal hm
          omega
    · next hzero =>
        cases h
        have hpos : e.toNat ≠ 0 := fun heq => hzero (BitVec.eq_of_toNat_eq heq)
        rw [log2_normal]
        omega

theorem log2_mul_two_pow {m : Nat} (hm : m ≠ 0) (j : Nat) : (m * 2 ^ j).log2 = m.log2 + j := by
  induction j with
  | zero => rw [Nat.pow_zero, Nat.mul_one, Nat.add_zero]
  | succ j ih =>
      have hne : m * 2 ^ j ≠ 0 := Nat.mul_ne_zero hm (Nat.ne_of_gt (Nat.two_pow_pos j))
      have hdouble : m * 2 ^ (j + 1) = 2 * (m * 2 ^ j) := by
        rw [Nat.pow_succ]
        ac_rfl
      rw [hdouble, Nat.log2_two_mul hne, ih, Nat.add_assoc]

theorem log2_mul_le {m n : Nat} (hm : m ≠ 0) (hn : n ≠ 0) :
    (m * n).log2 ≤ m.log2 + n.log2 + 1 := by
  rw [← Nat.lt_add_one_iff, Nat.log2_lt (Nat.mul_ne_zero hm hn)]
  calc m * n < 2 ^ (m.log2 + 1) * 2 ^ (n.log2 + 1) :=
        Nat.mul_lt_mul'' Nat.lt_log2_self Nat.lt_log2_self
    _ = 2 ^ (m.log2 + n.log2 + 1 + 1) := by
        rw [← Nat.pow_add]
        congr 1
        omega

/-- Zeros that are shifted out leave no trace in the residual bits. -/
theorem shiftRight_exact (m i j : Nat) :
    (⟨m * 2 ^ (i + j), false, false⟩ : ExtendedMantissa) >>> j = ⟨m * 2 ^ i, false, false⟩ := by
  induction j generalizing i with
  | zero => rfl
  | succ j ih =>
      have hstep : (⟨m * 2 ^ (i + (j + 1)), false, false⟩ : ExtendedMantissa) >>> (j + 1) =
          ExtendedMantissa.shiftRightOne
            ((⟨m * 2 ^ (i + 1 + j), false, false⟩ : ExtendedMantissa) >>> j) := by
        rw [show i + (j + 1) = i + 1 + j by omega]
        rfl
      rw [hstep, ih, ExtendedMantissa.shiftRightOne, Nat.pow_succ, ← Nat.mul_assoc]
      simp

namespace Canonical

variable {m : Nat} {e : Int} (h : Canonical m e)

include h

theorem shift (j : Nat) :
    shiftToTargetExponent Format.binary64 (m * 2 ^ j) (e - j) .exact = (⟨m, false, false⟩, e) := by
  have htotal : totalExponent (m * 2 ^ j) (e - j) = totalExponent m e := by
    rw [totalExponent, totalExponent, log2_mul_two_pow (Nat.ne_of_gt h.pos)]
    omega
  have hamount : (e - (e - j)).toNat = j := by omega
  have hback : e - j + j = e := by omega
  have hshift := shiftRight_exact m 0 j
  rw [Nat.zero_add, Nat.pow_zero, Nat.mul_one] at hshift
  rw [shiftToTargetExponent, htotal, h.exponent, shiftToExponent, hamount, hback]
  exact congrArg (·, e) hshift

theorem roundWithAccuracy (s : Sign) (j : Nat) :
    roundWithAccuracy Format.binary64 s (m * 2 ^ j) (e - j) .exact = .finite s m e h.pos := by
  have hsecond := h.shift 0
  rw [Nat.pow_zero, Nat.mul_one, Int.natCast_zero, Int.sub_zero] at hsecond
  have hrounded : ExtendedMantissa.roundedMantissa ⟨m, false, false⟩ = m := rfl
  unfold UnpackedFloat.roundWithAccuracy
  rw [h.shift j]
  dsimp only
  rw [hrounded, hsecond]
  exact dif_neg (Nat.ne_of_gt h.pos)

end Canonical

/-- A mantissa over a power of two, written over a power of ten. The division asks for an exponent
low enough for all digits of the mantissa, so that it has no remainder. -/
theorem div_canonical {m k n s : Nat} (h : Canonical m (-(k : Int)))
    (hvalue : n * 2 ^ k = m * 10 ^ s)
    (pos : 0 < n) (pos' : 0 < 10 ^ s) :
    div Format.binary64 (.finite .positive n 0 pos) (.finite .positive (10 ^ s) 0 pos') =
      .finite .positive m (-(k : Int)) h.pos := by
  have hlog : n.log2 + k ≤ m.log2 + (10 ^ s).log2 + 1 := by
    rw [← log2_mul_two_pow (Nat.ne_of_gt pos), hvalue]
    exact log2_mul_le (Nat.ne_of_gt h.pos) (Nat.ne_of_gt pos')
  have hexponent := h.exponent
  rw [targetExponent_eq, totalExponent] at hexponent
  obtain ⟨j, hj⟩ : ∃ j : Nat, min (0 - 0 : Int) (Format.binary64.targetExponent
      (totalExponent n 0 - totalExponent (10 ^ s) 0)) = -(k : Int) - j := by
    rw [targetExponent_eq, totalExponent, totalExponent]
    refine ⟨(-(k : Int) - min (0 - 0) (max ((n.log2 : Int) + 1 + 0 -
      (((10 ^ s).log2 : Int) + 1 + 0) - 53) (-1074))).toNat, ?_⟩
    omega
  have hamount : (0 - 0 - (-(k : Int) - j)).toNat = k + j := by omega
  have hshifted : n <<< (k + j) = m * 2 ^ j * 10 ^ s := by
    have hsplit : 2 ^ (k + j) = 2 ^ k * 2 ^ j := Nat.pow_add 2 k j
    rw [Nat.shiftLeft_eq, hsplit, ← Nat.mul_assoc, hvalue]
    ac_rfl
  have hcore : divCore Format.binary64 n 0 (10 ^ s) 0 = (m * 2 ^ j, -(k : Int) - j, .exact) := by
    rw [divCore, hj, hamount, hshifted, Nat.mul_div_cancel _ pos', Nat.mul_mod_left]
    rfl
  rw [div, hcore]
  exact h.roundWithAccuracy .positive j

theorem ofScientific_whole {n : Nat} (hn : n ≠ 0) :
    ofScientific Format.binary64 n (-(0 : Nat)) =
      roundWithAccuracy Format.binary64 .positive (n * 2 ^ 53) (-53) .exact := by
  have hsmall : ¬ (-((0 : Nat) : Int) < -((2 ^ 11 : Int) + n.log2)) := by omega
  have hmantissa : n <<< Format.binary64.mantissaBits * 10 ^ (-((0 : Nat) : Int)).toNat =
      n * 2 ^ 53 := by
    rw [Nat.shiftLeft_eq]
    exact Nat.mul_one _
  rw [ofScientific, dif_neg hn, if_neg (by decide), if_neg hsmall, if_pos (by decide), mul,
    hmantissa]
  rfl

theorem ofScientific_fraction {n k : Nat} (hn : 0 < n) (hk : k ≠ 0) (hleast : k ≤ 1074) :
    ofScientific Format.binary64 n (-(k : Int)) =
      div Format.binary64 (.finite .positive n 0 hn)
        (.finite .positive (10 ^ k) 0 (Nat.pow_pos (by decide))) := by
  have hlarge : ¬ (-(k : Int) > 2 ^ 11) := by omega
  have hsmall : ¬ (-(k : Int) < -((2 ^ 11 : Int) + n.log2)) := by omega
  have hsign : ¬ (0 ≤ -(k : Int)) := by omega
  have hback : (-(-(k : Int))).toNat = k := by omega
  rw [ofScientific, dif_neg (Nat.ne_of_gt hn), if_neg hlarge, if_neg hsmall, if_neg hsign]
  simp only [hback]

end Scriptlet.Number

namespace Scriptlet.Decimal

open Scriptlet.Number (Canonical targetExponent_eq ofScientific_whole ofScientific_fraction
  div_canonical)

variable {m : Nat} {e : Int}

theorem toFloat_ofDyadic (h : Canonical m e) :
    (ofDyadic m e).toFloat = Float.ofModel (.pack (.finite .positive m e h.pos)) := by
  unfold ofDyadic toFloat Float.Model.ofScientific
  congr 2
  by_cases he : 0 ≤ e
  · obtain ⟨k, rfl⟩ := Int.eq_ofNat_of_zero_le he
    have hdigits : m * 2 ^ k ≠ 0 :=
      Nat.mul_ne_zero (Nat.ne_of_gt h.pos) (Nat.ne_of_gt (Nat.two_pow_pos k))
    have hround := h.roundWithAccuracy .positive (k + 53)
    rw [Nat.pow_add, ← Nat.mul_assoc, show (k : Int) - (k + 53 : Nat) = -53 by omega] at hround
    rw [if_pos he, Int.toNat_natCast, Nat.shiftLeft_eq, ofScientific_whole hdigits, hround]
  · obtain ⟨k, rfl⟩ : ∃ k : Nat, e = -(k : Int) := ⟨(-e).toNat, by omega⟩
    have hdigits : 0 < m * 5 ^ k := Nat.mul_pos h.pos (Nat.pow_pos (by decide))
    have hleast : -1074 ≤ -(k : Int) := by
      rw [← h.exponent, targetExponent_eq]
      omega
    have hfraction := ofScientific_fraction hdigits (k := k) (by omega) (by omega)
    have hvalue : m * 5 ^ k * 2 ^ k = m * 10 ^ k := by rw [Nat.mul_assoc, ← Nat.mul_pow]
    rw [if_neg he, show (-(-(k : Int))).toNat = k by omega]
    exact hfraction.trans (div_canonical h hvalue _ _)

/-- The search takes only digits that are read back, and the exact digits are read back anyway. -/
theorem toFloat_shortestOf (h : Canonical m e) :
    let x := Float.ofModel (.pack (.finite .positive m e h.pos))
    (shortestOf x m e).toFloat = x := by
  intro x
  unfold shortestOf
  dsimp only
  generalize hfound : List.findSome? _ _ = found
  cases found with
  | none => exact toFloat_ofDyadic h
  | some d =>
      obtain ⟨n, -, hd⟩ := List.exists_of_findSome?_eq_some hfound
      have hbits := List.find?_some hd
      rw [beq_iff_eq, Float.toBits, Float.toBits] at hbits
      exact congrArg Float.ofModel (Float.Model.mk.injEq .. ▸ hbits)

end Scriptlet.Decimal

/-! ## The digits that are shown -/

namespace Scriptlet.Number

open Float.Model (UnpackedFloat Format)
open Float.Model.UnpackedFloat

def double (s : Sign) (e : BitVec 11) (m : BitVec 52) : Float :=
  Float.ofModel (.pack (ofFields s e m))

theorem exists_double {x : Float} (h : x.isFinite = true) :
    ∃ s e m, e ≠ -1#11 ∧ x = double s e m := by
  obtain ⟨⟨bits, valid⟩⟩ := x
  obtain ⟨s, e, m, hbits⟩ := exists_packComponents Format.binary64 bits.toBitVec
  change (unpack Format.binary64 bits.toBitVec).isFinite = true at h
  have he : e ≠ -1#11 := by
    rintro rfl
    rw [hbits, ← ofFields, ofFields_eq, if_pos rfl] at h
    split at h <;> cases h
  have hpack : pack Format.binary64 (ofFields s e m) = bits.toBitVec := by
    rw [pack_ofFields s m he, hbits]
  refine ⟨s, e, m, he, ?_⟩
  unfold double
  congr 2
  rw [hpack]

/-- Whether the sign bit is set, as it also is for negative zero. -/
def signBit (x : Float) : Bool := x.toBits.toBitVec.msb

section

variable (s : Sign) {e : BitVec 11} (he : e ≠ -1#11) (m : BitVec 52)

include he

theorem signBit_double : signBit (double s e m) = isNegative s := by
  show (pack Format.binary64 (ofFields s e m)).msb = _
  rw [pack_ofFields s m he, packComponents, BitVec.msb_append, BitVec.msb_append]
  cases s <;> rfl

theorem unpack_double : (double s e m).toModel.unpack = ofFields s e m := by
  show unpack Format.binary64 (pack Format.binary64 (ofFields s e m)) = _
  rw [pack_ofFields s m he]
  rfl

theorem neg_double : -double s e m = double (-s) e m := by
  show Float.ofModel (.pack (double s e m).toModel.unpack.neg) = _
  rw [unpack_double s he, neg_ofFields]
  rfl

/-- A finite number is shown as zero, or with the shortest digits of its mantissa and exponent. -/
theorem form_double_cases :
    (form (double s e m) = .finite ⟨isNegative s, ⟨0, 0⟩⟩ ∧
        Decimal.toFloat ⟨0, 0⟩ = double .positive e m) ∨
      ∃ mantissa exponent, ∃ h : Canonical mantissa exponent,
        double .positive e m = Float.ofModel (.pack (.finite .positive mantissa exponent h.pos)) ∧
        form (double s e m) = .finite ⟨isNegative s,
          Decimal.shortestOf (double .positive e m) mantissa exponent⟩ := by
  have hsize : double .positive e m = Float.ofModel (.pack (ofFields s e m).abs) := by
    rw [abs_ofFields, double]
  have hfields := ofFields_eq s e m
  rw [if_neg he] at hfields
  unfold form
  rw [unpack_double s he, hsize]
  split at hfields
  · split at hfields
    · rw [hfields]
      exact .inl ⟨rfl, rfl⟩
    · have hcanonical := canonical_of_ofFields hfields
      rw [hfields]
      exact .inr ⟨_, _, hcanonical, rfl, rfl⟩
  · have hcanonical := canonical_of_ofFields hfields
    rw [hfields]
    exact .inr ⟨_, _, hcanonical, rfl, rfl⟩

theorem form_double :
    ∃ d : Decimal, form (double s e m) = .finite ⟨isNegative s, d⟩ ∧
      d.toFloat = double .positive e m := by
  rcases form_double_cases s he m with ⟨hform, hzero⟩ | ⟨mantissa, exponent, h, hsize, hform⟩
  · exact ⟨_, hform, hzero⟩
  · refine ⟨_, hform, ?_⟩
    rw [hsize]
    exact Decimal.toFloat_shortestOf h

end

/-- A finite number is shown as its sign and a fraction. The double nearest to the fraction is the
number, up to the sign. -/
theorem exists_form {x : Float} (h : x.isFinite = true) :
    ∃ d, form x = .finite ⟨signBit x, d⟩ ∧
      (if signBit x then -d.toFloat else d.toFloat) = x := by
  obtain ⟨s, e, m, he, rfl⟩ := exists_double h
  obtain ⟨d, hform, hsize⟩ := form_double s he m
  rw [signBit_double s he]
  refine ⟨d, hform, ?_⟩
  rw [hsize]
  cases s with
  | positive => rfl
  | negative => exact neg_double .positive he m

end Scriptlet.Number

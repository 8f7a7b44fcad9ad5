import Scriptlet.Text.Utf8

/-!
# Encoded text is decoded

The decoder reads one byte at a time. Over the bytes of one character it collects the bits of that
character and nothing else, so a text that was encoded is decoded to itself.
-/

namespace Scriptlet

theorem forall_byte {P : UInt8 → Prop} (h : ∀ n < 256, P (UInt8.ofNat n)) (b : UInt8) : P b := by
  have hb := h b.toNat (UInt8.toNat_lt b)
  rwa [UInt8.ofNat_toNat] at hb

namespace Utf8

/-! ## First bytes -/

theorem lead_ascii : ∀ b : UInt8, b.toNat < 0x80 → lead b = .ascii :=
  forall_byte (by decide +kernel)

theorem lead_two : ∀ b : UInt8, 0xC2 ≤ b.toNat ∧ b.toNat < 0xE0 →
    lead b = .opens 1 0x80 0xBF (b.toNat - 0xC0) :=
  forall_byte (by decide +kernel)

/-- The range of the second byte keeps out what has a shorter form, and surrogates. -/
theorem lead_three : ∀ b : UInt8, 0xE0 ≤ b.toNat ∧ b.toNat < 0xF0 →
    lead b = .opens 2 (if b.toNat = 0xE0 then 0xA0 else 0x80)
      (if b.toNat = 0xED then 0x9F else 0xBF) (b.toNat - 0xE0) :=
  forall_byte (by decide +kernel)

/-- The range of the second byte keeps out what has a shorter form, and what is no character. -/
theorem lead_four : ∀ b : UInt8, 0xF0 ≤ b.toNat ∧ b.toNat < 0xF5 →
    lead b = .opens 3 (if b.toNat = 0xF0 then 0x90 else 0x80)
      (if b.toNat = 0xF4 then 0x8F else 0xBF) (b.toNat - 0xF0) :=
  forall_byte (by decide +kernel)

/-! ## Steps -/

variable {offset : Nat} {b : UInt8} {rest : List UInt8}

theorem piecesFrom_ascii (h : b.toNat < 0x80) :
    piecesFrom offset none (b :: rest) =
      .char (Char.ofNat b.toNat) :: piecesFrom (offset + 1) none rest := by
  simp [piecesFrom, step, start, lead_ascii b h]

theorem piecesFrom_opens {owed bits : Nat} {low high : UInt8}
    (h : lead b = .opens owed low high bits) :
    piecesFrom offset none (b :: rest) =
      piecesFrom (offset + 1) (some ⟨b, offset, 1, owed, low, high, bits⟩) rest := by
  simp [piecesFrom, step, start, h]

theorem piecesFrom_resume {p : Partial} (h : 1 < p.owed)
    (hrange : p.low.toNat ≤ b.toNat ∧ b.toNat ≤ p.high.toNat) :
    piecesFrom offset (some p) (b :: rest) =
      piecesFrom (offset + 1)
        (some ⟨p.first, p.offset, p.taken + 1, p.owed - 1, 0x80, 0xBF,
          p.bits * 64 + (b.toNat - 0x80)⟩) rest := by
  have hlow : p.low ≤ b := UInt8.le_iff_toNat_le.mpr hrange.1
  have hhigh : b ≤ p.high := UInt8.le_iff_toNat_le.mpr hrange.2
  simp [piecesFrom, step, resume, hlow, hhigh, Nat.not_le.mpr h]

theorem piecesFrom_last {p : Partial} (h : p.owed ≤ 1)
    (hrange : p.low.toNat ≤ b.toNat ∧ b.toNat ≤ p.high.toNat) :
    piecesFrom offset (some p) (b :: rest) =
      .char (Char.ofNat (p.bits * 64 + (b.toNat - 0x80))) :: piecesFrom (offset + 1) none rest := by
  have hlow : p.low ≤ b := UInt8.le_iff_toNat_le.mpr hrange.1
  have hhigh : b ≤ p.high := UInt8.le_iff_toNat_le.mpr hrange.2
  simp [piecesFrom, step, resume, hlow, hhigh, h]

/-! ## Characters -/

theorem toNat_byte {n : Nat} (h : n < 256) : (UInt8.ofNat n).toNat = n := by
  rw [UInt8.toNat_ofNat', Nat.mod_eq_of_lt h]

/-- The range of a byte that has no narrower one. -/
theorem tail_range {n : Nat} (h : n < 0x40) :
    (0x80 : UInt8).toNat ≤ (UInt8.ofNat (n + 0x80)).toNat ∧
      (UInt8.ofNat (n + 0x80)).toNat ≤ (0xBF : UInt8).toNat := by
  rw [toNat_byte (by omega)]
  exact ⟨Nat.le_add_left _ _, by show _ ≤ 0xBF; omega⟩

theorem piecesFrom_two {v : Nat} (h : 0x80 ≤ v) (h' : v < 0x800) :
    piecesFrom offset none
        (UInt8.ofNat (v / 64 % 0x20 + 0xC0) :: UInt8.ofNat (v % 0x40 + 0x80) :: rest) =
      .char (Char.ofNat v) :: piecesFrom (offset + 2) none rest := by
  have first := toNat_byte (n := v / 64 % 0x20 + 0xC0) (by omega)
  have second := toNat_byte (n := v % 0x40 + 0x80) (by omega)
  rw [piecesFrom_opens (lead_two _ (by omega)),
    piecesFrom_last (Nat.le_refl 1) (tail_range (by omega))]
  have hbits : ((UInt8.ofNat (v / 64 % 0x20 + 0xC0)).toNat - 0xC0) * 64 +
      ((UInt8.ofNat (v % 0x40 + 0x80)).toNat - 0x80) = v := by
    omega
  rw [hbits]

theorem piecesFrom_three {v : Nat} (h : 0x800 ≤ v) (h' : v < 0x10000)
    (hvalid : v < 0xD800 ∨ 0xDFFF < v) :
    piecesFrom offset none
        (UInt8.ofNat (v / 4096 % 0x10 + 0xE0) :: UInt8.ofNat (v / 64 % 0x40 + 0x80) ::
          UInt8.ofNat (v % 0x40 + 0x80) :: rest) =
      .char (Char.ofNat v) :: piecesFrom (offset + 3) none rest := by
  have first := toNat_byte (n := v / 4096 % 0x10 + 0xE0) (by omega)
  have second := toNat_byte (n := v / 64 % 0x40 + 0x80) (by omega)
  have third := toNat_byte (n := v % 0x40 + 0x80) (by omega)
  rw [piecesFrom_opens (lead_three _ (by omega)), piecesFrom_resume (by show 1 < 2; omega),
    piecesFrom_last (Nat.le_refl 1) (tail_range (by omega))]
  · have hbits : (((UInt8.ofNat (v / 4096 % 0x10 + 0xE0)).toNat - 0xE0) * 64 +
        ((UInt8.ofNat (v / 64 % 0x40 + 0x80)).toNat - 0x80)) * 64 +
        ((UInt8.ofNat (v % 0x40 + 0x80)).toNat - 0x80) = v := by
      omega
    rw [hbits]
  · rw [first, second]
    constructor
    · show UInt8.toNat (if _ then _ else _) ≤ _
      split
      · show 0xA0 ≤ _
        omega
      · exact Nat.le_add_left _ _
    · show _ ≤ UInt8.toNat (if _ then _ else _)
      split
      · show _ ≤ 0x9F
        omega
      · show _ ≤ 0xBF
        omega

theorem piecesFrom_four {v : Nat} (h : 0x10000 ≤ v) (h' : v < 0x110000) :
    piecesFrom offset none
        (UInt8.ofNat (v / 262144 % 0x08 + 0xF0) :: UInt8.ofNat (v / 4096 % 0x40 + 0x80) ::
          UInt8.ofNat (v / 64 % 0x40 + 0x80) :: UInt8.ofNat (v % 0x40 + 0x80) :: rest) =
      .char (Char.ofNat v) :: piecesFrom (offset + 4) none rest := by
  have first := toNat_byte (n := v / 262144 % 0x08 + 0xF0) (by omega)
  have second := toNat_byte (n := v / 4096 % 0x40 + 0x80) (by omega)
  have third := toNat_byte (n := v / 64 % 0x40 + 0x80) (by omega)
  have fourth := toNat_byte (n := v % 0x40 + 0x80) (by omega)
  rw [piecesFrom_opens (lead_four _ (by omega)), piecesFrom_resume (by show 1 < 3; omega),
    piecesFrom_resume (by show 1 < 2; omega) (tail_range (by omega)),
    piecesFrom_last (Nat.le_refl 1) (tail_range (by omega))]
  · have hbits : ((((UInt8.ofNat (v / 262144 % 0x08 + 0xF0)).toNat - 0xF0) * 64 +
        ((UInt8.ofNat (v / 4096 % 0x40 + 0x80)).toNat - 0x80)) * 64 +
        ((UInt8.ofNat (v / 64 % 0x40 + 0x80)).toNat - 0x80)) * 64 +
        ((UInt8.ofNat (v % 0x40 + 0x80)).toNat - 0x80) = v := by
      omega
    rw [hbits]
  · rw [first, second]
    constructor
    · show UInt8.toNat (if _ then _ else _) ≤ _
      split
      · show 0x90 ≤ _
        omega
      · exact Nat.le_add_left _ _
    · show _ ≤ UInt8.toNat (if _ then _ else _)
      split
      · show _ ≤ 0x8F
        omega
      · show _ ≤ 0xBF
        omega

theorem piecesFrom_encodeChar (c : Char) (offset : Nat) (rest : List UInt8) :
    ∃ later, piecesFrom offset none (String.utf8EncodeChar c ++ rest) =
      .char c :: piecesFrom later none rest := by
  have hvalid : c.val.toNat < 0xD800 ∨ (0xDFFF < c.val.toNat ∧ c.val.toNat < 0x110000) := c.valid
  have hchar : Char.ofNat c.val.toNat = c := Char.ofNat_toNat c
  unfold String.utf8EncodeChar
  dsimp only
  generalize c.val.toNat = v at hvalid hchar ⊢
  subst hchar
  split
  · refine ⟨offset + 1, ?_⟩
    have hv := toNat_byte (n := v) (by omega)
    have hread : piecesFrom offset none (UInt8.ofNat v :: rest) = _ := piecesFrom_ascii (by omega)
    rwa [hv] at hread
  · split
    · exact ⟨_, piecesFrom_two (by omega) (by omega)⟩
    · split
      · exact ⟨_, piecesFrom_three (by omega) (by omega) (by omega)⟩
      · exact ⟨_, piecesFrom_four (by omega) (by omega)⟩

/-- A text that was encoded is decoded to itself. -/
theorem decodeLossy_encode (text : String) : decodeLossy (encode text) = text := by
  have hchars : ∀ (chars : List Char) (offset : Nat),
      (piecesFrom offset none (chars.flatMap String.utf8EncodeChar)).map Piece.lossy = chars := by
    intro chars
    induction chars with
    | nil => exact fun _ => rfl
    | cons c chars ih =>
        intro offset
        obtain ⟨later, hread⟩ := piecesFrom_encodeChar c offset
          (chars.flatMap String.utf8EncodeChar)
        rw [List.flatMap_cons, hread, List.map_cons, ih later]
        rfl
  unfold decodeLossy encode pieces
  rw [hchars, String.ofList_toList]

theorem decode_encode (text : String) : decode (encode text) = .ok text := by
  have hchars : ∀ (chars : List Char) (offset : Nat),
      collect (piecesFrom offset none (chars.flatMap String.utf8EncodeChar)) = .ok chars := by
    intro chars
    induction chars with
    | nil => exact fun _ => rfl
    | cons c chars ih =>
        intro offset
        obtain ⟨later, hread⟩ := piecesFrom_encodeChar c offset
          (chars.flatMap String.utf8EncodeChar)
        rw [List.flatMap_cons, hread, collect, ih later]
  unfold decode encode pieces
  rw [hchars]
  simp only [String.ofList_toList]

/-! ## Bytes of a text -/

@[simp] theorem encode_append (first second : String) :
    encode (first ++ second) = encode first ++ encode second := by
  simp [encode]

theorem encodeChar_ascii {c : Char} (h : c.toNat < 0x80) :
    String.utf8EncodeChar c = [UInt8.ofNat c.toNat] := by
  unfold String.utf8EncodeChar
  exact if_pos (Nat.le_of_lt_succ h)

theorem encode_ascii {chars : List Char} (h : ∀ c ∈ chars, c.toNat < 0x80) :
    encode (String.ofList chars) = chars.map fun c => UInt8.ofNat c.toNat := by
  unfold encode
  rw [String.toList_ofList]
  induction chars with
  | nil => rfl
  | cons c chars ih =>
      obtain ⟨hc, hchars⟩ := List.forall_mem_cons.mp h
      rw [List.flatMap_cons, encodeChar_ascii hc, ih hchars, List.map_cons, List.singleton_append]

/-- Only a character below `0x80` has a byte below `0x80`, and it is the character itself. -/
theorem mem_encodeChar {c : Char} {b : UInt8} (hb : b ∈ String.utf8EncodeChar c)
    (h : b.toNat < 0x80) : c.toNat = b.toNat := by
  have hvalid : c.val.toNat < 0xD800 ∨ (0xDFFF < c.val.toNat ∧ c.val.toNat < 0x110000) := c.valid
  -- The bytes of all longer forms are marked by their highest bit.
  have hmarked : ∀ n k, 0x80 ≤ k → n + k < 256 → b ≠ UInt8.ofNat (n + k) := by
    rintro n k hk hlt rfl
    rw [toNat_byte hlt] at h
    omega
  change c.val.toNat = b.toNat
  unfold String.utf8EncodeChar at hb
  dsimp only at hb
  generalize c.val.toNat = v at hvalid hb ⊢
  split at hb
  · obtain rfl := List.mem_singleton.mp hb
    exact (toNat_byte (by omega)).symm
  · exfalso
    split at hb
    · simp only [List.mem_cons, List.not_mem_nil, or_false] at hb
      rcases hb with hb | hb <;> exact hmarked _ _ (by decide) (by omega) hb
    · split at hb
      · simp only [List.mem_cons, List.not_mem_nil, or_false] at hb
        rcases hb with hb | hb | hb <;> exact hmarked _ _ (by decide) (by omega) hb
      · simp only [List.mem_cons, List.not_mem_nil, or_false] at hb
        rcases hb with hb | hb | hb | hb <;> exact hmarked _ _ (by decide) (by omega) hb

/-! ## Bytes of ASCII -/

/-- The bytes that may go on with a character are none of ASCII. -/
def Partial.IsHigh (p : Partial) : Prop := 0x80 ≤ p.low.toNat

theorem high_of_lead {b : UInt8} {owed bits : Nat} {low high : UInt8}
    (h : lead b = .opens owed low high bits) : 0x80 ≤ low.toNat := by
  unfold lead at h
  repeat' split at h
  all_goals cases h
  all_goals decide

theorem isHigh_of_start {offset : Nat} {b : UInt8} {p : Partial}
    (h : (start offset b).2 = some p) : p.IsHigh := by
  unfold start at h
  cases hlead : lead b with
  | ascii => rw [hlead] at h; cases h
  | bad => rw [hlead] at h; cases h
  | opens owed low high bits =>
      rw [hlead] at h
      cases h
      exact high_of_lead hlead

theorem isHigh_of_step {offset : Nat} {b : UInt8} {state : Option Partial} {p : Partial}
    (h : (step offset b state).2 = some p) : p.IsHigh := by
  cases state with
  | none => exact isHigh_of_start h
  | some q =>
      simp only [step, resume] at h
      split at h
      · split at h
        · cases h
        · cases h
          show 0x80 ≤ (0x80 : UInt8).toNat
          decide
      · exact isHigh_of_start h

theorem mem_step {b : UInt8} (ascii : b.toNat < 0x80) (offset : Nat) {state : Option Partial}
    (hstate : ∀ p ∈ state, p.IsHigh) :
    .char (Char.ofNat b.toNat) ∈ (step offset b state).1 := by
  have hstart : (start offset b).1 = [.char (Char.ofNat b.toNat)] := by
    simp only [start, lead_ascii b ascii]
  cases state with
  | none =>
      rw [step, hstart]
      exact List.mem_cons_self
  | some p =>
      have outside : ¬(p.low ≤ b ∧ b ≤ p.high) := by
        intro inside
        have low := UInt8.le_iff_toNat_le.mp inside.1
        have high : 0x80 ≤ p.low.toNat := hstate p rfl
        omega
      simp only [step, resume, if_neg outside, hstart]
      exact List.mem_cons_of_mem _ List.mem_cons_self

theorem mem_piecesFrom {b : UInt8} (ascii : b.toNat < 0x80) {bytes : List UInt8} (hb : b ∈ bytes)
    (offset : Nat) {state : Option Partial} (hstate : ∀ p ∈ state, p.IsHigh) :
    .char (Char.ofNat b.toNat) ∈ piecesFrom offset state bytes := by
  induction bytes generalizing offset state with
  | nil => cases hb
  | cons x rest ih =>
      rw [piecesFrom, List.mem_append]
      rcases List.mem_cons.mp hb with rfl | hrest
      · exact .inl (mem_step ascii offset hstate)
      · exact .inr (ih hrest (offset + 1) fun p hp => isHigh_of_step hp)

/-- A byte of ASCII is read as its character, wherever it stands. -/
theorem mem_decodeLossy {b : UInt8} (ascii : b.toNat < 0x80) {bytes : List UInt8} (hb : b ∈ bytes) :
    Char.ofNat b.toNat ∈ (decodeLossy bytes).toList := by
  unfold decodeLossy pieces
  rw [String.toList_ofList]
  exact List.mem_map.mpr ⟨_, mem_piecesFrom ascii hb 0 (fun p hp => nomatch hp), rfl⟩

end Utf8

end Scriptlet

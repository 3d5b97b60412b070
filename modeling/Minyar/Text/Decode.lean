import Minyar.Library.Utf8

/-!
# Decoding one character

`decodeCharacter` reads the first character of the bytes that are left of a Text.  On the encoding of
a sequence of scalars it returns the first scalar and the number of its bytes.
-/

namespace Minyar

/-- The stop of a position outside a Text. -/
def positionOutsideText : String := "a Text position was outside the Text."

/-- The stop of bytes that are not UTF-8. -/
def invalidUtf8 : String := "Text contained invalid UTF-8."

/-- A byte of the bytes that are left, as an unsigned number. -/
def byteAt (bytes : List UInt8) (position : ℕ) : ℕ := (bytes.getD position 0).toNat

/-- `decode_character`: the first character of the bytes that are left, and its width. -/
def decodeCharacter (bytes : List UInt8) : Except String (ℕ × ℕ) :=
  if bytes.length = 0 then .error positionOutsideText
  else
    let first := byteAt bytes 0
    if first < 0x80 then .ok (first, 1)
    else if 0xc2 ≤ first ∧ first ≤ 0xdf ∧ 2 ≤ bytes.length ∧
        byteAt bytes 1 &&& 0xc0 = 0x80 then
      .ok ((first &&& 0x1f) <<< 6 ||| byteAt bytes 1 &&& 0x3f, 2)
    else if first &&& 0xf0 = 0xe0 ∧ 3 ≤ bytes.length ∧
        byteAt bytes 1 &&& 0xc0 = 0x80 ∧ byteAt bytes 2 &&& 0xc0 = 0x80 ∧
        (first ≠ 0xe0 ∨ 0xa0 ≤ byteAt bytes 1) ∧ (first ≠ 0xed ∨ byteAt bytes 1 < 0xa0) then
      .ok ((first &&& 0x0f) <<< 12 ||| (byteAt bytes 1 &&& 0x3f) <<< 6 |||
        byteAt bytes 2 &&& 0x3f, 3)
    else if 0xf0 ≤ first ∧ first ≤ 0xf4 ∧ 4 ≤ bytes.length ∧
        byteAt bytes 1 &&& 0xc0 = 0x80 ∧ byteAt bytes 2 &&& 0xc0 = 0x80 ∧
        byteAt bytes 3 &&& 0xc0 = 0x80 ∧
        (first ≠ 0xf0 ∨ 0x90 ≤ byteAt bytes 1) ∧ (first ≠ 0xf4 ∨ byteAt bytes 1 < 0x90) then
      .ok ((first &&& 0x07) <<< 18 ||| (byteAt bytes 1 &&& 0x3f) <<< 12 |||
        (byteAt bytes 2 &&& 0x3f) <<< 6 ||| byteAt bytes 3 &&& 0x3f, 4)
    else .error invalidUtf8

/-! ## Masks as remainders -/

theorem and_c0_eq_iff {n : ℕ} (h : n < 256) : n &&& 0xc0 = 0x80 ↔ 0x80 ≤ n ∧ n < 0xc0 := by
  have hall : ∀ n < 256, n &&& 0xc0 = 0x80 ↔ 0x80 ≤ n ∧ n < 0xc0 := by decide +kernel
  exact hall n h

theorem and_f0_eq_iff {n : ℕ} (h : n < 256) : n &&& 0xf0 = 0xe0 ↔ 0xe0 ≤ n ∧ n < 0xf0 := by
  have hall : ∀ n < 256, n &&& 0xf0 = 0xe0 ↔ 0xe0 ≤ n ∧ n < 0xf0 := by decide +kernel
  exact hall n h

/-- A tail of six bits. -/
theorem shiftLeft_six_or (high low : ℕ) : high <<< 6 ||| low &&& 0x3f = high * 64 + low % 64 := by
  rw [Nat.and_two_pow_sub_one_eq_mod low 6,
    ← Nat.shiftLeft_add_eq_or_of_lt (Nat.mod_lt _ (by decide)) high, Nat.shiftLeft_eq]

/-- The value of two bytes. -/
theorem assemble_two (first second : ℕ) :
    (first &&& 0x1f) <<< 6 ||| second &&& 0x3f = first % 32 * 64 + second % 64 := by
  rw [shiftLeft_six_or, Nat.and_two_pow_sub_one_eq_mod first 5]

/-- The value of three bytes. -/
theorem assemble_three (first second third : ℕ) :
    (first &&& 0x0f) <<< 12 ||| (second &&& 0x3f) <<< 6 ||| third &&& 0x3f =
      (first % 16 * 64 + second % 64) * 64 + third % 64 := by
  have hshift : (first &&& 0x0f) <<< 12 = ((first &&& 0x0f) <<< 6) <<< 6 := by
    rw [← Nat.shiftLeft_add]
  rw [hshift, ← Nat.shiftLeft_or_distrib, shiftLeft_six_or, shiftLeft_six_or,
    Nat.and_two_pow_sub_one_eq_mod first 4]

/-- The value of four bytes. -/
theorem assemble_four (first second third fourth : ℕ) :
    (first &&& 0x07) <<< 18 ||| (second &&& 0x3f) <<< 12 ||| (third &&& 0x3f) <<< 6 |||
        fourth &&& 0x3f =
      ((first % 8 * 64 + second % 64) * 64 + third % 64) * 64 + fourth % 64 := by
  have hfirst : (first &&& 0x07) <<< 18 = (((first &&& 0x07) <<< 6) <<< 6) <<< 6 := by
    rw [← Nat.shiftLeft_add, ← Nat.shiftLeft_add]
  have hsecond : (second &&& 0x3f) <<< 12 = ((second &&& 0x3f) <<< 6) <<< 6 := by
    rw [← Nat.shiftLeft_add]
  rw [hfirst, hsecond, ← Nat.shiftLeft_or_distrib, ← Nat.shiftLeft_or_distrib,
    ← Nat.shiftLeft_or_distrib, shiftLeft_six_or, shiftLeft_six_or, shiftLeft_six_or,
    Nat.and_two_pow_sub_one_eq_mod first 3]

/-! ## Decoding an encoding -/

theorem byteAt_zero (b : UInt8) (bytes : List UInt8) : byteAt (b :: bytes) 0 = b.toNat := rfl

theorem byteAt_succ (b : UInt8) (bytes : List UInt8) (k : ℕ) :
    byteAt (b :: bytes) (k + 1) = byteAt bytes k := rfl

theorem byteAt_lt (bytes : List UInt8) (k : ℕ) : byteAt bytes k < 256 := UInt8.toNat_lt _

theorem decodeCharacter_one {b : UInt8} {rest : List UInt8} (h : b.toNat < 0x80) :
    decodeCharacter (b :: rest) = .ok (b.toNat, 1) := by
  unfold decodeCharacter
  rw [if_neg (by simp)]
  exact if_pos h

theorem decodeCharacter_two {b₀ b₁ : UInt8} {rest : List UInt8}
    (h₀ : 0xc2 ≤ b₀.toNat ∧ b₀.toNat ≤ 0xdf) (h₁ : 0x80 ≤ b₁.toNat ∧ b₁.toNat < 0xc0) :
    decodeCharacter (b₀ :: b₁ :: rest) =
      .ok (b₀.toNat % 32 * 64 + b₁.toNat % 64, 2) := by
  unfold decodeCharacter
  simp only [byteAt_succ, byteAt_zero, List.length_cons, and_c0_eq_iff (UInt8.toNat_lt b₁)]
  rw [if_neg (Nat.succ_ne_zero _), if_neg (by omega),
    if_pos ⟨h₀.1, h₀.2, by omega, h₁⟩, assemble_two]

theorem decodeCharacter_three {b₀ b₁ b₂ : UInt8} {rest : List UInt8}
    (h₀ : 0xe0 ≤ b₀.toNat ∧ b₀.toNat < 0xf0) (h₁ : 0x80 ≤ b₁.toNat ∧ b₁.toNat < 0xc0)
    (h₂ : 0x80 ≤ b₂.toNat ∧ b₂.toNat < 0xc0) (hlow : b₀.toNat ≠ 0xe0 ∨ 0xa0 ≤ b₁.toNat)
    (hhigh : b₀.toNat ≠ 0xed ∨ b₁.toNat < 0xa0) :
    decodeCharacter (b₀ :: b₁ :: b₂ :: rest) =
      .ok ((b₀.toNat % 16 * 64 + b₁.toNat % 64) * 64 + b₂.toNat % 64, 3) := by
  unfold decodeCharacter
  simp only [byteAt_succ, byteAt_zero, List.length_cons, and_c0_eq_iff (UInt8.toNat_lt b₁),
    and_c0_eq_iff (UInt8.toNat_lt b₂), and_f0_eq_iff (UInt8.toNat_lt b₀)]
  rw [if_neg (Nat.succ_ne_zero _), if_neg (by omega), if_neg (by omega),
    if_pos ⟨h₀, by omega, h₁, h₂, hlow, hhigh⟩, assemble_three]

theorem decodeCharacter_four {b₀ b₁ b₂ b₃ : UInt8} {rest : List UInt8}
    (h₀ : 0xf0 ≤ b₀.toNat ∧ b₀.toNat ≤ 0xf4) (h₁ : 0x80 ≤ b₁.toNat ∧ b₁.toNat < 0xc0)
    (h₂ : 0x80 ≤ b₂.toNat ∧ b₂.toNat < 0xc0) (h₃ : 0x80 ≤ b₃.toNat ∧ b₃.toNat < 0xc0)
    (hlow : b₀.toNat ≠ 0xf0 ∨ 0x90 ≤ b₁.toNat) (hhigh : b₀.toNat ≠ 0xf4 ∨ b₁.toNat < 0x90) :
    decodeCharacter (b₀ :: b₁ :: b₂ :: b₃ :: rest) =
      .ok (((b₀.toNat % 8 * 64 + b₁.toNat % 64) * 64 + b₂.toNat % 64) * 64 + b₃.toNat % 64, 4) := by
  unfold decodeCharacter
  simp only [byteAt_succ, byteAt_zero, List.length_cons, and_c0_eq_iff (UInt8.toNat_lt b₁),
    and_c0_eq_iff (UInt8.toNat_lt b₂), and_c0_eq_iff (UInt8.toNat_lt b₃),
    and_f0_eq_iff (UInt8.toNat_lt b₀)]
  rw [if_neg (Nat.succ_ne_zero _), if_neg (by omega), if_neg (by omega), if_neg (by omega),
    if_pos ⟨h₀.1, h₀.2, by omega, h₁, h₂, h₃, hlow, hhigh⟩, assemble_four]

/-- Scalars are below the last code point and are no surrogates. -/
theorem scalar_cases (c : Char) :
    c.val.toNat < 0xd800 ∨ 0xdfff < c.val.toNat ∧ c.val.toNat < 0x110000 := c.valid

theorem toNat_ofNat_of_lt {n : ℕ} (h : n < 256) : (UInt8.ofNat n).toNat = n := by
  rw [UInt8.toNat_ofNat', Nat.mod_eq_of_lt h]

/-- The bytes of an encoded scalar. -/
theorem utf8EncodeChar_cases (c : Char) :
    (∃ b₀, String.utf8EncodeChar c = [b₀] ∧ b₀.toNat < 0x80) ∨
    (∃ b₀ b₁, String.utf8EncodeChar c = [b₀, b₁] ∧ (0xc2 ≤ b₀.toNat ∧ b₀.toNat ≤ 0xdf) ∧
      (0x80 ≤ b₁.toNat ∧ b₁.toNat < 0xc0)) ∨
    (∃ b₀ b₁ b₂, String.utf8EncodeChar c = [b₀, b₁, b₂] ∧ (0xe0 ≤ b₀.toNat ∧ b₀.toNat < 0xf0) ∧
      (0x80 ≤ b₁.toNat ∧ b₁.toNat < 0xc0) ∧ (0x80 ≤ b₂.toNat ∧ b₂.toNat < 0xc0) ∧
      (b₀.toNat ≠ 0xe0 ∨ 0xa0 ≤ b₁.toNat) ∧ (b₀.toNat ≠ 0xed ∨ b₁.toNat < 0xa0)) ∨
    (∃ b₀ b₁ b₂ b₃, String.utf8EncodeChar c = [b₀, b₁, b₂, b₃] ∧
      (0xf0 ≤ b₀.toNat ∧ b₀.toNat ≤ 0xf4) ∧ (0x80 ≤ b₁.toNat ∧ b₁.toNat < 0xc0) ∧
      (0x80 ≤ b₂.toNat ∧ b₂.toNat < 0xc0) ∧ (0x80 ≤ b₃.toNat ∧ b₃.toNat < 0xc0) ∧
      (b₀.toNat ≠ 0xf0 ∨ 0x90 ≤ b₁.toNat) ∧ (b₀.toNat ≠ 0xf4 ∨ b₁.toNat < 0x90)) := by
  have hscalar := scalar_cases c
  unfold String.utf8EncodeChar
  simp only
  generalize c.val.toNat = v at *
  split_ifs with h₁ h₂ h₃
  · have hfirst := @toNat_ofNat_of_lt v (by omega)
    exact Or.inl ⟨_, rfl, by omega⟩
  · have hfirst := @toNat_ofNat_of_lt (v / 64 % 32 + 0xc0) (by omega)
    have hsecond := @toNat_ofNat_of_lt (v % 64 + 0x80) (by omega)
    exact Or.inr (Or.inl ⟨_, _, rfl, by omega, by omega⟩)
  · have hfirst := @toNat_ofNat_of_lt (v / 4096 % 16 + 0xe0) (by omega)
    have hsecond := @toNat_ofNat_of_lt (v / 64 % 64 + 0x80) (by omega)
    have hthird := @toNat_ofNat_of_lt (v % 64 + 0x80) (by omega)
    exact Or.inr (Or.inr (Or.inl
      ⟨_, _, _, rfl, by omega, by omega, by omega, by omega, by omega⟩))
  · have hfirst := @toNat_ofNat_of_lt (v / 262144 % 8 + 0xf0) (by omega)
    have hsecond := @toNat_ofNat_of_lt (v / 4096 % 64 + 0x80) (by omega)
    have hthird := @toNat_ofNat_of_lt (v / 64 % 64 + 0x80) (by omega)
    have hfourth := @toNat_ofNat_of_lt (v % 64 + 0x80) (by omega)
    exact Or.inr (Or.inr (Or.inr
      ⟨_, _, _, _, rfl, by omega, by omega, by omega, by omega, by omega, by omega⟩))

/-- Every code point that is no surrogate is a scalar. -/
theorem exists_scalar {v : ℕ} (h : v < 0xd800 ∨ 0xdfff < v ∧ v < 0x110000) :
    ∃ c : Char, c.val.toNat = v := by
  have hvalid : (UInt32.ofNat v).isValidChar := by
    unfold UInt32.isValidChar Nat.isValidChar
    rw [UInt32.toNat_ofNat']
    omega
  refine ⟨⟨UInt32.ofNat v, hvalid⟩, ?_⟩
  rw [UInt32.toNat_ofNat', Nat.mod_eq_of_lt (by omega)]

/-- A byte without its high bit is a scalar. -/
theorem exists_scalar_one {b₀ : UInt8} (h₀ : b₀.toNat < 0x80) :
    ∃ c, String.utf8EncodeChar c = [b₀] := by
  obtain ⟨c, hc⟩ := exists_scalar (v := b₀.toNat) (by omega)
  refine ⟨c, ?_⟩
  unfold String.utf8EncodeChar
  simp only [hc]
  rw [if_pos (by omega)]
  simp

/-- Two bytes that are a scalar. -/
theorem exists_scalar_two {b₀ b₁ : UInt8} (h₀ : 0xc2 ≤ b₀.toNat ∧ b₀.toNat ≤ 0xdf)
    (h₁ : 0x80 ≤ b₁.toNat ∧ b₁.toNat < 0xc0) :
    ∃ c, String.utf8EncodeChar c = [b₀, b₁] := by
  obtain ⟨c, hc⟩ := exists_scalar (v := b₀.toNat % 32 * 64 + b₁.toNat % 64) (by omega)
  refine ⟨c, ?_⟩
  unfold String.utf8EncodeChar
  simp only [hc]
  rw [if_neg (by omega), if_pos (by omega)]
  simp only [List.cons.injEq, ← UInt8.toNat_inj, UInt8.toNat_ofNat', and_true]
  omega

/-- Three bytes that are a scalar. -/
theorem exists_scalar_three {b₀ b₁ b₂ : UInt8} (h₀ : 0xe0 ≤ b₀.toNat ∧ b₀.toNat < 0xf0)
    (h₁ : 0x80 ≤ b₁.toNat ∧ b₁.toNat < 0xc0) (h₂ : 0x80 ≤ b₂.toNat ∧ b₂.toNat < 0xc0)
    (hlow : b₀.toNat ≠ 0xe0 ∨ 0xa0 ≤ b₁.toNat) (hhigh : b₀.toNat ≠ 0xed ∨ b₁.toNat < 0xa0) :
    ∃ c, String.utf8EncodeChar c = [b₀, b₁, b₂] := by
  obtain ⟨c, hc⟩ := exists_scalar
    (v := (b₀.toNat % 16 * 64 + b₁.toNat % 64) * 64 + b₂.toNat % 64) (by omega)
  refine ⟨c, ?_⟩
  unfold String.utf8EncodeChar
  simp only [hc]
  rw [if_neg (by omega), if_neg (by omega), if_pos (by omega)]
  simp only [List.cons.injEq, ← UInt8.toNat_inj, UInt8.toNat_ofNat', and_true]
  omega

/-- Four bytes that are a scalar. -/
theorem exists_scalar_four {b₀ b₁ b₂ b₃ : UInt8} (h₀ : 0xf0 ≤ b₀.toNat ∧ b₀.toNat ≤ 0xf4)
    (h₁ : 0x80 ≤ b₁.toNat ∧ b₁.toNat < 0xc0) (h₂ : 0x80 ≤ b₂.toNat ∧ b₂.toNat < 0xc0)
    (h₃ : 0x80 ≤ b₃.toNat ∧ b₃.toNat < 0xc0) (hlow : b₀.toNat ≠ 0xf0 ∨ 0x90 ≤ b₁.toNat)
    (hhigh : b₀.toNat ≠ 0xf4 ∨ b₁.toNat < 0x90) :
    ∃ c, String.utf8EncodeChar c = [b₀, b₁, b₂, b₃] := by
  obtain ⟨c, hc⟩ := exists_scalar (v := ((b₀.toNat % 8 * 64 + b₁.toNat % 64) * 64 +
    b₂.toNat % 64) * 64 + b₃.toNat % 64) (by omega)
  refine ⟨c, ?_⟩
  unfold String.utf8EncodeChar
  simp only [hc]
  rw [if_neg (by omega), if_neg (by omega), if_neg (by omega)]
  simp only [List.cons.injEq, ← UInt8.toNat_inj, UInt8.toNat_ofNat', and_true]
  omega

/-- The first character of an encoding is the first scalar. -/
theorem decodeCharacter_utf8EncodeChar (c : Char) (rest : List UInt8) :
    decodeCharacter (String.utf8EncodeChar c ++ rest) = .ok (c.val.toNat, c.utf8Size) := by
  have hscalar := scalar_cases c
  rw [← String.length_utf8EncodeChar c]
  unfold String.utf8EncodeChar
  simp only
  generalize c.val.toNat = v at *
  split_ifs with h₁ h₂ h₃
  · have hfirst : (UInt8.ofNat v).toNat = v := toNat_ofNat_of_lt (by omega)
    refine (decodeCharacter_one (by omega)).trans ?_
    rw [hfirst]
    rfl
  · have hfirst := @toNat_ofNat_of_lt (v / 64 % 32 + 0xc0) (by omega)
    have hsecond := @toNat_ofNat_of_lt (v % 64 + 0x80) (by omega)
    refine (decodeCharacter_two (by omega) (by omega)).trans ?_
    rw [hfirst, hsecond, show (v / 64 % 32 + 0xc0) % 32 * 64 + (v % 64 + 0x80) % 64 = v by omega]
    rfl
  · have hfirst := @toNat_ofNat_of_lt (v / 4096 % 16 + 0xe0) (by omega)
    have hsecond := @toNat_ofNat_of_lt (v / 64 % 64 + 0x80) (by omega)
    have hthird := @toNat_ofNat_of_lt (v % 64 + 0x80) (by omega)
    refine (decodeCharacter_three (by omega) (by omega) (by omega) (by omega) (by omega)).trans ?_
    rw [hfirst, hsecond, hthird, show ((v / 4096 % 16 + 0xe0) % 16 * 64 +
      (v / 64 % 64 + 0x80) % 64) * 64 + (v % 64 + 0x80) % 64 = v by omega]
    rfl
  · have hfirst := @toNat_ofNat_of_lt (v / 262144 % 8 + 0xf0) (by omega)
    have hsecond := @toNat_ofNat_of_lt (v / 4096 % 64 + 0x80) (by omega)
    have hthird := @toNat_ofNat_of_lt (v / 64 % 64 + 0x80) (by omega)
    have hfourth := @toNat_ofNat_of_lt (v % 64 + 0x80) (by omega)
    refine (decodeCharacter_four (by omega) (by omega) (by omega) (by omega) (by omega)
      (by omega)).trans ?_
    rw [hfirst, hsecond, hthird, hfourth, show (((v / 262144 % 8 + 0xf0) % 8 * 64 +
      (v / 4096 % 64 + 0x80) % 64) * 64 + (v / 64 % 64 + 0x80) % 64) * 64 +
      (v % 64 + 0x80) % 64 = v by omega]
    rfl

/-- At the position of a scalar its code point is read and its bytes are passed. -/
theorem decodeCharacter_drop {chars : List Char} {k : ℕ} (h : k < chars.length) :
    decodeCharacter ((utf8 chars).drop (utf8Offset chars k)) =
      .ok ((chars[k]).val.toNat, (chars[k]).utf8Size) := by
  rw [drop_utf8Offset_cons h]
  exact decodeCharacter_utf8EncodeChar _ _

/-! ## Decoding a whole Text -/

/-- The characters of the bytes that are left. -/
def decodeTextFrom : ℕ → List UInt8 → Option (List Char)
  | 0, _ => some []
  | fuel + 1, bytes =>
    if bytes = [] then some []
    else match decodeCharacter bytes with
      | .error _ => none
      | .ok (character, width) =>
        (decodeTextFrom fuel (bytes.drop width)).map (Char.ofNat character :: ·)

/-- The characters of a Text, if its bytes are UTF-8. -/
def decodeText (bytes : List UInt8) : Option (List Char) := decodeTextFrom bytes.length bytes

theorem decodeTextFrom_utf8 (chars : List Char) {fuel : ℕ} (h : chars.length ≤ fuel) :
    decodeTextFrom fuel (utf8 chars) = some chars := by
  induction chars generalizing fuel with
  | nil =>
    cases fuel with
    | zero => rfl
    | succ fuel => exact if_pos rfl
  | cons c chars ih =>
    cases fuel with
    | zero => exact absurd h (Nat.not_succ_le_zero _)
    | succ fuel =>
      have hdrop : (utf8 (c :: chars)).drop c.utf8Size = utf8 chars := by
        rw [utf8_cons, ← String.length_utf8EncodeChar]
        exact List.drop_left
      have hne : utf8 (c :: chars) ≠ [] := by
        rw [utf8_cons]
        exact List.append_ne_nil_of_left_ne_nil String.utf8EncodeChar_ne_nil _
      rw [decodeTextFrom, if_neg hne]
      rw [utf8_cons] at hdrop ⊢
      rw [decodeCharacter_utf8EncodeChar]
      simp only [hdrop, ih (Nat.le_of_succ_le_succ h), Option.map_some]
      rw [show Char.ofNat c.val.toNat = c from Char.ofNat_toNat c]

theorem decodeText_utf8 (chars : List Char) : decodeText (utf8 chars) = some chars :=
  decodeTextFrom_utf8 chars (length_le_utf8 chars)

/-- Different sequences of characters have different encodings. -/
theorem utf8_injective : Function.Injective utf8 := by
  intro left right h
  have hleft := decodeText_utf8 left
  rw [h, decodeText_utf8] at hleft
  exact (Option.some.inj hleft).symm

/-! ## ASCII bytes in an encoding -/

/-- All bytes of a scalar that is not ASCII have the high bit. -/
theorem le_of_mem_utf8EncodeChar {c : Char} (h : 128 ≤ c.val.toNat) :
    ∀ b ∈ String.utf8EncodeChar c, 0x80 ≤ b.toNat := by
  rcases utf8EncodeChar_cases c with ⟨b₀, hc, h₀⟩ | ⟨b₀, b₁, hc, h₀, h₁⟩ |
    ⟨b₀, b₁, b₂, hc, h₀, h₁, h₂, -⟩ | ⟨b₀, b₁, b₂, b₃, hc, h₀, h₁, h₂, h₃, -⟩
  · have hone : c.utf8Size = 1 := by rw [← String.length_utf8EncodeChar, hc]; rfl
    exact absurd ((utf8Size_eq_one_iff c).mp hone) (Nat.not_lt.mpr h)
  · rw [hc]
    simp only [List.forall_mem_cons, List.not_mem_nil, false_implies, implies_true, and_true]
    omega
  · rw [hc]
    simp only [List.forall_mem_cons, List.not_mem_nil, false_implies, implies_true, and_true]
    omega
  · rw [hc]
    simp only [List.forall_mem_cons, List.not_mem_nil, false_implies, implies_true, and_true]
    omega

/-- A byte below 128 is the encoding of that ASCII scalar only. -/
theorem eq_of_mem_utf8EncodeChar {c d : Char} (hd : d.val.toNat < 128)
    (h : UInt8.ofNat d.val.toNat ∈ String.utf8EncodeChar c) : c = d := by
  have hbyte : (UInt8.ofNat d.val.toNat).toNat = d.val.toNat := toNat_ofNat_of_lt (by omega)
  by_cases hc : c.val.toNat < 128
  · rw [utf8EncodeChar_of_ascii hc, List.mem_singleton] at h
    have hvalue := congrArg UInt8.toNat h
    rw [hbyte, toNat_ofNat_of_lt (by omega)] at hvalue
    exact Char.ext (UInt32.toNat_inj.mp hvalue.symm)
  · have hhigh := le_of_mem_utf8EncodeChar (Nat.not_lt.mp hc) _ h
    omega

/-- A byte below 128 is in an encoding exactly if the scalar is in the text. -/
theorem mem_utf8_iff {text : List Char} {d : Char} (hd : d.val.toNat < 128) :
    UInt8.ofNat d.val.toNat ∈ utf8 text ↔ d ∈ text := by
  unfold utf8
  rw [List.mem_flatMap]
  constructor
  · rintro ⟨c, hc, hmem⟩
    exact eq_of_mem_utf8EncodeChar hd hmem ▸ hc
  · intro h
    exact ⟨d, h, by rw [utf8EncodeChar_of_ascii hd]; exact List.mem_singleton_self _⟩

end Minyar

import Minyar.Text.Decode

/-!
# Encoding and decoding whole texts

`decodeCharacters` takes one character after the other from the beginning of some bytes, as the loops
over a Text do.  `WellFormedUtf8` is the syntax of UTF-8 by the values of the byte sequences: none is
longer than its value needs, none is a surrogate or above the last code point.

`decodeCharacters_spec` says that the decoder gets through exactly on well-formed bytes, and that it
and `encodeCharacter` are inverse to each other.
-/

namespace Minyar

/-! ## The program -/

/-- The stop of a number that is no Unicode scalar. -/
def invalidCharacter : String := "this Character is not valid Unicode."

/-- `encode_character`: the bytes of a character. -/
def encodeCharacter (character : ℤ) : Except String (List UInt8) :=
  if character < 0 ∨ 0x10ffff < character ∨ 0xd800 ≤ character ∧ character ≤ 0xdfff then
    .error invalidCharacter
  else
    let c := character.toNat
    if c < 0x80 then .ok [UInt8.ofNat c]
    else if c < 0x800 then .ok [UInt8.ofNat (0xc0 ||| c >>> 6), UInt8.ofNat (0x80 ||| c &&& 0x3f)]
    else if c < 0x10000 then
      .ok [UInt8.ofNat (0xe0 ||| c >>> 12), UInt8.ofNat (0x80 ||| c >>> 6 &&& 0x3f),
        UInt8.ofNat (0x80 ||| c &&& 0x3f)]
    else
      .ok [UInt8.ofNat (0xf0 ||| c >>> 18), UInt8.ofNat (0x80 ||| c >>> 12 &&& 0x3f),
        UInt8.ofNat (0x80 ||| c >>> 6 &&& 0x3f), UInt8.ofNat (0x80 ||| c &&& 0x3f)]

/-- The characters of some bytes and their widths, taken from the beginning until no byte is left. -/
def decodeCharactersWithin : ℕ → List UInt8 → Except String (List (ℕ × ℕ))
  | _, [] => .ok []
  | 0, _ :: _ => .error "the decoder does not get ahead"
  | fuel + 1, b :: rest => do
    let (character, width) ← decodeCharacter (b :: rest)
    let behind ← decodeCharactersWithin fuel ((b :: rest).drop width)
    .ok ((character, width) :: behind)

/-- The characters of some bytes and their widths. -/
def decodeCharacters (bytes : List UInt8) : Except String (List (ℕ × ℕ)) :=
  decodeCharactersWithin bytes.length bytes

/-! ## Well-formed bytes -/

/-- A byte behind the first one of a sequence. -/
def IsTail (b : UInt8) : Prop := 0x80 ≤ b.toNat ∧ b.toNat < 0xc0

/-- Concatenations of byte sequences with six bits in each byte behind the first one.  The value of a
sequence is too large for a shorter one, no surrogate and no larger than the last code point. -/
inductive WellFormedUtf8 : List UInt8 → Prop
  /-- No byte. -/
  | nil : WellFormedUtf8 []
  /-- Seven bits. -/
  | one {b : UInt8} {rest : List UInt8} : b.toNat < 0x80 → WellFormedUtf8 rest →
      WellFormedUtf8 (b :: rest)
  /-- Five bits and six. -/
  | two {b₀ b₁ : UInt8} {rest : List UInt8} : 0xc0 ≤ b₀.toNat → b₀.toNat < 0xe0 → IsTail b₁ →
      0x80 ≤ b₀.toNat % 32 * 64 + b₁.toNat % 64 → WellFormedUtf8 rest →
      WellFormedUtf8 (b₀ :: b₁ :: rest)
  /-- Four bits and twice six. -/
  | three {b₀ b₁ b₂ : UInt8} {rest : List UInt8} (v : ℕ) :
      v = (b₀.toNat % 16 * 64 + b₁.toNat % 64) * 64 + b₂.toNat % 64 →
      0xe0 ≤ b₀.toNat → b₀.toNat < 0xf0 → IsTail b₁ → IsTail b₂ →
      0x800 ≤ v → ¬ (0xd800 ≤ v ∧ v ≤ 0xdfff) → WellFormedUtf8 rest →
      WellFormedUtf8 (b₀ :: b₁ :: b₂ :: rest)
  /-- Three bits and three times six. -/
  | four {b₀ b₁ b₂ b₃ : UInt8} {rest : List UInt8} (v : ℕ) :
      v = ((b₀.toNat % 8 * 64 + b₁.toNat % 64) * 64 + b₂.toNat % 64) * 64 + b₃.toNat % 64 →
      0xf0 ≤ b₀.toNat → b₀.toNat < 0xf8 → IsTail b₁ → IsTail b₂ → IsTail b₃ →
      0x10000 ≤ v → v ≤ 0x10ffff → WellFormedUtf8 rest →
      WellFormedUtf8 (b₀ :: b₁ :: b₂ :: b₃ :: rest)

/-- The encoding of a scalar in front of well-formed bytes. -/
theorem WellFormedUtf8.encodeChar_append (c : Char) {rest : List UInt8} (h : WellFormedUtf8 rest) :
    WellFormedUtf8 (String.utf8EncodeChar c ++ rest) := by
  rcases utf8EncodeChar_cases c with ⟨b₀, hc, h₀⟩ | ⟨b₀, b₁, hc, h₀, h₁⟩ |
    ⟨b₀, b₁, b₂, hc, h₀, h₁, h₂, hlow, hhigh⟩ | ⟨b₀, b₁, b₂, b₃, hc, h₀, h₁, h₂, h₃, hlow, hhigh⟩
  · rw [hc]
    exact .one h₀ h
  · rw [hc]
    exact .two (by omega) (by omega) h₁ (by omega) h
  · rw [hc]
    exact .three _ rfl h₀.1 h₀.2 h₁ h₂ (by omega) (by omega) h
  · rw [hc]
    exact .four _ rfl h₀.1 (by omega) h₁ h₂ h₃ (by omega) (by omega) h

/-- Well-formed bytes are the encodings of sequences of scalars. -/
theorem wellFormedUtf8_iff (bytes : List UInt8) :
    WellFormedUtf8 bytes ↔ ∃ chars, bytes = utf8 chars := by
  constructor
  · intro h
    induction h with
    | nil => exact ⟨[], rfl⟩
    | one h₀ _ ih =>
      obtain ⟨chars, rfl⟩ := ih
      obtain ⟨c, hc⟩ := exists_scalar_one h₀
      exact ⟨c :: chars, by rw [utf8_cons, hc]; rfl⟩
    | @two b₀ b₁ rest hlow hhigh h₁ hlong _ ih =>
      obtain ⟨chars, rfl⟩ := ih
      unfold IsTail at h₁
      have h₀ : 0xc2 ≤ b₀.toNat ∧ b₀.toNat ≤ 0xdf := by omega
      obtain ⟨c, hc⟩ := exists_scalar_two h₀ h₁
      exact ⟨c :: chars, by rw [utf8_cons, hc]; rfl⟩
    | three v hv hlow hhigh h₁ h₂ hlong hsurrogate _ ih =>
      obtain ⟨chars, rfl⟩ := ih
      unfold IsTail at h₁ h₂
      obtain ⟨c, hc⟩ := exists_scalar_three ⟨hlow, hhigh⟩ h₁ h₂ (by omega) (by omega)
      exact ⟨c :: chars, by rw [utf8_cons, hc]; rfl⟩
    | four v hv hlow hhigh h₁ h₂ h₃ hlong hlast _ ih =>
      obtain ⟨chars, rfl⟩ := ih
      unfold IsTail at h₁ h₂ h₃
      obtain ⟨c, hc⟩ := exists_scalar_four ⟨hlow, by omega⟩ h₁ h₂ h₃ (by omega) (by omega)
      exact ⟨c :: chars, by rw [utf8_cons, hc]; rfl⟩
  · rintro ⟨chars, rfl⟩
    induction chars with
    | nil => exact .nil
    | cons c chars ih => exact ih.encodeChar_append c

/-! ## One character -/

/-- Bits above a shift and bits below it. -/
theorem shiftLeft_or_eq {n : ℕ} (a i : ℕ) (h : n < 2 ^ i) : a <<< i ||| n = a * 2 ^ i + n := by
  rw [← Nat.shiftLeft_add_eq_or_of_lt h, Nat.shiftLeft_eq]

/-- Six bits behind the mark of a tail. -/
theorem tail_or (n : ℕ) : 0x80 ||| n &&& 0x3f = 0x80 + n % 64 := by
  rw [Nat.and_two_pow_sub_one_eq_mod n 6]
  exact shiftLeft_or_eq 2 6 (Nat.mod_lt n (by decide))

/-- `encode_character` gives the encoding of a scalar. -/
theorem encodeCharacter_scalar (c : Char) :
    encodeCharacter c.val.toNat = .ok (String.utf8EncodeChar c) := by
  have hscalar := scalar_cases c
  unfold encodeCharacter String.utf8EncodeChar
  simp only [Int.toNat_natCast]
  generalize c.val.toNat = v at *
  rw [if_neg (by omega)]
  simp only [tail_or, Nat.shiftRight_eq_div_pow]
  by_cases h₁ : v < 0x80
  · rw [if_pos h₁, if_pos (show v ≤ 0x7f by omega)]
  rw [if_neg h₁, if_neg (show ¬ v ≤ 0x7f by omega)]
  by_cases h₂ : v < 0x800
  · have hfirst : 0xc0 ||| v / 2 ^ 6 = v / 64 % 32 + 0xc0 := by
      have hor := shiftLeft_or_eq 3 6 (show v / 2 ^ 6 < 2 ^ 6 by omega)
      change 0xc0 ||| v / 2 ^ 6 = _ at hor
      omega
    rw [if_pos h₂, if_pos (show v ≤ 0x7ff by omega), hfirst, Nat.add_comm 0x80 (v % 64)]
  rw [if_neg h₂, if_neg (show ¬ v ≤ 0x7ff by omega)]
  by_cases h₃ : v < 0x10000
  · have hfirst : 0xe0 ||| v / 2 ^ 12 = v / 4096 % 16 + 0xe0 := by
      have hor := shiftLeft_or_eq 7 5 (show v / 2 ^ 12 < 2 ^ 5 by omega)
      change 0xe0 ||| v / 2 ^ 12 = _ at hor
      omega
    rw [if_pos h₃, if_pos (show v ≤ 0xffff by omega), hfirst, Nat.add_comm 0x80 (v % 64),
      Nat.add_comm 0x80 (v / 2 ^ 6 % 64)]
  · have hfirst : 0xf0 ||| v / 2 ^ 18 = v / 262144 % 8 + 0xf0 := by
      have hor := shiftLeft_or_eq 15 4 (show v / 2 ^ 18 < 2 ^ 4 by omega)
      change 0xf0 ||| v / 2 ^ 18 = _ at hor
      omega
    rw [if_neg h₃, if_neg (show ¬ v ≤ 0xffff by omega), hfirst, Nat.add_comm 0x80 (v % 64),
      Nat.add_comm 0x80 (v / 2 ^ 6 % 64), Nat.add_comm 0x80 (v / 2 ^ 12 % 64)]

/-- There is a first byte. -/
theorem exists_cons_of_length {bytes : List UInt8} {n : ℕ} (h : n + 1 ≤ bytes.length) :
    ∃ b rest, bytes = b :: rest ∧ n ≤ rest.length := by
  cases bytes with
  | nil => exact absurd h (Nat.not_succ_le_zero n)
  | cons b rest => exact ⟨b, rest, rfl, Nat.le_of_succ_le_succ h⟩

/-- What `decode_character` accepts begins with the encoding of a scalar. -/
theorem exists_scalar_of_decodeCharacter {bytes : List UInt8} {result : ℕ × ℕ}
    (h : decodeCharacter bytes = .ok result) :
    ∃ (c : Char) (rest : List UInt8), bytes = String.utf8EncodeChar c ++ rest := by
  unfold decodeCharacter at h
  simp only [and_c0_eq_iff (byteAt_lt bytes _), and_f0_eq_iff (byteAt_lt bytes _)] at h
  split_ifs at h with hempty h₁ h₂ h₃ h₄
  · obtain ⟨b₀, rest, rfl, -⟩ := exists_cons_of_length (Nat.pos_of_ne_zero hempty)
    obtain ⟨c, hc⟩ := exists_scalar_one h₁
    exact ⟨c, rest, by rw [hc]; rfl⟩
  · obtain ⟨hlow, hhigh, hlength₀, htail⟩ := h₂
    obtain ⟨b₀, rest₀, rfl, hlength₁⟩ := exists_cons_of_length hlength₀
    obtain ⟨b₁, rest, rfl, -⟩ := exists_cons_of_length hlength₁
    obtain ⟨c, hc⟩ := exists_scalar_two ⟨hlow, hhigh⟩ htail
    exact ⟨c, rest, by rw [hc]; rfl⟩
  · obtain ⟨hlead, hlength₀, htail₁, htail₂, hlow, hhigh⟩ := h₃
    obtain ⟨b₀, rest₀, rfl, hlength₁⟩ := exists_cons_of_length hlength₀
    obtain ⟨b₁, rest₁, rfl, hlength₂⟩ := exists_cons_of_length hlength₁
    obtain ⟨b₂, rest, rfl, -⟩ := exists_cons_of_length hlength₂
    obtain ⟨c, hc⟩ := exists_scalar_three hlead htail₁ htail₂ hlow hhigh
    exact ⟨c, rest, by rw [hc]; rfl⟩
  · obtain ⟨hlead, hlead', hlength₀, htail₁, htail₂, htail₃, hlow, hhigh⟩ := h₄
    obtain ⟨b₀, rest₀, rfl, hlength₁⟩ := exists_cons_of_length hlength₀
    obtain ⟨b₁, rest₁, rfl, hlength₂⟩ := exists_cons_of_length hlength₁
    obtain ⟨b₂, rest₂, rfl, hlength₃⟩ := exists_cons_of_length hlength₂
    obtain ⟨b₃, rest, rfl, -⟩ := exists_cons_of_length hlength₃
    obtain ⟨c, hc⟩ := exists_scalar_four ⟨hlead, hlead'⟩ htail₁ htail₂ htail₃ hlow hhigh
    exact ⟨c, rest, by rw [hc]; rfl⟩

/-! ## All characters -/

/-- A scalar at the front is taken. -/
theorem decodeCharactersWithin_encodeChar (fuel : ℕ) (c : Char) (rest : List UInt8) :
    decodeCharactersWithin (fuel + 1) (String.utf8EncodeChar c ++ rest) =
      (decodeCharactersWithin fuel rest).map ((c.val.toNat, c.utf8Size) :: ·) := by
  obtain ⟨b, behind, hbytes⟩ := List.exists_cons_of_ne_nil
    (List.append_ne_nil_of_left_ne_nil (String.utf8EncodeChar_ne_nil (c := c)) rest)
  have hdecode := decodeCharacter_utf8EncodeChar c rest
  have hdrop : (String.utf8EncodeChar c ++ rest).drop c.utf8Size = rest := by
    rw [← String.length_utf8EncodeChar]
    exact List.drop_left
  rw [hbytes] at hdecode hdrop ⊢
  rw [decodeCharactersWithin, hdecode]
  change (do
    let behind ← decodeCharactersWithin fuel ((b :: behind).drop c.utf8Size)
    Except.ok ((c.val.toNat, c.utf8Size) :: behind)) = _
  rw [hdrop]
  cases decodeCharactersWithin fuel rest <;> rfl

/-- The encoding of a sequence of scalars is decoded to them. -/
theorem decodeCharactersWithin_utf8 (chars : List Char) {fuel : ℕ} (h : chars.length ≤ fuel) :
    decodeCharactersWithin fuel (utf8 chars) =
      .ok (chars.map fun c => (c.val.toNat, c.utf8Size)) := by
  induction chars generalizing fuel with
  | nil => rw [utf8_nil, decodeCharactersWithin, List.map_nil]
  | cons c chars ih =>
    obtain ⟨fuel, rfl⟩ : ∃ k, fuel = k + 1 := ⟨fuel - 1, by rw [List.length_cons] at h; omega⟩
    rw [utf8_cons, decodeCharactersWithin_encodeChar, ih (Nat.le_of_succ_le_succ h)]
    rfl

/-- What is decoded is the encoding of a sequence of scalars. -/
theorem exists_utf8_of_decodeCharactersWithin {fuel : ℕ} {bytes : List UInt8}
    {steps : List (ℕ × ℕ)} (h : decodeCharactersWithin fuel bytes = .ok steps) :
    ∃ chars, bytes = utf8 chars := by
  induction fuel generalizing bytes steps with
  | zero =>
    cases bytes with
    | nil => exact ⟨[], rfl⟩
    | cons b rest => cases h
  | succ fuel ih =>
    cases bytes with
    | nil => exact ⟨[], rfl⟩
    | cons b rest =>
      cases hdecode : decodeCharacter (b :: rest) with
      | error message =>
        rw [decodeCharactersWithin, hdecode] at h
        cases h
      | ok result =>
        obtain ⟨c, behind, hbytes⟩ := exists_scalar_of_decodeCharacter hdecode
        rw [hbytes, decodeCharactersWithin_encodeChar] at h
        cases hrest : decodeCharactersWithin fuel behind with
        | error message =>
          rw [hrest] at h
          cases h
        | ok behindSteps =>
          obtain ⟨chars, rfl⟩ := ih hrest
          exact ⟨c :: chars, hbytes⟩

/-- The loop does not depend on its bound. -/
theorem decodeCharactersWithin_eq {n m : ℕ} {bytes : List UInt8} (hn : bytes.length ≤ n)
    (hm : bytes.length ≤ m) : decodeCharactersWithin n bytes = decodeCharactersWithin m bytes := by
  induction n generalizing m bytes with
  | zero =>
    rw [List.length_eq_zero_iff.mp (Nat.le_zero.mp hn), decodeCharactersWithin,
      decodeCharactersWithin]
  | succ n ih =>
    cases bytes with
    | nil => rw [decodeCharactersWithin, decodeCharactersWithin]
    | cons b rest =>
      obtain ⟨m, rfl⟩ : ∃ k, m = k + 1 := ⟨m - 1, by rw [List.length_cons] at hm; omega⟩
      cases hdecode : decodeCharacter (b :: rest) with
      | error message => rw [decodeCharactersWithin, decodeCharactersWithin, hdecode]; rfl
      | ok result =>
        obtain ⟨c, behind, hbytes⟩ := exists_scalar_of_decodeCharacter hdecode
        have hpos := utf8Size_pos c
        rw [hbytes, List.length_append, String.length_utf8EncodeChar] at hn hm
        rw [hbytes, decodeCharactersWithin_encodeChar, decodeCharactersWithin_encodeChar,
          ih (show behind.length ≤ n by omega) (show behind.length ≤ m by omega)]

/-- The encodings of scalars one by one. -/
theorem mapM_encodeCharacter (chars : List Char) :
    chars.mapM (fun c => encodeCharacter c.val.toNat) =
      .ok (chars.map String.utf8EncodeChar) := by
  induction chars with
  | nil => rfl
  | cons c chars ih =>
    rw [List.mapM_cons, ih, encodeCharacter_scalar]
    rfl

/-- The decoder reaches the end of some bytes, in as many turns as there are characters, exactly if
they are well-formed.  Its numbers are encoded to the same bytes, each in as many as its width, and
the encodings of scalars are decoded to the scalars. -/
theorem decodeCharacters_spec :
    (∀ (bytes : List UInt8) (n : ℕ), bytes.length ≤ n →
      decodeCharactersWithin n bytes = decodeCharacters bytes) ∧
    (∀ bytes : List UInt8, (∃ steps, decodeCharacters bytes = .ok steps) ↔ WellFormedUtf8 bytes) ∧
    (∀ (bytes : List UInt8) (steps : List (ℕ × ℕ)), decodeCharacters bytes = .ok steps →
      ∃ encodings, steps.mapM (fun step => encodeCharacter step.1) = .ok encodings ∧
        encodings.map List.length = steps.map Prod.snd ∧ encodings.flatten = bytes) ∧
    (∀ chars : List Char, ∃ encodings,
      chars.mapM (fun c => encodeCharacter c.val.toNat) = .ok encodings ∧
      ∃ steps, decodeCharacters encodings.flatten = .ok steps ∧
        steps.map Prod.fst = chars.map fun c => c.val.toNat) := by
  have hdecode : ∀ chars : List Char, decodeCharacters (utf8 chars) =
      .ok (chars.map fun c => (c.val.toNat, c.utf8Size)) := fun chars =>
    decodeCharactersWithin_utf8 chars (length_le_utf8 chars)
  refine ⟨?_, ?_, ?_, ?_⟩
  · intro bytes n hn
    exact decodeCharactersWithin_eq hn le_rfl
  · intro bytes
    rw [wellFormedUtf8_iff]
    constructor
    · rintro ⟨steps, h⟩
      exact exists_utf8_of_decodeCharactersWithin h
    · rintro ⟨chars, rfl⟩
      exact ⟨_, hdecode chars⟩
  · intro bytes steps h
    obtain ⟨chars, rfl⟩ := exists_utf8_of_decodeCharactersWithin h
    rw [hdecode chars] at h
    obtain rfl := Except.ok.inj h
    refine ⟨chars.map String.utf8EncodeChar, ?_, ?_, ?_⟩
    · rw [List.mapM_map]
      exact mapM_encodeCharacter chars
    · rw [List.map_map, List.map_map]
      exact List.map_congr_left fun c _ => String.length_utf8EncodeChar c
    · exact List.flatMap_def.symm
  · intro chars
    refine ⟨_, mapM_encodeCharacter chars, chars.map fun c => (c.val.toNat, c.utf8Size), ?_, ?_⟩
    · rw [← List.flatMap_def]
      exact hdecode chars
    · rw [List.map_map]
      rfl

end Minyar

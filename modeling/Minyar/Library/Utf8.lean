import Mathlib.Data.List.Basic
import Mathlib.Data.Nat.Bitwise

/-!
# UTF-8

The encoding of a sequence of Unicode scalars is the concatenation of the encodings of its scalars.
This file collects what a reader of encoded bytes needs: the byte position of each scalar, how the
positions of a part of the sequence relate to those of the whole, and that a sequence is as long as
its encoding exactly when all of its scalars are ASCII.
-/

namespace Minyar

/-- The UTF-8 encoding of a sequence of scalars. -/
def utf8 (chars : List Char) : List UInt8 := chars.flatMap String.utf8EncodeChar

/-- The byte position of a scalar. -/
def utf8Offset (chars : List Char) (position : ℕ) : ℕ := (utf8 (chars.take position)).length

/-- The bytes of the scalars from `start` up to `stop`. -/
def utf8Slice (chars : List Char) (start stop : ℕ) : List Char := (chars.take stop).drop start

@[simp] theorem utf8_nil : utf8 [] = [] := rfl

theorem utf8_cons (c : Char) (chars : List Char) :
    utf8 (c :: chars) = String.utf8EncodeChar c ++ utf8 chars := rfl

theorem utf8_append (left right : List Char) : utf8 (left ++ right) = utf8 left ++ utf8 right :=
  List.flatMap_append

theorem utf8Size_pos (c : Char) : 0 < c.utf8Size := Char.utf8Size_pos c

theorem length_utf8_cons (c : Char) (chars : List Char) :
    (utf8 (c :: chars)).length = c.utf8Size + (utf8 chars).length := by
  rw [utf8_cons, List.length_append, String.length_utf8EncodeChar]

theorem length_utf8_le (chars : List Char) : (utf8 chars).length ≤ 4 * chars.length := by
  induction chars with
  | nil => exact Nat.zero_le _
  | cons c chars ih =>
    have := Char.utf8Size_le_four c
    rw [length_utf8_cons, List.length_cons]
    omega

theorem length_le_utf8 (chars : List Char) : chars.length ≤ (utf8 chars).length := by
  induction chars with
  | nil => exact Nat.zero_le _
  | cons c chars ih =>
    have := utf8Size_pos c
    rw [length_utf8_cons, List.length_cons]
    omega

/-! ## Byte positions -/

@[simp] theorem utf8Offset_zero (chars : List Char) : utf8Offset chars 0 = 0 := rfl

theorem utf8Offset_length (chars : List Char) :
    utf8Offset chars chars.length = (utf8 chars).length := by
  unfold utf8Offset
  rw [List.take_length]

theorem utf8Offset_succ {chars : List Char} {k : ℕ} (h : k < chars.length) :
    utf8Offset chars (k + 1) = utf8Offset chars k + (chars[k]).utf8Size := by
  unfold utf8Offset
  rw [List.take_add_one, List.getElem?_eq_getElem h, utf8_append, List.length_append]
  congr 1
  rw [Option.toList_some, length_utf8_cons, utf8_nil, List.length_nil, Nat.add_zero]

theorem utf8_eq_take_append (chars : List Char) (k : ℕ) :
    utf8 chars = utf8 (chars.take k) ++ utf8 (chars.drop k) := by
  rw [← utf8_append, List.take_append_drop]

theorem drop_utf8Offset (chars : List Char) (k : ℕ) :
    (utf8 chars).drop (utf8Offset chars k) = utf8 (chars.drop k) := by
  rw [utf8_eq_take_append chars k]
  exact List.drop_left

theorem take_utf8Offset (chars : List Char) (k : ℕ) :
    (utf8 chars).take (utf8Offset chars k) = utf8 (chars.take k) := by
  rw [utf8_eq_take_append chars k]
  exact List.take_left

/-- The bytes from a scalar on start with its encoding. -/
theorem drop_utf8Offset_cons {chars : List Char} {k : ℕ} (h : k < chars.length) :
    (utf8 chars).drop (utf8Offset chars k) =
      String.utf8EncodeChar chars[k] ++ utf8 (chars.drop (k + 1)) := by
  rw [drop_utf8Offset, List.drop_eq_getElem_cons h, utf8_cons]

theorem utf8Offset_mono {chars : List Char} {j k : ℕ} (h : j ≤ k) :
    utf8Offset chars j ≤ utf8Offset chars k := by
  have hsplit : chars.take k = chars.take j ++ (chars.take k).drop j := by
    conv_lhs => rw [← List.take_append_drop j (chars.take k)]
    rw [List.take_take, Nat.min_eq_left h]
  unfold utf8Offset
  rw [hsplit, utf8_append, List.length_append]
  exact Nat.le_add_right _ _

theorem utf8Offset_le (chars : List Char) (k : ℕ) : utf8Offset chars k ≤ (utf8 chars).length := by
  rw [utf8_eq_take_append chars k, List.length_append]
  exact Nat.le_add_right _ _

/-- Every scalar takes at least one byte. -/
theorem le_utf8Offset {chars : List Char} {k : ℕ} (h : k ≤ chars.length) :
    k ≤ utf8Offset chars k := by
  have := length_le_utf8 (chars.take k)
  rw [List.length_take, Nat.min_eq_left h] at this
  exact this

/-- The bytes of a part of a sequence are the bytes between the positions of its ends. -/
theorem utf8_utf8Slice {chars : List Char} {start stop : ℕ} (h : start ≤ stop) :
    utf8 (utf8Slice chars start stop) =
      ((utf8 chars).drop (utf8Offset chars start)).take
        (utf8Offset chars stop - utf8Offset chars start) := by
  have hstart : utf8Offset chars start = utf8Offset (chars.take stop) start := by
    unfold utf8Offset
    rw [List.take_take, Nat.min_eq_left h]
  rw [List.take_drop, Nat.add_sub_cancel' (utf8Offset_mono h), take_utf8Offset, hstart,
    drop_utf8Offset]
  rfl

theorem length_utf8Slice {chars : List Char} {start stop : ℕ} (h : stop ≤ chars.length) :
    (utf8Slice chars start stop).length = stop - start := by
  unfold utf8Slice
  rw [List.length_drop, List.length_take, Nat.min_eq_left h]

/-! ## ASCII -/

theorem utf8Size_eq_one_iff (c : Char) : c.utf8Size = 1 ↔ c.val.toNat < 128 := by
  rw [Char.utf8Size_eq_one_iff, UInt32.le_iff_toNat_le]
  exact Nat.lt_succ_iff.symm

/-- An ASCII scalar is its own encoding. -/
theorem utf8EncodeChar_of_ascii {c : Char} (h : c.val.toNat < 128) :
    String.utf8EncodeChar c = [UInt8.ofNat c.val.toNat] := by
  unfold String.utf8EncodeChar
  exact if_pos (Nat.le_of_lt_succ h)

/-- The encoding has as many bytes as there are scalars exactly if all of them are ASCII. -/
theorem length_utf8_eq_iff (chars : List Char) :
    (utf8 chars).length = chars.length ↔ ∀ c ∈ chars, c.val.toNat < 128 := by
  induction chars with
  | nil => simp
  | cons c chars ih =>
    have hle := length_le_utf8 chars
    have hpos := utf8Size_pos c
    rw [length_utf8_cons, List.length_cons, List.forall_mem_cons, ← ih, ← utf8Size_eq_one_iff]
    omega

/-- In a sequence of ASCII scalars the byte positions are the positions. -/
theorem utf8Offset_of_ascii {chars : List Char} (h : (utf8 chars).length = chars.length) {k : ℕ}
    (hk : k ≤ chars.length) : utf8Offset chars k = k := by
  have hall := (length_utf8_eq_iff chars).mp h
  have htake : (utf8 (chars.take k)).length = (chars.take k).length :=
    (length_utf8_eq_iff _).mpr fun c hc => hall c (List.mem_of_mem_take hc)
  rw [List.length_take, Nat.min_eq_left hk] at htake
  exact htake

/-- In a sequence of ASCII scalars the bytes are the scalars. -/
theorem getElem?_utf8_of_ascii {chars : List Char} (h : (utf8 chars).length = chars.length)
    {k : ℕ} (hk : k < chars.length) :
    (utf8 chars)[k]? = some (UInt8.ofNat (chars[k]).val.toNat) := by
  have hall := (length_utf8_eq_iff chars).mp h
  have hdrop := drop_utf8Offset_cons hk
  rw [utf8Offset_of_ascii h hk.le,
    utf8EncodeChar_of_ascii (hall _ (List.getElem_mem hk))] at hdrop
  have hhead : (utf8 chars)[k]? = ((utf8 chars).drop k)[0]? := by
    rw [List.getElem?_drop, Nat.add_zero]
  rw [hhead, hdrop]
  rfl

end Minyar

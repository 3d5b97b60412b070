import Minyar.Modules.Fields
import Minyar.Text.Index

/-!
# Cache files

The build driver stores a compiler state as five fields: a magic word, the identity of the compiler,
the entry path, a checksum of the state and the state.  It reads fields as bytes, counting UTF-8
characters, while the compiler reads them as characters.

A file that the driver has published is one that it reads, and it is accepted for its compiler and
entry path and for no others, with the checksum of its state as identity.
-/

namespace Minyar

/-! ## The checksum -/

/-- The constants of the checksum. -/
def prime1 : UInt64 := 11400714785074694791
def prime2 : UInt64 := 14029467366897019727
def prime3 : UInt64 := 1609587929392839161
def prime4 : UInt64 := 9650029242287828579
def prime5 : UInt64 := 2870177450012600261

/-- `rol`. -/
def rol (x n : UInt64) : UInt64 := (x <<< n) ||| (x >>> (64 - n))

/-- `little`: a number from its low byte on. -/
def little (bytes : List UInt8) (n : ℕ) : UInt64 :=
  (bytes.take n).foldr (fun b v => v * 256 + b.toUInt64) 0

/-- `round64`. -/
def round64 (a v : UInt64) : UInt64 := rol (a + v * prime2) 31 * prime1

/-- The loop over 32 bytes at once. -/
def hashStripes : ℕ → List UInt8 → UInt64 × UInt64 × UInt64 × UInt64 →
    (UInt64 × UInt64 × UInt64 × UInt64) × List UInt8
  | 0, s, v => (v, s)
  | fuel + 1, s, (a, b, c, d) =>
    if 32 ≤ s.length then
      hashStripes fuel (s.drop 32) (round64 a (little s 8), round64 b (little (s.drop 8) 8),
        round64 c (little (s.drop 16) 8), round64 d (little (s.drop 24) 8))
    else ((a, b, c, d), s)

/-- The loop over 8 bytes at once. -/
def hashWords : ℕ → List UInt8 → UInt64 → UInt64 × List UInt8
  | 0, s, h => (h, s)
  | fuel + 1, s, h =>
    if 8 ≤ s.length then
      hashWords fuel (s.drop 8) (rol (h ^^^ round64 0 (little s 8)) 27 * prime1 + prime4)
    else (h, s)

/-- `artifact_hash`. -/
def artifactHash (s : List UInt8) : UInt64 :=
  let start : UInt64 × List UInt8 :=
    if 32 ≤ s.length then
      let stripes := hashStripes s.length s (prime1 + prime2, prime2, 0, 0 - prime1)
      let (a, b, c, d) := stripes.1
      let h := rol a 1 + rol b 7 + rol c 12 + rol d 18
      ([a, b, c, d].foldl (fun h v => (h ^^^ round64 0 v) * prime1 + prime4) h, stripes.2)
    else (prime5, s)
  let words := hashWords s.length start.2 (start.1 + UInt64.ofNat s.length)
  let (h, s) :=
    if 4 ≤ words.2.length then
      (rol (words.1 ^^^ (little words.2 4 * prime1)) 23 * prime2 + prime3, words.2.drop 4)
    else words
  let h := s.foldl (fun h b => rol (h ^^^ (b.toUInt64 * prime5)) 11 * prime1) h
  let h := (h ^^^ (h >>> 33)) * prime2
  let h := (h ^^^ (h >>> 29)) * prime3
  h ^^^ (h >>> 32)

/-- The checksum self test of the driver. -/
example : [artifactHash [], artifactHash [97], artifactHash [97, 98, 99]] =
    [0xef46db3751d8e999, 0xd24ec4f1a98c6e5b, 0x44bc2cf5ad770999] := by decide

/-! ## Fields as bytes -/

/-- The size of the largest file that the driver reads. -/
def cacheLimit : ℕ := 64 * 1024 * 1024

/-- `character_count`: the bytes that do not continue a character. -/
def characterCount (bytes : List UInt8) : ℕ := bytes.countP fun b => b.toNat &&& 0xc0 ≠ 0x80

/-- The loop of `field` over the digits: the number, how many digits it has, and the rest. -/
def fieldDigits : List UInt8 → ℕ → ℕ → Option (ℕ × ℕ × List UInt8)
  | [], count, digits => some (count, digits, [])
  | b :: rest, count, digits =>
    if 48 ≤ b.toNat ∧ b.toNat ≤ 57 then
      if (cacheLimit - 9) / 10 < count then none
      else fieldDigits rest (count * 10 + (b.toNat - 48)) (digits + 1)
    else some (count, digits, b :: rest)

/-- The number of bytes that the first byte of a character announces; zero for no first byte. -/
def leadWidth (lead : ℕ) : ℕ :=
  if lead < 0x80 then 1
  else if 0xc2 ≤ lead ∧ lead ≤ 0xdf then 2
  else if 0xe0 ≤ lead ∧ lead ≤ 0xef then 3
  else if 0xf0 ≤ lead ∧ lead ≤ 0xf4 then 4
  else 0

/-- The number of bytes of the first character, if it is well formed. -/
def characterWidth (bytes : List UInt8) : Option ℕ :=
  let lead := byteAt bytes 0
  let width := leadWidth lead
  if width = 0 ∨ bytes.length < width then none
  else if (List.range width).any fun j => j ≠ 0 ∧ byteAt bytes j &&& 0xc0 ≠ 0x80 then none
  else if width = 3 ∧
      ((lead = 0xe0 ∧ byteAt bytes 1 < 0xa0) ∨ (lead = 0xed ∧ 0xa0 ≤ byteAt bytes 1)) then none
  else if width = 4 ∧
      ((lead = 0xf0 ∧ byteAt bytes 1 < 0x90) ∨ (lead = 0xf4 ∧ 0x90 ≤ byteAt bytes 1)) then none
  else some width

/-- The loop of `field` over `count` characters, 16 ASCII characters at once where there are as many:
the bytes behind them. -/
def fieldCharacters : ℕ → List UInt8 → ℕ → Option (List UInt8)
  | 0, rest, count => if count = 0 then some rest else none
  | fuel + 1, rest, count =>
    if count = 0 then some rest
    else if 16 ≤ count ∧ 16 ≤ rest.length ∧ (rest.take 16).all fun b => b.toNat < 0x80 then
      fieldCharacters fuel (rest.drop 16) (count - 16)
    else if rest = [] then none
    else match characterWidth rest with
      | none => none
      | some width => fieldCharacters fuel (rest.drop width) (count - 1)

/-- `field`: the bytes of the first field and the bytes behind it. -/
def cacheField (all : List UInt8) : Option (List UInt8 × List UInt8) :=
  match fieldDigits all 0 0 with
  | none => none
  | some (count, digits, rest) =>
    if digits = 0 then none
    else match rest with
      | [] => none
      | newline :: body =>
        if newline ≠ 10 then none
        else (fieldCharacters count body count).map fun rest =>
          (body.take (body.length - rest.length), rest)

/-- `write_field`. -/
def writeField (bytes : List UInt8) : List UInt8 :=
  utf8 (integerText (characterCount bytes)) ++ 10 :: bytes

/-! ## A cache file -/

/-- The magic word of a cache file. -/
def cacheMagic : Text := "minyar-local-cache-v1".toList

/-- The hexadecimal digits of a number, `n` of them. -/
def hexDigits : ℕ → ℕ → Text
  | 0, _ => []
  | n + 1, v => hexDigits n (v / 16) ++ [(v % 16).digitChar]

/-- The text of a checksum. -/
def checksumText (hash : UInt64) : Text := hexDigits 16 hash.toNat

/-- The loop of `valid_cache` over the fields. -/
def cacheFields : ℕ → List UInt8 → Option (List (List UInt8))
  | 0, all => if all = [] then some [] else none
  | n + 1, all => (cacheField all).bind fun (part, rest) => (cacheFields n rest).map (part :: ·)

/-- `valid_cache`: the checksum of the state in a cache file of this compiler and entry. -/
def validCache (all : List UInt8) (compilerHex entry : Text) : Option Text :=
  match cacheFields 5 all with
  | some [magic, compiler, path, checksum, state] =>
    let expected := checksumText (artifactHash state)
    if magic = utf8 cacheMagic ∧ compiler = utf8 compilerHex ∧ path = utf8 entry ∧
        checksum = utf8 expected then some expected
    else none
  | _ => none

/-- What `publish_cache` writes; nothing if the file would be too large to be read. -/
def publishCache (compilerHex entry : Text) (state : List UInt8) : Option (List UInt8) :=
  if cacheLimit < state.length + (utf8 compilerHex).length + (utf8 entry).length + 160 then none
  else some (writeField (utf8 cacheMagic) ++ writeField (utf8 compilerHex) ++
    writeField (utf8 entry) ++ writeField (utf8 (checksumText (artifactHash state))) ++
    writeField state)

/-! ## Characters as bytes -/

theorem byteAt_cons_zero (b : UInt8) (rest : List UInt8) : byteAt (b :: rest) 0 = b.toNat := rfl

theorem byteAt_cons_one (b₀ b₁ : UInt8) (rest : List UInt8) :
    byteAt (b₀ :: b₁ :: rest) 1 = b₁.toNat := rfl

theorem byteAt_cons_two (b₀ b₁ b₂ : UInt8) (rest : List UInt8) :
    byteAt (b₀ :: b₁ :: b₂ :: rest) 2 = b₂.toNat := rfl

theorem byteAt_cons_three (b₀ b₁ b₂ b₃ : UInt8) (rest : List UInt8) :
    byteAt (b₀ :: b₁ :: b₂ :: b₃ :: rest) 3 = b₃.toNat := rfl

/-- The driver sees the width of every encoded scalar. -/
theorem characterWidth_utf8EncodeChar (c : Char) (rest : List UInt8) :
    characterWidth (String.utf8EncodeChar c ++ rest) = some c.utf8Size := by
  rw [← String.length_utf8EncodeChar c]
  rcases utf8EncodeChar_cases c with ⟨b₀, hc, h₀⟩ | ⟨b₀, b₁, hc, h₀, h₁⟩ |
    ⟨b₀, b₁, b₂, hc, h₀, h₁, h₂, hlow, hhigh⟩ |
    ⟨b₀, b₁, b₂, b₃, hc, h₀, h₁, h₂, h₃, hlow, hhigh⟩
  · have hwidth : leadWidth b₀.toNat = 1 := if_pos h₀
    rw [hc]
    simp [characterWidth, byteAt_cons_zero, hwidth]
  · have hwidth : leadWidth b₀.toNat = 2 := by
      unfold leadWidth
      rw [if_neg (by omega), if_pos h₀]
    have hc₁ := (and_c0_eq_iff (UInt8.toNat_lt b₁)).mpr h₁
    rw [hc]
    simp [characterWidth, byteAt_cons_zero, byteAt_cons_one, hwidth, hc₁, List.range_succ]
  · have hwidth : leadWidth b₀.toNat = 3 := by
      unfold leadWidth
      rw [if_neg (by omega), if_neg (by omega), if_pos (by omega)]
    have hc₁ := (and_c0_eq_iff (UInt8.toNat_lt b₁)).mpr h₁
    have hc₂ := (and_c0_eq_iff (UInt8.toNat_lt b₂)).mpr h₂
    have hrange : ¬ ((b₀.toNat = 0xe0 ∧ b₁.toNat < 0xa0) ∨
        (b₀.toNat = 0xed ∧ 0xa0 ≤ b₁.toNat)) := by omega
    rw [hc]
    simp [characterWidth, byteAt_cons_zero, byteAt_cons_one, byteAt_cons_two, hwidth, hc₁, hc₂,
      List.range_succ, hrange]
  · have hwidth : leadWidth b₀.toNat = 4 := by
      unfold leadWidth
      rw [if_neg (by omega), if_neg (by omega), if_neg (by omega), if_pos h₀]
    have hc₁ := (and_c0_eq_iff (UInt8.toNat_lt b₁)).mpr h₁
    have hc₂ := (and_c0_eq_iff (UInt8.toNat_lt b₂)).mpr h₂
    have hc₃ := (and_c0_eq_iff (UInt8.toNat_lt b₃)).mpr h₃
    have hrange : ¬ ((b₀.toNat = 0xf0 ∧ b₁.toNat < 0x90) ∨
        (b₀.toNat = 0xf4 ∧ 0x90 ≤ b₁.toNat)) := by omega
    rw [hc]
    simp [characterWidth, byteAt_cons_zero, byteAt_cons_one, byteAt_cons_two, byteAt_cons_three,
      hwidth, hc₁, hc₂, hc₃, List.range_succ, hrange]

/-- One byte of every encoded scalar does not continue a character. -/
theorem characterCount_utf8EncodeChar (c : Char) :
    characterCount (String.utf8EncodeChar c) = 1 := by
  have hfirst : ∀ b : UInt8, b.toNat < 0x80 ∨ 0xc0 ≤ b.toNat →
      decide (b.toNat &&& 0xc0 ≠ 0x80) = true := by
    intro b hb
    rw [decide_eq_true_iff, ne_eq, and_c0_eq_iff (UInt8.toNat_lt b)]
    omega
  have hnext : ∀ b : UInt8, 0x80 ≤ b.toNat ∧ b.toNat < 0xc0 →
      decide (b.toNat &&& 0xc0 ≠ 0x80) = false := by
    intro b hb
    rw [decide_eq_false_iff_not, not_not, and_c0_eq_iff (UInt8.toNat_lt b)]
    exact hb
  unfold characterCount
  rcases utf8EncodeChar_cases c with ⟨b₀, hc, h₀⟩ | ⟨b₀, b₁, hc, h₀, h₁⟩ |
    ⟨b₀, b₁, b₂, hc, h₀, h₁, h₂, -⟩ | ⟨b₀, b₁, b₂, b₃, hc, h₀, h₁, h₂, h₃, -⟩
  all_goals
    rw [hc]
    simp only [List.countP_cons, List.countP_nil, hfirst b₀ (by omega)]
  · rfl
  · simp only [hnext b₁ h₁]
    rfl
  · simp only [hnext b₁ h₁, hnext b₂ h₂]
    rfl
  · simp only [hnext b₁ h₁, hnext b₂ h₂, hnext b₃ h₃]
    rfl

/-- The driver counts the characters of a Text. -/
theorem characterCount_utf8 (t : Text) : characterCount (utf8 t) = t.length := by
  induction t with
  | nil => rfl
  | cons c t ih =>
    have happend : characterCount (utf8 (c :: t)) =
        characterCount (String.utf8EncodeChar c) + characterCount (utf8 t) :=
      List.countP_append
    rw [happend, characterCount_utf8EncodeChar, ih, List.length_cons, Nat.add_comm]

/-- A newline is its own encoding. -/
theorem utf8_newline (t : Text) : utf8 ('\n' :: t) = 10 :: utf8 t := by
  rw [utf8_cons]
  rfl

/-- Both sides write the same bytes for a field. -/
theorem writeField_utf8 (t : Text) :
    writeField (utf8 t) = utf8 (integerText t.length ++ '\n' :: t) := by
  rw [writeField, characterCount_utf8, utf8_append, utf8_newline]

/-- An artifact is written field by field. -/
theorem utf8_encodeModuleFields_cons (t : Text) (fields : List Text) :
    utf8 (encodeModuleFields (t :: fields)) =
      writeField (utf8 t) ++ utf8 (encodeModuleFields fields) := by
  rw [encodeModuleFields_cons, writeField_utf8, ← utf8_append, List.append_assoc, List.cons_append]

/-! ## Reading a field -/

/-- The loop over characters stops behind them, however many it passes at once. -/
theorem fieldCharacters_utf8 {fuel : ℕ} (t s : Text) (hfuel : t.length ≤ fuel) :
    fieldCharacters fuel (utf8 (t ++ s)) t.length = some (utf8 s) := by
  induction fuel generalizing t with
  | zero =>
    rw [List.length_eq_zero_iff.mp (Nat.le_zero.mp hfuel)]
    rfl
  | succ fuel ih =>
    rw [fieldCharacters]
    by_cases hzero : t.length = 0
    · rw [if_pos hzero, List.length_eq_zero_iff.mp hzero, List.nil_append]
    rw [if_neg hzero]
    by_cases hascii : 16 ≤ t.length ∧ 16 ≤ (utf8 (t ++ s)).length ∧
        ((utf8 (t ++ s)).take 16).all fun b => b.toNat < 0x80
    · -- Sixteen bytes without a high bit are sixteen characters.
      rw [if_pos hascii]
      obtain ⟨hcount, hlength, hall⟩ := hascii
      have hbytes : ∀ i < 16, byteAt (utf8 (t ++ s)) (0 + i) < 0x80 := by
        intro i hi
        rw [Nat.zero_add]
        have hmem : (utf8 (t ++ s)).getD i 0 ∈ (utf8 (t ++ s)).take 16 := by
          rw [List.getD_eq_getElem _ _ (by omega)]
          refine List.mem_of_getElem? (i := i) ?_
          rw [List.getElem?_take_of_lt hi, List.getElem?_eq_getElem (by omega)]
        exact of_decide_eq_true (List.all_eq_true.mp hall _ hmem)
      obtain ⟨-, hoffset⟩ := utf8Offset_ascii_add (Nat.zero_le _) rfl (by omega) hbytes
      have hdrop := drop_utf8Offset (t ++ s) 16
      rw [show utf8Offset (t ++ s) 16 = 16 from hoffset, List.drop_append_of_le_length hcount]
        at hdrop
      have hrest := ih (t.drop 16) (by rw [List.length_drop]; omega)
      rw [List.length_drop] at hrest
      rw [hdrop, hrest]
    rw [if_neg hascii]
    cases t with
    | nil => exact absurd rfl hzero
    | cons c t =>
      have hne : utf8 (c :: t ++ s) ≠ [] :=
        List.append_ne_nil_of_left_ne_nil String.utf8EncodeChar_ne_nil _
      have hdrop : (utf8 (c :: t ++ s)).drop c.utf8Size = utf8 (t ++ s) := by
        rw [List.cons_append, utf8_cons, ← String.length_utf8EncodeChar]
        exact List.drop_left
      have hwidth : characterWidth (utf8 (c :: t ++ s)) = some c.utf8Size :=
        characterWidth_utf8EncodeChar c _
      rw [if_neg hne, hwidth]
      change fieldCharacters fuel ((utf8 (c :: t ++ s)).drop c.utf8Size) t.length = _
      rw [hdrop]
      exact ih t (Nat.le_of_succ_le_succ hfuel)

theorem fieldDigits_digit {d : ℕ} (hd : d < 10) {count : ℕ} (hcount : count ≤ (cacheLimit - 9) / 10)
    (digits : ℕ) (rest : List UInt8) :
    fieldDigits (utf8 [d.digitChar] ++ rest) count digits =
      fieldDigits rest (count * 10 + d) (digits + 1) := by
  have hall : ∀ d < 10, utf8 [d.digitChar] = [UInt8.ofNat (48 + d)] := by decide
  have hbyte : (UInt8.ofNat (48 + d)).toNat = 48 + d := toNat_ofNat_of_lt (by omega)
  rw [hall d hd, List.singleton_append, fieldDigits, hbyte, if_pos (by omega),
    if_neg (Nat.not_lt.mpr hcount), Nat.add_sub_cancel_left]

/-- The digits of a number that the driver accepts are read back. -/
theorem fieldDigits_integerText {n : ℕ} (h : n / 10 ≤ (cacheLimit - 9) / 10) (rest : List UInt8) :
    fieldDigits (utf8 (integerText n) ++ rest) 0 0 =
      fieldDigits rest n (integerText n).length := by
  unfold integerText
  induction n using Nat.strongRecOn generalizing rest with
  | ind n ih =>
    rw [Nat.toDigits_eq_if (by decide)]
    split_ifs with hlt
    · have hdigit := fieldDigits_digit hlt (Nat.zero_le _) 0 rest
      rwa [Nat.zero_mul, Nat.zero_add] at hdigit
    · have hsplit : n / 10 * 10 + n % 10 = n := Nat.div_add_mod' n 10
      rw [utf8_append, List.append_assoc, ih (n / 10) (by omega) (by omega),
        fieldDigits_digit (Nat.mod_lt n (by decide)) h, hsplit, List.length_append]
      rfl

/-- The driver reads the first field of an artifact. -/
theorem cacheField_encodeModuleFields {t : Text} (h : t.length ≤ cacheLimit - 9)
    (fields : List Text) :
    cacheField (utf8 (encodeModuleFields (t :: fields))) =
      some (utf8 t, utf8 (encodeModuleFields fields)) := by
  have hdigits : (integerText t.length).length ≠ 0 := fun hzero =>
    integerText_ne_nil _ (List.eq_nil_of_length_eq_zero hzero)
  have hstop : fieldDigits (10 :: utf8 (t ++ encodeModuleFields fields)) t.length
      (integerText t.length).length = some (t.length, (integerText t.length).length,
        10 :: utf8 (t ++ encodeModuleFields fields)) := if_neg (by decide)
  rw [cacheField, encodeModuleFields_cons, utf8_append, utf8_newline,
    fieldDigits_integerText (Nat.div_le_div_right h), hstop]
  simp only [if_neg hdigits, ne_eq, not_true_eq_false, if_false,
    fieldCharacters_utf8 t (encodeModuleFields fields) le_rfl, Option.map_some]
  rw [utf8_append, List.length_append, Nat.add_sub_cancel, List.take_left]

/-- The driver reads all fields of an artifact. -/
theorem cacheFields_encodeModuleFields {fields : List Text}
    (h : ∀ t ∈ fields, t.length ≤ cacheLimit - 9) :
    cacheFields fields.length (utf8 (encodeModuleFields fields)) = some (fields.map utf8) := by
  induction fields with
  | nil => rfl
  | cons t fields ih =>
    rw [List.length_cons, cacheFields, cacheField_encodeModuleFields (h t List.mem_cons_self)]
    simp only [Option.bind_some, ih fun t ht => h t (List.mem_cons_of_mem _ ht), Option.map_some,
      List.map_cons]

/-! ## Publishing and validating -/

theorem length_hexDigits (n v : ℕ) : (hexDigits n v).length = n := by
  induction n generalizing v with
  | zero => rfl
  | succ n ih => rw [hexDigits, List.length_append, ih, List.length_singleton]

/-- The fields of the cache file with a state. -/
def cacheFileFields (compilerHex entry state : Text) : List Text :=
  [cacheMagic, compilerHex, entry, checksumText (artifactHash (utf8 state)), state]

/-- The bytes that are published for a state are its cache file. -/
theorem publishCache_utf8 {compilerHex entry state : Text} {file : List UInt8}
    (h : publishCache compilerHex entry (utf8 state) = some file) :
    file = utf8 (encodeModuleFields (cacheFileFields compilerHex entry state)) ∧
      (utf8 state).length + (utf8 compilerHex).length + (utf8 entry).length + 160 ≤ cacheLimit := by
  unfold publishCache at h
  split_ifs at h with hlarge
  refine ⟨?_, Nat.not_lt.mp hlarge⟩
  rw [← Option.some.inj h, cacheFileFields, utf8_encodeModuleFields_cons,
    utf8_encodeModuleFields_cons, utf8_encodeModuleFields_cons, utf8_encodeModuleFields_cons,
    utf8_encodeModuleFields_cons, encodeModuleFields_nil, utf8_nil, List.append_nil]
  simp only [List.append_assoc]

/-- All fields of a published file are short enough for the driver. -/
theorem length_cacheFileFields_le {compilerHex entry state : Text}
    (h : (utf8 state).length + (utf8 compilerHex).length + (utf8 entry).length + 160 ≤ cacheLimit) :
    ∀ t ∈ cacheFileFields compilerHex entry state, t.length ≤ cacheLimit - 9 := by
  have hstate := length_le_utf8 state
  have hcompiler := length_le_utf8 compilerHex
  have hentry := length_le_utf8 entry
  have hmagic : cacheMagic.length = 21 := by decide
  have hchecksum := length_hexDigits 16 (artifactHash (utf8 state)).toNat
  intro t ht
  simp only [cacheFileFields, List.mem_cons, List.not_mem_nil, or_false] at ht
  rcases ht with rfl | rfl | rfl | rfl | rfl
  · omega
  · omega
  · omega
  · rw [checksumText]
    omega
  · omega

/-- A field that is not longer than a file is written with at most eight digits. -/
theorem length_writeField_le {bytes : List UInt8} (h : bytes.length ≤ cacheLimit) :
    (writeField bytes).length ≤ bytes.length + 9 := by
  have hcount : characterCount bytes ≤ bytes.length := List.countP_le_length
  have hdigits : (integerText (characterCount bytes)).length ≤ 8 := by
    refine (Nat.length_toDigits_le_iff (by decide) (by decide)).mpr ?_
    unfold cacheLimit at h
    omega
  have hascii : (utf8 (integerText (characterCount bytes))).length =
      (integerText (characterCount bytes)).length := by
    refine (length_utf8_eq_iff _).mpr fun c hc => ?_
    have hdigit := Nat.isDigit_of_mem_toDigits (by decide) (by decide) hc
    simp only [Char.isDigit, Bool.and_eq_true, decide_eq_true_eq] at hdigit
    exact lt_of_le_of_lt hdigit.2 (by decide)
  rw [writeField, List.length_append, List.length_cons, hascii]
  omega

/-- A published file is small enough to be read. -/
theorem length_publishCache_le {compilerHex entry : Text} {state file : List UInt8}
    (h : publishCache compilerHex entry state = some file) : file.length ≤ cacheLimit := by
  unfold publishCache at h
  split_ifs at h with hlarge
  cases h
  have hmagic : (utf8 cacheMagic).length = 21 := by decide
  have hchecksum : (utf8 (checksumText (artifactHash state))).length ≤ 64 := by
    have hle := length_utf8_le (checksumText (artifactHash state))
    rwa [checksumText, length_hexDigits] at hle
  have h₁ := @length_writeField_le (utf8 cacheMagic) (by rw [hmagic]; decide)
  have h₂ := @length_writeField_le (utf8 compilerHex) (by omega)
  have h₃ := @length_writeField_le (utf8 entry) (by omega)
  have h₄ := @length_writeField_le (utf8 (checksumText (artifactHash state)))
    (hchecksum.trans (by decide))
  have h₅ := @length_writeField_le state (by omega)
  simp only [List.length_append]
  omega

/-- A published file is read and accepted for its compiler and entry path and for no others, and its
identity is the checksum of the state. -/
theorem validCache_publishCache {compilerHex entry state : Text} {file : List UInt8}
    (h : publishCache compilerHex entry (utf8 state) = some file) :
    file.length ≤ cacheLimit ∧ ∀ compilerHex' entry' identity : Text,
      validCache file compilerHex' entry' = some identity ↔ compilerHex' = compilerHex ∧
        entry' = entry ∧ identity = checksumText (artifactHash (utf8 state)) := by
  refine ⟨length_publishCache_le h, fun compilerHex' entry' identity => ?_⟩
  obtain ⟨rfl, hsize⟩ := publishCache_utf8 h
  have hfields := cacheFields_encodeModuleFields (length_cacheFileFields_le hsize)
  unfold validCache
  rw [show (5 : ℕ) = (cacheFileFields compilerHex entry state).length from rfl, hfields]
  simp only [cacheFileFields, List.map_cons, List.map_nil, and_true, true_and,
    utf8_injective.eq_iff]
  split_ifs with hsame
  · obtain ⟨rfl, rfl⟩ := hsame
    exact ⟨fun hid => ⟨rfl, rfl, (Option.some.inj hid).symm⟩, fun hid => congrArg some hid.2.2.symm⟩
  · exact ⟨fun hid => (by cases hid), fun hid => absurd ⟨hid.1.symm, hid.2.1.symm⟩ hsame⟩

/-- The cache file of a small state, for its own entry path and for another one. -/
theorem validCache_publishCache_letter : ∃ file,
    publishCache "00".toList "m.min".toList (utf8 "é".toList) = some file ∧
    (∃ identity, validCache file "00".toList "m.min".toList = some identity) ∧
    validCache file "00".toList "n.min".toList = none := by
  have hfile : (publishCache "00".toList "m.min".toList (utf8 "é".toList)).isSome := by decide
  obtain ⟨file, h⟩ := Option.isSome_iff_exists.mp hfile
  obtain ⟨-, hvalid⟩ := validCache_publishCache h
  refine ⟨file, h, ⟨_, (hvalid _ _ _).mpr ⟨rfl, rfl, rfl⟩⟩, ?_⟩
  rw [Option.eq_none_iff_forall_ne_some]
  intro identity hidentity
  exact absurd ((hvalid _ _ _).mp hidentity).2.1 (by decide)

end Minyar

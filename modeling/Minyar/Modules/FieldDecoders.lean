import Minyar.Library.Decimal
import Minyar.Modules.CacheFile

/-!
# What the decoders of fields accept

`FieldSequence` and `FieldBytes` say which artifacts are sequences of fields, one for characters and
one for bytes.  `decodeModuleFields` and the `field` of the driver accept exactly these and return
all fields or none.  The driver passes sixteen ASCII characters at once, which agrees with passing
them one by one.
-/

namespace Minyar

/-! ## The compiler -/

/-- A sequence of fields. -/
inductive FieldSequence : Text → List Text → Prop
  /-- No field. -/
  | nil : FieldSequence [] []
  /-- The number of characters of a field, a newline, the characters and the other fields. -/
  | cons {numeral contents rest : Text} {fields : List Text}
      (hnumeral : IsNumeral numeral contents.length) (hbound : contents.length / 10 ≤ 100000000)
      (hrest : FieldSequence rest fields) :
      FieldSequence (numeral ++ '\n' :: (contents ++ rest)) (contents :: fields)

/-- The digits are looked up. -/
theorem digitOf_eq (c : Char) :
    IsDigit c ∧ digitOf c = c.toNat - '0'.toNat ∧ digitOf c < 10 ∨ ¬ IsDigit c ∧ digitOf c = 10 := by
  by_cases hdigit : IsDigit c
  · obtain ⟨hlow, hhigh⟩ := hdigit.toNat
    have hall : ∀ n < 10, digitOf (Char.ofNat (48 + n)) = n := by decide
    have hzero : '0'.toNat = 48 := rfl
    have hnine : '9'.toNat = 57 := rfl
    have hc : Char.ofNat (48 + (c.toNat - '0'.toNat)) = c := by
      rw [show 48 + (c.toNat - '0'.toNat) = c.toNat by omega, Char.ofNat_toNat]
    have hvalue := hall (c.toNat - '0'.toNat) (by omega)
    rw [hc] at hvalue
    exact Or.inl ⟨hdigit, hvalue, by omega⟩
  · refine Or.inr ⟨hdigit, ?_⟩
    have hne : ∀ d ∈ ['0', '1', '2', '3', '4', '5', '6', '7', '8', '9'], d ≠ c := by
      rintro d hd rfl
      have hdigits : ∀ d ∈ ['0', '1', '2', '3', '4', '5', '6', '7', '8', '9'], IsDigit d :=
        forall_mem_of_all (by decide)
      exact hdigit (hdigits d hd)
    unfold digitOf
    rw [List.findIdx_eq_length_of_false fun d hd => decide_eq_false (hne d hd)]
    rfl

/-- The loop reads numbers whose digits but the last are at most `100000000`. -/
theorem moduleNaturalFrom_eq_iff (value : Text) (r n : ℕ) :
    moduleNaturalFrom value r = n ↔ (∀ c ∈ value, IsDigit c) ∧ value.foldl pushDigit r = n ∧
      (value ≠ [] → n / 10 ≤ 100000000) := by
  induction value generalizing r with
  | nil => simp [moduleNaturalFrom]
  | cons c rest ih =>
    rw [moduleNaturalFrom]
    rcases digitOf_eq c with ⟨hdigit, hvalue, hlt⟩ | ⟨hdigit, hten⟩
    · have hpush : (r : ℤ) * 10 + (digitOf c : ℤ) = (pushDigit r c : ℕ) := by
        rw [hvalue, pushDigit]
        push_cast
        rfl
      have hle := le_foldl_pushDigit rest (pushDigit r c)
      have hdiv : pushDigit r c / 10 = r := by
        rw [pushDigit, ← hvalue]
        omega
      by_cases hbound : 100000000 < r
      · rw [if_pos (Or.inr (by omega))]
        refine ⟨fun h => by omega, ?_⟩
        rintro ⟨-, hfold, hn⟩
        have hn := hn (List.cons_ne_nil c rest)
        rw [List.foldl_cons] at hfold
        have := Nat.div_le_div_right (c := 10) hle
        omega
      · rw [if_neg (by omega), hpush, ih]
        constructor
        · rintro ⟨hall, hfold, hn⟩
          refine ⟨List.forall_mem_cons.mpr ⟨hdigit, hall⟩, hfold, fun _ => ?_⟩
          rcases eq_or_ne rest [] with rfl | hrest
          · rw [List.foldl_nil] at hfold
            omega
          · exact hn hrest
        · rintro ⟨hall, hfold, hn⟩
          exact ⟨(List.forall_mem_cons.mp hall).2, hfold, fun _ => hn (List.cons_ne_nil c rest)⟩
    · rw [if_pos (Or.inl hten)]
      refine ⟨fun h => by omega, fun h => absurd (h.1 c List.mem_cons_self) hdigit⟩

/-- `moduleNatural` reads exactly the numerals of numbers below `1000000010`. -/
theorem moduleNatural_eq_iff (value : Text) (n : ℕ) :
    moduleNatural value = n ↔ IsNumeral value n ∧ n / 10 ≤ 100000000 := by
  unfold moduleNatural
  rcases eq_or_ne value [] with rfl | hvalue
  · rw [if_pos List.length_nil]
    exact ⟨fun h => by omega, fun ⟨h, _⟩ => absurd rfl h.nonempty⟩
  · rw [if_neg fun h => hvalue (List.eq_nil_of_length_eq_zero h)]
    have hiff := moduleNaturalFrom_eq_iff value 0 n
    rw [Nat.cast_zero] at hiff
    rw [hiff]
    exact ⟨fun ⟨hall, hfold, hn⟩ => ⟨⟨hvalue, hall, hfold⟩, hn hvalue⟩,
      fun ⟨h, hn⟩ => ⟨h.digit, h.value, fun _ => hn⟩⟩

/-- A digit is no newline. -/
theorem IsNumeral.ne_newline {numeral : Text} {n : ℕ} (h : IsNumeral numeral n) :
    ∀ c ∈ numeral, decide (c ≠ '\n') = true := by
  intro c hc
  refine decide_eq_true ?_
  rintro rfl
  exact absurd (h.digit _ hc) (by decide)

/-- The decoder accepts the sequences of fields. -/
theorem FieldSequence.decode {source : Text} {fields : List Text} (h : FieldSequence source fields)
    {n : ℕ} (hn : fields.length ≤ n) : decodeFieldsFrom n source = some fields := by
  induction h generalizing n with
  | nil =>
    cases n with
    | zero => rfl
    | succ n => rfl
  | @cons numeral contents rest fields hnumeral hbound hrest ih =>
    obtain ⟨n, rfl⟩ : ∃ m, n = m + 1 := ⟨n - 1, by rw [List.length_cons] at hn; omega⟩
    have hnewline := hnumeral.ne_newline
    have hlength := (moduleNatural_eq_iff numeral contents.length).mpr ⟨hnumeral, hbound⟩
    rw [decodeFieldsFrom, if_neg (by simp), List.takeWhile_append_of_pos hnewline,
      List.dropWhile_append_of_pos hnewline]
    simp only [ne_eq, not_true_eq_false, decide_false, Bool.false_eq_true, not_false_eq_true,
      List.takeWhile_cons_of_neg, List.append_nil, List.dropWhile_cons_of_neg, hlength,
      Int.toNat_natCast, List.drop_left, List.take_left]
    rw [if_neg, ih (by rw [List.length_cons] at hn; omega)]
    · rfl
    · rw [List.length_append]
      omega

/-- The decoder accepts nothing else. -/
theorem fieldSequence_of_decode {n : ℕ} {source : Text} {fields : List Text}
    (hn : source.length ≤ n) (h : decodeFieldsFrom n source = some fields) :
    FieldSequence source fields := by
  induction n generalizing source fields with
  | zero =>
    cases h
    rw [List.length_eq_zero_iff.mp (Nat.le_zero.mp hn)]
    exact .nil
  | succ n ih =>
    rw [decodeFieldsFrom] at h
    split_ifs at h with hempty
    · cases h
      rw [hempty]
      exact .nil
    · have hsplit := List.takeWhile_append_dropWhile (p := fun c => decide (c ≠ '\n')) (l := source)
      generalize hnumeral : source.takeWhile (fun c => decide (c ≠ '\n')) = numeral at h hsplit
      cases hdrop : source.dropWhile (fun c => decide (c ≠ '\n')) with
      | nil =>
        rw [hdrop] at h
        cases h
      | cons newline body =>
        have hnewline : newline = '\n' := by
          have := List.head?_dropWhile_not (fun c => decide (c ≠ '\n')) source
          rw [hdrop] at this
          simpa using this
        subst hnewline
        rw [hdrop] at h hsplit
        simp only at h
        split_ifs at h with hlength
        obtain ⟨length, hvalue⟩ : ∃ length : ℕ, moduleNatural numeral = length :=
          ⟨_, (Int.toNat_of_nonneg (by omega)).symm⟩
        rw [hvalue, Int.toNat_natCast] at h
        obtain ⟨fields, hfields, rfl⟩ := Option.map_eq_some_iff.mp h
        obtain ⟨hisNumeral, hbound⟩ := (moduleNatural_eq_iff _ _).mp hvalue
        have htake : (body.take length).length = length := List.length_take_of_le (by omega)
        have hrest : (body.drop length).length ≤ n := by
          rw [← hsplit, List.length_append, List.length_cons] at hn
          rw [List.length_drop]
          omega
        have hsequence := ih hrest hfields
        have hcons : FieldSequence (numeral ++ '\n' :: (body.take length ++ body.drop length))
            (body.take length :: fields) :=
          .cons (by rwa [htake]) (by rwa [htake]) hsequence
        rwa [List.take_append_drop, hsplit] at hcons

/-- A sequence of fields has a character for every field. -/
theorem FieldSequence.length_le {source : Text} {fields : List Text}
    (h : FieldSequence source fields) : fields.length ≤ source.length := by
  induction h with
  | nil => exact le_rfl
  | cons _ _ _ ih =>
    simp only [List.length_cons, List.length_append]
    omega

/-- `decodeModuleFields` gives the fields of a sequence of fields. -/
theorem FieldSequence.decodeModuleFields {source : Text} {fields : List Text}
    (h : FieldSequence source fields) : decodeModuleFields source = fields := by
  unfold Minyar.decodeModuleFields
  rw [h.decode h.length_le]
  rfl

/-- Of any other text it gives no field. -/
theorem decodeModuleFields_eq_nil {source : Text} (h : ¬ ∃ fields, FieldSequence source fields) :
    decodeModuleFields source = [] := by
  unfold decodeModuleFields
  cases hdecode : decodeFieldsFrom source.length source with
  | none => rfl
  | some fields => exact absurd ⟨fields, fieldSequence_of_decode le_rfl hdecode⟩ h

/-! ## Characters of the driver -/

/-- `field` passes `count` characters one by one: the bytes behind them. -/
def fieldCharactersOne : ℕ → List UInt8 → Option (List UInt8)
  | 0, rest => some rest
  | count + 1, rest =>
    if rest = [] then none
    else (characterWidth rest).bind fun width => fieldCharactersOne count (rest.drop width)

/-- A byte without its high bit is a character. -/
theorem characterWidth_ascii {b : UInt8} (h : b.toNat < 0x80) (rest : List UInt8) :
    characterWidth (b :: rest) = some 1 := by
  have hwidth : leadWidth b.toNat = 1 := if_pos h
  simp [characterWidth, byteAt_cons_zero, hwidth]

/-- ASCII characters are passed byte by byte. -/
theorem fieldCharactersOne_ascii {k : ℕ} {rest : List UInt8} (hlength : k ≤ rest.length)
    (h : ∀ b ∈ rest.take k, b.toNat < 0x80) (count : ℕ) :
    fieldCharactersOne (count + k) rest = fieldCharactersOne count (rest.drop k) := by
  induction k generalizing rest with
  | zero => rfl
  | succ k ih =>
    cases rest with
    | nil => exact absurd hlength (Nat.not_succ_le_zero k)
    | cons b rest =>
      rw [List.take_succ_cons, List.forall_mem_cons] at h
      rw [← Nat.add_assoc, fieldCharactersOne, if_neg (List.cons_ne_nil b rest),
        characterWidth_ascii h.1]
      exact ih (Nat.le_of_succ_le_succ hlength) h.2

/-- Passing sixteen ASCII characters at once agrees with passing them one by one, on all bytes. -/
theorem fieldCharacters_eq {fuel count : ℕ} (h : count ≤ fuel) (rest : List UInt8) :
    fieldCharacters fuel rest count = fieldCharactersOne count rest := by
  induction fuel generalizing count rest with
  | zero =>
    rw [Nat.le_zero.mp h]
    rfl
  | succ fuel ih =>
    rw [fieldCharacters]
    by_cases hzero : count = 0
    · rw [if_pos hzero, hzero]
      rfl
    obtain ⟨count, rfl⟩ : ∃ m, count = m + 1 := ⟨count - 1, by omega⟩
    rw [if_neg hzero]
    split_ifs with hascii hempty
    · obtain ⟨hcount, hlength, hall⟩ := hascii
      rw [ih (by omega)]
      have hbytes : ∀ b ∈ rest.take 16, b.toNat < 0x80 := fun b hb =>
        of_decide_eq_true (List.all_eq_true.mp hall b hb)
      rw [← fieldCharactersOne_ascii hlength hbytes, Nat.sub_add_cancel hcount]
    · rw [fieldCharactersOne, if_pos hempty]
    · rw [fieldCharactersOne, if_neg hempty]
      cases characterWidth rest with
      | none => rfl
      | some width => exact ih (Nat.le_of_succ_le_succ h) _

/-- What the first byte of a character announces. -/
theorem leadWidth_cases (lead : ℕ) : leadWidth lead = 0 ∨
    leadWidth lead = 1 ∧ lead < 0x80 ∨ leadWidth lead = 2 ∧ 0xc2 ≤ lead ∧ lead ≤ 0xdf ∨
    leadWidth lead = 3 ∧ 0xe0 ≤ lead ∧ lead < 0xf0 ∨
    leadWidth lead = 4 ∧ 0xf0 ≤ lead ∧ lead ≤ 0xf4 := by
  unfold leadWidth
  split_ifs <;> omega

/-- A width is that of a scalar at the front. -/
theorem exists_scalar_of_characterWidth {bytes : List UInt8} {width : ℕ}
    (h : characterWidth bytes = some width) :
    ∃ c, bytes = String.utf8EncodeChar c ++ bytes.drop width := by
  unfold characterWidth at h
  simp only at h
  split_ifs at h with hlead hnext hthree hfour
  obtain rfl := Option.some.inj h
  have hcontinue : ∀ j < leadWidth (byteAt bytes 0), j ≠ 0 →
      0x80 ≤ byteAt bytes j ∧ byteAt bytes j < 0xc0 := by
    intro j hj hj0
    by_contra hnot
    rw [← and_c0_eq_iff (byteAt_lt bytes j)] at hnot
    exact hnext (List.any_eq_true.mpr ⟨j, List.mem_range.mpr hj, decide_eq_true ⟨hj0, hnot⟩⟩)
  obtain ⟨hpos, hlength⟩ := not_or.mp hlead
  rcases leadWidth_cases (byteAt bytes 0) with hw | ⟨hw, hb⟩ | ⟨hw, hb⟩ | ⟨hw, hb⟩ | ⟨hw, hb⟩
  · exact absurd hw hpos
  · rw [hw] at hlength ⊢
    match bytes with
    | [] => simp at hlength
    | b₀ :: rest =>
      obtain ⟨c, hc⟩ := exists_scalar_one hb
      exact ⟨c, by rw [hc]; rfl⟩
  · have h₁ := hcontinue 1 (by omega) one_ne_zero
    rw [hw] at hlength ⊢
    match bytes with
    | [] | [_] => simp at hlength
    | b₀ :: b₁ :: rest =>
      obtain ⟨c, hc⟩ := exists_scalar_two hb h₁
      exact ⟨c, by rw [hc]; rfl⟩
  · have h₁ := hcontinue 1 (by omega) one_ne_zero
    have h₂ := hcontinue 2 (by omega) two_ne_zero
    rw [hw] at hlength hthree ⊢
    match bytes with
    | [] | [_] | [_, _] => simp at hlength
    | b₀ :: b₁ :: b₂ :: rest =>
      simp only [byteAt_cons_zero, byteAt_cons_one, byteAt_cons_two, true_and] at hb h₁ h₂ hthree
      obtain ⟨c, hc⟩ := exists_scalar_three hb h₁ h₂ (by omega) (by omega)
      exact ⟨c, by rw [hc]; rfl⟩
  · have h₁ := hcontinue 1 (by omega) one_ne_zero
    have h₂ := hcontinue 2 (by omega) two_ne_zero
    have h₃ := hcontinue 3 (by omega) three_ne_zero
    rw [hw] at hlength hfour ⊢
    match bytes with
    | [] | [_] | [_, _] | [_, _, _] => simp at hlength
    | b₀ :: b₁ :: b₂ :: b₃ :: rest =>
      simp only [byteAt_cons_zero, byteAt_cons_one, byteAt_cons_two, byteAt_cons_three, true_and]
        at hb h₁ h₂ h₃ hfour
      obtain ⟨c, hc⟩ := exists_scalar_four hb h₁ h₂ h₃ (by omega) (by omega)
      exact ⟨c, by rw [hc]; rfl⟩

/-- The driver passes exactly the encodings of Texts with as many characters. -/
theorem fieldCharactersOne_eq_some_iff (count : ℕ) (bytes rest : List UInt8) :
    fieldCharactersOne count bytes = some rest ↔
      ∃ t : Text, t.length = count ∧ bytes = utf8 t ++ rest := by
  induction count generalizing bytes with
  | zero =>
    rw [fieldCharactersOne, Option.some_inj]
    constructor
    · rintro rfl
      exact ⟨[], rfl, rfl⟩
    · rintro ⟨t, ht, rfl⟩
      rw [List.length_eq_zero_iff.mp ht]
      rfl
  | succ count ih =>
    rw [fieldCharactersOne]
    constructor
    · intro h
      split_ifs at h with hempty
      obtain ⟨width, hwidth, hrest⟩ := Option.bind_eq_some_iff.mp h
      obtain ⟨c, hc⟩ := exists_scalar_of_characterWidth hwidth
      obtain ⟨t, ht, hbytes⟩ := (ih _).mp hrest
      refine ⟨c :: t, congrArg (· + 1) ht, ?_⟩
      rw [utf8_cons, List.append_assoc, ← hbytes]
      exact hc
    · rintro ⟨t, ht, rfl⟩
      cases t with
      | nil => cases ht
      | cons c t =>
        have hne : utf8 (c :: t) ++ rest ≠ [] :=
          List.append_ne_nil_of_left_ne_nil
            (List.append_ne_nil_of_left_ne_nil String.utf8EncodeChar_ne_nil _) _
        have hdrop : (utf8 (c :: t) ++ rest).drop c.utf8Size = utf8 t ++ rest := by
          rw [utf8_cons, List.append_assoc, ← String.length_utf8EncodeChar]
          exact List.drop_left
        rw [if_neg hne, utf8_cons, List.append_assoc, characterWidth_utf8EncodeChar,
          ← List.append_assoc, ← utf8_cons, Option.bind_some, hdrop]
        exact (ih _).mpr ⟨t, Nat.succ.inj ht, rfl⟩

/-! ## Fields of the driver -/

/-- The byte of a digit. -/
theorem exists_digit {b : UInt8} (h : 48 ≤ b.toNat ∧ b.toNat ≤ 57) :
    ∃ c, IsDigit c ∧ utf8 [c] = [b] ∧ c.toNat - '0'.toNat = b.toNat - 48 := by
  have hall : ∀ n < 10, IsDigit (Char.ofNat (48 + n)) ∧
      utf8 [Char.ofNat (48 + n)] = [UInt8.ofNat (48 + n)] ∧
      (Char.ofNat (48 + n)).toNat - '0'.toNat = n := by decide
  obtain ⟨hdigit, hbytes, hvalue⟩ := hall (b.toNat - 48) (by omega)
  refine ⟨_, hdigit, ?_, hvalue⟩
  rw [hbytes, show 48 + (b.toNat - 48) = b.toNat by omega, UInt8.ofNat_toNat]

/-- The byte of a digit is in the range of the digits. -/
theorem utf8_digit {c : Char} (h : IsDigit c) :
    ∃ b : UInt8, utf8 [c] = [b] ∧ (48 ≤ b.toNat ∧ b.toNat ≤ 57) ∧
      b.toNat - 48 = c.toNat - '0'.toNat := by
  obtain ⟨hlow, hhigh⟩ := h.toNat
  have hzero : '0'.toNat = 48 := rfl
  have hnine : '9'.toNat = 57 := rfl
  have hval : c.val.toNat = c.toNat := rfl
  have hbyte : (UInt8.ofNat c.toNat).toNat = c.toNat := toNat_ofNat_of_lt (by omega)
  refine ⟨UInt8.ofNat c.toNat, ?_, ?_, ?_⟩
  · rw [utf8_cons, utf8EncodeChar_of_ascii (by omega)]
    rfl
  · omega
  · omega

/-- The first byte behind a numeral in front, or the one of its first digit. -/
theorem cons_eq_utf8_append {b : UInt8} {bytes rest : List UInt8} {numeral : Text}
    (hdigit : ∀ c ∈ numeral, IsDigit c) (h : b :: bytes = utf8 numeral ++ rest) :
    numeral = [] ∧ rest = b :: bytes ∨ ∃ c digits, numeral = c :: digits ∧
      (48 ≤ b.toNat ∧ b.toNat ≤ 57) ∧ b.toNat - 48 = c.toNat - '0'.toNat ∧
      bytes = utf8 digits ++ rest := by
  cases numeral with
  | nil => exact Or.inl ⟨rfl, h.symm⟩
  | cons c digits =>
    obtain ⟨b', hbyte, hrange, hvalue⟩ := utf8_digit (hdigit c List.mem_cons_self)
    have hcons : utf8 (c :: digits) = utf8 [c] ++ utf8 digits := utf8_append [c] digits
    rw [hcons, hbyte] at h
    obtain ⟨rfl, hbytes⟩ := List.cons.inj h
    exact Or.inr ⟨c, digits, rfl, hrange, hvalue, hbytes⟩

/-- The loop over digits reads the numeral in front. -/
theorem fieldDigits_eq_some_iff (bytes rest : List UInt8) (r k n m : ℕ) :
    fieldDigits bytes r k = some (n, m, rest) ↔ ∃ numeral : Text, bytes = utf8 numeral ++ rest ∧
      (∀ c ∈ numeral, IsDigit c) ∧ numeral.foldl pushDigit r = n ∧ k + numeral.length = m ∧
      (numeral ≠ [] → n / 10 ≤ (cacheLimit - 9) / 10) ∧
      ∀ b ∈ rest.head?, ¬ (48 ≤ b.toNat ∧ b.toNat ≤ 57) := by
  induction bytes generalizing r k with
  | nil =>
    rw [fieldDigits]
    constructor
    · intro h
      cases h
      exact ⟨[], rfl, by simp, rfl, rfl, by simp, by simp⟩
    · rintro ⟨numeral, hbytes, -, hfold, hm, -⟩
      obtain ⟨hnumeral, rfl⟩ := List.append_eq_nil_iff.mp hbytes.symm
      have hnil : numeral = [] := utf8_injective hnumeral
      rw [hnil] at hfold hm
      rw [← hfold, ← hm]
      rfl
  | cons b bytes ih =>
    rw [fieldDigits]
    by_cases hdigit : 48 ≤ b.toNat ∧ b.toNat ≤ 57
    · rw [if_pos hdigit]
      have hdiv : ∀ c : Char, b.toNat - 48 = c.toNat - '0'.toNat →
          r * 10 + (b.toNat - 48) = pushDigit r c ∧ pushDigit r c / 10 = r := by
        intro c hvalue
        rw [pushDigit, ← hvalue]
        omega
      split_ifs with hlimit
      · refine ⟨fun h => (by cases h), ?_⟩
        rintro ⟨numeral, hbytes, hall, hfold, -, hbound, hhead⟩
        rcases cons_eq_utf8_append hall hbytes with
          ⟨-, rfl⟩ | ⟨c, digits, rfl, -, hvalue, -⟩
        · exact absurd hdigit (hhead b rfl)
        · have hle := Nat.div_le_div_right (c := 10) (le_foldl_pushDigit digits (pushDigit r c))
          have hn := hbound (List.cons_ne_nil c digits)
          rw [List.foldl_cons] at hfold
          rw [(hdiv c hvalue).2] at hle
          omega
      · rw [ih]
        constructor
        · rintro ⟨numeral, rfl, hall, hfold, hm, hbound, hhead⟩
          obtain ⟨c, hc, hbyte, hvalue⟩ := exists_digit hdigit
          obtain ⟨hpush, hr⟩ := hdiv c hvalue.symm
          refine ⟨c :: numeral, ?_, List.forall_mem_cons.mpr ⟨hc, hall⟩, ?_, ?_, fun _ => ?_, hhead⟩
          · rw [show utf8 (c :: numeral) = utf8 [c] ++ utf8 numeral from utf8_append [c] numeral,
              hbyte]
            rfl
          · rw [List.foldl_cons, ← hpush]
            exact hfold
          · rw [List.length_cons]
            omega
          · rcases eq_or_ne numeral [] with rfl | hne
            · rw [List.foldl_nil, hpush] at hfold
              omega
            · exact hbound hne
        · rintro ⟨numeral, hbytes, hall, hfold, hm, hbound, hhead⟩
          rcases cons_eq_utf8_append hall hbytes with
            ⟨-, rfl⟩ | ⟨c, digits, rfl, -, hvalue, hrest⟩
          · exact absurd hdigit (hhead b rfl)
          · refine ⟨digits, hrest, (List.forall_mem_cons.mp hall).2, ?_, ?_,
              fun _ => hbound (List.cons_ne_nil c digits), hhead⟩
            · rw [(hdiv c hvalue).1]
              exact hfold
            · rw [List.length_cons] at hm
              omega
    · rw [if_neg hdigit]
      constructor
      · intro h
        cases h
        refine ⟨[], rfl, by simp, rfl, rfl, by simp, fun b' hb' => ?_⟩
        cases hb'
        exact hdigit
      · rintro ⟨numeral, hbytes, hall, hfold, hm, -⟩
        rcases cons_eq_utf8_append hall hbytes with
          ⟨rfl, rfl⟩ | ⟨c, digits, rfl, hrange, -⟩
        · rw [← hfold, ← hm]
          rfl
        · exact absurd hrange hdigit

/-- A field of the driver: the number of its characters, a newline and a Text. -/
def FieldBytes (all value rest : List UInt8) : Prop :=
  ∃ numeral t : Text, all = utf8 numeral ++ 10 :: (value ++ rest) ∧ value = utf8 t ∧
    IsNumeral numeral t.length ∧ t.length / 10 ≤ (cacheLimit - 9) / 10

/-- `field` accepts exactly these. -/
theorem cacheField_eq_some_iff (all value rest : List UInt8) :
    cacheField all = some (value, rest) ↔ FieldBytes all value rest := by
  unfold cacheField
  constructor
  · intro h
    cases hdigits : fieldDigits all 0 0 with
    | none => rw [hdigits] at h; cases h
    | some found =>
      obtain ⟨count, digits, behind⟩ := found
      rw [hdigits] at h
      simp only at h
      obtain ⟨numeral, hall, hdigit, hvalue, hlength, hbound, -⟩ :=
        (fieldDigits_eq_some_iff _ _ _ _ _ _).mp hdigits
      split_ifs at h with hzero
      cases behind with
      | nil => cases h
      | cons newline body =>
        simp only at h
        split_ifs at h with hnewline
        rw [ne_eq, not_not] at hnewline
        obtain ⟨rest', hrest, hparts⟩ := Option.map_eq_some_iff.mp h
        rw [fieldCharacters_eq le_rfl] at hrest
        obtain ⟨t, ht, rfl⟩ := (fieldCharactersOne_eq_some_iff _ _ _).mp hrest
        obtain ⟨hvalue', rfl⟩ := Prod.mk.inj hparts
        rw [List.length_append, Nat.add_sub_cancel, List.take_left] at hvalue'
        have hne : numeral ≠ [] := by
          rintro rfl
          rw [List.length_nil] at hlength
          omega
        refine ⟨numeral, t, ?_, hvalue'.symm, ⟨hne, hdigit, ?_⟩, ?_⟩
        · rw [hall, hnewline, hvalue']
        · rw [ht]
          exact hvalue
        · rw [ht]
          exact hbound hne
  · rintro ⟨numeral, t, rfl, rfl, hnumeral, hbound⟩
    have hlength : numeral.length ≠ 0 := fun h => hnumeral.nonempty (List.eq_nil_of_length_eq_zero h)
    have hdigits : fieldDigits (utf8 numeral ++ 10 :: (utf8 t ++ rest)) 0 0 =
        some (t.length, numeral.length, 10 :: (utf8 t ++ rest)) := by
      refine (fieldDigits_eq_some_iff _ _ _ _ _ _).mpr
        ⟨numeral, rfl, hnumeral.digit, hnumeral.value, Nat.zero_add _, fun _ => hbound, ?_⟩
      intro b hb
      cases hb
      decide
    rw [hdigits]
    simp only [if_neg hlength, ne_eq, not_true_eq_false, if_false, fieldCharacters_eq le_rfl,
      (fieldCharactersOne_eq_some_iff t.length _ rest).mpr ⟨t, rfl, rfl⟩, Option.map_some]
    rw [List.length_append, Nat.add_sub_cancel, List.take_left]

/-- The fields of a file of the driver. -/
inductive FieldsBytes : List UInt8 → List (List UInt8) → Prop
  /-- No field. -/
  | nil : FieldsBytes [] []
  /-- A field and the other ones. -/
  | cons {all value rest : List UInt8} {parts : List (List UInt8)}
      (hfield : FieldBytes all value rest) (hrest : FieldsBytes rest parts) :
      FieldsBytes all (value :: parts)

/-- The driver accepts exactly these files. -/
theorem cacheFields_eq_some_iff (n : ℕ) (all : List UInt8) (parts : List (List UInt8)) :
    cacheFields n all = some parts ↔ FieldsBytes all parts ∧ parts.length = n := by
  induction n generalizing all parts with
  | zero =>
    rw [cacheFields]
    constructor
    · intro h
      split_ifs at h with hempty
      cases h
      rw [hempty]
      exact ⟨.nil, rfl⟩
    · rintro ⟨h, hlength⟩
      rw [List.length_eq_zero_iff] at hlength
      subst hlength
      cases h
      rfl
  | succ n ih =>
    rw [cacheFields, Option.bind_eq_some_iff]
    constructor
    · rintro ⟨⟨value, rest⟩, hfield, hrest⟩
      obtain ⟨parts', hparts, rfl⟩ := Option.map_eq_some_iff.mp hrest
      obtain ⟨hfields, hlength⟩ := (ih _ _).mp hparts
      exact ⟨.cons ((cacheField_eq_some_iff _ _ _).mp hfield) hfields, congrArg (· + 1) hlength⟩
    · rintro ⟨h, hlength⟩
      cases h with
      | nil => cases hlength
      | cons hfield hrest =>
        refine ⟨_, (cacheField_eq_some_iff _ _ _).mpr hfield, ?_⟩
        simp only
        rw [(ih _ _).mpr ⟨hrest, Nat.succ.inj hlength⟩]
        rfl

/-! ## Writing and reading -/

/-- A field that fits in a file of the driver has a length that it reads. -/
theorem length_of_writeField_le {t : Text} (h : (writeField (utf8 t)).length ≤ cacheLimit) :
    t.length ≤ cacheLimit - 9 := by
  have hle := length_le_utf8 t
  have hdigits := length_le_utf8 (integerText t.length)
  rw [writeField, characterCount_utf8, List.length_append, List.length_cons] at h
  have hnumeral := isNumeral_toDigits t.length
  have hlt := digitsValue_lt hnumeral.digit
  rw [hnumeral.value] at hlt
  unfold cacheLimit at h ⊢
  by_contra hnot
  have hseven : ¬ (Nat.toDigits 10 t.length).length ≤ 7 := fun hseven => by
    have := Nat.pow_le_pow_right (show 0 < 10 by decide) hseven
    omega
  unfold integerText at hdigits h
  omega

/-- What either side writes for a field is one for the driver. -/
theorem fieldBytes_writeField {t : Text} (h : (writeField (utf8 t)).length ≤ cacheLimit)
    (rest : List UInt8) : FieldBytes (writeField (utf8 t) ++ rest) (utf8 t) rest := by
  refine ⟨integerText t.length, t, ?_, rfl, isNumeral_toDigits t.length,
    Nat.div_le_div_right (length_of_writeField_le h)⟩
  rw [writeField, characterCount_utf8, List.append_assoc, List.cons_append]

/-- An artifact consists of the fields that `write_field` writes. -/
theorem utf8_encodeModuleFields (fields : List Text) :
    utf8 (encodeModuleFields fields) = (fields.map fun t => writeField (utf8 t)).flatten := by
  induction fields with
  | nil => rfl
  | cons t fields ih => rw [utf8_encodeModuleFields_cons, ih, List.map_cons, List.flatten_cons]

/-- Its fields are read back. -/
theorem fieldsBytes_encodeModuleFields {fields : List Text}
    (h : ∀ t ∈ fields, (writeField (utf8 t)).length ≤ cacheLimit) :
    FieldsBytes (utf8 (encodeModuleFields fields)) (fields.map utf8) := by
  induction fields with
  | nil => exact .nil
  | cons t fields ih =>
    rw [utf8_encodeModuleFields_cons]
    exact .cons (fieldBytes_writeField (h t List.mem_cons_self) _)
      (ih fun t ht => h t (List.mem_cons_of_mem _ ht))

/-- Both decoders read what is written, agree with the one that passes single characters, and accept
nothing but sequences of fields: of anything else they return no field at all. -/
theorem moduleFields_decoders :
    (∀ fields : List Text, (∀ value ∈ fields, value.length < 10 ^ 9) →
      decodeModuleFields (encodeModuleFields fields) = fields ∧
      ∀ fields' : List Text, (∀ value ∈ fields', value.length < 10 ^ 9) →
        encodeModuleFields fields = encodeModuleFields fields' → fields = fields') ∧
    (∀ (t : Text) (rest : List UInt8), (writeField (utf8 t)).length ≤ cacheLimit →
      utf8 (appendModuleField [] t).flatten = writeField (utf8 t) ∧
      cacheField (writeField (utf8 t) ++ rest) = some (utf8 t, rest)) ∧
    (∀ fields : List Text, (∀ t ∈ fields, (writeField (utf8 t)).length ≤ cacheLimit) →
      utf8 (encodeModuleFields fields) = (fields.map fun t => writeField (utf8 t)).flatten ∧
      cacheFields fields.length (utf8 (encodeModuleFields fields)) = some (fields.map utf8)) ∧
    (∀ count bytes, fieldCharacters count bytes count = fieldCharactersOne count bytes) ∧
    (∀ source, (∃ fields, FieldSequence source fields ∧ decodeModuleFields source = fields) ∨
      (¬ ∃ fields, FieldSequence source fields) ∧ decodeModuleFields source = []) ∧
    (∀ all, (∃ value rest, FieldBytes all value rest ∧ cacheField all = some (value, rest)) ∨
      (¬ ∃ value rest, FieldBytes all value rest) ∧ cacheField all = none) ∧
    ∀ n all, (∃ parts, FieldsBytes all parts ∧ parts.length = n ∧ cacheFields n all = some parts) ∨
      (¬ ∃ parts, FieldsBytes all parts ∧ parts.length = n) ∧ cacheFields n all = none := by
  refine ⟨fun fields h => ⟨decodeModuleFields_encodeModuleFields h, fun fields' h' heq => ?_⟩,
    fun t rest h => ⟨?_, (cacheField_eq_some_iff _ _ _).mpr (fieldBytes_writeField h rest)⟩,
    fun fields h => ⟨utf8_encodeModuleFields fields, ?_⟩,
    fun count bytes => fieldCharacters_eq le_rfl bytes, fun source => ?_, fun all => ?_,
    fun n all => ?_⟩
  · rw [← decodeModuleFields_encodeModuleFields h, heq, decodeModuleFields_encodeModuleFields h']
  · rw [writeField_utf8]
    simp [appendModuleField]
  · exact (cacheFields_eq_some_iff _ _ _).mpr
      ⟨fieldsBytes_encodeModuleFields h, List.length_map _⟩
  · by_cases hsource : ∃ fields, FieldSequence source fields
    · obtain ⟨fields, hfields⟩ := hsource
      exact Or.inl ⟨fields, hfields, hfields.decodeModuleFields⟩
    · exact Or.inr ⟨hsource, decodeModuleFields_eq_nil hsource⟩
  · cases hfield : cacheField all with
    | none =>
      refine Or.inr ⟨?_, rfl⟩
      rintro ⟨value, rest, h⟩
      rw [← cacheField_eq_some_iff, hfield] at h
      cases h
    | some found =>
      exact Or.inl ⟨found.1, found.2, (cacheField_eq_some_iff _ _ _).mp hfield, rfl⟩
  · cases hfields : cacheFields n all with
    | none =>
      refine Or.inr ⟨?_, rfl⟩
      rintro ⟨parts, h⟩
      rw [← cacheFields_eq_some_iff, hfields] at h
      cases h
    | some parts =>
      obtain ⟨h, hlength⟩ := (cacheFields_eq_some_iff _ _ _).mp hfields
      exact Or.inl ⟨parts, h, hlength, rfl⟩

end Minyar

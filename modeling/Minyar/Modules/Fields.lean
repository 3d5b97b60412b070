import Mathlib.Data.List.Basic
import Mathlib.Data.Int.Notation
import Mathlib.Algebra.Group.Nat.Defs

/-!
# Fields of module artifacts

The incremental front end keeps its artifacts as sequences of fields: every field is written as the
number of its characters in decimal, a newline and the characters.  A field may hold anything, in
particular another sequence of fields.

`decodeModuleFields_encodeModuleFields` is the round trip, for fields with fewer than `10 ^ 9`
characters.
-/

namespace Minyar

/-- A Text of a Minyar program: its characters. -/
abbrev Text := List Char

/-- `Text(n)` for a number that is not negative. -/
def integerText (n : ℕ) : Text := Nat.toDigits 10 n

/-- `appendModuleField`. -/
def appendModuleField (pieces : List Text) (value : Text) : List Text :=
  pieces ++ [integerText value.length, ['\n'], value]

/-- `encodeModuleFields`. -/
def encodeModuleFields (fields : List Text) : Text := (fields.foldl appendModuleField []).flatten

/-- The loop that looks a character up in the digits: ten if it is none. -/
def digitOf (c : Char) : ℕ := ['0', '1', '2', '3', '4', '5', '6', '7', '8', '9'].findIdx (· = c)

/-- The loop of `moduleNatural` over the digits. -/
def moduleNaturalFrom : Text → ℤ → ℤ
  | [], result => result
  | c :: rest, result =>
    if digitOf c = 10 ∨ 100000000 < result then -1
    else moduleNaturalFrom rest (result * 10 + digitOf c)

/-- `moduleNatural`: the value of a number, or `-1`. -/
def moduleNatural (value : Text) : ℤ := if value.length = 0 then -1 else moduleNaturalFrom value 0

/-- The loop of `decodeModuleFields` over the characters that are left. -/
def decodeFieldsFrom : ℕ → Text → Option (List Text)
  | 0, _ => some []
  | fuel + 1, rest =>
    if rest = [] then some []
    else
      let length := moduleNatural (rest.takeWhile (· ≠ '\n'))
      match rest.dropWhile (· ≠ '\n') with
      | [] => none
      | _ :: body =>
        if length < 0 ∨ (body.length : ℤ) < length then none
        else (decodeFieldsFrom fuel (body.drop length.toNat)).map (body.take length.toNat :: ·)

/-- `decodeModuleFields`: the fields, or none of them. -/
def decodeModuleFields (source : Text) : List Text :=
  (decodeFieldsFrom source.length source).getD []

/-! ## Numbers -/

theorem digitOf_digitChar {n : ℕ} (h : n < 10) : digitOf n.digitChar = n := by
  have hall : ∀ n < 10, digitOf n.digitChar = n := by decide
  exact hall n h

theorem moduleNaturalFrom_digit {d : ℕ} (hd : d < 10) {n : ℕ} (hn : n ≤ 100000000) (rest : Text) :
    moduleNaturalFrom (d.digitChar :: rest) n =
      moduleNaturalFrom rest ((n * 10 + d : ℕ) : ℤ) := by
  rw [moduleNaturalFrom, digitOf_digitChar hd, if_neg (by omega)]
  congr 1

/-- The digits of a number are read back. -/
theorem moduleNaturalFrom_integerText {n : ℕ} (h : n < 10 ^ 9) (rest : Text) :
    moduleNaturalFrom (integerText n ++ rest) 0 = moduleNaturalFrom rest n := by
  unfold integerText
  induction n using Nat.strongRecOn generalizing rest with
  | ind n ih =>
    rw [Nat.toDigits_eq_if (by decide)]
    split_ifs with hlt
    · have hdigit := moduleNaturalFrom_digit hlt (Nat.zero_le 100000000) rest
      rwa [Nat.zero_mul, Nat.zero_add] at hdigit
    · have hsplit : n / 10 * 10 + n % 10 = n := Nat.div_add_mod' n 10
      rw [List.append_assoc, List.singleton_append, ih (n / 10) (by omega) (by omega),
        moduleNaturalFrom_digit (Nat.mod_lt n (by decide)) (by omega), hsplit]

theorem integerText_ne_nil (n : ℕ) : integerText n ≠ [] := Nat.toDigits_ne_nil

theorem moduleNatural_integerText {n : ℕ} (h : n < 10 ^ 9) : moduleNatural (integerText n) = n := by
  have hread := moduleNaturalFrom_integerText h []
  rw [List.append_nil] at hread
  rw [moduleNatural, if_neg (fun hlen => integerText_ne_nil n (List.eq_nil_of_length_eq_zero hlen)),
    hread]
  rfl

/-- A number is written without a newline. -/
theorem integerText_ne_newline (n : ℕ) : ∀ c ∈ integerText n, decide (c ≠ '\n') = true := by
  intro c hc
  have hdigit := Nat.isDigit_of_mem_toDigits (by decide) (by decide) hc
  refine decide_eq_true ?_
  rintro rfl
  exact absurd hdigit (by decide)

/-! ## Sequences of fields -/

theorem foldl_appendModuleField (pieces fields : List Text) :
    fields.foldl appendModuleField pieces = pieces ++ fields.foldl appendModuleField [] := by
  induction fields generalizing pieces with
  | nil => simp
  | cons value fields ih =>
    rw [List.foldl_cons, List.foldl_cons, ih, ih (appendModuleField [] value)]
    simp [appendModuleField]

@[simp] theorem encodeModuleFields_nil : encodeModuleFields [] = [] := rfl

theorem encodeModuleFields_cons (value : Text) (fields : List Text) :
    encodeModuleFields (value :: fields) =
      integerText value.length ++ '\n' :: (value ++ encodeModuleFields fields) := by
  unfold encodeModuleFields
  rw [List.foldl_cons, foldl_appendModuleField]
  simp [appendModuleField]

/-- Every field has at least the newline behind its length. -/
theorem length_le_encodeModuleFields (fields : List Text) :
    fields.length ≤ (encodeModuleFields fields).length := by
  induction fields with
  | nil => exact Nat.zero_le _
  | cons value fields ih =>
    rw [encodeModuleFields_cons]
    simp only [List.length_cons, List.length_append]
    omega

/-- One field is decoded. -/
theorem decodeFieldsFrom_cons {value : Text} (h : value.length < 10 ^ 9) (fuel : ℕ) (rest : Text) :
    decodeFieldsFrom (fuel + 1) (integerText value.length ++ '\n' :: (value ++ rest)) =
      (decodeFieldsFrom fuel rest).map (value :: ·) := by
  have hnewline := integerText_ne_newline value.length
  rw [decodeFieldsFrom, if_neg (by simp), List.takeWhile_append_of_pos hnewline,
    List.dropWhile_append_of_pos hnewline]
  simp only [ne_eq, not_true_eq_false, decide_false, Bool.false_eq_true, not_false_eq_true,
    List.takeWhile_cons_of_neg, List.append_nil, List.dropWhile_cons_of_neg,
    moduleNatural_integerText h, Int.toNat_natCast, List.drop_left, List.take_left]
  rw [if_neg]
  rw [List.length_append]
  omega

theorem decodeFieldsFrom_encodeModuleFields {fields : List Text}
    (h : ∀ value ∈ fields, value.length < 10 ^ 9) {fuel : ℕ} (hfuel : fields.length ≤ fuel) :
    decodeFieldsFrom fuel (encodeModuleFields fields) = some fields := by
  induction fields generalizing fuel with
  | nil =>
    cases fuel with
    | zero => rfl
    | succ fuel => rw [decodeFieldsFrom, if_pos encodeModuleFields_nil]
  | cons value fields ih =>
    cases fuel with
    | zero => exact absurd hfuel (Nat.not_succ_le_zero _)
    | succ fuel =>
      rw [encodeModuleFields_cons, decodeFieldsFrom_cons (h value List.mem_cons_self),
        ih (fun value hmem => h value (List.mem_cons_of_mem _ hmem))
          (Nat.le_of_succ_le_succ hfuel)]
      rfl

/-- What is encoded is decoded. -/
theorem decodeModuleFields_encodeModuleFields {fields : List Text}
    (h : ∀ value ∈ fields, value.length < 10 ^ 9) :
    decodeModuleFields (encodeModuleFields fields) = fields := by
  unfold decodeModuleFields
  rw [decodeFieldsFrom_encodeModuleFields h (length_le_encodeModuleFields fields)]
  rfl

end Minyar

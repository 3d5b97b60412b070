import Mathlib.Data.List.Basic
import Mathlib.Data.List.Induction
import Mathlib.Data.Nat.Notation
import Mathlib.Algebra.Order.Group.Nat
import Mathlib.Tactic.Ring

/-!
# Decimal numerals

The value of a list of decimal digits, most significant first, zeros in front included.
`digitsValue_lt` and `le_digitsValue` bound it by powers of ten, `isNumeral_toDigits` says that writing
a number gives a numeral of it.
-/

namespace Minyar

/-- What is evaluated for every entry of a list holds for every entry. -/
theorem forall_mem_of_all {α : Type} {p : α → Prop} [DecidablePred p] {l : List α}
    (h : (l.all fun a => decide (p a)) = true) : ∀ a ∈ l, p a := fun a ha =>
  of_decide_eq_true (List.all_eq_true.mp h a ha)

/-- A decimal digit. -/
def IsDigit (c : Char) : Prop := '0' ≤ c ∧ c ≤ '9'

/-- One more digit behind a value. -/
def pushDigit (value : ℕ) (digit : Char) : ℕ := value * 10 + (digit.toNat - '0'.toNat)

/-- The value of a decimal numeral. -/
def digitsValue (digits : List Char) : ℕ :=
  digits.foldl (fun value digit => value * 10 + (digit.toNat - '0'.toNat)) 0

/-- A numeral of a number: at least one digit. -/
structure IsNumeral (digits : List Char) (n : ℕ) : Prop where
  /-- There is a digit. -/
  nonempty : digits ≠ []
  /-- All characters are digits. -/
  digit : ∀ c ∈ digits, IsDigit c
  /-- The value. -/
  value : digitsValue digits = n

theorem IsDigit.toNat {c : Char} (h : IsDigit c) : '0'.toNat ≤ c.toNat ∧ c.toNat ≤ '9'.toNat := h

instance (c : Char) : Decidable (IsDigit c) := inferInstanceAs (Decidable ('0' ≤ c ∧ c ≤ '9'))

/-- Digits behind a value. -/
theorem foldl_pushDigit (digits : List Char) (a : ℕ) :
    digits.foldl pushDigit a = a * 10 ^ digits.length + digitsValue digits := by
  have hvalue : ∀ l : List Char, digitsValue l = l.foldl pushDigit 0 := fun _ => rfl
  rw [hvalue]
  induction digits generalizing a with
  | nil => simp
  | cons d l ih =>
    rw [List.foldl_cons, List.foldl_cons, ih, ih (pushDigit 0 d), List.length_cons, pow_succ]
    unfold pushDigit
    ring

/-- A value does not get smaller with more digits. -/
theorem le_foldl_pushDigit (digits : List Char) (a : ℕ) : a ≤ digits.foldl pushDigit a := by
  rw [foldl_pushDigit]
  exact Nat.le_add_right_of_le (Nat.le_mul_of_pos_right a (Nat.pow_pos (by decide)))

/-- The value of a numeral by its first digit. -/
theorem digitsValue_cons (digit : Char) (digits : List Char) :
    digitsValue (digit :: digits) =
      (digit.toNat - '0'.toNat) * 10 ^ digits.length + digitsValue digits := by
  have hfold := foldl_pushDigit digits (pushDigit 0 digit)
  rw [pushDigit, Nat.zero_mul, Nat.zero_add] at hfold
  rw [← hfold, digitsValue, List.foldl_cons, Nat.zero_mul, Nat.zero_add]
  rfl

/-- The value of a numeral by its last digit. -/
theorem digitsValue_concat (digits : List Char) (digit : Char) :
    digitsValue (digits ++ [digit]) = digitsValue digits * 10 + (digit.toNat - '0'.toNat) := by
  unfold digitsValue
  rw [List.foldl_append]
  rfl

/-- A numeral is below the power of ten of its length. -/
theorem digitsValue_lt {digits : List Char} (h : ∀ c ∈ digits, IsDigit c) :
    digitsValue digits < 10 ^ digits.length := by
  induction digits with
  | nil => simp [digitsValue]
  | cons d digits ih =>
    have hd := (h d List.mem_cons_self).toNat
    have hrest := ih fun c hc => h c (List.mem_cons_of_mem _ hc)
    rw [digitsValue_cons, List.length_cons, pow_succ]
    have hdigit : d.toNat - '0'.toNat ≤ 9 := by
      have : '9'.toNat = '0'.toNat + 9 := by decide
      omega
    calc (d.toNat - '0'.toNat) * 10 ^ digits.length + digitsValue digits
        < 9 * 10 ^ digits.length + 10 ^ digits.length := by
          have := Nat.mul_le_mul_right (10 ^ digits.length) hdigit
          omega
      _ = 10 ^ digits.length * 10 := by ring

/-- A numeral without zeros in front is at least the power of ten below its length. -/
theorem le_digitsValue {d : Char} {digits : List Char} (hd : IsDigit d) (h0 : d ≠ '0') :
    10 ^ digits.length ≤ digitsValue (d :: digits) := by
  have hne : d.toNat ≠ '0'.toNat := fun h => h0 (Char.toNat_inj.mp h)
  have hle := hd.toNat.1
  rw [digitsValue_cons]
  calc 10 ^ digits.length = 1 * 10 ^ digits.length := (Nat.one_mul _).symm
    _ ≤ (d.toNat - '0'.toNat) * 10 ^ digits.length := Nat.mul_le_mul_right _ (by omega)
    _ ≤ _ := Nat.le_add_right _ _

/-- The digit of a number below ten. -/
theorem digitChar_spec {n : ℕ} (h : n < 10) :
    IsDigit n.digitChar ∧ n.digitChar.toNat - '0'.toNat = n := by
  have hall : ∀ n < 10, IsDigit n.digitChar ∧ n.digitChar.toNat - '0'.toNat = n := by decide
  exact hall n h

/-- A number is written as a numeral of it. -/
theorem isNumeral_toDigits (n : ℕ) : IsNumeral (Nat.toDigits 10 n) n := by
  refine ⟨Nat.toDigits_ne_nil, ?_, ?_⟩
  · intro c hc
    have hdigit := Nat.isDigit_of_mem_toDigits (by decide) (by decide) hc
    unfold Char.isDigit at hdigit
    simpa [IsDigit, Char.le_def] using hdigit
  · induction n using Nat.strongRecOn with
    | ind n ih =>
      rw [Nat.toDigits_eq_if (by decide)]
      split_ifs with hlt
      · have hdigit := (digitChar_spec hlt).2
        rw [digitsValue_cons, hdigit]
        simp [digitsValue]
      · have hsplit : n / 10 * 10 + n % 10 = n := Nat.div_add_mod' n 10
        rw [digitsValue_concat, ih (n / 10) (by omega), (digitChar_spec (Nat.mod_lt n (by decide))).2,
          hsplit]

/-- Different numbers are written differently. -/
theorem toDigits_injective : Function.Injective (Nat.toDigits 10) := fun n m h => by
  rw [← (isNumeral_toDigits n).value, ← (isNumeral_toDigits m).value]
  exact congrArg digitsValue h

/-- The digit with the value of a digit. -/
theorem digitChar_toNat {c : Char} (h : IsDigit c) : (c.toNat - '0'.toNat).digitChar = c := by
  obtain ⟨hlow, hhigh⟩ := h.toNat
  have hnine : '9'.toNat = '0'.toNat + 9 := by decide
  have hvalue := (digitChar_spec (show c.toNat - '0'.toNat < 10 by omega)).2
  have hlow' := (digitChar_spec (show c.toNat - '0'.toNat < 10 by omega)).1.toNat.1
  exact Char.toNat_inj.mp (by omega)

/-- A numeral without zeros in front is how its number is written. -/
theorem toDigits_digitsValue {digits : List Char} (hdigit : ∀ c ∈ digits, IsDigit c)
    (hne : digits ≠ []) (hhead : 2 ≤ digits.length → digits.head? ≠ some '0') :
    Nat.toDigits 10 (digitsValue digits) = digits := by
  induction digits using List.reverseRecOn with
  | nil => exact absurd rfl hne
  | append_singleton digits d ih =>
    have hd : IsDigit d := hdigit d (by simp)
    have hlt : d.toNat - '0'.toNat < 10 := by
      have hnine : '9'.toNat = '0'.toNat + 9 := by decide
      have := hd.toNat
      omega
    rw [digitsValue_concat]
    cases digits with
    | nil =>
      rw [show digitsValue [] = 0 from rfl, Nat.zero_mul, Nat.zero_add,
        Nat.toDigits_of_lt_base hlt, digitChar_toNat hd]
      rfl
    | cons first digits =>
      have hfirst : first ≠ '0' := fun h => hhead (by simp) (by rw [h]; rfl)
      have hpos : 0 < digitsValue (first :: digits) :=
        (Nat.pow_pos (by decide)).trans_le (le_digitsValue (hdigit first (by simp)) hfirst)
      have hinit := ih (fun c hc => hdigit c (List.mem_append_left _ hc)) (List.cons_ne_nil _ _)
        (fun _ h => hfirst (Option.some.inj h))
      rw [Nat.toDigits_of_base_le (by decide) (by omega),
        show (digitsValue (first :: digits) * 10 + (d.toNat - '0'.toNat)) / 10 =
          digitsValue (first :: digits) by omega,
        show (digitsValue (first :: digits) * 10 + (d.toNat - '0'.toNat)) % 10 =
          d.toNat - '0'.toNat by omega,
        hinit, digitChar_toNat hd]

end Minyar

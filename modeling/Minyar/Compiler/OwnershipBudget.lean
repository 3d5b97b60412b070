import Minyar.Library.Decimal
import Minyar.Text.Decode
import Minyar.Modules.Fields

/-!
# Ownership budgets

A cleanup budget is a decimal number on the command line.  The driver that keys the cache reads it
in C, the compiler that generates code reads it in Minyar, and both saturate at 9, because the limit
of owners on the stack is at most 8.  `saturatedDigit_min` is why saturation after every digit is
saturation of the number.
-/

namespace Minyar

/-- One more digit behind a saturated value; both readers have this code. -/
def saturatedDigit (value digit : ℕ) : ℕ :=
  if value < 9 then
    let value := value * 10 + digit
    if 9 < value then 9 else value
  else value

/-- The loop of `owner_limit_for_budget` over a zero-terminated string. -/
def ownerLimitFrom : ℕ → List UInt8 → Option ℕ
  | _, [] => none
  | value, p :: rest =>
    if p = 0 then if value = 0 then none else some (value - 1)
    else if p.toNat < '0'.toNat ∨ '9'.toNat < p.toNat then none
    else ownerLimitFrom (saturatedDigit value (p.toNat - '0'.toNat)) rest

/-- `owner_limit_for_budget`: the limit, or a rejection. -/
def ownerLimitForBudget (text : List UInt8) : Option ℕ :=
  if text.head? = some 0 then none else ownerLimitFrom 0 text

/-- The diagnostic of the compiler. -/
def invalidBudget : String := "cleanup budget must be a positive decimal integer"

/-- The inner loop of `ownershipLimitForBudget`: the position of a character among the digits, which
is 10 for any other character. -/
def budgetDigit (character : Char) : ℕ := "0123456789".toList.idxOf character

/-- The loop of `ownershipLimitForBudget`. -/
def ownershipLimitFrom : ℕ → Text → Except String ℕ
  | budget, [] => if budget = 0 then .error invalidBudget else .ok (budget - 1)
  | budget, character :: rest =>
    let digit := budgetDigit character
    if digit = 10 then .error invalidBudget
    else ownershipLimitFrom (saturatedDigit budget digit) rest

/-- `ownershipLimitForBudget`. -/
def ownershipLimitForBudget (text : Text) : Except String ℕ := ownershipLimitFrom 0 text

/-- Saturation after every digit. -/
theorem saturatedDigit_min (value digit : ℕ) :
    saturatedDigit (min 9 value) digit = min 9 (value * 10 + digit) := by
  unfold saturatedDigit
  simp only
  split_ifs <;> omega

/-- The position of a digit is its value. -/
theorem budgetDigit_of_isDigit {c : Char} (h : IsDigit c) :
    budgetDigit c = c.toNat - '0'.toNat := by
  have hall : ∀ n < 10, budgetDigit n.digitChar = n := by decide +kernel
  have hlow := h.toNat.1
  have hhigh := h.toNat.2
  have hnine : '9'.toNat = '0'.toNat + 9 := by decide
  have hdigit := hall (c.toNat - '0'.toNat) (by omega)
  rwa [digitChar_toNat h] at hdigit

/-- Other characters have no position. -/
theorem budgetDigit_of_not_isDigit {c : Char} (h : ¬ IsDigit c) : budgetDigit c = 10 := by
  have hall : ∀ d ∈ "0123456789".toList, IsDigit d := forall_mem_of_all (by decide)
  exact List.idxOf_eq_length fun hmem => h (hall c hmem)

/-- The digits of a value that is not saturated. -/
theorem foldl_pushDigit_cons (value : ℕ) (c : Char) (digits : List Char) :
    (c :: digits).foldl pushDigit value =
      digits.foldl pushDigit (value * 10 + (c.toNat - '0'.toNat)) := by
  rw [List.foldl_cons, pushDigit]

/-- The compiler reads digits up to the end. -/
theorem ownershipLimitFrom_of_digits {text : Text} (h : ∀ c ∈ text, IsDigit c) (value : ℕ) :
    ownershipLimitFrom (min 9 value) text =
      if text.foldl pushDigit value = 0 then .error invalidBudget
      else .ok (min 8 (text.foldl pushDigit value - 1)) := by
  induction text generalizing value with
  | nil =>
    rw [ownershipLimitFrom, List.foldl_nil]
    split_ifs with hmin hvalue hvalue
    · rfl
    · omega
    · omega
    · congr 1
      omega
  | cons c text ih =>
    have hc := h c List.mem_cons_self
    have hnine : '9'.toNat = '0'.toNat + 9 := by decide
    have := hc.toNat
    rw [ownershipLimitFrom, foldl_pushDigit_cons, budgetDigit_of_isDigit hc, if_neg (by omega),
      saturatedDigit_min]
    exact ih (fun d hd => h d (List.mem_cons_of_mem c hd)) _

/-- The compiler rejects any other character. -/
theorem ownershipLimitFrom_of_not_digits {text : Text} (h : ¬ ∀ c ∈ text, IsDigit c)
    (value : ℕ) : ownershipLimitFrom value text = .error invalidBudget := by
  induction text generalizing value with
  | nil => exact absurd (fun c hc => absurd hc List.not_mem_nil) h
  | cons c text ih =>
    rw [ownershipLimitFrom]
    split_ifs with hdigit
    · rfl
    · refine ih (fun hrest => h ?_) _
      refine List.forall_mem_cons.mpr ⟨?_, hrest⟩
      by_contra hc
      exact hdigit (budgetDigit_of_not_isDigit hc)

/-- The first byte of a character that is neither a digit nor zero is no digit and not the end. -/
theorem utf8EncodeChar_of_not_isDigit {c : Char} (hdigit : ¬ IsDigit c) (hzero : c ≠ '\x00') :
    ∃ p rest, String.utf8EncodeChar c = p :: rest ∧ p ≠ 0 ∧
      (p.toNat < '0'.toNat ∨ '9'.toNat < p.toNat) := by
  have hnine : '9'.toNat = 57 := by decide
  by_cases hascii : c.val.toNat < 128
  · have hp : (UInt8.ofNat c.val.toNat).toNat = c.val.toNat := toNat_ofNat_of_lt (by omega)
    refine ⟨_, [], utf8EncodeChar_of_ascii hascii, fun heq => hzero ?_, ?_⟩
    · rw [heq] at hp
      exact Char.ext (UInt32.toNat_inj.mp hp.symm)
    · rw [hp]
      by_contra hrange
      rw [not_or, Nat.not_lt, Nat.not_lt] at hrange
      exact hdigit hrange
  · rcases hbytes : String.utf8EncodeChar c with _ | ⟨p, rest⟩
    · have hlength := String.length_utf8EncodeChar c
      have hpos := utf8Size_pos c
      rw [hbytes, List.length_nil] at hlength
      omega
    · have hhigh := le_of_mem_utf8EncodeChar (Nat.not_lt.mp hascii) p (hbytes ▸ List.mem_cons_self)
      refine ⟨p, rest, rfl, fun heq => ?_, .inr (by omega)⟩
      rw [heq] at hhigh
      exact absurd hhigh (by decide)

/-- The byte of a digit. -/
theorem utf8EncodeChar_of_isDigit {c : Char} (h : IsDigit c) :
    ∃ p, String.utf8EncodeChar c = [p] ∧ p.toNat = c.toNat ∧ p ≠ 0 := by
  have hnine : '9'.toNat = 57 := by decide
  have hzero : '0'.toNat = 48 := by decide
  have hrange := h.toNat
  have hascii : c.val.toNat < 128 := by
    have heq : c.val.toNat = c.toNat := rfl
    omega
  have hp : (UInt8.ofNat c.val.toNat).toNat = c.toNat := toNat_ofNat_of_lt (by omega)
  refine ⟨_, utf8EncodeChar_of_ascii hascii, hp, fun heq => ?_⟩
  rw [heq] at hp
  have : (0 : UInt8).toNat = 0 := rfl
  omega

/-- The driver reads the bytes of a text as the compiler reads its characters. -/
theorem ownerLimitFrom_utf8 {text : Text} (hzero : '\x00' ∉ text) (value : ℕ) :
    ownerLimitFrom value (utf8 text ++ [0]) = (ownershipLimitFrom value text).toOption := by
  induction text generalizing value with
  | nil =>
    rw [ownershipLimitFrom, utf8_nil, List.nil_append, ownerLimitFrom, if_pos rfl]
    split_ifs <;> rfl
  | cons c text ih =>
    have hc : c ≠ '\x00' := fun heq => hzero (heq ▸ List.mem_cons_self)
    have hrest : '\x00' ∉ text := fun hmem => hzero (List.mem_cons_of_mem c hmem)
    rw [utf8_cons, List.append_assoc, ownershipLimitFrom]
    by_cases hdigit : IsDigit c
    · obtain ⟨p, hp, hvalue, hp0⟩ := utf8EncodeChar_of_isDigit hdigit
      have hnine : '9'.toNat = '0'.toNat + 9 := by decide
      have hrange := hdigit.toNat
      rw [hp, List.singleton_append, ownerLimitFrom, if_neg hp0, hvalue, if_neg (by omega),
        budgetDigit_of_isDigit hdigit, if_neg (by omega)]
      exact ih hrest _
    · obtain ⟨p, rest, hp, hp0, hrange⟩ := utf8EncodeChar_of_not_isDigit hdigit hc
      rw [hp, List.cons_append, ownerLimitFrom, if_neg hp0, if_pos hrange,
        budgetDigit_of_not_isDigit hdigit, if_pos rfl]
      rfl

/-- For every text without zero bytes the driver and the compiler agree: they accept exactly the
non-empty strings of digits with a positive value, and for these the limit is the value less one, at
most 8. -/
theorem ownerLimit_spec {text : Text} (hzero : (0 : UInt8) ∉ utf8 text) :
    ownerLimitForBudget (utf8 text ++ [0]) = (ownershipLimitForBudget text).toOption ∧
    ((∃ limit, ownershipLimitForBudget text = .ok limit) ↔
      text ≠ [] ∧ (∀ c ∈ text, IsDigit c) ∧ 0 < digitsValue text) ∧
    ∀ limit, ownershipLimitForBudget text = .ok limit → limit = min 8 (digitsValue text - 1) := by
  have hchars : '\x00' ∉ text := fun h => hzero ((mem_utf8_iff (by decide)).mpr h)
  have hlimit : (∀ c ∈ text, IsDigit c) → ownershipLimitForBudget text =
      if digitsValue text = 0 then .error invalidBudget
      else .ok (min 8 (digitsValue text - 1)) := fun h => ownershipLimitFrom_of_digits h 0
  refine ⟨?_, ⟨?_, ?_⟩, ?_⟩
  · unfold ownerLimitForBudget ownershipLimitForBudget
    split_ifs with hhead
    · -- Only the empty text starts with its end.
      rcases text with _ | ⟨c, text⟩
      · rfl
      · rcases hbytes : utf8 (c :: text) with _ | ⟨p, rest⟩
        · have := length_le_utf8 (c :: text)
          rw [hbytes] at this
          exact absurd this (Nat.not_succ_le_zero _)
        · rw [hbytes] at hhead hzero
          exact absurd (Option.some.inj hhead ▸ List.mem_cons_self) hzero
    · exact ownerLimitFrom_utf8 hchars 0
  · rintro ⟨limit, hok⟩
    by_cases hdigits : ∀ c ∈ text, IsDigit c
    · rw [hlimit hdigits] at hok
      split_ifs at hok with hvalue
      refine ⟨?_, hdigits, Nat.pos_of_ne_zero hvalue⟩
      rintro rfl
      exact hvalue rfl
    · rw [ownershipLimitForBudget, ownershipLimitFrom_of_not_digits hdigits] at hok
      cases hok
  · rintro ⟨-, hdigits, hvalue⟩
    rw [hlimit hdigits, if_neg hvalue.ne']
    exact ⟨_, rfl⟩
  · intro limit hok
    by_cases hdigits : ∀ c ∈ text, IsDigit c
    · rw [hlimit hdigits] at hok
      split_ifs at hok with hvalue
      exact (Except.ok.inj hok).symm
    · rw [ownershipLimitForBudget, ownershipLimitFrom_of_not_digits hdigits] at hok
      cases hok

/-- A budget with zeros in front. -/
theorem ownerLimit_spec_twelve :
    ownerLimitForBudget (utf8 "0012".toList ++ [0]) =
      (ownershipLimitForBudget "0012".toList).toOption :=
  (ownerLimit_spec (by decide : (0 : UInt8) ∉ utf8 "0012".toList)).1

end Minyar

import Minyar.Compiler.Climbing
import Mathlib.Data.List.Lex
import Mathlib.Data.Char

/-!
# Comparison of Texts

`compareText` compares two Texts character by character.  It is the lexicographic order: the
`compareText_*_iff` lemmas say which sign stands for what.
-/

namespace Minyar

/-- The comparison is negative exactly if the left Text is the smaller one. -/
theorem compareText_neg_iff (left right : List Char) : compareText left right < 0 ↔ left < right := by
  induction left generalizing right with
  | nil =>
    cases right with
    | nil => simp [compareText]
    | cons b right => simp [compareText]
  | cons a left ih =>
    cases right with
    | nil => simp [compareText]
    | cons b right =>
      rw [compareText, List.cons_lt_cons_iff]
      split_ifs with heq hlt
      · rw [ih]
        simp [heq]
      · simp [hlt]
      · simp [heq, hlt]

/-- It is zero exactly if the Texts are the same. -/
theorem compareText_eq_zero_iff (left right : List Char) :
    compareText left right = 0 ↔ left = right := by
  induction left generalizing right with
  | nil => cases right <;> simp [compareText]
  | cons a left ih =>
    cases right with
    | nil => simp [compareText]
    | cons b right =>
      rw [compareText, List.cons.injEq]
      split_ifs with heq hlt
      · rw [ih]
        simp [heq]
      · simp [heq]
      · simp [heq]

/-- It is positive exactly if the right Text is the smaller one. -/
theorem compareText_pos_iff (left right : List Char) : 0 < compareText left right ↔ right < left := by
  have hneg := compareText_neg_iff left right
  have hzero := compareText_eq_zero_iff left right
  constructor
  · intro h
    rcases lt_trichotomy left right with hlt | heq | hgt
    · exact absurd (hneg.mpr hlt) (by omega)
    · exact absurd (hzero.mpr heq) (by omega)
    · exact hgt
  · intro h
    have hnot : ¬ left < right := h.asymm
    have hne : left ≠ right := h.ne'
    rw [← hneg] at hnot
    rw [Ne, ← hzero] at hne
    omega

end Minyar

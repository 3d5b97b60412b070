import Mathlib.Data.List.Nodup
import Mathlib.Tactic.Common

/-!
# Lists of things with fresh numbers

A generator of code counts the names that it makes up.  A list is *numbered* from `first` below `next`
when nothing stands twice in it and everything has a number in this interval.  Lists from intervals
one behind the other may be joined, and something with a number that was taken earlier may be put
anywhere.
-/

namespace Minyar

section Numbered

variable {α : Type*} {number : α → Option ℕ} {first middle next n : ℕ} {l l₁ l₂ : List α} {a : α}

variable (number) in
/-- The things are different, and have numbers from an interval. -/
def Numbered (first next : ℕ) (l : List α) : Prop :=
  l.Nodup ∧ ∀ a ∈ l, ∃ n, number a = some n ∧ first ≤ n ∧ n < next

namespace Numbered

@[simp] theorem nil (first next : ℕ) : Numbered number first next [] := by
  simp [Numbered]

theorem mono (h : Numbered number middle n l) (hfirst : first ≤ middle) (hnext : n ≤ next) :
    Numbered number first next l := by
  refine ⟨h.1, fun a ha => ?_⟩
  obtain ⟨k, hk, hle, hlt⟩ := h.2 a ha
  exact ⟨k, hk, by omega, by omega⟩

/-- Something of a list before and something of a list behind are different. -/
theorem ne (h₁ : Numbered number first middle l₁) (h₂ : Numbered number middle next l₂) {b : α}
    (ha : a ∈ l₁) (hb : b ∈ l₂) : a ≠ b := by
  rintro rfl
  obtain ⟨k, hk, -, hlt⟩ := h₁.2 a ha
  obtain ⟨k', hk', hle, -⟩ := h₂.2 a hb
  cases hk.symm.trans hk'
  omega

theorem append (h₁ : Numbered number first middle l₁) (h₂ : Numbered number middle next l₂)
    (hfirst : first ≤ middle) (hnext : middle ≤ next) : Numbered number first next (l₁ ++ l₂) := by
  refine ⟨List.nodup_append.mpr ⟨h₁.1, h₂.1, fun a ha b hb => h₁.ne h₂ ha hb⟩, fun a ha => ?_⟩
  rcases List.mem_append.mp ha with ha | ha
  · exact (h₁.mono (Nat.le_refl _) hnext).2 a ha
  · exact (h₂.mono hfirst (Nat.le_refl _)).2 a ha

/-- Things with one number. -/
theorem of_number (hl : l.Nodup) (hnumber : ∀ a ∈ l, number a = some n) :
    Numbered number n (n + 1) l :=
  ⟨hl, fun a ha => ⟨n, hnumber a ha, (Nat.le_refl _), n.lt_succ_self⟩⟩

/-- Something with an earlier number may stand anywhere. -/
theorem insert (h : Numbered number (n + 1) next (l₁ ++ l₂)) (ha : number a = some n)
    (hn : n < next) : Numbered number n next (l₁ ++ a :: l₂) := by
  have hnot : a ∉ l₁ ++ l₂ := by
    intro hmem
    obtain ⟨k, hk, hle, -⟩ := h.2 a hmem
    cases ha.symm.trans hk
    omega
  refine ⟨List.nodup_middle.mpr (List.nodup_cons.mpr ⟨hnot, h.1⟩), fun b hb => ?_⟩
  rcases List.mem_cons.mp (List.perm_middle.mem_iff.mp hb) with rfl | hb
  · exact ⟨n, ha, (Nat.le_refl _), hn⟩
  · exact (h.mono n.le_succ (Nat.le_refl _)).2 b hb

theorem cons (h : Numbered number (n + 1) next l) (ha : number a = some n) (hn : n < next) :
    Numbered number n next (a :: l) :=
  @insert α number next n [] l a h ha hn

theorem concat (h : Numbered number (n + 1) next l) (ha : number a = some n) (hn : n < next) :
    Numbered number n next (l ++ [a]) :=
  @insert α number next n l [] a (by simpa using h) ha hn

end Numbered

end Numbered

end Minyar

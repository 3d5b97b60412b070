import Mathlib.Data.List.Basic
import Mathlib.Data.List.Perm.Basic
import Mathlib.Data.List.Nodup

/-!
# Singly linked lists threaded through a store

A node of the list is its address and `next a` is the link stored at `a`.  `Chained next null h l`
says that the nodes `l` are linked from the head `h` to the null link.  The edits of such a list are
taking its first node and putting a node behind the last one.
-/

namespace Minyar

variable {α : Type*} {next next' : α → α} {null head a : α} {l : List α}

/-- The nodes `l` are linked from the head to the null link. -/
def Chained (next : α → α) (null : α) : α → List α → Prop
  | head, [] => head = null
  | head, a :: l => head = a ∧ a ≠ null ∧ Chained next null (next a) l

namespace Chained

/-- A list depends on the links of its nodes alone. -/
theorem congr (h : Chained next null head l) (hnext : ∀ a ∈ l, next' a = next a) :
    Chained next' null head l := by
  induction l generalizing head with
  | nil => exact h
  | cons a l ih =>
    obtain ⟨rfl, ha, hl⟩ := h
    refine ⟨rfl, ha, ?_⟩
    rw [hnext head List.mem_cons_self]
    exact ih hl fun b hb => hnext b (List.mem_cons_of_mem _ hb)

/-- The null link is no node. -/
theorem ne_null (h : Chained next null head l) : ∀ a ∈ l, a ≠ null := by
  induction l generalizing head with
  | nil => exact fun a ha => absurd ha List.not_mem_nil
  | cons a l ih =>
    obtain ⟨rfl, ha, hl⟩ := h
    exact List.forall_mem_cons.mpr ⟨ha, ih hl⟩

/-- A list is empty when its head is the null link. -/
theorem eq_nil_iff (h : Chained next null head l) : l = [] ↔ head = null := by
  cases l with
  | nil => exact iff_of_true rfl h
  | cons a l =>
    obtain ⟨rfl, ha, -⟩ := h
    exact iff_of_false (List.cons_ne_nil _ _) ha

/-- The head of a list that is not empty is its first node. -/
theorem exists_cons (h : Chained next null head l) (hhead : head ≠ null) :
    ∃ l', l = head :: l' ∧ Chained next null (next head) l' := by
  cases l with
  | nil => exact absurd h hhead
  | cons a l =>
    obtain ⟨rfl, -, hl⟩ := h
    exact ⟨l, rfl, hl⟩

/-- A node behind the last one: the last link is changed. -/
theorem concat (h : Chained next null head l) (ha : a ≠ null) (hlink : next' a = null)
    (hlast : ∀ b ∈ l.getLast?, next' b = a) (hnext : ∀ b ∈ l.dropLast, next' b = next b) :
    Chained next' null (if l = [] then a else head) (l ++ [a]) := by
  induction l generalizing head with
  | nil => exact ⟨rfl, ha, hlink⟩
  | cons b l ih =>
    obtain ⟨rfl, hb, hl⟩ := h
    rw [if_neg (List.cons_ne_nil _ _)]
    refine ⟨rfl, hb, ?_⟩
    rcases l with _ | ⟨c, l⟩
    · rw [hlast head rfl]
      exact ⟨rfl, ha, hlink⟩
    · have hstep := ih hl (fun d hd => hlast d (by rwa [List.getLast?_cons_cons]))
        fun d hd => hnext d (by rw [List.dropLast_cons_cons]; exact List.mem_cons_of_mem _ hd)
      rw [if_neg (List.cons_ne_nil _ _)] at hstep
      rw [hnext head (by rw [List.dropLast_cons_cons]; exact List.mem_cons_self)]
      exact hstep

end Chained

end Minyar

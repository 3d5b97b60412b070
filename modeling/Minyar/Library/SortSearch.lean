import Mathlib.Data.List.GetD
import Mathlib.Data.List.Perm.Basic
import Mathlib.Order.Lattice
import Mathlib.Tactic.Common
import Mathlib.Tactic.SplitIfs

/-!
# Heap sort and binary search

Heap sort on a list, ordered by a key, and the binary search for the first position that a
monotone predicate leaves.  The children of position `i` in the heap are `2 i + 1` and `2 i + 2`,
and no key of a child is above the key of its parent.

`sift` repairs a heap whose only disorder is between one position and its children
(`HeapExcept.sift`), `heapFrom_heapify` builds the heap from the end, and `sortedFrom_extract`
takes it apart.  `pairwise_heapSort` says that the result is sorted and `heapSort_perm` that it is
a permutation.
-/

namespace Minyar.SortSearch

variable {α κ : Type*} [LinearOrder κ]

/-! ## The algorithms -/

/-- Two entries change places. -/
def swapAt (fallback : α) (list : List α) (i j : ℕ) : List α :=
  (list.set i (list.getD j fallback)).set j (list.getD i fallback)

/-- The entry at a position sinks below the larger of its children. -/
def sift (key : α → κ) (fallback : α) (count : ℕ) : ℕ → ℕ → List α → List α
  | 0, _, list => list
  | fuel + 1, root, list =>
    let child := root * 2 + 1
    if count ≤ child then list
    else
      let selected := if child + 1 < count ∧
          key (list.getD child fallback) < key (list.getD (child + 1) fallback) then child + 1
        else child
      if key (list.getD root fallback) < key (list.getD selected fallback) then
        sift key fallback count fuel selected (swapAt fallback list root selected)
      else list

/-- The positions below `start` are sifted, the last one first. -/
def heapify (key : α → κ) (fallback : α) : ℕ → List α → List α
  | 0, list => list
  | start + 1, list =>
    heapify key fallback start (sift key fallback list.length list.length start list)

/-- The largest entry of the heap goes behind it; `last` is the last position of the heap. -/
def extract (key : α → κ) (fallback : α) : ℕ → List α → List α
  | 0, list => list
  | last + 1, list => extract key fallback last
      (sift key fallback (last + 1) list.length 0 (swapAt fallback list 0 (last + 1)))

/-- Heap sort. -/
def heapSort (key : α → κ) (fallback : α) (list : List α) : List α :=
  extract key fallback (list.length - 1) (heapify key fallback (list.length / 2) list)

/-- The first position from `low` to `high` that is not before what is searched. -/
def lowerBound (before : ℕ → Bool) (low high : ℕ) : ℕ :=
  if low < high then
    let middle := low + (high - low) / 2
    if before middle then lowerBound before (middle + 1) high else lowerBound before low middle
  else low
termination_by high - low

/-! ## Swapping -/

variable {key : α → κ} {fallback : α} {list : List α}

@[simp] theorem length_swapAt (i j : ℕ) : (swapAt fallback list i j).length = list.length := by
  simp [swapAt]

/-- A swap is a permutation. -/
theorem swapAt_perm {i j : ℕ} (hi : i < list.length) (hj : j < list.length) :
    (swapAt fallback list i j).Perm list := by
  unfold swapAt
  rw [List.getD_eq_getElem _ _ hi, List.getD_eq_getElem _ _ hj]
  exact List.set_set_perm hi hj

/-- The entry that came to the second position. -/
theorem getD_swapAt_right {i j : ℕ} (hj : j < list.length) :
    (swapAt fallback list i j).getD j fallback = list.getD i fallback := by
  unfold swapAt
  rw [List.getD_eq_getElem?_getD, List.getElem?_set_self (by simpa using hj)]
  rfl

/-- The entry that came to the first position. -/
theorem getD_swapAt_left {i j : ℕ} (hi : i < list.length) (hne : i ≠ j) :
    (swapAt fallback list i j).getD i fallback = list.getD j fallback := by
  unfold swapAt
  rw [List.getD_eq_getElem?_getD, List.getElem?_set_ne hne.symm, List.getElem?_set_self hi]
  rfl

/-- The other entries stay. -/
theorem getD_swapAt_of_ne {i j k : ℕ} (hi : k ≠ i) (hj : k ≠ j) :
    (swapAt fallback list i j).getD k fallback = list.getD k fallback := by
  unfold swapAt
  rw [List.getD_eq_getElem?_getD, List.getElem?_set_ne hj.symm, List.getElem?_set_ne hi.symm,
    List.getD_eq_getElem?_getD]

/-! ## Sifting -/

/-- Sifting keeps the length. -/
@[simp] theorem length_sift (count fuel root : ℕ) :
    (sift key fallback count fuel root list).length = list.length := by
  induction fuel generalizing root list with
  | zero => rfl
  | succ fuel ih =>
    rw [sift]
    simp only
    split_ifs with hchild hselected hless hless
    · rfl
    · rw [ih, length_swapAt]
    · rfl
    · rw [ih, length_swapAt]
    · rfl

/-- Sifting is a permutation. -/
theorem sift_perm {count : ℕ} (fuel : ℕ) {root : ℕ} (hcount : count ≤ list.length)
    (hroot : root < list.length) : (sift key fallback count fuel root list).Perm list := by
  induction fuel generalizing root list with
  | zero => exact .refl _
  | succ fuel ih =>
    rw [sift]
    simp only
    split_ifs with hchild hselected hless hless
    · exact .refl _
    · exact (ih (by simpa using hcount) (by rw [length_swapAt]; omega)).trans
        (swapAt_perm hroot (by omega))
    · exact .refl _
    · exact (ih (by simpa using hcount) (by rw [length_swapAt]; omega)).trans
        (swapAt_perm hroot (by omega))
    · exact .refl _

/-- Sifting leaves what stands behind the heap. -/
theorem getD_sift_of_le {count root position : ℕ} (fuel : ℕ) (hposition : count ≤ position)
    (hroot : root < count) :
    (sift key fallback count fuel root list).getD position fallback =
      list.getD position fallback := by
  induction fuel generalizing root list with
  | zero => rfl
  | succ fuel ih =>
    rw [sift]
    simp only
    split_ifs with hchild hselected hless hless
    · rfl
    · rw [ih (by omega), getD_swapAt_of_ne (by omega) (by omega)]
    · rfl
    · rw [ih (by omega), getD_swapAt_of_ne (by omega) (by omega)]
    · rfl

/-- What holds of all entries of the heap still holds when they have changed places. -/
theorem forall_getD_sift {count root : ℕ} (fuel : ℕ) {P : α → Prop} (hcount : count ≤ list.length)
    (hroot : root < count) (h : ∀ i < count, P (list.getD i fallback)) :
    ∀ i < count, P ((sift key fallback count fuel root list).getD i fallback) := by
  induction fuel generalizing root list with
  | zero => exact h
  | succ fuel ih =>
    have hswap : ∀ selected < count, ∀ i < count,
        P ((swapAt fallback list root selected).getD i fallback) := by
      intro selected hselected i hi
      by_cases hj : i = selected
      · rw [hj, getD_swapAt_right (by omega)]
        exact h root hroot
      · by_cases hr : i = root
        · rw [hr, getD_swapAt_left (by omega) (by omega)]
          exact h selected hselected
        · rw [getD_swapAt_of_ne hr hj]
          exact h i hi
    rw [sift]
    simp only
    split_ifs with hchild hselected hless hless
    · exact h
    · exact ih (by simpa using hcount) (by omega) (hswap _ (by omega))
    · exact h
    · exact ih (by simpa using hcount) (by omega) (hswap _ (by omega))
    · exact h

/-- One position is a child of another. -/
def IsChild (parent child : ℕ) : Prop :=
  child = parent * 2 + 1 ∨ child = parent * 2 + 2

/-- From `low` on, no child is above its parent. -/
def HeapFrom (key : α → κ) (fallback : α) (count low : ℕ) (list : List α) : Prop :=
  ∀ parent child, low ≤ parent → IsChild parent child → child < count →
    key (list.getD child fallback) ≤ key (list.getD parent fallback)

/-- A heap but for the children of one position, which are not above the parent of it. -/
structure HeapExcept (key : α → κ) (fallback : α) (count low root : ℕ) (list : List α) : Prop where
  /-- The other children are not above their parents. -/
  others : ∀ parent child, low ≤ parent → parent ≠ root → IsChild parent child → child < count →
    key (list.getD child fallback) ≤ key (list.getD parent fallback)
  /-- The children of the position are not above its parent. -/
  grand : ∀ parent child, low ≤ parent → IsChild parent root → IsChild root child → child < count →
    key (list.getD child fallback) ≤ key (list.getD parent fallback)

/-- When the position is not below its children, the heap is repaired. -/
theorem HeapExcept.finish {count low root : ℕ} (h : HeapExcept key fallback count low root list)
    (hroot : ∀ child, IsChild root child → child < count →
      key (list.getD child fallback) ≤ key (list.getD root fallback)) :
    HeapFrom key fallback count low list := by
  intro parent child hlow hchild hlt
  by_cases heq : parent = root
  · subst heq
    exact hroot child hchild hlt
  · exact h.others parent child hlow heq hchild hlt

/-- The disorder moves to the larger child. -/
theorem HeapExcept.move {count low root selected : ℕ}
    (h : HeapExcept key fallback count low root list) (hcount : count ≤ list.length)
    (hlow : low ≤ root) (hselected : IsChild root selected) (hlt : selected < count)
    (hmax : ∀ child, IsChild root child → child < count →
      key (list.getD child fallback) ≤ key (list.getD selected fallback))
    (hless : key (list.getD root fallback) < key (list.getD selected fallback)) :
    HeapExcept key fallback count low selected (swapAt fallback list root selected) := by
  have hbelow : root < selected := by rcases hselected with rfl | rfl <;> omega
  have hright : (swapAt fallback list root selected).getD selected fallback =
      list.getD root fallback := getD_swapAt_right (by omega)
  have hleft : (swapAt fallback list root selected).getD root fallback =
      list.getD selected fallback := getD_swapAt_left (by omega) (by omega)
  constructor
  · intro parent child hlowp hparent hchild hchildlt
    by_cases hr : parent = root
    · -- the entry from below is now above both children
      subst hr
      rw [hleft]
      by_cases hc : child = selected
      · rw [hc, hright]
        exact hless.le
      · rw [getD_swapAt_of_ne (by rcases hchild with rfl | rfl <;> omega) hc]
        exact hmax child hchild hchildlt
    · by_cases hc : child = root
      · subst hc
        rw [hleft, getD_swapAt_of_ne hr hparent]
        exact h.grand parent selected hlowp hchild hselected hlt
      · have hcs : child ≠ selected := by
          rintro rfl
          rcases hchild with hchild | hchild <;> rcases hselected with hselected | hselected <;> omega
        rw [getD_swapAt_of_ne hc hcs, getD_swapAt_of_ne hr hparent]
        exact h.others parent child hlowp hr hchild hchildlt
  · intro parent child hlowp hparent hchild hchildlt
    obtain rfl : parent = root := by
      rcases hparent with hparent | hparent <;> rcases hselected with hselected | hselected <;> omega
    rw [hleft, getD_swapAt_of_ne (by rcases hchild with rfl | rfl <;> omega)
      (by rcases hchild with rfl | rfl <;> omega)]
    exact h.others selected child (by omega) (by omega) hchild hchildlt

/-- Sifting repairs the heap. -/
theorem HeapExcept.sift {count low root fuel : ℕ}
    (h : HeapExcept key fallback count low root list) (hcount : count ≤ list.length)
    (hlow : low ≤ root) (hfuel : count ≤ fuel + root) :
    HeapFrom key fallback count low (SortSearch.sift key fallback count fuel root list) := by
  induction fuel generalizing root list with
  | zero =>
    refine h.finish fun child hchild hlt => ?_
    rcases hchild with rfl | rfl <;> omega
  | succ fuel ih =>
    rw [SortSearch.sift]
    simp only
    by_cases hchild : count ≤ root * 2 + 1
    · rw [if_pos hchild]
      refine h.finish fun child hc hlt => ?_
      rcases hc with rfl | rfl <;> omega
    rw [if_neg hchild]
    -- the selected child is one of the two, and the larger one
    obtain ⟨selected, hsel, his, hlt, hmax⟩ : ∃ selected,
        (if root * 2 + 1 + 1 < count ∧ key (list.getD (root * 2 + 1) fallback) <
            key (list.getD (root * 2 + 1 + 1) fallback) then root * 2 + 1 + 1
          else root * 2 + 1) = selected ∧ IsChild root selected ∧ selected < count ∧
        ∀ child, IsChild root child → child < count →
          key (list.getD child fallback) ≤ key (list.getD selected fallback) := by
      split
      · next hsecond =>
        refine ⟨_, rfl, .inr rfl, hsecond.1, fun child hc _ => ?_⟩
        rcases hc with rfl | rfl
        · exact hsecond.2.le
        · exact le_rfl
      · next hsecond =>
        refine ⟨_, rfl, .inl rfl, by omega, fun child hc hlt => ?_⟩
        rcases hc with rfl | rfl
        · exact le_rfl
        · exact not_lt.mp fun hless => hsecond ⟨hlt, hless⟩
    rw [hsel]
    split
    · next hless =>
      have hdown : root < selected := by rcases his with rfl | rfl <;> omega
      exact ih (h.move hcount hlow his hlt hmax hless) (by simpa using hcount) (by omega) (by omega)
    · next hless =>
      exact h.finish fun child hc hchildlt => (hmax child hc hchildlt).trans (not_lt.mp hless)

/-! ## Building the heap and taking it apart -/

/-- Building the heap keeps the length. -/
@[simp] theorem length_heapify (start : ℕ) :
    (heapify key fallback start list).length = list.length := by
  induction start generalizing list with
  | zero => rfl
  | succ start ih => rw [heapify, ih, length_sift]

/-- Building the heap is a permutation. -/
theorem heapify_perm {start : ℕ} (h : start ≤ list.length) :
    (heapify key fallback start list).Perm list := by
  induction start generalizing list with
  | zero => exact .refl _
  | succ start ih =>
    rw [heapify]
    exact (ih (by rw [length_sift]; omega)).trans (sift_perm _ (Nat.le_refl _) h)

/-- Every position is the root of a heap. -/
theorem heapFrom_heapify {start : ℕ} (h : HeapFrom key fallback list.length start list) :
    HeapFrom key fallback list.length 0 (heapify key fallback start list) := by
  induction start generalizing list with
  | zero => exact h
  | succ start ih =>
    have hexcept : HeapExcept key fallback list.length start start list := by
      constructor
      · intro parent child hlow hne hchild hlt
        exact h parent child (by omega) hchild hlt
      · intro parent child hlow hparent _ _
        rcases hparent with hparent | hparent <;> omega
    have hsift : HeapFrom key fallback list.length start
        (sift key fallback list.length list.length start list) :=
      hexcept.sift (Nat.le_refl _) (Nat.le_refl _) (by omega)
    rw [heapify]
    have hlength : (sift key fallback list.length list.length start list).length = list.length :=
      length_sift _ _ _
    have hnext := @ih (sift key fallback list.length list.length start list)
    rw [hlength] at hnext
    exact hnext hsift

/-- No entry of a heap is above its first one. -/
theorem HeapFrom.le_root {count : ℕ} (h : HeapFrom key fallback count 0 list) {position : ℕ}
    (hlt : position < count) :
    key (list.getD position fallback) ≤ key (list.getD 0 fallback) := by
  induction position using Nat.strongRecOn with
  | ind position ih =>
    by_cases hzero : position = 0
    · rw [hzero]
    · have hchild : IsChild ((position - 1) / 2) position := by
        unfold IsChild
        omega
      exact (h _ _ (Nat.zero_le _) hchild hlt).trans (ih _ (by omega) (by omega))

/-- From `start` on, no entry is below one that stands before it. -/
def SortedFrom (key : α → κ) (fallback : α) (start : ℕ) (list : List α) : Prop :=
  ∀ i j, i < j → start ≤ j → j < list.length →
    key (list.getD i fallback) ≤ key (list.getD j fallback)

/-- Taking the heap apart is a permutation. -/
theorem extract_perm {last : ℕ} (h : last < list.length ∨ last = 0) :
    (extract key fallback last list).Perm list := by
  induction last generalizing list with
  | zero => exact .refl _
  | succ last ih =>
    have hlast : last + 1 < list.length := h.resolve_right (Nat.succ_ne_zero last)
    rw [extract]
    refine (ih (.inl ?_)).trans ((sift_perm _ ?_ ?_).trans (swapAt_perm (by omega) hlast))
    · rw [length_sift, length_swapAt]
      omega
    · rw [length_swapAt]
      omega
    · rw [length_swapAt]
      omega

/-- The largest entry of the heap behind the rest of it, which is a heap again. -/
theorem heapFrom_extract_step {last : ℕ} (h : HeapFrom key fallback (last + 2) 0 list)
    (hlast : last + 1 < list.length) :
    HeapFrom key fallback (last + 1) 0
      (sift key fallback (last + 1) list.length 0 (swapAt fallback list 0 (last + 1))) := by
  have hexcept : HeapExcept key fallback (last + 1) 0 0 (swapAt fallback list 0 (last + 1)) := by
    constructor
    · intro parent child _ hne hchild hlt
      have hbelow : parent < child := by rcases hchild with rfl | rfl <;> omega
      rw [getD_swapAt_of_ne (by omega) (by omega), getD_swapAt_of_ne hne (by omega)]
      exact h parent child (Nat.zero_le _) hchild (by omega)
    · intro parent child _ hparent _ _
      rcases hparent with hparent | hparent <;> omega
  exact hexcept.sift (by rw [length_swapAt]; omega) (Nat.le_refl _) (by omega)

/-- What stands behind the heap stays sorted and above the heap. -/
theorem sortedFrom_extract_step {last : ℕ} (h : HeapFrom key fallback (last + 2) 0 list)
    (hsorted : SortedFrom key fallback (last + 2) list) (hlast : last + 1 < list.length) :
    SortedFrom key fallback (last + 1)
      (sift key fallback (last + 1) list.length 0 (swapAt fallback list 0 (last + 1))) := by
  intro i j hij hj hlt
  rw [length_sift, length_swapAt] at hlt
  rw [getD_sift_of_le _ hj (by omega)]
  have hmoved : ∀ k, last + 1 ≤ k → k < list.length → ∀ m ≤ last + 1,
      key (list.getD m fallback) ≤
        key ((swapAt fallback list 0 (last + 1)).getD k fallback) := by
    intro k hk hklt m hm
    by_cases heq : k = last + 1
    · rw [heq, getD_swapAt_right hlast]
      exact h.le_root (by omega)
    · rw [getD_swapAt_of_ne (by omega) heq]
      exact hsorted m k (by omega) (by omega) hklt
  by_cases hi : i < last + 1
  · -- an entry of the heap, wherever it was before
    refine forall_getD_sift list.length (P := fun a => key a ≤ _)
      (by rw [length_swapAt]; omega) (by omega) (fun k hk => ?_) i hi
    by_cases hzero : k = 0
    · rw [hzero, getD_swapAt_left (by omega) (by omega)]
      exact hmoved j hj hlt (last + 1) (Nat.le_refl _)
    · rw [getD_swapAt_of_ne hzero (by omega)]
      exact hmoved j hj hlt k (by omega)
  · rw [getD_sift_of_le _ (by omega) (by omega), getD_swapAt_of_ne (i := 0) (k := j) (by omega)
      (by omega)]
    by_cases heq : i = last + 1
    · rw [heq, getD_swapAt_right hlast]
      exact hsorted 0 j (by omega) (by omega) hlt
    · rw [getD_swapAt_of_ne (by omega) heq]
      exact hsorted i j hij (by omega) hlt

/-- Taking the heap apart sorts. -/
theorem sortedFrom_extract {last : ℕ} (h : HeapFrom key fallback (last + 1) 0 list)
    (hsorted : SortedFrom key fallback (last + 1) list) (hlast : last < list.length ∨ last = 0) :
    SortedFrom key fallback 1 (extract key fallback last list) := by
  induction last generalizing list with
  | zero => exact hsorted
  | succ last ih =>
    have hlast : last + 1 < list.length := hlast.resolve_right (Nat.succ_ne_zero last)
    rw [extract]
    refine ih (heapFrom_extract_step h hlast) (sortedFrom_extract_step h hsorted hlast) (.inl ?_)
    rw [length_sift, length_swapAt]
    omega

/-! ## Heap sort -/

/-- Heap sort is a permutation. -/
theorem heapSort_perm (key : α → κ) (fallback : α) (list : List α) :
    (heapSort key fallback list).Perm list := by
  unfold heapSort
  have hheap : (heapify key fallback (list.length / 2) list).Perm list :=
    heapify_perm (Nat.div_le_self _ _)
  refine (extract_perm ?_).trans hheap
  rw [hheap.length_eq]
  omega

/-- Heap sort sorts. -/
theorem pairwise_heapSort (key : α → κ) (fallback : α) (list : List α) :
    (heapSort key fallback list).Pairwise fun a b => key a ≤ key b := by
  have hbase : HeapFrom key fallback list.length (list.length / 2) list := by
    intro parent child hlow hchild hlt
    rcases hchild with rfl | rfl <;> omega
  have hheap := heapFrom_heapify hbase
  have hsorted : SortedFrom key fallback 1 (heapSort key fallback list) := by
    unfold heapSort
    by_cases hlength : list.length = 0
    · rw [hlength]
      intro i j hij hj hlt
      have hzero : (heapify key fallback (0 / 2) list).length = 0 := by
        rw [length_heapify, hlength]
      exact absurd (show j < 0 from hzero ▸ hlt) (Nat.not_lt_zero j)
    · refine sortedFrom_extract ?_ ?_ (by rw [length_heapify]; omega)
      · rwa [Nat.sub_add_cancel (by omega)]
      · intro i j hij hj hlt
        rw [length_heapify] at hlt
        omega
  rw [List.pairwise_iff_getElem]
  intro i j hi hj hij
  have h := hsorted i j hij (by omega) hj
  rwa [List.getD_eq_getElem _ _ hi, List.getD_eq_getElem _ _ hj] at h

/-! ## Binary search -/

/-- The search stops between the positions before and the others. -/
theorem lowerBound_spec {before : ℕ → Bool} {low high : ℕ} (hle : low ≤ high)
    (hmono : ∀ i j, i ≤ j → j < high → before j = true → before i = true) :
    low ≤ lowerBound before low high ∧ lowerBound before low high ≤ high ∧
      (∀ i, low ≤ i → i < lowerBound before low high → before i = true) ∧
      ∀ i, lowerBound before low high ≤ i → i < high → before i = false := by
  induction hn : high - low using Nat.strongRecOn generalizing low high with
  | ind n ih =>
    rw [lowerBound]
    by_cases hlt : low < high
    · rw [if_pos hlt]
      simp only
      have hmiddle : low + (high - low) / 2 < high := by omega
      generalize hm : low + (high - low) / 2 = middle at hmiddle
      by_cases hbefore : before middle = true
      · rw [if_pos hbefore]
        obtain ⟨h₁, h₂, h₃, h₄⟩ := ih (high - (middle + 1)) (by omega)
          (show middle + 1 ≤ high by omega) hmono rfl
        refine ⟨by omega, h₂, fun i hi hilt => ?_, h₄⟩
        by_cases hfar : middle + 1 ≤ i
        · exact h₃ i hfar hilt
        · exact hmono i middle (by omega) hmiddle hbefore
      · rw [if_neg hbefore]
        obtain ⟨h₁, h₂, h₃, h₄⟩ := ih (middle - low) (by omega) (show low ≤ middle by omega)
          (fun i j hij hj => hmono i j hij (by omega)) rfl
        refine ⟨h₁, by omega, h₃, fun i hi hilt => ?_⟩
        by_cases hnear : i < middle
        · exact h₄ i hi hnear
        · exact Bool.eq_false_iff.mpr fun hb =>
            hbefore (hmono middle i (by omega) hilt hb)
    · rw [if_neg hlt]
      exact ⟨Nat.le_refl _, hle, fun i hi hilt => absurd hilt (by omega),
        fun i hi hilt => absurd hilt (by omega)⟩

end Minyar.SortSearch

import Mathlib.Data.List.Basic
import Mathlib.Data.List.GetD

/-!
# Maps reused through generation tags

A map from numbers to values in a flat list: the entry of a key is a tag and a value.  An entry
counts only when its tag is the current generation, so a new generation empties the map without
touching it.  The list grows with a filler that is no generation.
-/

namespace Minyar

variable {α : Type*}

/-- The list with fillers up to a length. -/
def padTo (filler : α) (l : List α) (length : ℕ) : List α :=
  l ++ List.replicate (length - l.length) filler

/-- The list has the length. -/
theorem le_length_padTo (filler : α) (l : List α) (length : ℕ) :
    length ≤ (padTo filler l length).length := by
  unfold padTo
  rw [List.length_append, List.length_replicate]
  omega

/-- The fillers do not show. -/
@[simp] theorem getD_padTo (filler : α) (l : List α) (length i : ℕ) :
    (padTo filler l length).getD i filler = l.getD i filler := by
  unfold padTo
  rcases Nat.lt_or_ge i l.length with hi | hi
  · rw [List.getD_append _ _ _ _ hi]
  · rw [List.getD_append_right _ _ _ _ hi, List.getD_eq_default _ _ hi]
    rcases Nat.lt_or_ge (i - l.length) (length - l.length) with hj | hj
    · rw [List.getD_replicate _ hj]
    · rw [List.getD_eq_default _ _ (by rwa [List.length_replicate])]

/-- Replacing an element. -/
theorem getD_set_self {l : List α} {i : ℕ} (hi : i < l.length) (x filler : α) :
    (l.set i x).getD i filler = x := by
  rw [List.getD_eq_getElem?_getD, List.getElem?_set_self hi, Option.getD_some]

/-- The other elements stay. -/
theorem getD_set_of_ne {l : List α} {i j : ℕ} (hij : i ≠ j) (x filler : α) :
    (l.set i x).getD j filler = l.getD j filler := by
  rw [List.getD_eq_getElem?_getD, List.getElem?_set_ne hij, ← List.getD_eq_getElem?_getD]

/-- The map after a value is stored in a generation. -/
def storeTagged (filler : α) (l : List α) (generation : α) (key : ℕ) (value : α) : List α :=
  ((padTo filler l (key * 2 + 2)).set (key * 2) generation).set (key * 2 + 1) value

variable {filler : α}

/-- Every tag belongs to a set of generations. -/
def TagsIn (filler : α) (generations : Set α) (l : List α) : Prop :=
  ∀ key, l.getD (key * 2) filler ∈ generations

theorem TagsIn.mono {generations generations' : Set α} {l : List α}
    (h : TagsIn filler generations l) (hsub : generations ⊆ generations') :
    TagsIn filler generations' l := fun key => hsub (h key)

theorem TagsIn.padTo {generations : Set α} {l : List α} (h : TagsIn filler generations l)
    (length : ℕ) : TagsIn filler generations (padTo filler l length) := fun key => by
  rw [getD_padTo]
  exact h key

/-- Storing a value in one of the generations. -/
theorem TagsIn.storeTagged {generations : Set α} {l : List α} (h : TagsIn filler generations l)
    {generation : α} (hgeneration : generation ∈ generations) (key : ℕ) (value : α) :
    TagsIn filler generations (storeTagged filler l generation key value) := by
  intro key'
  have hlength := le_length_padTo filler l (key * 2 + 2)
  unfold Minyar.storeTagged
  rw [getD_set_of_ne (by omega)]
  by_cases hkey : key' = key
  · rw [hkey, getD_set_self (by omega)]
    exact hgeneration
  · rw [getD_set_of_ne (by omega), getD_padTo]
    exact h key'

section

variable [DecidableEq α]

/-- The value of a key in a generation. -/
def taggedEntry (filler : α) (l : List α) (generation : α) (key : ℕ) : Option α :=
  if l.getD (key * 2) filler = generation then some (l.getD (key * 2 + 1) filler) else none

/-- The fillers add no entry. -/
@[simp] theorem taggedEntry_padTo (l : List α) (generation : α) (key length : ℕ) :
    taggedEntry filler (padTo filler l length) generation key =
      taggedEntry filler l generation key := by
  unfold taggedEntry
  rw [getD_padTo, getD_padTo]

/-- The stored value. -/
theorem taggedEntry_storeTagged_self (l : List α) (generation : α) (key : ℕ) (value : α) :
    taggedEntry filler (storeTagged filler l generation key value) generation key = some value := by
  have hlength := le_length_padTo filler l (key * 2 + 2)
  unfold taggedEntry storeTagged
  rw [getD_set_of_ne (by omega), getD_set_self (by omega), if_pos rfl,
    getD_set_self (by rw [List.length_set]; omega)]

/-- The entries of other keys. -/
theorem taggedEntry_storeTagged_of_ne (l : List α) {generation generation' : α} {key key' : ℕ}
    (hkey : key' ≠ key) (value : α) :
    taggedEntry filler (storeTagged filler l generation key value) generation' key' =
      taggedEntry filler l generation' key' := by
  unfold taggedEntry storeTagged
  rw [getD_set_of_ne (by omega), getD_set_of_ne (by omega), getD_set_of_ne (by omega),
    getD_set_of_ne (by omega), getD_padTo, getD_padTo]

/-- A new generation is empty. -/
theorem TagsIn.taggedEntry_eq_none {generations : Set α} {l : List α}
    (h : TagsIn filler generations l) {generation : α} (hnew : generation ∉ generations) (key : ℕ) :
    taggedEntry filler l generation key = none :=
  if_neg fun heq : l.getD (key * 2) filler = generation => hnew (heq ▸ h key)

end

end Minyar

import Mathlib.Data.List.Basic
import Mathlib.Order.Basic
import Mathlib.Algebra.Order.Group.Nat

/-!
# Operator precedence

A chain of left-associative binary operators is an operand followed by operators, each with the
operand behind it.  There are two usual ways to group it.  Precedence climbing (`Climbs`) takes every
operator of at least a minimum level and gives it the operators of higher levels on its right as its
right operand.  The layered grammar has a rule (`Layer`) for every level, which takes the operators of
exactly that level and reads its operands by the rule of the next one.

Both take the same operators and group them alike: a layer over the climb of the next level is the
climb of its own level, and the result of a climb is unique.
-/

namespace Minyar

variable {O T : Type} (level : O → ℕ) (node : O → T → T → T)

/-! ## Climbing -/

/-- Precedence climbing from a left operand: the grouping of the operators of at least the level
`min` that stand at the front, and the items that are left. -/
inductive Climbs : ℕ → T → List (O × T) → T → List (O × T) → Prop
  /-- No operator or one below the level. -/
  | stop {min : ℕ} {left : T} {items : List (O × T)} (h : ∀ i ∈ items.head?, level i.1 < min) :
      Climbs min left items left items
  /-- An operator whose right operand has only operators of higher levels. -/
  | step {min : ℕ} {left x right result : T} {o : O} {items rest rest' : List (O × T)}
      (h : min ≤ level o) (hright : Climbs (level o + 1) x items right rest)
      (hrest : Climbs min (node o left right) rest result rest') :
      Climbs min left ((o, x) :: items) result rest'

namespace Climbs

variable {level node} {min : ℕ} {left result result' : T} {items rest rest' : List (O × T)}

/-- Climbing only takes items from the front. -/
theorem length_le (h : Climbs level node min left items result rest) :
    rest.length ≤ items.length := by
  induction h with
  | stop _ => exact le_rfl
  | step _ _ _ ih ih' =>
    rw [List.length_cons]
    omega

/-- Climbing ends before an operator below its level. -/
theorem head_lt (h : Climbs level node min left items result rest) :
    ∀ i ∈ rest.head?, level i.1 < min := by
  induction h with
  | stop h => exact h
  | step _ _ _ _ ih => exact ih

/-- The result of climbing is unique. -/
theorem unique (h : Climbs level node min left items result rest)
    (h' : Climbs level node min left items result' rest') : result = result' ∧ rest = rest' := by
  induction h generalizing result' rest' with
  | stop hstop =>
    cases h' with
    | stop _ => exact ⟨rfl, rfl⟩
    | step h _ _ => exact absurd (hstop _ rfl) (not_lt.mpr h)
  | step hlevel _ _ ih ih' =>
    cases h' with
    | stop hstop => exact absurd (hstop _ rfl) (not_lt.mpr hlevel)
    | step _ hright hrest =>
      obtain ⟨rfl, rfl⟩ := ih hright
      exact ih' hrest

variable (level node) in
/-- Climbing always ends. -/
theorem exists_climbs (min : ℕ) (left : T) (items : List (O × T)) :
    ∃ result rest, Climbs level node min left items result rest := by
  induction hn : items.length using Nat.strong_induction_on generalizing min left items with
  | h n ih =>
    subst hn
    match items with
    | [] => exact ⟨left, [], .stop fun _ h => by cases h⟩
    | (o, x) :: items =>
      by_cases hlevel : min ≤ level o
      · obtain ⟨right, rest, hright⟩ :=
          ih items.length (by simp) (level o + 1) x items rfl
        have hle := hright.length_le
        obtain ⟨result, rest', hrest⟩ :=
          ih rest.length (by rw [List.length_cons]; omega) min (node o left right) rest rfl
        exact ⟨result, rest', .step hlevel hright hrest⟩
      · refine ⟨left, (o, x) :: items, .stop fun i hi => ?_⟩
        cases hi
        exact not_le.mp hlevel

/-- Climbing at a level takes the operators of higher levels first. -/
theorem succ_trans {middle : T} (h : Climbs level node (min + 1) left items middle rest)
    (h' : Climbs level node min middle rest result rest') :
    Climbs level node min left items result rest' := by
  generalize hmin : min + 1 = m at h
  induction h with
  | stop _ => exact h'
  | step hlevel hright _ _ ih' =>
    subst hmin
    exact .step (by omega) hright (ih' h' rfl)

/-- What climbing leaves was there. -/
theorem mem_of_mem_rest (h : Climbs level node min left items result rest) {i : O × T}
    (hi : i ∈ rest) : i ∈ items := by
  induction h with
  | stop _ => exact hi
  | step _ _ _ ih ih' => exact List.mem_cons_of_mem _ (ih (ih' hi))

/-- Below the level of every operator climbing takes all items. -/
theorem rest_eq_nil (h : Climbs level node min left items result rest)
    (hlevel : ∀ i ∈ items, min ≤ level i.1) : rest = [] := by
  induction h with
  | @stop min left items hstop =>
    cases items with
    | nil => rfl
    | cons i items => exact absurd (hstop i rfl) (not_lt.mpr (hlevel i List.mem_cons_self))
  | step _ hright _ _ ih' =>
    exact ih' fun i hi => hlevel i (List.mem_cons_of_mem _ (hright.mem_of_mem_rest hi))

end Climbs

/-! ## Layers -/

/-- The loop of the rule for the level `l`, whose operands are read by the rule `next`. -/
inductive LayerLoop (next : T → List (O × T) → T → List (O × T) → Prop) (l : ℕ) :
    T → List (O × T) → T → List (O × T) → Prop
  /-- No operator or one of another level. -/
  | stop {left : T} {items : List (O × T)} (h : ∀ i ∈ items.head?, level i.1 ≠ l) :
      LayerLoop next l left items left items
  /-- An operator of the level. -/
  | step {left x right result : T} {o : O} {items rest rest' : List (O × T)}
      (h : level o = l) (hright : next x items right rest)
      (hrest : LayerLoop next l (node o left right) rest result rest') :
      LayerLoop next l left ((o, x) :: items) result rest'

/-- The rule for the level `l`. -/
def Layer (next : T → List (O × T) → T → List (O × T) → Prop) (l : ℕ) (left : T)
    (items : List (O × T)) (result : T) (rest : List (O × T)) : Prop :=
  ∃ first items', next left items first items' ∧ LayerLoop level node next l first items' result rest

variable {level node} in
/-- A layer only takes items from the front. -/
theorem Layer.length_le {next : T → List (O × T) → T → List (O × T) → Prop}
    (hnext : ∀ left items result rest, next left items result rest → rest.length ≤ items.length)
    {l : ℕ} {left result : T} {items rest : List (O × T)}
    (h : Layer level node next l left items result rest) : rest.length ≤ items.length := by
  obtain ⟨first, items', hfirst, hloop⟩ := h
  refine le_trans ?_ (hnext _ _ _ _ hfirst)
  clear hfirst
  induction hloop with
  | stop _ => exact le_rfl
  | step _ hright _ ih =>
    have := hnext _ _ _ _ hright
    rw [List.length_cons]
    omega

/-- A layer over the climb of the next level is the climb of its level. -/
theorem Layer.climbs {next : T → List (O × T) → T → List (O × T) → Prop} {l : ℕ} {left result : T}
    {items rest : List (O × T)}
    (hnext : ∀ left items result rest, next left items result rest →
      Climbs level node (l + 1) left items result rest)
    (h : Layer level node next l left items result rest) :
    Climbs level node l left items result rest := by
  obtain ⟨first, items', hfirst, hloop⟩ := h
  have hclimb := hnext _ _ _ _ hfirst
  refine hclimb.succ_trans ?_
  have hhead := hclimb.head_lt
  clear hclimb hfirst
  induction hloop with
  | stop hstop =>
    refine .stop fun i hi => ?_
    have := hstop i hi
    have := hhead i hi
    omega
  | step hlevel hright _ ih =>
    have hclimb := hnext _ _ _ _ hright
    subst hlevel
    exact .step le_rfl hclimb (ih hclimb.head_lt)

/-- Every layer over a rule that always ends does. -/
theorem exists_layer {next : T → List (O × T) → T → List (O × T) → Prop} (l : ℕ)
    (hnext : ∀ left items, ∃ result rest, next left items result rest ∧
      rest.length ≤ items.length) (left : T) (items : List (O × T)) :
    ∃ result rest, Layer level node next l left items result rest ∧
      rest.length ≤ items.length := by
  have hloop : ∀ left items, ∃ result rest, LayerLoop level node next l left items result rest ∧
      rest.length ≤ items.length := by
    intro left items
    induction hn : items.length using Nat.strong_induction_on generalizing left items with
    | h n ih =>
      subst hn
      match items with
      | [] => exact ⟨left, [], .stop (fun _ h => by cases h), le_rfl⟩
      | (o, x) :: items =>
        by_cases hlevel : level o = l
        · obtain ⟨right, rest, hright, hle⟩ := hnext x items
          obtain ⟨result, rest', hrest, hle'⟩ :=
            ih rest.length (by rw [List.length_cons]; omega) (node o left right) rest rfl
          refine ⟨result, rest', .step hlevel hright hrest, ?_⟩
          rw [List.length_cons]
          omega
        · refine ⟨left, (o, x) :: items, .stop (fun i hi => ?_), le_rfl⟩
          cases hi
          exact hlevel
  obtain ⟨first, items', hfirst, hle⟩ := hnext left items
  obtain ⟨result, rest, hrest, hle'⟩ := hloop first items'
  exact ⟨result, rest, ⟨first, items', hfirst, hrest⟩, hle'.trans hle⟩

end Minyar

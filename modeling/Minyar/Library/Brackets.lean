import Mathlib.Data.List.Infix

/-!
# Matching brackets

The scan for the bracket that closes an open one.  What counts as a bracket is a parameter `read`,
so that two readings of the same list can be compared, and the scan stops at an end marker.
`bracketScan_eq_zero_iff` says what a successful scan finds: a list that is balanced in the reading,
and the bracket that closes.  `closedBy_iff` compares a reading with one that takes more elements for
brackets: where these stay inside the list and balance in it, the same bracket closes.
-/

namespace Minyar

variable {α : Type*}

/-- The two brackets. -/
inductive Bracket where
  | opening
  | closing
  deriving DecidableEq

/-- The number of elements that read as the given bracket. -/
def bracketCount (read : α → Option Bracket) (b : Bracket) (l : List α) : ℕ :=
  l.countP fun x => read x = some b

/-- Inside `depth` open brackets no prefix of the list closes more brackets than are open, and the
whole list closes `depth` more than it opens. -/
structure BracketsWithin (read : α → Option Bracket) (depth : ℕ) (l : List α) : Prop where
  /-- No prefix closes too many brackets. -/
  before : ∀ p, p <+: l → bracketCount read .closing p ≤ bracketCount read .opening p + depth
  /-- In the end exactly `depth` brackets are closed. -/
  total : bracketCount read .closing l = bracketCount read .opening l + depth

/-- The scan with `depth` open brackets: the depth in the end and the elements that are left. -/
def bracketScan (read : α → Option Bracket) (stop : α → Bool) : ℕ → List α → ℕ × List α
  | 0, l => (0, l)
  | depth + 1, [] => (depth + 1, [])
  | depth + 1, x :: l =>
    if stop x then (depth + 1, x :: l)
    else match read x with
      | some .opening => bracketScan read stop (depth + 2) l
      | some .closing => bracketScan read stop depth l
      | none => bracketScan read stop (depth + 1) l

theorem bracketCount_cons (read : α → Option Bracket) (b : Bracket) (x : α) (l : List α) :
    bracketCount read b (x :: l) = bracketCount read b l + if read x = some b then 1 else 0 := by
  simp [bracketCount, List.countP_cons]

/-- An element in front changes the number of open brackets. -/
theorem bracketsWithin_cons {read : α → Option Bracket} {x : α} {l : List α} {d d' : ℕ}
    (hd : (if read x = some .closing then 1 else 0) + d' =
      (if read x = some .opening then 1 else 0) + d) :
    BracketsWithin read d (x :: l) ↔ BracketsWithin read d' l := by
  constructor
  · refine fun h => ⟨fun p hp => ?_, ?_⟩
    · have := h.before (x :: p) (List.cons_prefix_cons.mpr ⟨rfl, hp⟩)
      rw [bracketCount_cons, bracketCount_cons] at this
      omega
    · have := h.total
      rw [bracketCount_cons, bracketCount_cons] at this
      omega
  · refine fun h => ⟨fun p hp => ?_, ?_⟩
    · rcases List.prefix_cons_iff.mp hp with rfl | ⟨p', rfl, hp'⟩
      · simp [bracketCount]
      · have := h.before p' hp'
        rw [bracketCount_cons, bracketCount_cons]
        omega
    · have := h.total
      rw [bracketCount_cons, bracketCount_cons]
      omega

/-- Nothing closes the last bracket before its closing bracket. -/
theorem not_bracketsWithin_closing {read : α → Option Bracket} {x : α} {l : List α}
    (hx : read x = some .closing) : ¬ BracketsWithin read 0 (x :: l) := by
  intro h
  have := h.before [x] (by simp)
  rw [bracketCount_cons, bracketCount_cons, if_pos hx, if_neg (by simp [hx])] at this
  simp [bracketCount] at this

/-- Nothing is closed in the empty list. -/
theorem bracketsWithin_nil {read : α → Option Bracket} {d : ℕ} :
    BracketsWithin read d [] ↔ d = 0 := by
  constructor
  · intro h
    have := h.total
    simp only [bracketCount, List.countP_nil] at this
    omega
  · rintro rfl
    exact ⟨fun p hp => by simp [List.prefix_nil.mp hp, bracketCount], rfl⟩

/-- The bracket that closes `depth + 1` open brackets: the list up to it, and what follows it. -/
def ClosedBy (read : α → Option Bracket) (stop : α → Bool) (depth : ℕ) (l after : List α) : Prop :=
  ∃ index close, l = index ++ close :: after ∧ BracketsWithin read depth index ∧
    read close = some .closing ∧ ∀ x ∈ index ++ [close], stop x = false

theorem not_closedBy_nil {read : α → Option Bracket} {stop : α → Bool} {d : ℕ} {after : List α} :
    ¬ ClosedBy read stop d [] after := by
  rintro ⟨index, close, heq, -⟩
  simp at heq

/-- The end marker ends the search. -/
theorem not_closedBy_stop {read : α → Option Bracket} {stop : α → Bool} {d : ℕ} {x : α}
    {l after : List α} (hx : stop x = true) : ¬ ClosedBy read stop d (x :: l) after := by
  rintro ⟨index, close, heq, -, -, hall⟩
  have hmem : x ∈ index ++ [close] := by
    rcases index with _ | ⟨y, index⟩ <;> cases heq <;> simp
  rw [hall x hmem] at hx
  cases hx

/-- A bracket inside changes the number of open brackets. -/
theorem closedBy_cons {read : α → Option Bracket} {stop : α → Bool} {d d' : ℕ} {x : α}
    {l after : List α} (hx : stop x = false)
    (hd : (if read x = some .closing then 1 else 0) + d' =
      (if read x = some .opening then 1 else 0) + d)
    (hfirst : read x = some .closing → d ≠ 0) :
    ClosedBy read stop d (x :: l) after ↔ ClosedBy read stop d' l after := by
  constructor
  · rintro ⟨index, close, heq, hwithin, hclose, hall⟩
    rcases index with _ | ⟨y, index⟩
    · cases heq
      exact absurd (bracketsWithin_nil.mp hwithin) (hfirst hclose)
    · cases heq
      exact ⟨index, close, rfl, (bracketsWithin_cons hd).mp hwithin, hclose,
        fun z hz => hall z (List.mem_cons_of_mem _ hz)⟩
  · rintro ⟨index, close, rfl, hwithin, hclose, hall⟩
    refine ⟨x :: index, close, rfl, (bracketsWithin_cons hd).mpr hwithin, hclose, fun z hz => ?_⟩
    rcases List.mem_cons.mp hz with rfl | hz
    · exact hx
    · exact hall z hz

/-- The bracket that closes the last open one. -/
theorem closedBy_closing {read : α → Option Bracket} {stop : α → Bool} {x : α} {l after : List α}
    (hx : stop x = false) (hread : read x = some .closing) :
    ClosedBy read stop 0 (x :: l) after ↔ l = after := by
  constructor
  · rintro ⟨index, close, heq, hwithin, -, -⟩
    rcases index with _ | ⟨y, index⟩
    · cases heq
      rfl
    · cases heq
      exact absurd hwithin (not_bracketsWithin_closing hread)
  · rintro rfl
    exact ⟨[], x, rfl, bracketsWithin_nil.mpr rfl, hread, by simpa using hx⟩

/-- The scan reaches depth zero exactly behind the bracket that closes. -/
theorem bracketScan_eq_zero_iff {read : α → Option Bracket} {stop : α → Bool} {d : ℕ}
    {l after : List α} :
    bracketScan read stop (d + 1) l = (0, after) ↔ ClosedBy read stop d l after := by
  induction l generalizing d with
  | nil => simp [bracketScan, not_closedBy_nil]
  | cons x l ih =>
    rw [bracketScan]
    by_cases hstop : stop x = true
    · rw [if_pos hstop]
      simp [not_closedBy_stop hstop]
    · have hx : stop x = false := by simpa using hstop
      rw [if_neg hstop]
      rcases hread : read x with _ | ⟨_ | _⟩
      · have hcons : ClosedBy read stop d (x :: l) after ↔ ClosedBy read stop d l after :=
          closedBy_cons hx (by simp [hread]) (by simp [hread])
        rw [hcons]
        exact ih
      · have hcons : ClosedBy read stop d (x :: l) after ↔ ClosedBy read stop (d + 1) l after :=
          closedBy_cons hx (by simp [hread]; omega) (by simp [hread])
        rw [hcons]
        exact ih
      · rcases d with _ | d
        · rw [closedBy_closing hx hread, bracketScan, Prod.mk.injEq]
          simp
        · have hcons : ClosedBy read stop (d + 1) (x :: l) after ↔ ClosedBy read stop d l after :=
            closedBy_cons hx (by simp [hread]; omega) (by simp)
          rw [hcons]
          exact ih

/-- There is at most one bracket that closes. -/
theorem ClosedBy.unique {read : α → Option Bracket} {stop : α → Bool} {d : ℕ} {l after after' : List α}
    (h : ClosedBy read stop d l after) (h' : ClosedBy read stop d l after') : after = after' := by
  have hscan := (bracketScan_eq_zero_iff.mpr h).symm.trans (bracketScan_eq_zero_iff.mpr h')
  exact (Prod.mk.inj hscan).2

/-! ## More brackets -/

/-- No prefix of the list closes more brackets than it opens: the bracket in front is still open. -/
def BracketsOpen (read : α → Option Bracket) (l : List α) : Prop :=
  ∀ p, p <+: l → bracketCount read .closing p ≤ bracketCount read .opening p

/-- The brackets of the reading `extra` leave the list behind an open bracket as it is: as long as that
bracket is open they close none but brackets inside, and in front of the bracket that closes it as many
of them close as open. -/
structure BracketsInside (read extra : α → Option Bracket) (stop : α → Bool) (l : List α) : Prop where
  /-- What they close is open. -/
  inside : ∀ p, p <+: l → (∀ x ∈ p, stop x = false) → BracketsOpen read p →
    bracketCount read .closing p + bracketCount extra .closing p ≤
      bracketCount read .opening p + bracketCount extra .opening p
  /-- In front of the bracket that closes they balance. -/
  balanced : ∀ index close after, l = index ++ close :: after → BracketsWithin read 0 index →
    read close = some .closing → (∀ x ∈ index ++ [close], stop x = false) →
    bracketCount extra .closing index = bracketCount extra .opening index

theorem bracketCount_append (read : α → Option Bracket) (b : Bracket) (l l' : List α) :
    bracketCount read b (l ++ l') = bracketCount read b l + bracketCount read b l' :=
  List.countP_append

/-- A list in a balanced one is open. -/
theorem BracketsWithin.open {read : α → Option Bracket} {l p : List α} (h : BracketsWithin read 0 l)
    (hp : p <+: l) : BracketsOpen read p := fun q hq => by
  have := h.before q (hq.trans hp)
  omega

/-- A list that is not open contains the bracket that closes. -/
theorem exists_of_not_bracketsOpen {read : α → Option Bracket} {l : List α}
    (h : ¬ BracketsOpen read l) : ∃ index close after, l = index ++ close :: after ∧
      BracketsWithin read 0 index ∧ read close = some .closing := by
  induction l using List.reverseRecOn with
  | nil => exact absurd (fun p hp => by rw [List.prefix_nil.mp hp]; rfl) h
  | append_singleton l x ih =>
    by_cases hl : BracketsOpen read l
    · -- The last element is the first that closes too many.
      have hlast : bracketCount read .opening (l ++ [x]) < bracketCount read .closing (l ++ [x]) := by
        by_contra hle
        refine h fun p hp => ?_
        rcases List.prefix_concat_iff.mp hp with rfl | hp
        · exact Nat.le_of_not_lt hle
        · exact hl p hp
      have hbefore := hl l List.prefix_rfl
      rw [bracketCount_append, bracketCount_append, bracketCount_cons, bracketCount_cons] at hlast
      simp only [bracketCount, List.countP_nil, Nat.zero_add] at hlast hbefore
      have hclose : read x = some .closing := by
        by_contra hne
        rw [if_neg hne] at hlast
        omega
      rw [if_pos hclose, hclose, if_neg (by decide)] at hlast
      refine ⟨l, x, [], rfl, ⟨fun p hp => Nat.le_add_right_of_le (hl p hp), ?_⟩, hclose⟩
      simp only [bracketCount]
      omega
    · obtain ⟨index, close, after, rfl, hwithin, hclose⟩ := ih hl
      exact ⟨index, close, after ++ [x], by simp, hwithin, hclose⟩

/-- Up to the bracket that closes, an open list is in front of it. -/
theorem BracketsOpen.prefix_index {read : α → Option Bracket} {p index after : List α} {close : α}
    (h : BracketsOpen read p) (hp : p <+: index ++ close :: after)
    (hwithin : BracketsWithin read 0 index) (hclose : read close = some .closing) : p <+: index := by
  rcases List.prefix_or_prefix_of_prefix hp (List.prefix_append index (close :: after)) with h' | h'
  · exact h'
  · obtain ⟨q, rfl⟩ := h'
    rcases q with _ | ⟨x, q⟩
    · rw [List.append_nil]
    · have hx : x = close := by
        rw [List.prefix_append_right_inj, List.cons_prefix_cons] at hp
        exact hp.1
      have hopen := h (index ++ [x]) (by simp)
      have htotal := hwithin.total
      rw [bracketCount_append, bracketCount_append, bracketCount_cons, bracketCount_cons, hx,
        if_pos hclose, hclose, if_neg (by decide)] at hopen
      simp only [bracketCount, List.countP_nil] at hopen htotal
      omega

section

variable {read extra both : α → Option Bracket} {stop : α → Bool} {l after : List α}

/-- In front of the bracket that closes, the list balances with the further brackets too. -/
theorem BracketsInside.within (h : BracketsInside read extra stop l)
    (hcount : ∀ b p, bracketCount both b p = bracketCount read b p + bracketCount extra b p)
    {index : List α} {close : α} (heq : l = index ++ close :: after)
    (hwithin : BracketsWithin read 0 index) (hclose : read close = some .closing)
    (hstop : ∀ x ∈ index ++ [close], stop x = false) : BracketsWithin both 0 index where
  before p hp := by
    have hinside := h.inside p (heq ▸ hp.trans (List.prefix_append _ _))
      (fun x hx => hstop x (List.mem_append_left _ (hp.subset hx))) (hwithin.open hp)
    rw [hcount, hcount]
    omega
  total := by
    have hbalanced := h.balanced index close after heq hwithin hclose hstop
    have htotal := hwithin.total
    rw [hcount, hcount]
    omega

/-- The same bracket closes in a reading with further brackets, if these stay inside. -/
theorem closedBy_iff (h : BracketsInside read extra stop l)
    (hcount : ∀ b p, bracketCount both b p = bracketCount read b p + bracketCount extra b p)
    (hboth : ∀ x, read x = some .closing → both x = some .closing) :
    ClosedBy both stop 0 l after ↔ ClosedBy read stop 0 l after := by
  have hof : ∀ {after}, ClosedBy read stop 0 l after → ClosedBy both stop 0 l after := by
    rintro after ⟨index, close, heq, hwithin, hclose, hstop⟩
    exact ⟨index, close, heq, h.within hcount heq hwithin hclose hstop, hboth close hclose, hstop⟩
  refine ⟨fun hclosed => ?_, hof⟩
  obtain ⟨index, close, heq, hwithin, hclose, hstop⟩ := hclosed
  have hprefix : index ++ [close] <+: l := ⟨after, by rw [heq]; simp⟩
  by_cases hopen : BracketsOpen read (index ++ [close])
  · -- The bracket that closes in the reading with more brackets would close one outside.
    have hinside := h.inside _ hprefix hstop hopen
    rw [← hcount, ← hcount, bracketCount_append, bracketCount_append, bracketCount_cons,
      bracketCount_cons, if_pos hclose, hclose, if_neg (by decide), hwithin.total] at hinside
    simp only [bracketCount, List.countP_nil] at hinside
    omega
  · obtain ⟨index', close', after', heq', hwithin', hclose'⟩ := exists_of_not_bracketsOpen hopen
    have hstop' : ∀ x ∈ index' ++ [close'], stop x = false := fun x hx => hstop x <| by
      rw [heq']
      rcases List.mem_append.mp hx with hx | hx
      · exact List.mem_append_left _ hx
      · rw [List.mem_singleton.mp hx]
        simp
    have hread : ClosedBy read stop 0 l (after' ++ after) := by
      refine ⟨index', close', ?_, hwithin', hclose', hstop'⟩
      have hl : l = index ++ [close] ++ after := by rw [heq]; simp
      rw [hl, heq']
      simp
    rwa [ClosedBy.unique ⟨index, close, heq, hwithin, hclose, hstop⟩ (hof hread)]

/-- If the same bracket closes in both readings, the further brackets stay inside. -/
theorem bracketsInside_of_closedBy
    (hcount : ∀ b p, bracketCount both b p = bracketCount read b p + bracketCount extra b p)
    (h : ClosedBy read stop 0 l after) (hboth : ClosedBy both stop 0 l after) :
    BracketsInside read extra stop l := by
  obtain ⟨index, close, heq, hwithin, hclose, hstop⟩ := h
  obtain ⟨index', close', heq', hwithin', -, -⟩ := hboth
  have hindex : index' = index := by
    rw [heq] at heq'
    have hlength := congrArg List.length heq'
    simp only [List.length_append, List.length_cons] at hlength
    exact (List.append_inj_left heq' (by omega)).symm
  rw [hindex] at hwithin'
  constructor
  · intro p hp hfree hopen
    have hbefore := hwithin'.before p (hopen.prefix_index (heq ▸ hp) hwithin hclose)
    rw [hcount, hcount] at hbefore
    omega
  · intro index₁ close₁ after₁ heq₁ hwithin₁ hclose₁ hstop₁
    have hafter : after₁ = after :=
      ClosedBy.unique ⟨index₁, close₁, heq₁, hwithin₁, hclose₁, hstop₁⟩
        ⟨index, close, heq, hwithin, hclose, hstop⟩
    have hsame : index₁ = index := by
      rw [heq₁, hafter] at heq
      exact List.append_inj_left heq (by
        have hlength := congrArg List.length heq
        simp only [List.length_append, List.length_cons] at hlength
        omega)
    have htotal := hwithin.total
    have htotal' := hwithin'.total
    rw [hcount, hcount] at htotal'
    rw [hsame]
    omega

end

end Minyar

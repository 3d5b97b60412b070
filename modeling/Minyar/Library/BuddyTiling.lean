import Mathlib.Algebra.BigOperators.Intervals
import Mathlib.Data.Nat.Bitwise
import Mathlib.Tactic.Positivity
import Mathlib.Tactic.Ring

/-!
# Tilings of an interval by aligned blocks

A block map gives every unit at which a block starts the order of the block and a tag; a block
of order `o` has `2 ^ o` units.  The map *tiles* `[0, 2 ^ M)` when its blocks are aligned to
their size, disjoint, and cover the interval.  The two edits of a buddy system, splitting a block
in two halves and merging two buddies, keep a tiling a tiling, the sizes of its blocks always
add up to the interval, and a tiling without two buddies of the same order is a single block.
-/

namespace Minyar

variable {σ : Type*}

/-- The blocks of an interval: the order and the tag of the block starting at a unit. -/
abbrev BlockMap (σ : Type*) := ℕ → Option (ℕ × σ)

/-- The other half of the block of order `o + 1` around the block of order `o` at `u`. -/
def buddy (u o : ℕ) : ℕ := u ^^^ 2 ^ o

/-- The buddy of a block of order `o` at an even position is the block behind it. -/
theorem buddy_of_dvd {u o : ℕ} (h : 2 ^ (o + 1) ∣ u) : buddy u o = u + 2 ^ o := by
  obtain ⟨m, rfl⟩ := h
  have hm : 2 ^ (o + 1) * m = (2 * m) <<< o := by rw [Nat.shiftLeft_eq, pow_succ]; ring
  unfold buddy
  rw [hm, ← Nat.one_shiftLeft o, ← Nat.shiftLeft_xor_distrib,
    Nat.xor_one_of_even (even_two_mul m), Nat.shiftLeft_eq, Nat.shiftLeft_eq, Nat.shiftLeft_eq]
  ring

/-- Taking the buddy twice returns to the block. -/
@[simp] theorem buddy_buddy (u o : ℕ) : buddy (buddy u o) o = u := by
  unfold buddy
  rw [Nat.xor_assoc, Nat.xor_self, Nat.xor_zero]

/-- A block is not its own buddy. -/
theorem buddy_ne (u o : ℕ) : buddy u o ≠ u := by
  intro h
  have hz : u ^^^ 2 ^ o = u ^^^ 0 := by rw [Nat.xor_zero]; exact h
  exact (Nat.two_pow_pos o).ne' (Nat.xor_right_inj.mp hz)

/-- An aligned block is the lower or the upper half of an aligned block of the next order. -/
theorem buddy_cases {u o : ℕ} (h : 2 ^ o ∣ u) :
    (2 ^ (o + 1) ∣ u ∧ buddy u o = u + 2 ^ o) ∨
      (2 ^ (o + 1) ∣ buddy u o ∧ u = buddy u o + 2 ^ o) := by
  obtain ⟨m, rfl⟩ := h
  rcases Nat.even_or_odd' m with ⟨n, rfl | rfl⟩
  · have hd : 2 ^ (o + 1) ∣ 2 ^ o * (2 * n) := ⟨n, by ring⟩
    exact Or.inl ⟨hd, buddy_of_dvd hd⟩
  · have hd : 2 ^ (o + 1) ∣ 2 ^ o * (2 * n) := ⟨n, by ring⟩
    have hb : buddy (2 ^ o * (2 * n)) o = 2 ^ o * (2 * n + 1) := by
      rw [buddy_of_dvd hd]; ring
    rw [← hb, buddy_buddy]
    exact Or.inr ⟨hd, buddy_of_dvd hd⟩

/-- The start of the block of the next order around the block of order `o` at `u`. -/
theorem min_buddy_dvd {u o : ℕ} (h : 2 ^ o ∣ u) : 2 ^ (o + 1) ∣ min u (buddy u o) := by
  rcases buddy_cases h with ⟨hd, hb⟩ | ⟨hd, hb⟩
  · rwa [hb, min_eq_left (Nat.le_add_right _ _)]
  · rwa [min_eq_right (by omega)]

/-- An aligned block that is not the whole interval has its buddy inside the interval. -/
theorem buddy_add_le {u o M : ℕ} (hd : 2 ^ o ∣ u) (hin : u + 2 ^ o ≤ 2 ^ M) (ho : o < M) :
    buddy u o + 2 ^ o ≤ 2 ^ M := by
  rcases buddy_cases hd with ⟨hd', hb⟩ | ⟨hd', hb⟩
  · obtain ⟨n, rfl⟩ := hd'
    obtain ⟨k, rfl⟩ := Nat.exists_eq_add_of_lt ho
    have hpos : 0 < 2 ^ o := by positivity
    have hM : 2 ^ (o + k + 1) = 2 ^ (o + 1) * 2 ^ k := by ring
    have hlt : n < 2 ^ k := by
      rw [hM] at hin
      exact Nat.lt_of_mul_lt_mul_left (show 2 ^ (o + 1) * n < 2 ^ (o + 1) * 2 ^ k by omega)
    have := Nat.mul_le_mul_left (2 ^ (o + 1)) hlt
    rw [hb, hM]
    rw [pow_succ] at this ⊢
    rw [Nat.succ_eq_add_one, Nat.mul_add] at this
    omega
  · omega

namespace BlockMap

variable {T : BlockMap σ} {M u v o p : ℕ} {t r : σ}

/-- The blocks of `T` are aligned to their size, disjoint, and cover `[0, 2 ^ M)`. -/
structure Tiles (T : BlockMap σ) (M : ℕ) : Prop where
  /-- A block of order `o` starts at a multiple of `2 ^ o`. -/
  aligned : ∀ {u o t}, T u = some (o, t) → 2 ^ o ∣ u
  /-- Every block lies inside the interval. -/
  inside : ∀ {u o t}, T u = some (o, t) → u + 2 ^ o ≤ 2 ^ M
  /-- A block ends before the next one starts. -/
  disjoint : ∀ {u o t v p r}, T u = some (o, t) → T v = some (p, r) → u < v → u + 2 ^ o ≤ v
  /-- Every unit of the interval belongs to a block. -/
  cover : ∀ {v}, v < 2 ^ M → ∃ u o t, T u = some (o, t) ∧ u ≤ v ∧ v < u + 2 ^ o

/-- The tiling by one block. -/
def single (M : ℕ) (t : σ) : BlockMap σ := Function.update (fun _ => none) 0 (some (M, t))

/-- The block of order `o + 1` at `u` split in halves, tagged `t` and `r`. -/
def split (T : BlockMap σ) (u o : ℕ) (t r : σ) : BlockMap σ :=
  Function.update (Function.update T (u + 2 ^ o) (some (o, r))) u (some (o, t))

/-- The blocks of order `o` at `u` and behind it merged into one, tagged `t`. -/
def merge (T : BlockMap σ) (u o : ℕ) (t : σ) : BlockMap σ :=
  Function.update (Function.update T (u + 2 ^ o) none) u (some (o + 1, t))

/-- The number of units of the blocks whose tag satisfies `f`. -/
def units (f : σ → Bool) : Option (ℕ × σ) → ℕ
  | some (o, t) => if f t then 2 ^ o else 0
  | none => 0

/-- The number of units below `2 ^ M` in blocks whose tag satisfies `f`. -/
def total (T : BlockMap σ) (M : ℕ) (f : σ → Bool) : ℕ := ∑ u ∈ Finset.range (2 ^ M), units f (T u)

theorem single_tiles (M : ℕ) (t : σ) : (single M t).Tiles M := by
  have hone : ∀ {u o s}, single M t u = some (o, s) → u = 0 ∧ o = M := by
    intro u o s h
    unfold single at h
    rw [Function.update_apply] at h
    split at h <;> simp_all
  refine ⟨?_, ?_, ?_, ?_⟩
  · intro u o s h
    rw [(hone h).1]
    exact dvd_zero _
  · intro u o s h
    rw [(hone h).1, (hone h).2, zero_add]
  · intro u o s v p q hu hv huv
    have := (hone hu).1
    have := (hone hv).1
    omega
  · exact fun {v} hv => ⟨0, M, t, Function.update_self _ _ _, Nat.zero_le v, by omega⟩

namespace Tiles

/-- Two blocks with a common unit are the same block. -/
theorem eq_of_common (h : T.Tiles M) {w : ℕ} (hu : T u = some (o, t)) (hv : T v = some (p, r))
    (huw : u ≤ w ∧ w < u + 2 ^ o) (hvw : v ≤ w ∧ w < v + 2 ^ p) : u = v := by
  rcases lt_trichotomy u v with hlt | heq | hlt
  · have := h.disjoint hu hv hlt
    omega
  · exact heq
  · have := h.disjoint hv hu hlt
    omega

/-- No block starts inside another one. -/
theorem none_of_interior (h : T.Tiles M) (hu : T u = some (o, t)) (huv : u < v)
    (hv : v < u + 2 ^ o) : T v = none := by
  rcases hT : T v with _ | ⟨p, r⟩
  · rfl
  · have := h.disjoint hu hT huv
    omega

/-- A block is no larger than the interval. -/
theorem order_le (h : T.Tiles M) (hu : T u = some (o, t)) : o ≤ M := by
  have := h.inside hu
  exact (Nat.pow_le_pow_iff_right one_lt_two).mp (show 2 ^ o ≤ 2 ^ M by omega)

/-- Every block starts in the interval. -/
theorem lt (h : T.Tiles M) (hu : T u = some (o, t)) : u < 2 ^ M := by
  have := h.inside hu
  have : 0 < 2 ^ o := by positivity
  omega

/-- No block starts behind the interval. -/
theorem none_of_le (h : T.Tiles M) (hu : 2 ^ M ≤ u) : T u = none := by
  rcases hT : T u with _ | ⟨o, t⟩
  · rfl
  · have := h.lt hT
    omega

/-- Tags play no part in a tiling. -/
theorem congr (h : T.Tiles M) {T' : BlockMap σ}
    (hT : ∀ u, (T' u).map Prod.fst = (T u).map Prod.fst) : T'.Tiles M := by
  have hold : ∀ {u o t}, T' u = some (o, t) → ∃ r, T u = some (o, r) := by
    intro u o t hu
    have := hT u
    rw [hu] at this
    obtain ⟨⟨p, r⟩, hp, rfl⟩ := Option.map_eq_some_iff.mp this.symm
    exact ⟨r, hp⟩
  refine ⟨?_, ?_, ?_, ?_⟩
  · intro u o t hu
    obtain ⟨r, hr⟩ := hold hu
    exact h.aligned hr
  · intro u o t hu
    obtain ⟨r, hr⟩ := hold hu
    exact h.inside hr
  · intro u o t v p r hu hv
    obtain ⟨t', ht⟩ := hold hu
    obtain ⟨r', hr⟩ := hold hv
    exact h.disjoint ht hr
  · intro v hv
    obtain ⟨u, o, t, hu, hle⟩ := h.cover hv
    have := hT u
    rw [hu] at this
    obtain ⟨⟨p, r⟩, hp, rfl⟩ := Option.map_eq_some_iff.mp this
    exact ⟨u, p, r, hp, hle⟩

/-- Changing the tag of a block keeps the tiling. -/
theorem retag (h : T.Tiles M) (hu : T u = some (o, t)) (r : σ) :
    Tiles (Function.update T u (some (o, r))) M := by
  refine h.congr fun v => ?_
  rw [Function.update_apply]
  split
  · rename_i hv
    rw [hv, hu]
    rfl
  · rfl

/-- Merging the two halves of an aligned block keeps the tiling. -/
theorem merge (h : T.Tiles M) (hd : 2 ^ (o + 1) ∣ u) (hu : T u = some (o, t))
    (hv : T (u + 2 ^ o) = some (o, r)) (q : σ) : (T.merge u o q).Tiles M := by
  have hpow : 2 ^ (o + 1) = 2 ^ o + 2 ^ o := by rw [pow_succ]; omega
  have hpos : 0 < 2 ^ o := by positivity
  have hcases : ∀ {v p s}, T.merge u o q v = some (p, s) →
      (v = u ∧ p = o + 1) ∨ (v ≠ u ∧ v ≠ u + 2 ^ o ∧ T v = some (p, s)) := by
    intro v p s hT
    unfold BlockMap.merge at hT
    rw [Function.update_apply, Function.update_apply] at hT
    split at hT
    · simp_all
    · split at hT <;> simp_all
  refine ⟨?_, ?_, ?_, ?_⟩
  · intro v p s hT
    rcases hcases hT with ⟨rfl, rfl⟩ | ⟨-, -, hT⟩
    · exact hd
    · exact h.aligned hT
  · intro v p s hT
    rcases hcases hT with ⟨rfl, rfl⟩ | ⟨-, -, hT⟩
    · have := h.inside hv
      omega
    · exact h.inside hT
  · intro v p s w p' s' hT hT' hlt
    rcases hcases hT with ⟨rfl, rfl⟩ | ⟨-, -, hold⟩ <;>
      rcases hcases hT' with ⟨rfl, rfl⟩ | ⟨-, hne, hold'⟩
    · omega
    · have := h.disjoint hu hold' hlt
      have := h.disjoint hv hold' (by omega)
      omega
    · exact h.disjoint hold hu hlt
    · exact h.disjoint hold hold' hlt
  · intro v hlt
    obtain ⟨w, p, s, hw, hle, hvlt⟩ := h.cover hlt
    have hself : T.merge u o q u = some (o + 1, q) := Function.update_self _ _ _
    by_cases h₁ : w = u
    · subst h₁
      have : p = o := by simp_all
      subst this
      exact ⟨w, p + 1, q, hself, hle, by omega⟩
    by_cases h₂ : w = u + 2 ^ o
    · subst h₂
      have : p = o := by simp_all
      subst this
      exact ⟨u, p + 1, q, hself, by omega, by omega⟩
    · refine ⟨w, p, s, ?_, hle, hvlt⟩
      unfold BlockMap.merge
      rw [Function.update_of_ne h₁, Function.update_of_ne h₂, hw]

/-- Splitting a block in halves keeps the tiling. -/
theorem split (h : T.Tiles M) (hu : T u = some (o + 1, t)) (q r : σ) :
    (T.split u o q r).Tiles M := by
  have hpow : 2 ^ (o + 1) = 2 ^ o + 2 ^ o := by rw [pow_succ]; omega
  have hpos : 0 < 2 ^ o := by positivity
  have hd : 2 ^ o ∣ u := (pow_dvd_pow 2 (Nat.le_succ o)).trans (h.aligned hu)
  have hin := h.inside hu
  have hupper : T.split u o q r (u + 2 ^ o) = some (o, r) := by
    unfold BlockMap.split
    rw [Function.update_of_ne (by omega), Function.update_self]
  have hcases : ∀ {v p s}, T.split u o q r v = some (p, s) →
      (v = u ∧ p = o) ∨ (v = u + 2 ^ o ∧ p = o) ∨
        (T v = some (p, s) ∧ (v < u → v + 2 ^ p ≤ u) ∧ (u < v → u + 2 ^ (o + 1) ≤ v) ∧ v ≠ u) := by
    intro v p s hT
    unfold BlockMap.split at hT
    rw [Function.update_apply, Function.update_apply] at hT
    split at hT
    · simp_all
    · split at hT
      · simp_all
      · exact Or.inr (Or.inr ⟨hT, fun hlt => h.disjoint hT hu hlt,
          fun hlt => h.disjoint hu hT hlt, by assumption⟩)
  refine ⟨?_, ?_, ?_, ?_⟩
  · intro v p s hT
    rcases hcases hT with ⟨rfl, rfl⟩ | ⟨rfl, rfl⟩ | ⟨hT, -⟩
    · exact hd
    · exact (Nat.dvd_add_right hd).mpr dvd_rfl
    · exact h.aligned hT
  · intro v p s hT
    rcases hcases hT with ⟨rfl, rfl⟩ | ⟨rfl, rfl⟩ | ⟨hT, -⟩
    · omega
    · omega
    · exact h.inside hT
  · intro v p s w p' s' hT hT' hlt
    rcases hcases hT with ⟨rfl, rfl⟩ | ⟨rfl, rfl⟩ | ⟨hT, hb, ha, hne⟩ <;>
      rcases hcases hT' with ⟨rfl, rfl⟩ | ⟨rfl, rfl⟩ | ⟨hT', hb', ha', hne'⟩
    case inr.inr.inr.inr => exact h.disjoint hT hT' hlt
    all_goals omega
  · intro v hlt
    obtain ⟨w, p, s, hw, hle, hvlt⟩ := h.cover hlt
    by_cases h₁ : w = u
    · subst h₁
      have : p = o + 1 := by simp_all
      subst this
      by_cases hlow : v < w + 2 ^ o
      · exact ⟨w, o, q, Function.update_self _ _ _, hle, hlow⟩
      · exact ⟨w + 2 ^ o, o, r, hupper, by omega, by omega⟩
    · have h₂ : w ≠ u + 2 ^ o := by
        rintro rfl
        have := h.none_of_interior hu (show u < u + 2 ^ o by omega) (by omega)
        simp_all
      refine ⟨w, p, s, ?_, hle, hvlt⟩
      unfold BlockMap.split
      rw [Function.update_of_ne h₁, Function.update_of_ne h₂, hw]

/-- A tiling without two buddies of the same order is a single block. -/
theorem eq_single (h : T.Tiles M)
    (hno : ∀ {u o t r}, T u = some (o, t) → o < M → T (buddy u o) ≠ some (o, r)) :
    ∃ t, T 0 = some (M, t) := by
  classical
  -- A block of the smallest order has a buddy of its own order, unless it is the whole interval.
  have hex : ∃ o, ∃ u t, T u = some (o, t) := by
    obtain ⟨u, o, t, hu, -⟩ := h.cover (show 0 < 2 ^ M by positivity)
    exact ⟨o, u, t, hu⟩
  obtain ⟨u, t, hu⟩ := Nat.find_spec hex
  have hmin : ∀ {v p r}, T v = some (p, r) → Nat.find hex ≤ p :=
    fun {v p r} hv => Nat.find_min' hex ⟨v, r, hv⟩
  generalize Nat.find hex = o at hu hmin
  have hin := h.inside hu
  rcases (h.order_le hu).eq_or_lt with rfl | ho
  · have : u = 0 := by omega
    exact ⟨t, this ▸ hu⟩
  · have hpos : 0 < 2 ^ o := by positivity
    have hd := h.aligned hu
    have hb := buddy_add_le hd hin ho
    obtain ⟨v, p, r, hv, hle, hlt⟩ := h.cover (show buddy u o < 2 ^ M by omega)
    rcases (hmin hv).eq_or_lt with rfl | hop
    · have hdb : 2 ^ o ∣ buddy u o := by
        rcases buddy_cases hd with ⟨-, hbu⟩ | ⟨hbu, -⟩
        · rw [hbu]
          exact (Nat.dvd_add_right hd).mpr dvd_rfl
        · exact (pow_dvd_pow 2 (Nat.le_succ o)).trans hbu
      obtain rfl : v = buddy u o :=
        le_antisymm hle (Nat.le_of_lt_add_of_dvd hlt hdb (h.aligned hv))
      exact absurd hv (hno hu ho)
    · have hdv : 2 ^ (o + 1) ∣ v := (pow_dvd_pow 2 (Nat.succ_le_of_lt hop)).trans (h.aligned hv)
      have hdp : 2 ^ (o + 1) ∣ v + 2 ^ p :=
        (Nat.dvd_add_right hdv).mpr (pow_dvd_pow 2 (Nat.succ_le_of_lt hop))
      have hdm := min_buddy_dvd hd
      have hpow : 2 ^ (o + 1) = 2 ^ o + 2 ^ o := by rw [pow_succ]; omega
      have hsides : u = min u (buddy u o) ∨ u = min u (buddy u o) + 2 ^ o := by
        rcases buddy_cases hd with ⟨-, hb'⟩ | ⟨-, hb'⟩ <;> omega
      have hlow : v ≤ min u (buddy u o) :=
        Nat.le_of_lt_add_of_dvd (by rcases buddy_cases hd with ⟨-, hb'⟩ | ⟨-, hb'⟩ <;> omega) hdv hdm
      have hhigh : min u (buddy u o) + 2 ^ (o + 1) ≤ v + 2 ^ p := by
        by_contra hcon
        have := Nat.le_of_lt_add_of_dvd (lt_of_not_ge hcon) hdp hdm
        omega
      obtain rfl := h.eq_of_common hu hv ⟨le_rfl, by omega⟩ ⟨by omega, by omega⟩
      simp_all

/-- The blocks fill the interval: their sizes add up to its length. -/
theorem total_eq (h : T.Tiles M) : T.total M (fun _ => true) = 2 ^ M := by
  classical
  have hstart : ∀ v : ℕ, ∃ u, v < 2 ^ M → ∃ o t, T u = some (o, t) ∧ u ≤ v ∧ v < u + 2 ^ o := by
    intro v
    by_cases hv : v < 2 ^ M
    · obtain ⟨u, hu⟩ := h.cover hv
      exact ⟨u, fun _ => hu⟩
    · exact ⟨0, fun hv' => absurd hv' hv⟩
  choose start hspec using hstart
  have hmaps : ∀ v ∈ Finset.range (2 ^ M), start v ∈ Finset.range (2 ^ M) := by
    intro v hv
    obtain ⟨o, t, hu, -⟩ := hspec v (Finset.mem_range.mp hv)
    exact Finset.mem_range.mpr (h.lt hu)
  have hcard := Finset.card_eq_sum_card_fiberwise hmaps
  rw [Finset.card_range] at hcard
  rw [hcard]
  refine Finset.sum_congr rfl fun u hu => ?_
  rcases hT : T u with _ | ⟨o, t⟩
  · symm
    rw [units, Finset.card_eq_zero, Finset.filter_eq_empty_iff]
    rintro v hv rfl
    obtain ⟨o, t, hsome, -⟩ := hspec v (Finset.mem_range.mp hv)
    rw [hT] at hsome
    cases hsome
  · have hin := h.inside hT
    have hfiber : {v ∈ Finset.range (2 ^ M) | start v = u} = Finset.Ico u (u + 2 ^ o) := by
      ext v
      simp only [Finset.mem_filter, Finset.mem_range, Finset.mem_Ico]
      constructor
      · rintro ⟨hv, rfl⟩
        obtain ⟨p, r, hsome, hle⟩ := hspec v hv
        rw [hT, Option.some.injEq, Prod.mk.injEq] at hsome
        rwa [hsome.1]
      · rintro ⟨hle, hlt⟩
        have hv : v < 2 ^ M := by omega
        obtain ⟨p, r, hsome, hle'⟩ := hspec v hv
        exact ⟨hv, h.eq_of_common hsome hT hle' ⟨hle, hlt⟩⟩
    rw [hfiber, Nat.card_Ico, Nat.add_sub_cancel_left]
    rfl

/-- No tag fills more than the interval. -/
theorem total_le (h : T.Tiles M) (f : σ → Bool) : T.total M f ≤ 2 ^ M := by
  rw [← h.total_eq]
  refine Finset.sum_le_sum fun u _ => ?_
  unfold units
  split
  · split <;> simp
  · exact le_rfl

end Tiles

/-- Replacing one entry replaces its units in the total. -/
theorem total_update (T : BlockMap σ) (hu : u < 2 ^ M) (x : Option (ℕ × σ)) (f : σ → Bool) :
    total (Function.update T u x) M f + units f (T u) = total T M f + units f x := by
  have hmem := Finset.mem_range.mpr hu
  unfold total
  rw [← Finset.add_sum_erase _ _ hmem, ← Finset.add_sum_erase _ (fun v => units f (T v)) hmem,
    Function.update_self]
  have hrest : ∑ v ∈ (Finset.range (2 ^ M)).erase u, units f (Function.update T u x v) =
      ∑ v ∈ (Finset.range (2 ^ M)).erase u, units f (T v) :=
    Finset.sum_congr rfl fun v hv => by rw [Function.update_of_ne (Finset.ne_of_mem_erase hv)]
  rw [hrest]
  omega

/-- Entries that count nothing are exchanged freely. -/
theorem total_update_of_units (hu : u < 2 ^ M) {x : Option (ℕ × σ)} {f : σ → Bool}
    (hx : units f x = units f (T u)) : total (Function.update T u x) M f = total T M f := by
  have := T.total_update hu x f
  omega

end BlockMap

end Minyar

import Minyar.Pool.Frame

/-!
# What a resize preserves

A resize returns a block that is large enough and starts with the preserved bytes, and leaves the
contents of all other blocks alone.  The block stays where it is when it shrinks and when the upper
buddies that it needs are free.  The program is stopped exactly when the pool is smaller than the
new size or a block that has to move finds no place.
-/

namespace Minyar

open BlockMap

variable {cfg : PoolConfig} {s s' : Pool} {T T' : BlockMap BlockTag} {u v k n o w c a : ℕ}

/-! ## Resizing in place -/

/-- The upper buddies that the block at the pointer needs for a size are free: it is aligned to the
least order that fits, and above it lie free blocks of all orders from its own up to that one. -/
def UpperBuddiesFree (cfg : PoolConfig) (s : Pool) (pointer size : ℕ) : Prop :=
  ∃ order wanted, poolBlockSize order = poolCapacity cfg s pointer ∧
    IsLeast (fittingOrders size) wanted ∧ poolBlockSize wanted ∣ poolOffset cfg pointer ∧
    ∀ j, order ≤ j → j < wanted →
      s.map (poolMapIndex cfg (pointer + poolBlockSize j)) = freeByte j

/-- The block at the pointer can be resized where it is. -/
def ResizesInPlace (cfg : PoolConfig) (s : Pool) (pointer size : ℕ) : Prop :=
  size ≤ poolCapacity cfg s pointer ∨ UpperBuddiesFree cfg s pointer size

/-- Larger orders fit as well. -/
theorem fittingOrders_mono {size p q : ℕ} (hp : p ∈ fittingOrders size) (hpq : p ≤ q) :
    q ∈ fittingOrders size := by
  refine le_trans (show max size poolMinimum ≤ poolBlockSize p from hp) ?_
  rw [poolBlockSize_eq, poolBlockSize_eq]
  exact Nat.mul_le_mul_left _ (Nat.pow_le_pow_right two_pos hpq)

/-- The least order that fits is at most the order of a block that is large enough. -/
theorem least_le_iff {size : ℕ} (ho : IsLeast (fittingOrders size) o) :
    o ≤ k ↔ size ≤ poolBlockSize k := by
  constructor
  · intro hok
    exact (le_max_left _ _).trans (fittingOrders_mono ho.1 hok)
  · intro hsize
    refine ho.2 (max_le hsize ?_)
    rw [poolBlockSize_eq]
    exact Nat.le_mul_of_pos_right _ (Nat.two_pow_pos k)

/-- Block sizes determine the orders. -/
theorem poolBlockSize_injective : Function.Injective poolBlockSize := by
  intro p q h
  rw [poolBlockSize_eq, poolBlockSize_eq] at h
  exact Nat.pow_right_injective le_rfl (Nat.eq_of_mul_eq_mul_left (by decide) h)

/-- The alignment test. -/
theorem and_eq_zero_iff : (poolMinimum * u) &&& (poolMinimum * 2 ^ o - 1) = 0 ↔
    poolBlockSize o ∣ poolMinimum * u := by
  have hpow : poolMinimum * 2 ^ o = 2 ^ (o + 5) := by rw [poolMinimum_eq, pow_add]; ring
  rw [poolBlockSize_eq, hpow, Nat.and_two_pow_sub_one_eq_mod]
  exact (Nat.dvd_iff_mod_eq_zero).symm

/-- The scan for upper buddies. -/
theorem poolUpperFree_iff (offset : ℕ) : poolUpperFree s offset n k = true ↔
    ∀ j, k ≤ j → j < k + n → s.map ((offset + poolBlockSize j) / poolMinimum) = j + 1 := by
  induction n generalizing k with
  | zero => exact iff_of_true rfl fun j hle hlt => absurd hlt (by omega)
  | succ n ih =>
    rw [poolUpperFree, Bool.and_eq_true, decide_eq_true_eq, ih]
    constructor
    · rintro ⟨hfirst, hrest⟩ j hle hlt
      rcases hle.eq_or_lt with rfl | hgt
      · exact hfirst
      · exact hrest j hgt (by omega)
    · intro hall
      exact ⟨hall k le_rfl (by omega), fun j hle hlt => hall j (by omega) (by omega)⟩

namespace PoolInv

/-- The plan of a resize to a size of the pool. -/
theorem planResize_ok (h : PoolInv cfg s T) (hu : T u = some (k, .allocated)) {size : ℕ}
    (hsize : size ≤ cfg.bytes) (ho : IsLeast (fittingOrders size) o) :
    poolPlanResize cfg s (unitAddress cfg u) size = .ok (resizePlan u k o) := by
  obtain ⟨o', hfit, -, -⟩ := h.shape.poolFit hsize
  have hleast := h.shape.poolFit_isLeast hsize
  rw [hfit] at hleast
  obtain rfl : o' = o := hleast.unique ho
  unfold poolPlanResize
  rw [h.allocatedOrder hu]
  simp only [not_lt.mpr hsize, if_false, hfit, Bind.bind, Except.bind, poolBlockSize_eq,
    poolOffset_unitAddress]
  rfl

/-- A size that exceeds the pool stops the program. -/
theorem planResize_error (h : PoolInv cfg s T) (hu : T u = some (k, .allocated)) {size : ℕ}
    (hsize : size > cfg.bytes) :
    ∃ text, poolPlanResize cfg s (unitAddress cfg u) size = .error text := by
  unfold poolPlanResize
  rw [h.allocatedOrder hu]
  simp only [hsize, if_true, Bind.bind, Except.bind]
  exact ⟨_, rfl⟩

/-- The block is resized where it is exactly when it can be. -/
theorem resizesInPlace_iff (h : PoolInv cfg s T) (hu : T u = some (k, .allocated)) {size : ℕ}
    (hsize : size ≤ cfg.bytes) (ho : IsLeast (fittingOrders size) o) :
    ResizesInPlace cfg s (unitAddress cfg u) size ↔
      (poolTryResizeSameBase cfg s (unitAddress cfg u) (resizePlan u k o)).1 ≠ 0 := by
  have hcapacity := h.poolCapacity hu
  have hne := unitAddress_ne_zero cfg u
  have hbound : o ≤ 57 := by
    obtain ⟨o', hfit, -, hle⟩ := h.shape.poolFit hsize
    have hleast := h.shape.poolFit_isLeast hsize
    rw [hfit] at hleast
    have := hleast.unique ho
    have := h.shape.maxOrder_le
    omega
  unfold ResizesInPlace
  rw [hcapacity, ← least_le_iff ho]
  unfold poolTryResizeSameBase resizePlan
  simp only
  by_cases hshrink : o ≤ k
  · rw [if_pos hshrink]
    exact iff_of_true (Or.inl hshrink) hne
  rw [if_neg hshrink]
  obtain ⟨n, rfl⟩ := Nat.exists_eq_add_of_le (not_le.mp hshrink).le
  rw [Nat.add_sub_cancel_left]
  -- The map says the same in the terms of the source and of the statement.
  have hmap : ∀ j < k + n, (s.map ((poolMinimum * u + poolBlockSize j) / poolMinimum) = j + 1 ↔
      s.map (poolMapIndex cfg (unitAddress cfg u + poolBlockSize j)) = freeByte j) := by
    intro j hj
    have hbyte : freeByte j = j + 1 := Nat.mod_eq_of_lt (by omega)
    rw [← unitAddress_add, poolMapIndex_unitAddress, poolBlockSize_eq, ← Nat.mul_add,
      mul_div_poolMinimum, hbyte]
  split_ifs with hgrow
  · rw [and_eq_zero_iff, poolUpperFree_iff] at hgrow
    refine iff_of_true (Or.inr ⟨k, k + n, hcapacity.symm, ho, ?_, fun j hle hlt => ?_⟩) hne
    · rw [poolOffset_unitAddress]
      exact hgrow.1
    · exact (hmap j hlt).mp (hgrow.2 j hle hlt)
  · rw [and_eq_zero_iff, poolUpperFree_iff] at hgrow
    refine iff_of_false ?_ fun hzero => hzero rfl
    rintro (hle | ⟨order, wanted, horder, hwanted, hdvd, hall⟩)
    · exact hshrink hle
    · obtain rfl : order = k := poolBlockSize_injective (horder.trans hcapacity)
      obtain rfl : wanted = order + n := hwanted.unique ho
      rw [poolOffset_unitAddress] at hdvd
      exact hgrow ⟨hdvd, fun j hle hlt => (hmap j hlt).mpr (hall j hle hlt)⟩

/-- What a resize does: the block is resized where it is, or it is moved. -/
theorem resize_cases (h : PoolInv cfg s T) (hu : T u = some (k, .allocated)) (oldSize : ℕ)
    {size : ℕ} (hsize : size ≤ cfg.bytes) (ho : IsLeast (fittingOrders size) o) :
    (ResizesInPlace cfg s (unitAddress cfg u) size ∧ ∃ s' T',
        minyarPoolResize cfg s (unitAddress cfg u) oldSize size = .ok (unitAddress cfg u, s') ∧
        poolTryResizeSameBase cfg s (unitAddress cfg u) (resizePlan u k o) =
          (unitAddress cfg u, s') ∧ PoolInv cfg s' T' ∧ Replaced T T' u u o) ∨
      (¬ ResizesInPlace cfg s (unitAddress cfg u) size ∧
        minyarPoolResize cfg s (unitAddress cfg u) oldSize size =
          poolMove cfg s (unitAddress cfg u) (min oldSize size) size) := by
  rw [h.resizesInPlace_iff hu hsize ho]
  have hmin : (if oldSize < size then oldSize else size) = min oldSize size := by
    split_ifs <;> omega
  unfold minyarPoolResize
  rw [if_neg (unitAddress_ne_zero cfg u), h.planResize_ok hu hsize ho, hmin]
  simp only [Bind.bind, Except.bind]
  rcases h.tryResizeSameBase hu o with hsame | ⟨s', T', hsame, hinv, hrep⟩
  · rw [hsame]
    exact Or.inr ⟨not_not_intro rfl, if_neg (not_not_intro rfl)⟩
  · rw [hsame]
    exact Or.inl ⟨unitAddress_ne_zero cfg u, s', T', if_pos (unitAddress_ne_zero cfg u), rfl,
      hinv, hrep⟩

end PoolInv

/-! ## Failed scans -/

/-- A resize in place that fails changes nothing. -/
theorem poolTryResizeSameBase_failed {pointer : ℕ} {plan : PoolResizePlan} (hpointer : pointer ≠ 0)
    (hfailed : (poolTryResizeSameBase cfg s pointer plan).1 = 0) :
    (poolTryResizeSameBase cfg s pointer plan).2 = s := by
  unfold poolTryResizeSameBase at *
  by_cases hshrink : plan.wanted ≤ plan.order
  · rw [if_pos hshrink] at hfailed
    exact absurd hfailed hpointer
  rw [if_neg hshrink] at *
  split_ifs at * with hgrow
  · exact absurd hfailed hpointer
  · rfl

/-- Growing through buddies on either side changes nothing when it fails. -/
theorem minyarPoolTryGrowLower_failed {offset order wanted capacity target : ℕ}
    (hfailed : (minyarPoolTryGrowLower cfg s offset order wanted capacity target).1 = 0) :
    (minyarPoolTryGrowLower cfg s offset order wanted capacity target).2 = s := by
  unfold minyarPoolTryGrowLower at *
  split_ifs at * with hgrow
  · have hbase := cfg.base_pos
    have hzero : cfg.base + (poolRemovePath cfg (wanted - order) offset order s).2 = 0 := hfailed
    omega
  · rfl

/-! ## The resize -/

/-- What a resize of the block at the pointer returns. -/
structure PoolResizes (cfg : PoolConfig) (s : Pool) (live : Set ℕ) (pointer oldSize size : ℕ)
    (result : ℕ × Pool) : Prop where
  /-- The block is large enough. -/
  capacity : size ≤ poolCapacity cfg result.2 result.1
  /-- It starts with the preserved bytes; what the old block did not have is not preserved. -/
  preserved : ∀ i < min oldSize size, i < poolCapacity cfg s pointer →
    result.2.bytes (result.1 + i) = s.bytes (pointer + i)
  /-- The other blocks keep their sizes and their contents. -/
  others : ∀ other ∈ live, other ≠ pointer →
    poolCapacity cfg result.2 other = poolCapacity cfg s other ∧
      ∀ i < poolCapacity cfg s other, result.2.bytes (other + i) = s.bytes (other + i)
  /-- A block that can be resized where it is stays there. -/
  stays : ResizesInPlace cfg s pointer size → result.1 = pointer

namespace PoolInv

/-- A byte of an allocated block. -/
theorem not_outsideBlock {i : ℕ} (hi : i < poolBlockSize o) :
    ¬ OutsideBlock cfg u o (unitAddress cfg u + i) := by
  unfold OutsideBlock
  omega

/-- The other blocks keep their sizes. -/
theorem replaced_capacity {u' p : ℕ} (h : PoolInv cfg s T) (h' : PoolInv cfg s' T')
    (hrep : Replaced T T' u u' o) (hv : T v = some (p, .allocated)) (hne : v ≠ u) :
    Minyar.poolCapacity cfg s' (unitAddress cfg v) =
      Minyar.poolCapacity cfg s (unitAddress cfg v) := by
  rw [h.poolCapacity hv, h'.poolCapacity ((hrep v p).mpr (Or.inr ⟨hne, hv⟩))]

/-- A resize keeps its promises. -/
theorem resize_resizes (h : PoolInv cfg s T) (hu : T u = some (k, .allocated)) (oldSize : ℕ)
    {size : ℕ} (hsize : size ≤ cfg.bytes) {result : ℕ × Pool}
    (hs : minyarPoolResize cfg s (unitAddress cfg u) oldSize size = .ok result) :
    PoolResizes cfg s (allocatedPointers cfg T) (unitAddress cfg u) oldSize size result := by
  obtain ⟨o, ho⟩ : ∃ o, IsLeast (fittingOrders size) o := ⟨_, h.shape.poolFit_isLeast hsize⟩
  have hfits : size ≤ poolBlockSize o := (least_le_iff ho).mp le_rfl
  have hcapacity := h.poolCapacity hu
  rcases h.resize_cases hu oldSize hsize ho with
    ⟨hplace, s', T', heq, hsame, hinv, hrep⟩ | ⟨hplace, heq⟩
  · rw [heq] at hs
    cases hs
    have hbytes : ∀ {a}, OutsideFree cfg s a → (a < unitAddress cfg u + poolBlockSize o ∨
        unitAddress cfg u + poolBlockSize k ≤ a) → s'.bytes a = s.bytes a :=
      fun ha hpart => h.tryResizeSameBase_bytes hu o hsame ha hpart
    refine ⟨?_, fun i hi hik => ?_, ?_, fun _ => rfl⟩
    · rw [hinv.poolCapacity ((hrep u o).mpr (Or.inl ⟨rfl, rfl⟩))]
      exact hfits
    · rw [hcapacity] at hik
      exact hbytes (h.outsideFree hu (not_outsideBlock hik)) (Or.inl (by omega))
    · rintro other ⟨v, p, hv, rfl⟩ hother
      have hne : v ≠ u := fun heq => hother (heq ▸ rfl)
      refine ⟨h.replaced_capacity hinv hrep hv hne, fun i hi => ?_⟩
      rw [h.poolCapacity hv] at hi
      have houtside := h.outsideBlock hv hu hne (not_outsideBlock hi)
      unfold OutsideBlock at houtside
      exact hbytes (h.outsideFree hv (not_outsideBlock hi)) (by omega)
  · rw [heq] at hs
    obtain ⟨p, s'⟩ := result
    have hpreserved : min oldSize size ≤ size := min_le_right _ _
    obtain ⟨hcopied, hkept⟩ := h.move_bytes hu hpreserved hs
    rcases h.move hu hpreserved with ⟨-, text, herror⟩ | ⟨s'', u', o', T', hok, hinv, hrep, -, hlarge⟩
    · rw [herror] at hs
      cases hs
    rw [hok] at hs
    cases hs
    refine ⟨?_, fun i hi hik => ?_, ?_, fun hplace' => absurd hplace' hplace⟩
    · rw [hinv.poolCapacity ((hrep u' o').mpr (Or.inl ⟨rfl, rfl⟩)), poolBlockSize_eq]
      exact hlarge
    · rw [hcapacity] at hik
      exact hcopied i hi hik
    · rintro other ⟨v, q, hv, rfl⟩ hother
      have hne : v ≠ u := fun heq => hother (heq ▸ rfl)
      refine ⟨h.replaced_capacity hinv hrep hv hne, fun i hi => ?_⟩
      rw [h.poolCapacity hv] at hi
      exact hkept _ (h.outsideFree hv (not_outsideBlock hi))
        (h.outsideBlock hv hu hne (not_outsideBlock hi))

/-- A resize stops exactly when the size exceeds the pool or a block that has to move finds no
place. -/
theorem resize_stops_iff (h : PoolInv cfg s T) (hu : T u = some (k, .allocated))
    (oldSize size : ℕ) :
    (∃ text, minyarPoolResize cfg s (unitAddress cfg u) oldSize size = .error text) ↔
      size > cfg.bytes ∨ (¬ ResizesInPlace cfg s (unitAddress cfg u) size ∧
        (minyarPoolTryAllocate cfg s size).1 = 0) := by
  by_cases hsize : size > cfg.bytes
  · obtain ⟨text, htext⟩ := h.planResize_error hu hsize
    refine iff_of_true ⟨text, ?_⟩ (Or.inl hsize)
    unfold minyarPoolResize
    rw [if_neg (unitAddress_ne_zero cfg u), htext]
    rfl
  have hle := not_lt.mp hsize
  rcases h.resize_cases hu oldSize hle (h.shape.poolFit_isLeast hle) with
    ⟨hplace, s', T', heq, -⟩ | ⟨hplace, heq⟩
  · rw [heq]
    refine iff_of_false (fun ⟨_, herror⟩ => by cases herror) ?_
    exact not_or.mpr ⟨hsize, fun hboth => hboth.1 hplace⟩
  · rw [heq]
    rcases h.move hu (min_le_right oldSize size) with
      ⟨hzero, text, herror⟩ | ⟨s'', u', o', T', hok, -⟩
    · exact iff_of_true ⟨text, herror⟩ (Or.inr ⟨hplace, hzero⟩)
    · refine iff_of_false ?_ ?_
      · rintro ⟨text, herror⟩
        rw [hok] at herror
        cases herror
      · refine not_or.mpr ⟨hsize, fun hboth => ?_⟩
        -- A move whose allocation fails does not return.
        unfold poolMove minyarPoolAllocate at hok
        simp only [if_pos hboth.2] at hok
        cases hok

end PoolInv

/-- In every reachable pool the resize of a live block either stops, exactly when the size exceeds
the pool or the block has to move and finds no place, or keeps its promises; scans that fail change
nothing. -/
theorem minyarPoolResize_spec (cfg : PoolConfig) (s : Pool) (live : Set ℕ)
    (h : PoolReachable cfg s live) :
    (∀ pointer ∈ live, ∀ oldSize size,
      ((∃ text, minyarPoolResize cfg s pointer oldSize size = .error text) ↔
        size > cfg.bytes ∨ (¬ ResizesInPlace cfg s pointer size ∧
          (minyarPoolTryAllocate cfg s size).1 = 0)) ∧
      ∀ result, minyarPoolResize cfg s pointer oldSize size = .ok result →
        PoolResizes cfg s live pointer oldSize size result) ∧
      (∀ pointer plan, pointer ≠ 0 → (poolTryResizeSameBase cfg s pointer plan).1 = 0 →
        (poolTryResizeSameBase cfg s pointer plan).2 = s) ∧
      ∀ offset order wanted capacity target,
        (minyarPoolTryGrowLower cfg s offset order wanted capacity target).1 = 0 →
          (minyarPoolTryGrowLower cfg s offset order wanted capacity target).2 = s := by
  obtain ⟨T, hT, rfl⟩ := h.poolInv
  refine ⟨?_, fun pointer plan hpointer hfailed => poolTryResizeSameBase_failed hpointer hfailed,
    fun offset order wanted capacity target hfailed => minyarPoolTryGrowLower_failed hfailed⟩
  rintro pointer ⟨u, k, hu, rfl⟩ oldSize size
  have hstops := hT.resize_stops_iff hu oldSize size
  refine ⟨hstops, fun result hs => hT.resize_resizes hu oldSize ?_ hs⟩
  by_contra hsize
  obtain ⟨text, herror⟩ := hstops.mpr (Or.inl (not_le.mp hsize))
  rw [herror] at hs
  cases hs

/-- A pool of one page with one block of 128 bytes. -/
theorem poolReachable_page : ∃ s live, PoolReachable pagePool s live ∧ 4096 ∈ live ∧
    (∃ result, minyarPoolResize pagePool s 4096 100 200 = .ok result) ∧
      ∃ text, minyarPoolResize pagePool s 4096 100 5000 = .error text := by
  have hpointer : (minyarPoolTryAllocate pagePool (minyarPoolInitialize pagePool) 100).1 = 4096 := by
    decide
  have hreach := PoolReachable.tryAllocate 100 (PoolReachable.start : PoolReachable pagePool _ _)
  rw [if_neg (by rw [hpointer]; decide), hpointer] at hreach
  exact ⟨_, _, hreach, Or.inl rfl, ⟨_, rfl⟩, ⟨_, rfl⟩⟩

/-- The block of that pool, resized to 200 bytes. -/
theorem minyarPoolResize_spec_page : ∃ s live result, PoolReachable pagePool s live ∧
    minyarPoolResize pagePool s 4096 100 200 = .ok result ∧
      PoolResizes pagePool s live 4096 100 200 result := by
  obtain ⟨s, live, hreach, hlive, ⟨result, hs⟩, -⟩ := poolReachable_page
  exact ⟨s, live, result, hreach, hs,
    ((minyarPoolResize_spec pagePool s live hreach).1 4096 hlive 100 200).2 result hs⟩

/-- A size that exceeds the pool stops the program. -/
theorem minyarPoolResize_stops : ¬ ∀ (cfg : PoolConfig) (s : Pool) (live : Set ℕ),
    PoolReachable cfg s live → ∀ pointer ∈ live, ∀ oldSize size,
      ∃ result, minyarPoolResize cfg s pointer oldSize size = .ok result := by
  intro hall
  obtain ⟨s, live, hreach, hlive, -, text, hstop⟩ := poolReachable_page
  obtain ⟨result, hs⟩ := hall pagePool s live hreach 4096 hlive 100 5000
  rw [hstop] at hs
  cases hs

end Minyar

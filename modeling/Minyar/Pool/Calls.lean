import Minyar.Pool.Run

/-!
# What an allocation and a release return

On a pool that keeps the invariant an allocation fails exactly when the size exceeds the pool or no
free block is large enough; otherwise it hands out a block of the least order that fits.  A release
proceeds exactly for the start of an allocated block, and for the null pointer, which it ignores.

A call that stops has no result in `Minyar.Pool.Model`.  `minyarPoolDeallocateSteps` is the release
statement by statement, so that the pool at a stop can be observed.
-/

namespace Minyar

open BlockMap

variable {cfg : PoolConfig} {s s' : Pool} {T T' : BlockMap BlockTag} {u v k n o w c : ℕ}

/-! ## Orders -/

/-- The orders whose blocks fit a size; no block is smaller than the minimum. -/
def fittingOrders (size : ℕ) : Set ℕ := {p | max size poolMinimum ≤ poolBlockSize p}

/-- The doubling loop finds the least order that fits. -/
theorem PoolShape.poolFit_isLeast (h : PoolShape cfg s T) {size : ℕ} (hsize : size ≤ cfg.bytes) :
    IsLeast (fittingOrders size) (Minyar.poolFit size poolOrders 0 poolMinimum).1 := by
  obtain ⟨o, heq, hfit, -⟩ := h.poolFit hsize
  obtain ⟨o', heq', -, -, hmin⟩ := poolFit_eq size poolOrders 0
  rw [pow_zero, Nat.mul_one, heq] at heq'
  cases heq'
  rw [heq]
  have hmono : poolMinimum * 2 ^ 0 ≤ poolMinimum * 2 ^ o :=
    Nat.mul_le_mul_left _ (Nat.pow_le_pow_right two_pos (Nat.zero_le o))
  refine ⟨?_, fun p hp => ?_⟩
  · change max size poolMinimum ≤ poolBlockSize o
    rw [poolBlockSize_eq]
    exact max_le hfit (by simpa using hmono)
  · by_contra hlt
    have hlow := hmin (by omega)
    have hp' : max size poolMinimum ≤ poolBlockSize p := hp
    rw [poolBlockSize_eq] at hp'
    have hle : poolMinimum * 2 ^ p ≤ poolMinimum * 2 ^ (o - 1) :=
      Nat.mul_le_mul_left _ (Nat.pow_le_pow_right two_pos (by omega))
    exact absurd ((le_max_left _ _).trans (hp'.trans hle)) (not_le.mpr hlow)

/-- The mask has a bit from an order on exactly when a free block has such an order. -/
theorem PoolShape.available_eq_zero_iff (h : PoolShape cfg s T) (o : ℕ) :
    s.mask &&& (BitVec.allOnes 64 <<< o) = 0 ↔ ∀ u p, T u = some (p, .free) → p < o := by
  constructor
  · intro hzero u p hu
    by_contra hle
    have hlt : p < 64 := by
      have := h.order_le hu
      omega
    have hbit : s.mask.getLsbD p = true :=
      (h.mask p hlt).mpr ((h.free_ne_zero_iff p).mpr ⟨u, hu⟩)
    have hand : (s.mask &&& (BitVec.allOnes 64 <<< o)).getLsbD p = true := by
      rw [BitVec.getLsbD_and, BitVec.getLsbD_shiftLeft, BitVec.getLsbD_allOnes, hbit]
      simp [hlt, hle, Nat.sub_lt_of_lt hlt]
    rw [hzero] at hand
    simp at hand
  · intro hfree
    refine BitVec.eq_of_getLsbD_eq fun p hp => ?_
    rw [BitVec.getLsbD_and, BitVec.getLsbD_shiftLeft]
    by_cases hbit : s.mask.getLsbD p = true
    · obtain ⟨u, hu⟩ := (h.free_ne_zero_iff p).mp ((h.mask p hp).mp hbit)
      simp [hfree u p hu]
    · simp [hbit]

/-! ## Allocation -/

/-- Two blocks have no byte in common. -/
def BlocksApart (cfg : PoolConfig) (u o v p : ℕ) : Prop :=
  unitAddress cfg u + poolBlockSize o ≤ unitAddress cfg v ∨
    unitAddress cfg v + poolBlockSize p ≤ unitAddress cfg u

/-- Different blocks of a tiling have no byte in common. -/
theorem PoolShape.apart (h : PoolShape cfg s T) {t r : BlockTag} {p : ℕ} (hu : T u = some (o, t))
    (hv : T v = some (p, r)) (hne : u ≠ v) : BlocksApart cfg u o v p := by
  unfold BlocksApart unitAddress
  rw [poolBlockSize_eq, poolBlockSize_eq, poolMinimum_eq]
  rcases Nat.lt_or_gt_of_ne hne with hlt | hlt
  · have := h.tiles.disjoint hu hv hlt
    omega
  · have := h.tiles.disjoint hv hu hlt
    omega

/-- What an allocation that hands out a block of order `o` guarantees. -/
structure PoolAllocates (cfg : PoolConfig) (s : Pool) (T : BlockMap BlockTag) (o : ℕ)
    (result : ℕ × Pool) (u : ℕ) (T' : BlockMap BlockTag) : Prop where
  /-- The block starts at the pointer. -/
  pointer : result.1 = unitAddress cfg u
  /-- The invariant holds. -/
  inv : PoolInv cfg result.2 T'
  /-- The block has the order. -/
  block : T' u = some (o, .allocated)
  /-- It was not handed out before. -/
  new : ∀ p, T u ≠ some (p, .allocated)
  /-- It is all that is handed out. -/
  others : ∀ v p, T' v = some (p, .allocated) ↔ (v = u ∧ p = o) ∨ T v = some (p, .allocated)

/-- No outstanding block shares a byte with the new one. -/
theorem PoolAllocates.apart {result : ℕ × Pool} (h : PoolAllocates cfg s T o result u T') {p : ℕ}
    (hv : T v = some (p, .allocated)) : BlocksApart cfg u o v p := by
  refine h.inv.shape.apart h.block ((h.others v p).mpr (Or.inr hv)) ?_
  rintro rfl
  exact h.new p hv

namespace PoolInv

/-- An allocation fails exactly when the size exceeds the pool or no free block is large enough. -/
theorem tryAllocate_cases (h : PoolInv cfg s T) (size : ℕ)
    (ho : IsLeast (fittingOrders size) o) :
    (minyarPoolTryAllocate cfg s size = (0, s) ∧
        (size > cfg.bytes ∨ ∀ u p, T u = some (p, .free) → p < o)) ∨
      ((∃ u T', PoolAllocates cfg s T o (minyarPoolTryAllocate cfg s size) u T') ∧
        ¬ (size > cfg.bytes ∨ ∀ u p, T u = some (p, .free) → p < o)) := by
  have hfit : size ≤ cfg.bytes → (poolFit size poolOrders 0 poolMinimum).1 = o := fun hsize =>
    (h.shape.poolFit_isLeast hsize).unique ho
  rcases h.tryAllocate_fit size with ⟨hzero, hnone⟩ | ⟨hsize, havail, s', u, T', heq, hinv, hnew, hiff⟩
  · refine Or.inl ⟨hzero, ?_⟩
    by_cases hsize : size > cfg.bytes
    · exact Or.inl hsize
    · rw [hfit (not_lt.mp hsize)] at hnone
      exact hnone.imp id (h.shape.available_eq_zero_iff o).mp
  · rw [hfit hsize] at havail hiff
    refine Or.inr ⟨⟨u, T', ?_⟩, ?_⟩
    · rw [heq]
      exact ⟨rfl, hinv, (hiff u o).mpr (Or.inl ⟨rfl, rfl⟩), hnew, hiff⟩
    · rintro (hlarge | hnone)
      · exact absurd hsize (not_le.mpr hlarge)
      · exact havail ((h.shape.available_eq_zero_iff o).mpr hnone)

end PoolInv

/-! ## Release -/

/-- A check that stops leaves the variables alone. -/
def poolCheck {α : Type} (check : Pool → Except String α) : EStateM String Pool α := fun s =>
  match check s with
  | .ok value => .ok value s
  | .error text => .error text s

/-- The release of a block, statement by statement. -/
def minyarPoolDeallocateSteps (cfg : PoolConfig) (pointer : ℕ) : EStateM String Pool Unit := do
  if pointer = 0 then return
  let order ← poolCheck fun s => poolAllocatedOrder cfg s pointer
  let offset := poolOffset cfg pointer
  modify fun s => { s with used := sizeSub s.used (poolBlockSize order) }
  modify fun s => { s with map := Function.update s.map (offset / poolMinimum) 0 }
  let s ← get
  let merged := poolCoalesce cfg (s.maxOrder - order) s offset order
  set (poolInsert cfg merged.1 (cfg.base + merged.2.1) merged.2.2)

/-- The statements compute the release, and a stop leaves the pool as it was. -/
theorem minyarPoolDeallocateSteps_run (cfg : PoolConfig) (s : Pool) (pointer : ℕ) :
    (minyarPoolDeallocateSteps cfg pointer).run s =
      match minyarPoolDeallocate cfg s pointer with
      | .ok s' => .ok () s'
      | .error text => .error text s := by
  unfold minyarPoolDeallocateSteps minyarPoolDeallocate
  by_cases hzero : pointer = 0
  · rw [if_pos hzero, if_pos hzero]
    rfl
  · rw [if_neg hzero, if_neg hzero]
    rcases hcheck : poolAllocatedOrder cfg s pointer with text | order
    · simp only [EStateM.run, bind, EStateM.bind, poolCheck, hcheck, Except.bind]
    · simp only [EStateM.run, bind, EStateM.bind, poolCheck, hcheck, pure, Except.bind]
      rfl

namespace PoolInv

/-- The map byte of a free block has no high bit. -/
theorem freeByte_bits : ∀ o < 58, (o + 1) &&& 0x80 = 0 := by decide

/-- Only the map byte of an allocated block has the high bit. -/
theorem tagByte_and (h : PoolInv cfg s T) (hu : ∀ p, T u ≠ some (p, .allocated)) :
    tagByte (T u) &&& 0x80 = 0 := by
  rcases hT : T u with _ | ⟨p, t⟩
  · rfl
  · cases t with
    | free => exact freeByte_bits p (by have := h.shape.order_le hT; omega)
    | allocated => exact absurd hT (hu p)
    | hole => exact absurd hT (h.noHole u p)

/-- A pointer that is the start of no allocated block stops the release. -/
theorem allocatedOrder_error (h : PoolInv cfg s T) {pointer : ℕ}
    (hp : pointer ∉ allocatedPointers cfg T) :
    ∃ text, poolAllocatedOrder cfg s pointer = .error text := by
  unfold poolAllocatedOrder
  by_cases hrange : pointer < cfg.base ∨ pointer ≥ cfg.base + cfg.bytes ∨
      (pointer - cfg.base) % poolMinimum ≠ 0
  · exact ⟨_, if_pos hrange⟩
  rw [if_neg hrange]
  obtain ⟨u, rfl⟩ : ∃ u, pointer = unitAddress cfg u := by
    refine ⟨(pointer - cfg.base) / poolMinimum, ?_⟩
    unfold unitAddress
    rw [poolMinimum_eq] at *
    omega
  have hbyte : s.map (poolMapIndex cfg (unitAddress cfg u)) &&& 0x80 = 0 := by
    rw [poolMapIndex_unitAddress, h.map]
    exact h.tagByte_and fun p hu => hp ⟨u, p, hu, rfl⟩
  simp only [if_pos hbyte]
  exact ⟨_, rfl⟩

/-- A release proceeds for the null pointer and for the start of an allocated block, and leaves the
pool alone where it stops. -/
theorem deallocate_cases (h : PoolInv cfg s T) (pointer : ℕ) :
    ((pointer = 0 ∨ pointer ∈ allocatedPointers cfg T) ∧
        ∃ s', (minyarPoolDeallocateSteps cfg pointer).run s = .ok () s') ∨
      (¬ (pointer = 0 ∨ pointer ∈ allocatedPointers cfg T) ∧
        ∃ text, (minyarPoolDeallocateSteps cfg pointer).run s = .error text s) := by
  rw [minyarPoolDeallocateSteps_run]
  by_cases hzero : pointer = 0
  · refine Or.inl ⟨Or.inl hzero, s, ?_⟩
    rw [minyarPoolDeallocate, if_pos hzero]
  by_cases hp : pointer ∈ allocatedPointers cfg T
  · refine Or.inl ⟨Or.inr hp, ?_⟩
    obtain ⟨u, o, hu, rfl⟩ := hp
    obtain ⟨s', T', heq, -, -⟩ := h.deallocate hu
    rw [heq]
    exact ⟨s', rfl⟩
  · refine Or.inr ⟨not_or.mpr ⟨hzero, hp⟩, ?_⟩
    obtain ⟨text, htext⟩ := h.allocatedOrder_error hp
    refine ⟨text, ?_⟩
    rw [minyarPoolDeallocate, if_neg hzero, htext]
    rfl

end PoolInv

/-! ## The calls on a pool that keeps the invariant -/

/-- On a pool that keeps the invariant an allocation fails, without a change, exactly when the size
exceeds the pool or no free block of the least fitting order or more exists, and otherwise hands out
a block of that order apart from all outstanding ones; a release of a pointer that is not null
proceeds exactly for the start of an allocated block, the null pointer is ignored, and a release that
stops has changed nothing. -/
theorem minyarPool_calls (cfg : PoolConfig) (s : Pool) (T : BlockMap BlockTag)
    (h : PoolInv cfg s T) :
    (∀ size o, IsLeast (fittingOrders size) o →
      ((minyarPoolTryAllocate cfg s size).1 = 0 ↔
          size > cfg.bytes ∨ ∀ u p, T u = some (p, .free) → p < o) ∧
        ((minyarPoolTryAllocate cfg s size).1 = 0 → (minyarPoolTryAllocate cfg s size).2 = s) ∧
        ((minyarPoolTryAllocate cfg s size).1 ≠ 0 → ∃ u T',
          PoolAllocates cfg s T o (minyarPoolTryAllocate cfg s size) u T' ∧
            ∀ v p, T v = some (p, .allocated) → BlocksApart cfg u o v p)) ∧
      (∀ pointer ≠ 0, (∃ s', (minyarPoolDeallocateSteps cfg pointer).run s = .ok () s') ↔
        ∃ u o, T u = some (o, .allocated) ∧ pointer = unitAddress cfg u) ∧
      (minyarPoolDeallocateSteps cfg 0).run s = .ok () s ∧
      ∀ pointer text s', (minyarPoolDeallocateSteps cfg pointer).run s = .error text s' →
        s' = s := by
  refine ⟨fun size o ho => ?_, fun pointer hne => ?_, ?_, fun pointer text s' hstop => ?_⟩
  · rcases h.tryAllocate_cases size ho with ⟨hzero, hnone⟩ | ⟨⟨u, T', hnew⟩, hsome⟩
    · rw [hzero]
      exact ⟨iff_of_true rfl hnone, fun _ => rfl, fun hne => absurd rfl hne⟩
    · have hne : (minyarPoolTryAllocate cfg s size).1 ≠ 0 := by
        rw [hnew.pointer]
        exact unitAddress_ne_zero cfg u
      exact ⟨iff_of_false hne hsome, fun hzero => absurd hzero hne,
        fun _ => ⟨u, T', hnew, fun v p hv => hnew.apart hv⟩⟩
  · rcases h.deallocate_cases pointer with ⟨hp, hok⟩ | ⟨hp, text, herror⟩
    · exact iff_of_true hok (hp.resolve_left hne)
    · refine iff_of_false ?_ fun hstart => hp (Or.inr hstart)
      rintro ⟨s', hok⟩
      rw [herror] at hok
      cases hok
  · rw [minyarPoolDeallocateSteps_run, minyarPoolDeallocate, if_pos rfl]
  · rcases h.deallocate_cases pointer with ⟨-, s'', hok⟩ | ⟨-, text', herror⟩
    · rw [hok] at hstop
      cases hstop
    · rw [herror] at hstop
      cases hstop
      rfl

/-- The calls on a fresh pool of one page. -/
theorem minyarPool_calls_page :
    ∃ u T', PoolAllocates pagePool (minyarPoolInitialize pagePool)
      (single (minyarPoolInitialize pagePool).maxOrder .free) 2
      (minyarPoolTryAllocate pagePool (minyarPoolInitialize pagePool) 100) u T' := by
  have hleast : IsLeast (fittingOrders 100) 2 := by
    refine ⟨show max 100 poolMinimum ≤ poolBlockSize 2 by decide, fun p hp => ?_⟩
    by_contra hlt
    have hp' : max 100 poolMinimum ≤ poolBlockSize p := hp
    interval_cases p <;> revert hp' <;> decide
  obtain ⟨u, T', hnew, -⟩ := ((minyarPool_calls pagePool _ _ (PoolInv.poolInv_start pagePool)).1
    100 2 hleast).2.2 (by decide)
  exact ⟨u, T', hnew⟩

/-- The null pointer is no allocated block, and its release proceeds. -/
theorem minyarPool_calls_null : ¬ ∀ (cfg : PoolConfig) (s : Pool) (T : BlockMap BlockTag),
    PoolInv cfg s T → ∀ pointer,
      ((∃ s', (minyarPoolDeallocateSteps cfg pointer).run s = .ok () s') ↔
        ∃ u o, T u = some (o, .allocated) ∧ pointer = unitAddress cfg u) := by
  intro hall
  have hnull := (hall pagePool _ _ (PoolInv.poolInv_start pagePool) 0).mp ⟨_, rfl⟩
  obtain ⟨u, -, -, hu⟩ := hnull
  exact unitAddress_ne_zero pagePool u hu.symm

end Minyar

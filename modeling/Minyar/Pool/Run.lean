import Minyar.Pool.Hole

/-!
# Every reachable pool is a tiling by free and allocated blocks

`PoolInv` is the invariant between two calls: the blocks tile the pool, the map, the free lists,
the mask and the byte count describe them, and no two buddies are free.  Each call opens a
hole, runs the loops of `Minyar.Pool.Hole`, and closes the hole as a free or an allocated block.
Between the calls the program may write whatever it likes into the allocated blocks.
-/

namespace Minyar

open BlockMap

variable {cfg : PoolConfig} {s s' : Pool} {T T' : BlockMap BlockTag} {u v k n o w c : ℕ}

/-- The pool between two calls. -/
structure PoolInv (cfg : PoolConfig) (s : Pool) (T : BlockMap BlockTag) : Prop where
  /-- The lists and the mask describe the free blocks of a tiling without free buddies. -/
  shape : PoolShape cfg s T
  /-- The map byte is `order + 1` at the start of a free block, `0x80 | (order + 1)` at the start
  of an allocated block, and zero everywhere else. -/
  map : ∀ u, s.map u = tagByte (T u)
  /-- Every block is free or allocated. -/
  noHole : ∀ u o, T u ≠ some (o, .hole)
  /-- The bytes in use are those of the allocated blocks. -/
  used : s.used = poolMinimum * T.total s.maxOrder isAllocated

/-! ## Opening and closing the hole -/

@[simp] theorem units_allocated (o : ℕ) : units isAllocated (some (o, .allocated)) = 2 ^ o := rfl

@[simp] theorem units_free (o : ℕ) : units isAllocated (some (o, .free)) = 0 := rfl

@[simp] theorem units_hole (o : ℕ) : units isAllocated (some (o, .hole)) = 0 := rfl

/-- The byte of an allocated block. -/
theorem allocatedByte_eq (ho : o ≤ 57) : allocatedByte o = 0x80 ||| (o + 1) := by
  refine Nat.mod_eq_of_lt ?_
  exact Nat.or_lt_two_pow (by norm_num) (by omega)

/-- The pool is smaller than the address space. -/
theorem PoolShape.total_lt (h : PoolShape cfg s T) :
    poolMinimum * T.total s.maxOrder isAllocated ≤ cfg.bytes :=
  h.bytes_eq ▸ Nat.mul_le_mul_left _ (h.tiles.total_le isAllocated)

theorem PoolConfig.bytes_lt (cfg : PoolConfig) : cfg.bytes < 2 ^ 63 := by
  have := cfg.max_bytes
  unfold PoolConfig.bytes
  omega

namespace PoolInv

/-- An allocated block is opened as a hole whose stale byte is its map byte. -/
theorem holeAt_of_allocated (h : PoolInv cfg s T) (hu : T u = some (o, .allocated)) :
    HoleAt cfg s (Function.update T u (some (o, .hole))) u o u (allocatedByte o) := by
  have hT : ∀ v, Function.update T u (some (o, .hole)) v =
      if v = u then some (o, .hole) else T v := fun v => Function.update_apply _ _ _ _
  refine ⟨h.shape.of_free_iff (h.shape.tiles.retag hu .hole) fun v p => ?_,
    Function.update_self _ _ _, ?_, ⟨le_rfl, Nat.lt_add_of_pos_right (Nat.two_pow_pos o)⟩, ?_⟩
  · rw [hT]
    split
    · rename_i hv
      simp [hv, hu]
    · rfl
  · intro v p hv
    rw [hT] at hv
    split at hv
    · assumption
    · exact absurd hv (h.noHole v p)
  · funext v
    rw [h.map]
    simp only [Function.update_apply]
    split
    · rename_i hv
      rw [hv, hu, allocatedByte_eq (h.shape.order_le hu)]
      rfl
    · rfl

/-- Removing a free block opens it as a hole. -/
theorem holeAt_of_free (h : PoolInv cfg s T) (hu : T u = some (o, .free)) :
    HoleAt cfg (poolRemove cfg s (unitAddress cfg u) o) (Function.update T u (some (o, .hole)))
      u o u 0 := by
  refine ⟨h.shape.remove hu, Function.update_self _ _ _, ?_,
    ⟨le_rfl, Nat.lt_add_of_pos_right (Nat.two_pow_pos o)⟩, ?_⟩
  · intro v p hv
    rw [Function.update_apply] at hv
    split at hv
    · assumption
    · exact absurd hv (h.noHole v p)
  · funext v
    rw [poolRemove_map, poolMapIndex_unitAddress]
    simp only [Function.update_apply, h.map]
    split <;> rfl

/-- Opening an allocated block takes its units out of the count. -/
theorem total_open (h : PoolInv cfg s T) (hu : T u = some (o, .allocated)) :
    total (Function.update T u (some (o, .hole))) s.maxOrder isAllocated + 2 ^ o =
      T.total s.maxOrder isAllocated := by
  simpa [hu] using T.total_update (h.shape.tiles.lt hu) (some (o, .hole)) isAllocated

end PoolInv

namespace HoleAt

/-- Handing the hole out adds its units to the count. -/
theorem total_close (h : HoleAt cfg s T u k w c) :
    total (Function.update T u (some (k, .allocated))) s.maxOrder isAllocated =
      T.total s.maxOrder isAllocated + 2 ^ k := by
  simpa [h.hole] using T.total_update (h.shape.tiles.lt h.hole) (some (k, .allocated)) isAllocated

/-- The units of the hole fit beside the allocated ones. -/
theorem total_add_le (h : HoleAt cfg s T u k w c) :
    poolMinimum * (T.total s.maxOrder isAllocated + 2 ^ k) ≤ cfg.bytes := by
  rw [← h.total_close, ← h.shape.bytes_eq]
  exact Nat.mul_le_mul_left _ ((h.shape.tiles.retag h.hole .allocated).total_le isAllocated)

/-- Writing the allocated byte hands the hole out. -/
theorem close_allocated (h : HoleAt cfg s T u k u c)
    (hlinks : s'.bytes = s.bytes) (hfree : s'.free = s.free) (hmask : s'.mask = s.mask)
    (hmax : s'.maxOrder = s.maxOrder)
    (hmap : s'.map = Function.update s.map u (allocatedByte k))
    (hused : s'.used = poolMinimum * (T.total s.maxOrder isAllocated + 2 ^ k)) :
    PoolInv cfg s' (Function.update T u (some (k, .allocated))) := by
  have hT : ∀ v, Function.update T u (some (k, .allocated)) v =
      if v = u then some (k, .allocated) else T v := fun v => Function.update_apply _ _ _ _
  refine ⟨?_, ?_, ?_, ?_⟩
  · refine PoolShape.congr ?_ (fun _ => (congrFun (poolReadLink_congr hlinks) _).symm) hfree hmask hmax
    refine h.shape.of_free_iff (h.shape.tiles.retag h.hole .allocated) fun v p => ?_
    rw [hT]
    split
    · rename_i hv
      simp [hv, h.hole]
    · rfl
  · intro v
    rw [hmap, h.map, Function.update_idem, hT, Function.update_apply]
    split
    · exact allocatedByte_eq (h.shape.order_le h.hole)
    · rfl
  · intro v p hv
    rw [hT] at hv
    split at hv
    · exact absurd hv (by simp)
    · have := h.only hv
      contradiction
  · rw [hused, hmax, h.total_close]

/-- Handing the hole out adds one allocated block. -/
theorem close_allocated_iff (h : HoleAt cfg s T u k w c) (v p : ℕ) :
    Function.update T u (some (k, .allocated)) v = some (p, .allocated) ↔
      (v = u ∧ p = k) ∨ T v = some (p, .allocated) := by
  rw [Function.update_apply]
  split
  · rename_i hv
    simp [hv, h.hole, eq_comm]
  · simp [*]

/-- Inserting the hole frees it. -/
theorem close_free (h : HoleAt cfg s T u k w 0)
    (hb : k < s.maxOrder → T (buddy u k) ≠ some (k, .free))
    (hused : s.used = poolMinimum * T.total s.maxOrder isAllocated) :
    PoolInv cfg (poolInsert cfg s (unitAddress cfg u) k)
      (Function.update T u (some (k, .free))) := by
  have hexact : ∀ v, s.map v = tagByte (T v) := by
    have hclear := h.clear.map
    have hmap : Function.update s.map w 0 = s.map := by
      rw [h.map, Function.update_idem]
    intro v
    simp only [hmap] at hclear
    rw [hclear, Function.update_apply]
    split
    · rename_i hv
      rw [hv, h.hole]
      rfl
    · rfl
  refine ⟨h.shape.insert h.hole hb, ?_, ?_, ?_⟩
  · intro v
    rw [poolInsert_map, poolMapIndex_unitAddress, Function.update_apply, Function.update_apply]
    split
    · exact Nat.mod_eq_of_lt (by have := h.shape.order_le h.hole; omega)
    · exact hexact v
  · intro v p hv
    rw [Function.update_apply] at hv
    split at hv
    · exact absurd hv (by simp)
    · have := h.only hv
      contradiction
  · rw [poolInsert_used, hused, poolInsert_maxOrder,
      total_update_of_units (h.shape.tiles.lt h.hole) (by simp [h.hole])]

end HoleAt

/-! ## Sizes -/

/-- The doubling loop finds the smallest order that fits, unless it runs out of orders. -/
theorem poolFit_eq (size fuel : ℕ) : ∀ order, ∃ o,
    poolFit size fuel order (poolMinimum * 2 ^ order) = (o, poolMinimum * 2 ^ o) ∧ order ≤ o ∧
      (size ≤ poolMinimum * 2 ^ o ∨ o = order + fuel) ∧
      (order < o → poolMinimum * 2 ^ (o - 1) < size) := by
  induction fuel with
  | zero => exact fun order => ⟨order, rfl, le_rfl, Or.inr rfl, fun h => absurd h (lt_irrefl _)⟩
  | succ fuel ih =>
    intro order
    unfold poolFit
    by_cases hlt : poolMinimum * 2 ^ order < size
    · have hdouble : (poolMinimum * 2 ^ order) <<< 1 = poolMinimum * 2 ^ (order + 1) := by
        rw [Nat.shiftLeft_eq, pow_one, Nat.mul_assoc, ← pow_succ]
      obtain ⟨o, heq, hle, hfit, hmin⟩ := ih (order + 1)
      rw [if_pos hlt, hdouble]
      refine ⟨o, heq, by omega, ?_, fun _ => ?_⟩
      · rcases hfit with hfit | hfit
        · exact Or.inl hfit
        · exact Or.inr (by omega)
      · rcases hle.eq_or_lt with rfl | hlt'
        · exact hlt
        · exact hmin hlt'
    · rw [if_neg hlt]
      exact ⟨order, rfl, le_rfl, Or.inl (by omega), fun h => absurd h (lt_irrefl _)⟩

/-- A size that fits the pool has an order of the pool. -/
theorem PoolShape.poolFit (h : PoolShape cfg s T) {size : ℕ} (hsize : size ≤ cfg.bytes) :
    ∃ o, poolFit size poolOrders 0 poolMinimum = (o, poolMinimum * 2 ^ o) ∧
      size ≤ poolMinimum * 2 ^ o ∧ o ≤ s.maxOrder := by
  obtain ⟨o, heq, -, hfit, hmin⟩ := poolFit_eq size poolOrders 0
  have hle : o ≤ s.maxOrder := by
    rcases Nat.eq_zero_or_pos o with rfl | hpos
    · exact Nat.zero_le _
    · have hlt : poolMinimum * 2 ^ (o - 1) < poolMinimum * 2 ^ s.maxOrder :=
        h.bytes_eq ▸ (hmin hpos).trans_le hsize
      have := (Nat.pow_lt_pow_iff_right one_lt_two).mp (Nat.lt_of_mul_lt_mul_left hlt)
      omega
  refine ⟨o, by simpa using heq, ?_, hle⟩
  rcases hfit with hfit | hfit
  · exact hfit
  · have := h.maxOrder_le
    simp only [poolOrders] at hfit
    omega

/-- A nonzero word has a set bit at the number of its trailing zeros. -/
theorem countTrailingZeros_spec {word : BitVec 64} (h : word ≠ 0) :
    countTrailingZeros word < 64 ∧ word.getLsbD (countTrailingZeros word) = true := by
  unfold countTrailingZeros
  rcases hf : (List.range 64).find? fun bit => word.getLsbD bit with _ | bit
  · refine absurd (BitVec.eq_of_getLsbD_eq fun i hi => ?_) h
    have := List.find?_eq_none.mp hf i (List.mem_range.mpr hi)
    simpa using this
  · exact ⟨List.mem_range.mp (List.mem_of_find?_eq_some hf), by simpa using List.find?_some hf⟩

/-- A sum below the address space does not wrap. -/
theorem sizeAdd_eq {a b : ℕ} (h : a + b < 2 ^ 64) : sizeAdd a b = a + b := Nat.mod_eq_of_lt h

/-- A difference of 64-bit sizes does not wrap. -/
theorem sizeSub_add {a b : ℕ} (h : a + b < 2 ^ 64) : sizeSub (a + b) b = a := by
  unfold sizeSub
  omega

/-- The high-water mark is all that changes. -/
@[simp] theorem poolRaiseHighWater_fields (s : Pool) :
    (poolRaiseHighWater s).bytes = s.bytes ∧ (poolRaiseHighWater s).map = s.map ∧
      (poolRaiseHighWater s).free = s.free ∧ (poolRaiseHighWater s).mask = s.mask ∧
      (poolRaiseHighWater s).used = s.used ∧ (poolRaiseHighWater s).maxOrder = s.maxOrder := by
  unfold poolRaiseHighWater
  split <;> simp

/-! ## The calls -/

namespace PoolInv

/-- The pool after a free block of order `order + n` is cut down to the order and handed out. -/
def poolHandOut (cfg : PoolConfig) (s : Pool) (result order n blockSize : ℕ) : Pool :=
  let s := poolSplit cfg result order n (poolRemove cfg s result (order + n))
  poolRaiseHighWater { s with
    map := Function.update s.map (poolMapIndex cfg result) (allocatedByte order)
    used := sizeAdd s.used blockSize }

/-- An allocation changes nothing when the size exceeds the pool or no order from the fitting one on
has a free block, and otherwise hands out a part of a free block. -/
theorem tryAllocate_found (h : PoolInv cfg s T) (size : ℕ) :
    (minyarPoolTryAllocate cfg s size = (0, s) ∧ (size > cfg.bytes ∨
        s.mask &&& (BitVec.allOnes 64 <<< (poolFit size poolOrders 0 poolMinimum).1) = 0)) ∨
      (size ≤ cfg.bytes ∧
        s.mask &&& (BitVec.allOnes 64 <<< (poolFit size poolOrders 0 poolMinimum).1) ≠ 0 ∧
        ∃ u n, T u = some ((poolFit size poolOrders 0 poolMinimum).1 + n, .free) ∧
          minyarPoolTryAllocate cfg s size = (unitAddress cfg u,
            poolHandOut cfg s (unitAddress cfg u) (poolFit size poolOrders 0 poolMinimum).1 n
              (poolFit size poolOrders 0 poolMinimum).2)) := by
  unfold minyarPoolTryAllocate
  by_cases hsize : size > cfg.bytes
  · exact Or.inl ⟨if_pos hsize, Or.inl hsize⟩
  rw [if_neg hsize]
  generalize poolFit size poolOrders 0 poolMinimum = fit
  obtain ⟨o, blockSize⟩ := fit
  simp only
  by_cases havail : s.mask &&& (BitVec.allOnes 64 <<< o) = 0
  · exact Or.inl ⟨if_pos havail, Or.inr havail⟩
  rw [if_neg havail]
  refine Or.inr ⟨not_lt.mp hsize, havail, ?_⟩
  obtain ⟨hlt, hbit⟩ := countTrailingZeros_spec havail
  generalize countTrailingZeros (s.mask &&& (BitVec.allOnes 64 <<< o)) = found at hlt hbit
  rw [BitVec.getLsbD_and, BitVec.getLsbD_shiftLeft, Bool.and_eq_true] at hbit
  have hof : o ≤ found := by
    by_contra hcon
    simp [show found < o by omega] at hbit
  obtain ⟨n, rfl⟩ := Nat.exists_eq_add_of_le hof
  have hhead := (h.shape.mask _ hlt).mp hbit.1
  obtain ⟨u, hu, heq⟩ := (h.shape.head_cases (o + n)).resolve_left hhead
  refine ⟨u, n, hu, ?_⟩
  rw [heq, Nat.add_sub_cancel_left]
  rfl

/-- The block that is handed out has the fitting order. -/
theorem tryAllocate_fit (h : PoolInv cfg s T) (size : ℕ) :
    (minyarPoolTryAllocate cfg s size = (0, s) ∧ (size > cfg.bytes ∨
        s.mask &&& (BitVec.allOnes 64 <<< (poolFit size poolOrders 0 poolMinimum).1) = 0)) ∨
      (size ≤ cfg.bytes ∧
        s.mask &&& (BitVec.allOnes 64 <<< (poolFit size poolOrders 0 poolMinimum).1) ≠ 0 ∧
        ∃ s' u T', minyarPoolTryAllocate cfg s size = (unitAddress cfg u, s') ∧
          PoolInv cfg s' T' ∧ (∀ p, T u ≠ some (p, .allocated)) ∧
          ∀ v p, T' v = some (p, .allocated) ↔
            (v = u ∧ p = (poolFit size poolOrders 0 poolMinimum).1) ∨
              T v = some (p, .allocated)) := by
  refine (h.tryAllocate_found size).imp id ?_
  rintro ⟨hsize, havail, u, n, hu, heq⟩
  refine ⟨hsize, havail, ?_⟩
  obtain ⟨o, hfit, -, -⟩ := h.shape.poolFit hsize
  rw [hfit] at hu heq ⊢
  simp only at hu heq ⊢
  obtain ⟨T₁, hhole, hsame⟩ := (h.holeAt_of_free hu).poolSplit
  have hbefore : SameAllocated T (Function.update T u (some (o + n, .hole))) :=
    SameAllocated.update (by simp) (by simp [hu])
  have hall := hbefore.trans hsame
  have hmax : (poolSplit cfg (unitAddress cfg u) o n
      (poolRemove cfg s (unitAddress cfg u) (o + n))).maxOrder = s.maxOrder := by simp
  unfold poolHandOut at heq
  rw [poolMapIndex_unitAddress] at heq
  refine ⟨_, u, _, heq, hhole.close_allocated (by simp) (by simp) (by simp) (by simp) (by simp) ?_,
    by simp [hu], fun v p => ?_⟩
  · have htotal := hhole.total_add_le
    have := cfg.bytes_lt
    rw [hmax, hall.total_eq] at htotal ⊢
    rw [Nat.mul_add] at htotal ⊢
    simp only [poolRaiseHighWater_fields, poolSplit_used, poolRemove_used, h.used]
    exact sizeAdd_eq (by omega)
  · rw [hhole.close_allocated_iff, hall v p]

/-- An allocation either changes nothing or hands out a free block that fits. -/
theorem tryAllocate (h : PoolInv cfg s T) (size : ℕ) :
    minyarPoolTryAllocate cfg s size = (0, s) ∨
      ∃ s' u o T', minyarPoolTryAllocate cfg s size = (unitAddress cfg u, s') ∧
        PoolInv cfg s' T' ∧ size ≤ poolMinimum * 2 ^ o ∧ (∀ p, T u ≠ some (p, .allocated)) ∧
        ∀ v p, T' v = some (p, .allocated) ↔ (v = u ∧ p = o) ∨ T v = some (p, .allocated) := by
  rcases h.tryAllocate_fit size with ⟨hzero, -⟩ | ⟨hsize, -, s', u, T', heq, hinv, hnew, hiff⟩
  · exact Or.inl hzero
  · obtain ⟨o, hfit, hle, -⟩ := h.shape.poolFit hsize
    rw [hfit] at hiff
    exact Or.inr ⟨s', u, o, T', heq, hinv, hle, hnew, hiff⟩

/-- The map byte of an allocated block is read back. -/
theorem allocatedByte_bits : ∀ o < 58, (0x80 ||| (o + 1)) &&& 0x80 ≠ 0 ∧
    ((0x80 ||| (o + 1)) &&& 0x7f) - 1 = o := by decide

/-- The order of an allocated block is read from the map. -/
theorem allocatedOrder (h : PoolInv cfg s T) (hu : T u = some (o, .allocated)) :
    poolAllocatedOrder cfg s (unitAddress cfg u) = .ok o := by
  have hlt := h.shape.tiles.lt hu
  have hbytes := h.shape.bytes_eq
  obtain ⟨hbit, horder⟩ := allocatedByte_bits o (by have := h.shape.order_le hu; omega)
  have hmap : s.map u = 0x80 ||| (o + 1) := by rw [h.map, hu]; rfl
  have hrange : ¬ (unitAddress cfg u < cfg.base ∨ unitAddress cfg u ≥ cfg.base + cfg.bytes ∨
      (unitAddress cfg u - cfg.base) % poolMinimum ≠ 0) := by
    unfold unitAddress
    rw [← hbytes, poolMinimum_eq]
    omega
  unfold poolAllocatedOrder
  rw [if_neg hrange]
  simp only [poolMapIndex_unitAddress, hmap]
  rw [if_neg hbit, horder]

/-- A release frees exactly the block at the pointer. -/
theorem deallocate (h : PoolInv cfg s T) (hu : T u = some (o, .allocated)) :
    ∃ s' T', minyarPoolDeallocate cfg s (unitAddress cfg u) = .ok s' ∧ PoolInv cfg s' T' ∧
      ∀ v p, T' v = some (p, .allocated) ↔ v ≠ u ∧ T v = some (p, .allocated) := by
  have htotal := h.total_open hu
  have hopen := (h.holeAt_of_allocated hu).clear.with_used
    (sizeSub s.used (poolBlockSize o))
  have horder : o + (s.maxOrder - o) = s.maxOrder := by
    have := h.shape.tiles.order_le hu
    omega
  obtain ⟨s', u', k', T₁, heq, hhole, hsame, hbuddy, hused, hmax⟩ := hopen.poolCoalesce horder
  have hcount : s'.used = poolMinimum * T₁.total s'.maxOrder isAllocated := by
    have hle := h.shape.total_lt
    have hlt := cfg.bytes_lt
    rw [hused, hmax, hsame.total_eq]
    simp only [h.used, poolBlockSize_eq]
    rw [← htotal, Nat.mul_add] at hle ⊢
    exact sizeSub_add (by omega)
  refine ⟨_, _, ?_, hhole.close_free hbuddy hcount, fun v p => ?_⟩
  · unfold minyarPoolDeallocate
    rw [if_neg (unitAddress_ne_zero cfg u), h.allocatedOrder hu]
    simp only [poolOffset_unitAddress, mul_div_poolMinimum, Bind.bind, Except.bind, Pure.pure,
      Except.pure, heq]
    rfl
  · have hclosed : Function.update T₁ u' (some (k', .free)) v = some (p, .allocated) ↔
        T₁ v = some (p, .allocated) := by
      rw [Function.update_apply]
      split
      · rename_i hv
        simp [hv, hhole.hole]
      · rfl
    rw [hclosed, hsame v p, Function.update_apply]
    split
    · simp [*]
    · simp [*]

/-- The plan of a resize to an order of the pool. -/
def resizePlan (u k o : ℕ) : PoolResizePlan :=
  ⟨k, o, poolMinimum * 2 ^ k, poolMinimum * 2 ^ o, poolMinimum * u⟩

/-- The plan has the order of the block and an order that fits, or the pool is too small. -/
theorem planResize (h : PoolInv cfg s T) (hu : T u = some (k, .allocated)) (size : ℕ) :
    (∃ text, poolPlanResize cfg s (unitAddress cfg u) size = .error text) ∨
      ∃ o, poolPlanResize cfg s (unitAddress cfg u) size = .ok (resizePlan u k o) ∧
        size ≤ poolMinimum * 2 ^ o := by
  unfold poolPlanResize
  rw [h.allocatedOrder hu]
  by_cases hsize : size > cfg.bytes
  · left
    simp only [hsize, if_true, Bind.bind, Except.bind]
    exact ⟨_, rfl⟩
  · obtain ⟨o, hfit, hle, -⟩ := h.shape.poolFit (not_lt.mp hsize)
    refine Or.inr ⟨o, ?_, hle⟩
    simp only [hsize, if_false, hfit, Bind.bind, Except.bind, poolBlockSize_eq,
      poolOffset_unitAddress]
    rfl

/-- The block at `u` is replaced by a block of order `o` at `u'`. -/
def Replaced (T T' : BlockMap BlockTag) (u u' o : ℕ) : Prop :=
  ∀ v p, T' v = some (p, .allocated) ↔
    (v = u' ∧ p = o) ∨ (v ≠ u ∧ T v = some (p, .allocated))

/-- The block at `u'` is the block at `u` or was not allocated. -/
def Fresh (T : BlockMap BlockTag) (u u' : ℕ) : Prop :=
  u' ≠ u → ∀ p, T u' ≠ some (p, .allocated)

/-- The hole that becomes of an opened block covers no other allocated block. -/
theorem fresh_of_hole {u' : ℕ} {T₂ : BlockMap BlockTag} (h : HoleAt cfg s T₂ u' o w c)
    (hsame : SameAllocated (Function.update T u (some (k, .hole))) T₂) : Fresh T u u' := by
  intro hne p hp
  have hT₂ : T₂ u' = some (p, .allocated) := by
    rw [hsame u' p, Function.update_of_ne hne]
    exact hp
  rw [h.hole] at hT₂
  simp at hT₂

/-- Opening a block and closing the hole that becomes of it replaces the block. -/
theorem replaced_of_hole {u' : ℕ} {T₂ : BlockMap BlockTag} (h : HoleAt cfg s T₂ u' o w c)
    (hsame : SameAllocated (Function.update T u (some (k, .hole))) T₂) :
    Replaced T (Function.update T₂ u' (some (o, .allocated))) u u' o := by
  intro v p
  rw [h.close_allocated_iff, hsame v p, Function.update_apply]
  split
  · simp [*]
  · simp [*]

/-- A multiple of the block size is aligned. -/
theorem dvd_of_and_eq_zero (h : (poolMinimum * u) &&& (poolMinimum * 2 ^ o - 1) = 0) :
    2 ^ o ∣ u := by
  have hpow : poolMinimum * 2 ^ o = 2 ^ (o + 5) := by rw [poolMinimum_eq, pow_add]; ring
  rw [hpow, Nat.and_two_pow_sub_one_eq_mod, ← hpow] at h
  exact Nat.dvd_of_mul_dvd_mul_left (by decide) (Nat.dvd_of_mod_eq_zero h)

/-- Growing the opened block adds the difference of the sizes to the bytes in use. -/
theorem used_grow (h : PoolInv cfg s T) (hu : T u = some (k, .allocated)) {u' : ℕ}
    {T₂ : BlockMap BlockTag} (hhole : HoleAt cfg s' T₂ u' (k + n) w c)
    (hsame : SameAllocated (Function.update T u (some (k, .hole))) T₂)
    (hused : s'.used = s.used) (hmax : s'.maxOrder = s.maxOrder) :
    sizeAdd s'.used (poolMinimum * 2 ^ (k + n) - poolMinimum * 2 ^ k) =
      poolMinimum * (T₂.total s'.maxOrder isAllocated + 2 ^ (k + n)) := by
  have hlt := cfg.bytes_lt
  have hadd := hhole.total_add_le
  have hpow : poolMinimum * 2 ^ k ≤ poolMinimum * 2 ^ (k + n) :=
    Nat.mul_le_mul_left _ (Nat.pow_le_pow_right two_pos (Nat.le_add_right k n))
  rw [hmax, hsame.total_eq, Nat.mul_add] at hadd ⊢
  rw [hused, h.used, ← h.total_open hu, Nat.mul_add, sizeAdd_eq] <;> omega

/-- Resizing in place replaces the block by one at the same address, or changes nothing. -/
theorem tryResizeSameBase (h : PoolInv cfg s T) (hu : T u = some (k, .allocated)) (o : ℕ) :
    poolTryResizeSameBase cfg s (unitAddress cfg u) (resizePlan u k o) = (0, s) ∨
      ∃ s' T', poolTryResizeSameBase cfg s (unitAddress cfg u) (resizePlan u k o) =
        (unitAddress cfg u, s') ∧ PoolInv cfg s' T' ∧ Replaced T T' u u o := by
  have htotal := h.total_open hu
  have hle := h.shape.total_lt
  have hlt := cfg.bytes_lt
  rw [← htotal, Nat.mul_add] at hle
  unfold poolTryResizeSameBase resizePlan
  simp only [mul_div_poolMinimum]
  by_cases hshrink : o ≤ k
  · obtain ⟨n, rfl⟩ := Nat.exists_eq_add_of_le hshrink
    rw [if_pos hshrink, Nat.add_sub_cancel_left]
    obtain ⟨T₁, hhole, hsame⟩ := ((h.holeAt_of_allocated hu).with_used
      (sizeSub s.used (poolMinimum * 2 ^ (o + n) - poolMinimum * 2 ^ o))).poolSplit
    refine Or.inr ⟨_, _, rfl, hhole.close_allocated rfl rfl rfl rfl rfl ?_,
      replaced_of_hole hhole hsame⟩
    have hpow : poolMinimum * 2 ^ o ≤ poolMinimum * 2 ^ (o + n) :=
      Nat.mul_le_mul_left _ (Nat.pow_le_pow_right two_pos hshrink)
    simp only [poolSplit_used, poolSplit_maxOrder, hsame.total_eq, h.used]
    rw [← htotal, Nat.mul_add, Nat.mul_add]
    unfold sizeSub
    omega
  rw [if_neg hshrink]
  split
  · rename_i hgrow
    obtain ⟨n, rfl⟩ := Nat.exists_eq_add_of_le (not_le.mp hshrink).le
    rw [Nat.add_sub_cancel_left] at hgrow ⊢
    have hd := dvd_of_and_eq_zero hgrow.1
    rw [poolUpperFree_eq hd] at hgrow
    obtain ⟨s', u', T₁, heq, hhole, hsame, hused, hmax⟩ :=
      (h.holeAt_of_allocated hu).poolRemovePath hgrow.2
    rw [poolRemovePath_eq hd, Prod.mk.injEq] at heq
    obtain rfl : u = u' := Nat.eq_of_mul_eq_mul_left (by decide) heq.2
    rw [heq.1]
    exact Or.inr ⟨_, _, rfl, hhole.close_allocated (by simp) (by simp) (by simp) (by simp)
      (by simp) (by simpa using h.used_grow hu hhole hsame hused hmax),
      replaced_of_hole hhole hsame⟩
  · exact Or.inl rfl

/-- Growing through buddies on either side replaces the block, or changes nothing. -/
theorem tryGrowLower (h : PoolInv cfg s T) (hu : T u = some (k, .allocated)) (hko : k ≤ o) :
    minyarPoolTryGrowLower cfg s (poolMinimum * u) k o (poolMinimum * 2 ^ k)
        (poolMinimum * 2 ^ o) = (0, s) ∨
      ∃ s' u' T', minyarPoolTryGrowLower cfg s (poolMinimum * u) k o (poolMinimum * 2 ^ k)
        (poolMinimum * 2 ^ o) = (unitAddress cfg u', s') ∧ PoolInv cfg s' T' ∧
          Replaced T T' u u' o ∧ Fresh T u u' := by
  obtain ⟨n, rfl⟩ := Nat.exists_eq_add_of_le hko
  unfold minyarPoolTryGrowLower
  rw [Nat.add_sub_cancel_left]
  split
  · rename_i hfree
    obtain ⟨s', u', T₁, heq, hhole, hsame, hused, hmax⟩ :=
      (h.holeAt_of_allocated hu).poolRemovePath hfree
    simp only [heq, mul_div_poolMinimum]
    exact Or.inr ⟨_, u', _, rfl, hhole.clear.close_allocated (by simp) (by simp) (by simp)
      (by simp) (by simp) (by simpa using h.used_grow hu hhole hsame hused hmax),
      replaced_of_hole hhole hsame, fresh_of_hole hhole hsame⟩
  · exact Or.inl rfl

/-- The program may write into the allocated blocks. -/
theorem with_bytes (h : PoolInv cfg s T) {bytes : ByteMemory}
    (hbytes : ∀ a, (∀ u o, T u = some (o, .allocated) →
      a < unitAddress cfg u ∨ unitAddress cfg u + poolBlockSize o ≤ a) → bytes a = s.bytes a) :
    PoolInv cfg { s with bytes := bytes } T := by
  refine ⟨h.shape.congr (fun {v p} hv => ?_) rfl rfl rfl, h.map, h.noHole, h.used⟩
  have hpos : 0 < 2 ^ p := Nat.two_pow_pos p
  have hsame : ∀ a, unitAddress cfg v ≤ a → a < unitAddress cfg v + 16 → s.bytes a = bytes a := by
    intro a ha ha'
    refine (hbytes a fun u o hu => ?_).symm
    have hne : u ≠ v := by
      rintro rfl
      simp [hu] at hv
    rw [poolBlockSize_eq]
    unfold unitAddress at *
    rw [poolMinimum_eq] at *
    rcases Nat.lt_or_gt_of_ne hne with hlt | hlt
    · have := h.shape.tiles.disjoint hu hv hlt
      omega
    · have := h.shape.tiles.disjoint hv hu hlt
      omega
  unfold poolReadLink
  rw [readBytes_congr 8 fun a ha ha' => hsame a ha (by omega),
    readBytes_congr 8 fun a ha ha' => hsame a (by omega) (by omega)]

/-- An allocation hands out a new block, or it stops because there is none. -/
theorem allocate (h : PoolInv cfg s T) (size : ℕ) :
    ((minyarPoolTryAllocate cfg s size).1 = 0 ∧
        ∃ text, minyarPoolAllocate cfg s size = .error text) ∨
      ∃ s' u o T', minyarPoolAllocate cfg s size = .ok (unitAddress cfg u, s') ∧
        PoolInv cfg s' T' ∧ size ≤ poolMinimum * 2 ^ o ∧ (∀ p, T u ≠ some (p, .allocated)) ∧
        ∀ v p, T' v = some (p, .allocated) ↔ (v = u ∧ p = o) ∨ T v = some (p, .allocated) := by
  unfold minyarPoolAllocate
  rcases h.tryAllocate size with heq | ⟨s', u, o, T', heq, hrest⟩
  · rw [heq]
    exact Or.inl ⟨rfl, _, rfl⟩
  · rw [heq]
    exact Or.inr ⟨s', u, o, T', if_neg (unitAddress_ne_zero cfg u), hrest⟩

/-- Moving a block replaces it, or stops because there is no new block. -/
theorem move (h : PoolInv cfg s T) (hu : T u = some (k, .allocated)) {preserved size : ℕ}
    (hpreserved : preserved ≤ size) :
    ((minyarPoolTryAllocate cfg s size).1 = 0 ∧
        ∃ text, poolMove cfg s (unitAddress cfg u) preserved size = .error text) ∨
      ∃ s' u' o T', poolMove cfg s (unitAddress cfg u) preserved size =
        .ok (unitAddress cfg u', s') ∧ PoolInv cfg s' T' ∧ Replaced T T' u u' o ∧
        Fresh T u u' ∧ size ≤ poolMinimum * 2 ^ o := by
  unfold poolMove
  rcases h.allocate size with ⟨hzero, text, heq⟩ | ⟨s₁, u', o, T₁, heq, h₁, hsize, hnew, hiff⟩
  · rw [heq]
    exact Or.inl ⟨hzero, text, rfl⟩
  · have hu' : T₁ u' = some (o, .allocated) := (hiff u' o).mpr (Or.inl ⟨rfl, rfl⟩)
    have hcopy : PoolInv cfg { s₁ with
        bytes := copyBytes s₁.bytes (unitAddress cfg u') (unitAddress cfg u) preserved } T₁ := by
      refine h₁.with_bytes fun a ha => copyBytes_of_notMem ?_
      have := ha u' o hu'
      rw [poolBlockSize_eq] at this
      omega
    obtain ⟨s₂, T₂, heq₂, h₂, hiff₂⟩ := hcopy.deallocate ((hiff u k).mpr (Or.inr hu))
    rw [heq]
    refine Or.inr ⟨s₂, u', o, T₂, ?_, h₂, fun v p => ?_, fun _ => hnew, hsize⟩
    · simp only [Bind.bind, Except.bind, heq₂]
      rfl
    · rw [hiff₂, hiff]
      constructor
      · rintro ⟨hne, hv | hv⟩
        · exact Or.inl hv
        · exact Or.inr ⟨hne, hv⟩
      · rintro (⟨rfl, rfl⟩ | ⟨hne, hv⟩)
        · exact ⟨fun he => hnew k (he ▸ hu), Or.inl ⟨rfl, rfl⟩⟩
        · exact ⟨hne, Or.inr hv⟩

/-- A resize that does not stop replaces the block. -/
theorem resize (h : PoolInv cfg s T) (hu : T u = some (k, .allocated)) (oldSize size : ℕ) :
    (∃ text, minyarPoolResize cfg s (unitAddress cfg u) oldSize size = .error text) ∨
      ∃ s' u' o T', minyarPoolResize cfg s (unitAddress cfg u) oldSize size =
        .ok (unitAddress cfg u', s') ∧ PoolInv cfg s' T' ∧ Replaced T T' u u' o ∧
        Fresh T u u' := by
  unfold minyarPoolResize
  rw [if_neg (unitAddress_ne_zero cfg u)]
  rcases h.planResize hu size with ⟨text, heq⟩ | ⟨o, heq, -⟩
  · rw [heq]
    exact Or.inl ⟨text, rfl⟩
  · rw [heq]
    simp only [Bind.bind, Except.bind]
    rcases h.tryResizeSameBase hu o with hsame | ⟨s', T', hsame, hinv, hrep⟩
    · rw [hsame, if_neg (by simp)]
      refine (h.move hu (by split <;> omega)).imp And.right ?_
      rintro ⟨s', u', o', T', hmove, hinv, hrep, hfresh, -⟩
      exact ⟨s', u', o', T', hmove, hinv, hrep, hfresh⟩
    · rw [hsame, if_pos (unitAddress_ne_zero cfg u)]
      exact Or.inr ⟨s', u, o, T', rfl, hinv, hrep, fun hne => absurd rfl hne⟩

/-- A discarding resize that does not stop replaces the block. -/
theorem resizeDiscard (h : PoolInv cfg s T) (hu : T u = some (k, .allocated)) (size : ℕ) :
    (∃ text, minyarPoolResizeDiscard cfg s (unitAddress cfg u) size = .error text) ∨
      ∃ s' u' o T', minyarPoolResizeDiscard cfg s (unitAddress cfg u) size =
        .ok (unitAddress cfg u', s') ∧ PoolInv cfg s' T' ∧ Replaced T T' u u' o ∧
        Fresh T u u' := by
  unfold minyarPoolResizeDiscard
  rw [if_neg (unitAddress_ne_zero cfg u)]
  rcases h.planResize hu size with ⟨text, heq⟩ | ⟨o, heq, -⟩
  · rw [heq]
    exact Or.inl ⟨text, rfl⟩
  rw [heq]
  simp only [Bind.bind, Except.bind]
  rcases h.tryResizeSameBase hu o with hsame | ⟨s', T', hsame, hinv, hrep⟩
  · rw [hsame, if_neg (by simp)]
    have hmove : (∃ text, poolMove cfg s (unitAddress cfg u) 0 size = .error text) ∨
        ∃ s' u' o T', poolMove cfg s (unitAddress cfg u) 0 size =
          .ok (unitAddress cfg u', s') ∧ PoolInv cfg s' T' ∧ Replaced T T' u u' o ∧
          Fresh T u u' := by
      refine (h.move hu (Nat.zero_le size)).imp And.right ?_
      rintro ⟨s', u', o', T', hmove, hinv, hrep, hfresh, -⟩
      exact ⟨s', u', o', T', hmove, hinv, hrep, hfresh⟩
    have hko : k ≤ o := by
      by_contra hcon
      unfold poolTryResizeSameBase resizePlan at hsame
      rw [if_pos (not_le.mp hcon).le, Prod.mk.injEq] at hsame
      exact unitAddress_ne_zero cfg u hsame.1
    by_cases hoffset : (resizePlan u k o).offset &&& ((resizePlan u k o).target - 1) ≠ 0
    · rw [if_pos hoffset]
      rcases h.tryGrowLower hu hko with hlower | ⟨s', u', T', hlower, hinv, hrep⟩
      · simp only [resizePlan, hlower]
        rw [if_neg (by simp)]
        exact hmove
      · simp only [resizePlan, hlower]
        rw [if_pos (unitAddress_ne_zero cfg u')]
        exact Or.inr ⟨s', u', o, T', rfl, hinv, hrep⟩
    · rw [if_neg hoffset, if_neg (by simp)]
      exact hmove
  · rw [hsame, if_pos (unitAddress_ne_zero cfg u)]
    exact Or.inr ⟨s', u, o, T', rfl, hinv, hrep, fun hne => absurd rfl hne⟩

/-- The start-up loop finds the order of the whole pool. -/
theorem poolFit_bytes (cfg : PoolConfig) :
    poolMinimum * 2 ^ (poolFit cfg.bytes poolOrders 0 poolMinimum).1 = cfg.bytes := by
  obtain ⟨o, heq, -, hfit, hlow⟩ := poolFit_eq cfg.bytes poolOrders 0
  have hmin := cfg.min_bytes
  have hmax := cfg.max_bytes
  rw [pow_zero, Nat.mul_one] at heq
  have hpow : ∀ n, poolMinimum * 2 ^ n = 2 ^ (n + 5) := fun n => by
    rw [poolMinimum_eq, pow_add]
    ring
  rw [heq, hpow]
  simp only [hpow, PoolConfig.bytes] at hfit hlow ⊢
  have hpos : 0 < o := by
    rcases Nat.eq_zero_or_pos o with rfl | hpos
    · rcases hfit with hfit | hfit
      · omega
      · exact absurd hfit (by decide)
    · exact hpos
  have hlt := (Nat.pow_lt_pow_iff_right one_lt_two).mp (hlow hpos)
  rcases hfit with hfit | hfit
  · have := (Nat.pow_le_pow_iff_right one_lt_two).mp hfit
    congr 1
    omega
  · have : 2 ^ 68 < 2 ^ cfg.heapExponent :=
      Nat.pow_lt_pow_right one_lt_two (by simp only [poolOrders] at hfit; omega)
    omega

/-- The initial pool is one free block. -/
theorem poolInv_start (cfg : PoolConfig) :
    PoolInv cfg (minyarPoolInitialize cfg)
      (single (minyarPoolInitialize cfg).maxOrder .free) := by
  have hbytes := poolFit_bytes cfg
  unfold minyarPoolInitialize
  simp only [poolInsert_maxOrder]
  generalize (poolFit cfg.bytes poolOrders 0 poolMinimum).1 = M at hbytes
  have hnone : ∀ {u o t}, single M BlockTag.hole u = some (o, t) → u = 0 ∧ t = .hole := by
    intro u o t hu
    unfold single at hu
    rw [Function.update_apply] at hu
    split at hu <;> simp_all
  have hhole : HoleAt cfg { Pool.zero with maxOrder := M } (single M .hole) 0 M 0 0 := by
    refine ⟨⟨hbytes, single_tiles M BlockTag.hole, ?_, ?_, ?_⟩, Function.update_self _ _ _,
      fun hu => (hnone hu).1, ⟨le_rfl, by simp⟩, ?_⟩
    · exact fun hu => absurd (hnone hu).2 (by simp)
    · refine fun o => ⟨[], LinkedList.nil _ _, fun a => ?_⟩
      refine iff_of_false List.not_mem_nil ?_
      rintro ⟨u, hu, -⟩
      exact absurd (hnone hu).2 (by simp)
    · intro o ho
      simp [Pool.zero]
    · funext u
      simp only [Pool.zero, single, Function.update_apply]
      split <;> simp [tagByte]
  have htotal : total (single M BlockTag.hole) M isAllocated = 0 := by
    refine Finset.sum_eq_zero fun u _ => ?_
    unfold single
    rw [Function.update_apply]
    split <;> rfl
  have hclosed := hhole.close_free (fun hlt => absurd hlt (lt_irrefl _))
    (by simp [Pool.zero, htotal])
  unfold single at hclosed ⊢
  rwa [Function.update_idem] at hclosed

/-- With nothing allocated the pool is one free block of the maximal order. -/
theorem eq_single (h : PoolInv cfg s T) (hnone : ∀ u o, T u ≠ some (o, .allocated)) :
    T = single s.maxOrder .free := by
  have hfree : ∀ {u o t}, T u = some (o, t) → t = .free := by
    intro u o t hu
    cases t with
    | free => rfl
    | allocated => exact absurd hu (hnone u o)
    | hole => exact absurd hu (h.noHole u o)
  obtain ⟨t, ht⟩ := h.shape.tiles.eq_single fun {u o t r} hu ho hb => by
    obtain rfl := hfree hu
    obtain rfl := hfree hb
    exact h.shape.buddies hu ho hb
  obtain rfl := hfree ht
  funext u
  unfold single
  rw [Function.update_apply]
  split
  · rename_i hu
    rw [hu, ht]
  · by_cases hlt : u < 2 ^ s.maxOrder
    · exact h.shape.tiles.none_of_interior ht (by omega) (by omega)
    · exact h.shape.tiles.none_of_le (not_lt.mp hlt)

end PoolInv

/-! ## Runs -/

/-- The bytes of the block at a pointer, as the map has them. -/
def poolCapacity (cfg : PoolConfig) (s : Pool) (pointer : ℕ) : ℕ :=
  poolBlockSize ((s.map (poolMapIndex cfg pointer) &&& 0x7f) - 1)

/-- The pools that a run of calls on valid pointers reaches, each with the pointers that were
returned and not released.  Between the calls the program writes into the blocks it holds. -/
inductive PoolReachable (cfg : PoolConfig) : Pool → Set ℕ → Prop
  | start : PoolReachable cfg (minyarPoolInitialize cfg) ∅
  | tryAllocate {s live} (size : ℕ) : PoolReachable cfg s live →
      PoolReachable cfg (minyarPoolTryAllocate cfg s size).2
        (if (minyarPoolTryAllocate cfg s size).1 = 0 then live
        else insert (minyarPoolTryAllocate cfg s size).1 live)
  | deallocate {s s' live pointer} : PoolReachable cfg s live → pointer = 0 ∨ pointer ∈ live →
      minyarPoolDeallocate cfg s pointer = .ok s' → PoolReachable cfg s' (live \ {pointer})
  | resize {s live pointer result} (oldSize size : ℕ) : PoolReachable cfg s live →
      pointer = 0 ∨ pointer ∈ live →
      minyarPoolResize cfg s pointer oldSize size = .ok result →
      PoolReachable cfg result.2 (insert result.1 (live \ {pointer}))
  | resizeDiscard {s live pointer result} (size : ℕ) : PoolReachable cfg s live →
      pointer = 0 ∨ pointer ∈ live →
      minyarPoolResizeDiscard cfg s pointer size = .ok result →
      PoolReachable cfg result.2 (insert result.1 (live \ {pointer}))
  | store {s live} (bytes : ByteMemory) : PoolReachable cfg s live →
      (∀ a, (∀ p ∈ live, a < p ∨ p + poolCapacity cfg s p ≤ a) → bytes a = s.bytes a) →
      PoolReachable cfg { s with bytes := bytes } live

/-- The addresses of the allocated blocks. -/
def allocatedPointers (cfg : PoolConfig) (T : BlockMap BlockTag) : Set ℕ :=
  {p | ∃ u o, T u = some (o, .allocated) ∧ p = unitAddress cfg u}

/-- Releasing or replacing nothing. -/
theorem zero_notMem_allocatedPointers : 0 ∉ allocatedPointers cfg T := by
  rintro ⟨u, o, -, h⟩
  exact unitAddress_ne_zero cfg u h.symm

/-- A new block adds its address to the allocated pointers. -/
theorem allocatedPointers_insert
    (h : ∀ v p, T' v = some (p, .allocated) ↔ (v = u ∧ p = o) ∨ T v = some (p, .allocated)) :
    allocatedPointers cfg T' = insert (unitAddress cfg u) (allocatedPointers cfg T) := by
  ext a
  simp only [allocatedPointers, h, Set.mem_insert_iff, Set.mem_ofPred_eq]
  constructor
  · rintro ⟨v, p, ⟨rfl, -⟩ | hv, rfl⟩
    · exact Or.inl rfl
    · exact Or.inr ⟨v, p, hv, rfl⟩
  · rintro (rfl | ⟨v, p, hv, rfl⟩)
    · exact ⟨u, o, Or.inl ⟨rfl, rfl⟩, rfl⟩
    · exact ⟨v, p, Or.inr hv, rfl⟩

/-- A released block takes its address out of the allocated pointers. -/
theorem allocatedPointers_remove
    (h : ∀ v p, T' v = some (p, .allocated) ↔ v ≠ u ∧ T v = some (p, .allocated)) :
    allocatedPointers cfg T' = allocatedPointers cfg T \ {unitAddress cfg u} := by
  ext a
  simp only [allocatedPointers, h, Set.mem_sdiff, Set.mem_singleton_iff, Set.mem_ofPred_eq]
  constructor
  · rintro ⟨v, p, ⟨hne, hv⟩, rfl⟩
    exact ⟨⟨v, p, hv, rfl⟩, fun he => hne (unitAddress_injective cfg he)⟩
  · rintro ⟨⟨v, p, hv, rfl⟩, hne⟩
    exact ⟨v, p, ⟨fun he => hne (he ▸ rfl), hv⟩, rfl⟩

/-- A replaced block exchanges its address for the new one. -/
theorem allocatedPointers_replace {u' : ℕ} (h : PoolInv.Replaced T T' u u' o) :
    allocatedPointers cfg T' =
      insert (unitAddress cfg u') (allocatedPointers cfg T \ {unitAddress cfg u}) := by
  ext a
  simp only [allocatedPointers, h _ _, Set.mem_insert_iff, Set.mem_sdiff, Set.mem_singleton_iff,
    Set.mem_ofPred_eq]
  constructor
  · rintro ⟨v, p, ⟨rfl, -⟩ | ⟨hne, hv⟩, rfl⟩
    · exact Or.inl rfl
    · exact Or.inr ⟨⟨v, p, hv, rfl⟩, fun he => hne (unitAddress_injective cfg he)⟩
  · rintro (rfl | ⟨⟨v, p, hv, rfl⟩, hne⟩)
    · exact ⟨u', o, Or.inl ⟨rfl, rfl⟩, rfl⟩
    · exact ⟨v, p, Or.inr ⟨fun he => hne (he ▸ rfl), hv⟩, rfl⟩

/-- A resize of the null pointer is an allocation. -/
theorem PoolInv.reachable_allocate (h : PoolInv cfg s T) {size : ℕ} {result : ℕ × Pool}
    (hok : minyarPoolAllocate cfg s size = .ok result) :
    ∃ T', PoolInv cfg result.2 T' ∧
      insert result.1 (allocatedPointers cfg T \ {0}) = allocatedPointers cfg T' := by
  rcases h.allocate size with ⟨-, text, heq⟩ | ⟨s', u, o, T', heq, hT', -, -, hiff⟩
  · rw [heq] at hok
    cases hok
  · rw [heq, Except.ok.injEq] at hok
    subst hok
    rw [Set.sdiff_singleton_eq_self zero_notMem_allocatedPointers]
    exact ⟨T', hT', (allocatedPointers_insert hiff).symm⟩

/-- A resize that does not stop leaves the invariant and exchanges the pointer. -/
theorem reachable_replace {call : Except String (ℕ × Pool)} {result : ℕ × Pool}
    (hcall : (∃ text, call = .error text) ∨ ∃ s' u' o T', call = .ok (unitAddress cfg u', s') ∧
      PoolInv cfg s' T' ∧ PoolInv.Replaced T T' u u' o ∧ PoolInv.Fresh T u u')
    (hok : call = .ok result) :
    ∃ T', PoolInv cfg result.2 T' ∧
      insert result.1 (allocatedPointers cfg T \ {unitAddress cfg u}) =
        allocatedPointers cfg T' := by
  rcases hcall with ⟨text, heq⟩ | ⟨s', u', o, T', heq, hT', hrep, -⟩
  · rw [heq] at hok
    cases hok
  · rw [heq, Except.ok.injEq] at hok
    subst hok
    exact ⟨T', hT', (allocatedPointers_replace hrep).symm⟩

/-- The capacity of an allocated block is its size. -/
theorem PoolInv.poolCapacity (h : PoolInv cfg s T) (hu : T u = some (o, .allocated)) :
    poolCapacity cfg s (unitAddress cfg u) = poolBlockSize o := by
  have hmap : s.map u = 0x80 ||| (o + 1) := by rw [h.map, hu]; rfl
  have hbits := (allocatedByte_bits o (by have := h.shape.order_le hu; omega)).2
  rw [Minyar.poolCapacity, poolMapIndex_unitAddress, hmap, hbits]

/-- Every reachable pool satisfies the invariant, and its allocated blocks are the ones that the
program holds. -/
theorem PoolReachable.poolInv {live : Set ℕ} (h : PoolReachable cfg s live) :
    ∃ T, PoolInv cfg s T ∧ live = allocatedPointers cfg T := by
  induction h with
  | start =>
    refine ⟨_, PoolInv.poolInv_start cfg, ?_⟩
    refine (Set.eq_empty_of_forall_notMem fun a => ?_).symm
    rintro ⟨u, o, hu, -⟩
    unfold single at hu
    rw [Function.update_apply] at hu
    split at hu <;> simp at hu
  | tryAllocate size _ ih =>
    obtain ⟨T, hT, rfl⟩ := ih
    rcases hT.tryAllocate size with heq | ⟨s', u, o, T', heq, hT', -, -, hiff⟩
    · rw [heq]
      exact ⟨T, hT, if_pos rfl⟩
    · rw [heq, if_neg (unitAddress_ne_zero cfg u)]
      exact ⟨T', hT', (allocatedPointers_insert hiff).symm⟩
  | deallocate _ hvalid hok ih =>
    obtain ⟨T, hT, rfl⟩ := ih
    rcases hvalid with rfl | ⟨u, o, hu, rfl⟩
    · rw [minyarPoolDeallocate, if_pos rfl, Except.ok.injEq] at hok
      subst hok
      exact ⟨T, hT, Set.sdiff_singleton_eq_self zero_notMem_allocatedPointers⟩
    · obtain ⟨s', T', heq, hT', hiff⟩ := hT.deallocate hu
      rw [heq, Except.ok.injEq] at hok
      subst hok
      exact ⟨T', hT', (allocatedPointers_remove hiff).symm⟩
  | resize oldSize size _ hvalid hok ih =>
    obtain ⟨T, hT, rfl⟩ := ih
    rcases hvalid with rfl | ⟨u, o, hu, rfl⟩
    · rw [minyarPoolResize, if_pos rfl] at hok
      exact hT.reachable_allocate hok
    · exact reachable_replace (hT.resize hu oldSize size) hok
  | resizeDiscard size _ hvalid hok ih =>
    obtain ⟨T, hT, rfl⟩ := ih
    rcases hvalid with rfl | ⟨u, o, hu, rfl⟩
    · rw [minyarPoolResizeDiscard, if_pos rfl] at hok
      exact hT.reachable_allocate hok
    · exact reachable_replace (hT.resizeDiscard hu size) hok
  | store bytes _ hbytes ih =>
    obtain ⟨T, hT, rfl⟩ := ih
    refine ⟨T, hT.with_bytes fun a ha => hbytes a ?_, rfl⟩
    rintro p ⟨u, o, hu, rfl⟩
    rw [hT.poolCapacity hu]
    exact ha u o hu

/-- Every reachable pool is tiled by aligned free and allocated blocks that the map, the free
lists, the mask and the byte count describe, without two free buddies; with nothing allocated it
is one free block of the maximal order. -/
theorem poolReachable_invariant (cfg : PoolConfig) (s : Pool) (live : Set ℕ)
    (h : PoolReachable cfg s live) :
    ∃ T, PoolInv cfg s T ∧ live = allocatedPointers cfg T ∧
      (live = ∅ → T = single s.maxOrder .free) := by
  obtain ⟨T, hT, hlive⟩ := h.poolInv
  refine ⟨T, hT, hlive, fun hempty => hT.eq_single fun u o hu => ?_⟩
  have hmem : unitAddress cfg u ∈ live := hlive ▸ ⟨u, o, hu, rfl⟩
  rw [hempty] at hmem
  exact hmem

/-- A pool of one page. -/
def pagePool : PoolConfig where
  base := 4096
  heapExponent := 12
  base_pos := by decide
  min_bytes := by decide
  max_bytes := by decide
  fits := by decide

/-- The invariant after a first allocation from a pool of one page, which hands out its start. -/
theorem poolReachable_invariant_page :
    (minyarPoolTryAllocate pagePool (minyarPoolInitialize pagePool) 100).1 = 4096 ∧
      ∃ T, PoolInv pagePool (minyarPoolTryAllocate pagePool (minyarPoolInitialize pagePool) 100).2
        T ∧ allocatedPointers pagePool T = {4096} := by
  have hpointer : (minyarPoolTryAllocate pagePool (minyarPoolInitialize pagePool) 100).1 = 4096 := by
    decide
  have hreach := PoolReachable.tryAllocate 100 (PoolReachable.start : PoolReachable pagePool _ _)
  rw [if_neg (by rw [hpointer]; decide), hpointer] at hreach
  obtain ⟨T, hT, hlive, -⟩ := poolReachable_invariant pagePool _ _ hreach
  exact ⟨hpointer, T, hT, by rw [← hlive, insert_empty_eq]⟩

end Minyar

import Minyar.Pool.Invariant

/-!
# A call in progress: the hole and the loops over the orders

Every call of the allocator opens one hole, works on it, and closes it.  `HoleAt` describes the
states in between: the hole is the only block that is neither free nor allocated, and the map is
that of the tiling except for one byte inside the hole, which the call rewrites at its end.  A
hole is split by inserting its upper half and merged with its buddy by removing the buddy; the
loops of the allocator repeat one of the two steps.
-/

namespace Minyar

open BlockMap

variable {cfg : PoolConfig} {s s' : Pool} {T T' : BlockMap BlockTag} {u v k n o w c : ℕ}

/-- The block of order `k` at `u` is the only hole, and the map is that of the tiling but for the
byte of the unit `w` of the hole, which is `c`. -/
structure HoleAt (cfg : PoolConfig) (s : Pool) (T : BlockMap BlockTag) (u k w c : ℕ) : Prop where
  /-- The lists and the mask describe the free blocks. -/
  shape : PoolShape cfg s T
  /-- The hole is a block. -/
  hole : T u = some (k, .hole)
  /-- There is no other hole. -/
  only : ∀ {v o}, T v = some (o, .hole) → v = u
  /-- The stale unit belongs to the hole. -/
  stale_mem : u ≤ w ∧ w < u + 2 ^ k
  /-- Only the byte of the stale unit differs from the tiling. -/
  map : s.map = Function.update (fun v => tagByte (T v)) w c

/-- Two block maps have the same allocated blocks. -/
def SameAllocated (T T' : BlockMap BlockTag) : Prop :=
  ∀ v o, T' v = some (o, .allocated) ↔ T v = some (o, .allocated)

theorem SameAllocated.refl (T : BlockMap BlockTag) : SameAllocated T T := fun _ _ => Iff.rfl

theorem SameAllocated.trans {T'' : BlockMap BlockTag} (h : SameAllocated T T')
    (h' : SameAllocated T' T'') : SameAllocated T T'' := fun v o => (h' v o).trans (h v o)

/-- The same allocated blocks have the same number of units. -/
theorem SameAllocated.total_eq (h : SameAllocated T T') (M : ℕ) :
    T'.total M isAllocated = T.total M isAllocated := by
  have hunits : ∀ x : Option (ℕ × BlockTag), units isAllocated x ≠ 0 →
      ∃ o, x = some (o, .allocated) := by
    rintro (_ | ⟨o, t⟩) hx
    · exact absurd rfl hx
    · cases t
      · exact absurd rfl hx
      · exact ⟨o, rfl⟩
      · exact absurd rfl hx
  refine Finset.sum_congr rfl fun v _ => ?_
  by_cases hz : units isAllocated (T v) = 0
  · rw [hz]
    by_contra hne
    obtain ⟨o, ho⟩ := hunits _ hne
    rw [(h v o).mp ho] at hz
    exact (Nat.two_pow_pos o).ne' hz
  · obtain ⟨o, ho⟩ := hunits _ hz
    rw [ho, (h v o).mpr ho]

/-- Exchanging blocks that are not allocated keeps the allocated blocks. -/
theorem SameAllocated.update {x : Option (ℕ × BlockTag)}
    (hx : ∀ o, x ≠ some (o, .allocated)) (hu : ∀ o, T u ≠ some (o, .allocated)) :
    SameAllocated T (Function.update T u x) := by
  intro v o
  rw [Function.update_apply]
  split
  · rename_i hv
    exact iff_of_false (hx o) (hv ▸ hu o)
  · rfl

/-- The map byte of a free block is that of no other unit. -/
theorem eq_free_of_tagByte {x : Option (ℕ × BlockTag)} (ho : o ≤ 57) (hx : tagByte x = o + 1) :
    x = some (o, .free) := by
  rcases x with _ | ⟨p, t⟩
  · exact absurd hx (by simp [tagByte])
  · cases t with
    | free =>
      simp only [tagByte] at hx
      rw [show p = o by omega]
    | allocated =>
      have : 0x80 ≤ 0x80 ||| (p + 1) := Nat.left_le_or
      simp only [tagByte] at hx
      omega
    | hole => exact absurd hx (by simp [tagByte])

namespace HoleAt

/-- The buddy of the hole lies outside it. -/
theorem buddy_ne_stale (h : HoleAt cfg s T u k w c) : buddy u k ≠ w := by
  have := h.stale_mem
  rcases buddy_cases (h.shape.tiles.aligned h.hole) with ⟨-, hb⟩ | ⟨-, hb⟩ <;> omega

/-- A buddy whose map byte says so is free. -/
theorem buddy_free (h : HoleAt cfg s T u k w c) (hb : s.map (buddy u k) = k + 1) :
    T (buddy u k) = some (k, .free) := by
  rw [h.map, Function.update_of_ne h.buddy_ne_stale] at hb
  exact eq_free_of_tagByte (h.shape.order_le h.hole) hb

/-- A buddy whose map byte does not say so is not free. -/
theorem buddy_not_free (h : HoleAt cfg s T u k w c) (hb : s.map (buddy u k) ≠ k + 1) :
    T (buddy u k) ≠ some (k, .free) := by
  intro hf
  rw [h.map, Function.update_of_ne h.buddy_ne_stale, hf] at hb
  exact hb rfl

/-- Removing a free buddy merges it into the hole. -/
theorem merge (h : HoleAt cfg s T u k w c) (hb : s.map (buddy u k) = k + 1) :
    ∃ T', HoleAt cfg (poolRemove cfg s (unitAddress cfg (buddy u k)) k) T'
      (min u (buddy u k)) (k + 1) w c ∧ SameAllocated T T' := by
  have hfree := h.buddy_free hb
  have hd := h.shape.tiles.aligned h.hole
  have hpos : 0 < 2 ^ k := Nat.two_pow_pos k
  have hpow : 2 ^ (k + 1) = 2 ^ k + 2 ^ k := by rw [pow_succ]; omega
  have hmem := h.stale_mem
  set m := min u (buddy u k) with hm
  have hsides : (m = u ∧ buddy u k = m + 2 ^ k) ∨ (m = buddy u k ∧ u = m + 2 ^ k) := by
    rcases buddy_cases hd with ⟨-, hb'⟩ | ⟨-, hb'⟩ <;> omega
  have hshape := h.shape.remove hfree
  set T₁ := Function.update T (buddy u k) (some (k, .hole)) with hT₁
  have hlow : T₁ m = some (k, .hole) ∧ T₁ (m + 2 ^ k) = some (k, .hole) := by
    have hne := buddy_ne u k
    have hu₁ : T₁ u = some (k, .hole) := by rw [hT₁, Function.update_of_ne hne.symm, h.hole]
    have hb₁ : T₁ (buddy u k) = some (k, .hole) := Function.update_self _ _ _
    rcases hsides with ⟨he, he'⟩ | ⟨he, he'⟩
    · rw [← he', he]
      exact ⟨hu₁, hb₁⟩
    · rw [← he', he]
      exact ⟨hb₁, hu₁⟩
  have hT₂ : ∀ v, BlockMap.merge T₁ m k .hole v =
      if v = m then some (k + 1, .hole) else if v = m + 2 ^ k then none else T v := by
    intro v
    simp only [BlockMap.merge, hT₁, Function.update_apply]
    split
    · rfl
    · split
      · rfl
      · rw [if_neg (by omega)]
  refine ⟨BlockMap.merge T₁ m k .hole, ⟨?_, ?_, ?_, ?_, ?_⟩, ?_⟩
  · refine hshape.of_free_iff
      (hshape.tiles.merge (min_buddy_dvd hd) hlow.1 hlow.2 .hole) fun v p => ?_
    rw [hT₂]
    split
    · rename_i hv
      rw [hv, hlow.1]
      simp
    · split
      · rename_i hv
        rw [hv, hlow.2]
        simp
      · rw [hT₁, Function.update_of_ne (by omega)]
  · exact Function.update_self _ _ _
  · intro v p hv
    rw [hT₂] at hv
    split at hv
    · assumption
    · split at hv
      · exact absurd hv (by simp)
      · have := h.only hv
        omega
  · omega
  · funext v
    rw [poolRemove_map, poolMapIndex_unitAddress, h.map]
    simp only [Function.update_apply, hT₂]
    have hne := h.buddy_ne_stale
    by_cases hvb : v = buddy u k
    · rw [if_pos hvb, if_neg (by omega)]
      split
      · rfl
      · rw [if_pos (by omega)]
        rfl
    · rw [if_neg hvb]
      split
      · rfl
      · by_cases hvu : v = u
        · rw [hvu, h.hole]
          split
          · rfl
          · rw [if_pos (by omega)]
            rfl
        · rw [if_neg (by omega), if_neg (by omega)]
  · intro v p
    rw [hT₂]
    by_cases hv : v = u ∨ v = buddy u k
    · have hold : T v ≠ some (p, .allocated) := by
        rcases hv with rfl | rfl
        · simp [h.hole]
        · simp [hfree]
      refine iff_of_false ?_ hold
      split
      · simp
      · split
        · simp
        · exact hold
    · rw [if_neg (by omega), if_neg (by omega)]

/-- Inserting the upper half of the hole leaves the lower half as the hole. -/
theorem split (h : HoleAt cfg s T u (k + 1) u c) :
    ∃ T', HoleAt cfg (poolInsert cfg s (unitAddress cfg (u + 2 ^ k)) k) T' u k u c ∧
      SameAllocated T T' := by
  have hpos : 0 < 2 ^ k := Nat.two_pow_pos k
  have hpow : 2 ^ (k + 1) = 2 ^ k + 2 ^ k := by rw [pow_succ]; omega
  have hnone : T (u + 2 ^ k) = none :=
    h.shape.tiles.none_of_interior h.hole (by omega) (by omega)
  have hb : buddy (u + 2 ^ k) k = u := by
    rw [← buddy_of_dvd (h.shape.tiles.aligned h.hole), buddy_buddy]
  set T₁ := T.split u k .hole .hole with hT₁
  have hT₁v : ∀ v, T₁ v =
      if v = u then some (k, .hole) else if v = u + 2 ^ k then some (k, .hole) else T v := by
    intro v
    simp only [hT₁, BlockMap.split, Function.update_apply]
  have hupper : T₁ (u + 2 ^ k) = some (k, .hole) := by
    rw [hT₁v, if_neg (by omega), if_pos rfl]
  have hshape : PoolShape cfg s T₁ := by
    refine h.shape.of_free_iff (h.shape.tiles.split h.hole .hole .hole) fun v p => ?_
    rw [hT₁v]
    split
    · simp [*, h.hole]
    · split <;> simp [*]
  refine ⟨Function.update T₁ (u + 2 ^ k) (some (k, .free)), ⟨?_, ?_, ?_, ?_, ?_⟩, ?_⟩
  · refine hshape.insert hupper fun _ => ?_
    rw [hb, hT₁v, if_pos rfl]
    simp
  · rw [Function.update_of_ne (by omega), hT₁v, if_pos rfl]
  · intro v p hv
    rw [Function.update_apply, hT₁v] at hv
    split at hv
    · exact absurd hv (by simp)
    · split at hv
      · assumption
      · exact h.only hv
  · omega
  · have hbyte : freeByte k = k + 1 :=
      Nat.mod_eq_of_lt (by have := h.shape.order_le h.hole; omega)
    funext v
    rw [poolInsert_map, poolMapIndex_unitAddress, h.map]
    simp only [Function.update_apply, hT₁v]
    by_cases hv : v = u + 2 ^ k
    · rw [if_pos hv, if_neg (by omega), if_pos hv, hbyte]
      rfl
    · rw [if_neg hv, if_neg hv]
      split <;> rfl
  · intro v p
    rw [Function.update_apply, hT₁v]
    split
    · rename_i hv
      exact iff_of_false (by simp) (by simp [hv, hnone])
    · split
      · rename_i hv
        exact iff_of_false (by simp) (by simp [hv, h.hole])
      · rfl

/-- A hole whose stale byte is cleared has no stale byte. -/
theorem clear (h : HoleAt cfg s T u k w c) :
    HoleAt cfg { s with map := Function.update s.map w 0 } T u k u 0 := by
  have hpos : 0 < 2 ^ k := Nat.two_pow_pos k
  have hw : tagByte (T w) = 0 := by
    by_cases hwu : w = u
    · rw [hwu, h.hole]
      rfl
    · have := h.stale_mem
      rw [h.shape.tiles.none_of_interior h.hole (by omega) this.2]
      rfl
  refine ⟨h.shape.congr (fun _ => rfl) rfl rfl rfl, h.hole, h.only, ⟨le_rfl, by omega⟩, ?_⟩
  simp only [h.map, Function.update_idem]
  funext v
  simp only [Function.update_apply]
  split
  · rename_i hv
    subst hv
    split
    · rfl
    · exact hw.symm
  · split
    · rename_i hv
      rw [hv, h.hole]
      rfl
    · rfl

/-- The byte count plays no part in the shape of the hole. -/
theorem with_used (h : HoleAt cfg s T u k w c) (used : ℕ) :
    HoleAt cfg { s with used := used } T u k w c :=
  ⟨h.shape.congr (fun _ => rfl) rfl rfl rfl, h.hole, h.only, h.stale_mem, h.map⟩

end HoleAt

/-! ## The loops -/

@[simp] theorem poolSplit_used (cfg : PoolConfig) (a o n : ℕ) (s : Pool) :
    (poolSplit cfg a o n s).used = s.used := by
  induction n generalizing s with
  | zero => rfl
  | succ n ih => rw [poolSplit, ih, poolInsert_used]

@[simp] theorem poolSplit_maxOrder (cfg : PoolConfig) (a o n : ℕ) (s : Pool) :
    (poolSplit cfg a o n s).maxOrder = s.maxOrder := by
  induction n generalizing s with
  | zero => rfl
  | succ n ih => rw [poolSplit, ih, poolInsert_maxOrder]

/-- The splitting loop cuts the hole down to the wanted order. -/
theorem HoleAt.poolSplit (h : HoleAt cfg s T u (o + n) u c) :
    ∃ T', HoleAt cfg (poolSplit cfg (unitAddress cfg u) o n s) T' u o u c ∧
      SameAllocated T T' := by
  induction n generalizing s T with
  | zero => exact ⟨T, h, SameAllocated.refl T⟩
  | succ n ih =>
    obtain ⟨T₁, h₁, hsame₁⟩ := h.split
    obtain ⟨T₂, h₂, hsame₂⟩ := ih h₁
    rw [unitAddress_add] at h₂
    exact ⟨T₂, h₂, hsame₁.trans hsame₂⟩

/-- The lower of two byte offsets of units. -/
theorem ite_poolMinimum (u v : ℕ) :
    (if poolMinimum * v < poolMinimum * u then poolMinimum * v else poolMinimum * u) =
      poolMinimum * min u v := by
  rw [poolMinimum_eq]
  split <;> omega

/-- The merging loop ends with a hole that fills the pool or whose buddy is not free. -/
theorem HoleAt.poolCoalesce (h : HoleAt cfg s T u k w c) (hn : k + n = s.maxOrder) :
    ∃ s' u' k' T', poolCoalesce cfg n s (poolMinimum * u) k = (s', poolMinimum * u', k') ∧
      HoleAt cfg s' T' u' k' w c ∧ SameAllocated T T' ∧
      (k' < s'.maxOrder → T' (buddy u' k') ≠ some (k', .free)) ∧
      s'.used = s.used ∧ s'.maxOrder = s.maxOrder := by
  induction n generalizing s T u k with
  | zero => exact ⟨s, u, k, T, rfl, h, SameAllocated.refl T, fun hlt => by omega, rfl, rfl⟩
  | succ n ih =>
    simp only [Minyar.poolCoalesce, xor_poolBlockSize, mul_div_poolMinimum, ite_poolMinimum]
    by_cases hb : s.map (buddy u k) = k + 1
    · rw [if_neg (not_not.mpr hb)]
      obtain ⟨T₁, h₁, hsame₁⟩ := h.merge hb
      obtain ⟨s', u', k', T', heq, h', hsame, hbuddy, hused, hmax⟩ := ih h₁ (by simp; omega)
      exact ⟨s', u', k', T', heq, h', hsame₁.trans hsame, hbuddy, by simpa using hused,
        by simpa using hmax⟩
    · rw [if_pos hb]
      exact ⟨s, u, k, T, rfl, h, SameAllocated.refl T, fun _ => h.buddy_not_free hb, rfl, rfl⟩

/-- The scan reads map bytes outside the block alone. -/
theorem poolPathFree_congr (hd : 2 ^ k ∣ u)
    (hmap : ∀ v, ¬ (u ≤ v ∧ v < u + 2 ^ k) → s'.map v = s.map v) :
    poolPathFree s' n (poolMinimum * u) k = poolPathFree s n (poolMinimum * u) k := by
  induction n generalizing u k with
  | zero => rfl
  | succ n ih =>
    have hpos : 0 < 2 ^ k := Nat.two_pow_pos k
    have hpow : 2 ^ (k + 1) = 2 ^ k + 2 ^ k := by rw [pow_succ]; omega
    have hsides := buddy_cases hd
    simp only [poolPathFree, xor_poolBlockSize, mul_div_poolMinimum, ite_poolMinimum]
    rw [hmap _ (by omega), ih (min_buddy_dvd hd) fun v hv => hmap v (by omega)]

/-- The loop along a path of free buddies merges the hole with all of them. -/
theorem HoleAt.poolRemovePath (h : HoleAt cfg s T u k w c)
    (hfree : poolPathFree s n (poolMinimum * u) k = true) :
    ∃ s' u' T', poolRemovePath cfg n (poolMinimum * u) k s = (s', poolMinimum * u') ∧
      HoleAt cfg s' T' u' (k + n) w c ∧ SameAllocated T T' ∧
      s'.used = s.used ∧ s'.maxOrder = s.maxOrder := by
  induction n generalizing s T u k with
  | zero => exact ⟨s, u, T, rfl, h, SameAllocated.refl T, rfl, rfl⟩
  | succ n ih =>
    have hd := h.shape.tiles.aligned h.hole
    simp only [poolPathFree, xor_poolBlockSize, mul_div_poolMinimum, ite_poolMinimum,
      Bool.and_eq_true, decide_eq_true_eq] at hfree
    simp only [Minyar.poolRemovePath, xor_poolBlockSize, ite_poolMinimum]
    obtain ⟨T₁, h₁, hsame₁⟩ := h.merge hfree.1
    have hpos : 0 < 2 ^ k := Nat.two_pow_pos k
    have hpow : 2 ^ (k + 1) = 2 ^ k + 2 ^ k := by rw [pow_succ]; omega
    have hrest : poolPathFree (poolRemove cfg s (unitAddress cfg (buddy u k)) k) n
        (poolMinimum * min u (buddy u k)) (k + 1) = true := by
      refine (poolPathFree_congr (min_buddy_dvd hd) fun v hv => ?_).trans hfree.2
      have := buddy_cases hd
      rw [poolRemove_map, poolMapIndex_unitAddress, Function.update_of_ne (by omega)]
    obtain ⟨s', u', T', heq, h', hsame, hused, hmax⟩ := ih h₁ hrest
    rw [show k + (n + 1) = k + 1 + n by omega]
    exact ⟨s', u', T', heq, h', hsame₁.trans hsame, by simpa using hused, by simpa using hmax⟩

/-- For a block aligned to the wanted size all buddies on the path are upper ones. -/
theorem poolUpperFree_eq (hd : 2 ^ (k + n) ∣ u) :
    poolUpperFree s (poolMinimum * u) n k = poolPathFree s n (poolMinimum * u) k := by
  induction n generalizing k with
  | zero => rfl
  | succ n ih =>
    have hb := buddy_of_dvd ((pow_dvd_pow 2 (show k + 1 ≤ k + (n + 1) by omega)).trans hd)
    simp only [poolUpperFree, poolPathFree, xor_poolBlockSize, ite_poolMinimum, hb,
      min_eq_left (Nat.le_add_right u (2 ^ k))]
    rw [ih (by rwa [show k + 1 + n = k + (n + 1) by omega]), poolBlockSize_eq, ← Nat.mul_add]

/-- The loop over the upper buddies is the loop along the path, and the block keeps its base. -/
theorem poolRemovePath_eq (hd : 2 ^ (k + n) ∣ u) (s : Pool) :
    poolRemovePath cfg n (poolMinimum * u) k s =
      (poolRemoveUpper cfg (poolMinimum * u) n k s, poolMinimum * u) := by
  induction n generalizing k s with
  | zero => rfl
  | succ n ih =>
    have hb := buddy_of_dvd ((pow_dvd_pow 2 (show k + 1 ≤ k + (n + 1) by omega)).trans hd)
    simp only [poolRemovePath, poolRemoveUpper, xor_poolBlockSize, ite_poolMinimum, hb,
      min_eq_left (Nat.le_add_right u (2 ^ k))]
    rw [ih (by rwa [show k + 1 + n = k + (n + 1) by omega]), poolBlockSize_eq, Nat.mul_add,
      Nat.add_assoc]

end Minyar

import Minyar.Pool.Calls

/-!
# The bytes that a call leaves alone

The links of the free lists are written into the free blocks, and into nothing else: a byte that
lies in no free block keeps its value while blocks are split and merged, unless the call frees the
block that it lies in.  A resize therefore preserves the contents of the block and of all other
allocated blocks.

Whether a block is free is read from the map here, because a call in progress hides its tiling.
-/

namespace Minyar

open BlockMap

variable {cfg : PoolConfig} {s s' : Pool} {T T' : BlockMap BlockTag} {u v k n o w c a : ℕ}

/-- A byte outside a block. -/
def OutsideBlock (cfg : PoolConfig) (u o a : ℕ) : Prop :=
  a < unitAddress cfg u ∨ unitAddress cfg u + poolBlockSize o ≤ a

/-- A byte outside all blocks that the map shows as free. -/
def OutsideFree (cfg : PoolConfig) (s : Pool) (a : ℕ) : Prop :=
  ∀ v p, p ≤ 57 → s.map v = p + 1 → OutsideBlock cfg v p a

/-! ## Links -/

/-- The links of a block lie in it. -/
theorem OutsideBlock.link (h : OutsideBlock cfg u o a) :
    a < unitAddress cfg u ∨ unitAddress cfg u + 16 ≤ a := by
  have hpos : 0 < 2 ^ o := Nat.two_pow_pos o
  refine h.imp id fun hle => ?_
  rw [poolBlockSize_eq, poolMinimum_eq] at hle
  omega

/-- A write of links is seen in sixteen bytes. -/
theorem poolWriteLink_bytes {link : ℕ} (value : PoolLink) (h : a < link ∨ link + 16 ≤ a) :
    (poolWriteLink s link value).bytes a = s.bytes a := by
  unfold poolWriteLink
  simp only
  rw [writeBytes_of_notMem 8 _ _ _ (by omega), writeBytes_of_notMem 8 _ _ _ (by omega)]

/-- An insertion writes the links of the block and of the head of the list. -/
theorem poolInsert_bytes {link : ℕ} (h : a < link ∨ link + 16 ≤ a)
    (hhead : s.free o = 0 ∨ a < s.free o ∨ s.free o + 16 ≤ a) :
    (poolInsert cfg s link o).bytes a = s.bytes a := by
  unfold poolInsert
  simp only
  by_cases hzero : s.free o = 0
  · rw [if_neg (not_not.mpr hzero)]
    exact poolWriteLink_bytes _ h
  · rw [if_pos hzero]
    exact (poolWriteLink_bytes _ (hhead.resolve_left hzero)).trans (poolWriteLink_bytes _ h)

/-- A removal writes the links of the neighbours in the list. -/
theorem poolRemove_bytes {link : ℕ}
    (hprevious : (poolReadLink s link).previous = 0 ∨ a < (poolReadLink s link).previous ∨
      (poolReadLink s link).previous + 16 ≤ a)
    (hnext : (poolReadLink s link).next = 0 ∨ a < (poolReadLink s link).next ∨
      (poolReadLink s link).next + 16 ≤ a) :
    (poolRemove cfg s link o).bytes a = s.bytes a := by
  obtain ⟨s₁, hs₁, hbytes₁⟩ : ∃ s₁ : Pool, s₁ = (if (poolReadLink s link).previous ≠ 0 then
        poolWriteLink s (poolReadLink s link).previous
          { poolReadLink s (poolReadLink s link).previous with next := (poolReadLink s link).next }
      else { s with free := Function.update s.free o (poolReadLink s link).next }) ∧
      s₁.bytes a = s.bytes a := by
    refine ⟨_, rfl, ?_⟩
    by_cases hzero : (poolReadLink s link).previous = 0
    · rw [if_neg (not_not.mpr hzero)]
    · rw [if_pos hzero]
      exact poolWriteLink_bytes _ (hprevious.resolve_left hzero)
  obtain ⟨s₂, hs₂, hbytes₂⟩ : ∃ s₂ : Pool, s₂ = (if (poolReadLink s link).next ≠ 0 then
        poolWriteLink s₁ (poolReadLink s link).next
          { poolReadLink s₁ (poolReadLink s link).next with
            previous := (poolReadLink s link).previous }
      else s₁) ∧ s₂.bytes a = s₁.bytes a := by
    refine ⟨_, rfl, ?_⟩
    by_cases hzero : (poolReadLink s link).next = 0
    · rw [if_neg (not_not.mpr hzero)]
    · rw [if_pos hzero]
      exact poolWriteLink_bytes _ (hnext.resolve_left hzero)
  unfold poolRemove
  simp only [← hs₁, ← hs₂]
  by_cases hfree : s₂.free o = 0
  · rw [if_pos hfree]
    exact hbytes₂.trans hbytes₁
  · rw [if_neg hfree]
    exact hbytes₂.trans hbytes₁

namespace PoolShape

/-- The neighbours of a free block in its list are free blocks. -/
theorem neighbours (h : PoolShape cfg s T) (hu : T u = some (o, .free)) :
    ((poolReadLink s (unitAddress cfg u)).previous = 0 ∨ ∃ w, T w = some (o, .free) ∧
        (poolReadLink s (unitAddress cfg u)).previous = unitAddress cfg w) ∧
      ((poolReadLink s (unitAddress cfg u)).next = 0 ∨ ∃ w, T w = some (o, .free) ∧
        (poolReadLink s (unitAddress cfg u)).next = unitAddress cfg w) := by
  obtain ⟨l, hl, hmem⟩ := h.lists o
  have hlink := hl.link_mem ((hmem _).mpr ⟨u, hu, rfl⟩)
  exact ⟨hlink.1.imp_right fun hm => (hmem _).mp hm, hlink.2.imp_right fun hm => (hmem _).mp hm⟩

/-- A removal leaves the bytes outside the free blocks alone. -/
theorem remove_bytes (h : PoolShape cfg s T) (hu : T u = some (o, .free))
    (ha : ∀ v p, T v = some (p, .free) → OutsideBlock cfg v p a) :
    (poolRemove cfg s (unitAddress cfg u) o).bytes a = s.bytes a := by
  obtain ⟨hprevious, hnext⟩ := h.neighbours hu
  refine poolRemove_bytes ?_ ?_
  · rcases hprevious with hzero | ⟨w, hw, heq⟩
    · exact Or.inl hzero
    · rw [heq]
      exact Or.inr (ha w o hw).link
  · rcases hnext with hzero | ⟨w, hw, heq⟩
    · exact Or.inl hzero
    · rw [heq]
      exact Or.inr (ha w o hw).link

/-- An insertion leaves the bytes outside the free blocks and the inserted one alone. -/
theorem insert_bytes (h : PoolShape cfg s T) (hu : OutsideBlock cfg u o a)
    (ha : ∀ v p, T v = some (p, .free) → OutsideBlock cfg v p a) :
    (poolInsert cfg s (unitAddress cfg u) o).bytes a = s.bytes a := by
  refine poolInsert_bytes hu.link ?_
  rcases h.head_cases o with hzero | ⟨w, hw, heq⟩
  · exact Or.inl hzero
  · rw [heq]
    exact Or.inr (ha w o hw).link

end PoolShape

/-! ## The loops -/

/-- The stale byte of a hole looks like no free block. -/
def StaleByte (c : ℕ) : Prop := c = 0 ∨ 0x80 ≤ c

theorem staleByte_allocatedByte (ho : o ≤ 57) : StaleByte (allocatedByte o) := by
  rw [allocatedByte_eq ho]
  exact Or.inr Nat.left_le_or

namespace HoleAt

/-- The map shows the free blocks. -/
theorem free_iff (h : HoleAt cfg s T u k w c) (hc : StaleByte c) (v p : ℕ) :
    T v = some (p, .free) ↔ p ≤ 57 ∧ s.map v = p + 1 := by
  have hmem := h.stale_mem
  have hstale : ∀ p, T w ≠ some (p, .free) := by
    intro p hw
    by_cases hwu : w = u
    · rw [hwu, h.hole] at hw
      cases hw
    · rw [h.shape.tiles.none_of_interior h.hole (by omega) hmem.2] at hw
      cases hw
  rw [h.map, Function.update_apply]
  constructor
  · intro hv
    have hne : v ≠ w := by
      rintro rfl
      exact hstale p hv
    rw [if_neg hne, hv]
    exact ⟨h.shape.order_le hv, rfl⟩
  · rintro ⟨hp, hmap⟩
    split_ifs at hmap with hvw
    · rcases hc with hc | hc <;> omega
    · exact eq_free_of_tagByte hp hmap

/-- The two ways to say that a byte is outside the free blocks. -/
theorem outsideFree_iff (h : HoleAt cfg s T u k w c) (hc : StaleByte c) :
    OutsideFree cfg s a ↔ ∀ v p, T v = some (p, .free) → OutsideBlock cfg v p a :=
  ⟨fun ha v p hv => ha v p ((h.free_iff hc v p).mp hv).1 ((h.free_iff hc v p).mp hv).2,
    fun ha v p hp hmap => ha v p ((h.free_iff hc v p).mpr ⟨hp, hmap⟩)⟩

/-- Merging the hole with its buddy leaves the bytes outside the free blocks alone. -/
theorem merge_bytes (h : HoleAt cfg s T u k w c) (hc : StaleByte c)
    (hb : s.map (buddy u k) = k + 1) (ha : OutsideFree cfg s a) :
    (poolRemove cfg s (unitAddress cfg (buddy u k)) k).bytes a = s.bytes a ∧
      OutsideFree cfg (poolRemove cfg s (unitAddress cfg (buddy u k)) k) a := by
  refine ⟨h.shape.remove_bytes (h.buddy_free hb) ((h.outsideFree_iff hc).mp ha), ?_⟩
  intro v p hp hmap
  rw [poolRemove_map, poolMapIndex_unitAddress, Function.update_apply] at hmap
  split_ifs at hmap with hv
  exact ha v p hp hmap

/-- Splitting the hole leaves the bytes outside the free blocks and its upper half alone. -/
theorem split_bytes (h : HoleAt cfg s T u (k + 1) u c) (hc : StaleByte c)
    (hupper : OutsideBlock cfg (u + 2 ^ k) k a) (ha : OutsideFree cfg s a) :
    (poolInsert cfg s (unitAddress cfg (u + 2 ^ k)) k).bytes a = s.bytes a ∧
      OutsideFree cfg (poolInsert cfg s (unitAddress cfg (u + 2 ^ k)) k) a := by
  refine ⟨h.shape.insert_bytes hupper ((h.outsideFree_iff hc).mp ha), ?_⟩
  intro v p hp hmap
  have hbyte : freeByte k = k + 1 :=
    Nat.mod_eq_of_lt (by have := h.shape.order_le h.hole; omega)
  rw [poolInsert_map, poolMapIndex_unitAddress, Function.update_apply, hbyte] at hmap
  split_ifs at hmap with hv
  · obtain rfl : p = k := by omega
    exact hv ▸ hupper
  · exact ha v p hp hmap

/-- The splitting loop leaves the bytes outside the free blocks and the split-off part alone. -/
theorem poolSplit_bytes (h : HoleAt cfg s T u (o + n) u c) (hc : StaleByte c)
    (hpart : a < unitAddress cfg u + poolBlockSize o ∨
      unitAddress cfg u + poolBlockSize (o + n) ≤ a)
    (ha : OutsideFree cfg s a) :
    (Minyar.poolSplit cfg (unitAddress cfg u) o n s).bytes a = s.bytes a ∧
      OutsideFree cfg (Minyar.poolSplit cfg (unitAddress cfg u) o n s) a := by
  induction n generalizing s T with
  | zero => exact ⟨rfl, ha⟩
  | succ n ih =>
    have hpow : 2 ^ (o + n + 1) = 2 ^ (o + n) + 2 ^ (o + n) := by rw [pow_succ]; omega
    have hmono : 2 ^ o ≤ 2 ^ (o + n) := Nat.pow_le_pow_right two_pos (Nat.le_add_right o n)
    have hupper : OutsideBlock cfg (u + 2 ^ (o + n)) (o + n) a := by
      unfold OutsideBlock
      rw [unitAddress_add]
      simp only [poolBlockSize_eq, ← Nat.add_assoc, poolMinimum_eq] at hpart ⊢
      omega
    obtain ⟨T₁, h₁, -⟩ := HoleAt.split h
    obtain ⟨hbytes, houtside⟩ := HoleAt.split_bytes h hc hupper ha
    have hpart₁ : a < unitAddress cfg u + poolBlockSize o ∨
        unitAddress cfg u + poolBlockSize (o + n) ≤ a := by
      simp only [poolBlockSize_eq, ← Nat.add_assoc, poolMinimum_eq] at hpart ⊢
      omega
    obtain ⟨hbytes', houtside'⟩ := ih h₁ hpart₁ houtside
    rw [unitAddress_add] at hbytes' houtside' hbytes
    exact ⟨hbytes'.trans hbytes, houtside'⟩

/-- A byte outside two buddies is outside the block that they become. -/
theorem outside_merge (h : HoleAt cfg s T u k w c) (hu : OutsideBlock cfg u k a)
    (hb : OutsideBlock cfg (buddy u k) k a) : OutsideBlock cfg (min u (buddy u k)) (k + 1) a := by
  have hpow : 2 ^ (k + 1) = 2 ^ k + 2 ^ k := by rw [pow_succ]; omega
  unfold OutsideBlock unitAddress at *
  simp only [poolBlockSize_eq, poolMinimum_eq] at *
  rcases buddy_cases (h.shape.tiles.aligned h.hole) with ⟨-, hside⟩ | ⟨-, hside⟩ <;> omega

/-- The merging loop leaves the bytes outside the free blocks and the hole alone, and they are
outside the hole that it ends with. -/
theorem poolCoalesce_bytes (h : HoleAt cfg s T u k w c) (hc : StaleByte c)
    (hu : OutsideBlock cfg u k a) (ha : OutsideFree cfg s a) :
    (Minyar.poolCoalesce cfg n s (poolMinimum * u) k).1.bytes a = s.bytes a ∧
      OutsideFree cfg (Minyar.poolCoalesce cfg n s (poolMinimum * u) k).1 a ∧
      ∃ u', (Minyar.poolCoalesce cfg n s (poolMinimum * u) k).2.1 = poolMinimum * u' ∧
        OutsideBlock cfg u' (Minyar.poolCoalesce cfg n s (poolMinimum * u) k).2.2 a := by
  induction n generalizing s T u k with
  | zero => exact ⟨rfl, ha, u, rfl, hu⟩
  | succ n ih =>
    simp only [Minyar.poolCoalesce, xor_poolBlockSize, mul_div_poolMinimum, ite_poolMinimum]
    by_cases hb : s.map (buddy u k) = k + 1
    · rw [if_neg (not_not.mpr hb)]
      obtain ⟨T₁, h₁, -⟩ := h.merge hb
      obtain ⟨hbytes, houtside⟩ := h.merge_bytes hc hb ha
      have hbuddy := (h.outsideFree_iff hc).mp ha _ _ (h.buddy_free hb)
      obtain ⟨hbytes', houtside', hhole⟩ := ih h₁ (h.outside_merge hu hbuddy) houtside
      exact ⟨hbytes'.trans hbytes, houtside', hhole⟩
    · rw [if_pos hb]
      exact ⟨rfl, ha, u, rfl, hu⟩

/-- The loop along a path of free buddies leaves the bytes outside the free blocks alone. -/
theorem poolRemovePath_bytes (h : HoleAt cfg s T u k w c) (hc : StaleByte c)
    (hfree : poolPathFree s n (poolMinimum * u) k = true) (ha : OutsideFree cfg s a) :
    (Minyar.poolRemovePath cfg n (poolMinimum * u) k s).1.bytes a = s.bytes a ∧
      OutsideFree cfg (Minyar.poolRemovePath cfg n (poolMinimum * u) k s).1 a := by
  induction n generalizing s T u k with
  | zero => exact ⟨rfl, ha⟩
  | succ n ih =>
    have hd := h.shape.tiles.aligned h.hole
    simp only [poolPathFree, xor_poolBlockSize, mul_div_poolMinimum, ite_poolMinimum,
      Bool.and_eq_true, decide_eq_true_eq] at hfree
    simp only [Minyar.poolRemovePath, xor_poolBlockSize, ite_poolMinimum]
    obtain ⟨T₁, h₁, -⟩ := h.merge hfree.1
    obtain ⟨hbytes, houtside⟩ := h.merge_bytes hc hfree.1 ha
    have hpow : 2 ^ (k + 1) = 2 ^ k + 2 ^ k := by rw [pow_succ]; omega
    have hrest : poolPathFree (poolRemove cfg s (unitAddress cfg (buddy u k)) k) n
        (poolMinimum * min u (buddy u k)) (k + 1) = true := by
      refine (poolPathFree_congr (min_buddy_dvd hd) fun v hv => ?_).trans hfree.2
      have := buddy_cases hd
      have hpos : 0 < 2 ^ k := Nat.two_pow_pos k
      rw [poolRemove_map, poolMapIndex_unitAddress, Function.update_of_ne (by omega)]
    obtain ⟨hbytes', houtside'⟩ := ih h₁ hrest houtside
    exact ⟨hbytes'.trans hbytes, houtside'⟩

end HoleAt

/-! ## The calls -/

namespace PoolInv

/-- Between two calls the map shows the free blocks. -/
theorem free_iff (h : PoolInv cfg s T) (v p : ℕ) :
    T v = some (p, .free) ↔ p ≤ 57 ∧ s.map v = p + 1 := by
  rw [h.map]
  refine ⟨fun hv => ⟨h.shape.order_le hv, by rw [hv]; rfl⟩, fun hv => ?_⟩
  exact eq_free_of_tagByte hv.1 hv.2

/-- The bytes of an allocated block are outside the free blocks. -/
theorem outsideFree (h : PoolInv cfg s T) (hu : T u = some (o, .allocated))
    (ha : ¬ OutsideBlock cfg u o a) : OutsideFree cfg s a := by
  intro v p hp hmap
  have hv := (h.free_iff v p).mpr ⟨hp, hmap⟩
  have hne : u ≠ v := by
    rintro rfl
    rw [hu] at hv
    cases hv
  have hapart := h.shape.apart hu hv hne
  unfold BlocksApart at hapart
  unfold OutsideBlock at *
  omega

/-- The bytes of an allocated block are outside every other one. -/
theorem outsideBlock (h : PoolInv cfg s T) {p : ℕ} (hu : T u = some (o, .allocated))
    (hv : T v = some (p, .allocated)) (hne : u ≠ v) (ha : ¬ OutsideBlock cfg u o a) :
    OutsideBlock cfg v p a := by
  have hapart := h.shape.apart hu hv hne
  unfold BlocksApart at hapart
  unfold OutsideBlock at *
  omega

/-- An allocation leaves the bytes outside the free blocks alone; they stay outside of these, and
they are outside the new block. -/
theorem tryAllocate_bytes (h : PoolInv cfg s T) (size : ℕ) (ha : OutsideFree cfg s a) :
    (minyarPoolTryAllocate cfg s size).2.bytes a = s.bytes a ∧
      OutsideFree cfg (minyarPoolTryAllocate cfg s size).2 a ∧
      ∀ u, (minyarPoolTryAllocate cfg s size).1 = unitAddress cfg u →
        OutsideBlock cfg u (poolFit size poolOrders 0 poolMinimum).1 a := by
  rcases h.tryAllocate_found size with ⟨heq, -⟩ | ⟨-, -, u, n, hu, heq⟩
  · rw [heq]
    exact ⟨rfl, ha, fun u hzero => absurd hzero.symm (unitAddress_ne_zero cfg u)⟩
  generalize poolFit size poolOrders 0 poolMinimum = fit at hu heq ⊢
  obtain ⟨o, blockSize⟩ := fit
  simp only at hu heq ⊢
  have hfree : ∀ v p, T v = some (p, .free) → OutsideBlock cfg v p a := fun v p hv =>
    ha v p ((h.free_iff v p).mp hv).1 ((h.free_iff v p).mp hv).2
  have hblock := hfree u _ hu
  have hmono : poolBlockSize o ≤ poolBlockSize (o + n) := by
    rw [poolBlockSize_eq, poolBlockSize_eq]
    exact Nat.mul_le_mul_left _ (Nat.pow_le_pow_right two_pos (Nat.le_add_right o n))
  have hpart : OutsideBlock cfg u o a := hblock.imp id fun hle => by omega
  have houtside : OutsideFree cfg (poolRemove cfg s (unitAddress cfg u) (o + n)) a := by
    intro v p hp hmap
    rw [poolRemove_map, poolMapIndex_unitAddress, Function.update_apply] at hmap
    split_ifs at hmap
    exact ha v p hp hmap
  have hsplit := (h.holeAt_of_free hu).poolSplit_bytes (Or.inl rfl)
    (hblock.imp (fun hlt => by omega) id) houtside
  rw [heq]
  unfold poolHandOut
  refine ⟨?_, fun v p hp hmap => ?_, fun v hv => ?_⟩
  · rw [(poolRaiseHighWater_fields _).1]
    exact hsplit.1.trans (h.shape.remove_bytes hu hfree)
  · rw [(poolRaiseHighWater_fields _).2.1, poolMapIndex_unitAddress] at hmap
    simp only [Function.update_apply] at hmap
    have ho := h.shape.order_le hu
    split_ifs at hmap with hv
    · rcases staleByte_allocatedByte (show o ≤ 57 by omega) with hbyte | hbyte <;> omega
    · exact hsplit.2 v p hp hmap
  · rw [← unitAddress_injective cfg hv]
    exact hpart

/-- A release leaves the bytes outside the free blocks and the released one alone. -/
theorem deallocate_bytes (h : PoolInv cfg s T) (hu : T u = some (o, .allocated))
    (hs : minyarPoolDeallocate cfg s (unitAddress cfg u) = .ok s') (ha : OutsideFree cfg s a)
    (hblock : OutsideBlock cfg u o a) : s'.bytes a = s.bytes a := by
  have hstale : StaleByte (0 : ℕ) := Or.inl rfl
  have hopen := (h.holeAt_of_allocated hu).clear.with_used (sizeSub s.used (poolBlockSize o))
  have houtside : OutsideFree cfg { s with
      map := Function.update s.map u 0, used := sizeSub s.used (poolBlockSize o) } a := by
    intro v p hp hmap
    simp only [Function.update_apply] at hmap
    split_ifs at hmap with hv
    exact ha v p hp hmap
  have horder : o + (s.maxOrder - o) = s.maxOrder := by
    have := h.shape.tiles.order_le hu
    omega
  obtain ⟨hbytes, houtside', u', hoffset, hhole⟩ :=
    hopen.poolCoalesce_bytes (n := s.maxOrder - o) hstale hblock houtside
  obtain ⟨s₁, u₁, k₁, T₁, heq, hhole₁, -⟩ := hopen.poolCoalesce horder
  unfold minyarPoolDeallocate at hs
  rw [if_neg (unitAddress_ne_zero cfg u), h.allocatedOrder hu] at hs
  simp only [poolOffset_unitAddress, mul_div_poolMinimum, Bind.bind, Except.bind, Pure.pure,
    Except.pure] at hs
  rw [heq] at hbytes houtside' hoffset hhole
  rw [heq, Except.ok.injEq] at hs
  simp only at hbytes houtside' hoffset hhole hs
  obtain rfl : u₁ = u' := Nat.eq_of_mul_eq_mul_left (by decide) hoffset
  rw [← hs]
  exact (hhole₁.shape.insert_bytes hhole ((hhole₁.outsideFree_iff hstale).mp houtside')).trans
    hbytes

/-- Resizing in place leaves the bytes outside the free blocks alone, but for the part of the block
that is given up. -/
theorem tryResizeSameBase_bytes (h : PoolInv cfg s T) (hu : T u = some (k, .allocated)) (o : ℕ)
    (hs : poolTryResizeSameBase cfg s (unitAddress cfg u) (resizePlan u k o) =
      (unitAddress cfg u, s'))
    (ha : OutsideFree cfg s a)
    (hpart : a < unitAddress cfg u + poolBlockSize o ∨
      unitAddress cfg u + poolBlockSize k ≤ a) : s'.bytes a = s.bytes a := by
  have hstale := staleByte_allocatedByte (h.shape.order_le hu)
  unfold poolTryResizeSameBase resizePlan at hs
  simp only [mul_div_poolMinimum] at hs
  by_cases hshrink : o ≤ k
  · obtain ⟨n, rfl⟩ := Nat.exists_eq_add_of_le hshrink
    rw [if_pos hshrink, Nat.add_sub_cancel_left, Prod.mk.injEq] at hs
    have hopen := (h.holeAt_of_allocated hu).with_used
      (sizeSub s.used (poolMinimum * 2 ^ (o + n) - poolMinimum * 2 ^ o))
    have hsplit := hopen.poolSplit_bytes hstale hpart fun v p hp hmap => ha v p hp hmap
    rw [← hs.2]
    exact hsplit.1
  rw [if_neg hshrink] at hs
  split at hs
  · rename_i hgrow
    obtain ⟨n, rfl⟩ := Nat.exists_eq_add_of_le (not_le.mp hshrink).le
    rw [Nat.add_sub_cancel_left] at hgrow hs
    have hd := dvd_of_and_eq_zero hgrow.1
    rw [poolUpperFree_eq hd] at hgrow
    have hpath := ((h.holeAt_of_allocated hu).poolRemovePath_bytes hstale hgrow.2 ha).1
    rw [poolRemovePath_eq hd] at hpath
    rw [Prod.mk.injEq] at hs
    rw [← hs.2, (poolRaiseHighWater_fields _).1]
    exact hpath
  · rw [Prod.mk.injEq] at hs
    exact absurd hs.1.symm (unitAddress_ne_zero cfg u)

/-- Moving a block copies its bytes and leaves those of the other blocks alone. -/
theorem move_bytes (h : PoolInv cfg s T) (hu : T u = some (k, .allocated)) {preserved size : ℕ}
    (hpreserved : preserved ≤ size) {p : ℕ}
    (hs : poolMove cfg s (unitAddress cfg u) preserved size = .ok (p, s')) :
    (∀ i < preserved, i < poolBlockSize k → s'.bytes (p + i) = s.bytes (unitAddress cfg u + i)) ∧
      ∀ a, OutsideFree cfg s a → OutsideBlock cfg u k a → s'.bytes a = s.bytes a := by
  unfold poolMove minyarPoolAllocate at hs
  rcases h.tryAllocate_fit size with ⟨heq, -⟩ | ⟨hsize, -, s₁, u', T₁, heq, h₁, hnew, hiff⟩
  · rw [heq] at hs
    cases hs
  obtain ⟨o, hfit, hle, -⟩ := h.shape.poolFit hsize
  have hbytes₁ : ∀ a, OutsideFree cfg s a →
      s₁.bytes a = s.bytes a ∧ OutsideFree cfg s₁ a ∧ OutsideBlock cfg u' o a := by
    intro a ha
    have hkept := h.tryAllocate_bytes size ha
    rw [heq, hfit] at hkept
    exact ⟨hkept.1, hkept.2.1, hkept.2.2 u' rfl⟩
  rw [hfit] at hiff
  have hu' : T₁ u' = some (o, .allocated) := (hiff u' o).mpr (Or.inl ⟨rfl, rfl⟩)
  have hu₁ : T₁ u = some (k, .allocated) := (hiff u k).mpr (Or.inr hu)
  have hne : u' ≠ u := by
    rintro rfl
    exact hnew k hu
  set s₂ : Pool := { s₁ with
    bytes := copyBytes s₁.bytes (unitAddress cfg u') (unitAddress cfg u) preserved } with hs₂
  have hoff : ∀ a, OutsideBlock cfg u' o a → s₂.bytes a = s₁.bytes a := by
    intro a ha
    refine copyBytes_of_notMem (ha.imp id fun hge => ?_)
    rw [poolBlockSize_eq] at hge
    omega
  have hcopy : PoolInv cfg s₂ T₁ := h₁.with_bytes fun a ha => hoff a (ha u' o hu')
  obtain ⟨rfl, hrelease⟩ : unitAddress cfg u' = p ∧
      minyarPoolDeallocate cfg s₂ (unitAddress cfg u) = .ok s' := by
    rw [heq] at hs
    simp only [if_neg (unitAddress_ne_zero cfg u'), Bind.bind, Except.bind] at hs
    rcases hfreed : minyarPoolDeallocate cfg s₂ (unitAddress cfg u) with text | s₃
    · rw [hfreed] at hs
      cases hs
    · rw [hfreed] at hs
      cases hs
      exact ⟨rfl, rfl⟩
  refine ⟨fun i hi hik => ?_, fun a ha hblock => ?_⟩
  · have hin : ¬ OutsideBlock cfg u' o (unitAddress cfg u' + i) := by
      unfold OutsideBlock
      rw [poolBlockSize_eq]
      omega
    have hold : ¬ OutsideBlock cfg u k (unitAddress cfg u + i) := by
      unfold OutsideBlock
      omega
    rw [hcopy.deallocate_bytes hu₁ hrelease (hcopy.outsideFree hu' hin)
      (hcopy.outsideBlock hu' hu₁ hne hin)]
    change copyBytes s₁.bytes _ _ preserved (unitAddress cfg u' + i) = _
    unfold copyBytes
    rw [if_pos ⟨Nat.le_add_right _ _, Nat.add_lt_add_left hi _⟩, Nat.add_sub_cancel_left]
    exact (hbytes₁ _ (h.outsideFree hu hold)).1
  · obtain ⟨hsame, hfree, hnewblock⟩ := hbytes₁ a ha
    rw [hcopy.deallocate_bytes hu₁ hrelease (fun v p hp hmap => hfree v p hp hmap) hblock,
      hoff a hnewblock, hsame]

end PoolInv

end Minyar

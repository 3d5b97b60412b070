import Minyar.Pool.Model

/-!
# The invariant of the pool and its two list edits

The blocks of the pool are a block map with three tags: a block is free, allocated, or the *hole*
that a call in progress works on.  `PoolShape` relates such a map to the free lists and the mask;
the map bytes and the byte count are related to it separately, because they are the parts
that a call leaves stale until its last step.  Removing a block from its free list turns the
block into a hole and inserting a hole turns it into a free block; merging two holes,
splitting a hole and handing a hole out change no variable at all.
-/

namespace Minyar

open BlockMap

/-- What a block is used for. -/
inductive BlockTag where
  /-- The block is in the free list of its order. -/
  | free
  /-- The block is handed out. -/
  | allocated
  /-- A call in progress works on the block. -/
  | hole
  deriving DecidableEq

/-- The map byte of a unit. -/
def tagByte : Option (ℕ × BlockTag) → ℕ
  | some (o, .free) => o + 1
  | some (o, .allocated) => 0x80 ||| (o + 1)
  | _ => 0

/-- The units of allocated blocks are the ones counted as used. -/
def isAllocated (t : BlockTag) : Bool := decide (t = .allocated)

/-- The address of a unit. -/
def unitAddress (cfg : PoolConfig) (u : ℕ) : ℕ := cfg.base + poolMinimum * u

variable {cfg : PoolConfig} {s s' : Pool} {T T' : BlockMap BlockTag} {u v k o : ℕ}

/-- The free lists and the mask describe the free blocks of a tiling without free buddies. -/
structure PoolShape (cfg : PoolConfig) (s : Pool) (T : BlockMap BlockTag) : Prop where
  /-- The block of the maximal order fills the pool. -/
  bytes_eq : poolMinimum * 2 ^ s.maxOrder = cfg.bytes
  /-- The blocks tile the pool. -/
  tiles : T.Tiles s.maxOrder
  /-- No two buddies of the same order are free. -/
  buddies : ∀ {u o}, T u = some (o, .free) → o < s.maxOrder → T (buddy u o) ≠ some (o, .free)
  /-- The free list of an order links exactly the free blocks of that order. -/
  lists : ∀ o, ∃ l, LinkedList (poolReadLink s) 0 (s.free o) l ∧
    ∀ a, a ∈ l ↔ ∃ u, T u = some (o, .free) ∧ a = unitAddress cfg u
  /-- The mask says which free lists are nonempty. -/
  mask : ∀ o < poolOrders, s.mask.getLsbD o = true ↔ s.free o ≠ 0

/-! ## Addresses -/

theorem poolMinimum_eq : poolMinimum = 32 := rfl

@[simp] theorem poolBlockSize_eq (o : ℕ) : poolBlockSize o = poolMinimum * 2 ^ o :=
  Nat.shiftLeft_eq _ _

@[simp] theorem poolOffset_unitAddress (cfg : PoolConfig) (u : ℕ) :
    poolOffset cfg (unitAddress cfg u) = poolMinimum * u :=
  Nat.add_sub_cancel_left _ _

@[simp] theorem mul_div_poolMinimum (u : ℕ) : poolMinimum * u / poolMinimum = u :=
  Nat.mul_div_cancel_left u (by decide)

@[simp] theorem poolMapIndex_unitAddress (cfg : PoolConfig) (u : ℕ) :
    poolMapIndex cfg (unitAddress cfg u) = u := by
  rw [poolMapIndex, poolOffset_unitAddress, mul_div_poolMinimum]

theorem unitAddress_ne_zero (cfg : PoolConfig) (u : ℕ) : unitAddress cfg u ≠ 0 := by
  have := cfg.base_pos
  unfold unitAddress
  omega

theorem unitAddress_injective (cfg : PoolConfig) : Function.Injective (unitAddress cfg) := by
  intro u v h
  unfold unitAddress at h
  rw [poolMinimum_eq] at h
  omega

/-- The address of the unit behind a block. -/
theorem unitAddress_add (cfg : PoolConfig) (u o : ℕ) :
    unitAddress cfg (u + 2 ^ o) = unitAddress cfg u + poolBlockSize o := by
  unfold unitAddress
  rw [poolBlockSize_eq, Nat.mul_add, Nat.add_assoc]

/-- The byte offset of a buddy. -/
theorem xor_poolBlockSize (u o : ℕ) :
    (poolMinimum * u) ^^^ poolBlockSize o = poolMinimum * buddy u o := by
  have hshift : ∀ n : ℕ, poolMinimum * n = n <<< 5 := fun n => by
    rw [Nat.shiftLeft_eq, Nat.mul_comm, poolMinimum_eq]
  rw [poolBlockSize_eq, hshift, hshift, hshift, ← Nat.shiftLeft_xor_distrib]
  rfl

/-! ## Reading and writing links -/

/-- The stored links are 64-bit. -/
theorem poolReadLink_lt (s : Pool) (a : ℕ) :
    (poolReadLink s a).previous < 2 ^ 64 ∧ (poolReadLink s a).next < 2 ^ 64 :=
  ⟨readBytes_lt s.bytes a 8, readBytes_lt s.bytes (a + 8) 8⟩

/-- The links are read from the memory alone. -/
theorem poolReadLink_congr (h : s'.bytes = s.bytes) : poolReadLink s' = poolReadLink s := by
  funext a
  unfold poolReadLink
  rw [h]

/-- Links that fit are read back. -/
theorem poolReadLink_poolWriteLink_self {a previous next : ℕ}
    (hp : previous < 2 ^ 64) (hn : next < 2 ^ 64) :
    poolReadLink (poolWriteLink s a ⟨previous, next⟩) a = ⟨previous, next⟩ := by
  have hprevious : previous % 256 ^ 8 = previous := Nat.mod_eq_of_lt hp
  have hnext : next % 256 ^ 8 = next := Nat.mod_eq_of_lt hn
  unfold poolReadLink poolWriteLink
  rw [readBytes_writeBytes_of_disjoint (Or.inl le_rfl), readBytes_writeBytes, readBytes_writeBytes,
    hprevious, hnext]

/-- Links are written into the sixteen bytes of the node alone. -/
theorem poolReadLink_poolWriteLink_of_disjoint {a b : ℕ} {value : PoolLink}
    (h : b + 16 ≤ a ∨ a + 16 ≤ b) :
    poolReadLink (poolWriteLink s a value) b = poolReadLink s b := by
  unfold poolReadLink poolWriteLink
  simp only
  rw [readBytes_writeBytes_of_disjoint (by omega), readBytes_writeBytes_of_disjoint (by omega),
    readBytes_writeBytes_of_disjoint (by omega), readBytes_writeBytes_of_disjoint (by omega)]

/-- On unit addresses a write of links is an update. -/
theorem poolReadLink_poolWriteLink {previous next : ℕ}
    (hp : previous < 2 ^ 64) (hn : next < 2 ^ 64) :
    poolReadLink (poolWriteLink s (unitAddress cfg u) ⟨previous, next⟩) (unitAddress cfg v) =
      Function.update (poolReadLink s) (unitAddress cfg u) ⟨previous, next⟩
        (unitAddress cfg v) := by
  by_cases h : v = u
  · rw [h, Function.update_self, poolReadLink_poolWriteLink_self hp hn]
  · rw [Function.update_of_ne fun he => h (unitAddress_injective cfg he),
      poolReadLink_poolWriteLink_of_disjoint]
    unfold unitAddress
    rw [poolMinimum_eq]
    omega

/-! ## Bits of the mask -/

/-- Setting a bit of the mask. -/
theorem getLsbD_or_bit (m : BitVec 64) (o : ℕ) {p : ℕ} (hp : p < 64) :
    (m ||| 1#64 <<< o).getLsbD p = (m.getLsbD p || decide (p = o)) := by
  rw [BitVec.getLsbD_or, BitVec.getLsbD_shiftLeft, BitVec.getLsbD_one]
  congr 1
  rw [Bool.eq_iff_iff]
  simp
  omega

/-- Clearing a bit of the mask. -/
theorem getLsbD_and_not_bit (m : BitVec 64) (o : ℕ) {p : ℕ} (hp : p < 64) :
    (m &&& ~~~(1#64 <<< o)).getLsbD p = (m.getLsbD p && decide (p ≠ o)) := by
  rw [BitVec.getLsbD_and, BitVec.getLsbD_not, BitVec.getLsbD_shiftLeft, BitVec.getLsbD_one]
  congr 1
  rw [Bool.eq_iff_iff]
  simp
  omega

/-! ## Inserting a block -/

@[simp] theorem poolInsert_map (cfg : PoolConfig) (s : Pool) (link o : ℕ) :
    (poolInsert cfg s link o).map =
      Function.update s.map (poolMapIndex cfg link) (freeByte o) := by
  simp only [poolInsert]
  split <;> rfl

@[simp] theorem poolInsert_free (cfg : PoolConfig) (s : Pool) (link o : ℕ) :
    (poolInsert cfg s link o).free = Function.update s.free o link := by
  simp only [poolInsert]
  split <;> rfl

@[simp] theorem poolInsert_mask (cfg : PoolConfig) (s : Pool) (link o : ℕ) :
    (poolInsert cfg s link o).mask = s.mask ||| 1#64 <<< o := by
  simp only [poolInsert]
  split <;> rfl

@[simp] theorem poolInsert_used (cfg : PoolConfig) (s : Pool) (link o : ℕ) :
    (poolInsert cfg s link o).used = s.used := by
  simp only [poolInsert]
  split <;> rfl

@[simp] theorem poolInsert_maxOrder (cfg : PoolConfig) (s : Pool) (link o : ℕ) :
    (poolInsert cfg s link o).maxOrder = s.maxOrder := by
  simp only [poolInsert]
  split <;> rfl

/-- On unit addresses `poolInsert` writes a node in front of the free list. -/
theorem poolReadLink_poolInsert (hu : unitAddress cfg u < 2 ^ 64)
    (hhead : s.free o = 0 ∨ ∃ w, s.free o = unitAddress cfg w ∧ unitAddress cfg w < 2 ^ 64) :
    poolReadLink (poolInsert cfg s (unitAddress cfg u) o) (unitAddress cfg v) =
      linkInsert (poolReadLink s) 0 (unitAddress cfg u) (s.free o) (unitAddress cfg v) := by
  have hzero : (0 : ℕ) < 2 ^ 64 := by norm_num
  rcases hhead with hz | ⟨w, hw, hlt⟩
  · have hbytes : (poolInsert cfg s (unitAddress cfg u) o).bytes =
        (poolWriteLink s (unitAddress cfg u) ⟨0, 0⟩).bytes := by simp [poolInsert, hz]
    rw [poolReadLink_congr hbytes, poolReadLink_poolWriteLink hzero hzero]
    simp [linkInsert, hz]
  · have hne : unitAddress cfg w ≠ 0 := unitAddress_ne_zero cfg w
    set s₁ := poolWriteLink s (unitAddress cfg u) ⟨0, unitAddress cfg w⟩ with hs₁
    have hbytes : (poolInsert cfg s (unitAddress cfg u) o).bytes =
        (poolWriteLink s₁ (unitAddress cfg w)
          ⟨unitAddress cfg u, (poolReadLink s₁ (unitAddress cfg w)).next⟩).bytes := by
      simp [poolInsert, hw, hne, hs₁]
    have hfirst : ∀ x, poolReadLink s₁ (unitAddress cfg x) =
        Function.update (poolReadLink s) (unitAddress cfg u) ⟨0, unitAddress cfg w⟩
          (unitAddress cfg x) :=
      fun x => poolReadLink_poolWriteLink hzero hlt
    rw [poolReadLink_congr hbytes,
      poolReadLink_poolWriteLink hu (poolReadLink_lt s₁ (unitAddress cfg w)).2,
      Function.update_apply, hfirst, hfirst]
    simp only [linkInsert, hw, if_neg hne]
    exact (Function.update_apply _ _ _ _).symm

namespace PoolShape

/-- A block start is a 64-bit address. -/
theorem unitAddress_lt (h : PoolShape cfg s T) {t : BlockTag} (hu : T u = some (o, t)) :
    unitAddress cfg u < 2 ^ 64 := by
  have hlt := h.tiles.lt hu
  have hfits := cfg.fits
  have hbytes := h.bytes_eq
  unfold PoolConfig.bytes at hbytes
  unfold unitAddress
  rw [poolMinimum_eq] at *
  omega

/-- Every order of the pool has a bit in the mask and a map byte. -/
theorem maxOrder_le (h : PoolShape cfg s T) : s.maxOrder ≤ 57 := by
  have hbytes := h.bytes_eq
  have hmax := cfg.max_bytes
  unfold PoolConfig.bytes at hbytes
  rw [← hbytes, poolMinimum_eq] at hmax
  by_contra hcon
  have : 2 ^ 58 ≤ 2 ^ s.maxOrder := Nat.pow_le_pow_right two_pos (by omega)
  omega

theorem order_le (h : PoolShape cfg s T) {t : BlockTag} (hu : T u = some (o, t)) : o ≤ 57 :=
  (h.tiles.order_le hu).trans h.maxOrder_le

/-- The head of a free list is null or a free block of its order. -/
theorem head_cases (h : PoolShape cfg s T) (o : ℕ) :
    s.free o = 0 ∨ ∃ w, T w = some (o, .free) ∧ s.free o = unitAddress cfg w := by
  obtain ⟨l, hl, hmem⟩ := h.lists o
  by_cases hz : s.free o = 0
  · exact Or.inl hz
  · exact Or.inr ((hmem _).mp (hl.head_mem hz))

/-- A free list is nonempty exactly when its order has a free block. -/
theorem free_ne_zero_iff (h : PoolShape cfg s T) (o : ℕ) :
    s.free o ≠ 0 ↔ ∃ w, T w = some (o, .free) := by
  constructor
  · intro hne
    rcases h.head_cases o with hz | ⟨w, hw, -⟩
    · exact absurd hz hne
    · exact ⟨w, hw⟩
  · rintro ⟨w, hw⟩ hz
    obtain ⟨l, hl, hmem⟩ := h.lists o
    have hnil := hl.head_eq_null_iff.mp hz
    have := (hmem _).mpr ⟨w, hw, rfl⟩
    simp [hnil] at this

/-- The shape depends on the links of the free blocks, the heads, and the mask alone. -/
theorem congr (h : PoolShape cfg s T)
    (hlinks : ∀ {u o}, T u = some (o, .free) →
      poolReadLink s (unitAddress cfg u) = poolReadLink s' (unitAddress cfg u))
    (hfree : s'.free = s.free) (hmask : s'.mask = s.mask) (hmax : s'.maxOrder = s.maxOrder) :
    PoolShape cfg s' T := by
  refine ⟨hmax ▸ h.bytes_eq, hmax ▸ h.tiles, ?_, ?_, ?_⟩
  · rw [hmax]
    exact h.buddies
  · intro o
    obtain ⟨l, hl, hmem⟩ := h.lists o
    refine ⟨l, hfree ▸ hl.congr fun a ha => ?_, hmem⟩
    obtain ⟨u, hu, rfl⟩ := (hmem a).mp ha
    exact hlinks hu
  · rw [hmask, hfree]
    exact h.mask

/-- The shape depends on the free blocks of the tiling alone. -/
theorem of_free_iff (h : PoolShape cfg s T) (hT : T'.Tiles s.maxOrder)
    (hfree : ∀ u o, T' u = some (o, .free) ↔ T u = some (o, .free)) : PoolShape cfg s T' := by
  refine ⟨h.bytes_eq, hT, ?_, ?_, h.mask⟩
  · intro u o hu ho hb
    exact h.buddies ((hfree _ _).mp hu) ho ((hfree _ _).mp hb)
  · intro o
    obtain ⟨l, hl, hmem⟩ := h.lists o
    refine ⟨l, hl, fun a => ?_⟩
    simp only [hmem, hfree]

/-- Inserting a hole whose buddy is not free makes it a free block. -/
theorem insert (h : PoolShape cfg s T) (hu : T u = some (o, .hole))
    (hb : o < s.maxOrder → T (buddy u o) ≠ some (o, .free)) :
    PoolShape cfg (poolInsert cfg s (unitAddress cfg u) o)
      (Function.update T u (some (o, .free))) := by
  have hhead : s.free o = 0 ∨ ∃ w, s.free o = unitAddress cfg w ∧ unitAddress cfg w < 2 ^ 64 := by
    rcases h.head_cases o with hz | ⟨w, hw, he⟩
    · exact Or.inl hz
    · exact Or.inr ⟨w, he, h.unitAddress_lt hw⟩
  have hlinks : ∀ v, poolReadLink (poolInsert cfg s (unitAddress cfg u) o) (unitAddress cfg v) =
      linkInsert (poolReadLink s) 0 (unitAddress cfg u) (s.free o) (unitAddress cfg v) :=
    fun v => poolReadLink_poolInsert (h.unitAddress_lt hu) hhead
  have hfree : ∀ v p, Function.update T u (some (o, .free)) v = some (p, .free) ↔
      (v = u ∧ p = o) ∨ T v = some (p, .free) := by
    intro v p
    rw [Function.update_apply]
    split
    · rename_i hv
      subst hv
      simp [hu, eq_comm]
    · simp [*]
  refine ⟨by simpa using h.bytes_eq, by simpa using h.tiles.retag hu .free, ?_, ?_, ?_⟩
  · simp only [hfree, poolInsert_maxOrder, ne_eq]
    rintro v p (⟨rfl, rfl⟩ | hv) hp
    · rintro (⟨hself, -⟩ | hfr)
      · exact absurd hself (buddy_ne v p)
      · exact hb hp hfr
    · rintro (⟨rfl, rfl⟩ | hfr)
      · rw [buddy_buddy] at hb
        exact hb hp hv
      · exact h.buddies hv hp hfr
  · intro p
    obtain ⟨l, hl, hmem⟩ := h.lists p
    by_cases hp : p = o
    · subst hp
      have hnot : unitAddress cfg u ∉ l := by
        rw [hmem]
        rintro ⟨v, hv, he⟩
        obtain rfl := unitAddress_injective cfg he
        simp [hu] at hv
      refine ⟨unitAddress cfg u :: l, ?_, ?_⟩
      · rw [poolInsert_free, Function.update_self]
        refine (hl.insert hnot (unitAddress_ne_zero cfg u)).congr fun a ha => ?_
        rcases List.mem_cons.mp ha with rfl | ha
        · exact (hlinks u).symm
        · obtain ⟨v, -, rfl⟩ := (hmem a).mp ha
          exact (hlinks v).symm
      · intro a
        simp only [List.mem_cons, hmem, hfree, and_true]
        constructor
        · rintro (rfl | ⟨v, hv, rfl⟩)
          · exact ⟨u, Or.inl rfl, rfl⟩
          · exact ⟨v, Or.inr hv, rfl⟩
        · rintro ⟨v, rfl | hv, rfl⟩
          · exact Or.inl rfl
          · exact Or.inr ⟨v, hv, rfl⟩
    · refine ⟨l, ?_, fun a => by simp only [hmem, hfree, hp, and_false, false_or]⟩
      rw [poolInsert_free, Function.update_of_ne hp]
      refine hl.congr fun a ha => ?_
      obtain ⟨v, hv, rfl⟩ := (hmem a).mp ha
      have hvu : unitAddress cfg v ≠ unitAddress cfg u := by
        intro he
        obtain rfl := unitAddress_injective cfg he
        simp [hu] at hv
      have hvh : unitAddress cfg v ≠ s.free o := by
        intro he
        rcases h.head_cases o with hz | ⟨w, hw, he'⟩
        · exact unitAddress_ne_zero cfg v (he.trans hz)
        · obtain rfl := unitAddress_injective cfg (he.trans he')
          rw [hw, Option.some.injEq, Prod.mk.injEq] at hv
          exact hp hv.1.symm
      rw [hlinks, linkInsert_of_ne hvu hvh]
  · intro p hp
    have hbit := h.mask p hp
    rw [poolInsert_mask, poolInsert_free, getLsbD_or_bit _ _ hp, Function.update_apply]
    split
    · simp [*, unitAddress_ne_zero]
    · simp [*]

end PoolShape

/-! ## Removing a block -/

@[simp] theorem poolRemove_map (cfg : PoolConfig) (s : Pool) (link o : ℕ) :
    (poolRemove cfg s link o).map = Function.update s.map (poolMapIndex cfg link) 0 := by
  simp only [poolRemove]
  split <;> split <;> split <;> rfl

@[simp] theorem poolRemove_used (cfg : PoolConfig) (s : Pool) (link o : ℕ) :
    (poolRemove cfg s link o).used = s.used := by
  simp only [poolRemove]
  split <;> split <;> split <;> rfl

@[simp] theorem poolRemove_maxOrder (cfg : PoolConfig) (s : Pool) (link o : ℕ) :
    (poolRemove cfg s link o).maxOrder = s.maxOrder := by
  simp only [poolRemove]
  split <;> split <;> split <;> rfl

/-- The head of the list moves on when the first block is removed. -/
theorem poolRemove_free (cfg : PoolConfig) (s : Pool) (link o : ℕ) :
    (poolRemove cfg s link o).free = Function.update s.free o
      (if (poolReadLink s link).previous = 0 then (poolReadLink s link).next else s.free o) := by
  by_cases h : (poolReadLink s link).previous = 0
  · rw [if_pos h]
    simp only [poolRemove, h, ne_eq, not_true_eq_false, if_false]
    split <;> split <;> rfl
  · rw [if_neg h, Function.update_eq_self]
    simp only [poolRemove, ne_eq, h, not_false_eq_true, if_true]
    split <;> split <;> rfl

/-- The mask bit is cleared when the list becomes empty. -/
theorem poolRemove_mask (cfg : PoolConfig) (s : Pool) (link o : ℕ) :
    (poolRemove cfg s link o).mask =
      if (poolRemove cfg s link o).free o = 0 then s.mask &&& ~~~(1#64 <<< o) else s.mask := by
  simp only [poolRemove]
  split <;> split <;> split <;> simp_all [poolWriteLink]

/-- On unit addresses `poolRemove` links the neighbours of a node past it. -/
theorem poolReadLink_poolRemove {link : ℕ}
    (hprev : (poolReadLink s link).previous = 0 ∨
      ∃ w, (poolReadLink s link).previous = unitAddress cfg w)
    (hnext : (poolReadLink s link).next = 0 ∨ ∃ w, (poolReadLink s link).next = unitAddress cfg w) :
    poolReadLink (poolRemove cfg s link o) (unitAddress cfg v) =
      linkRemove (poolReadLink s) 0 link (unitAddress cfg v) := by
  have hlt := poolReadLink_lt s link
  -- The memory after the first write, which links the node before past the removed one.
  obtain ⟨s₁, hs₁, hfirst⟩ : ∃ s₁ : Pool,
      s₁ = (if (poolReadLink s link).previous ≠ 0 then
        poolWriteLink s (poolReadLink s link).previous
          ⟨(poolReadLink s (poolReadLink s link).previous).previous, (poolReadLink s link).next⟩
        else s) ∧ ∀ x, poolReadLink s₁ (unitAddress cfg x) =
      (if (poolReadLink s link).previous = 0 then poolReadLink s
        else Function.update (poolReadLink s) (poolReadLink s link).previous
          ⟨(poolReadLink s (poolReadLink s link).previous).previous, (poolReadLink s link).next⟩)
        (unitAddress cfg x) := by
    refine ⟨_, rfl, fun x => ?_⟩
    rcases hprev with hz | ⟨w, hw⟩
    · rw [if_neg (not_not.mpr hz), if_pos hz]
    · have hne : (poolReadLink s link).previous ≠ 0 := hw ▸ unitAddress_ne_zero cfg w
      rw [if_pos hne, if_neg hne, hw]
      exact poolReadLink_poolWriteLink (poolReadLink_lt s (unitAddress cfg w)).1 hlt.2
  have hbytes : (poolRemove cfg s link o).bytes =
      (if (poolReadLink s link).next ≠ 0 then
        poolWriteLink s₁ (poolReadLink s link).next
          ⟨(poolReadLink s link).previous, (poolReadLink s₁ (poolReadLink s link).next).next⟩
        else s₁).bytes := by
    rw [hs₁]
    simp only [poolRemove]
    by_cases hp : (poolReadLink s link).previous = 0 <;>
      by_cases hn : (poolReadLink s link).next = 0 <;> simp [hp, hn] <;> split <;>
      simp [poolWriteLink, poolReadLink]
  rw [poolReadLink_congr hbytes]
  simp only [linkRemove]
  rcases hnext with hz | ⟨w, hw⟩
  · rw [if_neg (not_not.mpr hz), if_pos hz]
    exact hfirst v
  · have hne : (poolReadLink s link).next ≠ 0 := hw ▸ unitAddress_ne_zero cfg w
    rw [if_pos hne, if_neg hne, hw,
      poolReadLink_poolWriteLink hlt.1 (poolReadLink_lt s₁ (unitAddress cfg w)).2,
      Function.update_apply, Function.update_apply, hfirst, hfirst, hw]

namespace PoolShape

/-- Removing a free block from its list makes it a hole. -/
theorem remove (h : PoolShape cfg s T) (hu : T u = some (o, .free)) :
    PoolShape cfg (poolRemove cfg s (unitAddress cfg u) o)
      (Function.update T u (some (o, .hole))) := by
  obtain ⟨lo, hlo, hmemo⟩ := h.lists o
  have hin : unitAddress cfg u ∈ lo := (hmemo _).mpr ⟨u, hu, rfl⟩
  have hlink := hlo.link_mem hin
  have hprev : (poolReadLink s (unitAddress cfg u)).previous = 0 ∨
      ∃ w, T w = some (o, .free) ∧
        (poolReadLink s (unitAddress cfg u)).previous = unitAddress cfg w :=
    hlink.1.imp_right fun hm => (hmemo _).mp hm
  have hnext : (poolReadLink s (unitAddress cfg u)).next = 0 ∨
      ∃ w, T w = some (o, .free) ∧
        (poolReadLink s (unitAddress cfg u)).next = unitAddress cfg w :=
    hlink.2.imp_right fun hm => (hmemo _).mp hm
  have hlinks : ∀ v, poolReadLink (poolRemove cfg s (unitAddress cfg u) o) (unitAddress cfg v) =
      linkRemove (poolReadLink s) 0 (unitAddress cfg u) (unitAddress cfg v) :=
    fun v => poolReadLink_poolRemove (hprev.imp_right fun ⟨w, _, hw⟩ => ⟨w, hw⟩)
      (hnext.imp_right fun ⟨w, _, hw⟩ => ⟨w, hw⟩)
  have hfree : ∀ v p, Function.update T u (some (o, .hole)) v = some (p, .free) ↔
      v ≠ u ∧ T v = some (p, .free) := by
    intro v p
    rw [Function.update_apply]
    split <;> simp [*]
  refine ⟨by simpa using h.bytes_eq, by simpa using h.tiles.retag hu .hole, ?_, ?_, ?_⟩
  · simp only [hfree, poolRemove_maxOrder, ne_eq]
    exact fun hv hp hb => h.buddies hv.2 hp hb.2
  · intro p
    by_cases hp : p = o
    · subst hp
      refine ⟨lo.erase (unitAddress cfg u), ?_, ?_⟩
      · rw [poolRemove_free, Function.update_self]
        refine (hlo.remove hin).congr fun a ha => ?_
        obtain ⟨v, -, rfl⟩ := (hmemo a).mp (List.mem_of_mem_erase ha)
        exact (hlinks v).symm
      · intro a
        rw [hlo.nodup.mem_erase_iff]
        simp only [hmemo, hfree]
        constructor
        · rintro ⟨hne, v, hv, rfl⟩
          exact ⟨v, ⟨fun he => hne (he ▸ rfl), hv⟩, rfl⟩
        · rintro ⟨v, ⟨hne, hv⟩, rfl⟩
          exact ⟨fun he => hne (unitAddress_injective cfg he), v, hv, rfl⟩
    · obtain ⟨l, hl, hmem⟩ := h.lists p
      have hother : ∀ {v w}, T v = some (p, .free) → T w = some (o, .free) →
          unitAddress cfg v ≠ unitAddress cfg w := by
        intro v w hv hw he
        obtain rfl := unitAddress_injective cfg he
        rw [hv, Option.some.injEq, Prod.mk.injEq] at hw
        exact hp hw.1
      refine ⟨l, ?_, fun a => ?_⟩
      · rw [poolRemove_free, Function.update_of_ne hp]
        refine hl.congr fun a ha => ?_
        obtain ⟨v, hv, rfl⟩ := (hmem a).mp ha
        rw [hlinks, linkRemove_eq (unitAddress_ne_zero cfg v)]
        have hvp : unitAddress cfg v ≠ (poolReadLink s (unitAddress cfg u)).previous := by
          rcases hprev with hz | ⟨w, hw, he⟩
          · exact hz ▸ unitAddress_ne_zero cfg v
          · exact he ▸ hother hv hw
        have hvn : unitAddress cfg v ≠ (poolReadLink s (unitAddress cfg u)).next := by
          rcases hnext with hz | ⟨w, hw, he⟩
          · exact hz ▸ unitAddress_ne_zero cfg v
          · exact he ▸ hother hv hw
        rw [if_neg hvp, if_neg hvn]
      · simp only [hmem, hfree]
        constructor
        · rintro ⟨v, hv, rfl⟩
          exact ⟨v, ⟨fun he => hother hv (he ▸ hu) rfl, hv⟩, rfl⟩
        · rintro ⟨v, ⟨-, hv⟩, rfl⟩
          exact ⟨v, hv, rfl⟩
  · intro p hp
    have hbit := h.mask p hp
    rw [poolRemove_mask]
    by_cases hpo : p = o
    · subst hpo
      have hhead : s.free p ≠ 0 := (h.free_ne_zero_iff p).mpr ⟨u, hu⟩
      split
      · simp [*, getLsbD_and_not_bit _ _ hp]
      · simp [*]
    · have hsame : (poolRemove cfg s (unitAddress cfg u) o).free p = s.free p := by
        rw [poolRemove_free, Function.update_of_ne hpo]
      rw [hsame]
      split
      · simp [*, getLsbD_and_not_bit _ _ hp]
      · exact hbit

end PoolShape

end Minyar

import Minyar.Pool.Resize

/-!
# The backing heap of the bounded runtime

The bounded runtime takes its storage from the finite pool or from the allocator of the system.
`RcHeap` is what it calls, over the variables of the allocator, and the two builds are its two
instances.  `RcHeap.Lawful` says what the runtime relies on: a call returns storage that is not in
use, sizes stay below `2 ^ 63`, and the charge of a block does not depend on what happens to the
others.  The pool keeps these laws; for the allocator of the system they follow from what its
documentation promises.
-/

namespace Minyar

open BlockMap

variable {α : Type*} {cfg : PoolConfig} {T : BlockMap BlockTag}

/-- The calls of the runtime to its allocator.  A pointer is an address, `0` is the null pointer,
and `Except.error` is a call that stops the program. -/
structure RcHeap (α : Type*) where
  /-- `rc_heap_allocate`. -/
  allocate : α → ℕ → Except String (ℕ × α)
  /-- `rc_heap_deallocate`. -/
  deallocate : α → ℕ → Except String α
  /-- `rc_heap_resize`, with the old and the new bytes. -/
  resize : α → ℕ → ℕ → ℕ → Except String (ℕ × α)
  /-- The growth of the locals of a frame, whose contents need not survive. -/
  growLocals : α → ℕ → ℕ → ℕ → Except String (ℕ × α)
  /-- `rc_heap_charge`: the storage of the block at a pointer, for the requested bytes. -/
  charge : α → ℕ → ℕ → Except String ℕ
  /-- The program writes into its blocks. -/
  written : α → α → Prop

/-- The pool as the backing heap. -/
def RcHeap.pool (cfg : PoolConfig) : RcHeap Pool where
  allocate := minyarPoolAllocate cfg
  deallocate := minyarPoolDeallocate cfg
  resize := minyarPoolResize cfg
  growLocals s pointer _ bytes := minyarPoolResizeDiscard cfg s pointer bytes
  charge s pointer _ := do return poolBlockSize (← poolAllocatedOrder cfg s pointer)
  written s s' := ∃ bytes : ByteMemory, s' = { s with bytes := bytes } ∧
    ∀ a, (∀ p o, poolAllocatedOrder cfg s p = .ok o → a < p ∨ p + poolBlockSize o ≤ a) →
      bytes a = s.bytes a

/-- The allocator of the system, over its own variables. -/
structure SystemHeap (α : Type*) where
  /-- `malloc`: the null pointer when there is no storage. -/
  malloc : α → ℕ → ℕ × α
  /-- `free`. -/
  free : α → ℕ → α
  /-- `realloc`: the null pointer when there is no storage. -/
  realloc : α → ℕ → ℕ → ℕ × α

/-- The result of a call that stops the program when there is no storage. -/
def SystemHeap.orStop (result : ℕ × α) : Except String (ℕ × α) :=
  if result.1 = 0 then .error "the computer ran out of memory." else .ok result

/-- `rc_heap_resize` over the allocator of the system. -/
def SystemHeap.resize (m : SystemHeap α) (s : α) (pointer bytes : ℕ) : Except String (ℕ × α) :=
  SystemHeap.orStop (if pointer = 0 then m.malloc s bytes else m.realloc s pointer bytes)

/-- The allocator of the system as the backing heap. -/
def RcHeap.system (m : SystemHeap α) : RcHeap α where
  allocate s bytes := SystemHeap.orStop (m.malloc s bytes)
  deallocate s pointer := .ok (if pointer = 0 then s else m.free s pointer)
  resize s pointer _ bytes := m.resize s pointer bytes
  growLocals s pointer _ bytes := m.resize s pointer bytes
  charge _ _ bytes := .ok bytes
  written s s' := s' = s

/-! ## Laws -/

/-- The charges of the given blocks are the same in both states. -/
def RcHeap.Keeps (H : RcHeap α) (s s' : α) (live : Set ℕ) : Prop :=
  ∀ p ∈ live, ∀ bytes, H.charge s' p bytes = H.charge s p bytes

/-- What a call that replaces the block at a pointer, or the null pointer, returns. -/
structure RcHeap.Replaces (H : RcHeap α) (Inv : α → Set ℕ → Prop) (s : α) (live : Set ℕ)
    (pointer bytes : ℕ) (result : ℕ × α) : Prop where
  /-- There is no larger storage. -/
  bytes_lt : bytes < 2 ^ 63
  /-- The new storage is not in use. -/
  fresh : result.1 ∉ live \ {pointer}
  /-- It is in use now. -/
  inv : Inv result.2 (insert result.1 (live \ {pointer}))
  /-- The charges of the other blocks stay. -/
  keeps : H.Keeps s result.2 (live \ {pointer})

/-- What the runtime relies on, for the blocks in use and the addresses that blocks may have. -/
structure RcHeap.Lawful (H : RcHeap α) (Inv : α → Set ℕ → Prop) (space : Set ℕ) : Prop where
  /-- The null pointer is no block. -/
  zero_notMem : 0 ∉ space
  /-- The blocks lie where blocks may lie. -/
  subset : ∀ {s live}, Inv s live → live ⊆ space
  /-- A block has a charge. -/
  charge : ∀ {s live p bytes}, Inv s live → p ∈ live → bytes < 2 ^ 63 →
    ∃ charge < 2 ^ 63, H.charge s p bytes = .ok charge
  /-- An allocation. -/
  allocate : ∀ {s live bytes result}, Inv s live → H.allocate s bytes = .ok result →
    H.Replaces Inv s live 0 bytes result
  /-- A release; it does not stop. -/
  deallocate : ∀ {s live p}, Inv s live → p = 0 ∨ p ∈ live →
    ∃ s', H.deallocate s p = .ok s' ∧ Inv s' (live \ {p}) ∧ H.Keeps s s' (live \ {p})
  /-- A resize. -/
  resize : ∀ {s live p old bytes result}, Inv s live → p = 0 ∨ p ∈ live →
    H.resize s p old bytes = .ok result → H.Replaces Inv s live p bytes result
  /-- The growth of the locals of a frame. -/
  growLocals : ∀ {s live p old bytes result}, Inv s live → p = 0 ∨ p ∈ live →
    H.growLocals s p old bytes = .ok result → H.Replaces Inv s live p bytes result
  /-- Writing into blocks. -/
  written : ∀ {s s' live}, Inv s live → H.written s s' → Inv s' live ∧ H.Keeps s s' live

/-! ## The pool -/

/-- The pool satisfies its invariant and its allocated blocks are the ones in use. -/
def PoolHolds (cfg : PoolConfig) (s : Pool) (live : Set ℕ) : Prop :=
  ∃ T, PoolInv cfg s T ∧ live = allocatedPointers cfg T

/-- The charge of an allocated block is its size. -/
theorem PoolInv.charge {s : Pool} (h : PoolInv cfg s T) {u o : ℕ}
    (hu : T u = some (o, .allocated)) (bytes : ℕ) :
    (RcHeap.pool cfg).charge s (unitAddress cfg u) bytes = .ok (poolBlockSize o) := by
  simp only [RcHeap.pool, h.allocatedOrder hu]
  rfl

/-- Blocks that stay allocated keep their charges. -/
theorem PoolInv.keeps {s s' : Pool} {T' : BlockMap BlockTag} (h : PoolInv cfg s T)
    (h' : PoolInv cfg s' T') {live : Set ℕ} (hlive : ∀ p ∈ live, ∃ u o,
      T u = some (o, .allocated) ∧ T' u = some (o, .allocated) ∧ p = unitAddress cfg u) :
    (RcHeap.pool cfg).Keeps s s' live := by
  intro p hp bytes
  obtain ⟨u, o, hu, hu', rfl⟩ := hlive p hp
  rw [h.charge hu, h'.charge hu']

/-- An allocation from the pool. -/
theorem PoolInv.replaces_allocate {s : Pool} (h : PoolInv cfg s T) {bytes : ℕ} {result : ℕ × Pool}
    (hok : minyarPoolAllocate cfg s bytes = .ok result) :
    (RcHeap.pool cfg).Replaces (PoolHolds cfg) s (allocatedPointers cfg T) 0 bytes result := by
  have hzero : allocatedPointers cfg T \ {0} = allocatedPointers cfg T :=
    Set.sdiff_singleton_eq_self zero_notMem_allocatedPointers
  have hsize : bytes ≤ cfg.bytes := by
    by_contra hlarge
    unfold minyarPoolAllocate minyarPoolTryAllocate at hok
    rw [if_pos (not_le.mp hlarge)] at hok
    cases hok
  have hmax := cfg.max_bytes
  rcases h.allocate bytes with ⟨-, text, heq⟩ | ⟨s', u, o, T', heq, hT', -, hnew, hiff⟩
  · rw [heq] at hok
    cases hok
  · rw [heq, Except.ok.injEq] at hok
    subst hok
    refine ⟨?_, ?_, ?_, ?_⟩
    · unfold PoolConfig.bytes at hsize
      omega
    · rw [hzero]
      rintro ⟨v, p, hv, heq⟩
      exact hnew p (unitAddress_injective cfg heq ▸ hv)
    · rw [hzero]
      exact ⟨T', hT', (allocatedPointers_insert hiff).symm⟩
    · rw [hzero]
      refine h.keeps hT' ?_
      rintro _ ⟨v, p, hv, rfl⟩
      exact ⟨v, p, hv, (hiff v p).mpr (Or.inr hv), rfl⟩

/-- A call that replaces a block of the pool. -/
theorem PoolInv.replaces {s : Pool} (h : PoolInv cfg s T) {u bytes : ℕ}
    {call : Except String (ℕ × Pool)} {result : ℕ × Pool}
    (hcall : (∃ text, call = .error text) ∨ ∃ s' u' o T', call = .ok (unitAddress cfg u', s') ∧
      PoolInv cfg s' T' ∧ PoolInv.Replaced T T' u u' o ∧ PoolInv.Fresh T u u')
    (hlarge : bytes > cfg.bytes → ∃ text, call = .error text) (hok : call = .ok result) :
    (RcHeap.pool cfg).Replaces (PoolHolds cfg) s (allocatedPointers cfg T) (unitAddress cfg u)
      bytes result := by
  have hsize : bytes ≤ cfg.bytes := by
    by_contra hcon
    obtain ⟨text, heq⟩ := hlarge (not_le.mp hcon)
    rw [heq] at hok
    cases hok
  have hmax := cfg.max_bytes
  rcases hcall with ⟨text, heq⟩ | ⟨s', u', o, T', heq, hT', hrep, hfresh⟩
  · rw [heq] at hok
    cases hok
  · rw [heq, Except.ok.injEq] at hok
    subst hok
    refine ⟨?_, ?_, ⟨T', hT', (allocatedPointers_replace hrep).symm⟩, ?_⟩
    · unfold PoolConfig.bytes at hsize
      omega
    · rintro ⟨⟨v, p, hv, heq⟩, hne⟩
      obtain rfl := unitAddress_injective cfg heq
      exact hfresh (fun heq => hne (heq ▸ rfl)) p hv
    · refine h.keeps hT' ?_
      rintro _ ⟨⟨v, p, hv, rfl⟩, hne⟩
      have hvu : v ≠ u := fun heq => hne (heq ▸ rfl)
      exact ⟨v, p, hv, (hrep v p).mpr (Or.inr ⟨hvu, hv⟩), rfl⟩

/-- The program may write into the blocks that the map shows as allocated. -/
theorem PoolInv.written {s : Pool} (h : PoolInv cfg s T) {bytes : ByteMemory}
    (hbytes : ∀ a, (∀ p o, poolAllocatedOrder cfg s p = .ok o → a < p ∨ p + poolBlockSize o ≤ a) →
      bytes a = s.bytes a) : PoolInv cfg { s with bytes := bytes } T := by
  refine h.with_bytes fun a ha => hbytes a fun p o hp => ?_
  by_cases hmem : p ∈ allocatedPointers cfg T
  · obtain ⟨u, q, hu, rfl⟩ := hmem
    rw [h.allocatedOrder hu, Except.ok.injEq] at hp
    exact hp ▸ ha u q hu
  · obtain ⟨text, herror⟩ := h.allocatedOrder_error hmem
    rw [herror] at hp
    cases hp

/-- The pool keeps the laws. -/
theorem RcHeap.pool_lawful (cfg : PoolConfig) :
    (RcHeap.pool cfg).Lawful (PoolHolds cfg) {a | cfg.base ≤ a ∧ a < cfg.base + cfg.bytes} := by
  refine ⟨?_, ?_, ?_, ?_, ?_, ?_, ?_, ?_⟩
  · have := cfg.base_pos
    rintro ⟨hzero, -⟩
    omega
  · rintro s _ ⟨T, hT, rfl⟩ _ ⟨u, o, hu, rfl⟩
    have hlt := hT.shape.tiles.lt hu
    have hbytes := hT.shape.bytes_eq
    rw [poolMinimum_eq] at hbytes
    unfold unitAddress
    rw [poolMinimum_eq]
    constructor
    · omega
    · omega
  · rintro s _ p bytes ⟨T, hT, rfl⟩ ⟨u, o, hu, rfl⟩ -
    refine ⟨_, ?_, hT.charge hu bytes⟩
    have hle := Nat.mul_le_mul_left poolMinimum
      (Nat.pow_le_pow_right two_pos (hT.shape.tiles.order_le hu))
    have hmax := cfg.max_bytes
    rw [hT.shape.bytes_eq] at hle
    rw [poolBlockSize_eq]
    unfold PoolConfig.bytes at hle
    omega
  · rintro s _ bytes result ⟨T, hT, rfl⟩ hok
    exact hT.replaces_allocate hok
  · rintro s _ p ⟨T, hT, rfl⟩ (rfl | ⟨u, o, hu, rfl⟩)
    · rw [Set.sdiff_singleton_eq_self zero_notMem_allocatedPointers]
      refine ⟨s, ?_, ⟨T, hT, rfl⟩, fun p _ bytes => rfl⟩
      simp only [RcHeap.pool, minyarPoolDeallocate, if_true]
    · obtain ⟨s', T', heq, hT', hiff⟩ := hT.deallocate hu
      refine ⟨s', heq, ⟨T', hT', (allocatedPointers_remove hiff).symm⟩, hT.keeps hT' ?_⟩
      rintro _ ⟨⟨v, p, hv, rfl⟩, hne⟩
      exact ⟨v, p, hv, (hiff v p).mpr ⟨fun heq => hne (heq ▸ rfl), hv⟩, rfl⟩
  · rintro s _ p old bytes result ⟨T, hT, rfl⟩ (rfl | ⟨u, o, hu, rfl⟩) hok
    · refine hT.replaces_allocate ?_
      simpa only [RcHeap.pool, minyarPoolResize, if_true] using hok
    · exact hT.replaces (hT.resize hu old bytes)
        (fun hlarge => (hT.resize_stops_iff hu old bytes).mpr (Or.inl hlarge)) hok
  · rintro s _ p old bytes result ⟨T, hT, rfl⟩ (rfl | ⟨u, o, hu, rfl⟩) hok
    · refine hT.replaces_allocate ?_
      simpa only [RcHeap.pool, minyarPoolResizeDiscard, if_true] using hok
    · refine hT.replaces (hT.resizeDiscard hu bytes) (fun hlarge => ?_) hok
      obtain ⟨text, herror⟩ := hT.planResize_error hu hlarge
      unfold minyarPoolResizeDiscard
      rw [if_neg (unitAddress_ne_zero cfg u), herror]
      exact ⟨text, rfl⟩
  · rintro s s' _ ⟨T, hT, rfl⟩ ⟨bytes, rfl, hbytes⟩
    exact ⟨⟨T, hT.written hbytes, rfl⟩, fun p _ bytes => rfl⟩

/-! ## The system -/

/-- What the documentation of the allocator of the system promises, for the blocks in use and the
addresses that blocks may have. -/
structure SystemHeap.Lawful (m : SystemHeap α) (Inv : α → Set ℕ → Prop) (space : Set ℕ) : Prop where
  /-- The null pointer is no block. -/
  zero_notMem : 0 ∉ space
  /-- The blocks lie where blocks may lie. -/
  subset : ∀ {s live}, Inv s live → live ⊆ space
  /-- `malloc` returns storage that is not in use; more than `PTRDIFF_MAX` bytes are an error. -/
  malloc : ∀ {s live bytes}, Inv s live → (m.malloc s bytes).1 ≠ 0 →
    bytes < 2 ^ 63 ∧ (m.malloc s bytes).1 ∉ live ∧
      Inv (m.malloc s bytes).2 (insert (m.malloc s bytes).1 live)
  /-- `free` takes a block back. -/
  free : ∀ {s live p}, Inv s live → p ∈ live → Inv (m.free s p) (live \ {p})
  /-- `realloc` replaces a block; more than `PTRDIFF_MAX` bytes are an error. -/
  realloc : ∀ {s live p bytes}, Inv s live → p ∈ live → (m.realloc s p bytes).1 ≠ 0 →
    bytes < 2 ^ 63 ∧ (m.realloc s p bytes).1 ∉ live \ {p} ∧
      Inv (m.realloc s p bytes).2 (insert (m.realloc s p bytes).1 (live \ {p}))

namespace SystemHeap

variable {m : SystemHeap α} {Inv : α → Set ℕ → Prop} {space : Set ℕ}

/-- A call that does not stop has storage. -/
theorem orStop_eq_ok {call result : ℕ × α} (h : orStop call = .ok result) :
    call.1 ≠ 0 ∧ result = call := by
  unfold orStop at h
  split_ifs at h with hzero
  exact ⟨hzero, (Except.ok.inj h).symm⟩

/-- An allocation of the system. -/
theorem Lawful.replaces_malloc (h : m.Lawful Inv space) {s : α} {live : Set ℕ} (hs : Inv s live)
    {bytes : ℕ} {result : ℕ × α} (hok : orStop (m.malloc s bytes) = .ok result) :
    (RcHeap.system m).Replaces Inv s live 0 bytes result := by
  have hzero := Set.sdiff_singleton_eq_self fun hmem => h.zero_notMem (h.subset hs hmem)
  obtain ⟨hne, rfl⟩ := orStop_eq_ok hok
  obtain ⟨hlt, hfresh, hinv⟩ := h.malloc hs hne
  refine ⟨hlt, ?_, ?_, fun p _ bytes => rfl⟩
  · rwa [hzero]
  · rwa [hzero]

/-- A resize of the system. -/
theorem Lawful.replaces_resize (h : m.Lawful Inv space) {s : α} {live : Set ℕ} (hs : Inv s live)
    {p bytes : ℕ} {result : ℕ × α} (hp : p = 0 ∨ p ∈ live)
    (hok : m.resize s p bytes = .ok result) :
    (RcHeap.system m).Replaces Inv s live p bytes result := by
  unfold resize at hok
  split_ifs at hok with hzero
  · exact hzero ▸ h.replaces_malloc hs hok
  · obtain ⟨hne, rfl⟩ := orStop_eq_ok hok
    obtain ⟨hlt, hfresh, hinv⟩ := h.realloc hs (hp.resolve_left hzero) hne
    exact ⟨hlt, hfresh, hinv, fun p _ bytes => rfl⟩

end SystemHeap

/-- The allocator of the system keeps the laws. -/
theorem RcHeap.system_lawful {m : SystemHeap α} {Inv : α → Set ℕ → Prop} {space : Set ℕ}
    (h : m.Lawful Inv space) : (RcHeap.system m).Lawful Inv space where
  zero_notMem := h.zero_notMem
  subset := h.subset
  charge := fun {s live p bytes} _ _ hlt => ⟨bytes, hlt, rfl⟩
  allocate := fun hs hok => h.replaces_malloc hs hok
  deallocate := by
    rintro s live p hs hp
    by_cases hzero : p = 0
    · subst hzero
      rw [Set.sdiff_singleton_eq_self fun hmem => h.zero_notMem (h.subset hs hmem)]
      exact ⟨s, rfl, hs, fun p _ bytes => rfl⟩
    · refine ⟨m.free s p, ?_, h.free hs (hp.resolve_left hzero), fun p _ bytes => rfl⟩
      simp only [RcHeap.system, if_neg hzero]
  resize := fun hs hp hok => h.replaces_resize hs hp hok
  growLocals := fun hs hp hok => h.replaces_resize hs hp hok
  written := by
    rintro s s' live hs rfl
    exact ⟨hs, fun p _ bytes => rfl⟩

end Minyar

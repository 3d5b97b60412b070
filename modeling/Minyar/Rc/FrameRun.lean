import Minyar.Rc.FrameLists

/-!
# Runs of the frames

A run enters and leaves activations, serves detached frames, and writes locals and temporaries, in
any order; between these calls the rest of the runtime allocates, releases and resizes other blocks.
Activations in the storage of callers are part of the list of active frames too.
-/

namespace Minyar

variable {α : Type}

/-- The variables of the frames in a run over a heap, with the other blocks in use and the headers
in the storage of callers. -/
inductive RcFrameRun (H : RcHeap α) (space : Set ℕ) (limit : ℕ) (heap : α) :
    RcFrameStore α → Set ℕ → Finset ℕ → Prop
  | start : RcFrameRun H space limit heap (RcFrameStore.initial heap) ∅ ∅
  | enter {s s' others stack} (contents : ℕ → ℕ) (locals : ℤ) :
      RcFrameRun H space limit heap s others stack → rcEnterFrame H contents s locals = .ok s' →
      RcFrameRun H space limit heap s' others stack
  | leave {s others stack} : RcFrameRun H space limit heap s others stack → s.frames ≠ 0 →
      s.frames ∉ stack → RcFrameRun H space limit heap (rcLeaveFrame s) others stack
  | unit {s others stack result} : RcFrameRun H space limit heap s others stack →
      s.frameHead ≠ 0 → rcFrameUnit H limit s = .ok result →
      RcFrameRun H space limit heap result.2 others stack
  | enterStack {s others stack} (frame storage count : ℕ) :
      RcFrameRun H space limit heap s others stack → frame ≠ 0 → frame ∉ space → frame ∉ stack →
      RcFrameRun H space limit heap (rcEnterStackFrame s frame storage count) others
        (insert frame stack)
  | leaveStack {s others stack} : RcFrameRun H space limit heap s others stack → s.frames ≠ 0 →
      s.frames ∈ stack →
      RcFrameRun H space limit heap (rcLeaveStackFrame s) others (stack.erase s.frames)
  | localTake {s others stack} (index value : ℕ) : RcFrameRun H space limit heap s others stack →
      RcFrameRun H space limit heap (rcFrameLocalTake s index value).2 others stack
  | localMove {s others stack} (index : ℕ) : RcFrameRun H space limit heap s others stack →
      RcFrameRun H space limit heap (rcFrameLocalMove s index) others stack
  | temporaries {s others stack} (head tail count : ℕ) :
      RcFrameRun H space limit heap s others stack →
      RcFrameRun H space limit heap (rcFrameTemporaries s head tail count) others stack
  | allocate {s others stack bytes result} : RcFrameRun H space limit heap s others stack →
      H.allocate s.heap bytes = .ok result →
      RcFrameRun H space limit heap { s with heap := result.2 } (insert result.1 others) stack
  | deallocate {s others stack p heap'} : RcFrameRun H space limit heap s others stack →
      p = 0 ∨ p ∈ others → H.deallocate s.heap p = .ok heap' →
      RcFrameRun H space limit heap { s with heap := heap' } (others \ {p}) stack
  | resize {s others stack p old bytes result} : RcFrameRun H space limit heap s others stack →
      p = 0 ∨ p ∈ others → H.resize s.heap p old bytes = .ok result →
      RcFrameRun H space limit heap { s with heap := result.2 } (insert result.1 (others \ {p}))
        stack
  | write {s others stack heap'} : RcFrameRun H space limit heap s others stack →
      H.written s.heap heap' → RcFrameRun H space limit heap { s with heap := heap' } others stack

variable {H : RcHeap α} {Inv : α → Set ℕ → Prop} {space others : Set ℕ} {limit : ℕ}
  {heap : α} {s s' : RcFrameStore α} {stack : Finset ℕ} {p : ℕ}

namespace RcFramesInv

variable {active queued cached : List ℕ}

/-- Nothing is active, detached or cached before the program starts. -/
theorem initial (hheap : Inv heap ∅) (limit : ℕ) :
    RcFramesInv H Inv space limit (RcFrameStore.initial heap) ∅ ∅ [] [] [] [] := by
  refine ⟨⟨rfl, rfl, rfl, rfl, rfl, Nat.zero_le _⟩, ⟨List.nodup_nil, ⟨List.nodup_nil, ?_, ?_, ?_⟩, ?_⟩,
    ?_⟩
  · exact fun a ha => absurd ha List.not_mem_nil
  · have hlive : (∅ : Set ℕ) ∪ {a | a ∈ ([] : List ℕ).flatMap
        (RcFrameStore.initial heap).blocks} = ∅ := by simp
    have hinv := hheap
    rw [← hlive] at hinv
    exact hinv
  · exact fun p hp => absurd hp List.not_mem_nil
  · exact fun p hp => absurd hp (Finset.notMem_empty p)
  · exact fun p hp => absurd hp List.not_mem_nil

/-- A header changes, but not its link and its blocks. -/
theorem modify_kept (h : RcFramesInv H Inv space limit s others stack [] active queued cached)
    {f : RcFrameHeader → RcFrameHeader} (hnext : (f (s.header p)).previous = s.next p)
    (hlocals : (f (s.header p)).locals = (s.header p).locals)
    (hcapacity : (f (s.header p)).localCapacity = (s.header p).localCapacity) :
    RcFramesInv H Inv space limit (s.modify p f) others stack [] active queued cached :=
  h.of_cache (h.toRcFrameCache.modify_kept hnext hlocals hcapacity) rfl
    (fun q => RcFrameStore.sameFrame_modify hlocals hcapacity q) (List.Perm.refl _) h.off_stack

/-- An activation in the storage of its caller starts. -/
theorem enter_stack (h : RcFramesInv H Inv space limit s others stack [] active queued cached)
    (hH : H.Lawful Inv space) (storage count : ℕ) (hzero : p ≠ 0) (hspace : p ∉ space)
    (hstack : p ∉ stack) :
    RcFramesInv H Inv space limit (rcEnterStackFrame s p storage count) others (insert p stack) []
      (p :: active) queued cached := by
  have hp : p ∉ active ++ queued ++ cached := fun hmem =>
    hspace (h.owned.blocks.mem_space hH (RcFramesOwned.mem_owned hmem hstack))
  unfold rcEnterStackFrame
  generalize Function.update s.words storage _ = words
  have hmodify := (h.with_words words).modify_of_notMem hp fun _ =>
    { previous := s.frames, locals := storage, localCount := count, localCapacity := count }
  have hpush : RcFrameCache H limit _ (p :: active) queued cached :=
    hmodify.toRcFrameCache.pushActive hzero (by
      unfold RcFrameStore.next
      rw [RcFrameStore.modify_header_self]
      rfl)
  have hfilter : heapFrames (insert p stack) ([] ++ (p :: active ++ queued ++ cached)) =
      heapFrames stack ([] ++ (active ++ queued ++ cached)) := by
    have hcons : [] ++ (p :: active ++ queued ++ cached) = p :: (active ++ queued ++ cached) := rfl
    rw [hcons, heapFrames, List.filter_cons_of_neg (by simp)]
    refine List.filter_congr fun q hq => ?_
    have hne : q ≠ p := fun heq => hp (heq ▸ hq)
    simp [hne]
  refine ⟨hpush, ⟨List.nodup_cons.mpr ⟨hp, h.owned.nodup⟩, ?_, ?_⟩, fun q hq => ?_⟩
  · rw [hfilter]
    exact hmodify.owned.blocks.congr rfl fun _ _ => ⟨rfl, rfl⟩
  · intro q hq
    rcases Finset.mem_insert.mp hq with rfl | hq
    · exact hspace
    · exact h.owned.stack_space q hq
  · rw [Finset.mem_insert, not_or]
    refine ⟨fun heq => hp ?_, h.off_stack q hq⟩
    simp only [List.nil_append, List.mem_append] at hq ⊢
    rw [← heq]
    tauto

/-- An activation in the storage of its caller ends. -/
theorem leave_stack
    (h : RcFramesInv H Inv space limit s others stack [] (p :: active) queued cached)
    (hstack : p ∈ stack) :
    RcFramesInv H Inv space limit (rcLeaveStackFrame s) others (stack.erase p) [] active queued
      cached := by
  obtain ⟨hp, hpop⟩ := h.popActive
  have hnodup := List.nodup_cons.mp h.owned.nodup
  have hfilter : heapFrames (stack.erase p) ([] ++ (active ++ queued ++ cached)) =
      heapFrames stack ([] ++ (p :: active ++ queued ++ cached)) := by
    have hcons : [] ++ (p :: active ++ queued ++ cached) = p :: (active ++ queued ++ cached) := rfl
    rw [hcons, heapFrames, heapFrames, List.filter_cons_of_neg (by simp [hstack])]
    refine List.filter_congr fun q hq => ?_
    have hne : q ≠ p := fun heq => hnodup.1 (heq ▸ hq)
    simp [hne]
  have hmodify := hpop.modify hnodup.1 fun header =>
    { header.retireTemporaries with writtenCount := 0 }
  have hsame : ∀ q, RcFrameStore.SameFrame s (rcLeaveStackFrame s) q := by
    intro q
    have hkept := RcFrameStore.sameFrame_modify (s := { s with frames := s.next s.frames })
      (p := s.frames) (f := fun header => { header.retireTemporaries with writtenCount := 0 })
      (by unfold RcFrameHeader.retireTemporaries; split <;> rfl)
      (by unfold RcFrameHeader.retireTemporaries; split <;> rfl) q
    exact ⟨hkept.locals, hkept.capacity⟩
  refine ⟨?_, ⟨hnodup.2, ?_, fun q hq => h.owned.stack_space q (Finset.mem_of_mem_erase hq)⟩,
    fun q hq hmem => h.off_stack q hq (Finset.mem_of_mem_erase hmem)⟩
  · unfold rcLeaveStackFrame
    rw [hp]
    exact hmodify
  · rw [hfilter]
    exact h.owned.blocks.congr rfl fun q _ => hsame q

/-- The heap is written. -/
theorem write (h : RcFramesInv H Inv space limit s others stack [] active queued cached)
    (hH : H.Lawful Inv space) {heap' : α} (hwritten : H.written s.heap heap') :
    RcFramesInv H Inv space limit { s with heap := heap' } others stack [] active queued cached := by
  obtain ⟨hinv, hkeeps⟩ := hH.written h.owned.blocks.heap hwritten
  have hblocks := h.owned.blocks
  refine ⟨h.with_heap fun q hq a ha bytes => hkeeps a (RcFrameBlocks.mem_live ?_ ha) bytes,
    ⟨h.owned.nodup, ⟨hblocks.nodup, hblocks.apart, hinv, hblocks.capacity⟩, h.owned.stack_space⟩,
    h.off_stack⟩
  exact RcFramesOwned.mem_owned (by simp [hq]) (h.off_stack q (by simp [hq]))

end RcFramesInv

/-- In every run the frames form three lists with their blocks. -/
theorem RcFrameRun.framesInv (h : RcFrameRun H space limit heap s others stack)
    (hH : H.Lawful Inv space) (hheap : Inv heap ∅) (hlimit : limit < 2 ^ 64) :
    ∃ active queued cached,
      RcFramesInv H Inv space limit s others stack [] active queued cached := by
  induction h with
  | start => exact ⟨[], [], [], RcFramesInv.initial hheap limit⟩
  | enter contents locals _ hok ih =>
    obtain ⟨active, queued, cached, ih⟩ := ih
    obtain ⟨⟨p, cached', h'⟩, -⟩ := ih.enter hH hlimit hok
    exact ⟨p :: active, queued, cached', h'⟩
  | leave _ hframes hstack ih =>
    obtain ⟨active, queued, cached, ih⟩ := ih
    obtain ⟨active', rfl, -⟩ := ih.frames.exists_cons hframes
    exact ⟨active', _, cached, ih.leave hH hstack⟩
  | unit _ hhead hok ih =>
    obtain ⟨active, queued, cached, ih⟩ := ih
    obtain ⟨v, s', queued', cached', hok', h'⟩ := ih.unit hH hlimit hhead
    rw [hok', Except.ok.injEq] at hok
    subst hok
    exact ⟨active, queued', cached', h'⟩
  | enterStack frame storage count _ hzero hspace hstack ih =>
    obtain ⟨active, queued, cached, ih⟩ := ih
    exact ⟨frame :: active, queued, cached, ih.enter_stack hH storage count hzero hspace hstack⟩
  | leaveStack _ hframes hstack ih =>
    obtain ⟨active, queued, cached, ih⟩ := ih
    obtain ⟨active', rfl, -⟩ := ih.frames.exists_cons hframes
    exact ⟨active', queued, cached, ih.leave_stack hstack⟩
  | localTake index value _ ih =>
    obtain ⟨active, queued, cached, ih⟩ := ih
    refine ⟨active, queued, cached, ?_⟩
    unfold rcFrameLocalTake
    simp only
    refine (ih.with_words _).modify_kept ?_ ?_ ?_
    · rfl
    · rfl
    · rfl
  | localMove index _ ih =>
    obtain ⟨active, queued, cached, ih⟩ := ih
    exact ⟨active, queued, cached, ih.with_words _⟩
  | temporaries head tail count _ ih =>
    obtain ⟨active, queued, cached, ih⟩ := ih
    exact ⟨active, queued, cached, ih.modify_kept rfl rfl rfl⟩
  | @allocate s others stack bytes result _ hok ih =>
    obtain ⟨active, queued, cached, ih⟩ := ih
    have h' := ih.replaces hH (Or.inl rfl) (hH.allocate ih.owned.blocks.heap hok)
    rw [Set.sdiff_singleton_eq_self fun hmem =>
      ih.owned.blocks.zero_notMem hH (Or.inl hmem)] at h'
    exact ⟨active, queued, cached, h'⟩
  | deallocate _ hp hok ih =>
    obtain ⟨active, queued, cached, ih⟩ := ih
    obtain ⟨heap', hok', h'⟩ := ih.deallocate hH hp
    rw [hok', Except.ok.injEq] at hok
    subst hok
    exact ⟨active, queued, cached, h'⟩
  | resize _ hp hok ih =>
    obtain ⟨active, queued, cached, ih⟩ := ih
    exact ⟨active, queued, cached, ih.replaces hH hp
      (hH.resize ih.owned.blocks.heap (hp.imp id Or.inl) hok)⟩
  | write _ hwritten ih =>
    obtain ⟨active, queued, cached, ih⟩ := ih
    exact ⟨active, queued, cached, ih.write hH hwritten⟩

/-! ## The cache of frames in every run -/

/-- What the runtime promises of its frames. -/
structure RcFramesSound (H : RcHeap α) (limit : ℕ) (s : RcFrameStore α) : Prop where
  /-- The counter of cached bytes is the sum of the charges of the cached frames and does not exceed
  the limit, and no frame is on two lists. -/
  lists : ∃ active queued cached, RcFrameCache H limit s active queued cached ∧
    (active ++ queued ++ cached).Nodup
  /-- Entering an activation reuses the first cached frame without underflow of the counter, and
  starts with null locals. -/
  enter : ∀ contents locals s', rcEnterFrame H contents s locals = .ok s' →
    RcFrameEntered H s s' locals.toNat
  /-- Serving a detached frame does not stop. -/
  unit : s.frameHead ≠ 0 → ∃ result, rcFrameUnit H limit s = .ok result

/-- Over a lawful heap the promises are kept. -/
theorem RcFrameRun.sound (h : RcFrameRun H space limit heap s others stack)
    (hH : H.Lawful Inv space) (hheap : Inv heap ∅) (hlimit : limit < 2 ^ 64) :
    RcFramesSound H limit s := by
  obtain ⟨active, queued, cached, hinv⟩ := h.framesInv hH hheap hlimit
  refine ⟨⟨active, queued, cached, hinv.toRcFrameCache, hinv.owned.nodup⟩,
    fun contents locals s' hok => (hinv.enter hH hlimit hok).2, fun hhead => ?_⟩
  obtain ⟨v, s', queued', cached', hok, -⟩ := hinv.unit hH hlimit hhead
  exact ⟨(v, s'), hok⟩

/-- The pool before the program starts holds nothing. -/
theorem poolHolds_start (cfg : PoolConfig) : PoolHolds cfg (minyarPoolInitialize cfg) ∅ := by
  obtain ⟨T, hT, hlive⟩ := (PoolReachable.start : PoolReachable cfg _ _).poolInv
  exact ⟨T, hT, hlive⟩

/-- In every run over the pool, and in every run over an allocator of the system that does what its
documentation promises, the counter of cached bytes is the sum of the charges of the cached frames,
never exceeds its limit and never underflows, no frame is on two lists, and an activation starts
with null locals and no written one. -/
theorem rcFrames_sound (limit : ℕ) (hlimit : limit < 2 ^ 64) :
    (∀ (cfg : PoolConfig) (s : RcFrameStore Pool) (others : Set ℕ) (stack : Finset ℕ),
      RcFrameRun (RcHeap.pool cfg) {a | cfg.base ≤ a ∧ a < cfg.base + cfg.bytes} limit
        (minyarPoolInitialize cfg) s others stack → RcFramesSound (RcHeap.pool cfg) limit s) ∧
    ∀ (α : Type) (m : SystemHeap α) (Inv : α → Set ℕ → Prop) (space : Set ℕ),
      m.Lawful Inv space → ∀ (heap : α), Inv heap ∅ →
        ∀ (s : RcFrameStore α) (others : Set ℕ) (stack : Finset ℕ),
          RcFrameRun (RcHeap.system m) space limit heap s others stack →
            RcFramesSound (RcHeap.system m) limit s :=
  ⟨fun cfg _ _ _ h => h.sound (RcHeap.pool_lawful cfg) (poolHolds_start cfg) hlimit,
    fun _ _ _ _ hm _ hheap _ _ _ h => h.sound (RcHeap.system_lawful hm) hheap hlimit⟩

/-- An allocator that never uses storage again: its variable is the last address in use. -/
def bumpHeap : SystemHeap ℕ where
  malloc s bytes := if bytes < 2 ^ 63 then (s + 1, s + 1 + bytes) else (0, s)
  free s _ := s
  realloc s _ bytes := if bytes < 2 ^ 63 then (s + 1, s + 1 + bytes) else (0, s)

/-- It does what the documentation promises. -/
theorem bumpHeap_lawful :
    bumpHeap.Lawful (fun s live => ∀ p ∈ live, 0 < p ∧ p ≤ s) {a | 0 < a} := by
  have hnew : ∀ {s bytes : ℕ} {live : Set ℕ}, (∀ p ∈ live, 0 < p ∧ p ≤ s) →
      (bumpHeap.malloc s bytes).1 ≠ 0 → bytes < 2 ^ 63 ∧ (bumpHeap.malloc s bytes).1 ∉ live ∧
        ∀ p ∈ insert (bumpHeap.malloc s bytes).1 live, 0 < p ∧ p ≤ (bumpHeap.malloc s bytes).2 := by
    intro s bytes live hlive hne
    unfold bumpHeap at hne ⊢
    simp only at hne ⊢
    split_ifs at hne ⊢ with hlt
    · refine ⟨hlt, fun hmem => ?_, ?_⟩
      · have := hlive _ hmem
        omega
      · rintro p (rfl | hp)
        · simp only
          omega
        · have := hlive p hp
          simp only
          omega
    · exact absurd rfl hne
  refine ⟨lt_irrefl 0, fun hlive p hp => (hlive p hp).1, hnew, fun hlive _ p hp => hlive p hp.1,
    fun hlive _ hne => hnew (fun p hp => hlive p hp.1) hne⟩

/-- After an activation with three locals its frame is cached, over a pool of one page and over an
allocator that never uses storage again. -/
theorem rcFrames_sound_cached :
    (∃ s others stack, RcFrameRun (RcHeap.pool pagePool) {a | 4096 ≤ a ∧ a < 4096 + pagePool.bytes}
        1088 (minyarPoolInitialize pagePool) s others stack ∧ s.freeFrames ≠ 0 ∧
        RcFramesSound (RcHeap.pool pagePool) 1088 s) ∧
      ∃ s others stack, RcFrameRun (RcHeap.system bumpHeap) {a | 0 < a} 1088 0 s others stack ∧
        s.freeFrames ≠ 0 ∧ RcFramesSound (RcHeap.system bumpHeap) 1088 s := by
  constructor
  · obtain ⟨s, hs, hframes, hhead, r, hr, hcached⟩ : ∃ s, rcEnterFrame (RcHeap.pool pagePool)
        (fun _ => 7) (RcFrameStore.initial (minyarPoolInitialize pagePool)) 3 = .ok s ∧
        s.frames = 4096 ∧ (rcLeaveFrame s).frameHead = 4096 ∧
        ∃ r, rcFrameUnit (RcHeap.pool pagePool) 1088 (rcLeaveFrame s) = .ok r ∧
          r.2.freeFrames = 4096 := by
      refine ⟨_, rfl, ?_, ?_, _, rfl, ?_⟩
      · decide
      · decide
      · decide
    have hrun : RcFrameRun (RcHeap.pool pagePool) {a | 4096 ≤ a ∧ a < 4096 + pagePool.bytes} 1088
        (minyarPoolInitialize pagePool) r.2 ∅ ∅ := by
      refine RcFrameRun.unit (RcFrameRun.leave (RcFrameRun.enter _ 3 RcFrameRun.start hs) ?_
        (Finset.notMem_empty _)) ?_ hr
      · rw [hframes]
        decide
      · rw [hhead]
        decide
    exact ⟨r.2, ∅, ∅, hrun, by rw [hcached]; decide,
      (rcFrames_sound 1088 (by norm_num)).1 pagePool _ _ _ hrun⟩
  · obtain ⟨s, hs, hframes, hhead, r, hr, hcached⟩ : ∃ s, rcEnterFrame (RcHeap.system bumpHeap)
        (fun _ => 7) (RcFrameStore.initial 0) 3 = .ok s ∧ s.frames = 1 ∧
        (rcLeaveFrame s).frameHead = 1 ∧
        ∃ r, rcFrameUnit (RcHeap.system bumpHeap) 1088 (rcLeaveFrame s) = .ok r ∧
          r.2.freeFrames = 1 := by
      refine ⟨_, rfl, ?_, ?_, _, rfl, ?_⟩
      · decide
      · decide
      · decide
    have hrun : RcFrameRun (RcHeap.system bumpHeap) {a | 0 < a} 1088 0 r.2 ∅ ∅ := by
      refine RcFrameRun.unit (RcFrameRun.leave (RcFrameRun.enter _ 3 RcFrameRun.start hs) ?_
        (Finset.notMem_empty _)) ?_ hr
      · rw [hframes]
        decide
      · rw [hhead]
        decide
    exact ⟨r.2, ∅, ∅, hrun, by rw [hcached]; decide,
      (rcFrames_sound 1088 (by norm_num)).2 ℕ bumpHeap _ _ bumpHeap_lawful 0
        (fun p hp => absurd hp (Set.notMem_empty p)) _ _ _ hrun⟩

end Minyar

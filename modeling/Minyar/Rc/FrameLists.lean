import Minyar.Rc.FrameCache

/-!
# The lists of frames and the charge of the cache

In every run of the runtime the active, the detached and the cached frames form three lists without
a common frame, and the counter of cached bytes is the sum of the charges of the cached frames.  The
proof takes the calls apart into moves of one frame: between two moves the frame is on none of the
lists, and the blocks of all frames stay apart from each other and from the other blocks in use.
-/

namespace Minyar

variable {α : Type} {H : RcHeap α} {Inv : α → Set ℕ → Prop} {space others : Set ℕ} {limit : ℕ}
  {s s' : RcFrameStore α} {stack : Finset ℕ} {l l' : List ℕ} {p n : ℕ}

namespace RcFrameStore

/-- The blocks of a frame. -/
def blocks (s : RcFrameStore α) (frame : ℕ) : List ℕ :=
  if (s.header frame).locals = 0 then [frame] else [frame, (s.header frame).locals]

/-- The charge of a frame: that of its header, and that of its locals at full capacity. -/
def Charge (H : RcHeap α) (s : RcFrameStore α) (frame n : ℕ) : Prop :=
  ∃ header values, H.charge s.heap frame 64 = .ok header ∧
    (if (s.header frame).locals = 0 then values = 0 else
      H.charge s.heap (s.header frame).locals ((s.header frame).localCapacity * 16) = .ok values) ∧
    n = header + values

/-- The sum of the charges of some frames. -/
def Charges (H : RcHeap α) (s : RcFrameStore α) : List ℕ → ℕ → Prop
  | [], n => n = 0
  | frame :: l, n => ∃ a b, s.Charge H frame a ∧ Charges H s l b ∧ n = a + b

/-- The frame at an address has the same blocks in both states, and the same capacity. -/
structure SameFrame (s s' : RcFrameStore α) (frame : ℕ) : Prop where
  /-- The block of the locals. -/
  locals : (s'.header frame).locals = (s.header frame).locals
  /-- Its capacity. -/
  capacity : (s'.header frame).localCapacity = (s.header frame).localCapacity

/-- The frame is one of its blocks. -/
theorem mem_blocks (s : RcFrameStore α) (frame : ℕ) : frame ∈ s.blocks frame := by
  unfold blocks
  split
  · exact List.mem_cons_self
  · exact List.mem_cons_self

/-- A frame with the same blocks. -/
theorem SameFrame.blocks_eq (h : SameFrame s s' p) : s'.blocks p = s.blocks p := by
  unfold blocks
  rw [h.locals]

/-- The charge of a frame depends on its blocks and their charges. -/
theorem Charge.congr (h : s.Charge H p n) (hsame : SameFrame s s' p)
    (hkeeps : H.Keeps s.heap s'.heap {a | a ∈ s.blocks p}) : s'.Charge H p n := by
  obtain ⟨header, values, hheader, hvalues, rfl⟩ := h
  refine ⟨header, values, ?_, ?_, rfl⟩
  · rw [hkeeps p (s.mem_blocks p)]
    exact hheader
  · rw [hsame.locals, hsame.capacity]
    split_ifs at hvalues ⊢ with hzero
    · exact hvalues
    · rw [hkeeps _ (by simp [blocks, hzero])]
      exact hvalues

/-- The charges of frames depend on their blocks and the charges of these. -/
theorem Charges.congr (h : s.Charges H l n) (hsame : ∀ p ∈ l, SameFrame s s' p)
    (hkeeps : ∀ p ∈ l, H.Keeps s.heap s'.heap {a | a ∈ s.blocks p}) : s'.Charges H l n := by
  induction l generalizing n with
  | nil => exact h
  | cons p l ih =>
    obtain ⟨a, b, ha, hb, rfl⟩ := h
    refine ⟨a, b, ha.congr (hsame p List.mem_cons_self) (hkeeps p List.mem_cons_self), ?_, rfl⟩
    exact ih hb (fun q hq => hsame q (List.mem_cons_of_mem _ hq))
      fun q hq => hkeeps q (List.mem_cons_of_mem _ hq)

/-- The charges are read from the heap and the headers. -/
theorem Charges.of_eq (h : s.Charges H l n) (hheap : s'.heap = s.heap)
    (hheader : s'.header = s.header) : s'.Charges H l n :=
  h.congr (fun _ _ => ⟨by rw [hheader], by rw [hheader]⟩) fun _ _ _ _ _ => by rw [hheap]

/-- Changing one header leaves the frames at other addresses. -/
theorem modify_header_of_ne {q : ℕ} (f : RcFrameHeader → RcFrameHeader) (h : q ≠ p) :
    (s.modify p f).header q = s.header q :=
  Function.update_of_ne h _ _

/-- The changed header. -/
theorem modify_header_self (f : RcFrameHeader → RcFrameHeader) :
    (s.modify p f).header p = f (s.header p) :=
  Function.update_self _ _ _

/-- Changing one header leaves the frames at other addresses. -/
theorem sameFrame_of_ne {q : ℕ} (h : q ≠ p) (f : RcFrameHeader → RcFrameHeader) :
    SameFrame s (s.modify p f) q := by
  constructor
  · rw [modify_header_of_ne f h]
  · rw [modify_header_of_ne f h]

/-- A change that keeps the blocks of a frame. -/
theorem sameFrame_modify {f : RcFrameHeader → RcFrameHeader}
    (hlocals : (f (s.header p)).locals = (s.header p).locals)
    (hcapacity : (f (s.header p)).localCapacity = (s.header p).localCapacity) (q : ℕ) :
    SameFrame s (s.modify p f) q := by
  by_cases hq : q = p
  · rw [hq]
    constructor
    · rw [modify_header_self, hlocals]
    · rw [modify_header_self, hcapacity]
  · exact sameFrame_of_ne hq f

end RcFrameStore

/-- Putting a frame behind the detached ones leaves all blocks. -/
theorem rcQueueFrame_sameFrame (s : RcFrameStore α) (p q : ℕ) :
    RcFrameStore.SameFrame s (rcQueueFrame s p) q := by
  unfold rcQueueFrame
  simp only
  split
  · have hsame := RcFrameStore.sameFrame_modify (s := s) (p := s.frameTail)
      (f := fun header => { header with previous := p }) rfl rfl q
    exact ⟨hsame.locals, hsame.capacity⟩
  · exact ⟨rfl, rfl⟩

/-! ## The blocks of the frames -/

/-- The blocks in use: those of the given frames and the others. -/
abbrev RcFrameStore.live (s : RcFrameStore α) (others : Set ℕ) (owned : List ℕ) : Set ℕ :=
  others ∪ {a | a ∈ owned.flatMap s.blocks}

/-- The frames that are not on the stack. -/
abbrev heapFrames (stack : Finset ℕ) (l : List ℕ) : List ℕ := l.filter (· ∉ stack)

/-- The frames own distinct blocks in use, apart from the other blocks in use. -/
structure RcFrameBlocks (H : RcHeap α) (Inv : α → Set ℕ → Prop) (s : RcFrameStore α)
    (others : Set ℕ) (owned : List ℕ) : Prop where
  /-- No block belongs to two frames. -/
  nodup : (owned.flatMap s.blocks).Nodup
  /-- The other blocks belong to no frame. -/
  apart : ∀ a ∈ owned.flatMap s.blocks, a ∉ others
  /-- These are the blocks in use. -/
  heap : Inv s.heap (s.live others owned)
  /-- The locals are not larger than the largest storage. -/
  capacity : ∀ p ∈ owned, (s.header p).localCapacity * 16 < 2 ^ 63

namespace RcFrameBlocks

/-- The order of the frames does not matter. -/
theorem perm (h : RcFrameBlocks H Inv s others l) (hperm : l.Perm l') :
    RcFrameBlocks H Inv s others l' := by
  have hflat := hperm.flatMap_right s.blocks
  refine ⟨hflat.nodup h.nodup, fun a ha => h.apart a (hflat.mem_iff.mpr ha), ?_,
    fun p hp => h.capacity p (hperm.mem_iff.mpr hp)⟩
  have hheap := h.heap
  unfold RcFrameStore.live at hheap ⊢
  simpa only [hflat.mem_iff] using hheap

/-- Only the blocks of the frames matter. -/
theorem congr (h : RcFrameBlocks H Inv s others l) (hheap : s'.heap = s.heap)
    (hsame : ∀ p ∈ l, RcFrameStore.SameFrame s s' p) : RcFrameBlocks H Inv s' others l := by
  have hflat : l.flatMap s'.blocks = l.flatMap s.blocks :=
    List.flatMap_congr fun p hp => (hsame p hp).blocks_eq
  refine ⟨?_, ?_, ?_, fun p hp => ?_⟩
  · rw [hflat]
    exact h.nodup
  · rw [hflat]
    exact h.apart
  · rw [RcFrameStore.live, hflat, hheap]
    exact h.heap
  · rw [(hsame p hp).capacity]
    exact h.capacity p hp

/-- A block of a frame is in use. -/
theorem mem_live (hp : p ∈ l) {a : ℕ} (ha : a ∈ s.blocks p) :
    a ∈ s.live others l :=
  Or.inr (List.mem_flatMap.mpr ⟨p, hp, ha⟩)

/-- A frame lies where blocks may lie. -/
theorem mem_space (h : RcFrameBlocks H Inv s others l) (hH : H.Lawful Inv space) (hp : p ∈ l) :
    p ∈ space :=
  hH.subset h.heap (mem_live hp (s.mem_blocks p))

/-- A frame is not at the null pointer. -/
theorem ne_zero (h : RcFrameBlocks H Inv s others l) (hH : H.Lawful Inv space) (hp : p ∈ l) :
    p ≠ 0 := by
  rintro rfl
  exact hH.zero_notMem (h.mem_space hH hp)

/-- The null pointer is not in use. -/
theorem zero_notMem (h : RcFrameBlocks H Inv s others l) (hH : H.Lawful Inv space) :
    0 ∉ s.live others l :=
  fun hmem => hH.zero_notMem (hH.subset h.heap hmem)

/-- A frame has a charge, that of its header and that of its locals. -/
theorem exists_charge (h : RcFrameBlocks H Inv s others l) (hH : H.Lawful Inv space)
    (hp : p ∈ l) : ∃ header < 2 ^ 63, H.charge s.heap p 64 = .ok header ∧
      ((s.header p).locals ≠ 0 → ∃ values < 2 ^ 63, H.charge s.heap (s.header p).locals
        (rcLocalBytes (s.header p).localCapacity) = .ok values) := by
  obtain ⟨header, hlt, hheader⟩ := hH.charge h.heap (mem_live hp (s.mem_blocks p))
    (by norm_num : 64 < 2 ^ 63)
  refine ⟨header, hlt, hheader, fun hlocals => ?_⟩
  have hcapacity := h.capacity p hp
  refine hH.charge h.heap (mem_live hp ?_) ?_
  · simp [RcFrameStore.blocks, hlocals]
  · unfold rcLocalBytes
    omega

/-- The blocks of the first frame are apart from those of the others. -/
theorem head (h : RcFrameBlocks H Inv s others (p :: l)) :
    (s.blocks p).Nodup ∧ (∀ a ∈ s.blocks p, a ∉ l.flatMap s.blocks ∧ a ∉ others) := by
  have hnodup := h.nodup
  rw [List.flatMap_cons, List.nodup_append] at hnodup
  obtain ⟨hp, -, hdisjoint⟩ := hnodup
  refine ⟨hp, fun a ha => ⟨fun hal => hdisjoint a ha a hal rfl, h.apart a ?_⟩⟩
  rw [List.flatMap_cons]
  exact List.mem_append_left _ ha

/-- Without its first frame, whose blocks are other blocks then. -/
theorem tail (h : RcFrameBlocks H Inv s others (p :: l)) :
    RcFrameBlocks H Inv s (others ∪ {a | a ∈ s.blocks p}) l := by
  have hhead := h.head
  refine ⟨?_, ?_, ?_, fun q hq => h.capacity q (List.mem_cons_of_mem _ hq)⟩
  · have hnodup := h.nodup
    rw [List.flatMap_cons, List.nodup_append] at hnodup
    exact hnodup.2.1
  · rintro a ha (hother | hp)
    · refine h.apart a ?_ hother
      rw [List.flatMap_cons]
      exact List.mem_append_right _ ha
    · exact (hhead.2 a hp).1 ha
  · convert h.heap using 1
    ext a
    simp only [RcFrameStore.live, List.flatMap_cons, Set.mem_union, Set.mem_ofPred_eq,
      List.mem_append, or_assoc]

/-- With one more frame, whose blocks are no other blocks then. -/
theorem cons (h : RcFrameBlocks H Inv s (others ∪ {a | a ∈ s.blocks p}) l)
    (hp : (s.blocks p).Nodup) (hothers : ∀ a ∈ s.blocks p, a ∉ others)
    (hcapacity : (s.header p).localCapacity * 16 < 2 ^ 63) :
    RcFrameBlocks H Inv s others (p :: l) := by
  refine ⟨?_, ?_, ?_, List.forall_mem_cons.mpr ⟨hcapacity, h.capacity⟩⟩
  · rw [List.flatMap_cons, List.nodup_append]
    exact ⟨hp, h.nodup, fun a ha b hb heq => h.apart b hb (Or.inr (heq ▸ ha))⟩
  · rw [List.flatMap_cons]
    intro a ha
    exact (List.mem_append.mp ha).elim (hothers a) fun hal hother => h.apart a hal (Or.inl hother)
  · convert h.heap using 1
    ext a
    simp only [RcFrameStore.live, List.flatMap_cons, Set.mem_union, Set.mem_ofPred_eq,
      List.mem_append, or_assoc]

/-- The block of the locals, if any, is another block than the header. -/
theorem locals_ne (h : RcFrameBlocks H Inv s others (p :: l)) (hH : H.Lawful Inv space) :
    p ≠ (s.header p).locals := by
  intro heq
  have hnodup := h.head.1
  unfold RcFrameStore.blocks at hnodup
  split_ifs at hnodup with hlocals
  · exact h.ne_zero hH List.mem_cons_self (heq.trans hlocals)
  · exact (List.nodup_cons.mp hnodup).1 (List.mem_singleton.mpr heq)

/-- The block of the locals of the first frame, if any, is one of the blocks of the frame. -/
theorem locals_mem (s : RcFrameStore α) (others : Set ℕ) (p : ℕ) :
    (s.header p).locals = 0 ∨ (s.header p).locals ∈ others ∪ {a | a ∈ s.blocks p} := by
  by_cases hlocals : (s.header p).locals = 0
  · exact Or.inl hlocals
  · exact Or.inr (Or.inr (by simp [RcFrameStore.blocks, hlocals]))

/-- Without the block of the locals the first frame has its header. -/
theorem sdiff_locals (h : RcFrameBlocks H Inv s others (p :: l)) (hH : H.Lawful Inv space) :
    (others ∪ {a | a ∈ s.blocks p}) \ {(s.header p).locals} = insert p others := by
  have hne := h.locals_ne hH
  have hzero := h.zero_notMem hH
  have happart := h.head.2
  unfold RcFrameStore.blocks at happart ⊢
  ext a
  by_cases hlocals : (s.header p).locals = 0
  · simp only [hlocals, if_true, List.mem_singleton, Set.mem_sdiff, Set.mem_union,
      Set.mem_ofPred_eq, Set.mem_singleton_iff, Set.mem_insert_iff]
    refine ⟨fun ha => ha.1.symm, fun ha => ⟨ha.symm, ?_⟩⟩
    rintro rfl
    exact ha.elim (fun heq => hne (heq.symm.trans hlocals.symm)) fun hother => hzero (Or.inl hother)
  · have hother := (happart _ (by simp [hlocals] : (s.header p).locals ∈ _)).2
    simp only [hlocals, if_false, List.mem_cons, List.not_mem_nil, or_false, Set.mem_sdiff,
      Set.mem_union, Set.mem_ofPred_eq, Set.mem_singleton_iff, Set.mem_insert_iff]
    constructor
    · rintro ⟨ha | ha | ha, hal⟩
      · exact Or.inr ha
      · exact Or.inl ha
      · exact absurd ha hal
    · rintro (rfl | ha)
      · exact ⟨Or.inr (Or.inl rfl), hne⟩
      · exact ⟨Or.inl ha, fun heq => hother (heq ▸ ha)⟩

/-- Another block is replaced. -/
theorem replaces (h : RcFrameBlocks H Inv s others l) (hH : H.Lawful Inv space) {bytes : ℕ}
    {result : ℕ × α} (hp : p = 0 ∨ p ∈ others)
    (hresult : H.Replaces Inv s.heap (s.live others l) p bytes result) :
    RcFrameBlocks H Inv { s with heap := result.2 } (insert result.1 (others \ {p})) l := by
  have hnotMem : ∀ a ∈ l.flatMap s.blocks, a ≠ p := by
    rintro a ha rfl
    exact hp.elim (fun hzero => h.zero_notMem hH (Or.inr (hzero ▸ ha))) (h.apart a ha)
  refine ⟨h.nodup, fun a ha => ?_, ?_, h.capacity⟩
  · rintro (rfl | ⟨hother, -⟩)
    · exact hresult.fresh ⟨Or.inr ha, hnotMem _ ha⟩
    · exact h.apart a ha hother
  · have hinv := hresult.inv
    have hset : s.live others l \ {p} = s.live (others \ {p}) l := by
      rw [Set.union_sdiff_distrib]
      congr 1
      exact Set.sdiff_singleton_eq_self fun hmem => hnotMem p hmem rfl
    rw [hset, ← Set.insert_union] at hinv
    exact hinv

/-- Another block is released. -/
theorem deallocate (h : RcFrameBlocks H Inv s others l) (hH : H.Lawful Inv space)
    (hp : p = 0 ∨ p ∈ others) : ∃ heap, H.deallocate s.heap p = .ok heap ∧
      RcFrameBlocks H Inv { s with heap := heap } (others \ {p}) l ∧
      H.Keeps s.heap heap (s.live (others \ {p}) l) := by
  have hnotMem : p ∉ {a | a ∈ l.flatMap s.blocks} := by
    intro ha
    exact hp.elim (fun hzero => h.zero_notMem hH (Or.inr (hzero ▸ ha))) (h.apart p ha)
  obtain ⟨heap, hok, hinv, hkeeps⟩ := hH.deallocate h.heap (hp.imp id Or.inl)
  rw [Set.union_sdiff_distrib, Set.sdiff_singleton_eq_self hnotMem] at hinv hkeeps
  exact ⟨heap, hok, ⟨h.nodup, fun a ha hother => h.apart a ha hother.1, hinv, h.capacity⟩, hkeeps⟩

end RcFrameBlocks

/-- All frames; those in the storage of callers are on the stack. -/
structure RcFramesOwned (H : RcHeap α) (Inv : α → Set ℕ → Prop) (space : Set ℕ)
    (s : RcFrameStore α) (others : Set ℕ) (stack : Finset ℕ) (all : List ℕ) : Prop where
  /-- No frame is on two lists. -/
  nodup : all.Nodup
  /-- The others own blocks of the heap. -/
  blocks : RcFrameBlocks H Inv s others (heapFrames stack all)
  /-- No block lies on the stack. -/
  stack_space : ∀ p ∈ stack, p ∉ space

namespace RcFramesOwned

/-- The order of the frames does not matter. -/
theorem perm (h : RcFramesOwned H Inv space s others stack l) (hperm : l.Perm l') :
    RcFramesOwned H Inv space s others stack l' :=
  ⟨hperm.nodup h.nodup, h.blocks.perm (hperm.filter _), h.stack_space⟩

/-- Only the blocks of the frames matter. -/
theorem congr (h : RcFramesOwned H Inv space s others stack l) (hheap : s'.heap = s.heap)
    (hsame : ∀ p ∈ l, RcFrameStore.SameFrame s s' p) :
    RcFramesOwned H Inv space s' others stack l :=
  ⟨h.nodup, h.blocks.congr hheap fun p hp => hsame p (List.mem_of_mem_filter hp), h.stack_space⟩

/-- A frame that is not on the stack owns its blocks. -/
theorem mem_owned (hp : p ∈ l) (hstack : p ∉ stack) : p ∈ heapFrames stack l :=
  List.mem_filter.mpr ⟨hp, decide_eq_true hstack⟩

/-- No frame is at the null pointer, when none is on the stack. -/
theorem ne_zero (h : RcFramesOwned H Inv space s others stack l) (hH : H.Lawful Inv space)
    (hp : p ∈ l) (hstack : p ∉ stack) : p ≠ 0 :=
  h.blocks.ne_zero hH (mem_owned hp hstack)

/-- The first frame and its blocks. -/
theorem cons_iff (hstack : p ∉ stack) : RcFramesOwned H Inv space s others stack (p :: l) ↔
    p ∉ l ∧ l.Nodup ∧ RcFrameBlocks H Inv s others (p :: heapFrames stack l) ∧
      ∀ q ∈ stack, q ∉ space := by
  have hfilter : heapFrames stack (p :: l) = p :: heapFrames stack l :=
    List.filter_cons_of_pos (decide_eq_true hstack)
  constructor
  · rintro ⟨hnodup, hblocks, hspace⟩
    rw [hfilter] at hblocks
    exact ⟨(List.nodup_cons.mp hnodup).1, (List.nodup_cons.mp hnodup).2, hblocks, hspace⟩
  · rintro ⟨hp, hl, hblocks, hspace⟩
    refine ⟨List.nodup_cons.mpr ⟨hp, hl⟩, ?_, hspace⟩
    rw [hfilter]
    exact hblocks

end RcFramesOwned

/-! ## The lists -/

/-- The three lists of frames and the charge of the cached ones. -/
structure RcFrameCache (H : RcHeap α) (limit : ℕ) (s : RcFrameStore α)
    (active queued cached : List ℕ) : Prop where
  /-- The active frames, the innermost first. -/
  frames : Chained s.next 0 s.frames active
  /-- The detached frames, the oldest first. -/
  frameHead : Chained s.next 0 s.frameHead queued
  /-- The last detached frame. -/
  frameTail : s.frameTail = queued.getLastD 0
  /-- The cached frames. -/
  freeFrames : Chained s.next 0 s.freeFrames cached
  /-- The counter is the sum of their charges. -/
  charges : s.Charges H cached s.cachedFrameBytes
  /-- It does not exceed the limit. -/
  le : s.cachedFrameBytes ≤ limit

namespace RcFrameCache

variable {active queued cached : List ℕ}

/-- Changing a header leaves the links of the lists that it is not on. -/
theorem chained_modify {a : ℕ} (h : Chained s.next 0 a l) (hp : p ∉ l)
    (f : RcFrameHeader → RcFrameHeader) : Chained (s.modify p f).next 0 a l := by
  refine h.congr fun q hq => ?_
  have hne : q ≠ p := fun heq => hp (heq ▸ hq)
  unfold RcFrameStore.next
  rw [RcFrameStore.modify_header_of_ne f hne]

/-- Another heap in which the cached frames have the same charges. -/
theorem with_heap (h : RcFrameCache H limit s active queued cached) {heap : α}
    (hkeeps : ∀ p ∈ cached, H.Keeps s.heap heap {a | a ∈ s.blocks p}) :
    RcFrameCache H limit { s with heap := heap } active queued cached :=
  ⟨h.frames, h.frameHead, h.frameTail, h.freeFrames,
    h.charges.congr (fun _ _ => ⟨rfl, rfl⟩) hkeeps, h.le⟩

/-- A frame on no list changes. -/
theorem modify (h : RcFrameCache H limit s active queued cached)
    (hp : p ∉ active ++ queued ++ cached) (f : RcFrameHeader → RcFrameHeader) :
    RcFrameCache H limit (s.modify p f) active queued cached := by
  simp only [List.mem_append, not_or] at hp
  obtain ⟨⟨hactive, hqueued⟩, hcached⟩ := hp
  have hne : ∀ q ∈ cached, q ≠ p := fun q hq heq => hcached (heq ▸ hq)
  exact ⟨chained_modify h.frames hactive f, chained_modify h.frameHead hqueued f, h.frameTail,
    chained_modify h.freeFrames hcached f,
    h.charges.congr (fun q hq => RcFrameStore.sameFrame_of_ne (hne q hq) f) fun _ _ _ _ _ => rfl, h.le⟩

/-- A frame on any list changes, but not its link and its blocks. -/
theorem modify_kept (h : RcFrameCache H limit s active queued cached)
    {f : RcFrameHeader → RcFrameHeader} (hnext : (f (s.header p)).previous = s.next p)
    (hlocals : (f (s.header p)).locals = (s.header p).locals)
    (hcapacity : (f (s.header p)).localCapacity = (s.header p).localCapacity) :
    RcFrameCache H limit (s.modify p f) active queued cached := by
  have hlink : ∀ q, (s.modify p f).next q = s.next q := by
    intro q
    unfold RcFrameStore.next
    by_cases hq : q = p
    · rw [hq, RcFrameStore.modify_header_self]
      exact hnext
    · rw [RcFrameStore.modify_header_of_ne f hq]
  exact ⟨h.frames.congr fun q _ => hlink q, h.frameHead.congr fun q _ => hlink q, h.frameTail,
    h.freeFrames.congr fun q _ => hlink q, h.charges.congr
      (fun q _ => RcFrameStore.sameFrame_modify hlocals hcapacity q) fun _ _ _ _ _ => rfl, h.le⟩

/-- The innermost active frame becomes a frame on no list. -/
theorem popActive (h : RcFrameCache H limit s (p :: active) queued cached) :
    s.frames = p ∧ RcFrameCache H limit { s with frames := s.next p } active queued cached := by
  obtain ⟨hp, -, hactive⟩ := h.frames
  exact ⟨hp, hactive, h.frameHead, h.frameTail, h.freeFrames, h.charges.of_eq rfl rfl, h.le⟩

/-- A frame on no list becomes the innermost active one. -/
theorem pushActive (h : RcFrameCache H limit s active queued cached) (hzero : p ≠ 0)
    (hnext : s.next p = s.frames) :
    RcFrameCache H limit { s with frames := p } (p :: active) queued cached := by
  have hactive := h.frames
  rw [← hnext] at hactive
  exact ⟨⟨rfl, hzero, hactive⟩, h.frameHead, h.frameTail, h.freeFrames,
    h.charges.of_eq rfl rfl, h.le⟩

/-- The oldest detached frame becomes a frame on no list. -/
theorem popQueued (h : RcFrameCache H limit s active (p :: queued) cached) :
    s.frameHead = p ∧ RcFrameCache H limit { s with
      frameHead := s.next p
      frameTail := if s.next p = 0 then 0 else s.frameTail } active queued cached := by
  obtain ⟨hp, -, hqueued⟩ := h.frameHead
  refine ⟨hp, h.frames, hqueued, ?_, h.freeFrames, h.charges.of_eq rfl rfl, h.le⟩
  have hempty := hqueued.eq_nil_iff
  cases queued with
  | nil => exact if_pos (hempty.mp rfl)
  | cons q queued =>
    refine (if_neg fun hzero => List.cons_ne_nil _ _ (hempty.mpr hzero)).trans ?_
    rw [h.frameTail, List.getLastD_cons, List.getLastD_cons, List.getLastD_cons]

/-- The first cached frame becomes a frame on no list, and its charge leaves the counter. -/
theorem popCached (h : RcFrameCache H limit s active queued (p :: cached)) :
    s.freeFrames = p ∧ ∃ a b, s.Charge H p a ∧ a + b = s.cachedFrameBytes ∧
      RcFrameCache H limit { s with freeFrames := s.next p, cachedFrameBytes := b }
        active queued cached := by
  obtain ⟨hp, -, hcached⟩ := h.freeFrames
  obtain ⟨a, b, ha, hb, hsum⟩ := h.charges
  refine ⟨hp, a, b, ha, hsum.symm, h.frames, h.frameHead, h.frameTail, hcached,
    hb.of_eq rfl rfl, ?_⟩
  have hle := h.le
  rw [hsum] at hle
  exact (Nat.le_add_left b a).trans hle

/-- A frame on no list becomes the first cached one, when its charge fits the limit. -/
theorem pushCached (h : RcFrameCache H limit s active queued cached) (hzero : p ≠ 0)
    (hnext : s.next p = s.freeFrames) {a : ℕ} (ha : s.Charge H p a)
    (hle : s.cachedFrameBytes + a ≤ limit) :
    RcFrameCache H limit { s with
      freeFrames := p
      cachedFrameBytes := s.cachedFrameBytes + a } active queued (p :: cached) := by
  have hcached := h.freeFrames
  rw [← hnext] at hcached
  exact ⟨h.frames, h.frameHead, h.frameTail, ⟨rfl, hzero, hcached⟩,
    ⟨a, s.cachedFrameBytes, ha, h.charges.of_eq rfl rfl, Nat.add_comm _ _⟩, hle⟩

/-- A frame on no list becomes the last detached one. -/
theorem pushQueued (h : RcFrameCache H limit s active queued cached)
    (hnodup : (active ++ queued ++ cached).Nodup) (hzero : p ≠ 0) (hnext : s.next p = 0)
    (hp : p ∉ active ++ queued ++ cached) :
    RcFrameCache H limit (rcQueueFrame s p) active (queued ++ [p]) cached := by
  simp only [List.mem_append, not_or] at hp
  obtain ⟨⟨hactive, hqueued⟩, hcached⟩ := hp
  have htail := h.frameTail
  unfold rcQueueFrame
  rcases List.eq_nil_or_concat queued with rfl | ⟨front, last, rfl⟩
  · rw [List.getLastD_nil] at htail
    rw [if_neg (not_not_intro htail)]
    exact ⟨h.frames, ⟨rfl, hzero, hnext⟩, rfl, h.freeFrames, h.charges.of_eq rfl rfl, h.le⟩
  · rw [List.concat_eq_append] at *
    rw [List.getLastD_concat] at htail
    have hlast : last ≠ 0 := h.frameHead.ne_null last (by simp)
    rw [htail, if_pos hlast]
    have hne : p ≠ last := fun heq => hqueued (by simp [heq])
    obtain ⟨hleft, -, hright⟩ := List.nodup_append.mp hnodup
    obtain ⟨-, hnodup, hactive'⟩ := List.nodup_append.mp hleft
    have hlastActive : last ∉ active := fun hmem => hactive' last hmem last (by simp) rfl
    have hlastCached : last ∉ cached := fun hmem => hright last (by simp) last hmem rfl
    have hlastFront : last ∉ front := fun hmem =>
      (List.nodup_append.mp hnodup).2.2 last hmem last List.mem_cons_self rfl
    set f : RcFrameHeader → RcFrameHeader := fun header => { header with previous := p }
    have hlink : ∀ q, q ≠ last → (s.modify last f).next q = s.next q := fun q hq => by
      unfold RcFrameStore.next
      rw [RcFrameStore.modify_header_of_ne f hq]
    have hself : (s.modify last f).next last = p := by
      unfold RcFrameStore.next
      rw [RcFrameStore.modify_header_self]
    have hchain : Chained (s.modify last f).next 0 _ (front ++ [last] ++ [p]) :=
      h.frameHead.concat hzero ((hlink p hne).trans hnext) (by simpa using hself) fun q hq => ?_
    · rw [if_neg (by simp)] at hchain
      refine ⟨chained_modify h.frames hlastActive f, hchain, by simp,
        chained_modify h.freeFrames hlastCached f, h.charges.congr (fun q hq => ?_)
          fun _ _ _ _ _ => rfl, h.le⟩
      have hq : q ≠ last := fun heq => hlastCached (heq ▸ hq)
      have hsame := RcFrameStore.sameFrame_of_ne (s := s) hq f
      exact ⟨hsame.locals, hsame.capacity⟩
    · rw [List.dropLast_concat] at hq
      exact hlink q fun heq => hlastFront (heq ▸ hq)

end RcFrameCache

/-- The lists and the blocks of the frames, when the frames `loose` are on none of the lists. -/
structure RcFramesInv (H : RcHeap α) (Inv : α → Set ℕ → Prop) (space : Set ℕ) (limit : ℕ)
    (s : RcFrameStore α) (others : Set ℕ) (stack : Finset ℕ)
    (loose active queued cached : List ℕ) : Prop extends
    RcFrameCache H limit s active queued cached where
  /-- The frames own their blocks. -/
  owned : RcFramesOwned H Inv space s others stack (loose ++ (active ++ queued ++ cached))
  /-- Only active frames are on the stack. -/
  off_stack : ∀ p ∈ loose ++ (queued ++ cached), p ∉ stack

namespace RcFramesInv

variable {loose active queued cached : List ℕ}

/-- The charges of the blocks of frames stay when another block is replaced or released. -/
theorem keeps (h : RcFramesInv H Inv space limit s others stack loose active queued cached)
    (hH : H.Lawful Inv space) {heap : α} (hp : p = 0 ∨ p ∈ others)
    (hkeeps : H.Keeps s.heap heap
      (s.live others (heapFrames stack (loose ++ (active ++ queued ++ cached))) \ {p})) :
    ∀ q ∈ cached, H.Keeps s.heap heap {a | a ∈ s.blocks q} := by
  intro q hq a ha bytes
  have hmem : q ∈ heapFrames stack (loose ++ (active ++ queued ++ cached)) :=
    RcFramesOwned.mem_owned (by simp [hq]) (h.off_stack q (by simp [hq]))
  have hflat := List.mem_flatMap.mpr ⟨q, hmem, ha⟩
  refine hkeeps a ⟨Or.inr hflat, ?_⟩ bytes
  rintro rfl
  exact hp.elim (fun hzero => h.owned.blocks.zero_notMem hH (Or.inr (hzero ▸ hflat)))
    (h.owned.blocks.apart _ hflat)

/-- Another block is replaced. -/
theorem replaces (h : RcFramesInv H Inv space limit s others stack loose active queued cached)
    (hH : H.Lawful Inv space) {bytes : ℕ} {result : ℕ × α} (hp : p = 0 ∨ p ∈ others)
    (hresult : H.Replaces Inv s.heap
      (s.live others (heapFrames stack (loose ++ (active ++ queued ++ cached)))) p bytes result) :
    RcFramesInv H Inv space limit { s with heap := result.2 } (insert result.1 (others \ {p})) stack
      loose active queued cached :=
  ⟨h.with_heap (h.keeps hH hp hresult.keeps),
    ⟨h.owned.nodup, h.owned.blocks.replaces hH hp hresult, h.owned.stack_space⟩, h.off_stack⟩

/-- Another block is released. -/
theorem deallocate (h : RcFramesInv H Inv space limit s others stack loose active queued cached)
    (hH : H.Lawful Inv space) (hp : p = 0 ∨ p ∈ others) :
    ∃ heap, H.deallocate s.heap p = .ok heap ∧
      RcFramesInv H Inv space limit { s with heap := heap } (others \ {p}) stack
        loose active queued cached := by
  obtain ⟨heap, hok, hblocks, hkeeps⟩ := h.owned.blocks.deallocate hH hp
  refine ⟨heap, hok, h.with_heap (h.keeps hH hp fun a ha => hkeeps a ?_),
    ⟨h.owned.nodup, hblocks, h.owned.stack_space⟩, h.off_stack⟩
  exact ha.1.imp (fun hother => ⟨hother, ha.2⟩) id

/-- The blocks of a frame on no list become other blocks. -/
theorem untrack (h : RcFramesInv H Inv space limit s others stack [p] active queued cached) :
    RcFramesInv H Inv space limit s (others ∪ {a | a ∈ s.blocks p}) stack [] active queued
      cached := by
  obtain ⟨-, hnodup, hblocks, hspace⟩ :=
    (RcFramesOwned.cons_iff (h.off_stack p List.mem_cons_self)).mp h.owned
  exact ⟨h.toRcFrameCache, ⟨hnodup, hblocks.tail, hspace⟩,
    fun q hq => h.off_stack q (List.mem_cons_of_mem _ hq)⟩

/-- Another block is no frame. -/
theorem notMem_of_other
    (h : RcFramesInv H Inv space limit s others stack loose active queued cached)
    (hH : H.Lawful Inv space) (hp : p ∈ others) :
    p ∉ loose ++ (active ++ queued ++ cached) ∧ p ∉ stack := by
  have hstack : p ∉ stack := fun hmem =>
    h.owned.stack_space p hmem (hH.subset h.owned.blocks.heap (Or.inl hp))
  refine ⟨fun hmem => ?_, hstack⟩
  refine h.owned.blocks.apart p (List.mem_flatMap.mpr ⟨p, ?_, s.mem_blocks p⟩) hp
  exact RcFramesOwned.mem_owned hmem hstack

/-- Other blocks become a frame on no list. -/
theorem track
    (h : RcFramesInv H Inv space limit s (others ∪ {a | a ∈ s.blocks p}) stack [] active queued
      cached)
    (hH : H.Lawful Inv space) (hnodup : (s.blocks p).Nodup)
    (hothers : ∀ a ∈ s.blocks p, a ∉ others)
    (hcapacity : (s.header p).localCapacity * 16 < 2 ^ 63) :
    RcFramesInv H Inv space limit s others stack [p] active queued cached := by
  obtain ⟨hp, hstack⟩ := h.notMem_of_other hH (Or.inr (s.mem_blocks p))
  refine ⟨h.toRcFrameCache, ?_, List.forall_mem_cons.mpr ⟨hstack, h.off_stack⟩⟩
  exact (RcFramesOwned.cons_iff hstack).mpr ⟨hp, h.owned.nodup,
    h.owned.blocks.cons hnodup hothers hcapacity, h.owned.stack_space⟩

/-- Something that is no frame changes. -/
theorem modify_of_notMem (h : RcFramesInv H Inv space limit s others stack [] active queued cached)
    (hp : p ∉ active ++ queued ++ cached) (f : RcFrameHeader → RcFrameHeader) :
    RcFramesInv H Inv space limit (s.modify p f) others stack [] active queued cached := by
  refine ⟨h.toRcFrameCache.modify hp f, h.owned.congr rfl fun q hq => ?_, h.off_stack⟩
  have hne : q ≠ p := fun heq => hp (heq ▸ hq)
  exact RcFrameStore.sameFrame_of_ne hne f

/-- A frame on no list changes, but not its blocks. -/
theorem modify_loose (h : RcFramesInv H Inv space limit s others stack [p] active queued cached)
    {f : RcFrameHeader → RcFrameHeader} (hlocals : (f (s.header p)).locals = (s.header p).locals)
    (hcapacity : (f (s.header p)).localCapacity = (s.header p).localCapacity) :
    RcFramesInv H Inv space limit (s.modify p f) others stack [p] active queued cached := by
  exact ⟨h.toRcFrameCache.modify (List.nodup_cons.mp h.owned.nodup).1 f,
    h.owned.congr rfl fun q _ => RcFrameStore.sameFrame_modify hlocals hcapacity q, h.off_stack⟩

/-- A new frame is on no list. -/
theorem allocate_frame (h : RcFramesInv H Inv space limit s others stack [] active queued cached)
    (hH : H.Lawful Inv space) {result : ℕ × α} (hok : H.allocate s.heap 64 = .ok result) :
    RcFramesInv H Inv space limit ({ s with heap := result.2 }.modify result.1 fun _ => {}) others
      stack [result.1] active queued cached := by
  have hresult := hH.allocate h.owned.blocks.heap hok
  have hzero : others \ {0} = others :=
    Set.sdiff_singleton_eq_self fun hmem => h.owned.blocks.zero_notMem hH (Or.inl hmem)
  have hnew := h.replaces hH (Or.inl rfl) hresult
  have hnotMem := (hnew.notMem_of_other hH (Set.mem_insert _ _)).1
  have hmodify := hnew.modify_of_notMem hnotMem fun _ => {}
  have hheader : ({ s with heap := result.2 }.modify result.1 fun _ => {}).header result.1 = {} :=
    RcFrameStore.modify_header_self _
  have hblocks : ({ s with heap := result.2 }.modify result.1 fun _ => {}).blocks result.1 =
      [result.1] := by
    rw [RcFrameStore.blocks, hheader, if_pos rfl]
  refine track ?_ hH ?_ ?_ ?_
  · rw [hzero] at hmodify
    convert hmodify using 1
    rw [hblocks]
    ext a
    simp [or_comm]
  · rw [hblocks]
    exact List.nodup_singleton _
  · rw [hblocks]
    intro a ha hother
    rw [List.mem_singleton.mp ha] at hother
    refine hresult.fresh ⟨Or.inl hother, fun hmem => ?_⟩
    rw [Set.mem_singleton_iff.mp hmem] at hother
    exact h.owned.blocks.zero_notMem hH (Or.inl hother)
  · rw [hheader]
    norm_num

/-- A frame on no list is released with its locals. -/
theorem release_frame (h : RcFramesInv H Inv space limit s others stack [p] active queued cached)
    (hH : H.Lawful Inv space) : ∃ heap₁ heap₂,
      H.deallocate s.heap (s.header p).locals = .ok heap₁ ∧ H.deallocate heap₁ p = .ok heap₂ ∧
      RcFramesInv H Inv space limit { s with heap := heap₂ } others stack [] active queued
        cached := by
  have hstack := h.off_stack p List.mem_cons_self
  have hblocks := ((RcFramesOwned.cons_iff hstack).mp h.owned).2.2.1
  have hother : p ∉ others := (hblocks.head.2 p (s.mem_blocks p)).2
  obtain ⟨heap₁, hok₁, h₁⟩ := h.untrack.deallocate hH (RcFrameBlocks.locals_mem s others p)
  rw [hblocks.sdiff_locals hH] at h₁
  obtain ⟨heap₂, hok₂, h₂⟩ := h₁.deallocate hH (Or.inr (Set.mem_insert p others))
  rw [Set.insert_sdiff_of_mem _ (Set.mem_singleton p), Set.sdiff_singleton_eq_self hother] at h₂
  exact ⟨heap₁, heap₂, hok₁, hok₂, h₂⟩

/-- The words of the blocks do not matter. -/
theorem with_words (h : RcFramesInv H Inv space limit s others stack loose active queued cached)
    (words : ℕ → ℕ → ℕ) :
    RcFramesInv H Inv space limit { s with words := words } others stack loose active queued
      cached :=
  ⟨⟨h.frames, h.frameHead, h.frameTail, h.freeFrames, h.charges.of_eq rfl rfl, h.le⟩,
    h.owned.congr rfl fun _ _ => ⟨rfl, rfl⟩, h.off_stack⟩

/-- The locals of a frame on no list grow, which may move them. -/
theorem grow_locals (h : RcFramesInv H Inv space limit s others stack [p] active queued cached)
    (hH : H.Lawful Inv space) {count : ℕ} {contents : ℕ → ℕ}
    (hcount : count ≤ (2 ^ 64 - 1) / 16) (hok : rcGrowLocals H contents s p count = .ok s') :
    RcFramesInv H Inv space limit s' others stack [p] active queued cached ∧
      s'.frames = s.frames ∧ s'.cachedFrameBytes = s.cachedFrameBytes ∧
      count ≤ (s'.header p).localCapacity := by
  unfold rcGrowLocals at hok
  simp only at hok
  split_ifs at hok with hgrow
  swap
  · cases hok
    exact ⟨h, rfl, rfl, not_lt.mp hgrow⟩
  cases hresult : H.growLocals s.heap (s.header p).locals
    (rcLocalBytes (s.header p).localCapacity) (rcLocalBytes count) with
  | error text =>
    rw [hresult] at hok
    cases hok
  | ok result =>
    rw [hresult] at hok
    cases hok
    refine ⟨?_, rfl, rfl, ?_⟩
    swap
    · rw [RcFrameStore.modify_header_self]
    have hblocks := ((RcFramesOwned.cons_iff (h.off_stack p List.mem_cons_self)).mp
      h.owned).2.2.1
    have hlocals := RcFrameBlocks.locals_mem s others p
    have hreplaces := hH.growLocals h.untrack.owned.blocks.heap (hlocals.imp id Or.inl) hresult
    have hnew := (h.untrack.replaces hH hlocals hreplaces).with_words
      (Function.update s.words result.1 contents)
    have hold : ∀ a ∈ insert p others, a ≠ result.1 := by
      rintro a ha rfl
      rw [← hblocks.sdiff_locals hH] at ha
      exact hreplaces.fresh ⟨Or.inl ha.1, ha.2⟩
    rw [hblocks.sdiff_locals hH] at hnew
    have hmodify := hnew.modify_of_notMem (List.nodup_cons.mp h.owned.nodup).1
      fun header => { header with locals := result.1, localCapacity := count }
    generalize hs' : RcFrameStore.modify _ p _ = s' at hmodify ⊢
    have hheader : s'.header p =
        { s.header p with locals := result.1, localCapacity := count } := by
      rw [← hs', RcFrameStore.modify_header_self]
    have hzero : result.1 ≠ 0 := by
      intro hzero
      refine hnew.owned.blocks.zero_notMem hH (Or.inl ?_)
      exact hzero ▸ Set.mem_insert _ _
    have hs'blocks : s'.blocks p = [p, result.1] := by
      rw [RcFrameStore.blocks, hheader, if_neg hzero]
    refine track ?_ hH ?_ ?_ ?_
    · convert hmodify using 1
      rw [hs'blocks]
      ext a
      simp only [Set.mem_union, Set.mem_ofPred_eq, List.mem_cons, List.not_mem_nil, or_false,
        Set.mem_insert_iff]
      tauto
    · rw [hs'blocks]
      simp only [List.nodup_cons, List.mem_singleton, List.not_mem_nil, not_false_eq_true,
        List.nodup_nil, and_true]
      exact hold p (Set.mem_insert _ _)
    · rw [hs'blocks]
      refine List.forall_mem_cons.mpr ⟨(hblocks.head.2 p (s.mem_blocks p)).2, ?_⟩
      refine List.forall_mem_singleton.mpr fun hother => ?_
      exact hold _ (Set.mem_insert_of_mem _ hother) rfl
    · have hlt := hreplaces.bytes_lt
      unfold rcLocalBytes at hlt
      rw [hheader]
      simp only
      omega

/-- Other variables that name no frame, no block and no charge. -/
theorem of_cache (h : RcFramesInv H Inv space limit s others stack loose active queued cached)
    {loose' active' queued' cached' : List ℕ}
    (hcache : RcFrameCache H limit s' active' queued' cached') (hheap : s'.heap = s.heap)
    (hsame : ∀ q, RcFrameStore.SameFrame s s' q)
    (hperm : (loose ++ (active ++ queued ++ cached)).Perm
      (loose' ++ (active' ++ queued' ++ cached')))
    (hstack : ∀ q ∈ loose' ++ (queued' ++ cached'), q ∉ stack) :
    RcFramesInv H Inv space limit s' others stack loose' active' queued' cached' :=
  ⟨hcache, (h.owned.congr hheap fun q _ => hsame q).perm hperm, hstack⟩

/-- The charge of a frame on no list is computed without overflow. -/
theorem charge_loose (h : RcFramesInv H Inv space limit s others stack [p] active queued cached)
    (hH : H.Lawful Inv space) : ∃ n, s.Charge H p n ∧ rcFrameBytes H s p = .ok n := by
  have hblocks := ((RcFramesOwned.cons_iff (h.off_stack p List.mem_cons_self)).mp h.owned).2.2.1
  obtain ⟨header, hlt, hheader, hvalues⟩ := hblocks.exists_charge hH List.mem_cons_self
  have hcapacity := hblocks.capacity p List.mem_cons_self
  have hbytes : rcLocalBytes (s.header p).localCapacity = (s.header p).localCapacity * 16 :=
    Nat.mod_eq_of_lt (by omega)
  unfold rcFrameBytes RcFrameStore.Charge
  simp only [hheader, Bind.bind, Except.bind]
  by_cases hlocals : (s.header p).locals = 0
  · rw [if_pos hlocals]
    refine ⟨header, ⟨header, 0, rfl, ?_, rfl⟩, rfl⟩
    rw [if_pos hlocals]
  · rw [if_neg hlocals]
    obtain ⟨values, hlt', hok⟩ := hvalues hlocals
    refine ⟨header + values, ⟨header, values, rfl, ?_, rfl⟩, ?_⟩
    · rw [if_neg hlocals, ← hbytes]
      exact hok
    · rw [hok]
      have hadd : sizeAdd header values = header + values := Nat.mod_eq_of_lt (by omega)
      simp only [hadd]
      rfl

end RcFramesInv

/-- A frame on no list moves into the lists. -/
theorem perm_loose (p : ℕ) (l l' : List ℕ) : ([p] ++ (l ++ l')).Perm ([] ++ (l ++ p :: l')) := by
  have hmiddle : (l ++ p :: l').Perm (p :: (l ++ l')) := List.perm_middle
  exact hmiddle.symm

/-! ## Calls -/

/-- The charge of a frame is one number. -/
theorem RcFrameStore.Charge.unique {m : ℕ} (h : s.Charge H p n) (h' : s.Charge H p m) : n = m := by
  obtain ⟨a, b, ha, hb, rfl⟩ := h
  obtain ⟨a', b', ha', hb', rfl⟩ := h'
  rw [ha, Except.ok.injEq] at ha'
  split_ifs at hb hb' with hlocals
  · rw [ha', hb, hb']
  · rw [hb, Except.ok.injEq] at hb'
    rw [ha', hb']

namespace RcFramesInv

variable {active queued cached : List ℕ}

/-- Leaving an activation detaches its frame. -/
theorem leave (h : RcFramesInv H Inv space limit s others stack [] (p :: active) queued cached)
    (hH : H.Lawful Inv space) (hstack : p ∉ stack) :
    RcFramesInv H Inv space limit (rcLeaveFrame s) others stack [] active (queued ++ [p])
      cached := by
  obtain ⟨hp, hpop⟩ := h.popActive
  have hloose : RcFramesInv H Inv space limit { s with frames := s.next p } others stack [p] active
      queued cached :=
    h.of_cache hpop rfl (fun _ => ⟨rfl, rfl⟩) (List.Perm.refl _)
      (List.forall_mem_cons.mpr ⟨hstack, h.off_stack⟩)
  have hmodify := hloose.modify_loose (f := fun header =>
    { header.retireTemporaries with localCount := header.writtenCount, previous := 0 })
    (by unfold RcFrameHeader.retireTemporaries; split <;> rfl)
    (by unfold RcFrameHeader.retireTemporaries; split <;> rfl)
  unfold rcLeaveFrame
  rw [hp]
  simp only
  generalize hs' : RcFrameStore.modify _ p _ = s' at hmodify ⊢
  have hnext : s'.next p = 0 := by
    rw [← hs']
    unfold RcFrameStore.next
    rw [RcFrameStore.modify_header_self]
  have hnodup := List.nodup_cons.mp hmodify.owned.nodup
  have hzero := hmodify.owned.ne_zero hH List.mem_cons_self hstack
  refine hmodify.of_cache (hmodify.toRcFrameCache.pushQueued hnodup.2 hzero hnext hnodup.1) ?_ ?_ ?_ ?_
  · unfold rcQueueFrame
    split <;> rfl
  · exact fun q => rcQueueFrame_sameFrame s' p q
  · have hassoc : [] ++ (active ++ (queued ++ [p]) ++ cached) = active ++ queued ++ p :: cached := by
      simp
    rw [hassoc]
    exact perm_loose p _ _
  · intro q hq
    refine hmodify.off_stack q ?_
    simp only [List.mem_append, List.mem_singleton] at hq ⊢
    tauto

/-- A frame obtained for an activation is on no list; a cached one takes its charge along. -/
theorem obtain_frame (h : RcFramesInv H Inv space limit s others stack [] active queued cached)
    (hH : H.Lawful Inv space) (hlimit : limit < 2 ^ 64) (hok : rcObtainFrame H s = .ok (p, s')) :
    ∃ cached', RcFramesInv H Inv space limit s' others stack [p] active queued cached' ∧
      s'.frames = s.frames ∧ (s.freeFrames ≠ 0 → p = s.freeFrames ∧
        ∃ n, s.Charge H p n ∧ s'.cachedFrameBytes + n = s.cachedFrameBytes) := by
  unfold rcObtainFrame at hok
  split_ifs at hok with hempty
  · cases hresult : H.allocate s.heap 64 with
    | error text =>
      rw [hresult] at hok
      cases hok
    | ok result =>
      rw [hresult] at hok
      cases hok
      exact ⟨cached, h.allocate_frame hH hresult, rfl, fun hne => absurd hempty hne⟩
  · obtain ⟨cached', rfl, -⟩ := h.freeFrames.exists_cons hempty
    obtain ⟨-, a, b, ha, hsum, hpop⟩ := h.popCached
    have hle := h.le
    have hloose : RcFramesInv H Inv space limit { s with
        freeFrames := s.next s.freeFrames
        cachedFrameBytes := b } others stack [s.freeFrames] active queued cached' := by
      refine h.of_cache hpop rfl (fun _ => ⟨rfl, rfl⟩) (perm_loose _ _ _).symm fun q hq => ?_
      refine h.off_stack q ?_
      simp only [List.nil_append, List.mem_append, List.mem_cons, List.not_mem_nil, or_false] at hq ⊢
      tauto
    have hcapacity := ((RcFramesOwned.cons_iff (hloose.off_stack _ List.mem_cons_self)).mp
      hloose.owned).2.2.1.capacity _ List.mem_cons_self
    obtain ⟨header, values, hheader, hvalues, rfl⟩ := ha
    have hbytes : rcLocalBytes (s.header s.freeFrames).localCapacity =
        (s.header s.freeFrames).localCapacity * 16 := by
      refine Nat.mod_eq_of_lt ?_
      simp only at hcapacity
      omega
    have hsub : sizeSub s.cachedFrameBytes header = values + b := by
      unfold sizeSub
      omega
    have hsub' : sizeSub (values + b) values = b := by
      unfold sizeSub
      omega
    simp only [hheader, Bind.bind, Except.bind, hsub] at hok
    split_ifs at hok hvalues with hlocals
    · rw [hvalues, Nat.zero_add] at hok
      cases hok
      refine ⟨cached', hloose, rfl, fun _ => ⟨rfl, header + 0, ⟨header, 0, hheader, ?_, rfl⟩, ?_⟩⟩
      · rw [if_pos hlocals]
      · simp only
        omega
    · rw [hbytes, hvalues] at hok
      simp only [hsub'] at hok
      cases hok
      refine ⟨cached', hloose, rfl, fun _ => ⟨rfl, header + values,
        ⟨header, values, hheader, ?_, rfl⟩, ?_⟩⟩
      · rw [if_neg hlocals]
        exact hvalues
      · simp only
        omega

/-- An activation starts with a frame that was on no list. -/
theorem start_frame (h : RcFramesInv H Inv space limit s others stack [p] active queued cached)
    (hH : H.Lawful Inv space) (count : ℕ) :
    RcFramesInv H Inv space limit (rcStartFrame s p count) others stack [] (p :: active) queued
      cached := by
  have hstack := h.off_stack p List.mem_cons_self
  have hzero := h.owned.ne_zero hH List.mem_cons_self hstack
  unfold rcStartFrame
  simp only
  generalize (if count = 0 then s.words else _) = words
  have hmodify := (h.with_words words).modify_loose (f := fun header => { header with
    localCount := count, temporaryCount := 0, writtenCount := 0, previous := s.frames }) rfl rfl
  refine hmodify.of_cache (hmodify.toRcFrameCache.pushActive hzero ?_) rfl (fun _ => ⟨rfl, rfl⟩)
    (List.Perm.refl _) fun q hq => h.off_stack q (List.mem_cons_of_mem _ hq)
  unfold RcFrameStore.next
  rw [RcFrameStore.modify_header_self]
  rfl

end RcFramesInv

/-- What entering an activation with `count` locals does. -/
structure RcFrameEntered (H : RcHeap α) (s s' : RcFrameStore α) (count : ℕ) : Prop where
  /-- The frame is in front of the active ones. -/
  previous : s'.next s'.frames = s.frames
  /-- It has the requested locals. -/
  localCount : (s'.header s'.frames).localCount = count
  /-- There is storage for them. -/
  capacity : count ≤ (s'.header s'.frames).localCapacity
  /-- They are null. -/
  null : ∀ i < count, s'.words (s'.header s'.frames).locals i = 0
  /-- None of them is written. -/
  writtenCount : (s'.header s'.frames).writtenCount = 0
  /-- The first cached frame is reused; its charge leaves the counter, which is not exceeded. -/
  reused : s.freeFrames ≠ 0 → s'.frames = s.freeFrames ∧
    ∃ n, s.Charge H s.freeFrames n ∧ s'.cachedFrameBytes + n = s.cachedFrameBytes

namespace RcFramesInv

variable {active queued cached : List ℕ}

/-- Entering an activation. -/
theorem enter (h : RcFramesInv H Inv space limit s others stack [] active queued cached)
    (hH : H.Lawful Inv space) (hlimit : limit < 2 ^ 64) {contents : ℕ → ℕ} {locals : ℤ}
    (hok : rcEnterFrame H contents s locals = .ok s') :
    (∃ p cached', RcFramesInv H Inv space limit s' others stack [] (p :: active) queued cached') ∧
      RcFrameEntered H s s' locals.toNat := by
  unfold rcEnterFrame at hok
  cases hobtain : rcObtainFrame H s with
  | error text =>
    rw [hobtain] at hok
    cases hok
  | ok obtained =>
    obtain ⟨p, s₁⟩ := obtained
    rw [hobtain] at hok
    simp only [Bind.bind, Except.bind] at hok
    split_ifs at hok with hsize
    cases hgrow : rcGrowLocals H contents s₁ p locals.toNat with
    | error text =>
      rw [hgrow] at hok
      cases hok
    | ok s₂ =>
      rw [hgrow] at hok
      cases hok
      obtain ⟨cached', h₁, hframes₁, hreused⟩ := h.obtain_frame hH hlimit hobtain
      obtain ⟨h₂, hframes₂, hbytes₂, hcapacity⟩ := h₁.grow_locals hH (by omega) hgrow
      refine ⟨⟨p, cached', h₂.start_frame hH _⟩, ?_⟩
      have hheader : (rcStartFrame s₂ p locals.toNat).header p = { s₂.header p with
          localCount := locals.toNat, temporaryCount := 0, writtenCount := 0,
          previous := s₂.frames } := by
        unfold rcStartFrame
        exact RcFrameStore.modify_header_self _
      refine ⟨?_, ?_, ?_, ?_, ?_, fun hne => ?_⟩
      · show ((rcStartFrame s₂ p locals.toNat).header p).previous = _
        rw [hheader, ← hframes₁, ← hframes₂]
      · show ((rcStartFrame s₂ p locals.toNat).header p).localCount = _
        rw [hheader]
      · show _ ≤ ((rcStartFrame s₂ p locals.toNat).header p).localCapacity
        rw [hheader]
        exact hcapacity
      · intro i hi
        show (rcStartFrame s₂ p locals.toNat).words
          ((rcStartFrame s₂ p locals.toNat).header p).locals i = 0
        rw [hheader]
        have hne : locals.toNat ≠ 0 := by omega
        unfold rcStartFrame RcFrameStore.modify
        simp only [if_neg hne, Function.update_self, if_pos hi]
      · show ((rcStartFrame s₂ p locals.toNat).header p).writtenCount = _
        rw [hheader]
      · obtain ⟨rfl, n, hn, hsum⟩ := hreused hne
        exact ⟨rfl, n, hn, hbytes₂ ▸ hsum⟩

/-- A frame on no list is cached or released. -/
theorem retire (h : RcFramesInv H Inv space limit s others stack [p] active queued cached)
    (hH : H.Lawful Inv space) (hlimit : limit < 2 ^ 64) :
    ∃ s' cached', rcRetireFrame H limit s p = .ok s' ∧
      RcFramesInv H Inv space limit s' others stack [] active queued cached' := by
  obtain ⟨n, hn, hbytes⟩ := h.charge_loose hH
  unfold rcRetireFrame
  simp only [hbytes, Bind.bind, Except.bind]
  by_cases hfits : n ≤ limit ∧ s.cachedFrameBytes ≤ limit - n
  · rw [if_pos hfits, sizeAdd_eq (by omega)]
    refine ⟨_, p :: cached, rfl, ?_⟩
    have hzero := h.owned.ne_zero hH List.mem_cons_self (h.off_stack p List.mem_cons_self)
    have hmodify := h.modify_loose
      (f := fun header => { header with previous := s.freeFrames }) rfl rfl
    have hnext : (s.modify p fun header => { header with previous := s.freeFrames }).next p =
        s.freeFrames := by
      unfold RcFrameStore.next
      rw [RcFrameStore.modify_header_self]
    have hcharge : RcFrameStore.Charge H
        (s.modify p fun header => { header with previous := s.freeFrames }) p n :=
      hn.congr (RcFrameStore.sameFrame_modify rfl rfl p) fun _ _ _ => rfl
    refine hmodify.of_cache (hmodify.toRcFrameCache.pushCached hzero hnext hcharge ?_) rfl
      (fun _ => ⟨rfl, rfl⟩) (perm_loose p _ _) fun q hq => ?_
    · show s.cachedFrameBytes + n ≤ limit
      omega
    · refine h.off_stack q ?_
      simp only [List.nil_append, List.mem_append, List.mem_cons, List.not_mem_nil, or_false] at hq ⊢
      tauto
  · rw [if_neg hfits]
    obtain ⟨heap₁, heap₂, hok₁, hok₂, h'⟩ := h.release_frame hH
    rw [hok₁]
    simp only [hok₂]
    exact ⟨_, cached, rfl, h'⟩

/-- A unit of the detached frames does not stop. -/
theorem unit (h : RcFramesInv H Inv space limit s others stack [] active queued cached)
    (hH : H.Lawful Inv space) (hlimit : limit < 2 ^ 64) (hhead : s.frameHead ≠ 0) :
    ∃ v s' queued' cached', rcFrameUnit H limit s = .ok (v, s') ∧
      RcFramesInv H Inv space limit s' others stack [] active queued' cached' := by
  unfold rcFrameUnit
  simp only
  cases hcount : (s.header s.frameHead).localCount with
  | succ position =>
    -- A written local is visited; the lists stay.
    refine ⟨_, _, queued, cached, rfl, ?_⟩
    refine h.of_cache (h.toRcFrameCache.modify_kept rfl rfl rfl) rfl
      (fun q => RcFrameStore.sameFrame_modify rfl rfl q) (List.Perm.refl _) h.off_stack
  | zero =>
    obtain ⟨queued', rfl, -⟩ := h.frameHead.exists_cons hhead
    obtain ⟨-, hpop⟩ := h.popQueued
    have hloose : RcFramesInv H Inv space limit { s with
        frameHead := s.next s.frameHead
        frameTail := if s.next s.frameHead = 0 then 0 else s.frameTail }
        others stack [s.frameHead] active queued' cached := by
      refine h.of_cache hpop rfl (fun _ => ⟨rfl, rfl⟩) ?_ fun q hq => ?_
      · rw [List.append_assoc, List.append_assoc]
        exact (perm_loose _ _ _).symm
      · refine h.off_stack q ?_
        simp only [List.nil_append, List.mem_append, List.mem_cons, List.not_mem_nil, or_false,
          or_assoc] at hq ⊢
        exact hq
    obtain ⟨s', cached', hok, h'⟩ := hloose.retire hH hlimit
    rw [hok]
    exact ⟨0, s', queued', cached', rfl, h'⟩

end RcFramesInv

end Minyar

import Mathlib.Tactic.Abel
import Minyar.Rc.Units
import Minyar.Rc.Poll

/-!
# The ownership invariant of the runtime and its service

The tokens of the objects are the owners in the slots of the active frames, in their temporaries, in
the detached frames and chunks, and the owners `E` that the program holds.  `RcInv` is the
invariant of the runtime; `RcServes` is what the service of pending work guarantees: it touches no
active frame and pays exactly one step of the outstanding work in every unit.
-/

namespace Minyar

open CountedGraph

/-! ## Tokens -/

/-- The owners of an active frame: its slots and its temporaries. -/
def RcFrame.tokens (f : RcFrame) : List ℕ := f.locals.map Prod.fst ++ f.chunks.flatten

/-- The owners in the written slots of a detached frame that are not visited yet. -/
def RcFrame.detached (f : RcFrame) : List ℕ :=
  (List.range f.localCount).map (rcBoundedPendingLocalValue f)

/-- The owners in active use: those of the active frames and those that the program holds. -/
def rcHeld (s : RcState) (E : Multiset ℕ) : Multiset ℕ :=
  ((s.frames.flatMap RcFrame.tokens : List ℕ) : Multiset ℕ) + E

/-- The owners in detached frames and chunks. -/
def rcQueued (s : RcState) : Multiset ℕ :=
  (s.frameQueue.flatMap RcFrame.detached : List ℕ) + (s.chunkQueue.flatten : List ℕ)

/-- All owners outside the objects. -/
def rcTokens (s : RcState) (E : Multiset ℕ) : Multiset ℕ := rcQueued s + rcHeld s E

/-! ## The invariant -/

/-- The invariant of an active frame. -/
structure RcFrameInv (f : RcFrame) : Prop where
  /-- All slots are in use. -/
  count : f.localCount = f.locals.length
  /-- The indices are those of the written slots. -/
  written : ∀ i : ℕ, i ∈ f.indices ↔ ∃ v : ℕ, f.locals[i]? = some (v, true)
  /-- A slot that was not written is null. -/
  unwritten : ∀ i v : ℕ, f.locals[i]? = some (v, false) → v = 0
  /-- Every written slot has one index. -/
  nodup : f.indices.Nodup
  /-- All chunks but the last are full. -/
  full : ∀ c ∈ f.chunks.dropLast, c.length = 8
  /-- The last chunk holds at least one temporary. -/
  last : ∀ c ∈ f.chunks.getLast?, 0 < c.length ∧ c.length ≤ 8
  /-- The temporaries are counted. -/
  temporaries : f.temporaryCount = f.chunks.flatten.length

/-- The invariant of the runtime, when the program holds the owners `E`. -/
structure RcInv (s : RcState) (E : Multiset ℕ) (q : RcQueues) : Prop where
  /-- The objects have exactly the owners that there are. -/
  objects : RcObjectsInv s.objects (rcTokens s E) (s.frameQueue.length + s.chunkQueue.length) q
  /-- The active frames. -/
  frames : ∀ f ∈ s.frames, RcFrameInv f
  /-- Names start after the null pointer. -/
  next : s.objects.next ≠ 0
  /-- There are three queues. -/
  nextQueue : s.nextQueue < 3

/-- Before the program starts nothing is owned. -/
theorem RcInv.initial : RcInv RcState.initial 0 ⟨[], []⟩ where
  objects := RcObjectsInv.empty
  frames := fun _ h => by cases h
  next := Nat.one_ne_zero
  nextQueue := by decide

/-- The graph of the objects of a state. -/
def rcGraph (s : RcState) (q : RcQueues) : CountedGraph ℕ :=
  rcView s.objects (rcDead s.objects.active q)

/-- The work in the queues of frames and chunks: one unit for every owner that is not visited and one
to retire each. -/
def rcQueueWork (frameQueue : List RcFrame) (chunkQueue : List (List ℕ)) : ℕ :=
  (frameQueue.map fun f => f.localCount + 1).sum +
    (chunkQueue.map fun chunk => chunk.length + 1).sum

/-- The outstanding work: the debt of the objects that no owner in active use reaches and the work in
the queues of frames and chunks. -/
noncomputable def rcOutstanding (s : RcState) (E : Multiset ℕ) (q : RcQueues) : ℕ :=
  debt 0 (rcGraph s q) (Finset.range s.objects.next) (rcHeld s E) +
    rcQueueWork s.frameQueue s.chunkQueue

/-- What `n` units of service guarantee. -/
structure RcServes (n : ℕ) (s s' : RcState) (q q' : RcQueues) (E : Multiset ℕ) : Prop where
  /-- The invariant holds. -/
  inv : RcInv s' E q'
  /-- The active frames are untouched. -/
  frames : s'.frames = s.frames
  /-- The objects that are still there have kept their contents. -/
  shrink : RcShrink s.objects.heap (rcDead s.objects.active q) s'.objects.heap
    (rcDead s'.objects.active q')
  /-- Nothing is allocated. -/
  next : s'.objects.next = s.objects.next
  /-- The outstanding work is less by the units. -/
  outstanding : rcOutstanding s' E q' + n = rcOutstanding s E q
  /-- What owners in active use sustain is spared. -/
  spares : Spares (rcGraph s q) (rcGraph s' q') (rcHeld s E)

namespace RcServes

variable {m n : ℕ} {s s' s'' : RcState} {q q' q'' : RcQueues} {E : Multiset ℕ}

theorem refl (h : RcInv s E q) : RcServes 0 s s q q E :=
  ⟨h, rfl, RcShrink.refl _ _, rfl, rfl, Spares.refl _ _⟩

theorem trans (h : RcServes m s s' q q' E) (h' : RcServes n s' s'' q' q'' E) :
    RcServes (m + n) s s'' q q'' E := by
  refine ⟨h'.inv, h'.frames.trans h.frames, h.shrink.trans h'.shrink, h'.next.trans h.next, ?_, ?_⟩
  · have h1 := h.outstanding
    have h2 := h'.outstanding
    omega
  · have hspares := h'.spares
    unfold rcHeld at hspares
    rw [h.frames] at hspares
    exact h.spares.trans hspares

end RcServes

/-! ## Units of service -/

/-- The next written slot of the first detached frame. -/
theorem rcTokens_frame {s : RcState} {E : Multiset ℕ} {frame : RcFrame} {queue : List RcFrame}
    {position : ℕ} (hqueue : s.frameQueue = frame :: queue)
    (hcount : frame.localCount = position + 1) :
    rcTokens s E = rcBoundedPendingLocalValue frame position ::ₘ
      rcTokens { s with frameQueue := { frame with localCount := position } :: queue } E := by
  -- The last index is visited first.
  have hlast : frame.detached = ({ frame with localCount := position } : RcFrame).detached ++
      [rcBoundedPendingLocalValue frame position] := by
    unfold RcFrame.detached
    rw [hcount, List.range_succ, List.map_append]
    rfl
  unfold rcTokens rcQueued
  rw [hqueue, List.flatMap_cons, List.flatMap_cons, hlast]
  simp only [← Multiset.coe_add, ← Multiset.singleton_add, Multiset.coe_singleton]
  change _ + _ + _ + _ + rcHeld s E = _ + (_ + _ + _ + rcHeld s E)
  abel

/-- The last owner of the first detached chunk. -/
theorem rcTokens_chunk {s : RcState} {E : Multiset ℕ} {chunk : List ℕ} {queue : List (List ℕ)}
    {value : ℕ} (hqueue : s.chunkQueue = chunk :: queue) (hchunk : chunk.getLast? = some value) :
    rcTokens s E = value ::ₘ rcTokens { s with chunkQueue := chunk.dropLast :: queue } E := by
  have hlast : chunk = chunk.dropLast ++ [value] :=
    (List.dropLast_append_getLast? value hchunk).symm
  unfold rcTokens rcQueued
  rw [hqueue, List.flatten_cons, List.flatten_cons]
  conv_lhs => rw [hlast]
  simp only [← Multiset.coe_add, ← Multiset.singleton_add, Multiset.coe_singleton]
  change _ + (_ + _ + _) + rcHeld s E = _ + (_ + (_ + _) + rcHeld s E)
  abel

namespace RcInv

variable {s : RcState} {E : Multiset ℕ} {q : RcQueues}

/-- The queue of objects is ready when there are dead objects. -/
theorem queueReady_objects (h : RcInv s E q) :
    s.queueReady 0 = true ↔ rcDead s.objects.active q ≠ [] := by
  have hold := h.objects.old.eq_nil_iff
  have hrecent := h.objects.recent.eq_nil_iff
  unfold RcState.queueReady rcDead
  by_cases hactive : s.objects.active = 0
  · simp [hactive, hold, hrecent]
    tauto
  · simp [hactive]

/-- Some queue is ready while work is pending. -/
theorem exists_queueReady (h : RcInv s E q) (hpending : s.objects.pending ≠ 0) :
    s.queueReady 0 = true ∨ s.queueReady 1 = true ∨ s.queueReady 2 = true := by
  rw [h.queueReady_objects]
  have hcount := h.objects.pending
  by_contra hnone
  simp only [not_or, not_not, Bool.not_eq_true] at hnone
  obtain ⟨hdead, hframes, hchunks⟩ := hnone
  simp only [RcState.queueReady, Nat.one_ne_zero, OfNat.ofNat_ne_zero, decide_false, decide_true,
    Bool.false_and, Bool.true_and, Bool.false_or, Bool.or_false, decide_eq_false_iff_not, not_not,
    OfNat.ofNat_ne_one, show (1 : ℕ) ≠ 2 by decide] at hframes hchunks
  rw [hdead, hframes, hchunks] at hcount
  exact hpending hcount

/-- The queue that is picked is ready. -/
theorem pickQueue_ready (h : RcInv s E q) (hpending : s.objects.pending ≠ 0) :
    s.queueReady (rcPickQueue s 3 s.nextQueue) = true ∧ rcPickQueue s 3 s.nextQueue < 3 := by
  have hready := h.exists_queueReady hpending
  have hlt := h.nextQueue
  have hcases : s.nextQueue = 0 ∨ s.nextQueue = 1 ∨ s.nextQueue = 2 := by omega
  rcases hcases with hq | hq | hq <;> rw [hq] <;> simp only [rcPickQueue] <;>
    split_ifs <;> simp_all

/-- Work on the objects alone. -/
theorem serve_objects {o : RcObjects} {n : ℕ} {q' : RcQueues} (h : RcInv s E q)
    (hinv : RcObjectsInv o (rcTokens s E) (s.frameQueue.length + s.chunkQueue.length) q')
    (hevolves : RcEvolves n s.objects o q q' (rcTokens s E)) :
    RcServes n s { s with objects := o } q q' E := by
  refine ⟨⟨hinv, h.frames, ?_, h.nextQueue⟩, rfl, hevolves.shrink, hevolves.next, ?_, ?_⟩
  · change o.next ≠ 0
    rw [hevolves.next]
    exact h.next
  · have hdebt := hevolves.debt (rcHeld s E) fun _ hr => Multiset.mem_add.mpr (Or.inr hr)
    unfold rcOutstanding rcGraph
    change debt 0 (rcView o (rcDead o.active q')) (Finset.range o.next) (rcHeld s E) +
      rcQueueWork s.frameQueue s.chunkQueue + n = _
    rw [hevolves.next]
    omega
  · exact hevolves.spares.mono fun _ hr => Multiset.mem_add.mpr (Or.inr hr)

/-- Visiting an owner in a detached frame or chunk drops it. -/
theorem serve_token (h : RcInv s E q) {v : ℕ} {frameQueue : List RcFrame}
    {chunkQueue : List (List ℕ)}
    (hT : rcTokens s E =
      v ::ₘ rcTokens { s with frameQueue := frameQueue, chunkQueue := chunkQueue } E)
    (hlength : frameQueue.length + chunkQueue.length = s.frameQueue.length + s.chunkQueue.length)
    (hwork : rcQueueWork frameQueue chunkQueue + 1 = rcQueueWork s.frameQueue s.chunkQueue) :
    ∃ q', RcServes 1 s { s with
      objects := (rcDrop s.objects v).2
      frameQueue := frameQueue
      chunkQueue := chunkQueue } q q' E := by
  have hobjects := h.objects
  rw [hT, ← hlength] at hobjects
  obtain ⟨q', hspec⟩ := hobjects.drop h.next
  have hnext := hspec.next
  refine ⟨q', ⟨hspec.inv, h.frames, ?_, h.nextQueue⟩, rfl, hspec.shrink, hnext, ?_, ?_⟩
  · change (rcDrop s.objects v).2.next ≠ 0
    rw [hnext]
    exact h.next
  · have hdebt := hspec.evolves.debt (rcHeld s E) fun _ hr => Multiset.mem_add.mpr (Or.inr hr)
    unfold rcOutstanding rcGraph
    change debt 0 (rcView (rcDrop s.objects v).2 _) (Finset.range (rcDrop s.objects v).2.next)
      (rcHeld s E) + rcQueueWork frameQueue chunkQueue + 1 = _
    rw [hnext]
    simp only [Nat.add_zero] at hdebt
    rw [hdebt]
    omega
  · exact hspec.spares.mono fun _ hr => Multiset.mem_add.mpr (Or.inr hr)

/-- Retiring an empty frame or chunk. -/
theorem serve_retire (h : RcInv s E q) {frameQueue : List RcFrame} {chunkQueue : List (List ℕ)}
    (freeFrames : List RcFrame) (cachedFrameBytes : ℕ)
    (hT : rcTokens s E = rcTokens { s with frameQueue := frameQueue, chunkQueue := chunkQueue } E)
    (hlength : frameQueue.length + chunkQueue.length + 1 =
      s.frameQueue.length + s.chunkQueue.length)
    (hwork : rcQueueWork frameQueue chunkQueue + 1 = rcQueueWork s.frameQueue s.chunkQueue) :
    RcServes 1 s { s with
      objects := { s.objects with pending := s.objects.pending - 1 }
      frameQueue := frameQueue
      chunkQueue := chunkQueue
      freeFrames := freeFrames
      cachedFrameBytes := cachedFrameBytes } q q E := by
  have hobjects := h.objects
  rw [hT] at hobjects
  refine ⟨⟨{ hobjects with pending := ?_ }, h.frames, h.next, h.nextQueue⟩, rfl, RcShrink.refl _ _,
    rfl, ?_, Spares.refl _ _⟩
  · have := hobjects.pending
    change s.objects.pending - 1 = _ + (frameQueue.length + chunkQueue.length)
    change s.objects.pending = (rcDead s.objects.active q).length + _ at this
    change s.objects.pending - 1 = (rcDead s.objects.active q).length + _
    omega
  · unfold rcOutstanding
    change debt 0 (rcGraph s q) (Finset.range s.objects.next) (rcHeld s E) +
      rcQueueWork frameQueue chunkQueue + 1 = _
    omega

/-- One unit of work on the detached frames. -/
theorem frameUnit (h : RcInv s E q) (c : RcConfig) (hready : s.frameQueue ≠ []) :
    ∃ q', RcServes 1 s (rcBoundedFrameUnit c s) q q' E := by
  rcases hqueue : s.frameQueue with _ | ⟨frame, queue⟩
  · exact absurd hqueue hready
  unfold rcBoundedFrameUnit
  rcases hcount : frame.localCount with _ | position
  · simp only [hqueue, hcount]
    refine ⟨q, h.serve_retire _ _ ?_ ?_ ?_⟩
    · simp [rcTokens, rcQueued, rcHeld, hqueue, RcFrame.detached, hcount]
    · simp [hqueue]
      omega
    · simp [rcQueueWork, hqueue, hcount]
      omega
  · simp only [hqueue, hcount]
    refine h.serve_token (rcTokens_frame hqueue hcount) ?_ ?_
    · simp [hqueue]
    · simp [rcQueueWork, hqueue, hcount]
      omega

/-- One unit of work on the detached chunks. -/
theorem chunkUnit (h : RcInv s E q) (hready : s.chunkQueue ≠ []) :
    ∃ q', RcServes 1 s (rcBoundedChunkUnit s) q q' E := by
  rcases hqueue : s.chunkQueue with _ | ⟨chunk, queue⟩
  · exact absurd hqueue hready
  unfold rcBoundedChunkUnit
  rcases hchunk : chunk.getLast? with _ | value
  · simp only [hqueue, hchunk]
    obtain rfl : chunk = [] := List.getLast?_eq_none_iff.mp hchunk
    refine ⟨q, h.serve_retire _ _ ?_ ?_ ?_⟩
    · simp [rcTokens, rcQueued, rcHeld, hqueue]
    · simp [hqueue]
      omega
    · simp [rcQueueWork, hqueue]
      omega
  · simp only [hqueue, hchunk]
    have hlast : chunk = chunk.dropLast ++ [value] :=
      (List.dropLast_append_getLast? value hchunk).symm
    refine h.serve_token (rcTokens_chunk hqueue hchunk) ?_ ?_
    · simp [hqueue]
    · have hlength : chunk.length = chunk.dropLast.length + 1 := by
        conv_lhs => rw [hlast]
        simp
      simp only [rcQueueWork, hqueue, List.map_cons, List.sum_cons]
      omega

/-- One unit of the round-robin service. -/
theorem pollUnit (h : RcInv s E q) (c : RcConfig) (hpending : s.objects.pending ≠ 0) :
    ∃ q', RcServes 1 s (rcPollUnit c s) q q' E := by
  obtain ⟨hready, hlt⟩ := h.pickQueue_ready hpending
  set queue := rcPickQueue s 3 s.nextQueue with hqueue
  have hnext : RcInv { s with nextQueue := (queue + 1) % 3 } E q :=
    ⟨h.objects, h.frames, h.next, Nat.mod_lt _ (by decide)⟩
  have hserves : ∀ {s' : RcState}, (∃ q', RcServes 1 { s with nextQueue := (queue + 1) % 3 } s' q q' E) →
      ∃ q', RcServes 1 s s' q q' E := by
    rintro s' ⟨q', hs'⟩
    exact ⟨q', hs'.inv, hs'.frames, hs'.shrink, hs'.next, hs'.outstanding, hs'.spares⟩
  unfold rcPollUnit
  simp only [← hqueue]
  refine hserves ?_
  have hcases : queue = 0 ∨ queue = 1 ∨ queue = 2 := by omega
  rcases hcases with hq | hq | hq <;> rw [hq] at hready ⊢
  · have hdead := h.queueReady_objects.mp hready
    obtain ⟨q', hinv, hevolves⟩ := h.objects.objectUnit hdead
    rw [hq] at hnext
    exact ⟨q', hnext.serve_objects hinv hevolves⟩
  · rw [hq] at hnext
    refine hnext.frameUnit c ?_
    simpa [RcState.queueReady] using hready
  · rw [hq] at hnext
    refine hnext.chunkUnit ?_
    simpa [RcState.queueReady] using hready

/-- The reference scheduler. -/
theorem referencePoll (h : RcInv s E q) (c : RcConfig) (budget : ℕ) :
    ∃ q', RcServes (rcReferencePoll c budget s).1 s (rcReferencePoll c budget s).2 q q' E := by
  induction budget generalizing s q with
  | zero => exact ⟨q, RcServes.refl h⟩
  | succ budget ih =>
    by_cases hpending : s.objects.pending = 0
    · simp only [rcReferencePoll, if_pos hpending]
      exact ⟨q, RcServes.refl h⟩
    · simp only [rcReferencePoll, if_neg hpending]
      obtain ⟨q', hserves⟩ := h.pollUnit c hpending
      obtain ⟨q'', hserves'⟩ := ih hserves.inv
      refine ⟨q'', ?_⟩
      rw [Nat.add_comm]
      exact hserves.trans hserves'

end RcInv

end Minyar

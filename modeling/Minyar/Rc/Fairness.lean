import Mathlib.Tactic.IntervalCases
import Minyar.Rc.ServiceRuns

/-!
# The oldest batch is served

The service takes the queues of objects, frames and chunks in turns, and an object unit serves the
recent stack and the oldest batch in turns.  While all of them have work the oldest batch therefore
gets one of any six units, whatever the program detaches and drops between the units.  Objects that
die meanwhile go to the recent stack, so that the batch only gets shorter until it is exhausted.
-/

namespace Minyar

open CountedGraph

/-! ## The oldest batch -/

/-- The oldest batch: the object in service and those that wait behind it. -/
def RcObjects.HasBatch (s : RcObjects) (batch : List ℕ) : Prop :=
  ∃ old, RcLinked s.heap s.head old ∧ batch = (if s.active = 0 then [] else [s.active]) ++ old

/-- The links of a queue determine its members. -/
theorem RcLinked.unique {heap : ℕ → Option RcObject} {l l' : List ℕ} {head : ℕ}
    (h : RcLinked heap head l) (h' : RcLinked heap head l') : l = l' := by
  induction l generalizing head l' with
  | nil =>
    have hhead : head = 0 := h
    exact (h'.eq_nil_iff.mpr hhead).symm
  | cons r rs ih =>
    obtain ⟨rfl, hr, o, ho, hrs⟩ := h
    cases l' with
    | nil => exact absurd h' hr
    | cons r' rs' =>
      obtain ⟨rfl, -, o', ho', hrs'⟩ := h'
      rw [ho] at ho'
      cases ho'
      rw [ih hrs hrs']

/-- The invariant names the batch. -/
theorem RcObjectsInv.hasBatch_iff {s : RcObjects} {T : Multiset ℕ} {extra : ℕ} {q : RcQueues}
    (h : RcObjectsInv s T extra q) {batch : List ℕ} :
    s.HasBatch batch ↔ batch = rcBatch s.active q := by
  constructor
  · rintro ⟨old, hold, rfl⟩
    rw [hold.unique h.old, rcBatch]
  · rintro rfl
    exact ⟨q.old, h.old, rfl⟩

/-- The batch is exhausted when it has no object in service and none that waits. -/
def RcObjects.Exhausted (s : RcObjects) : Prop := s.active = 0 ∧ s.head = 0

/-- What a step of the program leaves alone. -/
structure RcQuiet (s s' : RcState) : Prop where
  /-- The queue that is next. -/
  nextQueue : s'.nextQueue = s.nextQueue
  /-- The turn of the object units. -/
  recentTurn : s'.objects.recentTurn = s.objects.recentTurn
  /-- The batch. -/
  batch : ∀ batch, s.objects.HasBatch batch → s'.objects.HasBatch batch

/-- A step of the program leaves the scheduler and the batch alone. -/
theorem RcProgramStep.quiet {s s' : RcState} (h : RcProgramStep s s') : RcQuiet s s' := by
  cases h with
  | drop h =>
    rename_i E q v
    have hobjects := h.objects
    have htokens : rcTokens s (v ::ₘ E) = v ::ₘ rcTokens s E := rcTokens_cons s v E
    rw [htokens] at hobjects
    obtain ⟨q', hspec⟩ := hobjects.drop h.next
    refine ⟨rfl, hspec.recentTurn, fun batch hbatch => ?_⟩
    rw [h.objects.hasBatch_iff] at hbatch
    refine ⟨q'.old, hspec.inv.old, ?_⟩
    rw [hbatch, ← hspec.batch]
    rfl
  | frame frame => exact ⟨rfl, rfl, fun _ hbatch => hbatch⟩
  | temporaries frame =>
    unfold rcBoundedRetireTemporaries
    by_cases hchunks : frame.chunks = []
    · rw [if_pos hchunks]
      exact ⟨rfl, rfl, fun _ hbatch => hbatch⟩
    · rw [if_neg hchunks]
      exact ⟨rfl, rfl, fun _ hbatch => hbatch⟩
  | other h hheap hsame =>
    rename_i E q
    refine ⟨hsame.nextQueue, hsame.recentTurn, fun batch hbatch => ?_⟩
    rw [h.objects.hasBatch_iff] at hbatch
    refine ⟨q.old, ?_, ?_⟩
    · rw [hsame.head]
      refine h.objects.old.congr fun r hr o ho => ⟨o, ?_, rfl⟩
      rw [hheap r (by simp [rcDead, hr])]
      exact ho
    · rw [hbatch, hsame.active, rcBatch]

/-! ## The turns -/

/-- All queues have work. -/
structure RcBusy (s : RcState) : Prop where
  /-- A frame is detached. -/
  frames : s.frameQueue ≠ []
  /-- A chunk is detached. -/
  chunks : s.chunkQueue ≠ []
  /-- An object died recently. -/
  recent : s.objects.recentHead ≠ 0
  /-- The oldest batch is not exhausted. -/
  batch : ¬ s.objects.Exhausted

/-- The object of the oldest batch that is served next. -/
def RcObjects.oldObject (s : RcObjects) : ℕ := if s.active = 0 then s.head else s.active

/-- Its next field. -/
def RcObjects.oldCursor (s : RcObjects) : ℕ :=
  if s.active = 0 then (s.heap s.head).elim 0 rcBoundedSavedCursor else s.cursor

/-- The next unit serves the oldest batch. -/
structure RcServesOld (c : RcConfig) (s : RcState) : Prop where
  /-- It is `rcBoundedOldObjectUnit`. -/
  unit : (rcPollUnit c s).objects =
    rcBoundedOldObjectUnit { s.objects with recentTurn := !s.objects.recentTurn }
  /-- The first object of the batch advances its cursor or is destroyed. -/
  progress : ((rcPollUnit c s).objects.active = s.objects.oldObject ∧
      (rcPollUnit c s).objects.cursor = s.objects.oldCursor + 1) ∨
    ((rcPollUnit c s).objects.active = 0 ∧
      (rcPollUnit c s).objects.heap s.objects.oldObject = none)

namespace RcObjectsInv

variable {s : RcObjects} {T : Multiset ℕ} {extra : ℕ} {q : RcQueues}

/-- A unit on the object in service advances its cursor or destroys it. -/
theorem activeUnit_progress (h : RcObjectsInv s T extra q) (hactive : s.active ≠ 0) :
    ((rcBoundedOldObjectUnit s).active = s.active ∧
        (rcBoundedOldObjectUnit s).cursor = s.cursor + 1) ∨
      ((rcBoundedOldObjectUnit s).active = 0 ∧
        (rcBoundedOldObjectUnit s).heap s.active = none) := by
  obtain ⟨o, ho, hleaf, -⟩ := h.exists_of_dead (active_mem (q := q) hactive)
  have hkind : o.kind = .references ∨ o.kind = .record := RcObject.kind_of_not_isLeaf hleaf
  unfold rcBoundedOldObjectUnit
  simp only [if_neg hactive, ho, hkind, true_and]
  by_cases hlt : s.cursor < o.values.length
  · rw [if_pos hlt]
    obtain ⟨hinv, -⟩ := h.visit_active hactive ho hleaf hlt
    have hnext : s.next ≠ 0 := Nat.ne_of_gt (Nat.lt_of_le_of_lt (Nat.zero_le _) (h.lt_next ho))
    obtain ⟨q', hspec⟩ := hinv.drop hnext
    exact Or.inl ⟨hspec.active, hspec.cursor⟩
  · rw [if_neg hlt]
    exact Or.inr ⟨rfl, RcObjects.free_heap_self s _⟩

/-- A unit on the oldest batch advances the cursor of its first object or destroys it. -/
theorem oldObjectUnit_progress (h : RcObjectsInv s T extra q)
    (hready : s.active ≠ 0 ∨ s.head ≠ 0) :
    ((rcBoundedOldObjectUnit s).active = s.oldObject ∧
        (rcBoundedOldObjectUnit s).cursor = s.oldCursor + 1) ∨
      ((rcBoundedOldObjectUnit s).active = 0 ∧
        (rcBoundedOldObjectUnit s).heap s.oldObject = none) := by
  unfold RcObjects.oldObject RcObjects.oldCursor
  by_cases hactive : s.active = 0
  · have hhead : s.head ≠ 0 := hready.resolve_left (not_not_intro hactive)
    obtain ⟨rs, hold, hinv, -, hact⟩ := h.activate hactive hhead
    have hact' : (rcBoundedActivate s).active ≠ 0 := by
      rw [hact]
      exact hhead
    have hunit : rcBoundedOldObjectUnit s = rcBoundedOldObjectUnit (rcBoundedActivate s) := by
      unfold rcBoundedOldObjectUnit
      simp only [if_pos hactive, if_neg hact']
    have hmem : s.head ∈ rcDead s.active q := by
      rw [rcDead, hold]
      simp
    obtain ⟨o, ho, -⟩ := h.exists_of_dead hmem
    have hcursor : (rcBoundedActivate s).cursor = rcBoundedSavedCursor o := by
      unfold rcBoundedActivate
      rw [ho]
    have hprogress := hinv.activeUnit_progress hact'
    rw [hact, hcursor] at hprogress
    rw [if_pos hactive, if_pos hactive, ho, hunit]
    exact hprogress
  · rw [if_neg hactive, if_neg hactive]
    exact h.activeUnit_progress hactive

end RcObjectsInv

/-- A drop leaves the turn alone. -/
theorem rcDropChain_recentTurn (fuel : ℕ) (s : RcObjects) (v : ℕ) :
    (rcDropChain fuel s v).2.recentTurn = s.recentTurn := by
  induction fuel generalizing s v with
  | zero => rfl
  | succ fuel ih =>
    rw [rcDropChain]
    by_cases hv : v = 0
    · rw [if_pos hv]
    rw [if_neg hv]
    rcases s.heap v with _ | o
    · rfl
    · simp only
      split_ifs
      · rfl
      · rfl
      · rfl
      · rfl
      · exact (ih _ _).trans rfl
      · rfl
      · rfl

theorem rcDrop_recentTurn (s : RcObjects) (v : ℕ) : (rcDrop s v).2.recentTurn = s.recentTurn :=
  rcDropChain_recentTurn _ s v

/-- A unit on the recent stack leaves the turn alone. -/
theorem rcBoundedRecentObjectUnit_recentTurn (s : RcObjects) :
    (rcBoundedRecentObjectUnit s).recentTurn = s.recentTurn := by
  unfold rcBoundedRecentObjectUnit
  rcases s.heap s.recentHead with _ | o
  · rfl
  · simp only
    by_cases hlt : rcBoundedSavedCursor o < o.values.length
    · rw [if_pos hlt]
      exact rcDrop_recentTurn _ _
    · rw [if_neg hlt]
      rfl

/-- So does a unit on the detached frames. -/
theorem rcBoundedFrameUnit_turns (c : RcConfig) (s : RcState) :
    (rcBoundedFrameUnit c s).nextQueue = s.nextQueue ∧
      (rcBoundedFrameUnit c s).objects.recentTurn = s.objects.recentTurn := by
  unfold rcBoundedFrameUnit
  rcases s.frameQueue with _ | ⟨frame, queue⟩
  · exact ⟨rfl, rfl⟩
  · simp only
    rcases frame.localCount with _ | position
    · exact ⟨rfl, rfl⟩
    · exact ⟨rfl, rcDrop_recentTurn _ _⟩

/-- So does a unit on the detached chunks. -/
theorem rcBoundedChunkUnit_turns (s : RcState) :
    (rcBoundedChunkUnit s).nextQueue = s.nextQueue ∧
      (rcBoundedChunkUnit s).objects.recentTurn = s.objects.recentTurn := by
  unfold rcBoundedChunkUnit
  rcases s.chunkQueue with _ | ⟨chunk, queue⟩
  · exact ⟨rfl, rfl⟩
  · simp only
    rcases chunk.getLast? with _ | value
    · exact ⟨rfl, rfl⟩
    · exact ⟨rfl, rcDrop_recentTurn _ _⟩

theorem rcPollUnit_objects {s : RcState} (c : RcConfig) (h : rcPickQueue s 3 s.nextQueue = 0) :
    rcPollUnit c s = { s with nextQueue := 1, objects := rcBoundedObjectUnit s.objects } := by
  unfold rcPollUnit
  simp only [h, if_true]

theorem rcPollUnit_frames {s : RcState} (c : RcConfig) (h : rcPickQueue s 3 s.nextQueue = 1) :
    rcPollUnit c s = rcBoundedFrameUnit c { s with nextQueue := 2 } := by
  unfold rcPollUnit
  simp only [h, Nat.one_ne_zero, if_true, if_false]

theorem rcPollUnit_chunks {s : RcState} (c : RcConfig) (h : rcPickQueue s 3 s.nextQueue = 2) :
    rcPollUnit c s = rcBoundedChunkUnit { s with nextQueue := 0 } := by
  unfold rcPollUnit
  simp only [h, OfNat.ofNat_ne_one, OfNat.ofNat_ne_zero, if_false]

/-- The units until the oldest batch has its turn, when all queues have work. -/
def rcOldDistance (s : RcState) : ℕ :=
  (if s.nextQueue = 0 then 0 else 3 - s.nextQueue) + if s.objects.recentTurn then 3 else 0

namespace RcInv

variable {s : RcState} {E : Multiset ℕ} {q : RcQueues}

/-- A busy scheduler serves the queue that is next. -/
theorem pickQueue_busy (h : RcInv s E q) (hbusy : RcBusy s) :
    rcPickQueue s 3 s.nextQueue = s.nextQueue := by
  have hready : s.queueReady s.nextQueue = true := by
    have hlt := h.nextQueue
    have hcases : s.nextQueue = 0 ∨ s.nextQueue = 1 ∨ s.nextQueue = 2 := by omega
    unfold RcState.queueReady
    rcases hcases with hq | hq | hq
    · simp [hq, hbusy.recent]
    · simp [hq, hbusy.frames]
    · simp [hq, hbusy.chunks]
  rw [rcPickQueue, if_pos hready]

/-- A unit of a busy scheduler serves the oldest batch, or its turn comes nearer. -/
theorem pollUnit_busy (h : RcInv s E q) (c : RcConfig) (hbusy : RcBusy s) :
    RcServesOld c s ∨ rcOldDistance (rcPollUnit c s) + 1 = rcOldDistance s := by
  have hpick := h.pickQueue_busy hbusy
  have hbatch : s.objects.active ≠ 0 ∨ s.objects.head ≠ 0 := not_and_or.mp hbusy.batch
  have hlt := h.nextQueue
  have hcases : s.nextQueue = 0 ∨ s.nextQueue = 1 ∨ s.nextQueue = 2 := by omega
  rcases hcases with hq | hq | hq
  · have hpoll := rcPollUnit_objects c (hpick.trans hq)
    have hunit : (rcPollUnit c s).objects = rcBoundedObjectUnit s.objects := by rw [hpoll]
    have hnext : (rcPollUnit c s).nextQueue = 1 := by rw [hpoll]
    set turned : RcObjects := { s.objects with recentTurn := !s.objects.recentTurn } with hturned
    have hinv : RcObjectsInv turned (rcTokens s E) _ q := h.objects.with_turn _
    have hprogress := hinv.oldObjectUnit_progress hbatch
    have hold : rcBoundedObjectUnit s.objects = rcBoundedOldObjectUnit turned →
        RcServesOld c s := fun heq =>
      ⟨hunit.trans heq, by rw [hunit.trans heq]; exact hprogress⟩
    unfold rcBoundedObjectUnit at hunit hold
    simp only [if_neg (show ¬ (s.objects.active = 0 ∧ s.objects.head = 0) from hbusy.batch)]
      at hunit hold
    by_cases hturn : s.objects.recentTurn = true
    · rw [if_pos ⟨hturn, hbusy.recent⟩] at hunit hold
      split_ifs at hunit hold with hunary
      · exact Or.inl (hold rfl)
      · refine Or.inr ?_
        unfold rcOldDistance
        rw [hunit, hnext, rcBoundedRecentObjectUnit_recentTurn, hq, hturn]
        rfl
    · rw [if_neg fun hboth => hturn hboth.1] at hold
      exact Or.inl (hold rfl)
  · refine Or.inr ?_
    obtain ⟨hnext, hturn⟩ := rcBoundedFrameUnit_turns c { s with nextQueue := 2 }
    unfold rcOldDistance
    rw [rcPollUnit_frames c (hpick.trans hq), hnext, hturn, hq]
    simp only [OfNat.ofNat_ne_zero, Nat.one_ne_zero, if_false]
    omega
  · refine Or.inr ?_
    obtain ⟨hnext, hturn⟩ := rcBoundedChunkUnit_turns { s with nextQueue := 0 }
    unfold rcOldDistance
    rw [rcPollUnit_chunks c (hpick.trans hq), hnext, hturn, hq]
    simp only [OfNat.ofNat_ne_zero, if_true, if_false]
    omega

end RcInv

/-! ## Runs -/

/-- While the oldest batch is not served its turn comes nearer with every unit of a busy
scheduler. -/
theorem RcServiceRun.length_add_distance {c : RcConfig} {s₀ s : RcState} {starts : List RcState}
    (h : RcServiceRun c s₀ starts s) (hbusy : ∀ t ∈ starts, RcBusy t)
    (hnever : ∀ t ∈ starts, ¬ RcServesOld c t) : starts.length + rcOldDistance s ≤ 5 := by
  induction h with
  | nil h =>
    have hlt := h.nextQueue
    unfold rcOldDistance
    split_ifs <;> simp only [List.length_nil] <;> omega
  | @unit starts s h hpending ih =>
    have hbefore := ih (fun t ht => hbusy t (List.mem_append_left _ ht))
      fun t ht => hnever t (List.mem_append_left _ ht)
    have hlast : s ∈ starts ++ [s] := List.mem_append_right _ (List.mem_singleton_self s)
    obtain ⟨E, q, hinv⟩ := h.inv
    rcases hinv.pollUnit_busy c (hbusy s hlast) with hold | hnearer
    · exact absurd hold (hnever s hlast)
    · rw [List.length_append, List.length_singleton]
      omega
  | @program starts s s' E q h hstep hinv ih =>
    have hquiet := hstep.quiet
    have hsame : rcOldDistance s' = rcOldDistance s := by
      unfold rcOldDistance
      rw [hquiet.nextQueue, hquiet.recentTurn]
    rw [hsame]
    exact ih hbusy hnever

/-- A unit adds nothing to a batch that is not exhausted; an exhausted one may be followed by the
recent stack. -/
theorem RcInv.pollUnit_batch {s : RcState} {E : Multiset ℕ} {q : RcQueues} (h : RcInv s E q)
    (c : RcConfig) (hpending : s.objects.pending ≠ 0) {batch : List ℕ}
    (hbatch : (rcPollUnit c s).objects.HasBatch batch) :
    batch <:+ rcBatch s.objects.active q ∨ (s.objects.Exhausted ∧ batch <:+ q.recent) := by
  obtain ⟨hready, hlt⟩ := h.pickQueue_ready hpending
  -- Frames and chunks are owners that are dropped, or they are retired.
  have htoken : ∀ {v : ℕ} {T : Multiset ℕ}, rcTokens s E = v ::ₘ T →
      (rcDrop s.objects v).2.HasBatch batch → batch <:+ rcBatch s.objects.active q := by
    intro v T hT hdropped
    have hobjects := h.objects
    rw [hT] at hobjects
    obtain ⟨q', hspec⟩ := hobjects.drop h.next
    rw [hspec.inv.hasBatch_iff, hspec.batch] at hdropped
    rw [hdropped]
  have hretired : ∀ {n : ℕ}, ({ s.objects with pending := n } : RcObjects).HasBatch batch →
      batch <:+ rcBatch s.objects.active q := by
    intro n hretired
    rw [h.objects.hasBatch_iff.mp hretired]
  have hcases : rcPickQueue s 3 s.nextQueue = 0 ∨ rcPickQueue s 3 s.nextQueue = 1 ∨
      rcPickQueue s 3 s.nextQueue = 2 := by omega
  rcases hcases with hq | hq | hq
  · rw [rcPollUnit_objects c hq] at hbatch
    rw [hq] at hready
    obtain ⟨q', hinv, -, hunit⟩ := h.objects.objectUnit_batch (h.queueReady_objects.mp hready)
    rw [hinv.hasBatch_iff.mp hbatch]
    refine hunit.imp id fun hnew => ⟨?_, hnew.2⟩
    obtain ⟨hactive, hold⟩ := List.append_eq_nil_iff.mp hnew.1
    refine ⟨by_contra fun hne => ?_, h.objects.old.eq_nil_iff.mp hold⟩
    rw [if_neg hne] at hactive
    cases hactive
  · rw [rcPollUnit_frames c hq] at hbatch
    refine Or.inl ?_
    unfold rcBoundedFrameUnit at hbatch
    rcases hqueue : s.frameQueue with _ | ⟨frame, queue⟩
    · simp only [hqueue] at hbatch
      rw [h.objects.hasBatch_iff.mp hbatch]
    · rcases hcount : frame.localCount with _ | position
      · simp only [hqueue, hcount] at hbatch
        exact hretired hbatch
      · simp only [hqueue, hcount] at hbatch
        exact htoken (rcTokens_frame hqueue hcount) hbatch
  · rw [rcPollUnit_chunks c hq] at hbatch
    refine Or.inl ?_
    unfold rcBoundedChunkUnit at hbatch
    rcases hqueue : s.chunkQueue with _ | ⟨chunk, queue⟩
    · simp only [hqueue] at hbatch
      rw [h.objects.hasBatch_iff.mp hbatch]
    · rcases hchunk : chunk.getLast? with _ | value
      · simp only [hqueue, hchunk] at hbatch
        exact hretired hbatch
      · simp only [hqueue, hchunk] at hbatch
        exact htoken (rcTokens_chunk hqueue hchunk) hbatch

/-- Until it is exhausted a batch only gets shorter. -/
theorem RcServiceRun.batch_suffix {c : RcConfig} {s₀ s : RcState} {starts : List RcState}
    (h : RcServiceRun c s₀ starts s) (hwaiting : ∀ t ∈ starts, ¬ t.objects.Exhausted)
    {batch₀ batch : List ℕ} (hbatch₀ : s₀.objects.HasBatch batch₀)
    (hbatch : s.objects.HasBatch batch) : batch <:+ batch₀ := by
  induction h generalizing batch with
  | nil h =>
    rw [h.objects.hasBatch_iff.mp hbatch, h.objects.hasBatch_iff.mp hbatch₀]
  | @unit starts s h hpending ih =>
    have hlast : s ∈ starts ++ [s] := List.mem_append_right _ (List.mem_singleton_self s)
    obtain ⟨E, q, hinv⟩ := h.inv
    have hbefore := ih (fun t ht => hwaiting t (List.mem_append_left _ ht))
      (hinv.objects.hasBatch_iff.mpr rfl)
    rcases hinv.pollUnit_batch c hpending hbatch with hsuffix | ⟨hexhausted, -⟩
    · exact hsuffix.trans hbefore
    · exact absurd hexhausted (hwaiting s hlast)
  | @program starts s s' E q h hstep hinv ih =>
    obtain ⟨E', q', hinv'⟩ := h.inv
    have hsame := hstep.quiet.batch _ (hinv'.objects.hasBatch_iff.mpr rfl)
    have hbefore := ih hwaiting (hinv'.objects.hasBatch_iff.mpr rfl)
    rw [hinv.objects.hasBatch_iff.mp hbatch, ← hinv.objects.hasBatch_iff.mp hsame]
    exact hbefore

/-- Of any six units that find all queues busy one serves the oldest batch, whatever the program does
between them; no object enters a batch that is not exhausted, and an exhausted one is followed by
objects that are already dead.  The operations of the program are such steps and units: every one
that the protocol allows goes on with the run. -/
theorem rcServiceRun_fair (c : RcConfig) (s₀ : RcState) (starts : List RcState) (s : RcState)
    (h : RcServiceRun c s₀ starts s) :
    (starts.length = 6 → (∀ t ∈ starts, RcBusy t) → ∃ t ∈ starts, RcServesOld c t) ∧
      (∀ batch₀ batch, (∀ t ∈ starts, ¬ t.objects.Exhausted) → s₀.objects.HasBatch batch₀ →
        s.objects.HasBatch batch → ∀ r ∈ batch, r ∈ batch₀) ∧
      (s.objects.pending ≠ 0 → s.objects.Exhausted → ∀ recent batch,
        RcLinked s.objects.heap s.objects.recentHead recent →
        (rcPollUnit c s).objects.HasBatch batch → ∀ r ∈ batch, r ∈ recent) ∧
      ∀ (L : RcLedger) (q : RcQueues) (op : RcOp) (r : ℕ × RcState), RcRefines s L q →
        op.Legal L → op.run c s = .ok r →
        ∃ units, RcServiceRun c s₀ (starts ++ units) r.2 := by
  refine ⟨fun hsix hbusy => ?_, fun batch₀ batch hwaiting hbatch₀ hbatch r hr => ?_,
    fun hpending hexhausted recent batch hrecent hbatch r hr => ?_,
    fun L q op r hrefines hlegal hs => RcContinues.op hrefines c hlegal hs s₀ starts h⟩
  · by_contra hnever
    have := h.length_add_distance hbusy fun t ht hold => hnever ⟨t, ht, hold⟩
    omega
  · exact (h.batch_suffix hwaiting hbatch₀ hbatch).subset hr
  · obtain ⟨E, q, hinv⟩ := h.inv
    rw [hrecent.unique hinv.objects.recent]
    rcases hinv.pollUnit_batch c hpending hbatch with hsuffix | ⟨-, hsuffix⟩
    · have hnil : rcBatch s.objects.active q = [] := by
        rw [rcBatch, if_pos hexhausted.1, List.nil_append,
          hinv.objects.old.eq_nil_iff.mpr hexhausted.2]
      rw [hnil] at hsuffix
      exact absurd (hsuffix.subset hr) (List.not_mem_nil)
    · exact hsuffix.subset hr

/-- A run that detaches enough work for six units. -/
theorem rcRun_busy : ∃ ops L s, RcRun RcConfig.smallest ops L s ∧
    ∀ n < 6, RcBusy ((rcPollUnit RcConfig.smallest)^[n] s) ∧
      ((rcPollUnit RcConfig.smallest)^[n] s).objects.pending ≠ 0 := by
  have h := RcRun.nil (c := RcConfig.smallest)
  have h := h.step (show (RcOp.recordNew 9).Legal _ from trivial) rfl
  have h := h.step (show (RcOp.recordNew 9).Legal _ from trivial) rfl
  have h := h.step (show (RcOp.enter 0).Legal _ from trivial) rfl
  have h := h.step (show (RcOp.recordNew 0).Legal _ from trivial) rfl
  have h := h.step (show (RcOp.keep 3).Legal _ from
    ⟨List.cons_ne_nil _ _, Or.inr (Or.inr (by decide))⟩) rfl
  have h := h.step (show (RcOp.recordNew 0).Legal _ from trivial) rfl
  have h := h.step (show (RcOp.keep 4).Legal _ from
    ⟨List.cons_ne_nil _ _, Or.inr (Or.inr (by decide))⟩) rfl
  have h := h.step (show (RcOp.enter 0).Legal _ from trivial) rfl
  have h := h.step (show (RcOp.enter 0).Legal _ from trivial) rfl
  have h := h.step (show (RcOp.enter 0).Legal _ from trivial) rfl
  have h := h.step (show (RcOp.enter 0).Legal _ from trivial) rfl
  have h := h.step (show (RcOp.release 1).Legal _ from Or.inr (Or.inr (by decide))) rfl
  have h := h.step (show (RcOp.release 2).Legal _ from Or.inr (Or.inr (by decide))) rfl
  have h := h.step (show RcOp.leave.Legal _ from ⟨_, rfl, rfl⟩) rfl
  have h := h.step (show RcOp.leave.Legal _ from ⟨_, rfl, rfl⟩) rfl
  have h := h.step (show RcOp.leave.Legal _ from ⟨_, rfl, rfl⟩) rfl
  have h := h.step (show RcOp.leave.Legal _ from ⟨_, rfl, rfl⟩) rfl
  have h := h.step (show RcOp.leave.Legal _ from ⟨_, rfl, rfl⟩) rfl
  refine ⟨_, _, _, h, fun n hn => ?_⟩
  interval_cases n <;>
    exact ⟨⟨List.cons_ne_nil _ _, List.cons_ne_nil _ _, by decide, fun h => absurd h.1 (by decide)⟩,
      by decide⟩

/-- Six units after that run. -/
theorem rcServiceRun_fair_busy : ∃ ops L s₀ starts s, RcRun RcConfig.smallest ops L s₀ ∧
    RcServiceRun RcConfig.smallest s₀ starts s ∧ starts.length = 6 ∧ (∀ t ∈ starts, RcBusy t) ∧
      ∃ t ∈ starts, RcServesOld RcConfig.smallest t := by
  obtain ⟨ops, L, s₀, hrun, hbusy⟩ := rcRun_busy
  obtain ⟨q, hq⟩ := hrun.refines
  -- Six units, one after another.
  have hunits : ∀ n ≤ 6, ∃ starts, starts.length = n ∧ (∀ t ∈ starts, RcBusy t) ∧
      RcServiceRun RcConfig.smallest s₀ starts ((rcPollUnit RcConfig.smallest)^[n] s₀) := by
    intro n hn
    induction n with
    | zero => exact ⟨[], rfl, fun t ht => absurd ht List.not_mem_nil, .nil hq.inv⟩
    | succ n ih =>
      obtain ⟨starts, hlength, hstarts, hservice⟩ := ih (by omega)
      obtain ⟨hlast, hpending⟩ := hbusy n (by omega)
      rw [Function.iterate_succ_apply']
      refine ⟨_, ?_, fun t ht => ?_, hservice.unit hpending⟩
      · rw [List.length_append, hlength, List.length_singleton]
      · rcases List.mem_append.mp ht with ht | ht
        · exact hstarts t ht
        · rw [List.mem_singleton.mp ht]
          exact hlast
  obtain ⟨starts, hlength, hstarts, hservice⟩ := hunits 6 le_rfl
  exact ⟨ops, L, s₀, starts, _, hrun, hservice, hlength, hstarts,
    (rcServiceRun_fair RcConfig.smallest s₀ starts _ hservice).1 hlength hstarts⟩

end Minyar

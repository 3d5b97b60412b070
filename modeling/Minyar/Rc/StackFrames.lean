import Minyar.Rc.Drained
import Minyar.Rc.WorkLimits

/-!
# Activations in the storage of the program

A small activation may live in storage that the program offers.  Its frame gives up its owners when
it is left, while a frame on the heap is detached and served later.  Both ways agree: runs that
differ in nothing but the storage of their frames drain to the same objects with the same counts.

The frame in offered storage has fewer slots than the budget has units, so that leaving it stays
within the budget, and a frame that was left is in no list: detached and cached frames are always on
the heap.
-/

namespace Minyar

open CountedGraph

/-! ## What an operation does besides its frame -/

/-- Work on the objects and service of pending work. -/
inductive RcServed (c : RcConfig) (s : RcState) : RcState → Prop
  /-- Nothing is done. -/
  | refl : RcServed c s s
  /-- The objects change. -/
  | objects {s' : RcState} (h : RcServed c s s') (o : RcObjects) :
      RcServed c s { s' with objects := o }
  /-- The turn of the queues changes. -/
  | turn {s' : RcState} (h : RcServed c s s') (queue : ℕ) :
      RcServed c s { s' with nextQueue := queue }
  /-- A unit of service. -/
  | unit {s' : RcState} (h : RcServed c s s') : RcServed c s (rcPollUnit c s')

namespace RcServed

variable {c : RcConfig} {s s' s'' : RcState}

theorem trans (h : RcServed c s s') (h' : RcServed c s' s'') : RcServed c s s'' := by
  induction h' with
  | refl => exact h
  | objects _ o ih => exact ih.objects o
  | turn _ queue ih => exact ih.turn queue
  | unit _ ih => exact ih.unit

theorem fail (s : RcState) : RcServed c s s.fail := RcServed.refl.objects _

theorem modify (s : RcState) (r : ℕ) (f : RcObject → RcObject) : RcServed c s (s.modify r f) :=
  RcServed.refl.objects _

/-- A poll. -/
theorem poll (s : RcState) (budget : ℕ) : RcServed c s (minyarRcPoll c s budget).2 := by
  have hqueues : ∀ fuel budget work s, RcServed c s (rcPollQueues c fuel budget work s).2 := by
    intro fuel
    induction fuel with
    | zero => exact fun _ _ _ => .refl
    | succ fuel ih =>
      intro budget work s
      rw [rcPollQueues]
      split_ifs
      · exact (RcServed.refl.unit).trans (ih _ _ _)
      · exact .refl
  unfold minyarRcPoll
  simp only
  generalize (if c.pollBudget < budget then c.pollBudget else budget) = budget
  by_cases hobjects : s.frameQueue = [] ∧ s.chunkQueue = []
  · rw [if_pos hobjects]
    exact (RcServed.refl.objects _).turn _
  · rw [if_neg hobjects]
    exact hqueues _ _ _ s

/-- Service of pending work. -/
theorem servicePending (s : RcState) (budget : ℕ) : RcServed c s (rcServicePending c s budget) := by
  unfold rcServicePending
  split_ifs
  · exact poll s budget
  · exact .refl

theorem retain {v : ℕ} (hs : minyarRcRetain s v = .ok s') : RcServed c s s' := by
  unfold minyarRcRetain at hs
  split_ifs at hs
  · cases hs
    exact .refl
  · rcases ho : s.objects.heap v with _ | o <;> rw [ho] at hs
    · cases hs
      exact fail s
    · simp only at hs
      split_ifs at hs
      all_goals
        cases hs
        first | exact .refl | exact RcServed.refl.objects _

theorem release (s : RcState) (v : ℕ) : RcServed c s (minyarRcRelease c s v) :=
  (RcServed.refl.objects _).trans (servicePending _ _)

theorem allocateObject (s : RcState) (o : RcObject) :
    RcServed c s (rcAllocateObject c s o).2 := (servicePending s _).objects _

theorem copyText (s : RcState) (bytes : List UInt8) : RcServed c s (copyText c s bytes).2 :=
  (servicePending s _).trans (allocateObject _ _)

theorem textSlice {text first last : ℕ} {r : ℕ × RcState}
    (hs : minyarTextSlice c s text first last = .ok r) : RcServed c s r.2 := by
  unfold minyarTextSlice at hs
  rcases ho : s.objects.heap text with _ | o <;> rw [ho] at hs
  · cases hs
    exact fail s
  · simp only at hs
    split_ifs at hs
    all_goals first
      | (obtain ⟨s', hs', hr⟩ := bind_eq_ok.mp hs
         cases hr
         exact retain hs')
      | (cases hs
         exact copyText s _)
      | (obtain ⟨s', hs', hr⟩ := bind_eq_ok.mp hs
         cases hr
         exact ((allocateObject s _).trans (modify _ _ _)).trans (retain hs'))

/-! ### Lists -/

theorem listGrow {list : ℕ} (hs : listGrow c s list = .ok s') : RcServed c s s' := by
  unfold Minyar.listGrow at hs
  rcases ho : s.objects.heap list with _ | o <;> rw [ho] at hs
  · cases hs
    exact fail s
  · simp only at hs
    split_ifs at hs
    cases hs
    exact (servicePending s _).trans (modify _ _ _)

theorem listEnsure {list : ℕ} (hs : listEnsure c s list = .ok s') : RcServed c s s' := by
  unfold Minyar.listEnsure at hs
  rcases ho : s.objects.heap list with _ | o <;> rw [ho] at hs
  · cases hs
    exact fail s
  · simp only at hs
    split_ifs at hs
    · exact listGrow hs
    · cases hs
      exact .refl

theorem listAdd {list v : ℕ} (hs : minyarListAdd c s list v = .ok s') : RcServed c s s' := by
  obtain ⟨s₁, hs₁, hs⟩ := bind_eq_ok.mp hs
  refine (listEnsure hs₁).trans ?_
  rcases ho : s₁.objects.heap list with _ | o <;> rw [ho] at hs
  · cases hs
    exact fail s₁
  · simp only at hs
    split_ifs at hs
    · cases hs
      exact modify _ _ _
    · obtain ⟨s₂, hs₂, hs⟩ := bind_eq_ok.mp hs
      cases hs
      exact (((modify s₁ _ _).trans (retain hs₂)).trans (modify _ _ _)).trans (servicePending _ _)
    · cases hs
      exact ((modify s₁ _ _).trans (modify _ _ _)).trans (servicePending _ _)

theorem listAddTake {list v : ℕ} (hs : minyarListAddTake c s list v = .ok s') :
    RcServed c s s' := by
  obtain ⟨s₁, hs₁, hs⟩ := bind_eq_ok.mp hs
  refine (listEnsure hs₁).trans ?_
  rcases ho : s₁.objects.heap list with _ | o <;> rw [ho] at hs
  · cases hs
    exact fail s₁
  · simp only at hs
    split_ifs at hs <;> cases hs
    · exact modify _ _ _
    · exact ((modify s₁ _ _).trans (modify _ _ _)).trans (servicePending _ _)

theorem listSetOwned {list v : ℕ} {position : ℤ} {retainValue : Bool}
    (hs : minyarListSetOwned c s list position v retainValue = .ok s') : RcServed c s s' := by
  unfold minyarListSetOwned at hs
  rcases ho : s.objects.heap list with _ | o <;> rw [ho] at hs
  · cases hs
    exact fail s
  · simp only at hs
    split_ifs at hs
    · obtain ⟨s₁, hs₁, hs⟩ := bind_eq_ok.mp hs
      cases hs
      exact (((modify s _ _).trans (retain hs₁)).trans (modify _ _ _)).trans (release _ _)
    · cases hs
      exact ((modify s _ _).trans (modify _ _ _)).trans (release _ _)
    · cases hs
      exact (modify s _ _).trans (modify _ _ _)

theorem listGrowTo {list capacity fuel : ℕ} (hs : listGrowTo c list capacity fuel s = .ok s') :
    RcServed c s s' := by
  induction fuel generalizing s with
  | zero =>
    cases hs
    exact .refl
  | succ fuel ih =>
    unfold Minyar.listGrowTo at hs
    rcases ho : s.objects.heap list with _ | o <;> rw [ho] at hs
    · cases hs
      exact fail s
    · simp only at hs
      split_ifs at hs
      · obtain ⟨s₁, hs₁, hs⟩ := bind_eq_ok.mp hs
        exact (listGrow hs₁).trans (ih hs)
      · cases hs
        exact .refl

theorem listAddAll {list : ℕ} {values : List ℕ} (hs : listAddAll c list values s = .ok s') :
    RcServed c s s' := by
  induction values generalizing s with
  | nil =>
    cases hs
    exact .refl
  | cons v values ih =>
    obtain ⟨s₁, hs₁, hs⟩ := bind_eq_ok.mp hs
    exact (listAdd hs₁).trans (ih hs)

theorem listAppended {list v : ℕ} {references takeValue : Bool} {r : ℕ × RcState}
    (hs : minyarListAppended c s list v references takeValue = .ok r) : RcServed c s r.2 := by
  have hnew : RcServed c s (if references then
      minyarListReferences (minyarListNew c s).2 (minyarListNew c s).1
      else (minyarListNew c s).2) := by
    split_ifs
    · exact (allocateObject s _).trans (modify _ _ _)
    · exact allocateObject s _
  unfold minyarListAppended at hs
  simp only at hs
  generalize (if references then
      minyarListReferences (minyarListNew c s).2 (minyarListNew c s).1
      else (minyarListNew c s).2) = s₀ at hs hnew
  refine hnew.trans ?_
  rcases ho : s₀.objects.heap list with _ | o <;> rw [ho] at hs
  · cases hs
    exact fail s₀
  · simp only at hs
    split_ifs at hs
    all_goals
      obtain ⟨s₁, hs₁, hs⟩ := bind_eq_ok.mp hs
      obtain ⟨s₂, hs₂, hs⟩ := bind_eq_ok.mp hs
      obtain ⟨s₃, hs₃, hs⟩ := bind_eq_ok.mp hs
      cases hs
      refine ((listGrowTo hs₁).trans (listAddAll hs₂)).trans ?_
    · exact listAddTake hs₃
    · exact listAdd hs₃

/-! ### Records -/

theorem recordAllocate {fieldCount : ℤ} {references : Bool} {r : ℕ × RcState}
    (hs : recordAllocate c s fieldCount references = .ok r) : RcServed c s r.2 := by
  unfold Minyar.recordAllocate at hs
  split_ifs at hs
  all_goals
    cases hs
    exact allocateObject s _

theorem recordSetScalar {record v : ℕ} {field : ℤ}
    (hs : minyarRecordSetScalar s record field v = .ok s') : RcServed c s s' := by
  unfold minyarRecordSetScalar at hs
  rcases ho : s.objects.heap record with _ | o <;> rw [ho] at hs
  · cases hs
    exact fail s
  · simp only at hs
    split_ifs at hs
    cases hs
    exact modify _ _ _

theorem recordSet {record v : ℕ} {field : ℤ} (hs : minyarRecordSet c s record field v = .ok s') :
    RcServed c s s' := by
  unfold minyarRecordSet at hs
  rcases ho : s.objects.heap record with _ | o <;> rw [ho] at hs
  · cases hs
    exact fail s
  · simp only at hs
    split_ifs at hs <;> cases hs
    · exact (modify _ _ _).trans (poll _ _)
    · exact modify _ _ _

theorem recordSetTake {record v : ℕ} {field : ℤ}
    (hs : minyarRecordSetTake c s record field v = .ok s') : RcServed c s s' := by
  unfold minyarRecordSetTake at hs
  rcases ho : s.objects.heap record with _ | o <;> rw [ho] at hs
  · cases hs
    exact fail s
  · simp only at hs
    split_ifs at hs
    exact (modify _ _ _).trans (recordSet hs)

theorem recordSetReference {record v : ℕ} {field : ℤ}
    (hs : minyarRecordSetReference c s record field v = .ok s') : RcServed c s s' := by
  obtain ⟨s₁, hs₁, hs⟩ := bind_eq_ok.mp hs
  exact (retain hs₁).trans (recordSetTake hs)

end RcServed

/-! ## The storage of the frames -/

/-- Frames in offered storage are small, and only active frames are in offered storage. -/
structure RcStorageInv (c : RcConfig) (s : RcState) : Prop where
  /-- A frame in offered storage has fewer slots than a poll has units. -/
  fits : ∀ f ∈ s.frames, f.header ≠ none → f.locals.length < c.pollBudget
  /-- Detached frames are on the heap. -/
  frameQueue : ∀ f ∈ s.frameQueue, f.header = none
  /-- So are cached frames. -/
  freeFrames : ∀ f ∈ s.freeFrames, f.header = none

namespace RcStorageInv

variable {c : RcConfig} {s s' : RcState}

theorem initial (c : RcConfig) : RcStorageInv c RcState.initial :=
  ⟨fun _ h => (by cases h), fun _ h => (by cases h), fun _ h => (by cases h)⟩

/-- A unit of work on the detached frames. -/
theorem frameUnit (h : RcStorageInv c s) : RcStorageInv c (rcBoundedFrameUnit c s) := by
  have hqueued := h.frameQueue
  unfold rcBoundedFrameUnit
  split
  · exact ⟨h.fits, h.frameQueue, h.freeFrames⟩
  · rename_i frame queue hqueue
    rw [hqueue] at hqueued
    obtain ⟨hframe, hrest⟩ := List.forall_mem_cons.mp hqueued
    split
    · refine ⟨h.fits, ?_, h.freeFrames⟩
      exact List.forall_mem_cons.mpr ⟨hframe, hrest⟩
    · refine ⟨h.fits, hrest, fun f hf => ?_⟩
      simp only at hf
      split_ifs at hf
      · rcases List.mem_cons.mp hf with rfl | hf
        · exact hframe
        · exact h.freeFrames f hf
      · exact h.freeFrames f hf

/-- A unit of work on the detached chunks. -/
theorem chunkUnit (h : RcStorageInv c s) : RcStorageInv c (rcBoundedChunkUnit s) := by
  unfold rcBoundedChunkUnit
  split
  · exact ⟨h.fits, h.frameQueue, h.freeFrames⟩
  · split <;> exact ⟨h.fits, h.frameQueue, h.freeFrames⟩

/-- A unit of service. -/
theorem unit (h : RcStorageInv c s) : RcStorageInv c (rcPollUnit c s) := by
  have hturn : ∀ queue, RcStorageInv c { s with nextQueue := queue } := fun _ =>
    ⟨h.fits, h.frameQueue, h.freeFrames⟩
  unfold rcPollUnit
  simp only
  split_ifs
  · exact ⟨h.fits, h.frameQueue, h.freeFrames⟩
  · exact (hturn _).frameUnit
  · exact (hturn _).chunkUnit

/-- Work on the objects and service. -/
theorem served (h : RcStorageInv c s) (hs : RcServed c s s') : RcStorageInv c s' := by
  induction hs with
  | refl => exact h
  | objects _ _ ih => exact ⟨ih.fits, ih.frameQueue, ih.freeFrames⟩
  | turn _ _ ih => exact ⟨ih.fits, ih.frameQueue, ih.freeFrames⟩
  | unit _ ih => exact ih.unit

theorem poll (h : RcStorageInv c s) (budget : ℕ) : RcStorageInv c (minyarRcPoll c s budget).2 :=
  h.served (.poll s budget)

theorem servicePending (h : RcStorageInv c s) (budget : ℕ) :
    RcStorageInv c (rcServicePending c s budget) := h.served (.servicePending s budget)

/-- Another innermost frame in the same storage. -/
theorem setFrame (h : RcStorageInv c s) {f g : RcFrame} {fs : List RcFrame}
    (hf : s.frames = f :: fs) (hheader : g.header = f.header)
    (hlength : g.locals.length = f.locals.length) :
    RcStorageInv c { s with frames := g :: fs } := by
  refine ⟨fun e hg hgs => ?_, h.frameQueue, h.freeFrames⟩
  rcases List.mem_cons.mp hg with rfl | hg
  · rw [hlength]
    exact h.fits f (hf ▸ List.mem_cons_self) (hheader ▸ hgs)
  · exact h.fits e (hf ▸ List.mem_cons_of_mem _ hg) hgs

theorem mapFrame (h : RcStorageInv c s) {f : RcFrame → RcFrame}
    (hf : ∀ g, (f g).header = g.header ∧ (f g).locals = g.locals) : RcStorageInv c (s.mapFrame f) := by
  unfold RcState.mapFrame
  rcases hs : s.frames with _ | ⟨g, gs⟩
  · exact ⟨h.fits, h.frameQueue, h.freeFrames⟩
  · exact h.setFrame hs (hf g).1 (by rw [(hf g).2])

/-- The innermost frame is gone. -/
theorem tail (h : RcStorageInv c s) {f : RcFrame} {fs : List RcFrame} (hf : s.frames = f :: fs) :
    RcStorageInv c { s with frames := fs } :=
  ⟨fun g hg => h.fits g (hf ▸ List.mem_cons_of_mem _ hg), h.frameQueue, h.freeFrames⟩

theorem retireTemporaries (h : RcStorageInv c s) (f : RcFrame) :
    RcStorageInv c (rcBoundedRetireTemporaries s f) := by
  unfold rcBoundedRetireTemporaries
  by_cases hchunks : f.chunks = []
  · rw [if_pos hchunks]
    exact h
  · rw [if_neg hchunks]
    exact ⟨h.fits, h.frameQueue, h.freeFrames⟩

theorem keep (h : RcStorageInv c s) (v : ℕ) : RcStorageInv c (minyarRcKeep c s v) := by
  have hfail := h.served (.fail s)
  have hchunk : ∀ f : RcFrame, RcStorageInv c (if f.chunkFull then
      (rcServicePending c s c.pollBudget).mapFrame fun frame =>
        { frame with chunks := frame.chunks ++ [[]] } else s) := by
    intro f
    split_ifs
    · exact (h.servicePending _).mapFrame fun _ => ⟨rfl, rfl⟩
    · exact h
  unfold minyarRcKeep
  split
  · exact h
  · split
    · exact hfail
    · split
      · exact h
      · split
        · exact hfail
        · refine servicePending (mapFrame (hchunk _) fun g => ?_) _
          exact ⟨rfl, rfl⟩

theorem localTake (h : RcStorageInv c s) (index v : ℕ) :
    RcStorageInv c (minyarRcLocalTake c s index v) := by
  have hfail := h.served (.fail s)
  unfold minyarRcLocalTake
  split
  · exact hfail
  · rename_i f fs hs
    split
    · exact hfail
    · refine served (h.setFrame (g := { f with
        indices := _
        locals := if _ then f.locals.set index (v, true) else f.locals }) hs rfl ?_) (.release _ _)
      simp only
      split_ifs
      · exact List.length_set
      · rfl

theorem localMove (h : RcStorageInv c s) (index : ℕ) :
    RcStorageInv c (minyarRcLocalMove s index) := by
  have hfail := h.served (.fail s)
  unfold minyarRcLocalMove
  split
  · exact hfail
  · rename_i f fs hs
    split
    · exact hfail
    · exact h.setFrame hs rfl List.length_set

theorem step (h : RcStorageInv c s) : RcStorageInv c (minyarRcStep c s) := by
  unfold minyarRcStep
  split
  · exact h.served (.fail s)
  · rename_i f fs hs
    exact ((h.setFrame (g := f.retired) hs rfl rfl).retireTemporaries f).poll _

/-- A frame on the heap is entered. -/
theorem enter (h : RcStorageInv c s) {locals : ℤ} (hs : minyarRcEnter c s locals = .ok s') :
    RcStorageInv c s' := by
  have h₁ := h.poll c.pollBudget
  unfold minyarRcEnter at hs
  simp only at hs
  generalize (minyarRcPoll c s c.pollBudget).2 = s₁ at hs h₁
  split_ifs at hs
  cases hs
  refine ⟨fun f hf hheader => ?_, fun f hf => ?_, fun f hf => ?_⟩
  · rcases List.mem_cons.mp hf with rfl | hf
    · exact absurd rfl hheader
    · refine h₁.fits f ?_ hheader
      split at hf <;> exact hf
  · refine h₁.frameQueue f ?_
    simp only at hf
    split at hf <;> exact hf
  · refine h₁.freeFrames f ?_
    simp only at hf
    split at hf
    · exact hf
    · rename_i hfree
      rw [hfree]
      exact List.mem_cons_of_mem _ hf

/-- A frame in offered storage is entered. -/
theorem enterStack (h : RcStorageInv c s) {header : ℕ} {locals : ℤ}
    (hs : minyarRcEnterStack c s header locals = .ok s') : RcStorageInv c s' := by
  unfold minyarRcEnterStack at hs
  split_ifs at hs with hsmall
  · cases hs
    have h₁ := h.poll c.pollBudget
    refine ⟨fun f hf hheader => ?_, h₁.frameQueue, h₁.freeFrames⟩
    rcases List.mem_cons.mp hf with rfl | hf
    · rw [List.length_replicate]
      omega
    · exact h₁.fits f hf hheader
  · exact h.enter hs

/-- A frame on the heap is left. -/
theorem leave (h : RcStorageInv c s) (hheader : ∀ f ∈ s.frames.head?, f.header = none) :
    RcStorageInv c (minyarRcLeave c s) := by
  unfold minyarRcLeave
  split
  · exact h.served (.fail s)
  · rename_i f fs hs
    have h₁ := (h.tail hs).retireTemporaries f
    have hf : f.header = none := hheader f (by rw [hs]; rfl)
    simp only
    refine poll ?_ _
    refine ⟨h₁.fits, fun g hg => ?_, h₁.freeFrames⟩
    rcases List.mem_append.mp hg with hg | hg
    · exact h₁.frameQueue g hg
    · rw [List.mem_singleton.mp hg]
      exact hf

/-- A frame in offered storage is left, or one on the heap instead of it. -/
theorem leaveStack (h : RcStorageInv c s) {header : ℕ}
    (hheader : ∀ f ∈ s.frames.head?, f.header = none ∨ f.header = some header) :
    RcStorageInv c (minyarRcLeaveStack c s header) := by
  unfold minyarRcLeaveStack
  split
  · exact h.served (.fail s)
  · rename_i f fs hs
    split_ifs with hf
    · have h₁ := (h.tail hs).retireTemporaries f
      refine poll ?_ _
      exact ⟨h₁.fits, h₁.frameQueue, h₁.freeFrames⟩
    · refine h.leave fun g hg => (hheader g hg).resolve_right ?_
      rw [hs] at hg
      cases hg
      exact hf

/-- Every operation that the protocol allows. -/
theorem op (h : RcStorageInv c s) {L : RcLedger} {q : RcQueues} (hrefines : RcRefines s L q)
    {op : RcOp} (hlegal : op.Legal L) {r : ℕ × RcState} (hs : op.run c s = .ok r) :
    RcStorageInv c r.2 := by
  -- A frame of the runtime is in the storage that the ledger records, or on the heap.
  have hheader : ∀ f ∈ s.frames.head?, ∀ F ∈ L.frames.head?,
      f.header = none ∨ f.header = F.header := by
    intro f hf F hF
    have hframes := hrefines.frames
    rcases hs : s.frames with _ | ⟨g, gs⟩
    · rw [hs] at hf
      cases hf
    · rcases hL : L.frames with _ | ⟨G, Gs⟩
      · rw [hL] at hF
        cases hF
      · rw [hs] at hf hframes
        rw [hL] at hF hframes
        cases hf
        cases hF
        cases hframes with
        | cons hmatch _ =>
          rcases hg : f.header with _ | header
          · exact Or.inl rfl
          · exact Or.inr (hmatch.header header hg).symm
  cases op with
  | literal bytes =>
    cases hs
    exact ⟨h.fits, h.frameQueue, h.freeFrames⟩
  | newText bytes =>
    cases hs
    exact h.served (.copyText s bytes)
  | textSlice text first last => exact h.served (.textSlice hs)
  | allocateData =>
    cases hs
    exact h.servicePending _
  | listNew =>
    cases hs
    exact h.served (.allocateObject s _)
  | listReferences list =>
    cases hs
    exact h.served (.modify s _ _)
  | listAdd list value =>
    obtain ⟨s', hs', rfl⟩ := bind_rcVoid_eq_ok.mp hs
    exact h.served (.listAdd hs')
  | listAddTake list value =>
    obtain ⟨s', hs', rfl⟩ := bind_rcVoid_eq_ok.mp hs
    exact h.served (.listAddTake hs')
  | listSet list position value =>
    obtain ⟨s', hs', rfl⟩ := bind_rcVoid_eq_ok.mp hs
    exact h.served (.listSetOwned hs')
  | listSetTake list position value =>
    obtain ⟨s', hs', rfl⟩ := bind_rcVoid_eq_ok.mp hs
    exact h.served (.listSetOwned hs')
  | listAppended list value references takeValue => exact h.served (.listAppended hs)
  | recordNew fieldCount => exact h.served (.recordAllocate hs)
  | recordNewScalar fieldCount => exact h.served (.recordAllocate hs)
  | recordSetScalar record field value =>
    obtain ⟨s', hs', rfl⟩ := bind_rcVoid_eq_ok.mp hs
    exact h.served (.recordSetScalar hs')
  | recordSet record field value =>
    obtain ⟨s', hs', rfl⟩ := bind_rcVoid_eq_ok.mp hs
    exact h.served (.recordSet hs')
  | recordSetTake record field value =>
    obtain ⟨s', hs', rfl⟩ := bind_rcVoid_eq_ok.mp hs
    exact h.served (.recordSetTake hs')
  | recordSetReference record field value =>
    obtain ⟨s', hs', rfl⟩ := bind_rcVoid_eq_ok.mp hs
    exact h.served (.recordSetReference hs')
  | retain value =>
    obtain ⟨s', hs', rfl⟩ := bind_rcVoid_eq_ok.mp hs
    exact h.served (.retain hs')
  | release value =>
    cases hs
    exact h.served (.release s value)
  | keep value =>
    cases hs
    exact h.keep value
  | borrow value =>
    obtain ⟨s', hs', rfl⟩ := bind_rcVoid_eq_ok.mp hs
    obtain ⟨s₁, hs₁, hs'⟩ := bind_eq_ok.mp hs'
    cases hs'
    exact (h.served (.retain hs₁)).keep value
  | setLocal index value =>
    obtain ⟨s', hs', rfl⟩ := bind_rcVoid_eq_ok.mp hs
    obtain ⟨s₁, hs₁, hs'⟩ := bind_eq_ok.mp hs'
    cases hs'
    exact (h.served (.retain hs₁)).localTake index value
  | localTake index value =>
    cases hs
    exact h.localTake index value
  | localMove index =>
    cases hs
    exact h.localMove index
  | enter locals =>
    obtain ⟨s', hs', rfl⟩ := bind_rcVoid_eq_ok.mp hs
    exact h.enter hs'
  | leave =>
    cases hs
    obtain ⟨F, hF, hnone⟩ := hlegal
    refine h.leave fun f hf => ?_
    rcases hheader f hf F hF with hf | hf
    · exact hf
    · exact hf.trans hnone
  | step =>
    cases hs
    exact h.step
  | enterStack header locals =>
    obtain ⟨s', hs', rfl⟩ := bind_rcVoid_eq_ok.mp hs
    exact h.enterStack hs'
  | leaveStack header =>
    cases hs
    obtain ⟨F, hF, hsome⟩ := hlegal
    refine h.leaveStack fun f hf => (hheader f hf F hF).imp id fun hf => ?_
    exact hf.trans hsome
  | poll budget =>
    cases hs
    exact h.poll budget

/-- Every state that a run reaches. -/
theorem run {ops : List RcOp} {L : RcLedger} (h : RcRun c ops L s) : RcStorageInv c s := by
  induction h with
  | nil => exact initial c
  | step hrun hlegal hs ih =>
    obtain ⟨q, hq⟩ := hrun.refines
    exact ih.op hq hlegal hs

end RcStorageInv

/-! ## The same program without offered storage -/

/-- The operation with its frame on the heap. -/
def RcOp.onHeap : RcOp → RcOp
  | enterStack _ locals => enter locals
  | leaveStack _ => leave
  | op => op

/-- The ledger with all frames on the heap. -/
def RcLedger.onHeap (L : RcLedger) : RcLedger :=
  { L with frames := L.frames.map fun F => { F with header := none } }

namespace RcLedger

variable (L : RcLedger)

theorem onHeap_owners : L.onHeap.owners = L.owners := by
  unfold owners onHeap
  simp only [List.flatMap_map]

theorem onHeap_mapFrame {f : RcLedgerFrame → RcLedgerFrame}
    (hf : ∀ F, { f F with header := none } = f { F with header := none }) :
    (L.mapFrame f).onHeap = L.onHeap.mapFrame f := by
  unfold mapFrame onHeap
  rcases L.frames with _ | ⟨F, Fs⟩
  · rfl
  · simp only [List.map_cons, hf]

theorem onHeap_tail : ({ L with frames := L.frames.tail } : RcLedger).onHeap =
    { L.onHeap with frames := L.onHeap.frames.tail } := by
  unfold onHeap
  simp only [List.map_tail]

theorem onHeap_sliceText (text first last : ℕ) :
    (L.sliceText text first last).2.onHeap = (L.onHeap.sliceText text first last).2 := by
  unfold sliceText
  rw [show L.onHeap.heap = L.heap from rfl]
  split
  · simp only
    rw [show ∀ v, L.onHeap.textLength v = L.textLength v from fun _ => rfl]
    split_ifs <;> rfl
  · rfl

theorem onHeap_addToList (list value : ℕ) :
    (L.addToList list value).onHeap = L.onHeap.addToList list value := by
  unfold addToList
  rw [show L.onHeap.heap = L.heap from rfl]
  split <;> rfl

theorem onHeap_setInList (list position value : ℕ) :
    (L.setInList list position value).onHeap = L.onHeap.setInList list position value := by
  unfold setInList
  rw [show L.onHeap.heap = L.heap from rfl]
  split <;> rfl

theorem onHeap_takeForList (list value : ℕ) :
    (L.takeForList list value).onHeap = L.onHeap.takeForList list value := by
  unfold takeForList
  rw [show L.onHeap.heap = L.heap from rfl]
  split <;> rfl

theorem onHeap_setPlain (record field value : ℕ) :
    (L.setPlain record field value).onHeap = L.onHeap.setPlain record field value := by
  unfold setPlain
  rw [show L.onHeap.heap = L.heap from rfl]
  split <;> rfl

theorem onHeap_setReference (record field value : ℕ) :
    (L.setReference record field value).onHeap = L.onHeap.setReference record field value := by
  unfold setReference
  rw [show L.onHeap.heap = L.heap from rfl]
  split
  · simp only
    split_ifs <;> rfl
  · rfl

theorem onHeap_setLocal (index value : ℕ) :
    (L.setLocal index value).onHeap = L.onHeap.setLocal index value :=
  L.onHeap_mapFrame fun _ => rfl

theorem onHeap_keep (v : ℕ) : (L.keep v).onHeap = L.onHeap.keep v := by
  unfold keep
  rw [show L.onHeap.mortal v = L.mortal v from rfl]
  split_ifs
  · exact L.onHeap_mapFrame fun _ => rfl
  · rfl

theorem onHeap_getLocal (index : ℕ) : L.onHeap.getLocal index = L.getLocal index := by
  unfold getLocal onHeap
  rcases L.frames with _ | ⟨F, Fs⟩ <;> rfl

end RcLedger

/-- The effects differ in the storage of the frames only. -/
theorem RcOp.onHeap_effect (L : RcLedger) (op : RcOp) :
    (op.effect L).2.onHeap = (op.onHeap.effect L.onHeap).2 := by
  cases op with
  | textSlice text first last => exact L.onHeap_sliceText text first last
  | listAdd list value => exact L.onHeap_addToList list value
  | listAddTake list value =>
    exact ((L.takeForList list value).onHeap_addToList list value).trans
      (congrArg (RcLedger.addToList · list value) (L.onHeap_takeForList list value))
  | listSet list position value => exact L.onHeap_setInList list position.toNat value
  | listSetTake list position value =>
    exact ((L.takeForList list value).onHeap_setInList list position.toNat value).trans
      (congrArg (RcLedger.setInList · list position.toNat value) (L.onHeap_takeForList list value))
  | listAppended list value references takeValue =>
    unfold RcOp.onHeap RcOp.effect
    simp only
    split_ifs <;> rfl
  | recordSetScalar record field value => exact L.onHeap_setPlain record field.toNat value
  | recordSet record field value => exact L.onHeap_setPlain record field.toNat value
  | recordSetTake record field value =>
    exact (L.take value).onHeap_setReference record field.toNat value
  | recordSetReference record field value => exact L.onHeap_setReference record field.toNat value
  | keep value => exact (L.take value).onHeap_keep value
  | borrow value => exact L.onHeap_keep value
  | setLocal index value => exact L.onHeap_setLocal index value
  | localTake index value => exact (L.take value).onHeap_setLocal index value
  | localMove index =>
    unfold RcOp.onHeap RcOp.effect
    simp only
    rw [RcLedger.onHeap_setLocal, L.onHeap_getLocal]
    rfl
  | leave => exact L.onHeap_tail
  | step => exact L.onHeap_mapFrame fun _ => rfl
  | leaveStack header => exact L.onHeap_tail
  | _ => rfl

/-- The ledger of a run without offered storage. -/
theorem RcLedger.onHeap_after (ops : List RcOp) :
    (RcLedger.after ops).onHeap = RcLedger.after (ops.map RcOp.onHeap) := by
  induction ops using List.reverseRecOn with
  | nil => rfl
  | append_singleton ops op ih =>
    unfold RcLedger.after at ih ⊢
    rw [List.map_append, List.foldl_append, List.foldl_append, ← ih]
    exact op.onHeap_effect _

/-! ## Offered storage -/

/-- The storage that active frames are in. -/
def RcLedger.headers (L : RcLedger) : List ℕ := L.frames.filterMap RcLedgerFrame.header

/-- The program offers storage only that no active frame is in. -/
def RcOp.Offers (L : RcLedger) : RcOp → Prop
  | enterStack header _ => header ∉ L.headers
  | _ => True

/-- The runs in which offered storage is free. -/
inductive RcStackRun (c : RcConfig) : List RcOp → RcLedger → RcState → Prop
  /-- Before the first operation. -/
  | nil : RcStackRun c [] RcLedger.initial RcState.initial
  /-- One more operation. -/
  | step {ops : List RcOp} {op : RcOp} {L : RcLedger} {s : RcState} {r : ℕ × RcState}
      (h : RcStackRun c ops L s) (hlegal : op.Legal L) (hoffers : op.Offers L)
      (hs : op.run c s = .ok r) : RcStackRun c (ops ++ [op]) (op.effect L).2 r.2

theorem RcStackRun.run {c : RcConfig} {ops : List RcOp} {L : RcLedger} {s : RcState}
    (h : RcStackRun c ops L s) : RcRun c ops L s := by
  induction h with
  | nil => exact .nil
  | step _ hlegal _ hs ih => exact .step ih hlegal hs

namespace RcLedger

variable (L : RcLedger)

theorem mapFrame_headers {f : RcLedgerFrame → RcLedgerFrame} (hf : ∀ F, (f F).header = F.header) :
    (L.mapFrame f).headers = L.headers := by
  unfold headers mapFrame
  rcases L.frames with _ | ⟨F, Fs⟩
  · rfl
  · simp only [List.filterMap_cons, hf]

theorem sliceText_frames (text first last : ℕ) :
    (L.sliceText text first last).2.frames = L.frames := by
  unfold sliceText
  split
  · simp only
    split_ifs <;> rfl
  · rfl

theorem addToList_frames (list value : ℕ) : (L.addToList list value).frames = L.frames := by
  unfold addToList
  split <;> rfl

theorem setInList_frames (list position value : ℕ) :
    (L.setInList list position value).frames = L.frames := by
  unfold setInList
  split <;> rfl

theorem takeForList_frames (list value : ℕ) : (L.takeForList list value).frames = L.frames := by
  unfold takeForList
  split <;> rfl

theorem setPlain_frames (record field value : ℕ) :
    (L.setPlain record field value).frames = L.frames := by
  unfold setPlain
  split <;> rfl

theorem setReference_frames (record field value : ℕ) :
    (L.setReference record field value).frames = L.frames := by
  unfold setReference
  split
  · simp only
    split_ifs <;> rfl
  · rfl

theorem keep_headers (v : ℕ) : (L.keep v).headers = L.headers := by
  unfold keep
  split_ifs
  · exact L.mapFrame_headers fun _ => rfl
  · rfl

end RcLedger

/-- Only entering a frame in offered storage adds to the storage in use. -/
theorem RcOp.effect_headers (L : RcLedger) (op : RcOp) :
    (op.effect L).2.headers.Sublist L.headers ∨
      ∃ header locals, op = .enterStack header locals ∧
        (op.effect L).2.headers = header :: L.headers := by
  have hsame : ∀ {M : RcLedger}, M.frames = L.frames → M.headers.Sublist L.headers := by
    intro M hM
    unfold RcLedger.headers
    rw [hM]
  have hmap : ∀ {M : RcLedger} {f : RcLedgerFrame → RcLedgerFrame}, M.frames = L.frames →
      (∀ F, (f F).header = F.header) → (M.mapFrame f).headers.Sublist L.headers := by
    intro M f hM hf
    rw [M.mapFrame_headers hf]
    exact hsame hM
  have htail : ({ L with frames := L.frames.tail } : RcLedger).headers.Sublist L.headers :=
    (List.tail_sublist L.frames).filterMap _
  cases op with
  | textSlice text first last => exact Or.inl (hsame (L.sliceText_frames text first last))
  | listAdd list value => exact Or.inl (hsame (L.addToList_frames list value))
  | listAddTake list value =>
    exact Or.inl (hsame (((L.takeForList list value).addToList_frames list value).trans
      (L.takeForList_frames list value)))
  | listSet list position value => exact Or.inl (hsame (L.setInList_frames list _ value))
  | listSetTake list position value =>
    exact Or.inl (hsame (((L.takeForList list value).setInList_frames list _ value).trans
      (L.takeForList_frames list value)))
  | listAppended list value references takeValue =>
    refine Or.inl (hsame ?_)
    unfold RcOp.effect
    simp only
    split_ifs <;> rfl
  | recordSetScalar record field value => exact Or.inl (hsame (L.setPlain_frames record _ value))
  | recordSet record field value => exact Or.inl (hsame (L.setPlain_frames record _ value))
  | recordSetTake record field value =>
    exact Or.inl (hsame ((L.take value).setReference_frames record _ value))
  | recordSetReference record field value =>
    exact Or.inl (hsame (L.setReference_frames record _ value))
  | keep value =>
    refine Or.inl ?_
    rw [show (RcOp.effect L (.keep value)).2 = (L.take value).keep value from rfl,
      RcLedger.keep_headers]
    exact hsame rfl
  | borrow value =>
    refine Or.inl ?_
    rw [show (RcOp.effect L (.borrow value)).2 = L.keep value from rfl, RcLedger.keep_headers]
  | enter locals => exact Or.inl (List.Sublist.refl _)
  | setLocal index value => exact Or.inl (hmap rfl fun _ => rfl)
  | localTake index value => exact Or.inl (hmap rfl fun _ => rfl)
  | localMove index => exact Or.inl (hmap rfl fun _ => rfl)
  | leave => exact Or.inl htail
  | step => exact Or.inl (hmap rfl fun _ => rfl)
  | enterStack header locals => exact Or.inr ⟨header, locals, rfl, rfl⟩
  | leaveStack header => exact Or.inl htail
  | _ => exact Or.inl (hsame rfl)

/-- The active frames of a run are in different storage. -/
theorem RcStackRun.headers_nodup {c : RcConfig} {ops : List RcOp} {L : RcLedger} {s : RcState}
    (h : RcStackRun c ops L s) : L.headers.Nodup := by
  induction h with
  | nil => exact List.nodup_nil
  | @step _ op L _ _ _ _ hoffers _ ih =>
    rcases op.effect_headers L with hsub | ⟨header, locals, rfl, hcons⟩
    · exact hsub.nodup ih
    · rw [hcons]
      exact List.nodup_cons.mpr ⟨hoffers, ih⟩

/-! ## The work of leaving a frame -/

/-- The units that leaving a frame on the heap does. -/
def minyarRcLeaveWork (c : RcConfig) (s : RcState) : ℕ :=
  match s.frames with
  | [] => 0
  | frame :: frames =>
    let s := rcBoundedRetireTemporaries { s with frames := frames } frame
    (minyarRcPoll c { s with
      frameQueue := s.frameQueue ++ [{ frame.retired with localCount := frame.indices.length }]
      objects := { s.objects with pending := s.objects.pending + 1 } } c.pollBudget).1

/-- `rc_bounded_last_work` after a frame in offered storage is left: the visits of its written slots
and the units of the poll. -/
def minyarRcLeaveStackWork (c : RcConfig) (s : RcState) (header : ℕ) : ℕ :=
  match s.frames with
  | [] => 0
  | frame :: frames =>
    if frame.header = some header then
      let s := rcBoundedRetireTemporaries { s with frames := frames } frame
      frame.indices.length + (minyarRcPoll c
        { s with objects := rcDropWritten frame frame.indices.length s.objects }
        (c.pollBudget - frame.indices.length)).1
    else minyarRcLeaveWork c s

/-- A frame has no more written slots than slots. -/
theorem RcFrameInv.indices_length {f : RcFrame} (h : RcFrameInv f) :
    f.indices.length ≤ f.locals.length := by
  have hsub : f.indices ⊆ List.range f.locals.length := by
    intro i hi
    obtain ⟨v, hv⟩ := (h.written i).mp hi
    exact List.mem_range.mpr (List.getElem?_eq_some_iff.mp hv).1
  have hle := (h.nodup.subperm hsub).length_le
  rwa [List.length_range] at hle

/-- A poll stays within its budget. -/
theorem RcInv.poll_le {s : RcState} {E : Multiset ℕ} {q : RcQueues} (h : RcInv s E q)
    (c : RcConfig) (budget : ℕ) :
    (minyarRcPoll c s budget).1 ≤ min budget c.pollBudget := by
  rw [h.poll_eq_reference]
  exact rcReferencePoll_le c _ s

/-- Leaving a frame on the heap stays within the budget. -/
theorem RcRefines.leaveWork_le {s : RcState} {L : RcLedger} {q : RcQueues} (h : RcRefines s L q)
    (c : RcConfig) (hframes : L.frames ≠ []) : minyarRcLeaveWork c s ≤ c.pollBudget := by
  obtain ⟨f, fs, F, Fs, hf, hF, -⟩ := h.exists_frame hframes
  have hdetached := h.detachFrame hf hF
  have hqueue : (rcBoundedRetireTemporaries { s with frames := fs } f).frameQueue =
      s.frameQueue := by
    unfold rcBoundedRetireTemporaries
    split_ifs <;> rfl
  unfold minyarRcLeaveWork
  rw [hf]
  simp only
  rw [hqueue]
  exact (hdetached.inv.poll_le c _).trans (min_le_right _ _)

/-- Leaving a frame in offered storage stays within the budget. -/
theorem RcRefines.leaveStackWork_le {s : RcState} {L : RcLedger} {q : RcQueues}
    (h : RcRefines s L q) {c : RcConfig} (hstorage : RcStorageInv c s) (hframes : L.frames ≠ [])
    (header : ℕ) : minyarRcLeaveStackWork c s header ≤ c.pollBudget := by
  have hheap := h.leaveWork_le c hframes
  obtain ⟨f, fs, F, Fs, hf, hF, -⟩ := h.exists_frame hframes
  have hmem : f ∈ s.frames := hf ▸ List.mem_cons_self
  have hwritten := (h.inv.frames f hmem).indices_length
  obtain ⟨q', hdropped⟩ := h.dropFrame hf hF
  have hpoll := hdropped.inv.poll_le c (c.pollBudget - f.indices.length)
  unfold minyarRcLeaveStackWork
  rw [hf]
  simp only
  split_ifs with hheader
  · have hfits := hstorage.fits f hmem (by rw [hheader]; exact Option.some_ne_none _)
    have hle := hpoll.trans (min_le_left _ _)
    exact (Nat.add_le_add_left hle _).trans (by omega)
  · exact hheap

/-! ## Offered storage is not used after the frame is left -/

/-- The storage of an active frame is in use. -/
theorem mem_headers {l : List RcFrame} {m : List RcLedgerFrame}
    (h : List.Forall₂ RcFrameMatches l m) {f : RcFrame} (hf : f ∈ l) {header : ℕ}
    (hheader : f.header = some header) : header ∈ m.filterMap RcLedgerFrame.header := by
  induction h with
  | nil => cases hf
  | @cons g G _ _ hmatch _ ih =>
    rcases List.mem_cons.mp hf with rfl | hf
    · exact List.mem_filterMap.mpr ⟨G, List.mem_cons_self, hmatch.header header hheader⟩
    · obtain ⟨F, hF, hFheader⟩ := List.mem_filterMap.mp (ih hf)
      exact List.mem_filterMap.mpr ⟨F, List.mem_cons_of_mem _ hF, hFheader⟩

/-- Leaving a frame leaves no frame in its storage. -/
theorem RcStackRun.leaveStack_released {c : RcConfig} {ops : List RcOp} {L : RcLedger}
    {s : RcState} (h : RcStackRun c ops L s) {header : ℕ} (hlegal : (RcOp.leaveStack header).Legal L)
    {f : RcFrame} (hf : f ∈ (minyarRcLeaveStack c s header).frames ∨
      f ∈ (minyarRcLeaveStack c s header).frameQueue ∨
      f ∈ (minyarRcLeaveStack c s header).freeFrames) : f.header ≠ some header := by
  obtain ⟨q, hq⟩ := h.run.refines
  have hstorage := (RcStorageInv.run h.run).op hq hlegal rfl
  obtain ⟨-, q', hq'⟩ := hq.op c hlegal rfl
  intro hheader
  rcases hf with hf | hf | hf
  · -- The other active frames are in other storage.
    have hmem : header ∈ L.frames.tail.filterMap RcLedgerFrame.header :=
      mem_headers hq'.frames hf hheader
    have hnodup := h.headers_nodup
    obtain ⟨F, hF, hsome⟩ := hlegal
    unfold RcLedger.headers at hnodup
    rcases hframes : L.frames with _ | ⟨G, Gs⟩
    · rw [hframes] at hF
      cases hF
    · rw [hframes] at hF hnodup hmem
      cases hF
      rw [List.filterMap_cons, hsome] at hnodup
      exact (List.nodup_cons.mp hnodup).1 hmem
  · rw [hstorage.frameQueue f hf] at hheader
    cases hheader
  · rw [hstorage.freeFrames f hf] at hheader
    cases hheader

/-! ## Both ways agree -/

/-- Entering a frame in offered storage stops the program exactly when entering one on the heap
does. -/
theorem minyarRcEnterStack_error_iff (c : RcConfig) (s : RcState) (header : ℕ) (locals : ℤ)
    (message : String) : minyarRcEnterStack c s header locals = .error message ↔
      minyarRcEnter c s locals = .error message := by
  unfold minyarRcEnterStack
  split_ifs with hsmall
  · have hlimit : ¬ (locals < 0 ∨ (2 ^ 64 - 1) / 16 < locals) := by omega
    unfold minyarRcEnter
    simp only
    rw [if_neg hlimit]
    exact ⟨fun h => (by cases h), fun h => (by cases h)⟩
  · exact Iff.rfl

/-- Runs that differ in the storage of their frames only drain to the same objects with the same
contents and counts. -/
theorem RcRun.survivor_eq {c : RcConfig} {ops ops' : List RcOp} {L L' : RcLedger}
    {s s' : RcState} (h : RcRun c ops L s) (h' : RcRun c ops' L' s')
    (hops : ops.map RcOp.onHeap = ops'.map RcOp.onHeap) {budgets budgets' : List ℕ}
    (hdrained : (rcPolls c budgets s).2.objects.pending = 0)
    (hdrained' : (rcPolls c budgets' s').2.objects.pending = 0) (v : ℕ) :
    (rcPolls c budgets' s').2.survivor v = (rcPolls c budgets s).2.survivor v := by
  have honHeap : L'.onHeap = L.onHeap := by
    rw [h.ledger, h'.ledger, RcLedger.onHeap_after, RcLedger.onHeap_after, hops]
  obtain ⟨q, hq⟩ := h.refines
  obtain ⟨q', hq'⟩ := h'.refines
  obtain ⟨q₁, hq₁⟩ := hq.polls c budgets
  obtain ⟨q₁', hq₁'⟩ := hq'.polls c budgets'
  refine hq₁.survivor_eq hq₁' hdrained hdrained' ?_ ?_ ?_ v
  · change L'.onHeap.heap = L.onHeap.heap
    rw [honHeap]
  · change L'.onHeap.next = L.onHeap.next
    rw [honHeap]
  · rw [← L'.onHeap_owners, honHeap, L.onHeap_owners]

/-- Activations in offered storage.  Entering one stops the program exactly when an activation on the
heap does.  Runs that differ only in where their activations are drain to the same objects with the
same contents and counts, and every run drains.  Leaving an activation does at most as many units as
the budget has, its written slots being at most its slots and these fewer than the budget; no frame,
active, detached or cached, is in the storage afterwards. -/
theorem minyarRcLeaveStack_equivalent (c : RcConfig) :
    (∀ s header locals message, minyarRcEnterStack c s header locals = .error message ↔
      minyarRcEnter c s locals = .error message) ∧
    (∀ ops ops' L L' s s', RcRun c ops L s → RcRun c ops' L' s' →
      ops.map RcOp.onHeap = ops'.map RcOp.onHeap → ∀ budgets budgets',
        (rcPolls c budgets s).2.objects.pending = 0 →
        (rcPolls c budgets' s').2.objects.pending = 0 → ∀ v,
          (rcPolls c budgets' s').2.survivor v = (rcPolls c budgets s).2.survivor v) ∧
    (∀ ops L s, RcRun c ops L s → ∃ n, ∀ budgets : List ℕ, (∀ b ∈ budgets, 1 ≤ b) →
      n ≤ budgets.length → (rcPolls c budgets s).2.objects.pending = 0) ∧
    (∀ ops L s header, RcStackRun c ops L s → (RcOp.leaveStack header).Legal L →
      minyarRcLeaveStackWork c s header ≤ c.pollBudget ∧
      (∀ f ∈ s.frames.head?, f.header = some header →
        f.indices.length ≤ f.locals.length ∧ f.locals.length < c.pollBudget) ∧
      ∀ f, f ∈ (minyarRcLeaveStack c s header).frames ∨
        f ∈ (minyarRcLeaveStack c s header).frameQueue ∨
        f ∈ (minyarRcLeaveStack c s header).freeFrames → f.header ≠ some header) := by
  refine ⟨minyarRcEnterStack_error_iff c, fun ops ops' L L' s s' h h' hops budgets budgets' hdrained
    hdrained' v => h.survivor_eq h' hops hdrained hdrained' v, fun ops L s h => ?_,
    fun ops L s header h hlegal => ⟨?_, fun f hf hheader => ?_, fun f hf =>
      h.leaveStack_released hlegal hf⟩⟩
  · obtain ⟨q, hq⟩ := h.refines
    exact ⟨rcOutstanding s L.held q, fun budgets hbudgets hlength =>
      hq.inv.polls_drain c hbudgets hlength⟩
  · obtain ⟨q, hq⟩ := h.run.refines
    refine hq.leaveStackWork_le (RcStorageInv.run h.run) ?_ header
    obtain ⟨F, hF, -⟩ := hlegal
    rintro hnil
    rw [hnil] at hF
    cases hF
  · obtain ⟨q, hq⟩ := h.run.refines
    have hmem : f ∈ s.frames := List.mem_of_mem_head? hf
    exact ⟨(hq.inv.frames f hmem).indices_length,
      (RcStorageInv.run h.run).fits f hmem (by rw [hheader]; exact Option.some_ne_none _)⟩

/-- A build with the budget of the source. -/
def RcConfig.standard : RcConfig :=
  { RcConfig.smallest with
    pollBudget := 32
    pollBudget_pos := by decide
    pollBudget_le := by decide }

/-- An activation that owns a record in its local, in offered storage and on the heap. -/
theorem minyarRcLeaveStack_equivalent_record : ∃ L L' s s' budgets,
    RcStackRun RcConfig.standard [.enterStack 7 1, .recordNew 1, .localTake 0 1, .leaveStack 7]
      L s ∧
    RcRun RcConfig.standard [.enter 1, .recordNew 1, .localTake 0 1, .leave] L' s' ∧
    (rcPolls RcConfig.standard budgets s').2.survivor 1 =
      (rcPolls RcConfig.standard budgets s).2.survivor 1 := by
  have h₁ := @RcStackRun.step RcConfig.standard [] (.enterStack 7 1) _ _ _ .nil trivial
    (List.not_mem_nil) rfl
  have h₂ := @RcStackRun.step RcConfig.standard _ (.recordNew 1) _ _ _ h₁ trivial trivial rfl
  have h₃ := @RcStackRun.step RcConfig.standard _ (.localTake 0 1) _ _ _ h₂
    ⟨⟨_, rfl, Nat.one_pos⟩, Or.inr (Or.inr (Multiset.mem_cons_self 1 0))⟩ trivial rfl
  have h₄ := @RcStackRun.step RcConfig.standard _ (.leaveStack 7) _ _ _ h₃ ⟨_, rfl, rfl⟩ trivial rfl
  have h₁' := @RcRun.step RcConfig.standard [] (.enter 1) _ _ _ .nil trivial rfl
  have h₂' := @RcRun.step RcConfig.standard _ (.recordNew 1) _ _ _ h₁' trivial rfl
  have h₃' := @RcRun.step RcConfig.standard _ (.localTake 0 1) _ _ _ h₂'
    ⟨⟨_, rfl, Nat.one_pos⟩, Or.inr (Or.inr (Multiset.mem_cons_self 1 0))⟩ rfl
  have h₄' := @RcRun.step RcConfig.standard _ .leave _ _ _ h₃' ⟨_, rfl, rfl⟩ rfl
  obtain ⟨-, hsame, hdrain, -⟩ := minyarRcLeaveStack_equivalent RcConfig.standard
  obtain ⟨n, hn⟩ := hdrain _ _ _ h₄.run
  obtain ⟨n', hn'⟩ := hdrain _ _ _ h₄'
  have hone : ∀ b ∈ List.replicate (n + n') 1, 1 ≤ b := fun b hb => by
    rw [List.eq_of_mem_replicate hb]
  exact ⟨_, _, _, _, List.replicate (n + n') 1, h₄, h₄', hsame _ _ _ _ _ _ h₄.run h₄' rfl _ _
    (hn _ hone (by simp)) (hn' _ hone (by simp)) 1⟩

end Minyar

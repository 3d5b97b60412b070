import Minyar.Rc.Objects

/-!
# Frames, temporaries and the service of pending work

A frame holds the owners of the locals of an activation and a queue of chunks of at most eight
temporaries.  Leaving an activation detaches both, and `minyarRcPoll` serves the dead objects, the
detached frames and the detached chunks in rounds, one unit of work at a time.

`minyarRcPoll` has fast paths for work on objects alone: a chain of unary records is destroyed in
pairs of units, and the slots of a List are visited in a run.  `rcReferencePoll` is the scheduler
without them.
-/

namespace Minyar

/-- The parameters of a build of the bounded runtime. -/
structure RcConfig where
  /-- `MINYAR_RC_POLL_BUDGET`. -/
  pollBudget : ℕ
  /-- The budget is checked when the runtime is compiled. -/
  pollBudget_pos : 0 < pollBudget
  /-- So is its upper bound. -/
  pollBudget_le : pollBudget ≤ 1024
  /-- `MINYAR_FRAME_CACHE_BYTES`. -/
  frameCacheBytes : ℕ
  /-- `rc_heap_charge`: the storage that a request for so many bytes occupies. -/
  heapCharge : ℕ → ℕ
  /-- `MINYAR_BOUNDED_HEAP`: storage comes from the pool. -/
  boundedHeap : Bool

/-- The owners of an activation. -/
structure RcFrame where
  /-- The header in stack storage; a frame without one is on the heap. -/
  header : Option ℕ := none
  /-- The owner slots: a value, and the low bit that marks a written slot. -/
  locals : List (ℕ × Bool) := []
  /-- The slots in use; in a detached frame the written slots that are not visited yet. -/
  localCount : ℕ := 0
  /-- The slots that there is storage for. -/
  localCapacity : ℕ := 0
  /-- The written slots in the order of their first writes. -/
  indices : List ℕ := []
  /-- The chunks of temporaries, the oldest first. -/
  chunks : List (List ℕ) := []
  /-- The number of temporaries. -/
  temporaryCount : ℕ := 0
  deriving DecidableEq

/-- The state of the bounded runtime. -/
structure RcState where
  /-- The objects and the queues of dead ones. -/
  objects : RcObjects
  /-- `rc_frames`, the innermost first. -/
  frames : List RcFrame
  /-- The detached frames, the oldest first. -/
  frameQueue : List RcFrame
  /-- The detached chunks, the oldest first. -/
  chunkQueue : List (List ℕ)
  /-- `rc_bounded_next_queue`. -/
  nextQueue : ℕ
  /-- `rc_free_frames`, the cache of frames. -/
  freeFrames : List RcFrame
  /-- `rc_bounded_cached_frame_bytes`. -/
  cachedFrameBytes : ℕ

/-- The state before the program starts. -/
def RcState.initial : RcState where
  objects := RcObjects.empty
  frames := []
  frameQueue := []
  chunkQueue := []
  nextQueue := 0
  freeFrames := []
  cachedFrameBytes := 0

/-- An access to a frame or a chunk that is not there. -/
def RcState.fail (s : RcState) : RcState := { s with objects := s.objects.fail }

/-! ## Units of work -/

/-- The value of a written slot. -/
def rcBoundedPendingLocalValue (frame : RcFrame) (position : ℕ) : ℕ :=
  (frame.locals.getD (frame.indices.getD position 0) (0, false)).1

/-- The storage of a cached frame. -/
def RcFrame.charge (c : RcConfig) (frame : RcFrame) : ℕ :=
  c.heapCharge 64 + if frame.localCapacity = 0 then 0 else c.heapCharge (frame.localCapacity * 16)

/-- Visits a written slot of the first detached frame, or retires it. -/
def rcBoundedFrameUnit (c : RcConfig) (s : RcState) : RcState :=
  match s.frameQueue with
  | [] => s.fail
  | frame :: queue =>
    match frame.localCount with
    | position + 1 =>
      { s with
        objects := (rcDrop s.objects (rcBoundedPendingLocalValue frame position)).2
        frameQueue := { frame with localCount := position } :: queue }
    | 0 =>
      let bytes := frame.charge c
      let cached := bytes ≤ c.frameCacheBytes ∧ s.cachedFrameBytes ≤ c.frameCacheBytes - bytes
      { s with
        objects := { s.objects with pending := s.objects.pending - 1 }
        frameQueue := queue
        freeFrames := if cached then frame :: s.freeFrames else s.freeFrames
        cachedFrameBytes := if cached then s.cachedFrameBytes + bytes else s.cachedFrameBytes }

/-- Visits the last owner of the first detached chunk, or retires it. -/
def rcBoundedChunkUnit (s : RcState) : RcState :=
  match s.chunkQueue with
  | [] => s.fail
  | chunk :: queue =>
    match chunk.getLast? with
    | some value =>
      { s with
        objects := (rcDrop s.objects value).2
        chunkQueue := chunk.dropLast :: queue }
    | none =>
      { s with
        objects := { s.objects with pending := s.objects.pending - 1 }
        chunkQueue := queue }

/-- A queue that has work. -/
def RcState.queueReady (s : RcState) (queue : ℕ) : Bool :=
  (queue = 0 && (s.objects.active ≠ 0 || s.objects.head ≠ 0 || s.objects.recentHead ≠ 0)) ||
    (queue = 1 && s.frameQueue ≠ []) || (queue = 2 && s.chunkQueue ≠ [])

/-- The first ready queue from `queue` on, among the next `tries`. -/
def rcPickQueue (s : RcState) : ℕ → ℕ → ℕ
  | 0, queue => queue
  | tries + 1, queue =>
    if s.queueReady queue then queue else rcPickQueue s tries ((queue + 1) % 3)

/-- One unit of the round-robin service. -/
def rcPollUnit (c : RcConfig) (s : RcState) : RcState :=
  let queue := rcPickQueue s 3 s.nextQueue
  let s := { s with nextQueue := (queue + 1) % 3 }
  if queue = 0 then { s with objects := rcBoundedObjectUnit s.objects }
  else if queue = 1 then rcBoundedFrameUnit c s
  else rcBoundedChunkUnit s

/-! ## The fast paths -/

/-- The only pending object when it is a unary record that has not been visited. -/
def rcUnarySingle (remaining : ℕ) (s : RcObjects) : Option ℕ :=
  if 2 ≤ remaining ∧ s.pending = 1 ∧ s.active = 0 then
    let single := if s.head ≠ 0 then s.head else s.recentHead
    match s.heap single with
    | some object =>
      if object.kind = .record ∧ object.values.length = 1 ∧ object.map.getD 0 0 >>> 1 = 0 then
        some single
      else none
    | none => none
  else none

/-- Takes a unary record into service with its field visited, and empties the queues. -/
def rcTakeUnary (s : RcObjects) (single : ℕ) (object : RcObject) : RcObjects :=
  { s.write single { object with owners := 0 } with
    head := 0
    tail := 0
    recentHead := 0
    recentTail := 0
    active := single
    cursor := 1 }

/-- A unary record that only the field of the record in service owns, when the budget also allows
its pair of units. -/
def rcUnaryChild (remaining : ℕ) (s : RcObjects) (child : ℕ) : Option RcObject :=
  if 4 ≤ remaining ∧ child ≠ 0 then
    match s.heap child with
    | some object =>
      if object.kind = .record ∧ object.owners = 1 ∧ object.values.length = 1 then some object
      else none
    | none => none
  else none

/-- Destroys the unary record in service and the unary children that it alone owns, two units for
each. -/
def rcFusedChain : ℕ → ℕ → ℕ → RcObjects → ℕ × RcObjects
  | 0, _, work, s => (work, s.fail)
  | fuel + 1, budget, work, s =>
    match s.heap s.active with
    | none => (work, s.fail)
    | some single =>
      let child := single.child 0
      match rcUnaryChild (budget - work) s child with
      | some next =>
        let s' := s.write child { next with owners := 0 }
        rcFusedChain fuel budget (work + 2)
          { (rcBoundedFinishObject s' s.active single).2 with active := child }
      | none =>
        let s := { s with recentTurn := !s.recentTurn }
        let s := (rcDrop s child).2
        let s := { s with recentTurn := !s.recentTurn }
        let s := (rcBoundedFinishObject s s.active single).2
        (work + 2, { s with pending := s.pending - 1, active := 0 })

/-- The slots of the List in service that a run may visit. -/
def rcListSlots (remaining : ℕ) (s : RcObjects) : ℕ :=
  if s.recentHead = 0 ∧ s.active ≠ 0 then
    match s.heap s.active with
    | some object =>
      if object.kind = .references then min remaining (object.values.length - s.cursor) else 0
    | none => 0
  else 0

/-- Visits slots of the List in service until one of them kills a container. -/
def rcListRun (values : List ℕ) : ℕ → ℕ → RcObjects → ℕ × RcObjects
  | 0, work, s => (work, s)
  | count + 1, work, s =>
    let value := values.getD s.cursor 0
    let s := { s with recentTurn := !s.recentTurn, cursor := s.cursor + 1 }
    let scalar := match s.heap value with
      | some child => decide (value ≠ 0 ∧ child.kind = .scalarRecord ∧ child.owners = 1)
      | none => false
    if scalar = true then rcListRun values count (work + 1) (s.free value)
    else
      let s := (rcDrop s value).2
      if s.recentHead ≠ 0 then (work + 1, s) else rcListRun values count (work + 1) s

/-- Service when only objects are pending. -/
def rcPollObjects : ℕ → ℕ → ℕ → RcObjects → ℕ × RcObjects
  | 0, _, work, s => (work, s)
  | fuel + 1, budget, work, s =>
    if work < budget ∧ s.pending ≠ 0 then
      match rcUnarySingle (budget - work) s with
      | some single =>
        match s.heap single with
        | some object =>
          let r := rcFusedChain budget budget work (rcTakeUnary s single object)
          rcPollObjects fuel budget r.1 r.2
        | none => (work, s.fail)
      | none =>
        let count := rcListSlots (budget - work) s
        if count ≠ 0 then
          match s.heap s.active with
          | some object =>
            let r := rcListRun object.values count work s
            rcPollObjects fuel budget r.1 r.2
          | none => (work, s.fail)
        else rcPollObjects fuel budget (work + 1) (rcBoundedObjectUnit s)
    else (work, s)

/-- Service of all three queues. -/
def rcPollQueues (c : RcConfig) : ℕ → ℕ → ℕ → RcState → ℕ × RcState
  | 0, _, work, s => (work, s)
  | fuel + 1, budget, work, s =>
    if work < budget ∧ s.objects.pending ≠ 0 then
      rcPollQueues c fuel budget (work + 1) (rcPollUnit c s)
    else (work, s)

/-- Serves pending work for at most `budget` units and returns the units used. -/
def minyarRcPoll (c : RcConfig) (s : RcState) (budget : ℕ) : ℕ × RcState :=
  let budget := if c.pollBudget < budget then c.pollBudget else budget
  if s.frameQueue = [] ∧ s.chunkQueue = [] then
    let r := rcPollObjects budget budget 0 s.objects
    (r.1, { s with objects := r.2, nextQueue := if r.1 ≠ 0 then 1 else s.nextQueue })
  else rcPollQueues c budget budget 0 s

/-- `rc_service_pending`: polls when work is pending. -/
def rcServicePending (c : RcConfig) (s : RcState) (budget : ℕ) : RcState :=
  if s.objects.pending ≠ 0 then (minyarRcPoll c s budget).2 else s

/-! ## The reference scheduler -/

/-- One unit of service after another, until the budget is used or nothing is pending. -/
def rcReferencePoll (c : RcConfig) : ℕ → RcState → ℕ × RcState
  | 0, s => (0, s)
  | budget + 1, s =>
    if s.objects.pending = 0 then (0, s)
    else
      let r := rcReferencePoll c budget (rcPollUnit c s)
      (r.1 + 1, r.2)

end Minyar

import Minyar.Library.SinglyLinked
import Minyar.Rc.Heap

/-!
# The cache of frames

A frame is a header of 64 bytes and, when it has locals, a block with a word for every local and a
word for every index of a written local.  The active frames, the frames that wait for retirement
and the cached frames are three lists, all linked through the `previous` fields of the headers.  A
retired frame is cached when its charge fits the limit, and an activation reuses the first cached
frame; its locals then grow when they are too small, which may move them.

The headers and the words are kept here by address beside the heap that the addresses come from.
-/

namespace Minyar

variable {α : Type}

/-- `RcFrame`, at the address of its header. -/
structure RcFrameHeader where
  /-- The next frame of the list. -/
  previous : ℕ := 0
  /-- The block of the locals. -/
  locals : ℕ := 0
  /-- The locals in use; in a detached frame the written locals that are not visited yet. -/
  localCount : ℕ := 0
  /-- The locals that there is storage for. -/
  localCapacity : ℕ := 0
  /-- The first chunk of temporaries. -/
  temporaryHead : ℕ := 0
  /-- The last chunk of temporaries. -/
  temporaryTail : ℕ := 0
  /-- The number of temporaries. -/
  temporaryCount : ℕ := 0
  /-- The number of written locals. -/
  writtenCount : ℕ := 0

/-- The variables of the frames. -/
structure RcFrameStore (α : Type) where
  /-- The heap. -/
  heap : α
  /-- The header at an address. -/
  header : ℕ → RcFrameHeader
  /-- The words of the block at an address. -/
  words : ℕ → ℕ → ℕ
  /-- `rc_frames`. -/
  frames : ℕ
  /-- `rc_free_frames`. -/
  freeFrames : ℕ
  /-- `rc_bounded_frame_head`. -/
  frameHead : ℕ
  /-- `rc_bounded_frame_tail`. -/
  frameTail : ℕ
  /-- `rc_bounded_cached_frame_bytes`. -/
  cachedFrameBytes : ℕ

/-- The variables before the program starts, over a heap. -/
def RcFrameStore.initial (heap : α) : RcFrameStore α where
  heap := heap
  header := fun _ => {}
  words := fun _ _ => 0
  frames := 0
  freeFrames := 0
  frameHead := 0
  frameTail := 0
  cachedFrameBytes := 0

namespace RcFrameStore

/-- Changes the header at an address. -/
def modify (s : RcFrameStore α) (frame : ℕ) (f : RcFrameHeader → RcFrameHeader) :
    RcFrameStore α :=
  { s with header := Function.update s.header frame (f (s.header frame)) }

/-- The link of a header. -/
def next (s : RcFrameStore α) (frame : ℕ) : ℕ := (s.header frame).previous

end RcFrameStore

/-- The bytes of the values and the indices of so many locals. -/
def rcLocalBytes (capacity : ℕ) : ℕ := capacity * 16 % 2 ^ 64

/-- A frame for an activation: the first cached one, whose charge leaves the cache, or a new one
with a zeroed header. -/
def rcObtainFrame (H : RcHeap α) (s : RcFrameStore α) : Except String (ℕ × RcFrameStore α) :=
  if s.freeFrames = 0 then do
    let allocation ← H.allocate s.heap 64
    return (allocation.1, { s with heap := allocation.2 }.modify allocation.1 fun _ => {})
  else do
    let frame := s.freeFrames
    let s := { s with freeFrames := s.next frame }
    let bytes ← H.charge s.heap frame 64
    let s := { s with cachedFrameBytes := sizeSub s.cachedFrameBytes bytes }
    let header := s.header frame
    if header.locals = 0 then return (frame, s)
    else do
      let bytes ← H.charge s.heap header.locals (rcLocalBytes header.localCapacity)
      return (frame, { s with cachedFrameBytes := sizeSub s.cachedFrameBytes bytes })

/-- Grows the locals of a frame to `count`; `contents` is what the new block holds. -/
def rcGrowLocals (H : RcHeap α) (contents : ℕ → ℕ) (s : RcFrameStore α) (frame count : ℕ) :
    Except String (RcFrameStore α) :=
  let header := s.header frame
  if count > header.localCapacity then do
    let values ← H.growLocals s.heap header.locals (rcLocalBytes header.localCapacity)
      (rcLocalBytes count)
    return { s with
      heap := values.2
      words := Function.update s.words values.1 contents }.modify frame fun header =>
        { header with locals := values.1, localCapacity := count }
  else return s

/-- Makes a frame the active one, with `count` null locals. -/
def rcStartFrame (s : RcFrameStore α) (frame count : ℕ) : RcFrameStore α :=
  let header := s.header frame
  { s with
    words := if count = 0 then s.words else
      Function.update s.words header.locals fun i => if i < count then 0 else s.words header.locals i
    frames := frame }.modify frame fun header => { header with
      localCount := count, temporaryCount := 0, writtenCount := 0, previous := s.frames }

/-- `minyar_rc_enter` after its poll. -/
def rcEnterFrame (H : RcHeap α) (contents : ℕ → ℕ) (s : RcFrameStore α) (locals : ℤ) :
    Except String (RcFrameStore α) := do
  let (frame, s) ← rcObtainFrame H s
  if locals < 0 ∨ (2 ^ 64 - 1) / 16 < locals then throw "the computer ran out of memory."
  let s ← rcGrowLocals H contents s frame locals.toNat
  return rcStartFrame s frame locals.toNat

/-- A header whose temporaries are detached. -/
def RcFrameHeader.retireTemporaries (header : RcFrameHeader) : RcFrameHeader :=
  if header.temporaryHead = 0 then header
  else { header with temporaryHead := 0, temporaryTail := 0, temporaryCount := 0 }

/-- Puts a frame behind the detached ones. -/
def rcQueueFrame (s : RcFrameStore α) (frame : ℕ) : RcFrameStore α :=
  let s := if s.frameTail ≠ 0 then
      s.modify s.frameTail fun header => { header with previous := frame }
    else { s with frameHead := frame }
  { s with frameTail := frame }

/-- `minyar_rc_leave` before its poll: the active frame is detached. -/
def rcLeaveFrame (s : RcFrameStore α) : RcFrameStore α :=
  let frame := s.frames
  let s := { s with frames := s.next frame }.modify frame fun header =>
    { header.retireTemporaries with localCount := header.writtenCount, previous := 0 }
  rcQueueFrame s frame

/-- The charge of a frame. -/
def rcFrameBytes (H : RcHeap α) (s : RcFrameStore α) (frame : ℕ) : Except String ℕ := do
  let header := s.header frame
  let bytes ← H.charge s.heap frame 64
  if header.locals = 0 then return bytes
  else return sizeAdd bytes (← H.charge s.heap header.locals (rcLocalBytes header.localCapacity))

/-- The value of a written local. -/
def rcPendingLocalValue (s : RcFrameStore α) (frame position : ℕ) : ℕ :=
  let header := s.header frame
  let words := s.words header.locals
  words (words (header.localCapacity + position)) / 2 * 2

/-- A frame without pending locals is cached when its charge fits the limit, and released
otherwise. -/
def rcRetireFrame (H : RcHeap α) (limit : ℕ) (s : RcFrameStore α) (frame : ℕ) :
    Except String (RcFrameStore α) := do
  let bytes ← rcFrameBytes H s frame
  if bytes ≤ limit ∧ s.cachedFrameBytes ≤ limit - bytes then
    return { s with
      freeFrames := frame
      cachedFrameBytes := sizeAdd s.cachedFrameBytes bytes }.modify frame fun header =>
        { header with previous := s.freeFrames }
  else do
    let heap ← H.deallocate s.heap (s.header frame).locals
    let heap ← H.deallocate heap frame
    return { s with heap := heap }

/-- `rc_bounded_frame_unit`: visits a written local of the first detached frame and returns its
value, which is dropped, or retires the frame. -/
def rcFrameUnit (H : RcHeap α) (limit : ℕ) (s : RcFrameStore α) :
    Except String (ℕ × RcFrameStore α) :=
  let frame := s.frameHead
  match (s.header frame).localCount with
  | position + 1 =>
    .ok (rcPendingLocalValue s frame position,
      s.modify frame fun header => { header with localCount := position })
  | 0 => do
    let s ← rcRetireFrame H limit { s with
      frameHead := s.next frame
      frameTail := if s.next frame = 0 then 0 else s.frameTail } frame
    return (0, s)

/-- `minyar_rc_local_take`: stores a value in a local of the active frame and returns the previous
one, which is released. -/
def rcFrameLocalTake (s : RcFrameStore α) (index value : ℕ) : ℕ × RcFrameStore α :=
  let header := s.header s.frames
  let words := s.words header.locals
  let previous := words index
  let first := previous % 2 = 0 ∧ value ≠ 0
  let words := if first then
      Function.update words (header.localCapacity + header.writtenCount) index
    else words
  let words := if value ≠ 0 ∨ previous % 2 = 1 then Function.update words index (value ||| 1)
    else words
  (previous / 2 * 2, { s with words := Function.update s.words header.locals words }.modify s.frames
    fun header => { header with
      writtenCount := if first then header.writtenCount + 1 else header.writtenCount })

/-- `minyar_rc_local_move`: takes the value out of a local of the active frame. -/
def rcFrameLocalMove (s : RcFrameStore α) (index : ℕ) : RcFrameStore α :=
  let locals := (s.header s.frames).locals
  let words := Function.update (s.words locals) index (s.words locals index % 2)
  { s with words := Function.update s.words locals words }

/-- `minyar_rc_keep` and `minyar_rc_step` change the temporaries of the active frame. -/
def rcFrameTemporaries (s : RcFrameStore α) (head tail count : ℕ) : RcFrameStore α :=
  s.modify s.frames fun header =>
    { header with temporaryHead := head, temporaryTail := tail, temporaryCount := count }

/-- `minyar_rc_enter_stack_v1` after its poll, for a frame in the storage of the caller. -/
def rcEnterStackFrame (s : RcFrameStore α) (frame storage count : ℕ) : RcFrameStore α :=
  { s with
    words := Function.update s.words storage fun i => if i < count then 0 else s.words storage i
    frames := frame }.modify frame fun _ =>
      { previous := s.frames, locals := storage, localCount := count, localCapacity := count }

/-- `minyar_rc_leave_stack_v1` for the active frame, before its poll. -/
def rcLeaveStackFrame (s : RcFrameStore α) : RcFrameStore α :=
  { s with frames := s.next s.frames }.modify s.frames fun header =>
    { header.retireTemporaries with writtenCount := 0 }

end Minyar

import Minyar.Rc.Operations

/-!
# The eager runtime

The runtime without bounded ownership destroys everything at once.  Dropping the last owner of a
Text, of a List of plain values or of a record of plain values frees the object; every other object
is pushed on a stack, and a release works the stack off before it returns: it takes the latest
object, drops an owner of each of its children and frees it.  Nothing is pending between two
operations.

The headers and the payloads are those of the bounded runtime.  A List of references has one kind
only, and locals and temporaries are plain arrays.  That the machine runs out of storage is left
out, except where the runtime compares sizes itself.
-/

namespace Minyar

/-! ## State -/

/-- The objects and the stack of the eager destruction. -/
structure EagerObjects where
  /-- The objects by their names. -/
  heap : ℕ → Option RcObject
  /-- The name of the next object. -/
  next : ℕ
  /-- The destroyed objects, the latest first. -/
  frees : List ℕ
  /-- `rc_pending`, the top of the stack first. -/
  pending : List ℕ
  /-- An object that is not there was accessed. -/
  fault : Bool

/-- The owners of an activation. -/
structure EagerFrame where
  /-- The owner slots. -/
  locals : List ℕ := []
  /-- The slots that there is storage for. -/
  localCapacity : ℕ := 0
  /-- The temporaries, the oldest first. -/
  temporaries : List ℕ := []
  /-- The temporaries that there is storage for. -/
  temporaryCapacity : ℕ := 0

/-- The state of the eager runtime. -/
structure EagerState where
  /-- The objects. -/
  objects : EagerObjects
  /-- `rc_frames`, the innermost first. -/
  frames : List EagerFrame
  /-- `rc_free_frames`, the frames whose storage is used again. -/
  freeFrames : List EagerFrame

/-- The state before the program starts. -/
def EagerState.initial : EagerState where
  objects := { heap := fun _ => none, next := 1, frees := [], pending := [], fault := false }
  frames := []
  freeFrames := []

namespace EagerObjects

/-- An access to an object that is not there. -/
def fail (s : EagerObjects) : EagerObjects := { s with fault := true }

/-- The objects after one is written. -/
def write (s : EagerObjects) (r : ℕ) (o : RcObject) : EagerObjects :=
  { s with heap := Function.update s.heap r (some o) }

/-- The objects after one is returned to the allocator. -/
def free (s : EagerObjects) (r : ℕ) : EagerObjects :=
  { s with heap := Function.update s.heap r none, frees := r :: s.frees }

/-- The objects with another stack. -/
def withPending (s : EagerObjects) (pending : List ℕ) : EagerObjects := { s with pending := pending }

/-- The objects after one of them is changed in place. -/
def modify (s : EagerObjects) (r : ℕ) (f : RcObject → RcObject) : EagerObjects :=
  match s.heap r with
  | none => s.fail
  | some o => s.write r (f o)

/-- `rc_allocate_object`: a new object. -/
def allocateObject (s : EagerObjects) (o : RcObject) : ℕ × EagerObjects :=
  (s.next, { s with heap := Function.update s.heap s.next (some o), next := s.next + 1 })

/-! ## Destruction -/

/-- `rc_drop`: gives up one owner.  The backing of a destroyed Text is dropped in turn, along a chain
of at most `fuel` Texts. -/
def dropChain : ℕ → EagerObjects → ℕ → EagerObjects
  | 0, s, _ => s.fail
  | fuel + 1, s, value =>
    if value = 0 then s
    else match s.heap value with
      | none => s.fail
      | some object =>
        if object.owners = 0 then s
        else
          let object := { object with owners := object.owners - 1 }
          let s := s.write value object
          if object.owners ≠ 0 then s
          else match object.kind with
            | .text =>
              if object.backing = 0 then s.free value
              else dropChain fuel (s.free value) object.backing
            | .list => s.free value
            | .scalarRecord => s.free value
            | _ => s.withPending (value :: s.pending)

/-- Drops one owner of a value. -/
def drop (s : EagerObjects) (value : ℕ) : EagerObjects := dropChain s.next s value

/-- The owners that the destruction of an object drops: the elements of a List of references, the
marked fields of a record. -/
def children (object : RcObject) : List ℕ :=
  if object.kind = .references then object.values
  else ((object.values.zip object.map).filter fun field => field.2 ≠ 0).map Prod.fst

/-- The loop of `minyar_rc_release`, of at most `fuel` passes: the latest dead object gives up its
children and is freed. -/
def destroy : ℕ → EagerObjects → EagerObjects
  | fuel, s =>
    match s.pending with
    | [] => s
    | r :: pending =>
      match fuel with
      | 0 => s.fail
      | fuel + 1 =>
        match s.heap r with
        | none => s.fail
        | some object =>
          destroy fuel (((children object).foldl drop (s.withPending pending)).free r)

/-- `minyar_rc_release`: gives up an owner and destroys everything that goes with it. -/
def release (s : EagerObjects) (value : ℕ) : EagerObjects := destroy s.next (s.drop value)

/-! ## Owners -/

/-- `minyar_rc_retain`: one more owner of a value. -/
def retain (s : EagerObjects) (value : ℕ) : Except String EagerObjects :=
  if value = 0 then .ok s
  else match s.heap value with
    | none => .ok s.fail
    | some object =>
      if object.owners = 0 then .ok s
      else if 2 ^ 64 - 1 - 8 < object.owners * 8 + object.kind.code then
        .error "this value has too many references."
      else .ok (s.write value { object with owners := object.owners + 1 })

/-! ## Texts -/

/-- A Text with storage of its own. -/
def newText (s : EagerObjects) (bytes : List UInt8) : ℕ × EagerObjects :=
  s.allocateObject { kind := .text, owners := 1, bytes := bytes }

/-- A Text literal or a cached Text. -/
def literalText (s : EagerObjects) (bytes : List UInt8) : ℕ × EagerObjects :=
  s.allocateObject { kind := .text, owners := 0, bytes := bytes }

/-- The number of bytes of a Text. -/
def byteLength (s : EagerObjects) (text : ℕ) : ℕ :=
  match s.heap text with
  | some object => object.bytes.length
  | none => 0

/-- `minyar_text_slice`, from byte `first` up to byte `last`. -/
def textSlice (s : EagerObjects) (text first last : ℕ) : Except String (ℕ × EagerObjects) :=
  match s.heap text with
  | none => .ok (0, s.fail)
  | some object =>
    let root := if object.backing ≠ 0 then object.backing else text
    let length := last - first
    let bytes := (object.bytes.drop first).take length
    if first = 0 ∧ length = object.bytes.length then do
      let s ← s.retain text
      return (text, s)
    else if 4096 < s.byteLength root ∧ length * 8 < s.byteLength root then
      .ok (s.newText bytes)
    else do
      let view := s.newText bytes
      let s ← (view.2.modify view.1 fun object => { object with backing := root }).retain root
      return (view.1, s)

/-! ## Lists -/

/-- `minyar_list_new`: an empty List. -/
def listNew (s : EagerObjects) : ℕ × EagerObjects :=
  s.allocateObject { kind := .list, owners := 1 }

/-- `minyar_list_references`: marks a List as one of references. -/
def listReferences (s : EagerObjects) (list : ℕ) : EagerObjects :=
  s.modify list fun object => { object with kind := .references }

/-- The capacity after a List has grown. -/
def grownCapacity (capacity : ℕ) : ℕ :=
  if capacity = 0 then 2 else if 4096 ≤ capacity then capacity * 4 else capacity * 2

/-- `list_grow`: makes room in a List. -/
def listGrow (s : EagerObjects) (list : ℕ) : Except String EagerObjects :=
  match s.heap list with
  | none => .ok s.fail
  | some object =>
    let capacity := grownCapacity object.capacity
    if capacity < object.capacity ∨ (2 ^ 64 - 1) / 8 < capacity then
      .error "this List became too large."
    else .ok (s.modify list fun object => { object with capacity := capacity })

/-- Makes room in a List that is full. -/
def listEnsure (s : EagerObjects) (list : ℕ) : Except String EagerObjects :=
  match s.heap list with
  | none => .ok s.fail
  | some object =>
    if object.values.length = object.capacity then s.listGrow list else .ok s

/-- Puts a value behind the last one of a List. -/
def append (s : EagerObjects) (list value : ℕ) : EagerObjects :=
  s.modify list fun object => { object with values := object.values ++ [value] }

/-- A List of references. -/
def isReferences (s : EagerObjects) (list : ℕ) : Bool :=
  match s.heap list with
  | some object => object.kind = .references
  | none => false

/-- `minyar_list_add`: adds a value; a List of references takes a new owner of it. -/
def listAdd (s : EagerObjects) (list value : ℕ) : Except String EagerObjects := do
  let s ← s.listEnsure list
  let s ← (if s.isReferences list then s.retain value else .ok s)
  return s.append list value

/-- `minyar_list_add_take`: adds a value, whose owner the List takes over. -/
def listAddTake (s : EagerObjects) (list value : ℕ) : Except String EagerObjects := do
  let s ← s.listEnsure list
  return s.append list value

/-- `minyar_list_set_owned`: replaces an element of a List. -/
def listSetOwned (s : EagerObjects) (list : ℕ) (position : ℤ) (value : ℕ) (retainValue : Bool) :
    Except String EagerObjects :=
  match s.heap list with
  | none => .ok s.fail
  | some object =>
    if position < 0 ∨ (object.values.length : ℤ) ≤ position then
      .error (listPositionStop position object.values.length)
    else
      let store := fun (object : RcObject) =>
        { object with values := object.values.set position.toNat value }
      if object.kind = .references then do
        let s ← (if retainValue then s.retain value else .ok s)
        return (s.modify list store).release (object.values.getD position.toNat 0)
      else .ok (s.modify list store)

/-- Grows a List until it has the capacity, at most `fuel` times. -/
def listGrowTo (list capacity : ℕ) : ℕ → EagerObjects → Except String EagerObjects
  | 0, s => .ok s
  | fuel + 1, s =>
    match s.heap list with
    | none => .ok s.fail
    | some object =>
      if object.capacity < capacity then do
        let s ← s.listGrow list
        listGrowTo list capacity fuel s
      else .ok s

/-- Adds values to a List one after another. -/
def listAddAll (list : ℕ) : List ℕ → EagerObjects → Except String EagerObjects
  | [], s => .ok s
  | value :: values, s => do
    let s ← s.listAdd list value
    listAddAll list values s

/-- `minyar_list_appended`: a new List of the elements of a List and a value behind them. -/
def listAppended (s : EagerObjects) (list value : ℕ) (references takeValue : Bool) :
    Except String (ℕ × EagerObjects) :=
  let result := s.listNew
  let s := if references then result.2.listReferences result.1 else result.2
  match s.heap list with
  | none => .ok (result.1, s.fail)
  | some object =>
    if object.values.length = 2 ^ 63 - 1 then .error "this List became too large."
    else do
      -- Every growth adds at least one place.
      let s ← listGrowTo result.1 (object.values.length + 1) (object.values.length + 1) s
      let s ← listAddAll result.1 object.values s
      let s ← (if takeValue then s.listAddTake result.1 value else s.listAdd result.1 value)
      return (result.1, s)

/-! ## Records -/

/-- `record_allocate`: a record whose fields are zero. -/
def recordAllocate (s : EagerObjects) (fieldCount : ℤ) (references : Bool) :
    Except String (ℕ × EagerObjects) :=
  if fieldCount < 0 ∨ (2 ^ 64 - 1) / 8 < fieldCount then
    .error "this record has too many fields."
  else if (2 ^ 64 - 1 - 8 - 8) / (if references then 9 else 8) < fieldCount then
    .error "the computer ran out of memory."
  else
    .ok (s.allocateObject {
      kind := if references then .record else .scalarRecord
      owners := 1
      values := List.replicate fieldCount.toNat 0
      map := if references then List.replicate fieldCount.toNat 0 else [] })

/-- `minyar_record_set` and `minyar_record_set_scalar`: stores a value in a record. -/
def recordSet (s : EagerObjects) (record : ℕ) (field : ℤ) (value : ℕ) :
    Except String EagerObjects :=
  match s.heap record with
  | none => .ok s.fail
  | some object =>
    if field < 0 ∨ (object.values.length : ℤ) ≤ field then
      .error (listPositionStop field object.values.length)
    else .ok (s.modify record fun object =>
      { object with values := object.values.set field.toNat value })

/-- `minyar_record_set_take`: stores a reference in a record, which takes over an owner of it. -/
def recordSetTake (s : EagerObjects) (record : ℕ) (field : ℤ) (value : ℕ) :
    Except String EagerObjects :=
  match s.heap record with
  | none => .ok s.fail
  | some object =>
    if field < 0 ∨ (object.values.length : ℤ) ≤ field then
      .error (listPositionStop field object.values.length)
    else
      (s.modify record fun object => { object with map := object.map.set field.toNat 1 }).recordSet
        record field value

/-- `minyar_record_set_reference`: stores a reference in a record, which takes a new owner of it. -/
def recordSetReference (s : EagerObjects) (record : ℕ) (field : ℤ) (value : ℕ) :
    Except String EagerObjects := do
  let s ← s.retain value
  s.recordSetTake record field value

end EagerObjects

/-! ## Frames -/

namespace EagerState

/-- A state after its objects have changed. -/
def withObjects (s : EagerState) (objects : EagerObjects) : EagerState :=
  { s with objects := objects }

/-- An access to a frame or a slot that is not there. -/
def fail (s : EagerState) : EagerState := s.withObjects s.objects.fail

/-- `minyar_rc_enter`: a new frame, in the storage of a free one if there is one. -/
def enter (s : EagerState) (locals : ℤ) : Except String EagerState :=
  let frame := s.freeFrames.headD {}
  if locals < 0 ∨ (2 ^ 64 - 1) / 8 < locals then .error "the computer ran out of memory."
  else .ok { s with
    freeFrames := s.freeFrames.tail
    frames := { frame with
      locals := List.replicate locals.toNat 0
      localCapacity := max frame.localCapacity locals.toNat
      temporaries := [] } :: s.frames }

/-- `minyar_rc_keep`: keeps an owner until the end of the step. -/
def keep (s : EagerState) (value : ℕ) : EagerState :=
  if value = 0 then s
  else match s.objects.heap value with
    | none => s.fail
    | some object =>
      if object.owners = 0 then s
      else match s.frames with
        | [] => s.fail
        | frame :: frames =>
          let capacity := if frame.temporaryCapacity = 0 then 8 else frame.temporaryCapacity * 2
          { s with frames := { frame with
            temporaries := frame.temporaries ++ [value]
            temporaryCapacity := if frame.temporaries.length = frame.temporaryCapacity then capacity
              else frame.temporaryCapacity } :: frames }

/-- `minyar_rc_local_take`: stores an owner in a local and releases the previous one. -/
def localTake (s : EagerState) (index value : ℕ) : EagerState :=
  match s.frames with
  | [] => s.fail
  | frame :: frames =>
    match frame.locals[index]? with
    | none => s.fail
    | some previous =>
      { s with
        frames := { frame with locals := frame.locals.set index value } :: frames
        objects := s.objects.release previous }

/-- `minyar_rc_local_move`: hands the owner in a local to the program. -/
def localMove (s : EagerState) (index : ℕ) : EagerState :=
  match s.frames with
  | [] => s.fail
  | frame :: frames =>
    match frame.locals[index]? with
    | none => s.fail
    | some _ => { s with frames := { frame with locals := frame.locals.set index 0 } :: frames }

/-- `minyar_rc_local`: stores a new owner in a local. -/
def setLocal (s : EagerState) (index value : ℕ) : Except String EagerState := do
  let objects ← s.objects.retain value
  return (s.withObjects objects).localTake index value

/-- `minyar_rc_borrow`: keeps a new owner until the end of the step. -/
def borrow (s : EagerState) (value : ℕ) : Except String EagerState := do
  let objects ← s.objects.retain value
  return (s.withObjects objects).keep value

/-- `minyar_rc_step`: releases the temporaries of the innermost frame, the latest first. -/
def step (s : EagerState) : EagerState :=
  match s.frames with
  | [] => s.fail
  | frame :: frames =>
    { s with
      frames := { frame with temporaries := [] } :: frames
      objects := frame.temporaries.reverse.foldl EagerObjects.release s.objects }

/-- `minyar_rc_leave`: ends the step, releases the locals and frees the innermost frame. -/
def leave (s : EagerState) : EagerState :=
  let s := s.step
  match s.frames with
  | [] => s
  | frame :: frames =>
    { s with
      frames := frames
      freeFrames := frame :: s.freeFrames
      objects := frame.locals.foldl EagerObjects.release s.objects }

end EagerState

/-! ## One operation -/

/-- The result of an operation on the objects. -/
def EagerState.lift (s : EagerState) (result : Except String (ℕ × EagerObjects)) :
    Except String (ℕ × EagerState) := do
  let result ← result
  return (result.1, s.withObjects result.2)

/-- The result of an operation on the objects that returns no value. -/
def EagerState.liftVoid (s : EagerState) (result : Except String EagerObjects) :
    Except String (ℕ × EagerState) := do
  let objects ← result
  return (0, s.withObjects objects)

/-- The result of an operation that returns no value. -/
def eagerVoid (s : EagerState) : Except String (ℕ × EagerState) := .ok (0, s)

/-- What an operation does in the eager runtime.  Frames in the storage of the caller are ordinary
ones, and there is nothing to poll. -/
def RcOp.runEager (s : EagerState) : RcOp → Except String (ℕ × EagerState)
  | literal bytes => s.lift (.ok (s.objects.literalText bytes))
  | newText bytes => s.lift (.ok (s.objects.newText bytes))
  | textSlice text first last => s.lift (s.objects.textSlice text first last)
  | allocateData => eagerVoid s
  | listNew => s.lift (.ok s.objects.listNew)
  | listReferences list => s.liftVoid (.ok (s.objects.listReferences list))
  | listAdd list value => s.liftVoid (s.objects.listAdd list value)
  | listAddTake list value => s.liftVoid (s.objects.listAddTake list value)
  | listSet list position value => s.liftVoid (s.objects.listSetOwned list position value true)
  | listSetTake list position value =>
      s.liftVoid (s.objects.listSetOwned list position value false)
  | listAppended list value references takeValue =>
      s.lift (s.objects.listAppended list value references takeValue)
  | recordNew fieldCount => s.lift (s.objects.recordAllocate fieldCount true)
  | recordNewScalar fieldCount => s.lift (s.objects.recordAllocate fieldCount false)
  | recordSetScalar record field value => s.liftVoid (s.objects.recordSet record field value)
  | recordSet record field value => s.liftVoid (s.objects.recordSet record field value)
  | recordSetTake record field value => s.liftVoid (s.objects.recordSetTake record field value)
  | recordSetReference record field value =>
      s.liftVoid (s.objects.recordSetReference record field value)
  | retain value => s.liftVoid (s.objects.retain value)
  | release value => s.liftVoid (.ok (s.objects.release value))
  | keep value => eagerVoid (s.keep value)
  | borrow value => s.borrow value >>= eagerVoid
  | setLocal index value => s.setLocal index value >>= eagerVoid
  | localTake index value => eagerVoid (s.localTake index value)
  | localMove index => eagerVoid (s.localMove index)
  | enter locals => s.enter locals >>= eagerVoid
  | leave => eagerVoid s.leave
  | step => eagerVoid s.step
  | enterStack _ locals => s.enter locals >>= eagerVoid
  | leaveStack _ => eagerVoid s.leave
  | poll _ => eagerVoid s

end Minyar

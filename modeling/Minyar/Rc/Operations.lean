import Minyar.Rc.Poll
import Minyar.Rc.Ledger

/-!
# The operations of the bounded runtime

The functions that generated code calls.  Every one serves pending work before it allocates or after
it may have dropped an owner.  An operation that stops the program returns its message; that the
machine runs out of storage is left out, except where the runtime compares sizes itself.
-/

namespace Minyar

/-! ## Owners -/

/-- An object after a change in place. -/
def RcObjects.modify (s : RcObjects) (r : ℕ) (f : RcObject → RcObject) : RcObjects :=
  match s.heap r with
  | none => s.fail
  | some o => s.write r (f o)

/-- A state after one of its objects is changed in place. -/
def RcState.modify (s : RcState) (r : ℕ) (f : RcObject → RcObject) : RcState :=
  { s with objects := s.objects.modify r f }

/-- Takes one more owner of a value. -/
def minyarRcRetain (s : RcState) (value : ℕ) : Except String RcState :=
  if value = 0 then .ok s
  else match s.objects.heap value with
    | none => .ok s.fail
    | some object =>
      if object.owners = 0 then .ok s
      else if 2 ^ 64 - 1 - 8 < object.owners * 8 + object.kind.code then
        .error "this value has too many references."
      else .ok { s with
        objects := s.objects.write value { object with owners := object.owners + 1 } }

/-- Drops an owner and serves pending work with what the drop leaves of the budget. -/
def minyarRcRelease (c : RcConfig) (s : RcState) (value : ℕ) : RcState :=
  let dropped := rcDrop s.objects value
  rcServicePending c { s with objects := dropped.2 }
    (if dropped.1 < c.pollBudget then c.pollBudget - dropped.1 else 0)

/-! ## Allocation -/

/-- A new object, after pending work is served. -/
def rcAllocateObject (c : RcConfig) (s : RcState) (object : RcObject) : ℕ × RcState :=
  let s := rcServicePending c s c.pollBudget
  (s.objects.next, { s with objects := { s.objects with
    heap := Function.update s.objects.heap s.objects.next (some object)
    next := s.objects.next + 1 } })

/-- Storage for the data of an object, after pending work is served. -/
def rcAllocateData (c : RcConfig) (s : RcState) : RcState := rcServicePending c s c.pollBudget

/-- A Text whose bytes are there. -/
def newText (c : RcConfig) (s : RcState) (bytes : List UInt8) : ℕ × RcState :=
  rcAllocateObject c s { kind := .text, owners := 1, bytes := bytes }

/-- A Text with storage of its own. -/
def copyText (c : RcConfig) (s : RcState) (bytes : List UInt8) : ℕ × RcState :=
  newText c (rcAllocateData c s) bytes

/-- A Text literal or a cached Text. -/
def literalText (s : RcState) (bytes : List UInt8) : ℕ × RcState :=
  (s.objects.next, { s with objects := { s.objects with
    heap := Function.update s.objects.heap s.objects.next
      (some { kind := .text, owners := 0, bytes := bytes })
    next := s.objects.next + 1 } })

/-- The number of bytes of a Text. -/
def RcObjects.byteLength (s : RcObjects) (text : ℕ) : ℕ :=
  match s.heap text with
  | some object => object.bytes.length
  | none => 0

/-- The bytes of a Text from `first` up to `last`: the Text itself, a copy of a tiny part of a large
Text, or a view of the Text that owns the bytes. -/
def minyarTextSlice (c : RcConfig) (s : RcState) (text first last : ℕ) :
    Except String (ℕ × RcState) :=
  match s.objects.heap text with
  | none => .ok (0, s.fail)
  | some object =>
    let root := if object.backing ≠ 0 then object.backing else text
    let length := last - first
    let bytes := (object.bytes.drop first).take length
    if first = 0 ∧ length = object.bytes.length then do
      let s ← minyarRcRetain s text
      return (text, s)
    else if 4096 < s.objects.byteLength root ∧ length * 8 < s.objects.byteLength root then
      .ok (copyText c s bytes)
    else do
      let view := newText c s bytes
      let s ← minyarRcRetain
        (view.2.modify view.1 fun object => { object with backing := root }) root
      return (view.1, s)

/-! ## Lists -/

/-- An empty List. -/
def minyarListNew (c : RcConfig) (s : RcState) : ℕ × RcState :=
  rcAllocateObject c s { kind := .list, owners := 1 }

/-- Marks a List as one of references. -/
def minyarListReferences (s : RcState) (list : ℕ) : RcState :=
  s.modify list fun object =>
    if object.kind = .references ∨ object.kind = .referencesImmortal then object
    else { object with
      kind := if object.values.length ≠ 0 then .references else .referencesImmortal }

/-- The capacity after a List has grown. -/
def grownCapacity (c : RcConfig) (capacity : ℕ) : ℕ :=
  if c.boundedHeap then if capacity = 0 then 3 else capacity * 2 + 1
  else if capacity = 0 then 2
  else if 4096 ≤ capacity then capacity * 4
  else capacity * 2

/-- Makes room in a List. -/
def listGrow (c : RcConfig) (s : RcState) (list : ℕ) : Except String RcState :=
  match s.objects.heap list with
  | none => .ok s.fail
  | some object =>
    let capacity := grownCapacity c object.capacity
    if (c.boundedHeap ∧ (2 ^ 63 - 1 - 1) / 2 < object.capacity) ∨ capacity < object.capacity ∨
        (2 ^ 64 - 1) / 8 < capacity then
      .error "this List became too large."
    else
      .ok ((rcServicePending c s c.pollBudget).modify list fun object =>
        { object with capacity := capacity })

/-- Makes room in a List that is full. -/
def listEnsure (c : RcConfig) (s : RcState) (list : ℕ) : Except String RcState :=
  match s.objects.heap list with
  | none => .ok s.fail
  | some object =>
    if object.values.length = object.capacity then listGrow c s list else .ok s

/-- A value is mortal when its object counts owners. -/
def RcObjects.mortal (s : RcObjects) (value : ℕ) : Bool :=
  match s.heap value with
  | some object => object.owners ≠ 0
  | none => false

/-- The first mortal member turns a List of immortal references into one of references. -/
def listStoreKind (s : RcObjects) (value : ℕ) (kind : RcKind) : RcKind :=
  if kind = .referencesImmortal ∧ value ≠ 0 ∧ s.mortal value = true then .references else kind

/-- Puts a value behind the last one of a List. -/
def RcState.append (s : RcState) (list value : ℕ) : RcState :=
  s.modify list fun object => { object with values := object.values ++ [value] }

/-- Adds a value to a List; a List of references takes a new owner of it. -/
def minyarListAdd (c : RcConfig) (s : RcState) (list value : ℕ) : Except String RcState := do
  let s ← listEnsure c s list
  match s.objects.heap list with
  | none => return s.fail
  | some object =>
    if object.kind = .list then return s.append list value
    else
      let kind := listStoreKind s.objects value object.kind
      let s := s.modify list fun object => { object with kind := kind }
      let s ← (if kind = .references then minyarRcRetain s value else .ok s)
      return rcServicePending c (s.append list value) c.pollBudget

/-- Adds a value to a List, which takes over an owner of it. -/
def minyarListAddTake (c : RcConfig) (s : RcState) (list value : ℕ) : Except String RcState := do
  let s ← listEnsure c s list
  match s.objects.heap list with
  | none => return s.fail
  | some object =>
    if object.kind = .list then return s.append list value
    else
      let kind := listStoreKind s.objects value object.kind
      let s := s.modify list fun object => { object with kind := kind }
      return rcServicePending c (s.append list value) c.pollBudget

/-- The message about a position outside a List or a record. -/
def listPositionStop (position : ℤ) (length : ℕ) : String :=
  s!"List position {position} is outside its length of {length}."

/-- Replaces an element of a List. -/
def minyarListSetOwned (c : RcConfig) (s : RcState) (list : ℕ) (position : ℤ) (value : ℕ)
    (retainValue : Bool) : Except String RcState :=
  match s.objects.heap list with
  | none => .ok s.fail
  | some object =>
    if position < 0 ∨ (object.values.length : ℤ) ≤ position then
      .error (listPositionStop position object.values.length)
    else
      let store := fun (object : RcObject) =>
        { object with values := object.values.set position.toNat value }
      let kind := listStoreKind s.objects value object.kind
      let s := s.modify list fun object => { object with kind := kind }
      if kind = .references then do
        let s ← (if retainValue then minyarRcRetain s value else .ok s)
        return minyarRcRelease c (s.modify list store) (object.values.getD position.toNat 0)
      else .ok (s.modify list store)

/-- Replaces an element of a List, which takes a new owner of the value. -/
def minyarListSet (c : RcConfig) (s : RcState) (list : ℕ) (position : ℤ) (value : ℕ) :
    Except String RcState := minyarListSetOwned c s list position value true

/-- Replaces an element of a List, which takes over an owner of the value. -/
def minyarListSetTake (c : RcConfig) (s : RcState) (list : ℕ) (position : ℤ) (value : ℕ) :
    Except String RcState := minyarListSetOwned c s list position value false

/-- Grows a List until it has the capacity, at most `fuel` times. -/
def listGrowTo (c : RcConfig) (list capacity : ℕ) : ℕ → RcState → Except String RcState
  | 0, s => .ok s
  | fuel + 1, s =>
    match s.objects.heap list with
    | none => .ok s.fail
    | some object =>
      if object.capacity < capacity then do
        let s ← listGrow c s list
        listGrowTo c list capacity fuel s
      else .ok s

/-- Adds values to a List one after another. -/
def listAddAll (c : RcConfig) (list : ℕ) : List ℕ → RcState → Except String RcState
  | [], s => .ok s
  | value :: values, s => do
    let s ← minyarListAdd c s list value
    listAddAll c list values s

/-- A new List of the elements of a List and a value behind them. -/
def minyarListAppended (c : RcConfig) (s : RcState) (list value : ℕ)
    (references takeValue : Bool) : Except String (ℕ × RcState) :=
  let result := minyarListNew c s
  let s := if references then minyarListReferences result.2 result.1 else result.2
  match s.objects.heap list with
  | none => .ok (result.1, s.fail)
  | some object =>
    if object.values.length = 2 ^ 63 - 1 then .error "this List became too large."
    else do
      -- Every growth adds at least one place.
      let s ← listGrowTo c result.1 (object.values.length + 1) (object.values.length + 1) s
      let s ← listAddAll c result.1 object.values s
      let s ← (if takeValue then minyarListAddTake c s result.1 value
        else minyarListAdd c s result.1 value)
      return (result.1, s)

/-! ## Records -/

/-- A record whose fields are zero. -/
def recordAllocate (c : RcConfig) (s : RcState) (fieldCount : ℤ) (references : Bool) :
    Except String (ℕ × RcState) :=
  if fieldCount < 0 ∨ (2 ^ 64 - 1) / 8 < fieldCount then
    .error "this record has too many fields."
  else if (2 ^ 64 - 1 - 8 - 8) / (if references then 9 else 8) < fieldCount then
    .error "the computer ran out of memory."
  else
    .ok (rcAllocateObject c s {
      kind := if references then .record else .scalarRecord
      owners := 1
      values := List.replicate fieldCount.toNat 0
      map := if references then List.replicate fieldCount.toNat 0 else [] })

/-- Stores a plain value in a record of plain values. -/
def minyarRecordSetScalar (s : RcState) (record : ℕ) (field : ℤ) (value : ℕ) :
    Except String RcState :=
  match s.objects.heap record with
  | none => .ok s.fail
  | some object =>
    if field < 0 ∨ (object.values.length : ℤ) ≤ field then
      .error (listPositionStop field object.values.length)
    else .ok (s.modify record fun object =>
      { object with values := object.values.set field.toNat value })

/-- Stores a value in a record. -/
def minyarRecordSet (c : RcConfig) (s : RcState) (record : ℕ) (field : ℤ) (value : ℕ) :
    Except String RcState :=
  match s.objects.heap record with
  | none => .ok s.fail
  | some object =>
    if field < 0 ∨ (object.values.length : ℤ) ≤ field then
      .error (listPositionStop field object.values.length)
    else
      let s := s.modify record fun object =>
        { object with values := object.values.set field.toNat value }
      if object.kind = .record then .ok (minyarRcPoll c s c.pollBudget).2 else .ok s

/-- Stores a reference in a record, which takes over an owner of it. -/
def minyarRecordSetTake (c : RcConfig) (s : RcState) (record : ℕ) (field : ℤ) (value : ℕ) :
    Except String RcState :=
  match s.objects.heap record with
  | none => .ok s.fail
  | some object =>
    if field < 0 ∨ (object.values.length : ℤ) ≤ field then
      .error (listPositionStop field object.values.length)
    else
      minyarRecordSet c
        (s.modify record fun object => { object with map := object.map.set field.toNat 1 })
        record field value

/-- Stores a reference in a record, which takes a new owner of it. -/
def minyarRecordSetReference (c : RcConfig) (s : RcState) (record : ℕ) (field : ℤ)
    (value : ℕ) : Except String RcState := do
  let s ← minyarRcRetain s value
  minyarRecordSetTake c s record field value

/-! ## Frames -/

/-- A new frame; its storage may come from the cache. -/
def minyarRcEnter (c : RcConfig) (s : RcState) (locals : ℤ) : Except String RcState :=
  let s := (minyarRcPoll c s c.pollBudget).2
  let cached := s.freeFrames.headD {}
  let s := match s.freeFrames with
    | [] => s
    | frame :: frames => { s with
      freeFrames := frames
      cachedFrameBytes := s.cachedFrameBytes - frame.charge c }
  if locals < 0 ∨ (2 ^ 64 - 1) / 16 < locals then .error "the computer ran out of memory."
  else
    .ok { s with frames := {
      locals := List.replicate locals.toNat (0, false)
      localCount := locals.toNat
      localCapacity := max cached.localCapacity locals.toNat } :: s.frames }

/-- Detaches the temporaries of a frame. -/
def rcBoundedRetireTemporaries (s : RcState) (frame : RcFrame) : RcState :=
  if frame.chunks = [] then s
  else { s with
    chunkQueue := s.chunkQueue ++ frame.chunks
    objects := { s.objects with pending := s.objects.pending +
      (frame.temporaryCount / 8 + if frame.temporaryCount % 8 ≠ 0 then 1 else 0) } }

/-- A frame without temporaries. -/
def RcFrame.retired (frame : RcFrame) : RcFrame :=
  { frame with chunks := [], temporaryCount := 0 }

/-- Detaches the innermost frame. -/
def minyarRcLeave (c : RcConfig) (s : RcState) : RcState :=
  match s.frames with
  | [] => s.fail
  | frame :: frames =>
    let s := rcBoundedRetireTemporaries { s with frames := frames } frame
    (minyarRcPoll c { s with
      frameQueue := s.frameQueue ++ [{ frame.retired with localCount := frame.indices.length }]
      objects := { s.objects with pending := s.objects.pending + 1 } } c.pollBudget).2

/-- The innermost frame after a change. -/
def RcState.mapFrame (s : RcState) (f : RcFrame → RcFrame) : RcState :=
  match s.frames with
  | [] => s.fail
  | frame :: frames => { s with frames := f frame :: frames }

/-- The last chunk has no place left. -/
def RcFrame.chunkFull (frame : RcFrame) : Bool :=
  match frame.chunks.getLast? with
  | none => true
  | some chunk => chunk.length = 8

/-- A frame with one more temporary in its last chunk. -/
def RcFrame.push (frame : RcFrame) (value : ℕ) : RcFrame :=
  { frame with
    chunks := frame.chunks.dropLast ++ [frame.chunks.getLastD [] ++ [value]]
    temporaryCount := frame.temporaryCount + 1 }

/-- Keeps an owner until the end of the step. -/
def minyarRcKeep (c : RcConfig) (s : RcState) (value : ℕ) : RcState :=
  if value = 0 then s
  else match s.objects.heap value with
    | none => s.fail
    | some object =>
      if object.owners = 0 then s
      else match s.frames with
        | [] => s.fail
        | frame :: _ =>
          let s := if frame.chunkFull then
              (rcServicePending c s c.pollBudget).mapFrame fun frame =>
                { frame with chunks := frame.chunks ++ [[]] }
            else s
          rcServicePending c (s.mapFrame fun frame => frame.push value) c.pollBudget

/-- Stores an owner in a local and releases the previous one. -/
def minyarRcLocalTake (c : RcConfig) (s : RcState) (index value : ℕ) : RcState :=
  match s.frames with
  | [] => s.fail
  | frame :: frames =>
    match frame.locals[index]? with
    | none => s.fail
    | some previous =>
      minyarRcRelease c { s with frames := { frame with
        indices := if previous.2 = false ∧ value ≠ 0 then frame.indices ++ [index]
          else frame.indices
        locals := if value ≠ 0 ∨ previous.2 = true then frame.locals.set index (value, true)
          else frame.locals } :: frames } previous.1

/-- Hands the owner in a local to the program. -/
def minyarRcLocalMove (s : RcState) (index : ℕ) : RcState :=
  match s.frames with
  | [] => s.fail
  | frame :: frames =>
    match frame.locals[index]? with
    | none => s.fail
    | some previous =>
      { s with frames := { frame with locals := frame.locals.set index (0, previous.2) } :: frames }

/-- Stores a new owner in a local. -/
def minyarRcLocal (c : RcConfig) (s : RcState) (index value : ℕ) : Except String RcState := do
  let s ← minyarRcRetain s value
  return minyarRcLocalTake c s index value

/-- Keeps a new owner until the end of the step. -/
def minyarRcBorrow (c : RcConfig) (s : RcState) (value : ℕ) : Except String RcState := do
  let s ← minyarRcRetain s value
  return minyarRcKeep c s value

/-- Detaches the temporaries of the innermost frame. -/
def minyarRcStep (c : RcConfig) (s : RcState) : RcState :=
  match s.frames with
  | [] => s.fail
  | frame :: frames =>
    (minyarRcPoll c (rcBoundedRetireTemporaries { s with frames := frame.retired :: frames } frame)
      c.pollBudget).2

/-- A new frame in the storage of the caller, when it is small enough. -/
def minyarRcEnterStack (c : RcConfig) (s : RcState) (header : ℕ) (locals : ℤ) :
    Except String RcState :=
  if 0 < locals ∧ locals ≤ 8 ∧ locals < c.pollBudget then
    let s := (minyarRcPoll c s c.pollBudget).2
    .ok { s with frames := {
      header := some header
      locals := List.replicate locals.toNat (0, false)
      localCount := locals.toNat
      localCapacity := locals.toNat } :: s.frames }
  else minyarRcEnter c s locals

/-- Drops the owners in the first written slots, the last one first. -/
def rcDropWritten (frame : RcFrame) : ℕ → RcObjects → RcObjects
  | 0, s => s
  | written + 1, s =>
    rcDropWritten frame written (rcDrop s (rcBoundedPendingLocalValue frame written)).2

/-- Gives up the owners of a frame in the storage of the caller, or detaches the frame. -/
def minyarRcLeaveStack (c : RcConfig) (s : RcState) (header : ℕ) : RcState :=
  match s.frames with
  | [] => s.fail
  | frame :: frames =>
    if frame.header = some header then
      let s := rcBoundedRetireTemporaries { s with frames := frames } frame
      (minyarRcPoll c
        { s with objects := rcDropWritten frame frame.indices.length s.objects }
        (c.pollBudget - frame.indices.length)).2
    else minyarRcLeave c s

/-! ## One operation -/

/-- The result of an operation that returns no value. -/
def rcVoid (s : RcState) : Except String (ℕ × RcState) := .ok (0, s)

/-- What an operation does. -/
def RcOp.run (c : RcConfig) (s : RcState) : RcOp → Except String (ℕ × RcState)
  | literal bytes => .ok (literalText s bytes)
  | newText bytes => .ok (copyText c s bytes)
  | textSlice text first last => minyarTextSlice c s text first last
  | allocateData => rcVoid (rcAllocateData c s)
  | listNew => .ok (minyarListNew c s)
  | listReferences list => rcVoid (minyarListReferences s list)
  | listAdd list value => minyarListAdd c s list value >>= rcVoid
  | listAddTake list value => minyarListAddTake c s list value >>= rcVoid
  | listSet list position value => minyarListSet c s list position value >>= rcVoid
  | listSetTake list position value => minyarListSetTake c s list position value >>= rcVoid
  | listAppended list value references takeValue =>
      minyarListAppended c s list value references takeValue
  | recordNew fieldCount => recordAllocate c s fieldCount true
  | recordNewScalar fieldCount => recordAllocate c s fieldCount false
  | recordSetScalar record field value => minyarRecordSetScalar s record field value >>= rcVoid
  | recordSet record field value => minyarRecordSet c s record field value >>= rcVoid
  | recordSetTake record field value => minyarRecordSetTake c s record field value >>= rcVoid
  | recordSetReference record field value =>
      minyarRecordSetReference c s record field value >>= rcVoid
  | retain value => minyarRcRetain s value >>= rcVoid
  | release value => rcVoid (minyarRcRelease c s value)
  | keep value => rcVoid (minyarRcKeep c s value)
  | borrow value => minyarRcBorrow c s value >>= rcVoid
  | setLocal index value => minyarRcLocal c s index value >>= rcVoid
  | localTake index value => rcVoid (minyarRcLocalTake c s index value)
  | localMove index => rcVoid (minyarRcLocalMove s index)
  | enter locals => minyarRcEnter c s locals >>= rcVoid
  | leave => rcVoid (minyarRcLeave c s)
  | step => rcVoid (minyarRcStep c s)
  | enterStack header locals => minyarRcEnterStack c s header locals >>= rcVoid
  | leaveStack header => rcVoid (minyarRcLeaveStack c s header)
  | poll budget => rcVoid (minyarRcPoll c s budget).2

end Minyar

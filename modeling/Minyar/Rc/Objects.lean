import Mathlib.Data.Nat.Bitwise

/-!
# Reference-counted objects and their deferred destruction

The bounded runtime counts the owners of every object in its header and destroys an object in
small units of work.  A dead object reuses its header as the link to the next dead object and its
payload as the cursor of the destruction: a List the capacity, a record the upper seven bits of
its map bytes.  Dead objects wait in the stack of recent ones or in the oldest batch, and one
object of the batch may be active.

The definitions follow the C functions of the same names.  An object is named by the number of its
allocation, `0` is the null pointer, and `fault` records an access to an object that is not
there, which in C would be undefined.  The loops are structural in the work left to do.
-/

namespace Minyar

/-- The kinds of objects, as the low bits of the header record them. -/
inductive RcKind where
  | text
  | list
  | references
  | record
  | scalarRecord
  | referencesImmortal
  deriving DecidableEq

/-- The number of a kind in the header. -/
def RcKind.code : RcKind → ℕ
  | text => 1
  | list => 2
  | references => 3
  | record => 4
  | scalarRecord => 5
  | referencesImmortal => 6

/-- An object.  Each kind uses the fields of its payload. -/
structure RcObject where
  /-- The kind in the header. -/
  kind : RcKind
  /-- The header above the kind: the owners of a live object, zero in an immortal one, and the
  next object of the queue in a dead one. -/
  owners : ℕ
  /-- The elements of a List or the fields of a record. -/
  values : List ℕ := []
  /-- The capacity of a List; the cursor in a dead one. -/
  capacity : ℕ := 0
  /-- The map bytes of a record: bit 0 marks a reference, the other bits hold the cursor in a dead
  record. -/
  map : List ℕ := []
  /-- The bytes of a Text. -/
  bytes : List UInt8 := []
  /-- The Text whose bytes a view shares. -/
  backing : ℕ := 0
  deriving DecidableEq

/-- The objects and the queues of dead ones. -/
structure RcObjects where
  /-- The objects by their names. -/
  heap : ℕ → Option RcObject
  /-- The name of the next object. -/
  next : ℕ
  /-- The destroyed objects, the latest first. -/
  frees : List ℕ
  /-- `rc_bounded_head`, the first object of the oldest batch. -/
  head : ℕ
  /-- `rc_bounded_tail`, its last object. -/
  tail : ℕ
  /-- `rc_bounded_active`, the object in service. -/
  active : ℕ
  /-- `rc_bounded_cursor`, its next field. -/
  cursor : ℕ
  /-- `rc_bounded_recent_head`, the top of the stack of recent objects. -/
  recentHead : ℕ
  /-- `rc_bounded_recent_tail`, the bottom of that stack. -/
  recentTail : ℕ
  /-- `rc_bounded_recent_turn`: the next object unit prefers a recent object. -/
  recentTurn : Bool
  /-- `rc_pending_count`. -/
  pending : ℕ
  /-- An object that is not there was accessed. -/
  fault : Bool

/-- The objects before any allocation. -/
def RcObjects.empty : RcObjects where
  heap := fun _ => none
  next := 1
  frees := []
  head := 0
  tail := 0
  active := 0
  cursor := 0
  recentHead := 0
  recentTail := 0
  recentTurn := false
  pending := 0
  fault := false

/-- An access to an object that is not there. -/
def RcObjects.fail (s : RcObjects) : RcObjects := { s with fault := true }

/-- The objects after one is written. -/
def RcObjects.write (s : RcObjects) (r : ℕ) (o : RcObject) : RcObjects :=
  { s with heap := Function.update s.heap r (some o) }

@[simp] theorem RcObjects.write_heap_self (s : RcObjects) (r : ℕ) (o : RcObject) :
    (s.write r o).heap r = some o := Function.update_self r _ _

theorem RcObjects.write_heap_of_ne (s : RcObjects) (o : RcObject) {r r' : ℕ} (h : r' ≠ r) :
    (s.write r o).heap r' = s.heap r' := Function.update_of_ne h _ _

/-- The objects after one is returned to the allocator. -/
def RcObjects.free (s : RcObjects) (r : ℕ) : RcObjects :=
  { s with heap := Function.update s.heap r none, frees := r :: s.frees }

@[simp] theorem RcObjects.free_heap_self (s : RcObjects) (r : ℕ) : (s.free r).heap r = none :=
  Function.update_self r _ _

theorem RcObjects.free_heap_of_ne (s : RcObjects) {r r' : ℕ} (h : r' ≠ r) :
    (s.free r).heap r' = s.heap r' := Function.update_of_ne h _ _

/-! ## Cursors of dead objects -/

/-- The cursor in the map bytes from index `i` on, seven bits in each of the first ten bytes. -/
def recordCursor : List ℕ → ℕ → ℕ
  | [], _ => 0
  | byte :: map, i =>
    if i * 7 < 64 then (byte >>> 1) <<< (i * 7) % 2 ^ 64 ||| recordCursor map (i + 1) else 0

/-- The map bytes from index `i` on after a cursor is written above their reference bits. -/
def writeRecordCursor : List ℕ → ℕ → ℕ → List ℕ
  | [], _, _ => []
  | byte :: map, i, cursor =>
    if i * 7 < 64 then
      ((byte &&& 1) ||| ((cursor &&& 127) <<< 1)) :: writeRecordCursor map (i + 1) (cursor >>> 7)
    else byte :: map

/-- The saved cursor of a dead object. -/
def rcBoundedSavedCursor (object : RcObject) : ℕ :=
  if object.kind = .references then object.capacity else recordCursor object.map 0

/-- Saves the cursor of a dead object. -/
def rcBoundedSaveCursor (object : RcObject) (cursor : ℕ) : RcObject :=
  if object.kind = .references then { object with capacity := cursor }
  else { object with map := writeRecordCursor object.map 0 cursor }

/-! ## Dropping an owner -/

/-- Destroys an object and returns the backing of a Text. -/
def rcBoundedFinishObject (s : RcObjects) (r : ℕ) (object : RcObject) : ℕ × RcObjects :=
  (if object.kind = .text then object.backing else 0, s.free r)

/-- An object that is destroyed as soon as it has no owner. -/
def RcObject.isLeaf (object : RcObject) : Bool :=
  match object.kind with
  | .references => object.values.isEmpty
  | .record => object.values.isEmpty
  | _ => true

/-- Pushes a dead object on the stack of recent ones. -/
def rcBoundedPushRecent (s : RcObjects) (value : ℕ) (object : RcObject) : RcObjects :=
  { s.write value { rcBoundedSaveCursor object 0 with owners := s.recentHead } with
    recentHead := value
    recentTail := if s.recentTail = 0 then value else s.recentTail
    pending := s.pending + 1 }

/-- Drops one owner; the number of objects destroyed at once is returned.  The backing of a
destroyed Text is dropped in turn, along a chain of at most `fuel` Texts. -/
def rcDropChain : ℕ → RcObjects → ℕ → ℕ × RcObjects
  | 0, s, _ => (0, s.fail)
  | fuel + 1, s, value =>
    if value = 0 then (0, s)
    else match s.heap value with
      | none => (0, s.fail)
      | some object =>
        if object.kind = .scalarRecord ∧ object.owners = 1 then
          (1, (rcBoundedFinishObject s value object).2)
        else if object.owners = 0 then (0, s)
        else
          let object := { object with owners := object.owners - 1 }
          let s := s.write value object
          if object.owners ≠ 0 then (0, s)
          else if object.kind = .text then
            let finished := rcBoundedFinishObject s value object
            if finished.1 = 0 then (1, finished.2)
            else
              let rest := rcDropChain fuel finished.2 finished.1
              (1 + rest.1, rest.2)
          else if object.isLeaf then (1, (rcBoundedFinishObject s value object).2)
          else (0, rcBoundedPushRecent s value object)

/-- Drops one owner of a value. -/
def rcDrop (s : RcObjects) (value : ℕ) : ℕ × RcObjects := rcDropChain s.next s value

/-! ## Units of work on dead objects -/

/-- The owner in a field: the null pointer in a field that is no reference. -/
def RcObject.child (object : RcObject) (index : ℕ) : ℕ :=
  if object.kind = .record ∧ object.map.getD index 0 &&& 1 = 0 then 0
  else object.values.getD index 0

/-- Takes the first object of the oldest batch into service. -/
def rcBoundedActivate (s : RcObjects) : RcObjects :=
  match s.heap s.head with
  | none => s.fail
  | some object =>
    { s.write s.head { object with owners := 0 } with
      active := s.head
      head := object.owners
      tail := if object.owners = 0 then 0 else s.tail
      cursor := rcBoundedSavedCursor object }

/-- Visits the next field of the active object, or of the first object of the oldest batch, or
destroys it after its last field. -/
def rcBoundedOldObjectUnit (s : RcObjects) : RcObjects :=
  let s := if s.active = 0 then rcBoundedActivate s else s
  match s.heap s.active with
  | none => s.fail
  | some object =>
    if (object.kind = .references ∨ object.kind = .record) ∧ s.cursor < object.values.length then
      (rcDrop { s with cursor := s.cursor + 1 } (object.child s.cursor)).2
    else
      { (rcBoundedFinishObject s s.active object).2 with
        pending := s.pending - 1
        active := 0 }

/-- Visits the next field of the latest recent object, or destroys it after its last field. -/
def rcBoundedRecentObjectUnit (s : RcObjects) : RcObjects :=
  match s.heap s.recentHead with
  | none => s.fail
  | some object =>
    let cursor := rcBoundedSavedCursor object
    if cursor < object.values.length then
      (rcDrop (s.write s.recentHead (rcBoundedSaveCursor object (cursor + 1)))
        (object.child cursor)).2
    else
      { (rcBoundedFinishObject s s.recentHead object).2 with
        recentHead := object.owners
        recentTail := if object.owners = 0 then 0 else s.recentTail
        pending := s.pending - 1 }

/-- Captures the recent stack as the oldest batch. -/
def rcBoundedCapture (s : RcObjects) : RcObjects :=
  { s with head := s.recentHead, tail := s.recentTail, recentHead := 0, recentTail := 0 }

/-- The object in service is a record whose only field has been visited. -/
def rcBoundedUnaryActive (s : RcObjects) : Bool :=
  match s.heap s.active with
  | some active => decide (active.kind = .record ∧ active.values.length = 1 ∧ s.cursor = 1)
  | none => false

/-- One unit of work on the dead objects: the recent stack is captured as the new oldest batch when
the batch is exhausted, and recent and old objects take turns. -/
def rcBoundedObjectUnit (s : RcObjects) : RcObjects :=
  let s := if s.active = 0 ∧ s.head = 0 then rcBoundedCapture s else s
  let recent := s.recentTurn
  let s := { s with recentTurn := !s.recentTurn }
  if recent = true ∧ s.recentHead ≠ 0 then
    -- A sole captured unary parent is finished before its recent child.
    if s.head = 0 ∧ s.active ≠ 0 ∧ rcBoundedUnaryActive s = true then rcBoundedOldObjectUnit s
    else rcBoundedRecentObjectUnit s
  else rcBoundedOldObjectUnit s

end Minyar

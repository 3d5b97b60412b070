import Minyar.Rc.Ownership

/-!
# The ownership protocol

What a program may do with the runtime, independent of when objects are destroyed.  An `RcLedger`
records the contents of every object ever allocated, the owners in the frames and the owners that
the program holds; it never destroys anything.  `RcOp` are the operations of the runtime that
generated code calls, `RcOp.Legal` is the ownership protocol and `RcOp.effect` is what an operation
means.

A program may use a value that is null, immortal or reached from an owner, and it may give away the
owners that it holds.
-/

namespace Minyar

/-! ## Contents -/

/-- The contents of an object that programs can observe. -/
inductive RcContents
  /-- A Text, the Text that owns its bytes when it is a view, and whether it is immortal. -/
  | text (bytes : List UInt8) (backing : ℕ) (immortal : Bool)
  /-- A List of plain values. -/
  | list (values : List ℕ)
  /-- A List of references. -/
  | references (values : List ℕ)
  /-- A record, with a mark on the fields that are references. -/
  | record (fields : List (ℕ × Bool))
  /-- A record of plain values. -/
  | scalarRecord (values : List ℕ)

/-- The contents of a List. -/
def RcContents.ofElements (references : Bool) (values : List ℕ) : RcContents :=
  if references then .references values else .list values

/-- What the contents own. -/
def RcContents.slots : RcContents → List ℕ
  | text _ backing _ => [backing]
  | list _ => []
  | references values => values
  | record fields => fields.map fun field => if field.2 then field.1 else 0
  | scalarRecord _ => []

/-- The contents of an object in the heap. -/
def RcObject.contents (o : RcObject) : RcContents :=
  match o.kind with
  | .text => .text o.bytes o.backing (decide (o.owners = 0))
  | .list => .list o.values
  | .references => .references o.values
  | .referencesImmortal => .references o.values
  | .record => .record (o.values.zip (o.map.map fun flag => decide (flag &&& 1 = 1)))
  | .scalarRecord => .scalarRecord o.values

theorem RcObject.contents_of_list {o : RcObject} (h : o.kind = .list) :
    o.contents = .list o.values := by
  unfold RcObject.contents
  rw [h]

theorem RcObject.contents_of_references {o : RcObject}
    (h : o.kind = .references ∨ o.kind = .referencesImmortal) :
    o.contents = .references o.values := by
  unfold RcObject.contents
  rcases h with h | h <;> rw [h]

/-- The objects and their contents own the same. -/
theorem RcObject.contents_slots {o : RcObject}
    (hmap : o.kind = .record → o.map.length = o.values.length) : o.contents.slots = o.slots := by
  rcases hkind : o.kind with _ | _ | _ | _ | _ | _
  · simp [RcObject.contents, RcContents.slots, RcObject.slots, hkind]
  · simp [RcObject.contents, RcContents.slots, RcObject.slots, hkind]
  · rw [RcObject.slots_of_references (Or.inl hkind)]
    simp [RcObject.contents, RcContents.slots, hkind]
  · have hlength := hmap hkind
    unfold RcObject.contents RcContents.slots RcObject.slots
    simp only [hkind]
    refine List.ext_getElem (by simp [hlength]) fun i h1 h2 => ?_
    have hi : i < o.values.length := by simpa using h2
    have hi' : i < o.map.length := by omega
    rcases Nat.mod_two_eq_zero_or_one o.map[i] with h | h <;>
      simp [RcObject.child, hkind, List.getElem?_eq_getElem hi, List.getElem?_eq_getElem hi', h]
  · simp [RcObject.contents, RcContents.slots, RcObject.slots, hkind]
  · rw [RcObject.slots_of_references (Or.inr hkind)]
    simp [RcObject.contents, RcContents.slots, hkind]

/-! ## The ledger -/

/-- The owners of an activation. -/
structure RcLedgerFrame where
  /-- The header that the program has offered for the frame. -/
  header : Option ℕ
  /-- The owners in the locals. -/
  locals : List ℕ
  /-- The temporaries, the oldest first. -/
  temporaries : List ℕ

/-- The objects and their owners as the program sees them. -/
structure RcLedger where
  /-- The contents of all objects allocated so far. -/
  heap : ℕ → Option RcContents
  /-- The name of the next object. -/
  next : ℕ
  /-- The active frames, the innermost first. -/
  frames : List RcLedgerFrame
  /-- The owners that the program holds. -/
  held : Multiset ℕ

/-- Before the program starts. -/
def RcLedger.initial : RcLedger where
  heap := fun _ => none
  next := 1
  frames := []
  held := 0

namespace RcLedger

/-- All owners outside the objects. -/
def owners (L : RcLedger) : Multiset ℕ :=
  ((L.frames.flatMap fun f => f.locals ++ f.temporaries : List ℕ) : Multiset ℕ) + L.held

/-- The values that the owners reach. -/
inductive Reaches (L : RcLedger) : ℕ → Prop
  | owner {v : ℕ} (hv : v ∈ L.owners) (h0 : v ≠ 0) : Reaches L v
  | slot {r v : ℕ} {x : RcContents} (hr : Reaches L r) (hx : L.heap r = some x) (hv : v ∈ x.slots)
      (h0 : v ≠ 0) : Reaches L v

/-- The immortal Texts. -/
def Immortal (L : RcLedger) (v : ℕ) : Prop :=
  ∃ bytes backing, L.heap v = some (.text bytes backing true)

/-- The values that a program may use. -/
def Usable (L : RcLedger) (v : ℕ) : Prop := v = 0 ∨ L.Immortal v ∨ L.Reaches v

/-- A value that the program holds. -/
theorem Usable.of_held {L : RcLedger} {v : ℕ} (hv : v ∈ L.held) (h0 : v ≠ 0) : L.Usable v :=
  Or.inr (Or.inr (.owner (Multiset.mem_add.mpr (Or.inr hv)) h0))

/-- A set of values that sustain one another: each is immortal or has an owner outside the objects or
in an object of the set. -/
def Sustained (L : RcLedger) (K : Set ℕ) : Prop :=
  ∀ v ∈ K, v ≠ 0 ∧
    (L.Immortal v ∨ v ∈ L.owners ∨ ∃ w ∈ K, ∃ x, L.heap w = some x ∧ v ∈ x.slots)

/-- The values that are never destroyed while the program does nothing. -/
def Kept (L : RcLedger) (v : ℕ) : Prop := ∃ K, L.Sustained K ∧ v ∈ K

/-- The values whose owner a program may give away. -/
def Owned (L : RcLedger) (v : ℕ) : Prop := v = 0 ∨ L.Immortal v ∨ v ∈ L.held

/-- A new object with one owner. -/
def allocate (L : RcLedger) (x : RcContents) : ℕ × RcLedger :=
  (L.next, { L with
    heap := Function.update L.heap L.next (some x)
    next := L.next + 1
    held := L.next ::ₘ L.held })

/-- New contents of an object. -/
def write (L : RcLedger) (r : ℕ) (x : RcContents) : RcLedger :=
  { L with heap := Function.update L.heap r (some x) }

/-- One more owner in the hands of the program. -/
def give (L : RcLedger) (v : ℕ) : RcLedger := { L with held := v ::ₘ L.held }

/-- An owner that the program gives away. -/
def take (L : RcLedger) (v : ℕ) : RcLedger := { L with held := L.held.erase v }

/-- A change of the innermost frame. -/
def mapFrame (L : RcLedger) (f : RcLedgerFrame → RcLedgerFrame) : RcLedger :=
  { L with frames := match L.frames with
    | [] => []
    | frame :: frames => f frame :: frames }

/-- The number of bytes of a Text. -/
def textLength (L : RcLedger) (v : ℕ) : ℕ :=
  match L.heap v with
  | some (.text bytes _ _) => bytes.length
  | _ => 0

/-- The Text of some bytes of a Text: itself, a copy or a view. -/
def sliceText (L : RcLedger) (text first last : ℕ) : ℕ × RcLedger :=
  match L.heap text with
  | some (.text bytes backing _) =>
    let root := if backing ≠ 0 then backing else text
    let length := last - first
    if first = 0 ∧ length = bytes.length then (text, L.give text)
    else if 4096 < L.textLength root ∧ length * 8 < L.textLength root then
      L.allocate (.text ((bytes.drop first).take length) 0 false)
    else L.allocate (.text ((bytes.drop first).take length) root false)
  | _ => (0, L)

/-- A List after a value is added to it. -/
def addToList (L : RcLedger) (list value : ℕ) : RcLedger :=
  match L.heap list with
  | some (.list values) => L.write list (.list (values ++ [value]))
  | some (.references values) => L.write list (.references (values ++ [value]))
  | _ => L

/-- A List after one of its elements is replaced. -/
def setInList (L : RcLedger) (list position value : ℕ) : RcLedger :=
  match L.heap list with
  | some (.list values) => L.write list (.list (values.set position value))
  | some (.references values) => L.write list (.references (values.set position value))
  | _ => L

/-- The program gives away the owner of a value that it stores in a List of references. -/
def takeForList (L : RcLedger) (list value : ℕ) : RcLedger :=
  match L.heap list with
  | some (.references _) => L.take value
  | _ => L

/-- A record after a plain value is stored in one of its fields. -/
def setPlain (L : RcLedger) (record field value : ℕ) : RcLedger :=
  match L.heap record with
  | some (.scalarRecord values) => L.write record (.scalarRecord (values.set field value))
  | some (.record fields) => L.write record (.record (fields.set field (value, false)))
  | _ => L

/-- A record after a reference is stored in one of its fields; the program now holds the owner that
was there. -/
def setReference (L : RcLedger) (record field value : ℕ) : RcLedger :=
  match L.heap record with
  | some (.record fields) =>
    let previous := fields.getD field (0, false)
    (if previous.2 then L.give previous.1 else L).write record
      (.record (fields.set field (value, true)))
  | _ => L

/-- The innermost frame after an owner is stored in a local. -/
def setLocal (L : RcLedger) (index value : ℕ) : RcLedger :=
  L.mapFrame fun frame => { frame with locals := frame.locals.set index value }

/-- The value of a local of the innermost frame. -/
def getLocal (L : RcLedger) (index : ℕ) : ℕ :=
  match L.frames with
  | [] => 0
  | frame :: _ => frame.locals.getD index 0

/-- Only owners of mortal objects are kept as temporaries. -/
def mortal (L : RcLedger) (v : ℕ) : Bool :=
  v ≠ 0 && match L.heap v with
    | some (.text _ _ immortal) => !immortal
    | _ => true

/-- The innermost frame after an owner is kept as a temporary. -/
def keep (L : RcLedger) (v : ℕ) : RcLedger :=
  if L.mortal v then L.mapFrame fun frame => { frame with temporaries := frame.temporaries ++ [v] }
  else L

/-- A List that may hold the values of another one. -/
def elements (L : RcLedger) (list : ℕ) : List ℕ :=
  match L.heap list with
  | some (.list values) => values
  | some (.references values) => values
  | _ => []

end RcLedger

/-! ## The operations -/

/-- The operations of the runtime. -/
inductive RcOp
  | literal (bytes : List UInt8)
  | newText (bytes : List UInt8)
  | textSlice (text first last : ℕ)
  | allocateData
  | listNew
  | listReferences (list : ℕ)
  | listAdd (list value : ℕ)
  | listAddTake (list value : ℕ)
  | listSet (list : ℕ) (position : ℤ) (value : ℕ)
  | listSetTake (list : ℕ) (position : ℤ) (value : ℕ)
  | listAppended (list value : ℕ) (references takeValue : Bool)
  | recordNew (fieldCount : ℤ)
  | recordNewScalar (fieldCount : ℤ)
  | recordSetScalar (record : ℕ) (field : ℤ) (value : ℕ)
  | recordSet (record : ℕ) (field : ℤ) (value : ℕ)
  | recordSetTake (record : ℕ) (field : ℤ) (value : ℕ)
  | recordSetReference (record : ℕ) (field : ℤ) (value : ℕ)
  | retain (value : ℕ)
  | release (value : ℕ)
  | keep (value : ℕ)
  | borrow (value : ℕ)
  | setLocal (index value : ℕ)
  | localTake (index value : ℕ)
  | localMove (index : ℕ)
  | enter (locals : ℤ)
  | leave
  | step
  | enterStack (header : ℕ) (locals : ℤ)
  | leaveStack (header : ℕ)
  | poll (budget : ℕ)

namespace RcLedger

/-- A List that may be given the value: any value in a List of plain values, and in a List of
references one that the program may use in this way. -/
def ListTakes (L : RcLedger) (list : ℕ) (allowed : Prop) : Prop :=
  (∃ values, L.heap list = some (.list values)) ∨
    ((∃ values, L.heap list = some (.references values)) ∧ allowed)

/-- A field that holds no reference. -/
def PlainField (L : RcLedger) (record : ℕ) (field : ℤ) : Prop :=
  (∃ values, L.heap record = some (.scalarRecord values)) ∨
    ∃ fields, L.heap record = some (.record fields) ∧
      ∀ x, fields[field.toNat]? = some x → x.2 = false

end RcLedger

/-- The ownership protocol. -/
def RcOp.Legal (L : RcLedger) : RcOp → Prop
  | textSlice text first last => L.Usable text ∧ ∃ bytes backing immortal,
      L.heap text = some (.text bytes backing immortal) ∧ first ≤ last ∧ last ≤ bytes.length
  | listReferences list => L.Usable list ∧
      (L.heap list = some (.list []) ∨ ∃ values, L.heap list = some (.references values))
  | listAdd list value => L.Usable list ∧ L.ListTakes list (L.Usable value)
  | listAddTake list value => L.Usable list ∧ L.ListTakes list (L.Owned value)
  | listSet list _ value => L.Usable list ∧ L.ListTakes list (L.Usable value)
  | listSetTake list _ value => L.Usable list ∧ L.ListTakes list (L.Owned value)
  | listAppended list value references takeValue => L.Usable list ∧
      if references then
        (L.heap list = some (.list []) ∨ ∃ values, L.heap list = some (.references values)) ∧
          if takeValue then L.Owned value else L.Usable value
      else ∃ values, L.heap list = some (.list values)
  | recordSetScalar record field _ => L.Usable record ∧ L.PlainField record field
  | recordSet record field _ => L.Usable record ∧ L.PlainField record field
  | recordSetTake record _ value => L.Usable record ∧
      (∃ fields, L.heap record = some (.record fields)) ∧ L.Owned value
  | recordSetReference record _ value => L.Usable record ∧
      (∃ fields, L.heap record = some (.record fields)) ∧ L.Usable value
  | retain value => L.Usable value
  | release value => L.Owned value
  | keep value => L.frames ≠ [] ∧ L.Owned value
  | borrow value => L.frames ≠ [] ∧ L.Usable value
  | setLocal index value => (∃ frame ∈ L.frames.head?, index < frame.locals.length) ∧
      L.Usable value
  | localTake index value => (∃ frame ∈ L.frames.head?, index < frame.locals.length) ∧
      L.Owned value
  | localMove index => ∃ frame ∈ L.frames.head?, index < frame.locals.length
  | leave => ∃ frame ∈ L.frames.head?, frame.header = none
  | step => L.frames ≠ []
  | leaveStack header => ∃ frame ∈ L.frames.head?, frame.header = some header
  | _ => True

/-- What an operation does to the ledger, and the value that it returns. -/
def RcOp.effect (L : RcLedger) : RcOp → ℕ × RcLedger
  | literal bytes => (L.next, { L with
      heap := Function.update L.heap L.next (some (.text bytes 0 true))
      next := L.next + 1 })
  | newText bytes => L.allocate (.text bytes 0 false)
  | textSlice text first last => L.sliceText text first last
  | allocateData => (0, L)
  | listNew => L.allocate (.list [])
  | listReferences list => (0, L.write list (.references (L.elements list)))
  | listAdd list value => (0, L.addToList list value)
  | listAddTake list value => (0, (L.takeForList list value).addToList list value)
  | listSet list position value => (0, L.setInList list position.toNat value)
  | listSetTake list position value =>
      (0, (L.takeForList list value).setInList list position.toNat value)
  | listAppended list value references takeValue =>
      (if references ∧ takeValue then L.take value else L).allocate
        (.ofElements references (L.elements list ++ [value]))
  | recordNew fieldCount => L.allocate (.record (List.replicate fieldCount.toNat (0, false)))
  | recordNewScalar fieldCount => L.allocate (.scalarRecord (List.replicate fieldCount.toNat 0))
  | recordSetScalar record field value => (0, L.setPlain record field.toNat value)
  | recordSet record field value => (0, L.setPlain record field.toNat value)
  | recordSetTake record field value => (0, (L.take value).setReference record field.toNat value)
  | recordSetReference record field value => (0, L.setReference record field.toNat value)
  | retain value => (0, L.give value)
  | release value => (0, L.take value)
  | keep value => (0, (L.take value).keep value)
  | borrow value => (0, L.keep value)
  | setLocal index value => (0, L.setLocal index value)
  | localTake index value => (0, (L.take value).setLocal index value)
  | localMove index => (0, (L.give (L.getLocal index)).setLocal index 0)
  | enter locals => (0, { L with
      frames := ⟨none, List.replicate locals.toNat 0, []⟩ :: L.frames })
  | leave => (0, { L with frames := L.frames.tail })
  | step => (0, L.mapFrame fun frame => { frame with temporaries := [] })
  | enterStack header locals => (0, { L with
      frames := ⟨some header, List.replicate locals.toNat 0, []⟩ :: L.frames })
  | leaveStack _ => (0, { L with frames := L.frames.tail })
  | poll _ => (0, L)

end Minyar

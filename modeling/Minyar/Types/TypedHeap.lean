import Minyar.Library.Acyclic
import Minyar.Types.ListMutation

/-!
# Typed heaps and the absence of ownership cycles

The heap of a running program consists of records and Lists.  A record or a List literal is built
field by field from completed values and becomes a value itself only when its construction is
finished; `appended` builds a fresh List; `add` and indexed replacement change a completed List in
place, and the compiler emits them only for List codes that `checkListMutation` accepted.

All checks of the compiler are about type codes, so objects carry the code that their literal has.
`heapStep` is one operation, `Reachable` the heaps that any sequence of operations leads to, and
`ownership_acyclic` the first-cycle argument: an edge inserted into an existing List could close a
cycle only along a heap path whose codes form a path of codes that the check rules out.  It needs
that no record is built whose code runs into the codes of Lists.
-/

namespace Minyar

open Relation

/-- A field or element value.  Scalars and Texts own no record or List. -/
inductive HeapValue where
  | atom
  | ref (object : ℕ)
  deriving DecidableEq, Repr

/-- What an object of the heap is. -/
inductive HeapKind where
  /-- A record, by its symbol index. -/
  | record (index : ℕ)
  /-- A List, with the code of its type. -/
  | list (code : ℕ)
  deriving DecidableEq, Repr

/-- The code of the literal that built the object. -/
def HeapKind.code : HeapKind → ℕ
  | .record r => 1000 + r
  | .list code => code

/-- A record or List in the heap.  An unset field of a record under construction is `none`. -/
structure HeapObject where
  /-- A record or a List. -/
  kind : HeapKind
  /-- The fields of the record or the elements of the List. -/
  slots : List (Option HeapValue)
  /-- Construction is finished, so the object is a value of the program. -/
  complete : Bool
  deriving DecidableEq, Repr

/-- The heap, every object at its allocation index. -/
abbrev TypedHeap := List HeapObject

/-- The operations of a program on records and Lists.  Those on a List have the code that the receiver
has where it is used. -/
inductive HeapOp where
  /-- Start `Name { … }`. -/
  | beginRecord (record : ℕ)
  /-- Store an initializer of a record under construction. -/
  | initField (object field : ℕ) (value : HeapValue)
  /-- Start `[…]` with elements of the given type, if it has one: an empty List gets it from the `let`
  that it is bound by. -/
  | beginList (element : Option MinType)
  /-- Store the next element of a List literal under construction. -/
  | initElement (object : ℕ) (value : HeapValue)
  /-- Finish a construction. -/
  | finish (object : ℕ)
  /-- `list.appended(value)`. -/
  | appended (list type : ℕ) (value : HeapValue)
  /-- `list.add(value)`. -/
  | add (list type : ℕ) (value : HeapValue)
  /-- `list[position] = value`. -/
  | set (list type position : ℕ) (value : HeapValue)
  deriving DecidableEq, Repr

/-- The value is a completed value that has the code where it is used, in a program with `n` records.
A `let` with a List type takes every value with the code 100000 for an empty List and gives it the code
of the List type.  Where there are more than 99000 records that is also the code of a record, and
bindings, fields and results may have it. -/
def TypedHeap.hasType (n : ℕ) (heap : TypedHeap) : HeapValue → ℕ → Bool
  | .atom, code => decide (1 ≤ code) && decide (code ≤ 4)
  | .ref r, code =>
    match heap[r]? with
    | some o => o.complete && (decide (o.kind.code = code) ||
        (decide (99000 < n) && decide (o.kind.code = 100000) && isListType code))
    | none => false

/-- The List that an operation with a receiver of the given code works on. -/
def TypedHeap.listAs (n : ℕ) (heap : TypedHeap) (list type : ℕ) : Option HeapObject :=
  match heap[list]? with
  | some o =>
    match o.kind with
    | .list _ => if heap.hasType n (.ref list) type ∧ isListType type then some o else none
    | .record _ => none
  | none => none

/-- One operation of a program with the given records whose accepted mutations are on the given codes.
The static type checks are the guards; `none` is an operation the compiler does not accept, or one
on a record that the compiler takes for a List. -/
def heapStep (table : RecordTable) (sites : List ℕ) (heap : TypedHeap) : HeapOp → Option TypedHeap
  | .beginRecord r =>
    if r < table.records.length then
      some (heap ++ [⟨.record r, List.replicate (table.counts.getD r 0) none, false⟩])
    else none
  | .initField x f v =>
    match heap[x]? with
    | some o =>
      match o.kind with
      | .record r =>
        match (fieldTypes table.counts table.fields r)[f]? with
        | some code =>
          if o.complete = false ∧ o.slots[f]? = some none ∧
              heap.hasType table.records.length v code then
            some (heap.set x { o with slots := o.slots.set f (some v) })
          else none
        | none => none
      | .list _ => none
    | none => none
  | .beginList element =>
    match element with
    | some t =>
      if t.Declared table.records.length then some (heap ++ [⟨.list (100000 + t.code), [], false⟩])
      else none
    | none => some (heap ++ [⟨.list 100000, [], false⟩])
  | .initElement x v =>
    match heap[x]? with
    | some o =>
      match o.kind with
      | .list code =>
        if o.complete = false ∧ listElementType code ≠ 100000 ∧
            heap.hasType table.records.length v (listElementType code) then
          some (heap.set x { o with slots := o.slots ++ [some v] })
        else none
      | .record _ => none
    | none => none
  | .finish x =>
    match heap[x]? with
    | some o => if none ∈ o.slots then none else some (heap.set x { o with complete := true })
    | none => none
  | .appended l type v =>
    match heap.listAs table.records.length l type with
    | some o =>
      if heap.hasType table.records.length v (listElementType type) then
        some (heap ++ [⟨.list type, o.slots ++ [some v], true⟩])
      else none
    | none => none
  | .add l type v =>
    match heap.listAs table.records.length l type with
    | some o =>
      if type ∈ sites ∧ heap.hasType table.records.length v (listElementType type) then
        some (heap.set l { o with slots := o.slots ++ [some v] })
      else none
    | none => none
  | .set l type i v =>
    match heap.listAs table.records.length l type with
    | some o =>
      if type ∈ sites ∧ i < o.slots.length ∧
          heap.hasType table.records.length v (listElementType type) then
        some (heap.set l { o with slots := o.slots.set i (some v) })
      else none
    | none => none

/-- The literals of a program with `n` records that keep the codes apart: no record has a code that
runs into those of Lists, and no List has the code 100000 where that is the code of a record. -/
def KeepsCodes (n : ℕ) : HeapOp → Prop
  | .beginRecord r => r < 99000
  | .beginList none => n ≤ 99000
  | _ => True

/-- The heaps reached by any sequence of operations that all meet a condition. -/
inductive Reachable (table : RecordTable) (sites : List ℕ) (meets : HeapOp → Prop) :
    TypedHeap → Prop
  | init : Reachable table sites meets []
  | step {heap heap' : TypedHeap} {op : HeapOp} (h : Reachable table sites meets heap)
      (hmeets : meets op) (hstep : heapStep table sites heap op = some heap') :
      Reachable table sites meets heap'

/-- Ownership: a field of a record or an element of a List refers to an object. -/
def OwnershipEdge (heap : TypedHeap) (a b : ℕ) : Prop :=
  ∃ o, heap[a]? = some o ∧ some (HeapValue.ref b) ∈ o.slots

/-! ## The invariant of typed heaps -/

/-- What literals that keep the codes apart build. -/
def HeapKind.Apart (n : ℕ) : HeapKind → Prop
  | .record r => r < n ∧ r < 99000
  | .list code => isListType code = true ∧ InTable n code ∧ (code = 100000 → n ≤ 99000)

/-- The invariant carried through every run: edges lead to completed objects along an edge of their
codes, the codes are apart, and the ownership graph is acyclic. -/
structure HeapInv (table : RecordTable) (heap : TypedHeap) : Prop where
  /-- An edge leads to a completed object whose code the code of its source contains. -/
  typed : ∀ (a : ℕ) (o : HeapObject) (b : ℕ), heap[a]? = some o → some (HeapValue.ref b) ∈ o.slots →
    ∃ o', heap[b]? = some o' ∧ o'.complete = true ∧
      CodeEdge table.counts table.fields o.kind.code o'.kind.code
  /-- Records and Lists have different codes. -/
  apart : ∀ (a : ℕ) (o : HeapObject), heap[a]? = some o → o.kind.Apart table.records.length
  /-- No object owns itself, directly or through others. -/
  acyclic : Acyclic (OwnershipEdge heap)

/-- The code of an object leads to a record of the table. -/
lemma HeapKind.Apart.inTable {n : ℕ} {kind : HeapKind} (h : kind.Apart n) : InTable n kind.code := by
  cases kind with
  | record r => exact (show (MinType.record r).Declared n from h.1).inTable
  | list code => exact h.2.1

variable {table : RecordTable} {heap : TypedHeap}

/-- A reference has the code of a completed object. -/
lemma HeapInv.exists_of_hasType (h : HeapInv table heap) {r code : ℕ}
    (hv : heap.hasType table.records.length (.ref r) code = true) :
    ∃ o, heap[r]? = some o ∧ o.complete = true ∧ o.kind.code = code := by
  rw [TypedHeap.hasType] at hv
  split at hv
  · rename_i o ho
    rw [Bool.and_eq_true, Bool.or_eq_true, decide_eq_true_iff] at hv
    obtain ⟨hcomplete, hcode | hempty⟩ := hv
    · exact ⟨o, ho, hcomplete, hcode⟩
    · -- Where the code 100000 is that of a record, no object has it.
      simp only [Bool.and_eq_true, decide_eq_true_iff] at hempty
      obtain ⟨⟨hn, hcode⟩, -⟩ := hempty
      have hapart := h.apart r o ho
      cases hkind : o.kind with
      | record r =>
        rw [hkind] at hcode hapart
        have hlt : r < 99000 := hapart.2
        have heq : 1000 + r = 100000 := hcode
        omega
      | list code =>
        rw [hkind] at hcode hapart
        exact absurd (hapart.2.2 hcode) (Nat.not_le_of_lt hn)
  · cases hv

/-- What the receiver of an operation is. -/
lemma HeapInv.of_listAs (h : HeapInv table heap) {l type : ℕ} {o : HeapObject}
    (hl : heap.listAs table.records.length l type = some o) :
    heap[l]? = some o ∧ o.kind = .list type ∧ isListType type = true := by
  rw [TypedHeap.listAs] at hl
  split at hl
  · rename_i o' ho'
    split at hl
    · rename_i code hkind
      split at hl
      · rename_i hcond
        obtain rfl := Option.some.inj hl
        obtain ⟨o₁, ho₁, -, hcode⟩ := h.exists_of_hasType hcond.1
        obtain rfl : o' = o₁ := by simpa [ho'] using ho₁
        have hsame : code = type := by
          rw [hkind] at hcode
          exact hcode
        exact ⟨ho', hsame ▸ hkind, hcond.2⟩
      · cases hl
    · cases hl
  · cases hl

/-- Along a heap path the codes form a path of codes. -/
lemma HeapInv.codeReach (h : HeapInv table heap) {a b : ℕ} {o : HeapObject}
    (ha : heap[a]? = some o) (hab : ReflTransGen (OwnershipEdge heap) a b) :
    ∃ o', heap[b]? = some o' ∧ CodeReach table.counts table.fields o.kind.code o'.kind.code := by
  induction hab with
  | refl => exact ⟨o, ha, ReflTransGen.refl⟩
  | tail _ hbc ih =>
    obtain ⟨o₁, ho₁, hreach⟩ := ih
    obtain ⟨o₂, ho₂, hmem⟩ := hbc
    obtain rfl : o₁ = o₂ := by simpa [ho₁] using ho₂
    obtain ⟨o₃, ho₃, -, hedge⟩ := h.typed _ _ _ ho₁ hmem
    exact ⟨o₃, ho₃, hreach.tail hedge⟩

/-- The edges after the slots of one object were replaced. -/
lemma ownershipEdge_set {x : ℕ} {o o' : HeapObject} (hx : heap[x]? = some o) {a b : ℕ} :
    OwnershipEdge (heap.set x o') a b ↔
      (a ≠ x ∧ OwnershipEdge heap a b) ∨ (a = x ∧ some (HeapValue.ref b) ∈ o'.slots) := by
  have hlt : x < heap.length := (List.getElem?_eq_some_iff.mp hx).1
  unfold OwnershipEdge
  rw [List.getElem?_set]
  by_cases hax : a = x
  · subst hax
    simp [hlt]
  · simp [hax, Ne.symm hax]

/-- The edges after a new object was allocated. -/
lemma ownershipEdge_append {o : HeapObject} {a b : ℕ} :
    OwnershipEdge (heap ++ [o]) a b ↔
      OwnershipEdge heap a b ∨ (a = heap.length ∧ some (HeapValue.ref b) ∈ o.slots) := by
  unfold OwnershipEdge
  rw [List.getElem?_append]
  by_cases ha : a < heap.length
  · have hne : a ≠ heap.length := by omega
    simp [ha, hne]
  · by_cases hae : a = heap.length
    · subst hae
      simp
    · have hle : heap.length + 1 ≤ a := by omega
      simp [ha, hae, show ¬ a - heap.length = 0 by omega]

/-- Allocating an object keeps the invariant: nothing can point to it yet. -/
lemma HeapInv.append (h : HeapInv table heap) {o : HeapObject}
    (hapart : o.kind.Apart table.records.length)
    (htyped : ∀ b, some (HeapValue.ref b) ∈ o.slots → ∃ o', heap[b]? = some o' ∧
      o'.complete = true ∧ CodeEdge table.counts table.fields o.kind.code o'.kind.code) :
    HeapInv table (heap ++ [o]) := by
  have hold : ∀ {b : ℕ} {o' : HeapObject}, heap[b]? = some o' → (heap ++ [o])[b]? = some o' :=
    fun hb => List.getElem?_append_left (List.getElem?_eq_some_iff.mp hb).1 ▸ hb
  have hcases : ∀ {a : ℕ} {o₁ : HeapObject}, (heap ++ [o])[a]? = some o₁ →
      heap[a]? = some o₁ ∨ o₁ = o := by
    intro a o₁ ha
    rw [List.getElem?_append] at ha
    split at ha
    · exact Or.inl ha
    · exact Or.inr (List.mem_singleton.mp (List.mem_of_getElem? ha))
  have hedges : ∀ b, some (HeapValue.ref b) ∈ o.slots → b < heap.length := by
    intro b hb
    obtain ⟨o', ho', -⟩ := htyped b hb
    exact (List.getElem?_eq_some_iff.mp ho').1
  refine ⟨?_, ?_, ?_⟩
  · intro a o₁ b ha hb
    rcases hcases ha with ha | rfl
    · obtain ⟨o', ho', hrest⟩ := h.typed a o₁ b ha hb
      exact ⟨o', hold ho', hrest⟩
    · obtain ⟨o', ho', hrest⟩ := htyped b hb
      exact ⟨o', hold ho', hrest⟩
  · intro a o₁ ha
    rcases hcases ha with ha | rfl
    · exact h.apart a o₁ ha
    · exact hapart
  · refine @Acyclic.of_source _ _ _ h.acyclic heap.length (fun a b hab => ?_) fun u hu => ?_
    · exact (ownershipEdge_append.mp hab).imp_right fun h => h.1
    · rcases ownershipEdge_append.mp hu with ⟨o₁, ho₁, hm⟩ | ⟨-, hm⟩
      · obtain ⟨o', ho', -⟩ := h.typed _ _ _ ho₁ hm
        exact lt_irrefl _ (List.getElem?_eq_some_iff.mp ho').1
      · exact lt_irrefl _ (hedges _ hm)

/-- Editing the slots of one object keeps typing: the code is unchanged, completion is not withdrawn,
and every new edge is typed. -/
lemma HeapInv.typed_set (h : HeapInv table heap) {x : ℕ} {o o' : HeapObject}
    (hx : heap[x]? = some o) (hkind : o'.kind = o.kind)
    (hcomplete : o.complete = true → o'.complete = true)
    (htyped : ∀ b, some (HeapValue.ref b) ∈ o'.slots → ∃ o₁, heap[b]? = some o₁ ∧
      o₁.complete = true ∧ CodeEdge table.counts table.fields o.kind.code o₁.kind.code) :
    ∀ (a : ℕ) (o₁ : HeapObject) (b : ℕ), (heap.set x o')[a]? = some o₁ →
      some (HeapValue.ref b) ∈ o₁.slots → ∃ o₂, (heap.set x o')[b]? = some o₂ ∧
        o₂.complete = true ∧ CodeEdge table.counts table.fields o₁.kind.code o₂.kind.code := by
  have hlt : x < heap.length := (List.getElem?_eq_some_iff.mp hx).1
  -- A completed object stays completed and keeps its code.
  have hkeep : ∀ {b : ℕ} {o₁ : HeapObject}, heap[b]? = some o₁ → o₁.complete = true →
      ∃ o₂, (heap.set x o')[b]? = some o₂ ∧ o₂.complete = true ∧ o₂.kind = o₁.kind := by
    intro b o₁ hb hc
    by_cases hbx : b = x
    · subst hbx
      obtain rfl : o = o₁ := by simpa [hx] using hb
      exact ⟨o', by simp [hlt], hcomplete hc, hkind⟩
    · exact ⟨o₁, by rw [List.getElem?_set_ne (Ne.symm hbx)]; exact hb, hc, rfl⟩
  intro a o₁ b ha hb
  by_cases hax : a = x
  · subst hax
    obtain rfl : o' = o₁ := by simpa [hlt] using ha
    obtain ⟨o₂, ho₂, hc, hedge⟩ := htyped b hb
    obtain ⟨o₃, ho₃, hc', hk⟩ := hkeep ho₂ hc
    exact ⟨o₃, ho₃, hc', by rw [hk, hkind]; exact hedge⟩
  · rw [List.getElem?_set_ne (Ne.symm hax)] at ha
    obtain ⟨o₂, ho₂, hc, hedge⟩ := h.typed a o₁ b ha hb
    obtain ⟨o₃, ho₃, hc', hk⟩ := hkeep ho₂ hc
    exact ⟨o₃, ho₃, hc', by rw [hk]; exact hedge⟩

/-- Editing one object without changing what it is keeps the codes apart. -/
lemma HeapInv.apart_set (h : HeapInv table heap) {x : ℕ} {o o' : HeapObject}
    (hx : heap[x]? = some o) (hkind : o'.kind = o.kind) :
    ∀ (a : ℕ) (o₁ : HeapObject), (heap.set x o')[a]? = some o₁ →
      o₁.kind.Apart table.records.length := by
  intro a o₁ ha
  rw [List.getElem?_set] at ha
  split at ha
  · split at ha
    · obtain rfl : o' = o₁ := by simpa using ha
      exact hkind ▸ h.apart x o hx
    · cases ha
  · exact h.apart a o₁ ha

/-- The edges of an object whose slots are old slots or one value of a code that its code contains. -/
lemma HeapInv.typed_slots (h : HeapInv table heap) {x code : ℕ} {o : HeapObject} {v : HeapValue}
    {slots : List (Option HeapValue)} (hx : heap[x]? = some o)
    (hv : heap.hasType table.records.length v code = true)
    (hedge : CodeEdge table.counts table.fields o.kind.code code)
    (hslots : ∀ w ∈ slots, w ∈ o.slots ∨ w = some v) :
    ∀ b, some (HeapValue.ref b) ∈ slots → ∃ o₁, heap[b]? = some o₁ ∧ o₁.complete = true ∧
      CodeEdge table.counts table.fields o.kind.code o₁.kind.code := by
  intro b hb
  rcases hslots _ hb with hb | hb
  · exact h.typed x o b hx hb
  · obtain rfl : v = .ref b := by simpa using hb.symm
    obtain ⟨o₁, ho₁, hc, rfl⟩ := h.exists_of_hasType hv
    exact ⟨o₁, ho₁, hc, hedge⟩

/-- Storing into an object under construction keeps the invariant: nothing points to it. -/
lemma HeapInv.init (h : HeapInv table heap) {x code : ℕ} {o : HeapObject} {v : HeapValue}
    {slots : List (Option HeapValue)} (hx : heap[x]? = some o) (hincomplete : o.complete = false)
    (hv : heap.hasType table.records.length v code = true)
    (hedge : CodeEdge table.counts table.fields o.kind.code code)
    (hslots : ∀ w ∈ slots, w ∈ o.slots ∨ w = some v) :
    HeapInv table (heap.set x { o with slots := slots }) := by
  have htyped := h.typed_slots hx hv hedge hslots
  refine ⟨h.typed_set hx rfl (fun hc => hc) htyped, h.apart_set hx rfl, ?_⟩
  have hnot : ∀ {o₁ : HeapObject}, heap[x]? = some o₁ → o₁.complete ≠ true := by
    intro o₁ ho₁
    obtain rfl : o = o₁ := by simpa [hx] using ho₁
    simp [hincomplete]
  refine @Acyclic.of_source _ _ _ h.acyclic x (fun a b hab => ?_) fun u hu => ?_
  · exact ((ownershipEdge_set hx).mp hab).imp (fun h => h.2) fun h => h.1
  · rcases (ownershipEdge_set hx).mp hu with ⟨-, o₁, ho₁, hm⟩ | ⟨-, hm⟩
    · obtain ⟨o₂, ho₂, hc, -⟩ := h.typed _ _ _ ho₁ hm
      exact hnot ho₂ hc
    · obtain ⟨o₂, ho₂, hc, -⟩ := htyped x hm
      exact hnot ho₂ hc

/-- Storing into a completed List keeps the invariant when the code of its elements cannot lead back to
its own: a heap path from the stored value to the List would be such a path of codes. -/
lemma HeapInv.mutate (h : HeapInv table heap) {x type : ℕ} {o : HeapObject} {v : HeapValue}
    {slots : List (Option HeapValue)} (hx : heap[x]? = some o) (hkind : o.kind = .list type)
    (hlist : isListType type = true)
    (hv : heap.hasType table.records.length v (listElementType type) = true)
    (hreach : ¬ CodeReach table.counts table.fields (listElementType type) type)
    (hslots : ∀ w ∈ slots, w ∈ o.slots ∨ w = some v) :
    HeapInv table (heap.set x { o with slots := slots }) := by
  have hcode : o.kind.code = type := congrArg HeapKind.code hkind
  have hedge : CodeEdge table.counts table.fields o.kind.code (listElementType type) := by
    rw [hcode]
    exact .element hlist
  have htyped := h.typed_slots hx hv hedge hslots
  refine ⟨h.typed_set hx rfl (fun hc => hc) htyped, h.apart_set hx rfl, ?_⟩
  cases v with
  | atom =>
    refine h.acyclic.mono fun a b hab => ?_
    rcases (ownershipEdge_set hx).mp hab with ⟨-, hab⟩ | ⟨rfl, hm⟩
    · exact hab
    · exact ⟨o, hx, (hslots _ hm).resolve_right (by simp)⟩
  | ref y =>
    obtain ⟨oy, hoy, -, hcodey⟩ := h.exists_of_hasType hv
    have hback : ¬ ReflTransGen (OwnershipEdge heap) y x := by
      intro hpath
      obtain ⟨ox, hox, hpath'⟩ := h.codeReach hoy hpath
      obtain rfl : o = ox := by simpa [hx] using hox
      rw [hcodey, hcode] at hpath'
      exact hreach hpath'
    refine (h.acyclic.insert hback).mono fun a b hab => ?_
    rcases (ownershipEdge_set hx).mp hab with ⟨-, hab⟩ | ⟨rfl, hm⟩
    · exact Or.inl hab
    · rcases hslots _ hm with hm | hm
      · exact Or.inl ⟨o, hx, hm⟩
      · exact Or.inr ⟨rfl, by simpa using hm⟩

/-- Finishing a construction keeps the invariant: no edge changes. -/
lemma HeapInv.finish (h : HeapInv table heap) {x : ℕ} {o : HeapObject}
    (hx : heap[x]? = some o) : HeapInv table (heap.set x { o with complete := true }) := by
  refine ⟨h.typed_set hx rfl (fun _ => rfl) fun b hb => h.typed x o b hx hb,
    h.apart_set hx rfl, h.acyclic.mono fun a b hab => ?_⟩
  rcases (ownershipEdge_set hx).mp hab with ⟨-, hab⟩ | ⟨rfl, hm⟩
  · exact hab
  · exact ⟨o, hx, hm⟩

/-- One operation keeps the invariant when the List codes that it may mutate are not contained in the
codes of their elements and its literals keep the codes apart. -/
theorem HeapInv.step {sites : List ℕ} {heap' : TypedHeap} {op : HeapOp}
    (hsafe : ∀ code ∈ sites, isListType code = true → InTable table.records.length code →
      ¬ CodeReach table.counts table.fields (listElementType code) code)
    (h : HeapInv table heap) (hkeeps : KeepsCodes table.records.length op)
    (hstep : heapStep table sites heap op = some heap') : HeapInv table heap' := by
  cases op with
  | beginRecord r =>
    simp only [heapStep] at hstep
    split at hstep
    · rename_i hr
      obtain rfl := Option.some.inj hstep
      exact h.append ⟨hr, hkeeps⟩ fun b hb => by simp [List.mem_replicate] at hb
    · cases hstep
  | initField x f v =>
    simp only [heapStep] at hstep
    split at hstep
    · rename_i o hx
      split at hstep
      · rename_i r hkind
        split at hstep
        · rename_i code hfield
          split at hstep
          · rename_i hcond
            obtain ⟨hincomplete, -, hv⟩ := hcond
            obtain rfl := Option.some.inj hstep
            have hr : r < 99000 := by
              have hapart := h.apart x o hx
              rw [hkind] at hapart
              exact hapart.2
            have hrecord : isRecordType (1000 + r) = true := by
              simp only [isRecordType, Bool.and_eq_true, decide_eq_true_iff]
              omega
            have hedge : CodeEdge table.counts table.fields o.kind.code code := by
              rw [hkind]
              refine .field hrecord ?_
              rw [HeapKind.code, Nat.add_sub_cancel_left]
              exact List.mem_of_getElem? hfield
            exact h.init hx hincomplete hv hedge fun w hw => List.mem_or_eq_of_mem_set hw
          · cases hstep
        · cases hstep
      · cases hstep
    · cases hstep
  | beginList element =>
    simp only [heapStep] at hstep
    split at hstep
    · rename_i t
      split at hstep
      · rename_i hdecl
        obtain rfl := Option.some.inj hstep
        have htable : InTable table.records.length (MinType.list t).code :=
          MinType.Declared.inTable hdecl
        refine h.append ⟨MinType.isListType_code_list t, htable, fun hcode => ?_⟩ fun b hb => by
          simp at hb
        have hpos := t.code_pos
        omega
      · cases hstep
    · obtain rfl := Option.some.inj hstep
      exact h.append ⟨rfl, fun hrecord => absurd hrecord (by decide), fun _ => hkeeps⟩ fun b hb => by
        simp at hb
  | initElement x v =>
    simp only [heapStep] at hstep
    split at hstep
    · rename_i o hx
      split at hstep
      · rename_i code hkind
        split at hstep
        · rename_i hcond
          obtain rfl := Option.some.inj hstep
          have hlist : isListType code = true := by
            have hapart := h.apart x o hx
            rw [hkind] at hapart
            exact hapart.1
          have hedge : CodeEdge table.counts table.fields o.kind.code (listElementType code) := by
            rw [hkind]
            exact .element hlist
          exact h.init hx hcond.1 hcond.2.2 hedge fun w hw => by simpa using hw
        · cases hstep
      · cases hstep
    · cases hstep
  | finish x =>
    simp only [heapStep] at hstep
    split at hstep
    · rename_i o hx
      split at hstep
      · cases hstep
      · obtain rfl := Option.some.inj hstep
        exact h.finish hx
    · cases hstep
  | appended l type v =>
    simp only [heapStep] at hstep
    split at hstep
    · rename_i o hl
      obtain ⟨hx, hkind, hlist⟩ := h.of_listAs hl
      split at hstep
      · rename_i hv
        obtain rfl := Option.some.inj hstep
        have hedge : CodeEdge table.counts table.fields o.kind.code (listElementType type) := by
          rw [hkind]
          exact .element hlist
        have hslots := @HeapInv.typed_slots table heap h l _ o v (o.slots ++ [some v]) hx hv hedge
          fun w hw => by simpa using hw
        rw [hkind] at hslots
        exact h.append (hkind ▸ h.apart l o hx) hslots
      · cases hstep
    · cases hstep
  | add l type v =>
    simp only [heapStep] at hstep
    split at hstep
    · rename_i o hl
      obtain ⟨hx, hkind, hlist⟩ := h.of_listAs hl
      split at hstep
      · rename_i hcond
        obtain rfl := Option.some.inj hstep
        have htable := (h.apart l o hx).inTable
        rw [hkind] at htable
        exact h.mutate hx hkind hlist hcond.2 (hsafe type hcond.1 hlist htable) fun w hw => by
          simpa using hw
      · cases hstep
    · cases hstep
  | set l type i v =>
    simp only [heapStep] at hstep
    split at hstep
    · rename_i o hl
      obtain ⟨hx, hkind, hlist⟩ := h.of_listAs hl
      split at hstep
      · rename_i hcond
        obtain rfl := Option.some.inj hstep
        have htable := (h.apart l o hx).inTable
        rw [hkind] at htable
        exact h.mutate hx hkind hlist hcond.2.2 (hsafe type hcond.1 hlist htable) fun w hw =>
          List.mem_or_eq_of_mem_set hw
      · cases hstep
    · cases hstep

/-- The invariant holds of every heap that a run reaches. -/
theorem Reachable.heapInv {sites : List ℕ}
    (hsafe : ∀ code ∈ sites, isListType code = true → InTable table.records.length code →
      ¬ CodeReach table.counts table.fields (listElementType code) code)
    (h : Reachable table sites (KeepsCodes table.records.length) heap) : HeapInv table heap := by
  induction h with
  | init => exact ⟨by simp, by simp, Acyclic.of_isEmpty fun a b ⟨o, ho, _⟩ => by simp at ho⟩
  | step _ hkeeps hstep ih => exact ih.step hsafe hkeeps hstep

/-- In every run of an accepted program whose literals keep the codes of records apart from those of
Lists, the ownership graph of every heap reached is acyclic. -/
theorem ownership_acyclic (table : RecordTable) (sites : List ℕ) (cache : List ℕ)
    (haccept : checkCodes table sites [] = some cache) (heap : TypedHeap)
    (h : Reachable table sites (KeepsCodes table.records.length) heap) :
    Acyclic (OwnershipEdge heap) :=
  (h.heapInv fun _ hcode hlist htable =>
    checkCodes_sound table (fun _ hmem => by cases hmem) haccept hcode hlist htable).acyclic

/-- With at most 99000 records all literals keep the codes apart. -/
lemma Reachable.keepsCodes {sites : List ℕ} {meets : HeapOp → Prop}
    (hn : table.records.length ≤ 99000) (h : Reachable table sites meets heap) :
    Reachable table sites (KeepsCodes table.records.length) heap := by
  induction h with
  | init => exact .init
  | @step _ _ op _ _ hstep ih =>
    refine ih.step ?_ hstep
    cases op with
    | beginRecord r =>
      simp only [heapStep] at hstep
      split at hstep
      · rename_i hr
        exact lt_of_lt_of_le hr hn
      · cases hstep
    | beginList element =>
      cases element with
      | none => exact hn
      | some t => trivial
    | _ => trivial

/-- A sequence of operations from a heap. -/
def heapRun (table : RecordTable) (sites : List ℕ) : List HeapOp → TypedHeap → Option TypedHeap
  | [], heap => some heap
  | op :: ops, heap => (heapStep table sites heap op).bind (heapRun table sites ops)

/-- A run reaches its final heap. -/
lemma Reachable.run {sites : List ℕ} {ops : List HeapOp} {heap' : TypedHeap}
    (h : Reachable table sites (fun _ => True) heap)
    (hrun : heapRun table sites ops heap = some heap') :
    Reachable table sites (fun _ => True) heap' := by
  induction ops generalizing heap with
  | nil =>
    obtain rfl := Option.some.inj hrun
    exact h
  | cons op ops ih =>
    obtain ⟨heap₁, h₁, h₂⟩ := Option.bind_eq_some_iff.mp hrun
    exact ih (h.step trivial h₁) h₂

/-- The declaration `record Node { children: List<Node> }`. -/
def nodeRecords : List (List MinType) := [[.list (.record 0)]]

/-- A program with the record `Node` that mutates a `List<Integer>` and a `List<List<Integer>>`: its
heap holds an empty `List<Node>`, a `Node` that owns it, a List built by `appended`, and the mutated
Lists. -/
theorem ownership_acyclic_node :
    Acyclic (OwnershipEdge [⟨.list 101000, [], true⟩, ⟨.record 0, [some (.ref 0)], true⟩,
      ⟨.list 101000, [some (.ref 1)], true⟩, ⟨.list 100001, [some .atom], true⟩,
      ⟨.list 200001, [some (.ref 3)], true⟩]) :=
  ownership_acyclic (RecordTable.ofRecords nodeRecords (by decide)) [100001, 200001] []
    (by decide +kernel) _ (Reachable.keepsCodes (by decide) (@Reachable.run _ [] [100001, 200001]
      [.beginList (some (.record 0)), .finish 0, .beginRecord 0, .initField 1 0 (.ref 0), .finish 1,
        .appended 0 101000 (.ref 1), .beginList (some .integer), .finish 3, .add 3 100001 .atom,
        .beginList (some (.list .integer)), .finish 4, .add 4 200001 (.ref 3)] _ .init
      (by decide +kernel)))

/-! ## Record codes past the List offset -/

/-- `99001` record declarations, all empty but the last, `record Last { items: List<Last> }`. -/
def manyRecords : List (List MinType) :=
  List.replicate 99000 [] ++ [[.list (.record 99000)]]

/-- There are `99001` records. -/
lemma manyRecords_length : manyRecords.length = 99001 := by
  rw [manyRecords, List.length_append, List.length_replicate, List.length_singleton]

/-- The last record has one field of type `List<Last>`. -/
lemma manyRecords_last : manyRecords[99000]? = some [.list (.record 99000)] := by
  rw [manyRecords, List.getElem?_append_right (by rw [List.length_replicate]),
    List.length_replicate]
  rfl

/-- The tables of the program with `99001` records. -/
def manyRecordsTable : RecordTable :=
  RecordTable.ofRecords manyRecords fun fields hf t ht => by
    rw [manyRecords_length]
    rcases List.mem_append.mp hf with hf | hf
    · rw [(List.mem_replicate.mp hf).2] at ht
      simp at ht
    · rw [List.mem_singleton.mp hf] at ht
      rw [List.mem_singleton.mp ht]
      exact (by decide : (99000 : ℕ) < 99001)

/-- The field of the last record has the code of `List<Last>`. -/
lemma fieldTypes_manyRecords :
    fieldTypes manyRecordsTable.counts manyRecordsTable.fields 99000 = [200000] := by
  have hlt : 99000 < manyRecordsTable.records.length := by
    rw [show manyRecordsTable.records = manyRecords from rfl, manyRecords_length]
    decide
  have hlast : manyRecordsTable.records[99000] = [.list (.record 99000)] :=
    Option.some.inj ((List.getElem?_eq_getElem hlt).symm.trans manyRecords_last)
  rw [manyRecordsTable.fieldTypes_eq hlt, hlast]
  rfl

/-- The code of the last record is the code of a List with element code `0`, so the check of
`List<Last>` sees no record and accepts at once. -/
lemma checkCodes_manyRecords : checkCodes manyRecordsTable [200000] [] = some [] := by
  have hstrip : stripLists 200000 (listElementType 200000) = 0 := by decide +kernel
  rw [checkCodes, checkListMutation, hstrip]
  rfl

/-- The heap of the program `let items: List<Last> = []`, `items.add(Last { items: items })`. -/
def cyclicHeap : TypedHeap :=
  [⟨.list 200000, [some (.ref 1)], true⟩, ⟨.record 99000, [some (.ref 0)], true⟩]

/-- Storing the initializer of an unset field of a record under construction. -/
lemma heapStep_initField {sites : List ℕ} {x r f code : ℕ} {o : HeapObject} {v : HeapValue}
    (hx : heap[x]? = some o) (hkind : o.kind = .record r)
    (hfield : (fieldTypes table.counts table.fields r)[f]? = some code)
    (hincomplete : o.complete = false) (hunset : o.slots[f]? = some none)
    (hv : heap.hasType table.records.length v code = true) :
    heapStep table sites heap (.initField x f v) =
      some (heap.set x { o with slots := o.slots.set f (some v) }) := by
  simp [heapStep, hx, hkind, hfield, hincomplete, hunset, hv]

/-- With `99001` records an accepted program builds a List that owns a record that owns the
List. -/
theorem ownership_cyclic_manyRecords :
    checkCodes manyRecordsTable [200000] [] = some [] ∧
      Reachable manyRecordsTable [200000] (fun _ => True) cyclicHeap ∧
      ¬ Acyclic (OwnershipEdge cyclicHeap) := by
  refine ⟨checkCodes_manyRecords, ?_, fun hacyclic => ?_⟩
  · refine @Reachable.run manyRecordsTable [] [200000] [.beginList (some (.record 99000)), .finish 0,
      .beginRecord 99000, .initField 1 0 (.ref 0), .finish 1, .add 0 200000 (.ref 1)] _ .init ?_
    have hlength : manyRecordsTable.records.length = 99001 := manyRecords_length
    have hcount : manyRecordsTable.counts.getD 99000 0 = 1 := by
      have := congrArg List.length fieldTypes_manyRecords
      rwa [fieldTypes, List.length_map, List.length_range] at this
    have h₁ : heapStep manyRecordsTable [200000] [] (.beginList (some (.record 99000))) =
        some [⟨.list 200000, [], false⟩] := by
      have hdecl : MinType.Declared manyRecordsTable.records.length (.record 99000) := by
        rw [hlength]
        exact (by decide : (99000 : ℕ) < 99001)
      rw [heapStep]
      exact if_pos hdecl
    have h₂ : heapStep manyRecordsTable [200000] [⟨.list 200000, [], false⟩] (.finish 0) =
        some [⟨.list 200000, [], true⟩] := by decide +kernel
    have h₃ : heapStep manyRecordsTable [200000] [⟨.list 200000, [], true⟩]
        (.beginRecord 99000) = some [⟨.list 200000, [], true⟩, ⟨.record 99000, [none], false⟩] := by
      rw [heapStep, hlength, hcount]
      exact if_pos (by decide)
    have h₄ : heapStep manyRecordsTable [200000]
        [⟨.list 200000, [], true⟩, ⟨.record 99000, [none], false⟩] (.initField 1 0 (.ref 0)) =
        some [⟨.list 200000, [], true⟩, ⟨.record 99000, [some (.ref 0)], false⟩] := by
      refine @heapStep_initField manyRecordsTable _ _ 1 99000 0 200000
        ⟨.record 99000, [none], false⟩ (.ref 0) rfl rfl ?_ rfl rfl ?_
      · rw [fieldTypes_manyRecords]
        rfl
      · rw [hlength]
        decide +kernel
    have h₅ : heapStep manyRecordsTable [200000]
        [⟨.list 200000, [], true⟩, ⟨.record 99000, [some (.ref 0)], false⟩] (.finish 1) =
        some [⟨.list 200000, [], true⟩, ⟨.record 99000, [some (.ref 0)], true⟩] := by decide +kernel
    have h₆ : heapStep manyRecordsTable [200000]
        [⟨.list 200000, [], true⟩, ⟨.record 99000, [some (.ref 0)], true⟩]
        (.add 0 200000 (.ref 1)) = some cyclicHeap := by
      rw [heapStep, hlength]
      decide +kernel
    rw [heapRun, h₁, Option.bind_some, heapRun, h₂, Option.bind_some, heapRun, h₃,
      Option.bind_some, heapRun, h₄, Option.bind_some, heapRun, h₅, Option.bind_some, heapRun, h₆,
      Option.bind_some, heapRun]
  · have h₀ : OwnershipEdge cyclicHeap 0 1 := ⟨_, rfl, List.mem_singleton.mpr rfl⟩
    have h₁ : OwnershipEdge cyclicHeap 1 0 := ⟨_, rfl, List.mem_singleton.mpr rfl⟩
    exact hacyclic 0 ((TransGen.single h₀).tail h₁)

end Minyar

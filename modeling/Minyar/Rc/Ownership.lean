import Minyar.Library.CountedGraph
import Minyar.Rc.Cursor

/-!
# The ownership invariant of the objects

The heap of the bounded runtime is a reference-counted graph: an alive object owns its fields, a
dead one the fields from its cursor on.  `RcObjectsInv` is the invariant of the objects for the
tokens `T` that frames, temporaries and the program hold: the counts are exact, every dead object is
in exactly one of the oldest batch, the recent stack and service, and the destroyed objects are
those that are gone.  The queues themselves are ghosts: the objects only hold the links.

`RcShrink` is what the destruction may change: an object that is still alive has kept its contents.
-/

namespace Minyar

open CountedGraph

/-! ## The graph of the objects -/

/-- What an object owns, field by field. -/
def RcObject.slots (o : RcObject) : List ℕ :=
  match o.kind with
  | .text => [o.backing]
  | .list => []
  | .scalarRecord => []
  | _ => (List.range o.values.length).map o.child

/-- The node of an alive object. -/
def RcObject.node (o : RcObject) : CountedNode ℕ :=
  if o.owners = 0 then .immortal
  else if o.isLeaf then .leaf o.owners o.slots
  else .branch o.owners o.slots

/-- The members of the two queues of dead objects. -/
structure RcQueues where
  /-- The oldest batch. -/
  old : List ℕ
  /-- The recent stack, the latest first. -/
  recent : List ℕ

/-- The dead objects: the one in service and those in the queues. -/
def rcDead (active : ℕ) (q : RcQueues) : List ℕ :=
  (if active = 0 then [] else [active]) ++ (q.old ++ q.recent)

/-- The next field of a dead object. -/
def rcCursor (s : RcObjects) (r : ℕ) (o : RcObject) : ℕ :=
  if r = s.active then s.cursor else rcBoundedSavedCursor o

/-- The graph of the objects. -/
def rcView (s : RcObjects) (dead : List ℕ) : CountedGraph ℕ := fun r =>
  (s.heap r).map fun o => if r ∈ dead then .dead (o.slots.drop (rcCursor s r o)) else o.node

theorem rcView_alive {s : RcObjects} {dead : List ℕ} {r : ℕ} {o : RcObject}
    (ho : s.heap r = some o) (hr : r ∉ dead) : rcView s dead r = some o.node := by
  simp [rcView, ho, hr]

theorem rcView_dead {s : RcObjects} {dead : List ℕ} {r : ℕ} {o : RcObject}
    (ho : s.heap r = some o) (hr : r ∈ dead) :
    rcView s dead r = some (.dead (o.slots.drop (rcCursor s r o))) := by
  simp [rcView, ho, hr]

theorem rcView_none {s : RcObjects} {dead : List ℕ} {r : ℕ} (h : s.heap r = none) :
    rcView s dead r = none := by
  simp [rcView, h]

/-- Graphs that differ at one object only. -/
theorem rcView_eq_update {s s' : RcObjects} {dead dead' : List ℕ} {v : ℕ}
    (hheap : ∀ r, r ≠ v → s'.heap r = s.heap r) (hdead : ∀ r, r ≠ v → (r ∈ dead' ↔ r ∈ dead))
    (hcursor : ∀ r o, r ≠ v → r ∈ dead → rcCursor s' r o = rcCursor s r o) :
    rcView s' dead' = Function.update (rcView s dead) v (rcView s' dead' v) := by
  funext r
  by_cases hr : r = v
  · rw [hr, Function.update_self]
  · rw [Function.update_of_ne hr]
    unfold rcView
    rw [hheap r hr]
    congr 1
    funext o
    by_cases hmem : r ∈ dead
    · rw [if_pos ((hdead r hr).mpr hmem), if_pos hmem, hcursor r o hr hmem]
    · rw [if_neg (fun h => hmem ((hdead r hr).mp h)), if_neg hmem]

/-- An alive node names an alive object. -/
theorem exists_of_rcView_alive {s : RcObjects} {dead : List ℕ} {r : ℕ} {x : CountedNode ℕ}
    (hx : rcView s dead r = some x) (halive : x.Alive) :
    ∃ o, s.heap r = some o ∧ r ∉ dead ∧ x = o.node := by
  rcases ho : s.heap r with _ | o
  · rw [rcView_none ho] at hx
    cases hx
  · by_cases hr : r ∈ dead
    · rw [rcView_dead ho hr] at hx
      cases hx
      exact halive.elim
    · rw [rcView_alive ho hr] at hx
      cases hx
      exact ⟨o, rfl, hr, rfl⟩

theorem RcObject.node_alive (o : RcObject) : o.node.Alive := by
  unfold RcObject.node
  split_ifs <;> trivial

theorem RcObject.node_of_owners {o : RcObject} (h : o.owners ≠ 0) :
    o.node = if o.isLeaf then .leaf o.owners o.slots else .branch o.owners o.slots := if_neg h

theorem RcObject.node_owners {o : RcObject} (h : o.owners ≠ 0) : o.node.owners = some o.owners := by
  unfold RcObject.node
  rw [if_neg h]
  split_ifs <;> rfl

theorem RcObject.node_slots {o : RcObject} (h : o.owners ≠ 0) : o.node.slots = o.slots := by
  unfold RcObject.node
  rw [if_neg h]
  split_ifs <;> rfl

/-- What the fields of a container own. -/
theorem RcObject.slots_of_not_isLeaf {o : RcObject} (h : o.isLeaf = false) :
    o.slots = (List.range o.values.length).map o.child := by
  unfold RcObject.isLeaf at h
  unfold RcObject.slots
  split at h <;> simp_all

/-- A List of references owns its elements. -/
theorem RcObject.slots_of_references {o : RcObject}
    (h : o.kind = .references ∨ o.kind = .referencesImmortal) : o.slots = o.values := by
  have hslots : o.slots = (List.range o.values.length).map o.child := by
    unfold RcObject.slots
    rcases h with h | h <;> rw [h]
  have hkind : o.kind ≠ .record := by
    rcases h with h | h <;> simp [h]
  rw [hslots]
  refine List.ext_getElem (by simp) fun i _ hi => ?_
  simp [RcObject.child, hkind, List.getElem?_eq_getElem hi]

/-- The other leaves own nothing. -/
theorem RcObject.slots_of_isLeaf {o : RcObject} (h : o.isLeaf = true) (htext : o.kind ≠ .text)
    (himmortal : o.kind ≠ .referencesImmortal) : o.slots = [] := by
  unfold RcObject.isLeaf at h
  unfold RcObject.slots
  cases hkind : o.kind <;> simp_all

@[simp] theorem RcObject.isLeaf_with_owners (o : RcObject) (n : ℕ) :
    { o with owners := n }.isLeaf = o.isLeaf := rfl

@[simp] theorem rcBoundedSaveCursor_slots (o : RcObject) (c : ℕ) :
    (rcBoundedSaveCursor o c).slots = o.slots := by
  have hchild : (rcBoundedSaveCursor o c).child = o.child := funext (rcBoundedSaveCursor_child o c)
  unfold RcObject.slots
  rw [rcBoundedSaveCursor_kind, rcBoundedSaveCursor_values, rcBoundedSaveCursor_backing, hchild]

@[simp] theorem rcBoundedSaveCursor_isLeaf (o : RcObject) (c : ℕ) :
    (rcBoundedSaveCursor o c).isLeaf = o.isLeaf := by
  unfold RcObject.isLeaf
  rw [rcBoundedSaveCursor_kind, rcBoundedSaveCursor_values]

/-- Containers with fields are Lists of references or records. -/
theorem RcObject.kind_of_not_isLeaf {o : RcObject} (h : o.isLeaf = false) :
    o.kind = .references ∨ o.kind = .record := by
  unfold RcObject.isLeaf at h
  split at h <;> simp_all

/-! ## Queues -/

/-- The queue that starts at `head` and is linked through the headers of its objects. -/
def RcLinked (heap : ℕ → Option RcObject) : ℕ → List ℕ → Prop
  | head, [] => head = 0
  | head, r :: rs => head = r ∧ r ≠ 0 ∧ ∃ o, heap r = some o ∧ RcLinked heap o.owners rs

/-- A queue depends on the links of its objects only. -/
theorem RcLinked.congr {heap heap' : ℕ → Option RcObject} {l : List ℕ} {head : ℕ}
    (h : RcLinked heap head l)
    (hl : ∀ r ∈ l, ∀ o, heap r = some o → ∃ o', heap' r = some o' ∧ o'.owners = o.owners) :
    RcLinked heap' head l := by
  induction l generalizing head with
  | nil => exact h
  | cons r rs ih =>
    obtain ⟨hhead, hr, o, ho, hrs⟩ := h
    obtain ⟨o', ho', howners⟩ := hl r List.mem_cons_self o ho
    refine ⟨hhead, hr, o', ho', ?_⟩
    rw [howners]
    exact ih hrs fun r' hr' => hl r' (List.mem_cons_of_mem _ hr')

theorem RcLinked.eq_nil_iff {heap : ℕ → Option RcObject} {l : List ℕ} {head : ℕ}
    (h : RcLinked heap head l) : l = [] ↔ head = 0 := by
  cases l with
  | nil => exact ⟨fun _ => h, fun _ => rfl⟩
  | cons r rs =>
    obtain ⟨rfl, hr, -⟩ := h
    simp [hr]

theorem RcLinked.exists_of_mem {heap : ℕ → Option RcObject} {l : List ℕ} {head r : ℕ}
    (h : RcLinked heap head l) (hr : r ∈ l) : r ≠ 0 ∧ ∃ o, heap r = some o := by
  induction l generalizing head with
  | nil => cases hr
  | cons r' rs ih =>
    obtain ⟨-, hne, o, ho, hrs⟩ := h
    rcases List.mem_cons.mp hr with rfl | hr
    · exact ⟨hne, o, ho⟩
    · exact ih hrs hr

/-! ## Objects one by one -/

/-- What holds of one object. -/
structure RcCell (heap : ℕ → Option RcObject) (dead : List ℕ) (r : ℕ) (o : RcObject) : Prop where
  /-- A record has a map byte for every field. -/
  map_length : o.kind = .record → o.map.length = o.values.length
  /-- Lengths are machine integers. -/
  values_length : o.values.length < 2 ^ 64
  /-- The elements of an alive List fit its capacity. -/
  capacity : r ∉ dead → o.kind ≠ .record → o.kind ≠ .scalarRecord →
    o.values.length ≤ o.capacity ∧ o.capacity < 2 ^ 64
  /-- The map bytes of an alive record are flags. -/
  flags : r ∉ dead → o.kind = .record → ∀ b ∈ o.map, b < 2
  /-- Immortal objects are Texts that own their bytes. -/
  immortal : r ∉ dead → o.owners = 0 → o.kind = .text ∧ o.backing = 0
  /-- A dead object has fields. -/
  branch : r ∈ dead → o.isLeaf = false
  /-- The backing of a Text is a Text that owns its bytes. -/
  flat : o.kind = .text → ∀ b, heap o.backing = some b → b.kind = .text ∧ b.backing = 0
  /-- A List of immortal references has only immortal members. -/
  members : o.kind = .referencesImmortal →
    ∀ v ∈ o.values, ∀ t, heap v = some t → v ∉ dead ∧ t.owners = 0

/-- An object that kept its contents, up to the cursor of a dead one. -/
structure RcSame (o o' : RcObject) : Prop where
  /-- The kind stays. -/
  kind : o'.kind = o.kind
  /-- The fields stay. -/
  values : o'.values = o.values
  /-- The bytes stay. -/
  bytes : o'.bytes = o.bytes
  /-- The backing stays. -/
  backing : o'.backing = o.backing
  /-- The map keeps its length. -/
  map_length : o'.map.length = o.map.length

theorem RcSame.refl (o : RcObject) : RcSame o o := ⟨rfl, rfl, rfl, rfl, rfl⟩

theorem RcSame.trans {o o' o'' : RcObject} (h : RcSame o o') (h' : RcSame o' o'') : RcSame o o'' :=
  ⟨h'.kind.trans h.kind, h'.values.trans h.values, h'.bytes.trans h.bytes,
    h'.backing.trans h.backing, h'.map_length.trans h.map_length⟩

theorem RcSame.owners (o : RcObject) (n : ℕ) : RcSame o { o with owners := n } :=
  ⟨rfl, rfl, rfl, rfl, rfl⟩

theorem RcSame.isLeaf {o o' : RcObject} (h : RcSame o o') : o'.isLeaf = o.isLeaf := by
  unfold RcObject.isLeaf
  rw [h.kind, h.values]

theorem RcSame.saveCursor (o : RcObject) (c n : ℕ) :
    RcSame o { rcBoundedSaveCursor o c with owners := n } :=
  ⟨by simp, by simp, by simp, by simp, by simp⟩

/-- What the destruction may do to the objects. -/
structure RcShrink (heap : ℕ → Option RcObject) (dead : List ℕ) (heap' : ℕ → Option RcObject)
    (dead' : List ℕ) : Prop where
  /-- An object that is still there has kept its contents, and an alive one was alive. -/
  object : ∀ r o', heap' r = some o' → ∃ o, heap r = some o ∧ RcSame o o' ∧
    (r ∉ dead' → r ∉ dead ∧ o'.map = o.map ∧ o'.capacity = o.capacity ∧
      (o'.owners = 0 → o.owners = 0))
  /-- An immortal object is untouched. -/
  immortal : ∀ r o, heap r = some o → r ∉ dead → o.owners = 0 → heap' r = some o ∧ r ∉ dead'

theorem RcShrink.refl (heap : ℕ → Option RcObject) (dead : List ℕ) :
    RcShrink heap dead heap dead :=
  ⟨fun _ o' ho' => ⟨o', ho', RcSame.refl o', fun hr => ⟨hr, rfl, rfl, id⟩⟩,
    fun _ _ ho hr _ => ⟨ho, hr⟩⟩

theorem RcShrink.trans {heap heap' heap'' : ℕ → Option RcObject} {dead dead' dead'' : List ℕ}
    (h : RcShrink heap dead heap' dead') (h' : RcShrink heap' dead' heap'' dead'') :
    RcShrink heap dead heap'' dead'' := by
  refine ⟨fun r o'' ho'' => ?_, fun r o ho hr howners => ?_⟩
  · obtain ⟨o', ho', hsame', halive'⟩ := h'.object r o'' ho''
    obtain ⟨o, ho, hsame, halive⟩ := h.object r o' ho'
    refine ⟨o, ho, hsame.trans hsame', fun hr => ?_⟩
    obtain ⟨hr', hmap', hcap', howners'⟩ := halive' hr
    obtain ⟨hr, hmap, hcap, howners⟩ := halive hr'
    exact ⟨hr, hmap'.trans hmap, hcap'.trans hcap, fun h0 => howners (howners' h0)⟩
  · obtain ⟨ho', hr'⟩ := h.immortal r o ho hr howners
    exact h'.immortal r o ho' hr' howners

/-- Changing one object that is not immortal. -/
theorem RcShrink.update {heap : ℕ → Option RcObject} {dead dead' : List ℕ} {v : ℕ} {o : RcObject}
    {x : Option RcObject} (ho : heap v = some o) (hmortal : v ∈ dead ∨ o.owners ≠ 0)
    (hdead : ∀ r, r ≠ v → (r ∈ dead' ↔ r ∈ dead))
    (hx : ∀ o', x = some o' → RcSame o o' ∧ (v ∉ dead' → v ∉ dead ∧ o'.map = o.map ∧
      o'.capacity = o.capacity ∧ o'.owners ≠ 0)) :
    RcShrink heap dead (Function.update heap v x) dead' := by
  refine ⟨fun r o' ho' => ?_, fun r o' ho' hr howners => ?_⟩
  · by_cases hr : r = v
    · subst hr
      rw [Function.update_self] at ho'
      obtain ⟨hsame, halive⟩ := hx o' ho'
      refine ⟨o, ho, hsame, fun hr => ?_⟩
      obtain ⟨h1, h2, h3, h4⟩ := halive hr
      exact ⟨h1, h2, h3, fun h0 => absurd h0 h4⟩
    · rw [Function.update_of_ne hr] at ho'
      exact ⟨o', ho', RcSame.refl o', fun h => ⟨fun h' => h ((hdead r hr).mpr h'), rfl, rfl, id⟩⟩
  · by_cases hrv : r = v
    · subst hrv
      rw [ho] at ho'
      cases ho'
      rcases hmortal with h | h
      · exact absurd h hr
      · exact absurd howners h
    · rw [Function.update_of_ne hrv]
      exact ⟨ho', fun h => hr ((hdead r hrv).mp h)⟩

/-- The destruction keeps what holds of the objects one by one, dead objects being containers. -/
theorem RcCell.shrink {heap heap' : ℕ → Option RcObject} {dead dead' : List ℕ} {r : ℕ}
    {o' : RcObject} (h : RcShrink heap dead heap' dead') (ho' : heap' r = some o')
    (hcell : ∀ o, heap r = some o → RcCell heap dead r o) (hdead : r ∈ dead' → o'.isLeaf = false) :
    RcCell heap' dead' r o' := by
  obtain ⟨o, ho, hsame, halive⟩ := h.object r o' ho'
  have hc := hcell o ho
  refine ⟨fun hk => ?_, ?_, fun hr h1 h2 => ?_, fun hr hk => ?_, fun hr h0 => ?_, hdead,
    fun hk b hb => ?_, fun hk v hv t ht => ?_⟩
  · rw [hsame.map_length, hsame.values]
    exact hc.map_length (hsame.kind ▸ hk)
  · rw [hsame.values]
    exact hc.values_length
  · obtain ⟨hr', -, hcap, -⟩ := halive hr
    rw [hsame.values, hcap]
    exact hc.capacity hr' (hsame.kind ▸ h1) (hsame.kind ▸ h2)
  · obtain ⟨hr', hmap, -, -⟩ := halive hr
    rw [hmap]
    exact hc.flags hr' (hsame.kind ▸ hk)
  · obtain ⟨hr', -, -, howners⟩ := halive hr
    rw [hsame.kind, hsame.backing]
    exact hc.immortal hr' (howners h0)
  · rw [hsame.backing] at hb
    obtain ⟨b₀, hb₀, hsame₀, -⟩ := h.object _ b hb
    rw [hsame₀.kind, hsame₀.backing]
    exact hc.flat (hsame.kind ▸ hk) b₀ hb₀
  · rw [hsame.values] at hv
    obtain ⟨t₀, ht₀, -, -⟩ := h.object v t ht
    obtain ⟨hv₀, h0⟩ := hc.members (hsame.kind ▸ hk) v hv t₀ ht₀
    obtain ⟨ht', hv'⟩ := h.immortal v t₀ ht₀ hv₀ h0
    rw [ht] at ht'
    cases ht'
    exact ⟨hv', h0⟩

/-- The alive objects kept what they own. -/
theorem RcShrink.shrinks {s s' : RcObjects} {dead dead' : List ℕ}
    (h : RcShrink s.heap dead s'.heap dead') : Shrinks (rcView s dead) (rcView s' dead') := by
  intro v y hy halive
  obtain ⟨o', ho', hv', rfl⟩ := exists_of_rcView_alive hy halive
  obtain ⟨o, ho, hsame, hal⟩ := h.object v o' ho'
  obtain ⟨hv, hmap, -, howners⟩ := hal hv'
  refine ⟨o.node, rcView_alive ho hv, o.node_alive, ?_⟩
  have hslots : o'.slots = o.slots := by
    have hchild : o'.child = o.child := by
      funext k
      unfold RcObject.child
      rw [hsame.kind, hsame.values, hmap]
    unfold RcObject.slots
    rw [hsame.kind, hsame.values, hsame.backing, hchild]
  by_cases h0 : o.owners = 0
  · -- An immortal object is untouched.
    obtain ⟨ho'', -⟩ := h.immortal v o ho hv h0
    rw [ho'] at ho''
    cases ho''
    rfl
  · rw [RcObject.node_slots h0, RcObject.node_slots fun h' => h0 (howners h'), hslots]

/-! ## The invariant -/

/-- The invariant of the objects for the tokens `T` held outside, with `extra` tasks pending that are
not objects. -/
structure RcObjectsInv (s : RcObjects) (T : Multiset ℕ) (extra : ℕ) (q : RcQueues) : Prop where
  /-- No missing object was accessed. -/
  fault : s.fault = false
  /-- The counts are exact. -/
  counted : Counted 0 (rcView s (rcDead s.active q)) (Finset.range s.next) T
  /-- The objects one by one. -/
  cells : ∀ r o, s.heap r = some o → RcCell s.heap (rcDead s.active q) r o
  /-- A cursor is at most the number of fields. -/
  cursor : ∀ r o, s.heap r = some o → r ∈ rcDead s.active q → rcCursor s r o ≤ o.values.length
  /-- The dead objects have not been destroyed. -/
  dead : ∀ r ∈ rcDead s.active q, s.heap r ≠ none
  /-- A dead object is in one place. -/
  nodup : (rcDead s.active q).Nodup
  /-- The links of the oldest batch. -/
  old : RcLinked s.heap s.head q.old
  /-- The links of the recent stack. -/
  recent : RcLinked s.heap s.recentHead q.recent
  /-- The last object of the oldest batch. -/
  tail : s.tail = q.old.getLastD 0
  /-- The bottom of the recent stack. -/
  recentTail : s.recentTail = q.recent.getLastD 0
  /-- All tasks are counted. -/
  pending : s.pending = (rcDead s.active q).length + extra
  /-- No object is destroyed twice. -/
  frees_nodup : s.frees.Nodup
  /-- The destroyed objects are those that are gone. -/
  frees : ∀ r, r ∈ s.frees ↔ 0 < r ∧ r < s.next ∧ s.heap r = none

namespace RcObjectsInv

variable {s : RcObjects} {T T' : Multiset ℕ} {extra v : ℕ} {q : RcQueues} {o : RcObject}

/-- Before any allocation nothing is owned. -/
theorem empty : RcObjectsInv RcObjects.empty 0 0 ⟨[], []⟩ where
  fault := rfl
  counted := ⟨rfl, fun h => (by cases h), fun h => (by cases h), fun h => (by cases h),
    fun _ h => by simp [tokens, rcView, RcObjects.empty] at h⟩
  cells := fun _ _ h => by cases h
  cursor := fun _ _ h => by cases h
  dead := fun _ h => by cases h
  nodup := List.nodup_nil
  old := rfl
  recent := rfl
  tail := rfl
  recentTail := rfl
  pending := rfl
  frees_nodup := List.nodup_nil
  frees := fun r => by simp [RcObjects.empty]; omega

theorem ne_zero (h : RcObjectsInv s T extra q) (ho : s.heap v = some o) : v ≠ 0 := by
  by_cases hv : v ∈ rcDead s.active q
  · exact h.counted.ne_null (rcView_dead ho hv)
  · exact h.counted.ne_null (rcView_alive ho hv)

theorem lt_next (h : RcObjectsInv s T extra q) (ho : s.heap v = some o) : v < s.next := by
  have hmem : v ∈ Finset.range s.next := by
    by_cases hv : v ∈ rcDead s.active q
    · exact h.counted.mem_dom (rcView_dead ho hv)
    · exact h.counted.mem_dom (rcView_alive ho hv)
  exact Finset.mem_range.mp hmem

/-- A token names an alive object. -/
theorem exists_of_mem (h : RcObjectsInv s T extra q) (hv : v ∈ T) (hn : v ≠ 0) :
    ∃ o, s.heap v = some o ∧ v ∉ rcDead s.active q := by
  obtain ⟨x, hx, halive⟩ := h.counted.exists_of_mem hv hn
  obtain ⟨o, ho, hdead, -⟩ := exists_of_rcView_alive hx halive
  exact ⟨o, ho, hdead⟩

/-- The tokens matter only through their counts. -/
theorem congr_tokens (h : RcObjectsInv s T extra q)
    (hT : Counted 0 (rcView s (rcDead s.active q)) (Finset.range s.next) T') :
    RcObjectsInv s T' extra q :=
  { h with counted := hT }

/-- The dead objects stay where they are when an alive object changes. -/
theorem linked_update (h : RcObjectsInv s T extra q) (hv : v ∉ rcDead s.active q)
    (x : Option RcObject) :
    RcLinked (Function.update s.heap v x) s.head q.old ∧
      RcLinked (Function.update s.heap v x) s.recentHead q.recent := by
  have hne : ∀ r, r ∈ q.old ∨ r ∈ q.recent → r ≠ v := by
    rintro r hr rfl
    refine hv (List.mem_append_right _ (List.mem_append.mpr hr))
  refine ⟨h.old.congr fun r hr o ho => ⟨o, ?_, rfl⟩, h.recent.congr fun r hr o ho => ⟨o, ?_, rfl⟩⟩
  · rw [Function.update_of_ne (hne r (Or.inl hr)), ho]
  · rw [Function.update_of_ne (hne r (Or.inr hr)), ho]

/-- Writing an alive object that is not immortal. -/
theorem write (h : RcObjectsInv s T extra q) (ho : s.heap v = some o)
    (hv : v ∉ rcDead s.active q) {o' : RcObject} (hmortal : o.owners ≠ 0)
    (hcell : RcCell (Function.update s.heap v (some o')) (rcDead s.active q) v o')
    (htext : o.kind = .text → o'.kind = .text ∧ o'.backing = o.backing)
    (hcounted : Counted 0 (Function.update (rcView s (rcDead s.active q)) v (some o'.node))
      (Finset.range s.next) T') : RcObjectsInv (s.write v o') T' extra q := by
  have hview : rcView (s.write v o') (rcDead s.active q) =
      Function.update (rcView s (rcDead s.active q)) v (some o'.node) := by
    rw [rcView_eq_update (fun r hr => RcObjects.write_heap_of_ne s o' hr) (fun _ _ => Iff.rfl)
      (fun _ _ _ _ => rfl), rcView_alive (RcObjects.write_heap_self s v o') hv]
  refine ⟨h.fault, ?_, fun r o'' ho'' => ?_, fun r o'' ho'' hr => ?_, fun r hr => ?_, h.nodup,
    (h.linked_update hv _).1, (h.linked_update hv _).2, h.tail, h.recentTail, h.pending,
    h.frees_nodup, fun r => ?_⟩
  · exact hview ▸ hcounted
  · by_cases hr : r = v
    · subst hr
      rw [RcObjects.write_heap_self] at ho''
      cases ho''
      exact hcell
    · rw [RcObjects.write_heap_of_ne s o' hr] at ho''
      have hc := h.cells r o'' ho''
      refine { hc with flat := fun hk b hb => ?_, members := fun hk w hw t ht => ?_ }
      · by_cases hb' : o''.backing = v
        · rw [hb', RcObjects.write_heap_self] at hb
          cases hb
          have hflat := hc.flat hk o (by rw [hb', ho])
          rw [(htext hflat.1).2]
          exact ⟨(htext hflat.1).1, hflat.2⟩
        · exact hc.flat hk b ((RcObjects.write_heap_of_ne s o' hb').symm.trans hb)
      · by_cases hw' : w = v
        · subst hw'
          exact absurd (hc.members hk w hw o ho).2 hmortal
        · exact hc.members hk w hw t ((RcObjects.write_heap_of_ne s o' hw').symm.trans ht)
  · have hrv : r ≠ v := fun hrv => hv (hrv ▸ hr)
    exact h.cursor r o'' ((RcObjects.write_heap_of_ne s o' hrv).symm.trans ho'') hr
  · have hrv : r ≠ v := fun hrv => hv (hrv ▸ hr)
    exact fun hn => h.dead r hr ((RcObjects.write_heap_of_ne s o' hrv).symm.trans hn)
  · rw [show (s.write v o').frees = s.frees from rfl, h.frees r]
    by_cases hr : r = v
    · subst hr
      simp [RcObjects.write, ho]
    · simp [RcObjects.write, hr]

end RcObjectsInv

end Minyar

import Minyar.Rc.Eager
import Minyar.Rc.Values

/-!
# The eager destruction

While a release works, the objects on the stack are the dead nodes of the graph, and the object
whose children are being dropped is gone from it: its children are tokens.  `EagerInv` is the
invariant of the objects in between.  Dropping an owner gives up one token; a pass of the loop hands
over the children of the latest dead object, drops them and frees it.  Every pass and every link of
a chain of Texts frees an object, so the loops end within as many passes as there are names.
-/

namespace Minyar

open CountedGraph

/-! ## The graph of the objects -/

namespace EagerObjects

/-- The graph of the objects without the one whose children are being dropped. -/
def view (s : EagerObjects) (hidden : ℕ) : CountedGraph ℕ := fun r =>
  if r = hidden then none
  else (s.heap r).map fun o => if r ∈ s.pending then .dead o.slots else o.node

/-- The objects that are dead: the one whose children are being dropped, and the stack. -/
def dead (s : EagerObjects) (hidden : ℕ) : List ℕ :=
  if hidden = 0 then s.pending else hidden :: s.pending

variable {s s' : EagerObjects} {hidden r v : ℕ} {o : RcObject}

theorem mem_dead : r ∈ s.dead hidden ↔ hidden ≠ 0 ∧ r = hidden ∨ r ∈ s.pending := by
  unfold dead
  split_ifs with h0
  · simp [h0]
  · simp [h0]

theorem view_alive (ho : s.heap r = some o) (hr : r ≠ hidden) (hp : r ∉ s.pending) :
    s.view hidden r = some o.node := by
  simp [view, ho, hr, hp]

theorem view_dead (ho : s.heap r = some o) (hr : r ≠ hidden) (hp : r ∈ s.pending) :
    s.view hidden r = some (.dead o.slots) := by
  simp [view, ho, hr, hp]

theorem view_none (ho : s.heap r = none) : s.view hidden r = none := by
  simp [view, ho]

@[simp] theorem view_self : s.view hidden hidden = none := by
  simp [view]

/-- Graphs that differ at one object only. -/
theorem view_eq_update (hheap : ∀ r, r ≠ v → s'.heap r = s.heap r)
    (hpending : ∀ r, r ≠ v → (r ∈ s'.pending ↔ r ∈ s.pending)) :
    s'.view hidden = Function.update (s.view hidden) v (s'.view hidden v) := by
  funext r
  by_cases hr : r = v
  · rw [hr, Function.update_self]
  · rw [Function.update_of_ne hr]
    unfold view
    rw [hheap r hr]
    simp only [hpending r hr]

@[simp] theorem write_heap_self (s : EagerObjects) (r : ℕ) (o : RcObject) :
    (s.write r o).heap r = some o := Function.update_self r _ _

theorem write_heap_of_ne (s : EagerObjects) (o : RcObject) (h : r ≠ v) :
    (s.write v o).heap r = s.heap r := Function.update_of_ne h _ _

@[simp] theorem free_heap_self (s : EagerObjects) (r : ℕ) : (s.free r).heap r = none :=
  Function.update_self r _ _

theorem free_heap_of_ne (s : EagerObjects) (h : r ≠ v) : (s.free v).heap r = s.heap r :=
  Function.update_of_ne h _ _

/-- Lowering a count before the object is destroyed leaves no trace. -/
theorem free_write (s : EagerObjects) (r : ℕ) (o : RcObject) : (s.write r o).free r = s.free r := by
  simp [write, free]

end EagerObjects

/-! ## The invariant -/

/-- What holds of one object. -/
structure EagerCell (o : RcObject) : Prop where
  /-- A record has a map byte for every field. -/
  map_length : o.kind = .record → o.map.length = o.values.length
  /-- The map bytes of a record are flags. -/
  flags : o.kind = .record → ∀ b ∈ o.map, b < 2
  /-- There is one kind of List of references. -/
  kind : o.kind ≠ .referencesImmortal

/-- The invariant of the objects for the tokens `T`, while `hidden` gives up its children. -/
structure EagerInv (s : EagerObjects) (hidden : ℕ) (T : Multiset ℕ) : Prop where
  /-- No missing object was accessed. -/
  fault : s.fault = false
  /-- The counts are exact. -/
  counted : Counted 0 (s.view hidden) (Finset.range s.next) T
  /-- The objects one by one. -/
  cells : ∀ r o, s.heap r = some o → EagerCell o
  /-- The objects have names. -/
  names : ∀ r o, s.heap r = some o → r ≠ 0 ∧ r < s.next
  /-- Names start after the null pointer. -/
  next : s.next ≠ 0
  /-- The dead objects have not been destroyed, and they are Lists of references or records. -/
  pending : ∀ r ∈ s.pending, r ≠ hidden ∧
    ∃ o, s.heap r = some o ∧ (o.kind = .references ∨ o.kind = .record)
  /-- No object is on the stack twice. -/
  nodup : s.pending.Nodup
  /-- No object is destroyed twice. -/
  frees_nodup : s.frees.Nodup
  /-- The destroyed objects are those that are gone. -/
  frees : ∀ r, r ∈ s.frees ↔ 0 < r ∧ r < s.next ∧ s.heap r = none

/-- What dropping owners guarantees. -/
structure EagerDropSpec (s s' : EagerObjects) (hidden : ℕ) (T : Multiset ℕ) : Prop where
  /-- The invariant holds without the dropped tokens. -/
  inv : EagerInv s' hidden T
  /-- The objects that are still there have kept their contents. -/
  shrink : RcShrink s.heap (s.dead hidden) s'.heap (s'.dead hidden)
  /-- What the other tokens sustain is spared. -/
  spares : Spares (s.view hidden) (s'.view hidden) T
  /-- The dead objects are untouched. -/
  dead : ∀ r ∈ s.dead hidden, s'.heap r = s.heap r
  /-- They stay on the stack. -/
  stack : ∀ r ∈ s.pending, r ∈ s'.pending
  /-- Nothing is allocated. -/
  next : s'.next = s.next
  /-- What is destroyed stays so. -/
  frees : s.frees.length ≤ s'.frees.length

namespace EagerDropSpec

variable {s s' s'' : EagerObjects} {hidden : ℕ} {T T' : Multiset ℕ}

theorem refl (h : EagerInv s hidden T) : EagerDropSpec s s hidden T :=
  ⟨h, RcShrink.refl _ _, Spares.refl _ _, fun _ _ => rfl, fun _ hr => hr, rfl, le_rfl⟩

theorem trans (h : EagerDropSpec s s' hidden T') (h' : EagerDropSpec s' s'' hidden T)
    (hT : ∀ r ∈ T, r ∈ T') : EagerDropSpec s s'' hidden T where
  inv := h'.inv
  shrink := h.shrink.trans h'.shrink
  spares := (h.spares.mono hT).trans h'.spares
  dead := fun r hr => by
    refine (h'.dead r ?_).trans (h.dead r hr)
    exact EagerObjects.mem_dead.mpr ((EagerObjects.mem_dead.mp hr).imp id (h.stack r))
  stack := fun r hr => h'.stack r (h.stack r hr)
  next := h'.next.trans h.next
  frees := h.frees.trans h'.frees

end EagerDropSpec

namespace EagerInv

variable {s s' : EagerObjects} {hidden v r : ℕ} {T T' : Multiset ℕ} {o o' : RcObject}

/-- A token names an object that is not dead. -/
theorem exists_of_mem (h : EagerInv s hidden T) (hv : v ∈ T) (h0 : v ≠ 0) :
    ∃ o, s.heap v = some o ∧ v ≠ hidden ∧ v ∉ s.pending := by
  obtain ⟨x, hx, halive⟩ := h.counted.exists_of_mem hv h0
  have hne : v ≠ hidden := by
    rintro rfl
    rw [EagerObjects.view_self] at hx
    cases hx
  rcases ho : s.heap v with _ | o
  · rw [EagerObjects.view_none ho] at hx
    cases hx
  · refine ⟨o, rfl, hne, fun hp => ?_⟩
    rw [EagerObjects.view_dead ho hne hp] at hx
    cases hx
    exact halive

theorem notMem_dead (hv : v ≠ hidden) (hp : v ∉ s.pending) : v ∉ s.dead hidden := fun hmem =>
  (EagerObjects.mem_dead.mp hmem).elim (fun h => hv h.2) hp

/-- While an object is there, not all names are used up. -/
theorem frees_length (h : EagerInv s hidden T) (ho : s.heap r = some o) :
    s.frees.length + 2 ≤ s.next := by
  have hnodup : (r :: s.frees).Nodup := by
    refine List.nodup_cons.mpr ⟨fun hmem => ?_, h.frees_nodup⟩
    cases ho.symm.trans ((h.frees r).mp hmem).2.2
  have hsub : (r :: s.frees).toFinset ⊆ Finset.Ioo 0 s.next := by
    intro x hx
    rcases List.mem_cons.mp (List.mem_toFinset.mp hx) with rfl | hx
    · obtain ⟨h0, hlt⟩ := h.names x o ho
      exact Finset.mem_Ioo.mpr ⟨Nat.pos_of_ne_zero h0, hlt⟩
    · obtain ⟨h0, hlt, -⟩ := (h.frees x).mp hx
      exact Finset.mem_Ioo.mpr ⟨h0, hlt⟩
  have hcard := Finset.card_le_card hsub
  rw [List.toFinset_card_of_nodup hnodup, Nat.card_Ioo, List.length_cons] at hcard
  have := (h.names r o ho).2
  omega

/-- Writing an object that is there, and possibly pushing it. -/
theorem write (h : EagerInv s hidden T) (ho : s.heap v = some o) (hv : v ≠ hidden)
    {pending : List ℕ} (hpending : ∀ r, r ∈ pending →
      r = v ∧ (o'.kind = .references ∨ o'.kind = .record) ∨ r ≠ v ∧ r ∈ s.pending)
    (hnodup : pending.Nodup) (hcell : EagerCell o')
    (hcounted : Counted 0 (((s.write v o').withPending pending).view hidden)
      (Finset.range s.next) T') :
    EagerInv ((s.write v o').withPending pending) hidden T' := by
  have hheap : ∀ {r}, r ≠ v → (s.write v o').heap r = s.heap r := s.write_heap_of_ne o'
  refine ⟨h.fault, hcounted, fun r p hp => ?_, fun r p hp => ?_, h.next, fun r hr => ?_, hnodup,
    h.frees_nodup, fun r => ?_⟩
  · by_cases hr : r = v
    · subst hr
      obtain rfl : o' = p := Option.some.inj ((s.write_heap_self r o').symm.trans hp)
      exact hcell
    · exact h.cells r p ((hheap hr).symm.trans hp)
  · by_cases hr : r = v
    · subst hr
      exact h.names r o ho
    · exact h.names r p ((hheap hr).symm.trans hp)
  · rcases hpending r hr with ⟨rfl, hkind⟩ | ⟨hrv, hr⟩
    · exact ⟨hv, o', s.write_heap_self r o', hkind⟩
    · obtain ⟨hne, p, hp, hkind⟩ := h.pending r hr
      exact ⟨hne, p, (hheap hrv).trans hp, hkind⟩
  · refine (h.frees r).trans (and_congr_right fun _ => and_congr_right fun _ => ?_)
    by_cases hrv : r = v
    · subst hrv
      change _ ↔ (s.write r o').heap r = none
      simp [ho]
    · rw [← hheap hrv]
      rfl

/-- Freeing an object that is not on the stack. -/
theorem free (h : EagerInv s hidden T) (ho : s.heap v = some o) (hp : v ∉ s.pending) {hidden' : ℕ}
    (hhidden : ∀ r ∈ s.pending, r ≠ hidden')
    (hcounted : Counted 0 ((s.free v).view hidden') (Finset.range s.next) T') :
    EagerInv (s.free v) hidden' T' := by
  have hheap : ∀ {r}, r ≠ v → (s.free v).heap r = s.heap r := s.free_heap_of_ne
  have hsome : ∀ {r p}, (s.free v).heap r = some p → s.heap r = some p := by
    intro r p hp
    by_cases hr : r = v
    · subst hr
      cases (s.free_heap_self r).symm.trans hp
    · exact (hheap hr).symm.trans hp
  refine ⟨h.fault, hcounted, fun r p hp => h.cells r p (hsome hp), fun r p hp =>
    h.names r p (hsome hp), h.next, fun r hr => ?_, h.nodup, ?_, fun r => ?_⟩
  · have hne : r ≠ v := fun heq => hp (heq ▸ hr)
    obtain ⟨-, p, hp', hkind⟩ := h.pending r hr
    exact ⟨hhidden r hr, p, (hheap hne).trans hp', hkind⟩
  · refine List.nodup_cons.mpr ⟨fun hmem => ?_, h.frees_nodup⟩
    cases ho.symm.trans ((h.frees v).mp hmem).2.2
  · have hcons : r ∈ (s.free v).frees ↔ r = v ∨ r ∈ s.frees := List.mem_cons
    rw [hcons, h.frees r]
    by_cases hr : r = v
    · subst hr
      obtain ⟨h0, hlt⟩ := h.names r o ho
      simp only [true_or, EagerObjects.free_heap_self, true_iff]
      exact ⟨Nat.pos_of_ne_zero h0, hlt, trivial⟩
    · rw [hheap hr]
      simp only [hr, false_or]
      rfl

/-! ## Dropping an owner -/

/-- A token of the null pointer or of an immortal object is not counted. -/
theorem cons_iff (hv : v = 0 ∨ ∃ o, s.heap v = some o ∧ v ≠ hidden ∧ v ∉ s.pending ∧ o.owners = 0) :
    EagerInv s hidden (v ::ₘ T) ↔ EagerInv s hidden T := by
  have hview : v = 0 ∨ s.view hidden v = some .immortal := by
    rcases hv with hv | ⟨o, ho, hne, hp, h0⟩
    · exact Or.inl hv
    · refine Or.inr ?_
      rw [EagerObjects.view_alive ho hne hp]
      exact congrArg some (if_pos h0)
  exact ⟨fun h => { h with counted := (Counted.cons_iff hview).mp h.counted },
    fun h => { h with counted := (Counted.cons_iff hview).mpr h.counted }⟩

/-- Lowering the count of a shared object. -/
theorem drop_shared (h : EagerInv s hidden (v ::ₘ T)) (ho : s.heap v = some o) (hv : v ≠ hidden)
    (hp : v ∉ s.pending) (h2 : 2 ≤ o.owners) :
    EagerDropSpec s (s.write v { o with owners := o.owners - 1 }) hidden T := by
  set o' : RcObject := { o with owners := o.owners - 1 } with ho'
  have howners : o'.owners = o.owners - 1 := rfl
  have hslots : o'.node.slots = o.node.slots := by
    rw [RcObject.node_slots (by omega), RcObject.node_slots (by omega)]
    rfl
  have hview : (s.write v o').view hidden =
      Function.update (s.view hidden) v (some o'.node) := by
    rw [EagerObjects.view_eq_update (s := s) (fun r hr => s.write_heap_of_ne o' hr)
      fun _ _ => Iff.rfl, EagerObjects.view_alive (s.write_heap_self v o') hv hp]
  have hdead := notMem_dead (s := s) hv hp
  refine ⟨h.write ho hv (fun r hr => Or.inr ⟨fun heq => hp (heq ▸ hr), hr⟩) h.nodup ?_ ?_, ?_, ?_,
    fun r hr => ?_, fun _ hr => hr, rfl, le_rfl⟩
  · exact ⟨(h.cells v o ho).map_length, (h.cells v o ho).flags, (h.cells v o ho).kind⟩
  · change Counted 0 ((s.write v o').view hidden) _ _
    rw [hview]
    refine h.counted.drop_shared (n := o.owners - 2) (EagerObjects.view_alive ho hv hp) ?_ ?_ hslots
    · rw [RcObject.node_owners (by omega)]
      congr 1
      omega
    · rw [RcObject.node_owners (by omega), howners]
      congr 1
      omega
  · refine RcShrink.update ho (Or.inr (by omega)) (fun _ _ => Iff.rfl) fun p hp' => ?_
    cases hp'
    exact ⟨RcSame.owners o _, fun _ => ⟨hdead, rfl, rfl, by omega⟩⟩
  · rw [hview]
    refine Spares.update_slots (EagerObjects.view_alive ho hv hp) (RcObject.node_alive _) hslots ?_
    intro himmortal
    have hmortal := RcObject.node_owners (o := o) (by omega)
    rw [himmortal] at hmortal
    cases hmortal
  · exact s.write_heap_of_ne o' fun heq => hdead (heq ▸ hr)

/-- Freeing an object with its last owner hands over what it owns. -/
theorem drop_free (h : EagerInv s hidden (v ::ₘ T)) (ho : s.heap v = some o) (hv : v ≠ hidden)
    (hp : v ∉ s.pending) (h1 : o.owners = 1) :
    EagerDropSpec s (s.free v) hidden ((o.slots : Multiset ℕ) + T) := by
  have hold := EagerObjects.view_alive ho hv hp
  have hslots : o.node.slots = o.slots := RcObject.node_slots (by omega)
  have howners : o.node.owners = some 1 := by rw [RcObject.node_owners (by omega), h1]
  have hview : (s.free v).view hidden = Function.update (s.view hidden) v none := by
    rw [EagerObjects.view_eq_update (s := s) (fun r hr => s.free_heap_of_ne hr)
      fun _ _ => Iff.rfl, EagerObjects.view_none (s.free_heap_self v)]
  have hdead := notMem_dead (s := s) hv hp
  refine ⟨h.free ho hp (fun r hr => (h.pending r hr).1) ?_, ?_, ?_, fun r hr => ?_, fun _ hr => hr,
    rfl, Nat.le_succ _⟩
  · rw [hview, ← hslots]
    exact h.counted.free_last hold howners
  · exact RcShrink.update ho (Or.inr (by omega)) (fun _ _ => Iff.rfl) fun _ hn => by cases hn
  · rw [hview, ← hslots]
    exact h.counted.spares_last hold howners none
  · exact s.free_heap_of_ne fun heq => hdead (heq ▸ hr)

/-- Pushing an object with its last owner. -/
theorem drop_push (h : EagerInv s hidden (v ::ₘ T)) (ho : s.heap v = some o) (hv : v ≠ hidden)
    (hp : v ∉ s.pending) (h1 : o.owners = 1) (hkind : o.kind = .references ∨ o.kind = .record) :
    EagerDropSpec s ((s.write v { o with owners := 0 }).withPending (v :: s.pending)) hidden T := by
  set o' : RcObject := { o with owners := 0 } with ho'
  set s' : EagerObjects := (s.write v o').withPending (v :: s.pending) with hs'
  have hold := EagerObjects.view_alive ho hv hp
  have howners : o.node.owners = some 1 := by rw [RcObject.node_owners (by omega), h1]
  have hself : s'.heap v = some o' := s.write_heap_self v o'
  have hmem : ∀ r, r ≠ v → (r ∈ s'.pending ↔ r ∈ s.pending) := fun r hr =>
    List.mem_cons.trans (or_iff_right hr)
  have hview : s'.view hidden = Function.update (s.view hidden) v (some (.dead o.node.slots)) := by
    have hupdate : s'.view hidden = Function.update (s.view hidden) v (s'.view hidden v) :=
      EagerObjects.view_eq_update (fun r hr => s.write_heap_of_ne o' hr) hmem
    rw [hupdate, EagerObjects.view_dead hself hv List.mem_cons_self,
      RcObject.node_slots (show o.owners ≠ 0 by omega)]
    rfl
  have hdead := notMem_dead (s := s) hv hp
  refine ⟨h.write ho hv (fun r hr => ?_) (List.nodup_cons.mpr ⟨hp, h.nodup⟩) ?_ ?_,
    ?_, ?_, fun r hr => ?_, fun r hr => List.mem_cons_of_mem v hr, rfl, le_rfl⟩
  · rcases List.mem_cons.mp hr with rfl | hr
    · exact Or.inl ⟨rfl, hkind⟩
    · exact Or.inr ⟨fun heq => hp (heq ▸ hr), hr⟩
  · exact ⟨(h.cells v o ho).map_length, (h.cells v o ho).flags, (h.cells v o ho).kind⟩
  · change Counted 0 (s'.view hidden) _ _
    rw [hview]
    exact h.counted.kill hold howners
  · refine RcShrink.update ho (Or.inr (by omega)) (fun r hr => ?_) fun p hp' => ?_
    · rw [EagerObjects.mem_dead, EagerObjects.mem_dead, hmem r hr]
    · cases hp'
      refine ⟨RcSame.owners o _, fun hn => absurd (EagerObjects.mem_dead.mpr (Or.inr ?_)) hn⟩
      exact List.mem_cons_self
  · rw [hview]
    exact (h.counted.spares_last hold howners _).mono fun r hr => Multiset.mem_add.mpr (Or.inr hr)
  · exact s.write_heap_of_ne o' fun heq => hdead (heq ▸ hr)

/-- What an object owns, by its kind. -/
theorem slots_of_kind (h : o.kind = .list ∨ o.kind = .scalarRecord) : o.slots = [] := by
  unfold RcObject.slots
  rcases h with h | h <;> rw [h]

/-- Dropping an owner along a chain of Texts. -/
theorem dropChain (h : EagerInv s hidden (v ::ₘ T)) {fuel : ℕ}
    (hfuel : s.next ≤ fuel + 1 + s.frees.length) :
    EagerDropSpec s (EagerObjects.dropChain (fuel + 1) s v) hidden T := by
  induction fuel using Nat.strong_induction_on generalizing s v T with
  | h fuel ih =>
    rw [EagerObjects.dropChain]
    by_cases hv0 : v = 0
    · rw [if_pos hv0]
      exact EagerDropSpec.refl ((cons_iff (Or.inl hv0)).mp h)
    obtain ⟨o, ho, hv, hp⟩ := h.exists_of_mem (Multiset.mem_cons_self v T) hv0
    rw [if_neg hv0, ho]
    simp only
    by_cases h0 : o.owners = 0
    · rw [if_pos h0]
      exact EagerDropSpec.refl ((cons_iff (Or.inr ⟨o, ho, hv, hp, h0⟩)).mp h)
    rw [if_neg h0]
    by_cases h1 : o.owners = 1
    · rw [if_neg (by omega)]
      have hfree := h.drop_free ho hv hp h1
      have hlist : o.kind = .list ∨ o.kind = .scalarRecord →
          EagerDropSpec s (s.free v) hidden T := fun hkind => by
        rwa [slots_of_kind hkind, Multiset.coe_nil, zero_add] at hfree
      rw [EagerObjects.free_write]
      rcases hkind : o.kind with _ | _ | _ | _ | _ | _
      case text =>
        have hslots : (o.slots : Multiset ℕ) + T = o.backing ::ₘ T := by
          simp [RcObject.slots, hkind]
        rw [hslots] at hfree
        simp only
        split_ifs with hb
        · rw [hb] at hfree
          refine ⟨(cons_iff (Or.inl rfl)).mp hfree.inv, hfree.shrink,
            hfree.spares.mono fun r hr => Multiset.mem_cons_of_mem hr, hfree.dead, hfree.stack,
            hfree.next, hfree.frees⟩
        · -- The Text is gone, so the rest of the chain has a name less.
          have hroom := h.frees_length ho
          obtain ⟨fuel, rfl⟩ : ∃ n, fuel = n + 1 := ⟨fuel - 1, by omega⟩
          have hlength : (s.free v).frees.length = s.frees.length + 1 := rfl
          have hnext : (s.free v).next = s.next := rfl
          refine hfree.trans (ih fuel (Nat.lt_succ_self fuel) hfree.inv (by omega)) fun r hr => ?_
          exact Multiset.mem_cons_of_mem hr
      case list => exact hlist (Or.inl hkind)
      case scalarRecord => exact hlist (Or.inr hkind)
      case referencesImmortal => exact absurd hkind (h.cells v o ho).kind
      all_goals
        have hwrite : o.owners - 1 = 0 := by omega
        simp only [hwrite, ← hkind]
        exact h.drop_push ho hv hp h1 (by simp [hkind])
    · rw [if_pos (by omega)]
      exact h.drop_shared ho hv hp (by omega)

/-- Dropping an owner. -/
theorem drop (h : EagerInv s hidden (v ::ₘ T)) : EagerDropSpec s (s.drop v) hidden T := by
  have hnext := h.next
  unfold EagerObjects.drop
  obtain ⟨fuel, hfuel⟩ : ∃ n, s.next = n + 1 := ⟨s.next - 1, by omega⟩
  rw [hfuel]
  exact h.dropChain (by omega)

/-- Dropping owners one after another. -/
theorem dropAll {values : List ℕ} (h : EagerInv s hidden ((values : Multiset ℕ) + T)) :
    EagerDropSpec s (values.foldl EagerObjects.drop s) hidden T := by
  induction values generalizing s with
  | nil =>
    rw [Multiset.coe_nil, zero_add] at h
    exact EagerDropSpec.refl h
  | cons v values ih =>
    rw [← Multiset.cons_coe, Multiset.cons_add] at h
    exact h.drop.trans (ih h.drop.inv) fun r hr => Multiset.mem_add.mpr (Or.inr hr)

/-! ## The loop -/

/-- The children of an object are what it owns, up to null pointers. -/
theorem count_children (hcell : EagerCell o) (hr : r ≠ 0)
    (hkind : o.kind = .references ∨ o.kind = .record) :
    (EagerObjects.children o).count r = o.slots.count r := by
  unfold EagerObjects.children
  rcases hkind with hkind | hkind
  · rw [if_pos hkind, RcObject.slots_of_references (Or.inl hkind)]
  · rw [if_neg (by simp [hkind]), RcObject.slots_of_record hkind (hcell.map_length hkind)]
    have hflags := hcell.flags hkind
    unfold RcObject.fields
    generalize o.values = values
    revert hflags
    generalize o.map = map
    intro hflags
    induction values generalizing map with
    | nil => simp
    | cons w values ih =>
      cases map with
      | nil => simp
      | cons b map =>
        have hrest := ih map fun b' hb' => hflags b' (List.mem_cons_of_mem _ hb')
        have hb := hflags b List.mem_cons_self
        rcases (by omega : b = 0 ∨ b = 1) with rfl | rfl
        · simpa [List.count_cons, hr.symm] using hrest
        · simpa [List.count_cons] using hrest

end EagerInv

/-- What a release guarantees. -/
structure EagerReleaseSpec (s s' : EagerObjects) (T : Multiset ℕ) : Prop where
  /-- The invariant holds without the released token. -/
  inv : EagerInv s' 0 T
  /-- The objects that are still there have kept their contents. -/
  shrink : RcShrink s.heap (s.dead 0) s'.heap (s'.dead 0)
  /-- What the other tokens sustain is spared. -/
  spares : Spares (s.view 0) (s'.view 0) T
  /-- Nothing is allocated. -/
  next : s'.next = s.next
  /-- Nothing is pending. -/
  idle : s'.pending = []

namespace EagerInv

variable {s : EagerObjects} {v r : ℕ} {T : Multiset ℕ} {o : RcObject}

/-- A pass of the loop: the latest dead object gives up its children and is freed. -/
theorem pass (h : EagerInv s 0 T) {pending : List ℕ} (hpending : s.pending = r :: pending)
    (ho : s.heap r = some o) {s' : EagerObjects}
    (hs' : s' = ((EagerObjects.children o).foldl EagerObjects.drop (s.withPending pending)).free r) :
    EagerInv s' 0 T ∧ RcShrink s.heap (s.dead 0) s'.heap (s'.dead 0) ∧
      Spares (s.view 0) (s'.view 0) T ∧ s'.next = s.next ∧ s.frees.length < s'.frees.length := by
  obtain ⟨hr0, o₁, ho₁, hkind⟩ := h.pending r (by rw [hpending]; exact List.mem_cons_self)
  obtain rfl : o = o₁ := Option.some.inj (ho.symm.trans ho₁)
  have hnodup := h.nodup
  rw [hpending, List.nodup_cons] at hnodup
  obtain ⟨hnotMem, hnodup⟩ := hnodup
  have hzero : s.heap 0 = none := by
    by_contra hsome
    obtain ⟨p, hp⟩ := Option.ne_none_iff_exists'.mp hsome
    exact (h.names 0 p hp).1 rfl
  -- The object is gone from the graph, and its children are tokens.
  have hold : s.view 0 r = some (.dead o.slots) :=
    EagerObjects.view_dead ho hr0 (by rw [hpending]; exact List.mem_cons_self)
  have hview : (s.withPending pending).view r = Function.update (s.view 0) r none := by
    funext w
    by_cases hw : w = r
    · rw [hw, EagerObjects.view_self, Function.update_self]
    · rw [Function.update_of_ne hw]
      by_cases hw0 : w = 0
      · rw [hw0, EagerObjects.view_self]
        exact EagerObjects.view_none hzero
      · have hmem : w ∈ s.pending ↔ w ∈ pending := by
          rw [hpending, List.mem_cons]
          exact or_iff_right hw
        unfold EagerObjects.view
        simp only [hw, hw0, if_false, hmem]
        rfl
  have hinv : EagerInv (s.withPending pending) r
      ((EagerObjects.children o : Multiset ℕ) + T) := by
    refine ⟨h.fault, ?_, h.cells, h.names, h.next, fun w hw => ⟨fun heq => hnotMem (heq ▸ hw), ?_⟩,
      hnodup, h.frees_nodup, h.frees⟩
    · rw [hview]
      refine (h.counted.destroy hold).congr fun w hw => ?_
      rw [Multiset.count_add, Multiset.count_add, Multiset.coe_count, Multiset.coe_count,
        count_children (h.cells r o ho) hw hkind]
    · exact (h.pending w (by rw [hpending]; exact List.mem_cons_of_mem r hw)).2
  have hspec := hinv.dropAll
  set s₂ := (EagerObjects.children o).foldl EagerObjects.drop (s.withPending pending) with hs₂
  have hmem : r ∈ (s.withPending pending).dead r :=
    EagerObjects.mem_dead.mpr (Or.inl ⟨hr0, rfl⟩)
  have ho₂ : s₂.heap r = some o := (hspec.dead r hmem).trans ho
  have hfree : (s₂.free r).view 0 = s₂.view r := by
    funext w
    have hzero₂ : s₂.heap 0 = none := by
      by_contra hsome
      obtain ⟨p, hp⟩ := Option.ne_none_iff_exists'.mp hsome
      exact (hspec.inv.names 0 p hp).1 rfl
    by_cases hw : w = r
    · rw [hw, EagerObjects.view_self]
      exact EagerObjects.view_none (s₂.free_heap_self r)
    · by_cases hw0 : w = 0
      · rw [hw0, EagerObjects.view_self, EagerObjects.view_none hzero₂]
      · unfold EagerObjects.view
        rw [if_neg hw, if_neg hw0, s₂.free_heap_of_ne hw]
        rfl
  have hnotMem₂ : r ∉ s₂.pending := fun hr => (hspec.inv.pending r hr).1 rfl
  subst hs'
  refine ⟨hspec.inv.free ho₂ hnotMem₂ (fun w hw heq => ?_) ?_, ?_, ?_, hspec.next, ?_⟩
  · obtain ⟨-, p, hp, -⟩ := hspec.inv.pending w hw
    exact (hspec.inv.names w p hp).1 heq
  · rw [hfree]
    exact hspec.inv.counted
  · have hdead : s.dead 0 = (s.withPending pending).dead r := by
      unfold EagerObjects.dead
      rw [if_pos rfl, if_neg hr0, hpending]
      rfl
    rw [hdead]
    refine hspec.shrink.trans (RcShrink.update ho₂ (Or.inl ?_) (fun w hw => ?_) fun _ hn => ?_)
    · exact EagerObjects.mem_dead.mpr (Or.inl ⟨hr0, rfl⟩)
    · rw [EagerObjects.mem_dead, EagerObjects.mem_dead]
      simp [hw]
      rfl
    · cases hn
  · rw [hfree]
    have hgone : Spares (s.view 0) ((s.withPending pending).view r) T := by
      rw [hview]
      exact Spares.update_dead hold none
    exact hgone.trans hspec.spares
  · have hlength := hspec.frees
    change s.frees.length < s₂.frees.length + 1
    exact Nat.lt_succ_of_le hlength

/-- The loop ends with an empty stack: every pass frees an object. -/
theorem destroy (h : EagerInv s 0 T) {fuel : ℕ} (hfuel : s.next ≤ fuel + s.frees.length) :
    EagerReleaseSpec s (EagerObjects.destroy fuel s) T := by
  induction fuel generalizing s with
  | zero =>
    rcases hpending : s.pending with _ | ⟨r, pending⟩
    · rw [EagerObjects.destroy, hpending]
      exact ⟨h, RcShrink.refl _ _, Spares.refl _ _, rfl, hpending⟩
    · obtain ⟨-, o, ho, -⟩ := h.pending r (by rw [hpending]; exact List.mem_cons_self)
      have := h.frees_length ho
      omega
  | succ fuel ih =>
    rcases hpending : s.pending with _ | ⟨r, pending⟩
    · rw [EagerObjects.destroy, hpending]
      exact ⟨h, RcShrink.refl _ _, Spares.refl _ _, rfl, hpending⟩
    · obtain ⟨-, o, ho, -⟩ := h.pending r (by rw [hpending]; exact List.mem_cons_self)
      rw [EagerObjects.destroy, hpending]
      simp only [ho]
      obtain ⟨hinv, hshrink, hspares, hnext, hfrees⟩ := h.pass hpending ho rfl
      have hrest := ih hinv (by omega)
      exact ⟨hrest.inv, hshrink.trans hrest.shrink, hspares.trans hrest.spares,
        hrest.next.trans hnext, hrest.idle⟩

/-- A release destroys everything that goes with the owner. -/
theorem release (h : EagerInv s 0 (v ::ₘ T)) : EagerReleaseSpec s (s.release v) T := by
  have hdrop := h.drop
  have hfuel : (s.drop v).next ≤ s.next + (s.drop v).frees.length := by
    rw [hdrop.next]
    omega
  have hdestroy := hdrop.inv.destroy hfuel
  exact ⟨hdestroy.inv, hdrop.shrink.trans hdestroy.shrink, hdrop.spares.trans hdestroy.spares,
    hdestroy.next.trans hdrop.next, hdestroy.idle⟩

end EagerInv

end Minyar

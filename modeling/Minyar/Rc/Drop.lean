import Minyar.Rc.Ownership

/-!
# Dropping an owner

`rcDrop` gives up one token.  The object loses an owner, is destroyed at once when it is a leaf, or
joins the recent stack; the backing of a destroyed Text loses an owner in turn.  `RcDropSpec` is
everything that later proofs use: the invariant without the token, what happened to the graph, and
that the dead objects and the scheduler are left alone.
-/

namespace Minyar

open CountedGraph

/-! ## The cases of a drop -/

section Cases

variable {fuel value : ℕ} {s : RcObjects} {o : RcObject}

theorem rcDropChain_null : rcDropChain (fuel + 1) s 0 = (0, s) := by
  simp [rcDropChain]

theorem rcDropChain_immortal (hv : value ≠ 0) (ho : s.heap value = some o) (h0 : o.owners = 0) :
    rcDropChain (fuel + 1) s value = (0, s) := by
  simp [rcDropChain, hv, ho, h0]

theorem rcDropChain_shared (hv : value ≠ 0) (ho : s.heap value = some o) (h2 : 2 ≤ o.owners) :
    rcDropChain (fuel + 1) s value = (0, s.write value { o with owners := o.owners - 1 }) := by
  have h0 : o.owners ≠ 0 := by omega
  have h1 : o.owners ≠ 1 := by omega
  have hpred : o.owners - 1 ≠ 0 := by omega
  simp [rcDropChain, hv, ho, h0, h1, hpred]

/-- Lowering a count before the object is destroyed leaves no trace. -/
theorem RcObjects.free_write (s : RcObjects) (r : ℕ) (o : RcObject) :
    (s.write r o).free r = s.free r := by
  simp [RcObjects.write, RcObjects.free]

theorem rcDropChain_text (hv : value ≠ 0) (ho : s.heap value = some o) (h1 : o.owners = 1)
    (hkind : o.kind = .text) : rcDropChain (fuel + 1) s value =
      if o.backing = 0 then (1, s.free value)
      else (1 + (rcDropChain fuel (s.free value) o.backing).1,
        (rcDropChain fuel (s.free value) o.backing).2) := by
  simp [rcDropChain, hv, ho, h1, hkind, rcBoundedFinishObject, RcObjects.free_write]

theorem rcDropChain_leaf (hv : value ≠ 0) (ho : s.heap value = some o) (h1 : o.owners = 1)
    (hkind : o.kind ≠ .text) (hleaf : o.isLeaf = true) :
    rcDropChain (fuel + 1) s value = (1, s.free value) := by
  simp only [rcDropChain, hv, ho, h1, hkind, rcBoundedFinishObject, RcObjects.free_write]
  split_ifs <;> simp_all

theorem rcDropChain_branch (hv : value ≠ 0) (ho : s.heap value = some o) (h1 : o.owners = 1)
    (hleaf : o.isLeaf = false) :
    rcDropChain (fuel + 1) s value = (0, rcBoundedPushRecent s value o) := by
  have hkind : o.kind ≠ .text ∧ o.kind ≠ .scalarRecord := by
    rcases RcObject.kind_of_not_isLeaf hleaf with h | h <;> simp [h]
  have hpush : rcBoundedPushRecent (s.write value { o with owners := 0 }) value
      { o with owners := 0 } = rcBoundedPushRecent s value o := by
    have hsave : ({ rcBoundedSaveCursor { o with owners := 0 } 0 with
        owners := s.recentHead } : RcObject) =
        { rcBoundedSaveCursor o 0 with owners := s.recentHead } := by
      unfold rcBoundedSaveCursor
      split_ifs <;> rfl
    unfold rcBoundedPushRecent RcObjects.write
    simp only [Function.update_idem, hsave]
  simp [rcDropChain, hv, ho, h1, hkind, hleaf, hpush]

end Cases

/-- Lowering a count does not change the sort of a node. -/
theorem RcObject.nodeDrop_owners {o : RcObject} {n : ℕ} (h : o.owners ≠ 0) (hn : n ≠ 0) :
    NodeDrop (some o.node) (some ({ o with owners := n } : RcObject).node) := by
  rw [RcObject.node_of_owners h, RcObject.node_of_owners (o := { o with owners := n }) hn,
    show ({ o with owners := n } : RcObject).isLeaf = o.isLeaf from rfl]
  split_ifs
  · exact .leaf _ _ _
  · exact .branch _ _ _

/-- The members of the queues after an object joins the recent stack. -/
theorem mem_rcDead_push {active v r : ℕ} {q : RcQueues} :
    r ∈ rcDead active { q with recent := v :: q.recent } ↔ r = v ∨ r ∈ rcDead active q := by
  unfold rcDead
  simp only [List.mem_append, List.mem_cons]
  tauto

namespace RcObjectsInv

variable {s : RcObjects} {T T' : Multiset ℕ} {extra v : ℕ} {q : RcQueues} {o : RcObject}

/-! ## Destroying an alive object -/

/-- Destroying an alive object that is not immortal. -/
theorem free_alive (h : RcObjectsInv s T extra q) (ho : s.heap v = some o)
    (hv : v ∉ rcDead s.active q) (hmortal : o.owners ≠ 0)
    (hcounted : Counted 0 (Function.update (rcView s (rcDead s.active q)) v none)
      (Finset.range s.next) T') :
    RcObjectsInv (s.free v) T' extra q ∧
      RcShrink s.heap (rcDead s.active q) (s.free v).heap (rcDead s.active q) := by
  have hview : rcView (s.free v) (rcDead s.active q) =
      Function.update (rcView s (rcDead s.active q)) v none := by
    rw [rcView_eq_update (fun r hr => RcObjects.free_heap_of_ne s hr) (fun _ _ => Iff.rfl)
      (fun _ _ _ _ => rfl), rcView_none (RcObjects.free_heap_self s v)]
  have hshrink : RcShrink s.heap (rcDead s.active q) (s.free v).heap (rcDead s.active q) :=
    RcShrink.update ho (Or.inr hmortal) (fun _ _ => Iff.rfl) (fun _ h => by cases h)
  have hheap : ∀ {r}, r ≠ v → (s.free v).heap r = s.heap r := RcObjects.free_heap_of_ne s
  have hne : ∀ {r}, r ∈ rcDead s.active q → r ≠ v := by
    rintro r hr rfl
    exact hv hr
  refine ⟨⟨h.fault, ?_, fun r o' ho' => ?_, fun r o' ho' hr => ?_, fun r hr => ?_, h.nodup,
    (h.linked_update hv _).1, (h.linked_update hv _).2, h.tail, h.recentTail, h.pending,
    ?_, fun r => ?_⟩, hshrink⟩
  · exact hview ▸ hcounted
  · refine RcCell.shrink hshrink ho' (h.cells r) fun hr => ?_
    rw [hheap (hne hr)] at ho'
    exact (h.cells r o' ho').branch hr
  · rw [hheap (hne hr)] at ho'
    exact h.cursor r o' ho' hr
  · rw [hheap (hne hr)]
    exact h.dead r hr
  · refine List.nodup_cons.mpr ⟨fun hmem => ?_, h.frees_nodup⟩
    have hgone := ((h.frees v).mp hmem).2.2
    rw [ho] at hgone
    cases hgone
  · have hcons : r ∈ (s.free v).frees ↔ r = v ∨ r ∈ s.frees := List.mem_cons
    rw [hcons, h.frees r]
    by_cases hr : r = v
    · subst hr
      have := h.ne_zero ho
      have := h.lt_next ho
      simp only [true_or, RcObjects.free_heap_self, true_iff]
      exact ⟨by omega, this, trivial⟩
    · rw [hheap hr]
      simp only [hr, false_or]
      rfl

/-! ## Killing an object -/

/-- An object that joins the recent stack keeps the fields that it owns. -/
theorem kill (h : RcObjectsInv s (v ::ₘ T) extra q) (ho : s.heap v = some o)
    (hv : v ∉ rcDead s.active q) (h1 : o.owners = 1) (hleaf : o.isLeaf = false) :
    RcObjectsInv (rcBoundedPushRecent s v o) T extra { q with recent := v :: q.recent } ∧
      RcShrink s.heap (rcDead s.active q) (rcBoundedPushRecent s v o).heap
        (rcDead s.active { q with recent := v :: q.recent }) ∧
      Dropped (rcView s (rcDead s.active q)) (rcView (rcBoundedPushRecent s v o)
        (rcDead s.active { q with recent := v :: q.recent })) ∧
      Spares (rcView s (rcDead s.active q)) (rcView (rcBoundedPushRecent s v o)
        (rcDead s.active { q with recent := v :: q.recent })) T := by
  set s' := rcBoundedPushRecent s v o with hs'
  set q' : RcQueues := { q with recent := v :: q.recent } with hq'
  set o' : RcObject := { rcBoundedSaveCursor o 0 with owners := s.recentHead } with ho'
  have hcell := h.cells v o ho
  have hmem : ∀ r, r ∈ rcDead s.active q' ↔ r = v ∨ r ∈ rcDead s.active q :=
    fun r => mem_rcDead_push
  have hmem_ne : ∀ r, r ≠ v → (r ∈ rcDead s.active q' ↔ r ∈ rcDead s.active q) := by
    intro r hr
    rw [hmem r]
    simp [hr]
  have hself : s'.heap v = some o' := RcObjects.write_heap_self s v o'
  have hheap : ∀ {r}, r ≠ v → s'.heap r = s.heap r := RcObjects.write_heap_of_ne s o'
  have hne : ∀ {r}, r ∈ rcDead s.active q → r ≠ v := by
    rintro r hr rfl
    exact hv hr
  have hactive : v ≠ s.active := by
    rintro rfl
    have := h.ne_zero ho
    exact hv (by simp [rcDead, this])
  -- The new dead object has visited none of its fields.
  have hcursor : rcCursor s' v o' = 0 := by
    have hsaved : rcBoundedSavedCursor o' = rcBoundedSavedCursor (rcBoundedSaveCursor o 0) := rfl
    unfold rcCursor
    rw [show s'.active = s.active from rfl, if_neg hactive, hsaved]
    refine rcBoundedSavedCursor_saveCursor (fun hk => ?_) (Nat.zero_le _) hcell.values_length
    rcases RcObject.kind_of_not_isLeaf hleaf with hkind | hkind
    · exact absurd hkind hk
    · exact hcell.map_length hkind
  have hnode : o.node = .branch 1 o.slots := by
    unfold RcObject.node
    simp [h1, hleaf]
  have hold : rcView s (rcDead s.active q) v = some (.branch 1 o.slots) := by
    rw [rcView_alive ho hv, hnode]
  have hview : rcView s' (rcDead s.active q') =
      Function.update (rcView s (rcDead s.active q)) v (some (.dead o.slots)) := by
    rw [rcView_eq_update (fun r hr => hheap hr) hmem_ne (fun _ _ _ _ => rfl),
      rcView_dead hself ((hmem v).mpr (Or.inl rfl)), hcursor, List.drop_zero,
      show o'.slots = o.slots from rcBoundedSaveCursor_slots o 0]
  have hshrink : RcShrink s.heap (rcDead s.active q) s'.heap (rcDead s.active q') := by
    refine RcShrink.update ho (Or.inr (by omega)) hmem_ne fun o'' ho'' => ?_
    cases ho''
    exact ⟨RcSame.saveCursor o 0 _, fun hr => absurd ((hmem v).mpr (Or.inl rfl)) hr⟩
  have hlinked := h.linked_update hv (some o')
  refine ⟨⟨h.fault, ?_, fun r o'' ho'' => ?_, fun r o'' ho'' hr => ?_, fun r hr => ?_, ?_,
    hlinked.1, ⟨rfl, h.ne_zero ho, o', hself, hlinked.2⟩, h.tail, ?_, ?_, h.frees_nodup,
    fun r => ?_⟩, hshrink, ?_, ?_⟩
  · have hkill : Counted 0 (Function.update (rcView s (rcDead s.active q)) v
        (some (.dead o.slots))) (Finset.range s.next) T := h.counted.kill hold rfl
    rw [← hview] at hkill
    exact hkill
  · refine RcCell.shrink hshrink ho'' (h.cells r) fun hr => ?_
    by_cases hrv : r = v
    · subst hrv
      rw [hself] at ho''
      cases ho''
      exact (rcBoundedSaveCursor_isLeaf o 0).trans hleaf
    · rw [hheap hrv] at ho''
      exact (h.cells r o'' ho'').branch ((hmem_ne r hrv).mp hr)
  · by_cases hrv : r = v
    · subst hrv
      rw [hself] at ho''
      cases ho''
      rw [hcursor]
      exact Nat.zero_le _
    · rw [hheap hrv] at ho''
      exact h.cursor r o'' ho'' ((hmem_ne r hrv).mp hr)
  · rcases (hmem r).mp hr with rfl | hr
    · rw [hself]
      exact Option.some_ne_none _
    · rw [hheap (hne hr)]
      exact h.dead r hr
  · have hperm : (rcDead s.active q').Perm (v :: rcDead s.active q) := by
      unfold rcDead
      rw [← List.append_assoc, ← List.append_assoc]
      exact List.perm_middle
    exact hperm.nodup_iff.mpr (List.nodup_cons.mpr ⟨hv, h.nodup⟩)
  · have htail : s'.recentTail = if s.recentTail = 0 then v else s.recentTail := rfl
    rw [htail, h.recentTail]
    rcases hrec : q.recent with _ | ⟨w, l⟩
    · simp [hq', hrec]
    · have hlast : (w :: l).getLastD 0 ≠ 0 := by
        rw [List.getLastD_eq_getLast?, List.getLast?_eq_some_getLast (List.cons_ne_nil w l)]
        have hlinked := h.recent
        rw [hrec] at hlinked
        exact (hlinked.exists_of_mem (List.getLast_mem (List.cons_ne_nil w l))).1
      rw [if_neg hlast, hq', hrec]
      simp [List.getLastD_eq_getLast?]
  · have hpending : s'.pending = s.pending + 1 := rfl
    have hlength : (rcDead s.active q').length = (rcDead s.active q).length + 1 := by
      simp [rcDead, hq']
      omega
    have hpending' := h.pending
    change s'.pending = (rcDead s.active q').length + extra
    omega
  · have hfrees : s'.frees = s.frees := rfl
    rw [hfrees, h.frees r]
    by_cases hrv : r = v
    · subst hrv
      simp [hself, ho]
    · rw [hheap hrv]
      rfl
  · rw [hview]
    refine Dropped.update ?_
    rw [hold]
    exact .kill _ _
  · rw [hview]
    exact (h.counted.spares_last hold rfl _).mono fun r hr => Multiset.mem_add.mpr (Or.inr hr)

/-! ## The drop -/

/-- An immortal object or the null pointer is not counted. -/
theorem cons_iff (hv : v = 0 ∨ ∃ o, s.heap v = some o ∧ v ∉ rcDead s.active q ∧ o.owners = 0) :
    RcObjectsInv s (v ::ₘ T) extra q ↔ RcObjectsInv s T extra q := by
  have hview : v = 0 ∨ rcView s (rcDead s.active q) v = some .immortal := by
    rcases hv with hv | ⟨o, ho, hdead, h0⟩
    · exact Or.inl hv
    · refine Or.inr ?_
      rw [rcView_alive ho hdead]
      unfold RcObject.node
      rw [if_pos h0]
  exact ⟨fun h => h.congr_tokens ((Counted.cons_iff hview).mp h.counted),
    fun h => h.congr_tokens ((Counted.cons_iff hview).mpr h.counted)⟩

/-- The members of a List of immortal references are not counted. -/
theorem drop_immortals {l : List ℕ} (h : RcObjectsInv s ((l : Multiset ℕ) + T) extra q)
    (hl : ∀ v ∈ l, v = 0 ∨ ∃ o, s.heap v = some o ∧ v ∉ rcDead s.active q ∧ o.owners = 0) :
    RcObjectsInv s T extra q := by
  induction l with
  | nil => simpa using h
  | cons v l ih =>
    have hcons : RcObjectsInv s (v ::ₘ ((l : Multiset ℕ) + T)) extra q := by
      rw [← Multiset.cons_add, Multiset.cons_coe]
      exact h
    exact ih ((cons_iff (hl v List.mem_cons_self)).mp hcons)
      fun w hw => hl w (List.mem_cons_of_mem _ hw)

end RcObjectsInv

/-- What a drop guarantees. -/
structure RcDropSpec (s s' : RcObjects) (q q' : RcQueues) (T : Multiset ℕ) (extra : ℕ) : Prop where
  /-- The invariant holds without the token. -/
  inv : RcObjectsInv s' T extra q'
  /-- The objects that are still there have kept their contents. -/
  shrink : RcShrink s.heap (rcDead s.active q) s'.heap (rcDead s'.active q')
  /-- The graph has only lost owners. -/
  dropped : Dropped (rcView s (rcDead s.active q)) (rcView s' (rcDead s'.active q'))
  /-- What the other tokens sustain is spared. -/
  spares : Spares (rcView s (rcDead s.active q)) (rcView s' (rcDead s'.active q')) T
  /-- The dead objects are untouched. -/
  dead : ∀ r ∈ rcDead s.active q, s'.heap r = s.heap r
  /-- Nothing is allocated. -/
  next : s'.next = s.next
  /-- The object in service stays. -/
  active : s'.active = s.active
  /-- So does its cursor. -/
  cursor : s'.cursor = s.cursor
  /-- The oldest batch stays. -/
  old : q'.old = q.old
  /-- So does its first object. -/
  head : s'.head = s.head
  /-- So does its last object. -/
  tail : s'.tail = s.tail
  /-- The turn stays. -/
  recentTurn : s'.recentTurn = s.recentTurn

namespace RcDropSpec

variable {s s' s'' : RcObjects} {q q' q'' : RcQueues} {T T' : Multiset ℕ} {extra : ℕ}

theorem refl (h : RcObjectsInv s T extra q) : RcDropSpec s s q q T extra :=
  ⟨h, RcShrink.refl _ _, Dropped.refl _, Spares.refl _ _, fun _ _ => rfl, rfl, rfl, rfl, rfl, rfl, rfl, rfl⟩

theorem trans (h : RcDropSpec s s' q q' T' extra) (h' : RcDropSpec s' s'' q' q'' T extra)
    (hT : ∀ r ∈ T, r ∈ T') (hdead : ∀ r ∈ rcDead s.active q, r ∈ rcDead s'.active q') :
    RcDropSpec s s'' q q'' T extra where
  inv := h'.inv
  shrink := h.shrink.trans h'.shrink
  dropped := h.dropped.trans h'.dropped
  spares := (h.spares.mono hT).trans h'.spares
  dead := fun r hr => (h'.dead r (hdead r hr)).trans (h.dead r hr)
  next := h'.next.trans h.next
  active := h'.active.trans h.active
  cursor := h'.cursor.trans h.cursor
  old := h'.old.trans h.old
  head := h'.head.trans h.head
  tail := h'.tail.trans h.tail
  recentTurn := h'.recentTurn.trans h.recentTurn

/-- Tokens that are not counted do not matter. -/
theorem of_tokens (h : RcDropSpec s s' q q' T' extra) (hT : ∀ r ∈ T, r ∈ T')
    (hinv : RcObjectsInv s' T extra q') : RcDropSpec s s' q q' T extra :=
  { h with
    inv := hinv
    spares := h.spares.mono hT }

end RcDropSpec

namespace RcObjectsInv

variable {s : RcObjects} {T T' : Multiset ℕ} {extra v : ℕ} {q : RcQueues} {o : RcObject}

/-- Lowering the count of a shared object. -/
theorem drop_shared (h : RcObjectsInv s (v ::ₘ T) extra q) (ho : s.heap v = some o)
    (hv : v ∉ rcDead s.active q) (h2 : 2 ≤ o.owners) :
    RcDropSpec s (s.write v { o with owners := o.owners - 1 }) q q T extra := by
  obtain ⟨n, hn⟩ : ∃ n, o.owners = n + 2 := ⟨o.owners - 2, by omega⟩
  have hn' : ({ o with owners := o.owners - 1 } : RcObject).owners = n + 1 := by
    change o.owners - 1 = n + 1
    omega
  have hcell := h.cells v o ho
  have hcounted : Counted 0 (Function.update (rcView s (rcDead s.active q)) v
      (some ({ o with owners := o.owners - 1 } : RcObject).node)) (Finset.range s.next) T := by
    refine h.counted.drop_shared (rcView_alive ho hv) (n := n) ?_ ?_ ?_
    · rw [RcObject.node_owners (by omega), hn]
    · rw [RcObject.node_owners (by omega), hn']
    · rw [RcObject.node_slots (by omega), RcObject.node_slots (by omega)]
      rfl
  have hshrink : RcShrink s.heap (rcDead s.active q)
      (s.write v { o with owners := o.owners - 1 }).heap (rcDead s.active q) := by
    refine RcShrink.update ho (Or.inr (by omega)) (fun _ _ => Iff.rfl) fun o' ho' => ?_
    cases ho'
    refine ⟨⟨rfl, rfl, rfl, rfl, rfl⟩, fun _ => ⟨hv, rfl, rfl, ?_⟩⟩
    rw [hn']
    exact Nat.succ_ne_zero n
  have hview : rcView (s.write v { o with owners := o.owners - 1 }) (rcDead s.active q) =
      Function.update (rcView s (rcDead s.active q)) v
        (some ({ o with owners := o.owners - 1 } : RcObject).node) := by
    rw [rcView_eq_update (fun r hr => RcObjects.write_heap_of_ne s _ hr) (fun _ _ => Iff.rfl)
      (fun _ _ _ _ => rfl), rcView_alive (RcObjects.write_heap_self s v _) hv]
  refine ⟨h.write ho hv (by omega) ?_ (fun hk => ⟨hk, rfl⟩) hcounted, hshrink, ?_, ?_,
    fun r hr => ?_, rfl, rfl, rfl, rfl, rfl, rfl, rfl⟩
  · exact RcCell.shrink hshrink (Function.update_self v _ _) (h.cells v) fun hr => absurd hr hv
  · change Dropped _ (rcView (s.write v { o with owners := o.owners - 1 }) (rcDead s.active q))
    rw [hview]
    refine Dropped.update ?_
    rw [rcView_alive ho hv]
    exact RcObject.nodeDrop_owners (by omega) (by omega)
  · change Spares _ (rcView (s.write v { o with owners := o.owners - 1 }) (rcDead s.active q)) _
    rw [hview]
    refine Spares.update_slots (rcView_alive ho hv) (RcObject.node_alive _) ?_ fun himmortal => ?_
    · rw [RcObject.node_slots (by omega), RcObject.node_slots (by omega)]
      rfl
    · have hmortal := RcObject.node_owners (o := o) (by omega)
      rw [himmortal] at hmortal
      cases hmortal
  · have hrv : r ≠ v := by
      rintro rfl
      exact hv hr
    exact RcObjects.write_heap_of_ne s _ hrv

/-- Destroying a leaf with its last owner hands over what it owns. -/
theorem drop_leaf (h : RcObjectsInv s (v ::ₘ T) extra q) (ho : s.heap v = some o)
    (hv : v ∉ rcDead s.active q) (h1 : o.owners = 1) (hleaf : o.isLeaf = true) :
    RcDropSpec s (s.free v) q q ((o.slots : Multiset ℕ) + T) extra := by
  have hnode : o.node = .leaf 1 o.slots := by
    unfold RcObject.node
    simp [h1, hleaf]
  have hold : rcView s (rcDead s.active q) v = some (.leaf 1 o.slots) := by
    rw [rcView_alive ho hv, hnode]
  obtain ⟨hinv, hshrink⟩ := h.free_alive ho hv (by omega) (h.counted.free_last hold rfl)
  have hview : rcView (s.free v) (rcDead s.active q) =
      Function.update (rcView s (rcDead s.active q)) v none := by
    rw [rcView_eq_update (fun r hr => RcObjects.free_heap_of_ne s hr) (fun _ _ => Iff.rfl)
      (fun _ _ _ _ => rfl), rcView_none (RcObjects.free_heap_self s v)]
  refine ⟨hinv, hshrink, ?_, ?_, fun r hr => ?_, rfl, rfl, rfl, rfl, rfl, rfl, rfl⟩
  · change Dropped _ (rcView (s.free v) (rcDead s.active q))
    rw [hview]
    refine Dropped.update ?_
    rw [hold]
    exact .free _ _
  · change Spares _ (rcView (s.free v) (rcDead s.active q)) _
    rw [hview]
    exact h.counted.spares_last hold rfl none
  · have hrv : r ≠ v := by
      rintro rfl
      exact hv hr
    exact RcObjects.free_heap_of_ne s hrv

/-- A destroyed List of immortal references hands over nothing that is counted. -/
theorem free_immortals (h : RcObjectsInv s T' extra q) (ho : s.heap v = some o)
    (hv : v ∉ rcDead s.active q) (hkind : o.kind = .referencesImmortal) {s' : RcObjects}
    (hspec : RcDropSpec s s' q q ((o.slots : Multiset ℕ) + T) extra) :
    RcObjectsInv s' T extra q := by
  refine hspec.inv.drop_immortals fun w hw => ?_
  by_cases hw0 : w = 0
  · exact Or.inl hw0
  · refine Or.inr ?_
    have h0 : o.owners ≠ 0 := by
      intro h0
      have := (h.cells v o ho).immortal hv h0
      simp_all
    have hslot : w ∈ o.node.slots := by
      rw [RcObject.node_slots h0]
      exact hw
    obtain ⟨y, hy, halive⟩ := h.counted.exists_of_slot (rcView_alive ho hv) hslot hw0
    obtain ⟨t, ht, htdead, -⟩ := exists_of_rcView_alive hy halive
    rw [RcObject.slots_of_references (Or.inr hkind)] at hw
    have hmem := (h.cells v o ho).members hkind w hw t ht
    obtain ⟨ht', hdead'⟩ := hspec.shrink.immortal w t ht htdead hmem.2
    exact ⟨t, ht', hdead', hmem.2⟩

/-- Only a Text that is a view needs more than one link of the chain. -/
theorem dropChain (h : RcObjectsInv s (v ::ₘ T) extra q) {fuel : ℕ}
    (hfuel : ∀ o, s.heap v = some o → o.kind = .text → o.backing ≠ 0 → 1 ≤ fuel) :
    ∃ q', RcDropSpec s (rcDropChain (fuel + 1) s v).2 q q' T extra := by
  induction fuel using Nat.strong_induction_on generalizing s v T with
  | h fuel ih =>
    by_cases hv0 : v = 0
    · subst hv0
      rw [rcDropChain_null]
      exact ⟨q, RcDropSpec.refl ((cons_iff (Or.inl rfl)).mp h)⟩
    obtain ⟨o, ho, hv⟩ := h.exists_of_mem (Multiset.mem_cons_self v T) hv0
    have hcases : o.owners = 0 ∨ o.owners = 1 ∨ 2 ≤ o.owners := by omega
    rcases hcases with h0 | h1 | h2
    · rw [rcDropChain_immortal hv0 ho h0]
      exact ⟨q, RcDropSpec.refl ((cons_iff (Or.inr ⟨o, ho, hv, h0⟩)).mp h)⟩
    · by_cases htext : o.kind = .text
      · have hspec := h.drop_leaf ho hv h1 (by simp [RcObject.isLeaf, htext])
        have hslots : (o.slots : Multiset ℕ) + T = o.backing ::ₘ T := by
          simp [RcObject.slots, htext]
        rw [hslots] at hspec
        rw [rcDropChain_text hv0 ho h1 htext]
        by_cases hb : o.backing = 0
        · rw [if_pos hb]
          exact ⟨q, hspec.of_tokens (fun r hr => Multiset.mem_cons_of_mem hr)
            ((cons_iff (Or.inl hb)).mp hspec.inv)⟩
        · -- The backing of a view owns its bytes, so the chain ends with it.
          rw [if_neg hb]
          obtain ⟨fuel, rfl⟩ : ∃ n, fuel = n + 1 := ⟨fuel - 1, by have := hfuel o ho htext hb; omega⟩
          obtain ⟨q', hspec'⟩ := ih fuel (Nat.lt_succ_self fuel) hspec.inv fun b hbo _ hbb => by
            obtain ⟨b', hb', hsame, -⟩ := hspec.shrink.object _ b hbo
            have hflat := (h.cells v o ho).flat htext b' hb'
            exact absurd (hsame.backing.trans hflat.2) hbb
          exact ⟨q', hspec.trans hspec' (fun r hr => Multiset.mem_cons_of_mem hr) fun _ hr => hr⟩
      · by_cases hleaf : o.isLeaf = true
        · rw [rcDropChain_leaf hv0 ho h1 htext hleaf]
          have hspec := h.drop_leaf ho hv h1 hleaf
          by_cases hkind : o.kind = .referencesImmortal
          · exact ⟨q, hspec.of_tokens (fun r hr => Multiset.mem_add.mpr (Or.inr hr))
              (h.free_immortals ho hv hkind hspec)⟩
          · have hslots : o.slots = [] := RcObject.slots_of_isLeaf hleaf htext hkind
            rw [hslots, Multiset.coe_nil, zero_add] at hspec
            exact ⟨q, hspec⟩
        · have hbranch : o.isLeaf = false := by simpa using hleaf
          rw [rcDropChain_branch hv0 ho h1 hbranch]
          obtain ⟨hinv, hshrink, hdropped, hspares⟩ := h.kill ho hv h1 hbranch
          refine ⟨_, hinv, hshrink, hdropped, hspares, fun r hr => ?_, rfl, rfl, rfl, rfl, rfl, rfl, rfl⟩
          have hrv : r ≠ v := by
            rintro rfl
            exact hv hr
          exact RcObjects.write_heap_of_ne s _ hrv
    · rw [rcDropChain_shared hv0 ho h2]
      exact ⟨q, h.drop_shared ho hv h2⟩

/-- Dropping an owner. -/
theorem drop (h : RcObjectsInv s (v ::ₘ T) extra q) (hnext : s.next ≠ 0) :
    ∃ q', RcDropSpec s (rcDrop s v).2 q q' T extra := by
  obtain ⟨fuel, hfuel⟩ : ∃ n, s.next = n + 1 := ⟨s.next - 1, by omega⟩
  unfold rcDrop
  rw [hfuel]
  refine h.dropChain fun o ho _ _ => ?_
  have := h.ne_zero ho
  have := h.lt_next ho
  omega

end RcObjectsInv

end Minyar

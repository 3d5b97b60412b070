import Minyar.Rc.Drop

/-!
# Units of work on dead objects

Every unit of work keeps the invariant, leaves the alive objects alone except that they may lose
owners, and pays exactly one step of the debt of the graph: it hands over one field of a dead
object, which is dropped, or destroys a dead object after its last field.
-/

namespace Minyar

open CountedGraph

/-! ## Progress -/

/-- What units of work that pay `n` steps of debt do to the objects. -/
structure RcEvolves (n : ℕ) (s s' : RcObjects) (q q' : RcQueues) (T : Multiset ℕ) : Prop where
  /-- The objects that are still there have kept their contents. -/
  shrink : RcShrink s.heap (rcDead s.active q) s'.heap (rcDead s'.active q')
  /-- Nothing is allocated. -/
  next : s'.next = s.next
  /-- The debt for tokens that stay is paid. -/
  debt : ∀ R : Multiset ℕ, (∀ r ∈ R, r ∈ T) →
    debt 0 (rcView s' (rcDead s'.active q')) (Finset.range s.next) R + n =
      debt 0 (rcView s (rcDead s.active q)) (Finset.range s.next) R
  /-- What tokens sustain is spared. -/
  spares : Spares (rcView s (rcDead s.active q)) (rcView s' (rcDead s'.active q')) T

namespace RcEvolves

variable {s s' s'' : RcObjects} {q q' q'' : RcQueues} {T : Multiset ℕ} {m n : ℕ}

theorem refl (s : RcObjects) (q : RcQueues) (T : Multiset ℕ) : RcEvolves 0 s s q q T :=
  ⟨RcShrink.refl _ _, rfl, fun _ _ => rfl, Spares.refl _ _⟩

theorem trans (h : RcEvolves m s s' q q' T) (h' : RcEvolves n s' s'' q' q'' T) :
    RcEvolves (m + n) s s'' q q'' T := by
  refine ⟨h.shrink.trans h'.shrink, h'.next.trans h.next, fun R hR => ?_,
    h.spares.trans h'.spares⟩
  have h1 := h.debt R hR
  have h2 := h'.debt R hR
  rw [h.next] at h2
  omega

end RcEvolves

/-- A drop pays nothing. -/
theorem RcDropSpec.evolves {s s' : RcObjects} {q q' : RcQueues} {T : Multiset ℕ} {extra : ℕ}
    (h : RcDropSpec s s' q q' T extra) : RcEvolves 0 s s' q q' T := by
  refine ⟨h.shrink, h.next, fun R hR => ?_, h.spares⟩
  have hcounted := h.inv.counted
  rw [h.next] at hcounted
  exact hcounted.debt_dropped h.dropped hR

/-- The oldest batch: the object in service and those that wait behind it. -/
def rcBatch (active : ℕ) (q : RcQueues) : List ℕ := (if active = 0 then [] else [active]) ++ q.old

/-- A drop leaves the batch alone. -/
theorem RcDropSpec.batch {s s' : RcObjects} {q q' : RcQueues} {T : Multiset ℕ} {extra : ℕ}
    (h : RcDropSpec s s' q q' T extra) : rcBatch s'.active q' = rcBatch s.active q := by
  unfold rcBatch
  rw [h.active, h.old]

/-! ## Fields of dead objects -/

/-- The next field that a dead object owns. -/
theorem RcObject.slots_drop {o : RcObject} (hleaf : o.isLeaf = false) {c : ℕ}
    (hc : c < o.values.length) : o.slots.drop c = o.child c :: o.slots.drop (c + 1) := by
  have hslots := RcObject.slots_of_not_isLeaf hleaf
  have hlen : c < o.slots.length := by simpa [hslots] using hc
  rw [List.drop_eq_getElem_cons hlen]
  simp [hslots]

/-- After its last field a dead object owns nothing. -/
theorem RcObject.slots_drop_length {o : RcObject} (hleaf : o.isLeaf = false) {c : ℕ}
    (hc : ¬ c < o.values.length) : o.slots.drop c = [] := by
  have hslots := RcObject.slots_of_not_isLeaf hleaf
  refine List.drop_eq_nil_of_le ?_
  simp [hslots]
  omega

/-- The last object of a queue after its first one is taken. -/
theorem RcLinked.tail {heap : ℕ → Option RcObject} {r head : ℕ} {rs : List ℕ}
    (h : RcLinked heap head rs) :
    (if head = 0 then 0 else (r :: rs).getLastD 0) = rs.getLastD 0 := by
  cases rs with
  | nil =>
    rw [if_pos (show head = 0 from h)]
    rfl
  | cons r' rs =>
    obtain ⟨rfl, hne, -⟩ := h
    rw [if_neg hne]
    simp [List.getLastD_eq_getLast?]

namespace RcObjectsInv

variable {s : RcObjects} {T T' : Multiset ℕ} {extra r : ℕ} {q : RcQueues} {o : RcObject}

/-- The object of a dead name. -/
theorem exists_of_dead (h : RcObjectsInv s T extra q) (hr : r ∈ rcDead s.active q) :
    ∃ o, s.heap r = some o ∧ o.isLeaf = false ∧ rcCursor s r o ≤ o.values.length := by
  rcases ho : s.heap r with _ | o
  · exact absurd ho (h.dead r hr)
  · exact ⟨o, rfl, (h.cells r o ho).branch hr, h.cursor r o ho hr⟩

/-- Pending objects are dead objects. -/
theorem dead_ne_nil (h : RcObjectsInv s T 0 q) (hpending : s.pending ≠ 0) :
    rcDead s.active q ≠ [] := by
  intro hnil
  have := h.pending
  rw [hnil] at this
  exact hpending this

theorem active_mem (hactive : s.active ≠ 0) : s.active ∈ rcDead s.active q := by
  simp [rcDead, hactive]

/-- The latest recent object in front of the other dead objects. -/
theorem recent_perm {old rs : List ℕ} (_ : RcObjectsInv s T extra ⟨old, r :: rs⟩) :
    (rcDead s.active ⟨old, r :: rs⟩).Perm (r :: rcDead s.active ⟨old, rs⟩) := by
  unfold rcDead
  rw [← List.append_assoc, ← List.append_assoc]
  exact List.perm_middle

/-- The latest recent object is not in service. -/
theorem recent_ne_active {old rs : List ℕ} (h : RcObjectsInv s T extra ⟨old, r :: rs⟩) :
    r ≠ s.active := by
  rintro rfl
  have hrest := List.nodup_cons.mp (h.recent_perm.nodup_iff.mp h.nodup)
  obtain ⟨-, hr0, -⟩ := h.recent
  exact hrest.1 (by simp [rcDead, hr0])

/-- Destroying a dead object after its last field. -/
theorem finish (h : RcObjectsInv s T extra q) (ho : s.heap r = some o)
    (hr : r ∈ rcDead s.active q) (hview : rcView s (rcDead s.active q) r = some (.dead []))
    (s' : RcObjects) (q' : RcQueues) (hperm : (rcDead s.active q).Perm (r :: rcDead s'.active q'))
    (hfault : s'.fault = s.fault) (hheap : s'.heap = Function.update s.heap r none)
    (hfrees : s'.frees = r :: s.frees) (hnext : s'.next = s.next)
    (hcursor : ∀ w o', w ∈ rcDead s'.active q' → rcCursor s' w o' = rcCursor s w o')
    (hold : RcLinked s.heap s'.head q'.old) (hrecent : RcLinked s.heap s'.recentHead q'.recent)
    (htail : s'.tail = q'.old.getLastD 0) (hrecentTail : s'.recentTail = q'.recent.getLastD 0)
    (hpending : s'.pending = s.pending - 1) :
    RcObjectsInv s' T extra q' ∧ RcEvolves 1 s s' q q' T := by
  have hcons : (r :: rcDead s'.active q').Nodup := hperm.nodup_iff.mp h.nodup
  obtain ⟨hnot, hnodup⟩ := List.nodup_cons.mp hcons
  have hself : s'.heap r = none := by rw [hheap, Function.update_self]
  have hother : ∀ {w}, w ≠ r → s'.heap w = s.heap w := fun hw => by
    rw [hheap, Function.update_of_ne hw]
  have hmem : ∀ w, w ≠ r → (w ∈ rcDead s'.active q' ↔ w ∈ rcDead s.active q) := by
    intro w hw
    rw [hperm.mem_iff, List.mem_cons]
    simp [hw]
  have hne : ∀ {w}, w ∈ rcDead s'.active q' → w ≠ r := by
    rintro w hw rfl
    exact hnot hw
  have hupdate : rcView s' (rcDead s'.active q') =
      Function.update (rcView s (rcDead s.active q)) r none := by
    rw [rcView_eq_update (fun w hw => hother hw) hmem
      (fun w o' hw hd => hcursor w o' ((hmem w hw).mpr hd)), rcView_none hself]
  have hshrink : RcShrink s.heap (rcDead s.active q) s'.heap (rcDead s'.active q') := by
    rw [hheap]
    exact RcShrink.update ho (Or.inl hr) hmem fun _ h => by cases h
  have hlinked : ∀ {l : List ℕ} {head}, RcLinked s.heap head l → (∀ w ∈ l, w ≠ r) →
      RcLinked s'.heap head l := fun hl hlr =>
    hl.congr fun w hw o' ho' => ⟨o', (hother (hlr w hw)).trans ho', rfl⟩
  refine ⟨⟨hfault.trans h.fault, ?_, fun w o' ho' => ?_, fun w o' ho' hw => ?_, fun w hw => ?_,
    hnodup, hlinked hold fun w hw => hne ?_, hlinked hrecent fun w hw => hne ?_, htail, hrecentTail,
    ?_, ?_, fun w => ?_⟩, hshrink, hnext, fun R hR => ?_, ?_⟩
  · rw [hupdate, hnext]
    exact h.counted.finish hview
  · refine RcCell.shrink hshrink ho' (h.cells w) fun hw => ?_
    rw [hother (hne hw)] at ho'
    exact (h.cells w o' ho').branch ((hmem w (hne hw)).mp hw)
  · rw [hcursor w o' hw]
    rw [hother (hne hw)] at ho'
    exact h.cursor w o' ho' ((hmem w (hne hw)).mp hw)
  · rw [hother (hne hw)]
    exact h.dead w ((hmem w (hne hw)).mp hw)
  · exact List.mem_append_right _ (List.mem_append_left _ hw)
  · exact List.mem_append_right _ (List.mem_append_right _ hw)
  · have hlength := hperm.length_eq
    have := h.pending
    rw [List.length_cons] at hlength
    omega
  · rw [hfrees]
    refine List.nodup_cons.mpr ⟨fun hfree => ?_, h.frees_nodup⟩
    have hgone := ((h.frees r).mp hfree).2.2
    rw [ho] at hgone
    cases hgone
  · rw [hfrees, List.mem_cons, h.frees w, hnext]
    by_cases hw : w = r
    · subst hw
      have := h.ne_zero ho
      have := h.lt_next ho
      simp only [true_or, hself, true_iff]
      exact ⟨by omega, this, trivial⟩
    · rw [hother hw]
      simp [hw]
  · rw [hupdate]
    exact h.counted.debt_finish hview hR
  · rw [hupdate]
    exact Spares.update_dead hview none

/-- Capturing the recent stack moves dead objects from one queue to the other. -/
theorem capture (h : RcObjectsInv s T extra q) (hactive : s.active = 0) (hhead : s.head = 0) :
    RcObjectsInv (rcBoundedCapture s) T extra ⟨q.recent, []⟩ ∧
      RcEvolves 0 s (rcBoundedCapture s) q ⟨q.recent, []⟩ T := by
  have hold : q.old = [] := h.old.eq_nil_iff.mpr hhead
  have hdead : rcDead (rcBoundedCapture s).active ⟨q.recent, []⟩ = rcDead s.active q := by
    simp [rcDead, rcBoundedCapture, hold, hactive]
  have hview : rcView (rcBoundedCapture s) (rcDead s.active q) = rcView s (rcDead s.active q) := rfl
  refine ⟨⟨h.fault, ?_, ?_, ?_, ?_, ?_, h.recent, rfl, h.recentTail, rfl, ?_, h.frees_nodup,
    h.frees⟩, ?_, rfl, fun R _ => ?_, ?_⟩
  · rw [hdead]
    exact h.counted
  · rw [hdead]
    exact h.cells
  · rw [hdead]
    exact h.cursor
  · rw [hdead]
    exact h.dead
  · rw [hdead]
    exact h.nodup
  · rw [hdead]
    exact h.pending
  · rw [hdead]
    exact RcShrink.refl _ _
  · rw [hdead, hview, Nat.add_zero]
  · rw [hdead, hview]
    exact Spares.refl _ _

/-- Rewriting the link or the cursor of a dead object. -/
theorem rewrite_dead (h : RcObjectsInv s T extra q) (ho : s.heap r = some o)
    (hr : r ∈ rcDead s.active q) (s' : RcObjects) (q' : RcQueues) {o' : RcObject}
    (hdead : rcDead s'.active q' = rcDead s.active q)
    (hheap : s'.heap = Function.update s.heap r (some o')) (hsame : RcSame o o')
    (hle : rcCursor s' r o' ≤ o'.values.length)
    (hcursor : ∀ w o'', w ≠ r → w ∈ rcDead s.active q → rcCursor s' w o'' = rcCursor s w o'')
    (hfault : s'.fault = s.fault) (hfrees : s'.frees = s.frees) (hnext : s'.next = s.next)
    (hpending : s'.pending = s.pending) (hold : RcLinked s'.heap s'.head q'.old)
    (hrecent : RcLinked s'.heap s'.recentHead q'.recent) (htail : s'.tail = q'.old.getLastD 0)
    (hrecentTail : s'.recentTail = q'.recent.getLastD 0)
    (hcounted : Counted 0 (rcView s' (rcDead s.active q)) (Finset.range s.next) T') :
    RcObjectsInv s' T' extra q' ∧
      RcShrink s.heap (rcDead s.active q) s'.heap (rcDead s'.active q') := by
  have hself : s'.heap r = some o' := by rw [hheap, Function.update_self]
  have hother : ∀ {w}, w ≠ r → s'.heap w = s.heap w := fun hw => by
    rw [hheap, Function.update_of_ne hw]
  have hshrink : RcShrink s.heap (rcDead s.active q) s'.heap (rcDead s.active q) := by
    rw [hheap]
    refine RcShrink.update ho (Or.inl hr) (fun _ _ => Iff.rfl) fun o'' ho'' => ?_
    cases ho''
    exact ⟨hsame, fun hr' => absurd hr hr'⟩
  rw [hdead]
  refine ⟨⟨hfault.trans h.fault, ?_, fun w o'' ho'' => ?_, fun w o'' ho'' hw => ?_, fun w hw => ?_,
    ?_, hold, hrecent, htail, hrecentTail, ?_, ?_, fun w => ?_⟩, hshrink⟩
  · rw [hdead, hnext]
    exact hcounted
  · rw [hdead]
    refine RcCell.shrink hshrink ho'' (h.cells w) fun hw => ?_
    by_cases hwr : w = r
    · subst hwr
      rw [hself] at ho''
      cases ho''
      exact hsame.isLeaf.trans ((h.cells w o ho).branch hr)
    · rw [hother hwr] at ho''
      exact (h.cells w o'' ho'').branch hw
  · rw [hdead] at hw
    by_cases hwr : w = r
    · subst hwr
      rw [hself] at ho''
      cases ho''
      exact hle
    · rw [hother hwr] at ho''
      rw [hcursor w o'' hwr hw]
      exact h.cursor w o'' ho'' hw
  · rw [hdead] at hw
    by_cases hwr : w = r
    · rw [hwr, hself]
      exact Option.some_ne_none _
    · rw [hother hwr]
      exact h.dead w hw
  · rw [hdead]
    exact h.nodup
  · rw [hdead, hpending]
    exact h.pending
  · rw [hfrees]
    exact h.frees_nodup
  · rw [hfrees, h.frees w, hnext]
    by_cases hwr : w = r
    · subst hwr
      simp [hself, ho]
    · rw [hother hwr]

/-- Taking the first object of the oldest batch into service. -/
theorem activate (h : RcObjectsInv s T extra q) (hactive : s.active = 0) (hhead : s.head ≠ 0) :
    ∃ rs, q.old = s.head :: rs ∧
      RcObjectsInv (rcBoundedActivate s) T extra ⟨rs, q.recent⟩ ∧
      RcEvolves 0 s (rcBoundedActivate s) q ⟨rs, q.recent⟩ T ∧
      (rcBoundedActivate s).active = s.head := by
  obtain ⟨old, recent⟩ := q
  rcases old with _ | ⟨r, rs⟩
  · exact absurd h.old hhead
  obtain ⟨hr, hr0, o, ho, hrs⟩ := h.old
  have hmem : r ∈ rcDead s.active ⟨r :: rs, recent⟩ := by
    simp [rcDead]
  have hne : ∀ {w}, w ∈ rcDead s.active ⟨r :: rs, recent⟩ → w ≠ s.active := by
    rintro w hw rfl
    obtain ⟨ow, how, -⟩ := h.exists_of_dead hw
    exact h.ne_zero how hactive
  have hnodup : r ∉ rs ∧ r ∉ recent := by
    have hnd := h.nodup
    simp only [rcDead, hactive, if_true, List.nil_append, List.cons_append, List.nodup_cons,
      List.mem_append, not_or] at hnd
    exact hnd.1
  have hs' : rcBoundedActivate s = { s.write r { o with owners := 0 } with
      active := r
      head := o.owners
      tail := if o.owners = 0 then 0 else s.tail
      cursor := rcBoundedSavedCursor o } := by
    unfold rcBoundedActivate
    rw [hr, ho]
  generalize rcBoundedActivate s = s' at hs'
  have hactive' : s'.active = r := by rw [hs']
  have hself : s'.heap r = some { o with owners := 0 } := by
    rw [hs']
    exact RcObjects.write_heap_self s r _
  have hother : ∀ {w}, w ≠ r → s'.heap w = s.heap w := fun hw => by
    rw [hs']
    exact RcObjects.write_heap_of_ne s _ hw
  have hdead : rcDead s'.active ⟨rs, recent⟩ = rcDead s.active ⟨r :: rs, recent⟩ := by
    simp [rcDead, hactive, hactive', hr0]
  -- The saved cursor becomes the cursor of the object in service.
  have hcursor_self : ∀ o' : RcObject, rcCursor s' r o' = rcCursor s r o := by
    intro o'
    unfold rcCursor
    rw [hactive', if_pos rfl, if_neg (hne hmem), hs']
  have hcursor : ∀ w o', w ≠ r → w ∈ rcDead s.active ⟨r :: rs, recent⟩ →
      rcCursor s' w o' = rcCursor s w o' := by
    intro w o' hw hd
    unfold rcCursor
    rw [hactive', if_neg hw, if_neg (hne hd)]
  have hview : rcView s' (rcDead s.active ⟨r :: rs, recent⟩) =
      rcView s (rcDead s.active ⟨r :: rs, recent⟩) := by
    rw [rcView_eq_update (fun w hw => hother hw) (fun _ _ => Iff.rfl) hcursor,
      rcView_dead hself hmem, hcursor_self]
    refine Function.update_eq_self_iff.mpr ?_
    rw [rcView_dead ho hmem]
    rfl
  have hlinked : ∀ {l : List ℕ} {head}, RcLinked s.heap head l → r ∉ l → RcLinked s'.heap head l :=
    fun hl hrl => hl.congr fun w hw o' ho' =>
      ⟨o', (hother fun hwr => hrl (hwr ▸ hw)).trans ho', rfl⟩
  have hrewrite : RcObjectsInv s' T extra ⟨rs, recent⟩ ∧
      RcShrink s.heap (rcDead s.active ⟨r :: rs, recent⟩) s'.heap
        (rcDead s'.active ⟨rs, recent⟩) := by
    refine h.rewrite_dead ho hmem _ _ hdead (by rw [hs']; rfl) (RcSame.owners o 0) ?_ hcursor
      (by rw [hs']; rfl) (by rw [hs']; rfl) (by rw [hs']; rfl) (by rw [hs']; rfl) ?_ ?_ ?_ ?_ ?_
    · rw [hcursor_self]
      exact h.cursor r o ho hmem
    · rw [show s'.head = o.owners by rw [hs']]
      exact hlinked hrs hnodup.1
    · rw [show s'.recentHead = s.recentHead by rw [hs']; rfl]
      exact hlinked h.recent hnodup.2
    · rw [hs']
      exact h.tail ▸ hrs.tail
    · rw [hs']
      exact h.recentTail
    · rw [hview]
      exact h.counted
  obtain ⟨hinv, hshrink⟩ := hrewrite
  refine ⟨rs, by rw [hr], hinv, ⟨hshrink, by rw [hs']; rfl, fun R _ => ?_, ?_⟩,
    hactive'.trans hr.symm⟩
  · rw [hdead, hview, Nat.add_zero]
  · rw [hdead, hview]
    exact Spares.refl _ _

/-- Visiting the next field of the object in service hands it over as a token. -/
theorem visit_active (h : RcObjectsInv s T extra q) (hactive : s.active ≠ 0)
    (ho : s.heap s.active = some o) (hleaf : o.isLeaf = false) (hlt : s.cursor < o.values.length) :
    RcObjectsInv { s with cursor := s.cursor + 1 } (o.child s.cursor ::ₘ T) extra q ∧
      RcEvolves 1 s { s with cursor := s.cursor + 1 } q q T := by
  have hcursor : rcCursor s s.active o = s.cursor := if_pos rfl
  have hmem : s.active ∈ rcDead s.active q := active_mem hactive
  have hold := rcView_dead ho hmem
  rw [hcursor, RcObject.slots_drop hleaf hlt] at hold
  set s₁ : RcObjects := { s with cursor := s.cursor + 1 } with hs₁
  have hview : rcView s₁ (rcDead s.active q) = Function.update (rcView s (rcDead s.active q))
      s.active (some (.dead (o.slots.drop (s.cursor + 1)))) := by
    have hself : rcView s₁ (rcDead s.active q) s.active =
        some (.dead (o.slots.drop (s.cursor + 1))) := by
      rw [rcView_dead (show s₁.heap s.active = some o from ho) hmem]
      simp [rcCursor, hs₁]
    rw [← hself]
    exact rcView_eq_update (fun _ _ => rfl) (fun _ _ => Iff.rfl)
      fun w o' hw _ => (if_neg hw).trans (if_neg hw).symm
  have hcounted : Counted 0 (rcView s₁ (rcDead s.active q)) (Finset.range s.next)
      (o.child s.cursor ::ₘ T) := by
    rw [hview]
    exact h.counted.advance hold
  refine ⟨{ h with
    counted := hcounted
    cursor := fun w o' ho' hw => ?_ }, RcShrink.refl _ _, rfl, fun R hR => ?_, ?_⟩
  · by_cases hwa : w = s.active
    · subst hwa
      rw [show s₁.heap = s.heap from rfl, ho] at ho'
      cases ho'
      simp only [rcCursor, hs₁, if_true]
      omega
    · have := h.cursor w o' ho' hw
      simp only [rcCursor, hs₁, if_neg hwa] at this ⊢
      exact this
  · change debt 0 (rcView s₁ (rcDead s.active q)) _ R + 1 = _
    rw [hview]
    exact h.counted.debt_advance hold hR
  · change Spares _ (rcView s₁ (rcDead s.active q)) T
    rw [hview]
    exact Spares.update_dead hold _

/-- One unit of work on the object in service. -/
theorem activeUnit (h : RcObjectsInv s T extra q) (hactive : s.active ≠ 0) :
    ∃ q', RcObjectsInv (rcBoundedOldObjectUnit s) T extra q' ∧
      RcEvolves 1 s (rcBoundedOldObjectUnit s) q q' T ∧
      rcBatch (rcBoundedOldObjectUnit s).active q' <:+ rcBatch s.active q := by
  obtain ⟨o, ho, hleaf, -⟩ := h.exists_of_dead (active_mem (q := q) hactive)
  have hcursor : rcCursor s s.active o = s.cursor := if_pos rfl
  have hkind : o.kind = .references ∨ o.kind = .record := RcObject.kind_of_not_isLeaf hleaf
  have hmem : s.active ∈ rcDead s.active q := active_mem hactive
  by_cases hlt : s.cursor < o.values.length
  · -- The next field is handed over as a token, which is dropped.
    have hunit : rcBoundedOldObjectUnit s =
        (rcDrop { s with cursor := s.cursor + 1 } (o.child s.cursor)).2 := by
      unfold rcBoundedOldObjectUnit
      simp only [if_neg hactive, ho, hkind, hlt, and_self, if_true]
    obtain ⟨hinv, hevolves⟩ := h.visit_active hactive ho hleaf hlt
    rw [hunit]
    have hnext : ({ s with cursor := s.cursor + 1 } : RcObjects).next ≠ 0 := by
      have : s.active < s.next := h.lt_next ho
      exact Nat.ne_of_gt (Nat.lt_of_le_of_lt (Nat.zero_le _) this)
    obtain ⟨q', hspec⟩ := hinv.drop hnext
    refine ⟨q', hspec.inv, hevolves.trans hspec.evolves, ?_⟩
    rw [hspec.batch]
  · -- After the last field the object is destroyed.
    have hunit : rcBoundedOldObjectUnit s =
        { s.free s.active with pending := s.pending - 1, active := 0 } := by
      unfold rcBoundedOldObjectUnit
      simp only [if_neg hactive, ho, hlt, and_false, if_false]
      rfl
    have hold := rcView_dead ho hmem
    rw [hcursor, RcObject.slots_drop_length hleaf hlt] at hold
    have hperm : (rcDead s.active q).Perm (s.active :: rcDead 0 q) := by
      simp [rcDead, hactive]
    have hcursor' : ∀ w o', w ∈ rcDead 0 q → rcCursor { s.free s.active with
        pending := s.pending - 1, active := 0 } w o' = rcCursor s w o' := by
      intro w o' hw
      have hdisjoint := (List.nodup_cons.mp (hperm.nodup_iff.mp h.nodup)).1
      have hwa : w ≠ s.active := by
        rintro rfl
        exact hdisjoint hw
      have hw0 : w ≠ 0 := by
        have hw' : w ∈ rcDead s.active q := hperm.mem_iff.mpr (List.mem_cons_of_mem _ hw)
        obtain ⟨ow, how, -⟩ := h.exists_of_dead hw'
        exact h.ne_zero how
      unfold rcCursor
      rw [if_neg hwa]
      exact if_neg hw0
    obtain ⟨hinv, hevolves⟩ := h.finish ho hmem hold { s.free s.active with
      pending := s.pending - 1, active := 0 } q hperm rfl rfl rfl rfl hcursor'
      h.old h.recent h.tail h.recentTail rfl
    rw [hunit]
    exact ⟨q, hinv, hevolves, List.suffix_append _ _⟩

/-- One unit of work on the oldest batch. -/
theorem oldObjectUnit (h : RcObjectsInv s T extra q) (hready : s.active ≠ 0 ∨ s.head ≠ 0) :
    ∃ q', RcObjectsInv (rcBoundedOldObjectUnit s) T extra q' ∧
      RcEvolves 1 s (rcBoundedOldObjectUnit s) q q' T ∧
      rcBatch (rcBoundedOldObjectUnit s).active q' <:+ rcBatch s.active q := by
  by_cases hactive : s.active = 0
  · have hhead : s.head ≠ 0 := hready.resolve_left (not_not_intro hactive)
    obtain ⟨rs, hold, hinv, hevolves, hact⟩ := h.activate hactive hhead
    have hact' : (rcBoundedActivate s).active ≠ 0 := by
      rw [hact]
      exact hhead
    have hunit : rcBoundedOldObjectUnit s = rcBoundedOldObjectUnit (rcBoundedActivate s) := by
      unfold rcBoundedOldObjectUnit
      simp only [if_pos hactive, if_neg hact']
    obtain ⟨q', hinv', hevolves', hbatch⟩ := hinv.activeUnit hact'
    rw [hunit]
    refine ⟨q', hinv', ?_, ?_⟩
    · have := hevolves.trans hevolves'
      rwa [Nat.zero_add] at this
    · -- The first object of the batch has only changed its place.
      have hsame : rcBatch (rcBoundedActivate s).active ⟨rs, q.recent⟩ = rcBatch s.active q := by
        rw [hact]
        simp [rcBatch, hactive, hhead, hold]
      rw [← hsame]
      exact hbatch
  · exact h.activeUnit hactive

/-- Visiting the next field of the latest recent object hands it over as a token. -/
theorem visit_recent {old rs : List ℕ} (h : RcObjectsInv s T extra ⟨old, r :: rs⟩)
    (ho : s.heap r = some o) (hlt : rcBoundedSavedCursor o < o.values.length) :
    RcObjectsInv (s.write r (rcBoundedSaveCursor o (rcBoundedSavedCursor o + 1)))
        (o.child (rcBoundedSavedCursor o) ::ₘ T) extra ⟨old, r :: rs⟩ ∧
      RcEvolves 1 s (s.write r (rcBoundedSaveCursor o (rcBoundedSavedCursor o + 1)))
        ⟨old, r :: rs⟩ ⟨old, r :: rs⟩ T := by
  have hmem : r ∈ rcDead s.active ⟨old, r :: rs⟩ := by
    simp [rcDead]
  have hleaf : o.isLeaf = false := (h.cells r o ho).branch hmem
  have hra := h.recent_ne_active
  have hcursor : rcCursor s r o = rcBoundedSavedCursor o := if_neg hra
  have hold := rcView_dead ho hmem
  rw [hcursor, RcObject.slots_drop hleaf hlt] at hold
  set c := rcBoundedSavedCursor o with hc
  set o' := rcBoundedSaveCursor o (c + 1) with ho'
  have hsaved : rcBoundedSavedCursor o' = c + 1 := by
    refine rcBoundedSavedCursor_saveCursor (fun hk => ?_) hlt (h.cells r o ho).values_length
    rcases RcObject.kind_of_not_isLeaf hleaf with hkind | hkind
    · exact absurd hkind hk
    · exact (h.cells r o ho).map_length hkind
  have hcursor' : rcCursor (s.write r o') r o' = c + 1 := by
    unfold rcCursor
    rw [if_neg (show ¬ r = (s.write r o').active from hra), hsaved]
  have hview : rcView (s.write r o') (rcDead s.active ⟨old, r :: rs⟩) =
      Function.update (rcView s (rcDead s.active ⟨old, r :: rs⟩)) r
        (some (.dead (o.slots.drop (c + 1)))) := by
    rw [rcView_eq_update (fun w hw => RcObjects.write_heap_of_ne s o' hw) (fun _ _ => Iff.rfl)
      (fun _ _ _ _ => rfl), rcView_dead (RcObjects.write_heap_self s r o') hmem, hcursor',
      show o'.slots = o.slots from rcBoundedSaveCursor_slots o (c + 1)]
  have howners : o'.owners = o.owners := rcBoundedSaveCursor_owners o (c + 1)
  have hlinked : ∀ {l : List ℕ} {head}, RcLinked s.heap head l →
      RcLinked (s.write r o').heap head l := fun hl => hl.congr fun w _ ow how => by
    by_cases hwr : w = r
    · subst hwr
      rw [ho] at how
      cases how
      exact ⟨o', RcObjects.write_heap_self s w o', howners⟩
    · exact ⟨ow, (RcObjects.write_heap_of_ne s o' hwr).trans how, rfl⟩
  obtain ⟨hinv, hshrink⟩ := h.rewrite_dead ho hmem (s.write r o') ⟨old, r :: rs⟩ rfl
    rfl (RcSame.saveCursor o (c + 1) o'.owners) (by rw [hcursor', rcBoundedSaveCursor_values]; exact hlt)
    (fun _ _ _ _ => rfl) rfl rfl rfl rfl (hlinked h.old) (hlinked h.recent) h.tail h.recentTail
    (by rw [hview]; exact h.counted.advance hold)
  refine ⟨hinv, hshrink, rfl, fun R hR => ?_, ?_⟩
  · change debt 0 (rcView (s.write r o') (rcDead s.active _)) _ R + 1 = _
    rw [hview]
    exact h.counted.debt_advance hold hR
  · change Spares _ (rcView (s.write r o') (rcDead s.active _)) T
    rw [hview]
    exact Spares.update_dead hold _

/-- One unit of work on the recent stack. -/
theorem recentObjectUnit (h : RcObjectsInv s T extra q) (hready : s.recentHead ≠ 0) :
    ∃ q', RcObjectsInv (rcBoundedRecentObjectUnit s) T extra q' ∧
      RcEvolves 1 s (rcBoundedRecentObjectUnit s) q q' T ∧
      rcBatch (rcBoundedRecentObjectUnit s).active q' <:+ rcBatch s.active q := by
  obtain ⟨old, recent⟩ := q
  rcases recent with _ | ⟨r, rs⟩
  · exact absurd h.recent hready
  obtain ⟨hr, hr0, o, ho, hrs⟩ := h.recent
  have hmem : r ∈ rcDead s.active ⟨old, r :: rs⟩ := by
    simp [rcDead]
  have hleaf : o.isLeaf = false := (h.cells r o ho).branch hmem
  have hcursor : rcCursor s r o = rcBoundedSavedCursor o := if_neg h.recent_ne_active
  by_cases hlt : rcBoundedSavedCursor o < o.values.length
  · have hunit : rcBoundedRecentObjectUnit s =
        (rcDrop (s.write r (rcBoundedSaveCursor o (rcBoundedSavedCursor o + 1)))
          (o.child (rcBoundedSavedCursor o))).2 := by
      unfold rcBoundedRecentObjectUnit
      rw [hr, ho]
      exact if_pos hlt
    rw [hunit]
    obtain ⟨hinv, hevolves⟩ := h.visit_recent ho hlt
    have hnext : s.next ≠ 0 := by
      have : r < s.next := h.lt_next ho
      exact Nat.ne_of_gt (Nat.lt_of_le_of_lt (Nat.zero_le _) this)
    obtain ⟨q', hspec⟩ := hinv.drop hnext
    refine ⟨q', hspec.inv, hevolves.trans hspec.evolves, ?_⟩
    rw [hspec.batch]
    exact List.suffix_refl _
  · have hunit : rcBoundedRecentObjectUnit s = { s.free r with
        recentHead := o.owners
        recentTail := if o.owners = 0 then 0 else s.recentTail
        pending := s.pending - 1 } := by
      unfold rcBoundedRecentObjectUnit
      simp only [hr, ho, if_neg hlt]
      rfl
    have hold := rcView_dead ho hmem
    rw [hcursor, RcObject.slots_drop_length hleaf hlt] at hold
    rw [hunit]
    obtain ⟨hinv, hevolves⟩ := h.finish ho hmem hold { s.free r with
        recentHead := o.owners
        recentTail := if o.owners = 0 then 0 else s.recentTail
        pending := s.pending - 1 } ⟨old, rs⟩ h.recent_perm rfl rfl rfl rfl
      (fun _ _ _ => rfl) h.old hrs h.tail (h.recentTail ▸ hrs.tail) rfl
    exact ⟨⟨old, rs⟩, hinv, hevolves, List.suffix_refl _⟩

/-- The turn is a scheduling hint that no invariant mentions. -/
theorem with_turn (h : RcObjectsInv s T extra q) (turn : Bool) :
    RcObjectsInv { s with recentTurn := turn } T extra q :=
  { h with }

/-- One unit of work on the dead objects, when there are any: no object enters the batch, unless the
batch is exhausted and the recent stack becomes the next one. -/
theorem objectUnit_batch (h : RcObjectsInv s T extra q) (hready : rcDead s.active q ≠ []) :
    ∃ q', RcObjectsInv (rcBoundedObjectUnit s) T extra q' ∧
      RcEvolves 1 s (rcBoundedObjectUnit s) q q' T ∧
      (rcBatch (rcBoundedObjectUnit s).active q' <:+ rcBatch s.active q ∨
        (rcBatch s.active q = [] ∧ rcBatch (rcBoundedObjectUnit s).active q' <:+ q.recent)) := by
  -- After the capture the batch is not exhausted.
  have hcapture : ∃ s₁ q₁, s₁ = (if s.active = 0 ∧ s.head = 0 then rcBoundedCapture s else s) ∧
      RcObjectsInv s₁ T extra q₁ ∧ RcEvolves 0 s s₁ q q₁ T ∧ (s₁.active ≠ 0 ∨ s₁.head ≠ 0) ∧
      (rcBatch s₁.active q₁ = rcBatch s.active q ∨
        (rcBatch s.active q = [] ∧ rcBatch s₁.active q₁ = q.recent)) := by
    by_cases hempty : s.active = 0 ∧ s.head = 0
    · obtain ⟨hinv, hevolves⟩ := h.capture hempty.1 hempty.2
      have hold : q.old = [] := h.old.eq_nil_iff.mpr hempty.2
      refine ⟨_, _, (if_pos hempty).symm, hinv, hevolves, Or.inr fun hzero => hready ?_,
        Or.inr ⟨?_, ?_⟩⟩
      · have hrecent : q.recent = [] := h.recent.eq_nil_iff.mpr hzero
        simp [rcDead, hempty.1, hold, hrecent]
      · simp [rcBatch, hempty.1, hold]
      · simp [rcBatch, rcBoundedCapture, hempty.1]
    · exact ⟨s, q, (if_neg hempty).symm, h, RcEvolves.refl s q T, by tauto, Or.inl rfl⟩
  obtain ⟨s₁, q₁, hs₁, hinv, hevolves, hready₁, hbatch₁⟩ := hcapture
  have hunit : ∀ {s₂ : RcObjects}, (∃ q', RcObjectsInv s₂ T extra q' ∧
      RcEvolves 1 { s₁ with recentTurn := !s₁.recentTurn } s₂ q₁ q' T ∧
      rcBatch s₂.active q' <:+ rcBatch s₁.active q₁) →
      ∃ q', RcObjectsInv s₂ T extra q' ∧ RcEvolves 1 s s₂ q q' T ∧
        (rcBatch s₂.active q' <:+ rcBatch s.active q ∨
          (rcBatch s.active q = [] ∧ rcBatch s₂.active q' <:+ q.recent)) := by
    rintro s₂ ⟨q', hinv', hevolves', hbatch'⟩
    have hturn : RcEvolves 0 s₁ { s₁ with recentTurn := !s₁.recentTurn } q₁ q₁ T :=
      ⟨RcShrink.refl _ _, rfl, fun _ _ => rfl, Spares.refl _ _⟩
    refine ⟨q', hinv', (hevolves.trans hturn).trans hevolves', ?_⟩
    rcases hbatch₁ with hsame | ⟨hnil, hrecent⟩
    · exact Or.inl (hsame ▸ hbatch')
    · exact Or.inr ⟨hnil, hrecent ▸ hbatch'⟩
  unfold rcBoundedObjectUnit
  simp only [← hs₁]
  refine hunit ?_
  have hinv₁ := hinv.with_turn (!s₁.recentTurn)
  split_ifs with hrecent hunary
  · exact hinv₁.oldObjectUnit (Or.inl hunary.2.1)
  · exact hinv₁.recentObjectUnit hrecent.2
  · exact hinv₁.oldObjectUnit hready₁

/-- One unit of work on the dead objects keeps the invariant and pays one step. -/
theorem objectUnit (h : RcObjectsInv s T extra q) (hready : rcDead s.active q ≠ []) :
    ∃ q', RcObjectsInv (rcBoundedObjectUnit s) T extra q' ∧
      RcEvolves 1 s (rcBoundedObjectUnit s) q q' T := by
  obtain ⟨q', hinv, hevolves, -⟩ := h.objectUnit_batch hready
  exact ⟨q', hinv, hevolves⟩

end RcObjectsInv

end Minyar

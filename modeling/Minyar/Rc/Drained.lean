import Minyar.Rc.Run

/-!
# Drained states

When nothing is pending, the objects that are left are exactly those that the ledger sustains, and
each counts exactly the owners that the ledger records.  A drained state is therefore determined by
the ledger, whatever the service has done on the way to it.
-/

namespace Minyar

open CountedGraph

/-- What is left of an object: its contents and its count. -/
def RcState.survivor (s : RcState) (v : ℕ) : Option (RcContents × ℕ) :=
  (s.objects.heap v).map fun o => (o.contents, o.owners)

/-! ## What is left -/

namespace RcRefines

variable {s s' : RcState} {L L' : RcLedger} {q q' : RcQueues} {v : ℕ} {o : RcObject}

/-- The objects of a drained state sustain one another in the ledger. -/
theorem sustained_of_drained (h : RcRefines s L q) (hpending : s.objects.pending = 0) :
    L.Sustained {v | s.objects.heap v ≠ none} := by
  obtain ⟨hdead, -, -, htokens⟩ := h.inv.drained hpending
  have halive : ∀ v, v ∉ rcDead s.objects.active q := fun v => by
    rw [hdead]
    exact List.not_mem_nil
  have hcounted := h.inv.objects.counted
  rw [htokens, h.held] at hcounted
  intro v hv
  obtain ⟨o, ho⟩ := Option.ne_none_iff_exists'.mp hv
  refine ⟨h.inv.objects.ne_zero ho, ?_⟩
  have hview := rcView_alive ho (halive v)
  obtain ⟨x, hx, -, howner⟩ := hcounted.sustained (rcGraph_ne_dead hdead) v
    (show rcGraph s q v ≠ none from fun hn => by rw [rcGraph, hview] at hn; cases hn)
  rw [hview] at hx
  cases hx
  refine howner.imp (fun himmortal => ?_) (Or.imp id ?_)
  · refine h.immortal_of_owners ho (halive v) ?_
    by_contra hmortal
    have := RcObject.node_owners hmortal
    rw [himmortal] at this
    cases this
  · rintro ⟨w, -, y, hy, hslot⟩
    rcases ht : s.objects.heap w with _ | t
    · rw [rcView_none ht] at hy
      cases hy
    · rw [rcView_alive ht (halive w)] at hy
      cases hy
      refine ⟨w, by simp [ht], t.contents, h.heap w t ht (halive w), ?_⟩
      rw [RcObject.contents_slots (h.inv.objects.cells w t ht).map_length]
      by_cases h0 : t.owners = 0
      · rw [RcObject.node, if_pos h0] at hslot
        cases hslot
      · rwa [RcObject.node_slots h0] at hslot

/-- The objects of a drained state are those that the ledger sustains. -/
theorem exists_iff_kept (h : RcRefines s L q) (hpending : s.objects.pending = 0) :
    s.objects.heap v ≠ none ↔ L.Kept v := by
  refine ⟨fun hv => ⟨_, h.sustained_of_drained hpending, hv⟩, fun hv => ?_⟩
  obtain ⟨o, ho, -⟩ := h.kept v hv
  rw [ho]
  exact Option.some_ne_none _

/-- An alive object is immortal exactly when its contents say so. -/
theorem owners_eq_zero_iff (h : RcRefines s L q) (ho : s.objects.heap v = some o)
    (hv : v ∉ rcDead s.objects.active q) : o.owners = 0 ↔ L.Immortal v := by
  refine ⟨h.immortal_of_owners ho hv, fun himmortal => ?_⟩
  obtain ⟨o', ho', -, h0⟩ := h.immortal v himmortal
  rw [ho] at ho'
  cases ho'
  exact h0

/-- What the objects of a drained state own is determined by the ledger. -/
theorem slotOwners_eq (h : RcRefines s L q) (h' : RcRefines s' L' q')
    (hpending : s.objects.pending = 0) (hpending' : s'.objects.pending = 0)
    (hheap : L'.heap = L.heap) (howners : L'.owners = L.owners) (v r : ℕ) :
    rcSlotOwners s' [] v r = rcSlotOwners s [] v r := by
  have hkept : ∀ w, L'.Kept w ↔ L.Kept w := fun w => by
    unfold RcLedger.Kept RcLedger.Sustained RcLedger.Immortal
    rw [hheap, howners]
  obtain ⟨hdead, -⟩ := h.inv.drained hpending
  obtain ⟨hdead', -⟩ := h'.inv.drained hpending'
  unfold rcSlotOwners
  rcases ho : s.objects.heap r with _ | o
  · have hgone : ¬ L'.Kept r := fun hr =>
      (h.exists_iff_kept hpending).mpr ((hkept r).mp hr) ho
    have ho' : s'.objects.heap r = none := by
      by_contra hne
      exact hgone ((h'.exists_iff_kept hpending').mp hne)
    rw [ho']
  · have hr : s'.objects.heap r ≠ none := by
      refine (h'.exists_iff_kept hpending').mpr ((hkept r).mpr ((h.exists_iff_kept hpending).mp ?_))
      rw [ho]
      exact Option.some_ne_none _
    obtain ⟨o', ho'⟩ := Option.ne_none_iff_exists'.mp hr
    have hcontents := h.heap r o ho (by simp [hdead])
    have hslots := h'.slots_eq ho' (by simp [hdead']) (hheap ▸ hcontents)
    rw [RcObject.contents_slots (h.inv.objects.cells r o ho).map_length] at hslots
    rw [ho']
    simp only [List.not_mem_nil, if_false, hslots]

/-- The owners in a drained state. -/
theorem ownerCount_of_drained (h : RcRefines s L q) (hpending : s.objects.pending = 0) (v : ℕ) :
    rcOwnerCount s L.held [] v =
      L.owners.count v + ((List.range L.next).map (rcSlotOwners s [] v)).sum := by
  obtain ⟨-, hframes, hchunks, -⟩ := h.inv.drained hpending
  have htokens := rcFrames_tokens h.frames
  unfold RcFrame.tokens at htokens
  unfold rcOwnerCount RcLedger.owners
  rw [hframes, hchunks, htokens, h.next]
  simp

/-- Drained states of ledgers with the same objects and the same owners agree: the same objects are
left, with the same contents and the same counts. -/
theorem survivor_eq (h : RcRefines s L q) (h' : RcRefines s' L' q')
    (hpending : s.objects.pending = 0) (hpending' : s'.objects.pending = 0)
    (hheap : L'.heap = L.heap) (hnext : L'.next = L.next) (howners : L'.owners = L.owners) (v : ℕ) :
    s'.survivor v = s.survivor v := by
  have hkept : L'.Kept v ↔ L.Kept v := by
    unfold RcLedger.Kept RcLedger.Sustained RcLedger.Immortal
    rw [hheap, howners]
  obtain ⟨hdead, -⟩ := h.inv.drained hpending
  obtain ⟨hdead', -⟩ := h'.inv.drained hpending'
  unfold RcState.survivor
  by_cases hgone : L.Kept v
  · obtain ⟨o, ho, hv⟩ := h.kept v hgone
    obtain ⟨o', ho', hv'⟩ := h'.kept v (hkept.mpr hgone)
    have hcontents : o'.contents = o.contents := by
      have hx := h.heap v o ho hv
      rw [← hheap, h'.heap v o' ho' hv'] at hx
      exact Option.some.inj hx
    have hzero : o'.owners = 0 ↔ o.owners = 0 := by
      rw [h.owners_eq_zero_iff ho hv, h'.owners_eq_zero_iff ho' hv']
      unfold RcLedger.Immortal
      rw [hheap]
    have hcount : o'.owners = o.owners := by
      have hlive := h.inv.exact.live v o ho hv
      have hlive' := h'.inv.exact.live v o' ho' hv'
      rw [hdead, h.ownerCount_of_drained hpending] at hlive
      rw [hdead', h'.ownerCount_of_drained hpending', hnext, howners,
        List.map_congr_left fun r _ =>
          h.slotOwners_eq h' hpending hpending' hheap howners v r] at hlive'
      omega
    rw [ho, ho', Option.map_some, Option.map_some, hcontents, hcount]
  · have hnone : s.objects.heap v = none := by
      by_contra hne
      exact hgone ((h.exists_iff_kept hpending).mp hne)
    have hnone' : s'.objects.heap v = none := by
      by_contra hne
      exact hgone (hkept.mp ((h'.exists_iff_kept hpending').mp hne))
    rw [hnone, hnone']

end RcRefines

/-! ## Polls drain -/

/-- Polls keep the refinement. -/
theorem RcRefines.polls {s : RcState} {L : RcLedger} {q : RcQueues} (h : RcRefines s L q)
    (c : RcConfig) (budgets : List ℕ) : ∃ q', RcRefines (rcPolls c budgets s).2 L q' := by
  induction budgets generalizing s q with
  | nil => exact ⟨q, h⟩
  | cons budget budgets ih =>
    obtain ⟨q₁, h₁⟩ := h.poll c budget
    exact ih h₁

/-- Nothing is served when nothing is pending. -/
theorem rcReferencePoll_idle {s : RcState} (c : RcConfig) (budget : ℕ)
    (hpending : s.objects.pending = 0) : rcReferencePoll c budget s = (0, s) := by
  cases budget with
  | zero => rfl
  | succ budget => rw [rcReferencePoll, if_pos hpending]

/-- Polls leave a drained state alone. -/
theorem RcInv.polls_idle {s : RcState} {E : Multiset ℕ} {q : RcQueues} (h : RcInv s E q)
    (c : RcConfig) (hpending : s.objects.pending = 0) (budgets : List ℕ) :
    (rcPolls c budgets s).2 = s := by
  induction budgets with
  | nil => rfl
  | cons budget budgets ih =>
    rw [rcPolls, h.poll_eq_reference, rcReferencePoll_idle c _ hpending]
    exact ih

/-- As many polls as there is outstanding work drain everything. -/
theorem RcInv.polls_drain {s : RcState} {E : Multiset ℕ} {q : RcQueues} (h : RcInv s E q)
    (c : RcConfig) {budgets : List ℕ} (hbudgets : ∀ b ∈ budgets, 1 ≤ b)
    (hlength : rcOutstanding s E q ≤ budgets.length) :
    (rcPolls c budgets s).2.objects.pending = 0 := by
  induction budgets generalizing s q with
  | nil => exact h.pending_eq_zero c (Nat.le_zero.mp hlength)
  | cons b budgets ih =>
    by_cases hpending : s.objects.pending = 0
    · rw [h.polls_idle c hpending]
      exact hpending
    · -- The first poll does at least one unit.
      have hK := c.pollBudget_pos
      have hb := hbudgets b List.mem_cons_self
      obtain ⟨n, hn⟩ : ∃ n, min b c.pollBudget = n + 1 := ⟨min b c.pollBudget - 1, by omega⟩
      have hunits : 1 ≤ (rcReferencePoll c (n + 1) s).1 := by
        rw [rcReferencePoll, if_neg hpending]
        exact Nat.succ_le_succ (Nat.zero_le _)
      obtain ⟨q', hserves⟩ := h.referencePoll c (n + 1)
      have hwork := hserves.outstanding
      rw [List.length_cons] at hlength
      rw [rcPolls, h.poll_eq_reference, hn]
      exact ih hserves.inv (fun b hb => hbudgets b (List.mem_cons_of_mem _ hb)) (by omega)

end Minyar

import Minyar.Rc.Values

/-!
# Counts along an operation

`RcRaises v k` says of one transition that it adds at most `k` owners to the object `v`.  The
destruction adds none to an object that is still alive: it writes a count only to lower it, to link a
dead object or to take one into service.
-/

namespace Minyar

/-- The object `v` has at most `k` owners more than it had. -/
structure RcRaises (v k : ℕ) (s t : RcObjects) : Prop where
  /-- The count is at most what it was and `k` more. -/
  owners : ∀ p, t.heap v = some p → ∃ o, s.heap v = some o ∧ p.owners ≤ o.owners + k

namespace RcRaises

variable {v k m n : ℕ} {s t u : RcObjects}

theorem refl (v : ℕ) (s : RcObjects) : RcRaises v 0 s s := ⟨fun o ho => ⟨o, ho, le_rfl⟩⟩

theorem trans (h : RcRaises v k s t) (h' : RcRaises v m t u) (hn : k + m = n) :
    RcRaises v n s u := by
  refine ⟨fun p hp => ?_⟩
  obtain ⟨x, hx, hle'⟩ := h'.owners p hp
  obtain ⟨o, ho, hle⟩ := h.owners x hx
  exact ⟨o, ho, by omega⟩

theorem mono (h : RcRaises v k s t) (hkm : k ≤ m) : RcRaises v m s t := by
  refine ⟨fun p hp => ?_⟩
  obtain ⟨o, ho, hle⟩ := h.owners p hp
  exact ⟨o, ho, by omega⟩

/-- Transitions of the queues. -/
theorem of_heap (hheap : t.heap = s.heap) : RcRaises v 0 s t :=
  ⟨fun p hp => ⟨p, hheap ▸ hp, le_rfl⟩⟩

/-- Transitions after one of the queues. -/
theorem queues (h : RcRaises v k t u) (hheap : t.heap = s.heap) : RcRaises v k s u :=
  (of_heap hheap).trans h (Nat.zero_add k)

/-- Changing an object in place. -/
theorem write {r : ℕ} {o p : RcObject} (ho : s.heap r = some o)
    (hle : r = v → p.owners ≤ o.owners + k) : RcRaises v k s (s.write r p) := by
  refine ⟨fun x hx => ?_⟩
  by_cases hv : v = r
  · subst hv
    rw [RcObjects.write_heap_self] at hx
    cases hx
    exact ⟨o, ho, hle rfl⟩
  · rw [RcObjects.write_heap_of_ne s p hv] at hx
    exact ⟨x, hx, Nat.le_add_right _ _⟩

/-- Destroying an object. -/
theorem free (r : ℕ) : RcRaises v 0 s (s.free r) := by
  refine ⟨fun x hx => ?_⟩
  by_cases hv : v = r
  · rw [hv, RcObjects.free_heap_self] at hx
    cases hx
  · rw [RcObjects.free_heap_of_ne s hv] at hx
    exact ⟨x, hx, le_rfl⟩

/-! ## The destruction -/

/-- Dropping an owner along a chain of Texts; the count of an object that dies becomes a link. -/
theorem dropChain (fuel : ℕ) (s : RcObjects) (value : ℕ)
    (hv : v ≠ (rcDropChain fuel s value).2.recentHead) :
    RcRaises v 0 s (rcDropChain fuel s value).2 := by
  induction fuel generalizing s value with
  | zero => exact of_heap rfl
  | succ fuel ih =>
    rw [rcDropChain] at hv ⊢
    split_ifs at hv ⊢ with h0
    · exact refl v s
    rcases ho : s.heap value with _ | o
    · exact of_heap rfl
    rw [ho] at hv
    simp only at hv ⊢
    have hwrite : RcRaises v 0 s (s.write value { o with owners := o.owners - 1 }) :=
      write ho fun _ => Nat.sub_le _ _
    split_ifs at hv ⊢
    · exact free value
    · exact refl v s
    · exact hwrite
    · exact hwrite.trans (free value) rfl
    · exact (hwrite.trans (free value) rfl).trans (ih _ _ hv) rfl
    · exact hwrite.trans (free value) rfl
    · -- The object dies, so it is another one.
      have hne : value ≠ v := fun heq => hv heq.symm
      refine hwrite.trans (m := 0) ?_ rfl
      exact (write (RcObjects.write_heap_self s value _) fun heq => absurd heq hne).trans
        (of_heap rfl) rfl

/-- Dropping an owner. -/
theorem drop (s : RcObjects) (value : ℕ) (hv : v ≠ (rcDrop s value).2.recentHead) :
    RcRaises v 0 s (rcDrop s value).2 := dropChain _ s value hv

/-- Taking a dead object into service. -/
theorem activate (s : RcObjects) : RcRaises v 0 s (rcBoundedActivate s) := by
  unfold rcBoundedActivate
  rcases ho : s.heap s.head with _ | o
  · exact of_heap rfl
  · exact (write (p := { o with owners := 0 }) ho fun _ => Nat.zero_le _).trans (of_heap rfl) rfl

/-- A unit of work on the oldest batch. -/
theorem oldObjectUnit (s : RcObjects) (hv : v ≠ (rcBoundedOldObjectUnit s).recentHead) :
    RcRaises v 0 s (rcBoundedOldObjectUnit s) := by
  have hactive : RcRaises v 0 s (if s.active = 0 then rcBoundedActivate s else s) := by
    split_ifs
    · exact activate s
    · exact refl v s
  unfold rcBoundedOldObjectUnit at hv ⊢
  refine hactive.trans (m := 0) ?_ rfl
  generalize (if s.active = 0 then rcBoundedActivate s else s) = s₁ at hv ⊢
  rcases ho : s₁.heap s₁.active with _ | o
  · simp only [ho]
    exact of_heap rfl
  · simp only [ho] at hv ⊢
    split_ifs at hv ⊢
    · exact (drop _ _ hv).queues rfl
    · exact (free s₁.active).trans (of_heap rfl) rfl

/-- A unit of work on the recent stack. -/
theorem recentObjectUnit (s : RcObjects) (hv : v ≠ (rcBoundedRecentObjectUnit s).recentHead) :
    RcRaises v 0 s (rcBoundedRecentObjectUnit s) := by
  unfold rcBoundedRecentObjectUnit at hv ⊢
  rcases ho : s.heap s.recentHead with _ | o
  · exact of_heap rfl
  · rw [ho] at hv
    simp only at hv ⊢
    split_ifs at hv ⊢
    · refine RcRaises.trans ?_ (drop _ _ hv) rfl
      exact write ho fun _ => (rcBoundedSaveCursor_owners o _).le
    all_goals exact (free s.recentHead).trans (of_heap rfl) rfl

/-- A unit of work on dead objects. -/
theorem objectUnit (s : RcObjects) (hv : v ≠ (rcBoundedObjectUnit s).recentHead) :
    RcRaises v 0 s (rcBoundedObjectUnit s) := by
  have hcapture : RcRaises v 0 s (if s.active = 0 ∧ s.head = 0 then rcBoundedCapture s else s) := by
    split_ifs
    · exact of_heap rfl
    · exact refl v s
  unfold rcBoundedObjectUnit at hv ⊢
  refine hcapture.trans (m := 0) ?_ rfl
  generalize (if s.active = 0 ∧ s.head = 0 then rcBoundedCapture s else s) = s₁ at hv ⊢
  simp only at hv ⊢
  split_ifs at hv ⊢
  · exact (oldObjectUnit _ hv).queues rfl
  · exact (recentObjectUnit _ hv).queues rfl
  · exact (oldObjectUnit _ hv).queues rfl

/-- A unit of work on detached frames. -/
theorem frameUnit (c : RcConfig) (s : RcState)
    (hv : v ≠ (rcBoundedFrameUnit c s).objects.recentHead) :
    RcRaises v 0 s.objects (rcBoundedFrameUnit c s).objects := by
  unfold rcBoundedFrameUnit at hv ⊢
  split at hv
  · exact of_heap rfl
  · split at hv
    · exact drop _ _ hv
    · exact of_heap rfl

/-- A unit of work on detached chunks. -/
theorem chunkUnit (s : RcState) (hv : v ≠ (rcBoundedChunkUnit s).objects.recentHead) :
    RcRaises v 0 s.objects (rcBoundedChunkUnit s).objects := by
  unfold rcBoundedChunkUnit at hv ⊢
  split at hv
  · exact of_heap rfl
  · split at hv
    · exact drop _ _ hv
    · exact of_heap rfl

/-- A unit of the round-robin service. -/
theorem pollUnit (c : RcConfig) (s : RcState) (hv : v ≠ (rcPollUnit c s).objects.recentHead) :
    RcRaises v 0 s.objects (rcPollUnit c s).objects := by
  unfold rcPollUnit at hv ⊢
  simp only at hv ⊢
  split_ifs at hv ⊢
  · exact objectUnit _ hv
  · exact (frameUnit c _ hv).queues rfl
  · exact (chunkUnit _ hv).queues rfl

/-! ## Operations -/

/-- Changing an object in place. -/
theorem modify (s : RcState) (r : ℕ) (f : RcObject → RcObject)
    (howners : ∀ o, (f o).owners = o.owners) : RcRaises v 0 s.objects (s.modify r f).objects := by
  unfold RcState.modify RcObjects.modify
  rcases ho : s.objects.heap r with _ | o
  · exact of_heap rfl
  · exact write ho fun _ => (howners o).le

/-- A new owner. -/
theorem retain {s s' : RcState} {value : ℕ} (hs : minyarRcRetain s value = .ok s') :
    RcRaises v (if value = v then 1 else 0) s.objects s'.objects := by
  have hsame : RcRaises v (if value = v then 1 else 0) s.objects s.objects :=
    (refl v _).mono (Nat.zero_le _)
  unfold minyarRcRetain at hs
  split_ifs at hs
  · cases hs
    exact hsame
  · rcases ho : s.objects.heap value with _ | o
    · rw [ho] at hs
      cases hs
      exact hsame.trans (of_heap rfl) rfl
    · rw [ho] at hs
      simp only at hs
      split_ifs at hs
      · cases hs
        exact hsame
      · cases hs
        refine write ho fun heq => ?_
        rw [if_pos heq]

end RcRaises

/-! ## Service -/

/-- What is alive is not the latest dead object. -/
theorem RcObjectsInv.ne_recentHead {s : RcObjects} {T : Multiset ℕ} {extra v : ℕ} {q : RcQueues}
    {o : RcObject} (h : RcObjectsInv s T extra q) (ho : s.heap v = some o)
    (hv : v ∉ rcDead s.active q) : v ≠ s.recentHead := by
  have hlinked := h.recent
  rcases hrecent : q.recent with _ | ⟨r, rs⟩
  · rw [(h.recent.eq_nil_iff).mp hrecent]
    exact h.ne_zero ho
  · rw [hrecent] at hlinked
    rintro rfl
    refine hv (List.mem_append_right _ (List.mem_append_right _ ?_))
    rw [hrecent, hlinked.1]
    exact List.mem_cons_self

/-- The service adds no owner to what is alive after it. -/
theorem RcInv.referencePoll_raises {s : RcState} {E : Multiset ℕ} {q : RcQueues} (h : RcInv s E q)
    (c : RcConfig) (budget : ℕ) : ∃ q',
      RcServes (rcReferencePoll c budget s).1 s (rcReferencePoll c budget s).2 q q' E ∧
      ∀ v, v ∉ rcDead (rcReferencePoll c budget s).2.objects.active q' →
        RcRaises v 0 s.objects (rcReferencePoll c budget s).2.objects := by
  induction budget generalizing s q with
  | zero => exact ⟨q, RcServes.refl h, fun v _ => .refl v _⟩
  | succ budget ih =>
    by_cases hpending : s.objects.pending = 0
    · simp only [rcReferencePoll, if_pos hpending]
      exact ⟨q, RcServes.refl h, fun v _ => .refl v _⟩
    · simp only [rcReferencePoll, if_neg hpending]
      obtain ⟨q', hserves⟩ := h.pollUnit c hpending
      obtain ⟨q'', hserves', hraises'⟩ := ih hserves.inv
      refine ⟨q'', ?_, fun v hv => ⟨fun p hp => ?_⟩⟩
      · rw [Nat.add_comm]
        exact hserves.trans hserves'
      · -- What is alive at the end is alive after the first unit.
        obtain ⟨x, hx, -, halive⟩ := hserves'.shrink.object v p hp
        have hunit := RcRaises.pollUnit c s (hserves.inv.objects.ne_recentHead hx (halive hv).1)
        exact (hunit.trans (hraises' v hv) rfl).owners p hp

namespace RcRefines

variable {s s' : RcState} {L : RcLedger} {q : RcQueues} {v w x : ℕ}

/-- What the program may use is not dead. -/
theorem notMem_dead (h : RcRefines s L q) (hx : L.Usable x) {o : RcObject}
    (ho : s.objects.heap x = some o) : x ∉ rcDead s.objects.active q := by
  rcases h.usable hx with h0 | ⟨-, -, hdead, -⟩
  · exact absurd h0 (h.inv.objects.ne_zero ho)
  · exact hdead

/-- Service adds no owner to what the program may use. -/
theorem servicePending_raises (h : RcRefines s L q) (c : RcConfig) (budget : ℕ)
    (hx : L.Usable x) : RcRaises x 0 s.objects (rcServicePending c s budget).objects := by
  unfold rcServicePending
  split_ifs
  · rw [h.inv.poll_eq_reference]
    obtain ⟨q', hserves, hraises⟩ := h.inv.referencePoll_raises c (min budget c.pollBudget)
    refine ⟨fun p hp => ?_⟩
    exact (hraises x ((h.serves hserves).notMem_dead hx hp)).owners p hp
  · exact .refl x _

/-! ## Lists -/

/-- Neither does a new List. -/
theorem listNew_raises (h : RcRefines s L q) (c : RcConfig) (hx : L.Usable x) (hne : x ≠ L.next) :
    RcRaises x 0 s.objects (minyarListNew c s).2.objects := by
  obtain ⟨q', h'⟩ := h.servicePending c c.pollBudget
  refine (h.servicePending_raises c c.pollBudget hx).trans (m := 0) ⟨fun p hp => ⟨p, ?_, le_rfl⟩⟩ rfl
  refine (Function.update_of_ne ?_ _ _).symm.trans hp
  rw [h'.next]
  exact hne

/-- Neither does growing one. -/
theorem listGrow_raises (h : RcRefines s L q) (c : RcConfig) (hx : L.Usable x)
    (hs : Minyar.listGrow c s v = .ok s') : RcRaises x 0 s.objects s'.objects := by
  unfold Minyar.listGrow at hs
  split at hs
  · cases hs
    exact .of_heap rfl
  · simp only at hs
    split_ifs at hs
    cases hs
    exact (h.servicePending_raises c _ hx).trans (.modify _ v _ fun _ => rfl) rfl

/-- Neither does making room in one. -/
theorem listEnsure_raises (h : RcRefines s L q) (c : RcConfig) (hx : L.Usable x)
    (hs : Minyar.listEnsure c s v = .ok s') : RcRaises x 0 s.objects s'.objects := by
  unfold Minyar.listEnsure at hs
  split at hs
  · cases hs
    exact .of_heap rfl
  · split_ifs at hs
    · exact h.listGrow_raises c hx hs
    · cases hs
      exact .refl x _

/-- Neither does growing one until it has a capacity. -/
theorem listGrowTo_raises (h : RcRefines s L q) (c : RcConfig) (hv : L.Usable v)
    (hlist : IsList L v) (hx : L.Usable x) {capacity fuel : ℕ}
    (hs : Minyar.listGrowTo c v capacity fuel s = .ok s') : RcRaises x 0 s.objects s'.objects := by
  induction fuel generalizing s q with
  | zero =>
    cases hs
    exact .refl x _
  | succ fuel ih =>
    obtain ⟨o, ho, -⟩ := h.exists_list hv hlist
    rw [Minyar.listGrowTo, ho] at hs
    simp only at hs
    split_ifs at hs
    · obtain ⟨s₁, hs₁, hs⟩ := bind_eq_ok.mp hs
      obtain ⟨q₁, h₁, -⟩ := h.listGrow c hv hlist hs₁
      exact (h.listGrow_raises c hx hs₁).trans (ih h₁ hs) rfl
    · cases hs
      exact .refl x _

/-- Adding a value to a List of references adds one owner to the value, and to nothing else. -/
theorem listAdd_raises (h : RcRefines s L q) (c : RcConfig) (hv : L.Usable v)
    (hlist : L.ListTakes v (L.Usable w)) (hx : L.Usable x) (hx' : (L.addToList v w).Usable x)
    {k : ℕ} (hk : (∃ values, L.heap v = some (.references values)) → w = x → k = 1)
    (hs : minyarListAdd c s v w = .ok s') : RcRaises x k s.objects s'.objects := by
  obtain ⟨s₁, s₂, hs₁, ⟨q₂, h₂⟩, hcases⟩ := h.listAdd_cases c hv hlist hs
  have hensure := h.listEnsure_raises c hx hs₁
  have happend : RcRaises x 0 s₂.objects (s₂.append v w).objects := .modify _ v _ fun _ => rfl
  rcases hcases with ⟨-, rfl, rfl⟩ | ⟨hreferences, ⟨kind, hs₂⟩, rfl⟩
  · exact (hensure.trans happend rfl).mono (Nat.zero_le k)
  · have hserved := happend.trans (h₂.servicePending_raises c c.pollBudget hx') rfl
    have hkind : RcRaises x 0 s₁.objects
        (s₁.modify v fun object => { object with kind := kind }).objects :=
      .modify _ v _ fun _ => rfl
    have hretain : RcRaises x (if w = x then 1 else 0)
        (s₁.modify v fun object => { object with kind := kind }).objects s₂.objects := by
      split_ifs at hs₂ with hstore
      · exact .retain hs₂
      · cases hs₂
        exact (RcRaises.refl x _).mono (Nat.zero_le _)
    refine (((hensure.trans hkind rfl).trans hretain (Nat.zero_add _)).trans hserved
      (Nat.add_zero _)).mono ?_
    split_ifs with heq
    · exact (hk hreferences heq).ge
    · exact Nat.zero_le k

/-- Adding a value whose owner the List takes over adds no owner. -/
theorem listAddTake_raises (h : RcRefines s L q) (c : RcConfig) (hv : L.Usable v)
    (hlist : L.ListTakes v (L.Owned w)) (hx : L.Usable x)
    (hx' : ((L.takeForList v w).addToList v w).Usable x)
    (hs : minyarListAddTake c s v w = .ok s') : RcRaises x 0 s.objects s'.objects := by
  obtain ⟨s₁, s₂, hs₁, ⟨q₂, h₂⟩, hcases⟩ := h.listAddTake_cases c hv hlist hs
  have hensure := h.listEnsure_raises c hx hs₁
  have happend : RcRaises x 0 s₂.objects (s₂.append v w).objects := .modify _ v _ fun _ => rfl
  rcases hcases with ⟨rfl, rfl⟩ | ⟨⟨kind, rfl⟩, rfl⟩
  · exact hensure.trans happend rfl
  · have hkind : RcRaises x 0 s₁.objects
        (s₁.modify v fun object => { object with kind := kind }).objects :=
      .modify _ v _ fun _ => rfl
    exact ((hensure.trans hkind rfl).trans happend rfl).trans
      (h₂.servicePending_raises c c.pollBudget hx') rfl

/-- Adding values one after another to a new List of references adds an owner for every time that a
value occurs. -/
theorem listAddAll_raises (c : RcConfig) (references : Bool) {values acc : List ℕ}
    (h : RcRefines s (L.allocate (.ofElements references acc)).2 q)
    (hbound : ∀ r x, L.heap r = some x → r < L.next) (h0 : L.next ≠ 0)
    (hvalues : references = true → ∀ w ∈ values, L.Usable w) (hx : L.Usable x)
    (hs : Minyar.listAddAll c L.next values s = .ok s') :
    RcRaises x (if references = true then values.count x else 0) s.objects s'.objects := by
  induction values generalizing acc s q with
  | nil =>
    cases hs
    exact (RcRaises.refl x _).mono (Nat.zero_le _)
  | cons w values ih =>
    obtain ⟨s₁, hs₁, hs⟩ := bind_eq_ok.mp hs
    have hnew := L.usable_allocate h0 (.ofElements references acc)
    have htakes := listTakes_allocate L references acc
      (p := (L.allocate (.ofElements references acc)).2.Usable w)
      fun hr => (hvalues hr w List.mem_cons_self).allocate hbound _
    obtain ⟨q₁, h₁⟩ := h.listAdd c hnew htakes hs₁
    have hx₁ : ((L.allocate (.ofElements references acc)).2.addToList L.next w).Usable x := by
      rw [L.allocate_addToList]
      exact hx.allocate hbound _
    have hadd := h.listAdd_raises c hnew htakes (hx.allocate hbound _) hx₁
      (k := if references = true then [w].count x else 0) (fun hreferences heq => ?_) hs₁
    · rw [L.allocate_addToList] at h₁
      refine hadd.trans (ih h₁ (fun hr x hx => hvalues hr x (List.mem_cons_of_mem _ hx)) hs) ?_
      split_ifs
      · rw [← List.count_append, List.singleton_append]
      · rfl
    · -- The List is one of references.
      obtain ⟨members, hmembers⟩ := hreferences
      rw [L.allocate_heap] at hmembers
      cases references with
      | false => cases hmembers
      | true => simp [heq]

end RcRefines

end Minyar

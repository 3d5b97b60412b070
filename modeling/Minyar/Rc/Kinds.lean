import Minyar.Rc.Values

/-!
# Kinds of objects along a run

An object keeps the kind in its header, except that a List may be marked.  `KeepsKind v` says so of
one object for one transition: when the object `v` was allocated before and is still there, its kind
is what it was.  The lemmas follow the functions of the runtime; the destruction never looks at what
the program owns, so they need no invariant.
-/

namespace Minyar

/-- An object that was allocated before and is still there has kept its kind. -/
structure KeepsKind (v : ℕ) (s t : RcObjects) : Prop where
  /-- Names are never used again. -/
  next : s.next ≤ t.next
  /-- The kind is what it was. -/
  kind : v < s.next → ∀ p, t.heap v = some p → ∃ o, s.heap v = some o ∧ p.kind = o.kind

namespace KeepsKind

variable {v : ℕ} {s t u : RcObjects}

theorem refl (v : ℕ) (s : RcObjects) : KeepsKind v s s := ⟨le_rfl, fun _ o ho => ⟨o, ho, rfl⟩⟩

theorem trans (h : KeepsKind v s t) (h' : KeepsKind v t u) : KeepsKind v s u := by
  refine ⟨h.next.trans h'.next, fun hv p hp => ?_⟩
  obtain ⟨x, hx, hkind'⟩ := h'.kind (hv.trans_le h.next) p hp
  obtain ⟨o, ho, hkind⟩ := h.kind hv x hx
  exact ⟨o, ho, hkind'.trans hkind⟩

/-- The transition before one. -/
theorem after (h' : KeepsKind v t u) (h : KeepsKind v s t) : KeepsKind v s u := h.trans h'

/-- Transitions of the queues. -/
theorem of_heap (hheap : t.heap = s.heap) (hnext : t.next = s.next) : KeepsKind v s t :=
  ⟨hnext.ge, fun _ p hp => ⟨p, hheap ▸ hp, rfl⟩⟩

/-- Transitions after one of the queues. -/
theorem queues (h : KeepsKind v t u) (hheap : t.heap = s.heap) (hnext : t.next = s.next) :
    KeepsKind v s u :=
  (of_heap hheap hnext).trans h

/-- Changing an object in place. -/
theorem write {r : ℕ} {o p : RcObject} (ho : s.heap r = some o)
    (hkind : r = v → p.kind = o.kind) : KeepsKind v s (s.write r p) := by
  refine ⟨le_rfl, fun _ x hx => ?_⟩
  by_cases hv : v = r
  · subst hv
    rw [RcObjects.write_heap_self] at hx
    cases hx
    exact ⟨o, ho, hkind rfl⟩
  · rw [RcObjects.write_heap_of_ne s p hv] at hx
    exact ⟨x, hx, rfl⟩

/-- Destroying an object. -/
theorem free (r : ℕ) : KeepsKind v s (s.free r) := by
  refine ⟨le_rfl, fun _ x hx => ?_⟩
  by_cases hv : v = r
  · rw [hv, RcObjects.free_heap_self] at hx
    cases hx
  · rw [RcObjects.free_heap_of_ne s hv] at hx
    exact ⟨x, hx, rfl⟩

/-- Allocating an object. -/
theorem allocate {x : Option RcObject} : KeepsKind v s
    { s with heap := Function.update s.heap s.next x, next := s.next + 1 } := by
  refine ⟨Nat.le_succ _, fun hv o ho => ?_⟩
  exact ⟨o, (Function.update_of_ne hv.ne _ _).symm.trans ho, rfl⟩

/-- Storing the cursor of a dead object. -/
theorem saveCursor {r : ℕ} {o : RcObject} (ho : s.heap r = some o) (cursor n : ℕ) :
    KeepsKind v s (s.write r { rcBoundedSaveCursor o cursor with owners := n }) :=
  write ho fun _ => rcBoundedSaveCursor_kind o cursor

/-! ## The destruction -/

/-- Dropping an owner along a chain of Texts. -/
theorem dropChain (fuel : ℕ) (s : RcObjects) (value : ℕ) :
    KeepsKind v s (rcDropChain fuel s value).2 := by
  induction fuel generalizing s value with
  | zero => exact of_heap rfl rfl
  | succ fuel ih =>
    rw [rcDropChain]
    split_ifs with h0
    · exact refl v s
    rcases ho : s.heap value with _ | o
    · exact of_heap rfl rfl
    simp only
    have hwrite : KeepsKind v s (s.write value { o with owners := o.owners - 1 }) :=
      write ho fun _ => rfl
    split_ifs
    · exact free value
    · exact refl v s
    · exact hwrite
    · exact hwrite.trans (free value)
    · exact (hwrite.trans (free value)).trans (ih _ _)
    · exact hwrite.trans (free value)
    · refine hwrite.trans ?_
      refine (saveCursor (RcObjects.write_heap_self s value _) 0 s.recentHead).trans ?_
      exact of_heap rfl rfl

/-- Dropping an owner. -/
theorem drop (s : RcObjects) (value : ℕ) : KeepsKind v s (rcDrop s value).2 := dropChain _ s value

/-- Taking a dead object into service. -/
theorem activate (s : RcObjects) : KeepsKind v s (rcBoundedActivate s) := by
  unfold rcBoundedActivate
  rcases ho : s.heap s.head with _ | o
  · exact of_heap rfl rfl
  · exact (write (p := { o with owners := 0 }) ho fun _ => rfl).trans (of_heap rfl rfl)

/-- A unit of work on the oldest batch. -/
theorem oldObjectUnit (s : RcObjects) : KeepsKind v s (rcBoundedOldObjectUnit s) := by
  have hactive : KeepsKind v s (if s.active = 0 then rcBoundedActivate s else s) := by
    split_ifs
    · exact activate s
    · exact refl v s
  unfold rcBoundedOldObjectUnit
  refine hactive.trans ?_
  generalize (if s.active = 0 then rcBoundedActivate s else s) = s₁
  rcases ho : s₁.heap s₁.active with _ | o
  · simp only [ho]
    exact of_heap rfl rfl
  · simp only [ho]
    split_ifs
    · exact (drop _ _).queues rfl rfl
    · exact (free s₁.active).trans (of_heap rfl rfl)

/-- A unit of work on the recent stack. -/
theorem recentObjectUnit (s : RcObjects) : KeepsKind v s (rcBoundedRecentObjectUnit s) := by
  unfold rcBoundedRecentObjectUnit
  rcases ho : s.heap s.recentHead with _ | o
  · exact of_heap rfl rfl
  · simp only
    split_ifs
    · refine KeepsKind.trans ?_ (drop _ _)
      exact write ho fun _ => rcBoundedSaveCursor_kind o _
    all_goals exact (free s.recentHead).trans (of_heap rfl rfl)

/-- A unit of work on dead objects. -/
theorem objectUnit (s : RcObjects) : KeepsKind v s (rcBoundedObjectUnit s) := by
  have hcapture : KeepsKind v s (if s.active = 0 ∧ s.head = 0 then rcBoundedCapture s else s) := by
    split_ifs
    · exact of_heap rfl rfl
    · exact refl v s
  unfold rcBoundedObjectUnit
  refine hcapture.trans ?_
  generalize (if s.active = 0 ∧ s.head = 0 then rcBoundedCapture s else s) = s₁
  simp only
  split_ifs
  · exact (oldObjectUnit _).queues rfl rfl
  · exact (recentObjectUnit _).queues rfl rfl
  · exact (oldObjectUnit _).queues rfl rfl

/-- A unit of work on detached frames. -/
theorem frameUnit (c : RcConfig) (s : RcState) :
    KeepsKind v s.objects (rcBoundedFrameUnit c s).objects := by
  unfold rcBoundedFrameUnit
  split
  · exact of_heap rfl rfl
  · split
    · exact drop _ _
    · exact of_heap rfl rfl

/-- A unit of work on detached chunks. -/
theorem chunkUnit (s : RcState) : KeepsKind v s.objects (rcBoundedChunkUnit s).objects := by
  unfold rcBoundedChunkUnit
  split
  · exact of_heap rfl rfl
  · split
    · exact drop _ _
    · exact of_heap rfl rfl

/-- A unit of the round-robin service. -/
theorem pollUnit (c : RcConfig) (s : RcState) :
    KeepsKind v s.objects (rcPollUnit c s).objects := by
  unfold rcPollUnit
  simp only
  split_ifs
  · exact objectUnit _
  · exact (frameUnit c _).queues rfl rfl
  · exact (chunkUnit _).queues rfl rfl

/-- The fast path of unary records. -/
theorem fusedChain (fuel budget work : ℕ) (s : RcObjects) :
    KeepsKind v s (rcFusedChain fuel budget work s).2 := by
  induction fuel generalizing work s with
  | zero => exact of_heap rfl rfl
  | succ fuel ih =>
    rw [rcFusedChain]
    rcases ho : s.heap s.active with _ | single
    · exact of_heap rfl rfl
    · simp only
      rcases hchild : rcUnaryChild (budget - work) s (single.child 0) with _ | next
      · have hdrop : KeepsKind v s
            (rcDrop { s with recentTurn := !s.recentTurn } (single.child 0)).2 :=
          (drop _ _).queues rfl rfl
        simp only
        generalize (rcDrop { s with recentTurn := !s.recentTurn } (single.child 0)).2 = t at hdrop ⊢
        have hfree : KeepsKind v t
            (RcObjects.free { t with recentTurn := !t.recentTurn } t.active) :=
          (free _).queues rfl rfl
        exact (hdrop.trans hfree).trans (of_heap rfl rfl)
      · have hnext : s.heap (single.child 0) = some next := by
          unfold rcUnaryChild at hchild
          split_ifs at hchild
          split at hchild
          · split_ifs at hchild
            cases hchild
            assumption
          · cases hchild
        have hwrite : KeepsKind v s (s.write (single.child 0) { next with owners := 0 }) :=
          write hnext fun _ => rfl
        refine KeepsKind.trans (hwrite.trans (free s.active)) ?_
        exact (ih _ _).queues rfl rfl

/-- The fast path of Lists. -/
theorem listRun (values : List ℕ) (count work : ℕ) (s : RcObjects) :
    KeepsKind v s (rcListRun values count work s).2 := by
  induction count generalizing work s with
  | zero => exact refl v s
  | succ count ih =>
    rw [rcListRun]
    simp only
    split_ifs
    · exact ((free _).trans (ih _ _)).queues rfl rfl
    · exact (drop _ _).queues rfl rfl
    · exact ((drop _ _).trans (ih _ _)).queues rfl rfl

/-- Service when only objects are pending. -/
theorem pollObjects (fuel budget work : ℕ) (s : RcObjects) :
    KeepsKind v s (rcPollObjects fuel budget work s).2 := by
  induction fuel generalizing work s with
  | zero => exact refl v s
  | succ fuel ih =>
    rw [rcPollObjects]
    split_ifs
    · rcases hsingle : rcUnarySingle (budget - work) s with _ | single
      · simp only
        split_ifs
        · rcases ho : s.heap s.active with _ | o
          · exact of_heap rfl rfl
          · exact (listRun _ _ _ _).trans (ih _ _)
        · exact (objectUnit s).trans (ih _ _)
      · rcases ho : s.heap single with _ | o
        · simp only [ho]
          exact of_heap rfl rfl
        · simp only [ho]
          refine KeepsKind.trans ?_ ((fusedChain budget budget work _).trans (ih _ _))
          unfold rcTakeUnary
          exact (write (p := { o with owners := 0 }) ho fun _ => rfl).trans (of_heap rfl rfl)
    · exact refl v s

/-- Service of all three queues. -/
theorem pollQueues (c : RcConfig) (fuel budget work : ℕ) (s : RcState) :
    KeepsKind v s.objects (rcPollQueues c fuel budget work s).2.objects := by
  induction fuel generalizing work s with
  | zero => exact refl v _
  | succ fuel ih =>
    rw [rcPollQueues]
    split_ifs
    · exact (pollUnit c s).trans (ih _ _)
    · exact refl v _

/-- A poll. -/
theorem poll (c : RcConfig) (s : RcState) (budget : ℕ) :
    KeepsKind v s.objects (minyarRcPoll c s budget).2.objects := by
  unfold minyarRcPoll
  generalize (if c.pollBudget < budget then c.pollBudget else budget) = n
  simp only
  by_cases hqueues : s.frameQueue = [] ∧ s.chunkQueue = []
  · rw [if_pos hqueues]
    exact pollObjects n n 0 s.objects
  · rw [if_neg hqueues]
    exact pollQueues c n n 0 s

/-- A poll when work is pending. -/
theorem servicePending (c : RcConfig) (s : RcState) (budget : ℕ) :
    KeepsKind v s.objects (rcServicePending c s budget).objects := by
  unfold rcServicePending
  split_ifs
  · exact poll c s budget
  · exact refl v _

/-! ## Operations -/

/-- Changing an object in place. -/
theorem modify (s : RcState) (r : ℕ) (f : RcObject → RcObject)
    (hkind : ∀ o, (f o).kind = o.kind) : KeepsKind v s.objects (s.modify r f).objects := by
  unfold RcState.modify RcObjects.modify
  rcases ho : s.objects.heap r with _ | o
  · exact of_heap rfl rfl
  · exact write ho fun _ => hkind o

/-- Changing another object. -/
theorem modifyOther {r : ℕ} (hr : r ≠ v) (s : RcState) (f : RcObject → RcObject) :
    KeepsKind v s.objects (s.modify r f).objects := by
  unfold RcState.modify RcObjects.modify
  rcases ho : s.objects.heap r with _ | o
  · exact of_heap rfl rfl
  · exact write ho fun h => absurd h hr

/-- A new owner. -/
theorem retain {s s' : RcState} {value : ℕ} (hs : minyarRcRetain s value = .ok s') :
    KeepsKind v s.objects s'.objects := by
  unfold minyarRcRetain at hs
  split_ifs at hs
  · cases hs
    exact refl v _
  · rcases ho : s.objects.heap value with _ | o
    · rw [ho] at hs
      cases hs
      exact of_heap rfl rfl
    · rw [ho] at hs
      simp only at hs
      split_ifs at hs
      · cases hs
        exact refl v _
      · cases hs
        exact write ho fun _ => rfl

/-- A released owner. -/
theorem release (c : RcConfig) (s : RcState) (value : ℕ) :
    KeepsKind v s.objects (minyarRcRelease c s value).objects := by
  unfold minyarRcRelease
  exact (drop s.objects value).trans
    (servicePending c { s with objects := (rcDrop s.objects value).2 } _)

/-- A new object. -/
theorem allocateObject (c : RcConfig) (s : RcState) (o : RcObject) :
    KeepsKind v s.objects (rcAllocateObject c s o).2.objects :=
  (servicePending c s c.pollBudget).trans allocate

/-- A new Text with bytes that are there. -/
theorem newText (c : RcConfig) (s : RcState) (bytes : List UInt8) :
    KeepsKind v s.objects (Minyar.newText c s bytes).2.objects := allocateObject c s _

/-- A new Text. -/
theorem copyText (c : RcConfig) (s : RcState) (bytes : List UInt8) :
    KeepsKind v s.objects (Minyar.copyText c s bytes).2.objects :=
  (servicePending c s c.pollBudget).trans (allocateObject c _ _)

/-- A slice of a Text. -/
theorem textSlice {c : RcConfig} {s : RcState} {text first last : ℕ} {r : ℕ × RcState}
    (hs : minyarTextSlice c s text first last = .ok r) :
    KeepsKind v s.objects r.2.objects := by
  unfold minyarTextSlice at hs
  rcases ho : s.objects.heap text with _ | o
  · rw [ho] at hs
    cases hs
    exact of_heap rfl rfl
  · rw [ho] at hs
    simp only at hs
    generalize (if o.backing ≠ 0 then o.backing else text) = root at hs
    split_ifs at hs
    · obtain ⟨s₁, hs₁, hs⟩ := bind_eq_ok.mp hs
      cases hs
      exact retain hs₁
    · cases hs
      exact copyText c s _
    · obtain ⟨s₁, hs₁, hs⟩ := bind_eq_ok.mp hs
      cases hs
      exact (newText c s _).trans ((retain hs₁).after (modify _ _ _ fun _ => rfl))

/-- Making room in a List. -/
theorem listGrow {c : RcConfig} {s s' : RcState} {list : ℕ}
    (hs : Minyar.listGrow c s list = .ok s') : KeepsKind v s.objects s'.objects := by
  unfold Minyar.listGrow at hs
  rcases ho : s.objects.heap list with _ | o
  · rw [ho] at hs
    cases hs
    exact of_heap rfl rfl
  · rw [ho] at hs
    simp only at hs
    split_ifs at hs
    cases hs
    exact (servicePending c s _).trans (modify _ _ _ fun _ => rfl)

/-- Making room in a List that is full. -/
theorem listEnsure {c : RcConfig} {s s' : RcState} {list : ℕ}
    (hs : Minyar.listEnsure c s list = .ok s') : KeepsKind v s.objects s'.objects := by
  unfold Minyar.listEnsure at hs
  rcases ho : s.objects.heap list with _ | o
  · rw [ho] at hs
    cases hs
    exact of_heap rfl rfl
  · rw [ho] at hs
    simp only at hs
    split_ifs at hs
    · exact listGrow hs
    · cases hs
      exact refl v _

/-- Growing a List until it has a capacity. -/
theorem listGrowTo {c : RcConfig} {s s' : RcState} {list capacity fuel : ℕ}
    (hs : Minyar.listGrowTo c list capacity fuel s = .ok s') :
    KeepsKind v s.objects s'.objects := by
  induction fuel generalizing s with
  | zero =>
    cases hs
    exact refl v _
  | succ fuel ih =>
    rw [Minyar.listGrowTo] at hs
    rcases ho : s.objects.heap list with _ | o
    · rw [ho] at hs
      cases hs
      exact of_heap rfl rfl
    · rw [ho] at hs
      simp only at hs
      split_ifs at hs
      · obtain ⟨s₁, hs₁, hs⟩ := bind_eq_ok.mp hs
        exact (listGrow hs₁).trans (ih hs)
      · cases hs
        exact refl v _

/-- Adding to another List. -/
theorem listAdd {c : RcConfig} {s s' : RcState} {list value : ℕ} (hlist : list ≠ v)
    (hs : minyarListAdd c s list value = .ok s') : KeepsKind v s.objects s'.objects := by
  obtain ⟨s₁, hs₁, hs⟩ := bind_eq_ok.mp hs
  refine (listEnsure hs₁).trans ?_
  rcases ho : s₁.objects.heap list with _ | o
  · rw [ho] at hs
    cases hs
    exact of_heap rfl rfl
  · rw [ho] at hs
    simp only at hs
    split_ifs at hs
    · cases hs
      exact modifyOther hlist _ _
    · obtain ⟨s₂, hs₂, hs⟩ := bind_eq_ok.mp hs
      cases hs
      exact (modifyOther hlist s₁ _).trans ((retain hs₂).trans
        ((modifyOther hlist s₂ _).trans (servicePending c _ _)))
    · cases hs
      exact (modifyOther hlist s₁ _).trans ((modifyOther hlist _ _).trans (servicePending c _ _))

/-- Adding to another List, which takes over an owner. -/
theorem listAddTake {c : RcConfig} {s s' : RcState} {list value : ℕ} (hlist : list ≠ v)
    (hs : minyarListAddTake c s list value = .ok s') : KeepsKind v s.objects s'.objects := by
  obtain ⟨s₁, hs₁, hs⟩ := bind_eq_ok.mp hs
  refine (listEnsure hs₁).trans ?_
  rcases ho : s₁.objects.heap list with _ | o
  · rw [ho] at hs
    cases hs
    exact of_heap rfl rfl
  · rw [ho] at hs
    simp only at hs
    split_ifs at hs
    · cases hs
      exact modifyOther hlist _ _
    · cases hs
      exact (modifyOther hlist s₁ _).trans ((modifyOther hlist _ _).trans (servicePending c _ _))

/-- Replacing an element of another List. -/
theorem listSetOwned {c : RcConfig} {s s' : RcState} {list value : ℕ} {position : ℤ}
    {retainValue : Bool} (hlist : list ≠ v)
    (hs : minyarListSetOwned c s list position value retainValue = .ok s') :
    KeepsKind v s.objects s'.objects := by
  unfold minyarListSetOwned at hs
  rcases ho : s.objects.heap list with _ | o
  · rw [ho] at hs
    cases hs
    exact of_heap rfl rfl
  · rw [ho] at hs
    simp only at hs
    by_cases hposition : position < 0 ∨ (o.values.length : ℤ) ≤ position
    · rw [if_pos hposition] at hs
      cases hs
    rw [if_neg hposition] at hs
    split_ifs at hs
    · obtain ⟨s₁, hs₁, hs⟩ := bind_eq_ok.mp hs
      cases hs
      exact (modifyOther hlist s _).trans ((retain hs₁).trans ((modifyOther hlist s₁ _).trans (release c _ _)))
    · cases hs
      exact (modifyOther hlist s _).trans ((modifyOther hlist _ _).trans (release c _ _))
    · cases hs
      exact (modifyOther hlist s _).trans (modifyOther hlist _ _)

/-- Adding values to another List. -/
theorem listAddAll {c : RcConfig} {s s' : RcState} {list : ℕ} {values : List ℕ}
    (hlist : list ≠ v) (hs : Minyar.listAddAll c list values s = .ok s') :
    KeepsKind v s.objects s'.objects := by
  induction values generalizing s with
  | nil =>
    cases hs
    exact refl v _
  | cons value values ih =>
    obtain ⟨s₁, hs₁, hs⟩ := bind_eq_ok.mp hs
    exact (listAdd hlist hs₁).trans (ih hs)

/-- An appended List. -/
theorem listAppended {c : RcConfig} {s : RcState} {list value : ℕ} {references takeValue : Bool}
    {r : ℕ × RcState} (hv : v < s.objects.next)
    (hs : minyarListAppended c s list value references takeValue = .ok r) :
    KeepsKind v s.objects r.2.objects := by
  have hnew : KeepsKind v s.objects (minyarListNew c s).2.objects := allocateObject c s _
  -- The new List has a later name.
  have hne : (minyarListNew c s).1 ≠ v :=
    ((hv.trans_le (servicePending (v := v) c s c.pollBudget).next)).ne'
  unfold minyarListAppended at hs
  simp only at hs
  have hmark : KeepsKind v s.objects (if references = true then
      minyarListReferences (minyarListNew c s).2 (minyarListNew c s).1
      else (minyarListNew c s).2).objects := by
    split_ifs
    · exact hnew.trans (modifyOther hne _ _)
    · exact hnew
  generalize (if references = true then
      minyarListReferences (minyarListNew c s).2 (minyarListNew c s).1
      else (minyarListNew c s).2) = s₁ at hs hmark
  refine hmark.trans ?_
  rcases ho : s₁.objects.heap list with _ | o
  · rw [ho] at hs
    cases hs
    exact of_heap rfl rfl
  · rw [ho] at hs
    simp only at hs
    by_cases hlarge : o.values.length = 2 ^ 63 - 1
    · rw [if_pos hlarge] at hs
      cases hs
    rw [if_neg hlarge] at hs
    obtain ⟨s₃, hs₃, hs⟩ := bind_eq_ok.mp hs
    obtain ⟨s₄, hs₄, hs⟩ := bind_eq_ok.mp hs
    obtain ⟨s₅, hs₅, hs⟩ := bind_eq_ok.mp hs
    cases hs
    refine (listGrowTo hs₃).trans ((listAddAll hne hs₄).trans ?_)
    split_ifs at hs₅
    · exact listAddTake hne hs₅
    · exact listAdd hne hs₅

/-- A new record. -/
theorem recordAllocate {c : RcConfig} {s : RcState} {fieldCount : ℤ} {references : Bool}
    {r : ℕ × RcState} (hs : Minyar.recordAllocate c s fieldCount references = .ok r) :
    KeepsKind v s.objects r.2.objects := by
  unfold Minyar.recordAllocate at hs
  by_cases hmany : fieldCount < 0 ∨ (2 ^ 64 - 1) / 8 < fieldCount
  · rw [if_pos hmany] at hs
    cases hs
  rw [if_neg hmany] at hs
  by_cases hmemory : (2 ^ 64 - 1 - 8 - 8) / (if references then 9 else 8) < fieldCount
  · rw [if_pos hmemory] at hs
    cases hs
  rw [if_neg hmemory] at hs
  cases hs
  exact allocateObject c s _

/-- A plain value stored in a record of plain values. -/
theorem recordSetScalar {s s' : RcState} {record value : ℕ} {field : ℤ}
    (hs : minyarRecordSetScalar s record field value = .ok s') :
    KeepsKind v s.objects s'.objects := by
  unfold minyarRecordSetScalar at hs
  rcases ho : s.objects.heap record with _ | o
  · rw [ho] at hs
    cases hs
    exact of_heap rfl rfl
  · rw [ho] at hs
    simp only at hs
    split_ifs at hs
    cases hs
    exact modify _ _ _ fun _ => rfl

/-- A value stored in a record. -/
theorem recordSet {c : RcConfig} {s s' : RcState} {record value : ℕ} {field : ℤ}
    (hs : minyarRecordSet c s record field value = .ok s') :
    KeepsKind v s.objects s'.objects := by
  unfold minyarRecordSet at hs
  rcases ho : s.objects.heap record with _ | o
  · rw [ho] at hs
    cases hs
    exact of_heap rfl rfl
  · rw [ho] at hs
    simp only at hs
    split_ifs at hs
    · cases hs
      exact (poll c _ _).after (modify _ _ _ fun _ => rfl)
    · cases hs
      exact modify _ _ _ fun _ => rfl

/-- A reference stored in a record. -/
theorem recordSetTake {c : RcConfig} {s s' : RcState} {record value : ℕ} {field : ℤ}
    (hs : minyarRecordSetTake c s record field value = .ok s') :
    KeepsKind v s.objects s'.objects := by
  unfold minyarRecordSetTake at hs
  rcases ho : s.objects.heap record with _ | o
  · rw [ho] at hs
    cases hs
    exact of_heap rfl rfl
  · rw [ho] at hs
    simp only at hs
    split_ifs at hs
    exact (recordSet hs).after (modify _ _ _ fun _ => rfl)

/-- Detached temporaries. -/
theorem retireTemporaries (s : RcState) (frame : RcFrame) :
    KeepsKind v s.objects (rcBoundedRetireTemporaries s frame).objects := by
  unfold rcBoundedRetireTemporaries
  split_ifs
  · exact refl v _
  all_goals exact of_heap rfl rfl

/-- A new frame. -/
theorem enter {c : RcConfig} {s s' : RcState} {locals : ℤ}
    (hs : minyarRcEnter c s locals = .ok s') : KeepsKind v s.objects s'.objects := by
  unfold minyarRcEnter at hs
  simp only at hs
  split_ifs at hs
  cases hs
  refine (poll c s c.pollBudget).trans ?_
  split <;> exact of_heap rfl rfl

/-- The innermost frame is detached. -/
theorem leave (c : RcConfig) (s : RcState) :
    KeepsKind v s.objects (minyarRcLeave c s).objects := by
  unfold minyarRcLeave
  rcases s.frames with _ | ⟨f, fs⟩
  · exact of_heap rfl rfl
  · exact (retireTemporaries { s with frames := fs } f).trans ((poll c _ _).queues rfl rfl)

/-- A frame after a change. -/
theorem mapFrame (s : RcState) (f : RcFrame → RcFrame) :
    KeepsKind v s.objects (s.mapFrame f).objects := by
  unfold RcState.mapFrame
  rcases s.frames with _ | ⟨x, fs⟩ <;> exact of_heap rfl rfl

/-- An owner kept until the end of the step. -/
theorem keep (c : RcConfig) (s : RcState) (value : ℕ) :
    KeepsKind v s.objects (minyarRcKeep c s value).objects := by
  unfold minyarRcKeep
  split_ifs
  · exact refl v _
  rcases s.objects.heap value with _ | o
  · exact of_heap rfl rfl
  simp only
  split_ifs
  · exact refl v _
  rcases hframes : s.frames with _ | ⟨f, fs⟩
  · exact of_heap rfl rfl
  simp only
  split_ifs
  · exact (servicePending c s _).trans ((mapFrame _ _).trans ((mapFrame _ _).trans
      (servicePending c _ _)))
  · exact (mapFrame _ _).trans (servicePending c _ _)

/-- An owner stored in a local. -/
theorem localTake (c : RcConfig) (s : RcState) (index value : ℕ) :
    KeepsKind v s.objects (minyarRcLocalTake c s index value).objects := by
  unfold minyarRcLocalTake
  rcases s.frames with _ | ⟨f, fs⟩
  · exact of_heap rfl rfl
  · simp only
    rcases f.locals[index]? with _ | previous
    · exact of_heap rfl rfl
    · exact (release c _ _).queues rfl rfl

/-- The owner in a local in the hands of the program. -/
theorem localMove (s : RcState) (index : ℕ) :
    KeepsKind v s.objects (minyarRcLocalMove s index).objects := by
  unfold minyarRcLocalMove
  rcases s.frames with _ | ⟨f, fs⟩
  · exact of_heap rfl rfl
  · simp only
    rcases f.locals[index]? with _ | previous <;> exact of_heap rfl rfl

/-- The end of a step. -/
theorem step (c : RcConfig) (s : RcState) :
    KeepsKind v s.objects (minyarRcStep c s).objects := by
  unfold minyarRcStep
  rcases s.frames with _ | ⟨f, fs⟩
  · exact of_heap rfl rfl
  · exact (retireTemporaries { s with frames := f.retired :: fs } f).trans (poll c _ _)

/-- A new frame in the storage of the caller. -/
theorem enterStack {c : RcConfig} {s s' : RcState} {header : ℕ} {locals : ℤ}
    (hs : minyarRcEnterStack c s header locals = .ok s') :
    KeepsKind v s.objects s'.objects := by
  unfold minyarRcEnterStack at hs
  split_ifs at hs
  · cases hs
    exact (poll c s c.pollBudget).trans (of_heap rfl rfl)
  · exact enter hs

/-- Dropped owners of a frame. -/
theorem dropWritten (frame : RcFrame) (written : ℕ) (s : RcObjects) :
    KeepsKind v s (rcDropWritten frame written s) := by
  induction written generalizing s with
  | zero => exact refl v s
  | succ written ih => exact (drop s _).trans (ih _)

/-- A frame in the storage of the caller is given up. -/
theorem leaveStack (c : RcConfig) (s : RcState) (header : ℕ) :
    KeepsKind v s.objects (minyarRcLeaveStack c s header).objects := by
  unfold minyarRcLeaveStack
  rcases hframes : s.frames with _ | ⟨f, fs⟩
  · exact of_heap rfl rfl
  · simp only
    split_ifs
    · exact (retireTemporaries { s with frames := fs } f).trans
        ((dropWritten f _ _).trans (poll c { rcBoundedRetireTemporaries _ _ with
          objects := _ } _))
    · exact leave c s

end KeepsKind

/-! ## One operation -/

/-- The List that an operation may mark. -/
def RcOp.list : RcOp → Option ℕ
  | listReferences list => some list
  | listAdd list _ => some list
  | listAddTake list _ => some list
  | listSet list _ _ => some list
  | listSetTake list _ _ => some list
  | _ => none

/-- An operation keeps the kinds of all objects but the List that it stores in. -/
theorem RcOp.keepsKind {c : RcConfig} {s : RcState} {op : RcOp} {r : ℕ × RcState} {v : ℕ}
    (hs : op.run c s = .ok r) (hlist : op.list ≠ some v) (hv : v < s.objects.next) :
    KeepsKind v s.objects r.2.objects := by
  have hne : ∀ list, some list ≠ some v → list ≠ v := fun list h heq => h (congrArg some heq)
  cases op with
  | literal bytes =>
    cases hs
    exact KeepsKind.allocate
  | newText bytes =>
    cases hs
    exact .copyText c s bytes
  | textSlice text first last => exact .textSlice hs
  | allocateData =>
    cases hs
    exact .servicePending c s _
  | listNew =>
    cases hs
    exact .allocateObject c s _
  | listReferences list =>
    cases hs
    exact .modifyOther (hne list hlist) s _
  | listAdd list value =>
    obtain ⟨s', hs', rfl⟩ := bind_rcVoid_eq_ok.mp hs
    exact .listAdd (hne list hlist) hs'
  | listAddTake list value =>
    obtain ⟨s', hs', rfl⟩ := bind_rcVoid_eq_ok.mp hs
    exact .listAddTake (hne list hlist) hs'
  | listSet list position value =>
    obtain ⟨s', hs', rfl⟩ := bind_rcVoid_eq_ok.mp hs
    exact .listSetOwned (hne list hlist) hs'
  | listSetTake list position value =>
    obtain ⟨s', hs', rfl⟩ := bind_rcVoid_eq_ok.mp hs
    exact .listSetOwned (hne list hlist) hs'
  | listAppended list value references takeValue => exact .listAppended hv hs
  | recordNew fieldCount => exact .recordAllocate hs
  | recordNewScalar fieldCount => exact .recordAllocate hs
  | recordSetScalar record field value =>
    obtain ⟨s', hs', rfl⟩ := bind_rcVoid_eq_ok.mp hs
    exact .recordSetScalar hs'
  | recordSet record field value =>
    obtain ⟨s', hs', rfl⟩ := bind_rcVoid_eq_ok.mp hs
    exact .recordSet hs'
  | recordSetTake record field value =>
    obtain ⟨s', hs', rfl⟩ := bind_rcVoid_eq_ok.mp hs
    exact .recordSetTake hs'
  | recordSetReference record field value =>
    obtain ⟨s', hs', rfl⟩ := bind_rcVoid_eq_ok.mp hs
    obtain ⟨s₁, hs₁, hs'⟩ := bind_eq_ok.mp hs'
    exact (KeepsKind.retain hs₁).trans (.recordSetTake hs')
  | retain value =>
    obtain ⟨s', hs', rfl⟩ := bind_rcVoid_eq_ok.mp hs
    exact .retain hs'
  | release value =>
    cases hs
    exact .release c s value
  | keep value =>
    cases hs
    exact .keep c s value
  | borrow value =>
    obtain ⟨s', hs', rfl⟩ := bind_rcVoid_eq_ok.mp hs
    obtain ⟨s₁, hs₁, hs'⟩ := bind_eq_ok.mp hs'
    cases hs'
    exact (KeepsKind.retain hs₁).trans (.keep c s₁ value)
  | setLocal index value =>
    obtain ⟨s', hs', rfl⟩ := bind_rcVoid_eq_ok.mp hs
    obtain ⟨s₁, hs₁, hs'⟩ := bind_eq_ok.mp hs'
    cases hs'
    exact (KeepsKind.retain hs₁).trans (.localTake c s₁ index value)
  | localTake index value =>
    cases hs
    exact .localTake c s index value
  | localMove index =>
    cases hs
    exact .localMove s index
  | enter locals =>
    obtain ⟨s', hs', rfl⟩ := bind_rcVoid_eq_ok.mp hs
    exact .enter hs'
  | leave =>
    cases hs
    exact .leave c s
  | step =>
    cases hs
    exact .step c s
  | enterStack header locals =>
    obtain ⟨s', hs', rfl⟩ := bind_rcVoid_eq_ok.mp hs
    exact .enterStack hs'
  | leaveStack header =>
    cases hs
    exact .leaveStack c s header
  | poll budget =>
    cases hs
    exact .poll c s budget

end Minyar

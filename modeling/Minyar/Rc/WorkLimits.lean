import Minyar.Rc.Run

/-!
# The limits of a drop, a release and a unit of work

A drop destroys at most the object whose last owner goes and, when that object is a view, the Text
that owns its bytes.  It destroys both exactly for a *sole view*: a view with one owner whose backing
has no owner but the view.  The contract promises one leaf for a unit and `K` for a release; both
promises are kept exactly when no sole view is dropped, or, for a release, when `K` is at least two.
-/

namespace Minyar

open CountedGraph

/-- A view with one owner whose backing has no other owner. -/
def RcObjects.soleView (s : RcObjects) (v : ℕ) : Bool :=
  match s.heap v with
  | some view => decide (view.kind = .text ∧ view.owners = 1 ∧ view.backing ≠ 0) &&
      match s.heap view.backing with
      | some backing => decide (backing.owners = 1)
      | none => false
  | none => false

/-! ## What a drop destroys -/

/-- The objects that a drop destroys and the work that it reports. -/
inductive RcDestroys (s : RcObjects) (v : ℕ) : ℕ × RcObjects → Prop
  /-- Nothing is destroyed. -/
  | none {s' : RcObjects} (hsole : s.soleView v = false) (hfrees : s'.frees = s.frees) :
      RcDestroys s v (0, s')
  /-- The dropped object is destroyed; it is a leaf. -/
  | leaf {s' : RcObjects} {o : RcObject} (hsole : s.soleView v = false) (ho : s.heap v = some o)
      (hleaf : o.isLeaf = true) (hfrees : s'.frees = v :: s.frees) : RcDestroys s v (1, s')
  /-- A view and its backing are destroyed. -/
  | view {s' : RcObjects} {o b : RcObject} (hsole : s.soleView v = true) (ho : s.heap v = some o)
      (hleaf : o.isLeaf = true) (hb : s.heap o.backing = some b) (hbleaf : b.isLeaf = true)
      (hfrees : s'.frees = o.backing :: v :: s.frees) : RcDestroys s v (2, s')

namespace RcObjectsInv

variable {s : RcObjects} {T : Multiset ℕ} {extra v : ℕ} {q : RcQueues} {o : RcObject}

theorem soleView_of_owners (ho : s.heap v = some o) (h1 : o.owners ≠ 1) :
    s.soleView v = false := by
  simp [RcObjects.soleView, ho, h1]

theorem soleView_of_kind (ho : s.heap v = some o) (hkind : o.kind ≠ .text) :
    s.soleView v = false := by
  simp [RcObjects.soleView, ho, hkind]

theorem soleView_of_backing (ho : s.heap v = some o) (hb : o.backing = 0) :
    s.soleView v = false := by
  simp [RcObjects.soleView, ho, hb]

/-- The backing of an alive view is an alive Text that owns its bytes. -/
theorem exists_backing (h : RcObjectsInv s T extra q) (ho : s.heap v = some o)
    (hv : v ∉ rcDead s.active q) (hkind : o.kind = .text) (hb : o.backing ≠ 0) :
    ∃ b, s.heap o.backing = some b ∧ o.backing ∉ rcDead s.active q ∧ b.kind = .text ∧
      b.backing = 0 ∧ o.backing ≠ v := by
  have h0 : o.owners ≠ 0 := fun h0 => hb ((h.cells v o ho).immortal hv h0).2
  have hslot : o.backing ∈ o.node.slots := by
    rw [RcObject.node_slots h0]
    simp [RcObject.slots, hkind]
  obtain ⟨y, hy, halive⟩ := h.counted.exists_of_slot (rcView_alive ho hv) hslot hb
  obtain ⟨b, hbo, hbdead, -⟩ := exists_of_rcView_alive hy halive
  obtain ⟨hbkind, hbb⟩ := (h.cells v o ho).flat hkind b hbo
  refine ⟨b, hbo, hbdead, hbkind, hbb, fun hself => hb ?_⟩
  rw [hself, ho] at hbo
  cases hbo
  exact hbb

/-- A drop destroys a view and its backing if the view is a sole view, and at most one leaf
otherwise. -/
theorem drop_destroys (h : RcObjectsInv s (v ::ₘ T) extra q) (hnext : s.next ≠ 0) :
    RcDestroys s v (rcDrop s v) := by
  obtain ⟨fuel, hfuel⟩ : ∃ n, s.next = n + 1 := ⟨s.next - 1, by omega⟩
  unfold rcDrop
  rw [hfuel]
  by_cases hv0 : v = 0
  · subst hv0
    have hsole : s.soleView 0 = false := by
      rcases ho : s.heap 0 with _ | o
      · simp [RcObjects.soleView, ho]
      · exact absurd rfl (h.ne_zero ho)
    rw [rcDropChain_null]
    exact .none hsole rfl
  obtain ⟨o, ho, hv⟩ := h.exists_of_mem (Multiset.mem_cons_self v T) hv0
  have hcases : o.owners = 0 ∨ o.owners = 1 ∨ 2 ≤ o.owners := by omega
  rcases hcases with h0 | h1 | h2
  · rw [rcDropChain_immortal hv0 ho h0]
    exact .none (soleView_of_owners ho (by omega)) rfl
  · by_cases htext : o.kind = .text
    · have hleaf : o.isLeaf = true := by simp [RcObject.isLeaf, htext]
      rw [rcDropChain_text hv0 ho h1 htext]
      by_cases hb : o.backing = 0
      · rw [if_pos hb]
        exact .leaf (soleView_of_backing ho hb) ho hleaf rfl
      · rw [if_neg hb]
        obtain ⟨b, hbo, -, hbkind, hbb, hne⟩ := h.exists_backing ho hv htext hb
        have hbleaf : b.isLeaf = true := by simp [RcObject.isLeaf, hbkind]
        have hbfree : (s.free v).heap o.backing = some b := by
          rw [RcObjects.free_heap_of_ne s hne]
          exact hbo
        -- There is fuel for the backing, because both have names below the next one.
        obtain ⟨fuel, rfl⟩ : ∃ n, fuel = n + 1 := by
          have := h.ne_zero ho
          have := h.lt_next ho
          exact ⟨fuel - 1, by omega⟩
        have hbcases : b.owners = 0 ∨ b.owners = 1 ∨ 2 ≤ b.owners := by omega
        rcases hbcases with hb0 | hb1 | hb2
        · rw [rcDropChain_immortal hb hbfree hb0]
          exact .leaf (by simp [RcObjects.soleView, ho, hbo, hb0]) ho hleaf rfl
        · rw [rcDropChain_text hb hbfree hb1 hbkind, if_pos hbb]
          exact .view (by simp [RcObjects.soleView, ho, hbo, hb1, htext, h1, hb]) ho hleaf hbo
            hbleaf rfl
        · rw [rcDropChain_shared hb hbfree hb2]
          have hb1 : b.owners ≠ 1 := by omega
          exact .leaf (by simp [RcObjects.soleView, ho, hbo, hb1]) ho hleaf rfl
    · have hsole := soleView_of_kind ho htext
      by_cases hleaf : o.isLeaf = true
      · rw [rcDropChain_leaf hv0 ho h1 htext hleaf]
        exact .leaf hsole ho hleaf rfl
      · rw [rcDropChain_branch hv0 ho h1 (by simpa using hleaf)]
        exact .none hsole rfl
  · rw [rcDropChain_shared hv0 ho h2]
    exact .none (soleView_of_owners ho (by omega)) rfl

end RcObjectsInv

/-! ## The work of a release -/

/-- The units that `rc_service_pending` reports. -/
def rcServicePendingWork (c : RcConfig) (s : RcState) (budget : ℕ) : ℕ :=
  if s.objects.pending ≠ 0 then (minyarRcPoll c s budget).1 else 0

/-- `rc_bounded_last_work` after a release: the objects destroyed at once and the queued units. -/
def minyarRcReleaseWork (c : RcConfig) (s : RcState) (value : ℕ) : ℕ :=
  let dropped := rcDrop s.objects value
  rcServicePendingWork c { s with objects := dropped.2 }
    (if dropped.1 < c.pollBudget then c.pollBudget - dropped.1 else 0) + dropped.1

/-- The reference does at most as many units as the budget allows. -/
theorem rcReferencePoll_le (c : RcConfig) (budget : ℕ) (s : RcState) :
    (rcReferencePoll c budget s).1 ≤ budget := by
  induction budget generalizing s with
  | zero => exact Nat.zero_le _
  | succ budget ih =>
    rw [rcReferencePoll]
    split_ifs with hpending
    · exact Nat.zero_le _
    · exact Nat.succ_le_succ (ih _)

/-- Service does at most as many units as the budget allows. -/
theorem RcInv.servicePendingWork_le {s : RcState} {E : Multiset ℕ} {q : RcQueues}
    (h : RcInv s E q) (c : RcConfig) (budget : ℕ) :
    rcServicePendingWork c s budget ≤ budget := by
  unfold rcServicePendingWork
  split_ifs with hpending
  · rw [h.poll_eq_reference]
    exact (rcReferencePoll_le c _ s).trans (min_le_left _ _)
  · exact Nat.zero_le _

/-- In every state that a run reaches, the work of a release is within the budget of the build
exactly when that budget is at least two or the released value is no sole view. -/
theorem minyarRcReleaseWork_le_iff {c : RcConfig} {ops : List RcOp} {L : RcLedger} {s : RcState}
    (h : RcRun c ops L s) {value : ℕ} (hlegal : (RcOp.release value).Legal L) :
    minyarRcReleaseWork c s value ≤ c.pollBudget ↔
      1 < c.pollBudget ∨ s.objects.soleView value = false := by
  obtain ⟨q, hq⟩ := h.refines
  have hgiven := hq.take hlegal
  have hobjects := hgiven.inv.objects
  rw [show ((L.take value).give value).held = value ::ₘ (L.take value).held from rfl,
    rcTokens_cons] at hobjects
  have hdestroys := hobjects.drop_destroys hgiven.inv.next
  obtain ⟨q', hdropped⟩ := hgiven.drop
  have hwork := hdropped.inv.servicePendingWork_le c
    (if (rcDrop s.objects value).1 < c.pollBudget then c.pollBudget - (rcDrop s.objects value).1
      else 0)
  have hK := c.pollBudget_pos
  unfold minyarRcReleaseWork
  simp only
  generalize rcServicePendingWork c _ _ = work at hwork ⊢
  generalize hd : rcDrop s.objects value = dropped at hdestroys hwork
  cases hdestroys with
  | none hsole hfrees =>
    rw [if_pos hK] at hwork
    exact iff_of_true (by omega) (Or.inr hsole)
  | leaf hsole ho hleaf hfrees =>
    refine iff_of_true ?_ (Or.inr hsole)
    split_ifs at hwork <;> omega
  | view hsole ho hleaf hb hbleaf hfrees =>
    have hlimit : (1 < c.pollBudget ∨ s.objects.soleView value = false) ↔ 1 < c.pollBudget :=
      or_iff_left (by simp [hsole])
    rw [hlimit]
    split_ifs at hwork <;> omega

/-- A run that leaves a view as the only owner of the Text that it was cut from. -/
theorem rcRun_soleView : ∃ L s,
    RcRun RcConfig.smallest [.newText [97, 98], .textSlice 1 0 1, .release 1] L s ∧
      (RcOp.release 2).Legal L ∧ s.objects.soleView 2 = true ∧
      minyarRcReleaseWork RcConfig.smallest s 2 = 2 := by
  have h₁ := @RcRun.step RcConfig.smallest [] (.newText [97, 98]) _ _ _ .nil trivial rfl
  have h₂ := @RcRun.step RcConfig.smallest [.newText [97, 98]] (.textSlice 1 0 1) _ _ _ h₁
    ⟨Or.inr (Or.inr (.owner (Multiset.mem_cons_self 1 0) (by decide))), [97, 98], 0, false, rfl,
      by decide, by decide⟩ rfl
  have h₃ := @RcRun.step RcConfig.smallest [.newText [97, 98], .textSlice 1 0 1] (.release 1)
    _ _ _ h₂ (Or.inr (Or.inr (by decide))) rfl
  exact ⟨_, _, h₃, Or.inr (Or.inr (by decide)), rfl, rfl⟩

/-- With a budget of one the release of that view does two units of work. -/
theorem minyarRcReleaseWork_exceeds : ¬ ∀ (c : RcConfig) (ops : List RcOp) (L : RcLedger)
    (s : RcState) (value : ℕ), RcRun c ops L s → (RcOp.release value).Legal L →
      minyarRcReleaseWork c s value ≤ c.pollBudget := by
  intro hall
  obtain ⟨L, s, hrun, hlegal, -, hwork⟩ := rcRun_soleView
  have := hall _ _ _ _ 2 hrun hlegal
  rw [hwork] at this
  exact absurd this (by decide)

/-- The release of a record stays within the smallest budget. -/
theorem minyarRcReleaseWork_le_iff_record : ∃ L s,
    RcRun RcConfig.smallest [.recordNew 1] L s ∧
      (minyarRcReleaseWork RcConfig.smallest s 1 ≤ 1 ↔
        1 < RcConfig.smallest.pollBudget ∨ s.objects.soleView 1 = false) := by
  have h₁ := @RcRun.step RcConfig.smallest [] (.recordNew 1) _ _ _ .nil trivial rfl
  exact ⟨_, _, h₁, minyarRcReleaseWork_le_iff h₁ (Or.inr (Or.inr (Multiset.mem_cons_self 1 0)))⟩

/-! ## The storage that a unit returns -/

/-- The deallocations of `rcBoundedFinishObject`: the bytes and the index of a Text, the slots of a List,
and the object.  The List of a container that has members has slots. -/
def RcObject.deallocations (object : RcObject) (indexed : Bool) : ℕ :=
  match object.kind with
  | .text => (if object.backing = 0 then 1 else 0) + (if indexed then 1 else 0) + 1
  | .list | .references | .referencesImmortal =>
      (if object.capacity = 0 ∧ object.values = [] then 0 else 1) + 1
  | .record | .scalarRecord => 1

/-- No object has more than three parts. -/
theorem RcObject.deallocations_le (object : RcObject) (indexed : Bool) :
    object.deallocations indexed ≤ 3 := by
  unfold RcObject.deallocations
  split
  · split_ifs <;> decide
  · split_ifs <;> decide
  · split_ifs <;> decide
  · split_ifs <;> decide
  · decide
  · decide

/-- The objects that are destroyed between two states. -/
def rcDestroyed (s s' : RcObjects) : List ℕ := s'.frees.take (s'.frees.length - s.frees.length)

/-- The leaves among some objects. -/
def rcLeaves (s : RcObjects) (destroyed : List ℕ) : List ℕ :=
  destroyed.filter fun r => (s.heap r).any RcObject.isLeaf

/-- The deallocations for some objects; `indexed` are the Texts with an index. -/
def rcDeallocations (s : RcObjects) (indexed : ℕ → Bool) (destroyed : List ℕ) : ℕ :=
  (destroyed.map fun r => ((s.heap r).map fun o => o.deallocations (indexed r)).getD 0).sum

/-- The owner that the next unit on the oldest batch drops; zero when it destroys an object. -/
def rcBoundedOldObjectUnitOwner (s : RcObjects) : ℕ :=
  let s := if s.active = 0 then rcBoundedActivate s else s
  match s.heap s.active with
  | none => 0
  | some object =>
    if (object.kind = .references ∨ object.kind = .record) ∧ s.cursor < object.values.length then
      object.child s.cursor
    else 0

/-- The owner that the next unit on the recent stack drops. -/
def rcBoundedRecentObjectUnitOwner (s : RcObjects) : ℕ :=
  match s.heap s.recentHead with
  | none => 0
  | some object =>
    let cursor := rcBoundedSavedCursor object
    if cursor < object.values.length then object.child cursor else 0

/-- The owner that the next unit on the dead objects drops. -/
def rcBoundedObjectUnitOwner (s : RcObjects) : ℕ :=
  let s := if s.active = 0 ∧ s.head = 0 then rcBoundedCapture s else s
  let recent := s.recentTurn
  let s := { s with recentTurn := !s.recentTurn }
  if recent = true ∧ s.recentHead ≠ 0 then
    if s.head = 0 ∧ s.active ≠ 0 ∧ rcBoundedUnaryActive s = true then rcBoundedOldObjectUnitOwner s
    else rcBoundedRecentObjectUnitOwner s
  else rcBoundedOldObjectUnitOwner s

/-- The owner that the next unit on the detached frames drops. -/
def rcBoundedFrameUnitOwner (s : RcState) : ℕ :=
  match s.frameQueue with
  | [] => 0
  | frame :: _ =>
    match frame.localCount with
    | position + 1 => rcBoundedPendingLocalValue frame position
    | 0 => 0

/-- The owner that the next unit on the detached chunks drops. -/
def rcBoundedChunkUnitOwner (s : RcState) : ℕ :=
  match s.chunkQueue with
  | [] => 0
  | chunk :: _ => chunk.getLast?.getD 0

/-- The owner that the next unit of service drops; zero when it finalizes a task. -/
def rcPollUnitOwner (s : RcState) : ℕ :=
  let queue := rcPickQueue s 3 s.nextQueue
  if queue = 0 then rcBoundedObjectUnitOwner s.objects
  else if queue = 1 then rcBoundedFrameUnitOwner s
  else rcBoundedChunkUnitOwner s

/-- The deallocations that retire a frame or a chunk in the next unit: a frame that does not fit the
cache and its slots, or a chunk. -/
def rcPollUnitRetires (c : RcConfig) (s : RcState) : ℕ :=
  let queue := rcPickQueue s 3 s.nextQueue
  if queue = 1 then
    match s.frameQueue with
    | [] => 0
    | frame :: _ =>
      if frame.localCount = 0 ∧ ¬ (frame.charge c ≤ c.frameCacheBytes ∧
          s.cachedFrameBytes ≤ c.frameCacheBytes - frame.charge c) then
        (if frame.localCapacity = 0 then 0 else 1) + 1
      else 0
  else if queue = 2 then
    match s.chunkQueue with
    | [] => 0
    | chunk :: _ => if chunk = [] then 1 else 0
  else 0

/-- The leaves that the next unit destroys. -/
def rcPollUnitLeaves (c : RcConfig) (s : RcState) : ℕ :=
  (rcLeaves s.objects (rcDestroyed s.objects (rcPollUnit c s).objects)).length

/-- The deallocations of the next unit. -/
def rcPollUnitDeallocations (c : RcConfig) (indexed : ℕ → Bool) (s : RcState) : ℕ :=
  rcDeallocations s.objects indexed (rcDestroyed s.objects (rcPollUnit c s).objects) +
    rcPollUnitRetires c s

/-! ## What a unit destroys -/

/-- A unit drops an owner, or it destroys a dead container. -/
inductive RcUnitDestroys (s s' : RcObjects) (owner : ℕ) : Prop
  /-- An owner is dropped. -/
  | owner {n : ℕ} (h : RcDestroys s owner (n, s'))
  /-- A dead container is destroyed. -/
  | task {r : ℕ} {o : RcObject} (hsole : s.soleView owner = false) (ho : s.heap r = some o)
      (hleaf : o.isLeaf = false) (hfrees : s'.frees = r :: s.frees)

/-- Only the objects matter. -/
theorem RcUnitDestroys.of_heap {s s₁ s' : RcObjects} {owner : ℕ} (h : RcUnitDestroys s₁ s' owner)
    (hheap : s₁.heap = s.heap) (hfrees : s₁.frees = s.frees) : RcUnitDestroys s s' owner := by
  have hsole : s₁.soleView owner = s.soleView owner := by
    unfold RcObjects.soleView
    rw [hheap]
  cases h with
  | owner h =>
    cases h with
    | none hs hf => exact .owner (.none (hsole ▸ hs) (hfrees ▸ hf))
    | leaf hs ho hleaf hf => exact .owner (.leaf (hsole ▸ hs) (hheap ▸ ho) hleaf (hfrees ▸ hf))
    | view hs ho hleaf hb hbleaf hf =>
      exact .owner (.view (hsole ▸ hs) (hheap ▸ ho) hleaf (hheap ▸ hb) hbleaf (hfrees ▸ hf))
  | task hs ho hleaf hf => exact .task (hsole ▸ hs) (hheap ▸ ho) hleaf (hfrees ▸ hf)

theorem rcDestroyed_eq {s s' : RcObjects} {l : List ℕ} (h : s'.frees = l ++ s.frees) :
    rcDestroyed s s' = l := by
  unfold rcDestroyed
  rw [h, List.length_append, Nat.add_sub_cancel, List.take_left]

theorem rcLeaves_cons {s : RcObjects} {r : ℕ} {o : RcObject} (ho : s.heap r = some o)
    (l : List ℕ) : rcLeaves s (r :: l) = if o.isLeaf then r :: rcLeaves s l else rcLeaves s l := by
  unfold rcLeaves
  rw [List.filter_cons, ho]
  rfl

theorem rcDeallocations_cons {s : RcObjects} {r : ℕ} {o : RcObject} (ho : s.heap r = some o)
    (indexed : ℕ → Bool) (l : List ℕ) : rcDeallocations s indexed (r :: l) =
      o.deallocations (indexed r) + rcDeallocations s indexed l := by
  unfold rcDeallocations
  rw [List.map_cons, List.sum_cons, ho]
  rfl

/-- The null pointer is no view. -/
theorem RcObjectsInv.soleView_zero {s : RcObjects} {T : Multiset ℕ} {extra : ℕ} {q : RcQueues}
    (h : RcObjectsInv s T extra q) : s.soleView 0 = false := by
  unfold RcObjects.soleView
  rw [h.heap_zero]

/-- Nor is it after a change of the dead objects. -/
theorem RcObjectsInv.soleView_zero_of_heap {s s₁ : RcObjects} {T : Multiset ℕ} {extra : ℕ}
    {q : RcQueues} (h : RcObjectsInv s₁ T extra q)
    (hheap : ∀ w, w ∉ rcDead s₁.active q → s₁.heap w = s.heap w) : s.soleView 0 = false := by
  have hzero : 0 ∉ rcDead s₁.active q := fun hmem => h.dead 0 hmem h.heap_zero
  unfold RcObjects.soleView
  rw [← hheap 0 hzero, h.heap_zero]

/-- A unit keeps the promises exactly when it drops no sole view. -/
theorem RcUnitDestroys.limits {s s' : RcObjects} {owner : ℕ} (h : RcUnitDestroys s s' owner)
    (indexed : ℕ → Bool) :
    (rcLeaves s (rcDestroyed s s')).length ≤ 1 ∧
        rcDeallocations s indexed (rcDestroyed s s') ≤ 3 ↔ s.soleView owner = false := by
  cases h with
  | owner h =>
    cases h with
    | none hsole hfrees =>
      rw [rcDestroyed_eq (l := []) hfrees]
      exact iff_of_true ⟨Nat.zero_le _, Nat.zero_le _⟩ hsole
    | leaf hsole ho hleaf hfrees =>
      rename_i o
      rw [rcDestroyed_eq (l := [owner]) hfrees, rcLeaves_cons ho, rcDeallocations_cons ho,
        if_pos hleaf]
      exact iff_of_true ⟨le_rfl, o.deallocations_le _⟩ hsole
    | view hsole ho hleaf hb hbleaf hfrees =>
      rename_i o b
      rw [rcDestroyed_eq (l := [o.backing, owner]) hfrees, rcLeaves_cons hb, rcLeaves_cons ho,
        if_pos hleaf, if_pos hbleaf]
      refine iff_of_false (fun hlimits => ?_) (by simp [hsole])
      exact absurd hlimits.1 (by simp [rcLeaves])
  | task hsole ho hleaf hfrees =>
    rename_i r o
    rw [rcDestroyed_eq (l := [r]) hfrees, rcLeaves_cons ho, rcDeallocations_cons ho, hleaf]
    exact iff_of_true ⟨Nat.zero_le _, o.deallocations_le _⟩ hsole

namespace RcObjectsInv

variable {s s₁ : RcObjects} {T : Multiset ℕ} {extra v r : ℕ} {q : RcQueues} {o : RcObject}

/-- Sole views are told from alive objects. -/
theorem soleView_congr (h : RcObjectsInv s₁ (v ::ₘ T) extra q)
    (hheap : ∀ w, w ∉ rcDead s₁.active q → s₁.heap w = s.heap w) :
    s₁.soleView v = s.soleView v := by
  by_cases hv0 : v = 0
  · have hzero : 0 ∉ rcDead s₁.active q := fun hmem => h.dead 0 hmem h.heap_zero
    unfold RcObjects.soleView
    rw [hv0, ← hheap 0 hzero, h.heap_zero]
  obtain ⟨o, ho, hv⟩ := h.exists_of_mem (Multiset.mem_cons_self v T) hv0
  have ho' : s.heap v = some o := (hheap v hv).symm.trans ho
  by_cases hview : o.kind = .text ∧ o.backing ≠ 0
  · obtain ⟨b, hb, hbdead, -⟩ := h.exists_backing ho hv hview.1 hview.2
    unfold RcObjects.soleView
    rw [ho, ho']
    simp only [hheap _ hbdead]
  · have hnot : ¬ (o.kind = .text ∧ o.owners = 1 ∧ o.backing ≠ 0) := fun h => hview ⟨h.1, h.2.2⟩
    unfold RcObjects.soleView
    simp only [ho, ho', decide_eq_false hnot, Bool.false_and]

/-- A drop after a change of the dead objects. -/
theorem drop_destroys_of_heap (h : RcObjectsInv s₁ (v ::ₘ T) extra q) (hnext : s₁.next ≠ 0)
    (hheap : ∀ w, w ∉ rcDead s₁.active q → s₁.heap w = s.heap w) (hfrees : s₁.frees = s.frees) :
    RcUnitDestroys s (rcDrop s₁ v).2 v := by
  have hsole := h.soleView_congr hheap
  have hdestroys := h.drop_destroys hnext
  have halive : ∀ o, s₁.heap v = some o → v ∈ rcDead s₁.active q → False := by
    intro o ho hv
    obtain ⟨o', -, hv'⟩ := h.exists_of_mem (Multiset.mem_cons_self v T) (h.ne_zero ho)
    exact hv' hv
  generalize rcDrop s₁ v = dropped at hdestroys ⊢
  cases hdestroys with
  | none hs hf => exact .owner (.none (hsole ▸ hs) (hfrees ▸ hf))
  | leaf hs ho hleaf hf =>
    refine .owner (.leaf (hsole ▸ hs) ?_ hleaf (hfrees ▸ hf))
    rw [← hheap v (halive _ ho)]
    exact ho
  | view hs ho hleaf hb hbleaf hf =>
    rename_i o b
    have hbdead : o.backing ∉ rcDead s₁.active q := fun hmem => by
      have := (h.cells _ b hb).branch hmem
      rw [hbleaf] at this
      cases this
    refine .owner (.view (hsole ▸ hs) ?_ hleaf ?_ hbleaf (hfrees ▸ hf))
    · rw [← hheap v (halive _ ho)]
      exact ho
    · rw [← hheap _ hbdead]
      exact hb

/-- A unit on the object in service, after a change of the dead objects. -/
theorem activeUnit_destroys (h : RcObjectsInv s₁ T extra q) (hactive : s₁.active ≠ 0)
    (hheap : ∀ w, w ∉ rcDead s₁.active q → s₁.heap w = s.heap w) (hfrees : s₁.frees = s.frees)
    (hdead : ∀ o, s₁.heap s₁.active = some o →
      ∃ o₀, s.heap s₁.active = some o₀ ∧ o₀.isLeaf = o.isLeaf) :
    RcUnitDestroys s (rcBoundedOldObjectUnit s₁) (rcBoundedOldObjectUnitOwner s₁) := by
  obtain ⟨o, ho, hleaf, -⟩ := h.exists_of_dead (active_mem (q := q) hactive)
  have hkind : o.kind = .references ∨ o.kind = .record := RcObject.kind_of_not_isLeaf hleaf
  unfold rcBoundedOldObjectUnit rcBoundedOldObjectUnitOwner
  simp only [if_neg hactive, ho, hkind, true_and]
  by_cases hlt : s₁.cursor < o.values.length
  · rw [if_pos hlt, if_pos hlt]
    obtain ⟨hinv, -⟩ := h.visit_active hactive ho hleaf hlt
    have hnext : s₁.next ≠ 0 := Nat.ne_of_gt (Nat.lt_of_le_of_lt (Nat.zero_le _) (h.lt_next ho))
    exact hinv.drop_destroys_of_heap hnext hheap hfrees
  · rw [if_neg hlt, if_neg hlt]
    obtain ⟨o₀, ho₀, hleaf₀⟩ := hdead o ho
    refine .task (h.soleView_zero_of_heap hheap) ho₀ (hleaf₀.trans hleaf) ?_
    change s₁.active :: s₁.frees = _
    rw [hfrees]

/-- A unit on the oldest batch. -/
theorem oldObjectUnit_destroys (h : RcObjectsInv s T extra q)
    (hready : s.active ≠ 0 ∨ s.head ≠ 0) :
    RcUnitDestroys s (rcBoundedOldObjectUnit s) (rcBoundedOldObjectUnitOwner s) := by
  by_cases hactive : s.active = 0
  · have hhead : s.head ≠ 0 := hready.resolve_left (not_not_intro hactive)
    obtain ⟨rs, hold, hinv, -, hact⟩ := h.activate hactive hhead
    have hact' : (rcBoundedActivate s).active ≠ 0 := by
      rw [hact]
      exact hhead
    have hunit : rcBoundedOldObjectUnit s = rcBoundedOldObjectUnit (rcBoundedActivate s) := by
      unfold rcBoundedOldObjectUnit
      simp only [if_pos hactive, if_neg hact']
    have howner : rcBoundedOldObjectUnitOwner s =
        rcBoundedOldObjectUnitOwner (rcBoundedActivate s) := by
      unfold rcBoundedOldObjectUnitOwner
      simp only [if_pos hactive, if_neg hact']
    have hmem : s.head ∈ rcDead s.active q := by
      rw [rcDead, hold]
      simp
    obtain ⟨o, ho, -⟩ := h.exists_of_dead hmem
    -- Only the link of the first object changes.
    have hactivate : rcBoundedActivate s = { s.write s.head { o with owners := 0 } with
        active := s.head
        head := o.owners
        tail := if o.owners = 0 then 0 else s.tail
        cursor := rcBoundedSavedCursor o } := by
      unfold rcBoundedActivate
      rw [ho]
    rw [hunit, howner]
    refine hinv.activeUnit_destroys hact' (fun w hw => ?_) (by rw [hactivate]; rfl)
      fun o' ho' => ⟨o, by rw [hact]; exact ho, ?_⟩
    · have hne : w ≠ s.head := by
        rintro rfl
        rw [hact] at hw
        exact hw (by simp [rcDead, hhead])
      rw [hactivate]
      exact RcObjects.write_heap_of_ne s _ hne
    · rw [hact, hactivate] at ho'
      have hself := RcObjects.write_heap_self s s.head { o with owners := 0 }
      rw [show _ = some o' from ho'] at hself
      cases hself
      rfl
  · exact h.activeUnit_destroys hactive (fun _ _ => rfl) rfl fun o ho => ⟨o, ho, rfl⟩

/-- A unit on the recent stack. -/
theorem recentObjectUnit_destroys (h : RcObjectsInv s T extra q) (hready : s.recentHead ≠ 0) :
    RcUnitDestroys s (rcBoundedRecentObjectUnit s) (rcBoundedRecentObjectUnitOwner s) := by
  obtain ⟨old, recent⟩ := q
  rcases recent with _ | ⟨r, rs⟩
  · exact absurd h.recent hready
  obtain ⟨hr, -, o, ho, -⟩ := h.recent
  have hmem : r ∈ rcDead s.active ⟨old, r :: rs⟩ := by
    simp [rcDead]
  unfold rcBoundedRecentObjectUnit rcBoundedRecentObjectUnitOwner
  simp only [hr, ho]
  by_cases hlt : rcBoundedSavedCursor o < o.values.length
  · rw [if_pos hlt, if_pos hlt]
    obtain ⟨hinv, -⟩ := h.visit_recent ho hlt
    have hnext : s.next ≠ 0 := Nat.ne_of_gt (Nat.lt_of_le_of_lt (Nat.zero_le _) (h.lt_next ho))
    refine hinv.drop_destroys_of_heap hnext (fun w hw => ?_) rfl
    have hne : w ≠ r := by
      rintro rfl
      exact hw hmem
    exact RcObjects.write_heap_of_ne s _ hne
  · rw [if_neg hlt, if_neg hlt]
    exact .task h.soleView_zero ho ((h.cells r o ho).branch hmem) rfl

/-- A unit on the dead objects. -/
theorem objectUnit_destroys (h : RcObjectsInv s T extra q) (hready : rcDead s.active q ≠ []) :
    RcUnitDestroys s (rcBoundedObjectUnit s) (rcBoundedObjectUnitOwner s) := by
  -- The capture moves no object.
  have hcapture : ∃ s₁ q₁, s₁ = (if s.active = 0 ∧ s.head = 0 then rcBoundedCapture s else s) ∧
      RcObjectsInv s₁ T extra q₁ ∧ s₁.heap = s.heap ∧ s₁.frees = s.frees ∧
      (s₁.active ≠ 0 ∨ s₁.head ≠ 0) := by
    by_cases hempty : s.active = 0 ∧ s.head = 0
    · obtain ⟨hinv, -⟩ := h.capture hempty.1 hempty.2
      have hold : q.old = [] := h.old.eq_nil_iff.mpr hempty.2
      refine ⟨_, _, (if_pos hempty).symm, hinv, rfl, rfl, Or.inr fun hzero => hready ?_⟩
      have hrecent : q.recent = [] := h.recent.eq_nil_iff.mpr hzero
      simp [rcDead, hempty.1, hold, hrecent]
    · exact ⟨s, q, (if_neg hempty).symm, h, rfl, rfl, by tauto⟩
  obtain ⟨s₁, q₁, hs₁, hinv, hheap, hfrees, hready₁⟩ := hcapture
  unfold rcBoundedObjectUnit rcBoundedObjectUnitOwner
  simp only [← hs₁]
  have hinv₁ := hinv.with_turn (!s₁.recentTurn)
  split_ifs with hrecent hunary
  · exact (hinv₁.oldObjectUnit_destroys (Or.inl hunary.2.1)).of_heap hheap hfrees
  · exact (hinv₁.recentObjectUnit_destroys hrecent.2).of_heap hheap hfrees
  · exact (hinv₁.oldObjectUnit_destroys hready₁).of_heap hheap hfrees

end RcObjectsInv

/-! ## The limits of a unit -/

namespace RcInv

variable {s : RcState} {E : Multiset ℕ} {q : RcQueues}

/-- A unit on the detached frames. -/
theorem frameUnit_destroys (h : RcInv s E q) (c : RcConfig) (hready : s.frameQueue ≠ []) :
    RcUnitDestroys s.objects (rcBoundedFrameUnit c s).objects (rcBoundedFrameUnitOwner s) := by
  rcases hqueue : s.frameQueue with _ | ⟨frame, queue⟩
  · exact absurd hqueue hready
  unfold rcBoundedFrameUnit rcBoundedFrameUnitOwner
  rcases hcount : frame.localCount with _ | position
  · simp only [hqueue, hcount]
    exact .owner (.none h.objects.soleView_zero rfl)
  · simp only [hqueue, hcount]
    have hobjects := h.objects
    rw [rcTokens_frame hqueue hcount] at hobjects
    exact .owner (hobjects.drop_destroys h.next)

/-- A unit on the detached chunks. -/
theorem chunkUnit_destroys (h : RcInv s E q) (hready : s.chunkQueue ≠ []) :
    RcUnitDestroys s.objects (rcBoundedChunkUnit s).objects (rcBoundedChunkUnitOwner s) := by
  rcases hqueue : s.chunkQueue with _ | ⟨chunk, queue⟩
  · exact absurd hqueue hready
  unfold rcBoundedChunkUnit rcBoundedChunkUnitOwner
  rcases hchunk : chunk.getLast? with _ | value
  · simp only [hqueue, hchunk]
    exact .owner (.none h.objects.soleView_zero rfl)
  · simp only [hqueue, hchunk]
    have hobjects := h.objects
    rw [rcTokens_chunk hqueue hchunk] at hobjects
    exact .owner (hobjects.drop_destroys h.next)

/-- A unit of service. -/
theorem pollUnit_destroys (h : RcInv s E q) (c : RcConfig) (hpending : s.objects.pending ≠ 0) :
    RcUnitDestroys s.objects (rcPollUnit c s).objects (rcPollUnitOwner s) := by
  obtain ⟨hready, hlt⟩ := h.pickQueue_ready hpending
  unfold rcPollUnit rcPollUnitOwner
  set queue := rcPickQueue s 3 s.nextQueue with hqueue
  have hcases : queue = 0 ∨ queue = 1 ∨ queue = 2 := by omega
  rcases hcases with hq | hq | hq <;> simp only [hq] at hready ⊢
  · exact h.objects.objectUnit_destroys (h.queueReady_objects.mp hready)
  · have hnext : RcInv { s with nextQueue := 2 } E q :=
      ⟨h.objects, h.frames, h.next, Nat.lt_succ_self 2⟩
    refine hnext.frameUnit_destroys c ?_
    simpa [RcState.queueReady] using hready
  · have hnext : RcInv { s with nextQueue := 0 } E q :=
      ⟨h.objects, h.frames, h.next, Nat.succ_pos 2⟩
    refine hnext.chunkUnit_destroys ?_
    simpa [RcState.queueReady] using hready

end RcInv

/-- A unit that returns the storage of a frame or a chunk destroys no object, and it returns at most
two blocks. -/
theorem rcPollUnit_retires (c : RcConfig) (s : RcState) : rcPollUnitRetires c s = 0 ∨
    (rcPollUnitRetires c s ≤ 2 ∧ (rcPollUnit c s).objects.frees = s.objects.frees) := by
  unfold rcPollUnitRetires rcPollUnit
  by_cases h1 : rcPickQueue s 3 s.nextQueue = 1
  · simp only [h1, if_true, Nat.one_ne_zero, if_false]
    rcases hqueue : s.frameQueue with _ | ⟨frame, queue⟩
    · exact Or.inl rfl
    · simp only
      by_cases hretire : frame.localCount = 0 ∧ ¬ (frame.charge c ≤ c.frameCacheBytes ∧
          s.cachedFrameBytes ≤ c.frameCacheBytes - frame.charge c)
      · rw [if_pos hretire]
        refine Or.inr ⟨by split_ifs <;> decide, ?_⟩
        unfold rcBoundedFrameUnit
        simp only [hretire.1]
      · rw [if_neg hretire]
        exact Or.inl rfl
  by_cases h2 : rcPickQueue s 3 s.nextQueue = 2
  · simp only [h2, OfNat.ofNat_ne_one, OfNat.ofNat_ne_zero, if_true, if_false]
    rcases hqueue : s.chunkQueue with _ | ⟨chunk, queue⟩
    · exact Or.inl rfl
    · simp only
      by_cases hchunk : chunk = []
      · rw [if_pos hchunk]
        refine Or.inr ⟨by decide, ?_⟩
        unfold rcBoundedChunkUnit
        simp only [hchunk, List.getLast?_nil]
      · rw [if_neg hchunk]
        exact Or.inl rfl
  · simp only [if_neg h1, if_neg h2]
    exact Or.inl trivial

/-- Every state that a run reaches keeps the invariant, and in every state that keeps it the next
unit of service destroys at most one leaf and returns at most three blocks exactly when it drops no
sole view. -/
theorem rcPollUnit_limits_iff (c : RcConfig) :
    (∀ ops L s, RcRun c ops L s → ∃ q, RcInv s L.held q) ∧
      ∀ s E q, RcInv s E q → s.objects.pending ≠ 0 → ∀ indexed : ℕ → Bool,
        (rcPollUnitLeaves c s ≤ 1 ∧ rcPollUnitDeallocations c indexed s ≤ 3 ↔
          s.objects.soleView (rcPollUnitOwner s) = false) := by
  refine ⟨fun ops L s h => ?_, fun s E q h hpending indexed => ?_⟩
  · obtain ⟨q, hq⟩ := h.refines
    exact ⟨q, hq.inv⟩
  · have hunit := h.pollUnit_destroys c hpending
    have hlimits := hunit.limits indexed
    unfold rcPollUnitLeaves rcPollUnitDeallocations
    rcases rcPollUnit_retires c s with hzero | ⟨htwo, hfrees⟩
    · rw [hzero, Nat.add_zero]
      exact hlimits
    · have hnone : rcDestroyed s.objects (rcPollUnit c s).objects = [] := rcDestroyed_eq hfrees
      rw [hnone] at hlimits ⊢
      have hzero : rcDeallocations s.objects indexed [] = 0 := rfl
      rw [hzero] at hlimits ⊢
      refine ⟨fun hle => hlimits.mp ⟨hle.1, Nat.zero_le _⟩, fun hsole => ?_⟩
      exact ⟨(hlimits.mpr hsole).1, by omega⟩

/-- A run whose next unit drops a view that is the only owner of its backing. -/
theorem rcRun_unit_soleView : ∃ ops L s, RcRun RcConfig.smallest ops L s ∧
    s.objects.pending ≠ 0 ∧ rcPollUnitLeaves RcConfig.smallest s = 2 := by
  have h₁ := @RcRun.step RcConfig.smallest [] (.newText [97, 98]) _ _ _ .nil trivial rfl
  have h₂ := @RcRun.step RcConfig.smallest [.newText [97, 98]] (.textSlice 1 0 1) _ _ _ h₁
    ⟨Or.inr (Or.inr (.owner (Multiset.mem_cons_self 1 0) (by decide))), [97, 98], 0, false, rfl,
      by decide, by decide⟩ rfl
  have h₃ := h₂.step (show (RcOp.release 1).Legal _ from Or.inr (Or.inr (by decide))) rfl
  have h₄ := h₃.step (show (RcOp.recordNew 2).Legal _ from trivial) rfl
  have h₅ := h₄.step (show (RcOp.recordSetTake 3 1 2).Legal _ from
    ⟨Or.inr (Or.inr (.owner (by decide) (by decide))), ⟨_, rfl⟩, Or.inr (Or.inr (by decide))⟩) rfl
  have h₆ := h₅.step (show (RcOp.release 3).Legal _ from Or.inr (Or.inr (by decide))) rfl
  exact ⟨_, _, _, h₆, by decide, rfl⟩

/-- That unit destroys two leaves. -/
theorem rcPollUnit_limits_exceeded : ¬ ∀ (c : RcConfig) (ops : List RcOp) (L : RcLedger)
    (s : RcState) (indexed : ℕ → Bool), RcRun c ops L s → s.objects.pending ≠ 0 →
      rcPollUnitLeaves c s ≤ 1 ∧ rcPollUnitDeallocations c indexed s ≤ 3 := by
  intro hall
  obtain ⟨ops, L, s, hrun, hpending, hleaves⟩ := rcRun_unit_soleView
  have := (hall _ _ _ _ (fun _ => false) hrun hpending).1
  rw [hleaves] at this
  exact absurd this (by decide)

/-- The unit that destroys a released record keeps the limits. -/
theorem rcPollUnit_limits_iff_record : ∃ L s,
    RcRun RcConfig.smallest [.recordNew 1, .release 1] L s ∧
      (rcPollUnitLeaves RcConfig.smallest s ≤ 1 ∧
          rcPollUnitDeallocations RcConfig.smallest (fun _ => false) s ≤ 3 ↔
        s.objects.soleView (rcPollUnitOwner s) = false) := by
  have h₁ := @RcRun.step RcConfig.smallest [] (.recordNew 1) _ _ _ .nil trivial rfl
  have h₂ := h₁.step (show (RcOp.release 1).Legal _ from
    Or.inr (Or.inr (Multiset.mem_cons_self 1 0))) rfl
  obtain ⟨q, hq⟩ := (rcPollUnit_limits_iff RcConfig.smallest).1 _ _ _ h₂
  exact ⟨_, _, h₂, (rcPollUnit_limits_iff RcConfig.smallest).2 _ _ q hq (by decide) _⟩

end Minyar

import Minyar.Rc.Activations

/-!
# Runs of the bounded runtime

`RcRun` are the runs of operations that respect the ownership protocol.  Every state that a run
reaches refines the ledger of the run, and its counts are exact: `RcExact` says so in terms of the
state alone.  On every such state the service of pending work is the one-unit scheduler, and over an
acyclic heap it does exactly the outstanding work.
-/

namespace Minyar

open CountedGraph

/-! ## Runs -/

/-- Every operation that the protocol allows refines its effect, when it does not stop the
program. -/
theorem RcRefines.op {s : RcState} {L : RcLedger} {q : RcQueues} (h : RcRefines s L q)
    (c : RcConfig) {op : RcOp} (hlegal : op.Legal L) {r : ℕ × RcState}
    (hs : op.run c s = .ok r) :
    r.1 = (op.effect L).1 ∧ ∃ q', RcRefines r.2 (op.effect L).2 q' := by
  cases op with
  | literal bytes =>
    cases hs
    exact ⟨h.next, q, h.literal bytes⟩
  | newText bytes =>
    cases hs
    exact h.copyText c bytes
  | textSlice text first last =>
    obtain ⟨hv, bytes, backing, immortal, hx, -⟩ := hlegal
    exact h.textSlice c hv hx hs
  | allocateData =>
    cases hs
    exact ⟨rfl, h.servicePending c _⟩
  | listNew =>
    cases hs
    exact h.listNew c
  | listReferences list =>
    cases hs
    exact ⟨rfl, q, h.listReferences hlegal.1 hlegal.2⟩
  | listAdd list value =>
    obtain ⟨s', hs', rfl⟩ := bind_rcVoid_eq_ok.mp hs
    exact ⟨rfl, h.listAdd c hlegal.1 hlegal.2 hs'⟩
  | listAddTake list value =>
    obtain ⟨s', hs', rfl⟩ := bind_rcVoid_eq_ok.mp hs
    exact ⟨rfl, h.listAddTake c hlegal.1 hlegal.2 hs'⟩
  | listSet list position value =>
    obtain ⟨s', hs', rfl⟩ := bind_rcVoid_eq_ok.mp hs
    exact ⟨rfl, h.listSet c hlegal.1 hlegal.2 hs'⟩
  | listSetTake list position value =>
    obtain ⟨s', hs', rfl⟩ := bind_rcVoid_eq_ok.mp hs
    exact ⟨rfl, h.listSetTake c hlegal.1 hlegal.2 hs'⟩
  | listAppended list value references takeValue =>
    have hnext : ∀ M : RcLedger, M.next = L.next → ∀ x, (M.allocate x).1 = L.next :=
      fun M hM x => hM
    obtain ⟨hname, hrefines⟩ := h.listAppended c hlegal hs
    refine ⟨hname.trans (hnext _ ?_ _).symm, hrefines⟩
    split_ifs <;> rfl
  | recordNew fieldCount => exact h.recordAllocate c hs
  | recordNewScalar fieldCount => exact h.recordAllocate c hs
  | recordSetScalar record field value =>
    obtain ⟨s', hs', rfl⟩ := bind_rcVoid_eq_ok.mp hs
    exact ⟨rfl, q, h.recordSetScalar hlegal.1 hlegal.2 hs'⟩
  | recordSet record field value =>
    obtain ⟨s', hs', rfl⟩ := bind_rcVoid_eq_ok.mp hs
    exact ⟨rfl, h.recordSet c hlegal.1 hlegal.2 hs'⟩
  | recordSetTake record field value =>
    obtain ⟨s', hs', rfl⟩ := bind_rcVoid_eq_ok.mp hs
    obtain ⟨hv, ⟨fields, hx⟩, hvalue⟩ := hlegal
    obtain ⟨o, ho, hdead, -⟩ := h.exists_of_usable hv hx
    exact ⟨rfl, (h.take hvalue).recordSetTake c ho hdead ⟨fields, hx⟩ hs'⟩
  | recordSetReference record field value =>
    obtain ⟨s', hs', rfl⟩ := bind_rcVoid_eq_ok.mp hs
    exact ⟨rfl, h.recordSetReference c hlegal.1 hlegal.2.2 hlegal.2.1 hs'⟩
  | retain value =>
    obtain ⟨s', hs', rfl⟩ := bind_rcVoid_eq_ok.mp hs
    exact ⟨rfl, q, h.retain hlegal hs'⟩
  | release value =>
    cases hs
    exact ⟨rfl, (h.take hlegal).release c⟩
  | keep value =>
    cases hs
    exact ⟨rfl, (h.take hlegal.2).keep c hlegal.1 (RcLedger.usable_give _ _)⟩
  | borrow value =>
    obtain ⟨s', hs', rfl⟩ := bind_rcVoid_eq_ok.mp hs
    exact ⟨rfl, h.borrow c hlegal.1 hlegal.2 hs'⟩
  | setLocal index value =>
    obtain ⟨s', hs', rfl⟩ := bind_rcVoid_eq_ok.mp hs
    exact ⟨rfl, h.setLocal c hlegal.1 hlegal.2 hs'⟩
  | localTake index value =>
    cases hs
    exact ⟨rfl, (h.take hlegal.2).localTake c hlegal.1⟩
  | localMove index =>
    cases hs
    exact ⟨rfl, q, h.localMove hlegal⟩
  | enter locals =>
    obtain ⟨s', hs', rfl⟩ := bind_rcVoid_eq_ok.mp hs
    exact ⟨rfl, h.enter c hs' none⟩
  | leave =>
    cases hs
    obtain ⟨F, hF, -⟩ := hlegal
    refine ⟨rfl, h.leave c ?_⟩
    rintro hnil
    rw [hnil] at hF
    cases hF
  | step =>
    cases hs
    exact ⟨rfl, h.step c hlegal⟩
  | enterStack header locals =>
    obtain ⟨s', hs', rfl⟩ := bind_rcVoid_eq_ok.mp hs
    exact ⟨rfl, h.enterStack c hs'⟩
  | leaveStack header =>
    cases hs
    obtain ⟨F, hF, -⟩ := hlegal
    refine ⟨rfl, h.leaveStack c ?_⟩
    rintro hnil
    rw [hnil] at hF
    cases hF
  | poll budget =>
    cases hs
    exact ⟨rfl, h.poll c budget⟩

/-- The runs of operations that respect the ownership protocol and do not stop the program. -/
inductive RcRun (c : RcConfig) : List RcOp → RcLedger → RcState → Prop
  /-- Before the first operation. -/
  | nil : RcRun c [] RcLedger.initial RcState.initial
  /-- One more operation. -/
  | step {ops : List RcOp} {op : RcOp} {L : RcLedger} {s : RcState} {r : ℕ × RcState}
      (h : RcRun c ops L s) (hlegal : op.Legal L) (hs : op.run c s = .ok r) :
      RcRun c (ops ++ [op]) (op.effect L).2 r.2

/-- The ledger after operations. -/
def RcLedger.after (ops : List RcOp) : RcLedger :=
  ops.foldl (fun L op => (op.effect L).2) RcLedger.initial

/-- One more operation. -/
theorem RcLedger.after_append (ops : List RcOp) (op : RcOp) :
    RcLedger.after (ops ++ [op]) = (op.effect (RcLedger.after ops)).2 := by
  simp [RcLedger.after]

/-- The ledger of a run is what its operations make of the initial one. -/
theorem RcRun.ledger {c : RcConfig} {ops : List RcOp} {L : RcLedger} {s : RcState}
    (h : RcRun c ops L s) : L = RcLedger.after ops := by
  induction h with
  | nil => rfl
  | step _ _ _ ih => rw [RcLedger.after_append, ← ih]

/-- Every state that a run reaches refines its ledger. -/
theorem RcRun.refines {c : RcConfig} {ops : List RcOp} {L : RcLedger} {s : RcState}
    (h : RcRun c ops L s) : ∃ q, RcRefines s L q := by
  induction h with
  | nil => exact ⟨_, RcRefines.initial⟩
  | step _ hlegal hs ih =>
    obtain ⟨q, hq⟩ := ih
    exact (hq.op c hlegal hs).2

/-- A build with the smallest budget and the system heap. -/
def RcConfig.smallest : RcConfig where
  pollBudget := 1
  pollBudget_pos := Nat.one_pos
  pollBudget_le := by decide
  frameCacheBytes := 262144
  heapCharge := id
  boundedHeap := false

/-! ## Exact counts -/

/-- The owners of an object in the slots of another one: all fields of an alive object, the fields
from the saved cursor on of a dead one. -/
def rcSlotOwners (s : RcState) (dead : List ℕ) (v r : ℕ) : ℕ :=
  match s.objects.heap r with
  | none => 0
  | some o => (if r ∈ dead then o.slots.drop (rcCursor s.objects r o) else o.slots).count v

/-- The number of owners of an object. -/
def rcOwnerCount (s : RcState) (held : Multiset ℕ) (dead : List ℕ) (v : ℕ) : ℕ :=
  -- Locals and temporaries of active frames.
  (s.frames.flatMap fun f => f.locals.map Prod.fst ++ f.chunks.flatten).count v +
  -- Written slots of detached frames that are not visited yet.
  (s.frameQueue.flatMap fun f =>
    (List.range f.localCount).map (rcBoundedPendingLocalValue f)).count v +
  -- Slots of detached chunks that are not visited yet.
  s.chunkQueue.flatten.count v + held.count v +
  ((List.range s.objects.next).map (rcSlotOwners s dead v)).sum

/-- The counts of a state are exact when the program holds the owners `held` and `q` are the queues
of dead objects. -/
structure RcExact (s : RcState) (held : Multiset ℕ) (q : RcQueues) : Prop where
  /-- The oldest batch is linked from its head to its tail. -/
  old : RcLinked s.objects.heap s.objects.head q.old ∧ s.objects.tail = q.old.getLastD 0
  /-- The recent stack is linked from its top to its bottom. -/
  recent : RcLinked s.objects.heap s.objects.recentHead q.recent ∧
    s.objects.recentTail = q.recent.getLastD 0
  /-- A dead object is in exactly one place: in service, in the batch or in the stack. -/
  once : (rcDead s.objects.active q).Nodup
  /-- A dead object is in the heap and has no owner. -/
  dead : ∀ v ∈ rcDead s.objects.active q, s.objects.heap v ≠ none ∧
    rcOwnerCount s held (rcDead s.objects.active q) v = 0
  /-- A live object counts its owners exactly, and it has one; without a count it is an immortal
  Text. -/
  live : ∀ v o, s.objects.heap v = some o → v ∉ rcDead s.objects.active q →
    (o.owners ≠ 0 ∧ o.owners = rcOwnerCount s held (rcDead s.objects.active q) v) ∨
      (o.owners = 0 ∧ o.kind = .text)
  /-- The pending tasks are counted. -/
  pending : s.objects.pending = (if s.objects.active = 0 then 0 else 1) + q.old.length +
    q.recent.length + s.frameQueue.length + s.chunkQueue.length
  /-- No object is destroyed twice. -/
  frees : s.objects.frees.Nodup
  /-- The destroyed objects are gone, and nothing owns them. -/
  freed : ∀ v ∈ s.objects.frees, s.objects.heap v = none ∧
    rcOwnerCount s held (rcDead s.objects.active q) v = 0
  /-- An object is in the heap until it is destroyed. -/
  kept : ∀ v, 0 < v → v < s.objects.next → s.objects.heap v = none → v ∈ s.objects.frees
  /-- No object was accessed that is not there. -/
  fault : s.objects.fault = false

/-- The owners are the tokens of the graph. -/
theorem RcInv.ownerCount {s : RcState} {E : Multiset ℕ} {q : RcQueues} (h : RcInv s E q) {v : ℕ}
    (hv : v ≠ 0) : rcOwnerCount s E (rcDead s.objects.active q) v =
      tokens (rcGraph s q) (Finset.range s.objects.next) (rcTokens s E) v := by
  have hslots : ∀ r, rcSlotOwners s (rcDead s.objects.active q) v r =
      (optionSlots (rcGraph s q r)).count v := by
    intro r
    unfold rcSlotOwners rcGraph rcView
    rcases ho : s.objects.heap r with _ | o
    · rfl
    · simp only [Option.map_some, optionSlots_some]
      split_ifs with hr
      · rfl
      · by_cases h0 : o.owners = 0
        · obtain ⟨hkind, hbacking⟩ := (h.objects.cells r o ho).immortal hr h0
          simp [RcObject.slots, RcObject.node, CountedNode.slots, hkind, hbacking, h0, Ne.symm hv]
        · rw [RcObject.node_slots h0]
  unfold rcOwnerCount tokens rcTokens rcQueued rcHeld RcFrame.tokens RcFrame.detached
  rw [List.map_congr_left fun r _ => hslots r]
  have hsum : ((List.range s.objects.next).map fun r => (optionSlots (rcGraph s q r)).count v).sum =
      ∑ r ∈ Finset.range s.objects.next, (optionSlots (rcGraph s q r)).count v := rfl
  rw [hsum]
  simp only [Multiset.count_add, Multiset.coe_count]
  omega

/-- The invariant makes the counts exact. -/
theorem RcInv.exact {s : RcState} {E : Multiset ℕ} {q : RcQueues} (h : RcInv s E q) :
    RcExact s E q where
  old := ⟨h.objects.old, h.objects.tail⟩
  recent := ⟨h.objects.recent, h.objects.recentTail⟩
  once := h.objects.nodup
  dead := by
    intro v hv
    refine ⟨h.objects.dead v hv, ?_⟩
    obtain ⟨o, ho⟩ := Option.ne_none_iff_exists'.mp (h.objects.dead v hv)
    have hview := rcView_dead ho hv
    rw [h.ownerCount (h.objects.ne_zero ho)]
    exact h.objects.counted.count hview rfl
  live := by
    intro v o ho hv
    by_cases h0 : o.owners = 0
    · exact Or.inr ⟨h0, ((h.objects.cells v o ho).immortal hv h0).1⟩
    · refine Or.inl ⟨h0, ?_⟩
      rw [h.ownerCount (h.objects.ne_zero ho)]
      exact (h.objects.counted.count (rcView_alive ho hv) (RcObject.node_owners h0)).symm
  pending := by
    have hpending := h.objects.pending
    unfold rcDead at hpending
    rw [List.length_append, List.length_append] at hpending
    split_ifs at hpending ⊢ <;> simp only [List.length_nil, List.length_singleton] at hpending <;>
      omega
  frees := h.objects.frees_nodup
  freed := by
    intro v hv
    obtain ⟨hpos, hlt, hnone⟩ := (h.objects.frees v).mp hv
    refine ⟨hnone, ?_⟩
    have hv0 : v ≠ 0 := Nat.pos_iff_ne_zero.mp hpos
    rw [h.ownerCount hv0]
    refine h.objects.counted.tokens_eq hv0 ?_
    have hview : rcGraph s q v = none := rcView_none hnone
    change optionOwners (rcGraph s q v) = _
    rw [hview]
    rfl
  kept := fun v hpos hlt hnone => (h.objects.frees v).mpr ⟨hpos, hlt, hnone⟩
  fault := h.objects.fault

/-- In every state that a run of operations reaches the counts are exact. -/
theorem rcRun_counts_exact {c : RcConfig} {ops : List RcOp} {L : RcLedger} {s : RcState}
    (h : RcRun c ops L s) : ∃ q, RcExact s L.held q := by
  obtain ⟨q, hq⟩ := h.refines
  exact ⟨q, hq.inv.exact⟩

/-- A run that releases a record with a field: the record is dead and in service. -/
theorem rcRun_counts_exact_record :
    ∃ L s, RcRun RcConfig.smallest [.recordNew 1, .release 1] L s ∧ s.objects.active = 1 ∧
      ∃ q, RcExact s L.held q := by
  have h₁ := @RcRun.step RcConfig.smallest [] (.recordNew 1) _ _ _ .nil trivial rfl
  have h₂ := @RcRun.step RcConfig.smallest [.recordNew 1] (.release 1) _ _ _ h₁
    (Or.inr (Or.inr (Multiset.mem_cons_self 1 0))) rfl
  exact ⟨_, _, h₂, rfl, rcRun_counts_exact h₂⟩

/-! ## Service -/

/-- The invariant holds in every state that a run reaches, and on every state with the invariant the
service with its fast paths does what the one-unit scheduler does: it returns the same number of
units and leaves the same state. -/
theorem minyarRcPoll_eq_rcReferencePoll (c : RcConfig) :
    (∀ ops L s, RcRun c ops L s → ∃ q, RcInv s L.held q) ∧
    ∀ s E q, RcInv s E q → ∀ budget,
      minyarRcPoll c s budget = rcReferencePoll c (min budget c.pollBudget) s := by
  refine ⟨fun ops L s h => ?_, fun s E q h budget => h.poll_eq_reference c budget⟩
  obtain ⟨q, hq⟩ := h.refines
  exact ⟨q, hq.inv⟩

/-- Two units of service. -/
def RcConfig.twoUnits : RcConfig where
  pollBudget := 2
  pollBudget_pos := by decide
  pollBudget_le := by decide
  frameCacheBytes := 262144
  heapCharge := id
  boundedHeap := false

/-- A chain of three records, whose last owner is released: the release destroys the first one, and
the next poll destroys the second one in a pair of units. -/
theorem minyarRcPoll_eq_rcReferencePoll_chain : ∃ ops L s, RcRun RcConfig.twoUnits ops L s ∧
    rcUnarySingle 2 s.objects = some 2 ∧ (minyarRcPoll RcConfig.twoUnits s 2).1 = 2 ∧
      minyarRcPoll RcConfig.twoUnits s 2 = rcReferencePoll RcConfig.twoUnits 2 s := by
  have h := RcRun.nil (c := RcConfig.twoUnits)
  have h := h.step (show (RcOp.recordNew 1).Legal _ from trivial) rfl
  have h := h.step (show (RcOp.recordNew 1).Legal _ from trivial) rfl
  have h := h.step (show (RcOp.recordSetTake 2 0 1).Legal _ from
    ⟨.of_held (by decide) two_ne_zero, ⟨_, rfl⟩, Or.inr (Or.inr (by decide))⟩) rfl
  have h := h.step (show (RcOp.recordNew 1).Legal _ from trivial) rfl
  have h := h.step (show (RcOp.recordSetTake 3 0 2).Legal _ from
    ⟨.of_held (by decide) three_ne_zero, ⟨_, rfl⟩, Or.inr (Or.inr (by decide))⟩) rfl
  have h := h.step (show (RcOp.release 3).Legal _ from Or.inr (Or.inr (by decide))) rfl
  obtain ⟨hinv, heq⟩ := minyarRcPoll_eq_rcReferencePoll RcConfig.twoUnits
  obtain ⟨q, hq⟩ := hinv _ _ _ h
  exact ⟨_, _, _, h, rfl, rfl, heq _ _ _ hq 2⟩

/-- Service keeps an acyclic heap acyclic. -/
theorem RcServes.acyclic {n : ℕ} {s s' : RcState} {q q' : RcQueues} {E : Multiset ℕ}
    (h : RcServes n s s' q q' E) (hacyclic : Acyclic (Edge 0 (rcGraph s q))) :
    Acyclic (Edge 0 (rcGraph s' q')) := by
  refine hacyclic.mono fun a b ⟨y, hy, halive, hb, h0⟩ => ?_
  obtain ⟨x, hx, hxa, hslots⟩ := h.shrink.shrinks hy halive
  exact ⟨x, hx, hxa, hslots ▸ hb, h0⟩

/-! ## Nothing is pending -/

/-- A drained state has no dead object and its queues are empty. -/
theorem RcInv.drained {s : RcState} {E : Multiset ℕ} {q : RcQueues} (h : RcInv s E q)
    (hpending : s.objects.pending = 0) : rcDead s.objects.active q = [] ∧ s.frameQueue = [] ∧
      s.chunkQueue = [] ∧ rcTokens s E = rcHeld s E := by
  have hcount := h.objects.pending
  rw [hpending] at hcount
  have hframes : s.frameQueue = [] := List.eq_nil_of_length_eq_zero (by omega)
  have hchunks : s.chunkQueue = [] := List.eq_nil_of_length_eq_zero (by omega)
  refine ⟨List.eq_nil_of_length_eq_zero (by omega), hframes, hchunks, ?_⟩
  unfold rcTokens rcQueued
  rw [hframes, hchunks]
  exact Multiset.zero_add _

/-- Without dead objects the graph has no dead nodes. -/
theorem rcGraph_ne_dead {s : RcState} {q : RcQueues} (hdead : rcDead s.objects.active q = [])
    {v : ℕ} {slots : List ℕ} : rcGraph s q v ≠ some (.dead slots) := by
  intro hv
  unfold rcGraph at hv
  rcases ho : s.objects.heap v with _ | o
  · rw [rcView_none ho] at hv
    cases hv
  · have halive := o.node_alive
    rw [rcView_alive ho (by rw [hdead]; exact List.not_mem_nil)] at hv
    rw [Option.some.inj hv] at halive
    exact halive

namespace RcInv

variable {s : RcState} {E : Multiset ℕ} {q : RcQueues}

/-- Over an acyclic heap work is outstanding exactly while tasks are pending. -/
theorem outstanding_eq_zero (h : RcInv s E q) (hacyclic : Acyclic (Edge 0 (rcGraph s q)))
    (hpending : s.objects.pending = 0) : rcOutstanding s E q = 0 := by
  obtain ⟨hdead, hframes, hchunks, htokens⟩ := h.drained hpending
  have hcounted := h.objects.counted
  rw [htokens] at hcounted
  have hdebt := hcounted.debt_eq_zero hacyclic (rcGraph_ne_dead hdead)
  unfold rcOutstanding
  rw [show debt 0 (rcGraph s q) _ _ = 0 from hdebt, hframes, hchunks]
  rfl

/-- Over an acyclic heap the reference does all outstanding work that the budget allows. -/
theorem referencePoll_units (h : RcInv s E q) (hacyclic : Acyclic (Edge 0 (rcGraph s q)))
    (c : RcConfig) (budget : ℕ) :
    (rcReferencePoll c budget s).1 = min budget (rcOutstanding s E q) := by
  induction budget generalizing s q with
  | zero => simp [rcReferencePoll]
  | succ budget ih =>
    rw [rcReferencePoll]
    by_cases hpending : s.objects.pending = 0
    · rw [if_pos hpending, h.outstanding_eq_zero hacyclic hpending]
      rfl
    · rw [if_neg hpending]
      obtain ⟨q', hserves⟩ := h.pollUnit c hpending
      have hwork := hserves.outstanding
      have hrest := ih hserves.inv (hserves.acyclic hacyclic)
      change (rcReferencePoll c budget (rcPollUnit c s)).1 + 1 = _
      omega

/-- One poll does exactly the work that the budgets and the outstanding work allow. -/
theorem poll_units (h : RcInv s E q) (hacyclic : Acyclic (Edge 0 (rcGraph s q))) (c : RcConfig)
    (budget : ℕ) :
    (minyarRcPoll c s budget).1 = min budget (min c.pollBudget (rcOutstanding s E q)) ∧
      ∃ q', RcServes (minyarRcPoll c s budget).1 s (minyarRcPoll c s budget).2 q q' E ∧
        Acyclic (Edge 0 (rcGraph (minyarRcPoll c s budget).2 q')) := by
  rw [h.poll_eq_reference]
  refine ⟨?_, ?_⟩
  · rw [h.referencePoll_units hacyclic, min_assoc]
  · obtain ⟨q', hserves⟩ := h.referencePoll c (min budget c.pollBudget)
    exact ⟨q', hserves, hserves.acyclic hacyclic⟩

/-- While tasks are pending work is outstanding. -/
theorem pending_eq_zero (h : RcInv s E q) (c : RcConfig) (hzero : rcOutstanding s E q = 0) :
    s.objects.pending = 0 := by
  by_contra hpending
  obtain ⟨q', hserves⟩ := h.pollUnit c hpending
  have := hserves.outstanding
  omega

end RcInv

/-- Polls with one budget after another, and their units. -/
def rcPolls (c : RcConfig) : List ℕ → RcState → ℕ × RcState
  | [], s => (0, s)
  | budget :: budgets, s =>
    let first := minyarRcPoll c s budget
    let rest := rcPolls c budgets first.2
    (first.1 + rest.1, rest.2)

/-- Repeated polls drain everything. -/
theorem RcInv.polls {s : RcState} {E : Multiset ℕ} {q : RcQueues} (h : RcInv s E q)
    (hacyclic : Acyclic (Edge 0 (rcGraph s q))) (c : RcConfig) {budgets : List ℕ}
    (hbudgets : ∀ b ∈ budgets, 1 ≤ b) (hlength : rcOutstanding s E q ≤ budgets.length) :
    (rcPolls c budgets s).1 = rcOutstanding s E q ∧ (rcPolls c budgets s).2.objects.pending = 0 := by
  induction budgets generalizing s q with
  | nil =>
    have hzero : rcOutstanding s E q = 0 := Nat.le_zero.mp hlength
    exact ⟨hzero.symm, h.pending_eq_zero c hzero⟩
  | cons b budgets ih =>
    obtain ⟨hunits, q', hserves, hacyclic'⟩ := h.poll_units hacyclic c b
    have hwork := hserves.outstanding
    have hb := hbudgets b List.mem_cons_self
    have hK := c.pollBudget_pos
    rw [List.length_cons] at hlength
    obtain ⟨hrest, hpending⟩ := ih hserves.inv hacyclic'
      (fun b hb => hbudgets b (List.mem_cons_of_mem _ hb)) (by omega)
    refine ⟨?_, hpending⟩
    rw [rcPolls, hrest]
    omega

/-- On every state with the invariant over an acyclic heap, a poll does exactly as many units as the
requested budget, the budget of the build and the outstanding work allow; the outstanding work
becomes less by them, a poll stops short only when nothing is pending, and repeated polls with
positive budgets drain everything in exactly the outstanding work. -/
theorem minyarRcPoll_outstanding (c : RcConfig) (s : RcState) (E : Multiset ℕ) (q : RcQueues)
    (h : RcInv s E q) (hacyclic : Acyclic (Edge 0 (rcGraph s q))) :
    (∀ budget, (minyarRcPoll c s budget).1 =
        min budget (min c.pollBudget (rcOutstanding s E q)) ∧
      (∃ q', RcInv (minyarRcPoll c s budget).2 E q' ∧
        rcOutstanding (minyarRcPoll c s budget).2 E q' =
          rcOutstanding s E q - (minyarRcPoll c s budget).1) ∧
      ((minyarRcPoll c s budget).1 < min budget c.pollBudget →
        (minyarRcPoll c s budget).2.objects.pending = 0)) ∧
    ∀ budgets : List ℕ, (∀ b ∈ budgets, 1 ≤ b) → rcOutstanding s E q ≤ budgets.length →
      (rcPolls c budgets s).1 = rcOutstanding s E q ∧
        (rcPolls c budgets s).2.objects.pending = 0 := by
  refine ⟨fun budget => ?_, fun budgets hbudgets hlength => h.polls hacyclic c hbudgets hlength⟩
  obtain ⟨hunits, q', hserves, -⟩ := h.poll_units hacyclic c budget
  have hwork := hserves.outstanding
  refine ⟨hunits, ⟨q', hserves.inv, by omega⟩, fun hshort => ?_⟩
  exact hserves.inv.pending_eq_zero c (by omega)

/-- The released record of a run with the smallest budget: whatever is left of it, polls of one unit
finish it. -/
theorem minyarRcPoll_outstanding_record :
    ∃ L s q, RcRun RcConfig.smallest [.recordNew 1, .release 1] L s ∧ RcInv s L.held q ∧
      s.objects.pending = 1 ∧
      (minyarRcPoll RcConfig.smallest s 5).1 =
        min 5 (min RcConfig.smallest.pollBudget (rcOutstanding s L.held q)) := by
  have h₁ := @RcRun.step RcConfig.smallest [] (.recordNew 1) _ _ _ .nil trivial rfl
  have h₂ := @RcRun.step RcConfig.smallest [.recordNew 1] (.release 1) _ _ _ h₁
    (Or.inr (Or.inr (Multiset.mem_cons_self 1 0))) rfl
  obtain ⟨q, hq⟩ := h₂.refines
  refine ⟨_, _, q, h₂, hq.inv, rfl, ?_⟩
  refine ((minyarRcPoll_outstanding RcConfig.smallest _ _ q hq.inv ?_).1 5).1
  -- The only object is the record, and the record is dead.
  refine Acyclic.of_isEmpty fun a b ⟨x, hx, halive, _⟩ => ?_
  obtain ⟨o, ho, hdead, -⟩ := exists_of_rcView_alive hx halive
  have hlt : a < 2 := Finset.mem_range.mp (hq.inv.objects.counted.mem_dom hx)
  have hpos : a ≠ 0 := hq.inv.objects.counted.ne_null hx
  have hone : a ∈ [1] := List.mem_singleton.mpr (by omega)
  exact hdead (List.mem_append_left _ hone)

end Minyar

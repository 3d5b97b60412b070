import Minyar.Rc.EagerDestroy
import Minyar.Rc.Drained

/-!
# The eager runtime refines the ledger

Between two operations nothing is pending in the eager runtime, so its objects are those of a
bounded runtime with empty queues.  `EagerHolds` says so: some state of the bounded runtime has the
same objects and refines the ledger.  What an operation does without dropping an owner is then what
the bounded runtime does when it has nothing to serve; the releases are the eager destruction.
-/

namespace Minyar

open CountedGraph

/-! ## Objects of both runtimes -/

/-- The objects of a bounded runtime in which nothing is pending. -/
def EagerObjects.bounded (e : EagerObjects) : RcObjects where
  heap := e.heap
  next := e.next
  frees := e.frees
  head := 0
  tail := 0
  active := 0
  cursor := 0
  recentHead := 0
  recentTail := 0
  recentTurn := false
  pending := 0
  fault := e.fault

/-- A state of the bounded runtime with the objects of the eager one. -/
def RcState.over (s : RcState) (e : EagerObjects) : RcState := { s with objects := e.bounded }

/-- There is one kind of List of references. -/
def EagerObjects.OneKind (e : EagerObjects) : Prop :=
  ∀ r o, e.heap r = some o → o.kind ≠ .referencesImmortal

/-- The objects of the eager runtime refine the ledger between two operations. -/
structure EagerHolds (e : EagerObjects) (L : RcLedger) : Prop where
  /-- Nothing is pending. -/
  idle : e.pending = []
  /-- There is one kind of List of references. -/
  kinds : e.OneKind
  /-- A state of the bounded runtime with the same objects refines the ledger. -/
  refines : ∃ s q, RcRefines (RcState.over s e) L q

/-- What an operation that drops no owner keeps. -/
structure EagerKeeps (e e' : EagerObjects) : Prop where
  /-- The stack stays. -/
  pending : e'.pending = e.pending
  /-- So do the kinds of Lists. -/
  kinds : e.OneKind → e'.OneKind

namespace EagerKeeps

variable {e e' e'' : EagerObjects}

theorem refl (e : EagerObjects) : EagerKeeps e e := ⟨rfl, id⟩

theorem trans (h : EagerKeeps e e') (h' : EagerKeeps e' e'') : EagerKeeps e e'' :=
  ⟨h'.pending.trans h.pending, fun hk => h'.kinds (h.kinds hk)⟩

/-- Writing an object. -/
theorem write (r : ℕ) {o : RcObject} (ho : e.OneKind → o.kind ≠ .referencesImmortal) :
    EagerKeeps e (e.write r o) := by
  refine ⟨rfl, fun hk w p hp => ?_⟩
  by_cases hw : w = r
  · subst hw
    obtain rfl : o = p := Option.some.inj ((e.write_heap_self w o).symm.trans hp)
    exact ho hk
  · exact hk w p ((e.write_heap_of_ne o hw).symm.trans hp)

/-- Changing an object in place. -/
theorem modify (r : ℕ) {f : RcObject → RcObject}
    (hf : ∀ o, o.kind ≠ .referencesImmortal → (f o).kind ≠ .referencesImmortal) :
    EagerKeeps e (e.modify r f) := by
  unfold EagerObjects.modify
  rcases ho : e.heap r with _ | o
  · exact ⟨rfl, id⟩
  · exact write r fun hk => hf o (hk r o ho)

/-- A new object. -/
theorem allocateObject {o : RcObject} (ho : o.kind ≠ .referencesImmortal) :
    EagerKeeps e (e.allocateObject o).2 := by
  refine ⟨rfl, fun hk w p hp => ?_⟩
  change Function.update e.heap e.next (some o) w = some p at hp
  by_cases hw : w = e.next
  · subst hw
    rw [Function.update_self] at hp
    cases hp
    exact ho
  · rw [Function.update_of_ne hw] at hp
    exact hk w p hp

end EagerKeeps

/-- Changing an object of both. -/
theorem RcState.over_modify (s : RcState) (e : EagerObjects) (r : ℕ) (f : RcObject → RcObject) :
    (s.over e).modify r f = s.over (e.modify r f) := by
  unfold RcState.modify RcObjects.modify EagerObjects.modify
  rcases ho : e.heap r with _ | o
  · rw [show (s.over e).objects.heap r = none from ho]
    rfl
  · rw [show (s.over e).objects.heap r = some o from ho]
    rfl

/-- There is nothing to serve. -/
theorem RcState.over_servicePending (c : RcConfig) (s : RcState) (e : EagerObjects) (budget : ℕ) :
    rcServicePending c (s.over e) budget = s.over e := if_neg fun h => h rfl

/-- A new object of both. -/
theorem RcState.over_allocateObject (c : RcConfig) (s : RcState) (e : EagerObjects) (o : RcObject) :
    rcAllocateObject c (s.over e) o = ((e.allocateObject o).1, s.over (e.allocateObject o).2) := by
  unfold rcAllocateObject
  rw [RcState.over_servicePending]
  rfl

namespace EagerHolds

variable {e e' : EagerObjects} {L L' : RcLedger} {v w : ℕ} {o : RcObject}

/-- In a state with the same objects the queues are empty. -/
theorem queues {s : RcState} {q : RcQueues} (h : RcRefines (s.over e) L q) :
    q = ⟨[], []⟩ ∧ s.frameQueue = [] ∧ s.chunkQueue = [] ∧ rcTokens (s.over e) L.held = L.owners := by
  obtain ⟨hdead, hframes, hchunks, htokens⟩ := h.inv.drained rfl
  unfold rcDead at hdead
  rw [List.append_eq_nil_iff, List.append_eq_nil_iff] at hdead
  obtain ⟨-, hold, hrecent⟩ := hdead
  refine ⟨?_, hframes, hchunks, htokens.trans h.held⟩
  cases q
  cases hold
  cases hrecent
  rfl

/-- The state of the bounded runtime. -/
theorem state (h : EagerHolds e L) : ∃ s, RcRefines (RcState.over s e) L ⟨[], []⟩ ∧
    s.frameQueue = [] ∧ s.chunkQueue = [] ∧ rcTokens (s.over e) L.held = L.owners := by
  obtain ⟨s, q, hs⟩ := h.refines
  obtain ⟨rfl, hframes, hchunks, htokens⟩ := queues hs
  exact ⟨s, hs, hframes, hchunks, htokens⟩

/-- An operation that drops no owner refines its effect when the bounded one does. -/
theorem keeps (h : EagerHolds e L) (hk : EagerKeeps e e')
    (hr : ∃ s q, RcRefines (RcState.over s e') L' q) : EagerHolds e' L' :=
  ⟨hk.pending.trans h.idle, hk.kinds h.kinds, hr⟩

/-- The graph is that of the bounded runtime. -/
theorem view_eq (hidle : e.pending = []) (hzero : e.heap 0 = none) :
    e.view 0 = rcView e.bounded (rcDead 0 ⟨[], []⟩) := by
  funext r
  by_cases hr : r = 0
  · rw [hr, EagerObjects.view_self]
    exact (rcView_none hzero).symm
  · unfold EagerObjects.view rcView
    rw [if_neg hr, hidle]
    rfl

/-- The invariant of the eager destruction. -/
theorem inv (h : EagerHolds e L) : EagerInv e 0 L.owners := by
  obtain ⟨s, hs, -, -, htokens⟩ := h.state
  have hobjects := hs.inv.objects
  refine ⟨hobjects.fault, ?_, fun r o ho => ?_, fun r o ho => ?_, hs.inv.next, fun r hr => ?_, ?_,
    hobjects.frees_nodup, hobjects.frees⟩
  · rw [view_eq h.idle hobjects.heap_zero, ← htokens]
    exact hobjects.counted
  · have hcell := hobjects.cells r o ho
    exact ⟨hcell.map_length, hcell.flags (List.not_mem_nil), h.kinds r o ho⟩
  · exact ⟨hobjects.ne_zero ho, hobjects.lt_next ho⟩
  · rw [h.idle] at hr
    cases hr
  · rw [h.idle]
    exact List.nodup_nil

/-! ## Releases -/

/-- A release keeps the invariant of the objects of the bounded runtime. -/
theorem objectsInv {T : Multiset ℕ} (hspec : EagerReleaseSpec e e' T) (hidle : e.pending = [])
    (hcells : ∀ r o, e.heap r = some o → RcCell e.heap [] r o) :
    RcObjectsInv e'.bounded T 0 ⟨[], []⟩ := by
  have hinv := hspec.inv
  have hshrink := hspec.shrink
  have hdead : e.dead 0 = [] ∧ e'.dead 0 = [] := ⟨hidle, hspec.idle⟩
  rw [hdead.1, hdead.2] at hshrink
  have hzero : e'.heap 0 = none := by
    by_contra hsome
    obtain ⟨p, hp⟩ := Option.ne_none_iff_exists'.mp hsome
    exact (hinv.names 0 p hp).1 rfl
  refine ⟨hinv.fault, ?_, fun r o ho => ?_, fun _ _ _ hr => (by cases hr), fun _ hr => (by cases hr),
    List.nodup_nil, rfl, rfl, rfl, rfl, rfl, hinv.frees_nodup, hinv.frees⟩
  · have hcounted := hinv.counted
    rw [view_eq hspec.idle hzero] at hcounted
    exact hcounted
  · exact RcCell.shrink hshrink ho (hcells r) fun hr => by cases hr

/-- Releasing an owner that is in the hands of the program. -/
theorem release (h : EagerHolds e (L.give v)) : EagerHolds (e.release v) L := by
  obtain ⟨s, hs, hframes, hchunks, htokens⟩ := h.state
  have howners : (L.give v).owners = v ::ₘ L.owners := by
    unfold RcLedger.owners RcLedger.give
    rw [Multiset.add_cons]
  have hinv := h.inv
  rw [howners] at hinv
  have hspec := hinv.release
  have hshrink := hspec.shrink
  have hdead : e.dead 0 = [] ∧ (e.release v).dead 0 = [] := ⟨h.idle, hspec.idle⟩
  rw [hdead.1, hdead.2] at hshrink
  have htokens' : rcTokens (s.over (e.release v)) L.held = L.owners := by
    have htokens := rcFrames_tokens hs.frames
    unfold rcTokens rcQueued rcHeld RcLedger.owners
    rw [show (s.over (e.release v)).frameQueue = [] from hframes,
      show (s.over (e.release v)).chunkQueue = [] from hchunks,
      show (s.over (e.release v)).frames.flatMap RcFrame.tokens = _ from htokens]
    exact Multiset.zero_add _
  have hobjects := objectsInv hspec h.idle hs.inv.objects.cells
  have hview : ∀ r o', (e.release v).heap r = some o' → ∃ o, e.heap r = some o ∧
      o'.contents = o.contents := by
    intro r o' ho'
    obtain ⟨o, ho, hsame, halive⟩ := hshrink.object r o' ho'
    obtain ⟨-, hmap, -, hzero⟩ := halive List.not_mem_nil
    refine ⟨o, ho, hsame.contents hmap ⟨hzero, fun h0 => ?_⟩⟩
    obtain ⟨hsurvives, -⟩ := hshrink.immortal r o ho List.not_mem_nil h0
    cases ho'.symm.trans hsurvives
    exact h0
  refine ⟨hspec.idle, fun r o' ho' => ?_, s, ⟨[], []⟩, ⟨⟨⟨?_, hs.inv.frames, ?_, hs.inv.nextQueue⟩,
    fun r o' ho' _ => ?_, fun w hw => ?_, hspec.next.trans hs.next, hs.bound, hs.frames⟩,
    fun w hw => ?_⟩⟩
  · obtain ⟨o, ho, hsame, -⟩ := hshrink.object r o' ho'
    rw [hsame.kind]
    exact h.kinds r o ho
  · rw [htokens']
    have hextra : (s.over (e.release v)).frameQueue.length +
        (s.over (e.release v)).chunkQueue.length = 0 := by
      rw [show (s.over (e.release v)).frameQueue = [] from hframes,
        show (s.over (e.release v)).chunkQueue = [] from hchunks]
      rfl
    rw [hextra]
    exact hobjects
  · exact hspec.inv.next
  · obtain ⟨o, ho, hcontents⟩ := hview r o' ho'
    rw [hcontents]
    exact hs.heap r o ho List.not_mem_nil
  · obtain ⟨o, ho, -, h0⟩ := hs.immortal w hw
    exact ⟨o, (hshrink.immortal w o ho List.not_mem_nil h0).1, List.not_mem_nil, h0⟩
  · -- What the ledger sustains without the owner is spared.
    have hmem : ∀ r ∈ L.owners, r ∈ (L.give v).owners := fun r hr => by
      rw [howners]
      exact Multiset.mem_cons_of_mem hr
    have hspares : Spares (rcGraph (s.over e) ⟨[], []⟩) (rcGraph (s.over (e.release v)) ⟨[], []⟩)
        L.owners := by
      have hzero : (e.release v).heap 0 = none := hobjects.heap_zero
      have hspares := hspec.spares
      rw [view_eq h.idle hs.inv.objects.heap_zero, view_eq hspec.idle hzero] at hspares
      exact hspares
    refine hs.toRcMatches.kept_of_spares (L := L) rfl hspares (fun w hw => ?_) hw
    obtain ⟨K, hK, hwK⟩ := hw
    refine hs.kept w ⟨K, fun u hu => ?_, hwK⟩
    exact (hK u hu).imp id (Or.imp id (Or.imp (hmem u) id))

end EagerHolds

/-! ## Operations without releases -/

section Over

variable {s : RcState} {e e' : EagerObjects} {v w : ℕ} {o : RcObject}

/-- A new owner. -/
theorem over_retain (hs : e.retain v = .ok e') :
    minyarRcRetain (s.over e) v = .ok (s.over e') ∧ EagerKeeps e e' := by
  unfold EagerObjects.retain at hs
  unfold minyarRcRetain
  by_cases hv : v = 0
  · rw [if_pos hv] at hs ⊢
    cases hs
    exact ⟨rfl, .refl _⟩
  rw [if_neg hv] at hs ⊢
  rcases ho : e.heap v with _ | o
  · rw [ho] at hs
    rw [show (s.over e).objects.heap v = none from ho]
    cases hs
    exact ⟨rfl, rfl, id⟩
  · rw [ho] at hs
    rw [show (s.over e).objects.heap v = some o from ho]
    simp only at hs ⊢
    split_ifs at hs ⊢
    · cases hs
      exact ⟨rfl, .refl _⟩
    · cases hs
      exact ⟨rfl, EagerKeeps.write v fun hk => hk v o ho⟩

/-- Making room in a List. -/
theorem over_listGrow (hs : e.listGrow v = .ok e') :
    Minyar.listGrow RcConfig.smallest (s.over e) v = .ok (s.over e') ∧ EagerKeeps e e' := by
  unfold EagerObjects.listGrow at hs
  unfold Minyar.listGrow
  rcases ho : e.heap v with _ | o
  · rw [ho] at hs
    rw [show (s.over e).objects.heap v = none from ho]
    cases hs
    exact ⟨rfl, rfl, id⟩
  · rw [ho] at hs
    rw [show (s.over e).objects.heap v = some o from ho]
    simp only at hs ⊢
    have hcapacity : Minyar.grownCapacity RcConfig.smallest o.capacity =
        EagerObjects.grownCapacity o.capacity := rfl
    by_cases hstop : EagerObjects.grownCapacity o.capacity < o.capacity ∨
        (2 ^ 64 - 1) / 8 < EagerObjects.grownCapacity o.capacity
    · rw [if_pos hstop] at hs
      cases hs
    · rw [if_neg hstop] at hs
      cases hs
      rw [hcapacity, if_neg fun h => h.elim (fun hb => by cases hb.1) hstop,
        RcState.over_servicePending, RcState.over_modify]
      exact ⟨rfl, EagerKeeps.modify v fun _ => id⟩

/-- Making room in a List that is full. -/
theorem over_listEnsure (hs : e.listEnsure v = .ok e') :
    Minyar.listEnsure RcConfig.smallest (s.over e) v = .ok (s.over e') ∧ EagerKeeps e e' := by
  unfold EagerObjects.listEnsure at hs
  unfold Minyar.listEnsure
  rcases ho : e.heap v with _ | o
  · rw [ho] at hs
    rw [show (s.over e).objects.heap v = none from ho]
    cases hs
    exact ⟨rfl, rfl, id⟩
  · rw [ho] at hs
    rw [show (s.over e).objects.heap v = some o from ho]
    simp only at hs ⊢
    split_ifs at hs ⊢
    · exact over_listGrow hs
    · cases hs
      exact ⟨rfl, .refl _⟩

/-- Making room until a List has a capacity. -/
theorem over_listGrowTo {capacity fuel : ℕ}
    (hs : EagerObjects.listGrowTo v capacity fuel e = .ok e') :
    Minyar.listGrowTo RcConfig.smallest v capacity fuel (s.over e) = .ok (s.over e') ∧
      EagerKeeps e e' := by
  induction fuel generalizing e with
  | zero =>
    cases hs
    exact ⟨rfl, .refl _⟩
  | succ fuel ih =>
    rw [EagerObjects.listGrowTo] at hs
    rw [Minyar.listGrowTo]
    rcases ho : e.heap v with _ | o
    · rw [ho] at hs
      rw [show (s.over e).objects.heap v = none from ho]
      cases hs
      exact ⟨rfl, rfl, id⟩
    · rw [ho] at hs
      rw [show (s.over e).objects.heap v = some o from ho]
      simp only at hs ⊢
      split_ifs at hs ⊢
      · obtain ⟨e₁, hs₁, hs⟩ := bind_eq_ok.mp hs
        obtain ⟨hover, hkeeps⟩ := over_listGrow (s := s) hs₁
        obtain ⟨hrest, hkeeps'⟩ := ih hs
        rw [hover]
        exact ⟨hrest, hkeeps.trans hkeeps'⟩
      · cases hs
        exact ⟨rfl, .refl _⟩

/-- Putting a value behind the last one of a List. -/
theorem over_append : (s.over e).append v w = s.over (e.append v w) :=
  RcState.over_modify s e v _

/-- The kind that a List of references asks for is the one that it has. -/
theorem over_storeKind (hk : e.OneKind) (ho : e.heap v = some o) :
    listStoreKind (s.over e).objects w o.kind = o.kind ∧
      ((s.over e).modify v fun object => { object with kind := o.kind }) = s.over e := by
  refine ⟨if_neg fun h => hk v o ho h.1, ?_⟩
  rw [RcState.over_modify]
  unfold EagerObjects.modify
  rw [ho]
  unfold EagerObjects.write
  simp only
  rw [show ({ o with kind := o.kind } : RcObject) = o from rfl, ← ho, Function.update_eq_self]

/-- Adding a value to a List. -/
theorem over_listAdd (hk : e.OneKind) (hs : e.listAdd v w = .ok e') :
    minyarListAdd RcConfig.smallest (s.over e) v w = .ok (s.over e') ∧ EagerKeeps e e' := by
  obtain ⟨e₁, hs₁, hs⟩ := bind_eq_ok.mp hs
  obtain ⟨e₂, hs₂, hs⟩ := bind_eq_ok.mp hs
  cases hs
  obtain ⟨hensure, hkeeps⟩ := over_listEnsure (s := s) hs₁
  have happend : EagerKeeps e₂ (e₂.append v w) := EagerKeeps.modify v fun _ => id
  unfold minyarListAdd
  rw [hensure]
  simp only [bind, Except.bind]
  rcases ho : e₁.heap v with _ | o
  · rw [show (s.over e₁).objects.heap v = none from ho]
    have hkind : e₁.isReferences v = false := by simp [EagerObjects.isReferences, ho]
    rw [hkind] at hs₂
    cases hs₂
    refine ⟨?_, hkeeps.trans happend⟩
    unfold EagerObjects.append EagerObjects.modify
    rw [ho]
    rfl
  · rw [show (s.over e₁).objects.heap v = some o from ho]
    simp only
    have hreferences : e₁.isReferences v = decide (o.kind = .references) := by
      simp [EagerObjects.isReferences, ho]
    rw [hreferences] at hs₂
    obtain ⟨hkind, hsame⟩ := over_storeKind (s := s) (w := w) (hkeeps.kinds hk) ho
    rw [hkind, hsame]
    by_cases hlist : o.kind = .list
    · rw [if_pos hlist, over_append]
      rw [decide_eq_false (by simp [hlist])] at hs₂
      cases hs₂
      exact ⟨rfl, hkeeps.trans happend⟩
    · rw [if_neg hlist]
      by_cases hrefs : o.kind = .references
      · rw [decide_eq_true hrefs] at hs₂
        obtain ⟨hretain, hkeeps'⟩ := over_retain (s := s) hs₂
        rw [if_pos hrefs, hretain]
        refine ⟨?_, (hkeeps.trans hkeeps').trans happend⟩
        change Except.ok (rcServicePending _ ((s.over e₂).append v w) _) = _
        rw [over_append, RcState.over_servicePending]
      · rw [decide_eq_false hrefs] at hs₂
        cases hs₂
        rw [if_neg hrefs]
        refine ⟨?_, hkeeps.trans happend⟩
        change Except.ok (rcServicePending _ ((s.over e₁).append v w) _) = _
        rw [over_append, RcState.over_servicePending]

/-- Adding a value whose owner the List takes over. -/
theorem over_listAddTake (hk : e.OneKind) (hs : e.listAddTake v w = .ok e') :
    minyarListAddTake RcConfig.smallest (s.over e) v w = .ok (s.over e') ∧ EagerKeeps e e' := by
  obtain ⟨e₁, hs₁, hs⟩ := bind_eq_ok.mp hs
  cases hs
  obtain ⟨hensure, hkeeps⟩ := over_listEnsure (s := s) hs₁
  have happend : EagerKeeps e₁ (e₁.append v w) := EagerKeeps.modify v fun _ => id
  refine ⟨?_, hkeeps.trans happend⟩
  unfold minyarListAddTake
  rw [hensure]
  simp only [bind, Except.bind]
  rcases ho : e₁.heap v with _ | o
  · rw [show (s.over e₁).objects.heap v = none from ho]
    unfold EagerObjects.append EagerObjects.modify
    rw [ho]
    rfl
  · rw [show (s.over e₁).objects.heap v = some o from ho]
    simp only
    obtain ⟨hkind, hsame⟩ := over_storeKind (s := s) (w := w) (hkeeps.kinds hk) ho
    rw [hkind, hsame, over_append, RcState.over_servicePending]
    split_ifs <;> rfl

/-- Adding values one after another. -/
theorem over_listAddAll (hk : e.OneKind) {values : List ℕ}
    (hs : EagerObjects.listAddAll v values e = .ok e') :
    Minyar.listAddAll RcConfig.smallest v values (s.over e) = .ok (s.over e') ∧
      EagerKeeps e e' := by
  induction values generalizing e with
  | nil =>
    cases hs
    exact ⟨rfl, .refl _⟩
  | cons x values ih =>
    obtain ⟨e₁, hs₁, hs⟩ := bind_eq_ok.mp hs
    obtain ⟨hadd, hkeeps⟩ := over_listAdd (s := s) hk hs₁
    obtain ⟨hrest, hkeeps'⟩ := ih (hkeeps.kinds hk) hs
    rw [Minyar.listAddAll, hadd]
    exact ⟨hrest, hkeeps.trans hkeeps'⟩

/-- A new Text. -/
theorem over_copyText (bytes : List UInt8) : Minyar.copyText RcConfig.smallest (s.over e) bytes =
    ((e.newText bytes).1, s.over (e.newText bytes).2) := by
  unfold Minyar.copyText Minyar.newText rcAllocateData
  rw [RcState.over_servicePending, RcState.over_allocateObject]
  rfl

/-- A slice of a Text. -/
theorem over_textSlice {first last : ℕ} {r : ℕ × EagerObjects}
    (hs : e.textSlice v first last = .ok r) :
    minyarTextSlice RcConfig.smallest (s.over e) v first last = .ok (r.1, s.over r.2) ∧
      EagerKeeps e r.2 := by
  unfold EagerObjects.textSlice at hs
  unfold minyarTextSlice
  rcases ho : e.heap v with _ | o
  · rw [ho] at hs
    rw [show (s.over e).objects.heap v = none from ho]
    cases hs
    exact ⟨rfl, rfl, id⟩
  · rw [ho] at hs
    rw [show (s.over e).objects.heap v = some o from ho]
    simp only at hs ⊢
    have hlength : ∀ x, (s.over e).objects.byteLength x = e.byteLength x := fun _ => rfl
    simp only [hlength]
    generalize (if o.backing ≠ 0 then o.backing else v) = root at hs ⊢
    split_ifs at hs ⊢
    · obtain ⟨e₁, hs₁, hs⟩ := bind_eq_ok.mp hs
      cases hs
      obtain ⟨hretain, hkeeps⟩ := over_retain (s := s) hs₁
      rw [hretain]
      exact ⟨rfl, hkeeps⟩
    · cases hs
      rw [over_copyText]
      exact ⟨rfl, EagerKeeps.allocateObject (by simp)⟩
    · obtain ⟨e₁, hs₁, hs⟩ := bind_eq_ok.mp hs
      cases hs
      obtain ⟨hretain, hkeeps⟩ := over_retain (s := s) hs₁
      have hnew := RcState.over_allocateObject RcConfig.smallest s e
        { kind := .text, owners := 1, bytes := (o.bytes.drop first).take (last - first) }
      unfold Minyar.newText
      rw [hnew]
      simp only [RcState.over_modify]
      unfold EagerObjects.newText at hretain hkeeps ⊢
      rw [hretain]
      have hview : EagerKeeps e (e.allocateObject
          { kind := .text, owners := 1, bytes := (o.bytes.drop first).take (last - first) }).2 :=
        EagerKeeps.allocateObject (by simp)
      refine ⟨rfl, hview.trans (EagerKeeps.trans ?_ hkeeps)⟩
      exact EagerKeeps.modify _ fun _ => id

/-- A new record. -/
theorem over_recordAllocate {fieldCount : ℤ} {references : Bool} {r : ℕ × EagerObjects}
    (hs : e.recordAllocate fieldCount references = .ok r) :
    Minyar.recordAllocate RcConfig.smallest (s.over e) fieldCount references =
      .ok (r.1, s.over r.2) ∧ EagerKeeps e r.2 := by
  unfold EagerObjects.recordAllocate at hs
  unfold Minyar.recordAllocate
  by_cases hmany : fieldCount < 0 ∨ (2 ^ 64 - 1) / 8 < fieldCount
  · rw [if_pos hmany] at hs
    cases hs
  rw [if_neg hmany] at hs ⊢
  by_cases hmemory : (2 ^ 64 - 1 - 8 - 8) / (if references then 9 else 8) < fieldCount
  · rw [if_pos hmemory] at hs
    cases hs
  rw [if_neg hmemory] at hs ⊢
  cases hs
  rw [RcState.over_allocateObject]
  exact ⟨rfl, EagerKeeps.allocateObject (by cases references <;> simp)⟩

end Over

/-! ## Operations on the objects -/

namespace EagerHolds

variable {e e' : EagerObjects} {L L' : RcLedger} {v w : ℕ} {o : RcObject}

/-- An operation that the bounded runtime does on the same objects. -/
theorem of_over (h : EagerHolds e L) (hk : EagerKeeps e e')
    (hr : ∀ s q, RcRefines (RcState.over s e) L q → ∃ q', RcRefines (RcState.over s e') L' q') :
    EagerHolds e' L' := by
  obtain ⟨s, q, hs⟩ := h.refines
  obtain ⟨q', hs'⟩ := hr s q hs
  exact h.keeps hk ⟨s, q', hs'⟩

/-- An owner of null or of an immortal Text is no owner. -/
theorem give_iff (hv : v = 0 ∨ L.Immortal v) : EagerHolds e (L.give v) ↔ EagerHolds e L :=
  ⟨fun h => h.of_over (.refl e) fun _ q hs => ⟨q, (RcRefines.give_iff hv).mp hs⟩,
    fun h => h.of_over (.refl e) fun _ q hs => ⟨q, (RcRefines.give_iff hv).mpr hs⟩⟩

/-- An owner that the program may give away can be put back. -/
theorem take (h : EagerHolds e L) (hv : L.Owned v) : EagerHolds e ((L.take v).give v) :=
  h.of_over (.refl e) fun _ q hs => ⟨q, hs.take hv⟩

/-- A new owner. -/
theorem retain (h : EagerHolds e L) (hv : L.Usable v) (hs : e.retain v = .ok e') :
    EagerHolds e' (L.give v) :=
  h.of_over (over_retain (s := RcState.initial) hs).2 fun _ q hr =>
    ⟨q, hr.retain hv (over_retain hs).1⟩

/-- The name of the next object. -/
theorem next (h : EagerHolds e L) : e.next = L.next := by
  obtain ⟨s, q, hs⟩ := h.refines
  exact hs.next

/-- A new Text literal. -/
theorem literal (h : EagerHolds e L) (bytes : List UInt8) :
    EagerHolds (e.literalText bytes).2 { L with
      heap := Function.update L.heap L.next (some (.text bytes 0 true))
      next := L.next + 1 } :=
  h.of_over (EagerKeeps.allocateObject (by simp)) fun _ q hs => ⟨q, hs.literal bytes⟩

/-- A new Text. -/
theorem newText (h : EagerHolds e L) (bytes : List UInt8) :
    EagerHolds (e.newText bytes).2 (L.allocate (.text bytes 0 false)).2 := by
  refine h.of_over (EagerKeeps.allocateObject (by simp)) fun s q hs => ?_
  obtain ⟨-, hnew⟩ := hs.copyText RcConfig.smallest bytes
  rwa [over_copyText] at hnew

/-- A slice of a Text. -/
theorem textSlice (h : EagerHolds e L) {first last : ℕ} (hv : L.Usable v) {bytes : List UInt8}
    {backing : ℕ} {immortal : Bool} (hx : L.heap v = some (.text bytes backing immortal))
    {r : ℕ × EagerObjects} (hs : e.textSlice v first last = .ok r) :
    r.1 = (L.sliceText v first last).1 ∧ EagerHolds r.2 (L.sliceText v first last).2 := by
  obtain ⟨s, q, hr⟩ := h.refines
  obtain ⟨hover, hkeeps⟩ := over_textSlice (s := s) hs
  obtain ⟨hname, hslice⟩ := hr.textSlice RcConfig.smallest hv hx hover
  exact ⟨hname, h.keeps hkeeps ⟨s, hslice⟩⟩

/-- A new List. -/
theorem listNew (h : EagerHolds e L) :
    EagerHolds e.listNew.2 (L.allocate (.ofElements false [])).2 := by
  refine h.of_over (EagerKeeps.allocateObject (by simp)) fun s q hs => ?_
  obtain ⟨-, hnew⟩ := hs.listNew RcConfig.smallest
  unfold minyarListNew at hnew
  rwa [RcState.over_allocateObject] at hnew

/-- Marking a List as one of references. -/
theorem listReferences (h : EagerHolds e L) (hv : L.Usable v)
    (hlist : L.heap v = some (.list []) ∨ ∃ values, L.heap v = some (.references values)) :
    EagerHolds (e.listReferences v) (L.write v (.references (L.elements v))) := by
  refine h.of_over (EagerKeeps.modify v fun _ _ => by simp) fun s q hs => ?_
  have hisList : RcRefines.IsList L v := hlist.imp (fun hx => ⟨[], hx⟩) id
  obtain ⟨o, ho, hdead, hkind, hcontents⟩ := hs.exists_list hv hisList
  have hfits := hs.list_capacity ho hdead hkind
  -- What the List owns is what it owned.
  have helements : o.values = L.elements v ∧ o.slots = o.values := by
    unfold RcLedger.elements
    rcases hlist with hx | ⟨values, hx⟩
    · obtain ⟨hkind, hvalues⟩ := RcRefines.contents_list hcontents hx
      rw [hx, hvalues]
      exact ⟨rfl, EagerInv.slots_of_kind (Or.inl hkind)⟩
    · obtain ⟨hkind, hvalues⟩ := RcRefines.contents_references hcontents hx
      rw [hx, RcObject.slots_of_references hkind, hvalues]
      exact ⟨rfl, rfl⟩
  have hslots : ({ o with kind := .references } : RcObject).slots = o.slots :=
    (RcObject.slots_of_references (Or.inl rfl)).trans helements.2.symm
  have hwrite := @RcRefines.writeList (s.over e) L q v o hs ho hdead hkind
    { o with kind := .references } (Or.inr (Or.inl rfl)) rfl hfits.1 hfits.2
    (fun hk => by cases hk) L.held (fun r _ => by rw [hslots])
  have hnew : ({ o with kind := .references } : RcObject).contents = .references (L.elements v) :=
    (RcObject.contents_of_references (Or.inl rfl)).trans (congrArg _ helements.1)
  rw [hnew] at hwrite
  refine ⟨q, ?_⟩
  unfold EagerObjects.listReferences
  rw [← RcState.over_modify, RcState.modify_eq ho]
  exact hwrite

/-- Adding a value to a List. -/
theorem listAdd (h : EagerHolds e L) (hv : L.Usable v) (hlist : L.ListTakes v (L.Usable w))
    (hs : e.listAdd v w = .ok e') : EagerHolds e' (L.addToList v w) :=
  h.of_over (over_listAdd (s := RcState.initial) h.kinds hs).2 fun _ _ hr =>
    hr.listAdd RcConfig.smallest hv hlist (over_listAdd h.kinds hs).1

/-- Adding a value to a List, which takes over an owner. -/
theorem listAddTake (h : EagerHolds e L) (hv : L.Usable v) (hlist : L.ListTakes v (L.Owned w))
    (hs : e.listAddTake v w = .ok e') :
    EagerHolds e' ((L.takeForList v w).addToList v w) :=
  h.of_over (over_listAddTake (s := RcState.initial) h.kinds hs).2 fun _ _ hr =>
    hr.listAddTake RcConfig.smallest hv hlist (over_listAddTake h.kinds hs).1

/-- Replacing an element of a List of plain values. -/
theorem set_list (h : EagerHolds e L) (hv : L.Usable v) {values : List ℕ}
    (hx : L.heap v = some (.list values)) (i w : ℕ) :
    EagerHolds (e.modify v fun object => { object with values := object.values.set i w })
      (L.setInList v i w) := by
  refine h.of_over (EagerKeeps.modify v fun _ => id) fun s q hs => ?_
  obtain ⟨o, ho, hdead, -, hcontents⟩ := hs.exists_list hv (Or.inl ⟨values, hx⟩)
  obtain ⟨hkind, rfl⟩ := RcRefines.contents_list hcontents hx
  rw [← RcState.over_modify]
  unfold RcLedger.setInList
  rw [hx]
  exact ⟨q, hs.set_list ho hdead hkind i w⟩

/-- Replacing an element of a List of references hands the previous one to the program. -/
theorem set_references (h : EagerHolds e (L.give w)) (hv : (L.give w).Usable v) {values : List ℕ}
    (hx : L.heap v = some (.references values)) {i : ℕ} (hi : i < values.length) :
    EagerHolds (e.modify v fun object => { object with values := object.values.set i w })
      ((L.setInList v i w).give (values.getD i 0)) := by
  have hkinds := h.kinds
  refine h.of_over (EagerKeeps.modify v fun _ => id) fun s q hs => ?_
  obtain ⟨o, ho, hdead, -, hcontents⟩ := hs.exists_list hv (Or.inr ⟨values, hx⟩)
  obtain ⟨hkind, rfl⟩ := RcRefines.contents_references hcontents hx
  rw [← RcState.over_modify]
  unfold RcLedger.setInList
  rw [hx]
  exact ⟨q, hs.set_references ho hdead hkind hi fun hk => absurd hk (hkinds v o ho)⟩

/-- Replacing an element of a List; `M` is the ledger when the owner of the new value is in the
hands of the program. -/
theorem listSetOwned (h : EagerHolds e L) {position : ℤ} {retainValue : Bool} (hv : L.Usable v)
    {M : RcLedger} (hM : M.heap = L.heap) (hMv : (M.give w).Usable v)
    (hlist : L.ListTakes v (L.Usable w ∧ (retainValue = true → M = L) ∧
      (retainValue = false → L.Owned w ∧ M = L.take w)))
    (hplain : (∃ values, L.heap v = some (.list values)) → M = L)
    (hs : e.listSetOwned v position w retainValue = .ok e') :
    EagerHolds e' (M.setInList v position.toNat w) := by
  obtain ⟨s, q, hr⟩ := h.refines
  have hisList : RcRefines.IsList L v := RcRefines.isList_of_takes hlist
  obtain ⟨o, ho, hdead, -, hcontents⟩ := hr.exists_list hv hisList
  have hoe : e.heap v = some o := ho
  unfold EagerObjects.listSetOwned at hs
  rw [hoe] at hs
  simp only at hs
  by_cases hposition : position < 0 ∨ (o.values.length : ℤ) ≤ position
  · rw [if_pos hposition] at hs
    cases hs
  rw [if_neg hposition] at hs
  have hi : position.toNat < o.values.length := by omega
  rcases hlist with ⟨values, hx⟩ | ⟨⟨values, hx⟩, hw, hretain, htake⟩
  · obtain ⟨hkind, rfl⟩ := RcRefines.contents_list hcontents hx
    rw [if_neg (by simp [hkind])] at hs
    cases hs
    obtain rfl := hplain ⟨_, hx⟩
    exact h.set_list hv hx _ w
  · obtain ⟨hkind, rfl⟩ := RcRefines.contents_references hcontents hx
    rw [if_pos (hkind.resolve_right (h.kinds v o hoe))] at hs
    obtain ⟨e₁, hs₁, hs⟩ := bind_eq_ok.mp hs
    cases hs
    -- The owner of the value is in the hands of the program.
    have howner : EagerHolds e₁ (M.give w) := by
      cases retainValue with
      | true =>
        obtain rfl := hretain rfl
        exact h.retain hw hs₁
      | false =>
        obtain ⟨howned, rfl⟩ := htake rfl
        cases hs₁
        exact h.take howned
    exact (howner.set_references hMv (hM ▸ hx) hi).release

/-- Replacing an element of a List, which takes a new owner. -/
theorem listSet (h : EagerHolds e L) {position : ℤ} (hv : L.Usable v)
    (hlist : L.ListTakes v (L.Usable w)) (hs : e.listSetOwned v position w true = .ok e') :
    EagerHolds e' (L.setInList v position.toNat w) :=
  h.listSetOwned hv rfl (hv.give w)
    (hlist.imp id (And.imp id fun hw => ⟨hw, fun _ => rfl, fun h => by cases h⟩)) (fun _ => rfl) hs

/-- What the program may use does not depend on an owner that it takes and gives. -/
theorem usable_take_give (hv : L.Usable v) (w : ℕ) : ((L.take w).give w).Usable v := by
  by_cases hmem : w ∈ L.held
  · have hledger : (L.take w).give w = L := by
      unfold RcLedger.take RcLedger.give
      simp only [Multiset.cons_erase hmem]
    rwa [hledger]
  · have hledger : L.take w = L := by
      unfold RcLedger.take
      rw [Multiset.erase_of_notMem hmem]
    rw [hledger]
    exact hv.give w

/-- Replacing an element of a List, which takes over an owner. -/
theorem listSetTake (h : EagerHolds e L) {position : ℤ} (hv : L.Usable v)
    (hlist : L.ListTakes v (L.Owned w)) (hs : e.listSetOwned v position w false = .ok e') :
    EagerHolds e' ((L.takeForList v w).setInList v position.toNat w) := by
  rcases hlist with ⟨values, hx⟩ | ⟨⟨values, hx⟩, hw⟩
  · have hledger : L.takeForList v w = L := by
      unfold RcLedger.takeForList
      rw [hx]
    rw [hledger]
    exact h.listSetOwned hv rfl (hv.give w) (Or.inl ⟨values, hx⟩) (fun _ => rfl) hs
  · have hledger : L.takeForList v w = L.take w := by
      unfold RcLedger.takeForList
      rw [hx]
    rw [hledger]
    refine h.listSetOwned hv rfl (usable_take_give hv w)
      (Or.inr ⟨⟨values, hx⟩, RcRefines.usable_of_owned hw, fun h => (by cases h), fun _ => ⟨hw, rfl⟩⟩)
      ?_ hs
    rintro ⟨plain, hplain⟩
    cases hplain.symm.trans hx

/-- A new List, which is marked when it is one of references. -/
theorem listNewMarked (h : EagerHolds e L) (references : Bool) :
    EagerHolds (if references then e.listNew.2.listReferences L.next else e.listNew.2)
      (L.allocate (.ofElements references [])).2 := by
  have hnew := h.listNew
  cases references with
  | false => exact hnew
  | true =>
    obtain ⟨s, q, hs⟩ := h.refines
    have hempty : (L.allocate (.ofElements false [])).2.heap L.next = some (.list []) :=
      L.allocate_heap _
    have hmarked := hnew.listReferences (L.usable_allocate hs.next_ne_zero _) (Or.inl hempty)
    unfold RcLedger.elements at hmarked
    rw [hempty, L.allocate_write] at hmarked
    exact hmarked

/-- A new List of the elements of a List and a value. -/
theorem listAppended (h : EagerHolds e L) {references takeValue : Bool}
    (hlegal : (RcOp.listAppended v w references takeValue).Legal L) {r : ℕ × EagerObjects}
    (hs : e.listAppended v w references takeValue = .ok r) :
    r.1 = L.next ∧ EagerHolds r.2 ((if references ∧ takeValue then L.take w else L).allocate
      (.ofElements references (L.elements v ++ [w]))).2 := by
  obtain ⟨hv, hlegal⟩ := hlegal
  obtain ⟨s₀, q₀, hs₀⟩ := h.refines
  have hbound : ∀ r x, L.heap r = some x → r < L.next := fun r x hx => (hs₀.bound r x hx).2
  have hnew := L.usable_allocate hs₀.next_ne_zero
  have hname : e.listNew.1 = L.next := h.next
  have h₂ := h.listNewMarked references
  unfold EagerObjects.listAppended at hs
  simp only at hs
  rw [hname] at hs
  generalize (if references then e.listNew.2.listReferences L.next else e.listNew.2) = e₂ at hs h₂
  -- The elements of the List are those that the ledger records.
  have hheap : (L.allocate (.ofElements references [])).2.heap v = L.heap v :=
    Function.update_of_ne (hs₀.ne_next hv) _ _
  have hlist : RcRefines.IsList L v := by
    cases references with
    | false => exact Or.inl hlegal
    | true => exact hlegal.1.imp (fun hx => ⟨[], hx⟩) id
  obtain ⟨s₂, q₂, hs₂⟩ := h₂.refines
  obtain ⟨o, ho, -, -, hcontents⟩ := hs₂.exists_list (hv.allocate hbound _)
    (hlist.imp (fun ⟨x, hx⟩ => ⟨x, hheap.trans hx⟩) fun ⟨x, hx⟩ => ⟨x, hheap.trans hx⟩)
  rw [hheap] at hcontents
  have helements : o.values = L.elements v := by
    unfold RcLedger.elements
    rcases hlist with ⟨values, hx⟩ | ⟨values, hx⟩
    · rw [hx]
      exact (RcRefines.contents_list hcontents hx).2
    · rw [hx]
      exact (RcRefines.contents_references hcontents hx).2
  have hvalues : references = true → ∀ x ∈ L.elements v, L.Usable x := by
    rintro rfl x hx
    unfold RcLedger.elements at hx
    rcases hlegal.1 with hempty | ⟨values, hvalues⟩
    · rw [hempty] at hx
      cases hx
    · rw [hvalues] at hx
      exact hs₀.usable_element hv hvalues hx
  rw [show e₂.heap v = some o from ho] at hs
  simp only at hs
  by_cases hlarge : o.values.length = 2 ^ 63 - 1
  · rw [if_pos hlarge] at hs
    cases hs
  rw [if_neg hlarge, helements] at hs
  obtain ⟨e₃, hs₃, hs⟩ := bind_eq_ok.mp hs
  obtain ⟨e₄, hs₄, hs⟩ := bind_eq_ok.mp hs
  obtain ⟨e₅, hs₅, hs⟩ := bind_eq_ok.mp hs
  cases hs
  refine ⟨rfl, ?_⟩
  have h₃ : EagerHolds e₃ (L.allocate (.ofElements references [])).2 :=
    h₂.of_over (over_listGrowTo (s := RcState.initial) hs₃).2 fun _ _ hr =>
      hr.listGrowTo RcConfig.smallest (hnew _) (RcRefines.isList_of_takes
        (RcRefines.listTakes_allocate L references [] fun _ => trivial)) (over_listGrowTo hs₃).1
  have h₄ : EagerHolds e₄ (L.allocate (.ofElements references (L.elements v))).2 :=
    h₃.of_over (over_listAddAll (s := RcState.initial) h₃.kinds hs₄).2 fun _ _ hr =>
      hr.listAddAll RcConfig.smallest references hbound hs₀.next_ne_zero hvalues
        (over_listAddAll h₃.kinds hs₄).1
  -- The last value.
  cases takeValue with
  | false =>
    have htakes := RcRefines.listTakes_allocate L references (L.elements v)
      (p := (L.allocate (.ofElements references (L.elements v))).2.Usable w) (by
        rintro rfl
        exact hlegal.2.allocate hbound _)
    have h₅ := h₄.listAdd (hnew _) htakes hs₅
    rw [L.allocate_addToList] at h₅
    simp only [Bool.false_eq_true, and_false, if_false]
    exact h₅
  | true =>
    have htakes := RcRefines.listTakes_allocate L references (L.elements v)
      (p := (L.allocate (.ofElements references (L.elements v))).2.Owned w) (by
        rintro rfl
        exact hlegal.2.allocate hbound _)
    have h₅ := h₄.listAddTake (hnew _) htakes hs₅
    cases references with
    | false =>
      have htake : (L.allocate (.ofElements false (L.elements v))).2.takeForList L.next w =
          (L.allocate (.ofElements false (L.elements v))).2 := by
        unfold RcLedger.takeForList
        rw [L.allocate_heap]
        rfl
      rw [htake, L.allocate_addToList] at h₅
      exact h₅
    | true =>
      rw [hs₀.takeForList_allocate (RcRefines.usable_of_owned hlegal.2)] at h₅
      exact h₅

/-- A new record. -/
theorem recordAllocate (h : EagerHolds e L) {fieldCount : ℤ} {references : Bool}
    {r : ℕ × EagerObjects} (hs : e.recordAllocate fieldCount references = .ok r) :
    r.1 = L.next ∧ EagerHolds r.2 (L.allocate
      (if references then .record (List.replicate fieldCount.toNat (0, false))
      else .scalarRecord (List.replicate fieldCount.toNat 0))).2 := by
  obtain ⟨s, q, hr⟩ := h.refines
  obtain ⟨hover, hkeeps⟩ := over_recordAllocate (s := s) hs
  obtain ⟨hname, hallocate⟩ := hr.recordAllocate RcConfig.smallest hover
  exact ⟨hname, h.keeps hkeeps ⟨s, hallocate⟩⟩

/-- Storing a plain value in a record. -/
theorem recordSet (h : EagerHolds e L) {field : ℤ} (hv : L.Usable v)
    (hplain : L.PlainField v field) (hs : e.recordSet v field w = .ok e') :
    EagerHolds e' (L.setPlain v field.toNat w) := by
  obtain ⟨s, q, hr⟩ := h.refines
  obtain ⟨o, ho⟩ := hr.exists_of_plain hv hplain
  unfold EagerObjects.recordSet at hs
  rw [show e.heap v = some o from ho] at hs
  simp only at hs
  split_ifs at hs
  cases hs
  refine h.keeps (EagerKeeps.modify v fun _ => id) ⟨s, q, ?_⟩
  rw [← RcState.over_modify]
  exact hr.setPlain hv hplain w

/-- Storing a reference in a record, when its owner is in the hands of the program. -/
theorem recordSetTake (h : EagerHolds e (L.give w)) {field : ℤ} (hv : (L.give w).Usable v)
    {fields : List (ℕ × Bool)} (hrecord : L.heap v = some (.record fields))
    (hs : e.recordSetTake v field w = .ok e') :
    EagerHolds e' (L.setReference v field.toNat w) := by
  obtain ⟨s, q, hr⟩ := h.refines
  obtain ⟨o, ho, hdead, hcontents⟩ := hr.exists_of_usable hv hrecord
  have hkind : o.kind = .record := by
    unfold RcObject.contents at hcontents
    split at hcontents <;> simp_all
  unfold EagerObjects.recordSetTake at hs
  rw [show e.heap v = some o from ho] at hs
  simp only at hs
  by_cases hfield : field < 0 ∨ (o.values.length : ℤ) ≤ field
  · rw [if_pos hfield] at hs
    cases hs
  rw [if_neg hfield] at hs
  have hmodify : (e.modify v fun object => { object with map := object.map.set field.toNat 1 }) =
      e.write v { o with map := o.map.set field.toNat 1 } := by
    unfold EagerObjects.modify
    rw [show e.heap v = some o from ho]
  rw [hmodify] at hs
  unfold EagerObjects.recordSet at hs
  rw [EagerObjects.write_heap_self] at hs
  simp only at hs
  rw [if_neg hfield] at hs
  cases hs
  have hstore := hr.setReference ho hdead hkind (i := field.toNat) (by omega) (hcontents ▸ hrecord)
  refine h.keeps (EagerKeeps.trans (EagerKeeps.write v fun hk => ?_)
    (EagerKeeps.modify v fun _ => id)) ⟨s, q, ?_⟩
  · exact hk v o ho
  · unfold EagerObjects.modify
    rw [EagerObjects.write_heap_self]
    have hwrite : ∀ o₁ o₂ : RcObject, (e.write v o₁).write v o₂ = e.write v o₂ := by
      intro o₁ o₂
      unfold EagerObjects.write
      simp only [Function.update_idem]
    simp only [hwrite]
    exact hstore

/-- Storing a reference in a record, which takes a new owner. -/
theorem recordSetReference (h : EagerHolds e L) {field : ℤ} (hv : L.Usable v) (hw : L.Usable w)
    {fields : List (ℕ × Bool)} (hrecord : L.heap v = some (.record fields))
    (hs : e.recordSetReference v field w = .ok e') :
    EagerHolds e' (L.setReference v field.toNat w) := by
  obtain ⟨e₁, hs₁, hs⟩ := bind_eq_ok.mp hs
  exact (h.retain hw hs₁).recordSetTake (hv.give w) hrecord hs

end EagerHolds

end Minyar

import Minyar.Rc.Run

/-!
# The program between the units of service

The program and the units alternate in an `RcServiceRun`: a step of the program is the drop of an
owner, the detachment of a frame or of its temporaries, or a change that no queue notices.

Every operation that the protocol allows goes on with such a run.  Between its units it changes
objects that are not dead and frames that are active, and it hands owners and frames to the queues;
the lemmas follow the operations and use what the ledger says about the states between the units.
-/

namespace Minyar

open CountedGraph

/-! ## The program between the units -/

/-- Two states with the same queues and the same turns. -/
structure RcSameQueues (s s' : RcState) : Prop where
  /-- The object in service. -/
  active : s'.objects.active = s.objects.active
  /-- Its next field. -/
  cursor : s'.objects.cursor = s.objects.cursor
  /-- The first object of the batch. -/
  head : s'.objects.head = s.objects.head
  /-- The last object of the batch. -/
  tail : s'.objects.tail = s.objects.tail
  /-- The top of the recent stack. -/
  recentHead : s'.objects.recentHead = s.objects.recentHead
  /-- Its bottom. -/
  recentTail : s'.objects.recentTail = s.objects.recentTail
  /-- The turn of the object units. -/
  recentTurn : s'.objects.recentTurn = s.objects.recentTurn
  /-- The number of pending objects, frames and chunks. -/
  pending : s'.objects.pending = s.objects.pending
  /-- The detached frames. -/
  frameQueue : s'.frameQueue = s.frameQueue
  /-- The detached chunks. -/
  chunkQueue : s'.chunkQueue = s.chunkQueue
  /-- The queue that is next. -/
  nextQueue : s'.nextQueue = s.nextQueue

/-- A step of the program, as the scheduler sees it. -/
inductive RcProgramStep : RcState → RcState → Prop
  /-- An owner is dropped. -/
  | drop {s : RcState} {E : Multiset ℕ} {q : RcQueues} {v : ℕ} (h : RcInv s (v ::ₘ E) q) :
      RcProgramStep s { s with objects := (rcDrop s.objects v).2 }
  /-- A frame is detached. -/
  | frame (s : RcState) (frame : RcFrame) : RcProgramStep s { s with
      frameQueue := s.frameQueue ++ [frame]
      objects := { s.objects with pending := s.objects.pending + 1 } }
  /-- The temporaries of a frame are detached. -/
  | temporaries (s : RcState) (frame : RcFrame) :
      RcProgramStep s (rcBoundedRetireTemporaries s frame)
  /-- The dead objects and the scheduler are left alone. -/
  | other {s s' : RcState} {E : Multiset ℕ} {q : RcQueues} (h : RcInv s E q)
      (hheap : ∀ r ∈ rcDead s.objects.active q, s'.objects.heap r = s.objects.heap r)
      (hsame : RcSameQueues s s') : RcProgramStep s s'

/-- The program and the service take turns, from the state `s₀` to the state `s`; `starts` are the
states in which the units of service start. -/
inductive RcServiceRun (c : RcConfig) (s₀ : RcState) : List RcState → RcState → Prop
  /-- Before the first unit. -/
  | nil {E : Multiset ℕ} {q : RcQueues} (h : RcInv s₀ E q) : RcServiceRun c s₀ [] s₀
  /-- A unit of service. -/
  | unit {starts : List RcState} {s : RcState} (h : RcServiceRun c s₀ starts s)
      (hpending : s.objects.pending ≠ 0) : RcServiceRun c s₀ (starts ++ [s]) (rcPollUnit c s)
  /-- A step of the program. -/
  | program {starts : List RcState} {s s' : RcState} {E : Multiset ℕ} {q : RcQueues}
      (h : RcServiceRun c s₀ starts s) (hstep : RcProgramStep s s') (hinv : RcInv s' E q) :
      RcServiceRun c s₀ starts s'

/-- Every state of a run keeps the invariant. -/
theorem RcServiceRun.inv {c : RcConfig} {s₀ s : RcState} {starts : List RcState}
    (h : RcServiceRun c s₀ starts s) : ∃ E q, RcInv s E q := by
  induction h with
  | nil h => exact ⟨_, _, h⟩
  | unit h hpending ih =>
    obtain ⟨E, q, hinv⟩ := ih
    obtain ⟨q', hserves⟩ := hinv.pollUnit c hpending
    exact ⟨E, q', hserves.inv⟩
  | program h hstep hinv ih => exact ⟨_, _, hinv⟩

/-- A poll is a run of units. -/
theorem RcServiceRun.poll {c : RcConfig} {s₀ s : RcState} {starts : List RcState}
    (h : RcServiceRun c s₀ starts s) (budget : ℕ) :
    ∃ units, units.length = (minyarRcPoll c s budget).1 ∧
      RcServiceRun c s₀ (starts ++ units) (minyarRcPoll c s budget).2 := by
  obtain ⟨E, q, hinv⟩ := h.inv
  rw [hinv.poll_eq_reference]
  clear hinv
  generalize min budget c.pollBudget = n
  induction n generalizing s starts with
  | zero => exact ⟨[], rfl, by rwa [List.append_nil]⟩
  | succ n ih =>
    rw [rcReferencePoll]
    split_ifs with hpending
    · exact ⟨[], rfl, by rwa [List.append_nil]⟩
    · obtain ⟨units, hlength, hrun⟩ := ih (h.unit hpending)
      refine ⟨s :: units, by rw [List.length_cons, hlength], ?_⟩
      rwa [List.append_assoc, List.singleton_append] at hrun

/-- A release is a drop and a run of units. -/
theorem RcServiceRun.release {c : RcConfig} {s₀ s : RcState} {starts : List RcState}
    {E : Multiset ℕ} {q : RcQueues} {v : ℕ} (h : RcServiceRun c s₀ starts s)
    (hinv : RcInv s (v ::ₘ E) q) :
    ∃ units, RcServiceRun c s₀ (starts ++ units) (minyarRcRelease c s v) := by
  have hobjects := hinv.objects
  rw [show rcTokens s (v ::ₘ E) = v ::ₘ rcTokens s E from rcTokens_cons s v E] at hobjects
  obtain ⟨q', hspec⟩ := hobjects.drop hinv.next
  have hnext : (rcDrop s.objects v).2.next ≠ 0 := by
    rw [hspec.next]
    exact hinv.next
  have hdropped := h.program (.drop hinv) ⟨hspec.inv, hinv.frames, hnext, hinv.nextQueue⟩
  unfold minyarRcRelease rcServicePending
  simp only
  split_ifs
  · obtain ⟨units, -, hrun⟩ := hdropped.poll (c.pollBudget - (rcDrop s.objects v).1)
    exact ⟨units, hrun⟩
  · obtain ⟨units, -, hrun⟩ := hdropped.poll 0
    exact ⟨units, hrun⟩
  · exact ⟨[], by rwa [List.append_nil]⟩

/-! ## What the queues do not notice -/

/-- The dead objects and the scheduler are left alone. -/
structure RcLeaves (q : RcQueues) (s s' : RcState) : Prop where
  /-- The dead objects. -/
  heap : ∀ r ∈ rcDead s.objects.active q, s'.objects.heap r = s.objects.heap r
  /-- The scheduler. -/
  queues : RcSameQueues s s'

/-- The queues are those of the objects, the detached frames and chunks and the turn. -/
theorem RcSameQueues.heap (s : RcState) (heap : ℕ → Option RcObject) (next : ℕ) (fault : Bool) :
    RcSameQueues s { s with objects := { s.objects with
      heap := heap
      next := next
      fault := fault } } :=
  ⟨rfl, rfl, rfl, rfl, rfl, rfl, rfl, rfl, rfl, rfl, rfl⟩

namespace RcLeaves

variable {s s' s'' : RcState} {q : RcQueues} {v : ℕ}

theorem refl (s : RcState) : RcLeaves q s s := ⟨fun _ _ => rfl, .heap s _ _ _⟩

/-- The same objects are dead. -/
theorem not_dead (h : RcLeaves q s s') (hv : v ∉ rcDead s.objects.active q) :
    v ∉ rcDead s'.objects.active q := by
  rw [h.queues.active]
  exact hv

theorem trans (h : RcLeaves q s s') (h' : RcLeaves q s' s'') : RcLeaves q s s'' := by
  refine ⟨fun r hr => ?_, ?_⟩
  · rw [h'.heap r (by rwa [h.queues.active]), h.heap r hr]
  · have hq := h.queues
    have hq' := h'.queues
    exact ⟨hq'.active.trans hq.active, hq'.cursor.trans hq.cursor, hq'.head.trans hq.head,
      hq'.tail.trans hq.tail, hq'.recentHead.trans hq.recentHead,
      hq'.recentTail.trans hq.recentTail, hq'.recentTurn.trans hq.recentTurn,
      hq'.pending.trans hq.pending, hq'.frameQueue.trans hq.frameQueue,
      hq'.chunkQueue.trans hq.chunkQueue, hq'.nextQueue.trans hq.nextQueue⟩

theorem fail (s : RcState) : RcLeaves q s s.fail := ⟨fun _ _ => rfl, .heap s _ _ _⟩

/-- An object that is not dead is written. -/
theorem write (hv : v ∉ rcDead s.objects.active q) (o : RcObject) :
    RcLeaves q s { s with objects := s.objects.write v o } := by
  refine ⟨fun r hr => RcObjects.write_heap_of_ne _ _ ?_, .heap s _ _ _⟩
  rintro rfl
  exact hv hr

/-- An object that is not dead is changed in place. -/
theorem modify (hv : v ∉ rcDead s.objects.active q) (f : RcObject → RcObject) :
    RcLeaves q s (s.modify v f) := by
  unfold RcState.modify RcObjects.modify
  rcases s.objects.heap v with _ | o
  · exact fail s
  · exact write hv _

/-- An object that is not dead has a new owner. -/
theorem retain (hv : v ∉ rcDead s.objects.active q) (hs : minyarRcRetain s v = .ok s') :
    RcLeaves q s s' := by
  unfold minyarRcRetain at hs
  split_ifs at hs
  · cases hs
    exact refl s
  · rcases ho : s.objects.heap v with _ | o <;> rw [ho] at hs
    · cases hs
      exact fail s
    · simp only at hs
      split_ifs at hs <;> cases hs
      · exact refl s
      · exact write hv _

/-- An object is new. -/
theorem allocate {T : Multiset ℕ} {extra : ℕ} (h : RcObjectsInv s.objects T extra q)
    (o : RcObject) : RcLeaves q s { s with objects := { s.objects with
      heap := Function.update s.objects.heap s.objects.next (some o)
      next := s.objects.next + 1 } } := by
  refine ⟨fun r hr => Function.update_of_ne ?_ _ _, .heap s _ _ _⟩
  rintro rfl
  exact h.dead _ hr h.heap_next

/-- The active frames and the frames in the cache change. -/
theorem frames (s : RcState) (frames freeFrames : List RcFrame) (cachedFrameBytes : ℕ) :
    RcLeaves q s { s with
      frames := frames
      freeFrames := freeFrames
      cachedFrameBytes := cachedFrameBytes } :=
  ⟨fun _ _ => rfl, ⟨rfl, rfl, rfl, rfl, rfl, rfl, rfl, rfl, rfl, rfl, rfl⟩⟩

/-- The innermost frame changes. -/
theorem mapFrame (s : RcState) (f : RcFrame → RcFrame) : RcLeaves q s (s.mapFrame f) := by
  unfold RcState.mapFrame
  rcases s.frames with _ | ⟨frame, fs⟩
  · exact fail s
  · exact frames s _ _ _

end RcLeaves

/-- What the program may use is not dead. -/
theorem RcRefines.not_dead {s : RcState} {L : RcLedger} {q : RcQueues} (h : RcRefines s L q)
    {v : ℕ} (hv : L.Usable v) : v ∉ rcDead s.objects.active q := by
  rcases h.usable hv with rfl | ⟨o, -, hdead, -⟩
  · exact fun hmem => h.inv.objects.dead 0 hmem h.inv.objects.heap_zero
  · exact hdead

/-! ## Operations go on with a run -/

/-- Every run that has reached `s` goes on to `s'`. -/
def RcContinues (c : RcConfig) (s s' : RcState) : Prop :=
  ∀ s₀ starts, RcServiceRun c s₀ starts s → ∃ units, RcServiceRun c s₀ (starts ++ units) s'

namespace RcContinues

open RcRefines

variable {c : RcConfig} {s s' s'' : RcState} {L : RcLedger} {q q' : RcQueues} {v : ℕ}

theorem refl (s : RcState) : RcContinues c s s :=
  fun _ _ hrun => ⟨[], by rwa [List.append_nil]⟩

theorem trans (h : RcContinues c s s') (h' : RcContinues c s' s'') : RcContinues c s s'' := by
  intro s₀ starts hrun
  obtain ⟨units, hrun⟩ := h s₀ starts hrun
  obtain ⟨units', hrun⟩ := h' s₀ _ hrun
  refine ⟨units ++ units', ?_⟩
  rwa [← List.append_assoc]

/-- A step of the program. -/
theorem program (h : RcProgramStep s s') {E : Multiset ℕ} (h' : RcInv s' E q') :
    RcContinues c s s' :=
  fun _ _ hrun => ⟨[], by
    rw [List.append_nil]
    exact hrun.program h h'⟩

/-- A change that no queue notices. -/
theorem leaves {E E' : Multiset ℕ} (h : RcInv s E q) (hleaves : RcLeaves q s s')
    (h' : RcInv s' E' q') : RcContinues c s s' :=
  program (.other h hleaves.heap hleaves.queues) h'

/-- A poll. -/
theorem poll (c : RcConfig) (s : RcState) (budget : ℕ) :
    RcContinues c s (minyarRcPoll c s budget).2 := by
  intro s₀ starts hrun
  obtain ⟨units, -, hrun⟩ := hrun.poll budget
  exact ⟨units, hrun⟩

/-- Service of pending work. -/
theorem servicePending (c : RcConfig) (s : RcState) (budget : ℕ) :
    RcContinues c s (rcServicePending c s budget) := by
  unfold rcServicePending
  split_ifs
  · exact poll c s budget
  · exact refl s

/-- The drop of an owner. -/
theorem drop (h : RcRefines s (L.give v) q) :
    RcContinues c s { s with objects := (rcDrop s.objects v).2 } := by
  obtain ⟨q', h'⟩ := h.drop
  exact program (.drop h.inv) h'.inv

/-- The release of an owner. -/
theorem release (h : RcRefines s (L.give v) q) : RcContinues c s (minyarRcRelease c s v) := by
  intro s₀ starts hrun
  exact hrun.release h.inv

/-- A new owner. -/
theorem retain (h : RcRefines s L q) (hv : L.Usable v) (hs : minyarRcRetain s v = .ok s') :
    RcContinues c s s' :=
  leaves h.inv (.retain (h.not_dead hv) hs) (h.retain hv hs).inv

/-! ### Texts -/

/-- A new object, after pending work is served. -/
theorem allocateObject (h : RcRefines s L q) {o : RcObject} {L' : RcLedger}
    (h' : RcRefines (rcAllocateObject c s o).2 L' q') :
    RcContinues c s (rcAllocateObject c s o).2 := by
  obtain ⟨q₁, h₁⟩ := h.servicePending c c.pollBudget
  exact (servicePending c s _).trans (leaves h₁.inv (.allocate h₁.inv.objects o) h'.inv)

theorem newText (h : RcRefines s L q) (bytes : List UInt8) :
    RcContinues c s (Minyar.newText c s bytes).2 := by
  obtain ⟨-, q', h'⟩ := h.newText c bytes
  exact allocateObject h h'

theorem copyText (h : RcRefines s L q) (bytes : List UInt8) :
    RcContinues c s (Minyar.copyText c s bytes).2 := by
  obtain ⟨q₁, h₁⟩ := h.servicePending c c.pollBudget
  exact (servicePending c s _).trans (newText h₁ bytes)

/-- A slice is a new owner, a copy or a view that is linked to its root. -/
theorem textSlice (h : RcRefines s L q) {first last : ℕ} (hv : L.Usable v) {bytes : List UInt8}
    {backing : ℕ} {immortal : Bool} (hx : L.heap v = some (.text bytes backing immortal))
    {r : ℕ × RcState} (hs : minyarTextSlice c s v first last = .ok r) :
    RcContinues c s r.2 := by
  obtain ⟨-, q', h'⟩ := h.textSlice c hv hx hs
  rcases h.textSlice_cases c hv hx hs with ⟨-, -, hs₁⟩ | ⟨slice, -, rfl⟩ |
    ⟨slice, root, bytes₀, immortal₀, -, hroot, -, -, hs₁⟩
  · exact retain h hv hs₁
  · exact copyText h slice
  · obtain ⟨hname, q₁, h₁⟩ := h.newText c slice
    have hnew : (Minyar.newText c s slice).1 ∉
        rcDead (Minyar.newText c s slice).2.objects.active q₁ := by
      rw [hname]
      exact h₁.not_dead (L.usable_allocate h.next_ne_zero _)
    have hlink := RcLeaves.modify hnew fun object => { object with backing := root }
    have hroot' := h₁.not_dead (hroot.allocate (fun r x hx => (h.bound r x hx).2) _)
    exact (newText h slice).trans
      (leaves h₁.inv (hlink.trans (.retain (hlink.not_dead hroot') hs₁)) h'.inv)

/-! ### Lists -/

theorem listNew (h : RcRefines s L q) : RcContinues c s (minyarListNew c s).2 := by
  obtain ⟨-, q', h'⟩ := h.listNew c
  exact allocateObject h h'

theorem listReferences (h : RcRefines s L q) (hv : L.Usable v)
    (hlist : L.heap v = some (.list []) ∨ ∃ values, L.heap v = some (.references values)) :
    RcContinues c s (minyarListReferences s v) :=
  leaves h.inv (.modify (h.not_dead hv) _) (h.listReferences hv hlist).inv

theorem listGrow (h : RcRefines s L q) (hv : L.Usable v) (hlist : IsList L v)
    (hs : Minyar.listGrow c s v = .ok s') : RcContinues c s s' := by
  obtain ⟨q', h', -⟩ := h.listGrow c hv hlist hs
  obtain ⟨o, ho, -⟩ := h.exists_list hv hlist
  obtain ⟨q₁, h₁⟩ := h.servicePending c c.pollBudget
  unfold Minyar.listGrow at hs
  rw [ho] at hs
  simp only at hs
  split_ifs at hs
  cases hs
  exact (servicePending c s _).trans (leaves h₁.inv (.modify (h₁.not_dead hv) _) h'.inv)

theorem listEnsure (h : RcRefines s L q) (hv : L.Usable v) (hlist : IsList L v)
    (hs : Minyar.listEnsure c s v = .ok s') : RcContinues c s s' := by
  obtain ⟨o, ho, -⟩ := h.exists_list hv hlist
  unfold Minyar.listEnsure at hs
  rw [ho] at hs
  simp only at hs
  split_ifs at hs
  · exact listGrow h hv hlist hs
  · cases hs
    exact refl s

theorem listGrowTo (h : RcRefines s L q) (hv : L.Usable v) (hlist : IsList L v)
    {capacity fuel : ℕ} (hs : Minyar.listGrowTo c v capacity fuel s = .ok s') :
    RcContinues c s s' := by
  induction fuel generalizing s q with
  | zero =>
    cases hs
    exact refl _
  | succ fuel ih =>
    obtain ⟨o, ho, -⟩ := h.exists_list hv hlist
    rw [Minyar.listGrowTo, ho] at hs
    simp only at hs
    split_ifs at hs
    · obtain ⟨s₁, hs₁, hs⟩ := bind_eq_ok.mp hs
      obtain ⟨q₁, h₁, -⟩ := h.listGrow c hv hlist hs₁
      exact (listGrow h hv hlist hs₁).trans (ih h₁ hs)
    · cases hs
      exact refl _

/-- Making room, the kind and the new owner, the value, and service. -/
theorem listAdd (h : RcRefines s L q) {w : ℕ} (hv : L.Usable v)
    (hlist : L.ListTakes v (L.Usable w)) (hs : minyarListAdd c s v w = .ok s') :
    RcContinues c s s' := by
  obtain ⟨s₁, s₂, hs₁, ⟨q₂, h₂⟩, hcases⟩ := h.listAdd_cases c hv hlist hs
  obtain ⟨q₁, h₁, -⟩ := h.listEnsure c hv (isList_of_takes hlist) hs₁
  refine (listEnsure h hv (isList_of_takes hlist) hs₁).trans ?_
  have hdead := h₁.not_dead hv
  rcases hcases with ⟨-, rfl, rfl⟩ | ⟨⟨values, hx⟩, ⟨kind, hs₂⟩, rfl⟩
  · exact leaves h₁.inv (.modify hdead _) h₂.inv
  · have hw : L.Usable w := by
      rcases hlist with ⟨values', hx'⟩ | ⟨-, hw⟩
      · rw [hx] at hx'
        cases hx'
      · exact hw
    have hkind := RcLeaves.modify hdead fun object => { object with kind := kind }
    have hstored : RcLeaves q₁ s₁ s₂ := by
      split_ifs at hs₂
      · exact hkind.trans (.retain (hkind.not_dead (h₁.not_dead hw)) hs₂)
      · cases hs₂
        exact hkind
    exact (leaves h₁.inv (hstored.trans (.modify (hstored.not_dead hdead) _)) h₂.inv).trans
      (servicePending c _ _)

theorem listAddTake (h : RcRefines s L q) {w : ℕ} (hv : L.Usable v)
    (hlist : L.ListTakes v (L.Owned w)) (hs : minyarListAddTake c s v w = .ok s') :
    RcContinues c s s' := by
  obtain ⟨s₁, s₂, hs₁, ⟨q₂, h₂⟩, hcases⟩ := h.listAddTake_cases c hv hlist hs
  obtain ⟨q₁, h₁, -⟩ := h.listEnsure c hv (isList_of_takes hlist) hs₁
  refine (listEnsure h hv (isList_of_takes hlist) hs₁).trans ?_
  have hdead := h₁.not_dead hv
  rcases hcases with ⟨rfl, rfl⟩ | ⟨⟨kind, rfl⟩, rfl⟩
  · exact leaves h₁.inv (.modify hdead _) h₂.inv
  · have hkind := RcLeaves.modify hdead fun object => { object with kind := kind }
    exact (leaves h₁.inv (hkind.trans (.modify (hkind.not_dead hdead) _)) h₂.inv).trans
      (servicePending c _ _)

/-- The kind, the new owner and the value, and the release of the previous element. -/
theorem listSetOwned (h : RcRefines s L q) {w : ℕ} {position : ℤ} {retainValue : Bool}
    (hv : L.Usable v) (hlist : L.ListTakes v (if retainValue then L.Usable w else L.Owned w))
    (hs : minyarListSetOwned c s v position w retainValue = .ok s') : RcContinues c s s' := by
  have hdead := h.not_dead hv
  obtain ⟨kind, s₁, hs₁, hcases⟩ := h.listSetOwned_cases c hv hlist hs
  have hkind := RcLeaves.modify hdead fun object => { object with kind := kind }
  have hstored : RcLeaves q s s₁ := by
    rcases hs₁ with rfl | ⟨hw, hs₁⟩
    · exact hkind
    · exact hkind.trans (.retain (hkind.not_dead (h.not_dead hw)) hs₁)
  have hset := hstored.trans (.modify (hstored.not_dead hdead) fun object =>
    { object with values := object.values.set position.toNat w })
  rcases hcases with ⟨⟨q', h'⟩, rfl⟩ | ⟨previous, ⟨q', h'⟩, rfl⟩
  · exact leaves h.inv hset h'.inv
  · exact (leaves h.inv hset h'.inv).trans (release h')

theorem listSet (h : RcRefines s L q) {w : ℕ} {position : ℤ} (hv : L.Usable v)
    (hlist : L.ListTakes v (L.Usable w)) (hs : minyarListSet c s v position w = .ok s') :
    RcContinues c s s' := @listSetOwned c s s' L q v h w position true hv hlist hs

theorem listSetTake (h : RcRefines s L q) {w : ℕ} {position : ℤ} (hv : L.Usable v)
    (hlist : L.ListTakes v (L.Owned w)) (hs : minyarListSetTake c s v position w = .ok s') :
    RcContinues c s s' := @listSetOwned c s s' L q v h w position false hv hlist hs

/-- A new List, which is marked when it is one of references. -/
theorem listNewMarked (h : RcRefines s L q) (references : Bool) :
    RcContinues c s (if references then minyarListReferences (minyarListNew c s).2 L.next
      else (minyarListNew c s).2) := by
  obtain ⟨-, q₁, h₁⟩ := h.listNew c
  cases references with
  | false => exact listNew h
  | true =>
    exact (listNew h).trans (listReferences h₁ (L.usable_allocate h.next_ne_zero _)
      (Or.inl (L.allocate_heap _)))

/-- Adding values to a new List one after another. -/
theorem listAddAll (references : Bool) {values acc : List ℕ}
    (h : RcRefines s (L.allocate (.ofElements references acc)).2 q)
    (hbound : ∀ r x, L.heap r = some x → r < L.next) (h0 : L.next ≠ 0)
    (hvalues : references = true → ∀ w ∈ values, L.Usable w)
    (hs : Minyar.listAddAll c L.next values s = .ok s') : RcContinues c s s' := by
  induction values generalizing acc s q with
  | nil =>
    cases hs
    exact refl _
  | cons w values ih =>
    obtain ⟨s₁, hs₁, hs⟩ := bind_eq_ok.mp hs
    have htakes := listTakes_allocate L references acc
      (p := (L.allocate (.ofElements references acc)).2.Usable w)
      fun hr => (hvalues hr w List.mem_cons_self).allocate hbound _
    obtain ⟨q₁, h₁⟩ := h.listAdd c (L.usable_allocate h0 _) htakes hs₁
    rw [L.allocate_addToList] at h₁
    exact (listAdd h (L.usable_allocate h0 _) htakes hs₁).trans
      (ih h₁ (fun hr x hx => hvalues hr x (List.mem_cons_of_mem _ hx)) hs)

/-- A new List, room in it, the elements and the value. -/
theorem listAppended (h : RcRefines s L q) {w : ℕ} {references takeValue : Bool}
    (hlegal : (RcOp.listAppended v w references takeValue).Legal L) {r : ℕ × RcState}
    (hs : minyarListAppended c s v w references takeValue = .ok r) : RcContinues c s r.2 := by
  obtain ⟨-, hvalues, s₃, s₄, capacity, fuel, hs₃, hs₄, hs₅⟩ := h.listAppended_cases c hlegal hs
  have hbound : ∀ r x, L.heap r = some x → r < L.next := fun r x hx => (h.bound r x hx).2
  have hnew := L.usable_allocate h.next_ne_zero
  have hlist := isList_of_takes (listTakes_allocate L references [] (p := True) fun _ => trivial)
  obtain ⟨q₂, h₂⟩ := h.listNewMarked c references
  obtain ⟨q₃, h₃⟩ := h₂.listGrowTo c (hnew _) hlist hs₃
  obtain ⟨q₄, h₄⟩ := h₃.listAddAll c references hbound h.next_ne_zero hvalues hs₄
  refine (listNewMarked h references).trans ((listGrowTo h₂ (hnew _) hlist hs₃).trans
    ((listAddAll references h₃ hbound h.next_ne_zero hvalues hs₄).trans ?_))
  rw [List.nil_append] at h₄
  cases takeValue with
  | false =>
    refine listAdd h₄ (hnew _) (listTakes_allocate L references (L.elements v) ?_) hs₅
    rintro rfl
    exact hlegal.2.2.allocate hbound _
  | true =>
    refine listAddTake h₄ (hnew _) (listTakes_allocate L references (L.elements v) ?_) hs₅
    rintro rfl
    exact hlegal.2.2.allocate hbound _

/-! ### Records -/

theorem recordAllocate (h : RcRefines s L q) {fieldCount : ℤ} {references : Bool}
    {r : ℕ × RcState} (hs : Minyar.recordAllocate c s fieldCount references = .ok r) :
    RcContinues c s r.2 := by
  obtain ⟨-, q', h'⟩ := h.recordAllocate c hs
  unfold Minyar.recordAllocate at hs
  split_ifs at hs
  all_goals
    cases hs
    exact allocateObject h h'

theorem recordSetScalar (h : RcRefines s L q) {w : ℕ} {field : ℤ} (hv : L.Usable v)
    (hplain : L.PlainField v field) (hs : minyarRecordSetScalar s v field w = .ok s') :
    RcContinues c s s' := by
  have h' := h.recordSetScalar hv hplain hs
  obtain ⟨o, ho⟩ := h.exists_of_plain hv hplain
  unfold minyarRecordSetScalar at hs
  rw [ho] at hs
  simp only at hs
  split_ifs at hs
  cases hs
  exact leaves h.inv (.modify (h.not_dead hv) _) h'.inv

theorem recordSet (h : RcRefines s L q) {w : ℕ} {field : ℤ} (hv : L.Usable v)
    (hplain : L.PlainField v field) (hs : minyarRecordSet c s v field w = .ok s') :
    RcContinues c s s' := by
  obtain ⟨o, ho⟩ := h.exists_of_plain hv hplain
  have hset := leaves (c := c) h.inv (.modify (h.not_dead hv) _) (h.setPlain hv hplain w).inv
  unfold minyarRecordSet at hs
  rw [ho] at hs
  simp only at hs
  split_ifs at hs <;> cases hs
  · exact hset.trans (poll c _ _)
  · exact hset

theorem recordSetTake {w : ℕ} (h : RcRefines s (L.give w) q) {field : ℤ} {o : RcObject}
    (ho : s.objects.heap v = some o) (hdead : v ∉ rcDead s.objects.active q)
    (hrecord : ∃ fields, L.heap v = some (.record fields))
    (hs : minyarRecordSetTake c s v field w = .ok s') : RcContinues c s s' := by
  obtain ⟨o', hstored, rfl⟩ := h.recordSetTake_stored c ho hdead hrecord hs
  exact (leaves h.inv (.write hdead o') hstored.inv).trans (poll c _ _)

theorem recordSetReference (h : RcRefines s L q) {w : ℕ} {field : ℤ} (hv : L.Usable v)
    (hw : L.Usable w) (hrecord : ∃ fields, L.heap v = some (.record fields))
    (hs : minyarRecordSetReference c s v field w = .ok s') : RcContinues c s s' := by
  obtain ⟨s₁, hs₁, hs⟩ := bind_eq_ok.mp hs
  have h₁ := h.retain hw hs₁
  obtain ⟨fields, hx⟩ := hrecord
  obtain ⟨o, ho, hdead, -⟩ := h₁.exists_of_usable (hv.give w) hx
  exact (retain h hw hs₁).trans (recordSetTake h₁ ho hdead ⟨fields, hx⟩ hs)

/-! ### Frames -/

/-- An owner becomes a temporary, in a new chunk after pending work is served. -/
theorem keep (h : RcRefines s (L.give v) q) (hframes : L.frames ≠ [])
    (hv : (L.give v).Usable v) : RcContinues c s (minyarRcKeep c s v) := by
  rcases h.keep_cases c hframes hv with ⟨hsame, -⟩ | ⟨f, fs, -, ⟨q₂, h₂⟩, hkeep⟩
  · rw [hsame]
    exact refl s
  · rw [hkeep]
    refine RcContinues.trans ?_ (servicePending c _ _)
    obtain ⟨q₁, h₁⟩ := h.servicePending c c.pollBudget
    split_ifs at h₂ ⊢
    · exact (servicePending c s _).trans
        (leaves h₁.inv ((RcLeaves.mapFrame _ _).trans (.mapFrame _ _)) h₂.inv)
    · exact leaves h.inv (.mapFrame _ _) h₂.inv

theorem borrow (h : RcRefines s L q) (hframes : L.frames ≠ []) (hv : L.Usable v)
    (hs : minyarRcBorrow c s v = .ok s') : RcContinues c s s' := by
  obtain ⟨s₁, hs₁, hs⟩ := bind_eq_ok.mp hs
  cases hs
  exact (retain h hv hs₁).trans (keep (h.retain hv hs₁) hframes (hv.give v))

/-- The local is stored, and the previous owner is released. -/
theorem localTake (h : RcRefines s (L.give v) q) {index : ℕ}
    (hindex : ∃ F ∈ L.frames.head?, index < F.locals.length) :
    RcContinues c s (minyarRcLocalTake c s index v) := by
  obtain ⟨frames, previous, hstored, htake⟩ := h.localTake_stored c hindex
  rw [htake]
  exact (leaves h.inv (.frames s frames _ _) hstored.inv).trans (release hstored)

theorem setLocal (h : RcRefines s L q) {index : ℕ}
    (hindex : ∃ F ∈ L.frames.head?, index < F.locals.length) (hv : L.Usable v)
    (hs : minyarRcLocal c s index v = .ok s') : RcContinues c s s' := by
  obtain ⟨s₁, hs₁, hs⟩ := bind_eq_ok.mp hs
  cases hs
  exact (retain h hv hs₁).trans (localTake (h.retain hv hs₁) hindex)

theorem localMove (h : RcRefines s L q) {index : ℕ}
    (hindex : ∃ F ∈ L.frames.head?, index < F.locals.length) :
    RcContinues c s (minyarRcLocalMove s index) := by
  refine leaves h.inv ?_ (h.localMove hindex).inv
  unfold minyarRcLocalMove
  split
  · exact .fail s
  · split
    · exact .fail s
    · exact .frames s _ _ _

/-- A poll and a new frame. -/
theorem enter (h : RcRefines s L q) {locals : ℤ} (hs : minyarRcEnter c s locals = .ok s') :
    RcContinues c s s' := by
  obtain ⟨q', h'⟩ := h.enter c hs none
  obtain ⟨q₁, h₁⟩ := h.poll c c.pollBudget
  refine (poll c s c.pollBudget).trans (leaves h₁.inv ?_ h'.inv)
  unfold minyarRcEnter at hs
  simp only at hs
  split_ifs at hs
  cases hs
  split
  · exact .frames _ _ _ _
  · exact .frames _ _ _ _

theorem enterStack (h : RcRefines s L q) {header : ℕ} {locals : ℤ}
    (hs : minyarRcEnterStack c s header locals = .ok s') : RcContinues c s s' := by
  obtain ⟨q', h'⟩ := h.enterStack c hs
  unfold minyarRcEnterStack at hs
  split_ifs at hs
  · cases hs
    obtain ⟨q₁, h₁⟩ := h.poll c c.pollBudget
    exact (poll c s c.pollBudget).trans (leaves h₁.inv (.frames _ _ _ _) h'.inv)
  · exact enter h hs

/-- Owners of the active frames are in the hands of the program before they are detached. -/
theorem loosen (h : RcRefines s L q) {frames : List RcFrame} {Fs : List RcLedgerFrame}
    (owners : List ℕ) (hinv : ∀ f ∈ frames, RcFrameInv f)
    (hmatch : List.Forall₂ RcFrameMatches frames Fs)
    (hcount : ∀ r, (frames.flatMap RcFrame.tokens).count r + owners.count r =
      (s.frames.flatMap RcFrame.tokens).count r) : RcContinues c s { s with frames := frames } := by
  have hloose : RcRefines { s with frames := frames }
      { L with frames := Fs, held := owners + L.held } q := by
    refine h.move s.objects.pending _ rfl rfl (fun r _ => ?_) hinv hmatch rfl
    have hr := hcount r
    simp only [rcTokens, rcQueued, rcHeld, Multiset.count_add, Multiset.coe_count]
    omega
  exact leaves h.inv (.frames s frames _ _) hloose.inv

/-- The innermost frame is left, and its temporaries are detached. -/
theorem detachSlots (h : RcRefines s L q) {f : RcFrame} {fs : List RcFrame}
    (hf : s.frames = f :: fs) {F : RcLedgerFrame} {Fs : List RcLedgerFrame}
    (hF : L.frames = F :: Fs) :
    RcContinues c s (rcBoundedRetireTemporaries { s with frames := fs } f) := by
  obtain ⟨f', fs', hf', -, -, hfs⟩ := h.frame hF
  rw [hf] at hf'
  cases hf'
  have hinv : ∀ g ∈ fs, RcFrameInv g := fun g hg => h.inv.frames g (by
    rw [hf]
    exact List.mem_cons_of_mem _ hg)
  refine (loosen h f.tokens hinv hfs fun r => ?_).trans
    (program (.temporaries _ f) (h.detachSlots hf hF).inv)
  rw [hf, List.flatMap_cons, List.count_append, Nat.add_comm]

/-- The innermost frame is left, its temporaries and its slots are detached, and a poll serves
them. -/
theorem leave (h : RcRefines s L q) (hframes : L.frames ≠ []) :
    RcContinues c s (minyarRcLeave c s) := by
  obtain ⟨f, fs, F, Fs, hf, hF, -⟩ := h.exists_frame hframes
  have hdetached := h.detachFrame hf hF
  have hqueue : (rcBoundedRetireTemporaries { s with frames := fs } f).frameQueue =
      s.frameQueue := by
    unfold rcBoundedRetireTemporaries
    split_ifs <;> rfl
  have hframe := RcProgramStep.frame (rcBoundedRetireTemporaries { s with frames := fs } f)
    { f.retired with localCount := f.indices.length }
  rw [hqueue] at hframe
  unfold minyarRcLeave
  rw [hf]
  simp only
  rw [hqueue]
  exact ((detachSlots h hf hF).trans (program hframe hdetached.inv)).trans (poll c _ _)

/-- The temporaries of the innermost frame are detached, and a poll serves them. -/
theorem step (h : RcRefines s L q) (hframes : L.frames ≠ []) :
    RcContinues c s (minyarRcStep c s) := by
  obtain ⟨f, fs, F, Fs, hf, hF, hmatch⟩ := h.exists_frame hframes
  obtain ⟨f', fs', hf', hinv, -, hfs⟩ := h.frame hF
  rw [hf] at hf'
  cases hf'
  have hinvs : ∀ g ∈ f.retired :: fs, RcFrameInv g := by
    intro g hg
    rcases List.mem_cons.mp hg with rfl | hg
    · exact hinv.retired
    · refine h.inv.frames g ?_
      rw [hf]
      exact List.mem_cons_of_mem _ hg
  have hloose := loosen (c := c) h f.chunks.flatten hinvs (.cons hmatch.retired hfs) fun r => by
    rw [hf]
    simp only [List.flatMap_cons, RcFrame.tokens, RcFrame.retired, List.flatten_nil,
      List.append_nil, List.count_append]
    omega
  unfold minyarRcStep
  rw [hf]
  exact (hloose.trans (program (.temporaries _ f) (h.detachTemporaries hf hF).inv)).trans
    (poll c _ _)

/-- The owners of written slots are dropped one after another. -/
theorem dropWritten (f : RcFrame) {written : ℕ} {E : Multiset ℕ}
    (h : RcRefines s { L with
      held := ((List.range written).map (rcBoundedPendingLocalValue f) : List ℕ) + E } q) :
    RcContinues c s { s with objects := rcDropWritten f written s.objects } := by
  induction written generalizing s q with
  | zero => exact refl s
  | succ written ih =>
    rw [give_written] at h
    obtain ⟨q₁, h₁⟩ := h.drop
    exact (drop h).trans (ih h₁)

/-- The innermost frame gives up its owners, or it is detached. -/
theorem leaveStack (h : RcRefines s L q) {header : ℕ} (hframes : L.frames ≠ []) :
    RcContinues c s (minyarRcLeaveStack c s header) := by
  have hleave := leave (c := c) h hframes
  obtain ⟨f, fs, F, Fs, hf, hF, -⟩ := h.exists_frame hframes
  unfold minyarRcLeaveStack
  rw [hf]
  simp only
  split_ifs
  · exact ((detachSlots h hf hF).trans
      (dropWritten (L := { L with frames := Fs }) f (h.detachSlots hf hF))).trans (poll c _ _)
  · exact hleave

/-! ### One operation -/

/-- Every operation that the protocol allows, when it does not stop the program, goes on with a run
of the program and the service. -/
theorem op (h : RcRefines s L q) (c : RcConfig) {op : RcOp} (hlegal : op.Legal L) {r : ℕ × RcState}
    (hs : op.run c s = .ok r) : RcContinues c s r.2 := by
  cases op with
  | literal bytes =>
    cases hs
    exact leaves h.inv (.allocate h.inv.objects _) (h.literal bytes).inv
  | newText bytes =>
    cases hs
    exact copyText h bytes
  | textSlice text first last =>
    obtain ⟨hv, bytes, backing, immortal, hx, -⟩ := hlegal
    exact textSlice h hv hx hs
  | allocateData =>
    cases hs
    exact servicePending c s _
  | listNew =>
    cases hs
    exact listNew h
  | listReferences list =>
    cases hs
    exact listReferences h hlegal.1 hlegal.2
  | listAdd list value =>
    obtain ⟨s', hs', rfl⟩ := bind_rcVoid_eq_ok.mp hs
    exact listAdd h hlegal.1 hlegal.2 hs'
  | listAddTake list value =>
    obtain ⟨s', hs', rfl⟩ := bind_rcVoid_eq_ok.mp hs
    exact listAddTake h hlegal.1 hlegal.2 hs'
  | listSet list position value =>
    obtain ⟨s', hs', rfl⟩ := bind_rcVoid_eq_ok.mp hs
    exact listSet h hlegal.1 hlegal.2 hs'
  | listSetTake list position value =>
    obtain ⟨s', hs', rfl⟩ := bind_rcVoid_eq_ok.mp hs
    exact listSetTake h hlegal.1 hlegal.2 hs'
  | listAppended list value references takeValue => exact listAppended h hlegal hs
  | recordNew fieldCount => exact recordAllocate h hs
  | recordNewScalar fieldCount => exact recordAllocate h hs
  | recordSetScalar record field value =>
    obtain ⟨s', hs', rfl⟩ := bind_rcVoid_eq_ok.mp hs
    exact recordSetScalar h hlegal.1 hlegal.2 hs'
  | recordSet record field value =>
    obtain ⟨s', hs', rfl⟩ := bind_rcVoid_eq_ok.mp hs
    exact recordSet h hlegal.1 hlegal.2 hs'
  | recordSetTake record field value =>
    obtain ⟨s', hs', rfl⟩ := bind_rcVoid_eq_ok.mp hs
    obtain ⟨hv, ⟨fields, hx⟩, hvalue⟩ := hlegal
    obtain ⟨o, ho, hdead, -⟩ := h.exists_of_usable hv hx
    exact recordSetTake (h.take hvalue) ho hdead ⟨fields, hx⟩ hs'
  | recordSetReference record field value =>
    obtain ⟨s', hs', rfl⟩ := bind_rcVoid_eq_ok.mp hs
    exact recordSetReference h hlegal.1 hlegal.2.2 hlegal.2.1 hs'
  | retain value =>
    obtain ⟨s', hs', rfl⟩ := bind_rcVoid_eq_ok.mp hs
    exact retain h hlegal hs'
  | release value =>
    cases hs
    exact release (h.take hlegal)
  | keep value =>
    cases hs
    exact keep (h.take hlegal.2) hlegal.1 (RcLedger.usable_give _ _)
  | borrow value =>
    obtain ⟨s', hs', rfl⟩ := bind_rcVoid_eq_ok.mp hs
    exact borrow h hlegal.1 hlegal.2 hs'
  | setLocal index value =>
    obtain ⟨s', hs', rfl⟩ := bind_rcVoid_eq_ok.mp hs
    exact setLocal h hlegal.1 hlegal.2 hs'
  | localTake index value =>
    cases hs
    exact localTake (h.take hlegal.2) hlegal.1
  | localMove index =>
    cases hs
    exact localMove h hlegal
  | enter locals =>
    obtain ⟨s', hs', rfl⟩ := bind_rcVoid_eq_ok.mp hs
    exact enter h hs'
  | leave =>
    cases hs
    obtain ⟨F, hF, -⟩ := hlegal
    exact leave h fun hnil => by
      rw [hnil] at hF
      cases hF
  | step =>
    cases hs
    exact step h hlegal
  | enterStack header locals =>
    obtain ⟨s', hs', rfl⟩ := bind_rcVoid_eq_ok.mp hs
    exact enterStack h hs'
  | leaveStack header =>
    cases hs
    obtain ⟨F, hF, -⟩ := hlegal
    exact leaveStack h fun hnil => by
      rw [hnil] at hF
      cases hF
  | poll budget =>
    cases hs
    exact poll c s budget

end RcContinues

end Minyar

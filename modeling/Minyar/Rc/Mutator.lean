import Minyar.Rc.Fusion
import Minyar.Rc.Operations

/-!
# The runtime refines the ledger

`RcRefines` relates a state of the runtime to the ledger of the program: the invariant holds for the
owners of the ledger, and every alive object has the contents that the ledger records.  The lemmas
of this module are the moves that operations are made of: service, drops, new owners, allocation,
stores, and owners that change places outside the objects.
-/

namespace Minyar

open CountedGraph

/-- A frame of the runtime and a frame of the ledger. -/
structure RcFrameMatches (f : RcFrame) (F : RcLedgerFrame) : Prop where
  /-- A frame is in the offered storage or on the heap. -/
  header : ∀ header, f.header = some header → F.header = some header
  /-- The owners in the locals. -/
  locals : f.locals.map Prod.fst = F.locals
  /-- The temporaries. -/
  temporaries : f.chunks.flatten = F.temporaries

/-- An object that is there and not dead. -/
def RcState.Alive (s : RcState) (q : RcQueues) (v : ℕ) : Prop :=
  ∃ o, s.objects.heap v = some o ∧ v ∉ rcDead s.objects.active q

/-- The runtime matches the ledger in everything that is alive. -/
structure RcMatches (s : RcState) (L : RcLedger) (q : RcQueues) : Prop where
  /-- The invariant holds for the owners that the program holds. -/
  inv : RcInv s L.held q
  /-- Alive objects have the recorded contents. -/
  heap : ∀ r o, s.objects.heap r = some o → r ∉ rcDead s.objects.active q →
    L.heap r = some o.contents
  /-- Immortal objects are never destroyed. -/
  immortal : ∀ v, L.Immortal v → ∃ o, s.objects.heap v = some o ∧
    v ∉ rcDead s.objects.active q ∧ o.owners = 0
  /-- The next object has the same name. -/
  next : s.objects.next = L.next
  /-- Only allocated objects have contents. -/
  bound : ∀ r x, L.heap r = some x → r ≠ 0 ∧ r < L.next
  /-- The frames correspond. -/
  frames : List.Forall₂ RcFrameMatches s.frames L.frames

/-- The runtime refines the ledger: it matches it, and nothing is lost that the ledger sustains. -/
structure RcRefines (s : RcState) (L : RcLedger) (q : RcQueues) : Prop extends RcMatches s L q where
  /-- What the ledger sustains is alive. -/
  kept : ∀ v, L.Kept v → s.Alive q v

theorem RcFrameMatches.tokens {f : RcFrame} {F : RcLedgerFrame} (h : RcFrameMatches f F) :
    f.tokens = F.locals ++ F.temporaries := by
  unfold RcFrame.tokens
  rw [h.locals, h.temporaries]

/-- Corresponding frames hold the same owners. -/
theorem rcFrames_tokens {l : List RcFrame} {m : List RcLedgerFrame}
    (h : List.Forall₂ RcFrameMatches l m) :
    l.flatMap RcFrame.tokens = m.flatMap fun F => F.locals ++ F.temporaries := by
  induction h with
  | nil => rfl
  | cons hf _ ih => rw [List.flatMap_cons, List.flatMap_cons, hf.tokens, ih]

/-- Before the program starts. -/
theorem RcRefines.initial : RcRefines RcState.initial RcLedger.initial ⟨[], []⟩ where
  inv := RcInv.initial
  heap := fun _ _ h => by cases h
  immortal := fun _ ⟨_, _, h⟩ => by cases h
  next := rfl
  bound := fun _ _ h => by cases h
  frames := .nil
  kept := fun v ⟨K, hK, hv⟩ => by
    obtain ⟨-, ⟨_, _, himmortal⟩ | howner | ⟨w, -, x, hx, -⟩⟩ := hK v hv
    · cases himmortal
    · simp [RcLedger.owners, RcLedger.initial] at howner
    · cases hx

/-- The next name is free. -/
theorem RcObjectsInv.heap_next {s : RcObjects} {T : Multiset ℕ} {extra : ℕ} {q : RcQueues}
    (h : RcObjectsInv s T extra q) : s.heap s.next = none := by
  rcases hn : s.heap s.next with _ | o
  · rfl
  · exact absurd (h.lt_next hn) (lt_irrefl _)

/-- The null pointer names no object. -/
theorem RcObjectsInv.heap_zero {s : RcObjects} {T : Multiset ℕ} {extra : ℕ} {q : RcQueues}
    (h : RcObjectsInv s T extra q) : s.heap 0 = none := by
  rcases hn : s.heap 0 with _ | o
  · rfl
  · exact absurd rfl (h.ne_zero hn)

/-- The contents of objects that kept theirs. -/
theorem RcSame.contents {o o' : RcObject} (h : RcSame o o') (hmap : o'.map = o.map)
    (howners : o'.owners = 0 ↔ o.owners = 0) : o'.contents = o.contents := by
  unfold RcObject.contents
  rw [h.kind, h.values, h.bytes, h.backing, hmap]
  simp only [howners]

/-- One more owner in a count. -/
theorem count_cons (v r : ℕ) (E : Multiset ℕ) : (v ::ₘ E).count r = [v].count r + E.count r := by
  rw [← Multiset.singleton_add, Multiset.count_add, ← Multiset.coe_singleton, Multiset.coe_count]

/-- The tokens with one more held owner. -/
theorem rcTokens_cons (s : RcState) (v : ℕ) (E : Multiset ℕ) :
    rcTokens s (v ::ₘ E) = v ::ₘ rcTokens s E := by
  simp [rcTokens, rcHeld]

/-! ## What matches -/

namespace RcMatches

variable {s s' : RcState} {L L' : RcLedger} {q q' : RcQueues} {v : ℕ} {o : RcObject}

theorem held (h : RcMatches s L q) : rcHeld s L.held = L.owners := by
  unfold rcHeld RcLedger.owners
  rw [rcFrames_tokens h.frames]

/-- An alive object owns valid objects. -/
theorem exists_of_slot (h : RcMatches s L q) (ho : s.objects.heap v = some o)
    (hv : v ∉ rcDead s.objects.active q) {w : ℕ} (hw : w ∈ o.slots) (h0 : w ≠ 0) :
    ∃ o', s.objects.heap w = some o' ∧ w ∉ rcDead s.objects.active q := by
  by_cases howners : o.owners = 0
  · obtain ⟨hkind, hbacking⟩ := (h.inv.objects.cells v o ho).immortal hv howners
    unfold RcObject.slots at hw
    rw [hkind] at hw
    simp only [List.mem_singleton] at hw
    exact absurd (hw.trans hbacking) h0
  · have hview : rcView s.objects (rcDead s.objects.active q) v = some o.node :=
      rcView_alive ho hv
    obtain ⟨x, hx, halive⟩ := h.inv.objects.counted.exists_of_slot hview
      (by rw [RcObject.node_slots howners]; exact hw) h0
    obtain ⟨o', ho', hdead, -⟩ := exists_of_rcView_alive hx halive
    exact ⟨o', ho', hdead⟩

/-- An owner outside the objects owns an alive object. -/
theorem exists_of_owner (h : RcMatches s L q) (hv : v ∈ L.owners) (h0 : v ≠ 0) : s.Alive q v := by
  refine h.inv.objects.exists_of_mem ?_ h0
  unfold rcTokens
  rw [h.held]
  exact Multiset.mem_add.mpr (Or.inr hv)

/-- The fields of an alive object and of its recorded contents. -/
theorem slots_eq (h : RcMatches s L q) (ho : s.objects.heap v = some o)
    (hv : v ∉ rcDead s.objects.active q) {x : RcContents} (hx : L.heap v = some x) :
    x.slots = o.slots := by
  have hcontents := h.heap v o ho hv
  rw [hx] at hcontents
  cases hcontents
  exact RcObject.contents_slots (h.inv.objects.cells v o ho).map_length

/-- A step of the program refines the ledger when it kills nothing and changes the record of alive
objects only. -/
theorem refines (h' : RcMatches s' L' q') (h : RcRefines s L q)
    (halive : ∀ v, s.Alive q v → s'.Alive q' v)
    (hheap : ∀ v, ¬ s'.Alive q' v → L'.heap v = L.heap v) : RcRefines s' L' q' := by
  refine ⟨h', fun v ⟨K, hK, hv⟩ => ?_⟩
  by_contra hgone
  -- What is gone already sustained itself before the step.
  have hsustained : L.Sustained {w | w ∈ K ∧ ¬ s'.Alive q' w} := by
    rintro w ⟨hw, hdead⟩
    obtain ⟨h0, himmortal | howner | ⟨u, hu, x, hx, hslot⟩⟩ := hK w hw
    · obtain ⟨o, ho, halive', -⟩ := h'.immortal w himmortal
      exact absurd ⟨o, ho, halive'⟩ hdead
    · exact absurd (h'.exists_of_owner howner h0) hdead
    · refine ⟨h0, Or.inr (Or.inr ⟨u, ⟨hu, ?_⟩, x, ?_, hslot⟩)⟩
      all_goals
        have hudead : ¬ s'.Alive q' u := by
          rintro ⟨o, ho, halive'⟩
          rw [h'.slots_eq ho halive' hx] at hslot
          exact hdead (h'.exists_of_slot ho halive' hslot h0)
      · exact hudead
      · rw [← hheap u hudead]
        exact hx
  exact hgone (halive v (h.kept v ⟨_, hsustained, hv, hgone⟩))

/-- Sets that sustain themselves in the ledger do so in the graph of the objects. -/
theorem sustained (h : RcMatches s L' q) (hheap : L'.heap = L.heap) {K : Set ℕ}
    (hK : L.Sustained K) (halive : ∀ v ∈ K, s.Alive q v) :
    CountedGraph.Sustained (rcGraph s q) L.owners K := by
  intro v hv
  obtain ⟨o, ho, hdead⟩ := halive v hv
  refine ⟨o.node, rcView_alive ho hdead, o.node_alive, ?_⟩
  obtain ⟨h0, himmortal | howner | ⟨w, hw, x, hx, hslot⟩⟩ := hK v hv
  · obtain ⟨bytes, backing, hx⟩ := himmortal
    obtain ⟨o', ho', -, hzero⟩ := h.immortal v ⟨bytes, backing, hheap ▸ hx⟩
    rw [ho] at ho'
    cases ho'
    exact Or.inl (if_pos hzero)
  · exact Or.inr (Or.inl howner)
  · obtain ⟨t, ht, htdead⟩ := halive w hw
    rw [h.slots_eq ht htdead (hheap ▸ hx)] at hslot
    refine Or.inr (Or.inr ⟨w, hw, t.node, rcView_alive ht htdead, ?_⟩)
    rw [RcObject.node_slots]
    · exact hslot
    · -- An immortal Text owns nothing.
      intro hzero
      obtain ⟨hkind, hbacking⟩ := (h.inv.objects.cells w t ht).immortal htdead hzero
      unfold RcObject.slots at hslot
      rw [hkind] at hslot
      exact h0 ((List.mem_singleton.mp hslot).trans hbacking)

/-- What a destruction spares is kept. -/
theorem kept_of_spares (h : RcMatches s L' q) (hheap : L'.heap = L.heap)
    (hspares : Spares (rcGraph s q) (rcGraph s' q') L.owners)
    (hkept : ∀ v, L.Kept v → s.Alive q v) (hv : L.Kept v) : s'.Alive q' v := by
  obtain ⟨K, hK, hvK⟩ := hv
  have hsustained := h.sustained hheap hK fun w hw => hkept w ⟨K, hK, hw⟩
  obtain ⟨x, hx, halive, -⟩ := hspares _ (fun _ hr => hr) K hsustained v hvK
  obtain ⟨o, ho, hdead, -⟩ := exists_of_rcView_alive hx halive
  exact ⟨o, ho, hdead⟩

end RcMatches

namespace RcRefines

variable {s s' : RcState} {L : RcLedger} {q q' : RcQueues} {v : ℕ} {o : RcObject}

/-! ## What the program may use -/

/-- What the owners of the program reach is alive. -/
theorem reaches (h : RcRefines s L q) (hv : L.Reaches v) :
    ∃ o, s.objects.heap v = some o ∧ v ∉ rcDead s.objects.active q := by
  induction hv with
  | owner hv h0 => exact h.exists_of_owner hv h0
  | slot hr hx hv h0 ih =>
    obtain ⟨o, ho, hdead⟩ := ih
    rw [h.slots_eq ho hdead hx] at hv
    exact h.exists_of_slot ho hdead hv h0

/-- What the program may use is null or alive. -/
theorem usable (h : RcRefines s L q) (hv : L.Usable v) :
    v = 0 ∨ ∃ o, s.objects.heap v = some o ∧ v ∉ rcDead s.objects.active q ∧
      L.heap v = some o.contents := by
  rcases hv with hv | hv | hv
  · exact Or.inl hv
  · obtain ⟨o, ho, hdead, -⟩ := h.immortal v hv
    exact Or.inr ⟨o, ho, hdead, h.heap v o ho hdead⟩
  · obtain ⟨o, ho, hdead⟩ := h.reaches hv
    exact Or.inr ⟨o, ho, hdead, h.heap v o ho hdead⟩

/-- What the program may use and has contents is alive. -/
theorem exists_of_usable (h : RcRefines s L q) (hv : L.Usable v) {x : RcContents}
    (hx : L.heap v = some x) : ∃ o, s.objects.heap v = some o ∧
      v ∉ rcDead s.objects.active q ∧ o.contents = x := by
  rcases hv with hv | hv | hv
  · exact absurd hv (h.bound v x hx).1
  · obtain ⟨o, ho, hdead, -⟩ := h.immortal v hv
    have := h.heap v o ho hdead
    rw [hx] at this
    cases this
    exact ⟨o, ho, hdead, rfl⟩
  · obtain ⟨o, ho, hdead⟩ := h.reaches hv
    have := h.heap v o ho hdead
    rw [hx] at this
    cases this
    exact ⟨o, ho, hdead, rfl⟩

/-! ## Service -/

/-- Service of pending work does not show. -/
theorem serves (h : RcRefines s L q) {n : ℕ} (hs : RcServes n s s' q q' L.held) :
    RcRefines s' L q' := by
  refine ⟨⟨hs.inv, fun r o' ho' hr => ?_, fun v hv => ?_, hs.next.trans h.next, h.bound, ?_⟩,
    fun v hv => ?_⟩
  · obtain ⟨o, ho, hsame, halive⟩ := hs.shrink.object r o' ho'
    obtain ⟨hr', hmap, -, howners⟩ := halive hr
    rw [h.heap r o ho hr', hsame.contents hmap ⟨howners, fun h0 => ?_⟩]
    obtain ⟨hsurvives, -⟩ := hs.shrink.immortal r o ho hr' h0
    rw [ho'] at hsurvives
    cases hsurvives
    exact h0
  · obtain ⟨o, ho, hdead, h0⟩ := h.immortal v hv
    obtain ⟨ho', hdead'⟩ := hs.shrink.immortal v o ho hdead h0
    exact ⟨o, ho', hdead', h0⟩
  · rw [hs.frames]
    exact h.frames
  · refine h.kept_of_spares rfl ?_ h.kept hv
    rw [← h.held]
    exact hs.spares

/-- A poll. -/
theorem poll (h : RcRefines s L q) (c : RcConfig) (budget : ℕ) :
    ∃ q', RcRefines (minyarRcPoll c s budget).2 L q' := by
  rw [h.inv.poll_eq_reference]
  obtain ⟨q', hs⟩ := h.inv.referencePoll c (min budget c.pollBudget)
  exact ⟨q', h.serves hs⟩

/-- A poll when work is pending. -/
theorem servicePending (h : RcRefines s L q) (c : RcConfig) (budget : ℕ) :
    ∃ q', RcRefines (rcServicePending c s budget) L q' := by
  unfold rcServicePending
  split_ifs
  · exact h.poll c budget
  · exact ⟨q, h⟩

/-! ## Owners outside the objects -/

/-- Owners, frames and queues change places while the objects stay. -/
theorem move (h : RcRefines s L q) (p : ℕ) (held : Multiset ℕ) {Fs : List RcLedgerFrame}
    (hobjects : s'.objects = { s.objects with pending := p })
    (hpending : p + (s.frameQueue.length + s.chunkQueue.length) =
      s.objects.pending + (s'.frameQueue.length + s'.chunkQueue.length))
    (hcount : ∀ r, r ≠ 0 → (rcTokens s' held).count r = (rcTokens s L.held).count r)
    (hframes : ∀ f ∈ s'.frames, RcFrameInv f) (hmatch : List.Forall₂ RcFrameMatches s'.frames Fs)
    (hqueue : s'.nextQueue = s.nextQueue) :
    RcRefines s' { L with frames := Fs, held := held } q := by
  have hinv := h.inv
  have hobj : RcObjectsInv s'.objects (rcTokens s' held)
      (s'.frameQueue.length + s'.chunkQueue.length) q := by
    rw [hobjects]
    refine { hinv.objects with counted := hinv.objects.counted.congr hcount, pending := ?_ }
    have hold := hinv.objects.pending
    change p = (rcDead s.objects.active q).length + _
    omega
  have hmatches : RcMatches s' { L with frames := Fs, held := held } q := by
    refine ⟨⟨hobj, hframes, ?_, by rw [hqueue]; exact hinv.nextQueue⟩, ?_, ?_, ?_, h.bound, hmatch⟩
    · rw [hobjects]
      exact hinv.next
    · rw [hobjects]
      exact h.heap
    · rw [hobjects]
      exact h.immortal
    · rw [hobjects]
      exact h.next
  refine hmatches.refines h (fun v hv => ?_) fun _ _ => rfl
  unfold RcState.Alive
  rw [hobjects]
  exact hv

/-- An owner of null or of an immortal Text is no owner. -/
theorem give_iff (hv : v = 0 ∨ L.Immortal v) : RcRefines s (L.give v) q ↔ RcRefines s L q := by
  have hiff : ∀ h : (∀ w, L.Immortal w → ∃ o, s.objects.heap w = some o ∧
      w ∉ rcDead s.objects.active q ∧ o.owners = 0), RcInv s (v ::ₘ L.held) q ↔ RcInv s L.held q := by
    intro himmortal
    have hfree : v = 0 ∨ ∃ o, s.objects.heap v = some o ∧ v ∉ rcDead s.objects.active q ∧
        o.owners = 0 := hv.imp id (himmortal v)
    constructor
    · intro h
      have hobjects := h.objects
      rw [rcTokens_cons] at hobjects
      exact ⟨(RcObjectsInv.cons_iff hfree).mp hobjects, h.frames, h.next, h.nextQueue⟩
    · intro h
      refine ⟨?_, h.frames, h.next, h.nextQueue⟩
      rw [rcTokens_cons]
      exact (RcObjectsInv.cons_iff hfree).mpr h.objects
  constructor
  · intro h
    have hmatches : RcMatches s L q :=
      ⟨(hiff h.immortal).mp h.inv, h.heap, h.immortal, h.next, h.bound, h.frames⟩
    exact hmatches.refines h (fun _ => id) fun _ _ => rfl
  · intro h
    have hmatches : RcMatches s (L.give v) q :=
      ⟨(hiff h.immortal).mpr h.inv, h.heap, h.immortal, h.next, h.bound, h.frames⟩
    exact hmatches.refines h (fun _ => id) fun _ _ => rfl

/-- An owner that the program may give away can be put back. -/
theorem take (h : RcRefines s L q) (hv : L.Owned v) : RcRefines s ((L.take v).give v) q := by
  by_cases hmem : v ∈ L.held
  · have hledger : (L.take v).give v = L := by
      unfold RcLedger.take RcLedger.give
      simp only [Multiset.cons_erase hmem]
    rwa [hledger]
  · have hledger : L.take v = L := by
      unfold RcLedger.take
      rw [Multiset.erase_of_notMem hmem]
    rw [hledger]
    refine (give_iff ?_).mpr h
    rcases hv with hv | hv | hv
    · exact Or.inl hv
    · exact Or.inr hv
    · exact absurd hv hmem

/-- Dropping an owner. -/
theorem drop (h : RcRefines s (L.give v) q) :
    ∃ q', RcRefines { s with objects := (rcDrop s.objects v).2 } L q' := by
  have hobjects := h.inv.objects
  rw [show (L.give v).held = v ::ₘ L.held from rfl, rcTokens_cons] at hobjects
  obtain ⟨q', hspec⟩ := hobjects.drop h.inv.next
  refine ⟨q', ⟨⟨hspec.inv, h.inv.frames, ?_, h.inv.nextQueue⟩, fun r o' ho' hr => ?_,
    fun w hw => ?_, hspec.next.trans h.next, h.bound, h.frames⟩, fun w hw => ?_⟩
  · change (rcDrop s.objects v).2.next ≠ 0
    rw [hspec.next]
    exact h.inv.next
  · obtain ⟨o, ho, hsame, halive⟩ := hspec.shrink.object r o' ho'
    obtain ⟨hr', hmap, -, howners⟩ := halive hr
    have hcontents : o'.contents = o.contents := by
      refine hsame.contents hmap ⟨howners, fun h0 => ?_⟩
      obtain ⟨hsurvives, -⟩ := hspec.shrink.immortal r o ho hr' h0
      rw [ho'] at hsurvives
      cases hsurvives
      exact h0
    rw [hcontents]
    exact h.heap r o ho hr'
  · obtain ⟨o, ho, hdead, h0⟩ := h.immortal w hw
    obtain ⟨ho', hdead'⟩ := hspec.shrink.immortal w o ho hdead h0
    exact ⟨o, ho', hdead', h0⟩
  · have howners : ∀ r ∈ L.owners, r ∈ (L.give v).owners := fun r hr =>
      (Multiset.mem_add.mp hr).elim (fun hr => Multiset.mem_add.mpr (Or.inl hr))
        fun hr => Multiset.mem_add.mpr (Or.inr (Multiset.mem_cons_of_mem hr))
    refine h.kept_of_spares (L := L) rfl (hspec.spares.mono fun r hr => ?_) (fun w hw => ?_) hw
    · -- The remaining owners are tokens of the state.
      unfold rcTokens rcHeld
      rw [rcFrames_tokens h.frames]
      exact Multiset.mem_add.mpr (Or.inr hr)
    · obtain ⟨K, hK, hwK⟩ := hw
      refine h.kept w ⟨K, fun u hu => ?_, hwK⟩
      exact (hK u hu).imp id (Or.imp id (Or.imp (howners u) id))

/-- Releasing an owner. -/
theorem release (h : RcRefines s (L.give v) q) (c : RcConfig) :
    ∃ q', RcRefines (minyarRcRelease c s v) L q' := by
  obtain ⟨q', h'⟩ := h.drop
  exact h'.servicePending c _

/-! ## Objects -/

/-- Writing an alive object that is not immortal; what it owns and what the program holds together
stay. -/
theorem write (h : RcRefines s L q) (ho : s.objects.heap v = some o)
    (hv : v ∉ rcDead s.objects.active q) (hmortal : o.owners ≠ 0) {o' : RcObject}
    (howners : o'.owners = o.owners)
    (hcell : RcCell (Function.update s.objects.heap v (some o')) (rcDead s.objects.active q) v o')
    (htext : o.kind = .text → o'.kind = .text ∧ o'.backing = o.backing) {held : Multiset ℕ}
    (hslots : ∀ r, r ≠ 0 → o'.slots.count r + held.count r = o.slots.count r + L.held.count r) :
    RcRefines { s with objects := s.objects.write v o' }
      { L with heap := Function.update L.heap v (some o'.contents), held := held } q := by
  have hmortal' : o'.owners ≠ 0 := by
    rw [howners]
    exact hmortal
  have hobjects : RcObjectsInv (s.objects.write v o') (rcTokens s held)
      (s.frameQueue.length + s.chunkQueue.length) q := by
    refine h.inv.objects.write ho hv hmortal hcell htext ?_
    refine h.inv.objects.counted.write (rcView_alive ho hv) o.node_alive
      (RcObject.node_owners hmortal) ?_ fun r hr => ?_
    · rw [RcObject.node_owners hmortal', howners]
    · have hr' := hslots r hr
      rw [RcObject.node_slots hmortal, RcObject.node_slots hmortal']
      simp only [rcTokens, rcHeld, Multiset.count_add]
      omega
  have hkept : ∀ w, w ≠ v → (s.objects.write v o').heap w = s.objects.heap w :=
    fun w hw => RcObjects.write_heap_of_ne s.objects o' hw
  refine @RcMatches.refines s { s with objects := s.objects.write v o' } L _ q q
    ⟨⟨hobjects, h.inv.frames, h.inv.next, h.inv.nextQueue⟩, fun r o'' ho'' hr => ?_,
      fun w hw => ?_, h.next, fun r x hx => ?_, h.frames⟩ h (fun w hw => ?_) fun w hw => ?_
  · change Function.update L.heap v (some o'.contents) r = _
    by_cases hrv : r = v
    · subst hrv
      change (s.objects.write r o').heap r = _ at ho''
      rw [RcObjects.write_heap_self] at ho''
      cases ho''
      rw [Function.update_self]
    · rw [Function.update_of_ne hrv]
      exact h.heap r o'' ((RcObjects.write_heap_of_ne s.objects o' hrv).symm.trans ho'') hr
  · -- An immortal Text is not the object that was written.
    obtain ⟨bytes, backing, hx⟩ := hw
    change Function.update L.heap v (some o'.contents) w = _ at hx
    by_cases hwv : w = v
    · subst hwv
      rw [Function.update_self] at hx
      unfold RcObject.contents at hx
      split at hx <;> simp_all
    · rw [Function.update_of_ne hwv] at hx
      obtain ⟨t, ht, hdead, h0⟩ := h.immortal w ⟨bytes, backing, hx⟩
      exact ⟨t, (RcObjects.write_heap_of_ne s.objects o' hwv).trans ht, hdead, h0⟩
  · by_cases hrv : r = v
    · rw [hrv]
      exact h.bound v o.contents (h.heap v o ho hv)
    · refine h.bound r x ?_
      change Function.update L.heap v (some o'.contents) r = _ at hx
      rwa [Function.update_of_ne hrv] at hx
  · by_cases hwv : w = v
    · subst hwv
      exact ⟨o', RcObjects.write_heap_self _ _ _, hv⟩
    · obtain ⟨t, ht, hdead⟩ := hw
      exact ⟨t, (hkept w hwv).trans ht, hdead⟩
  · have hwv : w ≠ v := by
      rintro rfl
      exact hw ⟨o', RcObjects.write_heap_self _ _ _, hv⟩
    exact Function.update_of_ne hwv _ _

/-- A new owner of a mortal object. -/
theorem retain_mortal (h : RcRefines s L q) (ho : s.objects.heap v = some o)
    (hv : v ∉ rcDead s.objects.active q) (hmortal : o.owners ≠ 0) :
    RcRefines { s with objects := s.objects.write v { o with owners := o.owners + 1 } }
      (L.give v) q := by
  set o' : RcObject := { o with owners := o.owners + 1 } with ho'
  have hshrink : RcShrink s.objects.heap (rcDead s.objects.active q)
      (s.objects.write v o').heap (rcDead s.objects.active q) := by
    refine RcShrink.update ho (Or.inr hmortal) (fun _ _ => Iff.rfl) fun o'' ho'' => ?_
    cases ho''
    exact ⟨RcSame.owners o _, fun _ => ⟨hv, rfl, rfl, Nat.succ_ne_zero _⟩⟩
  have hobjects : RcObjectsInv (s.objects.write v o') (rcTokens s (v ::ₘ L.held))
      (s.frameQueue.length + s.chunkQueue.length) q := by
    refine h.inv.objects.write ho hv hmortal ?_ (fun hk => ⟨hk, rfl⟩) ?_
    · exact RcCell.shrink hshrink (Function.update_self v _ _) (h.inv.objects.cells v)
        fun hr => absurd hr hv
    · rw [rcTokens_cons]
      refine h.inv.objects.counted.retain (rcView_alive ho hv) (RcObject.node_owners hmortal)
        (RcObject.node_owners (Nat.succ_ne_zero _)) ?_
      rw [RcObject.node_slots hmortal, RcObject.node_slots (Nat.succ_ne_zero _)]
      rfl
  refine @RcMatches.refines s { s with objects := s.objects.write v o' } L _ q q
    ⟨⟨hobjects, h.inv.frames, h.inv.next, h.inv.nextQueue⟩, fun r o'' ho'' hr => ?_,
      fun w hw => ?_, h.next, h.bound, h.frames⟩ h (fun w hw => ?_) fun _ _ => rfl
  · obtain ⟨o₁, ho₁, hsame, halive⟩ := hshrink.object r o'' ho''
    obtain ⟨-, hmap, -, howners⟩ := halive hr
    have hcontents : o''.contents = o₁.contents := by
      refine hsame.contents hmap ⟨howners, fun h0 => ?_⟩
      obtain ⟨hsurvives, -⟩ := hshrink.immortal r o₁ ho₁ hr h0
      change (s.objects.write v o').heap r = _ at ho''
      rw [ho''] at hsurvives
      cases hsurvives
      exact h0
    rw [hcontents]
    exact h.heap r o₁ ho₁ hr
  · obtain ⟨t, ht, hdead, h0⟩ := h.immortal w hw
    obtain ⟨ht', -⟩ := hshrink.immortal w t ht hdead h0
    exact ⟨t, ht', hdead, h0⟩
  · by_cases hwv : w = v
    · subst hwv
      exact ⟨o', RcObjects.write_heap_self _ _ _, hv⟩
    · obtain ⟨t, ht, hdead⟩ := hw
      exact ⟨t, (RcObjects.write_heap_of_ne s.objects o' hwv).trans ht, hdead⟩

/-- An alive object without owners is immortal. -/
theorem immortal_of_owners (h : RcRefines s L q) (ho : s.objects.heap v = some o)
    (hv : v ∉ rcDead s.objects.active q) (h0 : o.owners = 0) : L.Immortal v := by
  obtain ⟨hkind, -⟩ := (h.inv.objects.cells v o ho).immortal hv h0
  refine ⟨o.bytes, o.backing, ?_⟩
  rw [h.heap v o ho hv]
  simp [RcObject.contents, hkind, h0]

/-- A new owner of a value that the program may use. -/
theorem retain (h : RcRefines s L q) (hv : L.Usable v) (hs : minyarRcRetain s v = .ok s') :
    RcRefines s' (L.give v) q := by
  unfold minyarRcRetain at hs
  rcases h.usable hv with rfl | ⟨o, ho, hdead, -⟩
  · rw [if_pos rfl] at hs
    cases hs
    exact (give_iff (Or.inl rfl)).mpr h
  · rw [if_neg (h.inv.objects.ne_zero ho), ho] at hs
    simp only at hs
    split_ifs at hs with h0
    · cases hs
      exact (give_iff (Or.inr (h.immortal_of_owners ho hdead h0))).mpr h
    · cases hs
      exact h.retain_mortal ho hdead h0

/-- A new object with the contents `o`, when the tokens already hold what it owns. -/
theorem allocate_node (h : RcRefines s L q) {o : RcObject} {held : Multiset ℕ}
    (hcounted : Counted 0 (Function.update (rcView s.objects (rcDead s.objects.active q))
      s.objects.next (some o.node)) (Finset.range (s.objects.next + 1)) (rcTokens s held))
    (hcell : RcCell (Function.update s.objects.heap s.objects.next (some o))
      (rcDead s.objects.active q) s.objects.next o)
    (himmortal : ∀ bytes backing, o.contents = .text bytes backing true → o.owners = 0) :
    RcRefines { s with objects := { s.objects with
        heap := Function.update s.objects.heap s.objects.next (some o)
        next := s.objects.next + 1 } }
      { L with
        heap := Function.update L.heap L.next (some o.contents)
        next := L.next + 1
        held := held } q := by
  have hobj := h.inv.objects
  have hnone := hobj.heap_next
  have hfresh : ∀ {r o'}, s.objects.heap r = some o' → r ≠ s.objects.next := by
    rintro r o' ho' rfl
    rw [hnone] at ho'
    cases ho'
  have hlive : s.objects.next ∉ rcDead s.objects.active q := fun hr => hobj.dead _ hr hnone
  have hheap : ∀ {r}, r ≠ s.objects.next →
      Function.update s.objects.heap s.objects.next (some o) r = s.objects.heap r :=
    fun hr => Function.update_of_ne hr _ _
  set objects : RcObjects := { s.objects with
    heap := Function.update s.objects.heap s.objects.next (some o)
    next := s.objects.next + 1 } with hobjects
  have hview : rcView objects (rcDead s.objects.active q) =
      Function.update (rcView s.objects (rcDead s.objects.active q)) s.objects.next
        (some o.node) := by
    have hupdate := @rcView_eq_update s.objects objects (rcDead s.objects.active q)
      (rcDead s.objects.active q) s.objects.next (fun r hr => hheap hr) (fun _ _ => Iff.rfl)
      (fun _ _ _ _ => rfl)
    rw [hupdate, rcView_alive (Function.update_self _ _ _) hlive]
  have hvalid : ∀ {r o'}, s.objects.heap r = some o' → r ∉ rcDead s.objects.active q →
      ∀ w ∈ o'.slots, w ≠ s.objects.next := by
    rintro r o' ho' hr w hw rfl
    obtain ⟨o'', ho'', -⟩ := h.exists_of_slot ho' hr hw h.inv.next
    exact hfresh ho'' rfl
  have hinv : RcObjectsInv objects (rcTokens s held)
      (s.frameQueue.length + s.chunkQueue.length) q := by
    refine ⟨hobj.fault, ?_, fun r o' ho' => ?_, fun r o' ho' hr => ?_, fun r hr => ?_, hobj.nodup,
      (hobj.linked_update hlive _).1, (hobj.linked_update hlive _).2, hobj.tail, hobj.recentTail,
      hobj.pending, hobj.frees_nodup, fun r => ?_⟩
    · rw [hview]
      exact hcounted
    · by_cases hr : r = s.objects.next
      · subst hr
        change Function.update s.objects.heap s.objects.next (some o) _ = _ at ho'
        rw [Function.update_self] at ho'
        cases ho'
        exact hcell
      · have ho'' : s.objects.heap r = some o' := (hheap hr).symm.trans ho'
        have hc := hobj.cells r o' ho''
        have hnd : o'.isLeaf = true → r ∉ rcDead s.objects.active q := by
          intro hleaf hdead
          rw [hc.branch hdead] at hleaf
          cases hleaf
        refine { hc with flat := fun hk b hb => ?_, members := fun hk w hw t ht => ?_ }
        · -- The backing of an alive Text is not new.
          have hne : o'.backing ≠ s.objects.next := by
            refine hvalid ho'' (hnd (by simp [RcObject.isLeaf, hk])) _ ?_
            simp [RcObject.slots, hk]
          exact hc.flat hk b ((hheap hne).symm.trans hb)
        · have hne : w ≠ s.objects.next := by
            refine hvalid ho'' (hnd (by simp [RcObject.isLeaf, hk])) _ ?_
            rw [RcObject.slots_of_references (Or.inr hk)]
            exact hw
          exact hc.members hk w hw t ((hheap hne).symm.trans ht)
    · have hr' : r ≠ s.objects.next := fun heq => hlive (heq ▸ hr)
      exact hobj.cursor r o' ((hheap hr').symm.trans ho') hr
    · have hr' : r ≠ s.objects.next := fun heq => hlive (heq ▸ hr)
      exact fun hn => hobj.dead r hr ((hheap hr').symm.trans hn)
    · change r ∈ s.objects.frees ↔ 0 < r ∧ r < s.objects.next + 1 ∧
        Function.update s.objects.heap s.objects.next (some o) r = none
      rw [hobj.frees r]
      by_cases hr : r = s.objects.next
      · subst hr
        simp
      · rw [hheap hr]
        have hlt : r < s.objects.next + 1 ↔ r < s.objects.next := by omega
        rw [hlt]
  have hledger : ∀ {r}, r ≠ s.objects.next →
      Function.update L.heap L.next (some o.contents) r = L.heap r := by
    intro r hr
    rw [← h.next]
    exact Function.update_of_ne hr _ _
  refine @RcMatches.refines s { s with objects := objects } L _ q q
    ⟨⟨hinv, h.inv.frames, Nat.succ_ne_zero _, h.inv.nextQueue⟩, fun r o' ho' hr => ?_,
      fun w hw => ?_, ?_, fun r x hx => ?_, h.frames⟩ h (fun w hw => ?_) fun w hw => ?_
  · change Function.update L.heap L.next (some o.contents) r = _
    by_cases hrn : r = s.objects.next
    · subst hrn
      change Function.update s.objects.heap s.objects.next (some o) _ = _ at ho'
      rw [Function.update_self] at ho'
      cases ho'
      rw [h.next, Function.update_self]
    · rw [hledger hrn]
      exact h.heap r o' ((hheap hrn).symm.trans ho') hr
  · obtain ⟨bytes, backing, hx⟩ := hw
    change Function.update L.heap L.next (some o.contents) w = _ at hx
    by_cases hwn : w = s.objects.next
    · subst hwn
      rw [h.next, Function.update_self] at hx
      exact ⟨o, Function.update_self _ _ _, hlive, himmortal bytes backing (Option.some.inj hx)⟩
    · rw [hledger hwn] at hx
      obtain ⟨t, ht, hdead, h0⟩ := h.immortal w ⟨bytes, backing, hx⟩
      exact ⟨t, (hheap hwn).trans ht, hdead, h0⟩
  · change s.objects.next + 1 = L.next + 1
    rw [h.next]
  · change Function.update L.heap L.next (some o.contents) r = _ at hx
    by_cases hrn : r = s.objects.next
    · subst hrn
      refine ⟨h.inv.next, ?_⟩
      change s.objects.next < L.next + 1
      have := h.next
      omega
    · rw [hledger hrn] at hx
      have := h.bound r x hx
      exact ⟨this.1, Nat.lt_succ_of_lt this.2⟩
  · obtain ⟨t, ht, hdead⟩ := hw
    exact ⟨t, (hheap (hfresh ht)).trans ht, hdead⟩
  · have hwn : w ≠ s.objects.next := by
      rintro rfl
      exact hw ⟨o, Function.update_self _ _ _, hlive⟩
    exact hledger hwn

/-- A new mortal object; it takes over owners that the program holds. -/
theorem allocate (h : RcRefines s L q) {o : RcObject} (howners : o.owners = 1)
    {E : Multiset ℕ} (hheld : ∀ r, r ≠ 0 → o.slots.count r + E.count r = L.held.count r)
    (hcell : RcCell (Function.update s.objects.heap s.objects.next (some o))
      (rcDead s.objects.active q) s.objects.next o) :
    RcRefines { s with objects := { s.objects with
        heap := Function.update s.objects.heap s.objects.next (some o)
        next := s.objects.next + 1 } }
      { L with
        heap := Function.update L.heap L.next (some o.contents)
        next := L.next + 1
        held := L.next ::ₘ E } q := by
  have hmortal : o.owners ≠ 0 := by
    rw [howners]
    exact one_ne_zero
  refine h.allocate_node ?_ hcell fun bytes backing hx => ?_
  · have hcounted : Counted 0 (rcView s.objects (rcDead s.objects.active q))
        (Finset.range s.objects.next) ((o.slots : Multiset ℕ) + rcTokens s E) := by
      refine h.inv.objects.counted.congr fun r hr => ?_
      have hr' := hheld r hr
      simp only [rcTokens, rcHeld, Multiset.count_add, Multiset.coe_count]
      omega
    rw [rcTokens_cons, Finset.range_add_one, ← h.next]
    refine hcounted.allocate (rcView_none h.inv.objects.heap_next) h.inv.next ?_
      (RcObject.node_slots hmortal)
    rw [RcObject.node_owners hmortal, howners]
  · unfold RcObject.contents at hx
    split at hx <;> simp_all

/-- A new object that owns nothing, after pending work is served. -/
theorem allocateObject (h : RcRefines s L q) (c : RcConfig) {o : RcObject}
    (howners : o.owners = 1) (hslots : ∀ w ∈ o.slots, w = 0)
    (hcell : ∀ (heap : ℕ → Option RcObject) (dead : List ℕ) (r : ℕ), heap 0 = none → r ≠ 0 →
      r ∉ dead → RcCell (Function.update heap r (some o)) dead r o) :
    (rcAllocateObject c s o).1 = L.next ∧
      ∃ q', RcRefines (rcAllocateObject c s o).2 (L.allocate o.contents).2 q' := by
  obtain ⟨q', h'⟩ := h.servicePending c c.pollBudget
  refine ⟨h'.next, q', ?_⟩
  refine h'.allocate howners (fun r hr => ?_) (hcell _ _ _ h'.inv.objects.heap_zero h'.inv.next
    fun hr => h'.inv.objects.dead _ hr h'.inv.objects.heap_next)
  rw [List.count_eq_zero_of_not_mem fun hmem => hr (hslots r hmem), Nat.zero_add]

/-- A new Text literal. -/
theorem literal (h : RcRefines s L q) (bytes : List UInt8) :
    RcRefines (literalText s bytes).2 { L with
      heap := Function.update L.heap L.next (some (.text bytes 0 true))
      next := L.next + 1 } q := by
  refine h.allocate_node ?_ ?_ fun _ _ _ => rfl
  · rw [Finset.range_add_one]
    exact h.inv.objects.counted.allocate_immortal (rcView_none h.inv.objects.heap_next) h.inv.next
  · refine ⟨fun hk => (by cases hk), ?_, fun _ _ _ => ⟨Nat.zero_le _, ?_⟩,
      fun _ hk => (by cases hk), fun _ _ => ⟨rfl, rfl⟩, fun hr => ?_, fun _ b hb => ?_,
      fun hk => (by cases hk)⟩
    · exact Nat.two_pow_pos 64
    · exact Nat.two_pow_pos 64
    · exact absurd h.inv.objects.heap_next (h.inv.objects.dead _ hr)
    · -- Nothing has the null name.
      exfalso
      rw [Function.update_of_ne h.inv.next.symm] at hb
      exact h.inv.objects.ne_zero hb rfl

/-! ## The innermost frame -/

/-- The innermost frames correspond. -/
theorem frame (h : RcRefines s L q) {F : RcLedgerFrame} {Fs : List RcLedgerFrame}
    (hF : L.frames = F :: Fs) : ∃ f fs, s.frames = f :: fs ∧ RcFrameInv f ∧
      RcFrameMatches f F ∧ List.Forall₂ RcFrameMatches fs Fs := by
  have hmatch := h.frames
  rw [hF] at hmatch
  rcases hs : s.frames with _ | ⟨f, fs⟩
  · rw [hs] at hmatch
    cases hmatch
  · rw [hs] at hmatch
    cases hmatch with
    | cons hf hfs =>
      refine ⟨f, fs, rfl, h.inv.frames f ?_, hf, hfs⟩
      rw [hs]
      exact List.mem_cons_self

/-- Owners change places between the innermost frame and the program. -/
theorem setFrame (h : RcRefines s L q) {f f' : RcFrame} {fs : List RcFrame}
    {F F' : RcLedgerFrame} {Fs : List RcLedgerFrame} {held : Multiset ℕ}
    (hf : s.frames = f :: fs) (hF : L.frames = F :: Fs) (hinv : RcFrameInv f')
    (hmatch : RcFrameMatches f' F')
    (hcount : ∀ r, r ≠ 0 → f'.tokens.count r + held.count r = f.tokens.count r + L.held.count r) :
    RcRefines { s with frames := f' :: fs } { L with frames := F' :: Fs, held := held } q := by
  obtain ⟨f₁, fs₁, hf₁, -, -, hfs⟩ := h.frame hF
  rw [hf] at hf₁
  cases hf₁
  refine h.move s.objects.pending _ rfl rfl (fun r hr => ?_) (fun g hg => ?_)
    (.cons hmatch hfs) rfl
  · have hr' := hcount r hr
    simp only [rcTokens, rcQueued, rcHeld, hf, List.flatMap_cons, Multiset.count_add,
      Multiset.coe_count, List.count_append]
    omega
  · rcases List.mem_cons.mp hg with rfl | hg
    · exact hinv
    · refine h.inv.frames g ?_
      rw [hf]
      exact List.mem_cons_of_mem _ hg

end RcRefines

end Minyar

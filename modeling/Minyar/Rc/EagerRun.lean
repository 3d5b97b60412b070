import Minyar.Rc.SharedStops
import Minyar.Rc.StackFrames

/-!
# Runs of the eager runtime

`EagerRun` are the runs of the operations in the eager runtime.  Every state that a run reaches
refines the ledger of the run, so the eager and the bounded runtime agree: when nothing is pending in
the bounded one, the same objects are left, with the same contents and the same counts, and each of
the others was destroyed once.  When the program has built no cycle, what is left are the immortal
Texts and what the remaining owners reach.
-/

namespace Minyar

open CountedGraph Relation

/-! ## Frames -/

/-- A frame of the eager runtime and a frame of the ledger. -/
structure EagerFrameMatches (f : EagerFrame) (F : RcLedgerFrame) : Prop where
  /-- The owners in the locals. -/
  locals : f.locals = F.locals
  /-- The temporaries. -/
  temporaries : f.temporaries = F.temporaries

/-- The eager runtime refines the ledger between two operations. -/
structure EagerRefines (e : EagerState) (L : RcLedger) : Prop where
  /-- The objects refine the ledger. -/
  objects : EagerHolds e.objects L
  /-- The frames correspond. -/
  frames : List.Forall₂ EagerFrameMatches e.frames L.frames

/-- The bounded runtime has a frame with the same owners. -/
theorem RcLedgerFrame.exists_rcFrame (F : RcLedgerFrame) :
    ∃ f, RcFrameInv f ∧ RcFrameMatches f F := by
  suffices h : ∀ temporaries : List ℕ, ∃ f : RcFrame, RcFrameInv f ∧ f.header = none ∧
      f.locals = F.locals.map (·, true) ∧ f.chunks.flatten = temporaries by
    obtain ⟨f, hinv, hheader, hlocals, htemporaries⟩ := h F.temporaries
    refine ⟨f, hinv, fun header hf => ?_, ?_, htemporaries⟩
    · cases hheader.symm.trans hf
    · rw [hlocals, List.map_map]
      exact List.map_id _
  intro temporaries
  induction temporaries using List.reverseRecOn with
  | nil =>
    refine ⟨{ locals := F.locals.map (·, true), localCount := F.locals.length,
              indices := List.range F.locals.length }, ?_, rfl, rfl, rfl⟩
    refine ⟨by simp, fun i => ?_, fun i v hv => ?_, List.nodup_range, fun c hc => (by cases hc),
      fun c hc => (by cases hc), rfl⟩
    · rw [List.mem_range]
      constructor
      · intro hi
        exact ⟨F.locals[i], by simp [hi]⟩
      · rintro ⟨v, hv⟩
        simpa using (List.getElem?_eq_some_iff.mp hv).1
    · simp at hv
  | append_singleton temporaries v ih =>
    obtain ⟨f, hinv, hheader, hlocals, htemporaries⟩ := ih
    cases hfull : f.chunkFull with
    | true =>
      exact ⟨_, hinv.pushNew hfull v, hheader, hlocals, by simp [RcFrame.push, htemporaries]⟩
    | false =>
      refine ⟨_, hinv.push hfull v, hheader, hlocals, ?_⟩
      unfold RcFrame.chunkFull at hfull
      rcases List.eq_nil_or_concat f.chunks with hnil | ⟨init, last, hconcat⟩
      · rw [hnil] at hfull
        cases hfull
      · rw [hconcat] at htemporaries
        simp [RcFrame.push, hconcat, ← htemporaries]

/-- The bounded runtime has frames with the same owners. -/
theorem exists_rcFrames (Fs : List RcLedgerFrame) :
    ∃ fs, (∀ f ∈ fs, RcFrameInv f) ∧ List.Forall₂ RcFrameMatches fs Fs := by
  induction Fs with
  | nil => exact ⟨[], fun _ hf => (by cases hf), .nil⟩
  | cons F Fs ih =>
    obtain ⟨f, hinv, hmatch⟩ := F.exists_rcFrame
    obtain ⟨fs, hinvs, hmatches⟩ := ih
    refine ⟨f :: fs, fun g hg => ?_, .cons hmatch hmatches⟩
    rcases List.mem_cons.mp hg with rfl | hg
    · exact hinv
    · exact hinvs g hg

namespace EagerHolds

variable {e : EagerObjects} {L : RcLedger} {v : ℕ}

/-- Owners change places between the frames and the program. -/
theorem move (h : EagerHolds e L) {Fs : List RcLedgerFrame} {held : Multiset ℕ}
    (hcount : ∀ r, r ≠ 0 →
      (Fs.flatMap fun F => F.locals ++ F.temporaries).count r + held.count r =
        (L.frames.flatMap fun F => F.locals ++ F.temporaries).count r + L.held.count r) :
    EagerHolds e { L with frames := Fs, held := held } := by
  obtain ⟨s, hs, hframes, hchunks, -⟩ := h.state
  obtain ⟨fs, hinv, hmatch⟩ := exists_rcFrames Fs
  refine ⟨h.idle, h.kinds, { s with frames := fs }, ⟨[], []⟩, ?_⟩
  refine (hs.move 0 held rfl rfl (fun r hr => ?_) hinv hmatch rfl :
    RcRefines (RcState.over { s with frames := fs } e) _ _)
  have hr' := hcount r hr
  have htokens := rcFrames_tokens hs.frames
  have htokens' := rcFrames_tokens hmatch
  unfold rcTokens rcQueued rcHeld
  rw [show (s.over e).frames.flatMap RcFrame.tokens = _ from htokens,
    show (RcState.over { s with frames := fs } e).frames.flatMap RcFrame.tokens = _ from htokens']
  simp only [Multiset.count_add, Multiset.coe_count, RcState.over]
  omega

/-- Releasing owners one after another. -/
theorem releaseAll {values : List ℕ}
    (h : EagerHolds e { L with held := (values : Multiset ℕ) + L.held }) :
    EagerHolds (values.foldl EagerObjects.release e) L := by
  induction values generalizing e with
  | nil =>
    rw [Multiset.coe_nil, zero_add] at h
    exact h
  | cons v values ih =>
    refine ih (EagerHolds.release (v := v) ?_)
    rw [← Multiset.cons_coe, Multiset.cons_add] at h
    exact h

end EagerHolds

namespace EagerRefines

variable {e e' : EagerState} {L : RcLedger} {v : ℕ}

/-- Before the program starts. -/
theorem initial : EagerRefines EagerState.initial RcLedger.initial where
  objects := ⟨rfl, fun _ _ h => (by cases h), RcState.initial, ⟨[], []⟩, RcRefines.initial⟩
  frames := .nil

/-- The innermost frames correspond. -/
theorem frame (h : EagerRefines e L) {F : RcLedgerFrame} {Fs : List RcLedgerFrame}
    (hF : L.frames = F :: Fs) : ∃ f fs, e.frames = f :: fs ∧ EagerFrameMatches f F ∧
      List.Forall₂ EagerFrameMatches fs Fs := by
  have hmatch := h.frames
  rw [hF] at hmatch
  rcases he : e.frames with _ | ⟨f, fs⟩
  · rw [he] at hmatch
    cases hmatch
  · rw [he] at hmatch
    cases hmatch with
    | cons hf hfs => exact ⟨f, fs, rfl, hf, hfs⟩

/-- What the program may use is null or there. -/
theorem usable (h : EagerHolds e.objects L) (hv : L.Usable v) :
    v = 0 ∨ ∃ o, e.objects.heap v = some o ∧ v ≠ 0 ∧ L.heap v = some o.contents ∧
      (o.owners = 0 → L.Immortal v) := by
  obtain ⟨s, q, hs⟩ := h.refines
  refine (hs.usable hv).imp id fun ⟨o, ho, hdead, hcontents⟩ =>
    ⟨o, ho, hs.inv.objects.ne_zero ho, hcontents, hs.immortal_of_owners ho hdead⟩

/-- Keeping an owner that is in the hands of the program. -/
theorem keep (h : EagerRefines e (L.give v)) (hframes : L.frames ≠ [])
    (hv : (L.give v).Usable v) : EagerRefines (e.keep v) (L.keep v) := by
  unfold EagerState.keep
  rcases usable h.objects hv with rfl | ⟨o, ho, hv0, hcontents, himmortal⟩
  · have hkeep : L.keep 0 = L := by
      unfold RcLedger.keep RcLedger.mortal
      simp
    rw [if_pos rfl, hkeep]
    exact ⟨(EagerHolds.give_iff (Or.inl rfl)).mp h.objects, h.frames⟩
  rw [if_neg hv0, ho]
  simp only
  have hx : L.heap v = some o.contents := hcontents
  by_cases h0 : o.owners = 0
  · obtain ⟨bytes, backing, himmortal⟩ := himmortal h0
    have hx : L.heap v = some (.text bytes backing true) := himmortal
    have hkeep : L.keep v = L := by
      unfold RcLedger.keep RcLedger.mortal
      simp [hx]
    rw [if_pos h0, hkeep]
    exact ⟨(EagerHolds.give_iff (Or.inr ⟨bytes, backing, hx⟩)).mp h.objects, h.frames⟩
  rw [if_neg h0]
  have hmortal : L.mortal v = true := by
    unfold RcLedger.mortal
    rw [hx]
    cases hkind : o.kind <;> simp [RcObject.contents, hkind, h0, hv0]
  rcases hF : L.frames with _ | ⟨F, Fs⟩
  · exact absurd hF hframes
  obtain ⟨f, fs, hf, hmatch, hfs⟩ := h.frame (L := L.give v) hF
  have hkeep : L.keep v =
      { L with frames := { F with temporaries := F.temporaries ++ [v] } :: Fs } := by
    unfold RcLedger.keep RcLedger.mapFrame
    rw [if_pos hmortal, hF]
  rw [hf, hkeep]
  refine ⟨h.objects.move fun r _ => ?_, .cons ⟨hmatch.locals, ?_⟩ hfs⟩
  · rw [show (L.give v).frames = F :: Fs from hF, show (L.give v).held = v ::ₘ L.held from rfl,
      count_cons]
    simp only [List.flatMap_cons, List.count_append]
    omega
  · change f.temporaries ++ [v] = F.temporaries ++ [v]
    rw [hmatch.temporaries]

/-- Storing an owner in a local releases the previous one. -/
theorem localTake (h : EagerRefines e (L.give v)) {index : ℕ}
    (hindex : ∃ F ∈ L.frames.head?, index < F.locals.length) :
    EagerRefines (e.localTake index v) (L.setLocal index v) := by
  obtain ⟨F, hF, hlt⟩ := hindex
  obtain ⟨Fs, hF⟩ : ∃ Fs, L.frames = F :: Fs := List.head?_eq_some_iff.mp hF
  obtain ⟨f, fs, hf, hmatch, hfs⟩ := h.frame (L := L.give v) hF
  have hprevious : f.locals[index]? = some (F.locals.getD index 0) := by
    rw [hmatch.locals, List.getElem?_eq_getElem hlt, List.getD_eq_getElem _ _ hlt]
  have hset : L.setLocal index v =
      { L with frames := { F with locals := F.locals.set index v } :: Fs } := by
    unfold RcLedger.setLocal RcLedger.mapFrame
    rw [hF]
  unfold EagerState.localTake
  rw [hf, hset]
  simp only [hprevious]
  refine ⟨EagerHolds.release (h.objects.move fun r _ => ?_), .cons ⟨?_, hmatch.temporaries⟩ hfs⟩
  · have hcount := count_set_add hlt v r
    rw [show (L.give v).frames = F :: Fs from hF, show (L.give v).held = v ::ₘ L.held from rfl,
      count_cons, count_cons]
    simp only [List.flatMap_cons, List.count_append]
    omega
  · change f.locals.set index v = F.locals.set index v
    rw [hmatch.locals]

/-- Moving the owner in a local to the program. -/
theorem localMove (h : EagerRefines e L) {index : ℕ}
    (hindex : ∃ F ∈ L.frames.head?, index < F.locals.length) :
    EagerRefines (e.localMove index) ((L.give (L.getLocal index)).setLocal index 0) := by
  obtain ⟨F, hF, hlt⟩ := hindex
  obtain ⟨Fs, hF⟩ : ∃ Fs, L.frames = F :: Fs := List.head?_eq_some_iff.mp hF
  obtain ⟨f, fs, hf, hmatch, hfs⟩ := h.frame hF
  have hprevious : f.locals[index]? = some (F.locals.getD index 0) := by
    rw [hmatch.locals, List.getElem?_eq_getElem hlt, List.getD_eq_getElem _ _ hlt]
  have hset : (L.give (L.getLocal index)).setLocal index 0 = { L with
      frames := { F with locals := F.locals.set index 0 } :: Fs
      held := F.locals.getD index 0 ::ₘ L.held } := by
    unfold RcLedger.setLocal RcLedger.mapFrame RcLedger.give RcLedger.getLocal
    simp only [hF]
  unfold EagerState.localMove
  rw [hf, hset]
  simp only [hprevious]
  refine ⟨h.objects.move fun r hr => ?_, .cons ⟨?_, hmatch.temporaries⟩ hfs⟩
  · have hcount := count_set_add hlt 0 r
    rw [List.count_cons_of_ne (Ne.symm hr), List.count_nil] at hcount
    rw [hF, count_cons]
    simp only [List.flatMap_cons, List.count_append]
    omega
  · change f.locals.set index 0 = F.locals.set index 0
    rw [hmatch.locals]

/-- A new frame. -/
theorem enter (h : EagerRefines e L) {locals : ℤ} (he : e.enter locals = .ok e')
    (header : Option ℕ) : EagerRefines e'
      { L with frames := ⟨header, List.replicate locals.toNat 0, []⟩ :: L.frames } := by
  unfold EagerState.enter at he
  simp only at he
  split_ifs at he
  cases he
  refine ⟨h.objects.move fun r hr => ?_, .cons ⟨rfl, rfl⟩ h.frames⟩
  simp only [List.flatMap_cons, List.count_append, List.count_nil,
    List.count_replicate, beq_iff_eq, if_neg (Ne.symm hr)]
  omega

/-- The end of a step releases the temporaries. -/
theorem step (h : EagerRefines e L) (hframes : L.frames ≠ []) :
    EagerRefines e.step (L.mapFrame fun frame => { frame with temporaries := [] }) := by
  rcases hF : L.frames with _ | ⟨F, Fs⟩
  · exact absurd hF hframes
  obtain ⟨f, fs, hf, hmatch, hfs⟩ := h.frame hF
  have hmap : (L.mapFrame fun frame => { frame with temporaries := [] }) =
      { L with frames := { F with temporaries := [] } :: Fs } := by
    unfold RcLedger.mapFrame
    rw [hF]
  unfold EagerState.step
  rw [hf, hmap]
  refine ⟨EagerHolds.releaseAll (h.objects.move fun r _ => ?_), .cons ⟨hmatch.locals, rfl⟩ hfs⟩
  rw [hF, Multiset.count_add, Multiset.coe_count, List.count_reverse, hmatch.temporaries]
  simp only [List.flatMap_cons, List.count_append, List.count_nil]
  omega

/-- Leaving a frame releases the temporaries and the locals. -/
theorem leave (h : EagerRefines e L) (hframes : L.frames ≠ []) :
    EagerRefines e.leave { L with frames := L.frames.tail } := by
  rcases hF : L.frames with _ | ⟨F, Fs⟩
  · exact absurd hF hframes
  have hstep := h.step hframes
  have hmap : (L.mapFrame fun frame => { frame with temporaries := [] }) =
      { L with frames := { F with temporaries := [] } :: Fs } := by
    unfold RcLedger.mapFrame
    rw [hF]
  rw [hmap] at hstep
  obtain ⟨f, fs, hf, hmatch, hfs⟩ := hstep.frame rfl
  unfold EagerState.leave
  simp only [hf, List.tail_cons]
  refine ⟨EagerHolds.releaseAll (hstep.objects.move fun r _ => ?_), hfs⟩
  rw [Multiset.count_add, Multiset.coe_count, hmatch.locals]
  simp only [List.flatMap_cons, List.count_append, List.count_nil]
  omega

/-- An operation on the objects. -/
theorem lift {r : ℕ × EagerState} {name : ℕ} {M : RcLedger} (h : EagerRefines e L)
    (hM : M.frames = L.frames) {result : Except String (ℕ × EagerObjects)}
    (hr : e.lift result = .ok r) (hresult : ∀ x, result = .ok x → x.1 = name ∧ EagerHolds x.2 M) :
    r.1 = name ∧ EagerRefines r.2 M := by
  obtain ⟨x, hx, hr⟩ := bind_eq_ok.mp hr
  cases hr
  obtain ⟨hname, hholds⟩ := hresult x hx
  exact ⟨hname, hholds, hM ▸ h.frames⟩

/-- An operation on the objects that returns no value. -/
theorem liftVoid {r : ℕ × EagerState} {M : RcLedger} (h : EagerRefines e L)
    (hM : M.frames = L.frames) {result : Except String EagerObjects}
    (hr : e.liftVoid result = .ok r) (hresult : ∀ x, result = .ok x → EagerHolds x M) : r.1 = 0 ∧ EagerRefines r.2 M := by
  obtain ⟨x, hx, hr⟩ := bind_eq_ok.mp hr
  cases hr
  exact ⟨rfl, hresult x hx, hM ▸ h.frames⟩

/-- Every operation that the protocol allows refines its effect, when it does not stop the
program. -/
theorem op (h : EagerRefines e L) {op : RcOp} (hlegal : op.Legal L) {r : ℕ × EagerState}
    (hs : op.runEager e = .ok r) :
    r.1 = (op.effect L).1 ∧ EagerRefines r.2 (op.effect L).2 := by
  have hvoid : ∀ {x : Except String EagerState}, (x >>= eagerVoid) = .ok r →
      ∃ e', x = .ok e' ∧ r = (0, e') := by
    intro x hx
    obtain ⟨e', hx', hs'⟩ := bind_eq_ok.mp hx
    cases hs'
    exact ⟨e', hx', rfl⟩
  have htake : ∀ {v}, L.Owned v → EagerRefines e ((L.take v).give v) :=
    fun hv => ⟨h.objects.take hv, h.frames⟩
  cases op with
  | literal bytes =>
    refine h.lift rfl hs fun x hx => ?_
    cases hx
    exact ⟨h.objects.next, h.objects.literal bytes⟩
  | newText bytes =>
    refine h.lift rfl hs fun x hx => ?_
    cases hx
    exact ⟨h.objects.next, h.objects.newText bytes⟩
  | textSlice text first last =>
    obtain ⟨hv, bytes, backing, immortal, hx, -⟩ := hlegal
    exact h.lift (L.sliceText_frames text first last) hs fun x hs => h.objects.textSlice hv hx hs
  | allocateData =>
    cases hs
    exact ⟨rfl, h⟩
  | listNew =>
    refine h.lift rfl hs fun x hx => ?_
    cases hx
    exact ⟨h.objects.next, h.objects.listNew⟩
  | listReferences list =>
    refine h.liftVoid rfl hs fun x hx => ?_
    cases hx
    exact h.objects.listReferences hlegal.1 hlegal.2
  | listAdd list value =>
    exact h.liftVoid (L.addToList_frames list value) hs fun x hs =>
      h.objects.listAdd hlegal.1 hlegal.2 hs
  | listAddTake list value =>
    exact h.liftVoid (((L.takeForList list value).addToList_frames list value).trans
      (L.takeForList_frames list value)) hs fun x hs => h.objects.listAddTake hlegal.1 hlegal.2 hs
  | listSet list position value =>
    exact h.liftVoid (L.setInList_frames list _ value) hs fun x hs =>
      h.objects.listSet hlegal.1 hlegal.2 hs
  | listSetTake list position value =>
    exact h.liftVoid (((L.takeForList list value).setInList_frames list _ value).trans
      (L.takeForList_frames list value)) hs fun x hs => h.objects.listSetTake hlegal.1 hlegal.2 hs
  | listAppended list value references takeValue =>
    have hname : ∀ M : RcLedger, M.next = L.next → ∀ x, L.next = (M.allocate x).1 :=
      fun M hM x => hM.symm
    refine h.lift ?_ hs fun x hs => ?_
    · change (if references = true ∧ takeValue = true then L.take value else L).frames = L.frames
      split_ifs <;> rfl
    · obtain ⟨hx, hholds⟩ := h.objects.listAppended hlegal hs
      refine ⟨hx.trans (hname _ ?_ _), hholds⟩
      split_ifs <;> rfl
  | recordNew fieldCount => exact h.lift rfl hs fun x hs => h.objects.recordAllocate hs
  | recordNewScalar fieldCount => exact h.lift rfl hs fun x hs => h.objects.recordAllocate hs
  | recordSetScalar record field value =>
    exact h.liftVoid (L.setPlain_frames record _ value) hs fun x hs =>
      h.objects.recordSet hlegal.1 hlegal.2 hs
  | recordSet record field value =>
    exact h.liftVoid (L.setPlain_frames record _ value) hs fun x hs =>
      h.objects.recordSet hlegal.1 hlegal.2 hs
  | recordSetTake record field value =>
    obtain ⟨hv, ⟨fields, hx⟩, hvalue⟩ := hlegal
    exact h.liftVoid ((L.take value).setReference_frames record _ value) hs fun x hs =>
      (h.objects.take hvalue).recordSetTake (EagerHolds.usable_take_give hv value) hx hs
  | recordSetReference record field value =>
    obtain ⟨hv, ⟨fields, hx⟩, hvalue⟩ := hlegal
    exact h.liftVoid (L.setReference_frames record _ value) hs fun x hs =>
      h.objects.recordSetReference hv hvalue hx hs
  | retain value => exact h.liftVoid rfl hs fun x hs => h.objects.retain hlegal hs
  | release value =>
    refine h.liftVoid rfl hs fun x hx => ?_
    cases hx
    exact (h.objects.take hlegal).release
  | keep value =>
    cases hs
    exact ⟨rfl, (htake hlegal.2).keep hlegal.1 (RcLedger.usable_give _ _)⟩
  | borrow value =>
    obtain ⟨e', hs', rfl⟩ := hvoid hs
    obtain ⟨e₁, hs₁, hs'⟩ := bind_eq_ok.mp hs'
    cases hs'
    have hgive : EagerRefines (e.withObjects e₁) (L.give value) :=
      ⟨h.objects.retain hlegal.2 hs₁, h.frames⟩
    exact ⟨rfl, hgive.keep hlegal.1 (RcLedger.usable_give _ _)⟩
  | setLocal index value =>
    obtain ⟨e', hs', rfl⟩ := hvoid hs
    obtain ⟨e₁, hs₁, hs'⟩ := bind_eq_ok.mp hs'
    cases hs'
    have hgive : EagerRefines (e.withObjects e₁) (L.give value) :=
      ⟨h.objects.retain hlegal.2 hs₁, h.frames⟩
    exact ⟨rfl, hgive.localTake hlegal.1⟩
  | localTake index value =>
    cases hs
    exact ⟨rfl, (htake hlegal.2).localTake hlegal.1⟩
  | localMove index =>
    cases hs
    exact ⟨rfl, h.localMove hlegal⟩
  | enter locals =>
    obtain ⟨e', hs', rfl⟩ := hvoid hs
    exact ⟨rfl, h.enter hs' none⟩
  | leave =>
    cases hs
    obtain ⟨F, hF, -⟩ := hlegal
    refine ⟨rfl, h.leave fun hnil => ?_⟩
    rw [hnil] at hF
    cases hF
  | step =>
    cases hs
    exact ⟨rfl, h.step hlegal⟩
  | enterStack header locals =>
    obtain ⟨e', hs', rfl⟩ := hvoid hs
    exact ⟨rfl, h.enter hs' (some header)⟩
  | leaveStack header =>
    cases hs
    obtain ⟨F, hF, -⟩ := hlegal
    refine ⟨rfl, h.leave fun hnil => ?_⟩
    rw [hnil] at hF
    cases hF
  | poll budget =>
    cases hs
    exact ⟨rfl, h⟩

end EagerRefines

/-! ## Runs -/

/-- The runs of operations that respect the ownership protocol and do not stop the program. -/
inductive EagerRun : List RcOp → RcLedger → EagerState → Prop
  /-- Before the first operation. -/
  | nil : EagerRun [] RcLedger.initial EagerState.initial
  /-- One more operation. -/
  | step {ops : List RcOp} {op : RcOp} {L : RcLedger} {e : EagerState} {r : ℕ × EagerState}
      (h : EagerRun ops L e) (hlegal : op.Legal L) (hs : op.runEager e = .ok r) :
      EagerRun (ops ++ [op]) (op.effect L).2 r.2

namespace EagerRun

variable {ops : List RcOp} {L : RcLedger} {e : EagerState}

/-- The ledger of a run is what its operations make of the initial one. -/
theorem ledger (h : EagerRun ops L e) : L = RcLedger.after ops := by
  induction h with
  | nil => rfl
  | step _ _ _ ih => rw [RcLedger.after_append, ← ih]

/-- Every state that a run reaches refines its ledger. -/
theorem refines (h : EagerRun ops L e) : EagerRefines e L := by
  induction h with
  | nil => exact EagerRefines.initial
  | step _ hlegal hs ih => exact (ih.op hlegal hs).2

end EagerRun

/-! ## Exact counts -/

/-- The number of owners of an object. -/
def EagerState.ownerCount (e : EagerState) (held : Multiset ℕ) (v : ℕ) : ℕ :=
  -- Locals and temporaries.
  (e.frames.flatMap fun f => f.locals ++ f.temporaries).count v + held.count v +
  ((List.range e.objects.next).map fun r =>
    ((e.objects.heap r).elim [] RcObject.slots).count v).sum

/-- The counts of a state between two operations are exact when the program holds the owners
`held`. -/
structure EagerExact (e : EagerState) (held : Multiset ℕ) : Prop where
  /-- Everything that died is destroyed. -/
  idle : e.objects.pending = []
  /-- An object counts its owners exactly, and it has one; without a count it is an immortal
  Text. -/
  live : ∀ v o, e.objects.heap v = some o →
    (o.owners ≠ 0 ∧ o.owners = e.ownerCount held v) ∨ (o.owners = 0 ∧ o.kind = .text)
  /-- No object is destroyed twice. -/
  frees : e.objects.frees.Nodup
  /-- The destroyed objects are gone, and nothing owns them. -/
  freed : ∀ v ∈ e.objects.frees, e.objects.heap v = none ∧ e.ownerCount held v = 0
  /-- An object is in the heap until it is destroyed. -/
  kept : ∀ v, 0 < v → v < e.objects.next → e.objects.heap v = none → v ∈ e.objects.frees
  /-- No object was accessed that is not there. -/
  fault : e.objects.fault = false

namespace EagerRefines

variable {e : EagerState} {L : RcLedger} {v : ℕ}

/-- The owners in the frames are those of the ledger. -/
theorem frames_owners (h : EagerRefines e L) :
    (e.frames.flatMap fun f => f.locals ++ f.temporaries) =
      L.frames.flatMap fun F => F.locals ++ F.temporaries := by
  have hframes := h.frames
  generalize e.frames = fs, L.frames = Fs at hframes
  induction hframes with
  | nil => rfl
  | cons hmatch _ ih =>
    rw [List.flatMap_cons, List.flatMap_cons, hmatch.locals, hmatch.temporaries, ih]

/-- The owners are those of the bounded runtime. -/
theorem ownerCount (h : EagerRefines e L) {s : RcState} {q : RcQueues}
    (hs : RcRefines (s.over e.objects) L q) (v : ℕ) :
    e.ownerCount L.held v = rcOwnerCount (s.over e.objects) L.held [] v := by
  rw [hs.ownerCount_of_drained rfl, EagerState.ownerCount, h.frames_owners, RcLedger.owners,
    Multiset.count_add, Multiset.coe_count, h.objects.next]
  congr 2
  refine List.map_congr_left fun r _ => ?_
  unfold rcSlotOwners
  rcases ho : e.objects.heap r with _ | o
  · rw [show (s.over e.objects).objects.heap r = none from ho]
    rfl
  · rw [show (s.over e.objects).objects.heap r = some o from ho]
    simp

/-- The counts are exact. -/
theorem exact (h : EagerRefines e L) : EagerExact e L.held := by
  obtain ⟨s, hs, -⟩ := h.objects.state
  have hexact := hs.inv.exact
  have hcount := h.ownerCount hs
  refine ⟨h.objects.idle, fun v o ho => ?_, hexact.frees, fun v hv => ?_, hexact.kept,
    hexact.fault⟩
  · rw [hcount]
    exact hexact.live v o ho List.not_mem_nil
  · rw [hcount]
    exact hexact.freed v hv

/-- The objects that are left are those that the ledger sustains. -/
theorem exists_iff_kept (h : EagerRefines e L) : e.objects.heap v ≠ none ↔ L.Kept v := by
  obtain ⟨s, hs, -⟩ := h.objects.state
  exact hs.exists_iff_kept rfl

end EagerRefines

/-- In every state that a run of the eager runtime reaches nothing is pending, the counts are exact,
and each object that is gone was destroyed once. -/
theorem eagerRun_counts_exact {ops : List RcOp} {L : RcLedger} {e : EagerState}
    (h : EagerRun ops L e) : EagerExact e L.held :=
  h.refines.exact

/-- A run that stores a record in another one and releases the outer one: both are destroyed. -/
theorem eagerRun_counts_exact_records : ∃ L e, EagerRun
    [.recordNew 1, .recordNew 1, .recordSetTake 1 0 2, .release 1] L e ∧
      e.objects.frees = [2, 1] ∧ EagerExact e L.held := by
  have h := EagerRun.nil
  have h := h.step (show (RcOp.recordNew 1).Legal _ from trivial) rfl
  have h := h.step (show (RcOp.recordNew 1).Legal _ from trivial) rfl
  have h := h.step (show (RcOp.recordSetTake 1 0 2).Legal _ from
    ⟨Or.inr (Or.inr (.owner (by decide) one_ne_zero)), ⟨_, rfl⟩, Or.inr (Or.inr (by decide))⟩) rfl
  have h := h.step (show (RcOp.release 1).Legal _ from Or.inr (Or.inr (by decide))) rfl
  exact ⟨_, _, h, by decide, eagerRun_counts_exact h⟩

/-! ## Both runtimes -/

/-- The requests to serve pending work, which have no effect on the ledger. -/
def RcOp.isPoll : RcOp → Bool
  | poll _ => true
  | _ => false

/-- The operations other than the requests to serve pending work. -/
def RcOp.withoutPolls (ops : List RcOp) : List RcOp := ops.filter fun op => !op.isPoll

/-- The ledger does not depend on the requests to serve pending work. -/
theorem RcLedger.after_withoutPolls (ops : List RcOp) :
    RcLedger.after (RcOp.withoutPolls ops) = RcLedger.after ops := by
  induction ops using List.reverseRecOn with
  | nil => rfl
  | append_singleton ops op ih =>
    unfold RcOp.withoutPolls at ih ⊢
    rw [RcLedger.after_append, List.filter_append]
    cases hpoll : op.isPoll with
    | true =>
      have heffect : ∀ L : RcLedger, (op.effect L).2 = L := by
        intro L
        cases op <;> first | rfl | cases hpoll
      rw [heffect]
      simpa [hpoll] using ih
    | false =>
      rw [List.filter_cons_of_pos (by simp [hpoll]), List.filter_nil, RcLedger.after_append]
      exact congrArg (fun L => (op.effect L).2) ih

/-- What is left of an object: its contents and its count. -/
def EagerState.survivor (e : EagerState) (v : ℕ) : Option (RcContents × ℕ) :=
  (e.objects.heap v).map fun o => (o.contents, o.owners)

/-- When nothing is pending in the bounded runtime it has what the eager one has. -/
theorem EagerRefines.agrees {e : EagerState} {L : RcLedger} (h : EagerRefines e L) {s : RcState}
    {q : RcQueues} (hs : RcRefines s L q) (hpending : s.objects.pending = 0) :
    (∀ v, e.survivor v = s.survivor v) ∧ e.objects.frees.Perm s.objects.frees := by
  obtain ⟨t, ht, -⟩ := h.objects.state
  have hsurvivor := fun v => hs.survivor_eq ht hpending rfl rfl rfl rfl v
  refine ⟨hsurvivor, (List.perm_ext_iff_of_nodup ht.inv.objects.frees_nodup
    hs.inv.objects.frees_nodup).mpr fun v => ?_⟩
  have hnone : e.objects.heap v = none ↔ s.objects.heap v = none := by
    have hv := hsurvivor v
    unfold RcState.survivor at hv
    rw [← Option.map_eq_none_iff, ← Option.map_eq_none_iff (x := s.objects.heap v), ← hv]
    rfl
  have hfrees := ht.inv.objects.frees v
  rw [ht.next] at hfrees
  rw [hs.inv.objects.frees v, hs.next, ← hnone]
  exact hfrees

/-- An object has another one in a field. -/
def EagerObjects.Owns (e : EagerObjects) (r v : ℕ) : Prop :=
  ∃ o, e.heap r = some o ∧ v ∈ o.slots ∧ v ≠ 0

/-- Over an acyclic heap everything that is left is immortal or reached from an owner. -/
theorem EagerRefines.usable_of_acyclic {e : EagerState} {L : RcLedger} (h : EagerRefines e L)
    (hacyclic : Acyclic e.objects.Owns) {v : ℕ} (hv : e.objects.heap v ≠ none) :
    L.Immortal v ∨ L.Reaches v := by
  obtain ⟨s, hs, -⟩ := h.objects.state
  have hsustained := hs.sustained_of_drained rfl
  have hwf : WellFounded e.objects.Owns := by
    refine hacyclic.wellFounded (Set.finite_lt_nat e.objects.next) fun r v ⟨o, ho, _⟩ => ?_
    exact hs.inv.objects.lt_next ho
  -- The owner of an object comes before it.
  induction v using hwf.induction with
  | _ v ih =>
    obtain ⟨h0, himmortal | howner | ⟨w, hw, x, hx, hslot⟩⟩ := hsustained v hv
    · exact Or.inl himmortal
    · exact Or.inr (.owner howner h0)
    · obtain ⟨o, ho⟩ := Option.ne_none_iff_exists'.mp hw
      obtain rfl : x = o.contents := by
        have hcontents := hs.heap w o ho List.not_mem_nil
        exact Option.some.inj (hx.symm.trans hcontents)
      have hcell := hs.inv.objects.cells w o ho
      have hslot' : v ∈ o.slots := RcObject.contents_slots hcell.map_length ▸ hslot
      rcases ih w ⟨o, ho, hslot', h0⟩ hw with himmortal | hreaches
      · -- An immortal Text owns nothing.
        obtain ⟨hkind, hbacking⟩ := hcell.immortal List.not_mem_nil
          ((hs.owners_eq_zero_iff ho List.not_mem_nil).mpr himmortal)
        simp [RcObject.slots, hkind, hbacking, h0] at hslot'
      · exact Or.inr (.slot hreaches hx hslot h0)

namespace EagerRefines

variable {e : EagerState} {L : RcLedger}

/-- Objects that own only later ones own one another without a cycle. -/
theorem acyclic_of_lt (h : EagerRefines e L)
    (hlater : ∀ r < L.next, ∀ v ∈ (e.objects.heap r).elim [] RcObject.slots, v ≠ 0 → r < v) :
    Acyclic e.objects.Owns := by
  obtain ⟨s, hs, -⟩ := h.objects.state
  have hlt : Acyclic fun r v : ℕ => r < v := fun r hr => by
    rw [Relation.transGen_eq_self] at hr
    exact lt_irrefl r hr
  refine hlt.mono fun r v hown => ?_
  obtain ⟨o, ho, hslot, h0⟩ := hown
  refine hlater r (hs.next ▸ hs.inv.objects.lt_next ho) v ?_ h0
  rw [ho]
  exact hslot

/-- Over an acyclic heap what is left is what the program may use. -/
theorem exists_iff_usable (h : EagerRefines e L) (hacyclic : Acyclic e.objects.Owns) (v : ℕ) :
    e.objects.heap v ≠ none ↔ L.Immortal v ∨ L.Reaches v := by
  refine ⟨h.usable_of_acyclic hacyclic, fun hv => ?_⟩
  obtain ⟨s, hs, -⟩ := h.objects.state
  have halive : ∃ o, e.objects.heap v = some o := by
    rcases hv with hv | hv
    · obtain ⟨o, ho, -⟩ := hs.immortal v hv
      exact ⟨o, ho⟩
    · obtain ⟨o, ho, -⟩ := hs.reaches hv
      exact ⟨o, ho⟩
  obtain ⟨o, ho⟩ := halive
  rw [ho]
  exact Option.some_ne_none _

/-- Over an acyclic heap exactly the rest of what was allocated is destroyed. -/
theorem mem_frees_iff (h : EagerRefines e L) (hacyclic : Acyclic e.objects.Owns) (v : ℕ) :
    v ∈ e.objects.frees ↔ 0 < v ∧ v < L.next ∧ ¬ L.Immortal v ∧ ¬ L.Reaches v := by
  obtain ⟨s, hs, -⟩ := h.objects.state
  have hfrees := hs.inv.objects.frees v
  rw [← not_or, ← h.exists_iff_usable hacyclic, not_not]
  rwa [hs.next] at hfrees

end EagerRefines

/-- In every state that a run of the eager runtime reaches, an object is left exactly when the ledger
sustains it: only objects that own one another outlive their last owner.  When the objects own one
another without a cycle, those left are the immortal Texts and what the owners of the program
reach. -/
theorem eagerRun_kept_iff {ops : List RcOp} {L : RcLedger} {e : EagerState} (h : EagerRun ops L e) :
    (∀ v, e.objects.heap v ≠ none ↔ L.Kept v) ∧
      (Acyclic e.objects.Owns → ∀ v,
        (e.objects.heap v ≠ none ↔ L.Immortal v ∨ L.Reaches v) ∧
        (v ∈ e.objects.frees ↔ 0 < v ∧ v < L.next ∧ ¬ L.Immortal v ∧ ¬ L.Reaches v)) :=
  ⟨fun _ => h.refines.exists_iff_kept, fun hacyclic v =>
    ⟨h.refines.exists_iff_usable hacyclic v, h.refines.mem_frees_iff hacyclic v⟩⟩

/-- A record that holds itself is never destroyed, one that holds another one is. -/
theorem eagerRun_kept_iff_records :
    (∃ L e, EagerRun [.recordNew 1, .recordSetReference 1 0 1, .release 1] L e ∧ L.Kept 1) ∧
      ∃ L e, EagerRun [.recordNew 1, .recordNew 1, .recordSetTake 1 0 2, .release 1] L e ∧
        ¬ L.Kept 1 ∧ ¬ L.Kept 2 := by
  constructor
  · have h := EagerRun.nil.step (show (RcOp.recordNew 1).Legal _ from trivial) rfl
    have h := h.step (show (RcOp.recordSetReference 1 0 1).Legal _ from
      ⟨Or.inr (Or.inr (.owner (by decide) one_ne_zero)), ⟨_, rfl⟩,
        Or.inr (Or.inr (.owner (by decide) one_ne_zero))⟩) rfl
    have h := h.step (show (RcOp.release 1).Legal _ from Or.inr (Or.inr (by decide))) rfl
    exact ⟨_, _, h, ((eagerRun_kept_iff h).1 1).mp (Option.some_ne_none _)⟩
  · have h := EagerRun.nil.step (show (RcOp.recordNew 1).Legal _ from trivial) rfl
    have h := h.step (show (RcOp.recordNew 1).Legal _ from trivial) rfl
    have h := h.step (show (RcOp.recordSetTake 1 0 2).Legal _ from
      ⟨Or.inr (Or.inr (.owner (by decide) one_ne_zero)), ⟨_, rfl⟩, Or.inr (Or.inr (by decide))⟩) rfl
    have h := h.step (show (RcOp.release 1).Legal _ from Or.inr (Or.inr (by decide))) rfl
    have hkept := (eagerRun_kept_iff h).1
    exact ⟨_, _, h, fun h1 => (hkept 1).mpr h1 rfl, fun h2 => (hkept 2).mpr h2 rfl⟩

/-! ## Drained runs -/

/-- The same operations, with any requests to serve pending work in between and any budget, leave the
same in both runtimes when the bounded one has been polled until nothing is pending, which enough
polls bring about: the same objects with the same contents and the same counts, exact in the eager
runtime.  When no objects own one another in a cycle, both have destroyed, each once, exactly the
counted objects that no owner of the program reaches. -/
theorem rcRun_drained_eq_eagerRun {c : RcConfig} {ops ops' : List RcOp} {L L' : RcLedger}
    {s : RcState} {e : EagerState} (h : RcRun c ops L s) (h' : EagerRun ops' L' e)
    (hops : RcOp.withoutPolls ops' = RcOp.withoutPolls ops) (hacyclic : Acyclic e.objects.Owns) :
    (∃ n, ∀ budgets : List ℕ, n ≤ budgets.length → (∀ b ∈ budgets, 1 ≤ b) →
      (rcPolls c budgets s).2.objects.pending = 0) ∧
    ∀ budgets t, (rcPolls c budgets s).2 = t → t.objects.pending = 0 →
      (∀ v, e.survivor v = t.survivor v) ∧ EagerExact e L.held ∧
      e.objects.frees.Nodup ∧ t.objects.frees.Nodup ∧
      (∀ v, v ∈ e.objects.frees ↔ 0 < v ∧ v < L.next ∧ ¬ L.Immortal v ∧ ¬ L.Reaches v) ∧
      ∀ v, v ∈ t.objects.frees ↔ 0 < v ∧ v < L.next ∧ ¬ L.Immortal v ∧ ¬ L.Reaches v := by
  obtain rfl : L' = L := by
    rw [h.ledger, h'.ledger, ← RcLedger.after_withoutPolls, hops, RcLedger.after_withoutPolls]
  obtain ⟨q, hq⟩ := h.refines
  refine ⟨⟨rcOutstanding s L'.held q, fun budgets hlength hb => hq.inv.polls_drain c hb hlength⟩, ?_⟩
  rintro budgets t rfl hpending
  obtain ⟨q', hq'⟩ := hq.polls c budgets
  obtain ⟨hsurvivor, hfrees⟩ := h'.refines.agrees hq' hpending
  have hexact := h'.refines.exact
  have hmem := h'.refines.mem_frees_iff hacyclic
  exact ⟨hsurvivor, hexact, hexact.frees, hfrees.nodup_iff.mp hexact.frees, hmem,
    fun v => hfrees.mem_iff.symm.trans (hmem v)⟩

/-- A record that two others share loses one of them: the bounded runtime is polled in between and
destroys the other record after the release, the eager one at once. -/
theorem rcRun_drained_eq_eagerRun_shared : ∃ L s t e,
    RcRun RcConfig.smallest [.recordNew 1, .recordNew 1, .poll 1, .recordNew 1,
      .recordSetReference 1 0 3, .recordSetTake 2 0 3, .release 1] L s ∧
    EagerRun [.recordNew 1, .recordNew 1, .recordNew 1, .recordSetReference 1 0 3,
      .recordSetTake 2 0 3, .release 1] L e ∧
    s.objects.frees = [] ∧ (rcPolls RcConfig.smallest [1, 1] s).2 = t ∧
    e.objects.frees = [1] ∧ 1 ∈ t.objects.frees ∧
    e.survivor 3 = t.survivor 3 ∧ e.survivor 3 = some (.record [(0, false)], 1) := by
  have h := @RcRun.step RcConfig.smallest [] (.recordNew 1) _ _ _ .nil trivial rfl
  have h := h.step (show (RcOp.recordNew 1).Legal _ from trivial) rfl
  have h := h.step (show (RcOp.poll 1).Legal _ from trivial) rfl
  have h := h.step (show (RcOp.recordNew 1).Legal _ from trivial) rfl
  have h := h.step (show (RcOp.recordSetReference 1 0 3).Legal _ from
    ⟨.of_held (by decide) one_ne_zero, ⟨_, rfl⟩, .of_held (by decide) three_ne_zero⟩) rfl
  have h := h.step (show (RcOp.recordSetTake 2 0 3).Legal _ from
    ⟨.of_held (by decide) two_ne_zero, ⟨_, rfl⟩, Or.inr (Or.inr (by decide))⟩) rfl
  have h := h.step (show (RcOp.release 1).Legal _ from Or.inr (Or.inr (by decide))) rfl
  have h' := EagerRun.nil.step (show (RcOp.recordNew 1).Legal _ from trivial) rfl
  have h' := h'.step (show (RcOp.recordNew 1).Legal _ from trivial) rfl
  have h' := h'.step (show (RcOp.recordNew 1).Legal _ from trivial) rfl
  have h' := h'.step (show (RcOp.recordSetReference 1 0 3).Legal _ from
    ⟨.of_held (by decide) one_ne_zero, ⟨_, rfl⟩, .of_held (by decide) three_ne_zero⟩) rfl
  have h' := h'.step (show (RcOp.recordSetTake 2 0 3).Legal _ from
    ⟨.of_held (by decide) two_ne_zero, ⟨_, rfl⟩, Or.inr (Or.inr (by decide))⟩) rfl
  have h' := h'.step (show (RcOp.release 1).Legal _ from Or.inr (Or.inr (by decide))) rfl
  have hacyclic := h'.refines.acyclic_of_lt (by decide)
  obtain ⟨-, hdrained⟩ := rcRun_drained_eq_eagerRun h h' rfl hacyclic
  obtain ⟨hsurvivor, -, -, -, hfrees, hfrees'⟩ := hdrained [1, 1] _ rfl (by decide)
  exact ⟨_, _, _, _, h, h', by decide, rfl, by decide,
    (hfrees' 1).mpr ((hfrees 1).mp (by decide)), hsurvivor 3, rfl⟩

end Minyar

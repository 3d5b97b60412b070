import Minyar.Rc.Values

/-!
# Locals, temporaries and frames refine the ledger

The owners of an activation are the values of its locals and its temporaries.  A written slot stays
in the index of its frame, so that detaching the frame hands exactly the owners of its locals to the
queues; detaching the temporaries hands over their chunks.
-/

namespace Minyar

open CountedGraph

/-! ## The slots of a frame -/

/-- The values at the indices of a frame. -/
theorem rcBoundedPendingLocalValue_range (f : RcFrame) :
    (List.range f.indices.length).map (rcBoundedPendingLocalValue f) =
      f.indices.map fun i => (f.locals.getD i (0, false)).1 := by
  refine List.ext_getElem (by simp) fun k h1 h2 => ?_
  have hk : k < f.indices.length := by simpa using h2
  simp [rcBoundedPendingLocalValue, List.getElem?_eq_getElem hk]

namespace RcFrameInv

variable {f : RcFrame}

/-- The written slots hold all owners of the locals. -/
theorem count_written (h : RcFrameInv f) {r : ℕ} (hr : r ≠ 0) :
    ((List.range f.indices.length).map (rcBoundedPendingLocalValue f)).count r =
      (f.locals.map Prod.fst).count r := by
  have hlocals : f.locals.map Prod.fst =
      (List.range f.locals.length).map fun i => (f.locals.getD i (0, false)).1 := by
    refine List.ext_getElem (by simp) fun k h1 h2 => ?_
    have hk : k < f.locals.length := by simpa using h1
    simp [List.getElem?_eq_getElem hk]
  rw [rcBoundedPendingLocalValue_range, hlocals]
  rw [List.count_eq_countP, List.count_eq_countP, List.countP_map, List.countP_map,
    List.countP_eq_length_filter, List.countP_eq_length_filter]
  refine List.Perm.length_eq ((List.perm_ext_iff_of_nodup (h.nodup.filter _)
    (List.nodup_range.filter _)).mpr fun i => ?_)
  simp only [List.mem_filter, Function.comp_apply, beq_iff_eq, List.mem_range]
  refine and_congr_left fun hi => ?_
  rw [h.written]
  constructor
  · rintro ⟨v, hv⟩
    exact (List.getElem?_eq_some_iff.mp hv).1
  · intro hlt
    -- A slot with an owner was written.
    rw [List.getD_eq_getElem _ _ hlt] at hi
    rcases hslot : f.locals[i] with ⟨v, written⟩
    have hget : f.locals[i]? = some (v, written) := by
      rw [List.getElem?_eq_getElem hlt, hslot]
    cases written with
    | true => exact ⟨v, hget⟩
    | false =>
      have := h.unwritten i v hget
      rw [hslot] at hi
      exact absurd (hi.symm.trans this) hr

/-- The number of chunks that the temporaries take. -/
theorem chunks_length (h : RcFrameInv f) : f.temporaryCount / 8 +
    (if f.temporaryCount % 8 ≠ 0 then 1 else 0) = f.chunks.length := by
  rw [h.temporaries]
  rcases List.eq_nil_or_concat f.chunks with hnil | ⟨init, last, hchunks⟩
  · rw [hnil]
    rfl
  · have hchunks' : f.chunks = init ++ [last] := by simpa using hchunks
    have hfull := h.full
    have hlast := h.last last (by rw [hchunks']; simp)
    rw [hchunks', List.dropLast_concat] at hfull
    have hinit : init.flatten.length = 8 * init.length := by
      rw [List.length_flatten]
      clear hchunks hchunks' hlast
      induction init with
      | nil => rfl
      | cons c init ih =>
        rw [List.map_cons, List.sum_cons, hfull c List.mem_cons_self,
          ih fun c hc => hfull c (List.mem_cons_of_mem _ hc), List.length_cons]
        omega
    rw [hchunks', List.flatten_append, List.length_append, hinit, List.length_append]
    simp only [List.flatten_cons, List.flatten_nil, List.append_nil, List.length_singleton]
    split_ifs <;> omega

/-- A frame without temporaries. -/
theorem retired (h : RcFrameInv f) : RcFrameInv f.retired :=
  ⟨h.count, h.written, h.unwritten, h.nodup, fun c hc => (by cases hc), fun c hc => (by cases hc),
    rfl⟩

/-- A new frame. -/
theorem new (header : Option ℕ) (count capacity : ℕ) : RcFrameInv {
    header := header
    locals := List.replicate count (0, false)
    localCount := count
    localCapacity := capacity } := by
  refine ⟨by simp, fun i => ?_, fun i v hv => ?_, List.nodup_nil, fun c hc => (by cases hc),
    fun c hc => (by cases hc), rfl⟩
  · refine ⟨fun hi => (by cases hi), fun ⟨v, hv⟩ => ?_⟩
    rw [List.getElem?_replicate] at hv
    split_ifs at hv
    cases hv
  · rw [List.getElem?_replicate] at hv
    split_ifs at hv
    cases hv
    rfl

/-- Storing in a slot that stays written. -/
theorem setWritten (h : RcFrameInv f) {i : ℕ} {previous : ℕ × Bool}
    (hi : f.locals[i]? = some previous) (v : ℕ) : RcFrameInv { f with
      indices := if previous.2 = false ∧ v ≠ 0 then f.indices ++ [i] else f.indices
      locals := if v ≠ 0 ∨ previous.2 = true then f.locals.set i (v, true) else f.locals } := by
  obtain ⟨p, written⟩ := previous
  have hlt := (List.getElem?_eq_some_iff.mp hi).1
  have hset : ∀ (x : ℕ × Bool) (j : ℕ), (f.locals.set i x)[j]? =
      if i = j then some x else f.locals[j]? := by
    intro x j
    rw [List.getElem?_set]
    split_ifs <;> rfl
  by_cases hkeep : v ≠ 0 ∨ written = true
  · -- The slot is written now.
    simp only [if_pos hkeep]
    have hmem : ∀ j, j ∈ (if written = false ∧ v ≠ 0 then f.indices ++ [i] else f.indices) ↔
        j = i ∨ j ∈ f.indices := by
      intro j
      cases written with
      | true =>
        have hin : i ∈ f.indices := (h.written i).mpr ⟨p, hi⟩
        rw [if_neg (by simp)]
        refine ⟨Or.inr, fun hj => ?_⟩
        rcases hj with rfl | hj
        · exact hin
        · exact hj
      | false =>
        rw [if_pos ⟨rfl, hkeep.resolve_right (by simp)⟩, List.mem_append, List.mem_singleton]
        exact Or.comm
    refine ⟨?_, fun j => ?_, fun j w hj => ?_, ?_, h.full, h.last, h.temporaries⟩
    · change f.localCount = (f.locals.set i _).length
      rw [List.length_set]
      exact h.count
    · change j ∈ (if written = false ∧ v ≠ 0 then f.indices ++ [i] else f.indices) ↔
        ∃ w, (f.locals.set i (v, true))[j]? = some (w, true)
      rw [hmem, hset]
      by_cases hj : i = j
      · subst hj
        simp
      · rw [if_neg hj, ← h.written]
        exact or_iff_right (Ne.symm hj)
    · change (f.locals.set i (v, true))[j]? = some (w, false) at hj
      rw [hset] at hj
      split_ifs at hj
      · cases hj
      · exact h.unwritten j w hj
    · change (if written = false ∧ v ≠ 0 then f.indices ++ [i] else f.indices).Nodup
      split_ifs with hnew
      · refine List.nodup_append.mpr ⟨h.nodup, List.nodup_singleton i, ?_⟩
        rintro a ha b hb rfl
        rw [List.mem_singleton.mp hb] at ha
        obtain ⟨w, hw⟩ := (h.written i).mp ha
        rw [hi, hnew.1] at hw
        cases hw
      · exact h.nodup
  · simp only [if_neg hkeep]
    have hnew : ¬(written = false ∧ v ≠ 0) := fun hnew => hkeep (Or.inl hnew.2)
    simp only [if_neg hnew]
    exact ⟨h.count, h.written, h.unwritten, h.nodup, h.full, h.last, h.temporaries⟩

/-- Taking the owner out of a slot. -/
theorem setMoved (h : RcFrameInv f) {i : ℕ} {previous : ℕ × Bool}
    (hi : f.locals[i]? = some previous) :
    RcFrameInv { f with locals := f.locals.set i (0, previous.2) } := by
  have hlt := (List.getElem?_eq_some_iff.mp hi).1
  refine ⟨?_, fun j => ?_, fun j w hj => ?_, h.nodup, h.full, h.last, h.temporaries⟩
  · change f.localCount = (f.locals.set i _).length
    rw [List.length_set]
    exact h.count
  · change j ∈ f.indices ↔ ∃ w, (f.locals.set i (0, previous.2))[j]? = some (w, true)
    rw [h.written, List.getElem?_set]
    by_cases hj : i = j
    · subst hj
      rw [if_pos rfl, if_pos hlt, hi]
      obtain ⟨p, written⟩ := previous
      simp
    · rw [if_neg hj]
  · change (f.locals.set i (0, previous.2))[j]? = some (w, false) at hj
    rw [List.getElem?_set] at hj
    split_ifs at hj
    · exact (congrArg Prod.fst (Option.some.inj hj)).symm
    · exact h.unwritten j w hj

/-- One more temporary in a new chunk. -/
theorem pushNew (h : RcFrameInv f) (hfull : f.chunkFull = true) (v : ℕ) :
    RcFrameInv (({ f with chunks := f.chunks ++ [[]] } : RcFrame).push v) := by
  have hchunks : (({ f with chunks := f.chunks ++ [[]] } : RcFrame).push v).chunks =
      f.chunks ++ [[v]] := by
    simp [RcFrame.push]
  refine ⟨h.count, h.written, h.unwritten, h.nodup, fun c hc => ?_, fun c hc => ?_, ?_⟩
  · rw [hchunks, List.dropLast_concat] at hc
    unfold RcFrame.chunkFull at hfull
    rcases List.eq_nil_or_concat f.chunks with hnil | ⟨init, last, hconcat⟩
    · rw [hnil] at hc
      cases hc
    · have hconcat' : f.chunks = init ++ [last] := by simpa using hconcat
      have hinit := h.full
      rw [hconcat', List.dropLast_concat] at hinit
      rw [hconcat'] at hc hfull
      simp only [List.getLast?_concat, decide_eq_true_eq] at hfull
      rcases List.mem_append.mp hc with hc | hc
      · exact hinit c hc
      · rw [List.mem_singleton.mp hc]
        exact hfull
  · rw [hchunks, List.getLast?_concat] at hc
    cases hc
    exact ⟨Nat.one_pos, by simp⟩
  · rw [hchunks]
    change f.temporaryCount + 1 = _
    simp [h.temporaries]

/-- One more temporary in the last chunk. -/
theorem push (h : RcFrameInv f) (hfull : f.chunkFull = false) (v : ℕ) : RcFrameInv (f.push v) := by
  unfold RcFrame.chunkFull at hfull
  rcases List.eq_nil_or_concat f.chunks with hnil | ⟨init, last, hconcat⟩
  · rw [hnil] at hfull
    cases hfull
  · have hconcat' : f.chunks = init ++ [last] := by simpa using hconcat
    have hinit := h.full
    have hlast := h.last last (by rw [hconcat']; simp)
    have htemporaries := h.temporaries
    rw [hconcat'] at hinit hfull htemporaries
    rw [List.dropLast_concat] at hinit
    simp only [List.getLast?_concat, decide_eq_false_iff_not] at hfull
    have hchunks : (f.push v).chunks = init ++ [last ++ [v]] := by
      simp [RcFrame.push, hconcat']
    refine ⟨h.count, h.written, h.unwritten, h.nodup, fun c hc => ?_, fun c hc => ?_, ?_⟩
    · rw [hchunks, List.dropLast_concat] at hc
      exact hinit c hc
    · rw [hchunks, List.getLast?_concat] at hc
      cases hc
      rw [List.length_append, List.length_singleton]
      omega
    · rw [hchunks]
      change f.temporaryCount + 1 = _
      rw [htemporaries]
      simp
      omega

end RcFrameInv

/-! ## Frames that correspond -/

theorem RcFrameMatches.retired {f : RcFrame} {F : RcLedgerFrame} (h : RcFrameMatches f F) :
    RcFrameMatches f.retired { F with temporaries := [] } :=
  ⟨h.header, h.locals, rfl⟩

namespace RcRefines

variable {s s' : RcState} {L : RcLedger} {q q' : RcQueues} {v : ℕ} {o : RcObject}

/-- Service of pending work keeps the frames. -/
theorem servicePending_frames (h : RcRefines s L q) (c : RcConfig) (budget : ℕ) :
    (rcServicePending c s budget).frames = s.frames := by
  unfold rcServicePending
  split_ifs
  · rw [h.inv.poll_eq_reference]
    obtain ⟨q', hs⟩ := h.inv.referencePoll c (min budget c.pollBudget)
    exact hs.frames
  · rfl

/-- A change of the innermost frame. -/
theorem mapFrame (h : RcRefines s L q) {f : RcFrame} {fs : List RcFrame} {F F' : RcLedgerFrame}
    {Fs : List RcLedgerFrame} {g : RcFrame → RcFrame} {held : Multiset ℕ}
    (hf : s.frames = f :: fs) (hF : L.frames = F :: Fs) (hinv : RcFrameInv (g f))
    (hmatch : RcFrameMatches (g f) F')
    (hcount : ∀ r, r ≠ 0 →
      (g f).tokens.count r + held.count r = f.tokens.count r + L.held.count r) :
    RcRefines (s.mapFrame g) { L with frames := F' :: Fs, held := held } q := by
  unfold RcState.mapFrame
  rw [hf]
  exact h.setFrame hf hF hinv hmatch hcount

/-- The innermost frame with an owner that was in the hands of the program among its temporaries. -/
theorem pushTemporary (h : RcRefines s (L.give v) q) (c : RcConfig) {f : RcFrame}
    {fs : List RcFrame} (hf : s.frames = f :: fs) {F : RcLedgerFrame} {Fs : List RcLedgerFrame}
    (hF : L.frames = F :: Fs) : ∃ q', RcRefines ((if f.chunkFull then
      (rcServicePending c s c.pollBudget).mapFrame fun frame =>
        { frame with chunks := frame.chunks ++ [[]] }
      else s).mapFrame fun frame => frame.push v)
      { L with frames := { F with temporaries := F.temporaries ++ [v] } :: Fs } q' := by
  obtain ⟨f', fs', hf', hinv, hmatch, -⟩ := h.frame hF
  rw [hf] at hf'
  cases hf'
  have hcount : ∀ (g : RcFrame) (r : ℕ), g.locals = f.locals →
      g.chunks.flatten = f.chunks.flatten ++ [v] →
      g.tokens.count r + L.held.count r = f.tokens.count r + (L.give v).held.count r := by
    intro g r hlocals hchunks
    unfold RcFrame.tokens
    rw [hlocals, hchunks, show (L.give v).held = v ::ₘ L.held from rfl, count_cons]
    simp only [List.count_append]
    omega
  have hpush : ∀ g : RcFrame, g.header = f.header → g.locals = f.locals →
      g.chunks.flatten = f.chunks.flatten ++ [v] →
      RcFrameMatches g { F with temporaries := F.temporaries ++ [v] } := by
    intro g hheader hlocals hchunks
    refine ⟨fun header hg => hmatch.header header (hheader.symm.trans hg), ?_, ?_⟩
    · rw [hlocals]
      exact hmatch.locals
    · rw [hchunks, hmatch.temporaries]
  cases hfull : f.chunkFull with
  | true =>
    obtain ⟨q₁, h₁⟩ := h.servicePending c c.pollBudget
    have hf₁ : (rcServicePending c s c.pollBudget).frames = f :: fs :=
      (h.servicePending_frames c _).trans hf
    have hflatten : (({ f with chunks := f.chunks ++ [[]] } : RcFrame).push v).chunks.flatten =
        f.chunks.flatten ++ [v] := by
      simp [RcFrame.push]
    refine ⟨q₁, ?_⟩
    have hmap := h₁.mapFrame (g := fun frame =>
      ({ frame with chunks := frame.chunks ++ [[]] } : RcFrame).push v) hf₁ hF
      (hinv.pushNew hfull v) (hpush _ rfl rfl hflatten) (fun r _ => hcount _ r rfl hflatten)
    unfold RcState.mapFrame at hmap ⊢
    rw [hf₁] at hmap
    simp only [if_true, hf₁]
    exact hmap
  | false =>
    have hflatten : (f.push v).chunks.flatten = f.chunks.flatten ++ [v] := by
      unfold RcFrame.chunkFull at hfull
      rcases List.eq_nil_or_concat f.chunks with hnil | ⟨init, last, hconcat⟩
      · rw [hnil] at hfull
        cases hfull
      · simp [RcFrame.push, hconcat]
    exact ⟨q, h.mapFrame hf hF (hinv.push hfull v) (hpush _ rfl rfl hflatten)
      (fun r _ => hcount _ r rfl hflatten)⟩

/-- Keeping an owner that is in the hands of the program: one that is counted becomes a temporary of
the innermost frame. -/
theorem keep_cases (h : RcRefines s (L.give v) q) (c : RcConfig) (hframes : L.frames ≠ [])
    (hv : (L.give v).Usable v) :
    minyarRcKeep c s v = s ∧ RcRefines s (L.keep v) q ∨
      ∃ f fs, s.frames = f :: fs ∧
        (∃ q', RcRefines ((if f.chunkFull then
          (rcServicePending c s c.pollBudget).mapFrame fun frame =>
            { frame with chunks := frame.chunks ++ [[]] }
          else s).mapFrame fun frame => frame.push v) (L.keep v) q') ∧
        minyarRcKeep c s v = rcServicePending c ((if f.chunkFull then
          (rcServicePending c s c.pollBudget).mapFrame fun frame =>
            { frame with chunks := frame.chunks ++ [[]] }
          else s).mapFrame fun frame => frame.push v) c.pollBudget := by
  unfold minyarRcKeep
  rcases h.usable hv with rfl | ⟨o, ho, hdead, hcontents⟩
  · rw [if_pos rfl]
    have hkeep : L.keep 0 = L := by
      unfold RcLedger.keep RcLedger.mortal
      simp
    rw [hkeep]
    exact Or.inl ⟨rfl, (give_iff (Or.inl rfl)).mp h⟩
  have hv0 := h.inv.objects.ne_zero ho
  rw [if_neg hv0, ho]
  simp only
  by_cases h0 : o.owners = 0
  · rw [if_pos h0]
    obtain ⟨bytes, backing, himmortal⟩ := h.immortal_of_owners ho hdead h0
    have hx : L.heap v = some (.text bytes backing true) := himmortal
    have hkeep : L.keep v = L := by
      unfold RcLedger.keep RcLedger.mortal
      simp [hx]
    rw [hkeep]
    exact Or.inl ⟨rfl, (give_iff (Or.inr ⟨bytes, backing, hx⟩)).mp h⟩
  rw [if_neg h0]
  have hmortal : L.mortal v = true := by
    unfold RcLedger.mortal
    have hx : L.heap v = some o.contents := hcontents
    rw [hx]
    cases hkind : o.kind <;> simp [RcObject.contents, hkind, h0, hv0]
  rcases hF : L.frames with _ | ⟨F, Fs⟩
  · exact absurd hF hframes
  have hkeep : L.keep v =
      { L with frames := { F with temporaries := F.temporaries ++ [v] } :: Fs } := by
    unfold RcLedger.keep RcLedger.mapFrame
    rw [if_pos hmortal, hF]
  rw [hkeep]
  obtain ⟨f, fs, hf, -⟩ := h.frame hF
  rw [hf]
  exact Or.inr ⟨f, fs, rfl, h.pushTemporary c hf hF, rfl⟩

/-- Keeping an owner does what the ledger says. -/
theorem keep (h : RcRefines s (L.give v) q) (c : RcConfig) (hframes : L.frames ≠ [])
    (hv : (L.give v).Usable v) : ∃ q', RcRefines (minyarRcKeep c s v) (L.keep v) q' := by
  rcases h.keep_cases c hframes hv with ⟨hsame, hkeep⟩ | ⟨f, fs, -, ⟨q₂, h₂⟩, hkeep⟩
  · rw [hsame]
    exact ⟨q, hkeep⟩
  · rw [hkeep]
    exact h₂.servicePending c _

/-- A new temporary owner. -/
theorem borrow (h : RcRefines s L q) (c : RcConfig) (hframes : L.frames ≠ [])
    (hv : L.Usable v) (hs : minyarRcBorrow c s v = .ok s') :
    ∃ q', RcRefines s' (L.keep v) q' := by
  obtain ⟨s₁, hs₁, hs⟩ := bind_eq_ok.mp hs
  cases hs
  exact (h.retain hv hs₁).keep c hframes (hv.give v)

/-! ## Locals -/

/-- A local that an owner was stored in; the previous owner is in the hands of the program. -/
theorem localTake_stored (h : RcRefines s (L.give v) q) (c : RcConfig) {index : ℕ}
    (hindex : ∃ F ∈ L.frames.head?, index < F.locals.length) :
    ∃ frames previous, RcRefines { s with frames := frames }
        ((L.setLocal index v).give previous) q ∧
      minyarRcLocalTake c s index v = minyarRcRelease c { s with frames := frames } previous := by
  obtain ⟨F, hF, hlt⟩ := hindex
  obtain ⟨Fs, hF⟩ : ∃ Fs, L.frames = F :: Fs := List.head?_eq_some_iff.mp hF
  obtain ⟨f, fs, hf, hinv, hmatch, -⟩ := h.frame hF
  have hlength : f.locals.length = F.locals.length := by
    rw [← hmatch.locals, List.length_map]
  have hlt' : index < f.locals.length := hlength ▸ hlt
  obtain ⟨previous, hprevious⟩ : ∃ x, f.locals[index]? = some x :=
    ⟨_, List.getElem?_eq_getElem hlt'⟩
  unfold minyarRcLocalTake
  rw [hf]
  simp only [hprevious]
  -- The owners in the locals after the store.
  have hlocals : (if v ≠ 0 ∨ previous.2 = true then f.locals.set index (v, true)
      else f.locals).map Prod.fst = F.locals.set index v := by
    split_ifs with hwrite
    · rw [List.map_set, hmatch.locals]
    · have hv : v = 0 := by
        by_contra hv
        exact hwrite (Or.inl hv)
      have hmark : previous.2 = false := by
        by_contra hmark
        exact hwrite (Or.inr (by simpa using hmark))
      have hzero := hinv.unwritten index previous.1 (by rw [hprevious, ← hmark])
      have hget : F.locals[index] = 0 := by
        have : (f.locals.map Prod.fst)[index]? = some 0 := by
          rw [List.getElem?_map, hprevious, ← hzero]
          rfl
        rw [hmatch.locals, List.getElem?_eq_getElem hlt] at this
        exact Option.some.inj this
      rw [hmatch.locals, hv, ← hget, List.set_getElem_self]
  have hinv' := hinv.setWritten hprevious v
  generalize hf' : ({ f with
    indices := if previous.2 = false ∧ v ≠ 0 then f.indices ++ [index] else f.indices
    locals := if v ≠ 0 ∨ previous.2 = true then f.locals.set index (v, true) else f.locals } :
      RcFrame) = f' at hinv' ⊢
  have hmatch' : RcFrameMatches f' { F with locals := F.locals.set index v } := by
    rw [← hf']
    exact ⟨hmatch.header, hlocals, hmatch.temporaries⟩
  have htokens : ∀ r, r ≠ 0 → f'.tokens.count r + (previous.1 ::ₘ L.held).count r =
      f.tokens.count r + (L.give v).held.count r := by
    intro r _
    have hcount := count_set_add hlt v r
    have hget : F.locals.getD index 0 = previous.1 := by
      rw [← hmatch.locals, List.getD_eq_getElem _ _ (by simpa using hlt'), List.getElem_map]
      rw [List.getElem?_eq_getElem hlt'] at hprevious
      rw [Option.some.inj hprevious]
    rw [hget] at hcount
    rw [hmatch'.tokens, hmatch.tokens, List.count_append, List.count_append,
      show (L.give v).held = v ::ₘ L.held from rfl, count_cons, count_cons]
    simp only
    omega
  have hset := h.setFrame hf hF hinv' hmatch' htokens
  have hledger : ({ L.give v with
      frames := { F with locals := F.locals.set index v } :: Fs
      held := previous.1 ::ₘ L.held } : RcLedger) = (L.setLocal index v).give previous.1 := by
    unfold RcLedger.setLocal RcLedger.mapFrame RcLedger.give
    rw [hF]
  rw [hledger] at hset
  exact ⟨_, _, hset, rfl⟩

/-- Storing an owner in a local releases the previous one. -/
theorem localTake (h : RcRefines s (L.give v) q) (c : RcConfig) {index : ℕ}
    (hindex : ∃ F ∈ L.frames.head?, index < F.locals.length) :
    ∃ q', RcRefines (minyarRcLocalTake c s index v) (L.setLocal index v) q' := by
  obtain ⟨frames, previous, hstored, htake⟩ := h.localTake_stored c hindex
  rw [htake]
  exact hstored.release c

/-- Storing a new owner in a local. -/
theorem setLocal (h : RcRefines s L q) (c : RcConfig) {index : ℕ}
    (hindex : ∃ F ∈ L.frames.head?, index < F.locals.length) (hv : L.Usable v)
    (hs : minyarRcLocal c s index v = .ok s') :
    ∃ q', RcRefines s' (L.setLocal index v) q' := by
  obtain ⟨s₁, hs₁, hs⟩ := bind_eq_ok.mp hs
  cases hs
  exact (h.retain hv hs₁).localTake c hindex

/-- Moving the owner in a local to the program. -/
theorem localMove (h : RcRefines s L q) {index : ℕ}
    (hindex : ∃ F ∈ L.frames.head?, index < F.locals.length) :
    RcRefines (minyarRcLocalMove s index) ((L.give (L.getLocal index)).setLocal index 0) q := by
  obtain ⟨F, hF, hlt⟩ := hindex
  obtain ⟨Fs, hF⟩ : ∃ Fs, L.frames = F :: Fs := List.head?_eq_some_iff.mp hF
  obtain ⟨f, fs, hf, hinv, hmatch, -⟩ := h.frame hF
  have hlength : f.locals.length = F.locals.length := by
    rw [← hmatch.locals, List.length_map]
  have hlt' : index < f.locals.length := hlength ▸ hlt
  obtain ⟨previous, hprevious⟩ : ∃ x, f.locals[index]? = some x :=
    ⟨_, List.getElem?_eq_getElem hlt'⟩
  have hget : L.getLocal index = previous.1 := by
    unfold RcLedger.getLocal
    rw [hF]
    simp only
    rw [← hmatch.locals, List.getD_eq_getElem _ _ (by simpa using hlt'), List.getElem_map]
    rw [List.getElem?_eq_getElem hlt'] at hprevious
    rw [Option.some.inj hprevious]
  have hlocals : (f.locals.set index (0, previous.2)).map Prod.fst = F.locals.set index 0 := by
    rw [List.map_set, hmatch.locals]
  unfold minyarRcLocalMove
  rw [hf]
  simp only [hprevious]
  have hinv' := hinv.setMoved hprevious
  have hmatch' : RcFrameMatches { f with locals := f.locals.set index (0, previous.2) }
      { F with locals := F.locals.set index 0 } :=
    ⟨hmatch.header, hlocals, hmatch.temporaries⟩
  have htokens : ∀ r, r ≠ 0 →
      ({ f with locals := f.locals.set index (0, previous.2) } : RcFrame).tokens.count r +
        (previous.1 ::ₘ L.held).count r = f.tokens.count r + L.held.count r := by
    intro r hr
    have hcount := count_set_add hlt 0 r
    have hget' : F.locals.getD index 0 = previous.1 := by
      rw [← hget]
      unfold RcLedger.getLocal
      rw [hF]
    have hzero : [0].count r = 0 := List.count_cons_of_ne (Ne.symm hr)
    rw [hget', hzero] at hcount
    rw [hmatch'.tokens, hmatch.tokens, List.count_append, List.count_append, count_cons]
    simp only
    omega
  have hset := h.setFrame hf hF hinv' hmatch' htokens
  have hledger : ({ L with
      frames := { F with locals := F.locals.set index 0 } :: Fs
      held := previous.1 ::ₘ L.held } : RcLedger) =
      (L.give (L.getLocal index)).setLocal index 0 := by
    rw [hget]
    unfold RcLedger.setLocal RcLedger.mapFrame RcLedger.give
    rw [hF]
  rw [hledger] at hset
  exact hset

/-! ## Frames -/

/-- A new frame owns nothing. -/
theorem pushFrame (h : RcRefines s L q) (header : Option ℕ) (count capacity : ℕ)
    {offered : Option ℕ} (hoffered : ∀ x, header = some x → offered = some x)
    (freeFrames : List RcFrame) (cachedFrameBytes : ℕ) :
    RcRefines { s with
      frames := {
        header := header
        locals := List.replicate count (0, false)
        localCount := count
        localCapacity := capacity } :: s.frames
      freeFrames := freeFrames
      cachedFrameBytes := cachedFrameBytes }
      { L with frames := ⟨offered, List.replicate count 0, []⟩ :: L.frames } q := by
  refine h.move s.objects.pending _ rfl rfl (fun r hr => ?_) (fun f hf => ?_) ?_ rfl
  · unfold rcTokens rcQueued rcHeld
    rw [List.flatMap_cons]
    simp only [RcFrame.tokens, List.map_replicate, List.flatten_nil, List.append_nil,
      Multiset.count_add, Multiset.coe_count, List.count_append]
    rw [List.count_replicate]
    simp [Ne.symm hr]
  · rcases List.mem_cons.mp hf with rfl | hf
    · exact RcFrameInv.new _ _ _
    · exact h.inv.frames f hf
  · exact .cons ⟨hoffered, by simp, rfl⟩ h.frames

/-- Entering an activation. -/
theorem enter (h : RcRefines s L q) (c : RcConfig) {locals : ℤ}
    (hs : minyarRcEnter c s locals = .ok s') (offered : Option ℕ) : ∃ q', RcRefines s'
      { L with frames := ⟨offered, List.replicate locals.toNat 0, []⟩ :: L.frames } q' := by
  obtain ⟨q₁, h₁⟩ := h.poll c c.pollBudget
  unfold minyarRcEnter at hs
  simp only at hs
  split_ifs at hs
  cases hs
  refine ⟨q₁, ?_⟩
  have hnone : ∀ x, (none : Option ℕ) = some x → offered = some x := fun _ hx => by cases hx
  cases (minyarRcPoll c s c.pollBudget).2.freeFrames with
  | nil => exact h₁.pushFrame none _ _ hnone _ _
  | cons f fs => exact h₁.pushFrame none _ _ hnone _ _

/-- Entering an activation with storage for its frame. -/
theorem enterStack (h : RcRefines s L q) (c : RcConfig) {header : ℕ} {locals : ℤ}
    (hs : minyarRcEnterStack c s header locals = .ok s') : ∃ q', RcRefines s'
      { L with frames := ⟨some header, List.replicate locals.toNat 0, []⟩ :: L.frames } q' := by
  unfold minyarRcEnterStack at hs
  split_ifs at hs
  · cases hs
    obtain ⟨q₁, h₁⟩ := h.poll c c.pollBudget
    exact ⟨q₁, h₁.pushFrame (some header) _ _ (fun _ => id) _ _⟩
  · exact h.enter c hs _

/-- The queues after the temporaries of a frame are detached. -/
theorem retireTemporaries (s : RcState) {f : RcFrame} (hinv : RcFrameInv f) :
    rcBoundedRetireTemporaries s f = { s with
      chunkQueue := s.chunkQueue ++ f.chunks
      objects := { s.objects with pending := s.objects.pending + f.chunks.length } } := by
  unfold rcBoundedRetireTemporaries
  by_cases hnil : f.chunks = []
  · rw [if_pos hnil, hnil]
    simp
  · rw [if_neg hnil, hinv.chunks_length]

/-- The temporaries of the innermost frame are detached. -/
theorem detachTemporaries (h : RcRefines s L q) {f : RcFrame} {fs : List RcFrame}
    (hf : s.frames = f :: fs) {F : RcLedgerFrame} {Fs : List RcLedgerFrame}
    (hF : L.frames = F :: Fs) :
    RcRefines (rcBoundedRetireTemporaries { s with frames := f.retired :: fs } f)
      { L with frames := { F with temporaries := [] } :: Fs } q := by
  obtain ⟨f', fs', hf', hinv, hmatch, hfs⟩ := h.frame hF
  rw [hf] at hf'
  cases hf'
  rw [retireTemporaries _ hinv]
  refine h.move (s.objects.pending + f.chunks.length) L.held rfl ?_ (fun r hr => ?_)
    (fun g hg => ?_) (.cons hmatch.retired hfs) rfl
  · simp only [List.length_append]
    omega
  · unfold rcTokens rcQueued rcHeld
    rw [hf]
    simp only [List.flatMap_cons, RcFrame.tokens, RcFrame.retired, List.flatten_nil,
      List.append_nil, List.flatten_append, Multiset.count_add, Multiset.coe_count,
      List.count_append]
    omega
  · rcases List.mem_cons.mp hg with rfl | hg
    · exact hinv.retired
    · refine h.inv.frames g ?_
      rw [hf]
      exact List.mem_cons_of_mem _ hg

/-- The frames without the innermost one, whose written slots are in the hands of the program and
whose temporaries are detached. -/
theorem detachSlots (h : RcRefines s L q) {f : RcFrame} {fs : List RcFrame}
    (hf : s.frames = f :: fs) {F : RcLedgerFrame} {Fs : List RcLedgerFrame}
    (hF : L.frames = F :: Fs) :
    RcRefines (rcBoundedRetireTemporaries { s with frames := fs } f)
      { L with
        frames := Fs
        held := ((List.range f.indices.length).map (rcBoundedPendingLocalValue f) : List ℕ) +
          L.held } q := by
  obtain ⟨f', fs', hf', hinv, -, hfs⟩ := h.frame hF
  rw [hf] at hf'
  cases hf'
  rw [retireTemporaries _ hinv]
  refine h.move (s.objects.pending + f.chunks.length) _ rfl ?_ (fun r hr => ?_)
    (fun g hg => ?_) hfs rfl
  · simp only [List.length_append]
    omega
  · have hwritten := hinv.count_written hr
    unfold rcTokens rcQueued rcHeld
    rw [hf]
    simp only [List.flatMap_cons, RcFrame.tokens, List.flatten_append, Multiset.count_add,
      Multiset.coe_count, List.count_append]
    omega
  · refine h.inv.frames g ?_
    rw [hf]
    exact List.mem_cons_of_mem _ hg

/-- The innermost frame is detached. -/
theorem detachFrame (h : RcRefines s L q) {f : RcFrame} {fs : List RcFrame}
    (hf : s.frames = f :: fs) {F : RcLedgerFrame} {Fs : List RcLedgerFrame}
    (hF : L.frames = F :: Fs) :
    RcRefines { rcBoundedRetireTemporaries { s with frames := fs } f with
      frameQueue := s.frameQueue ++ [{ f.retired with localCount := f.indices.length }]
      objects := { (rcBoundedRetireTemporaries { s with frames := fs } f).objects with
        pending := (rcBoundedRetireTemporaries { s with frames := fs } f).objects.pending + 1 } }
      { L with frames := Fs } q := by
  obtain ⟨f', fs', hf', hinv, -, hfs⟩ := h.frame hF
  rw [hf] at hf'
  cases hf'
  rw [retireTemporaries _ hinv]
  refine h.move (s.objects.pending + f.chunks.length + 1) L.held rfl ?_
    (fun r hr => ?_) (fun g hg => ?_) hfs rfl
  · simp only [List.length_append, List.length_singleton]
    omega
  · -- The written slots hold the owners of the locals.
    have hwritten := hinv.count_written hr
    have hdetached : RcFrame.detached { f.retired with localCount := f.indices.length } =
        (List.range f.indices.length).map (rcBoundedPendingLocalValue f) := rfl
    unfold rcTokens rcQueued rcHeld
    rw [hf]
    simp only [List.flatMap_cons, List.flatMap_append, List.flatMap_nil, List.append_nil,
      hdetached, RcFrame.tokens, List.flatten_append, Multiset.count_add, Multiset.coe_count,
      List.count_append]
    omega
  · refine h.inv.frames g ?_
    rw [hf]
    exact List.mem_cons_of_mem _ hg

/-- The innermost frames exist on both sides. -/
theorem exists_frame (h : RcRefines s L q) (hframes : L.frames ≠ []) :
    ∃ f fs F Fs, s.frames = f :: fs ∧ L.frames = F :: Fs ∧ RcFrameMatches f F := by
  rcases hF : L.frames with _ | ⟨F, Fs⟩
  · exact absurd hF hframes
  obtain ⟨f, fs, hf, -, hmatch, -⟩ := h.frame hF
  exact ⟨f, fs, F, Fs, hf, rfl, hmatch⟩

/-- Detaching the temporaries of the innermost frame. -/
theorem step (h : RcRefines s L q) (c : RcConfig) (hframes : L.frames ≠ []) :
    ∃ q', RcRefines (minyarRcStep c s)
      (L.mapFrame fun frame => { frame with temporaries := [] }) q' := by
  obtain ⟨f, fs, F, Fs, hf, hF, -⟩ := h.exists_frame hframes
  have hdetached := h.detachTemporaries hf hF
  unfold minyarRcStep RcLedger.mapFrame
  rw [hf, hF]
  exact hdetached.poll c _

/-- Detaching the innermost frame. -/
theorem leave (h : RcRefines s L q) (c : RcConfig) (hframes : L.frames ≠ []) :
    ∃ q', RcRefines (minyarRcLeave c s) { L with frames := L.frames.tail } q' := by
  obtain ⟨f, fs, F, Fs, hf, hF, -⟩ := h.exists_frame hframes
  have hdetached := h.detachFrame hf hF
  unfold minyarRcLeave
  rw [hf, hF]
  simp only [List.tail_cons]
  have hqueue : (rcBoundedRetireTemporaries { s with frames := fs } f).frameQueue =
      s.frameQueue := by
    unfold rcBoundedRetireTemporaries
    split_ifs <;> rfl
  rw [hqueue]
  exact hdetached.poll c _

/-- One more written slot is one more owner. -/
theorem give_written (L : RcLedger) (f : RcFrame) (written : ℕ) (E : Multiset ℕ) :
    ({ L with
      held := ((List.range (written + 1)).map (rcBoundedPendingLocalValue f) : List ℕ) + E } :
        RcLedger) = RcLedger.give { L with
      held := ((List.range written).map (rcBoundedPendingLocalValue f) : List ℕ) + E }
        (rcBoundedPendingLocalValue f written) := by
  unfold RcLedger.give
  rw [List.range_succ, List.map_append, ← Multiset.coe_add, List.map_singleton,
    Multiset.coe_singleton, add_right_comm, add_comm _ {_}, Multiset.singleton_add]

/-- Dropping the owners of written slots. -/
theorem dropWritten (f : RcFrame) {written : ℕ} {E : Multiset ℕ}
    (h : RcRefines s { L with
      held := ((List.range written).map (rcBoundedPendingLocalValue f) : List ℕ) + E } q) :
    ∃ q', RcRefines { s with objects := rcDropWritten f written s.objects }
      { L with held := E } q' := by
  induction written generalizing s q with
  | zero =>
    have hnone : ((List.range 0).map (rcBoundedPendingLocalValue f) : Multiset ℕ) + E = E :=
      Multiset.zero_add E
    rw [hnone] at h
    exact ⟨q, h⟩
  | succ written ih =>
    rw [give_written] at h
    obtain ⟨q₁, h₁⟩ := h.drop
    exact ih h₁

/-- The innermost frame gives up its owners. -/
theorem dropFrame (h : RcRefines s L q) {f : RcFrame} {fs : List RcFrame}
    (hf : s.frames = f :: fs) {F : RcLedgerFrame} {Fs : List RcLedgerFrame}
    (hF : L.frames = F :: Fs) : ∃ q',
    RcRefines { rcBoundedRetireTemporaries { s with frames := fs } f with
      objects := rcDropWritten f f.indices.length
        (rcBoundedRetireTemporaries { s with frames := fs } f).objects }
      { L with frames := Fs } q' := by
  exact dropWritten (L := { L with frames := Fs }) f (h.detachSlots hf hF)

/-- Giving up the owners of a frame in the storage of the program. -/
theorem leaveStack (h : RcRefines s L q) (c : RcConfig) {header : ℕ} (hframes : L.frames ≠ []) :
    ∃ q', RcRefines (minyarRcLeaveStack c s header) { L with frames := L.frames.tail } q' := by
  have hleave := h.leave c hframes
  obtain ⟨f, fs, F, Fs, hf, hF, -⟩ := h.exists_frame hframes
  unfold minyarRcLeaveStack
  rw [hf]
  simp only
  split_ifs
  · obtain ⟨q₁, h₁⟩ := h.dropFrame hf hF
    rw [hF, List.tail_cons]
    exact h₁.poll c _
  · exact hleave

end RcRefines

end Minyar

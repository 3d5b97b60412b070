import Minyar.Rc.Service

/-!
# The fast paths of the service

`minyarRcPoll` destroys chains of unary records in pairs of units and visits the slots of a List in
runs.  Both agree with the one-unit scheduler: a fast path that reports `k` units leaves exactly the
state that `k` units of the reference leave, whatever the turn, the budget and the shape of the graph.
-/

namespace Minyar

open CountedGraph

/-! ## Units one after another -/

/-- `k` object units lead from a state to another one, each while work is pending. -/
inductive RcUnits : ℕ → RcObjects → RcObjects → Prop
  | refl (s : RcObjects) : RcUnits 0 s s
  | head {k : ℕ} {s s' : RcObjects} (hpending : s.pending ≠ 0)
      (h : RcUnits k (rcBoundedObjectUnit s) s') : RcUnits (k + 1) s s'

theorem RcUnits.trans {k m : ℕ} {s s' s'' : RcObjects} (h : RcUnits k s s') (h' : RcUnits m s' s'') :
    RcUnits (k + m) s s'' := by
  induction h with
  | refl => rwa [Nat.zero_add]
  | head hpending _ ih =>
    rw [Nat.succ_add]
    exact .head hpending (ih h')

/-- One object unit after another, until the budget is used or nothing is pending. -/
def rcObjectsReference : ℕ → RcObjects → ℕ × RcObjects
  | 0, s => (0, s)
  | budget + 1, s =>
    if s.pending = 0 then (0, s)
    else
      let r := rcObjectsReference budget (rcBoundedObjectUnit s)
      (r.1 + 1, r.2)

/-- Units may be taken off the front of the reference. -/
theorem RcUnits.reference {k n : ℕ} {s s' : RcObjects} (h : RcUnits k s s') (hk : k ≤ n) :
    rcObjectsReference n s =
      (k + (rcObjectsReference (n - k) s').1, (rcObjectsReference (n - k) s').2) := by
  induction h generalizing n with
  | refl => simp
  | head hpending _ ih =>
    obtain ⟨n, rfl⟩ : ∃ m, n = m + 1 := ⟨n - 1, by omega⟩
    rw [rcObjectsReference, if_neg hpending, ih (by omega), Nat.add_sub_add_right]
    exact Prod.ext (by simp only; omega) rfl

/-- Units keep the invariant. -/
theorem RcUnits.inv {k : ℕ} {s s' : RcObjects} {T : Multiset ℕ} {q : RcQueues}
    (h : RcUnits k s s') (hinv : RcObjectsInv s T 0 q) (hnext : s.next ≠ 0) :
    ∃ q', RcObjectsInv s' T 0 q' ∧ RcEvolves k s s' q q' T := by
  induction h generalizing q with
  | refl s => exact ⟨q, hinv, RcEvolves.refl s q T⟩
  | head hpending _ ih =>
    have hready := hinv.dead_ne_nil hpending
    obtain ⟨q₁, hinv₁, hevolves₁⟩ := hinv.objectUnit hready
    obtain ⟨q', hinv', hevolves'⟩ := ih hinv₁ (by rw [hevolves₁.next]; exact hnext)
    refine ⟨q', hinv', ?_⟩
    rw [Nat.add_comm]
    exact hevolves₁.trans hevolves'

/-- A drop does not touch the scheduler of the oldest batch. -/
theorem rcDrop_frame (s : RcObjects) (v : ℕ) :
    (rcDrop s v).2.active = s.active ∧ (rcDrop s v).2.cursor = s.cursor ∧
      (rcDrop s v).2.head = s.head := by
  unfold rcDrop
  generalize s.next = fuel
  induction fuel generalizing s v with
  | zero => exact ⟨rfl, rfl, rfl⟩
  | succ fuel ih =>
    unfold rcDropChain
    simp only
    split_ifs with h0
    · exact ⟨rfl, rfl, rfl⟩
    · rcases s.heap v with _ | o
      · exact ⟨rfl, rfl, rfl⟩
      · simp only
        split_ifs
        case neg h => exact ih _ _
        all_goals exact ⟨rfl, rfl, rfl⟩

/-! ## Pairs of units on unary records -/

/-- A unary record that has not been visited is the only pending task. -/
structure RcSoleUnary (s : RcObjects) (r : ℕ) (o : RcObject) : Prop where
  /-- The record. -/
  object : s.heap r = some o
  /-- It is a record with references. -/
  kind : o.kind = .record
  /-- It has one field. -/
  length : o.values.length = 1
  /-- The field has not been visited. -/
  cursor : rcBoundedSavedCursor o = 0
  /-- No other object is in its queue. -/
  link : o.owners = 0
  /-- No object is in service. -/
  active : s.active = 0
  /-- It is not the null pointer. -/
  ne_zero : r ≠ 0
  /-- It is in the oldest batch or in the recent stack. -/
  queue : (s.head = r ∧ s.recentHead = 0 ∧ s.recentTail = 0) ∨ (s.head = 0 ∧ s.recentHead = r)

/-- The only pending task, when no object is in service. -/
theorem RcObjectsInv.sole {s : RcObjects} {T : Multiset ℕ} {q : RcQueues}
    (h : RcObjectsInv s T 0 q) (hpending : s.pending = 1) (hactive : s.active = 0) :
    ∃ r o, r = (if s.head ≠ 0 then s.head else s.recentHead) ∧ r ≠ 0 ∧ s.heap r = some o ∧
      o.owners = 0 ∧ rcDead s.active q = [r] ∧
      ((s.head = r ∧ s.recentHead = 0 ∧ s.recentTail = 0) ∨ (s.head = 0 ∧ s.recentHead = r)) := by
  have hdead : rcDead s.active q = q.old ++ q.recent := by simp [rcDead, hactive]
  have hlength := h.pending
  rw [hpending, hdead, List.length_append] at hlength
  have hold := h.old
  have hrecent := h.recent
  have htail := h.recentTail
  rcases hqold : q.old with _ | ⟨r, rs⟩
  · rcases hqrecent : q.recent with _ | ⟨r, rs⟩
    · rw [hqold, hqrecent] at hlength
      cases hlength
    · rw [hqold, hqrecent] at hlength
      obtain rfl : rs = [] := List.eq_nil_of_length_eq_zero (by simpa using hlength.symm)
      rw [hqold] at hold
      rw [hqrecent] at hrecent
      obtain ⟨hr, hr0, o, ho, hlink⟩ := hrecent
      have hhead : s.head = 0 := hold
      exact ⟨r, o, by simp [hhead, hr], hr0, ho, hlink, by rw [hdead, hqold, hqrecent]; rfl,
        Or.inr ⟨hhead, hr⟩⟩
  · rw [hqold, List.length_cons] at hlength
    obtain rfl : rs = [] := List.eq_nil_of_length_eq_zero (by omega)
    have hqrecent : q.recent = [] := List.eq_nil_of_length_eq_zero (by omega)
    rw [hqold] at hold
    rw [hqrecent] at hrecent htail
    obtain ⟨hr, hr0, o, ho, hlink⟩ := hold
    exact ⟨r, o, by simp [hr, hr0], hr0, ho, hlink, by rw [hdead, hqold, hqrecent]; rfl,
      Or.inl ⟨hr, hrecent, htail⟩⟩

/-- What the test of the fast path says. -/
theorem rcUnarySingle_some {n r : ℕ} {s : RcObjects} (h : rcUnarySingle n s = some r) :
    (2 ≤ n ∧ s.pending = 1 ∧ s.active = 0) ∧ r = (if s.head ≠ 0 then s.head else s.recentHead) ∧
      ∃ o, s.heap r = some o ∧ o.kind = .record ∧ o.values.length = 1 ∧
        o.map.getD 0 0 >>> 1 = 0 := by
  unfold rcUnarySingle at h
  by_cases hcond : 2 ≤ n ∧ s.pending = 1 ∧ s.active = 0
  · rw [if_pos hcond] at h
    simp only at h
    generalize (if s.head ≠ 0 then s.head else s.recentHead) = single at h ⊢
    rcases ho : s.heap single with _ | o <;> rw [ho] at h <;> simp only at h
    · cases h
    · split_ifs at h with hshape
      cases h
      exact ⟨hcond, rfl, o, ho, hshape⟩
  · rw [if_neg hcond] at h
    cases h

/-- The cursor of a record with one field is in its only map byte. -/
theorem rcBoundedSavedCursor_unary {o : RcObject} (hkind : o.kind = .record)
    (hlength : o.map.length = 1) (hmap : o.map.getD 0 0 >>> 1 = 0) :
    rcBoundedSavedCursor o = 0 := by
  obtain ⟨b, hb⟩ := List.length_eq_one_iff.mp hlength
  rw [hb] at hmap
  have hb0 : b >>> 1 = 0 := hmap
  unfold rcBoundedSavedCursor
  rw [if_neg (by simp [hkind]), hb]
  simp [recordCursor, hb0]

/-- The test of the fast path finds a sole unary record. -/
theorem rcUnarySingle_spec {n r : ℕ} {s : RcObjects} {T : Multiset ℕ} {q : RcQueues}
    (h : RcObjectsInv s T 0 q) (hsingle : rcUnarySingle n s = some r) :
    2 ≤ n ∧ ∃ o, RcSoleUnary s r o := by
  obtain ⟨⟨hn, hpending, hactive⟩, hr, o, ho, hkind, hlength, hmap⟩ := rcUnarySingle_some hsingle
  obtain ⟨r', o', hr', hr0, ho', hlink, -, hqueue⟩ := h.sole hpending hactive
  obtain rfl : r = r' := hr.trans hr'.symm
  rw [ho] at ho'
  cases ho'
  have hmaplength : o.map.length = 1 := ((h.cells r o ho).map_length hkind).trans hlength
  exact ⟨hn, o, ho, hkind, hlength, rcBoundedSavedCursor_unary hkind hmaplength hmap, hlink,
    hactive, hr0, hqueue⟩

/-- The first unit of a pair visits the field. -/
theorem RcSoleUnary.unit {s : RcObjects} {r : ℕ} {o : RcObject} (h : RcSoleUnary s r o) :
    rcBoundedObjectUnit s =
      (rcDrop { rcTakeUnary s r o with recentTurn := !s.recentTurn } (o.child 0)).2 := by
  obtain ⟨ho, hkind, hlength, hcursor, hlink, hactive, hr0, hqueue⟩ := h
  -- In both cases the record is the only one of the oldest batch, and nothing is recent.
  have hold : rcBoundedObjectUnit s = rcBoundedOldObjectUnit { s with
      head := r
      tail := if s.head = 0 then s.recentTail else s.tail
      recentHead := 0
      recentTail := 0
      recentTurn := !s.recentTurn } := by
    unfold rcBoundedObjectUnit
    rcases hqueue with ⟨hhead, hrecent, htail⟩ | ⟨hhead, hrecent⟩
    · subst hhead
      simp [hr0, hrecent, htail]
    · simp [hactive, hhead, hrecent, rcBoundedCapture]
  rw [hold]
  unfold rcBoundedOldObjectUnit rcBoundedActivate
  simp [hactive, ho, hkind, hlength, hcursor, hlink, rcTakeUnary, RcObjects.write,
    RcObject.child]

/-- The record is the only dead object. -/
theorem RcSoleUnary.dead {s : RcObjects} {r : ℕ} {o : RcObject} (h : RcSoleUnary s r o)
    {T : Multiset ℕ} {q : RcQueues} (hinv : RcObjectsInv s T 0 q) : rcDead s.active q = [r] := by
  have hold := hinv.old
  have hrecent := hinv.recent
  have hsingle : ∀ {l : List ℕ}, RcLinked s.heap r l → l = [r] := by
    intro l hl
    rcases l with _ | ⟨w, l⟩
    · exact absurd hl h.ne_zero
    · obtain ⟨rfl, -, o', ho', hlink⟩ := hl
      rw [h.object] at ho'
      cases ho'
      rw [h.link] at hlink
      rw [hlink.eq_nil_iff.mpr rfl]
  rcases h.queue with ⟨hhead, hempty, -⟩ | ⟨hempty, hhead⟩
  · rw [hhead] at hold
    have hnil : q.recent = [] := hrecent.eq_nil_iff.mpr hempty
    simp [rcDead, h.active, hsingle hold, hnil]
  · rw [hhead] at hrecent
    have hnil : q.old = [] := hold.eq_nil_iff.mpr hempty
    simp [rcDead, h.active, hsingle hrecent, hnil]

/-- One task is pending. -/
theorem RcSoleUnary.pending {s : RcObjects} {r : ℕ} {o : RcObject} (h : RcSoleUnary s r o)
    {T : Multiset ℕ} {q : RcQueues} (hinv : RcObjectsInv s T 0 q) : s.pending = 1 := by
  have := hinv.pending
  rw [h.dead hinv] at this
  exact this

/-- The second unit of a pair destroys the record. -/
theorem RcSoleUnary.finish {s : RcObjects} {r : ℕ} {o : RcObject} (h : RcSoleUnary s r o)
    {T : Multiset ℕ} {q : RcQueues} (hinv : RcObjectsInv s T 0 q) :
    RcUnits 2 s { (rcBoundedObjectUnit s).free r with
      recentTurn := !(rcBoundedObjectUnit s).recentTurn
      pending := (rcBoundedObjectUnit s).pending - 1
      active := 0 } := by
  have hready : s.pending ≠ 0 := by
    rw [h.pending hinv]
    decide
  obtain ⟨q₁, hinv₁, hevolves₁⟩ := hinv.objectUnit (hinv.dead_ne_nil hready)
  refine .head hready ?_
  have hframe := rcDrop_frame { rcTakeUnary s r o with recentTurn := !s.recentTurn } (o.child 0)
  rw [← h.unit] at hframe
  obtain ⟨hactive, hcursor, hhead⟩ := hframe
  generalize rcBoundedObjectUnit s = s₁ at *
  replace hactive : s₁.active = r := hactive
  replace hcursor : s₁.cursor = 1 := hcursor
  replace hhead : s₁.head = 0 := hhead
  have hmem : r ∈ rcDead s₁.active q₁ := by simp [rcDead, hactive, h.ne_zero]
  obtain ⟨o₁, ho₁, hleaf, -⟩ := hinv₁.exists_of_dead hmem
  -- The record in service is still a unary record.
  obtain ⟨o', ho', hsame, -⟩ := hevolves₁.shrink.object r o₁ ho₁
  rw [h.object] at ho'
  cases ho'
  have hkind : o₁.kind = .record := hsame.kind.trans h.kind
  have hlength : o₁.values.length = 1 := hsame.values ▸ h.length
  have hready₁ : s₁.pending ≠ 0 := by
    intro hzero
    have hdead := hinv₁.pending
    rw [hzero] at hdead
    have hnil : rcDead s₁.active q₁ = [] := List.eq_nil_of_length_eq_zero (by omega)
    rw [hnil] at hmem
    cases hmem
  have hold : rcBoundedObjectUnit s₁ =
      rcBoundedOldObjectUnit { s₁ with recentTurn := !s₁.recentTurn } := by
    unfold rcBoundedObjectUnit rcBoundedUnaryActive
    simp [hactive, h.ne_zero, hhead, hcursor, ho₁, hkind, hlength]
  have hfinish : rcBoundedObjectUnit s₁ = { s₁.free r with
      recentTurn := !s₁.recentTurn
      pending := s₁.pending - 1
      active := 0 } := by
    rw [hold]
    unfold rcBoundedOldObjectUnit
    simp [hactive, h.ne_zero, ho₁, hlength, hcursor, rcBoundedFinishObject, RcObjects.free]
  rw [← hfinish]
  exact .head hready₁ (.refl _)

/-- What the test for a unary child says. -/
theorem rcUnaryChild_some {n child : ℕ} {s : RcObjects} {o : RcObject}
    (h : rcUnaryChild n s child = some o) :
    4 ≤ n ∧ child ≠ 0 ∧ s.heap child = some o ∧ o.kind = .record ∧ o.owners = 1 ∧
      o.values.length = 1 := by
  unfold rcUnaryChild at h
  by_cases hcond : 4 ≤ n ∧ child ≠ 0
  · rw [if_pos hcond] at h
    rcases ho : s.heap child with _ | o' <;> rw [ho] at h <;> simp only at h
    · cases h
    · split_ifs at h with hshape
      cases h
      exact ⟨hcond.1, hcond.2, rfl, hshape⟩
  · rw [if_neg hcond] at h
    cases h

/-- A unary child that dies in the first unit of a pair is the only pending task after the second, and
it is in service when the fast path takes it. -/
theorem RcSoleUnary.next {s : RcObjects} {r child : ℕ} {o oc : RcObject} (h : RcSoleUnary s r o)
    {T : Multiset ℕ} {q : RcQueues} (hinv : RcObjectsInv s T 0 q) (hnext : s.next ≠ 0)
    (hchild : o.child 0 = child) (hc0 : child ≠ 0) (hcr : child ≠ r)
    (hoc : s.heap child = some oc) (hkind : oc.kind = .record) (howners : oc.owners = 1)
    (hlength : oc.values.length = 1) :
    ∃ s' o', RcUnits 2 s s' ∧ RcSoleUnary s' child o' ∧ rcTakeUnary s' child o' =
      { ((rcTakeUnary s r o).write child { oc with owners := 0 }).free r with active := child } := by
  have hcell := hinv.cells child oc hoc
  have hlive : child ∉ rcDead s.active q := by
    rw [h.dead hinv]
    simpa using hcr
  have hleaf : oc.isLeaf = false := by
    unfold RcObject.isLeaf
    rw [hkind]
    rcases hv : oc.values with _ | ⟨v, l⟩
    · rw [hv] at hlength
      cases hlength
    · rfl
  -- Alive maps hold flags only, so the saved cursor zero is there already.
  have hsave : rcBoundedSaveCursor oc 0 = oc := by
    unfold rcBoundedSaveCursor
    rw [if_neg (by simp [hkind]), writeRecordCursor_zero (hcell.flags hlive hkind)]
  have hunit : rcBoundedObjectUnit s = rcBoundedPushRecent
      { rcTakeUnary s r o with recentTurn := !s.recentTurn } child oc := by
    obtain ⟨fuel, hfuel⟩ : ∃ n, s.next = n + 1 := ⟨s.next - 1, by omega⟩
    have hheap : ({ rcTakeUnary s r o with recentTurn := !s.recentTurn } : RcObjects).heap child =
        some oc := (RcObjects.write_heap_of_ne s _ hcr).trans hoc
    rw [h.unit, hchild]
    unfold rcDrop
    rw [show ({ rcTakeUnary s r o with recentTurn := !s.recentTurn } : RcObjects).next = fuel + 1
      from hfuel, rcDropChain_branch hc0 hheap howners hleaf]
  have hunits := h.finish hinv
  rw [hunit] at hunits
  refine ⟨_, { oc with owners := 0 }, hunits, ?_, ?_⟩
  · refine ⟨?_, hkind, hlength, ?_, rfl, rfl, hc0, Or.inr ⟨rfl, rfl⟩⟩
    · refine (Function.update_of_ne hcr _ _).trans ((Function.update_self child _ _).trans ?_)
      rw [hsave]
      rfl
    · have hmap : oc.map.length = 1 := (hcell.map_length hkind).trans hlength
      have hsaved : rcBoundedSavedCursor oc = 0 := by
        have := rcBoundedSavedCursor_saveCursor (o := oc) (c := 0)
          (fun _ => hcell.map_length hkind) (Nat.zero_le _) hcell.values_length
        rwa [hsave] at this
      exact hsaved
  · have hheap : ∀ (heap : ℕ → Option RcObject) (b c : RcObject),
        Function.update (@Function.update ℕ (fun _ => Option RcObject) _
          (Function.update heap child (some b)) r none) child (some c) =
        @Function.update ℕ (fun _ => Option RcObject) _
          (Function.update heap child (some c)) r none := by
      intro heap b c
      funext x
      by_cases hx : x = child
      · subst hx
        rw [Function.update_self, Function.update_of_ne hcr, Function.update_self]
      · rw [Function.update_of_ne hx]
        by_cases hxr : x = r
        · subst hxr
          rw [Function.update_self, Function.update_self]
        · simp only [Function.update_of_ne hxr, Function.update_of_ne hx]
    simp only [rcTakeUnary, rcBoundedPushRecent, RcObjects.write, RcObjects.free, Bool.not_not,
      Nat.add_sub_cancel, hheap]

/-- The fused chain does the pairs of units of the reference. -/
theorem rcFusedChain_spec {fuel budget work : ℕ} {s : RcObjects} {r : ℕ} {o : RcObject}
    {T : Multiset ℕ} {q : RcQueues} (h : RcSoleUnary s r o) (hinv : RcObjectsInv s T 0 q)
    (hnext : s.next ≠ 0) (hbudget : 2 ≤ budget - work) (hfuel : budget - work ≤ 2 * fuel + 1) :
    ∃ k s', rcFusedChain fuel budget work (rcTakeUnary s r o) = (work + k, s') ∧
      RcUnits k s s' ∧ 2 ≤ k ∧ k ≤ budget - work := by
  induction fuel generalizing work s r o q with
  | zero => omega
  | succ fuel ih =>
    have hself : (rcTakeUnary s r o).heap (rcTakeUnary s r o).active = some { o with owners := 0 } :=
      RcObjects.write_heap_self s r _
    rw [rcFusedChain, hself]
    simp only
    rw [show ({ o with owners := 0 } : RcObject).child 0 = o.child 0 from rfl]
    rcases hchild : rcUnaryChild (budget - work) (rcTakeUnary s r o) (o.child 0) with _ | oc
    · -- The last pair of the chain.
      have hactive : (rcDrop { rcTakeUnary s r o with recentTurn := !s.recentTurn }
          (o.child 0)).2.active = r := (rcDrop_frame _ _).1
      have hunits := h.finish hinv
      rw [h.unit] at hunits
      refine ⟨2, _, ?_, hunits, le_rfl, hbudget⟩
      simp only
      rw [show (rcTakeUnary s r o).recentTurn = s.recentTurn from rfl, hactive]
      rfl
    · -- The next pair works on the child.
      obtain ⟨h4, hc0, hoc, hkind, howners, hlength⟩ := rcUnaryChild_some hchild
      have hcr : o.child 0 ≠ r := by
        intro hcr
        rw [hcr] at hoc
        have hzero : oc.owners = 0 := by
          rw [show (rcTakeUnary s r o).heap r = some { o with owners := 0 } from hself] at hoc
          cases hoc
          rfl
        omega
      have hoc' : s.heap (o.child 0) = some oc := by
        rw [← hoc]
        exact (RcObjects.write_heap_of_ne s _ hcr).symm
      obtain ⟨s', o', hunits, hsole, htake⟩ :=
        h.next hinv hnext rfl hc0 hcr hoc' hkind howners hlength
      obtain ⟨q', hinv', hevolves⟩ := hunits.inv hinv hnext
      obtain ⟨k, s'', hchain, hunits', hk2, hk⟩ := @ih (work + 2) s' _ o' q' hsole hinv'
        (by rw [hevolves.next]; exact hnext) (by omega) (by omega)
      rw [htake] at hchain
      refine ⟨2 + k, s'', ?_, hunits.trans hunits', by omega, by omega⟩
      have hwork : work + (2 + k) = work + 2 + k := by omega
      rw [hwork, ← hchain]
      rfl

/-! ## Runs over the slots of a List -/

/-- A unit on the List in service, when nothing is recent, visits its next slot. -/
theorem rcBoundedObjectUnit_slot {s : RcObjects} {o : RcObject} (hrecent : s.recentHead = 0)
    (hactive : s.active ≠ 0) (ho : s.heap s.active = some o) (hkind : o.kind = .references)
    (hlt : s.cursor < o.values.length) : rcBoundedObjectUnit s =
      (rcDrop { s with recentTurn := !s.recentTurn, cursor := s.cursor + 1 }
        (o.values.getD s.cursor 0)).2 := by
  have hold : rcBoundedObjectUnit s =
      rcBoundedOldObjectUnit { s with recentTurn := !s.recentTurn } := by
    unfold rcBoundedObjectUnit
    simp [hactive, hrecent]
  have hchild : o.child s.cursor = o.values.getD s.cursor 0 := by
    unfold RcObject.child
    rw [if_neg (by simp [hkind])]
  rw [hold]
  unfold rcBoundedOldObjectUnit
  simp [hactive, ho, hkind, hlt, hchild]

/-- A run does the units of the reference. -/
theorem rcListRun_spec {values : List ℕ} {count work : ℕ} {s : RcObjects} {o : RcObject}
    {T : Multiset ℕ} {q : RcQueues} (hinv : RcObjectsInv s T 0 q) (hnext : s.next ≠ 0)
    (hrecent : s.recentHead = 0) (hactive : s.active ≠ 0) (ho : s.heap s.active = some o)
    (hkind : o.kind = .references) (hvalues : o.values = values)
    (hcount : count ≤ values.length - s.cursor) :
    ∃ k s', rcListRun values count work s = (work + k, s') ∧ RcUnits k s s' ∧
      (count ≠ 0 → k ≠ 0) ∧ k ≤ count := by
  induction count generalizing work s o q with
  | zero => exact ⟨0, s, rfl, .refl s, fun h => absurd rfl h, le_rfl⟩
  | succ count ih =>
    have hready : s.pending ≠ 0 := by
      have hmem := RcObjectsInv.active_mem (q := q) hactive
      have hpending := hinv.pending
      intro hzero
      rw [hzero] at hpending
      have hnil : rcDead s.active q = [] := List.eq_nil_of_length_eq_zero (by omega)
      rw [hnil] at hmem
      cases hmem
    have hunit := rcBoundedObjectUnit_slot hrecent hactive ho hkind (by rw [hvalues]; omega)
    rw [hvalues] at hunit
    obtain ⟨q₁, hinv₁, hevolves₁⟩ := hinv.objectUnit (hinv.dead_ne_nil hready)
    have hframe := rcDrop_frame { s with recentTurn := !s.recentTurn, cursor := s.cursor + 1 }
      (values.getD s.cursor 0)
    rw [← hunit] at hframe
    obtain ⟨hactive₁, hcursor₁, -⟩ := hframe
    -- The rest of the run, when nothing recent has stopped it.
    have hrest : (rcBoundedObjectUnit s).recentHead = 0 → ∃ k s',
        rcListRun values count (work + 1) (rcBoundedObjectUnit s) = (work + 1 + k, s') ∧
          RcUnits k (rcBoundedObjectUnit s) s' ∧ k ≤ count := by
      intro hrecent₁
      replace hactive₁ : (rcBoundedObjectUnit s).active = s.active := hactive₁
      replace hcursor₁ : (rcBoundedObjectUnit s).cursor = s.cursor + 1 := hcursor₁
      have hmem : s.active ∈ rcDead (rcBoundedObjectUnit s).active q₁ := by
        rw [hactive₁]
        exact RcObjectsInv.active_mem hactive
      obtain ⟨o₁, ho₁, -, -⟩ := hinv₁.exists_of_dead hmem
      obtain ⟨o', ho', hsame, -⟩ := hevolves₁.shrink.object s.active o₁ ho₁
      rw [ho] at ho'
      cases ho'
      obtain ⟨k, s', hrun, hunits, -, hk⟩ := @ih (work + 1) (rcBoundedObjectUnit s) o₁ q₁ hinv₁
        (by rw [hevolves₁.next]; exact hnext) hrecent₁ (by rw [hactive₁]; exact hactive)
        (by rw [hactive₁]; exact ho₁) (hsame.kind.trans hkind) (hsame.values.trans hvalues)
        (by rw [hcursor₁]; omega)
      exact ⟨k, s', hrun, hunits, hk⟩
    rw [rcListRun]
    simp only
    by_cases hscalar : ∃ child, s.heap (values.getD s.cursor 0) = some child ∧
        values.getD s.cursor 0 ≠ 0 ∧ child.kind = .scalarRecord ∧ child.owners = 1
    · -- The inlined drop of a scalar record that has no other owner.
      obtain ⟨child, hchild, hv0, hck, hco⟩ := hscalar
      have hfree : rcBoundedObjectUnit s =
          ({ s with recentTurn := !s.recentTurn, cursor := s.cursor + 1 } : RcObjects).free
            (values.getD s.cursor 0) := by
        rw [hunit]
        generalize hs₂ : ({ s with recentTurn := !s.recentTurn, cursor := s.cursor + 1 } :
          RcObjects) = s₂
        have hheap : s₂.heap (values.getD s.cursor 0) = some child := by
          rw [← hs₂]
          exact hchild
        have hnext₂ : s₂.next ≠ 0 := by
          rw [← hs₂]
          exact hnext
        obtain ⟨fuel, hfuel⟩ := Nat.exists_eq_succ_of_ne_zero hnext₂
        unfold rcDrop
        rw [hfuel, rcDropChain_leaf hv0 hheap hco (by simp [hck])
          (by simp [RcObject.isLeaf, hck])]
      have hrecent₁ : (rcBoundedObjectUnit s).recentHead = 0 := by
        rw [hfree]
        exact hrecent
      obtain ⟨k, s', hrun, hunits, hk⟩ := hrest hrecent₁
      rw [if_pos (by simp only [hchild]; exact decide_eq_true ⟨hv0, hck, hco⟩), ← hfree]
      exact ⟨k + 1, s', by rw [hrun]; congr 1; omega, .head hready hunits, fun _ => by omega,
        by omega⟩
    · rw [if_neg, ← hunit]
      swap
      · intro htrue
        rcases hchild : s.heap (values.getD s.cursor 0) with _ | child <;> rw [hchild] at htrue
        · cases htrue
        · exact hscalar ⟨child, hchild, of_decide_eq_true htrue⟩
      by_cases hrecent₁ : (rcBoundedObjectUnit s).recentHead = 0
      · obtain ⟨k, s', hrun, hunits, hk⟩ := hrest hrecent₁
        rw [if_neg (not_not_intro hrecent₁)]
        exact ⟨k + 1, s', by rw [hrun]; congr 1; omega, .head hready hunits, fun _ => by omega,
          by omega⟩
      · rw [if_pos hrecent₁]
        exact ⟨1, _, rfl, .head hready (.refl _), fun _ => one_ne_zero, by omega⟩

/-! ## The service -/

/-- The service of objects alone is the reference on objects. -/
theorem rcPollObjects_eq {fuel budget work : ℕ} {s : RcObjects} {T : Multiset ℕ} {q : RcQueues}
    (hinv : RcObjectsInv s T 0 q) (hnext : s.next ≠ 0) (hfuel : budget - work ≤ fuel) :
    rcPollObjects fuel budget work s = (work + (rcObjectsReference (budget - work) s).1,
      (rcObjectsReference (budget - work) s).2) := by
  induction fuel generalizing work s q with
  | zero =>
    have hzero : budget - work = 0 := by omega
    rw [rcPollObjects, hzero]
    rfl
  | succ fuel ih =>
    rw [rcPollObjects]
    by_cases hcond : work < budget ∧ s.pending ≠ 0
    swap
    · rw [if_neg hcond]
      rcases hb : budget - work with _ | n
      · rfl
      · have hzero : s.pending = 0 := by
          by_contra hne
          exact hcond ⟨by omega, hne⟩
        rw [rcObjectsReference, if_pos hzero]
        rfl
    rw [if_pos hcond]
    -- A fast path of `k` units goes on like the reference after `k` units.
    have hunits : ∀ {k s'}, RcUnits k s s' → k ≠ 0 → k ≤ budget - work →
        rcPollObjects fuel budget (work + k) s' = (work + (rcObjectsReference (budget - work) s).1,
          (rcObjectsReference (budget - work) s).2) := by
      intro k s' hk hk0 hle
      obtain ⟨q', hinv', hevolves⟩ := hk.inv hinv hnext
      have hsub : budget - (work + k) = budget - work - k := by omega
      rw [ih hinv' (by rw [hevolves.next]; exact hnext) (by omega), hk.reference hle, hsub]
      simp only [Nat.add_assoc]
    rcases hsingle : rcUnarySingle (budget - work) s with _ | r
    · simp only
      by_cases hcount : rcListSlots (budget - work) s = 0
      · rw [if_neg (not_not_intro hcount)]
        exact hunits (.head hcond.2 (.refl _)) one_ne_zero (by omega)
      · rw [if_pos hcount]
        have hslots : s.recentHead = 0 ∧ s.active ≠ 0 := by
          by_contra hnot
          rw [rcListSlots, if_neg hnot] at hcount
          exact hcount rfl
        rcases ho : s.heap s.active with _ | o
        · rw [rcListSlots, if_pos hslots, ho] at hcount
          exact absurd rfl hcount
        · have hkind : o.kind = .references := by
            by_contra hnot
            rw [rcListSlots, if_pos hslots, ho] at hcount
            simp [hnot] at hcount
          have hcount_eq : rcListSlots (budget - work) s =
              min (budget - work) (o.values.length - s.cursor) := by
            rw [rcListSlots, if_pos hslots, ho]
            simp [hkind]
          simp only
          obtain ⟨k, s', hrun, hk, hk0, hle⟩ := @rcListRun_spec o.values
            (rcListSlots (budget - work) s) work s o T q hinv hnext hslots.1 hslots.2 ho hkind rfl
            (by rw [hcount_eq]; exact min_le_right _ _)
          rw [hrun]
          refine hunits hk (hk0 hcount) (le_trans hle ?_)
          rw [hcount_eq]
          exact min_le_left _ _
    · obtain ⟨h2, o, hsole⟩ := rcUnarySingle_spec hinv hsingle
      simp only [hsole.object]
      obtain ⟨k, s', hchain, hk, hk2, hle⟩ := @rcFusedChain_spec budget budget work s r o T q hsole
        hinv hnext h2 (by omega)
      rw [hchain]
      exact hunits hk (by omega) hle

/-- Without detached frames and chunks the reference serves objects only. -/
theorem rcReferencePoll_objects (c : RcConfig) {budget : ℕ} {s : RcState} {E : Multiset ℕ}
    {q : RcQueues} (h : RcInv s E q) (hframes : s.frameQueue = []) (hchunks : s.chunkQueue = []) :
    rcReferencePoll c budget s = ((rcObjectsReference budget s.objects).1,
      { s with
        objects := (rcObjectsReference budget s.objects).2
        nextQueue := if (rcObjectsReference budget s.objects).1 ≠ 0 then 1 else s.nextQueue }) := by
  induction budget generalizing s q with
  | zero => rfl
  | succ budget ih =>
    rw [rcReferencePoll, rcObjectsReference]
    by_cases hpending : s.objects.pending = 0
    · rw [if_pos hpending, if_pos hpending]
      rfl
    · rw [if_neg hpending, if_neg hpending]
      obtain ⟨hready, hlt⟩ := h.pickQueue_ready hpending
      have hqueue : rcPickQueue s 3 s.nextQueue = 0 := by
        by_contra hne
        have hcases : rcPickQueue s 3 s.nextQueue = 1 ∨ rcPickQueue s 3 s.nextQueue = 2 := by omega
        rcases hcases with hq | hq <;>
          simp [hq, RcState.queueReady, hframes, hchunks] at hready
      have hunit : rcPollUnit c s =
          { s with objects := rcBoundedObjectUnit s.objects, nextQueue := 1 } := by
        unfold rcPollUnit
        simp only [hqueue, if_true]
      obtain ⟨q', hserves⟩ := h.pollUnit c hpending
      rw [hunit] at hserves ⊢
      rw [ih hserves.inv hframes hchunks]
      simp

/-- The service of all queues is the reference. -/
theorem rcPollQueues_eq (c : RcConfig) {fuel budget work : ℕ} {s : RcState}
    (hfuel : budget - work ≤ fuel) : rcPollQueues c fuel budget work s =
      (work + (rcReferencePoll c (budget - work) s).1, (rcReferencePoll c (budget - work) s).2) := by
  induction fuel generalizing work s with
  | zero =>
    have hzero : budget - work = 0 := by omega
    rw [rcPollQueues, hzero]
    rfl
  | succ fuel ih =>
    rw [rcPollQueues]
    rcases hb : budget - work with _ | n
    · rw [if_neg (by omega)]
      rfl
    · rw [rcReferencePoll]
      by_cases hpending : s.objects.pending = 0
      · rw [if_neg (by simp [hpending]), if_pos hpending]
        rfl
      · have hn : budget - (work + 1) = n := by omega
        rw [if_pos ⟨by omega, hpending⟩, if_neg hpending, ih (by omega), hn]
        simp only [Nat.add_assoc, Nat.add_comm 1]

/-- The service with its fast paths is the reference scheduler. -/
theorem RcInv.poll_eq_reference {s : RcState} {E : Multiset ℕ} {q : RcQueues} (h : RcInv s E q)
    (c : RcConfig) (budget : ℕ) :
    minyarRcPoll c s budget = rcReferencePoll c (min budget c.pollBudget) s := by
  have hbudget : (if c.pollBudget < budget then c.pollBudget else budget) =
      min budget c.pollBudget := by
    split_ifs <;> omega
  unfold minyarRcPoll
  rw [hbudget]
  simp only
  by_cases hqueues : s.frameQueue = [] ∧ s.chunkQueue = []
  · rw [if_pos hqueues, rcReferencePoll_objects c h hqueues.1 hqueues.2]
    have hobjects := h.objects
    rw [hqueues.1, hqueues.2] at hobjects
    have hpoll := @rcPollObjects_eq (min budget c.pollBudget) (min budget c.pollBudget) 0 s.objects
      _ _ hobjects h.next le_rfl
    rw [Nat.sub_zero, Nat.zero_add] at hpoll
    rw [hpoll]
  · rw [if_neg hqueues, rcPollQueues_eq c (by omega), Nat.sub_zero, Nat.zero_add]

end Minyar

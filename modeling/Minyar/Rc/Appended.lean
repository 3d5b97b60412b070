import Minyar.Rc.Drained
import Minyar.Rc.ImmortalLists
import Minyar.Rc.ListRoom

/-!
# Appended Lists

`minyar_list_appended` copies a List and adds a value.  Its growth serves pending work in between,
so counts may also fall on the way: by owners that only outstanding work held, in detached frames and
chunks and in the slots of objects that nothing sustains.  `rcGarbageOwners` counts those.  Without
pending work an append is exact, and so is the condition under which it stops.
-/

namespace Minyar

open CountedGraph

/-! ## Owners in the ledger -/

/-- The owners that a List of `values` with `value` behind them adds to `v`: one for every time that
it is among the values, and one when it is the last value and is not given away. -/
def appendOwners (values : List ℕ) (value : ℕ) (references takeValue : Bool) (v : ℕ) : ℕ :=
  (retainedValues values value references takeValue).count v

namespace RcLedger

variable {L : RcLedger} {v w : ℕ} {values : List ℕ} {references takeValue : Bool}

/-- The owners of a value in an object of the ledger. -/
def slotOwners (L : RcLedger) (v r : ℕ) : ℕ :=
  match L.heap r with
  | some x => x.slots.count v
  | none => 0

open Classical in
/-- The owners of a value that the program holds and those in the objects that the ledger
sustains. -/
noncomputable def keptOwners (L : RcLedger) (v : ℕ) : ℕ :=
  L.owners.count v +
    ((List.range L.next).map fun r => if L.Kept r then L.slotOwners v r else 0).sum

/-- The ledger with a new List of `values`, which takes over the owner of `w` that the program gives
away. -/
def copied (L : RcLedger) (values : List ℕ) (w : ℕ) (references takeValue : Bool) : RcLedger :=
  ((if references ∧ takeValue then L.take w else L).allocate (.ofElements references values)).2

/-- The ledger after a List is appended to. -/
def appended (L : RcLedger) (list value : ℕ) (references takeValue : Bool) : RcLedger :=
  L.copied (L.elements list ++ [value]) value references takeValue

/-- The old objects stay. -/
theorem copied_heap_old (hr : v ≠ L.next) :
    (L.copied values w references takeValue).heap v = L.heap v := by
  unfold copied
  split_ifs <;> exact Function.update_of_ne hr _ _

/-- The new List. -/
theorem copied_heap_new : (L.copied values w references takeValue).heap L.next =
    some (.ofElements references values) := by
  unfold copied
  split_ifs <;> exact Function.update_self _ _ _

theorem copied_next : (L.copied values w references takeValue).next = L.next + 1 := by
  unfold copied
  split_ifs <;> rfl

/-- The program holds the owner of the new List. -/
theorem next_mem_owners : L.next ∈ (L.copied values w references takeValue).owners := by
  unfold copied
  split_ifs <;> exact Multiset.mem_add.mpr (Or.inr (Multiset.mem_cons_self _ _))

/-- Only the owner that the program gives away is missing. -/
theorem count_owners_le (v : ℕ) : L.owners.count v ≤
    (L.copied values w references takeValue).owners.count v +
      if references ∧ takeValue then [w].count v else 0 := by
  set T : Multiset ℕ := ((L.frames.flatMap fun f => f.locals ++ f.temporaries : List ℕ) :
    Multiset ℕ)
  change (T + L.held).count v ≤ _
  unfold copied
  split_ifs
  · change _ ≤ (T + L.next ::ₘ L.held.erase w).count v + _
    have hheld : L.held.count v ≤ (w ::ₘ L.held.erase w).count v :=
      Multiset.count_le_of_le v (Multiset.le_cons_erase L.held w)
    rw [count_cons] at hheld
    rw [Multiset.count_add, Multiset.count_add, count_cons]
    omega
  · change _ ≤ (T + L.next ::ₘ L.held).count v + 0
    rw [Multiset.count_add, Multiset.count_add, count_cons]
    omega

/-- That owner is in the new List. -/
theorem owner_copied (hw : references = true → takeValue = true → w ∈ values) (hv : v ∈ L.owners) :
    v ∈ (L.copied values w references takeValue).owners ∨
      v ∈ (RcContents.ofElements references values).slots := by
  have hcount := @count_owners_le L w values references takeValue v
  have hpos := Multiset.count_pos.mpr hv
  by_cases hin : v ∈ (L.copied values w references takeValue).owners
  · exact Or.inl hin
  · refine Or.inr ?_
    rw [Multiset.count_eq_zero_of_notMem hin] at hcount
    split_ifs at hcount with htake
    · have hmem : v ∈ [w] := List.count_pos_iff.mp (by omega)
      rw [RcContents.ofElements, if_pos htake.1, List.mem_singleton.mp hmem]
      exact hw htake.1 htake.2
    · omega

/-- What the ledger sustains it still sustains. -/
theorem Kept.copied (h : L.Kept v) (hw : references = true → takeValue = true → w ∈ values)
    (hbound : ∀ r y, L.heap r = some y → r < L.next) (h0 : L.next ≠ 0) :
    (L.copied values w references takeValue).Kept v := by
  obtain ⟨K, hK, hv⟩ := h
  refine ⟨insert L.next K, fun u hu => ?_, Set.mem_insert_of_mem _ hv⟩
  rcases Set.mem_insert_iff.mp hu with rfl | hu
  · exact ⟨h0, Or.inr (Or.inl next_mem_owners)⟩
  · have hheap : ∀ r y, L.heap r = some y →
        (L.copied values w references takeValue).heap r = some y := fun r y hy =>
      (copied_heap_old (hbound r y hy).ne).trans hy
    obtain ⟨hu0, ⟨bytes, backing, himmortal⟩ | howner | ⟨r, hr, y, hy, hslot⟩⟩ := hK u hu
    · exact ⟨hu0, Or.inl ⟨bytes, backing, hheap _ _ himmortal⟩⟩
    · refine ⟨hu0, Or.inr ((owner_copied hw howner).imp id fun hslot => ?_)⟩
      exact ⟨L.next, Set.mem_insert _ _, _, copied_heap_new, hslot⟩
    · exact ⟨hu0, Or.inr (Or.inr ⟨r, Set.mem_insert_of_mem _ hr, y, hheap _ _ hy, hslot⟩)⟩

/-- What the program may use it may still use. -/
theorem Usable.copied (h : L.Usable v) (hw : references = true → takeValue = true → w ∈ values)
    (hbound : ∀ r y, L.heap r = some y → r < L.next) (h0 : L.next ≠ 0) :
    (L.copied values w references takeValue).Usable v := by
  have hheap : ∀ r y, L.heap r = some y →
      (L.copied values w references takeValue).heap r = some y := fun r y hy =>
    (copied_heap_old (hbound r y hy).ne).trans hy
  refine h.imp id (Or.imp (fun ⟨bytes, backing, hx⟩ => ⟨bytes, backing, hheap _ _ hx⟩) fun hv => ?_)
  refine hv.mono (fun u hu hu0 => ?_) fun r y hy => ⟨y, hheap r y hy, fun _ hw _ => hw⟩
  rcases owner_copied hw hu with hin | hslot
  · exact .owner hin hu0
  · exact .slot (.owner next_mem_owners h0) copied_heap_new hslot hu0

/-- The ledger keeps its owners and those of the new List. -/
theorem keptOwners_copied (hw : references = true → takeValue = true → w ∈ values)
    (hbound : ∀ r y, L.heap r = some y → r < L.next) (h0 : L.next ≠ 0) (v : ℕ) :
    L.keptOwners v + (if references then values.count v else 0) ≤
      (L.copied values w references takeValue).keptOwners v +
        if references ∧ takeValue then [w].count v else 0 := by
  classical
  have howners := @count_owners_le L w values references takeValue v
  have hnew : (L.copied values w references takeValue).Kept L.next :=
    ⟨{L.next}, fun u hu => by
      rw [Set.mem_singleton_iff.mp hu]
      exact ⟨h0, Or.inr (Or.inl next_mem_owners)⟩, rfl⟩
  have hslots : (L.copied values w references takeValue).slotOwners v L.next =
      if references then values.count v else 0 := by
    unfold slotOwners
    rw [copied_heap_new]
    cases references <;> rfl
  have hold : ((List.range L.next).map fun r => if L.Kept r then L.slotOwners v r else 0).sum ≤
      ((List.range L.next).map fun r => if (L.copied values w references takeValue).Kept r then
        (L.copied values w references takeValue).slotOwners v r else 0).sum := by
    refine List.sum_le_sum fun r hr => ?_
    by_cases hkept : L.Kept r
    · rw [if_pos hkept, if_pos (hkept.copied hw hbound h0)]
      unfold slotOwners
      rw [copied_heap_old (List.mem_range.mp hr).ne]
    · rw [if_neg hkept]
      exact Nat.zero_le _
  unfold keptOwners
  rw [copied_next, List.range_succ, List.map_append, List.sum_append, List.map_singleton,
    List.sum_singleton, if_pos hnew, hslots]
  omega

end RcLedger

/-! ## Owners that only outstanding work holds -/

open Classical in
/-- The owners of a value in detached frames and chunks and in the slots of objects that the ledger
does not sustain. -/
noncomputable def rcGarbageOwners (s : RcState) (L : RcLedger) (q : RcQueues) (v : ℕ) : ℕ :=
  (rcQueued s).count v + ((List.range s.objects.next).map fun r =>
    if L.Kept r then 0 else rcSlotOwners s (rcDead s.objects.active q) v r).sum

/-- What happens to the owners of a value while a List is copied: the new List adds its own, and some
that only outstanding work held are released. -/
structure OwnersRaised (s : RcState) (L : RcLedger) (q : RcQueues) (x k : ℕ) (o o' : RcObject) :
    Prop where
  /-- The contents stay. -/
  contents : o'.contents = o.contents
  /-- An immortal object stays uncounted. -/
  immortal : o.owners = 0 → o'.owners = 0
  /-- A counted one gets `k` owners; without pending work it loses none. -/
  mortal : o.owners ≠ 0 → ∃ released, released ≤ rcGarbageOwners s L q x ∧
    (s.objects.pending = 0 → released = 0) ∧ o'.owners + released = o.owners + k

namespace RcRefines

variable {s : RcState} {L : RcLedger} {q : RcQueues} {v w x : ℕ} {references takeValue : Bool}

/-- The owners of an object are those that the ledger keeps and those that outstanding work holds. -/
theorem keptOwners_add_garbage (h : RcRefines s L q) (v : ℕ) :
    L.keptOwners v + rcGarbageOwners s L q v =
      rcOwnerCount s L.held (rcDead s.objects.active q) v := by
  classical
  have hslots : ∀ r ∈ List.range L.next, (if L.Kept r then L.slotOwners v r else 0) +
      (if L.Kept r then 0 else rcSlotOwners s (rcDead s.objects.active q) v r) =
      rcSlotOwners s (rcDead s.objects.active q) v r := by
    intro r _
    by_cases hkept : L.Kept r
    · rw [if_pos hkept, if_pos hkept, Nat.add_zero]
      obtain ⟨o, ho, hdead⟩ := h.kept r hkept
      unfold RcLedger.slotOwners rcSlotOwners
      rw [ho, h.heap r o ho hdead]
      simp only [if_neg hdead, RcObject.contents_slots (h.inv.objects.cells r o ho).map_length]
    · rw [if_neg hkept, if_neg hkept, Nat.zero_add]
  have htokens := rcFrames_tokens h.frames
  unfold RcFrame.tokens at htokens
  unfold RcLedger.keptOwners rcGarbageOwners rcOwnerCount RcLedger.owners rcQueued RcFrame.detached
  rw [htokens, h.next, ← List.map_congr_left hslots, List.sum_map_add]
  simp only [Multiset.count_add, Multiset.coe_count]
  omega

/-- A drained state has no such owners. -/
theorem garbageOwners_of_drained (h : RcRefines s L q) (hpending : s.objects.pending = 0) (v : ℕ) :
    rcGarbageOwners s L q v = 0 := by
  classical
  obtain ⟨-, hframes, hchunks, -⟩ := h.inv.drained hpending
  unfold rcGarbageOwners rcQueued
  rw [hframes, hchunks, List.map_congr_left (g := fun _ => 0) fun r _ => ?_]
  · simp
  · by_cases hkept : L.Kept r
    · rw [if_pos hkept]
    · rw [if_neg hkept]
      unfold rcSlotOwners
      rw [not_not.mp (mt (h.exists_iff_kept hpending).mp hkept)]

/-- The owners of an object after values were copied to a new List, which the service in between has
only lessened. -/
theorem copied_owners {t : RcState} {q' : RcQueues} {values : List ℕ} {k : ℕ} {o : RcObject}
    (h : RcRefines s L q) (h' : RcRefines t (L.copied values w references takeValue) q')
    (hw : references = true → takeValue = true → w ∈ values) (hx : L.Usable x)
    (hraises : RcRaises x k s.objects t.objects)
    (hk : k + (if references ∧ takeValue then [w].count x else 0) =
      if references then values.count x else 0)
    (ho : s.objects.heap x = some o) :
    ∃ o', t.objects.heap x = some o' ∧ OwnersRaised s L q x k o o' := by
  have hbound : ∀ r y, L.heap r = some y → r < L.next := fun r y hy => (h.bound r y hy).2
  have hdead := h.notMem_dead hx ho
  have hcontents := h.heap x o ho hdead
  have husable : (L.copied values w references takeValue).Usable x :=
    hx.copied hw hbound h.next_ne_zero
  have hheap : (L.copied values w references takeValue).heap x = some o.contents :=
    (RcLedger.copied_heap_old (h.ne_next hx)).trans hcontents
  obtain ⟨o', ho', hdead', hsame⟩ := h'.exists_of_usable husable hheap
  have himmortal : o'.owners = 0 ↔ o.owners = 0 := by
    rw [h.owners_eq_zero_iff ho hdead, h'.owners_eq_zero_iff ho' hdead']
    unfold RcLedger.Immortal
    rw [hcontents, hheap]
  refine ⟨o', ho', hsame, himmortal.mpr, fun hmortal => ?_⟩
  have hcount : o.owners = rcOwnerCount s L.held (rcDead s.objects.active q) x :=
    (h.inv.exact.live x o ho hdead).elim And.right fun h0 => absurd h0.1 hmortal
  have hcount' := (h'.inv.exact.live x o' ho' hdead').elim And.right
    fun h0 => absurd (himmortal.mp h0.1) hmortal
  rw [← h.keptOwners_add_garbage] at hcount
  rw [← h'.keptOwners_add_garbage] at hcount'
  have hkept : L.keptOwners x + (if references then values.count x else 0) ≤
      (L.copied values w references takeValue).keptOwners x +
        if references ∧ takeValue then [w].count x else 0 :=
    RcLedger.keptOwners_copied hw hbound h.next_ne_zero x
  obtain ⟨o₀, ho₀, hle⟩ := hraises.owners o' ho'
  rw [ho] at ho₀
  cases ho₀
  refine ⟨o.owners + k - o'.owners, by omega, fun hpending => ?_, by omega⟩
  have := h.garbageOwners_of_drained hpending x
  omega

/-- When the first values are in the new List, it has added at most its own owners. -/
theorem appendedPrefix_raises {t : RcState} {before after : List ℕ} (h : RcRefines s L q)
    (c : RcConfig) (hlegal : (RcOp.listAppended v w references takeValue).Legal L)
    (hsplit : retainedValues (L.elements v) w references takeValue = before ++ x :: after)
    (hlength : (L.elements v).length < listLimit c)
    (ht : appendedPrefix c s v references before = .ok t) :
    L.Usable x ∧ (∃ q', RcRefines t (L.copied before 0 true false) q') ∧
      RcRaises x (before.count x) s.objects t.objects := by
  obtain ⟨-, -, hsmall⟩ := h.listAppended_room c hlegal
  have hbound : ∀ r y, L.heap r = some y → r < L.next := fun r y hy => (h.bound r y hy).2
  obtain ⟨s₃, q₃, o₃, h₃, hgrow, -, -, hcopies, -⟩ := hsmall hlength
  rw [hcopies] at ht
  have husable : ∀ y ∈ before ++ x :: after, references = true ∧ L.Usable y := fun y hy =>
    h.retained_usable c hlegal (hsplit.symm ▸ hy)
  obtain ⟨rfl, hx⟩ := husable x (List.mem_append_right _ List.mem_cons_self)
  have hbefore : true = true → ∀ y ∈ before, L.Usable y := fun _ y hy =>
    (husable y (List.mem_append_left _ hy)).2
  obtain ⟨q', h'⟩ := h₃.listAddAll c true hbound h.next_ne_zero hbefore ht
  rw [List.nil_append] at h'
  have hadds := h₃.listAddAll_raises c true hbound h.next_ne_zero hbefore hx ht
  exact ⟨hx, ⟨q', h'⟩, (hgrow x hx).trans hadds (Nat.zero_add _)⟩

/-- The owners of an object when the first values are in the new List. -/
theorem appendedPrefix_owners {t : RcState} {before after : List ℕ} {o : RcObject}
    (h : RcRefines s L q) (c : RcConfig)
    (hlegal : (RcOp.listAppended v w references takeValue).Legal L)
    (hsplit : retainedValues (L.elements v) w references takeValue = before ++ x :: after)
    (hlength : (L.elements v).length < listLimit c)
    (ht : appendedPrefix c s v references before = .ok t) (ho : s.objects.heap x = some o) :
    ∃ o', t.objects.heap x = some o' ∧ OwnersRaised s L q x (before.count x) o o' := by
  obtain ⟨hx, ⟨q', h'⟩, hraises⟩ := h.appendedPrefix_raises c hlegal hsplit hlength ht
  exact h.copied_owners h' (fun _ hfalse => by cases hfalse) hx hraises rfl ho

/-- Without pending work, appending stops at a full count exactly when the new owners of a counted
object are more than its count can hold. -/
theorem listAppended_full_iff (h : RcRefines s L q) (c : RcConfig)
    (hlegal : (RcOp.listAppended v w references takeValue).Legal L)
    (hpending : s.objects.pending = 0) :
    minyarListAppended c s v w references takeValue = .error tooManyReferences ↔
      (L.elements v).length < listLimit c ∧ ∃ x o, s.objects.heap x = some o ∧ o.owners ≠ 0 ∧
        x ∈ retainedValues (L.elements v) w references takeValue ∧
        ownerLimit < o.owners + appendOwners (L.elements v) w references takeValue x := by
  refine ⟨fun hs => ?_, fun hs => ?_⟩
  · rcases (h.listAppended_error_iff c hlegal _).mp hs with
      ⟨hmessage, -⟩ | ⟨-, hlength, before, x, after, t, p, hsplit, ht, hp, hfull⟩
    · exact absurd hmessage (by decide)
    · obtain ⟨-, -, hraises⟩ := h.appendedPrefix_raises c hlegal hsplit hlength ht
      obtain ⟨o, ho, hle⟩ := hraises.owners p hp
      obtain ⟨p', hp', howners⟩ := h.appendedPrefix_owners c hlegal hsplit hlength ht ho
      rw [hp] at hp'
      cases hp'
      refine ⟨hlength, x, o, ho, fun h0 => ?_, ?_, ?_⟩
      · rw [howners.immortal h0] at hfull
        exact absurd hfull (by decide)
      · rw [hsplit]
        exact List.mem_append_right _ List.mem_cons_self
      · unfold appendOwners
        rw [hsplit, List.count_append, List.count_cons_self]
        omega
  · obtain ⟨hlength, x, o, ho, hmortal, hmem, hfull⟩ := hs
    -- The last owner of the object that the new List takes.
    obtain ⟨after, before, hreverse, hnot⟩ := List.eq_append_cons_of_mem (List.mem_reverse.mpr hmem)
    have hsplit := congrArg List.reverse hreverse
    rw [List.reverse_reverse, List.reverse_append, List.reverse_cons, List.append_assoc,
      List.singleton_append] at hsplit
    rcases ht : appendedPrefix c s v references before.reverse with message | t
    · exact h.appendedPrefix_error c hlegal hlength hsplit ht
    · obtain ⟨p, hp, howners⟩ := h.appendedPrefix_owners c hlegal hsplit hlength ht ho
      refine (h.listAppended_error_iff c hlegal _).mpr
        (Or.inr ⟨rfl, hlength, _, x, _, t, p, hsplit, ht, hp, ?_⟩)
      obtain ⟨released, -, hnone, hcount⟩ := howners.mortal hmortal
      unfold appendOwners at hfull
      rw [hsplit, List.count_append, List.count_cons_self,
        List.count_eq_zero_of_not_mem (mt List.mem_reverse.mp hnot)] at hfull
      rw [hnone hpending] at hcount
      omega

/-- An appended List adds at most its own owners to what the program may use. -/
theorem listAppended_raises (h : RcRefines s L q) (c : RcConfig)
    (hlegal : (RcOp.listAppended v w references takeValue).Legal L) {r : ℕ × RcState}
    (hs : minyarListAppended c s v w references takeValue = .ok r) (hx : L.Usable x) :
    RcRaises x (appendOwners (L.elements v) w references takeValue x) s.objects r.2.objects := by
  obtain ⟨hvalues, hlarge, hsmall⟩ := h.listAppended_room c hlegal
  have hbound : ∀ r y, L.heap r = some y → r < L.next := fun r y hy => (h.bound r y hy).2
  have hnew := L.usable_allocate h.next_ne_zero
  have hold : ∀ y, (L.allocate y).2.Usable x := fun y => hx.allocate hbound y
  have hlength : (L.elements v).length < listLimit c := by
    by_contra hlength
    rw [hlarge (not_lt.mp hlength)] at hs
    cases hs
  obtain ⟨s₃, q₃, -, h₃, hgrow, -, -, -, heq⟩ := hsmall hlength
  rw [heq] at hs
  obtain ⟨s₄, hs₄, hs⟩ := bind_eq_ok.mp hs
  obtain ⟨s₅, hs₅, hs⟩ := bind_eq_ok.mp hs
  cases hs
  obtain ⟨q₄, h₄⟩ := h₃.listAddAll c references hbound h.next_ne_zero hvalues hs₄
  rw [List.nil_append] at h₄
  have hall := (hgrow x hx).trans
    (h₃.listAddAll_raises c references hbound h.next_ne_zero hvalues hx hs₄) (Nat.zero_add _)
  unfold appendOwners retainedValues
  -- The last value.
  cases takeValue with
  | false =>
    have htakes := listTakes_allocate L references (L.elements v)
      (p := (L.allocate (.ofElements references (L.elements v))).2.Usable w) (by
        rintro rfl
        exact hlegal.2.2.allocate hbound _)
    have hlast : RcRaises x (if references = true then [w].count x else 0) s₄.objects s₅.objects := by
      refine h₄.listAdd_raises c (hnew _) htakes (hold _) ?_ (fun hreferences hwx => ?_) hs₅
      · rw [L.allocate_addToList]
        exact hold _
      · obtain ⟨members, hmembers⟩ := hreferences
        rw [L.allocate_heap] at hmembers
        cases references with
        | false => cases hmembers
        | true => simp [hwx]
    refine hall.trans hlast ?_
    cases references with
    | false => rfl
    | true => exact List.count_append.symm
  | true =>
    have htakes := listTakes_allocate L references (L.elements v)
      (p := (L.allocate (.ofElements references (L.elements v))).2.Owned w) (by
        rintro rfl
        exact hlegal.2.2.allocate hbound _)
    refine (hall.trans (h₄.listAddTake_raises c (hnew _) htakes (hold _) ?_ hs₅) rfl).mono ?_
    · cases references with
      | false =>
        unfold RcLedger.takeForList
        rw [L.allocate_heap]
        exact (L.allocate_addToList false (L.elements v) w).symm ▸ hold _
      | true =>
        rw [h.takeForList_allocate (usable_of_owned hlegal.2.2)]
        have hlast : L.Usable x → (L.copied (L.elements v ++ [w]) w true true).Usable x := fun hx =>
          hx.copied (fun _ _ => List.mem_append_right _ (List.mem_singleton_self w)) hbound
            h.next_ne_zero
        exact hlast hx
    · cases references with
      | false => exact le_rfl
      | true =>
        simp only [if_true, List.append_nil]
        exact le_rfl

/-- The owners of an object after a List was appended to: those before, those of the new List, and
without some that only outstanding work held. -/
theorem listAppended_owners (h : RcRefines s L q) (c : RcConfig)
    (hlegal : (RcOp.listAppended v w references takeValue).Legal L) {r : ℕ × RcState}
    (hs : minyarListAppended c s v w references takeValue = .ok r) (hx : L.Usable x) {o : RcObject}
    (ho : s.objects.heap x = some o) : ∃ o', r.2.objects.heap x = some o' ∧
      OwnersRaised s L q x (appendOwners (L.elements v) w references takeValue x) o o' := by
  obtain ⟨q', h'⟩ : ∃ q', RcRefines r.2
      (L.copied (L.elements v ++ [w]) w references takeValue) q' := (h.listAppended c hlegal hs).2
  refine h.copied_owners h' (fun _ _ => List.mem_append_right _ (List.mem_singleton_self w)) hx
    (h.listAppended_raises c hlegal hs hx) ?_ ho
  unfold appendOwners retainedValues
  cases references <;> cases takeValue <;> simp [List.count_append]

end RcRefines

/-- The kind that the members of a List ask for. -/
def appendedKind (s : RcObjects) (references : Bool) (values : List ℕ) : RcKind :=
  if references then if values.any s.mortal then .references else .referencesImmortal else .list

namespace RcRefines

/-- The new List has the old elements, the value behind them and the kind that these ask for. -/
theorem listAppended_new {s : RcState} {L : RcLedger} {q : RcQueues} {v w : ℕ}
    {references takeValue : Bool} (h : RcRefines s L q) {c : RcConfig}
    (hlegal : (RcOp.listAppended v w references takeValue).Legal L) {r : ℕ × RcState}
    (hs : minyarListAppended c s v w references takeValue = .ok r) :
    ∃ o, r.2.objects.heap L.next = some o ∧ o.values = L.elements v ++ [w] ∧
      o.kind = appendedKind s.objects references (L.elements v ++ [w]) := by
  obtain ⟨q', h'⟩ : ∃ q', RcRefines r.2 (L.appended v w references takeValue) q' :=
    (h.listAppended c hlegal hs).2
  have hheap : (L.appended v w references takeValue).heap L.next =
      some (.ofElements references (L.elements v ++ [w])) := RcLedger.copied_heap_new
  obtain ⟨o, ho, -, hcontents⟩ := h'.exists_of_usable
    (Or.inr (Or.inr (.owner RcLedger.next_mem_owners h.next_ne_zero))) hheap
  rw [← hcontents] at hheap
  unfold appendedKind
  cases references with
  | false =>
    obtain ⟨hkind, hvalues⟩ := contents_list hheap (hheap.trans (congrArg some hcontents))
    exact ⟨o, ho, hvalues, hkind⟩
  | true =>
    obtain ⟨-, hvalues⟩ := contents_references hheap (hheap.trans (congrArg some hcontents))
    refine ⟨o, ho, hvalues, ?_⟩
    obtain ⟨-, husable, -⟩ := h.listAppended_cases c hlegal hs
    obtain ⟨hkind, hiff⟩ := h.listAppended_kind hlegal hs ho
    have hw : L.Usable w := by
      cases takeValue with
      | true => exact usable_of_owned hlegal.2.2
      | false => exact hlegal.2.2
    have hmortal : (L.elements v ++ [w]).any s.objects.mortal = true ↔ o.kind = .references := by
      rw [hiff, List.any_eq_true]
      refine exists_congr fun y => and_congr_right fun hy => ?_
      have hy' : L.Usable y := by
        rcases List.mem_append.mp hy with hy | hy
        · exact husable rfl y hy
        · exact List.mem_singleton.mp hy ▸ hw
      rw [← h.mortal_eq hy']
      refine ⟨fun hm => ⟨?_, hm⟩, And.right⟩
      rintro rfl
      unfold RcObjects.mortal at hm
      rw [h.inv.objects.heap_zero] at hm
      cases hm
    simp only [if_true]
    split_ifs with hany
    · exact hmortal.mp hany
    · exact hkind.resolve_left fun hk => hany (hmortal.mpr hk)

/-- The elements of a List are those that the ledger records. -/
theorem exists_elements {s : RcState} {L : RcLedger} {q : RcQueues} {v : ℕ}
    (h : RcRefines s L q) (hv : L.Usable v) (hlist : IsList L v) :
    ∃ o, s.objects.heap v = some o ∧ o.values = L.elements v ∧
      (o.kind = .list ∨ o.kind = .references ∨ o.kind = .referencesImmortal) := by
  obtain ⟨o, ho, -, hkind, hcontents⟩ := h.exists_list hv hlist
  refine ⟨o, ho, ?_, hkind⟩
  unfold RcLedger.elements
  rcases hlist with ⟨values, hx⟩ | ⟨values, hx⟩
  · rw [hx]
    exact (contents_list hcontents hx).2
  · rw [hx]
    exact (contents_references hcontents hx).2

end RcRefines

/-- What appending a value to a List has done when it returns the new List and the state `t`. -/
structure ListAppended (s : RcState) (L : RcLedger) (q : RcQueues) (list value : ℕ)
    (references takeValue : Bool) (original : RcObject) (t : RcState) : Prop where
  /-- The new List was not there before. -/
  fresh : s.objects.heap L.next = none
  /-- The counts are exact. -/
  exact : ∃ q', RcExact t (L.appended list value references takeValue).held q'
  /-- The new List has the old elements, the value behind them and the kind that these ask for. -/
  new : ∃ new, t.objects.heap L.next = some new ∧ new.values = original.values ++ [value] ∧
    new.kind = appendedKind s.objects references (original.values ++ [value])
  /-- The List itself keeps its elements and its kind. -/
  kept : ∃ kept, t.objects.heap list = some kept ∧ kept.values = original.values ∧
    kept.kind = original.kind
  /-- Everything that the program may use gets the owners of the new List and no others. -/
  owners : ∀ x o, L.Usable x → s.objects.heap x = some o → ∃ o', t.objects.heap x = some o' ∧
    OwnersRaised s L q x (appendOwners original.values value references takeValue x) o o'

/-- A run that leaves a destroyed List with one more slot to visit, which holds an owner of the only
element of another List. -/
theorem rcRun_released : ∃ L s, RcRun RcConfig.smallest
    [.listNew, .listReferences 1, .newText [120], .listAdd 1 2, .listAdd 1 2, .listNew,
      .listReferences 3, .listAdd 3 2, .release 1] L s ∧
    (RcOp.listAppended 3 0 true false).Legal L ∧ L.Usable 2 ∧
    (∃ original, s.objects.heap 3 = some original ∧ original.values = [2]) ∧
    (∃ o, s.objects.heap 2 = some o ∧ o.owners = 3) ∧
    ∃ t, minyarListAppended RcConfig.smallest s 3 0 true false = .ok (L.next, t) ∧
      ∃ o', t.objects.heap 2 = some o' ∧ o'.owners = 3 := by
  have h := RcRun.nil (c := RcConfig.smallest)
  have h := h.step (show RcOp.listNew.Legal _ from trivial) rfl
  have h := h.step (show (RcOp.listReferences 1).Legal _ from
    ⟨.of_held (by decide) one_ne_zero, Or.inl rfl⟩) rfl
  have h := h.step (show (RcOp.newText [120]).Legal _ from trivial) rfl
  have h := h.step (show (RcOp.listAdd 1 2).Legal _ from ⟨.of_held (by decide) one_ne_zero,
    Or.inr ⟨⟨[], rfl⟩, .of_held (by decide) two_ne_zero⟩⟩) rfl
  have h := h.step (show (RcOp.listAdd 1 2).Legal _ from ⟨.of_held (by decide) one_ne_zero,
    Or.inr ⟨⟨[2], rfl⟩, .of_held (by decide) two_ne_zero⟩⟩) rfl
  have h := h.step (show RcOp.listNew.Legal _ from trivial) rfl
  have h := h.step (show (RcOp.listReferences 3).Legal _ from
    ⟨.of_held (by decide) three_ne_zero, Or.inl rfl⟩) rfl
  have h := h.step (show (RcOp.listAdd 3 2).Legal _ from ⟨.of_held (by decide) three_ne_zero,
    Or.inr ⟨⟨[], rfl⟩, .of_held (by decide) two_ne_zero⟩⟩) rfl
  have h := h.step (show (RcOp.release 1).Legal _ from Or.inr (Or.inr (by decide))) rfl
  exact ⟨_, _, h, ⟨.of_held (by decide) three_ne_zero, Or.inr ⟨[2], rfl⟩, Or.inl rfl⟩,
    .of_held (by decide) two_ne_zero, ⟨_, rfl, rfl⟩, ⟨_, rfl, rfl⟩, _, rfl, _, rfl, rfl⟩

end Minyar

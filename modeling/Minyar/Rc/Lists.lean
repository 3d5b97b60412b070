import Minyar.Library.Machine
import Minyar.Rc.Mutator

/-!
# The operations on Texts, Lists and records refine the ledger

Every lemma says that an operation that the protocol allows, when it does not stop the program, leads
to a state that refines the effect of the operation on the ledger.
-/

namespace Minyar

open CountedGraph

/-! ## Results -/

theorem RcState.modify_eq {s : RcState} {r : ℕ} {o : RcObject} (ho : s.objects.heap r = some o)
    (f : RcObject → RcObject) : s.modify r f = { s with objects := s.objects.write r (f o) } := by
  unfold RcState.modify RcObjects.modify
  rw [ho]

/-- An operation that returns no value has the outcome of what it does to the state. -/
theorem bind_rcVoid_eq_ok {x : Except String RcState} {r : ℕ × RcState} :
    (x >>= rcVoid) = .ok r ↔ ∃ s, x = .ok s ∧ r = (0, s) := by
  simp only [bind_eq_ok, rcVoid, Except.ok.injEq, eq_comm]

/-! ## What the program may use -/

namespace RcLedger

variable {L L' : RcLedger} {v w : ℕ}

/-- Reaching is monotone in the owners and in what the objects own. -/
theorem Reaches.mono (h : L.Reaches v) (howners : ∀ w ∈ L.owners, w ≠ 0 → L'.Reaches w)
    (hheap : ∀ r x, L.heap r = some x → ∃ x', L'.heap r = some x' ∧
      ∀ w ∈ x.slots, w ≠ 0 → w ∈ x'.slots) : L'.Reaches v := by
  induction h with
  | owner hv h0 => exact howners _ hv h0
  | slot _ hx hv h0 ih =>
    obtain ⟨x', hx', hslots⟩ := hheap _ _ hx
    exact .slot ih hx' (hslots _ hv h0) h0

theorem Usable.give (h : L.Usable v) (w : ℕ) : (L.give w).Usable v := by
  refine h.imp id (Or.imp id fun hv => hv.mono (fun r hr h0 => .owner ?_ h0) fun r x hx =>
    ⟨x, hx, fun _ hw _ => hw⟩)
  change r ∈ _ + (w ::ₘ L.held)
  rw [Multiset.add_cons]
  exact Multiset.mem_cons_of_mem hr

/-- The program may use a value that it holds an owner of. -/
theorem usable_give (L : RcLedger) (v : ℕ) : (L.give v).Usable v := by
  by_cases h0 : v = 0
  · exact Or.inl h0
  · refine Or.inr (Or.inr (.owner ?_ h0))
    change v ∈ _ + (v ::ₘ L.held)
    rw [Multiset.add_cons]
    exact Multiset.mem_cons_self _ _

end RcLedger

/-- What a replaced element counts for. -/
theorem count_set_add {l : List ℕ} {i : ℕ} (hi : i < l.length) (a r : ℕ) :
    (l.set i a).count r + [l.getD i 0].count r = l.count r + [a].count r := by
  induction l generalizing i with
  | nil => cases hi
  | cons b l ih =>
    cases i with
    | zero =>
      simp only [List.set_cons_zero, List.getD_cons_zero, List.count_cons, List.count_nil]
      omega
    | succ i =>
      have := ih (Nat.lt_of_succ_lt_succ hi)
      simp only [List.set_cons_succ, List.getD_cons_succ, List.count_cons] at this ⊢
      omega

namespace RcRefines

variable {s s' : RcState} {L : RcLedger} {q q' : RcQueues} {v : ℕ} {o : RcObject}

/-- What is not a Text is mortal. -/
theorem mortal (h : RcRefines s L q) (ho : s.objects.heap v = some o)
    (hv : v ∉ rcDead s.objects.active q) (hkind : o.kind ≠ .text) : o.owners ≠ 0 :=
  fun h0 => hkind ((h.inv.objects.cells v o ho).immortal hv h0).1

/-- A retain changes counts only. -/
theorem retain_heap (hs : minyarRcRetain s v = .ok s') :
    s'.objects.active = s.objects.active ∧ ∀ r o, s.objects.heap r = some o →
      ∃ n, s'.objects.heap r = some { o with owners := n } := by
  have hsame : s.objects.active = s.objects.active ∧ ∀ r o, s.objects.heap r = some o →
      ∃ n, s.objects.heap r = some { o with owners := n } := ⟨rfl, fun _ o ho => ⟨o.owners, ho⟩⟩
  unfold minyarRcRetain at hs
  split_ifs at hs with h0
  · cases hs
    exact hsame
  · rcases hv : s.objects.heap v with _ | x
    · rw [hv] at hs
      cases hs
      exact hsame
    · rw [hv] at hs
      simp only at hs
      split_ifs at hs
      · cases hs
        exact hsame
      · cases hs
        refine ⟨rfl, fun r o ho => ?_⟩
        by_cases hr : r = v
        · subst hr
          rw [ho] at hv
          cases hv
          exact ⟨_, RcObjects.write_heap_self _ _ _⟩
        · exact ⟨o.owners, (RcObjects.write_heap_of_ne _ _ hr).trans ho⟩

/-! ## Lists -/

/-- Writing the fields of a List. -/
theorem writeList (h : RcRefines s L q) (ho : s.objects.heap v = some o)
    (hv : v ∉ rcDead s.objects.active q)
    (hkind : o.kind = .list ∨ o.kind = .references ∨ o.kind = .referencesImmortal)
    {o' : RcObject}
    (hkind' : o'.kind = .list ∨ o'.kind = .references ∨ o'.kind = .referencesImmortal)
    (howners : o'.owners = o.owners) (hlength : o'.values.length ≤ o'.capacity)
    (hcapacity : o'.capacity < 2 ^ 64)
    (hmembers : o'.kind = .referencesImmortal → ∀ w ∈ o'.values, ∀ t,
      s.objects.heap w = some t → w ∉ rcDead s.objects.active q ∧ t.owners = 0)
    {held : Multiset ℕ}
    (hslots : ∀ r, r ≠ 0 → o'.slots.count r + held.count r = o.slots.count r + L.held.count r) :
    RcRefines { s with objects := s.objects.write v o' }
      { L with heap := Function.update L.heap v (some o'.contents), held := held } q := by
  have hmortal := h.mortal ho hv (by rcases hkind with h | h | h <;> simp [h])
  refine h.write ho hv hmortal howners ?_ ?_ hslots
  · refine ⟨?_, hlength.trans_lt hcapacity, fun _ _ _ => ⟨hlength, hcapacity⟩, ?_,
      fun _ h0 => absurd (howners.symm.trans h0) hmortal, fun hr => absurd hr hv, ?_,
      fun hk w hw t ht => ?_⟩
    · rcases hkind' with h | h | h <;> simp [h]
    · rcases hkind' with h | h | h <;> simp [h]
    · rcases hkind' with h | h | h <;> simp [h]
    · have hne : w ≠ v := by
        rintro rfl
        exact hmortal (hmembers hk w hw o ho).2
      rw [Function.update_of_ne hne] at ht
      exact hmembers hk w hw t ht
  · rcases hkind with h | h | h <;> simp [h]

/-- The contents of a List. -/
theorem contents_list (ho : L.heap v = some o.contents) {values : List ℕ}
    (hx : L.heap v = some (.list values)) : o.kind = .list ∧ o.values = values := by
  rw [ho] at hx
  unfold RcObject.contents at hx
  split at hx <;> simp_all

/-- The contents of a List of references. -/
theorem contents_references (ho : L.heap v = some o.contents) {values : List ℕ}
    (hx : L.heap v = some (.references values)) :
    (o.kind = .references ∨ o.kind = .referencesImmortal) ∧ o.values = values := by
  rw [ho] at hx
  unfold RcObject.contents at hx
  split at hx <;> simp_all

/-- The elements of a List of references that the program may use. -/
theorem usable_element (h : RcRefines s L q) (hv : L.Usable v) {values : List ℕ}
    (hx : L.heap v = some (.references values)) {w : ℕ} (hw : w ∈ values) : L.Usable w := by
  by_cases h0 : w = 0
  · exact Or.inl h0
  · rcases hv with hv | ⟨bytes, backing, himmortal⟩ | hv
    · exact absurd hv (h.bound v _ hx).1
    · rw [hx] at himmortal
      cases himmortal
    · exact Or.inr (Or.inr (.slot hv hx hw h0))

/-- A List that the program may use. -/
def IsList (L : RcLedger) (v : ℕ) : Prop :=
  (∃ values, L.heap v = some (.list values)) ∨ ∃ values, L.heap v = some (.references values)

/-- A List is an alive object with one of the kinds of Lists. -/
theorem exists_list (h : RcRefines s L q) (hv : L.Usable v) (hlist : IsList L v) :
    ∃ o, s.objects.heap v = some o ∧ v ∉ rcDead s.objects.active q ∧
      (o.kind = .list ∨ o.kind = .references ∨ o.kind = .referencesImmortal) ∧
      L.heap v = some o.contents := by
  rcases hlist with ⟨values, hx⟩ | ⟨values, hx⟩
  · obtain ⟨o, ho, hdead, hcontents⟩ := h.exists_of_usable hv hx
    rw [← hcontents] at hx
    exact ⟨o, ho, hdead, Or.inl (contents_list hx (hcontents ▸ hx)).1, hx⟩
  · obtain ⟨o, ho, hdead, hcontents⟩ := h.exists_of_usable hv hx
    rw [← hcontents] at hx
    exact ⟨o, ho, hdead, Or.inr (contents_references hx (hcontents ▸ hx)).1, hx⟩

/-- A write that changes neither the contents nor the owners does not show. -/
theorem rewriteList (h : RcRefines s L q) (ho : s.objects.heap v = some o)
    (hv : v ∉ rcDead s.objects.active q)
    (hkind : o.kind = .list ∨ o.kind = .references ∨ o.kind = .referencesImmortal)
    {o' : RcObject}
    (hkind' : o'.kind = .list ∨ o'.kind = .references ∨ o'.kind = .referencesImmortal)
    (howners : o'.owners = o.owners) (hlength : o'.values.length ≤ o'.capacity)
    (hcapacity : o'.capacity < 2 ^ 64)
    (hmembers : o'.kind = .referencesImmortal → ∀ w ∈ o'.values, ∀ t,
      s.objects.heap w = some t → w ∉ rcDead s.objects.active q ∧ t.owners = 0)
    (hslots : o'.slots = o.slots) (hcontents : o'.contents = o.contents) :
    RcRefines { s with objects := s.objects.write v o' } L q := by
  have hwrite := @writeList s L q v o h ho hv hkind o' hkind' howners hlength hcapacity hmembers
    L.held (fun r _ => by rw [hslots])
  rw [hcontents, ← h.heap v o ho hv, Function.update_eq_self] at hwrite
  exact hwrite

/-- Lists with the same contents have the same elements. -/
theorem list_values {o o' : RcObject}
    (hkind : o.kind = .list ∨ o.kind = .references ∨ o.kind = .referencesImmortal)
    (hkind' : o'.kind = .list ∨ o'.kind = .references ∨ o'.kind = .referencesImmortal)
    (h : o'.contents = o.contents) : o'.values = o.values := by
  rcases hkind with hk | hk <;> rcases hkind' with hk' | hk'
  · rw [RcObject.contents_of_list hk, RcObject.contents_of_list hk'] at h
    exact RcContents.list.inj h
  · rw [RcObject.contents_of_list hk, RcObject.contents_of_references hk'] at h
    cases h
  · rw [RcObject.contents_of_references hk, RcObject.contents_of_list hk'] at h
    cases h
  · rw [RcObject.contents_of_references hk, RcObject.contents_of_references hk'] at h
    exact RcContents.references.inj h

/-- The elements of a List fit its capacity. -/
theorem list_capacity (h : RcRefines s L q) (ho : s.objects.heap v = some o)
    (hv : v ∉ rcDead s.objects.active q)
    (hkind : o.kind = .list ∨ o.kind = .references ∨ o.kind = .referencesImmortal) :
    o.values.length ≤ o.capacity ∧ o.capacity < 2 ^ 64 :=
  (h.inv.objects.cells v o ho).capacity hv (by rcases hkind with h | h | h <;> simp [h])
    (by rcases hkind with h | h | h <;> simp [h])

/-- Growing adds places. -/
theorem lt_grownCapacity (c : RcConfig) (capacity : ℕ) : capacity < grownCapacity c capacity := by
  unfold grownCapacity
  split_ifs <;> omega

/-- Growing a List does not show. -/
theorem listGrow (h : RcRefines s L q) (c : RcConfig) (hv : L.Usable v) (hlist : IsList L v)
    (hs : Minyar.listGrow c s v = .ok s') : ∃ q', RcRefines s' L q' ∧
      ∃ o, s'.objects.heap v = some o ∧ o.values.length < o.capacity := by
  obtain ⟨o, ho, hdead, hkind, hcontents⟩ := h.exists_list hv hlist
  have hfits := h.list_capacity ho hdead hkind
  unfold Minyar.listGrow at hs
  rw [ho] at hs
  simp only at hs
  split_ifs at hs with hstop
  cases hs
  obtain ⟨q', h'⟩ := h.servicePending c c.pollBudget
  obtain ⟨o', ho', hdead', hkind', hcontents'⟩ := h'.exists_list hv hlist
  rw [RcState.modify_eq ho']
  have hvalues : o'.values = o.values :=
    list_values hkind hkind' (Option.some.inj (hcontents'.symm.trans hcontents))
  have hlength : o'.values.length < grownCapacity c o.capacity := by
    rw [hvalues]
    exact hfits.1.trans_lt (lt_grownCapacity c o.capacity)
  refine ⟨q', h'.rewriteList ho' hdead' hkind' hkind' rfl hlength.le ?_ ?_ rfl rfl, _,
    RcObjects.write_heap_self _ _ _, hlength⟩
  · simp only [not_or, not_lt] at hstop
    have := hstop.2.2
    change grownCapacity c o.capacity < 2 ^ 64
    omega
  · exact (h'.inv.objects.cells v o' ho').members

/-- Making room in a List does not show. -/
theorem listEnsure (h : RcRefines s L q) (c : RcConfig) (hv : L.Usable v) (hlist : IsList L v)
    (hs : Minyar.listEnsure c s v = .ok s') : ∃ q', RcRefines s' L q' ∧
      ∃ o, s'.objects.heap v = some o ∧ o.values.length < o.capacity := by
  obtain ⟨o, ho, hdead, hkind, -⟩ := h.exists_list hv hlist
  have hfits := h.list_capacity ho hdead hkind
  unfold Minyar.listEnsure at hs
  rw [ho] at hs
  simp only at hs
  split_ifs at hs with hfull
  · exact h.listGrow c hv hlist hs
  · cases hs
    exact ⟨q, h, o, ho, lt_of_le_of_ne hfits.1 hfull⟩

/-- So does growing it until it has a capacity. -/
theorem listGrowTo (h : RcRefines s L q) (c : RcConfig) (hv : L.Usable v) (hlist : IsList L v)
    {capacity fuel : ℕ} (hs : Minyar.listGrowTo c v capacity fuel s = .ok s') :
    ∃ q', RcRefines s' L q' := by
  induction fuel generalizing s q with
  | zero =>
    cases hs
    exact ⟨q, h⟩
  | succ fuel ih =>
    obtain ⟨o, ho, -⟩ := h.exists_list hv hlist
    rw [Minyar.listGrowTo, ho] at hs
    simp only at hs
    split_ifs at hs
    · obtain ⟨s₁, hs₁, hs⟩ := bind_eq_ok.mp hs
      obtain ⟨q₁, h₁, -⟩ := h.listGrow c hv hlist hs₁
      exact ih h₁ hs
    · cases hs
      exact ⟨q, h⟩

/-- The kind for a stored value holds no mortal member when it says so. -/
theorem listStoreKind_members (h : RcRefines s L q)
    (hkind : o.kind = .references ∨ o.kind = .referencesImmortal) {w : ℕ} (hw : L.Usable w) :
    (listStoreKind s.objects w o.kind = .references ∨
      listStoreKind s.objects w o.kind = .referencesImmortal) ∧
    (listStoreKind s.objects w o.kind = .referencesImmortal →
      o.kind = .referencesImmortal ∧ (w = 0 ∨ L.Immortal w)) := by
  unfold listStoreKind
  split_ifs with hmortal
  · exact ⟨Or.inl rfl, fun hk => by cases hk⟩
  · refine ⟨hkind, fun hk => ⟨hk, ?_⟩⟩
    rcases h.usable hw with hw0 | ⟨t, ht, hdead, -⟩
    · exact Or.inl hw0
    · by_cases h0 : t.owners = 0
      · exact Or.inr (h.immortal_of_owners ht hdead h0)
      · refine absurd ⟨hk, h.inv.objects.ne_zero ht, ?_⟩ hmortal
        unfold RcObjects.mortal
        rw [ht]
        exact decide_eq_true h0

/-- Marking the kind for a stored value does not show. -/
theorem storeKind (h : RcRefines s L q) (ho : s.objects.heap v = some o)
    (hv : v ∉ rcDead s.objects.active q)
    (hkind : o.kind = .references ∨ o.kind = .referencesImmortal) {w : ℕ} (hw : L.Usable w) :
    RcRefines (s.modify v fun object =>
      { object with kind := listStoreKind s.objects w o.kind }) L q := by
  obtain ⟨hkind', hmembers⟩ := h.listStoreKind_members hkind hw
  have hfits := h.list_capacity ho hv (Or.inr hkind)
  rw [RcState.modify_eq ho]
  refine h.rewriteList ho hv (Or.inr hkind) (Or.inr hkind') rfl hfits.1 hfits.2 ?_ ?_ ?_
  · intro hk
    exact (h.inv.objects.cells v o ho).members (hmembers hk).1
  · rw [RcObject.slots_of_references hkind', RcObject.slots_of_references hkind]
  · rw [RcObject.contents_of_references hkind, RcObject.contents_of_references hkind']

/-- A stored value makes no member of a List of immortal references mortal. -/
theorem stored_members (h : RcRefines s L q) (ho : s.objects.heap v = some o) {w : ℕ}
    (hw : o.kind = .referencesImmortal → w = 0 ∨ L.Immortal w)
    (hk : o.kind = .referencesImmortal) {x : ℕ} (hx : x = w ∨ x ∈ o.values) {t : RcObject}
    (ht : s.objects.heap x = some t) : x ∉ rcDead s.objects.active q ∧ t.owners = 0 := by
  rcases hx with rfl | hx
  · rcases hw hk with rfl | himmortal
    · rw [h.inv.objects.heap_zero] at ht
      cases ht
    · obtain ⟨t', ht', hdead, h0⟩ := h.immortal x himmortal
      rw [ht] at ht'
      cases ht'
      exact ⟨hdead, h0⟩
  · exact (h.inv.objects.cells v o ho).members hk x hx t ht

/-- Adding a value to a List of references uses up an owner. -/
theorem append_references {w : ℕ} (h : RcRefines s (L.give w) q)
    (ho : s.objects.heap v = some o) (hv : v ∉ rcDead s.objects.active q)
    (hkind : o.kind = .references ∨ o.kind = .referencesImmortal)
    (hlength : o.values.length < o.capacity)
    (hw : o.kind = .referencesImmortal → w = 0 ∨ L.Immortal w) :
    RcRefines (s.append v w) (L.write v (.references (o.values ++ [w]))) q := by
  have hfits := h.list_capacity ho hv (Or.inr hkind)
  unfold RcState.append
  rw [RcState.modify_eq ho]
  have hcontents : ({ o with values := o.values ++ [w] } : RcObject).contents =
      .references (o.values ++ [w]) := RcObject.contents_of_references hkind
  have hwrite := @writeList s (L.give w) q v o h ho hv (Or.inr hkind)
    { o with values := o.values ++ [w] } (Or.inr hkind) rfl
    (by simpa using Nat.succ_le_of_lt hlength) hfits.2 (fun hk x hx t ht => ?_) L.held (fun r _ => ?_)
  · rw [hcontents] at hwrite
    exact hwrite
  · refine h.stored_members ho hw hk ?_ ht
    rcases List.mem_append.mp hx with hx | hx
    · exact Or.inr hx
    · exact Or.inl (List.mem_singleton.mp hx)
  · have hslots : ({ o with values := o.values ++ [w] } : RcObject).slots = o.values ++ [w] :=
      RcObject.slots_of_references hkind
    rw [hslots, RcObject.slots_of_references hkind, List.count_append,
      show (L.give w).held = w ::ₘ L.held from rfl, count_cons]
    omega

/-- Adding a value to a List of plain values. -/
theorem append_list (h : RcRefines s L q) (ho : s.objects.heap v = some o)
    (hv : v ∉ rcDead s.objects.active q) (hkind : o.kind = .list)
    (hlength : o.values.length < o.capacity) (w : ℕ) :
    RcRefines (s.append v w) (L.write v (.list (o.values ++ [w]))) q := by
  have hfits := h.list_capacity ho hv (Or.inl hkind)
  unfold RcState.append
  rw [RcState.modify_eq ho]
  have hwrite := @writeList s L q v o h ho hv (Or.inl hkind)
    { o with values := o.values ++ [w] } (Or.inl hkind) rfl
    (by simpa using Nat.succ_le_of_lt hlength) hfits.2 (fun hk => ?_) L.held (fun r _ => ?_)
  · rw [RcObject.contents_of_list (o := { o with values := o.values ++ [w] }) hkind] at hwrite
    exact hwrite
  · change o.kind = _ at hk
    rw [hkind] at hk
    cases hk
  · simp [RcObject.slots, hkind]

/-- Replacing an element of a List of references exchanges owners. -/
theorem set_references {w i : ℕ} (h : RcRefines s (L.give w) q)
    (ho : s.objects.heap v = some o) (hv : v ∉ rcDead s.objects.active q)
    (hkind : o.kind = .references ∨ o.kind = .referencesImmortal) (hi : i < o.values.length)
    (hw : o.kind = .referencesImmortal → w = 0 ∨ L.Immortal w) :
    RcRefines (s.modify v fun object => { object with values := object.values.set i w })
      ((L.write v (.references (o.values.set i w))).give (o.values.getD i 0)) q := by
  have hfits := h.list_capacity ho hv (Or.inr hkind)
  rw [RcState.modify_eq ho]
  have hcontents : ({ o with values := o.values.set i w } : RcObject).contents =
      .references (o.values.set i w) := RcObject.contents_of_references hkind
  have hwrite := @writeList s (L.give w) q v o h ho hv (Or.inr hkind)
    { o with values := o.values.set i w } (Or.inr hkind) rfl
    (by simpa using hfits.1) hfits.2 (fun hk x hx t ht => ?_)
    (o.values.getD i 0 ::ₘ L.held) (fun r _ => ?_)
  · rw [hcontents] at hwrite
    exact hwrite
  · exact h.stored_members ho hw hk (List.mem_or_eq_of_mem_set hx).symm ht
  · have hslots : ({ o with values := o.values.set i w } : RcObject).slots = o.values.set i w :=
      RcObject.slots_of_references hkind
    have hset := count_set_add hi w r
    rw [hslots, RcObject.slots_of_references hkind,
      show (L.give w).held = w ::ₘ L.held from rfl, count_cons, count_cons]
    omega

/-- Replacing an element of a List of plain values. -/
theorem set_list (h : RcRefines s L q) (ho : s.objects.heap v = some o)
    (hv : v ∉ rcDead s.objects.active q) (hkind : o.kind = .list) (i w : ℕ) :
    RcRefines (s.modify v fun object => { object with values := object.values.set i w })
      (L.write v (.list (o.values.set i w))) q := by
  have hfits := h.list_capacity ho hv (Or.inl hkind)
  rw [RcState.modify_eq ho]
  have hwrite := @writeList s L q v o h ho hv (Or.inl hkind)
    { o with values := o.values.set i w } (Or.inl hkind) rfl
    (by simpa using hfits.1) hfits.2 (fun hk => ?_) L.held (fun r _ => ?_)
  · rw [RcObject.contents_of_list (o := { o with values := o.values.set i w }) hkind] at hwrite
    exact hwrite
  · change o.kind = _ at hk
    rw [hkind] at hk
    cases hk
  · simp [RcObject.slots, hkind]

/-- An owner of a value that the program may give away is an owner of a value it may use. -/
theorem usable_of_owned (hv : L.Owned v) : L.Usable v := by
  rcases hv with hv | hv | hv
  · exact Or.inl hv
  · exact Or.inr (Or.inl hv)
  · by_cases h0 : v = 0
    · exact Or.inl h0
    · exact .of_held hv h0

theorem isList_of_takes {p : Prop} (h : L.ListTakes v p) : IsList L v := h.imp id And.left

/-- The value that an addition stores and the kind that it leaves. -/
theorem storeKind_owner (h : RcRefines s L q) (ho : s.objects.heap v = some o)
    (hv : v ∉ rcDead s.objects.active q)
    (hkind : o.kind = .references ∨ o.kind = .referencesImmortal) {w : ℕ} (hw : L.Usable w)
    (hs : (if listStoreKind s.objects w o.kind = .references then
        minyarRcRetain (s.modify v fun object =>
          { object with kind := listStoreKind s.objects w o.kind }) w
      else .ok (s.modify v fun object =>
        { object with kind := listStoreKind s.objects w o.kind })) = .ok s') :
    RcRefines s' (L.give w) q ∧ ∃ n, s'.objects.heap v =
      some { o with kind := listStoreKind s.objects w o.kind, owners := n } := by
  have hstore := h.storeKind ho hv hkind hw
  have hself : (s.modify v fun object =>
      { object with kind := listStoreKind s.objects w o.kind }).objects.heap v =
        some { o with kind := listStoreKind s.objects w o.kind } := by
    rw [RcState.modify_eq ho]
    exact RcObjects.write_heap_self _ _ _
  split_ifs at hs with hk
  · exact ⟨hstore.retain hw hs, (retain_heap hs).2 v _ hself⟩
  · cases hs
    obtain ⟨hkinds, hmembers⟩ := h.listStoreKind_members hkind hw
    exact ⟨(give_iff (hmembers (hkinds.resolve_left hk)).2).mpr hstore, o.owners, hself⟩

/-- A List of references that a value and a new owner of it were stored in. -/
theorem append_stored (h : RcRefines s L q) (ho : s.objects.heap v = some o)
    (hdead : v ∉ rcDead s.objects.active q) (hv : L.Usable v)
    (hkind : o.kind = .references ∨ o.kind = .referencesImmortal)
    (hcontents : L.heap v = some o.contents) (hroom : o.values.length < o.capacity) {w : ℕ}
    (hw : L.Usable w)
    (hs : (if listStoreKind s.objects w o.kind = .references then
        minyarRcRetain (s.modify v fun object =>
          { object with kind := listStoreKind s.objects w o.kind }) w
      else .ok (s.modify v fun object =>
        { object with kind := listStoreKind s.objects w o.kind })) = .ok s') :
    RcRefines (s'.append v w) (L.addToList v w) q := by
  have hx : L.heap v = some (.references o.values) :=
    hcontents.trans (congrArg _ (RcObject.contents_of_references hkind))
  obtain ⟨h₂, n, hn⟩ := h.storeKind_owner ho hdead hkind hw hs
  obtain ⟨o₂, ho₂, hdead₂, -⟩ := h₂.exists_list (hv.give w) (Or.inr ⟨_, hx⟩)
  rw [hn] at ho₂
  cases ho₂
  obtain ⟨hkinds, hmembers⟩ := h.listStoreKind_members hkind hw
  have happend := h₂.append_references hn hdead₂ hkinds hroom fun hk => (hmembers hk).2
  unfold RcLedger.addToList
  rw [hx]
  exact happend

/-- A List of references that a value was stored in, with the owner that the program gave away. -/
theorem append_taken (h : RcRefines s L q) (ho : s.objects.heap v = some o)
    (hdead : v ∉ rcDead s.objects.active q)
    (hkind : o.kind = .references ∨ o.kind = .referencesImmortal)
    (hcontents : L.heap v = some o.contents) (hroom : o.values.length < o.capacity) {w : ℕ}
    (hw : L.Owned w) :
    RcRefines ((s.modify v fun object =>
        { object with kind := listStoreKind s.objects w o.kind }).append v w)
      ((L.takeForList v w).addToList v w) q := by
  have hx : L.heap v = some (.references o.values) :=
    hcontents.trans (congrArg _ (RcObject.contents_of_references hkind))
  obtain ⟨hkinds, hmembers⟩ := h.listStoreKind_members hkind (usable_of_owned hw)
  have h₂ := (h.storeKind ho hdead hkind (usable_of_owned hw)).take hw
  rw [RcState.modify_eq ho] at h₂ ⊢
  have himmortal : listStoreKind s.objects w o.kind = .referencesImmortal →
      w = 0 ∨ (L.take w).Immortal w := fun hk => (hmembers hk).2
  have happend := h₂.append_references (RcObjects.write_heap_self _ _ _) hdead hkinds hroom himmortal
  unfold RcLedger.takeForList RcLedger.addToList
  simp only [hx]
  rw [show (L.take w).heap v = some (.references o.values) from hx]
  exact happend

/-- What an addition does after it has made room: a List of plain values gets the value, a List of
references gets it with the kind that it asks for and an owner, and then pending work is served. -/
theorem listAdd_cases (h : RcRefines s L q) (c : RcConfig) {w : ℕ} (hv : L.Usable v)
    (hlist : L.ListTakes v (L.Usable w)) (hs : minyarListAdd c s v w = .ok s') :
    ∃ s₁ s₂, Minyar.listEnsure c s v = .ok s₁ ∧
      (∃ q₁, RcRefines (s₂.append v w) (L.addToList v w) q₁) ∧
      ((∃ values, L.heap v = some (.list values)) ∧ s₂ = s₁ ∧ s' = s₁.append v w ∨
        (∃ values, L.heap v = some (.references values)) ∧
          (∃ kind, (if kind = .references then
              minyarRcRetain (s₁.modify v fun object => { object with kind := kind }) w
            else .ok (s₁.modify v fun object => { object with kind := kind })) = .ok s₂) ∧
          s' = rcServicePending c (s₂.append v w) c.pollBudget) := by
  obtain ⟨s₁, hs₁, hs⟩ := bind_eq_ok.mp hs
  obtain ⟨q₁, h₁, o, ho, hroom⟩ := h.listEnsure c hv (isList_of_takes hlist) hs₁
  obtain ⟨o', ho', hdead, -, hcontents⟩ := h₁.exists_list hv (isList_of_takes hlist)
  rw [ho] at ho' hs
  cases ho'
  simp only at hs
  rcases hlist with ⟨values, hx⟩ | ⟨⟨values, hx⟩, hw⟩
  · obtain ⟨hkind, rfl⟩ := contents_list hcontents hx
    rw [if_pos hkind] at hs
    cases hs
    refine ⟨s₁, s₁, hs₁, ⟨q₁, ?_⟩, Or.inl ⟨⟨_, hx⟩, rfl, rfl⟩⟩
    unfold RcLedger.addToList
    rw [hx]
    exact h₁.append_list ho hdead hkind hroom w
  · obtain ⟨hkind, rfl⟩ := contents_references hcontents hx
    rw [if_neg (by rcases hkind with hk | hk <;> simp [hk])] at hs
    obtain ⟨s₂, hs₂, hs⟩ := bind_eq_ok.mp hs
    cases hs
    exact ⟨s₁, s₂, hs₁, ⟨q₁, h₁.append_stored ho hdead hv hkind hcontents hroom hw hs₂⟩,
      Or.inr ⟨⟨_, hx⟩, ⟨_, hs₂⟩, rfl⟩⟩

/-- So does an addition that takes over an owner. -/
theorem listAddTake_cases (h : RcRefines s L q) (c : RcConfig) {w : ℕ} (hv : L.Usable v)
    (hlist : L.ListTakes v (L.Owned w)) (hs : minyarListAddTake c s v w = .ok s') :
    ∃ s₁ s₂, Minyar.listEnsure c s v = .ok s₁ ∧
      (∃ q₁, RcRefines (s₂.append v w) ((L.takeForList v w).addToList v w) q₁) ∧
      (s₂ = s₁ ∧ s' = s₁.append v w ∨
        (∃ kind, s₂ = s₁.modify v fun object => { object with kind := kind }) ∧
          s' = rcServicePending c (s₂.append v w) c.pollBudget) := by
  obtain ⟨s₁, hs₁, hs⟩ := bind_eq_ok.mp hs
  obtain ⟨q₁, h₁, o, ho, hroom⟩ := h.listEnsure c hv (isList_of_takes hlist) hs₁
  obtain ⟨o', ho', hdead, -, hcontents⟩ := h₁.exists_list hv (isList_of_takes hlist)
  rw [ho] at ho' hs
  cases ho'
  simp only at hs
  rcases hlist with ⟨values, hx⟩ | ⟨⟨values, hx⟩, hw⟩
  · obtain ⟨hkind, rfl⟩ := contents_list hcontents hx
    rw [if_pos hkind] at hs
    cases hs
    refine ⟨s₁, s₁, hs₁, ⟨q₁, ?_⟩, Or.inl ⟨rfl, rfl⟩⟩
    unfold RcLedger.takeForList RcLedger.addToList
    simp only [hx]
    exact h₁.append_list ho hdead hkind hroom w
  · obtain ⟨hkind, rfl⟩ := contents_references hcontents hx
    rw [if_neg (by rcases hkind with hk | hk <;> simp [hk])] at hs
    cases hs
    exact ⟨s₁, _, hs₁, ⟨q₁, h₁.append_taken ho hdead hkind hcontents hroom hw⟩,
      Or.inr ⟨⟨_, rfl⟩, rfl⟩⟩

/-- Adding a value to a List. -/
theorem listAdd (h : RcRefines s L q) (c : RcConfig) {w : ℕ} (hv : L.Usable v)
    (hlist : L.ListTakes v (L.Usable w)) (hs : minyarListAdd c s v w = .ok s') :
    ∃ q', RcRefines s' (L.addToList v w) q' := by
  obtain ⟨s₁, s₂, -, ⟨q₁, h₁⟩, ⟨-, rfl, rfl⟩ | ⟨-, -, rfl⟩⟩ := h.listAdd_cases c hv hlist hs
  · exact ⟨q₁, h₁⟩
  · exact h₁.servicePending c _

/-- Adding a value to a List, which takes over an owner. -/
theorem listAddTake (h : RcRefines s L q) (c : RcConfig) {w : ℕ} (hv : L.Usable v)
    (hlist : L.ListTakes v (L.Owned w)) (hs : minyarListAddTake c s v w = .ok s') :
    ∃ q', RcRefines s' ((L.takeForList v w).addToList v w) q' := by
  obtain ⟨s₁, s₂, -, ⟨q₁, h₁⟩, ⟨rfl, rfl⟩ | ⟨-, rfl⟩⟩ := h.listAddTake_cases c hv hlist hs
  · exact ⟨q₁, h₁⟩
  · exact h₁.servicePending c _

/-- What a replacement does: the List gets the kind that the value asks for, an owner of the value
that is new or was given away, and the value; a List with mortal members then releases the element
that was there. -/
theorem listSetOwned_cases (h : RcRefines s L q) (c : RcConfig) {w : ℕ} {position : ℤ}
    {retainValue : Bool} (hv : L.Usable v)
    (hlist : L.ListTakes v (if retainValue then L.Usable w else L.Owned w))
    (hs : minyarListSetOwned c s v position w retainValue = .ok s') :
    ∃ kind s₁, (s₁ = s.modify v (fun object => { object with kind := kind }) ∨ L.Usable w ∧
        minyarRcRetain (s.modify v fun object => { object with kind := kind }) w = .ok s₁) ∧
      ((∃ q', RcRefines (s₁.modify v fun object =>
          { object with values := object.values.set position.toNat w })
            ((if retainValue then L else L.takeForList v w).setInList v position.toNat w) q') ∧
          s' = s₁.modify v (fun object =>
            { object with values := object.values.set position.toNat w }) ∨
        ∃ previous, (∃ q', RcRefines (s₁.modify v fun object =>
            { object with values := object.values.set position.toNat w })
              (((if retainValue then L else L.takeForList v w).setInList v position.toNat w).give
                previous) q') ∧
          s' = minyarRcRelease c (s₁.modify v fun object =>
            { object with values := object.values.set position.toNat w }) previous) := by
  obtain ⟨o, ho, hdead, -, hcontents⟩ := h.exists_list hv (isList_of_takes hlist)
  unfold minyarListSetOwned at hs
  rw [ho] at hs
  simp only at hs
  by_cases hposition : position < 0 ∨ (o.values.length : ℤ) ≤ position
  · rw [if_pos hposition] at hs
    cases hs
  rw [if_neg hposition] at hs
  have hi : position.toNat < o.values.length := by omega
  -- The ledger when the owner of the value is in the hands of the program.
  generalize hM' : (if retainValue then L else L.takeForList v w) = M
  have hM : M.heap = L.heap := by
    subst hM'
    unfold RcLedger.takeForList
    split
    · rfl
    · split <;> rfl
  rcases hlist with ⟨values, hx⟩ | ⟨⟨values, hx⟩, howner⟩
  · -- A List of plain values.
    obtain ⟨hkind, rfl⟩ := contents_list hcontents hx
    have hstore : listStoreKind s.objects w o.kind = .list := by
      simp [listStoreKind, hkind]
    rw [hstore, if_neg (by simp)] at hs
    cases hs
    obtain rfl : L = M := by
      rw [← hM']
      unfold RcLedger.takeForList
      simp only [hx, ite_self]
    refine ⟨_, _, Or.inl rfl, Or.inl ⟨⟨q, ?_⟩, rfl⟩⟩
    have hsame : (s.modify v fun object => { object with kind := .list }) = s := by
      rw [RcState.modify_eq ho]
      have hself : ({ o with kind := .list } : RcObject) = o := by
        cases o
        cases hkind
        rfl
      rw [hself]
      unfold RcObjects.write
      rw [show Function.update s.objects.heap v (some o) = s.objects.heap by
        rw [← ho, Function.update_eq_self]]
    rw [hsame]
    unfold RcLedger.setInList
    rw [hx]
    exact h.set_list ho hdead hkind _ w
  · obtain ⟨hkind, rfl⟩ := contents_references hcontents hx
    have hw : L.Usable w := by
      split_ifs at howner
      · exact howner
      · exact usable_of_owned howner
    have htakes : L.takeForList v w = L.take w := by
      unfold RcLedger.takeForList
      rw [hx]
    obtain ⟨hkinds, hmembers⟩ := h.listStoreKind_members hkind hw
    have hstore := h.storeKind ho hdead hkind hw
    set k := listStoreKind s.objects w o.kind with hk
    have hself : (s.modify v fun object => { object with kind := k }).objects.heap v =
        some { o with kind := k } := by
      rw [RcState.modify_eq ho]
      exact RcObjects.write_heap_self _ _ _
    have hset : M.setInList v position.toNat w =
        M.write v (.references (o.values.set position.toNat w)) := by
      unfold RcLedger.setInList
      rw [hM, hx]
    rw [hset]
    have hdead' : v ∉ rcDead (s.modify v fun object => { object with kind := k }).objects.active q := by
      rw [RcState.modify_eq ho]
      exact hdead
    by_cases hreferences : k = .references
    · rw [if_pos hreferences] at hs
      obtain ⟨s₂, hs₂, hs⟩ := bind_eq_ok.mp hs
      cases hs
      -- The owner of the value is in the hands of the program.
      have howner : RcRefines s₂ (M.give w) q ∧ v ∉ rcDead s₂.objects.active q ∧
          ∃ n, s₂.objects.heap v = some { o with kind := k, owners := n } := by
        cases retainValue with
        | true =>
          obtain rfl : L = M := hM'
          obtain ⟨hactive, hheap⟩ := retain_heap hs₂
          exact ⟨hstore.retain hw hs₂, hactive ▸ hdead', hheap v _ hself⟩
        | false =>
          obtain rfl : L.take w = M := htakes.symm.trans hM'
          rw [if_neg (by simp)] at hs₂
          cases hs₂
          exact ⟨hstore.take howner, hdead', o.owners, hself⟩
      obtain ⟨h₂, hdead₂, n, hn⟩ := howner
      have hreplaced := h₂.set_references hn hdead₂ hkinds hi fun hk' => by
        rw [hreferences] at hk'
        cases hk'
      refine ⟨k, s₂, ?_, Or.inr ⟨_, ⟨q, hreplaced⟩, rfl⟩⟩
      cases retainValue with
      | true => exact Or.inr ⟨hw, hs₂⟩
      | false =>
        rw [if_neg (by simp)] at hs₂
        cases hs₂
        exact Or.inl rfl
    · rw [if_neg hreferences] at hs
      cases hs
      obtain ⟨himmortal, hfree⟩ := hmembers (hkinds.resolve_left hreferences)
      have h₂ : RcRefines (s.modify v fun object => { object with kind := k }) (M.give w) q := by
        cases retainValue with
        | true =>
          obtain rfl : L = M := hM'
          exact (give_iff hfree).mpr hstore
        | false =>
          obtain rfl : L.take w = M := htakes.symm.trans hM'
          exact hstore.take howner
      have hset := h₂.set_references hself hdead' hkinds hi fun _ => by
        refine hfree.imp id fun ⟨bytes, backing, hb⟩ => ⟨bytes, backing, ?_⟩
        rw [hM]
        exact hb
      -- The replaced element has no owner to give back.
      refine ⟨k, _, Or.inl rfl, Or.inl ⟨⟨q, (give_iff ?_).mp hset⟩, rfl⟩⟩
      have hmem : o.values.getD position.toNat 0 ∈ o.values := by
        rw [List.getD_eq_getElem _ _ hi]
        exact List.getElem_mem hi
      rcases h.usable (h.usable_element hv hx hmem) with h0 | ⟨t, ht, htdead, -⟩
      · exact Or.inl h0
      · have hmember := (h.inv.objects.cells v o ho).members himmortal _ hmem t ht
        obtain ⟨bytes, backing, hb⟩ := h.immortal_of_owners ht hmember.1 hmember.2
        refine Or.inr ⟨bytes, backing, ?_⟩
        change Function.update M.heap v _ _ = _
        rw [hM, Function.update_of_ne ?_]
        · exact hb
        · intro heq
          rw [heq, hx] at hb
          cases hb

/-- Replacing an element of a List. -/
theorem listSetOwned (h : RcRefines s L q) (c : RcConfig) {w : ℕ} {position : ℤ}
    {retainValue : Bool} (hv : L.Usable v)
    (hlist : L.ListTakes v (if retainValue then L.Usable w else L.Owned w))
    (hs : minyarListSetOwned c s v position w retainValue = .ok s') : ∃ q', RcRefines s'
      ((if retainValue then L else L.takeForList v w).setInList v position.toNat w) q' := by
  obtain ⟨kind, s₁, -, ⟨hset, rfl⟩ | ⟨previous, ⟨q₁, hset⟩, rfl⟩⟩ :=
    h.listSetOwned_cases c hv hlist hs
  · exact hset
  · exact hset.release c

/-- Replacing an element of a List, which takes a new owner. -/
theorem listSet (h : RcRefines s L q) (c : RcConfig) {w : ℕ} {position : ℤ} (hv : L.Usable v)
    (hlist : L.ListTakes v (L.Usable w)) (hs : minyarListSet c s v position w = .ok s') :
    ∃ q', RcRefines s' (L.setInList v position.toNat w) q' :=
  @listSetOwned s s' L q v h c w position true hv hlist hs

/-- Replacing an element of a List, which takes over an owner. -/
theorem listSetTake (h : RcRefines s L q) (c : RcConfig) {w : ℕ} {position : ℤ}
    (hv : L.Usable v) (hlist : L.ListTakes v (L.Owned w))
    (hs : minyarListSetTake c s v position w = .ok s') :
    ∃ q', RcRefines s' ((L.takeForList v w).setInList v position.toNat w) q' :=
  @listSetOwned s s' L q v h c w position false hv hlist hs

end RcRefines

end Minyar

import Minyar.Rc.Counts

/-!
# Room in a List and the stops of additions

A List grows by fixed steps until it has the largest storage that it may have.  Service of pending
work keeps the storage of what is alive, so a List that has been grown for its values does not grow
again while they are added; an addition then stops only at a value that has all the owners that a
count can hold.
-/

namespace Minyar

/-! ## Capacities -/

/-- The largest capacity that a List can grow to. -/
def listLimit (c : RcConfig) : ℕ := if c.boundedHeap then 2 ^ 61 - 1 else 2 ^ 60

/-- The capacities that growth gives. -/
def ListCapacity (c : RcConfig) (capacity : ℕ) : Prop :=
  capacity = 0 ∨
    if c.boundedHeap then ∃ n, 2 ≤ n ∧ n ≤ 61 ∧ capacity = 2 ^ n - 1
    else ∃ n, 1 ≤ n ∧ n ≤ 60 ∧ (12 ≤ n → n % 2 = 0) ∧ capacity = 2 ^ n

/-- The message of a List that has the largest storage. -/
def listTooLarge : String := "this List became too large."

/-- The message of a value that has all the owners that a count can hold. -/
def tooManyReferences : String := "this value has too many references."

/-- The largest count of owners. -/
def ownerLimit : ℕ := 2 ^ 61 - 1

namespace ListCapacity

variable {c : RcConfig} {capacity : ℕ}

theorem le_limit (h : ListCapacity c capacity) : capacity ≤ listLimit c := by
  unfold ListCapacity at h
  unfold listLimit
  rcases h with rfl | h
  · exact Nat.zero_le _
  · split_ifs at h ⊢ with hbounded
    · obtain ⟨n, -, hn, rfl⟩ := h
      exact Nat.sub_le_sub_right (Nat.pow_le_pow_right two_pos hn) 1
    · obtain ⟨n, -, hn, -, rfl⟩ := h
      exact Nat.pow_le_pow_right two_pos hn

/-- Below the largest capacity the next one is one of them. -/
theorem grown (h : ListCapacity c capacity) (hlt : capacity ≠ listLimit c) :
    ListCapacity c (grownCapacity c capacity) := by
  unfold ListCapacity grownCapacity at *
  unfold listLimit at hlt
  refine Or.inr ?_
  split_ifs at h hlt ⊢ with hbounded h0 h0 hlarge
  · exact ⟨2, le_rfl, by norm_num, rfl⟩
  · obtain ⟨n, h2, h61, rfl⟩ := h.resolve_left h0
    have hne : n ≠ 61 := fun heq => hlt (by rw [heq])
    refine ⟨n + 1, by omega, by omega, ?_⟩
    have := Nat.two_pow_pos n
    omega
  · exact ⟨1, le_rfl, by norm_num, by norm_num, rfl⟩
  · obtain ⟨n, -, h60, heven, rfl⟩ := h.resolve_left h0
    have hne : n ≠ 60 := fun heq => hlt (by rw [heq])
    have h12 : 12 ≤ n := (Nat.pow_le_pow_iff_right one_lt_two).mp hlarge
    have := heven h12
    exact ⟨n + 2, by omega, by omega, fun _ => by omega, by rw [Nat.pow_add]⟩
  · obtain ⟨n, h1, -, -, rfl⟩ := h.resolve_left h0
    have h12 : n < 12 := (Nat.pow_lt_pow_iff_right one_lt_two).mp (not_le.mp hlarge)
    exact ⟨n + 1, by omega, by omega, fun _ => by omega, (Nat.pow_succ 2 n).symm⟩

end ListCapacity

/-- A List of one of these capacities grows until it has the largest. -/
theorem listGrow_eq {c : RcConfig} {s : RcState} {list : ℕ} {o : RcObject}
    (ho : s.objects.heap list = some o) (hcapacity : ListCapacity c o.capacity) :
    listGrow c s list = if o.capacity = listLimit c then .error listTooLarge
      else .ok ((rcServicePending c s c.pollBudget).modify list fun object =>
        { object with capacity := grownCapacity c o.capacity }) := by
  unfold listGrow
  rw [ho]
  simp only
  by_cases hlimit : o.capacity = listLimit c
  · rw [if_pos hlimit, if_pos]
    · rfl
    · refine Or.inr (Or.inr ?_)
      rw [hlimit]
      unfold grownCapacity listLimit
      split_ifs <;> norm_num at *
  · rw [if_neg hlimit, if_neg]
    have hle := (hcapacity.grown hlimit).le_limit
    have hlt := lt_of_le_of_ne hcapacity.le_limit hlimit
    have hgrows := RcRefines.lt_grownCapacity c o.capacity
    unfold listLimit at hle hlt
    rintro (⟨hbounded, h⟩ | h | h)
    · rw [if_pos hbounded] at hlt
      omega
    · omega
    · split_ifs at hle <;> omega

/-! ## New owners -/

/-- A new owner stops exactly at a count that is full. -/
theorem minyarRcRetain_error_iff {s : RcState} {value : ℕ} (h0 : s.objects.heap 0 = none)
    {e : String} : minyarRcRetain s value = .error e ↔ e = tooManyReferences ∧
      ∃ o, s.objects.heap value = some o ∧ ownerLimit ≤ o.owners := by
  unfold minyarRcRetain ownerLimit
  by_cases hvalue : value = 0
  · subst hvalue
    rw [if_pos rfl, h0]
    refine ⟨fun h => ?_, fun h => ?_⟩
    · cases h
    · obtain ⟨-, o, ho, -⟩ := h
      cases ho
  · rw [if_neg hvalue]
    rcases ho : s.objects.heap value with _ | o
    · refine ⟨fun h => ?_, fun h => ?_⟩
      · cases h
      · obtain ⟨-, o, ho, -⟩ := h
        cases ho
    · have hcode : o.kind.code < 8 := by cases o.kind <;> decide
      have hsome : (∃ o', some o = some o' ∧ 2 ^ 61 - 1 ≤ o'.owners) ↔ 2 ^ 61 - 1 ≤ o.owners :=
        ⟨fun ⟨_, h, hle⟩ => Option.some.inj h ▸ hle, fun hle => ⟨o, rfl, hle⟩⟩
      rw [hsome]
      simp only
      split_ifs with howners hfull
      · refine ⟨fun h => ?_, fun h => ?_⟩
        · cases h
        · omega
      · refine ⟨fun h => ?_, fun h => ?_⟩
        · cases h
          exact ⟨rfl, by omega⟩
        · rw [h.1]
          rfl
      · refine ⟨fun h => ?_, fun h => ?_⟩
        · cases h
        · omega

namespace RcRefines

variable {s s' : RcState} {L : RcLedger} {q : RcQueues} {v w : ℕ} {o o' : RcObject} {e : String}

/-! ## Growth -/

/-- Service keeps the storage of what the program may use. -/
theorem servicePending_capacity (h : RcRefines s L q) (c : RcConfig) (budget : ℕ)
    (hv : L.Usable v) (ho : s.objects.heap v = some o)
    (ho' : (rcServicePending c s budget).objects.heap v = some o') : o'.capacity = o.capacity := by
  unfold rcServicePending at ho'
  split_ifs at ho'
  · rw [h.inv.poll_eq_reference] at ho'
    obtain ⟨q', hserves⟩ := h.inv.referencePoll c (min budget c.pollBudget)
    obtain ⟨x, hx, -, halive⟩ := hserves.shrink.object v o' ho'
    rw [ho] at hx
    cases hx
    have hdead : v ∉ rcDead (rcReferencePoll c (min budget c.pollBudget) s).2.objects.active q' := by
      rcases (h.serves hserves).usable hv with h0 | ⟨-, -, hdead, -⟩
      · exact absurd h0 (h.inv.objects.ne_zero ho)
      · exact hdead
    exact (halive hdead).2.2.1
  · rw [ho] at ho'
    cases ho'
    rfl

/-- Growing an empty List until it has a capacity stops exactly above the largest one. -/
theorem listGrowTo_room (h : RcRefines s L q) (c : RcConfig) (hv : L.Usable v)
    (hlist : IsList L v) (ho : s.objects.heap v = some o) (hcapacity : ListCapacity c o.capacity)
    {capacity fuel : ℕ} (hfuel : capacity ≤ o.capacity + fuel) :
    (listLimit c < capacity → Minyar.listGrowTo c v capacity fuel s = .error listTooLarge) ∧
      (capacity ≤ listLimit c → ∃ s' o', Minyar.listGrowTo c v capacity fuel s = .ok s' ∧
        s'.objects.heap v = some o' ∧ capacity ≤ o'.capacity) := by
  have hle := hcapacity.le_limit
  induction fuel generalizing s q o with
  | zero => exact ⟨fun hlarge => by omega, fun _ => ⟨s, o, rfl, ho, by omega⟩⟩
  | succ fuel ih =>
    rw [Minyar.listGrowTo, ho]
    simp only
    split_ifs with hshort
    · by_cases hlimit : o.capacity = listLimit c
      · refine ⟨fun _ => ?_, fun _ => by omega⟩
        rw [listGrow_eq ho hcapacity, if_pos hlimit]
        rfl
      · have hgrow := listGrow_eq ho hcapacity
        rw [if_neg hlimit] at hgrow
        obtain ⟨q₁, h₁, -⟩ := h.listGrow c hv hlist hgrow
        obtain ⟨q₂, h₂⟩ := h.servicePending c c.pollBudget
        obtain ⟨x, hx, -⟩ := h₂.exists_list hv hlist
        have hgrows := lt_grownCapacity c o.capacity
        have hheap : ((rcServicePending c s c.pollBudget).modify v fun object =>
            { object with capacity := grownCapacity c o.capacity }).objects.heap v =
              some { x with capacity := grownCapacity c o.capacity } := by
          rw [RcState.modify_eq hx]
          exact RcObjects.write_heap_self _ _ _
        rw [hgrow]
        have hgrown := hcapacity.grown hlimit
        exact ih h₁ hheap hgrown (by change _ ≤ grownCapacity c o.capacity + fuel; omega)
          hgrown.le_limit
    · exact ⟨fun hlarge => by omega, fun _ => ⟨s, o, rfl, ho, by omega⟩⟩

/-! ## Additions -/

/-- A List with room does not grow. -/
theorem listEnsure_room (c : RcConfig) (ho : s.objects.heap v = some o)
    (hroom : o.values.length < o.capacity) : Minyar.listEnsure c s v = .ok s := by
  unfold Minyar.listEnsure
  rw [ho]
  exact if_neg hroom.ne

/-- Marking the kind of a List changes no count. -/
theorem modify_kind_owners (ho : s.objects.heap v = some o) (kind : RcKind) (n : ℕ) :
    (∃ p, (s.modify v fun object => { object with kind := kind }).objects.heap w = some p ∧
      n ≤ p.owners) ↔ ∃ p, s.objects.heap w = some p ∧ n ≤ p.owners := by
  rw [RcState.modify_eq ho]
  by_cases hw : w = v
  · subst hw
    rw [ho, show (s.objects.write w { o with kind := kind }).heap w = _ from
      RcObjects.write_heap_self _ _ _]
    simp
  · rw [show (s.objects.write v { o with kind := kind }).heap w = _ from
      RcObjects.write_heap_of_ne _ _ hw]

/-- Storing a value in a List of references stops exactly at a full count. -/
theorem storeKind_error_iff (h : RcRefines s L q) (ho : s.objects.heap v = some o)
    (hkind : o.kind = .references ∨ o.kind = .referencesImmortal) :
    (if listStoreKind s.objects w o.kind = .references then
        minyarRcRetain (s.modify v fun object =>
          { object with kind := listStoreKind s.objects w o.kind }) w
      else .ok (s.modify v fun object =>
        { object with kind := listStoreKind s.objects w o.kind })) = .error e ↔
      e = tooManyReferences ∧ ∃ p, s.objects.heap w = some p ∧ ownerLimit ≤ p.owners := by
  have hzero := h.inv.objects.heap_zero
  split_ifs with hstore
  · rw [minyarRcRetain_error_iff ?_, modify_kind_owners ho]
    rw [RcState.modify_eq ho]
    exact (RcObjects.write_heap_of_ne _ _ (h.inv.objects.ne_zero ho).symm).trans hzero
  · refine ⟨fun hs => ?_, fun hs => ?_⟩
    · cases hs
    · obtain ⟨-, p, hp, hfull⟩ := hs
      -- Such a value is mortal, so the List would hold references.
      refine absurd ?_ hstore
      unfold listStoreKind
      rcases hkind with hk | hk
      · rw [hk]
        exact if_neg (by simp)
      · rw [if_pos]
        refine ⟨hk, ?_, ?_⟩
        · rintro rfl
          rw [hzero] at hp
          cases hp
        · unfold RcObjects.mortal ownerLimit at *
          rw [hp]
          exact decide_eq_true (by omega)

/-- A new List has its elements and the kind for them. -/
theorem new_values {references : Bool} {acc : List ℕ}
    (h : RcRefines s (L.allocate (.ofElements references acc)).2 q) (h0 : L.next ≠ 0)
    (ho : s.objects.heap L.next = some o) :
    o.values = acc ∧ (references = false → o.kind = .list) ∧
      (references = true → o.kind = .references ∨ o.kind = .referencesImmortal) := by
  have hlist := isList_of_takes (listTakes_allocate L references acc (p := True) fun _ => trivial)
  obtain ⟨x, hx, -, -, hcontents⟩ := h.exists_list (L.usable_allocate h0 _) hlist
  rw [ho] at hx
  cases hx
  have helements := L.allocate_heap (.ofElements references acc)
  cases references with
  | false =>
    obtain ⟨hkind, hvalues⟩ := contents_list hcontents helements
    exact ⟨hvalues, fun _ => hkind, fun hr => absurd hr Bool.false_ne_true⟩
  | true =>
    obtain ⟨hkind, hvalues⟩ := contents_references hcontents helements
    exact ⟨hvalues, fun hr => absurd hr.symm Bool.false_ne_true, fun _ => hkind⟩

/-- An addition to a new List with room stops exactly at a reference whose count is full, and it
keeps the storage. -/
theorem listAdd_room (c : RcConfig) (references : Bool) {acc : List ℕ}
    (h : RcRefines s (L.allocate (.ofElements references acc)).2 q)
    (hbound : ∀ r x, L.heap r = some x → r < L.next) (h0 : L.next ≠ 0)
    (hw : references = true → L.Usable w) (ho : s.objects.heap L.next = some o)
    (hroom : acc.length < o.capacity) :
    (∀ e, minyarListAdd c s L.next w = .error e ↔ references = true ∧ e = tooManyReferences ∧
        ∃ p, s.objects.heap w = some p ∧ ownerLimit ≤ p.owners) ∧
      ∀ s', minyarListAdd c s L.next w = .ok s' →
        ∃ o', s'.objects.heap L.next = some o' ∧ o'.capacity = o.capacity := by
  have hnew := L.usable_allocate h0 (.ofElements references acc)
  have htakes := listTakes_allocate L references acc
    (p := (L.allocate (.ofElements references acc)).2.Usable w)
    fun hr => (hw hr).allocate hbound _
  obtain ⟨rfl, hplain, hreferences⟩ := h.new_values h0 ho
  have hensure := listEnsure_room c ho hroom
  refine ⟨fun e => ?_, fun s' hs => ?_⟩
  · unfold minyarListAdd
    rw [hensure]
    change (pure s >>= _) = _ ↔ _
    rw [pure_bind]
    simp only [ho]
    cases references with
    | false =>
      rw [if_pos (hplain rfl)]
      refine ⟨fun hs => ?_, fun hs => ?_⟩
      · cases hs
      · cases hs.1
    | true =>
      have hne : o.kind ≠ .list := by rcases hreferences rfl with hk | hk <;> simp [hk]
      rw [if_neg hne, bind_eq_error, h.storeKind_error_iff ho (hreferences rfl)]
      refine ⟨fun hs => ?_, fun hs => Or.inl hs.2⟩
      rcases hs with hs | ⟨s₂, -, hs⟩
      · exact ⟨rfl, hs⟩
      · cases hs
  · obtain ⟨q', h'⟩ := h.listAdd c hnew htakes hs
    obtain ⟨s₁, s₂, hs₁, ⟨q₂, h₂⟩, hcases⟩ := h.listAdd_cases c hnew htakes hs
    rw [hensure] at hs₁
    cases hs₁
    rw [L.allocate_addToList] at h₂ h'
    have hnew' := L.usable_allocate h0 (.ofElements references (o.values ++ [w]))
    have hlist' := isList_of_takes
      (listTakes_allocate L references (o.values ++ [w]) (p := True) fun _ => trivial)
    obtain ⟨o', ho', -⟩ := h'.exists_list hnew' hlist'
    refine ⟨o', ho', ?_⟩
    rcases hcases with ⟨-, rfl, rfl⟩ | ⟨-, ⟨kind, hs₂⟩, rfl⟩
    · unfold RcState.append at ho'
      rw [RcState.modify_eq ho, show (s₂.objects.write L.next _).heap L.next = _ from
        RcObjects.write_heap_self _ _ _] at ho'
      cases ho'
      rfl
    · have hmarked : (s.modify L.next fun object =>
          { object with kind := kind }).objects.heap L.next = some { o with kind := kind } := by
        rw [RcState.modify_eq ho]
        exact RcObjects.write_heap_self _ _ _
      obtain ⟨n, hn⟩ : ∃ n, s₂.objects.heap L.next =
          some { o with kind := kind, owners := n } := by
        split_ifs at hs₂
        · exact (retain_heap hs₂).2 _ _ hmarked
        · cases hs₂
          exact ⟨o.owners, hmarked⟩
      have happended : (s₂.append L.next w).objects.heap L.next =
          some { o with kind := kind, owners := n, values := o.values ++ [w] } := by
        unfold RcState.append
        rw [RcState.modify_eq hn]
        exact RcObjects.write_heap_self _ _ _
      have hcapacity := h₂.servicePending_capacity c c.pollBudget hnew' happended ho'
      exact hcapacity

/-- Adding values to a new List with room for all of them stops exactly at the first reference whose
count is full when its turn comes. -/
theorem listAddAll_room (c : RcConfig) (references : Bool) {values acc : List ℕ}
    (h : RcRefines s (L.allocate (.ofElements references acc)).2 q)
    (hbound : ∀ r x, L.heap r = some x → r < L.next) (h0 : L.next ≠ 0)
    (hvalues : references = true → ∀ w ∈ values, L.Usable w) (ho : s.objects.heap L.next = some o)
    (hroom : acc.length + values.length ≤ o.capacity) :
    (∀ e, Minyar.listAddAll c L.next values s = .error e ↔
        references = true ∧ e = tooManyReferences ∧ ∃ before x after t p,
          values = before ++ x :: after ∧ Minyar.listAddAll c L.next before s = .ok t ∧
          t.objects.heap x = some p ∧ ownerLimit ≤ p.owners) ∧
      ∀ s', Minyar.listAddAll c L.next values s = .ok s' →
        ∃ o', s'.objects.heap L.next = some o' ∧ o'.capacity = o.capacity := by
  induction values generalizing acc s q o with
  | nil =>
    refine ⟨fun e => ⟨fun hs => ?_, fun hs => ?_⟩, fun s' hs => ?_⟩
    · cases hs
    · obtain ⟨-, -, before, x, after, -, -, hsplit, -⟩ := hs
      exact absurd hsplit (by simp)
    · cases hs
      exact ⟨o, ho, rfl⟩
  | cons w values ih =>
    rw [List.length_cons] at hroom
    have hw : references = true → L.Usable w := fun hr => hvalues hr w List.mem_cons_self
    have hadd := listAdd_room c references h hbound h0 hw ho (by omega)
    have htakes := listTakes_allocate L references acc
      (p := (L.allocate (.ofElements references acc)).2.Usable w)
      fun hr => (hw hr).allocate hbound _
    -- The rest, after the first value.
    have hrest : ∀ s₁, minyarListAdd c s L.next w = .ok s₁ → ∃ q₁ o₁,
        RcRefines s₁ (L.allocate (.ofElements references (acc ++ [w]))).2 q₁ ∧
        s₁.objects.heap L.next = some o₁ ∧ o₁.capacity = o.capacity ∧
        (acc ++ [w]).length + values.length ≤ o₁.capacity := by
      intro s₁ hs₁
      obtain ⟨q₁, h₁⟩ := h.listAdd c (L.usable_allocate h0 _) htakes hs₁
      rw [L.allocate_addToList] at h₁
      obtain ⟨o₁, ho₁, hcapacity⟩ := hadd.2 s₁ hs₁
      refine ⟨q₁, o₁, h₁, ho₁, hcapacity, ?_⟩
      rw [List.length_append, List.length_singleton]
      omega
    have hvalues' : references = true → ∀ x ∈ values, L.Usable x := fun hr x hx =>
      hvalues hr x (List.mem_cons_of_mem _ hx)
    refine ⟨fun e => ⟨fun hs => ?_, fun hs => ?_⟩, fun s' hs => ?_⟩
    · rcases bind_eq_error.mp hs with hs | ⟨s₁, hs₁, hs⟩
      · obtain ⟨hr, rfl, p, hp, hfull⟩ := (hadd.1 e).mp hs
        exact ⟨hr, rfl, [], w, values, s, p, rfl, rfl, hp, hfull⟩
      · obtain ⟨q₁, o₁, h₁, ho₁, -, hroom₁⟩ := hrest s₁ hs₁
        obtain ⟨hr, rfl, before, x, after, t, p, rfl, ht, hp, hfull⟩ :=
          ((ih h₁ hvalues' ho₁ hroom₁).1 e).mp hs
        exact ⟨hr, rfl, w :: before, x, after, t, p, rfl, bind_eq_ok.mpr ⟨s₁, hs₁, ht⟩, hp, hfull⟩
    · obtain ⟨hr, rfl, before, x, after, t, p, hsplit, ht, hp, hfull⟩ := hs
      refine bind_eq_error.mpr ?_
      cases before with
      | nil =>
        cases ht
        cases hsplit
        exact Or.inl ((hadd.1 _).mpr ⟨hr, rfl, p, hp, hfull⟩)
      | cons y before =>
        cases hsplit
        obtain ⟨s₁, hs₁, ht⟩ := bind_eq_ok.mp ht
        obtain ⟨q₁, o₁, h₁, ho₁, -, hroom₁⟩ := hrest s₁ hs₁
        exact Or.inr ⟨s₁, hs₁, ((ih h₁ hvalues' ho₁ hroom₁).1 _).mpr
          ⟨hr, rfl, before, x, after, t, p, rfl, ht, hp, hfull⟩⟩
    · obtain ⟨s₁, hs₁, hs⟩ := bind_eq_ok.mp hs
      obtain ⟨q₁, o₁, h₁, ho₁, hcapacity, hroom₁⟩ := hrest s₁ hs₁
      obtain ⟨o', ho', hcapacity'⟩ := (ih h₁ hvalues' ho₁ hroom₁).2 s' hs
      exact ⟨o', ho', hcapacity'.trans hcapacity⟩

/-- With room for the value, the addition that takes over an owner does not stop. -/
theorem listAddTake_room (c : RcConfig) (ho : s.objects.heap v = some o)
    (hroom : o.values.length < o.capacity) (w : ℕ) : minyarListAddTake c s v w ≠ .error e := by
  intro hs
  rcases bind_eq_error.mp hs with hs | ⟨s₁, hs₁, hs⟩
  · rw [listEnsure_room c ho hroom] at hs
    cases hs
  · rw [listEnsure_room c ho hroom] at hs₁
    cases hs₁
    rw [ho] at hs
    simp only at hs
    split_ifs at hs <;> cases hs

end RcRefines

/-! ## Appending -/

/-- Adding values to a List in two parts. -/
theorem listAddAll_append (c : RcConfig) (list : ℕ) (values values' : List ℕ) (s : RcState) :
    listAddAll c list (values ++ values') s =
      (listAddAll c list values s >>= listAddAll c list values') := by
  induction values generalizing s with
  | nil => rfl
  | cons value values ih =>
    rw [List.cons_append, listAddAll, listAddAll]
    rcases minyarListAdd c s list value with e | s₁
    · rfl
    · exact ih s₁

/-- The values that an appended List takes an owner of, in the order in which it does. -/
def retainedValues (values : List ℕ) (value : ℕ) (references takeValue : Bool) : List ℕ :=
  if references then values ++ (if takeValue then [] else [value]) else []

/-- The state of `minyarListAppended` when the new List has got the values of `before`. -/
def appendedPrefix (c : RcConfig) (s : RcState) (list : ℕ) (references : Bool)
    (before : List ℕ) : Except String RcState :=
  let result := minyarListNew c s
  let s := if references then minyarListReferences result.2 result.1 else result.2
  match s.objects.heap list with
  | none => .ok s.fail
  | some object => do
    let s ← listGrowTo c result.1 (object.values.length + 1) (object.values.length + 1) s
    listAddAll c result.1 before s

/-- Appending a value to a List of `values` stops with `message`: the values do not fit the largest
storage, or a value that the new List takes an owner of has a full count when its turn comes. -/
def AppendedStops (c : RcConfig) (s : RcState) (list value : ℕ) (references takeValue : Bool)
    (values : List ℕ) (message : String) : Prop :=
  (message = listTooLarge ∧ listLimit c ≤ values.length) ∨
    (message = tooManyReferences ∧ values.length < listLimit c ∧ ∃ before x after t o,
      retainedValues values value references takeValue = before ++ x :: after ∧
      appendedPrefix c s list references before = .ok t ∧
      t.objects.heap x = some o ∧ ownerLimit ≤ o.owners)

namespace RcRefines

variable {s : RcState} {L : RcLedger} {q : RcQueues} {v w : ℕ} {references takeValue : Bool}

/-- The steps of an append: it stops when the values do not fit, and otherwise it adds them to a new
List with room for all. -/
theorem listAppended_room (h : RcRefines s L q) (c : RcConfig)
    (hlegal : (RcOp.listAppended v w references takeValue).Legal L) :
    (references = true → ∀ x ∈ L.elements v, L.Usable x) ∧
    (listLimit c ≤ (L.elements v).length →
      minyarListAppended c s v w references takeValue = .error listTooLarge) ∧
    ((L.elements v).length < listLimit c → ∃ s₃ q₃ o,
      RcRefines s₃ (L.allocate (.ofElements references [])).2 q₃ ∧
      (∀ x, L.Usable x → RcRaises x 0 s.objects s₃.objects) ∧
      s₃.objects.heap L.next = some o ∧ (L.elements v).length + 1 ≤ o.capacity ∧
      (∀ before, appendedPrefix c s v references before =
        Minyar.listAddAll c L.next before s₃) ∧
      minyarListAppended c s v w references takeValue =
        (Minyar.listAddAll c L.next (L.elements v) s₃ >>= fun s₄ =>
          (if takeValue then minyarListAddTake c s₄ L.next w else minyarListAdd c s₄ L.next w) >>=
            fun s₅ => .ok (L.next, s₅))) := by
  obtain ⟨hvalues, o, ho, helements⟩ := h.exists_appended c hlegal
  obtain ⟨q₂, h₂⟩ := h.listNewMarked c references
  have hnew := L.usable_allocate h.next_ne_zero (.ofElements references [])
  have hlist := isList_of_takes (listTakes_allocate L references [] (p := True) fun _ => trivial)
  have hbound : ∀ r x, L.heap r = some x → r < L.next := fun r x hx => (h.bound r x hx).2
  -- The new List has no storage.
  obtain ⟨x, hx, hstorage⟩ : ∃ x, (if references then
      minyarListReferences (minyarListNew c s).2 L.next
        else (minyarListNew c s).2).objects.heap L.next = some x ∧ x.capacity = 0 := by
    have hempty : (minyarListNew c s).2.objects.heap L.next = some { kind := .list, owners := 1 } := by
      rw [← (h.listNew c).1]
      exact Function.update_self _ _ _
    split_ifs
    · refine ⟨{ kind := .referencesImmortal, owners := 1 }, ?_, rfl⟩
      unfold minyarListReferences
      rw [RcState.modify_eq hempty]
      exact RcObjects.write_heap_self _ _ _
    · exact ⟨_, hempty, rfl⟩
  have hmark : ∀ x, L.Usable x → RcRaises x 0 s.objects (if references then
      minyarListReferences (minyarListNew c s).2 L.next else (minyarListNew c s).2).objects := by
    intro x hx
    refine (h.listNew_raises c hx (h.ne_next hx)).trans (m := 0) ?_ rfl
    split_ifs
    · exact .modify _ _ _ fun o => by split_ifs <;> rfl
    · exact .refl x _
  have hname := (h.listNew c).1
  unfold minyarListAppended appendedPrefix
  simp only
  rw [hname]
  generalize (if references then minyarListReferences (minyarListNew c s).2 L.next
    else (minyarListNew c s).2) = s₂ at *
  rw [ho]
  simp only
  rw [helements]
  have hgrow := @listGrowTo_room s₂ _ q₂ L.next x h₂ c hnew hlist hx (Or.inl hstorage)
    ((L.elements v).length + 1) ((L.elements v).length + 1) (by omega)
  refine ⟨hvalues, fun hlarge => ?_, fun hsmall => ?_⟩
  · by_cases hmax : (L.elements v).length = 2 ^ 63 - 1
    · rw [if_pos hmax]
      rfl
    · rw [if_neg hmax, hgrow.1 (by omega)]
      rfl
  · have hlimit : listLimit c ≤ 2 ^ 61 := by
      unfold listLimit
      split_ifs <;> norm_num
    rw [if_neg (by omega)]
    obtain ⟨s₃, o₃, hs₃, ho₃, hroom⟩ := hgrow.2 (by omega)
    obtain ⟨q₃, h₃⟩ := h₂.listGrowTo c hnew hlist hs₃
    refine ⟨s₃, q₃, o₃, h₃, fun y hy => ?_, ho₃, hroom, fun before => ?_, ?_⟩
    · exact (hmark y hy).trans
        (h₂.listGrowTo_raises c hnew hlist (hy.allocate hbound _) hs₃) rfl
    · rw [hs₃]
      rfl
    · rw [hs₃]
      rfl

/-- The program may use what an appended List takes owners of. -/
theorem retained_usable (h : RcRefines s L q) (c : RcConfig)
    (hlegal : (RcOp.listAppended v w references takeValue).Legal L) {x : ℕ}
    (hx : x ∈ retainedValues (L.elements v) w references takeValue) :
    references = true ∧ L.Usable x := by
  obtain ⟨hvalues, -⟩ := h.exists_appended c hlegal
  unfold retainedValues at hx
  cases references with
  | false => cases hx
  | true =>
    rw [if_pos rfl] at hx
    refine ⟨rfl, (List.mem_append.mp hx).elim (hvalues rfl x) fun hx => ?_⟩
    cases takeValue with
    | true => cases hx
    | false => exact List.mem_singleton.mp hx ▸ hlegal.2.2

/-- Appending stops exactly at the largest storage and at a full count. -/
theorem listAppended_error_iff (h : RcRefines s L q) (c : RcConfig)
    (hlegal : (RcOp.listAppended v w references takeValue).Legal L) (message : String) :
    minyarListAppended c s v w references takeValue = .error message ↔
      AppendedStops c s v w references takeValue (L.elements v) message := by
  obtain ⟨hvalues, hlarge, hsmall⟩ := h.listAppended_room c hlegal
  have hbound : ∀ r x, L.heap r = some x → r < L.next := fun r x hx => (h.bound r x hx).2
  unfold AppendedStops
  by_cases hlength : listLimit c ≤ (L.elements v).length
  · rw [hlarge hlength]
    refine ⟨fun hs => ?_, fun hs => ?_⟩
    · cases hs
      exact Or.inl ⟨rfl, hlength⟩
    · rcases hs with ⟨rfl, -⟩ | ⟨-, hlt, -⟩
      · rfl
      · omega
  obtain ⟨s₃, q₃, o, h₃, -, ho, hroom, hcopies, hs⟩ := hsmall (not_le.mp hlength)
  set copied := L.elements v ++ if takeValue then [] else [w] with hcopied
  have husable : references = true → ∀ x ∈ copied, L.Usable x := by
    intro hr x hx
    refine (h.retained_usable c hlegal ?_).2
    unfold retainedValues
    rw [if_pos hr]
    exact hx
  have hfits : ([] : List ℕ).length + copied.length ≤ o.capacity := by
    rw [hcopied, List.length_append, List.length_nil]
    split_ifs
    · rw [List.length_nil]
      omega
    · rw [List.length_singleton]
      omega
  have hall := h₃.listAddAll_room c references hbound h.next_ne_zero husable ho hfits
  -- The whole stops where the additions do.
  have hiff : minyarListAppended c s v w references takeValue = .error message ↔
      Minyar.listAddAll c L.next copied s₃ = .error message := by
    rw [hs, hcopied, listAddAll_append, bind_eq_error, bind_eq_error]
    refine or_congr_right (exists_congr fun s₄ => and_congr_right fun hs₄ => ?_)
    cases takeValue with
    | true =>
      obtain ⟨o₄, ho₄, hcapacity⟩ := (h₃.listAddAll_room c references hbound h.next_ne_zero hvalues
        ho (by rw [List.length_nil]; omega)).2 s₄ hs₄
      obtain ⟨q₄, h₄⟩ := h₃.listAddAll c references hbound h.next_ne_zero hvalues hs₄
      have hroom₄ : o₄.values.length < o₄.capacity := by
        rw [(h₄.new_values h.next_ne_zero ho₄).1, List.nil_append]
        omega
      refine ⟨fun hs => ?_, fun hs => ?_⟩
      · rcases bind_eq_error.mp hs with hs | ⟨s₅, -, hs⟩
        · exact absurd hs (listAddTake_room c ho₄ hroom₄ w)
        · cases hs
      · cases hs
    | false =>
      refine ⟨fun hs => ?_, fun hs => ?_⟩
      · rcases bind_eq_error.mp hs with hs | ⟨s₅, -, hs⟩
        · exact bind_eq_error.mpr (Or.inl hs)
        · cases hs
      · rcases bind_eq_error.mp hs with hs | ⟨s₅, -, hs⟩
        · exact bind_eq_error.mpr (Or.inl hs)
        · cases hs
  rw [hiff, hall.1]
  refine ⟨fun hs => ?_, fun hs => ?_⟩
  · obtain ⟨hr, rfl, before, x, after, t, p, hsplit, ht, hp, hfull⟩ := hs
    refine Or.inr ⟨rfl, not_le.mp hlength, before, x, after, t, p, ?_, ?_, hp, hfull⟩
    · unfold retainedValues
      rw [if_pos hr]
      exact hsplit
    · rw [hcopies]
      exact ht
  · rcases hs with ⟨-, hlarge⟩ | ⟨rfl, -, before, x, after, t, p, hsplit, ht, hp, hfull⟩
    · exact absurd hlarge hlength
    · unfold retainedValues at hsplit
      by_cases hr : references = true
      · rw [if_pos hr] at hsplit
        rw [hcopies] at ht
        exact ⟨hr, rfl, before, x, after, t, p, hsplit, ht, hp, hfull⟩
      · rw [if_neg hr] at hsplit
        exact absurd hsplit.symm (List.append_ne_nil_of_right_ne_nil _ (List.cons_ne_nil _ _))

/-- So does copying the first values. -/
theorem appendedPrefix_error (h : RcRefines s L q) (c : RcConfig)
    (hlegal : (RcOp.listAppended v w references takeValue).Legal L)
    (hlength : (L.elements v).length < listLimit c) {before rest : List ℕ} {message : String}
    (hsplit : retainedValues (L.elements v) w references takeValue = before ++ rest)
    (hs : appendedPrefix c s v references before = .error message) :
    minyarListAppended c s v w references takeValue = .error tooManyReferences := by
  obtain ⟨-, -, hsmall⟩ := h.listAppended_room c hlegal
  have hbound : ∀ r x, L.heap r = some x → r < L.next := fun r x hx => (h.bound r x hx).2
  obtain ⟨s₃, q₃, o, h₃, -, ho, hroom, hcopies, -⟩ := hsmall hlength
  rw [hcopies] at hs
  have husable : references = true → ∀ x ∈ before, L.Usable x := fun _ x hx =>
    (h.retained_usable c hlegal (hsplit ▸ List.mem_append_left rest hx)).2
  have hfits : ([] : List ℕ).length + before.length ≤ o.capacity := by
    have hcount := congrArg List.length hsplit
    rw [List.length_append] at hcount
    have hretained : (retainedValues (L.elements v) w references takeValue).length ≤
        (L.elements v).length + 1 := by
      unfold retainedValues
      split_ifs <;> simp
    rw [List.length_nil]
    omega
  obtain ⟨-, -, before', x, after, t, p, rfl, ht, hp, hfull⟩ :=
    ((h₃.listAddAll_room c references hbound h.next_ne_zero husable ho hfits).1 message).mp hs
  refine (h.listAppended_error_iff c hlegal _).mpr (Or.inr ⟨rfl, hlength, before', x, after ++ rest,
    t, p, ?_, ?_, hp, hfull⟩)
  · rw [hsplit, List.append_assoc, List.cons_append]
  · rw [hcopies]
    exact ht

end RcRefines

end Minyar

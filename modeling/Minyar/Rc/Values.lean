import Minyar.Rc.Lists

/-!
# Constructors, slices and records refine the ledger

New objects own nothing that was not handed to them: a view takes an owner of the Text whose bytes
it shares, an appended List takes owners of its elements.  Storing a reference in a record hands the
previous owner of the field to the program.
-/

namespace Minyar

open CountedGraph

namespace RcLedger

variable {L : RcLedger} {v w : ℕ}

/-- Allocation keeps what the program may use. -/
theorem Usable.allocate (h : L.Usable v) (hbound : ∀ r x, L.heap r = some x → r < L.next)
    (x : RcContents) : (L.allocate x).2.Usable v := by
  have hheap : ∀ r y, L.heap r = some y → (L.allocate x).2.heap r = some y := by
    intro r y hy
    have := hbound r y hy
    change Function.update L.heap L.next _ r = _
    rw [Function.update_of_ne (by omega), hy]
  rcases h with h | ⟨bytes, backing, h⟩ | h
  · exact Or.inl h
  · exact Or.inr (Or.inl ⟨bytes, backing, hheap _ _ h⟩)
  · refine Or.inr (Or.inr (h.mono (fun r hr h0 => .owner ?_ h0) fun r y hy =>
      ⟨y, hheap r y hy, fun _ hw _ => hw⟩))
    change r ∈ _ + (L.next ::ₘ L.held)
    rw [Multiset.add_cons]
    exact Multiset.mem_cons_of_mem hr

/-- Allocation keeps what the program owns. -/
theorem Owned.allocate (h : L.Owned v) (hbound : ∀ r x, L.heap r = some x → r < L.next)
    (x : RcContents) : (L.allocate x).2.Owned v := by
  rcases h with h | ⟨bytes, backing, h⟩ | h
  · exact Or.inl h
  · refine Or.inr (Or.inl ⟨bytes, backing, ?_⟩)
    have := hbound v _ h
    change Function.update L.heap L.next _ v = _
    rw [Function.update_of_ne (by omega), h]
  · exact Or.inr (Or.inr (Multiset.mem_cons_of_mem h))

/-- The program may use what it has just allocated. -/
theorem usable_allocate (h0 : L.next ≠ 0) (x : RcContents) : (L.allocate x).2.Usable L.next := by
  refine Or.inr (Or.inr (.owner ?_ h0))
  change L.next ∈ _ + (L.next ::ₘ L.held)
  rw [Multiset.add_cons]
  exact Multiset.mem_cons_self _ _

/-- New contents of a new object. -/
theorem allocate_write (L : RcLedger) (x y : RcContents) :
    (L.allocate x).2.write L.next y = (L.allocate y).2 := by
  unfold allocate write
  simp only [Function.update_idem]

/-- A new object has the contents that it was given. -/
theorem allocate_heap (L : RcLedger) (x : RcContents) : (L.allocate x).2.heap L.next = some x :=
  Function.update_self _ _ _

/-- Adding to a new List. -/
theorem allocate_addToList (L : RcLedger) (references : Bool) (values : List ℕ) (w : ℕ) :
    (L.allocate (.ofElements references values)).2.addToList L.next w =
      (L.allocate (.ofElements references (values ++ [w]))).2 := by
  unfold addToList
  rw [allocate_heap]
  cases references with
  | false => exact L.allocate_write _ _
  | true => exact L.allocate_write _ _

end RcLedger

/-- Replacing elements of two lists at once. -/
theorem zip_set {α β : Type} (l : List α) (m : List β) (i : ℕ) (a : α) (b : β) :
    (l.set i a).zip (m.set i b) = (l.zip m).set i (a, b) := by
  induction l generalizing m i with
  | nil => simp
  | cons x l ih =>
    cases m with
    | nil => simp
    | cons y m =>
      cases i with
      | zero => rfl
      | succ i =>
        simp only [List.set_cons_succ, List.zip_cons_cons]
        rw [ih]

/-- The fields of a record with the marks of its references. -/
def RcObject.fields (o : RcObject) : List (ℕ × Bool) :=
  o.values.zip (o.map.map fun flag => decide (flag &&& 1 = 1))

theorem RcObject.contents_of_record {o : RcObject} (h : o.kind = .record) :
    o.contents = .record o.fields := by
  unfold RcObject.contents
  rw [h]
  rfl

/-- What a record owns. -/
theorem RcObject.slots_of_record {o : RcObject} (h : o.kind = .record)
    (hmap : o.map.length = o.values.length) :
    o.slots = o.fields.map fun field => if field.2 then field.1 else 0 := by
  rw [← RcObject.contents_slots fun _ => hmap, RcObject.contents_of_record h]
  rfl

theorem RcObject.contents_of_scalarRecord {o : RcObject} (h : o.kind = .scalarRecord) :
    o.contents = .scalarRecord o.values := by
  unfold RcObject.contents
  rw [h]

namespace RcRefines

variable {s s' : RcState} {L : RcLedger} {q q' : RcQueues} {v : ℕ} {o : RcObject}

theorem next_ne_zero (h : RcRefines s L q) : L.next ≠ 0 := h.next ▸ h.inv.next

/-! ## Texts -/

/-- A new Text with bytes that are there. -/
theorem newText (h : RcRefines s L q) (c : RcConfig) (bytes : List UInt8) :
    (Minyar.newText c s bytes).1 = L.next ∧
      ∃ q', RcRefines (Minyar.newText c s bytes).2 (L.allocate (.text bytes 0 false)).2 q' := by
  refine h.allocateObject c (o := { kind := .text, owners := 1, bytes := bytes }) rfl ?_ ?_
  · intro w hw
    exact List.mem_singleton.mp hw
  · intro heap dead r h0 hr0 hr
    refine ⟨fun hk => (by cases hk), Nat.two_pow_pos 64, fun _ _ _ => ⟨Nat.zero_le _,
      Nat.two_pow_pos 64⟩, fun _ hk => (by cases hk), fun _ hk => (by cases hk),
      fun hd => absurd hd hr, fun _ b hb => ?_, fun hk => (by cases hk)⟩
    rw [Function.update_of_ne hr0.symm, h0] at hb
    cases hb

/-- A new Text with storage of its own. -/
theorem copyText (h : RcRefines s L q) (c : RcConfig) (bytes : List UInt8) :
    (Minyar.copyText c s bytes).1 = L.next ∧
      ∃ q', RcRefines (Minyar.copyText c s bytes).2 (L.allocate (.text bytes 0 false)).2 q' := by
  obtain ⟨q₁, h₁⟩ := h.servicePending c c.pollBudget
  exact h₁.newText c bytes

/-- The length of a Text in the heap is that of its contents. -/
theorem byteLength (ho : L.heap v = some o.contents) (hs : s.objects.heap v = some o)
    (hkind : o.kind = .text) : s.objects.byteLength v = L.textLength v := by
  unfold RcObjects.byteLength RcLedger.textLength
  rw [ho, hs]
  simp [RcObject.contents, hkind]

/-- A Text that the program may use. -/
theorem exists_text (h : RcRefines s L q) (hv : L.Usable v) {bytes : List UInt8} {backing : ℕ}
    {immortal : Bool} (hx : L.heap v = some (.text bytes backing immortal)) :
    ∃ o, s.objects.heap v = some o ∧ v ∉ rcDead s.objects.active q ∧ o.kind = .text ∧
      o.bytes = bytes ∧ o.backing = backing ∧ L.heap v = some o.contents := by
  obtain ⟨o, ho, hdead, hcontents⟩ := h.exists_of_usable hv hx
  refine ⟨o, ho, hdead, ?_⟩
  rw [← hcontents] at hx
  refine and_assoc.mp (and_assoc.mp ⟨?_, hx⟩)
  unfold RcObject.contents at hcontents
  split at hcontents <;> simp_all

/-- The Text that owns the bytes of a Text. -/
theorem exists_root (h : RcRefines s L q) (hv : L.Usable v) {bytes : List UInt8} {backing : ℕ}
    {immortal : Bool} (hx : L.heap v = some (.text bytes backing immortal)) {root : ℕ}
    (hroot : root = if backing ≠ 0 then backing else v) :
    L.Usable root ∧ root ≠ 0 ∧ ∃ o, s.objects.heap root = some o ∧
      root ∉ rcDead s.objects.active q ∧ o.kind = .text ∧ o.backing = 0 ∧
      L.heap root = some o.contents := by
  obtain ⟨o, ho, hdead, hkind, -, rfl, hcontents⟩ := h.exists_text hv hx
  by_cases hb : o.backing = 0
  · rw [if_neg (not_not_intro hb)] at hroot
    subst hroot
    exact ⟨hv, h.inv.objects.ne_zero ho, o, ho, hdead, hkind, hb, hcontents⟩
  · rw [if_pos hb] at hroot
    subst hroot
    have hslot : o.backing ∈ o.slots := by simp [RcObject.slots, hkind]
    obtain ⟨b, hb₁, hbdead⟩ := h.exists_of_slot ho hdead hslot hb
    obtain ⟨hbkind, hbbacking⟩ := (h.inv.objects.cells v o ho).flat hkind b hb₁
    refine ⟨?_, hb, b, hb₁, hbdead, hbkind, hbbacking, h.heap _ b hb₁ hbdead⟩
    rcases hv with hv | ⟨bytes', backing', himmortal⟩ | hv
    · exact absurd hv (h.inv.objects.ne_zero ho)
    · -- An immortal Text has no backing.
      obtain ⟨o', ho', hdead', h0⟩ := h.immortal v ⟨bytes', backing', himmortal⟩
      rw [ho] at ho'
      cases ho'
      exact absurd ((h.inv.objects.cells v o ho).immortal hdead' h0).2 hb
    · refine Or.inr (Or.inr (.slot hv hx ?_ hb))
      exact List.mem_singleton_self _

/-- A new view takes over an owner of the Text that owns the bytes. -/
theorem allocateView {root : ℕ} (h : RcRefines s (L.give root) q)
    (ho : s.objects.heap root = some o) (hkind : o.kind = .text) (hbacking : o.backing = 0)
    (bytes : List UInt8) :
    RcRefines { s with objects := { s.objects with
        heap := Function.update s.objects.heap s.objects.next
          (some { kind := .text, owners := 1, bytes := bytes, backing := root })
        next := s.objects.next + 1 } } (L.allocate (.text bytes root false)).2 q := by
  have hfresh : root ≠ s.objects.next := by
    intro heq
    rw [heq, h.inv.objects.heap_next] at ho
    cases ho
  refine h.allocate (o := { kind := .text, owners := 1, bytes := bytes, backing := root }) rfl
    (fun r _ => ?_) ?_
  · rw [show (L.give root).held = root ::ₘ L.held from rfl, count_cons]
    rfl
  · refine ⟨fun hk => (by cases hk), Nat.two_pow_pos 64, fun _ _ _ => ⟨Nat.zero_le _,
      Nat.two_pow_pos 64⟩, fun _ hk => (by cases hk), fun _ hk => (by cases hk),
      fun hd => absurd h.inv.objects.heap_next (h.inv.objects.dead _ hd), fun _ b hb => ?_,
      fun hk => (by cases hk)⟩
    rw [Function.update_of_ne hfresh, ho] at hb
    cases hb
    exact ⟨hkind, hbacking⟩

/-- A new view takes an owner of the Text that owns the bytes. -/
theorem newView (h : RcRefines s L q) (c : RcConfig) {root : ℕ} (hroot : L.Usable root)
    {bytes₀ : List UInt8} {immortal : Bool}
    (hx : L.heap root = some (.text bytes₀ 0 immortal)) (bytes : List UInt8)
    (hs : minyarRcRetain ((Minyar.newText c s bytes).2.modify (Minyar.newText c s bytes).1
      fun object => { object with backing := root }) root = .ok s') :
    (Minyar.newText c s bytes).1 = L.next ∧
      ∃ q', RcRefines s' (L.allocate (.text bytes root false)).2 q' := by
  obtain ⟨q₁, h₁⟩ := h.servicePending c c.pollBudget
  set s₁ := rcServicePending c s c.pollBudget with hs₁
  refine ⟨h₁.next, q₁, ?_⟩
  obtain ⟨o, ho, hdead, hkind, -, hbacking, hcontents⟩ := h₁.exists_text hroot hx
  have hfresh : root ≠ s₁.objects.next := by
    intro heq
    rw [heq, h₁.inv.objects.heap_next] at ho
    cases ho
  -- The view is allocated and linked to the root before the root counts it.
  have hview : (Minyar.newText c s bytes).2.modify (Minyar.newText c s bytes).1
      (fun object => { object with backing := root }) =
      { s₁ with objects := { s₁.objects with
        heap := Function.update s₁.objects.heap s₁.objects.next
          (some { kind := .text, owners := 1, bytes := bytes, backing := root })
        next := s₁.objects.next + 1 } } := by
    unfold Minyar.newText rcAllocateObject
    simp only [← hs₁]
    rw [RcState.modify_eq (o := { kind := .text, owners := 1, bytes := bytes })
      (Function.update_self _ _ _)]
    unfold RcObjects.write
    simp only [Function.update_idem]
  rw [hview] at hs
  unfold minyarRcRetain at hs
  rw [if_neg (h₁.inv.objects.ne_zero ho)] at hs
  simp only [Function.update_of_ne hfresh, ho] at hs
  split_ifs at hs with h0
  · cases hs
    have hgive := (give_iff (Or.inr (h₁.immortal_of_owners ho hdead h0))).mpr h₁
    exact hgive.allocateView ho hkind hbacking bytes
  · cases hs
    have hgive := h₁.retain_mortal ho hdead h0
    have hview' := hgive.allocateView (RcObjects.write_heap_self _ _ _) hkind hbacking bytes
    unfold RcObjects.write at hview' ⊢
    simp only at hview' ⊢
    rwa [Function.update_comm hfresh.symm]

/-- What a slice is: the Text itself with a new owner, a copy or a view. -/
theorem textSlice_cases (h : RcRefines s L q) (c : RcConfig) {first last : ℕ} (hv : L.Usable v)
    {bytes : List UInt8} {backing : ℕ} {immortal : Bool}
    (hx : L.heap v = some (.text bytes backing immortal)) {r : ℕ × RcState}
    (hs : minyarTextSlice c s v first last = .ok r) :
    (L.sliceText v first last = (v, L.give v) ∧ r.1 = v ∧ minyarRcRetain s v = .ok r.2) ∨
    (∃ slice, L.sliceText v first last = L.allocate (.text slice 0 false) ∧
      r = Minyar.copyText c s slice) ∨
    ∃ slice root bytes₀ immortal₀,
      L.sliceText v first last = L.allocate (.text slice root false) ∧ L.Usable root ∧
      L.heap root = some (.text bytes₀ 0 immortal₀) ∧ r.1 = (Minyar.newText c s slice).1 ∧
      minyarRcRetain ((Minyar.newText c s slice).2.modify (Minyar.newText c s slice).1
        fun object => { object with backing := root }) root = .ok r.2 := by
  obtain ⟨o, ho, hdead, hkind, rfl, rfl, hcontents⟩ := h.exists_text hv hx
  unfold minyarTextSlice at hs
  unfold RcLedger.sliceText
  rw [ho] at hs
  simp only [hx] at hs ⊢
  obtain ⟨hroot, -, o', ho', hdead', hkind', hbacking', hcontents'⟩ := h.exists_root hv hx rfl
  rw [byteLength hcontents' ho' hkind'] at hs
  by_cases hfull : first = 0 ∧ last - first = o.bytes.length
  · rw [if_pos hfull] at hs ⊢
    obtain ⟨s₁, hs₁, hs⟩ := bind_eq_ok.mp hs
    cases hs
    exact Or.inl ⟨rfl, rfl, hs₁⟩
  rw [if_neg hfull] at hs ⊢
  generalize (if o.backing ≠ 0 then o.backing else v) = root at *
  by_cases hcopy : 4096 < L.textLength root ∧ (last - first) * 8 < L.textLength root
  · rw [if_pos hcopy] at hs ⊢
    cases hs
    exact Or.inr (Or.inl ⟨_, rfl, rfl⟩)
  · rw [if_neg hcopy] at hs ⊢
    obtain ⟨s₁, hs₁, hs⟩ := bind_eq_ok.mp hs
    cases hs
    have hxr : L.heap root = some (.text o'.bytes 0 (decide (o'.owners = 0))) := by
      rw [hcontents']
      simp [RcObject.contents, hkind', hbacking']
    exact Or.inr (Or.inr ⟨_, root, _, _, rfl, hroot, hxr, rfl, hs₁⟩)

/-- A slice of a Text. -/
theorem textSlice (h : RcRefines s L q) (c : RcConfig) {first last : ℕ} (hv : L.Usable v)
    {bytes : List UInt8} {backing : ℕ} {immortal : Bool}
    (hx : L.heap v = some (.text bytes backing immortal)) {r : ℕ × RcState}
    (hs : minyarTextSlice c s v first last = .ok r) :
    r.1 = (L.sliceText v first last).1 ∧
      ∃ q', RcRefines r.2 (L.sliceText v first last).2 q' := by
  rcases h.textSlice_cases c hv hx hs with ⟨heffect, hr, hs₁⟩ | ⟨slice, heffect, rfl⟩ |
    ⟨slice, root, bytes₀, immortal₀, heffect, hroot, hxr, hr, hs₁⟩
  · rw [heffect]
    exact ⟨hr, q, h.retain hv hs₁⟩
  · rw [heffect]
    exact h.copyText c slice
  · rw [heffect, hr]
    exact h.newView c hroot hxr slice hs₁

/-! ## New Lists -/

/-- A new List. -/
theorem listNew (h : RcRefines s L q) (c : RcConfig) : (minyarListNew c s).1 = L.next ∧
    ∃ q', RcRefines (minyarListNew c s).2 (L.allocate (.ofElements false [])).2 q' := by
  refine h.allocateObject c (o := { kind := .list, owners := 1 }) rfl ?_ ?_
  · intro w hw
    cases hw
  · intro heap dead r _ _ hr
    exact ⟨fun hk => (by cases hk), Nat.two_pow_pos 64, fun _ _ _ => ⟨le_rfl,
      Nat.two_pow_pos 64⟩, fun _ hk => (by cases hk), fun _ hk => (by cases hk),
      fun hd => absurd hd hr, fun hk => (by cases hk), fun hk => (by cases hk)⟩

/-- Marking a List as one of references. -/
theorem listReferences (h : RcRefines s L q) (hv : L.Usable v)
    (hlist : L.heap v = some (.list []) ∨ ∃ values, L.heap v = some (.references values)) :
    RcRefines (minyarListReferences s v) (L.write v (.references (L.elements v))) q := by
  unfold minyarListReferences RcLedger.elements
  rcases hlist with hx | ⟨values, hx⟩
  · obtain ⟨o, ho, hdead, -, hcontents⟩ := h.exists_list hv (Or.inl ⟨_, hx⟩)
    obtain ⟨hkind, hvalues⟩ := contents_list hcontents hx
    rw [RcState.modify_eq ho, hx]
    have hfits := h.list_capacity ho hdead (Or.inl hkind)
    have hwrite := @writeList s L q v o h ho hdead (Or.inl hkind)
      { o with kind := .referencesImmortal } (Or.inr (Or.inr rfl)) rfl hfits.1 hfits.2
      (fun _ w hw => by rw [show ({ o with kind := .referencesImmortal } : RcObject).values = []
        from hvalues] at hw; cases hw) L.held (fun r _ => ?_)
    · have hself : (if o.kind = .references ∨ o.kind = .referencesImmortal then o
          else { o with kind := if o.values.length ≠ 0 then .references
            else .referencesImmortal }) = { o with kind := .referencesImmortal } := by
        simp [hkind, hvalues]
      rw [hself]
      have hempty : ({ o with kind := .referencesImmortal } : RcObject).contents =
          .references [] :=
        (RcObject.contents_of_references (Or.inr rfl)).trans (congrArg _ hvalues)
      rw [hempty] at hwrite
      exact hwrite
    · rw [RcObject.slots_of_references (o := { o with kind := .referencesImmortal }) (Or.inr rfl)]
      simp [RcObject.slots, hkind, hvalues]
  · obtain ⟨o, ho, hdead, -, hcontents⟩ := h.exists_list hv (Or.inr ⟨_, hx⟩)
    obtain ⟨hkind, rfl⟩ := contents_references hcontents hx
    rw [RcState.modify_eq ho, hx, if_pos hkind]
    have hledger : L.write v (.references o.values) = L := by
      unfold RcLedger.write
      rw [← hx, Function.update_eq_self]
    have hfits := h.list_capacity ho hdead (Or.inr hkind)
    simp only [hledger]
    exact h.rewriteList ho hdead (Or.inr hkind) (Or.inr hkind) rfl hfits.1 hfits.2
      (h.inv.objects.cells v o ho).members rfl rfl

/-- A new List takes a value that the program may use, when it is one of references. -/
theorem listTakes_allocate (L : RcLedger) (references : Bool) (values : List ℕ) {p : Prop}
    (hp : references = true → p) :
    (L.allocate (.ofElements references values)).2.ListTakes L.next p := by
  cases references with
  | false => exact Or.inl ⟨values, L.allocate_heap _⟩
  | true => exact Or.inr ⟨⟨values, L.allocate_heap _⟩, hp rfl⟩

/-- Adding values to a new List one after another. -/
theorem listAddAll (c : RcConfig) (references : Bool) {values acc : List ℕ}
    (h : RcRefines s (L.allocate (.ofElements references acc)).2 q)
    (hbound : ∀ r x, L.heap r = some x → r < L.next) (h0 : L.next ≠ 0)
    (hvalues : references = true → ∀ w ∈ values, L.Usable w)
    (hs : Minyar.listAddAll c L.next values s = .ok s') :
    ∃ q', RcRefines s' (L.allocate (.ofElements references (acc ++ values))).2 q' := by
  induction values generalizing acc s q with
  | nil =>
    cases hs
    rw [List.append_nil]
    exact ⟨q, h⟩
  | cons w values ih =>
    obtain ⟨s₁, hs₁, hs⟩ := bind_eq_ok.mp hs
    have htakes := listTakes_allocate L references acc
      (p := (L.allocate (.ofElements references acc)).2.Usable w)
      fun hr => (hvalues hr w List.mem_cons_self).allocate hbound _
    obtain ⟨q₁, h₁⟩ := h.listAdd c (L.usable_allocate h0 _) htakes hs₁
    rw [L.allocate_addToList] at h₁
    rw [List.append_cons]
    exact ih h₁ (fun hr x hx => hvalues hr x (List.mem_cons_of_mem _ hx)) hs

/-- What the program may use has a name. -/
theorem ne_next (h : RcRefines s L q) {w : ℕ} (hw : L.Usable w) : w ≠ L.next := by
  rcases h.usable hw with rfl | ⟨o, ho, -, -⟩
  · exact h.next_ne_zero.symm
  · have := h.inv.objects.lt_next ho
    have := h.next
    omega

/-- A new List, which is marked when it is one of references. -/
theorem listNewMarked (h : RcRefines s L q) (c : RcConfig) (references : Bool) :
    ∃ q', RcRefines (if references then minyarListReferences (minyarListNew c s).2 L.next
      else (minyarListNew c s).2) (L.allocate (.ofElements references [])).2 q' := by
  obtain ⟨-, q₁, h₁⟩ := h.listNew c
  cases references with
  | false => exact ⟨q₁, h₁⟩
  | true =>
    have hempty : (L.allocate (.ofElements false [])).2.heap L.next = some (.list []) :=
      L.allocate_heap _
    have href := h₁.listReferences (L.usable_allocate h.next_ne_zero _) (Or.inl hempty)
    unfold RcLedger.elements at href
    rw [hempty, L.allocate_write] at href
    exact ⟨q₁, href⟩

/-- The elements that an append copies are those that the ledger records. -/
theorem exists_appended (h : RcRefines s L q) (c : RcConfig) {w : ℕ}
    {references takeValue : Bool} (hlegal : (RcOp.listAppended v w references takeValue).Legal L) :
    (references = true → ∀ x ∈ L.elements v, L.Usable x) ∧
      ∃ o, (if references then minyarListReferences (minyarListNew c s).2 L.next
        else (minyarListNew c s).2).objects.heap v = some o ∧ o.values = L.elements v := by
  obtain ⟨hv, hlegal⟩ := hlegal
  have hlist : IsList L v := by
    cases references with
    | false => exact Or.inl hlegal
    | true => exact hlegal.1.imp (fun hx => ⟨[], hx⟩) id
  have hheap : (L.allocate (.ofElements references [])).2.heap v = L.heap v :=
    Function.update_of_ne (h.ne_next hv) _ _
  have hbound : ∀ r x, L.heap r = some x → r < L.next := fun r x hx => (h.bound r x hx).2
  obtain ⟨q₂, h₂⟩ := h.listNewMarked c references
  obtain ⟨o, ho, -, -, hcontents⟩ := h₂.exists_list (hv.allocate hbound _)
    (hlist.imp (fun ⟨x, hx⟩ => ⟨x, hheap.trans hx⟩) fun ⟨x, hx⟩ => ⟨x, hheap.trans hx⟩)
  rw [hheap] at hcontents
  refine ⟨?_, o, ho, ?_⟩
  · rintro rfl x hx
    unfold RcLedger.elements at hx
    rcases hlegal.1 with hempty | ⟨values, hvalues⟩
    · rw [hempty] at hx
      cases hx
    · rw [hvalues] at hx
      exact h.usable_element hv hvalues hx
  · unfold RcLedger.elements
    rcases hlist with ⟨values, hx⟩ | ⟨values, hx⟩
    · rw [hx]
      exact (contents_list hcontents hx).2
    · rw [hx]
      exact (contents_references hcontents hx).2

/-- The steps that append a value to the elements of a List: a new List, room in it, the elements
and the value. -/
theorem listAppended_cases (h : RcRefines s L q) (c : RcConfig) {w : ℕ}
    {references takeValue : Bool} (hlegal : (RcOp.listAppended v w references takeValue).Legal L)
    {r : ℕ × RcState} (hs : minyarListAppended c s v w references takeValue = .ok r) :
    r.1 = L.next ∧ (references = true → ∀ x ∈ L.elements v, L.Usable x) ∧
      ∃ s₃ s₄ capacity fuel, Minyar.listGrowTo c L.next capacity fuel
          (if references then minyarListReferences (minyarListNew c s).2 L.next
            else (minyarListNew c s).2) = .ok s₃ ∧
        Minyar.listAddAll c L.next (L.elements v) s₃ = .ok s₄ ∧
        (if takeValue then minyarListAddTake c s₄ L.next w
          else minyarListAdd c s₄ L.next w) = .ok r.2 := by
  obtain ⟨hvalues, o, ho, helements⟩ := h.exists_appended c hlegal
  unfold minyarListAppended at hs
  simp only at hs
  rw [(h.listNew c).1] at hs
  generalize (if references then minyarListReferences (minyarListNew c s).2 L.next
    else (minyarListNew c s).2) = s₂ at hs ho
  rw [ho] at hs
  simp only at hs
  by_cases hlarge : o.values.length = 2 ^ 63 - 1
  · rw [if_pos hlarge] at hs
    cases hs
  rw [if_neg hlarge, helements] at hs
  obtain ⟨s₃, hs₃, hs⟩ := bind_eq_ok.mp hs
  obtain ⟨s₄, hs₄, hs⟩ := bind_eq_ok.mp hs
  obtain ⟨s₅, hs₅, hs⟩ := bind_eq_ok.mp hs
  cases hs
  exact ⟨rfl, hvalues, s₃, s₄, _, _, hs₃, hs₄, hs₅⟩

/-- The owner of a value that a new List of references takes over was the program's. -/
theorem takeForList_allocate (h : RcRefines s L q) {w : ℕ} (hw : L.Usable w) (values : List ℕ) :
    ((L.allocate (.ofElements true values)).2.takeForList L.next w).addToList L.next w =
      ((L.take w).allocate (.ofElements true (values ++ [w]))).2 := by
  have htake : (L.allocate (.ofElements true values)).2.takeForList L.next w =
      ((L.take w).allocate (.ofElements true values)).2 := by
    unfold RcLedger.takeForList
    rw [L.allocate_heap]
    unfold RcLedger.allocate RcLedger.take
    simp only [RcContents.ofElements, if_true, Multiset.erase_cons_tail _ (h.ne_next hw).symm]
  rw [htake]
  exact (L.take w).allocate_addToList true values w

/-- A new List of the elements of a List and a value. -/
theorem listAppended (h : RcRefines s L q) (c : RcConfig) {w : ℕ} {references takeValue : Bool}
    (hlegal : (RcOp.listAppended v w references takeValue).Legal L) {r : ℕ × RcState}
    (hs : minyarListAppended c s v w references takeValue = .ok r) :
    r.1 = L.next ∧ ∃ q', RcRefines r.2
      ((if references ∧ takeValue then L.take w else L).allocate
        (.ofElements references (L.elements v ++ [w]))).2 q' := by
  obtain ⟨hname, hvalues, s₃, s₄, capacity, fuel, hs₃, hs₄, hs₅⟩ := h.listAppended_cases c hlegal hs
  have hbound : ∀ r x, L.heap r = some x → r < L.next := fun r x hx => (h.bound r x hx).2
  have hnew := L.usable_allocate h.next_ne_zero
  refine ⟨hname, ?_⟩
  obtain ⟨q₂, h₂⟩ := h.listNewMarked c references
  obtain ⟨q₃, h₃⟩ := h₂.listGrowTo c (hnew _)
    (isList_of_takes (listTakes_allocate L references [] fun _ => trivial)) hs₃
  obtain ⟨q₄, h₄⟩ := h₃.listAddAll c references hbound h.next_ne_zero hvalues hs₄
  rw [List.nil_append] at h₄
  -- The last value.
  cases takeValue with
  | false =>
    have htakes := listTakes_allocate L references (L.elements v)
      (p := (L.allocate (.ofElements references (L.elements v))).2.Usable w) (by
        rintro rfl
        exact hlegal.2.2.allocate hbound _)
    obtain ⟨q₅, h₅⟩ := h₄.listAdd c (hnew _) htakes hs₅
    rw [L.allocate_addToList] at h₅
    simp only [Bool.false_eq_true, and_false, if_false]
    exact ⟨q₅, h₅⟩
  | true =>
    have htakes := listTakes_allocate L references (L.elements v)
      (p := (L.allocate (.ofElements references (L.elements v))).2.Owned w) (by
        rintro rfl
        exact hlegal.2.2.allocate hbound _)
    obtain ⟨q₅, h₅⟩ := h₄.listAddTake c (hnew _) htakes hs₅
    refine ⟨q₅, ?_⟩
    cases references with
    | false =>
      have htake : (L.allocate (.ofElements false (L.elements v))).2.takeForList L.next w =
          (L.allocate (.ofElements false (L.elements v))).2 := by
        unfold RcLedger.takeForList
        rw [L.allocate_heap]
        rfl
      rw [htake, L.allocate_addToList] at h₅
      exact h₅
    | true =>
      rw [h.takeForList_allocate (usable_of_owned hlegal.2.2)] at h₅
      exact h₅

/-! ## Records -/

/-- A new record. -/
theorem recordAllocate (h : RcRefines s L q) (c : RcConfig) {fieldCount : ℤ}
    {references : Bool} {r : ℕ × RcState}
    (hs : Minyar.recordAllocate c s fieldCount references = .ok r) :
    r.1 = L.next ∧ ∃ q', RcRefines r.2 (L.allocate
      (if references then .record (List.replicate fieldCount.toNat (0, false))
      else .scalarRecord (List.replicate fieldCount.toNat 0))).2 q' := by
  unfold Minyar.recordAllocate at hs
  by_cases hmany : fieldCount < 0 ∨ (2 ^ 64 - 1) / 8 < fieldCount
  · rw [if_pos hmany] at hs
    cases hs
  rw [if_neg hmany] at hs
  by_cases hmemory : (2 ^ 64 - 1 - 8 - 8) / (if references then 9 else 8) < fieldCount
  · rw [if_pos hmemory] at hs
    cases hs
  rw [if_neg hmemory] at hs
  cases hs
  have hlength : fieldCount.toNat < 2 ^ 64 := by omega
  cases references with
  | false =>
    generalize ho : ({
      kind := .scalarRecord
      owners := 1
      values := List.replicate fieldCount.toNat 0
      map := [] } : RcObject) = o
    have hcontents : o.contents = .scalarRecord (List.replicate fieldCount.toNat 0) := by
      rw [← ho]
      rfl
    have hallocate := h.allocateObject c (o := o) (by rw [← ho]) ?_ ?_
    · rw [hcontents] at hallocate
      rw [← ho] at hallocate
      exact hallocate
    · intro w hw
      rw [← ho] at hw
      cases hw
    · intro heap dead v _ _ hv
      subst ho
      exact ⟨fun hk => (by cases hk), by simpa using hlength, fun _ _ hk => absurd rfl hk,
        fun _ hk => (by cases hk), fun _ hk => (by cases hk), fun hd => absurd hd hv,
        fun hk => (by cases hk), fun hk => (by cases hk)⟩
  | true =>
    generalize ho : ({
      kind := .record
      owners := 1
      values := List.replicate fieldCount.toNat 0
      map := List.replicate fieldCount.toNat 0 } : RcObject) = o
    have hcontents : o.contents = .record (List.replicate fieldCount.toNat (0, false)) := by
      rw [← ho, RcObject.contents_of_record rfl]
      simp [RcObject.fields]
    have hallocate := h.allocateObject c (o := o) (by rw [← ho]) ?_ ?_
    · rw [hcontents] at hallocate
      rw [← ho] at hallocate
      exact hallocate
    · intro w hw
      rw [← RcObject.contents_slots (fun _ => by rw [← ho]), hcontents] at hw
      unfold RcContents.slots at hw
      obtain ⟨x, hx, rfl⟩ := List.mem_map.mp hw
      rw [List.eq_of_mem_replicate hx]
      rfl
    · intro heap dead v _ _ hv
      subst ho
      refine ⟨fun _ => by simp, by simpa using hlength, fun _ hk => absurd rfl hk,
        fun _ _ b hb => ?_, fun _ hk => (by cases hk), fun hd => absurd hd hv,
        fun hk => (by cases hk), fun hk => (by cases hk)⟩
      rw [List.eq_of_mem_replicate hb]
      exact Nat.two_pos

/-- Writing the fields of a record with references. -/
theorem writeRecord (h : RcRefines s L q) (ho : s.objects.heap v = some o)
    (hv : v ∉ rcDead s.objects.active q) (hkind : o.kind = .record) {o' : RcObject}
    (hkind' : o'.kind = .record) (howners : o'.owners = o.owners)
    (hlength : o'.values.length = o.values.length) (hmap : o'.map.length = o.map.length)
    (hflags : ∀ b ∈ o'.map, b < 2) {held : Multiset ℕ}
    (hslots : ∀ r, r ≠ 0 → o'.slots.count r + held.count r = o.slots.count r + L.held.count r) :
    RcRefines { s with objects := s.objects.write v o' }
      { L with heap := Function.update L.heap v (some o'.contents), held := held } q := by
  have hcell := h.inv.objects.cells v o ho
  have hmortal := h.mortal ho hv (by simp [hkind])
  refine h.write ho hv hmortal howners ?_ (fun hk => ?_) hslots
  · refine ⟨fun _ => ?_, ?_, fun _ hk => absurd hkind' hk, fun _ _ => hflags,
      fun _ h0 => absurd (howners.symm.trans h0) hmortal, fun hr => absurd hr hv, fun hk => ?_,
      fun hk => ?_⟩
    · rw [hmap, hlength]
      exact hcell.map_length hkind
    · rw [hlength]
      exact hcell.values_length
    · rw [hkind'] at hk
      cases hk
    · rw [hkind'] at hk
      cases hk
  · rw [hkind] at hk
    cases hk

/-- Storing a plain value in a field that holds no reference. -/
theorem setPlain (h : RcRefines s L q) (hv : L.Usable v) {i : ℕ}
    (hplain : (∃ values, L.heap v = some (.scalarRecord values)) ∨
      ∃ fields, L.heap v = some (.record fields) ∧ ∀ x, fields[i]? = some x → x.2 = false)
    (w : ℕ) : RcRefines (s.modify v fun object =>
      { object with values := object.values.set i w }) (L.setPlain v i w) q := by
  unfold RcLedger.setPlain
  rcases hplain with ⟨values, hx⟩ | ⟨fields, hx, hfield⟩
  · obtain ⟨o, ho, hdead, hcontents⟩ := h.exists_of_usable hv hx
    have hkind : o.kind = .scalarRecord ∧ o.values = values := by
      unfold RcObject.contents at hcontents
      split at hcontents <;> simp_all
    obtain ⟨hkind, rfl⟩ := hkind
    have hcell := h.inv.objects.cells v o ho
    have hmortal := h.mortal ho hdead (by simp [hkind])
    rw [RcState.modify_eq ho, hx]
    have hwrite := @RcRefines.write s L q v o h ho hdead hmortal
      { o with values := o.values.set i w } rfl ?_ ?_ L.held ?_
    · rw [RcObject.contents_of_scalarRecord (o := { o with values := o.values.set i w }) hkind]
        at hwrite
      exact hwrite
    · refine ⟨fun hk => ?_, ?_, fun _ _ hk => absurd hkind hk, fun _ hk => ?_,
        fun _ h0 => absurd h0 hmortal, fun hr => absurd hr hdead, fun hk => ?_, fun hk => ?_⟩
      · simp [hkind] at hk
      · simpa using hcell.values_length
      · simp [hkind] at hk
      · simp [hkind] at hk
      · simp [hkind] at hk
    · intro hk
      rw [hkind] at hk
      cases hk
    · intro r _
      simp [RcObject.slots, hkind]
  · obtain ⟨o, ho, hdead, hcontents⟩ := h.exists_of_usable hv hx
    have hkind : o.kind = .record := by
      unfold RcObject.contents at hcontents
      split at hcontents <;> simp_all
    rw [RcObject.contents_of_record hkind] at hcontents
    obtain rfl : o.fields = fields := by simpa using hcontents
    have hmap := (h.inv.objects.cells v o ho).map_length hkind
    have hfields : ({ o with values := o.values.set i w } : RcObject).fields =
        o.fields.set i (w, false) := by
      unfold RcObject.fields at hfield ⊢
      rw [← zip_set]
      congr 1
      -- The mark of the field is not set.
      refine List.ext_getElem (by simp) fun k h1 h2 => ?_
      rw [List.getElem_set]
      split_ifs with hk
      · subst hk
        have hi : i < o.map.length := by simpa using h1
        have hi' : i < o.values.length := hmap ▸ hi
        have := hfield (o.values[i], decide (o.map[i] &&& 1 = 1)) ?_
        · simpa using this
        · rw [List.getElem?_eq_getElem (by simp; omega)]
          simp
      · rfl
    rw [RcState.modify_eq ho, hx]
    have hwrite := @writeRecord s L q v o h ho hdead hkind { o with values := o.values.set i w }
      hkind rfl (by simp) rfl ((h.inv.objects.cells v o ho).flags hdead hkind) L.held ?_
    · rw [RcObject.contents_of_record (o := { o with values := o.values.set i w }) hkind, hfields]
        at hwrite
      exact hwrite
    · intro r _
      have hslots : ({ o with values := o.values.set i w } : RcObject).slots = o.slots := by
        rw [RcObject.slots_of_record (o := { o with values := o.values.set i w }) hkind
          (by simpa using hmap), RcObject.slots_of_record hkind hmap, hfields]
        refine List.ext_getElem (by simp) fun k h1 h2 => ?_
        rw [List.getElem_map, List.getElem_map, List.getElem_set]
        by_cases hk : i = k
        · subst hk
          have hi : i < o.fields.length := by simpa using h2
          rw [if_pos rfl, hfield _ (List.getElem?_eq_getElem hi)]
          rfl
        · rw [if_neg hk]
      rw [hslots]

/-- Storing a reference in a field uses up an owner and hands the previous one to the program. -/
theorem setReference {w i : ℕ} (h : RcRefines s (L.give w) q) (ho : s.objects.heap v = some o)
    (hv : v ∉ rcDead s.objects.active q) (hkind : o.kind = .record) (hi : i < o.values.length)
    (hx : L.heap v = some o.contents) :
    RcRefines
      { s with
        objects := s.objects.write v
          { o with values := o.values.set i w, map := o.map.set i 1 } }
      (L.setReference v i w) q := by
  have hcell := h.inv.objects.cells v o ho
  have hmap := hcell.map_length hkind
  have hfields : ({ o with values := o.values.set i w, map := o.map.set i 1 } : RcObject).fields =
      o.fields.set i (w, true) := by
    unfold RcObject.fields
    rw [← zip_set, List.map_set]
    rfl
  have hi' : i < o.fields.length := by
    unfold RcObject.fields
    simpa [hmap] using hi
  unfold RcLedger.setReference
  rw [hx, RcObject.contents_of_record hkind]
  simp only
  have hwrite := @writeRecord s (L.give w) q v o h ho hv hkind
    { o with values := o.values.set i w, map := o.map.set i 1 } hkind rfl (by simp) (by simp)
    ?_ (if (o.fields.getD i (0, false)).2 then (o.fields.getD i (0, false)).1 ::ₘ L.held
      else L.held) ?_
  · rw [RcObject.contents_of_record
      (o := { o with values := o.values.set i w, map := o.map.set i 1 }) hkind, hfields] at hwrite
    split_ifs at hwrite ⊢ <;> exact hwrite
  · intro b hb
    rcases List.mem_or_eq_of_mem_set hb with hb | rfl
    · exact hcell.flags hv hkind b hb
    · exact Nat.one_lt_two
  · intro r hr
    have hset := count_set_add (l := o.slots) (i := i)
      (by rw [RcObject.slots_of_record hkind hmap]; simpa using hi') w r
    have hslots : ({ o with values := o.values.set i w, map := o.map.set i 1 } : RcObject).slots =
        o.slots.set i w := by
      rw [RcObject.slots_of_record
        (o := { o with values := o.values.set i w, map := o.map.set i 1 }) hkind
        (by simpa using hmap), RcObject.slots_of_record hkind hmap, hfields, List.map_set]
      rfl
    have hprevious : o.slots.getD i 0 = if (o.fields.getD i (0, false)).2 then
        (o.fields.getD i (0, false)).1 else 0 := by
      rw [RcObject.slots_of_record hkind hmap, List.getD_eq_getElem _ _ (by simpa using hi'),
        List.getElem_map, List.getD_eq_getElem _ _ hi']
    rw [hslots, show (L.give w).held = w ::ₘ L.held from rfl, count_cons]
    rw [hprevious] at hset
    split_ifs at hset ⊢ with hmark
    · rw [count_cons]
      omega
    · rw [List.count_cons_of_ne (Ne.symm hr), List.count_nil] at hset
      omega

/-- A record that a plain value may be stored in. -/
theorem exists_of_plain (h : RcRefines s L q) (hv : L.Usable v) {field : ℤ}
    (hplain : L.PlainField v field) : ∃ o, s.objects.heap v = some o := by
  rcases hplain with ⟨values, hx⟩ | ⟨fields, hx, -⟩
  · obtain ⟨o, ho, -⟩ := h.exists_of_usable hv hx
    exact ⟨o, ho⟩
  · obtain ⟨o, ho, -⟩ := h.exists_of_usable hv hx
    exact ⟨o, ho⟩

/-- Storing a plain value in a record of plain values. -/
theorem recordSetScalar (h : RcRefines s L q) {w : ℕ} {field : ℤ} (hv : L.Usable v)
    (hplain : L.PlainField v field) (hs : minyarRecordSetScalar s v field w = .ok s') :
    RcRefines s' (L.setPlain v field.toNat w) q := by
  have hset := h.setPlain hv hplain w
  obtain ⟨o, ho⟩ := h.exists_of_plain hv hplain
  unfold minyarRecordSetScalar at hs
  rw [ho] at hs
  simp only at hs
  split_ifs at hs
  cases hs
  exact hset

/-- Storing a plain value in a record. -/
theorem recordSet (h : RcRefines s L q) (c : RcConfig) {w : ℕ} {field : ℤ} (hv : L.Usable v)
    (hplain : L.PlainField v field) (hs : minyarRecordSet c s v field w = .ok s') :
    ∃ q', RcRefines s' (L.setPlain v field.toNat w) q' := by
  have hset := h.setPlain hv hplain w
  obtain ⟨o, ho⟩ := h.exists_of_plain hv hplain
  unfold minyarRecordSet at hs
  rw [ho] at hs
  simp only at hs
  split_ifs at hs
  · cases hs
    exact hset.poll c _
  · cases hs
    exact ⟨q, hset⟩

/-- A record that a reference was stored in, when the owner is in the hands of the program. -/
theorem recordSetTake_stored {w : ℕ} (h : RcRefines s (L.give w) q) (c : RcConfig) {field : ℤ}
    (ho : s.objects.heap v = some o) (hv : v ∉ rcDead s.objects.active q)
    (hrecord : ∃ fields, L.heap v = some (.record fields))
    (hs : minyarRecordSetTake c s v field w = .ok s') :
    ∃ o', RcRefines { s with objects := s.objects.write v o' } (L.setReference v field.toNat w) q ∧
      s' = (minyarRcPoll c { s with objects := s.objects.write v o' } c.pollBudget).2 := by
  have hcontents : L.heap v = some o.contents := h.heap v o ho hv
  have hkind : o.kind = .record := by
    obtain ⟨fields, hx⟩ := hrecord
    rw [hcontents] at hx
    unfold RcObject.contents at hx
    split at hx <;> simp_all
  unfold minyarRecordSetTake at hs
  rw [ho] at hs
  simp only at hs
  by_cases hfield : field < 0 ∨ (o.values.length : ℤ) ≤ field
  · rw [if_pos hfield] at hs
    cases hs
  rw [if_neg hfield, RcState.modify_eq ho] at hs
  unfold minyarRecordSet at hs
  rw [RcObjects.write_heap_self] at hs
  simp only at hs
  rw [if_neg hfield, if_pos hkind] at hs
  cases hs
  refine ⟨_, h.setReference ho hv hkind (i := field.toNat) (by omega) hcontents, ?_⟩
  rw [RcState.modify_eq (RcObjects.write_heap_self _ _ _)]
  have hwrite : ∀ o₁ o₂ : RcObject, (s.objects.write v o₁).write v o₂ = s.objects.write v o₂ := by
    intro o₁ o₂
    unfold RcObjects.write
    simp only [Function.update_idem]
  simp only [hwrite]

/-- Storing a reference in a record, when its owner is in the hands of the program. -/
theorem recordSetTake {w : ℕ} (h : RcRefines s (L.give w) q) (c : RcConfig) {field : ℤ}
    (ho : s.objects.heap v = some o) (hv : v ∉ rcDead s.objects.active q)
    (hrecord : ∃ fields, L.heap v = some (.record fields))
    (hs : minyarRecordSetTake c s v field w = .ok s') :
    ∃ q', RcRefines s' (L.setReference v field.toNat w) q' := by
  obtain ⟨o', hstored, rfl⟩ := h.recordSetTake_stored c ho hv hrecord hs
  exact hstored.poll c _

/-- Storing a reference in a record, which takes a new owner. -/
theorem recordSetReference (h : RcRefines s L q) (c : RcConfig) {w : ℕ} {field : ℤ}
    (hv : L.Usable v) (hw : L.Usable w) (hrecord : ∃ fields, L.heap v = some (.record fields))
    (hs : minyarRecordSetReference c s v field w = .ok s') :
    ∃ q', RcRefines s' (L.setReference v field.toNat w) q' := by
  obtain ⟨s₁, hs₁, hs⟩ := bind_eq_ok.mp hs
  have h₁ := h.retain hw hs₁
  obtain ⟨fields, hx⟩ := hrecord
  obtain ⟨o, ho, hdead, -⟩ := h₁.exists_of_usable (hv.give w) hx
  exact h₁.recordSetTake c ho hdead ⟨fields, hx⟩ hs

end RcRefines

end Minyar

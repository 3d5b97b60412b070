import Minyar.Rc.Kinds
import Minyar.Rc.Run

/-!
# Lists of immortal references

A List of references starts as one of immortal references, and its first mortal member turns it into
one whose slots are visited when it dies.  The kind in the header is therefore a fact about the
history of the List: `StoredMortal` says that a mortal value was stored in it.
-/

namespace Minyar

open CountedGraph

/-! ## The history of a List -/

/-- The values that an operation stores in a List of references. -/
def RcOp.stores (L : RcLedger) (v : ℕ) : RcOp → List ℕ
  | listAdd list value | listAddTake list value | listSet list _ value | listSetTake list _ value =>
    match L.heap list with
    | some (.references _) => if list = v then [value] else []
    | _ => []
  | listAppended list value true _ => if L.next = v then L.elements list ++ [value] else []
  | _ => []

/-- One of the operations stored a mortal value in the List. -/
def StoredMortal (ops : List RcOp) (v : ℕ) : Prop :=
  ∃ before op rest, ops = before ++ op :: rest ∧
    ∃ w ∈ op.stores (RcLedger.after before) v, (RcLedger.after before).mortal w = true

theorem not_storedMortal_nil (v : ℕ) : ¬ StoredMortal [] v := by
  rintro ⟨before, op, rest, h, -⟩
  simp at h

/-- One more operation. -/
theorem storedMortal_append {ops : List RcOp} {op : RcOp} {v : ℕ} :
    StoredMortal (ops ++ [op]) v ↔ StoredMortal ops v ∨
      ∃ w ∈ op.stores (RcLedger.after ops) v, (RcLedger.after ops).mortal w = true := by
  constructor
  · rintro ⟨before, op', rest, h, hw⟩
    rcases List.eq_nil_or_concat rest with rfl | ⟨rest, last, rfl⟩
    · obtain ⟨rfl, hop⟩ := List.append_inj' h rfl
      cases hop
      exact Or.inr hw
    · refine Or.inl ⟨before, op', rest, ?_, hw⟩
      rw [List.concat_eq_append, ← List.cons_append, ← List.append_assoc] at h
      exact (List.append_inj' h rfl).1
  · rintro (⟨before, op', rest, rfl, hw⟩ | hw)
    · exact ⟨before, op', rest ++ [op], by simp, hw⟩
    · exact ⟨ops, op, [], rfl, hw⟩

/-! ## Lists of references in the ledger -/

namespace RcLedger

variable {L M : RcLedger} {v : ℕ}

/-- The ledger records a List of references. -/
def IsReferences (L : RcLedger) (v : ℕ) : Prop := ∃ values, L.heap v = some (.references values)

/-- A List of references may be written. -/
theorem IsReferences.write (h : L.IsReferences v) (r : ℕ) (values : List ℕ) :
    (L.write r (.references values)).IsReferences v := by
  unfold RcLedger.write IsReferences
  by_cases hr : v = r
  · rw [hr]
    exact ⟨values, Function.update_self _ _ _⟩
  · simp only [Function.update_of_ne hr]
    exact h

/-- So may any other object. -/
theorem IsReferences.write_other (h : L.IsReferences v) {r : ℕ} {x : RcContents}
    (hr : ¬ L.IsReferences r) : (L.write r x).IsReferences v := by
  have hne : v ≠ r := fun heq => hr (heq ▸ h)
  unfold RcLedger.write IsReferences
  simp only [Function.update_of_ne hne]
  exact h

/-- Allocation keeps Lists of references. -/
theorem IsReferences.allocate (h : L.IsReferences v) (hbound : v < L.next) (x : RcContents) :
    (L.allocate x).2.IsReferences v := by
  unfold RcLedger.allocate IsReferences
  simp only [Function.update_of_ne hbound.ne]
  exact h

/-- What is known to be something else is no List of references. -/
theorem not_isReferences {x : RcContents} (hx : L.heap v = some x)
    (hne : ∀ values, x ≠ .references values) : ¬ L.IsReferences v := by
  rintro ⟨values, h⟩
  rw [hx] at h
  exact hne values (Option.some.inj h)

theorem IsReferences.addToList (h : L.IsReferences v) (list value : ℕ) :
    (L.addToList list value).IsReferences v := by
  unfold RcLedger.addToList
  split
  · next hx => exact h.write_other (not_isReferences hx fun _ => nofun)
  · exact h.write _ _
  · exact h

theorem IsReferences.setInList (h : L.IsReferences v) (list position value : ℕ) :
    (L.setInList list position value).IsReferences v := by
  unfold RcLedger.setInList
  split
  · next hx => exact h.write_other (not_isReferences hx fun _ => nofun)
  · exact h.write _ _
  · exact h

theorem IsReferences.takeForList (h : L.IsReferences v) (list value : ℕ) :
    (L.takeForList list value).IsReferences v := by
  unfold RcLedger.takeForList
  split <;> exact h

theorem IsReferences.setPlain (h : L.IsReferences v) (record field value : ℕ) :
    (L.setPlain record field value).IsReferences v := by
  unfold RcLedger.setPlain
  split
  · next hx => exact h.write_other (not_isReferences hx fun _ => nofun)
  · next hx => exact h.write_other (not_isReferences hx fun _ => nofun)
  · exact h

theorem IsReferences.setReference (h : L.IsReferences v) (record field value : ℕ) :
    (L.setReference record field value).IsReferences v := by
  unfold RcLedger.setReference
  split
  · next hx =>
      have hrecord := not_isReferences hx fun _ => nofun
      simp only
      split_ifs
      · exact IsReferences.write_other (L := L.give _) h hrecord
      · exact h.write_other hrecord
  · exact h

theorem IsReferences.sliceText (h : L.IsReferences v) (hbound : v < L.next) (text first last : ℕ) :
    (L.sliceText text first last).2.IsReferences v := by
  unfold RcLedger.sliceText
  split
  · simp only
    split_ifs
    all_goals first | exact h | exact h.allocate hbound _
  · exact h

theorem IsReferences.keep (h : L.IsReferences v) (value : ℕ) : (L.keep value).IsReferences v := by
  unfold RcLedger.keep
  split_ifs <;> exact h

end RcLedger

/-- A List of references stays one. -/
theorem RcOp.effect_isReferences {L : RcLedger} {v : ℕ} (op : RcOp) (h : L.IsReferences v)
    (hbound : v < L.next) : (op.effect L).2.IsReferences v := by
  cases op with
  | literal bytes =>
    obtain ⟨values, hx⟩ := h
    exact ⟨values, (Function.update_of_ne hbound.ne _ _).trans hx⟩
  | newText bytes => exact h.allocate hbound _
  | textSlice text first last => exact h.sliceText hbound text first last
  | listNew => exact h.allocate hbound _
  | listReferences list => exact h.write list _
  | listAdd list value => exact h.addToList list value
  | listAddTake list value => exact (h.takeForList list value).addToList list value
  | listSet list position value => exact h.setInList list _ value
  | listSetTake list position value => exact (h.takeForList list value).setInList list _ value
  | listAppended list value references takeValue =>
    simp only [RcOp.effect]
    split_ifs
    · exact RcLedger.IsReferences.allocate (L := L.take value) h hbound _
    · exact h.allocate hbound _
  | recordNew fieldCount => exact h.allocate hbound _
  | recordNewScalar fieldCount => exact h.allocate hbound _
  | recordSetScalar record field value => exact h.setPlain record _ value
  | recordSet record field value => exact h.setPlain record _ value
  | recordSetTake record field value =>
    exact RcLedger.IsReferences.setReference (L := L.take value) h record _ value
  | recordSetReference record field value => exact h.setReference record _ value
  | keep value => exact RcLedger.IsReferences.keep (L := L.take value) h value
  | borrow value => exact h.keep value
  | _ => exact h

/-- What an operation stores in lies in a List of references afterwards. -/
theorem RcOp.isReferences_of_stores {L : RcLedger} {op : RcOp} {v w : ℕ} (hw : w ∈ op.stores L v)
    (hbound : ∀ r x, L.heap r = some x → r < L.next) : (op.effect L).2.IsReferences v := by
  have hlist : ∀ list value, w ∈ (match L.heap list with
      | some (.references _) => if list = v then [value] else []
      | _ => []) → L.IsReferences v ∧ list = v := by
    intro list value hw
    split at hw
    · next values hx =>
        split_ifs at hw with hv
        · exact ⟨⟨values, hv ▸ hx⟩, hv⟩
        · cases hw
    · cases hw
  have hkeep : L.IsReferences v → (op.effect L).2.IsReferences v := by
    rintro ⟨values, hx⟩
    exact op.effect_isReferences ⟨values, hx⟩ (hbound v _ hx)
  cases op with
  | listAdd list value => exact hkeep (hlist list value hw).1
  | listAddTake list value => exact hkeep (hlist list value hw).1
  | listSet list position value => exact hkeep (hlist list value hw).1
  | listSetTake list position value => exact hkeep (hlist list value hw).1
  | listAppended list value references takeValue =>
    cases references with
    | false => cases hw
    | true =>
      unfold RcOp.stores at hw
      split_ifs at hw with hv
      · subst hv
        refine ⟨L.elements list ++ [value], ?_⟩
        simp only [RcOp.effect, true_and, RcContents.ofElements, if_true]
        split_ifs <;> exact RcLedger.allocate_heap _ _
      · cases hw
  | _ => cases hw

namespace RcRun

variable {c : RcConfig} {ops : List RcOp} {L : RcLedger} {s : RcState}

/-- A mortal value is only stored in what is a List of references from then on. -/
theorem isReferences_of_storedMortal (h : RcRun c ops L s) {v : ℕ} (hv : StoredMortal ops v) :
    L.IsReferences v := by
  induction h with
  | nil => exact absurd hv (not_storedMortal_nil v)
  | @step ops op L s r h hlegal hs ih =>
    obtain ⟨q, hq⟩ := h.refines
    have hbound : ∀ r x, L.heap r = some x → r < L.next := fun r x hx => (hq.bound r x hx).2
    rcases storedMortal_append.mp hv with hv | ⟨w, hw, -⟩
    · obtain ⟨values, hx⟩ := ih hv
      exact op.effect_isReferences ⟨values, hx⟩ (hbound v _ hx)
    · rw [← h.ledger] at hw
      exact RcOp.isReferences_of_stores hw hbound

end RcRun

/-! ## Promotion -/

/-- Allocation makes nothing mortal. -/
theorem RcLedger.mortal_allocate (L : RcLedger) {w : ℕ} (hw : w ≠ L.next) (x : RcContents) :
    (L.allocate x).2.mortal w = L.mortal w := by
  unfold RcLedger.mortal RcLedger.allocate
  simp only [Function.update_of_ne hw]

namespace RcRefines

variable {s s' : RcState} {L : RcLedger} {q : RcQueues} {v w : ℕ} {o o' : RcObject}

/-- Mortality is a matter of the ledger. -/
theorem mortal_eq (h : RcRefines s L q) (hw : L.Usable w) :
    (w ≠ 0 ∧ s.objects.mortal w = true) ↔ L.mortal w = true := by
  rcases h.usable hw with rfl | ⟨t, ht, hdead, hcontents⟩
  · simp [RcLedger.mortal]
  · have h0 := h.inv.objects.ne_zero ht
    unfold RcObjects.mortal RcLedger.mortal
    simp only [ht, hcontents, h0, ne_eq, not_false_eq_true, true_and, decide_true, Bool.true_and]
    by_cases hkind : t.kind = .text
    · simp [RcObject.contents, hkind]
    · have howners := h.mortal ht hdead hkind
      simp only [howners, not_false_eq_true, decide_true, true_iff]
      cases hk : t.kind with
      | text => exact absurd hk hkind
      | _ => simp [RcObject.contents, hk]

/-- A List of references that the program may use is there. -/
theorem exists_references (h : RcRefines s L q) (hv : L.Usable v) (hx : L.IsReferences v) :
    ∃ o, s.objects.heap v = some o ∧ (o.kind = .references ∨ o.kind = .referencesImmortal) := by
  obtain ⟨values, hx⟩ := hx
  obtain ⟨o, ho, -, -, hcontents⟩ := h.exists_list hv (Or.inr ⟨values, hx⟩)
  exact ⟨o, ho, (contents_references hcontents hx).1⟩

/-- The first mortal value promotes a List of immortal references. -/
theorem listStoreKind_eq (h : RcRefines s L q) (hw : L.Usable w)
    (hkind : o.kind = .references ∨ o.kind = .referencesImmortal) :
    listStoreKind s.objects w o.kind = .references ↔
      (o.kind = .references ∨ L.mortal w = true) := by
  have hmortal := h.mortal_eq hw
  unfold listStoreKind
  rcases hkind with hkind | hkind
  · simp [hkind]
  · rw [hkind, ← hmortal]
    simp

/-- A List that was marked for a value keeps the mark. -/
theorem storeKind_kind (h : RcRefines s L q) (ho : s.objects.heap v = some o)
    (hkind : o.kind = .references ∨ o.kind = .referencesImmortal) (hw : L.Usable w)
    (hkeeps : KeepsKind v (s.modify v fun object =>
      { object with kind := listStoreKind s.objects w o.kind }).objects s'.objects)
    (ho' : s'.objects.heap v = some o') :
    (o'.kind = .references ∨ o'.kind = .referencesImmortal) ∧
      (o'.kind = .references ↔ (o.kind = .references ∨ L.mortal w = true)) := by
  have hstore := h.listStoreKind_eq hw hkind
  have hstored := (h.listStoreKind_members hkind hw).1
  rw [RcState.modify_eq ho] at hkeeps
  obtain ⟨x, hx, hkind'⟩ := hkeeps.kind (h.inv.objects.lt_next ho) o' ho'
  rw [show (RcObjects.write _ v _).heap v = some _ from RcObjects.write_heap_self _ _ _] at hx
  cases hx
  rw [hkind']
  exact ⟨hstored, hstore⟩

/-- After room is made a List of references has the kind that it had. -/
theorem listEnsure_kind (h : RcRefines s L q) {c : RcConfig} (hv : L.Usable v)
    (hx : L.IsReferences v) (hs : Minyar.listEnsure c s v = .ok s')
    (ho : s.objects.heap v = some o) : ∃ q', RcRefines s' L q' ∧ ∃ o', s'.objects.heap v = some o' ∧
      o'.kind = o.kind ∧ (o.kind = .references ∨ o.kind = .referencesImmortal) := by
  obtain ⟨q', h', -⟩ := h.listEnsure c hv (Or.inr hx) hs
  obtain ⟨values, hx⟩ := hx
  obtain ⟨o', ho', -, -, hcontents⟩ := h'.exists_list hv (Or.inr ⟨values, hx⟩)
  obtain ⟨hkind, -⟩ := contents_references hcontents hx
  obtain ⟨y, hy, hsame⟩ := (KeepsKind.listEnsure hs).kind (h.inv.objects.lt_next ho) o' ho'
  rw [ho] at hy
  cases hy
  exact ⟨q', h', o', ho', hsame, hsame ▸ hkind⟩

/-- Adding a value to a List of references leaves the kind that the value asks for. -/
theorem listAdd_kind (h : RcRefines s L q) {c : RcConfig} (hv : L.Usable v)
    (hx : L.IsReferences v) (hw : L.Usable w) (hs : minyarListAdd c s v w = .ok s')
    (ho : s.objects.heap v = some o) (ho' : s'.objects.heap v = some o') :
    (o'.kind = .references ∨ o'.kind = .referencesImmortal) ∧
      (o'.kind = .references ↔ (o.kind = .references ∨ L.mortal w = true)) := by
  obtain ⟨s₁, hs₁, hs⟩ := bind_eq_ok.mp hs
  obtain ⟨q₁, h₁, o₁, ho₁, hsame, hkind⟩ := h.listEnsure_kind hv hx hs₁ ho
  rw [ho₁] at hs
  simp only at hs
  rw [if_neg (by rw [hsame]; rcases hkind with hk | hk <;> simp [hk])] at hs
  obtain ⟨s₂, hs₂, hs⟩ := bind_eq_ok.mp hs
  cases hs
  rw [← hsame]
  refine h₁.storeKind_kind ho₁ (hsame ▸ hkind) hw (KeepsKind.trans (t := s₂.objects) ?_ ?_) ho'
  · split_ifs at hs₂
    · exact .retain hs₂
    · cases hs₂
      exact .refl v _
  · exact (KeepsKind.servicePending c _ _).after (KeepsKind.modify _ _ _ fun _ => rfl)

/-- So does adding a value whose owner the List takes over. -/
theorem listAddTake_kind (h : RcRefines s L q) {c : RcConfig} (hv : L.Usable v)
    (hx : L.IsReferences v) (hw : L.Usable w) (hs : minyarListAddTake c s v w = .ok s')
    (ho : s.objects.heap v = some o) (ho' : s'.objects.heap v = some o') :
    (o'.kind = .references ∨ o'.kind = .referencesImmortal) ∧
      (o'.kind = .references ↔ (o.kind = .references ∨ L.mortal w = true)) := by
  obtain ⟨s₁, hs₁, hs⟩ := bind_eq_ok.mp hs
  obtain ⟨q₁, h₁, o₁, ho₁, hsame, hkind⟩ := h.listEnsure_kind hv hx hs₁ ho
  rw [ho₁] at hs
  simp only at hs
  rw [if_neg (by rw [hsame]; rcases hkind with hk | hk <;> simp [hk])] at hs
  cases hs
  rw [← hsame]
  refine h₁.storeKind_kind ho₁ (hsame ▸ hkind) hw ?_ ho'
  exact (KeepsKind.servicePending c _ _).after (KeepsKind.modify _ _ _ fun _ => rfl)

/-- So does replacing an element. -/
theorem listSetOwned_kind (h : RcRefines s L q) {c : RcConfig} {position : ℤ} {retainValue : Bool}
    (hx : L.IsReferences v) (hw : L.Usable w) (hv : L.Usable v)
    (hs : minyarListSetOwned c s v position w retainValue = .ok s')
    (ho : s.objects.heap v = some o) (ho' : s'.objects.heap v = some o') :
    (o'.kind = .references ∨ o'.kind = .referencesImmortal) ∧
      (o'.kind = .references ↔ (o.kind = .references ∨ L.mortal w = true)) := by
  obtain ⟨values, hx⟩ := hx
  obtain ⟨x, ho₁, -, -, hcontents⟩ := h.exists_list hv (Or.inr ⟨values, hx⟩)
  rw [ho] at ho₁
  cases ho₁
  obtain ⟨hkind, -⟩ := contents_references hcontents hx
  refine h.storeKind_kind ho hkind hw ?_ ho'
  unfold minyarListSetOwned at hs
  rw [ho] at hs
  simp only at hs
  by_cases hposition : position < 0 ∨ (o.values.length : ℤ) ≤ position
  · rw [if_pos hposition] at hs
    cases hs
  rw [if_neg hposition] at hs
  split_ifs at hs
  · obtain ⟨s₁, hs₁, hs⟩ := bind_eq_ok.mp hs
    cases hs
    exact (KeepsKind.retain hs₁).trans
      ((KeepsKind.release c _ _).after (KeepsKind.modify _ _ _ fun _ => rfl))
  · cases hs
    exact (KeepsKind.release c _ _).after (KeepsKind.modify _ _ _ fun _ => rfl)
  · cases hs
    exact KeepsKind.modify _ _ _ fun _ => rfl

/-- A List of plain values stays one when a value is added. -/
theorem listAdd_plain (h : RcRefines s L q) {c : RcConfig} {values : List ℕ} (hv : L.Usable v)
    (hx : L.heap v = some (.list values)) (hs : minyarListAdd c s v w = .ok s')
    (ho' : s'.objects.heap v = some o') : o'.kind = .list := by
  obtain ⟨s₁, hs₁, hs⟩ := bind_eq_ok.mp hs
  obtain ⟨q₁, h₁, -⟩ := h.listEnsure c hv (Or.inl ⟨_, hx⟩) hs₁
  obtain ⟨o₁, ho₁, -, -, hcontents⟩ := h₁.exists_list hv (Or.inl ⟨_, hx⟩)
  obtain ⟨hkind, -⟩ := contents_list hcontents hx
  rw [ho₁] at hs
  simp only [if_pos hkind] at hs
  cases hs
  unfold RcState.append at ho'
  rw [RcState.modify_eq ho₁] at ho'
  rw [show (RcObjects.write _ v _).heap v = some _ from RcObjects.write_heap_self _ _ _] at ho'
  cases ho'
  exact hkind

/-- So it does when it takes over an owner. -/
theorem listAddTake_plain (h : RcRefines s L q) {c : RcConfig} {values : List ℕ} (hv : L.Usable v)
    (hx : L.heap v = some (.list values)) (hs : minyarListAddTake c s v w = .ok s')
    (ho' : s'.objects.heap v = some o') : o'.kind = .list := by
  obtain ⟨s₁, hs₁, hs⟩ := bind_eq_ok.mp hs
  obtain ⟨q₁, h₁, -⟩ := h.listEnsure c hv (Or.inl ⟨_, hx⟩) hs₁
  obtain ⟨o₁, ho₁, -, -, hcontents⟩ := h₁.exists_list hv (Or.inl ⟨_, hx⟩)
  obtain ⟨hkind, -⟩ := contents_list hcontents hx
  rw [ho₁] at hs
  simp only [if_pos hkind] at hs
  cases hs
  unfold RcState.append at ho'
  rw [RcState.modify_eq ho₁] at ho'
  rw [show (RcObjects.write _ v _).heap v = some _ from RcObjects.write_heap_self _ _ _] at ho'
  cases ho'
  exact hkind

/-- So it does when an element is replaced. -/
theorem listSetOwned_plain (h : RcRefines s L q) {c : RcConfig} {values : List ℕ} {position : ℤ}
    {retainValue : Bool} (hv : L.Usable v) (hx : L.heap v = some (.list values))
    (hs : minyarListSetOwned c s v position w retainValue = .ok s')
    (ho' : s'.objects.heap v = some o') : o'.kind = .list := by
  obtain ⟨o, ho, -, -, hcontents⟩ := h.exists_list hv (Or.inl ⟨_, hx⟩)
  obtain ⟨hkind, -⟩ := contents_list hcontents hx
  unfold minyarListSetOwned at hs
  rw [ho] at hs
  simp only at hs
  by_cases hposition : position < 0 ∨ (o.values.length : ℤ) ≤ position
  · rw [if_pos hposition] at hs
    cases hs
  have hstore : listStoreKind s.objects w o.kind = .list := by
    simp [listStoreKind, hkind]
  rw [if_neg hposition, hstore, if_neg (by simp)] at hs
  cases hs
  have hmark : (s.modify v fun object => { object with kind := .list }).objects.heap v =
      some { o with kind := .list } := by
    rw [RcState.modify_eq ho]
    exact RcObjects.write_heap_self _ _ _
  rw [RcState.modify_eq hmark] at ho'
  rw [show (RcObjects.write _ v _).heap v = some _ from RcObjects.write_heap_self _ _ _] at ho'
  cases ho'
  rfl

/-- Adding values one after another to a new List of references. -/
theorem listAddAll_kind {c : RcConfig} {values acc : List ℕ}
    (h : RcRefines s (L.allocate (.references acc)).2 q)
    (hbound : ∀ r x, L.heap r = some x → r < L.next) (h0 : L.next ≠ 0)
    (hvalues : ∀ w ∈ values, L.Usable w ∧ w ≠ L.next)
    (hs : Minyar.listAddAll c L.next values s = .ok s')
    (ho : s.objects.heap L.next = some o) (ho' : s'.objects.heap L.next = some o')
    (hkind : o.kind = .references ∨ o.kind = .referencesImmortal) :
    (o'.kind = .references ∨ o'.kind = .referencesImmortal) ∧
      (o'.kind = .references ↔
        (o.kind = .references ∨ ∃ w ∈ values, L.mortal w = true)) := by
  induction values generalizing acc s q o with
  | nil =>
    cases hs
    rw [ho] at ho'
    cases ho'
    simp [hkind]
  | cons w values ih =>
    obtain ⟨s₁, hs₁, hs⟩ := bind_eq_ok.mp hs
    have hnew := L.usable_allocate h0 (.references acc)
    have hx : (L.allocate (.references acc)).2.IsReferences L.next := ⟨acc, L.allocate_heap _⟩
    obtain ⟨hw, hne⟩ := hvalues w List.mem_cons_self
    obtain ⟨q₁, h₁⟩ := h.listAdd c hnew (Or.inr ⟨hx, hw.allocate hbound _⟩) hs₁
    have hadd := L.allocate_addToList true acc w
    simp only [RcContents.ofElements, if_true] at hadd
    rw [hadd] at h₁
    obtain ⟨o₁, ho₁, -, -⟩ := h₁.exists_list (L.usable_allocate h0 _)
      (Or.inr ⟨acc ++ [w], L.allocate_heap _⟩)
    obtain ⟨hkind₁, hiff⟩ := h.listAdd_kind hnew hx (hw.allocate hbound _) hs₁ ho ho₁
    obtain ⟨hkind', hiff'⟩ := ih h₁ (fun x hx => hvalues x (List.mem_cons_of_mem _ hx)) hs ho₁
      hkind₁
    refine ⟨hkind', ?_⟩
    rw [hiff', hiff, or_assoc]
    rw [L.mortal_allocate hne]
    simp only [List.mem_cons, exists_eq_or_imp]

/-- An appended List of references has the kind that its members ask for. -/
theorem listAppended_kind (h : RcRefines s L q) {c : RcConfig} {takeValue : Bool}
    (hlegal : (RcOp.listAppended v w true takeValue).Legal L) {r : ℕ × RcState}
    (hs : minyarListAppended c s v w true takeValue = .ok r)
    (ho' : r.2.objects.heap L.next = some o') :
    (o'.kind = .references ∨ o'.kind = .referencesImmortal) ∧
      (o'.kind = .references ↔ ∃ x ∈ L.elements v ++ [w], L.mortal x = true) := by
  obtain ⟨-, hvalues, s₃, s₄, capacity, fuel, hs₃, hs₄, hs₅⟩ := h.listAppended_cases c hlegal hs
  obtain ⟨hv, hlist, hw⟩ := hlegal
  have hbound : ∀ r x, L.heap r = some x → r < L.next := fun r x hx => (h.bound r x hx).2
  have husable : L.Usable w := by
    cases takeValue with
    | true => exact usable_of_owned hw
    | false => exact hw
  have hnew := L.usable_allocate h.next_ne_zero
  have hreferences : ∀ acc, (L.allocate (.references acc)).2.IsReferences L.next :=
    fun acc => ⟨acc, L.allocate_heap _⟩
  -- The new List is marked while it is empty.
  obtain ⟨q₁, h₁⟩ := (h.listNew c).2
  obtain ⟨o₁, ho₁, -, -, hcontents₁⟩ := h₁.exists_list (hnew _) (Or.inl ⟨[], L.allocate_heap _⟩)
  obtain ⟨hkind₁, hvalues₁⟩ := contents_list hcontents₁ (L.allocate_heap _)
  have ho₂ : ∃ o₂, (minyarListReferences (minyarListNew c s).2 L.next).objects.heap L.next =
      some o₂ ∧ o₂.kind = .referencesImmortal := by
    unfold minyarListReferences
    rw [RcState.modify_eq ho₁]
    refine ⟨_, RcObjects.write_heap_self _ _ _, ?_⟩
    simp [hkind₁, hvalues₁]
  obtain ⟨q₂, h₂⟩ := h.listNewMarked c true
  simp only [if_true] at h₂ hs₃
  generalize minyarListReferences (minyarListNew c s).2 L.next = s₂ at hs₃ h₂ ho₂
  obtain ⟨o₂, ho₂, hkind₂⟩ := ho₂
  obtain ⟨q₃, h₃⟩ := h₂.listGrowTo c (hnew _) (Or.inr (hreferences [])) hs₃
  obtain ⟨o₃, ho₃, -, -⟩ := h₃.exists_list (hnew _) (Or.inr (hreferences []))
  obtain ⟨y, hy, hkind₃⟩ := (KeepsKind.listGrowTo hs₃).kind (h₂.inv.objects.lt_next ho₂) o₃ ho₃
  rw [ho₂] at hy
  cases hy
  rw [hkind₂] at hkind₃
  obtain ⟨q₄, h₄⟩ := h₃.listAddAll c true hbound h.next_ne_zero hvalues hs₄
  rw [List.nil_append] at h₄
  obtain ⟨o₄, ho₄, -, -⟩ := h₄.exists_list (hnew _) (Or.inr (hreferences (L.elements v)))
  obtain ⟨hkind₄, hiff₄⟩ := h₃.listAddAll_kind hbound h.next_ne_zero
    (fun x hx => ⟨hvalues rfl x hx, h.ne_next (hvalues rfl x hx)⟩) hs₄ ho₃ ho₄ (Or.inr hkind₃)
  -- The last value.
  have hlast : (o'.kind = .references ∨ o'.kind = .referencesImmortal) ∧
      (o'.kind = .references ↔ (o₄.kind = .references ∨ L.mortal w = true)) := by
    rw [← L.mortal_allocate (h.ne_next husable) (.references (L.elements v))]
    cases takeValue with
    | true =>
      exact h₄.listAddTake_kind (hnew _) (hreferences _) (husable.allocate hbound _) hs₅ ho₄ ho'
    | false =>
      exact h₄.listAdd_kind (hnew _) (hreferences _) (husable.allocate hbound _) hs₅ ho₄ ho'
  refine ⟨hlast.1, ?_⟩
  rw [hlast.2, hiff₄, hkind₃]
  simp only [List.mem_append, List.mem_singleton, or_and_right, exists_or, exists_eq_left]
  simp

end RcRefines

/-- Allocation of something else than a List of references. -/
theorem RcLedger.allocate_other (L : RcLedger) (h0 : L.next ≠ 0) {x : RcContents}
    (hx : ∀ values, x ≠ .references values) : (L.allocate x).2.next = L.next + 1 ∧
      (L.allocate x).2.Usable L.next ∧ ¬ (L.allocate x).2.IsReferences L.next :=
  ⟨rfl, L.usable_allocate h0 x, RcLedger.not_isReferences (L.allocate_heap x) hx⟩

/-- A slice allocates nothing or a Text. -/
theorem RcLedger.sliceText_next (L : RcLedger) (h0 : L.next ≠ 0) (text first last : ℕ) :
    (L.sliceText text first last).2.next = L.next ∨
      (L.sliceText text first last).2.next = L.next + 1 ∧
        (L.sliceText text first last).2.Usable L.next ∧
        ¬ (L.sliceText text first last).2.IsReferences L.next := by
  unfold RcLedger.sliceText
  split
  · next bytes backing _ _ =>
      simp only
      generalize (if backing ≠ 0 then backing else text) = root
      split_ifs
      · exact Or.inl rfl
      · exact Or.inr (L.allocate_other h0 fun _ => nofun)
      · exact Or.inr (L.allocate_other h0 fun _ => nofun)
  · exact Or.inl rfl

/-- A new List of references is an appended one. -/
theorem RcOp.effect_next (L : RcLedger) (op : RcOp) (h0 : L.next ≠ 0) :
    (op.effect L).2.next = L.next ∨ (op.effect L).2.next = L.next + 1 ∧
      (op.effect L).2.Usable L.next ∧
      ((∃ list value takeValue, op = .listAppended list value true takeValue) ∨
        ¬ (op.effect L).2.IsReferences L.next) := by
  have hother : ∀ {x : RcContents}, (∀ values, x ≠ .references values) →
      (L.allocate x).2.next = L.next + 1 ∧ (L.allocate x).2.Usable L.next ∧
        ((∃ list value takeValue, op = .listAppended list value true takeValue) ∨
          ¬ (L.allocate x).2.IsReferences L.next) :=
    fun hx => ⟨rfl, L.usable_allocate h0 _, Or.inr (L.allocate_other h0 hx).2.2⟩
  cases op with
  | literal bytes =>
    refine Or.inr ⟨rfl, Or.inr (Or.inl ⟨bytes, 0, Function.update_self _ _ _⟩), Or.inr ?_⟩
    exact RcLedger.not_isReferences (x := .text bytes 0 true) (Function.update_self _ _ _)
      fun _ => nofun
  | newText bytes => exact Or.inr (hother fun _ => nofun)
  | textSlice text first last =>
    exact (L.sliceText_next h0 text first last).imp id fun h => ⟨h.1, h.2.1, Or.inr h.2.2⟩
  | listNew => exact Or.inr (hother fun _ => nofun)
  | listAppended list value references takeValue =>
    cases references with
    | true =>
      refine Or.inr ⟨?_, ?_, Or.inl ⟨list, value, takeValue, rfl⟩⟩
      · simp only [RcOp.effect]
        split_ifs <;> rfl
      · simp only [RcOp.effect]
        split_ifs
        · exact (L.take value).usable_allocate h0 _
        · exact L.usable_allocate h0 _
    | false => exact Or.inr (hother fun _ => nofun)
  | recordNew fieldCount => exact Or.inr (hother fun _ => nofun)
  | recordNewScalar fieldCount => exact Or.inr (hother fun _ => nofun)
  | listAdd list value =>
    left
    simp only [RcOp.effect, RcLedger.addToList]
    split <;> rfl
  | listAddTake list value =>
    left
    simp only [RcOp.effect, RcLedger.addToList, RcLedger.takeForList]
    split <;> split <;> rfl
  | listSet list position value =>
    left
    simp only [RcOp.effect, RcLedger.setInList]
    split <;> rfl
  | listSetTake list position value =>
    left
    simp only [RcOp.effect, RcLedger.setInList, RcLedger.takeForList]
    split <;> split <;> rfl
  | recordSetScalar record field value =>
    left
    simp only [RcOp.effect, RcLedger.setPlain]
    split <;> rfl
  | recordSet record field value =>
    left
    simp only [RcOp.effect, RcLedger.setPlain]
    split <;> rfl
  | recordSetTake record field value =>
    left
    simp only [RcOp.effect, RcLedger.setReference]
    split
    · split_ifs <;> rfl
    · rfl
  | recordSetReference record field value =>
    left
    simp only [RcOp.effect, RcLedger.setReference]
    split
    · split_ifs <;> rfl
    · rfl
  | keep value =>
    left
    simp only [RcOp.effect, RcLedger.keep]
    split_ifs <;> rfl
  | borrow value =>
    left
    simp only [RcOp.effect, RcLedger.keep]
    split_ifs <;> rfl
  | _ => exact Or.inl rfl

/-- A List of references has no stored values unless an operation names it. -/
theorem RcOp.stores_eq_nil {L : RcLedger} {op : RcOp} {v : ℕ} (hlist : op.list ≠ some v)
    (hv : v ≠ L.next) : op.stores L v = [] := by
  have hnil : ∀ list value, some list ≠ some v → (match L.heap list with
      | some (.references _) => if list = v then [value] else []
      | _ => []) = ([] : List ℕ) := by
    intro list value hne
    split
    · rw [if_neg fun h => hne (congrArg some h)]
    · rfl
  cases op with
  | listAdd list value => exact hnil list value hlist
  | listAddTake list value => exact hnil list value hlist
  | listSet list position value => exact hnil list value hlist
  | listSetTake list position value => exact hnil list value hlist
  | listAppended list value references takeValue =>
    cases references with
    | true => exact if_neg hv.symm
    | false => rfl
  | _ => rfl

/-- What an operation stores in the List that it names. -/
theorem RcLedger.IsReferences.stores {L : RcLedger} {v : ℕ} (h : L.IsReferences v) (value : ℕ) :
    (match L.heap v with
      | some (.references _) => if v = v then [value] else []
      | _ => []) = [value] := by
  obtain ⟨values, hx⟩ := h
  rw [hx]
  exact if_pos rfl

/-- The kind of a List before and after an operation that names it. -/
theorem RcRefines.op_kind {c : RcConfig} {s : RcState} {L : RcLedger} {q : RcQueues} {op : RcOp}
    {r : ℕ × RcState} {v : ℕ} {o' : RcObject} (h : RcRefines s L q) (hlegal : op.Legal L)
    (hs : op.run c s = .ok r) (hlist : op.list = some v) (ho' : r.2.objects.heap v = some o') :
    (L.IsReferences v ∧ ∃ o, s.objects.heap v = some o ∧
      (o.kind = .references ∨ o.kind = .referencesImmortal) ∧
      (o'.kind = .references ∨ o'.kind = .referencesImmortal) ∧
      (o'.kind = .references ↔
        (o.kind = .references ∨ ∃ w ∈ op.stores L v, L.mortal w = true))) ∨
    (¬ L.IsReferences v ∧ (o'.kind = .list ∨ o'.kind = .referencesImmortal) ∧
      op.stores L v = []) := by
  have hstored : ∀ {values : List ℕ} {value : ℕ}, L.heap v = some (.list values) →
      (match L.heap v with
        | some (.references _) => if v = v then [value] else []
        | _ => []) = [] := by
    intro values value hx
    rw [hx]
  -- A List of references and the one value that is stored in it.
  have hone : ∀ {value : ℕ} {o : RcObject}, L.IsReferences v → s.objects.heap v = some o →
      (o.kind = .references ∨ o.kind = .referencesImmortal) →
      ((o'.kind = .references ∨ o'.kind = .referencesImmortal) ∧
        (o'.kind = .references ↔ (o.kind = .references ∨ L.mortal value = true))) →
      L.IsReferences v ∧ ∃ o, s.objects.heap v = some o ∧
        (o.kind = .references ∨ o.kind = .referencesImmortal) ∧
        (o'.kind = .references ∨ o'.kind = .referencesImmortal) ∧
        (o'.kind = .references ↔ (o.kind = .references ∨ ∃ w ∈ (match L.heap v with
          | some (.references _) => if v = v then [value] else []
          | _ => []), L.mortal w = true)) := by
    intro value o hx ho hkind hkind'
    refine ⟨hx, o, ho, hkind, hkind'.1, ?_⟩
    rw [hx.stores, hkind'.2]
    simp
  cases op with
  | listReferences list =>
    cases hlist
    cases hs
    obtain ⟨hv, hx⟩ := hlegal
    simp only at ho'
    unfold minyarListReferences at ho'
    obtain ⟨o, ho, -, -, hcontents⟩ := h.exists_list hv (hx.imp (fun h => ⟨[], h⟩) id)
    rw [RcState.modify_eq ho,
      show (RcObjects.write _ v _).heap v = some _ from RcObjects.write_heap_self _ _ _] at ho'
    rcases hx with hnil | ⟨values, hvalues⟩
    · obtain ⟨hkind, hempty⟩ := contents_list hcontents hnil
      refine Or.inr ⟨RcLedger.not_isReferences hnil fun _ => nofun, Or.inr ?_, rfl⟩
      cases ho'
      simp [hkind, hempty]
    · obtain ⟨hkind, -⟩ := contents_references hcontents hvalues
      rw [if_pos hkind] at ho'
      cases ho'
      exact Or.inl ⟨⟨values, hvalues⟩, _, ho, hkind, hkind, by simp [RcOp.stores]⟩
  | listAdd list value =>
    cases hlist
    obtain ⟨s', hs', rfl⟩ := bind_rcVoid_eq_ok.mp hs
    obtain ⟨hv, ⟨values, hx⟩ | ⟨hx, hw⟩⟩ := hlegal
    · exact Or.inr ⟨RcLedger.not_isReferences hx fun _ => nofun,
        Or.inl (h.listAdd_plain hv hx hs' ho'), hstored hx⟩
    · obtain ⟨o, ho, hkind⟩ := h.exists_references hv hx
      exact Or.inl (hone hx ho hkind (h.listAdd_kind hv hx hw hs' ho ho'))
  | listAddTake list value =>
    cases hlist
    obtain ⟨s', hs', rfl⟩ := bind_rcVoid_eq_ok.mp hs
    obtain ⟨hv, ⟨values, hx⟩ | ⟨hx, hw⟩⟩ := hlegal
    · exact Or.inr ⟨RcLedger.not_isReferences hx fun _ => nofun,
        Or.inl (h.listAddTake_plain hv hx hs' ho'), hstored hx⟩
    · obtain ⟨o, ho, hkind⟩ := h.exists_references hv hx
      exact Or.inl (hone hx ho hkind (h.listAddTake_kind hv hx (usable_of_owned hw) hs' ho ho'))
  | listSet list position value =>
    cases hlist
    obtain ⟨s', hs', rfl⟩ := bind_rcVoid_eq_ok.mp hs
    obtain ⟨hv, ⟨values, hx⟩ | ⟨hx, hw⟩⟩ := hlegal
    · exact Or.inr ⟨RcLedger.not_isReferences hx fun _ => nofun,
        Or.inl (h.listSetOwned_plain hv hx hs' ho'), hstored hx⟩
    · obtain ⟨o, ho, hkind⟩ := h.exists_references hv hx
      exact Or.inl (hone hx ho hkind (h.listSetOwned_kind hx hw hv hs' ho ho'))
  | listSetTake list position value =>
    cases hlist
    obtain ⟨s', hs', rfl⟩ := bind_rcVoid_eq_ok.mp hs
    obtain ⟨hv, ⟨values, hx⟩ | ⟨hx, hw⟩⟩ := hlegal
    · exact Or.inr ⟨RcLedger.not_isReferences hx fun _ => nofun,
        Or.inl (h.listSetOwned_plain hv hx hs' ho'), hstored hx⟩
    · obtain ⟨o, ho, hkind⟩ := h.exists_references hv hx
      exact Or.inl (hone hx ho hkind (h.listSetOwned_kind hx (usable_of_owned hw) hv hs' ho ho'))
  | _ => cases hlist

namespace RcRun

variable {c : RcConfig} {ops : List RcOp} {L : RcLedger} {s : RcState}

/-- A List of references holds references to mortal objects as soon as one was stored in it. -/
theorem kind_iff (h : RcRun c ops L s) {v : ℕ} {o : RcObject} (ho : s.objects.heap v = some o)
    (hkind : o.kind = .references ∨ o.kind = .referencesImmortal) :
    o.kind = .references ↔ StoredMortal ops v := by
  induction h generalizing o with
  | nil => cases ho
  | @step ops op L s r h hlegal hs ih =>
    obtain ⟨q, hq⟩ := h.refines
    obtain ⟨-, q', hq'⟩ := hq.op c hlegal hs
    rw [storedMortal_append, ← h.ledger]
    by_cases hlist : op.list = some v
    · -- The List that the operation stores in.
      rcases hq.op_kind hlegal hs hlist ho with ⟨-, x, hx, hkind₀, -, hiff⟩ | ⟨hnot, hlist, hnil⟩
      · rw [hiff, ih hx hkind₀]
      · have himmortal : o.kind = .referencesImmortal :=
          hlist.resolve_left fun hk => by rcases hkind with h | h <;> simp [hk] at h
        simp only [himmortal, reduceCtorEq, false_iff, hnil, List.not_mem_nil, false_and,
          exists_false, or_false]
        exact fun hstored => hnot (h.isReferences_of_storedMortal hstored)
    · rcases Nat.lt_or_ge v s.objects.next with hlt | hge
      · -- The List was there and has kept its kind.
        obtain ⟨x, hx, hsame⟩ := (RcOp.keepsKind hs hlist hlt).kind hlt o ho
        rw [RcOp.stores_eq_nil hlist (hq.next ▸ hlt.ne)]
        rw [hsame] at hkind ⊢
        simpa using ih hx hkind
      · -- The List is new, so it is an appended one.
        have hnone : ¬ StoredMortal ops v := fun hstored => by
          obtain ⟨values, hx⟩ := h.isReferences_of_storedMortal hstored
          have := (hq.bound v _ hx).2
          have := hq.next
          omega
        have hlt := hq'.inv.objects.lt_next ho
        rw [hq'.next] at hlt
        have hnext := hq.next
        rcases RcOp.effect_next L op hq.next_ne_zero with heq | ⟨heq, husable, hop⟩
        · omega
        obtain rfl : v = L.next := by omega
        rcases hop with ⟨list, value, takeValue, rfl⟩ | hother
        · obtain ⟨-, hiff⟩ := hq.listAppended_kind hlegal hs ho
          have hstores : (RcOp.listAppended list value true takeValue).stores L L.next =
              L.elements list ++ [value] := if_pos rfl
          rw [hiff, hstores]
          simp only [hnone, false_or]
        · refine absurd ?_ hother
          rcases hq'.usable husable with h0 | ⟨x, hx, -, hcontents⟩
          · exact absurd h0 hq.next_ne_zero
          · rw [ho] at hx
            cases hx
            exact ⟨o.values, hcontents.trans (congrArg _ (RcObject.contents_of_references hkind))⟩

/-- What a mortal value was stored in has one of the kinds of Lists of references. -/
theorem kind_of_storedMortal (h : RcRun c ops L s) {v : ℕ} {o : RcObject}
    (ho : s.objects.heap v = some o) (hv : StoredMortal ops v) :
    o.kind = .references ∨ o.kind = .referencesImmortal := by
  induction h generalizing o with
  | nil => cases ho
  | @step ops op L s r h hlegal hs ih =>
    obtain ⟨q, hq⟩ := h.refines
    obtain ⟨-, q', hq'⟩ := hq.op c hlegal hs
    have hreferences := (h.step hlegal hs).isReferences_of_storedMortal hv
    rw [storedMortal_append, ← h.ledger] at hv
    by_cases hlist : op.list = some v
    · rcases hq.op_kind hlegal hs hlist ho with ⟨-, x, -, -, hkind, -⟩ | ⟨hnot, -, hnil⟩
      · exact hkind
      · rw [hnil] at hv
        exact absurd (h.isReferences_of_storedMortal (hv.resolve_right (by simp))) hnot
    · rcases Nat.lt_or_ge v s.objects.next with hlt | hge
      · obtain ⟨x, hx, hsame⟩ := (RcOp.keepsKind hs hlist hlt).kind hlt o ho
        rw [RcOp.stores_eq_nil hlist (hq.next ▸ hlt.ne)] at hv
        rw [hsame]
        exact ih hx (hv.resolve_right (by simp))
      · have hlt := hq'.inv.objects.lt_next ho
        rw [hq'.next] at hlt
        have hnext := hq.next
        rcases RcOp.effect_next L op hq.next_ne_zero with heq | ⟨heq, -, hop⟩
        · omega
        obtain rfl : v = L.next := by omega
        obtain ⟨list, value, takeValue, rfl⟩ := hop.resolve_right (not_not_intro hreferences)
        exact (hq.listAppended_kind hlegal hs ho).1

/-- The mark of a List with mortal members is permanent. -/
theorem kind_permanent {ops' : List RcOp} {L' : RcLedger} {s' : RcState} (h : RcRun c ops L s)
    (h' : RcRun c (ops ++ ops') L' s') {v : ℕ} {o o' : RcObject}
    (ho : s.objects.heap v = some o) (hkind : o.kind = .references)
    (ho' : s'.objects.heap v = some o') : o'.kind = .references := by
  obtain ⟨before, op, rest, rfl, hstored⟩ := (h.kind_iff ho (Or.inl hkind)).mp hkind
  have hstored' : StoredMortal ((before ++ op :: rest) ++ ops') v :=
    ⟨before, op, rest ++ ops', by simp, hstored⟩
  exact (h'.kind_iff ho' (h'.kind_of_storedMortal ho' hstored')).mpr hstored'

end RcRun

namespace RcRefines

variable {s : RcState} {L : RcLedger} {q : RcQueues} {v : ℕ} {o : RcObject}

/-- A List of immortal references is alive and its members are null or immortal. -/
theorem members_immortal (h : RcRefines s L q) (ho : s.objects.heap v = some o)
    (hkind : o.kind = .referencesImmortal) :
    v ∉ rcDead s.objects.active q ∧ ∀ w ∈ o.values, w = 0 ∨ ∃ t, s.objects.heap w = some t ∧
      w ∉ rcDead s.objects.active q ∧ t.owners = 0 := by
  have hcell := h.inv.objects.cells v o ho
  have halive : v ∉ rcDead s.objects.active q := fun hdead => by
    have hleaf := hcell.branch hdead
    rw [RcObject.isLeaf, hkind] at hleaf
    cases hleaf
  refine ⟨halive, fun w hw => ?_⟩
  by_cases h0 : w = 0
  · exact Or.inl h0
  · rw [← RcObject.slots_of_references (Or.inr hkind)] at hw
    obtain ⟨t, ht, hdead⟩ := h.exists_of_slot ho halive hw h0
    rw [RcObject.slots_of_references (Or.inr hkind)] at hw
    exact Or.inr ⟨t, ht, hdead, (hcell.members hkind w hw t ht).2⟩

/-- The last owner of a List of immortal references is the only one that is dropped. -/
theorem drop_immortal (h : RcRefines s L q) (ho : s.objects.heap v = some o)
    (hkind : o.kind = .referencesImmortal) (howners : o.owners = 1) :
    rcDrop s.objects v = (1, s.objects.free v) := by
  have hlt := h.inv.objects.lt_next ho
  unfold rcDrop
  obtain ⟨n, hn⟩ : ∃ n, s.objects.next = n + 1 := ⟨s.objects.next - 1, by omega⟩
  rw [hn, rcDropChain_leaf (h.inv.objects.ne_zero ho) ho howners (by simp [hkind])
    (by simp [RcObject.isLeaf, hkind])]

/-- Without the List every object that counts its owners, and every dead one, has the owners that it
had. -/
theorem ownerCount_drop_immortal (h : RcRefines s L q) (ho : s.objects.heap v = some o)
    (hkind : o.kind = .referencesImmortal) (howners : o.owners = 1) {w : ℕ} {t : RcObject}
    (ht : s.objects.heap w = some t) (hw : w ∈ rcDead s.objects.active q ∨ t.owners ≠ 0) :
    rcOwnerCount { s with objects := (rcDrop s.objects v).2 } L.held
      (rcDead s.objects.active q) w =
      rcOwnerCount s L.held (rcDead s.objects.active q) w := by
  obtain ⟨halive, hmembers⟩ := h.members_immortal ho hkind
  have hnot : w ∉ o.values := fun hmem => by
    rcases hmembers w hmem with h0 | ⟨t', ht', hdead, h0⟩
    · exact h.inv.objects.ne_zero ht h0
    · rw [ht] at ht'
      cases ht'
      exact hw.elim hdead (absurd h0)
  have hslots : ∀ r, rcSlotOwners { s with objects := (rcDrop s.objects v).2 }
      (rcDead s.objects.active q) w r = rcSlotOwners s (rcDead s.objects.active q) w r := by
    intro r
    rw [h.drop_immortal ho hkind howners]
    unfold rcSlotOwners
    by_cases hr : r = v
    · subst hr
      simp only [RcObjects.free_heap_self, ho, if_neg halive,
        RcObject.slots_of_references (Or.inr hkind)]
      exact (List.count_eq_zero_of_not_mem hnot).symm
    · simp only [RcObjects.free_heap_of_ne _ hr]
      rfl
  unfold rcOwnerCount
  have hnext : (rcDrop s.objects v).2.next = s.objects.next := by
    rw [h.drop_immortal ho hkind howners]
    rfl
  simp only [hnext, List.map_congr_left fun r _ => hslots r]

end RcRefines

/-- In every state that a run reaches the Lists of immortal references hold null pointers and
immortal objects only; a List of references is marked as one with mortal members exactly when a
mortal value has been stored in it, in every state of the run after that, and dropping the last owner
of a List of immortal references destroys that List alone, which no counted object loses an owner
by. -/
theorem rcRun_immortal_lists {c : RcConfig} {ops : List RcOp} {L : RcLedger} {s : RcState}
    (h : RcRun c ops L s) :
    (∃ q, RcExact s L.held q ∧ ∀ v o, s.objects.heap v = some o →
      (o.kind = .referencesImmortal → v ∉ rcDead s.objects.active q ∧
        ∀ w ∈ o.values, w = 0 ∨ ∃ t, s.objects.heap w = some t ∧
          w ∉ rcDead s.objects.active q ∧ t.owners = 0) ∧
      (o.kind = .references ∨ o.kind = .referencesImmortal →
        (o.kind = .references ↔ StoredMortal ops v)) ∧
      (o.kind = .referencesImmortal → o.owners = 1 →
        rcDrop s.objects v = (1, s.objects.free v) ∧
        ∀ w t, s.objects.heap w = some t → w ∈ rcDead s.objects.active q ∨ t.owners ≠ 0 →
          rcOwnerCount { s with objects := (rcDrop s.objects v).2 } L.held
            (rcDead s.objects.active q) w =
          rcOwnerCount s L.held (rcDead s.objects.active q) w)) ∧
    ∀ ops' L' s', RcRun c (ops ++ ops') L' s' → ∀ v o o', s.objects.heap v = some o →
      o.kind = .references → s'.objects.heap v = some o' → o'.kind = .references := by
  constructor
  · obtain ⟨q, hq⟩ := h.refines
    refine ⟨q, hq.inv.exact, fun v o ho => ⟨fun hkind => ?_, fun hkind => ?_,
      fun hkind howners => ⟨?_, fun w t ht hw => ?_⟩⟩⟩
    · exact hq.members_immortal ho hkind
    · exact h.kind_iff ho hkind
    · exact hq.drop_immortal ho hkind howners
    · exact hq.ownerCount_drop_immortal ho hkind howners ht hw
  · intro ops' L' s' h' v o o' ho hkind ho'
    exact h.kind_permanent h' ho hkind ho'

/-- A List that only a literal was added to holds immortal references. -/
theorem rcRun_immortal_lists_literal :
    ∃ L s o, RcRun RcConfig.smallest
      [.listNew, .listReferences 1, .literal [120], .listAdd 1 2] L s ∧
      s.objects.heap 1 = some o ∧ o.kind = .referencesImmortal ∧ o.values = [2] ∧
      ¬ StoredMortal [.listNew, .listReferences 1, .literal [120], .listAdd 1 2] 1 := by
  have hone : ∀ M : RcLedger, 1 ∈ M.held → M.Usable 1 := fun M h =>
    .of_held h one_ne_zero
  have h₁ := @RcRun.step RcConfig.smallest [] .listNew _ _ _ .nil trivial rfl
  have h₂ := @RcRun.step RcConfig.smallest _ (.listReferences 1) _ _ _ h₁
    ⟨hone _ (Multiset.mem_cons_self 1 0), Or.inl rfl⟩ rfl
  have h₃ := @RcRun.step RcConfig.smallest _ (.literal [120]) _ _ _ h₂ trivial rfl
  have h₄ := @RcRun.step RcConfig.smallest _ (.listAdd 1 2) _ _ _ h₃
    ⟨hone _ (Multiset.mem_cons_self 1 0), Or.inr ⟨⟨[], rfl⟩, Or.inr (Or.inl ⟨[120], 0, rfl⟩)⟩⟩ rfl
  refine ⟨_, _, _, h₄, rfl, rfl, rfl, fun hstored => ?_⟩
  obtain ⟨q, -, hlists⟩ := (rcRun_immortal_lists h₄).1
  have hkind := ((hlists 1 _ rfl).2.1 (Or.inr rfl)).mpr hstored
  cases hkind

end Minyar

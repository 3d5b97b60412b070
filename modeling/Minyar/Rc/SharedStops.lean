import Minyar.Rc.EagerRefines

/-!
# Stops of both runtimes

An operation stops the program at a position outside a List or a record, at a record with too many
fields, or at a limit of the machine: storage that is too large or a count that is full.  Where the
limits lie depends on the runtime; every other stop is one of both, with the same message.
-/

namespace Minyar

/-! ## Stops of a computation -/

/-- The messages of the limits of the machine. -/
def capacityStops : List String :=
  ["this List became too large.", "this value has too many references.",
    "the computer ran out of memory."]

/-- A computation stops at a limit of the machine or with the message `stop`, and when there is such
a message it does stop. -/
structure StopsLike {α : Type} (stop : Option String) (x : Except String α) : Prop where
  /-- There are no other messages. -/
  message : ∀ m, x = .error m → m ∈ capacityStops ∨ stop = some m
  /-- The message is one of a stop. -/
  stops : stop ≠ none → ∃ m, x = .error m

namespace StopsLike

variable {α β : Type} {stop : Option String} {x : Except String α} {f : α → Except String β}

theorem ok (a : α) : StopsLike none (.ok a : Except String α) :=
  ⟨fun _ h => (by cases h), fun h => absurd rfl h⟩

/-- A limit of the machine. -/
theorem capacity {m : String} (hm : m ∈ capacityStops) :
    StopsLike none (.error m : Except String α) :=
  ⟨fun _ h => Or.inl (by cases h; exact hm), fun h => absurd rfl h⟩

theorem error (m : String) : StopsLike (some m) (.error m : Except String α) :=
  ⟨fun _ h => Or.inr (by cases h; rfl), fun _ => ⟨m, rfl⟩⟩

/-- A choice between two parts that stop so. -/
theorem ite {p : Prop} [Decidable p] {y : Except String α} (hx : StopsLike stop x)
    (hy : StopsLike stop y) : StopsLike stop (if p then x else y) := by
  split_ifs
  · exact hx
  · exact hy

/-- A sequence whose second part stops so. -/
theorem bind (hx : StopsLike none x) (hf : ∀ a, x = .ok a → StopsLike stop (f a)) :
    StopsLike stop (x >>= f) := by
  refine ⟨fun m h => ?_, fun h => ?_⟩
  · rcases bind_eq_error.mp h with h | ⟨a, ha, h⟩
    · exact Or.inl ((hx.message m h).resolve_right fun h => by cases h)
    · exact (hf a ha).message m h
  · rcases x with m | a
    · exact ⟨m, rfl⟩
    · obtain ⟨m, hm⟩ := (hf a rfl).stops h
      exact ⟨m, bind_eq_error.mpr (Or.inr ⟨a, rfl, hm⟩)⟩

/-- A sequence whose first part stops so. -/
theorem bind_left (hx : StopsLike stop x) (hf : ∀ a, StopsLike none (f a)) :
    StopsLike stop (x >>= f) := by
  refine ⟨fun m h => ?_, fun h => ?_⟩
  · rcases bind_eq_error.mp h with h | ⟨a, -, h⟩
    · exact hx.message m h
    · exact Or.inl (((hf a).message m h).resolve_right fun h => by cases h)
  · obtain ⟨m, hm⟩ := hx.stops h
    exact ⟨m, bind_eq_error.mpr (Or.inl hm)⟩

/-- Two computations that stop alike: when one stops with a message that is not a limit of the
machine, the other one stops too, with that message or at such a limit. -/
theorem other {y : Except String β} (hx : StopsLike stop x) (hy : StopsLike stop y) {m : String}
    (hm : x = .error m) (hcapacity : m ∉ capacityStops) :
    ∃ m', y = .error m' ∧ (m' = m ∨ m' ∈ capacityStops) := by
  have hstop := (hx.message m hm).resolve_left hcapacity
  obtain ⟨m', hm'⟩ := hy.stops (by rw [hstop]; exact Option.some_ne_none m)
  refine ⟨m', hm', ?_⟩
  rcases hy.message m' hm' with h | h
  · exact Or.inr h
  · rw [hstop] at h
    exact Or.inl (Option.some.inj h).symm

end StopsLike

/-! ## Stops of an operation -/

/-- The stop at a position outside a List or a record. -/
def positionStop (heap : ℕ → Option RcObject) (v : ℕ) (position : ℤ) : Option String :=
  (heap v).bind fun object =>
    if position < 0 ∨ (object.values.length : ℤ) ≤ position then
      some (listPositionStop position object.values.length)
    else none

/-- The stop at a record with too many fields. -/
def fieldCountStop (fieldCount : ℤ) : Option String :=
  if fieldCount < 0 ∨ (2 ^ 64 - 1) / 8 < fieldCount then some "this record has too many fields."
  else none

/-- The stop of an operation apart from the limits of the machine. -/
def RcOp.sharedStop (heap : ℕ → Option RcObject) : RcOp → Option String
  | listSet list position _ => positionStop heap list position
  | listSetTake list position _ => positionStop heap list position
  | recordNew fieldCount => fieldCountStop fieldCount
  | recordNewScalar fieldCount => fieldCountStop fieldCount
  | recordSetScalar record field _ => positionStop heap record field
  | recordSet record field _ => positionStop heap record field
  | recordSetTake record field _ => positionStop heap record field
  | recordSetReference record field _ => positionStop heap record field
  | _ => none

/-- A position is checked against a length only. -/
theorem positionStop_congr {heap heap' : ℕ → Option RcObject} {v : ℕ}
    (h : (heap v).map (fun o => o.values.length) = (heap' v).map fun o => o.values.length)
    (position : ℤ) : positionStop heap v position = positionStop heap' v position := by
  unfold positionStop
  rcases ho : heap v with _ | o <;> rcases ho' : heap' v with _ | o' <;> rw [ho, ho'] at h
  · cases h
  · cases h
  · have hlength : o.values.length = o'.values.length := Option.some.inj h
    simp only [Option.bind_some, hlength]

/-- A change in place that keeps the number of values. -/
theorem modify_length (s : RcState) (r v : ℕ) {f : RcObject → RcObject}
    (hf : ∀ o, (f o).values.length = o.values.length) :
    ((s.modify r f).objects.heap v).map (fun o => o.values.length) =
      (s.objects.heap v).map fun o => o.values.length := by
  rcases ho : s.objects.heap r with _ | o
  · unfold RcState.modify RcObjects.modify
    rw [ho]
    rfl
  · rw [RcState.modify_eq ho]
    by_cases hv : v = r
    · subst hv
      rw [show (s.objects.write v (f o)).heap v = _ from RcObjects.write_heap_self _ _ _, ho]
      exact congrArg some (hf o)
    · rw [show (s.objects.write r (f o)).heap v = _ from RcObjects.write_heap_of_ne _ _ hv]

/-- A new owner. -/
theorem retain_length {s s' : RcState} {value : ℕ} (v : ℕ)
    (hs : minyarRcRetain s value = .ok s') :
    (s'.objects.heap v).map (fun o => o.values.length) =
      (s.objects.heap v).map fun o => o.values.length := by
  unfold minyarRcRetain at hs
  split_ifs at hs
  · cases hs
    rfl
  · rcases ho : s.objects.heap value with _ | o
    · rw [ho] at hs
      cases hs
      rfl
    · rw [ho] at hs
      simp only at hs
      split_ifs at hs
      · cases hs
        rfl
      · cases hs
        have hmodify := modify_length s value v (f := fun o => { o with owners := o.owners + 1 })
          fun _ => rfl
        rw [RcState.modify_eq ho] at hmodify
        exact hmodify

/-! ## The bounded runtime -/

section Bounded

variable {c : RcConfig} {s : RcState}

theorem minyarRcRetain_stops (s : RcState) (value : ℕ) :
    StopsLike none (minyarRcRetain s value) := by
  unfold minyarRcRetain
  split_ifs
  · exact .ok _
  · split
    · exact .ok _
    · split_ifs
      · exact .ok _
      · exact .capacity (by decide)
      · exact .ok _

theorem minyarTextSlice_stops (c : RcConfig) (s : RcState) (text first last : ℕ) :
    StopsLike none (minyarTextSlice c s text first last) := by
  unfold minyarTextSlice
  split
  · exact .ok _
  · exact .ite ((minyarRcRetain_stops _ _).bind fun _ _ => .ok _)
      (.ite (.ok _) ((minyarRcRetain_stops _ _).bind fun _ _ => .ok _))

theorem listGrow_stops (c : RcConfig) (s : RcState) (list : ℕ) :
    StopsLike none (listGrow c s list) := by
  unfold listGrow
  split
  · exact .ok _
  · simp only
    split_ifs
    · exact .capacity (by decide)
    · exact .ok _

theorem listEnsure_stops (c : RcConfig) (s : RcState) (list : ℕ) :
    StopsLike none (listEnsure c s list) := by
  unfold listEnsure
  split
  · exact .ok _
  · split_ifs
    · exact listGrow_stops c s list
    · exact .ok _

theorem listGrowTo_stops (c : RcConfig) (list capacity fuel : ℕ) (s : RcState) :
    StopsLike none (listGrowTo c list capacity fuel s) := by
  induction fuel generalizing s with
  | zero => exact .ok _
  | succ fuel ih =>
    rw [listGrowTo]
    split
    · exact .ok _
    · split_ifs
      · exact (listGrow_stops c s list).bind fun s₁ _ => ih s₁
      · exact .ok _

theorem minyarListAdd_stops (c : RcConfig) (s : RcState) (list value : ℕ) :
    StopsLike none (minyarListAdd c s list value) := by
  refine (listEnsure_stops c s list).bind fun s₁ _ => ?_
  split
  · exact .ok _
  · split_ifs
    · exact .ok _
    · refine StopsLike.bind ?_ fun _ _ => .ok _
      split_ifs
      · exact minyarRcRetain_stops _ _
      · exact .ok _

theorem minyarListAddTake_stops (c : RcConfig) (s : RcState) (list value : ℕ) :
    StopsLike none (minyarListAddTake c s list value) := by
  refine (listEnsure_stops c s list).bind fun s₁ _ => ?_
  split
  · exact .ok _
  · split_ifs
    · exact .ok _
    · exact .ok _

theorem listAddAll_stops (c : RcConfig) (list : ℕ) (values : List ℕ) (s : RcState) :
    StopsLike none (listAddAll c list values s) := by
  induction values generalizing s with
  | nil => exact .ok _
  | cons value values ih => exact (minyarListAdd_stops c s list value).bind fun s₁ _ => ih s₁

theorem minyarListAppended_stops (c : RcConfig) (s : RcState) (list value : ℕ)
    (references takeValue : Bool) :
    StopsLike none (minyarListAppended c s list value references takeValue) := by
  unfold minyarListAppended
  simp only
  split
  · exact .ok _
  · refine .ite (.capacity (by decide)) ?_
    refine (listGrowTo_stops c _ _ _ _).bind fun s₃ _ => ?_
    refine (listAddAll_stops c _ _ s₃).bind fun s₄ _ => ?_
    refine StopsLike.bind ?_ fun _ _ => .ok _
    exact .ite (minyarListAddTake_stops c s₄ _ value) (minyarListAdd_stops c s₄ _ value)

theorem minyarRcEnter_stops (c : RcConfig) (s : RcState) (locals : ℤ) :
    StopsLike none (minyarRcEnter c s locals) :=
  .ite (.capacity (by decide)) (.ok _)

theorem minyarRcEnterStack_stops (c : RcConfig) (s : RcState) (header : ℕ) (locals : ℤ) :
    StopsLike none (minyarRcEnterStack c s header locals) :=
  .ite (.ok _) (minyarRcEnter_stops c s locals)

theorem minyarListSetOwned_stops (c : RcConfig) (s : RcState) (list : ℕ) (position : ℤ)
    (value : ℕ) (retainValue : Bool) :
    StopsLike (positionStop s.objects.heap list position)
      (minyarListSetOwned c s list position value retainValue) := by
  unfold minyarListSetOwned positionStop
  rcases s.objects.heap list with _ | o
  · exact .ok _
  · rw [Option.bind_some]
    by_cases houtside : position < 0 ∨ (o.values.length : ℤ) ≤ position
    · simp only [if_pos houtside]
      exact .error _
    · simp only [if_neg houtside]
      refine .ite (StopsLike.bind ?_ fun _ _ => .ok _) (.ok _)
      exact .ite (minyarRcRetain_stops _ _) (.ok _)

theorem recordAllocate_stops (c : RcConfig) (s : RcState) (fieldCount : ℤ) (references : Bool) :
    StopsLike (fieldCountStop fieldCount) (recordAllocate c s fieldCount references) := by
  unfold recordAllocate fieldCountStop
  by_cases hmany : fieldCount < 0 ∨ (2 ^ 64 - 1) / 8 < fieldCount
  · rw [if_pos hmany, if_pos hmany]
    exact .error _
  · rw [if_neg hmany, if_neg hmany]
    exact .ite (.capacity (by decide)) (.ok _)

theorem minyarRecordSetScalar_stops (s : RcState) (record : ℕ) (field : ℤ) (value : ℕ) :
    StopsLike (positionStop s.objects.heap record field)
      (minyarRecordSetScalar s record field value) := by
  unfold minyarRecordSetScalar positionStop
  rcases s.objects.heap record with _ | o
  · exact .ok _
  · simp only [Option.bind_some]
    split_ifs
    · exact .error _
    · exact .ok _

theorem minyarRecordSet_stops (c : RcConfig) (s : RcState) (record : ℕ) (field : ℤ) (value : ℕ) :
    StopsLike (positionStop s.objects.heap record field)
      (minyarRecordSet c s record field value) := by
  unfold minyarRecordSet positionStop
  rcases s.objects.heap record with _ | o
  · exact .ok _
  · simp only [Option.bind_some]
    split_ifs
    · exact .error _
    · exact .ok _
    · exact .ok _

/-- The position is checked twice. -/
theorem minyarRecordSetTake_stops (c : RcConfig) (s : RcState) (record : ℕ) (field : ℤ)
    (value : ℕ) : StopsLike (positionStop s.objects.heap record field)
      (minyarRecordSetTake c s record field value) := by
  unfold minyarRecordSetTake
  rcases ho : s.objects.heap record with _ | o
  · unfold positionStop
    rw [ho]
    exact .ok _
  · simp only
    split_ifs with houtside
    · unfold positionStop
      rw [ho, Option.bind_some, if_pos houtside]
      exact .error _
    · have hset := minyarRecordSet_stops c
        (s.modify record fun object => { object with map := object.map.set field.toNat 1 })
        record field value
      have hlength := modify_length s record record
        (f := fun object => { object with map := object.map.set field.toNat 1 }) fun _ => rfl
      rwa [positionStop_congr hlength] at hset

/-- The new owner changes no length. -/
theorem minyarRecordSetReference_stops (c : RcConfig) (s : RcState) (record : ℕ) (field : ℤ)
    (value : ℕ) : StopsLike (positionStop s.objects.heap record field)
      (minyarRecordSetReference c s record field value) := by
  refine (minyarRcRetain_stops s value).bind fun s₁ hs₁ => ?_
  rw [← positionStop_congr (retain_length record hs₁)]
  exact minyarRecordSetTake_stops c s₁ record field value

/-- Every operation of the bounded runtime. -/
theorem RcOp.run_stops (c : RcConfig) (s : RcState) (op : RcOp) :
    StopsLike (op.sharedStop s.objects.heap) (op.run c s) := by
  have hvoid : ∀ {stop : Option String} {x : Except String RcState},
      StopsLike stop x → StopsLike stop (x >>= rcVoid) := fun hx => hx.bind_left fun _ => .ok _
  cases op with
  | textSlice text first last => exact minyarTextSlice_stops c s text first last
  | listAdd list value => exact hvoid (minyarListAdd_stops c s list value)
  | listAddTake list value => exact hvoid (minyarListAddTake_stops c s list value)
  | listSet list position value => exact hvoid (minyarListSetOwned_stops c s list position value _)
  | listSetTake list position value =>
    exact hvoid (minyarListSetOwned_stops c s list position value _)
  | listAppended list value references takeValue =>
    exact minyarListAppended_stops c s list value references takeValue
  | recordNew fieldCount => exact recordAllocate_stops c s fieldCount true
  | recordNewScalar fieldCount => exact recordAllocate_stops c s fieldCount false
  | recordSetScalar record field value => exact hvoid (minyarRecordSetScalar_stops s record field value)
  | recordSet record field value => exact hvoid (minyarRecordSet_stops c s record field value)
  | recordSetTake record field value => exact hvoid (minyarRecordSetTake_stops c s record field value)
  | recordSetReference record field value =>
    exact hvoid (minyarRecordSetReference_stops c s record field value)
  | retain value => exact hvoid (minyarRcRetain_stops s value)
  | borrow value => exact hvoid ((minyarRcRetain_stops s value).bind fun _ _ => .ok _)
  | setLocal index value => exact hvoid ((minyarRcRetain_stops s value).bind fun _ _ => .ok _)
  | enter locals => exact hvoid (minyarRcEnter_stops c s locals)
  | enterStack header locals => exact hvoid (minyarRcEnterStack_stops c s header locals)
  | _ => exact .ok _

end Bounded

/-! ## The eager runtime -/

namespace EagerObjects

theorem retain_stops (e : EagerObjects) (value : ℕ) : StopsLike none (e.retain value) := by
  unfold retain
  split_ifs
  · exact .ok _
  · split
    · exact .ok _
    · split_ifs
      · exact .ok _
      · exact .capacity (by decide)
      · exact .ok _

theorem textSlice_stops (e : EagerObjects) (text first last : ℕ) :
    StopsLike none (e.textSlice text first last) := by
  unfold textSlice
  split
  · exact .ok _
  · exact .ite ((retain_stops _ _).bind fun _ _ => .ok _)
      (.ite (.ok _) ((retain_stops _ _).bind fun _ _ => .ok _))

theorem listGrow_stops (e : EagerObjects) (list : ℕ) : StopsLike none (e.listGrow list) := by
  unfold listGrow
  split
  · exact .ok _
  · exact .ite (.capacity (by decide)) (.ok _)

theorem listEnsure_stops (e : EagerObjects) (list : ℕ) : StopsLike none (e.listEnsure list) := by
  unfold listEnsure
  split
  · exact .ok _
  · exact .ite (e.listGrow_stops list) (.ok _)

theorem listGrowTo_stops (list capacity fuel : ℕ) (e : EagerObjects) :
    StopsLike none (listGrowTo list capacity fuel e) := by
  induction fuel generalizing e with
  | zero => exact .ok _
  | succ fuel ih =>
    rw [listGrowTo]
    split
    · exact .ok _
    · exact .ite ((e.listGrow_stops list).bind fun e₁ _ => ih e₁) (.ok _)

theorem listAdd_stops (e : EagerObjects) (list value : ℕ) :
    StopsLike none (e.listAdd list value) := by
  refine (e.listEnsure_stops list).bind fun e₁ _ => ?_
  exact StopsLike.bind (.ite (retain_stops _ _) (.ok _)) fun _ _ => .ok _

theorem listAddTake_stops (e : EagerObjects) (list value : ℕ) :
    StopsLike none (e.listAddTake list value) :=
  (e.listEnsure_stops list).bind fun _ _ => .ok _

theorem listAddAll_stops (list : ℕ) (values : List ℕ) (e : EagerObjects) :
    StopsLike none (listAddAll list values e) := by
  induction values generalizing e with
  | nil => exact .ok _
  | cons value values ih => exact (e.listAdd_stops list value).bind fun e₁ _ => ih e₁

theorem listAppended_stops (e : EagerObjects) (list value : ℕ) (references takeValue : Bool) :
    StopsLike none (e.listAppended list value references takeValue) := by
  unfold listAppended
  simp only
  split
  · exact .ok _
  · refine .ite (.capacity (by decide)) ?_
    refine (listGrowTo_stops _ _ _ _).bind fun e₃ _ => ?_
    refine (listAddAll_stops _ _ e₃).bind fun e₄ _ => ?_
    exact StopsLike.bind (.ite (e₄.listAddTake_stops _ value) (e₄.listAdd_stops _ value))
      fun _ _ => .ok _

theorem listSetOwned_stops (e : EagerObjects) (list : ℕ) (position : ℤ) (value : ℕ)
    (retainValue : Bool) : StopsLike (positionStop e.heap list position)
      (e.listSetOwned list position value retainValue) := by
  unfold listSetOwned positionStop
  rcases e.heap list with _ | o
  · exact .ok _
  · rw [Option.bind_some]
    by_cases houtside : position < 0 ∨ (o.values.length : ℤ) ≤ position
    · simp only [if_pos houtside]
      exact .error _
    · simp only [if_neg houtside]
      refine .ite (StopsLike.bind ?_ fun _ _ => .ok _) (.ok _)
      exact .ite (retain_stops _ _) (.ok _)

theorem recordAllocate_stops (e : EagerObjects) (fieldCount : ℤ) (references : Bool) :
    StopsLike (fieldCountStop fieldCount) (e.recordAllocate fieldCount references) := by
  unfold recordAllocate fieldCountStop
  by_cases hmany : fieldCount < 0 ∨ (2 ^ 64 - 1) / 8 < fieldCount
  · rw [if_pos hmany, if_pos hmany]
    exact .error _
  · rw [if_neg hmany, if_neg hmany]
    exact .ite (.capacity (by decide)) (.ok _)

theorem recordSet_stops (e : EagerObjects) (record : ℕ) (field : ℤ) (value : ℕ) :
    StopsLike (positionStop e.heap record field) (e.recordSet record field value) := by
  unfold recordSet positionStop
  rcases e.heap record with _ | o
  · exact .ok _
  · simp only [Option.bind_some]
    split_ifs
    · exact .error _
    · exact .ok _

/-- A change in place that keeps the number of values. -/
theorem modify_length (e : EagerObjects) (r v : ℕ) {f : RcObject → RcObject}
    (hf : ∀ o, (f o).values.length = o.values.length) :
    ((e.modify r f).heap v).map (fun o => o.values.length) =
      (e.heap v).map fun o => o.values.length := by
  unfold modify
  rcases ho : e.heap r with _ | o
  · rfl
  · by_cases hv : v = r
    · subst hv
      rw [show (e.write v (f o)).heap v = some (f o) from Function.update_self _ _ _, ho]
      exact congrArg some (hf o)
    · rw [show (e.write r (f o)).heap v = e.heap v from Function.update_of_ne hv _ _]

/-- A new owner. -/
theorem retain_length {e e' : EagerObjects} {value : ℕ} (v : ℕ) (hs : e.retain value = .ok e') :
    (e'.heap v).map (fun o => o.values.length) = (e.heap v).map fun o => o.values.length := by
  have hmodify := e.modify_length value v (f := fun o => { o with owners := o.owners + 1 })
    fun _ => rfl
  unfold modify at hmodify
  unfold retain at hs
  split_ifs at hs
  · cases hs
    rfl
  · rcases ho : e.heap value with _ | o
    · rw [ho] at hs
      cases hs
      rfl
    · rw [ho] at hs hmodify
      simp only at hs
      split_ifs at hs
      · cases hs
        rfl
      · cases hs
        exact hmodify

/-- The position is checked twice. -/
theorem recordSetTake_stops (e : EagerObjects) (record : ℕ) (field : ℤ) (value : ℕ) :
    StopsLike (positionStop e.heap record field) (e.recordSetTake record field value) := by
  unfold recordSetTake
  rcases ho : e.heap record with _ | o
  · unfold positionStop
    rw [ho]
    exact .ok _
  · simp only
    split_ifs with houtside
    · unfold positionStop
      rw [ho, Option.bind_some, if_pos houtside]
      exact .error _
    · have hset := (e.modify record fun object =>
        { object with map := object.map.set field.toNat 1 }).recordSet_stops record field value
      have hlength := e.modify_length record record
        (f := fun object => { object with map := object.map.set field.toNat 1 }) fun _ => rfl
      rwa [positionStop_congr hlength] at hset

theorem recordSetReference_stops (e : EagerObjects) (record : ℕ) (field : ℤ) (value : ℕ) :
    StopsLike (positionStop e.heap record field) (e.recordSetReference record field value) := by
  refine (e.retain_stops value).bind fun e₁ hs₁ => ?_
  rw [← positionStop_congr (retain_length record hs₁)]
  exact e₁.recordSetTake_stops record field value

end EagerObjects

/-- Every operation of the eager runtime. -/
theorem RcOp.runEager_stops (e : EagerState) (op : RcOp) :
    StopsLike (op.sharedStop e.objects.heap) (op.runEager e) := by
  have hlift : ∀ {stop : Option String} {x : Except String (ℕ × EagerObjects)},
      StopsLike stop x → StopsLike stop (e.lift x) := fun hx => hx.bind_left fun _ => .ok _
  have hvoid : ∀ {stop : Option String} {x : Except String EagerObjects},
      StopsLike stop x → StopsLike stop (e.liftVoid x) := fun hx => hx.bind_left fun _ => .ok _
  have hretain : ∀ value {f : EagerObjects → EagerState}, StopsLike none
      ((e.objects.retain value >>= fun objects => .ok (f objects)) >>= eagerVoid) := fun value _ =>
    ((e.objects.retain_stops value).bind fun _ _ => .ok _).bind fun _ _ => .ok _
  have henter : ∀ locals, StopsLike none (e.enter locals >>= eagerVoid) := fun locals =>
    StopsLike.bind (.ite (.capacity (by decide)) (.ok _)) fun _ _ => .ok _
  cases op with
  | textSlice text first last => exact hlift (e.objects.textSlice_stops text first last)
  | listAdd list value => exact hvoid (e.objects.listAdd_stops list value)
  | listAddTake list value => exact hvoid (e.objects.listAddTake_stops list value)
  | listSet list position value =>
    exact hvoid (e.objects.listSetOwned_stops list position value true)
  | listSetTake list position value =>
    exact hvoid (e.objects.listSetOwned_stops list position value false)
  | listAppended list value references takeValue =>
    exact hlift (e.objects.listAppended_stops list value references takeValue)
  | recordNew fieldCount => exact hlift (e.objects.recordAllocate_stops fieldCount true)
  | recordNewScalar fieldCount => exact hlift (e.objects.recordAllocate_stops fieldCount false)
  | recordSetScalar record field value => exact hvoid (e.objects.recordSet_stops record field value)
  | recordSet record field value => exact hvoid (e.objects.recordSet_stops record field value)
  | recordSetTake record field value =>
    exact hvoid (e.objects.recordSetTake_stops record field value)
  | recordSetReference record field value =>
    exact hvoid (e.objects.recordSetReference_stops record field value)
  | retain value => exact hvoid (e.objects.retain_stops value)
  | borrow value => exact hretain value
  | setLocal index value => exact hretain value
  | enter locals => exact henter locals
  | enterStack header locals => exact henter locals
  | _ => exact .ok _

/-! ## Both runtimes -/

/-- The number of values of an object. -/
def RcContents.valueCount : RcContents → ℕ
  | text _ _ _ => 0
  | list values => values.length
  | references values => values.length
  | scalarRecord values => values.length
  | record fields => fields.length

namespace RcRefines

variable {s t : RcState} {L : RcLedger} {q q' : RcQueues} {v : ℕ} {x : RcContents}

/-- The ledger knows the number of values of an object. -/
theorem heap_length (h : RcRefines s L q) (hv : L.Usable v) (hx : L.heap v = some x)
    (htext : ∀ bytes backing immortal, x ≠ .text bytes backing immortal) :
    (s.objects.heap v).map (fun o => o.values.length) = some x.valueCount := by
  obtain ⟨o, ho, -, rfl⟩ := h.exists_of_usable hv hx
  have hmap := (h.inv.objects.cells v o ho).map_length
  rw [ho]
  refine congrArg some ?_
  unfold RcObject.contents at htext ⊢
  split <;> simp_all [RcContents.valueCount]

/-- So an operation stops alike in all states of the ledger. -/
theorem sharedStop_eq (h : RcRefines s L q) (h' : RcRefines t L q') {op : RcOp}
    (hlegal : op.Legal L) : op.sharedStop s.objects.heap = op.sharedStop t.objects.heap := by
  have hsame : ∀ {v x}, L.Usable v → L.heap v = some x →
      (∀ bytes backing immortal, x ≠ .text bytes backing immortal) → ∀ position,
      positionStop s.objects.heap v position = positionStop t.objects.heap v position :=
    fun hv hx htext => positionStop_congr
      ((h.heap_length hv hx htext).trans (h'.heap_length hv hx htext).symm)
  have hlist : ∀ {v p}, L.Usable v → L.ListTakes v p → ∀ position,
      positionStop s.objects.heap v position = positionStop t.objects.heap v position := by
    intro v p hv htakes
    rcases htakes with ⟨values, hx⟩ | ⟨⟨values, hx⟩, -⟩
    · exact hsame hv hx (by simp)
    · exact hsame hv hx (by simp)
  have hplain : ∀ {v field}, L.Usable v → L.PlainField v field → ∀ position,
      positionStop s.objects.heap v position = positionStop t.objects.heap v position := by
    intro v field hv hfield
    rcases hfield with ⟨values, hx⟩ | ⟨fields, hx, -⟩
    · exact hsame hv hx (by simp)
    · exact hsame hv hx (by simp)
  cases op with
  | listSet list position value => exact hlist hlegal.1 hlegal.2 position
  | listSetTake list position value => exact hlist hlegal.1 hlegal.2 position
  | recordSetScalar record field value => exact hplain hlegal.1 hlegal.2 field
  | recordSet record field value => exact hplain hlegal.1 hlegal.2 field
  | recordSetTake record field value =>
    obtain ⟨hv, ⟨fields, hx⟩, -⟩ := hlegal
    exact hsame hv hx (by simp) field
  | recordSetReference record field value =>
    obtain ⟨hv, ⟨fields, hx⟩, -⟩ := hlegal
    exact hsame hv hx (by simp) field
  | _ => rfl

end RcRefines

/-- A legal operation that stops in one runtime with a message that is not a limit of the machine
stops in the other one too, with that message or at such a limit. -/
theorem EagerHolds.stops_alike {c : RcConfig} {s : RcState} {e : EagerState} {L : RcLedger}
    {q : RcQueues} (h : RcRefines s L q) (h' : EagerHolds e.objects L) {op : RcOp}
    (hlegal : op.Legal L) {m : String} (hcapacity : m ∉ capacityStops) :
    (op.run c s = .error m → ∃ m', op.runEager e = .error m' ∧ (m' = m ∨ m' ∈ capacityStops)) ∧
      (op.runEager e = .error m → ∃ m', op.run c s = .error m' ∧ (m' = m ∨ m' ∈ capacityStops)) := by
  obtain ⟨t, ht, -⟩ := h'.state
  have heager : StopsLike (op.sharedStop s.objects.heap) (op.runEager e) := by
    rw [h.sharedStop_eq ht hlegal]
    exact op.runEager_stops e
  exact ⟨fun hm => (op.run_stops c s).other heager hm hcapacity,
    fun hm => heager.other (op.run_stops c s) hm hcapacity⟩

end Minyar

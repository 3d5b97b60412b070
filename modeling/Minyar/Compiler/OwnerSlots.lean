import Minyar.Compiler.Emission
import Minyar.Library.Decimal

/-!
# Slots and slot calls

What holds of the map of slots and of the output at every point of a function.  `SlotTable.Valid`
says that the answers of a generation are different slots below the number of owners, and that marked
locals have none; `PiecesValid` that behind every slot call there is the number of a slot.
-/

namespace Minyar

/-! ## The map -/

namespace SlotTable

/-- The value of a local in the current generation. -/
def entry (t : SlotTable) (id : ℕ) : Option ℤ := taggedEntry (-1) t.entries t.generation id

/-- Slots are given out in their order: what an earlier function left in the map is no answer. -/
def AnswersOrdered (answers : List (ℕ × ℤ)) : Prop :=
  ∀ (i : ℕ) {id : ℕ} {v : ℤ}, answers[i]? = some (id, v) → ∀ {slot : ℕ}, (slot : ℤ) < v →
    ∃ j < i, ∃ id', answers[j]? = some (id', (slot : ℤ))

/-- One more answer. -/
theorem AnswersOrdered.append {answers : List (ℕ × ℤ)} (h : AnswersOrdered answers) {id : ℕ} {v : ℤ}
    (hlower : ∀ {slot : ℕ}, (slot : ℤ) < v → ∃ id', (id', (slot : ℤ)) ∈ answers) :
    AnswersOrdered (answers ++ [(id, v)]) := by
  have hold : ∀ {j : ℕ} {answer}, answers[j]? = some answer →
      (answers ++ [(id, v)])[j]? = some answer := fun hget => by
    obtain ⟨hlt, -⟩ := List.getElem?_eq_some_iff.mp hget
    rw [List.getElem?_append_left hlt, hget]
  intro i id' v' hget slot hslot
  rcases Nat.lt_or_ge i answers.length with hi | hi
  · rw [List.getElem?_append_left hi] at hget
    obtain ⟨j, hj, id'', hget'⟩ := h i hget hslot
    exact ⟨j, hj, id'', hold hget'⟩
  · rw [List.getElem?_append_right hi] at hget
    cases List.mem_singleton.mp (List.mem_of_getElem? hget)
    obtain ⟨id'', hmem⟩ := hlower hslot
    obtain ⟨j, hget'⟩ := List.mem_iff_getElem?.mp hmem
    obtain ⟨hlt, -⟩ := List.getElem?_eq_some_iff.mp hget'
    exact ⟨j, hlt.trans_le hi, id'', hold hget'⟩

/-- What holds of the map in a function with `nextLocal` locals so far. -/
structure Valid (t : SlotTable) (nextLocal : ℕ) : Prop where
  /-- The generations start behind the filler. -/
  generation_nonneg : 0 ≤ t.generation
  /-- No entry belongs to a later generation. -/
  tags : TagsIn (-1) {g | g ≤ t.generation} t.entries
  /-- Entries belong to locals of the function. -/
  lt_nextLocal : ∀ {id v}, t.entry id = some v → id < nextLocal
  /-- Slots are below the number of owners. -/
  lt_owners : ∀ {id v}, t.entry id = some v → v < t.owners
  /-- A slot belongs to one local. -/
  inj : ∀ {id id' v}, t.entry id = some v → t.entry id' = some v → 0 ≤ v → id = id'
  /-- The negative values are those of the marked locals. -/
  neg_iff : ∀ {id v}, t.entry id = some v → (v < 0 ↔ id ∈ t.scalars)
  /-- The marks are in the map. -/
  marked : ∀ {id}, id ∈ t.scalars → ∃ v, t.entry id = some v
  /-- The answers are in the map. -/
  answered : ∀ {id v}, (id, v) ∈ t.answers → t.entry id = some v
  /-- Every slot was an answer. -/
  allocated : ∀ {slot}, slot < t.owners → ∃ id, (id, (slot : ℤ)) ∈ t.answers
  /-- Before a slot is an answer, the lower ones are. -/
  ordered : AnswersOrdered t.answers

/-- `ownershipSlot` allocates a slot or gives the value of the entry. -/
theorem ownershipSlot_cases (t : SlotTable) (id : ℕ) :
    (t.entry id = none ∧ t.ownershipSlot id = ((t.owners : ℤ), t.allocateSlot id)) ∨
      ∃ v, t.entry id = some v ∧ t.ownershipSlot id = (v, t.knownSlot id v) := by
  unfold entry taggedEntry ownershipSlot
  simp only [getD_padTo]
  by_cases htag : t.entries.getD (id * 2) (-1) = t.generation
  · rw [if_pos htag, if_neg (not_not.mpr htag)]
    exact .inr ⟨_, rfl, rfl⟩
  · rw [if_neg htag, if_pos htag]
    exact .inl ⟨rfl, rfl⟩

/-- The marks stay. -/
@[simp] theorem ownershipSlot_scalars (t : SlotTable) (id : ℕ) :
    (t.ownershipSlot id).2.scalars = t.scalars := by
  rcases t.ownershipSlot_cases id with ⟨-, heq⟩ | ⟨v, -, heq⟩ <;> rw [heq] <;> rfl

/-- No slot is given back. -/
theorem owners_le_ownershipSlot (t : SlotTable) (id : ℕ) :
    t.owners ≤ (t.ownershipSlot id).2.owners := by
  rcases t.ownershipSlot_cases id with ⟨-, heq⟩ | ⟨v, -, heq⟩ <;> rw [heq]
  · exact Nat.le_succ t.owners
  · exact le_rfl

@[simp] theorem entry_allocateSlot_self (t : SlotTable) (id : ℕ) :
    (t.allocateSlot id).entry id = some (t.owners : ℤ) :=
  taggedEntry_storeTagged_self _ _ _ _

theorem entry_allocateSlot_of_ne (t : SlotTable) {id id' : ℕ} (h : id' ≠ id) :
    (t.allocateSlot id).entry id' = t.entry id' := taggedEntry_storeTagged_of_ne _ h _

@[simp] theorem entry_knownSlot (t : SlotTable) (id : ℕ) (v : ℤ) (id' : ℕ) :
    (t.knownSlot id v).entry id' = t.entry id' := taggedEntry_padTo _ _ _ _

@[simp] theorem entry_markScalarRecord_self (t : SlotTable) (id values : ℕ) :
    (t.markScalarRecord id values).entry id = some (-2 - (values : ℤ)) :=
  taggedEntry_storeTagged_self _ _ _ _

theorem entry_markScalarRecord_of_ne (t : SlotTable) {id id' : ℕ} (h : id' ≠ id) (values : ℕ) :
    (t.markScalarRecord id values).entry id' = t.entry id' := taggedEntry_storeTagged_of_ne _ h _

/-- The entries after an allocation. -/
theorem entry_allocateSlot_eq_some_iff {t : SlotTable} {id id' : ℕ} {v : ℤ}
    (hnone : t.entry id = none) : (t.allocateSlot id).entry id' = some v ↔
      id' = id ∧ v = t.owners ∨ t.entry id' = some v := by
  by_cases hid : id' = id
  · rw [hid, entry_allocateSlot_self, hnone]
    simp [eq_comm]
  · rw [entry_allocateSlot_of_ne t hid]
    simp [hid]

/-- The entries after a mark. -/
theorem entry_markScalarRecord_eq_some_iff {t : SlotTable} {id id' values : ℕ} {v : ℤ}
    (hnone : t.entry id = none) : (t.markScalarRecord id values).entry id' = some v ↔
      id' = id ∧ v = -2 - (values : ℤ) ∨ t.entry id' = some v := by
  by_cases hid : id' = id
  · rw [hid, entry_markScalarRecord_self, hnone]
    simp [eq_comm]
  · rw [entry_markScalarRecord_of_ne t hid]
    simp [hid]

variable {t : SlotTable} {nextLocal : ℕ}

/-- The entry of a new local is empty. -/
theorem Valid.entry_eq_none (h : t.Valid nextLocal) {id : ℕ} (hid : nextLocal ≤ id) :
    t.entry id = none := by
  rcases hentry : t.entry id with _ | v
  · rfl
  · exact absurd (h.lt_nextLocal hentry) (Nat.not_lt.mpr hid)

/-- More locals. -/
theorem Valid.mono (h : t.Valid nextLocal) {nextLocal' : ℕ} (hle : nextLocal ≤ nextLocal') :
    t.Valid nextLocal' := { h with lt_nextLocal := fun hv => (h.lt_nextLocal hv).trans_le hle }

/-- A new slot. -/
theorem Valid.allocateSlot (h : t.Valid nextLocal) {id : ℕ} (hid : id < nextLocal)
    (hnone : t.entry id = none) : (t.allocateSlot id).Valid nextLocal where
  generation_nonneg := h.generation_nonneg
  tags := h.tags.storeTagged (le_refl t.generation) _ _
  lt_nextLocal hv := by
    rcases (entry_allocateSlot_eq_some_iff hnone).mp hv with ⟨rfl, -⟩ | hv
    · exact hid
    · exact h.lt_nextLocal hv
  lt_owners hv := by
    have howners : (t.allocateSlot id).owners = t.owners + 1 := rfl
    rcases (entry_allocateSlot_eq_some_iff hnone).mp hv with ⟨-, rfl⟩ | hv
    · omega
    · have := h.lt_owners hv
      omega
  inj hv hv' hnonneg := by
    rcases (entry_allocateSlot_eq_some_iff hnone).mp hv with ⟨rfl, rfl⟩ | hold
    · rcases (entry_allocateSlot_eq_some_iff hnone).mp hv' with ⟨rfl, -⟩ | hold'
      · rfl
      · exact absurd (h.lt_owners hold') (lt_irrefl _)
    · rcases (entry_allocateSlot_eq_some_iff hnone).mp hv' with ⟨rfl, rfl⟩ | hold'
      · exact absurd (h.lt_owners hold) (lt_irrefl _)
      · exact h.inj hold hold' hnonneg
  neg_iff hv := by
    rcases (entry_allocateSlot_eq_some_iff hnone).mp hv with ⟨rfl, rfl⟩ | hv
    · refine ⟨fun hneg => absurd hneg (by omega), fun hmem => ?_⟩
      obtain ⟨v, hv⟩ := h.marked hmem
      rw [hnone] at hv
      cases hv
    · exact h.neg_iff hv
  marked hmem := by
    obtain ⟨v, hv⟩ := h.marked hmem
    exact ⟨v, (entry_allocateSlot_eq_some_iff hnone).mpr (.inr hv)⟩
  answered hmem := by
    refine (entry_allocateSlot_eq_some_iff hnone).mpr ?_
    rcases List.mem_append.mp hmem with hmem | hmem
    · exact .inr (h.answered hmem)
    · cases List.mem_singleton.mp hmem
      exact .inl ⟨rfl, rfl⟩
  allocated {slot} hslot := by
    rcases Nat.lt_succ_iff_lt_or_eq.mp hslot with hslot | rfl
    · obtain ⟨id', hmem⟩ := h.allocated hslot
      exact ⟨id', List.mem_append_left _ hmem⟩
    · exact ⟨id, List.mem_append_right _ (List.mem_singleton_self _)⟩
  ordered := h.ordered.append fun hslot => h.allocated (Int.ofNat_lt.mp hslot)

/-- A known slot. -/
theorem Valid.knownSlot (h : t.Valid nextLocal) {id : ℕ} {v : ℤ} (hentry : t.entry id = some v) :
    (t.knownSlot id v).Valid nextLocal where
  generation_nonneg := h.generation_nonneg
  tags := h.tags.padTo _
  lt_nextLocal hv := h.lt_nextLocal (entry_knownSlot t id v _ ▸ hv)
  lt_owners hv := h.lt_owners (entry_knownSlot t id v _ ▸ hv)
  inj hv hv' := h.inj (entry_knownSlot t id v _ ▸ hv) (entry_knownSlot t id v _ ▸ hv')
  neg_iff hv := h.neg_iff (entry_knownSlot t id v _ ▸ hv)
  marked hmem := by
    obtain ⟨v', hv'⟩ := h.marked hmem
    exact ⟨v', (entry_knownSlot t id v _).trans hv'⟩
  answered hmem := by
    rw [entry_knownSlot]
    rcases List.mem_append.mp hmem with hmem | hmem
    · exact h.answered hmem
    · cases List.mem_singleton.mp hmem
      exact hentry
  allocated hslot := by
    obtain ⟨id', hmem⟩ := h.allocated hslot
    exact ⟨id', List.mem_append_left _ hmem⟩
  ordered := h.ordered.append fun hslot =>
    h.allocated (Int.ofNat_lt.mp (hslot.trans (h.lt_owners hentry)))

/-- A call of `ownershipSlot` for a local of the function: the answer is negative for a marked local
and a slot for any other. -/
theorem Valid.ownershipSlot (h : t.Valid nextLocal) {id : ℕ} (hid : id < nextLocal) :
    (t.ownershipSlot id).2.Valid nextLocal ∧
      (t.ownershipSlot id).1 < (t.ownershipSlot id).2.owners ∧
      ((t.ownershipSlot id).1 < 0 ↔ id ∈ t.scalars) := by
  have hvalid : (t.ownershipSlot id).2.Valid nextLocal := by
    rcases t.ownershipSlot_cases id with ⟨hnone, heq⟩ | ⟨v, hentry, heq⟩ <;> rw [heq]
    · exact h.allocateSlot hid hnone
    · exact h.knownSlot hentry
  have hmem : (id, (t.ownershipSlot id).1) ∈ (t.ownershipSlot id).2.answers := by
    rcases t.ownershipSlot_cases id with ⟨-, heq⟩ | ⟨v, -, heq⟩ <;> rw [heq] <;>
      exact List.mem_append_right _ (List.mem_singleton_self _)
  have hanswer := hvalid.answered hmem
  have hneg := hvalid.neg_iff hanswer
  rw [ownershipSlot_scalars] at hneg
  exact ⟨hvalid, hvalid.lt_owners hanswer, hneg⟩

/-- The mark of the next local. -/
theorem Valid.markScalarRecord (h : t.Valid nextLocal) (values : ℕ) :
    (t.markScalarRecord nextLocal values).Valid (nextLocal + 1) := by
  have hnone := h.entry_eq_none (le_refl nextLocal)
  have hiff : ∀ {id v}, (t.markScalarRecord nextLocal values).entry id = some v ↔
      id = nextLocal ∧ v = -2 - (values : ℤ) ∨ t.entry id = some v :=
    entry_markScalarRecord_eq_some_iff hnone
  have hscalars : (t.markScalarRecord nextLocal values).scalars = t.scalars ++ [nextLocal] := rfl
  refine
    { generation_nonneg := h.generation_nonneg
      tags := h.tags.storeTagged (le_refl t.generation) _ _
      lt_nextLocal := fun hv => ?_
      lt_owners := fun hv => ?_
      inj := fun hv hv' hnonneg => ?_
      neg_iff := fun hv => ?_
      marked := fun hmem => ?_
      answered := fun hmem => hiff.mpr (.inr (h.answered hmem))
      allocated := h.allocated
      ordered := h.ordered }
  · rcases hiff.mp hv with ⟨rfl, -⟩ | hv
    · exact Nat.lt_succ_self _
    · exact Nat.lt_succ_of_lt (h.lt_nextLocal hv)
  · have howners : (t.markScalarRecord nextLocal values).owners = t.owners := rfl
    rcases hiff.mp hv with ⟨-, rfl⟩ | hv
    · omega
    · exact h.lt_owners hv
  · rcases hiff.mp hv with ⟨-, rfl⟩ | hv
    · omega
    rcases hiff.mp hv' with ⟨-, rfl⟩ | hv'
    · omega
    exact h.inj hv hv' hnonneg
  · rw [hscalars, List.mem_append, List.mem_singleton]
    rcases hiff.mp hv with ⟨rfl, rfl⟩ | hv
    · exact ⟨fun _ => .inr rfl, fun _ => by omega⟩
    · rw [h.neg_iff hv]
      refine ⟨.inl, fun hmem => hmem.resolve_right fun heq => ?_⟩
      rw [heq, hnone] at hv
      cases hv
  · rw [hscalars, List.mem_append, List.mem_singleton] at hmem
    rcases hmem with hmem | rfl
    · obtain ⟨v, hv⟩ := h.marked hmem
      exact ⟨v, hiff.mpr (.inr hv)⟩
    · exact ⟨_, hiff.mpr (.inl ⟨rfl, rfl⟩)⟩

/-- A new generation is empty. -/
theorem Valid.entry_reset (h : t.Valid nextLocal) (id : ℕ) : t.reset.entry id = none :=
  h.tags.taggedEntry_eq_none (fun hle : t.generation + 1 ≤ t.generation => by omega) id

/-- The map at the start of a function. -/
theorem Valid.reset (h : t.Valid nextLocal) (nextLocal' : ℕ) : t.reset.Valid nextLocal' := by
  have hentry : ∀ {id v}, t.reset.entry id ≠ some v := fun {id v} heq => by
    rw [h.entry_reset] at heq
    cases heq
  exact
    { generation_nonneg := Int.add_nonneg h.generation_nonneg (by decide)
      tags := h.tags.mono fun g (hg : g ≤ t.generation) => hg.trans (by simp [SlotTable.reset])
      lt_nextLocal := fun hv => absurd hv hentry
      lt_owners := fun hv => absurd hv hentry
      inj := fun hv => absurd hv hentry
      neg_iff := fun hv => absurd hv hentry
      marked := fun hmem => absurd hmem List.not_mem_nil
      answered := fun hmem => absurd hmem List.not_mem_nil
      allocated := fun hslot => absurd hslot (Nat.not_lt_zero _)
      ordered := fun _ _ _ hget => absurd (List.mem_of_getElem? hget) List.not_mem_nil }

end SlotTable

/-! ## The pieces -/

/-- A piece that does not start with a blank is plain. -/
theorem plainPiece_of_head {piece : String} (h : piece.toList.head? ≠ some ' ') :
    PlainPiece piece := by
  intro hmem
  have hall : ∀ piece ∈ slotCalls, piece.toList.head? = some ' ' := by
    simp [transferNote, slotCalls, localCall, localTakeCall, localMoveCall]
  exact h (hall piece hmem)

/-- The characters of a numeral. -/
theorem toList_toString (n : ℕ) : (toString (n : ℤ)).toList = Nat.toDigits 10 n := by
  change (String.ofList (Nat.toDigits 10 n)).toList = _
  exact String.toList_ofList

/-- A numeral starts with a digit. -/
theorem head_toString (n : ℕ) : ∃ c, (toString (n : ℤ)).toList.head? = some c ∧ IsDigit c := by
  rw [toList_toString]
  rcases hdigits : Nat.toDigits 10 n with _ | ⟨c, digits⟩
  · exact absurd hdigits (isNumeral_toDigits n).nonempty
  · exact ⟨c, rfl, (isNumeral_toDigits n).digit c (hdigits ▸ List.mem_cons_self)⟩

/-- A number is a plain piece. -/
theorem plainPiece_toString (z : ℤ) : PlainPiece (toString z) := by
  refine plainPiece_of_head ?_
  rcases z with n | n
  · obtain ⟨c, hhead, hdigit⟩ := head_toString n
    rw [Int.ofNat_eq_natCast, hhead]
    rintro ⟨⟩
    exact absurd hdigit (by decide)
  · change ("-" ++ toString (n + 1)).toList.head? ≠ some ' '
    simp

/-- The name of an LLVM type is a plain piece. -/
theorem plainPiece_llvmType (type : ℕ) : PlainPiece (llvmType type) := by
  unfold llvmType
  split_ifs <;> decide

/-- A piece that does not start with a digit is no number. -/
theorem ne_toString {piece : String} (h : ∀ c ∈ piece.toList.head?, ¬ IsDigit c) (n : ℕ) :
    piece ≠ toString (n : ℤ) := by
  rintro rfl
  obtain ⟨c, hhead, hdigit⟩ := head_toString n
  exact h c hhead hdigit

/-- Behind every slot call of a function there is the number of a slot, and then the function has
owners. -/
structure PiecesValid (owners : ℕ) (rooted : Prop) (pieces : List String) : Prop where
  /-- The function has owners. -/
  rooted : ∀ {i : ℕ} {piece}, pieces[i]? = some piece → piece ∈ slotCalls → rooted
  /-- The number of the slot. -/
  number : ∀ {i : ℕ} {piece}, pieces[i]? = some piece → piece ∈ slotCalls →
    ∃ slot < owners, pieces[i + 1]? = some (toString (slot : ℤ))

namespace PiecesValid

variable {owners : ℕ} {rooted : Prop} {pieces pieces' : List String}

/-- More slots. -/
theorem mono (h : PiecesValid owners rooted pieces) {owners' : ℕ} (hle : owners ≤ owners')
    {rooted' : Prop} (hrooted : rooted → rooted') : PiecesValid owners' rooted' pieces where
  rooted hpiece hmem := hrooted (h.rooted hpiece hmem)
  number hpiece hmem := by
    obtain ⟨slot, hslot, hnumber⟩ := h.number hpiece hmem
    exact ⟨slot, hslot.trans_le hle, hnumber⟩

/-- Plain pieces. -/
theorem of_plain (h : ∀ piece ∈ pieces, PlainPiece piece) : PiecesValid owners rooted pieces where
  rooted hpiece hmem := absurd hmem (h _ (List.mem_of_getElem? hpiece))
  number hpiece hmem := absurd hmem (h _ (List.mem_of_getElem? hpiece))

/-- Pieces behind pieces. -/
theorem append (h : PiecesValid owners rooted pieces) (h' : PiecesValid owners rooted pieces') :
    PiecesValid owners rooted (pieces ++ pieces') := by
  refine ⟨fun {i piece} hpiece hmem => ?_, fun {i piece} hpiece hmem => ?_⟩
  · rcases Nat.lt_or_ge i pieces.length with hi | hi
    · exact h.rooted (List.getElem?_append_left hi ▸ hpiece) hmem
    · exact h'.rooted (List.getElem?_append_right hi ▸ hpiece) hmem
  · rcases Nat.lt_or_ge i pieces.length with hi | hi
    · obtain ⟨slot, hslot, hnumber⟩ := h.number (List.getElem?_append_left hi ▸ hpiece) hmem
      obtain ⟨hlt, -⟩ := List.getElem?_eq_some_iff.mp hnumber
      exact ⟨slot, hslot, by rw [List.getElem?_append_left hlt, hnumber]⟩
    · obtain ⟨slot, hslot, hnumber⟩ := h'.number (List.getElem?_append_right hi ▸ hpiece) hmem
      refine ⟨slot, hslot, ?_⟩
      rw [List.getElem?_append_right (by omega), Nat.sub_add_comm hi, hnumber]

/-- A call with the number of a slot. -/
theorem call {first : String} {slot : ℕ} {others : List String} (hslot : slot < owners)
    (hrooted : rooted) (hothers : ∀ piece ∈ others, PlainPiece piece) :
    PiecesValid owners rooted (first :: toString (slot : ℤ) :: others) := by
  refine ⟨fun _ _ => hrooted, fun {i piece} hpiece hmem => ?_⟩
  rcases i with _ | i
  · exact ⟨slot, hslot, rfl⟩
  · rcases List.mem_cons.mp (List.mem_of_getElem? (List.getElem?_cons_succ ▸ hpiece)) with rfl | hin
    · exact absurd hmem (plainPiece_toString slot)
    · exact absurd hmem (hothers _ hin)

/-- A plain piece where no number of a slot is. -/
theorem set (h : PiecesValid owners rooted pieces) {index : ℕ} {piece : String}
    (hplain : PlainPiece piece)
    (hnumber : ∀ {before}, pieces[index - 1]? = some before → index ≠ 0 → PlainPiece before) :
    PiecesValid owners rooted (pieces.set index piece) := by
  have hold : ∀ {i : ℕ} {old}, (pieces.set index piece)[i]? = some old → old ∈ slotCalls →
      pieces[i]? = some old := fun {i old} hget hmem => by
    rw [List.getElem?_set] at hget
    split_ifs at hget with heq hlt
    · exact absurd hmem (Option.some.inj hget ▸ hplain)
    · exact hget
  refine ⟨fun {i old} hget hmem => h.rooted (hold hget hmem) hmem, fun {i old} hget hmem => ?_⟩
  obtain ⟨slot, hslot, hnext⟩ := h.number (hold hget hmem) hmem
  refine ⟨slot, hslot, ?_⟩
  rw [List.getElem?_set_ne, hnext]
  rintro rfl
  exact hnumber (hold hget hmem) (Nat.succ_ne_zero i) hmem

/-- A plain piece in place of one that is not the number of a slot. -/
theorem set_of_ne (h : PiecesValid owners rooted pieces) {index : ℕ} {old piece : String}
    (hold : pieces[index]? = some old) (hne : ∀ slot : ℕ, old ≠ toString (slot : ℤ))
    (hplain : PlainPiece piece) : PiecesValid owners rooted (pieces.set index piece) := by
  refine h.set hplain fun {before} hbefore hindex hmem => ?_
  obtain ⟨slot, -, hnumber⟩ := h.number hbefore hmem
  rw [Nat.sub_add_cancel (Nat.pos_of_ne_zero hindex), hold] at hnumber
  exact hne slot (Option.some.inj hnumber)

/-- The piece behind one that became empty becomes empty too. -/
theorem set_next {index : ℕ} (h : PiecesValid owners rooted (pieces.set index "")) :
    PiecesValid owners rooted ((pieces.set index "").set (index + 1) "") := by
  refine h.set (by decide) fun {before} hbefore _ => ?_
  rw [Nat.add_sub_cancel, List.getElem?_set, if_pos rfl] at hbefore
  split_ifs at hbefore with hlt
  cases hbefore
  decide

/-- Plain pieces for pieces that are not numbers of slots. -/
theorem map (h : PiecesValid owners rooted pieces) {f : String → String}
    (hf : ∀ piece, f piece = piece ∨
      PlainPiece (f piece) ∧ ∀ slot : ℕ, piece ≠ toString (slot : ℤ)) :
    PiecesValid owners rooted (pieces.map f) := by
  have hold : ∀ {i : ℕ} {new}, (pieces.map f)[i]? = some new → new ∈ slotCalls →
      pieces[i]? = some new := fun {i new} hget hmem => by
    rw [List.getElem?_map] at hget
    obtain ⟨old, hpiece, rfl⟩ := Option.map_eq_some_iff.mp hget
    rcases hf old with heq | ⟨hplain, -⟩
    · rw [heq, hpiece]
    · exact absurd hmem hplain
  refine ⟨fun {i new} hget hmem => h.rooted (hold hget hmem) hmem, fun {i new} hget hmem => ?_⟩
  obtain ⟨slot, hslot, hnext⟩ := h.number (hold hget hmem) hmem
  refine ⟨slot, hslot, ?_⟩
  rw [List.getElem?_map, hnext, Option.map_some]
  exact congrArg some ((hf _).resolve_right fun hne => hne.2 slot rfl)

end PiecesValid

end Minyar

import Mathlib.Data.Nat.Bitwise
import Mathlib.Tactic.Ring
import Minyar.Rc.Objects

/-!
# The cursor of a dead object

A dead object keeps the cursor of its destruction in its own payload: a List in its capacity, a
record in the map bytes, seven bits in each.  The map has a byte for every field and a cursor is at
most the number of fields, so the bits always suffice, and the reference bits below the digits stay.
-/

namespace Minyar

/-! ## Digits in the map bytes -/

@[simp] theorem length_writeRecordCursor (map : List ℕ) (i c : ℕ) :
    (writeRecordCursor map i c).length = map.length := by
  induction map generalizing i c with
  | nil => rfl
  | cons byte map ih =>
    unfold writeRecordCursor
    split_ifs
    · rw [List.length_cons, List.length_cons, ih]
    · rfl

/-- Writing a digit keeps the reference bit below it. -/
theorem writeRecordByte_and_one (byte digit : ℕ) :
    ((byte &&& 1) ||| (digit <<< 1)) &&& 1 = byte &&& 1 := by
  rw [Nat.and_one_is_mod, Nat.and_one_is_mod, Nat.shiftLeft_eq, pow_one, Nat.mul_comm]
  have h : byte % 2 = 0 ∨ byte % 2 = 1 := Nat.mod_two_eq_zero_or_one byte
  rcases h with h | h
  · simp [h]
  · rw [h, Nat.or_comm, ← Nat.two_pow_add_eq_or_of_lt (i := 1) (by decide)]
    omega

/-- Writing a digit above the reference bit. -/
theorem writeRecordByte_shiftRight (byte digit : ℕ) :
    ((byte &&& 1) ||| (digit <<< 1)) >>> 1 = digit := by
  rw [Nat.shiftRight_or_distrib, Nat.shiftLeft_shiftRight, Nat.and_one_is_mod,
    Nat.shiftRight_eq_div_pow, pow_one, Nat.div_eq_of_lt (Nat.mod_lt _ (by decide)), Nat.zero_or]

/-- Writing a cursor keeps the reference bits. -/
theorem writeRecordCursor_getD_and_one (map : List ℕ) (i c k : ℕ) :
    (writeRecordCursor map i c).getD k 0 &&& 1 = map.getD k 0 &&& 1 := by
  induction map generalizing i c k with
  | nil => rfl
  | cons byte map ih =>
    unfold writeRecordCursor
    split_ifs
    · cases k with
      | zero => exact writeRecordByte_and_one byte (c &&& 127)
      | succ k => exact ih (i + 1) (c >>> 7) k
    · rfl

/-- Writing the cursor zero into a map of flags changes nothing. -/
theorem writeRecordCursor_zero {map : List ℕ} (h : ∀ b ∈ map, b < 2) (i : ℕ) :
    writeRecordCursor map i 0 = map := by
  induction map generalizing i with
  | nil => rfl
  | cons byte map ih =>
    have hbyte : byte < 2 := h byte List.mem_cons_self
    unfold writeRecordCursor
    split_ifs
    · rw [Nat.zero_shiftRight, ih (fun b hb => h b (List.mem_cons_of_mem _ hb)), Nat.zero_and,
        Nat.zero_shiftLeft, Nat.or_zero, Nat.and_one_is_mod, Nat.mod_eq_of_lt hbyte]
    · rfl

/-- The digits of a cursor in the bytes from index `i` on: the bits above 64 are lost. -/
theorem recordCursor_writeRecordCursor {map : List ℕ} {c : ℕ} (hc : c < 2 ^ (7 * map.length))
    (i : ℕ) : recordCursor (writeRecordCursor map i c) i = c <<< (i * 7) % 2 ^ 64 := by
  induction map generalizing i c with
  | nil =>
    obtain rfl : c = 0 := by simpa using hc
    simp [recordCursor, writeRecordCursor]
  | cons byte map ih =>
    unfold writeRecordCursor
    by_cases hi : i * 7 < 64
    · have hrest : c >>> 7 < 2 ^ (7 * map.length) := by
        rw [Nat.shiftRight_eq_div_pow]
        apply Nat.div_lt_of_lt_mul
        rw [← pow_add]
        exact lt_of_lt_of_eq hc (by rw [List.length_cons]; ring_nf)
      rw [if_pos hi, recordCursor, if_pos hi, ih hrest, writeRecordByte_shiftRight]
      -- The lowest digit and the rest make up the cursor, bit by bit.
      apply Nat.eq_of_testBit_eq
      intro j
      have hmask : (127 : ℕ) = 2 ^ 7 - 1 := rfl
      rw [hmask, Nat.and_two_pow_sub_one_eq_mod]
      simp only [Nat.testBit_or, Nat.testBit_mod_two_pow, Nat.testBit_shiftLeft,
        Nat.testBit_shiftRight]
      by_cases hj : i * 7 ≤ j
      · by_cases hj' : (i + 1) * 7 ≤ j
        · have h1 : ¬ j - i * 7 < 7 := by omega
          have h2 : 7 + (j - (i + 1) * 7) = j - i * 7 := by omega
          simp [h1, h2, hj, hj']
        · have h1 : j - i * 7 < 7 := by omega
          simp [h1, hj, hj']
      · have hj' : ¬ (i + 1) * 7 ≤ j := by omega
        simp [hj, hj']
    · have hle : 64 ≤ i * 7 := by omega
      rw [if_neg hi, recordCursor, if_neg hi]
      symm
      apply Nat.mod_eq_zero_of_dvd
      rw [Nat.shiftLeft_eq]
      exact Dvd.dvd.mul_left (pow_dvd_pow 2 hle) c

/-! ## The cursor of an object -/

@[simp] theorem rcBoundedSaveCursor_kind (o : RcObject) (c : ℕ) :
    (rcBoundedSaveCursor o c).kind = o.kind := by
  unfold rcBoundedSaveCursor
  split_ifs <;> rfl

@[simp] theorem rcBoundedSaveCursor_owners (o : RcObject) (c : ℕ) :
    (rcBoundedSaveCursor o c).owners = o.owners := by
  unfold rcBoundedSaveCursor
  split_ifs <;> rfl

@[simp] theorem rcBoundedSaveCursor_values (o : RcObject) (c : ℕ) :
    (rcBoundedSaveCursor o c).values = o.values := by
  unfold rcBoundedSaveCursor
  split_ifs <;> rfl

@[simp] theorem rcBoundedSaveCursor_bytes (o : RcObject) (c : ℕ) :
    (rcBoundedSaveCursor o c).bytes = o.bytes := by
  unfold rcBoundedSaveCursor
  split_ifs <;> rfl

@[simp] theorem rcBoundedSaveCursor_backing (o : RcObject) (c : ℕ) :
    (rcBoundedSaveCursor o c).backing = o.backing := by
  unfold rcBoundedSaveCursor
  split_ifs <;> rfl

@[simp] theorem length_map_rcBoundedSaveCursor (o : RcObject) (c : ℕ) :
    (rcBoundedSaveCursor o c).map.length = o.map.length := by
  unfold rcBoundedSaveCursor
  split_ifs
  · rfl
  · exact length_writeRecordCursor o.map 0 c

/-- A saved cursor keeps the reference bits. -/
theorem rcBoundedSaveCursor_getD_and_one (o : RcObject) (c k : ℕ) :
    (rcBoundedSaveCursor o c).map.getD k 0 &&& 1 = o.map.getD k 0 &&& 1 := by
  unfold rcBoundedSaveCursor
  split_ifs
  · rfl
  · exact writeRecordCursor_getD_and_one o.map 0 c k

/-- A saved cursor does not change what the fields own. -/
@[simp] theorem rcBoundedSaveCursor_child (o : RcObject) (c k : ℕ) :
    (rcBoundedSaveCursor o c).child k = o.child k := by
  unfold RcObject.child
  rw [rcBoundedSaveCursor_kind, rcBoundedSaveCursor_values, rcBoundedSaveCursor_getD_and_one]

/-- The cursor that a dead object saved is read back. -/
theorem rcBoundedSavedCursor_saveCursor {o : RcObject} {c : ℕ}
    (hmap : o.kind ≠ .references → o.map.length = o.values.length) (hc : c ≤ o.values.length)
    (hlen : o.values.length < 2 ^ 64) : rcBoundedSavedCursor (rcBoundedSaveCursor o c) = c := by
  unfold rcBoundedSavedCursor
  rw [rcBoundedSaveCursor_kind]
  unfold rcBoundedSaveCursor
  split_ifs with hkind
  · rfl
  · have hlt : c < 2 ^ (7 * o.map.length) := by
      rw [hmap hkind]
      calc c ≤ o.values.length := hc
        _ < 2 ^ o.values.length := Nat.lt_two_pow_self
        _ ≤ 2 ^ (7 * o.values.length) := Nat.pow_le_pow_right (by decide) (by omega)
    rw [recordCursor_writeRecordCursor hlt, Nat.zero_mul, Nat.shiftLeft_zero]
    exact Nat.mod_eq_of_lt (lt_of_le_of_lt hc hlen)

/-- The map bytes stay bytes. -/
theorem writeRecordCursor_lt {map : List ℕ} (h : ∀ b ∈ map, b < 256) (i c : ℕ) :
    ∀ b ∈ writeRecordCursor map i c, b < 256 := by
  induction map generalizing i c with
  | nil => exact h
  | cons byte map ih =>
    unfold writeRecordCursor
    split_ifs
    · refine List.forall_mem_cons.mpr ⟨?_, ih (fun b hb => h b (List.mem_cons_of_mem _ hb)) _ _⟩
      have hflag : byte &&& 1 < 2 ^ 8 := lt_of_le_of_lt Nat.and_le_right (by decide)
      have hdigit : (c &&& 127) <<< 1 < 2 ^ 8 := by
        have hle : c &&& 127 ≤ 127 := Nat.and_le_right
        rw [Nat.shiftLeft_eq]
        omega
      exact Nat.or_lt_two_pow hflag hdigit
    · exact h

/-- Whatever bits a dead record or List kept before, a cursor up to its length is read back after it
is saved, and saving it changes nothing but the bits of the cursor: the map bytes keep their
reference bits, their number and their width, and so do the owners, the kind and the values. -/
theorem rcBoundedSavedCursor_spec (object : RcObject) (cursor : ℕ)
    (hshape : object.kind = .references ∨
      object.kind = .record ∧ object.map.length = object.values.length)
    (hcursor : cursor ≤ object.values.length) (hlength : object.values.length < 2 ^ 63) :
    rcBoundedSavedCursor (rcBoundedSaveCursor object cursor) = cursor ∧
      (∀ k, (rcBoundedSaveCursor object cursor).map.getD k 0 &&& 1 = object.map.getD k 0 &&& 1) ∧
      (rcBoundedSaveCursor object cursor).map.length = object.map.length ∧
      ((∀ b ∈ object.map, b < 256) → ∀ b ∈ (rcBoundedSaveCursor object cursor).map, b < 256) ∧
      (rcBoundedSaveCursor object cursor).kind = object.kind ∧
      (rcBoundedSaveCursor object cursor).owners = object.owners ∧
      (rcBoundedSaveCursor object cursor).values = object.values := by
  refine ⟨?_, fun k => rcBoundedSaveCursor_getD_and_one object cursor k,
    length_map_rcBoundedSaveCursor object cursor, ?_, rcBoundedSaveCursor_kind object cursor,
    rcBoundedSaveCursor_owners object cursor, rcBoundedSaveCursor_values object cursor⟩
  · refine rcBoundedSavedCursor_saveCursor (fun hkind => ?_) hcursor (by omega)
    exact (hshape.resolve_left hkind).2
  · intro hbytes
    unfold rcBoundedSaveCursor
    split_ifs
    · exact hbytes
    · exact writeRecordCursor_lt hbytes 0 cursor

/-- The cursor 2 in a record of two fields that kept the cursor 127 before. -/
theorem rcBoundedSavedCursor_spec_two :
    rcBoundedSavedCursor
      (rcBoundedSaveCursor ⟨.record, 0, [5, 7], 0, [255, 0], [], 0⟩ 2) = 2 :=
  (rcBoundedSavedCursor_spec ⟨.record, 0, [5, 7], 0, [255, 0], [], 0⟩ 2 (.inr ⟨rfl, rfl⟩)
    (by decide) (by decide)).1

end Minyar

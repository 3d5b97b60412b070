import Minyar.Library.ByteMemory

/-!
# Accesses to blocks of bytes

A program that works on blocks may read some bytes and write some bytes.  `load`, `store`, `memcpy`
and `memcmp` fail when they touch another byte, so an answer says that nothing else was touched.
`copyEnds` and `sameEnds` treat a block by its first and its last `width` bytes, which cover it when
the block has at least `width` and at most twice as many bytes.
-/

namespace Minyar

/-- The bytes that may be read and the bytes that may be written. -/
structure BlockAccess where
  /-- The bytes that may be read. -/
  readable : ℕ → Bool
  /-- The bytes that may be written. -/
  writable : ℕ → Bool

/-- The bytes of a block. -/
def inBlock (start length a : ℕ) : Bool := decide (start ≤ a ∧ a < start + length)

/-- Reading two blocks. -/
def BlockAccess.compare (left right length : ℕ) : BlockAccess where
  readable a := inBlock left length a || inBlock right length a
  writable _ := false

/-- Reading one block and writing another. -/
def BlockAccess.copy (target source length : ℕ) : BlockAccess where
  readable := inBlock source length
  writable := inBlock target length

namespace BlockAccess

variable (access : BlockAccess) (m : ByteMemory)

/-- The number in `n` bytes. -/
def load (a n : ℕ) : Option ℕ :=
  if ∀ i < n, access.readable (a + i) = true then some (readBytes m a n) else none

/-- The memory after a number is stored in `n` bytes. -/
def store (a v n : ℕ) : Option ByteMemory :=
  if ∀ i < n, access.writable (a + i) = true then some (writeBytes m a v n) else none

/-- The library call, which is undefined for blocks that overlap. -/
def memcpy (target source n : ℕ) : Option ByteMemory :=
  if (∀ i < n, access.readable (source + i) = true) ∧
      (∀ i < n, access.writable (target + i) = true) ∧
      (source + n ≤ target ∨ target + n ≤ source) then some (copyBytes m target source n)
  else none

end BlockAccess

/-- The difference of the first bytes that differ, or zero. -/
def compareBlocks (m : ByteMemory) (left right : ℕ) : ℕ → ℤ
  | 0 => 0
  | n + 1 =>
    if m left = m right then compareBlocks m (left + 1) (right + 1) n
    else (m left).toNat - (m right).toNat

namespace BlockAccess

variable (access : BlockAccess) (m : ByteMemory)

/-- The library call; it may read both blocks to their ends. -/
def memcmp (left right n : ℕ) : Option ℤ :=
  if (∀ i < n, access.readable (left + i) = true) ∧
      ∀ i < n, access.readable (right + i) = true then
    some (compareBlocks m left right n)
  else none

/-- Copies the first and the last `width` bytes of a block. -/
def copyEnds (target source length width : ℕ) : Option ByteMemory := do
  let head ← access.load m source width
  let tail ← access.load m (source + length - width) width
  let m ← access.store m target head width
  access.store m (target + length - width) tail width

/-- Compares the first and the last `width` bytes of two blocks. -/
def sameEnds (left right length width : ℕ) : Option Bool := do
  let a ← access.load m left width
  let b ← access.load m right width
  let c ← access.load m (left + length - width) width
  let d ← access.load m (right + length - width) width
  return a = b && c = d

end BlockAccess

/-! ## Bytes of stored numbers -/

/-- Two reads agree when all their bytes do. -/
theorem readBytes_eq_iff (m m' : ByteMemory) (n : ℕ) :
    ∀ a a' : ℕ, readBytes m a n = readBytes m' a' n ↔ ∀ i < n, m (a + i) = m' (a' + i) := by
  induction n with
  | zero => exact fun a a' => ⟨fun _ i hi => absurd hi (Nat.not_lt_zero i), fun _ => rfl⟩
  | succ n ih =>
    intro a a'
    rw [readBytes, readBytes]
    have hfirst := (m a).toNat_lt
    have hfirst' := (m' a').toNat_lt
    constructor
    · intro heq i hi
      have hbyte : (m a).toNat = (m' a').toNat := by omega
      have hrest : readBytes m (a + 1) n = readBytes m' (a' + 1) n := by omega
      rcases i with _ | i
      · exact UInt8.toNat_inj.mp hbyte
      · have := (ih (a + 1) (a' + 1)).mp hrest i (Nat.lt_of_succ_lt_succ hi)
        rwa [Nat.add_right_comm, Nat.add_right_comm a'] at this
    · intro h
      have hbyte : m a = m' a' := h 0 (Nat.succ_pos n)
      have hrest : readBytes m (a + 1) n = readBytes m' (a' + 1) n :=
        (ih (a + 1) (a' + 1)).mpr fun i hi => by
          have := h (i + 1) (Nat.succ_lt_succ hi)
          rwa [← Nat.add_assoc, ← Nat.add_assoc, Nat.add_right_comm, Nat.add_right_comm a'] at this
      rw [hbyte, hrest]

/-- A byte inside a block that the bytes of another block were stored in. -/
theorem writeBytes_readBytes (m' : ByteMemory) (n : ℕ) :
    ∀ (m : ByteMemory) (a s : ℕ) {i : ℕ}, i < n →
      writeBytes m a (readBytes m' s n) n (a + i) = m' (s + i) := by
  induction n with
  | zero => exact fun _ _ _ i hi => absurd hi (Nat.not_lt_zero i)
  | succ n ih =>
    intro m a s i hi
    have hbyte := (m' s).toNat_lt
    have hrest : readBytes m' s (n + 1) / 256 = readBytes m' (s + 1) n := by
      rw [readBytes]
      omega
    rw [writeBytes, hrest]
    rcases i with _ | i
    · simp only [Nat.add_zero]
      rw [writeBytes_of_notMem n _ _ _ (by omega), Function.update_self, readBytes,
        UInt8.ofNat_eq_iff_mod_eq_toNat]
      omega
    · have := ih (Function.update m a (UInt8.ofNat (readBytes m' s (n + 1)))) (a + 1) (s + 1)
        (Nat.lt_of_succ_lt_succ hi)
      rwa [Nat.add_right_comm, Nat.add_right_comm s] at this

/-- The comparison of two blocks is zero when they agree. -/
theorem compareBlocks_eq_zero_iff (m : ByteMemory) (n : ℕ) :
    ∀ left right : ℕ, compareBlocks m left right n = 0 ↔ ∀ i < n, m (left + i) = m (right + i) := by
  induction n with
  | zero => exact fun _ _ => ⟨fun _ i hi => absurd hi (Nat.not_lt_zero i), fun _ => rfl⟩
  | succ n ih =>
    intro left right
    rw [compareBlocks]
    split_ifs with hbyte
    · rw [ih]
      constructor
      · rintro h (_ | i) hi
        · exact hbyte
        · have := h i (Nat.lt_of_succ_lt_succ hi)
          rwa [Nat.add_right_comm, Nat.add_right_comm right] at this
      · intro h i hi
        have := h (i + 1) (Nat.succ_lt_succ hi)
        rwa [← Nat.add_assoc, ← Nat.add_assoc, Nat.add_right_comm, Nat.add_right_comm right] at this
    · constructor
      · intro hzero
        exact absurd (UInt8.toNat_inj.mp (by omega)) hbyte
      · exact fun h => absurd (h 0 (Nat.succ_pos n)) hbyte

/-! ## Blocks by their ends -/

section

variable {access : BlockAccess} {m : ByteMemory}

/-- A load from bytes that may be read. -/
theorem BlockAccess.load_eq {a n : ℕ} (h : ∀ i < n, access.readable (a + i) = true) :
    access.load m a n = some (readBytes m a n) := if_pos h

/-- A store to bytes that may be written. -/
theorem BlockAccess.store_eq {a v n : ℕ} (h : ∀ i < n, access.writable (a + i) = true) :
    access.store m a v n = some (writeBytes m a v n) := if_pos h

/-- A part of a block that may be accessed. -/
theorem forall_lt_of_part {p : ℕ → Bool} {start length offset width : ℕ}
    (h : ∀ i < length, p (start + i) = true) (hpart : offset + width ≤ length) :
    ∀ i < width, p (start + offset + i) = true := fun i hi => by
  rw [Nat.add_assoc]
  exact h (offset + i) (by omega)

/-- The ends of two blocks agree when the blocks do. -/
theorem BlockAccess.sameEnds_eq {left right length width : ℕ}
    (hleft : ∀ i < length, access.readable (left + i) = true)
    (hright : ∀ i < length, access.readable (right + i) = true) (hwidth : width ≤ length)
    (hcover : length ≤ width + width) :
    ∃ answer, access.sameEnds m left right length width = some answer ∧
      (answer = true ↔ ∀ i < length, m (left + i) = m (right + i)) := by
  unfold sameEnds
  rw [Nat.add_sub_assoc hwidth, Nat.add_sub_assoc hwidth,
    load_eq fun i hi => hleft i (Nat.lt_of_lt_of_le hi hwidth),
    load_eq fun i hi => hright i (Nat.lt_of_lt_of_le hi hwidth),
    load_eq (forall_lt_of_part hleft (by omega : length - width + width ≤ length)),
    load_eq (forall_lt_of_part hright (by omega : length - width + width ≤ length))]
  refine ⟨_, rfl, ?_⟩
  rw [Bool.and_eq_true, decide_eq_true_iff, decide_eq_true_iff, readBytes_eq_iff, readBytes_eq_iff]
  constructor
  · rintro ⟨hhead, htail⟩ i hi
    by_cases hi' : i < width
    · exact hhead i hi'
    · have := htail (i - (length - width)) (by omega)
      rwa [Nat.add_assoc, Nat.add_assoc, Nat.add_sub_cancel' (by omega)] at this
  · intro h
    refine ⟨fun i hi => h i (by omega), fun i hi => ?_⟩
    rw [Nat.add_assoc, Nat.add_assoc]
    exact h (length - width + i) (by omega)

/-- The ends of a block copied to the ends of another are a copy of the block. -/
theorem BlockAccess.copyEnds_eq {target source length width : ℕ}
    (hsource : ∀ i < length, access.readable (source + i) = true)
    (htarget : ∀ i < length, access.writable (target + i) = true) (hwidth : width ≤ length)
    (hcover : length ≤ width + width) :
    access.copyEnds m target source length width = some (copyBytes m target source length) := by
  unfold copyEnds
  rw [Nat.add_sub_assoc hwidth, Nat.add_sub_assoc hwidth,
    load_eq fun i hi => hsource i (Nat.lt_of_lt_of_le hi hwidth),
    load_eq (forall_lt_of_part hsource (by omega : length - width + width ≤ length))]
  simp only [Option.bind_eq_bind, Option.bind_some]
  rw [store_eq fun i hi => htarget i (Nat.lt_of_lt_of_le hi hwidth)]
  simp only [Option.bind_some]
  rw [store_eq (forall_lt_of_part htarget (by omega : length - width + width ≤ length))]
  congr 1
  funext a
  by_cases htail : target + (length - width) ≤ a ∧ a < target + length
  · -- The last bytes, which may have been written before.
    obtain ⟨i, rfl⟩ := Nat.exists_eq_add_of_le htail.1
    rw [writeBytes_readBytes m width _ _ _ (by omega), copyBytes, if_pos (by omega)]
    congr 1
    omega
  · rw [writeBytes_of_notMem width _ _ _ (by omega)]
    by_cases hhead : target ≤ a ∧ a < target + width
    · obtain ⟨i, rfl⟩ := Nat.exists_eq_add_of_le hhead.1
      rw [writeBytes_readBytes m width _ _ _ (by omega), copyBytes, if_pos (by omega)]
      congr 1
      omega
    · rw [writeBytes_of_notMem width _ _ _ (by omega), copyBytes_of_notMem (by omega)]

end

end Minyar

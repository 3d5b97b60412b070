import Minyar.Library.BlockAccess

/-!
# Copies and comparisons of short blocks

The runtime copies and compares the bytes of Texts by two loads of a fixed width that may overlap,
one at each end, and leaves blocks of more than 16 bytes to the library.  The widths 8, 4 and 2
cover all lengths from 2 to 16, and no call touches a byte outside its blocks.
-/

namespace Minyar

namespace Runtime

/-- `copy_bytes`. -/
def copyBytes (access : BlockAccess) (m : ByteMemory) (target source length : ℕ) :
    Option ByteMemory :=
  if 16 < length then access.memcpy m target source length
  else if 8 ≤ length then access.copyEnds m target source length 8
  else if 4 ≤ length then access.copyEnds m target source length 4
  else if 2 ≤ length then access.copyEnds m target source length 2
  else if length = 1 then do
    let byte ← access.load m source 1
    access.store m target byte 1
  else some m

/-- `bytes_are_equal`. -/
def bytesAreEqual (access : BlockAccess) (m : ByteMemory) (left right length : ℕ) : Option Bool :=
  if 16 < length then do
    let order ← access.memcmp m left right length
    return order = 0
  else if 8 ≤ length then access.sameEnds m left right length 8
  else if 4 ≤ length then access.sameEnds m left right length 4
  else if 2 ≤ length then access.sameEnds m left right length 2
  else if length = 0 then some true
  else do
    let a ← access.load m left 1
    let b ← access.load m right 1
    return a = b

/-- `minyar_texts_are_equal`, for the descriptors of two Texts: their addresses, the addresses of
their bytes and the lengths. -/
def textsAreEqual (access : BlockAccess) (m : ByteMemory) (left right : ℕ × ℕ × ℕ) : Option Bool :=
  if left.1 = right.1 then some true
  else if left.2.2 = right.2.2 then bytesAreEqual access m left.2.1 right.2.1 left.2.2
  else some false

variable {access : BlockAccess} {m : ByteMemory}

/-- A comparison that may read both blocks says whether they agree. -/
theorem bytesAreEqual_eq {left right length : ℕ}
    (hleft : ∀ i < length, access.readable (left + i) = true)
    (hright : ∀ i < length, access.readable (right + i) = true) :
    ∃ answer, bytesAreEqual access m left right length = some answer ∧
      (answer = true ↔ ∀ i < length, m (left + i) = m (right + i)) := by
  unfold bytesAreEqual
  split_ifs with h16 h8 h4 h2 h0
  · refine ⟨decide (compareBlocks m left right length = 0), ?_, ?_⟩
    · rw [BlockAccess.memcmp, if_pos ⟨hleft, hright⟩]
      rfl
    · rw [decide_eq_true_iff, compareBlocks_eq_zero_iff]
  · exact BlockAccess.sameEnds_eq hleft hright h8 (by omega)
  · exact BlockAccess.sameEnds_eq hleft hright h4 (by omega)
  · exact BlockAccess.sameEnds_eq hleft hright h2 (by omega)
  · exact ⟨true, rfl, fun _ i hi => by omega, fun _ => rfl⟩
  · obtain rfl : length = 1 := by omega
    rw [BlockAccess.load_eq hleft, BlockAccess.load_eq hright]
    refine ⟨_, rfl, ?_⟩
    rw [decide_eq_true_iff, readBytes_eq_iff]

/-- A copy that may read the source and write the target copies the block. -/
theorem copyBytes_eq {target source length : ℕ}
    (hsource : ∀ i < length, access.readable (source + i) = true)
    (htarget : ∀ i < length, access.writable (target + i) = true)
    (hdisjoint : source + length ≤ target ∨ target + length ≤ source) :
    copyBytes access m target source length = some (Minyar.copyBytes m target source length) := by
  unfold copyBytes
  split_ifs with h16 h8 h4 h2 h1
  · exact if_pos ⟨hsource, htarget, hdisjoint⟩
  · exact BlockAccess.copyEnds_eq hsource htarget h8 (by omega)
  · exact BlockAccess.copyEnds_eq hsource htarget h4 (by omega)
  · exact BlockAccess.copyEnds_eq hsource htarget h2 (by omega)
  · subst h1
    rw [BlockAccess.load_eq hsource]
    simp only [Option.bind_eq_bind, Option.bind_some]
    rw [BlockAccess.store_eq htarget]
    congr 1
    funext a
    by_cases ha : a = target
    · subst ha
      rw [← Nat.add_zero a, writeBytes_readBytes m 1 _ _ _ Nat.one_pos, Minyar.copyBytes,
        if_pos (by omega), Nat.add_zero, Nat.sub_self, Nat.add_zero]
    · rw [writeBytes_of_notMem 1 _ _ _ (by omega), copyBytes_of_notMem (by omega)]
  · congr 1
    funext a
    exact (copyBytes_of_notMem (by omega)).symm

/-- Equality of Texts is equality of their bytes. -/
theorem textsAreEqual_eq {left right : ℕ × ℕ × ℕ} (hsame : left.1 = right.1 → left = right)
    (hleft : ∀ i < left.2.2, access.readable (left.2.1 + i) = true)
    (hright : ∀ i < right.2.2, access.readable (right.2.1 + i) = true) :
    ∃ answer, textsAreEqual access m left right = some answer ∧
      (answer = true ↔
        left.2.2 = right.2.2 ∧ ∀ i < left.2.2, m (left.2.1 + i) = m (right.2.1 + i)) := by
  unfold textsAreEqual
  split_ifs with hdescriptor hlength
  · rw [hsame hdescriptor]
    exact ⟨true, rfl, fun _ => ⟨rfl, fun _ _ => rfl⟩, fun _ => rfl⟩
  · obtain ⟨answer, heq, hanswer⟩ := bytesAreEqual_eq hleft (hlength ▸ hright)
    exact ⟨answer, heq, hanswer.trans ⟨fun h => ⟨hlength, h⟩, fun h => h.2⟩⟩
  · exact ⟨false, rfl, nofun, fun h => absurd h.1 hlength⟩

end Runtime

/-- Membership in a block. -/
theorem inBlock_add {start length i : ℕ} (hi : i < length) :
    inBlock start length (start + i) = true :=
  decide_eq_true ⟨Nat.le_add_right start i, Nat.add_lt_add_left hi start⟩

/-- For every length: a comparison that may read nothing but two blocks says whether they are equal,
and a copy that may read nothing but the source and write nothing but the target, where these do not
overlap, leaves the bytes of the source in the target and every other byte as it was. -/
theorem blocks_compare_and_copy (m : ByteMemory) (length : ℕ) :
    (∀ left right, ∃ answer,
      Runtime.bytesAreEqual (.compare left right length) m left right length = some answer ∧
        (answer = true ↔ ∀ i < length, m (left + i) = m (right + i))) ∧
    ∀ target source, source + length ≤ target ∨ target + length ≤ source → ∃ m',
      Runtime.copyBytes (.copy target source length) m target source length = some m' ∧
        (∀ i < length, m' (target + i) = m (source + i)) ∧
        ∀ a, a < target ∨ target + length ≤ a → m' a = m a := by
  refine ⟨fun left right => ?_, fun target source hdisjoint => ?_⟩
  · refine Runtime.bytesAreEqual_eq (fun i hi => ?_) fun i hi => ?_
    · exact Bool.or_eq_true_iff.mpr (.inl (inBlock_add hi))
    · exact Bool.or_eq_true_iff.mpr (.inr (inBlock_add hi))
  · refine ⟨_, Runtime.copyBytes_eq (fun i hi => inBlock_add hi) (fun i hi => inBlock_add hi)
      hdisjoint, fun i hi => ?_, fun a ha => copyBytes_of_notMem ha⟩
    rw [copyBytes, if_pos (by omega), Nat.add_sub_cancel_left]

/-- Eleven bytes, which the two loads of 8 bytes share in part, copied behind themselves. -/
theorem blocks_compare_and_copy_eleven : ∃ m',
    Runtime.copyBytes (.copy 11 0 11) (fun a => UInt8.ofNat a) 11 0 11 = some m' ∧
      (∀ i < 11, m' (11 + i) = UInt8.ofNat (0 + i)) ∧
      ∀ a, a < 11 ∨ 11 + 11 ≤ a → m' a = UInt8.ofNat a :=
  (blocks_compare_and_copy (fun a => UInt8.ofNat a) 11).2 11 0 (by decide)

end Minyar

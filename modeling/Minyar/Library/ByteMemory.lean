import Mathlib.Logic.Function.Basic
import Mathlib.Algebra.Order.Ring.Nat
import Mathlib.Tactic.Common

/-!
# Byte memories and the numbers stored in them

A memory is a total map from addresses to bytes.  `readBytes` and `writeBytes` read and write a
number over consecutive bytes, the little end first, and `copyBytes` is the block copy.  The
lemmas are the usual ones: what is written is read back, and a write outside a range of
addresses is not seen inside it.
-/

namespace Minyar

/-- A byte-addressed memory. -/
abbrev ByteMemory := ℕ → UInt8

/-- The number stored in the `n` bytes at `a`, the little end first. -/
def readBytes (m : ByteMemory) (a : ℕ) : ℕ → ℕ
  | 0 => 0
  | n + 1 => (m a).toNat + 256 * readBytes m (a + 1) n

/-- The memory after `v` is stored in the `n` bytes at `a`, the little end first. -/
def writeBytes (m : ByteMemory) (a v : ℕ) : ℕ → ByteMemory
  | 0 => m
  | n + 1 => writeBytes (Function.update m a (UInt8.ofNat v)) (a + 1) (v / 256) n

/-- The memory after the `n` bytes at `source` are copied to `target`. -/
def copyBytes (m : ByteMemory) (target source n : ℕ) : ByteMemory :=
  fun a => if target ≤ a ∧ a < target + n then m (source + (a - target)) else m a

variable {m m' : ByteMemory}

/-- A write is not seen outside the range it writes. -/
theorem writeBytes_of_notMem (n : ℕ) :
    ∀ (m : ByteMemory) (a v : ℕ) {b : ℕ}, b < a ∨ a + n ≤ b → writeBytes m a v n b = m b := by
  induction n with
  | zero => intros; rfl
  | succ n ih =>
    intro m a v b h
    rw [writeBytes, ih _ _ _ (by omega), Function.update_of_ne (by omega)]

/-- A copy is not seen outside its target. -/
theorem copyBytes_of_notMem {target source n a : ℕ} (h : a < target ∨ target + n ≤ a) :
    copyBytes m target source n a = m a := by
  unfold copyBytes
  rw [if_neg (by omega)]

/-- A read depends on the bytes of its range alone. -/
theorem readBytes_congr (n : ℕ) :
    ∀ {a : ℕ}, (∀ b, a ≤ b → b < a + n → m b = m' b) → readBytes m a n = readBytes m' a n := by
  induction n with
  | zero => intros; rfl
  | succ n ih =>
    intro a h
    rw [readBytes, readBytes, h a le_rfl (by omega), ih fun b hab hb => h b (by omega) (by omega)]

/-- The number stored in `n` bytes has `n` digits. -/
theorem readBytes_lt (m : ByteMemory) (a n : ℕ) : readBytes m a n < 256 ^ n := by
  induction n generalizing a with
  | zero => exact Nat.one_pos
  | succ n ih =>
    have := ih (a + 1)
    have hb := (m a).toNat_lt
    rw [readBytes, pow_succ]
    omega

/-- What is stored is read back, up to the width of the store. -/
theorem readBytes_writeBytes (n : ℕ) :
    ∀ (m : ByteMemory) (a v : ℕ), readBytes (writeBytes m a v n) a n = v % 256 ^ n := by
  induction n with
  | zero => intros; simp [readBytes, Nat.mod_one]
  | succ n ih =>
    intro m a v
    have hfirst : writeBytes m a v (n + 1) a = UInt8.ofNat v := by
      rw [writeBytes, writeBytes_of_notMem n _ _ _ (by omega), Function.update_self]
    rw [readBytes, hfirst, writeBytes, ih, pow_succ', Nat.mod_mul, UInt8.toNat_ofNat']

/-- A read from bytes that a write does not touch is unchanged. -/
theorem readBytes_writeBytes_of_disjoint {a b v n k : ℕ} (h : b + k ≤ a ∨ a + n ≤ b) :
    readBytes (writeBytes m a v n) b k = readBytes m b k :=
  readBytes_congr k fun c _ _ => writeBytes_of_notMem n _ _ _ (by omega)

end Minyar

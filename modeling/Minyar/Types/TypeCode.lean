import Mathlib.Tactic.Common

/-!
# Source types and their integer codes

The compiler represents every type by one integer: `1` to `4` for the four scalar types,
`1000 + r` for the record with symbol index `r`, and `100000` added to the code of the element
type for a List.  `MinType` is the source-level type, `MinType.code` the integer that `takeType`
computes for it, and the predicates below are the ones the compiler applies to codes.

The encoding is unambiguous only while record codes stay below the List offset.  `MinType.Small`
says so of one type, and `MinType.code_injective` is what it buys.
-/

namespace Minyar

/-- A value type of the source language.  Records are named by their symbol index. -/
inductive MinType where
  | integer
  | text
  | character
  | boolean
  | record (index : ℕ)
  | list (element : MinType)
  deriving DecidableEq, Repr

/-- The integer code `takeType` gives a type. -/
def MinType.code : MinType → ℕ
  | .integer => 1
  | .text => 2
  | .character => 3
  | .boolean => 4
  | .record r => 1000 + r
  | .list t => 100000 + t.code

/-- `isListType`. -/
def isListType (type : ℕ) : Bool := decide (100000 ≤ type)

/-- `isRecordType`. -/
def isRecordType (type : ℕ) : Bool := decide (1000 ≤ type) && decide (type < 100000)

/-- `listElementType`. -/
def listElementType (type : ℕ) : ℕ := type - 100000

/-- `isReferenceType`. -/
def isReferenceType (type : ℕ) : Bool := type == 2 || decide (1000 ≤ type)

namespace MinType

/-- The type left when every List constructor is stripped. -/
def base : MinType → MinType
  | .list t => t.base
  | t => t

/-- The type and the element types under its List constructors, outermost first. -/
def chain : MinType → List MinType
  | .list t => .list t :: t.chain
  | t => [t]

/-- The record named by the type, if any, has a code below the List offset. -/
def Small : MinType → Prop
  | .record r => r < 99000
  | .list t => t.Small
  | _ => True

/-- Every record named by the type is one of the first `n`. -/
def Declared (n : ℕ) : MinType → Prop
  | .record r => r < n
  | .list t => t.Declared n
  | _ => True

instance decidableDeclared (n : ℕ) : (t : MinType) → Decidable (t.Declared n)
  | .record r => Nat.decLt r n
  | .list t => decidableDeclared n t
  | .integer => isTrue trivial
  | .text => isTrue trivial
  | .character => isTrue trivial
  | .boolean => isTrue trivial

/-- A type heads its own chain. -/
lemma mem_chain_self (t : MinType) : t ∈ t.chain := by
  cases t <;> simp [chain]

/-- The code of an element type is the List code without the offset. -/
@[simp] lemma listElementType_code_list (t : MinType) : listElementType (list t).code = t.code :=
  Nat.add_sub_cancel_left 100000 t.code

/-- No type has the code of nothing. -/
lemma code_pos (t : MinType) : 0 < t.code := by
  cases t <;> simp only [code] <;> omega

/-- Every List code is recognised. -/
@[simp] lemma isListType_code_list (t : MinType) : isListType (list t).code = true :=
  decide_eq_true (Nat.le_add_right 100000 t.code)

/-- A small record code is recognised as a record and not as a List. -/
lemma isRecordType_code_record {r : ℕ} (h : (record r).Small) :
    isRecordType (record r).code = true ∧ isListType (record r).code = false := by
  have hr : r < 99000 := h
  have hcode : (record r).code = 1000 + r := rfl
  rw [hcode, isRecordType, isListType]
  exact ⟨by simp; omega, by simp; omega⟩

/-- Below the List offset every code has one type. -/
lemma code_injective {s t : MinType} (hs : s.Small) (ht : t.Small) (h : s.code = t.code) :
    s = t := by
  induction s generalizing t with
  | list s ih =>
    cases t with
    | list t =>
      have h' : 100000 + s.code = 100000 + t.code := h
      rw [@ih t hs ht (Nat.add_left_cancel h')]
    | record r => simp only [code, Small] at h ht; omega
    | integer => simp only [code] at h; omega
    | text => simp only [code] at h; omega
    | character => simp only [code] at h; omega
    | boolean => simp only [code] at h; omega
  | record r =>
    cases t <;> simp only [code, Small] at h hs ⊢ <;> first | omega | (congr 1; omega)
  | integer => cases t <;> simp only [code] at h ⊢ <;> omega
  | text => cases t <;> simp only [code] at h ⊢ <;> omega
  | character => cases t <;> simp only [code] at h ⊢ <;> omega
  | boolean => cases t <;> simp only [code] at h ⊢ <;> omega

end MinType

end Minyar

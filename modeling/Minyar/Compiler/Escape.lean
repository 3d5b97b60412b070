import Minyar.Compiler.Tokenize

/-!
# Escapes of LLVM assembly

`escapeLLVMText` copies a text in chunks and writes the characters that LLVM assembly cannot hold as a
backslash and their number.  `escapeLLVMText_eq` says that the chunks do not show, and
`unescapeLLVM_escape` that LLVM, which undoes the escapes, sees the text.
-/

namespace Minyar

/-! ## Escapes -/

/-- The escape of a character in LLVM assembly. -/
def llvmReplacement (c : Char) : Option Text :=
  if c = '\n' then some "\\0A".toList
  else if c = '\r' then some "\\0D".toList
  else if c = '\t' then some "\\09".toList
  else if c = '"' then some "\\22".toList
  else if c = '\\' then some "\\5C".toList
  else none

/-- The loop of `escapeLLVMText`; `chunk` is the position behind the last escape. -/
def escapePieces (chunk : Text) (pieces : List Text) : Text → List Text
  | [] => addChunk pieces chunk []
  | c :: rest => match llvmReplacement c with
    | some replacement => escapePieces rest (addChunk pieces chunk (c :: rest) ++ [replacement]) rest
    | none => escapePieces chunk pieces rest

/-- `escapeLLVMText`. -/
def escapeLLVMText (text : Text) : Text :=
  if text.all fun c => (llvmReplacement c).isNone then text else (escapePieces text [] text).flatten

/-- The value of a hexadecimal digit. -/
def hexValue (c : Char) : Option ℕ :=
  if '0' ≤ c ∧ c ≤ '9' then some (c.toNat - '0'.toNat)
  else if 'a' ≤ c ∧ c ≤ 'f' then some (c.toNat - 'a'.toNat + 10)
  else if 'A' ≤ c ∧ c ≤ 'F' then some (c.toNat - 'A'.toNat + 10)
  else none

/-- What LLVM reads between the quotes of a name: two backslashes are one, a backslash and two
hexadecimal digits are the character with that number. -/
def unescapeLLVM : Text → Text
  | [] => []
  | '\\' :: '\\' :: rest => '\\' :: unescapeLLVM rest
  | '\\' :: high :: low :: rest => match hexValue high, hexValue low with
    | some h, some l => Char.ofNat (16 * h + l) :: unescapeLLVM rest
    | _, _ => '\\' :: unescapeLLVM (high :: low :: rest)
  | c :: rest => c :: unescapeLLVM rest

/-! ## Escaping is undone -/

/-- A character as it is escaped. -/
def escapeCharacter (c : Char) : Text := (llvmReplacement c).getD [c]

/-- The pieces are the characters as they are escaped. -/
theorem flatten_escapePieces (before : Text) (pieces : List Text) (rest : Text) :
    (escapePieces (before ++ rest) pieces rest).flatten =
      pieces.flatten ++ (before ++ rest.flatMap escapeCharacter) := by
  induction rest generalizing before pieces with
  | nil =>
    rw [escapePieces, flatten_addChunk]
    simp
  | cons c rest ih =>
    rw [escapePieces, List.flatMap_cons, escapeCharacter]
    cases hescape : llvmReplacement c with
    | none =>
      have hbefore : before ++ c :: rest = before ++ [c] ++ rest := by simp
      simp only
      rw [hbefore, ih]
      simp
    | some replacement =>
      have hrest := ih [] (addChunk pieces (before ++ c :: rest) (c :: rest) ++ [replacement])
      rw [List.nil_append] at hrest
      simp only
      rw [hrest, List.flatten_append, flatten_addChunk]
      simp

/-- An escaped text is its characters as they are escaped. -/
theorem escapeLLVMText_eq (text : Text) : escapeLLVMText text = text.flatMap escapeCharacter := by
  unfold escapeLLVMText
  split_ifs with hall
  · have hsame : ∀ c ∈ text, escapeCharacter c = [c] := fun c hc => by
      have hnone := Option.isNone_iff_eq_none.mp (List.all_eq_true.mp hall c hc)
      rw [escapeCharacter, hnone]
      rfl
    rw [List.flatMap_congr hsame]
    simp
  · have hpieces := flatten_escapePieces [] [] text
    rw [List.nil_append] at hpieces
    rw [hpieces]
    simp

/-- A character is escaped as itself or as a backslash and its number. -/
theorem escapeCharacter_cases (c : Char) :
    escapeCharacter c = [c] ∧ c ≠ '"' ∧ c ≠ '\\' ∨
      ∃ high low h l, escapeCharacter c = ['\\', high, low] ∧ high ≠ '\\' ∧
        hexValue high = some h ∧ hexValue low = some l ∧ Char.ofNat (16 * h + l) = c ∧
        high ≠ '"' ∧ low ≠ '"' ∧ 16 * h + l < 128 := by
  unfold escapeCharacter llvmReplacement
  split_ifs with hnewline hreturn htab hquote hslash
  · exact Or.inr ⟨'0', 'A', 0, 10, rfl, by decide, rfl, rfl, hnewline.symm, by decide, by decide,
      by decide⟩
  · exact Or.inr ⟨'0', 'D', 0, 13, rfl, by decide, rfl, rfl, hreturn.symm, by decide, by decide,
      by decide⟩
  · exact Or.inr ⟨'0', '9', 0, 9, rfl, by decide, rfl, rfl, htab.symm, by decide, by decide,
      by decide⟩
  · exact Or.inr ⟨'2', '2', 2, 2, rfl, by decide, rfl, rfl, hquote.symm, by decide, by decide,
      by decide⟩
  · exact Or.inr ⟨'5', 'C', 5, 12, rfl, by decide, rfl, rfl, hslash.symm, by decide, by decide,
      by decide⟩
  · exact Or.inl ⟨rfl, hquote, hslash⟩

/-- Other characters than backslashes are read as they are. -/
theorem unescapeLLVM_cons {c : Char} (h : c ≠ '\\') (rest : Text) :
    unescapeLLVM (c :: rest) = c :: unescapeLLVM rest := by
  conv_lhs => unfold unescapeLLVM
  split <;> simp_all

/-- A text without backslashes is read as it is. -/
theorem unescapeLLVM_append {before : Text} (h : '\\' ∉ before) (rest : Text) :
    unescapeLLVM (before ++ rest) = before ++ unescapeLLVM rest := by
  induction before with
  | nil => rfl
  | cons c before ih =>
    rw [List.mem_cons, not_or] at h
    rw [List.cons_append, unescapeLLVM_cons (Ne.symm h.1), ih h.2, List.cons_append]

/-- LLVM undoes the escapes. -/
theorem unescapeLLVM_escape (text rest : Text) :
    unescapeLLVM (escapeLLVMText text ++ rest) = text ++ unescapeLLVM rest := by
  rw [escapeLLVMText_eq]
  induction text with
  | nil => rfl
  | cons c text ih =>
    rw [List.flatMap_cons, List.append_assoc]
    rcases escapeCharacter_cases c with
      ⟨hplain, -, hslash⟩ | ⟨high, low, h, l, hescape, hhigh, hh, hl, hc, -⟩
    · rw [hplain, List.singleton_append, unescapeLLVM_cons hslash, ih, List.cons_append]
    · rw [hescape, List.cons_append, List.cons_append, List.cons_append, List.nil_append]
      conv_lhs => unfold unescapeLLVM
      split
      · next heq => simp at heq
      · next heq =>
        simp only [List.cons.injEq] at heq
        exact absurd heq.2.1 hhigh
      · next high' low' rest' hne heq =>
        simp only [List.cons.injEq, true_and] at heq
        obtain ⟨rfl, rfl, rfl⟩ := heq
        rw [hh, hl]
        simp only
        rw [hc, ih, List.cons_append]
      · next hne hne' heq =>
        simp only [List.cons.injEq] at heq
        obtain ⟨rfl, rfl⟩ := heq
        exact absurd rfl (hne' high low _ rfl)

/-- An escaped text has no quote. -/
theorem quote_not_mem_escapeLLVMText (text : Text) : '"' ∉ escapeLLVMText text := by
  rw [escapeLLVMText_eq, List.mem_flatMap]
  rintro ⟨c, -, hc⟩
  rcases escapeCharacter_cases c with
    ⟨hplain, hquote, -⟩ | ⟨high, low, _, _, hescape, -, -, -, -, hhigh, hlow, -⟩
  · rw [hplain, List.mem_singleton] at hc
    exact hquote hc.symm
  · rw [hescape] at hc
    simp only [List.mem_cons, List.not_mem_nil, or_false] at hc
    rcases hc with hc | hc | hc
    · exact absurd hc (by decide)
    · exact hhigh hc.symm
    · exact hlow hc.symm

end Minyar

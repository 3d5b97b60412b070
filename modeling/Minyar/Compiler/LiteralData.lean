import Minyar.Compiler.Escape
import Minyar.Text.Decode

/-!
# The bytes of a literal

`compileTokens` writes a Text literal as an array of bytes in quotes with a zero byte at its end.
`literalData_spec` says that LLVM, which reads a backslash and two hexadecimal digits as one byte and
all other bytes as they are, sees the UTF-8 bytes of the literal and the zero, as many as declared.
-/

namespace Minyar

/-! ## The program -/

/-- The line of `compileTokens` with the bytes of the literal at a position of the tokens. -/
def literalDataLine (position : ℕ) (literal : Text) : Text :=
  "@.text.data.".toList ++ integerText position ++ " = private unnamed_addr constant [".toList ++
    integerText ((utf8 literal).length + 1) ++ " x i8] c\"".toList ++ escapeLLVMText literal ++
    "\\00\"\n".toList

/-! ## What LLVM reads -/

/-- The value of a byte that is a hexadecimal digit. -/
def hexByteValue (b : UInt8) : Option ℕ := hexValue (Char.ofNat b.toNat)

/-- The bytes of an array in quotes. -/
def readLLVMBytes : List UInt8 → List UInt8
  | [] => []
  | b :: rest =>
    if b = 0x5c then
      match rest with
      | high :: low :: behind => match hexByteValue high, hexByteValue low with
        | some h, some l => UInt8.ofNat (16 * h + l) :: readLLVMBytes behind
        | _, _ => b :: readLLVMBytes (high :: low :: behind)
      | [low] => [b, low]
      | [] => [b]
    else b :: readLLVMBytes rest

/-- Bytes that are no backslashes are read as they are. -/
theorem readLLVMBytes_append {before : List UInt8} (h : ∀ b ∈ before, b ≠ 0x5c)
    (rest : List UInt8) : readLLVMBytes (before ++ rest) = before ++ readLLVMBytes rest := by
  induction before with
  | nil => rfl
  | cons b before ih =>
    rw [List.forall_mem_cons] at h
    rw [List.cons_append, readLLVMBytes.eq_def]
    simp only
    rw [if_neg h.1, ih h.2, List.cons_append]

/-- A backslash and two hexadecimal digits are one byte. -/
theorem readLLVMBytes_escape {high low : UInt8} {h l : ℕ} (hhigh : hexByteValue high = some h)
    (hlow : hexByteValue low = some l) (rest : List UInt8) :
    readLLVMBytes (0x5c :: high :: low :: rest) =
      UInt8.ofNat (16 * h + l) :: readLLVMBytes rest := by
  rw [readLLVMBytes.eq_def]
  simp only [if_true, hhigh, hlow]

/-- Hexadecimal digits are ASCII. -/
theorem toNat_lt_of_hexValue {c : Char} {h : ℕ} (hc : hexValue c = some h) : c.val.toNat < 128 := by
  have hle : ∀ d : Char, c ≤ d → c.val.toNat ≤ d.val.toNat := fun d hd => hd
  unfold hexValue at hc
  split_ifs at hc with h₁ h₂ h₃
  · exact lt_of_le_of_lt (hle _ h₁.2) (by decide)
  · exact lt_of_le_of_lt (hle _ h₂.2) (by decide)
  · exact lt_of_le_of_lt (hle _ h₃.2) (by decide)

/-- The byte of a hexadecimal digit has its value. -/
theorem hexByteValue_of_hexValue {c : Char} {h : ℕ} (hc : hexValue c = some h) :
    hexByteValue (UInt8.ofNat c.val.toNat) = some h := by
  have hlt := toNat_lt_of_hexValue hc
  rw [hexByteValue, toNat_ofNat_of_lt (by omega)]
  exact (congrArg hexValue (Char.ofNat_toNat c)).trans hc

/-- The ASCII scalar with a number. -/
theorem toNat_ofNat_of_ascii {n : ℕ} (h : n < 128) : (Char.ofNat n).val.toNat = n := by
  have hvalid : n.isValidChar := Or.inl (by omega)
  unfold Char.ofNat
  rw [dif_pos hvalid]
  rfl

/-- LLVM reads the bytes of the text. -/
theorem readLLVMBytes_escapeLLVMText (text : Text) (rest : List UInt8) :
    readLLVMBytes (utf8 (escapeLLVMText text) ++ rest) = utf8 text ++ readLLVMBytes rest := by
  rw [escapeLLVMText_eq]
  induction text with
  | nil => rfl
  | cons c text ih =>
    rw [List.flatMap_cons, utf8_append, List.append_assoc, utf8_cons, List.append_assoc]
    rcases escapeCharacter_cases c with
      ⟨hplain, -, hslash⟩ | ⟨high, low, h, l, hescape, -, hhigh, hlow, hc, -, -, hlt⟩
    · have hbytes : ∀ b ∈ String.utf8EncodeChar c, b ≠ 0x5c := by
        rintro b hb rfl
        exact hslash (eq_of_mem_utf8EncodeChar (d := '\\') (by decide) hb)
      rw [hplain, utf8_cons, utf8_nil, List.append_nil, readLLVMBytes_append hbytes, ih]
    · have hhigh' := utf8EncodeChar_of_ascii (toNat_lt_of_hexValue hhigh)
      have hlow' := utf8EncodeChar_of_ascii (toNat_lt_of_hexValue hlow)
      have hvalue : c.val.toNat = 16 * h + l := by
        rw [← hc]
        exact toNat_ofNat_of_ascii hlt
      have hascii := utf8EncodeChar_of_ascii (c := c) (by omega)
      rw [hescape, utf8_cons, utf8_cons, utf8_cons, utf8_nil, List.append_nil, hhigh', hlow',
        hascii, hvalue]
      exact (readLLVMBytes_escape (hexByteValue_of_hexValue hhigh) (hexByteValue_of_hexValue hlow)
        _).trans (congrArg _ ih)

/-- A literal is written without quotes inside and LLVM reads its bytes; with the zero behind them
they are as many as the line declares. -/
theorem literalData_spec (literal : Text) (position : ℕ) :
    '"' ∉ escapeLLVMText literal ∧ 0x22 ∉ utf8 (escapeLLVMText literal) ∧
    readLLVMBytes (utf8 (escapeLLVMText literal)) = utf8 literal ∧
    ∃ declared contents,
      literalDataLine position literal = "@.text.data.".toList ++ integerText position ++
        " = private unnamed_addr constant [".toList ++ integerText declared ++
        " x i8] c\"".toList ++ contents ++ "\"\n".toList ∧
      declared = (utf8 literal).length + 1 ∧ 0x22 ∉ utf8 contents ∧
      readLLVMBytes (utf8 contents) = utf8 literal ++ [0] ∧
      (readLLVMBytes (utf8 contents)).length = declared := by
  have hquote : 0x22 ∉ utf8 (escapeLLVMText literal) :=
    (mem_utf8_iff (d := '"') (by decide)).not.mpr (quote_not_mem_escapeLLVMText literal)
  have hread : readLLVMBytes (utf8 (escapeLLVMText literal)) = utf8 literal := by
    have happend := readLLVMBytes_escapeLLVMText literal []
    rwa [List.append_nil, readLLVMBytes, List.append_nil] at happend
  have hzero : readLLVMBytes (utf8 "\\00".toList) = [0] := by decide
  have hcontents : readLLVMBytes (utf8 (escapeLLVMText literal ++ "\\00".toList)) =
      utf8 literal ++ [0] := by
    rw [utf8_append, readLLVMBytes_escapeLLVMText, hzero]
  refine ⟨quote_not_mem_escapeLLVMText literal, hquote, hread, _,
    escapeLLVMText literal ++ "\\00".toList, ?_, rfl, ?_, hcontents, ?_⟩
  · have hend : "\\00\"\n".toList = "\\00".toList ++ "\"\n".toList := rfl
    unfold literalDataLine
    rw [hend]
    simp only [List.append_assoc]
  · rw [utf8_append, List.mem_append, not_or]
    exact ⟨hquote, by decide⟩
  · rw [hcontents, List.length_append]
    rfl

end Minyar

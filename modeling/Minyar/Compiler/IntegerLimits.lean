import Minyar.Compiler.SameGrouping
import Minyar.Compiler.CompareText
import Minyar.Compiler.Tokenize
import Mathlib.Data.List.TakeWhile

/-!
# Integer literals and the texts of Integers

`checkedIntegerLiteral` decides the range of a literal by comparing digits, `format_integer_text` of the
runtime writes an Integer with unsigned arithmetic.  `integerLiteral_spec` says that the compiler accepts
exactly the literals of 64-bit Integers and that it reads what the runtime writes.
-/

namespace Minyar

/-! ## The program -/

/-- The loop of `format_integer_text` over the digits, from the last one on. -/
def formatDigits : ℕ → BitVec 64 → Text → Text
  | 0, _, written => written
  | fuel + 1, magnitude, written =>
    let written := Char.ofNat ('0'.toNat + (magnitude % 10#64).toNat) :: written
    if magnitude / 10#64 = 0#64 then written else formatDigits fuel (magnitude / 10#64) written

/-- `format_integer_text`.  The buffer has 32 bytes. -/
def formatIntegerText (integer : BitVec 64) : Text :=
  let magnitude := if integer.toInt < 0 then 0#64 - integer else integer
  let digits := formatDigits 32 magnitude []
  if integer.toInt < 0 then '-' :: digits else digits

/-- The constant that `parseUnary` and `parseAtom` return for a literal with its minus sign. -/
def literalConstant : List Lexeme → Option Text
  | t :: ts =>
    if t.kind = .punctuation ∧ t.text = "-" then
      match ts with
      | next :: _ =>
        if next.kind = .integer then (checkedIntegerLiteral next.text.toList true).map ('-' :: ·)
        else none
      | [] => none
    else if t.kind = .integer then checkedIntegerLiteral t.text.toList false
    else none
  | [] => none

/-- The number of a constant. -/
def constantValue : Text → ℤ
  | [] => 0
  | c :: digits => if c = '-' then -(digitsValue digits : ℤ) else digitsValue (c :: digits)

/-- The number of a literal with its minus sign. -/
def Grouping.literalValue : Grouping → Option ℤ
  | .integer n => some n
  | .unary operator (.integer n) => if operator = "-" then some (-n) else none
  | _ => none

/-- The largest magnitude of a literal. -/
def literalLimit (negative : Bool) : ℕ := if negative then 2 ^ 63 else 2 ^ 63 - 1

/-! ## Range of a literal -/

/-- The digits that `checkedIntegerLiteral` returns are how the number is written. -/
theorem canonicalDigits_eq {digits : Text} {n : ℕ} (h : IsNumeral digits n) :
    canonicalDigits digits = integerText n := by
  obtain ⟨hvalue, hmem, hhead⟩ := canonicalDigits_spec digits
  have hne : canonicalDigits digits ≠ [] := by
    have hnonempty := h.nonempty
    clear hvalue hmem hhead h
    fun_induction canonicalDigits digits with
    | case1 => exact hnonempty
    | case2 => exact hnonempty
    | case3 digits next ih => exact ih (List.cons_ne_nil _ _)
    | case4 => exact hnonempty
  rw [← toDigits_digitsValue (fun c hc => h.digit c (hmem c hc)) hne hhead, hvalue, h.value,
    integerText]

/-- Numerals of one length are compared as their numbers. -/
theorem compareText_pos_iff_digitsValue {left right : Text} (hlength : left.length = right.length)
    (hleft : ∀ c ∈ left, IsDigit c) (hright : ∀ c ∈ right, IsDigit c) :
    0 < compareText left right ↔ digitsValue right < digitsValue left := by
  constructor
  · exact digitsValue_lt_of_compareText hlength hleft hright
  · intro hlt
    rw [compareText_pos_iff]
    rcases lt_trichotomy left right with h | h | h
    · rw [← compareText_pos_iff] at h
      have := digitsValue_lt_of_compareText hlength.symm hright hleft h
      omega
    · rw [h] at hlt
      exact absurd hlt (lt_irrefl _)
    · exact h

/-- A number has more than `k` digits exactly from the power of ten on. -/
theorem lt_length_integerText_iff {n k : ℕ} (hk : 0 < k) :
    k < (integerText n).length ↔ 10 ^ k ≤ n := by
  have hle := Nat.length_toDigits_le_iff (b := 10) (n := n) (by decide) hk
  rw [integerText, ← not_le, hle, not_lt]

/-- The limits as they are in the source. -/
theorem literalLimit_digits (negative : Bool) :
    ∃ limit : Text, (if negative then "9223372036854775808" else "9223372036854775807").toList =
      limit ∧ limit.length = 19 ∧ (∀ c ∈ limit, IsDigit c) ∧
      digitsValue limit = literalLimit negative := by
  cases negative with
  | true => exact ⟨_, rfl, by decide, forall_mem_of_all (by decide), by decide⟩
  | false => exact ⟨_, rfl, by decide, forall_mem_of_all (by decide), by decide⟩

/-- A literal is accepted exactly up to the limit, and its canonical spelling is returned. -/
theorem checkedIntegerLiteral_eq {digits : Text} {n : ℕ} (h : IsNumeral digits n) (negative : Bool) :
    checkedIntegerLiteral digits negative =
      if n ≤ literalLimit negative then some (integerText n) else none := by
  obtain ⟨limit, hlimit, hlength, hdigit, hvalue⟩ := literalLimit_digits negative
  have hnumeral := isNumeral_toDigits n
  have hbelow : literalLimit negative < 10 ^ 19 := by cases negative <;> decide
  have habove : 10 ^ 18 ≤ literalLimit negative := by cases negative <;> decide
  unfold checkedIntegerLiteral
  simp only
  rw [canonicalDigits_eq h, hlimit]
  have hreject : (19 < (integerText n).length ∨ (integerText n).length = 19 ∧
      0 < compareText (integerText n) limit) ↔ ¬ n ≤ literalLimit negative := by
    rw [lt_length_integerText_iff (by decide)]
    by_cases hlong : 10 ^ 19 ≤ n
    · exact iff_of_true (Or.inl hlong) (by omega)
    by_cases hshort : n < 10 ^ 18
    · have hfew : ¬ 18 < (integerText n).length := by
        rw [lt_length_integerText_iff (by decide)]
        omega
      refine iff_of_false ?_ (by omega)
      rintro (hle | ⟨hnineteen, -⟩)
      · exact hlong hle
      · omega
    · have hmany : 18 < (integerText n).length := by
        rw [lt_length_integerText_iff (by decide)]
        omega
      have hfew : ¬ 19 < (integerText n).length := by
        rw [lt_length_integerText_iff (by decide)]
        exact hlong
      have hnineteen : (integerText n).length = 19 := by omega
      rw [compareText_pos_iff_digitsValue (hnineteen.trans hlength.symm) hnumeral.digit hdigit,
        hvalue]
      have hn : digitsValue (integerText n) = n := hnumeral.value
      rw [hn]
      omega
  by_cases hle : n ≤ literalLimit negative
  · rw [if_pos hle, if_neg (fun hr => hreject.mp hr hle)]
  · rw [if_neg hle, if_pos (hreject.mpr hle)]

/-! ## Texts of Integers -/

/-- The loop writes the digits of the number in front of those that are there. -/
theorem formatDigits_eq {fuel : ℕ} {magnitude : BitVec 64} (h : magnitude.toNat < 10 ^ fuel)
    (hfuel : 0 < fuel) (written : Text) :
    formatDigits fuel magnitude written = integerText magnitude.toNat ++ written := by
  induction fuel generalizing magnitude written with
  | zero => exact absurd hfuel (lt_irrefl 0)
  | succ fuel ih =>
    have hdiv : (magnitude / 10#64).toNat = magnitude.toNat / 10 := by simp [BitVec.toNat_udiv]
    have hmod : (magnitude % 10#64).toNat = magnitude.toNat % 10 := by simp [BitVec.toNat_umod]
    have hchar : Char.ofNat ('0'.toNat + magnitude.toNat % 10) =
        (magnitude.toNat % 10).digitChar := by
      have hall : ∀ d < 10, Char.ofNat ('0'.toNat + d) = d.digitChar := by decide
      exact hall _ (Nat.mod_lt _ (by decide))
    rw [formatDigits, hmod, hchar]
    split_ifs with hzero
    · have hsmall : magnitude.toNat < 10 := by
        have := congrArg BitVec.toNat hzero
        rw [hdiv] at this
        simp at this
        omega
      rw [integerText, Nat.toDigits_of_lt_base hsmall, Nat.mod_eq_of_lt hsmall]
      rfl
    · have hlarge : 10 ≤ magnitude.toNat := by
        by_contra hlt
        refine hzero (BitVec.eq_of_toNat_eq ?_)
        rw [hdiv]
        simp
        omega
      have hbound : (magnitude / 10#64).toNat < 10 ^ fuel := by
        rw [hdiv]
        rw [pow_succ] at h
        omega
      have hpos : 0 < fuel := by
        by_contra hfew
        rw [Nat.eq_zero_of_not_pos hfew] at h
        omega
      rw [ih hbound hpos, hdiv, integerText, integerText, Nat.toDigits_of_base_le (by decide) hlarge,
        List.append_assoc]
      rfl

/-- The text of an Integer: a minus sign if it is negative and the digits of its magnitude. -/
theorem formatIntegerText_eq (integer : BitVec 64) :
    formatIntegerText integer =
      if integer.toInt < 0 then '-' :: integerText integer.toInt.natAbs
      else integerText integer.toInt.natAbs := by
  have hmagnitude : (if integer.toInt < 0 then 0#64 - integer else integer).toNat =
      integer.toInt.natAbs := by
    have hlt := integer.isLt
    rw [BitVec.toInt_eq_toNat_cond]
    split_ifs with h₁ h₂ h₂
    · omega
    · omega
    · rw [BitVec.toNat_sub]
      simp
      omega
    · omega
  have hbound : ∀ m : BitVec 64, m.toNat < 10 ^ 32 := fun m => m.isLt.trans (by decide)
  unfold formatIntegerText
  simp only
  rw [formatDigits_eq (hbound _) (by decide), hmagnitude, List.append_nil]

/-! ## Reading the texts back -/

theorem characterIsDigit_iff (c : Char) : characterIsDigit c = true ↔ IsDigit c := by
  unfold characterIsDigit IsDigit
  rw [Bool.and_eq_true, decide_eq_true_iff, decide_eq_true_iff]

/-- A digit is nothing else to the lexer. -/
theorem IsDigit.lexed {c : Char} (h : IsDigit c) :
    characterIsWhitespace c = false ∧ c ≠ '/' ∧ (characterIsLetter c || c = '_') = false ∧
      c ≠ '=' := by
  have hdigit : ∀ d : Char, ¬ IsDigit d → c ≠ d := fun d hd heq => hd (heq ▸ h)
  have hnumber := h.toNat
  refine ⟨?_, hdigit _ (by decide), ?_, hdigit _ (by decide)⟩
  · simp [characterIsWhitespace, hdigit ' ' (by decide), hdigit '\n' (by decide),
      hdigit '\r' (by decide), hdigit '\t' (by decide)]
  · have hlower : ¬ 'a' ≤ c := fun hle => by
      have : 'a'.toNat ≤ c.toNat := hle
      have : '9'.toNat < 'a'.toNat := by decide
      omega
    have hupper : ¬ 'A' ≤ c := fun hle => by
      have : 'A'.toNat ≤ c.toNat := hle
      have : '9'.toNat < 'A'.toNat := by decide
      omega
    simp [characterIsLetter, hlower, hupper, hdigit '_' (by decide)]

/-- Digits up to the end of the source are one literal. -/
theorem tokenizeRest_digits {digits : Text} (hne : digits ≠ []) (h : ∀ c ∈ digits, IsDigit c)
    (place : Place) (tokens : List Token) :
    ∃ location, tokenizeRest digits place tokens =
      .ok (tokens ++ [⟨.integer, String.ofList digits, place.location⟩,
        ⟨.endOfFile, "", location⟩]) := by
  cases digits with
  | nil => exact absurd rfl hne
  | cons c rest =>
    obtain ⟨hspace, hslash, hname, -⟩ := (h c List.mem_cons_self).lexed
    have hrest : ∀ d ∈ rest, characterIsDigit d = true := fun d hd =>
      (characterIsDigit_iff d).mpr (h d (List.mem_cons_of_mem _ hd))
    have hlex : lexToken tokens c rest place =
        .ok ([⟨.integer, String.ofList (c :: rest), place.location⟩], [],
          place.skip (c :: rest).length) := by
      unfold lexToken
      rw [if_neg (by simp [hspace]), if_neg (fun hc => hslash hc.1), if_neg (fun hc => hslash hc.1),
        if_neg (by simp [hname]), if_pos ((characterIsDigit_iff c).mpr (h c List.mem_cons_self)),
        List.takeWhile_eq_self_iff.mpr hrest, List.dropWhile_eq_nil_iff.mpr hrest]
    refine ⟨(place.skip (c :: rest).length).location, ?_⟩
    rw [tokenizeRest_cons hlex, tokenizeRest_nil, List.append_assoc]
    rfl

/-- A minus sign before a digit is an operator of its own. -/
theorem lexToken_minus {c : Char} (h : IsDigit c) (rest : Text) (place : Place)
    (tokens : List Token) :
    lexToken tokens '-' (c :: rest) place =
      .ok ([⟨.punctuation, "-", place.location⟩], c :: rest, place.skip 1) := by
  have hdoubled : isDoubled '-' c = false := by
    simp [isDoubled, h.lexed.2.2.2]
  unfold lexToken
  rw [if_neg (by decide), if_neg (fun hc => absurd hc.1 (by decide)),
    if_neg (fun hc => absurd hc.1 (by decide)), if_neg (by decide), if_neg (by decide),
    if_neg (by decide), if_neg (by decide), if_neg (by decide)]
  unfold punctuation
  simp only [hdoubled]
  rfl

/-- What the parser reads of the tokens of the text of an Integer. -/
theorem tokenize_formatIntegerText (integer : BitVec 64) :
    ∃ tokens, tokenize (formatIntegerText integer) [] = .ok tokens ∧
      tokens.map Token.lexeme = (if integer.toInt < 0 then [⟨.punctuation, "-"⟩] else []) ++
        [⟨.integer, String.ofList (integerText integer.toInt.natAbs)⟩, ⟨.endOfFile, ""⟩] := by
  have hnumeral := isNumeral_toDigits integer.toInt.natAbs
  have hne : integerText integer.toInt.natAbs ≠ [] := hnumeral.nonempty
  have hdigit : ∀ c ∈ integerText integer.toInt.natAbs, IsDigit c := hnumeral.digit
  rw [formatIntegerText_eq]
  generalize integerText integer.toInt.natAbs = digits at *
  obtain ⟨c, rest, rfl⟩ := List.exists_cons_of_ne_nil hne
  have hc := hdigit c List.mem_cons_self
  have hmark : c ≠ byteOrderMark := fun h => absurd (h ▸ hc) (by decide)
  split_ifs with hnegative
  · obtain ⟨location, h⟩ := tokenizeRest_digits hne hdigit (Place.start.skip 1)
      [⟨.punctuation, "-", Place.start.location⟩]
    rw [← List.nil_append [_], ← tokenizeRest_cons (lexToken_minus hc rest _ _),
      ← tokenize_eq (by simp [byteOrderMark])] at h
    exact ⟨_, h, rfl⟩
  · obtain ⟨location, h⟩ := tokenizeRest_digits hne hdigit Place.start []
    rw [← tokenize_eq (by simpa using hmark)] at h
    exact ⟨_, h, rfl⟩

/-- A literal that is accepted is an operand by itself. -/
theorem parsePrimary_integer (isRecord : String → Bool) (parseRecord parseExpression : Parser Lexeme)
    {digits canonical : Text} (h : checkedIntegerLiteral digits false = some canonical) :
    parsePrimary isRecord parseRecord parseExpression
        [⟨.integer, String.ofList digits⟩, ⟨.endOfFile, ""⟩] =
      some (.integer (digitsValue canonical), [⟨.endOfFile, ""⟩]) := by
  have hatom : parseAtom isRecord parseRecord parseExpression
      [⟨.integer, String.ofList digits⟩, ⟨.endOfFile, ""⟩] =
      some (.integer (digitsValue canonical), [⟨.endOfFile, ""⟩]) := by
    rw [parseAtom, if_neg (by simp), if_pos rfl, String.toList_ofList, h]
    rfl
  unfold parsePrimary
  rw [hatom]
  rfl

/-- The largest magnitudes of Integers are the limits of the literals. -/
theorem natAbs_toInt_le (integer : BitVec 64) :
    integer.toInt.natAbs ≤ literalLimit (integer.toInt < 0) := by
  have hlow := BitVec.le_toInt integer
  have hhigh := BitVec.toInt_lt (x := integer)
  unfold literalLimit
  split_ifs with h
  · rw [decide_eq_true_iff] at h
    omega
  · rw [decide_eq_true_iff] at h
    omega

/-- The digits of a literal that is written for a number. -/
theorem checkedIntegerLiteral_integerText {n : ℕ} {negative : Bool} (h : n ≤ literalLimit negative) :
    checkedIntegerLiteral (integerText n) negative = some (integerText n) := by
  have hnumeral : IsNumeral (integerText n) n := isNumeral_toDigits n
  rw [checkedIntegerLiteral_eq hnumeral negative, if_pos h]

/-- The compiler accepts exactly the literals up to the limits of 64-bit Integers and returns how
their numbers are written; what the runtime writes for an Integer is lexed and parsed as that
Integer. -/
theorem integerLiteral_spec :
    (∀ (digits : Text) (n : ℕ), IsNumeral digits n →
      ((∃ canonical, checkedIntegerLiteral digits false = some canonical) ↔ n ≤ 2 ^ 63 - 1) ∧
      ((∃ canonical, checkedIntegerLiteral digits true = some canonical) ↔ n ≤ 2 ^ 63) ∧
      ∀ negative canonical, checkedIntegerLiteral digits negative = some canonical →
        canonical = integerText n) ∧
    (∀ integer : BitVec 64, ∃ tokens, tokenize (formatIntegerText integer) [] = .ok tokens ∧
      (∃ constant, literalConstant (tokens.map Token.lexeme) = some constant ∧
        constantValue constant = integer.toInt) ∧
      ∀ (isRecord : String → Bool) (parseRecord parseExpression : Parser Lexeme),
        ∃ grouping, parseUnary isRecord parseRecord parseExpression (tokens.map Token.lexeme) =
            some (grouping, [⟨.endOfFile, ""⟩]) ∧
          grouping.literalValue = some integer.toInt) := by
  refine ⟨?_, ?_⟩
  · intro digits n h
    have haccept : ∀ negative, (∃ canonical, checkedIntegerLiteral digits negative = some canonical) ↔
        n ≤ literalLimit negative := by
      intro negative
      rw [checkedIntegerLiteral_eq h]
      split_ifs with hle
      · exact iff_of_true ⟨_, rfl⟩ hle
      · exact iff_of_false (fun ⟨_, hsome⟩ => by cases hsome) hle
    refine ⟨haccept false, haccept true, fun negative canonical hsome => ?_⟩
    rw [checkedIntegerLiteral_eq h] at hsome
    split_ifs at hsome
    exact (Option.some.inj hsome).symm
  · intro integer
    obtain ⟨tokens, htokens, hlexemes⟩ := tokenize_formatIntegerText integer
    have hvalue : digitsValue (integerText integer.toInt.natAbs) = integer.toInt.natAbs :=
      (isNumeral_toDigits _).value
    have hchecked := checkedIntegerLiteral_integerText (natAbs_toInt_le integer)
    refine ⟨tokens, htokens, ?_⟩
    rw [hlexemes]
    by_cases hnegative : integer.toInt < 0
    · rw [if_pos hnegative]
      rw [decide_eq_true hnegative] at hchecked
      have habs : -(integer.toInt.natAbs : ℤ) = integer.toInt := by omega
      refine ⟨⟨'-' :: integerText integer.toInt.natAbs, ?_, ?_⟩, ?_⟩
      · unfold literalConstant
        simp only [List.singleton_append, if_true, and_self, String.toList_ofList, hchecked]
        rfl
      · unfold constantValue
        simp only [if_true]
        rw [hvalue, habs]
      · intro isRecord parseRecord parseExpression
        refine ⟨.unary "-" (.integer (digitsValue (integerText integer.toInt.natAbs))), ?_, ?_⟩
        · rw [List.singleton_append]
          unfold parseUnary
          simp only [String.toList_ofList, hchecked]
          rfl
        · rw [Grouping.literalValue, if_pos rfl, hvalue, habs]
    · rw [if_neg hnegative]
      rw [decide_eq_false hnegative] at hchecked
      have habs : (integer.toInt.natAbs : ℤ) = integer.toInt := by omega
      obtain ⟨c, rest, hdigits⟩ := List.exists_cons_of_ne_nil
        (isNumeral_toDigits integer.toInt.natAbs).nonempty
      refine ⟨⟨integerText integer.toInt.natAbs, ?_, ?_⟩, ?_⟩
      · unfold literalConstant
        simp only [List.nil_append, String.toList_ofList, hchecked]
        rfl
      · have hminus : c ≠ '-' := fun h => by
          have hc := (isNumeral_toDigits integer.toInt.natAbs).digit c (by rw [hdigits]; simp)
          exact absurd (h ▸ hc) (by decide)
        have hwritten : integerText integer.toInt.natAbs = c :: rest := hdigits
        rw [hwritten, constantValue, if_neg hminus, ← hwritten, hvalue, habs]
      · intro isRecord parseRecord parseExpression
        refine ⟨.integer (digitsValue (integerText integer.toInt.natAbs)), ?_, ?_⟩
        · rw [List.nil_append]
          unfold parseUnary
          rw [if_neg (by simp)]
          exact parsePrimary_integer isRecord parseRecord parseExpression hchecked
        · rw [Grouping.literalValue, hvalue, habs]

end Minyar

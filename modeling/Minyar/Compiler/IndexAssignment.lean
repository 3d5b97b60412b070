import Minyar.Library.Brackets
import Minyar.Compiler.Tokens

/-!
# Recognising an indexed assignment

`looksLikeIndexAssignment` decides whether a statement that starts with a name is compiled as an
indexed assignment: it looks for the bracket that closes the one after the name and for `=` behind
it.  It reads the tokens by their texts, so a literal whose value is a bracket counts as one, while
the statement is an indexed assignment when the *punctuation* brackets match.

`looksLikeIndexAssignment_iff` says that the answer is right where the literals leave the brackets of
the index as they are, and that no other indexed assignment is recognised unless its literals move the
closing bracket to another one in front of a `=`.  `literalsBalanced_of_literals` is the ordinary case
in which no literal reads as a bracket or as `=`.
-/

namespace Minyar

/-- The loop over the tokens behind the first bracket: the depth in the end and what follows. -/
def scanIndex : ℕ → List Token → ℕ × List Token
  | 0, rest => (0, rest)
  | depth + 1, [] => (depth + 1, [])
  | depth + 1, token :: rest =>
    if token.kind = .endOfFile then (depth + 1, token :: rest)
    else
      let depth := if token.text = "[" then depth + 2 else depth + 1
      let depth := if token.text = "]" then depth - 1 else depth
      scanIndex depth rest

/-- `looksLikeIndexAssignment` on a statement whose name is at `cursor`. -/
def looksLikeIndexAssignment (tokens : List Token) (cursor : ℕ) : Bool :=
  match tokens.drop (cursor + 1) with
  | [] => false
  | first :: rest =>
    if first.text = "[" then
      match scanIndex 1 rest with
      | (0, after :: _) => after.text = "="
      | _ => false
    else false

/-! ## Two readings of the brackets -/

/-- A bracket by its text alone. -/
def textBracket (token : Token) : Option Bracket :=
  if token.text = "[" then some .opening else if token.text = "]" then some .closing else none

/-- A bracket by its text, unless it is a literal. -/
def punctuationBracket (token : Token) : Option Bracket :=
  if token.isLiteral then none else textBracket token

/-- A bracket that is the value of a literal. -/
def literalBracket (token : Token) : Option Bracket :=
  if token.isLiteral then textBracket token else none

/-- The token that ends every source. -/
def Token.isEnd (token : Token) : Bool := token.kind = .endOfFile

/-- The index of an indexed assignment closes at a bracket that the token `after` follows. -/
def ClosesBefore (read : Token → Option Bracket) (rest : List Token) (after : Token) : Prop :=
  ∃ later, ClosedBy read Token.isEnd 0 rest (after :: later)

/-- The statement at `cursor` is `name [ tokens ] = ...` with matching punctuation brackets. -/
def IsIndexAssignment (tokens : List Token) (cursor : ℕ) : Prop :=
  ∃ name first rest after, tokens.drop cursor = name :: first :: rest ∧ name.kind = .name ∧
    punctuationBracket first = some .opening ∧ ClosesBefore punctuationBracket rest after ∧
    after.text = "=" ∧ after.isLiteral = false

/-- The loop is a scan for brackets by their texts. -/
theorem scanIndex_eq (depth : ℕ) (rest : List Token) :
    scanIndex depth rest = bracketScan textBracket Token.isEnd depth rest := by
  induction rest generalizing depth with
  | nil => cases depth <;> rfl
  | cons token rest ih =>
    rcases depth with _ | depth
    · rfl
    · by_cases hend : token.kind = .endOfFile
      · simp [scanIndex, bracketScan, Token.isEnd, hend]
      · by_cases hopen : token.text = "["
        · simp [scanIndex, bracketScan, Token.isEnd, hend, textBracket, hopen, ih]
        · by_cases hclose : token.text = "]"
          · simp [scanIndex, bracketScan, Token.isEnd, hend, textBracket, hclose, ih]
          · simp [scanIndex, bracketScan, Token.isEnd, hend, textBracket, hopen, hclose, ih]

theorem textBracket_eq_opening {token : Token} :
    textBracket token = some .opening ↔ token.text = "[" := by
  unfold textBracket
  split_ifs <;> simp_all

theorem punctuationBracket_eq_opening {token : Token} :
    punctuationBracket token = some .opening ↔ token.text = "[" ∧ token.isLiteral = false := by
  unfold punctuationBracket
  by_cases h : token.isLiteral = true
  · simp [h]
  · simp [h, textBracket_eq_opening]

/-- The literals behind the name at `cursor` leave the index as it is. -/
structure LiteralsBalanced (tokens : List Token) (cursor : ℕ) : Prop where
  /-- The token behind the name is no literal `[`. -/
  first : ∀ first rest, tokens.drop (cursor + 1) = first :: rest → first.text = "[" →
    first.isLiteral = false
  /-- The literals in the index that read `[` and `]` stay inside it and balance. -/
  index : ∀ first rest, tokens.drop (cursor + 1) = first :: rest → first.text = "[" →
    BracketsInside punctuationBracket literalBracket Token.isEnd rest
  /-- The token behind the index is no literal `=`. -/
  after : ∀ first rest after, tokens.drop (cursor + 1) = first :: rest → first.text = "[" →
    ClosesBefore punctuationBracket rest after → after.text = "=" → after.isLiteral = false

/-- The two readings do not close the index at different brackets that are both in front of a `=`. -/
def ClosesOnce (tokens : List Token) (cursor : ℕ) : Prop :=
  ∀ first rest after later after' later', tokens.drop (cursor + 1) = first :: rest →
    ClosedBy punctuationBracket Token.isEnd 0 rest (after :: later) → after.text = "=" →
    ClosedBy textBracket Token.isEnd 0 rest (after' :: later') → after'.text = "=" →
    after' :: later' = after :: later

/-- Every bracket is punctuation or a literal. -/
theorem bracketCount_textBracket (b : Bracket) (l : List Token) :
    bracketCount textBracket b l =
      bracketCount punctuationBracket b l + bracketCount literalBracket b l := by
  induction l with
  | nil => rfl
  | cons token l ih =>
    rw [bracketCount_cons, bracketCount_cons, bracketCount_cons, ih]
    unfold punctuationBracket literalBracket
    by_cases hliteral : token.isLiteral = true
    · simp only [hliteral, if_true, reduceCtorEq, if_false]
      omega
    · simp only [hliteral, Bool.false_eq_true, if_false, reduceCtorEq]
      omega

theorem textBracket_of_punctuationBracket {token : Token} {b : Bracket}
    (h : punctuationBracket token = some b) : textBracket token = some b := by
  unfold punctuationBracket at h
  split_ifs at h
  exact h

/-- What the function finds behind the name. -/
theorem looksLikeIndexAssignment_eq_true {tokens : List Token} {cursor : ℕ} :
    looksLikeIndexAssignment tokens cursor = true ↔ ∃ first rest after,
      tokens.drop (cursor + 1) = first :: rest ∧ first.text = "[" ∧
        ClosesBefore textBracket rest after ∧ after.text = "=" := by
  unfold looksLikeIndexAssignment
  rcases tokens.drop (cursor + 1) with _ | ⟨first, rest⟩
  · simp
  · simp only [scanIndex_eq]
    constructor
    · intro h
      split_ifs at h with hfirst
      split at h
      · rename_i after later hscan
        exact ⟨first, rest, after, rfl, hfirst, ⟨later, bracketScan_eq_zero_iff.mp hscan⟩,
          of_decide_eq_true h⟩
      · cases h
    · rintro ⟨first', rest', after, heq, hfirst, ⟨later, hclosed⟩, hafter⟩
      cases heq
      rw [if_pos hfirst, bracketScan_eq_zero_iff.mpr hclosed]
      exact decide_eq_true hafter

/-- What an indexed assignment is behind its name. -/
theorem isIndexAssignment_iff {tokens : List Token} {cursor : ℕ} {name : Token}
    (hname : tokens[cursor]? = some name) (hkind : name.kind = .name) :
    IsIndexAssignment tokens cursor ↔ ∃ first rest after,
      tokens.drop (cursor + 1) = first :: rest ∧ (first.text = "[" ∧ first.isLiteral = false) ∧
        ClosesBefore punctuationBracket rest after ∧ after.text = "=" ∧ after.isLiteral = false := by
  obtain ⟨hlt, hget⟩ := List.getElem?_eq_some_iff.mp hname
  have hdrop : tokens.drop cursor = name :: tokens.drop (cursor + 1) := by
    rw [List.drop_eq_getElem_cons hlt, hget]
  unfold IsIndexAssignment
  simp only [punctuationBracket_eq_opening]
  constructor
  · rintro ⟨name', first, rest, after, heq, -, h⟩
    rw [hdrop] at heq
    exact ⟨first, rest, after, (List.cons.inj heq).2, h⟩
  · rintro ⟨first, rest, after, heq, h⟩
    exact ⟨name, first, rest, after, by rw [hdrop, heq], hkind, h⟩

/-- Where the literals leave the brackets as they are, both readings close at the same bracket. -/
theorem LiteralsBalanced.closesBefore_iff {tokens : List Token} {cursor : ℕ} {first after : Token}
    {rest : List Token} (h : LiteralsBalanced tokens cursor)
    (hdrop : tokens.drop (cursor + 1) = first :: rest) (hfirst : first.text = "[") :
    ClosesBefore textBracket rest after ↔ ClosesBefore punctuationBracket rest after :=
  exists_congr fun _ => closedBy_iff (h.index first rest hdrop hfirst) bracketCount_textBracket
    fun _ => textBracket_of_punctuationBracket

/-- Every statement whose literals leave the index as it is is compiled as an indexed assignment exactly
if it is one.  An indexed assignment whose literals do not is compiled as one only where the literals
move the closing bracket to another one in front of a `=`. -/
theorem looksLikeIndexAssignment_iff {tokens : List Token} {cursor : ℕ} {name : Token}
    (hname : tokens[cursor]? = some name) (hkind : name.kind = .name) :
    (LiteralsBalanced tokens cursor →
      (looksLikeIndexAssignment tokens cursor = true ↔ IsIndexAssignment tokens cursor)) ∧
    (IsIndexAssignment tokens cursor → ClosesOnce tokens cursor →
      (looksLikeIndexAssignment tokens cursor = true ↔ LiteralsBalanced tokens cursor)) := by
  rw [looksLikeIndexAssignment_eq_true, isIndexAssignment_iff hname hkind]
  constructor
  · intro h
    constructor
    · rintro ⟨first, rest, after, hdrop, hfirst, hcloses, hafter⟩
      have hpunctuation := (h.closesBefore_iff hdrop hfirst).mp hcloses
      exact ⟨first, rest, after, hdrop, ⟨hfirst, h.first first rest hdrop hfirst⟩, hpunctuation,
        hafter, h.after first rest after hdrop hfirst hpunctuation hafter⟩
    · rintro ⟨first, rest, after, hdrop, ⟨hfirst, -⟩, hcloses, hafter, -⟩
      exact ⟨first, rest, after, hdrop, hfirst, (h.closesBefore_iff hdrop hfirst).mpr hcloses,
        hafter⟩
  · rintro ⟨first, rest, after, hdrop, ⟨hfirst, hpunctuation⟩, ⟨later, hclosed⟩, hafter, hliteral⟩ honce
    constructor
    · rintro ⟨first', rest', after', hdrop', -, ⟨later', hclosed'⟩, hafter'⟩
      rw [hdrop] at hdrop'
      cases hdrop'
      have hsame := honce first rest after later after' later' hdrop hclosed hafter hclosed' hafter'
      rw [hsame] at hclosed'
      constructor
      · intro first' rest' hdrop' _
        rw [hdrop] at hdrop'
        cases hdrop'
        exact hpunctuation
      · intro first' rest' hdrop' _
        rw [hdrop] at hdrop'
        cases hdrop'
        exact bracketsInside_of_closedBy bracketCount_textBracket hclosed hclosed'
      · rintro first' rest' after'' hdrop' - ⟨later'', hclosed''⟩ -
        rw [hdrop] at hdrop'
        cases hdrop'
        obtain ⟨rfl, -⟩ := List.cons.inj (hclosed.unique hclosed'')
        exact hliteral
    · intro h
      exact ⟨first, rest, after, hdrop, hfirst, (h.closesBefore_iff hdrop hfirst).mpr ⟨later, hclosed⟩,
        hafter⟩

/-- The tokens of `items[find("[", ']')] = 1`. -/
def balancedStatement : List Token :=
  [⟨.name, "items", "1, column 1"⟩, ⟨.punctuation, "[", "1, column 6"⟩,
    ⟨.name, "find", "1, column 7"⟩, ⟨.punctuation, "(", "1, column 11"⟩,
    ⟨.text, "[", "1, column 12"⟩, ⟨.punctuation, ",", "1, column 15"⟩,
    ⟨.character, "]", "1, column 17"⟩, ⟨.punctuation, ")", "1, column 20"⟩,
    ⟨.punctuation, "]", "1, column 21"⟩, ⟨.punctuation, "=", "1, column 23"⟩,
    ⟨.integer, "1", "1, column 25"⟩, ⟨.terminator, "end of line", "1, column 26"⟩,
    ⟨.endOfFile, "", "2, column 1"⟩]

/-- The two literals of the statement balance. -/
theorem literalsBalanced_balancedStatement : LiteralsBalanced balancedStatement 0 := by
  have hclosed : ∀ {first rest}, balancedStatement.drop 1 = first :: rest →
      ClosedBy punctuationBracket Token.isEnd 0 rest (balancedStatement.drop 9) ∧
        ClosedBy textBracket Token.isEnd 0 rest (balancedStatement.drop 9) := by
    intro first rest hdrop
    cases hdrop
    exact ⟨bracketScan_eq_zero_iff.mp rfl, bracketScan_eq_zero_iff.mp rfl⟩
  constructor
  · intro first rest hdrop _
    cases hdrop
    rfl
  · intro first rest hdrop _
    exact bracketsInside_of_closedBy bracketCount_textBracket (hclosed hdrop).1 (hclosed hdrop).2
  · rintro first rest after hdrop - ⟨later, hafter⟩ -
    cases hafter.unique (hclosed hdrop).1
    rfl

/-- The tokens of `items[size("]")] = 1`. -/
def bracketLiteralStatement : List Token :=
  [⟨.name, "items", "1, column 1"⟩, ⟨.punctuation, "[", "1, column 6"⟩,
    ⟨.name, "size", "1, column 7"⟩, ⟨.punctuation, "(", "1, column 11"⟩,
    ⟨.text, "]", "1, column 12"⟩, ⟨.punctuation, ")", "1, column 15"⟩,
    ⟨.punctuation, "]", "1, column 16"⟩, ⟨.punctuation, "=", "1, column 18"⟩,
    ⟨.integer, "1", "1, column 20"⟩, ⟨.terminator, "end of line", "1, column 21"⟩,
    ⟨.endOfFile, "", "2, column 1"⟩]

/-- The statement with balanced literals is an indexed assignment and compiled as one, and the literal
of the other one does not balance. -/
theorem looksLikeIndexAssignment_iff_balanced :
    (looksLikeIndexAssignment balancedStatement 0 = true ∧ IsIndexAssignment balancedStatement 0) ∧
      ¬ LiteralsBalanced bracketLiteralStatement 0 := by
  have hiff := (@looksLikeIndexAssignment_iff balancedStatement 0 ⟨.name, "items", "1, column 1"⟩
    rfl rfl).1 literalsBalanced_balancedStatement
  refine ⟨⟨by decide, hiff.mp (by decide)⟩, fun h => ?_⟩
  have hanswer := ((@looksLikeIndexAssignment_iff bracketLiteralStatement 0
    ⟨.name, "items", "1, column 1"⟩ rfl rfl).2 ?_ ?_).mpr h
  · exact absurd hanswer (by decide)
  · exact ⟨_, _, _, _, rfl, rfl, by decide, ⟨_, bracketScan_eq_zero_iff.mp rfl⟩, rfl, rfl⟩
  · intro first rest after later after' later' hdrop _ _ hclosed hafter
    cases hdrop
    have hscan : ClosedBy textBracket Token.isEnd 0 (bracketLiteralStatement.drop 2)
        (bracketLiteralStatement.drop 5) := bracketScan_eq_zero_iff.mp rfl
    cases hclosed.unique hscan
    exact absurd hafter (by decide)

/-- A statement whose index calls a function with the Text `]` is an indexed assignment that is not
compiled as one. -/
theorem looksLikeIndexAssignment_bracketLiteral :
    looksLikeIndexAssignment bracketLiteralStatement 0 = false ∧
      IsIndexAssignment bracketLiteralStatement 0 :=
  ⟨by decide, _, _, _, _, rfl, rfl, by decide, ⟨_, bracketScan_eq_zero_iff.mp rfl⟩, rfl, rfl⟩

/-- Literals that read neither as a bracket nor as `=` leave every index as it is. -/
theorem literalsBalanced_of_literals {tokens : List Token} {cursor : ℕ}
    (hliterals : ∀ token ∈ tokens, token.isLiteral = true →
      token.text ≠ "[" ∧ token.text ≠ "]" ∧ token.text ≠ "=") :
    LiteralsBalanced tokens cursor := by
  have hmem : ∀ {first rest}, tokens.drop (cursor + 1) = first :: rest →
      ∀ token ∈ first :: rest, token ∈ tokens := fun hdrop token ht =>
    List.mem_of_mem_drop (hdrop ▸ ht)
  constructor
  · intro first rest hdrop hfirst
    by_contra h
    exact (hliterals first (hmem hdrop first List.mem_cons_self) (by simpa using h)).1 hfirst
  · intro first rest hdrop _
    have hnone : ∀ b p, p <+: rest → bracketCount literalBracket b p = 0 := by
      intro b p hp
      refine List.countP_eq_zero.mpr fun token ht => ?_
      have htoken := hliterals token (hmem hdrop token (List.mem_cons_of_mem _ (hp.subset ht)))
      unfold literalBracket textBracket
      by_cases hliteral : token.isLiteral = true
      · simp [hliteral, (htoken hliteral).1, (htoken hliteral).2.1]
      · simp [hliteral]
    constructor
    · intro p hp hfree hopen
      have := hopen p List.prefix_rfl
      rw [hnone _ p hp, hnone _ p hp]
      exact this
    · intro index close later heq hwithin hclose hfree
      rw [hnone _ index ⟨_, heq.symm⟩, hnone _ index ⟨_, heq.symm⟩]
  · rintro first rest after hdrop - ⟨later, index, close, heq, -⟩ hafter
    by_contra h
    have ht : after ∈ first :: rest := by
      rw [heq]
      simp
    exact (hliterals after (hmem hdrop after ht) (by simpa using h)).2.2 hafter

end Minyar

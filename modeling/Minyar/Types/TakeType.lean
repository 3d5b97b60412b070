import Minyar.Types.TypeCode
import Minyar.Modules.SymbolSearch
import Minyar.Compiler.LexicalScopes

/-!
# Reading types and discovering records

`takeType` reads a type and returns its code.  The codes of records come from the positions of the
records in the symbol table, which `discoverRecordNames` fills with the records of the program, in
their order and however many there are, before any type is read.
-/

namespace Minyar

namespace Token

/-- The failure of `expectToken`. -/
def unexpected (expected : String) (token : Token) : Text :=
  describeLocation token.location.toList ++ ": expected '".toList ++ expected.toList ++
    "', found '".toList ++ token.text.toList ++ "'".toList

/-- `expectToken`. -/
def expectToken (expected : String) : List Token → Except Text (List Token)
  | [] => .error []
  | token :: rest =>
    if token.is expected then .ok rest else .error (unexpected expected token)

/-- `skipTerminators`. -/
def skipTerminators (tokens : List Token) : List Token :=
  tokens.dropWhile fun token => token.kind = .terminator

end Token

/-! ## Types -/

/-- `simpleTypeCode`. -/
def simpleTypeCode (name : String) : ℕ :=
  if name = "Integer" then 1
  else if name = "Text" then 2
  else if name = "Character" then 3
  else if name = "Boolean" then 4
  else if name = "Nothing" then 5
  else 0

/-- What `takeValueType` adds to `takeType`. -/
def requireValueType (type : ℕ) : Except Text ℕ :=
  if type = 5 then .error "Nothing cannot be used as a value type".toList else .ok type

/-- `takeType`: the code of a type and the tokens behind it. -/
def takeType (names : List Text) (kinds : List ℕ) : List Token → Except Text (ℕ × List Token)
  | [] => .error []
  | name :: rest =>
    if name.text = "List" then
      match rest with
      | [] => .error []
      | opening :: rest =>
        if opening.is "<" then do
          let (type, rest) ← takeType names kinds rest
          let type ← requireValueType type
          let rest ← Token.expectToken ">" rest
          return (100000 + type, rest)
        else .error (Token.unexpected "<" opening)
    else if simpleTypeCode name.text = 0 then
      let record := findSymbol names kinds name.text.toList 2
      if record < 0 then
        .error (describeLocation name.location.toList ++ ": unknown type '".toList ++
          name.text.toList ++ "'".toList)
      else .ok (1000 + record.toNat, rest)
    else .ok (simpleTypeCode name.text, rest)

/-- `takeValueType`. -/
def takeValueType (names : List Text) (kinds : List ℕ) (tokens : List Token) :
    Except Text (ℕ × List Token) := do
  let (type, rest) ← takeType names kinds tokens
  let type ← requireValueType type
  return (type, rest)

/-! ## Records -/

/-- What `discoverRecordNames` finds. -/
structure DiscoveredRecords where
  /-- `symbolNames`. -/
  names : List Text := []
  /-- `symbolKinds`. -/
  kinds : List ℕ := []
  /-- `symbolLocations`. -/
  locations : List Text := []
  /-- `symbolReturnTypes`. -/
  returnTypes : List ℕ := []
  /-- `symbolParameterCounts`. -/
  parameterCounts : List ℕ := []
  /-- `declarationEnds`. -/
  declarationEnds : List ℕ := []
  /-- There are statements outside of declarations. -/
  topLevelStatements : Bool := false
  deriving DecidableEq

/-- The first step at a declaration: a record is one more symbol. -/
def DiscoveredRecords.declare (found : DiscoveredRecords) (keyword name : Token) :
    DiscoveredRecords :=
  if keyword.is "record" then
    { found with
      names := found.names ++ [name.text.toList]
      kinds := found.kinds ++ [2]
      locations := found.locations ++ [name.location.toList]
      returnTypes := found.returnTypes ++ [1000 + found.names.length]
      parameterCounts := found.parameterCounts ++ [0] }
  else found

/-- How a token changes the depth of a kind of brackets. -/
def bracketStep (opening closing : String) (token : Token) : ℤ :=
  if token.kind = .punctuation then
    if token.text = opening then 1 else if token.text = closing then -1 else 0
  else 0

/-- The loop of `skipTopLevelStatement`. -/
def skipStatement (round square curly : ℤ) : List Token → List Token
  | [] => []
  | token :: rest =>
    if token.kind = .endOfFile ∨
        token.kind = .terminator ∧ round = 0 ∧ square = 0 ∧ curly = 0 then token :: rest
    else skipStatement (round + bracketStep "(" ")" token) (square + bracketStep "[" "]" token)
      (curly + bracketStep "\x7b" "\x7d" token) rest

/-- `skipTopLevelStatement`. -/
def skipTopLevelStatement (tokens : List Token) : List Token :=
  Token.skipTerminators (skipStatement 0 0 0 tokens)

/-- Terminators are skipped. -/
theorem length_skipTerminators_le (tokens : List Token) :
    (Token.skipTerminators tokens).length ≤ tokens.length :=
  (List.dropWhile_sublist _).length_le

/-- The loop of `skipTopLevelStatement` does not go back. -/
theorem length_skipStatement_le (tokens : List Token) (round square curly : ℤ) :
    (skipStatement round square curly tokens).length ≤ tokens.length := by
  induction tokens generalizing round square curly with
  | nil => exact le_rfl
  | cons token rest ih =>
    rw [skipStatement]
    split_ifs
    · exact le_rfl
    · exact Nat.le_succ_of_le (ih _ _ _)

/-- A statement has a token. -/
theorem length_skipTopLevelStatement_lt {token : Token} (h : token.kind ≠ .endOfFile)
    (rest : List Token) : (skipTopLevelStatement (token :: rest)).length < rest.length + 1 := by
  unfold skipTopLevelStatement
  rw [skipStatement]
  split_ifs with hstop
  · have hterminator := (hstop.resolve_left h).1
    rw [Token.skipTerminators, List.dropWhile_cons_of_pos (by simpa using hterminator)]
    exact Nat.lt_succ_of_le (length_skipTerminators_le rest)
  · exact Nat.lt_succ_of_le
      ((length_skipTerminators_le _).trans (length_skipStatement_le rest _ _ _))

/-- The loop of `skipDeclaration` does not go back. -/
theorem length_skipBraces_le {tokens after : List Token} {depth : ℕ}
    (h : skipBraces depth tokens = some after) : after.length ≤ tokens.length := by
  induction tokens generalizing depth with
  | nil =>
    rcases depth with _ | depth
    · rw [skipBraces] at h
      exact (Option.some.inj h) ▸ le_rfl
    · rw [skipBraces] at h
      cases h
  | cons token rest ih =>
    rcases depth with _ | depth
    · rw [skipBraces] at h
      exact (Option.some.inj h) ▸ le_rfl
    · rw [skipBraces] at h
      split_ifs at h
      rcases hbrace : punctuationBrace token with _ | _ | _ <;> rw [hbrace] at h
      · exact Nat.le_succ_of_le (ih h)
      · exact Nat.le_succ_of_le (ih h)
      · exact Nat.le_succ_of_le (ih h)

/-- A declaration has a token. -/
theorem length_skipDeclaration_lt {tokens after : List Token}
    (h : skipDeclaration tokens = some after) : after.length < tokens.length := by
  induction tokens with
  | nil =>
    rw [skipDeclaration] at h
    cases h
  | cons token rest ih =>
    rw [skipDeclaration] at h
    split_ifs at h
    · exact Nat.lt_succ_of_le (length_skipBraces_le h)
    · exact Nat.lt_succ_of_lt (ih h)

/-- The loop of `discoverRecordNames` in a program of `length` tokens. -/
def discoverFrom (length : ℕ) (found : DiscoveredRecords) :
    List Token → Option DiscoveredRecords
  | [] => none
  | token :: rest =>
    if _hend : token.kind = .endOfFile then some found
    else if token.is "record" ∧ rest = [] then none
    else
      let found := found.declare token (rest.headD token)
      if token.is "record" ∨ token.is "function" then
        match _hskip : skipDeclaration (token :: rest) with
        | none => none
        | some after =>
          discoverFrom length
            { found with declarationEnds := found.declarationEnds ++ [length - after.length] }
            (Token.skipTerminators after)
      else
        discoverFrom length { found with topLevelStatements := true }
          (Token.skipTerminators (skipTopLevelStatement (token :: rest)))
termination_by tokens => tokens.length
decreasing_by
  · exact (length_skipTerminators_le after).trans_lt (length_skipDeclaration_lt _hskip)
  · exact (length_skipTerminators_le _).trans_lt (length_skipTopLevelStatement_lt _hend rest)

/-- `discoverRecordNames`; `none` is a failure of the compiler. -/
def discoverRecordNames (tokens : List Token) : Option DiscoveredRecords :=
  discoverFrom tokens.length {} (Token.skipTerminators tokens)

/-- A record is a symbol of kind 2. -/
theorem DiscoveredRecords.kinds_declare {found : DiscoveredRecords}
    (h : found.kinds = found.names.map fun _ => 2) (keyword name : Token) :
    (found.declare keyword name).kinds = (found.declare keyword name).names.map fun _ => 2 := by
  unfold declare
  split_ifs
  · rw [List.map_append, h]
    rfl
  · exact h

/-- All symbols that are found are records. -/
theorem kinds_of_discoverFrom {length : ℕ} {found found' : DiscoveredRecords} {tokens : List Token}
    (hkinds : found.kinds = found.names.map fun _ => 2)
    (h : discoverFrom length found tokens = some found') :
    found'.kinds = found'.names.map fun _ => 2 := by
  fun_induction discoverFrom length found tokens with
  | case1 => cases h
  | case2 => exact Option.some.inj h ▸ hkinds
  | case3 => cases h
  | case4 => cases h
  | case5 found token rest _ _ _ _ after _ ih => exact ih (found.kinds_declare hkinds _ _) h
  | case6 found token rest _ _ _ _ ih => exact ih (found.kinds_declare hkinds _ _) h

/-- A declaration. -/
theorem discoverFrom_declaration {length : ℕ} {found : DiscoveredRecords} {token : Token}
    {rest after : List Token} (hkeyword : token.is "record" = true ∨ token.is "function" = true)
    (hend : token.kind ≠ .endOfFile) (hrest : rest ≠ [])
    (hskip : skipDeclaration (token :: rest) = some after) :
    ∃ ends, discoverFrom length found (token :: rest) =
      discoverFrom length { found.declare token (rest.headD token) with declarationEnds := ends }
        (Token.skipTerminators after) := by
  rw [discoverFrom, dif_neg hend, if_neg fun h => hrest h.2, if_pos hkeyword]
  split
  · next h =>
    rw [hskip] at h
    cases h
  · next h =>
    rw [hskip] at h
    cases h
    exact ⟨_, rfl⟩

end Minyar

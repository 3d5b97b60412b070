import Minyar.Types.TypeCodes
import Minyar.Library.Machine
import Minyar.Compiler.Emitter

/-!
# Reading declarations

`discoverDeclarations` reads the fields of the records and the heads of the functions.  It jumps over
the body of a function to the end that `discoverRecordNames` found for it, and over a statement like
`discoverRecordNames` itself; a record ends for it with the field list.  `compileFunctions` reads the
heads once more.

The first token behind `record` and `function` and the names in front of the colons may be any
tokens.  Nothing looks at their kinds, so a brace can be a name.
-/

namespace Minyar

/-! ## The readers -/

/-- What reads a type, whatever it knows about names. -/
structure TypeReader where
  /-- The code and the tokens behind the type. -/
  read : List Token → Except Text (ℕ × List Token)
  /-- What was read is a type. -/
  isType : ∀ {tokens type rest}, read tokens = .ok (type, rest) →
    ∃ tree, readType tokens = some (tree, rest)

/-- A type has a token. -/
theorem length_readType_lt {tokens rest : List Token} {tree : SourceType}
    (h : readType tokens = some (tree, rest)) : rest.length < tokens.length := by
  fun_induction readType tokens generalizing tree rest with
  | case1 => cases h
  | case2 => cases h
  | case3 name hname opening tokens hopen element closing after helement hclose ih =>
    cases h
    have hlength := ih helement
    simp only [List.length_cons] at hlength ⊢
    omega
  | case4 => cases h
  | case5 => cases h
  | case6 => cases h
  | case7 => cases h; exact Nat.lt_succ_self _

/-- A reader takes a token. -/
theorem TypeReader.length_lt (reader : TypeReader) {tokens rest : List Token} {type : ℕ}
    (h : reader.read tokens = .ok (type, rest)) : rest.length < tokens.length := by
  obtain ⟨tree, htree⟩ := reader.isType h
  exact length_readType_lt htree

/-- Where two readers succeed they stop at the same token. -/
theorem TypeReader.rest_eq {reader reader' : TypeReader} {tokens rest rest' : List Token}
    {type type' : ℕ} (h : reader.read tokens = .ok (type, rest))
    (h' : reader'.read tokens = .ok (type', rest')) : rest = rest' := by
  obtain ⟨tree, htree⟩ := reader.isType h
  obtain ⟨tree', htree'⟩ := reader'.isType h'
  rw [htree] at htree'
  exact (Prod.mk.inj (Option.some.inj htree')).2

/-- `takeType` reads a type. -/
theorem exists_readType {names : List Text} {kinds : List ℕ} {tokens rest : List Token} {type : ℕ}
    (h : takeType names kinds tokens = .ok (type, rest)) :
    ∃ tree, readType tokens = some (tree, rest) := by
  obtain ⟨tree, htree, -⟩ := takeType_spec h
  exact ⟨tree, htree⟩

/-- `takeType` succeeds where `takeValueType` does. -/
theorem takeType_of_takeValueType {names : List Text} {kinds : List ℕ} {tokens : List Token}
    {type : ℕ} {rest : List Token} (h : takeValueType names kinds tokens = .ok (type, rest)) :
    takeType names kinds tokens = .ok (type, rest) := by
  obtain ⟨⟨type', rest'⟩, htype, hvalue⟩ := bind_eq_ok.mp h
  obtain ⟨value, hrequire, hresult⟩ := bind_eq_ok.mp hvalue
  unfold requireValueType at hrequire
  split_ifs at hrequire
  cases hrequire
  cases hresult
  exact htype

/-- `takeType` as a reader. -/
def typeReader (names : List Text) (kinds : List ℕ) : TypeReader where
  read := takeType names kinds
  isType := exists_readType

/-- `takeValueType` as a reader. -/
def valueTypeReader (names : List Text) (kinds : List ℕ) : TypeReader where
  read := takeValueType names kinds
  isType h := exists_readType (takeType_of_takeValueType h)

/-- A comma is skipped. -/
def skipComma : List Token → List Token
  | [] => []
  | token :: rest => if token.is "," then rest else token :: rest

/-- Skipping a comma does not go back. -/
theorem length_skipComma_le (tokens : List Token) : (skipComma tokens).length ≤ tokens.length := by
  cases tokens with
  | nil => exact le_rfl
  | cons token rest =>
    rw [skipComma]
    split_ifs
    · exact Nat.le_succ _
    · exact le_rfl

/-- What was expected was a token. -/
theorem expectToken_eq_ok {expected : String} {tokens rest : List Token}
    (h : Token.expectToken expected tokens = .ok rest) :
    ∃ token, tokens = token :: rest ∧ token.is expected = true := by
  cases tokens with
  | nil => cases h
  | cons token rest' =>
    rw [Token.expectToken] at h
    split_ifs at h with his
    cases h
    exact ⟨token, rfl, his⟩

/-- A name, a colon and a type. -/
def readTyped (reader : TypeReader) : List Token → Except Text ((Token × ℕ) × List Token)
  | [] => .error []
  | name :: rest => do
    let rest ← Token.expectToken ":" rest
    let (type, rest) ← reader.read rest
    return ((name, type), rest)

/-- What `readTyped` reads. -/
theorem readTyped_eq_ok {reader : TypeReader} {tokens rest : List Token} {name : Token} {type : ℕ}
    (h : readTyped reader tokens = .ok ((name, type), rest)) :
    ∃ colon types, tokens = name :: colon :: types ∧ colon.is ":" = true ∧
      reader.read types = .ok (type, rest) := by
  cases tokens with
  | nil => cases h
  | cons name' tokens =>
    obtain ⟨types, hcolon, h⟩ := bind_eq_ok.mp h
    obtain ⟨⟨type', rest'⟩, hread, h⟩ := bind_eq_ok.mp h
    cases h
    obtain ⟨colon, rfl, his⟩ := expectToken_eq_ok hcolon
    exact ⟨colon, types, rfl, his, hread⟩

/-- A name with its type has a token. -/
theorem length_readTyped_lt {reader : TypeReader} {tokens rest : List Token} {typed : Token × ℕ}
    (h : readTyped reader tokens = .ok (typed, rest)) : rest.length < tokens.length := by
  obtain ⟨colon, types, rfl, -, hread⟩ := readTyped_eq_ok h
  have hlength := reader.length_lt hread
  simp only [List.length_cons]
  omega

/-! ## Functions -/

/-- The loop over the parameters, behind some that were read. -/
def readParameters (reader : TypeReader) (parameters : List (String × ℕ)) :
    List Token → Except Text (List (String × ℕ) × List Token)
  | [] => .error []
  | token :: rest =>
    if token.is ")" then .ok (parameters, token :: rest)
    else
      match _hread : readTyped reader (token :: rest) with
      | .error message => .error message
      | .ok ((name, type), after) =>
        readParameters reader (parameters ++ [(name.text, type)]) (skipComma after)
termination_by tokens => tokens.length
decreasing_by exact (length_skipComma_le after).trans_lt (length_readTyped_lt _hread)

/-- The type that a function returns. -/
def readReturnType (reader : TypeReader) (functionName : String) :
    List Token → Except Text (ℕ × List Token)
  | [] => .error []
  | token :: rest =>
    if token.is ":" then reader.read rest
    else .ok (if functionName = "main" then 1 else 5, token :: rest)

/-- The head of a function behind its keyword, up to the body. -/
def readSignature (parameterType returnType : TypeReader) :
    List Token → Except Text (FunctionHeader × List Token)
  | [] => .error []
  | name :: rest => do
    let rest ← Token.expectToken "(" rest
    let (parameters, rest) ← readParameters parameterType [] rest
    let rest ← Token.expectToken ")" rest
    let (type, rest) ← readReturnType returnType name.text rest
    return (⟨name.text, parameters, type⟩, rest)

/-- The checks of `discoverDeclarations` on `main`. -/
def requireMain (h : FunctionHeader) : Except Text Unit :=
  if h.name = "main" then
    if h.parameters ≠ [] then
      .error "main expects no parameters; use argument() to read program arguments".toList
    else if h.returnType ≠ 1 then .error "main must return Integer".toList
    else .ok ()
  else .ok ()

/-! ## Records -/

/-- The message for a field that is declared twice. -/
def duplicateField (record : Text) (field : Token) : Text :=
  describeLocation field.location.toList ++ ": record '".toList ++ record ++ "' declares '".toList ++
    field.text.toList ++ "' twice".toList

/-- The loop over the fields, behind some that were read; the closing brace is passed. -/
def readFields (reader : TypeReader) (record : Text) (fields : List (String × ℕ)) :
    List Token → Except Text (List (String × ℕ) × List Token)
  | [] => .error []
  | token :: rest =>
    if token.is "\x7d" then .ok (fields, rest)
    else if token.text ∈ fields.map Prod.fst then .error (duplicateField record token)
    else
      match _hread : readTyped reader (token :: rest) with
      | .error message => .error message
      | .ok ((name, type), after) =>
        readFields reader record (fields ++ [(name.text, type)])
          (Token.skipTerminators (skipComma after))
termination_by tokens => tokens.length
decreasing_by
  exact ((length_skipTerminators_le _).trans (length_skipComma_le after)).trans_lt
    (length_readTyped_lt _hread)

/-! ## The symbols -/

/-- The symbols that `discoverDeclarations` fills. -/
structure DeclaredSymbols where
  /-- `symbolNames`. -/
  names : List Text
  /-- `symbolKinds`. -/
  kinds : List ℕ
  /-- `symbolLocations`. -/
  locations : List Text
  /-- `symbolReturnTypes`. -/
  returnTypes : List ℕ
  /-- `symbolParameterCounts`. -/
  parameterCounts : List ℕ
  /-- `symbolParameterNames`. -/
  parameterNames : List Text := []
  /-- `symbolParameterTypes`. -/
  parameterTypes : List ℕ := []
  /-- `parameterStarts`. -/
  parameterStarts : List ℕ
  deriving DecidableEq

namespace DeclaredSymbols

/-- The symbols with the names and types of the fields or parameters of a declaration. -/
def addParameters (s : DeclaredSymbols) (parameters : List (String × ℕ)) : DeclaredSymbols :=
  { s with
    parameterNames := s.parameterNames ++ parameters.map fun parameter => parameter.1.toList
    parameterTypes := s.parameterTypes ++ parameters.map Prod.snd }

/-- The symbols with the fields of a record. -/
def declareRecord (s : DeclaredSymbols) (record : ℕ) (fields : List (String × ℕ)) :
    DeclaredSymbols :=
  { s.addParameters fields with
    parameterCounts := s.parameterCounts.set record fields.length
    parameterStarts := s.parameterStarts.set record s.parameterNames.length }

/-- The symbols with a function. -/
def declareFunction (s : DeclaredSymbols) (h : FunctionHeader) (location : Text) :
    DeclaredSymbols :=
  { s.addParameters h.parameters with
    names := s.names ++ [h.name.toList]
    kinds := s.kinds ++ [1]
    locations := s.locations ++ [location]
    returnTypes := s.returnTypes ++ [h.returnType]
    parameterCounts := s.parameterCounts ++ [h.parameters.length]
    parameterStarts := s.parameterStarts ++ [s.parameterNames.length] }

/-- A record behind its keyword. -/
def readRecord (s : DeclaredSymbols) (lookup : List ℕ) :
    List Token → Except Text (DeclaredSymbols × List Token)
  | [] => .error []
  | name :: rest => do
    let record := findIndexedSymbol lookup s.names s.kinds name.text.toList 2
    let rest ← Token.expectToken "\x7b" rest
    -- without a symbol the start of the fields would be written before the list
    if record < 0 then .error []
    else
      let (fields, rest) ← readFields (valueTypeReader s.names s.kinds) name.text.toList []
        (Token.skipTerminators rest)
      return (s.declareRecord record.toNat fields, rest)

/-- A function behind its keyword; the tokens behind its head are not needed. -/
def readFunction (s : DeclaredSymbols) : List Token → Except Text DeclaredSymbols
  | [] => .error []
  | name :: rest => do
    -- the function is a symbol before its types are read
    let names := s.names ++ [name.text.toList]
    let kinds := s.kinds ++ [1]
    let (h, rest) ← readSignature (valueTypeReader names kinds) (typeReader names kinds)
      (name :: rest)
    requireMain h
    let _ ← Token.expectToken "\x7b" rest
    return s.declareFunction h name.location.toList

end DeclaredSymbols

/-! ## The loop -/

/-- The fields of a record end behind a brace. -/
theorem length_readFields_lt {reader : TypeReader} {record : Text} {fields fields' : List (String × ℕ)}
    {tokens rest : List Token} (h : readFields reader record fields tokens = .ok (fields', rest)) :
    rest.length < tokens.length := by
  fun_induction readFields reader record fields tokens with
  | case1 => cases h
  | case2 => cases h; exact Nat.lt_succ_self _
  | case3 => cases h
  | case4 => cases h
  | case5 fields token tokens _ _ name type after hread ih =>
    have hskip := (length_skipTerminators_le (skipComma after)).trans (length_skipComma_le after)
    exact (ih h).trans (hskip.trans_lt (length_readTyped_lt hread))

namespace DeclaredSymbols

/-- What `readRecord` reads. -/
theorem readRecord_eq_ok {s s' : DeclaredSymbols} {lookup : List ℕ} {tokens rest : List Token}
    (h : s.readRecord lookup tokens = .ok (s', rest)) :
    ∃ name opening body fields, tokens = name :: opening :: body ∧ opening.is "\x7b" = true ∧
      0 ≤ findIndexedSymbol lookup s.names s.kinds name.text.toList 2 ∧
      readFields (valueTypeReader s.names s.kinds) name.text.toList []
        (Token.skipTerminators body) = .ok (fields, rest) ∧
      s' = s.declareRecord
        (findIndexedSymbol lookup s.names s.kinds name.text.toList 2).toNat fields := by
  cases tokens with
  | nil => cases h
  | cons name tokens =>
    obtain ⟨body, hopening, hbody⟩ := bind_eq_ok.mp h
    obtain ⟨opening, rfl, his⟩ := expectToken_eq_ok hopening
    split_ifs at hbody with hrecord
    obtain ⟨⟨fields, rest'⟩, hfields, hresult⟩ := bind_eq_ok.mp hbody
    cases hresult
    exact ⟨name, opening, body, fields, rfl, his, Int.not_lt.mp hrecord, hfields, rfl⟩

/-- A record has a token. -/
theorem length_readRecord_lt {s s' : DeclaredSymbols} {lookup : List ℕ} {tokens rest : List Token}
    (h : s.readRecord lookup tokens = .ok (s', rest)) : rest.length < tokens.length := by
  obtain ⟨name, opening, body, fields, rfl, -, -, hfields, -⟩ := readRecord_eq_ok h
  have hlength := (length_readFields_lt hfields).trans_le (length_skipTerminators_le body)
  simp only [List.length_cons]
  omega

/-- The loop of `discoverDeclarations` behind some declarations of the program `all`. -/
def declareFrom (all : List Token) (ends lookup : List ℕ) (declaration : ℕ) (s : DeclaredSymbols) :
    List Token → Except Text DeclaredSymbols
  | [] => .error []
  | token :: rest =>
    if _hend : token.kind = .endOfFile then .ok s
    else if token.is "record" then
      match _hrecord : s.readRecord lookup rest with
      | .error message => .error message
      | .ok (s, after) =>
        declareFrom all ends lookup (declaration + 1) s (Token.skipTerminators after)
    else if token.is "function" then
      match s.readFunction rest with
      | .error message => .error message
      | .ok s =>
        match _hposition : ends[declaration]? with
        | none => .error []
        | some position =>
          declareFrom all ends lookup (declaration + 1) s
            (Token.skipTerminators (all.drop position))
    else
      declareFrom all ends lookup declaration s
        (Token.skipTerminators (skipTopLevelStatement (token :: rest)))
termination_by tokens => (ends.length - declaration, tokens.length)
decreasing_by
  · refine Prod.Lex.right' _ (by omega) ?_
    exact Nat.lt_succ_of_lt
      ((length_skipTerminators_le after).trans_lt (length_readRecord_lt _hrecord))
  · have hlt := (List.getElem?_eq_some_iff.mp _hposition).1
    exact Prod.Lex.left _ _ (by omega)
  · refine Prod.Lex.right _ ?_
    exact (length_skipTerminators_le _).trans_lt (length_skipTopLevelStatement_lt _hend rest)

end DeclaredSymbols

/-- The symbols before `discoverDeclarations`. -/
def DiscoveredRecords.symbols (found : DiscoveredRecords) : DeclaredSymbols where
  names := found.names
  kinds := found.kinds
  locations := found.locations
  returnTypes := found.returnTypes
  parameterCounts := found.parameterCounts
  parameterStarts := found.names.map fun _ => 0

/-- `discoverDeclarations`. -/
def discoverDeclarations (tokens : List Token) (found : DiscoveredRecords) :
    Except Text DeclaredSymbols :=
  found.symbols.declareFrom tokens found.declarationEnds
    (buildSymbolLookup found.names found.kinds) 0 (Token.skipTerminators tokens)

end Minyar

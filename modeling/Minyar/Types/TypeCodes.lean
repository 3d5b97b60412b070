import Mathlib.Data.List.Nodup
import Mathlib.Tactic.IntervalCases
import Minyar.Types.TakeType
import Minyar.Library.Decimal

/-!
# Codes of types

`readType` is the grammar of types without a symbol table; its trees name records by their names.
`AssignedCode` says which codes the compiler gives to which types, where they are written and where
record and List literals have them.  The codes of two types of a program are different, and the
predicates on codes tell records and Lists apart, exactly when there are at most 99000 records.
Nothing in the compiler counts them.
-/

namespace Minyar

/-- A type as it is written. -/
inductive SourceType where
  | nothing
  | integer
  | text
  | character
  | boolean
  | record (name : String)
  | list (element : SourceType)
  deriving DecidableEq, Repr

namespace SourceType

/-- The type of a single name. -/
def ofName (name : String) : SourceType :=
  if name = "Integer" then integer
  else if name = "Text" then text
  else if name = "Character" then character
  else if name = "Boolean" then boolean
  else if name = "Nothing" then nothing
  else record name

/-- The code of a type in a symbol table. -/
def code (names : List Text) (kinds : List ℕ) : SourceType → ℕ
  | integer => 1
  | text => 2
  | character => 3
  | boolean => 4
  | nothing => 5
  | record name => 1000 + (findSymbol names kinds name.toList 2).toNat
  | list element => 100000 + element.code names kinds

/-- The record of the type, if there is one, is found among the first 99000 symbols. -/
def Small (names : List Text) (kinds : List ℕ) : SourceType → Prop
  | record name =>
    0 ≤ findSymbol names kinds name.toList 2 ∧ findSymbol names kinds name.toList 2 < 99000
  | list element => element.Small names kinds
  | _ => True

end SourceType

/-- The grammar of types. -/
def readType : List Token → Option (SourceType × List Token)
  | [] => none
  | name :: rest =>
    if name.text = "List" then
      match rest with
      | [] => none
      | opening :: rest =>
        if opening.is "<" then
          match readType rest with
          | some (element, closing :: rest) =>
            if closing.is ">" then some (.list element, rest) else none
          | _ => none
        else none
    else some (.ofName name.text, rest)

/-- `parseRecord`: the code of a record literal with a name, if there is a record of that name.  The
name is looked up as that of a record even if it is the name of a built-in type. -/
def recordLiteralCode (names : List Text) (kinds returnTypes : List ℕ) (name : String) : Option ℕ :=
  let record := findCompiledSymbol names kinds returnTypes name.toList 2
  if record < 0 then none else some (1000 + record.toNat)

/-- The codes that the compiler assigns to types. -/
inductive AssignedCode (names : List Text) (kinds returnTypes : List ℕ) : SourceType → ℕ → Prop
  /-- The code of a type that is written. -/
  | written {tokens : List Token} {code : ℕ} {rest : List Token} {type : SourceType}
      (h : takeType names kinds tokens = .ok (code, rest))
      (hread : readType tokens = some (type, rest)) : AssignedCode names kinds returnTypes type code
  /-- The code of a record literal. -/
  | recordLiteral {name : String} {code : ℕ}
      (h : recordLiteralCode names kinds returnTypes name = some code) :
      AssignedCode names kinds returnTypes (.record name) code
  /-- The code of a List literal with values: `parseListLiteral` stores neither Nothing nor an empty
  List without a type. -/
  | listLiteral {type : SourceType} {code : ℕ} (h : AssignedCode names kinds returnTypes type code)
      (hnothing : code ≠ 5) (hempty : code ≠ 100000) :
      AssignedCode names kinds returnTypes (.list type) (100000 + code)

/-- What the type checks of the compiler take for granted about the codes of a program. -/
structure TypeCodesUnambiguous (names : List Text) (kinds returnTypes : List ℕ) : Prop where
  /-- What has a code is a type. -/
  read : ∀ {tokens code rest}, takeType names kinds tokens = .ok (code, rest) →
    ∃ type, readType tokens = some (type, rest)
  /-- Types with the same code are the same. -/
  type_eq : ∀ {type type' code}, AssignedCode names kinds returnTypes type code →
    AssignedCode names kinds returnTypes type' code → type = type'
  /-- `isRecordType` holds for the codes of records. -/
  isRecordType_iff : ∀ {type code}, AssignedCode names kinds returnTypes type code →
    (isRecordType code = true ↔ ∃ name, type = .record name)
  /-- `isListType` holds for the codes of Lists. -/
  isListType_iff : ∀ {type code}, AssignedCode names kinds returnTypes type code →
    (isListType code = true ↔ ∃ element, type = .list element)
  /-- `listElementType` gives a code of the element type. -/
  element : ∀ {element code}, AssignedCode names kinds returnTypes (.list element) code →
    AssignedCode names kinds returnTypes element (listElementType code)
  /-- Where a List type is written, that is the code of the element type where it stands. -/
  listElementType_eq : ∀ {name opening tokens code rest element},
    takeType names kinds (name :: opening :: tokens) = .ok (code, rest) →
    readType (name :: opening :: tokens) = some (.list element, rest) →
    ∃ rest', takeValueType names kinds tokens = .ok (listElementType code, rest') ∧
      readType tokens = some (element, rest')

section

variable {names : List Text} {kinds : List ℕ}

/-- A symbol that is found has the name and the kind. -/
theorem findSymbol_spec (name : Text) (kind : ℕ) (h : 0 ≤ findSymbol names kinds name kind) :
    ∃ index < names.length, findSymbol names kinds name kind = index ∧
      names[index]? = some name ∧ kinds.getD index 0 = kind := by
  rcases findSymbolFrom_cases names kinds name kind names.length 0 with
    ⟨found, -, hlt, hkey, heq⟩ | ⟨-, heq⟩
  · rw [Nat.zero_add] at hlt
    obtain ⟨hkind, hname⟩ := symbolKey_eq_iff.mp hkey
    refine ⟨found, hlt, heq, ?_, hkind⟩
    rw [List.getD_eq_getElem?_getD, List.getElem?_eq_getElem hlt, Option.getD_some] at hname
    rw [List.getElem?_eq_getElem hlt, hname]
  · unfold findSymbol at h
    omega

/-- A simple type has the code of its name. -/
theorem code_ofName_of_ne {name : String} (h : simpleTypeCode name ≠ 0) :
    (SourceType.ofName name).code names kinds = simpleTypeCode name ∧
      (SourceType.ofName name).Small names kinds := by
  unfold SourceType.ofName simpleTypeCode at *
  split_ifs at h ⊢ <;> first | exact ⟨rfl, trivial⟩ | exact absurd rfl h

/-- Other names are records. -/
theorem ofName_of_eq {name : String} (h : simpleTypeCode name = 0) :
    SourceType.ofName name = .record name := by
  unfold SourceType.ofName
  unfold simpleTypeCode at h
  split_ifs at h ⊢
  rfl

/-- The type of a name. -/
theorem readType_name {name : Token} (h : name.text ≠ "List") (rest : List Token) :
    readType (name :: rest) = some (.ofName name.text, rest) := by
  cases rest <;> exact if_neg h

/-- A List type that was read: its element type is a value type between angle brackets. -/
theorem takeType_list {name opening : Token} {tokens rest : List Token} {code : ℕ}
    (hname : name.text = "List")
    (h : takeType names kinds (name :: opening :: tokens) = .ok (code, rest)) :
    ∃ type closing, opening.is "<" = true ∧ closing.is ">" = true ∧ type ≠ 5 ∧
      takeType names kinds tokens = .ok (type, closing :: rest) ∧ code = 100000 + type := by
  rw [takeType, if_pos hname] at h
  split_ifs at h with hopen
  rcases htype : takeType names kinds tokens with _ | ⟨type, rest₁⟩ <;> rw [htype] at h
  · cases h
  by_cases hnothing : type = 5
  · simp only [bind, Except.bind, requireValueType, if_pos hnothing] at h
    cases h
  · rcases rest₁ with _ | ⟨closing, rest₁⟩
    · simp only [bind, Except.bind, requireValueType, if_neg hnothing, Token.expectToken] at h
      cases h
    · simp only [bind, Except.bind, requireValueType, if_neg hnothing, Token.expectToken] at h
      by_cases hclose : closing.is ">" = true
      · rw [if_pos hclose] at h
        cases h
        exact ⟨type, closing, hopen, hclose, hnothing, rfl, rfl⟩
      · rw [if_neg hclose] at h
        cases h

/-- What `takeType` reads is a type with the code, and its record is found. -/
theorem takeType_spec {tokens : List Token} {code : ℕ} {rest : List Token}
    (h : takeType names kinds tokens = .ok (code, rest)) :
    ∃ type, readType tokens = some (type, rest) ∧ code = type.code names kinds ∧
      ((∀ name : String, findSymbol names kinds name.toList 2 < 99000) →
        type.Small names kinds) := by
  fun_induction takeType names kinds tokens generalizing code rest with
  | case1 => cases h
  | case2 => cases h
  | case3 name hname opening tokens hopen ih =>
    have hlist : takeType names kinds (name :: opening :: tokens) = .ok (code, rest) := by
      rw [takeType, if_pos hname, if_pos hopen]
      exact h
    obtain ⟨type, closing, -, hclose, -, htype, rfl⟩ := takeType_list hname hlist
    obtain ⟨element, hread, rfl, hsmall⟩ := ih htype
    refine ⟨.list element, ?_, rfl, hsmall⟩
    rw [readType, if_pos hname, if_pos hopen, hread]
    exact if_pos hclose
  | case4 => cases h
  | case5 => cases h
  | case6 name rest' hname hsimple record =>
    rename_i hfound
    cases h
    refine ⟨.record name.text, ?_, rfl, fun hall => ⟨Int.not_lt.mp hfound, hall _⟩⟩
    rw [readType_name hname, ofName_of_eq hsimple]
  | case7 name rest' hname hsimple =>
    cases h
    obtain ⟨hcode, hsmall⟩ := @code_ofName_of_ne names kinds _ hsimple
    exact ⟨.ofName name.text, readType_name hname rest', hcode.symm, fun _ => hsmall⟩

namespace SourceType

/-- Codes below the List offset. -/
theorem code_lt_iff {type : SourceType} (h : type.Small names kinds) :
    type.code names kinds < 100000 ↔ ∀ element, type ≠ .list element := by
  cases type with
  | record name =>
    obtain ⟨hfound, hlt⟩ := h
    simp only [code, ne_eq, reduceCtorEq, not_false_eq_true, implies_true, iff_true]
    omega
  | list element => simp [code]
  | _ => simp [code]

/-- The codes of records. -/
theorem isRecordType_code_iff {type : SourceType} (h : type.Small names kinds) :
    isRecordType (type.code names kinds) = true ↔ ∃ name, type = .record name := by
  unfold isRecordType
  rw [Bool.and_eq_true, decide_eq_true_iff, decide_eq_true_iff]
  cases type with
  | record name =>
    obtain ⟨hfound, hlt⟩ := h
    simp only [code, record.injEq, exists_eq', iff_true]
    omega
  | list element => simp [code]
  | _ => simp [code]

/-- Among small types every code has one type. -/
theorem code_injective {type type' : SourceType} (h : type.Small names kinds)
    (h' : type'.Small names kinds) (heq : type.code names kinds = type'.code names kinds) :
    type = type' := by
  induction type generalizing type' with
  | list element ih =>
    have hnot : ¬ type'.code names kinds < 100000 := by
      rw [← heq, code]
      omega
    rw [code_lt_iff h'] at hnot
    push Not at hnot
    obtain ⟨element', rfl⟩ := hnot
    have hcode : 100000 + element.code names kinds = 100000 + element'.code names kinds := heq
    rw [@ih element' h h' (Nat.add_left_cancel hcode)]
  | record name =>
    have hrecord := (isRecordType_code_iff h).mpr ⟨name, rfl⟩
    rw [heq, isRecordType_code_iff h'] at hrecord
    obtain ⟨name', rfl⟩ := hrecord
    obtain ⟨index, -, hindex, hname, -⟩ := findSymbol_spec _ _ h.1
    obtain ⟨index', -, hindex', hname', -⟩ := findSymbol_spec _ _ h'.1
    simp only [code, hindex, hindex'] at heq
    obtain rfl : index = index' := by omega
    rw [hname] at hname'
    rw [String.toList_inj.mp (Option.some.inj hname')]
  | _ =>
    cases type' with
    | record name =>
      simp only [code] at heq
      omega
    | list element =>
      simp only [code] at heq
      omega
    | _ => first | rfl | exact absurd heq (by simp [code])

end SourceType

/-- A value type is a type other than Nothing. -/
theorem takeValueType_of {tokens rest : List Token} {type : ℕ}
    (h : takeType names kinds tokens = .ok (type, rest)) (hnothing : type ≠ 5) :
    takeValueType names kinds tokens = .ok (type, rest) := by
  rw [takeValueType, h]
  simp only [bind, Except.bind, requireValueType, if_neg hnothing, pure, Except.pure]

/-- A List type that is written begins with `List`, and its element type follows. -/
theorem takeType_element {name opening : Token} {tokens rest : List Token} {code : ℕ}
    {element : SourceType} (h : takeType names kinds (name :: opening :: tokens) = .ok (code, rest))
    (hread : readType (name :: opening :: tokens) = some (.list element, rest)) :
    ∃ closing, takeType names kinds tokens = .ok (listElementType code, closing :: rest) ∧
      listElementType code ≠ 5 ∧ readType tokens = some (element, closing :: rest) := by
  have hname : name.text = "List" := by
    by_contra hname
    rw [readType_name hname] at hread
    unfold SourceType.ofName at hread
    split_ifs at hread <;> cases hread
  obtain ⟨type, closing, hopen, hclose, hnothing, htype, rfl⟩ := takeType_list hname h
  obtain ⟨element', hread', -⟩ := takeType_spec htype
  rw [readType, if_pos hname, if_pos hopen, hread'] at hread
  simp only [if_pos hclose] at hread
  cases hread
  have helement : listElementType (100000 + type) = type := Nat.add_sub_cancel_left 100000 type
  rw [helement]
  exact ⟨closing, htype, hnothing, hread'⟩

/-- The code of a record literal is that of the record that is found. -/
theorem recordLiteralCode_eq_some {returnTypes : List ℕ} {name : String} {code : ℕ}
    (hfind : findCompiledSymbol names kinds returnTypes name.toList 2 =
      findSymbol names kinds name.toList 2)
    (h : recordLiteralCode names kinds returnTypes name = some code) :
    0 ≤ findSymbol names kinds name.toList 2 ∧ code = (SourceType.record name).code names kinds := by
  rw [recordLiteralCode, hfind] at h
  split_ifs at h with hnone
  cases h
  exact ⟨Int.not_lt.mp hnone, rfl⟩

/-- Assigned codes are the codes of their types, and the records of the types are found. -/
theorem AssignedCode.spec {returnTypes : List ℕ} {type : SourceType} {code : ℕ}
    (hfind : ∀ name : String, findCompiledSymbol names kinds returnTypes name.toList 2 =
      findSymbol names kinds name.toList 2)
    (hsmall : ∀ name : String, findSymbol names kinds name.toList 2 < 99000)
    (h : AssignedCode names kinds returnTypes type code) :
    code = type.code names kinds ∧ type.Small names kinds := by
  induction h with
  | written h hread =>
    obtain ⟨type, htype, hcode, htypes⟩ := takeType_spec h
    rw [hread] at htype
    cases htype
    exact ⟨hcode, htypes hsmall⟩
  | recordLiteral h =>
    obtain ⟨hfound, hcode⟩ := recordLiteralCode_eq_some (hfind _) h
    exact ⟨hcode, hfound, hsmall _⟩
  | listLiteral h hnothing hempty ih => exact ⟨congrArg (100000 + ·) ih.1, ih.2⟩

/-- The code of a List without the offset is a code of its element type. -/
theorem AssignedCode.element {returnTypes : List ℕ} {element : SourceType} {code : ℕ}
    (h : AssignedCode names kinds returnTypes (.list element) code) :
    AssignedCode names kinds returnTypes element (listElementType code) := by
  generalize htype : SourceType.list element = type at h
  induction h with
  | @written tokens _ rest _ h hread =>
    subst htype
    rcases tokens with _ | ⟨name, _ | ⟨opening, tokens⟩⟩
    · cases hread
    · rw [readType] at hread
      split_ifs at hread
      unfold SourceType.ofName at hread
      split_ifs at hread <;> cases hread
    · obtain ⟨closing, htype, -, hread'⟩ := takeType_element h hread
      exact .written htype hread'
  | recordLiteral h => cases htype
  | @listLiteral _ code h hnothing hempty ih =>
    cases htype
    have helement : listElementType (100000 + code) = code :=
      Nat.add_sub_cancel_left 100000 code
    rw [helement]
    exact h

/-- Records with small codes are enough. -/
theorem typeCodesUnambiguous_of_small {returnTypes : List ℕ}
    (hfind : ∀ name : String, findCompiledSymbol names kinds returnTypes name.toList 2 =
      findSymbol names kinds name.toList 2)
    (hsmall : ∀ name : String, findSymbol names kinds name.toList 2 < 99000) :
    TypeCodesUnambiguous names kinds returnTypes where
  read h := by
    obtain ⟨type, hread, -⟩ := takeType_spec h
    exact ⟨type, hread⟩
  type_eq h h' := by
    obtain ⟨hcode, htype⟩ := h.spec hfind hsmall
    obtain ⟨hcode', htype'⟩ := h'.spec hfind hsmall
    exact SourceType.code_injective htype htype' (hcode.symm.trans hcode')
  isRecordType_iff h := by
    obtain ⟨rfl, htype⟩ := h.spec hfind hsmall
    exact SourceType.isRecordType_code_iff htype
  isListType_iff h := by
    obtain ⟨rfl, htype⟩ := h.spec hfind hsmall
    rw [isListType, decide_eq_true_iff, ← Nat.not_lt, SourceType.code_lt_iff htype]
    push Not
    rfl
  element h := h.element
  listElementType_eq h hread := by
    obtain ⟨closing, htype, hnothing, hread'⟩ := takeType_element h hread
    exact ⟨closing :: _, takeValueType_of htype hnothing, hread'⟩

/-- A literal of a record with a large code has no record code. -/
theorem not_typeCodesUnambiguous {returnTypes : List ℕ} {name : String}
    (hlarge : 99000 ≤ findCompiledSymbol names kinds returnTypes name.toList 2) :
    ¬ TypeCodesUnambiguous names kinds returnTypes := by
  intro h
  have hliteral : recordLiteralCode names kinds returnTypes name =
      some (1000 + (findCompiledSymbol names kinds returnTypes name.toList 2).toNat) :=
    if_neg (by omega)
  have hrecord := (h.isRecordType_iff (.recordLiteral hliteral)).mpr ⟨name, rfl⟩
  rw [isRecordType, Bool.and_eq_true, decide_eq_true_iff, decide_eq_true_iff] at hrecord
  omega

end

/-! ## Programs -/

/-- Functions are no records. -/
theorem getD_functions_ne (functions : List Text) (i : ℕ) :
    (functions.map fun _ => 1).getD i 0 ≠ 2 := by
  rw [List.getD_eq_getElem?_getD, List.getElem?_map]
  rcases functions[i]? with _ | f
  · decide
  · exact fun h : 1 = 2 => absurd h (by decide)

/-- The kinds of the symbols of a program: its records, and its functions behind them. -/
def programKinds (records functions : List Text) : List ℕ :=
  records.map (fun _ => 2) ++ functions.map fun _ => 1

/-- A symbol of a program with the kind of a record is one of the records. -/
theorem lt_of_getD_programKinds {records functions : List Text} {index : ℕ}
    (h : (programKinds records functions).getD index 0 = 2) : index < records.length := by
  by_contra hge
  rw [programKinds, List.getD_append_right _ _ _ _ (by rw [List.length_map]; omega)] at h
  exact getD_functions_ne _ _ h

/-- In the symbols of a program a record is found by its name at its position. -/
theorem findSymbol_record {records functions : List Text} {index : ℕ} {name : Text}
    (hunique : UniqueSymbols (records ++ functions) (programKinds records functions))
    (hindex : records[index]? = some name) :
    findSymbol (records ++ functions) (programKinds records functions) name 2 = index := by
  obtain ⟨hlt, hget⟩ := List.getElem?_eq_some_iff.mp hindex
  have hlength : index < (records ++ functions).length := by
    rw [List.length_append]
    omega
  have hkey : symbolKey (records ++ functions) (programKinds records functions) index =
      wantedKey name 2 := by
    refine symbolKey_eq_iff.mpr ⟨?_, ?_⟩
    · rw [programKinds, List.getD_append _ _ _ _ (by rwa [List.length_map]),
        List.getD_eq_getElem?_getD, List.getElem?_map, hindex]
      rfl
    · rw [List.getD_append _ _ _ _ hlt, List.getD_eq_getElem?_getD, hindex]
      rfl
  rcases findSymbolFrom_cases (records ++ functions) (programKinds records functions) name 2
    (records ++ functions).length 0 with ⟨found, -, hfound, hkey', heq⟩ | ⟨hnone, -⟩
  · rw [Nat.zero_add] at hfound
    unfold findSymbol
    rw [heq, hunique found index hfound hlength (hkey'.trans hkey.symm)]
  · exact absurd hkey (hnone index (Nat.zero_le _) (by rwa [Nat.zero_add]))

/-- For every program whose records are found, and whatever functions are found behind them, if the
symbols pass the check for duplicates: the codes are unambiguous exactly if there are at most 99000
records. -/
theorem typeCodesUnambiguous_iff {tokens : List Token} {found : DiscoveredRecords}
    (hfound : discoverRecordNames tokens = some found) {functions names locations : List Text}
    {kinds returnTypes : List ℕ} (hnames : names = found.names ++ functions)
    (hkinds : kinds = found.kinds ++ functions.map fun _ => 1)
    (hunique : requireUniqueSymbols (buildSymbolLookup names kinds) names kinds locations = .ok ())
    (hreturns : returnTypes.length = names.length) :
    TypeCodesUnambiguous names kinds (returnTypes ++ buildSymbolLookup names kinds) ↔
      found.names.length ≤ 99000 := by
  have hprogram : kinds = programKinds found.names functions :=
    hkinds.trans (congrArg (· ++ functions.map fun _ => 1) (kinds_of_discoverFrom rfl hfound))
  rw [requireUniqueSymbols_buildSymbolLookup] at hunique
  have hfind := fun name : Text => findCompiledSymbol_eq hunique hreturns name 2
  constructor
  · intro h
    by_contra hmany
    have hlast : found.names[99000]? = some found.names[99000] := List.getElem?_eq_getElem (by omega)
    refine @not_typeCodesUnambiguous _ _ _ (String.ofList found.names[99000]) ?_ h
    rw [hfind, String.toList_ofList, hprogram, hnames,
      findSymbol_record (hnames ▸ hprogram ▸ hunique) hlast]
    rfl
  · intro hfew
    refine typeCodesUnambiguous_of_small (fun name => hfind name.toList) fun name => ?_
    by_contra hlarge
    obtain ⟨index, -, hindex, -, hkind⟩ := @findSymbol_spec names kinds name.toList 2 (by omega)
    have := lt_of_getD_programKinds (hprogram ▸ hkind)
    omega

/-- The name of a record in a program of many records. -/
def recordName (i : ℕ) : String := String.ofList ('R' :: Nat.toDigits 10 i)

/-- The tokens of a record without fields on a line. -/
def recordTokens (i : ℕ) : List Token :=
  [⟨.name, "record", ""⟩, ⟨.name, recordName i, ""⟩, ⟨.punctuation, "\x7b", ""⟩,
    ⟨.punctuation, "\x7d", ""⟩, ⟨.terminator, "", ""⟩]

/-- The program that declares the records `R0`, `R1` and so on. -/
def recordProgram (records : List ℕ) : List Token :=
  records.flatMap recordTokens ++ [⟨.endOfFile, "", ""⟩]

/-- A program of records does not start with a terminator. -/
theorem skipTerminators_recordProgram (records : List ℕ) :
    Token.skipTerminators (recordProgram records) = recordProgram records := by
  cases records <;> rfl

/-- The records of the program are found in their order. -/
theorem discoverFrom_recordProgram (length : ℕ) (records : List ℕ) (found : DiscoveredRecords) :
    ∃ found', discoverFrom length found (recordProgram records) = some found' ∧
      found'.names = found.names ++ records.map fun i => (recordName i).toList := by
  induction records generalizing found with
  | nil =>
    refine ⟨found, ?_, (List.append_nil _).symm⟩
    rw [recordProgram, List.flatMap_nil, List.nil_append, discoverFrom, dif_pos rfl]
  | cons i records ih =>
    have hskip : skipDeclaration (recordProgram (i :: records)) =
        some (⟨.terminator, "", ""⟩ :: recordProgram records) := by
      rw [recordProgram, List.flatMap_cons, List.append_assoc]
      rfl
    obtain ⟨ends, hstep⟩ := @discoverFrom_declaration length found _ _ _ (.inl (by decide))
      (by decide) (List.cons_ne_nil _ _) hskip
    obtain ⟨found', hfound', hnames⟩ :=
      ih { found.declare ⟨.name, "record", ""⟩ ⟨.name, recordName i, ""⟩ with
        declarationEnds := ends }
    refine ⟨found', ?_, ?_⟩
    · refine hstep.trans (Eq.trans ?_ hfound')
      rw [Token.skipTerminators, List.dropWhile_cons_of_pos (by decide)]
      exact congrArg _ (skipTerminators_recordProgram records)
    · rw [hnames, List.map_cons, List.append_cons]
      rfl

/-- The names of the records are different. -/
theorem recordName_injective : Function.Injective recordName := fun _ _ h =>
  toDigits_injective (List.cons.inj (String.ofList_injective h)).2

/-- A program of different records is accepted. -/
theorem discoverRecordNames_recordProgram {records : List ℕ} (hnodup : records.Nodup) :
    ∃ found, discoverRecordNames (recordProgram records) = some found ∧
      found.names = records.map (fun i => (recordName i).toList) ∧
      requireUniqueSymbols (buildSymbolLookup found.names found.kinds) found.names found.kinds
        found.locations = .ok () := by
  obtain ⟨found, hfound, hnames⟩ :=
    discoverFrom_recordProgram (recordProgram records).length records {}
  have hdiscover : discoverRecordNames (recordProgram records) = some found := by
    rw [discoverRecordNames, skipTerminators_recordProgram, hfound]
  have hdistinct : found.names.Nodup := by
    rw [hnames]
    exact hnodup.map fun i j h => recordName_injective (String.toList_inj.mp h)
  refine ⟨found, hdiscover, hnames, ?_⟩
  rw [requireUniqueSymbols_buildSymbolLookup]
  intro i j hi hj hkey
  have hname := (symbolKey_eq_symbolKey_iff.mp hkey).2
  rw [List.getD_eq_getElem?_getD, List.getD_eq_getElem?_getD, List.getElem?_eq_getElem hi,
    List.getElem?_eq_getElem hj] at hname
  exact (List.Nodup.getElem_inj_iff hdistinct).mp hname

/-- The program with the records `R0` to `R99000` is accepted, and its codes are ambiguous: the last
record has the code 100000, which is none of a record. -/
theorem not_typeCodesUnambiguous_range : ∃ found,
    discoverRecordNames (recordProgram (List.range 99001)) = some found ∧
      requireUniqueSymbols (buildSymbolLookup found.names found.kinds) found.names found.kinds
        found.locations = .ok () ∧
      ∀ returnTypes : List ℕ, returnTypes.length = found.names.length →
        ¬ TypeCodesUnambiguous found.names found.kinds
          (returnTypes ++ buildSymbolLookup found.names found.kinds) := by
  obtain ⟨found, hfound, hnames, hunique⟩ := discoverRecordNames_recordProgram List.nodup_range
  refine ⟨found, hfound, hunique, fun returnTypes hreturns => ?_⟩
  have hprogram : found.kinds = programKinds found.names [] :=
    (kinds_of_discoverFrom rfl hfound).trans (List.append_nil _).symm
  rw [requireUniqueSymbols_buildSymbolLookup] at hunique
  have hlast : found.names[99000]? = some (recordName 99000).toList := by
    rw [hnames, List.getElem?_map, List.getElem?_range (by omega), Option.map_some]
  have hsymbol := @findSymbol_record found.names [] 99000 _
    (by rwa [List.append_nil, ← hprogram]) hlast
  rw [List.append_nil, ← hprogram] at hsymbol
  refine @not_typeCodesUnambiguous _ _ _ (recordName 99000) ?_
  rw [findCompiledSymbol_eq hunique hreturns, hsymbol]
  rfl

/-- A program with one record and the function `main`. -/
theorem typeCodesUnambiguous_iff_one : ∃ found,
    discoverRecordNames (recordProgram [0]) = some found ∧
      TypeCodesUnambiguous (found.names ++ ["main".toList]) (found.kinds ++ [1])
        ([1000, 5] ++ buildSymbolLookup (found.names ++ ["main".toList]) (found.kinds ++ [1])) := by
  obtain ⟨found, hfound, hnames, -⟩ :=
    discoverRecordNames_recordProgram (List.nodup_singleton 0)
  have hkinds : found.kinds = [2] := by
    rw [kinds_of_discoverFrom rfl hfound, hnames]
    rfl
  refine ⟨found, hfound, (@typeCodesUnambiguous_iff _ _ hfound ["main".toList] _ [] _ [1000, 5]
    rfl rfl ?_ ?_).mpr ?_⟩
  · rw [requireUniqueSymbols_buildSymbolLookup, hnames, hkinds]
    intro i j hi hj hkey
    have hname := (symbolKey_eq_symbolKey_iff.mp hkey).1
    simp only [List.map_cons, List.map_nil, List.length_append, List.length_singleton,
      Nat.reduceAdd] at hi hj
    interval_cases i <;> interval_cases j <;> simp at hname ⊢
  · rw [hnames]
    rfl
  · rw [hnames]
    decide

end Minyar

import Mathlib.Data.Prod.Lex
import Minyar.Compiler.CompareText
import Minyar.Library.SortSearch
import Minyar.Modules.FieldDecoders

/-!
# The type table of a module graph

The incremental front end keeps the symbols and declarations of a module graph in parallel lists.  The
lists `returns` and `counts` have a second half: behind the types of the symbols stand the entries of
the lookup, behind the numbers of parameters the positions of the first ones.  All numbers are positions,
counts, kinds and types, none of them negative.  A saved state has the lists as a sequence of fields,
row by row.

`readModuleTable_writeModuleTable` is the round trip, `readModuleTable_inRange` says that what is read
from any text has lookups within the table.
-/

namespace Minyar

/-! ## The lookup -/

/-- `compareSymbol`: symbols are ordered by name and kind. -/
def compareSymbol (names : List Text) (kinds : List ℕ) (left right : ℕ) : ℤ :=
  let order := compareText (names.getD left []) (names.getD right [])
  if order = 0 then
    if kinds.getD left 0 < kinds.getD right 0 then -1
    else if kinds.getD right 0 < kinds.getD left 0 then 1
    else order
  else order

/-- Two entries change places. -/
def swapEntries (lookup : List ℕ) (i j : ℕ) : List ℕ :=
  (lookup.set i (lookup.getD j 0)).set j (lookup.getD i 0)

/-- The loop of `siftSymbolLookup`. -/
def siftSymbolLookup (names : List Text) (kinds : List ℕ) (count : ℕ) : ℕ → ℕ → List ℕ → List ℕ
  | 0, _, lookup => lookup
  | fuel + 1, root, lookup =>
    let child := root * 2 + 1
    if count ≤ child then lookup
    else
      let selected := if child + 1 < count ∧
          compareSymbol names kinds (lookup.getD child 0) (lookup.getD (child + 1) 0) < 0 then child + 1
        else child
      if compareSymbol names kinds (lookup.getD root 0) (lookup.getD selected 0) < 0 then
        siftSymbolLookup names kinds count fuel selected (swapEntries lookup root selected)
      else lookup

/-- The loop of `buildSymbolLookup` that builds a heap. -/
def heapLookup (names : List Text) (kinds : List ℕ) : ℕ → List ℕ → List ℕ
  | 0, lookup => lookup
  | start + 1, lookup =>
    heapLookup names kinds start (siftSymbolLookup names kinds lookup.length lookup.length start lookup)

/-- The loop of `buildSymbolLookup` that takes the heap apart; `last` is the last position of it. -/
def sortLookup (names : List Text) (kinds : List ℕ) : ℕ → List ℕ → List ℕ
  | 0, lookup => lookup
  | last + 1, lookup => sortLookup names kinds last
      (siftSymbolLookup names kinds (last + 1) lookup.length 0 (swapEntries lookup 0 (last + 1)))

/-- `buildSymbolLookup`: the positions of the symbols in their order. -/
def buildSymbolLookup (names : List Text) (kinds : List ℕ) : List ℕ :=
  sortLookup names kinds (names.length - 1)
    (heapLookup names kinds (names.length / 2) (List.range names.length))

/-! ## Tables -/

/-- The lists of a type table. -/
structure SymbolTable where
  /-- The names of the symbols. -/
  names : List Text
  /-- Their kinds: functions and records. -/
  kinds : List ℕ
  /-- Their types and the entries of `lookup`. -/
  returns : List ℕ
  /-- The numbers of their parameters and the positions of the first ones. -/
  counts : List ℕ
  /-- The names of all parameters. -/
  parameters : List Text
  /-- The types of all parameters. -/
  types : List ℕ
  /-- The symbols in their order. -/
  lookup : List ℕ
  /-- The modules of the declarations. -/
  declarationOwners : List ℕ
  /-- Their names. -/
  declarationNames : List Text
  /-- Their kinds. -/
  declarationKinds : List ℕ
  /-- Whether they are public. -/
  declarationPublic : List ℕ
  /-- Their names in the whole program. -/
  declarationQualifiedNames : List Text
  /-- The declarations in the order of these. -/
  declarationLookup : List ℕ
  deriving DecidableEq

/-- The fields of a symbol. -/
def SymbolTable.symbolFields (t : SymbolTable) (position : ℕ) : List Text :=
  [t.names.getD position [], integerText (t.kinds.getD position 0),
    integerText (t.returns.getD position 0), integerText (t.counts.getD position 0),
    integerText (t.counts.getD (t.names.length + position) 0),
    integerText (t.lookup.getD position 0)]

/-- The fields of a parameter. -/
def SymbolTable.parameterFields (t : SymbolTable) (position : ℕ) : List Text :=
  [t.parameters.getD position [], integerText (t.types.getD position 0)]

/-- The fields of a declaration. -/
def SymbolTable.declarationFields (t : SymbolTable) (position : ℕ) : List Text :=
  [integerText (t.declarationOwners.getD position 0), t.declarationNames.getD position [],
    integerText (t.declarationKinds.getD position 0),
    integerText (t.declarationPublic.getD position 0),
    t.declarationQualifiedNames.getD position [],
    integerText (t.declarationLookup.getD position 0)]

/-- The fields that `writeModuleTable` appends. -/
def SymbolTable.fields (t : SymbolTable) : List Text :=
  integerText t.names.length :: (List.range t.names.length).flatMap t.symbolFields ++
    (integerText t.parameters.length ::
      (List.range t.parameters.length).flatMap t.parameterFields ++
      (integerText t.declarationOwners.length ::
        (List.range t.declarationOwners.length).flatMap t.declarationFields))

/-- `writeModuleTable`. -/
def writeModuleTable (t : SymbolTable) : Text := encodeModuleFields t.fields

/-! ## Reading a table -/

/-- `takeModuleNatural`: the next field is a number. -/
def takeModuleNatural : List Text → Option (ℕ × List Text)
  | [] => none
  | field :: fields =>
    if moduleNatural field < 0 then none else some ((moduleNatural field).toNat, fields)

/-- `takeModuleField`: the next field. -/
def takeModuleField : List Text → Option (Text × List Text)
  | [] => none
  | field :: fields => some (field, fields)

/-- What is read of a symbol. -/
structure SymbolRow where
  /-- The name. -/
  name : Text
  /-- The kind. -/
  kind : ℕ
  /-- The type. -/
  returnType : ℕ
  /-- The number of parameters. -/
  count : ℕ
  /-- The position of the first one. -/
  offset : ℕ
  /-- The entry of the lookup. -/
  sorted : ℕ

/-- What is read of a parameter. -/
structure ParameterRow where
  /-- The name. -/
  name : Text
  /-- The type. -/
  type : ℕ

/-- What is read of a declaration. -/
structure DeclarationRow where
  /-- The module. -/
  owner : ℕ
  /-- The name. -/
  name : Text
  /-- The kind. -/
  kind : ℕ
  /-- Whether it is public. -/
  isPublic : ℕ
  /-- The name in the whole program. -/
  qualifiedName : Text
  /-- The entry of the lookup. -/
  sorted : ℕ

/-- A symbol of a table of `total` symbols. -/
def readSymbol (total : ℕ) (fields : List Text) : Option (SymbolRow × List Text) := do
  let (name, fields) ← takeModuleField fields
  let (kind, fields) ← takeModuleNatural fields
  let (returnType, fields) ← takeModuleNatural fields
  let (count, fields) ← takeModuleNatural fields
  let (offset, fields) ← takeModuleNatural fields
  let (sorted, fields) ← takeModuleNatural fields
  if total ≤ sorted then none else some (⟨name, kind, returnType, count, offset, sorted⟩, fields)

/-- A parameter. -/
def readParameter (fields : List Text) : Option (ParameterRow × List Text) := do
  let (name, fields) ← takeModuleField fields
  let (type, fields) ← takeModuleNatural fields
  return (⟨name, type⟩, fields)

/-- A declaration of a table of `total` declarations. -/
def readDeclaration (total : ℕ) (fields : List Text) : Option (DeclarationRow × List Text) := do
  let (owner, fields) ← takeModuleNatural fields
  let (name, fields) ← takeModuleField fields
  let (kind, fields) ← takeModuleNatural fields
  let (isPublic, fields) ← takeModuleNatural fields
  let (qualifiedName, fields) ← takeModuleField fields
  let (sorted, fields) ← takeModuleNatural fields
  if total ≤ sorted then none
  else some (⟨owner, name, kind, isPublic, qualifiedName, sorted⟩, fields)

/-- The loops over the rows of a table. -/
def readRows {α : Type} (row : List Text → Option (α × List Text)) :
    ℕ → List Text → Option (List α × List Text)
  | 0, fields => some ([], fields)
  | n + 1, fields => do
    let (first, fields) ← row fields
    let (rows, fields) ← readRows row n fields
    return (first :: rows, fields)

/-- The lists that the rows are appended to. -/
def symbolTable (symbols : List SymbolRow) (parameters : List ParameterRow)
    (declarations : List DeclarationRow) : SymbolTable where
  names := symbols.map SymbolRow.name
  kinds := symbols.map SymbolRow.kind
  returns := symbols.map SymbolRow.returnType ++ symbols.map SymbolRow.sorted
  counts := symbols.map SymbolRow.count ++ symbols.map SymbolRow.offset
  parameters := parameters.map ParameterRow.name
  types := parameters.map ParameterRow.type
  lookup := symbols.map SymbolRow.sorted
  declarationOwners := declarations.map DeclarationRow.owner
  declarationNames := declarations.map DeclarationRow.name
  declarationKinds := declarations.map DeclarationRow.kind
  declarationPublic := declarations.map DeclarationRow.isPublic
  declarationQualifiedNames := declarations.map DeclarationRow.qualifiedName
  declarationLookup := declarations.map DeclarationRow.sorted

/-- `readModuleTable`: the lists that were empty before. -/
def readModuleTable (text : Text) : Option SymbolTable := do
  let all := decodeModuleFields text
  let (total, fields) ← takeModuleNatural all
  if all.length / 6 < total then none
  else
    let (symbols, fields) ← readRows (readSymbol total) total fields
    let (total, fields) ← takeModuleNatural fields
    if all.length / 2 < total then none
    else
      let (parameters, fields) ← readRows readParameter total fields
      let (total, fields) ← takeModuleNatural fields
      if all.length / 6 < total then none
      else
        let (declarations, fields) ← readRows (readDeclaration total) total fields
        if fields ≠ [] then none
        else some (symbolTable symbols parameters declarations)

/-! ## The lookup is a heap sort -/

/-- Symbols are ordered by name and kind. -/
def symbolKey (names : List Text) (kinds : List ℕ) (symbol : ℕ) : List Char ×ₗ ℕ :=
  toLex (names.getD symbol [], kinds.getD symbol 0)

/-- `compareSymbol` compares the keys. -/
theorem compareSymbol_neg_iff (names : List Text) (kinds : List ℕ) (left right : ℕ) :
    compareSymbol names kinds left right < 0 ↔
      symbolKey names kinds left < symbolKey names kinds right := by
  unfold compareSymbol symbolKey
  rw [Prod.Lex.toLex_lt_toLex, ← compareText_neg_iff, ← compareText_eq_zero_iff]
  generalize compareText (names.getD left []) (names.getD right []) = order
  simp only
  split_ifs with horder hlt hgt <;> omega

/-- Sifting by `compareSymbol`. -/
theorem siftSymbolLookup_eq (names : List Text) (kinds : List ℕ) (count fuel root : ℕ)
    (lookup : List ℕ) :
    siftSymbolLookup names kinds count fuel root lookup =
      SortSearch.sift (symbolKey names kinds) 0 count fuel root lookup := by
  induction fuel generalizing root lookup with
  | zero => rfl
  | succ fuel ih =>
    simp only [siftSymbolLookup, SortSearch.sift, compareSymbol_neg_iff, ih]
    rfl

/-- Building the heap. -/
theorem heapLookup_eq (names : List Text) (kinds : List ℕ) (start : ℕ) (lookup : List ℕ) :
    heapLookup names kinds start lookup =
      SortSearch.heapify (symbolKey names kinds) 0 start lookup := by
  induction start generalizing lookup with
  | zero => rfl
  | succ start ih => rw [heapLookup, SortSearch.heapify, ih, siftSymbolLookup_eq]

/-- Taking the heap apart. -/
theorem sortLookup_eq (names : List Text) (kinds : List ℕ) (last : ℕ) (lookup : List ℕ) :
    sortLookup names kinds last lookup =
      SortSearch.extract (symbolKey names kinds) 0 last lookup := by
  induction last generalizing lookup with
  | zero => rfl
  | succ last ih =>
    rw [sortLookup, SortSearch.extract, ih, siftSymbolLookup_eq]
    rfl

/-- `buildSymbolLookup` sorts the positions. -/
theorem buildSymbolLookup_eq (names : List Text) (kinds : List ℕ) :
    buildSymbolLookup names kinds =
      SortSearch.heapSort (symbolKey names kinds) 0 (List.range names.length) := by
  unfold buildSymbolLookup SortSearch.heapSort
  rw [heapLookup_eq, sortLookup_eq, List.length_range]

/-- The lookup has every position once. -/
theorem buildSymbolLookup_perm (names : List Text) (kinds : List ℕ) :
    (buildSymbolLookup names kinds).Perm (List.range names.length) := by
  rw [buildSymbolLookup_eq]
  exact SortSearch.heapSort_perm _ _ _

/-- Its entries are positions. -/
theorem buildSymbolLookup_lt {names : List Text} {kinds : List ℕ} {position : ℕ}
    (h : position ∈ buildSymbolLookup names kinds) : position < names.length :=
  List.mem_range.mp ((buildSymbolLookup_perm names kinds).mem_iff.mp h)

theorem length_buildSymbolLookup (names : List Text) (kinds : List ℕ) :
    (buildSymbolLookup names kinds).length = names.length := by
  rw [(buildSymbolLookup_perm names kinds).length_eq, List.length_range]

/-! ## Reading rows -/

/-- Rows that are read back one by one are read back. -/
theorem readRows_flatMap {α : Type} {row : List Text → Option (α × List Text)} {fields : α → List Text}
    {rows : List α} (h : ∀ a ∈ rows, ∀ rest, row (fields a ++ rest) = some (a, rest))
    (rest : List Text) :
    readRows row rows.length (rows.flatMap fields ++ rest) = some (rows, rest) := by
  induction rows with
  | nil => rfl
  | cons a rows ih =>
    have hrest := ih fun b hb => h b (List.mem_cons_of_mem _ hb)
    rw [List.length_cons, readRows, List.flatMap_cons, List.append_assoc,
      h a List.mem_cons_self]
    change (readRows row rows.length (rows.flatMap fields ++ rest)).bind _ = _
    rw [hrest]
    rfl

/-- As many rows are read as were asked for, and each is one that the reader gives. -/
theorem readRows_spec {α : Type} {row : List Text → Option (α × List Text)} {P : α → Prop}
    (h : ∀ fields a rest, row fields = some (a, rest) → P a) {n : ℕ} {fields rest : List Text}
    {rows : List α} (hread : readRows row n fields = some (rows, rest)) :
    rows.length = n ∧ ∀ a ∈ rows, P a := by
  induction n generalizing fields rows with
  | zero =>
    cases hread
    exact ⟨rfl, by simp⟩
  | succ n ih =>
    rw [readRows] at hread
    obtain ⟨⟨first, fields'⟩, hfirst, hread⟩ := Option.bind_eq_some_iff.mp hread
    obtain ⟨⟨rows', rest'⟩, hrows, hread⟩ := Option.bind_eq_some_iff.mp hread
    cases hread
    obtain ⟨hlength, hall⟩ := ih hrows
    exact ⟨congrArg (· + 1) hlength, List.forall_mem_cons.mpr ⟨h _ _ _ hfirst, hall⟩⟩

/-- A number that was written is read. -/
theorem takeModuleNatural_integerText {n : ℕ} (h : n < 10 ^ 9) (fields : List Text) :
    takeModuleNatural (integerText n :: fields) = some (n, fields) := by
  rw [takeModuleNatural, moduleNatural_integerText h, if_neg (by omega), Int.toNat_natCast]

/-! ## Rows as fields -/

/-- The fields of a symbol. -/
def SymbolRow.fields (row : SymbolRow) : List Text :=
  [row.name, integerText row.kind, integerText row.returnType, integerText row.count,
    integerText row.offset, integerText row.sorted]

/-- The fields of a parameter. -/
def ParameterRow.fields (row : ParameterRow) : List Text := [row.name, integerText row.type]

/-- The fields of a declaration. -/
def DeclarationRow.fields (row : DeclarationRow) : List Text :=
  [integerText row.owner, row.name, integerText row.kind, integerText row.isPublic,
    row.qualifiedName, integerText row.sorted]

/-- The numbers of a symbol can be read. -/
structure SymbolRow.Small (row : SymbolRow) : Prop where
  /-- The number of characters. -/
  name : row.name.length < 10 ^ 9
  /-- The kind. -/
  kind : row.kind < 10 ^ 9
  /-- The type. -/
  returnType : row.returnType < 10 ^ 9
  /-- The number of parameters. -/
  count : row.count < 10 ^ 9
  /-- The position of the first one. -/
  offset : row.offset < 10 ^ 9
  /-- The entry of the lookup. -/
  sorted : row.sorted < 10 ^ 9

/-- The numbers of a parameter can be read. -/
structure ParameterRow.Small (row : ParameterRow) : Prop where
  /-- The number of characters. -/
  name : row.name.length < 10 ^ 9
  /-- The type. -/
  type : row.type < 10 ^ 9

/-- The numbers of a declaration can be read. -/
structure DeclarationRow.Small (row : DeclarationRow) : Prop where
  /-- The module. -/
  owner : row.owner < 10 ^ 9
  /-- The number of characters. -/
  name : row.name.length < 10 ^ 9
  /-- The kind. -/
  kind : row.kind < 10 ^ 9
  /-- Whether it is public. -/
  isPublic : row.isPublic < 10 ^ 9
  /-- The number of characters. -/
  qualifiedName : row.qualifiedName.length < 10 ^ 9
  /-- The entry of the lookup. -/
  sorted : row.sorted < 10 ^ 9

theorem readSymbol_fields {row : SymbolRow} (h : row.Small) {total : ℕ} (hsorted : row.sorted < total)
    (rest : List Text) : readSymbol total (row.fields ++ rest) = some (row, rest) := by
  simp [readSymbol, SymbolRow.fields, takeModuleField, takeModuleNatural_integerText h.kind,
    takeModuleNatural_integerText h.returnType, takeModuleNatural_integerText h.count,
    takeModuleNatural_integerText h.offset, takeModuleNatural_integerText h.sorted, hsorted]

theorem readParameter_fields {row : ParameterRow} (h : row.Small) (rest : List Text) :
    readParameter (row.fields ++ rest) = some (row, rest) := by
  simp [readParameter, ParameterRow.fields, takeModuleField, takeModuleNatural_integerText h.type]

theorem readDeclaration_fields {row : DeclarationRow} (h : row.Small) {total : ℕ}
    (hsorted : row.sorted < total) (rest : List Text) :
    readDeclaration total (row.fields ++ rest) = some (row, rest) := by
  simp [readDeclaration, DeclarationRow.fields, takeModuleField,
    takeModuleNatural_integerText h.owner, takeModuleNatural_integerText h.kind,
    takeModuleNatural_integerText h.isPublic, takeModuleNatural_integerText h.sorted, hsorted]

/-- Entries by position are the entries. -/
theorem map_range_length {α β : Type} (l : List α) {f : ℕ → β} {g : α → β}
    (h : ∀ i (hi : i < l.length), f i = g l[i]) : (List.range l.length).map f = l.map g := by
  refine List.ext_getElem (by simp) fun i hi hi' => ?_
  rw [List.getElem_map, List.getElem_map, List.getElem_range]
  exact h i _

/-- The fields of a table of rows are those of the rows. -/
theorem fields_symbolTable (symbols : List SymbolRow) (parameters : List ParameterRow)
    (declarations : List DeclarationRow) :
    (symbolTable symbols parameters declarations).fields =
      integerText symbols.length :: (symbols.flatMap SymbolRow.fields ++
        integerText parameters.length :: (parameters.flatMap ParameterRow.fields ++
          integerText declarations.length :: declarations.flatMap DeclarationRow.fields)) := by
  have hsymbols : (List.range symbols.length).map
      (symbolTable symbols parameters declarations).symbolFields = symbols.map SymbolRow.fields := by
    refine map_range_length symbols fun i hi => ?_
    have hfirst : ∀ left right : List ℕ, left.length = symbols.length →
        (left ++ right)[i]? = left[i]? := fun left right h =>
      List.getElem?_append_left (h ▸ hi)
    simp [SymbolTable.symbolFields, symbolTable, SymbolRow.fields, hi, hfirst]
  have hparameters : (List.range parameters.length).map
      (symbolTable symbols parameters declarations).parameterFields =
        parameters.map ParameterRow.fields := by
    refine map_range_length parameters fun i hi => ?_
    simp [SymbolTable.parameterFields, symbolTable, ParameterRow.fields, hi]
  have hdeclarations : (List.range declarations.length).map
      (symbolTable symbols parameters declarations).declarationFields =
        declarations.map DeclarationRow.fields := by
    refine map_range_length declarations fun i hi => ?_
    simp [SymbolTable.declarationFields, symbolTable, DeclarationRow.fields, hi]
  simp only [SymbolTable.fields, List.flatMap]
  simp only [show (symbolTable symbols parameters declarations).names.length = symbols.length from
    List.length_map _, show (symbolTable symbols parameters declarations).parameters.length =
    parameters.length from List.length_map _,
    show (symbolTable symbols parameters declarations).declarationOwners.length =
    declarations.length from List.length_map _, hsymbols, hparameters, hdeclarations,
    List.cons_append]

/-- The fields of a table with numbers that can be read can be read. -/
theorem length_fields_lt {symbols : List SymbolRow} {parameters : List ParameterRow}
    {declarations : List DeclarationRow} (hsymbols : ∀ row ∈ symbols, row.Small)
    (hparameters : ∀ row ∈ parameters, row.Small) (hdeclarations : ∀ row ∈ declarations, row.Small)
    (hs : symbols.length < 10 ^ 9) (hp : parameters.length < 10 ^ 9)
    (hd : declarations.length < 10 ^ 9) {field : Text}
    (h : field ∈ (symbolTable symbols parameters declarations).fields) : field.length < 10 ^ 9 := by
  have hnumber : ∀ n < 10 ^ 9, (integerText n).length < 10 ^ 9 := by
    intro n hn
    have hle := (Nat.length_toDigits_le_iff (b := 10) (k := 9) (by decide) (by decide)).mpr hn
    exact lt_of_le_of_lt hle (by decide)
  rw [fields_symbolTable] at h
  simp only [List.mem_cons, List.mem_append, List.mem_flatMap] at h
  rcases h with rfl | ⟨row, hrow, hfield⟩ | rfl | ⟨row, hrow, hfield⟩ | rfl | ⟨row, hrow, hfield⟩
  · exact hnumber _ hs
  · have hsmall := hsymbols row hrow
    simp only [SymbolRow.fields, List.mem_cons, List.not_mem_nil, or_false] at hfield
    rcases hfield with rfl | rfl | rfl | rfl | rfl | rfl
    exacts [hsmall.name, hnumber _ hsmall.kind, hnumber _ hsmall.returnType,
      hnumber _ hsmall.count, hnumber _ hsmall.offset, hnumber _ hsmall.sorted]
  · exact hnumber _ hp
  · have hsmall := hparameters row hrow
    simp only [ParameterRow.fields, List.mem_cons, List.not_mem_nil, or_false] at hfield
    rcases hfield with rfl | rfl
    exacts [hsmall.name, hnumber _ hsmall.type]
  · exact hnumber _ hd
  · have hsmall := hdeclarations row hrow
    simp only [DeclarationRow.fields, List.mem_cons, List.not_mem_nil, or_false] at hfield
    rcases hfield with rfl | rfl | rfl | rfl | rfl | rfl
    exacts [hnumber _ hsmall.owner, hsmall.name, hnumber _ hsmall.kind, hnumber _ hsmall.isPublic,
      hsmall.qualifiedName, hnumber _ hsmall.sorted]

/-- Rows of a fixed width. -/
theorem length_flatMap_const {α β : Type} {f : α → List β} {n : ℕ} (h : ∀ a, (f a).length = n)
    (l : List α) : (l.flatMap f).length = l.length * n := by
  induction l with
  | nil => simp
  | cons a l ih =>
    rw [List.flatMap_cons, List.length_append, ih, h, List.length_cons]
    ring

/-- A table of rows is read back. -/
theorem readModuleTable_symbolTable {symbols : List SymbolRow} {parameters : List ParameterRow}
    {declarations : List DeclarationRow} (hsymbols : ∀ row ∈ symbols, row.Small)
    (hparameters : ∀ row ∈ parameters, row.Small) (hdeclarations : ∀ row ∈ declarations, row.Small)
    (hs : symbols.length < 10 ^ 9) (hp : parameters.length < 10 ^ 9)
    (hd : declarations.length < 10 ^ 9) (hlookup : ∀ row ∈ symbols, row.sorted < symbols.length)
    (hdeclarationLookup : ∀ row ∈ declarations, row.sorted < declarations.length) :
    readModuleTable (writeModuleTable (symbolTable symbols parameters declarations)) =
      some (symbolTable symbols parameters declarations) := by
  have hdecode : decodeModuleFields (writeModuleTable (symbolTable symbols parameters declarations)) =
      (symbolTable symbols parameters declarations).fields :=
    decodeModuleFields_encodeModuleFields fun _ h =>
      length_fields_lt hsymbols hparameters hdeclarations hs hp hd h
  have hlength : (symbolTable symbols parameters declarations).fields.length =
      6 * symbols.length + 2 * parameters.length + 6 * declarations.length + 3 := by
    have hsymbol : ∀ row : SymbolRow, row.fields.length = 6 := fun _ => rfl
    have hparameter : ∀ row : ParameterRow, row.fields.length = 2 := fun _ => rfl
    have hdeclaration : ∀ row : DeclarationRow, row.fields.length = 6 := fun _ => rfl
    rw [fields_symbolTable]
    simp only [List.length_cons, List.length_append, length_flatMap_const hsymbol,
      length_flatMap_const hparameter, length_flatMap_const hdeclaration]
    ring
  have hsymbolRows := fun rest => @readRows_flatMap _ (readSymbol symbols.length) _ _
    (fun row hrow => readSymbol_fields (hsymbols row hrow) (hlookup row hrow)) rest
  have hparameterRows := fun rest => @readRows_flatMap _ readParameter _ _
    (fun row hrow => readParameter_fields (hparameters row hrow)) rest
  have hdeclarationRows := @readRows_flatMap _ (readDeclaration declarations.length) _ _
    (fun row hrow => readDeclaration_fields (hdeclarations row hrow) (hdeclarationLookup row hrow)) []
  rw [List.append_nil] at hdeclarationRows
  unfold readModuleTable
  simp only [hdecode, hlength]
  rw [fields_symbolTable, takeModuleNatural_integerText hs]
  simp only [Option.bind_eq_bind, Option.bind_some]
  rw [if_neg (by omega), hsymbolRows]
  simp only [Option.bind_some]
  rw [takeModuleNatural_integerText hp]
  simp only [Option.bind_some]
  rw [if_neg (by omega), hparameterRows]
  simp only [Option.bind_some]
  rw [takeModuleNatural_integerText hd]
  simp only [Option.bind_some]
  rw [if_neg (by omega), hdeclarationRows]
  rfl

/-! ## Tables of the front end -/

/-- The lists that the incremental front end discovers, in step with one another. -/
structure SymbolColumns where
  /-- The names of the symbols. -/
  names : List Text
  /-- Their kinds. -/
  kinds : List ℕ
  /-- Their types. -/
  returns : List ℕ
  /-- The numbers of their parameters. -/
  counts : List ℕ
  /-- The positions of the first ones. -/
  parameterStarts : List ℕ
  /-- The names of all parameters. -/
  parameters : List Text
  /-- The types of all parameters. -/
  types : List ℕ
  /-- The modules of the declarations. -/
  declarationOwners : List ℕ
  /-- Their names. -/
  declarationNames : List Text
  /-- Their kinds. -/
  declarationKinds : List ℕ
  /-- Whether they are public. -/
  declarationPublic : List ℕ
  /-- Their names in the whole program. -/
  declarationQualifiedNames : List Text
  /-- A symbol has an entry in every list of symbols. -/
  length_symbols : kinds.length = names.length ∧ returns.length = names.length ∧
    counts.length = names.length ∧ parameterStarts.length = names.length
  /-- A parameter has a type. -/
  length_types : types.length = parameters.length
  /-- A declaration has an entry in every list of declarations. -/
  length_declarations : declarationNames.length = declarationOwners.length ∧
    declarationKinds.length = declarationOwners.length ∧
    declarationPublic.length = declarationOwners.length ∧
    declarationQualifiedNames.length = declarationOwners.length

/-- The table that `compileModuleEntry` makes of them: it appends the parameter positions to the counts
and the lookup to the types. -/
def SymbolColumns.table (c : SymbolColumns) : SymbolTable where
  names := c.names
  kinds := c.kinds
  returns := c.returns ++ buildSymbolLookup c.names c.kinds
  counts := c.counts ++ c.parameterStarts
  parameters := c.parameters
  types := c.types
  lookup := buildSymbolLookup c.names c.kinds
  declarationOwners := c.declarationOwners
  declarationNames := c.declarationNames
  declarationKinds := c.declarationKinds
  declarationPublic := c.declarationPublic
  declarationQualifiedNames := c.declarationQualifiedNames
  declarationLookup := buildSymbolLookup c.declarationQualifiedNames c.declarationKinds

/-- The numbers and lengths of a table are below `10 ^ 9`. -/
structure SymbolColumns.Small (c : SymbolColumns) : Prop where
  /-- The numbers of rows. -/
  lengths : c.names.length < 10 ^ 9 ∧ c.parameters.length < 10 ^ 9 ∧
    c.declarationOwners.length < 10 ^ 9
  /-- The numbers in the lists. -/
  numbers : ∀ n ∈ c.kinds ++ c.returns ++ c.counts ++ c.parameterStarts ++ c.types ++
    c.declarationOwners ++ c.declarationKinds ++ c.declarationPublic, n < 10 ^ 9
  /-- The lengths of the names. -/
  texts : ∀ name ∈ c.names ++ c.parameters ++ c.declarationNames ++ c.declarationQualifiedNames,
    name.length < 10 ^ 9

/-- A list by its positions. -/
theorem map_range_getD {α : Type} (l : List α) (d : α) {n : ℕ} (h : l.length = n) :
    (List.range n).map (fun i => l.getD i d) = l := by
  subst h
  have hmap := map_range_length l (f := fun i => l.getD i d) (g := id)
    fun i hi => List.getD_eq_getElem _ _ hi
  rwa [List.map_id] at hmap

theorem getD_lt {l : List ℕ} {n : ℕ} (hn : 0 < n) (h : ∀ k ∈ l, k < n) (i : ℕ) :
    l.getD i 0 < n := by
  by_cases hi : i < l.length
  · rw [List.getD_eq_getElem _ _ hi]
    exact h _ (List.getElem_mem hi)
  · rw [List.getD_eq_default _ _ (by omega)]
    exact hn

theorem length_getD_lt {l : List Text} {n : ℕ} (hn : 0 < n) (h : ∀ t ∈ l, t.length < n) (i : ℕ) :
    (l.getD i []).length < n := by
  by_cases hi : i < l.length
  · rw [List.getD_eq_getElem _ _ hi]
    exact h _ (List.getElem_mem hi)
  · rw [List.getD_eq_default _ _ (by omega)]
    exact hn

namespace SymbolColumns

variable (c : SymbolColumns)

/-- The symbol at a position. -/
def symbolRow (i : ℕ) : SymbolRow where
  name := c.names.getD i []
  kind := c.kinds.getD i 0
  returnType := c.returns.getD i 0
  count := c.counts.getD i 0
  offset := c.parameterStarts.getD i 0
  sorted := (buildSymbolLookup c.names c.kinds).getD i 0

/-- The parameter at a position. -/
def parameterRow (i : ℕ) : ParameterRow where
  name := c.parameters.getD i []
  type := c.types.getD i 0

/-- The declaration at a position. -/
def declarationRow (i : ℕ) : DeclarationRow where
  owner := c.declarationOwners.getD i 0
  name := c.declarationNames.getD i []
  kind := c.declarationKinds.getD i 0
  isPublic := c.declarationPublic.getD i 0
  qualifiedName := c.declarationQualifiedNames.getD i []
  sorted := (buildSymbolLookup c.declarationQualifiedNames c.declarationKinds).getD i 0

/-- The table consists of the rows at all positions. -/
theorem table_eq : c.table = symbolTable ((List.range c.names.length).map c.symbolRow)
    ((List.range c.parameters.length).map c.parameterRow)
    ((List.range c.declarationOwners.length).map c.declarationRow) := by
  obtain ⟨hkinds, hreturns, hcounts, hstarts⟩ := c.length_symbols
  obtain ⟨hnames, hdkinds, hpublic, hqualified⟩ := c.length_declarations
  have hlookup := length_buildSymbolLookup c.names c.kinds
  have hdlookup : (buildSymbolLookup c.declarationQualifiedNames c.declarationKinds).length =
      c.declarationOwners.length := by
    rw [length_buildSymbolLookup, hqualified]
  unfold symbolTable table
  simp only [List.map_map, Function.comp_def, symbolRow, parameterRow, declarationRow,
    map_range_getD c.names [] rfl, map_range_getD c.kinds 0 hkinds,
    map_range_getD c.returns 0 hreturns, map_range_getD c.counts 0 hcounts,
    map_range_getD c.parameterStarts 0 hstarts, map_range_getD _ 0 hlookup,
    map_range_getD c.parameters [] rfl, map_range_getD c.types 0 c.length_types,
    map_range_getD c.declarationOwners 0 rfl, map_range_getD c.declarationNames [] hnames,
    map_range_getD c.declarationKinds 0 hdkinds, map_range_getD c.declarationPublic 0 hpublic,
    map_range_getD c.declarationQualifiedNames [] hqualified, map_range_getD _ 0 hdlookup]

variable {c}

theorem Small.symbolRow (h : c.Small) (i : ℕ) (hi : i < c.names.length) : (c.symbolRow i).Small := by
  obtain ⟨hnames, -, -⟩ := h.lengths
  have hnumber : ∀ l : List ℕ, (∀ n ∈ l, n ∈ c.kinds ∨ n ∈ c.returns ∨ n ∈ c.counts ∨
      n ∈ c.parameterStarts) → l.getD i 0 < 10 ^ 9 := fun l hl =>
    getD_lt (by decide) (fun n hn => h.numbers n (by
      simp only [List.mem_append]
      have := hl n hn
      tauto)) i
  refine ⟨?_, hnumber _ (by tauto), hnumber _ (by tauto), hnumber _ (by tauto), hnumber _ (by tauto),
    ?_⟩
  · exact length_getD_lt (by decide) (fun t ht => h.texts t (by
      simp only [List.mem_append]
      tauto)) i
  · exact (getD_lt (by omega) (fun k hk => buildSymbolLookup_lt hk) i).trans hnames

theorem Small.parameterRow (h : c.Small) (i : ℕ) : (c.parameterRow i).Small := by
  refine ⟨length_getD_lt (by decide) (fun t ht => h.texts t ?_) i,
    getD_lt (by decide) (fun n hn => h.numbers n ?_) i⟩
  · simp only [List.mem_append]
    tauto
  · simp only [List.mem_append]
    tauto

theorem Small.declarationRow (h : c.Small) (i : ℕ) (hi : i < c.declarationOwners.length) :
    (c.declarationRow i).Small := by
  obtain ⟨-, -, howners⟩ := h.lengths
  have hqualified := c.length_declarations.2.2.2
  have hnumber : ∀ l : List ℕ, (∀ n ∈ l, n ∈ c.declarationOwners ∨ n ∈ c.declarationKinds ∨
      n ∈ c.declarationPublic) → l.getD i 0 < 10 ^ 9 := fun l hl =>
    getD_lt (by decide) (fun n hn => h.numbers n (by
      simp only [List.mem_append]
      have := hl n hn
      tauto)) i
  have htext : ∀ l : List Text, (∀ t ∈ l, t ∈ c.declarationNames ∨
      t ∈ c.declarationQualifiedNames) → (l.getD i []).length < 10 ^ 9 := fun l hl =>
    length_getD_lt (by decide) (fun t ht => h.texts t (by
      simp only [List.mem_append]
      have := hl t ht
      tauto)) i
  refine ⟨hnumber _ (by tauto), htext _ (by tauto), hnumber _ (by tauto), hnumber _ (by tauto),
    htext _ (by tauto), ?_⟩
  refine (getD_lt (by omega) (fun k hk => ?_) i).trans howners
  exact (buildSymbolLookup_lt hk).trans_eq hqualified

/-- A table of the front end is read back. -/
theorem Small.readModuleTable (h : c.Small) :
    readModuleTable (writeModuleTable c.table) = some c.table := by
  obtain ⟨hs, hp, hd⟩ := h.lengths
  have hqualified := c.length_declarations.2.2.2
  rw [c.table_eq]
  apply readModuleTable_symbolTable
  · simp only [List.forall_mem_map, List.mem_range]
    exact h.symbolRow
  · simp only [List.forall_mem_map, List.mem_range]
    exact fun i _ => h.parameterRow i
  · simp only [List.forall_mem_map, List.mem_range]
    exact h.declarationRow
  · simpa using hs
  · simpa using hp
  · simpa using hd
  · simp only [List.forall_mem_map, List.mem_range, List.length_map, List.length_range]
    exact fun i hi => getD_lt (by omega) (fun k hk => buildSymbolLookup_lt hk) i
  · simp only [List.forall_mem_map, List.mem_range, List.length_map, List.length_range]
    refine fun i hi => getD_lt (by omega) (fun k hk => ?_) i
    exact (buildSymbolLookup_lt hk).trans_eq hqualified

end SymbolColumns

/-! ## Any text -/

/-- The lookups of a table stay within it. -/
structure SymbolTable.InRange (t : SymbolTable) : Prop where
  /-- The lookup of the symbols. -/
  lookup : ∀ position ∈ t.lookup, position < t.names.length
  /-- It is the second half of the types. -/
  returns : ∃ types, t.returns = types ++ t.lookup ∧ types.length = t.names.length ∧
    t.lookup.length = t.names.length
  /-- The lookup of the declarations. -/
  declarationLookup : ∀ position ∈ t.declarationLookup, position < t.declarationOwners.length
  /-- It has an entry for every one. -/
  length_declarationLookup : t.declarationLookup.length = t.declarationOwners.length

theorem readSymbol_sorted {total : ℕ} {fields rest : List Text} {row : SymbolRow}
    (h : readSymbol total fields = some (row, rest)) : row.sorted < total := by
  unfold readSymbol at h
  simp only [Option.bind_eq_bind, Option.bind_eq_some_iff] at h
  obtain ⟨_, -, _, -, _, -, _, -, _, -, _, -, h⟩ := h
  split_ifs at h with hsorted
  cases h
  exact not_le.mp hsorted

theorem readDeclaration_sorted {total : ℕ} {fields rest : List Text} {row : DeclarationRow}
    (h : readDeclaration total fields = some (row, rest)) : row.sorted < total := by
  unfold readDeclaration at h
  simp only [Option.bind_eq_bind, Option.bind_eq_some_iff] at h
  obtain ⟨_, -, _, -, _, -, _, -, _, -, _, -, h⟩ := h
  split_ifs at h with hsorted
  cases h
  exact not_le.mp hsorted

/-- What is read of any text has lookups in range. -/
theorem readModuleTable_inRange {text : Text} {t : SymbolTable} (h : readModuleTable text = some t) :
    t.InRange := by
  unfold readModuleTable at h
  simp only [Option.bind_eq_bind] at h
  obtain ⟨⟨total, fields⟩, -, h⟩ := Option.bind_eq_some_iff.mp h
  simp only at h
  split_ifs at h
  obtain ⟨⟨symbols, fields⟩, hsymbols, h⟩ := Option.bind_eq_some_iff.mp h
  obtain ⟨⟨parameterTotal, fields⟩, -, h⟩ := Option.bind_eq_some_iff.mp h
  simp only at h
  split_ifs at h
  obtain ⟨⟨parameters, fields⟩, -, h⟩ := Option.bind_eq_some_iff.mp h
  obtain ⟨⟨declarationTotal, fields⟩, -, h⟩ := Option.bind_eq_some_iff.mp h
  simp only at h
  split_ifs at h
  obtain ⟨⟨declarations, fields⟩, hdeclarations, h⟩ := Option.bind_eq_some_iff.mp h
  simp only at h
  split_ifs at h
  cases h
  obtain ⟨rfl, hsorted⟩ := readRows_spec (fun _ _ _ => readSymbol_sorted) hsymbols
  obtain ⟨rfl, hdeclarationSorted⟩ :=
    readRows_spec (fun _ _ _ => readDeclaration_sorted) hdeclarations
  refine ⟨?_, ⟨symbols.map SymbolRow.returnType, rfl, ?_, ?_⟩, ?_, ?_⟩
  · simpa [symbolTable] using hsorted
  · simp [symbolTable]
  · simp [symbolTable]
  · simpa [symbolTable] using hdeclarationSorted
  · simp [symbolTable]

/-- Every table of the front end with numbers below `10 ^ 9` is restored from its text, and a text
that is accepted gives lists with lookups in range. -/
theorem readModuleTable_writeModuleTable :
    (∀ c : SymbolColumns, c.Small →
      readModuleTable (writeModuleTable c.table) = some c.table ∧
      c.table.returns = c.returns ++ c.table.lookup ∧
      c.table.lookup.Perm (List.range c.names.length) ∧
      c.table.counts = c.counts ++ c.parameterStarts) ∧
    ∀ text, readModuleTable text = none ∨
      ∃ t, readModuleTable text = some t ∧ t.InRange := by
  refine ⟨fun c h => ⟨h.readModuleTable, rfl, buildSymbolLookup_perm _ _, rfl⟩, fun text => ?_⟩
  cases htext : readModuleTable text with
  | none => exact Or.inl rfl
  | some t => exact Or.inr ⟨t, rfl, readModuleTable_inRange htext⟩

/-- The lists of a module with a public record and a function on it. -/
def pairColumns : SymbolColumns where
  names := ["Pair".toList, "left".toList]
  kinds := [2, 1]
  returns := [1000, 1]
  counts := [1, 1]
  parameterStarts := [0, 1]
  parameters := ["left".toList, "p".toList]
  types := [1, 1000]
  declarationOwners := [0, 0]
  declarationNames := ["Pair".toList, "left".toList]
  declarationKinds := [2, 1]
  declarationPublic := [1, 0]
  declarationQualifiedNames := ["Pair".toList, "left".toList]
  length_symbols := by decide
  length_types := rfl
  length_declarations := by decide

/-- Its table is restored. -/
theorem readModuleTable_writeModuleTable_pair :
    readModuleTable (writeModuleTable pairColumns.table) = some pairColumns.table ∧
      pairColumns.table.lookup = [0, 1] := by
  have hsmall : pairColumns.Small := ⟨by decide, by decide, by decide⟩
  exact ⟨(readModuleTable_writeModuleTable.1 pairColumns hsmall).1, by decide⟩

end Minyar

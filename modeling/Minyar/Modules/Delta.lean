import Minyar.Modules.CacheFile

/-!
# Compiler states and their updates

A compiler state is a header (schema, signature of the module graph, type table) and ten columns for
every module.  A build that starts from a saved state, the *base*, writes its next state either in
full or as a *delta*: the header and the rows that the base does not have.  The delta names the base
by the checksum of its file, and the front end lays it over a base with that checksum only.

`overlay_moduleUpdate` says that a delta laid over its base is the state it was made from.
-/

namespace Minyar

/-! ## Flat fields, as the compiler has them -/

/-- The schema of a full state. -/
def interfaceSchema : Text := "minyar-module-interface-v4".toList

/-- The schema of a delta. -/
def deltaSchema : Text := "minyar-module-delta-v2".toList

/-- A field by its position. -/
def fieldAt (fields : List Text) (position : ℕ) : Text := fields.getD position []

/-- The fields of an artifact, without the cache file around them. -/
def unwrapCache (fields : List Text) : List Text :=
  if fields.length = 5 ∧ fieldAt fields 0 = cacheMagic then decodeModuleFields (fieldAt fields 4)
  else fields

/-- The loop of `priorModule`. -/
def priorModuleFrom (prior : List Text) (path role : Text) : ℕ → ℕ → Option ℕ
  | 0, _ => none
  | fuel + 1, position =>
    if position + 9 < prior.length then
      if fieldAt prior position = path ∧ fieldAt prior (position + 1) = role then some position
      else priorModuleFrom prior path role fuel (position + 10)
    else none

/-- `priorModule`: where the row of a module starts. -/
def priorModule (prior : List Text) (path role : Text) : Option ℕ :=
  priorModuleFrom prior path role prior.length 3

/-- The role of the entry module. -/
def entryRole : Text := "entry".toList

/-- The role of every other module. -/
def libraryRole : Text := "library".toList

/-- Ten fields from a position on. -/
def rowAt (fields : List Text) (position : ℕ) : List Text :=
  (List.range 10).map fun column => fieldAt fields (position + column)

/-- The loop of `overlayModuleFields` over the module graph. -/
def overlayGraph (base replacements : List Text) : Text → List Text → Except String (List Text)
  | _, [] => .ok []
  | _, [_] => .error "invalid module delta graph"
  | role, path :: _ :: graph => do
    let row ← match priorModule replacements path role with
      | some saved => .ok (rowAt replacements saved)
      | none => match priorModule base path role with
        | some saved => .ok (rowAt base saved)
        | none => .error "missing module delta row"
    let rows ← overlayGraph base replacements libraryRole graph
    .ok (row ++ rows)

/-- The table of a delta: the one of the base if the delta leaves it out. -/
def deltaTable (base delta : List Text) : Except String Text :=
  if fieldAt delta 3 = [] then
    if fieldAt delta 2 ≠ fieldAt base 1 then .error "invalid module delta table"
    else .ok (fieldAt base 2)
  else .ok (fieldAt delta 3)

/-- `overlayModuleFields`. -/
def overlayModuleFields (base : List Text) (source baseIdentity : Text) :
    Except String (List Text) :=
  let delta := unwrapCache (decodeModuleFields source)
  if delta.length < 4 ∨ fieldAt delta 0 ≠ deltaSchema ∨ fieldAt delta 1 ≠ baseIdentity ∨
      (delta.length - 4) % 10 ≠ 0 then .ok base
  else do
    let table ← deltaTable base delta
    let replacements := [[], [], []] ++ delta.drop 4
    let graph := decodeModuleFields (fieldAt delta 2)
    if graph.length % 2 ≠ 0 then .error "invalid module delta graph"
    else do
      let rows ← overlayGraph base replacements entryRole graph
      .ok (interfaceSchema :: fieldAt delta 2 :: table :: rows)

/-- Whether the row at a position of the next state is missing from the base or differs from it. -/
def rowChanged (next base : List Text) (position : ℕ) : Bool :=
  match priorModule base (fieldAt next position) (fieldAt next (position + 1)) with
  | none => true
  | some saved => (List.range 10).any fun column =>
      fieldAt next (position + column) ≠ fieldAt base (saved + column)

/-- The loop of `writeModuleUpdate`: the number of changed rows and their fields. -/
def changedRows (next base : List Text) : ℕ → ℕ → ℕ × List Text
  | 0, _ => (0, [])
  | fuel + 1, position =>
    if position < next.length then
      let rest := changedRows next base fuel (position + 10)
      if rowChanged next base position then (rest.1 + 1, rowAt next position ++ rest.2) else rest
    else (0, [])

/-- `writeModuleUpdate`: the state file. -/
def moduleUpdate (next base : List Text) (baseIdentity : Text) : Text :=
  if base.length < 3 ∨ baseIdentity = [] then encodeModuleFields next
  else
    let changed := changedRows next base next.length 3
    let table := if fieldAt next 1 = fieldAt base 1 then [] else fieldAt next 2
    if (next.length - 3) / 10 < changed.1 * 2 then encodeModuleFields next
    else encodeModuleFields ([deltaSchema, baseIdentity, fieldAt next 1, table] ++ changed.2)

/-! ## States by rows -/

/-- What is saved for a module. -/
structure ModuleRow where
  /-- The path of the module. -/
  path : Text
  /-- Whether it is the entry or a library. -/
  role : Text
  /-- Its source. -/
  source : Text
  /-- Its interface summary. -/
  summary : Text
  /-- What its code depends on. -/
  context : Text
  /-- Its code. -/
  code : Text
  /-- Whether it has top-level statements. -/
  topLevel : Text
  /-- Its imports. -/
  imports : Text
  /-- The locations of the tokens of the summary. -/
  origins : Text
  /-- The declarations of the functions it uses. -/
  externs : Text
  deriving DecidableEq

/-- The columns of a row. -/
def ModuleRow.fields (row : ModuleRow) : List Text :=
  [row.path, row.role, row.source, row.summary, row.context, row.code, row.topLevel, row.imports,
    row.origins, row.externs]

/-- The fields of several rows. -/
def rowFields (rows : List ModuleRow) : List Text := rows.flatMap ModuleRow.fields

/-- A full state. -/
structure ModuleState where
  /-- The paths and summaries of the module graph. -/
  signature : Text
  /-- The type table. -/
  table : Text
  /-- The rows, the entry first. -/
  rows : List ModuleRow
  deriving DecidableEq

/-- The fields of a state. -/
def ModuleState.fields (state : ModuleState) : List Text :=
  interfaceSchema :: state.signature :: state.table :: rowFields state.rows

/-- The row of a module by its path and role. -/
def findRow (rows : List ModuleRow) (path role : Text) : Option ModuleRow :=
  rows.find? fun row => row.path = path ∧ row.role = role

/-- A list of paths and labels has the paths of the rows, in their order. -/
def GraphOf : List ModuleRow → List Text → Prop
  | [], [] => True
  | row :: rows, path :: _ :: graph => path = row.path ∧ GraphOf rows graph
  | _, _ => False

/-- The first row has a role and all others are libraries. -/
def RolesFrom (role : Text) : List ModuleRow → Prop
  | [] => True
  | row :: rows => row.role = role ∧ RolesFrom libraryRole rows

/-- A state that the front end can have written. -/
structure ModuleState.Valid (state : ModuleState) : Prop where
  /-- The signature lists the paths of the rows. -/
  graph : GraphOf state.rows (decodeModuleFields state.signature)
  /-- The entry is the first row. -/
  roles : RolesFrom entryRole state.rows
  /-- Every module has one row. -/
  paths : (state.rows.map ModuleRow.path).Nodup
  /-- The table has a text: at least the three counts of `writeModuleTable`. -/
  table : state.table ≠ []

/-! ## Rows in flat fields -/

theorem ModuleRow.length_fields (row : ModuleRow) : row.fields.length = 10 := rfl

theorem ModuleRow.fields_injective : Function.Injective ModuleRow.fields := by
  intro a b h
  cases a
  cases b
  simp only [ModuleRow.fields, List.cons.injEq] at h
  simp only [ModuleRow.mk.injEq]
  tauto

theorem length_rowFields (rows : List ModuleRow) : (rowFields rows).length = 10 * rows.length := by
  induction rows with
  | nil => rfl
  | cons row rows ih =>
    rw [rowFields, List.flatMap_cons, List.length_append, ModuleRow.length_fields, ← rowFields, ih,
      List.length_cons]
    omega

theorem rowFields_cons (row : ModuleRow) (rows : List ModuleRow) :
    rowFields (row :: rows) = row.fields ++ rowFields rows := rfl

/-- The fields behind a header. -/
theorem fieldAt_append (before fields : List Text) (column : ℕ) :
    fieldAt (before ++ fields) (before.length + column) = fieldAt fields column := by
  unfold fieldAt
  rw [List.getD_append_right _ _ _ _ (Nat.le_add_right _ _), Nat.add_sub_cancel_left]

/-- The row behind a header. -/
theorem rowAt_append (before : List Text) (row : ModuleRow) (after : List Text) :
    rowAt (before ++ (row.fields ++ after)) before.length = row.fields := by
  unfold rowAt
  simp only [fieldAt_append]
  rfl

/-- The search through flat fields is a search through the rows. -/
theorem priorModuleFrom_rows (before : List Text) (rows : List ModuleRow) (path role : Text)
    {fuel : ℕ} (hfuel : rows.length < fuel) :
    (findRow rows path role = none ∧
      priorModuleFrom (before ++ rowFields rows) path role fuel before.length = none) ∨
    (∃ row saved, findRow rows path role = some row ∧
      priorModuleFrom (before ++ rowFields rows) path role fuel before.length = some saved ∧
      rowAt (before ++ rowFields rows) saved = row.fields) := by
  induction rows generalizing before fuel with
  | nil =>
    refine Or.inl ⟨rfl, ?_⟩
    cases fuel with
    | zero => rfl
    | succ fuel =>
      rw [priorModuleFrom, if_neg]
      simp [rowFields]
  | cons row rows ih =>
    cases fuel with
    | zero => exact absurd hfuel (Nat.not_lt_zero _)
    | succ fuel =>
      rw [priorModuleFrom, rowFields_cons]
      have hlength : before.length + 9 < (before ++ (row.fields ++ rowFields rows)).length := by
        rw [List.length_append, List.length_append, ModuleRow.length_fields]
        omega
      have hpath : fieldAt (before ++ (row.fields ++ rowFields rows)) before.length = row.path := by
        rw [← Nat.add_zero before.length, fieldAt_append]
        rfl
      have hrole : fieldAt (before ++ (row.fields ++ rowFields rows)) (before.length + 1) =
          row.role := by
        rw [fieldAt_append]
        rfl
      rw [if_pos hlength, hpath, hrole]
      by_cases hsame : row.path = path ∧ row.role = role
      · rw [if_pos hsame]
        refine Or.inr ⟨row, _, ?_, rfl, rowAt_append _ _ _⟩
        exact List.find?_cons_of_pos (decide_eq_true hsame)
      · rw [if_neg hsame]
        have hfind : findRow (row :: rows) path role = findRow rows path role :=
          List.find?_cons_of_neg (fun h => hsame (of_decide_eq_true h))
        have hrest := ih (before ++ row.fields) (Nat.lt_of_succ_lt_succ hfuel)
        rw [List.length_append, ModuleRow.length_fields, List.append_assoc] at hrest
        rw [hfind]
        exact hrest

/-- `priorModule` on a state or on the replacements of a delta. -/
theorem priorModule_rows (before : List Text) (hbefore : before.length = 3) (rows : List ModuleRow)
    (path role : Text) :
    (findRow rows path role = none ∧ priorModule (before ++ rowFields rows) path role = none) ∨
    (∃ row saved, findRow rows path role = some row ∧
      priorModule (before ++ rowFields rows) path role = some saved ∧
      rowAt (before ++ rowFields rows) saved = row.fields) := by
  have hfuel : rows.length < (before ++ rowFields rows).length := by
    rw [List.length_append, length_rowFields]
    omega
  have hsearch := priorModuleFrom_rows before rows path role hfuel
  rwa [hbefore] at hsearch

theorem findRow_some {rows : List ModuleRow} {path role : Text} {row : ModuleRow}
    (h : findRow rows path role = some row) :
    row ∈ rows ∧ row.path = path ∧ row.role = role := by
  unfold findRow at h
  have hfound := List.find?_some h
  exact ⟨List.mem_of_find?_eq_some h, of_decide_eq_true hfound⟩

/-- With one row for every path the row of a module is found. -/
theorem findRow_self {rows : List ModuleRow} (h : (rows.map ModuleRow.path).Nodup)
    {row : ModuleRow} (hrow : row ∈ rows) : findRow rows row.path row.role = some row := by
  induction rows with
  | nil => cases hrow
  | cons first rows ih =>
    rw [List.map_cons, List.nodup_cons] at h
    rcases List.mem_cons.mp hrow with rfl | hrow
    · exact List.find?_cons_of_pos (decide_eq_true ⟨rfl, rfl⟩)
    · have hne : first.path ≠ row.path := fun heq =>
        h.1 (heq ▸ List.mem_map.mpr ⟨row, hrow, rfl⟩)
      rw [findRow, List.find?_cons_of_neg (fun hsame => hne (of_decide_eq_true hsame).1)]
      exact ih h.2 hrow

/-! ## Writing an update -/

/-- A row of the next state that the base does not have. -/
def ModuleRow.changedFrom (base : ModuleState) (row : ModuleRow) : Bool :=
  findRow base.rows row.path row.role ≠ some row

theorem rowAt_eq_iff (left right : List Text) (i j : ℕ) :
    rowAt left i = rowAt right j ↔
      ((List.range 10).any fun column => fieldAt left (i + column) ≠ fieldAt right (j + column)) =
        false := by
  unfold rowAt
  rw [List.any_eq_false, List.map_inj_left]
  simp

/-- The fields of a state before its rows. -/
def ModuleState.header (state : ModuleState) : List Text :=
  [interfaceSchema, state.signature, state.table]

theorem ModuleState.fields_eq (state : ModuleState) :
    state.fields = state.header ++ rowFields state.rows := rfl

theorem ModuleState.length_fields (state : ModuleState) :
    state.fields.length = 3 + 10 * state.rows.length := by
  rw [fields_eq, List.length_append, length_rowFields]
  rfl

/-- The comparison of columns is a comparison of rows. -/
theorem rowChanged_rows (base : ModuleState) (before : List Text) (row : ModuleRow)
    (after : List Text) :
    rowChanged (before ++ (row.fields ++ after)) base.fields before.length =
      row.changedFrom base := by
  have hpath : fieldAt (before ++ (row.fields ++ after)) before.length = row.path := by
    rw [← Nat.add_zero before.length, fieldAt_append]
    rfl
  have hrole : fieldAt (before ++ (row.fields ++ after)) (before.length + 1) = row.role := by
    rw [fieldAt_append]
    rfl
  unfold rowChanged ModuleRow.changedFrom
  rw [hpath, hrole, ModuleState.fields_eq]
  rcases priorModule_rows base.header rfl base.rows row.path row.role with
    ⟨hfind, hprior⟩ | ⟨found, saved, hfind, hprior, hrow⟩
  · rw [hfind, hprior]
    rfl
  · have hcompare := rowAt_eq_iff (before ++ (row.fields ++ after))
      (base.header ++ rowFields base.rows) before.length saved
    rw [rowAt_append, hrow, ModuleRow.fields_injective.eq_iff] at hcompare
    rw [hfind, hprior]
    simp only
    rw [Bool.eq_iff_iff, ← not_iff_not, Bool.not_eq_true, ← hcompare, decide_eq_true_iff,
      ne_eq, not_not, Option.some.injEq]
    exact eq_comm

/-- The changed rows are collected in their order. -/
theorem changedRows_rows (base : ModuleState) (before : List Text) (rows : List ModuleRow)
    {fuel : ℕ} (hfuel : rows.length < fuel) :
    changedRows (before ++ rowFields rows) base.fields fuel before.length =
      ((rows.filter (ModuleRow.changedFrom base)).length,
        rowFields (rows.filter (ModuleRow.changedFrom base))) := by
  induction rows generalizing before fuel with
  | nil =>
    cases fuel with
    | zero => rfl
    | succ fuel =>
      rw [changedRows, if_neg]
      · rfl
      · simp [rowFields]
  | cons row rows ih =>
    cases fuel with
    | zero => exact absurd hfuel (Nat.not_lt_zero _)
    | succ fuel =>
      have hlength : before.length < (before ++ (row.fields ++ rowFields rows)).length := by
        rw [List.length_append, List.length_append, ModuleRow.length_fields]
        omega
      have hrest := ih (before ++ row.fields) (Nat.lt_of_succ_lt_succ hfuel)
      rw [List.length_append, ModuleRow.length_fields, List.append_assoc] at hrest
      rw [changedRows, rowFields_cons, if_pos hlength, rowChanged_rows, hrest, rowAt_append,
        List.filter_cons]
      split_ifs <;> rfl

/-- The fields of a delta. -/
def deltaFields (next base : ModuleState) (baseIdentity : Text) : List Text :=
  [deltaSchema, baseIdentity, next.signature,
    if next.signature = base.signature then [] else next.table] ++
    rowFields (next.rows.filter (ModuleRow.changedFrom base))

/-- An update is the whole state or a delta. -/
theorem moduleUpdate_cases (next base : ModuleState) {baseIdentity : Text}
    (hidentity : baseIdentity ≠ []) :
    moduleUpdate next.fields base.fields baseIdentity = encodeModuleFields next.fields ∨
    moduleUpdate next.fields base.fields baseIdentity =
      encodeModuleFields (deltaFields next base baseIdentity) := by
  have hlength := base.length_fields
  have hfuel : next.rows.length < next.fields.length := by
    rw [next.length_fields]
    omega
  have hchanged := changedRows_rows base next.header next.rows hfuel
  rw [← next.fields_eq, show next.header.length = 3 from rfl] at hchanged
  have hbase : ¬ (base.fields.length < 3 ∨ baseIdentity = []) := by
    rintro (hshort | hnil)
    · omega
    · exact hidentity hnil
  unfold moduleUpdate
  rw [if_neg hbase]
  simp only [hchanged]
  by_cases hfull : (next.fields.length - 3) / 10 <
      (next.rows.filter (ModuleRow.changedFrom base)).length * 2
  · exact Or.inl (if_pos hfull)
  · exact Or.inr (if_neg hfull)

/-! ## Laying a delta over its base -/

/-- Every row of the graph comes from the replacements or from the base. -/
theorem overlayGraph_rows {base replacements : List Text} {rows : List ModuleRow}
    (hrows : ∀ row ∈ rows, (∃ saved, priorModule replacements row.path row.role = some saved ∧
        rowAt replacements saved = row.fields) ∨
      (priorModule replacements row.path row.role = none ∧
        ∃ saved, priorModule base row.path row.role = some saved ∧
          rowAt base saved = row.fields))
    {role : Text} (hroles : RolesFrom role rows) {graph : List Text} (hgraph : GraphOf rows graph) :
    overlayGraph base replacements role graph = .ok (rowFields rows) := by
  induction rows generalizing role graph with
  | nil =>
    cases graph with
    | nil => rfl
    | cons path graph => exact hgraph.elim
  | cons row rows ih =>
    rcases graph with _ | ⟨path, _ | ⟨label, graph⟩⟩
    · exact hgraph.elim
    · exact hgraph.elim
    obtain ⟨rfl, hgraph⟩ := hgraph
    obtain ⟨rfl, hroles⟩ := hroles
    have hrest := ih (fun row hrow => hrows row (List.mem_cons_of_mem _ hrow)) hroles hgraph
    rw [overlayGraph]
    rcases hrows row List.mem_cons_self with ⟨saved, hfound, hrow⟩ |
      ⟨hmissing, saved, hfound, hrow⟩
    · simp only [hfound, hrow, hrest, bind, Except.bind]
      rfl
    · simp only [hmissing, hfound, hrow, hrest, bind, Except.bind]
      rfl

theorem GraphOf.length {rows : List ModuleRow} {graph : List Text} (h : GraphOf rows graph) :
    graph.length = 2 * rows.length := by
  induction rows generalizing graph with
  | nil =>
    cases graph with
    | nil => rfl
    | cons path graph => exact h.elim
  | cons row rows ih =>
    rcases graph with _ | ⟨path, _ | ⟨label, graph⟩⟩
    · exact h.elim
    · exact h.elim
    · rw [List.length_cons, List.length_cons, List.length_cons, ih h.2]
      omega

/-- A delta laid over the base with its identity is the state it was made from. -/
theorem overlay_moduleUpdate {next base : ModuleState} (hvalid : next.Valid)
    (htable : next.signature = base.signature → next.table = base.table) {source baseIdentity : Text}
    (hsource : unwrapCache (decodeModuleFields source) = deltaFields next base baseIdentity) :
    overlayModuleFields base.fields source baseIdentity = .ok next.fields := by
  have hgraph := hvalid.graph.length
  have hrows : ∀ row ∈ next.rows,
      (∃ saved, priorModule ([[], [], []] ++ rowFields
          (next.rows.filter (ModuleRow.changedFrom base))) row.path row.role = some saved ∧
        rowAt ([[], [], []] ++ rowFields (next.rows.filter (ModuleRow.changedFrom base))) saved =
          row.fields) ∨
      (priorModule ([[], [], []] ++ rowFields
          (next.rows.filter (ModuleRow.changedFrom base))) row.path row.role = none ∧
        ∃ saved, priorModule base.fields row.path row.role = some saved ∧
          rowAt base.fields saved = row.fields) := by
    intro row hrow
    rcases priorModule_rows [[], [], []] rfl
      (next.rows.filter (ModuleRow.changedFrom base)) row.path row.role with
      ⟨hfind, hprior⟩ | ⟨found, saved, hfind, hprior, hat⟩
    · -- The row is not among the replacements, so the base has it.
      refine Or.inr ⟨hprior, ?_⟩
      have hsame : findRow base.rows row.path row.role = some row := by
        by_contra hchanged
        have hmem : row ∈ next.rows.filter (ModuleRow.changedFrom base) :=
          List.mem_filter.mpr ⟨hrow, decide_eq_true hchanged⟩
        have hnone := List.find?_eq_none.mp hfind row hmem
        exact hnone (decide_eq_true ⟨rfl, rfl⟩)
      rcases priorModule_rows base.header rfl base.rows row.path row.role with
        ⟨hnone, -⟩ | ⟨found, saved, hfound, hprior, hat⟩
      · rw [hsame] at hnone
        cases hnone
      · rw [hsame] at hfound
        cases hfound
        exact ⟨saved, hprior, hat⟩
    · -- With one row for every path, the row found is the row itself.
      obtain ⟨hmem, hpath, hrole⟩ := findRow_some hfind
      have hself := findRow_self hvalid.paths (List.mem_filter.mp hmem).1
      rw [hpath, hrole, findRow_self hvalid.paths hrow] at hself
      cases hself
      exact Or.inl ⟨saved, hprior, hat⟩
  have hoverlay := overlayGraph_rows hrows hvalid.roles hvalid.graph
  have hlength : (deltaFields next base baseIdentity).length =
      4 + 10 * (next.rows.filter (ModuleRow.changedFrom base)).length := by
    rw [deltaFields, List.length_append, length_rowFields]
    rfl
  have haccept : ¬ ((deltaFields next base baseIdentity).length < 4 ∨
      fieldAt (deltaFields next base baseIdentity) 0 ≠ deltaSchema ∨
      fieldAt (deltaFields next base baseIdentity) 1 ≠ baseIdentity ∨
      ((deltaFields next base baseIdentity).length - 4) % 10 ≠ 0) := by
    rintro (hshort | hschema | hidentity | hcolumns)
    · omega
    · exact hschema rfl
    · exact hidentity rfl
    · omega
  have htableField : deltaTable base.fields (deltaFields next base baseIdentity) =
      .ok next.table := by
    change (if (if next.signature = base.signature then [] else next.table) = [] then
      (if next.signature ≠ base.signature then
        Except.error "invalid module delta table" else Except.ok base.table)
      else Except.ok (if next.signature = base.signature then [] else next.table)) = _
    by_cases hsame : next.signature = base.signature
    · rw [if_pos hsame, if_pos rfl, if_neg (not_not.mpr hsame), htable hsame]
    · rw [if_neg hsame, if_neg hvalid.table]
  have heven : ¬ (decodeModuleFields (fieldAt (deltaFields next base baseIdentity) 2)).length % 2 ≠
      0 := by
    change ¬ (decodeModuleFields next.signature).length % 2 ≠ 0
    omega
  unfold overlayModuleFields
  rw [hsource, if_neg haccept, htableField]
  simp only [bind, Except.bind]
  rw [if_neg heven]
  have hrun : overlayGraph base.fields
      ([[], [], []] ++ (deltaFields next base baseIdentity).drop 4) entryRole
      (decodeModuleFields (fieldAt (deltaFields next base baseIdentity) 2)) =
        .ok (rowFields next.rows) := hoverlay
  rw [hrun]
  rfl

/-- A delta with another identity is ignored. -/
theorem overlay_of_ne {next base : ModuleState} {current : List Text}
    {source baseIdentity identity : Text}
    (hsource : unwrapCache (decodeModuleFields source) = deltaFields next base identity)
    (hne : identity ≠ baseIdentity) : overlayModuleFields current source baseIdentity = .ok current := by
  unfold overlayModuleFields
  rw [hsource]
  exact if_pos (Or.inr (Or.inr (Or.inl hne)))

/-! ## Deltas as they are written -/

/-- An update that is no full state is a delta. -/
theorem moduleUpdate_delta {next base : ModuleState} {baseIdentity : Text}
    (h : moduleUpdate next.fields base.fields baseIdentity ≠ encodeModuleFields next.fields) :
    moduleUpdate next.fields base.fields baseIdentity =
      encodeModuleFields (deltaFields next base baseIdentity) := by
  have hidentity : baseIdentity ≠ [] := by
    rintro rfl
    exact h (if_pos (Or.inr rfl))
  exact (moduleUpdate_cases next base hidentity).resolve_left h

/-- The fields of a delta are its identity and fields of the next state. -/
theorem mem_deltaFields {next base : ModuleState} {baseIdentity value : Text}
    (h : value ∈ deltaFields next base baseIdentity) :
    value = deltaSchema ∨ value = baseIdentity ∨ value = [] ∨ value ∈ next.fields := by
  unfold deltaFields at h
  rcases List.mem_append.mp h with h | h
  · simp only [List.mem_cons, List.not_mem_nil, or_false] at h
    rcases h with rfl | rfl | rfl | h
    · exact Or.inl rfl
    · exact Or.inr (Or.inl rfl)
    · exact Or.inr (Or.inr (Or.inr (by simp [ModuleState.fields])))
    · split_ifs at h
      · exact Or.inr (Or.inr (Or.inl h))
      · exact Or.inr (Or.inr (Or.inr (by simp [ModuleState.fields, h])))
  · obtain ⟨row, hrow, hvalue⟩ := List.mem_flatMap.mp h
    refine Or.inr (Or.inr (Or.inr ?_))
    rw [ModuleState.fields_eq]
    exact List.mem_append_right _ (List.mem_flatMap.mpr ⟨row, (List.mem_filter.mp hrow).1, hvalue⟩)

/-- A delta is read back; it is in no cache file. -/
theorem unwrapCache_deltaFields {next base : ModuleState} {baseIdentity : Text}
    (hidentity : baseIdentity.length < 10 ^ 9) (hfields : ∀ value ∈ next.fields, value.length < 10 ^ 9) :
    unwrapCache (decodeModuleFields (encodeModuleFields (deltaFields next base baseIdentity))) =
      deltaFields next base baseIdentity := by
  rw [decodeModuleFields_encodeModuleFields]
  · refine if_neg fun h => ?_
    have hne : deltaSchema ≠ cacheMagic := by decide
    exact hne h.2
  · intro value hvalue
    rcases mem_deltaFields hvalue with rfl | rfl | rfl | hmem
    · decide
    · exact hidentity
    · decide
    · exact hfields value hmem

/-- A delta that is written for an identity gives the next state over the base with that identity, and
leaves the base as it is under any other. -/
theorem overlayModuleFields_moduleUpdate {next base : ModuleState} {baseIdentity : Text}
    (hvalid : next.Valid) (htable : next.signature = base.signature → next.table = base.table)
    (hidentity : baseIdentity.length < 10 ^ 9) (hfields : ∀ value ∈ next.fields, value.length < 10 ^ 9)
    (hdelta : moduleUpdate next.fields base.fields baseIdentity ≠ encodeModuleFields next.fields) :
    overlayModuleFields base.fields (moduleUpdate next.fields base.fields baseIdentity)
        baseIdentity = .ok next.fields ∧
      ∀ identity, identity ≠ baseIdentity →
        overlayModuleFields base.fields (moduleUpdate next.fields base.fields baseIdentity)
          identity = .ok base.fields := by
  rw [moduleUpdate_delta hdelta]
  have hsource := @unwrapCache_deltaFields _ base _ hidentity hfields
  exact ⟨overlay_moduleUpdate hvalid htable hsource,
    fun identity hne => overlay_of_ne hsource (Ne.symm hne)⟩

/-- A state with one changed row of two. -/
theorem overlayModuleFields_moduleUpdate_row :
    let row : Text → Text → Text → ModuleRow := fun path role source =>
      ⟨path, role, source, [], [], [], [], [], [], []⟩
    let signature := encodeModuleFields [['a'], [], ['b'], []]
    let base : ModuleState :=
      ⟨signature, ['1'], [row ['a'] entryRole ['x'], row ['b'] libraryRole ['y']]⟩
    let next : ModuleState :=
      ⟨signature, ['1'], [row ['a'] entryRole ['z'], row ['b'] libraryRole ['y']]⟩
    overlayModuleFields base.fields (moduleUpdate next.fields base.fields ['i']) ['i'] =
        .ok next.fields ∧
      ∀ identity, identity ≠ ['i'] →
        overlayModuleFields base.fields (moduleUpdate next.fields base.fields ['i']) identity =
          .ok base.fields := by
  intro row signature base next
  refine overlayModuleFields_moduleUpdate ?_ (fun _ => rfl) (by decide) (by decide) (by decide)
  refine ⟨?_, ⟨rfl, rfl, trivial⟩, by decide, by decide⟩
  have hgraph : decodeModuleFields signature = [['a'], [], ['b'], []] :=
    decodeModuleFields_encodeModuleFields (by decide)
  change GraphOf _ (decodeModuleFields signature)
  rw [hgraph]
  exact ⟨rfl, rfl, trivial⟩

end Minyar

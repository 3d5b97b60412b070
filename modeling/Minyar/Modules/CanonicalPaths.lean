import Minyar.Modules.Paths

/-!
# Canonical paths

What `normalizePath` returns: a path without `.`, without empty components, with `..` only at the
beginning of a relative path (`IsCanonicalPath`), that leads from every directory where the path
it was made of leads (`SameLocation`), and that `normalizePath` returns unchanged.

All of this fails together for the paths whose start is not read back from the result: a drive
without a separator gets one, a drive may be a backslash, and a first component with a colon in
the wrong place is read back as a drive.  `RootKept` excludes exactly these, and
`pathStart_normalizePath` says that otherwise the start and the components are read back.  Two
specifiers that lead to the same file from importers of this kind name the same module.
-/

namespace Minyar

/-! ## The meaning of a path -/

/-- Where a path leads. -/
structure PathTarget where
  /-- The drive. -/
  drive : List Char
  /-- Whether it starts at the root. -/
  absolute : Bool
  /-- The names that lead to it, innermost first. -/
  directory : List (List Char)

/-- Where a path leads from a directory when its components are followed from left to right. -/
def pathTarget (directory : List (List Char)) (path : List Char) : PathTarget :=
  let start := pathStart path
  ⟨start.drive, start.absolute,
    resolve (if start.absolute then [] else directory) (componentsOf start.rest)⟩

/-- Two paths that lead to the same place from every directory. -/
def SameLocation (first second : List Char) : Prop :=
  ∀ directory, pathTarget directory first = pathTarget directory second

/-- Where a relative specifier leads from the directory of an importer. -/
def moduleTarget (directory : List (List Char)) (importer specifier : List Char) : PathTarget :=
  let target := pathTarget directory importer
  { target with directory := resolve target.directory.tail (componentsOf specifier) }

/-- The form of a path without detours. -/
structure IsCanonicalPath (path : List Char) : Prop where
  /-- Only forward slashes. -/
  slashes : '\\' ∉ path
  /-- There is a text for the directory itself. -/
  ne_nil : path ≠ []
  /-- It is the directory itself, or nothing follows the start, or some `..` and then names. -/
  parts : path = ['.'] ∨ (pathStart path).rest = [] ∨ ∃ ups names,
    (pathStart path).rest.splitOnP pathCharacterIsSeparator =
      List.replicate ups ['.', '.'] ++ names ∧
    (∀ name ∈ names, IsPathName name) ∧ ((pathStart path).absolute = true → ups = 0)

/-- What `normalizePath` is for. -/
structure PathFaithful (path : List Char) : Prop where
  /-- The result is canonical. -/
  canonical : IsCanonicalPath (normalizePath path)
  /-- It denotes the location of the path. -/
  location : SameLocation (normalizePath path) path
  /-- It is returned unchanged. -/
  idempotent : normalizePath (normalizePath path) = normalizePath path

/-- The start of the path is read back when it is written before what the components resolve to:
the colon of a drive has a separator behind it or nothing follows, and without a drive the first
component does not bring a colon into the second place. -/
structure RootKept (path : List Char) : Prop where
  /-- A drive is not a backslash. -/
  plain : '\\' ∉ (pathStart path).drive
  /-- Components behind a drive come after a separator. -/
  drive : (pathStart path).drive ≠ [] → (pathStart path).absolute = true ∨ pathWalk path = ⟨0, []⟩
  /-- Nothing else is read as a drive. -/
  first : (pathStart path).drive = [] → ∀ first ∈ (walkParts (pathWalk path)).head?,
    if (pathStart path).absolute then first.head? ≠ some ':' else first[1]? ≠ some ':'

/-- The importer is a file, so that it has a name in its directory. -/
def NamesFile (importer : List Char) : Prop :=
  (pathWalk importer).names ≠ []

/-! ## Starts and components -/

/-- A path either has a drive or no colon in the second place. -/
theorem pathStart_cases (path : List Char) :
    (∃ letter rest, path = letter :: ':' :: rest ∧ pathStart path = startAfter [letter, ':'] rest) ∨
      (path[1]? ≠ some ':' ∧ pathStart path = startAfter [] path) := by
  rcases path with _ | ⟨letter, _ | ⟨second, rest⟩⟩
  · exact .inr ⟨by simp, rfl⟩
  · exact .inr ⟨by simp, rfl⟩
  · by_cases h : second = ':'
    · subst h
      exact .inl ⟨letter, rest, rfl, by simp [pathStart]⟩
    · exact .inr ⟨by simpa using h, by simp [pathStart, h]⟩

/-- The drive behind which a path starts. -/
theorem drive_startAfter (drive rest : List Char) : (startAfter drive rest).drive = drive := by
  rcases rest with _ | ⟨character, rest⟩
  · rfl
  · simp only [startAfter]
    split <;> rfl

/-- A drive is empty or one character with a colon. -/
theorem drive_cases (path : List Char) :
    (pathStart path).drive = [] ∨ ∃ letter, (pathStart path).drive = [letter, ':'] := by
  rcases pathStart_cases path with ⟨letter, rest, -, h⟩ | ⟨-, h⟩
  · exact .inr ⟨letter, by rw [h, drive_startAfter]⟩
  · exact .inl (by rw [h, drive_startAfter])

/-- A component of a text has no separator. -/
theorem plain_of_mem_splitOnP {rest part : List Char}
    (h : part ∈ rest.splitOnP pathCharacterIsSeparator) :
    ∀ character ∈ part, pathCharacterIsSeparator character = false := by
  induction rest generalizing part with
  | nil =>
    rw [List.splitOnP_nil, List.mem_singleton] at h
    simp [h]
  | cons c rest ih =>
    rw [List.splitOnP_cons_eq_if_modifyHead] at h
    split at h
    · rcases List.mem_cons.mp h with rfl | h
      · simp
      · exact ih h
    · next hsep =>
      cases hsplit : rest.splitOnP pathCharacterIsSeparator with
      | nil => exact absurd hsplit (List.splitOnP_ne_nil _ _)
      | cons front parts =>
        rw [hsplit, List.modifyHead_cons] at h
        rcases List.mem_cons.mp h with rfl | h
        · intro character hc
          rcases List.mem_cons.mp hc with rfl | hc
          · exact Bool.eq_false_iff.mpr hsep
          · exact ih (hsplit ▸ List.mem_cons_self) character hc
        · exact ih (hsplit ▸ List.mem_cons_of_mem _ h)

/-- The components of two paths with a slash between them. -/
theorem componentsOf_append (front back : List Char) :
    componentsOf (front ++ '/' :: back) = componentsOf front ++ componentsOf back := by
  unfold componentsOf
  rw [List.splitOnP_append_cons front back rfl, List.map_append]

/-- A component that is entered can stand as a name. -/
theorem isPathName_of_pathComponent {part name : List Char}
    (hplain : ∀ character ∈ part, pathCharacterIsSeparator character = false)
    (h : pathComponent part = .name name) : IsPathName name := by
  unfold pathComponent at h
  split at h
  · exact absurd h (by simp)
  · next hstay =>
    split at h
    · exact absurd h (by simp)
    · next hup =>
      obtain rfl : part = name := by simpa using h
      exact ⟨fun h => hstay (.inl h), fun h => hstay (.inr h), hup, hplain⟩

/-- The names of a path can stand as names. -/
theorem isPathName_of_mem {path name : List Char} (h : name ∈ (pathWalk path).names) :
    IsPathName name := by
  rcases Walk.mem_names_foldl_step h with hn | hn
  · exact absurd hn (by simp)
  · obtain ⟨part, hpart, hname⟩ := List.mem_map.mp hn
    exact isPathName_of_pathComponent (plain_of_mem_splitOnP hpart) hname

/-- A path from the root has no steps up. -/
theorem ups_pathWalk {path : List Char} (h : (pathStart path).absolute = true) :
    (pathWalk path).ups = 0 := by
  unfold pathWalk Walk.ofComponents
  rw [h, Walk.ups_foldl_step_true]

/-- Two paths denote the same location when they have the same start and the same walk. -/
theorem sameLocation_iff {first second : List Char} :
    SameLocation first second ↔ (pathStart first).drive = (pathStart second).drive ∧
      (pathStart first).absolute = (pathStart second).absolute ∧
      pathWalk first = pathWalk second := by
  constructor
  · intro h
    have hdrive : (pathStart first).drive = (pathStart second).drive :=
      congrArg PathTarget.drive (h [])
    have habs : (pathStart first).absolute = (pathStart second).absolute :=
      congrArg PathTarget.absolute (h [])
    refine ⟨hdrive, habs, ?_⟩
    have htarget := fun directory => congrArg PathTarget.directory (h directory)
    simp only [pathTarget, habs] at htarget
    unfold pathWalk
    rw [habs]
    cases hroot : (pathStart second).absolute with
    | false =>
      rw [hroot] at htarget
      refine Walk.ext_of_apply fun directory => ?_
      rw [← Walk.resolve_eq_apply, ← Walk.resolve_eq_apply]
      exact htarget directory
    | true =>
      rw [hroot] at htarget
      unfold Walk.ofComponents
      ext1
      · rw [Walk.ups_foldl_step_true, Walk.ups_foldl_step_true]
      · rw [Walk.names_foldl_step, Walk.names_foldl_step]
        exact htarget []
  · rintro ⟨hdrive, habs, hwalk⟩ directory
    unfold pathTarget
    simp only [hdrive, habs]
    congr 1
    unfold pathWalk at hwalk
    rw [habs] at hwalk
    cases hroot : (pathStart second).absolute with
    | false =>
      rw [hroot] at hwalk
      simp only [Walk.resolve_eq_apply, hwalk, Bool.false_eq_true, if_false]
    | true =>
      rw [hroot] at hwalk
      have hnames := congrArg Walk.names hwalk
      unfold Walk.ofComponents at hnames
      rw [Walk.names_foldl_step, Walk.names_foldl_step] at hnames
      exact hnames

/-! ## What is written is read back -/

/-- Components with separators between them. -/
def joinParts : List (List Char) → List Char
  | [] => []
  | part :: parts => part ++ parts.flatMap ('/' :: ·)

/-- One more component behind others. -/
theorem joinParts_concat {front : List (List Char)} (hne : front ≠ []) (part : List Char) :
    joinParts (front ++ [part]) = joinParts front ++ '/' :: part := by
  obtain ⟨first, front, rfl⟩ := List.exists_cons_of_ne_nil hne
  simp [joinParts]

/-- The text in front of the components. -/
def rootText (drive : List Char) (absolute : Bool) : List Char :=
  if absolute then drive ++ ['/'] else drive

/-- The result is what was written, if that is anything. -/
theorem writePath_eq (drive : List Char) (absolute : Bool) (parts : List (List Char)) :
    writePath drive absolute parts =
      if parts.foldl appendPart (rootText drive absolute) = [] then ['.']
      else parts.foldl appendPart (rootText drive absolute) :=
  rfl

/-- What can be written as a component. -/
def IsPathPart (part : List Char) : Prop :=
  part ≠ [] ∧ ∀ character ∈ part, pathCharacterIsSeparator character = false

/-- The components of a path can be written. -/
theorem isPathPart_walkParts {path part : List Char} (h : part ∈ walkParts (pathWalk path)) :
    IsPathPart part := by
  rcases List.mem_append.mp h with h | h
  · rw [List.eq_of_mem_replicate h]
    exact ⟨by simp, by simp [pathCharacterIsSeparator]⟩
  · have hname := isPathName_of_mem (List.mem_reverse.mp h)
    exact ⟨hname.ne_nil, hname.plain⟩

/-- The components that were written are read back. -/
theorem splitOnP_joinParts {parts : List (List Char)} (hne : parts ≠ [])
    (h : ∀ part ∈ parts, IsPathPart part) :
    (joinParts parts).splitOnP pathCharacterIsSeparator = parts := by
  obtain ⟨part, parts, rfl⟩ := List.exists_cons_of_ne_nil hne
  clear hne
  induction parts generalizing part with
  | nil =>
    rw [joinParts, List.flatMap_nil, List.append_nil]
    exact List.splitOnP_eq_singleton (h part (by simp)).2
  | cons next parts ih =>
    have htail := ih next fun part hpart => h part (List.mem_cons_of_mem _ hpart)
    rw [joinParts, List.flatMap_cons, List.cons_append,
      List.splitOnP_append_cons_of_forall_mem (h part (by simp)).2 '/' rfl]
    exact congrArg _ htail

/-- A component does not end in a separator. -/
theorem IsPathPart.getLast?_ne {part : List Char} (h : IsPathPart part) :
    part.getLast? ≠ some '/' := by
  intro hlast
  exact absurd (h.2 '/' (List.mem_of_getLast? hlast)) (by decide)

/-- Components behind a text that needs a separator. -/
theorem foldl_appendPart {result : List Char} {parts : List (List Char)} (hne : result ≠ [])
    (hlast : result.getLast? ≠ some '/') (h : ∀ part ∈ parts, IsPathPart part) :
    parts.foldl appendPart result = result ++ parts.flatMap ('/' :: ·) := by
  induction parts generalizing result with
  | nil => simp
  | cons part parts ih =>
    have hpart := h part List.mem_cons_self
    rw [List.foldl_cons, appendPart, if_pos ⟨hne, hlast⟩, ih (by simp) ?_ fun part hpart =>
      h part (List.mem_cons_of_mem _ hpart)]
    · simp
    · rw [List.getLast?_append_of_ne_nil _ (by simp), List.getLast?_cons_of_ne_nil hpart.1]
      exact hpart.getLast?_ne

/-- Components behind a text that ends in a separator or is empty. -/
theorem foldl_appendPart_root {result : List Char} {parts : List (List Char)}
    (hlast : result = [] ∨ result.getLast? = some '/') (h : ∀ part ∈ parts, IsPathPart part) :
    parts.foldl appendPart result = result ++ joinParts parts := by
  cases parts with
  | nil => simp [joinParts]
  | cons part parts =>
    have hpart := h part List.mem_cons_self
    have hnot : ¬(result ≠ [] ∧ result.getLast? ≠ some '/') := fun hno =>
      hlast.elim hno.1 hno.2
    rw [List.foldl_cons, appendPart, if_neg hnot, foldl_appendPart (by simp [hpart.1]) ?_ fun part hp =>
      h part (List.mem_cons_of_mem _ hp)]
    · simp [joinParts]
    · rw [List.getLast?_append_of_ne_nil _ hpart.1]
      exact hpart.getLast?_ne

/-- Components are written behind what is there. -/
theorem foldl_appendPart_prefix (result : List Char) (parts : List (List Char)) :
    result <+: parts.foldl appendPart result := by
  induction parts generalizing result with
  | nil => exact List.prefix_rfl
  | cons part parts ih =>
    refine List.IsPrefix.trans ?_ (ih (appendPart result part))
    unfold appendPart
    split <;> exact List.prefix_append _ _

/-- A start that is written is read back when no colon comes into the second place. -/
theorem pathStart_rootText {drive : List Char} {absolute : Bool} {text : List Char}
    (hdrive : drive = [] ∨ ∃ letter, drive = [letter, ':'])
    (hroot : drive ≠ [] → absolute = true)
    (hfirst : drive = [] → if absolute then text.head? ≠ some ':'
      else text[1]? ≠ some ':' ∧ ∀ character ∈ text.head?, pathCharacterIsSeparator character = false) :
    pathStart (rootText drive absolute ++ text) = ⟨drive, absolute, text⟩ := by
  rcases hdrive with rfl | ⟨letter, rfl⟩
  · have hfirst := hfirst rfl
    cases absolute with
    | true =>
      rcases pathStart_cases ('/' :: text) with ⟨letter, rest, heq, -⟩ | ⟨-, h⟩
      · obtain ⟨-, rfl⟩ := List.cons.inj heq
        simp at hfirst
      · exact h
    | false =>
      simp only [Bool.false_eq_true, if_false] at hfirst
      rcases pathStart_cases text with ⟨letter, rest, heq, -⟩ | ⟨-, h⟩
      · simp [heq] at hfirst
      · change pathStart text = _
        rw [h]
        cases text with
        | nil => rfl
        | cons character text =>
          simp only [startAfter]
          rw [if_neg (by simpa using hfirst.2)]
  · rw [hroot (by simp)]
    rfl

/-- The components behind the start of a result. -/
def writtenRest (drive : List Char) (absolute : Bool) (parts : List (List Char)) : List Char :=
  if drive = [] ∧ absolute = false ∧ parts = [] then ['.'] else joinParts parts

/-- What is written behind a start that is kept. -/
theorem RootKept.normalizePath_eq {path : List Char} (h : RootKept path) :
    normalizePath path = rootText (pathStart path).drive (pathStart path).absolute ++
      writtenRest (pathStart path).drive (pathStart path).absolute (walkParts (pathWalk path)) := by
  rw [Minyar.normalizePath_eq]
  have hparts : ∀ part ∈ walkParts (pathWalk path), IsPathPart part :=
    fun part hpart => isPathPart_walkParts hpart
  have hdrive := h.drive
  rcases drive_cases path with hd | ⟨letter, hd⟩
  · rw [hd]
    cases habs : (pathStart path).absolute with
    | true =>
      simp only [writePath, if_true, List.nil_append, writtenRest, rootText]
      rw [foldl_appendPart_root (.inr rfl) hparts]
      simp
    | false =>
      simp only [writePath, Bool.false_eq_true, if_false, writtenRest, rootText, List.nil_append,
        true_and]
      rw [foldl_appendPart_root (.inl rfl) hparts, List.nil_append]
      cases hwalk : walkParts (pathWalk path) with
      | nil => rfl
      | cons part parts =>
        have hne := (hparts part (by rw [hwalk]; exact List.mem_cons_self)).1
        simp [joinParts, hne]
  · rw [hd] at hdrive ⊢
    cases habs : (pathStart path).absolute with
    | true =>
      simp only [writePath, if_true, writtenRest, rootText]
      rw [foldl_appendPart_root (.inr rfl) hparts]
      simp
    | false =>
      have hwalk : pathWalk path = ⟨0, []⟩ := by simpa [habs] using hdrive
      simp [writePath, writtenRest, rootText, hwalk, walkParts, joinParts]

/-- The second character of written components is that of the first component. -/
theorem getElem?_one_joinParts {parts : List (List Char)} {text : List Char}
    (hparts : ∀ part ∈ parts, IsPathPart part) (htext : text = [] ∨ text.head? = some '/')
    (hfirst : ∀ first ∈ parts.head?, first[1]? ≠ some ':') (hne : parts ≠ []) :
    (joinParts parts ++ text)[1]? ≠ some ':' ∧
      ∀ character ∈ (joinParts parts ++ text).head?,
        pathCharacterIsSeparator character = false := by
  obtain ⟨part, parts, rfl⟩ := List.exists_cons_of_ne_nil hne
  have hpart := hparts part List.mem_cons_self
  have hsecond := hfirst part rfl
  obtain ⟨character, part, rfl⟩ := List.exists_cons_of_ne_nil hpart.1
  constructor
  · rcases part with _ | ⟨second, part⟩
    · rcases parts with _ | ⟨next, parts⟩
      · rcases htext with rfl | htext
        · simp [joinParts]
        · obtain ⟨c, text, rfl⟩ := List.exists_cons_of_ne_nil
            (show text ≠ [] by rintro rfl; simp at htext)
          obtain rfl : c = '/' := by simpa using htext
          simp [joinParts]
      · simp [joinParts]
    · simpa [joinParts] using hsecond
  · intro c hc
    obtain rfl : c = character := by simpa [joinParts, eq_comm] using hc
    exact hpart.2 c List.mem_cons_self

/-- The first character of written components is that of the first component. -/
theorem head?_joinParts {parts : List (List Char)} {text : List Char}
    (hparts : ∀ part ∈ parts, IsPathPart part) (htext : text.head? ≠ some ':')
    (hfirst : ∀ first ∈ parts.head?, first.head? ≠ some ':') :
    (joinParts parts ++ text).head? ≠ some ':' := by
  cases parts with
  | nil => simpa [joinParts] using htext
  | cons part parts =>
    obtain ⟨character, part, rfl⟩ :=
      List.exists_cons_of_ne_nil (hparts part List.mem_cons_self).1
    simpa [joinParts] using hfirst _ rfl

/-- A start that is kept is read back from the result, with the components behind it. -/
theorem RootKept.pathStart_normalizePath {path : List Char} (h : RootKept path) :
    pathStart (normalizePath path) = ⟨(pathStart path).drive, (pathStart path).absolute,
      writtenRest (pathStart path).drive (pathStart path).absolute
        (walkParts (pathWalk path))⟩ := by
  have hparts : ∀ part ∈ walkParts (pathWalk path), IsPathPart part :=
    fun part hpart => isPathPart_walkParts hpart
  rw [h.normalizePath_eq]
  by_cases hroot : (pathStart path).drive ≠ [] → (pathStart path).absolute = true
  · refine pathStart_rootText (drive_cases path) hroot fun hd => ?_
    have hfirst := h.first hd
    rw [hd]
    cases habs : (pathStart path).absolute with
    | true =>
      rw [habs] at hfirst
      have hhead : (joinParts (walkParts (pathWalk path)) ++ []).head? ≠ some ':' :=
        head?_joinParts hparts (by simp) (by simpa using hfirst)
      simpa [writtenRest] using hhead
    | false =>
      rw [habs] at hfirst
      by_cases hwalk : walkParts (pathWalk path) = []
      · simp [writtenRest, hwalk, pathCharacterIsSeparator]
      · have hsecond := getElem?_one_joinParts hparts (.inl (rfl : ([] : List Char) = []))
          (by simpa using hfirst) hwalk
        simpa [writtenRest, hwalk] using hsecond
  · obtain ⟨hd, habs⟩ := Classical.not_imp.mp hroot
    have hwalk := (h.drive hd).resolve_left habs
    have hfalse : (pathStart path).absolute = false := Bool.eq_false_iff.mpr habs
    obtain ⟨letter, hletter⟩ := (drive_cases path).resolve_left hd
    simp only [hletter, hfalse, hwalk, writtenRest, rootText]
    rfl

/-! ## The result is canonical -/

/-- The components of a walk are its steps up and its names. -/
theorem map_pathComponent_walkParts {walk : Walk (List Char)}
    (h : ∀ name ∈ walk.names, IsPathName name) :
    (walkParts walk).map pathComponent = walk.components := by
  unfold walkParts Walk.components
  rw [List.map_append, List.map_replicate]
  congr 1
  refine List.map_congr_left fun name hname => ?_
  have hn := h name (List.mem_reverse.mp hname)
  unfold pathComponent
  rw [if_neg (not_or.mpr ⟨hn.ne_nil, hn.ne_stay⟩), if_neg hn.ne_up]

/-- The walk of the components behind the start of a result. -/
theorem ofComponents_writtenRest {path : List Char} (drive : List Char) :
    Walk.ofComponents (pathStart path).absolute
      (componentsOf (writtenRest drive (pathStart path).absolute (walkParts (pathWalk path)))) =
      pathWalk path := by
  have hnames : ∀ name ∈ (pathWalk path).names, IsPathName name :=
    fun name hname => isPathName_of_mem hname
  have hcomponents := map_pathComponent_walkParts hnames
  by_cases hwalk : walkParts (pathWalk path) = []
  · rw [hwalk] at hcomponents ⊢
    have hstay : ∀ bounded, Walk.ofComponents bounded
        (componentsOf (writtenRest drive (pathStart path).absolute [])) = ⟨0, []⟩ := by
      intro bounded
      unfold writtenRest
      split <;> simp [joinParts, componentsOf, pathComponent, Walk.ofComponents, Walk.step,
        List.splitOnP_cons_eq_if_modifyHead, pathCharacterIsSeparator]
    rw [hstay, ← Walk.ofComponents_components false (pathWalk path) (by simp), ← hcomponents]
    rfl
  · unfold writtenRest
    rw [if_neg (by simp [hwalk]), componentsOf,
      splitOnP_joinParts hwalk fun part hpart => isPathPart_walkParts hpart, hcomponents]
    exact Walk.ofComponents_components _ _ ups_pathWalk

/-- A result whose start is kept has the walk of the path. -/
theorem RootKept.pathWalk_normalizePath {path : List Char} (h : RootKept path) :
    pathWalk (normalizePath path) = pathWalk path := by
  unfold pathWalk
  rw [h.pathStart_normalizePath]
  exact ofComponents_writtenRest _

/-- A backslash is a separator, so that no component has one. -/
theorem backslash_notMem_joinParts {parts : List (List Char)}
    (h : ∀ part ∈ parts, IsPathPart part) : '\\' ∉ joinParts parts := by
  have hpart : ∀ part ∈ parts, '\\' ∉ part := fun part hpart hmem =>
    absurd ((h part hpart).2 _ hmem) (by decide)
  cases parts with
  | nil => simp [joinParts]
  | cons part parts =>
    intro hmem
    rcases List.mem_append.mp hmem with hmem | hmem
    · exact hpart part List.mem_cons_self hmem
    · obtain ⟨next, hnext, hmem⟩ := List.mem_flatMap.mp hmem
      rcases List.mem_cons.mp hmem with hmem | hmem
      · exact absurd hmem (by decide)
      · exact hpart next (List.mem_cons_of_mem _ hnext) hmem

/-- A result whose start is kept is canonical. -/
theorem RootKept.isCanonicalPath {path : List Char} (h : RootKept path) :
    IsCanonicalPath (normalizePath path) := by
  have hparts : ∀ part ∈ walkParts (pathWalk path), IsPathPart part :=
    fun part hpart => isPathPart_walkParts hpart
  refine ⟨?_, ?_, ?_⟩
  · rw [h.normalizePath_eq]
    have hplain := h.plain
    have hjoin := backslash_notMem_joinParts hparts
    unfold rootText writtenRest
    split <;> split <;> simp_all
  · rw [Minyar.normalizePath_eq, writePath_eq]
    split
    · simp
    · assumption
  · by_cases hwalk : walkParts (pathWalk path) = []
    · by_cases hroot : (pathStart path).drive = [] ∧ (pathStart path).absolute = false
      · left
        rw [h.normalizePath_eq, hwalk, hroot.1, hroot.2]
        rfl
      · right; left
        rw [h.pathStart_normalizePath]
        simp only [writtenRest, hwalk, and_true, if_neg hroot]
        rfl
    · right; right
      refine ⟨(pathWalk path).ups, (pathWalk path).names.reverse, ?_, ?_, ?_⟩
      · rw [h.pathStart_normalizePath]
        simp only [writtenRest, hwalk, and_false, if_false]
        exact splitOnP_joinParts hwalk hparts
      · exact fun name hname => isPathName_of_mem (List.mem_reverse.mp hname)
      · rw [h.pathStart_normalizePath]
        exact ups_pathWalk

/-- A path whose start is kept is normalized faithfully. -/
theorem RootKept.pathFaithful {path : List Char} (h : RootKept path) : PathFaithful path where
  canonical := h.isCanonicalPath
  location := by
    rw [sameLocation_iff, h.pathStart_normalizePath]
    exact ⟨rfl, rfl, h.pathWalk_normalizePath⟩
  idempotent := by
    rw [Minyar.normalizePath_eq (normalizePath path), h.pathWalk_normalizePath,
      h.pathStart_normalizePath, Minyar.normalizePath_eq path]

/-! ## The start has to be kept -/

/-- A colon in the second place is read as the end of a drive. -/
theorem drive_ne_nil {path : List Char} (h : path[1]? = some ':') :
    (pathStart path).drive ≠ [] := by
  rcases pathStart_cases path with ⟨letter, rest, -, hstart⟩ | ⟨hne, -⟩
  · rw [hstart, drive_startAfter]
    simp
  · exact absurd h hne

/-- What is written begins with the start of the path. -/
theorem rootText_prefix (drive : List Char) (absolute : Bool) (parts : List (List Char)) :
    rootText drive absolute <+: writePath drive absolute parts := by
  have hprefix := foldl_appendPart_prefix (rootText drive absolute) parts
  rw [writePath_eq]
  split
  · next h =>
    rw [h] at hprefix
    rw [List.prefix_nil.mp hprefix]
    exact List.nil_prefix
  · exact hprefix

/-- What is written with components begins with the start and the first component. -/
theorem rootText_first_prefix (drive : List Char) (absolute : Bool) (part : List Char)
    (parts : List (List Char)) (hne : part ≠ []) :
    appendPart (rootText drive absolute) part <+: writePath drive absolute (part :: parts) := by
  have hprefix := foldl_appendPart_prefix (appendPart (rootText drive absolute) part) parts
  rw [writePath_eq, List.foldl_cons]
  split
  · next h =>
    rw [h] at hprefix
    have hnil := List.prefix_nil.mp hprefix
    unfold appendPart at hnil
    split at hnil <;> simp_all
  · exact hprefix

/-- A path that is normalized faithfully has a start that is kept. -/
theorem PathFaithful.rootKept {path : List Char} (h : PathFaithful path) : RootKept path := by
  obtain ⟨hdrive, habs, -⟩ := sameLocation_iff.mp h.location
  have hslashes := h.canonical.slashes
  rw [Minyar.normalizePath_eq] at hdrive habs hslashes
  have hroot := rootText_prefix (pathStart path).drive (pathStart path).absolute
    (walkParts (pathWalk path))
  refine ⟨fun hmem => hslashes (hroot.subset ?_), fun hd => ?_, fun hd first hfirst => ?_⟩
  · unfold rootText
    split
    · exact List.mem_append_left _ hmem
    · exact hmem
  · by_contra hno
    obtain ⟨hrelative, hwalk⟩ := not_or.mp hno
    have hfalse : (pathStart path).absolute = false := Bool.eq_false_iff.mpr hrelative
    obtain ⟨letter, hletter⟩ := (drive_cases path).resolve_left hd
    cases hparts : walkParts (pathWalk path) with
    | nil =>
      have hnil : walkParts (pathWalk path) = [] := hparts
      apply hwalk
      unfold walkParts at hnil
      obtain ⟨hups, hnames⟩ := List.append_eq_nil_iff.mp hnil
      ext1
      · simpa using hups
      · simpa using hnames
    | cons part parts =>
      rw [hparts] at habs
      have hne := (isPathPart_walkParts (hparts ▸ List.mem_cons_self)).1
      obtain ⟨more, hmore⟩ := rootText_first_prefix (pathStart path).drive
        (pathStart path).absolute part parts hne
      rw [← hmore, hletter, hfalse] at habs
      exact absurd habs (by simp [appendPart, rootText, pathStart, startAfter,
        pathCharacterIsSeparator])
  · obtain ⟨parts, hparts⟩ : ∃ parts, walkParts (pathWalk path) = first :: parts := by
      cases hw : walkParts (pathWalk path) with
      | nil => simp [hw] at hfirst
      | cons part parts =>
        obtain rfl : part = first := by simpa [hw] using hfirst
        exact ⟨parts, rfl⟩
    have hne := (isPathPart_walkParts (hparts ▸ List.mem_cons_self)).1
    obtain ⟨more, hmore⟩ := rootText_first_prefix (pathStart path).drive
      (pathStart path).absolute first parts hne
    rw [hparts, ← hmore, hd] at hdrive
    obtain ⟨character, first, rfl⟩ := List.exists_cons_of_ne_nil hne
    split
    · next habsolute =>
      rintro hcolon
      refine drive_ne_nil ?_ hdrive
      rw [habsolute]
      simpa [appendPart, rootText] using hcolon
    · next habsolute =>
      rintro hcolon
      refine drive_ne_nil ?_ hdrive
      rw [Bool.eq_false_iff.mpr habsolute]
      cases first with
      | nil => simp at hcolon
      | cons second first => simpa [appendPart, rootText] using hcolon

end Minyar

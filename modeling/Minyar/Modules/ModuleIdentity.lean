import Minyar.Modules.CanonicalPaths

/-!
# The identity of a module

`resolveModulePath` names a module by the normal form of a path.  When the start of the importer
is kept, this is the normal form of the place where the specifier leads from the directory of the
importer (`exists_module_path`), so that two specifiers that lead to the same file from two
importers name the same module.
-/

namespace Minyar

/-! ## The directory of an importer -/

/-- The last separator of a text in two pieces. -/
theorem lastSeparatorFrom_append (front back : List Char) (position : Nat) (found : Option Nat) :
    lastSeparatorFrom (front ++ back) position found =
      lastSeparatorFrom back (position + front.length)
        (lastSeparatorFrom front position found) := by
  induction front generalizing position found with
  | nil => rfl
  | cons character front ih =>
    rw [List.cons_append, lastSeparatorFrom, ih, List.length_cons, Nat.add_right_comm]
    rfl

/-- A text without a separator. -/
theorem lastSeparatorFrom_plain {text : List Char} (h : '/' ∉ text) (position : Nat)
    (found : Option Nat) : lastSeparatorFrom text position found = found := by
  induction text generalizing position found with
  | nil => rfl
  | cons character text ih =>
    obtain ⟨hcharacter, htext⟩ := not_or.mp (List.mem_cons.not.mp h)
    rw [lastSeparatorFrom, ih htext, if_neg (Ne.symm hcharacter)]

/-- The last separator stands in front of the last component. -/
theorem lastSeparatorFrom_eq (front : List Char) {back : List Char} (h : '/' ∉ back) :
    lastSeparatorFrom (front ++ '/' :: back) 0 none = some front.length := by
  rw [lastSeparatorFrom_append, lastSeparatorFrom, lastSeparatorFrom_plain h]
  simp

/-- A component has no forward slash. -/
theorem IsPathPart.slash_notMem {part : List Char} (h : IsPathPart part) : '/' ∉ part :=
  fun hmem => absurd (h.2 _ hmem) (by decide)

/-- The directory of a file. -/
def fileDirectory (importer : List Char) : Walk (List Char) :=
  ⟨(pathWalk importer).ups, (pathWalk importer).names.tail⟩

/-- A file is a name in its directory. -/
theorem exists_walkParts_eq {importer : List Char} (h : NamesFile importer) :
    ∃ name, walkParts (pathWalk importer) = walkParts (fileDirectory importer) ++ [name] := by
  unfold fileDirectory walkParts
  obtain ⟨name, names, hnames⟩ := List.exists_cons_of_ne_nil h
  rw [hnames]
  exact ⟨name, by simp⟩

/-- The components of the directory of a file can be written. -/
theorem isPathPart_fileDirectory {importer : List Char} (h : NamesFile importer) :
    ∀ part ∈ walkParts (fileDirectory importer), IsPathPart part := by
  obtain ⟨name, hname⟩ := exists_walkParts_eq h
  intro part hpart
  exact isPathPart_walkParts (hname ▸ List.mem_append_left _ hpart)

/-- The normal form of a file. -/
theorem RootKept.normalizePath_file {importer : List Char} (hroot : RootKept importer)
    (hfile : NamesFile importer) :
    ∃ name, IsPathPart name ∧ normalizePath importer =
      rootText (pathStart importer).drive (pathStart importer).absolute ++
        joinParts (walkParts (fileDirectory importer) ++ [name]) := by
  obtain ⟨name, hname⟩ := exists_walkParts_eq hfile
  have hmem : name ∈ walkParts (pathWalk importer) := by simp [hname]
  refine ⟨name, isPathPart_walkParts hmem, ?_⟩
  rw [hroot.normalizePath_eq, hname]
  simp [writtenRest]

/-- A drive of a file has a separator behind it. -/
theorem RootKept.absolute_of_drive {importer : List Char} (hroot : RootKept importer)
    (hfile : NamesFile importer) (hdrive : (pathStart importer).drive ≠ []) :
    (pathStart importer).absolute = true :=
  (hroot.drive hdrive).resolve_right fun hwalk => hfile (by rw [hwalk])

/-- The directory of a file in a directory that has a name. -/
theorem RootKept.directoryOfPath_eq {importer : List Char} (hroot : RootKept importer)
    (hfile : NamesFile importer) (hne : walkParts (fileDirectory importer) ≠ []) :
    directoryOfPath importer =
      rootText (pathStart importer).drive (pathStart importer).absolute ++
        joinParts (walkParts (fileDirectory importer)) := by
  obtain ⟨name, hname, heq⟩ := hroot.normalizePath_file hfile
  have hjoin : joinParts (walkParts (fileDirectory importer)) ≠ [] := by
    obtain ⟨part, parts, hparts⟩ := List.exists_cons_of_ne_nil hne
    have hpart := isPathPart_fileDirectory hfile part (hparts ▸ List.mem_cons_self)
    simp [hparts, joinParts, hpart.1]
  unfold directoryOfPath
  rw [heq, joinParts_concat hne, ← List.append_assoc]
  simp only [lastSeparatorFrom_eq _ hname.slash_notMem]
  split
  · next h => exact absurd h (by simp)
  · next h =>
    have hlength := Option.some.inj h
    rw [List.length_append] at hlength
    exact absurd (List.length_eq_zero_iff.mp (by omega)) hjoin
  · next position _ h =>
    rw [← Option.some.inj h, List.take_left']
    rfl

/-- The directory of a file at its start. -/
theorem RootKept.directoryOfPath_root {importer : List Char} (hroot : RootKept importer)
    (hfile : NamesFile importer) (hnil : walkParts (fileDirectory importer) = []) :
    directoryOfPath importer =
      if (pathStart importer).drive = [] ∧ (pathStart importer).absolute = true then ['/']
      else (pathStart importer).drive := by
  obtain ⟨name, hname, heq⟩ := hroot.normalizePath_file hfile
  have habsolute := hroot.absolute_of_drive hfile
  unfold directoryOfPath
  rw [heq, hnil, List.nil_append, show joinParts [name] = name by simp [joinParts]]
  rcases drive_cases importer with hd | ⟨letter, hd⟩
  · rw [hd]
    cases (pathStart importer).absolute with
    | true =>
      rw [show rootText [] true ++ name = [] ++ '/' :: name from rfl]
      simp only [lastSeparatorFrom_eq [] hname.slash_notMem]
      rfl
    | false =>
      rw [show rootText [] false ++ name = name from rfl]
      simp only [lastSeparatorFrom_plain hname.slash_notMem]
      rfl
  · rw [habsolute (by simp [hd]), hd]
    rw [show rootText [letter, ':'] true ++ name = [letter, ':'] ++ '/' :: name from rfl]
    simp only [lastSeparatorFrom_eq [letter, ':'] hname.slash_notMem]
    rfl

/-! ## The path of a module -/

/-- The first two characters of a relative specifier. -/
theorem specifier_begins {specifier : List Char} (h : specifierIsRelative specifier = true) :
    specifier.head? = some '.' ∧ specifier[1]? ≠ some ':' := by
  unfold specifierIsRelative at h
  split at h
  · simp
  · next separator rest _ =>
    refine ⟨rfl, ?_⟩
    rintro hcolon
    obtain rfl : separator = ':' := by simpa using hcolon
    exact absurd h (by decide)
  · exact absurd h (by simp)

/-- The names of the directory of a file can stand as names. -/
theorem isPathName_fileDirectory (importer : List Char) :
    ∀ name ∈ (fileDirectory importer).names, IsPathName name :=
  fun _ hname => isPathName_of_mem (List.mem_of_mem_tail hname)

/-- The components of the directory of a file lead to the directory. -/
theorem ofComponents_fileDirectory (importer : List Char) :
    Walk.ofComponents (pathStart importer).absolute (fileDirectory importer).components =
      fileDirectory importer :=
  Walk.ofComponents_components _ _ ups_pathWalk

/-- A module is named by the normal form of a path that starts as the importer does and follows
the specifier from the directory of the importer. -/
theorem RootKept.exists_module_path {importer specifier : List Char} (hroot : RootKept importer)
    (hfile : NamesFile importer) (hrelative : specifierIsRelative specifier = true) :
    ∃ path, resolveModulePath importer specifier = some (normalizePath path) ∧
      (pathStart path).drive = (pathStart importer).drive ∧
      (pathStart path).absolute = (pathStart importer).absolute ∧
      pathWalk path = (componentsOf specifier).foldl
        (Walk.step (pathStart importer).absolute) (fileDirectory importer) := by
  obtain ⟨hhead, hsecond⟩ := specifier_begins hrelative
  have habsolute := hroot.absolute_of_drive hfile
  have hcomponents := map_pathComponent_walkParts (isPathName_fileDirectory importer)
  have hwalk := ofComponents_fileDirectory importer
  -- whatever the directory is, the path is a start and a text that leads through the directory
  suffices h : ∃ text, (if directoryOfPath importer = [] then specifier
        else directoryOfPath importer ++ '/' :: specifier) =
          rootText (pathStart importer).drive (pathStart importer).absolute ++ text ∧
      ((pathStart importer).drive = [] → if (pathStart importer).absolute then
        text.head? ≠ some ':' else text[1]? ≠ some ':' ∧
          ∀ character ∈ text.head?, pathCharacterIsSeparator character = false) ∧
      Walk.ofComponents (pathStart importer).absolute (componentsOf text) =
        (componentsOf specifier).foldl (Walk.step (pathStart importer).absolute)
          (fileDirectory importer) by
    obtain ⟨text, heq, hfirst, htext⟩ := h
    have hstart := pathStart_rootText (drive_cases importer) habsolute hfirst
    refine ⟨_, ?_, by rw [hstart], by rw [hstart], ?_⟩
    · unfold resolveModulePath
      rw [if_pos hrelative, ← heq]
      simp only
      split <;> rfl
    · unfold pathWalk
      rw [hstart]
      exact htext
  by_cases hnil : walkParts (fileDirectory importer) = []
  · rw [hnil] at hcomponents
    rw [← hcomponents] at hwalk
    have hempty : fileDirectory importer = ⟨0, []⟩ := hwalk.symm
    rw [hroot.directoryOfPath_root hfile hnil, hempty]
    rcases drive_cases importer with hd | ⟨letter, hd⟩
    · rw [hd]
      cases habs : (pathStart importer).absolute with
      | true =>
        refine ⟨'/' :: specifier, by simp [rootText], by simp, ?_⟩
        rw [← List.nil_append ('/' :: specifier), componentsOf_append]
        simp [componentsOf, pathComponent, Walk.ofComponents, Walk.step]
      | false =>
        refine ⟨specifier, by simp [rootText], fun _ => ?_, rfl⟩
        simpa [hhead] using ⟨hsecond, by decide⟩
    · rw [habsolute (by simp [hd]), hd]
      exact ⟨specifier, by simp [rootText], by simp, rfl⟩
  · have hparts := isPathPart_fileDirectory hfile
    obtain ⟨name, hname⟩ := exists_walkParts_eq hfile
    refine ⟨joinParts (walkParts (fileDirectory importer)) ++ '/' :: specifier, ?_, ?_, ?_⟩
    · obtain ⟨part, parts, heq⟩ := List.exists_cons_of_ne_nil hnil
      have hpart := (hparts part (heq ▸ List.mem_cons_self)).1
      rw [hroot.directoryOfPath_eq hfile hnil, if_neg (by simp [heq, joinParts, hpart]),
        List.append_assoc]
    · intro hd
      have hfirst := hroot.first hd
      have hhead? : (walkParts (pathWalk importer)).head? =
          (walkParts (fileDirectory importer)).head? := by
        rw [hname, List.head?_append_of_ne_nil _ hnil]
      rw [hhead?] at hfirst
      cases habs : (pathStart importer).absolute with
      | true =>
        rw [habs] at hfirst
        exact head?_joinParts hparts (by simp) (by simpa using hfirst)
      | false =>
        rw [habs] at hfirst
        exact getElem?_one_joinParts hparts (.inr rfl) (by simpa using hfirst) hnil
    · rw [componentsOf_append, Walk.ofComponents_append]
      congr 1
      rw [componentsOf, splitOnP_joinParts hnil hparts, hcomponents]
      exact hwalk

/-! ## Where a specifier leads -/

/-- The names of a module path are those of its target from the root. -/
theorem moduleTarget_directory_of_absolute {importer : List Char}
    (habsolute : (pathStart importer).absolute = true) (directory : List (List Char))
    (specifier : List Char) :
    (moduleTarget directory importer specifier).directory =
      ((componentsOf specifier).foldl (Walk.step true) (fileDirectory importer)).names := by
  unfold moduleTarget pathTarget fileDirectory pathWalk Walk.ofComponents
  rw [Walk.names_foldl_step, Walk.names_foldl_step]
  simp only [habsolute, if_true]

/-- The module path leads from every directory to the target. -/
theorem moduleTarget_directory_of_relative {importer : List Char} (hfile : NamesFile importer)
    (hrelative : (pathStart importer).absolute = false) (directory : List (List Char))
    (specifier : List Char) :
    (moduleTarget directory importer specifier).directory =
      ((componentsOf specifier).foldl (Walk.step false) (fileDirectory importer)).apply
        directory := by
  rw [Walk.apply_foldl_step]
  unfold moduleTarget pathTarget
  simp only [hrelative, Bool.false_eq_true, if_false]
  congr 1
  unfold NamesFile at hfile
  unfold fileDirectory
  unfold pathWalk at hfile ⊢
  rw [hrelative] at hfile ⊢
  rw [Walk.resolve_eq_apply]
  obtain ⟨name, names, hnames⟩ := List.exists_cons_of_ne_nil hfile
  simp [Walk.apply, hnames]

/-- Two specifiers that lead to the same place from the directories of two importers are the same
walk from the same start. -/
theorem foldl_eq_of_moduleTarget_eq {importer₁ importer₂ specifier₁ specifier₂ : List Char}
    (hfile₁ : NamesFile importer₁) (hfile₂ : NamesFile importer₂)
    (htarget : ∀ directory, moduleTarget directory importer₁ specifier₁ =
      moduleTarget directory importer₂ specifier₂)
    (habs : (pathStart importer₁).absolute = (pathStart importer₂).absolute) :
    (componentsOf specifier₁).foldl (Walk.step (pathStart importer₁).absolute)
        (fileDirectory importer₁) =
      (componentsOf specifier₂).foldl (Walk.step (pathStart importer₂).absolute)
        (fileDirectory importer₂) := by
  have hdirectory := fun directory => congrArg PathTarget.directory (htarget directory)
  cases hroot : (pathStart importer₁).absolute with
  | true =>
    have hroot₂ : (pathStart importer₂).absolute = true := habs ▸ hroot
    rw [hroot₂]
    ext1
    · rw [Walk.ups_foldl_step_true, Walk.ups_foldl_step_true]
      exact (ups_pathWalk hroot).trans (ups_pathWalk hroot₂).symm
    · rw [← moduleTarget_directory_of_absolute hroot [],
        ← moduleTarget_directory_of_absolute hroot₂ [], hdirectory]
  | false =>
    have hroot₂ : (pathStart importer₂).absolute = false := habs ▸ hroot
    rw [hroot₂]
    refine Walk.ext_of_apply fun directory => ?_
    rw [← moduleTarget_directory_of_relative hfile₁ hroot,
      ← moduleTarget_directory_of_relative hfile₂ hroot₂, hdirectory]

/-- Two specifiers that lead to the same place from two importers name the same module. -/
theorem resolveModulePath_congr {importer₁ importer₂ specifier₁ specifier₂ : List Char}
    (hroot₁ : RootKept importer₁) (hroot₂ : RootKept importer₂)
    (hfile₁ : NamesFile importer₁) (hfile₂ : NamesFile importer₂)
    (hrelative₁ : specifierIsRelative specifier₁ = true)
    (hrelative₂ : specifierIsRelative specifier₂ = true)
    (htarget : ∀ directory, moduleTarget directory importer₁ specifier₁ =
      moduleTarget directory importer₂ specifier₂) :
    resolveModulePath importer₁ specifier₁ = resolveModulePath importer₂ specifier₂ := by
  have hdrive : (pathStart importer₁).drive = (pathStart importer₂).drive :=
    congrArg PathTarget.drive (htarget [])
  have habs : (pathStart importer₁).absolute = (pathStart importer₂).absolute :=
    congrArg PathTarget.absolute (htarget [])
  obtain ⟨path₁, heq₁, hd₁, ha₁, hwalk₁⟩ := hroot₁.exists_module_path hfile₁ hrelative₁
  obtain ⟨path₂, heq₂, hd₂, ha₂, hwalk₂⟩ := hroot₂.exists_module_path hfile₂ hrelative₂
  have hwalk := foldl_eq_of_moduleTarget_eq hfile₁ hfile₂ htarget habs
  rw [heq₁, heq₂, normalizePath_eq, normalizePath_eq, hd₁, hd₂, ha₁, ha₂, hwalk₁, hwalk₂, hwalk,
    hdrive, habs]

/-- `normalizePath` returns a canonical path of the same location, and returns it unchanged,
exactly for the paths whose start is kept; and two specifiers that lead to the same file from
importers of this kind name the same module. -/
theorem normalizePath_canonical_iff (path : List Char) :
    (PathFaithful path ↔ RootKept path) ∧
      ∀ importer₁ importer₂ specifier₁ specifier₂, RootKept importer₁ → RootKept importer₂ →
        NamesFile importer₁ → NamesFile importer₂ →
        specifierIsRelative specifier₁ = true → specifierIsRelative specifier₂ = true →
        (∀ directory, moduleTarget directory importer₁ specifier₁ =
          moduleTarget directory importer₂ specifier₂) →
        resolveModulePath importer₁ specifier₁ = resolveModulePath importer₂ specifier₂ :=
  ⟨⟨PathFaithful.rootKept, RootKept.pathFaithful⟩, fun _ _ _ _ => resolveModulePath_congr⟩

/-- `../l/./b` from `C:/l/x/../a` and `./l/b` from `C:/m` name one module. -/
theorem normalizePath_canonical_iff_two_importers :
    PathFaithful "C:/l/x/../a".toList ∧
      resolveModulePath "C:/l/x/../a".toList "../l/./b".toList =
        resolveModulePath "C:/m".toList "./l/b".toList := by
  have hwalk₁ : pathWalk "C:/l/x/../a".toList = ⟨0, [['a'], ['l']]⟩ := by
    simp [pathWalk, pathStart, startAfter, pathCharacterIsSeparator, componentsOf, pathComponent,
      List.splitOnP_cons_eq_if_modifyHead, Walk.ofComponents, Walk.step]
  have hwalk₂ : pathWalk "C:/m".toList = ⟨0, [['m']]⟩ := by
    simp [pathWalk, pathStart, startAfter, pathCharacterIsSeparator, componentsOf, pathComponent,
      List.splitOnP_cons_eq_if_modifyHead, Walk.ofComponents, Walk.step]
  have hroot₁ : RootKept "C:/l/x/../a".toList :=
    ⟨by decide, fun _ => Or.inl (by decide), fun h => absurd h (by decide)⟩
  have hroot₂ : RootKept "C:/m".toList :=
    ⟨by decide, fun _ => Or.inl (by decide), fun h => absurd h (by decide)⟩
  refine ⟨(normalizePath_canonical_iff _).1.mpr hroot₁,
    (normalizePath_canonical_iff "C:/m".toList).2 _ _ _ _ hroot₁ hroot₂
      (by rw [NamesFile, hwalk₁]; decide) (by rw [NamesFile, hwalk₂]; decide) rfl rfl
      fun directory => ?_⟩
  simp [moduleTarget, pathTarget, pathStart, startAfter, pathCharacterIsSeparator, componentsOf,
    pathComponent, List.splitOnP_cons_eq_if_modifyHead, resolve, enter]

/-- The drive of `C:foo` gets a separator: the name in the directory of the drive becomes a name
at its root, and `C:..` is not returned unchanged either. -/
theorem not_pathFaithful_drive :
    normalizePath ['C', ':', 'f', 'o', 'o'] = ['C', ':', '/', 'f', 'o', 'o'] ∧
      ¬SameLocation (normalizePath ['C', ':', 'f', 'o', 'o']) ['C', ':', 'f', 'o', 'o'] ∧
      normalizePath (normalizePath ['C', ':', '.', '.']) ≠ normalizePath ['C', ':', '.', '.'] ∧
      ¬∀ path, PathFaithful path := by
  have hlocation : ¬SameLocation (normalizePath ['C', ':', 'f', 'o', 'o'])
      ['C', ':', 'f', 'o', 'o'] := fun h =>
    absurd (congrArg PathTarget.absolute (h [])) (by decide)
  exact ⟨by decide, hlocation, by decide, fun h => hlocation (h _).location⟩

end Minyar

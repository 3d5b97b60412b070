import Mathlib.Data.List.Basic
import Mathlib.Tactic.Common
import Minyar.Library.ComponentWalk

/-!
# Paths of modules

`normalizePath`, `directoryOfPath` and `resolveModulePath` of the compiler on texts of characters.
`normalizePath` reads the start of the path, a drive and a separator, then collects components in
slots that a `..` gives back for reuse, and writes the slots in use behind the start.

`normalizePath_eq` says that the slots hold the walk of the components: the result is `writePath`
of the start and of the `walkParts` of `pathWalk`.
-/

namespace Minyar

/-! ## The code -/

/-- The characters between two components. -/
def pathCharacterIsSeparator (character : Char) : Bool :=
  character == '/' || character == '\\'

/-- What `normalizePath` reads before its loop over the components. -/
structure PathStart where
  /-- The drive with its colon, or nothing. -/
  drive : List Char
  /-- Whether a separator follows. -/
  absolute : Bool
  /-- The text of the components. -/
  rest : List Char

/-- The start of a path behind its drive. -/
def startAfter (drive : List Char) : List Char → PathStart
  | [] => ⟨drive, false, []⟩
  | character :: rest =>
    if pathCharacterIsSeparator character then ⟨drive, true, rest⟩
    else ⟨drive, false, character :: rest⟩

/-- The start of a path: whatever stands before a colon in the second place is its drive. -/
def pathStart : List Char → PathStart
  | letter :: second :: rest =>
    if second = ':' then startAfter [letter, ':'] rest else startAfter [] (letter :: second :: rest)
  | path => startAfter [] path

/-- The slots of the components, of which only the first `activeParts` are in use. -/
structure PathParts where
  /-- All the slots. -/
  parts : List (List Char)
  /-- The number of slots in use. -/
  activeParts : Nat
  /-- No more slots are in use than there are. -/
  active_le : activeParts ≤ parts.length

namespace PathParts

/-- No slots. -/
def empty : PathParts := ⟨[], 0, Nat.le_refl 0⟩

/-- A component at the end, in the next slot or in a new one. -/
def push (slots : PathParts) (part : List Char) : PathParts :=
  if h : slots.activeParts < slots.parts.length then
    ⟨slots.parts.set slots.activeParts part, slots.activeParts + 1, by
      rw [List.length_set]
      exact h⟩
  else
    ⟨slots.parts ++ [part], slots.activeParts + 1, by
      rw [List.length_append]
      exact Nat.add_le_add_right slots.active_le 1⟩

/-- The last component is given up. -/
def pop (slots : PathParts) : PathParts :=
  ⟨slots.parts, slots.activeParts - 1, Nat.le_trans (Nat.sub_le _ _) slots.active_le⟩

/-- The end of a component. -/
def finish (absolute : Bool) (slots : PathParts) (part : List Char) : PathParts :=
  if part = ['.', '.'] then
    if 0 < slots.activeParts ∧ slots.parts[slots.activeParts - 1]? ≠ some ['.', '.'] then
      slots.pop
    else if absolute then slots
    else slots.push part
  else if part ≠ [] ∧ part ≠ ['.'] then slots.push part
  else slots

/-- The components in use. -/
def active (slots : PathParts) : List (List Char) :=
  slots.parts.take slots.activeParts

end PathParts

/-- The loop over the characters: `part` is the component read so far. -/
def normalizeFrom (absolute : Bool) : List Char → List Char → PathParts → PathParts
  | [], part, slots => slots.finish absolute part
  | character :: rest, part, slots =>
    if pathCharacterIsSeparator character then
      normalizeFrom absolute rest [] (slots.finish absolute part)
    else normalizeFrom absolute rest (part ++ [character]) slots

/-- One component written behind the result. -/
def appendPart (result part : List Char) : List Char :=
  if result ≠ [] ∧ result.getLast? ≠ some '/' then result ++ '/' :: part else result ++ part

/-- The text of a start and of components. -/
def writePath (drive : List Char) (absolute : Bool) (parts : List (List Char)) : List Char :=
  let result := parts.foldl appendPart (if absolute then drive ++ ['/'] else drive)
  if result = [] then ['.'] else result

/-- `normalizePath` of the compiler. -/
def normalizePath (path : List Char) : List Char :=
  let start := pathStart path
  writePath start.drive start.absolute
    (normalizeFrom start.absolute start.rest [] PathParts.empty).active

/-- The place of the last `/` of a text, where `found` is the last one before it. -/
def lastSeparatorFrom : List Char → Nat → Option Nat → Option Nat
  | [], _, found => found
  | character :: rest, position, found =>
    lastSeparatorFrom rest (position + 1) (if character = '/' then some position else found)

/-- `directoryOfPath` of the compiler. -/
def directoryOfPath (path : List Char) : List Char :=
  let normalized := normalizePath path
  match lastSeparatorFrom normalized 0 none with
  | none => []
  | some 0 => ['/']
  | some position => normalized.take position

/-- Whether a module specifier begins with `./` or `../`. -/
def specifierIsRelative : List Char → Bool
  | '.' :: '.' :: separator :: _ => pathCharacterIsSeparator separator
  | '.' :: separator :: _ => pathCharacterIsSeparator separator
  | _ => false

/-- `resolveModulePath` of the compiler, with nothing for the failure on a package module. -/
def resolveModulePath (importer specifier : List Char) : Option (List Char) :=
  if specifierIsRelative specifier then
    let directory := directoryOfPath importer
    if directory = [] then some (normalizePath specifier)
    else some (normalizePath (directory ++ '/' :: specifier))
  else none

/-! ## The components of a path -/

/-- What a component of a path does. -/
def pathComponent (part : List Char) : Component (List Char) :=
  if part = [] ∨ part = ['.'] then .stay
  else if part = ['.', '.'] then .up
  else .name part

/-- The components of a text behind its start. -/
def componentsOf (rest : List Char) : List (Component (List Char)) :=
  (rest.splitOnP pathCharacterIsSeparator).map pathComponent

/-- The walk of a path. -/
def pathWalk (path : List Char) : Walk (List Char) :=
  Walk.ofComponents (pathStart path).absolute (componentsOf (pathStart path).rest)

/-- The components of a walk as texts. -/
def walkParts (walk : Walk (List Char)) : List (List Char) :=
  List.replicate walk.ups ['.', '.'] ++ walk.names.reverse

/-- What can stand as the name of a directory or a file. -/
structure IsPathName (name : List Char) : Prop where
  /-- It is not empty. -/
  ne_nil : name ≠ []
  /-- It is not the directory itself. -/
  ne_stay : name ≠ ['.']
  /-- It is not the parent. -/
  ne_up : name ≠ ['.', '.']
  /-- It has no separator. -/
  plain : ∀ character ∈ name, pathCharacterIsSeparator character = false

/-! ## The slots hold a walk -/

namespace PathParts

@[simp] theorem active_empty : empty.active = [] := rfl

/-- A pushed component stands at the end. -/
@[simp] theorem active_push (slots : PathParts) (part : List Char) :
    (slots.push part).active = slots.active ++ [part] := by
  unfold push active
  split
  · next h =>
    rw [List.take_succ_eq_append_getElem (by rw [List.length_set]; exact h),
      List.take_set_of_le (Nat.le_refl _), List.getElem_set_self]
  · next h =>
    have heq : slots.activeParts = slots.parts.length :=
      Nat.le_antisymm slots.active_le (Nat.le_of_not_lt h)
    simp only [heq, List.take_length]
    rw [List.take_of_length_le (by simp)]

/-- Giving up the last component. -/
@[simp] theorem active_pop (slots : PathParts) : slots.pop.active = slots.active.dropLast := by
  unfold pop active
  rw [List.dropLast_eq_take, List.length_take_of_le slots.active_le, List.take_take,
    Nat.min_eq_left (Nat.sub_le _ _)]

/-- The length of the list in use. -/
theorem length_active (slots : PathParts) : slots.active.length = slots.activeParts :=
  List.length_take_of_le slots.active_le

/-- The slot that the code compares is the last one in use. -/
theorem getElem?_last (slots : PathParts) (h : 0 < slots.activeParts) :
    slots.parts[slots.activeParts - 1]? = slots.active.getLast? := by
  rw [List.getLast?_eq_getElem?, length_active]
  unfold active
  rw [List.getElem?_take_of_lt (by omega)]

/-- The slots hold a walk of names. -/
structure Holds (absolute : Bool) (slots : PathParts) (walk : Walk (List Char)) : Prop where
  /-- The slots in use are the components of the walk. -/
  active : slots.active = walkParts walk
  /-- No name is the parent. -/
  names : ∀ name ∈ walk.names, name ≠ ['.', '.']
  /-- A walk from the root has no steps up. -/
  ups : absolute = true → walk.ups = 0

/-- There is something to give up exactly when the walk ends in a name. -/
theorem Holds.ends_in_name {absolute : Bool} {slots : PathParts} {walk : Walk (List Char)}
    (h : slots.Holds absolute walk) :
    (0 < slots.activeParts ∧ slots.parts[slots.activeParts - 1]? ≠ some ['.', '.']) ↔
      walk.names ≠ [] := by
  have hactive := h.active
  have hlength := slots.length_active
  rcases walk with ⟨ups, _ | ⟨name, names⟩⟩
  · simp only [ne_eq, not_true_eq_false, iff_false, not_and, not_not]
    intro hpos
    rw [slots.getElem?_last hpos, hactive]
    rw [hactive] at hlength
    simp only [walkParts, List.reverse_nil, List.append_nil, List.length_replicate] at hlength ⊢
    rw [List.getLast?_replicate, if_neg (by omega)]
  · have hlast : slots.active.getLast? = some name := by simp [hactive, walkParts]
    have hpos : 0 < slots.activeParts := by
      rw [← hlength, hactive]
      simp only [walkParts, List.length_append, List.length_reverse, List.length_cons]
      omega
    rw [slots.getElem?_last hpos, hlast]
    simpa [hpos] using h.names name (by simp)

/-- The end of a component is one step of the walk. -/
theorem Holds.finish {absolute : Bool} {slots : PathParts} {walk : Walk (List Char)}
    (h : slots.Holds absolute walk) (part : List Char) :
    (slots.finish absolute part).Holds absolute (walk.step absolute (pathComponent part)) := by
  by_cases hup : part = ['.', '.']
  · subst hup
    have hcomponent : pathComponent ['.', '.'] = .up := rfl
    rw [hcomponent]
    unfold PathParts.finish
    rw [if_pos rfl]
    by_cases hnames : walk.names = []
    · rw [if_neg (by rw [h.ends_in_name]; exact not_not.mpr hnames)]
      rcases walk with ⟨ups, names⟩
      obtain rfl : names = [] := hnames
      cases absolute with
      | true => exact h
      | false =>
        refine ⟨?_, by simp [Walk.step], by simp⟩
        simp [h.active, walkParts, Walk.step, List.replicate_succ']
    · rw [if_pos (h.ends_in_name.mpr hnames)]
      rcases walk with ⟨ups, _ | ⟨name, names⟩⟩
      · exact absurd rfl hnames
      · refine ⟨?_, fun name hname => h.names name (List.mem_cons_of_mem _ hname), h.ups⟩
        rw [active_pop, h.active]
        simp only [walkParts, List.reverse_cons, ← List.append_assoc, Walk.step,
          List.dropLast_concat]
  · unfold PathParts.finish pathComponent
    rw [if_neg hup, if_neg hup]
    by_cases hstay : part = [] ∨ part = ['.']
    · rw [if_pos hstay, if_neg (by rintro ⟨h₁, h₂⟩; exact hstay.elim h₁ h₂)]
      exact h
    · rw [if_neg hstay, if_pos (not_or.mp hstay)]
      refine ⟨?_, ?_, h.ups⟩
      · simp [h.active, walkParts, Walk.step]
      · intro name hname
        rcases List.mem_cons.mp hname with rfl | hname
        · exact hup
        · exact h.names name hname

end PathParts

/-- The loop over the characters follows the components of the text that is left. -/
theorem normalizeFrom_holds {absolute : Bool} (rest part : List Char) {slots : PathParts}
    {walk : Walk (List Char)} (h : slots.Holds absolute walk)
    (hpart : ∀ character ∈ part, pathCharacterIsSeparator character = false) :
    (normalizeFrom absolute rest part slots).Holds absolute
      ((componentsOf (part ++ rest)).foldl (Walk.step absolute) walk) := by
  induction rest generalizing part slots walk with
  | nil =>
    rw [List.append_nil, componentsOf, List.splitOnP_eq_singleton hpart]
    exact h.finish part
  | cons character rest ih =>
    unfold normalizeFrom
    split
    · next hsep =>
      rw [componentsOf, List.splitOnP_append_cons_of_forall_mem hpart character hsep]
      exact ih [] (h.finish part) (by simp)
    · next hsep =>
      have happ := ih (part ++ [character]) h (by
        intro c hc
        rcases List.mem_append.mp hc with hc | hc
        · exact hpart c hc
        · rw [List.mem_singleton.mp hc]
          exact Bool.eq_false_iff.mpr hsep)
      rwa [List.append_assoc] at happ

/-- `normalizePath` writes the walk of the path behind its start. -/
theorem normalizePath_eq (path : List Char) :
    normalizePath path =
      writePath (pathStart path).drive (pathStart path).absolute (walkParts (pathWalk path)) := by
  have hempty : PathParts.empty.Holds (pathStart path).absolute ⟨0, []⟩ :=
    ⟨rfl, by simp, fun _ => rfl⟩
  have h := normalizeFrom_holds (pathStart path).rest [] hempty (by simp)
  unfold normalizePath
  simp only [h.active]
  rfl

end Minyar

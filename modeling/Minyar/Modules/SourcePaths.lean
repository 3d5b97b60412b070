import Minyar.Modules.CanonicalPaths
import Minyar.Text.Decode
import Mathlib.Data.List.TakeWhile

/-!
# The path of the entry

`absolute_source` of the build driver makes the path of the entry absolute.  It scans the bytes of
the path, keeps the components read so far in a buffer, and backs up over the last of them at a
`..`.  The driver keys its cache by the result and hands it to the compiler, which normalizes it
once more.

`absoluteSource_eq` says that the scanner computes the walk of the path from the root.  The
compiler agrees with it unless it reads a drive: `EntryRootKept` is the exact condition.
-/

namespace Minyar

/-! ## The code of the driver -/

/-- The byte between two components. -/
def slashByte : UInt8 := 0x2f

/-- `while (used > 1 && out[used - 1] != '/') used--` -/
def backUp (out : List UInt8) : Nat → Nat
  | 0 => 0
  | 1 => 1
  | used + 2 => if out[used + 1]? = some slashByte then used + 2 else backUp out (used + 1)

/-- A `..` takes the last component away. -/
def leaveComponent (out : List UInt8) : List UInt8 :=
  if 1 < out.length then
    let used := backUp out out.length
    if 1 < used then out.take (used - 1) else out.take used
  else out

/-- What one component does to the buffer. -/
def placeComponent (out part : List UInt8) : List UInt8 :=
  if part = [] ∨ part = [0x2e] then out
  else if part = [0x2e, 0x2e] then leaveComponent out
  else if 1 < out.length then out ++ slashByte :: part
  else out ++ part

/-- Whether a byte stands between two components. -/
def isSlashByte (b : UInt8) : Bool := b == slashByte

/-- The loop over the bytes that are left. -/
def absoluteFrom (raw out : List UInt8) : List UInt8 :=
  if _h : raw = [] then out
  else
    let rest := raw.dropWhile isSlashByte
    absoluteFrom (rest.dropWhile (!isSlashByte ·))
      (placeComponent out (rest.takeWhile (!isSlashByte ·)))
termination_by raw.length
decreasing_by
  obtain ⟨b, raw, rfl⟩ := List.exists_cons_of_ne_nil _h
  have hlength : ∀ (p : UInt8 → Bool) (bytes : List UInt8),
      (bytes.dropWhile p).length ≤ bytes.length := fun p bytes =>
    (List.dropWhile_sublist p).length_le
  by_cases hb : isSlashByte b
  · have h₁ := hlength (!isSlashByte ·) (raw.dropWhile isSlashByte)
    have h₂ := hlength isSlashByte raw
    rw [List.dropWhile_cons_of_pos hb, List.length_cons]
    omega
  · have h₁ := hlength (!isSlashByte ·) raw
    rw [List.dropWhile_cons_of_neg hb, List.dropWhile_cons_of_pos (by simpa using hb),
      List.length_cons]
    omega

/-- The path before its components are resolved: relative paths are joined to the current
directory. -/
def rawSource {α : Type} [DecidableEq α] (slash : α) (directory source : List α) : List α :=
  if source.head? = some slash then source else directory ++ slash :: source

/-- `absolute_source` of the driver. -/
def absoluteSource (directory source : List UInt8) : List UInt8 :=
  absoluteFrom (rawSource slashByte directory source) [slashByte]

/-! ## The scanner reads components -/

/-- Nothing is left. -/
@[simp] theorem absoluteFrom_nil (out : List UInt8) : absoluteFrom [] out = out := by
  rw [absoluteFrom, dif_pos rfl]

/-- One turn of the loop. -/
theorem absoluteFrom_of_ne_nil {raw : List UInt8} (h : raw ≠ []) (out : List UInt8) :
    absoluteFrom raw out =
      absoluteFrom ((raw.dropWhile isSlashByte).dropWhile (!isSlashByte ·))
        (placeComponent out ((raw.dropWhile isSlashByte).takeWhile (!isSlashByte ·))) := by
  rw [absoluteFrom, dif_neg h]

/-- Slashes in front are skipped. -/
theorem absoluteFrom_slash (raw out : List UInt8) :
    absoluteFrom (slashByte :: raw) out = absoluteFrom raw out := by
  have hskip : (slashByte :: raw).dropWhile isSlashByte = raw.dropWhile isSlashByte :=
    List.dropWhile_cons_of_pos (by simp [isSlashByte])
  rw [absoluteFrom_of_ne_nil (List.cons_ne_nil _ _), hskip]
  by_cases hraw : raw = []
  · subst hraw
    simp [placeComponent]
  · rw [← absoluteFrom_of_ne_nil hraw]

/-- A component is placed when the scanner has read it. -/
theorem absoluteFrom_component {part rest : List UInt8} (hne : part ≠ [])
    (hpart : ∀ b ∈ part, isSlashByte b = false) (hrest : rest = [] ∨ rest.head? = some slashByte)
    (out : List UInt8) :
    absoluteFrom (part ++ rest) out = absoluteFrom rest (placeComponent out part) := by
  obtain ⟨b, part, rfl⟩ := List.exists_cons_of_ne_nil hne
  have hall : ∀ c ∈ b :: part, (!isSlashByte c) = true := fun c hc => by rw [hpart c hc]; rfl
  have hstop : rest.dropWhile (!isSlashByte ·) = rest ∧ rest.takeWhile (!isSlashByte ·) = [] := by
    rcases hrest with rfl | hrest
    · exact ⟨rfl, rfl⟩
    · obtain ⟨c, rest, rfl⟩ := List.exists_cons_of_ne_nil
        (show rest ≠ [] by rintro rfl; simp at hrest)
      obtain rfl : c = slashByte := by simpa using hrest
      constructor
      · rw [List.dropWhile_cons_of_neg (by simp [isSlashByte])]
      · rw [List.takeWhile_cons_of_neg (by simp [isSlashByte])]
  rw [absoluteFrom_of_ne_nil (by simp)]
  have hskip : ((b :: part) ++ rest).dropWhile isSlashByte = (b :: part) ++ rest := by
    rw [List.cons_append, List.dropWhile_cons_of_neg (by simp [hpart b List.mem_cons_self])]
  rw [hskip, List.dropWhile_append_of_pos hall, List.takeWhile_append_of_pos hall, hstop.1, hstop.2,
    List.append_nil]

/-- The scanner places the components one after the other. -/
theorem absoluteFrom_eq_foldl (raw out : List UInt8) :
    absoluteFrom raw out = (raw.splitOnP isSlashByte).foldl placeComponent out := by
  induction hn : raw.length using Nat.strongRecOn generalizing raw out with
  | ind n ih =>
    rcases raw with _ | ⟨b, raw⟩
    · simp [placeComponent]
    · by_cases hb : isSlashByte b
      · obtain rfl : b = slashByte := by simpa [isSlashByte] using hb
        rw [absoluteFrom_slash, List.splitOnP_cons_eq_if_modifyHead, if_pos hb, List.foldl_cons]
        exact ih raw.length (by simp [← hn]) raw _ rfl
      · -- the component goes up to the next slash or to the end
        have hsplit := List.takeWhile_append_dropWhile (p := (!isSlashByte ·)) (l := b :: raw)
        set part := (b :: raw).takeWhile (!isSlashByte ·) with hpart
        set rest := (b :: raw).dropWhile (!isSlashByte ·) with hrest
        have hne : part ≠ [] := by
          rw [hpart, List.takeWhile_cons_of_pos (by simpa using hb)]
          simp
        have hplain : ∀ c ∈ part, isSlashByte c = false := fun c hc => by
          simpa using List.mem_takeWhile_imp hc
        have hhead : rest = [] ∨ rest.head? = some slashByte := by
          by_cases hnil : rest = []
          · exact .inl hnil
          · right
            have hstop := List.head?_dropWhile_not (!isSlashByte ·) (b :: raw)
            obtain ⟨c, tail, hcons⟩ := List.exists_cons_of_ne_nil hnil
            rw [← hrest, hcons] at hstop
            rw [hcons]
            simpa [isSlashByte] using hstop
        rw [← hsplit, absoluteFrom_component hne hplain hhead]
        rcases hhead with hnil | hhead
        · rw [hnil, List.append_nil, List.splitOnP_eq_singleton hplain, absoluteFrom_nil]
          rfl
        · obtain ⟨c, tail, hcons⟩ := List.exists_cons_of_ne_nil
            (show rest ≠ [] by intro hnil; simp [hnil] at hhead)
          obtain rfl : c = slashByte := by simpa [hcons] using hhead
          have hlength : tail.length < n := by
            rw [← hn, ← hsplit, hcons, List.length_append, List.length_cons]
            omega
          rw [hcons, absoluteFrom_slash, ih _ hlength _ _ rfl,
            List.splitOnP_append_cons_of_forall_mem hplain slashByte (by simp [isSlashByte])]
          rfl

/-! ## The bytes of a text -/

/-- A slash is its own encoding. -/
theorem utf8_slash (text : List Char) : utf8 ('/' :: text) = slashByte :: utf8 text := rfl

/-- A text without a slash has no such byte. -/
theorem isSlashByte_of_mem_utf8 {text : List Char} (h : '/' ∉ text) :
    ∀ b ∈ utf8 text, isSlashByte b = false := by
  intro b hb
  by_contra hslash
  obtain rfl : b = slashByte := by simpa [isSlashByte] using hslash
  exact h ((mem_utf8_iff (by decide)).mp hb)

/-- Components of bytes behind one plain byte sequence. -/
theorem splitOnP_append_plain {bytes : List UInt8} (h : ∀ b ∈ bytes, isSlashByte b = false)
    (rest : List UInt8) :
    (bytes ++ rest).splitOnP isSlashByte = (rest.splitOnP isSlashByte).modifyHead (bytes ++ ·) := by
  induction bytes with
  | nil => cases hsplit : rest.splitOnP isSlashByte <;> simp [hsplit]
  | cons b bytes ih =>
    rw [List.cons_append, List.splitOnP_cons_eq_if_modifyHead,
      ih fun c hc => h c (List.mem_cons_of_mem _ hc), if_neg (by simp [h b List.mem_cons_self])]
    cases hsplit : rest.splitOnP isSlashByte <;> simp

/-- Without backslashes the components of the bytes are the bytes of the components. -/
theorem splitOnP_utf8 {raw : List Char} (h : '\\' ∉ raw) :
    (utf8 raw).splitOnP isSlashByte = (raw.splitOnP pathCharacterIsSeparator).map utf8 := by
  induction raw with
  | nil => rfl
  | cons c raw ih =>
    have ih := ih fun hmem => h (List.mem_cons_of_mem _ hmem)
    have hne : c ≠ '\\' := fun heq => h (heq ▸ List.mem_cons_self)
    by_cases hc : c = '/'
    · subst hc
      rw [utf8_slash, List.splitOnP_cons_eq_if_modifyHead, if_pos (by simp [isSlashByte]), ih,
        List.splitOnP_cons_eq_if_modifyHead,
        if_pos (show pathCharacterIsSeparator '/' = true by decide)]
      rfl
    · have hplain : ∀ b ∈ String.utf8EncodeChar c, isSlashByte b = false := by
        have hsingle := isSlashByte_of_mem_utf8 (show '/' ∉ [c] by simpa using Ne.symm hc)
        simpa [utf8_cons] using hsingle
      rw [utf8_cons, splitOnP_append_plain hplain, ih, List.splitOnP_cons_eq_if_modifyHead,
        if_neg (by simp [pathCharacterIsSeparator, hc, hne])]
      cases hsplit : raw.splitOnP pathCharacterIsSeparator <;> simp [utf8_cons]

/-! ## The buffer holds a walk -/

/-- The buffer of the scanner for a list of names, innermost first. -/
def bufferText (names : List (List Char)) : List Char :=
  '/' :: joinParts names.reverse

/-- The buffer has components exactly when there are names. -/
theorem one_lt_length_buffer {names : List (List Char)} (h : ∀ name ∈ names, IsPathName name) :
    1 < (utf8 (bufferText names)).length ↔ names ≠ [] := by
  unfold bufferText
  rw [utf8_slash, List.length_cons]
  constructor
  · rintro hlength rfl
    simp [joinParts] at hlength
  · intro hne
    obtain ⟨first, parts, hparts⟩ := List.exists_cons_of_ne_nil
      (show names.reverse ≠ [] by simpa using hne)
    have hfirst := (h first (List.mem_reverse.mp (hparts ▸ List.mem_cons_self))).ne_nil
    have hle := length_le_utf8 (joinParts names.reverse)
    have hpos : 0 < (joinParts names.reverse).length := by
      rw [hparts]
      exact List.length_pos_iff.mpr (by simp [joinParts, hfirst])
    omega

/-- Backing up stops behind the slash in front of the last component. -/
theorem backUp_eq (front : List UInt8) {back : List UInt8} (h : ∀ b ∈ back, isSlashByte b = false)
    {count : Nat} (hcount : count ≤ back.length) :
    backUp (front ++ slashByte :: back) (front.length + 1 + count) = front.length + 1 := by
  induction count with
  | zero =>
    rcases hfront : front.length with _ | used
    · rfl
    · rw [show used + 1 + 1 + 0 = used + 2 from rfl, backUp, if_pos]
      rw [← hfront]
      simp
  | succ count ih =>
    have hb : (front ++ slashByte :: back)[front.length + 1 + count]? = some back[count] := by
      rw [List.getElem?_append_right (by omega),
        show front.length + 1 + count - front.length = count + 1 by omega,
        List.getElem?_cons_succ]
      exact List.getElem?_eq_getElem _
    have hne : back[count] ≠ slashByte := fun heq => by
      have hplain := h _ (List.getElem_mem (show count < back.length by omega))
      simp [isSlashByte, heq] at hplain
    rw [show front.length + 1 + (count + 1) = front.length + count + 2 by omega, backUp, if_neg]
    · rw [show front.length + count + 1 = front.length + 1 + count by omega]
      exact ih (by omega)
    · rw [show front.length + count + 1 = front.length + 1 + count by omega, hb]
      simpa using hne

/-- The last component is taken away. -/
theorem leaveComponent_eq {name : List Char} {names : List (List Char)}
    (h : ∀ other ∈ name :: names, IsPathName other) :
    leaveComponent (utf8 (bufferText (name :: names))) = utf8 (bufferText names) := by
  have hname := h name List.mem_cons_self
  have hslash : '/' ∉ name := fun hmem => absurd (hname.plain _ hmem) (by decide)
  have hplain := isSlashByte_of_mem_utf8 hslash
  have hlong := (one_lt_length_buffer h).mpr (List.cons_ne_nil _ _)
  have hbuffer : utf8 (bufferText (name :: names)) =
      (if names = [] then [] else utf8 (bufferText names)) ++ slashByte :: utf8 name := by
    split
    · next hnil =>
      subst hnil
      simp [bufferText, joinParts, utf8_slash]
    · next hne =>
      rw [bufferText, List.reverse_cons, joinParts_concat (by simpa using hne), ← utf8_slash,
        ← utf8_append]
      rfl
  unfold leaveComponent
  rw [if_pos hlong]
  have hback := backUp_eq (if names = [] then [] else utf8 (bufferText names)) hplain
    (Nat.le_refl (utf8 name).length)
  have hlength : (utf8 (bufferText (name :: names))).length =
      (if names = [] then [] else utf8 (bufferText names)).length + 1 + (utf8 name).length := by
    rw [hbuffer, List.length_append, List.length_cons]
    omega
  simp only [hlength]
  rw [hbuffer, hback]
  by_cases hnil : names = []
  · simp [hnil, bufferText, joinParts, utf8_slash]
  · have hpos : 0 < (utf8 (bufferText names)).length := by
      rw [bufferText, utf8_slash, List.length_cons]
      omega
    simp [hnil, hpos]

/-- One component is one step of the walk from the root. -/
theorem placeComponent_eq {names : List (List Char)} {part : List Char}
    (h : ∀ name ∈ names, IsPathName name) :
    placeComponent (utf8 (bufferText names)) (utf8 part) =
      utf8 (bufferText (Walk.step true ⟨0, names⟩ (pathComponent part)).names) := by
  have hstay : (utf8 part = [] ∨ utf8 part = [0x2e]) ↔ (part = [] ∨ part = ['.']) :=
    or_congr ⟨fun heq => utf8_injective heq, fun heq => by rw [heq]; rfl⟩
      ⟨fun heq => utf8_injective heq, fun heq => by rw [heq]; rfl⟩
  have hup : utf8 part = [0x2e, 0x2e] ↔ part = ['.', '.'] :=
    ⟨fun heq => utf8_injective heq, fun heq => by rw [heq]; rfl⟩
  unfold placeComponent pathComponent
  simp only [hstay, hup]
  split
  · rfl
  · split
    · rcases names with _ | ⟨name, names⟩
      · rfl
      · exact leaveComponent_eq h
    · simp only [one_lt_length_buffer h]
      split
      · next hne =>
        rw [← utf8_slash, ← utf8_append]
        simp only [bufferText, Walk.step, List.reverse_cons]
        rw [joinParts_concat (by simpa using hne)]
        rfl
      · next hnil =>
        obtain rfl : names = [] := not_not.mp hnil
        rw [← utf8_append]
        simp [bufferText, joinParts, Walk.step]

/-- The scanner computes the walk of its components from the root. -/
theorem foldl_placeComponent (parts : List (List Char)) {names : List (List Char)}
    (h : ∀ name ∈ names, IsPathName name)
    (hparts : ∀ part ∈ parts, ∀ c ∈ part, pathCharacterIsSeparator c = false) :
    (parts.map utf8).foldl placeComponent (utf8 (bufferText names)) =
      utf8 (bufferText ((parts.map pathComponent).foldl (Walk.step true) ⟨0, names⟩).names) := by
  induction parts generalizing names with
  | nil => rfl
  | cons part parts ih =>
    rw [List.map_cons, List.foldl_cons, placeComponent_eq h, List.map_cons, List.foldl_cons]
    have hstep : Walk.step true ⟨0, names⟩ (pathComponent part) =
        ⟨0, (Walk.step true ⟨0, names⟩ (pathComponent part)).names⟩ :=
      Walk.ext (Walk.ups_step_bounded _ _) rfl
    rw [ih ?_ fun other hother => hparts other (List.mem_cons_of_mem _ hother), ← hstep]
    intro name hname
    have hmem : name ∈ ([pathComponent part].foldl (Walk.step true) ⟨0, names⟩).names := hname
    rcases Walk.mem_names_foldl_step hmem with hn | hn
    · exact h name hn
    · exact isPathName_of_pathComponent (hparts part List.mem_cons_self)
        (List.mem_singleton.mp hn).symm

/-- The path of the entry as the driver reads it. -/
def sourceWalk (raw : List Char) : Walk (List Char) :=
  Walk.ofComponents true (componentsOf raw)

/-- `absolute_source` resolves the components of the path from the root. -/
theorem absoluteSource_eq {directory source : List Char}
    (h : '\\' ∉ rawSource '/' directory source) :
    absoluteSource (utf8 directory) (utf8 source) =
      utf8 (bufferText (sourceWalk (rawSource '/' directory source)).names) := by
  have hraw : rawSource slashByte (utf8 directory) (utf8 source) =
      utf8 (rawSource '/' directory source) := by
    unfold rawSource
    have hhead : (utf8 source).head? = some slashByte ↔ source.head? = some '/' := by
      rcases source with _ | ⟨c, source⟩
      · simp
      · rw [utf8_cons, List.head?_append_of_ne_nil _ String.utf8EncodeChar_ne_nil]
        constructor
        · intro hb
          have hc : c = '/' := eq_of_mem_utf8EncodeChar (by decide) (List.mem_of_head? hb)
          rw [hc]
          rfl
        · intro hc
          obtain rfl : c = '/' := by simpa using hc
          rfl
    simp only [hhead]
    split
    · rfl
    · rw [← utf8_slash, ← utf8_append]
  unfold absoluteSource
  rw [hraw, absoluteFrom_eq_foldl, splitOnP_utf8 h]
  have hnone : ∀ name ∈ ([] : List (List Char)), IsPathName name := by simp
  exact foldl_placeComponent _ hnone fun part hpart => plain_of_mem_splitOnP hpart

/-! ## The compiler reads the path again -/

/-- The names of the path of the entry can stand as names. -/
theorem isPathName_of_mem_sourceWalk {raw name : List Char} (h : name ∈ (sourceWalk raw).names) :
    IsPathName name := by
  rcases Walk.mem_names_foldl_step h with hn | hn
  · exact absurd hn (by simp)
  · obtain ⟨part, hpart, hname⟩ := List.mem_map.mp hn
    exact isPathName_of_pathComponent (plain_of_mem_splitOnP hpart) hname

/-- Names that are written are read back. -/
theorem sourceWalk_joinParts {names : List (List Char)} (h : ∀ name ∈ names, IsPathName name) :
    sourceWalk (joinParts names.reverse) = ⟨0, names⟩ := by
  have hcomponents := @map_pathComponent_walkParts ⟨0, names⟩ h
  have hwalk := Walk.ofComponents_components true (⟨0, names⟩ : Walk (List Char)) fun _ => rfl
  rw [← hcomponents] at hwalk
  by_cases hnil : names = []
  · subst hnil
    simp [sourceWalk, joinParts, componentsOf, pathComponent, Walk.ofComponents, Walk.step]
  · unfold sourceWalk componentsOf
    rw [splitOnP_joinParts (by simpa using hnil)]
    · exact hwalk
    · exact fun part hpart => ⟨(h part (List.mem_reverse.mp hpart)).ne_nil,
        (h part (List.mem_reverse.mp hpart)).plain⟩

/-- A path with a separator behind its drive is normalized to the drive and the buffer. -/
theorem normalizePath_of_absolute {path drive rest : List Char}
    (h : pathStart path = ⟨drive, true, rest⟩) :
    normalizePath path = drive ++ bufferText (sourceWalk rest).names := by
  have hwalk : pathWalk path = ⟨0, (sourceWalk rest).names⟩ := by
    unfold pathWalk sourceWalk
    rw [h]
    exact Walk.ext (Walk.ups_foldl_step_true _ _) rfl
  rw [normalizePath_eq, writePath_eq, h, hwalk]
  simp only [rootText, walkParts, List.replicate_zero, List.nil_append, if_true]
  rw [foldl_appendPart_root (.inr (by simp))]
  · simp [bufferText]
  · intro part hpart
    have hname := isPathName_of_mem_sourceWalk (List.mem_reverse.mp hpart)
    exact ⟨hname.ne_nil, hname.plain⟩

/-- Behind a drive without a separator something is written only after a slash. -/
theorem getElem?_two_of_relative {path rest : List Char} {letter : Char}
    (h : pathStart path = ⟨[letter, ':'], false, rest⟩) :
    (normalizePath path)[2]? = none ∨ (normalizePath path)[2]? = some '/' := by
  rw [normalizePath_eq, h]
  cases hparts : walkParts (pathWalk path) with
  | nil => exact .inl rfl
  | cons part parts =>
    right
    obtain ⟨more, hmore⟩ := rootText_first_prefix [letter, ':'] false part parts
      (isPathPart_walkParts (hparts ▸ List.mem_cons_self)).1
    simp only
    rw [← hmore]
    simp [appendPart, rootText]

/-- The compiler returns the buffer unchanged unless it reads a drive in it. -/
theorem normalizePath_bufferText_iff {names : List (List Char)}
    (h : ∀ name ∈ names, IsPathName name) :
    normalizePath (bufferText names) = bufferText names ↔
      ∀ first ∈ names.getLast?, first.head? = some ':' → first = [':'] := by
  rcases List.eq_nil_or_concat names with rfl | ⟨names, first, rfl⟩
  · exact ⟨by simp, fun _ => by decide⟩
  rw [List.concat_eq_append] at h ⊢
  have hfirst := h first (by simp)
  have hbuffer : bufferText (names ++ [first]) =
      '/' :: (first ++ names.reverse.flatMap ('/' :: ·)) := by
    simp [bufferText, joinParts]
  have hlast : ∀ P : List Char → Prop,
      (∀ other ∈ (names ++ [first]).getLast?, P other) ↔ P first := by simp
  rw [hlast]
  by_cases hcolon : first.head? = some ':'
  · obtain ⟨c, more, rfl⟩ := List.exists_cons_of_ne_nil hfirst.ne_nil
    obtain rfl : c = ':' := by simpa using hcolon
    rcases more with _ | ⟨x, more⟩
    · refine ⟨fun _ _ => rfl, fun _ => ?_⟩
      by_cases hnil : names = []
      · subst hnil
        decide
      · have hnames : ∀ name ∈ names, IsPathName name := fun name hname =>
          h name (List.mem_append_left _ hname)
        have htext : names.reverse.flatMap ('/' :: ·) = '/' :: joinParts names.reverse := by
          obtain ⟨part, parts, hparts⟩ := List.exists_cons_of_ne_nil
            (show names.reverse ≠ [] by simpa using hnil)
          simp [hparts, joinParts]
        have hstart : pathStart ('/' :: ([':'] ++ '/' :: joinParts names.reverse)) =
            ⟨['/', ':'], true, joinParts names.reverse⟩ := rfl
        rw [hbuffer, htext, normalizePath_of_absolute hstart, sourceWalk_joinParts hnames]
        rfl
    · refine ⟨fun heq => ?_, fun hsingle => absurd (hsingle hcolon) (by simp)⟩
      have hx : pathCharacterIsSeparator x = false := hfirst.plain x (by simp)
      have hstart : pathStart (bufferText (names ++ [':' :: x :: more])) =
          ⟨['/', ':'], false, x :: more ++ names.reverse.flatMap ('/' :: ·)⟩ := by
        rw [hbuffer]
        simp [pathStart, startAfter, hx]
      have htwo : (bufferText (names ++ [':' :: x :: more]))[2]? = some x := by
        rw [hbuffer]
        rfl
      have hcases := getElem?_two_of_relative hstart
      rw [heq, htwo] at hcases
      rcases hcases with hnone | hslash
      · exact absurd hnone (by simp)
      · obtain rfl : x = '/' := by simpa using hslash
        exact absurd hx (by decide)
  · refine ⟨fun _ hc => absurd hc hcolon, fun _ => ?_⟩
    have hstart : pathStart (bufferText (names ++ [first])) =
        ⟨[], true, joinParts (names ++ [first]).reverse⟩ := by
      have hroot : pathStart (rootText [] true ++ joinParts (names ++ [first]).reverse) =
          ⟨[], true, joinParts (names ++ [first]).reverse⟩ :=
        pathStart_rootText (.inl rfl) (by simp) fun _ => by
          obtain ⟨c, more, rfl⟩ := List.exists_cons_of_ne_nil hfirst.ne_nil
          simpa [joinParts] using hcolon
      exact hroot
    rw [normalizePath_of_absolute hstart, sourceWalk_joinParts h]
    rfl

/-! ## When the driver and the compiler agree -/

/-- The driver and the compiler name the entry by the same path: the result of the driver is
unchanged by the compiler, and it is what the compiler makes of the path itself. -/
def EntryAgrees (directory source : List Char) : Prop :=
  ∃ entry, absoluteSource (utf8 directory) (utf8 source) = utf8 entry ∧
    normalizePath entry = entry ∧ entry = normalizePath (rawSource '/' directory source)

/-- The compiler reads no drive in an absolute path, or reads it back. -/
structure EntryRootKept (raw : List Char) : Prop where
  /-- Without a colon in the second place, no component that begins with a colon comes first,
  except the colon alone. -/
  first : raw[1]? ≠ some ':' →
    ∀ first ∈ (sourceWalk raw).names.getLast?, first.head? = some ':' → first = [':']
  /-- With a colon there, it is a component of its own, and what follows it does not lead above
  it and ends below it. -/
  drive : raw[1]? = some ':' → raw = ['/', ':'] ∨ ∃ rest, raw = '/' :: ':' :: '/' :: rest ∧
    (Walk.ofComponents false (componentsOf rest)).ups = 0 ∧
    (Walk.ofComponents false (componentsOf rest)).names ≠ []

/-- What has to agree, in terms of the walk of the driver. -/
theorem entryAgrees_iff {directory source : List Char}
    (h : '\\' ∉ rawSource '/' directory source) :
    EntryAgrees directory source ↔
      normalizePath (bufferText (sourceWalk (rawSource '/' directory source)).names) =
        bufferText (sourceWalk (rawSource '/' directory source)).names ∧
      bufferText (sourceWalk (rawSource '/' directory source)).names =
        normalizePath (rawSource '/' directory source) := by
  unfold EntryAgrees
  rw [absoluteSource_eq h]
  constructor
  · rintro ⟨entry, hentry, hkept, heq⟩
    rw [utf8_injective hentry]
    exact ⟨hkept, heq⟩
  · rintro ⟨hkept, heq⟩
    exact ⟨_, rfl, hkept, heq⟩

/-- The slash in front of a path does not move. -/
theorem sourceWalk_slash (rest : List Char) : sourceWalk ('/' :: rest) = sourceWalk rest := by
  unfold sourceWalk
  rw [← List.nil_append ('/' :: rest), componentsOf_append, Walk.ofComponents_append]
  rfl

/-- What follows a first component is followed from it. -/
theorem sourceWalk_component (part rest : List Char) (hpart : IsPathName part) :
    (sourceWalk (part ++ '/' :: rest)).names =
      (Walk.ofComponents false (componentsOf rest)).apply [part] := by
  have hcomponent : componentsOf part = [.name part] := by
    unfold componentsOf pathComponent
    rw [List.splitOnP_eq_singleton hpart.plain]
    simp [hpart.ne_nil, hpart.ne_stay, hpart.ne_up]
  unfold sourceWalk
  rw [componentsOf_append, Walk.ofComponents_append, Walk.names_foldl_step, hcomponent,
    ← Walk.resolve_eq_apply]
  rfl

/-- Without a colon in the second place the compiler resolves the path as the driver does. -/
theorem normalizePath_eq_bufferText {rest : List Char} (h : rest.head? ≠ some ':') :
    normalizePath ('/' :: rest) = bufferText (sourceWalk ('/' :: rest)).names := by
  have hstart : pathStart ('/' :: rest) = ⟨[], true, rest⟩ := by
    rcases pathStart_cases ('/' :: rest) with ⟨letter, more, heq, -⟩ | ⟨-, hstart⟩
    · obtain ⟨-, rfl⟩ := List.cons.inj heq
      simp at h
    · exact hstart
  rw [normalizePath_of_absolute hstart, sourceWalk_slash, List.nil_append]

/-- A colon is a name. -/
theorem isPathName_colon : IsPathName [':'] :=
  ⟨by simp, by simp, by simp, by simp [pathCharacterIsSeparator]⟩

/-- A colon alone in front: the compiler takes it for a drive and writes it back. -/
theorem bufferText_eq_drive_iff (rest : List Char) :
    bufferText (sourceWalk ('/' :: ':' :: '/' :: rest)).names =
        normalizePath ('/' :: ':' :: '/' :: rest) ↔
      (Walk.ofComponents false (componentsOf rest)).ups = 0 ∧
        (Walk.ofComponents false (componentsOf rest)).names ≠ [] := by
  have hcolon := isPathName_colon
  have hwalk : (sourceWalk ('/' :: ':' :: '/' :: rest)).names =
      (Walk.ofComponents false (componentsOf rest)).apply [[':']] := by
    rw [sourceWalk_slash]
    exact sourceWalk_component [':'] rest hcolon
  have hstart : pathStart ('/' :: ':' :: '/' :: rest) = ⟨['/', ':'], true, rest⟩ := rfl
  have hnames : (sourceWalk rest).names = (Walk.ofComponents false (componentsOf rest)).names :=
    Walk.names_foldl_step_true _ _ _ rfl
  rw [hwalk, normalizePath_of_absolute hstart, hnames]
  generalize Walk.ofComponents false (componentsOf rest) = walk
  rcases walk with ⟨_ | ups, names⟩
  · rcases List.eq_nil_or_concat names with rfl | ⟨front, first, rfl⟩
    · simp [Walk.apply, bufferText, joinParts]
    · simp [Walk.apply, bufferText, joinParts]
  · simp only [Walk.apply, List.drop_succ_cons, List.drop_nil, List.append_nil]
    constructor
    · intro heq
      have hlength := congrArg List.length heq
      simp only [List.length_append, List.length_cons, List.length_nil] at hlength
      omega
    · rintro ⟨hups, -⟩
      exact absurd hups (by simp)

/-- Written with separators in front of all of them, components are no shorter. -/
theorem length_joinParts_le (parts : List (List Char)) :
    (joinParts parts).length ≤ (parts.flatMap ('/' :: ·)).length := by
  cases parts with
  | nil => exact Nat.le_refl 0
  | cons part parts =>
    simp only [joinParts, List.flatMap_cons, List.length_append, List.length_cons]
    omega

/-- A component behind the colon: the compiler moves it behind a slash. -/
theorem bufferText_ne_drive {c : Char} {rest : List Char}
    (hc : pathCharacterIsSeparator c = false) :
    bufferText (sourceWalk ('/' :: ':' :: c :: rest)).names ≠
      normalizePath ('/' :: ':' :: c :: rest) := by
  intro heq
  obtain ⟨part, parts, hsplit⟩ : ∃ part parts,
      (c :: rest).splitOnP pathCharacterIsSeparator = (c :: part) :: parts := by
    rw [List.splitOnP_cons_eq_if_modifyHead, if_neg (by simp [hc])]
    cases hsplit : rest.splitOnP pathCharacterIsSeparator with
    | nil => exact absurd hsplit (List.splitOnP_ne_nil _ _)
    | cons part parts => exact ⟨part, parts, rfl⟩
  have hwalk : (sourceWalk ('/' :: ':' :: c :: rest)).names =
      (Walk.ofComponents false (parts.map pathComponent)).apply [':' :: c :: part] := by
    rw [sourceWalk_slash]
    unfold sourceWalk componentsOf Walk.ofComponents
    rw [List.splitOnP_cons_eq_if_modifyHead,
      if_neg (show ¬pathCharacterIsSeparator ':' = true by decide), hsplit,
      Walk.names_foldl_step, Walk.apply_foldl_step]
    simp [pathComponent, resolve, enter, Walk.apply]
  have hstart : pathStart ('/' :: ':' :: c :: rest) = ⟨['/', ':'], false, c :: rest⟩ := by
    simp [pathStart, startAfter, hc]
  have hnames : (pathWalk ('/' :: ':' :: c :: rest)).names =
      (Walk.ofComponents false (parts.map pathComponent)).apply
        (enter [] (pathComponent (c :: part))) := by
    unfold pathWalk Walk.ofComponents
    rw [hstart, Walk.names_foldl_step, Walk.apply_foldl_step]
    simp [componentsOf, hsplit, resolve, Walk.apply]
  by_cases hups : (Walk.ofComponents false (parts.map pathComponent)).ups = 0
  · -- the first component stays, with a character behind the colon that is no slash
    have htwo := getElem?_two_of_relative hstart
    rw [← heq, hwalk] at htwo
    simp only [Walk.apply, hups, List.drop_zero, bufferText, List.reverse_append,
      List.reverse_singleton, List.singleton_append, joinParts] at htwo
    obtain rfl : c = '/' := by simpa using htwo
    exact absurd hc (by decide)
  · -- it is taken away again, and the compiler writes the same names behind two more characters
    have hdrop : ∀ directory : List (List Char), directory.length ≤ 1 →
        (Walk.ofComponents false (parts.map pathComponent)).apply directory =
          (Walk.ofComponents false (parts.map pathComponent)).names := by
      intro directory hlength
      rw [Walk.apply, List.drop_eq_nil_of_le (by omega), List.append_nil]
    have hshort : (enter ([] : List (List Char)) (pathComponent (c :: part))).length ≤ 1 := by
      cases pathComponent (c :: part) <;> simp [enter]
    rw [hdrop _ hshort] at hnames
    rw [hwalk, hdrop _ (by simp), ← hnames, normalizePath_eq, writePath_eq, hstart] at heq
    have hpartsOf : ∀ piece ∈ walkParts (pathWalk ('/' :: ':' :: c :: rest)), IsPathPart piece :=
      fun piece hpiece => isPathPart_walkParts hpiece
    simp only [rootText, Bool.false_eq_true, if_false] at heq
    rw [foldl_appendPart (by simp) (by simp) hpartsOf, if_neg (by simp)] at heq
    have hlength := congrArg List.length heq
    have hle := length_joinParts_le (pathWalk ('/' :: ':' :: c :: rest)).names.reverse
    simp only [bufferText, walkParts, List.length_cons, List.length_append, List.flatMap_append]
      at hlength
    omega

/-- The driver and the compiler name the entry by the same path exactly when the compiler reads
no drive in the path, or reads it back. -/
theorem entryAgrees_iff_rootKept (directory source : List Char)
    (habsolute : (rawSource '/' directory source).head? = some '/')
    (hslashes : '\\' ∉ rawSource '/' directory source) :
    EntryAgrees directory source ↔ EntryRootKept (rawSource '/' directory source) := by
  rw [entryAgrees_iff hslashes]
  have hvalid : ∀ name ∈ (sourceWalk (rawSource '/' directory source)).names, IsPathName name :=
    fun name hname => isPathName_of_mem_sourceWalk hname
  revert habsolute hslashes hvalid
  generalize rawSource '/' directory source = raw
  intro habsolute hslashes hvalid
  rw [normalizePath_bufferText_iff hvalid]
  obtain ⟨rest, rfl⟩ : ∃ rest, raw = '/' :: rest := by
    cases raw with
    | nil => simp at habsolute
    | cons c rest => exact ⟨rest, by rw [show c = '/' by simpa using habsolute]⟩
  by_cases hcolon : rest.head? = some ':'
  · obtain ⟨rest, rfl⟩ : ∃ more, rest = ':' :: more := by
      cases rest with
      | nil => simp at hcolon
      | cons c more => exact ⟨more, by rw [show c = ':' by simpa using hcolon]⟩
    refine Iff.trans ?_ (⟨fun h => ⟨fun hne => absurd rfl hne, fun _ => h⟩, fun h => h.drive rfl⟩ :
      (_ ↔ EntryRootKept ('/' :: ':' :: rest)))
    rcases rest with _ | ⟨c, rest⟩
    · refine ⟨fun _ => .inl rfl, fun _ => ?_⟩
      have hwalk : sourceWalk ['/', ':'] = ⟨0, [[':']]⟩ := by
        simp [sourceWalk, componentsOf, pathComponent, pathCharacterIsSeparator,
          List.splitOnP_cons_eq_if_modifyHead, Walk.ofComponents, Walk.step]
      rw [hwalk]
      decide
    · by_cases hc : pathCharacterIsSeparator c
      · obtain rfl : c = '/' := by
          have hback : c ≠ '\\' := fun heq => hslashes (by simp [heq])
          simpa [pathCharacterIsSeparator, hback] using hc
        rw [bufferText_eq_drive_iff]
        constructor
        · rintro ⟨-, h⟩
          exact .inr ⟨rest, rfl, h⟩
        · rintro (h | ⟨more, hmore, h⟩)
          · simp at h
          · obtain rfl : rest = more := by simpa using hmore
            refine ⟨?_, h⟩
            rw [sourceWalk_slash, show (':' :: '/' :: rest) = [':'] ++ '/' :: rest from rfl,
              sourceWalk_component [':'] rest isPathName_colon,
              Walk.apply, h.1]
            simp
      · have hc : pathCharacterIsSeparator c = false := Bool.eq_false_iff.mpr hc
        refine ⟨fun h => absurd h.2 (bufferText_ne_drive hc), ?_⟩
        rintro (h | ⟨more, hmore, -⟩)
        · simp at h
        · obtain ⟨rfl, -⟩ : c = '/' ∧ rest = more := by simpa using hmore
          exact absurd hc (by decide)
  · have hone : ('/' :: rest)[1]? ≠ some ':' := by
      cases rest with
      | nil => simp
      | cons c rest => simpa using hcolon
    rw [normalizePath_eq_bufferText hcolon]
    exact ⟨fun h => ⟨fun _ => h.1, fun hc => absurd hc hone⟩, fun h => ⟨h.first hone, rfl⟩⟩

/-- `/a/./b` is read by both as `/a/b`. -/
theorem entryAgrees_iff_rootKept_plain :
    EntryAgrees [] ['/', 'a', '/', '.', '/', 'b'] := by
  refine (entryAgrees_iff_rootKept [] ['/', 'a', '/', '.', '/', 'b'] rfl (by decide)).mpr ?_
  refine ⟨fun _ => ?_, fun h => absurd h (by decide)⟩
  simp [rawSource, sourceWalk, componentsOf, pathComponent, pathCharacterIsSeparator,
    List.splitOnP_cons_eq_if_modifyHead, Walk.ofComponents, Walk.step]

/-- The driver keeps `/:x`, and the compiler makes `/:/x` of it. -/
theorem not_entryAgrees_colon :
    normalizePath ['/', ':', 'x'] = ['/', ':', '/', 'x'] ∧
      absoluteSource (utf8 []) (utf8 ['/', ':', 'x']) = utf8 ['/', ':', 'x'] ∧
      ¬∀ directory source : List Char, source.head? = some '/' → '\\' ∉ source →
        EntryAgrees directory source := by
  have hnormal : normalizePath ['/', ':', 'x'] = ['/', ':', '/', 'x'] := by decide
  have hsource : absoluteSource (utf8 []) (utf8 ['/', ':', 'x']) = utf8 ['/', ':', 'x'] := by
    rw [absoluteSource_eq (by decide)]
    simp [rawSource, sourceWalk, componentsOf, pathComponent, pathCharacterIsSeparator,
      List.splitOnP_cons_eq_if_modifyHead, Walk.ofComponents, Walk.step, bufferText, joinParts]
  refine ⟨hnormal, hsource, fun h => ?_⟩
  obtain ⟨entry, hentry, hkept, -⟩ := h [] ['/', ':', 'x'] rfl (by decide)
  obtain rfl : ['/', ':', 'x'] = entry := utf8_injective (hsource.symm.trans hentry)
  rw [hnormal] at hkept
  exact absurd hkept (by decide)

end Minyar

import Minyar.Text.Decode

/-!
# The index of a Text

A Text holds UTF-8 bytes, and programs address it by character.  The runtime counts the characters
when they are first asked for.  If there are as many as bytes, positions are byte positions; otherwise
it stores the byte position of every 64th character (a *breadcrumb*) and, behind the breadcrumbs, a
cursor: the position of the last lookup and its byte position.

`TextInv` relates a Text to the characters it denotes.  Every operation keeps it and answers what the
characters say, so that neither the breadcrumbs nor the cursor can be observed.
-/

namespace Minyar

/-! ## The header and its index -/

/-- The number of characters between two breadcrumbs. -/
def textIndexStride : ℕ := 64

/-- The header of a Text. -/
structure MinyarText where
  /-- The bytes. -/
  bytes : List UInt8
  /-- The number of characters, or `-1` while it is unknown. -/
  characterLength : ℤ
  /-- The breadcrumbs and the cursor of a Text that is not ASCII. -/
  characterOffsets : Option (List ℕ) := none
  /-- The Text that owns the bytes of a view. -/
  backing : Option ℕ := none
  deriving DecidableEq, Repr

namespace MinyarText

/-- The number of bytes. -/
def byteLength (text : MinyarText) : ℕ := text.bytes.length

/-- What an entry of the index keeps of a value: entries have four bytes while they suffice. -/
def indexEntry (text : MinyarText) (value : ℕ) : ℕ :=
  if text.byteLength ≤ 2 ^ 32 - 1 then value % 2 ^ 32 else value

/-- `text_index_load`. -/
def indexLoad (text : MinyarText) (entry : ℕ) : ℕ :=
  (text.characterOffsets.getD []).getD entry 0

/-- `text_index_store`. -/
def indexStore (text : MinyarText) (entry value : ℕ) : MinyarText :=
  { text with
    characterOffsets := text.characterOffsets.map fun offsets =>
      offsets.set entry (text.indexEntry value) }

/-- `text_index_breadcrumbs`: the number of breadcrumbs, which is the place of the cursor. -/
def indexBreadcrumbs (text : MinyarText) : ℕ := text.characterLength.toNat / textIndexStride + 1

end MinyarText

/-! ## Building the index -/

/-- The loop over whole words without a high bit. -/
def skipAsciiWords (bytes : List UInt8) : ℕ → ℕ → ℕ
  | 0, byte => byte
  | fuel + 1, byte =>
    if 8 ≤ bytes.length - byte ∧ ((bytes.drop byte).take 8).all fun b => b.toNat < 0x80 then
      skipAsciiWords bytes fuel (byte + 8)
    else byte

/-- The loop over single bytes without a high bit. -/
def skipAscii (bytes : List UInt8) : ℕ → ℕ → ℕ
  | 0, byte => byte
  | fuel + 1, byte =>
    if byte < bytes.length ∧ byteAt bytes byte < 0x80 then skipAscii bytes fuel (byte + 1)
    else byte

/-- The loop that counts the remaining characters. -/
def countCharacters (bytes : List UInt8) : ℕ → ℕ → ℕ → Except String ℕ
  | 0, _, characters => .ok characters
  | fuel + 1, byte, characters =>
    if byte < bytes.length then do
      let (_, width) ← decodeCharacter (bytes.drop byte)
      countCharacters bytes fuel (byte + width) (characters + 1)
    else .ok characters

/-- The loop that stores the breadcrumbs: the entries, the byte position and the number of
characters behind the last character. -/
def writeBreadcrumbs (text : MinyarText) :
    ℕ → List ℕ → ℕ → ℕ → Except String (List ℕ × ℕ × ℕ)
  | 0, offsets, byte, characters => .ok (offsets, byte, characters)
  | fuel + 1, offsets, byte, characters =>
    if byte < text.bytes.length then do
      let offsets := if characters % textIndexStride = 0 then
          offsets.set (characters / textIndexStride) (text.indexEntry byte)
        else offsets
      let (_, width) ← decodeCharacter (text.bytes.drop byte)
      writeBreadcrumbs text fuel offsets (byte + width) (characters + 1)
    else .ok (offsets, byte, characters)

/-- The stop of a Text whose index would not fit into memory. -/
def textTooLarge : String := "this Text is too large to index."

/-- `build_text_index`. -/
def buildTextIndex (text : MinyarText) : Except String MinyarText := do
  let length := text.byteLength
  let ascii := skipAscii text.bytes length (skipAsciiWords text.bytes length 0)
  let characters ← countCharacters text.bytes length ascii ascii
  if characters = length then .ok { text with characterLength := characters }
  else
    let offsetSize := if length ≤ 2 ^ 32 - 1 then 4 else 8
    if (2 ^ 64 - 1) / offsetSize - 2 < characters / textIndexStride + 1 then .error textTooLarge
    else do
      let (offsets, byte, characters) ←
        writeBreadcrumbs text length (List.replicate (characters / textIndexStride + 3) 0) 0 0
      let offsets := if characters % textIndexStride = 0 then
          offsets.set (characters / textIndexStride) (text.indexEntry byte)
        else offsets
      let text := { text with characterOffsets := some offsets, characterLength := characters }
      .ok ((text.indexStore text.indexBreadcrumbs 0).indexStore (text.indexBreadcrumbs + 1) 0)

/-- `ensure_text_index`. -/
def ensureTextIndex (text : MinyarText) : Except String MinyarText :=
  if text.characterLength < 0 then buildTextIndex text else .ok text

/-- `minyar_text_length`: the number of characters, and the Text with its index. -/
def minyarTextLength (text : MinyarText) : Except String (ℤ × MinyarText) := do
  let text ← ensureTextIndex text
  .ok (text.characterLength, text)

/-! ## Lookups -/

/-- The loop that passes `count` characters. -/
def passCharacters (bytes : List UInt8) : ℕ → ℕ → Except String ℕ
  | 0, byte => .ok byte
  | count + 1, byte => do
    let (_, width) ← decodeCharacter (bytes.drop byte)
    passCharacters bytes count (byte + width)

/-- `indexed_byte_offset`: the byte position of a character, and the Text with its cursor there. -/
def indexedByteOffset (text : MinyarText) (position : ℕ) : Except String (ℕ × MinyarText) := do
  let entry := position / textIndexStride
  let start := entry * textIndexStride
  let cursor := text.indexBreadcrumbs
  let cachedPosition := text.indexLoad cursor
  let cachedByte := text.indexLoad (cursor + 1)
  let (start, byte) :=
    if start ≤ cachedPosition ∧ cachedPosition ≤ position then (cachedPosition, cachedByte)
    else (start, text.indexLoad entry)
  let byte ← passCharacters text.bytes (position - start) byte
  .ok (byte, (text.indexStore cursor position).indexStore (cursor + 1) byte)

/-- `indexed_character_at`. -/
def indexedCharacterAt (text : MinyarText) (position : ℕ) : Except String (ℕ × MinyarText) := do
  let (byte, text) ← indexedByteOffset text position
  let (character, width) ← decodeCharacter (text.bytes.drop byte)
  let cursor := text.indexBreadcrumbs
  .ok (character, (text.indexStore cursor (position + 1)).indexStore (cursor + 1) (byte + width))

/-- The stop of a negative position. -/
def negativeTextPosition : String := "a Text position cannot be negative."

/-- `character_at_slowly`. -/
def characterAtSlowly (text : MinyarText) (position : ℤ) : Except String (ℕ × MinyarText) :=
  if position < 0 then .error negativeTextPosition
  else do
    let text ← ensureTextIndex text
    if text.characterLength ≤ position then .error positionOutsideText
    else if text.characterOffsets = none then .ok (byteAt text.bytes position.toNat, text)
    else indexedCharacterAt text position.toNat

/-- A signed number as an unsigned one. -/
def unsigned64 (value : ℤ) : ℤ := value % 2 ^ 64

/-- `minyar_text_character_at`. -/
def minyarTextCharacterAt (text : MinyarText) (position : Int64) : Except String (ℕ × MinyarText) :=
  if text.characterLength < 0 ∨ unsigned64 text.characterLength ≤ unsigned64 position.toInt then
    characterAtSlowly text position.toInt
  else if text.characterOffsets ≠ none then indexedCharacterAt text position.toInt.toNat
  else .ok (byteAt text.bytes position.toInt.toNat, text)

/-! ## The invariant -/

/-- The entries of an index: a breadcrumb at every 64th character, and a cursor. -/
structure TextOffsets (chars : List Char) (offsets : List ℕ) : Prop where
  /-- The two entries of the cursor follow the breadcrumbs. -/
  length : offsets.length = chars.length / textIndexStride + 3
  /-- Every breadcrumb is the byte position of its character. -/
  breadcrumb : ∀ entry ≤ chars.length / textIndexStride,
    offsets.getD entry 0 = utf8Offset chars (entry * textIndexStride)
  /-- The cursor is inside the Text. -/
  cursor_le : offsets.getD (chars.length / textIndexStride + 1) 0 ≤ chars.length
  /-- The cursor has the byte position of its character. -/
  cursor : offsets.getD (chars.length / textIndexStride + 2) 0 =
    utf8Offset chars (offsets.getD (chars.length / textIndexStride + 1) 0)

/-- What the header says about the number of characters and their positions. -/
inductive TextIndexed (chars : List Char) : ℤ → Option (List ℕ) → Prop
  /-- The characters have not been counted. -/
  | unknown : TextIndexed chars (-1) none
  /-- All characters are ASCII. -/
  | ascii (h : (utf8 chars).length = chars.length) : TextIndexed chars chars.length none
  /-- The positions are in the index. -/
  | indexed {offsets : List ℕ} (h : TextOffsets chars offsets) :
    TextIndexed chars chars.length (some offsets)

/-- A Text denotes a sequence of characters. -/
structure TextInv (text : MinyarText) (chars : List Char) : Prop where
  /-- The bytes are their encoding. -/
  bytes : text.bytes = utf8 chars
  /-- The number of bytes is a signed number. -/
  bound : (utf8 chars).length < 2 ^ 63
  /-- The index is right. -/
  indexed : TextIndexed chars text.characterLength text.characterOffsets

/-! ## The loops -/

section Loops

variable {chars : List Char}

theorem lt_length_of_utf8Offset_lt {k : ℕ} (hk : k ≤ chars.length)
    (h : utf8Offset chars k < (utf8 chars).length) : k < chars.length := by
  rcases hk.lt_or_eq with hlt | rfl
  · exact hlt
  · rw [utf8Offset_length] at h
    exact absurd h (lt_irrefl _)

theorem utf8Offset_lt {k : ℕ} (hk : k < chars.length) :
    utf8Offset chars k < (utf8 chars).length := by
  have hsucc := utf8Offset_succ hk
  have hpos := utf8Size_pos chars[k]
  have hle := utf8Offset_le chars (k + 1)
  omega

/-- A byte without a high bit behind ASCII characters is an ASCII character. -/
theorem utf8Offset_ascii_succ {k : ℕ} (hk : k ≤ chars.length) (hoffset : utf8Offset chars k = k)
    (hlt : k < (utf8 chars).length) (hbyte : byteAt (utf8 chars) k < 0x80) :
    k + 1 ≤ chars.length ∧ utf8Offset chars (k + 1) = k + 1 := by
  have hlength : k < chars.length := lt_length_of_utf8Offset_lt hk (by rwa [hoffset])
  have hdecode := decodeCharacter_drop hlength
  rw [hoffset, List.drop_eq_getElem_cons hlt, decodeCharacter_one] at hdecode
  · have hsize : 1 = (chars[k]).utf8Size := congrArg Prod.snd (Except.ok.inj hdecode)
    refine ⟨hlength, ?_⟩
    rw [utf8Offset_succ hlength, hoffset, ← hsize]
  · rwa [byteAt, List.getD_eq_getElem _ _ hlt] at hbyte

theorem utf8Offset_ascii_add {k : ℕ} (hk : k ≤ chars.length) (hoffset : utf8Offset chars k = k)
    {n : ℕ} (hlt : k + n ≤ (utf8 chars).length)
    (hbytes : ∀ i < n, byteAt (utf8 chars) (k + i) < 0x80) :
    k + n ≤ chars.length ∧ utf8Offset chars (k + n) = k + n := by
  induction n with
  | zero => exact ⟨hk, hoffset⟩
  | succ n ih =>
    obtain ⟨hle, heq⟩ := ih (by omega) fun i hi => hbytes i (by omega)
    have hlt' : k + n < (utf8 chars).length := by omega
    exact utf8Offset_ascii_succ hle heq hlt' (hbytes n (by omega))

theorem skipAsciiWords_spec (fuel : ℕ) {k : ℕ} (hk : k ≤ chars.length)
    (hoffset : utf8Offset chars k = k) :
    skipAsciiWords (utf8 chars) fuel k ≤ chars.length ∧
      utf8Offset chars (skipAsciiWords (utf8 chars) fuel k) =
        skipAsciiWords (utf8 chars) fuel k := by
  induction fuel generalizing k with
  | zero => exact ⟨hk, hoffset⟩
  | succ fuel ih =>
    rw [skipAsciiWords]
    split_ifs with h
    · obtain ⟨hlength, hall⟩ := h
      have hword : ∀ i < 8, byteAt (utf8 chars) (k + i) < 0x80 := by
        intro i hi
        have hmem : (utf8 chars).getD (k + i) 0 ∈ ((utf8 chars).drop k).take 8 := by
          rw [List.getD_eq_getElem _ _ (by omega)]
          refine List.mem_of_getElem? (i := i) ?_
          rw [List.getElem?_take_of_lt hi, List.getElem?_drop, List.getElem?_eq_getElem (by omega)]
        exact of_decide_eq_true (List.all_eq_true.mp hall _ hmem)
      obtain ⟨hle, heq⟩ := utf8Offset_ascii_add hk hoffset (by omega) hword
      exact ih hle heq
    · exact ⟨hk, hoffset⟩

theorem skipAscii_spec (fuel : ℕ) {k : ℕ} (hk : k ≤ chars.length)
    (hoffset : utf8Offset chars k = k) :
    skipAscii (utf8 chars) fuel k ≤ chars.length ∧
      utf8Offset chars (skipAscii (utf8 chars) fuel k) = skipAscii (utf8 chars) fuel k := by
  induction fuel generalizing k with
  | zero => exact ⟨hk, hoffset⟩
  | succ fuel ih =>
    rw [skipAscii]
    split_ifs with h
    · obtain ⟨hle, heq⟩ := utf8Offset_ascii_succ hk hoffset h.1 h.2
      exact ih hle heq
    · exact ⟨hk, hoffset⟩

theorem countCharacters_spec {fuel k : ℕ} (characters : ℕ) (hk : k ≤ chars.length)
    (hfuel : (utf8 chars).length ≤ utf8Offset chars k + fuel) :
    countCharacters (utf8 chars) fuel (utf8Offset chars k) characters =
      .ok (characters + (chars.length - k)) := by
  induction fuel generalizing k characters with
  | zero =>
    have hend : k = chars.length := by
      by_contra hne
      have := utf8Offset_lt (lt_of_le_of_ne hk hne)
      omega
    rw [countCharacters, hend, Nat.sub_self, Nat.add_zero]
  | succ fuel ih =>
    rw [countCharacters]
    split_ifs with h
    · have hlt := lt_length_of_utf8Offset_lt hk h
      have hsucc := utf8Offset_succ hlt
      have hpos := utf8Size_pos chars[k]
      rw [decodeCharacter_drop hlt]
      change countCharacters (utf8 chars) fuel (utf8Offset chars k + (chars[k]).utf8Size)
        (characters + 1) = _
      have hfuel' : (utf8 chars).length ≤ utf8Offset chars (k + 1) + fuel := by omega
      rw [← hsucc, ih (characters + 1) hlt hfuel']
      congr 1
      omega
    · have hend : k = chars.length := by
        by_contra hne
        exact h (utf8Offset_lt (lt_of_le_of_ne hk hne))
      rw [hend, Nat.sub_self, Nat.add_zero]

theorem passCharacters_spec {count k : ℕ} (h : k + count ≤ chars.length) :
    passCharacters (utf8 chars) count (utf8Offset chars k) =
      .ok (utf8Offset chars (k + count)) := by
  induction count generalizing k with
  | zero => rfl
  | succ count ih =>
    have hlt : k < chars.length := by omega
    rw [passCharacters, decodeCharacter_drop hlt]
    change passCharacters (utf8 chars) count (utf8Offset chars k + (chars[k]).utf8Size) = _
    rw [← utf8Offset_succ hlt, ih (by omega), Nat.add_right_comm, Nat.add_assoc]

end Loops

/-! ## Building and looking up -/

namespace MinyarText

variable {text : MinyarText} {chars : List Char}

theorem indexEntry_eq {value : ℕ} (h : value ≤ text.byteLength) : text.indexEntry value = value := by
  unfold indexEntry
  split_ifs with hshort
  · exact Nat.mod_eq_of_lt (by omega)
  · rfl

theorem indexLoad_some {offsets : List ℕ} (h : text.characterOffsets = some offsets) (entry : ℕ) :
    text.indexLoad entry = offsets.getD entry 0 := by
  unfold indexLoad
  rw [h]
  rfl

theorem indexStore_some {offsets : List ℕ} (h : text.characterOffsets = some offsets)
    {entry value : ℕ} (hvalue : value ≤ text.byteLength) :
    text.indexStore entry value = { text with characterOffsets := some (offsets.set entry value) } := by
  unfold indexStore
  rw [h, Option.map_some, indexEntry_eq hvalue]

/-- The cursor of an index is moved. -/
theorem storeCursor_some {offsets : List ℕ} (h : text.characterOffsets = some offsets)
    {entry position byte : ℕ} (hposition : position ≤ text.byteLength)
    (hbyte : byte ≤ text.byteLength) :
    (text.indexStore entry position).indexStore (entry + 1) byte =
      { text with
        characterOffsets := some ((offsets.set entry position).set (entry + 1) byte) } := by
  rw [indexStore_some h hposition]
  exact indexStore_some rfl hbyte

theorem indexStore_ne_none (h : text.characterOffsets ≠ none) (entry value : ℕ) :
    (text.indexStore entry value).characterOffsets ≠ none := by
  unfold indexStore
  rwa [ne_eq, Option.map_eq_none_iff]

end MinyarText

/-- An operation leaves the bytes and the owner of a Text alone. -/
structure SameText (text text' : MinyarText) : Prop where
  /-- The bytes are the same. -/
  bytes : text'.bytes = text.bytes
  /-- The owner of the bytes is the same. -/
  backing : text'.backing = text.backing

theorem SameText.refl (text : MinyarText) : SameText text text := ⟨rfl, rfl⟩

theorem SameText.trans {a b c : MinyarText} (h : SameText a b) (h' : SameText b c) : SameText a c :=
  ⟨h'.bytes.trans h.bytes, h'.backing.trans h.backing⟩

theorem getD_set (offsets : List ℕ) (entry value other : ℕ) :
    (offsets.set entry value).getD other 0 =
      if other = entry ∧ entry < offsets.length then value else offsets.getD other 0 := by
  rw [List.getD_eq_getElem?_getD, List.getD_eq_getElem?_getD, List.getElem?_set]
  by_cases hother : entry = other
  · subst hother
    by_cases hlt : entry < offsets.length
    · simp [hlt]
    · simp [hlt]
  · rw [if_neg hother, if_neg (fun h => hother h.1.symm)]

/-- With its breadcrumbs in place an index is right once the cursor is at some character. -/
theorem TextOffsets.of_breadcrumbs {chars : List Char} {offsets : List ℕ}
    (hlength : offsets.length = chars.length / textIndexStride + 3)
    (hcrumbs : ∀ entry ≤ chars.length / textIndexStride,
      offsets.getD entry 0 = utf8Offset chars (entry * textIndexStride))
    {position : ℕ} (hposition : position ≤ chars.length) :
    TextOffsets chars ((offsets.set (chars.length / textIndexStride + 1) position).set
      (chars.length / textIndexStride + 2) (utf8Offset chars position)) := by
  refine ⟨?_, ?_, ?_, ?_⟩
  · rw [List.length_set, List.length_set, hlength]
  · intro entry hentry
    rw [getD_set, if_neg (by omega), getD_set, if_neg (by omega), hcrumbs entry hentry]
  · rw [getD_set, if_neg (by omega), getD_set, if_pos ⟨rfl, by omega⟩]
    exact hposition
  · rw [getD_set, List.length_set, if_pos ⟨rfl, by omega⟩, getD_set, if_neg (by omega), getD_set,
      if_pos ⟨rfl, by omega⟩]

/-- A Text that is known by its breadcrumbs, with the cursor at some character. -/
theorem TextInv.storeCursor {text : MinyarText} {chars : List Char} {offsets : List ℕ}
    (hbytes : text.bytes = utf8 chars) (hbound : (utf8 chars).length < 2 ^ 63)
    (hknown : text.characterLength = chars.length) (hoffsets : text.characterOffsets = some offsets)
    (hlength : offsets.length = chars.length / textIndexStride + 3)
    (hcrumbs : ∀ entry ≤ chars.length / textIndexStride,
      offsets.getD entry 0 = utf8Offset chars (entry * textIndexStride))
    {position byte : ℕ} (hposition : position ≤ chars.length)
    (hbyte : byte = utf8Offset chars position) :
    TextInv ((text.indexStore text.indexBreadcrumbs position).indexStore
        (text.indexBreadcrumbs + 1) byte) chars ∧
      SameText text ((text.indexStore text.indexBreadcrumbs position).indexStore
        (text.indexBreadcrumbs + 1) byte) ∧
      ((text.indexStore text.indexBreadcrumbs position).indexStore
        (text.indexBreadcrumbs + 1) byte).characterLength = chars.length := by
  have hlen : text.byteLength = (utf8 chars).length := by rw [MinyarText.byteLength, hbytes]
  have hle := length_le_utf8 chars
  have hoffset := utf8Offset_le chars position
  have hcursor : text.indexBreadcrumbs = chars.length / textIndexStride + 1 := by
    rw [MinyarText.indexBreadcrumbs, hknown, Int.toNat_natCast]
  rw [MinyarText.storeCursor_some hoffsets (by omega) (by omega), hcursor, hbyte]
  refine ⟨⟨hbytes, hbound, ?_⟩, ⟨rfl, rfl⟩, hknown⟩
  rw [hknown]
  exact .indexed (.of_breadcrumbs hlength hcrumbs hposition)

theorem writeBreadcrumbs_spec {text : MinyarText} {chars : List Char}
    (hbytes : text.bytes = utf8 chars) {fuel k : ℕ} {offsets : List ℕ} (hk : k ≤ chars.length)
    (hfuel : (utf8 chars).length ≤ utf8Offset chars k + fuel)
    (hlength : chars.length / textIndexStride < offsets.length)
    (hcrumbs : ∀ entry, entry * textIndexStride < k →
      offsets.getD entry 0 = utf8Offset chars (entry * textIndexStride)) :
    ∃ offsets', writeBreadcrumbs text fuel offsets (utf8Offset chars k) k =
        .ok (offsets', (utf8 chars).length, chars.length) ∧
      offsets'.length = offsets.length ∧
      ∀ entry, entry * textIndexStride < chars.length →
        offsets'.getD entry 0 = utf8Offset chars (entry * textIndexStride) := by
  induction fuel generalizing k offsets with
  | zero =>
    have hend : k = chars.length := by
      by_contra hne
      have := utf8Offset_lt (lt_of_le_of_ne hk hne)
      omega
    subst hend
    refine ⟨offsets, ?_, rfl, hcrumbs⟩
    rw [writeBreadcrumbs, utf8Offset_length]
  | succ fuel ih =>
    rw [writeBreadcrumbs, hbytes]
    split_ifs with h hcrumb
    · -- The character starts a new entry.
      have hlt := lt_length_of_utf8Offset_lt hk h
      have hsucc := utf8Offset_succ hlt
      have hpos := utf8Size_pos chars[k]
      have hentry : text.indexEntry (utf8Offset chars k) = utf8Offset chars k :=
        MinyarText.indexEntry_eq (by
          rw [MinyarText.byteLength, hbytes]
          exact utf8Offset_le chars k)
      rw [decodeCharacter_drop hlt, hentry]
      obtain ⟨offsets', hrun, hlen, hall⟩ := @ih (k + 1)
        (offsets.set (k / textIndexStride) (utf8Offset chars k)) hlt (by omega)
        (by rw [List.length_set]; exact hlength) (by
          intro entry hentry
          have hstride : textIndexStride = 64 := rfl
          rw [getD_set]
          split_ifs with hsame
          · rw [hsame.1, Nat.div_mul_cancel (Nat.dvd_of_mod_eq_zero hcrumb)]
          · refine hcrumbs entry ?_
            have hlast : k / textIndexStride < offsets.length :=
              (Nat.div_le_div_right hk).trans_lt hlength
            have hne : entry ≠ k / textIndexStride := fun heq => hsame ⟨heq, hlast⟩
            rw [hstride] at hne hentry hcrumb ⊢
            omega)
      rw [List.length_set] at hlen
      refine ⟨offsets', ?_, hlen, hall⟩
      rw [hsucc] at hrun
      exact hrun
    · have hlt := lt_length_of_utf8Offset_lt hk h
      have hsucc := utf8Offset_succ hlt
      have hpos := utf8Size_pos chars[k]
      rw [decodeCharacter_drop hlt]
      obtain ⟨offsets', hrun, hlen, hall⟩ := @ih (k + 1) offsets hlt (by omega) hlength (by
        intro entry hentry
        refine hcrumbs entry ?_
        rcases Nat.lt_succ_iff_lt_or_eq.mp hentry with hlt | heq
        · exact hlt
        · exact absurd (heq ▸ Nat.mul_mod_left entry textIndexStride) hcrumb)
      refine ⟨offsets', ?_, hlen, hall⟩
      rw [hsucc] at hrun
      exact hrun
    · have hend : k = chars.length := by
        by_contra hne
        exact h (utf8Offset_lt (lt_of_le_of_ne hk hne))
      subst hend
      refine ⟨offsets, ?_, rfl, hcrumbs⟩
      rw [utf8Offset_length]

/-- Building the index of a Text succeeds, and the index is right. -/
theorem TextInv.buildTextIndex {text : MinyarText} {chars : List Char} (h : TextInv text chars)
    (hoffsets : text.characterOffsets = none) :
    ∃ text', buildTextIndex text = .ok text' ∧ TextInv text' chars ∧ SameText text text' ∧
      text'.characterLength = chars.length := by
  have hlen : text.byteLength = (utf8 chars).length := by rw [MinyarText.byteLength, h.bytes]
  have hle := length_le_utf8 chars
  have hbound := h.bound
  obtain ⟨hk, hk'⟩ := skipAsciiWords_spec (utf8 chars).length (Nat.zero_le chars.length) rfl
  obtain ⟨hascii, hascii'⟩ := skipAscii_spec (utf8 chars).length hk hk'
  generalize hpos : skipAscii (utf8 chars) (utf8 chars).length
    (skipAsciiWords (utf8 chars) (utf8 chars).length 0) = ascii at hascii hascii'
  have hcount : countCharacters (utf8 chars) (utf8 chars).length ascii ascii =
      .ok chars.length := by
    have hspec := @countCharacters_spec chars (utf8 chars).length ascii ascii hascii (by omega)
    rwa [hascii', Nat.add_sub_cancel' hascii] at hspec
  unfold Minyar.buildTextIndex
  simp only [hlen, h.bytes, hpos, hcount, bind, Except.bind]
  by_cases hsame : chars.length = (utf8 chars).length
  · rw [if_pos hsame]
    refine ⟨_, rfl, ⟨rfl, hbound, ?_⟩, ⟨h.bytes.symm, rfl⟩, rfl⟩
    rw [hoffsets]
    exact .ascii hsame.symm
  · rw [if_neg hsame]
    have hstride : textIndexStride = 64 := rfl
    rw [if_neg (by rw [hstride]; split_ifs <;> omega)]
    obtain ⟨offsets, hrun, hlength, hall⟩ := @writeBreadcrumbs_spec text chars h.bytes
      (utf8 chars).length 0 (List.replicate (chars.length / textIndexStride + 3) 0)
      (Nat.zero_le _) (Nat.le_add_left _ _) (by rw [List.length_replicate]; omega)
      (fun entry hentry => absurd hentry (Nat.not_lt_zero _))
    rw [List.length_replicate] at hlength
    rw [utf8Offset_zero] at hrun
    rw [hrun]
    refine ⟨_, rfl, ?_⟩
    have hentry : text.indexEntry (utf8 chars).length = (utf8 chars).length :=
      MinyarText.indexEntry_eq hlen.ge
    simp only [hentry]
    have hcrumbs : ∀ entry ≤ chars.length / textIndexStride,
        (if chars.length % textIndexStride = 0 then
          offsets.set (chars.length / textIndexStride) (utf8 chars).length else offsets).getD
            entry 0 = utf8Offset chars (entry * textIndexStride) := by
      intro entry hle
      rcases lt_or_ge (entry * textIndexStride) chars.length with hlt | hge
      · rw [← hall entry hlt]
        split_ifs with hboundary
        · rw [getD_set, if_neg]
          rintro ⟨rfl, -⟩
          rw [Nat.div_mul_cancel (Nat.dvd_of_mod_eq_zero hboundary)] at hlt
          exact lt_irrefl _ hlt
        · rfl
      · -- Only the entry behind the last character of a full stride is left.
        have hlast : entry * textIndexStride = chars.length :=
          le_antisymm ((Nat.mul_le_mul_right _ hle).trans (Nat.div_mul_le_self _ _)) hge
        have hentry' : entry = chars.length / textIndexStride := by
          rw [← hlast, Nat.mul_div_cancel _ (by rw [hstride]; decide)]
        rw [if_pos (by rw [← hlast, Nat.mul_mod_left]), getD_set,
          if_pos ⟨hentry', by rw [hlength]; omega⟩, hlast, utf8Offset_length]
    obtain ⟨hinv, hsameText, hknown⟩ := @TextInv.storeCursor
      { text with
        bytes := utf8 chars
        characterOffsets := some (if chars.length % textIndexStride = 0 then
          offsets.set (chars.length / textIndexStride) (utf8 chars).length else offsets)
        characterLength := chars.length } chars _ rfl hbound rfl rfl
      (by split_ifs <;> simp [hlength]) hcrumbs 0 0 (Nat.zero_le _) rfl
    exact ⟨hinv, ⟨hsameText.bytes.trans h.bytes.symm, hsameText.backing⟩, hknown⟩

/-- A Text has not been counted, is ASCII or has an index. -/
theorem TextInv.cases {text : MinyarText} {chars : List Char} (h : TextInv text chars) :
    (text.characterLength = -1 ∧ text.characterOffsets = none) ∨
    (text.characterLength = chars.length ∧ text.characterOffsets = none ∧
      (utf8 chars).length = chars.length) ∨
    (text.characterLength = chars.length ∧
      ∃ offsets, text.characterOffsets = some offsets ∧ TextOffsets chars offsets) := by
  have hindexed := h.indexed
  generalize text.characterLength = known at hindexed
  generalize text.characterOffsets = offsets at hindexed
  cases hindexed with
  | unknown => exact Or.inl ⟨rfl, rfl⟩
  | ascii hascii => exact Or.inr (Or.inl ⟨rfl, rfl, hascii⟩)
  | indexed hoffsets => exact Or.inr (Or.inr ⟨rfl, _, rfl, hoffsets⟩)

/-- The characters of a Text are counted before they are used. -/
theorem TextInv.ensureTextIndex {text : MinyarText} {chars : List Char} (h : TextInv text chars) :
    ∃ text', ensureTextIndex text = .ok text' ∧ TextInv text' chars ∧ SameText text text' ∧
      text'.characterLength = chars.length := by
  unfold Minyar.ensureTextIndex
  rcases h.cases with ⟨hlength, hoffsets⟩ | ⟨hlength, -⟩ | ⟨hlength, -⟩
  · rw [if_pos (by rw [hlength]; decide)]
    exact h.buildTextIndex hoffsets
  all_goals
    rw [if_neg (by omega)]
    exact ⟨text, rfl, h, SameText.refl text, hlength⟩

/-- The length of a Text is the number of its characters. -/
theorem TextInv.length {text : MinyarText} {chars : List Char} (h : TextInv text chars) :
    ∃ text', minyarTextLength text = .ok (chars.length, text') ∧ TextInv text' chars ∧
      SameText text text' := by
  obtain ⟨text', hrun, hinv, hsame, hlength⟩ := h.ensureTextIndex
  refine ⟨text', ?_, hinv, hsame⟩
  unfold minyarTextLength
  rw [hrun, ← hlength]
  rfl

/-- A lookup finds the byte position wherever the cursor was before. -/
theorem TextInv.indexedByteOffset {text : MinyarText} {chars : List Char} (h : TextInv text chars)
    (hoffsets : text.characterOffsets ≠ none) {position : ℕ} (hposition : position ≤ chars.length) :
    ∃ text', indexedByteOffset text position = .ok (utf8Offset chars position, text') ∧
      TextInv text' chars ∧ SameText text text' ∧ text'.characterLength = chars.length ∧
      text'.characterOffsets ≠ none := by
  rcases h.cases with ⟨-, hnone⟩ | ⟨-, hnone, -⟩ | ⟨hlength, offsets, hsome, hright⟩
  · exact absurd hnone hoffsets
  · exact absurd hnone hoffsets
  have hcursor : text.indexBreadcrumbs = chars.length / textIndexStride + 1 := by
    rw [MinyarText.indexBreadcrumbs, hlength, Int.toNat_natCast]
  have hentry : position / textIndexStride ≤ chars.length / textIndexStride :=
    Nat.div_le_div_right hposition
  have hstart : position / textIndexStride * textIndexStride ≤ position := Nat.div_mul_le_self _ _
  obtain ⟨hinv, hsame, hknown⟩ := TextInv.storeCursor h.bytes h.bound hlength hsome hright.length
    hright.breadcrumb hposition rfl
  -- Both starting points are characters at or before the position, with their byte positions.
  obtain ⟨k, hk, hfrom⟩ : ∃ k ≤ position,
      (if position / textIndexStride * textIndexStride ≤ text.indexLoad text.indexBreadcrumbs ∧
          text.indexLoad text.indexBreadcrumbs ≤ position then
        (text.indexLoad text.indexBreadcrumbs, text.indexLoad (text.indexBreadcrumbs + 1))
      else (position / textIndexStride * textIndexStride,
        text.indexLoad (position / textIndexStride))) = (k, utf8Offset chars k) := by
    rw [MinyarText.indexLoad_some hsome, MinyarText.indexLoad_some hsome,
      MinyarText.indexLoad_some hsome, hcursor, hright.breadcrumb _ hentry, hright.cursor]
    split_ifs with hcached
    · exact ⟨_, hcached.2, rfl⟩
    · exact ⟨_, hstart, rfl⟩
  have hpass : passCharacters (utf8 chars) (position - k) (utf8Offset chars k) =
      .ok (utf8Offset chars position) := by
    rw [passCharacters_spec (by omega), Nat.add_sub_cancel' hk]
  refine ⟨_, ?_, hinv, hsame, hknown, ?_⟩
  · unfold Minyar.indexedByteOffset
    simp only [hfrom, h.bytes, hpass, bind, Except.bind]
  · exact MinyarText.indexStore_ne_none (MinyarText.indexStore_ne_none hoffsets _ _) _ _

/-! ## Characters -/

/-- What a position of a sequence of characters holds. -/
def characterAtSpec (chars : List Char) (position : ℤ) : Except String ℕ :=
  if position < 0 then .error negativeTextPosition
  else match chars[position.toNat]? with
    | some c => .ok c.val.toNat
    | none => .error positionOutsideText

/-- A call on a Text answers as expected, and the Text denotes what it did. -/
def Answers {β : Type} (text : MinyarText) (chars : List Char) (expected : Except String β)
    (result : Except String (β × MinyarText)) : Prop :=
  match expected with
  | .error message => result = .error message
  | .ok answer => ∃ text', result = .ok (answer, text') ∧ TextInv text' chars ∧ SameText text text'

theorem characterAtSpec_of_lt {chars : List Char} {position : ℤ} (hpos : 0 ≤ position)
    (hlt : position.toNat < chars.length) :
    characterAtSpec chars position = .ok (chars[position.toNat]).val.toNat := by
  unfold characterAtSpec
  rw [if_neg (Int.not_lt.mpr hpos), List.getElem?_eq_getElem hlt]

theorem characterAtSpec_of_ge {chars : List Char} {position : ℤ} (hpos : 0 ≤ position)
    (hge : chars.length ≤ position.toNat) :
    characterAtSpec chars position = .error positionOutsideText := by
  unfold characterAtSpec
  rw [if_neg (Int.not_lt.mpr hpos), List.getElem?_eq_none hge]

/-- A byte of an ASCII Text is its character. -/
theorem byteAt_of_ascii {chars : List Char} (h : (utf8 chars).length = chars.length) {k : ℕ}
    (hk : k < chars.length) : byteAt (utf8 chars) k = (chars[k]).val.toNat := by
  have hascii := (length_utf8_eq_iff chars).mp h _ (List.getElem_mem hk)
  rw [byteAt, List.getD_eq_getElem?_getD, getElem?_utf8_of_ascii h hk, Option.getD_some,
    toNat_ofNat_of_lt (by omega)]

/-- An indexed lookup finds the character. -/
theorem TextInv.indexedCharacterAt {text : MinyarText} {chars : List Char} (h : TextInv text chars)
    (hoffsets : text.characterOffsets ≠ none) {position : ℕ} (hposition : position < chars.length) :
    ∃ text', indexedCharacterAt text position = .ok ((chars[position]).val.toNat, text') ∧
      TextInv text' chars ∧ SameText text text' := by
  obtain ⟨moved, hrun, hinv, hsame, hlength, hmoved⟩ :=
    h.indexedByteOffset hoffsets hposition.le
  rcases hinv.cases with ⟨-, hnone⟩ | ⟨-, hnone, -⟩ | ⟨-, offsets, hsome, hright⟩
  · exact absurd hnone hmoved
  · exact absurd hnone hmoved
  obtain ⟨hinv', hsame', -⟩ := TextInv.storeCursor hinv.bytes hinv.bound hlength hsome
    hright.length hright.breadcrumb (Nat.succ_le_of_lt hposition) (utf8Offset_succ hposition).symm
  refine ⟨_, ?_, hinv', hsame.trans hsame'⟩
  unfold Minyar.indexedCharacterAt
  rw [hrun]
  simp only [bind, Except.bind, hinv.bytes, decodeCharacter_drop hposition]

/-- A lookup in a Text whose characters are counted. -/
theorem TextInv.lookup {text : MinyarText} {chars : List Char} (h : TextInv text chars)
    (hknown : text.characterLength = chars.length) {position : ℕ} (hposition : position < chars.length) :
    ∃ text', (if text.characterOffsets = none then Except.ok (byteAt text.bytes position, text)
        else Minyar.indexedCharacterAt text position) =
          Except.ok ((chars[position]).val.toNat, text') ∧
      TextInv text' chars ∧ SameText text text' := by
  split_ifs with hnone
  · rcases h.cases with ⟨hunknown, -⟩ | ⟨-, -, hascii⟩ | ⟨-, offsets, hsome, -⟩
    · omega
    · refine ⟨text, ?_, h, SameText.refl text⟩
      rw [h.bytes, byteAt_of_ascii hascii hposition]
    · rw [hnone] at hsome
      cases hsome
  · exact h.indexedCharacterAt hnone hposition

theorem TextInv.characterAtSlowly {text : MinyarText} {chars : List Char} (h : TextInv text chars)
    (position : ℤ) :
    Answers text chars (characterAtSpec chars position)
      (Minyar.characterAtSlowly text position) := by
  unfold Minyar.characterAtSlowly
  by_cases hnegative : position < 0
  · rw [if_pos hnegative, characterAtSpec, if_pos hnegative]
    rfl
  rw [if_neg hnegative]
  obtain ⟨known, hrun, hinv, hsame, hlength⟩ := h.ensureTextIndex
  simp only [hrun, bind, Except.bind, hlength]
  by_cases hge : (chars.length : ℤ) ≤ position
  · rw [if_pos hge, characterAtSpec_of_ge (Int.not_lt.mp hnegative) (by omega)]
    rfl
  · have hlt : position.toNat < chars.length := by omega
    rw [if_neg hge, characterAtSpec_of_lt (Int.not_lt.mp hnegative) hlt]
    obtain ⟨text', hfound, hinv', hsame'⟩ := hinv.lookup hlength hlt
    exact ⟨text', hfound, hinv', hsame.trans hsame'⟩

/-- The unsigned comparison of the fast path decides that a position is inside the Text. -/
theorem unsigned64_lt_iff {length : ℕ} (hlength : length < 2 ^ 63) (position : Int64) :
    ¬ unsigned64 length ≤ unsigned64 position.toInt ↔
      0 ≤ position.toInt ∧ position.toInt.toNat < length := by
  have hlow := position.le_toInt
  have hhigh := position.toInt_lt
  unfold unsigned64
  omega

/-- A position of a Text holds what the characters say, wherever the cursor was before. -/
theorem TextInv.characterAt {text : MinyarText} {chars : List Char} (h : TextInv text chars)
    (position : Int64) :
    Answers text chars (characterAtSpec chars position.toInt)
      (minyarTextCharacterAt text position) := by
  unfold minyarTextCharacterAt
  by_cases hslow : text.characterLength < 0 ∨
      unsigned64 text.characterLength ≤ unsigned64 position.toInt
  · rw [if_pos hslow]
    exact h.characterAtSlowly position.toInt
  rw [if_neg hslow]
  obtain ⟨hcounted, hinside⟩ := not_or.mp hslow
  have hknown : text.characterLength = chars.length := by
    rcases h.cases with ⟨hunknown, -⟩ | ⟨hlength, -⟩ | ⟨hlength, -⟩
    · omega
    · exact hlength
    · exact hlength
  have hbound := h.bound
  have hle := length_le_utf8 chars
  rw [hknown, unsigned64_lt_iff (by omega)] at hinside
  obtain ⟨text', hfound, hinv, hsame⟩ := h.lookup hknown hinside.2
  rw [characterAtSpec_of_lt hinside.1 hinside.2]
  refine ⟨text', ?_, hinv, hsame⟩
  rw [ite_not, hfound]

end Minyar

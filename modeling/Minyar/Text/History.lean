import Minyar.Library.Machine
import Minyar.Text.Index

/-!
# Histories of Text calls

Programs ask for the length of a Text, for its characters and for slices of it, and slices are Texts
again: the Text itself, a view of its bytes or a copy of them.  Every call may build an index or move
its cursor, in a Text that other values share.

`textAnswers_eq` compares whole histories with the machine that keeps the sequences of characters
themselves: the answers and the stop are the same, whatever was looked up before.
-/

namespace Minyar

/-- The stop of a slice that leaves its Text. -/
def sliceOutsideText : String := "a Text slice must stay within the Text and end after it starts."

/-- A reference that no call has returned; programs have none. -/
def noSuchText : String := "no such Text"

/-! ## The runtime -/

/-- The Texts that exist, and the references that the program has been given. -/
structure TextMachine where
  /-- The Texts. -/
  texts : List MinyarText
  /-- The references, in the order of the calls that returned them. -/
  values : List ℕ
  deriving DecidableEq, Repr

/-- The byte positions of the ends of a slice, and the Text with its cursor there. -/
def slicePositions (text : MinyarText) (start stop : ℕ) : Except String (ℕ × ℕ × MinyarText) :=
  if text.characterOffsets ≠ none then do
    let (first, text) ← indexedByteOffset text start
    let (last, text) ← indexedByteOffset text stop
    .ok (first, last, text)
  else .ok (start, stop, text)

/-- The number of bytes of a Text of the store. -/
def storedByteLength (texts : List MinyarText) (reference : ℕ) : ℕ :=
  (texts[reference]?.map MinyarText.byteLength).getD 0

/-- `minyar_text_slice` of the Text with a reference: the reference of the slice and the Texts. -/
def textSlice (texts : List MinyarText) (reference : ℕ) (text : MinyarText) (start stop : Int64) :
    Except String (ℕ × List MinyarText) := do
  let text ← ensureTextIndex text
  if start.toInt < 0 ∨ stop.toInt < start.toInt ∨ text.characterLength < stop.toInt then
    .error sliceOutsideText
  else do
    let (first, last, text) ← slicePositions text start.toInt.toNat stop.toInt.toNat
    let texts := texts.set reference text
    let length := last - first
    let characters := stop.toInt - start.toInt
    let slice : MinyarText := {
      bytes := (text.bytes.drop first).take length
      characterLength := if (length : ℤ) = characters then characters else -1 }
    let root := text.backing.getD reference
    if first = 0 ∧ length = text.byteLength then .ok (reference, texts)
    else if 4096 < storedByteLength texts root ∧
        length * 8 % 2 ^ 64 < storedByteLength texts root then
      .ok (texts.length, texts ++ [slice])
    else .ok (texts.length, texts ++ [{ slice with backing := some root }])

/-! ## Calls -/

/-- A call on a Text: the value is the number of an earlier result. -/
inductive TextCall where
  /-- `minyar_text_length`. -/
  | length (value : ℕ)
  /-- `minyar_text_character_at`. -/
  | characterAt (value : ℕ) (position : Int64)
  /-- `minyar_text_slice`. -/
  | slice (value : ℕ) (start stop : Int64)

/-- What the program observes of a result. -/
inductive TextAnswer where
  /-- A number of characters. -/
  | length (characters : ℤ)
  /-- A code point. -/
  | character (code : ℕ)
  /-- The bytes of a new Text. -/
  | text (bytes : List UInt8)
  deriving DecidableEq, Repr

/-- The reference of a value and its Text. -/
def TextMachine.find (m : TextMachine) (value : ℕ) : Option (ℕ × MinyarText) := do
  let reference ← m.values[value]?
  let text ← m.texts[reference]?
  some (reference, text)

/-- A call of the runtime. -/
def TextMachine.call (m : TextMachine) : TextCall → Except String (TextAnswer × TextMachine)
  | .length value =>
    match m.find value with
    | none => .error noSuchText
    | some (reference, text) => do
      let (characters, text) ← minyarTextLength text
      .ok (.length characters, { m with texts := m.texts.set reference text })
  | .characterAt value position =>
    match m.find value with
    | none => .error noSuchText
    | some (reference, text) => do
      let (code, text) ← minyarTextCharacterAt text position
      .ok (.character code, { m with texts := m.texts.set reference text })
  | .slice value start stop =>
    match m.find value with
    | none => .error noSuchText
    | some (reference, text) => do
      let (slice, texts) ← textSlice m.texts reference text start stop
      .ok (.text ((texts[slice]?.map MinyarText.bytes).getD []),
        { texts := texts, values := m.values ++ [slice] })

/-- Before the first call: one Text with these bytes, which have not been looked at. -/
def TextMachine.start (bytes : List UInt8) : TextMachine where
  texts := [{ bytes := bytes, characterLength := -1 }]
  values := [0]

/-! ## The characters -/

/-- What a slice of a sequence of characters is. -/
def sliceSpec (chars : List Char) (start stop : ℤ) : Except String (List Char) :=
  if start < 0 ∨ stop < start ∨ chars.length < stop then .error sliceOutsideText
  else .ok (utf8Slice chars start.toNat stop.toNat)

/-- A call on sequences of characters. -/
def callSpec (values : List (List Char)) : TextCall → Except String (TextAnswer × List (List Char))
  | .length value =>
    match values[value]? with
    | none => .error noSuchText
    | some chars => .ok (.length chars.length, values)
  | .characterAt value position =>
    match values[value]? with
    | none => .error noSuchText
    | some chars => do
      let code ← characterAtSpec chars position.toInt
      .ok (.character code, values)
  | .slice value start stop =>
    match values[value]? with
    | none => .error noSuchText
    | some chars => do
      let slice ← sliceSpec chars start.toInt stop.toInt
      .ok (.text (utf8 slice), values ++ [slice])

/-! ## The runtime denotes the characters -/

/-- Every Text of the store denotes a sequence of characters. -/
structure TextStoreInv (texts : List MinyarText) (denoted : List (List Char)) : Prop where
  /-- Every Text has one. -/
  length : texts.length = denoted.length
  /-- It is the one that the bytes encode. -/
  denotes : ∀ {reference text}, texts[reference]? = some text →
    TextInv text (denoted.getD reference [])

/-- The values of the program denote sequences of characters. -/
def TextMachineInv (m : TextMachine) (values : List (List Char)) : Prop :=
  ∃ denoted, TextStoreInv m.texts denoted ∧ (∀ reference ∈ m.values, reference < m.texts.length) ∧
    values = m.values.map fun reference => denoted.getD reference []

namespace TextStoreInv

variable {texts : List MinyarText} {denoted : List (List Char)}

/-- A Text may be replaced by one that denotes the same. -/
theorem set (h : TextStoreInv texts denoted) {reference : ℕ} {text : MinyarText}
    (htext : TextInv text (denoted.getD reference [])) :
    TextStoreInv (texts.set reference text) denoted where
  length := by rw [List.length_set, h.length]
  denotes {r t} ht := by
    rw [List.getElem?_set] at ht
    split_ifs at ht with hsame hlt
    · cases ht
      exact hsame ▸ htext
    · exact h.denotes ht

/-- A Text may be added. -/
theorem append (h : TextStoreInv texts denoted) {text : MinyarText} {chars : List Char}
    (htext : TextInv text chars) : TextStoreInv (texts ++ [text]) (denoted ++ [chars]) where
  length := by rw [List.length_append, List.length_append, h.length]; rfl
  denotes {r t} ht := by
    rcases lt_trichotomy r texts.length with hlt | rfl | hgt
    · rw [List.getElem?_append_left hlt] at ht
      rw [List.getD_append _ _ _ _ (h.length ▸ hlt)]
      exact h.denotes ht
    · rw [List.getElem?_concat_length] at ht
      cases ht
      rw [h.length, List.getD_append_right _ _ _ _ le_rfl, Nat.sub_self]
      exact htext
    · rw [List.getElem?_eq_none (by rw [List.length_append, List.length_singleton]; omega)] at ht
      cases ht

end TextStoreInv

/-! ## Slices -/

theorem TextInv.slicePositions {text : MinyarText} {chars : List Char} (h : TextInv text chars)
    (hknown : text.characterLength = chars.length) {start stop : ℕ} (hstart : start ≤ stop)
    (hstop : stop ≤ chars.length) :
    ∃ text', slicePositions text start stop =
        .ok (utf8Offset chars start, utf8Offset chars stop, text') ∧
      TextInv text' chars ∧ SameText text text' := by
  unfold Minyar.slicePositions
  split_ifs with hoffsets
  · obtain ⟨text₁, hrun₁, hinv₁, hsame₁, -, hoffsets₁⟩ :=
      h.indexedByteOffset hoffsets (hstart.trans hstop)
    obtain ⟨text₂, hrun₂, hinv₂, hsame₂, -, -⟩ := hinv₁.indexedByteOffset hoffsets₁ hstop
    refine ⟨text₂, ?_, hinv₂, hsame₁.trans hsame₂⟩
    simp only [hrun₁, hrun₂, bind, Except.bind]
  · rcases h.cases with ⟨hunknown, -⟩ | ⟨-, -, hascii⟩ | ⟨-, offsets, hsome, -⟩
    · omega
    · refine ⟨text, ?_, h, SameText.refl text⟩
      rw [utf8Offset_of_ascii hascii (hstart.trans hstop), utf8Offset_of_ascii hascii hstop]
    · exact absurd (by rw [hsome]; exact Option.some_ne_none _) hoffsets

/-- The header of a new slice: the characters are known if there are as many as bytes. -/
theorem TextInv.slice {chars : List Char} (hbound : (utf8 chars).length < 2 ^ 63)
    {start stop : ℕ} (hstart : start ≤ stop) (hstop : stop ≤ chars.length) (backing : Option ℕ) :
    TextInv
      { bytes := ((utf8 chars).drop (utf8Offset chars start)).take
          (utf8Offset chars stop - utf8Offset chars start)
        characterLength :=
          if ((utf8Offset chars stop - utf8Offset chars start : ℕ) : ℤ) = (stop : ℤ) - start then
            (stop : ℤ) - start else -1
        backing := backing }
      (utf8Slice chars start stop) := by
  have hbytes : utf8 (utf8Slice chars start stop) = _ := utf8_utf8Slice hstart
  have hmono : utf8Offset chars start ≤ utf8Offset chars stop := utf8Offset_mono hstart
  have hle := utf8Offset_le chars stop
  have hlength : (utf8 (utf8Slice chars start stop)).length =
      utf8Offset chars stop - utf8Offset chars start := by
    rw [hbytes, List.length_take, List.length_drop]
    omega
  have hcount : (utf8Slice chars start stop).length = stop - start := length_utf8Slice hstop
  refine ⟨hbytes.symm, by omega, ?_⟩
  split_ifs with hsame
  · have hcast : (stop : ℤ) - start = ((utf8Slice chars start stop).length : ℤ) := by omega
    rw [hcast]
    exact .ascii (by omega)
  · exact .unknown

/-- A slice with all bytes is the whole Text. -/
theorem utf8Slice_eq_self {chars : List Char} {start stop : ℕ} (hstart : start ≤ stop)
    (hstop : stop ≤ chars.length) (hfirst : utf8Offset chars start = 0)
    (hlast : utf8Offset chars stop = (utf8 chars).length) : utf8Slice chars start stop = chars := by
  have hzero : start = 0 := by
    have := le_utf8Offset (hstart.trans hstop)
    omega
  have hend : stop = chars.length := by
    by_contra hne
    have := utf8Offset_lt (lt_of_le_of_ne hstop hne)
    omega
  rw [hzero, hend, utf8Slice, List.take_length, List.drop_zero]

/-- What a slice leaves behind: the Texts denote what they did, and the result is the slice. -/
def SliceAnswers (texts : List MinyarText) (denoted : List (List Char))
    (expected : Except String (List Char)) (result : Except String (ℕ × List MinyarText)) : Prop :=
  match expected with
  | .error message => result = .error message
  | .ok slice => ∃ reference texts' denoted', result = .ok (reference, texts') ∧
      TextStoreInv texts' denoted' ∧ texts.length ≤ texts'.length ∧ reference < texts'.length ∧
      denoted'.getD reference [] = slice ∧
      ∀ r < texts.length, denoted'.getD r [] = denoted.getD r []

/-- A new slice is added to the store. -/
theorem TextStoreInv.addSlice {texts : List MinyarText} {denoted : List (List Char)}
    (h : TextStoreInv texts denoted) {text : MinyarText} {chars : List Char}
    (htext : TextInv text chars) :
    SliceAnswers texts denoted (.ok chars) (.ok (texts.length, texts ++ [text])) := by
  refine ⟨_, _, _, rfl, h.append htext, ?_, ?_, ?_, ?_⟩
  · rw [List.length_append]
    exact Nat.le_add_right _ _
  · rw [List.length_append]
    exact Nat.lt_succ_self _
  · rw [h.length, List.getD_append_right _ _ _ _ le_rfl, Nat.sub_self]
    rfl
  · intro r hr
    exact List.getD_append _ _ _ _ (h.length ▸ hr)

/-- A slice of a Text has the characters of the slice, whether it is the Text, a view or a copy. -/
theorem TextStoreInv.textSlice {texts : List MinyarText} {denoted : List (List Char)}
    (h : TextStoreInv texts denoted) {reference : ℕ} {text : MinyarText}
    (hlt : reference < texts.length) (htext : TextInv text (denoted.getD reference []))
    (start stop : Int64) :
    SliceAnswers texts denoted (sliceSpec (denoted.getD reference []) start.toInt stop.toInt)
      (textSlice texts reference text start stop) := by
  generalize hchars : denoted.getD reference [] = chars at htext
  unfold Minyar.textSlice
  obtain ⟨known, hknown, hinv, hsame, hlength⟩ := htext.ensureTextIndex
  simp only [hknown, bind, Except.bind, hlength]
  by_cases hout : start.toInt < 0 ∨ stop.toInt < start.toInt ∨ (chars.length : ℤ) < stop.toInt
  · rw [if_pos hout, sliceSpec, if_pos hout]
    rfl
  rw [if_neg hout, sliceSpec, if_neg hout]
  obtain ⟨hstart, hstop⟩ : start.toInt.toNat ≤ stop.toInt.toNat ∧
      stop.toInt.toNat ≤ chars.length := by omega
  have hstartCast : start.toInt = (start.toInt.toNat : ℤ) := by omega
  have hstopCast : stop.toInt = (stop.toInt.toNat : ℤ) := by omega
  generalize start.toInt.toNat = first at *
  generalize stop.toInt.toNat = last at *
  obtain ⟨found, hfound, hinv', hsame'⟩ := hinv.slicePositions hlength hstart hstop
  have hstore : TextStoreInv (texts.set reference found) denoted := h.set (hchars ▸ hinv')
  simp only [hfound, hinv'.bytes, hstartCast, hstopCast]
  have hset : texts.length = (texts.set reference found).length := List.length_set.symm
  by_cases hwhole : utf8Offset chars first = 0 ∧
      utf8Offset chars last - utf8Offset chars first = found.byteLength
  · have hself : utf8Slice chars first last = chars := by
      have hmono : utf8Offset chars first ≤ utf8Offset chars last := utf8Offset_mono hstart
      have hle := utf8Offset_le chars last
      have hbytes : found.byteLength = (utf8 chars).length := by
        rw [MinyarText.byteLength, hinv'.bytes]
      exact utf8Slice_eq_self hstart hstop hwhole.1 (by omega)
    rw [if_pos hwhole]
    exact ⟨_, _, denoted, rfl, hstore, hset.le, hset ▸ hlt, hchars.trans hself.symm,
      fun _ _ => rfl⟩
  rw [if_neg hwhole, SliceAnswers, hset]
  by_cases hcopy : 4096 < storedByteLength (texts.set reference found)
        (found.backing.getD reference) ∧
      (utf8Offset chars last - utf8Offset chars first) * 8 % 2 ^ 64 <
        storedByteLength (texts.set reference found) (found.backing.getD reference)
  · rw [if_pos hcopy]
    exact hstore.addSlice (TextInv.slice htext.bound hstart hstop none)
  · rw [if_neg hcopy]
    exact hstore.addSlice (TextInv.slice htext.bound hstart hstop _)

namespace TextMachineInv

variable {m : TextMachine} {values : List (List Char)}

theorem find_none (h : TextMachineInv m values) {value : ℕ} (hvalue : values[value]? = none) :
    m.find value = none := by
  obtain ⟨denoted, -, -, rfl⟩ := h
  rw [List.getElem?_map, Option.map_eq_none_iff] at hvalue
  simp only [TextMachine.find, hvalue]
  rfl

theorem find_some (h : TextMachineInv m values) {value : ℕ} {chars : List Char}
    (hvalue : values[value]? = some chars) :
    ∃ denoted reference text, TextStoreInv m.texts denoted ∧
      (∀ r ∈ m.values, r < m.texts.length) ∧
      (values = m.values.map fun r => denoted.getD r []) ∧
      m.find value = some (reference, text) ∧ reference < m.texts.length ∧
      denoted.getD reference [] = chars ∧ TextInv text chars := by
  obtain ⟨denoted, hstore, hvalid, rfl⟩ := h
  rw [List.getElem?_map, Option.map_eq_some_iff] at hvalue
  obtain ⟨reference, href, rfl⟩ := hvalue
  have hlt := hvalid reference (List.mem_of_getElem? href)
  have htext := List.getElem?_eq_getElem hlt
  refine ⟨denoted, reference, _, hstore, hvalid, rfl, ?_, hlt, rfl, hstore.denotes htext⟩
  simp only [TextMachine.find, href, htext, Option.bind_eq_bind, Option.bind_some]

end TextMachineInv

/-! ## Histories -/

/-- A call that changes one Text, and not what it denotes. -/
theorem TextMachineInv.sameStep {m : TextMachine} {denoted : List (List Char)}
    (hstore : TextStoreInv m.texts denoted) (hvalid : ∀ r ∈ m.values, r < m.texts.length)
    {reference : ℕ} {text : MinyarText} {β : Type} {expected : Except String β}
    {result : Except String (β × MinyarText)}
    (hanswers : Answers text (denoted.getD reference []) expected result)
    (answer : β → TextAnswer) :
    SameStep TextMachineInv
      (do let (b, text) ← result
          .ok (answer b, { m with texts := m.texts.set reference text }))
      (do let b ← expected
          .ok (answer b, m.values.map fun r => denoted.getD r [])) := by
  rcases expected with message | b
  · rw [show result = .error message from hanswers]
    rfl
  · obtain ⟨text', hrun, hinv, -⟩ := hanswers
    rw [hrun]
    refine ⟨rfl, denoted, hstore.set hinv, ?_, rfl⟩
    intro r hr
    rw [List.length_set]
    exact hvalid r hr

/-- Every call of the runtime does what the characters say. -/
theorem TextMachineInv.call {m : TextMachine} {values : List (List Char)}
    (h : TextMachineInv m values) (call : TextCall) :
    SameStep TextMachineInv (m.call call) (callSpec values call) := by
  cases call with
  | length value =>
    rw [TextMachine.call, callSpec]
    rcases hvalue : values[value]? with _ | chars
    · rw [h.find_none hvalue]
      rfl
    · obtain ⟨denoted, reference, text, hstore, hvalid, rfl, hfind, -, rfl, htext⟩ :=
        h.find_some hvalue
      rw [hfind]
      have hanswers : Answers text (denoted.getD reference [])
          (.ok ((denoted.getD reference []).length : ℤ)) (minyarTextLength text) := htext.length
      exact TextMachineInv.sameStep hstore hvalid hanswers .length
  | characterAt value position =>
    rw [TextMachine.call, callSpec]
    rcases hvalue : values[value]? with _ | chars
    · rw [h.find_none hvalue]
      rfl
    · obtain ⟨denoted, reference, text, hstore, hvalid, rfl, hfind, -, rfl, htext⟩ :=
        h.find_some hvalue
      rw [hfind]
      exact TextMachineInv.sameStep hstore hvalid (htext.characterAt position) .character
  | slice value start stop =>
    rw [TextMachine.call, callSpec]
    rcases hvalue : values[value]? with _ | chars
    · rw [h.find_none hvalue]
      rfl
    · obtain ⟨denoted, reference, text, hstore, hvalid, rfl, hfind, hlt, rfl, htext⟩ :=
        h.find_some hvalue
      rw [hfind]
      have hslice := hstore.textSlice hlt htext start stop
      simp only
      generalize sliceSpec (denoted.getD reference []) start.toInt stop.toInt = expected at *
      rcases expected with message | slice
      · rw [show textSlice m.texts reference text start stop = .error message from hslice]
        rfl
      · obtain ⟨r', texts', denoted', hrun, hstore', hle, hlt', hdenoted, hkeep⟩ := hslice
        rw [hrun]
        have htext' := hstore'.denotes (List.getElem?_eq_getElem hlt')
        refine ⟨?_, denoted', hstore', ?_, ?_⟩
        · rw [List.getElem?_eq_getElem hlt', Option.map_some, Option.getD_some, htext'.bytes,
            hdenoted]
        · intro r hr
          rcases List.mem_append.mp hr with hr | hr
          · exact (hvalid r hr).trans_le hle
          · rw [List.mem_singleton.mp hr]
            exact hlt'
        · rw [List.map_append, List.map_singleton, hdenoted]
          congr 1
          exact List.map_congr_left fun r hr => (hkeep r (hvalid r hr)).symm

/-- The first Text denotes the characters that its bytes encode. -/
theorem TextMachineInv.start {chars : List Char} (hbound : (utf8 chars).length < 2 ^ 63) :
    TextMachineInv (.start (utf8 chars)) [chars] := by
  refine ⟨[chars], ⟨rfl, ?_⟩, ?_, rfl⟩
  · intro reference text htext
    rcases reference with _ | reference
    · cases htext
      exact ⟨rfl, hbound, .unknown⟩
    · cases htext
  · intro reference hreference
    rw [List.mem_singleton.mp hreference]
    exact Nat.one_pos

/-- On a Text with the encoding of some characters, every history of calls has the answers, and the
stop, that the characters give. -/
theorem textAnswers_eq (bytes : List UInt8) (chars : List Char) (hbytes : bytes = utf8 chars)
    (hbound : bytes.length < 2 ^ 63) (calls : List TextCall) :
    answers TextMachine.call calls (.start bytes) = answers callSpec calls [chars] := by
  subst hbytes
  exact answers_eq (fun _ _ call h => h.call call) (TextMachineInv.start hbound) calls

/-- A Text with a three-byte character: the last call leaves it. -/
theorem textAnswers_eq_euro :
    answers TextMachine.call
      [.characterAt 0 1, .slice 0 1 3, .length 1, .characterAt 1 1, .characterAt 0 3]
      (.start [97, 0xe2, 0x82, 0xac, 98]) =
    ([.character 0x20ac, .text [0xe2, 0x82, 0xac, 98], .length 2, .character 98],
      some positionOutsideText) :=
  (textAnswers_eq [97, 0xe2, 0x82, 0xac, 98] ['a', '€', 'b'] (by decide) (by decide) _).trans
    (by decide)

end Minyar

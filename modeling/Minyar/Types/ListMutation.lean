import Mathlib.Algebra.Order.Ring.Nat
import Mathlib.Data.List.GetD
import Mathlib.Logic.Relation
import Mathlib.Tactic.Common
import Minyar.Types.TypeCode

/-!
# The List mutation check

`checkListMutation` rejects `.add` and indexed replacement on a List whose element type can lead
back to the List's own type through record fields and List elements.  It works on the compiler's
tables: `counts` holds the field count of every symbol followed by the offset of its first field,
`fields` the type codes of all fields, and the tail of `returnTypes` caches the List types that
were already found safe.

`RecordTable` packages such tables with the source declarations they stand for.  `CodeEdge` is the
containment of type codes that the check searches, and `checkListMutation_sound` states that an
accepted code is not reachable from the code of its elements, whatever types have these codes.
`TypeEdge` is the containment of the types themselves; `TypeReach.code` says that the codes follow it
as long as every record has a code below the List offset.
-/

namespace Minyar

open Relation

/-- The record declarations of a program together with the tables the compiler built for them.
`counts` may describe further symbols (functions) after the records. -/
structure RecordTable where
  /-- The field types of each record, by symbol index. -/
  records : List (List MinType)
  /-- `functionParameterCounts`: field counts, then first-field offsets. -/
  counts : List ℕ
  /-- `functionParameterTypes`: the type codes of all fields. -/
  fields : List ℕ
  /-- Every record has a field count and an offset. -/
  length_le : records.length ≤ counts.length / 2
  /-- The first block of `counts` holds the field counts. -/
  count_eq : ∀ r (h : r < records.length), counts.getD r 0 = records[r].length
  /-- The second block of `counts` locates the field codes. -/
  field_eq : ∀ r (h : r < records.length) i (hi : i < records[r].length),
    fields.getD (counts.getD (counts.length / 2 + r) 0 + i) 0 = records[r][i].code
  /-- Field types name declared records only. -/
  declared : ∀ r (h : r < records.length), ∀ t ∈ records[r], t.Declared records.length

/-- The field counts of a list of record declarations followed by the offsets of their first
fields, as `discoverDeclarations` and `appendParameterOffsets` leave them. -/
def recordCounts (records : List (List MinType)) : List ℕ :=
  records.map List.length ++
    (List.range records.length).map fun r => ((records.take r).map List.length).sum

/-- In a concatenation the elements of the `r`-th part start after the parts before it. -/
lemma flatten_getElem? {α : Type*} (parts : List (List α)) {r i : ℕ} (hr : r < parts.length)
    (hi : i < parts[r].length) :
    parts.flatten[((parts.take r).map List.length).sum + i]? = some parts[r][i] := by
  induction parts generalizing r with
  | nil => simp at hr
  | cons part parts ih =>
    cases r with
    | zero =>
      simp only [List.getElem_cons_zero] at hi
      simp [List.getElem?_append_left hi]
    | succ r =>
      simp only [List.getElem_cons_succ] at hi ⊢
      rw [List.flatten_cons, List.getElem?_append_right (by simp; omega)]
      rw [← ih (by simpa using hr) hi]
      congr 1
      simp
      omega

/-- The tables of a program that declares the given records and nothing else. -/
def RecordTable.ofRecords (records : List (List MinType))
    (h : ∀ fields ∈ records, ∀ t ∈ fields, t.Declared records.length) : RecordTable where
  records := records
  counts := recordCounts records
  fields := records.flatten.map MinType.code
  length_le := by simp [recordCounts]; omega
  count_eq r hr := by
    rw [recordCounts, List.getD_eq_getElem?_getD, List.getElem?_append_left (by simpa using hr)]
    simp [hr]
  field_eq r hr i hi := by
    have hhalf : (recordCounts records).length / 2 = records.length := by
      simp [recordCounts]
      omega
    have hoffset : (recordCounts records).getD (records.length + r) 0 =
        ((records.take r).map List.length).sum := by
      rw [recordCounts, List.getD_eq_getElem?_getD, List.getElem?_append_right (by simp)]
      simp [hr]
    rw [hhalf, hoffset, List.getD_eq_getElem?_getD, List.getElem?_map, flatten_getElem? _ hr hi]
    rfl
  declared r hr := h _ (List.getElem_mem hr)

/-- `functionParameterOffset`. -/
def functionParameterOffset (counts : List ℕ) (functionIndex : ℕ) : ℕ :=
  counts.getD (counts.length / 2 + functionIndex) 0

/-- The loop `while isListType(base) { base = listElementType(base) }`.  Every round subtracts
the List offset, so the value itself bounds the number of rounds. -/
def stripLists : ℕ → ℕ → ℕ
  | 0, base => base
  | rounds + 1, base =>
    if isListType base then stripLists rounds (listElementType base) else base

/-- The inner loop of the traversal: strip the List constructors of a pending type and fail
(`none`) on meeting the List type under test. -/
def peelLists (listType : ℕ) : ℕ → ℕ → Option ℕ
  | 0, type => some type
  | rounds + 1, type =>
    if isListType type then
      if type = listType then none else peelLists listType rounds (listElementType type)
    else some type

/-- The type codes of the fields of a record, in declaration order. -/
def fieldTypes (counts fields : List ℕ) (record : ℕ) : List ℕ :=
  (List.range (counts.getD record 0)).map fun field =>
    fields.getD (functionParameterOffset counts record + field) 0

/-- The traversal loop over the pending types that remain, with the record marks so far.  It
returns the final marks, or `none` when the check fails. -/
def checkPending (listType : ℕ) (counts fields : List ℕ) :
    ℕ → List Bool → List ℕ → Option (List Bool)
  | _, visited, [] => some visited
  | 0, _, _ :: _ => none
  | rounds + 1, visited, type :: pending =>
    match peelLists listType type type with
    | none => none
    | some type =>
      if isRecordType type && !visited.getD (type - 1000) false then
        checkPending listType counts fields rounds (visited.set (type - 1000) true)
          (pending ++ fieldTypes counts fields (type - 1000))
      else checkPending listType counts fields rounds visited pending

/-- Every record is entered once, so its fields are pending once: this many rounds suffice. -/
def pendingRounds (counts : List ℕ) : ℕ := 1 + (counts.take (counts.length / 2)).sum

/-- `checkListMutation`: `none` when compilation fails, else the new cache of safe List types. -/
def checkListMutation (listType : ℕ) (counts fields cache : List ℕ) : Option (List ℕ) :=
  let base := stripLists listType (listElementType listType)
  if !isRecordType base then some cache
  else if listType ∈ cache then some cache
  else
    (checkPending listType counts fields (pendingRounds counts)
      (List.replicate (counts.length / 2) false) [listElementType listType]).map
      fun _ => cache ++ [listType]

/-- One step of containment between types: a List contains its element type, a record the types
of its fields. -/
inductive TypeEdge (records : List (List MinType)) : MinType → MinType → Prop
  | element (t : MinType) : TypeEdge records (.list t) t
  | field (r : ℕ) (h : r < records.length) {t : MinType} (ht : t ∈ records[r]) :
      TypeEdge records (.record r) t

/-- Type containment, through any number of record fields and List elements. -/
def TypeReach (records : List (List MinType)) : MinType → MinType → Prop :=
  ReflTransGen (TypeEdge records)

/-- Every record contained in the type has a code below the List offset. -/
def Unambiguous (records : List (List MinType)) (t : MinType) : Prop :=
  ∀ u, TypeReach records t u → u.Small

/-- Containment in an unambiguous type is unambiguous. -/
lemma Unambiguous.of_reach {records : List (List MinType)} {t u : MinType}
    (h : Unambiguous records t) (htu : TypeReach records t u) : Unambiguous records u :=
  fun v huv => h v (htu.trans huv)

/-- One step of containment between type codes, as the compiler reads them: a List code contains the
code of its elements, a record code the codes of the record's fields. -/
inductive CodeEdge (counts fields : List ℕ) : ℕ → ℕ → Prop
  | element {code : ℕ} (h : isListType code = true) :
      CodeEdge counts fields code (listElementType code)
  | field {code type : ℕ} (h : isRecordType code = true)
      (ht : type ∈ fieldTypes counts fields (code - 1000)) : CodeEdge counts fields code type

/-- Containment of type codes, through any number of record fields and List elements. -/
def CodeReach (counts fields : List ℕ) : ℕ → ℕ → Prop := ReflTransGen (CodeEdge counts fields)

/-! ## The two stripping loops -/

/-- The stripping loop leaves the code below the List offset. -/
lemma stripLists_eq {n code : ℕ} (hn : code ≤ n) : stripLists n code = code % 100000 := by
  induction n generalizing code with
  | zero =>
    obtain rfl : code = 0 := by omega
    rfl
  | succ n ih =>
    rw [stripLists]
    by_cases hlist : isListType code = true
    · have hge : 100000 ≤ code := of_decide_eq_true hlist
      have hle : listElementType code ≤ n := by
        unfold listElementType
        omega
      rw [if_pos hlist, ih hle]
      unfold listElementType
      omega
    · have hlt : code < 100000 := by simpa [isListType] using hlist
      rw [if_neg hlist, Nat.mod_eq_of_lt hlt]

/-- The peeling loop fails exactly when the code under test comes from stripping List offsets off the
given code. -/
lemma peelLists_eq {listType n code : ℕ} (hlist : isListType listType = true) (hn : code ≤ n) :
    peelLists listType n code =
      if listType ≤ code ∧ code % 100000 = listType % 100000 then none else some (code % 100000) := by
  have hoffset : 100000 ≤ listType := of_decide_eq_true hlist
  induction n generalizing code with
  | zero =>
    obtain rfl : code = 0 := by omega
    rw [peelLists, if_neg (by omega)]
  | succ n ih =>
    rw [peelLists]
    by_cases hcode : isListType code = true
    · have hge : 100000 ≤ code := of_decide_eq_true hcode
      have hle : listElementType code ≤ n := by
        unfold listElementType
        omega
      have hmod : listElementType code % 100000 = code % 100000 := by
        unfold listElementType
        omega
      rw [if_pos hcode]
      by_cases heq : code = listType
      · rw [if_pos heq, if_pos ⟨heq.ge, by rw [heq]⟩]
      · rw [if_neg heq, ih hle, hmod]
        have hiff : (listType ≤ listElementType code ∧ code % 100000 = listType % 100000) ↔
            listType ≤ code ∧ code % 100000 = listType % 100000 := by
          unfold listElementType
          omega
        simp only [hiff]
    · have hlt : code < 100000 := by simpa [isListType] using hcode
      rw [if_neg hcode, if_neg (by omega), Nat.mod_eq_of_lt hlt]

/-! ## Codes of the tables -/

/-- The record that a code leads to when all List offsets are stripped, if there is one, is one of the
first `n`. -/
def InTable (n code : ℕ) : Prop := isRecordType (code % 100000) = true → code % 100000 - 1000 < n

/-- The code of a declared type leads to a record of the table, even where codes are ambiguous. -/
lemma MinType.Declared.inTable {n : ℕ} {t : MinType} (h : t.Declared n) : InTable n t.code := by
  unfold InTable isRecordType
  rw [Bool.and_eq_true, decide_eq_true_iff, decide_eq_true_iff]
  induction t with
  | list t ih =>
    have := ih h
    simp only [MinType.code]
    omega
  | record r =>
    have hr : r < n := h
    simp only [MinType.code]
    omega
  | integer => simp [MinType.code]
  | text => simp [MinType.code]
  | character => simp [MinType.code]
  | boolean => simp [MinType.code]

/-- So does the code of its elements. -/
lemma InTable.element {n code : ℕ} (h : InTable n code) (hlist : isListType code = true) :
    InTable n (listElementType code) := by
  have hge : 100000 ≤ code := of_decide_eq_true hlist
  have hmod : listElementType code % 100000 = code % 100000 := by
    unfold listElementType
    omega
  unfold InTable
  rw [hmod]
  exact h

/-- The tables list the codes of a record's field types. -/
lemma RecordTable.fieldTypes_eq (table : RecordTable) {r : ℕ} (h : r < table.records.length) :
    fieldTypes table.counts table.fields r = table.records[r].map MinType.code := by
  rw [fieldTypes, table.count_eq r h]
  apply List.ext_getElem
  · simp
  · intro i h₁ h₂
    have hi : i < table.records[r].length := by simpa using h₂
    simpa [functionParameterOffset] using table.field_eq r h i hi

/-- The codes of field types lead to records of the table. -/
lemma RecordTable.inTable (table : RecordTable) {r : ℕ} (h : r < table.records.length) {code : ℕ}
    (hcode : code ∈ fieldTypes table.counts table.fields r) : InTable table.records.length code := by
  rw [table.fieldTypes_eq h] at hcode
  obtain ⟨t, ht, rfl⟩ := List.mem_map.mp hcode
  exact (table.declared r h t ht).inTable

/-- Containment of types below the List offset is containment of their codes. -/
lemma TypeReach.code (table : RecordTable) {t u : MinType} (ht : Unambiguous table.records t)
    (h : TypeReach table.records t u) : CodeReach table.counts table.fields t.code u.code := by
  induction h with
  | refl => exact ReflTransGen.refl
  | @tail _ v hreach hedge ih =>
    refine ih.tail ?_
    cases hedge with
    | element =>
      have hcode := @CodeEdge.element table.counts table.fields _ (MinType.isListType_code_list v)
      rwa [MinType.listElementType_code_list] at hcode
    | field r hr hmem =>
      refine .field (MinType.isRecordType_code_record (ht _ hreach)).1 ?_
      have hindex : (MinType.record r).code - 1000 = r := Nat.add_sub_cancel_left 1000 r
      rw [hindex, table.fieldTypes_eq hr]
      exact List.mem_map_of_mem hmem

/-! ## Soundness of the traversal -/

/-- A code is *covered* by record marks when stripping List offsets off it does not meet the code under
test and the record under its Lists, if there is one, is marked. -/
structure Covered (listType : ℕ) (visited : List Bool) (code : ℕ) : Prop where
  /-- The code under test is not met. -/
  not_met : ¬ (listType ≤ code ∧ code % 100000 = listType % 100000)
  /-- The record under the Lists is marked. -/
  marked : isRecordType (code % 100000) = true → visited.getD (code % 100000 - 1000) false = true

/-- The code of the elements of a covered List code is covered. -/
lemma Covered.element {listType code : ℕ} {visited : List Bool} (h : Covered listType visited code)
    (hlist : isListType code = true) : Covered listType visited (listElementType code) := by
  have hge : 100000 ≤ code := of_decide_eq_true hlist
  have hmod : listElementType code % 100000 = code % 100000 := by
    unfold listElementType
    omega
  have hnot := h.not_met
  refine ⟨?_, ?_⟩
  · rw [hmod]
    unfold listElementType
    omega
  · rw [hmod]
    exact h.marked

/-- Marking one more record keeps the earlier marks. -/
lemma getD_set_true {visited : List Bool} {r q : ℕ} (h : visited.getD q false = true) :
    (visited.set r true).getD q false = true := by
  rw [List.getD_eq_getElem?_getD] at h ⊢
  rw [List.getElem?_set]
  split
  · rename_i hrq
    subst hrq
    have hlt : r < visited.length := by
      by_contra hge
      rw [List.getElem?_eq_none (by omega)] at h
      simp at h
    simp [hlt]
  · exact h

/-- What a successful traversal establishes: it keeps the marks it was given, covers every pending
code, and covers every field of every record it marked itself. -/
theorem checkPending_covers (table : RecordTable) {listType : ℕ}
    (hlist : isListType listType = true) {rounds : ℕ} {visited visited' : List Bool}
    {types : List ℕ} (htypes : ∀ t ∈ types, InTable table.records.length t)
    (hlen : visited.length = table.counts.length / 2)
    (h : checkPending listType table.counts table.fields rounds visited types = some visited') :
    (∀ r, visited.getD r false = true → visited'.getD r false = true) ∧
    (∀ t ∈ types, Covered listType visited' t) ∧
    (∀ r, visited.getD r false = false → visited'.getD r false = true →
      ∀ t ∈ fieldTypes table.counts table.fields r, Covered listType visited' t) := by
  induction rounds generalizing visited types with
  | zero =>
    cases types with
    | nil =>
      obtain rfl : visited = visited' := by simpa [checkPending] using h
      exact ⟨fun r hr => hr, by simp, fun r h₁ h₂ => absurd (h₁.symm.trans h₂) (by decide)⟩
    | cons t types => simp [checkPending] at h
  | succ rounds ih =>
    cases types with
    | nil =>
      obtain rfl : visited = visited' := by simpa [checkPending] using h
      exact ⟨fun r hr => hr, by simp, fun r h₁ h₂ => absurd (h₁.symm.trans h₂) (by decide)⟩
    | cons t types =>
      have htypes' : ∀ u ∈ types, InTable table.records.length u := fun u hu =>
        htypes u (List.mem_cons_of_mem _ hu)
      rw [checkPending, peelLists_eq hlist le_rfl] at h
      by_cases hmet : listType ≤ t ∧ t % 100000 = listType % 100000
      · rw [if_pos hmet] at h
        simp at h
      rw [if_neg hmet] at h
      simp only at h
      split at h
      · -- An unmarked record: mark it and queue its field types.
        rename_i hcond
        obtain ⟨hrecord, hunmarked⟩ : isRecordType (t % 100000) = true ∧
            visited.getD (t % 100000 - 1000) false = false := by simpa using hcond
        have hr := htypes t List.mem_cons_self hrecord
        generalize hindex : t % 100000 - 1000 = r at h hunmarked hr
        obtain ⟨hkeep, hpending, hfields⟩ := @ih (visited.set r true)
          (types ++ fieldTypes table.counts table.fields r) (fun u hu => by
            rcases List.mem_append.mp hu with hu | hu
            · exact htypes' u hu
            · exact table.inTable hr hu) (by simpa using hlen) h
        have hmark : visited'.getD r false = true := by
          refine hkeep r ?_
          have hlt : r < visited.length := by
            have := table.length_le
            omega
          simp [List.getD_eq_getElem?_getD, hlt]
        refine ⟨fun q hq => hkeep q (getD_set_true hq), fun u hu => ?_, fun q hq₁ hq₂ u hu => ?_⟩
        · rcases List.mem_cons.mp hu with rfl | hu
          · exact ⟨hmet, fun _ => hindex ▸ hmark⟩
          · exact hpending u (List.mem_append_left _ hu)
        · by_cases hqr : q = r
          · subst hqr
            exact hpending u (List.mem_append_right _ hu)
          · refine hfields q ?_ hq₂ u hu
            rw [List.getD_eq_getElem?_getD, List.getElem?_set_ne (Ne.symm hqr),
              ← List.getD_eq_getElem?_getD]
            exact hq₁
      · -- No record, or a record that is marked already.
        rename_i hcond
        obtain ⟨hkeep, hpending, hfields⟩ := ih htypes' hlen h
        refine ⟨hkeep, fun u hu => ?_, hfields⟩
        rcases List.mem_cons.mp hu with rfl | hu
        · refine ⟨hmet, fun hrecord => hkeep _ ?_⟩
          simpa [hrecord] using hcond
        · exact hpending u hu

/-- From a covered code every contained code is covered, once the fields of all marked records are. -/
lemma Covered.of_reach {counts fields : List ℕ} {listType code type : ℕ} {visited : List Bool}
    (hfields : ∀ r, visited.getD r false = true → ∀ t ∈ fieldTypes counts fields r,
      Covered listType visited t)
    (hcode : Covered listType visited code) (h : CodeReach counts fields code type) :
    Covered listType visited type := by
  induction h with
  | refl => exact hcode
  | tail _ hedge ih =>
    cases hedge with
    | element hlist => exact ih.element hlist
    | field hrecord ht =>
      have hlt := hrecord
      simp only [isRecordType, Bool.and_eq_true, decide_eq_true_iff] at hlt
      have hmarked := ih.marked
      rw [Nat.mod_eq_of_lt hlt.2] at hmarked
      exact hfields _ (hmarked hrecord) _ ht

/-- The cache of safe List types is *sound* when no cached code of the table is reachable from the
code of its elements. -/
def CacheSound (table : RecordTable) (cache : List ℕ) : Prop :=
  ∀ code ∈ cache, isListType code = true → InTable table.records.length code →
    ¬ CodeReach table.counts table.fields (listElementType code) code

/-- A code over no record contains only what is left when List offsets are stripped off it. -/
lemma CodeReach.le_of_base {counts fields : List ℕ} {code type : ℕ}
    (hbase : isRecordType (code % 100000) = false) (h : CodeReach counts fields code type) :
    type ≤ code := by
  have key : type ≤ code ∧ type % 100000 = code % 100000 := by
    induction h with
    | refl => exact ⟨le_rfl, rfl⟩
    | @tail u _ _ hedge ih =>
      cases hedge with
      | element hlist =>
        have hge : 100000 ≤ u := of_decide_eq_true hlist
        unfold listElementType
        omega
      | field hrecord _ =>
        have hlt : u < 100000 := by
          simp only [isRecordType, Bool.and_eq_true, decide_eq_true_iff] at hrecord
          exact hrecord.2
        rw [← ih.2, Nat.mod_eq_of_lt hlt, hrecord] at hbase
        cases hbase
  exact key.1

/-- An accepted List code is not contained in the code of its elements. -/
theorem checkListMutation_sound (table : RecordTable) {code : ℕ} {cache cache' : List ℕ}
    (hcache : CacheSound table cache) (hlist : isListType code = true)
    (htable : InTable table.records.length code)
    (h : checkListMutation code table.counts table.fields cache = some cache') :
    ¬ CodeReach table.counts table.fields (listElementType code) code := by
  have hge : 100000 ≤ code := of_decide_eq_true hlist
  have hle : listElementType code ≤ code := Nat.sub_le _ _
  rw [checkListMutation, stripLists_eq hle] at h
  split at h
  · -- The base is no record: nothing but the element Lists is contained.
    rename_i hbase
    intro hreach
    have := hreach.le_of_base (by simpa using hbase)
    unfold listElementType at this
    omega
  split at h
  · rename_i hmem
    exact hcache code hmem hlist htable
  obtain ⟨visited, hvisited, -⟩ := Option.map_eq_some_iff.mp h
  obtain ⟨-, hpending, hfields⟩ := checkPending_covers table hlist
    (fun t ht => List.mem_singleton.mp ht ▸ htable.element hlist) (by simp) hvisited
  intro hreach
  have hcovered := Covered.of_reach (fun r hr => hfields r (by simp) hr)
    (hpending _ List.mem_cons_self) hreach
  exact hcovered.not_met ⟨le_rfl, rfl⟩

/-- A cache grows at most by the code that was just accepted. -/
lemma mem_of_checkListMutation {listType : ℕ} {counts fields cache cache' : List ℕ}
    (h : checkListMutation listType counts fields cache = some cache') {c : ℕ}
    (hc : c ∈ cache') : c ∈ cache ∨ c = listType := by
  rw [checkListMutation] at h
  split at h
  · simp only [Option.some.injEq] at h
    exact Or.inl (h ▸ hc)
  split at h
  · simp only [Option.some.injEq] at h
    exact Or.inl (h ▸ hc)
  obtain ⟨-, -, rfl⟩ := Option.map_eq_some_iff.mp h
  simpa using hc

/-- The check keeps the cache sound, whatever code it is asked about. -/
theorem checkListMutation_cacheSound (table : RecordTable) {listType : ℕ} {cache cache' : List ℕ}
    (hcache : CacheSound table cache)
    (h : checkListMutation listType table.counts table.fields cache = some cache') :
    CacheSound table cache' := by
  intro code hmem hlist htable
  rcases mem_of_checkListMutation h hmem with hmem | rfl
  · exact hcache code hmem hlist htable
  · exact checkListMutation_sound table hcache hlist htable h

/-- The checks of a whole compilation, one for the code of every mutated List in program order. -/
def checkCodes (table : RecordTable) : List ℕ → List ℕ → Option (List ℕ)
  | [], cache => some cache
  | code :: sites, cache =>
    (checkListMutation code table.counts table.fields cache).bind (checkCodes table sites)

/-- A run of successful checks keeps the cache sound. -/
theorem checkCodes_cacheSound (table : RecordTable) {sites cache cache' : List ℕ}
    (hcache : CacheSound table cache) (hrun : checkCodes table sites cache = some cache') :
    CacheSound table cache' := by
  induction sites generalizing cache with
  | nil =>
    obtain rfl : cache = cache' := by simpa [checkCodes] using hrun
    exact hcache
  | cons code sites ih =>
    obtain ⟨cache₁, h₁, h₂⟩ := Option.bind_eq_some_iff.mp hrun
    exact ih (checkListMutation_cacheSound table hcache h₁) h₂

/-- Every mutation of an accepted program is on a List code that the code of its elements cannot
reach. -/
theorem checkCodes_sound (table : RecordTable) {sites cache cache' : List ℕ}
    (hcache : CacheSound table cache) (hrun : checkCodes table sites cache = some cache') {code : ℕ}
    (hcode : code ∈ sites) (hlist : isListType code = true)
    (htable : InTable table.records.length code) :
    ¬ CodeReach table.counts table.fields (listElementType code) code := by
  induction sites generalizing cache with
  | nil => simp at hcode
  | cons site sites ih =>
    obtain ⟨cache₁, h₁, h₂⟩ := Option.bind_eq_some_iff.mp hrun
    rcases List.mem_cons.mp hcode with rfl | hcode
    · exact checkListMutation_sound table hcache hlist htable h₁
    · exact ih (checkListMutation_cacheSound table hcache h₁) h₂ hcode

/-- The checks of a whole compilation by the element types of the mutated Lists. -/
def checkMutations (table : RecordTable) : List MinType → List ℕ → Option (List ℕ)
  | [], cache => some cache
  | t :: sites, cache =>
    (checkListMutation (MinType.list t).code table.counts table.fields cache).bind
      (checkMutations table sites)

/-- They are the checks of the codes of the Lists. -/
theorem checkMutations_eq (table : RecordTable) (sites : List MinType) (cache : List ℕ) :
    checkMutations table sites cache =
      checkCodes table (sites.map fun t => (MinType.list t).code) cache := by
  induction sites generalizing cache with
  | nil => rfl
  | cons t sites ih =>
    rw [checkMutations, List.map_cons, checkCodes]
    exact congrArg _ (funext ih)

end Minyar

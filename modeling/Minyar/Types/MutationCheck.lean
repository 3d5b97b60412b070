import Mathlib.Algebra.BigOperators.Group.Finset.Basic
import Minyar.Types.TypedHeap

/-!
# Completeness of the List mutation check

`checkListMutation_sound` says that the code of an accepted List type is not contained in the code of
its elements.  Here is the converse: the traversal of `checkListMutation` terminates, for every table, and when it
fails it has met the List type under test on a path of record fields and List elements.  Together
with the cache, which holds List types that need not be rejected, the check of an unambiguous List
type fails exactly when its element type contains it.
-/

namespace Minyar

open Relation

/-! ## Termination -/

/-- The traversal reaches its `fail` after finitely many rounds. -/
inductive PendingFails (listType : ℕ) (counts fields : List ℕ) : List Bool → List ℕ → Prop
  | fail {visited type pending} (hpeel : peelLists listType type type = none) :
      PendingFails listType counts fields visited (type :: pending)
  | enter {visited type pending base} (hpeel : peelLists listType type type = some base)
      (hrecord : (isRecordType base && !visited.getD (base - 1000) false) = true)
      (h : PendingFails listType counts fields (visited.set (base - 1000) true)
        (pending ++ fieldTypes counts fields (base - 1000))) :
      PendingFails listType counts fields visited (type :: pending)
  | skip {visited type pending base} (hpeel : peelLists listType type type = some base)
      (hrecord : (isRecordType base && !visited.getD (base - 1000) false) = false)
      (h : PendingFails listType counts fields visited pending) :
      PendingFails listType counts fields visited (type :: pending)

/-- The fields of the records that are not marked. -/
def unvisitedFields (counts : List ℕ) (visited : List Bool) : ℕ :=
  ∑ r ∈ Finset.range visited.length, if visited.getD r false then 0 else counts.getD r 0

/-- Marking a record takes its fields off. -/
lemma unvisitedFields_set {counts : List ℕ} {visited : List Bool} {r : ℕ} (hr : r < visited.length)
    (hunmarked : visited.getD r false = false) :
    unvisitedFields counts (visited.set r true) + counts.getD r 0 = unvisitedFields counts visited := by
  unfold unvisitedFields
  rw [List.length_set, ← Finset.add_sum_erase _ _ (Finset.mem_range.mpr hr),
    ← Finset.add_sum_erase (Finset.range visited.length)
      (fun r => if visited.getD r false then 0 else counts.getD r 0) (Finset.mem_range.mpr hr)]
  have hrest : ∑ q ∈ (Finset.range visited.length).erase r,
      (if (visited.set r true).getD q false then 0 else counts.getD q 0) =
      ∑ q ∈ (Finset.range visited.length).erase r,
        if visited.getD q false then 0 else counts.getD q 0 := by
    refine Finset.sum_congr rfl fun q hq => ?_
    rw [List.getD_eq_getElem?_getD, List.getElem?_set_ne (Finset.ne_of_mem_erase hq).symm,
      ← List.getD_eq_getElem?_getD]
  have hself : (visited.set r true).getD r false = true := by
    simp [List.getD_eq_getElem?_getD, hr]
  rw [hrest, hself, hunmarked]
  simp only [if_true, if_false, Bool.false_eq_true]
  omega

/-- In the beginning no record is marked. -/
lemma unvisitedFields_replicate (counts : List ℕ) :
    1 + unvisitedFields counts (List.replicate (counts.length / 2) false) = pendingRounds counts := by
  have hsum : ∀ n, ∑ r ∈ Finset.range n, counts.getD r 0 = (counts.take n).sum := by
    intro n
    induction n with
    | zero => rfl
    | succ n ih =>
      rw [Finset.sum_range_succ, ih, List.take_add_one, List.sum_append, List.getD_eq_getElem?_getD]
      rcases counts[n]? with _ | c <;> simp
  unfold unvisitedFields pendingRounds
  rw [List.length_replicate, ← hsum]
  congr 1
  refine Finset.sum_congr rfl fun r hr => ?_
  have hlt : r < counts.length / 2 := Finset.mem_range.mp hr
  simp [List.getD_eq_getElem?_getD, hlt]

/-- With few records a declared type is small. -/
lemma MinType.Declared.small {n : ℕ} {t : MinType} (h : t.Declared n) (hn : n ≤ 99000) : t.Small := by
  induction t with
  | list t ih => exact ih h
  | record r => exact lt_of_lt_of_le h hn
  | integer => trivial
  | text => trivial
  | character => trivial
  | boolean => trivial

/-- The inner loop of the traversal strips the Lists like the loop before it. -/
lemma stripLists_of_peelLists {listType base : ℕ} {n type : ℕ}
    (h : peelLists listType n type = some base) : stripLists n type = base := by
  induction n generalizing type with
  | zero => simpa [peelLists, stripLists] using h
  | succ n ih =>
    rw [peelLists] at h
    rw [stripLists]
    split_ifs at h ⊢ with hlist heq
    · exact ih h
    · simpa using h

/-- The record under a declared type is in the table, even where codes are ambiguous. -/
lemma record_lt_of_peelLists {n listType base : ℕ} {t : MinType} (hdecl : t.Declared n)
    (hpeel : peelLists listType t.code t.code = some base) (hrecord : isRecordType base = true) :
    base - 1000 < n := by
  obtain rfl : t.code % 100000 = base := by
    rw [← stripLists_of_peelLists hpeel, stripLists_eq le_rfl]
  exact hdecl.inTable hrecord

/-- The traversal terminates: with a round for every pending type and every field of an unmarked
record it fails only by its `fail`. -/
theorem checkPending_eq_none (table : RecordTable) {listType rounds : ℕ} {visited : List Bool}
    {types : List MinType} (hdecl : ∀ t ∈ types, t.Declared table.records.length)
    (hlen : visited.length = table.counts.length / 2)
    (hrounds : types.length + unvisitedFields table.counts visited ≤ rounds) :
    checkPending listType table.counts table.fields rounds visited (types.map MinType.code) = none ↔
      PendingFails listType table.counts table.fields visited (types.map MinType.code) := by
  induction rounds generalizing visited types with
  | zero =>
    obtain rfl : types = [] := List.eq_nil_of_length_eq_zero (by omega)
    exact ⟨fun h => (by cases h), fun h => (by cases h)⟩
  | succ rounds ih =>
    rcases types with _ | ⟨t, types⟩
    · exact ⟨fun h => (by cases h), fun h => (by cases h)⟩
    · have hdecl' : ∀ u ∈ types, u.Declared table.records.length := fun u hu =>
        hdecl u (List.mem_cons_of_mem _ hu)
      rw [List.length_cons] at hrounds
      rw [List.map_cons, checkPending]
      rcases hpeel : peelLists listType t.code t.code with _ | base
      · exact ⟨fun _ => .fail hpeel, fun _ => rfl⟩
      · by_cases hrecord : (isRecordType base && !visited.getD (base - 1000) false) = true
        · -- An unmarked record trades its fields for rounds.
          simp only [hrecord, if_true]
          obtain ⟨hrec, hunmarked⟩ : isRecordType base = true ∧
              visited.getD (base - 1000) false = false := by simpa using hrecord
          have hr := record_lt_of_peelLists (hdecl t List.mem_cons_self) hpeel hrec
          have hlt : base - 1000 < visited.length := by
            have := table.length_le
            omega
          have hset := @unvisitedFields_set table.counts _ _ hlt hunmarked
          rw [table.count_eq _ hr] at hset
          rw [table.fieldTypes_eq hr, ← List.map_append]
          have hih := @ih (visited.set (base - 1000) true) (types ++ table.records[base - 1000])
            (fun u hu => by
              rcases List.mem_append.mp hu with hu | hu
              · exact hdecl' u hu
              · exact table.declared _ hr u hu)
            (by simpa using hlen) (by rw [List.length_append]; omega)
          rw [hih]
          constructor
          · intro h
            refine .enter hpeel hrecord ?_
            rwa [table.fieldTypes_eq hr, ← List.map_append]
          · intro h
            cases h with
            | fail hpeel' => simp [hpeel] at hpeel'
            | enter hpeel' _ h =>
              rw [hpeel] at hpeel'
              cases hpeel'
              rwa [table.fieldTypes_eq hr, ← List.map_append] at h
            | skip hpeel' hrecord' _ =>
              rw [hpeel] at hpeel'
              cases hpeel'
              rw [hrecord] at hrecord'
              cases hrecord'
        · have hrecord' : (isRecordType base && !visited.getD (base - 1000) false) = false := by
            simpa using hrecord
          simp only [hrecord', if_false, Bool.false_eq_true]
          rw [ih hdecl' hlen (by omega)]
          constructor
          · exact fun h => .skip hpeel hrecord' h
          · intro h
            cases h with
            | fail hpeel' => simp [hpeel] at hpeel'
            | enter hpeel' hrecord'' _ =>
              rw [hpeel] at hpeel'
              cases hpeel'
              rw [hrecord'] at hrecord''
              cases hrecord''
            | skip _ _ h => exact h

/-- The whole check terminates, for every table and every code: it fails exactly when it looks for the
List type and the traversal reaches its `fail`. -/
theorem checkListMutation_eq_none (table : RecordTable) {e : MinType}
    (hdecl : e.Declared table.records.length) {cache : List ℕ} :
    checkListMutation (MinType.list e).code table.counts table.fields cache = none ↔
      isRecordType (stripLists (MinType.list e).code e.code) = true ∧
      (MinType.list e).code ∉ cache ∧
      PendingFails (MinType.list e).code table.counts table.fields
        (List.replicate (table.counts.length / 2) false) [e.code] := by
  rw [checkListMutation, MinType.listElementType_code_list]
  have hpending := @checkPending_eq_none table (MinType.list e).code (pendingRounds table.counts)
    (List.replicate (table.counts.length / 2) false) [e] (by simpa using hdecl) (by simp) (by
      rw [← unvisitedFields_replicate]
      exact le_rfl)
  by_cases hrecord : isRecordType (stripLists (MinType.list e).code e.code) = true
  · by_cases hcache : (MinType.list e).code ∈ cache
    · simp [hrecord, hcache]
    · simp only [hrecord, hcache, Bool.not_true, Bool.false_eq_true, if_false,
        Option.map_eq_none_iff, not_false_eq_true, true_and]
      exact hpending
  · simp [hrecord]

/-! ## Completeness -/

/-- The peeling loop fails exactly when the List type under test is on the chain, and otherwise
reaches the base type. -/
lemma peelLists_code {t e : MinType} (ht : t.Small) (he : e.Small) {n : ℕ} (hn : t.code ≤ n) :
    peelLists (MinType.list e).code n t.code =
      if MinType.list e ∈ t.chain then none else some t.base.code := by
  induction t generalizing n with
  | list t ih =>
    cases n with
    | zero => simp only [MinType.code] at hn; omega
    | succ n =>
      rw [peelLists, if_pos (MinType.isListType_code_list t),
        MinType.listElementType_code_list]
      have hn' : 100000 + t.code ≤ n + 1 := hn
      by_cases hte : MinType.list t = MinType.list e
      · rw [if_pos (by rw [hte]), if_pos]
        rw [← hte]
        exact MinType.mem_chain_self _
      · have hcode : (MinType.list t).code ≠ (MinType.list e).code :=
          fun h => hte (MinType.code_injective ht he h)
        rw [if_neg hcode, ih ht (by omega)]
        have hmem : MinType.list e ∈ (MinType.list t).chain ↔ MinType.list e ∈ t.chain := by
          simp [MinType.chain, Ne.symm hte]
        simp only [hmem, MinType.base]
  | record r =>
    have hpeel : ∀ n, peelLists (MinType.list e).code n (MinType.record r).code =
        some (MinType.record r).code := by
      intro n
      cases n with
      | zero => rfl
      | succ n => rw [peelLists, (MinType.isRecordType_code_record ht).2]; rfl
    rw [hpeel, if_neg (by simp [MinType.chain])]
    rfl
  | integer => cases n <;> simp [peelLists, MinType.chain, MinType.base, MinType.code, isListType]
  | text => cases n <;> simp [peelLists, MinType.chain, MinType.base, MinType.code, isListType]
  | character => cases n <;> simp [peelLists, MinType.chain, MinType.base, MinType.code, isListType]
  | boolean => cases n <;> simp [peelLists, MinType.chain, MinType.base, MinType.code, isListType]

/-- The base of a declared type is a declared record or no record. -/
lemma MinType.Declared.base {n : ℕ} {t : MinType} (h : t.Declared n) : t.base.Declared n := by
  induction t with
  | list t ih => exact ih h
  | record r => exact h
  | integer => exact h
  | text => exact h
  | character => exact h
  | boolean => exact h

/-- The base of a type is reachable from it. -/
lemma TypeReach.base (records : List (List MinType)) (t : MinType) :
    TypeReach records t t.base := by
  induction t with
  | list t ih => exact ReflTransGen.head (TypeEdge.element t) ih
  | record r => exact ReflTransGen.refl
  | integer => exact ReflTransGen.refl
  | text => exact ReflTransGen.refl
  | character => exact ReflTransGen.refl
  | boolean => exact ReflTransGen.refl

/-- A base type whose code is a record code is a record. -/
lemma MinType.base_eq_record_of_isRecordType {t : MinType} (ht : t.Small)
    (h : isRecordType t.base.code = true) :
    ∃ r, t.base = .record r ∧ t.base.code - 1000 = r := by
  induction t with
  | list t ih => exact ih ht h
  | record r => exact ⟨r, rfl, by simp [MinType.base, MinType.code]⟩
  | integer => simp [MinType.base, MinType.code, isRecordType] at h
  | text => simp [MinType.base, MinType.code, isRecordType] at h
  | character => simp [MinType.base, MinType.code, isRecordType] at h
  | boolean => simp [MinType.base, MinType.code, isRecordType] at h

/-- A type contains the types on its chain. -/
lemma TypeReach.of_mem_chain (records : List (List MinType)) {s t : MinType} (h : s ∈ t.chain) :
    TypeReach records t s := by
  induction t with
  | list t ih =>
    rcases List.mem_cons.mp h with rfl | h
    · exact ReflTransGen.refl
    · exact ReflTransGen.head (TypeEdge.element t) (ih h)
  | record r => exact List.mem_singleton.mp h ▸ ReflTransGen.refl
  | integer => exact List.mem_singleton.mp h ▸ ReflTransGen.refl
  | text => exact List.mem_singleton.mp h ▸ ReflTransGen.refl
  | character => exact List.mem_singleton.mp h ▸ ReflTransGen.refl
  | boolean => exact List.mem_singleton.mp h ▸ ReflTransGen.refl

/-- A traversal that fails has met the List type inside one of the pending types. -/
theorem PendingFails.reach (table : RecordTable) {e : MinType} (he : e.Small)
    {visited : List Bool} {codes : List ℕ} {types : List MinType}
    (h : PendingFails (MinType.list e).code table.counts table.fields visited codes)
    (hcodes : codes = types.map MinType.code)
    (htypes : ∀ t ∈ types, Unambiguous table.records t ∧ t.Declared table.records.length) :
    ∃ t ∈ types, TypeReach table.records t (.list e) := by
  have hbase : ∀ {t base}, t ∈ types → peelLists (MinType.list e).code t.code t.code = some base →
      MinType.list e ∉ t.chain ∧ base = t.base.code := by
    intro t base ht hpeel
    rw [peelLists_code ((htypes t ht).1 t ReflTransGen.refl) he le_rfl] at hpeel
    split_ifs at hpeel with hchain
    exact ⟨hchain, (Option.some.inj hpeel).symm⟩
  induction h generalizing types with
  | fail hpeel =>
    rcases types with _ | ⟨t, types⟩
    · cases hcodes
    · rw [List.map_cons] at hcodes
      obtain ⟨rfl, -⟩ := List.cons.inj hcodes
      rw [peelLists_code ((htypes t List.mem_cons_self).1 t ReflTransGen.refl) he le_rfl] at hpeel
      split_ifs at hpeel with hchain
      exact ⟨t, List.mem_cons_self, TypeReach.of_mem_chain _ hchain⟩
  | @enter visited type pending base hpeel hrecord _ ih =>
    rcases types with _ | ⟨t, types⟩
    · cases hcodes
    · rw [List.map_cons] at hcodes
      obtain ⟨rfl, rfl⟩ := List.cons.inj hcodes
      obtain ⟨htu, htd⟩ := htypes t List.mem_cons_self
      obtain ⟨-, rfl⟩ := hbase List.mem_cons_self hpeel
      obtain ⟨hrec, -⟩ : isRecordType t.base.code = true ∧
          visited.getD (t.base.code - 1000) false = false := by simpa using hrecord
      obtain ⟨r, hr, hcode⟩ :=
        MinType.base_eq_record_of_isRecordType (htu t ReflTransGen.refl) hrec
      have hlt : r < table.records.length := by
        have := htd.base
        rwa [hr] at this
      have hreach : ∀ u ∈ table.records[r], TypeReach table.records t u := fun u hu =>
        (TypeReach.base table.records t).tail (hr ▸ TypeEdge.field r hlt hu)
      have htypes' : ∀ u ∈ types ++ table.records[r],
          Unambiguous table.records u ∧ u.Declared table.records.length := by
        intro u hu
        rcases List.mem_append.mp hu with hu | hu
        · exact htypes u (List.mem_cons_of_mem _ hu)
        · exact ⟨htu.of_reach (hreach u hu), table.declared r hlt u hu⟩
      obtain ⟨u, hu, hru⟩ := @ih (types ++ table.records[r])
        (by rw [hcode, table.fieldTypes_eq hlt, List.map_append]) htypes' (by
          intro u base hu hpeel'
          rw [peelLists_code ((htypes' u hu).1 u ReflTransGen.refl) he le_rfl] at hpeel'
          split_ifs at hpeel' with hchain
          exact ⟨hchain, (Option.some.inj hpeel').symm⟩)
      rcases List.mem_append.mp hu with hu | hu
      · exact ⟨u, List.mem_cons_of_mem _ hu, hru⟩
      · exact ⟨t, List.mem_cons_self, (hreach u hu).trans hru⟩
  | skip hpeel hrecord _ ih =>
    rcases types with _ | ⟨t, types⟩
    · cases hcodes
    · rw [List.map_cons] at hcodes
      obtain ⟨rfl, rfl⟩ := List.cons.inj hcodes
      obtain ⟨u, hu, hru⟩ := ih rfl (fun u hu => htypes u (List.mem_cons_of_mem _ hu))
        fun hu => hbase (List.mem_cons_of_mem _ hu)
      exact ⟨u, List.mem_cons_of_mem _ hu, hru⟩

/-- A type that its elements contain has a code that the code of its elements contains. -/
lemma TypeReach.code_list (table : RecordTable) {e : MinType}
    (hsmall : Unambiguous table.records (.list e)) (h : TypeReach table.records e (.list e)) :
    CodeReach table.counts table.fields (listElementType (MinType.list e).code)
      (MinType.list e).code := by
  rw [MinType.listElementType_code_list]
  exact h.code table (hsmall.of_reach (ReflTransGen.single (TypeEdge.element e)))

/-- After every run of successful checks, the check of an unambiguous List type fails exactly when its
element type contains it; the cache holds no List type that should be rejected; and a failing
check has reached its `fail`. -/
theorem checkListMutation_iff (table : RecordTable) {sites : List MinType} {cache : List ℕ}
    (hrun : checkMutations table sites [] = some cache) {e : MinType}
    (hsmall : Unambiguous table.records (.list e)) (hdecl : e.Declared table.records.length) :
    (checkListMutation (MinType.list e).code table.counts table.fields cache = none ↔
      TypeReach table.records e (.list e)) ∧
    ((MinType.list e).code ∈ cache → ¬ TypeReach table.records e (.list e)) ∧
    (checkListMutation (MinType.list e).code table.counts table.fields cache = none →
      PendingFails (MinType.list e).code table.counts table.fields
        (List.replicate (table.counts.length / 2) false) [e.code]) := by
  have hsound : CacheSound table cache :=
    checkCodes_cacheSound table (fun _ h => by cases h) (checkMutations_eq table sites [] ▸ hrun)
  have hlist := MinType.isListType_code_list e
  have htable : InTable table.records.length (MinType.list e).code :=
    MinType.Declared.inTable (show (MinType.list e).Declared _ from hdecl)
  have hes : e.Small := hsmall e (ReflTransGen.single (TypeEdge.element e))
  refine ⟨⟨fun hnone => ?_, fun hreach => ?_⟩, fun hmem hreach =>
    hsound _ hmem hlist htable (hreach.code_list table hsmall), fun hnone =>
    ((checkListMutation_eq_none table hdecl).mp hnone).2.2⟩
  · obtain ⟨-, -, hfails⟩ := (checkListMutation_eq_none table hdecl).mp hnone
    have htypes : ∀ t ∈ [e], Unambiguous table.records t ∧ t.Declared table.records.length := by
      intro t ht
      obtain rfl := List.mem_singleton.mp ht
      exact ⟨hsmall.of_reach (ReflTransGen.single (TypeEdge.element t)), hdecl⟩
    obtain ⟨t, ht, hreach⟩ := hfails.reach table hes rfl htypes
    obtain rfl := List.mem_singleton.mp ht
    exact hreach
  · rcases h : checkListMutation (MinType.list e).code table.counts table.fields cache with _ | cache'
    · rfl
    · exact absurd (hreach.code_list table hsmall)
        (checkListMutation_sound table hsound hlist htable h)

/-- With at most 99000 records every declared type is unambiguous. -/
lemma RecordTable.unambiguous (table : RecordTable) (hn : table.records.length ≤ 99000)
    {t : MinType} (hdecl : t.Declared table.records.length) : Unambiguous table.records t := by
  intro u hu
  have hu : u.Declared table.records.length := by
    induction hu with
    | refl => exact hdecl
    | tail _ hedge ih =>
      cases hedge with
      | element => exact ih
      | field r hr ht => exact table.declared r hr _ ht
  exact hu.small hn

/-- The table of `record Node { children: List<Node> }` and `record Leaf { lines: List<Text> }`. -/
def leafTable : RecordTable :=
  RecordTable.ofRecords [[.list (.record 0)], [.list .text]] (by decide)

/-- After a mutation of a `List<Leaf>`, which is cached, the check of a `List<Node>` fails. -/
theorem checkListMutation_iff_node :
    checkListMutation 101000 leafTable.counts leafTable.fields [101001] = none ∧
      ¬ TypeReach leafTable.records (.record 1) (.list (.record 1)) := by
  have hrun : checkMutations leafTable [.record 1] [] = some [101001] := by decide +kernel
  have hreach : TypeReach leafTable.records (.record 0) (.list (.record 0)) :=
    ReflTransGen.single (TypeEdge.field 0 (by decide) (List.mem_singleton.mpr rfl))
  have hnode := @checkListMutation_iff leafTable _ _ hrun (.record 0)
    (leafTable.unambiguous (by decide) (by decide)) (by decide)
  have hleaf := @checkListMutation_iff leafTable _ _ hrun (.record 1)
    (leafTable.unambiguous (by decide) (by decide)) (by decide)
  exact ⟨hnode.1.mpr hreach, hleaf.2.1 (List.mem_singleton.mpr rfl)⟩

/-- With `99001` records the check accepts a List type that its element type contains. -/
theorem checkListMutation_manyRecords :
    checkListMutation (MinType.list (.record 99000)).code manyRecordsTable.counts
        manyRecordsTable.fields [] = some [] ∧
      TypeReach manyRecordsTable.records (.record 99000) (.list (.record 99000)) := by
  have haccept := checkCodes_manyRecords
  rw [checkCodes] at haccept
  obtain ⟨cache, hcheck, hcache⟩ := Option.bind_eq_some_iff.mp haccept
  obtain rfl : cache = [] := by simpa [checkCodes] using hcache
  refine ⟨hcheck, ReflTransGen.single ?_⟩
  have hlt : 99000 < manyRecords.length := by
    rw [manyRecords_length]
    decide
  refine TypeEdge.field 99000 hlt ?_
  have hlast : manyRecords[99000] = [.list (.record 99000)] := by
    have := manyRecords_last
    rw [List.getElem?_eq_getElem hlt] at this
    exact Option.some.inj this
  rw [hlast]
  exact List.mem_singleton.mpr rfl

end Minyar

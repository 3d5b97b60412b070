import Mathlib.Data.List.Chain
import Mathlib.Data.List.Pairwise
import Minyar.Modules.SymbolTable

/-!
# Finding symbols

The compiler finds a symbol by its name and kind through the lookup, a heap sort of the positions
of all symbols, and stops when two neighbours of the lookup have the same name and kind.
`symbolLookup_spec` says that it stops exactly when two symbols do, and that otherwise the binary
searches find what a linear search finds.
-/

namespace Minyar

/-! ## The code -/

/-- The loop of `findSymbol` over the positions that are left. -/
def findSymbolFrom (names : List Text) (kinds : List ℕ) (name : Text) (kind : ℕ) : ℕ → ℕ → ℤ
  | 0, _ => -1
  | left + 1, position =>
    if kinds.getD position 0 = kind ∧ names.getD position [] = name then position
    else findSymbolFrom names kinds name kind left (position + 1)

/-- `findSymbol`: the first symbol of a name and kind. -/
def findSymbol (names : List Text) (kinds : List ℕ) (name : Text) (kind : ℕ) : ℤ :=
  findSymbolFrom names kinds name kind names.length 0

/-- `sortModuleSymbols` is the sort of `buildSymbolLookup` for any symbols. -/
def sortModuleSymbols (names : List Text) (kinds symbols : List ℕ) : List ℕ :=
  sortLookup names kinds (symbols.length - 1)
    (heapLookup names kinds (symbols.length / 2) symbols)

/-- `describeLocation`: a line number is said to be one. -/
def describeLocation (location : Text) : Text :=
  match location with
  | [] => []
  | c :: _ => if '0' ≤ c ∧ c ≤ '9' then "line ".toList ++ location else location

/-- `readableDeclarationName`: the name without the prefix of its module. -/
def readableDeclarationName (name : Text) : Text :=
  let modulePrefix := "minyar_module_".toList
  if modulePrefix.length < name.length ∧ name.take modulePrefix.length = modulePrefix then
    match (name.drop modulePrefix.length).dropWhile (· ≠ '_') with
    | [] => name
    | _ :: readable => readable
  else name

/-- The message for two declarations of one name. -/
def duplicateSymbol (names locations : List Text) (previous current : ℕ) : Text :=
  describeLocation (locations.getD (if current < previous then previous else current) []) ++
    ": module declares '".toList ++ readableDeclarationName (names.getD current []) ++
    "' more than once".toList

/-- The loop of `requireUniqueSymbols` behind a symbol. -/
def requireUniqueFrom (names : List Text) (kinds : List ℕ) (locations : List Text) :
    ℕ → List ℕ → Except Text Unit
  | _, [] => .ok ()
  | previous, current :: rest =>
    if kinds.getD previous 0 = kinds.getD current 0 ∧
        names.getD previous [] = names.getD current [] then
      .error (duplicateSymbol names locations previous current)
    else requireUniqueFrom names kinds locations current rest

/-- `requireUniqueSymbols`: no two neighbours have the same name and kind. -/
def requireUniqueSymbols (lookup : List ℕ) (names : List Text) (kinds : List ℕ)
    (locations : List Text) : Except Text Unit :=
  match lookup with
  | [] => .ok ()
  | first :: rest => requireUniqueFrom names kinds locations first rest

/-- The order of a symbol and of what is searched. -/
def compareWanted (names : List Text) (kinds : List ℕ) (name : Text) (kind symbol : ℕ) : ℤ :=
  let order := compareText (names.getD symbol []) name
  if order = 0 then
    if kinds.getD symbol 0 < kind then -1
    else if kind < kinds.getD symbol 0 then 1
    else order
  else order

/-- The binary search over the entries of a lookup. -/
def searchSymbol (names : List Text) (kinds : List ℕ) (name : Text) (kind : ℕ) (entry : ℕ → ℕ)
    (low high : ℕ) : ℕ :=
  if low < high then
    let middle := low + (high - low) / 2
    if compareWanted names kinds name kind (entry middle) < 0 then
      searchSymbol names kinds name kind entry (middle + 1) high
    else searchSymbol names kinds name kind entry low middle
  else low
termination_by high - low

/-- The entry where the search stops, if it has the name and the kind. -/
def findSortedSymbol (names : List Text) (kinds : List ℕ) (name : Text) (kind : ℕ)
    (entry : ℕ → ℕ) (count : ℕ) : ℤ :=
  let low := searchSymbol names kinds name kind entry 0 count
  if low < count then
    let symbol := entry low
    if kinds.getD symbol 0 = kind ∧ names.getD symbol [] = name then symbol else -1
  else -1

/-- `findIndexedSymbol` searches a lookup. -/
def findIndexedSymbol (lookup : List ℕ) (names : List Text) (kinds : List ℕ) (name : Text)
    (kind : ℕ) : ℤ :=
  findSortedSymbol names kinds name kind (fun position => lookup.getD position 0) lookup.length

/-- `findCompiledSymbol` searches the lookup behind the types of the symbols. -/
def findCompiledSymbol (names : List Text) (kinds returnTypes : List ℕ) (name : Text)
    (kind : ℕ) : ℤ :=
  findSortedSymbol names kinds name kind
    (fun position => returnTypes.getD (names.length + position) 0) names.length

/-! ## The linear search -/

/-- The key of what is searched. -/
def wantedKey (name : Text) (kind : ℕ) : List Char ×ₗ ℕ := toLex (name, kind)

/-- A symbol has the name and the kind exactly if it has the key. -/
theorem symbolKey_eq_iff {names : List Text} {kinds : List ℕ} {symbol : ℕ} {name : Text}
    {kind : ℕ} : symbolKey names kinds symbol = wantedKey name kind ↔
      kinds.getD symbol 0 = kind ∧ names.getD symbol [] = name := by
  unfold symbolKey wantedKey
  rw [toLex_inj, Prod.mk.injEq]
  exact And.comm

/-- Two symbols have the same key exactly if they have the same kind and name. -/
theorem symbolKey_eq_symbolKey_iff {names : List Text} {kinds : List ℕ} {left right : ℕ} :
    symbolKey names kinds left = symbolKey names kinds right ↔
      kinds.getD left 0 = kinds.getD right 0 ∧ names.getD left [] = names.getD right [] :=
  symbolKey_eq_iff

/-- The linear search finds the first symbol with the key, or nothing. -/
theorem findSymbolFrom_cases (names : List Text) (kinds : List ℕ) (name : Text) (kind : ℕ)
    (left position : ℕ) :
    (∃ found, position ≤ found ∧ found < position + left ∧
        symbolKey names kinds found = wantedKey name kind ∧
        findSymbolFrom names kinds name kind left position = found) ∨
      ((∀ other, position ≤ other → other < position + left →
          symbolKey names kinds other ≠ wantedKey name kind) ∧
        findSymbolFrom names kinds name kind left position = -1) := by
  induction left generalizing position with
  | zero => exact .inr ⟨fun other h₁ h₂ => absurd h₂ (by omega), rfl⟩
  | succ left ih =>
    unfold findSymbolFrom
    by_cases hkey : symbolKey names kinds position = wantedKey name kind
    · rw [if_pos (symbolKey_eq_iff.mp hkey)]
      exact .inl ⟨position, le_rfl, by omega, hkey, rfl⟩
    · rw [if_neg (fun h => hkey (symbolKey_eq_iff.mpr h))]
      rcases ih (position + 1) with ⟨found, h₁, h₂, hfound, heq⟩ | ⟨hnone, heq⟩
      · exact .inl ⟨found, by omega, by omega, hfound, heq⟩
      · refine .inr ⟨fun other h₁ h₂ => ?_, heq⟩
        rcases Nat.eq_or_lt_of_le h₁ with rfl | hlt
        · exact hkey
        · exact hnone other hlt (by omega)

/-! ## Duplicates -/

/-- No two neighbours have the same key. -/
theorem requireUniqueFrom_eq_ok_iff (names : List Text) (kinds : List ℕ) (locations : List Text)
    (previous : ℕ) (rest : List ℕ) :
    requireUniqueFrom names kinds locations previous rest = .ok () ↔
      (previous :: rest).IsChain fun a b => symbolKey names kinds a ≠ symbolKey names kinds b := by
  induction rest generalizing previous with
  | nil => simp [requireUniqueFrom]
  | cons current rest ih =>
    unfold requireUniqueFrom
    rw [List.isChain_cons_cons, ← ih current, ne_eq, symbolKey_eq_symbolKey_iff]
    split
    · next h => exact ⟨fun herror => by simp at herror, fun hboth => absurd h hboth.1⟩
    · next h => exact ⟨fun hok => ⟨h, hok⟩, And.right⟩

/-- A lookup without equal neighbours. -/
theorem requireUniqueSymbols_eq_ok_iff (lookup : List ℕ) (names : List Text) (kinds : List ℕ)
    (locations : List Text) :
    requireUniqueSymbols lookup names kinds locations = .ok () ↔
      lookup.IsChain fun a b => symbolKey names kinds a ≠ symbolKey names kinds b := by
  cases lookup with
  | nil => simp [requireUniqueSymbols]
  | cons first rest => exact requireUniqueFrom_eq_ok_iff names kinds locations first rest

/-- The lookup is sorted. -/
theorem buildSymbolLookup_pairwise (names : List Text) (kinds : List ℕ) :
    (buildSymbolLookup names kinds).Pairwise fun a b =>
      symbolKey names kinds a ≤ symbolKey names kinds b := by
  rw [buildSymbolLookup_eq]
  exact SortSearch.pairwise_heapSort _ _ _

/-- No two symbols have the same key. -/
def UniqueSymbols (names : List Text) (kinds : List ℕ) : Prop :=
  ∀ i j, i < names.length → j < names.length →
    symbolKey names kinds i = symbolKey names kinds j → i = j

/-- Neighbours are enough to find duplicates in a sorted lookup. -/
theorem requireUniqueSymbols_buildSymbolLookup (names : List Text) (kinds : List ℕ)
    (locations : List Text) :
    requireUniqueSymbols (buildSymbolLookup names kinds) names kinds locations = .ok () ↔
      UniqueSymbols names kinds := by
  have hperm := buildSymbolLookup_perm names kinds
  have hnodup : (buildSymbolLookup names kinds).Nodup := hperm.nodup_iff.mpr List.nodup_range
  have hsorted := buildSymbolLookup_pairwise names kinds
  have hmem : ∀ i, i < names.length ↔ i ∈ buildSymbolLookup names kinds := fun i => by
    rw [hperm.mem_iff, List.mem_range]
  rw [requireUniqueSymbols_eq_ok_iff]
  constructor
  · intro hchain i j hi hj hkey
    have hstrict : (buildSymbolLookup names kinds).IsChain fun a b =>
        symbolKey names kinds a < symbolKey names kinds b := by
      rw [List.isChain_iff_getElem] at hchain ⊢
      intro k hk
      exact lt_of_le_of_ne (List.pairwise_iff_getElem.mp hsorted k (k + 1) _ hk (Nat.lt_succ_self k))
        (hchain k hk)
    have hsymm : Std.Symm fun a b => symbolKey names kinds a ≠ symbolKey names kinds b :=
      ⟨fun _ _ h => h.symm⟩
    have hdiff : (buildSymbolLookup names kinds).Pairwise fun a b =>
        symbolKey names kinds a ≠ symbolKey names kinds b :=
      (List.isChain_iff_pairwise.mp hstrict).imp fun h => h.ne
    by_contra hne
    exact hdiff.forall ((hmem i).mp hi) ((hmem j).mp hj) hne hkey
  · intro hunique
    refine List.Pairwise.isChain (hnodup.imp_of_mem fun {a b} ha hb hne hkey => hne ?_)
    exact hunique a b ((hmem a).mpr ha) ((hmem b).mpr hb) hkey

/-! ## The binary search -/

/-- The search compares keys. -/
theorem compareWanted_neg_iff (names : List Text) (kinds : List ℕ) (name : Text)
    (kind symbol : ℕ) : compareWanted names kinds name kind symbol < 0 ↔
      symbolKey names kinds symbol < wantedKey name kind := by
  unfold compareWanted symbolKey wantedKey
  rw [Prod.Lex.toLex_lt_toLex, ← compareText_neg_iff, ← compareText_eq_zero_iff]
  generalize compareText (names.getD symbol []) name = order
  simp only
  split_ifs with horder hlt hgt <;> omega

/-- The search is the search for the first entry that is not below the key. -/
theorem searchSymbol_eq (names : List Text) (kinds : List ℕ) (name : Text) (kind : ℕ)
    (entry : ℕ → ℕ) (low high : ℕ) :
    searchSymbol names kinds name kind entry low high =
      SortSearch.lowerBound
        (fun position => symbolKey names kinds (entry position) < wantedKey name kind)
        low high := by
  induction hn : high - low using Nat.strongRecOn generalizing low high with
  | ind n ih =>
    rw [searchSymbol, SortSearch.lowerBound]
    split
    · simp only [compareWanted_neg_iff, decide_eq_true_eq]
      split
      · exact ih (high - (low + (high - low) / 2 + 1)) (by omega) _ _ rfl
      · exact ih (low + (high - low) / 2 - low) (by omega) _ _ rfl
    · rfl

/-- Without duplicates the binary search finds what the linear search finds. -/
theorem findSortedSymbol_eq {names : List Text} {kinds : List ℕ}
    (hunique : UniqueSymbols names kinds) (name : Text) (kind : ℕ) {entry : ℕ → ℕ}
    (hentry : ∀ position < names.length,
      entry position = (buildSymbolLookup names kinds).getD position 0) :
    findSortedSymbol names kinds name kind entry names.length =
      findSymbol names kinds name kind := by
  have hlength := length_buildSymbolLookup names kinds
  have hentry : ∀ position, ∀ _ : position < (buildSymbolLookup names kinds).length,
      entry position = (buildSymbolLookup names kinds)[position] := fun position h => by
    rw [hentry position (by omega), List.getD_eq_getElem]
  have hsorted := List.pairwise_iff_getElem.mp (buildSymbolLookup_pairwise names kinds)
  have hvalid : ∀ position < names.length, entry position < names.length := fun position h => by
    rw [hentry position (by omega)]
    exact buildSymbolLookup_lt (List.getElem_mem _)
  have hmono : ∀ i j, i ≤ j → j < names.length →
      decide (symbolKey names kinds (entry j) < wantedKey name kind) = true →
      decide (symbolKey names kinds (entry i) < wantedKey name kind) = true := by
    intro i j hij hj hbefore
    rw [decide_eq_true_eq] at hbefore ⊢
    rcases Nat.eq_or_lt_of_le hij with rfl | hlt
    · exact hbefore
    · rw [hentry i (by omega)]
      rw [hentry j (by omega)] at hbefore
      exact lt_of_le_of_lt (hsorted i j _ _ hlt) hbefore
  obtain ⟨-, hhigh, hbelow, habove⟩ := SortSearch.lowerBound_spec (Nat.zero_le _) hmono
  rw [← searchSymbol_eq] at hhigh hbelow habove
  unfold findSortedSymbol
  simp only
  generalize searchSymbol names kinds name kind entry 0 names.length = low at hhigh hbelow habove
  have hcases := findSymbolFrom_cases names kinds name kind names.length 0
  rw [Nat.zero_add] at hcases
  rcases hcases with ⟨found, -, hfound, hkey, heq⟩ | ⟨hnone, heq⟩
  · -- the search stops at the only symbol with the key
    obtain ⟨place, hplace, hat⟩ := List.mem_iff_getElem.mp
      ((buildSymbolLookup_perm names kinds).mem_iff.mpr (List.mem_range.mpr hfound))
    rw [hlength] at hplace
    have hle : low ≤ place := by
      by_contra hlt
      have hbefore := hbelow place (Nat.zero_le _) (by omega)
      rw [decide_eq_true_eq, hentry place (by omega), hat, hkey] at hbefore
      exact absurd hbefore (lt_irrefl _)
    have hlow : low < names.length := by omega
    have hstop : symbolKey names kinds (entry low) = wantedKey name kind := by
      apply le_antisymm
      · rw [hentry low (by omega), ← hkey, ← hat]
        rcases Nat.eq_or_lt_of_le hle with rfl | hlt
        · exact le_rfl
        · exact hsorted low place _ _ hlt
      · have hnot := habove low le_rfl hlow
        rw [decide_eq_false_iff_not] at hnot
        exact not_lt.mp hnot
    have hsame : entry low = found :=
      hunique _ _ (hvalid low hlow) hfound (hstop.trans hkey.symm)
    rw [if_pos hlow, if_pos (symbolKey_eq_iff.mp hstop), hsame]
    exact heq.symm
  · refine Eq.trans ?_ heq.symm
    split
    · next hlow =>
      rw [if_neg fun h => hnone _ (Nat.zero_le _) (hvalid low hlow) (symbolKey_eq_iff.mpr h)]
    · rfl

/-- The search of the lookup behind the types of the symbols finds what the linear search finds. -/
theorem findCompiledSymbol_eq {names : List Text} {kinds returnTypes : List ℕ}
    (hunique : UniqueSymbols names kinds) (hreturns : returnTypes.length = names.length)
    (name : Text) (kind : ℕ) :
    findCompiledSymbol names kinds (returnTypes ++ buildSymbolLookup names kinds) name kind =
      findSymbol names kinds name kind := by
  refine findSortedSymbol_eq hunique name kind fun position _ => ?_
  rw [List.getD_append_right _ _ _ _ (by omega), hreturns, Nat.add_sub_cancel_left]

/-- The lookup is the positions of all symbols sorted by name and kind; the compiler stops exactly
when two symbols have the same name and kind; and if it does not, the binary searches find what the
linear search finds. -/
theorem symbolLookup_spec (names : List Text) (kinds : List ℕ) (locations : List Text) :
    ((buildSymbolLookup names kinds).Perm (List.range names.length) ∧
      (buildSymbolLookup names kinds).Pairwise fun a b =>
        symbolKey names kinds a ≤ symbolKey names kinds b) ∧
    (∀ symbols, (sortModuleSymbols names kinds symbols).Perm symbols ∧
      (sortModuleSymbols names kinds symbols).Pairwise fun a b =>
        symbolKey names kinds a ≤ symbolKey names kinds b) ∧
    ((∃ message, requireUniqueSymbols (buildSymbolLookup names kinds) names kinds locations =
        .error message) ↔
      ∃ i j, i < j ∧ j < names.length ∧ names.getD i [] = names.getD j [] ∧
        kinds.getD i 0 = kinds.getD j 0) ∧
    (requireUniqueSymbols (buildSymbolLookup names kinds) names kinds locations = .ok () →
      ∀ name kind,
        findIndexedSymbol (buildSymbolLookup names kinds) names kinds name kind =
          findSymbol names kinds name kind ∧
        ∀ returnTypes : List ℕ, returnTypes.length = names.length →
          findCompiledSymbol names kinds (returnTypes ++ buildSymbolLookup names kinds) name kind =
            findSymbol names kinds name kind) := by
  refine ⟨⟨buildSymbolLookup_perm names kinds, buildSymbolLookup_pairwise names kinds⟩,
    fun symbols => ?_, ?_, fun hok name kind => ?_⟩
  · unfold sortModuleSymbols
    rw [heapLookup_eq, sortLookup_eq]
    exact ⟨SortSearch.heapSort_perm _ _ _, SortSearch.pairwise_heapSort _ _ _⟩
  · have hiff := requireUniqueSymbols_buildSymbolLookup names kinds locations
    constructor
    · rintro ⟨message, herror⟩
      have hnot : ¬UniqueSymbols names kinds := fun hunique => by
        rw [hiff.mpr hunique] at herror
        exact absurd herror (by simp)
      unfold UniqueSymbols at hnot
      push Not at hnot
      obtain ⟨i, j, hi, hj, hkey, hne⟩ := hnot
      rw [symbolKey_eq_symbolKey_iff] at hkey
      rcases Nat.lt_or_gt_of_ne hne with hlt | hgt
      · exact ⟨i, j, hlt, hj, hkey.2, hkey.1⟩
      · exact ⟨j, i, hgt, hi, hkey.2.symm, hkey.1.symm⟩
    · rintro ⟨i, j, hij, hj, hname, hkind⟩
      cases hresult : requireUniqueSymbols (buildSymbolLookup names kinds) names kinds locations with
      | error message => exact ⟨message, rfl⟩
      | ok _ =>
        have hsame := hiff.mp hresult i j (by omega) hj
          (symbolKey_eq_symbolKey_iff.mpr ⟨hkind, hname⟩)
        omega
  · have hunique := (requireUniqueSymbols_buildSymbolLookup names kinds locations).mp hok
    have hlength := length_buildSymbolLookup names kinds
    constructor
    · unfold findIndexedSymbol
      rw [hlength]
      exact findSortedSymbol_eq hunique name kind fun _ _ => rfl
    · exact fun returnTypes hreturns => findCompiledSymbol_eq hunique hreturns name kind

end Minyar

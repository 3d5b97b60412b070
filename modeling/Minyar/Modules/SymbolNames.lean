import Minyar.Compiler.Escape
import Minyar.Library.Decimal

/-!
# Symbols of a module graph

A declaration of a module is the LLVM symbol `minyar.module|name|identity`, a literal in it
`minyar.literal|identity|kind|index`.  The identity of a module is its path, relative to the directory
of the entry where it lies in it, from the last character to the first and escaped for LLVM.

`ModulePaths.symbol_unique` says that LLVM, which undoes the escapes, sees different symbols for
different declarations and literals, that no symbol has a quote inside, and that the order of the
imports does not matter.
-/

namespace Minyar

/-! ## Names -/

/-- The name that LLVM reads of a symbol. -/
def llvmName : Text → Text
  | '"' :: rest => unescapeLLVM rest.dropLast
  | name => name

/-- `stableModuleIdentity`.  Its loop takes the characters from the last one on. -/
def stableModuleIdentity (path root : Text) : Text :=
  let identity :=
    if root.length ≤ path.length ∧ path.take root.length = root then
      "local:".toList ++ path.drop root.length
    else "absolute:".toList ++ path
  escapeLLVMText identity.reverse

/-- `qualifiedDeclarationName`.  There are identities in incremental builds only. -/
def qualifiedDeclarationName (module : ℕ) (name : Text) (identities : List Text) : Text :=
  if module = 0 ∧ name = "main".toList then "main".toList
  else if 0 < identities.length then
    "\"minyar.module|".toList ++ name ++ "|".toList ++ identities.getD module [] ++ "\"".toList
  else "minyar_module_".toList ++ integerText module ++ "_".toList ++ name

/-- `literalName`. -/
def literalName (literalPrefix : Text) (index : ℕ) (data : Bool) : Text :=
  if literalPrefix = [] then
    if data then ".text.data.".toList ++ integerText index else ".text.".toList ++ integerText index
  else
    "\"minyar.literal|".toList ++ literalPrefix ++ "|".toList ++
      (if data then "data" else "value").toList ++ "|".toList ++ integerText index ++ "\"".toList

/-- A name of a declaration: a token of the kind of names. -/
structure DeclarationName where
  /-- The characters. -/
  text : Text
  /-- They are letters, digits and underscores. -/
  part : ∀ c ∈ text, characterIsNamePart c = true

/-- What is named in a module. -/
inductive ModuleItem
  /-- A function or a record. -/
  | declaration (name : DeclarationName)
  /-- The Text of a literal, or its bytes. -/
  | literal (index : ℕ) (data : Bool)

/-- The symbol of an item of the module at a position of the graph. -/
def ModuleItem.symbol (identities : List Text) (module : ℕ) : ModuleItem → Text
  | .declaration name => qualifiedDeclarationName module name.text identities
  | .literal index data => literalName (identities.getD module []) index data

/-- The modules of a graph: the entry and those it imports, in the order in which they are loaded. -/
structure ModulePaths where
  /-- The path of the entry. -/
  entry : Text
  /-- The paths of the other modules. -/
  imported : List Text
  /-- A module is loaded once. -/
  nodup : (entry :: imported).Nodup

/-- All paths. -/
def ModulePaths.paths (graph : ModulePaths) : List Text := graph.entry :: graph.imported

/-- The identities of the modules below a root. -/
def ModulePaths.identities (graph : ModulePaths) (root : Text) : List Text :=
  graph.paths.map fun path => stableModuleIdentity path root

/-! ## Identities -/

/-- An identity before it is escaped. -/
def plainIdentity (path root : Text) : Text :=
  (if root.length ≤ path.length ∧ path.take root.length = root then
      "local:".toList ++ path.drop root.length
    else "absolute:".toList ++ path).reverse

/-- Identities are escaped. -/
theorem stableModuleIdentity_eq (path root : Text) :
    stableModuleIdentity path root = escapeLLVMText (plainIdentity path root) := rfl

/-- Below one root different paths have different identities. -/
theorem plainIdentity_injective (root : Text) :
    Function.Injective fun path => plainIdentity path root := by
  intro path path' h
  have htexts := List.reverse_injective h
  split_ifs at htexts with hlocal hlocal' hlocal'
  · have hdrop := List.append_cancel_left htexts
    rw [← List.take_append_drop root.length path, ← List.take_append_drop root.length path',
      hdrop, hlocal.2, hlocal'.2]
  · simp at htexts
  · simp at htexts
  · exact List.append_cancel_left htexts

/-- An identity is not empty. -/
theorem stableModuleIdentity_ne_nil (path root : Text) : stableModuleIdentity path root ≠ [] := by
  intro h
  have hplain := unescapeLLVM_escape (plainIdentity path root) []
  rw [← stableModuleIdentity_eq, h, unescapeLLVM, List.append_nil, List.append_nil] at hplain
  rw [unescapeLLVM] at hplain
  unfold plainIdentity at hplain
  split_ifs at hplain <;> simp at hplain

/-! ## Separators -/

/-- The first separator is where a text is divided. -/
theorem append_separator_inj {c : Char} {first first' rest rest' : Text} (h : c ∉ first)
    (h' : c ∉ first') (heq : first ++ c :: rest = first' ++ c :: rest') :
    first = first' ∧ rest = rest' := by
  have htake : ∀ {text behind : Text}, c ∉ text →
      (text ++ c :: behind).takeWhile (fun d => decide (d ≠ c)) = text := fun {text behind} hmem => by
    have hall : ∀ d ∈ text, decide (d ≠ c) = true := fun d hd =>
      decide_eq_true fun hdc => hmem (hdc ▸ hd)
    rw [List.takeWhile_append_of_pos hall]
    simp
  have hfirst : first = first' := by
    rw [← @htake first rest h, heq, htake h']
  rw [hfirst] at heq
  have hrest := List.append_cancel_left heq
  rw [List.cons.injEq] at hrest
  exact ⟨hfirst, hrest.2⟩

/-- The last separator is where a text is divided. -/
theorem separator_append_inj {c : Char} {first first' rest rest' : Text} (h : c ∉ rest)
    (h' : c ∉ rest') (heq : first ++ c :: rest = first' ++ c :: rest') :
    first = first' ∧ rest = rest' := by
  have hreverse := congrArg List.reverse heq
  rw [List.reverse_append, List.reverse_append, List.reverse_cons, List.reverse_cons,
    List.append_assoc, List.append_assoc] at hreverse
  obtain ⟨hrest, hfirst⟩ := append_separator_inj (fun hmem => h (List.mem_reverse.mp hmem))
    (fun hmem => h' (List.mem_reverse.mp hmem)) hreverse
  exact ⟨List.reverse_injective hfirst, List.reverse_injective hrest⟩

/-- A name has no separator. -/
theorem DeclarationName.separator_not_mem (name : DeclarationName) : '|' ∉ name.text := fun h =>
  absurd (name.part '|' h) (by decide)

/-- A name has no quote. -/
theorem DeclarationName.quote_not_mem (name : DeclarationName) : '"' ∉ name.text := fun h =>
  absurd (name.part '"' h) (by decide)

/-- A name has no backslash. -/
theorem DeclarationName.backslash_not_mem (name : DeclarationName) : '\\' ∉ name.text := fun h =>
  absurd (name.part '\\' h) (by decide)

/-- A character that is no digit is not in a written number. -/
theorem not_mem_integerText {c : Char} (h : ¬ IsDigit c) (n : ℕ) : c ∉ integerText n := fun hmem =>
  h ((isNumeral_toDigits n).digit c hmem)

/-- Different numbers are written differently. -/
theorem integerText_injective : Function.Injective integerText := toDigits_injective

/-! ## The symbols of a graph -/

/-- The name of the entry's start. -/
def DeclarationName.main : DeclarationName := ⟨"main".toList, forall_mem_of_all (by decide)⟩

/-- What follows the identity of a literal. -/
def literalSuffix (index : ℕ) (data : Bool) : Text :=
  "|".toList ++ (if data then "data" else "value").toList ++ "|".toList ++ integerText index

/-- What stands between the quotes of the symbol of a declaration. -/
def declarationBody (name identity : Text) : Text :=
  "minyar.module|".toList ++ name ++ "|".toList ++ identity

/-- What stands between the quotes of the symbol of a literal. -/
def literalBody (identity : Text) (index : ℕ) (data : Bool) : Text :=
  "minyar.literal|".toList ++ (identity ++ literalSuffix index data)

/-- What stands between the quotes of the symbol of an item. -/
def ModuleItem.body (identity : Text) : ModuleItem → Text
  | .declaration name => declarationBody name.text identity
  | .literal index data => literalBody identity index data

/-- The identity of the module at a position. -/
theorem ModulePaths.identities_getD (graph : ModulePaths) (root : Text) {i : ℕ} {path : Text}
    (h : graph.paths[i]? = some path) :
    (graph.identities root).getD i [] = stableModuleIdentity path root := by
  rw [ModulePaths.identities, List.getD_eq_getElem?_getD, List.getElem?_map, h]
  rfl

/-- There is an identity. -/
theorem ModulePaths.identities_length_pos (graph : ModulePaths) (root : Text) :
    0 < (graph.identities root).length := by
  rw [ModulePaths.identities, List.length_map]
  exact Nat.succ_pos _

/-- The start of the entry has a plain symbol. -/
theorem symbol_main (identities : List Text) :
    (ModuleItem.declaration .main).symbol identities 0 = "main".toList := rfl

/-- The text in front of the declarations. -/
theorem not_mem_modulePrefix {c : Char} (h : c = '"' ∨ c = '\\') :
    c ∉ "minyar.module|".toList := by
  rcases h with rfl | rfl <;> decide

/-- The text in front of the literals. -/
theorem not_mem_literalPrefix {c : Char} (h : c = '"' ∨ c = '\\') :
    c ∉ "minyar.literal|".toList := by
  rcases h with rfl | rfl <;> decide

/-- The text behind the identity of a literal. -/
theorem not_mem_literalSuffix {c : Char} (h : c = '"' ∨ c = '\\') (index : ℕ) (data : Bool) :
    c ∉ literalSuffix index data := by
  have hindex : c ∉ integerText index :=
    not_mem_integerText (by rcases h with rfl | rfl <;> decide) index
  have hbar : c ∉ "|".toList := by rcases h with rfl | rfl <;> decide
  have hkind : c ∉ (if data then "data" else "value").toList := by
    rcases h with rfl | rfl <;> cases data <;> decide
  unfold literalSuffix
  simp only [List.mem_append, not_or]
  exact ⟨⟨⟨hbar, hkind⟩, hbar⟩, hindex⟩

/-- Nothing between the quotes of a symbol is a quote. -/
theorem ModuleItem.quote_not_mem_body (item : ModuleItem) (path root : Text) :
    '"' ∉ item.body (stableModuleIdentity path root) := by
  have hidentity : '"' ∉ stableModuleIdentity path root := quote_not_mem_escapeLLVMText _
  cases item with
  | declaration name =>
    unfold ModuleItem.body declarationBody
    simp only [List.mem_append, not_or]
    exact ⟨⟨⟨not_mem_modulePrefix (Or.inl rfl), name.quote_not_mem⟩, by decide⟩, hidentity⟩
  | literal index data =>
    unfold ModuleItem.body literalBody
    simp only [List.mem_append, not_or]
    exact ⟨not_mem_literalPrefix (Or.inl rfl), hidentity, not_mem_literalSuffix (Or.inl rfl) _ _⟩

/-- What LLVM reads between the quotes. -/
theorem ModuleItem.unescape_body (item : ModuleItem) (path root : Text) :
    unescapeLLVM (item.body (stableModuleIdentity path root)) =
      item.body (plainIdentity path root) := by
  rw [stableModuleIdentity_eq]
  cases item with
  | declaration name =>
    have hbefore : '\\' ∉ "minyar.module|".toList ++ name.text ++ "|".toList := by
      simp only [List.mem_append, not_or]
      exact ⟨⟨not_mem_modulePrefix (Or.inr rfl), name.backslash_not_mem⟩, by decide⟩
    have hplain := unescapeLLVM_escape (plainIdentity path root) []
    rw [List.append_nil, unescapeLLVM, List.append_nil] at hplain
    unfold ModuleItem.body declarationBody
    rw [unescapeLLVM_append hbefore, hplain]
  | literal index data =>
    have hrest := unescapeLLVM_append (not_mem_literalSuffix (Or.inr rfl) index data) []
    rw [List.append_nil, unescapeLLVM, List.append_nil] at hrest
    unfold ModuleItem.body literalBody
    rw [unescapeLLVM_append (not_mem_literalPrefix (Or.inr rfl)), unescapeLLVM_escape, hrest]

/-- All other symbols are quoted. -/
theorem ModulePaths.symbol_quoted (graph : ModulePaths) (root : Text) {i : ℕ} {path : Text}
    (hpath : graph.paths[i]? = some path) {item : ModuleItem}
    (h : ¬ (i = 0 ∧ item = .declaration .main)) :
    item.symbol (graph.identities root) i =
      '"' :: (item.body (stableModuleIdentity path root) ++ ['"']) := by
  have hquote : "\"".toList = ['"'] := rfl
  have hidentity := graph.identities_getD root hpath
  cases item with
  | declaration name =>
    have hmain : ¬ (i = 0 ∧ name.text = "main".toList) := fun hname => by
      refine h ⟨hname.1, ?_⟩
      rcases name with ⟨text, hpart⟩
      obtain rfl : text = "main".toList := hname.2
      rfl
    have hopen : "\"minyar.module|".toList = '"' :: "minyar.module|".toList := by decide
    unfold ModuleItem.symbol qualifiedDeclarationName ModuleItem.body declarationBody
    simp only
    rw [if_neg hmain, if_pos (graph.identities_length_pos root), hidentity, hopen, hquote]
    simp only [List.cons_append]
  | literal index data =>
    have hopen : "\"minyar.literal|".toList = '"' :: "minyar.literal|".toList := by decide
    unfold ModuleItem.symbol literalName ModuleItem.body literalBody literalSuffix
    simp only
    rw [hidentity, if_neg (stableModuleIdentity_ne_nil path root), hopen, hquote]
    simp only [List.cons_append, List.append_assoc]

/-- Names with the same text are the same. -/
theorem DeclarationName.eq_of_text {name name' : DeclarationName} (h : name.text = name'.text) :
    name = name' := by
  cases name
  cases name'
  simpa using h

/-- A literal's text and its bytes are named differently. -/
theorem literalSuffix_inj {index index' : ℕ} {data data' : Bool} {first first' : Text}
    (h : first ++ literalSuffix index data = first' ++ literalSuffix index' data') :
    first = first' ∧ index = index' ∧ data = data' := by
  have hsplit : ∀ (text : Text) (i : ℕ) (d : Bool), text ++ literalSuffix i d =
      (text ++ '|' :: (if d then "data" else "value").toList) ++ '|' :: integerText i := by
    intro text i d
    unfold literalSuffix
    simp only [List.append_assoc, List.cons_append]
    rfl
  rw [hsplit, hsplit] at h
  have hbar := not_mem_integerText (c := '|') (by decide)
  obtain ⟨hfirst, hindex⟩ := separator_append_inj (hbar index) (hbar index') h
  have hkind : ∀ d : Bool, '|' ∉ (if d then "data" else "value").toList := by
    intro d
    cases d <;> decide
  obtain ⟨htext, hdata⟩ := separator_append_inj (hkind data) (hkind data') hfirst
  refine ⟨htext, integerText_injective hindex, ?_⟩
  cases data <;> cases data' <;> first | rfl | exact absurd hdata (by decide)

/-- The texts between the quotes are different for different modules or items. -/
theorem ModuleItem.body_inj {identity identity' : Text} {item item' : ModuleItem}
    (h : item.body identity = item'.body identity') : identity = identity' ∧ item = item' := by
  have hmixed : ∀ rest rest' : Text,
      "minyar.module|".toList ++ rest ≠ "minyar.literal|".toList ++ rest' := by
    intro rest rest' heq
    have htake := congrArg (List.take 8) heq
    rw [List.take_append_of_le_length (by decide), List.take_append_of_le_length (by decide)] at htake
    exact absurd htake (by decide)
  cases item with
  | declaration name =>
    cases item' with
    | declaration name' =>
      unfold ModuleItem.body declarationBody at h
      simp only [List.append_assoc] at h
      obtain ⟨hname, hidentity⟩ := append_separator_inj name.separator_not_mem
        name'.separator_not_mem (List.append_cancel_left h)
      rw [DeclarationName.eq_of_text hname]
      exact ⟨hidentity, rfl⟩
    | literal index' data' =>
      unfold ModuleItem.body declarationBody literalBody at h
      simp only [List.append_assoc] at h
      exact absurd h (hmixed _ _)
  | literal index data =>
    cases item' with
    | declaration name' =>
      unfold ModuleItem.body declarationBody literalBody at h
      simp only [List.append_assoc] at h
      exact absurd h.symm (hmixed _ _)
    | literal index' data' =>
      unfold ModuleItem.body literalBody at h
      obtain ⟨hidentity, rfl, rfl⟩ := literalSuffix_inj (List.append_cancel_left h)
      exact ⟨hidentity, rfl⟩

/-- The start of the entry is not named like anything else. -/
theorem ModuleItem.body_ne_main (item : ModuleItem) (identity : Text) :
    item.body identity ≠ "main".toList := by
  intro h
  have htake := congrArg (List.take 4) h
  cases item with
  | declaration name =>
    unfold ModuleItem.body declarationBody at htake
    simp only [List.append_assoc] at htake
    rw [List.take_append_of_le_length (by decide)] at htake
    exact absurd htake (by decide)
  | literal index data =>
    unfold ModuleItem.body literalBody at htake
    rw [List.take_append_of_le_length (by decide)] at htake
    exact absurd htake (by decide)

/-- The name that LLVM reads of a quoted symbol. -/
theorem ModulePaths.llvmName_symbol (graph : ModulePaths) (root : Text) {i : ℕ} {path : Text}
    (hpath : graph.paths[i]? = some path) {item : ModuleItem}
    (h : ¬ (i = 0 ∧ item = .declaration .main)) :
    llvmName (item.symbol (graph.identities root) i) = item.body (plainIdentity path root) := by
  rw [graph.symbol_quoted root hpath h, llvmName, List.dropLast_concat, item.unescape_body]

/-- A path has one position. -/
theorem ModulePaths.position_unique (graph : ModulePaths) {i j : ℕ} {path : Text}
    (hi : graph.paths[i]? = some path) (hj : graph.paths[j]? = some path) : i = j := by
  obtain ⟨hlt, -⟩ := List.getElem?_eq_some_iff.mp hi
  exact (List.getElem?_inj hlt graph.nodup).mp (hi.trans hj.symm)

/-- Different items of a graph have different names for LLVM, a symbol is either the plain `main` of
the entry or quoted without a quote inside, and a symbol depends on the path of its module only, not
on its position in the graph. -/
theorem ModulePaths.symbol_unique (graph : ModulePaths) (root : Text) :
    (∀ i j path path' (item item' : ModuleItem),
      graph.paths[i]? = some path → graph.paths[j]? = some path' →
      llvmName (item.symbol (graph.identities root) i) =
        llvmName (item'.symbol (graph.identities root) j) → path = path' ∧ item = item') ∧
    (∀ i path (item : ModuleItem), graph.paths[i]? = some path →
      (path = graph.entry ∧ item = .declaration .main ∧
        item.symbol (graph.identities root) i = "main".toList) ∨
      ∃ body, item.symbol (graph.identities root) i = '"' :: (body ++ ['"']) ∧ '"' ∉ body) ∧
    (∀ graph' : ModulePaths, graph'.entry = graph.entry → ∀ i j path (item : ModuleItem),
      graph.paths[i]? = some path → graph'.paths[j]? = some path →
      item.symbol (graph.identities root) i = item.symbol (graph'.identities root) j) := by
  have hentry : ∀ g : ModulePaths, g.paths[0]? = some g.entry := fun g => rfl
  refine ⟨?_, ?_, ?_⟩
  · intro i j path path' item item' hi hj hsame
    by_cases hmain : i = 0 ∧ item = .declaration .main
    · obtain ⟨rfl, rfl⟩ := hmain
      by_cases hmain' : j = 0 ∧ item' = .declaration .main
      · obtain ⟨rfl, rfl⟩ := hmain'
        exact ⟨Option.some.inj (hi.symm.trans hj), rfl⟩
      · rw [graph.llvmName_symbol root hj hmain'] at hsame
        exact absurd hsame.symm (ModuleItem.body_ne_main _ _)
    · rw [graph.llvmName_symbol root hi hmain] at hsame
      by_cases hmain' : j = 0 ∧ item' = .declaration .main
      · obtain ⟨rfl, rfl⟩ := hmain'
        exact absurd hsame (ModuleItem.body_ne_main _ _)
      · rw [graph.llvmName_symbol root hj hmain'] at hsame
        obtain ⟨hidentity, hitem⟩ := ModuleItem.body_inj hsame
        exact ⟨plainIdentity_injective root hidentity, hitem⟩
  · intro i path item hi
    by_cases hmain : i = 0 ∧ item = .declaration .main
    · obtain ⟨rfl, rfl⟩ := hmain
      exact Or.inl ⟨Option.some.inj (hi.symm.trans (hentry graph)), rfl, symbol_main _⟩
    · exact Or.inr ⟨_, graph.symbol_quoted root hi hmain, item.quote_not_mem_body path root⟩
  · intro graph' hgraph i j path item hi hj
    by_cases hmain : i = 0 ∧ item = .declaration .main
    · obtain ⟨rfl, rfl⟩ := hmain
      have hpath : graph'.paths[0]? = some path := by
        rw [hentry graph', hgraph, ← hentry graph, hi]
      rw [graph'.position_unique hj hpath, symbol_main, symbol_main]
    · have hmain' : ¬ (j = 0 ∧ item = .declaration .main) := fun h => by
        obtain ⟨rfl, hitem⟩ := h
        have hpath : graph.paths[0]? = some path := by
          rw [hentry graph, ← hgraph, ← hentry graph', hj]
        exact hmain ⟨graph.position_unique hi hpath, hitem⟩
      rw [graph.symbol_quoted root hi hmain, graph'.symbol_quoted root hj hmain']

/-- An entry and two modules, one of which is outside of the root. -/
def twoImports : ModulePaths where
  entry := "/a/m.min".toList
  imported := ["/a/x.min".toList, "/b/y.min".toList]
  nodup := by decide

/-- The same modules in another order. -/
def twoImportsSwapped : ModulePaths where
  entry := "/a/m.min".toList
  imported := ["/b/y.min".toList, "/a/x.min".toList]
  nodup := by decide

/-- A literal is named alike in both orders, and only the `main` of the entry is plain. -/
theorem symbol_unique_twoImports :
    (ModuleItem.literal 0 true).symbol (twoImports.identities "/a".toList) 1 =
        (ModuleItem.literal 0 true).symbol (twoImportsSwapped.identities "/a".toList) 2 ∧
      llvmName ((ModuleItem.declaration .main).symbol (twoImports.identities "/a".toList) 1) ≠
        llvmName ((ModuleItem.declaration .main).symbol (twoImports.identities "/a".toList) 2) ∧
      (ModuleItem.declaration .main).symbol (twoImports.identities "/a".toList) 0 =
        "main".toList := by
  obtain ⟨hunique, -, horder⟩ := twoImports.symbol_unique "/a".toList
  refine ⟨horder twoImportsSwapped rfl 1 2 "/a/x.min".toList _ rfl rfl, fun hsame => ?_, rfl⟩
  exact absurd (hunique 1 2 _ _ _ _ rfl rfl hsame).1 (by decide)

end Minyar

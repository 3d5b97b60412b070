import Minyar.Compiler.DeclarationPasses
import Minyar.Compiler.TokenLocations

/-!
# The functions of the emitted module

The emitted module declares the functions of the runtime and defines the functions of the program
under the names that they have in the source; a program without `main` gets one for its statements.
What is checked are two functions of one name, `main` next to statements, and the two functions
that only bounded ownership declares.  A function may have the name of every other function of the
runtime.
-/

namespace Minyar

/-! ## Tokens of the lexer -/

/-- A token whose kind is no punctuation does not pass for a brace. -/
def NoBraceName (token : Token) : Prop :=
  token.is "\x7b" = true ∨ token.is "\x7d" = true → token.kind = .punctuation

/-- A literal passes for nothing. -/
theorem noBraceName_of_not_is {token : Token} (h : ∀ expected, token.is expected = false) :
    NoBraceName token := by
  rintro (his | his) <;> rw [h] at his <;> cases his

/-- A token with another text is no brace. -/
theorem noBraceName_of_text {kind : TokenKind} {text location : String}
    (h : text ≠ "\x7b" ∧ text ≠ "\x7d") : NoBraceName ⟨kind, text, location⟩ := by
  rintro (his | his)
  · exact absurd (Token.text_of_is his) h.1
  · exact absurd (Token.text_of_is his) h.2

/-- A name starts with a letter or an underscore. -/
theorem noBraceName_of_head {c : Char} {rest : Text} {location : String}
    (h : (characterIsLetter c || c = '_') = true) :
    NoBraceName ⟨.name, String.ofList (c :: rest), location⟩ := by
  refine noBraceName_of_text ⟨fun htext => ?_, fun htext => ?_⟩
  all_goals
    have hlist := congrArg String.toList htext
    rw [String.toList_ofList] at hlist
    rw [(List.cons.inj hlist).1] at h
    exact absurd h (by decide)

/-- The tokens that a turn of the lexer adds. -/
theorem lexToken_noBraceName {tokens added : List Token} {c : Char} {rest rest' : Text}
    {place place' : Place} (h : lexToken tokens c rest place = .ok (added, rest', place')) :
    ∀ token ∈ added, NoBraceName token := by
  unfold lexToken at h
  simp only at h
  split_ifs at h with _ _ _ _ hletter
  · cases h
    exact List.forall_mem_singleton.mpr (noBraceName_of_text (by decide))
  · cases h; nofun
  · cases h; nofun
  · split at h <;> cases h
    nofun
  · cases h
    exact List.forall_mem_singleton.mpr (noBraceName_of_head hletter)
  · cases h
    exact List.forall_mem_singleton.mpr (noBraceName_of_not_is fun _ => rfl)
  · split at h <;> cases h
    exact List.forall_mem_singleton.mpr (noBraceName_of_not_is fun _ => rfl)
  · split at h <;> cases h
    exact List.forall_mem_singleton.mpr (noBraceName_of_not_is fun _ => rfl)
  · have hadded : (punctuation c rest place).1 = added := congrArg Prod.fst (Except.ok.inj h)
    have hsingle (place : Place) : NoBraceName ⟨punctuationKind c, String.singleton c, place.location⟩ := by
      unfold punctuationKind
      split_ifs with hsemicolon
      · rw [hsemicolon]
        exact noBraceName_of_text (by decide)
      · exact fun _ => rfl
    rw [← hadded]
    unfold punctuation
    split
    · split_ifs
      · exact List.forall_mem_singleton.mpr fun _ => rfl
      · exact List.forall_mem_singleton.mpr (hsingle place)
    · exact List.forall_mem_singleton.mpr (hsingle place)

/-- The tokens of the lexer. -/
theorem tokenizeFrom_noBraceName {fuel : ℕ} {text : Text} {place : Place} {tokens final : List Token}
    (htokens : ∀ token ∈ tokens, NoBraceName token)
    (h : tokenizeFrom fuel text place tokens = .ok final) : ∀ token ∈ final, NoBraceName token := by
  induction fuel generalizing text place tokens with
  | zero =>
    cases text with
    | nil =>
      cases h
      exact List.forall_mem_append.mpr ⟨htokens,
        List.forall_mem_singleton.mpr (noBraceName_of_text (by decide))⟩
    | cons c rest => cases h
  | succ fuel ih =>
    cases text with
    | nil =>
      cases h
      exact List.forall_mem_append.mpr ⟨htokens,
        List.forall_mem_singleton.mpr (noBraceName_of_text (by decide))⟩
    | cons c rest =>
      obtain ⟨⟨added, rest', place'⟩, hlex, hrest⟩ := bind_eq_ok.mp h
      exact ih (List.forall_mem_append.mpr ⟨htokens, lexToken_noBraceName hlex⟩) hrest

/-- Tokens and the end of the file. -/
theorem sourceTokens_append {tokens : List Token} {last : Token}
    (htokens : ∀ token ∈ tokens, NoBraceName token ∧ token.kind ≠ .endOfFile)
    (hlast : NoBraceName last) : SourceTokens (tokens ++ [last]) where
  brace := List.forall_mem_append.mpr
    ⟨fun token htoken => (htokens token htoken).1, List.forall_mem_singleton.mpr hlast⟩
  endOfFile before token after heq hend := by
    by_contra hafter
    obtain ⟨front, final, rfl⟩ := List.eq_nil_or_concat after |>.resolve_left hafter
    rw [List.concat_eq_append, ← List.cons_append, ← List.append_assoc] at heq
    refine (htokens token ?_).2 hend
    rw [(List.append_inj' heq rfl).1]
    simp

/-- The tokens of a source file. -/
theorem sourceTokens_of_tokenize {source : Text} {tokens : List Token}
    (h : tokenize source [] = .ok tokens) : SourceTokens tokens := by
  have hbrace : ∀ token ∈ tokens, NoBraceName token := by
    unfold tokenize at h
    split at h
    · split_ifs at h
      · exact tokenizeFrom_noBraceName (by nofun) h
      · exact tokenizeFrom_noBraceName (by nofun) h
    · exact tokenizeFrom_noBraceName (by nofun) h
  rcases tokenize_pieces source with ⟨-, message, herror⟩ | ⟨-, added, last, -, -, hok, -, hadded, -⟩
  · cases herror.symm.trans h
  · obtain rfl := Except.ok.inj (hok.symm.trans h)
    obtain ⟨hfront, hlast⟩ := List.forall_mem_append.mp hbrace
    exact sourceTokens_append (fun token htoken => ⟨hfront token htoken, hadded token htoken⟩)
      (List.forall_mem_singleton.mp hlast)

/-! ## The declarations -/

/-- The declarations of every module. -/
def runtimeDeclarations : List String :=
  [ "\ndeclare void @minyar_rc_enter(i64)\n",
    "declare void @minyar_rc_leave()\n",
    "declare void @minyar_stack_enter()\n",
    "declare void @minyar_stack_leave()\n",
    "declare void @minyar_rc_keep(ptr)\n",
    "declare void @minyar_rc_borrow(ptr)\n",
    "declare void @minyar_rc_retain(ptr)\n",
    "declare void @minyar_rc_local(i64, ptr)\n",
    "declare void @minyar_rc_local_take(i64, ptr)\n",
    "declare void @minyar_rc_local_move(i64)\n",
    "declare void @minyar_rc_step()\n",
    "declare void @minyar_print_integer(i64)\n",
    "declare void @minyar_print_text(ptr)\n",
    "declare void @minyar_print_character(i32)\n",
    "declare void @minyar_print_boolean(i1)\n",
    "declare void @minyar_fail(ptr)\n",
    "declare void @minyar_exit(i64)\n",
    "declare i1 @minyar_texts_are_equal(ptr, ptr)\n",
    "declare ptr @minyar_join_text(ptr, ptr)\n",
    "declare ptr @minyar_join_text_take_left(ptr, ptr)\n",
    "declare ptr @minyar_join_texts(ptr)\n",
    "declare i64 @minyar_text_length(ptr)\n",
    "declare i64 @minyar_text_byte_length(ptr)\n",
    "declare i32 @minyar_text_character_at(ptr, i64)\n",
    "declare ptr @minyar_text_slice(ptr, i64, i64)\n",
    "declare ptr @minyar_integer_text(i64)\n",
    "declare ptr @minyar_character_text(i32)\n",
    "declare ptr @minyar_boolean_text(i1)\n",
    "declare void @minyar_initialize_arguments(i32, ptr)\n",
    "declare i64 @minyar_argument_count()\n",
    "declare ptr @minyar_argument(i64)\n",
    "declare ptr @minyar_read_text_file(ptr)\n",
    "declare void @minyar_write_text_file(ptr, ptr)\n",
    "declare ptr @minyar_list_new()\n",
    "declare void @minyar_list_references(ptr)\n",
    "declare void @minyar_list_add(ptr, i64)\n",
    "declare void @minyar_list_add_take(ptr, i64)\n",
    "declare i64 @minyar_list_length(ptr)\n",
    "declare i64 @minyar_list_get(ptr, i64)\n",
    "declare void @minyar_list_set(ptr, i64, i64)\n",
    "declare void @minyar_list_set_take(ptr, i64, i64)\n",
    "declare ptr @minyar_list_appended(ptr, i64, i64, i64)\n",
    "declare ptr @minyar_record_new(i64)\n",
    "declare ptr @minyar_record_new_scalar(i64)\n",
    "declare i64 @minyar_record_get(ptr, i64)\n",
    "declare void @minyar_record_set(ptr, i64, i64)\n",
    "declare void @minyar_record_set_scalar(ptr, i64, i64)\n",
    "declare void @minyar_record_set_reference(ptr, i64, i64)\n",
    "declare void @minyar_record_set_take(ptr, i64, i64)\n",
    "declare void @minyar_check_integer_overflow(i1)\n",
    "declare void @minyar_check_integer_division(i64, i64)\n",
    "declare \x7b i64, i1 \x7d @llvm.sadd.with.overflow.i64(i64, i64)\n",
    "declare \x7b i64, i1 \x7d @llvm.ssub.with.overflow.i64(i64, i64)\n",
    "declare \x7b i64, i1 \x7d @llvm.smul.with.overflow.i64(i64, i64)\n\n" ]

/-- The declarations of a module with bounded ownership. -/
def boundedDeclarations : List String :=
  [ "declare void @minyar_rc_enter_stack_v1(ptr, ptr, i64)\n",
    "declare void @minyar_rc_leave_stack_v1(ptr)\n" ]

/-- The function that a line declares: what stands between the sigil and the parenthesis. -/
def declaredFunction (line : String) : Text :=
  ((line.toList.dropWhile (· ≠ '@')).drop 1).takeWhile (· ≠ '(')

/-- The functions that every module declares. -/
def runtimeSymbols : List Text := runtimeDeclarations.map declaredFunction

/-- The functions that bounded ownership declares. -/
def boundedSymbols : List Text := boundedDeclarations.map declaredFunction

/-- The declarations are of different functions, and none of them is `main`. -/
theorem nodup_runtimeSymbols :
    (runtimeSymbols ++ boundedSymbols ++ ["main".toList]).Nodup := by
  simp only [runtimeSymbols, runtimeDeclarations, boundedSymbols, boundedDeclarations, List.map,
    declaredFunction]
  -- The lines are spelled out once: the kernel is slow at the characters of a string.
  repeat rw [String.toList_ofList]
  decide +kernel

/-! ## The functions of a module -/

/-- The function of a name in the table of symbols, or -1. -/
def DeclaredSymbols.findFunction (s : DeclaredSymbols) (name : Text) : ℤ :=
  findIndexedSymbol (buildSymbolLookup s.names s.kinds) s.names s.kinds name 1

/-- A program of one file that the compiler accepts: what its passes find, and the checks between
them. -/
structure Compilation where
  /-- The tokens of the file. -/
  tokens : List Token
  /-- `stackOwnerLimit`. -/
  limit : ℕ
  /-- What `discoverRecordNames` finds. -/
  found : DiscoveredRecords
  /-- What `discoverDeclarations` adds. -/
  symbols : DeclaredSymbols
  /-- What `compileFunctions` defines. -/
  functions : List FunctionHeader
  /-- The tokens are those of the lexer. -/
  source : SourceTokens tokens
  /-- The first pass succeeds. -/
  discovers : discoverRecordNames tokens = some found
  /-- No record is declared twice. -/
  uniqueRecords : requireUniqueSymbols (buildSymbolLookup found.names found.kinds) found.names
    found.kinds found.locations = .ok ()
  /-- The second pass succeeds. -/
  declares : discoverDeclarations tokens found = .ok symbols
  /-- Nothing is declared twice. -/
  uniqueSymbols : requireUniqueSymbols (buildSymbolLookup symbols.names symbols.kinds) symbols.names
    symbols.kinds symbols.locations = .ok ()
  /-- There is no `main` next to statements. -/
  main : found.topLevelStatements = true → symbols.findFunction "main".toList < 0
  /-- The third pass succeeds. -/
  compiles : CompilesDeclarations symbols (Token.skipTerminators tokens) functions
  /-- The functions of bounded ownership are reserved. -/
  reserved : 0 < limit → ∀ name ∈ boundedSymbols, symbols.findFunction name < 0

namespace Compilation

/-- The functions that the emitted module declares or defines, in their order. -/
def functionSymbols (c : Compilation) : List Text :=
  runtimeSymbols ++ c.functions.map (fun h => h.name.toList) ++
    (if c.symbols.findFunction "main".toList < 0 then ["main".toList] else []) ++
    (if 0 < c.limit then boundedSymbols else [])

/-- The function symbols are the functions that are compiled, in their order and behind the records. -/
theorem symbols_eq (c : Compilation) (hfree : c.symbols.BraceFree) :
    c.symbols.names = c.found.names ++ c.functions.map (fun h => h.name.toList) ∧
      c.symbols.kinds = (c.found.names.map fun _ => 2) ++ c.functions.map fun _ => 1 := by
  obtain ⟨hnames, hkinds⟩ := c.compiles.names_eq c.source hfree (skipTerminators_suffix _)
    c.discovers c.declares
  exact ⟨hnames, hkinds.trans (by rw [← kinds_of_discoverFrom rfl c.discovers]; rfl)⟩

/-- The function of a name is found exactly if it is compiled. -/
theorem findFunction_nonneg_iff (c : Compilation) (hfree : c.symbols.BraceFree) (name : Text) :
    0 ≤ c.symbols.findFunction name ↔ name ∈ c.functions.map fun h => h.name.toList := by
  obtain ⟨hnames, hkinds⟩ := c.symbols_eq hfree
  have hunique := (requireUniqueSymbols_buildSymbolLookup _ _ _).mp c.uniqueSymbols
  unfold DeclaredSymbols.findFunction findIndexedSymbol
  rw [length_buildSymbolLookup, findSortedSymbol_eq hunique name 1 fun _ _ => rfl]
  have hlength : c.found.names.length = (c.found.names.map fun _ => 2).length := by
    rw [List.length_map]
  constructor
  · intro hfind
    obtain ⟨index, -, -, hname, hkind⟩ := findSymbol_spec name 1 hfind
    rw [hnames] at hname
    rw [hkinds] at hkind
    rcases Nat.lt_or_ge index c.found.names.length with hlt | hge
    · rw [List.getD_append _ _ _ _ (by omega), List.getD_eq_getElem _ _ (by omega),
        List.getElem_map] at hkind
      cases hkind
    · rw [List.getElem?_append_right hge] at hname
      exact List.mem_of_getElem? hname
  · intro hmem
    obtain ⟨index, hindex⟩ := List.mem_iff_getElem?.mp hmem
    have hlt := (List.getElem?_eq_some_iff.mp hindex).1
    by_contra hneg
    have hcases := findSymbolFrom_cases c.symbols.names c.symbols.kinds name 1
      c.symbols.names.length 0
    rcases hcases with ⟨found, -, -, -, heq⟩ | ⟨hnone, -⟩
    · exact hneg (by rw [findSymbol, heq]; exact Int.natCast_nonneg found)
    · refine hnone (c.found.names.length + index) (Nat.zero_le _) ?_ (symbolKey_eq_iff.mpr ⟨?_, ?_⟩)
      · rw [hnames, List.length_append]
        omega
      · rw [hkinds, List.getD_append_right _ _ _ _ (by omega), ← hlength, Nat.add_sub_cancel_left,
          List.getD_eq_getElem _ _ (by simpa using hlt), List.getElem_map]
      · rw [hnames, List.getD_append_right _ _ _ _ (by omega), Nat.add_sub_cancel_left,
          List.getD_eq_getElem?_getD, hindex, Option.getD_some]

/-- The compiled functions have different names. -/
theorem nodup_functions (c : Compilation) (hfree : c.symbols.BraceFree) :
    (c.functions.map fun h => h.name.toList).Nodup := by
  obtain ⟨hnames, hkinds⟩ := c.symbols_eq hfree
  have hunique := (requireUniqueSymbols_buildSymbolLookup _ _ _).mp c.uniqueSymbols
  rw [List.nodup_iff_injective_get]
  rintro ⟨i, hi⟩ ⟨j, hj⟩ heq
  rw [List.length_map] at hi hj
  have hkey (k : ℕ) (hk : k < c.functions.length) :
      symbolKey c.symbols.names c.symbols.kinds (c.found.names.length + k) =
        wantedKey (c.functions[k].name.toList) 1 := by
    refine symbolKey_eq_iff.mpr ⟨?_, ?_⟩
    · rw [hkinds, List.getD_append_right _ _ _ _ (by simp), List.length_map,
        Nat.add_sub_cancel_left, List.getD_eq_getElem _ _ (by simpa using hk), List.getElem_map]
    · rw [hnames, List.getD_append_right _ _ _ _ (by omega), Nat.add_sub_cancel_left,
        List.getD_eq_getElem _ _ (by simpa using hk), List.getElem_map]
  have hlength : c.symbols.names.length = c.found.names.length + c.functions.length := by
    rw [hnames, List.length_append, List.length_map]
  have hsame := hunique (c.found.names.length + i) (c.found.names.length + j) (by omega) (by omega)
    (by
      rw [hkey i hi, hkey j hj]
      simpa using congrArg (fun name => wantedKey name 1) heq)
  exact Fin.ext (Nat.add_left_cancel hsame)

/-- A function that is not found is not compiled. -/
theorem ne_of_findFunction_neg (c : Compilation) (hfree : c.symbols.BraceFree) {name : Text}
    (h : c.symbols.findFunction name < 0) :
    ∀ function ∈ c.functions.map (fun h => h.name.toList), function ≠ name := by
  rintro function hfunction rfl
  exact absurd ((c.findFunction_nonneg_iff hfree function).mpr hfunction) (Int.not_le.mpr h)

/-- When no declared name is a brace, the functions of the emitted module are different exactly if
no function of the program has the name of a function that every module declares. -/
theorem functionSymbols_nodup_iff (c : Compilation) (hfree : c.symbols.BraceFree) :
    c.functionSymbols.Nodup ↔ ∀ h ∈ c.functions, h.name.toList ∉ runtimeSymbols := by
  obtain ⟨hdeclared, -, hmain⟩ := List.nodup_append.mp nodup_runtimeSymbols
  obtain ⟨hruntime, hbounded, hdisjoint⟩ := List.nodup_append.mp hdeclared
  constructor
  · intro hnodup h hh hmem
    have hnodup := (List.nodup_append.mp (List.nodup_append.mp hnodup).1).1
    exact (List.nodup_append.mp hnodup).2.2 _ hmem _ (List.mem_map_of_mem hh) rfl
  · intro hnames
    have hfunctions : ∀ name ∈ runtimeSymbols, ∀ function ∈ c.functions.map (fun h => h.name.toList),
        name ≠ function := by
      rintro name hname _ hfunction rfl
      obtain ⟨h, hh, rfl⟩ := List.mem_map.mp hfunction
      exact hnames h hh hname
    have hprogram : (runtimeSymbols ++ c.functions.map fun h => h.name.toList).Nodup :=
      List.nodup_append.mpr ⟨hruntime, c.nodup_functions hfree, hfunctions⟩
    have hentry : (runtimeSymbols ++ c.functions.map (fun h => h.name.toList) ++
        if c.symbols.findFunction "main".toList < 0 then ["main".toList] else []).Nodup := by
      split_ifs with hnone
      · refine List.nodup_append.mpr ⟨hprogram, List.nodup_singleton _, fun name hname => ?_⟩
        rintro _ hsingle rfl
        rcases List.mem_append.mp hname with hname | hname
        · exact hmain name (List.mem_append_left _ hname) name hsingle rfl
        · exact c.ne_of_findFunction_neg hfree hnone name hname (List.mem_singleton.mp hsingle)
      · rwa [List.append_nil]
    by_cases hlimit : 0 < c.limit
    · rw [functionSymbols, if_pos hlimit]
      refine List.nodup_append.mpr ⟨hentry, hbounded, fun name hname bounded hmem => ?_⟩
      rcases List.mem_append.mp hname with hname | hname
      · rcases List.mem_append.mp hname with hname | hname
        · exact hdisjoint name hname bounded hmem
        · exact c.ne_of_findFunction_neg hfree (c.reserved hlimit bounded hmem) name hname
      · refine (hmain bounded (List.mem_append_right _ hmem) name ?_).symm
        split_ifs at hname
        · exact hname
        · cases hname
    · rwa [functionSymbols, if_neg hlimit, List.append_nil]

end Compilation

/-! ## Steps of the second pass -/

namespace DeclaredSymbols

variable {s s' : DeclaredSymbols} {all rest after : List Token} {ends lookup : List ℕ}
  {declaration position : ℕ} {token : Token}

/-- A record. -/
theorem declareFrom_record (hend : token.kind ≠ .endOfFile) (his : token.is "record" = true)
    (hread : s.readRecord lookup rest = .ok (s', after)) :
    s.declareFrom all ends lookup declaration (token :: rest) =
      s'.declareFrom all ends lookup (declaration + 1) (Token.skipTerminators after) := by
  rw [declareFrom, dif_neg hend, if_pos his]
  split
  · next h => cases hread.symm.trans h
  · next h => cases hread.symm.trans h; rfl

/-- A function, whose end is known. -/
theorem declareFrom_function (hend : token.kind ≠ .endOfFile) (hrecord : ¬ token.is "record" = true)
    (his : token.is "function" = true) (hread : s.readFunction rest = .ok s')
    (hposition : ends[declaration]? = some position) :
    s.declareFrom all ends lookup declaration (token :: rest) =
      s'.declareFrom all ends lookup (declaration + 1)
        (Token.skipTerminators (all.drop position)) := by
  rw [declareFrom, dif_neg hend, if_neg hrecord, if_pos his]
  simp only [hread]
  split
  · next h => cases hposition.symm.trans h
  · next h => cases hposition.symm.trans h; rfl

/-- A statement. -/
theorem declareFrom_statement (hend : token.kind ≠ .endOfFile)
    (hrecord : ¬ token.is "record" = true) (hfunction : ¬ token.is "function" = true) :
    s.declareFrom all ends lookup declaration (token :: rest) =
      s.declareFrom all ends lookup declaration
        (Token.skipTerminators (skipTopLevelStatement (token :: rest))) := by
  rw [declareFrom, dif_neg hend, if_neg hrecord, if_neg hfunction]

/-- The end of the program. -/
theorem declareFrom_end (hend : token.kind = .endOfFile) :
    s.declareFrom all ends lookup declaration (token :: rest) = .ok s := by
  rw [declareFrom, dif_pos hend]

end DeclaredSymbols

/-! ## A program of one function -/

/-- The tokens of a function without parameters and statements. -/
def oneFunctionTokens (name : String) : List Token :=
  [⟨.name, "function", "1"⟩, ⟨.name, name, "1"⟩, ⟨.punctuation, "(", "1"⟩, ⟨.punctuation, ")", "1"⟩,
    ⟨.punctuation, "\x7b", "1"⟩, ⟨.punctuation, "\x7d", "1"⟩, ⟨.endOfFile, "", "1"⟩]

/-- The symbols of the function. -/
def oneFunctionSymbols (name : String) : DeclaredSymbols where
  names := [name.toList]
  kinds := [1]
  locations := ["1".toList]
  returnTypes := [5]
  parameterCounts := [0]
  parameterStarts := [0]

/-- The declaration ends with the file. -/
theorem skipDeclaration_oneFunction (name : String) :
    skipDeclaration (oneFunctionTokens name) = some [⟨.endOfFile, "", "1"⟩] := rfl

/-- There is no record. -/
theorem discoverRecordNames_oneFunction (name : String) :
    discoverRecordNames (oneFunctionTokens name) = some { declarationEnds := [6] } := by
  rw [discoverRecordNames, show Token.skipTerminators (oneFunctionTokens name) =
    oneFunctionTokens name from rfl, oneFunctionTokens, discoverFrom, dif_neg (by decide),
    if_neg fun h => absurd h.1 (by decide), if_pos (.inr (by decide))]
  split
  · next h => cases (skipDeclaration_oneFunction name).symm.trans h
  · next after h =>
    obtain rfl := Option.some.inj ((skipDeclaration_oneFunction name).symm.trans h)
    rw [Token.skipTerminators, List.dropWhile_cons_of_neg (by decide), discoverFrom, dif_pos rfl]
    rfl

/-- The head of the function. -/
theorem readSignature_oneFunction {name : String} (hname : name ≠ "main")
    (parameterType returnType : TypeReader) :
    readSignature parameterType returnType (oneFunctionTokens name).tail =
      .ok (⟨name, [], 5⟩, (oneFunctionTokens name).drop 4) := by
  have hparameters (rest : List Token) :
      readParameters parameterType [] (⟨.punctuation, ")", "1"⟩ :: rest) =
        .ok ([], ⟨.punctuation, ")", "1"⟩ :: rest) := by
    rw [readParameters, if_pos (by decide)]
  simp only [oneFunctionTokens, List.tail_cons, readSignature, Token.expectToken]
  rw [if_pos (by decide)]
  simp only [bind, Except.bind, hparameters]
  rw [if_pos (by decide)]
  simp only [readReturnType]
  rw [if_neg (by decide), if_neg hname]
  rfl

/-- The function is declared. -/
theorem discoverDeclarations_oneFunction {name : String} (hname : name ≠ "main") :
    discoverDeclarations (oneFunctionTokens name) { declarationEnds := [6] } =
      .ok (oneFunctionSymbols name) := by
  have hread : (DiscoveredRecords.symbols { declarationEnds := [6] }).readFunction
      (oneFunctionTokens name).tail = .ok (oneFunctionSymbols name) := by
    have hsignature := readSignature_oneFunction hname
    simp only [oneFunctionTokens, List.tail_cons] at hsignature ⊢
    simp only [DeclaredSymbols.readFunction, hsignature, bind, Except.bind, requireMain,
      if_neg hname]
    rfl
  exact (DeclaredSymbols.declareFrom_function (by decide) (by decide) (by decide) hread rfl).trans
    (DeclaredSymbols.declareFrom_end rfl)

/-- The program is accepted whatever the name of the function is. -/
def oneFunction (name : String) (hmain : name ≠ "main") (hbrace : name ≠ "\x7b" ∧ name ≠ "\x7d") :
    Compilation where
  tokens := oneFunctionTokens name
  limit := 0
  found := { declarationEnds := [6] }
  symbols := oneFunctionSymbols name
  functions := [⟨name, [], 5⟩]
  source := by
    refine @sourceTokens_append ((oneFunctionTokens name).take 6) ⟨.endOfFile, "", "1"⟩ ?_
      (noBraceName_of_text (by decide))
    simp only [oneFunctionTokens, List.take, List.forall_mem_cons]
    exact ⟨⟨noBraceName_of_text (by decide), by decide⟩, ⟨noBraceName_of_text hbrace, by decide⟩,
      ⟨fun _ => rfl, by decide⟩, ⟨fun _ => rfl, by decide⟩, ⟨fun _ => rfl, by decide⟩,
      ⟨fun _ => rfl, by decide⟩, by nofun⟩
  discovers := discoverRecordNames_oneFunction name
  uniqueRecords := rfl
  declares := discoverDeclarations_oneFunction hmain
  uniqueSymbols := by
    refine (requireUniqueSymbols_buildSymbolLookup _ _ _).mpr fun i j hi hj _ => ?_
    exact (Nat.lt_one_iff.mp hi).trans (Nat.lt_one_iff.mp hj).symm
  main := nofun
  compiles := .function (by decide) (by decide) (by decide) (readSignature_oneFunction hmain _ _)
    (by decide) (by decide) .nil (.done rfl)
  reserved h := absurd h (lt_irrefl 0)

/-- The name is no brace. -/
theorem braceFree_oneFunction {name : String} (hmain : name ≠ "main")
    (hbrace : name ≠ "\x7b" ∧ name ≠ "\x7d") :
    (oneFunction name hmain hbrace).symbols.BraceFree where
  names hmem := hbrace.1 (String.toList_inj.mp (List.mem_singleton.mp hmem)).symm
  parameterNames := by nofun
  closing := by
    rintro ⟨index, -, hkind⟩
    have hmem : 2 ∈ [1] := List.mem_of_getElem? hkind
    exact absurd hmem (by decide)

/-- A function may be named like one of the runtime. -/
theorem functionSymbols_nodup_iff_oneFunction :
    (oneFunction "f" (by decide) (by decide)).functionSymbols.Nodup ∧
      ¬ (oneFunction "minyar_print_text" (by decide) (by decide)).functionSymbols.Nodup := by
  rw [Compilation.functionSymbols_nodup_iff _ (braceFree_oneFunction _ _),
    Compilation.functionSymbols_nodup_iff _ (braceFree_oneFunction _ _)]
  simp only [runtimeSymbols, runtimeDeclarations, List.map, declaredFunction, oneFunction,
    List.forall_mem_singleton]
  repeat rw [String.toList_ofList]
  decide +kernel

/-! ## A program with a record and a statement -/

/-- A record, a function with an inner block, and a statement. -/
def pairSource : Text :=
  ("record Pair \x7b left: Integer \x7d\nfunction left(p: Pair): Integer \x7b\n" ++
    "if true \x7b print(1) \x7d\nreturn p.left \x7d\nprint(2)").toList

/-- Its tokens. -/
def pairTokens : List Token :=
  [⟨.name, "record", "1, column 1"⟩, ⟨.name, "Pair", "1, column 8"⟩,
    ⟨.punctuation, "\x7b", "1, column 13"⟩, ⟨.name, "left", "1, column 15"⟩,
    ⟨.punctuation, ":", "1, column 19"⟩, ⟨.name, "Integer", "1, column 21"⟩,
    ⟨.punctuation, "\x7d", "1, column 29"⟩, ⟨.terminator, "end of line", "1, column 30"⟩,
    ⟨.name, "function", "2, column 1"⟩, ⟨.name, "left", "2, column 10"⟩,
    ⟨.punctuation, "(", "2, column 14"⟩, ⟨.name, "p", "2, column 15"⟩,
    ⟨.punctuation, ":", "2, column 16"⟩, ⟨.name, "Pair", "2, column 18"⟩,
    ⟨.punctuation, ")", "2, column 22"⟩, ⟨.punctuation, ":", "2, column 23"⟩,
    ⟨.name, "Integer", "2, column 25"⟩, ⟨.punctuation, "\x7b", "2, column 33"⟩,
    ⟨.name, "if", "3, column 1"⟩, ⟨.name, "true", "3, column 4"⟩,
    ⟨.punctuation, "\x7b", "3, column 9"⟩, ⟨.name, "print", "3, column 11"⟩,
    ⟨.punctuation, "(", "3, column 16"⟩, ⟨.integer, "1", "3, column 17"⟩,
    ⟨.punctuation, ")", "3, column 18"⟩, ⟨.punctuation, "\x7d", "3, column 20"⟩,
    ⟨.terminator, "end of line", "3, column 21"⟩, ⟨.name, "return", "4, column 1"⟩,
    ⟨.name, "p", "4, column 8"⟩, ⟨.punctuation, ".", "4, column 9"⟩,
    ⟨.name, "left", "4, column 10"⟩, ⟨.punctuation, "\x7d", "4, column 15"⟩,
    ⟨.terminator, "end of line", "4, column 16"⟩, ⟨.name, "print", "5, column 1"⟩,
    ⟨.punctuation, "(", "5, column 6"⟩, ⟨.integer, "2", "5, column 7"⟩,
    ⟨.punctuation, ")", "5, column 8"⟩, ⟨.endOfFile, "", "5, column 9"⟩]

/-- The lexer yields them. -/
theorem tokenize_pairSource : tokenize pairSource [] = .ok pairTokens := by decide +kernel

/-- What the first pass finds. -/
def pairFound : DiscoveredRecords where
  names := ["Pair".toList]
  kinds := [2]
  locations := ["1, column 8".toList]
  returnTypes := [1000]
  parameterCounts := [0]
  declarationEnds := [7, 32]
  topLevelStatements := true

/-- What the second pass makes of the record. -/
def pairRecord : DeclaredSymbols where
  names := ["Pair".toList]
  kinds := [2]
  locations := ["1, column 8".toList]
  returnTypes := [1000]
  parameterCounts := [1]
  parameterNames := ["left".toList]
  parameterTypes := [1]
  parameterStarts := [0]

/-- The head of the function. -/
def pairHeader : FunctionHeader := ⟨"left", [("p", 1000)], 1⟩

/-- The symbols. -/
def pairSymbols : DeclaredSymbols := pairRecord.declareFunction pairHeader "2, column 10".toList

/-- The first pass. -/
theorem discoverRecordNames_pair : discoverRecordNames pairTokens = some pairFound := by
  decide +kernel

/-- What `loadModule` found is what the first pass finds. -/
theorem discoverScanned_eq_pair :
    discoverScanned pairTokens [0, 8, -1] [7, 32] = discoverRecordNames pairTokens :=
  discoverScanned_eq (by decide +kernel)

/-- The second pass. -/
theorem discoverDeclarations_pair : discoverDeclarations pairTokens pairFound = .ok pairSymbols := by
  have hrecord : pairFound.symbols.readRecord (buildSymbolLookup pairFound.names pairFound.kinds)
      (pairTokens.drop 1) = .ok (pairRecord, pairTokens.drop 7) := by decide +kernel
  have hfunction : pairRecord.readFunction (pairTokens.drop 9) = .ok pairSymbols := by
    decide +kernel
  refine (DeclaredSymbols.declareFrom_record (by decide) (by decide) hrecord).trans ?_
  refine (DeclaredSymbols.declareFrom_function (by decide) (by decide) (by decide) hfunction
    rfl).trans ?_
  exact (DeclaredSymbols.declareFrom_statement (by decide) (by decide) (by decide)).trans
    (DeclaredSymbols.declareFrom_end rfl)

/-- The body of the function. -/
theorem readsStatements_pair {fieldName typeName : String → Prop} :
    ReadsStatements fieldName typeName ((pairTokens.drop 18).take 13) := by
  have htokens {tokens : List Token}
      (h : ∀ token ∈ tokens, token.kind ≠ .endOfFile ∧ punctuationBrace token = none) :
      ReadsExpression fieldName tokens := by
    induction tokens with
    | nil => exact .nil
    | cons token tokens ih =>
      obtain ⟨⟨hend, hbrace⟩, hrest⟩ := List.forall_mem_cons.mp h
      exact .token hend hbrace (ih hrest)
  have hinner : ReadsStatements fieldName typeName ((pairTokens.drop 21).take 4 ++ []) :=
    .expression (htokens (by decide)) .nil
  have hbehind : ReadsStatements fieldName typeName ((pairTokens.drop 26).take 5 ++ []) :=
    .expression (htokens (by decide)) .nil
  have hblock : ReadsStatements fieldName typeName ((pairTokens.drop 20).take 11) :=
    .block (by decide) (by decide) hinner hbehind
  have hcondition : ReadsExpression fieldName ((pairTokens.drop 18).take 2) := htokens (by decide)
  exact .expression hcondition hblock

/-- The third pass. -/
theorem compilesDeclarations_pair :
    CompilesDeclarations pairSymbols (Token.skipTerminators pairTokens) [pairHeader] := by
  have hhead : readSignature (typeReader pairSymbols.names pairSymbols.kinds)
      (typeReader pairSymbols.names pairSymbols.kinds) (pairTokens.drop 9) =
        .ok (pairHeader, pairTokens.drop 17) := by decide +kernel
  have hrecord : skipDeclaration pairTokens = some (pairTokens.drop 7) := rfl
  refine .record (by decide) (by decide) hrecord ?_
  refine @CompilesDeclarations.function _ _ _ _ _ ((pairTokens.drop 18).take 13) _ _ _ (by decide)
    (by decide) (by decide) hhead rfl rfl readsStatements_pair ?_
  exact .statement (by decide) (by decide) (by decide) (.done rfl)

/-- The compiler accepts the program. -/
def pairProgram : Compilation where
  tokens := pairTokens
  limit := 8
  found := pairFound
  symbols := pairSymbols
  functions := [pairHeader]
  source := sourceTokens_of_tokenize tokenize_pairSource
  discovers := discoverRecordNames_pair
  uniqueRecords := by decide +kernel
  declares := discoverDeclarations_pair
  uniqueSymbols := by decide +kernel
  main _ := by decide +kernel
  compiles := compilesDeclarations_pair
  reserved _ := by decide +kernel

/-- Its function is the symbol behind the record. -/
theorem symbols_eq_pair :
    pairProgram.symbols.names = ["Pair".toList] ++ ["left".toList] ∧
      pairProgram.symbols.kinds = [2] ++ [1] :=
  pairProgram.symbols_eq ⟨by decide, by decide, by
    rintro ⟨index, hname, -⟩
    exact absurd (List.mem_of_getElem? hname) (by decide)⟩

end Minyar

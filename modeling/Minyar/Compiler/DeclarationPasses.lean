import Mathlib.Data.List.TakeWhile
import Minyar.Compiler.Declarations
import Minyar.Compiler.Tokenize

/-!
# The passes over the declarations

Four loops walk over the top level of a program: `loadModule`, which leaves the ends of the
declarations, `discoverRecordNames`, `discoverDeclarations` and `compileFunctions`.  They find the end
of a record in two ways and the end of a function in three.  In the tokens of a source file they
agree as soon as no declared name is a brace, so that `compileFunctions` defines exactly the functions
that are symbols.
-/

namespace Minyar

/-! ## The tokens of a source file -/

/-- A token that is expected has the text. -/
theorem Token.text_of_is {token : Token} {expected : String} (h : token.is expected = true) :
    token.text = expected := by
  unfold Token.is at h
  rw [Bool.and_eq_true, decide_eq_true_eq] at h
  exact h.2

/-- What the lexer promises. -/
structure SourceTokens (tokens : List Token) : Prop where
  /-- A brace that is no literal is punctuation. -/
  brace : ∀ token ∈ tokens, token.is "\x7b" = true ∨ token.is "\x7d" = true →
    token.kind = .punctuation
  /-- Nothing follows the end of the file. -/
  endOfFile : ∀ before token after, tokens = before ++ token :: after →
    token.kind = .endOfFile → after = []

namespace SourceTokens

variable {tokens tokens' : List Token}

/-- The tokens from a position on. -/
theorem suffix (h : SourceTokens tokens) (hsuffix : tokens' <:+ tokens) : SourceTokens tokens' where
  brace token htoken := h.brace token (hsuffix.subset htoken)
  endOfFile before token after heq := by
    obtain ⟨front, rfl⟩ := hsuffix
    exact h.endOfFile (front ++ before) token after (by rw [heq, List.append_assoc])

/-- A token with another one behind it. -/
theorem kind_ne (h : SourceTokens tokens) {before after : List Token} {token : Token}
    (htokens : tokens = before ++ token :: after) (hafter : after ≠ []) :
    token.kind ≠ .endOfFile := fun hend => hafter (h.endOfFile before token after htokens hend)

/-- What is expected as an opening brace is one. -/
theorem opening (h : SourceTokens tokens) {token : Token} (htoken : token ∈ tokens)
    (his : token.is "\x7b" = true) : punctuationBrace token = some .opening := by
  rw [punctuationBrace, if_pos (h.brace token htoken (.inl his)), if_pos (Token.text_of_is his)]

/-- What is expected as a closing brace is one. -/
theorem closing (h : SourceTokens tokens) {token : Token} (htoken : token ∈ tokens)
    (his : token.is "\x7d" = true) : punctuationBrace token = some .closing := by
  rw [punctuationBrace, if_pos (h.brace token htoken (.inr his)), Token.text_of_is his]
  rfl

end SourceTokens

/-! ## Reading -/

/-- Some tokens are read that all have a property. -/
def Reads (P : Token → Prop) (tokens rest : List Token) : Prop :=
  ∃ front, tokens = front ++ rest ∧ ∀ token ∈ front, P token

namespace Reads

variable {P Q : Token → Prop} {tokens rest rest' : List Token}

/-- Nothing is read. -/
theorem refl (P : Token → Prop) (tokens : List Token) : Reads P tokens tokens := ⟨[], rfl, nofun⟩

/-- One more token. -/
theorem cons {token : Token} (htoken : P token) (h : Reads P tokens rest) :
    Reads P (token :: tokens) rest := by
  obtain ⟨front, rfl, hfront⟩ := h
  exact ⟨token :: front, rfl, List.forall_mem_cons.mpr ⟨htoken, hfront⟩⟩

/-- One reading behind another. -/
theorem trans (h : Reads P tokens rest) (h' : Reads P rest rest') : Reads P tokens rest' := by
  obtain ⟨front, rfl, hfront⟩ := h
  obtain ⟨front', rfl, hfront'⟩ := h'
  exact ⟨front ++ front', (List.append_assoc _ _ _).symm,
    List.forall_mem_append.mpr ⟨hfront, hfront'⟩⟩

/-- A weaker property. -/
theorem imp (h : Reads P tokens rest) (himp : ∀ token, P token → Q token) : Reads Q tokens rest := by
  obtain ⟨front, rfl, hfront⟩ := h
  exact ⟨front, rfl, fun token htoken => himp token (hfront token htoken)⟩

/-- Of a source file the tokens in front of another one are not its end. -/
theorem not_end (hsource : SourceTokens tokens) (hrest : rest ≠ []) (h : Reads P tokens rest) :
    Reads (fun token => token.kind ≠ .endOfFile ∧ P token) tokens rest := by
  obtain ⟨front, rfl, hfront⟩ := h
  refine ⟨front, rfl, fun token htoken => ⟨?_, hfront token htoken⟩⟩
  obtain ⟨before, after, rfl⟩ := List.append_of_mem htoken
  exact hsource.kind_ne (by rw [List.append_assoc, List.cons_append])
    (List.append_ne_nil_of_right_ne_nil after hrest)

/-- Terminators are read. -/
theorem skipTerminators (hP : ∀ token, token.kind = .terminator → P token) (tokens : List Token) :
    Reads P tokens (Token.skipTerminators tokens) := by
  refine ⟨tokens.takeWhile fun token => token.kind = .terminator, ?_, fun token htoken => ?_⟩
  · exact (List.takeWhile_append_dropWhile).symm
  · exact hP token (by simpa using List.mem_takeWhile_imp htoken)

/-- A comma is read. -/
theorem skipComma (hP : ∀ token : Token, token.is "," = true → P token) (tokens : List Token) :
    Reads P tokens (Minyar.skipComma tokens) := by
  cases tokens with
  | nil => exact refl P []
  | cons token rest =>
    rw [Minyar.skipComma]
    split_ifs with hcomma
    · exact cons (hP token hcomma) (refl P rest)
    · exact refl P _

end Reads

/-- A closing brace is expected as one. -/
theorem is_of_punctuationBrace_closing {token : Token}
    (h : punctuationBrace token = some .closing) : token.is "\x7d" = true := by
  have htext := text_of_punctuationBrace_closing h
  unfold punctuationBrace at h
  split_ifs at h with hkind
  all_goals simp [Token.is, hkind, htext]

/-- A token with another text is no brace. -/
theorem punctuationBrace_of_text {token : Token} (hopen : token.text ≠ "\x7b")
    (hclose : token.text ≠ "\x7d") : punctuationBrace token = none := by
  unfold punctuationBrace
  rw [if_neg hopen, if_neg hclose, ite_self]

/-- A token that is expected is no brace, unless a brace is expected. -/
theorem punctuationBrace_of_is {token : Token} {expected : String} (h : token.is expected = true)
    (hexpected : expected ≠ "\x7b" ∧ expected ≠ "\x7d") : punctuationBrace token = none := by
  obtain rfl := Token.text_of_is h
  exact punctuationBrace_of_text hexpected.1 hexpected.2

/-- The scan for the first opening brace passes over what is read before it. -/
theorem skipDeclaration_of_reads {tokens rest : List Token}
    (h : Reads (fun token => token.kind ≠ .endOfFile ∧ punctuationBrace token ≠ some .opening)
      tokens rest) : skipDeclaration tokens = skipDeclaration rest := by
  obtain ⟨front, rfl, hfront⟩ := h
  induction front with
  | nil => rfl
  | cons token front ih =>
    obtain ⟨⟨hend, hopen⟩, hfront⟩ := List.forall_mem_cons.mp hfront
    rw [List.cons_append, skipDeclaration, if_neg hend, if_neg hopen]
    exact ih hfront

/-- The scan for the closing brace passes over what is read without braces. -/
theorem skipBraces_of_reads {tokens rest : List Token}
    (h : Reads (fun token => token.kind ≠ .endOfFile ∧ punctuationBrace token = none) tokens rest)
    (depth : ℕ) : skipBraces (depth + 1) tokens = skipBraces (depth + 1) rest := by
  obtain ⟨front, rfl, hfront⟩ := h
  induction front with
  | nil => rfl
  | cons token front ih =>
    obtain ⟨⟨hend, hnone⟩, hfront⟩ := List.forall_mem_cons.mp hfront
    rw [List.cons_append, skipBraces, if_neg hend, hnone]
    exact ih hfront

/-- The closing brace ends the scan. -/
theorem skipBraces_closing {last : Token} (hlast : punctuationBrace last = some .closing)
    (rest : List Token) : skipBraces 1 (last :: rest) = some rest := by
  rw [skipBraces, if_neg (kind_ne_of_punctuationBrace hlast), hlast]
  simp only [skipBraces]

/-! ## Types, parameters and fields -/

/-- A record of a table of symbols. -/
def IsRecordName (names : List Text) (kinds : List ℕ) (name : Text) : Prop :=
  ∃ index : ℕ, names[index]? = some name ∧ kinds[index]? = some 2

/-- No record is named by a brace. -/
def NoBraceRecord (names : List Text) (kinds : List ℕ) : Prop :=
  ¬ IsRecordName names kinds "\x7b".toList ∧ ¬ IsRecordName names kinds "\x7d".toList

/-- A symbol of kind 2 that is found is a record. -/
theorem isRecordName_of_findSymbol {names : List Text} {kinds : List ℕ} {name : Text}
    (h : 0 ≤ findSymbol names kinds name 2) : IsRecordName names kinds name := by
  obtain ⟨index, -, -, hname, hkind⟩ := findSymbol_spec name 2 h
  refine ⟨index, hname, ?_⟩
  rw [List.getD_eq_getElem?_getD] at hkind
  cases hget : kinds[index]? with
  | none => rw [hget] at hkind; exact absurd hkind (by decide)
  | some kind => rw [hget] at hkind; exact congrArg some hkind

/-- A type has no braces. -/
theorem reads_takeType {names : List Text} {kinds : List ℕ} (hnames : NoBraceRecord names kinds)
    {tokens rest : List Token} {type : ℕ} (h : takeType names kinds tokens = .ok (type, rest)) :
    Reads (fun token => punctuationBrace token = none) tokens rest := by
  fun_induction takeType names kinds tokens generalizing type rest with
  | case1 => cases h
  | case2 => cases h
  | case3 name hname opening tokens hopen ih =>
    have hlist : takeType names kinds (name :: opening :: tokens) = .ok (type, rest) := by
      rw [takeType, if_pos hname, if_pos hopen]
      exact h
    obtain ⟨element, closing, -, hclose, -, helement, -⟩ := takeType_list hname hlist
    refine .cons (punctuationBrace_of_text (by rw [hname]; decide) (by rw [hname]; decide)) ?_
    refine .cons (punctuationBrace_of_is hopen (by decide)) ((ih helement).trans ?_)
    exact .cons (punctuationBrace_of_is hclose (by decide)) (.refl _ rest)
  | case4 => cases h
  | case5 => cases h
  | case6 name rest' hname hsimple record =>
    rename_i hfound
    cases h
    have hrecord := isRecordName_of_findSymbol (Int.not_lt.mp hfound)
    refine .cons (punctuationBrace_of_text ?_ ?_) (.refl _ rest')
    · exact fun htext => hnames.1 (htext ▸ hrecord)
    · exact fun htext => hnames.2 (htext ▸ hrecord)
  | case7 name rest' hname hsimple =>
    cases h
    refine .cons (punctuationBrace_of_text ?_ ?_) (.refl _ rest')
    · exact fun htext => hsimple (by rw [htext]; decide)
    · exact fun htext => hsimple (by rw [htext]; decide)

/-- A reader passes over no brace. -/
def TypeReader.NoBrace (reader : TypeReader) : Prop := ∀ ⦃tokens type rest⦄,
  reader.read tokens = .ok (type, rest) →
    Reads (fun token => punctuationBrace token = none) tokens rest

/-- `takeType` passes over no brace. -/
theorem typeReader_noBrace {names : List Text} {kinds : List ℕ}
    (hnames : NoBraceRecord names kinds) : (typeReader names kinds).NoBrace :=
  fun _ _ _ h => reads_takeType hnames h

/-- Nor does `takeValueType`. -/
theorem valueTypeReader_noBrace {names : List Text} {kinds : List ℕ}
    (hnames : NoBraceRecord names kinds) : (valueTypeReader names kinds).NoBrace :=
  fun _ _ _ h => reads_takeType hnames (takeType_of_takeValueType h)

section

variable {reader : TypeReader} {tokens rest : List Token}

/-- A name with its type: only the name may be a brace. -/
theorem reads_readTyped (hreader : reader.NoBrace) {name : Token} {type : ℕ}
    (h : readTyped reader tokens = .ok ((name, type), rest)) {P : Token → Prop} (hname : P name)
    (hP : ∀ token, punctuationBrace token = none → P token) : Reads P tokens rest := by
  obtain ⟨colon, types, rfl, hcolon, hread⟩ := readTyped_eq_ok h
  exact .cons hname (.cons (hP colon (punctuationBrace_of_is hcolon (by decide))) ((hreader hread).imp hP))

/-- The name that `readTyped` returns is the first token. -/
theorem head_of_readTyped {token name : Token} {type : ℕ}
    (h : readTyped reader (token :: tokens) = .ok ((name, type), rest)) : token = name := by
  obtain ⟨colon, types, htokens, -, -⟩ := readTyped_eq_ok h
  exact (List.cons.inj htokens).1

/-- The parameters up to the parenthesis: only the names may be braces. -/
theorem reads_readParameters (hreader : reader.NoBrace) {parameters parameters' : List (String × ℕ)}
    (h : readParameters reader parameters tokens = .ok (parameters', rest)) :
    parameters <+: parameters' ∧ Reads (fun token => punctuationBrace token = none ∨
      token.text ∈ parameters'.map Prod.fst) tokens rest := by
  fun_induction readParameters reader parameters tokens with
  | case1 => cases h
  | case2 => cases h; exact ⟨List.prefix_rfl, .refl _ _⟩
  | case3 => cases h
  | case4 parameters token tokens hclose name type after hread ih =>
    obtain ⟨hle, hrest⟩ := ih h
    obtain rfl := head_of_readTyped hread
    have hname : token.text ∈ parameters'.map Prod.fst := List.mem_map.mpr
      ⟨(token.text, type), hle.subset (List.mem_append_right _ List.mem_cons_self), rfl⟩
    refine ⟨(List.prefix_append _ _).trans hle, ?_⟩
    refine Reads.trans (reads_readTyped hreader hread (.inr hname) fun _ => .inl) ?_
    exact (Reads.skipComma (fun _ hcomma => .inl (punctuationBrace_of_is hcomma (by decide))) after).trans hrest

/-- The fields up to the closing brace: only the names may be braces, and none of them closes. -/
theorem reads_readFields (hreader : reader.NoBrace) {record : Text}
    {fields fields' : List (String × ℕ)}
    (h : readFields reader record fields tokens = .ok (fields', rest)) :
    fields <+: fields' ∧ ∃ last, last.is "\x7d" = true ∧ Reads (fun token =>
      punctuationBrace token = none ∨
        token.is "\x7d" = false ∧ token.text ∈ fields'.map Prod.fst) tokens (last :: rest) := by
  fun_induction readFields reader record fields tokens with
  | case1 => cases h
  | case2 fields last tokens hclose =>
    cases h
    exact ⟨List.prefix_rfl, last, hclose, .refl _ _⟩
  | case3 => cases h
  | case4 => cases h
  | case5 fields token tokens hclose _ name type after hread ih =>
    obtain ⟨hle, last, hlast, hrest⟩ := ih h
    obtain rfl := head_of_readTyped hread
    have hname : token.text ∈ fields'.map Prod.fst := List.mem_map.mpr
      ⟨(token.text, type), hle.subset (List.mem_append_right _ List.mem_cons_self), rfl⟩
    refine ⟨(List.prefix_append _ _).trans hle, last, hlast, ?_⟩
    refine Reads.trans (reads_readTyped hreader hread
      (.inr ⟨eq_false_of_ne_true hclose, hname⟩) fun _ => .inl) ?_
    refine (Reads.skipComma (fun _ hcomma => .inl (punctuationBrace_of_is hcomma (by decide))) after).trans ?_
    refine (Reads.skipTerminators (fun token hkind => .inl ?_) _).trans hrest
    rw [punctuationBrace, if_neg (by rw [hkind]; decide)]

/-- Two readers of types end the parameters at the same parenthesis. -/
theorem rest_of_readParameters {reader' : TypeReader} {rest' : List Token}
    {parameters₁ parameters₂ parameters₁' parameters₂' : List (String × ℕ)}
    (h : readParameters reader parameters₁ tokens = .ok (parameters₁', rest))
    (h' : readParameters reader' parameters₂ tokens = .ok (parameters₂', rest')) : rest = rest' := by
  fun_induction readParameters reader parameters₁ tokens generalizing parameters₂ with
  | case1 => cases h
  | case2 parameters token tokens hclose =>
    cases h
    rw [readParameters, if_pos hclose] at h'
    cases h'
    rfl
  | case3 => cases h
  | case4 parameters token tokens hclose name type after hread ih =>
    rw [readParameters, if_neg hclose] at h'
    split at h'
    · cases h'
    · next name' type' after' hread' =>
      obtain ⟨colon, types, htokens, -, htypes⟩ := readTyped_eq_ok hread
      obtain ⟨colon', types', htokens', -, htypes'⟩ := readTyped_eq_ok hread'
      rw [htokens] at htokens'
      obtain ⟨-, -, rfl⟩ := htokens'
      obtain rfl := TypeReader.rest_eq htypes htypes'
      exact ih h h'

end

/-! ## Heads of functions -/

/-- The parts of the head of a function. -/
theorem readSignature_eq_ok {parameterType returnType : TypeReader} {name : Token}
    {tokens rest : List Token} {h : FunctionHeader}
    (hread : readSignature parameterType returnType (name :: tokens) = .ok (h, rest)) :
    h.name = name.text ∧ ∃ opening inner closing result,
      tokens = opening :: inner ∧ opening.is "(" = true ∧
      readParameters parameterType [] inner = .ok (h.parameters, closing :: result) ∧
      closing.is ")" = true ∧
      readReturnType returnType name.text result = .ok (h.returnType, rest) := by
  obtain ⟨inner, hopening, hinner⟩ := bind_eq_ok.mp hread
  obtain ⟨⟨parameters, behind⟩, hparameters, hbehind⟩ := bind_eq_ok.mp hinner
  obtain ⟨result, hclosing, hresult⟩ := bind_eq_ok.mp hbehind
  obtain ⟨⟨type, rest'⟩, htype, hfinal⟩ := bind_eq_ok.mp hresult
  cases hfinal
  obtain ⟨opening, rfl, hopen⟩ := expectToken_eq_ok hopening
  obtain ⟨closing, rfl, hclose⟩ := expectToken_eq_ok hclosing
  exact ⟨rfl, opening, inner, closing, result, rfl, hopen, hparameters, hclose, htype⟩

/-- The type that is returned has no braces. -/
theorem reads_readReturnType {reader : TypeReader} (hreader : reader.NoBrace) {name : String}
    {tokens rest : List Token} {type : ℕ}
    (h : readReturnType reader name tokens = .ok (type, rest)) :
    Reads (fun token => punctuationBrace token = none) tokens rest := by
  cases tokens with
  | nil => cases h
  | cons token tokens =>
    rw [readReturnType] at h
    split_ifs at h with hcolon
    · exact .cons (punctuationBrace_of_is hcolon (by decide)) (hreader h)
    all_goals
      cases h
      exact .refl _ _

/-- The head of a function behind its name: only the parameters may be braces. -/
theorem reads_readSignature {parameterType returnType : TypeReader}
    (hparameter : parameterType.NoBrace) (hreturn : returnType.NoBrace) {name : Token}
    {tokens rest : List Token} {h : FunctionHeader}
    (hread : readSignature parameterType returnType (name :: tokens) = .ok (h, rest)) :
    Reads (fun token => punctuationBrace token = none ∨ token.text ∈ h.parameters.map Prod.fst)
      tokens rest := by
  obtain ⟨-, opening, inner, closing, result, rfl, hopen, hparameters, hclose, htype⟩ :=
    readSignature_eq_ok hread
  obtain ⟨-, hinner⟩ := reads_readParameters hparameter hparameters
  refine .cons (.inl (punctuationBrace_of_is hopen (by decide))) (hinner.trans ?_)
  refine .cons (.inl (punctuationBrace_of_is hclose (by decide))) ?_
  exact (reads_readReturnType hreturn htype).imp fun _ => .inl

/-- Two readings of a head end at the same token. -/
theorem rest_of_readSignature {parameterType returnType parameterType' returnType' : TypeReader}
    {name : Token} {tokens rest rest' : List Token} {h h' : FunctionHeader}
    (hread : readSignature parameterType returnType (name :: tokens) = .ok (h, rest))
    (hread' : readSignature parameterType' returnType' (name :: tokens) = .ok (h', rest')) :
    rest = rest' := by
  obtain ⟨-, opening, inner, closing, result, rfl, -, hparameters, -, htype⟩ :=
    readSignature_eq_ok hread
  obtain ⟨-, opening', inner', closing', result', htokens, -, hparameters', -, htype'⟩ :=
    readSignature_eq_ok hread'
  obtain ⟨-, rfl⟩ := List.cons.inj htokens
  obtain ⟨-, rfl⟩ := List.cons.inj (rest_of_readParameters hparameters hparameters')
  cases result with
  | nil => cases htype
  | cons token result =>
    rw [readReturnType] at htype htype'
    split_ifs at htype htype' with hcolon
    · exact TypeReader.rest_eq htype htype'
    all_goals
      obtain ⟨-, rfl⟩ := Prod.mk.inj (Except.ok.inj htype)
      exact (Prod.mk.inj (Except.ok.inj htype')).2

/-! ## Bodies of functions -/

/-- The statements of a block.  Besides what a `let` and an expression may contain there are the
braces of inner blocks. -/
inductive ReadsStatements (fieldName typeName : String → Prop) : List Token → Prop
  | nil : ReadsStatements fieldName typeName []
  /-- An expression, or a part of a statement without a block. -/
  | expression {tokens rest : List Token} (htokens : ReadsExpression fieldName tokens)
      (hrest : ReadsStatements fieldName typeName rest) :
      ReadsStatements fieldName typeName (tokens ++ rest)
  /-- A `let` up to its equals sign. -/
  | header {tokens rest : List Token} (htokens : ReadsHeader typeName tokens)
      (hrest : ReadsStatements fieldName typeName rest) :
      ReadsStatements fieldName typeName (tokens ++ rest)
  /-- A block. -/
  | block {first last : Token} {body rest : List Token}
      (hfirst : punctuationBrace first = some .opening)
      (hlast : punctuationBrace last = some .closing)
      (hbody : ReadsStatements fieldName typeName body)
      (hrest : ReadsStatements fieldName typeName rest) :
      ReadsStatements fieldName typeName (first :: (body ++ last :: rest))

/-- The scan for the closing brace passes over statements, when no field is named `\x7b` and no
type by a brace. -/
theorem skipBraces_readsStatements {fieldName typeName : String → Prop} {tokens : List Token}
    (hreads : ReadsStatements fieldName typeName tokens) (hfield : ¬ fieldName "\x7b")
    (htype : ¬ typeName "\x7b" ∧ ¬ typeName "\x7d") (depth : ℕ) (rest : List Token) :
    skipBraces (depth + 1) (tokens ++ rest) = skipBraces (depth + 1) rest := by
  induction hreads generalizing depth rest with
  | nil => rfl
  | expression htokens _ ih =>
    rw [List.append_assoc, skipBraces_readsExpression htokens hfield, ih]
  | @header tokens _ htokens _ ih =>
    rw [List.append_assoc, skipBraces_of_reads ⟨tokens, rfl, fun token htoken => ?_⟩, ih]
    obtain ⟨hend, hbrace⟩ := htokens token htoken
    refine ⟨hend, hbrace.elim id fun hname => punctuationBrace_of_text ?_ ?_⟩
    · exact fun htext => htype.1 (htext ▸ hname)
    · exact fun htext => htype.2 (htext ▸ hname)
  | block hfirst hlast _ _ ihbody ihrest =>
    rw [List.cons_append, skipBraces, if_neg (kind_ne_of_punctuationBrace hfirst), hfirst,
      List.append_assoc, List.cons_append]
    simp only
    rw [ihbody, skipBraces, if_neg (kind_ne_of_punctuationBrace hlast), hlast]
    exact ihrest depth rest

/-! ## What the symbols keep -/

namespace DeclaredSymbols

/-- Later symbols of the same program. -/
structure Extends (s s' : DeclaredSymbols) : Prop where
  /-- No name is lost. -/
  names : s.names <+: s'.names
  /-- No kind is lost. -/
  kinds : s.kinds <+: s'.kinds
  /-- No field and no parameter is lost. -/
  parameterNames : s.parameterNames <+: s'.parameterNames

variable {s s' s'' : DeclaredSymbols}

/-- Symbols extend themselves. -/
theorem Extends.refl (s : DeclaredSymbols) : s.Extends s :=
  ⟨List.prefix_rfl, List.prefix_rfl, List.prefix_rfl⟩

/-- Symbols extend earlier ones. -/
theorem Extends.trans (h : s.Extends s') (h' : s'.Extends s'') : s.Extends s'' :=
  ⟨h.names.trans h'.names, h.kinds.trans h'.kinds, h.parameterNames.trans h'.parameterNames⟩

/-- The fields of a record are added. -/
theorem extends_declareRecord (s : DeclaredSymbols) (record : ℕ) (fields : List (String × ℕ)) :
    s.Extends (s.declareRecord record fields) :=
  ⟨List.prefix_rfl, List.prefix_rfl, List.prefix_append _ _⟩

/-- A function is added. -/
theorem extends_declareFunction (s : DeclaredSymbols) (h : FunctionHeader) (location : Text) :
    s.Extends (s.declareFunction h location) :=
  ⟨List.prefix_append _ _, List.prefix_append _ _, List.prefix_append _ _⟩

/-- What `readFunction` reads. -/
theorem readFunction_eq_ok {tokens : List Token} (h : s.readFunction tokens = .ok s') :
    ∃ name behind opening rest head, tokens = name :: behind ∧
      readSignature (valueTypeReader (s.names ++ [name.text.toList]) (s.kinds ++ [1]))
        (typeReader (s.names ++ [name.text.toList]) (s.kinds ++ [1])) tokens =
          .ok (head, opening :: rest) ∧
      opening.is "\x7b" = true ∧ s' = s.declareFunction head name.location.toList := by
  cases tokens with
  | nil => cases h
  | cons name behind =>
    obtain ⟨⟨head, rest₁⟩, hsignature, hmain⟩ := bind_eq_ok.mp h
    obtain ⟨-, -, hbody⟩ := bind_eq_ok.mp hmain
    obtain ⟨rest, hopening, hresult⟩ := bind_eq_ok.mp hbody
    obtain ⟨opening, rfl, hopen⟩ := expectToken_eq_ok hopening
    cases hresult
    exact ⟨name, behind, opening, rest, head, rfl, hsignature, hopen, rfl⟩

/-- The loop only adds symbols. -/
theorem extends_declareFrom {all tokens : List Token} {ends lookup : List ℕ} {declaration : ℕ}
    (h : s.declareFrom all ends lookup declaration tokens = .ok s') : s.Extends s' := by
  fun_induction declareFrom all ends lookup declaration s tokens with
  | case1 => cases h
  | case2 => cases h; exact .refl _
  | case3 => cases h
  | case4 declaration s token tokens _ _ s₁ after hrecord ih =>
    obtain ⟨_, _, _, fields, -, -, -, -, rfl⟩ := readRecord_eq_ok hrecord
    exact (s.extends_declareRecord _ fields).trans (ih h)
  | case5 => cases h
  | case6 => cases h
  | case7 declaration s token tokens _ _ _ s₁ hfunction position _ ih =>
    obtain ⟨_, _, _, _, head, -, -, -, rfl⟩ := readFunction_eq_ok hfunction
    exact (s.extends_declareFunction head _).trans (ih h)
  | case8 declaration s token tokens _ _ _ ih => exact ih h

/-- No declared name that the passes could take for a brace is one. -/
structure BraceFree (s : DeclaredSymbols) : Prop where
  /-- No record and no function is named by an opening brace. -/
  names : "\x7b".toList ∉ s.names
  /-- Nor is a field or a parameter. -/
  parameterNames : "\x7b".toList ∉ s.parameterNames
  /-- No record is named by a closing brace. -/
  closing : ¬ IsRecordName s.names s.kinds "\x7d".toList

/-- Records stay records. -/
theorem isRecordName_of_extends {names names' : List Text} {kinds kinds' : List ℕ} {name : Text}
    (hnames : names <+: names') (hkinds : kinds <+: kinds') (h : IsRecordName names kinds name) :
    IsRecordName names' kinds' name := by
  obtain ⟨index, hname, hkind⟩ := h
  obtain ⟨moreNames, rfl⟩ := hnames
  obtain ⟨moreKinds, rfl⟩ := hkinds
  refine ⟨index, ?_, ?_⟩
  · rw [List.getElem?_append_left (List.getElem?_eq_some_iff.mp hname).1, hname]
  · rw [List.getElem?_append_left (List.getElem?_eq_some_iff.mp hkind).1, hkind]

/-- The condition on braces held before. -/
theorem BraceFree.of_extends (h : s'.BraceFree) (hextends : s.Extends s') : s.BraceFree where
  names hmem := h.names (hextends.names.subset hmem)
  parameterNames hmem := h.parameterNames (hextends.parameterNames.subset hmem)
  closing hrecord := h.closing (isRecordName_of_extends hextends.names hextends.kinds hrecord)

/-- No record is named by a brace. -/
theorem BraceFree.noBraceRecord (h : s.BraceFree) : NoBraceRecord s.names s.kinds :=
  ⟨fun ⟨_, hname, _⟩ => h.names (List.mem_of_getElem? hname), h.closing⟩

/-- A symbol that is found is there, unless it has no name. -/
theorem mem_of_findIndexedSymbol {lookup : List ℕ} {names : List Text} {kinds : List ℕ} {name : Text}
    {kind : ℕ} (h : 0 ≤ findIndexedSymbol lookup names kinds name kind) (hname : name ≠ []) :
    name ∈ names := by
  unfold findIndexedSymbol findSortedSymbol at h
  simp only at h
  split_ifs at h with hlow hsymbol
  on_goal 2 => exact absurd h (by decide)
  on_goal 2 => exact absurd h (by decide)
  obtain ⟨-, hget⟩ := hsymbol
  rw [List.getD_eq_getElem?_getD] at hget
  cases hfound : names[lookup.getD (searchSymbol names kinds name kind
      (fun position => lookup.getD position 0) 0 lookup.length) 0]? with
  | none => rw [hfound] at hget; exact absurd hget.symm hname
  | some found => rw [hfound] at hget; exact hget ▸ List.mem_of_getElem? hfound

/-- The two ends of a record are the same. -/
theorem skipDeclaration_of_readRecord {lookup : List ℕ} {token : Token} {tokens after : List Token}
    (hsource : SourceTokens (token :: tokens)) (htoken : token.is "record" = true)
    (hread : s.readRecord lookup tokens = .ok (s', after)) (hfree : s'.BraceFree) :
    skipDeclaration (token :: tokens) = some after := by
  obtain ⟨name, opening, body, fields, rfl, hopen, hrecord, hfields, rfl⟩ := readRecord_eq_ok hread
  have hbefore := hfree.of_extends (s.extends_declareRecord _ fields)
  have hopening := hsource.opening (by simp) hopen
  have hname : punctuationBrace name ≠ some .opening := fun hbrace => by
    rw [text_of_punctuationBrace_opening hbrace] at hrecord
    exact hbefore.names (mem_of_findIndexedSymbol hrecord (by decide))
  have hhead : Reads (fun token => punctuationBrace token ≠ some .opening)
      (token :: name :: opening :: body) (opening :: body) :=
    .cons (by rw [punctuationBrace_of_is htoken (by decide)]; exact (Option.some_ne_none _).symm) (.cons hname (.refl _ _))
  rw [skipDeclaration_of_reads (hhead.not_end hsource (List.cons_ne_nil _ _)), skipDeclaration,
    if_neg (kind_ne_of_punctuationBrace hopening), if_pos hopening]
  obtain ⟨-, last, hlast, hreads⟩ :=
    reads_readFields (valueTypeReader_noBrace hbefore.noBraceRecord) hfields
  have hbody : Reads (fun token => punctuationBrace token = none) body (last :: after) := by
    refine (Reads.skipTerminators (fun token hkind => ?_) body).trans (hreads.imp fun token h => ?_)
    · rw [punctuationBrace, if_neg (by rw [hkind]; decide)]
    · rcases h with h | ⟨hclose, hfield⟩
      · exact h
      rcases hbrace : punctuationBrace token with _ | _ | _
      · rfl
      · rw [text_of_punctuationBrace_opening hbrace] at hfield
        obtain ⟨field, hmem, heq⟩ := List.mem_map.mp hfield
        exact absurd (List.mem_append_right _ (List.mem_map.mpr ⟨field, hmem, by rw [heq]⟩))
          hfree.parameterNames
      · rw [is_of_punctuationBrace_closing hbrace] at hclose
        cases hclose
  have hsuffix : body <:+ token :: name :: opening :: body := ⟨[token, name, opening], rfl⟩
  have hlastMem : last ∈ body := by
    obtain ⟨front, rfl, -⟩ := hbody
    simp
  have hclosing := (hsource.suffix hsuffix).closing hlastMem hlast
  rw [skipBraces_of_reads (hbody.not_end (hsource.suffix hsuffix) (List.cons_ne_nil _ _)) 0,
    skipBraces_closing hclosing]

/-- The three ends of a function are the same, and its name is the same in all passes. -/
theorem skipDeclaration_of_readFunction {fieldName typeName : String → Prop} {token : Token}
    {tokens body after : List Token} {first last : Token} {parameterType returnType : TypeReader}
    {h : FunctionHeader} (hsource : SourceTokens (token :: tokens))
    (htoken : token.is "function" = true) (hread : s.readFunction tokens = .ok s')
    (hfree : s'.BraceFree)
    (hhead : readSignature parameterType returnType tokens =
      .ok (h, first :: (body ++ last :: after)))
    (hlast : punctuationBrace last = some .closing) (hbody : ReadsStatements fieldName typeName body)
    (hfield : ¬ fieldName "\x7b") (htype : ¬ typeName "\x7b" ∧ ¬ typeName "\x7d") :
    skipDeclaration (token :: tokens) = some after ∧
      s'.names = s.names ++ [h.name.toList] ∧ s'.kinds = s.kinds ++ [1] := by
  obtain ⟨name, behind, opening, rest, head, rfl, hsignature, hopen, rfl⟩ := readFunction_eq_ok hread
  obtain ⟨rfl, rfl⟩ := List.cons.inj (rest_of_readSignature hhead hsignature)
  have hnoBrace : NoBraceRecord (s.names ++ [name.text.toList]) (s.kinds ++ [1]) := by
    have hall := hfree.noBraceRecord
    rwa [declareFunction, (readSignature_eq_ok hsignature).1] at hall
  have hname : punctuationBrace name ≠ some .opening := fun hbrace => by
    refine hfree.names (List.mem_append_right _ ?_)
    rw [(readSignature_eq_ok hsignature).1, text_of_punctuationBrace_opening hbrace]
    exact List.mem_singleton_self _
  have hreads : Reads (fun token => punctuationBrace token ≠ some .opening) (token :: name :: behind)
      (first :: (body ++ last :: after)) := by
    refine .cons (by rw [punctuationBrace_of_is htoken (by decide)]; nofun) (.cons hname ?_)
    refine (reads_readSignature (valueTypeReader_noBrace hnoBrace) (typeReader_noBrace hnoBrace)
      hsignature).imp fun token h => ?_
    refine h.elim (fun hnone => by rw [hnone]; nofun) fun hparameter hbrace => ?_
    rw [text_of_punctuationBrace_opening hbrace] at hparameter
    obtain ⟨parameter, hmem, heq⟩ := List.mem_map.mp hparameter
    exact hfree.parameterNames
      (List.mem_append_right _ (List.mem_map.mpr ⟨parameter, hmem, by rw [heq]⟩))
  have hopening : punctuationBrace first = some .opening := by
    refine hsource.opening ?_ hopen
    obtain ⟨front, heq, -⟩ := hreads
    rw [heq]
    simp
  refine ⟨?_, ?_, rfl⟩
  · rw [skipDeclaration_of_reads (hreads.not_end hsource (by nofun)), skipDeclaration,
      if_neg (kind_ne_of_punctuationBrace hopening), if_pos hopening,
      skipBraces_readsStatements hbody hfield htype 0, skipBraces_closing hlast]
  · rw [(readSignature_eq_ok hhead).1]
    rw [declareFunction, (readSignature_eq_ok hsignature).1]

end DeclaredSymbols

/-! ## The passes agree -/

/-- The loop of `compileFunctions` over the tokens with the finished symbols, and the heads of the
functions that it defines. -/
inductive CompilesDeclarations (s : DeclaredSymbols) : List Token → List FunctionHeader → Prop
  /-- The end of the program. -/
  | done {token : Token} {rest : List Token} (hend : token.kind = .endOfFile) :
      CompilesDeclarations s (token :: rest) []
  /-- A record is skipped. -/
  | record {token : Token} {rest after : List Token} {hs : List FunctionHeader}
      (hend : token.kind ≠ .endOfFile) (hrecord : token.is "record" = true)
      (hskip : skipDeclaration (token :: rest) = some after)
      (hrun : CompilesDeclarations s (Token.skipTerminators after) hs) :
      CompilesDeclarations s (token :: rest) hs
  /-- A function: its head, and its body between braces. -/
  | function {token first last : Token} {rest body after : List Token} {h : FunctionHeader}
      {hs : List FunctionHeader} (hend : token.kind ≠ .endOfFile)
      (hrecord : token.is "record" = false) (hfunction : token.is "function" = true)
      (hhead : readSignature (typeReader s.names s.kinds) (typeReader s.names s.kinds) rest =
        .ok (h, first :: (body ++ last :: after)))
      (hfirst : punctuationBrace first = some .opening)
      (hlast : punctuationBrace last = some .closing)
      (hbody : ReadsStatements (fun name => name.toList ∈ s.parameterNames)
        (fun name => IsRecordName s.names s.kinds name.toList) body)
      (hrun : CompilesDeclarations s (Token.skipTerminators after) hs) :
      CompilesDeclarations s (token :: rest) (h :: hs)
  /-- A statement is skipped. -/
  | statement {token : Token} {rest : List Token} {hs : List FunctionHeader}
      (hend : token.kind ≠ .endOfFile) (hrecord : token.is "record" = false)
      (hfunction : token.is "function" = false)
      (hrun : CompilesDeclarations s
        (Token.skipTerminators (skipTopLevelStatement (token :: rest))) hs) :
      CompilesDeclarations s (token :: rest) hs

/-- Skipping terminators leaves the end of the tokens. -/
theorem skipTerminators_suffix (tokens : List Token) : Token.skipTerminators tokens <:+ tokens :=
  List.dropWhile_suffix _

/-- So does the loop of `skipTopLevelStatement`. -/
theorem skipStatement_suffix (tokens : List Token) (round square curly : ℤ) :
    skipStatement round square curly tokens <:+ tokens := by
  induction tokens generalizing round square curly with
  | nil => exact List.suffix_rfl
  | cons token rest ih =>
    rw [skipStatement]
    split_ifs
    · exact List.suffix_rfl
    · exact (ih _ _ _).trans (List.suffix_cons _ _)

/-- So does skipping a statement. -/
theorem skipTopLevelStatement_suffix (tokens : List Token) :
    skipTopLevelStatement tokens <:+ tokens :=
  (skipTerminators_suffix _).trans (skipStatement_suffix tokens 0 0 0)

/-- So does the loop of `skipDeclaration`. -/
theorem skipBraces_suffix {tokens after : List Token} {depth : ℕ}
    (h : skipBraces depth tokens = some after) : after <:+ tokens := by
  fun_induction skipBraces depth tokens with
  | case1 => cases h; exact List.suffix_rfl
  | case2 => cases h
  | case3 => cases h
  | case4 _ _ _ _ _ ih => exact (ih h).trans (List.suffix_cons _ _)
  | case5 _ _ _ _ _ ih => exact (ih h).trans (List.suffix_cons _ _)
  | case6 _ _ _ _ _ ih => exact (ih h).trans (List.suffix_cons _ _)

/-- So does `skipDeclaration`. -/
theorem skipDeclaration_suffix {tokens after : List Token}
    (h : skipDeclaration tokens = some after) : after <:+ tokens := by
  fun_induction skipDeclaration tokens with
  | case1 => cases h
  | case2 => cases h
  | case3 _ _ _ _ => exact (skipBraces_suffix h).trans (List.suffix_cons _ _)
  | case4 _ _ _ _ ih => exact (ih h).trans (List.suffix_cons _ _)

/-- Finding a record leaves the ends of the declarations. -/
theorem declarationEnds_declare (found : DiscoveredRecords) (keyword name : Token) :
    (found.declare keyword name).declarationEnds = found.declarationEnds := by
  unfold DiscoveredRecords.declare
  split_ifs <;> rfl

/-- `discoverRecordNames` at a declaration. -/
theorem declaration_of_discoverFrom {length : ℕ} {found found' : DiscoveredRecords} {token : Token}
    {rest : List Token} (h : discoverFrom length found (token :: rest) = some found')
    (hend : token.kind ≠ .endOfFile)
    (hkeyword : token.is "record" = true ∨ token.is "function" = true) :
    ∃ after found₁, skipDeclaration (token :: rest) = some after ∧
      found₁.declarationEnds = found.declarationEnds ++ [length - after.length] ∧
      discoverFrom length found₁ (Token.skipTerminators after) = some found' := by
  rw [discoverFrom, dif_neg hend] at h
  split_ifs at h
  split at h
  · cases h
  · next after hskip =>
    exact ⟨after, _, hskip, by rw [declarationEnds_declare], h⟩

/-- `discoverRecordNames` at a statement. -/
theorem statement_of_discoverFrom {length : ℕ} {found found' : DiscoveredRecords} {token : Token}
    {rest : List Token} (h : discoverFrom length found (token :: rest) = some found')
    (hend : token.kind ≠ .endOfFile) (hrecord : token.is "record" = false)
    (hfunction : token.is "function" = false) :
    ∃ found₁, found₁.declarationEnds = found.declarationEnds ∧ discoverFrom length found₁
      (Token.skipTerminators (skipTopLevelStatement (token :: rest))) = some found' := by
  rw [discoverFrom, dif_neg hend, if_neg (by simp [hrecord]),
    if_neg (by simp [hrecord, hfunction])] at h
  refine ⟨_, ?_, h⟩
  exact declarationEnds_declare found token (rest.headD token)

/-- No end of a declaration is lost. -/
theorem declarationEnds_of_discoverFrom {length : ℕ} {found found' : DiscoveredRecords}
    {tokens : List Token} (h : discoverFrom length found tokens = some found') :
    found.declarationEnds <+: found'.declarationEnds := by
  fun_induction discoverFrom length found tokens with
  | case1 => cases h
  | case2 => cases h; exact List.prefix_rfl
  | case3 => cases h
  | case4 => cases h
  | case5 found token rest _ _ _ _ after _ ih =>
    have hle := ih h
    rw [declarationEnds_declare] at hle
    exact (List.prefix_append _ _).trans hle
  | case6 found token rest _ _ _ _ ih =>
    have hle := ih h
    rwa [declarationEnds_declare] at hle

/-! ## The scan of a file -/

/-- The loop of `loadModule` over a file without `use` and `public`: the positions of the
declarations, -1 for a statement, and the ends of the declarations. -/
def scanFrom (length : ℕ) : List Token → Option (List ℤ × List ℕ)
  | [] => none
  | token :: rest =>
    if _hend : token.kind = .endOfFile then some ([], [])
    else if token.is "use" ∨ token.is "public" then none
    else if token.is "record" ∨ token.is "function" then
      match _hskip : skipDeclaration (token :: rest) with
      | none => none
      | some after =>
        match scanFrom length (Token.skipTerminators after) with
        | none => none
        | some (starts, ends) =>
          some (((length - (rest.length + 1) : ℕ) : ℤ) :: starts, (length - after.length) :: ends)
    else
      match scanFrom length (Token.skipTerminators (skipTopLevelStatement (token :: rest))) with
      | none => none
      | some (starts, ends) => some (-1 :: starts, ends)
termination_by tokens => tokens.length
decreasing_by
  · exact (length_skipTerminators_le after).trans_lt (length_skipDeclaration_lt _hskip)
  · exact (length_skipTerminators_le _).trans_lt (length_skipTopLevelStatement_lt _hend rest)

/-- The loop of `recordScannedDeclarations` over the positions that are left. -/
def recordScanned (all : List Token) (found : DiscoveredRecords) :
    List ℤ → List ℕ → Option DiscoveredRecords
  | [], _ => some found
  | start :: starts, ends =>
    if start < 0 then recordScanned all { found with topLevelStatements := true } starts ends
    else
      match all.drop start.toNat, ends with
      | token :: rest, position :: ends =>
        if token.is "record" ∧ rest = [] then none
        else
          let found := found.declare token (rest.headD token)
          recordScanned all { found with declarationEnds := found.declarationEnds ++ [position] }
            starts ends
      | _, _ => none

/-- What `compileTokens` starts with: a scan that found nothing is made again. -/
def discoverScanned (tokens : List Token) (starts : List ℤ) (ends : List ℕ) :
    Option DiscoveredRecords :=
  if starts.length > 0 then recordScanned tokens {} starts ends else discoverRecordNames tokens

/-- What was scanned is what `discoverRecordNames` finds. -/
theorem recordScanned_eq {all tokens : List Token} {starts : List ℤ} {ends : List ℕ}
    (h : scanFrom all.length tokens = some (starts, ends)) (hsuffix : tokens <:+ all)
    (found : DiscoveredRecords) :
    recordScanned all found starts ends = discoverFrom all.length found tokens := by
  fun_induction scanFrom all.length tokens generalizing starts ends found with
  | case1 => cases h
  | case2 token rest hend =>
    cases h
    rw [recordScanned, discoverFrom, dif_pos hend]
  | case3 => cases h
  | case4 => cases h
  | case5 => cases h
  | case6 token rest hend _ hkeyword after hskip starts' ends' hscan ih =>
    cases h
    have hafter := (skipDeclaration_suffix hskip).trans hsuffix
    have hdrop : all.drop (all.length - (rest.length + 1)) = token :: rest :=
      (List.suffix_iff_eq_drop.mp hsuffix).symm
    unfold recordScanned
    rw [if_neg (Int.not_lt.mpr (Int.natCast_nonneg _)), Int.toNat_natCast, hdrop, discoverFrom,
      dif_neg hend, if_pos hkeyword]
    simp only
    split_ifs with hrecord
    · rfl
    · split
      · next hnone => cases hskip.symm.trans hnone
      · next after' hsome =>
        obtain rfl := Option.some.inj (hskip.symm.trans hsome)
        exact ih hscan ((skipTerminators_suffix _).trans hafter) _
  | case7 => cases h
  | case8 token rest hend _ hkeyword starts' ends' hscan ih =>
    cases h
    have hrest := (skipTopLevelStatement_suffix (token :: rest)).trans hsuffix
    have hdeclare : found.declare token (rest.headD token) = found :=
      if_neg fun hrecord => hkeyword (.inl hrecord)
    unfold recordScanned
    rw [if_pos (by decide), discoverFrom, dif_neg hend, if_neg fun h => hkeyword (.inl h.1)]
    simp only [if_neg hkeyword, hdeclare]
    exact ih hscan ((skipTerminators_suffix _).trans hrest) _

/-- The first pass does not depend on whether `loadModule` left a scan. -/
theorem discoverScanned_eq {tokens : List Token} {starts : List ℤ} {ends : List ℕ}
    (h : scanFrom tokens.length (Token.skipTerminators tokens) = some (starts, ends)) :
    discoverScanned tokens starts ends = discoverRecordNames tokens := by
  unfold discoverScanned
  split_ifs
  · exact recordScanned_eq h (skipTerminators_suffix tokens) {}
  · rfl

/-! ## In step -/

/-- The passes go through the program in step: what `compileFunctions` defines from a declaration on
is what `discoverDeclarations` adds to the symbols. -/
theorem CompilesDeclarations.names_eq {all tokens : List Token} {s s' : DeclaredSymbols}
    {hs : List FunctionHeader} {lookup : List ℕ} {found found' : DiscoveredRecords}
    (hcompiles : CompilesDeclarations s' tokens hs) (hsource : SourceTokens all)
    (hfree : s'.BraceFree) (hsuffix : tokens <:+ all)
    (hfound : discoverFrom all.length found tokens = some found')
    (hdeclare : s.declareFrom all found'.declarationEnds lookup found.declarationEnds.length tokens =
      .ok s') :
    s'.names = s.names ++ hs.map (fun h => h.name.toList) ∧
      s'.kinds = s.kinds ++ hs.map fun _ => 1 := by
  induction hcompiles generalizing s found with
  | done hend =>
    rw [DeclaredSymbols.declareFrom, dif_pos hend] at hdeclare
    cases hdeclare
    exact ⟨(List.append_nil _).symm, (List.append_nil _).symm⟩
  | record hend hrecord hskip _ ih =>
    obtain ⟨after, found₁, hskip', hends, hnext⟩ :=
      declaration_of_discoverFrom hfound hend (.inl hrecord)
    obtain rfl := Option.some.inj (hskip.symm.trans hskip')
    rw [DeclaredSymbols.declareFrom, dif_neg hend, if_pos hrecord] at hdeclare
    split at hdeclare
    · cases hdeclare
    next s₁ behind hread =>
    have hextends := DeclaredSymbols.extends_declareFrom hdeclare
    -- the record ends behind its fields where its braces are balanced
    obtain rfl := Option.some.inj (hskip.symm.trans (DeclaredSymbols.skipDeclaration_of_readRecord
      (hsource.suffix hsuffix) hrecord hread (hfree.of_extends hextends)))
    obtain ⟨_, _, _, fields, -, -, -, -, rfl⟩ := DeclaredSymbols.readRecord_eq_ok hread
    rw [← List.length_singleton, ← List.length_append, ← hends] at hdeclare
    have hih := ih ((skipTerminators_suffix _).trans ((skipDeclaration_suffix hskip).trans hsuffix))
      hnext hdeclare
    exact hih
  | function hend hrecord hfunction hhead hfirst hlast hbody _ ih =>
    obtain ⟨after', found₁, hskip, hends, hnext⟩ :=
      declaration_of_discoverFrom hfound hend (.inr hfunction)
    rw [DeclaredSymbols.declareFrom, dif_neg hend, if_neg (by simp [hrecord]), if_pos hfunction]
      at hdeclare
    split at hdeclare
    · cases hdeclare
    next s₁ hread =>
    split at hdeclare
    · cases hdeclare
    next position hposition =>
    have hextends := DeclaredSymbols.extends_declareFrom hdeclare
    obtain ⟨hskip', hnames, hkinds⟩ := DeclaredSymbols.skipDeclaration_of_readFunction
      (hsource.suffix hsuffix) hfunction hread (hfree.of_extends hextends) hhead hlast hbody
      hfree.parameterNames hfree.noBraceRecord
    obtain rfl := Option.some.inj (hskip.symm.trans hskip')
    have hafter : after' <:+ all := (skipDeclaration_suffix hskip).trans hsuffix
    -- the end that was found first is the end of the body
    have hjump : all.drop position = after' := by
      obtain ⟨more, hmore⟩ := declarationEnds_of_discoverFrom hnext
      rw [← hmore, hends, List.append_assoc, List.getElem?_append_right le_rfl, Nat.sub_self] at hposition
      cases hposition
      exact (List.suffix_iff_eq_drop.mp hafter).symm
    rw [hjump] at hdeclare
    obtain ⟨ihnames, ihkinds⟩ := ih ((skipTerminators_suffix _).trans hafter) hnext
      (by rwa [hends, List.length_append, List.length_singleton])
    refine ⟨?_, ?_⟩
    · rw [ihnames, hnames, List.append_assoc]
      rfl
    · rw [ihkinds, hkinds, List.append_assoc]
      rfl
  | statement hend hrecord hfunction _ ih =>
    obtain ⟨found₁, hends, hnext⟩ := statement_of_discoverFrom hfound hend hrecord hfunction
    rw [DeclaredSymbols.declareFrom, dif_neg hend, if_neg (by simp [hrecord]),
      if_neg (by simp [hfunction])] at hdeclare
    refine ih ?_ hnext (by rwa [hends])
    exact (skipTerminators_suffix _).trans ((skipTopLevelStatement_suffix _).trans hsuffix)

end Minyar

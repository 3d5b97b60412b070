import Minyar.Library.Brackets
import Minyar.Compiler.Tokens

/-!
# Scans of lexical scopes

The compiler reads a function once, but before a binding it may look ahead: `skipDeclaration` finds
the end of a literal, `prepareScalarRecord` asks whether a name is only projected in the rest of its
scope, `markAssignedParameters` which parameters are assigned.  All three count the braces between
punctuation tokens.  The parser itself takes some tokens for names without a look at their kinds, so
the scans agree with it only when no name is a brace.  Then what a scan said of a scope it still
says of the rest of the scope after a part was compiled.
-/

namespace Minyar

/-- A brace; literals are none. -/
def punctuationBrace (token : Token) : Option Bracket :=
  if token.kind = .punctuation then
    if token.text = "\x7b" then some .opening
    else if token.text = "\x7d" then some .closing else none
  else none

/-- The text of an opening brace. -/
theorem text_of_punctuationBrace_opening {token : Token}
    (h : punctuationBrace token = some .opening) : token.text = "\x7b" := by
  unfold punctuationBrace at h
  split_ifs at h with hkind hopening hclosing
  · exact hopening
  · cases h

/-- The text of a closing brace. -/
theorem text_of_punctuationBrace_closing {token : Token}
    (h : punctuationBrace token = some .closing) : token.text = "\x7d" := by
  unfold punctuationBrace at h
  split_ifs at h with hkind hopening hclosing
  · cases h
  · exact hclosing

/-- A brace is not the end of the file. -/
theorem kind_ne_of_punctuationBrace {token : Token} {brace : Bracket}
    (h : punctuationBrace token = some brace) : token.kind ≠ .endOfFile := by
  unfold punctuationBrace at h
  split_ifs at h with hkind <;> rw [hkind] <;> decide

/-- A name is no brace. -/
theorem punctuationBrace_of_name {token : Token} (h : token.kind = .name) :
    punctuationBrace token = none := by
  unfold punctuationBrace
  rw [if_neg (by rw [h]; decide)]

/-! ## The scans -/

/-- The loop of `skipDeclaration` inside the braces. -/
def skipBraces : ℕ → List Token → Option (List Token)
  | 0, rest => some rest
  | _ + 1, [] => none
  | depth + 1, token :: rest =>
    if token.kind = .endOfFile then none
    else match punctuationBrace token with
      | some .opening => skipBraces (depth + 2) rest
      | some .closing => skipBraces depth rest
      | none => skipBraces (depth + 1) rest

/-- `skipDeclaration`: the tokens behind the body, or a failure. -/
def skipDeclaration : List Token → Option (List Token)
  | [] => none
  | token :: rest =>
    if token.kind = .endOfFile then none
    else if punctuationBrace token = some .opening then skipBraces 1 rest
    else skipDeclaration rest

/-- The scan to the end of a scope with `depth` more open braces: no token up to there is bad. -/
def scopeAvoids (bad : Token → List Token → Bool) : ℕ → List Token → Bool
  | _, [] => true
  | depth, token :: rest =>
    if token.kind = .endOfFile then true
    else if bad token rest then false
    else match punctuationBrace token with
      | some .opening => scopeAvoids bad (depth + 1) rest
      | some .closing => if depth = 0 then true else scopeAvoids bad (depth - 1) rest
      | none => scopeAvoids bad depth rest

/-- The name is used for something else than a projection. -/
def usedWhole (name : String) (token : Token) (rest : List Token) : Bool :=
  token.kind = .name ∧ token.text = name ∧ rest.head?.map Token.text ≠ some "."

/-- The loop of `markAssignedParameters`: every parameter that is assigned before the body closes is
marked. -/
def scanAssigned (names : List String) : ℤ → List Token → List Bool → List Bool
  | _, [], marks => marks
  | depth, token :: rest, marks =>
    if token.kind = .endOfFile then marks
    else
      let marks := if token.kind = .name ∧ rest.head?.map Token.text = some "=" then
        List.zipWith (fun name mark => mark || token.text = name) names marks else marks
      match punctuationBrace token with
      | some .opening => scanAssigned names (depth + 1) rest marks
      | some .closing => if depth - 1 = 0 then marks else scanAssigned names (depth - 1) rest marks
      | none => scanAssigned names depth rest marks

/-- `markAssignedParameters`: with more than 64 parameters all of them count as assigned. -/
def markAssignedParameters (names : List String) (body : List Token) : List Bool :=
  if names = [] ∨ 64 < names.length then names.map fun _ => decide (64 < names.length)
  else scanAssigned names 0 body (names.map fun _ => false)

/-! ## What is read -/

/-- The tokens of an expression, and of a statement up to its block.  The name of a field in a
record literal may be any token that does not close the literal. -/
inductive ReadsExpression (fieldName : String → Prop) : List Token → Prop
  | nil : ReadsExpression fieldName []
  /-- A token that is no brace. -/
  | token {token : Token} {rest : List Token} (hend : token.kind ≠ .endOfFile)
      (hbrace : punctuationBrace token = none) (hrest : ReadsExpression fieldName rest) :
      ReadsExpression fieldName (token :: rest)
  /-- The name of a field. -/
  | field {token : Token} {rest : List Token} (hend : token.kind ≠ .endOfFile)
      (hopen : punctuationBrace token ≠ some .closing) (hname : fieldName token.text)
      (hrest : ReadsExpression fieldName rest) : ReadsExpression fieldName (token :: rest)
  /-- The fields of a record literal between its braces. -/
  | literal {first last : Token} {fields rest : List Token}
      (hfirst : punctuationBrace first = some .opening)
      (hlast : punctuationBrace last = some .closing) (hfields : ReadsExpression fieldName fields)
      (hrest : ReadsExpression fieldName rest) :
      ReadsExpression fieldName (first :: (fields ++ last :: rest))

/-- The tokens of a `let` up to the equals sign.  The name of a type may be any token. -/
def ReadsHeader (typeName : String → Prop) (tokens : List Token) : Prop :=
  ∀ token ∈ tokens, token.kind ≠ .endOfFile ∧
    (punctuationBrace token = none ∨ typeName token.text)

section

variable {bad : Token → List Token → Bool} {fieldName typeName : String → Prop}

/-- A scan that succeeded did so at the next token. -/
theorem not_bad_of_scopeAvoids {depth : ℕ} {token : Token} {rest : List Token}
    (h : scopeAvoids bad depth (token :: rest) = true) (hend : token.kind ≠ .endOfFile) :
    bad token rest = false := by
  rw [scopeAvoids, if_neg hend] at h
  by_contra hbad
  rw [if_pos (eq_true_of_ne_false hbad)] at h
  cases h

/-- What a scan says behind the next token. -/
theorem scopeAvoids_cons {depth : ℕ} {token : Token} {rest : List Token}
    (h : scopeAvoids bad depth (token :: rest) = true) (hend : token.kind ≠ .endOfFile) :
    (match punctuationBrace token with
      | some .opening => scopeAvoids bad (depth + 1) rest
      | some .closing => if depth = 0 then true else scopeAvoids bad (depth - 1) rest
      | none => scopeAvoids bad depth rest) = true := by
  have hbad := not_bad_of_scopeAvoids h hend
  rw [scopeAvoids, if_neg hend, if_neg (by rw [hbad]; exact Bool.false_ne_true)] at h
  exact h

/-- Behind a token that is no brace. -/
theorem scopeAvoids_of_none {depth : ℕ} {token : Token} {rest : List Token}
    (h : scopeAvoids bad depth (token :: rest) = true) (hend : token.kind ≠ .endOfFile)
    (hbrace : punctuationBrace token = none) : scopeAvoids bad depth rest = true := by
  have h := scopeAvoids_cons h hend
  rwa [hbrace] at h

/-- Behind an opening brace. -/
theorem scopeAvoids_of_opening {depth : ℕ} {token : Token} {rest : List Token}
    (h : scopeAvoids bad depth (token :: rest) = true)
    (hbrace : punctuationBrace token = some .opening) :
    scopeAvoids bad (depth + 1) rest = true := by
  have h := scopeAvoids_cons h (kind_ne_of_punctuationBrace hbrace)
  rwa [hbrace] at h

/-- Behind the closing brace of an inner scope. -/
theorem scopeAvoids_of_closing {depth : ℕ} {token : Token} {rest : List Token}
    (h : scopeAvoids bad (depth + 1) (token :: rest) = true)
    (hbrace : punctuationBrace token = some .closing) : scopeAvoids bad depth rest = true := by
  have h := scopeAvoids_cons h (kind_ne_of_punctuationBrace hbrace)
  rwa [hbrace] at h

/-- The scan with more open braces goes further. -/
theorem scopeAvoids_of_le {depth depth' : ℕ} {tokens : List Token}
    (h : scopeAvoids bad depth' tokens = true) (hle : depth ≤ depth') :
    scopeAvoids bad depth tokens = true := by
  induction tokens generalizing depth depth' with
  | nil => rfl
  | cons token rest ih =>
    by_cases hend : token.kind = .endOfFile
    · rw [scopeAvoids, if_pos hend]
    have hbad := not_bad_of_scopeAvoids h hend
    rw [scopeAvoids, if_neg hend, if_neg (by rw [hbad]; exact Bool.false_ne_true)]
    rcases hbrace : punctuationBrace token with _ | _ | _
    · exact ih (scopeAvoids_of_none h hend hbrace) hle
    · exact ih (scopeAvoids_of_opening h hbrace) (Nat.succ_le_succ hle)
    · rcases depth with _ | depth
      · rfl
      · obtain ⟨more, rfl⟩ := Nat.exists_eq_add_of_le' (Nat.le_trans (Nat.succ_pos depth) hle)
        exact ih (scopeAvoids_of_closing h hbrace) (Nat.le_of_succ_le_succ hle)

/-- What a scan says of a scope it says behind an expression, when no field is named `\x7b`. -/
theorem scopeAvoids_of_readsExpression {tokens : List Token}
    (hreads : ReadsExpression fieldName tokens) (hfield : ¬ fieldName "\x7b") {depth : ℕ}
    {rest : List Token} (h : scopeAvoids bad depth (tokens ++ rest) = true) :
    scopeAvoids bad depth rest = true := by
  induction hreads generalizing depth rest with
  | nil => exact h
  | token hend hbrace _ ih => exact ih (scopeAvoids_of_none h hend hbrace)
  | @field token _ hend hopen hname _ ih =>
    refine ih (scopeAvoids_of_none h hend ?_)
    rcases hbrace : punctuationBrace token with _ | _ | _
    · rfl
    · exact absurd (text_of_punctuationBrace_opening hbrace ▸ hname) hfield
    · exact absurd hbrace hopen
  | literal hfirst hlast _ _ ihfields ihrest =>
    rw [List.cons_append, List.append_assoc, List.cons_append] at h
    exact ihrest (scopeAvoids_of_closing (ihfields (scopeAvoids_of_opening h hfirst)) hlast)

/-- The loop of `skipDeclaration` behind an expression, when no field is named `\x7b`. -/
theorem skipBraces_readsExpression {tokens : List Token}
    (hreads : ReadsExpression fieldName tokens) (hfield : ¬ fieldName "\x7b") (depth : ℕ)
    (rest : List Token) :
    skipBraces (depth + 1) (tokens ++ rest) = skipBraces (depth + 1) rest := by
  induction hreads generalizing depth rest with
  | nil => rfl
  | token hend hbrace _ ih =>
    rw [List.cons_append, skipBraces, if_neg hend, hbrace]
    exact ih depth rest
  | @field token _ hend hopen hname _ ih =>
    rcases hbrace : punctuationBrace token with _ | _ | _
    · rw [List.cons_append, skipBraces, if_neg hend, hbrace]
      exact ih depth rest
    · exact absurd (text_of_punctuationBrace_opening hbrace ▸ hname) hfield
    · exact absurd hbrace hopen
  | literal hfirst hlast _ _ ihfields ihrest =>
    rw [List.cons_append, skipBraces, if_neg (kind_ne_of_punctuationBrace hfirst), hfirst,
      List.append_assoc, List.cons_append]
    simp only
    rw [ihfields, skipBraces, if_neg (kind_ne_of_punctuationBrace hlast), hlast]
    exact ihrest depth rest

/-- `skipDeclaration` at a record literal, when no field is named `\x7b`. -/
theorem skipDeclaration_literal {name first last : Token} {fields : List Token}
    (hname : name.kind = .name) (hfirst : punctuationBrace first = some .opening)
    (hlast : punctuationBrace last = some .closing) (hreads : ReadsExpression fieldName fields)
    (hfield : ¬ fieldName "\x7b") (rest : List Token) :
    skipDeclaration (name :: first :: (fields ++ last :: rest)) = some rest := by
  rw [skipDeclaration, if_neg (by rw [hname]; decide),
    if_neg (by rw [punctuationBrace_of_name hname]; nofun),
    skipDeclaration, if_neg (kind_ne_of_punctuationBrace hfirst), if_pos hfirst,
    skipBraces_readsExpression hreads hfield 0, skipBraces,
    if_neg (kind_ne_of_punctuationBrace hlast), hlast]
  simp only [skipBraces]

/-- What a scan says of a scope it says behind the header of a `let`, when no type is named
`\x7d`. -/
theorem scopeAvoids_of_readsHeader {tokens : List Token} (hreads : ReadsHeader typeName tokens)
    (htype : ¬ typeName "\x7d") {depth : ℕ} {rest : List Token}
    (h : scopeAvoids bad depth (tokens ++ rest) = true) : scopeAvoids bad depth rest = true := by
  induction tokens with
  | nil => exact h
  | cons token tokens ih =>
    obtain ⟨hend, hname⟩ := hreads token List.mem_cons_self
    refine ih (fun t ht => hreads t (List.mem_cons_of_mem token ht)) ?_
    rcases hbrace : punctuationBrace token with _ | _ | _
    · exact scopeAvoids_of_none h hend hbrace
    · exact scopeAvoids_of_le (scopeAvoids_of_opening h hbrace) (Nat.le_succ depth)
    · rw [hbrace] at hname
      have htext := hname.resolve_left nofun
      exact absurd (text_of_punctuationBrace_closing hbrace ▸ htext) htype

end

end Minyar

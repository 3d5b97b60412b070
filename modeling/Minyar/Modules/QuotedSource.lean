import Minyar.Compiler.Tokenize

/-!
# Quoted Texts in interface summaries

`quoteModuleSource` writes a Text as a literal.  Both the writer and the lexer collect what lies
between two escapes as one piece.  `tokenize_quoteModuleSource` says that the lexer reads back the
Text, whatever its characters are.
-/

namespace Minyar

/-- The escape of a character, if it has one. -/
def quoteReplacement (c : Char) : Option Text :=
  if c = '\\' then some "\\\\".toList
  else if c = '"' then some "\\\"".toList
  else if c = '\n' then some "\\n".toList
  else if c = '\r' then some "\\r".toList
  else if c = '\t' then some "\\t".toList
  else none

/-- The loop of `quoteModuleSource`; `start` is the position behind the last escape. -/
def quotePieces (start : Text) (pieces : List Text) : Text → List Text
  | [] => pieces ++ [sliceTo start []]
  | c :: rest => match quoteReplacement c with
    | some replacement => quotePieces rest (pieces ++ [sliceTo start (c :: rest), replacement]) rest
    | none => quotePieces start pieces rest

/-- `quoteModuleSource`. -/
def quoteModuleSource (value : Text) : Text :=
  (quotePieces value [['"']] value ++ [['"']]).flatten

/-! ## What is written -/

/-- A character as it is written. -/
def quoteCharacter (c : Char) : Text := (quoteReplacement c).getD [c]

/-- The pieces are the characters as they are written. -/
theorem flatten_quotePieces (before : Text) (pieces : List Text) (rest : Text) :
    (quotePieces (before ++ rest) pieces rest).flatten =
      pieces.flatten ++ (before ++ rest.flatMap quoteCharacter) := by
  induction rest generalizing before pieces with
  | nil =>
    rw [quotePieces, sliceTo_append]
    simp
  | cons c rest ih =>
    rw [quotePieces, List.flatMap_cons, quoteCharacter]
    cases hquote : quoteReplacement c with
    | none =>
      have hbefore : before ++ c :: rest = before ++ [c] ++ rest := by simp
      simp only
      rw [hbefore, ih]
      simp
    | some replacement =>
      have hrest := ih [] (pieces ++ [sliceTo (before ++ c :: rest) (c :: rest), replacement])
      rw [List.nil_append] at hrest
      simp only
      rw [hrest, sliceTo_append]
      simp

/-- A quoted Text is its characters as they are written, between quotes. -/
theorem quoteModuleSource_eq (value : Text) :
    quoteModuleSource value = '"' :: (value.flatMap quoteCharacter ++ ['"']) := by
  have hpieces := flatten_quotePieces [] [['"']] value
  rw [List.nil_append] at hpieces
  rw [quoteModuleSource, List.flatten_append, hpieces]
  simp

/-! ## What is read -/

/-- A character is written as itself or as an escape of it. -/
theorem quoteCharacter_cases (c : Char) :
    quoteCharacter c = [c] ∧ c ≠ '"' ∧ c ≠ '\\' ∨
      ∃ escape, quoteCharacter c = ['\\', escape] ∧ escapeValue escape = c := by
  unfold quoteCharacter quoteReplacement
  split_ifs with hslash hquote hnewline hreturn htab
  · exact Or.inr ⟨'\\', rfl, hslash.symm⟩
  · exact Or.inr ⟨'"', rfl, hquote.symm⟩
  · exact Or.inr ⟨'n', rfl, hnewline.symm⟩
  · exact Or.inr ⟨'r', rfl, hreturn.symm⟩
  · exact Or.inr ⟨'t', rfl, htab.symm⟩
  · exact Or.inl ⟨rfl, hquote, hslash⟩

/-- A character other than the closing quote has characters behind it. -/
theorem escapedText_plain {c : Char} (hquote : c ≠ '"') (hslash : c ≠ '\\') (chunk : Text)
    (pieces : List Text) {rest : Text} (hrest : rest ≠ []) (place : Place) :
    escapedText chunk pieces (c :: rest) place = escapedText chunk pieces rest (place.next c) := by
  cases rest with
  | nil => exact absurd rfl hrest
  | cons next rest => rw [escapedText, if_neg hquote, if_neg hslash]

/-- The loop over a literal with escapes reads the Text that was written. -/
theorem escapedText_quote (value rest before : Text) (pieces : List Text) (place : Place) :
    ∃ place', escapedText (before ++ (value.flatMap quoteCharacter ++ '"' :: rest)) pieces
        (value.flatMap quoteCharacter ++ '"' :: rest) place =
      some ⟨pieces.flatten ++ before ++ value, rest, place'⟩ := by
  induction value generalizing before pieces place with
  | nil =>
    refine ⟨place.skip 1, ?_⟩
    simp only [List.flatMap_nil, List.nil_append, List.append_nil]
    unfold escapedText
    rw [if_pos rfl, flatten_addChunk]
  | cons c value ih =>
    rcases quoteCharacter_cases c with ⟨hplain, hquote, hslash⟩ | ⟨escape, hescape, hvalue⟩
    · obtain ⟨place', h⟩ := ih (before ++ [c]) pieces (place.next c)
      refine ⟨place', ?_⟩
      rw [List.flatMap_cons, hplain, List.append_assoc, List.singleton_append,
        escapedText_plain hquote hslash _ _ (by simp)]
      simp only [List.append_assoc, List.singleton_append] at h ⊢
      exact h
    · obtain ⟨place', h⟩ := ih [] (addChunk pieces
        (before ++ ('\\' :: escape :: (value.flatMap quoteCharacter ++ '"' :: rest)))
        ('\\' :: escape :: (value.flatMap quoteCharacter ++ '"' :: rest)) ++
          [[escapeValue escape]]) (place.escape escape)
      refine ⟨place', ?_⟩
      rw [List.flatMap_cons, hescape, List.append_assoc, List.cons_append, List.cons_append,
        List.nil_append, escapedText, if_neg (by decide), if_pos rfl]
      rw [List.nil_append] at h
      rw [h, List.flatten_append, flatten_addChunk, hvalue]
      simp

/-- A literal is read as the Text that was written. -/
theorem textLiteral_quote (value rest : Text) (place : Place) :
    ∃ place', textLiteral (value.flatMap quoteCharacter ++ '"' :: rest) place =
      some ⟨value, rest, place'⟩ := by
  -- The characters before the first escape are passed at once.
  obtain ⟨plain, behind, rfl, hplain, hbehind⟩ : ∃ plain behind, value = plain ++ behind ∧
      (∀ c ∈ plain, quoteCharacter c = [c] ∧ c ≠ '"' ∧ c ≠ '\\') ∧
      ∀ c ∈ behind.head?, ∃ escape, quoteCharacter c = ['\\', escape] := by
    induction value with
    | nil => exact ⟨[], [], rfl, by simp, by simp⟩
    | cons c value ih =>
      rcases quoteCharacter_cases c with hc | ⟨escape, hescape, -⟩
      · obtain ⟨plain, behind, rfl, hplain, hbehind⟩ := ih
        exact ⟨c :: plain, behind, rfl, List.forall_mem_cons.mpr ⟨hc, hplain⟩, hbehind⟩
      · refine ⟨[], c :: value, rfl, by simp, fun d hd => ?_⟩
        cases hd
        exact ⟨escape, hescape⟩
  have hwritten : plain.flatMap quoteCharacter = plain := by
    have := List.flatMap_congr (g := fun c => [c]) fun c hc => (hplain c hc).1
    rw [this]
    simp
  have hpass : ∀ c ∈ plain, (c ≠ '"' && c ≠ '\\') = true := fun c hc => by
    simp [(hplain c hc).2.1, (hplain c hc).2.2]
  rw [List.flatMap_append, hwritten, List.append_assoc]
  unfold textLiteral
  rw [List.dropWhile_append_of_pos hpass, List.takeWhile_append_of_pos hpass]
  cases behind with
  | nil =>
    refine ⟨(place.after plain).skip 1, ?_⟩
    simp only [List.flatMap_nil, List.nil_append, List.append_nil]
    rw [List.dropWhile_cons_of_neg (by decide), List.takeWhile_cons_of_neg (by decide)]
    simp only
    rw [if_neg (by decide), sliceTo_append, List.append_nil]
  | cons c behind =>
    obtain ⟨escape, hescape⟩ := hbehind c rfl
    obtain ⟨place', h⟩ := escapedText_quote (c :: behind) rest plain [] (place.after plain)
    refine ⟨place', ?_⟩
    rw [List.flatMap_cons, hescape] at h ⊢
    simp only [List.cons_append, List.nil_append] at h ⊢
    rw [List.dropWhile_cons_of_neg (by decide), List.takeWhile_cons_of_neg (by decide)]
    simp only [if_true]
    rw [List.append_nil, h]
    simp

/-- One turn of the lexer reads a quoted Text. -/
theorem lexToken_quote (tokens : List Token) (value rest : Text) (place : Place) :
    ∃ place', lexToken tokens '"' (value.flatMap quoteCharacter ++ '"' :: rest) place =
      .ok ([⟨.text, String.ofList value, place.location⟩], rest, place') := by
  obtain ⟨place', h⟩ := textLiteral_quote value rest (place.skip 1)
  refine ⟨place', ?_⟩
  unfold lexToken
  rw [if_neg (by decide), if_neg (fun h => absurd h.1 (by decide)),
    if_neg (fun h => absurd h.1 (by decide)), if_neg (by decide), if_neg (by decide), if_pos rfl, h]

/-- The lexer reads a quoted Text as one literal with that value and the end of the file. -/
theorem tokenize_quoteModuleSource (value : Text) (tokens : List Token) :
    ∃ location, tokenize (quoteModuleSource value) tokens =
      .ok (tokens ++ [⟨.text, String.ofList value, "1, column 1"⟩, ⟨.endOfFile, "", location⟩]) := by
  obtain ⟨place', h⟩ := lexToken_quote tokens value [] Place.start
  refine ⟨place'.location, ?_⟩
  rw [quoteModuleSource_eq, tokenize_eq (by simp [byteOrderMark]), tokenizeRest_cons h,
    tokenizeRest_nil, List.append_assoc]
  rfl

end Minyar

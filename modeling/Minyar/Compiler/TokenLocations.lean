import Minyar.Compiler.Tokenize
import Minyar.Library.Decimal
import Mathlib.Data.List.DropRight

/-!
# The locations of tokens

A source is divided into pieces: blanks, comments and the spellings of tokens.  The location of a token
should be that of the first character of its piece, computed from the characters in front of it.  The
lexer counts lines in several loops of its own; `lexToken_turn` says that all of them agree with a walk
over the characters, and `tokenize_loop` that the loop around them ends for every source.

The two characters of an operator such as `==` are an exception: the location is computed behind the
first one.  `tokenize_exact_iff` says that the locations of all other tokens are exact.
-/

namespace Minyar

/-! ## The division of a source -/

/-- The characters behind a block comment, from behind its beginning. -/
def commentRest : Text → Option Text
  | '*' :: '/' :: rest => some rest
  | _ :: rest => commentRest rest
  | [] => none

/-- The characters behind a Text literal, from behind its opening quote. -/
def quotedRest : Text → Option Text
  | [] => none
  | c :: rest =>
    if c = '"' then some rest
    else match rest with
      | [] => none
      | next :: behind => if c = '\\' then quotedRest behind else quotedRest (next :: behind)

/-- The characters behind a Character literal, from behind its opening quote. -/
def characterRest : Text → Option Text
  | '\\' :: _ :: '\'' :: rest => some rest
  | c :: '\'' :: rest => if c = '\\' then none else some rest
  | _ => none

/-- The characters behind the piece that begins with `c`. -/
def pieceRest (c : Char) (rest : Text) : Option Text :=
  if characterIsWhitespace c then some rest
  else if c = '/' ∧ rest.head? = some '/' then some (rest.dropWhile (· ≠ '\n'))
  else if c = '/' ∧ rest.head? = some '*' then commentRest rest.tail
  else if characterIsLetter c || c = '_' then some (rest.dropWhile characterIsNamePart)
  else if characterIsDigit c then some (rest.dropWhile characterIsDigit)
  else if c = '"' then quotedRest rest
  else if '~' < c then none
  else if c = '\'' then characterRest rest
  else match rest with
    | next :: behind => if isDoubled c next then some behind else some rest
    | [] => some []

/-- The pieces of a source, at most `n` of them. -/
def piecesWithin : ℕ → Text → Option (List Text)
  | _, [] => some []
  | 0, _ :: _ => none
  | n + 1, c :: rest => do
    let behind ← pieceRest c rest
    let pieces ← piecesWithin n behind
    return sliceTo (c :: rest) behind :: pieces

/-- The pieces of a source; a byte-order mark at its beginning is one. -/
def sourcePieces (source : Text) : Option (List Text) :=
  match source with
  | c :: rest =>
    if c = byteOrderMark then (piecesWithin rest.length rest).map ([c] :: ·)
    else piecesWithin source.length source
  | [] => some []

/-- An operator of two characters. -/
def IsDoubledOperator (piece : Text) : Prop := ∃ c next, piece = [c, next] ∧ isDoubled c next = true

/-- A piece between tokens: a blank, the byte-order mark or a comment. -/
def IsBetweenTokens (piece : Text) : Prop :=
  (∃ c, piece = [c] ∧ c ≠ '\n' ∧ (characterIsWhitespace c = true ∨ c = byteOrderMark)) ∨
  (∃ rest, piece = '/' :: '/' :: rest) ∨ (∃ rest, piece = '/' :: '*' :: rest)

/-! ## Exact locations -/

/-- The location behind some characters: one more than the number of newlines, and one more than the
number of characters behind the last of them. -/
def locationBehind (before : Text) : String :=
  sourceLocation (before.count '\n' + 1) ((before.rtakeWhile (· ≠ '\n')).length + 1)

/-- The last token is a name, a literal or a closing bracket. -/
def EndsStatement (tokens : List Token) : Prop :=
  ∃ t, tokens.getLast? = some t ∧ (t.kind = .name ∨ t.kind = .integer ∨ t.kind = .text ∨
    t.kind = .character ∨ t.kind = .punctuation ∧ (t.text = ")" ∨ t.text = "]" ∨ t.text = "\x7d"))

/-- What a piece at a location adds to the tokens in front of it. -/
structure PieceRead (tokens : List Token) (location : String) (piece : Text) (added : List Token) :
    Prop where
  /-- The end of a line ends a statement if it can. -/
  ended : piece = ['\n'] → EndsStatement tokens → added = [⟨.terminator, "end of line", location⟩]
  /-- Otherwise it adds nothing. -/
  unended : piece = ['\n'] → ¬ EndsStatement tokens → added = []
  /-- Nor do blanks and comments. -/
  between : IsBetweenTokens piece → added = []
  /-- Everything else is a token with that location. -/
  token : piece ≠ ['\n'] → ¬ IsBetweenTokens piece → ∃ t, added = [t] ∧ t.location = location ∧
    t.kind ≠ .endOfFile ∧ (t.kind = .terminator → piece = [';'])

/-- The tokens that pieces lead to, the end of the file behind them. -/
def PiecesRead : Text → List Token → List Text → List Token → Prop
  | before, tokens, [], final => final = tokens ++ [⟨.endOfFile, "", locationBehind before⟩]
  | before, tokens, piece :: pieces, final =>
    ∃ added, PieceRead tokens (locationBehind before) piece added ∧
      PiecesRead (before ++ piece) (tokens ++ added) pieces final

/-- The loop of `tokenize` without a bound of its turns: where it ends from a position with the tokens
in front of it, and with what.  A loop that never ends has no derivation. -/
inductive TokenizeLoop : Text → Place → List Token → Except String (List Token) → Prop
  /-- The end of the source. -/
  | done (place : Place) (tokens : List Token) :
      TokenizeLoop [] place tokens (.ok (tokens ++ [⟨.endOfFile, "", place.location⟩]))
  /-- A turn that stops with a diagnostic of the source. -/
  | stop {tokens : List Token} {c : Char} {rest : Text} {place : Place} {message : String}
      (h : lexToken tokens c rest place = .error message) :
      TokenizeLoop (c :: rest) place tokens (.error message)
  /-- A turn that gets ahead, and the turns behind it. -/
  | turn {tokens added : List Token} {c : Char} {rest rest' : Text} {place place' : Place}
      {result : Except String (List Token)}
      (h : lexToken tokens c rest place = .ok (added, rest', place'))
      (behind : TokenizeLoop rest' place' (tokens ++ added) result) :
      TokenizeLoop (c :: rest) place tokens result

/-- Where the loop begins: behind a byte-order mark if there is one. -/
def loopStart : Text → Text × Place
  | [] => ([], Place.start)
  | c :: rest => if c = byteOrderMark then (rest, Place.start.skip 1) else (c :: rest, Place.start)

/-- The lexer ends, and where it succeeds the tokens are those of the pieces of the source at their
exact locations, the last one and no other the end of the file. -/
structure TokenizeExact (source : Text) : Prop where
  /-- The loop ends after finitely many turns, with the tokens or with the diagnostic of a turn. -/
  ends : TokenizeLoop (loopStart source).1 (loopStart source).2 [] (tokenize source [])
  /-- The tokens are those of the pieces. -/
  exact : ∀ tokens, tokenize source [] = .ok tokens →
    ∃ pieces, sourcePieces source = some pieces ∧ pieces.flatten = source ∧
      PiecesRead [] [] pieces tokens
  /-- There is one end of the file. -/
  endOfFile : ∀ tokens, tokenize source [] = .ok tokens →
    ∃ init last, tokens = init ++ [last] ∧ last.kind = .endOfFile ∧ ∀ t ∈ init, t.kind ≠ .endOfFile

/-! ## The loops walk over the characters -/

theorem Place.next_of_ne {c : Char} (h : c ≠ '\n') (place : Place) : place.next c = place.skip 1 := by
  unfold Place.next
  rw [if_neg h]

theorem Place.after_append (place : Place) (passed passed' : Text) :
    place.after (passed ++ passed') = (place.after passed).after passed' := by
  unfold Place.after
  exact List.foldl_append

theorem Place.after_cons (place : Place) (c : Char) (passed : Text) :
    place.after (c :: passed) = (place.next c).after passed := rfl

theorem Place.skip_skip (place : Place) (n m : ℕ) : (place.skip n).skip m = place.skip (n + m) := by
  unfold Place.skip
  rw [Nat.add_assoc]

/-- A walk over characters of one line. -/
theorem Place.after_of_not_mem {passed : Text} (h : '\n' ∉ passed) (place : Place) :
    place.after passed = place.skip passed.length := by
  induction passed generalizing place with
  | nil => rfl
  | cons c passed ih =>
    rw [List.mem_cons, not_or] at h
    rw [Place.after_cons, Place.next_of_ne (Ne.symm h.1), ih h.2, Place.skip_skip, List.length_cons,
      Nat.add_comm]

/-- An escape is a walk over its two characters. -/
theorem Place.escape_eq (place : Place) (c : Char) : place.escape c = place.after ['\\', c] := by
  rw [Place.after_cons, Place.next_of_ne (by decide), Place.after_cons]
  unfold Place.escape Place.next Place.newline Place.skip Place.after
  split_ifs <;> rfl

/-- A block comment. -/
theorem blockComment_eq_some {text rest : Text} {place place' : Place}
    (h : blockComment text place = some (rest, place')) :
    ∃ passed, text = passed ++ rest ∧ place' = place.after passed := by
  fun_induction blockComment text place with
  | case1 behind place =>
    cases h
    exact ⟨['*', '/'], rfl, rfl⟩
  | case2 c behind place hne ih =>
    obtain ⟨passed, hbehind, hplace⟩ := ih h
    exact ⟨c :: passed, by rw [hbehind]; rfl, hplace⟩
  | case3 => cases h

/-- A Text literal from its first backslash on. -/
theorem escapedText_eq_some {chunk text : Text} {pieces : List Text} {place : Place}
    {lexed : Lexed} (h : escapedText chunk pieces text place = some lexed) :
    ∃ passed, text = passed ++ lexed.rest ∧ lexed.place = place.after passed := by
  fun_induction escapedText chunk pieces text place with
  | case1 => cases h
  | case2 chunk pieces rest place =>
    cases h
    exact ⟨['"'], rfl, rfl⟩
  | case3 => cases h
  | case4 chunk pieces place escape rest hquote ih =>
    obtain ⟨passed, htext, hplace⟩ := ih h
    refine ⟨'\\' :: escape :: passed, by rw [htext]; rfl, ?_⟩
    rw [hplace, Place.escape_eq, ← Place.after_append]
    rfl
  | case5 chunk pieces c place escape rest hquote hslash ih =>
    obtain ⟨passed, htext, hplace⟩ := ih h
    exact ⟨c :: passed, by rw [htext]; rfl, hplace⟩

/-- A Text literal from behind its opening quote. -/
theorem textLiteral_eq_some {chunk : Text} {place : Place} {lexed : Lexed}
    (h : textLiteral chunk place = some lexed) :
    ∃ passed, chunk = passed ++ lexed.rest ∧ lexed.place = place.after passed := by
  have hsplit := (List.takeWhile_append_dropWhile
    (p := fun c => c ≠ '"' && c ≠ '\\') (l := chunk)).symm
  unfold textLiteral at h
  simp only at h
  split at h
  · cases h
  · next c rest heq =>
    rw [heq] at hsplit
    split_ifs at h with hslash
    · obtain ⟨passed, htext, hplace⟩ := escapedText_eq_some h
      refine ⟨chunk.takeWhile (fun c => c ≠ '"' && c ≠ '\\') ++ passed, ?_, ?_⟩
      · rw [List.append_assoc, ← htext]
        exact hsplit
      · rw [hplace, Place.after_append]
    · cases h
      have hquote : c = '"' := by
        have hnot := List.head?_dropWhile_not (fun c => c ≠ '"' && c ≠ '\\') chunk
        rw [heq] at hnot
        simpa [hslash] using hnot
      refine ⟨chunk.takeWhile (fun c => c ≠ '"' && c ≠ '\\') ++ [c], ?_, ?_⟩
      · rw [List.append_assoc]
        exact hsplit
      · rw [Place.after_append, hquote]
        rfl

/-- A Character literal from behind its opening quote. -/
theorem characterLiteral_eq_ok {text : Text} {place : Place} {lexed : Lexed}
    (h : characterLiteral text place = .ok lexed) :
    ∃ passed, text = passed ++ lexed.rest ∧ lexed.place = place.after passed := by
  unfold characterLiteral at h
  split at h
  · cases h
  · cases h
  · next escape rest =>
    cases h
    exact ⟨['\\', escape, '\''], rfl, rfl⟩
  · next value rest _ =>
    split_ifs at h
    cases h
    exact ⟨[value, '\''], rfl, rfl⟩
  · cases h

/-! ## Where pieces end -/

/-- A block comment ends where the division says. -/
theorem blockComment_rest (text : Text) (place : Place) :
    (blockComment text place).map Prod.fst = commentRest text := by
  fun_induction blockComment text place with
  | case1 behind place => rfl
  | case2 c behind place hne ih =>
    rw [ih]
    conv_rhs => unfold commentRest
    split
    · next heq =>
      simp only [List.cons.injEq] at heq
      exact absurd heq.2 (hne _ heq.1)
    · next heq =>
      simp only [List.cons.injEq] at heq
      rw [heq.2]
    · next heq => cases heq
  | case3 => rfl

theorem quotedRest_quote (rest : Text) : quotedRest ('"' :: rest) = some rest := by
  rw [quotedRest.eq_def]
  exact if_pos rfl

theorem quotedRest_singleton {c : Char} (h : c ≠ '"') : quotedRest [c] = none := by
  rw [quotedRest.eq_def]
  exact if_neg h

theorem quotedRest_cons {c : Char} (h : c ≠ '"') (next : Char) (behind : Text) :
    quotedRest (c :: next :: behind) =
      if c = '\\' then quotedRest behind else quotedRest (next :: behind) := by
  rw [quotedRest.eq_def]
  exact if_neg h

/-- So does a Text literal with a backslash. -/
theorem escapedText_rest (chunk : Text) (pieces : List Text) (text : Text) (place : Place) :
    (escapedText chunk pieces text place).map Lexed.rest = quotedRest text := by
  fun_induction escapedText chunk pieces text place with
  | case1 => rfl
  | case2 chunk pieces rest place => exact (quotedRest_quote rest).symm
  | case3 chunk pieces c place hquote => exact (quotedRest_singleton hquote).symm
  | case4 chunk pieces place escape rest hquote ih =>
    rw [ih, quotedRest_cons hquote, if_pos rfl]
  | case5 chunk pieces c place hquote escape rest hslash ih =>
    rw [ih, quotedRest_cons hquote, if_neg hslash]

/-- The characters of a Text literal before its end or its first escape do not matter. -/
theorem quotedRest_dropWhile (text : Text) :
    quotedRest (text.dropWhile fun c => c ≠ '"' && c ≠ '\\') = quotedRest text := by
  induction text with
  | nil => rfl
  | cons c text ih =>
    rw [List.dropWhile_cons]
    split_ifs with hplain
    · rw [Bool.and_eq_true, decide_eq_true_iff, decide_eq_true_iff] at hplain
      rw [ih]
      cases text with
      | nil => rw [quotedRest_singleton hplain.1, quotedRest]
      | cons next behind => rw [quotedRest_cons hplain.1, if_neg hplain.2]
    · rfl

/-- So does every Text literal. -/
theorem textLiteral_rest (chunk : Text) (place : Place) :
    (textLiteral chunk place).map Lexed.rest = quotedRest chunk := by
  have hhead := List.head?_dropWhile_not (fun c => c ≠ '"' && c ≠ '\\') chunk
  rw [← quotedRest_dropWhile]
  unfold textLiteral
  simp only
  split
  · next heq =>
    rw [heq]
    rfl
  · next c rest heq =>
    rw [heq] at hhead ⊢
    split_ifs with hslash
    · exact escapedText_rest _ _ _ _
    · have hquote : c = '"' := by simpa [hslash] using hhead
      rw [hquote, quotedRest_quote]
      rfl

/-- So does a Character literal. -/
theorem characterLiteral_rest (text : Text) (place : Place) :
    (characterLiteral text place).toOption.map Lexed.rest = characterRest text := by
  fun_cases characterLiteral text place with
  | case1 => rfl
  | case2 => rfl
  | case3 => rfl
  | case4 place rest hne =>
    unfold characterRest
    split
    · next heq =>
      simp only [List.cons.injEq, true_and] at heq
      exact (hne _ rfl heq.2).elim
    · next heq =>
      simp only [List.cons.injEq, true_and] at heq
      rw [if_pos heq.1.symm]
      rfl
    · rfl
  | case5 place value rest hne hslash =>
    unfold characterRest
    split
    · next heq =>
      simp only [List.cons.injEq] at heq
      exact absurd heq.1 hslash
    · next heq =>
      simp only [List.cons.injEq, true_and] at heq
      rw [if_neg (heq.1 ▸ hslash), heq.2]
      rfl
    · next hnone => exact (hnone _ _ rfl).elim
  | case6 text place hnil hslash hescape hvalue =>
    unfold characterRest
    split
    · exact (hescape _ _ rfl).elim
    · exact (hvalue _ _ rfl).elim
    · rfl

/-- A turn of the lexer ends where the division says. -/
theorem lexToken_rest (tokens : List Token) (c : Char) (rest : Text) (place : Place) :
    (lexToken tokens c rest place).toOption.map (fun result => result.2.1) = pieceRest c rest := by
  unfold lexToken pieceRest
  split_ifs with hspace hend hline hblock hname hdigit hquote hascii hcharacter
  · rfl
  · rfl
  · rfl
  · rw [← blockComment_rest rest.tail (place.skip 2)]
    cases blockComment rest.tail (place.skip 2) <;> rfl
  · rfl
  · rfl
  · rw [← textLiteral_rest rest (place.skip 1)]
    cases textLiteral rest (place.skip 1) <;> rfl
  · rfl
  · rw [← characterLiteral_rest rest (place.skip 1)]
    cases characterLiteral rest (place.skip 1) <;> rfl
  · unfold punctuation
    cases rest with
    | nil => rfl
    | cons next behind =>
      simp only
      split_ifs <;> rfl

/-! ## What a turn reads -/

theorem lineCanEndStatement_iff (tokens : List Token) :
    lineCanEndStatement tokens = true ↔ EndsStatement tokens := by
  unfold lineCanEndStatement EndsStatement
  cases tokens.getLast? with
  | none => simp
  | some last => cases hkind : last.kind <;> simp [hkind, or_assoc]

theorem not_isBetweenTokens_newline : ¬ IsBetweenTokens ['\n'] := by
  rintro (⟨c, hpiece, hne, -⟩ | ⟨rest, hpiece⟩ | ⟨rest, hpiece⟩)
  · exact hne (List.cons.inj hpiece).1.symm
  · exact absurd (List.cons.inj hpiece).1 (by decide)
  · exact absurd (List.cons.inj hpiece).1 (by decide)

/-- The spelling of a token is no blank and no comment. -/
theorem not_isBetweenTokens {c : Char} {tail : Text} (hspace : characterIsWhitespace c = false)
    (hmark : c ≠ byteOrderMark) (hslash : c = '/' → tail = []) : ¬ IsBetweenTokens (c :: tail) := by
  rintro (⟨d, hpiece, -, hd⟩ | ⟨rest, hpiece⟩ | ⟨rest, hpiece⟩)
  · obtain ⟨rfl, -⟩ := List.cons.inj hpiece
    rcases hd with hd | hd
    · rw [hspace] at hd
      cases hd
    · exact hmark hd
  · obtain ⟨rfl, htail⟩ := List.cons.inj hpiece
    rw [hslash rfl] at htail
    cases htail
  · obtain ⟨rfl, htail⟩ := List.cons.inj hpiece
    rw [hslash rfl] at htail
    cases htail

/-- A piece that is a token. -/
theorem PieceRead.ofToken {tokens : List Token} {c : Char} {tail : Text} {t : Token}
    (hspace : characterIsWhitespace c = false) (hbetween : ¬ IsBetweenTokens (c :: tail))
    (hkind : t.kind ≠ .endOfFile) (hterminator : t.kind = .terminator → c :: tail = [';']) :
    PieceRead tokens t.location (c :: tail) [t] := by
  have hnewline : c :: tail ≠ ['\n'] := fun h => by
    rw [(List.cons.inj h).1] at hspace
    exact absurd hspace (by decide)
  exact ⟨fun h => absurd h hnewline, fun h => absurd h hnewline, fun h => absurd h hbetween,
    fun _ _ => ⟨t, rfl, rfl, hkind, hterminator⟩⟩

/-- A piece between tokens. -/
theorem PieceRead.ofBetween {tokens : List Token} {location : String} {piece : Text}
    (h : IsBetweenTokens piece) : PieceRead tokens location piece [] := by
  have hnewline : piece ≠ ['\n'] := fun heq => not_isBetweenTokens_newline (heq ▸ h)
  exact ⟨fun heq => absurd heq hnewline, fun heq => absurd heq hnewline, fun _ => rfl,
    fun _ hnot => absurd h hnot⟩

/-- Only some characters begin an operator of two. -/
theorem isDoubled_first {c next : Char} (h : isDoubled c next = true) :
    c ∈ ['=', '!', '<', '>', '&', '|'] := by
  unfold isDoubled at h
  simp only [List.mem_cons, List.not_mem_nil, or_false]
  split_ifs at h
  · simp only [Bool.or_eq_true, decide_eq_true_iff] at h
    tauto
  · simp only [Bool.or_eq_true, Bool.and_eq_true, decide_eq_true_iff] at h
    rcases h with ⟨rfl, -⟩ | ⟨rfl, -⟩ <;> simp

/-- What a turn of the lexer at `c` reads: a piece, the place behind it and what it adds. -/
structure TurnReads (tokens : List Token) (c : Char) (rest : Text) (place : Place)
    (added : List Token) (rest' : Text) (place' : Place) (piece : Text) : Prop where
  /-- The piece is in front of what is left. -/
  source : c :: rest = piece ++ rest'
  /-- There is one. -/
  nonempty : piece ≠ []
  /-- The place is that of a walk over the piece. -/
  walk : place' = place.after piece
  /-- An operator of two characters has the location of the second one. -/
  doubled : IsDoubledOperator piece → ∃ t, added = [t] ∧ t.kind = .punctuation ∧
    t.location = (place.skip 1).location
  /-- Every other piece is read at its place. -/
  single : ¬ IsDoubledOperator piece → PieceRead tokens place.location piece added

/-- A turn that reads a piece between tokens. -/
theorem TurnReads.ofBetween {tokens : List Token} {c : Char} {rest rest' piece : Text}
    {place place' : Place} (hsource : c :: rest = piece ++ rest') (hne : piece ≠ [])
    (hwalk : place' = place.after piece) (hbetween : IsBetweenTokens piece)
    (hdoubled : ¬ IsDoubledOperator piece) :
    TurnReads tokens c rest place [] rest' place' piece :=
  ⟨hsource, hne, hwalk, fun h => absurd h hdoubled, fun _ => .ofBetween hbetween⟩

/-- A turn that reads a token which is no operator of two characters. -/
theorem TurnReads.ofToken {tokens : List Token} {c : Char} {rest rest' tail : Text}
    {place place' : Place} {t : Token} (hsource : rest = tail ++ rest')
    (hwalk : place' = place.after (c :: tail)) (hspace : characterIsWhitespace c = false)
    (hmark : c ≠ byteOrderMark) (hslash : c = '/' → tail = [])
    (hdoubled : ¬ IsDoubledOperator (c :: tail)) (hlocation : t.location = place.location)
    (hkind : t.kind ≠ .endOfFile) (hterminator : t.kind = .terminator → c :: tail = [';']) :
    TurnReads tokens c rest place [t] rest' place' (c :: tail) :=
  ⟨by rw [hsource]; rfl, List.cons_ne_nil _ _, hwalk, fun h => absurd h hdoubled, fun _ =>
    hlocation ▸ .ofToken hspace (not_isBetweenTokens hspace hmark hslash) hkind hterminator⟩

theorem not_isDoubledOperator {c : Char} (h : c ∉ ['=', '!', '<', '>', '&', '|']) (tail : Text) :
    ¬ IsDoubledOperator (c :: tail) := by
  rintro ⟨d, next, hpiece, hdoubled⟩
  exact h ((List.cons.inj hpiece).1 ▸ isDoubled_first hdoubled)

theorem not_isDoubledOperator_singleton (c : Char) : ¬ IsDoubledOperator [c] := by
  rintro ⟨d, next, hpiece, -⟩
  cases hpiece

/-- Names and numbers begin with no operator and do not contain ends of lines. -/
theorem not_mem_of_isNamePart {c : Char} (h : characterIsNamePart c = true) :
    c ∉ ['=', '!', '<', '>', '&', '|', '/', ';', '\n', byteOrderMark] := by
  intro hmem
  simp only [List.mem_cons, List.not_mem_nil, or_false] at hmem
  rcases hmem with rfl | rfl | rfl | rfl | rfl | rfl | rfl | rfl | rfl | rfl <;>
    exact absurd h (by decide)

/-- A turn that reads a name or a number. -/
theorem TurnReads.ofNameParts {tokens : List Token} {c : Char} {rest : Text} {place : Place}
    {t : Token} {p : Char → Bool} (hp : ∀ d, p d = true → characterIsNamePart d = true)
    (hc : characterIsNamePart c = true) (hspace : characterIsWhitespace c = false)
    (hlocation : t.location = place.location) (hkind : t.kind = .name ∨ t.kind = .integer) :
    TurnReads tokens c rest place [t] (rest.dropWhile p)
      (place.skip (c :: rest.takeWhile p).length) (c :: rest.takeWhile p) := by
  have hfirst := not_mem_of_isNamePart hc
  have hline : '\n' ∉ c :: rest.takeWhile p := by
    rw [List.mem_cons, not_or]
    refine ⟨fun h => hfirst (h ▸ by simp), fun hmem => ?_⟩
    exact not_mem_of_isNamePart (hp _ (List.mem_takeWhile_imp hmem)) (by simp)
  refine .ofToken List.takeWhile_append_dropWhile.symm (Place.after_of_not_mem hline place).symm
    hspace (fun h => hfirst (h ▸ by simp)) (fun h => absurd (h ▸ by simp) hfirst)
    (not_isDoubledOperator (fun h => hfirst (by simp at h ⊢; tauto)) _) hlocation ?_ ?_
  · rcases hkind with h | h <;> rw [h] <;> decide
  · intro hterminator
    rcases hkind with h | h <;> rw [h] at hterminator <;> cases hterminator

/-- A turn that reads an operator or another punctuation character. -/
theorem punctuation_turn (tokens : List Token) {c : Char} {rest : Text} (place : Place)
    (hspace : characterIsWhitespace c = false) (hmark : c ≠ byteOrderMark) :
    ∃ piece, TurnReads tokens c rest place (punctuation c rest place).1
      (punctuation c rest place).2.1 (punctuation c rest place).2.2 piece := by
  have hnewline : c ≠ '\n' := fun h => by
    rw [h] at hspace
    exact absurd hspace (by decide)
  have hsingle : TurnReads tokens c rest place
      [⟨punctuationKind c, String.singleton c, place.location⟩] rest (place.skip 1) [c] := by
    refine .ofToken rfl (Place.next_of_ne hnewline place).symm hspace hmark (fun _ => rfl)
      (not_isDoubledOperator_singleton c) rfl ?_ ?_
    · unfold punctuationKind
      split_ifs <;> simp
    · unfold punctuationKind
      split_ifs with hsemicolon
      · exact fun _ => by rw [hsemicolon]
      · exact fun h => by cases h
  unfold punctuation
  cases rest with
  | nil => exact ⟨[c], hsingle⟩
  | cons next behind =>
    simp only
    split_ifs with hdoubled
    · refine ⟨[c, next], rfl, List.cons_ne_nil _ _, ?_, fun _ => ⟨_, rfl, rfl, rfl⟩, fun h => ?_⟩
      · have hnext : next ≠ '\n' := by
          rintro rfl
          simp [isDoubled] at hdoubled
        rw [Place.after_cons, Place.after_cons, Place.next_of_ne hnewline, Place.next_of_ne hnext]
        rfl
      · exact absurd ⟨c, next, rfl, hdoubled⟩ h
    · exact ⟨[c], hsingle⟩

/-- A turn that reads a comment. -/
theorem TurnReads.ofComment {tokens : List Token} {next : Char} {rest rest' tail : Text}
    {place place' : Place} (hnext : next = '/' ∨ next = '*') (hsource : rest = next :: tail ++ rest')
    (hwalk : place' = place.after ('/' :: next :: tail)) :
    TurnReads tokens '/' rest place [] rest' place' ('/' :: next :: tail) := by
  refine .ofBetween (by rw [hsource]; rfl) (List.cons_ne_nil _ _) hwalk ?_
    (not_isDoubledOperator (by decide) (next :: tail))
  rcases hnext with rfl | rfl
  · exact Or.inr (Or.inl ⟨tail, rfl⟩)
  · exact Or.inr (Or.inr ⟨tail, rfl⟩)

theorem exists_cons_of_head {rest : Text} {d : Char} (h : rest.head? = some d) :
    ∃ tail, rest = d :: tail := by
  cases rest with
  | nil => cases h
  | cons e tail => exact ⟨tail, by rw [Option.some.inj h]⟩

/-- Every turn of the lexer that succeeds reads a piece. -/
theorem lexToken_turn {tokens added : List Token} {c : Char} {rest rest' : Text}
    {place place' : Place} (h : lexToken tokens c rest place = .ok (added, rest', place')) :
    ∃ piece, TurnReads tokens c rest place added rest' place' piece := by
  unfold lexToken at h
  simp only at h
  split_ifs at h with hspace hend hline hblock hname hdigit hquote hascii hcharacter
  · -- The end of a line that ends a statement.
    cases h
    obtain ⟨rfl, hcan⟩ := hend
    refine ⟨['\n'], rfl, List.cons_ne_nil _ _, rfl, fun hdoubled => ?_, fun _ => ?_⟩
    · exact absurd hdoubled (not_isDoubledOperator_singleton _)
    · exact ⟨fun _ _ => rfl, fun _ hnot => absurd ((lineCanEndStatement_iff tokens).mp hcan) hnot,
        fun hbetween => absurd hbetween not_isBetweenTokens_newline, fun hne => absurd rfl hne⟩
  · -- A blank, or the end of a line that ends none.
    cases h
    refine ⟨[c], rfl, List.cons_ne_nil _ _, rfl, fun hdoubled => ?_, fun _ => ?_⟩
    · exact absurd hdoubled (not_isDoubledOperator_singleton _)
    · by_cases hnewline : c = '\n'
      · obtain rfl := hnewline
        have hcannot : ¬ EndsStatement tokens := fun hends =>
          hend ⟨rfl, (lineCanEndStatement_iff tokens).mpr hends⟩
        exact ⟨fun _ hends => absurd hends hcannot, fun _ _ => rfl,
          fun hbetween => absurd hbetween not_isBetweenTokens_newline, fun hne => absurd rfl hne⟩
      · exact .ofBetween (Or.inl ⟨c, rfl, hnewline, Or.inl hspace⟩)
  · -- A comment up to the end of its line.
    cases h
    obtain ⟨rfl, hhead⟩ := hline
    obtain ⟨tail, rfl⟩ := exists_cons_of_head hhead
    have hdrop : ('/' :: tail).dropWhile (· ≠ '\n') = tail.dropWhile (· ≠ '\n') :=
      List.dropWhile_cons_of_pos (by decide)
    have htake : ('/' :: tail).takeWhile (· ≠ '\n') = '/' :: tail.takeWhile (· ≠ '\n') :=
      List.takeWhile_cons_of_pos (by decide)
    have hline : '\n' ∉ '/' :: '/' :: tail.takeWhile (· ≠ '\n') := by
      simp only [List.mem_cons, not_or]
      refine ⟨by decide, by decide, fun hmem => ?_⟩
      exact absurd (List.mem_takeWhile_imp hmem) (by decide)
    rw [hdrop, htake]
    refine ⟨'/' :: '/' :: tail.takeWhile (· ≠ '\n'), .ofComment (Or.inl rfl) ?_ ?_⟩
    · rw [List.cons_append, List.takeWhile_append_dropWhile]
    · rw [Place.after_of_not_mem hline, List.length_cons, List.length_cons, List.length_cons,
        Nat.add_comm 1]
  · -- A block comment.
    obtain ⟨rfl, hhead⟩ := hblock
    obtain ⟨tail, rfl⟩ := exists_cons_of_head hhead
    split at h
    · cases h
    · next behind after hcomment =>
      cases h
      obtain ⟨passed, htail, hplace⟩ := blockComment_eq_some hcomment
      have hsource := congrArg ('*' :: ·) htail
      refine ⟨_, .ofComment (Or.inr rfl) hsource ?_⟩
      rw [hplace]
      rfl
  · -- A name.
    cases h
    refine ⟨_, .ofNameParts (fun _ hd => hd) ?_ (by simpa using hspace) rfl (Or.inl rfl)⟩
    unfold characterIsNamePart
    rw [Bool.or_eq_true, decide_eq_true_iff] at hname
    rcases hname with hletter | hunderscore
    · rw [hletter]
      rfl
    · rw [hunderscore]
      rfl
  · -- A number.
    have hpart : ∀ d, characterIsDigit d = true → characterIsNamePart d = true := fun d hd => by
      unfold characterIsNamePart
      rw [hd, Bool.or_true, Bool.true_or]
    cases h
    exact ⟨_, .ofNameParts hpart (hpart c hdigit) (by simpa using hspace) rfl (Or.inr rfl)⟩
  · -- A Text literal.
    split at h
    · cases h
    · next lexed hlexed =>
      cases h
      obtain ⟨passed, hrest, hplace⟩ := textLiteral_eq_some hlexed
      have hwalk : lexed.place = place.after ('"' :: passed) := hplace
      obtain rfl := hquote
      exact ⟨_, .ofToken hrest hwalk (by decide) (by decide) (fun h => absurd h (by decide))
        (not_isDoubledOperator (by decide) _) rfl (by simp) (fun h => by cases h)⟩
  · -- A Character literal.
    split at h
    · cases h
    · next lexed hlexed =>
      cases h
      obtain ⟨passed, hrest, hplace⟩ := characterLiteral_eq_ok hlexed
      have hwalk : lexed.place = place.after ('\'' :: passed) := hplace
      obtain rfl := hcharacter
      exact ⟨_, .ofToken hrest hwalk (by decide) (by decide) (fun h => absurd h (by decide))
        (not_isDoubledOperator (by decide) _) rfl (by simp) (fun h => by cases h)⟩
  · -- An operator or another punctuation character.
    have hmark : c ≠ byteOrderMark := fun hc => hascii (hc ▸ by decide)
    obtain ⟨piece, hturn⟩ := punctuation_turn tokens place (by simpa using hspace) hmark
    have hresult := Except.ok.inj h
    rw [hresult] at hturn
    exact ⟨piece, hturn⟩

/-! ## Places and locations -/

/-- A place is behind some characters of the source. -/
structure Place.At (place : Place) (before : Text) : Prop where
  /-- The position is their number. -/
  position : place.position = before.length
  /-- The line is one more than the number of newlines. -/
  line : place.line = before.count '\n' + 1
  /-- The line begins behind the last newline. -/
  lineStart : place.lineStart + (before.rtakeWhile (· ≠ '\n')).length = before.length

theorem Place.at_start : Place.start.At [] := ⟨rfl, rfl, rfl⟩

theorem Place.At.next {place : Place} {before : Text} (h : place.At before) (c : Char) :
    (place.next c).At (before ++ [c]) := by
  have hposition := h.position
  have hline := h.line
  have hstart := h.lineStart
  by_cases hc : c = '\n'
  · obtain rfl := hc
    have hnext : place.next '\n' = ⟨place.position + 1, place.line + 1, place.position + 1⟩ := rfl
    rw [hnext]
    refine ⟨?_, ?_, ?_⟩
    · simp [hposition]
    · simp [hline]
    · rw [List.rtakeWhile_concat_neg _ _ _ (by decide)]
      simp [hposition]
  · rw [Place.next_of_ne hc]
    refine ⟨?_, ?_, ?_⟩
    · simp [Place.skip, hposition]
    · simp [Place.skip, hline, hc]
    · rw [List.rtakeWhile_concat_pos _ _ _ (by simpa using hc)]
      simp only [Place.skip, List.length_append, List.length_singleton]
      omega

/-- A walk over some characters leads behind them. -/
theorem Place.At.after {place : Place} {before : Text} (h : place.At before) (passed : Text) :
    (place.after passed).At (before ++ passed) := by
  induction passed generalizing place before with
  | nil =>
    rw [List.append_nil]
    exact h
  | cons c passed ih =>
    have hrest := ih (h.next c)
    rw [List.append_assoc, List.singleton_append] at hrest
    exact hrest

/-- The location at a place is that behind the characters. -/
theorem Place.At.location {place : Place} {before : Text} (h : place.At before) :
    place.location = locationBehind before := by
  have hposition := h.position
  have hstart := h.lineStart
  unfold Place.location locationBehind
  rw [h.line, show place.position - place.lineStart = (before.rtakeWhile (· ≠ '\n')).length by omega]

/-- The location computed behind another character is another one. -/
theorem Place.At.location_skip_ne {place : Place} {before : Text} (h : place.At before) :
    (place.skip 1).location ≠ locationBehind before := by
  have hposition := h.position
  have hstart := h.lineStart
  rw [← h.location]
  intro heq
  unfold Place.location sourceLocation Place.skip at heq
  have hcolumn := toDigits_injective (List.append_cancel_left (String.ofList_injective heq))
  simp only at hcolumn
  omega

/-! ## Runs -/

theorem PiecesRead.exists_append {before : Text} {tokens final : List Token} {pieces : List Text}
    (h : PiecesRead before tokens pieces final) : ∃ added, final = tokens ++ added := by
  induction pieces generalizing before tokens with
  | nil => exact ⟨_, h⟩
  | cons piece pieces ih =>
    obtain ⟨added, -, hrest⟩ := h
    obtain ⟨behind, hbehind⟩ := ih hrest
    exact ⟨added ++ behind, by rw [hbehind, List.append_assoc]⟩

/-- A piece adds as many tokens wherever it is. -/
theorem PieceRead.length_eq {tokens added added' : List Token} {location location' : String}
    {piece : Text} (h : PieceRead tokens location piece added)
    (h' : PieceRead tokens location' piece added') : added.length = added'.length := by
  by_cases hnewline : piece = ['\n']
  · by_cases hends : EndsStatement tokens
    · rw [h.ended hnewline hends, h'.ended hnewline hends]
      rfl
    · rw [h.unended hnewline hends, h'.unended hnewline hends]
  · by_cases hbetween : IsBetweenTokens piece
    · rw [h.between hbetween, h'.between hbetween]
    · obtain ⟨t, rfl, -⟩ := h.token hnewline hbetween
      obtain ⟨t', rfl, -⟩ := h'.token hnewline hbetween
      rfl

/-- The end of the file is none of the added tokens. -/
theorem PieceRead.kind_ne {tokens added : List Token} {location : String} {piece : Text}
    (h : PieceRead tokens location piece added) : ∀ t ∈ added, t.kind ≠ .endOfFile := by
  by_cases hnewline : piece = ['\n']
  · by_cases hends : EndsStatement tokens
    · rw [h.ended hnewline hends]
      simp
    · rw [h.unended hnewline hends]
      simp
  · by_cases hbetween : IsBetweenTokens piece
    · rw [h.between hbetween]
      simp
    · obtain ⟨t, rfl, -, hkind, -⟩ := h.token hnewline hbetween
      simpa using hkind

/-- An operator of two characters is a token. -/
theorem IsDoubledOperator.token {piece : Text} (h : IsDoubledOperator piece) :
    piece ≠ ['\n'] ∧ ¬ IsBetweenTokens piece := by
  obtain ⟨c, next, rfl, hdoubled⟩ := h
  have hfirst := isDoubled_first hdoubled
  refine ⟨by simp, ?_⟩
  rintro (⟨d, hpiece, -⟩ | ⟨rest, hpiece⟩ | ⟨rest, hpiece⟩)
  · cases hpiece
  · exact absurd ((List.cons.inj hpiece).1 ▸ hfirst) (by decide)
  · exact absurd ((List.cons.inj hpiece).1 ▸ hfirst) (by decide)

theorem TurnReads.kind_ne {tokens added : List Token} {c : Char} {rest rest' piece : Text}
    {place place' : Place} (h : TurnReads tokens c rest place added rest' place' piece) :
    ∀ t ∈ added, t.kind ≠ .endOfFile := by
  by_cases hdoubled : IsDoubledOperator piece
  · obtain ⟨t, rfl, hkind, -⟩ := h.doubled hdoubled
    simp [hkind]
  · exact (h.single hdoubled).kind_ne

/-- Where a turn adds what its piece should add, the piece is no operator of two characters. -/
theorem TurnReads.exact_iff {tokens added final : List Token} {c : Char} {rest rest' piece : Text}
    {pieces : List Text} {place place' : Place} {before : Text}
    (h : TurnReads tokens c rest place added rest' place' piece) (hat : place.At before)
    (hfinal : ∃ more, final = tokens ++ added ++ more) :
    PiecesRead before tokens (piece :: pieces) final ↔
      ¬ IsDoubledOperator piece ∧ PiecesRead (before ++ piece) (tokens ++ added) pieces final := by
  constructor
  · rintro ⟨added', hread, hrest⟩
    have hsame : added.length = added'.length → added = added' := fun hlength => by
      obtain ⟨more, hmore⟩ := hfinal
      obtain ⟨more', hmore'⟩ := hrest.exists_append
      rw [hmore', List.append_assoc, List.append_assoc, List.append_cancel_left_eq] at hmore
      exact (List.append_inj_left hmore hlength.symm).symm
    by_cases hdoubled : IsDoubledOperator piece
    · obtain ⟨t, rfl, -, hlocation⟩ := h.doubled hdoubled
      obtain ⟨t', rfl, hlocation', -⟩ := hread.token hdoubled.token.1 hdoubled.token.2
      obtain rfl := (List.cons.inj (hsame rfl)).1
      exact absurd (hlocation.symm.trans hlocation') hat.location_skip_ne
    · obtain rfl := hsame ((h.single hdoubled).length_eq hread)
      exact ⟨hdoubled, hrest⟩
  · rintro ⟨hdoubled, hrest⟩
    exact ⟨added, hat.location ▸ h.single hdoubled, hrest⟩

/-- What the loop does with a source and its pieces. -/
theorem tokenizeFrom_pieces {n : ℕ} {text : Text} (hn : text.length ≤ n) {place : Place}
    {before : Text} (hat : place.At before) (tokens : List Token) :
    (piecesWithin n text = none ∧ ∃ message, tokenizeFrom n text place tokens = .error message) ∨
    ∃ pieces added, piecesWithin n text = some pieces ∧ pieces.flatten = text ∧
      tokenizeFrom n text place tokens =
        .ok (tokens ++ added ++ [⟨.endOfFile, "", locationBehind (before ++ text)⟩]) ∧
      (∀ t ∈ added, t.kind ≠ .endOfFile) ∧
      (PiecesRead before tokens pieces
          (tokens ++ added ++ [⟨.endOfFile, "", locationBehind (before ++ text)⟩]) ↔
        ∀ piece ∈ pieces, ¬ IsDoubledOperator piece) := by
  induction n generalizing text place before tokens with
  | zero =>
    rw [List.length_eq_zero_iff.mp (Nat.le_zero.mp hn)]
    refine Or.inr ⟨[], [], by rw [piecesWithin], rfl, ?_, by simp, ?_⟩
    · rw [tokenizeFrom, hat.location, List.append_nil, List.append_nil]
    · simp [PiecesRead]
  | succ n ih =>
    cases text with
    | nil =>
      refine Or.inr ⟨[], [], by rw [piecesWithin], rfl, ?_, by simp, ?_⟩
      · rw [tokenizeFrom, hat.location, List.append_nil, List.append_nil]
      · simp [PiecesRead]
    | cons c rest =>
      have hpiece := lexToken_rest tokens c rest place
      rw [piecesWithin, tokenizeFrom, ← hpiece]
      cases hlex : lexToken tokens c rest place with
      | error message => exact Or.inl ⟨rfl, message, rfl⟩
      | ok result =>
        obtain ⟨added, rest', place'⟩ := result
        obtain ⟨piece, hturn⟩ := lexToken_turn hlex
        have hlength := lexToken_length hlex
        rw [List.length_cons] at hn
        have hat' := hat.after piece
        rw [← hturn.walk] at hat'
        have hslice : sliceTo (c :: rest) rest' = piece := by rw [hturn.source, sliceTo_append]
        rcases ih (show rest'.length ≤ n by omega) hat' (tokens ++ added) with
          ⟨hnone, message, herror⟩ | ⟨pieces, behind, hsome, hflatten, hok, hkind, hread⟩
        · exact Or.inl ⟨by simp [Except.toOption, hnone], message, herror⟩
        · have hbehind : before ++ piece ++ rest' = before ++ c :: rest := by
            rw [hturn.source, List.append_assoc]
          have hassoc : tokens ++ added ++ behind = tokens ++ (added ++ behind) :=
            List.append_assoc _ _ _
          rw [hbehind, hassoc] at hok hread
          refine Or.inr ⟨piece :: pieces, added ++ behind, ?_, ?_, hok, ?_, ?_⟩
          · simp [Except.toOption, hsome, hslice]
          · rw [List.flatten_cons, hflatten, hturn.source]
          · intro t ht
            rcases List.mem_append.mp ht with ht | ht
            · exact hturn.kind_ne t ht
            · exact hkind t ht
          · rw [hturn.exact_iff hat ⟨behind ++ [⟨.endOfFile, "", locationBehind (before ++ c :: rest)⟩],
              by simp⟩, hread, List.forall_mem_cons]

/-! ## Whole sources -/

theorem Place.at_mark : (Place.start.skip 1).At [byteOrderMark] := ⟨rfl, rfl, rfl⟩

/-- A byte-order mark adds nothing. -/
theorem piecesRead_mark (pieces : List Text) (final : List Token) :
    PiecesRead [] [] ([byteOrderMark] :: pieces) final ↔
      PiecesRead [byteOrderMark] [] pieces final := by
  have hbetween : IsBetweenTokens [byteOrderMark] :=
    Or.inl ⟨byteOrderMark, rfl, by decide, Or.inr rfl⟩
  constructor
  · rintro ⟨added, hread, hrest⟩
    rw [hread.between hbetween] at hrest
    exact hrest
  · intro hrest
    exact ⟨[], .ofBetween hbetween, hrest⟩

/-- The loop ends within as many turns as there are characters, since each turn takes one at least. -/
theorem tokenizeFrom_loop {n : ℕ} {text : Text} (hn : text.length ≤ n) (place : Place)
    (tokens : List Token) : TokenizeLoop text place tokens (tokenizeFrom n text place tokens) := by
  induction n generalizing text place tokens with
  | zero =>
    rw [List.length_eq_zero_iff.mp (Nat.le_zero.mp hn), tokenizeFrom]
    exact .done place tokens
  | succ n ih =>
    cases text with
    | nil =>
      rw [tokenizeFrom]
      exact .done place tokens
    | cons c rest =>
      rw [List.length_cons] at hn
      rw [tokenizeFrom]
      cases hlex : lexToken tokens c rest place with
      | error message => exact .stop hlex
      | ok result =>
        obtain ⟨added, rest', place'⟩ := result
        have hlength := lexToken_length hlex
        exact .turn hlex (ih (by omega) place' (tokens ++ added))

/-- The lexer ends, whatever the source. -/
theorem tokenize_loop (source : Text) :
    TokenizeLoop (loopStart source).1 (loopStart source).2 [] (tokenize source []) := by
  cases source with
  | nil => exact tokenizeFrom_loop le_rfl Place.start []
  | cons c rest =>
    unfold loopStart tokenize
    simp only
    split_ifs
    · exact tokenizeFrom_loop le_rfl (Place.start.skip 1) []
    · exact tokenizeFrom_loop le_rfl Place.start []

/-- What the lexer does with a source and its pieces. -/
theorem tokenize_pieces (source : Text) :
    (sourcePieces source = none ∧ ∃ message, tokenize source [] = .error message) ∨
    ∃ pieces added last, sourcePieces source = some pieces ∧ pieces.flatten = source ∧
      tokenize source [] = .ok (added ++ [last]) ∧ last.kind = .endOfFile ∧
      (∀ t ∈ added, t.kind ≠ .endOfFile) ∧
      (PiecesRead [] [] pieces (added ++ [last]) ↔ ∀ piece ∈ pieces, ¬ IsDoubledOperator piece) := by
  unfold sourcePieces tokenize
  cases source with
  | nil => exact Or.inr ⟨[], [], ⟨.endOfFile, "", Place.start.location⟩, rfl, rfl, rfl, rfl, by simp,
      by simp [PiecesRead, Place.at_start.location]⟩
  | cons c rest =>
    simp only
    split_ifs with hmark
    · obtain rfl := hmark
      rcases tokenizeFrom_pieces (n := rest.length) le_rfl Place.at_mark [] with
        ⟨hnone, herror⟩ | ⟨pieces, added, hsome, hflatten, hok, hkind, hread⟩
      · exact Or.inl ⟨by rw [hnone]; rfl, herror⟩
      · refine Or.inr ⟨[byteOrderMark] :: pieces, added, _, by rw [hsome]; rfl,
          by rw [List.flatten_cons, hflatten]; rfl, hok, rfl, hkind, ?_⟩
        rw [piecesRead_mark, List.forall_mem_cons]
        exact hread.trans ⟨fun h => ⟨not_isDoubledOperator_singleton _, h⟩, fun h => h.2⟩
    · rcases tokenizeFrom_pieces (n := (c :: rest).length) le_rfl Place.at_start [] with
        ⟨hnone, herror⟩ | ⟨pieces, added, hsome, hflatten, hok, hkind, hread⟩
      · exact Or.inl ⟨hnone, herror⟩
      · exact Or.inr ⟨pieces, added, _, hsome, hflatten, hok, rfl, hkind, hread⟩

/-- The lexer always ends, and where it succeeds all locations are exact, exactly if no piece of the
source is an operator of two characters. -/
theorem tokenize_exact_iff (source : Text) :
    TokenizeExact source ↔
      ∀ pieces, sourcePieces source = some pieces → ∀ piece ∈ pieces, ¬ IsDoubledOperator piece := by
  rcases tokenize_pieces source with ⟨hnone, message, herror⟩ |
    ⟨pieces, added, last, hsome, hflatten, hok, hlast, hkind, hread⟩
  · refine iff_of_true ⟨tokenize_loop source, ?_, ?_⟩ ?_
    · intro tokens h
      rw [herror] at h
      cases h
    · intro tokens h
      rw [herror] at h
      cases h
    · intro pieces h
      rw [hnone] at h
      cases h
  · constructor
    · intro hexact pieces' hpieces'
      obtain ⟨pieces'', hpieces'', -, hread'⟩ := hexact.exact _ hok
      rw [hsome] at hpieces' hpieces''
      obtain rfl := Option.some.inj hpieces'
      obtain rfl := Option.some.inj hpieces''
      exact hread.mp hread'
    · intro hpieces
      refine ⟨tokenize_loop source, ?_, ?_⟩
      · intro tokens h
        rw [hok] at h
        obtain rfl := Except.ok.inj h
        exact ⟨pieces, hsome, hflatten, hread.mpr (hpieces pieces hsome)⟩
      · intro tokens h
        rw [hok] at h
        obtain rfl := Except.ok.inj h
        exact ⟨added, last, rfl, hlast, hkind⟩

/-- The location of `==` behind one character is not that of its first character. -/
theorem not_tokenizeExact_equality : ¬ TokenizeExact "a==b".toList := by
  have hdivision : sourcePieces "a==b".toList = some [['a'], ['=', '='], ['b']] := by decide
  intro hexact
  rcases tokenize_pieces "a==b".toList with ⟨hnone, -⟩ |
    ⟨pieces, added, last, hsome, -, hok, -, -, hread⟩
  · rw [hdivision] at hnone
    cases hnone
  · obtain ⟨pieces', hpieces', -, hread'⟩ := hexact.exact _ hok
    rw [hdivision] at hsome hpieces'
    obtain rfl := Option.some.inj hsome
    obtain rfl := Option.some.inj hpieces'
    exact hread.mp hread' ['=', '='] (by simp) ⟨'=', '=', rfl, rfl⟩

end Minyar

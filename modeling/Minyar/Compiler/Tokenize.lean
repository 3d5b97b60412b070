import Minyar.Compiler.Tokens
import Minyar.Modules.Fields
import Mathlib.Algebra.Order.Group.Nat

/-!
# The lexer

`tokenize` of the compiler.  The characters from a position on are a list, a slice is what lies
between two of these lists.  The variables `position`, `line` and `lineStart` are carried along, since
the locations of tokens and messages are computed from them.  `lexToken` is one turn of the loop: what
begins at a position, the characters behind it and the tokens it adds, at most one.

`tokenizeFrom_eq` says that a turn always gets ahead, so that the loop does not depend on its bound.
-/

namespace Minyar

/-! ## Characters -/

/-- `characterIsDigit`. -/
def characterIsDigit (c : Char) : Bool := '0' ≤ c && c ≤ '9'

/-- `characterIsLetter`. -/
def characterIsLetter (c : Char) : Bool := 'a' ≤ c && c ≤ 'z' || 'A' ≤ c && c ≤ 'Z'

/-- `characterIsWhitespace`. -/
def characterIsWhitespace (c : Char) : Bool := c = ' ' || c = '\n' || c = '\r' || c = '\t'

/-- The characters of a name behind its first one. -/
def characterIsNamePart (c : Char) : Bool := characterIsLetter c || characterIsDigit c || c = '_'

/-! ## Positions -/

/-- The variables of the loops that say where they are. -/
structure Place where
  /-- The number of characters in front. -/
  position : ℕ
  /-- The line. -/
  line : ℕ
  /-- The position at which the line begins. -/
  lineStart : ℕ
  deriving DecidableEq

/-- The beginning of a source. -/
def Place.start : Place := ⟨0, 1, 0⟩

/-- `position = position + count`. -/
def Place.skip (place : Place) (count : ℕ) : Place :=
  ⟨place.position + count, place.line, place.lineStart⟩

/-- The next line begins `count` characters further on. -/
def Place.newline (place : Place) (count : ℕ) : Place :=
  ⟨place.position, place.line + 1, place.position + count⟩

/-- A turn of the loops that look for ends of lines. -/
def Place.next (place : Place) (c : Char) : Place :=
  (if c = '\n' then place.newline 1 else place).skip 1

/-- Several turns of these loops. -/
def Place.after (place : Place) (passed : Text) : Place := passed.foldl Place.next place

/-- A backslash and the character behind it in a Text literal. -/
def Place.escape (place : Place) (c : Char) : Place :=
  (if c = '\n' then place.newline 2 else place).skip 2

/-- `sourceLocation`. -/
def sourceLocation (line column : ℕ) : String :=
  String.ofList (integerText line ++ ", column ".toList ++ integerText column)

/-- The location that is computed at a place. -/
def Place.location (place : Place) : String :=
  sourceLocation place.line (place.position - place.lineStart + 1)

/-- `source.slice` between two positions. -/
def sliceTo (start stop : Text) : Text := start.take (start.length - stop.length)

/-- `lineCanEndStatement`. -/
def lineCanEndStatement (tokens : List Token) : Bool :=
  match tokens.getLast? with
  | none => false
  | some last => match last.kind with
    | .name | .integer | .text | .character => true
    | .punctuation => last.text = ")" || last.text = "]" || last.text = "\x7d"
    | _ => false

/-! ## Literals and comments -/

/-- A position behind a token, the text of the token and its place. -/
structure Lexed where
  /-- The text. -/
  text : Text
  /-- The characters that are left. -/
  rest : Text
  /-- The place behind the token. -/
  place : Place

/-- The loop to the end of a block comment, from behind its beginning. -/
def blockComment : Text → Place → Option (Text × Place)
  | '*' :: '/' :: rest, place => some (rest, place.skip 2)
  | c :: rest, place => blockComment rest (place.next c)
  | [], _ => none

/-- What a character stands for behind a backslash. -/
def escapeValue (c : Char) : Char :=
  if c = 'n' then '\n' else if c = 'r' then '\r' else if c = 't' then '\t' else c

/-- The pieces of a Text literal with the one that ends at a position. -/
def addChunk (pieces : List Text) (chunk position : Text) : List Text :=
  if position.length < chunk.length then pieces ++ [sliceTo chunk position] else pieces

/-- The loop over a Text literal with a backslash in it; `chunk` is the position behind the last
escape.  The closing quote is passed. -/
def escapedText (chunk : Text) (pieces : List Text) : Text → Place → Option Lexed
  | [], _ => none
  | c :: rest, place =>
    if c = '"' then some ⟨(addChunk pieces chunk (c :: rest)).flatten, rest, place.skip 1⟩
    else match rest with
      | [] => none
      | escape :: rest =>
        if c = '\\' then
          escapedText rest (addChunk pieces chunk (c :: escape :: rest) ++ [[escapeValue escape]]) rest
            (place.escape escape)
        else escapedText chunk pieces (escape :: rest) (place.next c)

/-- A Text literal from behind its opening quote. -/
def textLiteral (chunk : Text) (place : Place) : Option Lexed :=
  let plain := chunk.takeWhile fun c => c ≠ '"' && c ≠ '\\'
  match chunk.dropWhile fun c => c ≠ '"' && c ≠ '\\' with
  | [] => none
  | c :: rest =>
    if c = '\\' then escapedText chunk [] (c :: rest) (place.after plain)
    else some ⟨sliceTo chunk (c :: rest), rest, (place.after plain).skip 1⟩

/-- A Character literal from behind its opening quote: the message where it is none. -/
def characterLiteral : Text → Place → Except String Lexed
  | [], _ => .error "Character literal is missing its value and closing quote"
  | '\\' :: [], _ => .error "Character literal has an unfinished escape"
  | '\\' :: escape :: '\'' :: rest, place =>
    .ok ⟨[escapeValue escape], rest, ((place.skip 1).next escape).skip 1⟩
  | value :: '\'' :: rest, place =>
    if value = '\\' then
      .error "Character literal must contain exactly one character and a closing quote"
    else .ok ⟨[value], rest, (place.next value).skip 1⟩
  | _, _ => .error "Character literal must contain exactly one character and a closing quote"

/-- Whether two characters are one operator. -/
def isDoubled (c next : Char) : Bool :=
  if next = '=' then c = '=' || c = '!' || c = '<' || c = '>'
  else c = '&' && next = '&' || c = '|' && next = '|'

/-- The kind of a single character: a semicolon ends a statement. -/
def punctuationKind (c : Char) : TokenKind := if c = ';' then .terminator else .punctuation

/-- An operator or another punctuation character. -/
def punctuation (c : Char) (rest : Text) (place : Place) : List Token × Text × Place :=
  match rest with
  | next :: behind =>
    if isDoubled c next then
      -- The location is that of the second character.
      ([⟨.punctuation, String.ofList [c, next], (place.skip 1).location⟩], behind,
        (place.skip 1).skip 1)
    else ([⟨punctuationKind c, String.singleton c, place.location⟩], rest, place.skip 1)
  | [] => ([⟨punctuationKind c, String.singleton c, place.location⟩], rest, place.skip 1)

/-! ## The loop -/

/-- A message of the lexer. -/
def lexError (place : Place) (message : String) : String :=
  "line " ++ place.location ++ ": " ++ message

/-- One turn of the loop of `tokenize` at the character `c`. -/
def lexToken (tokens : List Token) (c : Char) (rest : Text) (place : Place) :
    Except String (List Token × Text × Place) :=
  if characterIsWhitespace c then
    if c = '\n' ∧ lineCanEndStatement tokens then
      .ok ([⟨.terminator, "end of line", place.location⟩], rest, place.next c)
    else .ok ([], rest, place.next c)
  else if c = '/' ∧ rest.head? = some '/' then
    .ok ([], rest.dropWhile (· ≠ '\n'), place.skip (1 + (rest.takeWhile (· ≠ '\n')).length))
  else if c = '/' ∧ rest.head? = some '*' then
    match blockComment rest.tail (place.skip 2) with
    | none => .error (lexError place "block comment is missing its closing */")
    | some (rest, after) => .ok ([], rest, after)
  else if characterIsLetter c || c = '_' then
    let name := c :: rest.takeWhile characterIsNamePart
    .ok ([⟨.name, String.ofList name, place.location⟩], rest.dropWhile characterIsNamePart,
      place.skip name.length)
  else if characterIsDigit c then
    let digits := c :: rest.takeWhile characterIsDigit
    .ok ([⟨.integer, String.ofList digits, place.location⟩], rest.dropWhile characterIsDigit,
      place.skip digits.length)
  else if c = '"' then
    match textLiteral rest (place.skip 1) with
    | none => .error (lexError place "Text literal is missing its closing quote")
    | some lexed =>
      .ok ([⟨.text, String.ofList lexed.text, place.location⟩], lexed.rest, lexed.place)
  else if '~' < c then
    .error (lexError place ("names must use ASCII letters, digits, and '_'; found non-ASCII character '"
      ++ String.singleton c ++ "'"))
  else if c = '\'' then
    match characterLiteral rest (place.skip 1) with
    | .error message => .error (lexError place message)
    | .ok lexed =>
      .ok ([⟨.character, String.ofList lexed.text, place.location⟩], lexed.rest, lexed.place)
  else
    .ok (punctuation c rest place)

/-- The loop of `tokenize`. -/
def tokenizeFrom : ℕ → Text → Place → List Token → Except String (List Token)
  | _, [], place, tokens => .ok (tokens ++ [⟨.endOfFile, "", place.location⟩])
  | 0, _ :: _, _, _ => .error "the lexer does not get ahead"
  | fuel + 1, c :: rest, place, tokens => do
    let (added, rest, place) ← lexToken tokens c rest place
    tokenizeFrom fuel rest place (tokens ++ added)

/-- The byte-order mark. -/
def byteOrderMark : Char := Char.ofNat 0xfeff

/-- `tokenize`: the tokens of a source behind those that are there already. -/
def tokenize (source : Text) (tokens : List Token) : Except String (List Token) :=
  match source with
  | c :: rest =>
    if c = byteOrderMark then tokenizeFrom rest.length rest (Place.start.skip 1) tokens
    else tokenizeFrom source.length source Place.start tokens
  | [] => tokenizeFrom 0 [] Place.start tokens

/-! ## Pieces -/

/-- A slice up to what follows it. -/
theorem sliceTo_append (before rest : Text) : sliceTo (before ++ rest) rest = before := by
  unfold sliceTo
  rw [List.length_append, Nat.add_sub_cancel, List.take_left]

/-- The pieces with one that ends behind `before`. -/
theorem flatten_addChunk (pieces : List Text) (before rest : Text) :
    (addChunk pieces (before ++ rest) rest).flatten = pieces.flatten ++ before := by
  unfold addChunk
  split_ifs with hlt
  · rw [sliceTo_append]
    simp
  · rw [List.length_append] at hlt
    rw [List.eq_nil_of_length_eq_zero (show before.length = 0 by omega), List.append_nil]

/-! ## Getting ahead -/

theorem length_dropWhile_le {α : Type} (p : α → Bool) (l : List α) :
    (l.dropWhile p).length ≤ l.length :=
  (List.dropWhile_sublist p).length_le

/-- A block comment ends further on. -/
theorem blockComment_length {text rest : Text} {place after : Place}
    (h : blockComment text place = some (rest, after)) : rest.length ≤ text.length := by
  fun_induction blockComment text place with
  | case1 behind place =>
    cases h
    simp only [List.length_cons]
    omega
  | case2 place c behind hne ih =>
    have := ih h
    rw [List.length_cons]
    omega
  | case3 => cases h

/-- So does a Text literal with a backslash. -/
theorem escapedText_length {chunk text : Text} {pieces : List Text} {place : Place} {lexed : Lexed}
    (h : escapedText chunk pieces text place = some lexed) : lexed.rest.length ≤ text.length := by
  fun_induction escapedText chunk pieces text place with
  | case1 => cases h
  | case2 chunk pieces rest place =>
    cases h
    exact Nat.le_succ _
  | case3 => cases h
  | case4 chunk pieces place escape rest hquote ih =>
    have := ih h
    simp only [List.length_cons]
    omega
  | case5 chunk pieces c place escape rest hquote hslash ih =>
    have := ih h
    simp only [List.length_cons] at this ⊢
    omega

/-- So does every Text literal. -/
theorem textLiteral_length {chunk : Text} {place : Place} {lexed : Lexed}
    (h : textLiteral chunk place = some lexed) : lexed.rest.length ≤ chunk.length := by
  have hle := length_dropWhile_le (fun c => c ≠ '"' && c ≠ '\\') chunk
  unfold textLiteral at h
  simp only at h
  split at h
  · cases h
  · next c rest heq =>
    rw [heq] at hle
    split_ifs at h with hslash
    · have := escapedText_length h
      omega
    · cases h
      rw [List.length_cons] at hle
      exact Nat.le_of_succ_le hle

/-- So does a Character literal. -/
theorem characterLiteral_length {text : Text} {place : Place} {lexed : Lexed}
    (h : characterLiteral text place = .ok lexed) : lexed.rest.length ≤ text.length := by
  unfold characterLiteral at h
  split at h
  · cases h
  · cases h
  · cases h
    simp only [List.length_cons]
    omega
  · split_ifs at h
    cases h
    simp only [List.length_cons]
    omega
  · cases h

theorem punctuation_length (c : Char) (rest : Text) (place : Place) :
    (punctuation c rest place).2.1.length ≤ rest.length := by
  unfold punctuation
  split
  · split_ifs
    · exact Nat.le_succ _
    · exact le_rfl
  · exact le_rfl

/-- Every turn of the loop gets ahead. -/
theorem lexToken_length {tokens added : List Token} {c : Char} {rest rest' : Text}
    {place place' : Place} (h : lexToken tokens c rest place = .ok (added, rest', place')) :
    rest'.length ≤ rest.length := by
  unfold lexToken at h
  simp only at h
  split_ifs at h
  · cases h
    exact le_rfl
  · cases h
    exact le_rfl
  · cases h
    exact length_dropWhile_le _ _
  · split at h
    · cases h
    · next rest'' after hcomment =>
      cases h
      have hle := blockComment_length hcomment
      rw [List.length_tail] at hle
      omega
  · cases h
    exact length_dropWhile_le _ _
  · cases h
    exact length_dropWhile_le _ _
  · split at h
    · cases h
    · next lexed hlexed =>
      cases h
      exact textLiteral_length hlexed
  · split at h
    · cases h
    · next lexed hlexed =>
      cases h
      exact characterLiteral_length hlexed
  · have hresult := Except.ok.inj h
    rw [← show (punctuation c rest place).2.1 = rest' from congrArg (fun r => r.2.1) hresult]
    exact punctuation_length c rest place

/-- The loop does not depend on its bound. -/
theorem tokenizeFrom_eq {n m : ℕ} {text : Text} (hn : text.length ≤ n) (hm : text.length ≤ m)
    (place : Place) (tokens : List Token) :
    tokenizeFrom n text place tokens = tokenizeFrom m text place tokens := by
  induction n generalizing m text place tokens with
  | zero =>
    rw [List.length_eq_zero_iff.mp (Nat.le_zero.mp hn), tokenizeFrom, tokenizeFrom]
  | succ n ih =>
    cases text with
    | nil => rw [tokenizeFrom, tokenizeFrom]
    | cons c rest =>
      obtain ⟨m, rfl⟩ : ∃ k, m = k + 1 := ⟨m - 1, by rw [List.length_cons] at hm; omega⟩
      rw [List.length_cons] at hn hm
      rw [tokenizeFrom, tokenizeFrom]
      cases hlex : lexToken tokens c rest place with
      | error message => rfl
      | ok result =>
        obtain ⟨added, rest', place'⟩ := result
        have hlength := lexToken_length hlex
        exact ih (by omega) (by omega) place' (tokens ++ added)

/-- `tokenize` from a position on. -/
def tokenizeRest (text : Text) (place : Place) (tokens : List Token) : Except String (List Token) :=
  tokenizeFrom text.length text place tokens

theorem tokenizeRest_nil (place : Place) (tokens : List Token) :
    tokenizeRest [] place tokens = .ok (tokens ++ [⟨.endOfFile, "", place.location⟩]) := by
  rw [tokenizeRest, tokenizeFrom]

/-- A turn of the loop. -/
theorem tokenizeRest_cons {tokens added : List Token} {c : Char} {rest rest' : Text}
    {place place' : Place} (h : lexToken tokens c rest place = .ok (added, rest', place')) :
    tokenizeRest (c :: rest) place tokens = tokenizeRest rest' place' (tokens ++ added) := by
  unfold tokenizeRest
  rw [List.length_cons, tokenizeFrom, h]
  exact tokenizeFrom_eq (lexToken_length h) le_rfl place' (tokens ++ added)

/-- A source without a byte-order mark is read from its beginning. -/
theorem tokenize_eq {source : Text} (h : ∀ c ∈ source.head?, c ≠ byteOrderMark)
    (tokens : List Token) : tokenize source tokens = tokenizeRest source Place.start tokens := by
  cases source with
  | nil => rfl
  | cons c rest => exact if_neg (h c rfl)

end Minyar

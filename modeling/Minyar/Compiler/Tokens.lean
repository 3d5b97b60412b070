import Mathlib.Data.List.Basic

/-!
# Tokens

The lexer leaves the tokens of a source file in three lists: their kinds, their texts and their
locations.  A kind is an integer in the source and a constructor here; the text of a literal is its
value, so it may look like any other token.
-/

namespace Minyar

/-- The kinds of tokens, in the order of their numbers in `tokenKinds`. -/
inductive TokenKind where
  | endOfFile
  | name
  | integer
  | text
  | punctuation
  | character
  | terminator
  deriving DecidableEq, Repr

/-- A token: an entry of `tokenKinds`, `tokenTexts` and `tokenLines`. -/
structure Token where
  /-- The kind. -/
  kind : TokenKind
  /-- The text; for a literal its value. -/
  text : String
  /-- The location in the source, for diagnostics. -/
  location : String := ""
  deriving DecidableEq, Repr

/-- `tokenIs`: the token is not a literal and has the expected text. -/
def Token.is (token : Token) (expected : String) : Bool :=
  token.kind ≠ .integer && token.kind ≠ .text && token.kind ≠ .character && token.text = expected

/-- A Text or Character literal. -/
def Token.isLiteral (token : Token) : Bool := token.kind = .text || token.kind = .character

end Minyar

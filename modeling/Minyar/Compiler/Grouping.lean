import Minyar.Compiler.Tokens
import Minyar.Library.Decimal
import Minyar.Library.Precedence

/-!
# Expressions and their grouping

The language of expressions that both compilers read: chains of operands and binary operators, where
an operand is a literal, a name, a call, a parenthesized expression, a member or an element of one of
these, or a unary operator before an operand.  `Chain.signs` are the tokens of an expression, which
each compiler has in its own form, and a `Grouping` is the tree of operations that a parser makes of
them: it has no parentheses.
-/

namespace Minyar

/-! ## Tokens -/

/-- The binary operators. -/
inductive BinaryOperator
  | or | and | equal | notEqual | less | greater | lessEqual | greaterEqual
  | add | subtract | multiply | divide | remainder
  deriving DecidableEq

/-- How an operator is written. -/
def BinaryOperator.text : BinaryOperator → String
  | or => "||"
  | and => "&&"
  | equal => "=="
  | notEqual => "!="
  | less => "<"
  | greater => ">"
  | lessEqual => "<="
  | greaterEqual => ">="
  | add => "+"
  | subtract => "-"
  | multiply => "*"
  | divide => "/"
  | remainder => "%"

/-- The levels of the operators; a higher level binds tighter. -/
def BinaryOperator.level : BinaryOperator → ℕ
  | or => 1
  | and => 2
  | equal | notEqual => 3
  | less | greater | lessEqual | greaterEqual => 4
  | add | subtract => 5
  | multiply | divide | remainder => 6

/-- An Integer literal that both compilers can read. -/
structure IntegerLiteral where
  /-- The digits as they are written. -/
  digits : List Char
  /-- They are decimal digits. -/
  digit : ∀ c ∈ digits, '0' ≤ c ∧ c ≤ '9'
  /-- There is one. -/
  nonempty : digits ≠ []
  /-- The value is at most `LLONG_MAX`. -/
  bound : digitsValue digits ≤ 9223372036854775807

/-- A name that is not the name of a Boolean. -/
structure ValueName where
  /-- The name. -/
  text : String
  /-- It consists of letters, digits and underscores. -/
  character : ∀ c ∈ text.toList, c.isAlphanum = true ∨ c = '_'
  /-- It is no literal. -/
  ne_boolean : text ≠ "true" ∧ text ≠ "false"

/-- The tokens of an expression. -/
inductive Sign
  | name (text : String)
  | integer (literal : IntegerLiteral)
  | text (value : String)
  | character (value : Char)
  | left | right | leftBracket | rightBracket | comma | dot | not
  | operator (o : BinaryOperator)

/-- What the parser of the compiler reads of a token: the entries of `tokenKinds` and `tokenTexts`.
Its location is used in messages only. -/
structure Lexeme where
  /-- The kind. -/
  kind : TokenKind
  /-- The text. -/
  text : String
  deriving DecidableEq

/-- What the parser reads of a token. -/
def Token.lexeme (token : Token) : Lexeme := ⟨token.kind, token.text⟩

/-- `tokenIs`: the token is not a literal and has the expected text. -/
def Lexeme.is (t : Lexeme) (expected : String) : Bool :=
  t.kind ≠ .integer && t.kind ≠ .text && t.kind ≠ .character && t.text = expected

/-- The tokens of the compiler. -/
def Sign.lexeme : Sign → Lexeme
  | name value => ⟨.name, value⟩
  | integer literal => ⟨.integer, String.ofList literal.digits⟩
  | text value => ⟨.text, value⟩
  | character value => ⟨.character, String.singleton value⟩
  | left => ⟨.punctuation, "("⟩
  | right => ⟨.punctuation, ")"⟩
  | leftBracket => ⟨.punctuation, "["⟩
  | rightBracket => ⟨.punctuation, "]"⟩
  | comma => ⟨.punctuation, ","⟩
  | dot => ⟨.punctuation, "."⟩
  | not => ⟨.punctuation, "!"⟩
  | operator o => ⟨.punctuation, o.text⟩

/-- The kinds of tokens of the bootstrap compiler. -/
inductive Stage0Kind
  | endOfFile | newline | name | integer | text | character
  | equalEqual | notEqual | lessEqual | greaterEqual | and | or
  /-- A single character. -/
  | single (c : Char)
  deriving DecidableEq

/-- A token of the bootstrap compiler. -/
structure Stage0Token where
  /-- The kind. -/
  kind : Stage0Kind
  /-- The name or the Text. -/
  text : String := ""
  /-- The Integer or the code of the character. -/
  integer : ℕ := 0
  deriving DecidableEq

/-- The kind of an operator. -/
def BinaryOperator.kind : BinaryOperator → Stage0Kind
  | or => .or
  | and => .and
  | equal => .equalEqual
  | notEqual => .notEqual
  | less => .single '<'
  | greater => .single '>'
  | lessEqual => .lessEqual
  | greaterEqual => .greaterEqual
  | add => .single '+'
  | subtract => .single '-'
  | multiply => .single '*'
  | divide => .single '/'
  | remainder => .single '%'

/-- The tokens of the bootstrap compiler. -/
def Sign.stage0 : Sign → Stage0Token
  | name value => { kind := .name, text := value }
  | integer literal => { kind := .integer, integer := digitsValue literal.digits }
  | text value => { kind := .text, text := value }
  | character value => { kind := .character, integer := value.toNat }
  | left => { kind := .single '(' }
  | right => { kind := .single ')' }
  | leftBracket => { kind := .single '[' }
  | rightBracket => { kind := .single ']' }
  | comma => { kind := .single ',' }
  | dot => { kind := .single '.' }
  | not => { kind := .single '!' }
  | operator o => { kind := o.kind }

/-! ## Expressions -/

mutual

/-- An operand that members and elements are taken of. -/
inductive Primary
  | name (name : ValueName)
  | text (value : String)
  | character (value : Char)
  | boolean (value : Bool)
  | emptyList
  | call (function : ValueName) (arguments : Arguments)
  | paren (e : Chain)
  | member (object : Primary) (name : String)
  /-- The method `add` or `appended` of a List. -/
  | method (object : Primary) (appended : Bool) (argument : Chain)
  /-- The method `slice` of a Text. -/
  | slice (object : Primary) (first last : Chain)
  | index (object : Primary) (position : Chain)

/-- An operand. -/
inductive Operand
  | integer (literal : IntegerLiteral)
  | primary (p : Primary)
  | not (x : Operand)
  | negative (x : Operand)

/-- An operand and the operators behind it, each with its own operand. -/
inductive Chain
  | operand (x : Operand)
  | binary (x : Operand) (o : BinaryOperator) (rest : Chain)

/-- The arguments of a call; a comma may stand behind the last one. -/
inductive Arguments
  | none
  | last (e : Chain)
  | cons (e : Chain) (rest : Arguments)

end

mutual

/-- The tokens of an operand. -/
def Primary.signs : Primary → List Sign
  | .name name => [.name name.text]
  | .text value => [.text value]
  | .character value => [.character value]
  | .boolean value => [.name (if value then "true" else "false")]
  | .emptyList => [.leftBracket, .rightBracket]
  | .call function arguments => .name function.text :: .left :: (arguments.signs ++ [.right])
  | .paren e => .left :: (e.signs ++ [.right])
  | .member object name => object.signs ++ [.dot, .name name]
  | .method object appended argument => object.signs ++
      (.dot :: .name (if appended then "appended" else "add") :: .left :: (argument.signs ++ [.right]))
  | .slice object first last => object.signs ++
      (.dot :: .name "slice" :: .left :: (first.signs ++ .comma :: (last.signs ++ [.right])))
  | .index object position => object.signs ++ (.leftBracket :: (position.signs ++ [.rightBracket]))

/-- The tokens of an operand. -/
def Operand.signs : Operand → List Sign
  | .integer literal => [.integer literal]
  | .primary p => p.signs
  | .not x => .not :: x.signs
  | .negative x => .operator .subtract :: x.signs

/-- The tokens of an expression. -/
def Chain.signs : Chain → List Sign
  | .operand x => x.signs
  | .binary x o rest => x.signs ++ .operator o :: rest.signs

/-- The tokens of the arguments of a call. -/
def Arguments.signs : Arguments → List Sign
  | .none => []
  | .last e => e.signs
  | .cons e rest => e.signs ++ .comma :: rest.signs

end

/-! ## Groupings -/

/-- The operations of an expression. -/
inductive Grouping
  | name (text : String)
  | integer (value : ℕ)
  | text (value : String)
  | character (value : Char)
  | boolean (value : Bool)
  | list (values : List Grouping)
  | call (function : String) (arguments : List Grouping)
  | member (object : Grouping) (name : String)
  | method (object : Grouping) (name : String) (arguments : List Grouping)
  | index (object position : Grouping)
  | unary (operator : String) (operand : Grouping)
  | binary (operator : String) (left right : Grouping)

/-- The operation of a binary operator. -/
def BinaryOperator.node (o : BinaryOperator) (left right : Grouping) : Grouping :=
  .binary o.text left right

end Minyar

import Minyar.Compiler.Grouping
import Minyar.Compiler.Emitter

/-!
# Scalar programs

The part of the language without owners: Integers, Characters and Booleans in locals and parameters,
and Text literals as arguments of the built-in functions and of comparisons.  An `Expression` is what
the compiler groups of the tokens; a minus sign before an Integer literal belongs to the literal.

A program prints values, and it ends with a status or is stopped with a message.
-/

namespace Minyar

/-! ## Values -/

/-- A value of a scalar program. -/
inductive ScalarValue
  | integer (value : ℤ)
  | text (value : String)
  | character (value : Char)
  | boolean (value : Bool)
  deriving DecidableEq

/-- The Integers have 64 bits. -/
def IsInteger64 (n : ℤ) : Prop := -2 ^ 63 ≤ n ∧ n < 2 ^ 63

instance (n : ℤ) : Decidable (IsInteger64 n) := inferInstanceAs (Decidable (_ ∧ _))

/-- How a program is stopped. -/
inductive ScalarStop
  /-- `exit` with a status. -/
  | exit (status : ℤ)
  /-- A message and the status 1. -/
  | message (text : String)
  deriving DecidableEq

/-- The stop of a calculation outside the range. -/
def overflowStop : ScalarStop :=
  .message "this Integer calculation is outside the supported range."

/-- The stop of a division by zero. -/
def zeroDivisionStop : ScalarStop := .message "an Integer cannot be divided by zero."

/-- The stop of a division outside the range. -/
def divisionRangeStop : ScalarStop :=
  .message "this Integer division is outside the supported range."

/-- The stop of a call that is too deep. -/
def depthStop : ScalarStop := .message "the program exceeded the maximum call depth."

/-- What a program does not decide itself. -/
structure Host where
  /-- The number of arguments of the program. -/
  argumentCount : ℤ
  /-- It is an Integer. -/
  isInteger64 : IsInteger64 argumentCount
  /-- Whether the stack has room for these active functions, the innermost first. -/
  room : List String → Bool

/-! ## Expressions -/

/-- An expression. -/
inductive Expression
  /-- An Integer literal. -/
  | integer (value : ℕ)
  /-- An Integer literal behind a minus sign. -/
  | negative (value : ℕ)
  /-- A Text literal, which is the token at a position. -/
  | text (position : ℕ) (value : String)
  /-- A Character literal, which is the token at a position. -/
  | character (position : ℕ) (value : Char)
  | boolean (value : Bool)
  | name (name : String)
  | not (operand : Expression)
  | negate (operand : Expression)
  | binary (operator : BinaryOperator) (left right : Expression)
  | call (function : String) (arguments : List Expression)

/-! ## Statements -/

/-- A statement. -/
inductive Statement
  /-- A binding, and its declared type if there is one. -/
  | letLocal (name : String) (declaredType : Option ℕ) (value : Expression)
  | assign (name : String) (value : Expression)
  | ifThen (condition : Expression) (thenBlock : List Statement)
  | ifElse (condition : Expression) (thenBlock elseBlock : List Statement)
  | whileLoop (condition : Expression) (body : List Statement)
  | returnValue (value : Option Expression)
  | expression (value : Expression)

/-! ## Programs -/

/-- A function of a program. -/
structure ScalarFunction where
  /-- The head. -/
  header : FunctionHeader
  /-- Which parameters are marked as assigned. -/
  marks : List Bool
  /-- The body. -/
  body : List Statement

/-- A program: its functions, and the statements outside of them. -/
structure ScalarProgram where
  /-- The functions. -/
  functions : List ScalarFunction
  /-- The statements, if there is no `main`. -/
  statements : List Statement

end Minyar

import Minyar.Compiler.Grouping

/-!
# The expressions of the bootstrap compiler

The recursive descent of the bootstrap compiler from `parse_expression` to `parse_atom`: a function
for every level, each an instance of `parse_binary`.  A position is the list of the tokens that are
left, the current one first; a message that ends the compilation is `none`.  As in the parser of the
compiler, `n` bounds the depth of expressions inside one another and the number of tokens that are
left bounds a loop.
-/

namespace Minyar.Stage0

/-- `expect`. -/
def expect (kind : Stage0Kind) : List Stage0Token → Option (List Stage0Token)
  | [] => none
  | t :: ts => if t.kind = kind then some ts else none

/-- How an operator of a kind is written. -/
def spelling : Stage0Kind → String
  | .equalEqual => "=="
  | .notEqual => "!="
  | .lessEqual => "<="
  | .greaterEqual => ">="
  | .and => "&&"
  | .or => "||"
  | .single c => String.singleton c
  | _ => ""

/-- A parser of expressions. -/
abbrev Parser := List Stage0Token → Option (Grouping × List Stage0Token)

/-! ## Operands -/

section Operands

variable (parseExpression : Parser)

/-- The arguments of a call from the first one on. -/
def parseArgumentsFrom : ℕ → List Stage0Token → Option (List Grouping × List Stage0Token)
  | 0, _ => none
  | fuel + 1, ts => do
    let (argument, ts) ← parseExpression ts
    match ts with
    | [] => none
    | t :: rest =>
      if t.kind ≠ .single ',' then return ([argument], t :: rest)
      else match rest with
        | [] => none
        | next :: rest =>
          if next.kind ≠ .single ')' then do
            let (arguments, ts) ← parseArgumentsFrom fuel (next :: rest)
            return (argument :: arguments, ts)
          else return ([argument], next :: rest)

/-- The arguments of a call and the parenthesis behind them. -/
def parseArguments (ts : List Stage0Token) : Option (List Grouping × List Stage0Token) := do
  let (arguments, ts) ← match ts with
    | [] => none
    | t :: rest =>
      if t.kind ≠ .single ')' then parseArgumentsFrom parseExpression ts.length (t :: rest)
      else some ([], t :: rest)
  let ts ← expect (.single ')') ts
  return (arguments, ts)

/-- `parse_atom`. -/
def parseAtom : Parser
  | [] => none
  | t :: ts =>
    if t.kind = .integer then some (.integer t.integer, ts)
    else if t.kind = .text then some (.text t.text, ts)
    else if t.kind = .character then some (.character (Char.ofNat t.integer), ts)
    else if t.kind = .name ∧ (t.text = "true" ∨ t.text = "false") then
      some (.boolean (t.text = "true"), ts)
    else if t.kind = .name then
      match ts with
      | [] => none
      | next :: rest =>
        if next.kind = .single '(' then do
          let (arguments, ts) ← parseArguments parseExpression rest
          return (.call t.text arguments, ts)
        else some (.name t.text, next :: rest)
    else if t.kind = .single '(' then do
      let (value, ts) ← parseExpression ts
      let ts ← expect (.single ')') ts
      return (value, ts)
    else if t.kind = .single '[' then do
      let ts ← expect (.single ']') ts
      return (.list [], ts)
    else none

/-- The loop of `parse_primary`. -/
def parsePrimaryLoop : ℕ → Grouping → Parser
  | _, _, [] => none
  | 0, _, _ => none
  | fuel + 1, expression, t :: ts =>
    if t.kind = .single '.' then
      match ts with
      | [] => none
      | member :: ts =>
        if member.kind ≠ .name then none
        else match ts with
          | [] => none
          | next :: rest =>
            if next.kind = .single '(' then do
              let (arguments, ts) ← parseArguments parseExpression rest
              parsePrimaryLoop fuel (.method expression member.text arguments) ts
            else parsePrimaryLoop fuel (.member expression member.text) (next :: rest)
    else if t.kind = .single '[' then do
      let (position, ts) ← parseExpression ts
      let ts ← expect (.single ']') ts
      parsePrimaryLoop fuel (.index expression position) ts
    else some (expression, t :: ts)

/-- `parse_primary`. -/
def parsePrimary : Parser := fun ts => do
  let (expression, rest) ← parseAtom parseExpression ts
  parsePrimaryLoop parseExpression ts.length expression rest

/-- `parse_unary`. -/
def parseUnary : Parser
  | [] => none
  | t :: ts =>
    if t.kind = .single '!' ∨ t.kind = .single '-' then do
      let (right, ts) ← parseUnary ts
      return (.unary (spelling t.kind) right, ts)
    else parsePrimary parseExpression (t :: ts)

end Operands

/-! ## Binary operators -/

/-- The loop of `parse_binary`. -/
def parseBinaryLoop (next : Parser) (operators : List Stage0Kind) : ℕ → Grouping → Parser
  | 0, _, _ => none
  | _, _, [] => none
  | fuel + 1, left, t :: ts =>
    if t.kind ∈ operators then do
      let (right, ts) ← next ts
      parseBinaryLoop next operators fuel (.binary (spelling t.kind) left right) ts
    else some (left, t :: ts)

/-- `parse_binary`. -/
def parseBinary (next : Parser) (operators : List Stage0Kind) : Parser := fun ts => do
  let (left, rest) ← next ts
  parseBinaryLoop next operators ts.length left rest

section Levels

variable (parseUnary : Parser)

/-- `parse_product`. -/
def parseProduct : Parser := parseBinary parseUnary [.single '*', .single '/', .single '%']

/-- `parse_sum`. -/
def parseSum : Parser := parseBinary (parseProduct parseUnary) [.single '+', .single '-']

/-- `parse_comparison`. -/
def parseComparison : Parser :=
  parseBinary (parseSum parseUnary) [.single '<', .single '>', .lessEqual, .greaterEqual]

/-- `parse_equality`. -/
def parseEquality : Parser :=
  parseBinary (parseComparison parseUnary) [.equalEqual, .notEqual]

/-- `parse_and`. -/
def parseAnd : Parser := parseBinary (parseEquality parseUnary) [.and]

/-- `parse_expression` over the operands that `parse_unary` reads. -/
def parseOr : Parser := parseBinary (parseAnd parseUnary) [.or]

end Levels

/-- `parse_expression`, for expressions at most `n` deep inside one another. -/
def parseExpression : ℕ → Parser
  | 0, _ => none
  | n + 1, ts => parseOr (parseUnary (parseExpression n)) ts

end Minyar.Stage0

import Minyar.Compiler.Grouping

/-!
# The expressions of the compiler

The recursive descent of the compiler from `parseExpression` to `parseAtom`, reduced to what it reads
of the tokens and what it groups: types are not checked and nothing is emitted.  A position in the
token lists is the list of the tokens that are left.  Where the source ends the compilation with a
message the parser returns `none`.

The parser calls itself for the expressions inside an expression, at most `n` times deep.  A loop is
bounded by the number of tokens that are left, since every turn uses one up.
-/

namespace Minyar

/-- A parser of expressions: what it groups and the tokens that it leaves. -/
abbrev Parser (τ : Type) := List τ → Option (Grouping × List τ)

/-! ## Tokens -/

/-- `expectToken`. -/
def expectToken (expected : String) : List Lexeme → Option (List Lexeme)
  | [] => none
  | t :: ts => if t.is expected then some ts else none

/-- `skipTerminators`. -/
def skipTerminators : List Lexeme → List Lexeme
  | [] => []
  | t :: ts => if t.kind = .terminator then skipTerminators ts else t :: ts

/-- `operatorLevel` of a token. -/
def operatorLevel (t : Lexeme) : ℕ :=
  if t.kind = .punctuation then
    if t.text = "*" ∨ t.text = "/" ∨ t.text = "%" then 4
    else if t.text = "+" ∨ t.text = "-" then 3
    else if t.text = "<" ∨ t.text = ">" ∨ t.text = "<=" ∨ t.text = ">=" then 2
    else if t.text = "==" ∨ t.text = "!=" then 1
    else 0
  else 0

/-- `compareText`. -/
def compareText : List Char → List Char → ℤ
  | [], [] => 0
  | [], _ :: _ => -1
  | _ :: _, [] => 1
  | a :: left, b :: right => if a = b then compareText left right else if a < b then -1 else 1

/-- The digits without the zeros in front of them; the last digit stays. -/
def canonicalDigits : List Char → List Char
  | [] => []
  | [digit] => [digit]
  | digit :: next :: digits =>
    if digit = '0' then canonicalDigits (next :: digits) else digit :: next :: digits

/-- `checkedIntegerLiteral`: the digits of an Integer in the supported range. -/
def checkedIntegerLiteral (digits : List Char) (negative : Bool) : Option (List Char) :=
  let canonical := canonicalDigits digits
  let limit := (if negative then "9223372036854775808" else "9223372036854775807").toList
  if 19 < canonical.length ∨ canonical.length = 19 ∧ 0 < compareText canonical limit then none
  else some canonical

/-! ## Operands -/

section Operands

variable (isRecord : String → Bool) (parseRecord parseExpression : Parser Lexeme)

/-- The arguments of a call; the comma between two of them may be left out. -/
def parseArguments : ℕ → List Lexeme → Option (List Grouping × List Lexeme)
  | _, [] => none
  | 0, _ => none
  | fuel + 1, t :: ts =>
    if t.is ")" then some ([], t :: ts)
    else do
      let (argument, ts) ← parseExpression (t :: ts)
      let ts := match ts with
        | [] => []
        | t :: rest => if t.is "," then rest else t :: rest
      let (arguments, ts) ← parseArguments fuel ts
      return (argument :: arguments, ts)

/-- `parseCall`. -/
def parseCall : Parser Lexeme
  | [] => none
  | name :: ts => do
    let ts ← expectToken "(" ts
    let (arguments, ts) ← parseArguments parseExpression ts.length ts
    let ts ← expectToken ")" ts
    return (.call name.text arguments, ts)

/-- The values of a List literal. -/
def parseListValues : ℕ → List Lexeme → Option (List Grouping × List Lexeme)
  | _, [] => none
  | 0, _ => none
  | fuel + 1, t :: ts =>
    if t.is "]" then some ([], t :: ts)
    else do
      let (value, ts) ← parseExpression (t :: ts)
      let ts := skipTerminators ts
      match ts with
      | [] => none
      | t :: rest =>
        let ts ← if t.is "]" then some (t :: rest)
          else (expectToken "," (t :: rest)).map skipTerminators
        let (values, ts) ← parseListValues fuel ts
        return (value :: values, ts)

/-- `parseListLiteral`. -/
def parseListLiteral : Parser Lexeme
  | [] => none
  | _ :: ts => do
    let ts := skipTerminators ts
    let (values, ts) ← parseListValues parseExpression ts.length ts
    let ts ← expectToken "]" ts
    return (.list values, ts)

/-- `parseAtom`.  A record construction is read by `parseRecord`. -/
def parseAtom : Parser Lexeme
  | [] => none
  | t :: ts =>
    if t.kind = .name then
      if t.text = "true" ∨ t.text = "false" then some (.boolean (t.text = "true"), ts)
      else match ts with
        | [] => none
        | next :: _ =>
          if next.text = "(" then parseCall parseExpression (t :: ts)
          else if next.kind = .punctuation ∧ next.text = "\x7b" ∧ isRecord t.text = true then
            parseRecord (t :: ts)
          else some (.name t.text, ts)
    else if t.kind = .integer then do
      let digits ← checkedIntegerLiteral t.text.toList false
      return (.integer (digitsValue digits), ts)
    else if t.kind = .text then some (.text t.text, ts)
    else if t.kind = .character then some (.character (t.text.toList.headD ' '), ts)
    else if t.text = "(" then do
      let (value, ts) ← parseExpression ts
      let ts ← expectToken ")" ts
      return (value, ts)
    else if t.text = "[" then parseListLiteral parseExpression (t :: ts)
    else none

/-- A method call behind its opening parenthesis: `slice` has two arguments, `add` and `appended` have
one. -/
def parseMethod (object : Grouping) (member : String) (ts : List Lexeme) :
    Option (Grouping × List Lexeme) := do
  let (argument, ts) ← parseExpression ts
  if member = "slice" then
    let ts ← expectToken "," ts
    let (last, ts) ← parseExpression ts
    let ts ← expectToken ")" ts
    return (.method object member [argument, last], ts)
  else
    let ts ← expectToken ")" ts
    if member = "appended" ∨ member = "add" then return (.method object member [argument], ts)
    else none

/-- The loop of `parsePrimary` over members and positions. -/
def parsePrimaryLoop : ℕ → Grouping → Parser Lexeme
  | _, _, [] => none
  | 0, _, _ => none
  | fuel + 1, value, t :: ts =>
    if t.kind = .punctuation ∧ (t.text = "." ∨ t.text = "[") then
      if t.text = "." then
        match ts with
        | [] => none
        | member :: ts =>
          if member.kind ≠ .name then none
          else match ts with
            | [] => none
            | next :: rest =>
              if next.is "(" then do
                let (value, ts) ← parseMethod parseExpression value member.text rest
                parsePrimaryLoop fuel value ts
              else parsePrimaryLoop fuel (.member value member.text) (next :: rest)
      else do
        let (position, ts) ← parseExpression ts
        let ts ← expectToken "]" ts
        parsePrimaryLoop fuel (.index value position) ts
    else some (value, t :: ts)

/-- `parsePrimary`. -/
def parsePrimary : Parser Lexeme := fun ts => do
  let (value, rest) ← parseAtom isRecord parseRecord parseExpression ts
  parsePrimaryLoop parseExpression ts.length value rest

/-- `parseUnary`.  A minus sign before an Integer literal belongs to the literal. -/
def parseUnary : Parser Lexeme
  | [] => none
  | t :: ts =>
    if t.kind = .punctuation ∧ (t.text = "!" ∨ t.text = "-") then
      match ts with
      | [] => none
      | next :: rest =>
        if t.text = "-" ∧ next.kind = .integer then do
          let digits ← checkedIntegerLiteral next.text.toList true
          return (.unary "-" (.integer (digitsValue digits)), rest)
        else do
          let (right, ts) ← parseUnary (next :: rest)
          return (.unary t.text right, ts)
    else parsePrimary isRecord parseRecord parseExpression (t :: ts)

end Operands

/-! ## Binary operators -/

section Operators

variable (unary : Parser Lexeme)

mutual

/-- `parseBinary`. -/
def parseBinary : ℕ → ℕ → Parser Lexeme
  | 0, _, _ => none
  | fuel + 1, minimumLevel, ts => do
    let (left, ts) ← unary ts
    parseBinaryLoop fuel minimumLevel left ts

/-- The loop of `parseBinary`. -/
def parseBinaryLoop : ℕ → ℕ → Grouping → Parser Lexeme
  | 0, _, _, _ => none
  | _, _, _, [] => none
  | fuel + 1, minimumLevel, left, t :: ts =>
    let level := operatorLevel t
    if minimumLevel ≤ level ∧ 0 < level then do
      let (right, ts) ← parseBinary fuel (level + 1) ts
      parseBinaryLoop fuel minimumLevel (.binary t.text left right) ts
    else some (left, t :: ts)

end

/-- The loop of `parseAnd`. -/
def parseAndLoop : ℕ → Grouping → Parser Lexeme
  | 0, _, _ => none
  | _, _, [] => none
  | fuel + 1, left, t :: ts =>
    if t.kind = .punctuation ∧ t.text = "&&" then do
      let (right, ts) ← parseBinary unary ts.length 1 ts
      parseAndLoop fuel (.binary t.text left right) ts
    else some (left, t :: ts)

/-- `parseAnd`. -/
def parseAnd : Parser Lexeme := fun ts => do
  let (left, rest) ← parseBinary unary ts.length 1 ts
  parseAndLoop unary ts.length left rest

/-- The loop of `parseExpression`. -/
def parseExpressionLoop : ℕ → Grouping → Parser Lexeme
  | 0, _, _ => none
  | _, _, [] => none
  | fuel + 1, left, t :: ts =>
    if t.kind = .punctuation ∧ t.text = "||" then do
      let (right, ts) ← parseAnd unary ts
      parseExpressionLoop fuel (.binary t.text left right) ts
    else some (left, t :: ts)

end Operators

/-- `parseExpression`, for expressions at most `n` deep inside one another. -/
def parseExpression (isRecord : String → Bool) (parseRecord : Parser Lexeme) : ℕ → Parser Lexeme
  | 0, _ => none
  | n + 1, ts => do
    let unary := parseUnary isRecord parseRecord (parseExpression isRecord parseRecord n)
    let (left, rest) ← parseAnd unary ts
    parseExpressionLoop unary ts.length left rest

example : parseExpression (fun _ => false) (fun _ => none) 1
    ([.integer ⟨['1'], forall_mem_of_all (by decide), by decide, by decide⟩, .operator .add, .name "x",
      .operator .multiply, .name "y", .operator .less, .operator .subtract,
      .integer ⟨['2'], forall_mem_of_all (by decide), by decide, by decide⟩].map Sign.lexeme ++ [⟨.endOfFile, ""⟩]) =
    some (.binary "<" (.binary "+" (.integer 1) (.binary "*" (.name "x") (.name "y")))
      (.unary "-" (.integer 2)), [⟨.endOfFile, ""⟩]) := by
  rfl

end Minyar

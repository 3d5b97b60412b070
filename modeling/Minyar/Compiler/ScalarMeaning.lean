import Minyar.Library.FuelledRun
import Minyar.Compiler.ScalarSource

/-!
# The meaning of scalar programs

A program is evaluated with fuel: for each loop the number of its turns is bounded, and so is the
depth of the calls.  It prints values, and it ends with a status or is stopped with a message.  What
the type checks of the compiler exclude is wrong, and so is a call of `main`.
-/

namespace Minyar

/-! ## Evaluations -/

/-- The code of the type of a value. -/
def ScalarValue.type : ScalarValue → ℕ
  | integer _ => 1
  | text _ => 2
  | character _ => 3
  | boolean _ => 4

/-- An evaluation: the world are the values printed so far. -/
abbrev ScalarRun (α : Type) := Fuelled (List ScalarValue) ScalarStop α

/-! ## Operators -/

/-- The result of a calculation. -/
def checkedInteger (n : ℤ) : ScalarRun ScalarValue :=
  if IsInteger64 n then pure (.integer n) else .stop overflowStop

/-- The result of a division of two Integers. -/
def checkedDivision (left right result : ℤ) : ScalarRun ScalarValue :=
  if right = 0 then .stop zeroDivisionStop
  else if left = -2 ^ 63 ∧ right = -1 then .stop divisionRangeStop
  else pure (.integer result)

/-- An ordered comparison. -/
def evalOrdered (compare : ℤ → ℤ → Bool) : ScalarValue → ScalarValue → ScalarRun ScalarValue
  | .integer left, .integer right => pure (.boolean (compare left right))
  | .character left, .character right => pure (.boolean (compare left.toNat right.toNat))
  | _, _ => .fault

/-- A comparison of two values of one type. -/
def evalEquality (expected : Bool) (left right : ScalarValue) : ScalarRun ScalarValue :=
  if left.type = right.type then pure (.boolean (decide (left = right) == expected)) else .fault

/-- A binary operator that evaluates both sides. -/
def evalBinary : BinaryOperator → ScalarValue → ScalarValue → ScalarRun ScalarValue
  | .add, .integer left, .integer right => checkedInteger (left + right)
  | .subtract, .integer left, .integer right => checkedInteger (left - right)
  | .multiply, .integer left, .integer right => checkedInteger (left * right)
  | .divide, .integer left, .integer right => checkedDivision left right (left.tdiv right)
  | .remainder, .integer left, .integer right => checkedDivision left right (left.tmod right)
  | .less, left, right => evalOrdered (fun a b => a < b) left right
  | .greater, left, right => evalOrdered (fun a b => b < a) left right
  | .lessEqual, left, right => evalOrdered (fun a b => a ≤ b) left right
  | .greaterEqual, left, right => evalOrdered (fun a b => b ≤ a) left right
  | .equal, left, right => evalEquality true left right
  | .notEqual, left, right => evalEquality false left right
  | _, _, _ => .fault

/-! ## Expressions -/

/-- The values in scope, the latest first. -/
abbrev ScalarScope := List (String × ScalarValue)

/-- The value of the latest binding with a name. -/
def ScalarScope.lookup (scope : ScalarScope) (name : String) : Option ScalarValue :=
  (scope.find? fun binding => binding.1 = name).map Prod.snd

/-- The scope after an assignment to the latest binding with a name. -/
def ScalarScope.assign (name : String) (value : ScalarValue) : ScalarScope → Option ScalarScope
  | [] => none
  | binding :: scope =>
    if binding.1 = name then some ((name, value) :: scope)
    else (ScalarScope.assign name value scope).map (binding :: ·)

/-- A Boolean. -/
def evalBoolean (x : ScalarRun (Option ScalarValue)) : ScalarRun Bool := do
  match ← x with
  | some (.boolean value) => pure value
  | _ => .fault

/-- An Integer. -/
def evalInteger (x : ScalarRun (Option ScalarValue)) : ScalarRun ℤ := do
  match ← x with
  | some (.integer value) => pure value
  | _ => .fault

/-- A Boolean operator: the right side is evaluated unless the left side is `short`. -/
def evalLogical (short : Bool) (left right : ScalarRun (Option ScalarValue)) :
    ScalarRun (Option ScalarValue) := do
  if (← evalBoolean left) = short then return some (.boolean short)
  else return some (.boolean (← evalBoolean right))

/-- An operator that evaluates both sides, on their values. -/
def evalOperator (operator : BinaryOperator) (left right : Option ScalarValue) :
    ScalarRun (Option ScalarValue) := do
  let left ← Fuelled.ofOption left
  let right ← Fuelled.ofOption right
  let value ← evalBinary operator left right
  return some value

/-- What a function is called for: the result of a function without one is `none`. -/
abbrev ScalarCall := String → List ScalarValue → ScalarRun (Option ScalarValue)

/-- A call of a built-in function or of one of the program. -/
def applyFunction (h : Host) (call : ScalarCall) (function : String) (values : List ScalarValue) :
    ScalarRun (Option ScalarValue) :=
  if function = "print" then
    match values with
    | [value] => fun printed => .done none (printed ++ [value])
    | _ => .fault
  else if function = "fail" then
    match values with
    | [.text message] => .stop (.message message)
    | _ => .fault
  else if function = "exit" then
    match values with
    | [.integer status] => .stop (.exit status)
    | _ => .fault
  else if function = "argumentCount" then
    match values with
    | [] => pure (some (.integer h.argumentCount))
    | _ => .fault
  else call function values

section Expressions

variable (h : Host) (call : ScalarCall) (scope : ScalarScope)

mutual

/-- The value of an expression, if it has one. -/
def evalExpression : Expression → ScalarRun (Option ScalarValue)
  | .integer value => pure (some (.integer value))
  | .negative value => pure (some (.integer (-value)))
  | .text _ value => pure (some (.text value))
  | .character _ value => pure (some (.character value))
  | .boolean value => pure (some (.boolean value))
  | .name name => do return some (← Fuelled.ofOption (scope.lookup name))
  | .not operand => do return some (.boolean (!(← evalBoolean (evalExpression operand))))
  | .negate operand => do
    let value ← evalInteger (evalExpression operand)
    return some (← checkedInteger (-value))
  | .binary operator left right =>
    if operator = .or then evalLogical true (evalExpression left) (evalExpression right)
    else if operator = .and then evalLogical false (evalExpression left) (evalExpression right)
    else do
      let left ← evalExpression left
      let right ← evalExpression right
      evalOperator operator left right
  | .call function arguments => do
    let values ← evalArguments arguments
    applyFunction h call function values

/-- The values of the arguments of a call, from left to right. -/
def evalArguments : List Expression → ScalarRun (List ScalarValue)
  | [] => pure []
  | argument :: arguments => do
    let value ← evalExpression argument
    let value ← Fuelled.ofOption value
    let values ← evalArguments arguments
    return value :: values

end

end Expressions

/-! ## Statements -/

/-- How the program goes on behind a statement. -/
inductive Flow
  /-- With the next statement. -/
  | next (scope : ScalarScope)
  /-- Behind the call of the function. -/
  | returned (value : Option ScalarValue)

/-- The end of a block: its bindings are gone. -/
def Flow.close (outer : ScalarScope) : Flow → Flow
  | next scope => next (scope.drop (scope.length - outer.length))
  | returned value => returned value

/-- A loop with at most `n` turns. -/
def evalLoop (condition : ScalarScope → ScalarRun Bool) (body : ScalarScope → ScalarRun Flow) :
    ℕ → ScalarScope → ScalarRun Flow
  | 0, _ => .outOfFuel
  | n + 1, scope => do
    if ← condition scope then
      match ← body scope with
      | .next scope => evalLoop condition body n scope
      | .returned value => return .returned value
    else return .next scope

section Statements

variable (h : Host) (call : ScalarCall) (n : ℕ)

mutual

/-- What a statement does. -/
def evalStatement (scope : ScalarScope) : Statement → ScalarRun Flow
  | .letLocal name _ value => do
    let value ← Fuelled.ofOption (← evalExpression h call scope value)
    return .next ((name, value) :: scope)
  | .assign name value => do
    let value ← Fuelled.ofOption (← evalExpression h call scope value)
    return .next (← Fuelled.ofOption (ScalarScope.assign name value scope))
  | .ifThen condition thenBlock => do
    if ← evalBoolean (evalExpression h call scope condition) then
      return (← evalStatements scope thenBlock).close scope
    else return .next scope
  | .ifElse condition thenBlock elseBlock => do
    if ← evalBoolean (evalExpression h call scope condition) then
      return (← evalStatements scope thenBlock).close scope
    else return (← evalStatements scope elseBlock).close scope
  | .whileLoop condition body =>
    evalLoop (fun scope => evalBoolean (evalExpression h call scope condition))
      (fun scope => do return (← evalStatements scope body).close scope) n scope
  | .returnValue none => return .returned none
  | .returnValue (some value) => do return .returned (← evalExpression h call scope value)
  | .expression value => do
    let _ ← evalExpression h call scope value
    return .next scope

/-- What several statements do. -/
def evalStatements (scope : ScalarScope) : List Statement → ScalarRun Flow
  | [] => return .next scope
  | statement :: statements => do
    match ← evalStatement scope statement with
    | .next scope => evalStatements scope statements
    | .returned value => return .returned value

end

end Statements

/-! ## Programs -/

namespace ScalarProgram

/-- The function of a name. -/
def find (p : ScalarProgram) (name : String) : Option ScalarFunction :=
  p.functions.find? fun function => function.header.name = name

variable (p : ScalarProgram) (h : Host)

/-- An activation of a function: its statements, when there is room for it. -/
def activate (call : ScalarCall) (n : ℕ) (active : List String) (scope : ScalarScope)
    (statements : List Statement) : ScalarRun Flow :=
  if h.room active then evalStatements h call n scope statements else .stop depthStop

/-- What a function returns: only one without a result may reach the end of its body. -/
def result (returnType : ℕ) : Flow → ScalarRun (Option ScalarValue)
  | .next _ => if returnType = 5 then pure none else .fault
  | .returned value => pure value

/-- A call of a function inside the active ones; `main` has no meaning as a function. -/
def callFunction : ℕ → List String → ScalarCall
  | 0, _, _, _ => .outOfFuel
  | n + 1, active, name, values =>
    if name = "main" then .fault
    else match p.find name with
    | none => .fault
    | some function =>
      if values.length = function.header.parameters.length then do
        let flow ← activate h (callFunction n (name :: active)) n (name :: active)
          ((function.header.parameters.map Prod.fst).zip values).reverse function.body
        result function.header.returnType flow
      else .fault

/-- The status that `main` returns: 32 bits of its Integer, or 0 at the end of the statements. -/
def status : Flow → ScalarRun ℤ
  | .next _ => pure 0
  | .returned (some (.integer value)) => pure (value.bmod (2 ^ 32))
  | .returned _ => .fault

/-- What a program is run for: `main`, or the statements outside of functions. -/
def mainStatements : List Statement :=
  match p.find "main" with
  | some main => main.body
  | none => p.statements

/-- The run of a program. -/
def run (n : ℕ) : ScalarRun ℤ := do
  let flow ← activate h (p.callFunction h n ["main"]) n ["main"] [] p.mainStatements
  status flow

end ScalarProgram

end Minyar

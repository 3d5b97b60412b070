import Minyar.Compiler.ScalarCode

/-!
# The emitter of scalar programs

What `parseExpression`, `compileStatement` and `compileFunctions` write while they read a scalar
program.  An operation is written as soon as its operands have been read, so what is written for an
expression is a function of its tree, and the same holds for statements.  A piece of the output that
the compiler fills in later, such as the branch of an `if` and the entry of a function, stands in its
place from the start.

Where the compiler ends with a message, and where a value with an owner would appear, the emitter
returns `none`.
-/

namespace Minyar

/-! ## The state -/

/-- Where the value of a binding is. -/
inductive ScalarPlace
  /-- In a local. -/
  | cell (number : ℕ)
  /-- In an operand: the parameter is never assigned. -/
  | argument (number : ℕ)

/-- A binding. -/
structure ScalarBinding where
  /-- The name. -/
  name : String
  /-- The type. -/
  type : ℕ
  /-- The place. -/
  place : ScalarPlace

/-- The state of the compiler in a function. -/
structure EmitState where
  /-- `state[1]`, the number of the next temporary. -/
  temporary : ℕ
  /-- `state[2]`, the number of the next label. -/
  label : ℕ
  /-- `state[4]`, the number of the next local. -/
  nextLocal : ℕ
  /-- `textState[0]`, the current block. -/
  block : Label
  /-- The first `state[3]` bindings, the latest first. -/
  locals : List ScalarBinding

/-- A part of the compiler: it writes instructions and may fail. -/
def Emit (α : Type) : Type := EmitState → Option (α × List LlvmInstruction × EmitState)

namespace Emit

variable {α β : Type}

instance : Monad Emit where
  pure a s := some (a, [], s)
  bind x f s := (x s).bind fun first => (f first.1 first.2.2).map fun second =>
    (second.1, first.2.1 ++ second.2.1, second.2.2)

/-- `fail`. -/
def fail : Emit α := fun _ => none

/-- `addOutput`, for instructions. -/
def add (code : List LlvmInstruction) : Emit Unit := fun s => some ((), code, s)

/-- The compiler goes on only under a condition. -/
def require (condition : Prop) [Decidable condition] : Emit Unit :=
  if condition then pure () else fail

/-- The result of an option that must have one. -/
def ofOption : Option α → Emit α
  | some a => pure a
  | none => fail

/-- `newTemporary`. -/
def newTemporary : Emit ℕ := fun s => some (s.temporary, [], { s with temporary := s.temporary + 1 })

/-- `newLabel`. -/
def newLabel : Emit ℕ := fun s => some (s.label, [], { s with label := s.label + 1 })

/-- `nextLocal` and `addLocal`. -/
def addLocal (name : String) (type : ℕ) : Emit ℕ := fun s =>
  some (s.nextLocal, [], { s with
    nextLocal := s.nextLocal + 1
    locals := ⟨name, type, .cell s.nextLocal⟩ :: s.locals })

/-- The current block. -/
def block : Emit Label := fun s => some (s.block, [], s)

/-- A new block. -/
def enterBlock (label : Label) : Emit Unit := fun s =>
  some ((), [.label label], { s with block := label })

/-- `findLocal`: the latest binding with the name. -/
def findLocal (name : String) : Emit ScalarBinding := fun s =>
  (s.locals.find? fun binding => binding.name = name).map fun binding => (binding, [], s)

/-- The bindings that are in scope. -/
def scope : Emit (List ScalarBinding) := fun s => some (s.locals, [], s)

/-- The bindings of a block go out of scope. -/
def closeScope (outer : List ScalarBinding) : Emit Unit := fun s =>
  some ((), [], { s with locals := s.locals.drop (s.locals.length - outer.length) })

end Emit

/-- What is known of the functions: `functionParameterTypes` and `functionReturnTypes`. -/
structure Signature where
  /-- The name. -/
  name : String
  /-- The types of the parameters. -/
  parameters : List ℕ
  /-- The type of the result. -/
  returnType : ℕ

/-- The value of an expression and its type. -/
structure EmittedValue where
  /-- The operand. -/
  operand : LlvmOperand
  /-- The type: 5 for an expression without a value, 6 for one that ends the program. -/
  type : ℕ

/-- The operand of a temporary. -/
def temporaryValue (number : ℕ) : LlvmOperand := .register (.value number)

/-- The largest Integer. -/
def integerLimit : ℕ := 9223372036854775807

/-! ## Operators -/

/-- The calculation of an operator. -/
def BinaryOperator.calculation (o : BinaryOperator) : Calculation :=
  if o = .multiply then .smul else if o = .subtract then .ssub else .sadd

/-- The division of an operator. -/
def BinaryOperator.division (o : BinaryOperator) : Division :=
  if o = .remainder then .srem else .sdiv

/-- The comparison of an operator. -/
def BinaryOperator.comparison : BinaryOperator → Comparison
  | notEqual => .ne
  | less => .slt
  | greater => .sgt
  | lessEqual => .sle
  | greaterEqual => .sge
  | _ => .eq

/-- A checked calculation. -/
def emitCalculation (calculation : Calculation) (result : ℕ) (left right : LlvmOperand) : Emit Unit :=
  .add [.calculate calculation result left right, .extractValue result, .extractOverflow result,
    .checkOverflow result]

/-- `emitBinary`.  The join of two Texts has an owner. -/
def emitBinary (o : BinaryOperator) (left right : EmittedValue) : Emit EmittedValue := do
  Emit.require (left.type = right.type)
  if o = .add ∨ o = .subtract ∨ o = .multiply ∨ o = .divide ∨ o = .remainder then
    Emit.require (left.type = 1)
  else if o = .equal ∨ o = .notEqual then
    Emit.require (1 ≤ left.type ∧ left.type ≤ 4)
  else
    Emit.require (left.type = 1 ∨ left.type = 3)
  let result ← Emit.newTemporary
  if (o = .equal ∨ o = .notEqual) ∧ left.type = 2 then
    Emit.add [.textsEqual result left.operand right.operand]
    if o = .notEqual then
      let opposite ← Emit.newTemporary
      Emit.add [.not opposite (temporaryValue result)]
      return ⟨temporaryValue opposite, 4⟩
    else return ⟨temporaryValue result, 4⟩
  else if o = .add ∨ o = .subtract ∨ o = .multiply then
    emitCalculation o.calculation result left.operand right.operand
    return ⟨temporaryValue result, 1⟩
  else if o = .divide ∨ o = .remainder then
    Emit.add [.checkDivision left.operand right.operand,
      .divide o.division result left.operand right.operand]
    return ⟨temporaryValue result, 1⟩
  else
    Emit.add [.compare o.comparison left.type result left.operand right.operand]
    return ⟨temporaryValue result, 4⟩

/-- What `parseExpression` and `parseAnd` write for one operator: the right side is evaluated in a
block of its own, unless the left side is `short`. -/
def emitLogical (short : Bool) (left right : Emit EmittedValue) : Emit EmittedValue := do
  let left ← left
  Emit.require (left.type = 4)
  let rightLabel ← Emit.newLabel
  let endLabel ← Emit.newLabel
  let leftBlock ← Emit.block
  Emit.add [if short then .branch left.operand (.logicalEnd endLabel) (.logicalRight rightLabel)
    else .branch left.operand (.logicalRight rightLabel) (.logicalEnd endLabel)]
  Emit.enterBlock (.logicalRight rightLabel)
  let right ← right
  Emit.require (right.type = 4)
  let rightBlock ← Emit.block
  Emit.add [.jump (.logicalEnd endLabel)]
  Emit.enterBlock (.logicalEnd endLabel)
  let result ← Emit.newTemporary
  Emit.add [.phi result short leftBlock right.operand rightBlock]
  return ⟨temporaryValue result, 4⟩

/-! ## Expressions -/

/-- A call of a built-in function or of one of the program, `parseCall` behind the arguments.  The
built-in functions on Texts other than `print` and `fail` have owners. -/
def emitCall (signatures : List Signature) (function : String) (values : List EmittedValue) :
    Emit EmittedValue :=
  if function = "print" then
    match values with
    | [value] => do
      Emit.require (1 ≤ value.type ∧ value.type ≤ 4)
      Emit.add [.print value.type value.operand]
      return ⟨.empty, 5⟩
    | _ => Emit.fail
  else if function = "fail" then
    match values with
    | [value] => do
      Emit.require (value.type = 2)
      Emit.add [.fail value.operand]
      return ⟨.empty, 6⟩
    | _ => Emit.fail
  else if function = "exit" then
    match values with
    | [value] => do
      Emit.require (value.type = 1)
      Emit.add [.exit value.operand]
      return ⟨.empty, 6⟩
    | _ => Emit.fail
  else if function = "argumentCount" then
    match values with
    | [] => do
      let result ← Emit.newTemporary
      Emit.add [.argumentCount result]
      return ⟨temporaryValue result, 1⟩
    | _ => Emit.fail
  else if function ∈ ["Text", "joinText", "argument", "readTextFile", "writeTextFile"] then Emit.fail
  else do
    let signature ← Emit.ofOption (signatures.find? fun signature => signature.name = function)
    Emit.require (values.map EmittedValue.type = signature.parameters)
    let arguments := values.map fun value => (value.type, value.operand)
    if signature.returnType = 5 then
      Emit.add [.call none 5 function arguments]
      return ⟨.empty, 5⟩
    else
      Emit.require (signature.returnType ≠ 2 ∧ signature.returnType ≤ 4)
      let result ← Emit.newTemporary
      Emit.add [.call (some result) signature.returnType function arguments]
      return ⟨temporaryValue result, signature.returnType⟩

section Expressions

variable (signatures : List Signature)

mutual

/-- What is written for an expression: `parseUnary` and `parseAtom` on the leaves. -/
def emitExpression : Expression → Emit EmittedValue
  | .integer value => do
    Emit.require (value ≤ integerLimit)
    return ⟨.constant (.i64 value), 1⟩
  | .negative value => do
    Emit.require (value ≤ integerLimit + 1)
    return ⟨.constant (.i64 (-value)), 1⟩
  | .text position value => return ⟨.literal position value, 2⟩
  | .character position value => do
    let result ← Emit.newTemporary
    Emit.add [.characterAt result position value]
    return ⟨temporaryValue result, 3⟩
  | .boolean value => return ⟨.constant (.i1 value), 4⟩
  | .name name => do
    let binding ← Emit.findLocal name
    match binding.place with
    | .argument number => return ⟨.register (.argument number), binding.type⟩
    | .cell number =>
      let result ← Emit.newTemporary
      Emit.add [.load result binding.type number]
      return ⟨temporaryValue result, binding.type⟩
  | .not operand => do
    let value ← emitExpression operand
    let result ← Emit.newTemporary
    Emit.require (value.type = 4)
    Emit.add [.not result value.operand]
    return ⟨temporaryValue result, 4⟩
  | .negate operand => do
    let value ← emitExpression operand
    let result ← Emit.newTemporary
    Emit.require (value.type = 1)
    emitCalculation .ssub result (.constant (.i64 0)) value.operand
    return ⟨temporaryValue result, 1⟩
  | .binary operator left right =>
    if operator = .or then emitLogical true (emitExpression left) (emitExpression right)
    else if operator = .and then emitLogical false (emitExpression left) (emitExpression right)
    else do
      let left ← emitExpression left
      let right ← emitExpression right
      emitBinary operator left right
  | .call function arguments => do
    let values ← emitArguments arguments
    emitCall signatures function values

/-- What is written for the arguments of a call. -/
def emitArguments : List Expression → Emit (List EmittedValue)
  | [] => return []
  | argument :: arguments => do
    let value ← emitExpression argument
    let values ← emitArguments arguments
    return value :: values

end

end Expressions

/-! ## Statements -/

/-- The function that a statement is in. -/
structure FunctionContext where
  /-- `textState[1]`: the name, or `top level`. -/
  name : String
  /-- The type that is returned. -/
  returnType : ℕ

/-- The end of a branch that goes on. -/
def emitJumpUnless (returns : Bool) (target : Label) : Emit Unit :=
  Emit.add (if returns then [] else [.jump target])

/-- `compileBlock`: the bindings of the statements are gone at the end. -/
def emitBlock (statements : Emit Bool) : Emit Bool := do
  let outer ← Emit.scope
  let returns ← statements
  Emit.closeScope outer
  return returns

/-- What a `return` writes behind its value. -/
def emitReturn (f : FunctionContext) (value : EmittedValue) : Emit Unit := do
  -- A Text would be retained for the caller.
  Emit.require (value.type = f.returnType ∧ value.type ≠ 2)
  Emit.add [.rcLeave, .stackLeave]
  if f.name = "main" then
    let result ← Emit.newTemporary
    Emit.add [.truncate result value.operand, .retStatus (temporaryValue result)]
  else Emit.add [.ret value.type value.operand]

/-- The start of a block for a statement that is not reached. -/
def emitDead (terminated : Bool) : Emit Unit :=
  if terminated then do
    let label ← Emit.newLabel
    Emit.enterBlock (.dead label)
  else pure ()

section Statements

variable (signatures : List Signature) (f : FunctionContext)

mutual

/-- `compileStatement`: whether the statement returns. -/
def emitStatement : Statement → Emit Bool
  | .letLocal name declaredType value => do
    let value ← emitExpression signatures value
    Emit.require (∀ type ∈ declaredType, type = value.type)
    Emit.require (value.type ≠ 5 ∧ value.type ≠ 6 ∧ value.type ≠ 2)
    let number ← Emit.addLocal name value.type
    Emit.add [.store value.type value.operand number]
    return false
  | .assign name value => do
    let binding ← Emit.findLocal name
    let value ← emitExpression signatures value
    Emit.require (value.type = binding.type)
    match binding.place with
    | .cell number =>
      Emit.add [.store value.type value.operand number]
      return false
    -- An assigned parameter is marked and has a local.
    | .argument _ => Emit.fail
  | .ifThen condition thenBlock => do
    let condition ← emitExpression signatures condition
    Emit.require (condition.type = 4)
    let thenLabel ← Emit.newLabel
    let _ ← Emit.newLabel
    let endLabel ← Emit.newLabel
    Emit.add [.branch condition.operand (.ifThen thenLabel) (.ifEnd endLabel)]
    Emit.enterBlock (.ifThen thenLabel)
    let thenReturns ← emitBlock (emitStatements false false thenBlock)
    emitJumpUnless thenReturns (.ifEnd endLabel)
    Emit.enterBlock (.ifEnd endLabel)
    return false
  | .ifElse condition thenBlock elseBlock => do
    let condition ← emitExpression signatures condition
    Emit.require (condition.type = 4)
    let thenLabel ← Emit.newLabel
    let elseLabel ← Emit.newLabel
    let endLabel ← Emit.newLabel
    Emit.add [.branch condition.operand (.ifThen thenLabel) (.ifElse elseLabel)]
    Emit.enterBlock (.ifThen thenLabel)
    let thenReturns ← emitBlock (emitStatements false false thenBlock)
    emitJumpUnless thenReturns (.ifEnd endLabel)
    Emit.enterBlock (.ifElse elseLabel)
    let elseReturns ← emitBlock (emitStatements false false elseBlock)
    emitJumpUnless elseReturns (.ifEnd endLabel)
    if thenReturns && elseReturns then return true
    else
      Emit.enterBlock (.ifEnd endLabel)
      return false
  | .whileLoop condition body => do
    let conditionLabel ← Emit.newLabel
    let bodyLabel ← Emit.newLabel
    let endLabel ← Emit.newLabel
    Emit.add [.jump (.whileCondition conditionLabel)]
    Emit.enterBlock (.whileCondition conditionLabel)
    let condition ← emitExpression signatures condition
    Emit.require (condition.type = 4)
    Emit.add [.branch condition.operand (.whileBody bodyLabel) (.whileEnd endLabel)]
    Emit.enterBlock (.whileBody bodyLabel)
    let bodyReturns ← emitBlock (emitStatements false false body)
    Emit.add (if bodyReturns then [] else [.rcStep, .jump (.whileCondition conditionLabel)])
    Emit.enterBlock (.whileEnd endLabel)
    return false
  | .returnValue value => do
    Emit.require (f.name ≠ "top level")
    match value with
    | none => emitReturn f ⟨.empty, 5⟩
    | some value => do
      let value ← emitExpression signatures value
      emitReturn f value
    return true
  | .expression value => do
    let value ← emitExpression signatures value
    if value.type = 6 then
      Emit.add [.unreachable]
      return true
    else return false

/-- The statements of a block, `terminated` if the one before returns and `returns` if one of those
before does: a statement that is not reached has a block of its own. -/
def emitStatements (terminated returns : Bool) : List Statement → Emit Bool
  | [] => do
    if returns && !terminated then Emit.add [.unreachable]
    return returns
  | statement :: statements => do
    emitDead terminated
    let terminated ← emitStatement statement
    emitStatements terminated (returns || terminated) statements

end

end Statements

/-! ## Functions -/

/-- Whether an instruction needs the frame of a function with owners. -/
def LlvmInstruction.needsFrame : LlvmInstruction → Bool
  | rcStep | rcLeave => true
  | _ => false

/-- The code of a function without owners. -/
def withoutFrame (code : List LlvmInstruction) : List LlvmInstruction :=
  code.filter fun instruction => !instruction.needsFrame

/-- `finishFunctionEntry` for a function without owners: the entry, and the code behind it without the
calls of a frame. -/
def finishScalarFunction (parameters locals : ℕ) (code : List LlvmInstruction) :
    List LlvmInstruction :=
  .stackEnter ::
    ((List.range' parameters (locals - parameters)).map fun number => .allocate number 1) ++
    withoutFrame code

/-- The bindings of the parameters, the latest first. -/
def parameterBindings (h : FunctionHeader) (marks : List Bool) : List ScalarBinding :=
  (h.parameters.zipIdx.map fun (parameter, number) =>
    { name := parameter.1
      type := parameter.2
      place := if marks.getD number true then .cell number else .argument number }).reverse

/-- The locals of the parameters that are assigned. -/
def parameterCells (h : FunctionHeader) (marks : List Bool) : List LlvmInstruction :=
  (h.parameters.zipIdx.map fun (parameter, number) =>
    if marks.getD number true then
      [.allocate number parameter.2, .store parameter.2 (.register (.argument number)) number]
    else []).flatten

/-- The state before a body. -/
def bodyState (h : FunctionHeader) (marks : List Bool) : EmitState where
  temporary := 0
  label := 0
  nextLocal := h.parameters.length
  block := .entry
  locals := parameterBindings h marks

/-- `compileFunctions`, for one function. -/
def emitFunction (signatures : List Signature) (function : ScalarFunction) : Option LlvmFunction := do
  let h := function.header
  let isMain := h.name = "main"
  -- `discoverSymbols` has checked `main`.
  guard (isMain → h.parameters = [] ∧ h.returnType = 1)
  -- Text parameters are borrowed.
  guard (∀ parameter ∈ h.parameters, parameter.2 = 1 ∨ parameter.2 = 3 ∨ parameter.2 = 4)
  let (returns, code, s) ← emitStatements signatures ⟨h.name, h.returnType⟩ false false function.body
    (bodyState h function.marks)
  guard (returns ∨ isMain ∨ h.returnType = 5)
  let code := (if isMain then [.initializeArguments] else []) ++
    parameterCells h function.marks ++ code ++
    (if returns then [] else [.rcLeave, .stackLeave,
      if isMain then .retStatus (.constant (.i32 0)) else .retVoid])
  return {
    name := h.name
    parameters := h.parameters.map Prod.snd
    returnType := h.returnType
    code := finishScalarFunction h.parameters.length s.nextLocal code }

/-- The statements outside of functions as `compileTopLevel` compiles them: unlike in a block, the end
is reached unless the last statement returns. -/
def emitTopLevel (signatures : List Signature) (f : FunctionContext) (terminated : Bool) :
    List Statement → Emit Bool
  | [] => return terminated
  | statement :: statements => do
    emitDead terminated
    let terminated ← emitStatement signatures f statement
    emitTopLevel signatures f terminated statements

/-- `compileTopLevel`: the code of `main`. -/
def emitMain (signatures : List Signature) (statements : List Statement) :
    Option (List LlvmInstruction) := do
  let (terminated, code, s) ← emitTopLevel signatures ⟨"top level", 1⟩ false statements
    { temporary := 0, label := 0, nextLocal := 0, block := .entry, locals := [] }
  let code := .initializeArguments :: code ++
    (if terminated then [] else [.rcLeave, .stackLeave, .retStatus (.constant (.i32 0))])
  return finishScalarFunction 0 s.nextLocal code

/-- The signatures of a program. -/
def ScalarProgram.signatures (p : ScalarProgram) : List Signature :=
  p.functions.map fun function =>
    ⟨function.header.name, function.header.parameters.map Prod.snd, function.header.returnType⟩

/-- The functions of a program and the code of `main`. -/
def emitProgram (p : ScalarProgram) : Option (List LlvmFunction × List LlvmInstruction) := do
  let functions ← p.functions.mapM (emitFunction p.signatures)
  match functions.find? fun function => function.name = "main" with
  | some main => return (functions, main.code)
  | none => return (functions, ← emitMain p.signatures p.statements)

end Minyar

import Minyar.Compiler.ScalarSource

/-!
# The code of scalar programs

The LLVM instructions that the compiler emits for scalar programs, as they are written, and what they
mean.  A function is a list of instructions and labels; a jump goes on behind its label, and a phi
node looks at the block that the jump came from.  An instruction without a meaning, such as one that
reads a register without a value or a label that the code falls through to, is stuck.
-/

namespace Minyar

/-! ## Values -/

/-- A value of the code. -/
inductive LlvmValue
  | i64 (value : ℤ)
  | i32 (value : ℤ)
  | i1 (value : Bool)
  /-- The address of a Text literal. -/
  | text (value : String)
  /-- The result of a calculation and whether it has overflowed. -/
  | checked (value : ℤ) (overflow : Bool)
  deriving DecidableEq

/-- How a value is written. -/
def LlvmValue.written : LlvmValue → String
  | i64 value => toString value
  | i32 value => toString value
  | i1 value => toString value
  | text _ => ""
  | checked _ _ => ""

/-- A register of a function. -/
inductive Register
  | argument (number : ℕ)
  | value (number : ℕ)
  | checked (number : ℕ)
  | overflow (number : ℕ)
  deriving DecidableEq

/-- How a register is written. -/
def Register.written : Register → String
  | argument number => "%argument." ++ toString number
  | value number => "%value." ++ toString number
  | checked number => "%checked." ++ toString number
  | overflow number => "%overflow." ++ toString number

/-- An operand. -/
inductive LlvmOperand
  | constant (value : LlvmValue)
  /-- The Text literal at a position. -/
  | literal (position : ℕ) (value : String)
  | register (name : Register)
  /-- The operand of an expression without a value. -/
  | empty

/-- How an operand is written. -/
def LlvmOperand.written : LlvmOperand → String
  | constant value => value.written
  | literal position _ => "getelementptr (i8, ptr @.text." ++ toString position ++ ", i64 8)"
  | register name => name.written
  | empty => ""

/-- A label of a function. -/
inductive Label
  | entry
  | logicalRight (number : ℕ)
  | logicalEnd (number : ℕ)
  | ifThen (number : ℕ)
  | ifElse (number : ℕ)
  | ifEnd (number : ℕ)
  | whileCondition (number : ℕ)
  | whileBody (number : ℕ)
  | whileEnd (number : ℕ)
  | dead (number : ℕ)
  deriving DecidableEq

/-- How a label is written. -/
def Label.written : Label → String
  | entry => "entry"
  | logicalRight number => "logical.right." ++ toString number
  | logicalEnd number => "logical.end." ++ toString number
  | ifThen number => "if.then." ++ toString number
  | ifElse number => "if.else." ++ toString number
  | ifEnd number => "if.end." ++ toString number
  | whileCondition number => "while.condition." ++ toString number
  | whileBody number => "while.body." ++ toString number
  | whileEnd number => "while.end." ++ toString number
  | dead number => "dead." ++ toString number

/-! ## Instructions -/

/-- The calculations that are checked. -/
inductive Calculation
  | sadd | ssub | smul
  deriving DecidableEq

/-- The result of a calculation without a bound. -/
def Calculation.apply : Calculation → ℤ → ℤ → ℤ
  | sadd, left, right => left + right
  | ssub, left, right => left - right
  | smul, left, right => left * right

/-- How a calculation is written. -/
def Calculation.written : Calculation → String
  | sadd => "sadd"
  | ssub => "ssub"
  | smul => "smul"

/-- The divisions. -/
inductive Division
  | sdiv | srem
  deriving DecidableEq

/-- The result of a division, which rounds towards zero. -/
def Division.apply : Division → ℤ → ℤ → ℤ
  | sdiv, left, right => left.tdiv right
  | srem, left, right => left.tmod right

/-- How a division is written. -/
def Division.written : Division → String
  | sdiv => "sdiv"
  | srem => "srem"

/-- The comparisons. -/
inductive Comparison
  | eq | ne | slt | sgt | sle | sge
  deriving DecidableEq

/-- The result of a comparison. -/
def Comparison.apply : Comparison → ℤ → ℤ → Bool
  | eq, left, right => left = right
  | ne, left, right => left ≠ right
  | slt, left, right => left < right
  | sgt, left, right => right < left
  | sle, left, right => left ≤ right
  | sge, left, right => right ≤ left

/-- How a comparison is written. -/
def Comparison.written : Comparison → String
  | eq => "eq"
  | ne => "ne"
  | slt => "slt"
  | sgt => "sgt"
  | sle => "sle"
  | sge => "sge"

/-- An instruction or a label. -/
inductive LlvmInstruction
  | label (name : Label)
  | allocate (cell type : ℕ)
  | load (result type cell : ℕ)
  | store (type : ℕ) (value : LlvmOperand) (cell : ℕ)
  | calculate (calculation : Calculation) (result : ℕ) (left right : LlvmOperand)
  | extractValue (result : ℕ)
  | extractOverflow (result : ℕ)
  | checkOverflow (result : ℕ)
  | checkDivision (left right : LlvmOperand)
  | divide (division : Division) (result : ℕ) (left right : LlvmOperand)
  | compare (comparison : Comparison) (type result : ℕ) (left right : LlvmOperand)
  | textsEqual (result : ℕ) (left right : LlvmOperand)
  | not (result : ℕ) (value : LlvmOperand)
  | characterAt (result position : ℕ) (value : Char)
  | branch (condition : LlvmOperand) (ifTrue ifFalse : Label)
  | jump (target : Label)
  | phi (result : ℕ) (short : Bool) (leftBlock : Label) (right : LlvmOperand) (rightBlock : Label)
  | call (result : Option ℕ) (returnType : ℕ) (function : String)
      (arguments : List (ℕ × LlvmOperand))
  | print (type : ℕ) (value : LlvmOperand)
  | fail (message : LlvmOperand)
  | exit (status : LlvmOperand)
  | argumentCount (result : ℕ)
  | initializeArguments
  | stackEnter
  | stackLeave
  | rcStep
  | rcLeave
  | truncate (result : ℕ) (value : LlvmOperand)
  | ret (type : ℕ) (value : LlvmOperand)
  | retVoid
  | retStatus (value : LlvmOperand)
  | unreachable

/-- The operands of a call. -/
def argumentsWritten (arguments : List (ℕ × LlvmOperand)) : String :=
  String.intercalate ", " (arguments.map fun argument =>
    llvmType argument.1 ++ " " ++ argument.2.written)

/-- The runtime function that prints values of a type. -/
def printSuffix (type : ℕ) : String :=
  if type = 1 then "integer"
  else if type = 3 then "character"
  else if type = 4 then "boolean"
  else "text"

/-- A line that assigns the result of an operation to a register. -/
def Register.assigned (register : Register) (operation : String) : String :=
  "  " ++ register.written ++ " = " ++ operation ++ "\n"

/-- How an instruction is written.  There is an empty line in front of a label. -/
def LlvmInstruction.written : LlvmInstruction → String
  | label name => "\n" ++ name.written ++ ":\n"
  | allocate cell type => "  %local." ++ toString cell ++ " = alloca " ++ llvmType type ++ "\n"
  | load result type cell =>
    (Register.value result).assigned ("load " ++ llvmType type ++ ", ptr %local." ++ toString cell)
  | store type value cell =>
    "  store " ++ llvmType type ++ " " ++ value.written ++ ", ptr %local." ++ toString cell ++ "\n"
  | calculate calculation result left right =>
    (Register.checked result).assigned ("call \x7b i64, i1 \x7d @llvm." ++ calculation.written ++
      ".with.overflow.i64(i64 " ++ left.written ++ ", i64 " ++ right.written ++ ")")
  | extractValue result =>
    (Register.value result).assigned ("extractvalue \x7b i64, i1 \x7d " ++
      (Register.checked result).written ++ ", 0")
  | extractOverflow result =>
    (Register.overflow result).assigned ("extractvalue \x7b i64, i1 \x7d " ++
      (Register.checked result).written ++ ", 1")
  | checkOverflow result =>
    "  call void @minyar_check_integer_overflow(i1 " ++ (Register.overflow result).written ++ ")\n"
  | checkDivision left right =>
    "  call void @minyar_check_integer_division(i64 " ++ left.written ++ ", i64 " ++
      right.written ++ ")\n"
  | divide division result left right =>
    (Register.value result).assigned (division.written ++ " i64 " ++ left.written ++ ", " ++
      right.written)
  | compare comparison type result left right =>
    (Register.value result).assigned ("icmp " ++ comparison.written ++ " " ++ llvmType type ++ " " ++
      left.written ++ ", " ++ right.written)
  | textsEqual result left right =>
    (Register.value result).assigned ("call i1 @minyar_texts_are_equal(ptr " ++ left.written ++
      ", ptr " ++ right.written ++ ")")
  | not result value =>
    (Register.value result).assigned ("xor i1 " ++ value.written ++ ", true")
  | characterAt result position _ =>
    (Register.value result).assigned ("call i32 @minyar_text_character_at(ptr " ++
      (LlvmOperand.literal position "").written ++ ", i64 0)")
  | branch condition ifTrue ifFalse =>
    "  br i1 " ++ condition.written ++ ", label %" ++ ifTrue.written ++ ", label %" ++
      ifFalse.written ++ "\n"
  | jump target => "  br label %" ++ target.written ++ "\n"
  | phi result short leftBlock right rightBlock =>
    (Register.value result).assigned ("phi i1 [ " ++ toString short ++ ", %" ++ leftBlock.written ++
      " ], [ " ++ right.written ++ ", %" ++ rightBlock.written ++ " ]")
  | call none returnType function arguments =>
    "  call " ++ llvmType returnType ++ " @" ++ function ++ "(" ++ argumentsWritten arguments ++ ")\n"
  | call (some result) returnType function arguments =>
    (Register.value result).assigned ("call " ++ llvmType returnType ++ " @" ++ function ++ "(" ++
      argumentsWritten arguments ++ ")")
  | print type value =>
    "  call void @minyar_print_" ++ printSuffix type ++ "(" ++ llvmType type ++ " " ++
      value.written ++ ")\n"
  | fail message => "  call void @minyar_fail(ptr " ++ message.written ++ ")\n"
  | exit status => "  call void @minyar_exit(i64 " ++ status.written ++ ")\n"
  | argumentCount result =>
    (Register.value result).assigned "call i64 @minyar_argument_count()"
  | initializeArguments => "  call void @minyar_initialize_arguments(" ++
      "i32 %minyar.argument.count, ptr %minyar.argument.values)\n"
  | stackEnter => stackEntry
  | stackLeave => "  call void @minyar_stack_leave()\n"
  | rcStep => Minyar.rcStep
  | rcLeave => Minyar.rcLeave
  | truncate result value =>
    (Register.value result).assigned ("trunc i64 " ++ value.written ++ " to i32")
  | ret type value => "  ret " ++ llvmType type ++ " " ++ value.written ++ "\n"
  | retVoid => "  ret void\n"
  | retStatus value => "  ret i32 " ++ value.written ++ "\n"
  | unreachable => "  unreachable\n"

/-- A function definition. -/
structure LlvmFunction where
  /-- The name. -/
  name : String
  /-- The types of the parameters. -/
  parameters : List ℕ
  /-- The type of the result. -/
  returnType : ℕ
  /-- The code behind the label `entry`. -/
  code : List LlvmInstruction

/-! ## Activations -/

/-- The code behind a label. -/
def seekLabel (target : Label) : List LlvmInstruction → Option (List LlvmInstruction)
  | [] => none
  | .label label :: code => if label = target then some code else seekLabel target code
  | _ :: code => seekLabel target code

/-- An activation of a function. -/
structure Activation where
  /-- The name of the function. -/
  function : String
  /-- The code of the function. -/
  body : List LlvmInstruction
  /-- The instructions from the next one on. -/
  code : List LlvmInstruction
  /-- The label of the current block. -/
  block : Label
  /-- The label of the block that the last jump came from. -/
  previous : Label
  /-- The values of the registers. -/
  registers : Register → Option LlvmValue
  /-- The memory of the locals that are allocated; it has no value before the first store. -/
  cells : ℕ → Option (Option LlvmValue)

namespace Activation

/-- The start of a function with arguments. -/
def called (function : String) (body : List LlvmInstruction) (arguments : List LlvmValue) :
    Activation where
  function := function
  body := body
  code := body
  block := .entry
  previous := .entry
  registers
    | .argument number => arguments[number]?
    | _ => none
  cells _ := none

/-- The value of an operand. -/
def operand (a : Activation) : LlvmOperand → Option LlvmValue
  | .constant value => some value
  | .literal _ value => some (.text value)
  | .register register => a.registers register
  | .empty => none

/-- An operand that is a 64-bit Integer. -/
def operand64 (a : Activation) (operand : LlvmOperand) : Option ℤ :=
  match a.operand operand with
  | some (.i64 value) => some value
  | _ => none

/-- An operand that is a Boolean. -/
def operand1 (a : Activation) (operand : LlvmOperand) : Option Bool :=
  match a.operand operand with
  | some (.i1 value) => some value
  | _ => none

/-- An operand that is a Text. -/
def operandText (a : Activation) (operand : LlvmOperand) : Option String :=
  match a.operand operand with
  | some (.text value) => some value
  | _ => none

/-- A new value of a register. -/
def set (a : Activation) (register : Register) (value : LlvmValue) : Activation :=
  { a with registers := Function.update a.registers register (some value) }

/-- A new value of a cell. -/
def setCell (a : Activation) (cell : ℕ) (value : Option LlvmValue) : Activation :=
  { a with cells := Function.update a.cells cell (some value) }

/-- A jump to a label. -/
def goto (a : Activation) (target : Label) : Option Activation :=
  (seekLabel target a.body).map fun code =>
    { a with code := code, block := target, previous := a.block }

end Activation

/-- The value of a type that the runtime prints. -/
def printedValue (type : ℕ) : LlvmValue → Option ScalarValue
  | .i64 value => if type = 1 then some (.integer value) else none
  | .i32 value => if type = 3 then some (.character (Char.ofNat value.toNat)) else none
  | .i1 value => if type = 4 then some (.boolean value) else none
  | .text value => if type = 2 then some (.text value) else none
  | .checked _ _ => none

/-- Whether a value has the type of a declaration. -/
def LlvmValue.hasType (type : ℕ) : LlvmValue → Bool
  | i64 _ => type = 1
  | text _ => type = 2
  | i32 _ => type = 3
  | i1 _ => type = 4
  | checked _ _ => false

/-- A comparison of two values of a type. -/
def Comparison.values (comparison : Comparison) (type : ℕ) : LlvmValue → LlvmValue → Option Bool
  | .i64 left, .i64 right => if type = 1 then some (comparison.apply left right) else none
  | .i32 left, .i32 right => if type = 3 then some (comparison.apply left right) else none
  | .i1 left, .i1 right =>
    if type = 4 then some (comparison.apply left.toNat right.toNat) else none
  | _, _ => none

/-! ## The machine -/

/-- A running program. -/
structure LlvmConfig where
  /-- The activation of the current function. -/
  current : Activation
  /-- The waiting activations, and the registers for the results of their calls. -/
  callers : List (Option ℕ × Activation)
  /-- `minyar_call_depth`. -/
  depth : ℕ
  /-- The values printed so far. -/
  printed : List ScalarValue

/-- A program or what it has ended with. -/
inductive LlvmState
  | running (config : LlvmConfig)
  | finished (status : ℤ) (printed : List ScalarValue)
  | stopped (stop : ScalarStop) (printed : List ScalarValue)

namespace LlvmConfig

/-- The active functions, the innermost first. -/
def active (c : LlvmConfig) : List String :=
  c.current.function :: c.callers.map fun caller => caller.2.function

/-- The program goes on in the current function. -/
def goOn (c : LlvmConfig) (a : Activation) : LlvmState := .running { c with current := a }

/-- A return from the current function. -/
def leave (c : LlvmConfig) (value : Option LlvmValue) : Option LlvmState :=
  match c.callers, value with
  | (some result, caller) :: callers, some value =>
    some (.running { c with current := caller.set (.value result) value, callers := callers })
  | (none, caller) :: callers, none =>
    some (.running { c with current := caller, callers := callers })
  | _, _ => none

/-- What an instruction of a program does; the current activation is already behind it. -/
def execute (p : List LlvmFunction) (h : Host) (c : LlvmConfig) :
    LlvmInstruction → Option LlvmState
  | .label _ => none
  | .allocate cell _ => some (c.goOn (c.current.setCell cell none))
  | .load result type cell => do
    let value ← (← c.current.cells cell)
    if value.hasType type then return c.goOn (c.current.set (.value result) value) else none
  | .store type value cell => do
    let value ← c.current.operand value
    let _ ← c.current.cells cell
    if value.hasType type then return c.goOn (c.current.setCell cell (some value)) else none
  | .calculate calculation result left right => do
    let value := calculation.apply (← c.current.operand64 left) (← c.current.operand64 right)
    return c.goOn (c.current.set (.checked result)
      (.checked (value.bmod (2 ^ 64)) (decide (¬ IsInteger64 value))))
  | .extractValue result =>
    match c.current.registers (.checked result) with
    | some (.checked value _) => some (c.goOn (c.current.set (.value result) (.i64 value)))
    | _ => none
  | .extractOverflow result =>
    match c.current.registers (.checked result) with
    | some (.checked _ overflow) =>
      some (c.goOn (c.current.set (.overflow result) (.i1 overflow)))
    | _ => none
  | .checkOverflow result => do
    if ← c.current.operand1 (.register (.overflow result)) then
      return .stopped overflowStop c.printed
    else return .running c
  | .checkDivision left right => do
    let left ← c.current.operand64 left
    let right ← c.current.operand64 right
    if right = 0 then return .stopped zeroDivisionStop c.printed
    else if left = -2 ^ 63 ∧ right = -1 then return .stopped divisionRangeStop c.printed
    else return .running c
  | .divide division result left right => do
    let left ← c.current.operand64 left
    let right ← c.current.operand64 right
    if right = 0 ∨ left = -2 ^ 63 ∧ right = -1 then none
    else return c.goOn (c.current.set (.value result) (.i64 (division.apply left right)))
  | .compare comparison type result left right => do
    let value ← comparison.values type (← c.current.operand left) (← c.current.operand right)
    return c.goOn (c.current.set (.value result) (.i1 value))
  | .textsEqual result left right => do
    let left ← c.current.operandText left
    let right ← c.current.operandText right
    return c.goOn (c.current.set (.value result) (.i1 (left = right)))
  | .not result value => do
    let value ← c.current.operand1 value
    return c.goOn (c.current.set (.value result) (.i1 (!value)))
  | .characterAt result _ value =>
    some (c.goOn (c.current.set (.value result) (.i32 value.toNat)))
  | .branch condition ifTrue ifFalse => do
    let condition ← c.current.operand1 condition
    return c.goOn (← c.current.goto (if condition then ifTrue else ifFalse))
  | .jump target => do return c.goOn (← c.current.goto target)
  | .phi result short leftBlock right rightBlock => do
    let value ← if c.current.previous = leftBlock then some short
      else if c.current.previous = rightBlock then c.current.operand1 right
      else none
    return c.goOn (c.current.set (.value result) (.i1 value))
  | .call result returnType name arguments => do
    let function ← p.find? fun function => function.name = name
    let values ← arguments.mapM fun argument => c.current.operand argument.2
    -- A call has the types of the definition; `main` has others.
    if name ≠ "main" ∧ function.parameters = arguments.map Prod.fst ∧
        function.returnType = returnType then
      return .running { c with
        current := .called name function.code values
        callers := (result, c.current) :: c.callers }
    else none
  | .print type value => do
    let value ← printedValue type (← c.current.operand value)
    return .running { c with printed := c.printed ++ [value] }
  | .fail message => do return .stopped (.message (← c.current.operandText message)) c.printed
  | .exit status => do return .stopped (.exit (← c.current.operand64 status)) c.printed
  | .argumentCount result =>
    some (c.goOn (c.current.set (.value result) (.i64 h.argumentCount)))
  | .initializeArguments => some (.running c)
  | .stackEnter =>
    if h.room c.active then some (.running { c with depth := c.depth + 1 })
    else some (.stopped depthStop c.printed)
  | .stackLeave =>
    if c.depth = 0 then
      some (.stopped (.message "the runtime detected an unbalanced function return.") c.printed)
    else some (.running { c with depth := c.depth - 1 })
  -- These calls need a frame, which a function without owners does not have.
  | .rcStep => none
  | .rcLeave => none
  | .truncate result value => do
    let value ← c.current.operand64 value
    return c.goOn (c.current.set (.value result) (.i32 (value.bmod (2 ^ 32))))
  | .ret type value =>
    if type = 5 then c.leave none else do c.leave (some (← c.current.operand value))
  | .retVoid => c.leave none
  | .retStatus value =>
    match c.callers, c.current.operand value with
    | [], some (.i32 status) => some (.finished status c.printed)
    | _, _ => none
  | .unreachable => none

end LlvmConfig

/-- One step of a program. -/
def llvmStep (p : List LlvmFunction) (h : Host) : LlvmState → Option LlvmState
  | .running c =>
    match c.current.code with
    | [] => none
    | instruction :: code =>
      { c with current := { c.current with code := code } }.execute p h instruction
  | _ => none

/-- A program before its first step: the activation of `main`. -/
def llvmStart (code : List LlvmInstruction) : LlvmState :=
  .running {
    current := .called "main" code []
    callers := []
    depth := 0
    printed := [] }

end Minyar

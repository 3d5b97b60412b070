import Minyar.Library.TaggedMap
import Minyar.Compiler.LexicalScopes
import Minyar.Modules.SymbolSearch
import Minyar.Types.ListMutation

/-!
# The emitter of owner slots

The compiler writes a function into a list of output pieces while it reads its tokens.  A binding
that acquires an owner gets a slot of the frame; the map from bindings to slots is shared by all
functions of a program through generation tags, and it also holds the marks of scalar-replaced
records, as negative values.  How many slots a function has is known behind its body only, so the
entry of the function is an empty piece until then.

The definitions are the functions of the compiler with the same names, on the parts of the state they
use.
-/

namespace Minyar

/-! ## The state -/

/-- The cells of the state that slots are given out from. -/
structure SlotTable where
  /-- `state[9]`, the generation of the map. -/
  generation : ℤ := 1
  /-- `state[8]`, the number of slots of the function. -/
  owners : ℕ := 0
  /-- `state[12]` and what follows: the map. -/
  entries : List ℤ := []
  /-- The calls of `ownershipSlot` in the function and their answers, which the code does not keep. -/
  answers : List (ℕ × ℤ) := []
  /-- The locals that were marked as scalar records in the function, which the code does not keep. -/
  scalars : List ℕ := []

/-- The output of a function. -/
structure Output where
  /-- The pieces. -/
  pieces : List String
  /-- The piece that the entry of the function will be in. -/
  entrySlot : ℕ := 0
  /-- `state[6]`: the function has owners. -/
  references : Bool := false
  /-- `state[7]`, the number of temporaries. -/
  effects : ℤ := 0

/-- A binding: an entry of `localNames`, `localTypes` and `localIds`. -/
structure LocalBinding where
  /-- The name. -/
  name : String
  /-- The type. -/
  type : ℕ
  /-- The number of the local, or `-n - 1` when its value is the operand in the output piece `n`. -/
  id : ℤ

/-- What is in scope. -/
structure Scope where
  /-- The tokens from `state[0]` on. -/
  rest : List Token
  /-- The first `state[3]` bindings. -/
  locals : List LocalBinding := []
  /-- `firstScopedLocal` of the open blocks, the innermost first. -/
  blocks : List ℕ := []
  /-- `state[4]`, the number of the next local. -/
  nextLocal : ℕ := 0

/-- The state of the compiler in a function. -/
structure Emitter where
  /-- The slots. -/
  table : SlotTable
  /-- The output. -/
  out : Output
  /-- The scope. -/
  scope : Scope
  /-- `state[5]`, the user function that was called last. -/
  resolvedCall : ℤ := -1
  /-- `state[10]`, the local that the next record literal is replaced for, or -1. -/
  scalarLocal : ℤ := -1
  /-- `state[11]`, the cost of the scans so far. -/
  scanCost : ℕ := 0

/-- The type of a value and, where the list has a second entry, the token of its owner. -/
structure ResultType where
  /-- The first entry. -/
  type : ℕ
  /-- The second entry. -/
  owner : Option ℤ := none

/-! ## Slots -/

namespace SlotTable

/-- The new slot of a local. -/
def allocateSlot (t : SlotTable) (id : ℕ) : SlotTable :=
  { t with
    entries := storeTagged (-1) t.entries t.generation id t.owners
    owners := t.owners + 1
    answers := t.answers ++ [(id, (t.owners : ℤ))] }

/-- The value that a local has in the map. -/
def knownSlot (t : SlotTable) (id : ℕ) (value : ℤ) : SlotTable :=
  { t with
    entries := padTo (-1) t.entries (id * 2 + 2)
    answers := t.answers ++ [(id, value)] }

/-- `ownershipSlot`: the slot of a local, which is allocated at the first call in a generation. -/
def ownershipSlot (t : SlotTable) (id : ℕ) : ℤ × SlotTable :=
  let map := padTo (-1) t.entries (id * 2 + 2)
  if map.getD (id * 2) (-1) ≠ t.generation then (t.owners, t.allocateSlot id)
  else (map.getD (id * 2 + 1) (-1), t.knownSlot id (map.getD (id * 2 + 1) (-1)))

/-- A new function: the map gets a new generation. -/
def reset (t : SlotTable) : SlotTable :=
  { t with
    generation := t.generation + 1
    owners := 0
    answers := []
    scalars := [] }

/-- `markScalarRecord`: a local has no slot but values behind a piece. -/
def markScalarRecord (t : SlotTable) (id values : ℕ) : SlotTable :=
  { t with
    entries := storeTagged (-1) t.entries t.generation id (-2 - values)
    scalars := t.scalars ++ [id] }

end SlotTable

/-! ## Pieces -/

/-- The call that stores a new owner in a slot. -/
def localCall : String := "  call void @minyar_rc_local(i64 "

/-- The call that moves a temporary into a slot. -/
def localTakeCall : String := "  call void @minyar_rc_local_take(i64 "

/-- The call that moves an owner out of a slot. -/
def localMoveCall : String := "  call void @minyar_rc_local_move(i64 "

/-- The note of an owner that may be moved out of a slot. -/
def transferNote : String := "  ; minyar-owned-local-transfer\n"

/-- The call that registers a temporary. -/
def keepCall : String := "  call void @minyar_rc_keep(ptr "

/-- The pieces in front of the number of a slot. -/
def slotCalls : List String := [transferNote, localCall, localTakeCall, localMoveCall]

/-- A piece that the number of a slot need not follow. -/
def PlainPiece (piece : String) : Prop := piece ∉ slotCalls

instance (piece : String) : Decidable (PlainPiece piece) :=
  inferInstanceAs (Decidable (piece ∉ slotCalls))

/-- `llvmType`. -/
def llvmType (type : ℕ) : String :=
  if type = 1 then "i64"
  else if isReferenceType type then "ptr"
  else if type = 3 then "i32"
  else if type = 4 then "i1"
  else "void"

namespace Output

/-- `addOutput`, for several pieces. -/
def add (o : Output) (pieces : List String) : Output := { o with pieces := o.pieces ++ pieces }

/-- `keepReference`: the token of the owner is the index of the first piece. -/
def keepReference (o : Output) (value : String) (type : ℕ) : ℤ × Output :=
  if isReferenceType type then
    (o.pieces.length, { o with
      pieces := o.pieces ++ [keepCall, value, ")\n"]
      references := true
      effects := o.effects + 1 })
  else (-1, o)

/-- `borrowReference`. -/
def borrowReference (o : Output) (value : String) (type : ℕ) : Output :=
  if isReferenceType type then
    { o with
      pieces := o.pieces ++ ["  call void @minyar_rc_borrow(ptr ", value, ")\n"]
      references := true
      effects := o.effects + 1 }
  else o

/-- `takeOwner`: the consumer of a value takes its owner over, out of a slot or before it becomes a
temporary. -/
def takeOwner (o : Output) (value : String) (owner : ℤ) : Bool × Output :=
  if owner = -1 then (false, o)
  else
    let first := owner.toNat
    if o.pieces.getD first "" = transferNote then
      let pieces := o.pieces ++ [localMoveCall, o.pieces.getD (first + 1) "", ")\n"]
      (true, { o with pieces := (pieces.set first "").set (first + 1) "" })
    else if o.pieces.getD first "" = keepCall ∧ o.pieces.getD (first + 1) "" = value then
      (true, { o with
        pieces := ((o.pieces.set first "").set (first + 1) "").set (first + 2) ""
        effects := o.effects - 1 })
    else (false, o)

/-- `takeResult`. -/
def takeResult (o : Output) (value : String) (result : ResultType) : Bool × Output :=
  match result.owner with
  | some owner => if isReferenceType result.type then o.takeOwner value owner else (false, o)
  | none => (false, o)

end Output

namespace Emitter

/-- `addOutput`, for several pieces. -/
def add (e : Emitter) (pieces : List String) : Emitter := { e with out := e.out.add pieces }

/-- The emitter at other tokens. -/
def withRest (e : Emitter) (rest : List Token) : Emitter :=
  { e with scope := { e.scope with rest := rest } }

/-- `rootLocal`: stores a new owner in the slot of a local that has one. -/
def rootLocal (e : Emitter) (id : ℕ) (value : String) (type : ℕ) : Emitter :=
  if isReferenceType type then
    let answer := e.table.ownershipSlot id
    if answer.1 < 0 then { e with table := answer.2 }
    else { e with
      table := answer.2
      out := { e.out with references := true }.add
        [localCall, toString answer.1, ", ptr ", value, ")\n"] }
  else e

/-- `assignReference`: the slot of a local takes over the owner of a value or gets a new one. -/
def assignReference (e : Emitter) (id : ℕ) (value : String) (result : ResultType) : Emitter :=
  let taken := e.out.takeResult value result
  if taken.1 = true then
    let answer := e.table.ownershipSlot id
    { e with
      table := answer.2
      out := { taken.2 with references := true }.add
        [localTakeCall, toString answer.1, ", ptr ", value, ")\n"] }
  else { e with out := taken.2 }.rootLocal id value result.type

/-- What `parseAtom` writes behind the load of a local whose owner may be moved. -/
def transferLocal (e : Emitter) (id : ℕ) : Emitter :=
  let answer := e.table.ownershipSlot id
  { e with table := answer.2, out := e.out.add [transferNote, toString answer.1] }

/-- What `parseRecord` does for a literal that is replaced: a comment for every field, which its
value is written into, and the mark. -/
def recordScalars (e : Emitter) (fieldCount : ℕ) : Emitter :=
  if 0 ≤ e.scalarLocal then
    let out := e.out.add ["; scalar record " ++ toString e.scalarLocal ++ "\n"]
    { e with
      table := e.table.markScalarRecord e.scalarLocal.toNat out.pieces.length
      out := out.add (List.replicate fieldCount ["; ", "", "\n"]).flatten
      scalarLocal := -1 }
  else { e with scalarLocal := -1 }

/-- `findLocal`: the last binding with the name. -/
def findLocal (e : Emitter) (name : String) : Option LocalBinding :=
  e.scope.locals.reverse.find? fun binding => binding.name = name

/-- `nextLocal` and `addLocal`: a binding gets the next local. -/
def addLocal (e : Emitter) (name : String) (type : ℕ) : Emitter :=
  { e with scope := { e.scope with
    locals := e.scope.locals ++ [⟨name, type, e.scope.nextLocal⟩]
    nextLocal := e.scope.nextLocal + 1 } }

/-- What a `let` does with the value: `assignReference` and the store. -/
def bindLocal (e : Emitter) (name value : String) (result : ResultType) : Emitter :=
  ((e.addLocal name result.type).assignReference e.scope.nextLocal value result).add
    ["  store ", llvmType result.type, " ", value, ", ptr %local.", toString e.scope.nextLocal, "\n"]

end Emitter

/-! ## Scalar records -/

/-- The symbols of a program: `functionNames`, `symbolKinds`, `functionReturnTypes`,
`functionParameterCounts`, `functionParameterNames` and `functionParameterTypes`. -/
structure ProgramSymbols where
  /-- The names. -/
  names : List Text
  /-- The kinds. -/
  kinds : List ℕ
  /-- The types that functions return, and the sorted lookup behind them. -/
  returnTypes : List ℕ
  /-- The numbers of parameters or fields, and their offsets behind them. -/
  counts : List ℕ
  /-- The names of all parameters and fields. -/
  fieldNames : List Text
  /-- The types of all parameters and fields. -/
  fields : List ℕ

/-- The record that a token names, or -1. -/
def ProgramSymbols.record (p : ProgramSymbols) (token : Token) : ℤ :=
  findCompiledSymbol p.names p.kinds p.returnTypes token.text.toList 2

/-- `prepareScalarRecord`: a record literal is replaced when all its fields are plain, the scans may
still cost as much, the literal is the whole value, and the name is only projected in the rest of
its scope.  `none` is a failure of the compiler. -/
def Emitter.prepareScalarRecord (p : ProgramSymbols) (e : Emitter) (token : Token) (name : String) :
    Option Emitter :=
  let record := p.record token
  if record < 0 then some e
  else
    let count := p.counts.getD record.toNat 0
    let cost := if count * 8 = 0 then 8 else count * 8
    if 512 < cost + e.scanCost then some e
    else
      let first := functionParameterOffset p.counts record.toNat
      if (List.range count).any fun field => isReferenceType (p.fields.getD (first + field) 0) then
        some e
      else
        match skipDeclaration e.scope.rest with
        | none => none
        | some after =>
          let ends : Bool := match after.head? with
            | none => true
            | some next => next.kind = .endOfFile || next.kind = .terminator || next.text = "\x7d"
          some { e with
            scanCost := e.scanCost + cost
            scalarLocal := if ends && scopeAvoids (usedWhole name) 0 after then e.scope.nextLocal
              else e.scalarLocal }

/-- The test of a `let` in front of `prepareScalarRecord`. -/
def Emitter.prepare (p : ProgramSymbols) (e : Emitter) (name : String) : Option Emitter :=
  match e.scope.rest with
  | token :: next :: _ =>
    if token.kind = .name ∧ next.text = "\x7b" then e.prepareScalarRecord p token name else some e
  | _ => some e

/-! ## Functions -/

/-- The head of a function. -/
structure FunctionHeader where
  /-- The name. -/
  name : String
  /-- The names and types of the parameters. -/
  parameters : List (String × ℕ)
  /-- The type that is returned. -/
  returnType : ℕ
  deriving DecidableEq

/-- The parameters in the head of the definition: a parameter that is never assigned is bound to its
operand. -/
def addParameters (marks : List Bool) :
    ℕ → List (String × ℕ) → List String → List LocalBinding × List String
  | _, [], pieces => ([], pieces)
  | index, (name, type) :: parameters, pieces =>
    let pieces := (if 0 < index then pieces ++ [", "] else pieces) ++ [llvmType type, " "]
    let id : ℤ := if marks.getD index true then index else -pieces.length - 1
    let others := addParameters marks (index + 1) parameters
      (pieces ++ ["%argument." ++ toString index])
    (⟨name, type, id⟩ :: others.1, others.2)

/-- The stores of the parameters that are assigned. -/
def parameterStores (locals : List LocalBinding) : List String :=
  (locals.zipIdx.map fun (binding, index) =>
    if 0 ≤ binding.id then
      ["  %local.", toString index, " = alloca ", llvmType binding.type, "\n",
        "  store ", llvmType binding.type, " %argument.", toString index, ", ptr %local.",
        toString index, "\n"]
    else []).flatten

/-- The head of a definition: the bindings of the parameters, and the output up to the parenthesis. -/
def FunctionHeader.declare (h : FunctionHeader) (body : List Token) (pieces : List String) :
    List LocalBinding × List String :=
  if h.name = "main" then
    ([], pieces ++ ["define ", "i32", " @", h.name, "(",
      "i32 %minyar.argument.count, ptr %minyar.argument.values"])
  else addParameters (markAssignedParameters (h.parameters.map Prod.fst) body) 0 h.parameters
    (pieces ++ ["define ", llvmType h.returnType, " @", h.name, "("])

/-- What a function does first. -/
def FunctionHeader.initialize (h : FunctionHeader) (locals : List LocalBinding) : List String :=
  (if h.name = "main" then ["  call void @minyar_initialize_arguments(" ++
    "i32 %minyar.argument.count, ptr %minyar.argument.values)\n"] else []) ++ parameterStores locals

/-- The end of the head of a definition. -/
def entryLabel : String := ") \x7b\nentry:\n"

/-- `compileFunctions` from the body's first token to the body: the state is reset but for the map,
which gets a new generation. -/
def Emitter.beginFunction (limit : ℕ) (h : FunctionHeader) (e : Emitter) : Emitter :=
  let declared := h.declare e.scope.rest e.out.pieces
  { table := e.table.reset
    out := {
      pieces := declared.2 ++ [entryLabel, ""] ++ h.initialize declared.1
      entrySlot := declared.2.length + 1 }
    scope := {
      rest := e.scope.rest
      locals := declared.1
      nextLocal := h.parameters.length }
    resolvedCall := if 0 < limit then -1 else e.resolvedCall }

/-- The service of pending work. -/
def rcStep : String := "  call void @minyar_rc_step()\n"

/-- The end of an activation. -/
def rcLeave : String := "  call void @minyar_rc_leave()\n"

/-- The start of every entry. -/
def stackEntry : String := "  call void @minyar_stack_enter()\n"

/-- The entry of a function with a frame in the list of frames. -/
def enterCall (owners : ℕ) : String := "  call void @minyar_rc_enter(i64 " ++ toString owners ++ ")\n"

/-- The entry of a function with a frame on the stack. -/
def enterStackCall (owners : ℕ) : String :=
  "  %rc.stack.header = alloca [64 x i8], align 8\n" ++
    "  %rc.stack.owners = alloca [" ++ toString (owners * 2) ++ " x i64], align 8\n" ++
    "  call void @minyar_rc_enter_stack_v1(ptr %rc.stack.header, ptr %rc.stack.owners, i64 " ++
    toString owners ++ ")\n"

namespace Output

/-- Replaces pieces behind the entry. -/
def mapBody (o : Output) (f : String → String) : Output :=
  { o with pieces := o.pieces.take (o.entrySlot + 1) ++ (o.pieces.drop (o.entrySlot + 1)).map f }

/-- `finishFunctionEntry`. -/
def finishFunctionEntry (o : Output) (locals parameters owners : ℕ) : Output :=
  let allocas := (List.range' parameters (locals - parameters)).map fun number =>
    "  %local." ++ toString number ++ " = alloca i64\n"
  let entry := stackEntry ++ (if o.references then enterCall owners else "") ++ String.join allocas
  let o := if o.references then o
    else o.mapBody fun piece => if piece = rcStep ∨ piece = rcLeave then "" else piece
  { o with pieces := o.pieces.set o.entrySlot entry }

/-- `finishStackOwnership`. -/
def finishStackOwnership (o : Output) (owners : ℕ) : Output :=
  let prefixLength := (stackEntry ++ enterCall owners).length
  let entry := stackEntry ++ enterStackCall owners ++
    String.ofList ((o.pieces.getD o.entrySlot "").toList.drop prefixLength)
  let o := { o with
    pieces := (o.pieces.set o.entrySlot entry).set (o.entrySlot - 1)
      ") noinline \x7b\nentry:\n" }
  o.mapBody fun piece =>
    if piece = rcLeave then "  call void @minyar_rc_leave_stack_v1(ptr %rc.stack.header)\n"
    else piece

end Output

/-- The return of a function that may reach the end of its body. -/
def Emitter.finishBody (h : FunctionHeader) (returns : Bool) (e : Emitter) : Output :=
  if returns then e.out
  else e.out.add [rcLeave, "  call void @minyar_stack_leave()\n",
    if h.name = "main" then "  ret i32 0\n" else "  ret void\n"]

/-- `compileFunctions` behind the body: the return and the entry. -/
def Emitter.endFunction (limit : ℕ) (h : FunctionHeader) (returns : Bool) (e : Emitter) : Emitter :=
  let out := (e.finishBody h returns).finishFunctionEntry e.scope.nextLocal h.parameters.length
    e.table.owners
  let out := if 0 < limit ∧ h.name ≠ "main" ∧ e.resolvedCall = -1 ∧ out.references = true ∧
      1 ≤ e.table.owners ∧ e.table.owners ≤ limit then
    out.finishStackOwnership e.table.owners else out
  { e with out := out.add ["\x7d\n\n"] }

end Minyar

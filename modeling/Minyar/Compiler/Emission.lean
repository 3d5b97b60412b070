import Mathlib.Logic.Relation
import Minyar.Compiler.Emitter

/-!
# Runs of the emitter

What the compiler does in a function is a sequence of steps.  Inside an expression it adds pieces,
fills empty pieces, keeps, borrows and takes owners (`EmissionStep`), and it reads the tokens of the
expression (`Emission`).  Statements and the braces of blocks are the steps of a body (`BodyStep`),
and `CompilesFunctions` is the loop of `compileFunctions` over the functions of a program, which
share one map of slots.

A step that the compiler can take is one of these; they leave open which texts the pieces have that
are no part of a slot call, and which types and operands the values have.
-/

namespace Minyar

/-- A field of a record of the program. -/
def ProgramSymbols.IsField (p : ProgramSymbols) (name : String) : Prop :=
  ∃ record field, p.kinds.getD record 0 = 2 ∧ field < p.counts.getD record 0 ∧
    p.fieldNames[functionParameterOffset p.counts record + field]? = some name.toList

/-- A record of the program. -/
def ProgramSymbols.IsRecord (p : ProgramSymbols) (name : String) : Prop :=
  ∃ record : ℕ, p.kinds.getD record 0 = 2 ∧ p.names[record]? = some name.toList

/-- The index of an owner's first piece in the body of the function, or -1. -/
def Output.IsOwner (o : Output) (owner : ℤ) : Prop := owner = -1 ∨ (o.entrySlot : ℤ) < owner

/-- One step inside an expression.  In the assignment `x = x + e` the owner of `x`, whose local is
`own`, may be moved. -/
inductive EmissionStep (own : Option ℕ) : Emitter → Emitter → Prop
  /-- Pieces that start no call with an owner. -/
  | pieces {e : Emitter} {pieces : List String} (h : ∀ piece ∈ pieces, PlainPiece piece) :
      EmissionStep own e (e.add pieces)
  /-- A branch, or the value of a field, in a piece that was left empty. -/
  | fill {e : Emitter} {index : ℕ} {piece : String} (hindex : e.out.entrySlot < index)
      (hempty : e.out.pieces[index]? = some "") (h : PlainPiece piece) :
      EmissionStep own e { e with out := { e.out with pieces := e.out.pieces.set index piece } }
  /-- `keepReference`. -/
  | keep {e : Emitter} {value : String} (type : ℕ) (h : PlainPiece value) :
      EmissionStep own e { e with out := (e.out.keepReference value type).2 }
  /-- `borrowReference`. -/
  | borrow {e : Emitter} {value : String} (type : ℕ) (h : PlainPiece value) :
      EmissionStep own e { e with out := e.out.borrowReference value type }
  /-- `takeOwner`, also from `takeResult`. -/
  | take {e : Emitter} {owner : ℤ} (value : String) (h : e.out.IsOwner owner) :
      EmissionStep own e { e with out := (e.out.takeOwner value owner).2 }
  /-- A call of a user function. -/
  | call {e : Emitter} (function : ℤ) : EmissionStep own e { e with resolvedCall := function }
  /-- The load of the local whose owner may be moved. -/
  | transfer {e : Emitter} {id : ℕ} (h : own = some id) : EmissionStep own e (e.transferLocal id)

/-- An expression, or a part of a statement without a block. -/
inductive Emission (p : ProgramSymbols) (own : Option ℕ) : Emitter → Emitter → Prop
  | mk {e e' : Emitter} {tokens rest : List Token}
      (hsteps : Relation.ReflTransGen (EmissionStep own) e e')
      (hreads : ReadsExpression p.IsField tokens) (hrest : e.scope.rest = tokens ++ rest) :
      Emission p own e (e'.withRest rest)

/-- The owner that an assignment of a binding may move: the value starts with the name and a plus
sign, and the binding is a Text in a local. -/
def transferredLocal (binding : LocalBinding) (name : String) (rest : List Token) : Option ℕ :=
  match rest with
  | token :: plus :: _ =>
    if binding.type = 2 ∧ token.kind = .name ∧ token.text = name ∧ plus.text = "+" ∧
        0 ≤ binding.id then some binding.id.toNat
    else none
  | _ => none

/-- The bindings of a block lose their owners. -/
def Emitter.rootLocals (e : Emitter) (locals : List LocalBinding) : Emitter :=
  locals.foldl (fun e binding => e.rootLocal binding.id.toNat "null" binding.type) e

/-- A binding that a slot is asked for has a local; for another one the position in the map would lie
before the list, and the compiler stops. -/
def LocalBinding.HasLocal (binding : LocalBinding) : Prop :=
  isReferenceType binding.type = true → 0 ≤ binding.id

/-- One step in the body of a function. -/
inductive BodyStep (p : ProgramSymbols) : Emitter → Emitter → Prop
  /-- Everything that is none of the following. -/
  | other {e e' : Emitter} (h : Emission p none e e') : BodyStep p e e'
  /-- A `let` with a value that is not replaced. -/
  | letValue {e e₁ e₂ : Emitter} {keyword name equals : Token} {ascribed rest : List Token}
      {value : String} {result : ResultType}
      (hrest : e.scope.rest = keyword :: name :: (ascribed ++ equals :: rest))
      (hheader : ReadsHeader p.IsRecord (keyword :: name :: (ascribed ++ [equals])))
      (hname : name.kind = .name) (hprepare : (e.withRest rest).prepare p name.text = some e₁)
      (hscalar : e₁.scalarLocal < 0) (hvalue : Emission p none e₁ e₂) (hplain : PlainPiece value)
      (howner : ∀ owner, result.owner = some owner → e₂.out.IsOwner owner) :
      BodyStep p e (e₂.bindLocal name.text value result)
  /-- A `let` with a record literal that is replaced. -/
  | letScalar {e e₁ e₂ : Emitter} {keyword name equals record first last : Token}
      {ascribed fields rest rest' : List Token}
      (hrest : e.scope.rest = keyword :: name :: (ascribed ++ equals :: rest))
      (hheader : ReadsHeader p.IsRecord (keyword :: name :: (ascribed ++ [equals])))
      (hname : name.kind = .name) (hprepare : (e.withRest rest).prepare p name.text = some e₁)
      (hscalar : 0 ≤ e₁.scalarLocal) (hliteral : rest = record :: first :: (fields ++ last :: rest'))
      (hrecord : record.kind = .name) (hfirst : punctuationBrace first = some .opening)
      (hlast : punctuationBrace last = some .closing) (hfields : ReadsExpression p.IsField fields)
      (hsteps : Relation.ReflTransGen (EmissionStep none)
        (e₁.recordScalars (p.counts.getD (p.record record).toNat 0)) e₂) :
      BodyStep p e ((e₂.withRest rest').bindLocal name.text "null"
        ⟨1000 + (p.record record).toNat, some (-1)⟩)
  /-- An assignment. -/
  | assign {e e' : Emitter} {name equals : Token} {rest : List Token} {binding : LocalBinding}
      {value : String} {result : ResultType} (hrest : e.scope.rest = name :: equals :: rest)
      (hname : name.kind = .name) (hequals : equals.text = "=") (hend : equals.kind ≠ .endOfFile)
      (hfind : e.findLocal name.text = some binding) (hlocal : binding.HasLocal)
      (hvalue : Emission p (transferredLocal binding name.text rest) (e.withRest rest) e')
      (hplain : PlainPiece value) (htype : result.type = binding.type)
      (howner : ∀ owner, result.owner = some owner → e'.out.IsOwner owner) :
      BodyStep p e ((e'.assignReference binding.id.toNat value result).add
        ["  store ", llvmType result.type, " ", value, ", ptr %local.", toString binding.id, "\n"])
  /-- The opening brace of a block. -/
  | openBlock {e : Emitter} {first : Token} {rest : List Token}
      (hrest : e.scope.rest = first :: rest) (hfirst : punctuationBrace first = some .opening) :
      BodyStep p e { e with scope := { e.scope with
        rest := rest
        blocks := e.scope.locals.length :: e.scope.blocks } }
  /-- The closing brace of a block. -/
  | closeBlock {e e' : Emitter} {last : Token} {rest : List Token} {first : ℕ} {blocks : List ℕ}
      (hrest : e.scope.rest = last :: rest) (hlast : punctuationBrace last = some .closing)
      (hblocks : e.scope.blocks = first :: blocks) (returns : Bool)
      (hlocals : ∀ binding ∈ e.scope.locals.drop first, binding.HasLocal)
      (he' : e' = if returns then e else e.rootLocals (e.scope.locals.drop first)) :
      BodyStep p e { e' with scope := { e.scope with
        rest := rest
        locals := e.scope.locals.take first
        blocks := blocks } }

/-- What is left of a function: its part of the output, its slots, the answers of `ownershipSlot` and
the marks. -/
structure CompiledFunction where
  /-- The pieces in front of the entry. -/
  front : List String
  /-- The entry. -/
  entry : String
  /-- The pieces behind the entry. -/
  body : List String
  /-- The number of slots. -/
  owners : ℕ
  /-- The calls of `ownershipSlot` and their answers. -/
  answers : List (ℕ × ℤ)
  /-- The locals that were marked as scalar records. -/
  scalars : List ℕ

/-- The pieces of a function. -/
def CompiledFunction.pieces (f : CompiledFunction) : List String := f.front ++ f.entry :: f.body

/-- The function that an emitter has just finished, behind `start` pieces. -/
def Emitter.compiled (e : Emitter) (start : ℕ) : CompiledFunction where
  front := (e.out.pieces.take e.out.entrySlot).drop start
  entry := e.out.pieces.getD e.out.entrySlot ""
  body := e.out.pieces.drop (e.out.entrySlot + 1)
  owners := e.table.owners
  answers := e.table.answers
  scalars := e.table.scalars

/-- The loop of `compileFunctions`: the functions in their order. -/
inductive CompilesFunctions (p : ProgramSymbols) (limit : ℕ) :
    Emitter → List CompiledFunction → Emitter → Prop
  /-- The end of the program. -/
  | done (e : Emitter) : CompilesFunctions p limit e [] e
  /-- A record or a statement, which is skipped, or the head of a function. -/
  | skip {e e' : Emitter} {fs : List CompiledFunction} (rest : List Token)
      (h : CompilesFunctions p limit (e.withRest rest) fs e') : CompilesFunctions p limit e fs e'
  /-- A function from its body on. -/
  | function {e e₁ e' : Emitter} {fs : List CompiledFunction} {h : FunctionHeader}
      (hmain : h.name = "main" → h.parameters = [])
      (hbody : Relation.ReflTransGen (BodyStep p) (e.beginFunction limit h) e₁)
      (hclosed : e₁.scope.blocks = []) (returns : Bool)
      (hreturns : returns = false → h.name = "main" ∨ h.returnType = 5)
      (hrun : CompilesFunctions p limit (e₁.endFunction limit h returns) fs e') :
      CompilesFunctions p limit e
        ((e₁.endFunction limit h returns).compiled e.out.pieces.length :: fs) e'

/-- The emitter at the start of `compileFunctions`. -/
def Emitter.start (tokens : List Token) (pieces : List String) : Emitter where
  table := {}
  out := { pieces := pieces }
  scope := { rest := tokens }

end Minyar

import Minyar.Library.Numbered
import Minyar.Compiler.ScalarEmission

/-!
# The blocks of the emitted code

The code that the emitter writes for a scalar function is one that the backend accepts: its labels are
different, every jump goes to one of them, no register is assigned twice, and every block ends with
its only jump, return or `unreachable`.  The invariant follows the emitter: what is written between
two of its states has the numbers that were taken in between, and what a statement returns tells
whether a block is open behind it.
-/

namespace Minyar

/-! ## Steps of the emitter -/

namespace Emit

variable {α β : Type} {x : Emit α} {f : α → Emit β} {a c : α} {b : β} {s s' : EmitState}
  {code : List LlvmInstruction}

theorem bind_eq_some : (x >>= f) s = some (b, code, s') ↔ ∃ a code₁ s₁ code₂,
    x s = some (a, code₁, s₁) ∧ f a s₁ = some (b, code₂, s') ∧ code = code₁ ++ code₂ := by
  constructor
  · intro h
    obtain ⟨⟨a, code₁, s₁⟩, hx, h⟩ := Option.bind_eq_some_iff.mp h
    obtain ⟨⟨b', code₂, s₂⟩, hf, h⟩ := Option.map_eq_some_iff.mp h
    cases h
    exact ⟨a, code₁, s₁, code₂, hx, hf, rfl⟩
  · rintro ⟨a, code₁, s₁, code₂, hx, hf, rfl⟩
    exact Option.bind_eq_some_iff.mpr ⟨(a, code₁, s₁), hx,
      Option.map_eq_some_iff.mpr ⟨(b, code₂, s'), hf, rfl⟩⟩

theorem pure_eq_some : (pure a : Emit α) s = some (c, code, s') ↔ a = c ∧ code = [] ∧ s = s' := by
  change some (a, [], s) = _ ↔ _
  simp [eq_comm]

theorem add_eq_some {written : List LlvmInstruction} {u : Unit} :
    add written s = some (u, code, s') ↔ code = written ∧ s' = s := by
  simp [add, eq_comm]

theorem require_eq_some {condition : Prop} [Decidable condition] {u : Unit} :
    require condition s = some (u, code, s') ↔ condition ∧ code = [] ∧ s' = s := by
  by_cases h : condition
  · simp [require, h, pure_eq_some]
    grind
  · simp [require, h, fail]

theorem fail_eq_some : (fail : Emit α) s = some (a, code, s') ↔ False := by
  simp [fail]

theorem ofOption_eq_some {o : Option α} :
    ofOption o s = some (a, code, s') ↔ o = some a ∧ code = [] ∧ s' = s := by
  cases o with
  | none => simp [ofOption, fail_eq_some]
  | some a =>
    simp [ofOption, pure_eq_some]
    grind

theorem newTemporary_eq_some {n : ℕ} : newTemporary s = some (n, code, s') ↔
    n = s.temporary ∧ code = [] ∧ s' = { s with temporary := s.temporary + 1 } := by
  simp [newTemporary, eq_comm]

theorem newLabel_eq_some {n : ℕ} : newLabel s = some (n, code, s') ↔
    n = s.label ∧ code = [] ∧ s' = { s with label := s.label + 1 } := by
  simp [newLabel, eq_comm]

theorem addLocal_eq_some {name : String} {type n : ℕ} :
    addLocal name type s = some (n, code, s') ↔ n = s.nextLocal ∧ code = [] ∧ s' = { s with
      nextLocal := s.nextLocal + 1
      locals := ⟨name, type, .cell s.nextLocal⟩ :: s.locals } := by
  simp [addLocal, eq_comm]

theorem block_eq_some {l : Label} :
    block s = some (l, code, s') ↔ l = s.block ∧ code = [] ∧ s' = s := by
  simp [block, eq_comm]

theorem enterBlock_eq_some {l : Label} {u : Unit} : enterBlock l s = some (u, code, s') ↔
    code = [.label l] ∧ s' = { s with block := l } := by
  simp [enterBlock, eq_comm]

theorem findLocal_eq_some {name : String} {binding : ScalarBinding} :
    findLocal name s = some (binding, code, s') ↔
      s.locals.find? (fun binding => binding.name = name) = some binding ∧ code = [] ∧ s' = s := by
  cases h : s.locals.find? fun binding => binding.name = name with
  | none => simp [findLocal, h]
  | some found =>
    simp [findLocal, h]
    grind

theorem scope_eq_some {outer : List ScalarBinding} :
    scope s = some (outer, code, s') ↔ outer = s.locals ∧ code = [] ∧ s' = s := by
  simp [scope, eq_comm]

theorem closeScope_eq_some {outer : List ScalarBinding} {u : Unit} :
    closeScope outer s = some (u, code, s') ↔ code = [] ∧
      s' = { s with locals := s.locals.drop (s.locals.length - outer.length) } := by
  simp [closeScope, eq_comm]

/-- What is written behind code. -/
def after (code : List LlvmInstruction) :
    Option (α × List LlvmInstruction × EmitState) → Option (α × List LlvmInstruction × EmitState) :=
  Option.map fun r => (r.1, code ++ r.2.1, r.2.2)

theorem after_eq_some {written : List LlvmInstruction}
    {r : Option (α × List LlvmInstruction × EmitState)} :
    after written r = some (a, code, s') ↔ ∃ code', r = some (a, code', s') ∧ code = written ++ code' := by
  rcases r with - | ⟨b, code', s₁⟩
  · simp [after]
  · simp [after]
    grind

/-- Nothing is written. -/
theorem after_nil (r : Option (α × List LlvmInstruction × EmitState)) : after [] r = r := by
  cases r <;> rfl

theorem newLabel_bind {f : ℕ → Emit β} :
    (newLabel >>= f) s = f s.label { s with label := s.label + 1 } :=
  after_nil _

theorem add_bind {written : List LlvmInstruction} {f : Unit → Emit β} :
    (add written >>= f) s = after written (f () s) := rfl

theorem enterBlock_bind {l : Label} {f : Unit → Emit β} :
    (enterBlock l >>= f) s = after [.label l] (f () { s with block := l }) := rfl

theorem require_bind {condition : Prop} [Decidable condition] {f : Unit → Emit β} :
    (require condition >>= f) s = if condition then f () s else none := by
  by_cases h : condition
  · rw [require, if_pos h, if_pos h]
    exact after_nil _
  · rw [require, if_neg h, if_neg h]
    rfl

attribute [simp] bind_eq_some pure_eq_some add_eq_some require_eq_some fail_eq_some ofOption_eq_some
  newTemporary_eq_some newLabel_eq_some addLocal_eq_some block_eq_some enterBlock_eq_some
  findLocal_eq_some scope_eq_some closeScope_eq_some

end Emit

/-! ## Blocks -/

/-- The number in a label. -/
def Label.number : Label → Option ℕ
  | entry => none
  | logicalRight number => some number
  | logicalEnd number => some number
  | ifThen number => some number
  | ifElse number => some number
  | ifEnd number => some number
  | whileCondition number => some number
  | whileBody number => some number
  | whileEnd number => some number
  | dead number => some number

/-- The number of a register that is assigned. -/
def Register.number : Register → Option ℕ
  | argument _ => none
  | value number => some number
  | checked number => some number
  | overflow number => some number

namespace LlvmInstruction

/-- The label that starts a block. -/
def labelName : LlvmInstruction → Option Label
  | label name => some name
  | _ => none

/-- Where a jump goes. -/
def targets : LlvmInstruction → List Label
  | branch _ ifTrue ifFalse => [ifTrue, ifFalse]
  | jump target => [target]
  | _ => []

/-- The registers that are assigned. -/
def results : LlvmInstruction → List Register
  | load result _ _ | extractValue result | divide _ result _ _ | compare _ _ result _ _
  | textsEqual result _ _ | not result _ | characterAt result _ _ | phi result _ _ _ _
  | argumentCount result | truncate result _ | call (some result) _ _ _ => [.value result]
  | calculate _ result _ _ => [.checked result]
  | extractOverflow result => [.overflow result]
  | _ => []

/-- Whether a block is open behind an instruction, if it may stand there. -/
def flow (opened : Bool) : LlvmInstruction → Option Bool
  | label _ => if opened then none else some true
  | branch _ _ _ | jump _ | ret _ _ | retVoid | retStatus _ | unreachable =>
    if opened then some false else none
  | _ => if opened then some true else none

end LlvmInstruction

/-- The labels of code. -/
def codeLabels (code : List LlvmInstruction) : List Label :=
  code.filterMap LlvmInstruction.labelName

/-- Where the code jumps to. -/
def codeTargets (code : List LlvmInstruction) : List Label := code.flatMap LlvmInstruction.targets

/-- The registers that code assigns. -/
def codeResults (code : List LlvmInstruction) : List Register :=
  code.flatMap LlvmInstruction.results

/-- Whether a block is open behind code, if its instructions may stand there. -/
def blockFlow (opened : Bool) (code : List LlvmInstruction) : Option Bool :=
  code.foldlM LlvmInstruction.flow opened

section Lists

variable (code code' : List LlvmInstruction) (i : LlvmInstruction) (b : Bool)

@[simp] theorem codeLabels_nil : codeLabels [] = [] := rfl

@[simp] theorem codeLabels_append : codeLabels (code ++ code') = codeLabels code ++ codeLabels code' :=
  List.filterMap_append

@[simp] theorem codeLabels_cons :
    codeLabels (i :: code) = i.labelName.toList ++ codeLabels code := by
  cases h : i.labelName <;> simp [codeLabels, h]

@[simp] theorem codeTargets_nil : codeTargets [] = [] := rfl

@[simp] theorem codeTargets_append :
    codeTargets (code ++ code') = codeTargets code ++ codeTargets code' :=
  List.flatMap_append

@[simp] theorem codeTargets_cons : codeTargets (i :: code) = i.targets ++ codeTargets code :=
  List.flatMap_cons

@[simp] theorem codeResults_nil : codeResults [] = [] := rfl

@[simp] theorem codeResults_append :
    codeResults (code ++ code') = codeResults code ++ codeResults code' :=
  List.flatMap_append

@[simp] theorem codeResults_cons : codeResults (i :: code) = i.results ++ codeResults code :=
  List.flatMap_cons

@[simp] theorem blockFlow_nil : blockFlow b [] = some b := rfl

@[simp] theorem blockFlow_append :
    blockFlow b (code ++ code') = (blockFlow b code).bind (blockFlow · code') :=
  List.foldlM_append

@[simp] theorem blockFlow_cons :
    blockFlow b (i :: code) = (i.flow b).bind (blockFlow · code) := rfl

end Lists

attribute [simp] LlvmInstruction.labelName LlvmInstruction.targets LlvmInstruction.results
  LlvmInstruction.flow Label.number Register.number

/-- Code of the form that the backend accepts, behind the label `entry`. -/
structure WellFormedCode (code : List LlvmInstruction) : Prop where
  /-- The labels are different. -/
  labels : (Label.entry :: codeLabels code).Nodup
  /-- The jumps go to labels of the code; none goes back to the entry. -/
  targets : ∀ l ∈ codeTargets code, l ∈ codeLabels code
  /-- Every register is assigned once. -/
  results : (codeResults code).Nodup
  /-- Every block ends with its only jump or return. -/
  flow : blockFlow true code = some false

/-! ## What is written between two states -/

/-- The operand of a value that is calculated before the temporary `n` is taken. -/
def LlvmOperand.Before (n : ℕ) : LlvmOperand → Prop
  | register (.argument _) => True
  | register (.value number) => number < n
  | register (.checked _) => False
  | register (.overflow _) => False
  | _ => True

theorem LlvmOperand.Before.mono {m n : ℕ} {o : LlvmOperand} (h : o.Before m) (hle : m ≤ n) :
    o.Before n := by
  unfold LlvmOperand.Before at *
  grind

/-- What holds of code that the emitter writes between two states, and whether a block is open in
front of it and behind it. -/
structure Emitted (opened : Bool) (s : EmitState) (code : List LlvmInstruction) (s' : EmitState)
    (opens : Bool) : Prop where
  /-- The temporaries are counted. -/
  temporary : s.temporary ≤ s'.temporary
  /-- The labels are counted. -/
  label : s.label ≤ s'.label
  /-- The labels have the numbers that were taken. -/
  labels : Numbered Label.number s.label s'.label (codeLabels code)
  /-- The registers have the numbers that were taken. -/
  results : Numbered Register.number s.temporary s'.temporary (codeResults code)
  /-- The jumps stay inside the code. -/
  targets : ∀ l ∈ codeTargets code, l ∈ codeLabels code
  /-- The current block. -/
  block : s'.block ∈ s.block :: codeLabels code
  /-- The blocks end with their jumps. -/
  flow : blockFlow opened code = some opens

namespace Emitted

variable {s s₁ s₂ s' : EmitState} {code code' : List LlvmInstruction} {a b c : Bool}

theorem refl (s : EmitState) (b : Bool) : Emitted b s [] s b := by
  constructor <;> simp

theorem append (h : Emitted a s code s₁ b) (h' : Emitted b s₁ code' s' c) :
    Emitted a s (code ++ code') s' c where
  temporary := h.temporary.trans h'.temporary
  label := h.label.trans h'.label
  labels := by
    rw [codeLabels_append]
    exact h.labels.append h'.labels h.label h'.label
  results := by
    rw [codeResults_append]
    exact h.results.append h'.results h.temporary h'.temporary
  targets l hl := by
    rw [codeLabels_append, List.mem_append]
    rcases List.mem_append.mp (codeTargets_append .. ▸ hl) with hl | hl
    · exact .inl (h.targets l hl)
    · exact .inr (h'.targets l hl)
  block := by
    have := h.block
    have := h'.block
    grind [codeLabels_append]
  flow := by
    rw [blockFlow_append, h.flow, Option.bind_some, h'.flow]

/-- Instructions without labels and jumps that assign the registers of at most one temporary. -/
theorem straight (hcode : ∀ i ∈ code, i.labelName = none ∧ i.targets = [] ∧ i.flow true = some true)
    (hresults : Numbered Register.number s.temporary s'.temporary (codeResults code))
    (htemporary : s.temporary ≤ s'.temporary) (hlabel : s'.label = s.label)
    (hblock : s'.block = s.block) : Emitted true s code s' true := by
  have hlabels : codeLabels code = [] :=
    List.filterMap_eq_nil_iff.mpr fun i hi => (hcode i hi).1
  have htargets : codeTargets code = [] :=
    List.flatMap_eq_nil_iff.mpr fun i hi => (hcode i hi).2.1
  refine ⟨htemporary, hlabel.ge, ?_, hresults, ?_, ?_, ?_⟩
  · simp [hlabels]
  · simp [htargets]
  · simp [hblock]
  · clear hresults hlabels htargets
    induction code with
    | nil => rfl
    | cons i code ih =>
      rw [blockFlow_cons, (hcode i (by simp)).2.2]
      exact ih fun j hj => hcode j (by simp [hj])

end Emitted

/-! ## Expressions -/

/-- What holds of the code of an expression. -/
structure EmittedExpression (s : EmitState) (code : List LlvmInstruction) (s' : EmitState) : Prop
    extends Emitted true s code s' true where
  /-- No binding is added. -/
  locals : s'.locals = s.locals
  /-- No local is taken. -/
  nextLocal : s'.nextLocal = s.nextLocal

/-- What the emitter of an expression writes, and its operand is calculated there. -/
def EmitsExpression (x : Emit EmittedValue) : Prop :=
  ∀ ⦃s v code s'⦄, x s = some (v, code, s') →
    EmittedExpression s code s' ∧ v.operand.Before s'.temporary

theorem EmittedExpression.refl (s : EmitState) : EmittedExpression s [] s :=
  ⟨.refl s true, rfl, rfl⟩

theorem EmittedExpression.append {s s₁ s' : EmitState} {code code' : List LlvmInstruction}
    (h : EmittedExpression s code s₁) (h' : EmittedExpression s₁ code' s') :
    EmittedExpression s (code ++ code') s' :=
  ⟨h.toEmitted.append h'.toEmitted, h'.locals.trans h.locals, h'.nextLocal.trans h.nextLocal⟩

/-- An instruction without a result. -/
theorem EmittedExpression.effect {s : EmitState} {i : LlvmInstruction}
    (hcode : i.labelName = none ∧ i.targets = [] ∧ i.flow true = some true)
    (hresults : i.results = []) : EmittedExpression s [i] s :=
  ⟨.straight (List.forall_mem_singleton.mpr hcode)
    (by rw [codeResults_cons, hresults]; exact .nil _ _) (Nat.le_refl _) rfl rfl, rfl, rfl⟩

/-- Instructions that calculate one temporary. -/
theorem EmittedExpression.calculated {s : EmitState} {code : List LlvmInstruction}
    (hcode : ∀ i ∈ code, i.labelName = none ∧ i.targets = [] ∧ i.flow true = some true)
    (hnodup : (codeResults code).Nodup)
    (hresults : ∀ r ∈ codeResults code, r.number = some s.temporary) :
    EmittedExpression s code { s with temporary := s.temporary + 1 } :=
  ⟨.straight hcode (.of_number hnodup hresults) s.temporary.le_succ rfl rfl, rfl, rfl⟩

/-- What an operator with two sides is compiled to. -/
theorem emitBinary_eq_some {o : BinaryOperator} {left right v : EmittedValue} {s s' : EmitState}
    {code : List LlvmInstruction} (h : emitBinary o left right s = some (v, code, s')) :
    left.type = right.type ∧
      ((o ∈ [.add, .subtract, .multiply] ∧ left.type = 1 ∧ v = ⟨temporaryValue s.temporary, 1⟩ ∧
        s' = { s with temporary := s.temporary + 1 } ∧
        code = [.calculate o.calculation s.temporary left.operand right.operand,
          .extractValue s.temporary, .extractOverflow s.temporary, .checkOverflow s.temporary]) ∨
      (o ∈ [.divide, .remainder] ∧ left.type = 1 ∧ v = ⟨temporaryValue s.temporary, 1⟩ ∧
        s' = { s with temporary := s.temporary + 1 } ∧
        code = [.checkDivision left.operand right.operand,
          .divide o.division s.temporary left.operand right.operand]) ∨
      (o = .equal ∧ left.type = 2 ∧ v = ⟨temporaryValue s.temporary, 4⟩ ∧
        s' = { s with temporary := s.temporary + 1 } ∧
        code = [.textsEqual s.temporary left.operand right.operand]) ∨
      (o = .notEqual ∧ left.type = 2 ∧ v = ⟨temporaryValue (s.temporary + 1), 4⟩ ∧
        s' = { s with temporary := s.temporary + 2 } ∧
        code = [.textsEqual s.temporary left.operand right.operand,
          .not (s.temporary + 1) (temporaryValue s.temporary)]) ∨
      (o ∉ [.add, .subtract, .multiply, .divide, .remainder] ∧
        (left.type = 1 ∨ left.type = 3 ∨ left.type = 4 ∧ (o = .equal ∨ o = .notEqual)) ∧
        v = ⟨temporaryValue s.temporary, 4⟩ ∧ s' = { s with temporary := s.temporary + 1 } ∧
        code = [.compare o.comparison left.type s.temporary left.operand right.operand])) := by
  by_cases htype : left.type = 2
  · cases o <;> simp [emitBinary, emitCalculation, htype] at h ⊢ <;> grind
  · cases o <;> simp [emitBinary, emitCalculation, htype] at h ⊢ <;> grind

theorem emitBinary_emitted (o : BinaryOperator) (left right : EmittedValue) :
    EmitsExpression (emitBinary o left right) := by
  intro s v code s' h
  obtain ⟨-, ⟨-, -, rfl, rfl, rfl⟩ | ⟨-, -, rfl, rfl, rfl⟩ | ⟨-, -, rfl, rfl, rfl⟩ |
    ⟨-, -, rfl, rfl, rfl⟩ | ⟨-, -, rfl, rfl, rfl⟩⟩ := emitBinary_eq_some h
  · exact ⟨.calculated (by simp) (by simp) (by simp), by simp [temporaryValue, LlvmOperand.Before]⟩
  · exact ⟨.calculated (by simp) (by simp) (by simp), by simp [temporaryValue, LlvmOperand.Before]⟩
  · exact ⟨.calculated (by simp) (by simp) (by simp), by simp [temporaryValue, LlvmOperand.Before]⟩
  · have htexts : EmittedExpression s [.textsEqual s.temporary left.operand right.operand]
        { s with temporary := s.temporary + 1 } := .calculated (by simp) (by simp) (by simp)
    exact ⟨htexts.append (.calculated (by simp) (by simp) (by simp)),
      by simp [temporaryValue, LlvmOperand.Before]⟩
  · exact ⟨.calculated (by simp) (by simp) (by simp), by simp [temporaryValue, LlvmOperand.Before]⟩

theorem emitLogical_emitted {short : Bool} {left right : Emit EmittedValue}
    (hleft : EmitsExpression left) (hright : EmitsExpression right) :
    EmitsExpression (emitLogical short left right) := by
  intro s v code s' h
  simp [emitLogical] at h
  obtain ⟨l, code₁, s₁, hl, r, code₂, s₂, ⟨-, hr, -, rfl, rfl⟩, rfl⟩ := h
  obtain ⟨h₁, -⟩ := hleft hl
  obtain ⟨h₂, -⟩ := hright hr
  have hlabel := h₂.label
  have htemporary := h₂.temporary
  dsimp only at hlabel htemporary
  refine ⟨⟨⟨?_, ?_, ?_, ?_, ?_, ?_, ?_⟩, ?_, ?_⟩, ?_⟩
  · exact h₁.temporary.trans (by simp; omega)
  · exact h₁.label.trans (by simp; omega)
  · have hnew : Numbered Label.number s₁.label s₂.label (.logicalRight s₁.label ::
        (codeLabels code₂ ++ [.logicalEnd (s₁.label + 1)])) :=
      (h₂.labels.concat rfl (by omega)).cons rfl (by omega)
    have := h₁.labels.append hnew h₁.label (by omega)
    cases short <;> simpa using this
  · have hnew : Numbered Register.number s₁.temporary (s₂.temporary + 1)
        (codeResults code₂ ++ [.value s₂.temporary]) :=
      h₂.results.append (.of_number (by simp) (by simp)) htemporary (by omega)
    have := h₁.results.append hnew h₁.temporary (by omega)
    cases short <;> simpa using this
  · have := h₁.targets
    have := h₂.targets
    intro l hl
    cases short <;> simp at hl ⊢ <;> grind
  · cases short <;> simp
  · cases short <;> simp [h₁.flow, h₂.flow]
  · exact h₂.locals.trans h₁.locals
  · exact h₂.nextLocal.trans h₁.nextLocal
  · simp [temporaryValue, LlvmOperand.Before]

/-- What a call is compiled to. -/
theorem emitCall_eq_some {signatures : List Signature} {function : String}
    {values : List EmittedValue} {v : EmittedValue} {s s' : EmitState} {code : List LlvmInstruction}
    (h : emitCall signatures function values s = some (v, code, s')) :
    (function = "print" ∧ ∃ value, values = [value] ∧ 1 ≤ value.type ∧ value.type ≤ 4 ∧
      v = ⟨.empty, 5⟩ ∧ s' = s ∧ code = [.print value.type value.operand]) ∨
    (function = "fail" ∧ ∃ value, values = [value] ∧ value.type = 2 ∧
      v = ⟨.empty, 6⟩ ∧ s' = s ∧ code = [.fail value.operand]) ∨
    (function = "exit" ∧ ∃ value, values = [value] ∧ value.type = 1 ∧
      v = ⟨.empty, 6⟩ ∧ s' = s ∧ code = [.exit value.operand]) ∨
    (function = "argumentCount" ∧ values = [] ∧ v = ⟨temporaryValue s.temporary, 1⟩ ∧
      s' = { s with temporary := s.temporary + 1 } ∧ code = [.argumentCount s.temporary]) ∨
    (function ∉ ["print", "fail", "exit", "argumentCount"] ∧ ∃ signature,
      signatures.find? (fun signature => signature.name = function) = some signature ∧
      values.map EmittedValue.type = signature.parameters ∧
      ((signature.returnType = 5 ∧ v = ⟨.empty, 5⟩ ∧ s' = s ∧
        code = [.call none 5 function (values.map fun value => (value.type, value.operand))]) ∨
      (signature.returnType ≠ 5 ∧ signature.returnType ≤ 4 ∧
        v = ⟨temporaryValue s.temporary, signature.returnType⟩ ∧
        s' = { s with temporary := s.temporary + 1 } ∧
        code = [.call (some s.temporary) signature.returnType function
          (values.map fun value => (value.type, value.operand))]))) := by
  unfold emitCall at h
  split at h
  · split at h <;> simp at h
    grind
  split at h
  · split at h <;> simp at h
    grind
  split at h
  · split at h <;> simp at h
    grind
  split at h
  · split at h <;> simp at h
    grind
  split at h
  · simp at h
  · rename_i hprint hfail hexit hcount _
    simp only [Emit.bind_eq_some, Emit.ofOption_eq_some, Emit.require_eq_some] at h
    obtain ⟨signature, _, _, _, ⟨hfind, rfl, rfl⟩, ⟨_, _, _, _, ⟨htypes, rfl, rfl⟩, h, rfl⟩, rfl⟩ := h
    refine .inr (.inr (.inr (.inr ⟨?_, signature, hfind, htypes, ?_⟩)))
    · simp [hprint, hfail, hexit, hcount]
    split at h <;> simp at h <;> grind

theorem emitCall_emitted (signatures : List Signature) (function : String)
    (values : List EmittedValue) : EmitsExpression (emitCall signatures function values) := by
  intro s v code s' h
  rcases emitCall_eq_some h with ⟨-, value, -, -, -, rfl, rfl, rfl⟩ | ⟨-, value, -, -, rfl, rfl, rfl⟩ |
    ⟨-, value, -, -, rfl, rfl, rfl⟩ | ⟨-, -, rfl, rfl, rfl⟩ |
    ⟨-, signature, -, -, ⟨-, rfl, rfl, rfl⟩ | ⟨-, -, rfl, rfl, rfl⟩⟩
  · exact ⟨.effect (by simp) (by simp), trivial⟩
  · exact ⟨.effect (by simp) (by simp), trivial⟩
  · exact ⟨.effect (by simp) (by simp), trivial⟩
  · exact ⟨.calculated (by simp) (by simp) (by simp), by simp [temporaryValue, LlvmOperand.Before]⟩
  · exact ⟨.effect (by simp) (by simp), trivial⟩
  · exact ⟨.calculated (by simp) (by simp) (by simp), by simp [temporaryValue, LlvmOperand.Before]⟩

section

variable (signatures : List Signature)

mutual

/-- The code of an expression. -/
theorem emitExpression_emitted : ∀ e : Expression, EmitsExpression (emitExpression signatures e)
  | .integer value => by
    intro s v code s' h
    simp [emitExpression] at h
    obtain ⟨⟨-, rfl⟩, rfl, rfl⟩ := h
    exact ⟨.refl s, trivial⟩
  | .negative value => by
    intro s v code s' h
    simp [emitExpression] at h
    obtain ⟨⟨-, rfl⟩, rfl, rfl⟩ := h
    exact ⟨.refl s, trivial⟩
  | .text position value => by
    intro s v code s' h
    simp [emitExpression] at h
    obtain ⟨rfl, rfl, rfl⟩ := h
    exact ⟨.refl s, trivial⟩
  | .character position value => by
    intro s v code s' h
    simp [emitExpression] at h
    obtain ⟨⟨rfl, rfl⟩, rfl⟩ := h
    exact ⟨.calculated (by simp) (by simp) (by simp), by simp [temporaryValue, LlvmOperand.Before]⟩
  | .boolean value => by
    intro s v code s' h
    simp [emitExpression] at h
    obtain ⟨rfl, rfl, rfl⟩ := h
    exact ⟨.refl s, trivial⟩
  | .name name => by
    intro s v code s' h
    simp [emitExpression] at h
    obtain ⟨binding, -, h⟩ := h
    cases hplace : binding.place with
    | argument number =>
      simp [hplace] at h
      obtain ⟨rfl, rfl, rfl⟩ := h
      exact ⟨.refl s, trivial⟩
    | cell number =>
      simp [hplace] at h
      obtain ⟨⟨rfl, rfl⟩, rfl⟩ := h
      exact ⟨.calculated (by simp) (by simp) (by simp), by simp [temporaryValue, LlvmOperand.Before]⟩
  | .not operand => by
    intro s v code s' h
    simp [emitExpression] at h
    obtain ⟨value, code₁, s₁, hvalue, ⟨-, rfl, rfl⟩, rfl⟩ := h
    exact ⟨(emitExpression_emitted operand hvalue).1.append
      (.calculated (by simp) (by simp) (by simp)), by simp [temporaryValue, LlvmOperand.Before]⟩
  | .negate operand => by
    intro s v code s' h
    simp [emitExpression, emitCalculation] at h
    obtain ⟨value, code₁, s₁, hvalue, ⟨-, rfl, rfl⟩, rfl⟩ := h
    exact ⟨(emitExpression_emitted operand hvalue).1.append
      (.calculated (by simp) (by simp) (by simp)), by simp [temporaryValue, LlvmOperand.Before]⟩
  | .binary operator left right => by
    have hleft := emitExpression_emitted left
    have hright := emitExpression_emitted right
    unfold emitExpression
    split_ifs
    · exact emitLogical_emitted hleft hright
    · exact emitLogical_emitted hleft hright
    · intro s v code s' h
      simp only [Emit.bind_eq_some] at h
      obtain ⟨l, code₁, s₁, _, hl, ⟨r, code₂, s₂, _, hr, h, rfl⟩, rfl⟩ := h
      obtain ⟨hbinary, hbefore⟩ := emitBinary_emitted operator l r h
      exact ⟨(hleft hl).1.append ((hright hr).1.append hbinary), hbefore⟩
  | .call function arguments => by
    intro s v code s' h
    simp [emitExpression] at h
    obtain ⟨values, code₁, s₁, hvalues, code₂, h, rfl⟩ := h
    obtain ⟨hcall, hbefore⟩ := emitCall_emitted signatures function values h
    exact ⟨(emitArguments_emitted arguments hvalues).1.append hcall, hbefore⟩

/-- The code of the arguments of a call. -/
theorem emitArguments_emitted : ∀ (arguments : List Expression) ⦃s values code s'⦄,
    emitArguments signatures arguments s = some (values, code, s') → EmittedExpression s code s' ∧
      ∀ v ∈ values, v.operand.Before s'.temporary
  | [] => by
    intro s values code s' h
    simp [emitArguments] at h
    obtain ⟨rfl, rfl, rfl⟩ := h
    exact ⟨.refl s, by simp⟩
  | argument :: arguments => by
    intro s values code s' h
    simp [emitArguments] at h
    obtain ⟨value, code₁, s₁, hvalue, code₂, ⟨values, hvalues, rfl⟩, rfl⟩ := h
    obtain ⟨h₁, hbefore₁⟩ := emitExpression_emitted argument hvalue
    obtain ⟨h₂, hbefore₂⟩ := emitArguments_emitted arguments hvalues
    exact ⟨h₁.append h₂, List.forall_mem_cons.mpr ⟨hbefore₁.mono h₂.temporary, hbefore₂⟩⟩

end

end

/-! ## Statements -/

/-- The local of a binding. -/
def ScalarBinding.cell (binding : ScalarBinding) : Option ℕ :=
  match binding.place with
  | .cell number => some number
  | .argument _ => none

/-- The locals of bindings. -/
def localCells (locals : List ScalarBinding) : List ℕ := locals.filterMap ScalarBinding.cell

/-- What holds of the code of a statement, and whether a block is open behind it. -/
structure EmittedStatement (opened : Bool) (s : EmitState) (code : List LlvmInstruction)
    (s' : EmitState) (opens : Bool) : Prop extends Emitted opened s code s' opens where
  /-- The locals are counted. -/
  nextLocal : s.nextLocal ≤ s'.nextLocal
  /-- The bindings that are added have the locals that were taken. -/
  locals : ∃ added, s'.locals = added ++ s.locals ∧
    Numbered some s.nextLocal s'.nextLocal (localCells added)

/-- What holds of the code of a block: its bindings are gone. -/
structure EmittedBlock (s : EmitState) (code : List LlvmInstruction) (s' : EmitState) (opens : Bool) :
    Prop extends Emitted true s code s' opens where
  /-- The locals are counted. -/
  nextLocal : s.nextLocal ≤ s'.nextLocal
  /-- The bindings are those in front of the block. -/
  locals : s'.locals = s.locals

theorem EmittedStatement.refl (s : EmitState) (b : Bool) : EmittedStatement b s [] s b :=
  ⟨.refl s b, Nat.le_refl _, [], rfl, .nil _ _⟩

theorem EmittedStatement.append {s s₁ s' : EmitState} {code code' : List LlvmInstruction}
    {a b c : Bool} (h : EmittedStatement a s code s₁ b) (h' : EmittedStatement b s₁ code' s' c) :
    EmittedStatement a s (code ++ code') s' c := by
  obtain ⟨added, hadded, hcells⟩ := h.locals
  obtain ⟨added', hadded', hcells'⟩ := h'.locals
  refine ⟨h.toEmitted.append h'.toEmitted, h.nextLocal.trans h'.nextLocal, added' ++ added, ?_, ?_⟩
  · rw [hadded', hadded, List.append_assoc]
  · have hnumbered := hcells.append hcells' h.nextLocal h'.nextLocal
    have hperm : (localCells (added' ++ added)).Perm (localCells added ++ localCells added') := by
      rw [localCells, List.filterMap_append]
      exact List.perm_append_comm
    exact ⟨hperm.nodup_iff.mpr hnumbered.1, fun k hk => hnumbered.2 k (hperm.mem_iff.mp hk)⟩

/-- Code that adds no binding. -/
theorem EmittedStatement.of_emitted {s s' : EmitState} {code : List LlvmInstruction} {a b : Bool}
    (h : Emitted a s code s' b) (hlocals : s'.locals = s.locals)
    (hnextLocal : s.nextLocal ≤ s'.nextLocal) : EmittedStatement a s code s' b :=
  ⟨h, hnextLocal, [], hlocals, .nil _ _⟩

theorem EmittedExpression.statement {s s' : EmitState} {code : List LlvmInstruction}
    (h : EmittedExpression s code s') : EmittedStatement true s code s' true :=
  .of_emitted h.toEmitted h.locals h.nextLocal.ge

/-- A last instruction, which ends the block. -/
theorem Emitted.last {s : EmitState} {i : LlvmInstruction} (hlabel : i.labelName = none)
    (htargets : i.targets = []) (hresults : i.results = []) (hflow : i.flow true = some false) :
    Emitted true s [i] s false := by
  refine ⟨Nat.le_refl _, Nat.le_refl _, ?_, ?_, ?_, ?_, ?_⟩
  · simp only [codeLabels_cons, hlabel]
    exact .nil _ _
  · rw [codeResults_cons, hresults]
    exact .nil _ _
  · intro l hl
    rw [codeTargets_cons, htargets] at hl
    cases hl
  · simp only [codeLabels_cons, hlabel]
    simp
  · rw [blockFlow_cons, hflow]
    rfl

theorem emitBlock_eq_some {x : Emit Bool} {s s' : EmitState} {returns : Bool}
    {code : List LlvmInstruction} (h : emitBlock x s = some (returns, code, s')) :
    ∃ s₁, x s = some (returns, code, s₁) ∧
      s' = { s₁ with locals := s₁.locals.drop (s₁.locals.length - s.locals.length) } := by
  simp [emitBlock, -Bool.exists_bool] at h
  obtain ⟨s₁, hx, rfl⟩ := h
  exact ⟨s₁, hx, rfl⟩

theorem emitReturn_eq_some {f : FunctionContext} {value : EmittedValue} {s s' : EmitState} {u : Unit}
    {code : List LlvmInstruction} (h : emitReturn f value s = some (u, code, s')) :
    value.type = f.returnType ∧ value.type ≠ 2 ∧
      ((f.name = "main" ∧ s' = { s with temporary := s.temporary + 1 } ∧
        code = [.rcLeave, .stackLeave, .truncate s.temporary value.operand,
          .retStatus (temporaryValue s.temporary)]) ∨
      (f.name ≠ "main" ∧ s' = s ∧
        code = [.rcLeave, .stackLeave, .ret value.type value.operand])) := by
  simp [emitReturn] at h
  obtain ⟨⟨htype, htext⟩, x, h, rfl⟩ := h
  refine ⟨htype, htext, ?_⟩
  split at h <;> simp at h <;> grind

theorem emitReturn_emitted {f : FunctionContext} {value : EmittedValue} {s s' : EmitState} {u : Unit}
    {code : List LlvmInstruction} (h : emitReturn f value s = some (u, code, s')) :
    EmittedStatement true s code s' false := by
  obtain ⟨-, -, ⟨-, rfl, rfl⟩ | ⟨-, rfl, rfl⟩⟩ := emitReturn_eq_some h
  · have hcode : EmittedExpression s [.rcLeave, .stackLeave, .truncate s.temporary value.operand]
        { s with temporary := s.temporary + 1 } := .calculated (by simp) (by simp) (by simp)
    exact hcode.statement.append (.of_emitted (.last rfl rfl rfl rfl) rfl (Nat.le_refl _))
  · have hcode : EmittedExpression s' [.rcLeave, .stackLeave] s' :=
      (EmittedExpression.effect (i := .rcLeave) (by simp) rfl).append (.effect (by simp) rfl)
    exact hcode.statement.append (.of_emitted (.last rfl rfl rfl rfl) rfl (Nat.le_refl _))

theorem emitDead_emitted {terminated : Bool} {s s' : EmitState} {u : Unit}
    {code : List LlvmInstruction} (h : emitDead terminated s = some (u, code, s')) :
    EmittedStatement (!terminated) s code s' true := by
  cases terminated with
  | false =>
    simp [emitDead] at h
    obtain ⟨rfl, rfl⟩ := h
    exact .refl _ _
  | true =>
    simp [emitDead] at h
    obtain ⟨rfl, rfl⟩ := h
    refine .of_emitted ⟨Nat.le_refl _, Nat.le_succ _, ?_, ?_, ?_, ?_, ?_⟩ rfl (Nat.le_refl _)
    · exact .of_number (by simp) (by simp)
    · simp
    · simp
    · simp
    · simp

/-- What the emitter of statements writes; it returns whether they return. -/
def EmitsStatement (opened : Bool) (x : Emit Bool) : Prop :=
  ∀ ⦃s returns code s'⦄, x s = some (returns, code, s') →
    EmittedStatement opened s code s' (!returns)

theorem emitBlock_emitted {x : Emit Bool} (hx : EmitsStatement true x) {s s' : EmitState}
    {returns : Bool} {code : List LlvmInstruction}
    (h : emitBlock x s = some (returns, code, s')) : EmittedBlock s code s' (!returns) := by
  obtain ⟨s₁, hs₁, rfl⟩ := emitBlock_eq_some h
  have h₁ := hx hs₁
  obtain ⟨added, hadded, -⟩ := h₁.locals
  refine ⟨⟨h₁.temporary, h₁.label, h₁.labels, h₁.results, h₁.targets, h₁.block, h₁.flow⟩,
    h₁.nextLocal, ?_⟩
  simp [hadded]

section

variable {signatures : List Signature} {f : FunctionContext} {s s' : EmitState} {returns : Bool}
  {code : List LlvmInstruction}

/-- The code of an `if` without an `else`, whose first label has the number `n`. -/
def ifThenCode (n : ℕ) (condition : LlvmOperand) (returns : Bool) (code : List LlvmInstruction) :
    List LlvmInstruction :=
  .branch condition (.ifThen n) (.ifEnd (n + 2)) :: .label (.ifThen n) ::
    (code ++ ((if returns then [] else [.jump (.ifEnd (n + 2))]) ++ [.label (.ifEnd (n + 2))]))

/-- The code of an `if` with an `else`. -/
def ifElseCode (n : ℕ) (condition : LlvmOperand) (thenReturns : Bool)
    (thenCode : List LlvmInstruction) (elseReturns : Bool) (elseCode : List LlvmInstruction) :
    List LlvmInstruction :=
  .branch condition (.ifThen n) (.ifElse (n + 1)) :: .label (.ifThen n) ::
    (thenCode ++ ((if thenReturns then [] else [.jump (.ifEnd (n + 2))]) ++
      .label (.ifElse (n + 1)) ::
        (elseCode ++ ((if elseReturns then [] else [.jump (.ifEnd (n + 2))]) ++
          if thenReturns && elseReturns then [] else [.label (.ifEnd (n + 2))]))))

/-- The code of a loop. -/
def whileCode (n : ℕ) (conditionCode : List LlvmInstruction) (condition : LlvmOperand)
    (returns : Bool) (code : List LlvmInstruction) : List LlvmInstruction :=
  .jump (.whileCondition n) :: .label (.whileCondition n) ::
    (conditionCode ++ .branch condition (.whileBody (n + 1)) (.whileEnd (n + 2)) ::
      .label (.whileBody (n + 1)) ::
        (code ++ ((if returns then [] else [.rcStep, .jump (.whileCondition n)]) ++
          [.label (.whileEnd (n + 2))])))

/-- What an `if` without an `else` is compiled to. -/
theorem emitIfThen_eq_some {condition : Expression} {thenBlock : List Statement}
    (h : emitStatement signatures f (.ifThen condition thenBlock) s = some (returns, code, s')) :
    ∃ c code₁ s₁ returns₂ code₂ s₂,
      emitExpression signatures condition s = some (c, code₁, s₁) ∧ c.type = 4 ∧
      emitBlock (emitStatements signatures f false false thenBlock)
        { s₁ with label := s₁.label + 3, block := .ifThen s₁.label } =
          some (returns₂, code₂, s₂) ∧
      returns = false ∧ s' = { s₂ with block := .ifEnd (s₁.label + 2) } ∧
      code = code₁ ++ ifThenCode s₁.label c.operand returns₂ code₂ := by
  simp only [emitStatement, emitJumpUnless, Emit.require_bind, Emit.newLabel_bind, Emit.add_bind,
    Emit.enterBlock_bind, Emit.after_eq_some, Emit.bind_eq_some, Emit.pure_eq_some,
    Option.ite_none_right_eq_some] at h
  obtain ⟨c, code₁, s₁, _, hc, ⟨htype, _, ⟨_, ⟨returns₂, code₂, s₂, _, hblock,
    ⟨_, ⟨_, ⟨rfl, rfl, rfl⟩, rfl⟩, rfl⟩, rfl⟩, rfl⟩, rfl⟩, rfl⟩ := h
  exact ⟨c, code₁, s₁, returns₂, code₂, s₂, hc, htype, hblock, rfl, rfl, rfl⟩

/-- What an `if` with an `else` is compiled to. -/
theorem emitIfElse_eq_some {condition : Expression} {thenBlock elseBlock : List Statement}
    (h : emitStatement signatures f (.ifElse condition thenBlock elseBlock) s =
      some (returns, code, s')) :
    ∃ c code₁ s₁ returns₂ code₂ s₂ returns₃ code₃ s₃,
      emitExpression signatures condition s = some (c, code₁, s₁) ∧ c.type = 4 ∧
      emitBlock (emitStatements signatures f false false thenBlock)
        { s₁ with label := s₁.label + 3, block := .ifThen s₁.label } =
          some (returns₂, code₂, s₂) ∧
      emitBlock (emitStatements signatures f false false elseBlock)
        { s₂ with block := .ifElse (s₁.label + 1) } = some (returns₃, code₃, s₃) ∧
      returns = (returns₂ && returns₃) ∧
      s' = (if returns then s₃ else { s₃ with block := .ifEnd (s₁.label + 2) }) ∧
      code = code₁ ++ ifElseCode s₁.label c.operand returns₂ code₂ returns₃ code₃ := by
  simp only [emitStatement, emitJumpUnless, Emit.require_bind, Emit.newLabel_bind, Emit.add_bind,
    Emit.enterBlock_bind, Emit.after_eq_some, Emit.bind_eq_some, Option.ite_none_right_eq_some] at h
  obtain ⟨c, code₁, s₁, _, hc, ⟨htype, _, ⟨_, ⟨returns₂, code₂, s₂, _, hthen,
    ⟨_, ⟨_, ⟨returns₃, code₃, s₃, _, helse, ⟨code₄, h, rfl⟩, rfl⟩, rfl⟩, rfl⟩, rfl⟩, rfl⟩, rfl⟩,
    rfl⟩ := h
  refine ⟨c, code₁, s₁, returns₂, code₂, s₂, returns₃, code₃, s₃, hc, htype, hthen, helse, ?_⟩
  unfold ifElseCode
  cases hboth : returns₂ && returns₃ with
  | true =>
    rw [hboth, if_pos rfl, Emit.pure_eq_some] at h
    obtain ⟨rfl, rfl, rfl⟩ := h
    exact ⟨rfl, rfl, rfl⟩
  | false =>
    rw [hboth, if_neg (by simp)] at h
    simp only [Emit.enterBlock_bind, Emit.after_eq_some, Emit.pure_eq_some] at h
    obtain ⟨_, ⟨rfl, rfl, rfl⟩, rfl⟩ := h
    exact ⟨rfl, rfl, rfl⟩

/-- What a loop is compiled to. -/
theorem emitWhileLoop_eq_some {condition : Expression} {body : List Statement}
    (h : emitStatement signatures f (.whileLoop condition body) s = some (returns, code, s')) :
    ∃ c code₁ s₁ returns₂ code₂ s₂,
      emitExpression signatures condition
        { s with label := s.label + 3, block := .whileCondition s.label } = some (c, code₁, s₁) ∧
      c.type = 4 ∧
      emitBlock (emitStatements signatures f false false body)
        { s₁ with block := .whileBody (s.label + 1) } = some (returns₂, code₂, s₂) ∧
      returns = false ∧ s' = { s₂ with block := .whileEnd (s.label + 2) } ∧
      code = whileCode s.label code₁ c.operand returns₂ code₂ := by
  simp only [emitStatement, Emit.require_bind, Emit.newLabel_bind, Emit.add_bind,
    Emit.enterBlock_bind, Emit.after_eq_some, Emit.bind_eq_some, Emit.pure_eq_some,
    Option.ite_none_right_eq_some] at h
  obtain ⟨_, ⟨_, ⟨c, code₁, s₁, _, hc, ⟨htype, _, ⟨_, ⟨returns₂, code₂, s₂, _, hblock,
    ⟨_, ⟨_, ⟨rfl, rfl, rfl⟩, rfl⟩, rfl⟩, rfl⟩, rfl⟩, rfl⟩, rfl⟩, rfl⟩, rfl⟩ := h
  exact ⟨c, code₁, s₁, returns₂, code₂, s₂, hc, htype, hblock, rfl, rfl, rfl⟩

theorem emitIfThen_emitted {condition : Expression} {thenBlock : List Statement}
    (hthen : EmitsStatement true (emitStatements signatures f false false thenBlock))
    (h : emitStatement signatures f (.ifThen condition thenBlock) s = some (returns, code, s')) :
    EmittedStatement true s code s' (!returns) := by
  obtain ⟨c, code₁, s₁, returns₂, code₂, s₂, hc, -, ht, rfl, rfl, rfl⟩ := emitIfThen_eq_some h
  unfold ifThenCode
  obtain ⟨h₁, -⟩ := emitExpression_emitted signatures condition hc
  have h₂ := emitBlock_emitted hthen ht
  have hlabel := h₂.label
  have htemporary := h₂.temporary
  dsimp only at hlabel htemporary
  refine .of_emitted ⟨?_, ?_, ?_, ?_, ?_, ?_, ?_⟩ ?_ ?_
  · exact h₁.temporary.trans htemporary
  · exact h₁.label.trans (by simp; omega)
  · have hnew : Numbered Label.number s₁.label s₂.label (.ifThen s₁.label ::
        (codeLabels code₂ ++ [.ifEnd (s₁.label + 2)])) :=
      ((h₂.labels.concat rfl (by omega)).mono (by omega) (Nat.le_refl _)).cons rfl (by omega)
    have := h₁.labels.append hnew h₁.label (by omega)
    cases returns₂ <;> simpa using this
  · have := h₁.results.append h₂.results h₁.temporary htemporary
    cases returns₂ <;> simpa using this
  · have := h₁.targets
    have := h₂.targets
    intro l hl
    cases returns₂ <;> simp at hl ⊢ <;> grind
  · simp
  · cases returns₂ <;> simp [h₁.flow, h₂.flow]
  · exact h₂.locals.trans h₁.locals
  · exact h₁.nextLocal.ge.trans h₂.nextLocal

theorem emitIfElse_emitted {condition : Expression} {thenBlock elseBlock : List Statement}
    (hthen : EmitsStatement true (emitStatements signatures f false false thenBlock))
    (helse : EmitsStatement true (emitStatements signatures f false false elseBlock))
    (h : emitStatement signatures f (.ifElse condition thenBlock elseBlock) s =
      some (returns, code, s')) :
    EmittedStatement true s code s' (!returns) := by
  obtain ⟨c, code₁, s₁, returns₂, code₂, s₂, returns₃, code₃, s₃, hc, -, ht, he, rfl, rfl, rfl⟩ :=
    emitIfElse_eq_some h
  unfold ifElseCode
  obtain ⟨h₁, -⟩ := emitExpression_emitted signatures condition hc
  have h₂ := emitBlock_emitted hthen ht
  have h₃ := emitBlock_emitted helse he
  have hlabel₂ := h₂.label
  have hlabel₃ := h₃.label
  have htemporary₂ := h₂.temporary
  have htemporary₃ := h₃.temporary
  dsimp only at hlabel₂ hlabel₃ htemporary₂ htemporary₃
  have hlabels : Numbered Label.number (s₁.label + 2 + 1) s₃.label
      (codeLabels code₂ ++ codeLabels code₃) :=
    h₂.labels.append h₃.labels (by omega) (by omega)
  have hresults := h₁.results.append (h₂.results.append h₃.results htemporary₂ htemporary₃)
    h₁.temporary (by omega)
  have htargets₁ := h₁.targets
  have htargets₂ := h₂.targets
  have htargets₃ := h₃.targets
  cases hboth : returns₂ && returns₃ with
  | true =>
    obtain ⟨rfl, rfl⟩ := Bool.and_eq_true_iff.mp hboth
    simp only [↓reduceIte]
    refine .of_emitted ⟨?_, ?_, ?_, ?_, ?_, ?_, ?_⟩ ?_ ?_
    · exact h₁.temporary.trans (by omega)
    · exact h₁.label.trans (by omega)
    · have hnew : Numbered Label.number s₁.label s₃.label (.ifThen s₁.label ::
          (codeLabels code₂ ++ .ifElse (s₁.label + 1) :: codeLabels code₃)) :=
        ((hlabels.mono (by omega) (Nat.le_refl _)).insert rfl (by omega)).cons rfl (by omega)
      have := h₁.labels.append hnew h₁.label (by omega)
      simpa using this
    · simpa using hresults
    · intro l hl
      simp at hl ⊢
      grind
    · have := h₃.block
      simp at this ⊢
      grind
    · simp [h₁.flow, h₂.flow, h₃.flow]
    · exact h₃.locals.trans (h₂.locals.trans h₁.locals)
    · exact h₁.nextLocal.ge.trans (h₂.nextLocal.trans h₃.nextLocal)
  | false =>
    simp only [Bool.false_eq_true, ↓reduceIte]
    refine .of_emitted ⟨?_, ?_, ?_, ?_, ?_, ?_, ?_⟩ ?_ ?_
    · exact h₁.temporary.trans (by simp; omega)
    · exact h₁.label.trans (by simp; omega)
    · have hend : Numbered Label.number (s₁.label + 1 + 1) s₃.label
          (codeLabels code₂ ++ (codeLabels code₃ ++ [.ifEnd (s₁.label + 2)])) := by
        rw [← List.append_assoc]
        exact hlabels.concat rfl (by omega)
      have hnew : Numbered Label.number s₁.label s₃.label (.ifThen s₁.label ::
          (codeLabels code₂ ++ .ifElse (s₁.label + 1) ::
            (codeLabels code₃ ++ [.ifEnd (s₁.label + 2)]))) :=
        (hend.insert rfl (by omega)).cons rfl (by omega)
      have := h₁.labels.append hnew h₁.label (by omega)
      cases returns₂ <;> cases returns₃ <;> simpa using this
    · cases returns₂ <;> cases returns₃ <;> simpa using hresults
    · intro l hl
      cases returns₂ <;> cases returns₃ <;> simp at hl ⊢ <;> grind
    · simp
    · cases returns₂ <;> cases returns₃ <;> simp [h₁.flow, h₂.flow, h₃.flow]
    · exact h₃.locals.trans (h₂.locals.trans h₁.locals)
    · exact h₁.nextLocal.ge.trans (h₂.nextLocal.trans h₃.nextLocal)

theorem emitWhileLoop_emitted {condition : Expression} {body : List Statement}
    (hbody : EmitsStatement true (emitStatements signatures f false false body))
    (h : emitStatement signatures f (.whileLoop condition body) s = some (returns, code, s')) :
    EmittedStatement true s code s' (!returns) := by
  obtain ⟨c, code₁, s₁, returns₂, code₂, s₂, hc, -, hb, rfl, rfl, rfl⟩ := emitWhileLoop_eq_some h
  unfold whileCode
  obtain ⟨h₁, -⟩ := emitExpression_emitted signatures condition hc
  have h₂ := emitBlock_emitted hbody hb
  have hlabel₁ := h₁.label
  have hlabel₂ := h₂.label
  have htemporary₁ := h₁.temporary
  have htemporary₂ := h₂.temporary
  dsimp only at hlabel₁ hlabel₂ htemporary₁ htemporary₂
  have htargets₁ := h₁.targets
  have htargets₂ := h₂.targets
  refine .of_emitted ⟨?_, ?_, ?_, ?_, ?_, ?_, ?_⟩ ?_ ?_
  · exact htemporary₁.trans htemporary₂
  · exact (show s.label ≤ s₂.label by omega)
  · have hlabels : Numbered Label.number (s.label + 2 + 1) s₂.label
        (codeLabels code₁ ++ codeLabels code₂) :=
      h₁.labels.append h₂.labels (by omega) (by omega)
    have hend : Numbered Label.number (s.label + 1 + 1) s₂.label
        (codeLabels code₁ ++ (codeLabels code₂ ++ [.whileEnd (s.label + 2)])) := by
      rw [← List.append_assoc]
      exact hlabels.concat rfl (by omega)
    have hnew : Numbered Label.number s.label s₂.label (.whileCondition s.label ::
        (codeLabels code₁ ++ .whileBody (s.label + 1) ::
          (codeLabels code₂ ++ [.whileEnd (s.label + 2)]))) :=
      (hend.insert rfl (by omega)).cons rfl (by omega)
    cases returns₂ <;> simpa using hnew
  · have := h₁.results.append h₂.results htemporary₁ htemporary₂
    cases returns₂ <;> simpa using this
  · intro l hl
    cases returns₂ <;> simp at hl ⊢ <;> grind
  · simp
  · cases returns₂ <;> simp [h₁.flow, h₂.flow]
  · exact h₂.locals.trans h₁.locals
  · exact h₁.nextLocal.ge.trans h₂.nextLocal

end

section

variable (signatures : List Signature) (f : FunctionContext)

mutual

/-- The code of a statement. -/
theorem emitStatement_emitted :
    ∀ statement : Statement, EmitsStatement true (emitStatement signatures f statement)
  | .letLocal name declaredType value => by
    intro s returns code s' h
    simp [emitStatement] at h
    obtain ⟨value, code₁, s₁, hvalue, ⟨-, -, rfl, rfl⟩, rfl⟩ := h
    obtain ⟨h₁, -⟩ := emitExpression_emitted signatures _ hvalue
    have hstore : EmittedExpression s₁ [.store value.type value.operand s₁.nextLocal] s₁ :=
      .effect (by simp) rfl
    refine h₁.statement.append ⟨⟨?_, ?_, ?_, ?_, ?_, ?_, ?_⟩, ?_, ?_⟩
    · exact hstore.temporary
    · exact hstore.label
    · exact hstore.labels
    · exact hstore.results
    · exact hstore.targets
    · exact hstore.block
    · exact hstore.flow
    · exact Nat.le_succ _
    · exact ⟨[_], rfl, .of_number (by simp [localCells, ScalarBinding.cell])
        (by simp [localCells, ScalarBinding.cell])⟩
  | .assign name value => by
    intro s returns code s' h
    simp [emitStatement] at h
    obtain ⟨binding, -, value, code₁, s₁, code₂, ⟨hvalue, -, h⟩, rfl⟩ := h
    obtain ⟨h₁, -⟩ := emitExpression_emitted signatures _ hvalue
    cases hplace : binding.place with
    | argument number => simp [hplace] at h
    | cell number =>
      simp [hplace] at h
      obtain ⟨⟨rfl, rfl⟩, rfl⟩ := h
      exact (h₁.append (.effect (by simp) rfl)).statement
  | .ifThen condition thenBlock => by
    intro s returns code s' h
    exact emitIfThen_emitted (emitStatements_emitted thenBlock (by simp)) h
  | .ifElse condition thenBlock elseBlock => by
    intro s returns code s' h
    exact emitIfElse_emitted (emitStatements_emitted thenBlock (by simp))
      (emitStatements_emitted elseBlock (by simp)) h
  | .whileLoop condition body => by
    intro s returns code s' h
    exact emitWhileLoop_emitted (emitStatements_emitted body (by simp)) h
  | .returnValue none => by
    intro s returns code s' h
    simp [emitStatement] at h
    obtain ⟨-, ⟨u, h⟩, rfl⟩ := h
    exact emitReturn_emitted h
  | .returnValue (some value) => by
    intro s returns code s' h
    simp [emitStatement] at h
    obtain ⟨-, value, code₁, s₁, code₂, ⟨hvalue, ⟨u, h⟩, rfl⟩, rfl⟩ := h
    exact (emitExpression_emitted signatures _ hvalue).1.statement.append (emitReturn_emitted h)
  | .expression value => by
    intro s returns code s' h
    simp [emitStatement] at h
    obtain ⟨value, code₁, s₁, hvalue, code₂, h, rfl⟩ := h
    have h₁ := (emitExpression_emitted signatures _ hvalue).1.statement
    split_ifs at h
    · simp at h
      obtain ⟨⟨rfl, rfl⟩, rfl⟩ := h
      exact h₁.append (.of_emitted (.last rfl rfl rfl rfl) rfl (Nat.le_refl _))
    · simp at h
      obtain ⟨rfl, rfl, rfl⟩ := h
      exact h₁.append (.refl _ _)

/-- The code of the statements of a block. -/
theorem emitStatements_emitted : ∀ (statements : List Statement) {terminated returns : Bool},
    (terminated = true → returns = true) →
    EmitsStatement (!terminated) (emitStatements signatures f terminated returns statements)
  | [], terminated, returns, hreturns => by
    intro s returns' code s' h
    simp [emitStatements] at h
    split_ifs at h with hend
    · obtain ⟨rfl, rfl⟩ := hend
      simp at h
      obtain ⟨⟨rfl, rfl⟩, rfl⟩ := h
      exact .of_emitted (.last rfl rfl rfl rfl) rfl (Nat.le_refl _)
    · simp at h
      obtain ⟨rfl, rfl, rfl⟩ := h
      have hsame : terminated = returns := by
        cases terminated <;> cases returns <;> simp_all
      rw [hsame]
      exact .refl _ _
  | statement :: statements, terminated, returns, hreturns => by
    intro s returns' code s' h
    simp [emitStatements, -Bool.exists_bool] at h
    obtain ⟨u, code₁, s₁, hdead, terminated₂, code₂, s₂, code₃, ⟨hstatement, h⟩, rfl, rfl⟩ := h
    exact (emitDead_emitted hdead).append ((emitStatement_emitted statement hstatement).append
      (emitStatements_emitted statements (by simp +contextual) h))

end

end

/-! ## Functions -/

@[simp] theorem codeLabels_withoutFrame (code : List LlvmInstruction) :
    codeLabels (withoutFrame code) = codeLabels code := by
  induction code with
  | nil => rfl
  | cons i code ih => cases i <;> simpa [withoutFrame, LlvmInstruction.needsFrame] using ih

@[simp] theorem codeTargets_withoutFrame (code : List LlvmInstruction) :
    codeTargets (withoutFrame code) = codeTargets code := by
  induction code with
  | nil => rfl
  | cons i code ih => cases i <;> simpa [withoutFrame, LlvmInstruction.needsFrame] using ih

@[simp] theorem codeResults_withoutFrame (code : List LlvmInstruction) :
    codeResults (withoutFrame code) = codeResults code := by
  induction code with
  | nil => rfl
  | cons i code ih =>
    unfold withoutFrame at ih ⊢
    rw [List.filter_cons]
    cases h : i.needsFrame
    · simp [ih, codeResults_cons]
    · cases i <;> first | simpa using ih | simp [LlvmInstruction.needsFrame] at h

/-- The instructions that need a frame stand inside of blocks. -/
theorem blockFlow_withoutFrame {a b : Bool} {code : List LlvmInstruction}
    (h : blockFlow a code = some b) : blockFlow a (withoutFrame code) = some b := by
  induction code generalizing a with
  | nil => exact h
  | cons i code ih =>
    rw [blockFlow_cons, Option.bind_eq_some_iff] at h
    obtain ⟨c, hc, h⟩ := h
    unfold withoutFrame at ih ⊢
    rw [List.filter_cons]
    cases hi : i.needsFrame
    · simp only [Bool.not_false, if_true, blockFlow_cons, hc, Option.bind_some]
      exact ih h
    · have : a = c := by cases i <;> simp_all [LlvmInstruction.needsFrame]
      subst this
      simpa using ih h

theorem emitTopLevel_emitted (signatures : List Signature) (f : FunctionContext)
    (statements : List Statement) (terminated : Bool) :
    EmitsStatement (!terminated) (emitTopLevel signatures f terminated statements) := by
  induction statements generalizing terminated with
  | nil =>
    intro s returns code s' h
    simp [emitTopLevel] at h
    obtain ⟨rfl, rfl, rfl⟩ := h
    exact .refl _ _
  | cons statement statements ih =>
    intro s returns code s' h
    simp [emitTopLevel, -Bool.exists_bool] at h
    obtain ⟨u, code₁, s₁, hdead, terminated₂, code₂, s₂, code₃, ⟨hstatement, h⟩, rfl, rfl⟩ := h
    exact (emitDead_emitted hdead).append
      ((emitStatement_emitted signatures f statement hstatement).append (ih terminated₂ h))

/-- Instructions of the entry of a function. -/
theorem emitted_entry (s : EmitState) {code : List LlvmInstruction}
    (hcode : ∀ i ∈ code, i.labelName = none ∧ i.targets = [] ∧ i.results = [] ∧
      i.flow true = some true) : Emitted true s code s true := by
  refine .straight (fun i hi => ?_) ?_ (Nat.le_refl _) rfl rfl
  · obtain ⟨h₁, h₂, -, h₃⟩ := hcode i hi
    exact ⟨h₁, h₂, h₃⟩
  · rw [codeResults, List.flatMap_eq_nil_iff.mpr fun i hi => (hcode i hi).2.2.1]
    exact .nil _ _

/-- The end of a function. -/
theorem emitted_end (s : EmitState) {last : LlvmInstruction} (returns : Bool)
    (hlast : last.labelName = none ∧ last.targets = [] ∧ last.results = [] ∧
      last.flow true = some false) :
    Emitted (!returns) s (if returns then [] else [.rcLeave, .stackLeave, last]) s false := by
  obtain ⟨h₁, h₂, h₃, h₄⟩ := hlast
  cases returns with
  | true => exact .refl s false
  | false =>
    have hleave : Emitted true s [.rcLeave, .stackLeave] s true := emitted_entry s (by simp)
    exact hleave.append (.last h₁ h₂ h₃ h₄)

theorem WellFormedCode.of_emitted {s s' : EmitState} {code : List LlvmInstruction}
    (h : Emitted true s code s' false) : WellFormedCode code where
  labels := by
    refine List.nodup_cons.mpr ⟨fun hentry => ?_, h.labels.1⟩
    obtain ⟨n, hn, -⟩ := h.labels.2 _ hentry
    cases hn
  targets := h.targets
  results := h.results.1
  flow := h.flow

/-- The calls of a frame may be dropped. -/
theorem Emitted.withoutFrame {s s' : EmitState} {code : List LlvmInstruction} {a b : Bool}
    (h : Emitted a s code s' b) : Emitted a s (withoutFrame code) s' b :=
  ⟨h.temporary, h.label, by simpa using h.labels, by simpa using h.results, by simpa using h.targets,
    by simpa using h.block, blockFlow_withoutFrame h.flow⟩

theorem finishScalarFunction_emitted (parameters locals : ℕ) {s s' : EmitState}
    {code : List LlvmInstruction} (h : Emitted true s code s' false) :
    Emitted true s (finishScalarFunction parameters locals code) s' false :=
  .append (emitted_entry s (by
    refine List.forall_mem_cons.mpr ⟨by simp, fun i hi => ?_⟩
    obtain ⟨number, -, rfl⟩ := List.mem_map.mp hi
    simp)) h.withoutFrame

/-- What a function is compiled to. -/
theorem emitFunction_eq_some {signatures : List Signature} {function : ScalarFunction}
    {g : LlvmFunction} (h : emitFunction signatures function = some g) :
    (function.header.name = "main" →
      function.header.parameters = [] ∧ function.header.returnType = 1) ∧
    (∀ parameter ∈ function.header.parameters,
      parameter.2 = 1 ∨ parameter.2 = 3 ∨ parameter.2 = 4) ∧
    ∃ returns code s,
      emitStatements signatures ⟨function.header.name, function.header.returnType⟩ false false
        function.body (bodyState function.header function.marks) = some (returns, code, s) ∧
      (returns = true ∨ function.header.name = "main" ∨ function.header.returnType = 5) ∧
      g = {
        name := function.header.name
        parameters := function.header.parameters.map Prod.snd
        returnType := function.header.returnType
        code := finishScalarFunction function.header.parameters.length s.nextLocal
          ((if function.header.name = "main" then [.initializeArguments] else []) ++
            parameterCells function.header function.marks ++ code ++
            (if returns then [] else [.rcLeave, .stackLeave,
              if function.header.name = "main" then .retStatus (.constant (.i32 0))
              else .retVoid])) } := by
  simp only [emitFunction, Option.bind_eq_bind, Option.bind_eq_some_iff, Option.guard_eq_some',
    exists_const] at h
  obtain ⟨hmain, htypes, ⟨returns, code, s⟩, hcode, hreturns, h⟩ := h
  exact ⟨hmain, htypes, returns, code, s, hcode, hreturns, (Option.some.inj h).symm⟩

/-- The code of a function is well formed. -/
theorem emitFunction_wellFormed {signatures : List Signature} {function : ScalarFunction}
    {g : LlvmFunction} (h : emitFunction signatures function = some g) : WellFormedCode g.code := by
  obtain ⟨-, -, returns, code, s, hcode, -, rfl⟩ := emitFunction_eq_some h
  have hbody := emitStatements_emitted signatures _ _ (by simp) hcode
  have hentry : Emitted true (bodyState function.header function.marks)
      ((if function.header.name = "main" then [.initializeArguments] else []) ++
        parameterCells function.header function.marks)
      (bodyState function.header function.marks) true := by
    refine emitted_entry _ fun i hi => ?_
    rcases List.mem_append.mp hi with hi | hi
    · split at hi <;> simp at hi
      simp [hi]
    · simp only [parameterCells, List.mem_flatten, List.mem_map] at hi
      obtain ⟨_, ⟨parameter, -, rfl⟩, hi⟩ := hi
      split at hi <;> simp at hi
      rcases hi with rfl | rfl <;> simp
  refine .of_emitted (finishScalarFunction_emitted _ _
    ((hentry.append hbody.toEmitted).append (emitted_end s returns ?_)))
  split <;> simp

/-- The code of `main` is well formed. -/
theorem emitMain_wellFormed {signatures : List Signature} {statements : List Statement}
    {code : List LlvmInstruction} (h : emitMain signatures statements = some code) :
    WellFormedCode code := by
  simp only [emitMain, Option.bind_eq_bind, Option.bind_eq_some_iff] at h
  obtain ⟨⟨terminated, code, s⟩, hcode, h⟩ := h
  obtain rfl := Option.some.inj h
  have hbody := emitTopLevel_emitted signatures _ statements false hcode
  have hentry (s : EmitState) : Emitted true s [.initializeArguments] s true :=
    emitted_entry s (by simp)
  exact .of_emitted (finishScalarFunction_emitted _ _
    (((hentry _).append hbody.toEmitted).append (emitted_end s terminated (by simp))))

theorem forall₂_of_mapM_eq_some {α β : Type} {f : α → Option β} {l : List α} {l' : List β}
    (h : l.mapM f = some l') : List.Forall₂ (fun a b => f a = some b) l l' := by
  induction l generalizing l' with
  | nil =>
    cases h
    exact .nil
  | cons a l ih =>
    simp only [List.mapM_cons, Option.bind_eq_bind, Option.bind_eq_some_iff] at h
    obtain ⟨b, hb, bs, hbs, h⟩ := h
    cases h
    exact .cons hb (ih hbs)

theorem exists_of_mem_forall₂ {α β : Type} {R : α → β → Prop} {l : List α} {l' : List β}
    (h : List.Forall₂ R l l') {b : β} (hb : b ∈ l') : ∃ a, R a b := by
  induction h with
  | nil => cases hb
  | cons hab _ ih =>
    rcases List.mem_cons.mp hb with rfl | hb
    · exact ⟨_, hab⟩
    · exact ih hb

/-- What a program is compiled to. -/
theorem emitProgram_eq_some {p : ScalarProgram} {functions : List LlvmFunction}
    {code : List LlvmInstruction} (h : emitProgram p = some (functions, code)) :
    List.Forall₂ (fun function g => emitFunction p.signatures function = some g)
      p.functions functions ∧
    ((∃ main, functions.find? (fun function => function.name = "main") = some main ∧
        code = main.code) ∨
      (functions.find? (fun function => function.name = "main") = none ∧
        emitMain p.signatures p.statements = some code)) := by
  simp only [emitProgram, Option.bind_eq_bind, Option.bind_eq_some_iff] at h
  obtain ⟨functions', hfunctions, h⟩ := h
  split at h
  · next main hmain =>
    cases h
    exact ⟨forall₂_of_mapM_eq_some hfunctions, .inl ⟨main, hmain, rfl⟩⟩
  · next hmain =>
    simp only [Option.bind_eq_some_iff] at h
    obtain ⟨code', hcode, h⟩ := h
    cases h
    exact ⟨forall₂_of_mapM_eq_some hfunctions, .inr ⟨hmain, hcode⟩⟩

/-- Every function of a compiled program has code that the backend accepts. -/
theorem emitProgram_wellFormed {p : ScalarProgram} {functions : List LlvmFunction}
    {code : List LlvmInstruction} (h : emitProgram p = some (functions, code)) :
    (∀ g ∈ functions, WellFormedCode g.code) ∧ WellFormedCode code := by
  obtain ⟨hfunctions, hcode⟩ := emitProgram_eq_some h
  have hall : ∀ g ∈ functions, WellFormedCode g.code := by
    intro g hg
    obtain ⟨function, hfunction⟩ := exists_of_mem_forall₂ hfunctions hg
    exact emitFunction_wellFormed hfunction
  refine ⟨hall, ?_⟩
  rcases hcode with ⟨main, hmain, rfl⟩ | ⟨-, hcode⟩
  · exact hall main (List.mem_of_find?_eq_some hmain)
  · exact emitMain_wellFormed hcode

end Minyar

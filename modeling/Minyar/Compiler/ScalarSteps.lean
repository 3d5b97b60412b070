import Minyar.Compiler.ScalarRuns
import Minyar.Compiler.ScalarMeaning

/-!
# Steps of the emitted code

What the machine does in front of an instruction whose operands have values.  An activation is looked
at without the code that is left, which stands beside it; a jump goes on behind its label, which
stands only once in the code of the function.
-/

namespace Minyar

open StateTransition

/-! ## Activations -/

namespace Activation

variable {a a' : Activation} {b l : Label} {i : LlvmInstruction} {code code' : List LlvmInstruction}

/-- An activation with other code left. -/
def withCode (a : Activation) (code : List LlvmInstruction) : Activation := { a with code := code }

/-- An activation that has jumped to a label. -/
def enter (a : Activation) (target : Label) : Activation :=
  { a with block := target, previous := a.block }

@[simp] theorem withCode_registers : (a.withCode code).registers = a.registers := rfl

@[simp] theorem withCode_cells : (a.withCode code).cells = a.cells := rfl

@[simp] theorem withCode_previous : (a.withCode code).previous = a.previous := rfl

@[simp] theorem withCode_operand (o : LlvmOperand) : (a.withCode code).operand o = a.operand o := by
  cases o <;> rfl

@[simp] theorem withCode_operand64 (o : LlvmOperand) :
    (a.withCode code).operand64 o = a.operand64 o := by
  rw [operand64, withCode_operand, operand64]

@[simp] theorem withCode_operand1 (o : LlvmOperand) :
    (a.withCode code).operand1 o = a.operand1 o := by
  rw [operand1, withCode_operand, operand1]

@[simp] theorem withCode_operandText (o : LlvmOperand) :
    (a.withCode code).operandText o = a.operandText o := by
  rw [operandText, withCode_operand, operandText]

@[simp] theorem registers_set_self (a : Activation) (r : Register) (v : LlvmValue) :
    (a.set r v).registers r = some v :=
  Function.update_self ..

theorem registers_set_of_ne (a : Activation) {r r' : Register} (h : r' ≠ r) (v : LlvmValue) :
    (a.set r v).registers r' = a.registers r' :=
  Function.update_of_ne h ..

@[simp] theorem cells_setCell_self (a : Activation) (cell : ℕ) (v : Option LlvmValue) :
    (a.setCell cell v).cells cell = some v :=
  Function.update_self ..

theorem cells_setCell_of_ne (a : Activation) {cell cell' : ℕ} (h : cell' ≠ cell)
    (v : Option LlvmValue) : (a.setCell cell v).cells cell' = a.cells cell' :=
  Function.update_of_ne h ..

theorem operand64_eq {o : LlvmOperand} {n : ℤ} (h : a.operand o = some (.i64 n)) :
    a.operand64 o = some n := by
  rw [operand64, h]

theorem operand1_eq {o : LlvmOperand} {b : Bool} (h : a.operand o = some (.i1 b)) :
    a.operand1 o = some b := by
  rw [operand1, h]

theorem operandText_eq {o : LlvmOperand} {t : String} (h : a.operand o = some (.text t)) :
    a.operandText o = some t := by
  rw [operandText, h]

/-- An activation in a block, with code left. -/
structure At (a : Activation) (b : Label) (code : List LlvmInstruction) : Prop where
  block : a.block = b
  /-- The code is the end of that of the function. -/
  suffix : code <:+ a.body
  /-- The labels of the function are different. -/
  labels : (codeLabels a.body).Nodup
  /-- The label of the block is not in front. -/
  behind : b ∉ codeLabels code

namespace At

theorem congr (h : a.At b code) (hblock : a'.block = a.block) (hbody : a'.body = a.body) :
    a'.At b code :=
  ⟨hblock.trans h.block, hbody ▸ h.suffix, hbody ▸ h.labels, h.behind⟩

theorem drop (h : a.At b (code ++ code')) : a.At b code' :=
  ⟨h.block, (List.suffix_append code code').trans h.suffix, h.labels,
    fun hmem => h.behind (codeLabels_append .. ▸ List.mem_append_right _ hmem)⟩

theorem tail (h : a.At b (i :: code)) : a.At b code := @drop a b [i] code h

theorem set (h : a.At b (i :: code)) (r : Register) (v : LlvmValue) : (a.set r v).At b code :=
  h.tail.congr rfl rfl

theorem setCell (h : a.At b (i :: code)) (cell : ℕ) (v : Option LlvmValue) :
    (a.setCell cell v).At b code :=
  h.tail.congr rfl rfl

end At

/-- A label of code with different labels is found where it stands. -/
theorem seekLabel_of_suffix {body : List LlvmInstruction} (hnodup : (codeLabels body).Nodup)
    (hsuffix : .label l :: code <:+ body) : seekLabel l body = some code := by
  induction body with
  | nil => simp at hsuffix
  | cons i body ih =>
    rcases List.suffix_cons_iff.mp hsuffix with heq | hrest
    · cases heq
      rw [seekLabel, if_pos rfl]
    · have hmem : l ∈ codeLabels body := by
        obtain ⟨before, rfl⟩ := hrest
        simp
      cases i with
      | label name =>
        rw [codeLabels_cons] at hnodup
        have hne : name ≠ l := by
          rintro rfl
          exact (List.nodup_cons.mp hnodup).1 hmem
        rw [seekLabel, if_neg hne, ih (List.nodup_cons.mp hnodup).2 hrest]
      | _ => exact ih (by simpa using hnodup) hrest

/-- A jump to a label that stands in the function. -/
theorem At.enter (h : a.At b code) (hsuffix : .label l :: code' <:+ a.body) :
    (a.enter l).At l code' := by
  refine ⟨rfl, (List.suffix_cons ..).trans hsuffix, h.labels, fun hmem => ?_⟩
  obtain ⟨before, hbody⟩ := hsuffix
  have hlabels := h.labels
  rw [← hbody, codeLabels_append, codeLabels_cons] at hlabels
  exact (List.nodup_cons.mp (List.nodup_append.mp hlabels).2.1).1 hmem

theorem At.goto (h : a.At b code) (hsuffix : .label l :: code' <:+ a.body)
    (left : List LlvmInstruction) : (a.withCode left).goto l = some ((a.enter l).withCode code') := by
  rw [Activation.goto]
  change Option.map _ (seekLabel l a.body) = _
  rw [seekLabel_of_suffix h.labels hsuffix]
  rfl

end Activation

/-! ## Steps -/

namespace LlvmConfig

/-- The next instruction is a call of `main`. -/
def CallsMain (c : LlvmConfig) : Prop :=
  ∃ result returnType arguments code,
    c.current.code = .call result returnType "main" arguments :: code

/-- A call of `main` has no next step: its types do not fit. -/
theorem CallsMain.step {p : List LlvmFunction} {h : Host} {c : LlvmConfig} (hmain : c.CallsMain) :
    llvmStep p h (.running c) = none := by
  obtain ⟨result, returnType, arguments, code, hcode⟩ := hmain
  simp [llvmStep, hcode, execute]

/-- A program that goes on in an activation. -/
def running (c : LlvmConfig) (a : Activation) (code : List LlvmInstruction)
    (w : List ScalarValue) : LlvmState :=
  .running { c with current := a.withCode code, printed := w }

/-- An activation is the current one: the active functions and the depth of the calls. -/
structure Inside (c : LlvmConfig) (active : List String) (a : Activation) : Prop where
  active : a.function :: c.callers.map (fun caller => caller.2.function) = active
  depth : c.depth = c.callers.length + 1

end LlvmConfig

@[simp] theorem withoutFrame_nil : withoutFrame [] = [] := rfl

@[simp] theorem withoutFrame_append (code code' : List LlvmInstruction) :
    withoutFrame (code ++ code') = withoutFrame code ++ withoutFrame code' :=
  List.filter_append ..

@[simp] theorem withoutFrame_cons (i : LlvmInstruction) (code : List LlvmInstruction) :
    withoutFrame (i :: code) =
      if i.needsFrame then withoutFrame code else i :: withoutFrame code := by
  rw [withoutFrame, List.filter_cons]
  cases i.needsFrame <;> rfl

/-- How the machine ends: only a call of `main` is stuck. -/
def llvmEndings : Endings (List ScalarValue) ScalarStop LlvmState where
  stop := .stopped
  Stuck t := ∃ c, t = .running c ∧ c.CallsMain

section

variable {p : List LlvmFunction} {h : Host} {c : LlvmConfig} {a : Activation}
  {code code' : List LlvmInstruction} {w : List ScalarValue}

theorem llvmStep_running (i : LlvmInstruction) :
    llvmStep p h (c.running a (i :: code) w) =
      ({ c with current := a.withCode code, printed := w } : LlvmConfig).execute p h i := rfl

theorem load_step {result type cell : ℕ} {v : LlvmValue} (hcell : a.cells cell = some (some v))
    (htype : v.hasType type) :
    llvmStep p h (c.running a (.load result type cell :: code) w) =
      some (c.running (a.set (.value result) v) code w) := by
  simp [llvmStep_running, LlvmConfig.execute, hcell, htype]
  rfl

theorem store_step {type cell : ℕ} {value : LlvmOperand} {v : LlvmValue}
    (hvalue : a.operand value = some v) (hcell : (a.cells cell).isSome) (htype : v.hasType type) :
    llvmStep p h (c.running a (.store type value cell :: code) w) =
      some (c.running (a.setCell cell (some v)) code w) := by
  obtain ⟨old, hold⟩ := Option.isSome_iff_exists.mp hcell
  simp [llvmStep_running, LlvmConfig.execute, hvalue, hold, htype]
  rfl

theorem jump_step {b l : Label} {left : List LlvmInstruction} (ha : a.At b left)
    (hsuffix : .label l :: code' <:+ a.body) :
    llvmStep p h (c.running a (.jump l :: code) w) = some (c.running (a.enter l) code' w) := by
  simp [llvmStep_running, LlvmConfig.execute, ha.goto hsuffix]
  rfl

theorem branch_step {b ifTrue ifFalse : Label} {left : List LlvmInstruction} (ha : a.At b left)
    {condition : LlvmOperand} {value : Bool} (hvalue : a.operand1 condition = some value)
    (hsuffix : .label (if value then ifTrue else ifFalse) :: code' <:+ a.body) :
    llvmStep p h (c.running a (.branch condition ifTrue ifFalse :: code) w) =
      some (c.running (a.enter (if value then ifTrue else ifFalse)) code' w) := by
  simp [llvmStep_running, LlvmConfig.execute, hvalue, ha.goto hsuffix]
  rfl

theorem divide_step {division : Division} {result : ℕ} {left right : LlvmOperand} {l r : ℤ}
    (hl : a.operand64 left = some l) (hr : a.operand64 right = some r) (hzero : r ≠ 0)
    (hrange : ¬ (l = -2 ^ 63 ∧ r = -1)) :
    llvmStep p h (c.running a (.divide division result left right :: code) w) =
      some (c.running (a.set (.value result) (.i64 (division.apply l r))) code w) := by
  rw [llvmStep_running]
  simp only [LlvmConfig.execute, Activation.withCode_operand64, hl, hr, Option.bind_eq_bind,
    Option.bind_some, if_neg (not_or.mpr ⟨hzero, hrange⟩)]
  rfl

theorem compare_step {comparison : Comparison} {type result : ℕ} {left right : LlvmOperand}
    {l r : LlvmValue} {value : Bool} (hl : a.operand left = some l) (hr : a.operand right = some r)
    (hvalue : comparison.values type l r = some value) :
    llvmStep p h (c.running a (.compare comparison type result left right :: code) w) =
      some (c.running (a.set (.value result) (.i1 value)) code w) := by
  simp [llvmStep_running, LlvmConfig.execute, hl, hr, hvalue]
  rfl

theorem textsEqual_step {result : ℕ} {left right : LlvmOperand} {l r : String}
    (hl : a.operandText left = some l) (hr : a.operandText right = some r) :
    llvmStep p h (c.running a (.textsEqual result left right :: code) w) =
      some (c.running (a.set (.value result) (.i1 (decide (l = r)))) code w) := by
  simp [llvmStep_running, LlvmConfig.execute, hl, hr]
  rfl

theorem not_step {result : ℕ} {operand : LlvmOperand} {value : Bool}
    (hvalue : a.operand1 operand = some value) :
    llvmStep p h (c.running a (.not result operand :: code) w) =
      some (c.running (a.set (.value result) (.i1 (!value))) code w) := by
  simp [llvmStep_running, LlvmConfig.execute, hvalue]
  rfl

theorem phi_step_left {result : ℕ} {short : Bool} {leftBlock rightBlock : Label}
    {right : LlvmOperand} (hprevious : a.previous = leftBlock) :
    llvmStep p h (c.running a (.phi result short leftBlock right rightBlock :: code) w) =
      some (c.running (a.set (.value result) (.i1 short)) code w) := by
  simp [llvmStep_running, LlvmConfig.execute, hprevious]
  rfl

theorem phi_step_right {result : ℕ} {short value : Bool} {leftBlock rightBlock : Label}
    {right : LlvmOperand} (hne : rightBlock ≠ leftBlock) (hprevious : a.previous = rightBlock)
    (hvalue : a.operand1 right = some value) :
    llvmStep p h (c.running a (.phi result short leftBlock right rightBlock :: code) w) =
      some (c.running (a.set (.value result) (.i1 value)) code w) := by
  simp [llvmStep_running, LlvmConfig.execute, hprevious, hne, hvalue]
  rfl

theorem truncate_step {result : ℕ} {operand : LlvmOperand} {value : ℤ}
    (hvalue : a.operand64 operand = some value) :
    llvmStep p h (c.running a (.truncate result operand :: code) w) =
      some (c.running (a.set (.value result) (.i32 (value.bmod (2 ^ 32)))) code w) := by
  simp [llvmStep_running, LlvmConfig.execute, hvalue]
  rfl

theorem print_step {type : ℕ} {operand : LlvmOperand} {v : LlvmValue} {value : ScalarValue}
    (hv : a.operand operand = some v) (hvalue : printedValue type v = some value) :
    llvmStep p h (c.running a (.print type operand :: code) w) =
      some (c.running a code (w ++ [value])) := by
  simp [llvmStep_running, LlvmConfig.execute, hv, hvalue]
  rfl

theorem fail_step {operand : LlvmOperand} {message : String}
    (hmessage : a.operandText operand = some message) :
    llvmStep p h (c.running a (.fail operand :: code) w) = some (.stopped (.message message) w) := by
  simp [llvmStep_running, LlvmConfig.execute, hmessage]

theorem exit_step {operand : LlvmOperand} {status : ℤ} (hstatus : a.operand64 operand = some status) :
    llvmStep p h (c.running a (.exit operand :: code) w) = some (.stopped (.exit status) w) := by
  simp [llvmStep_running, LlvmConfig.execute, hstatus]

end

end Minyar

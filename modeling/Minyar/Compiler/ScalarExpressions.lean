import Minyar.Compiler.ScalarSteps

/-!
# The code of expressions

The code of an expression meets its evaluation: from a state in front of the code, with the values of
the bindings in scope in their locals and arguments, the machine goes on behind the code with the
value of the expression in its operand, or it stops as the evaluation does.  What was calculated
before stays, because an expression assigns only temporaries that are taken later.
-/

namespace Minyar

open StateTransition

/-! ## Values -/

/-- A value in the code. -/
def ScalarValue.llvm : ScalarValue → LlvmValue
  | integer value => .i64 value
  | text value => .text value
  | character value => .i32 value.toNat
  | boolean value => .i1 value

namespace ScalarValue

@[simp] theorem hasType_llvm (v : ScalarValue) : v.llvm.hasType v.type = true := by
  cases v <;> rfl

theorem printedValue_llvm (v : ScalarValue) : printedValue v.type v.llvm = some v := by
  cases v <;> simp [llvm, printedValue, type, Char.ofNat_toNat]

theorem type_lt (v : ScalarValue) : 1 ≤ v.type ∧ v.type ≤ 4 := by
  cases v <;> simp [type]

theorem exists_integer {v : ScalarValue} (h : v.type = 1) : ∃ n, v = integer n := by
  cases v <;> simp [type] at h
  exact ⟨_, rfl⟩

theorem exists_text {v : ScalarValue} (h : v.type = 2) : ∃ t, v = text t := by
  cases v <;> simp [type] at h
  exact ⟨_, rfl⟩

theorem exists_boolean {v : ScalarValue} (h : v.type = 4) : ∃ b, v = boolean b := by
  cases v <;> simp [type] at h
  exact ⟨_, rfl⟩

end ScalarValue

/-! ## What stays -/

/-- What the code of an expression leaves alone: the function, the locals and arguments, and the
temporaries before a number. -/
structure Activation.Keeps (n : ℕ) (a a' : Activation) : Prop where
  function : a'.function = a.function
  body : a'.body = a.body
  cells : a'.cells = a.cells
  registers : ∀ r : Register, (∀ k, r.number = some k → k < n) → a'.registers r = a.registers r

namespace Activation.Keeps

variable {m n : ℕ} {a a' a'' : Activation}

theorem refl (n : ℕ) (a : Activation) : a.Keeps n a := ⟨rfl, rfl, rfl, fun _ _ => rfl⟩

theorem trans (h : a.Keeps m a') (h' : a'.Keeps n a'') (hle : m ≤ n) : a.Keeps m a'' where
  function := h'.function.trans h.function
  body := h'.body.trans h.body
  cells := h'.cells.trans h.cells
  registers r hr := (h'.registers r fun k hk => (hr k hk).trans_le hle).trans (h.registers r hr)

theorem set (a : Activation) {r : Register} {k : ℕ} (hr : r.number = some k) (hle : n ≤ k)
    (v : LlvmValue) : a.Keeps n (a.set r v) := by
  refine ⟨rfl, rfl, rfl, fun r' hr' => registers_set_of_ne a ?_ v⟩
  rintro rfl
  exact Nat.lt_irrefl k ((hr' k hr).trans_le hle)

theorem enter (n : ℕ) (a : Activation) (target : Label) : a.Keeps n (a.enter target) :=
  ⟨rfl, rfl, rfl, fun _ _ => rfl⟩

theorem operand (h : a.Keeps n a') {o : LlvmOperand} (ho : o.Before n) :
    a'.operand o = a.operand o := by
  cases o with
  | register r =>
    refine h.registers r fun k hk => ?_
    cases r with
    | value number =>
      cases hk
      exact ho
    | _ => cases hk <;> exact ho.elim
  | _ => rfl

end Activation.Keeps

/-- The operand of an expression has its value, if it has one. -/
def EmittedValue.Is (v : EmittedValue) (value : Option ScalarValue) (a : Activation) : Prop :=
  match value with
  | none => v.type = 5
  | some x => x.type = v.type ∧ a.operand v.operand = some x.llvm

theorem EmittedValue.Is.keeps {v : EmittedValue} {value : Option ScalarValue} {a a' : Activation}
    {n : ℕ} (h : v.Is value a) (hkeeps : a.Keeps n a') (hv : v.operand.Before n) : v.Is value a' := by
  cases value with
  | none => exact h
  | some x => exact ⟨h.1, (hkeeps.operand hv).trans h.2⟩

theorem EmittedValue.Is.exists_value {v : EmittedValue} {value : Option ScalarValue} {a : Activation}
    (h : v.Is value a) (htype : v.type ≠ 5) :
    ∃ x, value = some x ∧ x.type = v.type ∧ a.operand v.operand = some x.llvm := by
  cases value with
  | none => exact absurd h htype
  | some x => exact ⟨x, rfl, h⟩

/-- A temporary that has just been assigned. -/
theorem EmittedValue.is_set (a : Activation) (n : ℕ) (x : ScalarValue) :
    (⟨temporaryValue n, x.type⟩ : EmittedValue).Is (some x) (a.set (.value n) x.llvm) :=
  ⟨rfl, Activation.registers_set_self ..⟩

/-- A binding has the value of a scope in its place. -/
structure ScalarBinding.Holds (binding : ScalarBinding) (entry : String × ScalarValue)
    (a : Activation) : Prop where
  name : binding.name = entry.1
  type : entry.2.type = binding.type
  place : match binding.place with
    | .cell number => a.cells number = some (some entry.2.llvm)
    | .argument number => a.registers (.argument number) = some entry.2.llvm

theorem ScalarBinding.Holds.keeps {binding : ScalarBinding} {entry : String × ScalarValue}
    {a a' : Activation} {n : ℕ} (h : binding.Holds entry a) (hkeeps : a.Keeps n a') :
    binding.Holds entry a' := by
  refine ⟨h.name, h.type, ?_⟩
  have hplace := h.place
  cases hb : binding.place with
  | cell number =>
    rw [hb] at hplace
    exact (congrFun hkeeps.cells number).trans hplace
  | argument number =>
    rw [hb] at hplace
    exact (hkeeps.registers _ (by simp)).trans hplace

/-- The bindings of the emitter have the values in scope. -/
def Matches (locals : List ScalarBinding) (scope : ScalarScope) (a : Activation) : Prop :=
  List.Forall₂ (fun binding entry => binding.Holds entry a) locals scope

theorem Matches.keeps {locals : List ScalarBinding} {scope : ScalarScope} {a a' : Activation} {n : ℕ}
    (h : Matches locals scope a) (hkeeps : a.Keeps n a') : Matches locals scope a' :=
  h.imp fun _ _ hholds => hholds.keeps hkeeps

/-- The latest binding with a name has the value of the name. -/
theorem Matches.lookup {locals : List ScalarBinding} {scope : ScalarScope} {a : Activation}
    (h : Matches locals scope a) {name : String} {binding : ScalarBinding}
    (hfind : locals.find? (fun binding => binding.name = name) = some binding) :
    ∃ entry, scope.lookup name = some entry.2 ∧ binding.Holds entry a := by
  induction h with
  | nil => cases hfind
  | @cons first entry locals scope hfirst _ ih =>
    by_cases hname : first.name = name
    · rw [List.find?_cons_of_pos (by simpa using hname)] at hfind
      cases hfind
      refine ⟨entry, ?_, hfirst⟩
      rw [ScalarScope.lookup, List.find?_cons_of_pos (by simpa using hfirst.name ▸ hname)]
      rfl
    · rw [List.find?_cons_of_neg (by simpa using hname)] at hfind
      obtain ⟨entry', hlookup, hholds⟩ := ih hfind
      refine ⟨entry', ?_, hholds⟩
      rw [ScalarScope.lookup, List.find?_cons_of_neg (by simpa using hfirst.name ▸ hname)]
      exact hlookup

/-! ## Operators -/

section

variable {p : List LlvmFunction} {h : Host} {n k : ℕ} {c : LlvmConfig} {a : Activation} {b : Label}
  {rest : List LlvmInstruction} {w : List ScalarValue}

/-- The machine is behind the code that calculates a value in a temporary. -/
def Calculated (c : LlvmConfig) (a : Activation) (k : ℕ) (b : Label) (v : EmittedValue)
    (rest : List LlvmInstruction) (value : Option ScalarValue) (w : List ScalarValue)
    (t : LlvmState) : Prop :=
  ∃ a', t = c.running a' rest w ∧ a.Keeps k a' ∧ a'.At b rest ∧ v.Is value a'

/-- An instruction that assigns a value to the next temporary. -/
theorem Calculated.set {i : LlvmInstruction} (ha : a.At b (i :: rest)) (x : ScalarValue) :
    Calculated c a k b ⟨temporaryValue k, x.type⟩ rest (some x) w
      (c.running (a.set (.value k) x.llvm) rest w) :=
  ⟨_, rfl, .set a rfl (Nat.le_refl k) _, ha.set _ _, EmittedValue.is_set a k x⟩

/-- What was kept before stays kept. -/
theorem Calculated.after {a' : Activation} {m : ℕ} {v : EmittedValue} {value : Option ScalarValue}
    {t : LlvmState} (h : Calculated c a' k b v rest value w t) (hkeeps : a.Keeps m a') (hle : m ≤ k) :
    Calculated c a m b v rest value w t := by
  obtain ⟨a'', ht, hkeeps', hat, hvalue⟩ := h
  exact ⟨a'', ht, hkeeps.trans hkeeps' hle, hat, hvalue⟩

/-- A checked calculation. -/
theorem calculation_meets {left right : LlvmOperand} {l r : ℤ} (calculation : Calculation)
    (hl : a.operand64 left = some l) (hr : a.operand64 right = some r)
    (ha : a.At b (.calculate calculation k left right :: .extractValue k :: .extractOverflow k ::
      .checkOverflow k :: rest)) :
    (checkedInteger (calculation.apply l r) w).Meets (llvmStep p h) n llvmEndings
      (fun x => Calculated c a k b ⟨temporaryValue k, 1⟩ rest (some x))
      (c.running a (.calculate calculation k left right :: .extractValue k :: .extractOverflow k ::
        .checkOverflow k :: rest) w) := by
  obtain ⟨value, hvalue⟩ : ∃ value, value = calculation.apply l r := ⟨_, rfl⟩
  let a₁ := a.set (.checked k) (.checked (value.bmod (2 ^ 64)) (decide (¬ IsInteger64 value)))
  let a₂ := a₁.set (.value k) (.i64 (value.bmod (2 ^ 64)))
  let a₃ := a₂.set (.overflow k) (.i1 (decide (¬ IsInteger64 value)))
  have hcalculate : llvmStep p h (c.running a (.calculate calculation k left right ::
      .extractValue k :: .extractOverflow k :: .checkOverflow k :: rest) w) =
      some (c.running a₁ (.extractValue k :: .extractOverflow k :: .checkOverflow k :: rest) w) := by
    simp only [llvmStep_running, LlvmConfig.execute, Activation.withCode_operand64, hl, hr, ← hvalue,
      Option.bind_eq_bind, Option.bind_some]
    rfl
  have hextract : llvmStep p h (c.running a₁ (.extractValue k :: .extractOverflow k ::
      .checkOverflow k :: rest) w) =
      some (c.running a₂ (.extractOverflow k :: .checkOverflow k :: rest) w) := by
    simp only [llvmStep_running, LlvmConfig.execute, Activation.withCode_registers, a₁,
      Activation.registers_set_self]
    rfl
  have hoverflow : llvmStep p h (c.running a₂ (.extractOverflow k :: .checkOverflow k :: rest) w) =
      some (c.running a₃ (.checkOverflow k :: rest) w) := by
    have hchecked : a₂.registers (.checked k) =
        some (.checked (value.bmod (2 ^ 64)) (decide (¬ IsInteger64 value))) :=
      (Activation.registers_set_of_ne _ (by simp) _).trans (Activation.registers_set_self ..)
    simp only [llvmStep_running, LlvmConfig.execute, Activation.withCode_registers, hchecked]
    rfl
  have hcheck : a₃.operand1 (.register (.overflow k)) = some (decide (¬ IsInteger64 value)) :=
    Activation.operand1_eq (Activation.registers_set_self ..)
  refine .step hcalculate (.step hextract (.step hoverflow ?_))
  rw [← hvalue, checkedInteger]
  by_cases hrange : IsInteger64 value
  · rw [if_pos hrange]
    have hstep : llvmStep p h (c.running a₃ (.checkOverflow k :: rest) w) =
        some (c.running a₃ rest w) := by
      simp [llvmStep_running, LlvmConfig.execute, hcheck, hrange]
      rfl
    have hbmod : value.bmod (2 ^ 64) = value :=
      Int.bmod_eq_of_le (by have := hrange.1; omega) (by have := hrange.2; omega)
    refine .step hstep (.done ⟨a₃, rfl, ?_, ?_, rfl, ?_⟩)
    · have hle := Nat.le_refl k
      exact (((Activation.Keeps.set a rfl hle _).trans (.set a₁ rfl hle _) hle).trans
        (.set a₂ rfl hle _) hle)
    · exact ha.tail.tail.tail.tail.congr rfl rfl
    · refine (Activation.registers_set_of_ne _ (by simp) _).trans ?_
      rw [Activation.registers_set_self, hbmod]
      rfl
  · rw [if_neg hrange]
    have hstep : llvmStep p h (c.running a₃ (.checkOverflow k :: rest) w) =
        some (.stopped overflowStop w) := by
      simp [llvmStep_running, LlvmConfig.execute, hcheck, hrange]
    exact .single hstep

/-- A checked division. -/
theorem division_meets {left right : LlvmOperand} {l r : ℤ} (division : Division)
    (hl : a.operand64 left = some l) (hr : a.operand64 right = some r)
    (ha : a.At b (.checkDivision left right :: .divide division k left right :: rest)) :
    (checkedDivision l r (division.apply l r) w).Meets (llvmStep p h) n llvmEndings
      (fun x => Calculated c a k b ⟨temporaryValue k, 1⟩ rest (some x))
      (c.running a (.checkDivision left right :: .divide division k left right :: rest) w) := by
  have hcheck : llvmStep p h (c.running a (.checkDivision left right ::
      .divide division k left right :: rest) w) =
      if r = 0 then some (.stopped zeroDivisionStop w)
      else if l = -2 ^ 63 ∧ r = -1 then some (.stopped divisionRangeStop w)
      else some (c.running a (.divide division k left right :: rest) w) := by
    simp only [llvmStep_running, LlvmConfig.execute, Activation.withCode_operand64, hl, hr,
      Option.bind_eq_bind, Option.bind_some]
    rfl
  rw [checkedDivision]
  by_cases hzero : r = 0
  · rw [if_pos hzero] at hcheck ⊢
    exact .single hcheck
  by_cases hrange : l = -2 ^ 63 ∧ r = -1
  · rw [if_neg hzero, if_pos hrange] at hcheck ⊢
    exact .single hcheck
  · rw [if_neg hzero, if_neg hrange] at hcheck ⊢
    exact .step hcheck (.step (divide_step hl hr hzero hrange)
      (.done (.set ha.tail (.integer (division.apply l r)))))

/-- Equal values are equal in the code. -/
theorem values_equality {x y : ScalarValue} (htypes : x.type = y.type) (htype : x.type ≠ 2) :
    Comparison.eq.values x.type x.llvm y.llvm = some (decide (x = y)) ∧
      Comparison.ne.values x.type x.llvm y.llvm = some (!decide (x = y)) := by
  cases x <;> cases y <;> simp [ScalarValue.type] at htypes htype
  · simp [Comparison.values, ScalarValue.llvm, ScalarValue.type, Comparison.apply]
  · simp [Comparison.values, ScalarValue.llvm, ScalarValue.type, Comparison.apply, Char.toNat_inj]
  · next l r => cases l <;> cases r <;> decide

/-- The comparisons of the code are those of the values. -/
theorem evalBinary_eq_comparison {o : BinaryOperator} {x y : ScalarValue}
    (hlogical : o ≠ .or ∧ o ≠ .and)
    (ho : o ∉ [.add, .subtract, .multiply, .divide, .remainder]) (htypes : x.type = y.type)
    (htype : x.type = 1 ∨ x.type = 3 ∨ x.type = 4 ∧ (o = .equal ∨ o = .notEqual)) :
    ∃ result, evalBinary o x y = pure (.boolean result) ∧
      o.comparison.values x.type x.llvm y.llvm = some result := by
  obtain ⟨heq, hne⟩ := values_equality htypes (by omega)
  by_cases hequality : o = .equal ∨ o = .notEqual
  · rcases hequality with rfl | rfl
    · exact ⟨_, by simp [evalBinary, evalEquality, htypes], heq⟩
    · exact ⟨_, by simp [evalBinary, evalEquality, htypes], hne⟩
  · -- The ordered comparisons are those of Integers and Characters.
    cases x <;> cases y <;> simp [ScalarValue.type, hequality] at htypes htype
    · cases o <;> simp at hlogical ho hequality <;> exact ⟨_, rfl, rfl⟩
    · cases o <;> simp at hlogical ho hequality <;> exact ⟨_, rfl, rfl⟩

theorem evalBinary_meets {o : BinaryOperator} (hlogical : o ≠ .or ∧ o ≠ .and)
    {left right v : EmittedValue} {s s' : EmitState} {code : List LlvmInstruction}
    (hcode : emitBinary o left right s = some (v, code, s')) {x y : ScalarValue}
    (hx : left.Is (some x) a) (hy : right.Is (some y) a)
    (ha : a.At s.block (withoutFrame code ++ rest)) :
    (evalBinary o x y w).Meets (llvmStep p h) n llvmEndings
      (fun z => Calculated c a s.temporary s'.block v rest (some z))
      (c.running a (withoutFrame code ++ rest) w) := by
  obtain ⟨hxtype, hx⟩ := hx
  obtain ⟨hytype, hy⟩ := hy
  obtain ⟨htypes, ⟨ho, htype, rfl, rfl, rfl⟩ | ⟨ho, htype, rfl, rfl, rfl⟩ |
    ⟨rfl, htype, rfl, rfl, rfl⟩ | ⟨rfl, htype, rfl, rfl, rfl⟩ | ⟨ho, htype, rfl, rfl, rfl⟩⟩ :=
      emitBinary_eq_some hcode
  · obtain ⟨l, rfl⟩ := ScalarValue.exists_integer (hxtype.trans htype)
    obtain ⟨r, rfl⟩ := ScalarValue.exists_integer (hytype.trans (htypes ▸ htype))
    have heval : evalBinary o (.integer l) (.integer r) = checkedInteger (o.calculation.apply l r) := by
      simp only [List.mem_cons, List.not_mem_nil, or_false] at ho
      rcases ho with rfl | rfl | rfl <;> rfl
    rw [heval]
    exact calculation_meets _ (Activation.operand64_eq hx) (Activation.operand64_eq hy) ha
  · obtain ⟨l, rfl⟩ := ScalarValue.exists_integer (hxtype.trans htype)
    obtain ⟨r, rfl⟩ := ScalarValue.exists_integer (hytype.trans (htypes ▸ htype))
    have heval : evalBinary o (.integer l) (.integer r) =
        checkedDivision l r (o.division.apply l r) := by
      simp only [List.mem_cons, List.not_mem_nil, or_false] at ho
      rcases ho with rfl | rfl <;> rfl
    rw [heval]
    exact division_meets _ (Activation.operand64_eq hx) (Activation.operand64_eq hy) ha
  · obtain ⟨l, rfl⟩ := ScalarValue.exists_text (hxtype.trans htype)
    obtain ⟨r, rfl⟩ := ScalarValue.exists_text (hytype.trans (htypes ▸ htype))
    have heval : evalBinary .equal (.text l) (.text r) = pure (.boolean (decide (l = r))) := by
      simp [evalBinary, evalEquality, ScalarValue.type]
    rw [heval]
    exact .step (textsEqual_step (Activation.operandText_eq hx) (Activation.operandText_eq hy))
      (.done (.set ha (.boolean (decide (l = r)))))
  · obtain ⟨l, rfl⟩ := ScalarValue.exists_text (hxtype.trans htype)
    obtain ⟨r, rfl⟩ := ScalarValue.exists_text (hytype.trans (htypes ▸ htype))
    have heval : evalBinary .notEqual (.text l) (.text r) = pure (.boolean (!decide (l = r))) := by
      simp [evalBinary, evalEquality, ScalarValue.type]
    rw [heval]
    refine .step (textsEqual_step (Activation.operandText_eq hx) (Activation.operandText_eq hy))
      (.step (not_step (Activation.operand1_eq (Activation.registers_set_self ..))) (.done ⟨_, rfl, ?_,
        (ha.set _ _).set _ _, EmittedValue.is_set _ _ (.boolean (!decide (l = r)))⟩))
    exact (Activation.Keeps.set a rfl (Nat.le_refl _) _).trans (.set _ rfl (Nat.le_succ _) _)
      (Nat.le_refl _)
  · obtain ⟨result, heval, hvalue⟩ := evalBinary_eq_comparison hlogical ho
      (hxtype.trans (htypes.trans hytype.symm)) (hxtype ▸ htype)
    rw [heval]
    exact .step (compare_step hx hy (hxtype ▸ hvalue)) (.done (.set ha (.boolean result)))

theorem emitBinary_meets {o : BinaryOperator} (hlogical : o ≠ .or ∧ o ≠ .and)
    {left right v : EmittedValue} {s s' : EmitState} {code : List LlvmInstruction}
    (hcode : emitBinary o left right s = some (v, code, s')) {x y : Option ScalarValue}
    (hx : left.Is x a) (hy : right.Is y a) (ha : a.At s.block (withoutFrame code ++ rest)) :
    (evalOperator o x y w).Meets (llvmStep p h) n llvmEndings
      (Calculated c a s.temporary s'.block v rest) (c.running a (withoutFrame code ++ rest) w) := by
  have htype : left.type ≠ 5 ∧ right.type ≠ 5 := by
    obtain ⟨htypes, hcases⟩ := emitBinary_eq_some hcode
    grind
  obtain ⟨x, rfl, hx⟩ := hx.exists_value htype.1
  obtain ⟨y, rfl, hy⟩ := hy.exists_value htype.2
  change Outcome.Meets _ _ _ _ ((evalBinary o x y w).bind fun z w => .done (some z) w) _
  exact .bind (evalBinary_meets hlogical hcode hx hy ha) fun z w t hz => .done hz

end

/-! ## Expressions -/

section

variable (p : List LlvmFunction) (h : Host) (n : ℕ) (active : List String)

/-- The code of an expression meets its evaluation. -/
def MeetsExpression (x : Emit EmittedValue) (run : ScalarScope → ScalarRun (Option ScalarValue)) :
    Prop :=
  ∀ ⦃s v code s'⦄, x s = some (v, code, s') → ∀ ⦃c : LlvmConfig⦄ ⦃a : Activation⦄ ⦃rest scope w⦄,
    c.Inside active a → a.At s.block (withoutFrame code ++ rest) → Matches s.locals scope a →
    (run scope w).Meets (llvmStep p h) n llvmEndings (Calculated c a s.temporary s'.block v rest)
      (c.running a (withoutFrame code ++ rest) w)

end

section

variable {p : List LlvmFunction} {h : Host} {n k : ℕ} {active : List String} {c : LlvmConfig}
  {a : Activation} {b : Label} {v : EmittedValue} {rest : List LlvmInstruction}
  {w : List ScalarValue} {t : LlvmState}

theorem LlvmConfig.Inside.keeps {a' : Activation} (h : c.Inside active a) (hkeeps : a.Keeps k a') :
    c.Inside active a' :=
  ⟨hkeeps.function ▸ h.active, h.depth⟩

/-- An expression that is a Boolean. -/
theorem evalBoolean_meets {x : ScalarRun (Option ScalarValue)} (htype : v.type = 4)
    (hx : (x w).Meets (llvmStep p h) n llvmEndings (Calculated c a k b v rest) t) :
    (evalBoolean x w).Meets (llvmStep p h) n llvmEndings
      (fun value => Calculated c a k b v rest (some (.boolean value))) t := by
  refine .fuelled hx fun value w t ht => ?_
  obtain ⟨a', ht, hkeeps, hat, hvalue⟩ := ht
  obtain ⟨y, rfl, hy, hvalue⟩ := hvalue.exists_value (by omega)
  obtain ⟨value, rfl⟩ := ScalarValue.exists_boolean (hy.trans htype)
  exact .done ⟨a', ht, hkeeps, hat, hy, hvalue⟩

/-- An expression that is an Integer. -/
theorem evalInteger_meets {x : ScalarRun (Option ScalarValue)} (htype : v.type = 1)
    (hx : (x w).Meets (llvmStep p h) n llvmEndings (Calculated c a k b v rest) t) :
    (evalInteger x w).Meets (llvmStep p h) n llvmEndings
      (fun value => Calculated c a k b v rest (some (.integer value))) t := by
  refine .fuelled hx fun value w t ht => ?_
  obtain ⟨a', ht, hkeeps, hat, hvalue⟩ := ht
  obtain ⟨y, rfl, hy, hvalue⟩ := hvalue.exists_value (by omega)
  obtain ⟨value, rfl⟩ := ScalarValue.exists_integer (hy.trans htype)
  exact .done ⟨a', ht, hkeeps, hat, hy, hvalue⟩

/-- The right side is calculated in a block of its own; at the end the machine knows which side the
jump came from. -/
theorem emitLogical_meets {short : Bool} {left right : Emit EmittedValue}
    {runLeft runRight : ScalarScope → ScalarRun (Option ScalarValue)}
    (hleft : EmitsExpression left) (hright : EmitsExpression right)
    (hmeets : MeetsExpression p h n active left runLeft)
    (hmeets' : MeetsExpression p h n active right runRight) :
    MeetsExpression p h n active (emitLogical short left right)
      fun scope => evalLogical short (runLeft scope) (runRight scope) := by
  intro s v code s' hcode c a rest scope w hinside ha hscope
  simp [emitLogical] at hcode
  obtain ⟨l, code₁, s₁, hl, r, code₂, s₂, ⟨hltype, hr, hrtype, rfl, rfl⟩, rfl⟩ := hcode
  obtain ⟨h₁, -⟩ := hleft hl
  obtain ⟨h₂, hbefore₂⟩ := hright hr
  -- What stands behind the right side, and behind the left one.
  let last := .phi s₂.temporary short s₁.block r.operand s₂.block :: rest
  let middle := withoutFrame code₂ ++ .jump (.logicalEnd (s₁.label + 1)) ::
    .label (.logicalEnd (s₁.label + 1)) :: last
  let branch : LlvmInstruction :=
    if short then .branch l.operand (.logicalEnd (s₁.label + 1)) (.logicalRight s₁.label)
    else .branch l.operand (.logicalRight s₁.label) (.logicalEnd (s₁.label + 1))
  obtain ⟨whole, hwhole⟩ : ∃ whole,
      whole = withoutFrame code₁ ++ branch :: .label (.logicalRight s₁.label) :: middle := ⟨_, rfl⟩
  have hsplit : ∀ code, code = code₁ ++ branch :: .label (.logicalRight s₁.label) ::
      (code₂ ++ [.jump (.logicalEnd (s₁.label + 1)), .label (.logicalEnd (s₁.label + 1)),
        .phi s₂.temporary short s₁.block r.operand s₂.block]) → withoutFrame code ++ rest = whole := by
    rintro _ rfl
    cases short <;> simp [hwhole, branch, middle, last, LlvmInstruction.needsFrame]
  rw [hsplit _ (by cases short <;> simp [branch])] at ha ⊢
  subst hwhole
  refine .fuelled (evalBoolean_meets hltype (hmeets hl hinside ha hscope)) fun value w t ht => ?_
  obtain ⟨a₁, rfl, hkeeps₁, hat₁, _, hvalue⟩ := ht
  have hmiddle : .label (.logicalRight s₁.label) :: middle <:+ a₁.body := hat₁.tail.suffix
  have hlast : .label (.logicalEnd (s₁.label + 1)) :: last <:+ a₁.body :=
    (List.suffix_cons _ _).trans ((List.suffix_append (withoutFrame code₂) _).trans
      ((List.suffix_cons _ _).trans hmiddle))
  have htemporary : s₁.temporary ≤ s₂.temporary := h₂.temporary
  have hkeep : a.Keeps s.temporary a₁ := hkeeps₁
  by_cases hshort : value = short
  · -- The jump goes to the end.
    have hbranch : llvmStep p h (c.running a₁ (branch :: .label (.logicalRight s₁.label) :: middle) w) =
        some (c.running (a₁.enter (.logicalEnd (s₁.label + 1))) last w) := by
      subst hshort
      cases value
      · exact branch_step hat₁ (Activation.operand1_eq hvalue) hlast
      · exact branch_step hat₁ (Activation.operand1_eq hvalue) hlast
    change Outcome.Meets _ _ _ _ ((if value = short then _ else _ : ScalarRun _) w) _
    rw [if_pos hshort]
    refine .step hbranch (.step (phi_step_left hat₁.block) (.done ⟨_, rfl, ?_, ?_, ?_⟩))
    · exact (hkeep.trans (.enter _ _ _) (Nat.le_refl _)).trans
        (.set _ rfl (h₁.temporary.trans htemporary) _) (Nat.le_refl _)
    · exact (hat₁.enter hlast).set _ _
    · exact EmittedValue.is_set _ _ (.boolean short)
  · have hbranch : llvmStep p h (c.running a₁ (branch :: .label (.logicalRight s₁.label) :: middle) w) =
        some (c.running (a₁.enter (.logicalRight s₁.label)) middle w) := by
      cases short <;> cases value <;> first | exact absurd rfl hshort | skip
      · exact branch_step hat₁ (Activation.operand1_eq hvalue) hmiddle
      · exact branch_step hat₁ (Activation.operand1_eq hvalue) hmiddle
    change Outcome.Meets _ _ _ _ ((if value = short then _ else _ : ScalarRun _) w) _
    rw [if_neg hshort]
    have hkeepEnter : a.Keeps s.temporary (a₁.enter (.logicalRight s₁.label)) :=
      hkeep.trans (.enter s.temporary _ _) (Nat.le_refl _)
    have hright := hmeets' hr (hinside.keeps hkeepEnter) (hat₁.enter hmiddle)
      (h₁.locals ▸ hscope.keeps hkeepEnter) (w := w)
    refine .step hbranch (.fuelled (evalBoolean_meets hrtype hright) fun value w t ht => ?_)
    obtain ⟨a₂, rfl, hkeeps₂, hat₂, _, hrvalue⟩ := ht
    have hlast₂ : .label (.logicalEnd (s₁.label + 1)) :: last <:+ a₂.body := hat₂.tail.suffix
    -- The block of the right side is not that of the left one, which is behind.
    have hne : s₂.block ≠ s₁.block := by
      intro heq
      refine hat₁.behind (heq ▸ ?_)
      have hblock : s₂.block ∈ .logicalRight s₁.label :: codeLabels code₂ := h₂.block
      cases short <;> simp [branch, middle] <;> grind
    have hkeepsEnd : a₂.Keeps s₂.temporary (a₂.enter (.logicalEnd (s₁.label + 1))) := .enter _ _ _
    have hright := Activation.operand1_eq ((hkeepsEnd.operand hbefore₂).trans hrvalue)
    refine .step (jump_step hat₂ hlast₂) (.step (phi_step_right hne hat₂.block hright)
      (.done ⟨_, rfl, ?_, ?_, ?_⟩))
    · have hkeepsJump := (hkeepEnter.trans hkeeps₂ h₁.temporary).trans
        (.enter s.temporary _ (.logicalEnd (s₁.label + 1))) (Nat.le_refl _)
      exact hkeepsJump.trans (.set _ rfl (h₁.temporary.trans htemporary) _) (Nat.le_refl _)
    · exact (hat₂.enter hlast₂).set _ _
    · exact EmittedValue.is_set _ _ (.boolean value)

/-- Arguments of a call that have values. -/
def HaveValues (values : List EmittedValue) (xs : List ScalarValue) (a : Activation) : Prop :=
  List.Forall₂ (fun v x => v.Is (some x) a) values xs

end

section

variable (p : List LlvmFunction) (h : Host) (n : ℕ) (active : List String)

/-- The caller has received the result of a call. -/
def Receives (c : LlvmConfig) (a : Activation) (returnType : ℕ) (result : Option ℕ)
    (rest : List LlvmInstruction) (value : Option ScalarValue) (w : List ScalarValue)
    (t : LlvmState) : Prop :=
  match result with
  | none => value = none ∧ t = c.running a rest w
  | some result => ∃ x, value = some x ∧ x.type = returnType ∧
      t = c.running (a.set (.value result) x.llvm) rest w

/-- Calls of functions with signatures meet their evaluations. -/
structure MeetsCalls (signatures : List Signature) (call : ScalarCall) : Prop where
  /-- Every parameter has a value. -/
  parameters : ∀ signature ∈ signatures, 5 ∉ signature.parameters
  call : ∀ ⦃name signature⦄,
    signatures.find? (fun signature => signature.name = name) = some signature →
    ∀ ⦃values xs⦄, values.map EmittedValue.type = signature.parameters →
    ∀ ⦃c : LlvmConfig⦄ ⦃a : Activation⦄, HaveValues values xs a → c.Inside active a →
    ∀ result rest w, (result = none ↔ signature.returnType = 5) →
    (call name xs w).Meets (llvmStep p h) n llvmEndings
      (Receives c a signature.returnType result rest)
      (c.running a (.call result signature.returnType name
        (values.map fun value => (value.type, value.operand)) :: rest) w)

end

section

variable {p : List LlvmFunction} {h : Host} {n : ℕ} {active : List String} {c : LlvmConfig}
  {a : Activation} {rest : List LlvmInstruction} {w : List ScalarValue}
  {signatures : List Signature} {call : ScalarCall}

theorem applyFunction_print (x : ScalarValue) :
    applyFunction h call "print" [x] w = .done none (w ++ [x]) := by
  rw [applyFunction.eq_def, if_pos rfl]

theorem applyFunction_fail (message : String) :
    applyFunction h call "fail" [.text message] w = .stopped (.message message) w := by
  rw [applyFunction.eq_def, if_neg (by decide), if_pos rfl]
  rfl

theorem applyFunction_exit (status : ℤ) :
    applyFunction h call "exit" [.integer status] w = .stopped (.exit status) w := by
  rw [applyFunction.eq_def, if_neg (by decide), if_neg (by decide), if_pos rfl]
  rfl

theorem applyFunction_argumentCount :
    applyFunction h call "argumentCount" [] w = .done (some (.integer h.argumentCount)) w := by
  rw [applyFunction.eq_def, if_neg (by decide), if_neg (by decide), if_neg (by decide), if_pos rfl]
  rfl

theorem applyFunction_defined {function : String} {xs : List ScalarValue}
    (hfunction : function ∉ ["print", "fail", "exit", "argumentCount"]) :
    applyFunction h call function xs = call function xs := by
  simp only [List.mem_cons, List.not_mem_nil, or_false, not_or] at hfunction
  obtain ⟨hprint, hfail, hexit, hcount⟩ := hfunction
  rw [applyFunction.eq_def, if_neg hprint, if_neg hfail, if_neg hexit, if_neg hcount]

theorem emitCall_meets (hcalls : MeetsCalls p h n active signatures call) {function : String}
    {values : List EmittedValue} {xs : List ScalarValue} {v : EmittedValue} {s s' : EmitState}
    {code : List LlvmInstruction} (hcode : emitCall signatures function values s = some (v, code, s'))
    (hvalues : HaveValues values xs a) (hinside : c.Inside active a)
    (ha : a.At s.block (withoutFrame code ++ rest)) :
    (applyFunction h call function xs w).Meets (llvmStep p h) n llvmEndings
      (Calculated c a s.temporary s'.block v rest) (c.running a (withoutFrame code ++ rest) w) := by
  rcases emitCall_eq_some hcode with ⟨rfl, value, rfl, -, -, rfl, rfl, rfl⟩ |
    ⟨rfl, value, rfl, htype, rfl, rfl, rfl⟩ | ⟨rfl, value, rfl, htype, rfl, rfl, rfl⟩ |
    ⟨rfl, rfl, rfl, rfl, rfl⟩ | ⟨hfunction, signature, hfind, htypes, hcall⟩
  · obtain ⟨x, -, ⟨hxtype, hx⟩, ⟨⟩, rfl⟩ := List.forall₂_cons_left_iff.mp hvalues
    rw [applyFunction_print]
    exact .step (print_step hx (hxtype ▸ x.printedValue_llvm)) (.done ⟨a, rfl, .refl _ a, ha.tail, rfl⟩)
  · obtain ⟨x, -, ⟨hxtype, hx⟩, ⟨⟩, rfl⟩ := List.forall₂_cons_left_iff.mp hvalues
    obtain ⟨message, rfl⟩ := ScalarValue.exists_text (hxtype.trans htype)
    rw [applyFunction_fail]
    exact .single (fail_step (Activation.operandText_eq hx))
  · obtain ⟨x, -, ⟨hxtype, hx⟩, ⟨⟩, rfl⟩ := List.forall₂_cons_left_iff.mp hvalues
    obtain ⟨status, rfl⟩ := ScalarValue.exists_integer (hxtype.trans htype)
    rw [applyFunction_exit]
    exact .single (exit_step (Activation.operand64_eq hx))
  · obtain rfl := List.forall₂_nil_left_iff.mp hvalues
    rw [applyFunction_argumentCount]
    have hstep : llvmStep p h (c.running a (.argumentCount s.temporary :: rest) w) =
        some (c.running (a.set (.value s.temporary) (.i64 h.argumentCount)) rest w) := rfl
    exact .step hstep (.done (.set ha (.integer h.argumentCount)))
  · rw [applyFunction_defined hfunction]
    rcases hcall with ⟨htype, rfl, rfl, rfl⟩ | ⟨htype, -, rfl, rfl, rfl⟩
    · have hmeets := hcalls.call hfind htypes hvalues hinside none rest w (by simp [htype])
      rw [htype] at hmeets
      refine hmeets.imp fun value w t ht => ?_
      obtain ⟨rfl, rfl⟩ := ht
      exact ⟨a, rfl, .refl _ a, ha.tail, rfl⟩
    · refine (hcalls.call hfind htypes hvalues hinside (some s.temporary) rest w (by simp [htype])).imp
        fun value w t ht => ?_
      obtain ⟨x, rfl, hxtype, rfl⟩ := ht
      exact hxtype ▸ .set ha x

/-- The arguments of a call have values. -/
theorem ne_of_emitCall (hparameters : ∀ signature ∈ signatures, 5 ∉ signature.parameters)
    {function : String} {values : List EmittedValue} {v : EmittedValue} {s s' : EmitState}
    {code : List LlvmInstruction}
    (hcode : emitCall signatures function values s = some (v, code, s')) :
    ∀ v ∈ values, v.type ≠ 5 := by
  rcases emitCall_eq_some hcode with ⟨-, value, rfl, -, hlast, -⟩ | ⟨-, value, rfl, htype, -⟩ |
    ⟨-, value, rfl, htype, -⟩ | ⟨-, rfl, -⟩ | ⟨-, signature, hfind, htypes, -⟩
  · exact List.forall_mem_singleton.mpr (by omega)
  · exact List.forall_mem_singleton.mpr (by omega)
  · exact List.forall_mem_singleton.mpr (by omega)
  · simp
  · exact fun v hv htype => hparameters signature (List.mem_of_find?_eq_some hfind)
      (htypes ▸ htype ▸ List.mem_map_of_mem hv)

mutual

/-- The code of an expression meets its evaluation. -/
theorem emitExpression_meets (hcalls : MeetsCalls p h n active signatures call) : ∀ e : Expression,
    MeetsExpression p h n active (emitExpression signatures e)
      fun scope => evalExpression h call scope e
  | .integer value => by
    intro s v code s' hcode c a rest scope w hinside ha hscope
    simp [emitExpression] at hcode
    obtain ⟨⟨-, rfl⟩, rfl, rfl⟩ := hcode
    exact .done ⟨a, rfl, .refl _ a, ha, rfl, rfl⟩
  | .negative value => by
    intro s v code s' hcode c a rest scope w hinside ha hscope
    simp [emitExpression] at hcode
    obtain ⟨⟨-, rfl⟩, rfl, rfl⟩ := hcode
    exact .done ⟨a, rfl, .refl _ a, ha, rfl, rfl⟩
  | .text position value => by
    intro s v code s' hcode c a rest scope w hinside ha hscope
    simp [emitExpression] at hcode
    obtain ⟨rfl, rfl, rfl⟩ := hcode
    exact .done ⟨a, rfl, .refl _ a, ha, rfl, rfl⟩
  | .character position value => by
    intro s v code s' hcode c a rest scope w hinside ha hscope
    simp [emitExpression] at hcode
    obtain ⟨⟨rfl, rfl⟩, rfl⟩ := hcode
    exact .step rfl (.done (.set ha (.character value)))
  | .boolean value => by
    intro s v code s' hcode c a rest scope w hinside ha hscope
    simp [emitExpression] at hcode
    obtain ⟨rfl, rfl, rfl⟩ := hcode
    exact .done ⟨a, rfl, .refl _ a, ha, rfl, rfl⟩
  | .name name => by
    intro s v code s' hcode c a rest scope w hinside ha hscope
    simp [emitExpression] at hcode
    obtain ⟨binding, hfind, hcode⟩ := hcode
    obtain ⟨entry, hlookup, hholds⟩ := hscope.lookup hfind
    have heval : evalExpression h call scope (.name name) w = .done (some entry.2) w := by
      simp only [evalExpression, hlookup]
      rfl
    have hplace := hholds.place
    simp only [heval]
    cases hb : binding.place with
    | argument number =>
      simp [hb] at hcode hplace
      obtain ⟨rfl, rfl, rfl⟩ := hcode
      exact .done ⟨a, rfl, .refl _ a, ha, hholds.type, hplace⟩
    | cell number =>
      simp [hb] at hcode hplace
      obtain ⟨⟨rfl, rfl⟩, rfl⟩ := hcode
      exact .step (load_step hplace (hholds.type ▸ ScalarValue.hasType_llvm _))
        (.done (hholds.type ▸ .set ha entry.2))
  | .not operand => by
    intro s v code s' hcode c a rest scope w hinside ha hscope
    simp [emitExpression] at hcode
    obtain ⟨value, code₁, s₁, hvalue, ⟨htype, rfl, rfl⟩, rfl⟩ := hcode
    obtain ⟨h₁, -⟩ := emitExpression_emitted signatures operand hvalue
    rw [withoutFrame_append, List.append_assoc] at ha ⊢
    refine .fuelled (evalBoolean_meets htype (emitExpression_meets hcalls operand hvalue hinside ha
      hscope)) fun b w t ht => ?_
    obtain ⟨a₁, rfl, hkeeps, hat, _, hb⟩ := ht
    exact .step (not_step (Activation.operand1_eq hb))
      (.done ((Calculated.set hat (.boolean !b)).after hkeeps h₁.temporary))
  | .negate operand => by
    intro s v code s' hcode c a rest scope w hinside ha hscope
    simp [emitExpression, emitCalculation] at hcode
    obtain ⟨value, code₁, s₁, hvalue, ⟨htype, rfl, rfl⟩, rfl⟩ := hcode
    obtain ⟨h₁, -⟩ := emitExpression_emitted signatures operand hvalue
    rw [withoutFrame_append, List.append_assoc] at ha ⊢
    refine .fuelled (evalInteger_meets htype (emitExpression_meets hcalls operand hvalue hinside ha
      hscope)) fun m w t ht => ?_
    obtain ⟨a₁, rfl, hkeeps, hat, _, hm⟩ := ht
    have hzero : a₁.operand64 (.constant (.i64 0)) = some 0 := rfl
    have hnegate := calculation_meets (p := p) (h := h) (n := n) (c := c) (w := w) .ssub hzero
      (Activation.operand64_eq hm) hat
    rw [show Calculation.ssub.apply 0 m = -m from Int.zero_sub m] at hnegate
    exact .fuelled hnegate fun x w t hx => .done (hx.after hkeeps h₁.temporary)
  | .binary operator left right => by
    have hleft := emitExpression_meets hcalls left
    have hright := emitExpression_meets hcalls right
    have hemits := emitExpression_emitted signatures left
    have hemits' := emitExpression_emitted signatures right
    unfold emitExpression
    simp only [evalExpression]
    split_ifs with hor hand
    · exact emitLogical_meets hemits hemits' hleft hright
    · exact emitLogical_meets hemits hemits' hleft hright
    · intro s v code s' hcode c a rest scope w hinside ha hscope
      simp only [Emit.bind_eq_some] at hcode
      obtain ⟨l, code₁, s₁, _, hl, ⟨r, code₂, s₂, code₃, hr, hcode, rfl⟩, rfl⟩ := hcode
      obtain ⟨h₁, hbefore₁⟩ := hemits hl
      obtain ⟨h₂, -⟩ := hemits' hr
      simp only [withoutFrame_append, List.append_assoc] at ha ⊢
      refine .fuelled (hleft hl hinside ha hscope) fun x w t ht => ?_
      obtain ⟨a₁, rfl, hkeeps₁, hat₁, hx⟩ := ht
      refine .fuelled (hright hr (hinside.keeps hkeeps₁) hat₁ (h₁.locals ▸ hscope.keeps hkeeps₁))
        fun y w t ht => ?_
      obtain ⟨a₂, rfl, hkeeps₂, hat₂, hy⟩ := ht
      exact (emitBinary_meets ⟨hor, hand⟩ hcode (hx.keeps hkeeps₂ hbefore₁) hy hat₂).imp
        fun z w t hz => hz.after (hkeeps₁.trans hkeeps₂ h₁.temporary) (h₁.temporary.trans h₂.temporary)
  | .call function arguments => by
    intro s v code s' hcode c a rest scope w hinside ha hscope
    simp [emitExpression] at hcode
    obtain ⟨values, code₁, s₁, hvalues, code₂, hcode, rfl⟩ := hcode
    obtain ⟨h₁, -⟩ := emitArguments_emitted signatures arguments hvalues
    rw [withoutFrame_append, List.append_assoc] at ha ⊢
    refine .fuelled (emitArguments_meets hcalls arguments hvalues
      (ne_of_emitCall hcalls.parameters hcode) hinside ha hscope) fun xs w t ht => ?_
    obtain ⟨a₁, rfl, hkeeps, hat, hxs⟩ := ht
    exact (emitCall_meets hcalls hcode hxs (hinside.keeps hkeeps) hat).imp
      fun z w t hz => hz.after hkeeps h₁.temporary

/-- The code of the arguments of a call meets their evaluation. -/
theorem emitArguments_meets (hcalls : MeetsCalls p h n active signatures call) :
    ∀ (arguments : List Expression) ⦃s values code s'⦄,
    emitArguments signatures arguments s = some (values, code, s') → (∀ v ∈ values, v.type ≠ 5) →
    ∀ ⦃c : LlvmConfig⦄ ⦃a : Activation⦄ ⦃rest scope w⦄, c.Inside active a →
    a.At s.block (withoutFrame code ++ rest) → Matches s.locals scope a →
    (evalArguments h call scope arguments w).Meets (llvmStep p h) n llvmEndings
      (fun xs w t => ∃ a', t = c.running a' rest w ∧ a.Keeps s.temporary a' ∧ a'.At s'.block rest ∧
        HaveValues values xs a') (c.running a (withoutFrame code ++ rest) w)
  | [] => by
    intro s values code s' hcode _ c a rest scope w hinside ha hscope
    simp [emitArguments] at hcode
    obtain ⟨rfl, rfl, rfl⟩ := hcode
    exact .done ⟨a, rfl, .refl _ a, ha, .nil⟩
  | argument :: arguments => by
    intro s values code s' hcode htypes c a rest scope w hinside ha hscope
    simp [emitArguments] at hcode
    obtain ⟨value, code₁, s₁, hvalue, code₂, ⟨values, hvalues, rfl⟩, rfl⟩ := hcode
    obtain ⟨h₁, hbefore₁⟩ := emitExpression_emitted signatures argument hvalue
    obtain ⟨htype, htypes⟩ := List.forall_mem_cons.mp htypes
    rw [withoutFrame_append, List.append_assoc] at ha ⊢
    refine .fuelled (emitExpression_meets hcalls argument hvalue hinside ha hscope)
      fun x w t ht => ?_
    obtain ⟨a₁, rfl, hkeeps₁, hat₁, hx⟩ := ht
    obtain ⟨x, rfl, hx⟩ := hx.exists_value htype
    change Outcome.Meets _ _ _ _
      ((evalArguments h call scope arguments w).bind fun xs w => .done (x :: xs) w) _
    refine .bind (emitArguments_meets hcalls arguments hvalues htypes (hinside.keeps hkeeps₁) hat₁
      (h₁.locals ▸ hscope.keeps hkeeps₁)) fun xs w t ht => ?_
    obtain ⟨a₂, rfl, hkeeps₂, hat₂, hxs⟩ := ht
    have hfirst : value.Is (some x) a₁ := hx
    exact .done ⟨a₂, rfl, hkeeps₁.trans hkeeps₂ h₁.temporary, hat₂,
      .cons (hfirst.keeps hkeeps₂ hbefore₁) hxs⟩

end

end

end Minyar

import Minyar.Compiler.ScalarExpressions

/-!
# The code of statements

The code of a statement meets what the statement does: from a state in front of the code the machine
goes on behind it with the new values of the bindings in scope, returns from the function, or stops as
the evaluation does.  A turn of a loop takes a step at least, so that a loop without fuel takes as many
steps as there was fuel.
-/

namespace Minyar

open StateTransition

/-! ## Locals -/

/-- The bindings in scope have different locals, which were taken before. -/
structure EmitState.Placed (first : ℕ) (s : EmitState) : Prop where
  first : first ≤ s.nextLocal
  nodup : (localCells s.locals).Nodup
  below : ∀ n ∈ localCells s.locals, n < s.nextLocal

theorem EmittedStatement.placed {first : ℕ} {s s' : EmitState} {code : List LlvmInstruction}
    {a b : Bool} (h : EmittedStatement a s code s' b) (hs : s.Placed first) : s'.Placed first := by
  obtain ⟨added, hadded, hcells⟩ := h.locals
  have hlocals : localCells s'.locals = localCells added ++ localCells s.locals := by
    rw [hadded, localCells, List.filterMap_append]
    rfl
  have hnew : ∀ n ∈ localCells added, s.nextLocal ≤ n ∧ n < s'.nextLocal := by
    intro n hn
    obtain ⟨k, hk, hle, hlt⟩ := hcells.2 n hn
    cases hk
    exact ⟨hle, hlt⟩
  refine ⟨hs.first.trans h.nextLocal, ?_, ?_⟩
  · rw [hlocals]
    refine List.nodup_append.mpr ⟨hcells.1, hs.nodup, fun n hn m hm => ?_⟩
    have := hnew n hn
    have := hs.below m hm
    omega
  · intro n hn
    rw [hlocals] at hn
    rcases List.mem_append.mp hn with hn | hn
    · exact (hnew n hn).2
    · exact (hs.below n hn).trans_le h.nextLocal

theorem EmittedExpression.placed {first : ℕ} {s s' : EmitState} {code : List LlvmInstruction}
    (h : EmittedExpression s code s') (hs : s.Placed first) : s'.Placed first :=
  h.statement.placed hs

theorem EmittedBlock.placed {first : ℕ} {s s' : EmitState} {code : List LlvmInstruction} {b : Bool}
    (h : EmittedBlock s code s' b) (hs : s.Placed first) : s'.Placed first :=
  (EmittedStatement.of_emitted h.toEmitted h.locals h.nextLocal).placed hs

/-- A binding keeps its value when another local gets one. -/
theorem ScalarBinding.Holds.setCell {binding : ScalarBinding} {entry : String × ScalarValue}
    {a : Activation} {n : ℕ} (h : binding.Holds entry a) (hne : binding.cell ≠ some n)
    (v : Option LlvmValue) : binding.Holds entry (a.setCell n v) := by
  refine ⟨h.name, h.type, ?_⟩
  have hplace := h.place
  cases hb : binding.place with
  | argument number =>
    rw [hb] at hplace
    exact hplace
  | cell number =>
    rw [hb] at hplace
    refine (Activation.cells_setCell_of_ne a ?_ v).trans hplace
    rintro rfl
    exact hne (by rw [ScalarBinding.cell, hb])

/-- Bindings keep their values when another local gets one. -/
theorem Matches.setCell {locals : List ScalarBinding} {scope : ScalarScope} {a : Activation} {n : ℕ}
    (h : Matches locals scope a) (hn : n ∉ localCells locals) (v : Option LlvmValue) :
    Matches locals scope (a.setCell n v) := by
  induction h with
  | nil => exact .nil
  | @cons binding entry locals scope hholds _ ih =>
    have hne : binding.cell ≠ some n := fun hcell =>
      hn (List.mem_filterMap.mpr ⟨binding, List.mem_cons_self, hcell⟩)
    refine .cons (hholds.setCell hne v) (ih fun hmem => hn ?_)
    obtain ⟨other, hother, hcell⟩ := List.mem_filterMap.mp hmem
    exact List.mem_filterMap.mpr ⟨other, List.mem_cons_of_mem _ hother, hcell⟩

/-- An assignment to the latest binding with a name. -/
theorem Matches.assign {locals : List ScalarBinding} {scope : ScalarScope} {a : Activation}
    (h : Matches locals scope a) (hnodup : (localCells locals).Nodup) {name : String}
    {binding : ScalarBinding} {number : ℕ} {x : ScalarValue}
    (hfind : locals.find? (fun binding => binding.name = name) = some binding)
    (hplace : binding.place = .cell number) (htype : x.type = binding.type) :
    ∃ scope', ScalarScope.assign name x scope = some scope' ∧
      Matches locals scope' (a.setCell number (some x.llvm)) := by
  induction h with
  | nil => cases hfind
  | @cons other entry locals scope hholds hrest ih =>
    have hcell : binding.cell = some number := by rw [ScalarBinding.cell, hplace]
    by_cases hname : other.name = name
    · rw [List.find?_cons_of_pos (by simpa using hname)] at hfind
      cases hfind
      have hnew : number ∉ localCells locals := by
        rw [localCells, List.filterMap_cons_some hcell] at hnodup
        exact (List.nodup_cons.mp hnodup).1
      refine ⟨(name, x) :: scope, ?_, .cons ⟨hname, htype, ?_⟩ (Matches.setCell hrest hnew _)⟩
      · rw [ScalarScope.assign, if_pos (hholds.name ▸ hname)]
      · rw [hplace]
        exact Activation.cells_setCell_self ..
    · rw [List.find?_cons_of_neg (by simpa using hname)] at hfind
      have hmem : number ∈ localCells locals :=
        List.mem_filterMap.mpr ⟨binding, List.mem_of_find?_eq_some hfind, hcell⟩
      have hother : other.cell ≠ some number := by
        intro hother
        rw [localCells, List.filterMap_cons_some hother] at hnodup
        exact (List.nodup_cons.mp hnodup).1 hmem
      have hsublist : (localCells locals).Sublist (localCells (other :: locals)) :=
        (List.sublist_cons_self other locals).filterMap _
      obtain ⟨scope', hassign, hscope'⟩ := ih (hnodup.sublist hsublist) hfind
      refine ⟨entry :: scope', ?_, .cons (hholds.setCell hother _) hscope'⟩
      rw [ScalarScope.assign, if_neg (hholds.name ▸ hname), hassign]
      rfl

theorem isSome_setCell {a : Activation} {m : ℕ} (h : (a.cells m).isSome) (n : ℕ)
    (v : Option LlvmValue) : ((a.setCell n v).cells m).isSome := by
  by_cases hm : m = n
  · subst hm
    rw [Activation.cells_setCell_self, Option.isSome_some]
  · rwa [Activation.cells_setCell_of_ne a hm]

/-- The bindings have the values in scope, and the locals of the function are allocated. -/
structure Environment (first bound : ℕ) (locals : List ScalarBinding) (scope : ScalarScope)
    (a : Activation) : Prop where
  values : Matches locals scope a
  allocated : ∀ n, first ≤ n → n < bound → (a.cells n).isSome

namespace Environment

variable {first bound : ℕ} {locals : List ScalarBinding} {scope : ScalarScope} {a a' : Activation}

theorem keeps {n : ℕ} (h : Environment first bound locals scope a) (hkeeps : a.Keeps n a') :
    Environment first bound locals scope a' :=
  ⟨h.values.keeps hkeeps, fun m hfirst hbound => hkeeps.cells ▸ h.allocated m hfirst hbound⟩

theorem assign (h : Environment first bound locals scope a) (hnodup : (localCells locals).Nodup)
    {name : String} {binding : ScalarBinding} {number : ℕ} {x : ScalarValue}
    (hfind : locals.find? (fun binding => binding.name = name) = some binding)
    (hplace : binding.place = .cell number) (htype : x.type = binding.type) :
    ∃ scope', ScalarScope.assign name x scope = some scope' ∧
      Environment first bound locals scope' (a.setCell number (some x.llvm)) := by
  obtain ⟨scope', hassign, hscope'⟩ := h.values.assign hnodup hfind hplace htype
  exact ⟨scope', hassign, hscope', fun m hfirst hbound =>
    isSome_setCell (h.allocated m hfirst hbound) ..⟩

theorem letLocal (h : Environment first bound locals scope a) {number : ℕ}
    (hnew : number ∉ localCells locals) (name : String) (x : ScalarValue) :
    Environment first bound (⟨name, x.type, .cell number⟩ :: locals) ((name, x) :: scope)
      (a.setCell number (some x.llvm)) :=
  ⟨.cons ⟨rfl, rfl, Activation.cells_setCell_self ..⟩ (h.values.setCell hnew _),
    fun m hfirst hbound => isSome_setCell (h.allocated m hfirst hbound) ..⟩

/-- The bindings of a block are gone behind it. -/
theorem close {outer : List ScalarBinding} {outerScope : ScalarScope}
    (h : Environment first bound locals scope a) (hlength : outer.length = outerScope.length) :
    Environment first bound (locals.drop (locals.length - outer.length))
      (scope.drop (scope.length - outerScope.length)) a := by
  refine ⟨?_, h.allocated⟩
  rw [hlength, List.Forall₂.length_eq h.values]
  exact List.forall₂_drop _ h.values

end Environment

/-- Activations of a function with the same code. -/
structure Activation.SameFunction (a a' : Activation) : Prop where
  function : a'.function = a.function
  body : a'.body = a.body

theorem Activation.SameFunction.trans {a a' a'' : Activation} (h : a.SameFunction a')
    (h' : a'.SameFunction a'') : a.SameFunction a'' :=
  ⟨h'.function.trans h.function, h'.body.trans h.body⟩

theorem Activation.Keeps.sameFunction {n : ℕ} {a a' : Activation} (h : a.Keeps n a') :
    a.SameFunction a' :=
  ⟨h.function, h.body⟩

theorem LlvmConfig.Inside.sameFunction {c : LlvmConfig} {active : List String} {a a' : Activation}
    (h : c.Inside active a) (hsame : a.SameFunction a') : c.Inside active a' :=
  ⟨hsame.function ▸ h.active, h.depth⟩

/-! ## Returns -/

/-- A program can return from a function: `main` has no caller, and the caller of another function
takes its result. -/
structure LlvmConfig.Returns (c : LlvmConfig) (f : FunctionContext) : Prop where
  main : f.name = "main" → c.callers = [] ∧ f.returnType = 1
  other : f.name ≠ "main" → f.name ≠ "top level" → ∃ result caller callers,
    c.callers = (result, caller) :: callers ∧ (result = none ↔ f.returnType = 5)

/-- The function has returned a value. -/
def LlvmConfig.Returned (c : LlvmConfig) (f : FunctionContext) (value : Option ScalarValue)
    (w : List ScalarValue) (t : LlvmState) : Prop :=
  (f.name = "main" ∧ ∃ n, value = some (.integer n) ∧ t = .finished (n.bmod (2 ^ 32)) w) ∨
  (f.name ≠ "main" ∧ value.elim 5 ScalarValue.type = f.returnType ∧
    ({ c with depth := c.callers.length, printed := w } : LlvmConfig).leave
      (value.map ScalarValue.llvm) = some t)

section

variable {p : List LlvmFunction} {h : Host} {active : List String} {c : LlvmConfig} {a : Activation}
  {code rest : List LlvmInstruction} {w : List ScalarValue} {f : FunctionContext}

theorem stackLeave_step (hinside : c.Inside active a) :
    llvmStep p h (c.running a (.stackLeave :: code) w) =
      some (({ c with depth := c.callers.length } : LlvmConfig).running a code w) := by
  have hdepth := hinside.depth
  simp [llvmStep_running, LlvmConfig.execute, hdepth]
  rfl

theorem LlvmConfig.Returns.exists_leave {value : Option ScalarValue} (hreturns : c.Returns f)
    (hmain : f.name ≠ "main") (htop : f.name ≠ "top level")
    (htype : value.elim 5 ScalarValue.type = f.returnType) :
    ∃ t, ({ c with depth := c.callers.length, printed := w } : LlvmConfig).leave
      (value.map ScalarValue.llvm) = some t := by
  obtain ⟨result, caller, callers, hcallers, hresult⟩ := hreturns.other hmain htop
  cases value with
  | none =>
    obtain rfl := hresult.mpr htype.symm
    exact ⟨_, by simp only [LlvmConfig.leave, hcallers]; rfl⟩
  | some x =>
    cases result with
    | none =>
      have := x.type_lt
      have := hresult.mp rfl
      simp only [Option.elim_some] at htype
      omega
    | some result => exact ⟨_, by simp only [LlvmConfig.leave, hcallers]; rfl⟩

theorem retStatus_step {operand : LlvmOperand} {status : ℤ} (hcallers : c.callers = [])
    (hstatus : a.operand operand = some (.i32 status)) :
    llvmStep p h (c.running a (.retStatus operand :: code) w) = some (.finished status w) := by
  simp [llvmStep_running, LlvmConfig.execute, hcallers, hstatus]

theorem ret_step {type : ℕ} {operand : LlvmOperand} {value : Option LlvmValue} {t : LlvmState}
    (hvalue : if type = 5 then value = none else a.operand operand = value)
    (hsome : value = none → type = 5)
    (hleave : ({ c with printed := w } : LlvmConfig).leave value = some t) :
    llvmStep p h (c.running a (.ret type operand :: code) w) = some t := by
  rw [llvmStep_running, LlvmConfig.execute, ← hleave]
  split_ifs at hvalue ⊢ with htype
  · rw [hvalue]
    rfl
  · obtain ⟨v, rfl⟩ := Option.ne_none_iff_exists'.mp (mt hsome htype)
    simp only [Activation.withCode_operand, hvalue, Option.bind_eq_bind, Option.bind_some]
    rfl

/-- What a `return` writes behind its value returns it. -/
theorem emitReturn_reaches (hinside : c.Inside active a) (hreturns : c.Returns f)
    (htop : f.name ≠ "top level") {v : EmittedValue} {value : Option ScalarValue} (hv : v.Is value a)
    {s s' : EmitState} {u : Unit} (hcode : emitReturn f v s = some (u, code, s')) :
    ∃ t, Reaches (llvmStep p h) (c.running a (withoutFrame code ++ rest) w) t ∧
      c.Returned f value w t := by
  obtain ⟨htype, -, ⟨hmain, rfl, rfl⟩ | ⟨hmain, rfl, rfl⟩⟩ := emitReturn_eq_some hcode
  · obtain ⟨hcallers, hreturnType⟩ := hreturns.main hmain
    obtain ⟨x, rfl, hx, hoperand⟩ := hv.exists_value (by omega)
    obtain ⟨n, rfl⟩ := ScalarValue.exists_integer (hx.trans (htype.trans hreturnType))
    exact ⟨_, .head (stackLeave_step hinside) (.head (truncate_step (Activation.operand64_eq hoperand))
      (.single (retStatus_step hcallers (Activation.registers_set_self ..)))),
      .inl ⟨hmain, n, rfl, rfl⟩⟩
  · have hvalue : value.elim 5 ScalarValue.type = v.type := by
      cases value with
      | none => exact hv.symm
      | some x => exact hv.1
    obtain ⟨t, ht⟩ := hreturns.exists_leave (w := w) hmain htop (hvalue.trans htype)
    refine ⟨t, .head (stackLeave_step hinside) (.single (ret_step ?_ ?_ ht)),
      .inr ⟨hmain, hvalue.trans htype, ht⟩⟩
    · cases value with
      | none =>
        have hvoid : v.type = 5 := hv
        rw [if_pos hvoid, Option.map_none]
      | some x =>
        have := x.type_lt
        rw [if_neg (by simp only [Option.elim_some] at hvalue; omega)]
        exact hv.2
    · cases value with
      | none => exact fun _ => hv
      | some x => simp

end

/-! ## Statements -/

section

variable (p : List LlvmFunction) (h : Host) (n : ℕ) (active : List String) (f : FunctionContext)
  (first bound : ℕ)

/-- The machine is where a flow goes: behind the code, if it does not always return, with the values
of the bindings there, or behind the call of the function. -/
def Flows (c : LlvmConfig) (a : Activation) (s' : EmitState) (returns : Bool)
    (rest : List LlvmInstruction) (flow : Flow) (w : List ScalarValue) (t : LlvmState) : Prop :=
  match flow with
  | .next scope => returns = false ∧ ∃ a', t = c.running a' rest w ∧ a.SameFunction a' ∧
      a'.At s'.block rest ∧ Environment first bound s'.locals scope a'
  | .returned value => c.Returned f value w t

/-- The code of statements meets what they do. -/
def MeetsStatement (x : Emit Bool) (run : ScalarScope → ScalarRun Flow) : Prop :=
  ∀ ⦃s returns code s'⦄, x s = some (returns, code, s') → s.Placed first → s'.nextLocal ≤ bound →
    ∀ ⦃c : LlvmConfig⦄ ⦃a : Activation⦄ ⦃rest scope w⦄, c.Inside active a → c.Returns f →
    a.At s.block (withoutFrame code ++ rest) → Environment first bound s.locals scope a →
    (run scope w).Meets (llvmStep p h) n llvmEndings (Flows f first bound c a s' returns rest)
      (c.running a (withoutFrame code ++ rest) w)

end

section

variable {p : List LlvmFunction} {h : Host} {n : ℕ} {active : List String} {f : FunctionContext}
  {first bound : ℕ} {c : LlvmConfig} {a a' : Activation} {s s' : EmitState} {returns : Bool}
  {code rest rest' : List LlvmInstruction} {w : List ScalarValue} {t : LlvmState}
  {signatures : List Signature} {call : ScalarCall}

/-- What comes before in the same function. -/
theorem Flows.after {flow : Flow} (ht : Flows f first bound c a' s' returns rest flow w t)
    (hsame : a.SameFunction a') : Flows f first bound c a s' returns rest flow w t := by
  cases flow with
  | next scope =>
    obtain ⟨hreturns, a'', ht, hsame', hat, hscope⟩ := ht
    exact ⟨hreturns, a'', ht, hsame.trans hsame', hat, hscope⟩
  | returned value => exact ht

/-- The bindings of a block are gone behind it. -/
theorem emitBlock_meets {x : Emit Bool} {run : ScalarScope → ScalarRun Flow}
    (hx : MeetsStatement p h n active f first bound x run) :
    MeetsStatement p h n active f first bound (emitBlock x)
      fun scope => do return (← run scope).close scope := by
  intro s returns code s' hcode hs hbound c a rest scope w hinside hreturns ha hscope
  obtain ⟨s₁, hcode₁, rfl⟩ := emitBlock_eq_some hcode
  refine .fuelled (hx hcode₁ hs hbound hinside hreturns ha hscope) fun flow w t ht => .done ?_
  cases flow with
  | next scope' =>
    obtain ⟨hreturns, a', ht, hsame, hat, hscope'⟩ := ht
    exact ⟨hreturns, a', ht, hsame, hat, hscope'.close (List.Forall₂.length_eq hscope.values)⟩
  | returned value => exact ht

/-- The condition of a statement. -/
theorem condition_meets (hcalls : MeetsCalls p h n active signatures call) {condition : Expression}
    {v : EmittedValue} (hcode : emitExpression signatures condition s = some (v, code, s'))
    (htype : v.type = 4) {scope : ScalarScope} (hinside : c.Inside active a)
    (ha : a.At s.block (withoutFrame code ++ rest))
    (hscope : Environment first bound s.locals scope a) :
    (evalBoolean (evalExpression h call scope condition) w).Meets (llvmStep p h) n llvmEndings
      (fun value w t => ∃ a', t = c.running a' rest w ∧ a.SameFunction a' ∧ a'.At s'.block rest ∧
        Environment first bound s.locals scope a' ∧ a'.operand1 v.operand = some value)
      (c.running a (withoutFrame code ++ rest) w) := by
  have hmeets := emitExpression_meets hcalls condition hcode hinside ha hscope.values (w := w)
  refine (evalBoolean_meets htype hmeets).imp fun value w t ht => ?_
  obtain ⟨a', rfl, hkeeps, hat, _, hvalue⟩ := ht
  exact ⟨a', rfl, hkeeps.sameFunction, hat, hscope.keeps hkeeps, Activation.operand1_eq hvalue⟩

/-- The end of a branch that goes on: the flow goes to a label behind it. -/
theorem Flows.jump {s₁ : EmitState} {returns' : Bool} {l : Label} {flow : Flow}
    (ht : Flows f first bound c a s₁ returns ((if returns then [] else [.jump l]) ++ rest) flow w t)
    (hend : returns = false → returns' = false ∧ .label l :: rest' <:+ a.body ∧
      s'.locals = s₁.locals ∧ s'.block = l) :
    ∃ t', Reaches (llvmStep p h) t t' ∧ Flows f first bound c a s' returns' rest' flow w t' := by
  cases flow with
  | next scope =>
    obtain ⟨rfl, a', rfl, hsame, hat, hscope⟩ := ht
    obtain ⟨hreturns', hsuffix, hlocals, rfl⟩ := hend rfl
    rw [← hsame.body] at hsuffix
    have hkeeps : a'.Keeps 0 (a'.enter s'.block) := .enter 0 a' _
    exact ⟨_, .single (jump_step hat hsuffix), hreturns', _, rfl, hsame.trans hkeeps.sameFunction,
      hat.enter hsuffix, hlocals ▸ hscope.keeps hkeeps⟩
  | returned value => exact ⟨t, .refl, ht⟩

/-- A jump to a block in which statements go on. -/
theorem Environment.enter {locals : List ScalarBinding} {scope : ScalarScope} (l : Label)
    (h : Environment first bound locals scope a) :
    Environment first bound locals scope (a.enter l) :=
  h.keeps (.enter 0 a l)

theorem Activation.SameFunction.enter (h : a.SameFunction a') (l : Label) :
    a.SameFunction (a'.enter l) :=
  ⟨h.function, h.body⟩

theorem emitIfThen_meets (hcalls : MeetsCalls p h n active signatures call) {condition : Expression}
    {thenBlock : List Statement}
    (hmeets : MeetsStatement p h n active f first bound
      (emitStatements signatures f false false thenBlock)
      fun scope => evalStatements h call n scope thenBlock)
    (hemits : EmitsStatement true (emitStatements signatures f false false thenBlock)) :
    MeetsStatement p h n active f first bound
      (emitStatement signatures f (.ifThen condition thenBlock))
      fun scope => evalStatement h call n scope (.ifThen condition thenBlock) := by
  intro s returns code s' hcode hs hbound c a rest scope w hinside hreturns ha hscope
  obtain ⟨v, code₁, s₁, returns₂, code₂, s₂, hv, htype, ht, rfl, rfl, rfl⟩ := emitIfThen_eq_some hcode
  obtain ⟨h₁, -⟩ := emitExpression_emitted signatures condition hv
  have h₂ := emitBlock_emitted hemits ht
  have hplaced := h₁.placed hs
  let last := .label (.ifEnd (s₁.label + 2)) :: rest
  let thenPart := withoutFrame code₂ ++
    ((if returns₂ then [] else [.jump (.ifEnd (s₁.label + 2))]) ++ last)
  have hsplit : withoutFrame (code₁ ++ ifThenCode s₁.label v.operand returns₂ code₂) ++ rest =
      withoutFrame code₁ ++ .branch v.operand (.ifThen s₁.label) (.ifEnd (s₁.label + 2)) ::
        .label (.ifThen s₁.label) :: thenPart := by
    cases returns₂ <;> simp [ifThenCode, last, thenPart, LlvmInstruction.needsFrame]
  rw [hsplit] at ha ⊢
  refine .fuelled (condition_meets hcalls hv htype hinside ha hscope) fun value w t ht => ?_
  obtain ⟨a₁, rfl, hsame₁, hat₁, hscope₁, hvalue⟩ := ht
  have hthen : .label (.ifThen s₁.label) :: thenPart <:+ a₁.body := hat₁.tail.suffix
  have hlast : last <:+ a₁.body :=
    (List.suffix_append _ _).trans ((List.suffix_append (withoutFrame code₂) _).trans
      ((List.suffix_cons _ _).trans hthen))
  cases value with
  | false =>
    refine .step (branch_step hat₁ hvalue hlast) (.done ⟨rfl, _, rfl, hsame₁.enter _,
      hat₁.enter hlast, ?_⟩)
    exact (h₂.locals.trans h₁.locals).symm ▸ hscope₁.enter _
  | true =>
    have hblock := emitBlock_meets hmeets ht ⟨hplaced.first, hplaced.nodup, hplaced.below⟩ hbound
      (hinside.sameFunction (hsame₁.enter (.ifThen s₁.label))) hreturns (hat₁.enter hthen)
      (h₁.locals ▸ hscope₁.enter _) (w := w)
    refine .step (branch_step hat₁ hvalue hthen) (hblock.reaches fun flow w t ht => ?_)
    exact (ht.after (hsame₁.enter _)).jump fun _ => ⟨rfl, hsame₁.body ▸ hlast, rfl, rfl⟩

theorem emitIfElse_meets (hcalls : MeetsCalls p h n active signatures call) {condition : Expression}
    {thenBlock elseBlock : List Statement}
    (hmeets : MeetsStatement p h n active f first bound
      (emitStatements signatures f false false thenBlock)
      fun scope => evalStatements h call n scope thenBlock)
    (hmeets' : MeetsStatement p h n active f first bound
      (emitStatements signatures f false false elseBlock)
      fun scope => evalStatements h call n scope elseBlock)
    (hemits : EmitsStatement true (emitStatements signatures f false false thenBlock))
    (hemits' : EmitsStatement true (emitStatements signatures f false false elseBlock)) :
    MeetsStatement p h n active f first bound
      (emitStatement signatures f (.ifElse condition thenBlock elseBlock))
      fun scope => evalStatement h call n scope (.ifElse condition thenBlock elseBlock) := by
  intro s returns code s' hcode hs hbound c a rest scope w hinside hreturns ha hscope
  obtain ⟨v, code₁, s₁, returns₂, code₂, s₂, returns₃, code₃, s₃, hv, htype, ht, he, hreturns', hs',
    rfl⟩ := emitIfElse_eq_some hcode
  obtain ⟨h₁, -⟩ := emitExpression_emitted signatures condition hv
  have h₂ := emitBlock_emitted hemits ht
  have h₃ := emitBlock_emitted hemits' he
  have hplaced := h₁.placed hs
  have hplaced₁ :
      ({ s₁ with label := s₁.label + 3, block := .ifThen s₁.label } : EmitState).Placed first :=
    ⟨hplaced.first, hplaced.nodup, hplaced.below⟩
  have hplaced₂ := h₂.placed hplaced₁
  have hbound₃ : s₃.nextLocal ≤ bound := by
    rw [hs'] at hbound
    split at hbound <;> exact hbound
  -- What stands behind the code, in front of the other branch, and in front of this one.
  let last := (if returns₂ && returns₃ then [] else [.label (.ifEnd (s₁.label + 2))]) ++ rest
  let elsePart := withoutFrame code₃ ++
    ((if returns₃ then [] else [.jump (.ifEnd (s₁.label + 2))]) ++ last)
  let thenPart := withoutFrame code₂ ++
    ((if returns₂ then [] else [.jump (.ifEnd (s₁.label + 2))]) ++
      .label (.ifElse (s₁.label + 1)) :: elsePart)
  have hsplit : withoutFrame (code₁ ++
      ifElseCode s₁.label v.operand returns₂ code₂ returns₃ code₃) ++ rest =
      withoutFrame code₁ ++ .branch v.operand (.ifThen s₁.label) (.ifElse (s₁.label + 1)) ::
        .label (.ifThen s₁.label) :: thenPart := by
    cases returns₂ <;> cases returns₃ <;>
      simp [ifElseCode, last, elsePart, thenPart, LlvmInstruction.needsFrame]
  rw [hsplit] at ha ⊢
  refine .fuelled (condition_meets hcalls hv htype hinside ha hscope) fun value w t ht => ?_
  obtain ⟨a₁, rfl, hsame₁, hat₁, hscope₁, hvalue⟩ := ht
  have hthen : .label (.ifThen s₁.label) :: thenPart <:+ a₁.body := hat₁.tail.suffix
  have helse : .label (.ifElse (s₁.label + 1)) :: elsePart <:+ a₁.body :=
    (List.suffix_append _ _).trans ((List.suffix_append (withoutFrame code₂) _).trans
      ((List.suffix_cons _ _).trans hthen))
  have hlast : last <:+ a.body := hsame₁.body ▸ (List.suffix_append _ _).trans
    ((List.suffix_append (withoutFrame code₃) _).trans ((List.suffix_cons _ _).trans helse))
  -- A branch that goes on jumps to the end.
  have hend : (returns₂ && returns₃) = false → returns = false ∧
      .label (.ifEnd (s₁.label + 2)) :: rest <:+ a.body ∧ s'.locals = s₃.locals ∧
      s'.block = .ifEnd (s₁.label + 2) := by
    intro hboth
    rw [hboth] at hreturns'
    subst hreturns'
    refine ⟨rfl, ?_, by rw [hs']; rfl, by rw [hs']; rfl⟩
    simpa [last, hboth] using hlast
  cases value with
  | true =>
    have hblock := emitBlock_meets hmeets ht hplaced₁ (le_trans h₃.nextLocal hbound₃)
      (hinside.sameFunction (hsame₁.enter (.ifThen s₁.label))) hreturns (hat₁.enter hthen)
      (h₁.locals ▸ hscope₁.enter _) (w := w)
    refine .step (branch_step hat₁ hvalue hthen) (hblock.reaches fun flow w t ht => ?_)
    refine (ht.after (hsame₁.enter _)).jump fun hreturns₂ => ?_
    obtain ⟨hreturns', hsuffix, hlocals, hblock'⟩ := hend (by simp [hreturns₂])
    exact ⟨hreturns', hsuffix, hlocals.trans h₃.locals, hblock'⟩
  | false =>
    have hblock := emitBlock_meets hmeets' he ⟨hplaced₂.first, hplaced₂.nodup, hplaced₂.below⟩ hbound₃
      (hinside.sameFunction (hsame₁.enter (.ifElse (s₁.label + 1)))) hreturns (hat₁.enter helse)
      ((h₂.locals.trans h₁.locals).symm ▸ hscope₁.enter _) (w := w)
    refine .step (branch_step hat₁ hvalue helse) (hblock.reaches fun flow w t ht => ?_)
    exact (ht.after (hsame₁.enter _)).jump fun hreturns₃ => hend (by simp [hreturns₃])

theorem emitWhileLoop_meets (hcalls : MeetsCalls p h n active signatures call) {condition : Expression}
    {body : List Statement}
    (hmeets : MeetsStatement p h n active f first bound (emitStatements signatures f false false body)
      fun scope => evalStatements h call n scope body)
    (hemits : EmitsStatement true (emitStatements signatures f false false body)) :
    MeetsStatement p h n active f first bound
      (emitStatement signatures f (.whileLoop condition body))
      fun scope => evalStatement h call n scope (.whileLoop condition body) := by
  intro s returns code s' hcode hs hbound c a rest scope w hinside hreturns ha hscope
  obtain ⟨v, code₁, s₁, returns₂, code₂, s₂, hv, htype, hb, rfl, rfl, rfl⟩ :=
    emitWhileLoop_eq_some hcode
  obtain ⟨h₁, -⟩ := emitExpression_emitted signatures condition hv
  have h₂ := emitBlock_emitted hemits hb
  have hplaced := h₁.placed ⟨hs.first, hs.nodup, hs.below⟩
  -- What stands behind the loop, behind its condition, and behind the first jump.
  let last := .label (.whileEnd (s.label + 2)) :: rest
  let bodyPart := withoutFrame code₂ ++
    ((if returns₂ then [] else [.jump (.whileCondition s.label)]) ++ last)
  let conditionPart := withoutFrame code₁ ++ .branch v.operand (.whileBody (s.label + 1))
    (.whileEnd (s.label + 2)) :: .label (.whileBody (s.label + 1)) :: bodyPart
  have hsplit : withoutFrame (whileCode s.label code₁ v.operand returns₂ code₂) ++ rest =
      .jump (.whileCondition s.label) :: .label (.whileCondition s.label) :: conditionPart := by
    cases returns₂ <;> simp [whileCode, last, bodyPart, conditionPart, LlvmInstruction.needsFrame]
  rw [hsplit] at ha ⊢
  have hbegin : .label (.whileCondition s.label) :: conditionPart <:+ a.body := ha.tail.suffix
  have hlocals : s₂.locals = s.locals := h₂.locals.trans h₁.locals
  -- The loop with less fuel, from its condition on.
  have hloop : ∀ k, k ≤ n → ∀ (a' : Activation) (scope : ScalarScope) (w : List ScalarValue),
      a.SameFunction a' → a'.At (.whileCondition s.label) conditionPart →
      Environment first bound s.locals scope a' →
      (evalLoop (fun scope => evalBoolean (evalExpression h call scope condition))
        (fun scope => do return (← evalStatements h call n scope body).close scope) k scope w).Meets
        (llvmStep p h) k llvmEndings
        (Flows f first bound c a { s₂ with block := .whileEnd (s.label + 2) } false rest)
        (c.running a' conditionPart w) := by
    intro k
    induction k with
    | zero => exact fun _ _ _ _ _ _ _ => trivial
    | succ k ih =>
      intro hk a' scope w hsame hat hscope
      refine .fuelled ((condition_meets hcalls hv htype (hinside.sameFunction hsame) hat hscope).mono hk
        fun _ _ _ ht => ht) fun value w t ht => ?_
      obtain ⟨a₁, rfl, hsame₁, hat₁, hscope₁, hvalue⟩ := ht
      have hbody : .label (.whileBody (s.label + 1)) :: bodyPart <:+ a₁.body := hat₁.tail.suffix
      have hlast : last <:+ a₁.body := (List.suffix_append _ _).trans
        ((List.suffix_append (withoutFrame code₂) _).trans ((List.suffix_cons _ _).trans hbody))
      have hsame' : a.SameFunction a₁ := hsame.trans hsame₁
      cases value with
      | false =>
        refine .step (branch_step hat₁ hvalue hlast) (.done ⟨rfl, _, rfl, hsame'.enter _,
          hat₁.enter hlast, ?_⟩)
        exact hlocals ▸ hscope₁.enter _
      | true =>
        have hblock := emitBlock_meets hmeets hb ⟨hplaced.first, hplaced.nodup, hplaced.below⟩ hbound
          (hinside.sameFunction (hsame'.enter (.whileBody (s.label + 1)))) hreturns
          (hat₁.enter hbody) (h₁.locals ▸ hscope₁.enter _) (w := w)
        refine .step (branch_step hat₁ hvalue hbody) (.fuelled (hblock.mono hk fun _ _ _ ht => ht)
          fun flow w t ht => ?_)
        cases flow with
        | returned value => exact .done ht
        | next scope' =>
          obtain ⟨rfl, a₂, rfl, hsame₂, hat₂, hscope₂⟩ := ht
          have hsame'' : a.SameFunction a₂ := (hsame'.enter _).trans hsame₂
          have hback : .label (.whileCondition s.label) :: conditionPart <:+ a₂.body :=
            hsame''.body ▸ hbegin
          exact .step_succ (jump_step hat₂ hback) (ih (Nat.le_of_succ_le hk) _ scope' w
            (hsame''.enter _) (hat₂.enter hback) (hlocals ▸ hscope₂.enter _))
  exact .step (jump_step ha hbegin)
    (hloop n (Nat.le_refl n) _ scope w ⟨rfl, rfl⟩ (ha.enter hbegin) (hscope.enter _))

mutual

/-- The code of a statement meets what it does. -/
theorem emitStatement_meets (hcalls : MeetsCalls p h n active signatures call) (first bound : ℕ) :
    ∀ statement : Statement,
      MeetsStatement p h n active f first bound (emitStatement signatures f statement)
        fun scope => evalStatement h call n scope statement
  | .letLocal name declaredType value => by
    intro s returns code s' hcode hs hbound c a rest scope w hinside hreturns ha hscope
    simp [emitStatement] at hcode
    obtain ⟨v, code₁, s₁, hv, ⟨-, htypes, rfl, rfl⟩, rfl⟩ := hcode
    obtain ⟨h₁, -⟩ := emitExpression_emitted signatures _ hv
    have hplaced := h₁.placed hs
    rw [withoutFrame_append, List.append_assoc] at ha ⊢
    refine .fuelled (emitExpression_meets hcalls value hv hinside ha hscope.values)
      fun x w t ht => ?_
    obtain ⟨a₁, rfl, hkeeps, hat, hx⟩ := ht
    obtain ⟨x, rfl, hxtype, hx⟩ := hx.exists_value htypes.1
    have hscope₁ := hscope.keeps hkeeps
    have hcell := hscope₁.allocated _ hplaced.first hbound
    refine .step (store_step hx hcell (hxtype ▸ x.hasType_llvm))
      (.done ⟨rfl, _, rfl, ⟨hkeeps.function, hkeeps.body⟩, hat.setCell _ _, ?_⟩)
    have hnew : s₁.nextLocal ∉ localCells s.locals := by
      rw [← h₁.locals]
      exact fun hmem => Nat.lt_irrefl _ (hplaced.below _ hmem)
    rw [← hxtype, h₁.locals]
    exact hscope₁.letLocal hnew name x
  | .assign name value => by
    intro s returns code s' hcode hs hbound c a rest scope w hinside hreturns ha hscope
    simp [emitStatement] at hcode
    obtain ⟨binding, hfind, v, code₁, s₁, code₂, ⟨hv, htype, hcode⟩, rfl⟩ := hcode
    obtain ⟨h₁, -⟩ := emitExpression_emitted signatures _ hv
    cases hplace : binding.place with
    | argument number => simp [hplace] at hcode
    | cell number =>
      simp [hplace] at hcode
      obtain ⟨⟨rfl, rfl⟩, rfl⟩ := hcode
      rw [withoutFrame_append, List.append_assoc] at ha ⊢
      refine .fuelled (emitExpression_meets hcalls value hv hinside ha hscope.values)
        fun x w t ht => ?_
      obtain ⟨a₁, rfl, hkeeps, hat, hx⟩ := ht
      have hscope₁ := hscope.keeps hkeeps
      obtain ⟨entry, -, hholds⟩ := hscope₁.values.lookup hfind
      have hentry := hholds.place
      have hbound' := hholds.type ▸ entry.2.type_lt
      rw [hplace] at hentry
      obtain ⟨x, rfl, hxtype, hx⟩ := hx.exists_value (by omega)
      obtain ⟨scope', hassign, hscope'⟩ := hscope₁.assign hs.nodup hfind hplace (hxtype.trans htype)
      change Outcome.Meets _ _ _ _ ((Fuelled.ofOption (ScalarScope.assign name x scope) >>=
        fun scope => pure (.next scope) : ScalarRun Flow) w) _
      rw [hassign]
      exact .step (store_step hx (Option.isSome_of_mem hentry) (hxtype ▸ x.hasType_llvm))
        (.done ⟨rfl, _, rfl, ⟨hkeeps.function, hkeeps.body⟩, hat.setCell _ _, h₁.locals ▸ hscope'⟩)
  | .ifThen condition thenBlock =>
    emitIfThen_meets hcalls (emitStatements_meets hcalls first bound thenBlock)
      (emitStatements_emitted _ _ thenBlock (by simp))
  | .ifElse condition thenBlock elseBlock =>
    emitIfElse_meets hcalls (emitStatements_meets hcalls first bound thenBlock)
      (emitStatements_meets hcalls first bound elseBlock)
      (emitStatements_emitted _ _ thenBlock (by simp)) (emitStatements_emitted _ _ elseBlock (by simp))
  | .whileLoop condition body =>
    emitWhileLoop_meets hcalls (emitStatements_meets hcalls first bound body)
      (emitStatements_emitted _ _ body (by simp))
  | .returnValue none => by
    intro s returns code s' hcode hs hbound c a rest scope w hinside hreturns ha hscope
    simp [emitStatement] at hcode
    obtain ⟨htop, ⟨u, hcode⟩, rfl⟩ := hcode
    have hvoid : (⟨.empty, 5⟩ : EmittedValue).Is none a := rfl
    exact emitReturn_reaches hinside hreturns htop hvoid hcode
  | .returnValue (some value) => by
    intro s returns code s' hcode hs hbound c a rest scope w hinside hreturns ha hscope
    simp [emitStatement] at hcode
    obtain ⟨htop, v, code₁, s₁, code₂, ⟨hv, ⟨u, hcode⟩, rfl⟩, rfl⟩ := hcode
    rw [withoutFrame_append, List.append_assoc] at ha ⊢
    refine .fuelled (emitExpression_meets hcalls value hv hinside ha hscope.values)
      fun x w t ht => ?_
    obtain ⟨a₁, rfl, hkeeps, hat, hx⟩ := ht
    exact emitReturn_reaches (hinside.keeps hkeeps) hreturns htop hx hcode
  | .expression value => by
    intro s returns code s' hcode hs hbound c a rest scope w hinside hreturns ha hscope
    simp [emitStatement] at hcode
    obtain ⟨v, code₁, s₁, hv, code₂, hcode, rfl⟩ := hcode
    obtain ⟨h₁, -⟩ := emitExpression_emitted signatures _ hv
    rw [withoutFrame_append, List.append_assoc] at ha ⊢
    refine .fuelled (emitExpression_meets hcalls value hv hinside ha hscope.values)
      fun x w t ht => ?_
    obtain ⟨a₁, rfl, hkeeps, hat, hx⟩ := ht
    -- An expression that ends the program has no value.
    have hends : v.type ≠ 6 := by
      intro hends
      obtain ⟨x, -, hxtype, -⟩ := hx.exists_value (by omega)
      have := x.type_lt
      omega
    rw [if_neg hends] at hcode
    simp at hcode
    obtain ⟨rfl, rfl, rfl⟩ := hcode
    exact .done ⟨rfl, a₁, rfl, hkeeps.sameFunction, hat, h₁.locals ▸ hscope.keeps hkeeps⟩

/-- The code of the statements of a block meets what they do: behind one that returns the evaluation
does not go on. -/
theorem emitStatements_meets (hcalls : MeetsCalls p h n active signatures call) (first bound : ℕ) :
    ∀ statements : List Statement,
      MeetsStatement p h n active f first bound (emitStatements signatures f false false statements)
        fun scope => evalStatements h call n scope statements
  | [] => by
    intro s returns code s' hcode hs hbound c a rest scope w hinside hreturns ha hscope
    simp [emitStatements] at hcode
    obtain ⟨rfl, rfl, rfl⟩ := hcode
    exact .done ⟨rfl, a, rfl, ⟨rfl, rfl⟩, ha, hscope⟩
  | statement :: statements => by
    intro s returns code s' hcode hs hbound c a rest scope w hinside hreturns ha hscope
    simp [emitStatements, emitDead, -Bool.exists_bool] at hcode
    obtain ⟨terminated, code₁, s₁, code₂, ⟨hstatement, hcode⟩, rfl⟩ := hcode
    have h₁ := emitStatement_emitted signatures f statement hstatement
    have h₂ := emitStatements_emitted signatures f statements (by simp) hcode
    rw [withoutFrame_append, List.append_assoc] at ha ⊢
    refine .fuelled (emitStatement_meets hcalls first bound statement hstatement hs
      (h₂.nextLocal.trans hbound) hinside hreturns ha hscope) fun flow w t ht => ?_
    cases flow with
    | next scope' =>
      obtain ⟨rfl, a₁, rfl, hsame, hat, hscope₁⟩ := ht
      exact (emitStatements_meets hcalls first bound statements hcode (h₁.placed hs) hbound
        (hinside.sameFunction hsame) hreturns hat hscope₁).imp fun _ _ _ ht => ht.after hsame
    | returned value => exact .done ht

end

end

end Minyar

import Minyar.Compiler.ScalarStatements

/-!
# Compiled programs do what their sources do

The entry of a function enters the stack, allocates the locals and stores the parameters that are
assigned; then the bindings of its parameters have the values of the arguments, and its code meets the
evaluation of its body.  By induction on the fuel every call meets its evaluation, and so does the
program: the machine halts exactly if the evaluation ends with some fuel, with the same status or
message and the same values printed.
-/

namespace Minyar

open StateTransition

/-! ## The entry of a function -/

/-- What the entry of a function leaves alone. -/
structure Activation.Enters (a a' : Activation) : Prop extends a.SameFunction a' where
  block : a'.block = a.block
  registers : a'.registers = a.registers
  allocated : ∀ n, (a.cells n).isSome → (a'.cells n).isSome

namespace Activation.Enters

variable {a a' a'' : Activation}

theorem refl (a : Activation) : a.Enters a := ⟨⟨rfl, rfl⟩, rfl, rfl, fun _ hn => hn⟩

theorem trans (h : a.Enters a') (h' : a'.Enters a'') : a.Enters a'' :=
  ⟨h.toSameFunction.trans h'.toSameFunction, h'.block.trans h.block, h'.registers.trans h.registers,
    fun n hn => h'.allocated n (h.allocated n hn)⟩

theorem setCell (a : Activation) (cell : ℕ) (v : Option LlvmValue) : a.Enters (a.setCell cell v) :=
  ⟨⟨rfl, rfl⟩, rfl, rfl, fun _ hn => isSome_setCell hn cell v⟩

end Activation.Enters

section

variable {p : List LlvmFunction} {h : Host} {c : LlvmConfig} (code : List LlvmInstruction)
  {w : List ScalarValue}

/-- The locals of a function are allocated one after the other. -/
theorem allocate_reaches (count first : ℕ) (a : Activation) : ∃ a',
    Reaches (llvmStep p h) (c.running a
      (((List.range' first count).map fun number => .allocate number 1) ++ code) w)
      (c.running a' code w) ∧ a.Enters a' ∧
    ∀ n, first ≤ n → n < first + count → (a'.cells n).isSome := by
  induction count generalizing first a with
  | zero => exact ⟨a, .refl, .refl a, by omega⟩
  | succ count ih =>
    obtain ⟨a', hreaches, henters, hallocated⟩ := ih (first + 1) (a.setCell first none)
    refine ⟨a', .head rfl hreaches, (Activation.Enters.setCell a first none).trans henters,
      fun n hfirst hbound => ?_⟩
    by_cases hn : n = first
    · subst hn
      exact henters.allocated n (by rw [Activation.cells_setCell_self, Option.isSome_some])
    · exact hallocated n (by omega) (by omega)

/-- The code of one parameter in the entry. -/
def parameterCode (marks : List Bool) (parameter : (String × ℕ) × ℕ) : List LlvmInstruction :=
  if marks.getD parameter.2 true then
    [.allocate parameter.2 parameter.1.2,
      .store parameter.1.2 (.register (.argument parameter.2)) parameter.2]
  else []

/-- The locals of the parameters that are assigned get the arguments. -/
theorem parameterCells_reaches (marks : List Bool) {parameters : List ((String × ℕ) × ℕ)}
    (hnodup : (parameters.map Prod.snd).Nodup) (a : Activation)
    (hvalues : ∀ parameter ∈ parameters, ∃ v, a.registers (.argument parameter.2) = some v ∧
      v.hasType parameter.1.2) : ∃ a',
    Reaches (llvmStep p h) (c.running a ((parameters.map (parameterCode marks)).flatten ++ code) w)
      (c.running a' code w) ∧ a.Enters a' ∧
    (∀ parameter ∈ parameters, marks.getD parameter.2 true = true →
      a'.cells parameter.2 = some (a.registers (.argument parameter.2))) ∧
    ∀ n ∉ parameters.map Prod.snd, a'.cells n = a.cells n := by
  induction parameters generalizing a with
  | nil => exact ⟨a, .refl, .refl a, by simp, fun _ _ => rfl⟩
  | cons parameter parameters ih =>
    obtain ⟨⟨v, hv, hvtype⟩, hvalues⟩ := List.forall_mem_cons.mp hvalues
    rw [List.map_cons, List.nodup_cons] at hnodup
    obtain ⟨hnew, hnodup⟩ := hnodup
    by_cases hmark : marks.getD parameter.2 true = true
    · let a₀ := a.setCell parameter.2 none
      let a₁ := a₀.setCell parameter.2 (some v)
      have hv₀ : a₀.operand (.register (.argument parameter.2)) = some v := hv
      have hcell₀ : (a₀.cells parameter.2).isSome := by
        rw [Activation.cells_setCell_self, Option.isSome_some]
      have henters₁ : a.Enters a₁ := (Activation.Enters.setCell a _ _).trans (.setCell _ _ _)
      obtain ⟨a', hreaches, henters, hcells, hrest⟩ := ih hnodup a₁ hvalues
      refine ⟨a', ?_, henters₁.trans henters, ?_, ?_⟩
      · rw [List.map_cons, List.flatten_cons, parameterCode, if_pos hmark]
        exact .head rfl (.head (store_step hv₀ hcell₀ hvtype) hreaches)
      · refine List.forall_mem_cons.mpr ⟨fun _ => ?_, hcells⟩
        rw [hrest _ hnew, hv]
        exact Activation.cells_setCell_self ..
      · intro n hn
        rw [List.map_cons, List.mem_cons, not_or] at hn
        rw [hrest n hn.2]
        exact (Activation.cells_setCell_of_ne _ hn.1 _).trans (Activation.cells_setCell_of_ne _ hn.1 _)
    · obtain ⟨a', hreaches, henters, hcells, hrest⟩ := ih hnodup a hvalues
      refine ⟨a', ?_, henters, List.forall_mem_cons.mpr ⟨fun hmark' => absurd hmark' hmark, hcells⟩, ?_⟩
      · rwa [List.map_cons, List.flatten_cons, parameterCode, if_neg hmark]
      · intro n hn
        rw [List.map_cons, List.mem_cons, not_or] at hn
        exact hrest n hn.2

end

/-- The bindings of the parameters have the arguments. -/
theorem matches_parameterBindings {header : FunctionHeader} {marks : List Bool}
    {values : List ScalarValue} {a : Activation}
    (htypes : values.map ScalarValue.type = header.parameters.map Prod.snd)
    (hregisters : ∀ (i : ℕ) (x : ScalarValue), values[i]? = some x →
      a.registers (.argument i) = some x.llvm)
    (hcells : ∀ parameter ∈ header.parameters.zipIdx, marks.getD parameter.2 true = true →
      a.cells parameter.2 = some (a.registers (.argument parameter.2))) :
    Matches (parameterBindings header marks)
      ((header.parameters.map Prod.fst).zip values).reverse a := by
  have hlength : values.length = header.parameters.length := by
    simpa using congrArg List.length htypes
  rw [Matches, parameterBindings, List.forall₂_reverse_iff, List.forall₂_iff_get]
  refine ⟨by simp [hlength], fun i hi hi' => ?_⟩
  have hparameter : i < header.parameters.length := by simpa using hi
  have hvalue : i < values.length := hlength ▸ hparameter
  have htype : values[i].type = header.parameters[i].2 := by
    have := congrArg (fun types : List ℕ => types[i]?) htypes
    simpa [hvalue, hparameter] using this
  have hregister := hregisters i values[i] (List.getElem?_eq_getElem hvalue)
  refine ⟨by simp, by simpa using htype, ?_⟩
  simp only [List.get_eq_getElem, List.getElem_map, List.getElem_zipIdx, List.getElem_zip, Nat.zero_add]
  split_ifs with hmark
  · have hcell := hcells (header.parameters[i], i)
      (List.mem_zipIdx_iff_getElem?.mpr (by simp [hparameter])) hmark
    rw [hregister] at hcell
    exact hcell
  · exact hregister

theorem nodup_zipIdx {α : Type} (l : List α) : (l.zipIdx.map Prod.snd).Nodup := by
  rw [List.zipIdx_map_snd]
  exact List.nodup_range'

/-- The bindings of the parameters have different locals. -/
theorem placed_bodyState (h : FunctionHeader) (marks : List Bool) :
    (bodyState h marks).Placed h.parameters.length := by
  have hcells : localCells (bodyState h marks).locals =
      (h.parameters.zipIdx.filterMap fun parameter =>
        if marks.getD parameter.2 true then some parameter.2 else none).reverse := by
    simp only [bodyState, localCells, parameterBindings, List.filterMap_reverse,
      List.filterMap_map]
    congr 2
    funext parameter
    simp only [Function.comp_apply, ScalarBinding.cell]
    split_ifs <;> rfl
  refine ⟨Nat.le_refl _, ?_, fun n hn => ?_⟩
  · rw [hcells, List.nodup_reverse, List.Nodup, List.pairwise_filterMap]
    refine (List.pairwise_map.mp (nodup_zipIdx h.parameters)).imp fun hne n hn m hm => ?_
    rw [Option.ite_none_right_eq_some] at hn hm
    cases hn.2
    cases hm.2
    exact hne
  · rw [hcells, List.mem_reverse, List.mem_filterMap] at hn
    obtain ⟨parameter, hparameter, hn⟩ := hn
    rw [Option.ite_none_right_eq_some] at hn
    cases hn.2
    exact (List.getElem?_eq_some_iff.mp (List.mem_zipIdx_iff_getElem?.mp hparameter)).1

theorem withoutFrame_parameterCells (h : FunctionHeader) (marks : List Bool) :
    withoutFrame (parameterCells h marks) = parameterCells h marks := by
  refine List.filter_eq_self.mpr fun i hi => ?_
  simp only [parameterCells, List.mem_flatten, List.mem_map] at hi
  obtain ⟨_, ⟨parameter, -, rfl⟩, hi⟩ := hi
  split at hi <;> simp at hi
  rcases hi with rfl | rfl <;> rfl

/-! ## Bodies of functions -/

section

variable {p : List LlvmFunction} {h : Host} {n : ℕ} {active : List String} {f : FunctionContext}
  {first bound : ℕ} {c : LlvmConfig} {a : Activation} {code : List LlvmInstruction}
  {w : List ScalarValue} {call : ScalarCall}

/-- The start of a function, when there is room for it. -/
theorem activate_meets {scope : ScalarScope} {statements : List Statement}
    {post : Flow → List ScalarValue → LlvmState → Prop}
    (hactive : a.function :: c.callers.map (fun caller => caller.2.function) = active)
    (hroom : (evalStatements h call n scope statements w).Meets (llvmStep p h) n llvmEndings post
      (({ c with depth := c.depth + 1 } : LlvmConfig).running a code w)) :
    (ScalarProgram.activate h call n active scope statements w).Meets (llvmStep p h) n llvmEndings post
      (c.running a (.stackEnter :: code) w) := by
  have hstep : llvmStep p h (c.running a (.stackEnter :: code) w) =
      if h.room active then some (({ c with depth := c.depth + 1 } : LlvmConfig).running a code w)
      else some (.stopped depthStop w) := by
    rw [← hactive]
    rfl
  rw [ScalarProgram.activate]
  split_ifs at hstep ⊢ with hroom'
  · exact .step hstep hroom
  · exact .single hstep

/-- The machine is where a flow goes at the end of a body: in front of the last instruction of the
function, or behind its call. -/
def Finishes (f : FunctionContext) (c : LlvmConfig) (returns : Bool) (last : LlvmInstruction)
    (flow : Flow) (w : List ScalarValue) (t : LlvmState) : Prop :=
  match flow with
  | .next _ => returns = false ∧ ∃ a, t = c.running a [last] w
  | .returned value => c.Returned f value w t

/-- The code of a function meets the evaluation of its body, when its entry leads to a state in which
the bindings of the parameters have the arguments. -/
theorem finishScalarFunction_meets (entry : List LlvmInstruction) (last : LlvmInstruction)
    {returns : Bool} {s₀ s : EmitState} {scope : ScalarScope} {statements : List Statement}
    {y : Emit Bool} (hmeets : MeetsStatement p h n active f first s.nextLocal y
      fun scope => evalStatements h call n scope statements)
    (hcode : y s₀ = some (returns, code, s)) (hplaced : s₀.Placed first) (hblock : s₀.block = .entry)
    (hbody : a.body = finishScalarFunction first s.nextLocal
      (entry ++ code ++ if returns then [] else [.rcLeave, .stackLeave, last]))
    (hwell : WellFormedCode a.body) (ha : a.block = .entry)
    (hactive : a.function :: c.callers.map (fun caller => caller.2.function) = active)
    (hdepth : c.depth = c.callers.length) (hreturns : c.Returns f)
    (hlast : last.needsFrame = false)
    (hentry : ∀ (c : LlvmConfig) (a₁ : Activation) (code : List LlvmInstruction), a.Enters a₁ → ∃ a₂,
      Reaches (llvmStep p h) (c.running a₁ (withoutFrame entry ++ code) w) (c.running a₂ code w) ∧
        a₁.Enters a₂ ∧ Matches s₀.locals scope a₂) :
    (ScalarProgram.activate h call n active scope statements w).Meets (llvmStep p h) n llvmEndings
      (Finishes f c returns last) (c.running a a.body w) := by
  let c₁ : LlvmConfig := { c with depth := c.depth + 1 }
  let ending : List LlvmInstruction := if returns then [] else [.stackLeave, last]
  have hending : withoutFrame (if returns then [] else [.rcLeave, .stackLeave, last]) = ending := by
    cases returns with
    | true => rfl
    | false => simp only [ending, Bool.false_eq_true, if_false, withoutFrame_cons, hlast]; rfl
  have hsplit : a.body = .stackEnter ::
      (((List.range' first (s.nextLocal - first)).map fun number => .allocate number 1) ++
        (withoutFrame entry ++ (withoutFrame code ++ ending))) := by
    rw [hbody, finishScalarFunction, withoutFrame_append, withoutFrame_append, hending,
      List.append_assoc, List.cons_append]
  obtain ⟨a₁, hreaches₁, henters₁, hallocated⟩ := allocate_reaches (p := p) (h := h) (c := c₁) (w := w)
    (withoutFrame entry ++ (withoutFrame code ++ ending)) (s.nextLocal - first) first a
  obtain ⟨a₂, hreaches₂, henters₂, hmatches⟩ := hentry c₁ a₁ (withoutFrame code ++ ending) henters₁
  have henters := henters₁.trans henters₂
  have hat : a₂.At s₀.block (withoutFrame code ++ ending) := by
    have hlabels := hwell.labels
    rw [← henters.body] at hlabels hsplit
    refine ⟨henters.block.trans (ha.trans hblock.symm), ?_, (List.nodup_cons.mp hlabels).2, ?_⟩
    · rw [hsplit]
      exact (List.suffix_append _ _).trans ((List.suffix_append _ _).trans (List.suffix_cons _ _))
    · rw [hblock]
      refine fun hmem => (List.nodup_cons.mp hlabels).1 ?_
      rw [hsplit]
      simp only [codeLabels_cons, codeLabels_append, List.mem_append]
      exact .inr (.inr (.inr (by simpa using hmem)))
  have hscope : Environment first s.nextLocal s₀.locals scope a₂ :=
    ⟨hmatches, fun m hfirst hbound => henters₂.allocated m (hallocated m hfirst (by omega))⟩
  have hinside : c₁.Inside active a₂ :=
    ⟨henters.function ▸ hactive, congrArg (· + 1) hdepth⟩
  rw [hsplit]
  refine activate_meets hactive (.of_reaches (hreaches₁.trans hreaches₂) ?_)
  refine (hmeets hcode hplaced (Nat.le_refl _) hinside ⟨hreturns.main, hreturns.other⟩ hat
    hscope).reaches fun flow w t ht => ?_
  cases flow with
  | returned value => exact ⟨t, .refl, ht⟩
  | next scope' =>
    obtain ⟨rfl, a₃, rfl, hsame, -, -⟩ := ht
    have hsame' : ({ c with depth := c.callers.length } : LlvmConfig) = c := by rw [← hdepth]
    exact ⟨_, .single (stackLeave_step (hinside.sameFunction hsame)), rfl, a₃,
      congrArg (fun c => LlvmConfig.running c a₃ [last] w) hsame'⟩

/-- The code of the statements outside of functions meets what they do. -/
theorem emitTopLevel_meets (f : FunctionContext) (first bound : ℕ) {signatures : List Signature}
    (hcalls : MeetsCalls p h n active signatures call) (statements : List Statement) :
    MeetsStatement p h n active f first bound (emitTopLevel signatures f false statements)
      fun scope => evalStatements h call n scope statements := by
  induction statements with
  | nil =>
    intro s returns code s' hcode hs hbound c a rest scope w hinside hreturns ha hscope
    simp [emitTopLevel] at hcode
    obtain ⟨rfl, rfl, rfl⟩ := hcode
    exact .done ⟨rfl, a, rfl, ⟨rfl, rfl⟩, ha, hscope⟩
  | cons statement statements ih =>
    intro s returns code s' hcode hs hbound c a rest scope w hinside hreturns ha hscope
    simp [emitTopLevel, emitDead, -Bool.exists_bool] at hcode
    obtain ⟨terminated, code₁, s₁, code₂, ⟨hstatement, hcode⟩, rfl⟩ := hcode
    have h₁ := emitStatement_emitted signatures f statement hstatement
    have h₂ := emitTopLevel_emitted signatures f statements terminated hcode
    rw [withoutFrame_append, List.append_assoc] at ha ⊢
    refine .fuelled (emitStatement_meets hcalls first bound statement hstatement hs
      (h₂.nextLocal.trans hbound) hinside hreturns ha hscope) fun flow w t ht => ?_
    cases flow with
    | next scope' =>
      obtain ⟨rfl, a₁, rfl, hsame, hat, hscope₁⟩ := ht
      exact (ih hcode (h₁.placed hs) hbound (hinside.sameFunction hsame) hreturns hat
        hscope₁).imp fun _ _ _ ht => ht.after hsame
    | returned value => exact .done ht

end

/-! ## Calls -/

/-- The functions of a program are compiled one by one. -/
def Compiled (signatures : List Signature) : List ScalarFunction → List LlvmFunction → Prop :=
  List.Forall₂ fun function g => emitFunction signatures function = some g

theorem emitFunction_name {signatures : List Signature} {function : ScalarFunction} {g : LlvmFunction}
    (h : emitFunction signatures function = some g) : g.name = function.header.name := by
  obtain ⟨-, -, returns, code, s, -, -, rfl⟩ := emitFunction_eq_some h
  rfl

namespace Compiled

variable {signatures : List Signature} {sources : List ScalarFunction} {functions : List LlvmFunction}

/-- A function of the source is compiled to the function with its name. -/
theorem find (h : Compiled signatures sources functions) {name : String} {function : ScalarFunction}
    (hfind : sources.find? (fun function => function.header.name = name) = some function) :
    ∃ g, functions.find? (fun g => g.name = name) = some g ∧
      emitFunction signatures function = some g := by
  induction h with
  | nil => cases hfind
  | @cons first g sources functions hfirst _ ih =>
    have hname := emitFunction_name hfirst
    by_cases hmatch : first.header.name = name
    · rw [List.find?_cons_of_pos (by simpa using hmatch)] at hfind
      cases hfind
      exact ⟨g, List.find?_cons_of_pos (by simpa [hname] using hmatch), hfirst⟩
    · rw [List.find?_cons_of_neg (by simpa using hmatch)] at hfind
      rw [List.find?_cons_of_neg (by simpa [hname] using hmatch)]
      exact ih hfind

/-- A name without a function has none in the code. -/
theorem find_none (h : Compiled signatures sources functions) {name : String}
    (hfind : sources.find? (fun function => function.header.name = name) = none) :
    functions.find? (fun g => g.name = name) = none := by
  rw [List.find?_eq_none] at hfind ⊢
  induction h with
  | nil => simp
  | cons hfirst _ ih =>
    obtain ⟨hhead, htail⟩ := List.forall_mem_cons.mp hfind
    exact List.forall_mem_cons.mpr ⟨by simpa [emitFunction_name hfirst] using hhead, ih htail⟩

/-- Every parameter of a function has a value. -/
theorem parameters (h : Compiled signatures sources functions) :
    ∀ function ∈ sources, 5 ∉ function.header.parameters.map Prod.snd := by
  induction h with
  | nil => simp
  | @cons function g sources functions hfirst _ ih =>
    refine List.forall_mem_cons.mpr ⟨fun hmem => ?_, ih⟩
    obtain ⟨parameter, hparameter, htype⟩ := List.mem_map.mp hmem
    have := (emitFunction_eq_some hfirst).2.1 parameter hparameter
    omega

end Compiled

section

variable {p : List LlvmFunction} {h : Host} {n : ℕ} {active : List String} {c : LlvmConfig}
  {a : Activation} {w : List ScalarValue} {call : ScalarCall} {signatures : List Signature}

/-- The last instruction of a function that does not return before. -/
def lastInstruction (isMain : Bool) : LlvmInstruction :=
  if isMain then .retStatus (.constant (.i32 0)) else .retVoid

/-- The code of a function meets the evaluation of its body. -/
theorem emitFunction_meets (hcalls : MeetsCalls p h n active signatures call)
    {function : ScalarFunction} {g : LlvmFunction} (hg : emitFunction signatures function = some g)
    (values : List ScalarValue)
    (htypes : values.map ScalarValue.type = function.header.parameters.map Prod.snd)
    (hbody : a.body = g.code) (hblock : a.block = .entry)
    (hregisters : ∀ (i : ℕ) (x : ScalarValue), values[i]? = some x →
      a.registers (.argument i) = some x.llvm)
    (hactive : a.function :: c.callers.map (fun caller => caller.2.function) = active)
    (hdepth : c.depth = c.callers.length)
    (hreturns : c.Returns ⟨function.header.name, function.header.returnType⟩) :
    ∃ returns : Bool,
      (returns = false → function.header.name = "main" ∨ function.header.returnType = 5) ∧
      (ScalarProgram.activate h call n active
        ((function.header.parameters.map Prod.fst).zip values).reverse function.body w).Meets
        (llvmStep p h) n llvmEndings
        (Finishes ⟨function.header.name, function.header.returnType⟩ c returns
          (lastInstruction (function.header.name = "main"))) (c.running a a.body w) := by
  have hwell := hbody ▸ emitFunction_wellFormed hg
  obtain ⟨-, -, returns, code, s, hcode, hend, rfl⟩ := emitFunction_eq_some hg
  refine ⟨returns, fun hreturns => hend.resolve_left (by simp [hreturns]), ?_⟩
  refine finishScalarFunction_meets
    ((if function.header.name = "main" then [.initializeArguments] else []) ++
      parameterCells function.header function.marks) _
    (emitStatements_meets hcalls _ _ function.body) hcode (placed_bodyState _ _) rfl ?_ hwell hblock
    hactive hdepth hreturns ?_ ?_
  · rw [hbody]
    simp [lastInstruction]
  · unfold lastInstruction
    split <;> rfl
  · intro c a₁ more henters
    have hvalues : ∀ parameter ∈ function.header.parameters.zipIdx,
        ∃ v, a₁.registers (.argument parameter.2) = some v ∧ v.hasType parameter.1.2 := by
      intro parameter hparameter
      have htype := congrArg (fun types : List ℕ => types[parameter.2]?) htypes
      simp only [List.getElem?_map, List.mem_zipIdx_iff_getElem?.mp hparameter, Option.map_some,
        Option.map_eq_some_iff] at htype
      obtain ⟨x, hx, hxtype⟩ := htype
      exact ⟨x.llvm, henters.registers ▸ hregisters _ x hx, hxtype ▸ x.hasType_llvm⟩
    obtain ⟨a₂, hreaches, henters₂, hcells, -⟩ := parameterCells_reaches (p := p) (h := h) (c := c)
      (w := w) more function.marks (nodup_zipIdx function.header.parameters) a₁ hvalues
    have hregisters₂ : a₂.registers = a.registers := henters₂.registers.trans henters.registers
    refine ⟨a₂, ?_, henters₂, matches_parameterBindings htypes ?_ ?_⟩
    · rw [withoutFrame_append, withoutFrame_parameterCells]
      split
      · exact .head rfl hreaches
      · exact hreaches
    · exact hregisters₂ ▸ hregisters
    · rw [henters₂.registers]
      exact hcells

theorem retVoid_step (left : List LlvmInstruction) {t : LlvmState}
    (hleave : ({ c with printed := w } : LlvmConfig).leave none = some t) :
    llvmStep p h (c.running a (.retVoid :: left) w) = some t := hleave

end

theorem HaveValues.types {values : List EmittedValue} {xs : List ScalarValue} {a : Activation}
    (h : HaveValues values xs a) : xs.map ScalarValue.type = values.map EmittedValue.type := by
  induction h with
  | nil => rfl
  | cons hv _ ih => rw [List.map_cons, List.map_cons, ih, hv.1]

theorem HaveValues.operands {values : List EmittedValue} {xs : List ScalarValue} {a : Activation}
    (h : HaveValues values xs a) :
    (values.map fun value => (value.type, value.operand)).mapM (fun argument => a.operand argument.2) =
      some (xs.map ScalarValue.llvm) := by
  induction h with
  | nil => rfl
  | cons hv _ ih => simp [ih, hv.2]

/-- A call of a function goes on in its code, with the arguments in its registers. -/
theorem call_step {p : List LlvmFunction} {h : Host} {c : LlvmConfig} {a : Activation}
    (rest : List LlvmInstruction) {w : List ScalarValue} {name : String} (hmain : name ≠ "main")
    {g : LlvmFunction} (hfind : p.find? (fun g => g.name = name) = some g)
    {values : List EmittedValue} {xs : List ScalarValue} (hvalues : HaveValues values xs a)
    (htypes : g.parameters = values.map EmittedValue.type) (result : Option ℕ) :
    llvmStep p h (c.running a (.call result g.returnType name
      (values.map fun value => (value.type, value.operand)) :: rest) w) =
        some (({ c with callers := (result, a.withCode rest) :: c.callers } : LlvmConfig).running
          (.called name g.code (xs.map ScalarValue.llvm)) g.code w) := by
  have hfirst : g.parameters =
      (values.map fun value => (value.type, value.operand)).map Prod.fst := by
    rw [htypes, List.map_map]
    rfl
  simp only [llvmStep_running, LlvmConfig.execute, hfind, Activation.withCode_operand,
    hvalues.operands, Option.bind_eq_bind, Option.bind_some]
  rw [if_pos ⟨hmain, hfirst, trivial⟩]
  rfl

/-- The arguments of a call are in its registers. -/
theorem Activation.registers_called {name : String} {code : List LlvmInstruction}
    {xs : List ScalarValue} {i : ℕ} {x : ScalarValue} (hx : xs[i]? = some x) :
    (called name code (xs.map ScalarValue.llvm)).registers (.argument i) = some x.llvm := by
  simp [called, hx]

/-- What a function of the source and its code have in common. -/
theorem emitFunction_header {signatures : List Signature} {function : ScalarFunction}
    {g : LlvmFunction} (h : emitFunction signatures function = some g) :
    g.parameters = function.header.parameters.map Prod.snd ∧
      g.returnType = function.header.returnType := by
  obtain ⟨-, -, returns, code, s, -, -, rfl⟩ := emitFunction_eq_some h
  exact ⟨rfl, rfl⟩

/-- A function that has returned, or that ends without a result, is behind its call. -/
theorem Finishes.receives {p : List LlvmFunction} {h : Host} {n : ℕ} {f : FunctionContext}
    {c : LlvmConfig} {a : Activation} {rest : List LlvmInstruction} {result : Option ℕ}
    {returns : Bool} {flow : Flow} {w : List ScalarValue} {t : LlvmState} (hmain : f.name ≠ "main")
    (hresult : result = none ↔ f.returnType = 5) (hend : returns = false → f.returnType = 5)
    (hdepth : c.depth = c.callers.length + 1)
    (ht : Finishes f { c with callers := (result, a.withCode rest) :: c.callers } returns .retVoid
      flow w t) :
    (ScalarProgram.result f.returnType flow w).Meets (llvmStep p h) n llvmEndings
      (Receives c a f.returnType result rest) t := by
  cases flow with
  | next scope =>
    obtain ⟨hreturns, a', rfl⟩ := ht
    have hvoid := hend hreturns
    obtain rfl := hresult.mpr hvoid
    rw [ScalarProgram.result, if_pos hvoid]
    exact .step (retVoid_step [] rfl) (.done ⟨rfl, rfl⟩)
  | returned value =>
    obtain ⟨hmain', -⟩ | ⟨-, htype, hleave⟩ := ht
    · exact absurd hmain' hmain
    have hdepth' : (((result, a.withCode rest) :: c.callers).length : ℕ) = c.depth := hdepth.symm
    rw [hdepth'] at hleave
    cases value with
    | none =>
      obtain rfl := hresult.mpr htype.symm
      obtain rfl := Option.some.inj hleave
      exact .done ⟨rfl, rfl⟩
    | some x =>
      cases result with
      | none =>
        have := x.type_lt
        have := hresult.mp rfl
        simp only [Option.elim_some] at htype
        omega
      | some result =>
        obtain rfl := Option.some.inj hleave
        exact .done ⟨x, rfl, htype, rfl⟩

/-- Calls of the functions of a program meet their evaluations. -/
theorem callFunction_meets {p : ScalarProgram} {functions : List LlvmFunction} (h : Host)
    (hcompiled : Compiled p.signatures p.functions functions) (n : ℕ) (active : List String) :
    MeetsCalls functions h n active p.signatures (p.callFunction h n active) := by
  have hparameters : ∀ signature ∈ p.signatures, 5 ∉ signature.parameters := by
    intro signature hsignature
    obtain ⟨function, hfunction, rfl⟩ := List.mem_map.mp hsignature
    exact hcompiled.parameters function hfunction
  induction n generalizing active with
  | zero => exact ⟨hparameters, fun _ _ _ _ _ _ _ _ _ _ _ _ _ _ => trivial⟩
  | succ n ih =>
    refine ⟨hparameters, fun name signature hfind values xs htypes c a hvalues hinside result rest w
      hresult => ?_⟩
    by_cases hmain : name = "main"
    · -- The call is stuck.
      subst hmain
      rw [ScalarProgram.callFunction, if_pos rfl]
      exact .wrong ⟨_, rfl, _, _, _, _, rfl⟩
    rw [ScalarProgram.signatures, List.find?_map, Option.map_eq_some_iff] at hfind
    obtain ⟨function, hfunction, rfl⟩ := hfind
    have hname : function.header.name = name := by simpa using List.find?_some hfunction
    obtain ⟨g, hg, hemit⟩ := hcompiled.find hfunction
    have htypes' : xs.map ScalarValue.type = function.header.parameters.map Prod.snd :=
      hvalues.types.trans htypes
    have hlength : xs.length = function.header.parameters.length := by
      simpa using congrArg List.length htypes'
    have heval : p.callFunction h (n + 1) active name xs =
        (ScalarProgram.activate h (p.callFunction h n (name :: active)) n (name :: active)
          ((function.header.parameters.map Prod.fst).zip xs).reverse function.body >>=
          ScalarProgram.result function.header.returnType) := by
      have hfind' : p.find name = some function := hfunction
      rw [ScalarProgram.callFunction, if_neg hmain, hfind']
      exact if_pos hlength
    obtain ⟨hgparameters, hgreturn⟩ := emitFunction_header hemit
    have hstep := call_step (p := functions) (h := h) (c := c) (w := w) rest hmain hg hvalues
      (hgparameters.trans htypes.symm) result
    rw [hgreturn] at hstep
    let c' : LlvmConfig := { c with callers := (result, a.withCode rest) :: c.callers }
    have hreturns : c'.Returns ⟨function.header.name, function.header.returnType⟩ :=
      ⟨fun hname' => absurd (hname.symm.trans hname') hmain, fun _ _ => ⟨_, _, _, rfl, hresult⟩⟩
    have hactive : name :: c'.callers.map (fun caller => caller.2.function) = name :: active := by
      rw [← hinside.active]
      rfl
    obtain ⟨returns, hend, hmeets⟩ := emitFunction_meets
      (a := .called name g.code (xs.map ScalarValue.llvm)) (ih (name :: active)) hemit xs htypes' rfl
      rfl (fun _ _ => Activation.registers_called) hactive hinside.depth hreturns (w := w)
    rw [heval]
    refine .step_succ hstep (.fuelled hmeets fun flow w t ht => ?_)
    have hmain' : ¬ function.header.name = "main" := hname ▸ hmain
    rw [decide_eq_false hmain'] at ht
    exact Finishes.receives (f := ⟨function.header.name, function.header.returnType⟩) hmain' hresult
      (fun hreturns => (hend hreturns).resolve_left hmain') hinside.depth ht

/-! ## Programs -/

/-- The end of `main` ends the program with its status. -/
theorem Finishes.status {p : List LlvmFunction} {h : Host} {n : ℕ} {f : FunctionContext}
    {c : LlvmConfig} {returns : Bool} {flow : Flow} {w : List ScalarValue} {t : LlvmState}
    (hcallers : c.callers = []) (ht : Finishes f c returns (lastInstruction true) flow w t) :
    (ScalarProgram.status flow w).Meets (llvmStep p h) n llvmEndings
      (fun status w t => t = .finished status w) t := by
  cases flow with
  | next scope =>
    obtain ⟨-, a, rfl⟩ := ht
    exact .step (retStatus_step hcallers rfl) (.done rfl)
  | returned value =>
    obtain ⟨-, m, rfl, rfl⟩ | ⟨-, -, hleave⟩ := ht
    · exact .done rfl
    · -- There is no function to return to.
      simp [LlvmConfig.leave, hcallers] at hleave

/-- The machine halts where an evaluation has ended. -/
theorem llvmStep_of_endsIn {p : List LlvmFunction} {h : Host}
    {o : Outcome (List ScalarValue) ScalarStop ℤ} {t : LlvmState}
    (ht : o.EndsIn llvmEndings .finished t) : llvmStep p h t = none := by
  cases o with
  | done status w =>
    obtain rfl : t = .finished status w := ht
    rfl
  | stopped stop w =>
    obtain rfl : t = .stopped stop w := ht
    rfl
  | timeout => exact ht.elim
  | wrong =>
    obtain ⟨c, rfl, hmain⟩ := ht
    exact hmain.step

/-- The code of a program meets its evaluation. -/
theorem emitProgram_meets {p : ScalarProgram} {functions : List LlvmFunction}
    {code : List LlvmInstruction} (h : emitProgram p = some (functions, code)) (host : Host) (n : ℕ) :
    (p.run host n []).Meets (llvmStep functions host) n llvmEndings
      (fun status w t => t = .finished status w) (llvmStart code) := by
  obtain ⟨hcompiled, hcode⟩ := emitProgram_eq_some h
  have hcalls := callFunction_meets host hcompiled n ["main"]
  let c : LlvmConfig := ⟨.called "main" code [], [], 0, []⟩
  have hstart : llvmStart code = c.running (.called "main" code []) code [] := rfl
  rw [hstart]
  cases hfind : p.find "main" with
  | some function =>
    obtain ⟨g, hg, hemit⟩ := Compiled.find hcompiled hfind
    have hname : function.header.name = "main" := by simpa using List.find?_some hfind
    obtain ⟨hparameters, hreturnType⟩ := (emitFunction_eq_some hemit).1 hname
    obtain rfl : code = g.code := by
      obtain ⟨main, hmain, rfl⟩ | ⟨hnone, -⟩ := hcode
      · cases hmain.symm.trans hg
        rfl
      · cases hnone.symm.trans hg
    have hreturns : c.Returns ⟨function.header.name, function.header.returnType⟩ :=
      ⟨fun _ => ⟨rfl, hreturnType⟩, fun hmain => absurd hname hmain⟩
    obtain ⟨returns, -, hmeets⟩ := emitFunction_meets (a := .called "main" g.code []) (w := []) hcalls
      hemit [] (by rw [hparameters]; rfl) rfl rfl (by simp) rfl rfl hreturns
    rw [hparameters, hname] at hmeets
    rw [ScalarProgram.run, ScalarProgram.mainStatements, hfind]
    exact .fuelled hmeets fun flow w t ht => ht.status rfl
  | none =>
    have hmain : emitMain p.signatures p.statements = some code := by
      obtain ⟨main, hmain, -⟩ | ⟨-, hmain⟩ := hcode
      · cases hmain.symm.trans (Compiled.find_none hcompiled hfind)
      · exact hmain
    have hwell := emitMain_wellFormed hmain
    simp only [emitMain, Option.bind_eq_bind, Option.bind_eq_some_iff] at hmain
    obtain ⟨⟨terminated, body, s⟩, hbody, hmain⟩ := hmain
    obtain rfl := Option.some.inj hmain
    rw [ScalarProgram.run, ScalarProgram.mainStatements, hfind]
    have hreturns : c.Returns ⟨"top level", 1⟩ :=
      ⟨fun hname => absurd hname (by decide), fun _ htop => absurd rfl htop⟩
    refine .fuelled (finishScalarFunction_meets [.initializeArguments] (lastInstruction true)
      (emitTopLevel_meets ⟨"top level", 1⟩ 0 s.nextLocal hcalls p.statements) hbody
      ⟨Nat.le_refl _, List.nodup_nil, by simp [localCells]⟩ rfl rfl hwell rfl rfl rfl hreturns rfl
      fun c a₁ code _ => ⟨a₁, .single rfl, .refl a₁, .nil⟩) fun flow w t ht => ht.status rfl

/-- What a halted machine says about the evaluation. -/
def LlvmState.outcome : LlvmState → Outcome (List ScalarValue) ScalarStop ℤ
  | .finished status printed => .done status printed
  | .stopped stop printed => .stopped stop printed
  | .running _ => .wrong

theorem LlvmState.outcome_ne_timeout (t : LlvmState) : t.outcome ≠ .timeout := by
  cases t <;> simp [outcome]

/-- An evaluation has the outcome that is read off the state it ends in. -/
theorem outcome_of_endsIn {o : Outcome (List ScalarValue) ScalarStop ℤ} {t : LlvmState}
    (ht : o.EndsIn llvmEndings .finished t) : o = t.outcome := by
  cases o with
  | done status w =>
    obtain rfl : t = .finished status w := ht
    rfl
  | stopped stop w =>
    obtain rfl : t = .stopped stop w := ht
    rfl
  | timeout => exact ht.elim
  | wrong =>
    obtain ⟨c, rfl, -⟩ := ht
    rfl

/-- Where the code of a program halts, the evaluation with enough fuel has ended. -/
theorem exists_run_eq_outcome {p : ScalarProgram} {functions : List LlvmFunction}
    {code : List LlvmInstruction} (h : emitProgram p = some (functions, code)) (host : Host)
    {t : LlvmState} (ht : t ∈ eval (llvmStep functions host) (llvmStart code)) :
    ∃ n, p.run host n [] = t.outcome := by
  obtain ⟨n, hends⟩ := exists_endsIn (emitProgram_meets h host) (fun _ _ => llvmStep_of_endsIn) ht
  exact ⟨n, outcome_of_endsIn hends⟩

/-- Where an evaluation has ended, the code of the program halts. -/
theorem exists_mem_eval_of_run {p : ScalarProgram} {functions : List LlvmFunction}
    {code : List LlvmInstruction} (h : emitProgram p = some (functions, code)) (host : Host) {n : ℕ}
    (hn : p.run host n [] ≠ .timeout) :
    ∃ t ∈ eval (llvmStep functions host) (llvmStart code),
      (p.run host n []).EndsIn llvmEndings .finished t :=
  (emitProgram_meets h host n).exists_mem_eval (fun _ => llvmStep_of_endsIn) hn

/-- A `main` that calls itself. -/
def recursiveMain : ScalarProgram :=
  ⟨[⟨⟨"main", [], 1⟩, [], [.returnValue (some (.call "main" []))]⟩], []⟩

/-- Its code. -/
def recursiveMainCode : List LlvmInstruction :=
  [.stackEnter, .initializeArguments, .call (some 0) 1 "main" [], .stackLeave,
    .truncate 1 (temporaryValue 0), .retStatus (temporaryValue 1)]

/-- A function that calls itself, and a loop that prints its results. -/
def sumProgram : ScalarProgram :=
  ⟨[⟨⟨"sum", [("n", 1)], 1⟩, [false],
      [.ifThen (.binary .equal (.name "n") (.integer 0)) [.returnValue (some (.integer 0))],
        .returnValue (some (.binary .add (.name "n")
          (.call "sum" [.binary .subtract (.name "n") (.integer 1)])))]⟩],
    [.letLocal "i" none (.integer 0),
      .whileLoop (.binary .less (.name "i") (.integer 3))
        [.expression (.call "print" [.call "sum" [.name "i"]]),
          .assign "i" (.binary .add (.name "i") (.integer 1))],
      .expression (.call "exit" [.name "i"])]⟩

end Minyar

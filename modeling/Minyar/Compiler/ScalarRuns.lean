import Minyar.Compiler.ScalarBlocks
import Mathlib.Computability.StateTransition

/-!
# Runs of the emitted code

The names of different labels and registers are different in the text.  The machine stays inside the
blocks of the code: in every state of a run an instruction follows that is not a label, and the jumps
find their labels.
-/

namespace Minyar

open StateTransition

/-! ## Names in the text -/

/-- Different labels are written differently. -/
theorem Label.written_injective : Function.Injective Label.written := by
  intro l l' h
  have h := congrArg String.toList h
  cases l <;> cases l' <;> simp [Label.written, toDigits_injective.eq_iff] at h ⊢
  all_goals exact h

/-- Different registers are written differently. -/
theorem Register.written_injective : Function.Injective Register.written := by
  intro r r' h
  have h := congrArg String.toList h
  cases r <;> cases r' <;> simp [Register.written, toDigits_injective.eq_iff] at h ⊢
  all_goals exact h

/-- The line of a label has its name. -/
theorem LlvmInstruction.written_of_labelName {i : LlvmInstruction} {l : Label}
    (h : i.labelName = some l) : i.written = "\n" ++ l.written ++ ":\n" := by
  cases i <;> cases h
  rfl

/-- A line that assigns a register starts with its name. -/
theorem LlvmInstruction.written_of_mem_results {i : LlvmInstruction} {r : Register}
    (h : r ∈ i.results) : ∃ operation, i.written = r.assigned operation := by
  cases i with
  | call result returnType function arguments =>
    cases result with
    | none => cases h
    | some result =>
      obtain rfl := List.mem_singleton.mp h
      exact ⟨_, rfl⟩
  | _ =>
    first
    | cases h; done
    | obtain rfl := List.mem_singleton.mp h
      exact ⟨_, rfl⟩

/-- The text of the code has no name twice. -/
structure WrittenApart (code : List LlvmInstruction) : Prop where
  /-- The labels. -/
  labels : ((Label.entry :: codeLabels code).map Label.written).Nodup
  /-- The registers that are assigned. -/
  results : ((codeResults code).map Register.written).Nodup
  /-- The lines of labels have these names. -/
  labelLines : ∀ i ∈ code, ∀ l, i.labelName = some l → i.written = "\n" ++ l.written ++ ":\n"
  /-- The lines that assign registers start with these names. -/
  resultLines : ∀ i ∈ code, ∀ r ∈ i.results, ∃ operation, i.written = r.assigned operation

theorem WellFormedCode.writtenApart {code : List LlvmInstruction} (h : WellFormedCode code) :
    WrittenApart code where
  labels := h.labels.map Label.written_injective
  results := h.results.map Register.written_injective
  labelLines _ _ _ := LlvmInstruction.written_of_labelName
  resultLines _ _ _ := LlvmInstruction.written_of_mem_results

/-! ## Labels -/

/-- A label of code without open ends is found, and what follows it has no open end. -/
theorem exists_seekLabel {target : Label} {code : List LlvmInstruction} {opened : Bool}
    (hmem : target ∈ codeLabels code) (hflow : blockFlow opened code = some false) :
    ∃ code', seekLabel target code = some code' ∧ blockFlow true code' = some false := by
  induction code generalizing opened with
  | nil => cases hmem
  | cons i code ih =>
    rw [blockFlow_cons, Option.bind_eq_some_iff] at hflow
    obtain ⟨b, hb, hflow⟩ := hflow
    cases i with
    | label name =>
      by_cases hname : name = target
      · refine ⟨code, by rw [seekLabel, if_pos hname], ?_⟩
        cases opened <;> simp at hb
        exact hb ▸ hflow
      · obtain ⟨code', hcode', hflow'⟩ := ih (by simpa [Ne.symm hname] using hmem) hflow
        exact ⟨code', by rw [seekLabel, if_neg hname, hcode'], hflow'⟩
    | _ => exact ih (by simpa using hmem) hflow

/-! ## Activations -/

/-- An activation of a function inside of a block: nothing is left open behind it. -/
structure Activation.InBlock (a : Activation) : Prop where
  /-- The code of the function. -/
  body : WellFormedCode a.body
  /-- What is left of the block, and the blocks behind it. -/
  code : blockFlow true a.code = some false
  /-- The jumps of what is left. -/
  targets : ∀ l ∈ codeTargets a.code, l ∈ codeLabels a.body

/-- The code of a function is where an activation starts. -/
theorem Activation.InBlock.start {a : Activation} (h : WellFormedCode a.body)
    (hcode : a.code = a.body) : a.InBlock :=
  ⟨h, hcode ▸ h.flow, hcode ▸ h.targets⟩

/-- Only the code counts. -/
theorem Activation.InBlock.congr {a a' : Activation} (h : a.InBlock) (hbody : a'.body = a.body)
    (hcode : a'.code = a.code) : a'.InBlock :=
  ⟨hbody ▸ h.body, hcode ▸ h.code, by rw [hbody, hcode]; exact h.targets⟩

/-- What is behind a label is the end of the code. -/
theorem suffix_of_seekLabel {target : Label} {code code' : List LlvmInstruction}
    (h : seekLabel target code = some code') : code' <:+ code := by
  induction code with
  | nil => cases h
  | cons i code ih =>
    cases i with
    | label name =>
      rw [seekLabel] at h
      split_ifs at h
      · cases h
        exact List.suffix_cons ..
      · exact (ih h).trans (List.suffix_cons ..)
    | _ => exact (ih h).trans (List.suffix_cons ..)

/-- The code behind a label has no other jumps. -/
theorem mem_codeTargets_of_seekLabel {target l : Label} {code code' : List LlvmInstruction}
    (h : seekLabel target code = some code') (hl : l ∈ codeTargets code') : l ∈ codeTargets code := by
  obtain ⟨i, hi, hl⟩ := List.mem_flatMap.mp hl
  exact List.mem_flatMap.mpr ⟨i, (suffix_of_seekLabel h).subset hi, hl⟩

/-- A jump to a label of the function stays in its blocks. -/
theorem Activation.InBlock.goto {a : Activation} {target : Label} (hbody : WellFormedCode a.body)
    (h : target ∈ codeLabels a.body) : ∃ a', a.goto target = some a' ∧ a'.InBlock := by
  obtain ⟨code, hcode, hflow⟩ := exists_seekLabel h hbody.flow
  refine ⟨{ a with code := code, block := target, previous := a.block }, ?_, hbody, hflow, ?_⟩
  · rw [Activation.goto, hcode, Option.map_some]
  · exact fun l hl => hbody.targets l (mem_codeTargets_of_seekLabel hcode hl)

/-! ## Steps -/

namespace LlvmConfig

/-- All activations are inside of blocks. -/
structure InBlocks (c : LlvmConfig) : Prop where
  /-- The current one. -/
  current : c.current.InBlock
  /-- The ones that wait. -/
  callers : ∀ caller ∈ c.callers, caller.2.InBlock

/-- A return goes on in the latest caller. -/
theorem leave_eq_some {c c' : LlvmConfig} {value : Option LlvmValue}
    (h : c.leave value = some (.running c')) :
    ∃ result caller, c.callers = (result, caller) :: c'.callers ∧
      c'.current.body = caller.body ∧ c'.current.code = caller.code := by
  unfold leave at h
  split at h
  · next result caller callers value heq =>
    cases h
    exact ⟨_, _, heq, rfl, rfl⟩
  · next caller callers heq =>
    cases h
    exact ⟨_, _, heq, rfl, rfl⟩
  · cases h

/-- What an instruction does to the activations. -/
theorem execute_cases {p : List LlvmFunction} {h : Host} {c c' : LlvmConfig} {i : LlvmInstruction}
    (hstep : c.execute p h i = some (.running c')) :
    (i.flow true = some true ∧ c'.current.body = c.current.body ∧
      c'.current.code = c.current.code ∧ c'.callers = c.callers) ∨
    (∃ l ∈ i.targets, c.current.goto l = some c'.current ∧ c'.callers = c.callers) ∨
    (i.flow true = some true ∧ ∃ function ∈ p, ∃ result, c'.current.body = function.code ∧
      c'.current.code = function.code ∧ c'.callers = (result, c.current) :: c.callers) ∨
    ∃ result caller, c.callers = (result, caller) :: c'.callers ∧
      c'.current.body = caller.body ∧ c'.current.code = caller.code := by
  cases i with
  | branch condition ifTrue ifFalse =>
    simp [execute, goOn, Option.bind_eq_some_iff] at hstep
    obtain ⟨-, a, ha, rfl⟩ | ⟨-, a, ha, rfl⟩ := hstep
    · exact .inr (.inl ⟨ifFalse, by simp, ha, rfl⟩)
    · exact .inr (.inl ⟨ifTrue, by simp, ha, rfl⟩)
  | jump target =>
    simp [execute, goOn, Option.bind_eq_some_iff] at hstep
    obtain ⟨a, ha, rfl⟩ := hstep
    exact .inr (.inl ⟨target, by simp, ha, rfl⟩)
  | call result returnType name arguments =>
    simp [execute, Option.bind_eq_some_iff] at hstep
    obtain ⟨function, hfunction, values, -, hstep⟩ := hstep
    obtain ⟨-, rfl⟩ := hstep
    exact .inr (.inr (.inl ⟨rfl, function, List.mem_of_find?_eq_some hfunction, result, rfl, rfl,
      rfl⟩))
  | ret type value =>
    refine .inr (.inr (.inr ?_))
    simp [execute] at hstep
    split_ifs at hstep
    · exact leave_eq_some hstep
    · obtain ⟨v, -, hstep⟩ := Option.bind_eq_some_iff.mp hstep
      exact leave_eq_some hstep
  | retVoid => exact .inr (.inr (.inr (leave_eq_some hstep)))
  | label name => cases hstep
  | unreachable => cases hstep
  | retStatus value =>
    simp only [execute] at hstep
    split at hstep <;> cases hstep
  | phi result short leftBlock right rightBlock =>
    refine .inl ⟨rfl, ?_⟩
    simp [execute, goOn] at hstep
    split_ifs at hstep <;> simp [Activation.set, Option.bind_eq_some_iff] at hstep <;> grind
  | _ =>
    refine .inl ⟨rfl, ?_⟩
    -- The other instructions only change registers, cells and what is printed.
    simp [execute, goOn, Activation.set, Activation.setCell, Option.bind_eq_some_iff] at hstep <;>
      grind

/-- A step leaves all activations inside of blocks. -/
theorem InBlocks.step {p : List LlvmFunction} {h : Host} {c c' : LlvmConfig}
    (hp : ∀ function ∈ p, WellFormedCode function.code) (hc : c.InBlocks)
    (hstep : llvmStep p h (.running c) = some (.running c')) : c'.InBlocks := by
  obtain ⟨⟨hbody, hflow, htargets⟩, hcallers⟩ := hc
  rw [llvmStep] at hstep
  cases hcode : c.current.code with
  | nil => simp [hcode] at hstep
  | cons i code =>
    simp only [hcode] at hstep
    rw [hcode, blockFlow_cons, Option.bind_eq_some_iff] at hflow
    obtain ⟨b, hb, hflow⟩ := hflow
    rw [hcode, codeTargets_cons] at htargets
    have hbehind (htrue : i.flow true = some true) :
        Activation.InBlock { c.current with code := code } :=
      ⟨hbody, Option.some.inj (hb.symm.trans htrue) ▸ hflow,
        fun l hl => htargets l (List.mem_append_right _ hl)⟩
    obtain ⟨htrue, hbody', hcode', hcallers'⟩ | ⟨l, hl, hgoto, hcallers'⟩ |
      ⟨htrue, function, hfunction, result, hbody', hcode', hcallers'⟩ |
      ⟨result, caller, hcallers', hbody', hcode'⟩ := execute_cases hstep
    · exact ⟨(hbehind htrue).congr hbody' hcode', hcallers' ▸ hcallers⟩
    · obtain ⟨a, ha, hblock⟩ := Activation.InBlock.goto (a := { c.current with code := code }) hbody
        (htargets l (List.mem_append_left _ hl))
      exact ⟨Option.some.inj (ha.symm.trans hgoto) ▸ hblock, hcallers' ▸ hcallers⟩
    · refine ⟨.start (hbody' ▸ hp function hfunction) (hcode'.trans hbody'.symm), ?_⟩
      rw [hcallers']
      exact List.forall_mem_cons.mpr ⟨hbehind htrue, hcallers⟩
    · have hall := hcallers
      rw [show c.callers = (result, caller) :: c'.callers from hcallers'] at hall
      obtain ⟨hcaller, hrest⟩ := List.forall_mem_cons.mp hall
      exact ⟨hcaller.congr hbody' hcode', hrest⟩

/-- In a state inside of blocks an instruction follows that is no label, and its jumps find their
labels. -/
theorem InBlocks.next {c : LlvmConfig} (hc : c.InBlocks) :
    ∃ i code, c.current.code = i :: code ∧ i.labelName = none ∧
      ∀ l ∈ i.targets, (c.current.goto l).isSome := by
  obtain ⟨⟨hbody, hflow, htargets⟩, -⟩ := hc
  cases hcode : c.current.code with
  | nil =>
    rw [hcode] at hflow
    cases hflow
  | cons i code =>
    refine ⟨i, code, rfl, ?_, fun l hl => ?_⟩
    · rw [hcode, blockFlow_cons] at hflow
      cases i with
      | label name => cases hflow
      | _ => rfl
    · rw [hcode, codeTargets_cons] at htargets
      obtain ⟨a, ha, -⟩ := Activation.InBlock.goto hbody (htargets l (List.mem_append_left _ hl))
      rw [ha, Option.isSome_some]

end LlvmConfig

/-! ## Runs -/

/-- A program that goes on has all activations inside of blocks. -/
theorem inBlocks_of_reaches {p : List LlvmFunction} {h : Host} {code : List LlvmInstruction}
    (hp : ∀ function ∈ p, WellFormedCode function.code) (hcode : WellFormedCode code)
    {state : LlvmState}
    (hreaches : Reaches (llvmStep p h) (llvmStart code) state) {c : LlvmConfig}
    (hstate : state = .running c) : c.InBlocks := by
  induction hreaches generalizing c with
  | refl =>
    cases hstate
    exact ⟨.start hcode rfl, by simp⟩
  | @tail state state' _ hstep ih =>
    subst hstate
    cases state with
    | running c₀ => exact (ih rfl).step hp hstep
    | finished status printed => cases hstep
    | stopped stop printed => cases hstep

/-- A function with a choice, and a loop that calls it. -/
def loopProgram : ScalarProgram :=
  ⟨[⟨⟨"next", [("a", 1)], 1⟩, [true],
      [.ifElse (.binary .less (.name "a") (.integer 3)) [.returnValue (some (.integer 3))]
        [.assign "a" (.binary .add (.name "a") (.integer 1))],
      .returnValue (some (.name "a"))]⟩],
    [.letLocal "n" none (.integer 0),
      .whileLoop (.binary .less (.name "n") (.integer 5)) [.assign "n" (.call "next" [.name "n"])]]⟩

end Minyar

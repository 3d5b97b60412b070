import Minyar.Compiler.FunctionSlots

/-!
# Read-only parameters

A parameter that `markAssignedParameters` finds no assignment of is bound to its operand in the head
of the definition and has no local.  The scan goes over the tokens of the body once, before the body
is compiled; what it has left to say at a statement is what it would say of the rest, as long as it
has not stopped.  It stops too early when a type is named `\x7d`.
-/

namespace Minyar

/-! ## The scan -/

/-- The scan of a body at some tokens, in which at least so many blocks are open, comes to the
marks. -/
def ScansTo (names : List String) (marks : List Bool) (blocks : ℕ) (tokens : List Token) : Prop :=
  ∃ (depth : ℤ) (found : List Bool), blocks ≤ depth ∧ found.length = names.length ∧
    scanAssigned names depth tokens found = marks

/-- The marks after a token. -/
def markAssigned (names : List String) (token : Token) (rest : List Token) (found : List Bool) :
    List Bool :=
  if token.kind = .name ∧ rest.head?.map Token.text = some "=" then
    List.zipWith (fun name mark => mark || token.text = name) names found else found

section

variable {names : List String} {marks found : List Bool}

@[simp] theorem length_markAssigned (token : Token) (rest : List Token)
    (h : found.length = names.length) :
    (markAssigned names token rest found).length = names.length := by
  unfold markAssigned
  split_ifs
  · rw [List.length_zipWith, h, min_self]
  · exact h

/-- One round of the scan. -/
theorem scanAssigned_cons {depth : ℤ} {token : Token} {rest : List Token}
    (hend : token.kind ≠ .endOfFile) : scanAssigned names depth (token :: rest) found =
      match punctuationBrace token with
      | some .opening => scanAssigned names (depth + 1) rest (markAssigned names token rest found)
      | some .closing => if depth - 1 = 0 then markAssigned names token rest found
          else scanAssigned names (depth - 1) rest (markAssigned names token rest found)
      | none => scanAssigned names depth rest (markAssigned names token rest found) := by
  rw [scanAssigned, if_neg hend]
  rfl

/-- No mark is taken back. -/
theorem markAssigned_mono {i : ℕ} {name : String} (hname : names[i]? = some name) {token : Token}
    {rest : List Token} (h : found[i]? = some true) :
    (markAssigned names token rest found)[i]? = some true := by
  unfold markAssigned
  split_ifs
  · simp [List.getElem?_zipWith, hname, h]
  · exact h

/-- No mark is taken back by the scan. -/
theorem scanAssigned_mono {i : ℕ} {name : String} (hname : names[i]? = some name) {depth : ℤ}
    {tokens : List Token} (h : found[i]? = some true) :
    (scanAssigned names depth tokens found)[i]? = some true := by
  induction tokens generalizing depth found with
  | nil => exact h
  | cons token rest ih =>
    by_cases hend : token.kind = .endOfFile
    · rw [scanAssigned, if_pos hend]
      exact h
    rw [scanAssigned_cons hend]
    have hmark : (markAssigned names token rest found)[i]? = some true := markAssigned_mono hname h
    split
    · exact ih hmark
    · split_ifs
      · exact hmark
      · exact ih hmark
    · exact ih hmark

namespace ScansTo

variable {blocks : ℕ} {token : Token} {rest : List Token}

/-- Fewer open blocks. -/
theorem mono (h : ScansTo names marks blocks rest) {blocks' : ℕ} (hle : blocks' ≤ blocks) :
    ScansTo names marks blocks' rest := by
  obtain ⟨depth, found, hdepth, hlength, heq⟩ := h
  exact ⟨depth, found, (Int.ofNat_le.mpr hle).trans hdepth, hlength, heq⟩

/-- The scan behind a token that is no brace. -/
theorem plain (h : ScansTo names marks blocks (token :: rest)) (hend : token.kind ≠ .endOfFile)
    (hbrace : punctuationBrace token = none) : ScansTo names marks blocks rest := by
  obtain ⟨depth, found, hdepth, hlength, heq⟩ := h
  rw [scanAssigned_cons hend, hbrace] at heq
  exact ⟨depth, _, hdepth, length_markAssigned token rest hlength, heq⟩

/-- The scan behind an opening brace. -/
theorem opening (h : ScansTo names marks blocks (token :: rest))
    (hbrace : punctuationBrace token = some .opening) : ScansTo names marks (blocks + 1) rest := by
  obtain ⟨depth, found, hdepth, hlength, heq⟩ := h
  rw [scanAssigned_cons (kind_ne_of_punctuationBrace hbrace), hbrace] at heq
  exact ⟨depth + 1, _, by omega, length_markAssigned token rest hlength, heq⟩

/-- The scan behind the closing brace of an inner block. -/
theorem closing (h : ScansTo names marks (blocks + 2) (token :: rest))
    (hbrace : punctuationBrace token = some .closing) : ScansTo names marks (blocks + 1) rest := by
  obtain ⟨depth, found, hdepth, hlength, heq⟩ := h
  rw [scanAssigned_cons (kind_ne_of_punctuationBrace hbrace), hbrace] at heq
  simp only [if_neg (by omega : ¬ depth - 1 = 0)] at heq
  exact ⟨depth - 1, _, by omega, length_markAssigned token rest hlength, heq⟩

/-- The scan behind an expression. -/
theorem expression {fieldName : String → Prop} {tokens : List Token}
    (hreads : ReadsExpression fieldName tokens)
    (h : ScansTo names marks (blocks + 1) (tokens ++ rest)) :
    ScansTo names marks (blocks + 1) rest := by
  induction hreads generalizing blocks rest with
  | nil => exact h
  | token hend hbrace _ ih => exact ih (h.plain hend hbrace)
  | @field token _ hend hopen _ _ ih =>
    rcases hbrace : punctuationBrace token with _ | _ | _
    · exact ih (h.plain hend hbrace)
    · exact ih ((h.opening hbrace).mono (Nat.le_succ _))
    · exact absurd hbrace hopen
  | literal hfirst hlast _ _ ihfields ihrest =>
    rw [List.cons_append, List.append_assoc, List.cons_append] at h
    exact ihrest ((ihfields (h.opening hfirst)).closing hlast)

/-- The scan behind the header of a `let`, when no type is named `\x7d`. -/
theorem header {typeName : String → Prop} (htype : ¬ typeName "\x7d") {tokens : List Token}
    (hreads : ReadsHeader typeName tokens) (h : ScansTo names marks blocks (tokens ++ rest)) :
    ScansTo names marks blocks rest := by
  induction tokens with
  | nil => exact h
  | cons token tokens ih =>
    obtain ⟨hend, hname⟩ := hreads token List.mem_cons_self
    refine ih (fun t ht => hreads t (List.mem_cons_of_mem token ht)) ?_
    rcases hbrace : punctuationBrace token with _ | _ | _
    · exact h.plain hend hbrace
    · exact (h.opening hbrace).mono (Nat.le_succ blocks)
    · rw [hbrace] at hname
      have htext := hname.resolve_left nofun
      exact absurd (text_of_punctuationBrace_closing hbrace ▸ htext) htype

/-- A name in front of an equals sign is marked. -/
theorem assigned {name equals : Token} (h : ScansTo names marks blocks (name :: equals :: rest))
    (hname : name.kind = .name) (hequals : equals.text = "=") {i : ℕ}
    (hi : names[i]? = some name.text) : marks[i]? = some true := by
  obtain ⟨depth, found, hdepth, hlength, rfl⟩ := h
  obtain ⟨hlt, -⟩ := List.getElem?_eq_some_iff.mp hi
  have hmark : (markAssigned names name (equals :: rest) found)[i]? = some true := by
    unfold markAssigned
    rw [if_pos ⟨hname, congrArg some hequals⟩, List.getElem?_zipWith, hi,
      List.getElem?_eq_getElem (hlength ▸ hlt)]
    simp
  rw [scanAssigned_cons (by rw [hname]; decide), punctuationBrace_of_name hname]
  exact scanAssigned_mono hi hmark

end ScansTo

end

/-! ## The head of the definition -/

namespace Output

/-- The pieces up to the entry are those of `base`. -/
def Extends (o : Output) (base : List String) : Prop :=
  base <+: o.pieces ∧ base.length = o.entrySlot + 1

variable {o : Output} {base : List String}

theorem Extends.add (h : o.Extends base) (pieces : List String) : (o.add pieces).Extends base :=
  ⟨h.1.trans (List.prefix_append _ _), h.2⟩

/-- A piece behind the entry is replaced. -/
theorem Extends.set (h : o.Extends base) {index : ℕ} (hindex : o.entrySlot < index)
    (piece : String) : { o with pieces := o.pieces.set index piece }.Extends base := by
  obtain ⟨⟨body, hbody⟩, hlength⟩ := h
  refine ⟨⟨body.set (index - base.length) piece, ?_⟩, hlength⟩
  rw [← hbody, List.set_append_right _ _ (by omega)]

theorem Extends.keepReference (h : o.Extends base) (value : String) (type : ℕ) :
    (o.keepReference value type).2.Extends base := by
  unfold Output.keepReference
  split_ifs
  · exact h.add _
  · exact h

theorem Extends.borrowReference (h : o.Extends base) (value : String) (type : ℕ) :
    (o.borrowReference value type).Extends base := by
  unfold Output.borrowReference
  split_ifs
  · exact h.add _
  · exact h

theorem Extends.takeOwner (h : o.Extends base) {owner : ℤ} (howner : o.IsOwner owner)
    (value : String) : (o.takeOwner value owner).2.Extends base := by
  simp only [Output.takeOwner]
  split_ifs with hnone
  · exact h
  all_goals
    have hfirst : (o.entrySlot : ℤ) < owner := howner.resolve_left hnone
  · exact ((h.add _).set (by change o.entrySlot < _; omega) "").set
      (by change o.entrySlot < _; omega) ""
  · exact ((h.set (by omega) "").set (by change o.entrySlot < _; omega) "").set
      (by change o.entrySlot < _; omega) ""
  · exact h

theorem Extends.takeResult (h : o.Extends base) {result : ResultType}
    (howner : ∀ owner, result.owner = some owner → o.IsOwner owner) (value : String) :
    (o.takeResult value result).2.Extends base := by
  unfold Output.takeResult
  split
  · rename_i owner hresult
    split_ifs
    · exact h.takeOwner (howner owner hresult) value
    · exact h
  · exact h

end Output

namespace Emitter

variable {e : Emitter} {base : List String}

theorem extends_rootLocal (h : e.out.Extends base) (id : ℕ) (value : String) (type : ℕ) :
    (e.rootLocal id value type).out.Extends base := by
  simp only [rootLocal]
  split_ifs
  · exact h
  · exact Output.Extends.add (o := { e.out with references := true }) h _
  · exact h

theorem extends_assignReference (h : e.out.Extends base) (id : ℕ) (value : String)
    {result : ResultType} (howner : ∀ owner, result.owner = some owner → e.out.IsOwner owner) :
    (e.assignReference id value result).out.Extends base := by
  have htaken := h.takeResult howner value
  simp only [assignReference]
  split_ifs
  · exact Output.Extends.add (o := { (e.out.takeResult value result).2 with references := true })
      htaken _
  · exact extends_rootLocal (e := { e with out := (e.out.takeResult value result).2 }) htaken _ _ _

theorem extends_rootLocals (h : e.out.Extends base) (locals : List LocalBinding) :
    (e.rootLocals locals).out.Extends base := by
  induction locals generalizing e with
  | nil => exact h
  | cons binding locals ih => exact ih (extends_rootLocal h _ _ _)

theorem extends_recordScalars (h : e.out.Extends base) (fieldCount : ℕ) :
    (e.recordScalars fieldCount).out.Extends base := by
  unfold recordScalars
  split_ifs
  · exact (h.add _).add _
  · exact h

end Emitter

/-- A step of an expression leaves the head of the definition. -/
theorem EmissionStep.extends {own : Option ℕ} {e e' : Emitter} {base : List String}
    (hstep : EmissionStep own e e') (h : e.out.Extends base) : e'.out.Extends base := by
  cases hstep with
  | pieces => exact h.add _
  | fill hindex => exact h.set hindex _
  | keep => exact h.keepReference _ _
  | borrow => exact h.borrowReference _ _
  | take value howner => exact h.takeOwner howner value
  | call => exact h
  | transfer => exact h.add _

/-- The steps of an expression leave the scope and the head of the definition. -/
theorem emissionSteps_extends {own : Option ℕ} {e e' : Emitter} {base : List String}
    (hsteps : Relation.ReflTransGen (EmissionStep own) e e') (h : e.out.Extends base) :
    e.Keeps e' ∧ e'.out.Extends base := by
  induction hsteps with
  | refl => exact ⟨.refl e, h⟩
  | tail _ hstep ih => exact ⟨ih.1.trans hstep.keeps, hstep.extends ih.2⟩

/-- A parameter without a local is bound to the piece with its operand. -/
theorem addParameters_read {marks : List Bool} {parameters : List (String × ℕ)} {index : ℕ}
    {pieces : List String} {binding : LocalBinding}
    (hmem : binding ∈ (addParameters marks index parameters pieces).1) (hneg : binding.id < 0) :
    ∃ i, parameters[i]? = some (binding.name, binding.type) ∧ marks[index + i]? = some false ∧
      (addParameters marks index parameters pieces).2[(-binding.id - 1).toNat]? =
        some ("%argument." ++ toString (index + i)) := by
  induction parameters generalizing index pieces with
  | nil => cases hmem
  | cons parameter parameters ih =>
    obtain ⟨name, type⟩ := parameter
    rw [addParameters] at hmem ⊢
    rcases List.mem_cons.mp hmem with rfl | hmem
    · have hmark : marks.getD index true = false := by
        by_contra hmark
        simp only [Bool.not_eq_false] at hmark
        simp only [if_pos hmark] at hneg
        omega
      refine ⟨0, rfl, ?_, ?_⟩
      · rw [List.getD_eq_getElem?_getD] at hmark
        rcases hget : marks[index]? with _ | mark
        · rw [hget] at hmark
          cases hmark
        · rw [hget] at hmark
          exact congrArg some hmark
      · simp only [hmark, if_neg Bool.false_ne_true]
        generalize (if 0 < index then pieces ++ [", "] else pieces) ++ [llvmType type, " "] = front
        obtain ⟨⟨others, hothers⟩, -⟩ := addParameters_spec marks parameters (index + 1)
          (front ++ ["%argument." ++ toString index])
        rw [← hothers, (by omega : (-(-(front.length : ℤ) - 1) - 1).toNat = front.length),
          List.append_assoc, List.getElem?_append_right le_rfl, Nat.sub_self]
        rfl
    · obtain ⟨i, hparameter, hmark, hpiece⟩ := ih hmem
      refine ⟨i + 1, hparameter, ?_, ?_⟩
      · rwa [← Nat.add_assoc, Nat.add_right_comm]
      · rw [← Nat.add_assoc, Nat.add_right_comm]
        exact hpiece

/-! ## Bodies -/

namespace Emitter

/-- What holds in the body of a function whose parameters have the bindings `parameters`. -/
structure ParametersValid (e : Emitter) (names : List String) (marks : List Bool)
    (parameters : List LocalBinding) (base : List String) : Prop where
  /-- The scan has not stopped. -/
  scan : e.scope.blocks ≠ [] → ScansTo names marks e.scope.blocks.length e.scope.rest
  /-- Only parameters have no local. -/
  parameter : ∀ binding ∈ e.scope.locals, binding.id < 0 → binding ∈ parameters
  /-- The head of the definition is as it was. -/
  out : e.out.Extends base

section

variable {p : ProgramSymbols} {e e' : Emitter} {names : List String} {marks : List Bool}
  {parameters : List LocalBinding} {base : List String}

/-- The same bindings in front of later tokens. -/
theorem ParametersValid.later (h : e.ParametersValid names marks parameters base)
    (hopen : e.scope.blocks ≠ []) {rest : List Token}
    (hscope : e'.scope = { e.scope with rest := rest }) (hout : e'.out.Extends base)
    (hrest : ∀ {blocks : ℕ}, ScansTo names marks (blocks + 1) e.scope.rest →
      ScansTo names marks (blocks + 1) rest) : e'.ParametersValid names marks parameters base := by
  refine ⟨fun _ => ?_, fun binding hmem hneg => ?_, hout⟩
  · obtain ⟨first, blocks, hblocks⟩ := List.exists_cons_of_ne_nil hopen
    have hscan := h.scan hopen
    rw [hscope]
    rw [hblocks] at hscan ⊢
    exact hrest hscan
  · rw [hscope] at hmem
    exact h.parameter binding hmem hneg

/-- An expression. -/
theorem ParametersValid.emission (h : e.ParametersValid names marks parameters base)
    (hopen : e.scope.blocks ≠ []) {own : Option ℕ} (hemission : Emission p own e e') :
    e'.ParametersValid names marks parameters base ∧ e'.scope.blocks ≠ [] := by
  obtain ⟨hsteps, hreads, hrest⟩ := hemission
  obtain ⟨hkeeps, hout⟩ := emissionSteps_extends hsteps h.out
  refine ⟨h.later hopen (by rw [withRest, hkeeps.scope]) hout fun hscan =>
    ScansTo.expression hreads (hrest ▸ hscan), ?_⟩
  rw [withRest, hkeeps.scope]
  exact hopen

/-- A binding with a local. -/
theorem ParametersValid.bindLocal (h : e.ParametersValid names marks parameters base) (name : String)
    {value : String} {result : ResultType}
    (howner : ∀ owner, result.owner = some owner → e.out.IsOwner owner) :
    (e.bindLocal name value result).ParametersValid names marks parameters base := by
  have hkeeps : (e.addLocal name result.type).Keeps (e.bindLocal name value result) :=
    (keeps_assignReference _ _ _ _).add _
  have hout : (e.bindLocal name value result).out.Extends base :=
    (extends_assignReference (e := e.addLocal name result.type) h.out e.scope.nextLocal value
      howner).add _
  refine ⟨?_, ?_, hout⟩
  · rw [hkeeps.scope]
    exact h.scan
  · rw [hkeeps.scope]
    intro binding hmem hneg
    rcases List.mem_append.mp hmem with hmem | hmem
    · exact h.parameter binding hmem hneg
    · rw [List.mem_singleton.mp hmem] at hneg
      exact absurd hneg (not_lt.mpr (Int.natCast_nonneg _))

/-- The tokens of a `let` up to the value, and the look at the value. -/
theorem ParametersValid.header (h : e.ParametersValid names marks parameters base)
    (hopen : e.scope.blocks ≠ []) (hrecord : ¬ p.IsRecord "\x7d") {keyword name equals : Token}
    {ascribed rest : List Token} {variableName : String} {e₁ : Emitter}
    (hrest : e.scope.rest = keyword :: name :: (ascribed ++ equals :: rest))
    (hheader : ReadsHeader p.IsRecord (keyword :: name :: (ascribed ++ [equals])))
    (hprepare : (e.withRest rest).prepare p variableName = some e₁) :
    e₁.ParametersValid names marks parameters base ∧ e₁.scope = { e.scope with rest := rest } := by
  have happend : e.scope.rest = (keyword :: name :: (ascribed ++ [equals])) ++ rest := by
    rw [hrest, List.cons_append, List.cons_append, List.append_assoc, List.singleton_append]
  obtain ⟨cost, scalarLocal, rfl, -⟩ := prepare_cases hprepare
  exact ⟨h.later hopen rfl h.out fun hscan => ScansTo.header hrecord hheader (happend ▸ hscan), rfl⟩

end

end Emitter

section

variable {p : ProgramSymbols} {e e' : Emitter} {names : List String} {marks : List Bool}
  {parameters : List LocalBinding} {base : List String}

/-- One step in a body, when no record is named `\x7d`. -/
theorem BodyStep.parametersValid (hrecord : ¬ p.IsRecord "\x7d") (hstep : BodyStep p e e')
    (hopen : e.scope.blocks ≠ []) (h : e.ParametersValid names marks parameters base) :
    e'.ParametersValid names marks parameters base := by
  cases hstep with
  | other hemission => exact (h.emission hopen hemission).1
  | letValue hrest hheader hname hprepare hscalar hvalue hplain howner =>
    obtain ⟨hprepared, hscope⟩ := h.header hopen hrecord hrest hheader hprepare
    exact (hprepared.emission (hscope ▸ hopen) hvalue).1.bindLocal _ howner
  | @letScalar e₁ e₂ _ _ _ record first last _ fields rest rest' hrest hheader hname hprepare hscalar
      hliteral hliteralName hfirst hlast hfields hsteps =>
    obtain ⟨hprepared, hscope⟩ := h.header hopen hrecord hrest hheader hprepare
    have hreads : ReadsExpression p.IsField (record :: first :: (fields ++ [last])) :=
      .token (by rw [hliteralName]; decide) (punctuationBrace_of_name hliteralName)
        (.literal hfirst hlast hfields .nil)
    have happend : e₁.scope.rest = (record :: first :: (fields ++ [last])) ++ rest' := by
      rw [hscope, List.cons_append, List.cons_append, List.append_assoc, List.singleton_append]
      exact hliteral
    obtain ⟨hkeeps, hout⟩ :=
      emissionSteps_extends hsteps (Emitter.extends_recordScalars hprepared.out _)
    have hmarked :
        (e₁.recordScalars (p.counts.getD (p.record record).toNat 0)).scope = e₁.scope := by
      unfold Emitter.recordScalars
      rw [if_pos hscalar]
    have hlater : (e₂.withRest rest').ParametersValid names marks parameters base :=
      hprepared.later (hscope ▸ hopen) (by rw [Emitter.withRest, hkeeps.scope, hmarked]) hout
        fun hscan => ScansTo.expression hreads (happend ▸ hscan)
    exact hlater.bindLocal _ fun owner hsome => .inl (Option.some.inj hsome).symm
  | @assign e₁ name equals rest binding value result hrest hname hequals hend hfind hlocal hvalue
      hplain htype howner =>
    have hequalsBrace : punctuationBrace equals = none := by
      unfold punctuationBrace
      simp [hequals]
    have hbehind : (e.withRest rest).ParametersValid names marks parameters base :=
      h.later hopen rfl h.out fun hscan => by
        rw [hrest] at hscan
        exact (hscan.plain (by rw [hname]; decide) (punctuationBrace_of_name hname)).plain hend
          hequalsBrace
    obtain ⟨hdone, -⟩ := hbehind.emission hopen hvalue
    have hkeeps := (Emitter.keeps_assignReference e₁ binding.id.toNat value result).add
      ["  store ", llvmType result.type, " ", value, ", ptr %local.", toString binding.id, "\n"]
    refine ⟨?_, ?_, (Emitter.extends_assignReference hdone.out _ _ howner).add _⟩
    · rw [hkeeps.scope]
      exact hdone.scan
    · rw [hkeeps.scope]
      exact hdone.parameter
  | openBlock hrest hfirst =>
    refine ⟨fun _ => ?_, h.parameter, h.out⟩
    have hscan := h.scan hopen
    rw [hrest] at hscan
    exact hscan.opening hfirst
  | @closeBlock e₁ last rest first blocks hrest hlast hblocks returns hlocals he' =>
    refine ⟨fun hinner => ?_, fun binding hmem hneg =>
      h.parameter binding (List.mem_of_mem_take hmem) hneg, ?_⟩
    · obtain ⟨outer, blocks, rfl⟩ := List.exists_cons_of_ne_nil hinner
      have hscan := h.scan hopen
      rw [hrest, hblocks] at hscan
      exact hscan.closing hlast
    · change e₁.out.Extends base
      rw [he']
      split_ifs
      · exact h.out
      · exact Emitter.extends_rootLocals h.out _

/-- The states of the compiler from the opening brace of a body on. -/
inductive InBody (p : ProgramSymbols) (e : Emitter) : Emitter → Prop
  /-- The opening brace. -/
  | enter {first : Token} {rest : List Token} (hrest : e.scope.rest = first :: rest)
      (hfirst : punctuationBrace first = some .opening) :
      InBody p e { e with scope := { e.scope with
        rest := rest
        blocks := e.scope.locals.length :: e.scope.blocks } }
  /-- A step up to the closing brace. -/
  | step {e₁ e₂ : Emitter} (h : InBody p e e₁) (hopen : e₁.scope.blocks ≠ [])
      (hstep : BodyStep p e₁ e₂) : InBody p e e₂

/-- What is said of the parameters of a function in a state of its body. -/
structure ParametersKept (h : FunctionHeader) (marks : List Bool) (e : Emitter) : Prop where
  /-- An assignment stores to a local. -/
  assigned : ∀ {name equals : Token} {rest : List Token} {binding : LocalBinding},
    e.scope.rest = name :: equals :: rest → name.kind = .name → equals.text = "=" →
      e.findLocal name.text = some binding → 0 ≤ binding.id
  /-- A binding without a local is a parameter that is not marked, and the piece that is read for it
  is the incoming argument. -/
  read : ∀ binding ∈ e.scope.locals, binding.id < 0 → ∃ i : ℕ,
    h.parameters[i]? = some (binding.name, binding.type) ∧ marks[i]? = some false ∧
      e.out.pieces[(-binding.id - 1).toNat]? = some ("%argument." ++ toString i)
  /-- With more than 64 parameters all of them have locals. -/
  many : 64 < h.parameters.length → ∀ binding ∈ e.scope.locals, 0 ≤ binding.id

/-- The run of a body. -/
theorem InBody.parametersValid (hrecord : ¬ p.IsRecord "\x7d") (hbody : InBody p e e')
    (hscan : ScansTo names marks 0 e.scope.rest) (hblocks : e.scope.blocks = [])
    (hparameter : ∀ binding ∈ e.scope.locals, binding.id < 0 → binding ∈ parameters)
    (hout : e.out.Extends base) : e'.ParametersValid names marks parameters base := by
  induction hbody with
  | enter hrest hfirst =>
    refine ⟨fun _ => ?_, hparameter, hout⟩
    rw [hrest] at hscan
    rw [hblocks]
    exact hscan.opening hfirst
  | step _ hopen hstep ih => exact hstep.parametersValid hrecord hopen ih

/-- A parameter is left unmarked by the scan only. -/
theorem markAssignedParameters_eq_false {body : List Token} {i : ℕ}
    (h : (markAssignedParameters names body)[i]? = some false) : names.length ≤ 64 ∧
      scanAssigned names 0 body (names.map fun _ => false) = markAssignedParameters names body := by
  unfold markAssignedParameters at h ⊢
  split_ifs at h with hmany
  · rcases hmany with rfl | hmany
    · cases h
    · rw [List.getElem?_map, decide_eq_true hmany] at h
      obtain ⟨name, -, hfalse⟩ := Option.map_eq_some_iff.mp h
      cases hfalse
  · rw [if_neg hmany]
    exact ⟨Nat.not_lt.mp fun hlt => hmany (.inr hlt), rfl⟩

/-- A parameter without a local. -/
theorem FunctionHeader.declare_read {h : FunctionHeader} {body : List Token} {pieces : List String}
    {binding : LocalBinding} (hmem : binding ∈ (h.declare body pieces).1) (hneg : binding.id < 0) :
    ∃ i : ℕ, h.parameters[i]? = some (binding.name, binding.type) ∧
      (markAssignedParameters (h.parameters.map Prod.fst) body)[i]? = some false ∧
        (h.declare body pieces).2[(-binding.id - 1).toNat]? =
          some ("%argument." ++ toString i) := by
  unfold declare at hmem ⊢
  split_ifs at hmem ⊢
  · cases hmem
  · simpa using addParameters_read hmem hneg

/-- The body of a function, when no record is named `\x7d`. -/
theorem inBody_parametersKept {limit : ℕ} {h : FunctionHeader} (hrecord : ¬ p.IsRecord "\x7d")
    (hbody : InBody p (e.beginFunction limit h) e') (hopen : e'.scope.blocks ≠ []) :
    ParametersKept h (markAssignedParameters (h.parameters.map Prod.fst) e.scope.rest) e' := by
  have hvalid : e'.ParametersValid (h.parameters.map Prod.fst)
      (scanAssigned (h.parameters.map Prod.fst) 0 e.scope.rest
        ((h.parameters.map Prod.fst).map fun _ => false))
      (h.declare e.scope.rest e.out.pieces).1
      ((h.declare e.scope.rest e.out.pieces).2 ++ [entryLabel, ""]) :=
    hbody.parametersValid hrecord ⟨0, _, le_rfl, List.length_map _, rfl⟩ rfl
      (fun binding hmem _ => hmem) ⟨List.prefix_append _ _, by rw [List.length_append]; rfl⟩
  refine ⟨fun {name equals rest binding} hrest hname hequals hfind => ?_,
    fun binding hmem hneg => ?_, fun hmany binding hmem => ?_⟩
  · by_contra hneg
    have hmem := List.mem_reverse.mp (List.mem_of_find?_eq_some hfind)
    have hfound : binding.name = name.text := by simpa using List.find?_some hfind
    obtain ⟨i, hparameter, hmark, -⟩ := FunctionHeader.declare_read
      (hvalid.parameter binding hmem (not_le.mp hneg)) (not_le.mp hneg)
    have hscan := hvalid.scan hopen
    rw [hrest] at hscan
    have hname' : (h.parameters.map Prod.fst)[i]? = some name.text := by
      rw [List.getElem?_map, hparameter, ← hfound]
      rfl
    have hassigned : (scanAssigned (h.parameters.map Prod.fst) 0 e.scope.rest
        ((h.parameters.map Prod.fst).map fun _ => false))[i]? = some true :=
      hscan.assigned hname hequals hname'
    rw [(markAssignedParameters_eq_false hmark).2, hmark] at hassigned
    cases hassigned
  · obtain ⟨i, hparameter, hmark, hpiece⟩ :=
      FunctionHeader.declare_read (hvalid.parameter binding hmem hneg) hneg
    refine ⟨i, hparameter, hmark, ?_⟩
    obtain ⟨body, hbody⟩ := hvalid.out.1
    obtain ⟨hlt, -⟩ := List.getElem?_eq_some_iff.mp hpiece
    rw [← hbody, List.append_assoc, List.getElem?_append_left hlt, hpiece]
  · by_contra hneg
    obtain ⟨i, -, hmark, -⟩ := FunctionHeader.declare_read
      (hvalid.parameter binding hmem (not_le.mp hneg)) (not_le.mp hneg)
    have hle := (markAssignedParameters_eq_false hmark).1
    rw [List.length_map] at hle
    exact absurd hmany (Nat.not_lt.mpr hle)

end

/-- The body of a function that assigns its first parameter twice and returns the second one. -/
def assignTokens : List Token :=
  [⟨.punctuation, "\x7b", ""⟩, ⟨.name, "a", ""⟩, ⟨.punctuation, "=", ""⟩, ⟨.name, "b", ""⟩,
    ⟨.terminator, "end of line", ""⟩, ⟨.name, "a", ""⟩, ⟨.punctuation, "=", ""⟩, ⟨.integer, "1", ""⟩,
    ⟨.terminator, "end of line", ""⟩, ⟨.name, "return", ""⟩, ⟨.name, "b", ""⟩,
    ⟨.terminator, "end of line", ""⟩, ⟨.punctuation, "\x7d", ""⟩, ⟨.endOfFile, "", ""⟩]

/-- The head of the function. -/
def assignHeader : FunctionHeader := ⟨"g", [("a", 1), ("b", 1)], 1⟩

/-- The state of the compiler behind the opening brace. -/
def assignEmitter : Emitter :=
  let e := (Emitter.start assignTokens []).beginFunction 0 assignHeader
  { e with scope := { e.scope with rest := assignTokens.tail, blocks := [2] } }

/-- What is said of the parameters behind the first assignment, in front of the second one. -/
theorem inBody_parametersKept_assignment : ∃ e', InBody twoSymbols
    ((Emitter.start assignTokens []).beginFunction 0 assignHeader) e' ∧
      e'.scope.rest = assignTokens.drop 5 ∧ ParametersKept assignHeader [true, false] e' := by
  have henter : InBody twoSymbols ((Emitter.start assignTokens []).beginFunction 0 assignHeader)
      assignEmitter :=
    @InBody.enter twoSymbols _ ⟨.punctuation, "\x7b", ""⟩ assignTokens.tail rfl (by decide)
  have hvalue : Emission twoSymbols none (assignEmitter.withRest (assignTokens.drop 3))
      ((assignEmitter.withRest (assignTokens.drop 3)).withRest (assignTokens.drop 5)) :=
    @Emission.mk _ _ _ _ [⟨.name, "b", ""⟩, ⟨.terminator, "end of line", ""⟩] (assignTokens.drop 5)
      .refl (.token (by decide) (by decide) (.token (by decide) (by decide) .nil)) rfl
  have hassign := @BodyStep.assign twoSymbols assignEmitter _ ⟨.name, "a", ""⟩
    ⟨.punctuation, "=", ""⟩ (assignTokens.drop 3) ⟨"a", 1, 0⟩ "%argument.1" ⟨1, none⟩ rfl rfl rfl
    (by decide) rfl (fun h => absurd h (by decide)) hvalue (by decide) rfl
    (fun owner howner => by cases howner)
  have hstep := henter.step (List.cons_ne_nil _ _) hassign
  have hrecord : ¬ twoSymbols.IsRecord "\x7d" := by
    rintro ⟨record, -, hname⟩
    exact absurd (List.mem_of_getElem? hname) (by decide)
  exact ⟨_, hstep, rfl, inBody_parametersKept hrecord hstep (List.cons_ne_nil _ _)⟩

/-- The symbols of `typeTokens`. -/
def typeSymbols : ProgramSymbols where
  names := [['\x7d'], ['\x7b'], ['f']]
  kinds := [2, 2, 1]
  returnTypes := [1000, 1001, 1, 2, 1, 0]
  counts := [0, 1, 2, 0, 0, 1]
  fieldNames := [['x'], ['a'], ['b']]
  fields := [1000, 1, 1001]

/-- Two records that are named by braces, and a function that binds a List of the one and assigns its
first parameter. -/
def typeTokens : List Token :=
  [⟨.name, "record", ""⟩, ⟨.punctuation, "\x7d", ""⟩, ⟨.punctuation, "\x7b", ""⟩,
    ⟨.punctuation, "\x7d", ""⟩, ⟨.terminator, "end of line", ""⟩, ⟨.name, "record", ""⟩,
    ⟨.punctuation, "\x7b", ""⟩, ⟨.punctuation, "\x7b", ""⟩, ⟨.name, "x", ""⟩,
    ⟨.punctuation, ":", ""⟩, ⟨.punctuation, "\x7d", ""⟩, ⟨.punctuation, "\x7d", ""⟩,
    ⟨.terminator, "end of line", ""⟩, ⟨.name, "function", ""⟩, ⟨.name, "f", ""⟩,
    ⟨.punctuation, "(", ""⟩, ⟨.name, "a", ""⟩, ⟨.punctuation, ":", ""⟩, ⟨.name, "Integer", ""⟩,
    ⟨.punctuation, ",", ""⟩, ⟨.name, "b", ""⟩, ⟨.punctuation, ":", ""⟩, ⟨.punctuation, "\x7b", ""⟩,
    ⟨.punctuation, ")", ""⟩, ⟨.punctuation, ":", ""⟩, ⟨.name, "Integer", ""⟩,
    ⟨.punctuation, "\x7b", ""⟩, ⟨.name, "let", ""⟩, ⟨.name, "q", ""⟩, ⟨.punctuation, ":", ""⟩,
    ⟨.name, "List", ""⟩, ⟨.punctuation, "<", ""⟩, ⟨.punctuation, "\x7d", ""⟩,
    ⟨.punctuation, ">", ""⟩, ⟨.punctuation, "=", ""⟩, ⟨.punctuation, "[", ""⟩,
    ⟨.punctuation, "]", ""⟩, ⟨.terminator, "end of line", ""⟩, ⟨.name, "a", ""⟩,
    ⟨.punctuation, "=", ""⟩, ⟨.integer, "2", ""⟩, ⟨.terminator, "end of line", ""⟩,
    ⟨.name, "return", ""⟩, ⟨.name, "a", ""⟩, ⟨.terminator, "end of line", ""⟩,
    ⟨.punctuation, "\x7d", ""⟩, ⟨.terminator, "end of line", ""⟩, ⟨.endOfFile, "", ""⟩]

/-- The function of `typeTokens`. -/
def typeHeader : FunctionHeader := ⟨"f", [("a", 1), ("b", 1001)], 1⟩

/-- The state of the compiler behind the opening brace of that function. -/
def typeEmitter : Emitter where
  table := { generation := 2 }
  out := {
    pieces := ["define ", "i64", " @", "f", "(", "i64", " ", "%argument.0", ", ", "ptr", " ",
      "%argument.1", entryLabel, ""]
    entrySlot := 13 }
  scope := {
    rest := typeTokens.drop 27
    locals := [⟨"a", 1, -8⟩, ⟨"b", 1001, -12⟩]
    blocks := [2]
    nextLocal := 2 }

/-- The scan stops at the type in the body, so it misses the assignment of the first parameter. -/
theorem not_inBody_parametersKept : ¬ ∀ e', InBody typeSymbols
    (((Emitter.start typeTokens []).withRest (typeTokens.drop 26)).beginFunction 0 typeHeader) e' →
      e'.scope.blocks ≠ [] → ParametersKept typeHeader
        (markAssignedParameters ["a", "b"] (typeTokens.drop 26)) e' := by
  intro hall
  have henter : InBody typeSymbols (((Emitter.start typeTokens []).withRest
      (typeTokens.drop 26)).beginFunction 0 typeHeader) typeEmitter :=
    @InBody.enter typeSymbols _ ⟨.punctuation, "\x7b", ""⟩ (typeTokens.drop 27) rfl (by decide)
  have htype : typeSymbols.IsRecord "\x7d" := ⟨0, rfl, by simp [typeSymbols]⟩
  have hheader : ReadsHeader typeSymbols.IsRecord (⟨.name, "let", ""⟩ :: ⟨.name, "q", ""⟩ ::
      ([⟨.punctuation, ":", ""⟩, ⟨.name, "List", ""⟩, ⟨.punctuation, "<", ""⟩,
        ⟨.punctuation, "\x7d", ""⟩, ⟨.punctuation, ">", ""⟩] ++ [⟨.punctuation, "=", ""⟩])) := by
    intro token htoken
    have hall : ∀ token ∈ (⟨.name, "let", ""⟩ : Token) :: ⟨.name, "q", ""⟩ ::
        ([⟨.punctuation, ":", ""⟩, ⟨.name, "List", ""⟩, ⟨.punctuation, "<", ""⟩,
          ⟨.punctuation, "\x7d", ""⟩, ⟨.punctuation, ">", ""⟩] ++ [⟨.punctuation, "=", ""⟩]),
        token.kind ≠ .endOfFile ∧ (punctuationBrace token = none ∨ token.text = "\x7d") := by decide
    refine (hall token htoken).imp_right (Or.imp_right fun htext => ?_)
    rw [htext]
    exact htype
  have hvalue := @Emission.mk typeSymbols none (typeEmitter.withRest (typeTokens.drop 35)) _
    [⟨.punctuation, "[", ""⟩, ⟨.punctuation, "]", ""⟩, ⟨.terminator, "end of line", ""⟩]
    (typeTokens.drop 38)
    (.tail (.tail (.single (@EmissionStep.pieces none _ ["  ", "%value.0",
        " = call ptr @minyar_list_new()\n"] (by decide)))
      (@EmissionStep.keep none _ "%value.0" 101000 (by decide)))
      (@EmissionStep.pieces none _ ["  call void @minyar_list_references(ptr ", "%value.0", ")\n"]
        (by decide)))
    (.token (by decide) (by decide) (.token (by decide) (by decide)
      (.token (by decide) (by decide) .nil))) rfl
  have hlet := @BodyStep.letValue typeSymbols typeEmitter _ _ ⟨.name, "let", ""⟩ ⟨.name, "q", ""⟩
    ⟨.punctuation, "=", ""⟩ [⟨.punctuation, ":", ""⟩, ⟨.name, "List", ""⟩, ⟨.punctuation, "<", ""⟩,
      ⟨.punctuation, "\x7d", ""⟩, ⟨.punctuation, ">", ""⟩] (typeTokens.drop 35) "%value.0"
    ⟨101000, some 17⟩ rfl hheader rfl rfl (by decide) hvalue (by decide)
    (fun _ h => .inr (by cases h; decide))
  have hassigned := @ParametersKept.assigned _ _ _ (hall _ (henter.step (List.cons_ne_nil _ _) hlet)
    (List.cons_ne_nil _ _)) ⟨.name, "a", ""⟩ ⟨.punctuation, "=", ""⟩ (typeTokens.drop 40)
    ⟨"a", 1, -8⟩ rfl rfl rfl rfl
  exact absurd hassigned (by decide)

end Minyar

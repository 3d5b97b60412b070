import Minyar.Compiler.SlotRuns

/-!
# Functions with owner slots

A function starts with an empty generation of the map, and its entry is written behind its body, with
the number of owners that the body came to.  So every function of a program, whatever the earlier
ones left in the map, gives its locals slots of its own and enters with as many owners as its calls
need, when no field of a record is named `\x7b` and no record `\x7d`.
-/

namespace Minyar

/-! ## The start of a function -/

/-- The parameters extend the output, and their locals are the first ones. -/
theorem addParameters_spec (marks : List Bool) (parameters : List (String × ℕ)) (index : ℕ)
    (pieces : List String) :
    pieces <+: (addParameters marks index parameters pieces).2 ∧
      ∀ binding ∈ (addParameters marks index parameters pieces).1,
        binding.id < index + parameters.length := by
  induction parameters generalizing index pieces with
  | nil => exact ⟨List.prefix_refl pieces, nofun⟩
  | cons parameter parameters ih =>
    obtain ⟨name, type⟩ := parameter
    have hcomma : pieces <+: if 0 < index then pieces ++ [", "] else pieces := by
      split_ifs
      · exact List.prefix_append _ _
      · exact List.prefix_refl _
    obtain ⟨hextends, hids⟩ := ih (index + 1)
      (((if 0 < index then pieces ++ [", "] else pieces) ++ [llvmType type, " "]) ++
        ["%argument." ++ toString index])
    refine ⟨(hcomma.trans ((List.prefix_append _ _).trans (List.prefix_append _ _))).trans hextends,
      List.forall_mem_cons.mpr ⟨?_, fun binding hmem => ?_⟩⟩
    · rw [List.length_cons]
      dsimp only
      split_ifs <;> omega
    · have := hids binding hmem
      rw [List.length_cons]
      omega

/-- The stores of the parameters start no slot call. -/
theorem plainPiece_parameterStores {locals : List LocalBinding} :
    ∀ piece ∈ parameterStores locals, PlainPiece piece := by
  intro piece hmem
  obtain ⟨pieces, hpieces, hmem⟩ := List.mem_flatten.mp hmem
  obtain ⟨⟨binding, index⟩, -, rfl⟩ := List.mem_map.mp hpieces
  have hnumber : PlainPiece (toString index) := plainPiece_toString (index : ℤ)
  have htype := plainPiece_llvmType binding.type
  dsimp only at hmem
  split_ifs at hmem
  · have hstores : ∀ piece ∈ ["  %local.", toString index, " = alloca ", llvmType binding.type,
        "\n", "  store ", llvmType binding.type, " %argument.", toString index, ", ptr %local.",
        toString index, "\n"], PlainPiece piece := by
      simp only [List.forall_mem_cons]
      exact ⟨by decide, hnumber, by decide, htype, by decide, by decide, htype, by decide, hnumber,
        by decide, hnumber, by decide, nofun⟩
    exact hstores piece hmem
  · cases hmem

/-- The head of a definition extends the output. -/
theorem FunctionHeader.declare_spec (h : FunctionHeader) (body : List Token)
    (pieces : List String) :
    pieces <+: (h.declare body pieces).2 ∧
      ∀ binding ∈ (h.declare body pieces).1, binding.id < h.parameters.length := by
  unfold declare
  split_ifs
  · exact ⟨List.prefix_append _ _, nofun⟩
  · obtain ⟨hextends, hids⟩ := addParameters_spec
      (markAssignedParameters (h.parameters.map Prod.fst) body) h.parameters 0
      (pieces ++ ["define ", llvmType h.returnType, " @", h.name, "("])
    exact ⟨(List.prefix_append _ _).trans hextends, by simpa using hids⟩

/-- What a function does first starts no slot call. -/
theorem FunctionHeader.plainPiece_initialize (h : FunctionHeader) (locals : List LocalBinding) :
    ∀ piece ∈ h.initialize locals, PlainPiece piece := by
  refine List.forall_mem_append.mpr ⟨?_, plainPiece_parameterStores⟩
  split_ifs
  · exact List.forall_mem_singleton.mpr (by decide)
  · nofun

/-- A function starts with what holds between its statements. -/
theorem Emitter.beginFunction_bodyValid {e : Emitter} {nextLocal : ℕ}
    (h : e.table.Valid nextLocal) (limit : ℕ) (header : FunctionHeader) :
    (e.beginFunction limit header).BodyValid
      ((header.declare e.scope.rest e.out.pieces).2 ++ [entryLabel, ""]) := by
  refine ⟨⟨h.reset _, ?_⟩, ⟨?_, nofun, List.Pairwise.nil, fun _ _ _ _ hmem => ?_⟩, neg_one_lt_zero⟩
  · refine ⟨_, rfl, ?_, .of_plain (header.plainPiece_initialize _)⟩
    rw [List.length_append]
    rfl
  · exact (header.declare_spec e.scope.rest e.out.pieces).2
  · exact absurd hmem List.not_mem_nil

/-! ## The end of a function -/

/-- The entry of a function with owners. -/
def EntersWith (owners : ℕ) (entry : String) : Prop :=
  ∃ enter ∈ [enterCall owners, enterStackCall owners], ∃ rest, entry = stackEntry ++ enter ++ rest

namespace Output

variable {o : Output} {head : List String} {label : String} {owners : ℕ}

/-- A finished function: its entry is in its piece, and enters with the owners. -/
def Finished (o : Output) (head : List String) (owners : ℕ) : Prop :=
  ∃ label entry body, o.pieces = head ++ label :: entry :: body ∧ o.entrySlot = head.length + 1 ∧
    PiecesValid owners (o.references = true) body ∧
    (o.references = true → EntersWith owners entry)

/-- A piece that starts with a blank is no number. -/
theorem ne_toString_of_blank {piece : String} (h : piece.toList.head? = some ' ') (slot : ℕ) :
    piece ≠ toString (slot : ℤ) := by
  refine ne_toString (fun c hc => ?_) slot
  rw [h] at hc
  cases hc
  decide

/-- The replaced pieces of the body. -/
theorem pieces_mapBody {base body : List String} (hpieces : o.pieces = base ++ body)
    (hlength : base.length = o.entrySlot + 1) (f : String → String) :
    (o.mapBody f).pieces = base ++ body.map f := by
  rw [mapBody, hpieces, ← hlength, List.take_left, List.drop_left]

/-- The replaced piece of the entry. -/
theorem set_entry (entry entry' : String) (body : List String) :
    (head ++ label :: entry :: body).set (head.length + 1) entry' =
      head ++ label :: entry' :: body := set_body 1 entry'

/-- `finishFunctionEntry`. -/
theorem Valid.finishFunctionEntry (h : o.Valid (head ++ [label, ""]) owners False)
    (locals parameters : ℕ) :
    (o.finishFunctionEntry locals parameters owners).Finished head owners := by
  obtain ⟨body, hpieces, hlength, hbody⟩ := h
  have hslot : o.entrySlot = head.length + 1 := by
    rw [List.length_append] at hlength
    exact (Nat.succ_injective hlength).symm
  have hbody : PiecesValid owners (o.references = true) body :=
    hbody.mono le_rfl fun hrooted => hrooted.resolve_right id
  simp only [Output.finishFunctionEntry]
  generalize String.join (List.map _ _) = allocas
  by_cases hreferences : o.references = true
  · simp only [if_pos hreferences]
    refine ⟨label, stackEntry ++ enterCall owners ++ allocas, body, ?_, hslot, hbody, fun _ =>
      ⟨enterCall owners, List.mem_cons_self, allocas, rfl⟩⟩
    rw [hpieces, hslot, List.append_assoc]
    exact set_entry _ _ _
  · simp only [if_neg hreferences]
    refine ⟨label, stackEntry ++ "" ++ allocas, body.map fun piece =>
      if piece = rcStep ∨ piece = rcLeave then "" else piece, ?_, hslot, hbody.map fun piece => ?_,
      fun hrooted => absurd hrooted hreferences⟩
    · rw [pieces_mapBody hpieces hlength, List.append_assoc]
      change List.set _ o.entrySlot _ = _
      rw [hslot]
      exact set_entry _ _ _
    · split_ifs with hpiece
      · refine .inr ⟨by decide, ne_toString_of_blank ?_⟩
        rcases hpiece with rfl | rfl <;> simp [rcStep, rcLeave]
      · exact .inl rfl

/-- `finishStackOwnership`. -/
theorem Finished.finishStackOwnership (h : o.Finished head owners) :
    (o.finishStackOwnership owners).Finished head owners := by
  obtain ⟨label, entry, body, hpieces, hslot, hbody, -⟩ := h
  simp only [Output.finishStackOwnership]
  generalize String.ofList (List.drop _ _) = others
  have hset : ((o.pieces.set o.entrySlot (stackEntry ++ enterStackCall owners ++ others)).set
      (o.entrySlot - 1) ") noinline \x7b\nentry:\n") = (head ++ [") noinline \x7b\nentry:\n",
        stackEntry ++ enterStackCall owners ++ others]) ++ body := by
    rw [hpieces, hslot, set_entry, Nat.add_sub_cancel, List.append_assoc]
    exact set_body 0 _
  refine ⟨_, _, _, (pieces_mapBody hset (by rw [hslot, List.length_append]; rfl) _).trans
    (List.append_assoc _ _ _), hslot, hbody.map fun piece => ?_, fun _ =>
      ⟨enterStackCall owners, List.mem_cons_of_mem _ List.mem_cons_self, others, rfl⟩⟩
  split_ifs with hpiece
  · refine .inr ⟨by decide, ne_toString_of_blank ?_⟩
    rw [hpiece]
    simp [rcLeave]
  · exact .inl rfl

/-- More pieces. -/
theorem Finished.add (h : o.Finished head owners) {pieces : List String}
    (hplain : ∀ piece ∈ pieces, PlainPiece piece) : (o.add pieces).Finished head owners := by
  obtain ⟨label, entry, body, hpieces, hslot, hbody, henters⟩ := h
  refine ⟨label, entry, body ++ pieces, ?_, hslot, hbody.append (.of_plain hplain), henters⟩
  rw [Output.add, hpieces, List.append_assoc, List.cons_append, List.cons_append]

end Output

/-- The end of a function: the entry has the owners that the body came to. -/
theorem Emitter.endFunction_finished {e : Emitter} {head : List String} {label : String}
    {nextLocal : ℕ} (h : e.Valid (head ++ [label, ""]) False nextLocal) (limit : ℕ)
    (header : FunctionHeader) (returns : Bool) :
    (e.endFunction limit header returns).out.Finished head e.table.owners := by
  have hbody : (e.finishBody header returns).Valid (head ++ [label, ""]) e.table.owners False := by
    unfold finishBody
    split_ifs
    · exact h.out
    · exact h.out.add (.of_plain (by decide))
    · exact h.out.add (.of_plain (by decide))
  have hentry := hbody.finishFunctionEntry e.scope.nextLocal header.parameters.length
  refine Output.Finished.add ?_ (by decide)
  split_ifs with hstack
  · exact hentry.finishStackOwnership
  · exact hentry

/-! ## Programs -/

/-- What is said of the slots of a function. -/
structure CompiledFunction.SlotsCorrect (f : CompiledFunction) : Prop where
  /-- Behind every slot call there is the number of a slot, and the function enters with its
  owners. -/
  call : ∀ {i : ℕ} {piece}, f.body[i]? = some piece → piece ∈ slotCalls →
    EntersWith f.owners f.entry ∧ ∃ slot < f.owners, f.body[i + 1]? = some (toString (slot : ℤ))
  /-- A local has one slot. -/
  same : ∀ {id v v'}, (id, v) ∈ f.answers → (id, v') ∈ f.answers → v = v'
  /-- Locals have different slots. -/
  distinct : ∀ {id id' v}, (id, v) ∈ f.answers → (id', v) ∈ f.answers → 0 ≤ v → id = id'
  /-- A slot is below the number of owners. -/
  lt_owners : ∀ {id v}, (id, v) ∈ f.answers → v < f.owners
  /-- Exactly the marked locals have none. -/
  neg_iff : ∀ {id v}, (id, v) ∈ f.answers → (v < 0 ↔ id ∈ f.scalars)
  /-- The slots were given out in this function, in their order. -/
  ordered : SlotTable.AnswersOrdered f.answers

/-- The map at the end of a function. -/
theorem SlotTable.Valid.slotsCorrect {t : SlotTable} {nextLocal : ℕ} (h : t.Valid nextLocal)
    {front body : List String} {entry : String} {references : Prop}
    (hbody : PiecesValid t.owners references body)
    (henters : references → EntersWith t.owners entry) :
    CompiledFunction.SlotsCorrect ⟨front, entry, body, t.owners, t.answers, t.scalars⟩ where
  call hpiece hmem := ⟨henters (hbody.rooted hpiece hmem), hbody.number hpiece hmem⟩
  same hmem hmem' := Option.some.inj ((h.answered hmem).symm.trans (h.answered hmem'))
  distinct hmem hmem' := h.inj (h.answered hmem) (h.answered hmem')
  lt_owners hmem := h.lt_owners (h.answered hmem)
  neg_iff hmem := h.neg_iff (h.answered hmem)
  ordered := h.ordered

/-- The parts of a finished function. -/
theorem Emitter.compiled_eq {e : Emitter} {start more body : List String} {label entry : String}
    (hpieces : e.out.pieces = start ++ more ++ label :: entry :: body)
    (hslot : e.out.entrySlot = (start ++ more).length + 1) : e.compiled start.length =
      ⟨more ++ [label], entry, body, e.table.owners, e.table.answers, e.table.scalars⟩ := by
  have hsplit : e.out.pieces = (start ++ (more ++ [label])) ++ entry :: body := by
    rw [hpieces]
    simp
  have hlength : e.out.entrySlot = (start ++ (more ++ [label])).length := by
    rw [hslot]
    simp [Nat.add_assoc]
  unfold compiled
  rw [hsplit, hlength, List.take_left, List.drop_left, List.getD_append_right _ _ _ _ le_rfl,
    Nat.sub_self, ← List.drop_drop, List.drop_left]
  rfl

/-- Every function that is compiled behind others. -/
theorem CompilesFunctions.slotsCorrect {p : ProgramSymbols} {limit : ℕ} {e e' : Emitter}
    {fs : List CompiledFunction} (hrun : CompilesFunctions p limit e fs e')
    (hfield : ¬ p.IsField "\x7b") (hrecord : ¬ p.IsRecord "\x7d") {nextLocal : ℕ}
    (h : e.table.Valid nextLocal) : (∀ f ∈ fs, f.SlotsCorrect) ∧
      e'.out.pieces = e.out.pieces ++ (fs.map CompiledFunction.pieces).flatten := by
  induction hrun generalizing nextLocal with
  | done e => exact ⟨nofun, (List.append_nil _).symm⟩
  | skip rest _ ih => exact ih h
  | @function e e₁ e' fs header hmain hbody hclosed returns hreturns _ ih =>
    have hend : e₁.BodyValid ((header.declare e.scope.rest e.out.pieces).2 ++ [entryLabel, ""]) :=
      bodySteps_bodyValid hfield hrecord hbody (e.beginFunction_bodyValid h limit header)
    obtain ⟨⟨more, hmore⟩, -⟩ := header.declare_spec e.scope.rest e.out.pieces
    obtain ⟨label, entry, body, hpieces, hslot, hvalid, henters⟩ :=
      e₁.endFunction_finished hend.valid limit header returns
    rw [← hmore] at hpieces hslot
    have htable : (e₁.endFunction limit header returns).table = e₁.table := rfl
    obtain ⟨hall, hout⟩ := ih (htable ▸ hend.valid.table)
    rw [Emitter.compiled_eq hpieces hslot]
    refine ⟨List.forall_mem_cons.mpr ⟨?_, hall⟩, ?_⟩
    · exact hend.valid.table.slotsCorrect hvalid henters
    · rw [hout, hpieces]
      simp [CompiledFunction.pieces]

/-- The map at the start of `compileFunctions` is empty. -/
theorem SlotTable.valid_empty : SlotTable.Valid {} 0 where
  generation_nonneg := by decide
  tags key := by
    rw [List.getD_nil]
    exact (by decide : (-1 : ℤ) ≤ 1)
  lt_nextLocal := nofun
  lt_owners := nofun
  inj := nofun
  neg_iff := nofun
  marked hmem := absurd hmem List.not_mem_nil
  answered hmem := absurd hmem List.not_mem_nil
  allocated hslot := absurd hslot (Nat.not_lt_zero _)
  ordered := nofun

/-- Every function of a program, when no field of a record is named `\x7b` and no record `\x7d`: a
local has one slot, which is given out in the function and no other local has; exactly the replaced
records have none; every slot call has a slot below the owners that the function enters with.  And
the output consists of these functions. -/
theorem compilesFunctions_slots {p : ProgramSymbols} {limit : ℕ} {tokens : List Token}
    {pieces : List String} {fs : List CompiledFunction} {e' : Emitter}
    (hfield : ¬ p.IsField "\x7b") (hrecord : ¬ p.IsRecord "\x7d")
    (hrun : CompilesFunctions p limit (.start tokens pieces) fs e') :
    (∀ f ∈ fs, f.SlotsCorrect) ∧
      e'.out.pieces = pieces ++ (fs.map CompiledFunction.pieces).flatten :=
  hrun.slotsCorrect hfield hrecord SlotTable.valid_empty

/-- A state of the compiler in a function whose parameters are none. -/
def bodyEmitter (tokens : List Token) (name type : String) (table : SlotTable) (body : List String)
    (references : Bool) (read : ℕ) (locals : List LocalBinding) (cost : ℕ) : Emitter where
  table := table
  out := {
    pieces := ["define ", type, " @", name, "(", entryLabel, ""] ++ body
    entrySlot := 6
    references := references }
  scope := {
    rest := tokens.drop read
    locals := locals
    blocks := [0]
    nextLocal := locals.length }
  scanCost := cost

/-- A `let` without a type. -/
theorem readsHeader_let (p : ProgramSymbols) (name : String)
    (hname : punctuationBrace ⟨.name, name, ""⟩ = none) :
    ReadsHeader p.IsRecord [⟨.name, "let", ""⟩, ⟨.name, name, ""⟩, ⟨.punctuation, "=", ""⟩] := by
  intro token htoken
  simp only [List.mem_cons, List.not_mem_nil, or_false] at htoken
  rcases htoken with rfl | rfl | rfl
  · exact ⟨by decide, .inl (by decide)⟩
  · refine ⟨fun h => ?_, .inl hname⟩
    cases h
  · exact ⟨by decide, .inl (by decide)⟩

/-- The symbols of `twoTokens`. -/
def twoSymbols : ProgramSymbols where
  names := [['P', 'a', 'i', 'r'], ['g'], ['h']]
  kinds := [2, 1, 1]
  returnTypes := [1000, 5, 5, 0, 1, 2]
  counts := [1, 0, 0, 0, 1, 1]
  fieldNames := [['x']]
  fields := [1]

/-- A function with a record that is replaced, and one that binds a Text. -/
def twoTokens : List Token :=
  [⟨.name, "record", ""⟩, ⟨.name, "Pair", ""⟩, ⟨.punctuation, "\x7b", ""⟩, ⟨.name, "x", ""⟩,
    ⟨.punctuation, ":", ""⟩, ⟨.name, "Integer", ""⟩, ⟨.punctuation, "\x7d", ""⟩,
    ⟨.terminator, "end of line", ""⟩, ⟨.name, "function", ""⟩, ⟨.name, "g", ""⟩,
    ⟨.punctuation, "(", ""⟩, ⟨.punctuation, ")", ""⟩, ⟨.punctuation, "\x7b", ""⟩,
    ⟨.name, "let", ""⟩, ⟨.name, "p", ""⟩, ⟨.punctuation, "=", ""⟩, ⟨.name, "Pair", ""⟩,
    ⟨.punctuation, "\x7b", ""⟩, ⟨.name, "x", ""⟩, ⟨.punctuation, ":", ""⟩, ⟨.integer, "5", ""⟩,
    ⟨.punctuation, "\x7d", ""⟩, ⟨.terminator, "end of line", ""⟩, ⟨.punctuation, "\x7d", ""⟩,
    ⟨.terminator, "end of line", ""⟩, ⟨.name, "function", ""⟩, ⟨.name, "h", ""⟩,
    ⟨.punctuation, "(", ""⟩, ⟨.punctuation, ")", ""⟩, ⟨.punctuation, "\x7b", ""⟩,
    ⟨.name, "let", ""⟩, ⟨.name, "t", ""⟩, ⟨.punctuation, "=", ""⟩, ⟨.text, "a", ""⟩,
    ⟨.terminator, "end of line", ""⟩, ⟨.punctuation, "\x7d", ""⟩, ⟨.terminator, "end of line", ""⟩,
    ⟨.endOfFile, "", ""⟩]

/-- The state of the compiler in the first function. -/
def firstEmitter (table : SlotTable) (body : List String) : ℕ → List LocalBinding → ℕ → Emitter :=
  bodyEmitter twoTokens "g" "void" table body false

/-- The output of its `let`. -/
def firstLet : List String := ["; scalar record 0\n", "; ", "5", "\n", "  store ", "ptr", " ",
  "null", ", ptr %local.", "0", "\n"]

/-- The record. -/
theorem twoSymbols_record : twoSymbols.record ⟨.name, "Pair", ""⟩ = 0 := by
  simp [ProgramSymbols.record, findCompiledSymbol, findSortedSymbol, searchSymbol, twoSymbols,
    compareWanted, compareText]

/-- The scan that lets the record be replaced. -/
theorem twoTokens_prepare : ((firstEmitter ⟨2, 0, [], [], []⟩ [] 13 [] 0).withRest
    (twoTokens.drop 16)).prepare twoSymbols "p" =
      some { firstEmitter ⟨2, 0, [], [], []⟩ [] 16 [] 8 with scalarLocal := 0 } := by
  change Emitter.prepareScalarRecord twoSymbols _ ⟨.name, "Pair", ""⟩ "p" = _
  unfold Emitter.prepareScalarRecord
  rw [twoSymbols_record]
  rfl

/-- The `let` of the record. -/
theorem twoTokens_let : BodyStep twoSymbols (firstEmitter ⟨2, 0, [], [], []⟩ [] 13 [] 0)
    (firstEmitter ⟨2, 0, [2, -10], [(0, -10)], [0]⟩ firstLet 22 [⟨"p", 1000, 0⟩] 8) := by
  have hfields : ReadsExpression twoSymbols.IsField
      [⟨.name, "x", ""⟩, ⟨.punctuation, ":", ""⟩, ⟨.integer, "5", ""⟩] :=
    .token (by decide) (by decide)
      (.token (by decide) (by decide) (.token (by decide) (by decide) .nil))
  have hsteps : Relation.ReflTransGen (EmissionStep none)
      (({ firstEmitter ⟨2, 0, [], [], []⟩ [] 16 [] 8 with scalarLocal := 0 } :
        Emitter).recordScalars
          (twoSymbols.counts.getD (twoSymbols.record ⟨.name, "Pair", ""⟩).toNat 0))
      (firstEmitter ⟨2, 0, [2, -10], [], [0]⟩ ["; scalar record 0\n", "; ", "5", "\n"] 16 []
        8) := by
    have hrecord : ({ firstEmitter ⟨2, 0, [], [], []⟩ [] 16 [] 8 with scalarLocal := 0 } :
        Emitter).recordScalars 1 = firstEmitter ⟨2, 0, [2, -10], [], [0]⟩
          ["; scalar record 0\n", "; ", "", "\n"] 16 [] 8 := rfl
    rw [twoSymbols_record]
    refine .single (hrecord ▸ ?_)
    exact @EmissionStep.fill none (firstEmitter ⟨2, 0, [2, -10], [], [0]⟩
      ["; scalar record 0\n", "; ", "", "\n"] 16 [] 8) 9 "5" (by decide) rfl (by decide)
  have hbound : ((firstEmitter ⟨2, 0, [2, -10], [], [0]⟩ ["; scalar record 0\n", "; ", "5", "\n"]
      22 [] 8).bindLocal "p" "null"
        ⟨1000 + (twoSymbols.record ⟨.name, "Pair", ""⟩).toNat, some (-1)⟩) =
      firstEmitter ⟨2, 0, [2, -10], [(0, -10)], [0]⟩ firstLet 22 [⟨"p", 1000, 0⟩] 8 := by
    rw [twoSymbols_record]
    rfl
  rw [← hbound]
  exact @BodyStep.letScalar twoSymbols _ _ _ _ _ _ _ _ _ [] _ (twoTokens.drop 16)
    (twoTokens.drop 22) rfl (readsHeader_let _ "p" (by decide)) rfl twoTokens_prepare (by decide) rfl
    rfl (by decide) (by decide) hfields hsteps

/-- The end of the first function. -/
def firstEnd : Emitter :=
  { firstEmitter ⟨2, 0, [2, -10], [(0, -10), (0, -10)], [0]⟩ firstLet 24 [] 8 with
    scope := { rest := twoTokens.drop 24, nextLocal := 1 } }

/-- The body of the first function. -/
theorem firstBody : Relation.ReflTransGen (BodyStep twoSymbols)
    (((Emitter.start twoTokens []).withRest (twoTokens.drop 12)).beginFunction 1 ⟨"g", [], 5⟩)
    firstEnd := by
  have hopen : BodyStep twoSymbols
      (((Emitter.start twoTokens []).withRest (twoTokens.drop 12)).beginFunction 1 ⟨"g", [], 5⟩)
      (firstEmitter ⟨2, 0, [], [], []⟩ [] 13 [] 0) :=
    @BodyStep.openBlock twoSymbols _ ⟨.punctuation, "\x7b", ""⟩ (twoTokens.drop 13) rfl (by decide)
  have hline : BodyStep twoSymbols
      (firstEmitter ⟨2, 0, [2, -10], [(0, -10)], [0]⟩ firstLet 22 [⟨"p", 1000, 0⟩] 8)
      (firstEmitter ⟨2, 0, [2, -10], [(0, -10)], [0]⟩ firstLet 23 [⟨"p", 1000, 0⟩] 8) :=
    .other (@Emission.mk twoSymbols none _ _ [⟨.terminator, "end of line", ""⟩]
      (twoTokens.drop 23) .refl (.token (by decide) (by decide) .nil) rfl)
  have hclose := @BodyStep.closeBlock twoSymbols
    (firstEmitter ⟨2, 0, [2, -10], [(0, -10)], [0]⟩ firstLet 23 [⟨"p", 1000, 0⟩] 8) _
    ⟨.punctuation, "\x7d", ""⟩ (twoTokens.drop 24) 0 [] rfl (by decide) rfl false
    (fun binding hmem => by
      rw [List.mem_singleton.mp hmem]
      exact fun _ => le_rfl) rfl
  exact (((Relation.ReflTransGen.single hopen).tail twoTokens_let).tail hline).tail hclose

/-- The state of the compiler behind the opening brace of the second function. -/
def secondEmitter : Emitter :=
  let e := ((firstEnd.endFunction 1 ⟨"g", [], 5⟩ false).withRest (twoTokens.drop 29)).beginFunction 1
    ⟨"h", [], 5⟩
  { e with scope := { e.scope with rest := twoTokens.drop 30, blocks := [0] } }

/-- The body of the second function: the Text gets a slot of the new generation. -/
theorem secondBody : ∃ e, Relation.ReflTransGen (BodyStep twoSymbols)
    (((firstEnd.endFunction 1 ⟨"g", [], 5⟩ false).withRest (twoTokens.drop 29)).beginFunction 1
      ⟨"h", [], 5⟩) e ∧ e.scope.blocks = [] ∧ e.table = ⟨3, 1, [3, 0], [(0, 0), (0, 0)], []⟩ := by
  have hopen : BodyStep twoSymbols
      (((firstEnd.endFunction 1 ⟨"g", [], 5⟩ false).withRest (twoTokens.drop 29)).beginFunction 1
        ⟨"h", [], 5⟩) secondEmitter :=
    @BodyStep.openBlock twoSymbols _ ⟨.punctuation, "\x7b", ""⟩ (twoTokens.drop 30) rfl (by decide)
  have hvalue : Emission twoSymbols none (secondEmitter.withRest (twoTokens.drop 33))
      ((secondEmitter.withRest (twoTokens.drop 33)).withRest (twoTokens.drop 35)) :=
    @Emission.mk _ _ _ _ [⟨.text, "a", ""⟩, ⟨.terminator, "end of line", ""⟩] (twoTokens.drop 35)
      .refl (.token (by decide) (by decide) (.token (by decide) (by decide) .nil)) rfl
  have hlet := @BodyStep.letValue twoSymbols secondEmitter _ _ ⟨.name, "let", ""⟩ ⟨.name, "t", ""⟩
    ⟨.punctuation, "=", ""⟩ [] (twoTokens.drop 33) "@.text.33" ⟨2, none⟩ rfl
    (readsHeader_let _ "t" (by decide)) rfl rfl (by decide) hvalue (by decide) nofun
  have hclose := @BodyStep.closeBlock twoSymbols _ _ ⟨.punctuation, "\x7d", ""⟩
    (twoTokens.drop 36) 0 [] (show (((secondEmitter.withRest (twoTokens.drop 33)).withRest
      (twoTokens.drop 35)).bindLocal "t" "@.text.33" ⟨2, none⟩).scope.rest = _ from rfl) (by decide)
    rfl false
    (fun binding hmem => by
      rw [List.mem_singleton.mp hmem]
      exact fun _ => le_rfl) rfl
  exact ⟨_, ((Relation.ReflTransGen.single hopen).tail hlet).tail hclose, rfl, rfl⟩

/-- Both functions have correct slots: the local 0 is a replaced record in the first one and has the
slot 0 in the second one. -/
theorem compilesFunctions_slots_two : ∃ f g e',
    CompilesFunctions twoSymbols 1 (.start twoTokens []) [f, g] e' ∧
      (f.owners = 0 ∧ f.scalars = [0]) ∧ (g.owners = 1 ∧ g.answers = [(0, 0), (0, 0)]) ∧
        f.SlotsCorrect ∧ g.SlotsCorrect := by
  obtain ⟨e, hsecond, hblocks, htable⟩ := secondBody
  have hg := @CompilesFunctions.function twoSymbols 1
    ((firstEnd.endFunction 1 ⟨"g", [], 5⟩ false).withRest (twoTokens.drop 29)) e _ [] ⟨"h", [], 5⟩
    (fun _ => rfl) hsecond hblocks false (fun _ => .inr rfl) (.done _)
  have hf := @CompilesFunctions.function twoSymbols 1
    ((Emitter.start twoTokens []).withRest (twoTokens.drop 12)) _ _ _ ⟨"g", [], 5⟩
    (fun _ => rfl) firstBody rfl false (fun _ => .inr rfl) (.skip (twoTokens.drop 29) hg)
  have hrun := CompilesFunctions.skip (twoTokens.drop 12) hf
  have hfield : ¬ twoSymbols.IsField "\x7b" := by
    rintro ⟨record, field, -, -, hname⟩
    exact absurd (List.mem_of_getElem? hname) (by decide)
  have hrecord : ¬ twoSymbols.IsRecord "\x7d" := by
    rintro ⟨record, -, hname⟩
    exact absurd (List.mem_of_getElem? hname) (by decide)
  obtain ⟨hcorrect, -⟩ := compilesFunctions_slots hfield hrecord hrun
  exact ⟨_, _, _, hrun, ⟨rfl, rfl⟩,
    ⟨congrArg SlotTable.owners htable, congrArg SlotTable.answers htable⟩,
    hcorrect _ List.mem_cons_self, hcorrect _ (List.mem_cons_of_mem _ List.mem_cons_self)⟩

/-- The symbols of `braceTokens`. -/
def braceSymbols : ProgramSymbols where
  names := [['P', 'a', 'i', 'r'], ['f']]
  kinds := [2, 1]
  returnTypes := [1000, 1, 0, 1]
  counts := [1, 0, 0, 1]
  fieldNames := [['\x7b']]
  fields := [1]

/-- The record `Pair` with a field that is named by the Text `"\x7b"`, and a function that builds it
twice, first with the brace itself for the name. -/
def braceTokens : List Token :=
  [⟨.name, "record", ""⟩, ⟨.name, "Pair", ""⟩, ⟨.punctuation, "\x7b", ""⟩, ⟨.text, "\x7b", ""⟩,
    ⟨.punctuation, ":", ""⟩, ⟨.name, "Integer", ""⟩, ⟨.punctuation, "\x7d", ""⟩,
    ⟨.terminator, "end of line", ""⟩, ⟨.name, "function", ""⟩, ⟨.name, "f", ""⟩,
    ⟨.punctuation, "(", ""⟩, ⟨.punctuation, ")", ""⟩, ⟨.punctuation, ":", ""⟩,
    ⟨.name, "Integer", ""⟩, ⟨.punctuation, "\x7b", ""⟩, ⟨.name, "let", ""⟩, ⟨.name, "p", ""⟩,
    ⟨.punctuation, "=", ""⟩, ⟨.name, "Pair", ""⟩, ⟨.punctuation, "\x7b", ""⟩,
    ⟨.punctuation, "\x7b", ""⟩, ⟨.punctuation, ":", ""⟩, ⟨.integer, "5", ""⟩,
    ⟨.punctuation, "\x7d", ""⟩, ⟨.terminator, "end of line", ""⟩, ⟨.name, "p", ""⟩,
    ⟨.punctuation, "=", ""⟩, ⟨.name, "Pair", ""⟩, ⟨.punctuation, "\x7b", ""⟩, ⟨.text, "\x7b", ""⟩,
    ⟨.punctuation, ":", ""⟩, ⟨.integer, "6", ""⟩, ⟨.punctuation, "\x7d", ""⟩,
    ⟨.terminator, "end of line", ""⟩, ⟨.name, "return", ""⟩, ⟨.integer, "0", ""⟩,
    ⟨.terminator, "end of line", ""⟩, ⟨.punctuation, "\x7d", ""⟩, ⟨.terminator, "end of line", ""⟩,
    ⟨.punctuation, "\x7d", ""⟩, ⟨.terminator, "end of line", ""⟩, ⟨.endOfFile, "", ""⟩]

/-- The state of the compiler in the function of `braceTokens`. -/
def braceEmitter : SlotTable → List String → Bool → ℕ → List LocalBinding → ℕ → Emitter :=
  bodyEmitter braceTokens "f" "i64"

/-- The output of the `let`: the record is replaced. -/
def braceLet : List String := ["; scalar record 0\n", "; ", "5", "\n", "  store ", "ptr", " ",
  "null", ", ptr %local.", "0", "\n"]

/-- The output of the assignment: the call has a number that is no slot. -/
def braceAssignment : List String := ["  ", "%value.0",
  " = call ptr @minyar_record_new_scalar(i64 ", "1", ")\n", "", "", "",
  "  call void @minyar_record_set_scalar(ptr ", "%value.0", ", i64 ", "0", ", i64 ", "6", ")\n",
  localTakeCall, "-10", ", ptr ", "%value.0", ")\n", "  store ", "ptr", " ", "%value.0",
  ", ptr %local.", "0", "\n"]

/-- The field. -/
theorem braceSymbols_isField : braceSymbols.IsField "\x7b" :=
  ⟨0, 0, rfl, by decide, by simp [braceSymbols, functionParameterOffset]⟩

/-- The record. -/
theorem braceSymbols_record : braceSymbols.record ⟨.name, "Pair", ""⟩ = 0 := by
  simp [ProgramSymbols.record, findCompiledSymbol, findSortedSymbol, searchSymbol, braceSymbols,
    compareWanted, compareText]

/-- The scan that lets the record be replaced: it takes the name of the field for a brace and the end
of the function for the end of the literal. -/
theorem braceTokens_prepare : ((braceEmitter ⟨2, 0, [], [], []⟩ [] false 15 [] 0).withRest
    (braceTokens.drop 18)).prepare braceSymbols "p" =
      some { braceEmitter ⟨2, 0, [], [], []⟩ [] false 18 [] 8 with scalarLocal := 0 } := by
  change Emitter.prepareScalarRecord braceSymbols _ ⟨.name, "Pair", ""⟩ "p" = _
  unfold Emitter.prepareScalarRecord
  rw [braceSymbols_record]
  rfl

/-- The `let`. -/
theorem braceTokens_let : BodyStep braceSymbols (braceEmitter ⟨2, 0, [], [], []⟩ [] false 15 [] 0)
    (braceEmitter ⟨2, 0, [2, -10], [(0, -10)], [0]⟩ braceLet false 24 [⟨"p", 1000, 0⟩] 8) := by
  have hfields : ReadsExpression braceSymbols.IsField
      [⟨.punctuation, "\x7b", ""⟩, ⟨.punctuation, ":", ""⟩, ⟨.integer, "5", ""⟩] :=
    .field (by decide) (by decide) braceSymbols_isField
      (.token (by decide) (by decide) (.token (by decide) (by decide) .nil))
  have hsteps : Relation.ReflTransGen (EmissionStep none)
      (({ braceEmitter ⟨2, 0, [], [], []⟩ [] false 18 [] 8 with scalarLocal := 0 } :
        Emitter).recordScalars
          (braceSymbols.counts.getD (braceSymbols.record ⟨.name, "Pair", ""⟩).toNat 0))
      (braceEmitter ⟨2, 0, [2, -10], [], [0]⟩ ["; scalar record 0\n", "; ", "5", "\n"] false 18 []
        8) := by
    have hrecord : ({ braceEmitter ⟨2, 0, [], [], []⟩ [] false 18 [] 8 with scalarLocal := 0 } :
        Emitter).recordScalars 1 = braceEmitter ⟨2, 0, [2, -10], [], [0]⟩
          ["; scalar record 0\n", "; ", "", "\n"] false 18 [] 8 := rfl
    rw [braceSymbols_record]
    refine .single (hrecord ▸ ?_)
    exact @EmissionStep.fill none (braceEmitter ⟨2, 0, [2, -10], [], [0]⟩
      ["; scalar record 0\n", "; ", "", "\n"] false 18 [] 8) 9 "5" (by decide) rfl (by decide)
  have hbound : ((braceEmitter ⟨2, 0, [2, -10], [], [0]⟩ ["; scalar record 0\n", "; ", "5", "\n"]
      false 24 [] 8).bindLocal "p" "null"
        ⟨1000 + (braceSymbols.record ⟨.name, "Pair", ""⟩).toNat, some (-1)⟩) =
      braceEmitter ⟨2, 0, [2, -10], [(0, -10)], [0]⟩ braceLet false 24 [⟨"p", 1000, 0⟩] 8 := by
    rw [braceSymbols_record]
    rfl
  rw [← hbound]
  exact @BodyStep.letScalar braceSymbols _ _ _ _ _ _ _ _ _ [] _ (braceTokens.drop 18)
    (braceTokens.drop 24) rfl (readsHeader_let _ "p" (by decide)) rfl braceTokens_prepare (by decide) rfl rfl (by decide)
    (by decide) hfields hsteps

/-- The assignment. -/
theorem braceTokens_assign : BodyStep braceSymbols
    (braceEmitter ⟨2, 0, [2, -10], [(0, -10)], [0]⟩ braceLet false 25 [⟨"p", 1000, 0⟩] 8)
    (braceEmitter ⟨2, 0, [2, -10], [(0, -10), (0, -10)], [0]⟩ (braceLet ++ braceAssignment) true 33
      [⟨"p", 1000, 0⟩] 8) := by
  have hreads : ReadsExpression braceSymbols.IsField
      (⟨.name, "Pair", ""⟩ :: ⟨.punctuation, "\x7b", ""⟩ :: ([⟨.text, "\x7b", ""⟩,
        ⟨.punctuation, ":", ""⟩, ⟨.integer, "6", ""⟩] ++ [⟨.punctuation, "\x7d", ""⟩])) :=
    .token (by decide) (by decide) (.literal (by decide) (by decide)
      (.token (by decide) (by decide) (.token (by decide) (by decide)
        (.token (by decide) (by decide) .nil))) .nil)
  have hvalue := @Emission.mk braceSymbols none
    (braceEmitter ⟨2, 0, [2, -10], [(0, -10)], [0]⟩ braceLet false 27 [⟨"p", 1000, 0⟩] 8) _ _
    (braceTokens.drop 33)
    (.tail (.tail (.single (@EmissionStep.pieces none _ ["  ", "%value.0",
        " = call ptr @minyar_record_new_scalar(i64 ", "1", ")\n"] (by decide)))
      (@EmissionStep.keep none _ "%value.0" 1000 (by decide)))
      (@EmissionStep.pieces none _ ["  call void @minyar_record_set_scalar(ptr ", "%value.0",
        ", i64 ", "0", ", i64 ", "6", ")\n"] (by decide))) hreads rfl
  exact @BodyStep.assign braceSymbols (braceEmitter ⟨2, 0, [2, -10], [(0, -10)], [0]⟩ braceLet false
    25 [⟨"p", 1000, 0⟩] 8) _ ⟨.name, "p", ""⟩ ⟨.punctuation, "=", ""⟩ (braceTokens.drop 27)
    ⟨"p", 1000, 0⟩ "%value.0" ⟨1000, some 23⟩ rfl rfl rfl (by decide) rfl (fun _ => by decide) hvalue (by decide) rfl (fun _ h => .inr (by cases h; decide))

/-- The output of the return. -/
def braceReturn : List String :=
  [rcLeave, "  call void @minyar_stack_leave()\n", "  ret ", "i64", " ", "0", "\n"]

/-- The body of the function. -/
theorem braceTokens_body : Relation.ReflTransGen (BodyStep braceSymbols)
    (((Emitter.start braceTokens []).withRest (braceTokens.drop 14)).beginFunction 0 ⟨"f", [], 1⟩)
    { braceEmitter ⟨2, 0, [2, -10], [(0, -10), (0, -10)], [0]⟩
        (braceLet ++ braceAssignment ++ braceReturn) true 38 [] 8 with
      scope := { rest := braceTokens.drop 38, nextLocal := 1 } } := by
  have hopen : BodyStep braceSymbols
      (((Emitter.start braceTokens []).withRest (braceTokens.drop 14)).beginFunction 0 ⟨"f", [], 1⟩)
      (braceEmitter ⟨2, 0, [], [], []⟩ [] false 15 [] 0) :=
    @BodyStep.openBlock braceSymbols _ ⟨.punctuation, "\x7b", ""⟩ (braceTokens.drop 15) rfl
      (by decide)
  have hline : BodyStep braceSymbols
      (braceEmitter ⟨2, 0, [2, -10], [(0, -10)], [0]⟩ braceLet false 24 [⟨"p", 1000, 0⟩] 8)
      (braceEmitter ⟨2, 0, [2, -10], [(0, -10)], [0]⟩ braceLet false 25 [⟨"p", 1000, 0⟩] 8) :=
    .other (@Emission.mk braceSymbols none _ _ [⟨.terminator, "end of line", ""⟩]
      (braceTokens.drop 25) .refl (.token (by decide) (by decide) .nil) rfl)
  have hreturn : BodyStep braceSymbols
      (braceEmitter ⟨2, 0, [2, -10], [(0, -10), (0, -10)], [0]⟩ (braceLet ++ braceAssignment) true 33
        [⟨"p", 1000, 0⟩] 8)
      (braceEmitter ⟨2, 0, [2, -10], [(0, -10), (0, -10)], [0]⟩
        (braceLet ++ braceAssignment ++ braceReturn) true 37 [⟨"p", 1000, 0⟩] 8) :=
    .other (@Emission.mk braceSymbols none _ _ [⟨.terminator, "end of line", ""⟩,
      ⟨.name, "return", ""⟩, ⟨.integer, "0", ""⟩, ⟨.terminator, "end of line", ""⟩]
      (braceTokens.drop 37) (.single (@EmissionStep.pieces none _ braceReturn (by decide)))
      (.token (by decide) (by decide) (.token (by decide) (by decide) (.token (by decide) (by decide)
        (.token (by decide) (by decide) .nil)))) rfl)
  have hclose := @BodyStep.closeBlock braceSymbols
    (braceEmitter ⟨2, 0, [2, -10], [(0, -10), (0, -10)], [0]⟩
      (braceLet ++ braceAssignment ++ braceReturn) true 37 [⟨"p", 1000, 0⟩] 8) _
    ⟨.punctuation, "\x7d", ""⟩ (braceTokens.drop 38) 0 [] rfl (by decide) rfl true
    (fun binding hmem => by
      rw [List.mem_singleton.mp hmem]
      exact fun _ => le_rfl) rfl
  exact (((((Relation.ReflTransGen.single hopen).tail braceTokens_let).tail hline).tail
    braceTokens_assign).tail hreturn).tail hclose

/-- The program is compiled to a function without slots that has a slot call. -/
theorem not_compilesFunctions_slots : ¬ ∀ fs e',
    CompilesFunctions braceSymbols 0 (.start braceTokens []) fs e' → ∀ f ∈ fs, f.SlotsCorrect := by
  intro hall
  have hfunction := @CompilesFunctions.function braceSymbols 0
    ((Emitter.start braceTokens []).withRest (braceTokens.drop 14)) _ _ [] ⟨"f", [], 1⟩
    (fun _ => rfl) braceTokens_body rfl true nofun (.skip [] (.done _))
  have hrun := CompilesFunctions.skip (braceTokens.drop 14) hfunction
  obtain ⟨-, slot, hslot, -⟩ := @CompiledFunction.SlotsCorrect.call _
    (hall _ _ hrun _ List.mem_cons_self) 26 localTakeCall rfl (by decide)
  exact Nat.not_lt_zero slot hslot

end Minyar

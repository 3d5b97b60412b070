import Minyar.Compiler.OwnerSlots

/-!
# Owner slots over whole programs

Every step of a function keeps the map of slots, the calls in the output and what the scans said of
the scope; so every function of a program enters with as many owners as its slot calls need.  The
last part of a `let` with a replaced record is where the scans matter: the local has no slot, and
nothing but a whole use of its name would ask for one.
-/

namespace Minyar

/-! ## The output -/

namespace Output

/-- Behind the entry, which ends `base`, the pieces are valid; with `pending` the function is known
to have owners in the end. -/
def Valid (o : Output) (base : List String) (owners : ℕ) (pending : Prop) : Prop :=
  ∃ body, o.pieces = base ++ body ∧ base.length = o.entrySlot + 1 ∧
    PiecesValid owners (o.references = true ∨ pending) body

variable {o : Output} {base : List String} {owners : ℕ} {pending : Prop}

/-- More slots. -/
theorem Valid.mono (h : o.Valid base owners pending) {owners' : ℕ} (hle : owners ≤ owners')
    {pending' : Prop} (hpending : pending → o.references = true ∨ pending') :
    o.Valid base owners' pending' := by
  obtain ⟨body, hpieces, hlength, hbody⟩ := h
  exact ⟨body, hpieces, hlength, hbody.mono hle fun hrooted => hrooted.elim .inl hpending⟩

/-- The function has owners. -/
theorem Valid.withReferences (h : o.Valid base owners pending) :
    { o with references := true }.Valid base owners False := by
  obtain ⟨body, hpieces, hlength, hbody⟩ := h
  exact ⟨body, hpieces, hlength, hbody.mono le_rfl fun _ => .inl rfl⟩

/-- More pieces. -/
theorem Valid.add (h : o.Valid base owners pending) {pieces : List String}
    (hadded : PiecesValid owners (o.references = true ∨ pending) pieces) :
    (o.add pieces).Valid base owners pending := by
  obtain ⟨body, hpieces, hlength, hbody⟩ := h
  refine ⟨body ++ pieces, ?_, hlength, hbody.append hadded⟩
  rw [Output.add, hpieces, List.append_assoc]

/-- A piece of the body. -/
theorem getElem?_body {body : List String} (hpieces : o.pieces = base ++ body)
    (hlength : base.length = o.entrySlot + 1) {index : ℕ} (hindex : o.entrySlot < index) :
    ∃ i, index = base.length + i ∧ o.pieces[index]? = body[i]? := by
  have hle : base.length ≤ index := by omega
  obtain ⟨i, rfl⟩ := Nat.exists_eq_add_of_le hle
  refine ⟨i, rfl, ?_⟩
  rw [hpieces, List.getElem?_append_right (Nat.le_add_right _ _), Nat.add_sub_cancel_left]

/-- A replaced piece of the body. -/
theorem set_body {body : List String} (i : ℕ) (piece : String) :
    (base ++ body).set (base.length + i) piece = base ++ body.set i piece := by
  rw [List.set_append_right _ _ (Nat.le_add_right _ _), Nat.add_sub_cancel_left]

/-- A plain piece in an empty one. -/
theorem Valid.fill (h : o.Valid base owners pending) {index : ℕ} {piece : String}
    (hindex : o.entrySlot < index) (hempty : o.pieces[index]? = some "")
    (hplain : PlainPiece piece) :
    { o with pieces := o.pieces.set index piece }.Valid base owners pending := by
  obtain ⟨body, hpieces, hlength, hbody⟩ := h
  obtain ⟨i, rfl, hget⟩ := getElem?_body hpieces hlength hindex
  refine ⟨body.set i piece, ?_, hlength,
    hbody.set_of_ne (hget ▸ hempty) (ne_toString (by simp)) hplain⟩
  rw [hpieces, set_body]

/-- `keepReference`. -/
theorem Valid.keepReference (h : o.Valid base owners pending) {value : String}
    (hvalue : PlainPiece value) (type : ℕ) :
    (o.keepReference value type).2.Valid base owners pending := by
  unfold Output.keepReference
  split_ifs
  · have hplain : ∀ piece ∈ [keepCall, value, ")\n"], PlainPiece piece :=
      List.forall_mem_cons.mpr ⟨by decide, List.forall_mem_cons.mpr ⟨hvalue, by decide⟩⟩
    exact (h.withReferences.mono le_rfl False.elim).add (.of_plain hplain)
  · exact h

/-- `borrowReference`. -/
theorem Valid.borrowReference (h : o.Valid base owners pending) {value : String}
    (hvalue : PlainPiece value) (type : ℕ) :
    (o.borrowReference value type).Valid base owners pending := by
  unfold Output.borrowReference
  split_ifs
  · have hplain : ∀ piece ∈ ["  call void @minyar_rc_borrow(ptr ", value, ")\n"],
        PlainPiece piece :=
      List.forall_mem_cons.mpr ⟨by decide, List.forall_mem_cons.mpr ⟨hvalue, by decide⟩⟩
    exact (h.withReferences.mono le_rfl False.elim).add (.of_plain hplain)
  · exact h

/-- A piece that is read. -/
theorem getElem?_of_getD {pieces : List String} {index : ℕ} {piece : String}
    (h : pieces.getD index "" = piece) (hpiece : piece ≠ "") : pieces[index]? = some piece := by
  rw [List.getD_eq_getElem?_getD] at h
  rcases hget : pieces[index]? with _ | old
  · rw [hget] at h
    exact absurd h.symm hpiece
  · rw [hget] at h
    exact congrArg some h

/-- `takeOwner`: a note gives its slot to a call, and nothing else in the body changes but pieces
that become empty. -/
theorem Valid.takeOwner (h : o.Valid base owners pending) {owner : ℤ} (howner : o.IsOwner owner)
    (value : String) : (o.takeOwner value owner).2.Valid base owners pending := by
  simp only [Output.takeOwner]
  split_ifs with hnone hnote hkeep
  · exact h
  all_goals
    obtain ⟨body, hpieces, hlength, hbody⟩ := h
    have hfirst : o.entrySlot < owner.toNat := by
      have := howner.resolve_left hnone
      omega
    obtain ⟨i, hi, hget⟩ := getElem?_body hpieces hlength hfirst
  · have hi' : o.pieces[owner.toNat + 1]? = body[i + 1]? := by
      rw [hpieces, hi, Nat.add_assoc, List.getElem?_append_right (Nat.le_add_right _ _),
        Nat.add_sub_cancel_left]
    rw [getElem?_of_getD hnote (by decide)] at hget
    obtain ⟨slot, hslot, hnumber⟩ := hbody.number hget.symm List.mem_cons_self
    have hcall : PiecesValid owners (o.references = true ∨ pending)
        [localMoveCall, toString (slot : ℤ), ")\n"] :=
      .call hslot (hbody.rooted hget.symm List.mem_cons_self) (by decide)
    have hnote' : (body ++ [localMoveCall, toString (slot : ℤ), ")\n"])[i]? =
        some transferNote := by
      obtain ⟨hlt, -⟩ := List.getElem?_eq_some_iff.mp hget.symm
      rw [List.getElem?_append_left hlt, ← hget]
    refine ⟨_, ?_, hlength, ((hbody.append hcall).set_of_ne hnote'
      (ne_toString (by simp [transferNote, IsDigit])) (by decide)).set_next⟩
    rw [List.getD_eq_getElem?_getD, hi', hnumber, hpieces, hi, List.append_assoc, Option.getD_some,
      set_body, Nat.add_assoc, set_body]
  · rw [getElem?_of_getD hkeep.1 (by decide)] at hget
    refine ⟨_, ?_, hlength, ((hbody.set_of_ne hget.symm
      (ne_toString (by simp [keepCall, IsDigit])) (by decide)).set_next).set_next⟩
    rw [hpieces, hi, set_body, Nat.add_assoc, set_body, Nat.add_assoc, set_body]
  · exact ⟨body, hpieces, hlength, hbody⟩

/-- `takeResult`. -/
theorem Valid.takeResult (h : o.Valid base owners pending) {result : ResultType}
    (howner : ∀ owner, result.owner = some owner → o.IsOwner owner) (value : String) :
    (o.takeResult value result).2.Valid base owners pending := by
  unfold Output.takeResult
  split
  · rename_i owner hresult
    split_ifs
    · exact h.takeOwner (howner owner hresult) value
    · exact h
  · exact h

end Output

/-! ## Expressions -/

namespace Emitter

/-- The parts of the state that an expression leaves as they are. -/
structure Keeps (e e' : Emitter) : Prop where
  /-- The scope. -/
  scope : e'.scope = e.scope
  /-- The marks. -/
  scalars : e'.table.scalars = e.table.scalars
  /-- No literal is to be replaced. -/
  scalarLocal : e'.scalarLocal = e.scalarLocal

theorem Keeps.refl (e : Emitter) : e.Keeps e := ⟨rfl, rfl, rfl⟩

theorem Keeps.trans {e e' e'' : Emitter} (h : e.Keeps e') (h' : e'.Keeps e'') : e.Keeps e'' :=
  ⟨h'.scope.trans h.scope, h'.scalars.trans h.scalars, h'.scalarLocal.trans h.scalarLocal⟩

theorem Keeps.add {e e' : Emitter} (h : e.Keeps e') (pieces : List String) :
    e.Keeps (e'.add pieces) :=
  ⟨h.scope, h.scalars, h.scalarLocal⟩

/-- A binding that is no reference gets no owner. -/
theorem rootLocal_of_not_reference (e : Emitter) (id : ℕ) (value : String) {type : ℕ}
    (htype : ¬ isReferenceType type = true) : e.rootLocal id value type = e := if_neg htype

/-- A value that is no reference has no owner. -/
theorem assignReference_of_not_reference (e : Emitter) (id : ℕ) (value : String)
    {result : ResultType} (htype : ¬ isReferenceType result.type = true) :
    e.assignReference id value result = e := by
  have htaken : e.out.takeResult value result = (false, e.out) := by
    unfold Output.takeResult
    split
    · exact if_neg htype
    · rfl
  simp only [assignReference]
  rw [htaken, if_neg Bool.false_ne_true]
  exact rootLocal_of_not_reference _ _ _ htype

theorem keeps_rootLocal (e : Emitter) (id : ℕ) (value : String) (type : ℕ) :
    e.Keeps (e.rootLocal id value type) := by
  simp only [rootLocal]
  split_ifs
  · exact ⟨rfl, e.table.ownershipSlot_scalars id, rfl⟩
  · exact ⟨rfl, e.table.ownershipSlot_scalars id, rfl⟩
  · exact .refl e

theorem keeps_assignReference (e : Emitter) (id : ℕ) (value : String) (result : ResultType) :
    e.Keeps (e.assignReference id value result) := by
  simp only [assignReference]
  split_ifs
  · exact ⟨rfl, e.table.ownershipSlot_scalars id, rfl⟩
  · obtain ⟨hscope, hscalars, hlocal⟩ :=
      keeps_rootLocal { e with out := (e.out.takeResult value result).2 } id value result.type
    exact ⟨hscope, hscalars, hlocal⟩

theorem keeps_rootLocals (e : Emitter) (locals : List LocalBinding) :
    e.Keeps (e.rootLocals locals) := by
  induction locals generalizing e with
  | nil => exact .refl e
  | cons binding locals ih => exact (e.keeps_rootLocal _ _ _).trans (ih _)

/-- What holds at every point of a function with `nextLocal` locals so far. -/
structure Valid (e : Emitter) (base : List String) (pending : Prop) (nextLocal : ℕ) : Prop where
  /-- The map of slots. -/
  table : e.table.Valid nextLocal
  /-- The output. -/
  out : e.out.Valid base e.table.owners pending

variable {e e' : Emitter} {base : List String} {pending : Prop} {nextLocal : ℕ}

/-- A call with the slot of a local of the function that is not marked. -/
theorem Valid.slotCall (h : e.Valid base pending nextLocal) {id : ℕ} (hid : id < nextLocal)
    (hanswer : 0 ≤ (e.table.ownershipSlot id).1) {out : Output}
    (hout : out.Valid base e.table.owners pending) {first : String} {others : List String}
    (hrooted : out.references = true ∨ pending) (hothers : ∀ piece ∈ others, PlainPiece piece) :
    { e with
      table := (e.table.ownershipSlot id).2
      out := out.add (first :: toString (e.table.ownershipSlot id).1 :: others) }.Valid base pending
      nextLocal := by
  obtain ⟨htable, hlt, -⟩ := h.table.ownershipSlot hid
  refine ⟨htable, (hout.mono (e.table.owners_le_ownershipSlot id) .inr).add ?_⟩
  obtain ⟨slot, hslot⟩ := Int.eq_ofNat_of_zero_le hanswer
  rw [hslot] at hlt ⊢
  exact .call (Int.ofNat_lt.mp hlt) hrooted hothers

/-- `rootLocal`. -/
theorem Valid.rootLocal (h : e.Valid base pending nextLocal) {id : ℕ} (hid : id < nextLocal)
    {value : String} (hvalue : PlainPiece value) (type : ℕ) :
    (e.rootLocal id value type).Valid base pending nextLocal := by
  simp only [Emitter.rootLocal]
  split_ifs with htype hneg
  · exact ⟨(h.table.ownershipSlot hid).1, h.out.mono (e.table.owners_le_ownershipSlot id) .inr⟩
  · have hplain : ∀ piece ∈ [", ptr ", value, ")\n"], PlainPiece piece :=
      List.forall_mem_cons.mpr ⟨by decide, List.forall_mem_cons.mpr ⟨hvalue, by decide⟩⟩
    exact h.slotCall hid (not_lt.mp hneg) (h.out.withReferences.mono le_rfl False.elim) (.inl rfl)
      hplain
  · exact h

/-- `assignReference`: a marked local takes no owner over. -/
theorem Valid.assignReference (h : e.Valid base pending nextLocal) {id : ℕ} (hid : id < nextLocal)
    {value : String} (hvalue : PlainPiece value) {result : ResultType}
    (howner : ∀ owner, result.owner = some owner → e.out.IsOwner owner)
    (hfree : result.owner = some (-1) ∨ id ∉ e.table.scalars) :
    (e.assignReference id value result).Valid base pending nextLocal := by
  have hout := h.out.takeResult howner value
  simp only [Emitter.assignReference]
  split_ifs with htaken
  · have hfree : id ∉ e.table.scalars := hfree.resolve_left fun hresult => by
      simp [Output.takeResult, Output.takeOwner, hresult] at htaken
    have hanswer : 0 ≤ (e.table.ownershipSlot id).1 := by
      rw [← not_lt, (h.table.ownershipSlot hid).2.2]
      exact hfree
    have hplain : ∀ piece ∈ [", ptr ", value, ")\n"], PlainPiece piece :=
      List.forall_mem_cons.mpr ⟨by decide, List.forall_mem_cons.mpr ⟨hvalue, by decide⟩⟩
    exact h.slotCall hid hanswer (hout.withReferences.mono le_rfl False.elim) (.inl rfl) hplain
  · exact Valid.rootLocal (e := { e with out := (e.out.takeResult value result).2 })
      ⟨h.table, hout⟩ hid hvalue result.type

/-- After the assignment of a reference to a local with a slot the function has owners. -/
theorem Valid.references_assignReference (h : e.Valid base pending nextLocal) {id : ℕ}
    (hid : id < nextLocal) (hfree : id ∉ e.table.scalars) (value : String) {result : ResultType}
    (htype : isReferenceType result.type = true) :
    (e.assignReference id value result).out.references = true := by
  have hanswer : ¬ (e.table.ownershipSlot id).1 < 0 := by
    rw [(h.table.ownershipSlot hid).2.2]
    exact hfree
  simp only [Emitter.assignReference, Emitter.rootLocal]
  split_ifs
  · rfl
  · rfl

end Emitter

section

variable {e e' : Emitter} {own : Option ℕ} {base : List String} {pending : Prop} {nextLocal : ℕ}

/-- A step of an expression leaves the scope. -/
theorem EmissionStep.keeps (hstep : EmissionStep own e e') : e.Keeps e' := by
  cases hstep with
  | transfer => exact ⟨rfl, e.table.ownershipSlot_scalars _, rfl⟩
  | _ => exact ⟨rfl, rfl, rfl⟩

/-- A step of an expression; the local whose owner may be moved has a slot, and the function is known
to have owners. -/
theorem EmissionStep.valid (hstep : EmissionStep own e e')
    (hown : ∀ id, own = some id → pending ∧ id < nextLocal ∧ id ∉ e.table.scalars)
    (h : e.Valid base pending nextLocal) : e'.Valid base pending nextLocal := by
  cases hstep with
  | pieces hplain => exact ⟨h.table, h.out.add (.of_plain hplain)⟩
  | fill hindex hempty hplain => exact ⟨h.table, h.out.fill hindex hempty hplain⟩
  | keep type hplain => exact ⟨h.table, h.out.keepReference hplain type⟩
  | borrow type hplain => exact ⟨h.table, h.out.borrowReference hplain type⟩
  | take value howner => exact ⟨h.table, h.out.takeOwner howner value⟩
  | call => exact ⟨h.table, h.out⟩
  | @transfer id hsome =>
    obtain ⟨hpending, hid, hfree⟩ := hown id hsome
    have hanswer : 0 ≤ (e.table.ownershipSlot id).1 := by
      rw [← not_lt, (h.table.ownershipSlot hid).2.2]
      exact hfree
    exact h.slotCall hid hanswer h.out (.inr hpending) nofun

/-- The steps of an expression. -/
theorem emissionSteps_valid (hsteps : Relation.ReflTransGen (EmissionStep own) e e')
    (hown : ∀ id, own = some id → pending ∧ id < nextLocal ∧ id ∉ e.table.scalars)
    (h : e.Valid base pending nextLocal) : e.Keeps e' ∧ e'.Valid base pending nextLocal := by
  induction hsteps with
  | refl => exact ⟨.refl e, h⟩
  | tail _ hstep ih =>
    refine ⟨ih.1.trans hstep.keeps, hstep.valid (fun id hsome => ?_) ih.2⟩
    rw [ih.1.scalars]
    exact hown id hsome

end

/-! ## Scopes -/

/-- What holds of the scope: its blocks are nested, its locals are those of the function, and the
name of a replaced record is only projected up to the end of its block. -/
structure Scope.Valid (s : Scope) (scalars : List ℕ) : Prop where
  /-- The locals are those of the function. -/
  id_lt : ∀ binding ∈ s.locals, binding.id < s.nextLocal
  /-- The blocks start among the bindings. -/
  blocks_le : ∀ first ∈ s.blocks, first ≤ s.locals.length
  /-- The blocks are nested. -/
  nested : s.blocks.Pairwise (· ≥ ·)
  /-- Every whole use of a replaced record is behind its block. -/
  avoids : ∀ (i : ℕ) {binding}, s.locals[i]? = some binding → 0 ≤ binding.id →
    binding.id.toNat ∈ scalars →
      scopeAvoids (usedWhole binding.name) (s.blocks.countP (i < ·)) s.rest = true

namespace Scope

variable {s : Scope} {scalars : List ℕ}

/-- The scope at later tokens of the same block. -/
theorem Valid.withRest (h : s.Valid scalars) {rest : List Token}
    (hrest : ∀ {bad : Token → List Token → Bool} {depth : ℕ},
      scopeAvoids bad depth s.rest = true → scopeAvoids bad depth rest = true) :
    { s with rest := rest }.Valid scalars :=
  ⟨h.id_lt, h.blocks_le, h.nested, fun i _ hget hid hmem => hrest (h.avoids i hget hid hmem)⟩

/-- The opening brace of a block. -/
theorem Valid.openBlock (h : s.Valid scalars) {first : Token} {rest : List Token}
    (hrest : s.rest = first :: rest) (hfirst : punctuationBrace first = some .opening) :
    { s with rest := rest, blocks := s.locals.length :: s.blocks }.Valid scalars where
  id_lt := h.id_lt
  blocks_le := List.forall_mem_cons.mpr ⟨le_rfl, h.blocks_le⟩
  nested := List.pairwise_cons.mpr ⟨h.blocks_le, h.nested⟩
  avoids i _ hget hid hmem := by
    obtain ⟨hlt, -⟩ := List.getElem?_eq_some_iff.mp hget
    have hscan := h.avoids i hget hid hmem
    rw [hrest] at hscan
    rw [List.countP_cons_of_pos (by simpa using hlt)]
    exact scopeAvoids_of_opening hscan hfirst

/-- The closing brace of a block. -/
theorem Valid.closeBlock (h : s.Valid scalars) {last : Token} {rest : List Token} {first : ℕ}
    {blocks : List ℕ} (hrest : s.rest = last :: rest)
    (hlast : punctuationBrace last = some .closing) (hblocks : s.blocks = first :: blocks) :
    { s with rest := rest, locals := s.locals.take first, blocks := blocks }.Valid scalars := by
  have hle := h.blocks_le
  have hnested := h.nested
  rw [hblocks] at hle hnested
  obtain ⟨hinner, hnested⟩ := List.pairwise_cons.mp hnested
  refine ⟨fun binding hmem => h.id_lt binding (List.mem_of_mem_take hmem), fun outer hmem => ?_,
    hnested, fun i binding hget hid hmem => ?_⟩
  · rw [List.length_take, min_eq_left (hle first List.mem_cons_self)]
    exact hinner outer hmem
  · obtain ⟨hlt, -⟩ := List.getElem?_eq_some_iff.mp hget
    have hi : i < first := (List.length_take ▸ hlt).trans_le (min_le_left _ _)
    rw [List.getElem?_take_of_lt hi] at hget
    have hscan := h.avoids i hget hid hmem
    rw [hrest, hblocks, List.countP_cons_of_pos (by simpa using hi)] at hscan
    exact scopeAvoids_of_closing hscan hlast

/-- A new binding; when its local is marked, the rest of the scope must avoid its name. -/
theorem Valid.bind (h : s.Valid scalars) {name : String} {type : ℕ} {scalars' : List ℕ}
    (hold : ∀ id < s.nextLocal, id ∈ scalars' → id ∈ scalars)
    (hnew : s.nextLocal ∈ scalars' → scopeAvoids (usedWhole name) 0 s.rest = true) :
    { s with
      locals := s.locals ++ [LocalBinding.mk name type s.nextLocal]
      nextLocal := s.nextLocal + 1 }.Valid scalars' := by
  refine ⟨fun binding hmem => ?_, fun first hmem => ?_, h.nested, fun i binding hget hid hmem => ?_⟩
  · rcases List.mem_append.mp hmem with hmem | hmem
    · exact (h.id_lt binding hmem).trans (by simp)
    · rw [List.mem_singleton.mp hmem]
      simp
  · rw [List.length_append]
    exact (h.blocks_le first hmem).trans (Nat.le_add_right _ _)
  · rcases Nat.lt_or_ge i s.locals.length with hi | hi
    · rw [List.getElem?_append_left hi] at hget
      have hlt := h.id_lt binding (List.mem_of_getElem? hget)
      exact h.avoids i hget hid (hold _ (by omega) hmem)
    · rw [List.getElem?_append_right hi] at hget
      cases List.mem_singleton.mp (List.mem_of_getElem? hget)
      have hcount : s.blocks.countP (i < ·) = 0 :=
        List.countP_eq_zero.mpr fun first hfirst => by
          have := h.blocks_le first hfirst
          simp only [decide_eq_true_eq, not_lt]
          omega
      rw [hcount]
      exact hnew (by simpa using hmem)

end Scope

/-! ## Bodies -/

section

variable {p : ProgramSymbols} {e e' : Emitter} {base : List String}

/-- The output and the scope behind an expression. -/
theorem Emission.valid {own : Option ℕ} {pending : Prop} {nextLocal : ℕ}
    (hemission : Emission p own e e') (hfield : ¬ p.IsField "\x7b")
    (hown : ∀ id, own = some id → pending ∧ id < nextLocal ∧ id ∉ e.table.scalars)
    (h : e.Valid base pending nextLocal) (hscope : e.scope.Valid e.table.scalars) :
    e'.Valid base pending nextLocal ∧ e'.scope.Valid e.table.scalars ∧
      e'.scope.nextLocal = e.scope.nextLocal ∧ e'.table.scalars = e.table.scalars ∧
      e'.scalarLocal = e.scalarLocal := by
  obtain ⟨hsteps, hreads, hrest⟩ := hemission
  obtain ⟨hkeeps, hvalid⟩ := emissionSteps_valid hsteps hown h
  have hnext := congrArg Scope.nextLocal hkeeps.scope
  refine ⟨⟨hvalid.table, hvalid.out⟩, ?_, hnext, hkeeps.scalars, hkeeps.scalarLocal⟩
  have hscan := hscope.withRest fun {bad depth} hscan =>
    scopeAvoids_of_readsExpression hreads hfield (hrest ▸ hscan)
  rw [← hkeeps.scope] at hscan
  exact hscan

namespace Emitter

/-- What holds between the statements of a function. -/
structure BodyValid (e : Emitter) (base : List String) : Prop where
  /-- The map and the output. -/
  valid : e.Valid base False e.scope.nextLocal
  /-- The scope. -/
  scope : e.scope.Valid e.table.scalars
  /-- No literal is to be replaced. -/
  scalarLocal : e.scalarLocal < 0

/-- `prepareScalarRecord` only counts its cost and asks for a replacement, for a literal behind which
the name is only projected. -/
theorem prepare_cases {name : String} {e₁ : Emitter} (h : e.prepare p name = some e₁) :
    ∃ cost scalarLocal, e₁ = { e with scanCost := cost, scalarLocal := scalarLocal } ∧
      (scalarLocal = e.scalarLocal ∨ scalarLocal = e.scope.nextLocal ∧
        ∃ after, skipDeclaration e.scope.rest = some after ∧
          scopeAvoids (usedWhole name) 0 after = true) := by
  have hsame : ∃ cost scalarLocal, e = { e with scanCost := cost, scalarLocal := scalarLocal } ∧
      (scalarLocal = e.scalarLocal ∨ scalarLocal = e.scope.nextLocal ∧
        ∃ after, skipDeclaration e.scope.rest = some after ∧
          scopeAvoids (usedWhole name) 0 after = true) :=
    ⟨e.scanCost, e.scalarLocal, rfl, .inl rfl⟩
  unfold prepare at h
  split at h
  · rename_i token next tokens hrest
    split_ifs at h
    · unfold prepareScalarRecord at h
      simp only at h
      generalize (if p.counts.getD (p.record token).toNat 0 * 8 = 0 then 8
        else p.counts.getD (p.record token).toNat 0 * 8) = cost at h
      split_ifs at h
      · cases h; exact hsame
      · cases h; exact hsame
      · cases h; exact hsame
      split at h
      · cases h
      · rename_i after hafter
        cases h
        refine ⟨_, _, rfl, ?_⟩
        split_ifs with hscan
        · exact .inr ⟨rfl, after, hafter, (Bool.and_eq_true_iff.mp hscan).2⟩
        · exact .inl rfl
    · cases h; exact hsame
  · cases h; exact hsame

/-- The store of a value. -/
theorem Valid.store {pending : Prop} {nextLocal : ℕ} (h : e.Valid base pending nextLocal)
    {value : String} (hvalue : PlainPiece value) (type : ℕ) (id : ℤ) :
    (e.add ["  store ", llvmType type, " ", value, ", ptr %local.", toString id, "\n"]).Valid base
      pending nextLocal := by
  refine ⟨h.table, h.out.add (.of_plain ?_)⟩
  simp only [List.forall_mem_cons, List.not_mem_nil, false_imp_iff, implies_true, and_true]
  exact ⟨by decide, plainPiece_llvmType type, by decide, hvalue, by decide, plainPiece_toString id,
    by decide⟩

/-- What a `let` does with a value: its local is not marked, or it is replaced and the rest of the
scope avoids its name. -/
theorem bindLocal_bodyValid {scalars : List ℕ} {name value : String} {result : ResultType}
    (h : e.Valid base False (e.scope.nextLocal + 1)) (hscope : e.scope.Valid scalars)
    (hscalarLocal : e.scalarLocal < 0) (hvalue : PlainPiece value)
    (howner : ∀ owner, result.owner = some owner → e.out.IsOwner owner)
    (hold : ∀ id < e.scope.nextLocal, id ∈ e.table.scalars → id ∈ scalars)
    (hnew : e.scope.nextLocal ∉ e.table.scalars ∨
      result.owner = some (-1) ∧ scopeAvoids (usedWhole name) 0 e.scope.rest = true) :
    (e.bindLocal name value result).BodyValid base := by
  have hkeeps : (e.addLocal name result.type).Keeps (e.bindLocal name value result) :=
    (keeps_assignReference _ _ _ _).add _
  have hbound : (e.addLocal name result.type).scope.Valid e.table.scalars :=
    hscope.bind hold fun hmem => (hnew.resolve_left (not_not.mpr hmem)).2
  have hadded : (e.addLocal name result.type).Valid base False (e.scope.nextLocal + 1) :=
    ⟨h.table, h.out⟩
  have hassigned := (hadded.assignReference (Nat.lt_succ_self _) hvalue howner
    (hnew.elim .inr fun hnew => .inl hnew.1)).store hvalue result.type e.scope.nextLocal
  have hnext : (e.bindLocal name value result).scope.nextLocal = e.scope.nextLocal + 1 :=
    congrArg Scope.nextLocal hkeeps.scope
  refine ⟨?_, ?_, hkeeps.scalarLocal.trans_lt hscalarLocal⟩
  · rw [hnext]
    exact hassigned
  · rw [hkeeps.scope, hkeeps.scalars]
    exact hbound

/-- The mark of a replaced record. -/
theorem Valid.recordScalars {nextLocal : ℕ} (h : e.Valid base False nextLocal)
    (hscalarLocal : e.scalarLocal = nextLocal) (fieldCount : ℕ) :
    (e.recordScalars fieldCount).Valid base False (nextLocal + 1) ∧
      (e.recordScalars fieldCount).scope = e.scope ∧
      (e.recordScalars fieldCount).scalarLocal < 0 ∧
      (e.recordScalars fieldCount).table.scalars = e.table.scalars ++ [nextLocal] := by
  have hnumber : e.scalarLocal.toNat = nextLocal := by omega
  have hcomment : PlainPiece ("; scalar record " ++ toString e.scalarLocal ++ "\n") :=
    plainPiece_of_head (by simp)
  have hfields : ∀ piece ∈ (List.replicate fieldCount ["; ", "", "\n"]).flatten,
      PlainPiece piece := fun piece hmem => by
    obtain ⟨pieces, hpieces, hmem⟩ := List.mem_flatten.mp hmem
    have hplain : ∀ piece ∈ ["; ", "", "\n"], PlainPiece piece := by decide
    exact hplain piece (List.eq_of_mem_replicate hpieces ▸ hmem)
  unfold Emitter.recordScalars
  rw [if_pos (by omega)]
  refine ⟨⟨?_, ?_⟩, rfl, neg_one_lt_zero, congrArg (e.table.scalars ++ [·]) hnumber⟩
  · rw [hnumber]
    exact h.table.markScalarRecord _
  · exact (h.out.add (.of_plain (List.forall_mem_singleton.mpr hcomment))).add (.of_plain hfields)

/-- The end of a block. -/
theorem Valid.rootLocals {nextLocal : ℕ} {pending : Prop} (h : e.Valid base pending nextLocal)
    {locals : List LocalBinding}
    (hlocals : ∀ binding ∈ locals, binding.HasLocal ∧ binding.id < nextLocal) :
    (e.rootLocals locals).Valid base pending nextLocal := by
  induction locals generalizing e with
  | nil => exact h
  | cons binding locals ih =>
    obtain ⟨⟨hlocal, hlt⟩, hlocals⟩ := List.forall_mem_cons.mp hlocals
    refine ih ?_ hlocals
    change (e.rootLocal binding.id.toNat "null" binding.type).Valid base pending nextLocal
    by_cases htype : isReferenceType binding.type = true
    · have := hlocal htype
      exact h.rootLocal (by omega) (by decide) _
    · rw [rootLocal_of_not_reference e _ _ htype]
      exact h

/-- An assignment. -/
theorem BodyValid.assign {own : Option ℕ} {binding : LocalBinding} {value : String}
    {result : ResultType} (h : e.BodyValid base) (hfield : ¬ p.IsField "\x7b")
    (hlocal : binding.HasLocal) (hmem : binding ∈ e.scope.locals)
    (hfree : 0 ≤ binding.id → binding.id.toNat ∉ e.table.scalars)
    (hown : ∀ id, own = some id → isReferenceType binding.type = true ∧ 0 ≤ binding.id ∧
      id = binding.id.toNat)
    (hvalue : Emission p own e e') (hplain : PlainPiece value) (htype : result.type = binding.type)
    (howner : ∀ owner, result.owner = some owner → e'.out.IsOwner owner) :
    ((e'.assignReference binding.id.toNat value result).add
      ["  store ", llvmType result.type, " ", value, ", ptr %local.", toString binding.id,
        "\n"]).BodyValid base := by
  have hlt := h.scope.id_lt binding hmem
  -- the owner of the local may be moved while the value is computed: a reference gets a new owner
  have hpending : e.Valid base (isReferenceType binding.type = true) e.scope.nextLocal :=
    ⟨h.valid.table, h.valid.out.mono le_rfl False.elim⟩
  obtain ⟨hvalid, hscope, hnext, hscalars, hscalarLocal⟩ := hvalue.valid hfield
    (fun id hid => by
      obtain ⟨hreference, hnonneg, rfl⟩ := hown id hid
      exact ⟨hreference, by omega, hfree hnonneg⟩) hpending h.scope
  have hkeeps := (keeps_assignReference e' binding.id.toNat value result).add
    ["  store ", llvmType result.type, " ", value, ", ptr %local.", toString binding.id, "\n"]
  have hassigned : (e'.assignReference binding.id.toNat value result).Valid base False
      e.scope.nextLocal := by
    by_cases hreference : isReferenceType binding.type = true
    · have hnonneg := hlocal hreference
      have hid : binding.id.toNat < e.scope.nextLocal := by omega
      have hfree' : binding.id.toNat ∉ e'.table.scalars := by
        rw [hscalars]
        exact hfree hnonneg
      have hdone := hvalid.assignReference hid hplain howner (.inr hfree')
      exact ⟨hdone.table, hdone.out.mono le_rfl fun _ =>
        .inl (hvalid.references_assignReference hid hfree' value (htype ▸ hreference))⟩
    · rw [assignReference_of_not_reference e' _ _ (htype ▸ hreference)]
      exact ⟨hvalid.table, hvalid.out.mono le_rfl fun htrue => absurd htrue hreference⟩
  refine ⟨?_, ?_, ?_⟩
  · rw [hkeeps.scope, hnext]
    exact hassigned.store hplain _ _
  · rw [hkeeps.scope, hkeeps.scalars, hscalars]
    exact hscope
  · rw [hkeeps.scalarLocal, hscalarLocal]
    exact h.scalarLocal

/-- The tokens of a `let` up to the value. -/
theorem BodyValid.header (h : e.BodyValid base) (hrecord : ¬ p.IsRecord "\x7d")
    {keyword name equals : Token} {ascribed rest : List Token}
    (hrest : e.scope.rest = keyword :: name :: (ascribed ++ equals :: rest))
    (hheader : ReadsHeader p.IsRecord (keyword :: name :: (ascribed ++ [equals]))) :
    (e.withRest rest).BodyValid base := by
  have happend : e.scope.rest = (keyword :: name :: (ascribed ++ [equals])) ++ rest := by
    rw [hrest, List.cons_append, List.cons_append, List.append_assoc, List.singleton_append]
  exact ⟨⟨h.valid.table, h.valid.out⟩, h.scope.withRest fun hscan =>
    scopeAvoids_of_readsHeader hheader hrecord (happend ▸ hscan), h.scalarLocal⟩

/-- A `let` with a value that is not replaced. -/
theorem BodyValid.letValue {e₁ e₂ : Emitter} {name value : String} {result : ResultType}
    (h : e.BodyValid base) (hfield : ¬ p.IsField "\x7b") (hprepare : e.prepare p name = some e₁)
    (hscalar : e₁.scalarLocal < 0) (hvalue : Emission p none e₁ e₂) (hplain : PlainPiece value)
    (howner : ∀ owner, result.owner = some owner → e₂.out.IsOwner owner) :
    (e₂.bindLocal name value result).BodyValid base := by
  obtain ⟨cost, scalarLocal, rfl, -⟩ := prepare_cases hprepare
  obtain ⟨hvalid, hscope, hnext, hscalars, hscalarLocal⟩ :=
    hvalue.valid hfield nofun ⟨h.valid.table, h.valid.out⟩ h.scope
  rw [← hnext] at hvalid
  refine bindLocal_bodyValid ⟨hvalid.table.mono (Nat.le_succ _), hvalid.out⟩ hscope
    (hscalarLocal.trans_lt hscalar) hplain howner (fun id _ hmem => hscalars ▸ hmem)
    (.inl fun hmem => ?_)
  obtain ⟨v, hentry⟩ := hvalid.table.marked hmem
  exact absurd (hvalid.table.lt_nextLocal hentry) (lt_irrefl _)

/-- A `let` with a record literal that is replaced: behind the literal the scope avoids the name, as
the scan ended where the literal does. -/
theorem BodyValid.letScalar {e₁ e₂ : Emitter} {name : String} {record first last : Token}
    {fields rest' : List Token} {fieldCount type : ℕ} (h : e.BodyValid base)
    (hfield : ¬ p.IsField "\x7b") (hprepare : e.prepare p name = some e₁)
    (hscalar : 0 ≤ e₁.scalarLocal)
    (hliteral : e.scope.rest = record :: first :: (fields ++ last :: rest'))
    (hrecord : record.kind = .name) (hfirst : punctuationBrace first = some .opening)
    (hlast : punctuationBrace last = some .closing) (hfields : ReadsExpression p.IsField fields)
    (hsteps : Relation.ReflTransGen (EmissionStep none) (e₁.recordScalars fieldCount) e₂) :
    ((e₂.withRest rest').bindLocal name "null" ⟨type, some (-1)⟩).BodyValid base := by
  have hreads : ReadsExpression p.IsField (record :: first :: (fields ++ [last])) :=
    .token (by rw [hrecord]; decide) (punctuationBrace_of_name hrecord)
      (.literal hfirst hlast hfields .nil)
  have happend : e.scope.rest = (record :: first :: (fields ++ [last])) ++ rest' := by
    rw [hliteral, List.cons_append, List.cons_append, List.append_assoc, List.singleton_append]
  obtain ⟨cost, scalarLocal, rfl, hsame | ⟨hlocal, after, hafter, hscan⟩⟩ := prepare_cases hprepare
  · exact absurd (hsame ▸ h.scalarLocal) (not_lt.mpr hscalar)
  rw [hliteral, skipDeclaration_literal hrecord hfirst hlast hfields hfield] at hafter
  cases hafter
  obtain ⟨hmarked, hscope, hnone, hscalars⟩ := Valid.recordScalars
    (e := { e with scanCost := cost, scalarLocal := scalarLocal })
    ⟨h.valid.table, h.valid.out⟩ hlocal fieldCount
  obtain ⟨hkeeps, hvalid⟩ := emissionSteps_valid hsteps nofun hmarked
  have hrest : (e₂.withRest rest').scope = { e.scope with rest := rest' } := by
    rw [withRest, hkeeps.scope, hscope]
  have hnext : (e₂.withRest rest').scope.nextLocal = e.scope.nextLocal := by rw [hrest]
  have hmarks : (e₂.withRest rest').table.scalars = e.table.scalars ++ [e.scope.nextLocal] :=
    hkeeps.scalars.trans hscalars
  have hbehind : (e₂.withRest rest').scope.Valid e.table.scalars := by
    rw [hrest]
    exact h.scope.withRest fun hscan =>
      scopeAvoids_of_readsExpression hreads hfield (happend ▸ hscan)
  refine bindLocal_bodyValid (hnext ▸ ⟨hvalid.table, hvalid.out⟩) hbehind
    (hkeeps.scalarLocal.trans_lt hnone) (by decide) (fun owner hsome => ?_) (fun id hid hmem => ?_)
    (.inr ⟨rfl, ?_⟩)
  · exact .inl (Option.some.inj hsome).symm
  · rw [hmarks, List.mem_append, List.mem_singleton] at hmem
    exact hmem.resolve_right fun heq => by omega
  · rw [hrest]
    exact hscan

/-- A replaced record is never assigned. -/
theorem BodyValid.not_marked (h : e.BodyValid base) {name equals : Token} {rest : List Token}
    {binding : LocalBinding} (hrest : e.scope.rest = name :: equals :: rest)
    (hname : name.kind = .name) (hequals : equals.text = "=")
    (hfind : e.findLocal name.text = some binding) (hnonneg : 0 ≤ binding.id) :
    binding.id.toNat ∉ e.table.scalars := by
  intro hmem
  obtain ⟨i, hget⟩ := List.mem_iff_getElem?.mp
    (List.mem_reverse.mp (List.mem_of_find?_eq_some hfind))
  have hfound : binding.name = name.text := by simpa using List.find?_some hfind
  have hscan := h.scope.avoids i hget hnonneg hmem
  rw [hrest, hfound] at hscan
  have hused := not_bad_of_scopeAvoids hscan (by rw [hname]; decide)
  simp [usedWhole, hname, hequals] at hused

/-- The owner that an assignment may move is that of the binding. -/
theorem transferredLocal_eq_some {binding : LocalBinding} {name : String} {rest : List Token}
    {id : ℕ} (h : transferredLocal binding name rest = some id) :
    isReferenceType binding.type = true ∧ 0 ≤ binding.id ∧ id = binding.id.toNat := by
  unfold transferredLocal at h
  split at h
  · split_ifs at h with hcase
    refine ⟨by rw [hcase.1]; rfl, hcase.2.2.2.2, (Option.some.inj h).symm⟩
  · cases h

end Emitter

/-- One step of a body, when no field is named `\x7b` and no record `\x7d`. -/
theorem BodyStep.bodyValid (hfield : ¬ p.IsField "\x7b") (hrecord : ¬ p.IsRecord "\x7d")
    (hstep : BodyStep p e e') (h : e.BodyValid base) : e'.BodyValid base := by
  cases hstep with
  | other hemission =>
    obtain ⟨hvalid, hscope, hnext, hscalars, hscalarLocal⟩ :=
      hemission.valid hfield nofun h.valid h.scope
    exact ⟨hnext ▸ hvalid, hscalars ▸ hscope, hscalarLocal.trans_lt h.scalarLocal⟩
  | letValue hrest hheader hname hprepare hscalar hvalue hplain howner =>
    exact (h.header hrecord hrest hheader).letValue hfield hprepare hscalar hvalue hplain howner
  | letScalar hrest hheader hname hprepare hscalar hliteral hliteralName hfirst hlast hfields
      hsteps =>
    exact (h.header hrecord hrest hheader).letScalar hfield hprepare hscalar hliteral hliteralName
      hfirst hlast hfields hsteps
  | @assign _ name equals rest binding _ _ hrest hname hequals hend hfind hlocal hvalue hplain htype
      howner =>
    have hequalsBrace : punctuationBrace equals = none := by
      unfold punctuationBrace
      simp [hequals]
    have hbehind : (e.withRest rest).BodyValid base :=
      ⟨⟨h.valid.table, h.valid.out⟩, h.scope.withRest fun {bad depth} hscan => by
        rw [hrest] at hscan
        have hscan := scopeAvoids_of_none hscan (by rw [hname]; decide)
          (punctuationBrace_of_name hname)
        exact scopeAvoids_of_none hscan hend hequalsBrace, h.scalarLocal⟩
    exact hbehind.assign hfield hlocal (List.mem_reverse.mp (List.mem_of_find?_eq_some hfind))
      (h.not_marked hrest hname hequals hfind) (fun id => Emitter.transferredLocal_eq_some) hvalue
      hplain htype howner
  | openBlock hrest hfirst =>
    exact ⟨⟨h.valid.table, h.valid.out⟩, h.scope.openBlock hrest hfirst, h.scalarLocal⟩
  | @closeBlock e₁ last rest first blocks hrest hlast hblocks returns hlocals he' =>
    obtain ⟨hkeeps, hvalid⟩ : e.Keeps e₁ ∧ e₁.Valid base False e.scope.nextLocal := by
      rw [he']
      split_ifs
      · exact ⟨.refl e, h.valid⟩
      · exact ⟨e.keeps_rootLocals _, h.valid.rootLocals fun binding hmem =>
          ⟨hlocals binding hmem, h.scope.id_lt binding (List.mem_of_mem_drop hmem)⟩⟩
    refine ⟨⟨hvalid.table, hvalid.out⟩, ?_, hkeeps.scalarLocal.trans_lt h.scalarLocal⟩
    change Scope.Valid _ e₁.table.scalars
    rw [hkeeps.scalars]
    exact h.scope.closeBlock hrest hlast hblocks

/-- The body of a function. -/
theorem bodySteps_bodyValid (hfield : ¬ p.IsField "\x7b") (hrecord : ¬ p.IsRecord "\x7d")
    (hsteps : Relation.ReflTransGen (BodyStep p) e e') (h : e.BodyValid base) :
    e'.BodyValid base := by
  induction hsteps with
  | refl => exact h
  | tail _ hstep ih => exact hstep.bodyValid hfield hrecord ih

end

end Minyar

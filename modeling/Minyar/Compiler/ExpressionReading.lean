import Minyar.Compiler.SameGrouping

/-!
# Both compilers read the expressions of the language

By induction on an expression: both parsers read its tokens, make the same grouping of them and stop
at the token behind it, as long as that token cannot continue the expression.  The operands of a chain
are read one by one, and `parseOr_eq` of either parser groups them.
-/

namespace Minyar

/-! ## The first token -/

/-- The tokens that an operand without a unary operator starts with. -/
inductive Sign.StartsPrimary : Sign → Prop
  | name {value : String} (h : ∀ c ∈ value.toList, c.isAlphanum = true ∨ c = '_') :
      StartsPrimary (.name value)
  | text (value : String) : StartsPrimary (.text value)
  | character (value : Char) : StartsPrimary (.character value)
  | left : StartsPrimary .left
  | leftBracket : StartsPrimary .leftBracket

/-- The tokens that an operand starts with. -/
inductive Sign.StartsOperand : Sign → Prop
  | primary {s : Sign} (h : s.StartsPrimary) : StartsOperand s
  | integer (literal : IntegerLiteral) : StartsOperand (.integer literal)
  | not : StartsOperand .not
  | negative : StartsOperand (.operator .subtract)

/-- Before an operand without a unary operator the compiler reads no unary operator. -/
theorem Sign.StartsPrimary.ne_unary {s : Sign} (h : s.StartsPrimary) :
    ¬ (s.lexeme.kind = .punctuation ∧ (s.lexeme.text = "!" ∨ s.lexeme.text = "-")) ∧
      s.lexeme.kind ≠ .integer ∧ ¬ (s.stage0.kind = .single '!' ∨ s.stage0.kind = .single '-') := by
  rcases h with _ | _ | _ | _ | _ <;> simp [Sign.lexeme, Sign.stage0]

/-- The first token of an operand without a unary operator. -/
theorem Primary.signs_head : ∀ p : Primary, ∃ s l, p.signs = s :: l ∧ s.StartsPrimary
  | .name value => ⟨_, _, rfl, .name value.character⟩
  | .text value => ⟨_, _, rfl, .text value⟩
  | .character value => ⟨_, _, rfl, .character value⟩
  | .boolean true => ⟨_, _, rfl, .name (forall_mem_of_all (by decide))⟩
  | .boolean false => ⟨_, _, rfl, .name (forall_mem_of_all (by decide))⟩
  | .emptyList => ⟨_, _, rfl, .leftBracket⟩
  | .call function _ => ⟨_, _, rfl, .name function.character⟩
  | .paren _ => ⟨_, _, rfl, .left⟩
  | .member object _ | .method object _ _ | .slice object _ _ | .index object _ => by
    obtain ⟨s, l, h, hs⟩ := object.signs_head
    rw [Primary.signs, h]
    exact ⟨s, _, rfl, hs⟩

/-- The first token of an operand. -/
theorem Operand.signs_head (x : Operand) : ∃ s l, x.signs = s :: l ∧ s.StartsOperand := by
  cases x with
  | integer literal => exact ⟨_, _, rfl, .integer literal⟩
  | primary p =>
    obtain ⟨s, l, h, hs⟩ := p.signs_head
    exact ⟨s, l, h, .primary hs⟩
  | not x => exact ⟨_, _, rfl, .not⟩
  | negative x => exact ⟨_, _, rfl, .negative⟩

/-- Only an Integer literal starts with one. -/
theorem Operand.head_ne_integer {x : Operand} {s : Sign} {l : List Sign} (h : x.signs = s :: l)
    (hx : ∀ literal, x ≠ .integer literal) : s.lexeme.kind ≠ .integer := by
  cases x with
  | integer literal => exact absurd rfl (hx literal)
  | primary p =>
    obtain ⟨s', l', hs, hstarts⟩ := p.signs_head
    rw [Operand.signs, hs] at h
    cases h
    exact hstarts.ne_unary.2.1
  | not x | negative x =>
    rw [Operand.signs] at h
    cases h
    decide

/-- An operand has a token. -/
theorem Operand.signs_length_pos (x : Operand) : 0 < x.signs.length := by
  obtain ⟨s, l, h, -⟩ := x.signs_head
  rw [h]
  exact Nat.succ_pos _

/-- The first token of an expression. -/
theorem Chain.signs_head (e : Chain) : ∃ s l, e.signs = s :: l ∧ s.StartsOperand := by
  cases e with
  | operand x => exact x.signs_head
  | binary x o rest =>
    obtain ⟨s, l, h, hs⟩ := x.signs_head
    rw [Chain.signs, h]
    exact ⟨s, _, rfl, hs⟩

/-- No operand starts with the end of the arguments. -/
theorem Sign.StartsOperand.ne_right {s : Sign} (h : s.StartsOperand) :
    s.lexeme.is ")" = false ∧ s.stage0.kind ≠ .single ')' := by
  have hname : ∀ value : String, (∀ c ∈ value.toList, c.isAlphanum = true ∨ c = '_') →
      value ≠ ")" := by
    rintro _ h rfl
    exact absurd (h ')' (List.mem_singleton_self _)) (by decide)
  rcases h with ⟨⟨h⟩ | _ | _ | _ | _⟩ | _ | _ | _
  · exact ⟨by simp [Sign.lexeme, Lexeme.is, hname _ h], by simp [Sign.stage0]⟩
  all_goals simp [Sign.lexeme, Lexeme.is, Sign.stage0, BinaryOperator.text, BinaryOperator.kind]

/-! ## The token behind -/

/-- A token of the compiler that cannot continue an operand of the tokens `signs` that ends with a
name. -/
structure EndsName (isRecord : String → Bool) (signs : List Sign) (t : Lexeme) : Prop where
  /-- No call starts. -/
  call : t.text ≠ "("
  /-- No record construction starts. -/
  record : t.kind = .punctuation → t.text = "\x7b" → ∀ name, .name name ∈ signs → isRecord name = false

/-- A token of the compiler that cannot continue an operand. -/
structure EndsOperand (isRecord : String → Bool) (signs : List Sign) (t : Lexeme) : Prop
    extends EndsName isRecord signs t where
  /-- No member and no position follow. -/
  member : ¬ (t.kind = .punctuation ∧ (t.text = "." ∨ t.text = "["))

/-- A token of the compiler that cannot continue an expression. -/
structure EndsExpression (isRecord : String → Bool) (signs : List Sign) (t : Lexeme) : Prop
    extends EndsOperand isRecord signs t where
  /-- It is no operator of `parseBinary`. -/
  level : operatorLevel t = 0
  /-- It is no operator of `parseAnd`. -/
  and : ¬ (t.kind = .punctuation ∧ t.text = "&&")
  /-- It is no operator of `parseExpression`. -/
  or : ¬ (t.kind = .punctuation ∧ t.text = "||")

/-- A token of the bootstrap compiler that cannot continue an operand. -/
structure Stage0.EndsOperand (t : Stage0Token) : Prop where
  /-- No call starts. -/
  call : t.kind ≠ .single '('
  /-- No member follows. -/
  member : t.kind ≠ .single '.'
  /-- No position follows. -/
  position : t.kind ≠ .single '['

/-- A token of the bootstrap compiler that cannot continue an expression. -/
structure Stage0.EndsExpression (t : Stage0Token) : Prop extends Stage0.EndsOperand t where
  /-- It is no operator. -/
  operator : ∀ o : BinaryOperator, t.kind ≠ o.kind

section Ends

variable {isRecord : String → Bool} {signs signs' : List Sign} {t : Lexeme}

theorem EndsName.mono (h : EndsName isRecord signs t) (hsub : signs' ⊆ signs) :
    EndsName isRecord signs' t :=
  ⟨h.call, fun hkind htext name hname => h.record hkind htext name (hsub hname)⟩

theorem EndsOperand.mono (h : EndsOperand isRecord signs t) (hsub : signs' ⊆ signs) :
    EndsOperand isRecord signs' t :=
  ⟨h.toEndsName.mono hsub, h.member⟩

theorem EndsExpression.mono (h : EndsExpression isRecord signs t) (hsub : signs' ⊆ signs) :
    EndsExpression isRecord signs' t :=
  ⟨h.toEndsOperand.mono hsub, h.level, h.and, h.or⟩

variable (isRecord signs) in
/-- A closing parenthesis, a closing bracket and a comma end an expression. -/
theorem endsExpression_closing {s : Sign} (hs : s = .right ∨ s = .rightBracket ∨ s = .comma) :
    EndsExpression isRecord signs s.lexeme ∧ Stage0.EndsExpression s.stage0 := by
  have hoperator : ∀ o : BinaryOperator, o.kind ≠ .single ')' ∧ o.kind ≠ .single ']' ∧
      o.kind ≠ .single ',' := fun o => by cases o <;> decide
  rcases hs with rfl | rfl | rfl
  · exact ⟨⟨⟨⟨by decide, fun _ h => by simp [Sign.lexeme] at h⟩, by decide⟩, by decide, by decide,
      by decide⟩, ⟨⟨by decide, by decide, by decide⟩, fun o => (hoperator o).1.symm⟩⟩
  · exact ⟨⟨⟨⟨by decide, fun _ h => by simp [Sign.lexeme] at h⟩, by decide⟩, by decide, by decide,
      by decide⟩, ⟨⟨by decide, by decide, by decide⟩, fun o => (hoperator o).2.1.symm⟩⟩
  · exact ⟨⟨⟨⟨by decide, fun _ h => by simp [Sign.lexeme] at h⟩, by decide⟩, by decide, by decide,
      by decide⟩, ⟨⟨by decide, by decide, by decide⟩, fun o => (hoperator o).2.2.symm⟩⟩

variable (isRecord signs) in
/-- A dot or an opening bracket ends a name. -/
theorem endsName_member {s : Sign} (hs : s = .dot ∨ s = .leftBracket) :
    EndsName isRecord signs s.lexeme ∧ s.stage0.kind ≠ .single '(' := by
  rcases hs with rfl | rfl
  · exact ⟨⟨by decide, fun _ h => by simp [Sign.lexeme] at h⟩, by decide⟩
  · exact ⟨⟨by decide, fun _ h => by simp [Sign.lexeme] at h⟩, by decide⟩

variable (isRecord signs) in
/-- A binary operator ends an operand. -/
theorem endsOperand_operator (o : BinaryOperator) :
    EndsOperand isRecord signs (operatorLexeme o) ∧
      Stage0.EndsOperand (Stage0.operatorToken o) := by
  refine ⟨⟨⟨by cases o <;> decide, fun _ h => ?_⟩, by cases o <;> decide⟩, ?_⟩
  · exact absurd h (by cases o <;> decide)
  · constructor <;> cases o <;> decide

end Ends

/-! ## What both parsers read -/

section Reading

variable (isRecord : String → Bool) (parseRecord : Parser Lexeme)

/-- Both parsers read an operand without a unary operator as `g`, its members and positions in `k`
turns of their loops. -/
structure Primary.Reads (p : Primary) (g : Grouping) (k : ℕ) : Prop where
  /-- Every turn takes a token. -/
  turns : k < p.signs.length
  /-- The compiler. -/
  compiler : ∀ n t rest j, p.signs.length ≤ n → EndsName isRecord p.signs t →
    (parseAtom isRecord parseRecord (parseExpression isRecord parseRecord n)
        (p.signs.map Sign.lexeme ++ t :: rest) >>= fun r =>
      parsePrimaryLoop (parseExpression isRecord parseRecord n) (j + k) r.1 r.2) =
    parsePrimaryLoop (parseExpression isRecord parseRecord n) j g (t :: rest)
  /-- The bootstrap compiler. -/
  stage0 : ∀ n t rest j, p.signs.length ≤ n → t.kind ≠ .single '(' →
    (Stage0.parseAtom (Stage0.parseExpression n) (p.signs.map Sign.stage0 ++ t :: rest) >>= fun r =>
      Stage0.parsePrimaryLoop (Stage0.parseExpression n) (j + k) r.1 r.2) =
    Stage0.parsePrimaryLoop (Stage0.parseExpression n) j g (t :: rest)

/-- Both parsers read an operand as `g`. -/
structure Operand.Reads (x : Operand) (g : Grouping) : Prop where
  /-- The compiler. -/
  compiler : ∀ n t rest, x.signs.length ≤ n → EndsOperand isRecord x.signs t →
    parseUnary isRecord parseRecord (parseExpression isRecord parseRecord n)
      (x.signs.map Sign.lexeme ++ t :: rest) = some (g, t :: rest)
  /-- The bootstrap compiler. -/
  stage0 : ∀ n t rest, x.signs.length ≤ n → Stage0.EndsOperand t →
    Stage0.parseUnary (Stage0.parseExpression n) (x.signs.map Sign.stage0 ++ t :: rest) =
      some (g, t :: rest)

/-- Both parsers read the operands of a chain as `x` and those in `items`. -/
structure Chain.ReadsItems (e : Chain) (x : Grouping) (items : List (BinaryOperator × Grouping)) :
    Prop where
  /-- The compiler. -/
  compiler : ∀ n t rest, e.signs.length ≤ n → EndsExpression isRecord e.signs t → ∃ ts,
    parseUnary isRecord parseRecord (parseExpression isRecord parseRecord n)
      (e.signs.map Sign.lexeme ++ t :: rest) = some (x, ts) ∧
    ts.length < (e.signs.map Sign.lexeme ++ t :: rest).length ∧
    ItemsAt operatorLexeme
      (parseUnary isRecord parseRecord (parseExpression isRecord parseRecord n)) ts items (t :: rest)
  /-- The bootstrap compiler. -/
  stage0 : ∀ n t rest, e.signs.length ≤ n → Stage0.EndsExpression t → ∃ ts,
    Stage0.parseUnary (Stage0.parseExpression n) (e.signs.map Sign.stage0 ++ t :: rest) =
      some (x, ts) ∧
    ts.length < (e.signs.map Sign.stage0 ++ t :: rest).length ∧
    ItemsAt Stage0.operatorToken (Stage0.parseUnary (Stage0.parseExpression n)) ts items (t :: rest)

/-- Both parsers read an expression as `g`. -/
structure Chain.Reads (e : Chain) (g : Grouping) : Prop where
  /-- The compiler. -/
  compiler : ∀ n t rest, e.signs.length < n → EndsExpression isRecord e.signs t →
    parseExpression isRecord parseRecord n (e.signs.map Sign.lexeme ++ t :: rest) =
      some (g, t :: rest)
  /-- The bootstrap compiler. -/
  stage0 : ∀ n t rest, e.signs.length < n → Stage0.EndsExpression t →
    Stage0.parseExpression n (e.signs.map Sign.stage0 ++ t :: rest) = some (g, t :: rest)

/-- Both parsers read the arguments of a call as `gs`. -/
structure Arguments.Reads (a : Arguments) (gs : List Grouping) : Prop where
  /-- The compiler. -/
  compiler : ∀ n rest j, a.signs.length < n → a.signs.length < j →
    parseArguments (parseExpression isRecord parseRecord n) j
      (a.signs.map Sign.lexeme ++ Sign.right.lexeme :: rest) = some (gs, Sign.right.lexeme :: rest)
  /-- The bootstrap compiler. -/
  stage0 : ∀ n rest j, a.signs.length < n → a.signs.length < j → a.signs ≠ [] →
    Stage0.parseArgumentsFrom (Stage0.parseExpression n) j
      (a.signs.map Sign.stage0 ++ Sign.right.stage0 :: rest) = some (gs, Sign.right.stage0 :: rest)

variable {isRecord parseRecord}

/-! ### Expressions -/

/-- The operands of a chain determine its grouping. -/
theorem Chain.ReadsItems.reads {e : Chain} {x : Grouping} {items : List (BinaryOperator × Grouping)}
    (h : e.ReadsItems isRecord parseRecord x items) : ∃ g, e.Reads isRecord parseRecord g := by
  obtain ⟨g, hg⟩ := exists_grouping x items
  refine ⟨g, fun n t rest hn ht => ?_, fun n t rest hn ht => ?_⟩
  · obtain ⟨n, rfl⟩ : ∃ m, n = m + 1 := ⟨n - 1, by omega⟩
    obtain ⟨ts, hunary, hlength, hitems⟩ := h.compiler n t rest (by omega) ht
    exact parseOr_eq ht.level ht.and ht.or hunary hlength hitems hg
  · obtain ⟨n, rfl⟩ : ∃ m, n = m + 1 := ⟨n - 1, by omega⟩
    obtain ⟨ts, hunary, hlength, hitems⟩ := h.stage0 n t rest (by omega) ht
    exact Stage0.parseOr_eq ht.operator hunary hlength hitems hg

/-- A chain of one operand. -/
theorem Operand.Reads.chain {x : Operand} {g : Grouping} (h : x.Reads isRecord parseRecord g) :
    (Chain.operand x).ReadsItems isRecord parseRecord g [] := by
  have hpos := x.signs_length_pos
  refine ⟨fun n t rest hn ht => ⟨t :: rest, ?_, ?_, .nil _⟩,
    fun n t rest hn ht => ⟨t :: rest, ?_, ?_, .nil _⟩⟩
  · exact h.compiler n t rest hn ht.toEndsOperand
  · rw [Chain.signs, List.length_append, List.length_map]
    omega
  · exact h.stage0 n t rest hn ht.toEndsOperand
  · rw [Chain.signs, List.length_append, List.length_map]
    omega

/-- A chain that starts with one more operand. -/
theorem Operand.Reads.chain_cons {x : Operand} {g g' : Grouping} {o : BinaryOperator} {e : Chain}
    {items : List (BinaryOperator × Grouping)} (h : x.Reads isRecord parseRecord g)
    (he : e.ReadsItems isRecord parseRecord g' items) :
    (Chain.binary x o e).ReadsItems isRecord parseRecord g ((o, g') :: items) := by
  have hsigns : (Chain.binary x o e).signs = x.signs ++ .operator o :: e.signs := by
    rw [Chain.signs]
  have hsub : e.signs ⊆ (Chain.binary x o e).signs := fun s hs => by
    rw [hsigns]
    exact List.mem_append_right _ (List.mem_cons_of_mem _ hs)
  have hpos := x.signs_length_pos
  constructor
  · intro n t rest hn ht
    rw [hsigns, List.length_append, List.length_cons] at hn
    obtain ⟨ts, hunary, hlength, hitems⟩ := he.compiler n t rest (by omega) (ht.mono hsub)
    have hfirst := h.compiler n (operatorLexeme o) (e.signs.map Sign.lexeme ++ t :: rest) (by omega)
      (endsOperand_operator isRecord x.signs o).1
    refine ⟨_, ?_, ?_, .cons hunary hlength hitems⟩
    · rw [hsigns, List.map_append, List.map_cons, List.append_assoc, List.cons_append]
      exact hfirst
    · rw [hsigns, List.map_append, List.map_cons, List.append_assoc, List.cons_append,
        List.length_append, List.length_map, List.length_cons]
      omega
  · intro n t rest hn ht
    rw [hsigns, List.length_append, List.length_cons] at hn
    obtain ⟨ts, hunary, hlength, hitems⟩ := he.stage0 n t rest (by omega) ht
    have hfirst := h.stage0 n (Stage0.operatorToken o) (e.signs.map Sign.stage0 ++ t :: rest)
      (by omega) (endsOperand_operator isRecord [] o).2
    refine ⟨_, ?_, ?_, .cons hunary hlength hitems⟩
    · rw [hsigns, List.map_append, List.map_cons, List.append_assoc, List.cons_append]
      exact hfirst
    · rw [hsigns, List.map_append, List.map_cons, List.append_assoc, List.cons_append,
        List.length_append, List.length_map, List.length_cons]
      omega

/-! ### Operands with unary operators -/

/-- The loop over members ends before a token that is none. -/
theorem parsePrimaryLoop_end {parser : Parser Lexeme} {t : Lexeme}
    (ht : ¬ (t.kind = .punctuation ∧ (t.text = "." ∨ t.text = "["))) (j : ℕ) (g : Grouping)
    (rest : List Lexeme) : parsePrimaryLoop parser (j + 1) g (t :: rest) = some (g, t :: rest) := by
  unfold parsePrimaryLoop
  exact if_neg ht

/-- So does the one of the bootstrap compiler. -/
theorem Stage0.parsePrimaryLoop_end {parser : Stage0.Parser} {t : Stage0Token}
    (ht : Stage0.EndsOperand t) (j : ℕ) (g : Grouping) (rest : List Stage0Token) :
    Stage0.parsePrimaryLoop parser (j + 1) g (t :: rest) = some (g, t :: rest) := by
  unfold Stage0.parsePrimaryLoop
  exact (if_neg ht.member).trans (if_neg ht.position)

/-- An Integer literal. -/
theorem operand_reads_integer (literal : IntegerLiteral) :
    (Operand.integer literal).Reads isRecord parseRecord (.integer (digitsValue literal.digits)) := by
  obtain ⟨digits, hchecked, hvalue⟩ := literal.checked false
  constructor
  · intro n t rest _ ht
    have hatom : parseAtom isRecord parseRecord (parseExpression isRecord parseRecord n)
        ((Sign.integer literal).lexeme :: t :: rest) =
          some (.integer (digitsValue literal.digits), t :: rest) := by
      simp [parseAtom, Sign.lexeme, hchecked, hvalue]
    change parseUnary _ _ _ ((Sign.integer literal).lexeme :: t :: rest) = _
    rw [parseUnary, if_neg (by simp [Sign.lexeme]), parsePrimary, hatom]
    exact parsePrimaryLoop_end ht.member _ _ _
  · intro n t rest _ ht
    change Stage0.parseUnary _ ((Sign.integer literal).stage0 :: t :: rest) = _
    rw [Stage0.parseUnary, if_neg (by simp [Sign.stage0]), Stage0.parsePrimary]
    exact Stage0.parsePrimaryLoop_end ht _ _ _

/-- An operand without a unary operator. -/
theorem Primary.Reads.operand {p : Primary} {g : Grouping} {k : ℕ}
    (h : p.Reads isRecord parseRecord g k) :
    (Operand.primary p).Reads isRecord parseRecord g := by
  obtain ⟨s, l, hs, hstarts⟩ := p.signs_head
  obtain ⟨hunary, -, hstage0⟩ := hstarts.ne_unary
  have hturns := h.turns
  constructor
  · intro n t rest hn ht
    have hread := h.compiler n t rest (p.signs.length + rest.length - k + 1) hn ht.toEndsName
    rw [parsePrimaryLoop_end ht.member] at hread
    rw [Operand.signs, ← hread]
    have hcons : p.signs.map Sign.lexeme ++ t :: rest =
        s.lexeme :: (l.map Sign.lexeme ++ t :: rest) := by rw [hs]; rfl
    have hlength : (p.signs.map Sign.lexeme ++ t :: rest).length =
        p.signs.length + rest.length - k + 1 + k := by
      rw [List.length_append, List.length_map, List.length_cons]
      omega
    rw [← hlength, hcons]
    unfold parseUnary
    exact if_neg hunary
  · intro n t rest hn ht
    have hread := h.stage0 n t rest (p.signs.length + rest.length - k + 1) hn ht.call
    rw [Stage0.parsePrimaryLoop_end ht] at hread
    rw [Operand.signs, ← hread]
    have hcons : p.signs.map Sign.stage0 ++ t :: rest =
        s.stage0 :: (l.map Sign.stage0 ++ t :: rest) := by rw [hs]; rfl
    have hlength : (p.signs.map Sign.stage0 ++ t :: rest).length =
        p.signs.length + rest.length - k + 1 + k := by
      rw [List.length_append, List.length_map, List.length_cons]
      omega
    rw [← hlength, hcons, Stage0.parseUnary, if_neg hstage0]
    rfl

/-- An operand behind a unary operator. -/
theorem Operand.Reads.not {x : Operand} {g : Grouping} (h : x.Reads isRecord parseRecord g) :
    (Operand.not x).Reads isRecord parseRecord (.unary "!" g) := by
  obtain ⟨s, l, hs, -⟩ := x.signs_head
  have hsub : x.signs ⊆ (Operand.not x).signs := fun s hs => List.mem_cons_of_mem _ hs
  have hlength : (Operand.not x).signs.length = x.signs.length + 1 := rfl
  constructor
  · intro n t rest hn ht
    have hread := h.compiler n t rest (by omega) (ht.mono hsub)
    change parseUnary _ _ _ (Sign.not.lexeme :: (x.signs.map Sign.lexeme ++ t :: rest)) = _
    rw [hs] at hread ⊢
    rw [List.map_cons, List.cons_append] at hread ⊢
    rw [parseUnary, if_pos (by decide)]
    simp only
    rw [if_neg (fun h => absurd h.1 (by decide)), hread]
    rfl
  · intro n t rest hn ht
    have hread := h.stage0 n t rest (by omega) ht
    change Stage0.parseUnary _ (Sign.not.stage0 :: (x.signs.map Sign.stage0 ++ t :: rest)) = _
    rw [Stage0.parseUnary, if_pos (by decide), hread]
    rfl

/-- An Integer literal behind a minus sign, which the compiler reads as one literal. -/
theorem operand_reads_negative_integer (literal : IntegerLiteral) :
    (Operand.negative (.integer literal)).Reads isRecord parseRecord
      (.unary "-" (.integer (digitsValue literal.digits))) := by
  obtain ⟨digits, hchecked, hvalue⟩ := literal.checked true
  constructor
  · intro n t rest _ _
    change parseUnary _ _ _ ((Sign.operator .subtract).lexeme ::
      (Sign.integer literal).lexeme :: t :: rest) = _
    simp [parseUnary, Sign.lexeme, BinaryOperator.text, hchecked, hvalue]
  · intro n t rest hn ht
    have hinteger : (Operand.integer literal).Reads isRecord parseRecord _ :=
      operand_reads_integer literal
    have hread := hinteger.stage0 n t rest (Nat.le_of_succ_le hn) ht
    change Stage0.parseUnary _ ((Sign.operator .subtract).stage0 ::
      ((Operand.integer literal).signs.map Sign.stage0 ++ t :: rest)) = _
    rw [Stage0.parseUnary, if_pos (by decide), hread]
    rfl

/-- Another operand behind a minus sign. -/
theorem Operand.Reads.negative {x : Operand} {g : Grouping} (h : x.Reads isRecord parseRecord g)
    (hx : ∀ literal, x ≠ .integer literal) :
    (Operand.negative x).Reads isRecord parseRecord (.unary "-" g) := by
  obtain ⟨s, l, hs, -⟩ := x.signs_head
  have hkind := x.head_ne_integer hs hx
  have hsub : x.signs ⊆ (Operand.negative x).signs := fun s hs => List.mem_cons_of_mem _ hs
  have hlength : (Operand.negative x).signs.length = x.signs.length + 1 := rfl
  constructor
  · intro n t rest hn ht
    have hread := h.compiler n t rest (by omega) (ht.mono hsub)
    change parseUnary _ _ _ ((Sign.operator .subtract).lexeme ::
      (x.signs.map Sign.lexeme ++ t :: rest)) = _
    rw [hs] at hread ⊢
    rw [List.map_cons, List.cons_append] at hread ⊢
    rw [parseUnary, if_pos (by decide)]
    simp only
    rw [if_neg (fun h => hkind h.2), hread]
    rfl
  · intro n t rest hn ht
    have hread := h.stage0 n t rest (by omega) ht
    change Stage0.parseUnary _ ((Sign.operator .subtract).stage0 ::
      (x.signs.map Sign.stage0 ++ t :: rest)) = _
    rw [Stage0.parseUnary, if_pos (by decide), hread]
    rfl

/-! ### Names, literals and parentheses -/

/-- A name. -/
theorem primary_reads_name (name : ValueName) :
    (Primary.name name).Reads isRecord parseRecord (.name name.text) 0 := by
  have hboolean : ¬ (name.text = "true" ∨ name.text = "false") := not_or.mpr name.ne_boolean
  refine ⟨Nat.one_pos, fun n t rest j _ ht => ?_, fun n t rest j _ ht => ?_⟩
  · have hrecord : ¬ (t.kind = .punctuation ∧ t.text = "\x7b" ∧ isRecord name.text = true) :=
      fun ⟨hkind, htext, h⟩ => by
        rw [ht.record hkind htext name.text List.mem_cons_self] at h
        cases h
    have hatom : parseAtom isRecord parseRecord (parseExpression isRecord parseRecord n)
        ((Sign.name name.text).lexeme :: t :: rest) = some (.name name.text, t :: rest) := by
      simp only [parseAtom, Sign.lexeme, if_true, if_neg hboolean, if_neg ht.call]
      exact if_neg hrecord
    change parseAtom _ _ _ ((Sign.name name.text).lexeme :: t :: rest) >>= _ = _
    rw [hatom]
    rfl
  · have hatom : Stage0.parseAtom (Stage0.parseExpression n)
        ((Sign.name name.text).stage0 :: t :: rest) = some (.name name.text, t :: rest) := by
      simp [Stage0.parseAtom, Sign.stage0, name.ne_boolean, ht]
    change Stage0.parseAtom _ ((Sign.name name.text).stage0 :: t :: rest) >>= _ = _
    rw [hatom]
    rfl

/-- A Text. -/
theorem primary_reads_text (value : String) :
    (Primary.text value).Reads isRecord parseRecord (.text value) 0 :=
  ⟨Nat.one_pos, fun _ _ _ _ _ _ => rfl, fun _ _ _ _ _ _ => rfl⟩

/-- A Character. -/
theorem primary_reads_character (value : Char) :
    (Primary.character value).Reads isRecord parseRecord (.character value) 0 := by
  refine ⟨Nat.one_pos, fun _ _ _ _ _ _ => ?_, fun n t rest j _ ht => ?_⟩
  · have hhead : (String.singleton value).toList.headD ' ' = value := by simp
    change some (Grouping.character ((String.singleton value).toList.headD ' '), _) >>= _ = _
    rw [hhead]
    rfl
  · change some (Grouping.character (Char.ofNat value.toNat), t :: rest) >>= _ = _
    rw [Char.ofNat_toNat]
    rfl

/-- A Boolean. -/
theorem primary_reads_boolean (value : Bool) :
    (Primary.boolean value).Reads isRecord parseRecord (.boolean value) 0 := by
  cases value
  · exact ⟨Nat.one_pos, fun _ _ _ _ _ _ => rfl, fun _ _ _ _ _ _ => rfl⟩
  · exact ⟨Nat.one_pos, fun _ _ _ _ _ _ => rfl, fun _ _ _ _ _ _ => rfl⟩

/-- The empty List. -/
theorem primary_reads_emptyList :
    Primary.emptyList.Reads isRecord parseRecord (.list []) 0 :=
  ⟨Nat.succ_pos _, fun _ _ _ _ _ _ => rfl, fun _ _ _ _ _ _ => rfl⟩

/-- An expression in parentheses. -/
theorem Chain.Reads.paren {e : Chain} {g : Grouping} (h : e.Reads isRecord parseRecord g) :
    (Primary.paren e).Reads isRecord parseRecord g 0 := by
  have hends := endsExpression_closing isRecord e.signs (s := .right) (Or.inl rfl)
  have hsigns : (Primary.paren e).signs = .left :: (e.signs ++ [.right]) := by rw [Primary.signs]
  have hlength : (Primary.paren e).signs.length = e.signs.length + 2 := by
    rw [hsigns, List.length_cons, List.length_append, List.length_singleton]
  refine ⟨by omega, fun n t rest j hn _ => ?_, fun n t rest j hn _ => ?_⟩
  · have hread := h.compiler n _ (t :: rest) (by omega) hends.1
    have hatom : parseAtom isRecord parseRecord (parseExpression isRecord parseRecord n)
        (Sign.left.lexeme :: (e.signs.map Sign.lexeme ++ Sign.right.lexeme :: t :: rest)) =
          some (g, t :: rest) := by
      simp only [parseAtom, Sign.lexeme] at hread ⊢
      simp [hread, expectToken, Lexeme.is]
    rw [hsigns, List.map_cons, List.map_append, List.cons_append, List.append_assoc]
    change parseAtom _ _ _ (Sign.left.lexeme :: (e.signs.map Sign.lexeme ++ Sign.right.lexeme ::
      t :: rest)) >>= _ = _
    rw [hatom]
    rfl
  · have hread := h.stage0 n _ (t :: rest) (by omega) hends.2
    have hatom : Stage0.parseAtom (Stage0.parseExpression n)
        (Sign.left.stage0 :: (e.signs.map Sign.stage0 ++ Sign.right.stage0 :: t :: rest)) =
          some (g, t :: rest) := by
      simp only [Stage0.parseAtom, Sign.stage0] at hread ⊢
      simp [hread, Stage0.expect]
    rw [hsigns, List.map_cons, List.map_append, List.cons_append, List.append_assoc]
    change Stage0.parseAtom _ (Sign.left.stage0 :: (e.signs.map Sign.stage0 ++
      Sign.right.stage0 :: t :: rest)) >>= _ = _
    rw [hatom]
    rfl

/-! ### Arguments -/

/-- The arguments of a call with the parenthesis behind them. -/
theorem Arguments.Reads.parseArguments {a : Arguments} {gs : List Grouping}
    (h : a.Reads isRecord parseRecord gs) (hhead : a.signs = [] ∧ gs = [] ∨
      ∃ s l, a.signs = s :: l ∧ s.StartsOperand) {n : ℕ} (hn : a.signs.length < n)
    (t : Stage0Token) (rest : List Stage0Token) :
    Stage0.parseArguments (Stage0.parseExpression n)
      (a.signs.map Sign.stage0 ++ Sign.right.stage0 :: t :: rest) = some (gs, t :: rest) := by
  rcases hhead with ⟨hempty, rfl⟩ | ⟨s, l, hs, hstarts⟩
  · rw [hempty]
    rfl
  · have hread := h.stage0 n (t :: rest)
      (a.signs.map Sign.stage0 ++ Sign.right.stage0 :: t :: rest).length hn
      (by rw [List.length_append, List.length_map, List.length_cons]; omega) (by simp [hs])
    have hcons : a.signs.map Sign.stage0 ++ Sign.right.stage0 :: t :: rest =
        s.stage0 :: (l.map Sign.stage0 ++ Sign.right.stage0 :: t :: rest) := by rw [hs]; rfl
    rw [hcons] at hread ⊢
    unfold Stage0.parseArguments
    simp only
    rw [if_pos hstarts.ne_right.2, hread]
    rfl

/-- No arguments. -/
theorem arguments_reads_none : Arguments.none.Reads isRecord parseRecord [] := by
  refine ⟨fun n rest j _ hj => ?_, fun _ _ _ _ _ h => absurd rfl h⟩
  obtain ⟨j, rfl⟩ : ∃ i, j = i + 1 := ⟨j - 1, by omega⟩
  rfl

/-- The last argument. -/
theorem Chain.Reads.last {e : Chain} {g : Grouping} (h : e.Reads isRecord parseRecord g) :
    (Arguments.last e).Reads isRecord parseRecord [g] := by
  have hends := endsExpression_closing isRecord e.signs (s := .right) (Or.inl rfl)
  obtain ⟨s, l, hs, hstarts⟩ := e.signs_head
  have hsigns : (Arguments.last e).signs = e.signs := by rw [Arguments.signs]
  have hpos : 0 < e.signs.length := by simp [hs]
  constructor
  · intro n rest j hn hj
    rw [hsigns] at hn hj ⊢
    obtain ⟨j, rfl⟩ : ∃ i, j = i + 2 := ⟨j - 2, by omega⟩
    have hread := h.compiler n _ rest hn hends.1
    have hcons : e.signs.map Sign.lexeme ++ Sign.right.lexeme :: rest =
        s.lexeme :: (l.map Sign.lexeme ++ Sign.right.lexeme :: rest) := by rw [hs]; rfl
    rw [hcons] at hread ⊢
    simp only [parseArguments, hstarts.ne_right.1, hread]
    rfl
  · intro n rest j hn hj _
    rw [hsigns] at hn hj ⊢
    obtain ⟨j, rfl⟩ : ∃ i, j = i + 1 := ⟨j - 1, by omega⟩
    rw [Stage0.parseArgumentsFrom, h.stage0 n _ rest hn hends.2]
    rfl

/-- An argument with a comma behind it. -/
theorem Chain.Reads.arguments_cons {e : Chain} {g : Grouping} {a : Arguments} {gs : List Grouping}
    (h : e.Reads isRecord parseRecord g) (ha : a.Reads isRecord parseRecord gs)
    (hhead : a.signs = [] ∧ gs = [] ∨ ∃ s l, a.signs = s :: l ∧ s.StartsOperand) :
    (Arguments.cons e a).Reads isRecord parseRecord (g :: gs) := by
  have hends := endsExpression_closing isRecord e.signs (s := .comma) (Or.inr (Or.inr rfl))
  obtain ⟨s, l, hs, hstarts⟩ := e.signs_head
  have hsigns : (Arguments.cons e a).signs = e.signs ++ .comma :: a.signs := by rw [Arguments.signs]
  have hlength : (Arguments.cons e a).signs.length = e.signs.length + a.signs.length + 1 := by
    rw [hsigns, List.length_append, List.length_cons]
    omega
  constructor
  · intro n rest j hn hj
    obtain ⟨j, rfl⟩ : ∃ i, j = i + 1 := ⟨j - 1, by omega⟩
    have hread := h.compiler n _ (a.signs.map Sign.lexeme ++ Sign.right.lexeme :: rest) (by omega)
      hends.1
    have hrest := ha.compiler n rest j (by omega) (by omega)
    rw [hsigns, List.map_append, List.map_cons, List.append_assoc, List.cons_append]
    have hcons : ∀ ts, e.signs.map Sign.lexeme ++ ts =
        s.lexeme :: (l.map Sign.lexeme ++ ts) := fun ts => by rw [hs]; rfl
    rw [hcons] at hread ⊢
    simp only [parseArguments, hstarts.ne_right.1, hread]
    change (parseArguments _ j (a.signs.map Sign.lexeme ++ Sign.right.lexeme :: rest)) >>= _ = _
    rw [hrest]
    rfl
  · intro n rest j hn hj _
    obtain ⟨j, rfl⟩ : ∃ i, j = i + 1 := ⟨j - 1, by omega⟩
    have hread := h.stage0 n _ (a.signs.map Sign.stage0 ++ Sign.right.stage0 :: rest) (by omega)
      hends.2
    rw [hsigns, List.map_append, List.map_cons, List.append_assoc, List.cons_append,
      Stage0.parseArgumentsFrom, hread]
    rcases hhead with ⟨hempty, rfl⟩ | ⟨s', l', hs', hstarts'⟩
    · rw [hempty]
      rfl
    · have hrest := ha.stage0 n rest j (by omega) (by omega) (by simp [hs'])
      have hcons : a.signs.map Sign.stage0 ++ Sign.right.stage0 :: rest =
          s'.stage0 :: (l'.map Sign.stage0 ++ Sign.right.stage0 :: rest) := by rw [hs']; rfl
      have hcomma : Sign.comma.stage0.kind = .single ',' := rfl
      rw [hcons] at hrest ⊢
      simp [hcomma, hstarts'.ne_right.2, hrest]

/-- A call. -/
theorem Arguments.Reads.call {a : Arguments} {gs : List Grouping} (name : ValueName)
    (h : a.Reads isRecord parseRecord gs)
    (hhead : a.signs = [] ∧ gs = [] ∨ ∃ s l, a.signs = s :: l ∧ s.StartsOperand) :
    (Primary.call name a).Reads isRecord parseRecord (.call name.text gs) 0 := by
  have hboolean : ¬ (name.text = "true" ∨ name.text = "false") := not_or.mpr name.ne_boolean
  have hsigns : (Primary.call name a).signs =
      .name name.text :: .left :: (a.signs ++ [.right]) := by rw [Primary.signs]
  have hlength : (Primary.call name a).signs.length = a.signs.length + 3 := by
    rw [hsigns, List.length_cons, List.length_cons, List.length_append, List.length_singleton]
  refine ⟨by omega, fun n t rest j hn _ => ?_, fun n t rest j hn _ => ?_⟩
  · have hread := h.compiler n (t :: rest)
      (a.signs.map Sign.lexeme ++ Sign.right.lexeme :: t :: rest).length (by omega)
      (by rw [List.length_append, List.length_map, List.length_cons]; omega)
    have hatom : parseAtom isRecord parseRecord (parseExpression isRecord parseRecord n)
        ((Sign.name name.text).lexeme :: Sign.left.lexeme ::
          (a.signs.map Sign.lexeme ++ Sign.right.lexeme :: t :: rest)) =
            some (.call name.text gs, t :: rest) := by
      have hcall : parseCall (parseExpression isRecord parseRecord n)
          ((Sign.name name.text).lexeme :: Sign.left.lexeme ::
            (a.signs.map Sign.lexeme ++ Sign.right.lexeme :: t :: rest)) =
              some (.call name.text gs, t :: rest) := by
        change (Minyar.parseArguments _ _ _) >>= _ = _
        rw [hread]
        rfl
      simp only [parseAtom, Sign.lexeme, if_true, if_neg hboolean] at hcall ⊢
      exact hcall
    rw [hsigns, List.map_cons, List.map_cons, List.map_append, List.cons_append, List.cons_append,
      List.append_assoc]
    change parseAtom _ _ _ ((Sign.name name.text).lexeme :: Sign.left.lexeme ::
      (a.signs.map Sign.lexeme ++ Sign.right.lexeme :: t :: rest)) >>= _ = _
    rw [hatom]
    rfl
  · have hread := h.parseArguments hhead (n := n) (by omega) t rest
    have hatom : Stage0.parseAtom (Stage0.parseExpression n)
        ((Sign.name name.text).stage0 :: Sign.left.stage0 ::
          (a.signs.map Sign.stage0 ++ Sign.right.stage0 :: t :: rest)) =
            some (.call name.text gs, t :: rest) := by
      have hname : (Sign.name name.text).stage0 = { kind := .name, text := name.text } := rfl
      simp [Stage0.parseAtom, hname, name.ne_boolean, hread, show
        Sign.left.stage0.kind = .single '(' from rfl]
    rw [hsigns, List.map_cons, List.map_cons, List.map_append, List.cons_append, List.cons_append,
      List.append_assoc]
    change Stage0.parseAtom _ ((Sign.name name.text).stage0 :: Sign.left.stage0 ::
      (a.signs.map Sign.stage0 ++ Sign.right.stage0 :: t :: rest)) >>= _ = _
    rw [hatom]
    rfl

/-! ### Members and positions -/

/-- What follows an operand takes one more turn of the loops. -/
theorem Primary.Reads.turn {p q : Primary} {g g' : Grouping} {k : ℕ} {s : Sign} {l : List Sign}
    (h : p.Reads isRecord parseRecord g k) (hsigns : q.signs = p.signs ++ s :: l)
    (hs : s = .dot ∨ s = .leftBracket)
    (hcompiler : ∀ n t rest j, q.signs.length ≤ n → EndsName isRecord q.signs t →
      parsePrimaryLoop (parseExpression isRecord parseRecord n) (j + 1) g
        (s.lexeme :: (l.map Sign.lexeme ++ t :: rest)) =
      parsePrimaryLoop (parseExpression isRecord parseRecord n) j g' (t :: rest))
    (hstage0 : ∀ n t rest j, q.signs.length ≤ n → t.kind ≠ .single '(' →
      Stage0.parsePrimaryLoop (Stage0.parseExpression n) (j + 1) g
        (s.stage0 :: (l.map Sign.stage0 ++ t :: rest)) =
      Stage0.parsePrimaryLoop (Stage0.parseExpression n) j g' (t :: rest)) :
    q.Reads isRecord parseRecord g' (k + 1) := by
  have hends := endsName_member isRecord p.signs hs
  have hturns := h.turns
  have hlength : q.signs.length = p.signs.length + l.length + 1 := by
    rw [hsigns, List.length_append, List.length_cons]
    omega
  refine ⟨by omega, fun n t rest j hn ht => ?_, fun n t rest j hn ht => ?_⟩
  · rw [← hcompiler n t rest j hn ht, ← h.compiler n _ _ (j + 1) (by omega) hends.1, hsigns,
      List.map_append, List.map_cons, List.append_assoc, List.cons_append,
      show j + (k + 1) = j + 1 + k by omega]
  · rw [← hstage0 n t rest j hn ht, ← h.stage0 n _ _ (j + 1) (by omega) hends.2, hsigns,
      List.map_append, List.map_cons, List.append_assoc, List.cons_append,
      show j + (k + 1) = j + 1 + k by omega]

/-- A member. -/
theorem Primary.Reads.member {p : Primary} {g : Grouping} {k : ℕ}
    (h : p.Reads isRecord parseRecord g k) (name : String) :
    (Primary.member p name).Reads isRecord parseRecord (.member g name) (k + 1) := by
  refine h.turn (by rw [Primary.signs]) (Or.inl rfl) (fun n t rest j _ ht => ?_)
    (fun n t rest j _ ht => ?_)
  · have hcall : t.is "(" = false := by simp [Lexeme.is, ht.call]
    simp [parsePrimaryLoop, Sign.lexeme, hcall]
  · simp [Stage0.parsePrimaryLoop, Sign.stage0, ht]

/-- An element. -/
theorem Primary.Reads.index {p : Primary} {e : Chain} {g g' : Grouping} {k : ℕ}
    (h : p.Reads isRecord parseRecord g k) (he : e.Reads isRecord parseRecord g') :
    (Primary.index p e).Reads isRecord parseRecord (.index g g') (k + 1) := by
  have hends := endsExpression_closing isRecord e.signs (s := .rightBracket) (Or.inr (Or.inl rfl))
  have hsigns : (Primary.index p e).signs =
      p.signs ++ .leftBracket :: (e.signs ++ [.rightBracket]) := by rw [Primary.signs]
  have hlength : (Primary.index p e).signs.length = p.signs.length + e.signs.length + 2 := by
    rw [hsigns, List.length_append, List.length_cons, List.length_append, List.length_singleton]
    omega
  have hturns := h.turns
  refine h.turn hsigns (Or.inr rfl) (fun n t rest j hn _ => ?_) (fun n t rest j hn _ => ?_)
  · have hread := he.compiler n _ (t :: rest) (by omega) hends.1
    rw [List.map_append, List.append_assoc]
    simp only [Sign.lexeme] at hread
    simp [parsePrimaryLoop, Sign.lexeme, hread, expectToken, Lexeme.is]
  · have hread := he.stage0 n _ (t :: rest) (by omega) hends.2
    rw [List.map_append, List.append_assoc]
    simp only [Sign.stage0] at hread
    simp [Stage0.parsePrimaryLoop, Sign.stage0, hread, Stage0.expect]

/-- The loop of the compiler at a method that is read. -/
theorem parsePrimaryLoop_method {parser : Parser Lexeme} {g g' : Grouping} {name : String}
    {ts ts' : List Lexeme} (h : parseMethod parser g name ts = some (g', ts')) (j : ℕ) :
    parsePrimaryLoop parser (j + 1) g
      (Sign.dot.lexeme :: (Sign.name name).lexeme :: Sign.left.lexeme :: ts) =
        parsePrimaryLoop parser j g' ts' := by
  simp [parsePrimaryLoop, Sign.lexeme, Lexeme.is, h]

/-- The loop of the bootstrap compiler at a method whose arguments are read. -/
theorem Stage0.parsePrimaryLoop_method {parser : Stage0.Parser} {g : Grouping} {gs : List Grouping}
    {ts ts' : List Stage0Token} (h : Stage0.parseArguments parser ts = some (gs, ts'))
    (name : String) (j : ℕ) :
    Stage0.parsePrimaryLoop parser (j + 1) g
      (Sign.dot.stage0 :: (Sign.name name).stage0 :: Sign.left.stage0 :: ts) =
        Stage0.parsePrimaryLoop parser j (.method g name gs) ts' := by
  simp [Stage0.parsePrimaryLoop, Sign.stage0, h]

/-- A method with one argument. -/
theorem Primary.Reads.method {p : Primary} {e : Chain} {g g' : Grouping} {k : ℕ}
    (h : p.Reads isRecord parseRecord g k) (he : e.Reads isRecord parseRecord g')
    (appended : Bool) :
    (Primary.method p appended e).Reads isRecord parseRecord
      (.method g (if appended then "appended" else "add") [g']) (k + 1) := by
  have hends := endsExpression_closing isRecord e.signs (s := .right) (Or.inl rfl)
  have hsigns : (Primary.method p appended e).signs = p.signs ++ .dot ::
      (.name (if appended then "appended" else "add") :: .left :: (e.signs ++ [.right])) := by
    rw [Primary.signs]
  have hlength : (Primary.method p appended e).signs.length = p.signs.length + e.signs.length + 4 := by
    rw [hsigns, List.length_append, List.length_cons, List.length_cons, List.length_cons,
      List.length_append, List.length_singleton]
    omega
  have hturns := h.turns
  refine h.turn hsigns (Or.inl rfl) (fun n t rest j hn _ => ?_) (fun n t rest j hn _ => ?_)
  · have hread := he.compiler n _ (t :: rest) (by omega) hends.1
    rw [List.map_cons, List.map_cons, List.map_append, List.cons_append, List.cons_append,
      List.append_assoc]
    refine parsePrimaryLoop_method ?_ j
    change parseMethod _ _ _ (e.signs.map Sign.lexeme ++ Sign.right.lexeme :: t :: rest) = _
    rw [parseMethod, hread]
    cases appended <;> rfl
  · have hread := he.last.parseArguments (Or.inr e.signs_head) (n := n)
      (by rw [Arguments.signs]; omega) t rest
    rw [List.map_cons, List.map_cons, List.map_append, List.cons_append, List.cons_append,
      List.append_assoc]
    exact Stage0.parsePrimaryLoop_method hread _ j

/-- A slice. -/
theorem Primary.Reads.slice {p : Primary} {e e' : Chain} {g g₁ g₂ : Grouping} {k : ℕ}
    (h : p.Reads isRecord parseRecord g k) (he : e.Reads isRecord parseRecord g₁)
    (he' : e'.Reads isRecord parseRecord g₂) :
    (Primary.slice p e e').Reads isRecord parseRecord (.method g "slice" [g₁, g₂]) (k + 1) := by
  have hends := endsExpression_closing isRecord e.signs (s := .comma) (Or.inr (Or.inr rfl))
  have hends' := endsExpression_closing isRecord e'.signs (s := .right) (Or.inl rfl)
  have hsigns : (Primary.slice p e e').signs = p.signs ++ .dot ::
      (.name "slice" :: .left :: (e.signs ++ .comma :: (e'.signs ++ [.right]))) := by
    rw [Primary.signs]
  have hlength : (Primary.slice p e e').signs.length =
      p.signs.length + e.signs.length + e'.signs.length + 5 := by
    rw [hsigns, List.length_append, List.length_cons, List.length_cons, List.length_cons,
      List.length_append, List.length_cons, List.length_append, List.length_singleton]
    omega
  have hturns := h.turns
  refine h.turn hsigns (Or.inl rfl) (fun n t rest j hn _ => ?_) (fun n t rest j hn _ => ?_)
  · have hread := he.compiler n _ (e'.signs.map Sign.lexeme ++ Sign.right.lexeme :: t :: rest)
      (by omega) hends.1
    have hread' := he'.compiler n _ (t :: rest) (by omega) hends'.1
    rw [List.map_cons, List.map_cons, List.map_append, List.map_cons, List.map_append,
      List.cons_append, List.cons_append, List.append_assoc, List.cons_append, List.append_assoc]
    refine parsePrimaryLoop_method ?_ j
    change parseMethod _ _ _ (e.signs.map Sign.lexeme ++ Sign.comma.lexeme ::
      (e'.signs.map Sign.lexeme ++ Sign.right.lexeme :: t :: rest)) = _
    rw [parseMethod, hread]
    change (parseExpression _ _ _ _) >>= _ = _
    rw [hread']
    rfl
  · have hhead : (Arguments.last e').signs = [] ∧ [g₂] = [] ∨
        ∃ s l, (Arguments.last e').signs = s :: l ∧ s.StartsOperand := Or.inr e'.signs_head
    obtain ⟨s, l, hs, hstarts⟩ := e.signs_head
    have hcons : (Arguments.cons e (.last e')).signs = e.signs ++ .comma :: e'.signs := by
      rw [Arguments.signs, Arguments.signs]
    have hread := (he.arguments_cons he'.last hhead).parseArguments
      (Or.inr ⟨s, l ++ .comma :: e'.signs, by rw [hcons, hs]; rfl, hstarts⟩) (n := n)
      (by rw [hcons, List.length_append, List.length_cons]; omega) t rest
    rw [hcons, List.map_append, List.map_cons, List.append_assoc, List.cons_append] at hread
    rw [List.map_cons, List.map_cons, List.map_append, List.map_cons, List.map_append,
      List.cons_append, List.cons_append, List.append_assoc, List.cons_append, List.append_assoc]
    exact Stage0.parsePrimaryLoop_method hread _ j

/-! ### All expressions -/

variable (isRecord parseRecord)

mutual

/-- Both parsers read every operand without a unary operator alike. -/
theorem Primary.reads : ∀ p : Primary, ∃ g k, p.Reads isRecord parseRecord g k
  | .name value => ⟨_, _, primary_reads_name value⟩
  | .text value => ⟨_, _, primary_reads_text value⟩
  | .character value => ⟨_, _, primary_reads_character value⟩
  | .boolean value => ⟨_, _, primary_reads_boolean value⟩
  | .emptyList => ⟨_, _, primary_reads_emptyList⟩
  | .call function a => by
    obtain ⟨gs, ha, hhead⟩ := a.reads
    exact ⟨_, _, ha.call function hhead⟩
  | .paren e => by
    obtain ⟨x, items, he⟩ := e.reads
    obtain ⟨g, hg⟩ := he.reads
    exact ⟨_, _, hg.paren⟩
  | .member p value => by
    obtain ⟨g, k, hp⟩ := p.reads
    exact ⟨_, _, hp.member value⟩
  | .method p appended e => by
    obtain ⟨g, k, hp⟩ := p.reads
    obtain ⟨x, items, he⟩ := e.reads
    obtain ⟨g', hg⟩ := he.reads
    exact ⟨_, _, hp.method hg appended⟩
  | .slice p e e' => by
    obtain ⟨g, k, hp⟩ := p.reads
    obtain ⟨x, items, he⟩ := e.reads
    obtain ⟨g₁, hg⟩ := he.reads
    obtain ⟨x', items', he'⟩ := e'.reads
    obtain ⟨g₂, hg'⟩ := he'.reads
    exact ⟨_, _, hp.slice hg hg'⟩
  | .index p e => by
    obtain ⟨g, k, hp⟩ := p.reads
    obtain ⟨x, items, he⟩ := e.reads
    obtain ⟨g', hg⟩ := he.reads
    exact ⟨_, _, hp.index hg⟩

/-- Both parsers read every operand alike. -/
theorem Operand.reads : ∀ x : Operand, ∃ g, x.Reads isRecord parseRecord g
  | .integer literal => ⟨_, operand_reads_integer literal⟩
  | .primary p => by
    obtain ⟨g, k, hp⟩ := p.reads
    exact ⟨g, hp.operand⟩
  | .not x => by
    obtain ⟨g, hx⟩ := x.reads
    exact ⟨_, hx.not⟩
  | .negative x => by
    by_cases hinteger : ∃ literal, x = .integer literal
    · obtain ⟨literal, rfl⟩ := hinteger
      exact ⟨_, operand_reads_negative_integer literal⟩
    · obtain ⟨g, hx⟩ := x.reads
      exact ⟨_, hx.negative fun literal h => hinteger ⟨literal, h⟩⟩

/-- Both parsers read the operands of every expression alike. -/
theorem Chain.reads : ∀ e : Chain, ∃ x items, e.ReadsItems isRecord parseRecord x items
  | .operand x => by
    obtain ⟨g, hx⟩ := x.reads
    exact ⟨_, _, hx.chain⟩
  | .binary x o e => by
    obtain ⟨g, hx⟩ := x.reads
    obtain ⟨x', items, he⟩ := e.reads
    exact ⟨_, _, hx.chain_cons he⟩

/-- Both parsers read the arguments of every call alike. -/
theorem Arguments.reads : ∀ a : Arguments, ∃ gs, a.Reads isRecord parseRecord gs ∧
    (a.signs = [] ∧ gs = [] ∨ ∃ s l, a.signs = s :: l ∧ s.StartsOperand)
  | .none => ⟨[], arguments_reads_none, Or.inl ⟨rfl, rfl⟩⟩
  | .last e => by
    obtain ⟨x, items, he⟩ := e.reads
    obtain ⟨g, hg⟩ := he.reads
    exact ⟨_, hg.last, Or.inr e.signs_head⟩
  | .cons e a => by
    obtain ⟨x, items, he⟩ := e.reads
    obtain ⟨g, hg⟩ := he.reads
    obtain ⟨gs, ha, hhead⟩ := a.reads
    obtain ⟨s, l, hs, hstarts⟩ := e.signs_head
    refine ⟨_, hg.arguments_cons ha hhead, Or.inr ⟨s, l ++ .comma :: a.signs, ?_, hstarts⟩⟩
    rw [Arguments.signs, hs]
    rfl

end

/-- Both compilers group every expression alike, however deep their parsers may go and whatever token
that cannot continue the expression is behind it. -/
theorem parseExpression_same_grouping (e : Chain) :
    ∃ g, (∀ n t rest, e.signs.length < n → EndsExpression isRecord e.signs t →
        parseExpression isRecord parseRecord n (e.signs.map Sign.lexeme ++ t :: rest) =
          some (g, t :: rest)) ∧
      ∀ n t rest, e.signs.length < n → Stage0.EndsExpression t →
        Stage0.parseExpression n (e.signs.map Sign.stage0 ++ t :: rest) = some (g, t :: rest) := by
  obtain ⟨x, items, he⟩ := e.reads isRecord parseRecord
  obtain ⟨g, hg⟩ := he.reads
  exact ⟨g, hg.compiler, hg.stage0⟩

end Reading

/-- The grouping of `!a || (a - b) * a < b` at the end of a file. -/
theorem parseExpression_same_grouping_or :
    let a : Operand := .primary (.name ⟨"a", forall_mem_of_all (by decide), by decide⟩)
    let b : Operand := .primary (.name ⟨"b", forall_mem_of_all (by decide), by decide⟩)
    let e : Chain := .binary (.not a) .or (.binary
      (.primary (.paren (.binary a .subtract (.operand b)))) .multiply
        (.binary a .less (.operand b)))
    ∃ g, parseExpression (fun _ => false) (fun _ => none) 20
        (e.signs.map Sign.lexeme ++ [⟨.endOfFile, ""⟩]) = some (g, [⟨.endOfFile, ""⟩]) ∧
      Stage0.parseExpression 20 (e.signs.map Sign.stage0 ++ [{ kind := .endOfFile }]) =
        some (g, [{ kind := .endOfFile }]) := by
  intro a b e
  obtain ⟨g, hcompiler, hstage0⟩ :=
    parseExpression_same_grouping (fun _ => false) (fun _ => none) e
  refine ⟨g, hcompiler 20 _ [] (by decide) ?_, hstage0 20 _ [] (by decide) ?_⟩
  · exact ⟨⟨⟨by decide, fun h => by cases h⟩, by decide⟩, by decide, by decide, by decide⟩
  · exact ⟨⟨by decide, by decide, by decide⟩, fun o => by cases o <;> decide⟩

end Minyar

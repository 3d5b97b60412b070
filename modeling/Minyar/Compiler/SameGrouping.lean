import Minyar.Compiler.Climbing
import Minyar.Compiler.Layers

/-!
# Both compilers group expressions alike

Both parsers read the same operands and operators.  The parser of the compiler climbs over the levels
of `operatorLevel` and has two more layers above, the bootstrap compiler has six layers; either way
the result is the climb over all operators, which is unique.
-/

namespace Minyar

/-! ## Integer literals -/

/-- Zeros in front do not count, and what is left starts with another digit. -/
theorem canonicalDigits_spec (digits : List Char) :
    digitsValue (canonicalDigits digits) = digitsValue digits ∧
      (∀ c ∈ canonicalDigits digits, c ∈ digits) ∧
      (2 ≤ (canonicalDigits digits).length → (canonicalDigits digits).head? ≠ some '0') := by
  induction digits with
  | nil => simp [canonicalDigits]
  | cons d digits ih =>
    cases digits with
    | nil => simp [canonicalDigits]
    | cons next digits =>
      rw [canonicalDigits]
      split_ifs with h0
      · obtain ⟨hvalue, hmem, hhead⟩ := ih
        refine ⟨?_, fun c hc => List.mem_cons_of_mem _ (hmem c hc), hhead⟩
        rw [hvalue, digitsValue_cons d, h0]
        simp
      · exact ⟨rfl, fun _ hc => hc, fun _ h => h0 (Option.some.inj h)⟩

/-- Numerals of one length are compared as their values are. -/
theorem digitsValue_lt_of_compareText {left right : List Char} (hlength : left.length = right.length)
    (hl : ∀ c ∈ left, IsDigit c) (hr : ∀ c ∈ right, IsDigit c)
    (h : 0 < compareText left right) : digitsValue right < digitsValue left := by
  induction left generalizing right with
  | nil =>
    cases right with
    | nil => cases h
    | cons _ _ => cases hlength
  | cons a left ih =>
    cases right with
    | nil => cases hlength
    | cons b right =>
      have hlength' : left.length = right.length := Nat.succ.inj hlength
      rw [compareText] at h
      rw [digitsValue_cons, digitsValue_cons, hlength']
      split_ifs at h with heq hlt
      · subst heq
        have := ih hlength' (fun c hc => hl c (List.mem_cons_of_mem _ hc))
          (fun c hc => hr c (List.mem_cons_of_mem _ hc)) h
        omega
      · omega
      · have hright := digitsValue_lt fun c hc => hr c (List.mem_cons_of_mem _ hc)
        have hb := (hr b List.mem_cons_self).toNat
        have hab : b.toNat < a.toNat := by
          have hle : b.toNat ≤ a.toNat := not_lt.mp hlt
          have hne : b.toNat ≠ a.toNat := fun h => heq (Char.toNat_inj.mp h.symm)
          omega
        have hmul := Nat.mul_le_mul_right (10 ^ right.length)
          (show b.toNat - '0'.toNat + 1 ≤ a.toNat - '0'.toNat by omega)
        rw [Nat.add_mul, Nat.one_mul] at hmul
        omega

/-- A literal that both compilers can read passes the check, which keeps its value. -/
theorem IntegerLiteral.checked (literal : IntegerLiteral) (negative : Bool) :
    ∃ digits, checkedIntegerLiteral literal.digits negative = some digits ∧
      digitsValue digits = digitsValue literal.digits := by
  obtain ⟨hvalue, hmem, hhead⟩ := canonicalDigits_spec literal.digits
  have hdigit : ∀ c ∈ canonicalDigits literal.digits, IsDigit c :=
    fun c hc => literal.digit c (hmem c hc)
  have hbound := literal.bound
  rw [← hvalue] at hbound
  unfold checkedIntegerLiteral
  simp only
  rw [if_neg]
  · exact ⟨_, rfl, hvalue⟩
  · rintro (hlong | ⟨hlength, hcompare⟩)
    · generalize canonicalDigits literal.digits = digits at *
      match digits with
      | [] => simp at hlong
      | d :: digits =>
        have hle : 10 ^ digits.length ≤ digitsValue (d :: digits) :=
          le_digitsValue (hdigit d List.mem_cons_self) (fun h => hhead (by omega) (by rw [h]; rfl))
        rw [List.length_cons] at hlong
        have hpow : 10 ^ 19 ≤ 10 ^ digits.length := Nat.pow_le_pow_right (by omega) (by omega)
        omega
    · have hlt : ∀ limit : List Char, limit.length = 19 → (∀ c ∈ limit, IsDigit c) →
          9223372036854775807 ≤ digitsValue limit →
          ¬ 0 < compareText (canonicalDigits literal.digits) limit := by
        intro limit hl hd hv h
        have := digitsValue_lt_of_compareText (hlength.trans hl.symm) hdigit hd h
        omega
      cases negative with
      | true =>
        exact hlt "9223372036854775808".toList (by decide) (forall_mem_of_all (by decide))
          (by decide) hcompare
      | false =>
        exact hlt "9223372036854775807".toList (by decide) (forall_mem_of_all (by decide))
          (by decide) hcompare

/-! ## Operators -/

/-- The operators behind an operand, each with the operand that the parser reads behind it. -/
inductive ItemsAt {τ : Type} (token : BinaryOperator → τ) (unary : List τ → Option (Grouping × List τ)) :
    List τ → List (BinaryOperator × Grouping) → List τ → Prop
  /-- No operator. -/
  | nil (ts : List τ) : ItemsAt token unary ts [] ts
  /-- An operator and its operand. -/
  | cons {o : BinaryOperator} {x : Grouping} {ts ts' rest : List τ}
      {items : List (BinaryOperator × Grouping)} (hunary : unary ts = some (x, ts'))
      (hlength : ts'.length < ts.length) (hitems : ItemsAt token unary ts' items rest) :
      ItemsAt token unary (token o :: ts) ((o, x) :: items) rest

/-- Every operator and its operand have a token each. -/
theorem ItemsAt.length {τ : Type} {token : BinaryOperator → τ}
    {unary : List τ → Option (Grouping × List τ)} {ts rest : List τ}
    {items : List (BinaryOperator × Grouping)} (h : ItemsAt token unary ts items rest) :
    rest.length + 2 * items.length ≤ ts.length := by
  induction h with
  | nil _ => simp
  | cons _ hlength _ ih =>
    simp only [List.length_cons]
    omega

/-- A parser follows a rule when it reads what the rule groups. -/
def Follows {τ : Type} (token : BinaryOperator → τ) (unary : List τ → Option (Grouping × List τ))
    (rest : List τ) (parser : List τ → Option (Grouping × List τ))
    (rule : Grouping → List (BinaryOperator × Grouping) → Grouping →
      List (BinaryOperator × Grouping) → Prop) : Prop :=
  ∀ ts x ts' items result items', unary ts = some (x, ts') → ts'.length < ts.length →
    ItemsAt token unary ts' items rest → rule x items result items' →
    ∃ ts'', ItemsAt token unary ts'' items' rest ∧ ts''.length < ts.length ∧
      parser ts = some (result, ts'')

section Layers

variable {τ : Type} {token : BinaryOperator → τ} {unary next : List τ → Option (Grouping × List τ)}
  {t₀ : τ} {rest : List τ}
  {rule : Grouping → List (BinaryOperator × Grouping) → Grouping →
    List (BinaryOperator × Grouping) → Prop}
  {l : ℕ} (test : τ → Bool) (name : τ → String)
  (loop : ℕ → Grouping → List τ → Option (Grouping × List τ))

/-- A loop over the operators of one level follows the loop of the rule. -/
theorem loop_follows (hnext : Follows token unary (t₀ :: rest) next rule)
    (hrule : ∀ left items result items', rule left items result items' →
      items'.length ≤ items.length)
    (hstop : test t₀ = false) (htest : ∀ o, test (token o) = true ↔ o.level = l)
    (hname : ∀ o, name (token o) = o.text)
    (hloop : ∀ fuel left t ts, loop (fuel + 1) left (t :: ts) = if test t = true then
      next ts >>= fun r => loop fuel (.binary (name t) left r.1) r.2 else some (left, t :: ts))
    {left result : Grouping} {items items' : List (BinaryOperator × Grouping)}
    (h : LayerLoop BinaryOperator.level BinaryOperator.node rule l left items result items')
    {ts : List τ} (hitems : ItemsAt token unary ts items (t₀ :: rest)) {n : ℕ}
    (hn : items.length < n) :
    ∃ ts', ItemsAt token unary ts' items' (t₀ :: rest) ∧ ts'.length ≤ ts.length ∧
      loop n left ts = some (result, ts') := by
  induction h generalizing ts n with
  | @stop left items hlevel =>
    obtain ⟨n, rfl⟩ : ∃ m, n = m + 1 := ⟨n - 1, by omega⟩
    refine ⟨ts, hitems, le_rfl, ?_⟩
    cases hitems with
    | nil _ =>
      rw [hloop, hstop]
      rfl
    | @cons o _ _ _ _ _ _ _ _ =>
      have htoken : ¬ test (token o) = true := fun h => hlevel _ rfl ((htest o).mp h)
      rw [hloop, if_neg htoken]
  | step hlevel hright _ ih =>
    obtain ⟨n, rfl⟩ : ∃ m, n = m + 1 := ⟨n - 1, by omega⟩
    cases hitems with
    | cons hunary hlength hitems =>
      obtain ⟨ts₁, hitems₁, hlength₁, hnext₁⟩ := hnext _ _ _ _ _ _ hunary hlength hitems hright
      have hle := hrule _ _ _ _ hright
      rw [List.length_cons] at hn
      obtain ⟨ts₂, hitems₂, hlength₂, hloop₂⟩ := ih hitems₁ (n := n) (by omega)
      refine ⟨ts₂, hitems₂, ?_, ?_⟩
      · rw [List.length_cons]
        omega
      · rw [hloop, if_pos ((htest _).mpr hlevel), hnext₁, hname]
        exact hloop₂

/-- So does the whole rule of the level. -/
theorem layer_follows (hnext : Follows token unary (t₀ :: rest) next rule)
    (hrule : ∀ left items result items', rule left items result items' →
      items'.length ≤ items.length)
    (hstop : test t₀ = false) (htest : ∀ o, test (token o) = true ↔ o.level = l)
    (hname : ∀ o, name (token o) = o.text)
    (hloop : ∀ fuel left t ts, loop (fuel + 1) left (t :: ts) = if test t = true then
      next ts >>= fun r => loop fuel (.binary (name t) left r.1) r.2 else some (left, t :: ts)) :
    Follows token unary (t₀ :: rest) (fun ts => next ts >>= fun r => loop ts.length r.1 r.2)
      (Layer BinaryOperator.level BinaryOperator.node rule l) := by
  rintro ts x ts' items result items' hunary hlength hitems ⟨first, items₁, hfirst, hlayer⟩
  obtain ⟨ts₁, hitems₁, hlength₁, hnext₁⟩ := hnext _ _ _ _ _ _ hunary hlength hitems hfirst
  have hcount := hitems₁.length
  rw [List.length_cons] at hcount
  obtain ⟨ts₂, hitems₂, hlength₂, hloop₂⟩ := loop_follows test name loop hnext hrule hstop
    htest hname hloop hlayer hitems₁ (n := ts.length) (by omega)
  refine ⟨ts₂, hitems₂, by omega, ?_⟩
  change next ts >>= _ = _
  rw [hnext₁]
  exact hloop₂

end Layers

/-! ### The compiler -/

/-- The token of an operator. -/
abbrev operatorLexeme (o : BinaryOperator) : Lexeme := (Sign.operator o).lexeme

/-- The levels of the compiler leave out the logical operators. -/
theorem operatorLevel_lexeme (o : BinaryOperator) : operatorLevel (operatorLexeme o) = o.level - 2 := by
  cases o <;> decide

/-- The loop of `parseBinary` climbs. -/
theorem parseBinaryLoop_climbs {unary : Parser Lexeme} {t₀ : Lexeme} {rest : List Lexeme}
    (hstop : operatorLevel t₀ = 0) {k m : ℕ} {left result : Grouping}
    {items items' : List (BinaryOperator × Grouping)}
    (h : Climbs BinaryOperator.level BinaryOperator.node k left items result items')
    (hk : k = m + 2) (hm : 1 ≤ m) {ts : List Lexeme}
    (hitems : ItemsAt operatorLexeme unary ts items (t₀ :: rest)) {n : ℕ}
    (hn : 2 * items.length < n) :
    ∃ ts', ItemsAt operatorLexeme unary ts' items' (t₀ :: rest) ∧ ts'.length ≤ ts.length ∧
      parseBinaryLoop unary n m left ts = some (result, ts') := by
  induction h generalizing m ts n with
  | @stop k left items hlevel =>
    obtain ⟨n, rfl⟩ : ∃ j, n = j + 1 := ⟨n - 1, by omega⟩
    refine ⟨ts, hitems, le_rfl, ?_⟩
    cases hitems with
    | nil _ =>
      rw [parseBinaryLoop, hstop]
      exact if_neg (by omega)
    | @cons o _ _ _ _ _ _ _ _ =>
      have hlt : o.level < k := hlevel _ rfl
      rw [parseBinaryLoop, operatorLevel_lexeme]
      exact if_neg (by omega)
  | @step k left x right result o items₀ items₁ items' hlevel hright _ ih ih' =>
    rw [List.length_cons] at hn
    obtain ⟨n, rfl⟩ : ∃ j, n = j + 2 := ⟨n - 2, by omega⟩
    cases hitems with
    | @cons _ _ ts ts' _ _ hunary hlength hitems =>
      obtain ⟨ts₁, hitems₁, hlength₁, hloop₁⟩ :=
        ih (m := o.level - 2 + 1) (by omega) (by omega) hitems (n := n) (by omega)
      have hle := hright.length_le
      obtain ⟨ts₂, hitems₂, hlength₂, hloop₂⟩ := ih' hk hm hitems₁ (n := n + 1) (by omega)
      refine ⟨ts₂, hitems₂, ?_, ?_⟩
      · rw [List.length_cons]
        omega
      · rw [parseBinaryLoop, operatorLevel_lexeme]
        simp only
        rw [if_pos (by omega), parseBinary, hunary]
        change parseBinaryLoop unary n _ x ts' >>= _ = _
        rw [hloop₁]
        exact hloop₂

/-- `parseBinary` at the least level follows the climb over what is not logical. -/
theorem parseBinary_follows {unary : Parser Lexeme} {t₀ : Lexeme} {rest : List Lexeme}
    (hstop : operatorLevel t₀ = 0) :
    Follows operatorLexeme unary (t₀ :: rest) (fun ts => parseBinary unary ts.length 1 ts)
      (Climbs BinaryOperator.level BinaryOperator.node 3) := by
  intro ts x ts' items result items' hunary hlength hitems hclimbs
  have hcount := hitems.length
  rw [List.length_cons] at hcount
  obtain ⟨fuel, hfuel⟩ : ∃ n, ts.length = n + 1 := ⟨ts.length - 1, by omega⟩
  obtain ⟨ts₁, hitems₁, hlength₁, hloop₁⟩ :=
    parseBinaryLoop_climbs hstop hclimbs (m := 1) rfl le_rfl hitems (n := fuel) (by omega)
  refine ⟨ts₁, hitems₁, by omega, ?_⟩
  simp only
  rw [hfuel, parseBinary, hunary]
  exact hloop₁

/-- `parseAnd` follows the rule of its level. -/
theorem parseAnd_follows {unary : Parser Lexeme} {t₀ : Lexeme} {rest : List Lexeme}
    (hstop : operatorLevel t₀ = 0) (hand : ¬ (t₀.kind = .punctuation ∧ t₀.text = "&&")) :
    Follows operatorLexeme unary (t₀ :: rest) (parseAnd unary)
      (Layer BinaryOperator.level BinaryOperator.node
        (Climbs BinaryOperator.level BinaryOperator.node 3) 2) := by
  refine layer_follows (fun t => decide (t.kind = .punctuation ∧ t.text = "&&")) Lexeme.text
    (parseAndLoop unary) (parseBinary_follows hstop) (fun _ _ _ _ h => h.length_le) (decide_eq_false hand) (fun o => ?_) (fun _ => rfl)
    (fun fuel left t ts => ?_)
  · cases o <;> decide
  · rw [parseAndLoop]
    simp only [decide_eq_true_eq]

/-- What the compiler reads over its operands. -/
def parseOr (unary : Parser Lexeme) : Parser Lexeme := fun ts => do
  let (left, rest) ← parseAnd unary ts
  parseExpressionLoop unary ts.length left rest

/-- `parseExpression` follows the rule of the lowest level. -/
theorem parseOr_follows {unary : Parser Lexeme} {t₀ : Lexeme} {rest : List Lexeme}
    (hstop : operatorLevel t₀ = 0) (hand : ¬ (t₀.kind = .punctuation ∧ t₀.text = "&&"))
    (hor : ¬ (t₀.kind = .punctuation ∧ t₀.text = "||")) :
    Follows operatorLexeme unary (t₀ :: rest) (parseOr unary)
      (Layer BinaryOperator.level BinaryOperator.node (Layer BinaryOperator.level
        BinaryOperator.node (Climbs BinaryOperator.level BinaryOperator.node 3) 2) 1) := by
  refine layer_follows (fun t => decide (t.kind = .punctuation ∧ t.text = "||")) Lexeme.text
    (parseExpressionLoop unary) (parseAnd_follows hstop hand) (fun _ _ _ _ h => h.length_le fun _ _ _ _ h => h.length_le) (decide_eq_false hor)
    (fun o => ?_) (fun _ => rfl) (fun fuel left t ts => ?_)
  · cases o <;> decide
  · rw [parseExpressionLoop]
    simp only [decide_eq_true_eq]

/-- Every chain has a grouping. -/
theorem exists_grouping (x : Grouping) (items : List (BinaryOperator × Grouping)) :
    ∃ g, Climbs BinaryOperator.level BinaryOperator.node 1 x items g [] := by
  obtain ⟨g, rest, h⟩ := Climbs.exists_climbs BinaryOperator.level BinaryOperator.node 1 x items
  have hlevel : ∀ i ∈ items, 1 ≤ i.1.level := fun i _ => by
    cases i.1 <;> decide
  rw [h.rest_eq_nil hlevel] at h
  exact ⟨g, h⟩

/-- The compiler makes the grouping of a chain. -/
theorem parseOr_eq {unary : Parser Lexeme} {t₀ : Lexeme} {rest : List Lexeme}
    (hstop : operatorLevel t₀ = 0) (hand : ¬ (t₀.kind = .punctuation ∧ t₀.text = "&&"))
    (hor : ¬ (t₀.kind = .punctuation ∧ t₀.text = "||")) {ts ts' : List Lexeme} {x g : Grouping}
    {items : List (BinaryOperator × Grouping)} (hunary : unary ts = some (x, ts'))
    (hlength : ts'.length < ts.length) (hitems : ItemsAt operatorLexeme unary ts' items (t₀ :: rest))
    (hg : Climbs BinaryOperator.level BinaryOperator.node 1 x items g []) :
    parseOr unary ts = some (g, t₀ :: rest) := by
  have hclimbs : ∀ left items, ∃ result rest,
      Climbs BinaryOperator.level BinaryOperator.node 3 left items result rest ∧
        rest.length ≤ items.length := by
    intro left items
    obtain ⟨result, rest, h⟩ :=
      Climbs.exists_climbs BinaryOperator.level BinaryOperator.node 3 left items
    exact ⟨result, rest, h, h.length_le⟩
  obtain ⟨result, items', hlayer, -⟩ := exists_layer BinaryOperator.level BinaryOperator.node 1
    (exists_layer BinaryOperator.level BinaryOperator.node 2 hclimbs) x items
  obtain ⟨ts'', hitems', -, hparse⟩ :=
    parseOr_follows hstop hand hor ts x ts' items result items' hunary hlength hitems hlayer
  have hclimb := Layer.climbs _ _ (fun _ _ _ _ h => Layer.climbs _ _ (fun _ _ _ _ h => h) h) hlayer
  obtain ⟨rfl, rfl⟩ := hclimb.unique hg
  cases hitems'
  exact hparse

/-! ### The bootstrap compiler -/

namespace Stage0

/-- The token of an operator. -/
abbrev operatorToken (o : BinaryOperator) : Stage0Token := (Sign.operator o).stage0

/-- An operator is written as its kind is. -/
theorem spelling_kind (o : BinaryOperator) : spelling (operatorToken o).kind = o.text := by
  cases o <;> rfl

/-- `parse_binary` follows the rule of the level of its operators. -/
theorem parseBinary_follows {unary next : Parser} {t₀ : Stage0Token} {rest : List Stage0Token}
    {rule : Grouping → List (BinaryOperator × Grouping) → Grouping →
      List (BinaryOperator × Grouping) → Prop}
    (hnext : Follows operatorToken unary (t₀ :: rest) next rule)
    (hrule : ∀ left items result items', rule left items result items' →
      items'.length ≤ items.length) {l : ℕ} {operators : List Stage0Kind}
    (hstop : t₀.kind ∉ operators)
    (hlevel : ∀ o : BinaryOperator, o.kind ∈ operators ↔ o.level = l) :
    Follows operatorToken unary (t₀ :: rest) (parseBinary next operators)
      (Layer BinaryOperator.level BinaryOperator.node rule l) := by
  refine layer_follows (fun t => decide (t.kind ∈ operators)) (fun t => spelling t.kind)
    (parseBinaryLoop next operators) hnext hrule
    (decide_eq_false hstop) (fun o => ?_) spelling_kind (fun fuel left t ts => ?_)
  · rw [decide_eq_true_eq]
    exact hlevel o
  · rw [parseBinaryLoop]
    simp only [decide_eq_true_eq]

/-- The rule of an operand. -/
def OperandRule (x : Grouping) (items : List (BinaryOperator × Grouping)) (result : Grouping)
    (rest : List (BinaryOperator × Grouping)) : Prop := result = x ∧ rest = items

/-- The layers from a level on, down to the operands behind the sixth. -/
def Layers : ℕ → Grouping → List (BinaryOperator × Grouping) → Grouping →
    List (BinaryOperator × Grouping) → Prop
  | 0 => OperandRule
  | n + 1 => Layer BinaryOperator.level BinaryOperator.node (Layers n) (6 - n)

/-- The layers only take items from the front. -/
theorem Layers.length_le {n : ℕ} {left result : Grouping}
    {items rest : List (BinaryOperator × Grouping)} (h : Layers n left items result rest) :
    rest.length ≤ items.length := by
  induction n generalizing left items result rest with
  | zero => exact h.2 ▸ le_rfl
  | succ n ih => exact Layer.length_le (fun _ _ _ _ h => ih h) h

/-- The layers climb. -/
theorem Layers.climbs {n : ℕ} (hn : n ≤ 6) {left result : Grouping}
    {items rest : List (BinaryOperator × Grouping)} (h : Layers n left items result rest) :
    Climbs BinaryOperator.level BinaryOperator.node (7 - n) left items result rest := by
  induction n generalizing left items result rest with
  | zero =>
    obtain ⟨rfl, rfl⟩ := h
    refine .stop fun i _ => ?_
    cases i.1 <;> decide
  | succ n ih =>
    have hlevel : 7 - (n + 1) = 6 - n := by omega
    rw [hlevel]
    refine Layer.climbs _ _ (fun left items result rest h => ?_) h
    have := ih (by omega) h
    rwa [show 7 - n = 6 - n + 1 by omega] at this

/-- The layers always end. -/
theorem exists_layers (n : ℕ) (left : Grouping) (items : List (BinaryOperator × Grouping)) :
    ∃ result rest, Layers n left items result rest ∧ rest.length ≤ items.length := by
  induction n generalizing left items with
  | zero => exact ⟨left, items, ⟨rfl, rfl⟩, le_rfl⟩
  | succ n ih => exact exists_layer BinaryOperator.level BinaryOperator.node _ ih left items

/-- The bootstrap compiler makes the grouping of a chain. -/
theorem parseOr_eq {unary : Parser} {t₀ : Stage0Token} {rest : List Stage0Token}
    (hstop : ∀ o : BinaryOperator, t₀.kind ≠ o.kind) {ts ts' : List Stage0Token} {x g : Grouping}
    {items : List (BinaryOperator × Grouping)} (hunary : unary ts = some (x, ts'))
    (hlength : ts'.length < ts.length) (hitems : ItemsAt operatorToken unary ts' items (t₀ :: rest))
    (hg : Climbs BinaryOperator.level BinaryOperator.node 1 x items g []) :
    parseOr unary ts = some (g, t₀ :: rest) := by
  have hunary' : Follows operatorToken unary (t₀ :: rest) unary (Layers 0) := by
    rintro ts x ts' items _ _ hunary hlength hitems ⟨rfl, rfl⟩
    exact ⟨ts', hitems, hlength, hunary⟩
  have hnot : ∀ operators : List Stage0Kind, (∀ k ∈ operators, ∃ o : BinaryOperator, k = o.kind) →
      t₀.kind ∉ operators := by
    intro operators h hmem
    obtain ⟨o, ho⟩ := h _ hmem
    exact hstop o ho
  have hlayer : ∀ {n : ℕ} {next : Parser} (operators : List Stage0Kind),
      Follows operatorToken unary (t₀ :: rest) next (Layers n) →
      (∀ k ∈ operators, ∃ o : BinaryOperator, k = o.kind) →
      (∀ o : BinaryOperator, o.kind ∈ operators ↔ o.level = 6 - n) →
      Follows operatorToken unary (t₀ :: rest) (parseBinary next operators) (Layers (n + 1)) :=
    fun operators hnext hkinds hlevel =>
      parseBinary_follows hnext (fun _ _ _ _ h => h.length_le) (hnot operators hkinds) hlevel
  have hproduct : Follows operatorToken unary (t₀ :: rest) (parseProduct unary) (Layers 1) := by
    refine hlayer _ hunary' ?_ fun o => by cases o <;> decide
    simp only [List.mem_cons, List.not_mem_nil, or_false]
    rintro k (rfl | rfl | rfl)
    exacts [⟨.multiply, rfl⟩, ⟨.divide, rfl⟩, ⟨.remainder, rfl⟩]
  have hsum : Follows operatorToken unary (t₀ :: rest) (parseSum unary) (Layers 2) := by
    refine hlayer _ hproduct ?_ fun o => by cases o <;> decide
    simp only [List.mem_cons, List.not_mem_nil, or_false]
    rintro k (rfl | rfl)
    exacts [⟨.add, rfl⟩, ⟨.subtract, rfl⟩]
  have hcomparison : Follows operatorToken unary (t₀ :: rest) (parseComparison unary)
      (Layers 3) := by
    refine hlayer _ hsum ?_ fun o => by cases o <;> decide
    simp only [List.mem_cons, List.not_mem_nil, or_false]
    rintro k (rfl | rfl | rfl | rfl)
    exacts [⟨.less, rfl⟩, ⟨.greater, rfl⟩, ⟨.lessEqual, rfl⟩, ⟨.greaterEqual, rfl⟩]
  have hequality : Follows operatorToken unary (t₀ :: rest) (parseEquality unary) (Layers 4) := by
    refine hlayer _ hcomparison ?_ fun o => by cases o <;> decide
    simp only [List.mem_cons, List.not_mem_nil, or_false]
    rintro k (rfl | rfl)
    exacts [⟨.equal, rfl⟩, ⟨.notEqual, rfl⟩]
  have hand : Follows operatorToken unary (t₀ :: rest) (parseAnd unary) (Layers 5) := by
    refine hlayer _ hequality ?_ fun o => by cases o <;> decide
    rintro k (_ | ⟨_, ⟨⟩⟩)
    exact ⟨.and, rfl⟩
  have hor : Follows operatorToken unary (t₀ :: rest) (parseOr unary) (Layers 6) := by
    refine hlayer _ hand ?_ fun o => by cases o <;> decide
    rintro k (_ | ⟨_, ⟨⟩⟩)
    exact ⟨.or, rfl⟩
  obtain ⟨result, items', hlayers, -⟩ := exists_layers 6 x items
  obtain ⟨ts'', hitems', -, hparse⟩ :=
    hor ts x ts' items result items' hunary hlength hitems hlayers
  obtain ⟨rfl, rfl⟩ := (hlayers.climbs le_rfl).unique hg
  cases hitems'
  exact hparse

end Stage0

end Minyar

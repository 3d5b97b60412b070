import Mathlib.Algebra.BigOperators.Group.Finset.Basic
import Mathlib.Algebra.Order.BigOperators.Group.Finset
import Mathlib.Tactic.Linarith
import Minyar.Library.Acyclic

/-!
# Reference-counted graphs

A graph whose nodes own the nodes in their slots.  A node is *immortal*, a *leaf* that is
destroyed at once when its last owner goes, a *branch* whose destruction is deferred, or *dead*:
without owners, but still owning the slots that nobody has visited.  `Counted` is the exact
accounting: the count of every node is the number of its owners, which are the slots of the
nodes of the graph and the tokens `T` held outside it.

The file has the steps of a deferred destruction (dropping an owner, moving an owner out of a
dead node, finishing a dead node) and of a mutator (taking an owner, allocating, writing slots),
the notion of a node reachable from tokens, which no step of the destruction disturbs, and
the debt of a graph: the number of steps that the destruction of everything unreachable takes.
-/

namespace Minyar

open Relation

variable {α : Type*}

/-- A node of a reference-counted graph. -/
inductive CountedNode (α : Type*) where
  /-- A node that is never destroyed and owns nothing. -/
  | immortal
  /-- A node that is destroyed as soon as its last owner goes. -/
  | leaf (count : ℕ) (slots : List α)
  /-- A node whose destruction is deferred. -/
  | branch (count : ℕ) (slots : List α)
  /-- A node without owners that still owns the slots not visited yet. -/
  | dead (slots : List α)

namespace CountedNode

/-- The slots that a node owns. -/
def slots : CountedNode α → List α
  | immortal => []
  | leaf _ s => s
  | branch _ s => s
  | dead s => s

/-- The number of owners that a node records. -/
def owners : CountedNode α → Option ℕ
  | immortal => none
  | leaf n _ => some n
  | branch n _ => some n
  | dead _ => some 0

/-- A node that the mutator may still use. -/
def Alive : CountedNode α → Prop
  | dead _ => False
  | _ => True

end CountedNode

/-- A reference-counted graph: the nodes by their names. -/
abbrev CountedGraph (α : Type*) := α → Option (CountedNode α)

namespace CountedGraph

variable {g g' : CountedGraph α} {null : α}

/-- The slots of an optional node. -/
def optionSlots : Option (CountedNode α) → List α
  | some x => x.slots
  | none => []

@[simp] theorem optionSlots_some (x : CountedNode α) : optionSlots (some x) = x.slots := rfl

@[simp] theorem optionSlots_none : optionSlots (none : Option (CountedNode α)) = [] := rfl

/-- The owners that an optional node records: a name without a node has none. -/
def optionOwners : Option (CountedNode α) → Option ℕ
  | some x => x.owners
  | none => some 0

@[simp] theorem optionOwners_some (x : CountedNode α) : optionOwners (some x) = x.owners := rfl

@[simp] theorem optionOwners_none : optionOwners (none : Option (CountedNode α)) = some 0 := rfl

/-- An alive node points to the nodes in its slots. -/
def Edge (null : α) (g : CountedGraph α) (a b : α) : Prop :=
  ∃ x, g a = some x ∧ x.Alive ∧ b ∈ x.slots ∧ b ≠ null

/-- A node that tokens of `R` reach. -/
def Reach (null : α) (g : CountedGraph α) (R : Multiset α) (v : α) : Prop :=
  ∃ r ∈ R, r ≠ null ∧ ReflTransGen (Edge null g) r v

theorem Reach.token {R : Multiset α} {v : α} (hv : v ∈ R) (hn : v ≠ null) : Reach null g R v :=
  ⟨v, hv, hn, ReflTransGen.refl⟩

theorem Reach.edge {R : Multiset α} {v w : α} (h : Reach null g R v) (he : Edge null g v w) :
    Reach null g R w := by
  obtain ⟨r, hr, hn, hp⟩ := h
  exact ⟨r, hr, hn, hp.tail he⟩

/-! ## Owners -/

variable [DecidableEq α] {dom : Finset α} {T T' R : Multiset α} {v c r : α} {n : ℕ}
  {sl sl' : List α}

/-- The number of owners of a node: the tokens and the slots that name it. -/
def tokens (g : CountedGraph α) (dom : Finset α) (T : Multiset α) (r : α) : ℕ :=
  T.count r + ∑ q ∈ dom, (optionSlots (g q)).count r

/-- Exchanging a node and the tokens exchanges their contributions. -/
theorem tokens_update (hv : v ∈ dom) (x : Option (CountedNode α)) (r : α) :
    tokens (Function.update g v x) dom T' r + (optionSlots (g v)).count r + T.count r =
      tokens g dom T r + (optionSlots x).count r + T'.count r := by
  unfold tokens
  rw [← Finset.add_sum_erase _ _ hv, ← Finset.add_sum_erase _ (fun q => (optionSlots (g q)).count r) hv]
  have hrest : ∑ q ∈ dom.erase v, (optionSlots (Function.update g v x q)).count r =
      ∑ q ∈ dom.erase v, (optionSlots (g q)).count r :=
    Finset.sum_congr rfl fun q hq => by
      rw [Function.update_of_ne (Finset.ne_of_mem_erase hq)]
  rw [hrest, Function.update_self]
  omega

/-- A name without a node contributes no owner. -/
theorem tokens_insert (hv : g v = none) (T : Multiset α) (r : α) :
    tokens g (insert v dom) T r = tokens g dom T r := by
  unfold tokens
  by_cases hmem : v ∈ dom
  · rw [Finset.insert_eq_of_mem hmem]
  · rw [Finset.sum_insert hmem, hv]
    simp

/-- A slot of a node is an owner. -/
theorem tokens_pos_of_slot {x : CountedNode α} (hv : v ∈ dom) (hx : g v = some x)
    (hc : c ∈ x.slots) : 0 < tokens g dom T c := by
  have hle : (optionSlots (g v)).count c ≤ ∑ q ∈ dom, (optionSlots (g q)).count c :=
    Finset.single_le_sum (f := fun q => (optionSlots (g q)).count c) (fun _ _ => Nat.zero_le _) hv
  have hpos : 0 < (optionSlots (g v)).count c := by
    rw [hx]
    exact List.count_pos_iff.mpr hc
  unfold tokens
  omega

/-- An outside token is an owner. -/
theorem tokens_pos_of_mem (hc : c ∈ T) : 0 < tokens g dom T c := by
  have := Multiset.count_pos.mpr hc
  unfold tokens
  omega

/-- The exact accounting of a graph with the outside tokens `T`. -/
structure Counted (null : α) (g : CountedGraph α) (dom : Finset α) (T : Multiset α) : Prop where
  /-- The null name has no node. -/
  null_none : g null = none
  /-- The nodes are finitely many. -/
  mem_dom : ∀ {r x}, g r = some x → r ∈ dom
  /-- The recorded count is the number of owners. -/
  count : ∀ {r x n}, g r = some x → x.owners = some n → tokens g dom T r = n
  /-- Only dead nodes have no owner. -/
  pos : ∀ {r x}, g r = some x → x.Alive → x.owners ≠ some 0
  /-- An owned name has a node. -/
  valid : ∀ {r}, r ≠ null → 0 < tokens g dom T r → g r ≠ none

namespace Counted

theorem ne_null (h : Counted null g dom T) {x : CountedNode α} (hx : g v = some x) : v ≠ null := by
  rintro rfl
  rw [h.null_none] at hx
  cases hx

/-- The recorded owners of a name are its owners. -/
theorem tokens_eq (h : Counted null g dom T) (hv : v ≠ null) (hn : optionOwners (g v) = some n) :
    tokens g dom T v = n := by
  rcases hg : g v with _ | x
  · rw [hg, optionOwners_none, Option.some.injEq] at hn
    by_contra hne
    exact h.valid hv (by omega) hg
  · rw [hg] at hn
    exact h.count hg hn

/-- The accounting depends on the counts of the tokens that are not null. -/
theorem congr (h : Counted null g dom T) (hT : ∀ r, r ≠ null → T'.count r = T.count r) :
    Counted null g dom T' := by
  have hsame : ∀ r, r ≠ null → tokens g dom T' r = tokens g dom T r := by
    intro r hr
    unfold tokens
    rw [hT r hr]
  refine ⟨h.null_none, h.mem_dom, fun hr hn => ?_, h.pos, fun hr hpos => ?_⟩
  · rw [hsame _ (h.ne_null hr)]
    exact h.count hr hn
  · rw [hsame _ hr] at hpos
    exact h.valid hr hpos

/-- Exchanging the node of a name and the tokens: the owners of all other names must stay, and the
new node must record the owners that the exchange leaves. -/
theorem update (h : Counted null g dom T) (hv : v ∈ dom) (hnull : v ≠ null)
    (hn : optionOwners (g v) = some n) {x : Option (CountedNode α)}
    (hother : ∀ r, r ≠ v → r ≠ null →
      (optionSlots x).count r + T'.count r = (optionSlots (g v)).count r + T.count r)
    (hself : ∀ m, optionOwners x = some m → n + (optionSlots x).count v + T'.count v =
      m + (optionSlots (g v)).count v + T.count v)
    (hpos : ∀ y, x = some y → y.Alive → y.owners ≠ some 0) :
    Counted null (Function.update g v x) dom T' := by
  have hold := h.tokens_eq hnull hn
  have hsum : ∀ r, tokens (Function.update g v x) dom T' r + _ + _ = tokens g dom T r + _ + _ :=
    tokens_update hv x
  refine ⟨?_, fun {r y} hy => ?_, fun {r y m} hy hm => ?_, fun {r y} hy => ?_,
    fun {r} hr hpos' => ?_⟩
  · rw [Function.update_of_ne hnull.symm, h.null_none]
  · by_cases hr : r = v
    · exact hr ▸ hv
    · rw [Function.update_of_ne hr] at hy
      exact h.mem_dom hy
  · have := hsum r
    by_cases hr : r = v
    · subst hr
      rw [Function.update_self] at hy
      have := hself m (by rw [hy]; exact hm)
      omega
    · rw [Function.update_of_ne hr] at hy
      have := hother r hr (h.ne_null hy)
      have := h.count hy hm
      omega
  · by_cases hr : r = v
    · subst hr
      rw [Function.update_self] at hy
      exact hpos y hy
    · rw [Function.update_of_ne hr] at hy
      exact h.pos hy
  · have := hsum r
    by_cases hrv : r = v
    · subst hrv
      rw [Function.update_self]
      rintro rfl
      have := hself 0 rfl
      omega
    · rw [Function.update_of_ne hrv]
      have := hother r hrv hr
      exact h.valid hr (by omega)

/-- A new name may join the domain. -/
theorem insert_dom (h : Counted null g dom T) (hv : g v = none) :
    Counted null g (insert v dom) T := by
  refine ⟨h.null_none, fun hr => Finset.mem_insert_of_mem (h.mem_dom hr), fun hr hn => ?_, h.pos,
    fun hr hpos => ?_⟩
  · rw [tokens_insert hv]
    exact h.count hr hn
  · rw [tokens_insert hv] at hpos
    exact h.valid hr hpos

/-- A token names a node that the mutator may use. -/
theorem exists_of_mem (h : Counted null g dom T) (hv : v ∈ T) (hn : v ≠ null) :
    ∃ x, g v = some x ∧ x.Alive := by
  have hpos : 0 < tokens g dom T v := tokens_pos_of_mem hv
  rcases hg : g v with _ | x
  · exact absurd hg (h.valid hn hpos)
  · refine ⟨x, rfl, ?_⟩
    cases x with
    | dead s =>
      have := h.count hg rfl
      omega
    | _ => trivial

/-- So does a slot of a node. -/
theorem exists_of_slot (h : Counted null g dom T) {x : CountedNode α} (hx : g v = some x)
    (hc : c ∈ x.slots) (hn : c ≠ null) : ∃ y, g c = some y ∧ y.Alive := by
  have hpos : 0 < tokens g dom T c := tokens_pos_of_slot (h.mem_dom hx) hx hc
  rcases hg : g c with _ | y
  · exact absurd hg (h.valid hn hpos)
  · refine ⟨y, rfl, ?_⟩
    cases y with
    | dead s =>
      have := h.count hg rfl
      omega
    | _ => trivial

/-- The owners of an immortal node are not counted. -/
theorem congr_immortal (h : Counted null g dom T) (hv : g v = some .immortal)
    (hT : ∀ r, r ≠ v → T'.count r = T.count r) : Counted null g dom T' := by
  have hsame : ∀ r, r ≠ v → tokens g dom T' r = tokens g dom T r := by
    intro r hr
    unfold tokens
    rw [hT r hr]
  refine ⟨h.null_none, h.mem_dom, fun {r x m} hr hm => ?_, h.pos, fun {r} hr hpos => ?_⟩
  · by_cases hrv : r = v
    · subst hrv
      rw [hv] at hr
      cases hr
      cases hm
    · rw [hsame r hrv]
      exact h.count hr hm
  · by_cases hrv : r = v
    · rw [hrv, hv]
      exact Option.some_ne_none _
    · rw [hsame r hrv] at hpos
      exact h.valid hr hpos

/-- A token of the null name or of an immortal node is not counted. -/
theorem cons_iff (hv : v = null ∨ g v = some .immortal) :
    Counted null g dom (v ::ₘ T) ↔ Counted null g dom T := by
  rcases hv with rfl | hv
  · exact ⟨fun h => h.congr fun r hr => (Multiset.count_cons_of_ne hr T).symm,
      fun h => h.congr fun r hr => Multiset.count_cons_of_ne hr T⟩
  · exact ⟨fun h => h.congr_immortal hv fun r hr => (Multiset.count_cons_of_ne hr T).symm,
      fun h => h.congr_immortal hv fun r hr => Multiset.count_cons_of_ne hr T⟩

/-! ### Steps of the destruction -/

/-- Dropping one of several owners of a node lowers its count. -/
theorem drop_shared (h : Counted null g dom (v ::ₘ T)) {x y : CountedNode α} (hx : g v = some x)
    (hn : x.owners = some (n + 2)) (hy : y.owners = some (n + 1)) (hslots : y.slots = x.slots) :
    Counted null (Function.update g v (some y)) dom T := by
  refine h.update (h.mem_dom hx) (h.ne_null hx) (by rw [hx]; exact hn) ?_ ?_ ?_
  · intro r hr _
    rw [hx, optionSlots_some, optionSlots_some, hslots, Multiset.count_cons_of_ne hr]
  · intro m hm
    rw [optionOwners_some, hy, Option.some.injEq] at hm
    rw [hx, optionSlots_some, optionSlots_some, hslots, Multiset.count_cons_self]
    omega
  · rintro z ⟨⟩ -
    simp [hy]

/-- Destroying a node with its last owner hands its slots over as tokens. -/
theorem free_last (h : Counted null g dom (v ::ₘ T)) {x : CountedNode α} (hx : g v = some x)
    (hn : x.owners = some 1) :
    Counted null (Function.update g v none) dom ((x.slots : Multiset α) + T) := by
  refine h.update (h.mem_dom hx) (h.ne_null hx) (by rw [hx]; exact hn) ?_ ?_
    (fun z hz => by cases hz)
  · intro r hr _
    rw [hx, Multiset.count_cons_of_ne hr, Multiset.count_add, Multiset.coe_count]
    simp
  · rintro m ⟨⟩
    rw [hx, Multiset.count_cons_self, Multiset.count_add, Multiset.coe_count]
    simp only [optionSlots_some, optionSlots_none, List.count_nil]
    omega

/-- A node whose last owner goes may keep its slots and die. -/
theorem kill (h : Counted null g dom (v ::ₘ T)) {x : CountedNode α} (hx : g v = some x)
    (hn : x.owners = some 1) :
    Counted null (Function.update g v (some (.dead x.slots))) dom T := by
  refine h.update (h.mem_dom hx) (h.ne_null hx) (by rw [hx]; exact hn) ?_ ?_ ?_
  · intro r hr _
    rw [hx, Multiset.count_cons_of_ne hr]
    rfl
  · rintro m ⟨⟩
    rw [hx, Multiset.count_cons_self]
    simp only [optionSlots_some, CountedNode.slots]
    omega
  · rintro z ⟨⟩ halive
    exact halive.elim

/-- Visiting a slot of a dead node hands it over as a token. -/
theorem advance (h : Counted null g dom T) (hx : g v = some (.dead (c :: sl))) :
    Counted null (Function.update g v (some (.dead sl))) dom (c ::ₘ T) := by
  have hcount : ∀ r, sl.count r + (c ::ₘ T).count r = (c :: sl).count r + T.count r := by
    intro r
    rw [← Multiset.coe_count, ← Multiset.coe_count, ← Multiset.cons_coe, ← Multiset.count_add,
      ← Multiset.count_add, Multiset.add_cons, Multiset.cons_add]
  refine h.update (h.mem_dom hx) (h.ne_null hx) (by rw [hx]; rfl) ?_ ?_ ?_
  · intro r _ _
    rw [hx]
    exact hcount r
  · rintro m ⟨⟩
    have := hcount v
    rw [hx]
    simp only [optionSlots_some, CountedNode.slots]
    omega
  · rintro z ⟨⟩ halive
    exact halive.elim

/-- A dead node without slots may be destroyed. -/
theorem finish (h : Counted null g dom T) (hx : g v = some (.dead [])) :
    Counted null (Function.update g v none) dom T := by
  refine h.update (h.mem_dom hx) (h.ne_null hx) (by rw [hx]; rfl) ?_ ?_ (fun z hz => by cases hz)
  · intro r _ _
    rw [hx]
    rfl
  · rintro m ⟨⟩
    rw [hx]
    rfl

/-- Destroying a dead node hands over the slots that it still owns as tokens. -/
theorem destroy (h : Counted null g dom T) (hx : g v = some (.dead sl)) :
    Counted null (Function.update g v none) dom ((sl : Multiset α) + T) := by
  refine h.update (h.mem_dom hx) (h.ne_null hx) (by rw [hx]; rfl) ?_ ?_ (fun z hz => by cases hz)
  · intro r _ _
    rw [hx, Multiset.count_add, Multiset.coe_count]
    simp [CountedNode.slots]
  · rintro m ⟨⟩
    rw [hx, Multiset.count_add, Multiset.coe_count]
    simp only [optionSlots_some, optionSlots_none, List.count_nil, CountedNode.slots]
    omega

/-! ### Steps of the mutator -/

/-- Taking an owner of a node raises its count. -/
theorem retain (h : Counted null g dom T) {x y : CountedNode α} (hx : g v = some x)
    (hn : x.owners = some n) (hy : y.owners = some (n + 1)) (hslots : y.slots = x.slots) :
    Counted null (Function.update g v (some y)) dom (v ::ₘ T) := by
  refine h.update (h.mem_dom hx) (h.ne_null hx) (by rw [hx]; exact hn) ?_ ?_ ?_
  · intro r hr _
    rw [hx, optionSlots_some, optionSlots_some, hslots, Multiset.count_cons_of_ne hr]
  · intro m hm
    rw [optionOwners_some, hy, Option.some.injEq] at hm
    rw [hx, optionSlots_some, optionSlots_some, hslots, Multiset.count_cons_self]
    omega
  · rintro z ⟨⟩ -
    simp [hy]

/-- A new node has the one owner that its creator holds; it takes over tokens as its slots. -/
theorem allocate (h : Counted null g dom ((sl : Multiset α) + T)) (hv : g v = none)
    (hnull : v ≠ null) {x : CountedNode α} (hn : x.owners = some 1) (hslots : x.slots = sl) :
    Counted null (Function.update g v (some x)) (insert v dom) (v ::ₘ T) := by
  refine (h.insert_dom hv).update (Finset.mem_insert_self v dom) hnull (by rw [hv]; rfl) ?_ ?_ ?_
  · intro r hr _
    rw [hv, optionSlots_some, hslots, Multiset.count_cons_of_ne hr, Multiset.count_add,
      Multiset.coe_count]
    simp
  · intro m hm
    rw [optionOwners_some, hn, Option.some.injEq] at hm
    rw [hv, optionSlots_some, hslots, Multiset.count_cons_self, Multiset.count_add,
      Multiset.coe_count]
    simp only [optionSlots_none, List.count_nil]
    omega
  · rintro z ⟨⟩ -
    simp [hn]

/-- A new immortal node. -/
theorem allocate_immortal (h : Counted null g dom T) (hv : g v = none) (hnull : v ≠ null) :
    Counted null (Function.update g v (some .immortal)) (insert v dom) T := by
  refine (h.insert_dom hv).update (Finset.mem_insert_self v dom) hnull (by rw [hv]; rfl) ?_ ?_ ?_
  · intro r _ _
    rw [hv]
    rfl
  · rintro m ⟨⟩
  · rintro z ⟨⟩ - hz
    cases hz

/-- Exchanging the slots of a node, and possibly its kind, when tokens and slots together stay. -/
theorem write (h : Counted null g dom T) {x y : CountedNode α} (hx : g v = some x)
    (halive : x.Alive) (hn : x.owners = some n) (hy : y.owners = some n)
    (hslots : ∀ r, r ≠ null → y.slots.count r + T'.count r = x.slots.count r + T.count r) :
    Counted null (Function.update g v (some y)) dom T' := by
  refine h.update (h.mem_dom hx) (h.ne_null hx) (by rw [hx]; exact hn) ?_ ?_ ?_
  · intro r _ hr
    rw [hx]
    exact hslots r hr
  · intro m hm
    rw [optionOwners_some, hy, Option.some.injEq] at hm
    have := hslots v (h.ne_null hx)
    rw [hx, optionSlots_some, optionSlots_some]
    omega
  · rintro z ⟨⟩ -
    rw [hy, ← hn]
    exact h.pos hx halive

end Counted

/-! ## What sustains itself -/

/-- A set of alive nodes each of which is immortal, one of the tokens `R` or owned by a node of the
set. -/
def Sustained (g : CountedGraph α) (R : Multiset α) (K : Set α) : Prop :=
  ∀ v ∈ K, ∃ x, g v = some x ∧ x.Alive ∧
    (x = .immortal ∨ v ∈ R ∨ ∃ w ∈ K, ∃ y, g w = some y ∧ v ∈ y.slots)

/-- The graph `g'` has lost nothing that tokens of `T` sustain in `g`. -/
def Spares (g g' : CountedGraph α) (T : Multiset α) : Prop :=
  ∀ R : Multiset α, (∀ r ∈ R, r ∈ T) → ∀ K, Sustained g R K → Sustained g' R K

omit [DecidableEq α] in
theorem Spares.refl (g : CountedGraph α) (T : Multiset α) : Spares g g T := fun _ _ _ h => h

omit [DecidableEq α] in
theorem Spares.trans {g'' : CountedGraph α} (h : Spares g g' T) (h' : Spares g' g'' T) :
    Spares g g'' T := fun R hR K hK => h' R hR K (h R hR K hK)

omit [DecidableEq α] in
theorem Spares.mono (h : Spares g g' T) (hT : ∀ r ∈ T', r ∈ T) : Spares g g' T' :=
  fun R hR => h R fun r hr => hT r (hR r hr)

section Sustained

variable {K : Set α}

omit [DecidableEq α] in
/-- Dead nodes sustain nothing. -/
theorem Sustained.notMem_dead (h : Sustained g R K) (hx : g v = some (.dead sl)) : v ∉ K := by
  intro hv
  obtain ⟨x, hx', halive, -⟩ := h v hv
  rw [hx] at hx'
  cases hx'
  exact halive.elim

/-- A node outside the set may be exchanged. -/
theorem Sustained.update (h : Sustained g R K) (hv : v ∉ K) (x : Option (CountedNode α)) :
    Sustained (Function.update g v x) R K := by
  have hne : ∀ w ∈ K, Function.update g v x w = g w := fun w hw =>
    Function.update_of_ne (fun heq : w = v => hv (heq ▸ hw)) _ _
  intro w hw
  obtain ⟨y, hy, halive, howner⟩ := h w hw
  refine ⟨y, (hne w hw).trans hy, halive, howner.imp id (Or.imp id ?_)⟩
  rintro ⟨u, hu, z, hz, hslot⟩
  exact ⟨u, hu, z, (hne u hu).trans hz, hslot⟩

/-- A node of the set may be exchanged for one that owns the same. -/
theorem Sustained.update_slots (h : Sustained g R K) {x y : CountedNode α} (hx : g v = some x)
    (halive : y.Alive) (hslots : y.slots = x.slots) (himmortal : x ≠ .immortal) :
    Sustained (Function.update g v (some y)) R K := by
  have howns : ∀ {w : α}, (∃ u ∈ K, ∃ z, g u = some z ∧ w ∈ z.slots) →
      ∃ u ∈ K, ∃ z, Function.update g v (some y) u = some z ∧ w ∈ z.slots := by
    rintro w ⟨u, hu, z, hz, hslot⟩
    by_cases huv : u = v
    · subst huv
      rw [hx] at hz
      cases hz
      exact ⟨u, hu, y, Function.update_self _ _ _, hslots.symm ▸ hslot⟩
    · exact ⟨u, hu, z, (Function.update_of_ne huv _ _).trans hz, hslot⟩
  intro w hw
  obtain ⟨z, hz, hza, howner⟩ := h w hw
  by_cases hwv : w = v
  · subst hwv
    rw [hx] at hz
    cases hz
    exact ⟨y, Function.update_self _ _ _, halive,
      Or.inr ((howner.resolve_left himmortal).imp id howns)⟩
  · exact ⟨z, (Function.update_of_ne hwv _ _).trans hz, hza, howner.imp id (Or.imp id howns)⟩

/-- What other tokens sustain is not the node whose last owner is dropped, even if they get what it
owns. -/
theorem Counted.notMem_sustained (h : Counted null g dom (v ::ₘ T)) {x : CountedNode α}
    (hx : g v = some x) (hn : x.owners = some 1) (hR : ∀ r ∈ R, r ∈ (x.slots : Multiset α) + T)
    (hK : Sustained g R K) : v ∉ K := by
  intro hv
  have hcount := h.count hx hn
  unfold tokens at hcount
  rw [Multiset.count_cons_self] at hcount
  have hslots : ∀ {w : α} {y : CountedNode α}, g w = some y → v ∉ y.slots := by
    intro w y hy hslot
    have hle : (optionSlots (g w)).count v ≤ ∑ q ∈ dom, (optionSlots (g q)).count v :=
      Finset.single_le_sum (f := fun q => (optionSlots (g q)).count v) (fun _ _ => Nat.zero_le _)
        (h.mem_dom hy)
    have hpos : 0 < (optionSlots (g w)).count v := by
      rw [hy]
      exact List.count_pos_iff.mpr hslot
    omega
  obtain ⟨x', hx', -, himmortal | hmem | ⟨w, -, y, hy, hslot⟩⟩ := hK v hv
  · rw [hx] at hx'
    cases hx'
    rw [himmortal] at hn
    cases hn
  · rcases Multiset.mem_add.mp (hR v hmem) with hslot | hT
    · exact hslots hx hslot
    · have := Multiset.count_pos.mpr hT
      omega
  · exact hslots hy hslot

/-- Exchanging a node whose last owner is dropped spares the rest. -/
theorem Counted.spares_last (h : Counted null g dom (v ::ₘ T)) {x : CountedNode α}
    (hx : g v = some x) (hn : x.owners = some 1) (y : Option (CountedNode α)) :
    Spares g (Function.update g v y) ((x.slots : Multiset α) + T) :=
  fun _ hR _ hK => hK.update (h.notMem_sustained hx hn hR hK) y

/-- Exchanging a node for one that owns the same spares everything. -/
theorem Spares.update_slots {x y : CountedNode α} (hx : g v = some x) (halive : y.Alive)
    (hslots : y.slots = x.slots) (himmortal : x ≠ .immortal) :
    Spares g (Function.update g v (some y)) T :=
  fun _ _ _ hK => hK.update_slots hx halive hslots himmortal

/-- Exchanging a dead node spares everything. -/
theorem Spares.update_dead (hx : g v = some (.dead sl)) (y : Option (CountedNode α)) :
    Spares g (Function.update g v y) T :=
  fun _ _ _ hK => hK.update (hK.notMem_dead hx) y

/-- Without dead nodes all nodes together sustain themselves. -/
theorem Counted.sustained (h : Counted null g dom T) (hdead : ∀ {v s}, g v ≠ some (.dead s)) :
    Sustained g T {v | g v ≠ none} := by
  intro v hv
  obtain ⟨x, hx⟩ := Option.ne_none_iff_exists'.mp hv
  have halive : x.Alive := by
    cases x with
    | dead s => exact absurd hx hdead
    | _ => trivial
  refine ⟨x, hx, halive, ?_⟩
  rcases hn : x.owners with _ | n
  · cases x <;> simp_all [CountedNode.owners]
  · refine Or.inr ?_
    have hpos : n ≠ 0 := fun h0 => h.pos hx halive (h0 ▸ hn)
    have hcount := h.count hx hn
    by_cases hmem : v ∈ T
    · exact Or.inl hmem
    · have hsum : ∑ q ∈ dom, (optionSlots (g q)).count v ≠ 0 := by
        have := Multiset.count_eq_zero.mpr hmem
        unfold tokens at hcount
        omega
      obtain ⟨q, -, hq⟩ := Finset.exists_ne_zero_of_sum_ne_zero hsum
      rcases hg : g q with _ | y
      · simp [hg] at hq
      · rw [hg, optionSlots_some] at hq
        exact Or.inr ⟨q, by simp [hg], y, hg, List.count_pos_iff.mp (Nat.pos_of_ne_zero hq)⟩

end Sustained

/-! ## What the destruction leaves alone -/

/-- The alive nodes of `g'` are alive nodes of `g` with the same slots. -/
def Shrinks (g g' : CountedGraph α) : Prop :=
  ∀ {v y}, g' v = some y → y.Alive → ∃ x, g v = some x ∧ x.Alive ∧ x.slots = y.slots

/-- What tokens reach is alive. -/
theorem Counted.alive_of_reach (h : Counted null g dom T) (hR : ∀ r ∈ R, r ∈ T)
    (hv : Reach null g R v) : ∃ x, g v = some x ∧ x.Alive := by
  obtain ⟨r, hr, hn, hp⟩ := hv
  induction hp with
  | refl => exact h.exists_of_mem (hR r hr) hn
  | tail _ he _ =>
    obtain ⟨x, hx, -, hc, hcn⟩ := he
    exact h.exists_of_slot hx hc hcn

/-- Shrinking a graph with exact counts disturbs nothing that the remaining tokens reach. -/
theorem Counted.reach_iff (h : Counted null g' dom T) (hs : Shrinks g g') (hR : ∀ r ∈ R, r ∈ T) :
    Reach null g R v ↔ Reach null g' R v := by
  constructor
  · rintro ⟨r, hr, hn, hp⟩
    refine ⟨r, hr, hn, ?_⟩
    induction hp with
    | refl => exact ReflTransGen.refl
    | tail hp he ih =>
      obtain ⟨x, hx, -, hc, hcn⟩ := he
      obtain ⟨y, hy, halive⟩ := h.alive_of_reach hR ⟨r, hr, hn, ih⟩
      obtain ⟨x', hx', -, hslots⟩ := hs hy halive
      obtain rfl : x = x' := Option.some.inj (hx.symm.trans hx')
      exact ih.tail ⟨y, hy, halive, hslots ▸ hc, hcn⟩
  · rintro ⟨r, hr, hn, hp⟩
    refine ⟨r, hr, hn, ReflTransGen.mono (fun a b he => ?_) _ _ hp⟩
    obtain ⟨y, hy, halive, hc, hcn⟩ := he
    obtain ⟨x, hx, hxa, hslots⟩ := hs hy halive
    exact ⟨x, hx, hxa, hslots ▸ hc, hcn⟩

/-- Without dead nodes and without cycles everything that is not immortal is reached. -/
theorem Counted.reach_of_acyclic (h : Counted null g dom T) (hacyclic : Acyclic (Edge null g))
    (hdead : ∀ {v s}, g v ≠ some (.dead s)) {x : CountedNode α} (hx : g v = some x)
    (hn : x ≠ .immortal) : Reach null g T v := by
  have hwf : WellFounded (Edge null g) :=
    hacyclic.wellFounded dom.finite_toSet fun a b ⟨y, hy, _⟩ => h.mem_dom hy
  induction v using hwf.induction generalizing x with
  | h v ih =>
    obtain ⟨x', hx', -, himmortal | hmem | ⟨q, -, y, hy, hslot⟩⟩ :=
      h.sustained hdead v (by simp [hx])
    · rw [hx] at hx'
      cases hx'
      exact absurd himmortal hn
    · exact Reach.token hmem (h.ne_null hx)
    · -- The owner of `v` is reached.
      have halive : y.Alive := by
        cases y with
        | dead s => exact absurd hy hdead
        | _ => trivial
      have hedge : Edge null g q v := ⟨y, hy, halive, hslot, h.ne_null hx⟩
      refine (ih q hedge hy ?_).edge hedge
      rintro rfl
      simp [CountedNode.slots] at hslot

/-- What dropping owners does to a node: it loses owners, it is destroyed at once if it is a leaf, or
it dies with all its slots if it is a branch. -/
inductive NodeDrop : Option (CountedNode α) → Option (CountedNode α) → Prop
  | same (x) : NodeDrop x x
  | leaf (n m s) : NodeDrop (some (.leaf n s)) (some (.leaf m s))
  | free (n s) : NodeDrop (some (.leaf n s)) none
  | branch (n m s) : NodeDrop (some (.branch n s)) (some (.branch m s))
  | kill (n s) : NodeDrop (some (.branch n s)) (some (.dead s))

omit [DecidableEq α] in
theorem NodeDrop.trans {x y z : Option (CountedNode α)} (h : NodeDrop x y) (h' : NodeDrop y z) :
    NodeDrop x z := by
  cases h with
  | same => exact h'
  | leaf =>
    cases h' with
    | same => exact .leaf _ _ _
    | leaf => exact .leaf _ _ _
    | free => exact .free _ _
  | free =>
    cases h'
    exact .free _ _
  | branch =>
    cases h' with
    | same => exact .branch _ _ _
    | branch => exact .branch _ _ _
    | kill => exact .kill _ _
  | kill =>
    cases h'
    exact .kill _ _

/-- Owners were dropped from some nodes. -/
def Dropped (g g' : CountedGraph α) : Prop := ∀ v, NodeDrop (g v) (g' v)

omit [DecidableEq α] in
theorem Dropped.refl (g : CountedGraph α) : Dropped g g := fun v => .same (g v)

omit [DecidableEq α] in
theorem Dropped.trans {g'' : CountedGraph α} (h : Dropped g g') (h' : Dropped g' g'') :
    Dropped g g'' := fun v => (h v).trans (h' v)

theorem Dropped.update {x : Option (CountedNode α)} (h : NodeDrop (g v) x) :
    Dropped g (Function.update g v x) := by
  intro w
  by_cases hw : w = v
  · rw [hw, Function.update_self]
    exact h
  · rw [Function.update_of_ne hw]
    exact .same _

omit [DecidableEq α] in
theorem Dropped.shrinks (h : Dropped g g') : Shrinks g g' := by
  intro v y hy halive
  have hd := h v
  rw [hy] at hd
  generalize hx : g v = x at hd
  cases hd with
  | same => exact ⟨y, rfl, halive, rfl⟩
  | leaf n m s => exact ⟨_, rfl, trivial, rfl⟩
  | branch n m s => exact ⟨_, rfl, trivial, rfl⟩
  | kill n s => exact halive.elim

/-! ## Debt -/

open Classical in
/-- The steps that the destruction of a node takes: one for every slot that is left and one to
finish it, when it is dead or will be because the tokens `R` do not reach it. -/
noncomputable def debtAt (null : α) (g : CountedGraph α) (R : Multiset α) (v : α) : ℕ :=
  match g v with
  | some (.dead s) => s.length + 1
  | some (.branch _ s) => if Reach null g R v then 0 else s.length + 1
  | _ => 0

/-- The steps that the destruction of everything that `R` does not reach takes. -/
noncomputable def debt (null : α) (g : CountedGraph α) (dom : Finset α) (R : Multiset α) : ℕ :=
  ∑ v ∈ dom, debtAt null g R v

/-- Dropping owners leaves the debt: what dies has been part of it. -/
theorem Counted.debt_dropped (h : Counted null g' dom T) (hd : Dropped g g')
    (hR : ∀ r ∈ R, r ∈ T) : debt null g' dom R = debt null g dom R := by
  classical
  refine Finset.sum_congr rfl fun v _ => ?_
  have hreach : Reach null g R v ↔ Reach null g' R v := h.reach_iff hd.shrinks hR
  have hv := hd v
  unfold debtAt
  generalize hx : g v = x at hv
  generalize hy : g' v = y at hv
  cases hv with
  | same =>
    rcases x with _ | ⟨_ | _ | _ | _⟩
    case some.branch => exact if_congr hreach.symm rfl rfl
    all_goals rfl
  | leaf => rfl
  | free => rfl
  | branch n m s => exact if_congr hreach.symm rfl rfl
  | kill n s =>
    have hnot : ¬ Reach null g R v := by
      rw [hreach]
      intro hr
      obtain ⟨z, hz, halive⟩ := h.alive_of_reach hR hr
      rw [hy] at hz
      cases hz
      exact halive
    simp [hnot]

/-- Exchanging a dead node for one with less debt lowers the debt by the difference. -/
theorem Counted.debt_update {x : Option (CountedNode α)} {k m : ℕ}
    (h : Counted null (Function.update g v x) dom T) (hv : v ∈ dom) (hx : x = none ∨ ∃ s', x = some (.dead s'))
    (hR : ∀ r ∈ R, r ∈ T) (hk : debtAt null g R v = k + m)
    (hm : debtAt null (Function.update g v x) R v = m) :
    debt null (Function.update g v x) dom R + k = debt null g dom R := by
  classical
  have hshrinks : Shrinks g (Function.update g v x) := by
    intro w y hy halive
    by_cases hw : w = v
    · rw [hw, Function.update_self] at hy
      rcases hx with rfl | ⟨s', rfl⟩
      · cases hy
      · cases hy
        exact halive.elim
    · rw [Function.update_of_ne hw] at hy
      exact ⟨y, hy, halive, rfl⟩
  unfold debt
  rw [← Finset.add_sum_erase _ _ hv, ← Finset.add_sum_erase _ (fun w => debtAt null g R w) hv, hk, hm]
  have hrest : ∑ w ∈ dom.erase v, debtAt null (Function.update g v x) R w =
      ∑ w ∈ dom.erase v, debtAt null g R w := by
    refine Finset.sum_congr rfl fun w hw => ?_
    have hreach : Reach null g R w ↔ Reach null (Function.update g v x) R w :=
      h.reach_iff hshrinks hR
    unfold debtAt
    rw [Function.update_of_ne (Finset.ne_of_mem_erase hw)]
    rcases g w with _ | ⟨_ | _ | _ | _⟩
    case some.branch => exact if_congr hreach.symm rfl rfl
    all_goals rfl
  rw [hrest]
  omega

/-- Visiting a slot of a dead node pays one step. -/
theorem Counted.debt_advance (h : Counted null g dom T) (hx : g v = some (.dead (c :: sl)))
    (hR : ∀ r ∈ R, r ∈ T) :
    debt null (Function.update g v (some (.dead sl))) dom R + 1 = debt null g dom R := by
  refine (h.advance hx).debt_update (m := sl.length + 1) (h.mem_dom hx) (Or.inr ⟨sl, rfl⟩)
    (fun r hr => Multiset.mem_cons_of_mem (hR r hr)) ?_ ?_
  · unfold debtAt
    rw [hx]
    exact Nat.add_comm _ _
  · unfold debtAt
    rw [Function.update_self]

/-- Finishing a dead node pays one step. -/
theorem Counted.debt_finish (h : Counted null g dom T) (hx : g v = some (.dead []))
    (hR : ∀ r ∈ R, r ∈ T) :
    debt null (Function.update g v none) dom R + 1 = debt null g dom R := by
  refine (h.finish hx).debt_update (m := 0) (h.mem_dom hx) (Or.inl rfl) hR ?_ ?_
  · unfold debtAt
    rw [hx]
    rfl
  · unfold debtAt
    rw [Function.update_self]

/-- Without dead nodes and without cycles there is no debt. -/
theorem Counted.debt_eq_zero (h : Counted null g dom T) (hacyclic : Acyclic (Edge null g))
    (hdead : ∀ {v s}, g v ≠ some (.dead s)) : debt null g dom T = 0 := by
  refine Finset.sum_eq_zero fun v _ => ?_
  unfold debtAt
  rcases hg : g v with _ | x
  · rfl
  · cases x with
    | dead s => exact absurd hg hdead
    | branch n s =>
      have hreach := h.reach_of_acyclic hacyclic hdead hg (by simp)
      simp [hreach]
    | _ => rfl

end CountedGraph

end Minyar

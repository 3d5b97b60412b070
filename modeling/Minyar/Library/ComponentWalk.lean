import Mathlib.Data.List.Basic
import Mathlib.Data.List.Forall2
import Mathlib.Tactic.Common

/-!
# Walks through directories

A path is a list of components, and each component moves one step through a tree of directories:
it stays, goes up to the parent, or enters a child by its name.  A directory is the list of the
names that lead to it, innermost first, and the parent of the root is the root.

`resolve` follows the components from a given directory.  `Walk` is the canonical form of such a
journey, a number of steps up and then a list of names: `resolve_eq_apply` says that the walk
computed from the components alone leads from every directory where the components lead, and
`Walk.ext_of_apply` that two walks which agree from every directory are the same.  A bounded walk
starts at the root, where going up has no effect.
-/

namespace Minyar

variable {κ : Type*}

/-- What one component of a path does. -/
inductive Component (κ : Type*) where
  /-- Stay in the directory. -/
  | stay
  /-- Go up to the parent. -/
  | up
  /-- Enter the child of this name. -/
  | name (n : κ)

/-- One component, followed from a directory. -/
def enter (directory : List κ) : Component κ → List κ
  | .stay => directory
  | .up => directory.tail
  | .name n => n :: directory

/-- The components, followed from left to right. -/
def resolve (directory : List κ) (components : List (Component κ)) : List κ :=
  components.foldl enter directory

/-- A journey in canonical form. -/
@[ext] structure Walk (κ : Type*) where
  /-- The number of steps up at the beginning. -/
  ups : Nat
  /-- The names entered after them, innermost first. -/
  names : List κ

namespace Walk

/-- One more component at the end of a walk. -/
def step (bounded : Bool) (walk : Walk κ) : Component κ → Walk κ
  | .stay => walk
  | .up =>
    match walk.names with
    | [] => if bounded then walk else ⟨walk.ups + 1, []⟩
    | _ :: names => ⟨walk.ups, names⟩
  | .name n => ⟨walk.ups, n :: walk.names⟩

/-- The walk of a list of components, from the root or from an unknown directory. -/
def ofComponents (bounded : Bool) (components : List (Component κ)) : Walk κ :=
  components.foldl (step bounded) ⟨0, []⟩

/-- The directory a walk leads to. -/
def apply (walk : Walk κ) (directory : List κ) : List κ :=
  walk.names ++ directory.drop walk.ups

/-- The components of a walk: first the steps up, then the names. -/
def components (walk : Walk κ) : List (Component κ) :=
  List.replicate walk.ups .up ++ walk.names.reverse.map .name

/-! ## What a walk computes -/

/-- A walk is extended as the directory it leads to is. -/
theorem apply_step (walk : Walk κ) (component : Component κ) (directory : List κ) :
    (step false walk component).apply directory = enter (walk.apply directory) component := by
  cases component with
  | stay => rfl
  | up =>
    rcases walk with ⟨ups, _ | ⟨n, names⟩⟩
    · simp [step, apply, enter, List.tail_drop]
    · rfl
  | name n => rfl

/-- A walk of unknown start leads from every directory where its components lead. -/
theorem apply_foldl_step (walk : Walk κ) (components : List (Component κ))
    (directory : List κ) :
    (components.foldl (step false) walk).apply directory =
      resolve (walk.apply directory) components := by
  induction components generalizing walk with
  | nil => rfl
  | cons component components ih =>
    rw [List.foldl_cons, ih, apply_step]
    rfl

/-- The walk of a path leads from every directory where the path leads. -/
theorem resolve_eq_apply (components : List (Component κ)) (directory : List κ) :
    resolve directory components = (ofComponents false components).apply directory := by
  rw [ofComponents, apply_foldl_step]
  simp [apply]

/-- A walk from the root goes up no more than it went down. -/
theorem ups_step_bounded (walk : Walk κ) (component : Component κ) :
    (step true walk component).ups = walk.ups := by
  cases component with
  | stay => rfl
  | up => rcases walk with ⟨ups, _ | ⟨n, names⟩⟩ <;> rfl
  | name n => rfl

/-- A walk from the root has no steps up. -/
theorem ups_foldl_step_true (walk : Walk κ) (components : List (Component κ)) :
    (components.foldl (step true) walk).ups = walk.ups := by
  induction components generalizing walk with
  | nil => rfl
  | cons component components ih => rw [List.foldl_cons, ih, ups_step_bounded]

/-- The names of a walk do not depend on whether it starts at the root. -/
theorem names_step (first second : Walk κ) (h : first.names = second.names)
    (component : Component κ) :
    (step true first component).names = (step false second component).names := by
  rcases first with ⟨ups, names⟩
  rcases second with ⟨ups', names'⟩
  obtain rfl : names = names' := h
  cases component with
  | stay => rfl
  | up => cases names <;> rfl
  | name n => rfl

/-- The names of a walk from the root and of the walk of unknown start are the same. -/
theorem names_foldl_step_true (first second : Walk κ) (components : List (Component κ))
    (h : first.names = second.names) :
    (components.foldl (step true) first).names =
      (components.foldl (step false) second).names := by
  induction components generalizing first second with
  | nil => exact h
  | cons component components ih => exact ih _ _ (names_step first second h component)

/-- The names of a walk are the directory it leads to from the root. -/
theorem names_foldl_step (bounded : Bool) (walk : Walk κ) (components : List (Component κ)) :
    (components.foldl (step bounded) walk).names = resolve walk.names components := by
  have hfree : (components.foldl (step false) walk).names = resolve walk.names components := by
    simpa [apply] using apply_foldl_step walk components []
  cases bounded with
  | false => exact hfree
  | true => rw [← hfree, names_foldl_step_true walk walk components rfl]

/-- Every name of a walk was entered. -/
theorem mem_names_foldl_step {bounded : Bool} {walk : Walk κ}
    {components : List (Component κ)} {n : κ}
    (h : n ∈ (components.foldl (step bounded) walk).names) :
    n ∈ walk.names ∨ .name n ∈ components := by
  induction components generalizing walk with
  | nil => exact .inl h
  | cons component components ih =>
    rcases ih h with hn | hn
    · cases component with
      | stay => exact .inl hn
      | up =>
        rcases walk with ⟨ups, _ | ⟨m, names⟩⟩
        · cases bounded <;> exact .inl hn
        · exact .inl (List.mem_cons_of_mem _ hn)
      | name m =>
        rcases List.mem_cons.mp hn with rfl | hn
        · exact .inr List.mem_cons_self
        · exact .inl hn
    · exact .inr (List.mem_cons_of_mem _ hn)

/-- A path from the root that is followed after another one. -/
theorem ofComponents_append (bounded : Bool) (front back : List (Component κ)) :
    ofComponents bounded (front ++ back) =
      back.foldl (step bounded) (ofComponents bounded front) :=
  List.foldl_append

/-! ## Walks as canonical forms -/

/-- The walk of some steps up. -/
theorem ofComponents_replicate_up (ups : Nat) :
    ofComponents false (List.replicate ups (.up : Component κ)) = ⟨ups, []⟩ := by
  induction ups with
  | zero => rfl
  | succ ups ih =>
    rw [List.replicate_succ', ofComponents_append, ih]
    rfl

/-- Entering names one after the other. -/
theorem foldl_step_names (bounded : Bool) (walk : Walk κ) (names : List κ) :
    (names.map .name).foldl (step bounded) walk =
      ⟨walk.ups, names.reverse ++ walk.names⟩ := by
  induction names generalizing walk with
  | nil => rfl
  | cons n names ih =>
    rw [List.map_cons, List.foldl_cons, ih]
    simp [step]

/-- The walk of the components of a walk is the walk. -/
theorem ofComponents_components (bounded : Bool) (walk : Walk κ)
    (h : bounded = true → walk.ups = 0) :
    ofComponents bounded walk.components = walk := by
  unfold components
  rw [ofComponents_append]
  cases bounded with
  | false =>
    rw [ofComponents_replicate_up, foldl_step_names]
    simp
  | true =>
    rw [h rfl, List.replicate_zero, foldl_step_names]
    ext1
    · exact (h rfl).symm
    · simp [ofComponents]

/-- Two walks that lead to the same place from every directory are the same. -/
theorem ext_of_apply [Nonempty κ] {first second : Walk κ}
    (h : ∀ directory, first.apply directory = second.apply directory) : first = second := by
  have hnames : first.names = second.names := by simpa [apply] using h []
  obtain ⟨n⟩ := ‹Nonempty κ›
  have hlength := congrArg List.length
    (h (List.replicate (first.ups + second.ups) n))
  simp only [apply, hnames, List.length_append, List.length_drop, List.length_replicate] at hlength
  ext1
  · omega
  · exact hnames

end Walk

end Minyar

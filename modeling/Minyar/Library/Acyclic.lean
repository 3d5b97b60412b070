import Mathlib.Logic.Relation
import Mathlib.Order.WellFoundedSet

/-!
# Acyclic relations and the insertion of one edge

A relation is *acyclic* when its transitive closure is irreflexive.  This file collects the
rules by which a graph that is edited one edge at a time stays acyclic: deleting edges, adding
an edge that no path closes, and adding an edge out of a node that nothing points to.  The last
section turns acyclicity with finitely many sources into well-founded induction.
-/

namespace Minyar

open Relation

variable {α : Type*}

/-- A relation without a directed cycle: no node reaches itself along a nonempty path. -/
def Acyclic (r : α → α → Prop) : Prop := ∀ a, ¬ TransGen r a a

namespace Acyclic

variable {r s : α → α → Prop}

/-- A subrelation of an acyclic relation is acyclic. -/
theorem mono (hr : Acyclic r) (h : ∀ a b, s a b → r a b) : Acyclic s :=
  fun a hs => hr a (TransGen.mono h a a hs)

/-- The empty relation is acyclic. -/
theorem of_isEmpty (h : ∀ a b, ¬ r a b) : Acyclic r := by
  intro a ha
  rcases TransGen.head'_iff.mp ha with ⟨b, hab, -⟩
  exact h a b hab

/-- A path of the relation with the edge `x → y` added either avoids the new edge or reaches
its source along old edges first and leaves its target along old edges last. -/
theorem transGen_insert {x y a b : α}
    (h : TransGen (fun u v => r u v ∨ (u = x ∧ v = y)) a b) :
    TransGen r a b ∨ (ReflTransGen r a x ∧ ReflTransGen r y b) := by
  induction h with
  | single h =>
    rcases h with h | ⟨rfl, rfl⟩
    · exact Or.inl (TransGen.single h)
    · exact Or.inr ⟨ReflTransGen.refl, ReflTransGen.refl⟩
  | tail _ h ih =>
    rcases h with h | ⟨rfl, rfl⟩
    · rcases ih with ih | ⟨h₁, h₂⟩
      · exact Or.inl (ih.tail h)
      · exact Or.inr ⟨h₁, h₂.tail h⟩
    · rcases ih with ih | ⟨h₁, -⟩
      · exact Or.inr ⟨ih.to_reflTransGen, ReflTransGen.refl⟩
      · exact Or.inr ⟨h₁, ReflTransGen.refl⟩

/-- Adding the edge `x → y` keeps a relation acyclic when no path leads back from `y` to `x`. -/
theorem insert (hr : Acyclic r) {x y : α} (h : ¬ ReflTransGen r y x) :
    Acyclic fun u v => r u v ∨ (u = x ∧ v = y) := by
  intro a ha
  rcases transGen_insert ha with h' | ⟨h₁, h₂⟩
  · exact hr a h'
  · exact h (h₂.trans h₁)

/-- Editing the edges out of one node `x` keeps a relation acyclic when nothing points to `x`. -/
theorem of_source (hr : Acyclic r) {x : α} (h : ∀ a b, s a b → r a b ∨ a = x)
    (hx : ∀ u, ¬ s u x) : Acyclic s := by
  have hend : ∀ {a b}, TransGen s a b → b ≠ x := by
    rintro a b hab rfl
    rcases TransGen.tail'_iff.mp hab with ⟨u, -, hu⟩
    exact hx u hu
  have hpath : ∀ {a b}, a ≠ x → TransGen s a b → TransGen r a b := by
    intro a b ha hab
    induction hab with
    | single hab => exact TransGen.single ((h _ _ hab).resolve_right ha)
    | tail hab hbc ih => exact ih.tail ((h _ _ hbc).resolve_right (hend hab))
  exact fun a ha => hr a (hpath (hend ha) ha)

/-- An acyclic relation with finitely many sources is well founded. -/
theorem wellFounded {s : Set α} (hr : Acyclic r) (hs : s.Finite) (h : ∀ a b, r a b → a ∈ s) :
    WellFounded r := by
  have hirrefl : Std.Irrefl (TransGen r) := ⟨fun a h => hr a h⟩
  have htrans : IsTrans α (TransGen r) := ⟨fun a b c h₁ h₂ => TransGen.trans h₁ h₂⟩
  have hstrict : IsStrictOrder α (TransGen r) := {}
  have hacc : ∀ a ∈ s, Acc r a := by
    intro a ha
    refine (hs.wellFoundedOn (r := TransGen r)).induction ha fun b hb ih => ?_
    exact Acc.intro b fun c hcb => ih c (h c b hcb) (TransGen.single hcb)
  exact ⟨fun a => Acc.intro a fun b hba => hacc b (h b a hba)⟩

end Acyclic

end Minyar

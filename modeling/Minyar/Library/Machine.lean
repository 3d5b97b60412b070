import Mathlib.Data.List.Basic

/-!
# Deterministic machines

A machine answers one call after another until it stops with a message.  Two machines whose states
are related, and whose single steps keep them related with equal answers or equal stops, have the
same behaviour on every sequence of calls.
-/

namespace Minyar

variable {σ τ ι α ε : Type*}

/-- The answers of a machine to a sequence of calls, and the message with which it stops. -/
def answers (step : σ → ι → Except ε (α × σ)) : List ι → σ → List α × Option ε
  | [], _ => ([], none)
  | call :: calls, s =>
    match step s call with
    | .error message => ([], some message)
    | .ok (answer, s) =>
      let rest := answers step calls s
      (answer :: rest.1, rest.2)

/-- One step of a machine and one of another behave in the same way. -/
def SameStep (R : σ → τ → Prop) (left : Except ε (α × σ)) (right : Except ε (α × τ)) : Prop :=
  match left, right with
  | .error message, .error message' => message = message'
  | .ok (answer, s), .ok (answer', t) => answer = answer' ∧ R s t
  | _, _ => False

/-- Machines whose single steps behave in the same way have the same behaviour. -/
theorem answers_eq {step : σ → ι → Except ε (α × σ)} {step' : τ → ι → Except ε (α × τ)}
    {R : σ → τ → Prop} (hstep : ∀ s t call, R s t → SameStep R (step s call) (step' t call))
    {s : σ} {t : τ} (h : R s t) (calls : List ι) :
    answers step calls s = answers step' calls t := by
  induction calls generalizing s t with
  | nil => rfl
  | cons call calls ih =>
    have hsame := hstep s t call h
    rw [answers, answers]
    generalize step s call = left at hsame
    generalize step' t call = right at hsame
    rcases left with message | ⟨answer, s'⟩
    · rcases right with message' | ⟨answer', t'⟩
      · rw [show message = message' from hsame]
      · exact hsame.elim
    · rcases right with message' | ⟨answer', t'⟩
      · exact hsame.elim
      · obtain ⟨rfl, hrel⟩ := hsame
        simp only [ih hrel]

/-- A sequence that succeeds succeeds in both parts. -/
theorem bind_eq_ok {ε α β : Type} {x : Except ε α} {f : α → Except ε β} {b : β} :
    (x >>= f) = .ok b ↔ ∃ a, x = .ok a ∧ f a = .ok b := by
  cases x with
  | error e =>
    refine ⟨fun h => ?_, fun ⟨_, h, _⟩ => ?_⟩ <;> cases h
  | ok a =>
    refine ⟨fun h => ⟨a, rfl, h⟩, fun ⟨_, h, h'⟩ => ?_⟩
    cases h
    exact h'

/-- A sequence that fails fails in one of its parts. -/
theorem bind_eq_error {ε α β : Type} {x : Except ε α} {f : α → Except ε β} {e : ε} :
    (x >>= f) = .error e ↔ x = .error e ∨ ∃ a, x = .ok a ∧ f a = .error e := by
  cases x with
  | error e' =>
    refine ⟨fun h => Or.inl ?_, fun h => ?_⟩
    · cases h
      rfl
    · rcases h with h | ⟨_, h, -⟩
      · cases h
        rfl
      · cases h
  | ok a =>
    refine ⟨fun h => Or.inr ⟨a, rfl, h⟩, fun h => ?_⟩
    rcases h with h | ⟨_, h, h'⟩
    · cases h
    · cases h
      exact h'

end Minyar

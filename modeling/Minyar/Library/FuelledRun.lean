import Mathlib.Computability.StateTransition

/-!
# Fuelled evaluators and small-step machines

An evaluator with fuel ends with a value, stops the program, runs out of fuel or goes wrong.  A
deterministic machine *meets* such an outcome from a state when it reaches a state for the value or
for the stop, takes at least as many steps as there was fuel if the fuel ran out, and reaches a stuck
state if the program went wrong.  The rules below compose such facts along the evaluator.  When a
machine meets the outcomes for all amounts of fuel, it halts exactly if the evaluator ends with some
fuel, and both with the same result.
-/

namespace Minyar

open StateTransition

universe u

/-- What an evaluation ends with. -/
inductive Outcome (ω ε α : Type u) : Type u
  /-- A value. -/
  | done (value : α) (world : ω)
  /-- The program was stopped. -/
  | stopped (reason : ε) (world : ω)
  /-- There was no fuel left. -/
  | timeout
  /-- The program has no meaning. -/
  | wrong
  deriving DecidableEq

namespace Outcome

variable {ω ε α β : Type u}

/-- Goes on with the value. -/
def bind (o : Outcome ω ε α) (k : α → ω → Outcome ω ε β) : Outcome ω ε β :=
  match o with
  | done a w => k a w
  | stopped r w => stopped r w
  | timeout => timeout
  | wrong => wrong

@[simp] theorem done_bind (a : α) (w : ω) (k : α → ω → Outcome ω ε β) :
    (done a w).bind k = k a w := rfl

@[simp] theorem stopped_bind (r : ε) (w : ω) (k : α → ω → Outcome ω ε β) :
    (stopped r w).bind k = stopped r w := rfl

@[simp] theorem timeout_bind (k : α → ω → Outcome ω ε β) : timeout.bind k = timeout := rfl

@[simp] theorem wrong_bind (k : α → ω → Outcome ω ε β) : wrong.bind k = wrong := rfl

end Outcome

/-- An evaluation that changes a world. -/
def Fuelled (ω ε α : Type u) : Type u := ω → Outcome ω ε α

namespace Fuelled

variable {ω ε α β : Type u}

instance : Monad (Fuelled ω ε) where
  pure a w := .done a w
  bind x f w := (x w).bind f

@[simp] theorem pure_apply (a : α) (w : ω) : (pure a : Fuelled ω ε α) w = .done a w := rfl

@[simp] theorem bind_apply (x : Fuelled ω ε α) (f : α → Fuelled ω ε β) (w : ω) :
    (x >>= f) w = (x w).bind f := rfl

/-- Stops the program. -/
def stop (reason : ε) : Fuelled ω ε α := fun w => .stopped reason w

@[simp] theorem stop_apply (reason : ε) (w : ω) :
    (stop reason : Fuelled ω ε α) w = .stopped reason w := rfl

/-- There is no fuel left. -/
def outOfFuel : Fuelled ω ε α := fun _ => .timeout

/-- The program has no meaning. -/
def fault : Fuelled ω ε α := fun _ => .wrong

@[simp] theorem fault_apply (w : ω) : (fault : Fuelled ω ε α) w = .wrong := rfl

/-- The value of an option, which a program with a meaning has. -/
def ofOption : Option α → Fuelled ω ε α
  | some a => pure a
  | none => fault

end Fuelled

/-! ## Machines -/

section Machine

variable {σ : Type*} (f : σ → Option σ)

/-- The machine takes at least `n` steps. -/
def Takes : ℕ → σ → Prop
  | 0, _ => True
  | n + 1, s => ∃ t, f s = some t ∧ Takes n t

variable {f} {s t : σ} {m n : ℕ}

theorem Takes.mono (h : Takes f n s) (hle : m ≤ n) : Takes f m s := by
  induction m generalizing n s with
  | zero => trivial
  | succ m ih =>
    obtain ⟨n, rfl⟩ : ∃ k, n = k + 1 := ⟨n - 1, by omega⟩
    obtain ⟨t, hstep, ht⟩ := h
    exact ⟨t, hstep, ih ht (by omega)⟩

/-- Steps before do no harm. -/
theorem Takes.of_reaches (h : Takes f n t) (hs : Reaches f s t) : Takes f n s := by
  induction hs using Relation.ReflTransGen.head_induction_on with
  | refl => exact h
  | head hstep _ ih => exact (show Takes f (n + 1) _ from ⟨_, hstep, ih⟩).mono (Nat.le_succ n)

/-- A machine that halts does not take any number of steps. -/
theorem exists_not_takes (hs : Reaches f s t) (ht : f t = none) : ∃ n, ¬ Takes f n s := by
  induction hs using Relation.ReflTransGen.head_induction_on with
  | refl =>
    refine ⟨1, ?_⟩
    rintro ⟨u, hu, -⟩
    cases ht.symm.trans hu
  | head hstep _ ih =>
    obtain ⟨n, hn⟩ := ih
    refine ⟨n + 1, ?_⟩
    rintro ⟨u, hu, htakes⟩
    apply hn
    cases Option.mem_unique hstep hu
    exact htakes

/-! ## Outcomes of a machine -/

variable {ω ε α β : Type u}

/-- How a machine ends for an evaluator. -/
structure Endings (ω ε σ : Type*) where
  /-- The state of a stopped program. -/
  stop : ε → ω → σ
  /-- The states of a program that has gone wrong. -/
  Stuck : σ → Prop

variable (f n) in
/-- The machine meets an outcome from a state. -/
def Outcome.Meets (e : Endings ω ε σ) (post : α → ω → σ → Prop) (o : Outcome ω ε α) (s : σ) : Prop :=
  match o with
  | .done a w => ∃ t, Reaches f s t ∧ post a w t
  | .stopped r w => Reaches f s (e.stop r w)
  | .timeout => Takes f n s
  | .wrong => ∃ t, Reaches f s t ∧ e.Stuck t

namespace Outcome.Meets

variable {e : Endings ω ε σ} {post post' : α → ω → σ → Prop} {o : Outcome ω ε α}

/-- Nothing has to be done for a value that is there. -/
theorem done {a : α} {w : ω} (h : post a w s) : Meets f n e post (.done a w) s :=
  ⟨s, .refl, h⟩

/-- Nothing has to be done for a program that is stuck. -/
theorem wrong (h : e.Stuck s) : Meets f n e post (.wrong : Outcome ω ε α) s :=
  ⟨s, .refl, h⟩

/-- Steps before. -/
theorem of_reaches (hs : Reaches f s t) (h : Meets f n e post o t) : Meets f n e post o s := by
  cases o with
  | done a w =>
    obtain ⟨u, hu, hpost⟩ := h
    exact ⟨u, hs.trans hu, hpost⟩
  | stopped r w => exact hs.trans h
  | timeout => exact Takes.of_reaches h hs
  | wrong =>
    obtain ⟨u, hu, hstuck⟩ := h
    exact ⟨u, hs.trans hu, hstuck⟩

/-- A step before. -/
theorem step (hs : f s = some t) (h : Meets f n e post o t) : Meets f n e post o s :=
  of_reaches (.single hs) h

/-- A step before is worth a unit of fuel. -/
theorem step_succ (hs : f s = some t) (h : Meets f n e post o t) : Meets f (n + 1) e post o s := by
  cases o with
  | timeout => exact ⟨t, hs, h⟩
  | done a w | stopped r w | wrong => exact step hs h

/-- A weaker condition on the value and less fuel. -/
theorem mono (h : Meets f n e post o s) (hle : m ≤ n)
    (hpost : ∀ a w t, post a w t → post' a w t) : Meets f m e post' o s := by
  cases o with
  | done a w =>
    obtain ⟨u, hu, h⟩ := h
    exact ⟨u, hu, hpost a w u h⟩
  | timeout => exact Takes.mono h hle
  | stopped r w | wrong => exact h

/-- One evaluation after another. -/
theorem bind {k : α → ω → Outcome ω ε β} {post' : β → ω → σ → Prop} (h : Meets f n e post o s)
    (hk : ∀ a w t, post a w t → Meets f n e post' (k a w) t) : Meets f n e post' (o.bind k) s := by
  cases o with
  | done a w =>
    obtain ⟨u, hu, hpost⟩ := h
    exact of_reaches hu (hk a w u hpost)
  | stopped r w | timeout | wrong => exact h

/-- One evaluation in front of another. -/
theorem fuelled {x : Fuelled ω ε α} {k : α → Fuelled ω ε β} {w : ω} {post' : β → ω → σ → Prop}
    (h : Meets f n e post (x w) s) (hk : ∀ a w t, post a w t → Meets f n e post' (k a w) t) :
    Meets f n e post' ((x >>= k) w) s :=
  bind h hk

/-- Another condition on the value. -/
theorem imp (h : Meets f n e post o s) (hpost : ∀ a w t, post a w t → post' a w t) :
    Meets f n e post' o s :=
  mono h (Nat.le_refl n) hpost

/-- Steps behind. -/
theorem reaches (h : Meets f n e post o s)
    (hpost : ∀ a w t, post a w t → ∃ u, Reaches f t u ∧ post' a w u) : Meets f n e post' o s := by
  cases o with
  | done a w =>
    obtain ⟨t, ht, h⟩ := h
    obtain ⟨u, hu, h⟩ := hpost a w t h
    exact ⟨u, ht.trans hu, h⟩
  | stopped r w | timeout | wrong => exact h

end Outcome.Meets

/-! ## Results of a machine -/

/-- A state that an evaluation ends in. -/
def Outcome.EndsIn (e : Endings ω ε σ) (final : α → ω → σ) (o : Outcome ω ε α) (t : σ) : Prop :=
  match o with
  | .done a w => t = final a w
  | .stopped r w => t = e.stop r w
  | .timeout => False
  | .wrong => e.Stuck t

section Results

variable {e : Endings ω ε σ} {final : α → ω → σ}

/-- The machine halts when an evaluation with some fuel has ended. -/
theorem Outcome.Meets.exists_mem_eval {o : Outcome ω ε α}
    (h : o.Meets f n e (fun a w t => t = final a w) s)
    (hhalts : ∀ t, o.EndsIn e final t → f t = none) (ho : o ≠ .timeout) :
    ∃ t ∈ eval f s, o.EndsIn e final t := by
  cases o with
  | done a w =>
    obtain ⟨t, hs, ht⟩ := h
    exact ⟨t, mem_eval.mpr ⟨hs, hhalts t ht⟩, ht⟩
  | stopped r w => exact ⟨_, mem_eval.mpr ⟨h, hhalts _ rfl⟩, rfl⟩
  | timeout => exact absurd rfl ho
  | wrong =>
    obtain ⟨t, hs, ht⟩ := h
    exact ⟨t, mem_eval.mpr ⟨hs, hhalts t ht⟩, ht⟩

/-- Where the machine halts an evaluation with enough fuel has ended. -/
theorem exists_endsIn {run : ℕ → Outcome ω ε α}
    (hmeets : ∀ n, (run n).Meets f n e (fun a w t => t = final a w) s)
    (hhalts : ∀ n t, (run n).EndsIn e final t → f t = none) (ht : t ∈ eval f s) :
    ∃ n, (run n).EndsIn e final t := by
  obtain ⟨hs, hnone⟩ := mem_eval.mp ht
  obtain ⟨n, hn⟩ := exists_not_takes hs hnone
  have htimeout : run n ≠ .timeout := by
    intro hrun
    have hmeet := hmeets n
    rw [hrun] at hmeet
    exact hn hmeet
  obtain ⟨u, hu, hends⟩ := (hmeets n).exists_mem_eval (hhalts n) htimeout
  exact ⟨n, Part.mem_unique ht hu ▸ hends⟩

end Results

end Machine

end Minyar

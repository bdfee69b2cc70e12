import Mathlib.Logic.Relation

/-!
# Transition systems

A system is given by its initial states and its steps.  An invariant holds of
every reachable state once it holds initially and every step keeps it.
-/

namespace Foundation

universe u

variable {σ : Type u} {initial : σ → Prop} {step : σ → σ → Prop} {s s' : σ}

/-- The states in which a run of the system can be. -/
def Reachable (initial : σ → Prop) (step : σ → σ → Prop) (s : σ) : Prop :=
  ∃ s₀, initial s₀ ∧ Relation.ReflTransGen step s₀ s

namespace Reachable

theorem start (isInitial : initial s) : Reachable initial step s :=
  ⟨s, isInitial, Relation.ReflTransGen.refl⟩

theorem next (reached : Reachable initial step s) (stepped : step s s') :
    Reachable initial step s' := by
  rcases reached with ⟨s₀, isInitial, run⟩
  exact ⟨s₀, isInitial, run.tail stepped⟩

/-- The rule for invariants. -/
theorem invariant {holds : σ → Prop} (reached : Reachable initial step s)
    (initially : ∀ s, initial s → holds s)
    (preserved : ∀ s s', holds s → step s s' → holds s') : holds s := by
  rcases reached with ⟨s₀, isInitial, run⟩
  induction run with
  | refl => exact initially s₀ isInitial
  | tail _ stepped ih => exact preserved _ _ ih stepped

end Reachable

end Foundation

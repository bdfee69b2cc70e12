import PreciseGc.Foundation.Outcome

/-!
# Approximation of computations

A computation approximates another one that returns the same value whenever it
returns.  Fuel bounds a computation from below in this order: a loop with more
fuel, whose body is extended by that of the loop with less, ends in the same
way unless the latter has run out of it.  A statement about a run with some fuel
can therefore be proved for any larger fuel.
-/

namespace Foundation

universe u v

variable {ε : Type u} {α β : Type v}

/-- Where `computation` returns, so does `other`, with the same value. -/
def Approximates (computation other : Except ε α) : Prop :=
  ∀ value, computation = .ok value → other = .ok value

/-- Unless `computation` runs out of fuel, `other` ends as it does. -/
def Extends (exhausted : ε) (computation other : Except ε α) : Prop :=
  computation = .error exhausted ∨ other = computation

namespace Extends

variable {exhausted : ε} {computation other : Except ε α} {next next' : α → Except ε β}

theorem refl (computation : Except ε α) : Extends exhausted computation computation :=
  Or.inr rfl

theorem of_exhausted : Extends exhausted (.error exhausted) other :=
  Or.inl rfl

theorem bind (first : Extends exhausted computation other)
    (rest : ∀ value, Extends exhausted (next value) (next' value)) :
    Extends exhausted (computation >>= next) (other >>= next') := by
  rcases first with ended | same
  · rw [ended]
    exact of_exhausted
  · rw [same]
    cases computation with
    | error fault => exact refl _
    | ok value => exact rest value

theorem ite {condition : Prop} [Decidable condition] {left right left' right' : Except ε α}
    (whenTrue : Extends exhausted left left') (whenFalse : Extends exhausted right right') :
    Extends exhausted (if condition then left else right)
      (if condition then left' else right') := by
  split
  · exact whenTrue
  · exact whenFalse

theorem approximates (extended : Extends exhausted computation other) :
    Approximates computation other := by
  rintro value rfl
  rcases extended with ended | same
  · cases ended
  · exact same

/-- What is proved with more fuel holds with less. -/
theorem yields {allowed : ε → Prop} {post : α → Prop}
    (extended : Extends exhausted computation other) (holds : Yields allowed post other)
    (exhausts : allowed exhausted) : Yields allowed post computation := by
  rcases extended with ended | same
  · rw [ended]
    exact exhausts
  · rw [← same]
    exact holds

end Extends

/-- A loop with more fuel ends as the loop does. -/
theorem walk_extends {κ σ : Type v} {stop : κ → σ → Bool}
    {body body' : κ → σ → Except ε (κ × σ)} {exhausted : ε}
    (bodies : ∀ cursor state, Extends exhausted (body cursor state) (body' cursor state))
    {fuel fuel' : Nat} (more : fuel ≤ fuel') (cursor : κ) (state : σ) :
    Extends exhausted (walk stop body exhausted fuel cursor state)
      (walk stop body' exhausted fuel' cursor state) := by
  induction fuel generalizing fuel' cursor state with
  | zero => exact Extends.of_exhausted
  | succ fuel ih =>
      obtain ⟨fuel', rfl⟩ : ∃ rest, fuel' = rest + 1 := ⟨fuel' - 1, by omega⟩
      rw [walk, walk]
      apply Extends.ite (Extends.refl _)
      apply (bodies cursor state).bind
      intro next
      apply ih
      omega

end Foundation

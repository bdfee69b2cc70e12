import PreciseGc.Foundation.Outcome
import PreciseGc.Foundation.Transition

/-!
# Programs as lists of commands

A command takes a state to the next one, or faults.  A program that is a list of
commands is run from a state in which a run of the system can be, and ends in
another one if each command is permitted in its state.
-/

namespace Foundation

universe u v w

variable {σ : Type u} {α : Type v} {ε : Type w} (perform : α → σ → Except ε σ)
  (permitted : σ → α → Prop)

/-- One command after the other. -/
def runAll : List α → σ → Except ε σ
  | [], s => .ok s
  | command :: commands, s => perform command s >>= runAll commands

/-- Every command is permitted in the state in which it is run. -/
def PermittedAll : List α → σ → Prop
  | [], _ => True
  | command :: commands, s =>
      permitted s command ∧
        Yields (fun _ => True) (PermittedAll commands) (perform command s)

instance PermittedAll.decidable [∀ s, DecidablePred (permitted s)] :
    (commands : List α) → DecidablePred (PermittedAll perform permitted commands)
  | [], _ => .isTrue trivial
  | _ :: commands, _ =>
      have := PermittedAll.decidable commands
      inferInstanceAs (Decidable (_ ∧ Yields _ _ _))

variable {perform permitted}

theorem Reachable.runAll {initial : σ → Prop} {step : σ → σ → Prop} {s s' : σ}
    (reached : Reachable initial step s) {commands : List α}
    (steps : ∀ s command s', permitted s command → perform command s = .ok s' → step s s')
    (allowed : PermittedAll perform permitted commands s)
    (returned : Foundation.runAll perform commands s = .ok s') : Reachable initial step s' := by
  induction commands generalizing s with
  | nil =>
      cases returned
      exact reached
  | cons command commands ih =>
      rcases allowed with ⟨here, later⟩
      rcases bind_eq_ok returned with ⟨t, performed, rest⟩
      exact ih (reached.next (steps s command t here performed)) (later.of_ok performed) rest

end Foundation

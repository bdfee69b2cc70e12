import Mathlib.Tactic.Common

/-!
# Computations that may fault, and cursor loops

`Yields allowed post r` is the total correctness statement used throughout: the
computation `r` returns a value satisfying `post`, or it stops with a fault
that `allowed` admits.  Choosing `allowed := fun _ => False` states that it
returns.

`walk` is the loop `while (!stop(cursor)) { body; cursor = ...; }` over a cursor
and a state.  The body yields the next cursor, so a loop that saves the link
before its body and one that reads it afterwards are both instances.  The loop
is run with fuel; `walk_yields` discharges the fuel by the list of positions
still to be visited, on which the loop invariant depends.  `Visits` names the
states in which its iterations start.
-/

namespace Foundation

universe u v w

variable {ε : Type u} {α : Type v} {β : Type v}

/-- The computation returns a value satisfying `post` or stops with an allowed fault. -/
def Yields (allowed : ε → Prop) (post : α → Prop) : Except ε α → Prop
  | .ok value => post value
  | .error fault => allowed fault

namespace Yields

variable {allowed : ε → Prop} {post post' : α → Prop} {computation : Except ε α}

@[simp]
theorem ok_iff {value : α} : Yields allowed post (Except.ok value) ↔ post value := Iff.rfl

@[simp]
theorem error_iff {fault : ε} :
    Yields allowed post (Except.error fault : Except ε α) ↔ allowed fault := Iff.rfl

instance [DecidablePred allowed] [DecidablePred post] :
    Decidable (Yields allowed post computation) :=
  match computation with
  | .ok value => inferInstanceAs (Decidable (post value))
  | .error fault => inferInstanceAs (Decidable (allowed fault))

theorem mono (holds : Yields allowed post computation)
    (weaker : ∀ value, post value → post' value) : Yields allowed post' computation := by
  cases computation with
  | ok value => exact weaker value holds
  | error fault => exact holds

/-- Permitting more faults. -/
theorem permit {allowed' : ε → Prop} (holds : Yields allowed post computation)
    (more : ∀ fault, allowed fault → allowed' fault) : Yields allowed' post computation := by
  cases computation with
  | ok value => exact holds
  | error fault => exact more fault holds

theorem and (holds : Yields allowed post computation)
    (holdsToo : Yields allowed post' computation) :
    Yields allowed (fun value => post value ∧ post' value) computation := by
  cases computation with
  | ok value => exact ⟨holds, holdsToo⟩
  | error fault => exact holds

/-- Sequencing: the continuation may assume what the first computation yields. -/
theorem bind {postNext : β → Prop} {next : α → Except ε β}
    (first : Yields allowed post computation)
    (rest : ∀ value, post value → Yields allowed postNext (next value)) :
    Yields allowed postNext (computation >>= next) := by
  cases computation with
  | ok value => exact rest value first
  | error fault => exact first

theorem of_ok {value : α} (holds : Yields allowed post computation)
    (returned : computation = .ok value) : post value := by
  subst returned
  exact holds

theorem of_error {fault : ε} (holds : Yields allowed post computation)
    (eq : computation = .error fault) : allowed fault := by
  rw [eq] at holds
  exact holds

/-- When the only allowed fault does not occur, the computation returns. -/
theorem exists_ok {fault : ε} (holds : Yields (· = fault) post computation)
    (absent : computation ≠ .error fault) : ∃ value, computation = .ok value ∧ post value := by
  cases computation with
  | ok value => exact ⟨value, rfl, holds⟩
  | error other =>
      have same : other = fault := holds
      subst same
      exact absurd rfl absent

/-- When no fault is allowed the computation returns. -/
theorem total (holds : Yields (fun _ => False) post computation) :
    ∃ value, computation = .ok value ∧ post value := by
  cases computation with
  | ok value => exact ⟨value, rfl, holds⟩
  | error fault => exact holds.elim

end Yields

/-- The fault a computation stops with, if any. -/
def faultOf : Except ε α → Option ε
  | .ok _ => none
  | .error fault => some fault

theorem ne_error_of_faultOf {computation : Except ε α} (returns : faultOf computation = none)
    (fault : ε) : computation ≠ .error fault := by
  rintro rfl
  cases returns

/-- From a returning sequence, both halves return. -/
theorem bind_eq_ok {computation : Except ε α} {next : α → Except ε β} {result : β}
    (returned : computation >>= next = .ok result) :
    ∃ value, computation = .ok value ∧ next value = .ok result := by
  cases computation with
  | ok value => exact ⟨value, rfl, returned⟩
  | error fault => cases returned

section Walk

variable {κ : Type v} {σ : Type v} {ι : Type w}

/-- The cursor loop, stopped with `exhausted` when the fuel runs out. -/
def walk (stop : κ → σ → Bool) (body : κ → σ → Except ε (κ × σ)) (exhausted : ε) :
    Nat → κ → σ → Except ε σ
  | 0, _, _ => .error exhausted
  | fuel + 1, cursor, state =>
      if stop cursor state then .ok state
      else body cursor state >>= fun next => walk stop body exhausted fuel next.1 next.2

variable {stop : κ → σ → Bool} {body : κ → σ → Except ε (κ × σ)} {exhausted : ε}
  {allowed : ε → Prop}

/-- A property of the state that every iteration keeps. -/
theorem walk_keeps {escaped : σ → Prop}
    (stays : ∀ cursor state, escaped state →
      allowed exhausted ∧ Yields allowed (fun next => escaped next.2) (body cursor state))
    (fuel : Nat) {cursor : κ} {state : σ} (start : escaped state) :
    Yields allowed escaped (walk stop body exhausted fuel cursor state) := by
  induction fuel generalizing cursor state with
  | zero => exact (stays cursor state start).1
  | succ fuel ih =>
      rw [walk]
      split
      · exact start
      · exact (stays cursor state start).2.bind fun next holds => ih holds

/-- A cursor loop whose body either makes progress along the positions left to visit or reaches
a state that satisfies `escaped`, which every later iteration keeps. -/
theorem walk_yields_or (escaped : σ → Prop) (invariant : List ι → κ → σ → Prop)
    (finished : ∀ cursor state, invariant [] cursor state → stop cursor state = true)
    (proceeds : ∀ item items cursor state, invariant (item :: items) cursor state →
      stop cursor state = false ∧
        Yields allowed (fun next => invariant items next.1 next.2 ∨ escaped next.2)
          (body cursor state))
    (stays : ∀ cursor state, escaped state →
      allowed exhausted ∧ Yields allowed (fun next => escaped next.2) (body cursor state))
    {fuel : Nat} {items : List ι} {cursor : κ} {state : σ}
    (enough : items.length < fuel) (start : invariant items cursor state) :
    Yields allowed (fun final => (∃ cursor', invariant [] cursor' final) ∨ escaped final)
      (walk stop body exhausted fuel cursor state) := by
  induction fuel generalizing items cursor state with
  | zero => omega
  | succ fuel ih =>
      cases items with
      | nil =>
          rw [walk, finished cursor state start]
          exact Or.inl ⟨cursor, start⟩
      | cons item items =>
          rcases proceeds item items cursor state start with ⟨running, bodyYields⟩
          rw [walk, running]
          refine bodyYields.bind fun next holds => ?_
          rcases holds with holds | escape
          · refine ih ?_ holds
            simp only [List.length_cons] at enough
            omega
          · exact (walk_keeps stays _ escape).mono fun _ => Or.inr

/-- Total correctness of a cursor loop by induction on the positions left to visit. -/
theorem walk_yields (invariant : List ι → κ → σ → Prop)
    (finished : ∀ cursor state, invariant [] cursor state → stop cursor state = true)
    (proceeds : ∀ item items cursor state, invariant (item :: items) cursor state →
      stop cursor state = false ∧
        Yields allowed (fun next => invariant items next.1 next.2) (body cursor state))
    {fuel : Nat} {items : List ι} {cursor : κ} {state : σ}
    (enough : items.length < fuel) (start : invariant items cursor state) :
    Yields allowed (fun final => ∃ cursor', invariant [] cursor' final)
      (walk stop body exhausted fuel cursor state) := by
  refine (walk_yields_or (fun _ => False) invariant finished ?_ ?_ enough start).mono ?_
  · intro item items cursor state holds
    rcases proceeds item items cursor state holds with ⟨running, bodyYields⟩
    exact ⟨running, bodyYields.mono fun _ => Or.inl⟩
  · exact fun _ _ never => never.elim
  · exact fun _ reached => reached.resolve_right id

/-- Total correctness of a loop by a variant that every iteration decreases. -/
theorem walk_decreases (invariant : κ → σ → Prop) (variant : κ → σ → Nat)
    (step : ∀ cursor state, invariant cursor state → stop cursor state = false →
      Yields allowed
        (fun next => invariant next.1 next.2 ∧ variant next.1 next.2 < variant cursor state)
        (body cursor state))
    {fuel : Nat} {cursor : κ} {state : σ} (enough : variant cursor state < fuel)
    (start : invariant cursor state) :
    Yields allowed (fun final => ∃ cursor', invariant cursor' final ∧ stop cursor' final = true)
      (walk stop body exhausted fuel cursor state) := by
  induction fuel generalizing cursor state with
  | zero => omega
  | succ fuel ih =>
      rw [walk]
      cases running : stop cursor state with
      | true => exact ⟨cursor, start, running⟩
      | false =>
          refine (step cursor state start running).bind fun next holds => ?_
          apply ih _ holds.1
          have := holds.2
          omega

/-- The loop gets from `cursor` and `state` to the start of an iteration, or to its end, with the
cursor and the state given last. -/
inductive Visits (stop : κ → σ → Bool) (body : κ → σ → Except ε (κ × σ)) (cursor : κ) (state : σ) :
    κ → σ → Prop where
  | start : Visits stop body cursor state cursor state
  | next {cursor' cursor'' : κ} {state' state'' : σ} :
      Visits stop body cursor state cursor' state' → stop cursor' state' = false →
        body cursor' state' = .ok (cursor'', state'') →
          Visits stop body cursor state cursor'' state''

/-- A loop that returns has visited the state it returns. -/
theorem visits_of_walk {fuel : Nat} {cursor cursor' : κ} {state state' final : σ}
    (visited : Visits stop body cursor state cursor' state')
    (returned : walk stop body exhausted fuel cursor' state' = .ok final) :
    ∃ last, Visits stop body cursor state last final ∧ stop last final = true := by
  induction fuel generalizing cursor' state' with
  | zero => cases returned
  | succ fuel ih =>
      rw [walk] at returned
      cases running : stop cursor' state' with
      | true =>
          rw [running] at returned
          cases returned
          exact ⟨cursor', visited, running⟩
      | false =>
          rw [running] at returned
          rcases bind_eq_ok returned with ⟨next, eq, rest⟩
          exact ih (visited.next running eq) rest

/-- An invariant on the positions left to visit holds at the start of every iteration. -/
theorem Visits.invariant {allowed : ε → Prop} (invariant : List ι → κ → σ → Prop)
    (finished : ∀ cursor state, invariant [] cursor state → stop cursor state = true)
    (proceeds : ∀ item items cursor state, invariant (item :: items) cursor state →
      stop cursor state = false ∧
        Yields allowed (fun next => invariant items next.1 next.2) (body cursor state))
    {items : List ι} {cursor cursor' : κ} {state state' : σ} (start : invariant items cursor state)
    (visited : Visits stop body cursor state cursor' state') :
    ∃ left, invariant left cursor' state' := by
  induction visited with
  | start => exact ⟨items, start⟩
  | next _ running eq ih =>
      rcases ih with ⟨left, holds⟩
      cases left with
      | nil =>
          rw [finished _ _ holds] at running
          cases running
      | cons item left => exact ⟨left, (proceeds item left _ _ holds).2.of_ok eq⟩

end Walk

end Foundation

import PreciseGc.Foundation.Program
import PreciseGc.Threads.ThreadList

/-!
# Requests for a full collection

A thread that calls `gc` and finds a collector at work waits for the end of that
collection and returns.  The requests are observed from outside: when each call was
entered, when each collection began, and what had been completed when a call returned.
-/

namespace PreciseGc.Threads

open Foundation Function

variable {memory : HandlerMemory} {w w' : World} {t u h : Nat} {action : Action}

/-- A call of `gc`. -/
structure Call where
  full : Bool
  /-- When it was entered. -/
  entered : Nat
deriving DecidableEq, Repr

/-- What there was when a call of `gc(true)` returned 0. -/
structure Return where
  entered : Nat
  /-- When the executions of `mark_and_sweep` began that had been completed. -/
  completed : List Nat
deriving DecidableEq, Repr

/-- The protocol with a clock. -/
structure Requests where
  world : World
  now : Nat
  /-- The call of `gc` that a thread is in. -/
  calls : Nat → Option Call
  /-- Whether the last collection is a call of `mark_and_sweep`, and when it began. -/
  full : Bool
  began : Nat
  /-- When the executions of `mark_and_sweep` began that have been completed. -/
  completed : List Nat
  returns : List Return

inductive RequestAction where
  /-- A call of `gc`, which has not taken the mutex yet. -/
  | enter (full : Bool)
  | protocol (action : Action)
deriving DecidableEq, Repr

namespace Requests

/-- A thread inside `gc` goes on there. -/
def Enabled (p : Requests) (t : Nat) : Action → Prop
  | .gc full => (p.calls t).map Call.full = some full
  | .wake => True
  | .collectorWake => True
  | _ => p.calls t = none

instance (p : Requests) (t : Nat) (action : Action) : Decidable (p.Enabled t action) :=
  match action with
  | .gc full => inferInstanceAs (Decidable ((p.calls t).map Call.full = some full))
  | .wake | .collectorWake => inferInstanceAs (Decidable True)
  | .gcPtr | .readMoreThanOne | .safepoint | .remove _ | .prepare | .start | .create _ | .join _
  | .joined | .free | .enterNew | .leaveNew | .unwind | .finish =>
      inferInstanceAs (Decidable (p.calls t = none))

/-- The thread `t` is no longer in `gc`. -/
def Leaves (w' : World) (t : Nat) : Action → Prop
  | .gc _ => w'.place t = .running
  | .wake => w'.place t = .running
  | .collectorWake => w'.place t = .running
  | _ => False

instance (w' : World) (t : Nat) (action : Action) : Decidable (Leaves w' t action) := by
  cases action <;> simp only [Leaves] <;> infer_instance

/-- The value with which the thread `t` leaves `gc`. -/
def value (w : World) (t : Nat) : Action → Nat
  | .gc _ => if w.nesting t ≠ 0 then 1 else 0
  | _ => 0

/-- The kind of the collection that the thread `t` begins. -/
def begins (w : World) (t : Nat) : Action → Option Bool
  | .gc full => if w.nesting t = 0 ∧ w.gcThread = 0 then some full else none
  | _ => none

/-- After a step of the protocol that leads to `w'`. -/
def next (p : Requests) (t : Nat) (action : Action) (w' : World) : Requests :=
  let began := if (begins p.world t action).isSome then p.now else p.began
  let completed :=
    if w'.sweeps.length = p.world.sweeps.length then p.completed else p.completed ++ [began]
  { world := w'
    now := p.now + 1
    calls := if Leaves w' t action then update p.calls t none else p.calls
    full := (begins p.world t action).getD p.full
    began := began
    completed := completed
    returns :=
      match p.calls t with
      | some ⟨true, entered⟩ =>
          if Leaves w' t action ∧ value p.world t action = 0 then
            p.returns ++ [⟨entered, completed⟩]
          else p.returns
      | _ => p.returns }

/-- One step of a thread; the error `none` when the action is not enabled. -/
def perform (memory : HandlerMemory) (command : Nat × RequestAction) (p : Requests) :
    Except (Option Fault) Requests :=
  match command with
  | (t, .enter full) =>
      if p.world.place t = .running ∧ p.calls t = none then
        .ok { p with calls := update p.calls t (some ⟨full, p.now⟩), now := p.now + 1 }
      else .error none
  | (t, .protocol action) =>
      if p.Enabled t action then
        match step memory p.world t action with
        | none => .error none
        | some (.error fault) => .error (some fault)
        | some (.ok w) => .ok (p.next t action w)
      else .error none

/-- The program has started in the thread `t`. -/
def initial (t : Nat) : Requests where
  world := World.initial t
  now := 0
  calls := fun _ => none
  full := false
  began := 0
  completed := []
  returns := []

/-- What can happen next, when all steps are `allowed` ones. -/
def Step (memory : HandlerMemory) (allowed : Requests → Nat × RequestAction → Prop)
    (p p' : Requests) : Prop :=
  ∃ command, allowed p command ∧ p.perform memory command = .ok p'

/-- The states that runs of allowed steps reach. -/
abbrev Runs (memory : HandlerMemory) (allowed : Requests → Nat × RequestAction → Prop) :=
  Reachable (fun p => ∃ t, p = initial t) (Step memory allowed)

/-- The condition on the steps of a run: a call of `gc(true)` that finds a collector at work finds
one that is in `mark_and_sweep`, and that began after the call was entered. -/
def FindsFull (p : Requests) : Nat × RequestAction → Prop
  | (t, .protocol (.gc true)) => p.world.nesting t = 0 → p.world.gcThread ≠ 0 →
      p.full = true ∧ ∀ call ∈ p.calls t, call.entered < p.began
  | _ => True

end Requests

namespace World

theorem unlink_place {removal : Removal} (unlinked : w.unlink t removal = .ok w') :
    ∃ curr, w'.place = update w.place t (.freeing curr removal) := by
  rcases unlink_ok unlinked with ⟨prev, curr, -, -, rfl⟩
  rcases w.bypass_eq prev curr with ⟨handlers, firstThread, same, -⟩
  rw [same]
  exact ⟨curr, rfl⟩

theorem threadCreate_place (memory : HandlerMemory) (w : World) (t u : Nat) :
    ∃ new, (w.threadCreate memory t u).place = update w.place u (.created new) := by
  have enrolled : (if w.firstThread = 0 then w.createFirstHandler memory t else w).place =
      w.place := by
    split
    next =>
      rcases w.createFirstHandler_enrolled memory t with ⟨_, _, _, _, same, -⟩
      rw [same]
    next => rfl
  unfold threadCreate
  generalize (if w.firstThread = 0 then w.createFirstHandler memory t else w) = v at enrolled
  rcases v.newThreadHandler_recycled memory with ⟨_, _, _, same, -⟩
  have place : (v.newThreadHandler memory).2.place = w.place := by
    rw [same]
    exact enrolled
  refine ⟨(v.newThreadHandler memory).1, ?_⟩
  change update (v.newThreadHandler memory).2.place u _ = _
  rw [place]

end World

/-- Where the other threads are after a step in which no thread collects. -/
theorem Effect.elsewhere (effect : Effect memory w t action w') (plain : action.Plain)
    (other : u ≠ t) : w'.place u = w.place u ∨ w'.place u = (w.place u).signalled ∨
      (w.place u = .absent ∧ ∃ h, w'.place u = .created h) := by
  have enrolled : ∀ {h : Nat} {w₁ : World}, w.getThreadHandler memory t = .ok (h, w₁) →
      w₁.place = w.place := fun found => World.getThreadHandler_place found
  have unlinked : ∀ {v : World} {removal : Removal}, v.unlink t removal = .ok w' →
      w'.place u = v.place u := by
    intro v removal ran
    rcases World.unlink_place ran with ⟨curr, places⟩
    rw [places, update_of_ne other]
  cases effect with
  | stay => exact Or.inl rfl
  | lookup _ place found => exact Or.inl (congrFun (enrolled found) u)
  | wait waits found busy =>
      right
      left
      simp [World.waitAt, other, enrolled found]
  | begin => cases plain
  | goOn => cases plain
  | pass place found idle =>
      left
      simp [World.leave, other, enrolled found]
  | remove place found idle ran =>
      left
      rw [unlinked ran]
      exact congrFun (enrolled found) u
  | wake place sort =>
      left
      simp [World.leave, other]
  | wakeRemove place ran =>
      left
      rw [unlinked ran]
      rfl
  | wakeStart place =>
      left
      simp [World.link, other]
  | read place =>
      left
      simp [other]
  | prepare place =>
      left
      simp [other]
  | startWait place busy =>
      left
      simp [other]
  | start place idle =>
      left
      simp [World.link, other]
  | @create v place absent =>
      rcases w.threadCreate_place memory t v with ⟨new, places⟩
      rw [places]
      by_cases isNew : u = v
      · rw [isNew, update_self]
        exact Or.inr (Or.inr ⟨absent, new, rfl⟩)
      · exact Or.inl (update_of_ne isNew _ _)
  | join place found =>
      split
      next =>
        right
        left
        simp [other, enrolled found]
      next =>
        left
        simp [other, enrolled found]
  | joined place ended =>
      left
      simp [World.leave, other]
  | @free h removal place =>
      left
      cases removal <;> simp [World.free, other]
  | enterNew place => exact Or.inl rfl
  | leaveNew place => exact Or.inl rfl
  | unwind place cancelled =>
      left
      simp [other]
  | finish place =>
      left
      simp [other]

/-- A thread does not come to wait in `gc` in such a step. -/
theorem Effect.waiting_here {notified : Bool} (effect : Effect memory w t action w')
    (plain : action.Plain) (waiting : w'.place t = .waiting .gc h notified) :
    w.place t = .waiting .gc h notified := by
  have unlinked : ∀ {v : World} {removal : Removal}, v.unlink t removal = .ok w' →
      w'.place t ≠ .waiting .gc h notified := by
    intro v removal ran
    rcases World.unlink_place ran with ⟨curr, places⟩
    simp [places]
  cases effect with
  | stay => exact waiting
  | lookup _ place found =>
      rw [World.getThreadHandler_place found] at waiting
      exact waiting
  | wait waits found busy =>
      cases waits with
      | gc => cases plain
      | safepoint => simp [World.waitAt] at waiting
      | remove => simp [World.waitAt] at waiting
  | begin => cases plain
  | goOn => cases plain
  | pass place found idle => simp [World.leave] at waiting
  | remove place found idle ran => exact absurd waiting (unlinked ran)
  | wake place sort => simp [World.leave] at waiting
  | wakeRemove place ran => exact absurd waiting (unlinked ran)
  | wakeStart place => simp [World.link] at waiting
  | read place => simp at waiting
  | prepare place => simp at waiting
  | startWait place busy => simp at waiting
  | start place idle => simp [World.link] at waiting
  | @create v place absent =>
      rcases w.threadCreate_place memory t v with ⟨new, places⟩
      rw [places] at waiting
      by_cases isNew : t = v
      · simp [isNew] at waiting
      · simpa [isNew] using waiting
  | join place found =>
      split at waiting <;> simp at waiting
  | joined place ended => simp [World.leave] at waiting
  | @free h removal place => cases removal <;> simp [World.free] at waiting
  | enterNew place => exact waiting
  | leaveNew place => exact waiting
  | unwind place cancelled => simp at waiting
  | finish place => simp at waiting

namespace Place

/-- Where a thread can be inside `gc`. -/
def inGc : Place → Bool
  | running => true
  | waiting .gc _ _ => true
  | collecting _ _ => true
  | _ => false

variable {place : Place}

theorem waiting_of_finishedGc {site : Site} {notified : Bool}
    (same : place.finishedGc = waiting site h notified) : ∃ before,
    place = waiting site h before := by
  cases place <;> simp_all [finishedGc]

@[simp]
theorem signalled_inGc : place.signalled.inGc = place.inGc := by cases place <;> rfl

@[simp]
theorem finishedGc_inGc : place.finishedGc.inGc = place.inGc := by
  rcases place with _ | _ | _ | _ | _ | ⟨_ | _ | _ | _, _, _⟩ <;> rfl

end Place

namespace Requests

/-- What the threads inside `gc` can rely on. -/
structure Answered (p : Requests) : Prop where
  signals : Signals p.world
  inside : ∀ t, p.calls t ≠ none → (p.world.place t).inGc = true
  earlier : ∀ t call, p.calls t = some call → call.entered < p.now
  collecting : ∀ t c n, p.world.place t = .collecting c n → c.full = p.full ∧
    ∀ call, p.calls t = some call → call.full = c.full ∧ call.entered < p.began
  waiting : ∀ t h, p.world.place t = .waiting .gc h false → ∀ call, p.calls t = some call →
    call.full = true → p.full = true ∧ call.entered < p.began
  woken : ∀ t h, p.world.place t = .waiting .gc h true → ∀ call, p.calls t = some call →
    call.full = true → ∃ began ∈ p.completed, call.entered < began
  returns : ∀ r ∈ p.returns, ∃ began ∈ r.completed, r.entered < began

section Next

variable {p : Requests}

theorem calls_of_next {call : Call} (isCall : (p.next t action w').calls u = some call) :
    p.calls u = some call ∧ ¬ (u = t ∧ Leaves w' t action) := by
  change (if Leaves w' t action then update p.calls t none else p.calls) u = some call at isCall
  split at isCall
  next leaves =>
    by_cases same : u = t
    · simp [same] at isCall
    · exact ⟨by simpa [same] using isCall, fun both => same both.1⟩
  next stays => exact ⟨isCall, fun both => stays both.2⟩

theorem returns_of_next {r : Return} (mem : r ∈ (p.next t action w').returns) :
    r ∈ p.returns ∨ ∃ entered, p.calls t = some ⟨true, entered⟩ ∧ Leaves w' t action ∧
      value p.world t action = 0 ∧ r = ⟨entered, (p.next t action w').completed⟩ := by
  simp only [next] at mem
  split at mem
  next entered isCall =>
    split at mem
    next leaves =>
      rcases List.mem_append.mp mem with before | new
      · exact Or.inl before
      · exact Or.inr ⟨entered, isCall, leaves.1, leaves.2, List.mem_singleton.mp new⟩
    next => exact Or.inl mem
  next => exact Or.inl mem

/-- What is left to show of a step of the protocol. -/
theorem Answered.next (answered : Answered p) (signals : Signals w')
    (inside : ∀ u, p.calls u ≠ none → ¬ (u = t ∧ Leaves w' t action) → (w'.place u).inGc = true)
    (collecting : ∀ u c n, w'.place u = .collecting c n → c.full = (p.next t action w').full ∧
      ∀ call, p.calls u = some call →
        call.full = c.full ∧ call.entered < (p.next t action w').began)
    (waiting : ∀ u h, w'.place u = .waiting .gc h false → ∀ call, p.calls u = some call →
      call.full = true → (p.next t action w').full = true ∧
        call.entered < (p.next t action w').began)
    (woken : ∀ u h, w'.place u = .waiting .gc h true → ∀ call, p.calls u = some call →
      call.full = true → ∃ began ∈ (p.next t action w').completed, call.entered < began)
    (returned : ∀ entered, p.calls t = some ⟨true, entered⟩ → Leaves w' t action →
      value p.world t action = 0 → ∃ began ∈ (p.next t action w').completed, entered < began) :
    Answered (p.next t action w') := by
  constructor
  case signals => exact signals
  case inside =>
    intro u isCall
    rcases Option.ne_none_iff_exists'.mp isCall with ⟨call, isCall⟩
    rcases calls_of_next isCall with ⟨before, stays⟩
    exact inside u (by simp [before]) stays
  case earlier =>
    intro u call isCall
    exact Nat.lt_succ_of_lt (answered.earlier u call (calls_of_next isCall).1)
  case collecting =>
    intro u c n place
    rcases collecting u c n place with ⟨full, calls⟩
    exact ⟨full, fun call isCall => calls call (calls_of_next isCall).1⟩
  case waiting =>
    intro u h place call isCall
    exact waiting u h place call (calls_of_next isCall).1
  case woken =>
    intro u h place call isCall
    exact woken u h place call (calls_of_next isCall).1
  case returns =>
    intro r mem
    rcases returns_of_next mem with before | ⟨entered, isCall, leaves, isZero, same⟩
    · exact answered.returns r before
    · rw [same]
      exact returned entered isCall leaves isZero

/-- The executions that had been completed stay completed. -/
theorem mem_completed {began : Nat} (mem : began ∈ p.completed) :
    began ∈ (p.next t action w').completed := by
  simp only [next]
  split
  next => exact mem
  next => exact List.mem_append_left _ mem

/-- The one that has just been completed is added. -/
theorem began_mem_completed (more : w'.sweeps.length ≠ p.world.sweeps.length) :
    (p.next t action w').began ∈ (p.next t action w').completed := by
  simp only [next, if_neg more]
  exact List.mem_append_right _ List.mem_cons_self

theorem full_of_none (none : begins p.world t action = none) :
    (p.next t action w').full = p.full := by
  simp only [next, none, Option.getD_none]

theorem began_of_none (none : begins p.world t action = none) :
    (p.next t action w').began = p.began := by
  simp [next, none]

theorem completed_of_sweeps (sweeps : w'.sweeps = p.world.sweeps) :
    (p.next t action w').completed = p.completed := by
  simp only [next, sweeps, if_true]

/-- A thread inside `gc` wakes up from the wait in `gc`. -/
theorem Answered.woken_gc (answered : Answered p) (isCall : p.calls t ≠ none)
    {result : Except Fault World} (stepped : step memory p.world t .wake = some result) :
    ∃ h, p.world.place t = .waiting .gc h true ∧ result = .ok (p.world.leave t h) := by
  have inside := answered.inside t isCall
  cases place : p.world.place t with
  | waiting site h notified =>
      rw [place] at inside
      cases site with
      | gc =>
          cases notified with
          | true =>
              have resumed : step memory p.world t .wake =
                  some (.ok (p.world.leave t h)) := by simp [step, place, World.resume, World.leave]
              rw [resumed] at stepped
              exact ⟨h, rfl, (Option.some.inj stepped).symm⟩
          | false => simp [step, place] at stepped
      | _ => cases inside
  | _ => simp [step, place] at stepped

/-- A step in which no thread collects. -/
theorem Answered.plain (answered : Answered p) (plain : action.Plain) (enabled : p.Enabled t action)
    (stepped : step memory p.world t action = some (.ok w')) : Answered (p.next t action w') := by
  have effect := step_effect stepped
  have aside := effect.aside_of_plain plain
  have none : begins p.world t action = none := by
    cases action <;> first | rfl | cases plain
  have full : (p.next t action w').full = p.full := full_of_none none
  have began : (p.next t action w').began = p.began := began_of_none none
  have completed : (p.next t action w').completed = p.completed :=
    completed_of_sweeps aside.sweeps
  have waits : ∀ u h n, w'.place u = .waiting .gc h n → p.world.place u = .waiting .gc h n := by
    intro u h n place
    by_cases same : u = t
    · rw [same] at place ⊢
      exact effect.waiting_here plain place
    · rcases effect.elsewhere plain same with before | before | ⟨-, new, before⟩
      · rw [← before]
        exact place
      · rw [before] at place
        exact Place.signalled_eq_waiting.mp place
      · rw [before] at place
        cases place
  have wakes : p.calls t ≠ .none → action = .wake := by
    intro isCall
    cases action with
    | wake => rfl
    | gc => cases plain
    | collectorWake => cases plain
    | _ => exact absurd enabled isCall
  apply answered.next (answered.signals.step effect)
  case inside =>
    intro u isCall stays
    by_cases same : u = t
    · rw [same] at isCall
      rcases wakes isCall with rfl
      rcases answered.woken_gc isCall stepped with ⟨h, -, left⟩
      cases left
      exact absurd ⟨same, by simp [Leaves, World.leave]⟩ stays
    · have before := answered.inside u isCall
      rcases effect.elsewhere plain same with place | place | ⟨absent, -⟩
      · rw [place]
        exact before
      · rw [place, Place.signalled_inGc]
        exact before
      · rw [absent] at before
        cases before
  case collecting =>
    intro u c n place
    rcases aside.collecting u c n place with ⟨m, before⟩
    rw [full, began]
    exact answered.collecting u c m before
  case waiting =>
    intro u h place
    rw [full, began]
    exact answered.waiting u h (waits u h false place)
  case woken =>
    intro u h place
    rw [completed]
    exact answered.woken u h (waits u h true place)
  case returned =>
    intro entered isCall _ _
    have inCall : p.calls t ≠ .none := by simp [isCall]
    rcases wakes inCall with rfl
    rcases answered.woken_gc inCall stepped with ⟨h, place, -⟩
    rw [completed]
    exact answered.woken t h place _ isCall rfl

/-- The walk of the collector. -/
theorem Answered.collect {w₀ : World} {c : Collection} (answered : Answered p)
    (signals : Signals w') (places : w₀.place = p.world.place) (sweeps : w₀.sweeps = p.world.sweeps)
    (only : ∀ u d n, p.world.place u = .collecting d n → u = t)
    (full : (p.next t action w').full = c.full)
    (own : ∀ call, p.calls t = some call →
      call.full = c.full ∧ call.entered < (p.next t action w').began)
    (others : ∀ u h, p.world.place u = .waiting .gc h false → ∀ call, p.calls u = some call →
      call.full = true → c.full = true ∧ call.entered < (p.next t action w').began)
    (leaves : Leaves w' t action ↔ w'.place t = .running)
    (ran : w₀.collect t c = .ok w') : Answered (p.next t action w') := by
  rcases World.collect_ok ran with ⟨cursor, scanned, -, ⟨-, ended⟩ | ⟨-, blocked⟩⟩
  · have here : w'.place t = .running := by simp [ended, World.endCollection]
    have elsewhere : ∀ u, u ≠ t → w'.place u = (p.world.place u).finishedGc := by
      intro u other
      simp [ended, World.endCollection, other, places]
    have newer : c.full = true →
        (p.next t action w').began ∈ (p.next t action w').completed := by
      intro isFull
      apply began_mem_completed
      simp [ended, World.endCollection, isFull, sweeps]
    apply answered.next signals
    case inside =>
      intro u isCall stays
      by_cases same : u = t
      · exact absurd ⟨same, leaves.mpr here⟩ stays
      · rw [elsewhere u same, Place.finishedGc_inGc]
        exact answered.inside u isCall
    case collecting =>
      intro u d n place
      by_cases same : u = t
      · rw [same, here] at place
        cases place
      · rw [elsewhere u same, Place.finishedGc_eq_collecting] at place
        exact absurd (only u d n place) same
    case waiting =>
      intro u h place
      by_cases same : u = t
      · rw [same, here] at place
        cases place
      · rw [elsewhere u same] at place
        cases Place.finishedGc_eq_waiting place
    case woken =>
      intro u h place call isCall isFull
      by_cases same : u = t
      · rw [same, here] at place
        cases place
      · rw [elsewhere u same] at place
        rcases Place.waiting_of_finishedGc place with ⟨notified, before⟩
        cases notified with
        | true =>
            rcases answered.woken u h before call isCall isFull with ⟨began, mem, later⟩
            exact ⟨began, mem_completed mem, later⟩
        | false =>
            rcases others u h before call isCall isFull with ⟨fullNow, later⟩
            exact ⟨_, newer fullNow, later⟩
    case returned =>
      intro entered isCall _ _
      rcases own _ isCall with ⟨sameKind, later⟩
      exact ⟨_, newer sameKind.symm, later⟩
  · have here : w'.place t = .collecting { c with cursor := cursor, scanned := scanned } false := by
      simp [blocked]
    have elsewhere : ∀ u, u ≠ t → w'.place u = p.world.place u := by
      intro u other
      simp [blocked, other, places]
    have completed : (p.next t action w').completed = p.completed := by
      apply completed_of_sweeps
      rw [blocked]
      exact sweeps
    apply answered.next signals
    case inside =>
      intro u isCall _
      by_cases same : u = t
      · rw [same, here]
        rfl
      · rw [elsewhere u same]
        exact answered.inside u isCall
    case collecting =>
      intro u d n place
      by_cases same : u = t
      · rw [same] at place ⊢
        rw [here] at place
        cases place
        exact ⟨full.symm, own⟩
      · rw [elsewhere u same] at place
        exact absurd (only u d n place) same
    case waiting =>
      intro u h place
      by_cases same : u = t
      · rw [same, here] at place
        cases place
      · rw [elsewhere u same] at place
        rw [full]
        exact others u h place
    case woken =>
      intro u h place
      by_cases same : u = t
      · rw [same, here] at place
        cases place
      · rw [elsewhere u same] at place
        rw [completed]
        exact answered.woken u h place
    case returned =>
      intro entered _ left
      have running := leaves.mp left
      rw [here] at running
      cases running

/-- What a thread finds that has taken the mutex in `gc`. -/
theorem Answered.request {full : Bool} (answered : Answered p) (place : p.world.place t = .running)
    (enabled : p.Enabled t (.gc full)) (finds : p.FindsFull (t, .protocol (.gc full)))
    (ran : p.world.gc memory t full = .ok w') : Answered (p.next t (.gc full) w') := by
  have signals := answered.signals.step (gc_effect place ran)
  rcases Option.map_eq_some_iff.mp enabled with ⟨call, isCall, sameKind⟩
  rcases gc_ok ran with ⟨h, w₁, found, outcome⟩
  rcases World.getThreadHandler_enrolled found with ⟨_, _, _, _, enrolled, -⟩
  have places : w₁.place = p.world.place := by rw [enrolled]
  have sweeps : w₁.sweeps = p.world.sweeps := by rw [enrolled]
  have gcThread : w₁.gcThread = p.world.gcThread := by rw [enrolled]
  rcases outcome with ⟨nested, same⟩ | ⟨flat, busy, same⟩ | ⟨flat, idle, collected⟩
  · -- `gc` returns 1.
    have none : begins p.world t (.gc full) = none := if_neg fun both => nested both.1
    have completed : (p.next t (.gc full) w').completed = p.completed :=
      completed_of_sweeps (by rw [same, sweeps])
    apply answered.next signals
    case inside =>
      intro u isCall _
      rw [same, places]
      exact answered.inside u isCall
    case collecting =>
      rw [full_of_none none, began_of_none none, same, places]
      exact answered.collecting
    case waiting =>
      rw [full_of_none none, began_of_none none, same, places]
      exact answered.waiting
    case woken =>
      rw [completed, same, places]
      exact answered.woken
    case returned =>
      intro entered _ _ isZero
      rw [value, if_pos nested] at isZero
      cases isZero
  · -- There is a collector.
    rw [gcThread] at busy
    have none : begins p.world t (.gc full) = none := if_neg fun both => busy both.2
    have here : w'.place t = .waiting .gc h false := by simp [same, World.waitAt]
    have elsewhere : ∀ u, u ≠ t → w'.place u = (p.world.place u).signalled := by
      intro u other
      simp [same, World.waitAt, other, places]
    have completed : (p.next t (.gc full) w').completed = p.completed :=
      completed_of_sweeps (by rw [same, ← sweeps]; rfl)
    apply answered.next signals
    case inside =>
      intro u isCall _
      by_cases isHere : u = t
      · rw [isHere, here]
        rfl
      · rw [elsewhere u isHere, Place.signalled_inGc]
        exact answered.inside u isCall
    case collecting =>
      intro u c n collecting
      rw [full_of_none none, began_of_none none]
      by_cases isHere : u = t
      · rw [isHere, here] at collecting
        cases collecting
      · rw [elsewhere u isHere] at collecting
        rcases Place.signalled_eq_collecting collecting with ⟨-, m, before⟩
        exact answered.collecting u c m before
    case waiting =>
      intro u g waiting call' isCall' isFull
      rw [full_of_none none, began_of_none none]
      by_cases isHere : u = t
      · rw [isHere, isCall] at isCall'
        cases isCall'
        obtain rfl : full = true := sameKind.symm.trans isFull
        rcases finds flat busy with ⟨fullNow, later⟩
        exact ⟨fullNow, later call isCall⟩
      · rw [elsewhere u isHere, Place.signalled_eq_waiting] at waiting
        exact answered.waiting u g waiting call' isCall' isFull
    case woken =>
      intro u g waiting
      rw [completed]
      by_cases isHere : u = t
      · rw [isHere, here] at waiting
        cases waiting
      · rw [elsewhere u isHere, Place.signalled_eq_waiting] at waiting
        exact answered.woken u g waiting
    case returned =>
      intro entered _ left
      change w'.place t = .running at left
      rw [here] at left
      cases left
  · -- The collection begins.
    rw [gcThread] at idle
    have some : begins p.world t (.gc full) = some full := if_pos ⟨flat, idle⟩
    have began : (p.next t (.gc full) w').began = p.now := by simp [Requests.next, some]
    have alone : ∀ u d n, p.world.place u ≠ .collecting d n :=
      fun u d n collecting => absurd idle (answered.signals.collecting u d n collecting)
    apply answered.collect signals _ _ _ _ _ _ Iff.rfl collected
    · exact places
    · exact sweeps
    · exact fun u d n collecting => absurd collecting (alone u d n)
    · simp only [Requests.next, some, Option.getD_some]
    · intro call' isCall'
      rw [isCall] at isCall'
      cases isCall'
      rw [began]
      exact ⟨sameKind, answered.earlier t call isCall⟩
    · exact fun u g waiting => absurd idle (answered.signals.unfinished u .gc g waiting)

/-- A call of `gc`. -/
theorem Answered.enter {full : Bool} (answered : Answered p) (place : p.world.place t = .running) :
    Answered { p with
      calls := update p.calls t (some ⟨full, p.now⟩), now := p.now + 1 } := by
  have before : ∀ u call, update p.calls t (some ⟨full, p.now⟩) u = some call →
      (u = t ∧ call = ⟨full, p.now⟩) ∨ (u ≠ t ∧ p.calls u = some call) := by
    intro u call isCall
    by_cases same : u = t
    · rw [same, update_self] at isCall
      exact Or.inl ⟨same, (Option.some.inj isCall).symm⟩
    · rw [update_of_ne same] at isCall
      exact Or.inr ⟨same, isCall⟩
  have elsewhere : ∀ u, p.world.place u ≠ .running → ∀ call,
      update p.calls t (some ⟨full, p.now⟩) u = some call → p.calls u = some call := by
    intro u notRunning call isCall
    rcases before u call isCall with ⟨same, -⟩ | ⟨-, old⟩
    · exact absurd (same ▸ place) notRunning
    · exact old
  constructor
  case signals => exact answered.signals
  case inside =>
    intro u isCall
    rcases Option.ne_none_iff_exists'.mp isCall with ⟨call, isCall⟩
    rcases before u call isCall with ⟨same, -⟩ | ⟨-, old⟩
    · rw [same, place]
      rfl
    · exact answered.inside u (by simp [old])
  case earlier =>
    intro u call isCall
    rcases before u call isCall with ⟨-, same⟩ | ⟨-, old⟩
    · rw [same]
      exact Nat.lt_succ_self p.now
    · exact Nat.lt_succ_of_lt (answered.earlier u call old)
  case collecting =>
    intro u c n collecting
    have notRunning : p.world.place u ≠ .running :=
      fun running => by cases running.symm.trans collecting
    rcases answered.collecting u c n collecting with ⟨sameKind, own⟩
    exact ⟨sameKind, fun call isCall => own call (elsewhere u notRunning call isCall)⟩
  case waiting =>
    intro u h waiting call isCall
    have notRunning : p.world.place u ≠ .running :=
      fun running => by cases running.symm.trans waiting
    exact answered.waiting u h waiting call (elsewhere u notRunning call isCall)
  case woken =>
    intro u h waiting call isCall
    have notRunning : p.world.place u ≠ .running :=
      fun running => by cases running.symm.trans waiting
    exact answered.woken u h waiting call (elsewhere u notRunning call isCall)
  case returns => exact answered.returns

theorem gc_of_step {full : Bool} (stepped : step memory w t (.gc full) = some (.ok w')) :
    w.place t = .running ∧ w.gc memory t full = .ok w' := by
  cases place : w.place t with
  | running =>
      simp only [step, place, Option.some.injEq] at stepped
      exact ⟨rfl, stepped⟩
  | _ => simp [step, place] at stepped

theorem collect_of_step (stepped : step memory w t .collectorWake = some (.ok w')) :
    ∃ c, w.place t = .collecting c true ∧ w.collect t c = .ok w' := by
  cases place : w.place t with
  | collecting c notified =>
      cases notified with
      | true =>
          simp only [step, place, Option.some.injEq] at stepped
          exact ⟨c, rfl, stepped⟩
      | false => simp [step, place] at stepped
  | _ => simp [step, place] at stepped

/-- Every step that meets the condition keeps the invariant. -/
theorem Answered.step {p' : Requests} {command : Nat × RequestAction} (answered : Answered p)
    (finds : p.FindsFull command) (performed : p.perform memory command = .ok p') :
    Answered p' := by
  rcases command with ⟨t, full | action⟩
  · simp only [perform] at performed
    split at performed
    next idle =>
      cases performed
      exact answered.enter idle.1
    next => cases performed
  · simp only [perform] at performed
    split at performed
    next enabled =>
      split at performed
      next => cases performed
      next => cases performed
      next w' stepped =>
        cases performed
        cases action with
        | gc full =>
            rcases gc_of_step stepped with ⟨place, ran⟩
            exact answered.request place enabled finds ran
        | collectorWake =>
            rcases collect_of_step stepped with ⟨c, place, ran⟩
            rcases answered.collecting t c true place with ⟨full, own⟩
            have none : begins p.world t .collectorWake = none := rfl
            apply answered.collect (answered.signals.step (step_effect stepped)) rfl rfl _ _ _ _
              Iff.rfl ran
            · exact fun u d n placeU => answered.signals.unique u t d c n true placeU place
            · rw [full_of_none none]
              exact full.symm
            · rw [began_of_none none]
              exact own
            · rw [began_of_none none, full]
              exact answered.waiting
        | _ => exact answered.plain trivial enabled stepped
    next => cases performed

end Next

theorem Answered.initial (t : Nat) : Answered (Requests.initial t) := by
  have signals := Signals.initial t
  constructor
  case signals => exact signals
  case collecting => exact fun u c n place => absurd rfl (signals.collecting u c n place)
  case waiting => exact fun u h place => absurd rfl (signals.unfinished u .gc h place)
  all_goals simp [Requests.initial]

end Requests

/-- In every run in which each call of `gc(true)` that finds a collector at work finds one that
executes `mark_and_sweep` and began after the call was entered, a full collection that began after
the call was entered has been completed whenever a call of `gc(true)` returns 0. -/
theorem runs_answered {p : Requests} (reached : Requests.Runs memory Requests.FindsFull p) :
    ∀ r ∈ p.returns, ∃ began ∈ r.completed, r.entered < began := by
  have answered : p.Answered := by
    apply reached.invariant
    · rintro _ ⟨t, rfl⟩
      exact Requests.Answered.initial t
    · rintro p p' answered ⟨command, finds, performed⟩
      exact answered.step finds performed
  exact answered.returns

namespace Requests

instance (p : Requests) : DecidablePred p.FindsFull
  | (t, .protocol (.gc true)) => inferInstanceAs (Decidable (p.world.nesting t = 0 →
      p.world.gcThread ≠ 0 → p.full = true ∧ ∀ call ∈ p.calls t, call.entered < p.began))
  | (_, .protocol (.gc false)) => .isTrue trivial
  | (_, .enter _) => .isTrue trivial
  | (_, .protocol .gcPtr) => .isTrue trivial
  | (_, .protocol .readMoreThanOne) => .isTrue trivial
  | (_, .protocol .safepoint) => .isTrue trivial
  | (_, .protocol (.remove _)) => .isTrue trivial
  | (_, .protocol .wake) => .isTrue trivial
  | (_, .protocol .collectorWake) => .isTrue trivial
  | (_, .protocol .prepare) => .isTrue trivial
  | (_, .protocol .start) => .isTrue trivial
  | (_, .protocol (.create _)) => .isTrue trivial
  | (_, .protocol (.join _)) => .isTrue trivial
  | (_, .protocol .joined) => .isTrue trivial
  | (_, .protocol .free) => .isTrue trivial
  | (_, .protocol .enterNew) => .isTrue trivial
  | (_, .protocol .leaveNew) => .isTrue trivial
  | (_, .protocol .unwind) => .isTrue trivial
  | (_, .protocol .finish) => .isTrue trivial

theorem step_perform {allowed : Requests → Nat × RequestAction → Prop} (p : Requests)
    (command : Nat × RequestAction) (p' : Requests) (permitted : allowed p command)
    (performed : p.perform memory command = .ok p') : Step memory allowed p p' :=
  ⟨command, permitted, performed⟩

/-- The main thread has created thread 1, and enters `gc`. -/
def twoThreads (full : Bool) : List (Nat × RequestAction) :=
  [(0, .protocol (.create 1)), (1, .protocol .prepare), (1, .protocol .start), (0, .enter full)]

/-- Thread 1 finds the main thread at work, and both return. -/
def meet : List (Nat × RequestAction) :=
  [(1, .protocol (.gc true)), (0, .protocol .collectorWake), (1, .protocol .wake)]

end Requests

/-- Thread 1 enters `gc(true)` before the main thread begins to collect. -/
theorem runs_answered_meet : ∃ p, runAll (Requests.perform ascending)
      (Requests.twoThreads true ++ (1, .enter true) :: (0, .protocol (.gc true)) :: Requests.meet)
      (Requests.initial 0) = .ok p ∧ p.returns.length = 2 ∧
    ∀ r ∈ p.returns, ∃ began ∈ r.completed, r.entered < began := by
  obtain ⟨p, returned, count⟩ : ∃ p, runAll (Requests.perform ascending)
      (Requests.twoThreads true ++ (1, .enter true) :: (0, .protocol (.gc true)) :: Requests.meet)
      (Requests.initial 0) = .ok p ∧ p.returns.length = 2 :=
    Yields.total (by decide +kernel)
  have reached : Requests.Runs ascending Requests.FindsFull p := by
    apply Reachable.runAll (.start ⟨0, rfl⟩) Requests.step_perform _ returned
    decide +kernel
  exact ⟨p, returned, count, runs_answered reached⟩

/-- Thread 1 enters `gc(true)` while the main thread collects.  If the collection is a partial one,
nothing has been marked and swept when thread 1 returns; if it is a full one, it began before. -/
theorem runs_answered_late :
    (∃ p, Requests.Runs ascending (fun _ _ => True) p ∧ ∃ r ∈ p.returns, r.completed = []) ∧
    ∃ p, Requests.Runs ascending (fun _ _ => True) p ∧
      ∃ r ∈ p.returns, r.completed ≠ [] ∧ ¬ ∃ began ∈ r.completed, r.entered < began := by
  have reaches (full : Bool) {p : Requests} (returned : runAll (Requests.perform ascending)
      (Requests.twoThreads full ++ (0, .protocol (.gc full)) :: (1, .enter true) :: Requests.meet)
      (Requests.initial 0) = .ok p) : Requests.Runs ascending (fun _ _ => True) p := by
    apply Reachable.runAll (.start ⟨0, rfl⟩) Requests.step_perform _ returned
    cases full <;> decide +kernel
  constructor
  · obtain ⟨p, returned, nothing⟩ : ∃ p, runAll (Requests.perform ascending)
        (Requests.twoThreads false ++ (0, .protocol (.gc false)) :: (1, .enter true) ::
          Requests.meet) (Requests.initial 0) = .ok p ∧ ∃ r ∈ p.returns, r.completed = [] :=
      Yields.total (by decide +kernel)
    exact ⟨p, reaches false returned, nothing⟩
  · obtain ⟨p, returned, earlier⟩ : ∃ p, runAll (Requests.perform ascending)
        (Requests.twoThreads true ++ (0, .protocol (.gc true)) :: (1, .enter true) ::
          Requests.meet) (Requests.initial 0) = .ok p ∧ ∃ r ∈ p.returns,
          r.completed ≠ [] ∧ ¬ ∃ began ∈ r.completed, r.entered < began :=
      Yields.total (by decide +kernel)
    exact ⟨p, reaches true returned, earlier⟩

end PreciseGc.Threads

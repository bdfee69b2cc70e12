import PreciseGc.Foundation.Program
import PreciseGc.Threads.ThreadList

/-!
# The pool of handlers

`new_thread_handler` takes a handler from the free list, `thread_create` passes it to
`start_routine`, which links it, and `remove_thread` puts it back.  The protocol takes
`thread_create` as one step.  Here it ends with `pthread_create`, which may fail, and
the handler that a thread was given stays known for as long as the thread runs:
`start_routine` reads it when the routine returns.
-/

namespace PreciseGc.Threads

open Foundation Function

variable {memory : HandlerMemory} {w w' : World} {threads free threads' free' : List Nat}
  {t u g h : Nat} {action : Action} {given : Nat → Option Nat}

namespace Place

/-- The thread is between the call of its routine and the end of `start_routine`'s use of the
handler. -/
def inRoutine : Place → Bool
  | running => true
  | atSafepoint => true
  | waiting .start _ _ => false
  | waiting _ _ _ => true
  | collecting _ _ => true
  | joining _ _ => true
  | freeing _ (.cancel _) => true
  | _ => false

/-- The handler whose flag the collector waits for. -/
def awaited : Place → Option Nat
  | collecting c _ => some c.cursor
  | _ => none

variable {place : Place}

@[simp]
theorem signalled_inRoutine : place.signalled.inRoutine = place.inRoutine := by
  cases place <;> rfl

@[simp]
theorem finishedGc_inRoutine : place.finishedGc.inRoutine = place.inRoutine := by
  rcases place with _ | _ | _ | _ | _ | ⟨_ | _ | _ | _, _, _⟩ <;> rfl

theorem started_of_stoppedAt (isStopped : place.stoppedAt = some h) : place.started = true := by
  rcases place with _ | _ | _ | _ | _ | ⟨_ | _ | _ | _, _, _⟩ <;> simp_all [stoppedAt, started]

/-- The two places are at the same stage of a thread's life. -/
structure Alike (place place' : Place) : Prop where
  pending : place'.pending = place.pending
  started : place'.started = place.started
  inRoutine : place'.inRoutine = place.inRoutine
  stoppedAt : place'.stoppedAt = place.stoppedAt
  absent : place' = .absent ↔ place = .absent

namespace Alike

theorem refl (place : Place) : place.Alike place := ⟨rfl, rfl, rfl, rfl, Iff.rfl⟩

theorem signalled {place' : Place} (alike : place.Alike place') : place.Alike place'.signalled := by
  constructor
  case absent => exact signalled_eq_absent.trans alike.absent
  all_goals simp [alike.pending, alike.started, alike.inRoutine, alike.stoppedAt]

theorem finishedGc {place' : Place} (alike : place.Alike place') : place.Alike
    place'.finishedGc := by
  constructor
  case absent => exact finishedGc_eq_absent.trans alike.absent
  all_goals simp [alike.pending, alike.started, alike.inRoutine, alike.stoppedAt]

end Alike

end Place

/-- The handlers that `thread_create` passed to `start_routine`, of which those of the threads that
have not begun are seen in their places. -/
def World.passed (w : World) (given : Nat → Option Nat) (t : Nat) : Option Nat :=
  match w.place t with
  | .created h => some h
  | _ => given t

structure Pool where
  world : World
  /-- The argument of `start_routine` of a thread. -/
  given : Nat → Option Nat
  /-- The thread that a thread inside `thread_create` is about to create. -/
  creating : Nat → Option Nat
  /-- The threads for which `pthread_create` has succeeded. -/
  created : Nat → Bool

/-- The steps of a thread. -/
inductive PoolAction where
  /-- A step of the protocol, which for `thread_create` ends before `pthread_create`. -/
  | protocol (action : Action)
  /-- `pthread_create` succeeds. -/
  | pthreadCreated
  /-- `pthread_create` returns an error. -/
  | pthreadCreateFails
deriving DecidableEq, Repr

namespace Pool

/-- A thread inside `thread_create` goes on there, and a thread begins after its creation. -/
def Enabled (p : Pool) (t : Nat) (action : Action) : Prop :=
  p.creating t = none ∧ (action = .prepare → p.created t = true)

instance (p : Pool) (t : Nat) (action : Action) : Decidable (p.Enabled t action) :=
  inferInstanceAs (Decidable (_ ∧ _))

/-- The pool after a step of the protocol. -/
def next (p : Pool) (t : Nat) (action : Action) (w : World) : Pool where
  world := w
  given := w.passed p.given
  creating :=
    match action with
    | .create u => update p.creating t (some u)
    | _ => p.creating
  created := p.created

/-- One step of a thread; the error `none` when the action is not enabled. -/
def perform (memory : HandlerMemory) (command : Nat × PoolAction) (p : Pool) :
    Except (Option Fault) Pool :=
  match command with
  | (t, .protocol action) =>
      if p.Enabled t action then
        match step memory p.world t action with
        | none => .error none
        | some (.error fault) => .error (some fault)
        | some (.ok w) => .ok (p.next t action w)
      else .error none
  | (t, .pthreadCreated) =>
      match p.creating t with
      | none => .error none
      | some u =>
          .ok { p with creating := update p.creating t none, created := update p.created u true }
  | (t, .pthreadCreateFails) =>
      match p.creating t with
      | none => .error none
      | some u =>
          .ok { p with world := p.world.setPlace u .absent, creating := update p.creating t none }

/-- The program has started in the thread `t`. -/
def initial (t : Nat) : Pool where
  world := World.initial t
  given := fun _ => none
  creating := fun _ => none
  created := fun _ => false

/-- What can happen next, when all steps are `allowed` ones. -/
def Step (memory : HandlerMemory) (allowed : Pool → Nat × PoolAction → Prop) (p p' : Pool) : Prop :=
  ∃ command, allowed p command ∧ p.perform memory command = .ok p'

/-- The states that runs of allowed steps reach. -/
abbrev Runs (memory : HandlerMemory) (allowed : Pool → Nat × PoolAction → Prop) :=
  Reachable (fun p => ∃ t, p = initial t) (Step memory allowed)

/-- The thread `t` still reads or writes the handler `h`: as the one that it is linking or freeing,
as the one whose flag it set in a safepoint, as the one for which it waits as the collector, or as
the one that `start_routine` reads when the routine returns. -/
def Uses (p : Pool) (t h : Nat) : Prop :=
  (p.world.place t).pending = some h ∨ (p.world.place t).stoppedAt = some h ∨
    (p.world.place t).awaited = some h ∨
    ((p.world.place t).inRoutine = true ∧ p.given t = some h)

/-- Every handler taken into the pool is on the list of threads, on the free list, or held by one
creation or removal, and none that a thread uses is on the free list. -/
structure Conserved (p : Pool) (threads free : List Nat) : Prop where
  listed : Chain p.world.next p.world.firstThread threads
  freed : Chain p.world.next p.world.freeList free
  placed : ∀ h ∈ p.world.used, h ∈ threads ∨ h ∈ free ∨ ∃ t, (p.world.place t).pending = some h
  apart : (threads ++ free).Nodup
  held : ∀ t h, (p.world.place t).pending = some h → h ∉ threads ++ free
  heldOnce : ∀ t u h, (p.world.place t).pending = some h →
    (p.world.place u).pending = some h → t = u
  unused : ∀ h ∈ free, ∀ t, ¬ p.Uses t h

end Pool

/-- The handler whose flag the thread of `gc_thread` waits for. -/
def World.awaited (w : World) : Option Nat := (w.place (w.thread w.gcThread)).awaited

/-- The thread that is removed has no use for its handler any more.  Of the threads that can be
cancelled, only the one that runs `main` has no `start_routine`. -/
def Removal.Leaves (w : World) (t : Nat) : Removal → Prop
  | finish => True
  | exit => True
  | cancel target => target = w.main ∧ (target = t ∨ (w.place target).stoppedAt = none)

/-- The condition on a removal that takes effect: nobody has a use for the handler. -/
def Removal.Keeps (w : World) (t : Nat) (removal : Removal) : Prop :=
  removal.Leaves w t ∧ w.awaited.map w.thread ≠ some (removal.target t)

/-- The condition on the steps of the protocol: every removal that takes effect meets it. -/
def Action.Keeps (w : World) (t : Nat) : Action → Prop
  | remove removal => w.gcThread = 0 → removal.Keeps w t
  | wake =>
      match w.place t with
      | .waiting (.remove removal) _ _ => removal.Keeps w t
      | _ => True
  | _ => True

/-- The condition on the steps of a run. -/
def Pool.Keeps (p : Pool) (command : Nat × PoolAction) : Prop :=
  match command.2 with
  | .protocol action => action.Keeps p.world command.1
  | .pthreadCreated => True
  | .pthreadCreateFails => False

/-- What a step does. -/
theorem Pool.perform_ok {p p' : Pool} {command : Nat × PoolAction}
    (performed : p.perform memory command = .ok p') :
    (∃ action w', command.2 = .protocol action ∧ Effect memory p.world command.1 action w' ∧
        p' = p.next command.1 action w') ∨
      (command.2 = .pthreadCreated ∧ p'.world = p.world ∧ p'.given = p.given) ∨
      command.2 = .pthreadCreateFails := by
  rcases command with ⟨t, action | _ | _⟩
  · left
    simp only [Pool.perform] at performed
    split at performed
    next =>
      split at performed
      next => cases performed
      next => cases performed
      next w' stepped =>
        cases performed
        exact ⟨action, w', rfl, step_effect stepped, rfl⟩
    next => cases performed
  · right
    left
    simp only [Pool.perform] at performed
    split at performed
    next => cases performed
    next =>
      cases performed
      exact ⟨rfl, rfl, rfl⟩
  · exact Or.inr (Or.inr rfl)

end PreciseGc.Threads

import PreciseGc.Foundation.Transition
import Mathlib.Logic.Function.Basic
import Mathlib.Tactic.Common
import Mathlib.Tactic.Simps.Basic

/-!
# The safepoint protocol

Every thread that uses the collector has a `thread_handler` on the list at
`first_thread`.  A collection waits until the `flags` of each handler on the list
say that its thread stands in a safepoint, and the threads in safepoints wait for
the end of the collection.

A step is what one thread does between acquiring and releasing `gc_mutex`.  A wait
on a condition variable releases the mutex and ends the step.  The wait ends only
after a notification: the spurious wake-ups that `pthread_cond_wait` allows are
left out.  A thread cancelled inside such a wait would keep `gc_mutex` for good,
and no further critical section would run, so there is no step for it.
-/

namespace PreciseGc.Threads

open Function

/-- The fields of a `thread_handler` that the protocol uses. -/
structure Handler where
  thread : Nat
  /-- The bit of `flags` that the safepoint macros test, set and clear. -/
  inSafepoint : Bool
  next : Nat
deriving DecidableEq, Repr

/-- A handler that the collector has scanned. -/
structure Scan where
  handler : Nat
  thread : Nat
  /-- The `nesting_level` of the thread when it was scanned. -/
  nesting : Nat
deriving DecidableEq, Repr

/-- The local state of a thread inside `mark_and_sweep` or `clean_deref_roots`. -/
structure Collection where
  handler : Nat
  full : Bool
  /-- The variable of the loop over the handlers. -/
  cursor : Nat
  scanned : List Scan
deriving DecidableEq, Repr

/-- What `mark_and_sweep` finds when it calls `sweep`. -/
structure Sweep where
  scanned : List Scan
  handlers : Nat → Handler
  firstThread : Nat
  nesting : Nat → Nat

/-- The callers of `remove_thread`: the end of `start_routine`, `thread_exit` and
`thread_cancel`. -/
inductive Removal where
  | finish
  | exit
  | cancel (target : Nat)
deriving DecidableEq, Repr

/-- The argument of `remove_thread`. -/
def Removal.target (t : Nat) : Removal → Nat
  | finish => t
  | exit => t
  | cancel target => target

/-- The places that wait for `gc_is_finished`. -/
inductive Site where
  | gc
  | safepoint
  | remove (removal : Removal)
  | start
deriving DecidableEq, Repr

/-- Where a thread stands between two steps. -/
inductive Place where
  | absent
  /-- `pthread_create` has been called. -/
  | created (handler : Nat)
  /-- `start_routine` has filled its handler in. -/
  | prepared (handler : Nat)
  | running
  /-- `safepoint` has read `more_than_one`. -/
  | atSafepoint
  /-- Blocked on `gc_is_finished`, or notified and about to take the mutex. -/
  | waiting (site : Site) (handler : Nat) (notified : Bool)
  /-- Blocked on `safepoint_reached`, or notified and about to take the mutex. -/
  | collecting (collection : Collection) (notified : Bool)
  /-- Inside the `pthread_join` of `thread_join`. -/
  | joining (handler target : Nat)
  /-- `remove_thread` has unlinked a handler and not freed it yet. -/
  | freeing (handler : Nat) (removal : Removal)
  /-- The destructors of the automatic objects run. -/
  | unwinding
  | finished
deriving DecidableEq, Repr

namespace Place

/-- `pthread_cond_signal(&safepoint_reached)`, for one thread.  At most one thread, the
collector, is ever blocked on this condition. -/
def signalled : Place → Place
  | collecting collection _ => collecting collection true
  | place => place

/-- `pthread_cond_broadcast(&gc_is_finished)`, for one thread. -/
def finishedGc : Place → Place
  | waiting site handler _ => waiting site handler true
  | place => place

end Place

structure World where
  /-- The thread that runs `main`; it does not end by a return of `start_routine`. -/
  main : Nat
  handlers : Nat → Handler
  firstThread : Nat
  gcThread : Nat
  moreThanOne : Bool
  freeList : Nat
  /-- The handlers taken from the system so far. -/
  used : List Nat
  /-- Names of threads are not reused. -/
  place : Nat → Place
  nesting : Nat → Nat
  /-- The threads that `pthread_cancel` was called on. -/
  cancelled : Nat → Bool
  /-- The threads whose handlers `remove_thread` has unlinked. -/
  removed : Nat → Bool
  /-- The calls of `sweep` so far. -/
  sweeps : List Sweep

/-- The errors of a walk over handlers. -/
inductive Fault where
  /-- A field of the null handler is accessed. -/
  | nullHandler
  /-- A search for a thread does not end. -/
  | endlessSearch
  /-- The loop of the collector does not end. -/
  | endlessScan
deriving DecidableEq, Repr

/-- The number of handlers in the static array, and later in each mapped page. -/
def batchSize (used : List Nat) : Nat :=
  if used = [] then 32 else 4096 / 72

/-- Where the system places handlers: the static array first, then mapped pages. -/
structure HandlerMemory where
  base : List Nat → Nat
  fresh : ∀ used i, i < batchSize used → base used + 72 * i ∉ used
  nonnull : ∀ used, base used ≠ 0

namespace World

@[simps]
def setPlace (w : World) (t : Nat) (place : Place) : World :=
  { w with place := update w.place t place }

@[simps]
def setHandler (w : World) (h : Nat) (handler : Handler) : World :=
  { w with handlers := update w.handlers h handler }

/-- `enter_safepoint(h)`. -/
@[simps!]
def enterSafepoint (w : World) (h : Nat) : World :=
  w.setHandler h { w.handlers h with inSafepoint := true }

/-- `exit_safepoint(h)`. -/
@[simps!]
def exitSafepoint (w : World) (h : Nat) : World :=
  w.setHandler h { w.handlers h with inSafepoint := false }

/-- `pthread_cond_signal(&safepoint_reached)`. -/
@[simps]
def signal (w : World) : World :=
  { w with place := fun t => (w.place t).signalled }

/-- `pthread_cond_broadcast(&gc_is_finished)`. -/
@[simps]
def broadcast (w : World) : World :=
  { w with place := fun t => (w.place t).finishedGc }

/-- `curr->next = free_list; free_list = curr`. -/
@[simps]
def pushFree (w : World) (h : Nat) : World :=
  { w with
    handlers := update w.handlers h { w.handlers h with next := w.freeList }
    freeList := h }

/-- The loop of `new_thread_handler` over a new array of handlers. -/
def refill (w : World) (base : Nat) : Nat → World
  | 0 => w
  | n + 1 =>
      let w := w.refill base n
      { w.pushFree (base + 72 * n) with used := (base + 72 * n) :: w.used }

def newThreadHandler (memory : HandlerMemory) (w : World) : Nat × World :=
  let w := if w.freeList = 0 then w.refill (memory.base w.used) (batchSize w.used) else w
  (w.freeList, { w with freeList := (w.handlers w.freeList).next })

/-- `create_first_handler` of thread `t`. -/
def createFirstHandler (memory : HandlerMemory) (w : World) (t : Nat) : World :=
  let new := w.newThreadHandler memory
  { new.2.setHandler new.1 ⟨t, false, 0⟩ with firstThread := new.1 }

/-- `while (!pthread_equal(curr->thread, thread))`, with the handler before `curr`. -/
def search (w : World) (thread : Nat) : Nat → Nat → Nat → Except Fault (Nat × Nat)
  | 0, _, _ => .error .endlessSearch
  | fuel + 1, prev, curr =>
      if curr = 0 then .error .nullHandler
      else if (w.handlers curr).thread = thread then .ok (prev, curr)
      else w.search thread fuel curr (w.handlers curr).next

/-- The search from `first_thread`.  No list is longer than the number of handlers. -/
def find (w : World) (thread : Nat) : Except Fault (Nat × Nat) :=
  w.search thread (w.used.length + 1) 0 w.firstThread

/-- `get_thread_handler()` of thread `t`. -/
def getThreadHandler (memory : HandlerMemory) (w : World) (t : Nat) :
    Except Fault (Nat × World) := do
  let w := if w.firstThread = 0 then w.createFirstHandler memory t else w
  let (_, h) ← w.find t
  .ok (h, w)

/-- The critical section of the constructors and the destructor of `gc_ptr`. -/
def gcPtr (memory : HandlerMemory) (w : World) (t : Nat) : Except Fault World := do
  let (_, w) ← w.getThreadHandler memory t
  .ok w

/-- The loop of `mark_and_sweep` and `clean_deref_roots` from `handler = h`, up to the
first handler that is not in a safepoint. -/
def scan (w : World) : Nat → Nat → List Scan → Except Fault (Nat × List Scan)
  | 0, _, _ => .error .endlessScan
  | fuel + 1, h, scanned =>
      if h = 0 then .ok (0, scanned)
      else if (w.handlers h).inSafepoint then
        w.scan fuel (w.handlers h).next
          (scanned ++ [⟨h, (w.handlers h).thread, w.nesting (w.handlers h).thread⟩])
      else .ok (h, scanned)

/-- The end of `mark_and_sweep` or `clean_deref_roots`, and of `gc`. -/
def endCollection (w : World) (t : Nat) (c : Collection) : World :=
  let swept : World := { w with
    sweeps := if c.full then w.sweeps ++ [⟨c.scanned, w.handlers, w.firstThread, w.nesting⟩]
      else w.sweeps
    gcThread := 0 }
  (swept.exitSafepoint c.handler).broadcast.setPlace t .running

/-- The rest of `gc` of the collector `t`, from the loop on. -/
def collect (w : World) (t : Nat) (c : Collection) : Except Fault World := do
  let (cursor, scanned) ← w.scan (w.used.length + 1) c.cursor c.scanned
  let c := { c with cursor := cursor, scanned := scanned }
  if cursor = 0 then .ok (w.endCollection t c)
  else .ok (w.setPlace t (.collecting c false))

/-- `gc(full)` of thread `t`. -/
def gc (memory : HandlerMemory) (w : World) (t : Nat) (full : Bool) : Except Fault World := do
  let (h, w) ← w.getThreadHandler memory t
  if w.nesting t ≠ 0 then .ok w
  else
    let w := w.enterSafepoint h
    if w.gcThread = 0 then World.collect { w with gcThread := h } t ⟨h, full, w.firstThread, []⟩
    else .ok (w.signal.setPlace t (.waiting .gc h false))

/-- `first_thread = curr->next`, or `prev->next = curr->next`. -/
def bypass (w : World) (prev curr : Nat) : World :=
  if prev = 0 then { w with firstThread := (w.handlers curr).next }
  else w.setHandler prev { w.handlers prev with next := (w.handlers curr).next }

/-- The end of the critical section of `remove_thread`. -/
def endRemoval (w : World) (t curr : Nat) (removal : Removal) : World :=
  { w with
    moreThanOne := if (w.handlers w.firstThread).next = 0 then false else w.moreThanOne
    removed := update w.removed (removal.target t) true
    place := update w.place t (.freeing curr removal) }

/-- The rest of `remove_thread`, from the search on. -/
def unlink (w : World) (t : Nat) (removal : Removal) : Except Fault World := do
  let (prev, curr) ← w.find (removal.target t)
  let w := w.bypass prev curr
  -- the test of `first_thread->next`
  if w.firstThread = 0 then .error .nullHandler else .ok (w.endRemoval t curr removal)

/-- The rest of `start_routine` up to the call of `routine`. -/
def link (w : World) (t h : Nat) : World :=
  { w.setHandler h { w.handlers h with next := w.firstThread } with
    firstThread := h, moreThanOne := true }.setPlace t .running

/-- What follows the wait for `gc_is_finished`, and `exit_safepoint`. -/
def resume (w : World) (t h : Nat) : Site → Except Fault World
  | .gc => .ok ((w.exitSafepoint h).setPlace t .running)
  | .safepoint => .ok ((w.exitSafepoint h).setPlace t .running)
  | .remove removal => (w.exitSafepoint h).unlink t removal
  | .start => .ok (w.link t h)

/-- `without_gc_before` in `safepoint` and in `remove_thread`, with what follows it. -/
def withoutGcBefore (memory : HandlerMemory) (w : World) (t : Nat) (site : Site) :
    Except Fault World := do
  let (h, w) ← w.getThreadHandler memory t
  let w := w.enterSafepoint h
  if w.gcThread ≠ 0 then .ok (w.signal.setPlace t (.waiting site h false))
  else w.resume t h site

/-- The first half of `thread_join(target)`. -/
def threadJoin (memory : HandlerMemory) (w : World) (t target : Nat) : Except Fault World := do
  let (h, w) ← w.getThreadHandler memory t
  let w := w.enterSafepoint h
  let w := if w.gcThread ≠ 0 then w.signal else w
  .ok (w.setPlace t (.joining h target))

/-- `thread_create` of thread `t`, which creates the thread `u`. -/
def threadCreate (memory : HandlerMemory) (w : World) (t u : Nat) : World :=
  let w := if w.firstThread = 0 then w.createFirstHandler memory t else w
  let new := w.newThreadHandler memory
  new.2.setPlace u (.created new.1)

/-- `start_routine` up to the wait. -/
def startRoutine (w : World) (t h : Nat) : Except Fault World :=
  if w.gcThread ≠ 0 then .ok (w.setPlace t (.waiting .start h false)) else w.resume t h .start

/-- The end of `remove_thread`, and what its callers do after it. -/
def free (w : World) (t h : Nat) : Removal → World
  | .finish => (w.pushFree h).setPlace t .finished
  | .exit => (w.pushFree h).setPlace t .unwinding
  | .cancel target =>
      { w.pushFree h with cancelled := update w.cancelled target true }.setPlace t .running

end World

/-- The steps of a thread. -/
inductive Action where
  /-- A call of `gc`. -/
  | gc (full : Bool)
  /-- A constructor or destructor of a `gc_ptr`, or the head of `gc_new`. -/
  | gcPtr
  /-- `safepoint` reads `more_than_one` without the mutex. -/
  | readMoreThanOne
  /-- The rest of `safepoint`, up to the wait. -/
  | safepoint
  /-- The call of `remove_thread`. -/
  | remove (removal : Removal)
  /-- The return from the wait for `gc_is_finished`. -/
  | wake
  /-- The return from the wait for `safepoint_reached`. -/
  | collectorWake
  /-- `start_routine` fills its handler in. -/
  | prepare
  /-- `start_routine` takes the mutex. -/
  | start
  | create (u : Nat)
  | join (u : Nat)
  /-- The return from `pthread_join`. -/
  | joined
  /-- `remove_thread` puts the unlinked handler on the free list. -/
  | free
  /-- `gc_new` allocates and increments `nesting_level`. -/
  | enterNew
  /-- `gc_new` writes the header and decrements `nesting_level`. -/
  | leaveNew
  /-- A cancellation takes effect. -/
  | unwind
  /-- The last destructor has run. -/
  | finish
deriving DecidableEq, Repr

open World in
/-- One step of thread `t`; `none` when the action is not enabled. -/
def step (memory : HandlerMemory) (w : World) (t : Nat) (action : Action) :
    Option (Except Fault World) :=
  match action, w.place t with
  | .gc full, .running => some (w.gc memory t full)
  | .gcPtr, .running => some (w.gcPtr memory t)
  | .gcPtr, .unwinding => some (w.gcPtr memory t)
  | .readMoreThanOne, .running =>
      some (.ok (if w.moreThanOne then w.setPlace t .atSafepoint else w))
  | .safepoint, .atSafepoint => some (w.withoutGcBefore memory t .safepoint)
  | .remove removal, .running =>
      if removal = .finish ∧ t = w.main then none
      else some (w.withoutGcBefore memory t (.remove removal))
  | .wake, .waiting site h true => some (w.resume t h site)
  | .collectorWake, .collecting c true => some (w.collect t c)
  | .prepare, .created h =>
      some (.ok ((w.setHandler h { w.handlers h with thread := t, inSafepoint := false }).setPlace
        t (.prepared h)))
  | .start, .prepared h => some (w.startRoutine t h)
  | .create u, .running =>
      if w.place u = .absent then some (.ok (w.threadCreate memory t u)) else none
  | .join u, .running => some (w.threadJoin memory t u)
  | .joined, .joining h u =>
      if w.place u = .finished then some (.ok ((w.exitSafepoint h).setPlace t .running)) else none
  | .free, .freeing h removal => some (.ok (w.free t h removal))
  | .enterNew, .running =>
      some (.ok { w with nesting := update w.nesting t (w.nesting t + 1) })
  | .leaveNew, .running =>
      if w.nesting t ≠ 0 then
        some (.ok { w with nesting := update w.nesting t (w.nesting t - 1) })
      else none
  | .unwind, .running =>
      if w.cancelled t then some (.ok (w.setPlace t .unwinding)) else none
  | .unwind, .joining _ _ =>
      if w.cancelled t then some (.ok (w.setPlace t .unwinding)) else none
  | .finish, .unwinding => some (.ok (w.setPlace t .finished))
  | _, _ => none

/-- The program has started: there is one thread, and no handler. -/
def World.initial (t : Nat) : World where
  main := t
  handlers := fun _ => ⟨0, false, 0⟩
  firstThread := 0
  gcThread := 0
  moreThanOne := false
  freeList := 0
  used := []
  place := update (fun _ => .absent) t .running
  nesting := fun _ => 0
  cancelled := fun _ => false
  removed := fun _ => false
  sweeps := []

/-- The initial states. -/
def Initial (state : Except Fault World) : Prop :=
  ∃ t, state = .ok (World.initial t)

/-- What can happen next, when all steps are `allowed` ones. -/
inductive Steps (memory : HandlerMemory) (allowed : World → Nat → Action → Prop) :
    Except Fault World → Except Fault World → Prop where
  | step {w : World} {t : Nat} {action : Action} {result : Except Fault World}
      (permitted : allowed w t action) (stepped : step memory w t action = some result) :
      Steps memory allowed (.ok w) result

/-- The states that runs of allowed steps reach. -/
abbrev Runs (memory : HandlerMemory) (allowed : World → Nat → Action → Prop) :=
  Foundation.Reachable Initial (Steps memory allowed)

/-- Every array of handlers lies above the earlier ones. -/
def ascending : HandlerMemory where
  base used := used.max?.getD 0 + 8
  fresh used i _ mem := by
    have bound := List.le_max?_getD_of_mem mem (k := 0)
    omega
  nonnull _ := Nat.succ_ne_zero _

section Replay

variable (memory : HandlerMemory) (allowed : World → Nat → Action → Prop)
  [∀ w t action, Decidable (allowed w t action)]

/-- Executes a list of allowed steps. -/
def run : List (Nat × Action) → World → Option (Except Fault World)
  | [], w => some (.ok w)
  | (t, action) :: rest, w =>
      if allowed w t action then
        match step memory w t action with
        | none => none
        | some (.error fault) => if rest = [] then some (.error fault) else none
        | some (.ok w) => run rest w
      else none

variable {memory allowed}

theorem run_reaches {w : World} {actions : List (Nat × Action)} {result : Except Fault World}
    (reached : Runs memory allowed (.ok w)) (ran : run memory allowed actions w = some result) :
    Runs memory allowed result := by
  induction actions generalizing w with
  | nil =>
      cases ran
      exact reached
  | cons entry rest ih =>
      rcases entry with ⟨t, action⟩
      simp only [run] at ran
      split at ran
      next permitted =>
        split at ran
        next => cases ran
        next fault stepped =>
          split at ran
          next =>
            cases ran
            exact reached.next (Steps.step permitted stepped)
          next => cases ran
        next w' stepped => exact ih (reached.next (Steps.step permitted stepped)) ran
      next => cases ran

/-- What a list of steps of the main thread `0` and the threads that it creates leads to. -/
theorem exists_of_run (memory : HandlerMemory) (allowed : World → Nat → Action → Prop)
    [∀ w t action, Decidable (allowed w t action)] {α : Type} (actions : List (Nat × Action))
    (observe : World → α) (value : α)
    (ran : ((run memory allowed actions (World.initial 0)).bind Except.toOption).map observe =
      some value) : ∃ w, Runs memory allowed (.ok w) ∧ observe w = value := by
  rcases Option.map_eq_some_iff.mp ran with ⟨w, ended, observed⟩
  rcases Option.bind_eq_some_iff.mp ended with ⟨result, ran, isOk⟩
  cases result with
  | error fault => cases isOk
  | ok v =>
      cases isOk
      exact ⟨w, run_reaches (Foundation.Reachable.start ⟨0, rfl⟩) ran, observed⟩

/-- The error that a list of steps ends in. -/
theorem fault_of_run (memory : HandlerMemory) (allowed : World → Nat → Action → Prop)
    [∀ w t action, Decidable (allowed w t action)] (actions : List (Nat × Action)) (fault : Fault)
    (ran : (run memory allowed actions (World.initial 0)).bind
      (fun result => match result with
        | .error fault => some fault
        | .ok _ => none) = some fault) : Runs memory allowed (.error fault) := by
  rcases Option.bind_eq_some_iff.mp ran with ⟨result, ran, isError⟩
  cases result with
  | error found =>
      cases isError
      exact run_reaches (Foundation.Reachable.start ⟨0, rfl⟩) ran
  | ok w => cases isError

end Replay

end PreciseGc.Threads

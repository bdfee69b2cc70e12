import PreciseGc.Threads.Steps

/-!
# No wake-up is lost

A thread that sets its flag while a collection runs signals the collector in the
same critical section, and the collector clears `gc_thread` and wakes the waiting
threads in the same critical section.
-/

namespace PreciseGc.Threads

open Foundation Function

variable {memory : HandlerMemory} {w w' : World} {threads free : List Nat} {t u h : Nat}

namespace Place

/-- Neither collecting nor blocked on `gc_is_finished`. -/
def Idle : Place → Prop
  | waiting _ _ notified => notified = true
  | collecting _ _ => False
  | _ => True

@[simp]
theorem signalled_eq_waiting {place : Place} {site : Site} {notified : Bool} :
    place.signalled = waiting site h notified ↔ place = waiting site h notified := by
  cases place <;> simp [signalled]

theorem signalled_eq_collecting {place : Place} {c : Collection} {notified : Bool}
    (same : place.signalled = collecting c notified) :
    notified = true ∧ ∃ before, place = collecting c before := by
  cases place <;> simp_all [signalled]

theorem finishedGc_eq_waiting {place : Place} {site : Site} {notified : Bool}
    (same : place.finishedGc = waiting site h notified) : notified = true := by
  cases place <;> simp_all [finishedGc]

@[simp]
theorem finishedGc_eq_collecting {place : Place} {c : Collection} {notified : Bool} :
    place.finishedGc = collecting c notified ↔ place = collecting c notified := by
  cases place <;> simp [finishedGc]

end Place

/-- What the two conditions stand for while threads are blocked on them. -/
structure Signals (w : World) : Prop where
  collecting : ∀ t c n, w.place t = .collecting c n → w.gcThread ≠ 0
  unique : ∀ t u c d n m, w.place t = .collecting c n → w.place u = .collecting d m → t = u
  unreached : ∀ t c, w.place t = .collecting c false →
    (w.handlers c.cursor).inSafepoint = false
  unfinished : ∀ t site h, w.place t = .waiting site h false → w.gcThread ≠ 0

namespace Signals

/-- Nothing new is waited for, and no flag is set. -/
theorem transport (signals : Signals w) (gcThread : w'.gcThread = w.gcThread)
    (flags : ∀ g, (w'.handlers g).inSafepoint = true → (w.handlers g).inSafepoint = true)
    (places : ∀ u, w'.place u = w.place u ∨ (w'.place u).Idle) : Signals w' := by
  have collecting : ∀ u c n, w'.place u = .collecting c n → w.place u = .collecting c n := by
    intro u c n place
    rcases places u with same | idle
    · exact same ▸ place
    · rw [place] at idle
      exact idle.elim
  constructor
  case collecting =>
    intro u c n place
    rw [gcThread]
    exact signals.collecting u c n (collecting u c n place)
  case unique =>
    intro u v c d n m left right
    exact signals.unique u v c d n m (collecting u c n left) (collecting v d m right)
  case unreached =>
    intro u c place
    have before := signals.unreached u c (collecting u c false place)
    by_contra isSet
    have isSetBefore := flags c.cursor (by simpa using isSet)
    rw [before] at isSetBefore
    cases isSetBefore
  case unfinished =>
    intro u site g place
    rw [gcThread]
    rcases places u with same | idle
    · exact signals.unfinished u site g (same ▸ place)
    · rw [place] at idle
      cases idle

theorem enrolled (signals : Signals w) (enrolled : w.Enrolled w') : Signals w' := by
  rcases enrolled with ⟨_, _, _, _, rfl, flags⟩
  exact signals.transport rfl flags fun _ => Or.inl rfl

/-- A flag is set while no collection runs. -/
theorem enterIdle (signals : Signals w) (idle : w.gcThread = 0) :
    Signals (w.enterSafepoint h) := by
  have none : ∀ u c n, (w.enterSafepoint h).place u ≠ .collecting c n :=
    fun u c n place => signals.collecting u c n place idle
  exact {
    collecting := fun u c n place => absurd place (none u c n)
    unique := fun u _ c _ n _ place => absurd place (none u c n)
    unreached := fun u c place => absurd place (none u c false)
    unfinished := signals.unfinished }

/-- A flag is set and the collector is told. -/
theorem enterSignal (signals : Signals w) : Signals (w.enterSafepoint h).signal := by
  constructor
  case collecting =>
    intro u c n place
    rcases Place.signalled_eq_collecting place with ⟨-, before, place⟩
    exact signals.collecting u c before place
  case unique =>
    intro u v c d n m left right
    rcases Place.signalled_eq_collecting left with ⟨-, _, left⟩
    rcases Place.signalled_eq_collecting right with ⟨-, _, right⟩
    exact signals.unique u v c d _ _ left right
  case unreached =>
    intro u c place
    cases (Place.signalled_eq_collecting place).1
  case unfinished =>
    intro u site g place
    exact signals.unfinished u site g (Place.signalled_eq_waiting.mp place)

theorem setPlace {place : Place} (signals : Signals w)
    (idle : place.Idle ∨ ∃ site g, place = .waiting site g false ∧ w.gcThread ≠ 0) :
    Signals (w.setPlace t place) := by
  rcases idle with idle | ⟨site, g, rfl, busy⟩
  · refine signals.transport rfl (fun _ isSet => isSet) fun u => ?_
    by_cases same : u = t
    · right
      simpa [same] using idle
    · left
      simp [same]
  · have collecting : ∀ u c n, (w.setPlace t (.waiting site g false)).place u = .collecting c n →
        w.place u = .collecting c n := by
      intro u c n place
      by_cases same : u = t
      · simp [same] at place
      · simpa [same] using place
    exact {
      collecting := fun u c n place => signals.collecting u c n (collecting u c n place)
      unique := fun u v c d n m left right =>
        signals.unique u v c d n m (collecting u c n left) (collecting v d m right)
      unreached := fun u c place => signals.unreached u c (collecting u c false place)
      unfinished := fun _ _ _ _ => busy }

end Signals

/-- The collector stops at a handler whose flag is clear. -/
theorem World.scan_blocked {fuel cursor : Nat} {scanned out : List Scan}
    (ran : w.scan fuel h scanned = .ok (cursor, out)) (blocked : cursor ≠ 0) :
    (w.handlers cursor).inSafepoint = false := by
  induction fuel generalizing h scanned with
  | zero => cases ran
  | succ fuel ih =>
      rw [World.scan] at ran
      split at ran
      next =>
        cases ran
        exact absurd rfl blocked
      next =>
        split at ran
        next => exact ih ran
        next notReached =>
          cases ran
          simpa using notReached

namespace Signals

/-- The collector goes on while no other thread collects. -/
theorem collect {c : Collection} (busy : w.gcThread ≠ 0)
    (only : ∀ u d n, w.place u = .collecting d n → u = t)
    (ran : w.collect t c = .ok w') : Signals w' := by
  rcases World.collect_ok ran with ⟨cursor, scanned, scannedTo, ⟨-, rfl⟩ | ⟨blocked, rfl⟩⟩
  · have none : ∀ u d n,
        (w.endCollection t { c with cursor, scanned }).place u ≠ .collecting d n := by
      intro u d n place
      by_cases same : u = t
      · simp [World.endCollection, same] at place
      · have before : w.place u = .collecting d n := by
          simpa [World.endCollection, same] using place
        exact same (only u d n before)
    exact {
      collecting := fun u d n place => absurd place (none u d n)
      unique := fun u _ d _ n _ place => absurd place (none u d n)
      unreached := fun u d place => absurd place (none u d false)
      unfinished := by
        intro u site g place
        by_cases same : u = t
        · simp [World.endCollection, same] at place
        · have before : (w.place u).finishedGc = .waiting site g false := by
            simpa [World.endCollection, same] using place
          cases Place.finishedGc_eq_waiting before }
  · have isOnly : ∀ u d n, (w.setPlace t (.collecting { c with cursor, scanned } false)).place u =
        .collecting d n → u = t := by
      intro u d n place
      by_contra other
      exact other (only u d n (by simpa [other] using place))
    constructor
    case collecting => exact fun _ _ _ _ => busy
    case unique => exact fun u v d e n m left right =>
      (isOnly u d n left).trans (isOnly v e m right).symm
    case unreached =>
      intro u d place
      rcases isOnly u d false place with rfl
      have same : { c with cursor, scanned } = d := by simpa using place
      have clear := World.scan_blocked scannedTo blocked
      rw [← same]
      exact clear
    case unfinished => exact fun _ _ _ _ => busy

theorem exitSafepoint (signals : Signals w) : Signals (w.exitSafepoint h) := by
  refine signals.transport rfl (fun g isSet => ?_) fun _ => Or.inl rfl
  by_cases same : g = h
  · simp [same] at isSet
  · simpa [same] using isSet

theorem unlink {removal : Removal} (signals : Signals w)
    (unlinked : w.unlink t removal = .ok w') : Signals w' := by
  rcases World.unlink_ok unlinked with ⟨prev, curr, -, -, rfl⟩
  rcases w.bypass_eq prev curr with ⟨handlers, firstThread, same, fields⟩
  rw [same]
  refine signals.transport rfl (fun g isSet => (fields g).2.1 ▸ isSet) fun u => ?_
  by_cases isHere : u = t
  · right
    simp [World.endRemoval, isHere, Place.Idle]
  · left
    simp [World.endRemoval, isHere]

theorem link (signals : Signals w) : Signals (w.link t h) := by
  refine signals.transport rfl (fun g isSet => ?_) fun u => ?_
  · by_cases same : g = h
    · subst same
      simpa [World.link] using isSet
    · simpa [World.link, same] using isSet
  · by_cases same : u = t
    · right
      simp [World.link, same, Place.Idle]
    · left
      simp [World.link, same]

theorem pushFree (signals : Signals w) : Signals (w.pushFree h) := by
  refine signals.transport rfl (fun g isSet => ?_) fun _ => Or.inl rfl
  by_cases same : g = h
  · subst same
    simpa using isSet
  · simpa [same] using isSet

theorem newThreadHandler (signals : Signals w) : Signals (w.newThreadHandler memory).2 := by
  rcases w.newThreadHandler_recycled memory with ⟨_, _, _, same, fields⟩
  rw [same]
  exact signals.transport rfl (fun g isSet => (fields g).2 ▸ isSet) fun _ => Or.inl rfl

/-- Every step keeps both conditions. -/
theorem step {action : Action} (signals : Signals w) (effect : Effect memory w t action w') :
    Signals w' := by
  have quiet : ∀ {v : World} {u : Nat} {place : Place}, Signals v → place.Idle →
      Signals (v.setPlace u place) := fun signals idle => signals.setPlace (Or.inl idle)
  have left : ∀ {v : World} {g : Nat}, Signals v → Signals (v.leave t g) :=
    fun signals => quiet signals.exitSafepoint trivial
  have looked : ∀ {h : Nat} {w₁ : World}, w.getThreadHandler memory t = .ok (h, w₁) →
      Signals w₁ := fun found => signals.enrolled (World.getThreadHandler_enrolled found)
  cases effect with
  | stay => exact signals
  | lookup _ place found => exact looked found
  | @wait w₁ h _ site waits found busy =>
      exact (looked found).enterSignal.setPlace (Or.inr ⟨site, h, rfl, busy⟩)
  | @begin w₁ w' h full place flat found idle collected =>
      have idleBefore := (looked found).collecting
      apply collect (World.getThreadHandler_nonnull found) _ collected
      intro u d n placeU
      exact absurd idle (idleBefore u d n placeU)
  | goOn place collected =>
      exact collect (signals.collecting t _ _ place)
        (fun u d n placeU => signals.unique u t d _ n _ placeU place) collected
  | pass place found idle => exact left ((looked found).enterIdle idle)
  | remove place found idle unlinked =>
      exact ((looked found).enterIdle idle).exitSafepoint.unlink unlinked
  | wake place sort => exact left signals
  | wakeRemove place unlinked => exact signals.exitSafepoint.unlink unlinked
  | wakeStart place => exact signals.link
  | read place => exact quiet signals trivial
  | @prepare h place =>
      refine Signals.setPlace (signals.transport rfl (fun g isSet => ?_) fun _ => Or.inl rfl)
        (Or.inl trivial)
      by_cases same : g = h
      · simp [same] at isSet
      · simpa [same] using isSet
  | startWait place busy => exact signals.setPlace (Or.inr ⟨_, _, rfl, busy⟩)
  | start place idle => exact signals.link
  | create place absent =>
      refine Signals.setPlace (Signals.newThreadHandler ?_) (Or.inl trivial)
      split
      next => exact signals.enrolled (w.createFirstHandler_enrolled memory t)
      next => exact signals
  | @join w₁ h u place found =>
      refine Signals.setPlace ?_ (Or.inl trivial)
      split
      next => exact (looked found).enterSignal
      next idle => exact (looked found).enterIdle (Decidable.not_not.mp idle)
  | joined place ended => exact left signals
  | @free h removal place =>
      cases removal with
      | finish => exact quiet signals.pushFree trivial
      | exit => exact quiet signals.pushFree trivial
      | cancel target =>
          refine Signals.setPlace ?_ (Or.inl trivial)
          exact signals.pushFree.transport rfl (fun _ isSet => isSet) fun _ => Or.inl rfl
  | enterNew place => exact signals.transport rfl (fun _ isSet => isSet) fun _ => Or.inl rfl
  | leaveNew place => exact signals.transport rfl (fun _ isSet => isSet) fun _ => Or.inl rfl
  | unwind place cancelled => exact quiet signals trivial
  | finish place => exact quiet signals trivial

end Signals

theorem Signals.initial (t : Nat) : Signals (World.initial t) := by
  have idle : ∀ u place, (World.initial t).place u = place → place.Idle := by
    rintro u place rfl
    by_cases same : u = t <;> simp [World.initial, same, Place.Idle]
  exact {
    collecting := fun u c n place => (idle u _ place).elim
    unique := fun u _ c _ n _ place => (idle u _ place).elim
    unreached := fun u c place => (idle u _ place).elim
    unfinished := fun u site h place => by cases idle u _ place }

/-- In every run the two conditions hold. -/
theorem runs_signals {allowed : World → Nat → Action → Prop}
    (reached : Runs memory allowed (.ok w)) : Signals w := by
  apply runs_invariant reached
  · exact Signals.initial
  · intro w t action w' signals _ effect
    exact signals.step effect

/-- A collector that is blocked has not been told of a flag because there is none, and a
thread blocked until the end of a collection has one to wait for. -/
theorem runs_wakeUps (reached : Runs memory (fun _ _ _ => True) (.ok w)) :
    (∀ t c, w.place t = .collecting c false → (w.handlers c.cursor).inSafepoint = false) ∧
      ∀ t site h, w.place t = .waiting site h false → w.gcThread ≠ 0 := by
  have signals := runs_signals reached
  exact ⟨signals.unreached, signals.unfinished⟩

/-- The main thread collects and waits for thread 2 while thread 1 waits for its end. -/
def blockedTwice : List (Nat × Action) :=
  [(0, .create 1), (0, .create 2), (1, .prepare), (1, .start), (2, .prepare), (2, .start),
    (0, .gc true), (1, .readMoreThanOne), (1, .safepoint), (0, .collectorWake)]

theorem runs_wakeUps_blockedTwice : ∃ w : World,
    (w.place 0 = .collecting ⟨2240, true, 2096, []⟩ false ∧
      (w.handlers 2096).inSafepoint = false) ∧
    w.place 1 = .waiting .safepoint 2168 false ∧ w.gcThread ≠ 0 := by
  obtain ⟨w, reached, observed⟩ := exists_of_run ascending (fun _ _ _ => True) blockedTwice
    (fun w => (w.place 0, w.place 1))
    (.collecting ⟨2240, true, 2096, []⟩ false, .waiting .safepoint 2168 false) (by decide +kernel)
  have collecting : w.place 0 = _ := congrArg Prod.fst observed
  have waiting : w.place 1 = _ := congrArg Prod.snd observed
  have wakeUps := runs_wakeUps reached
  exact ⟨w, ⟨collecting, wakeUps.1 0 _ collecting⟩, waiting, wakeUps.2 1 _ _ waiting⟩

end PreciseGc.Threads

import PreciseGc.Threads.ThreadList

/-!
# Scanned threads stay stopped

`safepoint`, `gc` and `remove_thread` test `gc_thread` before they wait but not after,
and `thread_join` clears its flag without a test.  As long as they take the mutex
again while no collection runs, a thread that has been scanned stays in its safepoint
until the collection is over.
-/

namespace PreciseGc.Threads

open Foundation Function

variable {memory : HandlerMemory} {w w' : World} {threads free threads' free' : List Nat}
  {t u g h : Nat} {action : Action}

/-- A thread that comes back from a wait in a safepoint, or from `pthread_join`, does so while
no collection runs. -/
def SafepointResumesIdle (w : World) (t : Nat) (action : Action) : Prop :=
  match action with
  | .wake => (match w.place t with
    | .waiting .start _ _ => True
    | .waiting _ _ _ => w.gcThread = 0
    | _ => True)
  | .joined => w.gcThread = 0
  | _ => True

instance : Decidable (SafepointResumesIdle w t action) := by
  delta SafepointResumesIdle
  exact match action with
  | .wake => match w.place t with
    | .waiting .gc _ _ | .waiting .safepoint _ _ | .waiting (.remove _) _ _ | .waiting .start _ _
    | .absent | .created _ | .prepared _ | .running | .atSafepoint | .collecting _ _
    | .joining _ _ | .freeing _ _ | .unwinding | .finished => inferInstance
  | .gc _ | .gcPtr | .readMoreThanOne | .safepoint | .remove _ | .collectorWake | .prepare | .start
  | .create _ | .join _ | .joined | .free | .enterNew | .leaveNew | .unwind | .finish =>
      inferInstance

/-- Outside the collector's own steps, a step during a collection keeps the flags and the owners
of the handlers on the list. -/
theorem Effect.keeps_flags (registry : Registry w threads free) (listed : g ∈ threads)
    (busy : w.gcThread ≠ 0) (permitted : SafepointResumesIdle w t action)
    (effect : Effect memory w t action w')
    (noWalk : ¬ ∃ w₀ c, Collects memory w t w₀ c ∧ w₀.collect t c = .ok w') :
    w'.thread g = w.thread g ∧
      ((w.handlers g).inSafepoint = true → (w'.handlers g).inSafepoint = true) := by
  have nonempty : threads ≠ [] := List.ne_nil_of_mem listed
  have looked : ∀ {h : Nat} {w₁ : World}, w.getThreadHandler memory t = .ok (h, w₁) → w₁ = w := by
    intro h w₁ found
    rcases World.getThreadHandler_ok found with ⟨same, -⟩
    rw [← same, if_neg (mt registry.listed.head_eq_zero_iff.mp nonempty)]
  have entered : ∀ h, ((w.enterSafepoint h).thread g = w.thread g) ∧
      ((w.handlers g).inSafepoint = true →
        ((w.enterSafepoint h).handlers g).inSafepoint = true) := by
    intro h
    refine ⟨World.enterSafepoint_thread g, fun isSet => ?_⟩
    by_cases same : g = h
    · simp [same]
    · simpa [same] using isSet
  have linked : ∀ h, (w.link t h).thread g = w.thread g ∧
      ((w.handlers g).inSafepoint = true → ((w.link t h).handlers g).inSafepoint = true) := by
    intro h
    by_cases same : g = h <;> simp [World.link, World.thread, same]
  have same : w.thread g = w.thread g ∧
      ((w.handlers g).inSafepoint = true → (w.handlers g).inSafepoint = true) := ⟨rfl, id⟩
  cases effect with
  | stay => exact same
  | lookup _ place found =>
      rcases looked found with rfl
      exact same
  | wait waits found _ =>
      rcases looked found with rfl
      exact entered _
  | begin place flat found idle collected =>
      exact absurd ⟨_, _, Collects.begin place flat found idle, collected⟩ noWalk
  | goOn place collected => exact absurd ⟨_, _, Collects.goOn place, collected⟩ noWalk
  | pass place found idle =>
      rcases looked found with rfl
      exact absurd idle busy
  | remove place found idle _ =>
      rcases looked found with rfl
      exact absurd idle busy
  | wake place sort =>
      rw [SafepointResumesIdle, place] at permitted
      rcases sort with rfl | rfl <;> exact absurd permitted busy
  | wakeRemove place _ =>
      rw [SafepointResumesIdle, place] at permitted
      exact absurd permitted busy
  | wakeStart place => exact linked _
  | read place => exact same
  | @prepare h place =>
      have other : g ≠ h := by
        rintro rfl
        exact (registry.pending t g (by rw [place]; rfl)).2.2 (List.mem_append_left _ listed)
      simp [World.thread, other]
  | startWait place _ => exact same
  | start place idle => exact absurd idle busy
  | create place absent =>
      rw [World.threadCreate, if_neg (mt registry.listed.head_eq_zero_iff.mp nonempty)]
      rcases w.newThreadHandler_recycled memory with ⟨handlers, _, _, created, fields⟩
      rw [created]
      exact ⟨(fields g).1, fun isSet => (fields g).2.trans isSet⟩
  | join place found =>
      rcases looked found with rfl
      split <;> exact entered _
  | joined place _ => exact absurd permitted busy
  | @free h removal place =>
      have pushed : (w.pushFree h).thread g = w.thread g ∧ ((w.handlers g).inSafepoint = true →
          ((w.pushFree h).handlers g).inSafepoint = true) := by
        by_cases same : g = h <;> simp [World.thread, same]
      cases removal <;> exact pushed
  | enterNew place => exact same
  | leaveNew place nested => exact same
  | unwind place _ => exact same
  | finish place => exact same

/-- The scanned handlers are on the list, with the thread and the flag they were scanned with. -/
def Held (w : World) (threads : List Nat) : Prop :=
  ∀ t c n, w.place t = .collecting c n → ∀ scan ∈ c.scanned,
    scan.handler ∈ threads ∧ w.thread scan.handler = scan.thread ∧
      (w.handlers scan.handler).inSafepoint = true

namespace Held

theorem initial (t : Nat) : Held (World.initial t) [] :=
  fun u c n place => absurd rfl ((Signals.initial t).collecting u c n place)

/-- The walk of the collector. -/
theorem collect {w₀ : World} {c : Collection} {front rest : List Nat}
    (chain : Chain w₀.next w₀.firstThread threads)
    (split : threads = front ++ c.scanned.map Scan.handler ++ c.cursor :: rest)
    (held : ∀ scan ∈ c.scanned, w₀.thread scan.handler = scan.thread ∧
      (w₀.handlers scan.handler).inSafepoint = true)
    (only : ∀ u d n, w₀.place u = .collecting d n → u = t)
    (ran : w₀.collect t c = .ok w') : Held w' threads := by
  rcases World.collect_walk (split ▸ chain) ran with ⟨passed, left, ahead, allSet, outcome⟩
  rcases outcome with ⟨rfl, rfl⟩ | ⟨cursor, later, rfl, rfl⟩
  · intro u d n place
    by_cases same : u = t
    · simp [World.endCollection, same] at place
    · have before : w₀.place u = .collecting d n := by
        simpa [World.endCollection, same] using place
      exact absurd (only u d n before) same
  · intro u d n place scan mem
    by_cases same : u = t
    · have here : Place.collecting { c with cursor, scanned := c.scanned ++ passed.map w₀.scanOf }
          false = .collecting d n := by simpa [same] using place
      cases here
      rw [split, ahead]
      rcases List.mem_append.mp mem with old | new
      · rcases held scan old with ⟨owner, isSet⟩
        refine ⟨?_, owner, isSet⟩
        simp only [List.mem_append]
        exact Or.inl (Or.inr (List.mem_map_of_mem old))
      · rcases List.mem_map.mp new with ⟨g, memG, rfl⟩
        exact ⟨by simp [memG], rfl, allSet g memG⟩
    · exact absurd (only u d n (by simpa [same] using place)) same

theorem step {strict : Prop} (held : Held w threads) (registry : Registry w threads free)
    (signals : Signals w) (tracked : Tracked w threads strict)
    (permitted : SafepointResumesIdle w t action) (effect : Effect memory w t action w')
    (registry' : Registry w' threads' free') (tracked' : Tracked w' threads' strict) :
    Held w' threads' := by
  by_cases walks : ∃ w₀ c, Collects memory w t w₀ c ∧ w₀.collect t c = .ok w'
  · rcases walks with ⟨w₀, c, collects, ran⟩
    rcases registry.collects collects ran registry' with ⟨free₀, walking⟩
    have chain := walking.registry.listed
    rcases walking.position with ⟨rfl, rfl, place⟩ | ⟨idle, -, noneScanned, rest, split⟩
    · rcases tracked.position t c true place with ⟨front, rest, split, -⟩
      exact collect chain split (fun scan mem => (held t c true place scan mem).2)
        (fun u d n placeU => signals.unique u t d c n true placeU place) ran
    · have split' : threads' = [] ++ c.scanned.map Scan.handler ++ c.cursor :: rest := by
        simp [noneScanned, split]
      refine collect chain split' (by simp [noneScanned]) (fun u d n placeU => ?_) ran
      rw [walking.place] at placeU
      exact absurd idle (signals.collecting u d n placeU)
  · have aside := effect.aside_or_collects.resolve_right walks
    intro u c n place scan mem
    rcases aside.collecting u c n place with ⟨m, before⟩
    have busy := signals.collecting u c m before
    rcases held u c m before scan mem with ⟨listed, owner, isSet⟩
    rcases effect.keeps_flags registry listed busy permitted walks with ⟨sameOwner, stillSet⟩
    refine ⟨?_, sameOwner.trans owner, stillSet isSet⟩
    rcases tracked'.position u c n place with ⟨front, rest, split, -⟩
    rw [split]
    simp only [List.mem_append]
    exact Or.inl (Or.inr (List.mem_map_of_mem mem))

end Held

/-- In a run whose threads come back to `gc_mutex` while no collection runs, what has been scanned
stays as it is. -/
theorem runs_held (reached : Runs memory SafepointResumesIdle (.ok w))
    (registry : Registry w threads free) : Held w threads := by
  have all : ∃ threads free, Registry w threads free ∧ Signals w ∧ Tracked w threads False ∧
      Held w threads := by
    apply runs_invariant reached
    · intro t
      exact ⟨[], [], Registry.initial t, Signals.initial t, Tracked.initial t, Held.initial t⟩
    · rintro w t action w' ⟨threads, free, registry, signals, tracked, held⟩ permitted effect
      rcases registry.step effect with ⟨threads', free', registry', -⟩
      have tracked' : Tracked w' threads' False := by
        apply tracked.step registry signals effect registry' _ (by simp)
        rintro removal g rfl place
        rw [SafepointResumesIdle, place] at permitted
        exact permitted
      exact ⟨threads', free', registry', signals.step effect, tracked',
        held.step registry signals tracked permitted effect registry' tracked'⟩
  rcases all with ⟨threads', free', registry', -, -, held⟩
  rw [← registry'.threads_eq registry (fun _ _ => rfl) rfl] at held
  exact held

/-- A thread that the collector has scanned stays in its safepoint: its flag stays set, and it
waits, joins or collects. -/
theorem runs_stopped (reached : Runs memory SafepointResumesIdle (.ok w)) {c : Collection}
    {n : Bool} (place : w.place t = .collecting c n) {scan : Scan} (scanned : scan ∈ c.scanned) :
    (w.handlers scan.handler).inSafepoint = true ∧
      (w.place scan.thread).stoppedAt = some scan.handler := by
  rcases runs_registry reached with ⟨threads, free, registry⟩
  rcases runs_held reached registry t c n place scan scanned with ⟨listed, owner, isSet⟩
  refine ⟨isSet, ?_⟩
  rw [← owner]
  exact (runs_flagged reached registry).stoppedAt registry listed isSet

/-- Thread 1 joins the finished thread 2, and the main thread scans it and waits for thread 3. -/
def joinDuringCollection : List (Nat × Action) :=
  [(0, .create 1), (0, .create 2), (0, .create 3), (2, .prepare), (2, .start), (3, .prepare),
    (3, .start), (1, .prepare), (1, .start), (2, .remove .finish), (2, .free), (1, .join 2),
    (0, .gc true)]

theorem runs_stopped_joinDuringCollection : ∃ w : World,
    w.place 0 = .collecting ⟨2240, true, 2024, [⟨2168, 1, 0⟩]⟩ false ∧
    (w.handlers 2168).inSafepoint = true ∧ (w.place 1).stoppedAt = some 2168 := by
  obtain ⟨w, reached, place⟩ := exists_of_run ascending SafepointResumesIdle joinDuringCollection
    (fun w => w.place 0) (.collecting ⟨2240, true, 2024, [⟨2168, 1, 0⟩]⟩ false) (by decide +kernel)
  rcases runs_stopped reached place (List.mem_singleton.mpr rfl) with ⟨isSet, isStopped⟩
  exact ⟨w, place, isSet, isStopped⟩

/-- `pthread_join` returns: thread 1 has been scanned, and it runs while the collection goes on. -/
theorem runs_stopped_joined : ∃ w : World, Runs ascending (fun _ _ _ => True) (.ok w) ∧
    ∃ c, w.place 0 = .collecting c false ∧ ∃ scan ∈ c.scanned,
      (w.handlers scan.handler).inSafepoint = false ∧ w.place scan.thread = .running := by
  obtain ⟨w, reached, observed⟩ := exists_of_run ascending (fun _ _ _ => True)
    (joinDuringCollection ++ [(1, .joined)])
    (fun w => (w.place 0, (w.handlers 2168).inSafepoint, w.place 1))
    (.collecting ⟨2240, true, 2024, [⟨2168, 1, 0⟩]⟩ false, false, .running) (by decide +kernel)
  simp only [Prod.mk.injEq] at observed
  rcases observed with ⟨place, isClear, runs⟩
  exact ⟨w, reached, _, place, ⟨2168, 1, 0⟩, List.mem_singleton.mpr rfl, isClear, runs⟩

end PreciseGc.Threads

import PreciseGc.Threads.StopTheWorld

/-!
# Objects under construction

`gc_new` counts in `nesting_level` the objects whose headers are not written yet.  `gc`
and `gc_new` look at it before they enter a safepoint; the operators of `gc_ptr`, which
constructors call, do not.
-/

namespace PreciseGc.Threads

open Foundation Function

variable {memory : HandlerMemory} {w w' : World} {threads free threads' free' : List Nat}
  {t u g h : Nat} {action : Action}

/-- No thread stops in the middle of a construction, threads come back from their waits while no
collection runs, and threads are removed between constructions. -/
def ConstructsRunning (w : World) (t : Nat) (action : Action) : Prop :=
  match action with
  | .safepoint => w.gcThread = 0 ∨ w.nesting t = 0
  | .join _ => w.nesting t = 0
  | .remove removal => if w.gcThread = 0 then w.nesting (removal.target t) = 0 else w.nesting t = 0
  | .wake => (match w.place t with
    | .waiting (.remove removal) _ _ => w.gcThread = 0 ∧ w.nesting (removal.target t) = 0
    | .waiting _ _ _ => w.gcThread = 0
    | _ => True)
  | .joined => w.gcThread = 0
  | .enterNew => w.removed t = false
  | _ => True

instance : Decidable (ConstructsRunning w t action) := by
  delta ConstructsRunning
  exact match action with
  | .wake => match w.place t with
    | .waiting .gc _ _ | .waiting .safepoint _ _ | .waiting (.remove _) _ _ | .waiting .start _ _
    | .absent | .created _ | .prepared _ | .running | .atSafepoint | .collecting _ _
    | .joining _ _ | .freeing _ _ | .unwinding | .finished => inferInstance
  | .gc _ | .gcPtr | .readMoreThanOne | .safepoint | .remove _ | .collectorWake | .prepare | .start
  | .create _ | .join _ | .joined | .free | .enterNew | .leaveNew | .unwind | .finish =>
      inferInstance

theorem ConstructsRunning.safepointResumesIdle (permitted : ConstructsRunning w t action) :
    SafepointResumesIdle w t action := by
  cases action with
  | wake =>
      simp only [ConstructsRunning, SafepointResumesIdle] at permitted ⊢
      cases place : w.place t with
      | waiting site h n =>
          rw [place] at permitted
          cases site with
          | remove removal => exact permitted.1
          | start => trivial
          | _ => exact permitted
      | _ => trivial
  | joined => exact permitted
  | _ => trivial

theorem ConstructsRunning.listResumesIdle (permitted : ConstructsRunning w t action) :
    ListResumesIdle w t action := by
  rintro rfl
  simp only [ConstructsRunning] at permitted
  cases place : w.place t with
  | waiting site h n =>
      rw [place] at permitted
      cases site with
      | remove removal => exact permitted.1
      | start => exact permitted
      | _ => trivial
  | _ => trivial

/-- A thread with an object under construction is registered and not in a safepoint. -/
structure Unnested (w : World) : Prop where
  stopped : ∀ t h, (w.place t).stoppedAt = some h → w.nesting t = 0
  registered : ∀ t, w.nesting t ≠ 0 → w.Registered t

namespace Unnested

theorem transport (unnested : Unnested w) (nesting : ∀ u, w'.nesting u = w.nesting u)
    (removed : ∀ u, w.nesting u ≠ 0 → w'.removed u = w.removed u)
    (started : ∀ u, (w.place u).started = true → (w'.place u).started = true)
    (stopped : ∀ u h, (w'.place u).stoppedAt = some h →
      (w.place u).stoppedAt = some h ∨ w.nesting u = 0) : Unnested w' := by
  constructor
  case stopped =>
    intro u h isStopped
    rw [nesting]
    rcases stopped u h isStopped with before | flat
    · exact unnested.stopped u h before
    · exact flat
  case registered =>
    intro u nested
    rw [nesting] at nested
    have before := unnested.registered u nested
    exact ⟨started u before.1, (removed u nested).trans before.2⟩

theorem enrolled (unnested : Unnested w) (enrolled : w.Enrolled w') : Unnested w' := by
  rcases enrolled with ⟨_, _, _, _, rfl, -⟩
  exact { unnested with }

theorem found (unnested : Unnested w) (found : w.getThreadHandler memory t = .ok (h, w')) :
    Unnested w' :=
  unnested.enrolled (World.getThreadHandler_enrolled found)

theorem enterSafepoint (unnested : Unnested w) : Unnested (w.enterSafepoint h) :=
  { unnested with }

theorem exitSafepoint (unnested : Unnested w) : Unnested (w.exitSafepoint h) :=
  { unnested with }

theorem signal (unnested : Unnested w) : Unnested w.signal := by
  refine unnested.transport (fun _ => rfl) (fun _ _ => rfl) ?_ ?_
  · simp
  · intro u h isStopped
    left
    simpa using isStopped

theorem setPlace {place : Place} (unnested : Unnested w)
    (started : (w.place t).started = true → place.started = true)
    (stopped : place.stoppedAt = none ∨ w.nesting t = 0) : Unnested (w.setPlace t place) := by
  refine unnested.transport (fun _ => rfl) (fun _ _ => rfl) (fun u isStarted => ?_)
    fun u h isStopped => ?_
  · by_cases same : u = t
    · subst same
      simpa using started isStarted
    · simpa [same] using isStarted
  · by_cases same : u = t
    · subst same
      rcases stopped with none | flat
      · simp [none] at isStopped
      · exact Or.inr flat
    · left
      simpa [same] using isStopped

theorem unlink {removal : Removal} (unnested : Unnested w)
    (flat : w.nesting (removal.target t) = 0) (unlinked : w.unlink t removal = .ok w') :
    Unnested w' := by
  rcases World.unlink_ok unlinked with ⟨prev, curr, -, -, rfl⟩
  rcases w.bypass_eq prev curr with ⟨handlers, firstThread, same, -⟩
  rw [same]
  refine unnested.transport (fun _ => rfl) (fun u nested => ?_) (fun u isStarted => ?_)
    fun u h isStopped => ?_
  · have other : u ≠ removal.target t := by
      rintro rfl
      exact nested flat
    simp [World.endRemoval, other]
  · by_cases isHere : u = t
    · simp [World.endRemoval, isHere, Place.started]
    · simpa [World.endRemoval, isHere] using isStarted
  · left
    by_cases isHere : u = t
    · simp [World.endRemoval, isHere, Place.stoppedAt] at isStopped
    · simpa [World.endRemoval, isHere] using isStopped

theorem link (unnested : Unnested w) : Unnested (w.link t h) :=
  Unnested.setPlace { unnested with } (fun _ => rfl) (Or.inl rfl)

/-- The walk of the collector. -/
theorem collect {c : Collection} (unnested : Unnested w) (flat : w.nesting t = 0)
    (ran : w.collect t c = .ok w') : Unnested w' := by
  rcases World.collect_ok ran with ⟨cursor, scanned, -, ⟨-, rfl⟩ | ⟨-, rfl⟩⟩
  · refine unnested.transport (fun _ => rfl) (fun _ _ => rfl) (fun u isStarted => ?_)
      fun u h isStopped => ?_
    · by_cases isHere : u = t
      · simp [World.endCollection, isHere, Place.started]
      · simpa [World.endCollection, isHere] using isStarted
    · left
      by_cases isHere : u = t
      · simp [World.endCollection, isHere, Place.stoppedAt] at isStopped
      · simpa [World.endCollection, isHere] using isStopped
  · exact unnested.setPlace (fun _ => rfl) (Or.inr flat)

/-- A step that is allowed stops no thread in the middle of a construction. -/
theorem step (unnested : Unnested w) (permitted : ConstructsRunning w t action)
    (effect : Effect memory w t action w') : Unnested w' := by
  have sameGc : ∀ {h : Nat} {w₁ : World}, w.getThreadHandler memory t = .ok (h, w₁) →
      w₁.gcThread = w.gcThread ∧ w₁.nesting = w.nesting := by
    intro h w₁ found
    rcases World.getThreadHandler_enrolled found with ⟨_, _, _, _, rfl, -⟩
    exact ⟨rfl, rfl⟩
  cases effect with
  | stay => exact unnested
  | lookup _ place found => exact unnested.found found
  | @wait w₁ h _ site waits found busy =>
      rcases sameGc found with ⟨gcThread, nesting⟩
      rw [gcThread] at busy
      have flat : w.nesting t = 0 := by
        cases waits with
        | gc place flat => exact flat
        | safepoint place => exact permitted.resolve_left busy
        | remove place =>
            rw [ConstructsRunning, if_neg busy] at permitted
            exact permitted
      apply (unnested.found found).enterSafepoint.signal.setPlace
      · intro _
        cases waits <;> rfl
      · right
        exact (congrFun nesting t).trans flat
  | @begin w₁ _ h full place flat found idle collected =>
      have entered := (unnested.found found).enterSafepoint (h := h)
      apply collect _ _ collected
      · exact { entered with }
      · exact (congrFun (sameGc found).2 t).trans flat
  | goOn place collected =>
      exact collect unnested (unnested.stopped t _ (by rw [place]; rfl)) collected
  | pass place found idle =>
      exact (unnested.found found).enterSafepoint.exitSafepoint.setPlace (fun _ => rfl) (Or.inl rfl)
  | remove place found idle unlinked =>
      rcases sameGc found with ⟨gcThread, nesting⟩
      rw [gcThread] at idle
      rw [ConstructsRunning, if_pos idle] at permitted
      apply (unnested.found found).enterSafepoint.exitSafepoint.unlink _ unlinked
      exact (congrFun nesting _).trans permitted
  | wake place sort => exact unnested.exitSafepoint.setPlace (fun _ => rfl) (Or.inl rfl)
  | wakeRemove place unlinked =>
      rw [ConstructsRunning, place] at permitted
      exact unnested.exitSafepoint.unlink permitted.2 unlinked
  | wakeStart place => exact unnested.link
  | read place => exact unnested.setPlace (fun _ => rfl) (Or.inl rfl)
  | prepare place =>
      refine Unnested.setPlace { unnested with } (fun started => ?_) (Or.inl rfl)
      simp [place, Place.started] at started
  | startWait place busy =>
      refine unnested.setPlace (fun started => ?_) (Or.inl rfl)
      simp [place, Place.started] at started
  | start place idle => exact unnested.link
  | @create u place absent =>
      have enrolled : Unnested
        (if w.firstThread = 0 then w.createFirstHandler memory t else w) := by
        split
        next => exact unnested.enrolled (w.createFirstHandler_enrolled memory t)
        next => exact unnested
      have stillAbsent : (if w.firstThread = 0 then w.createFirstHandler memory t else w).place u =
          .absent := by
        split
        next =>
          rcases w.createFirstHandler_enrolled memory t with ⟨_, _, _, _, same, -⟩
          rw [same]
          exact absent
        next => exact absent
      rw [World.threadCreate]
      generalize (if w.firstThread = 0 then w.createFirstHandler memory t else w) = v at *
      rcases v.newThreadHandler_recycled memory with ⟨_, _, _, same, -⟩
      have created : Unnested (v.newThreadHandler memory).2 := by
        rw [same]
        exact { enrolled with }
      refine created.setPlace (fun started => ?_) (Or.inl rfl)
      rw [same] at started
      simp [stillAbsent, Place.started] at started
  | @join w₁ h u place found =>
      refine Unnested.setPlace ?_ (fun _ => rfl) (Or.inr ?_)
      · split
        next => exact (unnested.found found).enterSafepoint.signal
        next => exact (unnested.found found).enterSafepoint
      · have flat := (congrFun (sameGc found).2 t).trans permitted
        split <;> exact flat
  | joined place ended => exact unnested.exitSafepoint.setPlace (fun _ => rfl) (Or.inl rfl)
  | @free h removal place =>
      cases removal <;> exact Unnested.setPlace { unnested with } (fun _ => rfl) (Or.inl rfl)
  | enterNew place =>
      constructor
      case stopped =>
        intro u h isStopped
        have other : u ≠ t := by
          rintro rfl
          change (w.place u).stoppedAt = some h at isStopped
          rw [place] at isStopped
          cases isStopped
        simpa [other] using unnested.stopped u h isStopped
      case registered =>
        intro u nested
        by_cases same : u = t
        · subst same
          exact ⟨by rw [place]; rfl, permitted⟩
        · exact unnested.registered u (by simpa [same] using nested)
  | leaveNew place wasNested =>
      constructor
      case stopped =>
        intro u h isStopped
        have flat := unnested.stopped u h isStopped
        by_cases same : u = t
        · subst same
          exact absurd flat wasNested
        · simpa [same] using flat
      case registered =>
        intro u nested
        apply unnested.registered u
        by_cases same : u = t
        · rw [same]
          exact wasNested
        · simpa [same] using nested
  | unwind place cancelled => exact unnested.setPlace (fun _ => rfl) (Or.inl rfl)
  | finish place => exact unnested.setPlace (fun _ => rfl) (Or.inl rfl)

end Unnested

/-- What the collector finds when it passes a handler, and when it calls `sweep`. -/
structure NoConstruction (w : World) : Prop where
  passed : ∀ t c n, w.place t = .collecting c n → ∀ scan ∈ c.scanned, scan.nesting = 0
  swept : ∀ sweep ∈ w.sweeps, (∀ scan ∈ sweep.scanned, scan.nesting = 0) ∧
    ∀ t, sweep.nesting t = 0

namespace NoConstruction

theorem initial (t : Nat) : NoConstruction (World.initial t) := by
  constructor
  case passed =>
    intro u c n place
    exact absurd rfl ((Signals.initial t).collecting u c n place)
  case swept =>
    intro sweep mem
    cases mem

/-- The walk of the collector. -/
theorem collect {w₀ : World} {c : Collection} {front rest : List Nat}
    (registry : Registry w₀ threads free) (unnested : Unnested w₀)
    (split : threads = front ++ c.scanned.map Scan.handler ++ c.cursor :: rest)
    (isFront : front = []) (only : ∀ u d n, w₀.place u = .collecting d n → u = t)
    (flat : ∀ g ∈ threads, (w₀.handlers g).inSafepoint = true → w₀.nesting (w₀.thread g) = 0)
    (held : ∀ scan ∈ c.scanned, (w₀.handlers scan.handler).inSafepoint = true)
    (passed : ∀ scan ∈ c.scanned, scan.nesting = 0)
    (swept : ∀ sweep ∈ w₀.sweeps, (∀ scan ∈ sweep.scanned, scan.nesting = 0) ∧
      ∀ t, sweep.nesting t = 0)
    (ran : w₀.collect t c = .ok w') : NoConstruction w' := by
  subst isFront
  obtain ⟨walked, left, ahead, allSet, outcome⟩ := World.collect_walk (split ▸ registry.listed) ran
  rw [ahead] at split
  have allPassed : ∀ scan ∈ c.scanned ++ walked.map w₀.scanOf, scan.nesting = 0 := by
    intro scan mem
    rcases List.mem_append.mp mem with old | new
    · exact passed scan old
    · rcases List.mem_map.mp new with ⟨g, memG, rfl⟩
      exact flat g (by simp [split, memG]) (allSet g memG)
  rcases outcome with ⟨rfl, rfl⟩ | ⟨cursor, later, rfl, rfl⟩
  · have allFlat : ∀ u, w₀.nesting u = 0 := by
      intro u
      by_contra nested
      have nonempty : threads ≠ [] := by
        rw [split, ← ahead]
        simp
      rcases registry.registered nonempty u (unnested.registered u nested) with ⟨g, listed, rfl⟩
      apply nested
      apply flat g listed
      rw [split] at listed
      simp only [List.nil_append, List.append_nil, List.mem_append, List.mem_map] at listed
      rcases listed with ⟨scan, mem, rfl⟩ | mem
      · exact held scan mem
      · exact allSet g mem
    constructor
    case passed =>
      intro u d n place
      by_cases same : u = t
      · simp [World.endCollection, same] at place
      · have before : w₀.place u = .collecting d n := by
          simpa [World.endCollection, same] using place
        exact absurd (only u d n before) same
    case swept =>
      intro sweep mem
      by_cases isFull : c.full = true
      · have old : sweep ∈ w₀.sweeps ∨ sweep = ⟨c.scanned ++ walked.map w₀.scanOf, w₀.handlers,
            w₀.firstThread, w₀.nesting⟩ := by
          simpa [World.endCollection, isFull] using mem
        rcases old with before | rfl
        · exact swept sweep before
        · exact ⟨allPassed, allFlat⟩
      · simp only [World.endCollection, isFull] at mem
        exact swept sweep mem
  · constructor
    case passed =>
      intro u d n place
      by_cases same : u = t
      · have here : Place.collecting { c with cursor, scanned := c.scanned ++ walked.map w₀.scanOf }
            false = .collecting d n := by simpa [same] using place
        cases here
        exact allPassed
      · exact absurd (only u d n (by simpa [same] using place)) same
    case swept => exact swept

theorem step (noConstruction : NoConstruction w) (registry : Registry w threads free)
    (signals : Signals w) (flagged : Flagged w threads) (tracked : Tracked w threads True)
    (held : Held w threads) (unnested : Unnested w)
    (effect : Effect memory w t action w') (registry' : Registry w' threads' free') :
    NoConstruction w' := by
  rcases effect.aside_or_collects with aside | ⟨w₀, c, collects, ran⟩
  · constructor
    case passed =>
      intro u c n place
      rcases aside.collecting u c n place with ⟨m, before⟩
      exact noConstruction.passed u c m before
    case swept =>
      rw [aside.sweeps]
      exact noConstruction.swept
  · rcases registry.collects collects ran registry' with ⟨free₀, walking⟩
    have unnested₀ : Unnested w₀ := by
      apply unnested.transport (congrFun walking.nesting) (fun u _ => congrFun walking.removed u)
      · intro u started
        rw [walking.place]
        exact started
      · intro u h isStopped
        rw [walking.place] at isStopped
        exact Or.inl isStopped
    have flatHere : w₀.nesting t = 0 := by
      rw [walking.nesting]
      rcases walking.position with ⟨-, -, place⟩ | ⟨-, flat, -⟩
      · exact unnested.stopped t c.handler (by rw [place]; rfl)
      · exact flat
    have flat : ∀ g ∈ threads', (w₀.handlers g).inSafepoint = true →
        w₀.nesting (w₀.thread g) = 0 := by
      intro g mem isSet
      rcases walking.flags flagged g mem isSet with isHere | isStopped
      · rw [isHere]
        exact flatHere
      · exact unnested₀.stopped _ g isStopped
    have swept : ∀ sweep ∈ w₀.sweeps, (∀ scan ∈ sweep.scanned, scan.nesting = 0) ∧
        ∀ t, sweep.nesting t = 0 := by
      rw [walking.sweeps]
      exact noConstruction.swept
    rcases walking.position with ⟨rfl, rfl, place⟩ | ⟨idle, -, noneScanned, rest, split⟩
    · rcases tracked.position t c true place with ⟨front, rest, split, isFront⟩
      exact collect walking.registry unnested₀ split (isFront trivial)
        (fun u d n placeU => signals.unique u t d c n true placeU place) flat
        (fun scan mem => (held t c true place scan mem).2.2)
        (noConstruction.passed t c true place) swept ran
    · have split' : threads' = [] ++ c.scanned.map Scan.handler ++ c.cursor :: rest := by
        simp [noneScanned, split]
      refine collect walking.registry unnested₀ split' rfl (fun u d n placeU => ?_) flat
        (by simp [noneScanned]) (by simp [noneScanned]) swept ran
      rw [walking.place] at placeU
      exact absurd idle (signals.collecting u d n placeU)

end NoConstruction

/-- In a run without constructions inside safepoints, the collector finds no object under
construction. -/
theorem runs_noConstruction (reached : Runs memory ConstructsRunning (.ok w)) :
    NoConstruction w := by
  have all : ∃ threads free, Registry w threads free ∧ Signals w ∧ Flagged w threads ∧
      Tracked w threads True ∧ Held w threads ∧ Unnested w ∧ NoConstruction w := by
    apply runs_invariant reached
    · intro t
      refine ⟨[], [], Registry.initial t, Signals.initial t, Flagged.initial t, Tracked.initial t,
        Held.initial t, ?_, NoConstruction.initial t⟩
      constructor
      · exact fun _ _ _ => rfl
      · exact fun _ nested => absurd rfl nested
    · rintro w t action w' ⟨threads, free, registry, signals, flagged, tracked, held, unnested,
        noConstruction⟩ permitted effect
      rcases registry.step effect with ⟨threads', free', registry', -⟩
      have tracked' : Tracked w' threads' True :=
        tracked.step_of_listResumesIdle registry signals permitted.listResumesIdle effect registry'
      exact ⟨threads', free', registry', signals.step effect,
        flagged.step registry effect registry', tracked',
        held.step registry signals tracked permitted.safepointResumesIdle effect registry' tracked',
        unnested.step permitted effect,
        noConstruction.step registry signals flagged tracked held unnested effect registry'⟩
  rcases all with ⟨_, _, -, -, -, -, -, -, noConstruction⟩
  exact noConstruction

/-- Thread 1 ends its construction and reaches a safepoint while the main thread waits for it. -/
def constructBeforeSafepoint : List (Nat × Action) :=
  [(0, .create 1), (1, .prepare), (1, .start), (1, .enterNew), (0, .gc true), (1, .leaveNew),
    (1, .readMoreThanOne), (1, .safepoint), (0, .collectorWake)]

theorem runs_noConstruction_constructBeforeSafepoint : ∃ w : World, ∃ sweep ∈ w.sweeps,
    sweep.scanned = [⟨2168, 1, 0⟩, ⟨2240, 0, 0⟩] ∧ (∀ scan ∈ sweep.scanned, scan.nesting = 0) ∧
      ∀ t, sweep.nesting t = 0 := by
  obtain ⟨w, reached, observed⟩ := exists_of_run ascending ConstructsRunning
    constructBeforeSafepoint (fun w => w.sweeps.map Sweep.scanned)
    [[⟨2168, 1, 0⟩, ⟨2240, 0, 0⟩]] (by decide +kernel)
  obtain ⟨sweep, mem, scanned⟩ : ∃ sweep ∈ w.sweeps,
      sweep.scanned = [⟨2168, 1, 0⟩, ⟨2240, 0, 0⟩] := by
    rw [← List.mem_map, observed]
    simp
  exact ⟨w, sweep, mem, scanned, (runs_noConstruction reached).swept sweep mem⟩

/-- A constructor of thread 1 uses `->` while the main thread waits for it: the collector passes
thread 1, and sweeps, with an object under construction. -/
theorem runs_noConstruction_accessor : ∃ w : World, Runs ascending (fun _ _ _ => True) (.ok w) ∧
    ∃ sweep ∈ w.sweeps, (∃ scan ∈ sweep.scanned, scan.nesting ≠ 0) ∧ sweep.nesting 1 ≠ 0 := by
  obtain ⟨w, reached, observed⟩ := exists_of_run ascending (fun _ _ _ => True)
    [(0, .create 1), (1, .prepare), (1, .start), (1, .enterNew), (0, .gc true),
      (1, .readMoreThanOne), (1, .safepoint), (0, .collectorWake)]
    (fun w => w.sweeps.map fun sweep => (sweep.scanned, sweep.nesting 1))
    [([⟨2168, 1, 1⟩, ⟨2240, 0, 0⟩], 1)] (by decide +kernel)
  obtain ⟨sweep, mem, swept⟩ : ∃ sweep ∈ w.sweeps, (sweep.scanned, sweep.nesting 1) =
      ([⟨2168, 1, 1⟩, ⟨2240, 0, 0⟩], 1) := by
    rw [← List.mem_map, observed]
    simp
  simp only [Prod.mk.injEq] at swept
  refine ⟨w, reached, sweep, mem, ⟨⟨2168, 1, 1⟩, ?_, by simp⟩, by simp [swept.2]⟩
  rw [swept.1]
  simp

end PreciseGc.Threads

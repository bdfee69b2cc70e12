import PreciseGc.Threads.Safepoints

/-!
# The list of handlers during a collection

`start_routine` and `remove_thread` wait at most once for the end of a collection.
If they take the mutex again while no collection runs, the list stays as it is while a
collector walks along it.
-/

namespace PreciseGc.Threads

open Foundation Function

variable {memory : HandlerMemory} {w w' : World} {threads free threads' free' : List Nat}
  {t u g h : Nat} {action : Action}

namespace World

/-- What the collector records of a handler that it passes. -/
def scanOf (w : World) (h : Nat) : Scan := ⟨h, w.thread h, w.nesting (w.thread h)⟩

/-- The collector passes handlers whose flags are set. -/
theorem scan_ok {fuel cursor : Nat} {cells : List Nat} {scanned out : List Scan}
    (chain : Chain w.next h cells) (ran : w.scan fuel h scanned = .ok (cursor, out)) :
    ∃ passed rest, cells = passed ++ rest ∧ Chain w.next cursor rest ∧
      out = scanned ++ passed.map w.scanOf ∧
      ∀ g ∈ passed, (w.handlers g).inSafepoint = true := by
  induction fuel generalizing h cells scanned with
  | zero => cases ran
  | succ fuel ih =>
      rw [scan] at ran
      cases cells with
      | nil =>
          obtain rfl : h = 0 := chain
          cases ran
          exact ⟨[], [], rfl, rfl, by simp, by simp⟩
      | cons first cells =>
          rcases chain with ⟨rfl, nonnull, rest⟩
          rw [if_neg nonnull] at ran
          split at ran
          next isSet =>
            rcases ih rest ran with ⟨passed, later, rfl, chain, rfl, allSet⟩
            refine ⟨_ :: passed, later, rfl, chain, ?_, ?_⟩
            · rw [List.append_assoc]
              rfl
            · intro g mem
              rcases List.mem_cons.mp mem with rfl | mem
              · exact isSet
              · exact allSet g mem
          next =>
            cases ran
            exact ⟨[], _ :: cells, rfl, ⟨rfl, nonnull, rest⟩, by simp, by simp⟩

/-- The handlers that the collector passes in one step follow its position. -/
theorem collect_walk {c : Collection} {front rest : List Nat}
    (chain : Chain w.next w.firstThread (front ++ c.scanned.map Scan.handler ++ c.cursor :: rest))
    (ran : w.collect t c = .ok w') :
    ∃ passed left, c.cursor :: rest = passed ++ left ∧
      (∀ g ∈ passed, (w.handlers g).inSafepoint = true) ∧
      ((left = [] ∧ w' = w.endCollection t
          { c with cursor := 0, scanned := c.scanned ++ passed.map w.scanOf }) ∨
        ∃ cursor later, left = cursor :: later ∧ w' = w.setPlace t (.collecting
          { c with cursor := cursor, scanned := c.scanned ++ passed.map w.scanOf } false)) := by
  have ahead : Chain w.next c.cursor (c.cursor :: rest) :=
    ⟨rfl, chain.ne_zero (by simp), chain.suffix⟩
  rcases collect_ok ran with ⟨cursor, scanned, walked, outcome⟩
  rcases scan_ok ahead walked with ⟨passed, left, split, chainLeft, rfl, allSet⟩
  refine ⟨passed, left, split, allSet, ?_⟩
  rcases outcome with ⟨rfl, rfl⟩ | ⟨nonnull, rfl⟩
  · exact Or.inl ⟨chainLeft.eq_nil_of_head_eq_zero, rfl⟩
  · cases left with
    | nil => exact absurd chainLeft nonnull
    | cons first later =>
        obtain rfl : cursor = first := chainLeft.1
        exact Or.inr ⟨cursor, later, rfl, rfl⟩

@[simp]
theorem scanOf_handler : (w.scanOf h).handler = h := rfl

end World

/-- The steps in which the collector walks along the list. -/
inductive Collects (memory : HandlerMemory) (w : World) (t : Nat) : World → Collection → Prop where
  | begin {w₁ : World} {h : Nat} {full : Bool} (place : w.place t = .running)
      (flat : w.nesting t = 0) (found : w.getThreadHandler memory t = .ok (h, w₁))
      (idle : w₁.gcThread = 0) :
      Collects memory w t { w₁.enterSafepoint h with gcThread := h } ⟨h, full, w₁.firstThread, []⟩
  | goOn {c : Collection} (place : w.place t = .collecting c true) : Collects memory w t w c

/-- The collection in progress, if any, is left as it is. -/
structure Aside (w w' : World) : Prop where
  gcThread : w'.gcThread = w.gcThread
  sweeps : w'.sweeps = w.sweeps
  collecting : ∀ u c n, w'.place u = .collecting c n → ∃ m, w.place u = .collecting c m

namespace Aside

theorem refl (w : World) : Aside w w := ⟨rfl, rfl, fun _ _ n place => ⟨n, place⟩⟩

theorem of_place (gcThread : w'.gcThread = w.gcThread) (sweeps : w'.sweeps = w.sweeps)
    (place : ∀ u, w'.place u = w.place u) : Aside w w' :=
  ⟨gcThread, sweeps, fun u _ n placeU => ⟨n, place u ▸ placeU⟩⟩

theorem setPlace {place : Place} (aside : Aside w w')
    (notCollecting : ∀ c n, place ≠ .collecting c n) : Aside w (w'.setPlace t place) := by
  refine ⟨aside.gcThread, aside.sweeps, fun u c n placeU => ?_⟩
  by_cases same : u = t
  · exact absurd (by simpa [same] using placeU) (notCollecting c n)
  · exact aside.collecting u c n (by simpa [same] using placeU)

theorem enterSafepoint (aside : Aside w w') : Aside w (w'.enterSafepoint h) :=
  ⟨aside.gcThread, aside.sweeps, aside.collecting⟩

theorem exitSafepoint (aside : Aside w w') : Aside w (w'.exitSafepoint h) :=
  ⟨aside.gcThread, aside.sweeps, aside.collecting⟩

theorem signal (aside : Aside w w') : Aside w w'.signal := by
  refine ⟨aside.gcThread, aside.sweeps, fun u c n place => ?_⟩
  rcases Place.signalled_eq_collecting place with ⟨-, before, place⟩
  exact aside.collecting u c before place

theorem found (found : w.getThreadHandler memory t = .ok (h, w')) : Aside w w' := by
  rcases World.getThreadHandler_enrolled found with ⟨_, _, _, _, rfl, -⟩
  exact of_place rfl rfl fun _ => rfl

theorem unlink {removal : Removal} {v : World} (aside : Aside w v)
    (unlinked : v.unlink t removal = .ok w') : Aside w w' := by
  rcases World.unlink_ok unlinked with ⟨prev, curr, -, -, rfl⟩
  rcases v.bypass_eq prev curr with ⟨handlers, firstThread, same, -⟩
  rw [same]
  refine ⟨aside.gcThread, aside.sweeps, fun u c n place => ?_⟩
  by_cases isHere : u = t
  · simp [World.endRemoval, isHere] at place
  · exact aside.collecting u c n (by simpa [World.endRemoval, isHere] using place)

theorem link : Aside w (w.link t h) :=
  Aside.setPlace ⟨rfl, rfl, (refl w).collecting⟩ (by simp)

end Aside

/-- The steps in which no thread collects. -/
def Action.Plain : Action → Prop
  | gc _ => False
  | collectorWake => False
  | _ => True

/-- A step either walks along the list or leaves the collection as it is. -/
theorem Effect.aside_or_walks (effect : Effect memory w t action w') :
    Aside w w' ∨ (¬ action.Plain ∧
      ∃ w₀ c, Collects memory w t w₀ c ∧ w₀.collect t c = .ok w') := by
  cases effect with
  | begin place flat found idle collected =>
      exact Or.inr ⟨id, _, _, Collects.begin place flat found idle, collected⟩
  | goOn place collected => exact Or.inr ⟨id, _, _, Collects.goOn place, collected⟩
  | stay => exact Or.inl (Aside.refl w)
  | lookup _ place found => exact Or.inl (Aside.found found)
  | wait waits found busy =>
      exact Or.inl ((Aside.found found).enterSafepoint.signal.setPlace (by simp))
  | pass place found idle =>
      exact Or.inl ((Aside.found found).enterSafepoint.exitSafepoint.setPlace (by simp))
  | remove place found idle unlinked =>
      exact Or.inl ((Aside.found found).enterSafepoint.exitSafepoint.unlink unlinked)
  | wake place sort => exact Or.inl ((Aside.refl w).exitSafepoint.setPlace (by simp))
  | wakeRemove place unlinked => exact Or.inl ((Aside.refl w).exitSafepoint.unlink unlinked)
  | wakeStart place => exact Or.inl Aside.link
  | read place => exact Or.inl ((Aside.refl w).setPlace (by simp))
  | prepare place =>
      left
      exact Aside.setPlace ⟨rfl, rfl, (Aside.refl w).collecting⟩ (by simp)
  | startWait place busy => exact Or.inl ((Aside.refl w).setPlace (by simp))
  | start place idle => exact Or.inl Aside.link
  | @create u place absent =>
      left
      have enrolled : Aside w (if w.firstThread = 0 then w.createFirstHandler memory t else w) := by
        split
        next =>
          rcases w.createFirstHandler_enrolled memory t with ⟨_, _, _, _, same, -⟩
          rw [same]
          exact Aside.of_place rfl rfl fun _ => rfl
        next => exact Aside.refl w
      rw [World.threadCreate]
      generalize (if w.firstThread = 0 then w.createFirstHandler memory t else w) = v at enrolled
      rcases v.newThreadHandler_recycled memory with ⟨_, _, _, same, -⟩
      refine Aside.setPlace ?_ (by simp)
      rw [same]
      exact ⟨enrolled.gcThread, enrolled.sweeps, enrolled.collecting⟩
  | join place found =>
      refine Or.inl (Aside.setPlace ?_ (by simp))
      split
      next => exact (Aside.found found).enterSafepoint.signal
      next => exact (Aside.found found).enterSafepoint
  | joined place ended => exact Or.inl ((Aside.refl w).exitSafepoint.setPlace (by simp))
  | @free h removal place =>
      left
      cases removal <;> exact Aside.setPlace ⟨rfl, rfl, (Aside.refl w).collecting⟩ (by simp)
  | enterNew place => exact Or.inl ⟨rfl, rfl, (Aside.refl w).collecting⟩
  | leaveNew place nested => exact Or.inl ⟨rfl, rfl, (Aside.refl w).collecting⟩
  | unwind place cancelled => exact Or.inl ((Aside.refl w).setPlace (by simp))
  | finish place => exact Or.inl ((Aside.refl w).setPlace (by simp))

theorem Effect.aside_or_collects (effect : Effect memory w t action w') :
    Aside w w' ∨ ∃ w₀ c, Collects memory w t w₀ c ∧ w₀.collect t c = .ok w' :=
  effect.aside_or_walks.imp_right And.right

theorem Effect.aside_of_plain (effect : Effect memory w t action w') (plain : action.Plain) :
    Aside w w' :=
  effect.aside_or_walks.resolve_right fun walks => walks.1 plain

/-- The state in which the collector walks along the list. -/
structure Walking (w : World) (t : Nat) (threads : List Nat) (w₀ : World) (c : Collection)
    (threads₀ free₀ : List Nat) : Prop where
  registry : Registry w₀ threads₀ free₀
  place : w₀.place = w.place
  nesting : w₀.nesting = w.nesting
  removed : w₀.removed = w.removed
  sweeps : w₀.sweeps = w.sweeps
  own : ∀ g ∈ threads₀, w₀.thread g = t → g = c.handler
  /-- The flags of the other threads are those of before. -/
  flags : Flagged w threads → ∀ g ∈ threads₀, (w₀.handlers g).inSafepoint = true →
    w₀.thread g = t ∨ (w₀.place (w₀.thread g)).stoppedAt = some g
  position : (w₀ = w ∧ threads₀ = threads ∧ w.place t = .collecting c true) ∨
    (w.gcThread = 0 ∧ w.nesting t = 0 ∧ c.scanned = [] ∧ ∃ rest, threads₀ = c.cursor :: rest)

/-- The list while the collector walks along it. -/
theorem Registry.collects {w₀ : World} {c : Collection} (registry : Registry w threads free)
    (collects : Collects memory w t w₀ c) (ran : w₀.collect t c = .ok w')
    (registry' : Registry w' threads' free') :
    ∃ free₀, Walking w t threads w₀ c threads' free₀ := by
  cases collects with
  | @begin w₁ h full place flat found idle =>
      rcases registry.looked (by rw [place]; rfl) found with ⟨threads₁, free₁, looked⟩
      have registry₀ := (looked.registry.enterSafepoint (h := h)).unrelated h w₁.nesting w₁.sweeps
      have registry₁ : Registry w' threads₁ free₁ := by
        refine registry₀.collect ?_ ?_ ran
        · simpa using looked.started
        · exact Or.inr ⟨looked.listed, by simpa [World.thread] using looked.owned⟩
      rcases registry₁.threads_eq registry' (fun _ _ => rfl) rfl with rfl
      have owners : ∀ g, World.thread { w₁.enterSafepoint h with gcThread := h } g = w₁.thread g :=
        fun g => World.enterSafepoint_thread g
      have head : ∃ rest, threads' = w₁.firstThread :: rest := by
        cases same : threads' with
        | nil =>
            have listed := looked.listed
            rw [same] at listed
            cases listed
        | cons first rest =>
            have chain := looked.registry.listed
            rw [same] at chain
            exact ⟨rest, by rw [chain.1]⟩
      have flags : Flagged w threads → ∀ g ∈ threads',
          (({ w₁.enterSafepoint h with gcThread := h } : World).handlers g).inSafepoint = true →
          w₁.thread g = t ∨ (w₁.place (w₁.thread g)).stoppedAt = some g := by
        intro flagged g mem isSet
        by_cases same : g = h
        · left
          rw [same]
          exact looked.owned
        · right
          exact (flagged.looked found looked).stoppedAt looked.registry mem
            (by simpa [same] using isSet)
      refine ⟨free₁, registry₀, ?_, ?_, ?_, ?_, ?_, ?_, ?_⟩
      case refine_5 =>
        intro g mem owned
        rw [owners] at owned
        exact looked.registry.ownerUnique g mem h looked.listed (owned.trans looked.owned.symm)
      case refine_6 =>
        intro flagged g mem isSet
        rw [owners]
        exact flags flagged g mem isSet
      all_goals obtain ⟨_, _, _, _, rfl, -⟩ := World.getThreadHandler_enrolled found
      case refine_7 => exact Or.inr ⟨idle, flat, rfl, head⟩
      all_goals rfl
  | goOn place =>
      have registry₁ : Registry w' threads free := by
        apply registry.collect (by rw [place]; rfl) _ ran
        rw [place]
        exact Or.inl rfl
      rcases registry₁.threads_eq registry' (fun _ _ => rfl) rfl with rfl
      refine ⟨free, registry, rfl, rfl, rfl, rfl, ?_, ?_, Or.inl ⟨rfl, rfl, place⟩⟩
      · intro g mem owned
        exact (registry.stopped g mem c.handler (by rw [owned, place]; rfl)).symm
      · intro flagged g mem isSet
        exact Or.inr (flagged.stoppedAt registry mem isSet)

/-- Where the collector stands on the list.  If `strict`, no handler has been linked in front
since it started. -/
structure Tracked (w : World) (threads : List Nat) (strict : Prop) : Prop where
  busy : w.gcThread ≠ 0 → threads ≠ []
  position : ∀ t c n, w.place t = .collecting c n → ∃ front rest,
    threads = front ++ c.scanned.map Scan.handler ++ c.cursor :: rest ∧ (strict → front = [])
  complete : strict → ∀ sweep ∈ w.sweeps,
    Chain (fun h => (sweep.handlers h).next) sweep.firstThread (sweep.scanned.map Scan.handler)

namespace Tracked

variable {strict : Prop}

theorem initial (t : Nat) : Tracked (World.initial t) [] strict := by
  constructor
  case position =>
    intro u c n place
    by_cases same : u = t <;> simp [World.initial, same] at place
  all_goals simp [World.initial]

/-- One walk of the collector. -/
theorem collect {c : Collection} {front rest : List Nat}
    (chain : Chain w.next w.firstThread threads)
    (split : threads = front ++ c.scanned.map Scan.handler ++ c.cursor :: rest)
    (isFront : strict → front = []) (only : ∀ u d n, w.place u = .collecting d n → u = t)
    (complete : strict → ∀ sweep ∈ w.sweeps, Chain (fun h => (sweep.handlers h).next)
      sweep.firstThread (sweep.scanned.map Scan.handler))
    (ran : w.collect t c = .ok w') : Tracked w' threads strict := by
  rcases World.collect_walk (split ▸ chain) ran with ⟨passed, left, ahead, -, outcome⟩
  rw [ahead] at split
  have nonempty : threads ≠ [] := by
    rw [split, ← ahead]
    simp
  rcases outcome with ⟨rfl, rfl⟩ | ⟨cursor, later, rfl, rfl⟩
  · constructor
    case busy => exact fun _ => nonempty
    case position =>
      intro u d n place
      by_cases same : u = t
      · simp [World.endCollection, same] at place
      · have before : w.place u = .collecting d n := by
          simpa [World.endCollection, same] using place
        exact absurd (only u d n before) same
    case complete =>
      intro isStrict sweep mem
      have old : sweep ∈ w.sweeps ∨ sweep = ⟨c.scanned ++ passed.map w.scanOf, w.handlers,
          w.firstThread, w.nesting⟩ := by
        by_cases isFull : c.full = true
        · simpa [World.endCollection, isFull] using mem
        · simp only [World.endCollection, isFull] at mem
          exact Or.inl mem
      rcases old with before | rfl
      · exact complete isStrict sweep before
      · rcases isFront isStrict with rfl
        have whole : (c.scanned ++ passed.map w.scanOf).map Scan.handler = threads := by
          rw [split]
          simp [Function.comp_def]
        rw [whole]
        exact chain
  · constructor
    case busy => exact fun _ => nonempty
    case position =>
      intro u d n place
      by_cases same : u = t
      · have here : Place.collecting { c with cursor, scanned := c.scanned ++ passed.map w.scanOf }
            false = .collecting d n := by simpa [same] using place
        cases here
        refine ⟨front, later, ?_, isFront⟩
        rw [split]
        simp [Function.comp_def]
      · exact absurd (only u d n (by simpa [same] using place)) same
    case complete => exact complete

theorem step (tracked : Tracked w threads strict) (registry : Registry w threads free)
    (signals : Signals w) (effect : Effect memory w t action w')
    (registry' : Registry w' threads' free')
    (unlinksIdle : ∀ removal g, action = .wake →
      w.place t = .waiting (.remove removal) g true → w.gcThread = 0)
    (linksIdle : strict → ∀ g, action = .wake → w.place t = .waiting .start g true →
      w.gcThread = 0) : Tracked w' threads' strict := by
  rcases effect.aside_or_collects with aside | ⟨w₀, c, collects, ran⟩
  · have relisting := registry.relisting effect registry'
    constructor
    case busy =>
      intro isBusy
      rw [aside.gcThread] at isBusy
      exact relisting.nonempty (tracked.busy isBusy)
    case position =>
      intro u c n place
      rcases aside.collecting u c n place with ⟨m, before⟩
      have isBusy := signals.collecting u c m before
      rcases tracked.position u c m before with ⟨front, rest, split, isFront⟩
      cases relisting with
      | kept => exact ⟨front, rest, split, isFront⟩
      | first empty => simp [empty] at split
      | @linked h entering =>
          rcases entering with idle | ⟨isWake, isStart⟩
          · exact absurd idle isBusy
          · refine ⟨h :: front, rest, by simp [split], fun isStrict => ?_⟩
            exact absurd (linksIdle isStrict h isWake isStart) isBusy
      | unlinked _ _ leaving =>
          rcases leaving with idle | ⟨isWake, removal, g, isRemove⟩
          · exact absurd idle isBusy
          · exact absurd (unlinksIdle removal g isWake isRemove) isBusy
    case complete =>
      rw [aside.sweeps]
      exact tracked.complete
  · rcases registry.collects collects ran registry' with ⟨free₀, walking⟩
    have chain := walking.registry.listed
    have complete : strict → ∀ sweep ∈ w₀.sweeps, Chain (fun h => (sweep.handlers h).next)
        sweep.firstThread (sweep.scanned.map Scan.handler) := by
      rw [walking.sweeps]
      exact tracked.complete
    rcases walking.position with ⟨rfl, rfl, place⟩ | ⟨idle, -, noneScanned, rest, split⟩
    · rcases tracked.position t c true place with ⟨front, rest, split, isFront⟩
      exact collect chain split isFront
        (fun u d n placeU => signals.unique u t d c n true placeU place) complete ran
    · have split' : threads' = [] ++ c.scanned.map Scan.handler ++ c.cursor :: rest := by
        simp [noneScanned, split]
      refine collect chain split' (fun _ => rfl) (fun u d n placeU => ?_) complete ran
      rw [walking.place] at placeU
      exact absurd idle (signals.collecting u d n placeU)

end Tracked

/-- `start_routine` and `remove_thread` come back from their wait while no collection runs. -/
def ListResumesIdle (w : World) (t : Nat) (action : Action) : Prop :=
  action = .wake → (match w.place t with
    | .waiting .start _ _ => w.gcThread = 0
    | .waiting (.remove _) _ _ => w.gcThread = 0
    | _ => True)

instance : Decidable (ListResumesIdle w t action) := by
  delta ListResumesIdle
  exact match w.place t with
  | .waiting .gc _ _ | .waiting .safepoint _ _ | .waiting (.remove _) _ _ | .waiting .start _ _
  | .absent | .created _ | .prepared _ | .running | .atSafepoint | .collecting _ _
  | .joining _ _ | .freeing _ _ | .unwinding | .finished => inferInstance

theorem Tracked.step_of_listResumesIdle {strict : Prop} (tracked : Tracked w threads strict)
    (registry : Registry w threads free) (signals : Signals w)
    (permitted : ListResumesIdle w t action) (effect : Effect memory w t action w')
    (registry' : Registry w' threads' free') : Tracked w' threads' strict := by
  apply tracked.step registry signals effect registry'
  · intro removal g isWake place
    have idle := permitted isWake
    rw [place] at idle
    exact idle
  · intro _ g isWake place
    have idle := permitted isWake
    rw [place] at idle
    exact idle

/-- The state of a run whose starting and leaving threads come back while no collection runs. -/
theorem runs_tracked (reached : Runs memory ListResumesIdle (.ok w))
    (registry : Registry w threads free) : Tracked w threads True := by
  have all : ∃ threads free, Registry w threads free ∧ Signals w ∧ Tracked w threads True := by
    apply runs_invariant reached
    · intro t
      exact ⟨[], [], Registry.initial t, Signals.initial t, Tracked.initial t⟩
    · rintro w t action w' ⟨threads, free, registry, signals, tracked⟩ permitted effect
      rcases registry.step effect with ⟨threads', free', registry', -⟩
      exact ⟨threads', free', registry', signals.step effect,
        tracked.step_of_listResumesIdle registry signals permitted effect registry'⟩
  rcases all with ⟨threads', free', registry', -, tracked⟩
  rw [registry'.threads_eq registry (fun _ _ => rfl) rfl]
  exact tracked

/-- The list is frozen while a collection runs, the collector walks along it, and each call of
`sweep` finds that every handler of the list has been scanned. -/
structure Frozen (memory : HandlerMemory) (w : World) : Prop where
  unchanged : w.gcThread ≠ 0 → ∀ t action w', ListResumesIdle w t action →
    step memory w t action = some (.ok w') →
    ∀ threads, Chain w.next w.firstThread threads → Chain w'.next w'.firstThread threads
  onList : ∀ t c n, w.place t = .collecting c n → ∃ rest,
    Chain w.next w.firstThread (c.scanned.map Scan.handler ++ c.cursor :: rest)
  complete : ∀ sweep ∈ w.sweeps,
    Chain (fun h => (sweep.handlers h).next) sweep.firstThread (sweep.scanned.map Scan.handler)

theorem runs_frozen (reached : Runs memory ListResumesIdle (.ok w)) : Frozen memory w := by
  rcases runs_registry reached with ⟨threads, free, registry⟩
  have tracked := runs_tracked reached registry
  constructor
  case unchanged =>
    intro isBusy t action w' permitted stepped cells chain
    rcases registry.listed.unique chain with rfl
    rcases registry.step (step_effect stepped) with ⟨threads', free', registry', relisting⟩
    have same : threads' = threads := by
      cases relisting with
      | kept => rfl
      | first empty => exact absurd empty (tracked.busy isBusy)
      | linked entering =>
          rcases entering with idle | ⟨isWake, place⟩
          · exact absurd idle isBusy
          · have idle := permitted isWake
            rw [place] at idle
            exact absurd idle isBusy
      | unlinked _ _ leaving =>
          rcases leaving with idle | ⟨isWake, removal, g, place⟩
          · exact absurd idle isBusy
          · have idle := permitted isWake
            rw [place] at idle
            exact absurd idle isBusy
    rw [← same]
    exact registry'.listed
  case onList =>
    intro t c n place
    rcases tracked.position t c n place with ⟨front, rest, split, isFront⟩
    refine ⟨rest, ?_⟩
    have chain := registry.listed
    rw [split, isFront trivial] at chain
    exact chain
  case complete => exact tracked.complete trivial

/-- Thread 2 starts while the main thread collects and waits for thread 1. -/
def startDuringCollection : List (Nat × Action) :=
  [(0, .create 1), (0, .create 2), (0, .create 3), (1, .prepare), (1, .start), (0, .gc true),
    (2, .prepare), (2, .start), (1, .readMoreThanOne), (1, .safepoint), (0, .collectorWake)]

theorem runs_frozen_startDuringCollection : ∃ w : World,
    w.sweeps.map (fun sweep => sweep.scanned.map Scan.handler) = [[2168, 2240]] ∧
    (∀ sweep ∈ w.sweeps, Chain (fun h => (sweep.handlers h).next) sweep.firstThread
      (sweep.scanned.map Scan.handler)) ∧
    w.gcThread ≠ 0 ∧ ∃ c rest, w.place 0 = .collecting c false ∧
      Chain w.next w.firstThread (c.scanned.map Scan.handler ++ c.cursor :: rest) := by
  obtain ⟨w, reached, observed⟩ := exists_of_run ascending ListResumesIdle
    (startDuringCollection ++ [(2, .wake), (1, .wake), (0, .gc true)])
    (fun w => (w.sweeps.map fun sweep => sweep.scanned.map Scan.handler, w.gcThread, w.place 0))
    ([[2168, 2240]], 2240, .collecting ⟨2240, true, 2096, []⟩ false) (by decide +kernel)
  simp only [Prod.mk.injEq] at observed
  rcases observed with ⟨sweeps, gcThread, place⟩
  have frozen := runs_frozen reached
  rcases frozen.onList 0 _ _ place with ⟨rest, onList⟩
  exact ⟨w, sweeps, frozen.complete, by simp [gcThread], _, rest, place, onList⟩

/-- Thread 2 wakes up late: the next collection is under way, and its sweep does not know of
the handler that thread 2 has linked. -/
theorem runs_frozen_startLate :
    (∃ w w' : World, Runs ascending (fun _ _ _ => True) (.ok w) ∧ w.gcThread ≠ 0 ∧
      step ascending w 2 .wake = some (.ok w') ∧ w'.gcThread = w.gcThread ∧
      ∃ threads, Chain w.next w.firstThread threads ∧ ¬ Chain w'.next w'.firstThread threads) ∧
    ∃ w : World, Runs ascending (fun _ _ _ => True) (.ok w) ∧ ∃ sweep ∈ w.sweeps,
      ¬ Chain (fun h => (sweep.handlers h).next) sweep.firstThread
        (sweep.scanned.map Scan.handler) := by
  constructor
  · obtain ⟨w, reached, observed⟩ := exists_of_run ascending (fun _ _ _ => True)
      (startDuringCollection ++ [(1, .wake), (0, .gc true)])
      (fun w => (w.gcThread, w.place 2, decide (Chain w.next w.firstThread [2168, 2240])))
      (2240, .waiting .start 2096 true, true) (by decide +kernel)
    simp only [Prod.mk.injEq, decide_eq_true_eq] at observed
    rcases observed with ⟨gcThread, place, chain⟩
    have stepped : step ascending w 2 .wake = some (.ok (w.link 2 2096)) := by
      simp [step, place, World.resume]
    exact ⟨w, _, reached, by simp [gcThread], stepped, rfl, _, chain, by simp [World.link]⟩
  · obtain ⟨w, reached, observed⟩ := exists_of_run ascending (fun _ _ _ => True)
      (startDuringCollection ++ [(1, .wake), (0, .gc true), (2, .wake), (1, .readMoreThanOne),
        (1, .safepoint), (0, .collectorWake)])
      (fun w => w.sweeps.map fun sweep => (sweep.firstThread, sweep.scanned.map Scan.handler))
      [(2168, [2168, 2240]), (2096, [2168, 2240])] (by decide +kernel)
    obtain ⟨sweep, mem, late⟩ : ∃ sweep ∈ w.sweeps,
        (sweep.firstThread, sweep.scanned.map Scan.handler) = (2096, [2168, 2240]) := by
      rw [← List.mem_map, observed]
      simp
    simp only [Prod.mk.injEq] at late
    refine ⟨w, reached, sweep, mem, fun chain => ?_⟩
    rw [late.1, late.2] at chain
    cases chain.1

end PreciseGc.Threads

import PreciseGc.Threads.Handlers

/-!
# What a step does

Every completed step has one of the effects listed in `Effect`.
-/

namespace PreciseGc.Threads

open Foundation Function

variable {memory : HandlerMemory} {w w' : World} {threads free : List Nat} {t u h : Nat}

namespace World

/-- The thread has set its flag, told the collector and waits for the end of the collection. -/
def waitAt (w : World) (t h : Nat) (site : Site) : World :=
  (w.enterSafepoint h).signal.setPlace t (.waiting site h false)

/-- The thread has cleared its flag and runs. -/
def leave (w : World) (t h : Nat) : World :=
  (w.exitSafepoint h).setPlace t .running

end World

/-- The calls that wait for `gc_is_finished` in a safepoint. -/
inductive Waits (t : Nat) : World → Action → Site → Prop where
  | gc {w : World} {full : Bool} (place : w.place t = .running) (flat : w.nesting t = 0) :
      Waits t w (.gc full) .gc
  | safepoint {w : World} (place : w.place t = .atSafepoint) : Waits t w .safepoint .safepoint
  | remove {w : World} {removal : Removal} (place : w.place t = .running) :
      Waits t w (.remove removal) (.remove removal)

/-- The effects of a completed step of thread `t`. -/
inductive Effect (memory : HandlerMemory) (w : World) (t : Nat) : Action → World → Prop where
  | stay (action : Action) : Effect memory w t action w
  | lookup {w' : World} {h : Nat} (action : Action)
      (place : w.place t = .running ∨ w.place t = .unwinding)
      (found : w.getThreadHandler memory t = .ok (h, w')) : Effect memory w t action w'
  | wait {w₁ : World} {h : Nat} {action : Action} {site : Site} (waits : Waits t w action site)
      (found : w.getThreadHandler memory t = .ok (h, w₁)) (busy : w₁.gcThread ≠ 0) :
      Effect memory w t action (w₁.waitAt t h site)
  | begin {w₁ w' : World} {h : Nat} {full : Bool} (place : w.place t = .running)
      (flat : w.nesting t = 0)
      (found : w.getThreadHandler memory t = .ok (h, w₁)) (idle : w₁.gcThread = 0)
      (collected : World.collect { w₁.enterSafepoint h with gcThread := h } t
        ⟨h, full, w₁.firstThread, []⟩ = .ok w') : Effect memory w t (.gc full) w'
  | goOn {w' : World} {c : Collection} (place : w.place t = .collecting c true)
      (collected : w.collect t c = .ok w') : Effect memory w t .collectorWake w'
  | pass {w₁ : World} {h : Nat} (place : w.place t = .atSafepoint)
      (found : w.getThreadHandler memory t = .ok (h, w₁)) (idle : w₁.gcThread = 0) :
      Effect memory w t .safepoint ((w₁.enterSafepoint h).leave t h)
  | remove {w₁ w' : World} {h : Nat} {removal : Removal} (place : w.place t = .running)
      (found : w.getThreadHandler memory t = .ok (h, w₁)) (idle : w₁.gcThread = 0)
      (unlinked : ((w₁.enterSafepoint h).exitSafepoint h).unlink t removal = .ok w') :
      Effect memory w t (.remove removal) w'
  | wake {h : Nat} {site : Site} (place : w.place t = .waiting site h true)
      (sort : site = .gc ∨ site = .safepoint) : Effect memory w t .wake (w.leave t h)
  | wakeRemove {w' : World} {h : Nat} {removal : Removal}
      (place : w.place t = .waiting (.remove removal) h true)
      (unlinked : (w.exitSafepoint h).unlink t removal = .ok w') : Effect memory w t .wake w'
  | wakeStart {h : Nat} (place : w.place t = .waiting .start h true) :
      Effect memory w t .wake (w.link t h)
  | read (place : w.place t = .running) :
      Effect memory w t .readMoreThanOne (w.setPlace t .atSafepoint)
  | prepare {h : Nat} (place : w.place t = .created h) :
      Effect memory w t .prepare ((w.setHandler h
        { w.handlers h with thread := t, inSafepoint := false }).setPlace t (.prepared h))
  | startWait {h : Nat} (place : w.place t = .prepared h) (busy : w.gcThread ≠ 0) :
      Effect memory w t .start (w.setPlace t (.waiting .start h false))
  | start {h : Nat} (place : w.place t = .prepared h) (idle : w.gcThread = 0) :
      Effect memory w t .start (w.link t h)
  | create {u : Nat} (place : w.place t = .running) (absent : w.place u = .absent) :
      Effect memory w t (.create u) (w.threadCreate memory t u)
  | join {w₁ : World} {h u : Nat} (place : w.place t = .running)
      (found : w.getThreadHandler memory t = .ok (h, w₁)) :
      Effect memory w t (.join u) ((if w₁.gcThread ≠ 0 then (w₁.enterSafepoint h).signal
        else w₁.enterSafepoint h).setPlace t (.joining h u))
  | joined {h u : Nat} (place : w.place t = .joining h u) (ended : w.place u = .finished) :
      Effect memory w t .joined (w.leave t h)
  | free {h : Nat} {removal : Removal} (place : w.place t = .freeing h removal) :
      Effect memory w t .free (w.free t h removal)
  | enterNew (place : w.place t = .running) :
      Effect memory w t .enterNew { w with nesting := update w.nesting t (w.nesting t + 1) }
  | leaveNew (place : w.place t = .running) (nested : w.nesting t ≠ 0) :
      Effect memory w t .leaveNew { w with nesting := update w.nesting t (w.nesting t - 1) }
  | unwind (place : w.place t = .running ∨ ∃ h u, w.place t = .joining h u)
      (cancelled : w.cancelled t = true) : Effect memory w t .unwind (w.setPlace t .unwinding)
  | finish (place : w.place t = .unwinding) : Effect memory w t .finish (w.setPlace t .finished)

theorem bind_ok {α β : Type} {x : Except Fault α} {f : α → Except Fault β} {b : β}
    (ran : (x >>= f) = .ok b) : ∃ a, x = .ok a ∧ f a = .ok b := by
  cases x with
  | error fault => cases ran
  | ok a => exact ⟨a, rfl, ran⟩

theorem gc_ok {full : Bool} (ran : w.gc memory t full = .ok w') :
    ∃ h w₁, w.getThreadHandler memory t = .ok (h, w₁) ∧
      ((w.nesting t ≠ 0 ∧ w' = w₁) ∨
        (w.nesting t = 0 ∧ w₁.gcThread ≠ 0 ∧ w' = w₁.waitAt t h .gc) ∨
        (w.nesting t = 0 ∧ w₁.gcThread = 0 ∧
          World.collect { w₁.enterSafepoint h with gcThread := h } t
            ⟨h, full, w₁.firstThread, []⟩ = .ok w')) := by
  rcases bind_ok ran with ⟨⟨h, w₁⟩, found, rest⟩
  have nesting : w₁.nesting = w.nesting := by
    rcases World.getThreadHandler_enrolled found with ⟨_, _, _, _, rfl, -⟩
    rfl
  refine ⟨h, w₁, found, ?_⟩
  simp only at rest
  split at rest
  next nested =>
    cases rest
    exact Or.inl ⟨nesting ▸ nested, rfl⟩
  next flat =>
    rw [nesting, Decidable.not_not] at flat
    right
    split at rest
    next idle => exact Or.inr ⟨flat, idle, rest⟩
    next busy =>
      cases rest
      exact Or.inl ⟨flat, busy, rfl⟩

theorem gc_effect {full : Bool} (place : w.place t = .running)
    (ran : w.gc memory t full = .ok w') : Effect memory w t (.gc full) w' := by
  rcases gc_ok ran with ⟨h, w₁, found, ⟨-, rfl⟩ | ⟨flat, busy, rfl⟩ | ⟨flat, idle, collected⟩⟩
  · exact Effect.lookup _ (Or.inl place) found
  · exact Effect.wait (Waits.gc place flat) found busy
  · exact Effect.begin place flat found idle collected

theorem withoutGcBefore_ok {site : Site} (ran : w.withoutGcBefore memory t site = .ok w') :
    ∃ h w₁, w.getThreadHandler memory t = .ok (h, w₁) ∧
      ((w₁.gcThread ≠ 0 ∧ w' = w₁.waitAt t h site) ∨
        (w₁.gcThread = 0 ∧ (w₁.enterSafepoint h).resume t h site = .ok w')) := by
  rcases bind_ok ran with ⟨⟨h, w₁⟩, found, rest⟩
  simp only at rest
  refine ⟨h, w₁, found, ?_⟩
  split at rest
  next busy =>
    cases rest
    exact Or.inl ⟨busy, rfl⟩
  next idle => exact Or.inr ⟨Decidable.not_not.mp idle, rest⟩

theorem threadJoin_ok (ran : w.threadJoin memory t u = .ok w') :
    ∃ h w₁, w.getThreadHandler memory t = .ok (h, w₁) ∧
      w' = (if w₁.gcThread ≠ 0 then (w₁.enterSafepoint h).signal
        else w₁.enterSafepoint h).setPlace t (.joining h u) := by
  rcases bind_ok ran with ⟨⟨h, w₁⟩, found, rest⟩
  cases rest
  exact ⟨h, w₁, found, rfl⟩

theorem gcPtr_effect (place : w.place t = .running ∨ w.place t = .unwinding)
    (ran : w.gcPtr memory t = .ok w') : Effect memory w t .gcPtr w' := by
  rcases bind_ok ran with ⟨⟨h, w₁⟩, found, rest⟩
  cases rest
  exact Effect.lookup _ place found

theorem safepoint_effect (place : w.place t = .atSafepoint)
    (ran : w.withoutGcBefore memory t .safepoint = .ok w') : Effect memory w t .safepoint w' := by
  rcases withoutGcBefore_ok ran with ⟨h, w₁, found, ⟨busy, rfl⟩ | ⟨idle, rest⟩⟩
  · exact Effect.wait (Waits.safepoint place) found busy
  · cases rest
    exact Effect.pass place found idle

theorem remove_effect {removal : Removal} (place : w.place t = .running)
    (ran : w.withoutGcBefore memory t (.remove removal) = .ok w') :
    Effect memory w t (.remove removal) w' := by
  rcases withoutGcBefore_ok ran with ⟨h, w₁, found, ⟨busy, rfl⟩ | ⟨idle, rest⟩⟩
  · exact Effect.wait (Waits.remove place) found busy
  · exact Effect.remove place found idle rest

theorem wake_effect {site : Site} (place : w.place t = .waiting site h true)
    (ran : w.resume t h site = .ok w') : Effect memory w t .wake w' := by
  cases site with
  | gc =>
      cases ran
      exact Effect.wake place (Or.inl rfl)
  | safepoint =>
      cases ran
      exact Effect.wake place (Or.inr rfl)
  | remove removal => exact Effect.wakeRemove place ran
  | start =>
      cases ran
      exact Effect.wakeStart place

theorem start_effect (place : w.place t = .prepared h) (ran : w.startRoutine t h = .ok w') :
    Effect memory w t .start w' := by
  rw [World.startRoutine] at ran
  split at ran
  next busy =>
    cases ran
    exact Effect.startWait place busy
  next idle =>
    cases ran
    exact Effect.start place (Decidable.not_not.mp idle)

/-- A step that completes has one of the effects. -/
theorem step_effect {action : Action} (stepped : step memory w t action = some (.ok w')) :
    Effect memory w t action w' := by
  unfold step at stepped
  split at stepped
  case h_1 full place => exact gc_effect place (Option.some.inj stepped)
  case h_2 place => exact gcPtr_effect (Or.inl place) (Option.some.inj stepped)
  case h_3 place => exact gcPtr_effect (Or.inr place) (Option.some.inj stepped)
  case h_4 place =>
    split at stepped
    next =>
      cases stepped
      exact Effect.read place
    next =>
      cases stepped
      exact Effect.stay _
  case h_5 place => exact safepoint_effect place (Option.some.inj stepped)
  case h_6 removal place =>
    split at stepped
    next => cases stepped
    next => exact remove_effect place (Option.some.inj stepped)
  case h_7 site h place => exact wake_effect place (Option.some.inj stepped)
  case h_8 c place => exact Effect.goOn place (Option.some.inj stepped)
  case h_9 h place =>
    cases stepped
    exact Effect.prepare place
  case h_10 h place => exact start_effect place (Option.some.inj stepped)
  case h_11 u place =>
    split at stepped
    next absent =>
      cases stepped
      exact Effect.create place absent
    next => cases stepped
  case h_12 u place =>
    rcases threadJoin_ok (Option.some.inj stepped) with ⟨h, w₁, found, rfl⟩
    exact Effect.join place found
  case h_13 h u place =>
    split at stepped
    next ended =>
      cases stepped
      exact Effect.joined place ended
    next => cases stepped
  case h_14 h removal place =>
    cases stepped
    exact Effect.free place
  case h_15 place =>
    cases stepped
    exact Effect.enterNew place
  case h_16 place =>
    split at stepped
    next nested =>
      cases stepped
      exact Effect.leaveNew place nested
    next => cases stepped
  case h_17 place =>
    split at stepped
    next cancelled =>
      cases stepped
      exact Effect.unwind (Or.inl place) cancelled
    next => cases stepped
  case h_18 h u place =>
    split at stepped
    next cancelled =>
      cases stepped
      exact Effect.unwind (Or.inr ⟨h, u, place⟩) cancelled
    next => cases stepped
  case h_19 place =>
    cases stepped
    exact Effect.finish place
  case h_20 => cases stepped

theorem World.collect_ok {c : Collection} (ran : w.collect t c = .ok w') :
    ∃ cursor scanned, w.scan (w.used.length + 1) c.cursor c.scanned = .ok (cursor, scanned) ∧
      ((cursor = 0 ∧
          w' = w.endCollection t { c with cursor := cursor, scanned := scanned }) ∨
        (cursor ≠ 0 ∧
          w' = w.setPlace t
            (.collecting { c with cursor := cursor, scanned := scanned } false))) := by
  rcases bind_ok ran with ⟨⟨cursor, scanned⟩, scannedTo, rest⟩
  refine ⟨cursor, scanned, scannedTo, ?_⟩
  simp only at rest
  split at rest
  next done =>
    cases rest
    exact Or.inl ⟨done, rfl⟩
  next blocked =>
    cases rest
    exact Or.inr ⟨blocked, rfl⟩

/-- How a step of thread `t` changes the list of handlers. -/
inductive Relisting (w : World) (t : Nat) (action : Action) (threads : List Nat) :
    List Nat → Prop where
  | kept : Relisting w t action threads threads
  | first {threads' : List Nat} (empty : threads = []) (nonempty : threads' ≠ []) :
      Relisting w t action threads threads'
  | linked {h : Nat}
      (entering : w.gcThread = 0 ∨ (action = .wake ∧ w.place t = .waiting .start h true)) :
      Relisting w t action threads (h :: threads)
  | unlinked {front back : List Nat} {h : Nat} (split : threads = front ++ h :: back)
      (remaining : front ++ back ≠ [])
      (leaving : w.gcThread = 0 ∨
        (action = .wake ∧ ∃ removal g, w.place t = .waiting (.remove removal) g true)) :
      Relisting w t action threads (front ++ back)

theorem Relisting.nonempty {action : Action} {threads' : List Nat}
    (relisting : Relisting w t action threads threads') (before : threads ≠ []) :
    threads' ≠ [] := by
  cases relisting with
  | kept => exact before
  | first empty nonempty => exact nonempty
  | linked entering => simp
  | unlinked split remaining leaving => exact remaining

namespace Registry

/-- A thread in its routine goes on without a handler of its own off the lists. -/
theorem proceed {place : Place} (registry : Registry w threads free)
    (started : (w.place t).started = true) (goesOn : place.started = true)
    (pending : place.pending = none)
    (stopped : ∀ h, place.stoppedAt = some h →
      (w.place t).stoppedAt = some h ∨ (h ∈ threads ∧ w.thread h = t)) :
    Registry (w.setPlace t place) threads free := by
  apply registry.setPlace
  case pending => exact Or.inl pending
  case ready =>
    intro h isReady
    rw [Place.not_ready_of_started goesOn] at isReady
    cases isReady
  case started => rw [started, goesOn]
  case absent =>
    constructor
    · rintro rfl
      cases goesOn
    · intro absent
      rw [absent] at started
      cases started
  case stopped => exact stopped
  case cancelling =>
    rintro h u rfl
    cases pending

/-- Fields that the registry does not mention. -/
theorem unrelated (registry : Registry w threads free) (gcThread : Nat) (nesting : Nat → Nat)
    (sweeps : List Sweep) :
    Registry { w with gcThread := gcThread, nesting := nesting, sweeps := sweeps } threads free :=
  { registry with }

theorem leave (registry : Registry w threads free) (started : (w.place t).started = true) :
    Registry (w.leave t h) threads free :=
  registry.exitSafepoint.proceed (by simpa using started) rfl rfl (by simp [Place.stoppedAt])

theorem collect {c : Collection} (registry : Registry w threads free)
    (started : (w.place t).started = true)
    (own : (w.place t).stoppedAt = some c.handler ∨ (c.handler ∈ threads ∧ w.thread c.handler = t))
    (ran : w.collect t c = .ok w') : Registry w' threads free := by
  rcases World.collect_ok ran with ⟨cursor, scanned, -, ⟨-, rfl⟩ | ⟨-, rfl⟩⟩
  · exact (registry.unrelated 0 w.nesting _).exitSafepoint.broadcast.proceed
      (by simpa using started)
      rfl rfl (by simp [Place.stoppedAt])
  · apply registry.proceed started rfl rfl
    rintro h ⟨⟩
    exact own

/-- What a running thread gets from `get_thread_handler`. -/
structure Looked (w : World) (t : Nat) (threads : List Nat) (w₁ : World) (h : Nat)
    (threads' free' : List Nat) : Prop where
  registry : Registry w₁ threads' free'
  listed : h ∈ threads'
  owned : w₁.thread h = t
  started : (w₁.place t).started = true
  gcThread : w₁.gcThread = w.gcThread
  unchanged : (w₁ = w ∧ threads' = threads) ∨
    (threads = [] ∧ ∀ g ∈ threads', (w₁.handlers g).inSafepoint = false)

theorem looked {w₁ : World} (registry : Registry w threads free)
    (started : (w.place t).started = true)
    (found : w.getThreadHandler memory t = .ok (h, w₁)) :
    ∃ threads' free', Looked w t threads w₁ h threads' free' := by
  have present : w.place t ≠ .absent := by
    intro absent
    rw [absent] at started
    cases started
  rcases registry.lookup present found with ⟨threads', free', registry₁, listed, owned, unchanged⟩
  rcases World.getThreadHandler_enrolled found with ⟨_, _, _, _, rfl, -⟩
  exact ⟨threads', free', registry₁, listed, owned, started, rfl, unchanged⟩

theorem Looked.relisting {w₁ : World} {threads' free' : List Nat}
    (looked : Looked w t threads w₁ h threads' free') (action : Action) :
    Relisting w t action threads threads' := by
  rcases looked.unchanged with ⟨-, rfl⟩ | ⟨empty, -⟩
  · exact Relisting.kept
  · exact Relisting.first empty (List.ne_nil_of_mem looked.listed)

theorem threadCreate (registry : Registry w threads free) (present : w.place t ≠ .absent)
    (absent : w.place u = .absent) (action : Action) :
    ∃ threads' free', Registry (w.threadCreate memory t u) threads' free' ∧
      Relisting w t action threads threads' := by
  obtain ⟨threads', free', nonempty, enrolled, unchanged⟩ :=
    registry.enrol memory present
  have stillAbsent : (if w.firstThread = 0 then w.createFirstHandler memory t else w).place u =
      .absent := by
    split
    next =>
      obtain ⟨_, _, _, _, same, -⟩ :=
        w.createFirstHandler_enrolled memory t
      rw [same]
      exact absent
    next => exact absent
  rcases enrolled.create memory nonempty stillAbsent with ⟨free'', created, -⟩
  refine ⟨threads', free'', created, ?_⟩
  rcases unchanged with ⟨-, rfl⟩ | ⟨empty, -⟩
  · exact Relisting.kept
  · exact Relisting.first empty nonempty

/-- The end of `remove_thread` after a lookup. -/
theorem unlinkLooked {w₁ : World} {threads' free' : List Nat} {removal : Removal}
    (looked : Looked w t threads w₁ h threads' free') (idle : w₁.gcThread = 0)
    (unlinked : ((w₁.enterSafepoint h).exitSafepoint h).unlink t removal = .ok w')
    (action : Action) :
    ∃ threads'' free'', Registry w' threads'' free'' ∧ Relisting w t action threads threads'' := by
  obtain ⟨front, g, back, rfl, -, remaining, registry'⟩ :=
    looked.registry.enterSafepoint.exitSafepoint.unlink
    (by simpa using looked.started) unlinked
  refine ⟨_, _, registry', ?_⟩
  rcases looked.unchanged with ⟨-, rfl⟩ | ⟨empty, -⟩
  · exact Relisting.unlinked rfl remaining (Or.inl (looked.gcThread ▸ idle))
  · exact Relisting.first empty remaining

/-- Every step keeps the registry. -/
theorem step {action : Action} (registry : Registry w threads free)
    (effect : Effect memory w t action w') :
    ∃ threads' free', Registry w' threads' free' ∧ Relisting w t action threads threads' := by
  have kept : ∀ {v : World}, Registry v threads free → ∃ threads' free',
      Registry v threads' free' ∧ Relisting w t action threads threads' :=
    fun registry' => ⟨_, _, registry', Relisting.kept⟩
  have startedAt : ∀ {place : Place}, w.place t = place → place.started = true →
      (w.place t).started = true := fun same started => by rw [same, started]
  cases effect with
  | stay => exact kept registry
  | lookup _ place found =>
      have started : (w.place t).started = true := by rcases place
        with place | place <;> rw [place] <;> rfl
      rcases registry.looked started found with ⟨threads', free', looked⟩
      exact ⟨threads', free', looked.registry, looked.relisting _⟩
  | @wait w₁ h _ site waits found busy =>
      have started : (w.place t).started = true := by
        cases waits with
        | gc place => exact startedAt place rfl
        | safepoint place => exact startedAt place rfl
        | remove place => exact startedAt place rfl
      rcases registry.looked started found with ⟨threads', free', looked⟩
      refine ⟨threads', free', ?_, looked.relisting _⟩
      apply looked.registry.enterSafepoint.signal.proceed
      · simpa using looked.started
      · cases waits <;> rfl
      · cases waits <;> rfl
      · intro g isStopped
        obtain rfl : h = g := by cases waits <;> simpa [Place.stoppedAt] using isStopped
        exact Or.inr ⟨looked.listed, by simpa [World.thread] using looked.owned⟩
  | begin place flat found idle collected =>
      rcases registry.looked (startedAt place rfl) found with ⟨threads', free', looked⟩
      refine ⟨threads', free', ?_, looked.relisting _⟩
      refine (looked.registry.enterSafepoint.unrelated _ _ _).collect ?_ ?_ collected
      · simpa using looked.started
      · exact Or.inr ⟨looked.listed, by simpa [World.thread] using looked.owned⟩
  | goOn place collected =>
      apply kept
      apply registry.collect (startedAt place rfl) _ collected
      rw [place]
      exact Or.inl rfl
  | pass place found idle =>
      rcases registry.looked (startedAt place rfl) found with ⟨threads', free', looked⟩
      exact ⟨threads', free', looked.registry.enterSafepoint.leave (by simpa using looked.started),
        looked.relisting _⟩
  | remove place found idle unlinked =>
      rcases registry.looked (startedAt place rfl) found with ⟨threads', free', looked⟩
      exact unlinkLooked looked idle unlinked _
  | wake place sort =>
      apply kept
      apply registry.leave
      rcases sort with rfl | rfl <;> exact startedAt place rfl
  | wakeRemove place unlinked =>
      obtain ⟨front, g, back, split, -, remaining, registry'⟩ := registry.exitSafepoint.unlink
        (by simpa using startedAt place rfl) unlinked
      exact ⟨_, _, registry', Relisting.unlinked split remaining (Or.inr ⟨rfl, _, _, place⟩)⟩
  | wakeStart place =>
      refine ⟨_, _, registry.link ?_, Relisting.linked (Or.inr ⟨rfl, place⟩)⟩
      rw [place]
      rfl
  | read place =>
      exact kept (registry.proceed (startedAt place rfl) rfl rfl (by simp [Place.stoppedAt]))
  | prepare place => exact kept (registry.prepare place)
  | startWait place busy =>
      apply kept
      apply registry.setPlace
      case pending =>
        right
        rw [place]
        rfl
      case ready =>
        rintro g ⟨⟩
        apply registry.ready
        rw [place]
        rfl
      all_goals simp [place, Place.started, Place.stoppedAt]
  | start place idle =>
      refine ⟨_, _, registry.link ?_, Relisting.linked (Or.inl idle)⟩
      rw [place]
      rfl
  | create place absent => exact registry.threadCreate (by simp [place]) absent _
  | @join w₁ h u place found =>
      rcases registry.looked (startedAt place rfl) found with ⟨threads', free', looked⟩
      refine ⟨threads', free', ?_, looked.relisting _⟩
      apply Registry.proceed _ _ rfl rfl
      · rintro g ⟨⟩
        refine Or.inr ⟨looked.listed, ?_⟩
        split <;> simpa [World.thread] using looked.owned
      · split
        next => exact looked.registry.enterSafepoint.signal
        next => exact looked.registry.enterSafepoint
      · split <;> simpa using looked.started
  | joined place ended => exact kept (registry.leave (startedAt place rfl))
  | free place => exact ⟨_, _, registry.release place, Relisting.kept⟩
  | enterNew place => exact kept (registry.unrelated w.gcThread _ w.sweeps)
  | leaveNew place => exact kept (registry.unrelated w.gcThread _ w.sweeps)
  | unwind place cancelled =>
      apply kept
      apply registry.proceed _ rfl rfl (by simp [Place.stoppedAt])
      rcases place with place | ⟨_, _, place⟩ <;> exact startedAt place rfl
  | finish place =>
      exact kept (registry.proceed (startedAt place rfl) rfl rfl (by simp [Place.stoppedAt]))

end Registry

/-- The links determine the list. -/
theorem Registry.threads_eq {threads' free' : List Nat} (registry : Registry w threads free)
    (registry' : Registry w' threads' free') (links : ∀ h ∈ threads, w'.next h = w.next h)
    (first : w'.firstThread = w.firstThread) : threads' = threads := by
  have chain := registry.listed.congr links
  rw [← first] at chain
  exact registry'.listed.unique chain

theorem Registry.relisting {action : Action} {threads' free' : List Nat}
    (registry : Registry w threads free) (effect : Effect memory w t action w')
    (registry' : Registry w' threads' free') : Relisting w t action threads threads' := by
  rcases registry.step effect with ⟨threads'', free'', registry'', relisting⟩
  rwa [registry''.threads_eq registry' (fun _ _ => rfl) rfl]

/-- The rule for invariants of the states that runs reach. -/
theorem runs_invariant {allowed : World → Nat → Action → Prop} {holds : World → Prop}
    (reached : Runs memory allowed (.ok w)) (initially : ∀ t, holds (World.initial t))
    (preserved : ∀ {w t action w'}, holds w → allowed w t action → Effect memory w t action w' →
      holds w') : holds w := by
  have all : ∀ v, (Except.ok w : Except Fault World) = .ok v → holds v := by
    refine @Foundation.Reachable.invariant _ _ _ _
      (fun state => ∀ v, state = .ok v → holds v) reached
      ?_ ?_
    · intro state isInitial v same
      rcases isInitial with ⟨t, rfl⟩
      cases same
      exact initially t
    · intro state next invariant stepped v same
      rcases stepped with ⟨permitted, ran⟩
      subst same
      exact preserved (invariant _ rfl) permitted (step_effect ran)
  exact all w rfl

/-- In every run the lists of handlers fit the threads. -/
theorem runs_registry {allowed : World → Nat → Action → Prop}
    (reached : Runs memory allowed (.ok w)) : ∃ threads free, Registry w threads free := by
  apply runs_invariant reached
  · exact fun t => ⟨[], [], Registry.initial t⟩
  · rintro w t action w' ⟨threads, free, registry⟩ _ effect
    rcases registry.step effect with ⟨threads', free', registry', -⟩
    exact ⟨threads', free', registry'⟩

end PreciseGc.Threads

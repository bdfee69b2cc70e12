import PreciseGc.Threads.WakeUps

/-!
# What a set flag means

The flag of a handler on the list is set only while its thread waits, collects or
joins with this handler.
-/

namespace PreciseGc.Threads

open Foundation Function

variable {memory : HandlerMemory} {w w' : World} {threads free threads' free' : List Nat}
  {t u g h : Nat}

/-- A set flag on the list belongs to a stopped thread. -/
structure Flagged (w : World) (threads : List Nat) : Prop where
  stopped : ∀ h ∈ threads, (w.handlers h).inSafepoint = true →
    (w.place (w.thread h)).stoppedAt ≠ none
  ready : ∀ t h, (w.place t).ready = some h → (w.handlers h).inSafepoint = false

namespace Flagged

theorem initial (t : Nat) : Flagged (World.initial t) [] := by
  constructor <;> simp [World.initial]

theorem stoppedAt (flagged : Flagged w threads) (registry : Registry w threads free)
    (listed : h ∈ threads) (isSet : (w.handlers h).inSafepoint = true) :
    (w.place (w.thread h)).stoppedAt = some h := by
  rcases Option.ne_none_iff_exists'.mp (flagged.stopped h listed isSet) with ⟨g, isStopped⟩
  rw [isStopped, registry.stopped h listed g isStopped]

/-- No flag is set, no handler is linked, and the thread of a set flag stays where it is. -/
theorem transport (flagged : Flagged w threads)
    (listed : ∀ g ∈ threads', g ∈ threads) (owners : ∀ g ∈ threads, w'.thread g = w.thread g)
    (flags : ∀ g, (w'.handlers g).inSafepoint = true → (w.handlers g).inSafepoint = true)
    (places : ∀ g ∈ threads', (w'.handlers g).inSafepoint = true →
      (w.place (w.thread g)).stoppedAt ≠ none → (w'.place (w.thread g)).stoppedAt ≠ none)
    (ready : ∀ u g, (w'.place u).ready = some g →
      (w.place u).ready = some g ∨ (w'.handlers g).inSafepoint = false) :
    Flagged w' threads' := by
  constructor
  case stopped =>
    intro g mem isSet
    rw [owners g (listed g mem)]
    exact places g mem isSet (flagged.stopped g (listed g mem) (flags g isSet))
  case ready =>
    intro u g isReady
    rcases ready u g isReady with before | clear
    · have clear := flagged.ready u g before
      by_contra isSet
      have isSetBefore := flags g (by simpa using isSet)
      rw [clear] at isSetBefore
      cases isSetBefore
    · exact clear

/-- Going on from a safepoint whose flag has been cleared. -/
theorem leave (flagged : Flagged w threads) (own : ∀ g ∈ threads, w.thread g = t → g = h) :
    Flagged (w.leave t h) threads := by
  apply flagged.transport (fun _ mem => mem)
  · intro g _
    simp [World.leave, World.thread]
    by_cases same : g = h <;> simp [same]
  · intro g isSet
    by_cases same : g = h
    · simp [World.leave, same] at isSet
    · simpa [World.leave, same] using isSet
  · intro g mem isSet wasStopped
    by_cases isHere : w.thread g = t
    · have same := own g mem isHere
      simp [World.leave, same] at isSet
    · simpa [World.leave, isHere] using wasStopped
  · intro u g isReady
    by_cases isHere : u = t
    · simp [World.leave, isHere, Place.ready] at isReady
    · left
      simpa [World.leave, isHere] using isReady

/-- A thread that is not stopped moves. -/
theorem move {place : Place} (flagged : Flagged w threads)
    (notStopped : (w.place t).stoppedAt = none ∨ place.stoppedAt ≠ none)
    (ready : ∀ g, place.ready = some g → (w.place t).ready = some g) :
    Flagged (w.setPlace t place) threads := by
  refine flagged.transport (fun _ mem => mem) (fun _ _ => rfl) (fun _ isSet => isSet)
    (fun g mem isSet wasStopped => ?_) fun u g isReady => ?_
  · by_cases isHere : w.thread g = t
    · rcases notStopped with none | still
      · rw [isHere] at wasStopped
        exact absurd none wasStopped
      · simpa [isHere] using still
    · simpa [isHere] using wasStopped
  · left
    by_cases isHere : u = t
    · subst isHere
      exact ready g (by simpa using isReady)
    · simpa [isHere] using isReady

/-- A thread sets the flag of its own handler and stops. -/
theorem enter {v : World} {place : Place} (flagged : Flagged w threads)
    (registry : Registry w threads free) (listed : h ∈ threads) (owned : w.thread h = t)
    (handlers : ∀ g, v.handlers g = (w.enterSafepoint h).handlers g)
    (places : ∀ u, (v.place u).stoppedAt = (w.place u).stoppedAt ∧
      (v.place u).ready = (w.place u).ready)
    (stops : place.stoppedAt = some h) (notReady : place.ready = none) :
    Flagged (v.setPlace t place) threads := by
  have owners : ∀ g, v.thread g = w.thread g := by
    intro g
    rw [World.thread, handlers]
    exact World.enterSafepoint_thread g
  constructor
  case stopped =>
    intro g mem isSet
    change ((v.setPlace t place).place (v.thread g)).stoppedAt ≠ none
    rw [owners]
    by_cases isHere : w.thread g = t
    · simp [isHere, stops]
    · have other : g ≠ h := by
        rintro rfl
        exact isHere owned
      have wasSet : (w.handlers g).inSafepoint = true := by
        simpa [handlers, other] using isSet
      have wasStopped := flagged.stopped g mem wasSet
      simpa [isHere, places] using wasStopped
  case ready =>
    intro u g isReady
    by_cases isHere : u = t
    · simp [isHere, notReady] at isReady
    · have wasReady : (w.place u).ready = some g := by simpa [isHere, places] using isReady
      have other : g ≠ h := by
        rintro rfl
        exact (registry.pending u g (Place.pending_of_ready wasReady)).2.2
          (List.mem_append_left _ listed)
      have clear := flagged.ready u g wasReady
      simpa [handlers, other] using clear

/-- A safepoint that is passed at once sets no flag. -/
theorem enterExit (flagged : Flagged w threads) :
    Flagged ((w.enterSafepoint h).exitSafepoint h) threads := by
  refine flagged.transport (fun _ mem => mem) (fun g _ => by simp) (fun g isSet => ?_)
    (fun _ _ _ wasStopped => wasStopped) fun _ _ isReady => Or.inl isReady
  by_cases same : g = h
  · simp [same] at isSet
  · simpa [same] using isSet

theorem exit (flagged : Flagged w threads) : Flagged (w.exitSafepoint h) threads := by
  refine flagged.transport (fun _ mem => mem) (fun g _ => by simp) (fun g isSet => ?_)
    (fun _ _ _ wasStopped => wasStopped) fun _ _ isReady => Or.inl isReady
  by_cases same : g = h
  · simp [same] at isSet
  · simpa [same] using isSet

theorem enrolled (flagged : Flagged w threads) (enrolled : w.Enrolled w')
    (unchanged : (w' = w ∧ threads' = threads) ∨
      (threads = [] ∧ ∀ g ∈ threads', (w'.handlers g).inSafepoint = false)) :
    Flagged w' threads' := by
  rcases unchanged with ⟨rfl, rfl⟩ | ⟨-, clear⟩
  · exact flagged
  · rcases enrolled with ⟨_, _, _, _, rfl, flags⟩
    constructor
    case stopped =>
      intro g mem isSet
      rw [clear g mem] at isSet
      cases isSet
    case ready =>
      intro u g isReady
      have wasClear := flagged.ready u g isReady
      by_contra isSet
      have wasSet := flags g (by simpa using isSet)
      rw [wasClear] at wasSet
      cases wasSet

theorem looked {w₁ : World} (flagged : Flagged w threads)
    (found : w.getThreadHandler memory t = .ok (h, w₁))
    (looked : Registry.Looked w t threads w₁ h threads' free') : Flagged w₁ threads' :=
  flagged.enrolled (World.getThreadHandler_enrolled found) looked.unchanged

end Flagged

namespace Flagged

/-- The collector clears its own flag at the end, and is stopped before. -/
theorem collect {c : Collection}
    (others : ∀ g ∈ threads, (w.handlers g).inSafepoint = true →
      w.thread g = t ∨ (w.place (w.thread g)).stoppedAt ≠ none)
    (ready : ∀ u g, (w.place u).ready = some g → (w.handlers g).inSafepoint = false)
    (own : ∀ g ∈ threads, w.thread g = t → g = c.handler)
    (ran : w.collect t c = .ok w') : Flagged w' threads := by
  rcases World.collect_ok ran with ⟨cursor, scanned, -, ⟨-, rfl⟩ | ⟨-, rfl⟩⟩
  · have owners : ∀ g, (w.endCollection t { c with cursor, scanned }).thread g = w.thread g := by
      intro g
      by_cases same : g = c.handler <;> simp [World.endCollection, World.thread, same]
    have flags : ∀ g, ((w.endCollection t { c with cursor, scanned }).handlers g).inSafepoint =
        true → g ≠ c.handler ∧ (w.handlers g).inSafepoint = true := by
      intro g isSet
      by_cases same : g = c.handler
      · simp [World.endCollection, same] at isSet
      · exact ⟨same, by simpa [World.endCollection, same] using isSet⟩
    constructor
    case stopped =>
      intro g mem isSet
      rcases flags g isSet with ⟨other, wasSet⟩
      rw [owners]
      rcases others g mem wasSet with isHere | wasStopped
      · exact absurd (own g mem isHere) other
      · have notHere : w.thread g ≠ t := fun isHere => other (own g mem isHere)
        simpa [World.endCollection, notHere] using wasStopped
    case ready =>
      intro u g isReady
      by_cases isHere : u = t
      · simp [World.endCollection, isHere, Place.ready] at isReady
      · have clear := ready u g (by simpa [World.endCollection, isHere] using isReady)
        by_contra isSet
        have wasSet := (flags g (by simpa using isSet)).2
        rw [clear] at wasSet
        cases wasSet
  · constructor
    case stopped =>
      intro g mem isSet
      change ((w.setPlace t _).place (w.thread g)).stoppedAt ≠ none
      by_cases isHere : w.thread g = t
      · simp [isHere, Place.stoppedAt]
      · rcases others g mem isSet with absent | wasStopped
        · exact absurd absent isHere
        · simpa [isHere] using wasStopped
    case ready =>
      intro u g isReady
      by_cases isHere : u = t
      · simp [isHere, Place.ready] at isReady
      · exact ready u g (by simpa [isHere] using isReady)

theorem unlink {removal : Removal} (flagged : Flagged w threads)
    (registry : Registry w threads free) (registry' : Registry w' threads' free')
    (started : (w.place t).started = true)
    (clear : ∀ g ∈ threads, w.thread g = t → (w.handlers g).inSafepoint = false)
    (unlinked : w.unlink t removal = .ok w') : Flagged w' threads' := by
  rcases registry.unlink started unlinked with ⟨front, h, back, rfl, -, -, registry''⟩
  rcases registry''.threads_eq registry' (fun _ _ => rfl) rfl with rfl
  rcases World.unlink_ok unlinked with ⟨prev, curr, -, -, rfl⟩
  rcases w.bypass_eq prev curr with ⟨handlers, firstThread, same, fields⟩
  rw [same]
  have sublist : ∀ g ∈ front ++ back, g ∈ front ++ h :: back := by
    intro g mem
    rcases List.mem_append.mp mem with inFront | inBack
    · simp [inFront]
    · simp [inBack]
  have flags : ∀ g, (handlers g).inSafepoint = true → (w.handlers g).inSafepoint = true :=
    fun g isSet => (fields g).2.1 ▸ isSet
  refine flagged.transport sublist (fun g _ => (fields g).1) flags
    (fun g mem isSet wasStopped => ?_) fun u g isReady => ?_
  · by_cases isHere : w.thread g = t
    · have wasClear := clear g (sublist g mem) isHere
      rw [flags g isSet] at wasClear
      cases wasClear
    · simpa [World.endRemoval, isHere] using wasStopped
  · left
    by_cases isHere : u = t
    · simp [World.endRemoval, isHere, Place.ready] at isReady
    · simpa [World.endRemoval, isHere] using isReady

theorem link (flagged : Flagged w threads) (registry : Registry w threads free)
    (ready : (w.place t).ready = some h) : Flagged (w.link t h) (h :: threads) := by
  have owned := registry.ready t h ready
  have loose := (registry.pending t h (Place.pending_of_ready ready)).2.2
  have owners : ∀ g, (w.link t h).thread g = w.thread g := by
    intro g
    by_cases same : g = h <;> simp [World.link, World.thread, same]
  have flags : ∀ g, ((w.link t h).handlers g).inSafepoint = (w.handlers g).inSafepoint := by
    intro g
    by_cases same : g = h <;> simp [World.link, same]
  constructor
  case stopped =>
    intro g mem isSet
    rw [flags] at isSet
    rw [owners]
    rcases List.mem_cons.mp mem with rfl | later
    · rw [flagged.ready t g ready] at isSet
      cases isSet
    · have wasStopped := flagged.stopped g later isSet
      have other : w.thread g ≠ t := by
        intro isHere
        have started := (registry.owner g later).1
        rw [isHere, Place.not_started_of_ready ready] at started
        cases started
      simpa [World.link, other] using wasStopped
  case ready =>
    intro u g isReady
    rw [flags]
    by_cases isHere : u = t
    · simp [World.link, isHere, Place.ready] at isReady
    · exact flagged.ready u g (by simpa [World.link, isHere] using isReady)

/-- A new handler changes no flag. -/
theorem create (flagged : Flagged w threads)
    (absent : w.place u = .absent) :
    Flagged ((w.newThreadHandler memory).2.setPlace u (.created (w.newThreadHandler memory).1))
      threads := by
  rcases w.newThreadHandler_recycled memory with ⟨handlers, freeList, used, same, fields⟩
  generalize (w.newThreadHandler memory).1 = h
  rw [same]
  refine flagged.transport (fun _ mem => mem) (fun g _ => (fields g).1)
    (fun g isSet => (fields g).2 ▸ isSet) (fun g mem isSet wasStopped => ?_) fun v g isReady => ?_
  · by_cases isNew : w.thread g = u
    · rw [isNew, absent] at wasStopped
      exact absurd rfl wasStopped
    · simpa [isNew] using wasStopped
  · left
    by_cases isNew : v = u
    · simp [isNew, Place.ready] at isReady
    · simpa [isNew] using isReady

/-- A free handler keeps its flag. -/
theorem release {removal : Removal} (flagged : Flagged w threads)
    (place : w.place t = .freeing h removal) : Flagged (w.free t h removal) threads := by
  have pushed : Flagged (w.pushFree h) threads := by
    refine flagged.transport (fun _ mem => mem) (fun g _ => ?_) (fun g isSet => ?_)
      (fun _ _ _ wasStopped => wasStopped) fun _ _ isReady => Or.inl isReady
    · by_cases same : g = h <;> simp [World.thread, same]
    · by_cases same : g = h
      · subst same
        simpa using isSet
      · simpa [same] using isSet
  have notStopped : ((w.pushFree h).place t).stoppedAt = none := by
    simp [place, Place.stoppedAt]
  cases removal with
  | finish => exact pushed.move (Or.inl notStopped) (by simp [Place.ready])
  | exit => exact pushed.move (Or.inl notStopped) (by simp [Place.ready])
  | cancel target =>
      have cancelled : Flagged { w.pushFree h with
          cancelled := update w.cancelled target true } threads := { pushed with }
      exact cancelled.move (Or.inl notStopped) (by simp [Place.ready])

/-- Every step keeps the meaning of the flags. -/
theorem step {action : Action} (flagged : Flagged w threads) (registry : Registry w threads free)
    (effect : Effect memory w t action w') (registry' : Registry w' threads' free') :
    Flagged w' threads' := by
  have startedAt : ∀ {place : Place}, w.place t = place → place.started = true →
      (w.place t).started = true := fun same started => by rw [same, started]
  have own : ∀ g, (w.place t).stoppedAt = some g → ∀ f ∈ threads, w.thread f = t → f = g := by
    intro g isStopped f mem owned
    exact (registry.stopped f mem g (by rw [owned]; exact isStopped)).symm
  have ownLooked : ∀ {w₁ : World} {h : Nat} {threads₁ free₁ : List Nat},
      Registry.Looked w t threads w₁ h threads₁ free₁ →
      ∀ f ∈ threads₁, w₁.thread f = t → f = h := by
    intro w₁ h threads₁ free₁ looked f mem owned
    exact looked.registry.ownerUnique f mem h looked.listed (owned.trans looked.owned.symm)
  cases effect with
  | stay =>
      rcases registry.threads_eq registry' (fun _ _ => rfl) rfl with rfl
      exact flagged
  | lookup _ place found =>
      have started : (w.place t).started = true := by
        rcases place with place | place <;> exact startedAt place rfl
      rcases registry.looked started found with ⟨threads₁, free₁, looked⟩
      rcases looked.registry.threads_eq registry' (fun _ _ => rfl) rfl with rfl
      exact flagged.looked found looked
  | @wait w₁ h _ site waits found busy =>
      have started : (w.place t).started = true := by
        cases waits with
        | gc place => exact startedAt place rfl
        | safepoint place => exact startedAt place rfl
        | remove place => exact startedAt place rfl
      rcases registry.looked started found with ⟨threads₁, free₁, looked⟩
      obtain rfl := looked.registry.threads_eq registry'
        (fun g _ => World.enterSafepoint_next g) rfl
      apply (flagged.looked found looked).enter looked.registry looked.listed looked.owned
      · exact fun _ => rfl
      · simp
      · cases waits <;> rfl
      · cases waits <;> rfl
  | @begin w₁ _ h full place flat found idle collected =>
      rcases registry.looked (startedAt place rfl) found with ⟨threads₁, free₁, looked⟩
      have flagged₁ := flagged.looked found looked
      have registry₂ : Registry w' threads₁ free₁ := by
        refine (looked.registry.enterSafepoint.unrelated _ _ _).collect ?_ ?_ collected
        · simpa using looked.started
        · exact Or.inr ⟨looked.listed, by simpa [World.thread] using looked.owned⟩
      rcases registry₂.threads_eq registry' (fun _ _ => rfl) rfl with rfl
      have owners : ∀ g, World.thread { w₁.enterSafepoint h with gcThread := h } g = w₁.thread g :=
        fun g => World.enterSafepoint_thread g
      refine Flagged.collect (fun g mem isSet => ?_) (fun u g isReady => ?_)
        (fun g mem owned => ?_) collected
      · rw [owners]
        by_cases same : g = h
        · left
          rw [same]
          exact looked.owned
        · right
          exact flagged₁.stopped g mem (by simpa [same] using isSet)
      · have other : g ≠ h := by
          rintro rfl
          exact (looked.registry.pending u g (Place.pending_of_ready isReady)).2.2
            (List.mem_append_left _ looked.listed)
        simpa [other] using flagged₁.ready u g isReady
      · exact ownLooked looked g mem (by rw [← owners]; exact owned)
  | @goOn _ c place collected =>
      have registry₂ : Registry w' threads free := by
        apply registry.collect (startedAt place rfl) _ collected
        rw [place]
        exact Or.inl rfl
      rcases registry₂.threads_eq registry' (fun _ _ => rfl) rfl with rfl
      apply Flagged.collect _ flagged.ready _ collected
      · exact fun g mem isSet => Or.inr (flagged.stopped g mem isSet)
      · exact own c.handler (by rw [place]; rfl)
  | @pass w₁ h place found idle =>
      rcases registry.looked (startedAt place rfl) found with ⟨threads₁, free₁, looked⟩
      have links : ∀ g, ((w₁.enterSafepoint h).leave t h).next g = w₁.next g := fun g =>
        (World.exitSafepoint_next g).trans (World.enterSafepoint_next g)
      rcases looked.registry.threads_eq registry' (fun g _ => links g) rfl with rfl
      apply (flagged.looked found looked).enterExit.move
      · left
        have samePlace := World.getThreadHandler_place found
        simp [samePlace, place, Place.stoppedAt]
      · simp [Place.ready]
  | @remove w₁ _ h removal place found idle unlinked =>
      rcases registry.looked (startedAt place rfl) found with ⟨threads₁, free₁, looked⟩
      apply (flagged.looked found looked).enterExit.unlink
        looked.registry.enterSafepoint.exitSafepoint registry' _ _ unlinked
      · simpa using looked.started
      · intro g mem owned
        have same := ownLooked looked g mem (by simpa using owned)
        simp [same]
  | @wake h site place sort =>
      rcases registry.threads_eq registry' (fun g _ => World.exitSafepoint_next g) rfl with rfl
      apply flagged.leave (own h _)
      rw [place]
      rcases sort with rfl | rfl <;> rfl
  | @wakeRemove _ h removal place unlinked =>
      apply flagged.exit.unlink registry.exitSafepoint registry' _ _ unlinked
      · simpa using startedAt place rfl
      · intro g mem owned
        have same := own h (by rw [place]; rfl) g mem (by simpa using owned)
        simp [same]
  | wakeStart place =>
      have ready := congrArg Place.ready place
      rcases (registry.link ready).threads_eq registry' (fun _ _ => rfl) rfl with rfl
      exact flagged.link registry ready
  | read place =>
      rcases registry.threads_eq registry' (fun _ _ => rfl) rfl with rfl
      exact flagged.move (Or.inl (by rw [place]; rfl)) (by simp [Place.ready])
  | @prepare h place =>
      have loose := registry.pending t h (by rw [place]; rfl)
      have others : ∀ g ∈ threads, g ≠ h := by
        rintro g mem rfl
        exact loose.2.2 (List.mem_append_left _ mem)
      have links : ∀ g ∈ threads, ((w.setHandler h
          { w.handlers h with thread := t, inSafepoint := false }).setPlace t
          (.prepared h)).next g = w.next g := by
        intro g mem
        simp [World.next, others g mem]
      rcases registry.threads_eq registry' links rfl with rfl
      refine flagged.transport (fun _ mem => mem) (fun g mem => ?_) (fun g isSet => ?_)
        (fun g mem isSet wasStopped => ?_) fun u g isReady => ?_
      · simp [World.thread, others g mem]
      · by_cases same : g = h
        · simp [same] at isSet
        · simpa [same] using isSet
      · by_cases isHere : w.thread g = t
        · rw [isHere, place] at wasStopped
          exact absurd rfl wasStopped
        · simpa [isHere] using wasStopped
      · by_cases isHere : u = t
        · right
          obtain rfl : h = g := by simpa [isHere, Place.ready] using isReady
          simp
        · left
          simpa [isHere] using isReady
  | startWait place busy =>
      rcases registry.threads_eq registry' (fun _ _ => rfl) rfl with rfl
      apply flagged.move
      · left
        rw [place]
        rfl
      · rw [place]
        exact fun _ isReady => isReady
  | start place idle =>
      have ready := congrArg Place.ready place
      rcases (registry.link ready).threads_eq registry' (fun _ _ => rfl) rfl with rfl
      exact flagged.link registry ready
  | @create u place absent =>
      have present : w.place t ≠ .absent := by simp [place]
      rcases registry.enrol memory present with ⟨threads₁, free₁, nonempty, enrolled, unchanged⟩
      have isEnrolled : w.Enrolled
        (if w.firstThread = 0 then w.createFirstHandler memory t else w) := by
        split
        next => exact w.createFirstHandler_enrolled memory t
        next => exact ⟨_, _, _, _, rfl, fun _ isSet => isSet⟩
      have flagged₁ := flagged.enrolled isEnrolled
        (unchanged.imp (fun same => ⟨if_neg same.1, same.2⟩) id)
      have stillAbsent : (if w.firstThread = 0 then w.createFirstHandler memory t else w).place u =
          .absent := by
        rcases isEnrolled with ⟨_, _, _, _, same, -⟩
        rw [same]
        exact absent
      rcases enrolled.create memory nonempty stillAbsent with ⟨free₂, created, -⟩
      rcases created.threads_eq registry' (fun _ _ => rfl) rfl with rfl
      exact flagged₁.create stillAbsent
  | @join w₁ h u place found =>
      rcases registry.looked (startedAt place rfl) found with ⟨threads₁, free₁, looked⟩
      have links : ∀ g, World.next ((if w₁.gcThread ≠ 0 then (w₁.enterSafepoint h).signal
          else w₁.enterSafepoint h).setPlace t (.joining h u)) g = w₁.next g := by
        intro g
        split <;> exact World.enterSafepoint_next g
      have first : ((if w₁.gcThread ≠ 0 then (w₁.enterSafepoint h).signal
          else w₁.enterSafepoint h).setPlace t (.joining h u)).firstThread = w₁.firstThread := by
        split <;> rfl
      rcases looked.registry.threads_eq registry' (fun g _ => links g) first with rfl
      apply (flagged.looked found looked).enter looked.registry looked.listed
        looked.owned _ _ rfl rfl
      · intro g
        split <;> rfl
      · intro v
        split <;> simp
  | @joined h u place ended =>
      rcases registry.threads_eq registry' (fun g _ => World.exitSafepoint_next g) rfl with rfl
      apply flagged.leave (own h _)
      rw [place]
      rfl
  | free place =>
      rcases (registry.release place).threads_eq registry' (fun _ _ => rfl) rfl with rfl
      exact flagged.release place
  | enterNew place =>
      rcases registry.threads_eq registry' (fun _ _ => rfl) rfl with rfl
      exact { flagged with }
  | leaveNew place =>
      rcases registry.threads_eq registry' (fun _ _ => rfl) rfl with rfl
      exact { flagged with }
  | unwind place cancelled =>
      rcases registry.threads_eq registry' (fun _ _ => rfl) rfl with rfl
      have isRemoved := registry.cancelled t cancelled
      refine flagged.transport (fun _ mem => mem) (fun _ _ => rfl) (fun _ isSet => isSet)
        (fun g mem _ wasStopped => ?_) fun u g isReady => Or.inl ?_
      · have other : w.thread g ≠ t := by
          intro isHere
          have kept := (registry.owner g mem).2
          rw [isHere, isRemoved] at kept
          cases kept
        simpa [other] using wasStopped
      · by_cases isHere : u = t
        · simp [isHere, Place.ready] at isReady
        · simpa [isHere] using isReady
  | finish place =>
      rcases registry.threads_eq registry' (fun _ _ => rfl) rfl with rfl
      exact flagged.move (Or.inl (by rw [place]; rfl)) (by simp [Place.ready])

end Flagged

/-- In every run a set flag on the list belongs to a stopped thread. -/
theorem runs_flagged {allowed : World → Nat → Action → Prop}
    (reached : Runs memory allowed (.ok w)) (registry : Registry w threads free) :
    Flagged w threads := by
  have both : ∃ threads free, Registry w threads free ∧ Flagged w threads := by
    apply runs_invariant reached
    · intro t
      exact ⟨[], [], Registry.initial t, Flagged.initial t⟩
    · rintro w t action w' ⟨threads, free, registry, flagged⟩ _ effect
      rcases registry.step effect with ⟨threads', free', registry', -⟩
      exact ⟨threads', free', registry', flagged.step registry effect registry'⟩
  rcases both with ⟨threads', free', registry', flagged⟩
  rw [registry'.threads_eq registry (fun _ _ => rfl) rfl]
  exact flagged

end PreciseGc.Threads

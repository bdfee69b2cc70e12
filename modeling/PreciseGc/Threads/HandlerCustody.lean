import PreciseGc.Threads.HandlerPool

/-!
# Who holds a handler

The handler that a thread was given is on the list for as long as the thread is in its
routine, the handler that the collector waits for is on the list as well, and what is
on neither list is held by the thread that creates or removes it.  Cancellations apart,
a handler comes back to the free list when nobody has a use for it any more.
-/

namespace PreciseGc.Threads

open Foundation Function

variable {memory : HandlerMemory} {w w' : World} {threads free threads' free' : List Nat}
  {t u g h : Nat} {action : Action} {given : Nat → Option Nat}

/-- What the threads have to do with the handlers, in addition to the registry. -/
structure Pooled (w : World) (given : Nat → Option Nat) (threads free : List Nat) : Prop
    extends Registry w threads free where
  placed : ∀ h ∈ w.used, h ∈ threads ∨ h ∈ free ∨ ∃ t, (w.place t).pending = some h
  starting : ∀ t h, (w.place t).started = false → (w.place t).pending = some h → given t = some h
  routine : ∀ t h, given t = some h → (w.place t).inRoutine = true → h ∈ threads ∧ w.thread h = t
  leaving : ∀ t, w.removed t = true →
    (w.place t).stoppedAt = none ∧ (t = w.main ∨ (w.place t).inRoutine = false)
  collector : ∀ t c n, w.place t = .collecting c n → w.gcThread = c.handler ∧ c.cursor ∈ threads
  mainGiven : given w.main = none
  mainPresent : w.place w.main ≠ .absent

namespace Pooled

theorem initial (t : Nat) : Pooled (World.initial t) (fun _ => none) [] [] := by
  have place : ∀ u, (World.initial t).place u = .absent ∨ (World.initial t).place u = .running := by
    intro u
    by_cases same : u = t <;> simp [World.initial, same]
  constructor
  case toRegistry => exact Registry.initial t
  case starting =>
    intro u h _ isPending
    rcases place u with absent | running <;> simp_all [Place.pending]
  case collector =>
    intro u c n collecting
    rcases place u with absent | running <;> simp_all
  all_goals simp [World.initial]

theorem kept_of_stopped (pooled : Pooled w given threads free)
    (isStopped : (w.place t).stoppedAt ≠ none) : w.removed t = false :=
  Bool.eq_false_iff.mpr fun isRemoved => isStopped (pooled.leaving t isRemoved).1

/-- The handler of a thread in a safepoint is on the list. -/
theorem stopped_listed (pooled : Pooled w given threads free)
    (isStopped : (w.place t).stoppedAt = some h) : h ∈ threads ∧ w.thread h = t := by
  have kept := pooled.kept_of_stopped (t := t) (by simp [isStopped])
  have isStarted := Place.started_of_stoppedAt isStopped
  have nonempty : threads ≠ [] := by
    intro empty
    have present : w.place t ≠ .absent := by
      intro absent
      rw [absent] at isStarted
      cases isStarted
    have none := (pooled.alone empty t present).2.1
    rw [isStopped] at none
    cases none
  rcases pooled.registered nonempty t ⟨isStarted, kept⟩ with ⟨g, mem, owned⟩
  have same := pooled.stopped g mem h (owned.symm ▸ isStopped)
  rw [same]
  exact ⟨mem, owned⟩

/-- The collector is the thread of `gc_thread`. -/
theorem collecting_thread (pooled : Pooled w given threads free) {c : Collection} {n : Bool}
    (place : w.place t = .collecting c n) : w.thread w.gcThread = t ∧ w.gcThread ≠ 0 := by
  have isStopped : (w.place t).stoppedAt = some c.handler := by
    rw [place]
    rfl
  rcases pooled.stopped_listed isStopped with ⟨listed, owned⟩
  rw [(pooled.collector t c n place).1]
  exact ⟨owned, pooled.listed.ne_zero listed⟩

/-- The handlers in the places of the threads that have not begun are known. -/
theorem passed (pooled : Pooled w given threads free) : w.passed given = given := by
  funext u
  unfold World.passed
  split
  next h place =>
    symm
    apply pooled.starting <;> rw [place] <;> rfl
  next => rfl

end Pooled

/-- The thread `t` goes to a place, and the lists stay as they are. -/
structure Moves (w w' : World) (t : Nat) (threads : List Nat) (place : Place) : Prop where
  links : ∀ h, w'.next h = w.next h
  owners : ∀ h ∈ threads, w'.thread h = w.thread h
  first : w'.firstThread = w.firstThread
  freeList : w'.freeList = w.freeList
  used : w'.used = w.used
  main : w'.main = w.main
  removed : w'.removed = w.removed
  here : w'.place t = place
  others : ∀ u, u ≠ t → (w.place u).Alike (w'.place u)

namespace Moves

variable {place : Place}

theorem refl (w : World) (t : Nat) (threads : List Nat) : Moves w w t threads (w.place t) :=
  ⟨fun _ => rfl, fun _ _ => rfl, rfl, rfl, rfl, rfl, rfl, rfl, fun u _ =>
    Place.Alike.refl (w.place u)⟩

theorem setPlace (moves : Moves w w' t threads place) (place' : Place) :
    Moves w (w'.setPlace t place') t threads place' := by
  refine { moves with here := by simp, others := fun u other => ?_ }
  rw [World.setPlace_place, update_of_ne other]
  exact moves.others u other

theorem enterSafepoint (moves : Moves w w' t threads place) (h : Nat) :
    Moves w (w'.enterSafepoint h) t threads place :=
  { moves with
    links := fun g => (World.enterSafepoint_next g).trans (moves.links g)
    owners := fun g mem => (World.enterSafepoint_thread g).trans (moves.owners g mem) }

theorem exitSafepoint (moves : Moves w w' t threads place) (h : Nat) :
    Moves w (w'.exitSafepoint h) t threads place :=
  { moves with
    links := fun g => (World.exitSafepoint_next g).trans (moves.links g)
    owners := fun g mem => (World.exitSafepoint_thread g).trans (moves.owners g mem) }

theorem signal (moves : Moves w w' t threads place) : Moves w w'.signal t threads place.signalled :=
  { moves with
    here := congrArg Place.signalled moves.here
    others := fun u other => (moves.others u other).signalled }

theorem broadcast (moves : Moves w w' t threads place) : Moves w w'.broadcast t threads
    place.finishedGc :=
  { moves with
    here := congrArg Place.finishedGc moves.here
    others := fun u other => (moves.others u other).finishedGc }

/-- Fields that have nothing to do with the lists. -/
theorem unrelated (moves : Moves w w' t threads place) (gcThread : Nat) (nesting : Nat → Nat)
    (sweeps : List Sweep) :
    Moves w { w' with gcThread := gcThread, nesting := nesting, sweeps := sweeps } t
      threads place :=
  { moves with }

end Moves

namespace Pooled

/-- What is left to show of a step after which all threads but `t` are where they were. -/
theorem follow {given' : Nat → Option Nat} (pooled : Pooled w given threads free)
    (registry : Registry w' threads' free') (main : w'.main = w.main)
    (owners : ∀ h ∈ threads, w'.thread h = w.thread h)
    (others : ∀ u, u ≠ t → (w.place u).Alike (w'.place u)) (present : w'.place t ≠ .absent)
    (givenElsewhere : ∀ u, u ≠ t → given' u = given u) (mainGiven : given' w.main = none)
    (added : ∀ h ∈ w'.used, h ∈ w.used ∨ h ∈ free' ∨ (w'.place t).pending = some h)
    (listed : ∀ h ∈ threads, h ∈ threads' ∨ (w'.place t).pending = some h)
    (freed : ∀ h ∈ free, h ∈ free' ∨ (w'.place t).pending = some h)
    (held : ∀ h, (w.place t).pending = some h →
      h ∈ threads' ∨ h ∈ free' ∨ (w'.place t).pending = some h)
    (starting : ∀ h, (w'.place t).started = false → (w'.place t).pending = some h →
      given' t = some h)
    (routine : ∀ h, given' t = some h → (w'.place t).inRoutine = true →
      h ∈ threads' ∧ w'.thread h = t)
    (stays : ∀ h ∈ threads, w.thread h ≠ t → given (w.thread h) = some h → h ∈ threads')
    (leaving : w'.removed t = true →
      (w'.place t).stoppedAt = none ∧ (t = w.main ∨ (w'.place t).inRoutine = false))
    (removed : ∀ u, u ≠ t → w'.removed u = true →
      w.removed u = true ∨ ((w.place u).stoppedAt = none ∧ u = w.main))
    (collector : ∀ u c n, w'.place u = .collecting c n →
      w'.gcThread = c.handler ∧ c.cursor ∈ threads') : Pooled w' given' threads' free' := by
  constructor
  case toRegistry => exact registry
  case placed =>
    have here : ∀ h, (w'.place t).pending = some h →
        h ∈ threads' ∨ h ∈ free' ∨ ∃ u, (w'.place u).pending = some h :=
      fun h isPending => Or.inr (Or.inr ⟨t, isPending⟩)
    intro h mem
    rcases added h mem with old | isFreed | isPending
    · rcases pooled.placed h old with isListed | isFreed | ⟨u, isPending⟩
      · exact (listed h isListed).elim Or.inl (here h)
      · exact (freed h isFreed).elim (fun mem => Or.inr (Or.inl mem)) (here h)
      · by_cases same : u = t
        · rcases held h (same ▸ isPending) with mem | mem | isPending
          · exact Or.inl mem
          · exact Or.inr (Or.inl mem)
          · exact here h isPending
        · exact Or.inr (Or.inr ⟨u, (others u same).pending.trans isPending⟩)
    · exact Or.inr (Or.inl isFreed)
    · exact here h isPending
  case starting =>
    intro u h notStarted isPending
    by_cases same : u = t
    · rw [same] at notStarted isPending ⊢
      exact starting h notStarted isPending
    · rw [(others u same).started] at notStarted
      rw [(others u same).pending] at isPending
      rw [givenElsewhere u same]
      exact pooled.starting u h notStarted isPending
  case routine =>
    intro u h isGiven inside
    by_cases same : u = t
    · rw [same] at isGiven inside ⊢
      exact routine h isGiven inside
    · rw [givenElsewhere u same] at isGiven
      rw [(others u same).inRoutine] at inside
      rcases pooled.routine u h isGiven inside with ⟨mem, owned⟩
      refine ⟨stays h mem ?_ ?_, (owners h mem).trans owned⟩ <;> rw [owned]
      · exact same
      · exact isGiven
  case leaving =>
    intro u isRemoved
    rw [main]
    by_cases same : u = t
    · rw [same] at isRemoved ⊢
      exact leaving isRemoved
    · rw [(others u same).stoppedAt, (others u same).inRoutine]
      rcases removed u same isRemoved with before | ⟨notStopped, isMain⟩
      · exact pooled.leaving u before
      · exact ⟨notStopped, Or.inl isMain⟩
  case collector => exact collector
  case mainGiven =>
    rw [main]
    exact mainGiven
  case mainPresent =>
    rw [main]
    by_cases same : w.main = t
    · rw [same]
      exact present
    · exact mt (others _ same).absent.mp pooled.mainPresent

/-- A step that keeps the lists. -/
theorem move {place : Place} (pooled : Pooled w given threads free)
    (registry : Registry w' threads' free') (moves : Moves w w' t threads place)
    (pending : place.pending = (w.place t).pending) (started : place.started = (w.place t).started)
    (inRoutine : place.inRoutine = true → (w.place t).inRoutine = true) (present : place ≠ .absent)
    (stopped : place.stoppedAt ≠ none → w.removed t = false)
    (collector : ∀ u c n, w'.place u = .collecting c n →
      w'.gcThread = c.handler ∧ c.cursor ∈ threads) : Pooled w' given threads free := by
  have sameThreads : threads' = threads :=
    pooled.toRegistry.threads_eq registry (fun h _ => moves.links h) moves.first
  have sameFree : free' = free := by
    have chain := pooled.freed.congr fun h _ => moves.links h
    rw [← moves.freeList] at chain
    exact registry.freed.unique chain
  subst sameThreads sameFree
  have here := moves.here
  subst here
  apply pooled.follow registry moves.main moves.owners moves.others present (fun _ _ => rfl)
    pooled.mainGiven
  case added =>
    intro h mem
    rw [moves.used] at mem
    exact Or.inl mem
  case listed => exact fun h mem => Or.inl mem
  case freed => exact fun h mem => Or.inl mem
  case held => exact fun h isPending => Or.inr (Or.inr (pending.trans isPending))
  case starting =>
    intro h notStarted isPending
    exact pooled.starting t h (started.symm.trans notStarted) (pending.symm.trans isPending)
  case routine =>
    intro h isGiven inside
    rcases pooled.routine t h isGiven (inRoutine inside) with ⟨mem, owned⟩
    exact ⟨mem, (moves.owners h mem).trans owned⟩
  case stays => exact fun h mem _ _ => mem
  case leaving =>
    intro isRemoved
    rw [moves.removed] at isRemoved
    constructor
    · by_contra isStopped
      rw [stopped isStopped] at isRemoved
      cases isRemoved
    · apply (pooled.leaving t isRemoved).2.imp_right
      intro outside
      exact Bool.eq_false_iff.mpr fun inside => by simp [inRoutine inside] at outside
  case removed =>
    intro u _ isRemoved
    rw [moves.removed] at isRemoved
    exact Or.inl isRemoved
  case collector => exact collector

/-- A step that keeps the lists and leaves the collection as it is. -/
theorem go {place : Place} (pooled : Pooled w given threads free)
    (registry : Registry w' threads' free') (aside : Aside w w')
    (moves : Moves w w' t threads place)
    (pending : place.pending = (w.place t).pending) (started : place.started = (w.place t).started)
    (inRoutine : place.inRoutine = true → (w.place t).inRoutine = true) (present : place ≠ .absent)
    (stopped : place.stoppedAt ≠ none → w.removed t = false) : Pooled w' given threads free := by
  apply pooled.move registry moves pending started inRoutine present stopped
  intro u c n collecting
  rcases aside.collecting u c n collecting with ⟨m, before⟩
  rw [aside.gcThread]
  exact pooled.collector u c m before

/-- `create_first_handler`, when there is no handler on the list. -/
theorem enrol (memory : HandlerMemory) (pooled : Pooled w given threads free)
    (present : w.place t ≠ .absent) : ∃ threads' free', threads' ≠ [] ∧
      Pooled (if w.firstThread = 0 then w.createFirstHandler memory t else w) given
        threads' free' := by
  split
  next isEmpty =>
    have empty := pooled.listed.head_eq_zero_iff.mp isEmpty
    subst empty
    rcases pooled.toRegistry.createFirstHandler memory present with ⟨free', registry, -, drawn⟩
    rcases w.createFirstHandler_enrolled memory t with ⟨_, _, _, _, same, -⟩
    refine ⟨[(w.createFirstHandler memory t).firstThread], free', List.cons_ne_nil _ _, ?_⟩
    have place : (w.createFirstHandler memory t).place = w.place := by rw [same]
    have removed : (w.createFirstHandler memory t).removed = w.removed := by rw [same]
    have main : (w.createFirstHandler memory t).main = w.main := by rw [same]
    constructor
    case toRegistry => exact registry
    case placed =>
      intro h mem
      rw [place, List.mem_singleton]
      have onFree : ∀ h, h ∈ free' ∨ h = (w.createFirstHandler memory t).firstThread →
          h = (w.createFirstHandler memory t).firstThread ∨ h ∈ free' ∨
            ∃ u, (w.place u).pending = some h := fun h => fun
        | .inl mem => .inr (.inl mem)
        | .inr new => .inl new
      rcases drawn.added h mem with old | new
      · rcases pooled.placed h old with listed | freed | held
        · cases listed
        · exact onFree h (drawn.kept h freed)
        · exact Or.inr (Or.inr held)
      · exact onFree h new
    case starting =>
      rw [place]
      exact pooled.starting
    case routine =>
      rw [place]
      intro u h isGiven inside
      cases (pooled.routine u h isGiven inside).1
    case leaving =>
      rw [place, removed, main]
      exact pooled.leaving
    case collector =>
      rw [place]
      intro u c n collecting
      cases (pooled.collector u c n collecting).2
    case mainGiven =>
      rw [main]
      exact pooled.mainGiven
    case mainPresent =>
      rw [main, place]
      exact pooled.mainPresent
  next nonempty =>
    exact ⟨threads, free, mt pooled.listed.head_eq_zero_iff.mpr nonempty, pooled⟩

/-- `get_thread_handler` of a running thread. -/
theorem looked {w₁ : World} (pooled : Pooled w given threads free)
    (started : (w.place t).started = true)
    (found : w.getThreadHandler memory t = .ok (h, w₁)) :
    ∃ threads₁ free₁, Pooled w₁ given threads₁ free₁ ∧ w₁.place = w.place ∧
      w₁.removed t = false ∧ w₁.gcThread = w.gcThread ∧ h ∈ threads₁ ∧ w₁.thread h = t := by
  have present : w.place t ≠ .absent := by
    intro absent
    rw [absent] at started
    cases started
  rcases World.getThreadHandler_ok found with ⟨same, prev, searched⟩
  rcases pooled.enrol memory present with ⟨threads₁, free₁, -, enrolled⟩
  rw [same] at enrolled
  rcases enrolled.toRegistry.find_ok searched with ⟨front, back, split, -, owned⟩
  have listed : h ∈ threads₁ := by
    rw [split]
    exact List.mem_append_right front List.mem_cons_self
  refine ⟨threads₁, free₁, enrolled, World.getThreadHandler_place found, ?_, ?_, listed, owned⟩
  · rw [← owned]
    exact (enrolled.owner h listed).2
  · rcases World.getThreadHandler_enrolled found with ⟨_, _, _, _, rfl, -⟩
    rfl

/-- `thread_create` up to `pthread_create`. -/
theorem create (memory : HandlerMemory) (pooled : Pooled w given threads free)
    (present : w.place t ≠ .absent) (absent : w.place u = .absent) : ∃ threads' free',
      Pooled (w.threadCreate memory t u) ((w.threadCreate memory t u).passed given)
        threads' free' := by
  rcases pooled.enrol memory present with ⟨threads₁, free₁, nonempty, enrolled⟩
  have stillAbsent : (if w.firstThread = 0 then w.createFirstHandler memory t else w).place u =
      .absent := by
    split
    next =>
      rcases w.createFirstHandler_enrolled memory t with ⟨_, _, _, _, same, -⟩
      rw [same]
      exact absent
    next => exact absent
  rw [World.threadCreate]
  generalize (if w.firstThread = 0 then w.createFirstHandler memory t else w) = v at *
  rcases enrolled.toRegistry.create memory nonempty stillAbsent with ⟨free', registry, drawn⟩
  rcases v.newThreadHandler_recycled memory with ⟨handlers, freeList, used, same, fields⟩
  refine ⟨threads₁, free', ?_⟩
  generalize (v.newThreadHandler memory).1 = new at *
  have place : ∀ x, x ≠ u → ((v.newThreadHandler memory).2.setPlace u (.created new)).place x =
      v.place x := by
    intro x other
    rw [same]
    simp [other]
  have here : ((v.newThreadHandler memory).2.setPlace u (.created new)).place u = .created new := by
    simp
  have thread : ∀ h, ((v.newThreadHandler memory).2.setPlace u (.created new)).thread h =
      v.thread h := by
    intro h
    rw [same]
    exact (fields h).1
  have main : ((v.newThreadHandler memory).2.setPlace u (.created new)).main = v.main := by
    rw [same]; rfl
  have removed : ((v.newThreadHandler memory).2.setPlace u (.created new)).removed = v.removed := by
    rw [same]
    rfl
  have gcThread : ((v.newThreadHandler memory).2.setPlace u (.created new)).gcThread =
    v.gcThread := by
    rw [same]
    rfl
  have isUsed : ((v.newThreadHandler memory).2.setPlace u (.created new)).used =
      (v.newThreadHandler memory).2.used := rfl
  generalize (v.newThreadHandler memory).2 = x at *
  generalize x.setPlace u (.created new) = w' at *
  have givenElsewhere : ∀ x, x ≠ u → w'.passed given x = given x := by
    intro x other
    have known := congrFun enrolled.passed x
    unfold World.passed at known ⊢
    rw [place x other]
    exact known
  have notMain : v.main ≠ u := by
    intro isMain
    exact enrolled.mainPresent (isMain ▸ stillAbsent)
  have hold : ∀ h, h ∈ free' ∨ h = new → h ∈ free' ∨ (w'.place u).pending = some h := by
    intro h
    apply Or.imp_right
    intro isNew
    rw [here, isNew]
    rfl
  apply enrolled.follow registry main (fun h _ => thread h)
    (fun x other => (place x other).symm ▸ Place.Alike.refl _)
      (by rw [here]; exact Place.noConfusion)
    givenElsewhere ((givenElsewhere _ notMain).trans enrolled.mainGiven)
  case added => exact fun h mem => (drawn.added h (isUsed ▸ mem)).imp_right (hold h)
  case listed => exact fun h mem => Or.inl mem
  case freed => exact fun h mem => hold h (drawn.kept h mem)
  case held =>
    intro h isPending
    rw [stillAbsent] at isPending
    cases isPending
  case starting =>
    intro h _ isPending
    unfold World.passed
    rw [here] at isPending ⊢
    exact isPending
  case routine =>
    intro h _ inside
    rw [here] at inside
    cases inside
  case stays => exact fun h mem _ _ => mem
  case leaving =>
    intro _
    rw [here]
    exact ⟨rfl, Or.inr rfl⟩
  case removed =>
    intro x _ isRemoved
    rw [removed] at isRemoved
    exact Or.inl isRemoved
  case collector =>
    intro x c n collecting
    by_cases isNew : x = u
    · rw [isNew, here] at collecting
      cases collecting
    · rw [gcThread]
      rw [place x isNew] at collecting
      exact enrolled.collector x c n collecting

/-- `start_routine` puts the handler that it was given on the list. -/
theorem link (pooled : Pooled w given threads free) (ready : (w.place t).ready = some h) :
    Pooled (w.link t h) given (h :: threads) free := by
  have isPending := Place.pending_of_ready ready
  have notStarted := Place.not_started_of_ready ready
  have here : (w.link t h).place t = .running := by simp [World.link]
  have place : ∀ u, u ≠ t → (w.link t h).place u = w.place u := by
    intro u other
    simp [World.link, other]
  have thread : ∀ g, (w.link t h).thread g = w.thread g := by
    intro g
    by_cases same : g = h <;> simp [World.link, World.thread, same]
  have isGiven := pooled.starting t h notStarted isPending
  apply pooled.follow (pooled.toRegistry.link ready) rfl (fun g _ => thread g)
    (fun u other => (place u other).symm ▸ Place.Alike.refl _)
      (by rw [here]; exact Place.noConfusion)
    (fun _ _ => rfl) pooled.mainGiven
  case added => exact fun g mem => Or.inl mem
  case listed => exact fun g mem => Or.inl (List.mem_cons_of_mem h mem)
  case freed => exact fun g mem => Or.inl mem
  case held =>
    intro g isHeld
    rw [isPending] at isHeld
    cases isHeld
    exact Or.inl List.mem_cons_self
  case starting =>
    intro g isStarting
    rw [here] at isStarting
    cases isStarting
  case routine =>
    intro g isGivenToo _
    rw [isGiven] at isGivenToo
    cases isGivenToo
    rw [thread]
    exact ⟨List.mem_cons_self, pooled.ready t h ready⟩
  case stays => exact fun g mem _ _ => List.mem_cons_of_mem h mem
  case leaving =>
    intro isRemoved
    have started := pooled.removed t isRemoved
    rw [notStarted] at started
    cases started
  case removed => exact fun u _ isRemoved => Or.inl isRemoved
  case collector =>
    intro u c n collecting
    by_cases isHere : u = t
    · rw [isHere, here] at collecting
      cases collecting
    · rw [place u isHere] at collecting
      exact (pooled.collector u c n collecting).imp_right (List.mem_cons_of_mem h)

/-- `remove_thread` takes a handler off the list that nobody has a use for. -/
theorem unlink {removal : Removal} (pooled : Pooled w given threads free)
    (inside : (w.place t).inRoutine = true) (started : (w.place t).started = true)
    (notPending : (w.place t).pending = none) (leaves : removal.Leaves w t)
    (notAwaited : ∀ u c n, w.place u = .collecting c n → w.thread c.cursor ≠ removal.target t)
    (unlinked : w.unlink t removal = .ok w') : ∃ threads', Pooled w' given threads' free := by
  rcases pooled.toRegistry.unlink started unlinked with ⟨front, h, back, split, owned, -, registry⟩
  rcases World.unlink_ok unlinked with ⟨prev, curr, found, -, rfl⟩
  rcases pooled.toRegistry.find_ok found with ⟨front', back', split', -, owned'⟩
  have memH : h ∈ threads := by
    rw [split]
    exact List.mem_append_right front List.mem_cons_self
  have isCurr : curr = h := by
    apply pooled.ownerUnique curr _ h memH (owned'.trans owned.symm)
    rw [split']
    exact List.mem_append_right front' List.mem_cons_self
  subst isCurr
  rcases w.bypass_eq prev curr with ⟨handlers, firstThread, same, fields⟩
  rw [same] at registry ⊢
  generalize gone : World.endRemoval _ t curr removal = w' at registry ⊢
  have here : w'.place t = .freeing curr removal := by simp [← gone, World.endRemoval]
  have place : ∀ u, u ≠ t → w'.place u = w.place u := by
    intro u other
    simp [← gone, World.endRemoval, other]
  have thread : ∀ g, w'.thread g = w.thread g := by
    intro g
    rw [← gone]
    exact (fields g).1
  have removed : ∀ u, u ≠ removal.target t → w'.removed u = w.removed u := by
    intro u other
    simp [← gone, World.endRemoval, other]
  have main : w'.main = w.main := by
    rw [← gone]
    rfl
  have gcThread : w'.gcThread = w.gcThread := by
    rw [← gone]
    rfl
  have used : w'.used = w.used := by
    rw [← gone]
    rfl
  have stays : ∀ g ∈ threads, w.thread g ≠ removal.target t → g ∈ front ++ back := by
    intro g mem other
    rw [split] at mem
    rcases List.mem_append.mp mem with inFront | later
    · exact List.mem_append_left back inFront
    · rcases List.mem_cons.mp later with isCurr | inBack
      · rw [isCurr] at other
        exact absurd owned other
      · exact List.mem_append_right front inBack
  -- A thread whose handler is taken off has left its routine, or it is the main thread.
  have target : ∀ u, u = removal.target t → (u = t ∧ ¬ ∃ v, removal = .cancel v) ∨
      (u = w.main ∧ (u = t ∨ (w.place u).stoppedAt = none)) := by
    intro u isTarget
    cases removal with
    | finish => exact Or.inl ⟨isTarget, by simp⟩
    | exit => exact Or.inl ⟨isTarget, by simp⟩
    | cancel v =>
        right
        rw [isTarget]
        exact leaves
  have outside : (¬ ∃ v, removal = .cancel v) → (w'.place t).inRoutine = false := by
    intro notCancel
    rw [here]
    cases removal with
    | finish => rfl
    | exit => rfl
    | cancel v => exact absurd ⟨v, rfl⟩ notCancel
  refine ⟨front ++ back, ?_⟩
  apply pooled.follow registry main (fun g _ => thread g)
    (fun u other => (place u other).symm ▸ Place.Alike.refl _)
      (by rw [here]; exact Place.noConfusion)
    (fun _ _ => rfl) pooled.mainGiven
  case added => exact fun g mem => Or.inl (used ▸ mem)
  case listed =>
    intro g mem
    rw [here]
    by_cases isTarget : w.thread g = removal.target t
    · exact Or.inr (congrArg some (pooled.ownerUnique curr memH g mem (owned.trans isTarget.symm)))
    · exact Or.inl (stays g mem isTarget)
  case freed => exact fun g mem => Or.inl mem
  case held =>
    intro g isHeld
    rw [notPending] at isHeld
    cases isHeld
  case starting =>
    intro g isStarting
    rw [here] at isStarting
    cases isStarting
  case routine =>
    intro g isGiven insideHere
    rcases pooled.routine t g isGiven inside with ⟨mem, ownedG⟩
    rw [thread]
    refine ⟨stays g mem fun isTarget => ?_, ownedG⟩
    rcases target t (ownedG.symm.trans isTarget) with ⟨-, notCancel⟩ | ⟨isMain, -⟩
    · rw [outside notCancel] at insideHere
      cases insideHere
    · rw [isMain, pooled.mainGiven] at isGiven
      cases isGiven
  case stays =>
    intro g mem other isGiven
    apply stays g mem
    intro isTarget
    rcases target (w.thread g) isTarget with ⟨same, -⟩ | ⟨isMain, -⟩
    · exact other same
    · rw [isMain, pooled.mainGiven] at isGiven
      cases isGiven
  case leaving =>
    intro isRemoved
    refine ⟨by rw [here]; rfl, ?_⟩
    by_cases isTarget : t = removal.target t
    · rcases target t isTarget with ⟨-, notCancel⟩ | ⟨isMain, -⟩
      · exact Or.inr (outside notCancel)
      · exact Or.inl isMain
    · rw [removed t isTarget] at isRemoved
      rcases (pooled.leaving t isRemoved).2 with isMain | hasLeft
      · exact Or.inl isMain
      · rw [inside] at hasLeft
        cases hasLeft
  case removed =>
    intro u other isRemoved
    by_cases isTarget : u = removal.target t
    · rcases target u isTarget with ⟨same, -⟩ | ⟨isMain, same | notStopped⟩
      · exact absurd same other
      · exact absurd same other
      · exact Or.inr ⟨notStopped, isMain⟩
    · rw [removed u isTarget] at isRemoved
      exact Or.inl isRemoved
  case collector =>
    intro u c n collecting
    by_cases isHere : u = t
    · rw [isHere, here] at collecting
      cases collecting
    · rw [place u isHere] at collecting
      rw [gcThread]
      rcases pooled.collector u c n collecting with ⟨same, mem⟩
      exact ⟨same, stays _ mem (notAwaited u c n collecting)⟩

/-- `remove_thread` puts the handler that it has unlinked on the free list. -/
theorem release {removal : Removal} (pooled : Pooled w given threads free)
    (place : w.place t = .freeing h removal) :
    Pooled (w.free t h removal) given threads (h :: free) := by
  have here : (w.free t h removal).place t = .finished ∨
      (w.free t h removal).place t = .unwinding ∨
      ((w.free t h removal).place t = .running ∧ ∃ target, removal = .cancel target) := by
    cases removal with
    | finish => exact Or.inl (by simp [World.free])
    | exit => exact Or.inr (Or.inl (by simp [World.free]))
    | cancel target => exact Or.inr (Or.inr ⟨by simp [World.free], target, rfl⟩)
  have elsewhere : ∀ u, u ≠ t → (w.free t h removal).place u = w.place u := by
    intro u other
    cases removal <;> simp [World.free, other]
  have thread : ∀ g, (w.free t h removal).thread g = w.thread g := by
    intro g
    cases removal <;> by_cases same : g = h <;> simp [World.free, World.thread, same]
  have removed : (w.free t h removal).removed = w.removed := by cases removal <;> rfl
  have main : (w.free t h removal).main = w.main := by cases removal <;> rfl
  have gcThread : (w.free t h removal).gcThread = w.gcThread := by cases removal <;> rfl
  have used : (w.free t h removal).used = w.used := by cases removal <;> rfl
  have inside : ((w.free t h removal).place t).inRoutine = true → (w.place t).inRoutine = true := by
    rw [place]
    rcases here with same | same | ⟨-, target, isCancel⟩
    · rw [same]
      exact fun inside => Bool.noConfusion inside
    · rw [same]
      exact fun inside => Bool.noConfusion inside
    · rw [isCancel]
      exact fun _ => rfl
  apply pooled.follow (pooled.toRegistry.release place) main (fun g _ => thread g)
    (fun u other => (elsewhere u other).symm ▸ Place.Alike.refl _) _ (fun _ _ => rfl)
      pooled.mainGiven
  case added => exact fun g mem => Or.inl (used ▸ mem)
  case listed => exact fun g mem => Or.inl mem
  case freed => exact fun g mem => Or.inl (List.mem_cons_of_mem h mem)
  case held =>
    intro g isHeld
    rw [place] at isHeld
    cases isHeld
    exact Or.inr (Or.inl List.mem_cons_self)
  case starting =>
    intro g isStarting
    rcases here with same | same | ⟨same, -⟩ <;> rw [same] at isStarting <;> cases isStarting
  case routine =>
    intro g isGiven insideHere
    rw [thread]
    exact pooled.routine t g isGiven (inside insideHere)
  case stays => exact fun g mem _ _ => mem
  case leaving =>
    intro isRemoved
    rw [removed] at isRemoved
    constructor
    · rcases here with same | same | ⟨same, -⟩ <;> rw [same] <;> rfl
    · apply (pooled.leaving t isRemoved).2.imp_right
      intro hasLeft
      exact Bool.eq_false_iff.mpr fun insideHere => by simp [inside insideHere] at hasLeft
  case removed => exact fun u _ isRemoved => Or.inl (removed ▸ isRemoved)
  case collector =>
    intro u c n collecting
    by_cases isHere : u = t
    · rw [isHere] at collecting
      rcases here with same | same | ⟨same, -⟩ <;> rw [same] at collecting <;> cases collecting
    · rw [elsewhere u isHere] at collecting
      rw [gcThread]
      exact pooled.collector u c n collecting
  · rcases here with same | same | ⟨same, -⟩ <;> rw [same] <;> exact Place.noConfusion

/-- One walk of the collector. -/
theorem collect {c : Collection} (pooled : Pooled w given threads free)
    (registry : Registry w' threads' free') (started : (w.place t).started = true)
    (inside : (w.place t).inRoutine = true) (notPending : (w.place t).pending = none)
    (kept : w.removed t = false) (collector : w.gcThread = c.handler) (listed : c.cursor ∈ threads)
    (only : ∀ u d n, w.place u = .collecting d n → u = t) (ran : w.collect t c = .ok w') :
    Pooled w' given threads free := by
  rcases World.collect_ok ran with ⟨cursor, scanned, walked, ⟨-, ended⟩ | ⟨nonnull, blocked⟩⟩
  · have moves : Moves w w' t threads .running := by
      rw [ended]
      exact (((Moves.refl w t threads).unrelated 0 w.nesting _).exitSafepoint
        c.handler).broadcast.setPlace _
    apply pooled.move registry moves notPending.symm started.symm (fun _ => inside)
      Place.noConfusion (fun isStopped => absurd rfl isStopped)
    intro u d n collecting
    by_cases isHere : u = t
    · rw [isHere, moves.here] at collecting
      cases collecting
    · have before : w.place u = .collecting d n := by
        simpa [ended, World.endCollection, isHere] using collecting
      exact absurd (only u d n before) isHere
  · have moves : Moves w w' t threads
        (.collecting { c with cursor := cursor, scanned := scanned } false) := by
      rw [blocked]
      exact (Moves.refl w t threads).setPlace _
    apply pooled.move registry moves notPending.symm started.symm (fun _ => inside)
      Place.noConfusion (fun _ => kept)
    intro u d n collecting
    by_cases isHere : u = t
    · rw [isHere, moves.here] at collecting
      cases collecting
      constructor
      · rw [blocked]
        exact collector
      · -- The cursor has moved along the list.
        rcases List.append_of_mem listed with ⟨front, rest, split⟩
        have chain := pooled.listed
        rw [split] at chain
        have ahead : Chain w.next c.cursor (c.cursor :: rest) :=
          ⟨rfl, chain.ne_zero (by simp), chain.suffix⟩
        rcases World.scan_ok ahead walked with ⟨passed, left, cells, chainLeft, -⟩
        have mem : cursor ∈ left := by
          cases left with
          | nil => exact absurd chainLeft nonnull
          | cons first later =>
              rw [chainLeft.1]
              exact List.mem_cons_self
        rw [split, cells]
        exact List.mem_append_right front (List.mem_append_right passed mem)
    · have before : w.place u = .collecting d n := by
        simpa [blocked, isHere] using collecting
      exact absurd (only u d n before) isHere

/-- Only one thread collects at a time. -/
theorem collecting_unique (pooled : Pooled w given threads free) {c d : Collection} {n m : Bool}
    (left : w.place t = .collecting c n) (right : w.place u = .collecting d m) : u = t :=
  (pooled.collecting_thread right).1.symm.trans (pooled.collecting_thread left).1

/-- A removal that nobody has a use for the handler of. -/
theorem notAwaited {removal : Removal} (pooled : Pooled w given threads free)
    (keeps : removal.Keeps w t) {u : Nat} {c : Collection} {n : Bool}
    (collecting : w.place u = .collecting c n) : w.thread c.cursor ≠ removal.target t := by
  intro isTarget
  apply keeps.2
  rw [World.awaited, (pooled.collecting_thread collecting).1, collecting]
  exact congrArg some isTarget

/-- Every step that meets the condition keeps the pool. -/
theorem step (pooled : Pooled w given threads free) (effect : Effect memory w t action w')
    (keeps : action.Keeps w t) :
    ∃ threads' free', Pooled w' (w'.passed given) threads' free' := by
  have close : ∀ {threads' free' : List Nat}, Pooled w' given threads' free' →
      ∃ threads' free', Pooled w' (w'.passed given) threads' free' := by
    intro threads' free' pooled'
    refine ⟨threads', free', ?_⟩
    rw [pooled'.passed]
    exact pooled'
  rcases pooled.toRegistry.step effect with ⟨threads', free', registry, -⟩
  cases effect with
  | stay => exact close pooled
  | lookup _ place found =>
      obtain ⟨_, _, pooled₁, -⟩ :=
        pooled.looked (by rcases place with place | place <;> rw [place] <;> rfl) found
      exact close pooled₁
  | @wait w₁ h _ site waits found busy =>
      obtain ⟨started, inside, notPending⟩ : (w.place t).started = true ∧
          (w.place t).inRoutine = true ∧ (w.place t).pending = none := by
        cases waits with
        | gc place => rw [place]; exact ⟨rfl, rfl, rfl⟩
        | safepoint place => rw [place]; exact ⟨rfl, rfl, rfl⟩
        | remove place => rw [place]; exact ⟨rfl, rfl, rfl⟩
      rcases pooled.looked started found with ⟨threads₁, _, pooled₁, samePlace, kept, -⟩
      have moves : Moves w₁ (w₁.waitAt t h site) t threads₁ (.waiting site h false) :=
        ((Moves.refl w₁ t _).enterSafepoint h).signal.setPlace _
      have aside : Aside w₁ (w₁.waitAt t h site) :=
        (Aside.refl w₁).enterSafepoint.signal.setPlace (by simp)
      apply close (pooled₁.go registry aside moves _ _ _ Place.noConfusion fun _ => kept)
      all_goals rw [samePlace]
      · rw [notPending]
        cases waits <;> rfl
      · rw [started]
        cases waits <;> rfl
      · exact fun _ => inside
  | @begin w₁ _ h full place flat found idle collected =>
      obtain ⟨threads₁, free₁, pooled₁, samePlace, kept, -, listed, -⟩ :=
        pooled.looked (by rw [place]; rfl) found
      have none : ∀ u c n, w₁.place u ≠ .collecting c n :=
        fun u c n collecting => (pooled₁.collecting_thread collecting).2 idle
      have moves : Moves w₁ { w₁.enterSafepoint h with gcThread := h } t threads₁ (w₁.place t) :=
        ((Moves.refl w₁ t _).enterSafepoint h).unrelated h w₁.nesting w₁.sweeps
      have pooled₂ : Pooled { w₁.enterSafepoint h with gcThread := h } given threads₁ free₁ := by
        have registry₂ :=
          (pooled₁.toRegistry.enterSafepoint (h := h)).unrelated h w₁.nesting w₁.sweeps
        apply pooled₁.move registry₂ moves rfl rfl id _ fun _ => kept
        · exact fun u c n collecting => absurd collecting (none u c n)
        · rw [samePlace, place]
          exact Place.noConfusion
      have first : w₁.firstThread ∈ threads₁ := by
        rw [pooled₁.listed.head_eq]
        cases threads₁ with
        | nil => cases listed
        | cons first later => exact List.mem_cons_self
      have here : ({ w₁.enterSafepoint h with gcThread := h } : World).place t = .running := by
        rw [← place, ← samePlace]
        rfl
      apply close (pooled₂.collect registry _ _ _ kept rfl first _ collected)
      · rw [here]; rfl
      · rw [here]; rfl
      · rw [here]; rfl
      · exact fun u c n collecting => absurd collecting (none u c n)
  | @goOn _ c place collected =>
      rcases pooled.collector t c true place with ⟨collector, listed⟩
      have kept := pooled.kept_of_stopped (t := t) (by simp [place, Place.stoppedAt])
      apply close (pooled.collect registry _ _ _ kept collector listed _ collected)
      · rw [place]; rfl
      · rw [place]; rfl
      · rw [place]; rfl
      · exact fun u d n collecting => pooled.collecting_unique place collecting
  | @pass w₁ h place found idle =>
      rcases pooled.looked (by rw [place]; rfl) found with ⟨threads₁, _, pooled₁, samePlace, -⟩
      have moves : Moves w₁ ((w₁.enterSafepoint h).leave t h) t threads₁ .running :=
        (((Moves.refl w₁ t _).enterSafepoint h).exitSafepoint h).setPlace _
      have aside : Aside w₁ ((w₁.enterSafepoint h).leave t h) :=
        (Aside.refl w₁).enterSafepoint.exitSafepoint.setPlace (by simp)
      apply close (pooled₁.go registry aside moves _ _ _ Place.noConfusion (absurd rfl))
      all_goals
        rw [samePlace, place]
        simp [Place.pending, Place.started, Place.inRoutine]
  | @remove w₁ _ h removal place found idle unlinked =>
      obtain ⟨threads₁, free₁, pooled₁, samePlace, kept, sameCollector, -⟩ :=
        pooled.looked (by rw [place]; rfl) found
      have moves : Moves w₁ ((w₁.enterSafepoint h).exitSafepoint h) t threads₁ (w₁.place t) :=
        ((Moves.refl w₁ t _).enterSafepoint h).exitSafepoint h
      have pooled₂ : Pooled ((w₁.enterSafepoint h).exitSafepoint h) given threads₁ free₁ := by
        apply pooled₁.go pooled₁.toRegistry.enterSafepoint.exitSafepoint
          (Aside.refl w₁).enterSafepoint.exitSafepoint moves rfl rfl id _ fun _ => kept
        rw [samePlace, place]
        exact Place.noConfusion
      have here : ((w₁.enterSafepoint h).exitSafepoint h).place t = .running := by
        rw [← place, ← samePlace]
        rfl
      have leaves : removal.Leaves ((w₁.enterSafepoint h).exitSafepoint h) t := by
        have before := (keeps (sameCollector ▸ idle)).1
        rcases World.getThreadHandler_enrolled found with ⟨_, _, _, _, rfl, -⟩
        exact before
      obtain ⟨threads₂, pooled₃⟩ := pooled₂.unlink (by rw [here]; rfl) (by rw [here]; rfl)
        (by rw [here]; rfl) leaves
        (fun u c n collecting => absurd idle (pooled₂.collecting_thread collecting).2) unlinked
      exact close pooled₃
  | @wake h site place sort =>
      have moves : Moves w (w.leave t h) t threads .running :=
        ((Moves.refl w t threads).exitSafepoint h).setPlace _
      have aside : Aside w (w.leave t h) := (Aside.refl w).exitSafepoint.setPlace (by simp)
      apply close (pooled.go registry aside moves _ _ _ Place.noConfusion (absurd rfl))
      all_goals
        rw [place]
        rcases sort with same | same <;> rw [same] <;>
          simp [Place.pending, Place.started, Place.inRoutine]
  | @wakeRemove _ h removal place unlinked =>
      obtain ⟨leaves, notAwaited⟩ : removal.Leaves w t ∧ ∀ u c n, w.place u = .collecting c n →
          w.thread c.cursor ≠ removal.target t := by
        unfold Action.Keeps at keeps
        simp only [place] at keeps
        exact ⟨keeps.1, fun u c n collecting => pooled.notAwaited keeps collecting⟩
      have pooled₁ : Pooled (w.exitSafepoint h) given threads free := by
        apply pooled.go pooled.toRegistry.exitSafepoint (Aside.refl w).exitSafepoint
          ((Moves.refl w t threads).exitSafepoint h) rfl rfl id _ pooled.kept_of_stopped
        rw [place]
        exact Place.noConfusion
      have here : (w.exitSafepoint h).place t = .waiting (.remove removal) h true := place
      obtain ⟨threads₂, pooled₂⟩ := pooled₁.unlink (by rw [here]; rfl) (by rw [here]; rfl)
        (by rw [here]; rfl) leaves
        (fun u c n collecting => by
          rw [World.exitSafepoint_thread]
          exact notAwaited u c n collecting) unlinked
      exact close pooled₂
  | wakeStart place => exact close (pooled.link (congrArg Place.ready place))
  | read place =>
      apply close (pooled.go registry ((Aside.refl w).setPlace (by simp))
        ((Moves.refl w t threads).setPlace _)
        _ _ _ Place.noConfusion (absurd rfl))
      all_goals
        rw [place]
        simp [Place.pending, Place.started, Place.inRoutine]
  | @prepare h place =>
      have isPending : (w.place t).pending = some h := by
        rw [place]
        rfl
      have others : ∀ g ∈ threads, g ≠ h := by
        rintro g mem rfl
        exact (pooled.pending t g isPending).2.2 (List.mem_append_left free mem)
      have filled : Moves w (w.setHandler h { w.handlers h with thread := t, inSafepoint := false })
          t threads (w.place t) := by
        refine { Moves.refl w t threads with links := fun g => ?_, owners := fun g mem => ?_ }
        · by_cases same : g = h <;> simp [World.next, same]
        · simp [World.thread, others g mem]
      have aside : Aside w
        (w.setHandler h { w.handlers h with thread := t, inSafepoint := false }) :=
        ⟨rfl, rfl, (Aside.refl w).collecting⟩
      apply close (pooled.go registry (aside.setPlace (by simp)) (filled.setPlace _)
        _ _ _ Place.noConfusion (absurd rfl))
      all_goals
        rw [place]
        simp [Place.pending, Place.started, Place.inRoutine]
  | startWait place busy =>
      apply close (pooled.go registry ((Aside.refl w).setPlace (by simp))
        ((Moves.refl w t threads).setPlace _)
        _ _ _ Place.noConfusion (absurd rfl))
      all_goals
        rw [place]
        simp [Place.pending, Place.started, Place.inRoutine]
  | start place idle => exact close (pooled.link (congrArg Place.ready place))
  | @create u place absent =>
      exact pooled.create memory (by rw [place]; exact Place.noConfusion) absent
  | @join w₁ h u place found =>
      obtain ⟨threads₁, _, pooled₁, samePlace, kept, -⟩ := pooled.looked (by rw [place]; rfl) found
      have running : w₁.place t = .running := by rw [samePlace, place]
      have entered : Moves w₁ (w₁.enterSafepoint h) t threads₁ .running :=
        running ▸ (Moves.refl w₁ t _).enterSafepoint h
      have aside := (Aside.refl w₁).enterSafepoint (h := h)
      generalize joins : (if w₁.gcThread ≠ 0 then (w₁.enterSafepoint h).signal
        else w₁.enterSafepoint h) = v at registry close ⊢
      obtain ⟨movesV, asideV⟩ : Moves w₁ v t threads₁ .running ∧ Aside w₁ v := by
        rw [← joins]
        split
        next => exact ⟨entered.signal, aside.signal⟩
        next => exact ⟨entered, aside⟩
      apply close (pooled₁.go registry (asideV.setPlace (by simp)) (movesV.setPlace _)
        _ _ _ Place.noConfusion fun _ => kept)
      all_goals
        rw [running]
        simp [Place.pending, Place.started, Place.inRoutine]
  | @joined h u place ended =>
      have moves : Moves w (w.leave t h) t threads .running :=
        ((Moves.refl w t threads).exitSafepoint h).setPlace _
      have aside : Aside w (w.leave t h) := (Aside.refl w).exitSafepoint.setPlace (by simp)
      apply close (pooled.go registry aside moves _ _ _ Place.noConfusion (absurd rfl))
      all_goals
        rw [place]
        simp [Place.pending, Place.started, Place.inRoutine]
  | free place => exact close (pooled.release place)
  | enterNew place =>
      apply close (pooled.go registry ⟨rfl, rfl, (Aside.refl w).collecting⟩
        ((Moves.refl w t threads).unrelated w.gcThread _ w.sweeps) rfl rfl id _
          pooled.kept_of_stopped)
      rw [place]
      exact Place.noConfusion
  | leaveNew place =>
      apply close (pooled.go registry ⟨rfl, rfl, (Aside.refl w).collecting⟩
        ((Moves.refl w t threads).unrelated w.gcThread _ w.sweeps) rfl rfl id _
          pooled.kept_of_stopped)
      rw [place]
      exact Place.noConfusion
  | unwind place cancelled =>
      apply close (pooled.go registry ((Aside.refl w).setPlace (by simp))
        ((Moves.refl w t threads).setPlace _)
        _ _ _ Place.noConfusion (absurd rfl))
      all_goals
        rcases place with place | ⟨_, _, place⟩ <;> rw [place] <;>
          simp [Place.pending, Place.started, Place.inRoutine]
  | finish place =>
      apply close (pooled.go registry ((Aside.refl w).setPlace (by simp))
        ((Moves.refl w t threads).setPlace _)
        _ _ _ Place.noConfusion (absurd rfl))
      all_goals
        rw [place]
        simp [Place.pending, Place.started, Place.inRoutine]

end Pooled

/-- In every run that meets the condition the threads and the handlers fit together. -/
theorem runs_pooled {p : Pool} (reached : Pool.Runs memory Pool.Keeps p) :
    ∃ threads free, Pooled p.world p.given threads free := by
  apply reached.invariant
  · rintro _ ⟨t, rfl⟩
    exact ⟨[], [], Pooled.initial t⟩
  · rintro p p' ⟨threads, free, pooled⟩ ⟨command, keeps, performed⟩
    unfold Pool.Keeps at keeps
    rcases Pool.perform_ok performed with ⟨action, w', isProtocol, effect, same⟩ |
      ⟨-, world, given⟩ | fails
    · rw [isProtocol] at keeps
      rw [same]
      exact pooled.step effect keeps
    · rw [world, given]
      exact ⟨threads, free, pooled⟩
    · rw [fails] at keeps
      cases keeps

/-- In every run in which `pthread_create` never fails and no thread is cancelled but the main
thread, while nobody has a use for its handler, the pool of handlers is conserved. -/
theorem runs_conserved {p : Pool} (reached : Pool.Runs memory Pool.Keeps p) :
    ∃ threads free, p.Conserved threads free := by
  rcases runs_pooled reached with ⟨threads, free, pooled⟩
  refine ⟨threads, free, pooled.listed, pooled.freed, pooled.placed, pooled.distinct,
    fun t h isPending => (pooled.pending t h isPending).2.2, pooled.pendingUnique, ?_⟩
  have apart := (List.nodup_append.mp pooled.distinct).2.2
  intro h mem t uses
  rcases uses with isPending | isStopped | isAwaited | ⟨inside, isGiven⟩
  · exact (pooled.pending t h isPending).2.2 (List.mem_append_right threads mem)
  · exact apart h (pooled.stopped_listed isStopped).1 h mem rfl
  · cases place : p.world.place t with
    | collecting c n =>
        rw [place] at isAwaited
        cases isAwaited
        exact apart _ (pooled.collector t c n place).2 _ mem rfl
    | _ =>
        rw [place] at isAwaited
        cases isAwaited
  · exact apart h (pooled.routine t h isGiven inside).1 h mem rfl

instance (w : World) (t : Nat) (removal : Removal) : Decidable (removal.Leaves w t) :=
  match removal with
  | .cancel target => inferInstanceAs (Decidable
      (target = w.main ∧ (target = t ∨ (w.place target).stoppedAt = none)))
  | .finish | .exit => .isTrue trivial

instance (w : World) (t : Nat) (removal : Removal) : Decidable (removal.Keeps w t) :=
  inferInstanceAs (Decidable (_ ∧ _))

instance (w : World) (t : Nat) (action : Action) : Decidable (action.Keeps w t) := by
  delta Action.Keeps
  exact match action with
  | .wake => match w.place t with
    | .waiting .gc _ _ | .waiting .safepoint _ _ | .waiting (.remove _) _ _ | .waiting .start _ _
    | .absent | .created _ | .prepared _ | .running | .atSafepoint | .collecting _ _
    | .joining _ _ | .freeing _ _ | .unwinding | .finished => inferInstance
  | .gc _ | .gcPtr | .readMoreThanOne | .safepoint | .remove _ | .collectorWake | .prepare | .start
  | .create _ | .join _ | .joined | .free | .enterNew | .leaveNew | .unwind | .finish =>
      inferInstance

instance (p : Pool) : DecidablePred p.Keeps
  | (t, .protocol action) => inferInstanceAs (Decidable (action.Keeps p.world t))
  | (_, .pthreadCreated) => .isTrue trivial
  | (_, .pthreadCreateFails) => .isFalse id

theorem Pool.step_perform {allowed : Pool → Nat × PoolAction → Prop} (p : Pool)
    (command : Nat × PoolAction) (p' : Pool) (permitted : allowed p command)
    (performed : p.perform memory command = .ok p') : Pool.Step memory allowed p p' :=
  ⟨command, permitted, performed⟩

/-- The thread `t` creates the thread `u`, which links its handler. -/
def Pool.begins (t u : Nat) : List (Nat × PoolAction) :=
  [(t, .protocol (.create u)), (t, .pthreadCreated), (u, .protocol .prepare), (u, .protocol .start)]

/-- Thread 1 ends, thread 2 cancels the main thread, and thread 3 is given a handler that has been
freed. -/
def handedOn : List (Nat × PoolAction) :=
  Pool.begins 0 1 ++ Pool.begins 0 2 ++
    [(1, .protocol (.remove .finish)), (1, .protocol .free), (2, .protocol (.remove (.cancel 0))),
      (2, .protocol .free), (2, .protocol (.create 3))]

theorem runs_conserved_handedOn : ∃ p, Foundation.runAll (Pool.perform ascending) handedOn
      (Pool.initial 0) = .ok p ∧ p.world.used.length = 32 ∧
    ∃ threads free, p.Conserved threads free := by
  obtain ⟨p, returned, count⟩ : ∃ p, Foundation.runAll (Pool.perform ascending) handedOn
      (Pool.initial 0) = .ok p ∧ p.world.used.length = 32 :=
    Yields.total (by decide +kernel)
  have reached : Pool.Runs ascending Pool.Keeps p := by
    apply Reachable.runAll (.start ⟨0, rfl⟩) Pool.step_perform _ returned
    decide +kernel
  exact ⟨p, returned, count, runs_conserved reached⟩

/-- After a failure of `pthread_create` the handler is in no place. -/
theorem Registry.createFails {p : Pool} (registry : Registry p.world threads free)
    (place : p.world.place u = .created h) {creating : Nat → Option Nat} :
    ¬ Pool.Conserved { p with world := p.world.setPlace u .absent, creating := creating }
      threads' free' := by
  intro conserved
  have isPending : (p.world.place u).pending = some h := by
    rw [place]
    rfl
  rcases registry.pending u h isPending with ⟨-, inUse, loose⟩
  have sameThreads : threads' = threads := conserved.listed.unique registry.listed
  have sameFree : free' = free := conserved.freed.unique registry.freed
  rcases conserved.placed h inUse with listed | freed | ⟨t, held⟩
  · exact loose (List.mem_append_left free (sameThreads ▸ listed))
  · exact loose (List.mem_append_right threads (sameFree ▸ freed))
  · by_cases same : t = u
    · simp [same, Place.pending] at held
    · exact same (registry.pendingUnique t u h (by simpa [same] using held) isPending)

/-- `pthread_create` fails, and the handler is lost; or the main thread cancels thread 1, and its
handler is free while thread 1 runs its routine. -/
theorem runs_conserved_violated :
    (∃ p, Pool.Runs ascending (fun _ _ => True) p ∧ ∀ threads free, ¬ p.Conserved threads free) ∧
    ∃ p, Pool.Runs ascending (fun _ _ => True) p ∧ p.world.place 1 = .running ∧
      p.Uses 1 p.world.freeList ∧ ∀ threads free, ¬ p.Conserved threads free := by
  constructor
  · obtain ⟨p, returned, place, creating⟩ : ∃ p,
        Foundation.runAll (Pool.perform ascending) [(0, .protocol (.create 1))] (Pool.initial 0) =
          .ok p ∧ p.world.place 1 = .created 2168 ∧ p.creating 0 = some 1 :=
      Yields.total (by decide +kernel)
    have before : Pool.Runs ascending Pool.Keeps p := by
      apply Reachable.runAll (.start ⟨0, rfl⟩) Pool.step_perform _ returned
      decide +kernel
    have reached : Pool.Runs ascending (fun _ _ => True) p := by
      apply Reachable.runAll (.start ⟨0, rfl⟩) Pool.step_perform _ returned
      decide +kernel
    rcases runs_pooled before with ⟨_, _, pooled⟩
    have fails : p.perform ascending (0, .pthreadCreateFails) = .ok { p with
        world := p.world.setPlace 1 .absent, creating := update p.creating 0 none } := by
      simp only [Pool.perform, creating]
    exact ⟨_, reached.next ⟨_, trivial, fails⟩, fun _ _ => pooled.toRegistry.createFails place⟩
  · obtain ⟨p, returned, place, uses, nonnull⟩ : ∃ p,
        Foundation.runAll (Pool.perform ascending) (Pool.begins 0 1 ++
          [(0, .protocol (.remove (.cancel 1))), (0, .protocol .free)]) (Pool.initial 0) = .ok p ∧
        p.world.place 1 = .running ∧ p.given 1 = some p.world.freeList ∧ p.world.freeList ≠ 0 :=
      Yields.total (by decide +kernel)
    have reached : Pool.Runs ascending (fun _ _ => True) p := by
      apply Reachable.runAll (.start ⟨0, rfl⟩) Pool.step_perform _ returned
      decide +kernel
    have isUsed : p.Uses 1 p.world.freeList := by
      refine Or.inr (Or.inr (Or.inr ⟨?_, uses⟩))
      rw [place]
      rfl
    refine ⟨p, reached, place, isUsed, fun threads free conserved => ?_⟩
    apply conserved.unused p.world.freeList _ 1 isUsed
    cases free with
    | nil => exact absurd conserved.freed nonnull
    | cons first later =>
        rw [conserved.freed.1]
        exact List.mem_cons_self

end PreciseGc.Threads

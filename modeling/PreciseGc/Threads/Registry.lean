import PreciseGc.Foundation.Chain
import PreciseGc.Threads.Protocol

/-!
# The registry of threads

The handlers on the list at `first_thread` are those of the threads that
`start_routine` has entered and `remove_thread` has not taken out, one for each.
Handlers that are on neither list belong to a thread that is starting or that is
inside `remove_thread`.
-/

namespace PreciseGc.Threads

open Foundation Function

variable {memory : HandlerMemory} {w w' : World} {threads free : List Nat} {t u h : Nat}

namespace Place

/-- The handler that this thread keeps off both lists. -/
def pending : Place → Option Nat
  | created h => some h
  | prepared h => some h
  | waiting .start h _ => some h
  | freeing h _ => some h
  | _ => none

/-- The handler that `start_routine` has filled in and not linked yet. -/
def ready : Place → Option Nat
  | prepared h => some h
  | waiting .start h _ => some h
  | _ => none

/-- The handler that a thread stands in a safepoint with. -/
def stoppedAt : Place → Option Nat
  | waiting .start _ _ => none
  | waiting _ h _ => some h
  | collecting c _ => some c.handler
  | joining h _ => some h
  | _ => none

/-- `start_routine` has linked the handler of this thread. -/
def started : Place → Bool
  | absent => false
  | created _ => false
  | prepared _ => false
  | waiting .start _ _ => false
  | _ => true

variable {place : Place}

@[simp]
theorem signalled_pending : place.signalled.pending = place.pending := by cases place <;> rfl

@[simp]
theorem signalled_ready : place.signalled.ready = place.ready := by cases place <;> rfl

@[simp]
theorem signalled_stoppedAt : place.signalled.stoppedAt = place.stoppedAt := by
  cases place <;> rfl

@[simp]
theorem signalled_started : place.signalled.started = place.started := by cases place <;> rfl

@[simp]
theorem signalled_eq_absent : place.signalled = absent ↔ place = absent := by
  cases place <;> simp [signalled]

@[simp]
theorem finishedGc_pending : place.finishedGc.pending = place.pending := by
  rcases place with _ | _ | _ | _ | _ | ⟨_ | _ | _ | _, _, _⟩ <;> rfl

@[simp]
theorem finishedGc_ready : place.finishedGc.ready = place.ready := by
  rcases place with _ | _ | _ | _ | _ | ⟨_ | _ | _ | _, _, _⟩ <;> rfl

@[simp]
theorem finishedGc_stoppedAt : place.finishedGc.stoppedAt = place.stoppedAt := by
  rcases place with _ | _ | _ | _ | _ | ⟨_ | _ | _ | _, _, _⟩ <;> rfl

@[simp]
theorem finishedGc_started : place.finishedGc.started = place.started := by
  rcases place with _ | _ | _ | _ | _ | ⟨_ | _ | _ | _, _, _⟩ <;> rfl

@[simp]
theorem finishedGc_eq_absent : place.finishedGc = absent ↔ place = absent := by
  cases place <;> simp [finishedGc]

@[simp]
theorem signalled_eq_freeing {removal : Removal} :
    place.signalled = freeing h removal ↔ place = freeing h removal := by
  cases place <;> simp [signalled]

@[simp]
theorem finishedGc_eq_freeing {removal : Removal} :
    place.finishedGc = freeing h removal ↔ place = freeing h removal := by
  cases place <;> simp [finishedGc]

theorem pending_of_ready (isReady : place.ready = some h) : place.pending = some h := by
  rcases place with _ | _ | _ | _ | _ | ⟨_ | _ | _ | _, _, _⟩ <;> simp_all [ready, pending]

theorem not_started_of_ready (isReady : place.ready = some h) : place.started = false := by
  rcases place with _ | _ | _ | _ | _ | ⟨_ | _ | _ | _, _, _⟩ <;> simp_all [ready, started]

theorem not_ready_of_started (isStarted : place.started = true) : place.ready = none := by
  rcases place with _ | _ | _ | _ | _ | ⟨_ | _ | _ | _, _, _⟩ <;> simp_all [ready, started]

end Place

namespace World

/-- The thread has entered its routine and has not been removed. -/
def Registered (w : World) (t : Nat) : Prop :=
  (w.place t).started = true ∧ w.removed t = false

/-- The link of a handler. -/
def next (w : World) (h : Nat) : Nat := (w.handlers h).next

/-- The `thread` field of a handler. -/
def thread (w : World) (h : Nat) : Nat := (w.handlers h).thread

end World

namespace World

@[simp]
theorem enterSafepoint_next (g : Nat) : (w.enterSafepoint h).next g = w.next g := by
  by_cases same : g = h <;> simp [World.next, same]

@[simp]
theorem enterSafepoint_thread (g : Nat) : (w.enterSafepoint h).thread g = w.thread g := by
  by_cases same : g = h <;> simp [World.thread, same]

@[simp]
theorem exitSafepoint_next (g : Nat) : (w.exitSafepoint h).next g = w.next g := by
  by_cases same : g = h <;> simp [World.next, same]

@[simp]
theorem exitSafepoint_thread (g : Nat) : (w.exitSafepoint h).thread g = w.thread g := by
  by_cases same : g = h <;> simp [World.thread, same]

end World

/-- The two lists of handlers and the threads fit together. -/
structure Registry (w : World) (threads free : List Nat) : Prop where
  listed : Chain w.next w.firstThread threads
  freed : Chain w.next w.freeList free
  distinct : (threads ++ free).Nodup
  used : ∀ h ∈ threads ++ free, h ∈ w.used
  pending : ∀ t h, (w.place t).pending = some h → h ≠ 0 ∧ h ∈ w.used ∧ h ∉ threads ++ free
  pendingUnique : ∀ t u h, (w.place t).pending = some h → (w.place u).pending = some h → t = u
  ready : ∀ t h, (w.place t).ready = some h → w.thread h = t
  owner : ∀ h ∈ threads, w.Registered (w.thread h)
  ownerUnique : ∀ h ∈ threads, ∀ g ∈ threads, w.thread h = w.thread g → h = g
  registered : threads ≠ [] → ∀ t, w.Registered t → ∃ h ∈ threads, w.thread h = t
  stopped : ∀ h ∈ threads, ∀ g, (w.place (w.thread h)).stoppedAt = some g → g = h
  alone : threads = [] → ∀ t, w.place t ≠ .absent →
    w.Registered t ∧ (w.place t).stoppedAt = none ∧ ∀ u, w.place u ≠ .absent → u = t
  removed : ∀ t, w.removed t = true → (w.place t).started = true
  cancelled : ∀ t, w.cancelled t = true → w.removed t = true
  cancelling : ∀ t h u, w.place t = .freeing h (.cancel u) → w.removed u = true

namespace Registry

theorem initial (t : Nat) : Registry (World.initial t) [] [] := by
  have elsewhere : ∀ u, (World.initial t).place u ≠ .absent → u = t := by
    intro u present
    by_contra other
    exact present (by simp [World.initial, other])
  have place : ∀ u, (World.initial t).place u = .absent ∨ (World.initial t).place u = .running := by
    intro u
    by_cases same : u = t <;> simp [World.initial, same]
  constructor
  case listed => rfl
  case freed => rfl
  case pending =>
    intro u h isPending
    rcases place u with absent | running <;> simp_all [Place.pending]
  case pendingUnique =>
    intro u v h isPending
    rcases place u with absent | running <;> simp_all [Place.pending]
  case ready =>
    intro u h isReady
    rcases place u with absent | running <;> simp_all [Place.ready]
  case alone =>
    intro _ u present
    rcases elsewhere u present with rfl
    exact ⟨by simp [World.Registered, World.initial, Place.started],
      by simp [World.initial, Place.stoppedAt], elsewhere⟩
  case cancelling =>
    intro u h v freeing
    rcases place u with absent | running <;> simp_all
  all_goals simp [World.initial]

/-- A step that moves no thread between the stages of its life keeps the registry. -/
theorem transport (registry : Registry w threads free)
    (links : ∀ h, w'.next h = w.next h) (owners : ∀ h ∈ threads, w'.thread h = w.thread h)
    (first : w'.firstThread = w.firstThread) (freeList : w'.freeList = w.freeList)
    (sameUsed : w'.used = w.used) (removed : ∀ t, w'.removed t = w.removed t)
    (cancelled : ∀ t, w'.cancelled t = w.cancelled t)
    (pending : ∀ t h, (w'.place t).pending = some h → (w.place t).pending = some h)
    (ready : ∀ t h, (w'.place t).ready = some h → w'.thread h = t)
    (started : ∀ t, (w'.place t).started = (w.place t).started)
    (absent : ∀ t, w'.place t = .absent ↔ w.place t = .absent)
    (stopped : ∀ t h, (w'.place t).stoppedAt = some h →
      (w.place t).stoppedAt = some h ∨ (h ∈ threads ∧ w.thread h = t))
    (cancelling : ∀ t h u, w'.place t = .freeing h (.cancel u) →
      w.place t = .freeing h (.cancel u)) : Registry w' threads free := by
  have registeredIff : ∀ t, w'.Registered t ↔ w.Registered t := by
    intro t
    rw [World.Registered, World.Registered, started t, removed]
  constructor
  case listed =>
    rw [first]
    exact registry.listed.congr fun h _ => links h
  case freed =>
    rw [freeList]
    exact registry.freed.congr fun h _ => links h
  case distinct => exact registry.distinct
  case used =>
    rw [sameUsed]
    exact registry.used
  case pending =>
    intro t h isPending
    rw [sameUsed]
    exact registry.pending t h (pending t h isPending)
  case pendingUnique =>
    intro t u h left right
    exact registry.pendingUnique t u h (pending t h left) (pending u h right)
  case ready => exact ready
  case owner =>
    intro h mem
    rw [owners h mem, registeredIff]
    exact registry.owner h mem
  case ownerUnique =>
    intro h mem g mem' same
    rw [owners h mem, owners g mem'] at same
    exact registry.ownerUnique h mem g mem' same
  case registered =>
    intro nonempty t registered
    rcases registry.registered nonempty t ((registeredIff t).mp registered) with ⟨h, mem, owned⟩
    exact ⟨h, mem, (owners h mem).trans owned⟩
  case stopped =>
    intro h mem g isStopped
    rw [owners h mem] at isStopped
    rcases stopped _ g isStopped with before | ⟨mem', same⟩
    · exact registry.stopped h mem g before
    · exact registry.ownerUnique g mem' h mem same
  case alone =>
    intro empty t present
    rcases registry.alone empty t (mt (absent t).mpr present) with ⟨registered, notStopped, only⟩
    refine ⟨(registeredIff t).mpr registered, ?_, fun u presentU =>
      only u (mt (absent u).mpr presentU)⟩
    rw [Option.eq_none_iff_forall_ne_some]
    intro h isStopped
    rcases stopped t h isStopped with before | ⟨mem, _⟩
    · rw [notStopped] at before
      cases before
    · rw [empty] at mem
      cases mem
  case removed =>
    intro t isRemoved
    rw [started]
    exact registry.removed t (removed t ▸ isRemoved)
  case cancelled =>
    intro t isCancelled
    rw [removed]
    exact registry.cancelled t (cancelled t ▸ isCancelled)
  case cancelling =>
    intro t h u freeing
    rw [removed]
    exact registry.cancelling t h u (cancelling t h u freeing)

theorem enterSafepoint (registry : Registry w threads free) :
    Registry (w.enterSafepoint h) threads free := by
  apply registry.transport
  case ready => simpa using registry.ready
  all_goals simp +contextual

theorem exitSafepoint (registry : Registry w threads free) :
    Registry (w.exitSafepoint h) threads free := by
  apply registry.transport
  case ready => simpa using registry.ready
  all_goals simp +contextual

theorem signal (registry : Registry w threads free) : Registry w.signal threads free := by
  apply registry.transport
  case ready => simpa [World.thread] using registry.ready
  all_goals simp +contextual [World.next, World.thread]

theorem broadcast (registry : Registry w threads free) : Registry w.broadcast threads free := by
  apply registry.transport
  case ready => simpa [World.thread] using registry.ready
  all_goals simp +contextual [World.next, World.thread]

/-- One thread goes on, at the same stage of its life. -/
theorem setPlace {place : Place} (registry : Registry w threads free)
    (pending : place.pending = none ∨ place.pending = (w.place t).pending)
    (ready : ∀ h, place.ready = some h → w.thread h = t)
    (started : place.started = (w.place t).started)
    (absent : place = .absent ↔ w.place t = .absent)
    (stopped : ∀ h, place.stoppedAt = some h →
      (w.place t).stoppedAt = some h ∨ (h ∈ threads ∧ w.thread h = t))
    (cancelling : ∀ h u, place ≠ .freeing h (.cancel u)) :
    Registry (w.setPlace t place) threads free := by
  apply registry.transport
  case pending =>
    intro u h isPending
    by_cases same : u = t
    · subst same
      rcases pending with none | old
      · simp [none] at isPending
      · simpa [old] using isPending
    · simpa [same] using isPending
  case ready =>
    intro u h isReady
    by_cases same : u = t
    · subst same
      exact ready h (by simpa using isReady)
    · exact registry.ready u h (by simpa [same] using isReady)
  case started =>
    intro u
    by_cases same : u = t
    · subst same
      simpa using started
    · simp [same]
  case absent =>
    intro u
    by_cases same : u = t
    · subst same
      simpa using absent
    · simp [same]
  case stopped =>
    intro u h isStopped
    by_cases same : u = t
    · subst same
      exact stopped h (by simpa using isStopped)
    · left
      simpa [same] using isStopped
  case cancelling =>
    intro u h v freeing
    by_cases same : u = t
    · subst same
      exact absurd (by simpa using freeing) (cancelling h v)
    · simpa [same] using freeing
  all_goals simp [World.next, World.thread]

/-- The free list and the handlers taken from the system change, the rest does not. -/
theorem refree {free' : List Nat} (registry : Registry w threads free)
    (places : ∀ t, w'.place t = w.place t) (removed : ∀ t, w'.removed t = w.removed t)
    (cancelled : ∀ t, w'.cancelled t = w.cancelled t) (first : w'.firstThread = w.firstThread)
    (owners : ∀ h, w'.thread h = w.thread h) (links : ∀ h ∈ threads, w'.next h = w.next h)
    (freed : Chain w'.next w'.freeList free') (distinct : (threads ++ free').Nodup)
    (grown : ∀ h ∈ w.used, h ∈ w'.used) (freeUsed : ∀ h ∈ free', h ∈ w'.used)
    (pending : ∀ t h, (w.place t).pending = some h → h ∉ free') :
    Registry w' threads free' := by
  have registeredIff : ∀ t, w'.Registered t ↔ w.Registered t := by
    intro t
    rw [World.Registered, World.Registered, places t, removed t]
  constructor
  case listed =>
    rw [first]
    exact registry.listed.congr links
  case freed => exact freed
  case distinct => exact distinct
  case used =>
    intro h mem
    rcases List.mem_append.mp mem with inThreads | inFree
    · exact grown h (registry.used h (by simp [inThreads]))
    · exact freeUsed h inFree
  case pending =>
    intro t h isPending
    rw [places] at isPending
    rcases registry.pending t h isPending with ⟨nonnull, inUse, loose⟩
    refine ⟨nonnull, grown h inUse, ?_⟩
    have notFree := pending t h isPending
    simp_all
  case pendingUnique =>
    intro t u h left right
    rw [places] at left right
    exact registry.pendingUnique t u h left right
  case ready =>
    intro t h isReady
    rw [places] at isReady
    rw [owners]
    exact registry.ready t h isReady
  case owner =>
    intro h mem
    rw [owners, registeredIff]
    exact registry.owner h mem
  case ownerUnique =>
    intro h mem g mem' same
    rw [owners, owners] at same
    exact registry.ownerUnique h mem g mem' same
  case registered =>
    intro nonempty t registered
    rcases registry.registered nonempty t ((registeredIff t).mp registered) with ⟨h, mem, owned⟩
    exact ⟨h, mem, (owners h).trans owned⟩
  case stopped =>
    intro h mem g isStopped
    rw [owners, places] at isStopped
    exact registry.stopped h mem g isStopped
  case alone =>
    intro empty t present
    rw [places] at present ⊢
    rcases registry.alone empty t present with ⟨registered, notStopped, only⟩
    refine ⟨(registeredIff t).mpr registered, notStopped, fun u presentU => only u ?_⟩
    rwa [places] at presentU
  case removed =>
    intro t isRemoved
    rw [removed] at isRemoved
    rw [places]
    exact registry.removed t isRemoved
  case cancelled =>
    intro t isCancelled
    rw [removed]
    rw [cancelled] at isCancelled
    exact registry.cancelled t isCancelled
  case cancelling =>
    intro t h u freeing
    rw [places] at freeing
    rw [removed]
    exact registry.cancelling t h u freeing

theorem pushFree (registry : Registry w threads free) (nonnull : h ≠ 0) (inUse : h ∈ w.used)
    (loose : h ∉ threads ++ free) (unclaimed : ∀ t, (w.place t).pending ≠ some h) :
    Registry (w.pushFree h) threads (h :: free) := by
  simp only [List.mem_append, not_or] at loose
  have links : ∀ g, g ≠ h → (w.pushFree h).next g = w.next g := by
    intro g other
    simp [World.next, other]
  apply registry.refree
  case owners =>
    intro g
    by_cases same : g = h <;> simp [World.thread, same]
  case links =>
    intro g mem
    apply links
    rintro rfl
    exact loose.1 mem
  case freed =>
    apply registry.freed.push nonnull loose.2 _ links
    simp [World.next]
  case distinct =>
    apply (List.nodup_middle).mpr
    exact List.nodup_cons.mpr ⟨by simp [loose], registry.distinct⟩
  case freeUsed =>
    intro g mem
    rcases List.mem_cons.mp mem with rfl | later
    · exact inUse
    · exact registry.used g (by simp [later])
  case pending =>
    intro t g isPending mem
    rcases List.mem_cons.mp mem with rfl | later
    · exact unclaimed t isPending
    · exact (registry.pending t g isPending).2.2 (by simp [later])
  all_goals simp

/-- Taking the first handler of the free list. -/
theorem popFree (registry : Registry w threads free) (nonempty : w.freeList ≠ 0) :
    ∃ free', free = w.freeList :: free' ∧
      Registry { w with freeList := w.next w.freeList } threads free' := by
  cases free with
  | nil => exact absurd registry.freed nonempty
  | cons first free =>
      rcases registry.freed with ⟨rfl, -, rest⟩
      refine ⟨free, rfl, ?_⟩
      apply registry.refree
      case freed => exact rest
      case distinct => exact (List.nodup_cons.mp (List.nodup_middle.mp registry.distinct)).2
      case freeUsed =>
        intro h mem
        exact registry.used h (by simp [mem])
      case pending =>
        intro t h isPending mem
        exact (registry.pending t h isPending).2.2 (by simp [mem])
      all_goals first | (intros; rfl) | exact fun _ mem => mem

end Registry

end PreciseGc.Threads

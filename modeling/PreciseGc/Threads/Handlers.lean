import Mathlib.Data.List.Perm.Subperm
import PreciseGc.Threads.Registry

/-!
# Finding and creating handlers

`new_thread_handler` returns a handler that is on neither list, and
`get_thread_handler` finds the handler of every registered thread.
-/

namespace PreciseGc.Threads

open Foundation Function

variable {memory : HandlerMemory} {w w' : World} {threads free : List Nat} {t u h : Nat}

namespace World

/-- Only the free list, the links and the memory taken from the system differ. -/
def Recycled (w w' : World) : Prop :=
  ∃ handlers freeList used,
    w' = { w with handlers := handlers, freeList := freeList, used := used } ∧
    ∀ h, (handlers h).thread = (w.handlers h).thread ∧
      (handlers h).inSafepoint = (w.handlers h).inSafepoint

namespace Recycled

theorem refl (w : World) : w.Recycled w := ⟨_, _, _, rfl, fun _ => ⟨rfl, rfl⟩⟩

theorem trans {w'' : World} (left : w.Recycled w') (right : w'.Recycled w'') :
    w.Recycled w'' := by
  rcases left with ⟨handlers, freeList, used, rfl, same⟩
  rcases right with ⟨handlers', freeList', used', rfl, same'⟩
  refine ⟨handlers', freeList', used', rfl, fun h => ?_⟩
  exact ⟨(same' h).1.trans (same h).1, (same' h).2.trans (same h).2⟩

end Recycled

theorem refill_recycled (w : World) (base n : Nat) : w.Recycled (w.refill base n) := by
  induction n with
  | zero => exact Recycled.refl w
  | succ n ih =>
      apply ih.trans
      refine ⟨_, _, _, rfl, fun h => ?_⟩
      by_cases same : h = base + 72 * n <;> simp [same]

theorem mem_refill_used {base n : Nat} (mem : h ∈ (w.refill base n).used) :
    h ∈ w.used ∨ ∃ i < n, h = base + 72 * i := by
  induction n with
  | zero => exact Or.inl mem
  | succ n ih =>
      rcases List.mem_cons.mp mem with rfl | later
      · exact Or.inr ⟨n, by omega, rfl⟩
      · rcases ih later with old | ⟨i, bound, rfl⟩
        · exact Or.inl old
        · exact Or.inr ⟨i, by omega, rfl⟩

theorem newThreadHandler_recycled (w : World) (memory : HandlerMemory) : w.Recycled
    (w.newThreadHandler memory).2 := by
  rw [newThreadHandler]
  split
  next => exact (refill_recycled _ _ _).trans ⟨_, _, _, rfl, fun _ => ⟨rfl, rfl⟩⟩
  next => exact ⟨_, _, _, rfl, fun _ => ⟨rfl, rfl⟩⟩

end World

namespace Registry

theorem refill {base n : Nat} (registry : Registry w threads free) (nonnull : base ≠ 0)
    (fresh : ∀ i < n, base + 72 * i ∉ w.used) :
    ∃ free', Registry (w.refill base n) threads free' ∧ (n = 0 ∨ (w.refill base n).freeList ≠ 0) ∧
      (∀ g ∈ free, g ∈ free') ∧ ∀ g ∈ (w.refill base n).used, g ∈ w.used ∨ g ∈ free' := by
  induction n with
  | zero => exact ⟨free, registry, Or.inl rfl, fun _ mem => mem, fun _ mem => Or.inl mem⟩
  | succ n ih =>
      rcases ih fun i bound => fresh i (by omega) with ⟨free', filled, -, kept, added⟩
      have unused : base + 72 * n ∉ (w.refill base n).used := by
        intro mem
        rcases World.mem_refill_used mem with old | ⟨i, bound, same⟩
        · exact fresh n (by omega) old
        · omega
      have loose : base + 72 * n ∉ threads ++ free' := fun mem => unused (filled.used _ mem)
      have unclaimed : ∀ t, ((w.refill base n).place t).pending ≠ some (base + 72 * n) :=
        fun t isPending => unused (filled.pending t _ isPending).2.1
      have grown : Registry
          { w.refill base n with used := (base + 72 * n) :: (w.refill base n).used }
          threads free' := by
        apply filled.refree
        case freed => exact filled.freed
        case distinct => exact filled.distinct
        case grown => exact fun h mem => List.mem_cons_of_mem _ mem
        case freeUsed =>
          intro h mem
          exact List.mem_cons_of_mem _ (filled.used h (by simp [mem]))
        case pending =>
          intro t h isPending mem
          exact (filled.pending t h isPending).2.2 (by simp [mem])
        all_goals (intros; rfl)
      have pushed := grown.pushFree (h := base + 72 * n) (by omega) (by simp) loose unclaimed
      refine ⟨_, pushed, Or.inr ?_, fun g mem => List.mem_cons_of_mem _ (kept g mem), ?_⟩
      · change base + 72 * n ≠ 0
        omega
      · intro g mem
        rcases List.mem_cons.mp mem with same | later
        · exact Or.inr (List.mem_cons.mpr (Or.inl same))
        · exact (added g later).imp_right (List.mem_cons_of_mem _)

theorem batchSize_pos (used : List Nat) : 0 < batchSize used := by
  rw [batchSize]
  split <;> decide

/-- The handlers of the free list, and those taken from the system, are on the free list or are
the handler `h`. -/
structure Drawn (w w' : World) (free free' : List Nat) (h : Nat) : Prop where
  kept : ∀ g ∈ free, g ∈ free' ∨ g = h
  added : ∀ g ∈ w'.used, g ∈ w.used ∨ g ∈ free' ∨ g = h

/-- A new handler is on neither list, and no thread holds it. -/
theorem newThreadHandler (memory : HandlerMemory) (registry : Registry w threads free) :
    ∃ free', Registry (w.newThreadHandler memory).2 threads free' ∧
      (w.newThreadHandler memory).1 ≠ 0 ∧
      (w.newThreadHandler memory).1 ∈ (w.newThreadHandler memory).2.used ∧
      (w.newThreadHandler memory).1 ∉ threads ++ free' ∧
      (∀ t, (w.place t).pending ≠ some (w.newThreadHandler memory).1) ∧
      Drawn w (w.newThreadHandler memory).2 free free' (w.newThreadHandler memory).1 := by
  have filled : ∃ free', Registry
      (if w.freeList = 0 then w.refill (memory.base w.used) (batchSize w.used) else w)
        threads free' ∧
      (if w.freeList = 0 then w.refill (memory.base w.used) (batchSize w.used)
        else w).freeList ≠ 0 ∧
      (∀ g ∈ free, g ∈ free') ∧
      ∀ g ∈ (if w.freeList = 0 then w.refill (memory.base w.used) (batchSize w.used) else w).used,
        g ∈ w.used ∨ g ∈ free' := by
    split
    next =>
      obtain ⟨free', filled, empty | nonempty, kept⟩ := registry.refill (n := batchSize w.used)
        (memory.nonnull w.used) (memory.fresh w.used)
      · exact absurd empty (Nat.ne_of_gt (batchSize_pos w.used))
      · exact ⟨free', filled, nonempty, kept⟩
    next nonempty => exact ⟨free, registry, nonempty, fun _ mem => mem, fun _ mem => Or.inl mem⟩
  have samePlaces : ∀ t, (if w.freeList = 0 then w.refill (memory.base w.used) (batchSize w.used)
      else w).place t = w.place t := by
    intro t
    split
    next =>
      rcases w.refill_recycled (memory.base w.used) (batchSize w.used) with ⟨_, _, _, same, -⟩
      rw [same]
    next => rfl
  rw [World.newThreadHandler]
  generalize
    (if w.freeList = 0 then w.refill (memory.base w.used) (batchSize w.used) else w) = v at *
  rcases filled with ⟨free₁, registry₁, nonempty, kept, added⟩
  rcases registry₁.popFree nonempty with ⟨free', rfl, popped⟩
  have distinct := List.nodup_cons.mp (List.nodup_middle.mp registry₁.distinct)
  have drawn : ∀ g ∈ v.freeList :: free', g ∈ free' ∨ g = v.freeList :=
    fun g mem => (List.mem_cons.mp mem).symm
  refine ⟨free', popped, nonempty, registry₁.used _ (by simp), distinct.1, fun t isPending => ?_,
    fun g mem => drawn g (kept g mem), fun g mem => (added g mem).imp_right (drawn g)⟩
  rw [← samePlaces] at isPending
  exact (registry₁.pending t _ isPending).2.2 (by simp)

/-- `create_first_handler` of the only thread. -/
theorem createFirstHandler (memory : HandlerMemory) (registry : Registry w [] free)
    (present : w.place t ≠ .absent) :
    ∃ free', Registry (w.createFirstHandler memory t) [(w.createFirstHandler memory t).firstThread]
      free' ∧ (w.createFirstHandler memory t).thread
        (w.createFirstHandler memory t).firstThread = t ∧
      Drawn w (w.createFirstHandler memory t) free free'
        (w.createFirstHandler memory t).firstThread := by
  rcases registry.alone rfl t present with ⟨isRegistered, notStopped, only⟩
  obtain ⟨free', created, nonnull, inUse, loose, unclaimed, drawn⟩ :=
    registry.newThreadHandler memory
  rcases w.newThreadHandler_recycled memory with ⟨handlers, freeList, used, same, -⟩
  rw [World.createFirstHandler]
  generalize (w.newThreadHandler memory).1 = h at *
  generalize (w.newThreadHandler memory).2 = v at *
  simp only [List.nil_append] at loose
  have elsewhere : ∀ u, u ≠ t → v.place u = .absent := by
    intro u other
    by_contra presentU
    rw [same] at presentU
    exact other (only u presentU)
  have here : v.place t = w.place t := by rw [same]
  have links : ∀ g, g ≠ h → (v.setHandler h ⟨t, false, 0⟩).next g = v.next g := by
    intro g other
    simp [World.next, other]
  have registeredIff : ∀ u,
    World.Registered { v.setHandler h ⟨t, false, 0⟩ with firstThread := h } u ↔
      v.Registered u := fun _ => Iff.rfl
  refine ⟨free', ?_, by simp [World.thread], drawn.kept, drawn.added⟩
  constructor
  case listed => simp [nonnull, World.next]
  case freed =>
    apply created.freed.congr
    intro g mem
    apply links
    rintro rfl
    exact loose mem
  case distinct => exact List.nodup_cons.mpr ⟨loose, created.distinct⟩
  case used =>
    intro g mem
    rcases List.mem_cons.mp mem with rfl | later
    · exact inUse
    · exact created.used g later
  case pending =>
    intro u g isPending
    have old := created.pending u g isPending
    refine ⟨old.1, old.2.1, fun mem => ?_⟩
    rcases List.mem_cons.mp mem with rfl | later
    · apply unclaimed u
      rw [same] at isPending
      exact isPending
    · exact old.2.2 later
  case pendingUnique => exact created.pendingUnique
  case ready =>
    intro u g isReady
    by_cases isHere : u = t
    · subst isHere
      have started : (v.place u).started = true := by
        rw [here]
        exact isRegistered.1
      change (v.place u).ready = some g at isReady
      rw [Place.not_ready_of_started started] at isReady
      cases isReady
    · change (v.place u).ready = some g at isReady
      rw [elsewhere u isHere] at isReady
      cases isReady
  case owner =>
    intro g mem
    rcases List.mem_singleton.mp mem with rfl
    rw [registeredIff, World.Registered]
    simp only [World.thread, World.setHandler_handlers, update_self]
    rw [same]
    exact isRegistered
  case ownerUnique =>
    intro g mem g' mem' _
    exact (List.mem_singleton.mp mem).trans (List.mem_singleton.mp mem').symm
  case registered =>
    intro _ u isRegisteredU
    refine ⟨h, by simp, ?_⟩
    by_contra other
    have absent : v.place u = .absent := by
      apply elsewhere
      simpa [World.thread, eq_comm] using other
    have started := isRegisteredU.1
    simp [absent, Place.started] at started
  case stopped =>
    intro g mem g' isStopped
    rcases List.mem_singleton.mp mem with rfl
    simp only [World.thread, World.setHandler_handlers, update_self,
      World.setHandler_place] at isStopped
    rw [here, notStopped] at isStopped
    cases isStopped
  case alone =>
    intro empty
    cases empty
  case removed => exact created.removed
  case cancelled => exact created.cancelled
  case cancelling => exact created.cancelling

end Registry

namespace World

theorem search_succ {fuel prev curr : Nat} (nonnull : curr ≠ 0) :
    w.search t (fuel + 1) prev curr =
      if w.thread curr = t then .ok (prev, curr) else w.search t fuel curr (w.next curr) := by
  rw [search, if_neg nonnull]
  rfl

theorem search_eq {front back : List Nat} {fuel prev curr : Nat}
    (chain : Chain w.next curr (front ++ h :: back)) (owned : w.thread h = t)
    (others : ∀ g ∈ front, w.thread g ≠ t) (enough : front.length < fuel) :
    w.search t fuel prev curr = .ok (front.getLastD prev, h) := by
  induction front generalizing prev curr fuel with
  | nil =>
      rcases chain with ⟨rfl, nonnull, -⟩
      cases fuel with
      | zero => simp at enough
      | succ fuel =>
          rw [search_succ nonnull, if_pos owned]
          rfl
  | cons g front ih =>
      rcases chain with ⟨rfl, nonnull, rest⟩
      cases fuel with
      | zero => simp at enough
      | succ fuel =>
          rw [search_succ nonnull, if_neg (others curr (by simp)),
            ih rest (fun g mem => others g (by simp [mem])) (by simpa using enough),
            List.getLastD_cons]

theorem search_ok {cells : List Nat} {fuel prev curr p : Nat} (chain : Chain w.next curr cells)
    (found : w.search t fuel prev curr = .ok (p, h)) :
    ∃ front back, cells = front ++ h :: back ∧ p = front.getLastD prev ∧ w.thread h = t := by
  induction cells generalizing prev curr fuel with
  | nil =>
      obtain rfl : curr = 0 := chain
      cases fuel <;> simp [search] at found
  | cons g cells ih =>
      rcases chain with ⟨rfl, nonnull, rest⟩
      cases fuel with
      | zero => simp [search] at found
      | succ fuel =>
          rw [search_succ nonnull] at found
          split at found
          next owned =>
            cases found
            exact ⟨[], cells, rfl, rfl, owned⟩
          next =>
            rcases ih rest found with ⟨front, back, rfl, rfl, owned⟩
            exact ⟨curr :: front, back, rfl, by rw [List.getLastD_cons], owned⟩

end World

namespace Registry

/-- The search of a registered thread succeeds. -/
theorem find (registry : Registry w threads free) (nonempty : threads ≠ [])
    (registered : w.Registered t) :
    ∃ front h back, threads = front ++ h :: back ∧ w.thread h = t ∧
      w.find t = .ok (front.getLastD 0, h) := by
  rcases registry.registered nonempty t registered with ⟨h, mem, owned⟩
  rcases List.append_of_mem mem with ⟨front, back, rfl⟩
  refine ⟨front, h, back, rfl, owned, ?_⟩
  have distinct := (List.nodup_append.mp registry.distinct).1
  apply World.search_eq registry.listed owned
  · intro g memFront same
    have := registry.ownerUnique g (by simp [memFront]) h (by simp) (same.trans owned.symm)
    subst this
    exact (List.nodup_middle.mp distinct |> List.nodup_cons.mp).1 (by simp [memFront])
  · have bound := (List.subperm_of_subset distinct fun g mem =>
      registry.used g (List.mem_append_left _ mem)).length_le
    simp at bound
    omega

theorem find_ok {prev : Nat} (registry : Registry w threads free)
    (found : w.find t = .ok (prev, h)) :
    ∃ front back, threads = front ++ h :: back ∧ prev = front.getLastD 0 ∧ w.thread h = t :=
  World.search_ok registry.listed found

/-- `start_routine` fills the handler of its thread in. -/
theorem prepare (registry : Registry w threads free) (place : w.place t = .created h) :
    Registry ((w.setHandler h { w.handlers h with thread := t, inSafepoint := false }).setPlace t
      (.prepared h)) threads free := by
  have loose := registry.pending t h (by rw [place]; rfl)
  have owners : ∀ g, g ≠ h → ((w.setHandler h
      { w.handlers h with thread := t, inSafepoint := false }).setPlace t (.prepared h)).thread g =
      w.thread g := by
    intro g other
    simp [World.thread, other]
  apply registry.transport
  case links =>
    intro g
    by_cases same : g = h <;> simp [World.next, same]
  case owners =>
    intro g mem
    apply owners
    rintro rfl
    exact loose.2.2 (List.mem_append_left _ mem)
  case pending =>
    intro u g isPending
    by_cases same : u = t
    · subst same
      rw [place]
      simpa [Place.pending] using isPending
    · simpa [same] using isPending
  case ready =>
    intro u g isReady
    by_cases same : u = t
    · subst same
      obtain rfl : h = g := by simpa [Place.ready] using isReady
      simp [World.thread]
    · replace isReady : (w.place u).ready = some g := by simpa [same] using isReady
      rw [owners g]
      · exact registry.ready u g isReady
      · rintro rfl
        exact same (registry.pendingUnique u t g (Place.pending_of_ready isReady)
          (by rw [place]; rfl))
  case started =>
    intro u
    by_cases same : u = t <;> simp [same, place, Place.started]
  case absent =>
    intro u
    by_cases same : u = t <;> simp [same, place]
  case stopped =>
    intro u g isStopped
    by_cases same : u = t
    · simp [same, Place.stoppedAt] at isStopped
    · left
      simpa [same] using isStopped
  case cancelling =>
    intro u g v freeing
    by_cases same : u = t
    · simp [same] at freeing
    · simpa [same] using freeing
  all_goals simp

/-- `thread_create` of a thread that did not exist. -/
theorem create (memory : HandlerMemory) (registry : Registry w threads free)
    (nonempty : threads ≠ [])
    (absent : w.place u = .absent) :
    ∃ free', Registry ((w.newThreadHandler memory).2.setPlace u
      (.created (w.newThreadHandler memory).1)) threads free' ∧
      Drawn w (w.newThreadHandler memory).2 free free' (w.newThreadHandler memory).1 := by
  obtain ⟨free', created, nonnull, inUse, loose, unclaimed, drawn⟩ :=
    registry.newThreadHandler memory
  rcases w.newThreadHandler_recycled memory with ⟨handlers, freeList, used, same, -⟩
  generalize (w.newThreadHandler memory).1 = h at *
  generalize (w.newThreadHandler memory).2 = v at *
  have places : ∀ t, t ≠ u → (v.setPlace u (.created h)).place t = v.place t := by
    intro t other
    simp [other]
  have oldPlace : ∀ t, v.place t = w.place t := by
    intro t
    rw [same]
  have registeredIff : ∀ t, (v.setPlace u (.created h)).Registered t ↔ v.Registered t := by
    intro t
    by_cases other : t = u
    · subst other
      simp [World.Registered, oldPlace, absent, Place.started]
    · simp [World.Registered, other]
  refine ⟨free', ?_, drawn⟩
  constructor
  case listed => exact created.listed
  case freed => exact created.freed
  case distinct => exact created.distinct
  case used => exact created.used
  case pending =>
    intro t g isPending
    by_cases other : t = u
    · subst other
      obtain rfl : h = g := by simpa [Place.pending] using isPending
      exact ⟨nonnull, inUse, loose⟩
    · exact created.pending t g (places t other ▸ isPending)
  case pendingUnique =>
    intro t t' g left right
    have newer : ∀ t', t' ≠ u → ((v.setPlace u (.created h)).place u).pending = some g →
        ((v.setPlace u (.created h)).place t').pending ≠ some g := by
      intro t' other here there
      obtain rfl : h = g := by simpa [Place.pending] using here
      rw [places t' other, oldPlace] at there
      exact unclaimed t' there
    by_cases first : t = u
    · by_contra different
      subst first
      exact newer t' (Ne.symm different) left right
    · by_cases second : t' = u
      · subst second
        exact absurd left (newer t first right)
      · exact created.pendingUnique t t' g (places t first ▸ left) (places t' second ▸ right)
  case ready =>
    intro t g isReady
    by_cases other : t = u
    · simp [other, Place.ready] at isReady
    · exact created.ready t g (places t other ▸ isReady)
  case owner =>
    intro g mem
    rw [registeredIff]
    exact created.owner g mem
  case ownerUnique => exact created.ownerUnique
  case registered =>
    intro _ t isRegistered
    exact created.registered nonempty t ((registeredIff t).mp isRegistered)
  case stopped =>
    intro g mem g' isStopped
    apply created.stopped g mem
    change ((v.setPlace u (.created h)).place (v.thread g)).stoppedAt = some g' at isStopped
    by_cases other : v.thread g = u
    · simp [other, Place.stoppedAt] at isStopped
    · exact places _ other ▸ isStopped
  case alone =>
    intro empty
    exact absurd empty nonempty
  case removed =>
    intro t isRemoved
    have started := created.removed t isRemoved
    by_cases other : t = u
    · subst other
      rw [oldPlace, absent] at started
      cases started
    · rw [places t other]
      exact started
  case cancelled => exact created.cancelled
  case cancelling =>
    intro t g v freeing
    by_cases other : t = u
    · simp [other] at freeing
    · exact created.cancelling t g v (places t other ▸ freeing)

/-- `start_routine` puts the handler of its thread on the list. -/
theorem link (registry : Registry w threads free) (ready : (w.place t).ready = some h) :
    Registry (w.link t h) (h :: threads) free := by
  have isPending := Place.pending_of_ready ready
  have owned := registry.ready t h ready
  rcases registry.pending t h isPending with ⟨nonnull, inUse, loose⟩
  simp only [List.mem_append, not_or] at loose
  have starting : (w.place t).started = false := Place.not_started_of_ready ready
  have nonempty : threads ≠ [] := by
    intro empty
    have present : w.place t ≠ .absent := by
      intro absent
      simp [absent, Place.ready] at ready
    have started := (registry.alone empty t present).1.1
    rw [starting] at started
    cases started
  have kept : w.removed t = false := by
    cases isRemoved : w.removed t with
    | false => rfl
    | true => exact absurd (registry.removed t isRemoved) (by simp [starting])
  have places : ∀ u, u ≠ t → (w.link t h).place u = w.place u := by
    intro u other
    simp [World.link, other]
  have here : (w.link t h).place t = .running := by simp [World.link]
  have links : ∀ g, g ≠ h → (w.link t h).next g = w.next g := by
    intro g other
    simp [World.link, World.next, other]
  have owners : ∀ g, (w.link t h).thread g = w.thread g := by
    intro g
    by_cases same : g = h <;> simp [World.link, World.thread, same]
  have oldOwner : ∀ g ∈ threads, w.thread g ≠ t := by
    intro g mem same
    have started := (registry.owner g mem).1
    rw [same, starting] at started
    cases started
  have registeredIff : ∀ u, u ≠ t → ((w.link t h).Registered u ↔ w.Registered u) := by
    intro u other
    rw [World.Registered, World.Registered, places u other]
    exact Iff.rfl
  have registeredHere : (w.link t h).Registered t := by
    rw [World.Registered, here]
    exact ⟨rfl, kept⟩
  constructor
  case listed =>
    apply registry.listed.push nonnull loose.1 _ links
    simp [World.link, World.next]
  case freed =>
    apply registry.freed.congr
    intro g mem
    apply links
    rintro rfl
    exact loose.2 mem
  case distinct => exact List.nodup_cons.mpr ⟨by simp [loose], registry.distinct⟩
  case used =>
    intro g mem
    rcases List.mem_cons.mp mem with rfl | later
    · exact inUse
    · exact registry.used g later
  case pending =>
    intro u g isPendingU
    by_cases same : u = t
    · subst same
      simp [here, Place.pending] at isPendingU
    · rw [places u same] at isPendingU
      have old := registry.pending u g isPendingU
      refine ⟨old.1, old.2.1, fun mem => ?_⟩
      rcases List.mem_cons.mp mem with rfl | later
      · exact same (registry.pendingUnique u t g isPendingU isPending)
      · exact old.2.2 later
  case pendingUnique =>
    intro u v g left right
    by_cases first : u = t
    · subst first
      simp [here, Place.pending] at left
    · by_cases second : v = t
      · subst second
        simp [here, Place.pending] at right
      · exact registry.pendingUnique u v g (places u first ▸ left) (places v second ▸ right)
  case ready =>
    intro u g isReady
    rw [owners]
    by_cases same : u = t
    · subst same
      simp [here, Place.ready] at isReady
    · exact registry.ready u g (places u same ▸ isReady)
  case owner =>
    intro g mem
    rw [owners]
    rcases List.mem_cons.mp mem with rfl | later
    · rw [owned]
      exact registeredHere
    · exact (registeredIff _ (oldOwner g later)).mpr (registry.owner g later)
  case ownerUnique =>
    intro g mem g' mem' same
    rw [owners, owners] at same
    rcases List.mem_cons.mp mem with rfl | later
    · rcases List.mem_cons.mp mem' with rfl | later'
      · rfl
      · exact absurd (same.symm.trans owned) (oldOwner g' later')
    · rcases List.mem_cons.mp mem' with rfl | later'
      · exact absurd (same.trans owned) (oldOwner g later)
      · exact registry.ownerUnique g later g' later' same
  case registered =>
    intro _ u isRegistered
    by_cases same : u = t
    · exact ⟨h, by simp, by rw [owners, owned, same]⟩
    · obtain ⟨g, mem, ownedU⟩ :=
        registry.registered nonempty u ((registeredIff u same).mp isRegistered)
      exact ⟨g, by simp [mem], by rw [owners, ownedU]⟩
  case stopped =>
    intro g mem g' isStopped
    rw [owners] at isStopped
    rcases List.mem_cons.mp mem with rfl | later
    · rw [owned, here] at isStopped
      cases isStopped
    · rw [places _ (oldOwner g later)] at isStopped
      exact registry.stopped g later g' isStopped
  case alone =>
    intro empty
    cases empty
  case removed =>
    intro u isRemoved
    by_cases same : u = t
    · rw [same, here]
      rfl
    · rw [places u same]
      exact registry.removed u isRemoved
  case cancelled => exact registry.cancelled
  case cancelling =>
    intro u g v freeing
    by_cases same : u = t
    · rw [same, here] at freeing
      cases freeing
    · exact registry.cancelling u g v (places u same ▸ freeing)

end Registry

namespace World

variable {removal : Removal}

theorem unlink_ok (unlinked : w.unlink t removal = .ok w') :
    ∃ prev curr, w.find (removal.target t) = .ok (prev, curr) ∧
      (w.bypass prev curr).firstThread ≠ 0 ∧
      w' = (w.bypass prev curr).endRemoval t curr removal := by
  rw [unlink] at unlinked
  cases found : w.find (removal.target t) with
  | error fault => simp [found, bind, Except.bind] at unlinked
  | ok result =>
      simp only [found, bind, Except.bind] at unlinked
      split at unlinked
      next => cases unlinked
      next nonnull =>
        cases unlinked
        exact ⟨_, _, rfl, nonnull, rfl⟩

theorem bypass_eq (w : World) (prev curr : Nat) : ∃ handlers firstThread,
    w.bypass prev curr = { w with handlers := handlers, firstThread := firstThread } ∧
    ∀ g, (handlers g).thread = w.thread g ∧
      (handlers g).inSafepoint = (w.handlers g).inSafepoint ∧
      (g ≠ prev → (handlers g).next = w.next g) := by
  rw [bypass]
  split
  next => exact ⟨_, _, rfl, fun g => ⟨rfl, rfl, fun _ => rfl⟩⟩
  next =>
    refine ⟨_, _, rfl, fun g => ?_⟩
    by_cases same : g = prev <;> simp [same, World.thread, World.next]

/-- Going past a handler takes it off a list. -/
theorem bypass_chain {front back : List Nat}
    (chain : Chain w.next w.firstThread (front ++ h :: back))
    (distinct : (front ++ h :: back).Nodup) :
    Chain (w.bypass (front.getLastD 0) h).next (w.bypass (front.getLastD 0) h).firstThread
      (front ++ back) := by
  have nonnull : ∀ g ∈ front, g ≠ 0 := fun g mem => chain.ne_zero (List.mem_append_left _ mem)
  cases last : front.getLast? with
  | none =>
      rcases List.getLast?_eq_none_iff.mp last with rfl
      exact chain.2.2
  | some prev =>
      have mem := List.mem_of_getLast? last
      have isPrev : front.getLastD 0 = prev := by simp [List.getLastD_eq_getLast?, last]
      have agree : ∀ g ∈ front ++ back, front.getLast? ≠ some g →
          (w.bypass prev h).next g = w.next g := by
        intro g _ notLast
        have other : g ≠ prev := by
          rintro rfl
          exact notLast last
        simp [bypass, nonnull prev mem, World.next, other]
      have redirect : ∀ g, front.getLast? = some g → (w.bypass prev h).next g = w.next h := by
        intro g isLast
        obtain rfl : prev = g := by simpa [last] using isLast
        simp [bypass, nonnull prev mem, World.next]
      have unlinked := chain.unlink distinct agree redirect
      have nonempty : front ≠ [] := List.ne_nil_of_mem mem
      rw [if_neg nonempty] at unlinked
      rw [isPrev]
      have first : (w.bypass prev h).firstThread = w.firstThread := by
        simp [bypass, nonnull prev mem]
      rw [first]
      exact unlinked

end World

namespace Registry

/-- `remove_thread` takes a handler off the list. -/
theorem unlink {removal : Removal} (registry : Registry w threads free)
    (started : (w.place t).started = true)
    (unlinked : w.unlink t removal = .ok w') :
    ∃ front h back, threads = front ++ h :: back ∧ w.thread h = removal.target t ∧
      front ++ back ≠ [] ∧ Registry w' (front ++ back) free := by
  rcases World.unlink_ok unlinked with ⟨prev, curr, found, nonnull, rfl⟩
  rcases registry.find_ok found with ⟨front, back, rfl, rfl, owned⟩
  have distinct := (List.nodup_append.mp registry.distinct).1
  have chain := World.bypass_chain registry.listed distinct
  have notFree : ∀ g ∈ free, g ≠ front.getLastD 0 := by
    intro g mem isPrev
    rcases front.eq_nil_or_concat with rfl | ⟨init, last, rfl⟩
    · exact registry.freed.ne_zero mem isPrev
    · obtain rfl : g = last := by simpa [List.getLastD_eq_getLast?] using isPrev
      exact (List.nodup_append.mp registry.distinct).2.2 g (by simp) g mem rfl
  rcases w.bypass_eq (front.getLastD 0) curr with ⟨handlers, firstThread, same, fields⟩
  rw [same] at chain nonnull ⊢
  generalize gone : World.endRemoval _ t curr removal = w'
  have owners : ∀ g, w'.thread g = w.thread g := by
    intro g
    rw [← gone]
    exact (fields g).1
  have places : ∀ u, u ≠ t → w'.place u = w.place u := by
    intro u other
    simp [← gone, World.endRemoval, other]
  have here : w'.place t = .freeing curr removal := by simp [← gone, World.endRemoval]
  have removed : ∀ u, u ≠ removal.target t → w'.removed u = w.removed u := by
    intro u other
    simp [← gone, World.endRemoval, other]
  have removedTarget : w'.removed (removal.target t) = true := by simp [← gone, World.endRemoval]
  have startedIff : ∀ u, (w'.place u).started = (w.place u).started := by
    intro u
    by_cases isHere : u = t
    · rw [isHere, here, started]
      rfl
    · rw [places u isHere]
  have registeredIff : ∀ u, u ≠ removal.target t → (w'.Registered u ↔ w.Registered u) := by
    intro u other
    rw [World.Registered, World.Registered, startedIff, removed u other]
  have sublist : ∀ g ∈ front ++ back, g ∈ front ++ curr :: back := by
    intro g mem
    rcases List.mem_append.mp mem with inFront | inBack
    · simp [inFront]
    · simp [inBack]
  have notCurr : ∀ g ∈ front ++ back, g ≠ curr := by
    rintro g mem rfl
    exact (List.nodup_cons.mp (List.nodup_middle.mp distinct)).1 mem
  have otherOwner : ∀ g ∈ front ++ back, w.thread g ≠ removal.target t := by
    intro g mem isTarget
    exact notCurr g mem (registry.ownerUnique g (sublist g mem) curr (by simp)
      (isTarget.trans owned.symm))
  have currFacts : curr ≠ 0 ∧ curr ∈ w.used ∧ curr ∉ front ++ back ++ free := by
    refine ⟨registry.listed.ne_zero (by simp), registry.used curr (by simp), fun mem => ?_⟩
    rcases List.mem_append.mp mem with listed | freed
    · exact notCurr curr listed rfl
    · exact (List.nodup_append.mp registry.distinct).2.2 curr (by simp) curr freed rfl
  have remaining : front ++ back ≠ [] := mt chain.head_eq_zero_iff.mpr nonnull
  refine ⟨front, curr, back, rfl, owned, remaining, ?_⟩
  constructor
  case listed =>
    rw [← gone]
    exact chain
  case freed =>
    rw [← gone]
    exact registry.freed.congr fun g mem => (fields g).2.2 (notFree g mem)
  case distinct =>
    have shape : (front ++ back ++ free).Sublist (front ++ curr :: back ++ free) := by
      simp
    exact shape.nodup registry.distinct
  case used =>
    rw [← gone]
    intro g mem
    rcases List.mem_append.mp mem with listed | freed
    · exact registry.used g (List.mem_append_left _ (sublist g listed))
    · exact registry.used g (List.mem_append_right _ freed)
  case pending =>
    intro u g isPending
    have usedEq : w'.used = w.used := by
      rw [← gone]
      rfl
    rw [usedEq]
    by_cases isHere : u = t
    · obtain rfl : curr = g := by simpa [isHere, here, Place.pending] using isPending
      exact currFacts
    · have old := registry.pending u g (places u isHere ▸ isPending)
      refine ⟨old.1, old.2.1, fun mem => old.2.2 ?_⟩
      rcases List.mem_append.mp mem with listed | freed
      · exact List.mem_append_left _ (sublist g listed)
      · exact List.mem_append_right _ freed
  case pendingUnique =>
    have fresh : ∀ u, u ≠ t → (w'.place u).pending ≠ some curr := by
      intro u other isPending
      exact (registry.pending u curr (places u other ▸ isPending)).2.2 (by simp)
    intro u v g left right
    by_cases first : u = t
    · subst first
      obtain rfl : curr = g := by simpa [here, Place.pending] using left
      by_contra different
      exact fresh v (Ne.symm different) right
    · by_cases second : v = t
      · subst second
        obtain rfl : curr = g := by simpa [here, Place.pending] using right
        exact absurd left (fresh u first)
      · exact registry.pendingUnique u v g (places u first ▸ left) (places v second ▸ right)
  case ready =>
    intro u g isReady
    rw [owners]
    by_cases isHere : u = t
    · simp [isHere, here, Place.ready] at isReady
    · exact registry.ready u g (places u isHere ▸ isReady)
  case owner =>
    intro g mem
    rw [owners]
    exact (registeredIff _ (otherOwner g mem)).mpr (registry.owner g (sublist g mem))
  case ownerUnique =>
    intro g mem g' mem' sameOwner
    rw [owners, owners] at sameOwner
    exact registry.ownerUnique g (sublist g mem) g' (sublist g' mem') sameOwner
  case registered =>
    intro _ u isRegistered
    have other : u ≠ removal.target t := by
      rintro rfl
      have kept := isRegistered.2
      rw [removedTarget] at kept
      cases kept
    obtain ⟨g, mem, ownedU⟩ :=
      registry.registered (by simp) u ((registeredIff u other).mp isRegistered)
    refine ⟨g, ?_, (owners g).trans ownedU⟩
    rcases List.mem_append.mp mem with inFront | later
    · simp [inFront]
    · rcases List.mem_cons.mp later with rfl | inBack
      · exact absurd (ownedU.symm.trans owned) other
      · simp [inBack]
  case stopped =>
    intro g mem g' isStopped
    rw [owners] at isStopped
    by_cases isHere : w.thread g = t
    · simp [isHere, here, Place.stoppedAt] at isStopped
    · exact registry.stopped g (sublist g mem) g' (places _ isHere ▸ isStopped)
  case alone =>
    intro empty
    exact absurd empty remaining
  case removed =>
    intro u isRemoved
    rw [startedIff]
    by_cases isTarget : u = removal.target t
    · rw [isTarget, ← owned]
      exact (registry.owner curr (by simp)).1
    · exact registry.removed u (removed u isTarget ▸ isRemoved)
  case cancelled =>
    intro u isCancelled
    by_cases isTarget : u = removal.target t
    · rw [isTarget]
      exact removedTarget
    · rw [removed u isTarget]
      apply registry.cancelled
      rw [← gone] at isCancelled
      exact isCancelled
  case cancelling =>
    intro u g v freeing
    by_cases isTarget : v = removal.target t
    · rw [isTarget]
      exact removedTarget
    · rw [removed v isTarget]
      by_cases isHere : u = t
      · subst isHere
        rw [here] at freeing
        cases freeing
        exact absurd rfl isTarget
      · exact registry.cancelling u g v (places u isHere ▸ freeing)

/-- `pthread_cancel` of a thread that has been removed. -/
theorem cancel (registry : Registry w threads free) (isRemoved : w.removed u = true) :
    Registry { w with cancelled := update w.cancelled u true } threads free :=
  { registry with
    cancelled := by
      intro t isCancelled
      by_cases same : t = u
      · rw [same]
        exact isRemoved
      · exact registry.cancelled t (by simpa [same] using isCancelled) }

/-- `remove_thread` puts the unlinked handler on the free list. -/
theorem release {removal : Removal} (registry : Registry w threads free)
    (place : w.place t = .freeing h removal) : Registry (w.free t h removal) threads
    (h :: free) := by
  have isPending : (w.place t).pending = some h := by
    rw [place]
    rfl
  rcases registry.pending t h isPending with ⟨nonnull, inUse, loose⟩
  have moved : ∀ v : World, Registry v threads free → (∀ u, v.place u = w.place u) →
    v.used = w.used →
      ∀ place' : Place, place'.pending = none → place'.ready = none → place'.started = true →
      place'.stoppedAt = none → place' ≠ .absent → (∀ h u, place' ≠ .freeing h (.cancel u)) →
      Registry ((v.pushFree h).setPlace t place') threads (h :: free) := by
    intro v registryV samePlaces sameUsed place' notPending notReady started notStopped
      present notFreeing
    have went : Registry (v.setPlace t place') threads free := by
      apply registryV.setPlace
      case pending => exact Or.inl notPending
      case ready => simp [notReady]
      case started => rw [started, samePlaces, place]; rfl
      case absent => simp [present, samePlaces, place]
      case stopped => simp [notStopped]
      case cancelling => exact notFreeing
    apply went.pushFree nonnull (sameUsed ▸ inUse) loose
    intro u
    by_cases same : u = t
    · simp [same, notPending]
    · simp only [World.setPlace_place, ne_eq, same, not_false_eq_true, update_of_ne]
      rw [samePlaces]
      intro isPendingU
      exact same (registry.pendingUnique u t h isPendingU isPending)
  cases removal with
  | finish =>
      exact moved w registry (fun _ => rfl) rfl .finished rfl rfl rfl rfl (by simp) (by simp)
  | exit => exact moved w registry (fun _ => rfl) rfl .unwinding rfl rfl rfl rfl (by simp) (by simp)
  | cancel target =>
      exact moved _ (registry.cancel (registry.cancelling t h target place)) (fun _ => rfl) rfl
        .running rfl rfl rfl rfl (by simp) (by simp)

end Registry

namespace World

/-- A lookup leaves everything alone but the handlers, and sets no flag. -/
def Enrolled (w w' : World) : Prop :=
  ∃ handlers firstThread freeList used, w' = { w with
      handlers := handlers, firstThread := firstThread, freeList := freeList, used := used } ∧
    ∀ h, (handlers h).inSafepoint = true → (w.handlers h).inSafepoint = true

theorem createFirstHandler_enrolled (w : World) (memory : HandlerMemory) (t : Nat) : w.Enrolled
    (w.createFirstHandler memory t) := by
  rcases newThreadHandler_recycled w memory with ⟨handlers, freeList, used, same, fields⟩
  rw [createFirstHandler, same]
  refine ⟨_, _, _, _, rfl, fun h isSet => ?_⟩
  by_cases isNew : h = (w.newThreadHandler memory).1
  · simp [isNew] at isSet
  · simp only [setHandler_handlers, update_of_ne isNew] at isSet
    rw [← (fields h).2]
    exact isSet

theorem getThreadHandler_ok (found : w.getThreadHandler memory t = .ok (h, w')) :
    (if w.firstThread = 0 then w.createFirstHandler memory t else w) = w' ∧
      ∃ prev, w'.find t = .ok (prev, h) := by
  rw [getThreadHandler] at found
  generalize (if w.firstThread = 0 then w.createFirstHandler memory t else w) = v at found ⊢
  cases looked : v.find t with
  | error fault => simp [looked, bind, Except.bind] at found
  | ok result =>
      simp only [looked, bind, Except.bind] at found
      cases found
      exact ⟨rfl, _, looked⟩

theorem search_nonnull {fuel prev curr p : Nat} (found : w.search t fuel prev curr = .ok (p, h)) :
    h ≠ 0 := by
  induction fuel generalizing prev curr with
  | zero => cases found
  | succ fuel ih =>
      by_cases isNull : curr = 0
      · rw [search, if_pos isNull] at found
        cases found
      · rw [search_succ isNull] at found
        split at found
        next =>
          cases found
          exact isNull
        next => exact ih found

theorem getThreadHandler_nonnull (found : w.getThreadHandler memory t = .ok (h, w')) : h ≠ 0 := by
  rcases getThreadHandler_ok found with ⟨-, prev, looked⟩
  exact search_nonnull looked

theorem getThreadHandler_enrolled (found : w.getThreadHandler memory t = .ok (h, w')) :
    w.Enrolled w' := by
  rcases getThreadHandler_ok found with ⟨rfl, -⟩
  split
  next => exact createFirstHandler_enrolled w memory t
  next => exact ⟨_, _, _, _, rfl, fun _ isSet => isSet⟩

theorem getThreadHandler_place (found : w.getThreadHandler memory t = .ok (h, w')) :
    w'.place = w.place := by
  rcases getThreadHandler_enrolled found with ⟨_, _, _, _, rfl, -⟩
  rfl

end World

namespace Registry

/-- With a registered thread, `first_thread` is set up after the first step of a lookup. -/
theorem enrol (memory : HandlerMemory) (registry : Registry w threads free)
    (present : w.place t ≠ .absent) :
    ∃ threads' free', threads' ≠ [] ∧
      Registry (if w.firstThread = 0 then w.createFirstHandler memory t else w) threads' free' ∧
      ((w.firstThread ≠ 0 ∧ threads' = threads) ∨
        (threads = [] ∧ ∀ g ∈ threads', ((if w.firstThread = 0 then w.createFirstHandler memory t
          else w).handlers g).inSafepoint = false)) := by
  split
  next isEmpty =>
    have empty := (registry.listed.head_eq_zero_iff).mp isEmpty
    rw [empty] at registry
    rcases registry.createFirstHandler memory present with ⟨free', created, -⟩
    refine ⟨_, free', by simp, created, Or.inr ⟨empty, fun g mem => ?_⟩⟩
    rw [List.mem_singleton.mp mem]
    simp [World.createFirstHandler]
  next nonempty =>
    exact ⟨threads, free, mt registry.listed.head_eq_zero_iff.mpr nonempty, registry,
      Or.inl ⟨nonempty, rfl⟩⟩

/-- `get_thread_handler` returns the handler of its thread. -/
theorem lookup (registry : Registry w threads free) (present : w.place t ≠ .absent)
    (found : w.getThreadHandler memory t = .ok (h, w')) :
    ∃ threads' free', Registry w' threads' free' ∧ h ∈ threads' ∧ w'.thread h = t ∧
      ((w' = w ∧ threads' = threads) ∨
        (threads = [] ∧ ∀ g ∈ threads', (w'.handlers g).inSafepoint = false)) := by
  rcases World.getThreadHandler_ok found with ⟨rfl, prev, looked⟩
  rcases registry.enrol memory present with ⟨threads', free', -, enrolled, unchanged⟩
  rcases enrolled.find_ok looked with ⟨front, back, rfl, -, owned⟩
  refine ⟨_, free', enrolled, by simp, owned, ?_⟩
  rcases unchanged with ⟨nonempty, same⟩ | empty
  · exact Or.inl ⟨if_neg nonempty, same⟩
  · exact Or.inr empty

/-- Every registered thread finds its handler. -/
theorem lookup_succeeds (memory : HandlerMemory) (registry : Registry w threads free)
    (registered : w.Registered t) :
    ∃ h w', w.getThreadHandler memory t = .ok (h, w') := by
  have present : w.place t ≠ .absent := by
    intro absent
    have started := registered.1
    rw [absent] at started
    cases started
  rcases registry.enrol memory present with ⟨threads', free', nonempty, enrolled, -⟩
  have still : (if w.firstThread = 0 then w.createFirstHandler memory t else w).Registered t := by
    split
    next =>
      rcases w.createFirstHandler_enrolled memory t with ⟨_, _, _, _, same, -⟩
      rw [same]
      exact registered
    next => exact registered
  rcases enrolled.find nonempty still with ⟨front, h, back, -, -, looked⟩
  refine ⟨h, if w.firstThread = 0 then w.createFirstHandler memory t else w, ?_⟩
  rw [World.getThreadHandler]
  simp only [looked, bind, Except.bind]

end Registry

end PreciseGc.Threads

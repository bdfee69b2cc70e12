import PreciseGc.Threads.Steps

/-!
# Looking threads up

`get_thread_handler` and `remove_thread` walk along the list without a test for its
end.  They reach the handler that they look for as long as threads use the collector
between their registration and their removal, and the last thread is not removed.
-/

namespace PreciseGc.Threads

open Foundation Function

variable {memory : HandlerMemory} {w w' : World} {threads free : List Nat} {t u h : Nat}
  {action : Action}

/-- The thread that is removed is registered, and it is not the last one. -/
def Removable (w : World) (target : Nat) : Prop :=
  w.Registered target ∧ ∃ u, u ≠ target ∧ w.Registered u

/-- A thread that has been removed does not use the collector, and only registered threads are
removed, but for the last one. -/
def UsesRegistered (w : World) (t : Nat) (action : Action) : Prop :=
  match action with
  | .gc _ => w.removed t = false
  | .gcPtr => w.removed t = false
  | .safepoint => w.removed t = false
  | .join _ => w.removed t = false
  | .remove removal => w.removed t = false ∧ (w.gcThread = 0 → Removable w (removal.target t))
  | .wake => (match w.place t with
    | .waiting (.remove removal) _ _ => Removable w (removal.target t)
    | _ => True)
  | _ => True

/-- Only the loop of the collector can go wrong in a walk over handlers. -/
theorem World.collect_error {c : Collection} {fault : Fault}
    (ran : w.collect t c = .error fault) : fault = .endlessScan := by
  have scanError : ∀ fuel h scanned, w.scan fuel h scanned = .error fault →
      fault = .endlessScan := by
    intro fuel
    induction fuel with
    | zero =>
        intro h scanned failed
        cases failed
        rfl
    | succ fuel ih =>
        intro h scanned failed
        rw [World.scan] at failed
        split at failed
        next => cases failed
        next =>
          split at failed
          next => exact ih _ _ failed
          next => cases failed
  rw [World.collect] at ran
  cases walked : w.scan (w.used.length + 1) c.cursor c.scanned with
  | error found =>
      rw [walked] at ran
      cases ran
      exact scanError _ _ _ walked
  | ok result =>
      simp only [walked, bind, Except.bind] at ran
      split at ran <;> cases ran

namespace Registry

/-- A registered thread that is not the last one can be removed. -/
theorem unlink_succeeds {removal : Removal} (registry : Registry w threads free)
    (nonempty : threads ≠ []) (removable : Removable w (removal.target t)) :
    ∃ w', w.unlink t removal = .ok w' := by
  rcases removable with ⟨isRegistered, u, other, isRegisteredU⟩
  rcases registry.find nonempty isRegistered with ⟨front, h, back, rfl, owned, found⟩
  rcases registry.registered nonempty u isRegisteredU with ⟨g, listed, ownedU⟩
  have remaining : front ++ back ≠ [] := by
    have different : g ≠ h := by
      rintro rfl
      exact other (ownedU.symm.trans owned)
    have mem : g ∈ front ++ back := by
      rcases List.mem_append.mp listed with inFront | later
      · simp [inFront]
      · rcases List.mem_cons.mp later with isH | inBack
        · exact absurd isH different
        · simp [inBack]
    exact List.ne_nil_of_mem mem
  have chain := World.bypass_chain registry.listed (List.nodup_append.mp registry.distinct).1
  have nonnull := mt chain.head_eq_zero_iff.mp remaining
  refine ⟨(w.bypass (front.getLastD 0) h).endRemoval t h removal, ?_⟩
  rw [World.unlink]
  simp only [found, bind, Except.bind]
  rw [if_neg nonnull]

end Registry

theorem bind_error {α β : Type} {x : Except Fault α} {f : α → Except Fault β} {a : α}
    {fault : Fault} (first : x = .ok a) (ran : (x >>= f) = .error fault) : f a = .error fault := by
  subst first
  exact ran

/-- A thread that uses the collector finds its handler. -/
theorem looks_up (registry : Registry w threads free) (started : (w.place t).started = true)
    (kept : w.removed t = false) :
    ∃ h w₁ threads₁ free₁, w.getThreadHandler memory t = .ok (h, w₁) ∧
      Registry.Looked w t threads w₁ h threads₁ free₁ ∧ w₁.place = w.place ∧
      w₁.removed = w.removed := by
  rcases registry.lookup_succeeds memory ⟨started, kept⟩ with ⟨h, w₁, found⟩
  rcases registry.looked started found with ⟨threads₁, free₁, looked⟩
  rcases World.getThreadHandler_enrolled found with ⟨_, _, _, _, rfl, -⟩
  exact ⟨h, _, threads₁, free₁, found, looked, rfl, rfl⟩

theorem gc_error {full : Bool} {fault : Fault} (registry : Registry w threads free)
    (started : (w.place t).started = true) (kept : w.removed t = false)
    (failed : w.gc memory t full = .error fault) : fault = .endlessScan := by
  rcases looks_up registry started kept with ⟨h, w₁, threads₁, free₁, found, -⟩
  have rest := bind_error found failed
  simp only at rest
  split at rest
  next => cases rest
  next =>
    split at rest
    next => exact World.collect_error rest
    next => cases rest

theorem withoutGcBefore_error {site : Site} {fault : Fault} (registry : Registry w threads free)
    (started : (w.place t).started = true) (kept : w.removed t = false)
    (sort : site = .safepoint ∨ ∃ removal, site = .remove removal ∧
      (w.gcThread = 0 → Removable w (removal.target t)))
    (failed : w.withoutGcBefore memory t site = .error fault) : fault = .endlessScan := by
  obtain ⟨h, w₁, threads₁, free₁, found, looked, samePlace, sameRemoved⟩ :=
    looks_up registry started kept
  have rest := bind_error found failed
  simp only at rest
  split at rest
  next => cases rest
  next idle =>
    rcases sort with rfl | ⟨removal, rfl, removable⟩
    · cases rest
    · have registered : ∀ u, ((w₁.enterSafepoint h).exitSafepoint h).Registered u ↔
        w.Registered u := by
        intro u
        rw [World.Registered, World.Registered]
        simp [samePlace, sameRemoved]
      have stillRemovable : Removable ((w₁.enterSafepoint h).exitSafepoint h)
        (removal.target t) := by
        rw [World.enterSafepoint_gcThread, looked.gcThread, Decidable.not_not] at idle
        rcases removable idle with ⟨isRegistered, u, other, isRegisteredU⟩
        exact ⟨(registered _).mpr isRegistered, u, other, (registered _).mpr isRegisteredU⟩
      obtain ⟨w', unlinked⟩ := looked.registry.enterSafepoint.exitSafepoint.unlink_succeeds
        (List.ne_nil_of_mem looked.listed) stillRemovable
      have failed' : ((w₁.enterSafepoint h).exitSafepoint h).unlink t removal = .error fault := rest
      rw [unlinked] at failed'
      cases failed'

theorem gcPtr_error {fault : Fault} (registry : Registry w threads free)
    (started : (w.place t).started = true) (kept : w.removed t = false) :
    w.gcPtr memory t ≠ .error fault := by
  rcases looks_up registry started kept with ⟨h, w₁, threads₁, free₁, found, -⟩
  intro failed
  have rest := bind_error found failed
  cases rest

theorem threadJoin_error {fault : Fault} (registry : Registry w threads free)
    (started : (w.place t).started = true) (kept : w.removed t = false) :
    w.threadJoin memory t u ≠ .error fault := by
  rcases looks_up registry started kept with ⟨h, w₁, threads₁, free₁, found, -⟩
  intro failed
  have rest := bind_error found failed
  cases rest

/-- The thread that waits has a handler of its own, or the list has one for another reason. -/
theorem resume_error {site : Site} {fault : Fault} (registry : Registry w threads free)
    (place : w.place t = .waiting site h true) (permitted : UsesRegistered w t .wake) :
    w.resume t h site ≠ .error fault := by
  cases site with
  | remove removal =>
      rw [UsesRegistered, place] at permitted
      have nonempty : threads ≠ [] := by
        intro empty
        have notStopped := (registry.alone empty t (by simp [place])).2.1
        rw [place] at notStopped
        cases notStopped
      obtain ⟨w', unlinked⟩ := (registry.exitSafepoint (h := h)).unlink_succeeds nonempty permitted
      intro failed
      have failed' : (w.exitSafepoint h).unlink t removal = .error fault := failed
      rw [unlinked] at failed'
      cases failed'
  | gc => exact fun failed => by cases failed
  | safepoint => exact fun failed => by cases failed
  | start => exact fun failed => by cases failed

/-- An allowed step fails only in the loop of the collector. -/
theorem step_error {fault : Fault} (registry : Registry w threads free)
    (permitted : UsesRegistered w t action)
    (stepped : step memory w t action = some (.error fault)) : fault = .endlessScan := by
  have startedAt : ∀ {place : Place}, w.place t = place → place.started = true →
      (w.place t).started = true := fun same started => by rw [same, started]
  unfold step at stepped
  split at stepped
  case h_1 full place =>
    exact gc_error registry (startedAt place rfl) permitted (Option.some.inj stepped)
  case h_2 place =>
    exact absurd (Option.some.inj stepped) (gcPtr_error registry (startedAt place rfl) permitted)
  case h_3 place =>
    exact absurd (Option.some.inj stepped) (gcPtr_error registry (startedAt place rfl) permitted)
  case h_4 place => split at stepped <;> cases stepped
  case h_5 place =>
    exact withoutGcBefore_error registry (startedAt place rfl) permitted (Or.inl rfl)
      (Option.some.inj stepped)
  case h_6 removal place =>
    split at stepped
    next => cases stepped
    next =>
      exact withoutGcBefore_error registry (startedAt place rfl) permitted.1
        (Or.inr ⟨removal, rfl, permitted.2⟩) (Option.some.inj stepped)
  case h_7 site h place =>
    exact absurd (Option.some.inj stepped) (resume_error registry place permitted)
  case h_8 c place => exact World.collect_error (Option.some.inj stepped)
  case h_10 h place =>
    have started := Option.some.inj stepped
    rw [World.startRoutine] at started
    split at started <;> cases started
  case h_12 u place =>
    exact absurd (Option.some.inj stepped)
      (threadJoin_error registry (startedAt place rfl) permitted)
  case h_11 => split at stepped <;> cases stepped
  case h_13 => split at stepped <;> cases stepped
  case h_16 => split at stepped <;> cases stepped
  case h_17 => split at stepped <;> cases stepped
  case h_18 => split at stepped <;> cases stepped
  all_goals cases stepped

/-- Every search of `get_thread_handler` and of `remove_thread` reaches the handler of its
thread, and no null handler is accessed. -/
theorem runs_lookup (memory : HandlerMemory) :
    ¬ ∃ fault, fault ≠ Fault.endlessScan ∧ Runs memory UsesRegistered (.error fault) := by
  rintro ⟨fault, isSearch, s₀, ⟨t, rfl⟩, run⟩
  cases run.cases_tail with
  | inl same => cases same
  | inr last =>
      rcases last with ⟨state, run, stepped⟩
      cases stepped with
      | @step w t action _ permitted stepped =>
          have reached : Runs memory UsesRegistered (.ok w) := ⟨_, ⟨_, rfl⟩, run⟩
          rcases runs_registry reached with ⟨threads, free, registry⟩
          exact isSearch (step_error registry permitted stepped)

/-- A thread cancelled before `start_routine` has linked its handler, a destructor after
`thread_exit`, and the removal of the only thread. -/
def lookupsOfUnregistered : List (List (Nat × Action)) :=
  [[(0, .create 1), (0, .remove (.cancel 1))],
    [(0, .create 1), (1, .prepare), (1, .start), (1, .remove .exit), (1, .free), (1, .gcPtr)],
    [(0, .remove .exit)]]

theorem runs_lookup_unregistered : Runs ascending (fun _ _ _ => True) (.error .nullHandler) ∧
    ∀ actions ∈ lookupsOfUnregistered, ∃ result, run ascending (fun _ _ _ => True) actions
      (World.initial 0) = some result ∧ result.toOption.isNone = true := by
  constructor
  · exact fault_of_run ascending (fun _ _ _ => True) [(0, .create 1), (0, .remove (.cancel 1))]
      .nullHandler (by decide +kernel)
  · have allFail : ∀ actions ∈ lookupsOfUnregistered, ((run ascending (fun _ _ _ => True) actions
        (World.initial 0)).map fun result => result.toOption.isNone) = some true := by
      decide +kernel
    intro actions mem
    exact Option.map_eq_some_iff.mp (allFail actions mem)

end PreciseGc.Threads

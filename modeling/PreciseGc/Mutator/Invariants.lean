import PreciseGc.Foundation.Transition
import PreciseGc.Mutator.Metadata

/-!
# Runs of a thread

An invariant of a thread that works with `gc_ptr`s is shown part by part: each
constructor and operation keeps it, and so do the beginning and the end of
`gc_new`.  The rule below puts the parts together for events with constructors
nested to any depth.
-/

namespace PreciseGc.Mutator

open Foundation State

/-- An event outside of all constructors constructs automatic objects. -/
def Event.AtTop (event : Event) : Prop := event.fieldOffset = none

/-- The parts of an event keep the invariant, under a condition on the event. -/
structure Kept (isHeapPointer : Nat → Bool) (sizeof : Nat → Nat) (holds : Nat → Event → Prop)
    (invariant : State → Prop) : Prop where
  placed : ∀ base event, holds base event → event.Placed isHeapPointer base
  construct : ∀ base place initializer s, holds base (.construct place initializer) →
    (s.locals = [] → place.offset = none) → invariant s →
      Yields (fun _ => True) invariant (s.settle place >>= fun s =>
        s.construct isHeapPointer (place.address base) initializer)
  result : ∀ base cls res elements place s, holds base (.gcNew cls res elements place) →
    (s.locals = [] → place.offset = none) → invariant s →
      Yields (fun _ => True) invariant (s.settle place >>= fun s =>
        s.pointerConstruct isHeapPointer (place.address base) (res + sizeofBaseMeta))
  assign : ∀ base this a s, holds base (.assign this a) → invariant s →
    Yields (fun _ => True) invariant (s.assign this a)
  attach : ∀ base this pointer b cp s, holds base (.attach this pointer b cp) → invariant s →
    Yields (fun _ => True) invariant (s.attach this pointer b cp)
  setNULL : ∀ base this s, holds base (.setNULL this) → invariant s →
    Yields (fun _ => True) invariant (s.setNULL this)
  destruct : ∀ base this s, holds base (.destruct this) → invariant s →
    Yields (fun _ => True) invariant (s.leave this >>= fun s => s.destruct this)
  enterNew : ∀ cls s, invariant s → invariant (s.enterNew cls)
  beginMeta : ∀ data s, invariant s → invariant (s.beginMeta data)
  stopRecording : ∀ s, s.locals ≠ [] → invariant s → invariant s.stopRecording
  endKnown : ∀ base cls res first others place s t shell,
    holds base (.gcNew cls res (first :: others) place) → s.clMeta cls = some shell →
      invariant s → invariant t → t.automatics = s.automatics → t.locals.tail = s.locals →
        invariant (t.leaveNew s.tlflags
          { start := res + sizeofBaseMeta, shell := shell, count := others.length + 1,
            fields := fieldPositions (sizeof cls) 0 (first :: others) })
  endUnknown : ∀ base cls res first others place s t,
    holds base (.gcNew cls res (first :: others) place) →
      EveryEvent sizeof holds (res + sizeofBaseMeta) first →
      invariant s → invariant t → t.automatics = s.automatics → t.locals.tail = s.locals →
      t.tlflags.offsets = recordedOffsets first →
        invariant ((t.endMeta cls (sizeof cls) s.tlflags).leaveNew s.tlflags
          { start := res + sizeofBaseMeta, shell := createMeta (sizeof cls) t.tlflags.offsets,
            count := others.length + 1,
            fields := fieldPositions (sizeof cls) 0 (first :: others) })

namespace Kept

variable {isHeapPointer : Nat → Bool} {sizeof : Nat → Nat} {holds : Nat → Event → Prop}
  {invariant : State → Prop}

theorem safe (kept : Kept isHeapPointer sizeof holds invariant) (base : Nat) (event : Event)
    (here : holds base event) :
    event.Placed isHeapPointer base ∧ event.FaultsIn fun _ => True := by
  refine ⟨kept.placed base event here, ?_⟩
  cases event <;> simp [Event.FaultsIn]

theorem inside {s t : State} {offsets : List Nat} (progress : Progress s offsets t)
    (nested : s.locals ≠ []) : t.locals ≠ [] := by
  apply List.ne_nil_of_length_pos
  rw [progress.depth]
  exact List.length_pos_of_ne_nil nested

mutual

theorem perform (kept : Kept isHeapPointer sizeof holds invariant) (base : Nat) (event : Event)
    (s : State) (every : event.Every sizeof holds base) (atTop : s.locals = [] → event.AtTop)
    (start : invariant s) :
    Yields (fun _ => True) invariant (Mutator.perform isHeapPointer sizeof base event s) := by
  match event with
  | .construct place initializer =>
      rw [Mutator.perform]
      exact kept.construct base place initializer s every atTop start
  | .gcNew cls res elements place =>
      rw [Mutator.perform]
      have allocated := gcNew_progress cls res elements s
        (every.2.mono (kept.safe)) fun _ => trivial
      apply ((kept.gcNew base cls res elements place s every.1 every.2 start).and allocated).bind
      intro t ⟨keeps, first, others, _, allocated⟩
      apply kept.result base cls res elements place t every.1 _ keeps
      intro top
      rw [allocated.locals] at top
      exact atTop top
  | .assign this a =>
      rw [Mutator.perform]
      exact kept.assign base this a s every start
  | .attach this pointer b cp =>
      rw [Mutator.perform]
      exact kept.attach base this pointer b cp s every start
  | .setNULL this =>
      rw [Mutator.perform]
      exact kept.setNULL base this s every start
  | .destruct this =>
      rw [Mutator.perform]
      exact kept.destruct base this s every start

theorem gcNew (kept : Kept isHeapPointer sizeof holds invariant) (base cls res : Nat)
    (elements : List (List Event)) (place : Place) (s : State)
    (here : holds base (.gcNew cls res elements place))
    (every : EveryElement sizeof holds (sizeof cls) (res + sizeofBaseMeta) elements)
    (start : invariant s) :
    Yields (fun _ => True) invariant
      (Mutator.gcNew isHeapPointer sizeof cls res elements s) := by
  match elements with
  | [] => trivial
  | first :: others =>
      have nested : (s.enterNew cls).locals ≠ [] := List.cons_ne_nil _ _
      cases known : s.clMeta cls with
      | some shell =>
          have isKnown : (s.clMeta cls).isSome = true := by rw [known]; rfl
          simp only [Mutator.gcNew, known]
          have building : Building (res + sizeofBaseMeta) (s.enterNew cls).tlflags :=
            building_of_noActive isKnown
          have firstProgress := performAll_progress _ first (s.enterNew cls)
            (every.1.mono kept.safe) building
          have firstKept := kept.performAll _ first (s.enterNew cls) every.1 nested building
            (kept.enterNew cls s start)
          apply (firstKept.and firstProgress).bind
          intro t ⟨built, progress⟩
          have stillIdle : t.tlflags.noActive = true := by
            rw [progress.idle isKnown]
            exact isKnown
          have othersProgress := performElements_progress _ _ others t
            (every.2.mono kept.safe) stillIdle
          have othersKept := kept.performElements _ _ others t every.2 (inside progress nested)
            stillIdle built
          apply (othersKept.and othersProgress).bind
          intro u ⟨builtAll, progressAll⟩
          have whole := progress.trans progressAll
          exact kept.endKnown base cls res first others place s u shell here known start builtAll
            (whole.automatics nested) whole.outer
      | none =>
          simp only [Mutator.gcNew, known]
          have building := building_beginMeta cls res s
          have nestedMeta : ((s.enterNew cls).beginMeta (res + sizeofBaseMeta)).locals ≠ [] :=
            List.cons_ne_nil _ _
          have firstProgress := performAll_progress _ first _ (every.1.mono kept.safe) building
          have firstKept := kept.performAll _ first _ every.1 nestedMeta building
            (kept.beginMeta _ _ (kept.enterNew cls s start))
          apply (firstKept.and firstProgress).bind
          intro t ⟨built, progress⟩
          have othersKept : Yields (fun _ => True) invariant
              (Mutator.performElements isHeapPointer sizeof (sizeof cls)
                (res + sizeofBaseMeta + sizeof cls) others
                (if others.length = 0 then t else t.stopRecording)) := by
            cases others with
            | nil => exact built
            | cons other others =>
                have nestedStill := inside progress nestedMeta
                exact kept.performElements _ _ (other :: others) t.stopRecording every.2
                  nestedStill rfl (kept.stopRecording t nestedStill built)
          have othersProgress := performElements_afterFirst (inside progress nestedMeta)
            fun u noActive => performElements_progress (sizeof cls) _ others u
              (every.2.mono kept.safe) noActive
          apply (othersKept.and othersProgress).bind
          intro u ⟨builtAll, flags, outer, automatics⟩
          have offsets : u.tlflags.offsets = recordedOffsets first := by
            rw [flags]
            exact progress.offsets_of_beginMeta known
          exact kept.endUnknown base cls res first others place s u here every.1 start builtAll
            (automatics.trans (progress.automatics nestedMeta)) (outer.trans progress.outer) offsets

theorem performElements (kept : Kept isHeapPointer sizeof holds invariant) (size base : Nat)
    (elements : List (List Event)) (s : State)
    (every : EveryElement sizeof holds size base elements) (nested : s.locals ≠ [])
    (noActive : s.tlflags.noActive = true) (start : invariant s) :
    Yields (fun _ => True) invariant
      (Mutator.performElements isHeapPointer sizeof size base elements s) := by
  match elements with
  | [] => exact start
  | element :: elements =>
      rw [Mutator.performElements]
      have building : Building base s.tlflags := building_of_noActive noActive
      have progress := performAll_progress base element s (every.1.mono kept.safe) building
      apply ((kept.performAll base element s every.1 nested building start).and progress).bind
      intro t ⟨built, first⟩
      have stillIdle : t.tlflags.noActive = true := by
        rw [first.idle noActive]
        exact noActive
      exact kept.performElements size (base + size) elements t every.2 (inside first nested)
        stillIdle built

theorem performAll (kept : Kept isHeapPointer sizeof holds invariant) (base : Nat)
    (events : List Event) (s : State) (every : EveryEvent sizeof holds base events)
    (nested : s.locals ≠ []) (building : Building base s.tlflags) (start : invariant s) :
    Yields (fun _ => True) invariant
      (Mutator.performAll isHeapPointer sizeof base events s) := by
  match events with
  | [] => exact start
  | event :: events =>
      rw [Mutator.performAll]
      have progress := perform_progress base event s (every.1.mono kept.safe) building
      have first := kept.perform base event s every.1 (fun top => absurd top nested) start
      apply (first.and progress).bind
      intro t ⟨built, step⟩
      exact kept.performAll base events t every.2 (inside step nested) (building.congr step) built

end

end Kept

/-- A thread that starts, and does not work with `gc_ptr`s yet. -/
structure Starts (s : State) : Prop where
  tlflags : s.tlflags = TlVars.initial
  stack : s.stack.addresses = []
  automatics : s.automatics = []
  locals : s.locals = []

/-- A collection may move the objects that it leaves, and then changes the words that designate
them, but not their flags. -/
structure Collected (s s' : State) : Prop where
  tlflags : s'.tlflags = s.tlflags
  stack : s'.stack = s.stack
  clMeta : s'.clMeta = s.clMeta
  automatics : s'.automatics = s.automatics
  locals : s'.locals = s.locals
  flags : ∀ a ∈ s.automatics, getBothFlags (s'.word a) = getBothFlags (s.word a)
  objects : ∀ object ∈ s'.objects, ∃ old ∈ s.objects, object = { old with start := object.start }

/-- A step outside of constructors: an event under a condition, or a collection. -/
inductive Step (isHeapPointer : Nat → Bool) (sizeof : Nat → Nat) (holds : Nat → Event → Prop)
    (s s' : State) : Prop where
  | perform (event : Event) (atTop : event.AtTop) (every : event.Every sizeof holds 0)
      (returned : perform isHeapPointer sizeof 0 event s = .ok s')
  | collect (unnested : s.tlflags.nestingLevel = 0) (collected : Collected s s')

/-- Between the events no constructor runs. -/
structure Outside (s : State) : Prop where
  newActive : s.tlflags.newActive = false
  nestingLevel : s.tlflags.nestingLevel = 0
  locals : s.locals = []

theorem Starts.outside {s : State} (starts : Starts s) : Outside s :=
  ⟨by rw [starts.tlflags]; rfl, by rw [starts.tlflags]; rfl, starts.locals⟩

section

variable {isHeapPointer : Nat → Bool} {sizeof : Nat → Nat} {holds : Nat → Event → Prop}
  {invariant : State → Prop} {s s' : State}

theorem Outside.building (outside : Outside s) (base : Nat) : Building base s.tlflags := by
  intro active _
  rw [outside.newActive] at active
  cases active

theorem Outside.congr (outside : Outside s) {offsets : List Nat}
    (progress : Progress s offsets s') : Outside s' := by
  refine ⟨?_, ?_, ?_⟩
  · rw [progress.flags, TlVars.newActive_recorded, outside.newActive]
  · rw [progress.flags, TlVars.nestingLevel_recorded, outside.nestingLevel]
  · apply List.eq_nil_of_length_eq_zero
    rw [progress.depth, outside.locals]
    rfl

/-- A run keeps what its events and its collections keep. -/
theorem Kept.reachable {initially : State → Prop}
    (kept : Kept isHeapPointer sizeof holds invariant)
    (starts : ∀ s, initially s → Starts s ∧ invariant s)
    (collect : ∀ s s', Outside s → invariant s → Collected s s' → invariant s')
    (reached : Reachable initially (Step isHeapPointer sizeof holds) s) :
    Outside s ∧ invariant s := by
  apply reached.invariant
  · intro s isStart
    exact ⟨(starts s isStart).1.outside, (starts s isStart).2⟩
  · intro s s' ⟨outside, holdsNow⟩ step
    cases step with
    | perform event atTop every returned =>
        have progress := perform_progress 0 event s (every.mono kept.safe) (outside.building 0)
        have keeps := kept.perform 0 event s every (fun _ => atTop) holdsNow
        exact ⟨outside.congr (progress.of_ok returned), keeps.of_ok returned⟩
    | collect unnested collected =>
        refine ⟨⟨?_, ?_, ?_⟩, collect s s' outside holdsNow collected⟩
        · rw [collected.tlflags, outside.newActive]
        · rw [collected.tlflags, outside.nestingLevel]
        · rw [collected.locals, outside.locals]

/-- Consecutive events outside of constructors are a run. -/
theorem reachable_of_performAll {initially : State → Prop} {events : List Event}
    (reached : Reachable initially (Step isHeapPointer sizeof holds) s)
    (top : ∀ event ∈ events, event.AtTop ∧ event.Every sizeof holds 0)
    (returned : performAll isHeapPointer sizeof 0 events s = .ok s') :
    Reachable initially (Step isHeapPointer sizeof holds) s' := by
  induction events generalizing s with
  | nil =>
      cases returned
      exact reached
  | cons event events ih =>
      rw [performAll] at returned
      rcases bind_eq_ok returned with ⟨t, first, rest⟩
      rcases top event List.mem_cons_self with ⟨atTop, every⟩
      exact ih (reached.next (.perform event atTop every first))
        (fun later mem => top later (List.mem_cons_of_mem _ mem)) rest

end

end PreciseGc.Mutator

import PreciseGc.Mutator.GcNew

/-!
# The metadata of a class

The first allocation of a class records the offsets of the `gc_ptr`s in its
first element, whatever the constructors allocate on the way, and every
allocation leaves the flags of the thread as it found them.  The record is
written by a loop whose index is an `int`, so it holds the first `2^31` offsets.
-/

namespace PreciseGc.Mutator

open Foundation State

section

variable (sizeof : Nat → Nat) (holds : Nat → Event → Prop)

mutual

/-- An event and the events of the constructors that it runs, each with the start of the element
under construction. -/
def Event.Every (base : Nat) : Event → Prop
  | .gcNew cls res elements place =>
      holds base (.gcNew cls res elements place) ∧
        EveryElement (sizeof cls) (res + sizeofBaseMeta) elements
  | event => holds base event

def EveryElement (size base : Nat) : List (List Event) → Prop
  | [] => True
  | element :: elements => EveryEvent base element ∧ EveryElement size (base + size) elements

def EveryEvent (base : Nat) : List Event → Prop
  | [] => True
  | event :: events => event.Every base ∧ EveryEvent base events

end

end

/-- What the language and the allocator grant: the automatic objects are outside of the heap and
the fields of objects inside, and `my_malloc` returns aligned addresses. -/
def Event.Placed (isHeapPointer : Nat → Bool) (base : Nat) : Event → Prop
  | .construct place _ => place.Placed isHeapPointer base
  | .gcNew _ res _ place => place.Placed isHeapPointer base ∧ res % 8 = 0
  | .attach _ _ _ cp => cp % 8 = 0
  | _ => True

/-- The faults that an event may cause, apart from those that the constructors exclude. -/
def Event.FaultsIn (allowed : Fault → Prop) : Event → Prop
  | .construct place _ => place.offset = none → allowed .undefined
  | .gcNew _ _ elements place => place.offset = none ∨ elements = [] → allowed .undefined
  | _ => allowed .undefined ∧ allowed .noReference ∧ allowed .emptyStackMap

/-- The offsets that the events of a constructor record. -/
def recordedOffsets (events : List Event) : List Nat := events.filterMap Event.recordedOffset

theorem recordedOffsets_cons (event : Event) (events : List Event) :
    recordedOffsets (event :: events) =
      event.recordedOffset.toList ++ recordedOffsets events := by
  cases recorded : event.recordedOffset with
  | none => simp [recordedOffsets, recorded]
  | some offset => simp [recordedOffsets, recorded]

section

variable {isHeapPointer : Nat → Bool} {sizeof : Nat → Nat} {allowed : Fault → Prop}

theorem setWord_progress (a value : Nat) (s : State) : Progress s [] (s.setWord a value) :=
  Progress.of_eq rfl rfl rfl

theorem construct_progress (allowed : Fault → Prop) {s : State} {base : Nat} {place : Place}
    (initializer : Initializer)
    (placed : place.Placed isHeapPointer base) (building : Building base s.tlflags) :
    Yields allowed (Progress s (Event.construct place initializer).recordedOffset.toList)
      (s.construct isHeapPointer (place.address base) initializer) := by
  cases initializer with
  | byDefault =>
      have word := setWord_progress (place.address base) 0 s
      exact (record_progress placed (building.congr word)).mono fun _ => word.trans
  | byCopy p =>
      have word := setWord_progress (place.address base) (clearStackFlag (s.word p)) s
      have counted := word.trans (retain_progress (s.word p) _)
      exact (record_progress placed (building.congr counted)).mono fun _ => counted.trans
  | byMove p => exact setWord_progress _ _ s

theorem pointerConstruct_progress (allowed : Fault → Prop) {s : State} {base : Nat}
    {place : Place} (p : Nat)
    (placed : place.Placed isHeapPointer base) (building : Building base s.tlflags) :
    Yields allowed (Progress s place.offset.toList)
      (s.pointerConstruct isHeapPointer (place.address base) p) := by
  have word := setWord_progress (place.address base) p s
  exact (record_progress placed (building.congr word)).mono fun _ => word.trans

theorem destruct_progress {s : State} (this : Nat) (isNoReference : allowed .noReference)
    (isEmpty : allowed .emptyStackMap) : Yields allowed (Progress s []) (s.destruct this) := by
  simp only [destruct]
  split
  · split
    · exact isEmpty
    · rename_i stack _
      have dropped : Progress s [] (s.setStack stack) := Progress.of_eq rfl rfl rfl
      exact (release_progress _ isNoReference).mono fun _ => dropped.trans
  · exact release_progress _ isNoReference

/-- The operations on a `gc_ptr` that exists leave the flags alone. -/
theorem operation_progress {s : State} {pointer : Nat} {rest : State → State}
    (isNoReference : allowed .noReference) (frame : ∀ t, Progress t [] (rest t)) :
    Yields allowed (Progress s []) (s.release pointer >>= fun t => .ok (rest t)) := by
  apply (release_progress pointer isNoReference).bind
  intro t released
  exact released.trans (frame t)

/-- The shell of a new object: the one of its class, or the one that its first element makes. -/
def newShell (sizeof : Nat → Nat) (s : State) (cls : Nat) (first : List Event) : List Nat :=
  (s.clMeta cls).getD (createMeta (sizeof cls) (recordedOffsets first))

/-- What `gc_new` leaves behind: the flags as they were, and the object. -/
structure Allocated (sizeof : Nat → Nat) (cls res : Nat) (first : List Event)
    (others : List (List Event)) (s s' : State) : Prop where
  flags : s'.tlflags = s.tlflags
  locals : s'.locals = s.locals
  automatics : s'.automatics = s.automatics
  object : s'.objects.head? = some
    { start := res + sizeofBaseMeta
      shell := newShell sizeof s cls first
      count := others.length + 1
      fields := fieldPositions (sizeof cls) 0 (first :: others) }

theorem Allocated.progress {cls res : Nat} {first : List Event} {others : List (List Event)}
    {s s' : State} (allocated : Allocated sizeof cls res first others s s') : Progress s [] s' :=
  Progress.of_eq allocated.flags allocated.locals allocated.automatics

/-- The flags of a thread whose constructors record nothing. -/
theorem Progress.idle {s t : State} {offsets : List Nat} (progress : Progress s offsets t)
    (noActive : s.tlflags.noActive = true) : t.tlflags = s.tlflags := by
  rw [progress.flags]
  exact TlVars.recorded_of_idle _ _ (by simp [noActive])

theorem building_of_noActive {base : Nat} {flags : TlVars} (noActive : flags.noActive = true) :
    Building base flags := by
  intro _ recording
  rw [noActive] at recording
  cases recording

/-- The end of an allocation whose class has metadata. -/
theorem leaveNew_restores {s t : State} {cls : Nat} {object : ManagedObject} {offsets : List Nat}
    (known : (s.clMeta cls).isSome = true) (progress : Progress (s.enterNew cls) offsets t) :
    (t.leaveNew s.tlflags object).tlflags = s.tlflags ∧
      (t.leaveNew s.tlflags object).locals = s.locals ∧
      (t.leaveNew s.tlflags object).automatics = s.automatics := by
  have flags : t.tlflags = (s.enterNew cls).tlflags := progress.idle known
  have outer : t.locals.tail = s.locals := progress.outer
  have automatics : t.automatics = s.automatics := progress.automatics (List.cons_ne_nil _ _)
  refine ⟨?_, outer, automatics⟩
  simp [leaveNew, flags, enterNew]

/-- The end of an allocation that has made the metadata of its class. -/
theorem endMeta_restores {s t u : State} {cls data : Nat} (size : Nat) (object : ManagedObject)
    {offsets : List Nat} (first : Progress ((s.enterNew cls).beginMeta data) offsets t)
    (flags : u.tlflags = { t.tlflags with noActive := u.tlflags.noActive })
    (outer : u.locals.tail = t.locals.tail) (automatics : u.automatics = t.automatics) :
    ((u.endMeta cls size s.tlflags).leaveNew s.tlflags object).tlflags = s.tlflags ∧
      ((u.endMeta cls size s.tlflags).leaveNew s.tlflags object).locals = s.locals ∧
      ((u.endMeta cls size s.tlflags).leaveNew s.tlflags object).automatics = s.automatics := by
  have outerFirst : t.locals.tail = s.locals := first.outer
  have automaticsFirst : t.automatics = s.automatics := first.automatics (List.cons_ne_nil _ _)
  refine ⟨?_, outer.trans outerFirst, automatics.trans automaticsFirst⟩
  have nesting : u.tlflags.nestingLevel = s.tlflags.nestingLevel + 1 := by
    rw [flags, first.flags]
    simp [beginMeta, enterNew]
  simp [leaveNew, endMeta, nesting]

theorem building_beginMeta (cls res : Nat) (s : State) :
    Building (res + sizeofBaseMeta)
      ((s.enterNew cls).beginMeta (res + sizeofBaseMeta)).tlflags := by
  intro _ _
  exact ⟨Nat.succ_ne_zero _, rfl⟩

/-- The offsets that the first element leaves behind. -/
theorem Progress.offsets_of_beginMeta {s t : State} {cls data : Nat} {offsets : List Nat}
    (progress : Progress ((s.enterNew cls).beginMeta data) offsets t)
    (unknown : s.clMeta cls = none) : t.tlflags.offsets = offsets := by
  rw [progress.flags, TlVars.recorded_of_active _ _ (by simp [beginMeta, enterNew, unknown])]
  simp [beginMeta]

/-- The elements behind the first one record nothing. -/
theorem performElements_afterFirst {size base : Nat} {others : List (List Event)} {t : State}
    (inside : t.locals ≠ [])
    (idle : ∀ u : State, u.tlflags.noActive = true →
      Yields allowed (Progress u []) (performElements isHeapPointer sizeof size base others u)) :
    Yields allowed (fun u => u.tlflags = { t.tlflags with noActive := u.tlflags.noActive } ∧
      u.locals.tail = t.locals.tail ∧ u.automatics = t.automatics)
      (performElements isHeapPointer sizeof size base others
        (if others.length = 0 then t else t.stopRecording)) := by
  cases others with
  | nil => exact ⟨rfl, rfl, rfl⟩
  | cons other others =>
      apply (idle t.stopRecording rfl).mono
      intro u progress
      have flags : u.tlflags = t.stopRecording.tlflags := progress.idle rfl
      refine ⟨?_, progress.outer, progress.automatics inside⟩
      rw [flags]
      rfl

mutual

theorem perform_progress (base : Nat) (event : Event)
    (s : State) (placed : event.Every sizeof (fun base event =>
      event.Placed isHeapPointer base ∧ event.FaultsIn allowed) base)
    (building : Building base s.tlflags) :
    Yields allowed (Progress s event.recordedOffset.toList)
      (perform isHeapPointer sizeof base event s) := by
  match event with
  | .construct place initializer =>
      rw [perform]
      apply (settle_progress place placed.2).bind
      intro t settled
      have constructed := construct_progress allowed initializer placed.1
        (building.congr settled)
      exact constructed.mono fun _ => settled.trans
  | .gcNew cls res elements place =>
      rcases placed with ⟨⟨⟨placePlaced, -⟩, isUndefined⟩, elementsPlaced⟩
      rw [perform]
      apply (gcNew_progress cls res elements s elementsPlaced
        fun empty => isUndefined (Or.inr empty)).bind
      intro t ⟨first, others, _, allocated⟩
      apply (settle_progress place fun automatic => isUndefined (Or.inl automatic)).bind
      intro u settled
      have before := allocated.progress.trans settled
      have constructed := pointerConstruct_progress allowed (res + sizeofBaseMeta) placePlaced
        (building.congr before)
      exact constructed.mono fun _ => before.trans
  | .assign this a =>
      rcases placed with ⟨-, -, isNoReference, -⟩
      rw [perform, assign]
      apply operation_progress isNoReference
      intro t
      exact (setWord_progress this _ t).trans (retain_progress _ _)
  | .attach this pointer b cp =>
      rcases placed with ⟨-, -, isNoReference, -⟩
      rw [perform, attach]
      exact operation_progress isNoReference fun t => Progress.of_eq rfl rfl rfl
  | .setNULL this =>
      rcases placed with ⟨-, -, isNoReference, -⟩
      rw [perform, setNULL]
      exact operation_progress isNoReference fun t => setWord_progress this 0 t
  | .destruct this =>
      rcases placed with ⟨-, isUndefined, isNoReference, isEmpty⟩
      rw [perform]
      apply (leave_progress this isUndefined).bind
      intro t left
      exact (destruct_progress this isNoReference isEmpty).mono fun _ => left.trans

theorem gcNew_progress (cls res : Nat) (elements : List (List Event)) (s : State)
    (placed : EveryElement sizeof (fun base event =>
      event.Placed isHeapPointer base ∧ event.FaultsIn allowed) (sizeof cls)
        (res + sizeofBaseMeta) elements)
    (isUndefined : elements = [] → allowed .undefined) :
    Yields allowed (fun s' => ∃ first others, elements = first :: others ∧
      Allocated sizeof cls res first others s s')
      (gcNew isHeapPointer sizeof cls res elements s) := by
  match elements with
  | [] => exact isUndefined rfl
  | first :: others =>
      cases known : s.clMeta cls with
      | some shell =>
          have isKnown : (s.clMeta cls).isSome = true := by rw [known]; rfl
          simp only [gcNew, known]
          apply (performAll_progress _ first (s.enterNew cls) placed.1
            (building_of_noActive isKnown)).bind
          intro t built
          have stillIdle : t.tlflags.noActive = true := by
            rw [built.idle isKnown]
            exact isKnown
          apply (performElements_progress _ _ others t placed.2 stillIdle).bind
          intro u builtAll
          rcases leaveNew_restores isKnown (built.trans builtAll) with ⟨flags, locals, automatics⟩
          refine ⟨first, others, rfl, flags, locals, automatics, ?_⟩
          simp [newShell, known, leaveNew]
      | none =>
          simp only [gcNew, known]
          apply (performAll_progress _ first _ placed.1
            (building_beginMeta cls res s)).bind
          intro t built
          have inside : t.locals ≠ [] := by
            apply List.ne_nil_of_length_pos
            rw [built.depth]
            exact Nat.succ_pos _
          apply (performElements_afterFirst inside fun u noActive =>
            performElements_progress (sizeof cls) _ others u placed.2 noActive).bind
          intro u ⟨flags, outer, automatics⟩
          obtain ⟨flagsBack, localsBack, automaticsBack⟩ :=
            endMeta_restores (sizeof cls) _ built flags outer automatics
          refine ⟨first, others, rfl, flagsBack, localsBack, automaticsBack, ?_⟩
          have offsets : u.tlflags.offsets = recordedOffsets first := by
            rw [flags]
            exact built.offsets_of_beginMeta known
          simp [newShell, known, leaveNew, offsets]

theorem performElements_progress (size base : Nat)
    (elements : List (List Event)) (s : State)
    (placed : EveryElement sizeof (fun base event =>
      event.Placed isHeapPointer base ∧ event.FaultsIn allowed) size base elements)
    (noActive : s.tlflags.noActive = true) :
    Yields allowed (Progress s []) (performElements isHeapPointer sizeof size base elements s) := by
  match elements with
  | [] => exact Progress.refl s
  | element :: elements =>
      rw [performElements]
      apply (performAll_progress base element s placed.1
        (building_of_noActive noActive)).bind
      intro t first
      have idle := first.idle noActive
      have next := performElements_progress size (base + size) elements t placed.2
        (idle ▸ noActive)
      have empty : Progress s [] t := ⟨by simp [idle], first.depth, first.outer, first.automatics⟩
      exact next.mono fun _ => empty.trans

theorem performAll_progress (base : Nat) (events : List Event)
    (s : State) (placed : EveryEvent sizeof (fun base event =>
      event.Placed isHeapPointer base ∧ event.FaultsIn allowed) base events)
    (building : Building base s.tlflags) :
    Yields allowed (Progress s (recordedOffsets events))
      (performAll isHeapPointer sizeof base events s) := by
  match events with
  | [] => exact Progress.refl s
  | event :: events =>
      rw [performAll, recordedOffsets_cons]
      apply (perform_progress base event s placed.1 building).bind
      intro t first
      have next := performAll_progress base events t placed.2 (building.congr first)
      exact next.mono fun _ => first.trans

end

variable {holds weaker : Nat → Event → Prop}

mutual

theorem Event.Every.mono (implies : ∀ base event, holds base event → weaker base event)
    {base : Nat} {event : Event} (every : event.Every sizeof holds base) :
    event.Every sizeof weaker base := by
  match event with
  | .gcNew cls res elements place => exact ⟨implies _ _ every.1, EveryElement.mono implies every.2⟩
  | .construct _ _ => exact implies _ _ every
  | .assign _ _ => exact implies _ _ every
  | .attach _ _ _ _ => exact implies _ _ every
  | .setNULL _ => exact implies _ _ every
  | .destruct _ => exact implies _ _ every

theorem EveryElement.mono (implies : ∀ base event, holds base event → weaker base event)
    {size base : Nat} {elements : List (List Event)}
    (every : EveryElement sizeof holds size base elements) :
    EveryElement sizeof weaker size base elements := by
  match elements with
  | [] => trivial
  | element :: elements =>
      exact ⟨EveryEvent.mono implies every.1, EveryElement.mono implies every.2⟩

theorem EveryEvent.mono (implies : ∀ base event, holds base event → weaker base event)
    {base : Nat} {events : List Event} (every : EveryEvent sizeof holds base events) :
    EveryEvent sizeof weaker base events := by
  match events with
  | [] => trivial
  | event :: events => exact ⟨Event.Every.mono implies every.1, EveryEvent.mono implies every.2⟩

end

theorem Event.Every.here {base : Nat} {event : Event} (every : event.Every sizeof holds base) :
    holds base event := by
  cases event with
  | gcNew cls res elements place => exact every.1
  | construct place initializer => exact every
  | assign this a => exact every
  | attach this pointer b cp => exact every
  | setNULL this => exact every
  | destruct this => exact every

theorem everyEvent_iff {base : Nat} {events : List Event} :
    EveryEvent sizeof holds base events ↔ ∀ event ∈ events, event.Every sizeof holds base := by
  induction events with
  | nil => simp [EveryEvent]
  | cons event events ih => simp [EveryEvent, ih]

/-- The construction of a `gc_ptr` by one of the constructors other than the moving one. -/
def Event.Builds : Event → Prop
  | .construct _ (.byMove _) => False
  | .construct _ _ => True
  | .gcNew _ _ _ _ => True
  | _ => False

theorem Event.Builds.faultsIn {event : Event} (builds : event.Builds)
    (isUndefined : allowed .undefined) : event.FaultsIn allowed := by
  cases event with
  | construct place initializer => exact fun _ => isUndefined
  | gcNew cls res elements place => exact fun _ => isUndefined
  | assign this a => exact builds.elim
  | attach this pointer b cp => exact builds.elim
  | setNULL this => exact builds.elim
  | destruct this => exact builds.elim

theorem Event.Builds.recordedOffset {event : Event} (builds : event.Builds) :
    event.recordedOffset = event.fieldOffset := by
  cases event with
  | construct place initializer =>
      cases initializer with
      | byMove p => exact builds.elim
      | byDefault => rfl
      | byCopy p => rfl
  | _ => rfl

theorem recordedOffsets_eq {base : Nat} {events : List Event}
    (builds : EveryEvent sizeof (fun _ event => event.Builds) base events) :
    recordedOffsets events = fieldOffsets events := by
  apply List.filterMap_congr
  intro event mem
  exact (everyEvent_iff.mp builds event mem).here.recordedOffset

/-- The loop of `create_meta` stops when its index wraps. -/
theorem writeOffsets_exact_iff {count i : Nat} {offsets : List Nat}
    (within : i + offsets.length ≤ count) :
    writeOffsets count i offsets = offsets ↔ ∀ offset ∈ offsets.drop (2 ^ 31 - i), offset = 0 := by
  induction offsets generalizing i with
  | nil => simp [writeOffsets]
  | cons offset offsets ih =>
      rw [List.length_cons] at within
      have rest := ih (i := i + 1) (by omega)
      rw [writeOffsets, List.cons.injEq, rest]
      by_cases small : i < 2 ^ 31
      · have split : 2 ^ 31 - i = (2 ^ 31 - (i + 1)) + 1 := by omega
        have below : i < count := by omega
        have inRange : intBelow i count = true := by
          simp only [intBelow, below, small, decide_true, Bool.and_true]
        rw [split, List.drop_succ_cons, inRange]
        simp
      · have done : 2 ^ 31 - i = 0 := by omega
        have doneNext : 2 ^ 31 - (i + 1) = 0 := by omega
        have outOfRange : intBelow i count = false := by
          simp only [intBelow, small, decide_false, Bool.and_false]
        rw [done, doneNext, outOfRange, List.drop_zero, List.drop_zero, List.forall_mem_cons]
        simp [eq_comm]

/-- The metadata lists all offsets unless one that is not zero lies beyond the first `2^31`. -/
theorem createMeta_exact_iff (size : Nat) (offsets : List Nat) :
    createMeta size offsets = size :: offsets.length :: offsets ↔
      ∀ offset ∈ offsets.drop (2 ^ 31), offset = 0 := by
  simp only [createMeta, List.cons.injEq, true_and]
  apply writeOffsets_exact_iff
  omega

/-- What `gc_new` writes for a class without metadata. -/
theorem gcNew_unknown {cls res : Nat} {first : List Event} {others : List (List Event)} {s : State}
    (unknown : s.clMeta cls = none)
    (placed : EveryElement sizeof (fun base event => event.Placed isHeapPointer base ∧ event.Builds)
      (sizeof cls) (res + sizeofBaseMeta) (first :: others))
    (defined : gcNew isHeapPointer sizeof cls res (first :: others) s ≠ .error .undefined) :
    ∃ s', gcNew isHeapPointer sizeof cls res (first :: others) s = .ok s' ∧
      s'.tlflags = s.tlflags ∧ s'.objects.head?.map ManagedObject.shell =
        some (createMeta (sizeof cls) (fieldOffsets first)) := by
  have progress := @gcNew_progress isHeapPointer sizeof (· = .undefined) cls res
    (first :: others) s
    (placed.mono fun base event ⟨isPlaced, builds⟩ => ⟨isPlaced, builds.faultsIn rfl⟩) nofun
  rcases progress.exists_ok defined with ⟨s', returned, first', others', same, allocated⟩
  cases same
  refine ⟨s', returned, allocated.flags, ?_⟩
  have builds : EveryEvent sizeof (fun _ event => event.Builds) (res + sizeofBaseMeta) first :=
    EveryEvent.mono (fun _ _ both => both.2) placed.1
  rw [allocated.object, newShell, unknown, recordedOffsets_eq builds]
  rfl

/-- Whatever `gc_new` constructs and allocates on the way, it restores the flags of the thread, and
the shell of the new object lists exactly the `gc_ptr`s of its first element, if no offset other
than zero lies beyond the first `2^31`. -/
theorem gcNew_metadata_iff (isHeapPointer : Nat → Bool) (sizeof : Nat → Nat) (cls res : Nat)
    (first : List Event) (others : List (List Event)) (s : State) (unknown : s.clMeta cls = none)
    (placed : EveryElement sizeof (fun base event => event.Placed isHeapPointer base ∧ event.Builds)
      (sizeof cls) (res + sizeofBaseMeta) (first :: others))
    (defined : gcNew isHeapPointer sizeof cls res (first :: others) s ≠ .error .undefined) :
    (∃ s', gcNew isHeapPointer sizeof cls res (first :: others) s = .ok s' ∧
      s'.tlflags = s.tlflags ∧ s'.objects.head?.map ManagedObject.shell =
        some (sizeof cls :: (fieldOffsets first).length :: fieldOffsets first)) ↔
      ∀ offset ∈ (fieldOffsets first).drop (2 ^ 31), offset = 0 := by
  rcases gcNew_unknown unknown placed defined with ⟨s', returned, flags, shell⟩
  rw [← createMeta_exact_iff (sizeof cls)]
  constructor
  · intro ⟨t, returnedToo, _, exact⟩
    rw [returned] at returnedToo
    cases returnedToo
    rw [shell] at exact
    exact Option.some.inj exact
  · intro exact
    exact ⟨s', returned, flags, by rw [shell, exact]⟩

end

/-- A thread before its first allocation. -/
def State.start : State where
  word _ := 0
  composite _ := { pointer := 0, base := 0, refCount := 0 }
  tlflags := TlVars.initial
  stack := StackMap.empty
  clMeta _ := none
  objects := []
  automatics := []
  locals := []

/-- Two elements of a class with two fields.  The constructor of the first element allocates an
object of the same class, and stores it in the second field. -/
def pairElements : List (List Event) :=
  let leaf := [.construct (.field 0) .byDefault, .construct (.automatic 64) .byDefault,
    .construct (.field 8) (.byCopy 64)]
  [[.construct (.field 0) .byDefault, .gcNew 1 2000 [leaf] (.field 8)],
    [.construct (.field 0) .byDefault, .construct (.field 8) .byDefault]]

/-- The class `1` has no metadata when the object is allocated, and its metadata is made twice. -/
theorem gcNew_metadata_iff_pair :
    ∃ s', gcNew (fun a => 1024 ≤ a) (fun _ => 16) 1 1000 pairElements .start = .ok s' ∧
      s'.tlflags = TlVars.initial ∧
      s'.objects.head?.map ManagedObject.shell = some [16, 2, 0, 8] := by
  have metadata := gcNew_metadata_iff (fun a => 1024 ≤ a) (fun _ => 16) 1 1000
    pairElements.head! pairElements.tail .start rfl
    (by simp [pairElements, EveryElement, EveryEvent, Event.Every, Event.Placed, Place.Placed,
      Event.Builds, sizeofBaseMeta])
    (ne_error_of_faultOf (by decide +kernel) _)
  exact metadata.mpr (by decide)

/-- A class with this many `gc_ptr`s and nothing else. -/
def manyFields (count : Nat) : List Event :=
  (List.range count).map fun i => .construct (.field (8 * i)) .byDefault

theorem fieldOffsets_manyFields (count : Nat) :
    fieldOffsets (manyFields count) = (List.range count).map (8 * ·) := by
  simp [fieldOffsets, manyFields, List.filterMap_map, Function.comp_def, Event.fieldOffset,
    Place.offset]

theorem last_mem_drop (count : Nat) :
    8 * count ∈ ((List.range (count + 1)).map (8 * ·)).drop count := by
  apply List.mem_drop_iff_getElem.mpr
  exact ⟨0, by simp, by simp⟩

/-- An allocation of such a class returns. -/
theorem gcNew_manyFields (count : Nat) :
    ∃ s', gcNew (fun a => 1024 ≤ a) (fun _ => 8 * count) 0 1000 [manyFields count] .start = .ok s' ∧
      s'.objects.head?.map ManagedObject.shell =
        some (createMeta (8 * count) ((List.range count).map (8 * ·))) := by
  have placed : EveryEvent (fun _ => 8 * count) (fun base event =>
      (event.Placed (fun a => 1024 ≤ a) base ∧ event.FaultsIn fun _ => False) ∧ event.Builds)
      (1000 + sizeofBaseMeta) (manyFields count) := by
    apply everyEvent_iff.mpr
    intro event mem
    rcases List.mem_map.mp mem with ⟨i, -, same⟩
    cases same
    simp [Event.Every, Event.Placed, Place.Placed, Event.FaultsIn, Event.Builds, Place.offset,
      sizeofBaseMeta]
  have progress := gcNew_progress 0 1000 [manyFields count] .start
    ⟨EveryEvent.mono (fun _ _ both => both.1) placed, trivial⟩ nofun
  rcases progress.total with ⟨s', returned, first, others, same, allocated⟩
  cases same
  have builds := recordedOffsets_eq (EveryEvent.mono (fun _ _ both => both.2) placed)
  refine ⟨s', returned, ?_⟩
  rw [allocated.object, newShell, builds, fieldOffsets_manyFields]
  rfl

/-- One field too many: the index of the loop wraps, and the last offset is not written. -/
theorem gcNew_truncates : ∃ s', gcNew (fun a => 1024 ≤ a) (fun _ => 8 * (2 ^ 31 + 1)) 0 1000
      [manyFields (2 ^ 31 + 1)] .start = .ok s' ∧
    s'.objects.head?.map ManagedObject.shell ≠ some (8 * (2 ^ 31 + 1) ::
      (fieldOffsets (manyFields (2 ^ 31 + 1))).length ::
        fieldOffsets (manyFields (2 ^ 31 + 1))) := by
  rcases gcNew_manyFields (2 ^ 31 + 1) with ⟨s', returned, shell⟩
  refine ⟨s', returned, fun exact => ?_⟩
  rw [shell, fieldOffsets_manyFields] at exact
  have zero := (createMeta_exact_iff _ _).mp (Option.some.inj exact)
  have lastZero := zero (8 * 2 ^ 31) (last_mem_drop (2 ^ 31))
  omega

end PreciseGc.Mutator

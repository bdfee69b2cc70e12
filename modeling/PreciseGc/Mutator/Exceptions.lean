import PreciseGc.Mutator.Metadata

/-!
# Exceptions

`gc_new` puts the flags of the thread back behind the constructors.  When a
constructor throws, the stack is unwound past that code.  This module runs
programs whose constructors throw, at any depth of nesting, and whose functions
catch.
-/

namespace PreciseGc.Mutator

open Foundation State Function

/-- What a thread does, with exceptions.  In `gcNew`, `elements` lists what the constructors do, and
`unwinding` the destructors that run if one of them throws: those of the elements and members that
are complete, and of the automatic objects.  The one element of a request for none is the
object that `gc_new` constructs to make the metadata of the class.  The `handler` of an `attempt`
begins with the destructors of the automatic objects of its body. -/
inductive Statement where
  | event (event : Event)
  | gcNew (cls res count : Nat) (elements : List (List Statement)) (unwinding : List Statement)
      (place : Place)
  | attempt (body handler : List Statement)
  /-- The destructor of a `gc_ptr` that is a member. -/
  | destroy (this : Nat)
  | throw

/-- How a statement ends. -/
structure Completion where
  state : State
  thrown : Bool

namespace Completion

/-- The end of a statement that does not throw. -/
def normal (s : State) : Completion := { state := s, thrown := false }

/-- The next statement, unless an exception passes it by. -/
def andThen (next : State → Except Fault Completion) (done : Completion) :
    Except Fault Completion :=
  if done.thrown then .ok done else next done.state

end Completion

/-- The offset of the field in which a statement constructs a `gc_ptr`, if it does. -/
def Statement.fieldOffset : Statement → Option Nat
  | .event performed => performed.fieldOffset
  | .gcNew _ _ _ _ _ place => place.offset
  | _ => none

/-- The positions of the `gc_ptr`s of elements of this size, the first element at `position`. -/
def memberPositions (size : Nat) (position : Nat) : List (List Statement) → List Nat
  | [] => []
  | element :: elements =>
      (element.filterMap Statement.fieldOffset).map (position + ·) ++
        memberPositions size (position + size) elements

/-- A constructor that threw is gone from the call stack. -/
def State.popFrame (s : State) : State := { s with locals := s.locals.tail }

section

variable (isHeapPointer : Nat → Bool) (sizeof : Nat → Nat)

mutual

/-- One statement, while an element at `base` is under construction. -/
def execute (base : Nat) : Statement → State → Except Fault Completion
  | .event event, s =>
      perform isHeapPointer sizeof base event s >>= fun s => .ok (.normal s)
  | .gcNew cls res count elements unwinding place, s =>
      executeNew cls res count elements s >>= fun built =>
        if built.thrown then
          -- a destructor that throws ends the program
          executeAll base unwinding built.state >>= fun undone =>
            if undone.thrown then .error .undefined
            else .ok { state := undone.state.popFrame, thrown := true }
        else
          built.state.settle place >>= fun s =>
            s.pointerConstruct isHeapPointer (place.address base) (res + sizeofBaseMeta) >>=
              fun s => .ok (.normal s)
  | .attempt body handler, s =>
      executeAll base body s >>= fun done =>
        if done.thrown then executeAll base handler done.state else .ok done
  | .destroy this, s => s.destruct this >>= fun s => .ok (.normal s)
  | .throw, s => .ok { state := s, thrown := true }

/-- `gc_new<T>(types, count)`, up to the constructor that throws. -/
def executeNew (cls res count : Nat) : List (List Statement) → State → Except Fault Completion
  | [], s =>
      if (s.clMeta cls).isSome ∧ count = 0 then
        .ok (.normal ((s.enterNew cls).leaveNew s.tlflags
          { start := res + sizeofBaseMeta, shell := (s.clMeta cls).getD [], count := 0,
            fields := [] }))
      else .error .undefined
  | first :: others, s =>
      let data := res + sizeofBaseMeta
      let fields := memberPositions (sizeof cls) 0 (first :: others)
      if (s.clMeta cls).isSome then
        if count = others.length + 1 then
          executeAll data first (s.enterNew cls) >>=
            Completion.andThen (executeElements (sizeof cls) (data + sizeof cls) others) >>=
              Completion.andThen fun built =>
                .ok (.normal (built.leaveNew s.tlflags
                  { start := data, shell := (s.clMeta cls).getD [], count := count,
                    fields := fields }))
        else .error .undefined
      else if others.length = count - 1 then
        executeAll data first ((s.enterNew cls).beginMeta data) >>=
          Completion.andThen (fun built =>
            -- `T[count - 1]` is too long an array for any program
            if count = 0 then .error .undefined
            else executeElements (sizeof cls) (data + sizeof cls) others
              (if others.length = 0 then built else built.stopRecording)) >>=
            Completion.andThen fun built =>
              .ok (.normal ((built.endMeta cls (sizeof cls) s.tlflags).leaveNew s.tlflags
                { start := data, shell := createMeta (sizeof cls) built.tlflags.offsets,
                  count := count, fields := fields }))
      else .error .undefined

/-- The constructors of consecutive elements, from the one at `base` on. -/
def executeElements (size : Nat) (base : Nat) :
    List (List Statement) → State → Except Fault Completion
  | [], s => .ok (.normal s)
  | element :: elements, s =>
      executeAll base element s >>=
        Completion.andThen (executeElements size (base + size) elements)

def executeAll (base : Nat) : List Statement → State → Except Fault Completion
  | [], s => .ok (.normal s)
  | statement :: statements, s =>
      execute base statement s >>= Completion.andThen (executeAll base statements)

end

end

section

variable {isHeapPointer : Nat → Bool} {sizeof : Nat → Nat}

/-- A computation of states, as one of completions. -/
theorem normal_andThen (computation : Except Fault State)
    (next : State → Except Fault Completion) :
    (computation >>= fun s => .ok (Completion.normal s)) >>= Completion.andThen next =
      computation >>= next := by
  cases computation <;> rfl

theorem normal_last (computation : Except Fault State) (last : State → State) :
    ((computation >>= fun s => .ok (Completion.normal s)) >>=
        Completion.andThen fun s => .ok (.normal (last s))) =
      (computation >>= fun s => .ok (last s)) >>= fun s => .ok (.normal s) := by
  cases computation <;> rfl

theorem executeAll_events (base : Nat) (events : List Event) (s : State) :
    executeAll isHeapPointer sizeof base (events.map .event) s =
      performAll isHeapPointer sizeof base events s >>= fun s => .ok (.normal s) := by
  induction events generalizing s with
  | nil => rfl
  | cons event events ih =>
      simp only [List.map_cons, executeAll, execute, performAll, normal_andThen]
      cases perform isHeapPointer sizeof base event s with
      | error fault => rfl
      | ok performed => exact ih performed

theorem executeElements_events (size base : Nat) (elements : List (List Event)) (s : State) :
    executeElements isHeapPointer sizeof size base (elements.map (List.map .event)) s =
      performElements isHeapPointer sizeof size base elements s >>= fun s => .ok (.normal s) := by
  induction elements generalizing base s with
  | nil => rfl
  | cons element elements ih =>
      simp only [List.map_cons, executeElements, executeAll_events, performElements,
        normal_andThen]
      cases performAll isHeapPointer sizeof base element s with
      | error fault => rfl
      | ok built => exact ih (base + size) built

theorem memberPositions_events (size position : Nat) (elements : List (List Event)) :
    memberPositions size position (elements.map (List.map .event)) =
      fieldPositions size position elements := by
  induction elements generalizing position with
  | nil => rfl
  | cons element elements ih =>
      simp only [List.map_cons, memberPositions, fieldPositions, ih, List.filterMap_map]
      rfl

/-- Where no constructor throws, `gc_new` does what it does without exceptions. -/
theorem executeNew_events (cls res : Nat) (first : List Event) (others : List (List Event))
    (s : State) :
    executeNew isHeapPointer sizeof cls res (others.length + 1)
        ((first :: others).map (List.map .event)) s =
      gcNew isHeapPointer sizeof cls res (first :: others) s >>= fun s => .ok (.normal s) := by
  have positions := memberPositions_events (sizeof cls) 0 (first :: others)
  rw [List.map_cons] at positions
  cases known : s.clMeta cls with
  | some shell =>
      simp only [List.map_cons, executeNew, gcNew, known, positions, executeAll_events,
        normal_andThen, List.length_map, Option.isSome_some, if_true, Option.getD_some]
      cases performAll isHeapPointer sizeof (res + sizeofBaseMeta) first (s.enterNew cls) with
      | error fault => rfl
      | ok built =>
          simp only [bind, Except.bind, executeElements_events]
          exact normal_last _ _
  | none =>
      simp only [List.map_cons, executeNew, gcNew, known, positions, executeAll_events,
        normal_andThen, List.length_map, Option.isSome_none, Bool.false_eq_true, if_false,
        Nat.add_sub_cancel, if_true, Nat.succ_ne_zero]
      cases performAll isHeapPointer sizeof (res + sizeofBaseMeta) first
          ((s.enterNew cls).beginMeta (res + sizeofBaseMeta)) with
      | error fault => rfl
      | ok built =>
          simp only [bind, Except.bind, executeElements_events]
          exact normal_last _ _

/-- No constructor that was running has ended, as the flags tell it. -/
structure Grows (s t : State) : Prop where
  nestingLevel : s.tlflags.nestingLevel ≤ t.tlflags.nestingLevel
  newActive : s.tlflags.newActive = true → t.tlflags.newActive = true

theorem Grows.refl (s : State) : Grows s s := ⟨le_rfl, id⟩

theorem Grows.trans {s t u : State} (earlier : Grows s t) (later : Grows t u) : Grows s u :=
  ⟨earlier.nestingLevel.trans later.nestingLevel, later.newActive ∘ earlier.newActive⟩

theorem Progress.grows {s t : State} {offsets : List Nat} (progress : Progress s offsets t) :
    Grows s t := by
  refine ⟨?_, ?_⟩ <;> simp [progress.flags]

theorem enterNew_grows (cls : Nat) (s : State) : Grows s (s.enterNew cls) :=
  ⟨Nat.le_succ _, fun _ => rfl⟩

theorem beginMeta_grows (data : Nat) (s : State) : Grows s (s.beginMeta data) := ⟨le_rfl, id⟩

theorem stopRecording_unless (others : Nat) (s : State) :
    Grows s (if others = 0 then s else s.stopRecording) := by
  split
  · exact Grows.refl s
  · exact ⟨le_rfl, id⟩

theorem endMeta_grows {s t : State} (cls size : Nat) (old : TlVars) (grows : Grows s t) :
    Grows s (t.endMeta cls size old) :=
  ⟨grows.nestingLevel, grows.newActive⟩

theorem popFrame_grows {s t : State} (grows : Grows s t) : Grows s t.popFrame :=
  ⟨grows.nestingLevel, grows.newActive⟩

/-- The end of `gc_new` puts back what its beginning changes. -/
theorem leaveNew_grows {s t : State} {cls : Nat} (object : ManagedObject)
    (grows : Grows (s.enterNew cls) t) : Grows s (t.leaveNew s.tlflags object) :=
  ⟨Nat.le_sub_one_of_lt grows.nestingLevel, id⟩

theorem setWord_grows (a value : Nat) (s : State) : Grows s (s.setWord a value) :=
  (setWord_progress a value s).grows

theorem record_grows (this : Nat) (s : State) :
    Yields (fun _ => True) (Grows s) (s.record isHeapPointer this) := by
  have same : ∀ t : State, t.tlflags.nestingLevel = s.tlflags.nestingLevel →
      t.tlflags.newActive = s.tlflags.newActive → Grows s t :=
    fun t nesting active => ⟨nesting.ge, active.trans⟩
  unfold record
  repeat' split
  · exact same _ rfl rfl
  · exact same _ rfl rfl
  · trivial
  · exact same _ rfl rfl
  · exact same _ rfl rfl

theorem construct_grows (this : Nat) (initializer : Initializer) (s : State) :
    Yields (fun _ => True) (Grows s) (s.construct isHeapPointer this initializer) := by
  cases initializer with
  | byDefault =>
      have word := setWord_grows this 0 s
      exact (record_grows this _).mono fun _ => word.trans
  | byCopy p =>
      have word := setWord_grows this (clearStackFlag (s.word p)) s
      have counted := word.trans (retain_progress (s.word p) _).grows
      exact (record_grows this _).mono fun _ => counted.trans
  | byMove p => exact setWord_grows this _ s

theorem pointerConstruct_grows (this p : Nat) (s : State) :
    Yields (fun _ => True) (Grows s) (s.pointerConstruct isHeapPointer this p) :=
  (record_grows this _).mono fun _ => (setWord_grows this p s).trans

theorem operation_grows {s : State} {pointer : Nat} {rest : State → State}
    (frame : ∀ t, Progress t [] (rest t)) :
    Yields (fun _ => True) (Grows s) (s.release pointer >>= fun t => .ok (rest t)) := by
  apply (release_progress pointer trivial).bind
  intro t released
  exact released.grows.trans (frame t).grows

mutual

theorem perform_grows (base : Nat) (event : Event) (s : State) :
    Yields (fun _ => True) (Grows s) (perform isHeapPointer sizeof base event s) := by
  match event with
  | .construct place initializer =>
      rw [perform]
      apply (settle_progress place fun _ => trivial).bind
      intro t settled
      exact (construct_grows _ initializer t).mono fun _ => settled.grows.trans
  | .gcNew cls res elements place =>
      rw [perform]
      apply (gcNew_grows cls res elements s).bind
      intro t allocated
      apply (settle_progress place fun _ => trivial).bind
      intro u settled
      have before := allocated.trans settled.grows
      exact (pointerConstruct_grows _ _ u).mono fun _ => before.trans
  | .assign this a =>
      rw [perform, assign]
      apply operation_grows
      intro t
      exact (setWord_progress this _ t).trans (retain_progress _ _)
  | .attach this pointer b cp =>
      rw [perform, attach]
      exact operation_grows fun t => Progress.of_eq rfl rfl rfl
  | .setNULL this =>
      rw [perform, setNULL]
      exact operation_grows fun t => setWord_progress this 0 t
  | .destruct this =>
      rw [perform]
      apply (leave_progress this trivial).bind
      intro t left
      exact (destruct_progress this trivial trivial).mono fun _ freed =>
        left.grows.trans freed.grows

theorem gcNew_grows (cls res : Nat) (elements : List (List Event)) (s : State) :
    Yields (fun _ => True) (Grows s) (gcNew isHeapPointer sizeof cls res elements s) := by
  match elements with
  | [] => trivial
  | first :: others =>
      cases known : s.clMeta cls with
      | some shell =>
          simp only [gcNew, known]
          apply (performAll_grows _ first _).bind
          intro t built
          apply (performElements_grows _ _ others t).bind
          intro u builtAll
          exact leaveNew_grows _ (built.trans builtAll)
      | none =>
          simp only [gcNew, known]
          apply (performAll_grows _ first _).bind
          intro t built
          have stopped := stopRecording_unless others.length t
          apply (performElements_grows _ _ others _).bind
          intro u builtAll
          have whole := (beginMeta_grows _ _).trans (built.trans (stopped.trans builtAll))
          exact leaveNew_grows _ (endMeta_grows cls _ _ whole)

theorem performElements_grows (size base : Nat) (elements : List (List Event)) (s : State) :
    Yields (fun _ => True) (Grows s)
      (performElements isHeapPointer sizeof size base elements s) := by
  match elements with
  | [] => exact Grows.refl s
  | element :: elements =>
      rw [performElements]
      apply (performAll_grows base element s).bind
      intro t first
      exact (performElements_grows size (base + size) elements t).mono fun _ => first.trans

theorem performAll_grows (base : Nat) (events : List Event) (s : State) :
    Yields (fun _ => True) (Grows s) (performAll isHeapPointer sizeof base events s) := by
  match events with
  | [] => exact Grows.refl s
  | event :: events =>
      rw [performAll]
      apply (perform_grows base event s).bind
      intro t first
      exact (performAll_grows base events t).mono fun _ => first.trans

end

/-- A sequence of statements, whether or not the first one throws. -/
theorem andThen_grows {s : State} {first : Except Fault Completion}
    {next : State → Except Fault Completion}
    (starts : Yields (fun _ => True) (fun done => Grows s done.state) first)
    (continues : ∀ t, Yields (fun _ => True) (fun done => Grows t done.state) (next t)) :
    Yields (fun _ => True) (fun done => Grows s done.state)
      (first >>= Completion.andThen next) := by
  apply starts.bind
  intro done grows
  unfold Completion.andThen
  split
  · exact grows
  · exact (continues done.state).mono fun _ => grows.trans

/-- What is left behind by `gc_new` when a constructor throws, and when none does. -/
def EndsNew (cls : Nat) (s : State) (done : Completion) : Prop :=
  if done.thrown then Grows (s.enterNew cls) done.state else Grows s done.state

theorem EndsNew.grows {cls : Nat} {s : State} {done : Completion} (ends : EndsNew cls s done) :
    Grows s done.state := by
  unfold EndsNew at ends
  split at ends
  · exact (enterNew_grows cls s).trans ends
  · exact ends

/-- Behind the constructors, `gc_new` puts the flags back unless an exception passes it by. -/
theorem leaveNew_ends {cls : Nat} {s : State} {constructors : Except Fault Completion}
    {last : State → State}
    (built : Yields (fun _ => True) (fun done => Grows (s.enterNew cls) done.state) constructors)
    (leaves : ∀ t, Grows (s.enterNew cls) t → Grows s (last t)) :
    Yields (fun _ => True) (EndsNew cls s)
      (constructors >>= Completion.andThen fun t => .ok (.normal (last t))) := by
  apply built.bind
  intro done grows
  unfold Completion.andThen
  split
  · rename_i thrown
    rw [Yields.ok_iff, EndsNew, if_pos thrown]
    exact grows
  · exact leaves done.state grows

mutual

theorem execute_grows (base : Nat) (statement : Statement) (s : State) :
    Yields (fun _ => True) (fun done => Grows s done.state)
      (execute isHeapPointer sizeof base statement s) := by
  match statement with
  | .event event =>
      rw [execute]
      exact (perform_grows base event s).bind fun _ => id
  | .gcNew cls res count elements unwinding place =>
      rw [execute]
      apply (executeNew_ends cls res count elements s).bind
      intro built ends
      split
      · apply (executeAll_grows base unwinding built.state).bind
        intro undone unwound
        split
        · trivial
        · exact popFrame_grows (ends.grows.trans unwound)
      · apply (settle_progress place fun _ => trivial).bind
        intro t settled
        apply (pointerConstruct_grows _ _ t).bind
        intro u constructed
        exact ends.grows.trans (settled.grows.trans constructed)
  | .attempt body handler =>
      rw [execute]
      apply (executeAll_grows base body s).bind
      intro done tried
      split
      · exact (executeAll_grows base handler done.state).mono fun _ => tried.trans
      · exact tried
  | .destroy this =>
      rw [execute]
      exact (destruct_progress this trivial trivial).bind fun _ freed => freed.grows
  | .throw =>
      rw [execute]
      exact Grows.refl s

theorem executeNew_ends (cls res count : Nat) (elements : List (List Statement)) (s : State) :
    Yields (fun _ => True) (EndsNew cls s)
      (executeNew isHeapPointer sizeof cls res count elements s) := by
  match elements with
  | [] =>
      rw [executeNew]
      split
      · exact leaveNew_grows _ (Grows.refl _)
      · trivial
  | first :: others =>
      rw [executeNew]
      split
      · split
        · apply leaveNew_ends
          · exact andThen_grows (executeAll_grows _ first _)
              fun t => executeElements_grows _ _ others t
          · exact fun t => leaveNew_grows _
        · trivial
      · split
        · apply leaveNew_ends
          · apply andThen_grows
            · exact (executeAll_grows _ first _).mono fun _ => (beginMeta_grows _ _).trans
            · intro t
              split
              · trivial
              · have stopped := stopRecording_unless others.length t
                exact (executeElements_grows _ _ others _).mono fun _ => stopped.trans
          · exact fun t built => leaveNew_grows _ (endMeta_grows cls _ _ built)
        · trivial

theorem executeElements_grows (size base : Nat) (elements : List (List Statement)) (s : State) :
    Yields (fun _ => True) (fun done => Grows s done.state)
      (executeElements isHeapPointer sizeof size base elements s) := by
  match elements with
  | [] => exact Grows.refl s
  | element :: elements =>
      rw [executeElements]
      exact andThen_grows (executeAll_grows base element s)
        fun t => executeElements_grows size (base + size) elements t

theorem executeAll_grows (base : Nat) (statements : List Statement) (s : State) :
    Yields (fun _ => True) (fun done => Grows s done.state)
      (executeAll isHeapPointer sizeof base statements s) := by
  match statements with
  | [] => exact Grows.refl s
  | statement :: statements =>
      rw [executeAll]
      exact andThen_grows (execute_grows base statement s)
        fun t => executeAll_grows base statements t

end

/-- The destructors that run on the way out leave the flags as the exception finds them. -/
theorem execute_gcNew_thrown {base cls res count : Nat} {elements : List (List Statement)}
    {unwinding : List Statement} {place : Place} {s : State} {done : Completion}
    (ended : execute isHeapPointer sizeof base (.gcNew cls res count elements unwinding place) s =
      .ok done)
    (thrown : done.thrown = true) : Grows (s.enterNew cls) done.state := by
  rw [execute] at ended
  rcases bind_eq_ok ended with ⟨built, allocated, rest⟩
  have ends := (executeNew_ends cls res count elements s).of_ok allocated
  split at rest
  · rename_i threw
    rw [EndsNew, if_pos threw] at ends
    rcases bind_eq_ok rest with ⟨undone, unwinds, result⟩
    have unwound := (executeAll_grows base unwinding built.state).of_ok unwinds
    split at result
    · cases result
    · cases result
      exact popFrame_grows (ends.trans unwound)
  · rcases bind_eq_ok rest with ⟨t, -, result⟩
    rcases bind_eq_ok result with ⟨u, -, result⟩
    cases result
    cases thrown

/-- The constructors of `gc_ptr`s leave the roots of the thread as they are. -/
def State.RegistersNone (isHeapPointer : Nat → Bool) (s : State) : Prop :=
  ∀ this, (∀ p, Yields (fun _ => True) (fun t => t.stack = s.stack)
      (s.pointerConstruct isHeapPointer this p)) ∧
    ∀ initializer, Yields (fun _ => True) (fun t => t.stack = s.stack)
      (s.construct isHeapPointer this initializer)

theorem record_unregistered {s t : State} (active : t.tlflags.newActive = true)
    (stack : t.stack = s.stack) (this : Nat) :
    Yields (fun _ => True) (fun u => u.stack = s.stack) (t.record isHeapPointer this) := by
  simp only [record, active, Bool.not_true, Bool.false_eq_true, if_false]
  repeat' split
  · exact stack
  · trivial
  · exact stack
  · exact stack

/-- In the middle of an allocation, no `gc_ptr` becomes a root. -/
theorem registersNone_of_newActive {s : State} (active : s.tlflags.newActive = true) :
    s.RegistersNone isHeapPointer := by
  have word : ∀ this value, Yields (fun _ => True) (fun u => u.stack = s.stack)
      ((s.setWord this value).record isHeapPointer this) :=
    fun this value => record_unregistered (t := s.setWord this value) active rfl this
  refine fun this => ⟨word this, fun initializer => ?_⟩
  cases initializer with
  | byDefault => exact word this 0
  | byCopy p =>
      have counted := retain_progress (s.word p) (s.setWord this (clearStackFlag (s.word p)))
      exact record_unregistered (counted.grows.newActive active) (retain_stack _ _) this
  | byMove p => exact rfl

/-- The flags are never as before when a constructor throws out of `gc_new`.  Whatever the thread
does from then on, its `gc_ptr`s are registered no more, and `gc` refuses to collect. -/
theorem gcNew_thrown_not_neutral (isHeapPointer : Nat → Bool) (sizeof : Nat → Nat)
    (base cls res count : Nat) (elements : List (List Statement)) (unwinding : List Statement)
    (place : Place) (s : State) (done : Completion)
    (ended : execute isHeapPointer sizeof base (.gcNew cls res count elements unwinding place) s =
      .ok done)
    (thrown : done.thrown = true) :
    done.state.tlflags ≠ s.tlflags ∧ ∀ base later,
      Yields (fun _ => True)
        (fun after => after.state.RegistersNone isHeapPointer ∧ after.state.isUnsafePoint = true)
        (executeAll isHeapPointer sizeof base later done.state) := by
  have leaked := execute_gcNew_thrown ended thrown
  have nested : s.tlflags.nestingLevel < done.state.tlflags.nestingLevel := leaked.nestingLevel
  refine ⟨fun same => ?_, fun base later => ?_⟩
  · rw [same] at nested
    exact nested.false
  · apply (executeAll_grows base later done.state).mono
    intro after grows
    have stillNested := nested.trans_le grows.nestingLevel
    refine ⟨registersNone_of_newActive (grows.newActive (leaked.newActive rfl)), ?_⟩
    simpa [isUnsafePoint] using Nat.ne_zero_of_lt stillNested

end

/-- The constructor of the class `1` makes the `gc_ptr` in its field, and throws. -/
def throwing : Statement :=
  .gcNew 1 1000 1 [[.event (.construct (.field 0) .byDefault), .throw]]
    [.destroy (1000 + sizeofBaseMeta)] (.automatic 64)

theorem execute_throwing :
    Yields (fun _ => False) (fun done => done.thrown = true ∧
        done.state.tlflags =
          { offsets := [0], newActive := true, noActive := false, nestingLevel := 1,
            currentPointerToObject := 1000 + sizeofBaseMeta })
      (execute (fun a => 1024 ≤ a) (fun _ => 8) 0 throwing .start) := by
  decide +kernel

theorem gcNew_thrown_not_neutral_throwing :
    ∃ done, execute (fun a => 1024 ≤ a) (fun _ => 8) 0 throwing .start = .ok done ∧
      done.state.tlflags ≠ TlVars.initial := by
  rcases execute_throwing.total with ⟨done, ended, thrown, -⟩
  exact ⟨done, ended, (gcNew_thrown_not_neutral _ _ _ _ _ _ _ _ _ _ _ ended thrown).1⟩

/-- The thread starts with its flags at rest, and goes on as if the object were still under
construction. -/
theorem gcNew_thrown_leaks : ¬ ∀ (isHeapPointer : Nat → Bool) (sizeof : Nat → Nat)
    (base cls res count : Nat) (elements : List (List Statement)) (unwinding : List Statement)
    (place : Place) (s : State) (done : Completion),
    execute isHeapPointer sizeof base (.gcNew cls res count elements unwinding place) s =
      .ok done → done.thrown = true → done.state.tlflags = s.tlflags := by
  intro neutral
  rcases execute_throwing.total with ⟨done, ended, thrown, flags⟩
  have restored := neutral _ _ _ _ _ _ _ _ _ _ _ ended thrown
  rw [flags] at restored
  exact absurd restored (by decide)

end PreciseGc.Mutator

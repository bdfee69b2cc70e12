import PreciseGc.Mutator.GcPtr

/-!
# `gc_new`

`gc_new<T>` allocates an object and runs the constructor of its elements.  The
constructor may make `gc_ptr`s in the fields of the element and on the stack and
call `gc_new` in turn.  The first allocation of a class records the offsets of
the `gc_ptr`s in its first element; the others find the record of the class.
-/

namespace PreciseGc.Mutator

open Function

/-- The place of a `gc_ptr`: a field of the element under construction, or an automatic object. -/
inductive Place where
  | field (offset : Nat)
  | automatic (address : Nat)
deriving DecidableEq, Repr

/-- The address of a place, while an element at `base` is under construction. -/
def Place.address (base : Nat) : Place → Nat
  | field offset => base + offset
  | automatic address => address

/-- The offset of a field. -/
def Place.offset : Place → Option Nat
  | field offset => some offset
  | automatic _ => none

/-- The constructor of a `gc_ptr`, with the address of the one it copies. -/
inductive Initializer where
  | byDefault
  | byCopy (p : Nat)
  | byMove (p : Nat)
deriving DecidableEq, Repr

/-- What a thread does with `gc_ptr`s.  In `gcNew`, `my_malloc` returns `res`, each element lists
what its constructor does, and `place` is where the resulting `gc_ptr` is constructed. -/
inductive Event where
  | construct (place : Place) (initializer : Initializer)
  | gcNew (cls res : Nat) (elements : List (List Event)) (place : Place)
  | assign (this a : Nat)
  | attach (this pointer base cp : Nat)
  | setNULL (this : Nat)
  | destruct (this : Nat)

/-- The offset of the field in which an event constructs a `gc_ptr`, if it does. -/
def Event.fieldOffset : Event → Option Nat
  | .construct place _ => place.offset
  | .gcNew _ _ _ place => place.offset
  | _ => none

/-- The offsets of the `gc_ptr` sub-objects of an element, in the order of their construction. -/
def fieldOffsets (events : List Event) : List Nat := events.filterMap Event.fieldOffset

/-- The positions of the `gc_ptr` sub-objects of elements of this size, the first at `position`. -/
def fieldPositions (size : Nat) (position : Nat) : List (List Event) → List Nat
  | [] => []
  | element :: elements =>
      (fieldOffsets element).map (position + ·) ++ fieldPositions size (position + size) elements

/-- The condition `i < bound` of a loop whose index is an `int` counted up from zero and whose
bound is a `size_t`, without optimisation: past `2^31 - 1` the index is negative and compares as a
huge value. -/
def intBelow (i bound : Nat) : Bool := i < bound && i < 2 ^ 31

/-- The loop of `create_meta`, from the index `i` on.  It is a template of a header, which a client
compiles with its own options: here without optimisation, where the index wraps around, while the
place `i + 2` of a word is computed in 64 bits.  The pages come zeroed from `mmap`. -/
def writeOffsets (count i : Nat) : List Nat → List Nat
  | [] => []
  | offset :: offsets =>
      (if intBelow i count then offset else 0) :: writeOffsets count (i + 1) offsets

/-- `create_meta<T>(flags)`: the words of the region that `mmap` returns. -/
def createMeta (size : Nat) (offsets : List Nat) : List Nat :=
  size :: offsets.length :: writeOffsets offsets.length 0 offsets

namespace State

/-- The automatic objects of the running function. -/
def frame (s : State) : List Nat := s.locals.headD s.automatics

def setFrame (frame : List Nat) (s : State) : State :=
  match s.locals with
  | [] => { s with automatics := frame }
  | _ :: rest => { s with locals := frame :: rest }

/-- An object comes to live at a place. -/
def settle (place : Place) (s : State) : Except Fault State :=
  match place with
  | .field _ => .ok s
  | .automatic address =>
      if address ∈ s.automatics ++ s.locals.flatten then .error .undefined
      else .ok (s.setFrame (address :: s.frame))

/-- An automatic object of the running function is gone. -/
def leave (address : Nat) (s : State) : Except Fault State :=
  if address ∈ s.frame then .ok (s.setFrame (s.frame.erase address)) else .error .undefined

/-- `gc_new` up to the constructors: the flags of the thread for an object of this class. -/
def enterNew (cls : Nat) (s : State) : State :=
  { s with
    tlflags := { s.tlflags with
      newActive := true
      noActive := (s.clMeta cls).isSome
      nestingLevel := s.tlflags.nestingLevel + 1 }
    locals := [] :: s.locals }

/-- The branch without metadata puts the offsets of the enclosing object aside. -/
def beginMeta (data : Nat) (s : State) : State :=
  s.setFlags { s.tlflags with offsets := [], currentPointerToObject := data }

/-- `new_obj_flags->no_active = true`, between the first element and the others. -/
def stopRecording (s : State) : State := s.setFlags { s.tlflags with noActive := true }

/-- The branch without metadata creates it and restores the offsets of the enclosing object. -/
def endMeta (cls size : Nat) (old : TlVars) (s : State) : State :=
  { s with
    clMeta := update s.clMeta cls (some (createMeta size s.tlflags.offsets))
    tlflags := { s.tlflags with
      offsets := old.offsets
      currentPointerToObject := old.currentPointerToObject } }

/-- The end of `gc_new`: the header of the object and the restored flags. -/
def leaveNew (old : TlVars) (object : ManagedObject) (s : State) : State :=
  { s with
    objects := object :: s.objects
    tlflags := { s.tlflags with
      newActive := old.newActive
      nestingLevel := s.tlflags.nestingLevel - 1
      noActive := old.noActive }
    locals := s.locals.tail }

/-- `gc(full)` returns 1 at once: the thread is at an unsafe point. -/
def isUnsafePoint (s : State) : Bool := s.tlflags.nestingLevel != 0

/-- The constructor of a `gc_ptr` at `this`. -/
def construct (isHeapPointer : Nat → Bool) (this : Nat) :
    Initializer → State → Except Fault State
  | .byDefault, s => s.defaultConstruct isHeapPointer this
  | .byCopy p, s => s.copyConstruct isHeapPointer this p
  | .byMove p, s => .ok (s.moveConstruct this p)

end State

section

variable (isHeapPointer : Nat → Bool) (sizeof : Nat → Nat)

mutual

/-- One event, while an element at `base` is under construction. -/
def perform (base : Nat) : Event → State → Except Fault State
  | .construct place initializer, s =>
      s.settle place >>= fun s => s.construct isHeapPointer (place.address base) initializer
  | .gcNew cls res elements place, s =>
      gcNew cls res elements s >>= fun s =>
        s.settle place >>= fun s =>
          s.pointerConstruct isHeapPointer (place.address base) (res + sizeofBaseMeta)
  | .assign this a, s => s.assign this a
  | .attach this pointer base cp, s => s.attach this pointer base cp
  | .setNULL this, s => s.setNULL this
  | .destruct this, s => s.leave this >>= fun s => s.destruct this

/-- `gc_new<T>(types, count)` without the construction of the `gc_ptr` that it returns. -/
def gcNew (cls res : Nat) : List (List Event) → State → Except Fault State
  | [], _ => .error .undefined
  | first :: others, s =>
      let data := res + sizeofBaseMeta
      let fields := fieldPositions (sizeof cls) 0 (first :: others)
      match s.clMeta cls with
      | some shell =>
          performAll data first (s.enterNew cls) >>= fun built =>
            performElements (sizeof cls) (data + sizeof cls) others built >>= fun built =>
              .ok (built.leaveNew s.tlflags
                { start := data, shell := shell, count := others.length + 1, fields := fields })
      | none =>
          performAll data first ((s.enterNew cls).beginMeta data) >>= fun built =>
            let built := if others.length = 0 then built else built.stopRecording
            performElements (sizeof cls) (data + sizeof cls) others built >>= fun built =>
              let shell := createMeta (sizeof cls) built.tlflags.offsets
              .ok ((built.endMeta cls (sizeof cls) s.tlflags).leaveNew s.tlflags
                { start := data, shell := shell, count := others.length + 1, fields := fields })

/-- The constructors of consecutive elements, from the one at `base` on. -/
def performElements (size : Nat) (base : Nat) : List (List Event) → State → Except Fault State
  | [], s => .ok s
  | element :: elements, s =>
      performAll base element s >>= performElements size (base + size) elements

/-- The events of one constructor. -/
def performAll (base : Nat) : List Event → State → Except Fault State
  | [], s => .ok s
  | event :: events, s => perform base event s >>= performAll base events

end

end

/-- The offset that an event records, if the constructors record: a moved `gc_ptr` records none. -/
def Event.recordedOffset : Event → Option Nat
  | .construct _ (.byMove _) => none
  | event => event.fieldOffset

/-- The flags after the constructors of fields at these offsets. -/
def TlVars.recorded (flags : TlVars) (offsets : List Nat) : TlVars :=
  if flags.newActive && !flags.noActive then { flags with offsets := flags.offsets ++ offsets }
  else flags

namespace TlVars

theorem recorded_of_idle (flags : TlVars) (offsets : List Nat)
    (idle : (flags.newActive && !flags.noActive) = false) :
    flags.recorded offsets = flags := by
  simp [recorded, idle]

theorem recorded_of_active (flags : TlVars) (offsets : List Nat)
    (active : (flags.newActive && !flags.noActive) = true) :
    flags.recorded offsets = { flags with offsets := flags.offsets ++ offsets } := by
  simp [recorded, active]

@[simp]
theorem recorded_nil (flags : TlVars) : flags.recorded [] = flags := by
  simp [recorded]

@[simp]
theorem newActive_recorded (flags : TlVars) (offsets : List Nat) :
    (flags.recorded offsets).newActive = flags.newActive := by
  unfold recorded
  split <;> rfl

@[simp]
theorem noActive_recorded (flags : TlVars) (offsets : List Nat) :
    (flags.recorded offsets).noActive = flags.noActive := by
  unfold recorded
  split <;> rfl

@[simp]
theorem nestingLevel_recorded (flags : TlVars) (offsets : List Nat) :
    (flags.recorded offsets).nestingLevel = flags.nestingLevel := by
  unfold recorded
  split <;> rfl

@[simp]
theorem currentPointerToObject_recorded (flags : TlVars) (offsets : List Nat) :
    (flags.recorded offsets).currentPointerToObject = flags.currentPointerToObject := by
  unfold recorded
  split <;> rfl

@[simp]
theorem recorded_recorded (flags : TlVars) (first second : List Nat) :
    (flags.recorded first).recorded second = flags.recorded (first ++ second) := by
  cases active : flags.newActive && !flags.noActive with
  | true => simp [recorded, active]
  | false => simp [recorded, active]

end TlVars

/-- The state after constructors of fields at these offsets: the functions that run are the same,
and so are the automatic objects of all but the innermost one. -/
structure Progress (s : State) (offsets : List Nat) (s' : State) : Prop where
  flags : s'.tlflags = s.tlflags.recorded offsets
  depth : s'.locals.length = s.locals.length
  outer : s'.locals.tail = s.locals.tail
  automatics : s.locals ≠ [] → s'.automatics = s.automatics

namespace Progress

variable {s t u : State} {first second : List Nat}

theorem refl (s : State) : Progress s [] s :=
  ⟨(TlVars.recorded_nil _).symm, rfl, rfl, fun _ => rfl⟩

theorem of_eq (flags : t.tlflags = s.tlflags) (locals : t.locals = s.locals)
    (automatics : t.automatics = s.automatics) : Progress s [] t :=
  ⟨by rw [flags, TlVars.recorded_nil], by rw [locals], by rw [locals], fun _ => automatics⟩

theorem trans (earlier : Progress s first t) (later : Progress t second u) :
    Progress s (first ++ second) u := by
  refine ⟨?_, later.depth.trans earlier.depth, later.outer.trans earlier.outer, fun inside => ?_⟩
  · rw [later.flags, earlier.flags, TlVars.recorded_recorded]
  · have insideStill : t.locals ≠ [] := by
      apply List.ne_nil_of_length_pos
      rw [earlier.depth]
      exact List.length_pos_of_ne_nil inside
    exact (later.automatics insideStill).trans (earlier.automatics inside)

end Progress

namespace State

variable {isHeapPointer : Nat → Bool} {allowed : Fault → Prop} {s : State}

theorem setFrame_progress (frame : List Nat) (s : State) : Progress s [] (s.setFrame frame) := by
  unfold setFrame
  split
  · rename_i top
    exact ⟨(TlVars.recorded_nil _).symm, rfl, rfl, fun inside => absurd top inside⟩
  · rename_i top
    refine ⟨(TlVars.recorded_nil _).symm, ?_, ?_, fun _ => rfl⟩ <;> simp [top]

theorem settle_progress (place : Place)
    (isUndefined : place.offset = none → allowed .undefined) :
    Foundation.Yields allowed (Progress s []) (s.settle place) := by
  cases place with
  | field offset => exact Progress.refl s
  | automatic address =>
      simp only [settle]
      split
      · exact isUndefined rfl
      · exact setFrame_progress _ s

theorem leave_progress (address : Nat) (isUndefined : allowed .undefined) :
    Foundation.Yields allowed (Progress s []) (s.leave address) := by
  simp only [leave]
  split
  · exact setFrame_progress _ s
  · exact isUndefined

theorem retain_progress (pointer : Nat) (s : State) : Progress s [] (s.retain pointer) := by
  unfold retain
  split
  · exact Progress.of_eq rfl rfl rfl
  · exact Progress.refl s

theorem release_progress (pointer : Nat) (isNoReference : allowed .noReference) :
    Foundation.Yields allowed (Progress s []) (s.release pointer) := by
  simp only [release]
  split
  · split
    · exact isNoReference
    · exact Progress.of_eq rfl rfl rfl
  · exact Progress.refl s

/-- Where the current object is the element at `base`, while the constructors record. -/
def Building (base : Nat) (flags : TlVars) : Prop :=
  flags.newActive = true → flags.noActive = false →
    base ≠ 0 ∧ flags.currentPointerToObject = base

theorem Building.congr {base : Nat} {offsets : List Nat} {t : State}
    (building : Building base s.tlflags) (progress : Progress s offsets t) :
    Building base t.tlflags := by
  rw [progress.flags]
  simpa [Building] using building

end State

/-- The automatic objects are outside of the heap, and the fields of objects inside. -/
def Place.Placed (isHeapPointer : Nat → Bool) (base : Nat) : Place → Prop
  | field offset => isHeapPointer (base + offset) = true
  | automatic address => isHeapPointer address = false

/-- The constructors record the offset of a field relative to the current object. -/
theorem State.record_progress {isHeapPointer : Nat → Bool} {allowed : Fault → Prop} {s : State}
    {base : Nat} {place : Place} (placed : place.Placed isHeapPointer base)
    (building : Building base s.tlflags) :
    Foundation.Yields allowed (Progress s place.offset.toList)
      (s.record isHeapPointer (place.address base)) := by
  unfold record
  cases new : s.tlflags.newActive with
  | false =>
      have idle := TlVars.recorded_of_idle s.tlflags place.offset.toList (by simp [new])
      exact ⟨idle.symm, rfl, rfl, fun _ => rfl⟩
  | true =>
      cases place with
      | automatic address =>
          have notHeap : isHeapPointer address = false := placed
          simp only [Place.address, notHeap]
          exact Progress.refl s
      | field offset =>
          have heap : isHeapPointer (base + offset) = true := placed
          simp only [Place.address, heap]
          cases no : s.tlflags.noActive with
          | true =>
              have idle := TlVars.recorded_of_idle s.tlflags [offset] (by simp [no])
              exact ⟨idle.symm, rfl, rfl, fun _ => rfl⟩
          | false =>
              rcases building new no with ⟨positive, current⟩
              have active := TlVars.recorded_of_active s.tlflags [offset] (by simp [new, no])
              have notNull : ¬ s.tlflags.currentPointerToObject = 0 := current ▸ positive
              have relative : base + offset - s.tlflags.currentPointerToObject = offset := by
                omega
              simp only [Bool.not_true, Bool.false_eq_true, if_false, if_true, if_neg notNull,
                relative]
              refine ⟨?_, rfl, rfl, fun _ => rfl⟩
              rw [← no]
              exact active.symm

end PreciseGc.Mutator

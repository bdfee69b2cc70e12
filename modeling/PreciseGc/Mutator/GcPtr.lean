import Mathlib.Logic.Function.Basic
import Mathlib.Tactic.Simps.Basic
import PreciseGc.Heap.Pointers
import PreciseGc.Mutator.StackMap

/-!
# `gc_ptr` objects

A `gc_ptr` is one word.  Where its constructor ran decides how the collector
finds it: outside of `gc_new` it is registered in the `StackMap` of the thread,
inside of an object that `gc_new` builds its offset is recorded for the class.
The thread-local `tlvars` tell the constructors which case they are in.
-/

namespace PreciseGc.Mutator

open Foundation Function

def setStackFlag (x : Nat) : Nat := x ||| stackBit
def setCompositeFlag (x : Nat) : Nat := x ||| compositeBit
def setBothFlags (x : Nat) : Nat := x ||| bothBits

/-- The `tlvars` of a thread. -/
structure TlVars where
  offsets : List Nat
  newActive : Bool
  noActive : Bool
  nestingLevel : Nat
  currentPointerToObject : Nat
deriving DecidableEq, Repr

/-- The `tlvars` of a thread that starts. -/
def TlVars.initial : TlVars :=
  { offsets := [], newActive := false, noActive := false, nestingLevel := 0,
    currentPointerToObject := 0 }

structure CompositePointer where
  pointer : Nat
  base : Nat
  refCount : Nat
deriving DecidableEq, Repr

/-- An object that `gc_new` has built: where its first element starts, the `shell` and `count` in
its header, and where its elements hold `gc_ptr`s, relative to its start. -/
structure ManagedObject where
  start : Nat
  shell : List Nat
  count : Nat
  fields : List Nat
deriving DecidableEq, Repr

/-- A thread that works with `gc_ptr`s.  `automatics` are the automatic `gc_ptr`s outside of
constructors that `gc_new` runs, and `locals` those of each such constructor, innermost first. -/
structure State where
  /-- The field `ptr` of the `gc_ptr` at an address. -/
  word : Nat → Nat
  composite : Nat → CompositePointer
  tlflags : TlVars
  stack : StackMap
  /-- `get_meta_holder<T>()->clMeta`, for each class. -/
  clMeta : Nat → Option (List Nat)
  objects : List ManagedObject
  automatics : List Nat
  locals : List (List Nat)

inductive Fault where
  /-- `assert(new_obj_flags->current_pointer_to_object != 0)`. -/
  | noCurrentObject
  /-- `assert(cp->ref_count > 0)`. -/
  | noReference
  /-- `delete_stack_root` on an empty list. -/
  | emptyStackMap
  /-- The program breaks a rule of the language: it constructs a `gc_ptr` where one lives, destroys
  one that is no automatic object of the running function, or asks for no element. -/
  | undefined
deriving DecidableEq, Repr

namespace State

@[simps]
def setWord (a value : Nat) (s : State) : State := { s with word := update s.word a value }

@[simps]
def setFlags (tlflags : TlVars) (s : State) : State := { s with tlflags := tlflags }

@[simps]
def setComposite (cp : Nat) (record : CompositePointer) (s : State) : State :=
  { s with composite := update s.composite cp record }

@[simps]
def setStack (stack : StackMap) (s : State) : State := { s with stack := stack }

/-- `ref_count++`. -/
def retain (pointer : Nat) (s : State) : State :=
  if isCompositePointer pointer then
    let cp := clearBothFlags pointer
    s.setComposite cp { s.composite cp with refCount := (s.composite cp).refCount + 1 }
  else s

@[simp]
theorem retain_stack (pointer : Nat) (s : State) : (s.retain pointer).stack = s.stack := by
  unfold retain
  split <;> rfl

/-- What the destructor, the assignment, `attach` and `setNULL` do with a composite pointer.  The
assertion keeps `ref_count--` from being zero, so the record is never given to `free`. -/
def release (pointer : Nat) (s : State) : Except Fault State :=
  if isCompositePointer pointer then
    let cp := clearBothFlags pointer
    if (s.composite cp).refCount = 0 then .error .noReference
    else .ok (s.setComposite cp { s.composite cp with refCount := (s.composite cp).refCount - 1 })
  else .ok s

/-- The end of the constructors: the flags of the thread decide how the collector is to find the
`gc_ptr` at `this`. -/
def record (isHeapPointer : Nat → Bool) (this : Nat) (s : State) : Except Fault State :=
  if !s.tlflags.newActive then
    .ok ((s.setStack (s.stack.registerStackRoot this)).setWord this (setStackFlag (s.word this)))
  else if isHeapPointer this then
    if s.tlflags.noActive then .ok s
    else if s.tlflags.currentPointerToObject = 0 then .error .noCurrentObject
    else
      .ok (s.setFlags { s.tlflags with
        offsets := s.tlflags.offsets ++ [this - s.tlflags.currentPointerToObject] })
  else .ok s

/-- `gc_ptr(T * p)`. -/
def pointerConstruct (isHeapPointer : Nat → Bool) (this p : Nat) (s : State) :
    Except Fault State :=
  (s.setWord this p).record isHeapPointer this

/-- `gc_ptr()`. -/
def defaultConstruct (isHeapPointer : Nat → Bool) (this : Nat) (s : State) : Except Fault State :=
  (s.setWord this 0).record isHeapPointer this

/-- `gc_ptr(const gc_ptr & p)`. -/
def copyConstruct (isHeapPointer : Nat → Bool) (this p : Nat) (s : State) : Except Fault State :=
  ((s.setWord this (clearStackFlag (s.word p))).retain (s.word p)).record isHeapPointer this

/-- `gc_ptr(gc_ptr && p)`. -/
def moveConstruct (this p : Nat) (s : State) : State :=
  s.setWord this (clearStackFlag (s.word p))

/-- `~gc_ptr()`. -/
def destruct (this : Nat) (s : State) : Except Fault State :=
  if isStackPointer (s.word this) then
    match s.stack.deleteStackRoot this with
    | none => .error .emptyStackMap
    | some stack => (s.setStack stack).release (s.word this)
  else s.release (s.word this)

/-- `operator=(const gc_ptr & a)`. -/
def assign (this a : Nat) (s : State) : Except Fault State :=
  s.release (s.word this) >>= fun s =>
    let value :=
      if isStackPointer (s.word this) then setStackFlag (s.word a) else clearStackFlag (s.word a)
    .ok ((s.setWord this value).retain ((s.setWord this value).word a))

/-- `get_ptr(pointer)` of a `gc_ptr`, the conversion to a pointer. -/
def getPtr (pointer : Nat) (s : State) : Nat :=
  if isCompositePointer pointer then (s.composite (clearBothFlags pointer)).pointer
  else clearStackFlag pointer

/-- `attach(pointer, base)`, where `base` is the address of the parameter and `my_malloc` returns
`cp`.  A collection in `my_malloc` or in the safepoint is a step of its own. -/
def attach (this pointer base cp : Nat) (s : State) : Except Fault State :=
  s.release (s.word this) >>= fun s =>
    let s := s.setComposite cp
      { base := s.getPtr (s.word base), pointer := pointer, refCount := 1 }
    .ok (s.setWord this
      (if isStackPointer (s.word this) then setBothFlags cp else setCompositeFlag cp))

/-- `setNULL()`. -/
def setNULL (this : Nat) (s : State) : Except Fault State :=
  s.release (s.word this) >>= fun s => .ok (s.setWord this 0)

end State

end PreciseGc.Mutator

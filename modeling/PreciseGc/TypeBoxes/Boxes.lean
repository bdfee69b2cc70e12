import PreciseGc.Foundation.ByteMemory
import PreciseGc.Foundation.Outcome
import PreciseGc.Heap.Layout

/-!
# Type boxes

A type box describes where the pointers of a structure are: a `BLOCK_TAG`, the
number of descriptors, and a `POINTER_DESCR` for each pointer.  It is built by
`generic_box_struct` and read with `get_iterator` and `next_ptr`.

The functions below work on bytes, because the two sides do not compute the
same addresses.  A local that a function leaves uninitialised is a parameter.
-/

namespace PreciseGc.TypeBoxes

open Foundation

def tagModel1 : Nat := 1
def tagModel2 : Nat := 2
def tagModel3 : Nat := 3
def tagModel4 : Nat := 4

def sizeofSizeT : Nat := 8
def sizeofBlockTag : Nat := 32
def sizeofPointerDescr : Nat := 16

structure BlockTag where
  model : Nat
  size : Nat
  numOfEl : Nat
  ptr : Nat

structure PointerDescr where
  offset : Nat
  boxed : Nat

structure PtrIterator where
  object : Nat
  current : Nat
deriving DecidableEq, Repr

/-- `*(BLOCK_TAG *)object = tag`, which leaves the padding behind `model` alone. -/
def setTag (object : Nat) (tag : BlockTag) (m : ByteMemory) : ByteMemory :=
  (((m.store object 4 tag.model).store (object + 8) 8 tag.size).store (object + 16) 8
    tag.numOfEl).store (object + 24) 8 tag.ptr

def tagModel (m : ByteMemory) (object : Nat) : Nat := m.read object 4

def tagSize (m : ByteMemory) (object : Nat) : Nat := m.read (object + 8) 8

/-- How a function on boxes can stop short of returning. -/
inductive Fault where
  /-- `mmap` fails, and with it the assertion on its result. -/
  | mapFailed
  /-- `throw;` outside of a handler calls `std::terminate`. -/
  | terminated
  /-- A member of an object at the null pointer is read. -/
  | nullPointer
  /-- The fuel of a loop of the model ran out. -/
  | outOfFuel
deriving DecidableEq, Repr

/-- `assert (result != MAP_FAILED)`. -/
def assertMapped (result : Option Nat) : Except Fault Nat := result.elim (.error .mapFailed) .ok

/-- `create_generic_object(descr_length, size, num_of_el)`, where `mmap` answers for a length and
`m` is the memory with the new mapping. -/
def createGenericObject (mmap : Nat → Option Nat) (descrLength size numOfEl : Nat)
    (m : ByteMemory) : Except Fault (Nat × ByteMemory) :=
  if descrLength = 0 then
    assertMapped (mmap (sizeofBlockTag + 1)) >>= fun result =>
      .ok (result, setTag result ⟨tagModel2, size, numOfEl, 0⟩ m)
  else
    assertMapped (mmap ((sizeofBlockTag + sizeofSizeT + descrLength * sizeofPointerDescr) %
        wordSpace)) >>= fun result =>
      .ok (result, (setTag result ⟨tagModel1, size, numOfEl, 0⟩ m).store
        (result + sizeofBlockTag) sizeofSizeT descrLength)

/-- Where `set_ptr_descr` stores a descriptor; its parameter `iter_p` is an `unsigned char`. -/
def descrAddress (object iterP : Nat) : Nat :=
  object + sizeofBlockTag + sizeofSizeT + sizeofPointerDescr * (iterP % 256)

/-- `set_ptr_descr(object, iter_p, descr)`. -/
def setPtrDescr (object iterP : Nat) (descr : PointerDescr) (m : ByteMemory) : ByteMemory :=
  (m.store (descrAddress object iterP) 8 descr.offset).store (descrAddress object iterP + 8) 4
    descr.boxed

/-- The loop of `generic_box_struct`, from the offset with index `iterP` on. -/
def setPtrDescrs (object : Nat) : (iterP : Nat) → (offsets : List Nat) → ByteMemory → ByteMemory
  | _, [], m => m
  | iterP, offset :: offsets, m =>
      setPtrDescrs object (iterP + 1) offsets (setPtrDescr object iterP ⟨offset, 0⟩ m)

/-- `generic_box_struct(offsets_ptr, size, num_el)`. -/
def genericBoxStruct (mmap : Nat → Option Nat) (offsetsPtr : List Nat) (size numEl : Nat)
    (m : ByteMemory) : Except Fault (Nat × ByteMemory) :=
  createGenericObject mmap offsetsPtr.length size numEl m >>= fun created =>
    .ok (created.1, setPtrDescrs created.1 0 offsetsPtr created.2)

/-- Where `get_iterator` and `next_ptr` take descriptor `i` from. -/
def readAddress (object i : Nat) : Nat := object + sizeofBlockTag + 1 + i * sizeofPointerDescr

/-- `get_iterator(object)`; `resPtr` is the uninitialised local. -/
def getIterator (resPtr : PtrIterator) (m : ByteMemory) (object : Nat) : Except Fault PtrIterator :=
  if object = 0 then .error .nullPointer
  else
    let model := tagModel m object
    if model = tagModel1 then .ok ⟨object, m.read (readAddress object 0) 8⟩
    -- there is no `break` behind `TAG_MODEL_2`
    else if model = tagModel2 ∨ model = tagModel3 then .ok ⟨object, 0⟩
    else if model = tagModel4 then .ok { resPtr with object := 0 }
    else .ok resPtr

/-- The value of a `char`, converted to `size_t`. -/
def charToSize (byte : UInt8) : Nat :=
  if byte.toNat < 128 then byte.toNat else wordSpace - (256 - byte.toNat)

/-- `get_ptr(object, index)`. -/
def getPtr (m : ByteMemory) (object index : Nat) : Except Fault Nat :=
  if object = 0 then .error .nullPointer
  else
    let model := tagModel m object
    if model = tagModel1 then
      let descrLength := charToSize (m (object + sizeofBlockTag))
      .ok (ptrAdd object (index * 8 + sizeofBlockTag + 1 + descrLength * sizeofPointerDescr))
    else if model = tagModel2 ∨ model = tagModel3 ∨ model = tagModel4 then
      .ok (ptrAdd object (index * 8 + sizeofBlockTag))
    else .error .terminated

/-- The loop of `next_ptr` that looks for the descriptor of `current`; `i` is an `unsigned int`. -/
def findDescr (m : ByteMemory) (object current : Nat) : (fuel i : Nat) → Except Fault Nat
  | 0, _ => .error .outOfFuel
  | fuel + 1, i =>
      if i < tagSize m object ∧ current ≠ m.read (readAddress object i) 8 then
        findDescr m object current fuel ((i + 1) % 2 ^ 32)
      else .ok i

/-- `next_ptr(iterator)`; `resPtr` is the uninitialised local. -/
def nextPtr (resPtr : Nat) (fuel : Nat) (m : ByteMemory) (iterator : PtrIterator) :
    Except Fault (Nat × PtrIterator) :=
  if iterator.object = 0 then .error .nullPointer
  else
    let model := tagModel m iterator.object
    if model = tagModel1 then
      getPtr m iterator.object iterator.current >>= fun result =>
        findDescr m iterator.object iterator.current fuel 0 >>= fun i =>
          -- the object is set to null, and its descriptor is read all the same
          if i = tagSize m iterator.object then .error .nullPointer
          else .ok (result, { iterator with current := m.read (readAddress iterator.object i) 8 })
    else if model = tagModel2 then
      getPtr m 0 iterator.current >>= fun result =>
        .ok (result, ⟨0, (iterator.current + 1) % wordSpace⟩)
    else if model = tagModel3 then
      getPtr m iterator.object iterator.current >>= fun result =>
        .ok (result, { iterator with current := (iterator.current + 1) % wordSpace })
    else if model = tagModel4 then .ok (resPtr, { iterator with object := 0 })
    else .error .terminated

/-- The offsets that an iteration visits:
`while (it.object != NULL) { it.current; next_ptr(&it); }`, with an uninitialised local in each
call of `next_ptr`. -/
def visitOffsets (resPtr : Nat → Nat) (m : ByteMemory) :
    (fuel : Nat) → PtrIterator → Except Fault (List Nat)
  | 0, _ => .error .outOfFuel
  | fuel + 1, iterator =>
      if iterator.object = 0 then .ok []
      else
        nextPtr (resPtr fuel) fuel m iterator >>= fun next =>
          visitOffsets resPtr m fuel next.2 >>= fun rest => .ok (iterator.current :: rest)

end PreciseGc.TypeBoxes

import PreciseGc.Heap.Layout

/-!
# Pointer words

A `gc_ptr` is one word: the address of an object, or of a `Composite_pointer`
record, with the stack flag in bit 0 and the composite flag in bit 1.  An
object is preceded by its `base_meta`, which is the first 24 bytes of the data
of its block.
-/

namespace PreciseGc

open Foundation

def stackBit : Nat := 1
def compositeBit : Nat := 2
def bothBits : Nat := 3

def isStackPointer (x : Nat) : Bool := hasFlag x stackBit
def isCompositePointer (x : Nat) : Bool := hasFlag x compositeBit
def clearStackFlag (x : Nat) : Nat := clear x stackBit
def clearBothFlags (x : Nat) : Nat := clear x bothBits
def getBothFlags (x : Nat) : Nat := x &&& bothBits
def restoreFlags (x flags : Nat) : Nat := x ||| flags

/-- `get_meta_inf(v)`: the `base_meta` in front of an object. -/
def getMetaInf (v : Nat) : Nat := v - sizeofBaseMeta

/-- `to_get_meta_inf(v)`: the object behind a `base_meta`. -/
def toGetMetaInf (v : Nat) : Nat := v + sizeofBaseMeta

/-- `meta->shell`. -/
def metaShell (m : Memory) (metaAddr : Nat) : Nat := m (metaAddr + 8)

/-- `meta->count`. -/
def metaCount (m : Memory) (metaAddr : Nat) : Nat := m (metaAddr + 16)

/-- `shell[0]`, the size of one element. -/
def shellSize (m : Memory) (shell : Nat) : Nat := m shell

/-- `shell[1]`, the number of pointer slots of one element. -/
def shellCount (m : Memory) (shell : Nat) : Nat := m (shell + 8)

/-- `shell[2 + j]`, the offset of the `j`-th pointer slot.  The index `j` is an `int` that counts up
below a `size_t`.  The sources of the library are compiled with optimisation, where such an index
takes every value below its bound: the models of its loops count in `Nat`. -/
def shellOffset (m : Memory) (shell : Nat) (j : Nat) : Nat := m (shell + 8 * (2 + j))

/-- `cp->base` of a `Composite_pointer`, whose fields are `pointer`, `base` and `ref_count`. -/
def compositeBase (m : Memory) (cp : Nat) : Nat := m (cp + 8)

/-- `mark(ptr)`: set the mark flag of the block whose data starts at `ptr`. -/
def mark (ptr : Nat) (m : Memory) : Memory := m.write (getBlock ptr) (markBlock (m (getBlock ptr)))

/-- `pin(ptr)`. -/
def pin (ptr : Nat) (m : Memory) : Memory := m.write (getBlock ptr) (pinBlock (m (getBlock ptr)))

/-- `get_mark(ptr)`. -/
def getMark (ptr : Nat) (m : Memory) : Bool := blockIsMarked (m (getBlock ptr))

/-- `get_ptr(ptr)` of the collector: the object a pointer word designates.  For a composite
pointer the record is marked on the way. -/
def getPtr (ptr : Nat) (m : Memory) : Nat × Memory :=
  if isCompositePointer ptr then
    let m := mark (clearBothFlags ptr) m
    (compositeBase m (clearBothFlags ptr), m)
  else (clearStackFlag ptr, m)

/-- `get_next_obj(v)`: the object designated by the pointer word stored at `v`. -/
def getNextObj (v : Nat) (m : Memory) : Nat × Memory :=
  if clearBothFlags (m v) = 0 then (0, m) else getPtr (m v) m

/-- `move_ptr(ptr, value)`: redirect a pointer word to `value`. -/
def movePtr (ptr value : Nat) (m : Memory) : Nat × Memory :=
  if isCompositePointer ptr then (ptr, m.write (clearBothFlags ptr + 8) value)
  else (restoreFlags value (getBothFlags ptr), m)

/-- `fix_ptr(p)`: redirect the pointer word at `p` if the block of its object was moved. -/
def fixPtr (p : Nat) (m : Memory) : Memory :=
  if p = 0 then m
  else
    let (next, m) := getNextObj p m
    if next = 0 then m
    else
      let movedBlock := getBlock (getMetaInf next)
      if blockIsMarked (m movedBlock) then
        let movedMeta := forwardPointer m movedBlock
        let (word, m) := movePtr (m p) (toGetMetaInf movedMeta) m
        m.write p word
      else m

end PreciseGc

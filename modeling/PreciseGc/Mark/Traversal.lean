import PreciseGc.Heap.Pages
import PreciseGc.Heap.Pointers

/-!
# The traversal of the mark phase

`go` marks every object it reaches from one pointer.  It keeps the objects
still to be scanned on a stack of fixed size; a pointer that does not fit is
dropped and reported as an overflow.
-/

namespace PreciseGc

open Foundation

/-- The loop of `is_heap_pointer` over the list of big blocks. -/
def findBigBlock (m : Memory) (ptr : Nat) : (fuel : Nat) → (bb : Nat) → Except Fault Bool
  | 0, _ => .error .outOfFuel
  | fuel + 1, bb =>
      if bb = 0 then .ok false
      else if bb ≤ ptr && ptr < bigData bb + blockSize (m (bigHeader bb)) then .ok true
      else findBigBlock m ptr fuel (bigNext m bb)

/-- `is_heap_pointer(ptr)`. -/
def isHeapPointer (fuel : Nat) (ptr : Nat) (h : Heap) : Except Fault Bool :=
  if h.parts.any fun part => part.start ≤ ptr && ptr ≤ part.stop then .ok true
  else findBigBlock h.mem ptr fuel h.firstBigBlock

def maxStackSize : Nat := 10000

/-- The heap, the array `stack` up to `stack_size` with its top first, and the local
`stack_overflow` of `go`. -/
structure Traversal where
  heap : Heap
  stack : List Nat
  overflow : Bool

/-- `if (push(p)) stack_overflow = true;`. -/
def push (p : Nat) (t : Traversal) : Traversal :=
  if maxStackSize ≤ t.stack.length then { t with overflow := true }
  else { t with stack := p :: t.stack }

def Traversal.withMem (t : Traversal) (m : Memory) : Traversal :=
  { t with heap := { t.heap with mem := m } }

/-- The body of the inner loop: the slot `p` of an object. -/
def goSlot (slot : Nat) (t : Traversal) : Traversal :=
  let (p, m) := getNextObj slot t.heap.mem
  let t := t.withMem m
  if p ≠ 0 && !getMark (getMetaInf p) t.heap.mem then push p t else t

/-- The loop over the pointer slots of one element; `count` iterations are left. -/
def goSlots (metaAddr v : Nat) : (count j : Nat) → Traversal → Traversal
  | 0, _, t => t
  | count + 1, j, t =>
      goSlots metaAddr v count (j + 1)
        (goSlot (ptrAdd v (shellOffset t.heap.mem (metaShell t.heap.mem metaAddr) j)) t)

/-- The loop over the elements of one object; `bm->count` is read again in every iteration. -/
def goElements (metaAddr size count : Nat) :
    (fuel i : Nat) → (v : Nat) → Traversal → Except Fault Traversal
  | 0, _, _, _ => .error .outOfFuel
  | fuel + 1, i, v, t =>
      if i < metaCount t.heap.mem metaAddr then
        goElements metaAddr size count fuel (i + 1) (ptrAdd v size)
          (goSlots metaAddr v count 0 t)
      else .ok t

/-- The body of the loop of `go` for the popped pointer `v`. -/
def goObject (fuel : Nat) (v : Nat) (t : Traversal) : Except Fault Traversal :=
  if v = 0 then .ok t
  else
    isHeapPointer fuel v t.heap >>= fun inHeap =>
      if !inHeap then .ok t
      else
        let bm := getMetaInf v
        let t := if !getMark bm t.heap.mem then t.withMem (mark bm t.heap.mem) else t
        let size := shellSize t.heap.mem (metaShell t.heap.mem bm)
        let count := shellCount t.heap.mem (metaShell t.heap.mem bm)
        if count = 0 then .ok t else goElements bm size count fuel 0 v t

/-- `while (stack_size != 0) { v = pop(); ... }`. -/
def goLoop (fuel : Nat) (t : Traversal) : Except Fault Traversal :=
  walk (fun (_ : Unit) (t : Traversal) => t.stack.isEmpty)
    (fun _ t =>
      goObject fuel (t.stack.headD 0) { t with stack := t.stack.tail } >>= fun t => .ok ((), t))
    Fault.outOfFuel fuel () t

/-- `go(pointer, pin_root)`: whether the mark stack overflowed, and the heap. -/
def go (fuel : Nat) (pointer : Nat) (pinRoot : Bool) (h : Heap) : Except Fault (Bool × Heap) :=
  if pointer = 0 then .ok (false, h)
  else
    isHeapPointer fuel pointer h >>= fun inHeap =>
      if !inHeap then .ok (false, h)
      else
        let m := if pinRoot then pin (getMetaInf pointer) h.mem else h.mem
        goLoop fuel ⟨{ h with mem := m }, [pointer], false⟩ >>= fun t => .ok (t.overflow, t.heap)

end PreciseGc

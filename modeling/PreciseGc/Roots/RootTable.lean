import PreciseGc.Foundation.HashChains
import PreciseGc.Roots.DerefRoots

/-!
# The records of the table in memory

The records of the table lie in mappings of their own.  One field links them,
either into the chain of a hash or into `free_list`.  The functions below
follow and change these links as `deref_roots.cpp` does.
-/

namespace PreciseGc

open Foundation

/-- `h->p` of the `root_handler` at `h`. -/
def handlerP (m : Memory) (h : Nat) : Nat := m h

/-- `h->end`. -/
def handlerEnd (m : Memory) (h : Nat) : Nat := m (h + 8)

/-- `h->next`. -/
def handlerNext (m : Memory) (h : Nat) : Nat := m (h + 16)

def setHandlerP (m : Memory) (h p : Nat) : Memory := m.write h p

def setHandlerEnd (m : Memory) (h stop : Nat) : Memory := m.write (h + 8) stop

def setHandlerNext (m : Memory) (h next : Nat) : Memory := m.write (h + 16) next

/-- `deref_mark(h)`. -/
def derefMark (m : Memory) (h : Nat) : Memory := setHandlerP m h (handlerP m h ||| 1)

/-- `deref_unmark(h)`. -/
def derefUnmark (m : Memory) (h : Nat) : Memory := setHandlerP m h (clear (handlerP m h) 1)

/-- `deref_is_marked(h)`. -/
def derefIsMarked (m : Memory) (h : Nat) : Bool := hasFlag (handlerP m h) 1

/-- `plain_pointer(h)`. -/
def derefPlainPointer (m : Memory) (h : Nat) : Nat := clear (handlerP m h) 1

/-- `contains(h, p)`. -/
def derefContains (m : Memory) (h p : Nat) : Bool :=
  derefPlainPointer m h ≤ p && p ≤ handlerEnd m h

/-- The statics of `deref_roots.cpp` and the memory of the records.  The history variable `spaces`
lists the mappings that records were taken from. -/
structure RootTable where
  mem : Memory
  spaces : List Nat := []
  roots : Nat → Nat := fun _ => 0
  freeList : Nat := 0
  count : Nat := 0
  totalCount : Nat := 0
  expandCount : Nat := 0
  expandFactor : Nat := 8

namespace RootTable

/-- The loop of `register_dereferenced_root` over a fresh mapping; `n` records are left, and `curr`
is the next one. -/
def linkRecords : (n : Nat) → (curr : Nat) → RootTable → RootTable
  | 0, _, c => c
  | n + 1, curr, c =>
      linkRecords n (curr + sizeofRootHandler)
        { c with mem := setHandlerNext c.mem curr c.freeList, freeList := curr }

/-- The refill of `free_list`, where `space` is the answer of `mmap`. -/
def refill (space : Option Nat) (c : RootTable) : Except Fault RootTable :=
  if c.freeList != 0 then .ok c
  else
    match space with
    | none => .error .mapFailed
    | some space =>
        let c := linkRecords mmapCount space { c with spaces := space :: c.spaces }
        .ok { c with totalCount := c.totalCount + mmapCount }

/-- Entering a range with the first record of `free_list`, and `need_gc`. -/
def enter (root size : Nat) (c : RootTable) : Bool × RootTable :=
  let hash := hashOfRoot root
  let data := c.freeList
  let c := { c with freeList := handlerNext c.mem data }
  let c := { c with mem := setHandlerNext c.mem data (c.roots hash) }
  let c := { c with mem := setHandlerP c.mem data root }
  let c := { c with mem := setHandlerEnd c.mem data (ptrAdd root size) }
  let c := { c with roots := Function.update c.roots hash data }
  let c := { c with count := c.count + 1 }
  if c.count = c.totalCount then
    let c := { c with expandCount := c.expandCount + 1 }
    (c.expandCount % c.expandFactor == 0, c)
  else (false, c)

/-- The part of `register_dereferenced_root(root, size)` under `deref_mutex`. -/
def register (space : Option Nat) (root size : Nat) (c : RootTable) :
    Except Fault (Bool × RootTable) :=
  if root = 0 then .ok (false, c)
  else c.refill space >>= fun c => .ok (c.enter root size)

/-- What `register_dereferenced_root` does after its call `gc(false)`. -/
def expanded (c : RootTable) : RootTable :=
  { c with
    expandCount := 0
    expandFactor := if c.expandFactor != 1 then c.expandFactor / 2 else c.expandFactor }

/-- The search of `mark_dereferenced_root(root, full_gc)` from the record `curr` on, and the pointer
that it passes to `go`. -/
def markChain (root : Nat) (fullGc : Bool) :
    (fuel : Nat) → (curr : Nat) → RootTable → Except Fault (Option Nat × RootTable)
  | 0, _, _ => .error .outOfFuel
  | fuel + 1, curr, c =>
      if curr = 0 then .ok (none, c)
      else if derefContains c.mem curr root then
        if !derefIsMarked c.mem curr then
          let c := { c with mem := derefMark c.mem curr }
          .ok (if fullGc then some (derefPlainPointer c.mem curr) else none, c)
        else .ok (none, c)
      else markChain root fullGc fuel (handlerNext c.mem curr) c

/-- `mark_dereferenced_root(root, full_gc)`. -/
def mark (fuel : Nat) (root : Nat) (fullGc : Bool) (c : RootTable) :
    Except Fault (Option Nat × RootTable) :=
  if root = 0 || root % 2 != 0 then .ok (none, c)
  else c.markChain root fullGc fuel (c.roots (hashOfRoot root))

/-- The removal of the record `curr` from the chain `i`, where `prev` is the record before it. -/
def unlink (i curr prev : Nat) (c : RootTable) : RootTable :=
  let c :=
    if prev = 0 then { c with roots := Function.update c.roots i (handlerNext c.mem curr) }
    else { c with mem := setHandlerNext c.mem prev (handlerNext c.mem curr) }
  { c with
    mem := setHandlerNext c.mem curr c.freeList
    freeList := curr
    count := c.count - 1 }

/-- The inner loop of `sweep_dereferenced_roots`. -/
def sweepChain (i : Nat) : (fuel : Nat) → (curr prev : Nat) → RootTable → Except Fault RootTable
  | 0, _, _, _ => .error .outOfFuel
  | fuel + 1, curr, prev, c =>
      if curr = 0 then .ok c
      else if !derefIsMarked c.mem curr then
        let tmp := handlerNext c.mem curr
        sweepChain i fuel tmp prev (c.unlink i curr prev)
      else
        let c := { c with mem := derefUnmark c.mem curr }
        sweepChain i fuel (handlerNext c.mem curr) curr c

/-- The outer loop, with `n` chains left. -/
def sweepChains (fuel : Nat) : (n i : Nat) → RootTable → Except Fault RootTable
  | 0, _, c => .ok c
  | n + 1, i, c => c.sweepChain i fuel (c.roots i) 0 >>= sweepChains fuel n (i + 1)

/-- `sweep_dereferenced_roots()`. -/
def sweep (fuel : Nat) (c : RootTable) : Except Fault RootTable :=
  c.sweepChains fuel numberOfRoots 0

end RootTable

end PreciseGc

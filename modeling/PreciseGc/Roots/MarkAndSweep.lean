import PreciseGc.Heap.Sweep
import PreciseGc.Roots.DerefRoots
import PreciseGc.Roots.FakeRoots

/-!
# A collection

`mark_and_sweep` traverses the heap from three kinds of roots, thread by
thread: the dereferenced roots that a word of the thread stack lies in, the
roots registered in the `StackMap` of the thread, and, after all threads, the
fake roots.  When a traversal from a `StackMap` root overflowed the mark stack,
the marked blocks are traversed again until no traversal overflows.

The mark phase is written against a `Collector`, so that it can also be run
with a traversal that is observed or follows a script.
-/

namespace PreciseGc

open Foundation

/-- Where `go` is called from.  The code does not look at it; it tells the calls apart in
statements about them. -/
inductive CallSite where
  | dereferenced
  | stackMap
  | fakeRoot
  | overflow
deriving DecidableEq, Repr

/-- The operations the mark phase is made of, on states that hold a heap. -/
structure Collector (σ : Type) where
  heap : σ → Heap
  withMem : Memory → σ → σ
  go : CallSite → (pointer : Nat) → (pinRoot : Bool) → σ → Except Fault (Bool × σ)
  markAfterOverflow : σ → Except Fault (Bool × σ)

/-- A `thread_handler`: the words from `stack_top` to `stack_bottom`, and the addresses in
`stack`. -/
structure ThreadHandler where
  stackWords : List Nat
  stack : List Nat

section Overflow

variable {σ : Type} (heap : σ → Heap)
  (go : CallSite → (pointer : Nat) → (pinRoot : Bool) → σ → Except Fault (Bool × σ))

/-- `if (block_is_marked(b) && go(&b->data)) is_overflow = true;`. -/
def restart (header data : Nat) (s : Bool × σ) : Except Fault (Bool × σ) :=
  if blockIsMarked ((heap s.2).mem header) then
    go .overflow data false s.2 >>= fun r => .ok (s.1 || r.1, r.2)
  else .ok s

/-- `mark_after_overflow()`. -/
def markAfterOverflow (fuel : Nat) (s : σ) : Except Fault (Bool × σ) :=
  walk (fun b _ => b == 0)
    (fun b s =>
      restart heap go (bigHeader b) (bigData b) s >>= fun s => .ok (bigNext (heap s.2).mem b, s))
    Fault.outOfFuel fuel (heap s).firstBigBlock (false, s) >>= fun s =>
  walk (fun p _ => p == 0)
    (fun p s =>
      walk (fun b s => b == freeBlock (heap s.2).mem p)
        (fun b s =>
          restart heap go b (blockData b) s >>= fun s => .ok (nextBlock (heap s.2).mem b, s))
        Fault.outOfFuel fuel (firstBlock p) s >>= fun s => .ok (pageNext (heap s.2).mem p, s))
    Fault.outOfFuel fuel (heap s.2).firstPage s

end Overflow

/-- The collector of the library. -/
def collector (fuel : Nat) : Collector Heap where
  heap h := h
  withMem m h := { h with mem := m }
  go _ := go fuel
  markAfterOverflow := markAfterOverflow id (fun _ => go fuel) fuel

namespace Collector

variable {σ : Type} (c : Collector σ)

/-- The search of `mark_dereferenced_root(root, full_gc)` in one chain. -/
def markChain (root : Nat) (fullGc : Bool) :
    List RootHandler → σ → Except Fault (List RootHandler × σ)
  | [], s => .ok ([], s)
  | curr :: next, s =>
      if curr.contains root then
        if !curr.isMarked then
          if fullGc then
            c.go .dereferenced curr.mark.plainPointer true s >>= fun r =>
              .ok (curr.mark :: next, r.2)
          else .ok (curr.mark :: next, s)
        else .ok (curr :: next, s)
      else markChain root fullGc next s >>= fun r => .ok (curr :: r.1, r.2)

/-- `mark_dereferenced_root(root, full_gc)`. -/
def markDereferencedRoot (root : Nat) (fullGc : Bool) (s : DerefRoots × σ) :
    Except Fault (DerefRoots × σ) :=
  if root = 0 || root % 2 != 0 then .ok s
  else
    let hash := hashOfRoot root
    c.markChain root fullGc (s.1.roots hash) s.2 >>= fun r =>
      .ok ({ s.1 with roots := Function.update s.1.roots hash r.1 }, r.2)

/-- `mark_stack(thread, full_gc)`, for the words of the stack of the thread. -/
def markStack (fuel : Nat) (fullGc : Bool) : List Nat → DerefRoots × σ →
    Except Fault (DerefRoots × σ)
  | [], s => .ok s
  | word :: words, s =>
      isHeapPointer fuel word (c.heap s.2) >>= fun inHeap =>
        if inHeap then c.markDereferencedRoot word fullGc s >>= markStack fuel fullGc words
        else markStack fuel fullGc words s

/-- `go(get_next_obj(addr))`. -/
def goFrom (site : CallSite) (addr : Nat) (s : σ) : Except Fault (Bool × σ) :=
  let (p, m) := getNextObj addr (c.heap s).mem
  c.go site p false (c.withMem m s)

/-- The loop of `mark_and_sweep` over the roots in a `StackMap`; the flag is `stack_overflow`. -/
def markStackMap : List Nat → Bool × σ → Except Fault (Bool × σ)
  | [], s => .ok s
  | root :: roots, s =>
      c.goFrom .stackMap root s.2 >>= fun r => markStackMap roots (s.1 || r.1, r.2)

/-- `while (stack_overflow) stack_overflow = mark_after_overflow();`. -/
def rescan : (fuel : Nat) → (stackOverflow : Bool) → σ → Except Fault σ
  | _, false, s => .ok s
  | 0, true, _ => .error .outOfFuel
  | fuel + 1, true, s => c.markAfterOverflow s >>= fun r => rescan fuel r.1 r.2

/-- The body of the loop of `mark_and_sweep` over the threads. -/
def markThread (fuel : Nat) (thread : ThreadHandler) (s : DerefRoots × σ) :
    Except Fault (DerefRoots × σ) :=
  c.markStack fuel true thread.stackWords s >>= fun s =>
    c.markStackMap thread.stack (false, s.2) >>= fun r =>
      c.rescan fuel r.1 r.2 >>= fun state => .ok (s.1, state)

def markThreads (fuel : Nat) : List ThreadHandler → DerefRoots × σ → Except Fault (DerefRoots × σ)
  | [], s => .ok s
  | thread :: threads, s => c.markThread fuel thread s >>= markThreads fuel threads

/-- `mark_node(p)`. -/
def markNode : FakeRoots → σ → Except Fault σ
  | .null, s => .ok s
  | .node self addr _ left right, s =>
      c.goFrom .fakeRoot addr (c.withMem (mark self (c.heap s).mem) s) >>= fun r =>
        markNode left r.2 >>= markNode right

/-- `mark_and_sweep` up to the call of `sweep`. -/
def markRoots (fuel : Nat) (threads : List ThreadHandler) (fakeRoots : FakeRoots)
    (s : DerefRoots × σ) : Except Fault (DerefRoots × σ) :=
  c.markThreads fuel threads s >>= fun s =>
    c.markNode fakeRoots s.2 >>= fun state => .ok (s.1, state)

end Collector

/-- `mark_and_sweep()`. -/
def markAndSweep (pf : Platform) (fuel : Nat) (threads : List ThreadHandler) (fakeRoots : FakeRoots)
    (s : DerefRoots × Heap) : Except Fault (DerefRoots × Heap) :=
  (collector fuel).markRoots fuel threads fakeRoots s >>= fun s =>
    sweep pf fuel (threads.map ThreadHandler.stack) s.2 >>= fun h => .ok (s.1.sweep, h)

/-- `clean_deref_roots()`. -/
def cleanDerefRoots (fuel : Nat) (threads : List ThreadHandler) (h : Heap) (t : DerefRoots) :
    Except Fault DerefRoots :=
  match threads with
  | [] => .ok t.sweep
  | thread :: threads =>
      (collector fuel).markStack fuel false thread.stackWords (t, h) >>= fun s =>
        cleanDerefRoots fuel threads h s.1

/-- `register_dereferenced_root(root, size)`, where `gcFalse` is the effect of `gc(false)` on the
table. -/
def registerDereferencedRoot (space : Option Nat) (gcFalse : DerefRoots → Except Fault DerefRoots)
    (root size : Nat) (t : DerefRoots) : Except Fault DerefRoots :=
  t.register space root size >>= fun r =>
    if r.1 then
      gcFalse r.2 >>= fun t =>
        .ok { t with
          expandCount := 0
          expandFactor := if t.expandFactor != 1 then t.expandFactor / 2 else t.expandFactor }
    else .ok r.2

end PreciseGc

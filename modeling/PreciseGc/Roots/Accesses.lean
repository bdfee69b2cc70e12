import PreciseGc.Mark.Accesses
import PreciseGc.Roots.Pinning

/-!
# The header accesses of the mark phase

The mark phase traverses the heap from every root, restarts traversals after an
overflow, and marks the nodes of the fake roots.  Next to each of its functions
stands the list of the calls of `get_mark`, `mark` and `pin` that it makes; the
mark phase changes no word in front of which no recorded argument lies.
-/

namespace PreciseGc

open Foundation

/-- Those of the search of `mark_dereferenced_root(root, true)` in one chain. -/
def markChainAccesses (fuel root : Nat) : List RootHandler → Heap → List HeaderAccess
  | [], _ => []
  | curr :: next, h =>
      if curr.contains root then
        if !curr.isMarked then goAccesses fuel curr.mark.plainPointer true h else []
      else markChainAccesses fuel root next h

/-- Those of `mark_dereferenced_root(root, true)`. -/
def markDereferencedRootAccesses (fuel root : Nat) (s : DerefRoots × Heap) : List HeaderAccess :=
  if root = 0 || root % 2 != 0 then []
  else markChainAccesses fuel root (s.1.roots (hashOfRoot root)) s.2

/-- Those of `mark_stack(thread, true)`. -/
def markStackAccesses (fuel : Nat) : List Nat → DerefRoots × Heap → List HeaderAccess
  | [], _ => []
  | word :: words, s =>
      after (isHeapPointer fuel word s.2) fun inHeap =>
        if inHeap then
          markDereferencedRootAccesses fuel word s ++
            after ((collector fuel).markDereferencedRoot word true s) (markStackAccesses fuel words)
        else markStackAccesses fuel words s

/-- Those of `go(get_next_obj(addr))`. -/
def goFromAccesses (fuel addr : Nat) (h : Heap) : List HeaderAccess :=
  getNextObjAccesses addr h.mem ++
    goAccesses fuel (getNextObj addr h.mem).1 false { h with mem := (getNextObj addr h.mem).2 }

/-- Those of the loop of `mark_and_sweep` over the roots in a `StackMap`. -/
def markStackMapAccesses (fuel : Nat) : List Nat → Heap → List HeaderAccess
  | [], _ => []
  | root :: roots, h =>
      goFromAccesses fuel root h ++
        after ((collector fuel).goFrom .stackMap root h) fun r =>
          markStackMapAccesses fuel roots r.2

/-- Those of `if (block_is_marked(b) && go(&b->data))`. -/
def restartAccesses (fuel header data : Nat) (h : Heap) : List HeaderAccess :=
  if blockIsMarked (h.mem header) then goAccesses fuel data false h else []

section Overflow

variable (fuel : Nat)

/-- The body of the loop of `mark_after_overflow` over the big blocks. -/
def rescanBig (b : Nat) (s : Bool × Heap) : Except Fault (Nat × Bool × Heap) :=
  restart id (fun _ => go fuel) (bigHeader b) (bigData b) s >>= fun s =>
    .ok (bigNext s.2.mem b, s)

/-- The body of its loop over the blocks of a page. -/
def rescanBlock (b : Nat) (s : Bool × Heap) : Except Fault (Nat × Bool × Heap) :=
  restart id (fun _ => go fuel) b (blockData b) s >>= fun s => .ok (nextBlock s.2.mem b, s)

/-- The body of its loop over the pages. -/
def rescanPage (p : Nat) (s : Bool × Heap) : Except Fault (Nat × Bool × Heap) :=
  walk (fun b s => b == freeBlock s.2.mem p) (rescanBlock fuel) Fault.outOfFuel fuel
    (firstBlock p) s
    >>= fun s => .ok (pageNext s.2.mem p, s)

theorem markAfterOverflow_eq (h : Heap) : markAfterOverflow id (fun _ => go fuel) fuel h =
    (walk (fun b _ => b == 0) (rescanBig fuel) Fault.outOfFuel fuel h.firstBigBlock (false, h) >>=
      fun s => walk (fun p _ => p == 0) (rescanPage fuel) Fault.outOfFuel fuel
        s.2.firstPage s) := rfl

/-- The calls made by the body of the loop over the big blocks. -/
def rescanBigAccesses (b : Nat) (s : Bool × Heap) : List HeaderAccess :=
  restartAccesses fuel (bigHeader b) (bigData b) s.2

/-- The calls made by the body of the loop over the blocks of a page. -/
def rescanBlockAccesses (b : Nat) (s : Bool × Heap) : List HeaderAccess :=
  restartAccesses fuel b (blockData b) s.2

/-- The calls made by the body of the loop over the pages. -/
def rescanPageAccesses (p : Nat) (s : Bool × Heap) : List HeaderAccess :=
  walkRecord (fun b s => b == freeBlock s.2.mem p) (rescanBlock fuel) (rescanBlockAccesses fuel)
    fuel (firstBlock p) s

/-- The calls made by `mark_after_overflow()`. -/
def markAfterOverflowAccesses (h : Heap) : List HeaderAccess :=
  walkRecord (fun b _ => b == 0) (rescanBig fuel) (rescanBigAccesses fuel) fuel h.firstBigBlock
      (false, h) ++
    after (walk (fun b _ => b == 0) (rescanBig fuel) Fault.outOfFuel fuel
      h.firstBigBlock (false, h))
      fun s =>
        walkRecord (fun p _ => p == 0) (rescanPage fuel) (rescanPageAccesses fuel) fuel
          s.2.firstPage s

end Overflow

/-- Those of `while (stack_overflow) stack_overflow = mark_after_overflow();`. -/
def rescanAccesses (fuel : Nat) : (rounds : Nat) → (stackOverflow : Bool) → Heap → List HeaderAccess
  | _, false, _ => []
  | 0, true, _ => []
  | rounds + 1, true, h =>
      markAfterOverflowAccesses fuel h ++
        after ((collector fuel).markAfterOverflow h) fun r => rescanAccesses fuel rounds r.1 r.2

theorem mem_rescanAccesses {fuel rounds : Nat} {h : Heap} (some : 0 < rounds)
    {access : HeaderAccess} (mem : access ∈ markAfterOverflowAccesses fuel h) :
    access ∈ rescanAccesses fuel rounds true h := by
  cases rounds with
  | zero => omega
  | succ rounds => exact List.mem_append_left _ mem

/-- Those of the body of the loop of `mark_and_sweep` over the threads. -/
def markThreadAccesses (fuel : Nat) (thread : ThreadHandler) (s : DerefRoots × Heap) :
    List HeaderAccess :=
  markStackAccesses fuel thread.stackWords s ++
    after ((collector fuel).markStack fuel true thread.stackWords s) fun s =>
      markStackMapAccesses fuel thread.stack s.2 ++
        after ((collector fuel).markStackMap thread.stack (false, s.2)) fun r =>
          rescanAccesses fuel fuel r.1 r.2

def markThreadsAccesses (fuel : Nat) : List ThreadHandler → DerefRoots × Heap → List HeaderAccess
  | [], _ => []
  | thread :: threads, s =>
      markThreadAccesses fuel thread s ++
        after ((collector fuel).markThread fuel thread s) (markThreadsAccesses fuel threads)

/-- Those of `mark_node(p)`. -/
def markNodeAccesses (fuel : Nat) : FakeRoots → Heap → List HeaderAccess
  | .null, _ => []
  | .node self addr _ left right, h =>
      let h := { h with mem := mark self h.mem }
      .mark self :: (goFromAccesses fuel addr h ++
        after ((collector fuel).goFrom .fakeRoot addr h) fun r =>
          markNodeAccesses fuel left r.2 ++
            after ((collector fuel).markNode left r.2) (markNodeAccesses fuel right))

/-- Those of `mark_and_sweep()` up to the call of `sweep()`. -/
def markRootsAccesses (fuel : Nat) (threads : List ThreadHandler) (fakeRoots : FakeRoots)
    (s : DerefRoots × Heap) : List HeaderAccess :=
  markThreadsAccesses fuel threads s ++
    after ((collector fuel).markThreads fuel threads s) fun s => markNodeAccesses fuel fakeRoots s.2

section Complete

variable {fuel : Nat}

theorem markChain_within (root : Nat) (chain : List RootHandler) (h : Heap) :
    Yields (fun _ => True) (fun r => WritesWithin (markChainAccesses fuel root chain h) h r.2)
      ((collector fuel).markChain root true chain h) := by
  induction chain with
  | nil => exact WritesWithin.refl h
  | cons curr next ih =>
      unfold Collector.markChain markChainAccesses
      split
      · split
        · exact (go_within fuel _ true h).bind fun r within => within
        · exact WritesWithin.refl h
      · exact ih.bind fun r within => within

theorem markDereferencedRoot_within (root : Nat) (s : DerefRoots × Heap) :
    Yields (fun _ => True)
      (fun r => WritesWithin (markDereferencedRootAccesses fuel root s) s.2 r.2)
      ((collector fuel).markDereferencedRoot root true s) := by
  unfold Collector.markDereferencedRoot markDereferencedRootAccesses
  split
  · exact WritesWithin.refl s.2
  · exact (markChain_within root _ s.2).bind fun r within => within

theorem markStack_within (words : List Nat) (s : DerefRoots × Heap) :
    Yields (fun _ => True) (fun r => WritesWithin (markStackAccesses fuel words s) s.2 r.2)
      ((collector fuel).markStack fuel true words s) := by
  induction words generalizing s with
  | nil => exact WritesWithin.refl s.2
  | cons word words ih =>
      unfold Collector.markStack markStackAccesses
      change Yields _ _ (isHeapPointer fuel word s.2 >>= _)
      cases isHeapPointer fuel word s.2 with
      | error fault => trivial
      | ok inHeap =>
          cases inHeap with
          | false => exact ih s
          | true =>
              exact Yields.bind_within WritesWithin.trans (markDereferencedRoot_within word s) ih

theorem goFrom_within (site : CallSite) (addr : Nat) (h : Heap) :
    Yields (fun _ => True) (fun r => WritesWithin (goFromAccesses fuel addr h) h r.2)
      ((collector fuel).goFrom site addr h) := by
  apply (go_within fuel (getNextObj addr h.mem).1 false
    { h with mem := (getNextObj addr h.mem).2 }).mono
  exact fun r within => WritesWithin.trans _ _ _ _ _ (getNextObj_within addr h) within

theorem markStackMap_within (roots : List Nat) (s : Bool × Heap) :
    Yields (fun _ => True) (fun r => WritesWithin (markStackMapAccesses fuel roots s.2) s.2 r.2)
      ((collector fuel).markStackMap roots s) := by
  induction roots generalizing s with
  | nil => exact WritesWithin.refl s.2
  | cons root roots ih =>
      exact Yields.bind_within WritesWithin.trans (goFrom_within .stackMap root s.2) fun r =>
        ih (s.1 || r.1, r.2)

theorem restart_within (header data : Nat) (s : Bool × Heap) :
    Yields (fun _ => True) (fun r => WritesWithin (restartAccesses fuel header data s.2) s.2 r.2)
      (restart id (fun _ => go fuel) header data s) := by
  unfold restart restartAccesses
  change Yields _ _ (if blockIsMarked (s.2.mem header) = true then _ else _)
  split
  · exact (go_within fuel data false s.2).bind fun r within => within
  · exact WritesWithin.refl s.2

theorem markAfterOverflow_within (h : Heap) :
    Yields (fun _ => True) (fun r => WritesWithin (markAfterOverflowAccesses fuel h) h r.2)
      ((collector fuel).markAfterOverflow h) := by
  change Yields _ _ (markAfterOverflow id (fun _ => go fuel) fuel h)
  rw [markAfterOverflow_eq]
  refine @Yields.bind_within _ _ _ _ _ _ Prod.snd Prod.snd h _ _ _ _ WritesWithin.trans ?_ ?_
  · refine walk_within WritesWithin.refl WritesWithin.trans ?_
    intro b s
    exact (restart_within (bigHeader b) (bigData b) s).bind fun r within => within
  · intro s
    refine walk_within WritesWithin.refl WritesWithin.trans ?_
    intro p s
    refine Yields.bind (@walk_within _ _ _ _ _ _ _ _ _ _ _ _ _ Prod.snd WritesWithin.refl
      WritesWithin.trans ?_) fun r within => within
    intro b s
    exact (restart_within b (blockData b) s).bind fun r within => within

theorem rescan_within (rounds : Nat) (stackOverflow : Bool) (h : Heap) :
    Yields (fun _ => True)
      (fun h' => WritesWithin (rescanAccesses fuel rounds stackOverflow h) h h')
      ((collector fuel).rescan rounds stackOverflow h) := by
  induction rounds generalizing stackOverflow h with
  | zero =>
      cases stackOverflow with
      | false => exact WritesWithin.refl h
      | true => trivial
  | succ rounds ih =>
      cases stackOverflow with
      | false => exact WritesWithin.refl h
      | true =>
          exact Yields.bind_within WritesWithin.trans (markAfterOverflow_within h) fun r =>
            ih r.1 r.2

theorem markThread_within (thread : ThreadHandler) (s : DerefRoots × Heap) :
    Yields (fun _ => True) (fun r => WritesWithin (markThreadAccesses fuel thread s) s.2 r.2)
      ((collector fuel).markThread fuel thread s) := by
  refine Yields.bind_within WritesWithin.trans (markStack_within thread.stackWords s) fun s₁ => ?_
  refine Yields.bind_within WritesWithin.trans (markStackMap_within thread.stack (false, s₁.2))
    fun r => ?_
  exact (rescan_within fuel r.1 r.2).bind fun h' within => within

theorem markThreads_within (threads : List ThreadHandler) (s : DerefRoots × Heap) :
    Yields (fun _ => True) (fun r => WritesWithin (markThreadsAccesses fuel threads s) s.2 r.2)
      ((collector fuel).markThreads fuel threads s) := by
  induction threads generalizing s with
  | nil => exact WritesWithin.refl s.2
  | cons thread threads ih =>
      exact Yields.bind_within WritesWithin.trans (markThread_within thread s) ih

theorem markNode_within (fakeRoots : FakeRoots) (h : Heap) :
    Yields (fun _ => True) (fun h' => WritesWithin (markNodeAccesses fuel fakeRoots h) h h')
      ((collector fuel).markNode fakeRoots h) := by
  induction fakeRoots generalizing h with
  | null => exact WritesWithin.refl h
  | node self addr height left right leftIh rightIh =>
      have visited : Yields (fun _ => True) _ ((collector fuel).goFrom .fakeRoot addr
          { h with mem := mark self h.mem } >>= fun r =>
            (collector fuel).markNode left r.2 >>= (collector fuel).markNode right) :=
        Yields.bind_within WritesWithin.trans (goFrom_within .fakeRoot addr _) fun r =>
          Yields.bind_within WritesWithin.trans (leftIh r.2) rightIh
      apply visited.mono
      intro h' within
      exact WritesWithin.trans [.mark self] _ _ _ _ (WritesWithin.mark self h) within

/-- The mark phase writes only in front of recorded arguments. -/
theorem markRoots_within (threads : List ThreadHandler) (fakeRoots : FakeRoots)
    (s : DerefRoots × Heap) :
    Yields (fun _ => True)
      (fun r => WritesWithin (markRootsAccesses fuel threads fakeRoots s) s.2 r.2)
      ((collector fuel).markRoots fuel threads fakeRoots s) := by
  refine Yields.bind_within WritesWithin.trans (markThreads_within threads s) fun s₁ => ?_
  exact (markNode_within fakeRoots s₁.2).bind fun h' within => within

/-- When all arguments are starts of the data of blocks, only headers of these blocks change. -/
theorem markRoots_frame {headers : Nat → Prop} {threads : List ThreadHandler}
    {fakeRoots : FakeRoots}
    {t t' : DerefRoots} {h h' : Heap}
    (accesses : ∀ access ∈ markRootsAccesses fuel threads fakeRoots (t, h), access.OnHeader headers)
    (returns : (collector fuel).markRoots fuel threads fakeRoots (t, h) = .ok (t', h')) :
    h' = { h with mem := h'.mem } ∧ ∀ x, ¬headers x → h'.mem x = h.mem x := by
  have within := (markRoots_within threads fakeRoots (t, h)).of_ok returns
  refine ⟨within.1, fun x notHeader => within.2 x ?_⟩
  intro access mem inFront
  rcases accesses access mem with ⟨b, isHeader, eq⟩
  have same : b = x := by
    rw [eq] at inFront
    simpa [getBlock, blockData] using inFront
  exact notHeader (same ▸ isHeader)

end Complete

end PreciseGc

import PreciseGc.Heap.Pages
import PreciseGc.Heap.Pointers

/-!
# The sweep phase

`sweep` first filters the big blocks, then makes four passes over the pages:
it separates pages with a pinned block from the others, evacuates the marked
blocks of the others, redirects the pointer slots of every surviving small
block and the stack roots, and returns the evacuated pages to the free list.

All lists are intrusive.  Each loop below follows the source's cursor; a loop
whose body rewrites the link of its own cell reads the link first.
-/

namespace PreciseGc

open Foundation

/-- The registered stack roots of every thread: the addresses held by its `StackMap`, in the
order of the list `first_thread`. -/
abbrev ThreadRoots := List (List Nat)

/-- The locals `big` and `prev` of `sweep_big_blocks` beside the heap. -/
structure BigSweep where
  heap : Heap
  prev : Nat

/-- One iteration of `sweep_big_blocks`. -/
def sweepBigBlock (pf : Platform) (big : Nat) (s : BigSweep) : Except Fault (Nat × BigSweep) :=
  let h := s.heap
  let header := h.mem (bigHeader big)
  if !blockIsMarked header && !blockIsPinned header then
    let next := bigNext h.mem big
    let h :=
      if s.prev = 0 then { h with firstBigBlock := next }
      else { h with mem := setBigNext h.mem s.prev next }
    -- `sizeof(big)` is the size of the pointer variable, not of the structure
    .ok (next, ⟨munmap pf big (8 + blockSize header) h, s.prev⟩)
  else
    let mem := h.mem.write (bigHeader big) (unmarkBlock (unpinBlock header))
    .ok (bigNext mem big, ⟨{ h with mem := mem }, big⟩)

/-- `sweep_big_blocks()`. -/
def sweepBigBlocks (pf : Platform) (fuel : Nat) (h : Heap) : Except Fault Heap :=
  walk (fun big _ => big == 0) (sweepBigBlock pf) Fault.outOfFuel fuel h.firstBigBlock ⟨h, 0⟩ >>=
    fun s => .ok s.heap

/-- `for b from first_block of p: while (b != p->free_block) { body; b = next_block(b); }`. -/
def forBlocks (fuel : Nat) (p : Nat) (body : Nat → Heap → Except Fault Heap) (h : Heap) :
    Except Fault Heap :=
  walk (fun b h => b == freeBlock h.mem p)
    (fun b h => body b h >>= fun h => .ok (nextBlock h.mem b, h))
    Fault.outOfFuel fuel (firstBlock p) h

/-- `while (p != nullptr) { body; p = p->next; }`. -/
def forPages {σ : Type} (heap : σ → Heap) (fuel : Nat) (p : Nat)
    (body : Nat → σ → Except Fault σ) (s : σ) : Except Fault σ :=
  walk (fun p _ => p == 0)
    (fun p s => body p s >>= fun s => .ok (pageNext (heap s).mem p, s))
    Fault.outOfFuel fuel p s

/-- The block at which the search for a pinned block of a page stops: a pinned block, or the
free block when there is none. -/
def findPinned (m : Memory) (p : Nat) : (fuel : Nat) → (b : Nat) → Except Fault Nat
  | 0, _ => .error .outOfFuel
  | fuel + 1, b =>
      if b = freeBlock m p then .ok b
      else if blockIsPinned (m b) then .ok b
      else findPinned m p fuel (nextBlock m b)

/-- `if (!page_is_full(p))`: link the page into the bucket of its free tail. -/
def linkFreeTail (pf : Platform) (p : Nat) (h : Heap) : Except Fault Heap :=
  if pageIsFull pf h.mem p then .ok h
  else
    let freeSize := blockSize (h.mem (freeBlock h.mem p))
    checkIndex freeSize >>= fun _ =>
      .ok { h with
        mem := setNextFreeBlock h.mem p (h.freeBlocks freeSize)
        freeBlocks := Function.update h.freeBlocks freeSize p
        maxFreeBlock := if h.maxFreeBlock < freeSize then freeSize else h.maxFreeBlock }

/-- The locals of the sweep beside the heap: `alive_pages`, and `prev_page` of the first pass. -/
structure SweepState where
  heap : Heap
  alivePages : Nat
  prevPage : Nat := 0

/-- The header of a block on a page that stays in place. -/
def retainedHeader (header : Nat) : Nat :=
  let header :=
    if !blockIsMarked header && !blockIsPinned header then setDeadFlag header else header
  unpinBlock (unmarkBlock header)

/-- One iteration of the loop over the blocks of a page that stays in place. -/
def retainBlock (b : Nat) (h : Heap) : Except Fault Heap :=
  .ok { h with mem := h.mem.write b (retainedHeader (h.mem b)) }

/-- Move a page from the list `first_page` to the front of `alive_pages`. -/
def unlinkPinnedPage (currPage nextPage : Nat) (s : SweepState) : SweepState :=
  let h := s.heap
  let h :=
    if s.prevPage = 0 then { h with firstPage := nextPage }
    else { h with mem := setPageNext h.mem s.prevPage nextPage }
  let h := { h with mem := setPageNext h.mem currPage s.alivePages }
  { s with
    heap := if pageNext h.mem currPage = 0 then { h with lastPage := currPage } else h
    alivePages := currPage }

/-- One iteration of the first pass. -/
def classifyPage (pf : Platform) (fuel : Nat) (currPage : Nat) (s : SweepState) :
    Except Fault (Nat × SweepState) :=
  let nextPage := pageNext s.heap.mem currPage
  findPinned s.heap.mem currPage fuel (firstBlock currPage) >>= fun b =>
    if b = freeBlock s.heap.mem currPage then .ok (nextPage, { s with prevPage := currPage })
    else
      let s := unlinkPinnedPage currPage nextPage s
      forBlocks fuel currPage retainBlock s.heap >>= fun h =>
        linkFreeTail pf currPage h >>= fun h => .ok (nextPage, { s with heap := h })

def classifyPages (pf : Platform) (fuel : Nat) (h : Heap) : Except Fault SweepState :=
  walk (fun p _ => p == 0) (classifyPage pf fuel) Fault.outOfFuel fuel h.firstPage ⟨h, 0, 0⟩

/-- The search of `copy_block` for a free tail of at least `freeSize` bytes; `count` bounds the
iterations.  The page found is removed from its bucket. -/
def findFreeTail : (count : Nat) → (freeSize : Nat) → Heap → Except Fault (Nat × Heap)
  | 0, _, h => .ok (0, h)
  | count + 1, freeSize, h =>
      if h.maxFreeBlock < freeSize then .ok (0, h)
      else
        checkIndex freeSize >>= fun _ =>
          let currPage := h.freeBlocks freeSize
          if currPage ≠ 0 then
            .ok (currPage, { h with
              freeBlocks := Function.update h.freeBlocks freeSize (nextFreeBlock h.mem currPage) })
          else findFreeTail count (freeSize + 8) h

/-- The page `copy_block` allocates in. -/
def pageForCopy (pf : Platform) (s : Nat) (h : Heap) : Except Fault (Nat × Heap) :=
  findFreeTail (h.maxFreeBlock + 1) s h >>= fun (currPage, h) =>
    if currPage ≠ 0 then .ok (currPage, h)
    else
      requestNewPage pf true h >>= fun (newPage, h) =>
        if newPage = 0 then .error .mapFailed
        else .ok (newPage, { h with
          mem := setPageNext h.mem h.lastPage newPage
          lastPage := newPage })

/-- `copy_block(b)`. -/
def copyBlock (pf : Platform) (b : Nat) (h : Heap) : Except Fault Heap :=
  let s := blockSize (h.mem b)
  pageForCopy pf s h >>= fun (currPage, h) =>
    let (blockToCopy, mem) := mallocInPage pf s currPage h.mem
    let mem := mem.copy (blockData blockToCopy) (blockData b) s
    let mem := setForwardPointer mem b (blockData blockToCopy)
    linkFreeTail pf currPage { h with mem := mem }

/-- The first page of to-space, when no page was pinned. -/
def ensureAlivePage (pf : Platform) (s : SweepState) : Except Fault SweepState :=
  if s.alivePages = 0 then
    requestNewPage pf true s.heap >>= fun (newPage, h) =>
      if newPage = 0 then .error .mapFailed
      else
        checkIndex pf.bigBlockThreshold >>= fun _ =>
          .ok { s with
            alivePages := newPage
            heap := { h with
              lastPage := newPage
              mem := setNextFreeBlock h.mem newPage (h.freeBlocks pf.bigBlockThreshold)
              freeBlocks := Function.update h.freeBlocks pf.bigBlockThreshold newPage
              maxFreeBlock := pf.bigBlockThreshold } }
  else .ok s

/-- One iteration of the loop over the blocks of an unpinned page. -/
def evacuateBlock (pf : Platform) (b : Nat) (s : SweepState) : Except Fault SweepState :=
  let header := s.heap.mem b
  assertThat pf (!blockIsPinned header) >>= fun _ =>
    assertThat pf (!(blockIsDead header && blockIsMarked header)) >>= fun _ =>
      if blockIsMarked header then
        ensureAlivePage pf s >>= fun s =>
          copyBlock pf b s.heap >>= fun h => .ok { s with heap := h }
      else .ok s

def evacuatePage (pf : Platform) (fuel : Nat) (p : Nat) (s : SweepState) :
    Except Fault SweepState :=
  walk (fun b (s : SweepState) => b == freeBlock s.heap.mem p)
    (fun b s => evacuateBlock pf b s >>= fun s => .ok (nextBlock s.heap.mem b, s))
    Fault.outOfFuel fuel (firstBlock p) s

def evacuatePages (pf : Platform) (fuel : Nat) (s : SweepState) : Except Fault SweepState :=
  forPages SweepState.heap fuel s.heap.firstPage (evacuatePage pf fuel) s

/-- The loop over the pointer slots of one element; `count` iterations are left. -/
def fixSlots (metaAddr data : Nat) : (count j : Nat) → Memory → Memory
  | 0, _, m => m
  | count + 1, j, m =>
      fixSlots metaAddr data count (j + 1)
        (fixPtr (ptrAdd data (shellOffset m (metaShell m metaAddr) j)) m)

/-- The loop over the elements of one object; `meta->count` is read again in every iteration. -/
def fixElements (metaAddr : Nat) (size count : Nat) :
    (fuel i : Nat) → (data : Nat) → Memory → Except Fault Memory
  | 0, _, _, _ => .error .outOfFuel
  | fuel + 1, i, data, m =>
      if i < metaCount m metaAddr then
        fixElements metaAddr size count fuel (i + 1) (ptrAdd data size)
          (fixSlots metaAddr data count 0 m)
      else .ok m

/-- One iteration of the loop over the blocks of an alive page. -/
def fixBlock (pf : Platform) (fuel : Nat) (b : Nat) (h : Heap) : Except Fault Heap :=
  assertThat pf (!blockIsPinned (h.mem b)) >>= fun _ =>
    assertThat pf (!blockIsMarked (h.mem b)) >>= fun _ =>
      if blockIsDead (h.mem b) then .ok h
      else
        let metaAddr := blockData b
        let data := blockData b + sizeofBaseMeta
        let h := { h with metaReads := h.metaReads ++ [metaAddr] }
        let size := shellSize h.mem (metaShell h.mem metaAddr)
        let count := shellCount h.mem (metaShell h.mem metaAddr)
        if count = 0 then .ok h
        else
          fixElements metaAddr size count fuel 0 data h.mem >>= fun m => .ok { h with mem := m }

def fixPage (pf : Platform) (fuel : Nat) (p : Nat) (h : Heap) : Except Fault Heap :=
  forBlocks fuel p (fixBlock pf fuel) h

def fixPages (pf : Platform) (fuel : Nat) (alivePages : Nat) (h : Heap) : Except Fault Heap :=
  forPages id fuel alivePages (fixPage pf fuel) h

/-- `fix_roots()`. -/
def fixRoots (threads : ThreadRoots) (h : Heap) : Heap :=
  { h with mem := threads.foldl (fun m stack => stack.foldl (fun m addr => fixPtr addr m) m) h.mem }

/-- One iteration of the loop that returns the pages left in `first_page` to `free_list`. -/
def recyclePage (p : Nat) (h : Heap) : Except Fault (Nat × Heap) :=
  let next := pageNext h.mem p
  .ok (next, { h with
    mem := setPageNext h.mem p h.freeList
    freeList := p
    freePages := h.freePages + 1 })

def recyclePages (fuel : Nat) (h : Heap) : Except Fault Heap :=
  walk (fun p _ => p == 0) recyclePage Fault.outOfFuel fuel h.firstPage h

/-- The final loop over `free_blocks`; `count` bounds the iterations. -/
def clearFreeBlocks : (count : Nat) → (freeSize : Nat) → Heap → Except Fault Heap
  | 0, _, h => .ok h
  | count + 1, freeSize, h =>
      if h.maxFreeBlock < freeSize then .ok h
      else
        checkIndex freeSize >>= fun _ =>
          clearFreeBlocks count (freeSize + 8)
            { h with freeBlocks := Function.update h.freeBlocks freeSize 0 }

/-- The passes of `sweep` after the big blocks. -/
def sweepPages (pf : Platform) (fuel : Nat) (threads : ThreadRoots) (h : Heap) :
    Except Fault Heap :=
  classifyPages pf fuel { h with maxFreeBlock := 0, lastPage := 0 } >>= fun s =>
    evacuatePages pf fuel s >>= fun s =>
      fixPages pf fuel s.alivePages s.heap >>= fun h =>
        recyclePages fuel (fixRoots threads h) >>= fun h =>
          clearFreeBlocks (h.maxFreeBlock + 1) 8 { h with firstPage := s.alivePages } >>= fun h =>
            .ok { h with maxFreeBlock := 0 }

/-- `sweep()`. -/
def sweep (pf : Platform) (fuel : Nat) (threads : ThreadRoots) (h : Heap) : Except Fault Heap :=
  sweepBigBlocks pf fuel h >>= sweepPages pf fuel threads

end PreciseGc

import PreciseGc.Heap.Layout

/-!
# Mapping pages and allocating inside a page

The functions below are the page level of the allocator: `morecore` obtains a
mapping, `request_new_page` serves one page from the list of free pages and
extends that list when it is empty, and `malloc_in_page` cuts a block off the
free tail of a page.  `gcmalloc` puts them together.
-/

namespace PreciseGc

open Foundation

/-- `mmap(nullptr, length, PROT_READ | PROT_WRITE, MAP_ANONYMOUS | MAP_PRIVATE, 0, 0)`. -/
def mmap (pf : Platform) (length : Nat) (h : Heap) : Option Nat × Heap :=
  match pf.mmap h.mmapCalls h.mappings length with
  | none => (none, { h with mmapCalls := h.mmapCalls + 1 })
  | some start =>
      (some start, { h with
        mmapCalls := h.mmapCalls + 1
        mappings := ⟨start, roundToPages pf.pageSize length⟩ :: h.mappings
        mem := h.mem.fill start (roundToPages pf.pageSize length) 0 })

/-- What is left of a mapped region after `munmap(address, length)`. -/
def Region.unmap (pageSize address length : Nat) (r : Region) : List Region :=
  if r.start = address then
    if r.length ≤ roundToPages pageSize length then []
    else [⟨address + roundToPages pageSize length, r.length - roundToPages pageSize length⟩]
  else [r]

/-- `munmap(address, length)`, called at the start of a mapping. -/
def munmap (pf : Platform) (address length : Nat) (h : Heap) : Heap :=
  { h with mappings := h.mappings.flatMap (Region.unmap pf.pageSize address length) }

/-- `MAP_FAILED`. -/
def mapFailedAddr : Nat := wordSpace - 1

/-- `morecore`; a refused mapping is `none`.  The region is recorded before it is checked. -/
def morecore (pf : Platform) (size : Nat) (isBig : Bool) (h : Heap) :
    Except Fault (Option Nat × Heap) :=
  let (result, h) := mmap pf size h
  if isBig then .ok (result, h)
  else
    let start := result.getD mapFailedAddr
    let h := { h with parts := h.parts ++ [⟨start, ptrAdd start size⟩] }
    if result.isNone && !pf.ndebug then .error .mapFailed else .ok (result, h)

/-- `EXPAND_FACTOR`; the product stays exact in a `float`, being a power of two. -/
def expandFactor : Nat := 2

/-- The loop of `request_new_page` that links `count` pages of a mapping into `free_list`.  Its
index is an `int` and its bound a `size_t`: as in the other loops of the library, the index takes
every value below the bound, also from `2^31` on. -/
def linkNewPages (pf : Platform) : (count : Nat) → (ptr : Nat) → Heap → Heap
  | 0, _, h => h
  | count + 1, ptr, h =>
      linkNewPages pf count (ptr + pf.pageSize) { h with
        mem := setPageNext h.mem ptr h.freeList
        freeList := ptr
        freePages := h.freePages + 1
        totalPages := h.totalPages + 1 }

/-- The end of `request_new_page`: take the first free page and initialise it. -/
def takePage (pf : Platform) (h : Heap) : Nat × Heap :=
  let newPage := h.freeList
  let freeList := pageNext h.mem newPage
  let mem := setPageNext h.mem newPage 0
  let mem := setFreeBlock mem newPage (firstBlock newPage)
  let mem := mem.write (freeBlock mem newPage) pf.bigBlockThreshold
  (newPage, { h with mem := mem, freeList := freeList, freePages := h.freePages - 1 })

/-- The part of `request_new_page` that maps new pages and links them into `free_list`; `false`
when the mapping was refused. -/
def expandFreeList (pf : Platform) (h : Heap) : Except Fault (Bool × Heap) :=
  morecore pf (h.pagePerMap * pf.pageSize % wordSpace) false h >>= fun
    | (none, h) => .ok (false, h)
    | (some ptr, h) =>
        let h := linkNewPages pf h.pagePerMap ptr h
        .ok (true, { h with pagePerMap := h.pagePerMap * expandFactor })

/-- `request_new_page(expand)`; the null page is address `0`. -/
def requestNewPage (pf : Platform) (expand : Bool) (h : Heap) : Except Fault (Nat × Heap) :=
  if h.freeList = 0 then
    if !expand then .ok (0, h)
    else
      expandFreeList pf h >>= fun
        | (false, h) => .ok (0, h)
        | (true, h) => .ok (takePage pf h)
  else .ok (takePage pf h)

/-- `malloc_in_page(s, curr_page)`. -/
def mallocInPage (pf : Platform) (s : Nat) (currPage : Nat) (m : Memory) : Nat × Memory :=
  let sAndBlock := s + sizeofBlock
  let newBlock := freeBlock m currPage
  let m := setFreeBlock m currPage (newBlock + sAndBlock)
  let m :=
    if pageIsFull pf m currPage then m
    else m.write (freeBlock m currPage) (m newBlock - sAndBlock)
  let m := m.write newBlock s
  (newBlock, m.fill (blockData newBlock) s 0)

/-- `align(s)`.  The test `s & 7 == 0` of the macro parses as `s & (7 == 0)`, which is never
true, so the second branch is always taken. -/
def align (s : Nat) : Nat := ((s / 8 + 1) * 8) % wordSpace

/-- `malloc_internal(s, expand)`; a failed allocation is the null pointer. -/
def mallocInternal (pf : Platform) (s : Nat) (expand : Bool) (h : Heap) :
    Except Fault (Nat × Heap) :=
  if pf.bigBlockThreshold < s then
    morecore pf ((s + sizeofBigBlock) % wordSpace) true h >>= fun
      | (none, h) => .ok (0, h)
      | (some b, h) =>
          let mem := h.mem.write (bigHeader b) s
          .ok (bigData b, { h with mem := setBigNext mem b h.firstBigBlock, firstBigBlock := b })
  else if pageIsFull pf h.mem h.lastPage || blockSize (h.mem (freeBlock h.mem h.lastPage)) < s then
    requestNewPage pf expand h >>= fun (newPage, h) =>
      let h := { h with mem := setPageNext h.mem h.lastPage newPage }
      if newPage = 0 then .ok (0, h)
      else
        let (b, mem) := mallocInPage pf s newPage h.mem
        .ok (blockData b, { h with mem := mem, lastPage := newPage })
  else
    let (b, mem) := mallocInPage pf s h.lastPage h.mem
    .ok (blockData b, { h with mem := mem })

/-- The initialisation of `first_page` at the head of both critical sections of `gcmalloc`;
`false` when the page was refused and `gcmalloc` returns the null pointer. -/
def initFirstPage (pf : Platform) (h : Heap) : Except Fault (Bool × Heap) :=
  if h.firstPage = 0 then
    requestNewPage pf true h >>= fun (newPage, h) =>
      if newPage = 0 then .ok (false, { h with firstPage := 0 })
      else .ok (true, { h with firstPage := newPage, lastPage := newPage })
  else .ok (true, h)

/-- One critical section of `gcmalloc(s)` under `malloc_mutex`: the first attempt is made with
`expand` false, the second, after `gc()`, with `expand` true. -/
def gcmallocLocked (pf : Platform) (s : Nat) (expand : Bool) (h : Heap) :
    Except Fault (Nat × Heap) :=
  initFirstPage pf h >>= fun
    | (false, h) => .ok (0, h)
    | (true, h) => mallocInternal pf (align s) expand h

end PreciseGc

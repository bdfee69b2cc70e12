import PreciseGc.Allocator.BigMappings
import PreciseGc.Sweep.FreeTails

/-!
# Page sizes and the length of `free_blocks`

The array `free_blocks` has an entry for every free tail of a page of eight
kilobytes.  With pages of that size or smaller no sweep indexes it out of
bounds.  On larger pages the first evacuation of a sweep without pinned blocks
does so, whatever is allocated.
-/

namespace PreciseGc

open Foundation Memory

variable {pf : Platform} {threads : ThreadRoots} {h h₁ : Heap} {c : Census} {bigs : List Nat}
  {p q fuel : Nat}

theorem sweepBigBlocks_inBounds :
    Yields (· ≠ .indexOutOfBounds) (fun _ => True) (sweepBigBlocks pf fuel h) := by
  have walked : Yields (· ≠ .indexOutOfBounds) (fun _ => True) (walk (fun big _ => big == 0)
      (sweepBigBlock pf) Fault.outOfFuel fuel h.firstBigBlock ⟨h, 0⟩) := by
    refine walk_keeps (fun big s _ => ⟨by decide, ?_⟩) fuel trivial
    unfold sweepBigBlock
    dsimp only
    split <;> trivial
  exact walked.bind fun _ _ => trivial

/-- The evacuation keeps the free tails it has linked within the bounds of the array. -/
theorem Classified.evacuatePages_inBounds {s₁ : SweepState} {c₁ : Census}
    (entered : Classified pf h c s₁ c₁) (small : pf.bigBlockThreshold < freeBlocksLength) :
    Yields (· ≠ .indexOutOfBounds)
      (fun s => BucketKeys s.heap ∧ s.heap.maxFreeBlock < freeBlocksLength)
      (evacuatePages pf fuel s₁) := by
  have more : fuel ≤ fuel + c₁.fromSpace.length + pf.pageSize + 1 := by omega
  have pages : c₁.fromSpace.length < fuel + c₁.fromSpace.length + pf.pageSize + 1 := by omega
  have blocks : ∀ q ∈ c₁.fromSpace,
      (c₁.blocks q).length < fuel + c₁.fromSpace.length + pf.pageSize + 1 := by
    intro q mem
    have few := blocks_length_lt entered.start.arena (Evacuating.fromTiled mem)
    omega
  have inv := entered.start.evacuating s₁.prevPage entered.buckets entered.maxBound
  apply (evacuatePages_extends more s₁).yields _ (by decide)
  refine ((inv.evacuatePages_yields entered.start pages blocks).permit ?_).mono ?_
  rotate_left
  · rintro s ⟨moved, c₂, inv₂⟩
    have maxBound := inv₂.maxBound
    exact ⟨inv₂.buckets.keys inv₂.arena fun q mem => Classifying.tiled_of_alive mem, by omega⟩
  · rintro fault (refused | ⟨failed, _⟩) isIndex
    · cases refused.symm.trans isIndex
    · cases failed.symm.trans isIndex

/-- So do the passes up to the redirecting of pointers. -/
theorem AllocatorOk.sweepHalf_inBounds (ok : AllocatorOk pf h c bigs)
    (small : pf.bigBlockThreshold < freeBlocksLength) :
    Yields (· ≠ .indexOutOfBounds)
      (fun s => BucketKeys s.heap ∧ s.heap.maxFreeBlock < freeBlocksLength)
      (sweepHalf pf fuel h) := by
  have exhausts : Fault.outOfFuel ≠ .indexOutOfBounds := by decide
  unfold sweepHalf evacuate
  cases swept : sweepBigBlocks pf fuel h with
  | error fault => exact sweepBigBlocks_inBounds.of_error swept
  | ok h₁ =>
      rcases ok.classifies small swept with ⟨_, enough, more, s, kept, c₁, eq, _⟩
      have ends : Yields (· ≠ .indexOutOfBounds) (· = s)
          (classifyPages pf fuel { h₁ with maxFreeBlock := 0, lastPage := 0 }) := by
        apply (classifyPages_extends more _).yields _ exhausts
        rw [eq]
        rfl
      change Yields _ _ (classifyPages pf fuel { h₁ with maxFreeBlock := 0, lastPage := 0 } >>=
        evacuatePages pf fuel)
      cases classified : classifyPages pf fuel { h₁ with maxFreeBlock := 0, lastPage := 0 } with
      | error fault => exact ends.of_error classified
      | ok s₁ =>
          rcases ok.classified small swept classified with ⟨c₁, entered⟩
          exact (entered.evacuatePages_inBounds small)

/-- On pages whose free tails all have an entry, no sweep indexes `free_blocks` out of bounds. -/
theorem AllocatorOk.sweep_inBounds (ok : AllocatorOk pf h c bigs)
    (small : pf.bigBlockThreshold < freeBlocksLength) :
    Yields (· ≠ .indexOutOfBounds) (fun _ => True) (sweep pf fuel threads h) := by
  rw [sweep_eq]
  apply (ok.sweepHalf_inBounds small).bind
  rintro s ⟨keys, bounded⟩
  exact (sweepEnd_clears keys bounded).mono fun _ _ => trivial

/-- The heap holds one block, of sixteen bytes, and has pages left. -/
structure OneBlock (h : Heap) (p header : Nat) : Prop where
  firstPage : h.firstPage = p
  nonnull : p ≠ 0
  last : pageNext h.mem p = 0
  free : freeBlock h.mem p = firstBlock p + 24
  header : h.mem (firstBlock p) = header
  pagesLeft : h.freeList ≠ 0
  noBigs : h.firstBigBlock = 0

theorem requestNewPage_of_free (pagesLeft : h.freeList ≠ 0) (expand : Bool) :
    requestNewPage pf expand h = .ok (takePage pf h) := by
  rw [requestNewPage, if_neg pagesLeft]

theorem OneBlock.inUse (one : OneBlock h p 16) : InUse h (firstBlock p) := by
  have size : blockSize 16 = 16 := by decide
  have extent : blockExtent h.mem (firstBlock p) = 24 := by
    rw [blockExtent, one.header, size, sizeofBlock]
  have tiles : Tiles (blockExtent h.mem) (firstBlock p) (freeBlock h.mem p) [firstBlock p] := by
    refine ⟨rfl, by omega, ?_⟩
    rw [extent, one.free, Tiles.nil_iff]
  exact Or.inl ⟨[p], p, _, ⟨one.firstPage, one.nonnull, one.last⟩, by simp, tiles, by simp⟩

theorem OneBlock.mark (one : OneBlock h p 16) :
    OneBlock { h with mem := mark (blockData (firstBlock p)) h.mem } p 18 := by
  have isHeader : getBlock (blockData (firstBlock p)) = firstBlock p := by
    simp [getBlock, blockData]
  have frame : ∀ x, x < firstBlock p →
      PreciseGc.mark (blockData (firstBlock p)) h.mem x = h.mem x := by
    intro x below
    rw [PreciseGc.mark, isHeader, write_of_ne (by omega)]
  refine ⟨one.firstPage, one.nonnull, ?_, ?_, ?_, one.pagesLeft, one.noBigs⟩
  · exact (frame p (by simp [firstBlock, sizeofPage])).trans one.last
  · exact (frame (p + 8) (by simp [firstBlock, sizeofPage])).trans one.free
  · dsimp only
    rw [PreciseGc.mark, isHeader, write_same, one.header]
    decide

/-- The evacuation of the only block of the heap begins with the bucket of a whole page. -/
theorem OneBlock.sweep (one : OneBlock h p 18)
    (large : freeBlocksLength ≤ pf.bigBlockThreshold) :
    sweep pf 2 threads h = .error .indexOutOfBounds := by
  rcases one with ⟨rfl, nonnull, last, free, header, pagesLeft, noBigs⟩
  have flags : blockIsPinned 18 = false ∧ blockIsMarked 18 = true ∧ blockIsDead 18 = false := by
    decide
  have size : blockSize 18 = 16 := by decide
  have notFree : firstBlock h.firstPage ≠ firstBlock h.firstPage + 24 := by omega
  have swept : sweepBigBlocks pf 2 h = .ok h := by
    simp [sweepBigBlocks, walk, noBigs, bind, Except.bind]
  have found : findPinned h.mem h.firstPage 2 (firstBlock h.firstPage) =
      .ok (firstBlock h.firstPage + 24) := by
    simp [findPinned, free, header, flags, nextBlock, size, sizeofBlock]
  have classified : classifyPages pf 2 { h with maxFreeBlock := 0, lastPage := 0 } =
      .ok ⟨{ h with maxFreeBlock := 0, lastPage := 0 }, 0, h.firstPage⟩ := by
    simp [classifyPages, walk, classifyPage, nonnull, found, free, last, bind, Except.bind]
  have outside : checkIndex pf.bigBlockThreshold = .error .indexOutOfBounds :=
    if_neg (Nat.not_lt.mpr large)
  have evacuated : evacuatePages pf 2
      ⟨{ h with maxFreeBlock := 0, lastPage := 0 }, 0, h.firstPage⟩ =
        .error .indexOutOfBounds := by
    have requested := @requestNewPage_of_free pf
      { h with maxFreeBlock := 0, lastPage := 0 } pagesLeft true
    simp [evacuatePages, forPages, evacuatePage, walk, evacuateBlock, ensureAlivePage, nonnull,
      free, header, flags, requested, takePage, pagesLeft, outside, bind, Except.bind]
  rw [PreciseGc.sweep, swept]
  simp only [sweepPages, classified, evacuated, bind, Except.bind]

/-- A heap that has taken its first page from its first mapping. -/
structure FirstPage (pf : Platform) (h : Heap) (p : Nat) : Prop where
  nonnull : p ≠ 0
  last : pageNext h.mem p = 0
  free : freeBlock h.mem p = firstBlock p
  header : h.mem (firstBlock p) = pf.bigBlockThreshold
  pagesLeft : h.freeList ≠ 0
  noBigs : h.firstBigBlock = 0

/-- Of two new pages or more one is left when the first is taken. -/
theorem linkNewPages_two {count start : Nat} (two : 2 ≤ count) (positive : 0 < start)
    (noPages : h.freeList = 0) :
    (linkNewPages pf count start h).firstBigBlock = h.firstBigBlock ∧ ∃ q r rest,
      Chain (pageNext (linkNewPages pf count start h).mem) (linkNewPages pf count start h).freeList
        (q :: r :: rest) := by
  rcases linkNewPages_spec pf count start h [] positive noPages (by simp) with
    ⟨mem, head, linked, chain, _⟩
  have length : (newPages pf count start).reverse.length = count := by simp [newPages]
  rw [linked]
  refine ⟨rfl, ?_⟩
  cases pages : (newPages pf count start).reverse with
  | nil =>
      rw [pages, List.length_nil] at length
      omega
  | cons q others =>
      cases others with
      | nil =>
          rw [pages, List.length_singleton] at length
          omega
      | cons r rest =>
          rw [pages, List.append_nil] at chain
          exact ⟨q, r, rest, chain⟩

/-- A page is initialised when it is taken. -/
theorem takePage_firstPage {rest : List Nat}
    (chain : Chain (pageNext h.mem) h.freeList (p :: q :: rest)) (noBigs : h.firstBigBlock = 0) :
    (takePage pf h).1 = p ∧ FirstPage pf (takePage pf h).2 p := by
  rcases chain with ⟨rfl, nonnull, isNext, qNonnull, _⟩
  have taken : (takePage pf h).2.mem = ((h.mem.write h.freeList 0).write (h.freeList + 8)
      (h.freeList + 16)).write (h.freeList + 16) pf.bigBlockThreshold := by
    simp [takePage, setPageNext, setFreeBlock, freeBlock, firstBlock, sizeofPage]
  refine ⟨rfl, nonnull, ?_, ?_, ?_, ne_of_eq_of_ne isNext qNonnull, noBigs⟩
  · rw [taken, pageNext, write_of_ne (by omega), write_of_ne (by omega), write_same]
  · rw [taken, freeBlock, write_of_ne (by omega), write_same]
    rfl
  · rw [taken, firstBlock, sizeofPage, write_same]

/-- A mapping that is granted has a page to take, and another one behind it. -/
theorem requestNewPage_of_granted {start : Nat} (noPages : h.freeList = 0)
    (perMap : 2 ≤ h.pagePerMap) (noBigs : h.firstBigBlock = 0)
    (answer : pf.mmap h.mmapCalls h.mappings (h.pagePerMap * pf.pageSize % wordSpace) =
      some start) :
    ∃ p h', requestNewPage pf true h = .ok (p, h') ∧ FirstPage pf h' p := by
  have nonnull := (pf.mmap_fresh answer).nonnull
  obtain ⟨h₁, mapped, noPages₁, perMap₁, noBigs₁⟩ : ∃ h₁,
      morecore pf (h.pagePerMap * pf.pageSize % wordSpace) false h = .ok (some start, h₁) ∧
        h₁.freeList = 0 ∧ 2 ≤ h₁.pagePerMap ∧ h₁.firstBigBlock = 0 :=
    ⟨_, morecore_of_some answer, noPages, perMap, noBigs⟩
  rcases @linkNewPages_two pf h₁ h₁.pagePerMap start perMap₁ nonnull noPages₁ with
    ⟨sameBigs, p, q, rest, chain⟩
  have expanded : expandFreeList pf h = .ok (true, { linkNewPages pf h₁.pagePerMap start h₁ with
      pagePerMap := (linkNewPages pf h₁.pagePerMap start h₁).pagePerMap * expandFactor }) := by
    simp only [expandFreeList, mapped, bind, Except.bind]
  rcases @takePage_firstPage pf { linkNewPages pf h₁.pagePerMap start h₁ with
      pagePerMap := (linkNewPages pf h₁.pagePerMap start h₁).pagePerMap * expandFactor }
    p q rest chain (sameBigs.trans noBigs₁) with
    ⟨isFirst, first⟩
  refine ⟨p, _, ?_, first⟩
  rw [← isFirst]
  simp [requestNewPage, noPages, expanded, bind, Except.bind]

/-- A small request is served from the first page. -/
theorem FirstPage.oneBlock (first : FirstPage pf h p) :
    ∃ h', mallocInternal pf 16 true { h with firstPage := p, lastPage := p } =
        .ok (blockData (firstBlock p), h') ∧ OneBlock h' p 16 := by
  rcases first with ⟨nonnull, last, free, header, pagesLeft, noBigs⟩
  have large := pf.pageSize_ge
  have threshold := pf.bigBlockThreshold_add
  have pageAligned := pf.pageSize_mod
  have room : blockSize (h.mem (firstBlock p)) = pf.bigBlockThreshold := by
    rw [header, blockSize_of_aligned (by omega)]
  have notFull : pageIsFull pf h.mem p = false := by
    simp only [pageIsFull, free, firstBlock, sizeofPage, sizeofBlock, decide_eq_false_iff_not]
    omega
  have isSmall : ¬pf.bigBlockThreshold < 16 := by omega
  have served : mallocInternal pf 16 true { h with firstPage := p, lastPage := p } =
      .ok (blockData (mallocInPage pf 16 p h.mem).1,
        { h with
          firstPage := p
          lastPage := p
          mem := (mallocInPage pf 16 p h.mem).2 }) := by
    simp [mallocInternal, isSmall, notFull, free, room]
  have notFull' : pageIsFull pf (h.mem.write (p + 8) (firstBlock p + 24)) p = false := by
    rw [pageIsFull_eq_false_iff, freeBlock, write_same]
    simp only [firstBlock, sizeofPage]
    omega
  have written : ∃ rest, mallocInPage pf 16 p h.mem = (firstBlock p,
      (((h.mem.write (p + 8) (firstBlock p + 24)).write (firstBlock p + 24) rest).write
        (firstBlock p) 16).fill (firstBlock p + 8) 16 0) := by
    refine ⟨(h.mem.write (p + 8) (firstBlock p + 24)) (firstBlock p) - 24, ?_⟩
    have tail : freeBlock (h.mem.write (p + 8) (firstBlock p + 24)) p = firstBlock p + 24 := by
      rw [freeBlock, write_same]
    simp [mallocInPage, setFreeBlock, free, notFull', tail, sizeofBlock, blockData]
  rcases written with ⟨rest, written⟩
  rw [written] at served
  refine ⟨_, served, rfl, nonnull, ?_, ?_, ?_, pagesLeft, noBigs⟩
  · simp only [pageNext, firstBlock, sizeofPage] at last ⊢
    rw [fill_of_not_mem (by omega), write_of_ne (by omega), write_of_ne (by omega),
      write_of_ne (by omega), last]
  · simp only [freeBlock, firstBlock, sizeofPage]
    rw [fill_of_not_mem (by omega), write_of_ne (by omega), write_of_ne (by omega), write_same]
  · dsimp only
    rw [fill_of_not_mem (by omega), write_same]

/-- No sweep of the heap indexes `free_blocks` out of bounds. -/
def IndicesInBounds (pf : Platform) (h : Heap) : Prop :=
  ∀ fuel threads, sweep pf fuel threads h ≠ .error .indexOutOfBounds

/-- With large pages, when the first mapping is granted, there is a heap with a sweep that does. -/
theorem exists_outOfBounds {allowed : ThreadRoots → Heap → Prop} {start : Nat}
    (large : freeBlocksLength ≤ pf.bigBlockThreshold)
    (answer : pf.mmap 0 [] (32 * pf.pageSize % wordSpace) = some start) :
    ∃ h, Runs pf allowed h ∧ ¬IndicesInBounds pf h := by
  rcases @requestNewPage_of_granted pf emptyHeap start rfl (by decide) rfl answer with
    ⟨p, h, requested, first⟩
  rcases first.oneBlock with ⟨h', served, one⟩
  have allocated : gcmallocLocked pf 8 true emptyHeap = .ok (blockData (firstBlock p), h') := by
    have isEmpty : emptyHeap.firstPage = 0 := rfl
    have size : align 8 = 16 := by decide
    simp [gcmallocLocked, initFirstPage, isEmpty, requested, first.nonnull, size, served, bind,
      Except.bind]
  have run : Runs pf allowed h' :=
    (Reachable.start emptyHeap_initial).next (Step.gcmalloc (by decide) allocated)
  exact ⟨_, run.next (Step.mark one.inUse), fun inBounds => inBounds 2 [] (one.mark.sweep large)⟩

/-- A system with pages of `2 ^ k` bytes that grants one mapping, behind the first page. -/
def grantsOnce (k : Nat) (large : 12 ≤ k) : Platform where
  pageSize := 2 ^ k
  ndebug := false
  mmap _ mappings length :=
    if mappings = [] ∧ 0 < length ∧ 2 ^ k + roundToPages (2 ^ k) length < wordSpace then
      some (2 ^ k)
    else none
  pageSize_pow := ⟨k, large, rfl⟩
  mmap_fresh := by
    intro call mappings length start answer
    split at answer
    · rename_i granted
      rcases granted with ⟨rfl, nonempty, inside⟩
      cases answer
      exact ⟨nonempty, Nat.dvd_refl _, Nat.two_pow_pos k, inside, by simp⟩
    · cases answer

theorem grantsOnce_outOfBounds {k : Nat} (large : 12 ≤ k) (beyond : 8192 < 2 ^ k)
    (fits : 32 * 2 ^ k < wordSpace) {allowed : ThreadRoots → Heap → Prop} :
    ∃ h, Runs (grantsOnce k large) allowed h ∧ ¬IndicesInBounds (grantsOnce k large) h := by
  have threshold := (grantsOnce k large).bigBlockThreshold_add
  have size : (grantsOnce k large).pageSize = 2 ^ k := rfl
  have power : 14 ≤ k := by
    by_contra less
    have : 2 ^ k ≤ 2 ^ 13 := Nat.pow_le_pow_right (by decide) (by omega)
    omega
  have least : 2 ^ 14 ≤ 2 ^ k := Nat.pow_le_pow_right (by decide) power
  have few : k ≤ 58 := by
    by_contra more
    have : 2 ^ 59 ≤ 2 ^ k := Nat.pow_le_pow_right (by decide) (by omega)
    simp only [wordSpace] at fits
    omega
  have most : 2 ^ k ≤ 2 ^ 58 := Nat.pow_le_pow_right (by decide) few
  apply exists_outOfBounds
  · simp only [freeBlocksLength]
    omega
  · rw [size, Nat.mod_eq_of_lt fits]
    have rounded : roundToPages (2 ^ k) (32 * 2 ^ k) = 32 * 2 ^ k :=
      roundToPages_mul (grantsOnce k large) 32
    simp only [wordSpace] at fits
    simp only [grantsOnce, rounded, wordSpace]
    exact if_pos ⟨trivial, by omega, by omega⟩

/-- The indices are in bounds for the page sizes up to eight kilobytes, and for no larger one: when
the first mapping fits into the address space, a heap built by `gcmalloc` has a sweep that uses an
index out of bounds. -/
theorem runs_indices {pageSize : Nat} :
    (pageSize ≤ 8192 → ∀ {pf h c bigs}, pf.pageSize = pageSize → Collections pf h →
      TiledHeap pf h c bigs → IndicesInBounds pf h) ∧
    (∀ {pf h}, Runs pf (PlainObjects pf) h → Collections pf h ∧ ∃ c bigs, TiledHeap pf h c bigs) ∧
    ∀ k, pageSize = 2 ^ k → 8192 < pageSize → 32 * pageSize < wordSpace →
      ∃ pf h, pf.pageSize = pageSize ∧ Runs pf (PlainObjects pf) h ∧ ¬IndicesInBounds pf h := by
  refine ⟨?_, Runs.tiledHeap, ?_⟩
  · rintro few pf h c bigs rfl run tiled fuel threads
    have small : pf.bigBlockThreshold < freeBlocksLength := by
      have := pf.bigBlockThreshold_add
      simp only [freeBlocksLength]
      omega
    have ok := tiled.allocatorOk (run.noBuckets small)
    exact fun failed => (ok.sweep_inBounds small).of_error failed rfl
  · rintro k rfl beyond fits
    have large : 12 ≤ k := by
      by_contra less
      have : 2 ^ k ≤ 2 ^ 11 := Nat.pow_le_pow_right (by decide) (by omega)
      omega
    rcases grantsOnce_outOfBounds large beyond fits with ⟨h, run, outside⟩
    exact ⟨grantsOnce k large, h, rfl, run, outside⟩

/-- Pages of four kilobytes, one object to move and one that is pinned. -/
theorem runs_indices_survivorHeap : ∃ h, blockIsMarked (h.mem 1175568) = true ∧
    blockIsPinned (h.mem 1171472) = true ∧ (∃ h', sweep oneMapping 10 [[131200]] h = .ok h') ∧
      IndicesInBounds oneMapping h := by
  rcases survivorHeap_runs with ⟨h, h', _, _, run, isMarked, isPinned, swept, _⟩
  rcases (@runs_indices 4096).2.1 run with ⟨collections, c, bigs, tiled⟩
  exact ⟨h, isMarked, isPinned, ⟨h', swept⟩,
    (@runs_indices 4096).1 (by decide) rfl collections tiled⟩

/-- Pages of sixteen kilobytes. -/
theorem runs_indices_sixteenKiB : ∃ pf h, pf.pageSize = 16384 ∧ Runs pf (PlainObjects pf) h ∧
    ¬IndicesInBounds pf h := by
  have large : 12 ≤ 14 := by decide
  rcases grantsOnce_outOfBounds large (by decide) (by decide) with ⟨h, run, outside⟩
  exact ⟨grantsOnce 14 large, h, rfl, run, outside⟩

end PreciseGc

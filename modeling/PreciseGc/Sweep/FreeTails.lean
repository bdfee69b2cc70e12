import PreciseGc.Allocator.Runs
import PreciseGc.Sweep.Relocation

/-!
# Free tails over the iterations of a sweep

`free_blocks` is a static: what a collection leaves in it the next one finds.
In a run of collections every sweep starts with empty buckets and clears those
it has filled.  At the start of every iteration of its evacuation loop the
buckets list exactly the pages in use that are not full, so `copy_block` finds
a sufficient tail where there is one.
-/

namespace PreciseGc

open Foundation Memory

variable {pf : Platform} {threads : ThreadRoots} {h h' h₀ h₁ : Heap} {c c₀ c₁ c₂ : Census}
  {bigs todo later kept : List Nat} {b k p fuel : Nat} {s s₁ : SweepState}
  {moved : List (Nat × Nat)} {listed : Nat → Prop}

/-- The pages in use are tiled by their blocks, the other pages are free, and the big blocks have
mappings of their own. -/
structure TiledHeap (pf : Platform) (h : Heap) (c : Census) (bigs : List Nat) : Prop where
  arena : Arena pf 0 h.firstPage h c
  heldNil : c.held = []
  fromNil : c.fromSpace = []
  big : BigBlocks pf h c bigs

theorem TiledHeap.allocatorOk (tiled : TiledHeap pf h c bigs) (null : ∀ k, h.freeBlocks k = 0) :
    AllocatorOk pf h c bigs :=
  { tiled with noBuckets := null }

/-- The steps of a run: a sweep of pages tiled by their blocks, or whatever happens between two
sweeps, where nothing touches `free_blocks`. -/
inductive CollectionStep (pf : Platform) : Heap → Heap → Prop where
  | elsewhere {h h' : Heap} : h'.freeBlocks = h.freeBlocks → CollectionStep pf h h'
  | sweep {h h' : Heap} {c : Census} {bigs : List Nat} {threads : ThreadRoots} {fuel : Nat} :
      TiledHeap pf h c bigs → sweep pf fuel threads h = .ok h' → CollectionStep pf h h'

/-- The heaps of a run of collections, which starts with the static `free_blocks` null. -/
def Collections (pf : Platform) : Heap → Prop :=
  Reachable (fun h => ∀ k, h.freeBlocks k = 0) (CollectionStep pf)

/-- The evacuation in a sweep of `h` gets to the page `p` of the list `first_page`, or to the end of
the list with `p` null. -/
def VisitsPage (pf : Platform) (fuel : Nat) (h : Heap) (p : Nat) (s : SweepState) : Prop :=
  ∃ h₁ s₁, sweepBigBlocks pf fuel h = .ok h₁ ∧
    classifyPages pf fuel { h₁ with maxFreeBlock := 0, lastPage := 0 } = .ok s₁ ∧
      Visits (fun p _ => p == 0)
        (fun p s => evacuatePage pf fuel p s >>= fun s => .ok (pageNext s.heap.mem p, s))
        s₁.heap.firstPage s₁ p s

/-- The evacuation in a sweep of `h` gets to the block `b` of the page `p`, or to the free block of
the page. -/
def VisitsBlock (pf : Platform) (fuel : Nat) (h : Heap) (p b : Nat) (s : SweepState) : Prop :=
  ∃ s₀, VisitsPage pf fuel h p s₀ ∧ p ≠ 0 ∧
    Visits (fun b (s : SweepState) => b == freeBlock s.heap.mem p)
      (fun b s => evacuateBlock pf b s >>= fun s => .ok (nextBlock s.heap.mem b, s))
      (firstBlock p) s₀ b s

/-- The page is in the list `free_blocks[k]`. -/
def InBucket (h : Heap) (k p : Nat) : Prop :=
  ∃ pages, Chain (nextFreeBlock h.mem) (h.freeBlocks k) pages ∧ p ∈ pages

/-- The buckets in a state of the evacuation in a sweep of `h`, where `fromSpace` and `alive` are
the pages of the lists `first_page` and `alive_pages`. -/
structure FreeTails (pf : Platform) (h : Heap) (c : Census) (s : SweepState)
    (fromSpace alive : List Nat) : Prop where
  fromChain : Chain (pageNext s.heap.mem) s.heap.firstPage fromSpace
  aliveChain : Chain (pageNext s.heap.mem) s.alivePages alive
  mem_fromSpace : ∀ p, p ∈ fromSpace ↔ p ∈ c.alive ∧ ¬HasPinned h.mem c p
  /-- the other pages in use have been requested in this sweep -/
  mem_alive : ∀ p ∈ c.alive, p ∈ alive ↔ HasPinned h.mem c p
  lists : ∀ k, ∃ pages, Chain (nextFreeBlock s.heap.mem) (s.heap.freeBlocks k) pages ∧ pages.Nodup
  listed : ∀ p ∈ alive, pageIsFull pf s.heap.mem p = false →
    ∀ k, InBucket s.heap k p ↔ k = blockSize (s.heap.mem (freeBlock s.heap.mem p))
  full : ∀ p, pageIsFull pf s.heap.mem p = true → ∀ k, ¬InBucket s.heap k p
  fromSpace : ∀ p ∈ fromSpace, ∀ k, ¬InBucket s.heap k p
  keys : ∀ k, s.heap.freeBlocks k ≠ 0 → 0 < k ∧ k % 8 = 0 ∧ k ≤ s.heap.maxFreeBlock

/-- The tail of the page has room for a block of `size` bytes. -/
def Sufficient (pf : Platform) (h : Heap) (alive : List Nat) (size q : Nat) : Prop :=
  q ∈ alive ∧ pageIsFull pf h.mem q = false ∧ size ≤ blockSize (h.mem (freeBlock h.mem q))

/-- `copy_block(b)` allocates in a page in use if one has a sufficient tail, and writes no word but
those of the page it allocates in, the forwarding pointer of `b`, and the link to a page it has
requested. -/
structure CopySafe (pf : Platform) (h : Heap) (alive : List Nat) (b : Nat) : Prop where
  found : (∃ q, Sufficient pf h alive (blockSize (h.mem b)) q) →
    ∃ q freeBlocks, Sufficient pf h alive (blockSize (h.mem b)) q ∧
      pageForCopy pf (blockSize (h.mem b)) h = .ok (q, { h with freeBlocks := freeBlocks })
  inside : ∀ h', copyBlock pf b h = .ok h' →
    ∃ q new, forwardPointer h'.mem b = blockData new ∧ firstBlock q ≤ new ∧
      blockData new + blockSize (h.mem b) ≤ q + pf.pageSize ∧
        ChangedWithin h h' fun x =>
          InPage pf q x ∨ x = blockData b ∨ q ∉ alive ∧ x = h.lastPage

theorem Buckets.inBucket_iff (buckets : Buckets pf h listed) :
    InBucket h k p ↔
      listed p ∧ pageIsFull pf h.mem p = false ∧ h.mem (freeBlock h.mem p) = k := by
  rcases buckets with ⟨lists, ok⟩
  rw [← ok.mem_iff k p]
  constructor
  · rintro ⟨pages, chain, mem⟩
    have same := chain.unique (ok.chain k)
    rwa [← same]
  · exact fun mem => ⟨lists k, ok.chain k, mem⟩

/-- The search gets to an occupied bucket that it runs through. -/
theorem findFreeTail_finds {size : Nat} (count : Nat) (small : h.maxFreeBlock < freeBlocksLength)
    (occupied : h.freeBlocks k ≠ 0) (lower : size ≤ k) (upper : k ≤ h.maxFreeBlock)
    (congruent : k % 8 = size % 8) (enough : k < size + 8 * count) :
    ∃ q h', findFreeTail count size h = .ok (q, h') ∧ q ≠ 0 := by
  induction count generalizing size with
  | zero => omega
  | succ count ih =>
      rw [findFreeTail, if_neg (by omega), checkIndex_of_lt (by omega)]
      change ∃ q h', (if h.freeBlocks size ≠ 0 then _ else _) = Except.ok (q, h') ∧ _
      split
      · rename_i found
        exact ⟨_, _, rfl, found⟩
      · rename_i isEmpty
        apply ih
        · by_contra below
          have : k = size := by omega
          subst this
          exact isEmpty occupied
        · omega
        · omega

theorem pageForCopy_of_found {size q : Nat}
    (found : findFreeTail (h.maxFreeBlock + 1) size h = .ok (q, h')) (nonnull : q ≠ 0) :
    pageForCopy pf size h = .ok (q, h') := by
  unfold pageForCopy
  rw [found]
  exact if_pos nonnull

/-- A sweep of `h` in which the evacuation starts with the state `s₁`. -/
structure Classified (pf : Platform) (h : Heap) (c : Census) (s₁ : SweepState) (c₁ : Census) :
    Prop where
  start : EvacuationStart pf s₁.alivePages s₁.heap c₁
  buckets : Buckets pf s₁.heap (· ∈ c₁.alive)
  maxBound : s₁.heap.maxFreeBlock ≤ pf.bigBlockThreshold
  mem_fromSpace : ∀ q, q ∈ c₁.fromSpace ↔ q ∈ c.alive ∧ ¬HasPinned h.mem c q
  mem_alive : ∀ q, q ∈ c₁.alive ↔ q ∈ c.alive ∧ HasPinned h.mem c q

/-- With sufficient fuel the first pass ends. -/
theorem AllocatorOk.classifies (ok : AllocatorOk pf h c bigs)
    (small : pf.bigBlockThreshold < freeBlocksLength)
    (swept : sweepBigBlocks pf fuel h = .ok h₁) :
    BigSwept pf h c bigs h₁ ∧ ∃ enough, fuel ≤ enough ∧ ∃ s kept c₁,
      classifyPages pf enough { h₁ with maxFreeBlock := 0, lastPage := 0 } = .ok s ∧
        Classifying pf { h₁ with maxFreeBlock := 0, lastPage := 0 } c.toSweep kept [] s c₁ := by
  -- fuel is no matter: with more of it the pass over the big blocks ends in the same heap
  have enough : sweepFuel pf c bigs ≤ max fuel (sweepFuel pf c bigs) := Nat.le_max_right _ _
  have more : fuel ≤ max fuel (sweepFuel pf c bigs) := Nat.le_max_left _ _
  have bigFuel : bigs.length < max fuel (sweepFuel pf c bigs) := by
    apply Nat.lt_of_lt_of_le _ enough
    simp only [sweepFuel]
    omega
  have pageFuel : c.alive.length < max fuel (sweepFuel pf c bigs) := by
    apply Nat.lt_of_lt_of_le _ enough
    simp only [sweepFuel, Nat.add_mul, Nat.mul_add]
    omega
  have blockFuel : ∀ q ∈ c.alive, (c.blocks q).length < max fuel (sweepFuel pf c bigs) :=
    fun q mem => Nat.lt_trans (blocks_length_lt ok.arena (Classifying.tiled_of_alive mem))
      (pageSize_lt_of_sweepFuel enough)
  rcases sweepBigBlocks_spec ok.big bigFuel with ⟨h₂, eq, isSwept⟩
  rw [(sweepBigBlocks_extends more h).approximates h₁ swept] at eq
  cases eq
  exact ⟨isSwept, _, more, classifyPages_spec (ok.sweepable small isSwept) pageFuel blockFuel⟩

theorem AllocatorOk.classified (ok : AllocatorOk pf h c bigs)
    (small : pf.bigBlockThreshold < freeBlocksLength) (swept : sweepBigBlocks pf fuel h = .ok h₁)
    (classified : classifyPages pf fuel { h₁ with maxFreeBlock := 0, lastPage := 0 } = .ok s₁) :
    ∃ c₁, Classified pf h c s₁ c₁ := by
  rcases ok.classifies small swept with ⟨isSwept, enough, more, s₂, kept, c₁, eq, inv⟩
  have ready := ok.sweepable small isSwept
  rw [(classifyPages_extends more _).approximates s₁ classified] at eq
  cases eq
  have pinned : ∀ q ∈ c.alive, HasPinned h₁.mem c.toSweep q ↔ HasPinned h.mem c q := by
    intro q mem
    apply exists_congr
    intro d
    apply and_congr_right
    intro dMem
    have qTiled := Classifying.tiled_of_alive mem
    have bounds := (ok.arena.pageOk q qTiled).block_bounds dMem
    rw [isSwept.page_eq ok.big (Arena.tiled_pages qTiled) (by omega) (by omega)]
  have left : ∀ q, q ∈ c₁.fromSpace ↔ q ∈ c.alive ∧ ¬HasPinned h.mem c q := by
    intro q
    rw [inv.mem_fromSpace_iff ready]
    apply and_congr_right
    exact fun mem => not_congr (pinned q mem)
  refine ⟨c₁, inv.evacuationStart ready, inv.buckets, inv.maxBound, left, fun q => ?_⟩
  constructor
  · intro mem
    have used : q ∈ c.alive := (inv.mem_parts ready).mpr (Or.inr mem)
    exact ⟨used, (pinned q used).mp (inv.pinned q mem)⟩
  · rintro ⟨used, isPinned⟩
    apply ((inv.mem_parts ready).mp used).resolve_left
    exact fun mem => ((left q).mp mem).2 isPinned

/-- The loop over the blocks of a page, when it returns. -/
theorem Evacuating.evacuatePage_keeps
    (inv : Evacuating pf h₀ c₀ (c₀.blocks p ++ later) moved s c)
    (start : EvacuationStart pf b h₀ c₀) (inFrom : p ∈ c₀.fromSpace) :
    Yields (fun _ => True) (fun s' => ∃ moved' c', Evacuating pf h₀ c₀ later moved' s' c')
      (evacuatePage pf fuel p s) := by
  cases eq : evacuatePage pf fuel p s with
  | error fault => trivial
  | ok s' =>
      rcases visits_of_walk .start eq with ⟨cursor, visited, stopped⟩
      rcases visited.invariant (OnPage pf h₀ c₀ p later)
          (fun cursor s on => on.finished start inFrom)
          (fun d rest cursor s on => on.proceeds start inFrom) (OnPage.enter inv start inFrom) with
        ⟨rest, on⟩
      cases rest with
      | nil => exact on.inv
      | cons d rest =>
          rw [(on.proceeds start inFrom).1] at stopped
          cases stopped

/-- At every page that the evacuation gets to, its invariant holds. -/
theorem AllocatorOk.onPages (ok : AllocatorOk pf h c bigs)
    (small : pf.bigBlockThreshold < freeBlocksLength) (visits : VisitsPage pf fuel h p s) :
    ∃ s₁ c₁ pages, Classified pf h c s₁ c₁ ∧ OnPages pf s₁.heap c₁ pages p s := by
  rcases visits with ⟨h₁, s₁, swept, classified, visited⟩
  rcases ok.classified small swept classified with ⟨c₁, entered⟩
  have inv := entered.start.evacuating s₁.prevPage entered.buckets entered.maxBound
  have page : ∀ q pages cursor s, OnPages pf s₁.heap c₁ (q :: pages) cursor s →
      (cursor == 0) = false ∧
        Yields (fun _ => True) (fun next => OnPages pf s₁.heap c₁ pages next.1 next.2)
          (evacuatePage pf fuel cursor s >>= fun s => .ok (pageNext s.heap.mem cursor, s)) := by
    intro q pages cursor s on
    apply on.proceeds entered.start
    exact fun moved c inFrom inv => inv.evacuatePage_keeps entered.start inFrom
  rcases visited.invariant (OnPages pf s₁.heap c₁) (fun cursor s on => on.finished) page
      (OnPages.enter inv entered.start) with ⟨pages, on⟩
  exact ⟨s₁, c₁, pages, entered, on⟩

/-- At every block that the evacuation gets to, its invariant holds. -/
theorem AllocatorOk.onPage (ok : AllocatorOk pf h c bigs)
    (small : pf.bigBlockThreshold < freeBlocksLength) (visits : VisitsBlock pf fuel h p b s) :
    ∃ s₁ c₁ later rest, Classified pf h c s₁ c₁ ∧ p ∈ c₁.fromSpace ∧
      OnPage pf s₁.heap c₁ p later rest b s := by
  rcases visits with ⟨s₀, toPage, nonnull, visited⟩
  rcases ok.onPages small toPage with ⟨s₁, c₁, pages, entered, on⟩
  cases pages with
  | nil => exact absurd on.chain nonnull
  | cons q pages =>
      rcases on with ⟨⟨moved, c₂, inv⟩, ⟨rfl, _, _⟩, sub⟩
      have inFrom := sub p (by simp)
      rw [List.flatMap_cons] at inv
      rcases visited.invariant (OnPage pf s₁.heap c₁ p (pages.flatMap c₁.blocks))
          (fun cursor s on => on.finished entered.start inFrom)
          (fun d rest cursor s on => on.proceeds entered.start inFrom)
          (OnPage.enter inv entered.start inFrom) with ⟨rest, on⟩
      exact ⟨s₁, c₁, _, rest, entered, inFrom, on⟩

/-- The free tail of a page in use has no flags in its header. -/
theorem Arena.blockSize_tail {fromHead aliveHead : Nat} (arena : Arena pf fromHead aliveHead h c)
    {q : Nat} (mem : q ∈ c.alive) (notFull : pageIsFull pf h.mem q = false) :
    blockSize (h.mem (freeBlock h.mem q)) = h.mem (freeBlock h.mem q) := by
  have qTiled := Classifying.tiled_of_alive mem
  have aligned := mod_eight_of_page (arena.aligned q (Arena.tiled_pages qTiled))
  exact ((arena.pageOk q qTiled).tail_bounds aligned notFull).2.2.1

/-- The invariant of the evacuation is what the buckets are claimed to hold. -/
theorem Classified.freeTails (entered : Classified pf h c s₁ c₁)
    (inv : Evacuating pf s₁.heap c₁ todo moved s c₂) :
    FreeTails pf h c s c₂.fromSpace c₂.alive := by
  have notBoth : ∀ q ∈ c₂.fromSpace, q ∉ c₂.alive := fun q mem =>
    inv.arena.not_mem_alive_of_fromSpace mem
  refine
    { fromChain := inv.arena.fromChain, aliveChain := inv.arena.aliveChain, mem_fromSpace := ?_,
      mem_alive := ?_, lists := ?_, listed := ?_, full := ?_, fromSpace := ?_, keys := ?_ }
  · intro q
    rw [inv.fromSpace]
    exact entered.mem_fromSpace q
  · intro q used
    constructor
    · intro mem
      by_contra unpinned
      apply notBoth q _ mem
      rw [inv.fromSpace]
      exact (entered.mem_fromSpace q).mpr ⟨used, unpinned⟩
    · exact fun isPinned => (inv.aliveSub q ((entered.mem_alive q).mpr ⟨used, isPinned⟩)).1
  · intro k
    rcases inv.buckets with ⟨lists, ok⟩
    exact ⟨lists k, ok.chain k, ok.nodup k⟩
  · intro q mem notFull k
    rw [inv.buckets.inBucket_iff, inv.arena.blockSize_tail mem notFull]
    constructor
    · exact fun holds => holds.2.2.symm
    · exact fun same => ⟨mem, notFull, same.symm⟩
  · intro q full k inBucket
    rw [(inv.buckets.inBucket_iff.mp inBucket).2.1] at full
    cases full
  · intro q mem k inBucket
    exact notBoth q mem (inv.buckets.inBucket_iff.mp inBucket).1
  · intro k occupied
    have key := inv.buckets.keys inv.arena (fun q mem => Classifying.tiled_of_alive mem) k occupied
    exact ⟨by omega, key.2⟩

/-- In the copy the search sees all pages in use that are not full. -/
theorem Evacuating.copySafe (inv : Evacuating pf h₀ c₀ todo moved s c)
    (start : EvacuationStart pf p h₀ c₀) (nonempty : c.alive ≠ []) (inFrom : k ∈ c.fromSpace)
    (bMem : b ∈ c.blocks k) : CopySafe pf s.heap c.alive b := by
  have aliveTiled : ∀ q ∈ c.alive, q ∈ c.tiled := fun q mem => Classifying.tiled_of_alive mem
  have keys := inv.buckets.keys inv.arena aliveTiled
  have small := start.small
  have maxBound := inv.maxBound
  constructor
  · rintro ⟨q, mem, notFull, fits⟩
    rw [inv.arena.blockSize_tail mem notFull] at fits
    have occupied : s.heap.freeBlocks (s.heap.mem (freeBlock s.heap.mem q)) ≠ 0 := by
      rcases inv.buckets.inBucket_iff.mpr ⟨mem, notFull, rfl⟩ with ⟨pages, chain, inPages⟩
      intro isNull
      rw [chain.head_eq_zero_iff.mp isNull] at inPages
      cases inPages
    have key := keys _ occupied
    have sizeAligned := blockSize_mod (s.heap.mem b)
    have search := findFreeTail_finds (s.heap.maxFreeBlock + 1) (by omega) occupied fits key.2.2
      (by omega) (by omega)
    rcases search with ⟨q', h', eq, nonnull⟩
    rcases findFreeTail_spec inv.buckets (s := blockSize (s.heap.mem b)) (s.heap.maxFreeBlock + 1)
        (by omega) with ⟨q₂, h₂, eq₂, missing | ⟨_, isListed, notFull', fits', heapEq, _⟩⟩
    · rw [eq] at eq₂
      cases eq₂
      exact absurd missing.1 nonnull
    · rw [eq] at eq₂
      cases eq₂
      refine ⟨q', h'.freeBlocks, ⟨isListed, notFull', ?_⟩, ?_⟩
      · rw [inv.arena.blockSize_tail isListed notFull']
        exact fits'
      · rw [← heapEq]
        exact pageForCopy_of_found eq nonnull
  · intro h' returned
    rcases (copyBlock_yields inv.arena inv.heldNil nonempty inv.buckets small maxBound inFrom
      bMem).of_ok returned with ⟨c', q, new, copied⟩
    refine ⟨q, new, copied.forward, ?_, ?_, copied.writes⟩
    · simpa [firstBlock, sizeofPage] using copied.room.1
    · exact copied.room.2

/-- Nothing between the evacuation and the last loop touches the buckets. -/
def SameBuckets (h h' : Heap) : Prop :=
  h'.freeBlocks = h.freeBlocks ∧ h'.maxFreeBlock = h.maxFreeBlock

/-- The redirection of an object's pointers has no fault but its fuel. -/
theorem fixElements_fault (metaAddr size count i data : Nat) (m : Memory) :
    Yields (· = .outOfFuel) (fun _ => True) (fixElements metaAddr size count fuel i data m) := by
  induction fuel generalizing i data m with
  | zero => rfl
  | succ fuel ih =>
      rw [fixElements]
      split
      · apply ih
      · trivial

theorem fixBlock_sameBuckets (same : SameBuckets h₀ h) :
    Yields (· ≠ .indexOutOfBounds) (SameBuckets h₀) (fixBlock pf fuel b h) := by
  have checked : ∀ condition, Yields (· ≠ .indexOutOfBounds) (fun _ => True)
      (assertThat pf condition) := by
    intro condition
    unfold assertThat
    split
    · trivial
    · exact fun isIndex => Fault.noConfusion isIndex
  unfold fixBlock
  apply (checked _).bind
  intro _ _
  apply (checked _).bind
  intro _ _
  split
  · exact same
  · dsimp only
    split
    · exact same
    · have ended : ∀ fault, fault = Fault.outOfFuel → fault ≠ .indexOutOfBounds := by
        rintro _ rfl isIndex
        cases isIndex
      exact ((fixElements_fault _ _ _ _ _ _).permit ended).bind fun _ _ => same

theorem fixPages_sameBuckets :
    Yields (· ≠ .indexOutOfBounds) (SameBuckets h) (fixPages pf fuel p h) := by
  have ended : Fault.outOfFuel ≠ .indexOutOfBounds := by decide
  apply walk_keeps _ _ ⟨rfl, rfl⟩
  intro q h₁ same
  refine ⟨ended, Yields.bind (walk_keeps ?_ _ same) fun _ kept => kept⟩
  intro b h₂ same
  exact ⟨ended, (fixBlock_sameBuckets same).bind fun _ kept => kept⟩

theorem recyclePages_sameBuckets :
    Yields (· ≠ .indexOutOfBounds) (SameBuckets h) (recyclePages fuel h) := by
  apply walk_keeps _ _ ⟨rfl, rfl⟩
  exact fun q h₁ same => ⟨fun isIndex => Fault.noConfusion isIndex, same⟩

/-- Whatever is redirected, the end of a sweep clears the buckets. -/
theorem sweepEnd_clears {s : SweepState} (keys : BucketKeys s.heap)
    (bounded : s.heap.maxFreeBlock < freeBlocksLength) :
    Yields (· ≠ .indexOutOfBounds) (fun h' => ∀ k, h'.freeBlocks k = 0)
      (fixPages pf fuel s.alivePages s.heap >>= fun h =>
        recyclePages fuel (fixRoots threads h) >>= fun h =>
          clearFreeBlocks (h.maxFreeBlock + 1) 8 { h with firstPage := s.alivePages } >>= fun h =>
            .ok { h with maxFreeBlock := 0 }) := by
  apply fixPages_sameBuckets.bind
  intro h₃ same₃
  apply recyclePages_sameBuckets.bind
  intro h₅ same₅
  have freeBlocks : h₅.freeBlocks = s.heap.freeBlocks := same₅.1.trans same₃.1
  have maxFreeBlock : h₅.maxFreeBlock = s.heap.maxFreeBlock := same₅.2.trans same₃.2
  have keys₅ : BucketKeys { h₅ with firstPage := s.alivePages } := by
    intro k
    rw [maxFreeBlock, freeBlocks]
    exact keys k
  rcases clearFreeBlocks_all keys₅ (by rw [maxFreeBlock]; exact bounded) with
    ⟨h₆, cleared, _, allNull⟩
  rw [cleared]
  exact allNull

/-- A sweep that returns has emptied every bucket, whatever it has made of the pointers. -/
theorem AllocatorOk.sweep_clears (ok : AllocatorOk pf h c bigs)
    (small : pf.bigBlockThreshold < freeBlocksLength)
    (returned : sweep pf fuel threads h = .ok h') : ∀ k, h'.freeBlocks k = 0 := by
  rw [sweep_eq] at returned
  rcases bind_eq_ok returned with ⟨s, half, rest⟩
  rcases bind_eq_ok half with ⟨h₁, swept, passes⟩
  rcases bind_eq_ok passes with ⟨s₁, classified, evacuated⟩
  rcases visits_of_walk .start evacuated with ⟨cursor, visited, _⟩
  rcases ok.onPages small ⟨h₁, s₁, swept, classified, visited⟩ with ⟨_, c₁, pages, entered, on⟩
  rcases on.inv with ⟨moved, c₂, inv⟩
  have keys := inv.buckets.keys inv.arena fun q mem => Classifying.tiled_of_alive mem
  have maxBound := inv.maxBound
  exact (sweepEnd_clears keys (by omega)).of_ok rest

/-- The result of an allocation function that leaves `free_blocks` alone. -/
def LeavesBuckets {α : Type} (h : Heap) (result : Except Fault (α × Heap)) : Prop :=
  Yields (fun _ => True) (fun value => value.2.freeBlocks = h.freeBlocks) result

theorem morecore_leavesBuckets (size : Nat) (isBig : Bool) :
    LeavesBuckets h (morecore pf size isBig h) :=
  (morecore_sameLists size isBig).mono fun _ same => same.freeBlocks

theorem requestNewPage_leavesBuckets (expand : Bool) :
    LeavesBuckets h (requestNewPage pf expand h) :=
  (requestNewPage_sameLists expand).mono fun _ same => same.freeBlocks

theorem mallocInternal_leavesBuckets (size : Nat) (expand : Bool) :
    LeavesBuckets h (mallocInternal pf size expand h) := by
  unfold mallocInternal
  split
  · apply (morecore_leavesBuckets _ true).bind
    rintro ⟨start, h₁⟩ same
    cases start with
    | none => exact same
    | some b => exact same
  · split
    · apply (requestNewPage_leavesBuckets expand).bind
      rintro ⟨newPage, h₁⟩ same
      dsimp only
      split
      · exact same
      · exact same
    · rfl

theorem gcmallocLocked_leavesBuckets (size : Nat) (expand : Bool) :
    LeavesBuckets h (gcmallocLocked pf size expand h) := by
  have initialised : LeavesBuckets h (initFirstPage pf h) := by
    unfold initFirstPage
    split
    · apply (requestNewPage_leavesBuckets true).bind
      rintro ⟨newPage, h₁⟩ same
      dsimp only
      split
      · exact same
      · exact same
    · rfl
  apply initialised.bind
  rintro ⟨hasPage, h₁⟩ same
  cases hasPage with
  | false => exact same
  | true => exact (mallocInternal_leavesBuckets _ expand).mono fun _ kept => kept.trans same

/-- The steps of the allocator and its clients are steps of a run of collections. -/
theorem Step.collectionStep {allowed : ThreadRoots → Heap → Prop}
    (tiled : ∀ threads, allowed threads h → ∃ c bigs, TiledHeap pf h c bigs)
    (stepped : Step pf allowed h h') : CollectionStep pf h h' := by
  cases stepped with
  | gcmalloc _ eq => exact .elsewhere ((gcmallocLocked_leavesBuckets _ _).of_ok eq)
  | write _ => exact .elsewhere rfl
  | mark _ => exact .elsewhere rfl
  | pin _ => exact .elsewhere rfl
  | sweep isAllowed eq =>
      rcases tiled _ isAllowed with ⟨c, bigs, isTiled⟩
      exact .sweep isTiled eq

theorem AllocatorOk.tiledHeap (ok : AllocatorOk pf h c bigs) : TiledHeap pf h c bigs :=
  ⟨ok.arena, ok.heldNil, ok.fromNil, ok.big⟩

/-- When the sweeps find plain objects, the pages are tiled throughout. -/
theorem Runs.tiledHeap (run : Runs pf (PlainObjects pf) h) :
    Collections pf h ∧ ∃ c bigs, TiledHeap pf h c bigs := by
  have states : Collections pf h ∧ ∃ c bigs, AllocatorState pf h c bigs := by
    apply run.invariant
    · rintro h ⟨mem, mappings, rfl, positive⟩
      exact ⟨Reachable.start fun _ => rfl, {}, [],
        Initial.allocatorState ⟨mem, mappings, rfl, positive⟩⟩
    · rintro h h' ⟨reached, c, bigs, state⟩ stepped
      have step := stepped.collectionStep fun _ _ => ⟨c, bigs, state.toAllocatorOk.tiledHeap⟩
      exact ⟨reached.next step, stepped.allocatorState ⟨c, bigs, state⟩⟩
  rcases states with ⟨reached, c, bigs, state⟩
  exact ⟨reached, c, bigs, state.toAllocatorOk.tiledHeap⟩

/-- Every bucket is empty whenever no sweep is in progress. -/
theorem Collections.noBuckets (run : Collections pf h)
    (small : pf.bigBlockThreshold < freeBlocksLength) : ∀ k, h.freeBlocks k = 0 := by
  apply run.invariant
  · exact fun _ initial => initial
  · intro h h' null stepped
    cases stepped with
    | elsewhere same =>
        intro k
        rw [same]
        exact null k
    | sweep tiled eq => exact (tiled.allocatorOk null).sweep_clears small eq

/-- In every run of collections, at the start of every iteration of the evacuation loop of a sweep,
of the loop over pages and of the loop over blocks, the buckets list the pages in use that are not
full, and `copy_block` is safe; a sweep leaves all buckets null. -/
theorem runs_freeTails (page : pf.pageSize = 4096) (run : Collections pf h)
    (tiled : TiledHeap pf h c bigs) :
    (∀ p s, VisitsPage pf fuel h p s → ∃ fromSpace alive, FreeTails pf h c s fromSpace alive) ∧
      (∀ p b s, VisitsBlock pf fuel h p b s →
        (∃ fromSpace alive, FreeTails pf h c s fromSpace alive) ∧
          (b ≠ freeBlock s.heap.mem p → blockIsMarked (s.heap.mem b) = true →
            ∀ s', ensureAlivePage pf s = .ok s' → ∃ fromSpace alive,
              FreeTails pf h c s' fromSpace alive ∧ CopySafe pf s'.heap alive b)) ∧
        ∀ threads h', sweep pf fuel threads h = .ok h' → ∀ k, h'.freeBlocks k = 0 := by
  have small : pf.bigBlockThreshold < freeBlocksLength := by
    have := pf.bigBlockThreshold_add
    simp only [freeBlocksLength]
    omega
  have ok := tiled.allocatorOk (run.noBuckets small)
  refine ⟨fun p s visits => ?_, fun p b s visits => ?_, fun _ _ => ok.sweep_clears small⟩
  · rcases ok.onPages small visits with ⟨s₁, c₁, pages, entered, ⟨moved, c₂, inv⟩, _⟩
    exact ⟨_, _, entered.freeTails inv⟩
  · rcases ok.onPage small visits with ⟨s₁, c₁, later, rest, entered, inFrom, on⟩
    rcases on.inv with ⟨moved, c₂, inv⟩
    refine ⟨⟨_, _, entered.freeTails inv⟩, fun notEnd _ s' eq => ?_⟩
    cases rest with
    | nil =>
        have atEnd := on.finished entered.start inFrom
        exact absurd (by simpa using atEnd) notEnd
    | cons d rest =>
        have bMem : b ∈ c₁.blocks p := by
          rw [on.tiles.1]
          exact on.sub d (by simp)
        rcases (inv.ensureAlivePage_yields entered.start).of_ok eq with ⟨c₃, inv₃, nonempty⟩
        have inFrom₃ : p ∈ c₃.fromSpace := inv₃.fromSpace ▸ inFrom
        refine ⟨_, _, entered.freeTails inv₃, inv₃.copySafe entered.start nonempty inFrom₃ ?_⟩
        rw [inv₃.fromBlocks p inFrom]
        exact bMem

/-- In the sweep of the sample the evacuation gets to a marked block. -/
theorem sampleHeap_evacuation : Yields (fun _ => False)
    (fun s => s.heap.firstPage = 65536 ∧ 65552 ≠ freeBlock s.heap.mem 65536 ∧
      blockIsMarked (s.heap.mem 65552) = true ∧
        Yields (fun _ => False) (fun _ => True) (ensureAlivePage noMemory s))
    (sweepBigBlocks noMemory 2 (sampleHeap true) >>= fun h =>
      classifyPages noMemory 2 { h with maxFreeBlock := 0, lastPage := 0 }) := by decide +kernel

theorem runs_freeTails_sampleHeap :
    ∃ s s' fromSpace alive, VisitsBlock noMemory 2 (sampleHeap true) 65536 65552 s ∧
      blockIsMarked (s.heap.mem 65552) = true ∧ ensureAlivePage noMemory s = .ok s' ∧
        FreeTails noMemory (sampleHeap true) sampleCensus s' fromSpace alive ∧
          CopySafe noMemory s'.heap alive 65552 := by
  have run : Collections noMemory (sampleHeap true) := Reachable.start fun _ => rfl
  have tiled : TiledHeap noMemory (sampleHeap true) sampleCensus [196608] :=
    ⟨sampleHeap_arena true, rfl, rfl, sampleHeap_bigBlocks true⟩
  rcases sampleHeap_evacuation.total with ⟨s, eq, first, notEnd, marked, ensures⟩
  rcases bind_eq_ok eq with ⟨h₁, swept, classified⟩
  rcases ensures.total with ⟨s', ensured, _⟩
  have toPage : VisitsPage noMemory 2 (sampleHeap true) 65536 s := by
    refine ⟨h₁, s, swept, classified, ?_⟩
    rw [first]
    exact .start
  have toBlock : VisitsBlock noMemory 2 (sampleHeap true) 65536 65552 s :=
    ⟨s, toPage, by decide, .start⟩
  rcases ((runs_freeTails rfl run tiled).2.1 _ _ s toBlock).2 notEnd marked s' ensured with
    ⟨fromSpace, alive, freeTails, safe⟩
  exact ⟨s, s', fromSpace, alive, toBlock, marked, ensured, freeTails, safe⟩

end PreciseGc

import PreciseGc.Sweep.BigBlocks
import PreciseGc.Sweep.FixPass
import PreciseGc.Sweep.Redirect
import PreciseGc.Sweep.Survivors

/-!
# A whole sweep

`SweepReady` is what a sweep relies on: the page invariant, big blocks in
mappings of their own, objects in the blocks that survive, and plain pointers
in their slots and in the stack roots.  `Swept` is what it leaves behind.
-/

namespace PreciseGc

open Foundation Memory

variable {pf : Platform} {threads : ThreadRoots} {h h₀ h₁ : Heap} {c c₀ : Census}
  {bigs : List Nat} {b q : Nat} {s : SweepState} {moved : List (Nat × Nat)}

/-- The pointer word is null, or designates a block in use or a big block that survives. -/
def PointerOk (h : Heap) (c : Census) (bigs : List Nat) (w : Nat) : Prop :=
  IsNull w ∨ (∃ q ∈ c.alive, ∃ b ∈ c.blocks q, Designates w b) ∨
    ∃ b ∈ bigs, bigSurvives h.mem b = true ∧ Designates w (bigHeader b)

/-- The words of shells belong to no page and no big block, and are no roots. -/
def ShellWord (pf : Platform) (threads : ThreadRoots) (h : Heap) (c : Census) (bigs : List Nat)
    (x : Nat) : Prop :=
  OffHeap pf h c bigs x ∧ x ∉ threads.flatten

/-- The invariant of the allocator between operations: every page is in use or free, the big blocks
have mappings of their own, and no free tail is linked into a bucket. -/
structure AllocatorOk (pf : Platform) (h : Heap) (c : Census) (bigs : List Nat) : Prop where
  arena : Arena pf 0 h.firstPage h c
  heldNil : c.held = []
  fromNil : c.fromSpace = []
  noBuckets : ∀ k, h.freeBlocks k = 0
  big : BigBlocks pf h c bigs

/-- What the passes of a sweep up to the redirecting of pointers rely on. -/
structure SweepStart (pf : Platform) (h : Heap) (c : Census) (bigs : List Nat) : Prop
    extends AllocatorOk pf h c bigs where
  small : pf.bigBlockThreshold < freeBlocksLength
  deadUnmarked : ∀ q ∈ c.alive, ¬HasPinned h.mem c q → ∀ b ∈ c.blocks q,
    (blockIsDead (h.mem b) && blockIsMarked (h.mem b)) = false

/-- What a sweep relies on.  A slot or root whose word designates nothing that the sweep keeps
track of must be visited once only. -/
structure SweepReady (pf : Platform) (threads : ThreadRoots) (h : Heap) (c : Census)
    (bigs : List Nat) : Prop extends SweepStart pf h c bigs where
  object : ∀ q ∈ c.alive, ∀ b ∈ c.blocks q, survives h.mem b = true →
    GcObject h.mem (ShellWord pf threads h c bigs) b
  slotPlain : ∀ q ∈ c.alive, ∀ b ∈ c.blocks q, survives h.mem b = true → ∀ x ∈ slotsOf h.mem b,
    isCompositePointer (h.mem x) = false
  slotOnce : ∀ q ∈ c.alive, ∀ b ∈ c.blocks q, survives h.mem b = true → ∀ x ∈ slotsOf h.mem b,
    PointerOk h c bigs (h.mem x) ∨ (slotsOf h.mem b).count x = 1
  rootOff : ∀ a ∈ threads.flatten, a ≠ 0 ∧ OffHeap pf h c bigs a
  rootPlain : ∀ a ∈ threads.flatten, isCompositePointer (h.mem a) = false
  rootOnce : ∀ a ∈ threads.flatten, PointerOk h c bigs (h.mem a) ∨ threads.flatten.count a = 1

/-- The census in which the pages in use are still to be swept. -/
def Census.toSweep (c : Census) : Census := { c with fromSpace := c.alive, alive := [] }

theorem Census.toSweep_pages (fromNil : c.fromSpace = []) : c.toSweep.pages = c.pages := by
  simp [Census.pages, Census.toSweep, fromNil]

theorem Census.toSweep_tiled (fromNil : c.fromSpace = []) : c.toSweep.tiled = c.tiled := by
  simp [Census.tiled, Census.toSweep, fromNil]

/-- A word of a page is no word of a big block. -/
theorem BigSwept.page_eq (swept : BigSwept pf h c bigs h₁) (big : BigBlocks pf h c bigs)
    (mem : q ∈ c.pages) {x : Nat} (lower : q ≤ x) (upper : x < q + pf.pageSize) :
    h₁.mem x = h.mem x := by
  refine swept.frame x fun b bMem => ?_
  have := big.pages b bMem q mem
  have := bigLength_ge pf h.mem b
  simp only [bigHeader]
  omega

/-- The heap in which the passes over the pages start. -/
theorem AllocatorOk.sweepable (ready : AllocatorOk pf h c bigs)
    (small : pf.bigBlockThreshold < freeBlocksLength) (swept : BigSwept pf h c bigs h₁) :
    Sweepable pf { h₁ with maxFreeBlock := 0, lastPage := 0 } c.toSweep := by
  have heapEq := swept.heapEq
  have arena := ready.arena
  have large := pf.pageSize_ge
  have pagesEq := Census.toSweep_pages ready.fromNil
  have tiledEq := Census.toSweep_tiled ready.fromNil
  have linkEq : ∀ p ∈ c.pages, pageNext h₁.mem p = pageNext h.mem p := fun p mem =>
    swept.page_eq ready.big mem (Nat.le_refl _) (by omega)
  refine
    { arena := ?_, heldNil := ready.heldNil, aliveNil := rfl, noBuckets := ?_, small := small,
      maxZero := rfl }
  · refine
      { fromChain := ?_, aliveChain := rfl, freeChain := ?_, distinct := ?_, aligned := ?_,
        bounded := ?_, mapped := ?_, pageOk := ?_, lastPage := rfl, owned := ?_, freePages := ?_,
        totalPages := ?_, perMap := ?_ }
    · have chain := arena.aliveChain
      rw [heapEq]
      exact chain.congr fun p mem => linkEq p (by simp [Census.pages, mem])
    · have chain := arena.freeChain
      rw [heapEq]
      exact chain.congr fun p mem => linkEq p (by simp [Census.pages, mem])
    · rw [pagesEq]
      exact arena.distinct
    · rw [pagesEq]
      exact arena.aligned
    · rw [pagesEq]
      exact arena.bounded
    · rw [pagesEq]
      exact fun p mem => swept.pages p mem (arena.mapped p mem)
    · rw [tiledEq]
      intro p mem
      exact (arena.pageOk p mem).transport fun x lower upper =>
        swept.page_eq ready.big (Arena.tiled_pages mem) (by omega) upper
    · rw [pagesEq, mappedPages, heapEq]
      exact arena.owned
    · rw [heapEq]
      exact arena.freePages
    · rw [pagesEq, heapEq]
      exact arena.totalPages
    · rw [heapEq]
      exact arena.perMap
  · rw [heapEq]
    exact ready.noBuckets

theorem BigSwept.sweepable (swept : BigSwept pf h c bigs h₁) (ready : SweepStart pf h c bigs) :
    Sweepable pf { h₁ with maxFreeBlock := 0, lastPage := 0 } c.toSweep :=
  ready.toAllocatorOk.sweepable ready.small swept

theorem count_flatMap_of_unique {f : Nat → List Nat} {cells : List Nat} {cell x : Nat}
    (unique : cells.Nodup) (mem : cell ∈ cells)
    (others : ∀ other ∈ cells, other ≠ cell → x ∉ f other) :
    (cells.flatMap f).count x = (f cell).count x := by
  induction cells with
  | nil => simp at mem
  | cons first cells ih =>
      rcases List.nodup_cons.mp unique with ⟨notLater, unique'⟩
      rw [List.flatMap_cons, List.count_append]
      by_cases same : first = cell
      · subst same
        have absent : x ∉ cells.flatMap f := by
          intro inLater
          rcases List.mem_flatMap.mp inLater with ⟨other, otherMem, xMem⟩
          refine others other (by simp [otherMem]) ?_ xMem
          rintro rfl
          exact notLater otherMem
        rw [List.count_eq_zero_of_not_mem absent, Nat.add_zero]
      · have absent := others first (by simp) same
        rw [List.count_eq_zero_of_not_mem absent, Nat.zero_add]
        exact ih unique' ((List.mem_cons.mp mem).resolve_left (Ne.symm same))
          fun other otherMem => others other (by simp [otherMem])

/-- A sweep after its first two passes over the pages. -/
structure Halfway (pf : Platform) (h : Heap) (c : Census) (bigs : List Nat)
    (moved : List (Nat × Nat)) (s : SweepState) (c₂ : Census) : Prop where
  start : SweepStart pf h c bigs
  evacuated : ∃ h₁, BigSwept pf h c bigs h₁ ∧
    Evacuated pf { h₁ with maxFreeBlock := 0, lastPage := 0 } c.toSweep moved s c₂

namespace Halfway

variable {c₂ : Census} {x d : Nat}

theorem header_eq (swept : BigSwept pf h c bigs h₁) (start : SweepStart pf h c bigs)
    (qMem : q ∈ c.alive) (bMem : b ∈ c.blocks q) :
    h₁.mem b = h.mem b ∧ ∀ o < blockSize (h.mem b), h₁.mem (b + 8 + o) = h.mem (b + 8 + o) := by
  have qTiled := Classifying.tiled_of_alive qMem
  have bounds := (start.arena.pageOk q qTiled).block_bounds bMem
  have qPages := Arena.tiled_pages qTiled
  exact ⟨swept.page_eq start.big qPages (by omega) (by omega), fun o less =>
    swept.page_eq start.big qPages (by omega) (by omega)⟩

/-- Sweeping the big blocks leaves the flags of the blocks in pages alone. -/
theorem deadUnmarked (swept : BigSwept pf h c bigs h₁) (start : SweepStart pf h c bigs) :
    ∀ q ∈ c.toSweep.fromSpace, ¬HasPinned h₁.mem c.toSweep q → ∀ d ∈ c.toSweep.blocks q,
      (blockIsDead (h₁.mem d) && blockIsMarked (h₁.mem d)) = false := by
  intro q qMem unpinned d dMem
  rw [(header_eq swept start qMem dMem).1]
  apply start.deadUnmarked q qMem _ d dMem
  rintro ⟨e, eMem, isPinned⟩
  refine unpinned ⟨e, eMem, ?_⟩
  rw [← isPinned]
  exact congrArg blockIsPinned (header_eq swept start qMem eMem).1

theorem survives_eq (swept : BigSwept pf h c bigs h₁) (start : SweepStart pf h c bigs)
    (qMem : q ∈ c.alive) (bMem : b ∈ c.blocks q) : survives h₁.mem b = survives h.mem b := by
  simp only [survives, (header_eq swept start qMem bMem).1]

theorem imageOf_eq (swept : BigSwept pf h c bigs h₁) (start : SweepStart pf h c bigs)
    (qMem : q ∈ c.alive) (bMem : b ∈ c.blocks q) {m : Memory} (image : ImageOf h₁.mem m b d) :
    ImageOf h.mem m b d := by
  have same := header_eq swept start qMem bMem
  refine ⟨?_, fun o less => ?_, image.unpinned, image.unmarked⟩
  · rw [image.size, same.1]
  · rw [image.data o (by rwa [same.1]), same.2 o less]

/-- Every surviving block has an image on a page in use. -/
theorem image (half : Halfway pf h c bigs moved s c₂) (qMem : q ∈ c.alive)
    (bMem : b ∈ c.blocks q) (alive : survives h.mem b = true) :
    ImageOf h.mem s.heap.mem b (relocate moved b) ∧
      blockIsDead (s.heap.mem (relocate moved b)) = false ∧
        ∃ r ∈ c₂.alive, relocate moved b ∈ c₂.blocks r := by
  rcases half.evacuated with ⟨h₁, swept, ev⟩
  rw [← survives_eq swept half.start qMem bMem] at alive
  rcases ev.image (swept.sweepable half.start).arena qMem bMem alive with ⟨image, rest⟩
  exact ⟨imageOf_eq swept half.start qMem bMem image, rest⟩

/-- Every block of a page in use is the image of a block, which survives unless it is dead. -/
theorem origin (half : Halfway pf h c bigs moved s c₂) (qMem : q ∈ c₂.alive)
    (dMem : d ∈ c₂.blocks q) :
    ∃ q₀ ∈ c.alive, ∃ b ∈ c.blocks q₀, ImageOf h.mem s.heap.mem b d ∧
      (blockIsDead (s.heap.mem d) = false → survives h.mem b = true ∧ d = relocate moved b) := by
  rcases half.evacuated with ⟨h₁, swept, ev⟩
  rcases ev.origin (swept.sweepable half.start).arena
    (fun q inFrom unpinned => deadUnmarked swept half.start q inFrom unpinned) qMem dMem with
    ⟨q₀, q₀Mem, b, bMem, image, alive⟩
  refine ⟨q₀, q₀Mem, b, bMem, imageOf_eq swept half.start q₀Mem bMem image, fun notDead => ?_⟩
  rw [← survives_eq swept half.start q₀Mem bMem]
  exact alive notDead

theorem arena (half : Halfway pf h c bigs moved s c₂) :
    Arena pf s.heap.firstPage s.alivePages s.heap c₂ := by
  rcases half.evacuated with ⟨h₁, _, ev⟩
  exact ev.arena

/-- Mapped bytes outside the pages and the words of the big blocks are as before. -/
theorem outside (half : Halfway pf h c bigs moved s c₂) (out : OffHeap pf h c bigs x) :
    Outside pf s.heap c₂ x ∧ s.heap.mem x = h.mem x := by
  rcases half.evacuated with ⟨h₁, swept, ev⟩
  rcases swept.offHeap x out with ⟨⟨out₁, _⟩, same⟩
  rcases ev.outside x ⟨out₁.1, fun q mem => out₁.2 q
    (Census.toSweep_pages half.start.fromNil ▸ mem)⟩ with ⟨out₂, same'⟩
  exact ⟨out₂, same'.trans same⟩

/-- The bytes of a surviving big block stay mapped, apart from all pages, and keep their contents
but for the flags of the header. -/
theorem big_outside (half : Halfway pf h c bigs moved s c₂) {big : Nat} (mem : big ∈ bigs)
    (alive : bigSurvives h.mem big = true) (lower : big ≤ x)
    (upper : x < big + bigLength pf h.mem big) :
    Outside pf s.heap c₂ x ∧ (x ≠ big → x ≠ bigHeader big → s.heap.mem x = h.mem x) ∧
      (x = bigHeader big → s.heap.mem x = unmarkBlock (unpinBlock (h.mem x))) := by
  rcases half.evacuated with ⟨h₁, swept, ev⟩
  have kept : big ∈ bigs.filter (bigSurvives h.mem) := List.mem_filter.mpr ⟨mem, alive⟩
  have header := swept.header big kept
  have mapped := swept.bigBlocks.mapped big kept
  have lengthEq : bigLength pf h₁.mem big = bigLength pf h.mem big := by
    simp only [bigLength, header, blockSize_unmarkBlock, blockSize_unpinBlock]
  have outside₁ : Outside pf { h₁ with maxFreeBlock := 0, lastPage := 0 } c.toSweep x := by
    refine ⟨⟨_, mapped, lower, by dsimp only; omega⟩, fun q qMem => ?_⟩
    rw [Census.toSweep_pages half.start.fromNil] at qMem
    have := half.start.big.pages big mem q qMem
    omega
  rcases ev.outside x outside₁ with ⟨out, same⟩
  refine ⟨out, fun notLink notHeader => ?_, ?_⟩
  · rw [same]
    refine swept.frame x fun b bMem => ?_
    by_cases other : big = b
    · subst other
      exact ⟨notLink, notHeader⟩
    · have := half.start.big.apart big mem b bMem other
      have := bigLength_ge pf h.mem b
      simp only [bigHeader]
      omega
  · rintro rfl
    rw [same]
    exact header

/-- The image of a surviving object has the same `base_meta` and the same shell. -/
theorem shape_of (half : Halfway pf h c bigs moved s c₂) (qMem : q ∈ c.alive)
    (bMem : b ∈ c.blocks q)
    (alive : survives h.mem b = true) {apart : Nat → Prop} (object : GcObject h.mem apart b)
    (off : ∀ x, apart x → OffHeap pf h c bigs x) : SameShape h.mem b s.heap.mem
    (relocate moved b) := by
  have image := (half.image qMem bMem alive).1
  refine SameShape.of_agree (fun o less => ?_) fun x lower upper => ?_
  · have := object.room
    exact image.data o (by omega)
  · exact (half.outside (off x (object.shellApart x lower upper))).2

theorem gcObject_of (half : Halfway pf h c bigs moved s c₂) (qMem : q ∈ c.alive)
    (bMem : b ∈ c.blocks q) (alive : survives h.mem b = true) {apart : Nat → Prop}
    (object : GcObject h.mem apart b) (off : ∀ x, apart x → OffHeap pf h c bigs x) :
    GcObject s.heap.mem apart (relocate moved b) :=
  (half.shape_of qMem bMem alive object off).gcObject object (half.image qMem bMem alive).1.size
    fun _ holds => holds

/-- The word in a slot of an image is the word in the corresponding slot of the object. -/
theorem slot_eq_of (half : Halfway pf h c bigs moved s c₂) (qMem : q ∈ c.alive)
    (bMem : b ∈ c.blocks q) (alive : survives h.mem b = true) {apart : Nat → Prop}
    (object : GcObject h.mem apart b) (off : ∀ x, apart x → OffHeap pf h c bigs x)
    (xMem : x ∈ slotsOf s.heap.mem (relocate moved b)) :
    ∃ y ∈ slotsOf h.mem b, x + b = y + relocate moved b ∧ s.heap.mem x = h.mem y := by
  have image := (half.image qMem bMem alive).1
  rw [(half.shape_of qMem bMem alive object off).slotsOf_eq] at xMem
  rcases List.mem_map.mp xMem with ⟨y, yMem, rfl⟩
  have bounds := object.slot_bounds yMem
  refine ⟨y, yMem, by omega, ?_⟩
  have data := image.data (y - b - 8) (by omega)
  rw [show relocate moved b + 8 + (y - b - 8) = y - b + relocate moved b by omega,
    show b + 8 + (y - b - 8) = y by omega] at data
  exact data

/-- A block of before is a block after the evacuation, too, on a page in use or on a page that has
been evacuated. -/
theorem old_block (half : Halfway pf h c bigs moved s c₂) (qMem : q ∈ c.alive)
    (bMem : b ∈ c.blocks q) :
    b ∈ c₂.blocks q ∧ blockSize (s.heap.mem b) = blockSize (h.mem b) ∧
      ((q ∈ c₂.alive ∧ relocate moved b = b) ∨ q ∈ c₂.fromSpace) := by
  rcases half.evacuated with ⟨h₁, swept, ev⟩
  have header := congrArg blockSize (header_eq swept half.start qMem bMem).1
  by_cases pinned : HasPinned h₁.mem c.toSweep q
  · rcases ev.stays q qMem pinned with ⟨inAlive, stays⟩
    rcases stays b bMem with ⟨stays, headerEq, _⟩
    have place := ev.relocate_of_pinned (swept.sweepable half.start).arena qMem pinned bMem
    refine ⟨stays, ?_, Or.inl ⟨inAlive, place.2⟩⟩
    rw [headerEq, blockSize_retainedHeader]
    exact header
  · have inFrom := (ev.mem_fromSpace q).mpr ⟨qMem, pinned⟩
    refine ⟨?_, ?_, Or.inr inFrom⟩
    · rw [ev.fromBlocks q inFrom]
      exact bMem
    · rw [ev.fromHeader q inFrom b bMem]
      exact header

theorem old_tiled (half : Halfway pf h c bigs moved s c₂) (qMem : q ∈ c.alive)
    (bMem : b ∈ c.blocks q) : q ∈ c₂.tiled := by
  rcases (half.old_block qMem bMem).2.2 with ⟨inAlive, _⟩ | inFrom
  · exact Classifying.tiled_of_alive inAlive
  · exact Classifying.tiled_of_fromSpace inFrom

end Halfway

/-- The same point of a sweep that is ready for the redirecting of pointers. -/
structure Midway (pf : Platform) (threads : ThreadRoots) (h : Heap) (c : Census) (bigs : List Nat)
    (moved : List (Nat × Nat)) (s : SweepState) (c₂ : Census) : Prop
    extends Halfway pf h c bigs moved s c₂ where
  ready : SweepReady pf threads h c bigs

/-- The slots the sweep redirects, in its order. -/
def redirectedSlots (threads : ThreadRoots) (m : Memory) (c : Census) : List Nat :=
  visitedSlots m (fun _ => true) (c.alive.flatMap c.blocks) ++ threads.flatten

namespace Midway

variable {c₂ : Census} {x d : Nat}

theorem shape (mid : Midway pf threads h c bigs moved s c₂) (qMem : q ∈ c.alive)
    (bMem : b ∈ c.blocks q) (alive : survives h.mem b = true) :
    SameShape h.mem b s.heap.mem (relocate moved b) :=
  mid.shape_of qMem bMem alive (mid.ready.object q qMem b bMem alive) fun _ apart => apart.1

theorem gcObject (mid : Midway pf threads h c bigs moved s c₂) (qMem : q ∈ c.alive)
    (bMem : b ∈ c.blocks q) (alive : survives h.mem b = true) :
    GcObject s.heap.mem (ShellWord pf threads h c bigs) (relocate moved b) :=
  mid.gcObject_of qMem bMem alive (mid.ready.object q qMem b bMem alive) fun _ apart => apart.1

theorem slot_eq (mid : Midway pf threads h c bigs moved s c₂) (qMem : q ∈ c.alive)
    (bMem : b ∈ c.blocks q) (alive : survives h.mem b = true)
    (xMem : x ∈ slotsOf s.heap.mem (relocate moved b)) :
    ∃ y ∈ slotsOf h.mem b, x + b = y + relocate moved b ∧ s.heap.mem x = h.mem y :=
  mid.slot_eq_of qMem bMem alive (mid.ready.object q qMem b bMem alive)
    (fun _ apart => apart.1) xMem

/-- A slot the sweep redirects belongs to the image of a surviving object, or is a root. -/
theorem mem_redirected (mid : Midway pf threads h c bigs moved s c₂)
    (mem : x ∈ redirectedSlots threads s.heap.mem c₂) :
    (∃ r ∈ c₂.alive, ∃ q ∈ c.alive, ∃ b ∈ c.blocks q, survives h.mem b = true ∧
      relocate moved b ∈ c₂.blocks r ∧ x ∈ slotsOf s.heap.mem (relocate moved b)) ∨
        x ∈ threads.flatten := by
  rcases List.mem_append.mp mem with inHeap | isRoot
  · left
    rcases mem_visitedSlots.mp inHeap with ⟨d, dMem, notDead, _, slot⟩
    rcases List.mem_flatMap.mp dMem with ⟨r, rMem, dMem⟩
    rcases mid.origin rMem dMem with ⟨q, qMem, b, bMem, _, alive⟩
    rcases alive notDead with ⟨isAlive, rfl⟩
    exact ⟨r, rMem, q, qMem, b, bMem, isAlive, dMem, slot⟩
  · exact Or.inr isRoot

/-- No word of a page outside the slots of the objects is redirected. -/
theorem not_redirected (mid : Midway pf threads h c bigs moved s c₂) {p : Nat} (pMem : p ∈ c₂.pages)
    (lower : p ≤ x) (upper : x < p + pf.pageSize)
    (away : ∀ r ∈ c₂.alive, ∀ d ∈ c₂.blocks r, x < d + 32 ∨ d + 8 + blockSize (s.heap.mem d) ≤ x) :
    x ∉ redirectedSlots threads s.heap.mem c₂ := by
  intro mem
  rcases mid.mem_redirected mem with ⟨r, rMem, q, qMem, b, bMem, alive, dMem, slot⟩ | isRoot
  · have bounds := (mid.gcObject qMem bMem alive).slot_bounds slot
    have := away r rMem _ dMem
    omega
  · have out := (mid.outside (mid.ready.rootOff x isRoot).2).1.2 p pMem
    omega

theorem notData_not_redirected (mid : Midway pf threads h c bigs moved s c₂) {p : Nat}
    (pMem : p ∈ c₂.pages) (lower : p ≤ x) (upper : x < p + pf.pageSize)
    (notData : NotData pf s.heap.mem c₂ x) : x ∉ redirectedSlots threads s.heap.mem c₂ := by
  refine mid.not_redirected pMem lower upper fun r rMem d dMem => ?_
  have := notData.away r (Classifying.tiled_of_alive rMem) d dMem
  omega

/-- Mapped bytes outside the pages are redirected only if they are roots. -/
theorem outside_not_redirected (mid : Midway pf threads h c bigs moved s c₂)
    (out : Outside pf s.heap c₂ x) (notRoot : x ∉ threads.flatten) :
    x ∉ redirectedSlots threads s.heap.mem c₂ := by
  intro mem
  rcases mid.mem_redirected mem with ⟨r, rMem, q, qMem, b, bMem, alive, dMem, slot⟩ | isRoot
  · have rTiled := Classifying.tiled_of_alive rMem
    have bounds := (mid.gcObject qMem bMem alive).slot_bounds slot
    have block := (mid.arena.pageOk r rTiled).block_bounds dMem
    have := out.2 r (Arena.tiled_pages rTiled)
    omega
  · exact notRoot isRoot

/-- No word of a big block that survives is redirected. -/
theorem big_not_redirected (mid : Midway pf threads h c bigs moved s c₂) {big : Nat}
    (mem : big ∈ bigs) (alive : bigSurvives h.mem big = true) (lower : big ≤ x)
    (upper : x < big + bigLength pf h.mem big) : x ∉ redirectedSlots threads s.heap.mem c₂ := by
  apply mid.outside_not_redirected (mid.big_outside mem alive lower upper).1
  intro isRoot
  have := (mid.ready.rootOff x isRoot).2.2 big mem
  omega

/-- Headers of blocks are never redirected. -/
theorem header_not_redirected (mid : Midway pf threads h c bigs moved s c₂) {p : Nat}
    (pTiled : p ∈ c₂.tiled) (dMem : d ∈ c₂.blocks p) :
    d ∉ redirectedSlots threads s.heap.mem c₂ := by
  have bounds := (mid.arena.pageOk p pTiled).block_bounds dMem
  exact mid.notData_not_redirected (Arena.tiled_pages pTiled) (by omega) (by omega)
    (mid.arena.header_notData pTiled dMem)

/-- A pointer to a block in use is redirected to the image of the block if that survives. -/
theorem settled_of_block (mid : Midway pf threads h c bigs moved s c₂) {w : Nat}
    (qMem : q ∈ c.alive)
    (bMem : b ∈ c.blocks q) (designates : Designates w b) :
    Settled s.heap.mem (redirectedSlots threads s.heap.mem c₂) w ∧
      (survives h.mem b = true → Designates (redirect s.heap.mem w) (relocate moved b)) := by
  rcases mid.evacuated with ⟨h₁, swept, ev⟩
  have sweepable := swept.sweepable mid.start
  have same := (Halfway.header_eq swept mid.start qMem bMem).1
  by_cases pinned : HasPinned h₁.mem c.toSweep q
  · rcases ev.stays q qMem pinned with ⟨qAlive, stays⟩
    rcases stays b bMem with ⟨bStays, header, _⟩
    have unmarked : blockIsMarked (s.heap.mem b) = false := by
      rw [header]
      exact (retainedHeader_flags _).2.1
    rcases Settled.of_unmarked designates unmarked
      (mid.header_not_redirected (Classifying.tiled_of_alive qAlive) bStays) with ⟨settled, fixed⟩
    refine ⟨settled, fun _ => ?_⟩
    rw [fixed, (ev.relocate_of_pinned sweepable.arena qMem pinned bMem).2]
    exact designates
  · have inFrom := (ev.mem_fromSpace q).mpr ⟨qMem, pinned⟩
    have header := ev.fromHeader q inFrom b bMem
    have qTiled := Classifying.tiled_of_fromSpace inFrom
    have bMem₂ : b ∈ c₂.blocks q := by
      rw [ev.fromBlocks q inFrom]
      exact bMem
    have bHeader := mid.header_not_redirected qTiled bMem₂
    by_cases marked : blockIsMarked (s.heap.mem b) = true
    · have moves := relocate_of_mem (ev.complete q inFrom b bMem (by rw [← header]; exact marked))
      rcases ev.copies _ moves with ⟨copy, r, rAlive, copyMem⟩
      have rTiled := Classifying.tiled_of_alive rAlive
      have bounds := (ev.arena.pageOk q qTiled).block_bounds bMem₂
      have forwardWord : b + 8 ∉ redirectedSlots threads s.heap.mem c₂ := by
        refine mid.not_redirected (Arena.tiled_pages qTiled) (by omega) (by omega) ?_
        intro t tAlive d dMem
        have block := (ev.arena.pageOk t (Classifying.tiled_of_alive tAlive)).block_bounds dMem
        have other : q ≠ t := by
          rintro rfl
          exact ev.arena.not_mem_alive_of_fromSpace inFrom tAlive
        have := ev.arena.apart (Arena.tiled_pages qTiled)
          (Arena.tiled_pages (Classifying.tiled_of_alive tAlive)) other
        omega
      have aligned := ((ev.arena.pageOk q qTiled).aligned_blocks
        (mod_eight_of_page (ev.arena.aligned q (Arena.tiled_pages qTiled)))).2 b bMem₂
      have copyAligned := ((ev.arena.pageOk r rTiled).aligned_blocks
        (mod_eight_of_page (ev.arena.aligned r (Arena.tiled_pages rTiled)))).2 _ copyMem
      rcases Settled.of_copied designates aligned marked bHeader copy.forward forwardWord
        copyAligned copy.image.1.unmarked (mid.header_not_redirected rTiled copyMem) with
        ⟨settled, reached⟩
      exact ⟨settled, fun _ => reached⟩
    · rw [Bool.not_eq_true] at marked
      rcases Settled.of_unmarked designates marked bHeader with ⟨settled, _⟩
      refine ⟨settled, fun alive => ?_⟩
      have unmarked : blockIsMarked (h.mem b) = false := by
        rw [← same]
        exact header ▸ marked
      simp only [survives, unmarked, Bool.false_or, Bool.and_eq_true] at alive
      exact absurd ⟨b, bMem, same.symm ▸ alive.2⟩ pinned

/-- A pointer to a big block that survives is not redirected. -/
theorem settled_of_big (mid : Midway pf threads h c bigs moved s c₂) {w big : Nat}
    (bigMem : big ∈ bigs) (alive : bigSurvives h.mem big = true)
    (designates : Designates w (bigHeader big)) :
    Settled s.heap.mem (redirectedSlots threads s.heap.mem c₂) w ∧ redirect s.heap.mem w = w := by
  rcases bigHeader_bounds pf h.mem big with ⟨lower, upper⟩
  have header := (mid.big_outside bigMem alive lower upper).2.2 rfl
  apply Settled.of_unmarked designates
  · rw [header]
    exact (flags_unmark_unpin _).2.1
  · exact mid.big_not_redirected bigMem alive lower upper

theorem settled (mid : Midway pf threads h c bigs moved s c₂) {w : Nat}
    (ok : PointerOk h c bigs w) :
    Settled s.heap.mem (redirectedSlots threads s.heap.mem c₂) w := by
  rcases ok with null | ⟨q, qMem, b, bMem, designates⟩ | ⟨big, bigMem, alive, designates⟩
  · exact (Settled.of_null null).1
  · exact (mid.settled_of_block qMem bMem designates).1
  · exact (mid.settled_of_big bigMem alive designates).1

/-- A slot of an image is listed as often as the corresponding slot of the object. -/
theorem count_slot (mid : Midway pf threads h c bigs moved s c₂) {r y : Nat} (qMem : q ∈ c.alive)
    (bMem : b ∈ c.blocks q) (alive : survives h.mem b = true) (rMem : r ∈ c₂.alive)
    (dMem : relocate moved b ∈ c₂.blocks r) (yMem : y ∈ slotsOf h.mem b)
    (shift : x + b = y + relocate moved b) :
    (redirectedSlots threads s.heap.mem c₂).count x = (slotsOf h.mem b).count y := by
  have shape := mid.shape qMem bMem alive
  have object := mid.ready.object q qMem b bMem alive
  have rTiled := Classifying.tiled_of_alive rMem
  have yBounds := object.slot_bounds yMem
  have xMem : x ∈ slotsOf s.heap.mem (relocate moved b) := by
    rw [shape.slotsOf_eq]
    exact List.mem_map.mpr ⟨y, yMem, by omega⟩
  have bounds := (mid.gcObject qMem bMem alive).slot_bounds xMem
  have block := (mid.arena.pageOk r rTiled).block_bounds dMem
  have notRoot : x ∉ threads.flatten := by
    intro isRoot
    have := (mid.outside (mid.ready.rootOff x isRoot).2).1.2 r (Arena.tiled_pages rTiled)
    omega
  have inObject : (slotsOf s.heap.mem (relocate moved b)).count x = (slotsOf h.mem b).count y := by
    rw [shape.slotsOf_eq, List.count_eq_countP, List.countP_map, List.count_eq_countP]
    refine List.countP_congr fun z zMem => ?_
    have := object.slot_bounds zMem
    simp only [Function.comp_apply, beq_iff_eq]
    omega
  rw [redirectedSlots, List.count_append, List.count_eq_zero_of_not_mem notRoot, Nat.add_zero,
    visitedSlots, ← inObject]
  refine count_flatMap_of_unique ?_ ?_ fun e eMem other inOther => ?_
  · refine List.Nodup.filter _
      (mid.arena.nodup_blocks ?_ fun t mem => Classifying.tiled_of_alive mem)
    have unique := mid.arena.distinct
    simp only [Census.pages] at unique
    exact (List.nodup_append'.mp (List.nodup_append'.mp unique).1).2.1
  · refine List.mem_filter.mpr ⟨List.mem_flatMap.mpr ⟨r, rMem, dMem⟩, ?_⟩
    simp [(mid.image qMem bMem alive).2.1]
  · rcases List.mem_filter.mp eMem with ⟨eMem, notDead⟩
    rcases List.mem_flatMap.mp eMem with ⟨t, tMem, eMem⟩
    rcases mid.origin tMem eMem with ⟨q', qMem', b', bMem', _, alive'⟩
    simp only [Bool.and_true, Bool.not_eq_true'] at notDead
    rcases alive' notDead with ⟨isAlive, rfl⟩
    have bounds' := (mid.gcObject qMem' bMem' isAlive).slot_bounds inOther
    have := mid.arena.blocks_disjoint rTiled dMem (Classifying.tiled_of_alive tMem) eMem
      (Ne.symm other)
    omega

/-- The slots and roots of the sweep can be redirected. -/
theorem fixable (mid : Midway pf threads h c bigs moved s c₂) :
    Fixable s.heap.mem (redirectedSlots threads s.heap.mem c₂) := by
  refine ⟨fun x mem => ?_, fun x mem => ?_, fun x mem => ?_⟩
  all_goals rcases mid.mem_redirected mem with
    ⟨r, rMem, q, qMem, b, bMem, alive, dMem, slot⟩ | isRoot
  · have := (mid.gcObject qMem bMem alive).slot_bounds slot
    omega
  · exact (mid.ready.rootOff x isRoot).1
  · rcases mid.slot_eq qMem bMem alive slot with ⟨y, yMem, _, same⟩
    rw [same]
    exact mid.ready.slotPlain q qMem b bMem alive y yMem
  · rw [(mid.outside (mid.ready.rootOff x isRoot).2).2]
    exact mid.ready.rootPlain x isRoot
  · rcases mid.slot_eq qMem bMem alive slot with ⟨y, yMem, shift, same⟩
    rcases mid.ready.slotOnce q qMem b bMem alive y yMem with ok | once
    · rw [same]
      exact Or.inl (mid.settled ok)
    · right
      rw [mid.count_slot qMem bMem alive rMem dMem yMem shift]
      exact once
  · rw [(mid.outside (mid.ready.rootOff x isRoot).2).2]
    rcases mid.ready.rootOnce x isRoot with ok | once
    · exact Or.inl (mid.settled ok)
    · right
      have notHeap : x ∉ visitedSlots s.heap.mem (fun _ => true) (c₂.alive.flatMap c₂.blocks) := by
        intro inHeap
        rcases mem_visitedSlots.mp inHeap with ⟨d, dMem, notDead, _, slot⟩
        rcases List.mem_flatMap.mp dMem with ⟨r, rMem, dMem⟩
        rcases mid.origin rMem dMem with ⟨q, qMem, b, bMem, _, alive⟩
        rcases alive notDead with ⟨isAlive, rfl⟩
        have rTiled := Classifying.tiled_of_alive rMem
        have bounds := (mid.gcObject qMem bMem isAlive).slot_bounds slot
        have block := (mid.arena.pageOk r rTiled).block_bounds dMem
        have := (mid.outside (mid.ready.rootOff x isRoot).2).1.2 r (Arena.tiled_pages rTiled)
        omega
      rw [redirectedSlots, List.count_append, List.count_eq_zero_of_not_mem notHeap, once]

end Midway

end PreciseGc

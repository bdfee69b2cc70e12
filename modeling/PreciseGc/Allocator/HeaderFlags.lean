import PreciseGc.Allocator.Sweeping
import PreciseGc.Roots.MarkAndSweep
import PreciseGc.Sweep.InertRecords

/-!
# Flags after a sweep

A sweep clears the flags of the blocks it keeps before it redirects pointers.
The redirecting pass marks the record of every composite pointer it visits.  A
record on an evacuated page is marked in its old place only, a record that
stayed in place keeps the mark: it is still there when the next collection
starts, and the pass itself fails an assertion if it comes to the record later.
-/

namespace PreciseGc

open Foundation Memory

variable {pf : Platform} {threads : ThreadRoots} {h h' : Heap} {c c₂ c' : Census}
  {bigs records : List Nat} {b d q : Nat} {s : SweepState} {moved : List (Nat × Nat)} {fuel : Nat}
  {m : Memory}

/-- No block in use is marked or pinned. -/
def Unflagged (h : Heap) : Prop :=
  ∀ b, InUse h b → blockIsPinned (h.mem b) = false ∧ blockIsMarked (h.mem b) = false

/-- The invariant of the allocator after the last passes. -/
theorem Halfway.allocatorOk (half : Halfway pf h c bigs moved s c₂) (ended : Ended pf s c₂ m h' c')
    (words : ∀ big ∈ bigs, bigSurvives h.mem big = true → ∀ x, big ≤ x → x < big + 16 →
      m x = s.heap.mem x) : AllocatorOk pf h' c' (bigs.filter (bigSurvives h.mem)) where
  arena := ended.arena
  heldNil := by
    rcases half.evacuated with ⟨h₁, swept, ev⟩
    rw [ended.census]
    exact ev.heldNil
  fromNil := by rw [ended.census]
  noBuckets := ended.noBuckets
  big := half.bigBlocks ended words

/-- The blocks in use after a sweep are unflagged if those of the pages in use are. -/
theorem Halfway.unflagged_iff (half : Halfway pf h c bigs moved s c₂)
    (ended : Ended pf s c₂ m h' c')
    (words : ∀ big ∈ bigs, bigSurvives h.mem big = true → ∀ x, big ≤ x → x < big + 16 →
      m x = s.heap.mem x) : Unflagged h' ↔
      ∀ q ∈ c₂.alive, ∀ d ∈ c₂.blocks q, blockIsPinned (m d) = false ∧
        blockIsMarked (m d) = false := by
  have ok := half.allocatorOk ended words
  have large := pf.pageSize_ge
  have small : ∀ q ∈ c₂.alive, ∀ d ∈ c₂.blocks q, h'.mem d = m d := by
    intro q qMem d dMem
    have qTiled := Classifying.tiled_of_alive qMem
    have bounds := (half.arena.pageOk q qTiled).block_bounds dMem
    apply ended.frame
    rintro p inFrom rfl
    have pTiled := Classifying.tiled_of_fromSpace inFrom
    have other : d ≠ q := by omega
    have := half.arena.apart (Arena.tiled_pages pTiled) (Arena.tiled_pages qTiled) other
    omega
  have aliveEq : c'.alive = c₂.alive := by rw [ended.census]
  have blocksEq : c'.blocks = c₂.blocks := by rw [ended.census]
  constructor
  · intro unflagged q qMem d dMem
    rw [← small q qMem d dMem]
    apply unflagged d
    rw [ok.inUse_iff, Census.Used, aliveEq, blocksEq]
    exact Or.inl ⟨q, qMem, dMem⟩
  · intro unflagged b used
    rw [ok.inUse_iff, Census.Used, aliveEq, blocksEq] at used
    rcases used with ⟨q, qMem, bMem⟩ | ⟨big, bigMem, rfl⟩
    · rw [small q qMem b bMem]
      exact unflagged q qMem b bMem
    · rcases List.mem_filter.mp bigMem with ⟨mem, alive⟩
      rcases bigHeader_bounds pf h.mem big with ⟨lower, upper⟩
      rcases half.big_outside mem alive lower upper with ⟨out, _, header⟩
      have kept : h'.mem (bigHeader big) = s.heap.mem (bigHeader big) := by
        rw [ended.frame, words big mem alive]
        · simp [bigHeader]
        · simp only [bigHeader]
          omega
        · rintro p inFrom rfl
          have := out.2 _ (Arena.tiled_pages (Classifying.tiled_of_fromSpace inFrom))
          omega
      rw [kept, header rfl]
      exact ⟨(flags_unmark_unpin _).1, (flags_unmark_unpin _).2.1⟩

/-- A sweep of plain objects leaves no flag behind. -/
theorem Midway.unflagged (mid : Midway pf threads h c bigs moved s c₂)
    (fin : Finished pf threads s c₂ h' c') : Unflagged h' := by
  rcases fin.memory with ⟨m, fixing, frame⟩
  apply (mid.toHalfway.unflagged_iff { fin with frame := frame } ?_).mpr
  · intro q qMem d dMem
    rw [fixing.frame d (mid.header_not_redirected (Classifying.tiled_of_alive qMem) dMem)]
    rcases mid.origin qMem dMem with ⟨_, _, _, _, image, _⟩
    exact ⟨image.unpinned, image.unmarked⟩
  · intro big mem alive x lower upper
    have := bigLength_ge pf h.mem big
    apply fixing.frame
    exact mid.big_not_redirected mem alive lower (by omega)

namespace RecordHeap

/-- Redirecting pointers keeps the arena. -/
theorem pass_arena (heap : RecordHeap pf threads h c bigs records)
    (half : Halfway pf h c bigs moved s c₂)
    (pass : Pass threads h c bigs records moved s.heap.mem c₂ [] h'.mem)
    (heapEq : h' = { s.heap with mem := h'.mem, metaReads := h'.metaReads }) :
    Arena pf h'.firstPage s.alivePages h' c₂ := by
  have arena := half.arena
  have large := pf.pageSize_ge
  have changed : Arena pf s.heap.firstPage s.alivePages h' c₂ := by
    refine arena.transport (by rw [heapEq]; exact ⟨rfl, rfl, rfl, rfl, rfl, rfl, rfl⟩) ?_ ?_
    · intro q mem
      exact heap.pass_pageWord half pass mem (by omega) (by omega) (arena.link_notData mem)
    · intro q mem
      have qPages := Arena.tiled_pages mem
      have ok := arena.pageOk q mem
      refine ok.congr ?_ ?_ ?_
      · exact heap.pass_pageWord half pass qPages (by omega) (by omega) (arena.free_notData mem)
      · exact fun d dMem => (heap.pass_header half pass mem dMem).1
      · intro notFull
        rw [pageIsFull_eq_false_iff] at notFull
        have := ok.first_le_free
        apply heap.pass_notData half pass qPages (by omega) (by omega)
          (arena.tail_notData mem (by omega))
        intro isRecord
        rcases heap.record_block half isRecord with ⟨p, _, _, pTiled, rMem, _⟩
        have := (arena.pageOk p pTiled).block_bounds rMem
        by_cases same : q = p
        · subst same
          omega
        · have := arena.apart qPages (Arena.tiled_pages pTiled) same
          omega
  have firstPage : h'.firstPage = s.heap.firstPage := by rw [heapEq]
  rwa [firstPage]

/-- The passes of a sweep together. -/
theorem sweep_ends (heap : RecordHeap pf threads h c bigs records)
    (inert : Inert h c bigs records) (enough : sweepFuel pf c bigs ≤ fuel) :
    Yields (fun fault => fault = .mapFailed ∨ fault = .assertFailed ∧
        ¬RecordsLeave threads h c records)
      (fun h' => ∃ moved s c₂ m c', Halfway pf h c bigs moved s c₂ ∧
        Pass threads h c bigs records moved s.heap.mem c₂ [] m ∧ Ended pf s c₂ m h' c')
      (sweep pf fuel threads h) := by
  rw [sweep_eq]
  refine Yields.bind (((sweepHalf_yields heap.toSweepStart enough).and
    (sweepHalf_fromData heap.toSweepStart enough)).permit fun _ refused => Or.inl refused) ?_
  rintro s ⟨⟨moved, c₂, half⟩, kept⟩
  refine Yields.bind ((heap.pass_pages inert half kept enough).permit fun _ => Or.inr) ?_
  intro h₃ state
  have pass : Pass threads h c bigs records moved s.heap.mem c₂ [] (fixRoots threads h₃).mem := by
    refine Flagging.roots (heap.patchable_all half) (heap.basesFollow half) ?_
    rw [List.append_nil]
    exact state.holds
  have heapEq : fixRoots threads h₃ = { s.heap with
      mem := (fixRoots threads h₃).mem, metaReads := (fixRoots threads h₃).metaReads } := by
    have start := state.heapEq
    simp only [fixRoots]
    rw [start]
  rcases half.recycle enough (heap.pass_arena half pass heapEq) heapEq with
    ⟨h₅, h', recycled, cleared, c', ended⟩
  rw [recycled]
  change Yields _ _ (clearFreeBlocks (h₅.maxFreeBlock + 1) 8
    { h₅ with firstPage := s.alivePages } >>= _)
  rw [cleared]
  exact ⟨moved, s, c₂, _, c', half, pass, ended⟩

/-- The words in the heads of big blocks are not visited. -/
theorem pass_bigWords (heap : RecordHeap pf threads h c bigs records)
    (half : Halfway pf h c bigs moved s c₂)
    (pass : Pass threads h c bigs records moved s.heap.mem c₂ [] m) {big x : Nat}
    (mem : big ∈ bigs) (alive : bigSurvives h.mem big = true) (lower : big ≤ x)
    (upper : x < big + 16) : m x = s.heap.mem x := by
  have := bigLength_ge pf h.mem big
  have apart := heap.big_apart half mem alive lower (by omega)
  exact pass.frame x apart.1 apart.2.1 apart.2.2

end RecordHeap

/-- If every surviving record is inert, and no visited composite pointer has its record on a page
with a pinned block, then a sweep stops for a refused mapping only, and leaves no flag behind.  If
the records are inert and a sweep leaves no flag behind, then no visited composite pointer has its
record on such a page. -/
theorem sweep_unflagged_iff (heap : RecordHeap pf threads h c bigs records)
    (enough : sweepFuel pf c bigs ≤ fuel) :
    (Inert h c bigs records ∧ RecordsLeave threads h c records →
      (∀ h', sweep pf fuel threads h = .ok h' → Unflagged h') ∧
        ∀ fault, sweep pf fuel threads h = .error fault → fault = .mapFailed) ∧
      (Inert h c bigs records → ∀ h', sweep pf fuel threads h = .ok h' → Unflagged h' →
        RecordsLeave threads h c records) := by
  have reached : Inert h c bigs records → ∀ h', sweep pf fuel threads h = .ok h' →
      (Unflagged h' ↔ RecordsLeave threads h c records) := by
    intro inert h' eq
    rcases (heap.sweep_ends inert enough).of_ok eq with ⟨moved, s, c₂, m, c', half, pass, ended⟩
    rw [half.unflagged_iff ended fun big mem alive x lower upper =>
      heap.pass_bigWords half pass mem alive lower upper]
    constructor
    · intro unflagged g visited r isRecord refers q qMem rMem pinned
      have marked := heap.pass_flagged half pass visited isRecord refers
      have inAlive := (half.mem_alive_iff qMem).mpr pinned
      rw [(unflagged q inAlive r (half.old_block qMem rMem).1).2] at marked
      cases marked
    · exact fun leave q qMem d dMem => heap.pass_unflagged half pass leave qMem dMem
  constructor
  · rintro ⟨inert, leave⟩
    refine ⟨fun h' eq => (reached inert h' eq).mpr leave, fun fault eq => ?_⟩
    exact ((heap.sweep_ends inert enough).of_error eq).resolve_right fun failed => failed.2 leave
  · exact fun inert h' eq => (reached inert h' eq).mp

theorem compositeHeap_recordHeap :
    RecordHeap noMemory sampleRoots compositeHeap compositeCensus [] [65600] := by
  have onlyRoot : ∀ a ∈ sampleRoots.flatten, a = 133120 := by
    intro a mem
    simpa [sampleRoots] using mem
  refine
    { compositeHeap_compositeHeap with rootsNodup := by decide, rootOff := ?_, root := ?_ }
  · intro a mem
    rw [onlyRoot a mem]
    refine ⟨by decide, ⟨⟨⟨131072, 4096⟩, by decide, by decide, by decide⟩, fun p pMem => ?_⟩,
      by simp⟩
    have : p = 65536 ∨ p = 69632 := by simpa [Census.pages, compositeCensus] using pMem
    simp only [noMemory]
    omega
  · intro a mem _
    rw [onlyRoot a mem]
    exact ⟨65600, by decide, by decide⟩

/-- The record is evacuated together with its object, and no flag is left behind. -/
theorem sweep_unflagged_iff_compositeHeap :
    Inert compositeHeap compositeCensus [] [65600] ∧
      RecordsLeave sampleRoots compositeHeap compositeCensus [65600] ∧
        ∃ h', sweep noMemory 16390 sampleRoots compositeHeap = .ok h' ∧ Unflagged h' := by
  have inert : Inert compositeHeap compositeCensus [] [65600] := by
    intro r mem _
    obtain rfl : r = 65600 := List.mem_singleton.mp mem
    exact Or.inr ⟨65552, Or.inl ⟨65536, by decide, by decide, by decide, by decide⟩, by decide,
      by decide, by decide⟩
  have unpinned : ∀ q ∈ compositeCensus.alive, ∀ b ∈ compositeCensus.blocks q,
      blockIsPinned (compositeHeap.mem b) = false := by decide
  have leave : RecordsLeave sampleRoots compositeHeap compositeCensus [65600] := by
    rintro g _ r _ _ q qMem _ ⟨b, bMem, pinned⟩
    rw [unpinned q qMem b bMem] at pinned
    cases pinned
  have enough : sweepFuel noMemory compositeCensus [] ≤ 16390 := by decide
  rcases compositeHeap_sweep.total with ⟨h', eq, _⟩
  have unflagged := (sweep_unflagged_iff compositeHeap_recordHeap enough).1 ⟨inert, leave⟩
  exact ⟨inert, leave, h', eq, unflagged.1 h' eq⟩

/-- The page at `65536` holds an object of three words without slots and, behind it, the record of a
pointer to the second word, which a root designates.  A stack word hits the object. -/
def neighbourHeap : Heap where
  mem := wordsAt [(65544, 65648), (65552, 48), (65568, 131072), (65576, 1), (65608, 32),
    (65616, 65592), (65624, 65584), (65632, 1), (65648, 3976), (131072, 24), (133120, 65619)]
  mappings := [⟨65536, 8192⟩, ⟨131072, 4096⟩]
  parts := [⟨65536, 73728⟩]
  freePages := 1
  totalPages := 2
  firstPage := 65536
  freeList := 69632
  lastPage := 65536

theorem neighbourHeap_unflagged : Unflagged neighbourHeap := by
  have onPage : Chain (pageNext neighbourHeap.mem) neighbourHeap.firstPage [65536] := by decide
  have tiled : Tiles (blockExtent neighbourHeap.mem) (firstBlock 65536)
      (freeBlock neighbourHeap.mem 65536) [65552, 65608] := by decide
  have clear : ∀ b ∈ [65552, 65608], blockIsPinned (neighbourHeap.mem b) = false ∧
      blockIsMarked (neighbourHeap.mem b) = false := by decide
  rintro b (⟨pages, p, blocks, chain, pMem, tiles, bMem⟩ | ⟨big, ⟨bigs, chain, mem⟩, rfl⟩)
  · obtain rfl := chain.unique onPage
    obtain rfl := List.mem_singleton.mp pMem
    exact clear b (tiles.unique tiled ▸ bMem)
  · rw [chain.head_eq_zero_iff.mp rfl] at mem
    cases mem

/-- The table in which the object is registered. -/
def neighbourTable : DerefRoots where
  roots := Function.update (fun _ => []) (hashOfRoot 65584) [⟨524288, 65584, 65608⟩]
  count := 1
  totalCount := mmapCount

theorem neighbourHeap_collected : Yields (fun _ => False)
    (fun r => Chain (pageNext r.2.mem) r.2.firstPage [65536] ∧
      Tiles (blockExtent r.2.mem) (firstBlock 65536) (freeBlock r.2.mem 65536) [65552, 65608] ∧
        blockIsMarked (r.2.mem 65608) = true)
    (markAndSweep noMemory 16390 [⟨[65584], [133120]⟩] .null
      (neighbourTable, neighbourHeap)) := by
  decide +kernel

/-- After a collection of a heap without flags the record is marked. -/
theorem sweep_record_flagged :
    Unflagged neighbourHeap ∧
      ∃ t h', markAndSweep noMemory 16390 [⟨[65584], [133120]⟩] .null
          (neighbourTable, neighbourHeap) = .ok (t, h') ∧ ¬Unflagged h' := by
  rcases neighbourHeap_collected.total with ⟨⟨t, h'⟩, eq, chain, tiles, marked⟩
  refine ⟨neighbourHeap_unflagged, t, h', eq, fun unflagged => ?_⟩
  have used : InUse h' 65608 :=
    Or.inl ⟨[65536], 65536, [65552, 65608], chain, by decide, tiles, by decide⟩
  have flags := unflagged 65608 used
  rw [flags.2] at marked
  cases marked

end PreciseGc

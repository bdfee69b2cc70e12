import PreciseGc.Sweep.CopyBlock

/-!
# The evacuation pass

The pass visits every block of the pages without a pinned block.  Its
invariant is stated against the heap `h₀` and the census `c₀` in which it
starts: the pages being evacuated change only in the first data word of blocks
already copied, the blocks that were in use stay as they are, and `moved`
relates every block copied so far to its copy.
-/

namespace PreciseGc

open Foundation Memory

variable {pf : Platform} {fromHead aliveHead : Nat} {h h' : Heap} {c c' : Census} {p b : Nat}

/-- No word outside the data of a block is part of that data: page words, headers and free
blocks are not block data. -/
structure NotData (pf : Platform) (m : Memory) (c : Census) (x : Nat) : Prop where
  away : ∀ q ∈ c.tiled, ∀ d ∈ c.blocks q, x < d + 8 ∨ d + 8 + blockSize (m d) ≤ x

theorem Arena.link_notData (arena : Arena pf fromHead aliveHead h c) (inPages : p ∈ c.pages) :
    NotData pf h.mem c p where
  away q qTiled d dMem := by
    have := (arena.pageOk q qTiled).block_bounds dMem
    have := pf.pageSize_ge
    by_cases same : p = q
    · subst same
      omega
    · have := arena.apart inPages (Arena.tiled_pages qTiled) same
      omega

theorem Arena.free_notData (arena : Arena pf fromHead aliveHead h c) (inTiled : p ∈ c.tiled) :
    NotData pf h.mem c (p + 8) where
  away q qTiled d dMem := by
    have := (arena.pageOk q qTiled).block_bounds dMem
    have := pf.pageSize_ge
    by_cases same : p = q
    · subst same
      omega
    · have := arena.apart (Arena.tiled_pages inTiled) (Arena.tiled_pages qTiled) same
      omega

/-- The header of the free tail is not block data. -/
theorem Arena.tail_notData (arena : Arena pf fromHead aliveHead h c) (inTiled : p ∈ c.tiled)
    (inside : freeBlock h.mem p < p + pf.pageSize) :
    NotData pf h.mem c (freeBlock h.mem p) where
  away q qTiled d dMem := by
    have := (arena.pageOk q qTiled).block_bounds dMem
    have := (arena.pageOk p inTiled).first_le_free
    by_cases same : p = q
    · subst same
      omega
    · have := arena.apart (Arena.tiled_pages inTiled) (Arena.tiled_pages qTiled) same
      omega

/-- Two blocks of the census are the same or do not overlap. -/
theorem Arena.blocks_disjoint (arena : Arena pf fromHead aliveHead h c) {q d : Nat}
    (pTiled : p ∈ c.tiled) (bMem : b ∈ c.blocks p) (qTiled : q ∈ c.tiled) (dMem : d ∈ c.blocks q)
    (different : b ≠ d) :
    b + 8 + blockSize (h.mem b) ≤ d ∨ d + 8 + blockSize (h.mem d) ≤ b := by
  have bBounds := (arena.pageOk p pTiled).block_bounds bMem
  have dBounds := (arena.pageOk q qTiled).block_bounds dMem
  by_cases same : p = q
  · subst same
    have := (arena.pageOk p pTiled).tiles.disjoint bMem dMem different
    simp only [blockExtent, sizeofBlock] at this
    omega
  · have := arena.apart (Arena.tiled_pages pTiled) (Arena.tiled_pages qTiled) same
    omega

theorem Arena.header_notData (arena : Arena pf fromHead aliveHead h c) (pTiled : p ∈ c.tiled)
    (bMem : b ∈ c.blocks p) : NotData pf h.mem c b where
  away q qTiled d dMem := by
    by_cases same : b = d
    · omega
    · have := arena.blocks_disjoint pTiled bMem qTiled dMem same
      omega

/-- A change of words of block data, or outside the pages, keeps the arena. -/
theorem Arena.change_words (arena : Arena pf fromHead aliveHead h c) (same : SameOwnership h h')
    (frame : ∀ q ∈ c.pages, ∀ x, q ≤ x → x < q + pf.pageSize → NotData pf h.mem c x →
      h'.mem x = h.mem x) : Arena pf fromHead aliveHead h' c := by
  have large := pf.pageSize_ge
  refine arena.transport same ?_ ?_
  · intro q mem
    exact frame q mem q (Nat.le_refl _) (by omega) (arena.link_notData mem)
  · intro q mem
    have ok := arena.pageOk q mem
    have qPages := Arena.tiled_pages mem
    refine ok.congr ?_ ?_ ?_
    · exact frame q qPages _ (by omega) (by omega) (arena.free_notData mem)
    · intro d dMem
      have := ok.block_bounds dMem
      exact congrArg blockSize
        (frame q qPages d (by omega) (by omega) (arena.header_notData mem dMem))
    · intro notFull
      rw [pageIsFull_eq_false_iff] at notFull
      have := ok.first_le_free
      exact frame q qPages _ (by omega) (by omega) (arena.tail_notData mem (by omega))

/-- A block lies on one page only. -/
theorem Arena.page_unique (arena : Arena pf fromHead aliveHead h c) {q : Nat}
    (pTiled : p ∈ c.tiled) (bMem : b ∈ c.blocks p) (qTiled : q ∈ c.tiled) (bMem' : b ∈ c.blocks q) :
    p = q := by
  by_contra different
  have := (arena.pageOk p pTiled).block_bounds bMem
  have := (arena.pageOk q qTiled).block_bounds bMem'
  have := arena.apart (Arena.tiled_pages pTiled) (Arena.tiled_pages qTiled) different
  omega

/-- The blocks of distinct pages, listed page by page, are distinct. -/
theorem Arena.nodup_blocks (arena : Arena pf fromHead aliveHead h c) {pages : List Nat}
    (unique : pages.Nodup) (tiled : ∀ q ∈ pages, q ∈ c.tiled) :
    (pages.flatMap c.blocks).Nodup := by
  induction pages with
  | nil => simp
  | cons q pages ih =>
      rw [List.flatMap_cons, List.nodup_append']
      rcases List.nodup_cons.mp unique with ⟨notLater, unique'⟩
      refine ⟨(arena.pageOk q (tiled q (by simp))).tiles.nodup,
        ih unique' fun r mem => tiled r (by simp [mem]), ?_⟩
      intro d inHead inTail
      rcases List.mem_flatMap.mp inTail with ⟨r, rMem, dMem⟩
      have same := arena.page_unique (tiled q (by simp)) inHead (tiled r (by simp [rMem])) dMem
      exact notLater (same ▸ rMem)

/-- `copy` holds the data `b` had in `h₀`, and `b` forwards to it. -/
structure CopyOf (h₀ h : Heap) (b copy : Nat) : Prop where
  header : h.mem copy = blockSize (h₀.mem b)
  data : ∀ o < blockSize (h₀.mem b), h.mem (copy + 8 + o) = h₀.mem (b + 8 + o)
  forward : h.mem (b + 8) = copy + 8

/-- The state of the evacuation with the blocks `todo` still to be visited. -/
structure Evacuating (pf : Platform) (h₀ : Heap) (c₀ : Census) (todo : List Nat)
    (moved : List (Nat × Nat)) (s : SweepState) (c : Census) : Prop where
  arena : Arena pf s.heap.firstPage s.alivePages s.heap c
  heldNil : c.held = []
  buckets : Buckets pf s.heap (· ∈ c.alive)
  maxBound : s.heap.maxFreeBlock ≤ pf.bigBlockThreshold
  fromSpace : c.fromSpace = c₀.fromSpace
  fromBlocks : ∀ q ∈ c₀.fromSpace, c.blocks q = c₀.blocks q
  aliveSub : ∀ q ∈ c₀.alive, q ∈ c.alive ∧ ∀ d ∈ c₀.blocks q, d ∈ c.blocks q
  fromFrame : ∀ q ∈ c₀.fromSpace, ∀ x, q ≤ x → x < q + pf.pageSize →
    (∀ d ∈ moved.map Prod.fst, x ≠ d + 8) → s.heap.mem x = h₀.mem x
  aliveFrame : ∀ q ∈ c₀.alive, AgreeOn h₀.mem s.heap.mem (q + 16) (freeBlock h₀.mem q)
  freeMono : ∀ q ∈ c₀.alive, freeBlock h₀.mem q ≤ freeBlock s.heap.mem q
  outside : ∀ x, Outside pf h₀ c₀ x → Outside pf s.heap c x ∧ s.heap.mem x = h₀.mem x
  mappings : MoreMapped h₀.mappings s.heap.mappings
  sources : ∀ d ∈ moved.map Prod.fst, blockIsMarked (h₀.mem d) = true ∧
    ∃ q ∈ c₀.fromSpace, d ∈ c₀.blocks q
  copies : ∀ pair ∈ moved, CopyOf h₀ s.heap pair.1 pair.2 ∧ ∃ q ∈ c.alive, pair.2 ∈ c.blocks q
  sourcesNodup : (moved.map Prod.fst).Nodup
  copiesNodup : (moved.map Prod.snd).Nodup
  copiesFresh : ∀ q ∈ c₀.alive, ∀ d ∈ c₀.blocks q, d ∉ moved.map Prod.snd
  aliveBlocks : ∀ q ∈ c.alive, ∀ d ∈ c.blocks q,
    (q ∈ c₀.alive ∧ d ∈ c₀.blocks q) ∨ d ∈ moved.map Prod.snd
  aliveLength : c.alive.length ≤ c₀.alive.length + moved.length + 1
  todoNodup : todo.Nodup
  todoFrom : ∀ d ∈ todo, ∃ q ∈ c₀.fromSpace, d ∈ c₀.blocks q
  todoFresh : ∀ d ∈ todo, d ∉ moved.map Prod.fst
  complete : ∀ q ∈ c₀.fromSpace, ∀ d ∈ c₀.blocks q, blockIsMarked (h₀.mem d) = true →
    d ∈ moved.map Prod.fst ∨ d ∈ todo
  firstPage : s.heap.firstPage = h₀.firstPage
  firstBigBlock : s.heap.firstBigBlock = h₀.firstBigBlock
  metaReads : s.heap.metaReads = h₀.metaReads

/-- What the evacuation starts from: pages without pinned blocks in from-space. -/
structure EvacuationStart (pf : Platform) (aliveHead : Nat) (h₀ : Heap) (c₀ : Census) : Prop where
  arena : Arena pf h₀.firstPage aliveHead h₀ c₀
  heldNil : c₀.held = []
  small : pf.bigBlockThreshold < freeBlocksLength
  unpinned : ∀ q ∈ c₀.fromSpace, ∀ d ∈ c₀.blocks q, blockIsPinned (h₀.mem d) = false

/-- On the pages of from-space no dead block is marked. -/
structure Evacuable (pf : Platform) (aliveHead : Nat) (h₀ : Heap) (c₀ : Census) : Prop
    extends EvacuationStart pf aliveHead h₀ c₀ where
  deadUnmarked : ∀ q ∈ c₀.fromSpace, ∀ d ∈ c₀.blocks q,
    (blockIsDead (h₀.mem d) && blockIsMarked (h₀.mem d)) = false

/-- The faults an evacuation can stop with: a refused mapping, or the assertion that no dead block
is marked. -/
def EvacuationFault (h₀ : Heap) (c₀ : Census) (fault : Fault) : Prop :=
  fault = .mapFailed ∨ fault = .assertFailed ∧ ∃ q ∈ c₀.fromSpace, ∃ d ∈ c₀.blocks q,
    (blockIsDead (h₀.mem d) && blockIsMarked (h₀.mem d)) = true

theorem Evacuable.fault_eq {h₀ : Heap} {c₀ : Census} (start : Evacuable pf aliveHead h₀ c₀)
    {fault : Fault} (stopped : EvacuationFault h₀ c₀ fault) : fault = .mapFailed := by
  rcases stopped with refused | ⟨_, q, qFrom, d, dMem, marked⟩
  · exact refused
  · rw [start.deadUnmarked q qFrom d dMem] at marked
    cases marked

namespace Evacuating

variable {h₀ : Heap} {c₀ : Census} {todo : List Nat} {moved : List (Nat × Nat)} {s : SweepState}

theorem fromTiled (mem : p ∈ c₀.fromSpace) : p ∈ c₀.tiled := by simp [Census.tiled, mem]

/-- A word of from-space that is not block data is unchanged. -/
theorem notData_eq (inv : Evacuating pf h₀ c₀ todo moved s c)
    (start : EvacuationStart pf aliveHead h₀ c₀) {x : Nat} (inFrom : p ∈ c₀.fromSpace)
    (lower : p ≤ x)
    (upper : x < p + pf.pageSize) (notData : NotData pf h₀.mem c₀ x) :
    s.heap.mem x = h₀.mem x := by
  refine inv.fromFrame p inFrom x lower upper fun d mem => ?_
  rcases (inv.sources d mem).2 with ⟨q, qFrom, dMem⟩
  have := notData.away q (fromTiled qFrom) d dMem
  have := ((start.arena.pageOk q (fromTiled qFrom)).block_bounds dMem).2.2.2
  omega

theorem header_eq (inv : Evacuating pf h₀ c₀ todo moved s c)
    (start : EvacuationStart pf aliveHead h₀ c₀) (inFrom : p ∈ c₀.fromSpace)
    (bMem : b ∈ c₀.blocks p) :
    s.heap.mem b = h₀.mem b := by
  have := (start.arena.pageOk p (fromTiled inFrom)).block_bounds bMem
  exact inv.notData_eq start inFrom (by omega) (by omega)
    (start.arena.header_notData (fromTiled inFrom) bMem)

theorem link_eq (inv : Evacuating pf h₀ c₀ todo moved s c)
    (start : EvacuationStart pf aliveHead h₀ c₀) (inFrom : p ∈ c₀.fromSpace) :
    pageNext s.heap.mem p = pageNext h₀.mem p :=
  inv.notData_eq start inFrom (Nat.le_refl _) (by have := pf.pageSize_ge; omega)
    (start.arena.link_notData (Arena.tiled_pages (fromTiled inFrom)))

theorem free_eq (inv : Evacuating pf h₀ c₀ todo moved s c)
    (start : EvacuationStart pf aliveHead h₀ c₀) (inFrom : p ∈ c₀.fromSpace) :
    freeBlock s.heap.mem p = freeBlock h₀.mem p :=
  inv.notData_eq start inFrom (by omega) (by have := pf.pageSize_ge; omega)
    (start.arena.free_notData (fromTiled inFrom))

/-- The data of a block still to be visited is unchanged. -/
theorem data_eq (inv : Evacuating pf h₀ c₀ todo moved s c)
    (start : EvacuationStart pf aliveHead h₀ c₀) (inFrom : p ∈ c₀.fromSpace)
    (bMem : b ∈ c₀.blocks p)
    (inTodo : b ∈ todo) {o : Nat} (inside : o < blockSize (h₀.mem b)) :
    s.heap.mem (b + 8 + o) = h₀.mem (b + 8 + o) := by
  have bounds := (start.arena.pageOk p (fromTiled inFrom)).block_bounds bMem
  refine inv.fromFrame p inFrom _ (by omega) (by omega) fun d mem => ?_
  have different : b ≠ d := by
    rintro rfl
    exact inv.todoFresh b inTodo mem
  rcases (inv.sources d mem).2 with ⟨q, qFrom, dMem⟩
  have := start.arena.blocks_disjoint (fromTiled inFrom) bMem (fromTiled qFrom) dMem different
  have := ((start.arena.pageOk q (fromTiled qFrom)).block_bounds dMem).2.2.2
  omega

/-- Skipping an unmarked block. -/
theorem skip (inv : Evacuating pf h₀ c₀ (b :: todo) moved s c)
    (unmarked : blockIsMarked (h₀.mem b) = false) : Evacuating pf h₀ c₀ todo moved s c :=
  { inv with
    todoNodup := (List.nodup_cons.mp inv.todoNodup).2
    todoFrom := fun d mem => inv.todoFrom d (by simp [mem])
    todoFresh := fun d mem => inv.todoFresh d (by simp [mem])
    complete := by
      intro q qFrom d dMem marked
      rcases inv.complete q qFrom d dMem marked with done | later
      · exact Or.inl done
      · rcases List.mem_cons.mp later with rfl | later
        · rw [unmarked] at marked
          exact absurd marked (by simp)
        · exact Or.inr later }

/-- Copying a marked block. -/
theorem copy (inv : Evacuating pf h₀ c₀ (b :: todo) moved s c)
    (start : EvacuationStart pf aliveHead h₀ c₀) (inFrom : p ∈ c₀.fromSpace)
    (bMem : b ∈ c₀.blocks p)
    (marked : blockIsMarked (h₀.mem b) = true) {q new : Nat}
    (copied : Copied pf s.heap.firstPage s.alivePages s.heap c b h' c' q new) :
    Evacuating pf h₀ c₀ todo (moved ++ [(b, new)]) { s with heap := h' } c' := by
  have headerEq := inv.header_eq start inFrom bMem
  have bFresh : b ∉ moved.map Prod.fst := inv.todoFresh b (by simp)
  have qTiled : q ∈ c'.tiled := by simp [Census.tiled, copied.target]
  have newMem : new ∈ c'.blocks q := by
    rcases copied.targetBlocks with ⟨_, eq, _⟩ | ⟨_, eq⟩ <;> simp [eq]
  have aliveGrows : ∀ r ∈ c.alive, r ∈ c'.alive := by
    intro r rAlive
    rcases copied.alive with eq | eq <;> simp [eq, rAlive]
  have aliveTiled : ∀ r ∈ c.alive, r ∈ c.tiled := fun r rAlive => by simp [Census.tiled, rAlive]
  -- old blocks of alive pages stay, and none of them is the new block
  have oldBlocks : ∀ r ∈ c.alive, ∀ d ∈ c.blocks r, d ∈ c'.blocks r ∧ d ≠ new := by
    intro r rAlive d dMem
    have stays : d ∈ c'.blocks r := by
      by_cases same : r = q
      · subst same
        rcases copied.targetBlocks with ⟨_, eq, _⟩ | ⟨notTiled, _⟩
        · simp [eq, dMem]
        · exact absurd (aliveTiled r rAlive) notTiled
      · rwa [copied.otherBlocks r (aliveTiled r rAlive) same]
    refine ⟨stays, ?_⟩
    rintro rfl
    have rTiled : r ∈ c'.tiled := by simp [Census.tiled, aliveGrows r rAlive]
    have same := copied.arena.page_unique rTiled stays qTiled newMem
    subst same
    have unique := (copied.arena.pageOk r rTiled).tiles.nodup
    rcases copied.targetBlocks with ⟨_, eq, _⟩ | ⟨notTiled, _⟩
    · rw [eq, List.nodup_append'] at unique
      exact unique.2.2 dMem (by simp)
    · exact absurd (aliveTiled r rAlive) notTiled
  have copiesOld : ∀ d ∈ moved.map Prod.snd, d ≠ new := by
    intro d dMem
    rcases List.mem_map.mp dMem with ⟨pair, pairMem, rfl⟩
    rcases (inv.copies pair pairMem).2 with ⟨r, rAlive, dBlocks⟩
    exact (oldBlocks r rAlive _ dBlocks).2
  refine
    { arena := ?_, heldNil := copied.heldNil, buckets := copied.buckets,
      maxBound := copied.maxBound, fromSpace := copied.fromSpace.trans inv.fromSpace,
      fromBlocks := ?_, aliveSub := ?_, fromFrame := ?_, aliveFrame := ?_, freeMono := ?_,
      outside := ?_, mappings := inv.mappings.trans copied.mappings, sources := ?_,
      copies := ?_, sourcesNodup := ?_, copiesNodup := ?_,
      copiesFresh := ?_, aliveBlocks := ?_, aliveLength := ?_,
      todoNodup := (List.nodup_cons.mp inv.todoNodup).2,
      todoFrom := fun d mem => inv.todoFrom d (by simp [mem]), todoFresh := ?_, complete := ?_,
      firstPage := copied.firstPage.trans inv.firstPage,
      firstBigBlock := copied.firstBigBlock.trans inv.firstBigBlock,
      metaReads := copied.metaReads.trans inv.metaReads }
  · have := copied.arena
    rwa [← copied.firstPage] at this
  · intro r rFrom
    have rFromC : r ∈ c.fromSpace := inv.fromSpace ▸ rFrom
    have rNeq : r ≠ q := by
      rintro rfl
      exact copied.arena.not_mem_alive_of_fromSpace (copied.fromSpace ▸ rFromC) copied.target
    rw [copied.otherBlocks r (by simp [Census.tiled, rFromC]) rNeq, inv.fromBlocks r rFrom]
  · intro r rAlive
    rcases inv.aliveSub r rAlive with ⟨rAliveC, blocks⟩
    exact ⟨aliveGrows r rAliveC, fun d dMem => (oldBlocks r rAliveC d (blocks d dMem)).1⟩
  · intro r rFrom x lower upper others
    simp only [List.map_append, List.map_cons, List.map_nil, List.mem_append,
      List.mem_singleton] at others
    rw [copied.fromFrame r (inv.fromSpace ▸ rFrom) x lower upper (others b (Or.inr rfl))]
    exact inv.fromFrame r rFrom x lower upper fun d mem => others d (Or.inl mem)
  · intro r rAlive
    exact (inv.aliveFrame r rAlive).trans
      ((copied.aliveFrame r (inv.aliveSub r rAlive).1).mono (Nat.le_refl _) (inv.freeMono r rAlive))
  · intro r rAlive
    exact Nat.le_trans (inv.freeMono r rAlive) (copied.freeMono r (inv.aliveSub r rAlive).1)
  · intro x out
    rcases inv.outside x out with ⟨out', same⟩
    rcases copied.outside x out' with ⟨out'', same'⟩
    exact ⟨out'', same'.trans same⟩
  · intro d mem
    simp only [List.map_append, List.map_cons, List.map_nil, List.mem_append,
      List.mem_singleton] at mem
    rcases mem with old | rfl
    · exact inv.sources d old
    · exact ⟨marked, p, inFrom, bMem⟩
  · intro pair mem
    rcases List.mem_append.mp mem with old | new'
    · rcases inv.copies pair old with ⟨copyOf, r, rAlive, dMem⟩
      refine ⟨?_, r, aliveGrows r rAlive, (oldBlocks r rAlive _ dMem).1⟩
      have bounds := (inv.arena.pageOk r (aliveTiled r rAlive)).block_bounds dMem
      have sizeEq : blockSize (s.heap.mem pair.2) = blockSize (h₀.mem pair.1) := by
        rw [copyOf.header, blockSize_of_aligned (blockSize_mod _)]
      have frame := copied.aliveFrame r rAlive
      have source : pair.1 ∈ moved.map Prod.fst := List.mem_map_of_mem old
      rcases (inv.sources _ source).2 with ⟨t, tFrom, tMem⟩
      have tBounds := (start.arena.pageOk t (fromTiled tFrom)).block_bounds tMem
      refine ⟨?_, fun o less => ?_, ?_⟩
      · rw [← copyOf.header]
        exact frame _ (by omega) (by omega)
      · rw [← copyOf.data o less]
        exact frame _ (by omega) (by omega)
      · rw [← copyOf.forward]
        refine copied.fromFrame t (inv.fromSpace ▸ tFrom) _ (by omega) (by omega) ?_
        intro same
        have : pair.1 = b := by omega
        exact bFresh (this ▸ source)
    · rw [List.mem_singleton.mp new']
      refine ⟨⟨?_, fun o less => ?_, copied.forward⟩, q, copied.target, newMem⟩
      · rw [copied.header, headerEq]
      · rw [copied.data o (by rwa [headerEq])]
        exact inv.data_eq start inFrom bMem (by simp) less
  · simp only [List.map_append, List.map_cons, List.map_nil]
    rw [List.nodup_append']
    refine ⟨inv.sourcesNodup, by simp, ?_⟩
    intro d old new'
    exact bFresh (List.mem_singleton.mp new' ▸ old)
  · simp only [List.map_append, List.map_cons, List.map_nil]
    rw [List.nodup_append']
    refine ⟨inv.copiesNodup, by simp, ?_⟩
    intro d old new'
    exact copiesOld d old (List.mem_singleton.mp new')
  · intro r rAlive d dMem mem
    simp only [List.map_append, List.map_cons, List.map_nil, List.mem_append,
      List.mem_singleton] at mem
    rcases inv.aliveSub r rAlive with ⟨rAliveC, blocks⟩
    rcases mem with old | rfl
    · exact inv.copiesFresh r rAlive d dMem old
    · exact (oldBlocks r rAliveC _ (blocks _ dMem)).2 rfl
  · intro r rAlive' d dMem
    simp only [List.map_append, List.map_cons, List.map_nil, List.mem_append, List.mem_singleton]
    by_cases same : r = q
    · subst same
      rcases copied.targetBlocks with ⟨rAlive, eq, _⟩ | ⟨_, eq⟩
      · rw [eq, List.mem_append, List.mem_singleton] at dMem
        rcases dMem with old | rfl
        · rcases inv.aliveBlocks r rAlive d old with original | copy
          · exact Or.inl original
          · exact Or.inr (Or.inl copy)
        · exact Or.inr (Or.inr rfl)
      · rw [eq, List.mem_singleton] at dMem
        exact Or.inr (Or.inr dMem)
    · have rAlive : r ∈ c.alive := by
        rcases copied.alive with eq | eq
        · rwa [eq] at rAlive'
        · rw [eq, List.mem_append, List.mem_singleton] at rAlive'
          exact rAlive'.resolve_right same
      rw [copied.otherBlocks r (aliveTiled r rAlive) same] at dMem
      rcases inv.aliveBlocks r rAlive d dMem with original | copy
      · exact Or.inl original
      · exact Or.inr (Or.inl copy)
  · have := inv.aliveLength
    simp only [List.length_append, List.length_singleton]
    rcases copied.alive with eq | eq
    · rw [eq]
      omega
    · rw [eq, List.length_append, List.length_singleton]
      omega
  · intro d mem moved'
    simp only [List.map_append, List.map_cons, List.map_nil, List.mem_append,
      List.mem_singleton] at moved'
    rcases moved' with old | rfl
    · exact inv.todoFresh d (by simp [mem]) old
    · exact (List.nodup_cons.mp inv.todoNodup).1 mem
  · intro r rFrom d dMem dMarked
    simp only [List.map_append, List.map_cons, List.map_nil, List.mem_append, List.mem_singleton]
    rcases inv.complete r rFrom d dMem dMarked with done | later
    · exact Or.inl (Or.inl done)
    · rcases List.mem_cons.mp later with rfl | later
      · exact Or.inl (Or.inr rfl)
      · exact Or.inr later

/-- Without a page in use nothing has been copied yet. -/
theorem moved_eq_nil (inv : Evacuating pf h₀ c₀ todo moved s c) (noneAlive : c.alive = []) :
    moved = [] := by
  cases moved with
  | nil => rfl
  | cons pair moved =>
      rcases (inv.copies pair (by simp)).2 with ⟨q, qAlive, _⟩
      simp [noneAlive] at qAlive

/-- The first page of to-space. -/
theorem ensureAlivePage_yields (inv : Evacuating pf h₀ c₀ todo moved s c)
    (start : EvacuationStart pf aliveHead h₀ c₀) :
    Yields (· = Fault.mapFailed)
      (fun s' => ∃ c', Evacuating pf h₀ c₀ todo moved s' c' ∧ c'.alive ≠ [])
      (ensureAlivePage pf s) := by
  unfold ensureAlivePage
  split
  · rename_i noPage
    have noneAlive : c.alive = [] := inv.arena.aliveChain.head_eq_zero_iff.mp noPage
    have movedNil := inv.moved_eq_nil noneAlive
    subst movedNil
    have noneAlive₀ : c₀.alive = [] := by
      cases eq : c₀.alive with
      | nil => rfl
      | cons q rest =>
          have := (inv.aliveSub q (by simp [eq])).1
          simp [noneAlive] at this
    refine (requestNewPage_yields inv.arena inv.heldNil true).bind ?_
    rintro ⟨newPage, h₁⟩ (⟨isNull, _⟩ | ⟨free, taken⟩)
    · simp only at isNull
      simp [isNull]
    simp only at taken
    have nonnull := taken.nonnull
    have thr := pf.bigBlockThreshold_add
    have large := pf.pageSize_ge
    simp only [nonnull, ↓reduceIte]
    rw [checkIndex_of_lt start.small]
    change Yields _ _ (Except.ok _)
    have adopted : Arena pf _ _ { h₁ with lastPage := newPage } _ :=
      taken.arena.adoptHeld rfl nonnull taken.link noneAlive rfl rfl rfl rfl rfl rfl rfl rfl
    have aliveEq : ((c.take newPage free).append newPage).alive = [newPage] := by
      simp [Census.append, Census.take, noneAlive]
    have blocksEq : ((c.take newPage free).append newPage).blocks newPage = [] := by
      simp [Census.append, Census.take]
    have inTiled : newPage ∈ ((c.take newPage free).append newPage).tiled := by
      simp [Census.tiled, aliveEq]
    have pageOk := adopted.pageOk newPage inTiled
    rw [blocksEq] at pageOk
    have freeEq : newPage + 16 = freeBlock h₁.mem newPage := pageOk.tiles
    have notFull : pageIsFull pf h₁.mem newPage = false := by
      rw [pageIsFull_eq_false_iff, ← freeEq]
      omega
    have tail := pageOk.tail_bounds
      (mod_eight_of_page (adopted.aligned newPage (Arena.tiled_pages inTiled))) notFull
    simp only [← freeEq] at tail
    have buckets : Buckets pf { h₁ with lastPage := newPage } (· ∈ c.alive) :=
      inv.buckets.transport taken.lists.freeBlocks taken.lists.maxFreeBlock (fun _ => Iff.rfl)
        (by simp [noneAlive]) (by simp [noneAlive])
    have maxBound : h₁.maxFreeBlock ≤ pf.bigBlockThreshold := by
      rw [taken.lists.maxFreeBlock]
      exact inv.maxBound
    rcases adopted.linkFreeTail buckets (by simp [noneAlive]) inTiled nonnull (by simp [noneAlive])
      start.small maxBound with ⟨h₂, linkEq, linked⟩
    have resultEq : h₂ = { h₁ with
        lastPage := newPage
        mem := setNextFreeBlock h₁.mem newPage (h₁.freeBlocks pf.bigBlockThreshold)
        freeBlocks := Function.update h₁.freeBlocks pf.bigBlockThreshold newPage
        maxFreeBlock := pf.bigBlockThreshold } := by
      have headerEq : h₁.mem (freeBlock h₁.mem newPage) = pf.bigBlockThreshold := by
        rw [← freeEq]
        omega
      have sizeEq : blockSize pf.bigBlockThreshold = pf.bigBlockThreshold := by
        rw [← headerEq, ← freeEq]
        exact tail.2.2.1
      have maxEq : (if h₁.maxFreeBlock < pf.bigBlockThreshold then pf.bigBlockThreshold
          else h₁.maxFreeBlock) = pf.bigBlockThreshold := by
        split <;> omega
      unfold linkFreeTail at linkEq
      simp only [notFull, Bool.false_eq_true, ↓reduceIte, headerEq, sizeEq, maxEq,
        checkIndex_of_lt start.small] at linkEq
      exact (Except.ok.inj linkEq).symm
    rw [← resultEq]
    have heapEq := linked.heapEq
    have frame := linked.frame
    simp only [← freeEq] at frame
    have newNe : ∀ r ∈ c.tiled, r ≠ newPage := by
      rintro r rTiled rfl
      exact taken.fresh rTiled
    have inTake : ∀ r ∈ c.tiled, r ∈ ((c.take newPage free).append newPage).tiled := by
      intro r rTiled
      rw [Census.mem_tiled, inv.heldNil, noneAlive] at rTiled
      simp only [List.not_mem_nil, false_or, or_false] at rTiled
      simp [Census.mem_tiled, Census.append, Census.take, rTiled]
    have agree : ∀ r ∈ c.tiled, AgreeOn s.heap.mem h₂.mem r (r + pf.pageSize) := by
      intro r rTiled x lower upper
      have := adopted.apart (Arena.tiled_pages (inTake r rTiled)) (Arena.tiled_pages inTiled)
        (newNe r rTiled)
      rw [frame x (by omega)]
      exact taken.untouched.tiled r rTiled x lower upper
    have firstPage : h₂.firstPage = s.heap.firstPage := by
      rw [heapEq]
      exact taken.lists.firstPage
    refine ⟨(c.take newPage free).append newPage, ?_, by simp [aliveEq]⟩
    refine
      { arena := ?_, heldNil := rfl, buckets := ?_, maxBound := linked.maxBound,
        fromSpace := inv.fromSpace, fromBlocks := ?_, aliveSub := by simp [noneAlive₀],
        fromFrame := ?_, aliveFrame := by simp [noneAlive₀], freeMono := by simp [noneAlive₀],
        outside := ?_, mappings := ?_, sources := inv.sources, copies := by simp,
          sourcesNodup := inv.sourcesNodup,
        copiesNodup := inv.copiesNodup, copiesFresh := inv.copiesFresh, aliveBlocks := ?_,
        aliveLength := by simp [aliveEq, noneAlive₀], todoNodup := inv.todoNodup,
        todoFrom := inv.todoFrom, todoFresh := inv.todoFresh, complete := inv.complete,
        firstPage := firstPage.trans inv.firstPage, firstBigBlock := ?_, metaReads := ?_ }
    · have := linked.arena
      rwa [← firstPage] at this
    · rcases linked.buckets with ⟨lists, lok⟩
      refine ⟨lists, lok.chain, lok.nodup, fun k r => ?_, lok.bounded⟩
      rw [lok.mem_iff k r]
      simp [noneAlive, aliveEq]
    · intro r rFrom
      have rTiled : r ∈ c.tiled := by simp [Census.tiled, inv.fromSpace, rFrom]
      simp [Census.append, Census.take, Function.update_of_ne (newNe r rTiled),
        inv.fromBlocks r rFrom]
    · intro r rFrom x lower upper others
      have rTiled : r ∈ c.tiled := by simp [Census.tiled, inv.fromSpace, rFrom]
      rw [agree r rTiled x lower upper]
      exact inv.fromFrame r rFrom x lower upper others
    · intro x out
      rcases inv.outside x out with ⟨out', same⟩
      rcases taken.untouched.outside x out' with ⟨⟨contains, away⟩, same'⟩
      have pagesMem : ∀ r, r ∈ ((c.take newPage free).append newPage).pages ↔
          r ∈ (c.take newPage free).pages := fun r => (Census.append_pages_perm rfl).mem_iff
      refine ⟨⟨?_, fun r rPages => away r ((pagesMem r).mp rPages)⟩, ?_⟩
      · rw [heapEq]
        exact contains
      · have := away newPage ((pagesMem newPage).mp (Arena.tiled_pages inTiled))
        rw [frame x (by omega), ← same, ← same']
    · rw [heapEq]
      exact inv.mappings.trans taken.untouched.mappings
    · intro r rAlive d dMem
      rw [aliveEq, List.mem_singleton] at rAlive
      subst rAlive
      simp [blocksEq] at dMem
    · rw [heapEq]
      exact taken.lists.firstBigBlock.trans inv.firstBigBlock
    · rw [heapEq]
      exact taken.lists.metaReads.trans inv.metaReads
  · rename_i hasPage
    exact ⟨c, inv, fun nil => hasPage (inv.arena.aliveChain.head_eq_zero_iff.mpr nil)⟩

/-- One block of from-space. -/
theorem evacuateBlock_yields (inv : Evacuating pf h₀ c₀ (b :: todo) moved s c)
    (start : EvacuationStart pf aliveHead h₀ c₀) :
    Yields (EvacuationFault h₀ c₀)
      (fun s' => ∃ moved' c', Evacuating pf h₀ c₀ todo moved' s' c') (evacuateBlock pf b s) := by
  rcases inv.todoFrom b (by simp) with ⟨p, inFrom, bMem⟩
  have headerEq := inv.header_eq start inFrom bMem
  have unpinned := start.unpinned p inFrom b bMem
  have checked : Yields (EvacuationFault h₀ c₀) (fun _ => True)
      (assertThat pf !(blockIsDead (h₀.mem b) && blockIsMarked (h₀.mem b))) := by
    unfold assertThat
    split
    · trivial
    · rename_i violated
      apply Or.inr
      refine ⟨rfl, p, inFrom, b, bMem, ?_⟩
      simp_all
  unfold evacuateBlock
  simp only [headerEq, unpinned, Bool.not_false, assertThat_true]
  apply checked.bind
  intro _ _
  split
  · rename_i marked
    refine ((inv.ensureAlivePage_yields start).permit fun _ => Or.inl).bind ?_
    rintro s₁ ⟨c₁, inv₁, nonempty⟩
    have inFrom₁ : p ∈ c₁.fromSpace := inv₁.fromSpace ▸ inFrom
    have bMem₁ : b ∈ c₁.blocks p := by
      rw [inv₁.fromBlocks p inFrom]
      exact bMem
    refine ((copyBlock_yields inv₁.arena inv₁.heldNil nonempty inv₁.buckets start.small
      inv₁.maxBound inFrom₁ bMem₁).permit fun _ => Or.inl).bind ?_
    rintro h' ⟨c', q, new, copied⟩
    exact ⟨_, c', inv₁.copy start inFrom bMem marked copied⟩
  · rename_i unmarked
    rw [Bool.not_eq_true] at unmarked
    exact ⟨moved, c, inv.skip unmarked⟩

end Evacuating

variable {h₀ : Heap} {c₀ : Census} {moved : List (Nat × Nat)} {s : SweepState}
  {pages later rest : List Nat} {cursor fuel : Nat}

/-- The loop over the blocks of the page `p` is at `cursor`, with the blocks `rest` of this page and
the blocks `later` of the pages behind it left to visit. -/
structure OnPage (pf : Platform) (h₀ : Heap) (c₀ : Census) (p : Nat) (later rest : List Nat)
    (cursor : Nat) (s : SweepState) : Prop where
  inv : ∃ moved c, Evacuating pf h₀ c₀ (rest ++ later) moved s c
  tiles : Tiles (blockExtent h₀.mem) cursor (freeBlock h₀.mem p) rest
  sub : ∀ d ∈ rest, d ∈ c₀.blocks p

namespace OnPage

theorem enter (inv : Evacuating pf h₀ c₀ (c₀.blocks p ++ later) moved s c)
    (start : EvacuationStart pf aliveHead h₀ c₀) (inFrom : p ∈ c₀.fromSpace) :
    OnPage pf h₀ c₀ p later (c₀.blocks p) (firstBlock p) s :=
  ⟨⟨moved, c, inv⟩, (start.arena.pageOk p (Evacuating.fromTiled inFrom)).tiles, fun _ mem => mem⟩

theorem finished (on : OnPage pf h₀ c₀ p later [] cursor s)
    (start : EvacuationStart pf aliveHead h₀ c₀) (inFrom : p ∈ c₀.fromSpace) :
    (cursor == freeBlock s.heap.mem p) = true := by
  rcases on with ⟨⟨moved, c, inv⟩, tiles, _⟩
  rw [inv.free_eq start inFrom]
  simpa using tiles

/-- One iteration. -/
theorem proceeds (on : OnPage pf h₀ c₀ p later (b :: rest) cursor s)
    (start : EvacuationStart pf aliveHead h₀ c₀) (inFrom : p ∈ c₀.fromSpace) :
    (cursor == freeBlock s.heap.mem p) = false ∧
      Yields (EvacuationFault h₀ c₀) (fun next => OnPage pf h₀ c₀ p later rest next.1 next.2)
        (evacuateBlock pf cursor s >>= fun s => .ok (nextBlock s.heap.mem cursor, s)) := by
  rcases on with ⟨⟨moved, c, inv⟩, ⟨rfl, positive, tiles⟩, sub⟩
  constructor
  · rw [inv.free_eq start inFrom]
    have := tiles.le
    simp only [beq_eq_false_iff_ne, ne_eq]
    omega
  · apply (inv.evacuateBlock_yields start).bind
    rintro s' ⟨moved', c', inv'⟩
    refine ⟨⟨moved', c', inv'⟩, ?_, fun d' mem => sub d' (by simp [mem])⟩
    simp only [nextBlock_eq, blockExtent, inv'.header_eq start inFrom (sub cursor (by simp))]
    exact tiles

end OnPage

/-- All blocks of one page of from-space. -/
theorem Evacuating.evacuatePage_yields
    (inv : Evacuating pf h₀ c₀ (c₀.blocks p ++ later) moved s c)
    (start : EvacuationStart pf aliveHead h₀ c₀) (inFrom : p ∈ c₀.fromSpace)
    (enough : (c₀.blocks p).length < fuel) :
    Yields (EvacuationFault h₀ c₀)
      (fun s' => ∃ moved' c', Evacuating pf h₀ c₀ later moved' s' c')
        (evacuatePage pf fuel p s) := by
  unfold evacuatePage
  refine (walk_yields (OnPage pf h₀ c₀ p later) ?_ ?_ enough
    (OnPage.enter inv start inFrom)).mono ?_
  · exact fun cursor s on => on.finished start inFrom
  · exact fun d rest cursor s on => on.proceeds start inFrom
  · rintro s' ⟨cursor, on⟩
    exact on.inv

/-- The loop over the pages of from-space is at `cursor`, with the pages `pages` left to visit. -/
structure OnPages (pf : Platform) (h₀ : Heap) (c₀ : Census) (pages : List Nat) (cursor : Nat)
    (s : SweepState) : Prop where
  inv : ∃ moved c, Evacuating pf h₀ c₀ (pages.flatMap c₀.blocks) moved s c
  chain : Chain (pageNext h₀.mem) cursor pages
  sub : ∀ q ∈ pages, q ∈ c₀.fromSpace

namespace OnPages

theorem enter (inv : Evacuating pf h₀ c₀ (c₀.fromSpace.flatMap c₀.blocks) moved s c)
    (start : EvacuationStart pf aliveHead h₀ c₀) :
    OnPages pf h₀ c₀ c₀.fromSpace s.heap.firstPage s := by
  refine ⟨⟨moved, c, inv⟩, ?_, fun _ mem => mem⟩
  rw [inv.firstPage]
  exact start.arena.fromChain

theorem finished (on : OnPages pf h₀ c₀ [] cursor s) : (cursor == 0) = true := by
  simpa using on.chain

/-- One iteration, whatever the loop over the blocks of its page can stop with. -/
theorem proceeds {q : Nat} {allowed : Fault → Prop} (on : OnPages pf h₀ c₀ (q :: pages) cursor s)
    (start : EvacuationStart pf aliveHead h₀ c₀)
    (page : ∀ moved c, cursor ∈ c₀.fromSpace →
      Evacuating pf h₀ c₀ (c₀.blocks cursor ++ pages.flatMap c₀.blocks) moved s c →
        Yields allowed
          (fun s' => ∃ moved' c', Evacuating pf h₀ c₀ (pages.flatMap c₀.blocks) moved' s' c')
          (evacuatePage pf fuel cursor s)) :
    (cursor == 0) = false ∧
      Yields allowed (fun next => OnPages pf h₀ c₀ pages next.1 next.2)
        (evacuatePage pf fuel cursor s >>= fun s => .ok (pageNext s.heap.mem cursor, s)) := by
  rcases on with ⟨⟨moved, c, inv⟩, ⟨rfl, nonnull, chain⟩, sub⟩
  have inFrom := sub cursor (by simp)
  rw [List.flatMap_cons] at inv
  refine ⟨by simpa using nonnull, (page moved c inFrom inv).bind ?_⟩
  rintro s' ⟨moved', c', inv'⟩
  refine ⟨⟨moved', c', inv'⟩, ?_, fun r mem => sub r (by simp [mem])⟩
  simp only [inv'.link_eq start inFrom]
  exact chain

end OnPages

/-- The whole pass. -/
theorem Evacuating.evacuatePages_yields
    (inv : Evacuating pf h₀ c₀ (c₀.fromSpace.flatMap c₀.blocks) moved s c)
    (start : EvacuationStart pf aliveHead h₀ c₀) (enoughPages : c₀.fromSpace.length < fuel)
    (enoughBlocks : ∀ q ∈ c₀.fromSpace, (c₀.blocks q).length < fuel) :
    Yields (EvacuationFault h₀ c₀)
      (fun s' => ∃ moved' c', Evacuating pf h₀ c₀ [] moved' s' c') (evacuatePages pf fuel s) := by
  unfold evacuatePages forPages
  refine (walk_yields (OnPages pf h₀ c₀) ?_ ?_ enoughPages (OnPages.enter inv start)).mono ?_
  · exact fun cursor s on => on.finished
  · intro q pages cursor s on
    apply on.proceeds start
    exact fun moved c inFrom inv => inv.evacuatePage_yields start inFrom
      (enoughBlocks cursor inFrom)
  · rintro s' ⟨cursor, on⟩
    exact on.inv

/-- The invariant holds when the pass starts. -/
theorem EvacuationStart.evacuating {h₀ : Heap} {c₀ : Census} {alivePages : Nat}
    (start : EvacuationStart pf alivePages h₀ c₀) (prevPage : Nat)
    (buckets : Buckets pf h₀ (· ∈ c₀.alive))
    (maxBound : h₀.maxFreeBlock ≤ pf.bigBlockThreshold) :
    Evacuating pf h₀ c₀ (c₀.fromSpace.flatMap c₀.blocks) [] ⟨h₀, alivePages, prevPage⟩ c₀ where
  arena := start.arena
  heldNil := start.heldNil
  buckets := buckets
  maxBound := maxBound
  fromSpace := rfl
  fromBlocks _ _ := rfl
  aliveSub _ mem := ⟨mem, fun _ dMem => dMem⟩
  fromFrame _ _ _ _ _ _ := rfl
  aliveFrame _ _ := AgreeOn.refl _ _ _
  freeMono _ _ := Nat.le_refl _
  outside _ out := ⟨out, rfl⟩
  mappings := MoreMapped.refl _
  sources := by simp
  copies := by simp
  sourcesNodup := by simp
  copiesNodup := by simp
  copiesFresh := by simp
  aliveBlocks q mem d dMem := Or.inl ⟨mem, dMem⟩
  aliveLength := by simp only [List.length_nil]; omega
  todoNodup := by
    have unique := start.arena.distinct
    simp only [Census.pages, List.append_assoc, start.heldNil, List.nil_append] at unique
    exact start.arena.nodup_blocks (List.nodup_append'.mp unique).1
      fun q mem => Evacuating.fromTiled mem
  todoFrom d mem := by simpa using mem
  todoFresh := by simp
  complete q qFrom d dMem _ := Or.inr (List.mem_flatMap.mpr ⟨q, qFrom, dMem⟩)
  firstPage := rfl
  firstBigBlock := rfl
  metaReads := rfl

end PreciseGc

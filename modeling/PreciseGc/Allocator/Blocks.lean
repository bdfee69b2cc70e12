import PreciseGc.Sweep.Collection

/-!
# Blocks in use

What a client of the allocator can see of a heap is the blocks reachable from
`first_page` and `first_big_block`.  `InUse` says so in terms of the heap alone;
in a heap that satisfies the invariant of the allocator these are exactly the
blocks of its census.
-/

namespace PreciseGc

open Foundation Memory

variable {pf : Platform} {h h' : Heap} {c c' : Census} {bigs : List Nat} {b d q x : Nat}

/-- The block with header `b` lies on a page of the list `first_page`. -/
def SmallBlock (h : Heap) (b : Nat) : Prop :=
  ∃ pages p blocks, Chain (pageNext h.mem) h.firstPage pages ∧ p ∈ pages ∧
    Tiles (blockExtent h.mem) (firstBlock p) (freeBlock h.mem p) blocks ∧ b ∈ blocks

/-- The big block is on the list `first_big_block`. -/
def LargeBlock (h : Heap) (big : Nat) : Prop :=
  ∃ bigs, Chain (bigNext h.mem) h.firstBigBlock bigs ∧ big ∈ bigs

/-- The header of a block in use. -/
def InUse (h : Heap) (b : Nat) : Prop :=
  SmallBlock h b ∨ ∃ big, LargeBlock h big ∧ b = bigHeader big

/-- A mapped byte that belongs to no page and to no big block. -/
def Foreign (pf : Platform) (h : Heap) (x : Nat) : Prop :=
  (∃ r ∈ h.mappings, r.Contains x) ∧ (∀ p ∈ mappedPages pf h, x < p ∨ p + pf.pageSize ≤ x) ∧
    ∀ big, LargeBlock h big → x < big ∨ big + bigLength pf h.mem big ≤ x

/-- The header of a block of the census. -/
def Census.Used (c : Census) (bigs : List Nat) (b : Nat) : Prop :=
  (∃ q ∈ c.alive, b ∈ c.blocks q) ∨ ∃ big ∈ bigs, b = bigHeader big

/-- The invariant of the allocator, in a process without empty mappings. -/
structure AllocatorState (pf : Platform) (h : Heap) (c : Census) (bigs : List Nat) : Prop
    extends AllocatorOk pf h c bigs where
  regions : ∀ r ∈ h.mappings, 0 < r.length

namespace AllocatorOk

theorem smallBlock_iff (ok : AllocatorOk pf h c bigs) :
    SmallBlock h b ↔ ∃ q ∈ c.alive, b ∈ c.blocks q := by
  have tiles : ∀ q ∈ c.alive, Tiles (blockExtent h.mem) (firstBlock q) (freeBlock h.mem q)
      (c.blocks q) := fun q mem => (ok.arena.pageOk q (Classifying.tiled_of_alive mem)).tiles
  constructor
  · rintro ⟨pages, p, blocks, chain, pMem, tiled, bMem⟩
    have pagesEq := chain.unique ok.arena.aliveChain
    subst pagesEq
    have blocksEq := tiled.unique (tiles p pMem)
    exact ⟨p, pMem, blocksEq ▸ bMem⟩
  · rintro ⟨q, qMem, bMem⟩
    exact ⟨c.alive, q, c.blocks q, ok.arena.aliveChain, qMem, tiles q qMem, bMem⟩

theorem largeBlock_iff (ok : AllocatorOk pf h c bigs) : LargeBlock h b ↔ b ∈ bigs := by
  constructor
  · rintro ⟨list, chain, mem⟩
    have listEq := chain.unique ok.big.chain
    exact listEq ▸ mem
  · intro mem
    exact ⟨bigs, ok.big.chain, mem⟩

theorem inUse_iff (ok : AllocatorOk pf h c bigs) : InUse h b ↔ c.Used bigs b := by
  simp only [InUse, Census.Used, ok.smallBlock_iff, ok.largeBlock_iff]

theorem foreign_iff (ok : AllocatorOk pf h c bigs) : Foreign pf h x ↔ OffHeap pf h c bigs x := by
  simp only [Foreign, OffHeap, Outside, ok.largeBlock_iff, and_assoc, ok.arena.owned.mem_iff]

/-- A block in use lies in one mapping. -/
theorem used_mapped (ok : AllocatorOk pf h c bigs) (used : c.Used bigs b) :
    ∃ r ∈ h.mappings, r.start ≤ b ∧ b + 8 + blockSize (h.mem b) ≤ r.start + r.length := by
  rcases used with ⟨q, qMem, bMem⟩ | ⟨big, bigMem, rfl⟩
  · have qTiled := Classifying.tiled_of_alive qMem
    have := (ok.arena.pageOk q qTiled).block_bounds bMem
    rcases ok.arena.mapped q (Arena.tiled_pages qTiled) with ⟨r, rMem, lower, upper⟩
    exact ⟨r, rMem, by omega, by omega⟩
  · have := bigLength_ge pf h.mem big
    refine ⟨_, ok.big.mapped big bigMem, ?_, ?_⟩
    · simp only [bigHeader]
      omega
    · simp only [bigHeader] at this ⊢
      omega

/-- Two blocks in use are the same or do not overlap. -/
theorem used_disjoint (ok : AllocatorOk pf h c bigs) (bUsed : c.Used bigs b)
    (dUsed : c.Used bigs d) (different : b ≠ d) :
    b + 8 + blockSize (h.mem b) ≤ d ∨ d + 8 + blockSize (h.mem d) ≤ b := by
  have pageApart : ∀ q ∈ c.alive, ∀ e ∈ c.blocks q, ∀ big ∈ bigs,
      e + 8 + blockSize (h.mem e) ≤ bigHeader big ∨
        bigHeader big + 8 + blockSize (h.mem (bigHeader big)) ≤ e := by
    intro q qMem e eMem big bigMem
    have qTiled := Classifying.tiled_of_alive qMem
    have := (ok.arena.pageOk q qTiled).block_bounds eMem
    have := ok.big.pages big bigMem q (Arena.tiled_pages qTiled)
    have := bigLength_ge pf h.mem big
    simp only [bigHeader] at this ⊢
    omega
  rcases bUsed with ⟨p, pMem, bMem⟩ | ⟨big, bigMem, rfl⟩
  · rcases dUsed with ⟨q, qMem, dMem⟩ | ⟨big', bigMem', rfl⟩
    · exact ok.arena.blocks_disjoint (Classifying.tiled_of_alive pMem) bMem
        (Classifying.tiled_of_alive qMem) dMem different
    · exact pageApart p pMem b bMem big' bigMem'
  · rcases dUsed with ⟨q, qMem, dMem⟩ | ⟨big', bigMem', rfl⟩
    · exact (pageApart q qMem d dMem big bigMem).symm
    · have other : big ≠ big' := by
        rintro rfl
        exact different rfl
      have := ok.big.apart big bigMem big' bigMem' other
      have := bigLength_ge pf h.mem big
      have := bigLength_ge pf h.mem big'
      simp only [bigHeader] at *
      omega

/-- A word that belongs to no page and no big block lies in no block in use. -/
theorem used_offHeap (ok : AllocatorOk pf h c bigs) (used : c.Used bigs b)
    (off : OffHeap pf h c bigs x) : x < b ∨ b + 8 + blockSize (h.mem b) ≤ x := by
  rcases used with ⟨q, qMem, bMem⟩ | ⟨big, bigMem, rfl⟩
  · have qTiled := Classifying.tiled_of_alive qMem
    have := (ok.arena.pageOk q qTiled).block_bounds bMem
    have := off.1.2 q (Arena.tiled_pages qTiled)
    omega
  · have := off.2 big bigMem
    have := bigLength_ge pf h.mem big
    simp only [bigHeader] at *
    omega

end AllocatorOk

/-- Big blocks are determined by their links and the sizes in their headers. -/
theorem BigBlocks.transport (big : BigBlocks pf h c bigs)
    (first : h'.firstBigBlock = h.firstBigBlock)
    (links : ∀ b ∈ bigs, bigNext h'.mem b = bigNext h.mem b)
    (sizes : ∀ b ∈ bigs, blockSize (h'.mem (bigHeader b)) = blockSize (h.mem (bigHeader b)))
    (mappings : MoreMapped h.mappings h'.mappings)
    (pages : ∀ b ∈ bigs, ∀ p ∈ c'.pages,
      b + bigLength pf h.mem b ≤ p ∨ p + pf.pageSize ≤ b) :
    BigBlocks pf h' c' bigs := by
  have lengthEq : ∀ b ∈ bigs, bigLength pf h'.mem b = bigLength pf h.mem b := by
    intro b mem
    simp only [bigLength, sizes b mem]
  refine
    { chain := ?_, nodup := big.nodup, mapped := ?_, region := ?_, apart := ?_, pages := ?_ }
  · rw [first]
    exact big.chain.congr links
  · intro b mem
    rw [lengthEq b mem]
    exact mappings.kept _ (big.mapped b mem)
  · intro b mem r rMem atStart
    rw [lengthEq b mem]
    rcases mappings.fresh r rMem with old | ⟨positive, apart⟩
    · exact big.region b mem r old atStart
    · have := bigLength_ge pf h.mem b
      have outside : ¬r.Contains b :=
        apart _ (big.mapped b mem) b ⟨Nat.le_refl b, by dsimp only; omega⟩
      simp only [Region.Contains] at outside
      omega
  · intro b bMem d dMem different
    rw [lengthEq b bMem, lengthEq d dMem]
    exact big.apart b bMem d dMem different
  · intro b mem p pMem
    rw [lengthEq b mem]
    exact pages b mem p pMem

/-- The bytes of a big block belong to no page. -/
theorem BigBlocks.outside (big : BigBlocks pf h c bigs) (mem : b ∈ bigs) (lower : b ≤ x)
    (upper : x < b + bigLength pf h.mem b) : Outside pf h c x := by
  refine ⟨⟨_, big.mapped b mem, lower, upper⟩, fun p pMem => ?_⟩
  have := big.pages b mem p pMem
  omega

/-- Big blocks survive a change that keeps every mapped byte outside the pages. -/
theorem BigBlocks.untouched (big : BigBlocks pf h c bigs)
    (first : h'.firstBigBlock = h.firstBigBlock) (mappings : MoreMapped h.mappings h'.mappings)
    (outside : ∀ x, Outside pf h c x → Outside pf h' c' x ∧ h'.mem x = h.mem x) :
    BigBlocks pf h' c' bigs := by
  have bytes : ∀ b ∈ bigs, ∀ x, b ≤ x → x < b + bigLength pf h.mem b →
      Outside pf h' c' x ∧ h'.mem x = h.mem x := fun b mem x lower upper =>
    outside x (big.outside mem lower upper)
  refine big.transport first ?_ ?_ mappings ?_
  · intro b mem
    have := bigLength_ge pf h.mem b
    exact (bytes b mem b (Nat.le_refl _) (by omega)).2
  · intro b mem
    have := bigLength_ge pf h.mem b
    simp only [bigHeader] at this ⊢
    rw [(bytes b mem (b + 8) (by omega) (by omega)).2]
  · intro b mem p pMem
    have := bigLength_ge pf h.mem b
    have := pf.pageSize_ge
    by_contra overlap
    have := (bytes b mem (max b p) (by omega) (by omega)).1.2 p pMem
    omega

namespace AllocatorState

/-- A change of one word that is no page word, no header and no link, or that keeps the size a
header records. -/
theorem write (state : AllocatorState pf h c bigs) {value : Nat}
    (links : ∀ q ∈ c.pages, x ≠ q) (free : ∀ q ∈ c.tiled, x ≠ q + 8)
    (headers : ∀ q ∈ c.tiled, ∀ b ∈ c.blocks q, x = b → blockSize value = blockSize (h.mem b))
    (tails : ∀ q ∈ c.tiled, pageIsFull pf h.mem q = false → x ≠ freeBlock h.mem q)
    (bigLinks : ∀ b ∈ bigs, x ≠ b)
    (bigHeaders : ∀ b ∈ bigs, x = bigHeader b → blockSize value = blockSize (h.mem (bigHeader b))) :
    AllocatorState pf { h with mem := h.mem.write x value } c bigs := by
  have size : ∀ b, (x = b → blockSize value = blockSize (h.mem b)) →
      blockSize (h.mem.write x value b) = blockSize (h.mem b) := by
    intro b same
    by_cases atHeader : x = b
    · subst atHeader
      rw [write_same]
      exact same rfl
    · rw [write_of_ne (Ne.symm atHeader)]
  refine
    { arena := ?_, heldNil := state.heldNil, fromNil := state.fromNil,
      noBuckets := state.noBuckets, big := ?_, regions := state.regions }
  · have same : SameOwnership h { h with mem := h.mem.write x value } :=
      ⟨rfl, rfl, rfl, rfl, rfl, rfl, rfl⟩
    apply state.arena.transport same
    · exact fun q mem => write_of_ne (Ne.symm (links q mem))
    · intro q mem
      apply (state.arena.pageOk q mem).congr
      · exact write_of_ne (Ne.symm (free q mem))
      · exact fun b bMem => size b (headers q mem b bMem)
      · exact fun notFull => write_of_ne (Ne.symm (tails q mem notFull))
  · refine state.big.transport ?_ ?_ ?_ ?_ state.big.pages
    · rfl
    · exact fun b mem => write_of_ne (Ne.symm (bigLinks b mem))
    · exact fun b mem => size _ (bigHeaders b mem)
    · exact MoreMapped.refl _

/-- A change of one word of a block on a page in use. -/
theorem write_block (state : AllocatorState pf h c bigs) {value : Nat} (qMem : q ∈ c.tiled)
    (bMem : b ∈ c.blocks q) (lower : b ≤ x) (upper : x < b + 8 + blockSize (h.mem b))
    (header : x = b → blockSize value = blockSize (h.mem b)) :
    AllocatorState pf { h with mem := h.mem.write x value } c bigs := by
  have large := pf.pageSize_ge
  have bounds := (state.arena.pageOk q qMem).block_bounds bMem
  have away : ∀ r ∈ c.pages, q ≠ r → q + pf.pageSize ≤ r ∨ r + pf.pageSize ≤ q := fun r mem =>
    state.arena.apart (Arena.tiled_pages qMem) mem
  have bigAway : ∀ big ∈ bigs, x ≠ big ∧ x ≠ bigHeader big := by
    intro big bigMem
    have := state.big.pages big bigMem q (Arena.tiled_pages qMem)
    have := bigLength_ge pf h.mem big
    simp only [bigHeader]
    omega
  apply state.write
  · intro r rMem
    by_cases same : q = r
    · omega
    · have := away r rMem same
      omega
  · intro r rMem
    by_cases same : q = r
    · omega
    · have := away r (Arena.tiled_pages rMem) same
      omega
  · rintro r rMem d dMem rfl
    by_cases same : b = x
    · exact same ▸ header same.symm
    · have := state.arena.blocks_disjoint qMem bMem rMem dMem same
      omega
  · intro r rMem notFull
    have := (state.arena.pageOk r rMem).first_le_free
    rw [pageIsFull_eq_false_iff] at notFull
    by_cases same : q = r
    · subst same
      omega
    · have := away r (Arena.tiled_pages rMem) same
      omega
  · exact fun big bigMem => (bigAway big bigMem).1
  · exact fun big bigMem atHeader => absurd atHeader (bigAway big bigMem).2

/-- A change of one word outside the pages. -/
theorem write_outside (state : AllocatorState pf h c bigs) {value : Nat}
    (away : ∀ r ∈ c.pages, x < r ∨ r + pf.pageSize ≤ x) (bigLinks : ∀ b ∈ bigs, x ≠ b)
    (bigHeaders : ∀ b ∈ bigs, x = bigHeader b → blockSize value = blockSize (h.mem (bigHeader b))) :
    AllocatorState pf { h with mem := h.mem.write x value } c bigs := by
  have large := pf.pageSize_ge
  apply state.write _ _ _ _ bigLinks bigHeaders
  · intro r rMem
    have := away r rMem
    omega
  · intro r rMem
    have := away r (Arena.tiled_pages rMem)
    omega
  · rintro r rMem d dMem rfl
    have := (state.arena.pageOk r rMem).block_bounds dMem
    have := away r (Arena.tiled_pages rMem)
    omega
  · intro r rMem notFull
    have := (state.arena.pageOk r rMem).first_le_free
    have := away r (Arena.tiled_pages rMem)
    rw [pageIsFull_eq_false_iff] at notFull
    omega

/-- A word of a big block belongs to no page. -/
theorem big_away (state : AllocatorState pf h c bigs) {big : Nat} (mem : big ∈ bigs)
    (lower : big ≤ x) (upper : x < big + 16 + blockSize (h.mem (bigHeader big))) :
    ∀ r ∈ c.pages, x < r ∨ r + pf.pageSize ≤ x := by
  intro r rMem
  have := state.big.pages big mem r rMem
  have := bigLength_ge pf h.mem big
  omega

/-- Clients may write to the data of blocks in use. -/
theorem write_data (state : AllocatorState pf h c bigs) (used : c.Used bigs b)
    (lower : b + 8 ≤ x) (upper : x < b + 8 + blockSize (h.mem b)) (value : Nat) :
    AllocatorState pf { h with mem := h.mem.write x value } c bigs := by
  rcases used with ⟨q, qMem, bMem⟩ | ⟨big, bigMem, rfl⟩
  · apply state.write_block (Classifying.tiled_of_alive qMem) bMem (by omega) upper
    omega
  · simp only [bigHeader] at lower upper
    have bigAway : ∀ other ∈ bigs, x ≠ other ∧ x ≠ bigHeader other := by
      intro other otherMem
      have := bigLength_ge pf h.mem big
      have := bigLength_ge pf h.mem other
      simp only [bigHeader] at *
      by_cases same : big = other
      · omega
      · have := state.big.apart big bigMem other otherMem same
        omega
    apply state.write_outside
    · apply state.big_away bigMem (by omega)
      simp only [bigHeader]
      omega
    · exact fun other otherMem => (bigAway other otherMem).1
    · exact fun other otherMem atHeader => absurd atHeader (bigAway other otherMem).2

/-- Clients may write to what belongs to no page and no big block. -/
theorem write_off (state : AllocatorState pf h c bigs) (off : OffHeap pf h c bigs x) (value : Nat) :
    AllocatorState pf { h with mem := h.mem.write x value } c bigs := by
  have bigAway : ∀ big ∈ bigs, x ≠ big ∧ x ≠ bigHeader big := by
    intro big mem
    have := off.2 big mem
    have := bigLength_ge pf h.mem big
    simp only [bigHeader]
    omega
  apply state.write_outside off.1.2
  · exact fun big mem => (bigAway big mem).1
  · exact fun big mem atHeader => absurd atHeader (bigAway big mem).2

/-- Flags of a block in use may be set. -/
theorem write_header (state : AllocatorState pf h c bigs) (used : c.Used bigs b) {value : Nat}
    (size : blockSize value = blockSize (h.mem b)) :
    AllocatorState pf { h with mem := h.mem.write b value } c bigs := by
  rcases used with ⟨q, qMem, bMem⟩ | ⟨big, bigMem, rfl⟩
  · exact state.write_block (Classifying.tiled_of_alive qMem) bMem (Nat.le_refl _) (by omega)
      fun _ => size
  · apply state.write_outside
    · apply state.big_away bigMem
      · simp only [bigHeader]
        omega
      · simp only [bigHeader]
        omega
    · exact fun other otherMem => (state.big.list.words_ne otherMem bigMem).1.symm
    · rintro other otherMem same
      rw [← same]
      exact size

end AllocatorState

end PreciseGc

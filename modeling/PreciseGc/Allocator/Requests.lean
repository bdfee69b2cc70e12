import PreciseGc.Allocator.Blocks
import PreciseGc.Heap.Statics

/-!
# Allocation keeps the invariant

A critical section of `gcmalloc` extends the census by at most one page of the
free list and one block.  Every block in use before stays in use with its
contents, and the block handed out is new and zeroed.
-/

namespace PreciseGc

open Foundation Memory

variable {pf : Platform} {h h₁ h₂ h' h'' : Heap} {c c' c'' : Census}
  {bigs bigs' bigs'' : List Nat} {b p s : Nat} {free : List Nat}

/-- The invariant holds of `h'`, and the blocks in use in `h` are still in use and unchanged. -/
structure Grown (pf : Platform) (h : Heap) (c : Census) (bigs : List Nat) (h' : Heap) (c' : Census)
    (bigs' : List Nat) : Prop where
  state : AllocatorState pf h' c' bigs'
  kept : ∀ b, c.Used bigs b → c'.Used bigs' b ∧
    ∀ x, b ≤ x → x < b + 8 + blockSize (h.mem b) → h'.mem x = h.mem x

theorem Grown.refl (state : AllocatorState pf h c bigs) : Grown pf h c bigs h c bigs :=
  ⟨state, fun _ used => ⟨used, fun _ _ _ => rfl⟩⟩

theorem Grown.trans (first : Grown pf h c bigs h' c' bigs')
    (second : Grown pf h' c' bigs' h'' c'' bigs'') : Grown pf h c bigs h'' c'' bigs'' where
  state := second.state
  kept b used := by
    rcases first.kept b used with ⟨used', same⟩
    rcases second.kept b used' with ⟨used'', same'⟩
    refine ⟨used'', fun x lower upper => ?_⟩
    have size : h'.mem b = h.mem b := same b (Nat.le_refl _) (by omega)
    calc h''.mem x = h'.mem x := same' x lower (by rwa [size])
      _ = h.mem x := same x lower upper

/-- The block `b` of `size` bytes is new in `h'`. -/
structure Served (c : Census) (bigs : List Nat) (size b : Nat) (h' : Heap) (c' : Census)
    (bigs' : List Nat) : Prop where
  used : c'.Used bigs' b
  fresh : ¬c.Used bigs b
  aligned : b % 8 = 0
  header : h'.mem b = size
  zeroed : ∀ x, b + 8 ≤ x → x < b + 8 + size → h'.mem x = 0

theorem Served.of_kept (served : Served c' bigs' s b h'' c'' bigs'')
    (grown : Grown pf h c bigs h' c' bigs') : Served c bigs s b h'' c'' bigs'' :=
  { served with fresh := fun used => served.fresh (grown.kept b used).1 }

theorem MoreMapped.regions {old new : List Region} (more : MoreMapped old new)
    (positive : ∀ r ∈ old, 0 < r.length) : ∀ r ∈ new, 0 < r.length := by
  intro r mem
  rcases more.fresh r mem with inOld | ⟨ok, _⟩
  · exact positive r inOld
  · exact ok

namespace AllocatorState

/-- A refused request for a page. -/
theorem declined (state : AllocatorState pf h c bigs)
    (refused : Declined pf 0 h.firstPage h c h') : Grown pf h c bigs h' c bigs where
  state :=
    { arena := by
        rw [refused.lists.firstPage]
        exact refused.arena
      heldNil := state.heldNil
      fromNil := state.fromNil
      noBuckets := by
        rw [refused.lists.freeBlocks]
        exact state.noBuckets
      big := state.big.untouched refused.lists.firstBigBlock refused.untouched.mappings
        refused.untouched.outside
      regions := refused.untouched.mappings.regions state.regions }
  kept b used := by
    refine ⟨used, fun x lower upper => ?_⟩
    rcases used with ⟨q, qMem, bMem⟩ | ⟨big, bigMem, rfl⟩
    · have qTiled := Classifying.tiled_of_alive qMem
      have := (state.arena.pageOk q qTiled).block_bounds bMem
      exact refused.untouched.tiled q qTiled x (by omega) (by omega)
    · have := bigLength_ge pf h.mem big
      simp only [bigHeader] at lower upper this
      exact (refused.untouched.outside x (state.big.outside bigMem (by omega) (by omega))).2

/-- A page handed out by `request_new_page` has become the last page in use; `h₂` differs from the
heap `h₁` after the request at most in the links of pages in use. -/
theorem adopted (state : AllocatorState pf h c bigs) (taken : Taken pf 0 h.firstPage h c p free h₁)
    (arena : Arena pf 0 h₂.firstPage h₂ ((c.take p free).append p))
    (frame : ∀ x, (∀ q ∈ c.alive, x ≠ q) → h₂.mem x = h₁.mem x)
    (mappings : h₂.mappings = h₁.mappings) (freeBlocks : h₂.freeBlocks = h₁.freeBlocks)
    (firstBigBlock : h₂.firstBigBlock = h₁.firstBigBlock) :
    Grown pf h c bigs h₂ ((c.take p free).append p) bigs := by
  have large := pf.pageSize_ge
  have pagesEq : ∀ q, q ∈ ((c.take p free).append p).pages ↔ q ∈ (c.take p free).pages := fun q =>
    (Census.append_pages_perm rfl).mem_iff
  have more : MoreMapped h.mappings h₂.mappings := by
    rw [mappings]
    exact taken.untouched.mappings
  have outside : ∀ x, Outside pf h c x →
      Outside pf h₂ ((c.take p free).append p) x ∧ h₂.mem x = h.mem x := by
    intro x out
    rcases taken.untouched.outside x out with ⟨out₁, same⟩
    refine ⟨⟨by rw [mappings]; exact out₁.1, fun q mem => out₁.2 q ((pagesEq q).mp mem)⟩, ?_⟩
    rw [frame x fun q qMem => ?_, same]
    have := out.2 q (Arena.tiled_pages (Classifying.tiled_of_alive qMem))
    omega
  refine ⟨?_, fun b used => ?_⟩
  · exact
      { arena := arena
        heldNil := rfl
        fromNil := state.fromNil
        noBuckets := by
          rw [freeBlocks, taken.lists.freeBlocks]
          exact state.noBuckets
        big := state.big.untouched (firstBigBlock.trans taken.lists.firstBigBlock) more outside
        regions := more.regions state.regions }
  · rcases used with ⟨q, qMem, bMem⟩ | ⟨big, bigMem, rfl⟩
    · have qTiled := Classifying.tiled_of_alive qMem
      have bounds := (state.arena.pageOk q qTiled).block_bounds bMem
      have other : q ≠ p := by
        rintro rfl
        exact taken.fresh qTiled
      refine ⟨Or.inl ⟨q, by simp [Census.append, Census.take, qMem], ?_⟩, fun x lower upper => ?_⟩
      · simpa [Census.append, Census.take, Function.update_of_ne other] using bMem
      · rw [frame x fun r rMem => ?_]
        · exact taken.untouched.tiled q qTiled x (by omega) (by omega)
        · by_cases same : q = r
          · omega
          · have := state.arena.apart (Arena.tiled_pages qTiled)
              (Arena.tiled_pages (Classifying.tiled_of_alive rMem)) same
            omega
    · refine ⟨Or.inr ⟨big, bigMem, rfl⟩, fun x lower upper => ?_⟩
      have := bigLength_ge pf h.mem big
      simp only [bigHeader] at lower upper this
      exact (outside x (state.big.outside bigMem (by omega) (by omega))).2

/-- The first page of an allocator that has none in use. -/
theorem initialised (state : AllocatorState pf h c bigs)
    (taken : Taken pf 0 h.firstPage h c p free h₁) (empty : c.alive = []) :
    Grown pf h c bigs { h₁ with firstPage := p, lastPage := p }
      ((c.take p free).append p) bigs := by
  apply state.adopted taken
  · exact taken.arena.adoptHeld rfl taken.nonnull taken.link empty rfl rfl rfl rfl rfl rfl rfl rfl
  · exact fun x _ => rfl
  · rfl
  · rfl
  · rfl

end AllocatorState

/-- A page that is put into use has no blocks. -/
theorem Census.used_of_append_take (used : ((c.take p free).append p).Used bigs b) :
    c.Used bigs b := by
  rcases used with ⟨q, qMem, bMem⟩ | isBig
  · by_cases same : q = p
    · subst same
      simp [Census.append, Census.take] at bMem
    · left
      refine ⟨q, ?_, ?_⟩
      · simpa [Census.append, Census.take, same] using qMem
      · simpa [Census.append, Census.take, Function.update_of_ne same] using bMem
  · exact Or.inr isBig

theorem Census.used_of_grow {d : Nat} (used : (c.grow p d).Used bigs b) :
    c.Used bigs b ∨ b = d := by
  rcases used with ⟨q, qMem, bMem⟩ | isBig
  · by_cases same : q = p
    · subst same
      have either : b ∈ c.blocks q ∨ b = d := by simpa [Census.grow] using bMem
      exact either.imp (fun old => Or.inl ⟨q, qMem, old⟩) id
    · refine Or.inl (Or.inl ⟨q, qMem, ?_⟩)
      simpa [Census.grow, Function.update_of_ne same] using bMem
  · exact Or.inl (Or.inr isBig)

/-- `initFirstPage` returns `true` exactly when there is a first page afterwards. -/
theorem initFirstPage_yields (state : AllocatorState pf h c bigs) :
    Yields (· = Fault.mapFailed)
      (fun result => (∃ c', Grown pf h c bigs result.2 c' bigs ∧
          ∀ b, c'.Used bigs b → c.Used bigs b) ∧
        (result.1 = true → result.2.firstPage ≠ 0))
      (initFirstPage pf h) := by
  unfold initFirstPage
  split
  · rename_i noPage
    have empty : c.alive = [] := state.arena.aliveChain.head_eq_zero_iff.mp noPage
    apply (requestNewPage_yields state.arena state.heldNil true).bind
    rintro ⟨newPage, h₁⟩ (⟨isNull, refused⟩ | ⟨free, taken⟩)
    · dsimp only at isNull refused
      subst isNull
      have firstPage : h₁.firstPage = 0 := refused.lists.firstPage.trans noPage
      have same : ({ h₁ with firstPage := 0 } : Heap) = h₁ := by
        rw [← firstPage]
      simp only [↓reduceIte, same]
      exact ⟨⟨c, state.declined refused, fun _ used => used⟩, fun never => by cases never⟩
    · dsimp only at taken
      simp only [taken.nonnull, ↓reduceIte]
      exact ⟨⟨(c.take newPage free).append newPage, state.initialised taken empty,
        fun _ => Census.used_of_append_take⟩, fun _ => taken.nonnull⟩
  · rename_i hasPage
    exact ⟨⟨c, Grown.refl state, fun _ used => used⟩, fun _ => hasPage⟩

namespace AllocatorState

/-- `malloc_in_page` on a page in use whose free tail is large enough. -/
theorem mallocInPage (state : AllocatorState pf h c bigs) (pMem : p ∈ c.alive)
    (notFull : pageIsFull pf h.mem p = false) (aligned : s % 8 = 0) (positive : 8 ≤ s)
    (fits : s ≤ h.mem (freeBlock h.mem p)) :
    Grown pf h c bigs { h with mem := (mallocInPage pf s p h.mem).2 }
        (c.grow p (freeBlock h.mem p)) bigs ∧
      Served c bigs s (freeBlock h.mem p) { h with mem := (PreciseGc.mallocInPage pf s p h.mem).2 }
        (c.grow p (freeBlock h.mem p)) bigs := by
  have pTiled := Classifying.tiled_of_alive pMem
  have pPages := Arena.tiled_pages pTiled
  have pOk := state.arena.pageOk p pTiled
  have alignedPage := mod_eight_of_page (state.arena.aligned p pPages)
  have first := pOk.first_le_free
  have tail := pOk.tail_bounds alignedPage notFull
  have freeAligned := (pOk.aligned_blocks alignedPage).1
  rcases state.arena.mallocInPage pTiled notFull aligned positive fits with ⟨arena, allocated⟩
  generalize (PreciseGc.mallocInPage pf s p h.mem).2 = m at arena allocated ⊢
  have bigAway : ∀ big ∈ bigs, ∀ x, big ≤ x → x < big + bigLength pf h.mem big →
      m x = h.mem x := by
    intro big bigMem x lower upper
    have := state.big.pages big bigMem p pPages
    exact allocated.frame x (by omega) (by omega)
  have bigBlocks : BigBlocks pf { h with mem := m } (c.grow p (freeBlock h.mem p)) bigs := by
    refine state.big.transport ?_ ?_ ?_ ?_ state.big.pages
    · rfl
    · intro big bigMem
      have := bigLength_ge pf h.mem big
      exact bigAway big bigMem big (Nat.le_refl _) (by omega)
    · intro big bigMem
      have := bigLength_ge pf h.mem big
      refine congrArg blockSize (bigAway big bigMem (bigHeader big) ?_ ?_)
      · simp only [bigHeader]
        omega
      · simp only [bigHeader] at this ⊢
        omega
    · exact MoreMapped.refl _
  refine ⟨⟨?_, fun d used => ?_⟩, ?_⟩
  · exact
      { arena := arena, heldNil := state.heldNil, fromNil := state.fromNil,
        noBuckets := state.noBuckets, big := bigBlocks, regions := state.regions }
  · rcases used with ⟨q, qMem, dMem⟩ | ⟨big, bigMem, rfl⟩
    · have qTiled := Classifying.tiled_of_alive qMem
      have bounds := (state.arena.pageOk q qTiled).block_bounds dMem
      refine ⟨Or.inl ⟨q, qMem, ?_⟩, fun x lower upper => ?_⟩
      · by_cases same : q = p
        · subst same
          simp [Census.grow, dMem]
        · simpa [Census.grow, Function.update_of_ne same] using dMem
      · by_cases same : q = p
        · subst same
          exact allocated.frame x (by omega) (by omega)
        · have := state.arena.apart (Arena.tiled_pages qTiled) pPages same
          exact allocated.frame x (by omega) (by omega)
    · refine ⟨Or.inr ⟨big, bigMem, rfl⟩, fun x lower upper => ?_⟩
      have := bigLength_ge pf h.mem big
      simp only [bigHeader] at lower upper this
      exact bigAway big bigMem x (by omega) (by omega)
  · refine
      { used := Or.inl ⟨p, pMem, by simp [Census.grow]⟩, fresh := ?_, aligned := freeAligned,
        header := allocated.header, zeroed := allocated.zeroed }
    rintro (⟨q, qMem, dMem⟩ | ⟨big, bigMem, atHeader⟩)
    · have qTiled := Classifying.tiled_of_alive qMem
      have bounds := (state.arena.pageOk q qTiled).block_bounds dMem
      by_cases same : q = p
      · subst same
        omega
      · have := state.arena.apart (Arena.tiled_pages qTiled) pPages same
        omega
    · have := state.big.pages big bigMem p pPages
      have := bigLength_ge pf h.mem big
      simp only [bigHeader] at atHeader
      omega

/-- An empty page appended to the pages in use. -/
theorem appended (state : AllocatorState pf h c bigs)
    (taken : Taken pf 0 h.firstPage h c p free h₁) (nonempty : c.alive ≠ []) :
    Grown pf h c bigs { h₁ with mem := setPageNext h₁.mem h₁.lastPage p, lastPage := p }
      ((c.take p free).append p) bigs := by
  have lastMem : h₁.lastPage ∈ c.alive := by
    rw [taken.lists.lastPage, state.arena.lastPage, List.getLastD_eq_getLast?,
      List.getLast?_eq_getLast_of_ne_nil nonempty]
    exact List.getLast_mem nonempty
  apply state.adopted taken
  · have arena := taken.arena.appendHeld rfl taken.nonnull taken.link nonempty
    have firstPage := taken.lists.firstPage
    rw [← firstPage] at arena
    exact arena
  · exact fun x notLink => write_of_ne (notLink _ lastMem)
  · rfl
  · rfl
  · rfl

/-- A fresh mapping becomes the first big block. -/
theorem mapBig (state : AllocatorState pf h c bigs) (aligned : s % 8 = 0)
    (fresh : FreshMapping pf.pageSize h.mappings (s + sizeofBigBlock) b)
    (heapEq : h' = { h with
      mmapCalls := h.mmapCalls + 1
      mappings := ⟨b, roundToPages pf.pageSize (s + sizeofBigBlock)⟩ :: h.mappings
      mem := setBigNext ((h.mem.fill b (roundToPages pf.pageSize (s + sizeofBigBlock)) 0).write
        (bigHeader b) s) b h.firstBigBlock
      firstBigBlock := b }) :
    Grown pf h c bigs h' c (b :: bigs) ∧ Served c bigs s (bigHeader b) h' c (b :: bigs) := by
  have large := pf.pageSize_ge
  have room := le_roundToPages pf (s + sizeofBigBlock)
  have alignedPage := mod_eight_of_page fresh.aligned
  have size := blockSize_of_aligned aligned
  have unmapped := fresh.unmapped
  have positive : 0 < roundToPages pf.pageSize (s + sizeofBigBlock) :=
    roundToPages_pos pf fresh.nonempty
  simp only [sizeofBigBlock, bigHeader] at *
  generalize lengthDef : roundToPages pf.pageSize (s + 16) = length at *
  have frame : ∀ x, x < b ∨ b + length ≤ x → h'.mem x = h.mem x := by
    intro x away
    rw [heapEq]
    dsimp only [setBigNext]
    rw [write_of_ne (by omega), write_of_ne (by omega), fill_of_not_mem away]
  have link : h'.mem b = h.firstBigBlock := by
    rw [heapEq]
    exact write_same ..
  have header : h'.mem (b + 8) = s := by
    rw [heapEq]
    dsimp only [setBigNext]
    rw [write_of_ne (by omega), write_same]
  have lengthEq : bigLength pf h'.mem b = length := by
    simp only [bigLength, bigHeader, header, size, sizeofBigBlock, lengthDef]
  have apartFrom : ∀ r ∈ h.mappings, ∀ start stop, r.start ≤ start → stop ≤ r.start + r.length →
      start < stop → b + length ≤ start ∨ stop ≤ b := by
    intro r rMem start stop lower upper nonempty
    by_contra overlap
    have := unmapped r rMem (max b start) ⟨by omega, by omega⟩
    omega
  have pagesApart : ∀ q ∈ c.pages, b + length ≤ q ∨ q + pf.pageSize ≤ b := by
    intro q mem
    rcases state.arena.mapped q mem with ⟨r, rMem, lower, upper⟩
    exact apartFrom r rMem q _ lower upper (by omega)
  have bigsApart : ∀ d ∈ bigs, b + length ≤ d ∨ d + bigLength pf h.mem d ≤ b := by
    intro d mem
    have := bigLength_ge pf h.mem d
    exact apartFrom _ (state.big.mapped d mem) d _ (Nat.le_refl _) (Nat.le_refl _) (by omega)
  have more : MoreMapped h.mappings h'.mappings := by
    rw [heapEq]
    refine ⟨fun r mem => List.mem_cons_of_mem _ mem, fun r mem => ?_⟩
    rcases List.mem_cons.mp mem with rfl | old
    · refine Or.inr ⟨positive, fun r₀ oldMem x contains inNew => ?_⟩
      have := unmapped r₀ oldMem x contains
      simp only [Region.Contains] at inNew
      omega
    · exact Or.inl old
  have oldBig : BigBlocks pf { h' with firstBigBlock := h.firstBigBlock } c bigs := by
    apply state.big.untouched
    · rfl
    · exact more
    · rintro x ⟨⟨r, rMem, contains⟩, away⟩
      exact ⟨⟨⟨r, more.kept r rMem, contains⟩, away⟩, frame x (unmapped r rMem x contains)⟩
  have oldLength : ∀ d ∈ bigs, bigLength pf h'.mem d = bigLength pf h.mem d := by
    intro d mem
    have := bigLength_ge pf h.mem d
    have := bigsApart d mem
    simp only [bigLength, bigHeader] at *
    rw [frame _ (by omega)]
  have arena : Arena pf 0 h'.firstPage h' c := by
    have mapped : Arena pf 0 h.firstPage { h with mappings := h'.mappings } c :=
      { state.arena with
        mapped := fun q mem => by
          rcases state.arena.mapped q mem with ⟨r, rMem, bounds⟩
          exact ⟨r, more.kept r rMem, bounds⟩ }
    have same : SameOwnership { h with mappings := h'.mappings } h' := by
      rw [heapEq]
      exact ⟨rfl, rfl, rfl, rfl, rfl, rfl, rfl⟩
    have firstPage : h'.firstPage = h.firstPage := by rw [heapEq]
    rw [firstPage]
    apply mapped.transport same
    · intro q mem
      have := pagesApart q mem
      exact frame q (by omega)
    · intro q mem
      apply (state.arena.pageOk q mem).transport
      intro x lower upper
      have := pagesApart q (Arena.tiled_pages mem)
      exact frame x (by omega)
  have fresh' : b ∉ bigs := by
    intro mem
    have := bigsApart b mem
    have := bigLength_ge pf h.mem b
    omega
  have big : BigBlocks pf h' c (b :: bigs) := by
    refine
      { chain := ⟨by rw [heapEq], by have := fresh.nonnull; omega, ?_⟩,
        nodup := List.nodup_cons.mpr ⟨fresh', state.big.nodup⟩, mapped := ?_, region := ?_,
        apart := ?_, pages := ?_ }
    · have atHead : bigNext h'.mem b = h.firstBigBlock := link
      rw [atHead]
      exact oldBig.chain
    · intro d mem
      rcases List.mem_cons.mp mem with rfl | old
      · rw [lengthEq, heapEq]
        exact List.mem_cons_self
      · exact oldBig.mapped d old
    · intro d mem r rMem atStart
      rcases List.mem_cons.mp mem with rfl | old
      · rw [heapEq] at rMem
        rcases List.mem_cons.mp rMem with rfl | inOld
        · exact lengthEq.symm
        · have := unmapped r inOld d ⟨by omega, by have := state.regions r inOld; omega⟩
          omega
      · exact oldBig.region d old r rMem atStart
    · intro d dMem e eMem different
      rcases List.mem_cons.mp dMem with rfl | dOld
      · rcases List.mem_cons.mp eMem with rfl | eOld
        · exact absurd rfl different
        · rw [lengthEq, oldLength e eOld]
          exact bigsApart e eOld
      · rcases List.mem_cons.mp eMem with rfl | eOld
        · rw [lengthEq, oldLength d dOld]
          exact (bigsApart d dOld).symm
        · exact oldBig.apart d dOld e eOld different
    · intro d mem q qMem
      rcases List.mem_cons.mp mem with rfl | old
      · rw [lengthEq]
        exact pagesApart q qMem
      · exact oldBig.pages d old q qMem
  have usedAway : ∀ d, c.Used bigs d → ∀ x, d ≤ x → x < d + 8 + blockSize (h.mem d) →
      x < b ∨ b + length ≤ x := by
    intro d used x lower upper
    rcases state.used_mapped used with ⟨r, rMem, below, above⟩
    exact unmapped r rMem x ⟨by omega, by omega⟩
  refine ⟨⟨?_, fun d used => ⟨?_, fun x lower upper => ?_⟩⟩, ?_⟩
  · exact
      { arena := arena
        heldNil := state.heldNil
        fromNil := state.fromNil
        noBuckets := by
          rw [heapEq]
          exact state.noBuckets
        big := big
        regions := more.regions state.regions }
  · exact used.imp id (Exists.imp fun _ header => ⟨List.mem_cons_of_mem _ header.1, header.2⟩)
  · exact frame x (usedAway d used x lower upper)
  · refine
      { used := Or.inr ⟨b, List.mem_cons_self, rfl⟩, fresh := fun used => ?_, aligned := by omega,
        header := header, zeroed := fun x lower upper => ?_ }
    · have := usedAway (b + 8) used (b + 8) (Nat.le_refl _) (by omega)
      omega
    · rw [heapEq]
      dsimp only [setBigNext]
      rw [write_of_ne (by omega), write_of_ne (by omega), fill_of_mem (by omega) (by omega)]

end AllocatorState

/-- What an allocation of `size` bytes yields: the null pointer, or the data of a new block. -/
def Answered (pf : Platform) (h : Heap) (c : Census) (bigs : List Nat) (size : Nat)
    (result : Nat × Heap) : Prop :=
  ∃ c' bigs', Grown pf h c bigs result.2 c' bigs' ∧
    (result.1 = 0 ∨ ∃ b, result.1 = blockData b ∧ Served c bigs size b result.2 c' bigs')

/-- An empty page has room for every block that is not big. -/
theorem PageOk.room_of_nil {m : Memory} (ok : PageOk pf m p []) :
    pageIsFull pf m p = false ∧ m (freeBlock m p) = pf.bigBlockThreshold := by
  have large := pf.pageSize_ge
  have atStart : p + 16 = freeBlock m p := ok.tiles
  have notFull : pageIsFull pf m p = false := by
    rw [pageIsFull_eq_false_iff]
    omega
  have tail := ok.tail notFull
  have := pf.bigBlockThreshold_add
  simp only [sizeofBlock] at tail
  exact ⟨notFull, by omega⟩

/-- A request that fits into a page is served from a page. -/
theorem mallocInternal_small (state : AllocatorState pf h c bigs) (hasPage : h.firstPage ≠ 0)
    (aligned : s % 8 = 0) (positive : 8 ≤ s) (isSmall : s ≤ pf.bigBlockThreshold) (expand : Bool) :
    Yields (· = Fault.mapFailed)
      (fun result => ∃ c', Grown pf h c bigs result.2 c' bigs ∧
        (result.1 = 0 ∨ ∃ b, result.1 = blockData b ∧ Served c bigs s b result.2 c' bigs) ∧
          ∀ d, c'.Used bigs d → c.Used bigs d ∨ result.2.mem d = s)
      (mallocInternal pf s expand h) := by
  have nonempty : c.alive ≠ [] := fun nil =>
    hasPage (state.arena.aliveChain.head_eq_zero_iff.mpr nil)
  have lastMem : h.lastPage ∈ c.alive := by
    rw [state.arena.lastPage, List.getLastD_eq_getLast?,
      List.getLast?_eq_getLast_of_ne_nil nonempty]
    exact List.getLast_mem nonempty
  rw [mallocInternal, if_neg (Nat.not_lt.mpr isSmall)]
  split
  · apply (requestNewPage_yields state.arena state.heldNil expand).bind
    rintro ⟨newPage, h₁⟩ (⟨isNull, refused⟩ | ⟨free, taken⟩)
    · dsimp only at isNull refused
      subst isNull
      -- the null link is written to the last page, which has no successor
      have grown := state.declined refused
      have last : pageNext h₁.mem h₁.lastPage = 0 := by
        rw [refused.lists.lastPage, state.arena.lastPage]
        exact refused.arena.aliveChain.next_getLastD nonempty
      have same : setPageNext h₁.mem h₁.lastPage 0 = h₁.mem := by
        funext x
        by_cases atLast : x = h₁.lastPage
        · subst atLast
          exact (write_same ..).trans last.symm
        · exact write_of_ne atLast
      simp only [↓reduceIte, same]
      exact ⟨c, grown, Or.inl rfl, fun _ => Or.inl⟩
    · dsimp only at taken
      simp only [taken.nonnull, ↓reduceIte]
      have appended := state.appended taken nonempty
      have inUse : newPage ∈ ((c.take newPage free).append newPage).alive := by
        simp [Census.append]
      have empty : ((c.take newPage free).append newPage).blocks newPage = [] := by
        simp [Census.append, Census.take]
      have ok := appended.state.arena.pageOk newPage (Classifying.tiled_of_alive inUse)
      rw [empty] at ok
      have room := ok.room_of_nil
      rcases appended.state.mallocInPage inUse room.1 aligned positive (by
        rw [room.2]
        omega) with ⟨grown, served⟩
      refine ⟨_, appended.trans grown, Or.inr ⟨_, rfl, served.of_kept appended⟩, fun d used => ?_⟩
      rcases Census.used_of_grow used with old | rfl
      · exact Or.inl (Census.used_of_append_take old)
      · exact Or.inr served.header
  · rename_i fits
    simp only [Bool.or_eq_true, decide_eq_true_eq, not_or, Bool.not_eq_true] at fits
    have lastTiled := Classifying.tiled_of_alive lastMem
    have tail := (state.arena.pageOk _ lastTiled).tail_bounds
      (mod_eight_of_page (state.arena.aligned _ (Arena.tiled_pages lastTiled))) fits.1
    rcases state.mallocInPage lastMem fits.1 aligned positive (by
      have := fits.2
      omega) with ⟨grown, served⟩
    refine ⟨_, grown, Or.inr ⟨_, rfl, served⟩, fun d used => ?_⟩
    rcases Census.used_of_grow used with old | rfl
    · exact Or.inl old
    · exact Or.inr served.header

/-- A request that does not fit into a page is refused or given a mapping of its own. -/
theorem mallocInternal_big (state : AllocatorState pf h c bigs) (aligned : s % 8 = 0)
    (bounded : s + sizeofBigBlock < wordSpace) (isBig : pf.bigBlockThreshold < s) (expand : Bool) :
    Yields (fun _ => False)
      (fun result =>
        (result = (0, { h with mmapCalls := h.mmapCalls + 1 }) ∧
          Grown pf h c bigs result.2 c bigs) ∨
        ∃ b, FreshMapping pf.pageSize h.mappings (s + sizeofBigBlock) b ∧
          result.2.mappings = ⟨b, roundToPages pf.pageSize (s + sizeofBigBlock)⟩ :: h.mappings ∧
            result.2.parts = h.parts ∧ result.1 = bigData b ∧
              Grown pf h c bigs result.2 c (b :: bigs) ∧
                Served c bigs s (bigHeader b) result.2 c (b :: bigs))
      (mallocInternal pf s expand h) := by
  rw [mallocInternal, if_pos isBig, Nat.mod_eq_of_lt bounded]
  cases answer : pf.mmap h.mmapCalls h.mappings (s + sizeofBigBlock) with
  | none =>
      rw [morecore_big_of_none answer]
      have counted : AllocatorState pf { h with mmapCalls := h.mmapCalls + 1 } c bigs :=
        { state with arena := { state.arena with }, big := { state.big with } }
      exact Or.inl ⟨rfl, counted, (Grown.refl state).kept⟩
  | some b =>
      rw [morecore_big_of_some answer]
      rcases state.mapBig aligned (pf.mmap_fresh answer) rfl with ⟨grown, served⟩
      exact Or.inr ⟨b, pf.mmap_fresh answer, rfl, rfl, rfl, grown, served⟩

/-- Every block in use in `h'` was in use in `h` or has just been cut with `size` bytes. -/
def NewBlocksSized (size : Nat) (h h' : Heap) : Prop :=
  ∀ d, InUse h' d → InUse h d ∨ h'.mem d = size

theorem mallocInternal_yields (state : AllocatorState pf h c bigs) (hasPage : h.firstPage ≠ 0)
    (aligned : s % 8 = 0) (positive : 8 ≤ s) (bounded : s + sizeofBigBlock < wordSpace)
    (expand : Bool) :
    Yields (· = Fault.mapFailed)
      (fun result => Answered pf h c bigs s result ∧ NewBlocksSized s h result.2)
      (mallocInternal pf s expand h) := by
  have sized : ∀ {c' bigs' h'}, Grown pf h c bigs h' c' bigs' →
      (∀ d, c'.Used bigs' d → c.Used bigs d ∨ h'.mem d = s) → NewBlocksSized s h h' := by
    intro c' bigs' h' grown only d used
    rw [state.inUse_iff]
    exact only d (grown.state.inUse_iff.mp used)
  rcases Nat.lt_or_ge pf.bigBlockThreshold s with isBig | isSmall
  · apply ((mallocInternal_big state aligned bounded isBig expand).permit
      fun _ never => never.elim).mono
    rintro result (⟨rfl, grown⟩ | ⟨b, _, _, _, data, grown, served⟩)
    · exact ⟨⟨c, bigs, grown, Or.inl rfl⟩, sized grown fun _ => Or.inl⟩
    · refine ⟨⟨c, b :: bigs, grown, Or.inr ⟨bigHeader b, data, served⟩⟩,
        sized grown fun d used => ?_⟩
      rcases used with inPage | ⟨big, mem, rfl⟩
      · exact Or.inl (Or.inl inPage)
      · rcases List.mem_cons.mp mem with rfl | old
        · exact Or.inr served.header
        · exact Or.inl (Or.inr ⟨big, old, rfl⟩)
  · apply (mallocInternal_small state hasPage aligned positive isSmall expand).mono
    rintro result ⟨c', grown, answer, only⟩
    exact ⟨⟨c', bigs, grown, answer⟩, sized grown only⟩

theorem align_spec (bounded : s < 2 ^ 63) :
    align s % 8 = 0 ∧ s < align s ∧ align s + sizeofBigBlock < wordSpace := by
  have exact : align s = (s / 8 + 1) * 8 := by
    simp only [align, wordSpace]
    apply Nat.mod_eq_of_lt
    omega
  rw [exact]
  simp only [sizeofBigBlock, wordSpace]
  omega

/-- A critical section of `gcmalloc` keeps the invariant, and serves a new block unless a mapping is
refused or may not be requested. -/
theorem gcmallocLocked_yields (state : AllocatorState pf h c bigs) (bounded : s < 2 ^ 63)
    (expand : Bool) :
    Yields (· = Fault.mapFailed)
      (fun result => Answered pf h c bigs (align s) result ∧ NewBlocksSized (align s) h result.2)
      (gcmallocLocked pf s expand h) := by
  have size := align_spec bounded
  unfold gcmallocLocked
  apply (initFirstPage_yields state).bind
  rintro ⟨hasPage, h₁⟩ ⟨⟨c₁, grown, only⟩, first⟩
  dsimp only at grown first
  have noNew : ∀ d, InUse h₁ d → InUse h d := by
    intro d used
    exact state.inUse_iff.mpr (only d (grown.state.inUse_iff.mp used))
  cases hasPage with
  | false => exact ⟨⟨c₁, bigs, grown, Or.inl rfl⟩, fun d used => Or.inl (noNew d used)⟩
  | true =>
      apply (mallocInternal_yields grown.state (first rfl) size.1 (by omega) size.2.2 expand).mono
      rintro ⟨p, h'⟩ ⟨⟨c', bigs', grown', answer⟩, sized⟩
      refine ⟨⟨c', bigs', grown.trans grown', answer.imp id ?_⟩, fun d used => ?_⟩
      · rintro ⟨b, eq, served⟩
        exact ⟨b, eq, served.of_kept grown⟩
      · exact (sized d used).imp (noNew d) id

end PreciseGc

import PreciseGc.Heap.PageAllocation

/-!
# Buckets of free tails

During a sweep every page in use that is not full is linked into the bucket
`free_blocks[k]`, where `k` is the size of its free block; the link is stored
in the free tail itself.  `Buckets` states this for an arbitrary set of listed
pages, because a page leaves its bucket while a block is copied into it.
-/

namespace PreciseGc

open Foundation Memory

/-- `lists k` is the list hanging off `free_blocks[k]`. -/
structure BucketLists (pf : Platform) (h : Heap) (listed : Nat → Prop) (lists : Nat → List Nat) :
    Prop where
  chain : ∀ k, Chain (nextFreeBlock h.mem) (h.freeBlocks k) (lists k)
  nodup : ∀ k, (lists k).Nodup
  mem_iff : ∀ k p, p ∈ lists k ↔
    listed p ∧ pageIsFull pf h.mem p = false ∧ h.mem (freeBlock h.mem p) = k
  bounded : ∀ k, h.maxFreeBlock < k → lists k = []

/-- Exactly the listed pages that are not full are in the buckets, each in the bucket of its
tail size and in no other, and no bucket above `max_free_block` is occupied. -/
def Buckets (pf : Platform) (h : Heap) (listed : Nat → Prop) : Prop :=
  ∃ lists, BucketLists pf h listed lists

variable {pf : Platform} {h h' : Heap} {listed listed' : Nat → Prop} {p : Nat}

theorem Buckets.empty (null : ∀ k, h.freeBlocks k = 0) (none : ∀ p, ¬listed p) :
    Buckets pf h listed :=
  ⟨fun _ => [],
    { chain := null
      nodup := fun _ => List.nodup_nil
      mem_iff := fun k p => by simp [none p]
      bounded := fun _ _ => rfl }⟩

/-- Only the free-block word, the tail header and the tail link of listed pages matter. -/
theorem Buckets.transport (buckets : Buckets pf h listed)
    (freeBlocks : h'.freeBlocks = h.freeBlocks)
    (maxFreeBlock : h'.maxFreeBlock = h.maxFreeBlock) (same : ∀ p, listed' p ↔ listed p)
    (free : ∀ p, listed p → freeBlock h'.mem p = freeBlock h.mem p)
    (tail : ∀ p, listed p → pageIsFull pf h.mem p = false →
      h'.mem (freeBlock h.mem p) = h.mem (freeBlock h.mem p) ∧
        h'.mem (freeBlock h.mem p + 8) = h.mem (freeBlock h.mem p + 8)) :
    Buckets pf h' listed' := by
  rcases buckets with ⟨lists, ok⟩
  refine ⟨lists, ?_, ok.nodup, ?_, ?_⟩
  · intro k
    rw [freeBlocks]
    refine (ok.chain k).congr fun p mem => ?_
    rcases (ok.mem_iff k p).mp mem with ⟨isListed, notFull, _⟩
    simp only [nextFreeBlock, forwardPointer, blockData, sizeofBlock, free p isListed]
    exact (tail p isListed notFull).2
  · intro k p
    rw [ok.mem_iff k p, same p]
    refine and_congr_right fun isListed => ?_
    have fullEq : pageIsFull pf h'.mem p = pageIsFull pf h.mem p := by
      simp only [pageIsFull, free p isListed]
    rw [fullEq, free p isListed]
    refine and_congr_right fun notFull => ?_
    rw [(tail p isListed notFull).1]
  · intro k above
    exact ok.bounded k (by rwa [maxFreeBlock] at above)

/-- A change of memory inside the body of a page that is not listed. -/
theorem Buckets.change_page {fromHead aliveHead : Nat} {c : Census} (buckets : Buckets pf h listed)
    (arena : Arena pf fromHead aliveHead h c) (tiled : ∀ q, listed q → q ∈ c.tiled)
    (freeBlocks : h'.freeBlocks = h.freeBlocks) (maxFreeBlock : h'.maxFreeBlock = h.maxFreeBlock)
    (inPages : p ∈ c.pages) (notListed : ¬listed p)
    (frame : ∀ x, (x < p + 8 ∨ p + pf.pageSize ≤ x) → h'.mem x = h.mem x) :
    Buckets pf h' listed := by
  have large := pf.pageSize_ge
  have away : ∀ q, listed q → q + pf.pageSize ≤ p ∨ p + pf.pageSize ≤ q := by
    intro q isListed
    refine arena.apart (Arena.tiled_pages (tiled q isListed)) inPages ?_
    rintro rfl
    exact notListed isListed
  refine buckets.transport freeBlocks maxFreeBlock (fun _ => Iff.rfl) ?_ ?_
  · intro q isListed
    have := away q isListed
    exact frame _ (by omega)
  · intro q isListed notFull
    have qOk := arena.pageOk q (tiled q isListed)
    have := qOk.first_le_free
    have := qOk.tail_bounds
      (mod_eight_of_page (arena.aligned q (Arena.tiled_pages (tiled q isListed)))) notFull
    have := away q isListed
    exact ⟨frame _ (by omega), frame _ (by omega)⟩

/-- The search of `copy_block` finds a listed page with a sufficient tail and unlists it, or
leaves the heap as it is. -/
theorem findFreeTail_spec (buckets : Buckets pf h listed) {s : Nat} (count : Nat)
    (small : h.maxFreeBlock < freeBlocksLength) :
    ∃ q h', findFreeTail count s h = .ok (q, h') ∧
      ((q = 0 ∧ h' = h) ∨
        (q ≠ 0 ∧ listed q ∧ pageIsFull pf h.mem q = false ∧ s ≤ h.mem (freeBlock h.mem q) ∧
          h' = { h with freeBlocks := h'.freeBlocks } ∧
          Buckets pf h' fun r => listed r ∧ r ≠ q)) := by
  induction count generalizing s with
  | zero => exact ⟨0, h, rfl, Or.inl ⟨rfl, rfl⟩⟩
  | succ count ih =>
      rw [findFreeTail]
      split
      · exact ⟨0, h, rfl, Or.inl ⟨rfl, rfl⟩⟩
      · rename_i reached
        rw [checkIndex_of_lt (by omega)]
        change ∃ q h', (if h.freeBlocks s ≠ 0 then _ else _) = Except.ok (q, h') ∧ _
        split
        · rename_i occupied
          rcases buckets with ⟨lists, ok⟩
          cases listEq : lists s with
          | nil =>
              have chain := ok.chain s
              rw [listEq] at chain
              exact absurd chain occupied
          | cons q rest =>
              have chain := ok.chain s
              have unique := ok.nodup s
              rw [listEq] at chain unique
              have headEq := chain.1
              have qMem : q ∈ lists s := by simp [listEq]
              rcases (ok.mem_iff s q).mp qMem with ⟨isListed, notFull, size⟩
              refine ⟨_, _, rfl, Or.inr ⟨occupied, ?_, ?_, ?_, rfl, Function.update lists s rest,
                ?_, ?_, ?_, ?_⟩⟩
              · rwa [headEq]
              · rwa [headEq]
              · rw [headEq, size]
              · intro k
                by_cases same : k = s
                · subst same
                  simp only [Function.update_self, headEq]
                  exact chain.2.2
                · simp only [Function.update_of_ne same]
                  exact ok.chain k
              · intro k
                by_cases same : k = s
                · subst same
                  simpa using (List.nodup_cons.mp unique).2
                · simpa [Function.update_of_ne same] using ok.nodup k
              · intro k r
                rw [headEq]
                by_cases same : k = s
                · subst same
                  simp only [Function.update_self]
                  have := ok.mem_iff k r
                  rw [listEq, List.mem_cons] at this
                  constructor
                  · intro mem
                    rcases this.mp (Or.inr mem) with ⟨rListed, rNotFull, rSize⟩
                    refine ⟨⟨rListed, ?_⟩, rNotFull, rSize⟩
                    rintro rfl
                    exact (List.nodup_cons.mp unique).1 mem
                  · rintro ⟨⟨rListed, other⟩, rest⟩
                    exact (this.mpr ⟨rListed, rest⟩).resolve_left other
                · simp only [Function.update_of_ne same]
                  rw [ok.mem_iff k r]
                  constructor
                  · rintro ⟨rListed, rNotFull, rSize⟩
                    refine ⟨⟨rListed, ?_⟩, rNotFull, rSize⟩
                    rintro rfl
                    exact same (rSize.symm.trans size)
                  · rintro ⟨⟨rListed, _⟩, rest⟩
                    exact ⟨rListed, rest⟩
              · intro k above
                change h.maxFreeBlock < k at above
                by_cases same : k = s
                · omega
                · rw [Function.update_of_ne same]
                  exact ok.bounded k above
        · rcases ih (s := s + 8) with ⟨q, h', eq, missing | ⟨found, isListed, notFull, fits, rest⟩⟩
          · exact ⟨q, h', eq, Or.inl missing⟩
          · exact ⟨q, h', eq, Or.inr ⟨found, isListed, notFull, by omega, rest⟩⟩

variable {fromHead aliveHead : Nat} {c : Census}

/-- The result of `if (!page_is_full(p))` linking page `p`: its tail is listed, and at most the
first data word of the tail has changed. -/
structure Linked (pf : Platform) (fromHead aliveHead : Nat) (h : Heap) (c : Census)
    (listed : Nat → Prop) (p : Nat) (h' : Heap) : Prop where
  arena : Arena pf fromHead aliveHead h' c
  buckets : Buckets pf h' fun q => listed q ∨ q = p
  maxBound : h'.maxFreeBlock ≤ pf.bigBlockThreshold
  heapEq : h' = { h with
    mem := h'.mem, freeBlocks := h'.freeBlocks, maxFreeBlock := h'.maxFreeBlock }
  frame : ∀ x, (x < freeBlock h.mem p + 8 ∨ p + pf.pageSize ≤ x) → h'.mem x = h.mem x

theorem Arena.linkFreeTail (arena : Arena pf fromHead aliveHead h c)
    (buckets : Buckets pf h listed) (tiled : ∀ q, listed q → q ∈ c.tiled)
    (inTiled : p ∈ c.tiled) (nonnull : p ≠ 0) (notListed : ¬listed p)
    (small : pf.bigBlockThreshold < freeBlocksLength)
    (maxBound : h.maxFreeBlock ≤ pf.bigBlockThreshold) :
    ∃ h', linkFreeTail pf p h = .ok h' ∧ Linked pf fromHead aliveHead h c listed p h' := by
  have ok := arena.pageOk p inTiled
  have alignedPage := mod_eight_of_page (arena.aligned p (Arena.tiled_pages inTiled))
  unfold PreciseGc.linkFreeTail
  split
  · rename_i full
    refine ⟨h, rfl, arena, ?_, maxBound, rfl, fun _ _ => rfl⟩
    rcases buckets with ⟨lists, lok⟩
    refine ⟨lists, lok.chain, lok.nodup, fun k q => ?_, lok.bounded⟩
    rw [lok.mem_iff k q]
    constructor
    · rintro ⟨isListed, rest⟩
      exact ⟨Or.inl isListed, rest⟩
    · rintro ⟨isListed | rfl, notFull, size⟩
      · exact ⟨isListed, notFull, size⟩
      · rw [full] at notFull
        exact absurd notFull (by simp)
  · rename_i notFull
    rw [Bool.not_eq_true] at notFull
    have tail := ok.tail_bounds alignedPage notFull
    have first := ok.first_le_free
    have thr := pf.bigBlockThreshold_add
    dsimp only
    rw [tail.2.2.1, checkIndex_of_lt (by omega)]
    have frame : ∀ x, x ≠ freeBlock h.mem p + 8 →
        setNextFreeBlock h.mem p (h.freeBlocks (h.mem (freeBlock h.mem p))) x = h.mem x :=
      fun x other => write_of_ne other
    have link : setNextFreeBlock h.mem p (h.freeBlocks (h.mem (freeBlock h.mem p)))
        (freeBlock h.mem p + 8) = h.freeBlocks (h.mem (freeBlock h.mem p)) := write_same ..
    refine ⟨_, rfl, ?_⟩
    generalize setNextFreeBlock h.mem p
      (h.freeBlocks (h.mem (freeBlock h.mem p))) = mem at frame link
    have away : ∀ q, listed q → q + pf.pageSize ≤ p ∨ p + pf.pageSize ≤ q := by
      intro q isListed
      refine arena.apart (Arena.tiled_pages (tiled q isListed)) (Arena.tiled_pages inTiled) ?_
      rintro rfl
      exact notListed isListed
    have freeEq : ∀ q, listed q ∨ q = p → freeBlock mem q = freeBlock h.mem q := by
      rintro q (isListed | rfl)
      · have := away q isListed
        have := (arena.pageOk q (tiled q isListed)).first_le_free
        exact frame _ (by omega)
      · exact frame _ (by omega)
    have tailEq : ∀ q, listed q → pageIsFull pf h.mem q = false →
        mem (freeBlock h.mem q) = h.mem (freeBlock h.mem q) ∧
          mem (freeBlock h.mem q + 8) = h.mem (freeBlock h.mem q + 8) := by
      intro q isListed qNotFull
      have := away q isListed
      have qOk := arena.pageOk q (tiled q isListed)
      have := qOk.first_le_free
      have := qOk.tail_bounds
        (mod_eight_of_page (arena.aligned q (Arena.tiled_pages (tiled q isListed)))) qNotFull
      exact ⟨frame _ (by omega), frame _ (by omega)⟩
    have fullEq : ∀ q, listed q ∨ q = p → pageIsFull pf mem q = pageIsFull pf h.mem q := by
      intro q either
      simp only [pageIsFull, freeEq q either]
    refine ⟨?_, ?_, ?_, rfl, fun x outside => frame x (by omega)⟩
    · have unchanged : Function.update c.blocks p (c.blocks p) = c.blocks :=
        Function.update_eq_self p c.blocks
      have changed : Arena pf _ _ { h with
          mem := mem
          freeBlocks := Function.update h.freeBlocks (h.mem (freeBlock h.mem p)) p
          maxFreeBlock :=
            if h.maxFreeBlock < h.mem (freeBlock h.mem p) then h.mem (freeBlock h.mem p)
            else h.maxFreeBlock } _ := arena.change_page
        ⟨rfl, rfl, rfl, rfl, rfl, rfl, rfl⟩ inTiled
        (ok.congr (freeEq p (Or.inr rfl)) (fun b bMem => by
          have := ok.block_bounds bMem
          exact congrArg blockSize (frame b (by omega))) (fun _ => frame _ (by omega)))
        (fun x outside => frame x (by omega))
      rw [unchanged] at changed
      exact changed
    · rcases buckets with ⟨lists, lok⟩
      have notInLists : ∀ k, p ∉ lists k := fun k mem => notListed ((lok.mem_iff k p).mp mem).1
      have oldChain : ∀ k, Chain (nextFreeBlock mem) (h.freeBlocks k) (lists k) := by
        intro k
        refine (lok.chain k).congr fun q mem => ?_
        rcases (lok.mem_iff k q).mp mem with ⟨isListed, qNotFull, _⟩
        simp only [nextFreeBlock, forwardPointer, blockData, sizeofBlock,
          freeEq q (Or.inl isListed)]
        exact (tailEq q isListed qNotFull).2
      refine ⟨Function.update lists (h.mem (freeBlock h.mem p))
        (p :: lists (h.mem (freeBlock h.mem p))), ?_, ?_, ?_, ?_⟩
      · intro k
        by_cases same : k = h.mem (freeBlock h.mem p)
        · subst same
          simp only [Function.update_self]
          refine ⟨rfl, nonnull, ?_⟩
          have : nextFreeBlock mem p = h.freeBlocks (h.mem (freeBlock h.mem p)) := by
            simp only [nextFreeBlock, forwardPointer, blockData, sizeofBlock,
              freeEq p (Or.inr rfl), link]
          rw [this]
          exact oldChain _
        · simp only [Function.update_of_ne same]
          exact oldChain k
      · intro k
        by_cases same : k = h.mem (freeBlock h.mem p)
        · subst same
          simp only [Function.update_self, List.nodup_cons]
          exact ⟨notInLists _, lok.nodup _⟩
        · simpa only [Function.update_of_ne same] using lok.nodup k
      · intro k q
        have old : listed q ∧ pageIsFull pf mem q = false ∧ mem (freeBlock mem q) = k ↔
            q ∈ lists k := by
          rw [lok.mem_iff k q]
          refine and_congr_right fun isListed => ?_
          rw [fullEq q (Or.inl isListed), freeEq q (Or.inl isListed)]
          refine and_congr_right fun qNotFull => ?_
          rw [(tailEq q isListed qNotFull).1]
        have new : pageIsFull pf mem p = false ∧ mem (freeBlock mem p) = k ↔
            h.mem (freeBlock h.mem p) = k := by
          rw [fullEq p (Or.inr rfl), freeEq p (Or.inr rfl), frame _ (by omega)]
          exact and_iff_right notFull
        by_cases same : k = h.mem (freeBlock h.mem p)
        · subst same
          rw [Function.update_self, List.mem_cons, ← old]
          constructor
          · rintro (rfl | ⟨isListed, rest⟩)
            · exact ⟨Or.inr rfl, new.mpr rfl⟩
            · exact ⟨Or.inl isListed, rest⟩
          · rintro ⟨isListed | rfl, rest⟩
            · exact Or.inr ⟨isListed, rest⟩
            · exact Or.inl rfl
        · rw [Function.update_of_ne same, ← old]
          constructor
          · rintro ⟨isListed, rest⟩
            exact ⟨Or.inl isListed, rest⟩
          · rintro ⟨isListed | rfl, rest⟩
            · exact ⟨isListed, rest⟩
            · exact absurd (new.mp rest).symm same
      · intro k above
        simp only at above
        have : k ≠ h.mem (freeBlock h.mem p) := by
          rintro rfl
          split at above <;> omega
        rw [Function.update_of_ne this]
        refine lok.bounded k ?_
        split at above <;> omega
    · simp only
      split <;> omega

end PreciseGc

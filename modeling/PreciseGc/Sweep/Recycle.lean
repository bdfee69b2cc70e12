import PreciseGc.Heap.Buckets

/-!
# Recycling pages and clearing the buckets

The pages left in `first_page` go to the free list, and every bucket is emptied.
-/

namespace PreciseGc

open Foundation Memory

variable {pf : Platform} {fromHead aliveHead : Nat} {h h' : Heap} {c : Census} {p : Nat}
  {rest : List Nat}

/-- The census after the first page of from-space has become free. -/
def Census.recycle (c : Census) (p : Nat) (rest : List Nat) : Census :=
  { c with fromSpace := rest, free := p :: c.free }

theorem Census.recycle_pages_perm (fromSpace : c.fromSpace = p :: rest) :
    (c.recycle p rest).pages.Perm c.pages := by
  simp only [Census.pages, Census.recycle, fromSpace, List.append_assoc, List.cons_append]
  refine List.Perm.append_left c.held ?_
  rw [← List.append_assoc, ← List.append_assoc]
  exact List.perm_middle

theorem Arena.recyclePage (arena : Arena pf fromHead aliveHead h c)
    (fromSpace : c.fromSpace = p :: rest) :
    Arena pf (pageNext h.mem p) aliveHead
      { h with
        mem := setPageNext h.mem p h.freeList
        freeList := p
        freePages := h.freePages + 1 } (c.recycle p rest) := by
  have unique := arena.distinct
  have pMem : p ∈ c.pages := by simp [Census.pages, fromSpace]
  have chain := arena.fromChain
  rw [fromSpace] at chain
  have pNonnull : p ≠ 0 := chain.ne_zero (by simp)
  have fresh : p ∉ rest ∧ p ∉ c.alive ∧ p ∉ c.free := by
    simp only [Census.pages, fromSpace, List.append_assoc] at unique
    have tail := (List.nodup_cons.mp (List.nodup_append'.mp unique).2.1).1
    simpa [not_or] using tail
  have linkEq : ∀ q, q ≠ p → pageNext (setPageNext h.mem p h.freeList) q = pageNext h.mem q :=
    fun q other => write_of_ne other
  refine arena.reassign (Census.recycle_pages_perm fromSpace) ?_ rfl rfl rfl rfl rfl ?_ ?_ ?_ ?_
    arena.lastPage ?_
  · intro q mem
    rw [Census.mem_tiled] at mem ⊢
    simp only [Census.recycle, fromSpace, List.mem_cons] at mem ⊢
    tauto
  · exact fun q mem => arena.agree_setPageNext pMem (Arena.tiled_pages mem)
  · exact chain.2.2.congr fun q mem => linkEq q (by rintro rfl; exact fresh.1 mem)
  · exact arena.aliveChain.congr fun q mem => linkEq q (by rintro rfl; exact fresh.2.1 mem)
  · refine arena.freeChain.push pNonnull fresh.2.2 (write_same ..) ?_
    exact fun q other => linkEq q other
  · simp [Census.recycle, arena.freePages]

/-- What recycling the pages `released` has done. -/
structure Recycled (pf : Platform) (aliveHead : Nat) (h : Heap) (c : Census) (released : List Nat)
    (h' : Heap) (c' : Census) : Prop where
  arena : Arena pf 0 aliveHead h' c'
  census : c' = { c with fromSpace := [], free := c'.free }
  free : ∀ q, q ∈ c'.free ↔ q ∈ released ∨ q ∈ c.free
  frame : ∀ x, (∀ q ∈ released, x ≠ q) → h'.mem x = h.mem x
  heapEq : h' = { h with mem := h'.mem, freeList := h'.freeList, freePages := h'.freePages }

theorem recyclePages_spec {fuel : Nat} (arena : Arena pf h.firstPage aliveHead h c)
    (enough : c.fromSpace.length < fuel) :
    ∃ h' c', recyclePages fuel h = .ok h' ∧ Recycled pf aliveHead h c c.fromSpace h' c' := by
  have yields : Yields (fun _ => False) _ (recyclePages fuel h) := walk_yields
    (fun todo cursor h' => ∃ c', Arena pf cursor aliveHead h' c' ∧
      c' = { c with fromSpace := todo, free := c'.free } ∧
      (∃ visited, c.fromSpace = visited ++ todo ∧ ∀ q, q ∈ c'.free ↔ q ∈ visited ∨ q ∈ c.free) ∧
      (∀ x, (∀ q ∈ c.fromSpace, x ≠ q) → h'.mem x = h.mem x) ∧
      h' = { h with mem := h'.mem, freeList := h'.freeList, freePages := h'.freePages })
    ?_ ?_ enough ⟨c, arena, rfl, ⟨[], rfl, by simp⟩, fun _ _ => rfl, rfl⟩
  · rcases yields.total with
      ⟨h', eq, cursor, c', arena', census, ⟨visited, split, free⟩, frame, heapEq⟩
    have atEnd : cursor = 0 := by
      have chain := arena'.fromChain
      rw [census] at chain
      exact chain
    subst atEnd
    rw [List.append_nil] at split
    subst split
    exact ⟨h', c', eq, ⟨arena', census, free, frame, heapEq⟩⟩
  · rintro cursor h' ⟨c', arena', census, _⟩
    have chain := arena'.fromChain
    rw [census] at chain
    simpa using chain
  · rintro q todo cursor h' ⟨c', arena', census, ⟨visited, split, free⟩, frame, heapEq⟩
    have fromSpace : c'.fromSpace = q :: todo := by rw [census]
    have chain := arena'.fromChain
    rw [fromSpace] at chain
    rcases chain with ⟨rfl, nonnull, _⟩
    refine ⟨by simpa using nonnull, c'.recycle cursor todo, arena'.recyclePage fromSpace, ?_,
      ⟨visited ++ [cursor], by simpa using split, ?_⟩, ?_, ?_⟩
    · simp only [Census.recycle]
      rw [census]
    · intro r
      simp only [Census.recycle, List.mem_cons, free r, List.mem_append, List.not_mem_nil, or_false]
      tauto
    · intro x away
      refine (write_of_ne (away cursor (by simp [split]))).trans (frame x away)
    · rw [heapEq]

/-- Occupied buckets are those of possible tail sizes, up to `max_free_block`. -/
def BucketKeys (h : Heap) : Prop :=
  ∀ k, h.freeBlocks k ≠ 0 → 8 ≤ k ∧ k % 8 = 0 ∧ k ≤ h.maxFreeBlock

theorem Buckets.keys {listed : Nat → Prop} (buckets : Buckets pf h listed)
    (arena : Arena pf fromHead aliveHead h c) (tiled : ∀ q, listed q → q ∈ c.tiled) :
    BucketKeys h := by
  rcases buckets with ⟨lists, ok⟩
  intro k occupied
  have chain := ok.chain k
  cases listEq : lists k with
  | nil =>
      rw [listEq] at chain
      exact absurd chain occupied
  | cons q rest =>
      have mem : q ∈ lists k := by simp [listEq]
      rcases (ok.mem_iff k q).mp mem with ⟨isListed, notFull, size⟩
      have qTiled := tiled q isListed
      have tail := (arena.pageOk q qTiled).tail_bounds
        (mod_eight_of_page (arena.aligned q (Arena.tiled_pages qTiled))) notFull
      rw [size] at tail
      refine ⟨by omega, tail.2.1, ?_⟩
      by_contra above
      rw [ok.bounded k (by omega)] at mem
      simp at mem

/-- The final loop clears the buckets of the sizes it runs through and changes nothing else. -/
theorem clearFreeBlocks_spec (count freeSize : Nat) {h : Heap}
    (small : h.maxFreeBlock < freeBlocksLength)
    (enough : h.maxFreeBlock < freeSize + 8 * count) :
    ∃ h', clearFreeBlocks count freeSize h = .ok h' ∧
      h' = { h with freeBlocks := h'.freeBlocks } ∧
        ∀ k, h'.freeBlocks k =
          if freeSize ≤ k ∧ k ≤ h.maxFreeBlock ∧
            k % 8 = freeSize % 8 then 0 else h.freeBlocks k := by
  induction count generalizing freeSize h with
  | zero =>
      refine ⟨h, rfl, rfl, fun k => ?_⟩
      rw [if_neg (by omega)]
  | succ count ih =>
      rw [clearFreeBlocks]
      split
      · refine ⟨h, rfl, rfl, fun k => ?_⟩
        rw [if_neg (by omega)]
      · rw [checkIndex_of_lt (by omega)]
        have enough' : h.maxFreeBlock < freeSize + 8 + 8 * count := by omega
        have later := fun h₁ : Heap => @ih (freeSize + 8) h₁
        rcases later { h with freeBlocks := Function.update h.freeBlocks freeSize 0 } small
          enough' with ⟨h', eq, heapEq, cleared⟩
        refine ⟨h', eq, heapEq, fun k => ?_⟩
        rw [cleared k]
        dsimp only
        by_cases same : k = freeSize
        · subst same
          rw [if_neg (by omega), Function.update_self, if_pos (by omega)]
        · rw [Function.update_of_ne same]
          refine if_congr ?_ rfl rfl
          omega

/-- Clearing from the smallest tail size on empties every bucket. -/
theorem clearFreeBlocks_all (keys : BucketKeys h) (small : h.maxFreeBlock < freeBlocksLength) :
    ∃ h', clearFreeBlocks (h.maxFreeBlock + 1) 8 h = .ok h' ∧
      h' = { h with freeBlocks := h'.freeBlocks } ∧ ∀ k, h'.freeBlocks k = 0 := by
  rcases clearFreeBlocks_spec (h.maxFreeBlock + 1) 8 small (by omega) with
    ⟨h', eq, heapEq, cleared⟩
  refine ⟨h', eq, heapEq, fun k => ?_⟩
  rw [cleared k]
  split
  · rfl
  · rename_i skipped
    by_contra occupied
    have := keys k occupied
    omega

end PreciseGc

import PreciseGc.Heap.PageAllocation
import PreciseGc.Sweep.BigList

/-!
# Sweeping the big blocks

`sweep_big_blocks` unlinks and unmaps the big blocks that are neither marked
nor pinned and clears the flags of the others.  It touches two words of each
big block and the mappings of the blocks it frees; pages and everything else
that is mapped outside the big blocks stay as they are.
-/

namespace PreciseGc

open Foundation Memory

variable {pf : Platform} {h₀ h h' : Heap} {c : Census} {bigs kept todo : List Nat} {b : Nat}
  {s : BigSweep}

/-- The length of the mapping of a big block. -/
def bigLength (pf : Platform) (m : Memory) (b : Nat) : Nat :=
  roundToPages pf.pageSize (blockSize (m (bigHeader b)) + sizeofBigBlock)

theorem bigLength_ge (pf : Platform) (m : Memory) (b : Nat) :
    blockSize (m (bigHeader b)) + 16 ≤ bigLength pf m b :=
  le_roundToPages pf _

/-- The header of a big block is a word of the block. -/
theorem bigHeader_bounds (pf : Platform) (m : Memory) (b : Nat) :
    b ≤ bigHeader b ∧ bigHeader b < b + bigLength pf m b := by
  have := bigLength_ge pf m b
  simp only [bigHeader] at *
  omega

/-- The list `first_big_block` visits `bigs`; each of these has a mapping of its own, apart from
the others and from every page. -/
structure BigBlocks (pf : Platform) (h : Heap) (c : Census) (bigs : List Nat) : Prop where
  chain : Chain (bigNext h.mem) h.firstBigBlock bigs
  nodup : bigs.Nodup
  mapped : ∀ b ∈ bigs, (⟨b, bigLength pf h.mem b⟩ : Region) ∈ h.mappings
  region : ∀ b ∈ bigs, ∀ r ∈ h.mappings, r.start = b → r.length = bigLength pf h.mem b
  apart : ∀ b ∈ bigs, ∀ d ∈ bigs, b ≠ d →
    b + bigLength pf h.mem b ≤ d ∨ d + bigLength pf h.mem d ≤ b
  pages : ∀ b ∈ bigs, ∀ p ∈ c.pages, b + bigLength pf h.mem b ≤ p ∨ p + pf.pageSize ≤ b

/-- A mapped byte that belongs to no page and to no big block. -/
def OffHeap (pf : Platform) (h : Heap) (c : Census) (bigs : List Nat) (x : Nat) : Prop :=
  Outside pf h c x ∧ ∀ b ∈ bigs, x < b ∨ b + bigLength pf h.mem b ≤ x

/-- The state of the loop: the surviving blocks `kept` have been visited, `todo` are left. -/
structure BigSweeping (pf : Platform) (h₀ : Heap) (bigs kept todo : List Nat) (s : BigSweep) :
    Prop where
  visited : ∃ visited, bigs = visited ++ todo ∧ kept = visited.filter (bigSurvives h₀.mem)
  chain : Chain (bigNext s.heap.mem) s.heap.firstBigBlock (kept ++ todo)
  prev : s.prev = kept.getLastD 0
  otherHeader : ∀ b ∈ bigs, b ∉ kept → s.heap.mem (bigHeader b) = h₀.mem (bigHeader b)
  keptHeader : ∀ b ∈ kept,
    s.heap.mem (bigHeader b) = unmarkBlock (unpinBlock (h₀.mem (bigHeader b)))
  frame : ∀ x, (∀ b ∈ bigs, x ≠ b ∧ x ≠ bigHeader b) → s.heap.mem x = h₀.mem x
  heapEq : s.heap = { h₀ with
    mem := s.heap.mem, firstBigBlock := s.heap.firstBigBlock, mappings := s.heap.mappings }
  retained : ∀ r ∈ h₀.mappings, (∀ b ∈ bigs, b ∉ kept ++ todo → r.start ≠ b) → r ∈ s.heap.mappings
  remainder : ∀ r ∈ s.heap.mappings, r ∈ h₀.mappings ∨ ∃ d ∈ bigs, d ∉ kept ++ todo ∧
    d < r.start ∧ r.start + r.length ≤ d + bigLength pf h₀.mem d ∧ 0 < r.length

theorem BigBlocks.list (big : BigBlocks pf h c bigs) : BigList h bigs where
  chain := big.chain
  apart := by
    intro b bMem d dMem other
    have := bigLength_ge pf h.mem b
    have := bigLength_ge pf h.mem d
    have := big.apart b bMem d dMem other
    simp only [bigData, sizeofBigBlock]
    omega

namespace BigSweeping

theorem filtering (inv : BigSweeping pf h₀ bigs kept todo s) :
    BigFiltering h₀ bigs kept todo s :=
  { inv with }

theorem sub (inv : BigSweeping pf h₀ bigs kept todo s) : ∀ d ∈ kept ++ todo, d ∈ bigs :=
  inv.filtering.sub

/-- A surviving block keeps its mapping. -/
theorem keep (inv : BigSweeping pf h₀ bigs kept (b :: todo) s) {s' : BigSweep}
    (filtering : BigFiltering h₀ bigs (kept ++ [b]) todo s')
    (same : s'.heap.mappings = s.heap.mappings) : BigSweeping pf h₀ bigs (kept ++ [b]) todo s' := by
  have cells : kept ++ [b] ++ todo = kept ++ b :: todo := by simp
  refine { filtering with retained := ?_, remainder := ?_ }
  · rw [cells, same]
    exact inv.retained
  · rw [cells, same]
    exact inv.remainder

/-- A block that leaves the list loses its mapping. -/
theorem drop (inv : BigSweeping pf h₀ bigs kept (b :: todo) s) (big : BigBlocks pf h₀ c bigs)
    {s' : BigSweep} (filtering : BigFiltering h₀ bigs kept todo s') {length : Nat}
    (nonempty : 0 < length)
    (mappings : s'.heap.mappings =
      s.heap.mappings.flatMap (Region.unmap pf.pageSize b length)) :
    BigSweeping pf h₀ bigs kept todo s' := by
  have bBig : b ∈ bigs := inv.sub b (by simp)
  have bFresh : b ∉ kept ++ todo := inv.filtering.head_fresh
  have smaller : 0 < roundToPages pf.pageSize length := roundToPages_pos pf nonempty
  have stays : ∀ d, d ∉ kept ++ b :: todo → d ∉ kept ++ todo := by
    intro d notMem mem
    refine notMem ?_
    rcases List.mem_append.mp mem with inKept | inTodo
    · simp [inKept]
    · simp [inTodo]
  refine { filtering with retained := ?_, remainder := ?_ }
  · intro r rMem notFreed
    rw [mappings]
    refine List.mem_flatMap.mpr ⟨r, inv.retained r rMem fun d dMem gone =>
      notFreed d dMem (stays d gone), ?_⟩
    rw [Region.unmap, if_neg (notFreed b bBig bFresh)]
    simp
  · intro r rMem
    rw [mappings] at rMem
    rcases List.mem_flatMap.mp rMem with ⟨old, oldMem, part⟩
    have origin := inv.remainder old oldMem
    rw [Region.unmap] at part
    split at part
    · rename_i atStart
      have oldLength : old.length = bigLength pf h₀.mem b := by
        rcases origin with original | ⟨d, dBig, gone, above, below, positive⟩
        · exact big.region b bBig old original atStart
        · have other : b ≠ d := by
            rintro rfl
            exact gone (by simp)
          have := big.apart b bBig d dBig other
          have := bigLength_ge pf h₀.mem b
          omega
      split at part
      · simp at part
      · rename_i longer
        rw [List.mem_singleton] at part
        rw [part]
        exact Or.inr ⟨b, bBig, bFresh, by dsimp only; omega, by dsimp only; omega, by
          dsimp only; omega⟩
    · rw [List.mem_singleton] at part
      rw [part]
      refine origin.imp id ?_
      rintro ⟨d, dBig, gone, rest⟩
      exact ⟨d, dBig, stays d gone, rest⟩

end BigSweeping

/-- What `sweep_big_blocks` has done. -/
structure BigSwept (pf : Platform) (h₀ : Heap) (c : Census) (bigs : List Nat)
    (h : Heap) : Prop where
  bigBlocks : BigBlocks pf h c (bigs.filter (bigSurvives h₀.mem))
  header : ∀ b ∈ bigs.filter (bigSurvives h₀.mem),
    h.mem (bigHeader b) = unmarkBlock (unpinBlock (h₀.mem (bigHeader b)))
  unmarked : ∀ b ∈ bigs, blockIsMarked (h.mem (bigHeader b)) = false
  frame : ∀ x, (∀ b ∈ bigs, x ≠ b ∧ x ≠ bigHeader b) → h.mem x = h₀.mem x
  heapEq : h = { h₀ with
    mem := h.mem, firstBigBlock := h.firstBigBlock, mappings := h.mappings }
  pages : ∀ p ∈ c.pages, PageMapped pf h₀ p → PageMapped pf h p
  offHeap : ∀ x, OffHeap pf h₀ c bigs x →
    OffHeap pf h c (bigs.filter (bigSurvives h₀.mem)) x ∧ h.mem x = h₀.mem x
  regions : ∀ r ∈ h.mappings, r ∈ h₀.mappings ∨ 0 < r.length

theorem BigSweeping.swept (inv : BigSweeping pf h₀ bigs kept [] s) (big : BigBlocks pf h₀ c bigs) :
    BigSwept pf h₀ c bigs s.heap := by
  rcases inv.visited with ⟨visited, split, filtered⟩
  rw [List.append_nil] at split
  subst split
  have sub : ∀ d ∈ kept, d ∈ bigs := fun d mem => inv.sub d (by simpa using mem)
  have remainder := inv.remainder
  have retained := inv.retained
  have chain := inv.chain
  rw [List.append_nil] at remainder retained chain
  have headerUnmarked : ∀ b ∈ kept, blockIsMarked (s.heap.mem (bigHeader b)) = false := by
    intro b mem
    rw [inv.keptHeader b mem]
    exact (flags_unmark_unpin _).2.1
  have lengthEq : ∀ b ∈ kept, bigLength pf s.heap.mem b = bigLength pf h₀.mem b := by
    intro b mem
    simp only [bigLength, inv.keptHeader b mem, blockSize_unmarkBlock, blockSize_unpinBlock]
  have startEq : ∀ b ∈ kept, ∀ r ∈ s.heap.mappings, r.start = b → r ∈ h₀.mappings := by
    intro b bMem r rMem atStart
    refine (remainder r rMem).resolve_right ?_
    rintro ⟨d, dBig, gone, above, below, positive⟩
    have other : b ≠ d := by
      rintro rfl
      exact gone bMem
    have := big.apart b (sub b bMem) d dBig other
    have := bigLength_ge pf h₀.mem b
    omega
  have survivors : ∀ r ∈ h₀.mappings, (∀ b ∈ bigs, ∃ x, r.Contains x ∧
      (x < b ∨ b + bigLength pf h₀.mem b ≤ x)) → r ∈ s.heap.mappings := by
    intro r rMem outside
    refine retained r rMem fun b bBig _ atStart => ?_
    rcases outside b bBig with ⟨x, contains, away⟩
    have := big.region b bBig r rMem atStart
    simp only [Region.Contains] at contains
    omega
  refine
    { bigBlocks := ?_, header := ?_, unmarked := ?_, frame := inv.frame, heapEq := inv.heapEq,
      pages := ?_, offHeap := ?_, regions := ?_ }
  · rw [← filtered]
    refine
      { chain := chain, nodup := ?_, mapped := ?_, region := ?_, apart := ?_, pages := ?_ }
    · rw [filtered]
      exact big.nodup.filter _
    · intro b mem
      rw [lengthEq b mem]
      refine retained _ (big.mapped b (sub b mem)) fun d _ gone same => ?_
      dsimp only at same
      subst same
      exact gone mem
    · intro b mem r rMem atStart
      rw [lengthEq b mem]
      exact big.region b (sub b mem) r (startEq b mem r rMem atStart) atStart
    · intro b bMem d dMem other
      rw [lengthEq b bMem, lengthEq d dMem]
      exact big.apart b (sub b bMem) d (sub d dMem) other
    · intro b mem p pMem
      rw [lengthEq b mem]
      exact big.pages b (sub b mem) p pMem
  · intro b mem
    exact inv.keptHeader b (filtered ▸ mem)
  · intro b mem
    by_cases isKept : b ∈ kept
    · exact headerUnmarked b isKept
    · rw [inv.otherHeader b mem isKept]
      rw [filtered, List.mem_filter, not_and] at isKept
      have dies := isKept mem
      simp only [bigSurvives, Bool.or_eq_true, not_or, Bool.not_eq_true] at dies
      exact dies.1
  · rintro p pMem ⟨r, rMem, lower, upper⟩
    refine ⟨r, survivors r rMem fun b bBig => ⟨p, ⟨lower, ?_⟩, ?_⟩, lower, upper⟩
    · have := pf.pageSize_ge
      omega
    · have := big.pages b bBig p pMem
      have := pf.pageSize_ge
      have := bigLength_ge pf h₀.mem b
      omega
  · rintro x ⟨⟨⟨r, rMem, contains⟩, awayPages⟩, awayBigs⟩
    refine ⟨⟨⟨⟨r, survivors r rMem fun b bBig => ⟨x, contains, awayBigs b bBig⟩, contains⟩,
      awayPages⟩, ?_⟩, ?_⟩
    · intro b mem
      rw [← filtered] at mem
      rw [lengthEq b mem]
      exact awayBigs b (sub b mem)
    · refine inv.frame x fun b bBig => ?_
      have := awayBigs b bBig
      have := bigLength_ge pf h₀.mem b
      simp only [bigHeader]
      omega
  · intro r mem
    rcases remainder r mem with old | ⟨d, _, _, _, _, positive⟩
    · exact Or.inl old
    · exact Or.inr positive

/-- An iteration drops the block with its mapping, or keeps both. -/
theorem BigSweeping.iterate (inv : BigSweeping pf h₀ bigs kept (b :: todo) s)
    (big : BigBlocks pf h₀ c bigs) :
    ∃ s', sweepBigBlock pf b s = .ok (todo.headD 0, s') ∧
      ((bigSurvives h₀.mem b = false ∧ BigSweeping pf h₀ bigs kept todo s' ∧
          s'.heap.mappings = s.heap.mappings.flatMap
            (Region.unmap pf.pageSize b (8 + blockSize (h₀.mem (bigHeader b))))) ∨
        (bigSurvives h₀.mem b = true ∧ BigSweeping pf h₀ bigs (kept ++ [b]) todo s' ∧
          s'.heap.mappings = s.heap.mappings)) := by
  rcases inv.filtering.iterate pf big.list with ⟨s', eq, ⟨dies, filtering, mappings⟩ |
    ⟨survives, filtering, same⟩⟩
  · exact ⟨s', eq, Or.inl ⟨dies, inv.drop big filtering (by omega) mappings, mappings⟩⟩
  · exact ⟨s', eq, Or.inr ⟨survives, inv.keep filtering same, same⟩⟩

/-- The loop of `sweep_big_blocks` has an invariant for each block still to be visited. -/
theorem BigSweeping.start (big : BigBlocks pf h₀ c bigs) :
    BigSweeping pf h₀ bigs [] bigs ⟨h₀, 0⟩ :=
  { BigFiltering.start big.list with
    retained := fun _ mem _ => mem, remainder := fun _ mem => Or.inl mem }

/-- `sweep_big_blocks` never faults. -/
theorem sweepBigBlocks_spec {fuel : Nat} (big : BigBlocks pf h₀ c bigs)
    (enough : bigs.length < fuel) :
    ∃ h, sweepBigBlocks pf fuel h₀ = .ok h ∧ BigSwept pf h₀ c bigs h := by
  have yields : Yields (fun _ => False) _ (walk (fun b _ => b == 0) (sweepBigBlock pf)
      Fault.outOfFuel fuel h₀.firstBigBlock ⟨h₀, 0⟩) := walk_yields
    (fun todo cursor s => (∃ kept, BigSweeping pf h₀ bigs kept todo s) ∧ cursor = todo.headD 0)
    ?_ ?_ enough ⟨⟨[], BigSweeping.start big⟩, big.chain.head_eq⟩
  · rcases yields.total with ⟨s, eq, cursor, ⟨kept, inv⟩, _⟩
    refine ⟨s.heap, ?_, inv.swept big⟩
    rw [sweepBigBlocks, eq]
    rfl
  · rintro cursor s ⟨_, atEnd⟩
    simpa using atEnd
  · rintro b todo cursor s ⟨⟨kept, inv⟩, atHead⟩
    rw [List.headD_cons] at atHead
    subst atHead
    have nonnull : cursor ≠ 0 := inv.chain.ne_zero (by simp)
    refine ⟨by simpa using nonnull, ?_⟩
    rcases inv.iterate big with ⟨s', eq, ⟨_, inv', _⟩ | ⟨_, inv', _⟩⟩
    · rw [eq]
      exact ⟨⟨_, inv'⟩, rfl⟩
    · rw [eq]
      exact ⟨⟨_, inv'⟩, rfl⟩

end PreciseGc

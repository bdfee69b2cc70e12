import PreciseGc.Allocator.Requests
import PreciseGc.Sweep.Completion
import PreciseGc.Sweep.Fuel

/-!
# A sweep keeps the invariant of the allocator

The words a sweep redirects are slots of surviving objects and stack roots.  None
of them is a link, a page word or a header, so the invariant that the passes
establish for pages and big blocks holds of the heap in which the sweep ends.
-/

namespace PreciseGc

open Foundation Memory

variable {pf : Platform} {threads : ThreadRoots} {h h' : Heap} {c c₂ c' : Census}
  {bigs : List Nat} {s : SweepState} {moved : List (Nat × Nat)} {fuel : Nat}

/-- The big blocks that survive are those of a heap after the last passes whose words in the heads
of these blocks are as before them. -/
theorem Halfway.bigBlocks {m : Memory} (half : Halfway pf h c bigs moved s c₂)
    (ended : Ended pf s c₂ m h' c')
    (words : ∀ big ∈ bigs, bigSurvives h.mem big = true → ∀ x, big ≤ x → x < big + 16 →
      m x = s.heap.mem x) : BigBlocks pf h' c' (bigs.filter (bigSurvives h.mem)) := by
  rcases half.evacuated with ⟨h₁, swept, ev⟩
  have evacuated : BigBlocks pf s.heap c₂ (bigs.filter (bigSurvives h.mem)) := by
    have start : BigBlocks pf { h₁ with maxFreeBlock := 0, lastPage := 0 } c.toSweep
        (bigs.filter (bigSurvives h.mem)) :=
      { swept.bigBlocks with
        pages := fun b mem p pMem => swept.bigBlocks.pages b mem p
          (Census.toSweep_pages half.start.fromNil ▸ pMem) }
    exact start.untouched ev.firstBigBlock ev.mappings ev.outside
  have pages : ∀ q ∈ c'.pages, q ∈ c₂.pages := by
    intro q mem
    rw [ended.census] at mem
    rw [Census.mem_pages, Census.mem_tiled] at mem ⊢
    rcases mem with (held | never | alive) | inFree
    · exact Or.inl (Or.inl held)
    · cases never
    · exact Or.inl (Or.inr (Or.inr alive))
    · rcases (ended.free q).mp inFree with inFrom | inFree
      · exact Or.inl (Or.inr (Or.inl inFrom))
      · exact Or.inr inFree
  have kept : ∀ big ∈ bigs.filter (bigSurvives h.mem), ∀ x, big ≤ x → x < big + 16 →
      h'.mem x = s.heap.mem x := by
    intro big mem x lower upper
    rcases List.mem_filter.mp mem with ⟨bigMem, alive⟩
    have := bigLength_ge pf s.heap.mem big
    have out := evacuated.outside mem lower (by omega)
    rw [ended.frame x fun q qMem => ?_]
    · exact words big bigMem alive x lower upper
    · have := out.2 q (Arena.tiled_pages (Classifying.tiled_of_fromSpace qMem))
      have := pf.pageSize_ge
      omega
  apply evacuated.transport ended.firstBigBlock
  · exact fun big mem => kept big mem big (Nat.le_refl _) (by omega)
  · intro big mem
    refine congrArg blockSize (kept big mem (bigHeader big) ?_ ?_)
    · simp only [bigHeader]
      omega
    · simp only [bigHeader]
      omega
  · rw [ended.mappings]
    exact MoreMapped.refl _
  · exact fun big mem q qMem => evacuated.pages big mem q (pages q qMem)

namespace Midway

/-- The big blocks that survive are those of the heap after the sweep. -/
theorem bigBlocks (mid : Midway pf threads h c bigs moved s c₂)
    (fin : Finished pf threads s c₂ h' c') :
    BigBlocks pf h' c' (bigs.filter (bigSurvives h.mem)) := by
  rcases fin.memory with ⟨m, fixing, frame⟩
  apply mid.toHalfway.bigBlocks { fin with frame := frame }
  intro big mem alive x lower upper
  have := bigLength_ge pf h.mem big
  apply fixing.frame
  exact mid.big_not_redirected mem alive lower (by omega)

/-- The mappings after a sweep are not empty. -/
theorem regions (mid : Midway pf threads h c bigs moved s c₂)
    (fin : Finished pf threads s c₂ h' c') (positive : ∀ r ∈ h.mappings, 0 < r.length) :
    ∀ r ∈ h'.mappings, 0 < r.length := by
  rcases mid.evacuated with ⟨h₁, swept, ev⟩
  rw [fin.mappings]
  apply ev.mappings.regions
  exact fun r mem => (swept.regions r mem).elim (positive r) id

theorem allocatorState (mid : Midway pf threads h c bigs moved s c₂)
    (fin : Finished pf threads s c₂ h' c') (positive : ∀ r ∈ h.mappings, 0 < r.length) :
    AllocatorState pf h' c' (bigs.filter (bigSurvives h.mem)) where
  arena := fin.arena
  heldNil := by
    rcases mid.evacuated with ⟨h₁, swept, ev⟩
    rw [fin.census]
    exact ev.heldNil
  fromNil := by rw [fin.census]
  noBuckets := fin.noBuckets
  big := mid.bigBlocks fin
  regions := mid.regions fin positive

end Midway

/-- A sweep that returns, with whatever fuel, keeps the invariant. -/
theorem AllocatorState.swept (state : AllocatorState pf h c bigs)
    (ready : SweepReady pf threads h c bigs) (eq : sweep pf fuel threads h = .ok h') :
    ∃ c' bigs', AllocatorState pf h' c' bigs' := by
  have more : sweep pf (max fuel (sweepFuel pf c bigs)) threads h = .ok h' :=
    (sweep_extends (Nat.le_max_left _ _) threads h).approximates h' eq
  rcases (sweep_yields ready (Nat.le_max_right _ _)).of_ok more with
    ⟨moved, s, c₂, c', mid, fin⟩
  exact ⟨c', _, mid.allocatorState fin state.regions⟩

end PreciseGc

import PreciseGc.Allocator.Blocks
import PreciseGc.Roots.Accesses

/-!
# The restarts of `mark_after_overflow`

`mark_after_overflow` walks over the big blocks and over the blocks of the pages
and restarts the traversal at each marked block.  Up to the first marked block
it leaves the heap alone, so that whatever a restart there does is a part of
every record of the walk.
-/

namespace PreciseGc

open Foundation

variable {pf : Platform} {h : Heap} {c : Census} {bigs : List Nat} {b fuel : Nat}

/-- A block that is not marked is passed over. -/
theorem restart_skips {data : Nat} {s : Bool × Heap}
    (unmarked : ¬blockIsMarked (s.2.mem b) = true) :
    restart id (fun _ => go fuel) b data s = .ok s := by
  unfold restart
  rw [if_neg]
  exact unmarked

section Record

variable {τ : Type} (fuel : Nat) (call : (header data : Nat) → Heap → List τ)

/-- The record of the body of the loop over the big blocks, where `call` is that of a restart. -/
def rescanBigRecord (b : Nat) (s : Bool × Heap) : List τ := call (bigHeader b) (bigData b) s.2

/-- The record of the body of the loop over the blocks of a page. -/
def rescanBlockRecord (b : Nat) (s : Bool × Heap) : List τ := call b (blockData b) s.2

/-- The record of the body of the loop over the pages. -/
def rescanPageRecord (p : Nat) (s : Bool × Heap) : List τ :=
  walkRecord (fun b s => b == freeBlock s.2.mem p) (rescanBlock fuel) (rescanBlockRecord call)
    fuel (firstBlock p) s

/-- The record of `mark_after_overflow()`. -/
def markAfterOverflowRecord (h : Heap) : List τ :=
  walkRecord (fun b _ => b == 0) (rescanBig fuel) (rescanBigRecord call) fuel h.firstBigBlock
      (false, h) ++
    after (walk (fun b _ => b == 0) (rescanBig fuel) Fault.outOfFuel fuel
      h.firstBigBlock (false, h))
      fun s =>
        walkRecord (fun p _ => p == 0) (rescanPage fuel) (rescanPageRecord fuel call) fuel
          s.2.firstPage s

end Record

theorem markAfterOverflowAccesses_eq (fuel : Nat) (h : Heap) :
    markAfterOverflowAccesses fuel h = markAfterOverflowRecord fuel (restartAccesses fuel) h := rfl

/-- The lists that `mark_after_overflow` walks along are those of a census, and the fuel suffices
for each. -/
structure Rescannable (h : Heap) (c : Census) (bigs : List Nat) (fuel : Nat) : Prop where
  bigChain : Chain (bigNext h.mem) h.firstBigBlock bigs
  pageChain : Chain (pageNext h.mem) h.firstPage c.alive
  tiles : ∀ q ∈ c.alive, Tiles (blockExtent h.mem) (firstBlock q) (freeBlock h.mem q) (c.blocks q)
  fewBigs : bigs.length < fuel
  fewPages : c.alive.length < fuel
  fewBlocks : ∀ q ∈ c.alive, (c.blocks q).length < fuel

/-- The fuel of a sweep suffices. -/
theorem AllocatorOk.rescannable (ok : AllocatorOk pf h c bigs)
    (enough : sweepFuel pf c bigs ≤ fuel) : Rescannable h c bigs fuel := by
  have pages : c.alive.length * 1 ≤ c.alive.length * (pf.pageSize + 2) :=
    Nat.mul_le_mul_left _ (by omega)
  unfold sweepFuel at enough
  rw [Nat.succ_mul] at enough
  refine
    { bigChain := ok.big.chain, pageChain := ok.arena.aliveChain, tiles := ?_, fewBigs := by omega,
      fewPages := by omega, fewBlocks := ?_ }
  · intro q mem
    exact (ok.arena.pageOk q (Classifying.tiled_of_alive mem)).tiles
  · intro q mem
    have few := blocks_length_lt ok.arena (Classifying.tiled_of_alive mem)
    omega

section Searching

variable {τ : Type} {call : (header data : Nat) → Heap → List τ} {good : τ → Prop}
  (bad : ∀ b, c.Used bigs b → blockIsMarked (h.mem b) = true →
    ∃ entry ∈ call b (blockData b) h, ¬good entry)

include bad

/-- The loop over the blocks of a page stops at the first marked block. -/
theorem rescanBlocks_searching (q : Nat) :
    Searching (fun b s => b == freeBlock s.2.mem q) (rescanBlock fuel) (rescanBlockRecord call)
      good (fun b => blockIsMarked (h.mem b) = true) (false, h)
      (fun blocks cursor => (∀ b ∈ blocks, c.Used bigs b) ∧
        Tiles (blockExtent h.mem) cursor (freeBlock h.mem q) blocks) where
  finished cursor place := by
    have atEnd : cursor = freeBlock h.mem q := place.2
    simp [atEnd]
  running b blocks cursor place := by
    rcases place.2 with ⟨rfl, positive, later⟩
    have := later.le
    simp only [beq_eq_false_iff_ne, ne_eq]
    omega
  finds b blocks cursor place marked := by
    rcases place.2 with ⟨rfl, _, _⟩
    exact bad cursor (place.1 cursor (by simp)) marked
  passes b blocks cursor place unmarked := by
    rcases place.2 with ⟨rfl, _, later⟩
    refine ⟨nextBlock h.mem cursor, ?_, fun b mem => place.1 b (by simp [mem]), ?_⟩
    · unfold rescanBlock
      rw [restart_skips unmarked]
      rfl
    · rw [nextBlock_eq]
      exact later

/-- The loop over the big blocks stops at the first marked one. -/
theorem rescanBigs_searching :
    Searching (fun b _ => b == 0) (rescanBig fuel) (rescanBigRecord call) good
      (fun big => blockIsMarked (h.mem (bigHeader big)) = true) (false, h)
      (fun rest cursor => (∀ big ∈ rest, big ∈ bigs) ∧ Chain (bigNext h.mem) cursor rest) where
  finished cursor place := by
    have atEnd : cursor = 0 := place.2
    simp [atEnd]
  running big rest cursor place := by
    rcases place.2 with ⟨rfl, nonnull, _⟩
    simpa using nonnull
  finds big rest cursor place marked := by
    rcases place.2 with ⟨rfl, _, _⟩
    exact bad (bigHeader cursor) (Or.inr ⟨cursor, place.1 cursor (by simp), rfl⟩) marked
  passes big rest cursor place unmarked := by
    rcases place.2 with ⟨rfl, _, later⟩
    refine ⟨bigNext h.mem cursor, ?_, fun big mem => place.1 big (by simp [mem]), later⟩
    unfold rescanBig
    rw [restart_skips unmarked]
    rfl

end Searching

namespace Rescannable

theorem blocks_place (walks : Rescannable h c bigs fuel) {q : Nat} (mem : q ∈ c.alive) :
    (∀ b ∈ c.blocks q, c.Used bigs b) ∧
      Tiles (blockExtent h.mem) (firstBlock q) (freeBlock h.mem q) (c.blocks q) :=
  ⟨fun _ inPage => Or.inl ⟨q, mem, inPage⟩, walks.tiles q mem⟩

section

variable (walks : Rescannable h c bigs fuel) {τ : Type} {call : (header data : Nat) → Heap → List τ}
  {good : τ → Prop}
  (bad : ∀ b, c.Used bigs b → blockIsMarked (h.mem b) = true →
    ∃ entry ∈ call b (blockData b) h, ¬good entry)

include walks bad

/-- The loop over the pages stops at the first page with a marked block. -/
theorem pages_searching :
    Searching (fun p _ => p == 0) (rescanPage fuel) (rescanPageRecord fuel call) good
      (fun q => ∃ b ∈ c.blocks q, blockIsMarked (h.mem b) = true) (false, h)
      (fun pages cursor => (∀ q ∈ pages, q ∈ c.alive) ∧ Chain (pageNext h.mem) cursor pages) where
  finished cursor place := by
    have atEnd : cursor = 0 := place.2
    simp [atEnd]
  running q pages cursor place := by
    rcases place.2 with ⟨rfl, nonnull, _⟩
    simpa using nonnull
  finds q pages cursor place marked := by
    rcases place.2 with ⟨rfl, _, _⟩
    have mem := place.1 cursor (by simp)
    exact (rescanBlocks_searching bad cursor).walkRecord_finds (walks.fewBlocks cursor mem)
      (walks.blocks_place mem) marked
  passes q pages cursor place unmarked := by
    rcases place.2 with ⟨rfl, _, later⟩
    have mem := place.1 cursor (by simp)
    have passed : walk (fun b s => b == freeBlock s.2.mem cursor) (rescanBlock fuel) Fault.outOfFuel
        fuel (firstBlock cursor) (false, h) = .ok (false, h) := by
      apply (rescanBlocks_searching bad cursor).walk_passes (walks.fewBlocks cursor mem)
        (walks.blocks_place mem)
      exact fun b inPage marked => unmarked ⟨b, inPage, marked⟩
    refine ⟨pageNext h.mem cursor, ?_, fun q mem => place.1 q (by simp [mem]), later⟩
    unfold rescanPage
    rw [passed]
    rfl

theorem bigs_pass (unmarked : ∀ big ∈ bigs, ¬blockIsMarked (h.mem (bigHeader big)) = true) :
    walk (fun b _ => b == 0) (rescanBig fuel) Fault.outOfFuel fuel h.firstBigBlock (false, h) =
      .ok (false, h) := by
  apply (rescanBigs_searching bad).walk_passes walks.fewBigs ⟨fun _ mem => mem, walks.bigChain⟩
  exact unmarked

/-- When a block in use is marked, what the restart there does is recorded. -/
theorem record_bad (marked : ∃ b, c.Used bigs b ∧ blockIsMarked (h.mem b) = true) :
    ∃ entry ∈ markAfterOverflowRecord fuel call h, ¬good entry := by
  by_cases bigMarked : ∃ big ∈ bigs, blockIsMarked (h.mem (bigHeader big)) = true
  · rcases (rescanBigs_searching bad).walkRecord_finds walks.fewBigs
      ⟨fun _ mem => mem, walks.bigChain⟩ bigMarked with ⟨entry, mem, spoilt⟩
    exact ⟨entry, List.mem_append_left _ mem, spoilt⟩
  · have pageMarked : ∃ q ∈ c.alive, ∃ b ∈ c.blocks q, blockIsMarked (h.mem b) = true := by
      rcases marked with ⟨b, ⟨q, mem, inPage⟩ | ⟨big, mem, rfl⟩, isMarked⟩
      · exact ⟨q, mem, b, inPage, isMarked⟩
      · exact absurd ⟨big, mem, isMarked⟩ bigMarked
    rcases (walks.pages_searching bad).walkRecord_finds walks.fewPages
      ⟨fun _ mem => mem, walks.pageChain⟩ pageMarked with ⟨entry, mem, spoilt⟩
    refine ⟨entry, List.mem_append_right _ ?_, spoilt⟩
    rw [walks.bigs_pass bad fun big mem isMarked => bigMarked ⟨big, mem, isMarked⟩]
    exact mem

/-- When no block in use is marked, the loop over the pages passes all of them. -/
theorem pages_pass (unmarked : ∀ b, c.Used bigs b → ¬blockIsMarked (h.mem b) = true) :
    walk (fun p _ => p == 0) (rescanPage fuel) Fault.outOfFuel fuel h.firstPage (false, h) =
      .ok (false, h) := by
  apply (walks.pages_searching bad).walk_passes walks.fewPages ⟨fun _ mem => mem, walks.pageChain⟩
  rintro q mem ⟨b, inPage, marked⟩
  exact unmarked b (Or.inl ⟨q, mem, inPage⟩) marked

end

variable (walks : Rescannable h c bigs fuel)
  (unmarked : ∀ b, c.Used bigs b → ¬blockIsMarked (h.mem b) = true)

include walks unmarked

omit walks in
theorem bigs_unmarked (big : Nat) (mem : big ∈ bigs) :
    ¬blockIsMarked (h.mem (bigHeader big)) = true :=
  unmarked (bigHeader big) (Or.inr ⟨big, mem, rfl⟩)

/-- When no block in use is marked, `mark_after_overflow` does nothing. -/
theorem idle : markAfterOverflow id (fun _ => go fuel) fuel h = .ok (false, h) := by
  have bad : ∀ b, c.Used bigs b → blockIsMarked (h.mem b) = true →
      ∃ entry ∈ restartAccesses fuel b (blockData b) h, ¬entry.OnHeader (InUse h) :=
    fun b used marked => absurd marked (unmarked b used)
  rw [markAfterOverflow_eq, walks.bigs_pass bad (bigs_unmarked unmarked)]
  exact walks.pages_pass bad unmarked

/-- Then a record of it is empty, if nothing is recorded of the blocks that are not marked. -/
theorem record_idle {τ : Type} {call : (header data : Nat) → Heap → List τ}
    (silent : ∀ b data, ¬blockIsMarked (h.mem b) = true → call b data h = []) :
    markAfterOverflowRecord fuel call h = [] := by
  have bad : ∀ b, c.Used bigs b → blockIsMarked (h.mem b) = true →
      ∃ entry ∈ call b (blockData b) h, ¬False :=
    fun b used marked => absurd marked (unmarked b used)
  have bigsSilent : walkRecord (fun b _ => b == 0) (rescanBig fuel) (rescanBigRecord call) fuel
      h.firstBigBlock (false, h) = [] := by
    apply (rescanBigs_searching bad).walkRecord_passes _ ⟨fun _ mem => mem, walks.bigChain⟩
      (bigs_unmarked unmarked)
    intro big rest cursor place dull
    rcases place.2 with ⟨rfl, _, _⟩
    exact silent _ _ dull
  have pagesSilent : walkRecord (fun p _ => p == 0) (rescanPage fuel) (rescanPageRecord fuel call)
      fuel h.firstPage (false, h) = [] := by
    apply (walks.pages_searching bad).walkRecord_passes _ ⟨fun _ mem => mem, walks.pageChain⟩
    · rintro q mem ⟨b, inPage, marked⟩
      exact unmarked b (Or.inl ⟨q, mem, inPage⟩) marked
    · intro q rest cursor place dull
      rcases place.2 with ⟨rfl, _, _⟩
      have mem := place.1 cursor (by simp)
      apply (rescanBlocks_searching bad cursor).walkRecord_passes _ (walks.blocks_place mem)
      · exact fun b inPage marked => dull ⟨b, inPage, marked⟩
      · intro b blocks inner there dullBlock
        rcases there.2 with ⟨rfl, _, _⟩
        exact silent _ _ dullBlock
  unfold markAfterOverflowRecord
  rw [bigsSilent, walks.bigs_pass bad (bigs_unmarked unmarked)]
  exact pagesSilent

end Rescannable

end PreciseGc

import PreciseGc.Sweep.Collection

/-!
# The end of a sweep

After the evacuation the sweep redirects the slots and the roots, recycles the
pages of from-space and clears the buckets.  `Finished` relates the heap it
returns to the heap `Midway` describes, and `sweep_yields` puts all passes
together.
-/

namespace PreciseGc

open Foundation Memory

variable {pf : Platform} {threads : ThreadRoots} {h h' : Heap} {c c₂ c' : Census}
  {bigs : List Nat} {b q x : Nat} {s : SweepState} {moved : List (Nat × Nat)} {fuel : Nat}

/-- The heap `h'` in which a sweep ends, against the heap after the evacuation. -/
structure Finished (pf : Platform) (threads : ThreadRoots) (s : SweepState) (c₂ : Census)
    (h' : Heap) (c' : Census) : Prop where
  arena : Arena pf 0 h'.firstPage h' c'
  census : c' = { c₂ with fromSpace := [], free := c'.free }
  free : ∀ q, q ∈ c'.free ↔ q ∈ c₂.fromSpace ∨ q ∈ c₂.free
  noBuckets : ∀ k, h'.freeBlocks k = 0
  maxZero : h'.maxFreeBlock = 0
  mappings : h'.mappings = s.heap.mappings
  firstBigBlock : h'.firstBigBlock = s.heap.firstBigBlock
  memory : ∃ m, Fixing s.heap.mem (redirectedSlots threads s.heap.mem c₂) [] m ∧
    ∀ x, (∀ q ∈ c₂.fromSpace, x ≠ q) → h'.mem x = m x

theorem blocks_length_lt {fromHead aliveHead : Nat} (arena : Arena pf fromHead aliveHead h c)
    (tiled : q ∈ c.tiled) : (c.blocks q).length < pf.pageSize := by
  have ok := arena.pageOk q tiled
  have count := ok.tiles.length_le
  have := ok.inside
  simp only [firstBlock, sizeofPage] at count
  omega

/-- Fuel for a sweep: enough for every list of pages, of blocks of a page, and of elements. -/
def sweepFuel (pf : Platform) (c : Census) (bigs : List Nat) : Nat :=
  bigs.length + (c.alive.length + 1) * (pf.pageSize + 2) + 1

/-- The number of pages in use after the evacuation. -/
theorem Halfway.alive_length_lt (half : Halfway pf h c bigs moved s c₂) :
    c₂.alive.length < sweepFuel pf c bigs := by
  rcases half.evacuated with ⟨h₁, swept, ev⟩
  have bound : c₂.alive.length ≤ c.alive.length + moved.length + 1 := ev.aliveLength
  have sub : ∀ b ∈ moved.map Prod.fst, b ∈ c.alive.flatMap c.blocks := by
    intro b mem
    rcases ev.source_of_mem mem with ⟨q, qMem, _, bMem⟩
    exact List.mem_flatMap.mpr ⟨q, qMem, bMem⟩
  have fewer := (List.subperm_of_subset ev.sourcesNodup sub).length_le
  rw [List.length_map] at fewer
  have total : ∀ pages : List Nat, (∀ q ∈ pages, q ∈ c.alive) →
      (pages.flatMap c.blocks).length ≤ pages.length * pf.pageSize := by
    intro pages
    induction pages with
    | nil => simp
    | cons q pages ih =>
        intro inAlive
        have := ih fun r mem => inAlive r (by simp [mem])
        have := blocks_length_lt half.start.arena (Classifying.tiled_of_alive (inAlive q (by simp)))
        simp only [List.flatMap_cons, List.length_append, List.length_cons, Nat.succ_mul]
        omega
  have := total c.alive fun _ mem => mem
  simp only [sweepFuel, Nat.add_mul, Nat.mul_add]
  omega

theorem pageSize_lt_of_sweepFuel (enough : sweepFuel pf c bigs ≤ fuel) : pf.pageSize < fuel := by
  have : 1 * (pf.pageSize + 2) ≤ (c.alive.length + 1) * (pf.pageSize + 2) :=
    Nat.mul_le_mul_right _ (by omega)
  simp only [sweepFuel] at enough
  omega

/-- The heap `h'` after the last passes, which start with the memory `m`: the pages of from-space
are recycled and the buckets are cleared. -/
structure Ended (pf : Platform) (s : SweepState) (c₂ : Census) (m : Memory) (h' : Heap)
    (c' : Census) : Prop where
  arena : Arena pf 0 h'.firstPage h' c'
  census : c' = { c₂ with fromSpace := [], free := c'.free }
  free : ∀ q, q ∈ c'.free ↔ q ∈ c₂.fromSpace ∨ q ∈ c₂.free
  noBuckets : ∀ k, h'.freeBlocks k = 0
  maxZero : h'.maxFreeBlock = 0
  mappings : h'.mappings = s.heap.mappings
  firstBigBlock : h'.firstBigBlock = s.heap.firstBigBlock
  frame : ∀ x, (∀ q ∈ c₂.fromSpace, x ≠ q) → h'.mem x = m x

/-- The last passes never fault when pointers have been redirected within an arena. -/
theorem Halfway.recycle (half : Halfway pf h c bigs moved s c₂)
    (enough : sweepFuel pf c bigs ≤ fuel)
    {h₄ : Heap} (arena₄ : Arena pf h₄.firstPage s.alivePages h₄ c₂)
    (h₄Eq : h₄ = { s.heap with mem := h₄.mem, metaReads := h₄.metaReads }) :
    ∃ h₅ h', recyclePages fuel h₄ = .ok h₅ ∧
      clearFreeBlocks (h₅.maxFreeBlock + 1) 8 { h₅ with firstPage := s.alivePages } = .ok h' ∧
        ∃ c', Ended pf s c₂ h₄.mem { h' with maxFreeBlock := 0 } c' := by
  rcases half.evacuated with ⟨h₁, swept, ev⟩
  -- the pages
  have fromLength : c₂.fromSpace.length < fuel := by
    have unique := ev.arena.distinct
    simp only [Census.pages] at unique
    have fromUnique := (List.nodup_append'.mp (List.nodup_append'.mp
      (List.nodup_append'.mp unique).1).1).2.1
    have fewer := (List.subperm_of_subset fromUnique (show c₂.fromSpace ⊆ c.alive from
      fun q mem => ((ev.mem_fromSpace q).mp mem).1)).length_le
    have : c.alive.length * 1 ≤ (c.alive.length + 1) * (pf.pageSize + 2) :=
      Nat.mul_le_mul (by omega) (by omega)
    simp only [sweepFuel] at enough
    omega
  rcases recyclePages_spec arena₄ fromLength with ⟨h₅, c', recycled, done⟩
  have h₅Eq := done.heapEq
  -- the buckets
  have keys : BucketKeys { h₅ with firstPage := s.alivePages } := by
    rw [h₅Eq, h₄Eq]
    exact ev.keys
  have maxSmall : h₅.maxFreeBlock < freeBlocksLength := by
    have maxEq : h₅.maxFreeBlock = s.heap.maxFreeBlock := by rw [h₅Eq, h₄Eq]
    have := ev.maxBound
    have := half.start.small
    omega
  rcases clearFreeBlocks_all keys maxSmall with ⟨h', cleared, heapEq, allNull⟩
  refine ⟨h₅, h', recycled, cleared, c', ?_⟩
  have memEq : h'.mem = h₅.mem := by rw [heapEq]
  refine
    { arena := ?_, census := done.census, free := done.free, noBuckets := allNull, maxZero := rfl,
      mappings := ?_, firstBigBlock := ?_, frame := ?_ }
  · have kept : Arena pf 0 _ { h' with maxFreeBlock := 0 } c' := done.arena.transport
      (by rw [heapEq]; exact ⟨rfl, rfl, rfl, rfl, rfl, rfl, rfl⟩) (fun q _ => by rw [memEq])
      (fun q mem => by rw [memEq]; exact done.arena.pageOk q mem)
    have firstPage : h'.firstPage = s.alivePages := by rw [heapEq]
    have atHead : ∀ head, head = s.alivePages →
        Arena pf 0 head { h' with maxFreeBlock := 0 } c' := by
      rintro _ rfl
      exact kept
    exact atHead _ firstPage
  · rw [heapEq, h₅Eq, h₄Eq]
  · rw [heapEq, h₅Eq, h₄Eq]
  · intro x away
    rw [memEq]
    exact done.frame x away

namespace Midway

/-- The pass over the slots meets the requirements of the rule for it. -/
theorem fixPlan (mid : Midway pf threads h c bigs moved s c₂) :
    FixPlan (fun _ => False) s.heap.mem c₂.alive c₂.blocks (fun _ => true)
      (fun rest m' => Fixing s.heap.mem (redirectedSlots threads s.heap.mem c₂)
        (rest ++ threads.flatten) m') := by
  have large := pf.pageSize_ge
  have frame : ∀ rest m', Fixing s.heap.mem (redirectedSlots threads s.heap.mem c₂)
      (rest ++ threads.flatten) m' → ∀ p ∈ c₂.pages, ∀ x, p ≤ x → x < p + pf.pageSize →
        NotData pf s.heap.mem c₂ x → m' x = s.heap.mem x := fun rest m' fixing p mem x lower upper
    notData => fixing.frame x (mid.notData_not_redirected mem lower upper notData)
  have header : ∀ rest m', Fixing s.heap.mem (redirectedSlots threads s.heap.mem c₂)
      (rest ++ threads.flatten) m' → ∀ q ∈ c₂.alive, ∀ d ∈ c₂.blocks q,
        m' d = s.heap.mem d := fun rest m' fixing q qMem d dMem =>
    fixing.frame d (mid.header_not_redirected (Classifying.tiled_of_alive qMem) dMem)
  refine
    { step := ?_, links := ?_, free := ?_, sizes := ?_, dead := ?_, unflagged := ?_, shape := ?_,
      object := ?_, exhausted := ?_ }
  · intro p rest m' fixing
    exact fixing.step mid.fixable
  · intro rest m' fixing q qMem
    have inPages := Arena.tiled_pages (Classifying.tiled_of_alive qMem)
    exact frame rest m' fixing q inPages q (Nat.le_refl _) (by omega)
      (mid.arena.link_notData inPages)
  · intro rest m' fixing q qMem
    have inTiled := Classifying.tiled_of_alive qMem
    exact frame rest m' fixing q (Arena.tiled_pages inTiled) _ (by omega) (by omega)
      (mid.arena.free_notData inTiled)
  · intro rest m' fixing q qMem d dMem
    rw [header rest m' fixing q qMem d dMem]
  · intro rest m' fixing q qMem d dMem
    rw [header rest m' fixing q qMem d dMem]
  · intro rest m' fixing q qMem d dMem
    rw [header rest m' fixing q qMem d dMem]
    rcases mid.origin qMem dMem with ⟨q₀, q₀Mem, b, bMem, image, _⟩
    exact Or.inl ⟨image.unpinned, image.unmarked⟩
  · intro rest m' fixing q qMem d dMem notDead _
    rcases mid.origin qMem dMem with ⟨q₀, q₀Mem, b, bMem, image, alive⟩
    rcases alive notDead with ⟨isAlive, rfl⟩
    have object := mid.gcObject q₀Mem bMem isAlive
    have inTiled := Classifying.tiled_of_alive qMem
    have bounds := (mid.arena.pageOk q inTiled).block_bounds dMem
    have room := object.room
    refine SameShape.of_agree (fun o less => ?_) fun x lower upper => ?_
    · refine fixing.frame _
        (mid.not_redirected (Arena.tiled_pages inTiled) (by omega) (by omega) ?_)
      intro r rMem e eMem
      by_cases same : relocate moved b = e
      · subst same
        omega
      · have := mid.arena.blocks_disjoint inTiled dMem (Classifying.tiled_of_alive rMem) eMem same
        omega
    · have apart := object.shellApart x lower upper
      exact fixing.frame x (mid.outside_not_redirected (mid.outside apart.1).1 apart.2)
  · intro q qMem d dMem notDead _
    rcases mid.origin qMem dMem with ⟨q₀, q₀Mem, b, bMem, image, alive⟩
    rcases alive notDead with ⟨isAlive, rfl⟩
    have inTiled := Classifying.tiled_of_alive qMem
    have bounds := (mid.arena.pageOk q inTiled).block_bounds dMem
    have bounded := mid.arena.bounded q (Arena.tiled_pages inTiled)
    exact ⟨(mid.gcObject q₀Mem bMem isAlive).mono fun _ _ => trivial, by omega⟩
  · rintro ⟨_, _, _, _, _, never⟩
    cases never

/-- The rest of the sweep never faults. -/
theorem finish (mid : Midway pf threads h c bigs moved s c₂) (enough : sweepFuel pf c bigs ≤ fuel) :
    ∃ h₃ h₅ h', fixPages pf fuel s.alivePages s.heap = .ok h₃ ∧
      recyclePages fuel (fixRoots threads h₃) = .ok h₅ ∧
      clearFreeBlocks (h₅.maxFreeBlock + 1) 8 { h₅ with firstPage := s.alivePages } = .ok h' ∧
        ∃ c', Finished pf threads s c₂ { h' with maxFreeBlock := 0 } c' := by
  have alive := mid.alive_length_lt
  have large := pf.pageSize_ge
  have pageFuel := pageSize_lt_of_sweepFuel enough
  have arena := mid.arena
  -- the slots
  have yields : Yields _ _ (fixPages pf fuel s.alivePages s.heap) := mid.fixPlan.fixPages_yields
    arena.aliveChain
    (fun q mem => (arena.pageOk q (Classifying.tiled_of_alive mem)).tiles) (by omega)
    (fun q mem => Nat.lt_trans (blocks_length_lt arena (Classifying.tiled_of_alive mem)) pageFuel)
    (fun q mem d dMem => by
      have := (arena.pageOk q (Classifying.tiled_of_alive mem)).block_bounds dMem
      omega)
    (FixState.initial (by rw [List.append_nil]; exact Fixing.start))
  obtain ⟨h₃, fixed, state⟩ : ∃ h₃, fixPages pf fuel s.alivePages s.heap = .ok h₃ ∧
      FixState s.heap (fun rest m' => Fixing s.heap.mem
        (redirectedSlots threads s.heap.mem c₂) (rest ++ threads.flatten) m') [] h₃ := by
    rcases yields.total with ⟨h₃, eq, ⟨state, _⟩ | ⟨_, _, _, _, _, never, _⟩⟩
    · exact ⟨h₃, eq, state⟩
    · cases never
  have h₃Eq := state.heapEq
  -- the roots
  have fixing : Fixing s.heap.mem (redirectedSlots threads s.heap.mem c₂) []
      (fixRoots threads h₃).mem :=
    Fixing.roots (by rw [List.append_nil]; exact state.holds) mid.fixable
  have h₄Eq : fixRoots threads h₃ = { s.heap with
      mem := (fixRoots threads h₃).mem, metaReads := (fixRoots threads h₃).metaReads } := by
    simp only [fixRoots]
    rw [h₃Eq]
  generalize h₄Def : fixRoots threads h₃ = h₄ at fixing h₄Eq
  have arena₄ : Arena pf h₄.firstPage s.alivePages h₄ c₂ := by
    have changed : Arena pf _ _ h₄ c₂ := arena.change_words
      (by rw [h₄Eq]; exact ⟨rfl, rfl, rfl, rfl, rfl, rfl, rfl⟩)
      (fun q mem x lower upper notData =>
        fixing.frame x (mid.notData_not_redirected mem lower upper notData))
    have firstPage : h₄.firstPage = s.heap.firstPage := by rw [h₄Eq]
    rwa [firstPage]
  -- the pages and the buckets
  rcases mid.recycle enough arena₄ h₄Eq with ⟨h₅, h', recycled, cleared, c', ended⟩
  exact ⟨h₃, h₅, h', fixed, by rw [h₄Def]; exact recycled, cleared, c',
    { ended with memory := ⟨h₄.mem, fixing, ended.frame⟩ }⟩

end Midway

/-- The passes of a sweep up to the redirecting of pointers. -/
def sweepHalf (pf : Platform) (fuel : Nat) (h : Heap) : Except Fault SweepState :=
  sweepBigBlocks pf fuel h >>= fun h => evacuate pf fuel { h with maxFreeBlock := 0, lastPage := 0 }

/-- The passes of a sweep from the redirecting of pointers on. -/
theorem sweep_eq (h : Heap) : sweep pf fuel threads h = (sweepHalf pf fuel h >>= fun s =>
    fixPages pf fuel s.alivePages s.heap >>= fun h =>
      recyclePages fuel (fixRoots threads h) >>= fun h =>
        clearFreeBlocks (h.maxFreeBlock + 1) 8 { h with firstPage := s.alivePages } >>= fun h =>
          .ok { h with maxFreeBlock := 0 }) := by
  unfold sweep sweepHalf sweepPages evacuate
  cases sweepBigBlocks pf fuel h with
  | error fault => rfl
  | ok h₁ =>
      change (classifyPages pf fuel { h₁ with maxFreeBlock := 0, lastPage := 0 } >>= _) =
        ((classifyPages pf fuel { h₁ with maxFreeBlock := 0, lastPage := 0 } >>= _) >>= _)
      cases classifyPages pf fuel { h₁ with maxFreeBlock := 0, lastPage := 0 } <;> rfl

/-- The first passes succeed when no mapping is refused. -/
theorem sweepHalf_yields (start : SweepStart pf h c bigs) (enough : sweepFuel pf c bigs ≤ fuel) :
    Yields (· = Fault.mapFailed) (fun s => ∃ moved c₂, Halfway pf h c bigs moved s c₂)
      (sweepHalf pf fuel h) := by
  have bigFuel : bigs.length < fuel := by
    simp only [sweepFuel] at enough
    omega
  have pages : c.alive.length < fuel := by
    simp only [sweepFuel, Nat.add_mul, Nat.mul_add] at enough
    omega
  rcases sweepBigBlocks_spec start.big bigFuel with ⟨h₁, eq, swept⟩
  unfold sweepHalf
  rw [eq]
  refine (evacuate_yields (swept.sweepable start)
    (fun q inFrom unpinned => Halfway.deadUnmarked swept start q inFrom unpinned) pages ?_).mono ?_
  · intro q qMem
    have := blocks_length_lt start.arena (Classifying.tiled_of_alive (c := c) qMem)
    exact Nat.lt_trans this (pageSize_lt_of_sweepFuel enough)
  · rintro s ⟨moved, c₂, ev⟩
    exact ⟨moved, c₂, start, h₁, swept, ev⟩

/-- With enough fuel, a sweep succeeds when no mapping is refused. -/
theorem sweep_yields (ready : SweepReady pf threads h c bigs)
    (enough : sweepFuel pf c bigs ≤ fuel) :
    Yields (· = Fault.mapFailed)
      (fun h' => ∃ moved s c₂ c', Midway pf threads h c bigs moved s c₂ ∧
        Finished pf threads s c₂ h' c')
      (sweep pf fuel threads h) := by
  rw [sweep_eq]
  refine (sweepHalf_yields ready.toSweepStart enough).bind ?_
  rintro s ⟨moved, c₂, half⟩
  have mid : Midway pf threads h c bigs moved s c₂ := ⟨half, ready⟩
  rcases mid.finish enough with ⟨h₃, h₅, h', fixed, recycled, cleared, c', finished⟩
  rw [fixed]
  change Yields _ _ (recyclePages fuel (fixRoots threads h₃) >>= _)
  rw [recycled]
  change Yields _ _ (clearFreeBlocks (h₅.maxFreeBlock + 1) 8
    { h₅ with firstPage := s.alivePages } >>= _)
  rw [cleared]
  exact ⟨moved, s, c₂, c', mid, finished⟩

end PreciseGc

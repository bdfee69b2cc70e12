import PreciseGc.Sweep.Completion

/-!
# Relocation

A sweep moves the objects of pages without a pinned block and redirects every
pointer to them that lies in a small object or in a stack root.  `Relocates`
says so for a map from the marked blocks to their places after the sweep.
-/

namespace PreciseGc

open Foundation Memory

variable {pf : Platform} {threads : ThreadRoots} {h h' : Heap} {c c₂ c' : Census}
  {bigs : List Nat} {b q x d : Nat} {s : SweepState} {moved : List (Nat × Nat)} {fuel : Nat}

namespace Finished

/-- Words that are neither redirected nor links of recycled pages are those of the evacuation. -/
theorem frame (fin : Finished pf threads s c₂ h' c')
    (notSlot : x ∉ redirectedSlots threads s.heap.mem c₂) (notLink : ∀ q ∈ c₂.fromSpace, x ≠ q) :
    h'.mem x = s.heap.mem x := by
  rcases fin.memory with ⟨m, fixing, same⟩
  rw [same x notLink, fixing.frame x notSlot]

/-- A settled word that is redirected once is redirected in the end. -/
theorem redirected (fin : Finished pf threads s c₂ h' c')
    (mem : x ∈ redirectedSlots threads s.heap.mem c₂) (notLink : ∀ q ∈ c₂.fromSpace, x ≠ q)
    (settled : Settled s.heap.mem (redirectedSlots threads s.heap.mem c₂) (s.heap.mem x)) :
    h'.mem x = redirect s.heap.mem (s.heap.mem x) := by
  rcases fin.memory with ⟨m, fixing, same⟩
  rw [same x notLink, fixing.finished mem settled]

end Finished

namespace Midway

/-- No byte inside a page in use is the link of a recycled page. -/
theorem alive_notLink (mid : Midway pf threads h c bigs moved s c₂) (qMem : q ∈ c₂.alive)
    (lower : q ≤ x) (upper : x < q + pf.pageSize) : ∀ p ∈ c₂.fromSpace, x ≠ p := by
  rintro p pMem rfl
  have other : x ≠ q := by
    rintro rfl
    exact mid.arena.not_mem_alive_of_fromSpace pMem qMem
  have := mid.arena.apart (Arena.tiled_pages (Classifying.tiled_of_fromSpace pMem))
    (Arena.tiled_pages (Classifying.tiled_of_alive qMem)) other
  omega

theorem outside_notLink (out : Outside pf s.heap c₂ x) : ∀ p ∈ c₂.fromSpace, x ≠ p := by
  rintro p pMem rfl
  have := out.2 x (Arena.tiled_pages (Classifying.tiled_of_fromSpace pMem))
  have := pf.pageSize_ge
  omega

/-- The words of the image of a surviving block that are not redirected. -/
theorem image_word (mid : Midway pf threads h c bigs moved s c₂)
    (fin : Finished pf threads s c₂ h' c') (qMem : q ∈ c.alive) (bMem : b ∈ c.blocks q)
    (alive : survives h.mem b = true) {y : Nat} (lower : b ≤ y)
    (upper : y < b + 8 + blockSize (h.mem b)) (notSlot : y ∉ slotsOf h.mem b) :
    h'.mem (y - b + relocate moved b) = s.heap.mem (y - b + relocate moved b) := by
  rcases mid.image qMem bMem alive with ⟨image, notDead, r, rMem, dMem⟩
  have rTiled := Classifying.tiled_of_alive rMem
  have bounds := (mid.arena.pageOk r rTiled).block_bounds dMem
  rw [image.size] at bounds
  refine fin.frame (fun mem => ?_) (mid.alive_notLink rMem (by omega) (by omega))
  rcases mid.mem_redirected mem with ⟨r', rMem', q', qMem', b', bMem', alive', dMem', slot⟩ | isRoot
  · have slotBounds := (mid.gcObject qMem' bMem' alive').slot_bounds slot
    by_cases same : relocate moved b = relocate moved b'
    · rcases mid.evacuated with ⟨h₁, swept, ev⟩
      have sameBlock := ev.relocate_inj qMem bMem qMem' bMem' same
      subst sameBlock
      rw [(mid.shape qMem bMem alive).slotsOf_eq] at slot
      rcases List.mem_map.mp slot with ⟨z, zMem, zEq⟩
      have := (mid.ready.object q qMem b bMem alive).slot_bounds zMem
      have same : y = z := by omega
      exact notSlot (same ▸ zMem)
    · have := mid.arena.blocks_disjoint rTiled dMem (Classifying.tiled_of_alive rMem') dMem' same
      rw [image.size] at this
      omega
  · have := (mid.outside (mid.ready.rootOff _ isRoot).2).1.2 r (Arena.tiled_pages rTiled)
    omega

/-- A slot of a surviving object designates the image of the block it designated. -/
theorem slot_redirected (mid : Midway pf threads h c bigs moved s c₂)
    (fin : Finished pf threads s c₂ h' c') (qMem : q ∈ c.alive) (bMem : b ∈ c.blocks q)
    (alive : survives h.mem b = true) {y p : Nat} (yMem : y ∈ slotsOf h.mem b) (pMem : p ∈ c.alive)
    (dMem : d ∈ c.blocks p) (dAlive : survives h.mem d = true)
    (designates : Designates (h.mem y) d) :
    Designates (h'.mem (y - b + relocate moved b)) (relocate moved d) := by
  rcases mid.image qMem bMem alive with ⟨image, notDead, r, rMem, targetMem⟩
  have rTiled := Classifying.tiled_of_alive rMem
  have bounds := (mid.arena.pageOk r rTiled).block_bounds targetMem
  rw [image.size] at bounds
  have yBounds := (mid.ready.object q qMem b bMem alive).slot_bounds yMem
  have slot : y - b + relocate moved b ∈ slotsOf s.heap.mem (relocate moved b) := by
    rw [(mid.shape qMem bMem alive).slotsOf_eq]
    exact List.mem_map.mpr ⟨y, yMem, rfl⟩
  have word : s.heap.mem (y - b + relocate moved b) = h.mem y := by
    have data := image.data (y - b - 8) (by omega)
    rwa [show relocate moved b + 8 + (y - b - 8) = y - b + relocate moved b by omega,
      show b + 8 + (y - b - 8) = y by omega] at data
  have listed : y - b + relocate moved b ∈ redirectedSlots threads s.heap.mem c₂ :=
    List.mem_append_left _ (mem_visitedSlots.mpr
      ⟨_, List.mem_flatMap.mpr ⟨r, rMem, targetMem⟩, notDead, rfl, slot⟩)
  rcases mid.settled_of_block pMem dMem designates with ⟨settled, reached⟩
  rw [fin.redirected listed (mid.alive_notLink rMem (by omega) (by omega))
    (by rw [word]; exact settled),
    word]
  exact reached dAlive

/-- A stack root designates the image of the block it designated. -/
theorem root_redirected (mid : Midway pf threads h c bigs moved s c₂)
    (fin : Finished pf threads s c₂ h' c') {a p : Nat} (isRoot : a ∈ threads.flatten)
    (pMem : p ∈ c.alive) (dMem : d ∈ c.blocks p) (dAlive : survives h.mem d = true)
    (designates : Designates (h.mem a) d) : Designates (h'.mem a) (relocate moved d) := by
  rcases mid.outside (mid.ready.rootOff a isRoot).2 with ⟨out, word⟩
  rcases mid.settled_of_block pMem dMem designates with ⟨settled, reached⟩
  rw [fin.redirected (List.mem_append_right _ isRoot) (outside_notLink out)
    (by rw [word]; exact settled),
    word]
  exact reached dAlive

/-- Mapped words outside the pages and the big blocks that are no roots are kept. -/
theorem offHeap_eq (mid : Midway pf threads h c bigs moved s c₂)
    (fin : Finished pf threads s c₂ h' c') (off : OffHeap pf h c bigs x)
    (notRoot : x ∉ threads.flatten) : h'.mem x = h.mem x := by
  rcases mid.outside off with ⟨out, word⟩
  rw [fin.frame (mid.outside_not_redirected out notRoot) (outside_notLink out), word]

/-- The data of a surviving big block is kept. -/
theorem bigData_eq (mid : Midway pf threads h c bigs moved s c₂)
    (fin : Finished pf threads s c₂ h' c') {big : Nat} (mem : big ∈ bigs)
    (alive : bigSurvives h.mem big = true) (lower : bigData big ≤ x)
    (upper : x < big + bigLength pf h.mem big) : h'.mem x = h.mem x := by
  simp only [bigData, sizeofBigBlock] at lower
  rcases mid.big_outside mem alive (x := x) (by omega) upper with ⟨out, word, _⟩
  rw [fin.frame (mid.big_not_redirected mem alive (by omega) upper) (outside_notLink out)]
  exact word (by omega) (by simp only [bigHeader]; omega)

/-- The place of a block on a page without a pinned block overlaps no block of before. -/
theorem relocate_fresh (mid : Midway pf threads h c bigs moved s c₂) (qMem : q ∈ c.alive)
    (unpinned : ¬HasPinned h.mem c q) (bMem : b ∈ c.blocks q) (alive : survives h.mem b = true)
    {p : Nat} (pMem : p ∈ c.alive) (dMem : d ∈ c.blocks p) :
    relocate moved b + 8 + blockSize (h.mem b) ≤ d ∨
      d + 8 + blockSize (h.mem d) ≤ relocate moved b := by
  rcases mid.image qMem bMem alive with ⟨image, _, r, rMem, targetMem⟩
  rcases mid.evacuated with ⟨h₁, swept, ev⟩
  have pinnedEq : ∀ q ∈ c.alive, HasPinned h₁.mem c.toSweep q ↔ HasPinned h.mem c q := by
    intro q qMem
    constructor
    · rintro ⟨e, eMem, isPinned⟩
      exact ⟨e, eMem, by rw [← (Halfway.header_eq swept mid.start qMem eMem).1]; exact isPinned⟩
    · rintro ⟨e, eMem, isPinned⟩
      exact ⟨e, eMem, by rw [(Halfway.header_eq swept mid.start qMem eMem).1]; exact isPinned⟩
  have inFrom := (ev.mem_fromSpace q).mpr
    ⟨qMem, fun pinned => unpinned ((pinnedEq q qMem).mp pinned)⟩
  have marked : blockIsMarked (h₁.mem b) = true := by
    rw [(Halfway.header_eq swept mid.start qMem bMem).1]
    simp only [survives, Bool.and_eq_true, Bool.or_eq_true] at alive
    exact alive.2.resolve_right fun isPinned => unpinned ⟨b, bMem, isPinned⟩
  have moves := relocate_of_mem (ev.complete q inFrom b bMem marked)
  have isCopy : relocate moved b ∈ moved.map Prod.snd := List.mem_map_of_mem moves
  have dTiled := mid.old_tiled pMem dMem
  rcases mid.old_block pMem dMem with ⟨dMem₂, size, _⟩
  have different : relocate moved b ≠ d := by
    intro same
    exact ev.copiesFresh p pMem d dMem (same ▸ isCopy)
  have := ev.arena.blocks_disjoint (Classifying.tiled_of_alive rMem) targetMem dTiled
    dMem₂ different
  rwa [image.size, size] at this

/-- A block on a page with a pinned block stays. -/
theorem relocate_pinned (mid : Midway pf threads h c bigs moved s c₂) (qMem : q ∈ c.alive)
    (pinned : HasPinned h.mem c q) (bMem : b ∈ c.blocks q) : relocate moved b = b := by
  rcases mid.evacuated with ⟨h₁, swept, ev⟩
  rcases pinned with ⟨e, eMem, isPinned⟩
  have pinned₁ : HasPinned h₁.mem c.toSweep q :=
    ⟨e, eMem, by rw [(Halfway.header_eq swept mid.start qMem eMem).1]; exact isPinned⟩
  exact (ev.relocate_of_pinned (swept.sweepable mid.start).arena qMem pinned₁ bMem).2

/-- A page without a pinned block is returned to the free list. -/
theorem released (mid : Midway pf threads h c bigs moved s c₂)
    (fin : Finished pf threads s c₂ h' c') (qMem : q ∈ c.alive) (unpinned : ¬HasPinned h.mem c q) :
    q ∈ c'.free := by
  rcases mid.evacuated with ⟨h₁, swept, ev⟩
  refine (fin.free q).mpr (Or.inl ((ev.mem_fromSpace q).mpr ⟨qMem, ?_⟩))
  rintro ⟨e, eMem, isPinned⟩
  exact unpinned ⟨e,
    eMem, by rw [← (Halfway.header_eq swept mid.start qMem eMem).1]; exact isPinned⟩

end Midway

/-- The block is in use and marked. -/
def Marked (h : Heap) (c : Census) (b : Nat) : Prop :=
  ∃ q ∈ c.alive, b ∈ c.blocks q ∧ blockIsMarked (h.mem b) = true

/-- The heap `h'` holds every marked block of `h` at the place `reloc` gives it, with its data, and
every pointer of a marked object or a stack root to a marked block points to its new place. -/
structure Relocates (threads : ThreadRoots) (h : Heap) (c : Census) (h' : Heap) (c' : Census)
    (reloc : Nat → Nat) : Prop where
  injective : ∀ b d, Marked h c b → Marked h c d → reloc b = reloc d → b = d
  stays : ∀ q ∈ c.alive, HasPinned h.mem c q → ∀ b ∈ c.blocks q, reloc b = b
  inUse : ∀ b, Marked h c b → ∃ q ∈ c'.alive, reloc b ∈ c'.blocks q
  fresh : ∀ q ∈ c.alive, ¬HasPinned h.mem c q → ∀ b ∈ c.blocks q, Marked h c b →
    ∀ p ∈ c.alive, ∀ d ∈ c.blocks p,
      reloc b + 8 + blockSize (h.mem b) ≤ d ∨ d + 8 + blockSize (h.mem d) ≤ reloc b
  apart : ∀ b d, Marked h c b → Marked h c d → b ≠ d →
    reloc b + 8 + blockSize (h.mem b) ≤ reloc d ∨ reloc d + 8 + blockSize (h.mem d) ≤ reloc b
  size : ∀ b, Marked h c b → blockSize (h'.mem (reloc b)) = blockSize (h.mem b)
  data : ∀ b, Marked h c b → ∀ o < blockSize (h.mem b), b + 8 + o ∉ slotsOf h.mem b →
    h'.mem (reloc b + 8 + o) = h.mem (b + 8 + o)
  slot : ∀ b, Marked h c b → ∀ i < countOf h.mem b, ∀ j < shellCount h.mem (shellOf h.mem b),
    ∀ d, Marked h c d → Designates (h.mem (slotAddr h.mem b i j)) d →
      Designates (h'.mem (slotAddr h'.mem (reloc b) i j)) (reloc d)
  root : ∀ stack ∈ threads, ∀ a ∈ stack, ∀ d, Marked h c d → Designates (h.mem a) d →
    Designates (h'.mem a) (reloc d)

theorem survives_of_marked (notDead : (blockIsDead (h.mem b) && blockIsMarked (h.mem b)) = false)
    (marked : blockIsMarked (h.mem b) = true) : survives h.mem b = true := by
  rw [marked, Bool.and_true] at notDead
  simp [survives, marked, notDead]

/-- The shape of an object is the same after the sweep. -/
theorem Midway.shape_final (mid : Midway pf threads h c bigs moved s c₂)
    (fin : Finished pf threads s c₂ h' c') (qMem : q ∈ c.alive) (bMem : b ∈ c.blocks q)
    (alive : survives h.mem b = true) : SameShape h.mem b h'.mem (relocate moved b) := by
  have object := mid.ready.object q qMem b bMem alive
  have room := object.room
  refine SameShape.of_agree (fun o less => ?_) fun x lower upper => ?_
  · have notSlot : b + 8 + o ∉ slotsOf h.mem b := by
      intro slot
      have := object.slot_bounds slot
      omega
    have word := mid.image_word fin qMem bMem alive (by omega) (by omega) notSlot
    rw [show b + 8 + o - b + relocate moved b = relocate moved b + 8 + o by omega] at word
    rw [word]
    exact (mid.image qMem bMem alive).1.data o (by omega)
  · have apart := object.shellApart x lower upper
    exact mid.offHeap_eq fin apart.1 apart.2

theorem Midway.relocates (mid : Midway pf threads h c bigs moved s c₂)
    (fin : Finished pf threads s c₂ h' c')
    (deadUnmarked : ∀ q ∈ c.alive, ∀ b ∈ c.blocks q,
      (blockIsDead (h.mem b) && blockIsMarked (h.mem b)) = false) :
    Relocates threads h c h' c' (relocate moved) := by
  have aliveEq : c'.alive = c₂.alive := by rw [fin.census]
  have blocksEq : c'.blocks = c₂.blocks := by rw [fin.census]
  have size : ∀ b, Marked h c b →
      blockSize (h'.mem (relocate moved b)) = blockSize (h.mem b) := by
    rintro b ⟨q, qMem, bMem, marked⟩
    have alive := survives_of_marked (deadUnmarked _ qMem _ bMem) marked
    have notSlot : b ∉ slotsOf h.mem b := by
      intro slot
      have := (mid.ready.object q qMem b bMem alive).slot_bounds slot
      omega
    have word := mid.image_word fin qMem bMem alive (Nat.le_refl _) (by omega) notSlot
    rw [Nat.sub_self, Nat.zero_add] at word
    rw [word]
    exact (mid.image qMem bMem alive).1.size
  refine
    { injective := ?_, stays := ?_, inUse := ?_, fresh := ?_, apart := ?_, size := size,
      data := ?_, slot := ?_, root := ?_ }
  · rintro b d ⟨q, qMem, bMem, _⟩ ⟨p, pMem, dMem, _⟩ same
    rcases mid.evacuated with ⟨h₁, swept, ev⟩
    exact ev.relocate_inj qMem bMem pMem dMem same
  · exact fun q qMem pinned b bMem => mid.relocate_pinned qMem pinned bMem
  · rintro b ⟨q, qMem, bMem, marked⟩
    rw [aliveEq, blocksEq]
    exact (mid.image qMem bMem (survives_of_marked (deadUnmarked _ qMem _ bMem) marked)).2.2
  · rintro q qMem unpinned b bMem ⟨_, _, _, marked⟩ p pMem d dMem
    exact mid.relocate_fresh qMem unpinned bMem
      (survives_of_marked (deadUnmarked _ qMem _ bMem) marked) pMem dMem
  · rintro b d ⟨q, qMem, bMem, bMarked⟩ ⟨p, pMem, dMem, dMarked⟩ different
    rcases mid.image qMem bMem (survives_of_marked (deadUnmarked _ qMem _ bMem) bMarked) with
      ⟨bImage, _, r, rMem, bTarget⟩
    rcases mid.image pMem dMem (survives_of_marked (deadUnmarked _ pMem _ dMem) dMarked) with
      ⟨dImage, _, t, tMem, dTarget⟩
    rcases mid.evacuated with ⟨h₁, swept, ev⟩
    have := ev.arena.blocks_disjoint (Classifying.tiled_of_alive rMem) bTarget
      (Classifying.tiled_of_alive tMem) dTarget
      fun same => different (ev.relocate_inj qMem bMem pMem dMem same)
    rwa [bImage.size, dImage.size] at this
  · rintro b ⟨q, qMem, bMem, marked⟩ o less notSlot
    have alive := survives_of_marked (deadUnmarked _ qMem _ bMem) marked
    have word := mid.image_word fin qMem bMem alive (by omega) (by omega) notSlot
    rw [show b + 8 + o - b + relocate moved b = relocate moved b + 8 + o by omega] at word
    rw [word]
    exact (mid.image qMem bMem alive).1.data o less
  · rintro b ⟨q, qMem, bMem, marked⟩ i iLess j jLess d ⟨p, pMem, dMem, dMarked⟩ designates
    have alive := survives_of_marked (deadUnmarked _ qMem _ bMem) marked
    have slot : slotAddr h.mem b i j ∈ slotsOf h.mem b := mem_slotsOf.mpr ⟨i, iLess, j, jLess, rfl⟩
    have reached := mid.slot_redirected fin qMem bMem alive slot pMem dMem
      (survives_of_marked (deadUnmarked _ pMem _ dMem) dMarked) designates
    have shift := (mid.shape_final fin qMem bMem alive).slotAddr_eq (i := i) jLess
    have above := ((mid.ready.object q qMem b bMem alive).slot_bounds slot).1
    rwa [show slotAddr h.mem b i j - b + relocate moved b =
      slotAddr h'.mem (relocate moved b) i j by omega] at reached
  · rintro stack stackMem a aMem d ⟨p, pMem, dMem, dMarked⟩ designates
    exact mid.root_redirected fin (List.mem_flatten.mpr ⟨stack, stackMem, aMem⟩) pMem dMem
      (survives_of_marked (deadUnmarked _ pMem _ dMem) dMarked) designates

/-- A heap that a mark phase leaves to the sweep: every marked block holds an object whose slots
are null or designate blocks in use or big blocks that survive, as do the stack roots, and the
marked blocks include the pinned ones and no dead one.  Nothing else is asked of the marks. -/
structure Collectable (pf : Platform) (threads : ThreadRoots) (h : Heap) (c : Census)
    (bigs : List Nat) : Prop where
  arena : Arena pf 0 h.firstPage h c
  heldNil : c.held = []
  fromNil : c.fromSpace = []
  noBuckets : ∀ k, h.freeBlocks k = 0
  small : pf.bigBlockThreshold < freeBlocksLength
  big : BigBlocks pf h c bigs
  deadUnmarked : ∀ q ∈ c.alive, ∀ b ∈ c.blocks q,
    (blockIsDead (h.mem b) && blockIsMarked (h.mem b)) = false
  pinnedMarked : ∀ q ∈ c.alive, ∀ b ∈ c.blocks q, blockIsPinned (h.mem b) = true →
    blockIsMarked (h.mem b) = true
  object : ∀ b, Marked h c b → GcObject h.mem (ShellWord pf threads h c bigs) b
  pointer : ∀ b, Marked h c b → ∀ x ∈ slotsOf h.mem b, PointerOk h c bigs (h.mem x)
  rootOff : ∀ a ∈ threads.flatten, a ≠ 0 ∧ OffHeap pf h c bigs a
  root : ∀ a ∈ threads.flatten, PointerOk h c bigs (h.mem a)

theorem PointerOk.plain {w : Nat} (ok : PointerOk h c bigs w) : isCompositePointer w = false := by
  rcases ok with null | ⟨_, _, _, _, designates⟩ | ⟨_, _, _, designates⟩
  · exact null.1
  · exact designates.1
  · exact designates.1

theorem Collectable.sweepReady (ready : Collectable pf threads h c bigs) :
    SweepReady pf threads h c bigs := by
  have marked : ∀ q ∈ c.alive, ∀ b ∈ c.blocks q, survives h.mem b = true → Marked h c b := by
    intro q qMem b bMem alive
    simp only [survives, Bool.and_eq_true, Bool.or_eq_true] at alive
    exact ⟨q, qMem, bMem, alive.2.elim id (ready.pinnedMarked q qMem b bMem)⟩
  exact
    { arena := ready.arena, heldNil := ready.heldNil, fromNil := ready.fromNil
      noBuckets := ready.noBuckets, small := ready.small, big := ready.big
      deadUnmarked := fun q qMem _ => ready.deadUnmarked q qMem
      object := fun q qMem b bMem alive => ready.object b (marked q qMem b bMem alive)
      slotPlain := fun q qMem b bMem alive x mem =>
        (ready.pointer b (marked q qMem b bMem alive) x mem).plain
      slotOnce := fun q qMem b bMem alive x mem =>
        Or.inl (ready.pointer b (marked q qMem b bMem alive) x mem)
      rootOff := ready.rootOff
      rootPlain := fun a mem => (ready.root a mem).plain
      rootOnce := fun a mem => Or.inl (ready.root a mem) }

/-- A sweep for which no mapping is refused runs through all its assertions and relocates the
marked blocks. -/
theorem sweep_relocates (ready : Collectable pf threads h c bigs)
    (enough : sweepFuel pf c bigs ≤ fuel) (mapped : sweep pf fuel threads h ≠ .error .mapFailed) :
    ∃ h' c' reloc, sweep pf fuel threads h = .ok h' ∧ Arena pf 0 h'.firstPage h' c' ∧
      Relocates threads h c h' c' reloc := by
  rcases (sweep_yields ready.sweepReady enough).exists_ok mapped with
    ⟨h', eq, moved, s, c₂, c', mid, fin⟩
  exact ⟨h', c', relocate moved, eq, fin.arena, mid.relocates fin ready.deadUnmarked⟩

/-- The header of an object of the sample. -/
def sampleHeader (marked : Bool) (size : Nat) : Nat := if marked then markBlock size else size

/-- The page at `65536` holds one object with one slot, which points to the object itself; a root
and a slot of a big block at `196608` point to it, too.  The page at `69632` is free, so that a
sweep needs no mapping.  The mark phase has marked both objects, or is still to come. -/
def sampleWords (marked : Bool) : List (Nat × Nat) :=
  [(65544, 65600), (65552, sampleHeader marked 40), (65568, 131072), (65576, 1), (65584, 65584),
    (65600, 4024), (131072, 8), (131080, 1), (131104, 4080), (131112, 1), (133120, 65585),
    (133128, 65584), (196616, sampleHeader marked 4104), (196632, 131104), (196640, 1),
    (196648, 65584)]

def sampleHeap (marked : Bool) : Heap where
  mem := wordsAt (sampleWords marked)
  mappings := [⟨65536, 8192⟩, ⟨131072, 4096⟩, ⟨196608, 8192⟩, ⟨258048, 8192⟩]
  parts := [⟨65536, 73728⟩]
  freePages := 1
  totalPages := 2
  firstPage := 65536
  freeList := 69632
  lastPage := 65536
  firstBigBlock := 196608

def sampleCensus : Census where
  alive := [65536]
  free := [69632]
  blocks _ := [65552]

def sampleRoots : ThreadRoots := [[133120]]

section Sample

variable (marked : Bool)

theorem sampleHeap_arena :
    Arena noMemory 0 (sampleHeap marked).firstPage (sampleHeap marked) sampleCensus where
  fromChain := rfl
  aliveChain := ⟨rfl, by decide, rfl⟩
  freeChain := ⟨rfl, by decide, rfl⟩
  distinct := by decide
  aligned := by decide
  bounded := by decide
  mapped := by
    intro p mem
    refine ⟨⟨65536, 8192⟩, by simp [sampleHeap], ?_⟩
    revert p
    decide
  pageOk := by
    intro p mem
    have : p = 65536 := by simpa [Census.tiled, sampleCensus] using mem
    subst this
    cases marked with
    | true => exact ⟨⟨rfl, by decide, rfl⟩, by decide, fun _ => by decide, by decide⟩
    | false => exact ⟨⟨rfl, by decide, rfl⟩, by decide, fun _ => by decide, by decide⟩
  lastPage := rfl
  owned := by
    cases marked with
    | true => decide
    | false => decide
  freePages := rfl
  totalPages := rfl
  perMap := ⟨5, rfl⟩

theorem sampleHeap_bigBlocks : BigBlocks noMemory (sampleHeap marked) sampleCensus [196608] := by
  cases marked with
  | true => exact ⟨⟨rfl, by decide, rfl⟩, by decide, by decide, by decide, by decide, by decide⟩
  | false => exact ⟨⟨rfl, by decide, rfl⟩, by decide, by decide, by decide, by decide, by decide⟩

theorem sampleHeap_offHeap {x : Nat} (lower : 131072 ≤ x) (upper : x < 131072 + 4096) :
    OffHeap noMemory (sampleHeap marked) sampleCensus [196608] x := by
  refine ⟨⟨⟨⟨131072, 4096⟩, by simp [sampleHeap], lower, upper⟩, fun p mem => ?_⟩,
    fun big mem => ?_⟩
  · have : p = 65536 ∨ p = 69632 := by simpa [Census.pages, sampleCensus] using mem
    simp only [noMemory]
    omega
  · have : big = 196608 := by simpa using mem
    omega

theorem sampleHeap_shellWord {x : Nat} (lower : 131072 ≤ x) (upper : x < 131128) :
    ShellWord noMemory sampleRoots (sampleHeap marked) sampleCensus [196608] x := by
  refine ⟨sampleHeap_offHeap marked lower (by omega), ?_⟩
  simp only [sampleRoots, List.flatten_cons, List.flatten_nil, List.append_nil, List.mem_singleton]
  omega

end Sample

theorem sampleHeap_collectable :
    Collectable noMemory sampleRoots (sampleHeap true) sampleCensus [196608] := by
  have block : ∀ b, Marked (sampleHeap true) sampleCensus b → b = 65552 := by
    rintro b ⟨q, _, bMem, _⟩
    simpa [sampleCensus] using bMem
  have points : ∀ x, x = 65584 ∨ x = 133120 →
      PointerOk (sampleHeap true) sampleCensus [196608] ((sampleHeap true).mem x) := by
    rintro x (rfl | rfl)
    all_goals exact Or.inr (Or.inl ⟨65536, by decide, 65552, by decide, by decide, by decide⟩)
  refine
    { arena := sampleHeap_arena true, heldNil := rfl, fromNil := rfl, noBuckets := fun _ => rfl,
      small := by decide,
      big := sampleHeap_bigBlocks true,
      deadUnmarked := by decide, pinnedMarked := by decide, object := ?_, pointer := ?_,
      rootOff := ?_, root := ?_ }
  · intro b isMarked
    rw [block b isMarked]
    refine ⟨by decide, by decide, fun x lower upper => ?_⟩
    have shell : shellOf (sampleHeap true).mem 65552 = 131072 := by decide
    have slots : shellCount (sampleHeap true).mem 131072 = 1 := by decide
    rw [shell] at lower upper
    rw [slots] at upper
    exact sampleHeap_shellWord true lower (by omega)
  · intro b isMarked x mem
    rw [block b isMarked] at mem
    have slots : slotsOf (sampleHeap true).mem 65552 = [65584] := by decide
    rw [slots, List.mem_singleton] at mem
    exact points x (Or.inl mem)
  · intro a mem
    have : a = 133120 := by simpa [sampleRoots] using mem
    subst this
    exact ⟨by decide, sampleHeap_offHeap true (by decide) (by decide)⟩
  · intro a mem
    have : a = 133120 := by simpa [sampleRoots] using mem
    exact points a (Or.inr this)

theorem sweep_relocates_sampleHeap :
    ∃ h' c' reloc, sweep noMemory 16390 sampleRoots (sampleHeap true) = .ok h' ∧
      Arena noMemory 0 h'.firstPage h' c' ∧
        Relocates sampleRoots (sampleHeap true) sampleCensus h' c' reloc :=
  sweep_relocates sampleHeap_collectable (by decide)
    (ne_error_of_faultOf (by decide +kernel) _)

end PreciseGc

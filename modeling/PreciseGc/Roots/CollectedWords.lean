import PreciseGc.Roots.CollectedObjects

/-!
# Pointers after a collection

A full collection redirects the slots of small objects and the roots in the
`StackMap`s.  Slots of large objects and fake roots keep their words, which is
harmless if they designate objects that the collection does not move.  Then all
pointers of live objects and roots designate the current places of the objects
they designated, and the next collection starts from plain objects again.
-/

namespace PreciseGc

open Foundation Memory Relation

variable {pf : Platform} {threads : List ThreadHandler} {fakeRoots : FakeRoots}
  {t t₁ : DerefRoots} {h h₁ h' : Heap} {c c₂ c' : Census} {bigs : List Nat}
  {a b d x q w big fuel : Nat} {moved : List (Nat × Nat)} {r : SweepState}
  {s' : DerefRoots × Heap} {kept : Nat → Prop}

/-- The word `w'` is null like `w`, or designates the block `f b` as `w` designates `b`, with the
same flag. -/
def RenamedWord (f : Nat → Nat) (w w' : Nat) : Prop :=
  (IsNull w ∧ w' = w) ∨ ∃ b flag, flag < 2 ∧ b % 8 = 0 ∧ f b % 8 = 0 ∧
    w = objectOf b + flag ∧ w' = objectOf (f b) + flag

theorem designates_word {flag : Nat} (aligned : b % 8 = 0) (small : flag < 2) :
    Designates (objectOf b + flag) b := by
  have joined := @word_join (objectOf b) flag (by rw [objectOf_eq]; omega) small
  exact ⟨joined.1, joined.2.1⟩

theorem Designates.exists_flag (designates : Designates w b) (aligned : b % 8 = 0) :
    ∃ flag < 2, w = objectOf b + flag := by
  rcases designates with ⟨plain, target⟩
  have aligned' : clearBothFlags w % 8 = 0 := by
    rw [target, objectOf_eq]
    omega
  rcases word_split plain aligned' with ⟨flag, small, eq⟩
  rw [target] at eq
  exact ⟨flag, small, eq⟩

namespace RenamedWord

variable {f : Nat → Nat} {w' : Nat}

theorem designates (renamed : RenamedWord f w w') (before : Designates w b) :
    Designates w' (f b) := by
  rcases renamed with ⟨null, _⟩ | ⟨d, flag, small, aligned, aligned', rfl, rfl⟩
  · have same := null.2.symm.trans before.2
    rw [objectOf_eq] at same
    omega
  · rw [before.unique (designates_word aligned small)]
    exact designates_word aligned' small

/-- The flag that tells whether the word lies on a stack is kept. -/
theorem isStackPointer_eq (renamed : RenamedWord f w w') :
    isStackPointer w' = isStackPointer w := by
  rcases renamed with ⟨_, rfl⟩ | ⟨b, flag, _, aligned, aligned', rfl, rfl⟩
  · rfl
  · simp only [isStackPointer, stackBit]
    rw [hasFlag_residue (by decide), hasFlag_residue (w := objectOf b + flag) (by decide)]
    congr 1
    rw [objectOf_eq, objectOf_eq]
    omega

/-- A word that designates a block which keeps its name. -/
theorem of_same (aligned : ∀ b, Designates w b → b % 8 = 0)
    (word : PlainWord h w) (same : ∀ b, Designates w b → f b = b) : RenamedWord f w w := by
  rcases word with null | ⟨b, _, designates⟩
  · exact Or.inl ⟨null, rfl⟩
  · rcases designates.exists_flag (aligned b designates) with ⟨flag, small, eq⟩
    have aligned := aligned b designates
    rw [← same b designates] at aligned
    refine Or.inr ⟨b, flag, small, ?_, aligned, eq, ?_⟩
    · rwa [same b designates] at aligned
    · rw [same b designates]
      exact eq

end RenamedWord

/-- A pointer to a block that was copied is redirected to the copy. -/
theorem redirect_copied {m : Memory} {copy : Nat} (designates : Designates w b)
    (aligned : b % 8 = 0) (marked : blockIsMarked (m b) = true) (forward : m (b + 8) = copy + 8)
    (copyAligned : copy % 8 = 0) :
    ∃ flag < 2, w = objectOf b + flag ∧ redirect m w = objectOf copy + flag := by
  rcases designates.exists_flag aligned with ⟨flag, small, eq⟩
  refine ⟨flag, small, eq, ?_⟩
  have flags : getBothFlags w = flag := by
    rw [eq]
    exact (word_join (by rw [objectOf_eq]; omega) small).2.2.2.1
  rw [redirect_designates designates, marked, forward, flags]
  exact (word_join (by rw [toGetMetaInf, sizeofBaseMeta]; omega) small).2.2.2.2

namespace Midway

variable {roots : ThreadRoots}

/-- The redirected pointer to a block of a page that survives. -/
theorem redirect_block (mid : Midway pf roots h c bigs moved r c₂) (qMem : q ∈ c.alive)
    (bMem : b ∈ c.blocks q) (alive : survives h.mem b = true) (designates : Designates w b) :
    RenamedWord (relocate moved) w (redirect r.heap.mem w) := by
  rcases mid.evacuated with ⟨h₁, swept, ev⟩
  have qTiled := Classifying.tiled_of_alive qMem
  have aligned : b % 8 = 0 := ((mid.start.arena.pageOk q qTiled).aligned_blocks
    (mod_eight_of_page (mid.start.arena.aligned q (Arena.tiled_pages qTiled)))).2 b bMem
  have reached := (mid.settled_of_block qMem bMem designates).2 alive
  by_cases marked : blockIsMarked (r.heap.mem b) = true
  · -- blocks of pages with a pinned block have lost their marks
    have inFrom : q ∈ c₂.fromSpace := by
      by_contra notFrom
      have pinned : HasPinned h₁.mem c.toSweep q := by
        by_contra unpinned
        exact notFrom ((ev.mem_fromSpace q).mpr ⟨qMem, unpinned⟩)
      rw [((ev.stays q qMem pinned).2 b bMem).2.1, (retainedHeader_flags _).2.1] at marked
      cases marked
    have header := ev.fromHeader q inFrom b bMem
    have moves := relocate_of_mem (ev.complete q inFrom b bMem (header ▸ marked))
    rcases ev.copies _ moves with ⟨copy, p, pMem, copyMem⟩
    have pTiled := Classifying.tiled_of_alive pMem
    have copyAligned := ((ev.arena.pageOk p pTiled).aligned_blocks
      (mod_eight_of_page (ev.arena.aligned p (Arena.tiled_pages pTiled)))).2 _ copyMem
    rcases redirect_copied designates aligned marked copy.forward copyAligned with
      ⟨flag, small, eq, eq'⟩
    exact Or.inr ⟨b, flag, small, aligned, copyAligned, eq, eq'⟩
  · have same : redirect r.heap.mem w = w := by
      rw [redirect_designates designates, if_neg marked]
    rw [same] at reached ⊢
    have place : relocate moved b = b := reached.unique designates
    rcases designates.exists_flag aligned with ⟨flag, small, eq⟩
    exact Or.inr ⟨b, flag, small, aligned, by rw [place, aligned], eq, by rw [place, eq]⟩

end Midway

/-- The two blocks lie on one page of the list `first_page`. -/
def SamePage (h : Heap) (b d : Nat) : Prop :=
  ∃ pages p blocks, Chain (pageNext h.mem) h.firstPage pages ∧ p ∈ pages ∧
    Tiles (blockExtent h.mem) (firstBlock p) (freeBlock h.mem p) blocks ∧ b ∈ blocks ∧ d ∈ blocks

theorem AllocatorOk.samePage_iff (ok : AllocatorOk pf h c bigs) :
    SamePage h b d ↔ ∃ q ∈ c.alive, b ∈ c.blocks q ∧ d ∈ c.blocks q := by
  have tiles : ∀ q ∈ c.alive, Tiles (blockExtent h.mem) (firstBlock q) (freeBlock h.mem q)
      (c.blocks q) := fun q mem => (ok.arena.pageOk q (Classifying.tiled_of_alive mem)).tiles
  constructor
  · rintro ⟨pages, p, blocks, chain, pMem, tiled, bMem, dMem⟩
    have pagesEq := chain.unique ok.arena.aliveChain
    subst pagesEq
    have blocksEq := tiled.unique (tiles p pMem)
    exact ⟨p, pMem, blocksEq ▸ bMem, blocksEq ▸ dMem⟩
  · rintro ⟨q, qMem, bMem, dMem⟩
    exact ⟨c.alive, q, c.blocks q, ok.arena.aliveChain, qMem, tiles q qMem, bMem, dMem⟩

/-- A full collection does not move the block: it is large, or a word of a stack pins a block of its
page. -/
def Stationary (threads : List ThreadHandler) (t : DerefRoots) (h : Heap) (bigs : List Nat)
    (b : Nat) : Prop :=
  (∃ big, LargeBlock h big ∧ b = bigHeader big) ∨
    ∃ d, SamePage h b d ∧ StackPins h bigs t (wordsOf threads) d

/-- The pointers that the sweep does not redirect, in large objects among those `kept` and in fake
roots outside the `StackMap`s, designate blocks that are not moved. -/
structure Unmoved (kept : Nat → Prop) (threads : List ThreadHandler) (fakeRoots : FakeRoots)
    (t : DerefRoots) (h : Heap) (bigs : List Nat) : Prop where
  large : ∀ big, LargeBlock h big → kept (bigHeader big) →
    ∀ x ∈ slotsOf h.mem (bigHeader big), ∀ b, Designates (h.mem x) b →
      Stationary threads t h bigs b
  fakeRoot : ∀ n ∈ fakeRoots.nodes, n.2 ∉ (stackRoots threads).flatten →
    ∀ b, Designates (h.mem n.2) b → Stationary threads t h bigs b

/-- The mark stack does not overflow, and the sweep leaves no pointer of a live object or a fake
root behind. -/
structure Harmless (threads : List ThreadHandler) (fakeRoots : FakeRoots) (t : DerefRoots)
    (h : Heap) (bigs : List Nat) : Prop
    extends Unmoved (Live threads fakeRoots t h bigs) threads fakeRoots t h bigs where
  fits : ∃ fuel, MarksFit fuel threads fakeRoots (t, h)

/-- A slot of the image of a block holds the redirected word. -/
theorem Midway.slot_word {roots : ThreadRoots} (mid : Midway pf roots h c bigs moved r c₂)
    (fin : Finished pf roots r c₂ h' c') (qMem : q ∈ c.alive) (bMem : b ∈ c.blocks q)
    (alive : survives h.mem b = true) (slot : x ∈ slotsOf h.mem b)
    (ok : PointerOk h c bigs (h.mem x)) :
    h'.mem (x - b + relocate moved b) = redirect r.heap.mem (h.mem x) := by
  rcases mid.image qMem bMem alive with ⟨image, notDead, p, pMem, targetMem⟩
  have pTiled := Classifying.tiled_of_alive pMem
  have bounds := (mid.arena.pageOk p pTiled).block_bounds targetMem
  rw [image.size] at bounds
  have slotBounds := (mid.ready.object q qMem b bMem alive).slot_bounds slot
  have slot' : x - b + relocate moved b ∈ slotsOf r.heap.mem (relocate moved b) := by
    rw [(mid.shape qMem bMem alive).slotsOf_eq]
    exact List.mem_map.mpr ⟨x, slot, rfl⟩
  have word : r.heap.mem (x - b + relocate moved b) = h.mem x := by
    have data := image.data (x - b - 8) (by omega)
    rwa [show relocate moved b + 8 + (x - b - 8) = x - b + relocate moved b by omega,
      show b + 8 + (x - b - 8) = x by omega] at data
  have listed : x - b + relocate moved b ∈ redirectedSlots roots r.heap.mem c₂ :=
    List.mem_append_left _ (mem_visitedSlots.mpr
      ⟨_, List.mem_flatMap.mpr ⟨p, pMem, targetMem⟩, notDead, rfl, slot'⟩)
  rw [fin.redirected listed (mid.alive_notLink pMem (by omega) (by omega))
    (by rw [word]; exact mid.settled ok), word]

namespace CollectedKept

variable (live : CollectedKept pf threads fakeRoots (t, h) c bigs t₁ h₁ moved r c₂ s' c' kept)

include live

theorem aligned (used : InUse h b) : b % 8 = 0 :=
  live.valid.aligned_used live.valid.large (live.valid.inUse_iff.mp used)

theorem relocate_stationary (stationary : Stationary threads t h bigs b) :
    relocate moved b = b := by
  rcases stationary with ⟨big, isLarge, rfl⟩ | ⟨d, samePage, isPinned⟩
  · exact live.mid.relocate_big (live.valid.largeBlock_iff.mp isLarge)
  · rcases live.valid.samePage_iff.mp samePage with ⟨q, qMem, bMem, dMem⟩
    exact live.mid.relocate_pinned qMem
      ⟨d, dMem, (live.marking.pinned d).mpr (Or.inr isPinned)⟩ bMem

/-- Words that designate objects that are kept are among those the sweep can redirect. -/
theorem pointerOk (word : PlainWord h w)
    (target : ∀ b, Designates w b → kept b) :
    PointerOk h₁ c bigs w := by
  rcases word with null | ⟨b, isObject, designates⟩
  · exact Or.inl null
  · rcases live.valid.inUse_iff.mp isObject.1 with ⟨q, qMem, bMem⟩ | ⟨big, bigMem, rfl⟩
    · exact Or.inr (Or.inl ⟨q, qMem, b, bMem, designates⟩)
    · exact Or.inr (Or.inr ⟨big, bigMem, (live.bigSurvives_iff bigMem).mpr (target _ designates),
        designates⟩)

theorem redirected (word : PlainWord h w)
    (target : ∀ b, Designates w b → kept b) :
    RenamedWord (relocate moved) w (redirect r.heap.mem w) := by
  rcases word with null | ⟨b, isObject, designates⟩
  · exact Or.inl ⟨null, (@Settled.of_null r.heap.mem [] w null).2⟩
  · have isKept := target b designates
    rcases live.valid.inUse_iff.mp isObject.1 with ⟨q, qMem, bMem⟩ | ⟨big, bigMem, rfl⟩
    · exact live.mid.redirect_block qMem bMem ((live.survives_iff qMem bMem).mpr isKept) designates
    · rw [(live.mid.settled_of_big bigMem ((live.bigSurvives_iff bigMem).mpr isKept)
        designates).2]
      refine RenamedWord.of_same (fun d same => ?_) (Or.inr ⟨_, isObject, designates⟩)
        fun d same => ?_
      · rw [same.unique designates]
        exact live.aligned isObject.1
      · rw [same.unique designates]
        exact live.mid.relocate_big bigMem

/-- A word that is kept and designates a block that is not moved. -/
theorem kept_word (word : PlainWord h w)
    (stationary : ∀ b, Designates w b → Stationary threads t h bigs b) :
    RenamedWord (relocate moved) w w :=
  RenamedWord.of_same (fun _ designates => live.aligned (word.object designates).1) word
    fun b designates => live.relocate_stationary (stationary b designates)

/-- Mapped words outside the pages and the big blocks. -/
theorem foreign_eq (foreign : Foreign pf h x) (notRoot : x ∉ (stackRoots threads).flatten)
    (notNode : ¬NodeWord fakeRoots x) : s'.2.mem x = h.mem x := by
  have off := live.offHeap_iff.mpr (live.valid.foreign_iff.mp foreign)
  rw [live.mid.offHeap_eq live.fin off notRoot]
  exact live.marking.others x (live.valid.foreign_notMarkWord foreign notNode)

/-- A slot of an object that is kept is renamed. -/
theorem slot_renamed (unmoved : Unmoved kept threads fakeRoots t h bigs)
    (isKept : kept b) (slot : x ∈ slotsOf h.mem b) :
    RenamedWord (relocate moved) (h.mem x) (s'.2.mem (x - b + relocate moved b)) := by
  have isObject := live.object b isKept
  rcases live.marked_held isObject with ⟨_, size, slots, data⟩
  have bounds := (live.plain.object b isObject).slot_bounds slot
  dsimp only at bounds
  have word := live.plain.slot b isObject x slot
  have target : ∀ d, Designates (h.mem x) d → kept d :=
    fun d => live.of_slot isKept slot
  have marked : h₁.mem x = h.mem x := data x (by omega) (by omega)
  rcases live.valid.inUse_iff.mp isObject.1 with ⟨q, qMem, bMem⟩ | ⟨big, bigMem, rfl⟩
  · rw [live.mid.slot_word live.fin qMem bMem ((live.survives_iff qMem bMem).mpr isKept)
      (slots ▸ slot) (marked ▸ live.pointerOk word target), marked]
    exact live.redirected word target
  · have alive := (live.bigSurvives_iff bigMem).mpr isKept
    rw [live.mid.relocate_big bigMem, Nat.sub_add_cancel (by omega),
      live.mid.largeSlot_kept live.fin bigMem alive (live.marked_large isObject) (slots ▸ slot),
      marked]
    exact live.kept_word word
      (unmoved.large big (live.valid.largeBlock_iff.mpr bigMem) isKept x slot)

/-- A root in a `StackMap` is renamed. -/
theorem stackRoot_renamed (mem : a ∈ (stackRoots threads).flatten) :
    RenamedWord (relocate moved) (h.mem a) (s'.2.mem a) := by
  have cell := live.plain.stackRoot a mem
  have target : ∀ d, Designates (h.mem a) d → kept d :=
    fun d => live.of_stackRoot mem
  have marked : h₁.mem a = h.mem a :=
    live.marking.others a (live.valid.foreign_notMarkWord cell.foreign cell.notNode)
  have off := live.offHeap_iff.mpr (live.valid.foreign_iff.mp cell.foreign)
  rcases live.mid.outside off with ⟨out, word⟩
  rw [live.fin.redirected (List.mem_append_right _ mem) (Midway.outside_notLink out), word, marked]
  · exact live.redirected cell.word target
  · rw [word, marked]
    exact live.mid.settled (live.pointerOk cell.word target)

/-- A fake root is renamed. -/
theorem fakeRoot_renamed (unmoved : Unmoved kept threads fakeRoots t h bigs) {n : Nat × Nat}
    (mem : n ∈ fakeRoots.nodes) : RenamedWord (relocate moved) (h.mem n.2) (s'.2.mem n.2) := by
  by_cases isRoot : n.2 ∈ (stackRoots threads).flatten
  · exact live.stackRoot_renamed isRoot
  · have cell := live.plain.fakeRoot n mem
    rw [live.foreign_eq cell.foreign isRoot cell.notNode]
    exact live.kept_word cell.word (unmoved.fakeRoot n mem isRoot)

/-- Mapped words outside the pages and the big blocks stay so. -/
theorem foreign_kept (foreign : Foreign pf h x) : Foreign pf s'.2 x := by
  have off := live.offHeap_iff.mpr (live.valid.foreign_iff.mp foreign)
  rcases live.mid.outside off with ⟨out, _⟩
  have pages : ∀ p ∈ c'.pages, p ∈ c₂.pages := by
    intro p mem
    rw [live.fin.census, Census.mem_pages, Census.mem_tiled] at mem
    rw [Census.mem_pages, Census.mem_tiled]
    rcases mem with (held | never | alive) | inFree
    · exact Or.inl (Or.inl held)
    · cases never
    · exact Or.inl (Or.inr (Or.inr alive))
    · rcases (live.fin.free p).mp inFree with inFrom | inFree
      · exact Or.inl (Or.inr (Or.inl inFrom))
      · exact Or.inr inFree
  refine (live.allocatorState live.valid).foreign_iff.mpr ⟨⟨?_, fun p mem => out.2 p (pages p mem)⟩,
    fun big mem => ?_⟩
  · rw [live.fin.mappings]
    exact out.1
  · rcases List.mem_filter.mp mem with ⟨bigMem, alive⟩
    have length : bigLength pf s'.2.mem big = bigLength pf h₁.mem big := by
      simp only [bigLength, live.mid.bigHeader_eq live.fin bigMem alive, blockSize_unmarkBlock,
        blockSize_unpinBlock]
    rw [length]
    exact off.2 big bigMem

/-- A renamed pointer to an object that is kept is a plain pointer to an object. -/
theorem renamed_plainWord {w' : Nat} (renamed : RenamedWord (relocate moved) w w')
    (word : PlainWord h w) (target : ∀ b, Designates w b → kept b) :
    PlainWord s'.2 w' := by
  rcases word with null | ⟨b, _, designates⟩
  · rcases renamed with ⟨_, rfl⟩ | ⟨b, flag, small, aligned, _, rfl, _⟩
    · exact Or.inl null
    · have same := null.2.symm.trans (designates_word aligned small).2
      rw [objectOf_eq] at same
      omega
  · exact Or.inr ⟨_, (live.held (target b designates)).object, renamed.designates designates⟩

theorem plainCell {a : Nat} (cell : PlainCell pf h fakeRoots a)
    (renamed : RenamedWord (relocate moved) (h.mem a) (s'.2.mem a))
    (target : ∀ b, Designates (h.mem a) b → kept b) :
    PlainCell pf s'.2 fakeRoots a where
  nonnull := cell.nonnull
  foreign := live.foreign_kept cell.foreign
  notNode := cell.notNode
  word := live.renamed_plainWord renamed cell.word target

/-- After a unmoved collection all objects and roots are plain again. -/
theorem plainProcess (unmoved : Unmoved kept threads fakeRoots t h bigs) :
    PlainProcess pf threads fakeRoots s'.2 where
  small := live.plain.small
  object d isObject := by
    rcases live.origin isObject with ⟨b, isKept, rfl⟩
    have held := live.held isKept
    refine held.shape.gcObject (live.plain.object b (live.object b isKept)) held.size
      fun x apart => ⟨live.foreign_kept apart.1, apart.2⟩
  slot d isObject x' slot' := by
    rcases live.origin isObject with ⟨b, isKept, rfl⟩
    rw [(live.held isKept).shape.slotsOf_eq] at slot'
    rcases List.mem_map.mp slot' with ⟨x, slot, rfl⟩
    exact live.renamed_plainWord (live.slot_renamed unmoved isKept slot)
      (live.plain.slot b (live.object b isKept) x slot) fun d => live.of_slot isKept slot
  slotsNodup d isObject := by
    rcases live.origin isObject with ⟨b, isKept, rfl⟩
    have isObject := live.object b isKept
    rw [(live.held isKept).shape.slotsOf_eq]
    refine (live.plain.slotsNodup b isObject).map_on fun x xMem y yMem same => ?_
    have := (live.plain.object b isObject).slot_bounds xMem
    have := (live.plain.object b isObject).slot_bounds yMem
    omega
  node n mem := by
    rcases live.plain.node n mem with ⟨x, eq, foreign⟩
    exact ⟨x, eq, live.foreign_kept foreign⟩
  stackRoot a mem :=
    live.plainCell (live.plain.stackRoot a mem) (live.stackRoot_renamed mem) fun _ =>
      live.of_stackRoot mem
  stackRootsNodup := live.plain.stackRootsNodup
  fakeRoot n mem :=
    live.plainCell (live.plain.fakeRoot n mem) (live.fakeRoot_renamed unmoved mem) fun _ =>
      live.of_fakeRoot mem

end CollectedKept

end PreciseGc

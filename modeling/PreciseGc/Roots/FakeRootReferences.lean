import PreciseGc.Roots.MarkPhase
import PreciseGc.Sweep.LargeObjects

/-!
# References from fake roots

A whole collection marks the objects of all roots, but the sweep redirects the
roots in the `StackMap`s only.  A fake root keeps its word, which is right
exactly when the object it designates was not moved.
-/

namespace PreciseGc

open Foundation Memory

variable {pf : Platform} {threads : List ThreadHandler} {fakeRoots : FakeRoots} {t : DerefRoots}
  {h h' : Heap} {c : Census} {bigs : List Nat} {pins : Nat → Prop} {m : Memory} {b q x fuel : Nat}

/-- The blocks that hold objects. -/
def objectBlocks (h : Heap) (c : Census) (bigs : List Nat) : List Nat :=
  ((c.alive.flatMap c.blocks).filter fun b => !blockIsDead (h.mem b)) ++ bigs.map bigHeader

/-- The words in which the mark phase sets flags: the headers of objects, and the words in front of
the nodes of fake roots, for `mark_node` marks the nodes, too. -/
def MarkWord (h : Heap) (c : Census) (bigs : List Nat) (fakeRoots : FakeRoots) (x : Nat) : Prop :=
  x ∈ objectBlocks h c bigs ∨ ∃ n ∈ fakeRoots.nodes, n.1 = blockData x

/-- The addresses registered in the `StackMap`s. -/
def stackRoots (threads : List ThreadHandler) : ThreadRoots := threads.map ThreadHandler.stack

theorem mem_stackRoots {a : Nat} :
    a ∈ (stackRoots threads).flatten ↔ a ∈ threads.flatMap ThreadHandler.stack := by
  rw [stackRoots, List.flatMap]

theorem mem_objectBlocks_small (qMem : q ∈ c.alive) (bMem : b ∈ c.blocks q)
    (notDead : blockIsDead (h.mem b) = false) : b ∈ objectBlocks h c bigs := by
  apply List.mem_append_left
  exact List.mem_filter.mpr ⟨List.mem_flatMap.mpr ⟨q, qMem, bMem⟩, by simp [notDead]⟩

/-- A root outside the heap whose word is a plain pointer to an object, or null. -/
structure PlainRoot (pf : Platform) (h : Heap) (c : Census) (bigs : List Nat)
    (fakeRoots : FakeRoots) (a : Nat) : Prop where
  nonnull : a ≠ 0
  offHeap : OffHeap pf h c bigs a
  plain : isCompositePointer (h.mem a) = false
  root : RootWord h (objectBlocks h c bigs) (MarkWord h c bigs fakeRoots) a

/-- What a collection of a heap without composite pointers relies on. -/
structure CollectionReady (pf : Platform) (threads : List ThreadHandler) (fakeRoots : FakeRoots)
    (t : DerefRoots) (h : Heap) (c : Census) (bigs : List Nat) : Prop where
  arena : Arena pf 0 h.firstPage h c
  heldNil : c.held = []
  fromNil : c.fromSpace = []
  noBuckets : ∀ k, h.freeBlocks k = 0
  small : pf.bigBlockThreshold < freeBlocksLength
  big : BigBlocks pf h c bigs
  deadUnmarked : ∀ q ∈ c.alive, ∀ b ∈ c.blocks q,
    (blockIsDead (h.mem b) && blockIsMarked (h.mem b)) = false
  graph : ObjectGraph h (objectBlocks h c bigs) bigs (MarkWord h c bigs fakeRoots)
  shellApart : ∀ b ∈ objectBlocks h c bigs, ∀ x, shellOf h.mem b ≤ x →
    x < shellOf h.mem b + 8 * (2 + shellCount h.mem (shellOf h.mem b)) →
      ShellWord pf (stackRoots threads) h c bigs x
  slotPlain : ∀ b ∈ objectBlocks h c bigs, ∀ x ∈ slotsOf h.mem b,
    isCompositePointer (h.mem x) = false
  slotsNodup : ∀ b ∈ objectBlocks h c bigs, (slotsOf h.mem b).Nodup
  tracks : TracksAll h (objectBlocks h c bigs) t
  nodeWord : ∀ n ∈ fakeRoots.nodes, ∃ x, n.1 = blockData x ∧ OffHeap pf h c bigs x
  stackRoot : ∀ a ∈ (stackRoots threads).flatten, PlainRoot pf h c bigs fakeRoots a
  stackRootsNodup : (stackRoots threads).flatten.Nodup
  fakeRoot : ∀ n ∈ fakeRoots.nodes, PlainRoot pf h c bigs fakeRoots n.2

namespace CollectionReady

/-- A word in which the mark phase sets flags is the header of a block in use or of a big block, or
lies outside the heap. -/
theorem markWord_cases (ready : CollectionReady pf threads fakeRoots t h c bigs)
    (isWord : MarkWord h c bigs fakeRoots x) :
    (∃ q ∈ c.alive, x ∈ c.blocks q ∧ blockIsDead (h.mem x) = false) ∨
      (∃ big ∈ bigs, x = bigHeader big) ∨ OffHeap pf h c bigs x := by
  rcases isWord with inBlocks | ⟨n, mem, eq⟩
  · rcases List.mem_append.mp inBlocks with small | large
    · rcases List.mem_filter.mp small with ⟨inPages, notDead⟩
      rcases List.mem_flatMap.mp inPages with ⟨q, qMem, bMem⟩
      exact Or.inl ⟨q, qMem, bMem, by simpa using notDead⟩
    · rcases List.mem_map.mp large with ⟨big, bigMem, rfl⟩
      exact Or.inr (Or.inl ⟨big, bigMem, rfl⟩)
  · rcases ready.nodeWord n mem with ⟨y, nodeEq, off⟩
    have same : x = y := blockData_inj (eq.symm.trans nodeEq)
    exact Or.inr (Or.inr (same ▸ off))

/-- A word of a page in which the mark phase sets flags is the header of a block that is not
dead. -/
theorem markWord_page (ready : CollectionReady pf threads fakeRoots t h c bigs) (qMem : q ∈ c.pages)
    (lower : q ≤ x) (upper : x < q + pf.pageSize) (isWord : MarkWord h c bigs fakeRoots x) :
    ∃ p ∈ c.alive, x ∈ c.blocks p ∧ blockIsDead (h.mem x) = false := by
  rcases ready.markWord_cases isWord with block | ⟨big, bigMem, rfl⟩ | off
  · exact block
  · have := ready.big.pages big bigMem q qMem
    have := bigLength_ge pf h.mem big
    simp only [bigHeader] at *
    omega
  · have := off.1.2 q qMem
    omega

/-- A word of a page outside the blocks is kept by the mark phase. -/
theorem page_eq (ready : CollectionReady pf threads fakeRoots t h c bigs)
    (marking : Marking (MarkWord h c bigs fakeRoots) pins h.mem m) (qMem : q ∈ c.pages)
    (lower : q ≤ x) (upper : x < q + pf.pageSize)
    (noHeader : ∀ p ∈ c.alive, ∀ d ∈ c.blocks p, x ≠ d) : m x = h.mem x := by
  apply marking.others
  intro isWord
  rcases ready.markWord_page qMem lower upper isWord with ⟨p, pMem, mem, _⟩
  exact noHeader p pMem x mem rfl

/-- The mark phase keeps the arena. -/
theorem arena_marking (ready : CollectionReady pf threads fakeRoots t h c bigs)
    (marking : Marking (MarkWord h c bigs fakeRoots) pins h.mem m) :
    Arena pf 0 h.firstPage { h with mem := m } c := by
  have arena := ready.arena
  have large := pf.pageSize_ge
  have notHeader : ∀ x, (∀ p ∈ c.tiled, ∀ d ∈ c.blocks p, x < d ∨ d + 8 ≤ x) →
      ∀ p ∈ c.alive, ∀ d ∈ c.blocks p, x ≠ d := by
    intro x away p pMem d dMem
    have := away p (Classifying.tiled_of_alive pMem) d dMem
    omega
  have same : SameOwnership h { h with mem := m } := ⟨rfl, rfl, rfl, rfl, rfl, rfl, rfl⟩
  refine arena.transport same ?_ ?_
  · intro q mem
    refine ready.page_eq marking mem (Nat.le_refl _) (by omega) (notHeader q ?_)
    intro p pTiled d dMem
    have := (arena.pageOk p pTiled).block_bounds dMem
    by_cases same : q = p
    · omega
    · have := arena.apart mem (Arena.tiled_pages pTiled) same
      omega
  · intro q mem
    have ok := arena.pageOk q mem
    have qPages := Arena.tiled_pages mem
    have onPage : ∀ x, q ≤ x → x < q + pf.pageSize →
        (∀ d ∈ c.blocks q, x < d ∨ d + 8 ≤ x) → m x = h.mem x := by
      intro x lower upper away
      refine ready.page_eq marking qPages lower upper (notHeader x ?_)
      intro p pTiled d dMem
      by_cases same : q = p
      · subst same
        exact away d dMem
      · have := (arena.pageOk p pTiled).block_bounds dMem
        have := arena.apart qPages (Arena.tiled_pages pTiled) same
        omega
    refine ok.congr ?_ (fun d _ => marking.size d) ?_
    · refine onPage _ (by omega) (by omega) fun d dMem => ?_
      have := ok.block_bounds dMem
      omega
    · intro notFull
      rw [pageIsFull_eq_false_iff] at notFull
      have := ok.first_le_free
      refine onPage _ (by omega) (by omega) fun d dMem => ?_
      have := ok.block_bounds dMem
      omega

/-- The mark phase keeps the big blocks. -/
theorem bigBlocks_marking (ready : CollectionReady pf threads fakeRoots t h c bigs)
    (marking : Marking (MarkWord h c bigs fakeRoots) pins h.mem m) :
    BigBlocks pf { h with mem := m } c bigs := by
  have length : ∀ big, bigLength pf m big = bigLength pf h.mem big := by
    intro big
    simp only [bigLength, marking.size]
  refine
    { chain := (ready.graph.marking marking).bigChain, nodup := ready.big.nodup, mapped := ?_,
      region := ?_, apart := ?_, pages := ?_ }
  all_goals
    dsimp only
    simp only [length]
  · exact ready.big.mapped
  · exact ready.big.region
  · exact ready.big.apart
  · exact ready.big.pages

theorem offHeap_marking (marking : Marking (MarkWord h c bigs fakeRoots) pins h.mem m) :
    OffHeap pf { h with mem := m } c bigs x ↔ OffHeap pf h c bigs x := by
  have length : ∀ big, bigLength pf m big = bigLength pf h.mem big := by
    intro big
    simp only [bigLength, marking.size]
  simp only [OffHeap, Outside, length]

/-- The block of an object that survives is no dead block. -/
theorem object_of_survives (marking : Marking (MarkWord h c bigs fakeRoots) pins h.mem m)
    (qMem : q ∈ c.alive) (bMem : b ∈ c.blocks q) (alive : survives m b = true) :
    b ∈ objectBlocks h c bigs := by
  simp only [survives, Bool.and_eq_true, Bool.not_eq_true'] at alive
  apply mem_objectBlocks_small qMem bMem
  rw [← marking.dead]
  exact alive.1

/-- The mark phase marks no dead block. -/
theorem deadUnmarked_marking (ready : CollectionReady pf threads fakeRoots t h c bigs)
    (marking : Marking (MarkWord h c bigs fakeRoots) pins h.mem m) (qMem : q ∈ c.alive)
    (bMem : b ∈ c.blocks q) : (blockIsDead (m b) && blockIsMarked (m b)) = false := by
  have inTiled := Classifying.tiled_of_alive qMem
  have bounds := (ready.arena.pageOk q inTiled).block_bounds bMem
  cases dead : blockIsDead (m b) with
  | false => rfl
  | true =>
      have kept : m b = h.mem b := by
        apply marking.others
        intro isWord
        rcases ready.markWord_page (Arena.tiled_pages inTiled) (by omega) (by omega) isWord with
          ⟨_, _, _, notDead⟩
        rw [← marking.dead, dead] at notDead
        cases notDead
      rw [← dead, kept]
      exact ready.deadUnmarked q qMem b bMem

/-- After the mark phase the heap is ready for the sweep. -/
theorem sweepReady (ready : CollectionReady pf threads fakeRoots t h c bigs)
    (marking : Marking (MarkWord h c bigs fakeRoots) pins h.mem m) :
    SweepReady pf (stackRoots threads) { h with mem := m } c bigs := by
  have graph := ready.graph
  refine
    { arena := ready.arena_marking marking, heldNil := ready.heldNil, fromNil := ready.fromNil,
      noBuckets := ready.noBuckets, small := ready.small, big := ready.bigBlocks_marking marking,
      deadUnmarked := ?_, object := ?_, slotPlain := ?_, slotOnce := ?_, rootOff := ?_,
      rootPlain := ?_, rootOnce := ?_ }
  · exact fun q qMem _ b bMem => ready.deadUnmarked_marking marking qMem bMem
  · intro q qMem b bMem alive
    have mem := object_of_survives marking qMem bMem alive
    have same := graph.shape marking mem
    have object : GcObject h.mem (ShellWord pf (stackRoots threads) h c bigs) b :=
      { graph.object b mem with shellApart := ready.shellApart b mem }
    refine same.gcObject object (marking.size b) fun x apart => ⟨?_, apart.2⟩
    exact (offHeap_marking marking).mpr apart.1
  · intro q qMem b bMem alive x slot
    have mem := object_of_survives marking qMem bMem alive
    dsimp only at slot ⊢
    rw [graph.slotsOf_eq marking mem] at slot
    rw [marking.others x (graph.slot_notHeader mem slot)]
    exact ready.slotPlain b mem x slot
  · intro q qMem b bMem alive x slot
    have mem := object_of_survives marking qMem bMem alive
    right
    dsimp only at slot ⊢
    rw [graph.slotsOf_eq marking mem] at slot ⊢
    exact List.count_eq_one_of_mem (ready.slotsNodup b mem) slot
  · intro a mem
    have root := ready.stackRoot a mem
    exact ⟨root.nonnull, (offHeap_marking marking).mpr root.offHeap⟩
  · intro a mem
    have root := ready.stackRoot a mem
    dsimp only
    rw [marking.others a root.root.1]
    exact root.plain
  · intro a mem
    exact Or.inr (List.count_eq_one_of_mem ready.stackRootsNodup mem)

end CollectionReady

namespace Midway

variable {roots : ThreadRoots} {c₂ c' : Census} {s : SweepState}
  {moved : List (Nat × Nat)} {a : Nat}

/-- A cell outside the heap that designated a marked block designates its current place exactly
when the page of the block has a pinned block or the cell is a stack root. -/
theorem cell_iff (mid : Midway pf roots h c bigs moved s c₂) (fin : Finished pf roots s c₂ h' c')
    (off : OffHeap pf h c bigs a) (qMem : q ∈ c.alive) (bMem : b ∈ c.blocks q)
    (alive : survives h.mem b = true) (designates : Designates (h.mem a) b) :
    Designates (h'.mem a) (relocate moved b) ↔ HasPinned h.mem c q ∨ a ∈ roots.flatten := by
  by_cases isRoot : a ∈ roots.flatten
  · have redirected := mid.root_redirected fin isRoot qMem bMem alive designates
    exact iff_of_true redirected (Or.inr isRoot)
  · rw [mid.offHeap_eq fin off isRoot, or_iff_left isRoot]
    constructor
    · intro kept
      by_contra unpinned
      have same : relocate moved b = b := kept.unique designates
      have fresh := mid.relocate_fresh qMem unpinned bMem alive qMem bMem
      omega
    · intro pinned
      rw [mid.relocate_pinned qMem pinned bMem]
      exact designates

/-- A cell outside the heap that designated a surviving big block keeps its word. -/
theorem cell_big (mid : Midway pf roots h c bigs moved s c₂) (fin : Finished pf roots s c₂ h' c')
    (off : OffHeap pf h c bigs a) {big : Nat} (bigMem : big ∈ bigs)
    (alive : bigSurvives h.mem big = true) (designates : Designates (h.mem a) (bigHeader big)) :
    h'.mem a = h.mem a := by
  by_cases isRoot : a ∈ roots.flatten
  · rcases mid.outside off with ⟨out, word⟩
    rcases mid.settled_of_big bigMem alive designates with ⟨settled, fixed⟩
    rw [fin.redirected (List.mem_append_right _ isRoot) (outside_notLink out)
      (by rw [word]; exact settled), word, fixed]
  · exact mid.offHeap_eq fin off isRoot

end Midway

/-- A block of the page is pinned, or will be because a word of a stack hits it. -/
def Anchored (h : Heap) (c : Census) (bigs : List Nat) (t : DerefRoots)
    (threads : List ThreadHandler) (q : Nat) : Prop :=
  ∃ d ∈ c.blocks q, blockIsPinned (h.mem d) = true ∨
    StackPins h bigs t (threads.flatMap ThreadHandler.stackWords) d

/-- The cell `a` of `h` and `h'`: a word that designated a small block designates its current place
exactly when the page of the block is anchored or the cell is a stack root, and a word that
designated a big block designates it still. -/
structure CellFollows (threads : List ThreadHandler) (t : DerefRoots) (h : Heap) (c : Census)
    (bigs : List Nat) (h' : Heap) (reloc : Nat → Nat) (a : Nat) : Prop where
  small : ∀ q ∈ c.alive, ∀ b ∈ c.blocks q, Designates (h.mem a) b →
    (Designates (h'.mem a) (reloc b) ↔
      Anchored h c bigs t threads q ∨ a ∈ threads.flatMap ThreadHandler.stack)
  big : ∀ big ∈ bigs, Designates (h.mem a) (bigHeader big) → Designates (h'.mem a) (bigHeader big)

theorem PlainRoot.designated {a : Nat} (root : PlainRoot pf h c bigs fakeRoots a)
    (designates : Designates (h.mem a) b) : b ∈ objectBlocks h c bigs := by
  rcases root.root.2 with null | ⟨d, mem, same⟩ | ⟨_, _, _, _, composite, _⟩
  · have := null.2.symm.trans designates.2
    rw [objectOf_eq] at this
    omega
  · rw [designates.unique same]
    exact mem
  · rw [root.plain] at composite
    cases composite

/-- A sweep has followed a mark phase in which the words of the stacks have pinned their objects and
the roots have marked theirs. -/
structure MarkedAndSwept (pf : Platform) (threads : List ThreadHandler) (fakeRoots : FakeRoots)
    (s : DerefRoots × Heap) (c : Census) (bigs : List Nat) (t₁ : DerefRoots) (h₁ : Heap)
    (moved : List (Nat × Nat)) (r : SweepState) (c₂ : Census) (s' : DerefRoots × Heap)
    (c' : Census) : Prop where
  phase : MarkPhase s.2 s.1 (objectBlocks s.2 c bigs) (MarkWord s.2 c bigs fakeRoots)
    (StackPins s.2 bigs s.1 (threads.flatMap ThreadHandler.stackWords))
    (threads.flatMap ThreadHandler.stack ++ fakeRoots.nodes.map Prod.snd) (t₁, h₁)
  mid : Midway pf (stackRoots threads) h₁ c bigs moved r c₂
  fin : Finished pf (stackRoots threads) r c₂ s'.2 c'
  table : s'.1 = t₁.sweep

/-- A collection that returns has gone through a mark phase and a sweep. -/
structure Collected (pf : Platform) (fuel : Nat) (threads : List ThreadHandler)
    (fakeRoots : FakeRoots) (s : DerefRoots × Heap) (c : Census) (bigs : List Nat) (t₁ : DerefRoots)
    (h₁ : Heap) (moved : List (Nat × Nat)) (r : SweepState) (c₂ : Census) (s' : DerefRoots × Heap)
    (c' : Census) : Prop
    extends MarkedAndSwept pf threads fakeRoots s c bigs t₁ h₁ moved r c₂ s' c' where
  marks : (collector fuel).markRoots fuel threads fakeRoots s = .ok (t₁, h₁)

/-- A collection returns unless a mapping is refused. -/
theorem CollectionReady.collected (ready : CollectionReady pf threads fakeRoots t h c bigs)
    (goFuel : GoFuel fuel h (objectBlocks h c bigs) bigs) (enough : sweepFuel pf c bigs ≤ fuel)
    (fit : stackMapsFit fuel threads (t, h) = true) :
    Yields (· = Fault.mapFailed)
      (fun s' => ∃ t₁ h₁ moved r c₂ c',
        Collected pf fuel threads fakeRoots (t, h) c bigs t₁ h₁ moved r c₂ s' c')
      (markAndSweep pf fuel threads fakeRoots (t, h)) := by
  have stackWords : ∀ a ∈ threads.flatMap ThreadHandler.stack,
      RootWord h (objectBlocks h c bigs) (MarkWord h c bigs fakeRoots) a :=
    fun a mem => (ready.stackRoot a (mem_stackRoots.mpr mem)).root
  have nodes : ∀ n ∈ fakeRoots.nodes, ∃ x, MarkWord h c bigs fakeRoots x ∧ n.1 = blockData x := by
    intro n mem
    rcases ready.nodeWord n mem with ⟨x, eq, _⟩
    exact ⟨x, Or.inr ⟨n, mem, eq⟩, eq⟩
  rcases markRoots_spec ready.graph goFuel ready.tracks threads fakeRoots stackWords nodes
    (fun n mem => (ready.fakeRoot n mem).root) fit with ⟨⟨t₁, h₁⟩, markEq, phase⟩
  have ready₁ : SweepReady pf (stackRoots threads) h₁ c bigs := by
    have heapEq := phase.heapEq
    dsimp only at heapEq
    rw [heapEq]
    exact ready.sweepReady phase.marking
  unfold markAndSweep
  rw [markEq]
  apply (sweep_yields ready₁ enough).bind
  rintro h' ⟨moved, r, c₂, c', mid, fin⟩
  exact ⟨t₁, h₁, moved, r, c₂, c', ⟨phase, mid, fin, rfl⟩, markEq⟩

/-- The mark phase keeps the words that belong to no page and no big block. -/
theorem MarkedAndSwept.offHeap_iff {t₁ : DerefRoots} {h₁ : Heap} {moved : List (Nat × Nat)}
    {r : SweepState} {c₂ c' : Census} {s' : DerefRoots × Heap}
    (collected : MarkedAndSwept pf threads fakeRoots (t, h) c bigs t₁ h₁ moved r c₂ s' c') :
    OffHeap pf h₁ c bigs x ↔ OffHeap pf h c bigs x := by
  have heapEq := collected.phase.heapEq
  dsimp only at heapEq
  rw [heapEq]
  exact CollectionReady.offHeap_marking collected.phase.marking

/-- After a collection a fake root designates the current place of its object exactly when the page
of the object was anchored or the root lies in a `StackMap`, too. -/
theorem markAndSweep_fakeRoot_iff (ready : CollectionReady pf threads fakeRoots t h c bigs)
    (goFuel : GoFuel fuel h (objectBlocks h c bigs) bigs) (enough : sweepFuel pf c bigs ≤ fuel)
    (fit : stackMapsFit fuel threads (t, h) = true)
    (mapped : markAndSweep pf fuel threads fakeRoots (t, h) ≠ .error .mapFailed) :
    ∃ t' h' m c' reloc, markAndSweep pf fuel threads fakeRoots (t, h) = .ok (t', h') ∧
      Arena pf 0 h'.firstPage h' c' ∧
        Relocates (stackRoots threads) { h with mem := m } c h' c' reloc ∧
          ∀ n ∈ fakeRoots.nodes, CellFollows threads t h c bigs h' reloc n.2 := by
  rcases (ready.collected goFuel enough fit).exists_ok mapped with
    ⟨⟨t', h'⟩, eq, t₁, h₁, moved, r, c₂, c', collected⟩
  have heapEq := collected.phase.heapEq
  have marking := collected.phase.marking
  have targets := collected.phase.targets
  have mid := collected.mid
  have fin := collected.fin
  dsimp only at heapEq marking targets fin
  have notDead : ∀ q ∈ c.alive, ∀ b ∈ c.blocks q,
      (blockIsDead (h₁.mem b) && blockIsMarked (h₁.mem b)) = false := fun q qMem b bMem =>
    ready.deadUnmarked_marking marking qMem bMem
  refine ⟨t', h', h₁.mem, c', relocate moved, eq, fin.arena, ?_, ?_⟩
  · rw [← heapEq]
    exact mid.relocates fin notDead
  intro n mem
  have root := ready.fakeRoot n mem
  have word : h₁.mem n.2 = h.mem n.2 := marking.others _ root.root.1
  have off : OffHeap pf h₁ c bigs n.2 := collected.offHeap_iff.mpr root.offHeap
  have marked : ∀ b, Designates (h.mem n.2) b → blockIsMarked (h₁.mem b) = true := by
    intro b designates
    refine targets n.2 ?_ b (root.designated designates) designates
    exact List.mem_append_right _ (List.mem_map_of_mem mem)
  constructor
  · intro q qMem b bMem designates
    have pinned : HasPinned h₁.mem c q ↔ Anchored h c bigs t threads q := by
      simp only [HasPinned, Anchored, marking.pinned]
    rw [← pinned, ← mem_stackRoots]
    apply mid.cell_iff fin off qMem bMem
      (survives_of_marked (notDead q qMem b bMem) (marked b designates))
    rw [word]
    exact designates
  · intro big bigMem designates
    have alive : bigSurvives h₁.mem big = true := by
      rw [bigSurvives, marked _ designates, Bool.true_or]
    rw [← word] at designates
    rw [mid.cell_big fin off bigMem alive designates]
    exact designates

def sampleThreads : List ThreadHandler := [⟨[], [133120]⟩]

/-- The tree with one node, at `262144`, in which the cell `133128` is registered; in `sampleHeap`
it holds a `gc_ptr` to the small object. -/
def sampleFakeRoots : FakeRoots := .node 262144 133128 1 .null .null

theorem sampleHeap_markWord :
    MarkWord (sampleHeap false) sampleCensus [196608] sampleFakeRoots = sampleHeaders := by
  funext x
  have blocks : objectBlocks (sampleHeap false) sampleCensus [196608] = sampleObjects := by decide
  simp only [MarkWord, blocks, sampleObjects, sampleFakeRoots, FakeRoots.nodes, sampleHeaders,
    List.mem_cons, List.not_mem_nil, or_false, List.append_nil, exists_eq_left, blockData,
    sizeofBlock, or_assoc]
  apply propext
  have node : 262144 = x + 8 ↔ x = 262136 := by omega
  rw [node]

theorem sampleHeap_plainRoot {a : Nat} (cell : a = 133120 ∨ a = 133128) :
    PlainRoot noMemory (sampleHeap false) sampleCensus [196608] sampleFakeRoots a := by
  refine ⟨by omega, sampleHeap_offHeap false (by omega) (by omega), ?_, ?_⟩
  · rcases cell with rfl | rfl <;> decide
  · rw [RootWord, sampleHeap_markWord]
    refine ⟨by simp only [sampleHeaders]; omega, Or.inr (Or.inl ⟨65552, by decide, ?_⟩)⟩
    rcases cell with rfl | rfl <;> decide

theorem sampleHeap_collectionReady :
    CollectionReady noMemory sampleThreads sampleFakeRoots {} (sampleHeap false) sampleCensus
      [196608] := by
  have blocks : objectBlocks (sampleHeap false) sampleCensus [196608] = sampleObjects := by decide
  refine
    { arena := sampleHeap_arena false, heldNil := rfl, fromNil := rfl, noBuckets := fun _ => rfl,
      small := by decide, big := sampleHeap_bigBlocks false, deadUnmarked := by decide,
      graph := ?_, shellApart := ?_, slotPlain := ?_, slotsNodup := ?_, tracks := ?_,
      nodeWord := ?_, stackRoot := ?_, stackRootsNodup := by decide,
      fakeRoot := ?_ }
  · rw [sampleHeap_markWord, blocks]
    exact sampleHeap_graph
  · rw [blocks]
    have bounds : ∀ b ∈ sampleObjects, 131072 ≤ shellOf (sampleHeap false).mem b ∧
      shellOf (sampleHeap false).mem b +
        8 * (2 + shellCount (sampleHeap false).mem (shellOf (sampleHeap false).mem b)) ≤
          131128 := by decide
    intro b mem x lower upper
    have := bounds b mem
    exact sampleHeap_shellWord false (by omega) (by omega)
  · rw [blocks]
    decide
  · rw [blocks]
    decide
  · simp [TracksAll, Tracks]
  · intro n mem
    have : n = (262144, 133128) := by simpa [sampleFakeRoots, FakeRoots.nodes] using mem
    subst this
    refine ⟨262136, rfl, ⟨⟨⟨258048, 8192⟩, by decide, by decide, by decide⟩, ?_⟩, ?_⟩
    · decide
    · decide
  · intro a mem
    have : a = 133120 := by simpa [stackRoots, sampleThreads] using mem
    exact sampleHeap_plainRoot (Or.inl this)
  · intro n mem
    have : n = (262144, 133128) := by simpa [sampleFakeRoots, FakeRoots.nodes] using mem
    subst this
    exact sampleHeap_plainRoot (Or.inr rfl)

theorem markAndSweep_fakeRoot_iff_sampleHeap :
    ∃ t' h' m c' reloc,
      markAndSweep noMemory 32768 sampleThreads sampleFakeRoots ({}, sampleHeap false) =
          .ok (t', h') ∧
        Relocates (stackRoots sampleThreads) { sampleHeap false with mem := m } sampleCensus h' c'
          reloc ∧
            CellFollows sampleThreads {} (sampleHeap false) sampleCensus [196608] h'
              reloc 133128 := by
  have goFuel : GoFuel 32768 (sampleHeap false)
      (objectBlocks (sampleHeap false) sampleCensus [196608]) [196608] := sampleHeap_goFuel
  rcases markAndSweep_fakeRoot_iff sampleHeap_collectionReady goFuel (by decide)
    (by decide +kernel) (ne_error_of_faultOf (by decide +kernel) _) with
    ⟨t', h', m, c', reloc, eq, _, relocates, follows⟩
  exact ⟨t', h', m, c', reloc, eq, relocates, follows (262144, 133128) (by decide)⟩

theorem sampleHeap_fakeRoot : Yields (fun _ => False)
    (fun r => Designates (r.2.mem 133128) 65552 ∧ r.2.freeList = 65536)
    (markAndSweep noMemory 32768 sampleThreads sampleFakeRoots ({}, sampleHeap false)) := by
  decide +kernel

theorem sampleHeap_marks : Yields (fun _ => False)
    (fun r => blockIsMarked (r.2.mem 65552) = true ∧ blockIsPinned (r.2.mem 65552) = false)
    ((collector 32768).markRoots 32768 sampleThreads sampleFakeRoots ({}, sampleHeap false)) := by
  decide +kernel

/-- The fake root of `sampleHeap` dangles after a collection: it keeps its word, while the object it
designated has left its page, and the page is on `free_list`. -/
theorem markAndSweep_fakeRoot_dangles :
    ∃ t₁ h₁ t' h',
      (collector 32768).markRoots 32768 sampleThreads sampleFakeRoots ({}, sampleHeap false) =
          .ok (t₁, h₁) ∧
        markAndSweep noMemory 32768 sampleThreads sampleFakeRoots ({}, sampleHeap false) =
            .ok (t', h') ∧
          Designates ((sampleHeap false).mem 133128) 65552 ∧ h'.freeList = 65536 ∧
            ∀ c' reloc, Relocates (stackRoots sampleThreads) h₁ sampleCensus h' c' reloc →
              ¬Designates (h'.mem 133128) (reloc 65552) := by
  rcases sampleHeap_marks.total with ⟨⟨t₁, h₁⟩, markEq, marked, notPinned⟩
  rcases sampleHeap_fakeRoot.total with ⟨⟨t', h'⟩, eq, word, recycled⟩
  refine ⟨t₁, h₁, t', h', markEq, eq, by decide, recycled, ?_⟩
  intro c' reloc relocates kept
  have same : reloc 65552 = 65552 := kept.unique word
  have isMarked : Marked h₁ sampleCensus 65552 := ⟨65536, by decide, by decide, marked⟩
  have unpinned : ¬HasPinned h₁.mem sampleCensus 65536 := by
    rintro ⟨d, mem, pinned⟩
    have : d = 65552 := by simpa [sampleCensus] using mem
    subst this
    rw [notPinned] at pinned
    cases pinned
  have fresh := relocates.fresh 65536 (by decide) unpinned 65552 (by decide) isMarked 65536
    (by decide) 65552 (by decide)
  omega

end PreciseGc

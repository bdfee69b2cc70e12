import PreciseGc.Roots.ExactMarks
import PreciseGc.Roots.SurvivingRoots

/-!
# Objects after a collection

A full collection without an overflow of the mark stack keeps exactly the live
objects, those that are reachable from its roots.  Each object that is kept has
one place after the collection, with the same size, shape and data.
-/

namespace PreciseGc

open Foundation Memory Relation

variable {pf : Platform} {threads : List ThreadHandler} {fakeRoots : FakeRoots}
  {t t₁ : DerefRoots} {h h₁ h' : Heap} {c c₂ c' : Census} {bigs : List Nat}
  {a b d x y q w big fuel : Nat} {moved : List (Nat × Nat)} {r : SweepState}
  {s' : DerefRoots × Heap} {kept : Nat → Prop}

theorem PlainProcess.collection (plain : PlainProcess pf threads fakeRoots h)
    (fit : ∀ fuel, stackMapsFit fuel threads (t, h) = true) :
    PlainCollection pf threads fakeRoots (t, h) :=
  { plain with fit := fit }

theorem goFitting_fits {pointer : Nat} {pinRoot : Bool} {r : Bool × Heap}
    (eq : goFitting fuel pointer pinRoot h = .ok r) : r.1 = false := by
  unfold goFitting at eq
  rcases bind_eq_ok eq with ⟨r', _, last⟩
  cases overflow : r'.1 with
  | true =>
      rw [overflow] at last
      cases last
  | false =>
      rw [overflow] at last
      cases last
      exact overflow

theorem markStackMap_fits {addresses : List Nat} {s r : Bool × Heap} (clear : s.1 = false)
    (eq : (fitting fuel).markStackMap addresses s = .ok r) : r.1 = false := by
  induction addresses generalizing s with
  | nil =>
      cases eq
      exact clear
  | cons root addresses ih =>
      rcases bind_eq_ok eq with ⟨r', first, rest⟩
      refine ih ?_ rest
      dsimp only
      rw [clear, goFitting_fits first]
      rfl

theorem stackMapsFit_of_fitting {s s₁ : DerefRoots × Heap}
    (eq : (fitting fuel).markThreads fuel threads s = .ok s₁) :
    stackMapsFit fuel threads s = true := by
  induction threads generalizing s with
  | nil => rfl
  | cons thread threads ih =>
      rcases bind_eq_ok eq with ⟨s₂, threadEq, rest⟩
      rcases bind_eq_ok threadEq with ⟨s₃, stackEq, threadEq⟩
      rcases bind_eq_ok threadEq with ⟨r, mapEq, threadEq⟩
      have clear := markStackMap_fits rfl mapEq
      have noRescan : s₂ = (s₃.1, r.2) := by
        rw [clear] at threadEq
        cases fuel <;> exact (Except.ok.inj threadEq).symm
      subst noRescan
      have stack := (fitting_extendedBy.markStack _ s).approximates s₃ stackEq
      have map := (fitting_extendedBy.markStackMap _ _).approximates r mapEq
      rw [stackMapsFit, stack]
      dsimp only
      rw [map]
      dsimp only
      rw [clear, ih rest]
      rfl

/-- A mark phase without an overflow has none in the loops over the `StackMap`s. -/
theorem MarksFit.stackMapsFit {s : DerefRoots × Heap} (fit : MarksFit fuel threads fakeRoots s)
    (fuel' : Nat) : stackMapsFit fuel' threads s = true := by
  rcases fit with ⟨s', eq⟩
  rcases bind_eq_ok eq with ⟨s₁, eq, _⟩
  exact stackMapsFit_of_ok ((fitting_extendedBy.markThreads threads s).approximates s₁ eq)
    (stackMapsFit_of_fitting eq) fuel'

/-- The object is reachable from a root of the mark phase. -/
def Live (threads : List ThreadHandler) (fakeRoots : FakeRoots) (t : DerefRoots) (h : Heap)
    (bigs : List Nat) (b : Nat) : Prop :=
  ∃ d, RootObject h bigs t threads fakeRoots d ∧ Reaches h.mem d b

/-- A collection that marked the objects `kept`, among them those that its roots lead to, and the
handlers found by words of the stacks. -/
structure CollectedKept (pf : Platform) (threads : List ThreadHandler) (fakeRoots : FakeRoots)
    (s : DerefRoots × Heap) (c : Census) (bigs : List Nat) (t₁ : DerefRoots) (h₁ : Heap)
    (moved : List (Nat × Nat)) (r : SweepState) (c₂ : Census) (s' : DerefRoots × Heap) (c' : Census)
    (kept : Nat → Prop) : Prop
    extends MarkedAndSwept pf threads fakeRoots s c bigs t₁ h₁ moved r c₂ s' c' where
  valid : RootsValid pf s.1 s.2 c bigs
  plain : PlainProcess pf threads fakeRoots s.2
  object : ∀ b, kept b → ObjectBlock s.2 b
  root : ∀ b, RootObject s.2 bigs s.1 threads fakeRoots b → kept b
  closed : ∀ b d, kept b → PointsTo s.2.mem b d → kept d
  marked_iff : ∀ b, ObjectBlock s.2 b → (blockIsMarked (h₁.mem b) = true ↔ kept b)
  handlers : s'.1 = (s.1.markHandlers (heapWords s.2 bigs (wordsOf threads))).sweep

/-- A collection that marked the live objects. -/
abbrev CollectedLive (pf : Platform) (threads : List ThreadHandler) (fakeRoots : FakeRoots)
    (s : DerefRoots × Heap) (c : Census) (bigs : List Nat) (t₁ : DerefRoots) (h₁ : Heap)
    (moved : List (Nat × Nat)) (r : SweepState) (c₂ : Census) (s' : DerefRoots × Heap)
    (c' : Census) : Prop :=
  CollectedKept pf threads fakeRoots s c bigs t₁ h₁ moved r c₂ s' c'
    (Live threads fakeRoots s.1 s.2 bigs)

namespace PlainWord

theorem leads_iff (word : PlainWord h w) {m : Memory} : Leads m w b ↔ Designates w b := by
  have plain := word.plain
  simp [Leads, plain]

theorem object (word : PlainWord h w) (designates : Designates w b) : ObjectBlock h b := by
  rcases word with null | ⟨d, isObject, designates'⟩
  · have same := null.2.symm.trans designates.2
    rw [objectOf_eq] at same
    omega
  · rw [designates.unique designates']
    exact isObject

end PlainWord

namespace RootsValid

/-- Plain objects are ready for a mark phase. -/
theorem markReady (valid : RootsValid pf t h c bigs) (plain : PlainProcess pf threads fakeRoots h)
    (enough : GoFuel fuel h (objectBlocks h c bigs) bigs) :
    MarkReady fuel threads fakeRoots t h (objectBlocks h c bigs) bigs
      (MarkWord h c bigs fakeRoots) := by
  have ready : CollectionReady pf threads fakeRoots t h c bigs := valid.processReady plain
  refine
    { graph := ready.graph, goFuel := enough, unmarked := ?_, stands := ?_,
      stackWords := ?_, nodes := ?_, fakeWords := fun n mem => (ready.fakeRoot n mem).root }
  · exact fun b mem => (valid.unflagged b (valid.mem_objectBlocks_iff.mp mem).1).2
  · intro i handler mem
    rcases ready.tracks i handler mem with ⟨b, bMem, pointer, _⟩
    refine ⟨b, bMem, pointer, fun marked => ?_⟩
    rw [valid.unmarked i handler mem] at marked
    cases marked
  · exact fun a mem => (ready.stackRoot a (mem_stackRoots.mpr mem)).root
  · intro n mem
    rcases plain.node n mem with ⟨x, eq, foreign⟩
    refine ⟨x, Or.inr ⟨n, mem, eq⟩, fun inBlocks => ?_, eq⟩
    exact valid.foreign_notHeader foreign (valid.mem_objectBlocks_iff.mp inBlocks).1

/-- What the roots of a process lead to are objects. -/
theorem object_of_root (valid : RootsValid pf t h c bigs)
    (plain : PlainProcess pf threads fakeRoots h)
    (root : RootObject h bigs t threads fakeRoots b) : ObjectBlock h b := by
  rcases root with (⟨w, _, _, handler, found, pointer⟩ | ⟨a, mem, leads⟩) | ⟨a, mem, leads⟩
  · have inChain := List.mem_of_find?_eq_some (lookup_eq_some.mp found).2
    rcases valid.tracks _ handler inChain with ⟨d, dMem, pointer', _⟩
    rw [objectOf_inj (pointer.symm.trans pointer')]
    exact valid.mem_objectBlocks_iff.mp dMem
  · have word := (plain.stackRoot a (mem_stackRoots.mpr mem)).word
    exact word.object (word.leads_iff.mp leads)
  · rcases List.mem_map.mp mem with ⟨n, nMem, rfl⟩
    have word := (plain.fakeRoot n nMem).word
    exact word.object (word.leads_iff.mp leads)

theorem object_of_live (valid : RootsValid pf t h c bigs)
    (plain : PlainProcess pf threads fakeRoots h)
    (isLive : Live threads fakeRoots t h bigs b) : ObjectBlock h b := by
  rcases isLive with ⟨d, root, reaches⟩
  have isObject := valid.object_of_root plain root
  exact valid.mem_objectBlocks_iff.mp
    ((valid.graph plain).reaches_mem (valid.mem_objectBlocks_iff.mpr isObject) reaches)

/-- A collection of plain objects without an overflow, with whatever fuel it returned. -/
theorem collectedLive (valid : RootsValid pf t h c bigs)
    (plain : PlainProcess pf threads fakeRoots h) {fuel₀ : Nat}
    (fit : MarksFit fuel₀ threads fakeRoots (t, h))
    (eq : markAndSweep pf fuel threads fakeRoots (t, h) = .ok s') :
    ∃ t₁ h₁ moved r c₂ c',
      CollectedLive pf threads fakeRoots (t, h) c bigs t₁ h₁ moved r c₂ s' c' := by
  have ready : CollectionReady pf threads fakeRoots t h c bigs := valid.processReady plain
  rcases exists_goFuel h (objectBlocks h c bigs) bigs with ⟨bound, enough⟩
  let fuel' := fuel + fuel₀ + bound + sweepFuel pf c bigs
  have more : fuel ≤ fuel' := by omega
  have eq' := (markAndSweep_extends more pf threads fakeRoots (t, h)).approximates s' eq
  have enough' : GoFuel fuel' h (objectBlocks h c bigs) bigs := enough fuel' (by omega)
  rcases (ready.collected enough' (by omega) (fit.stackMapsFit fuel')).of_ok eq' with
    ⟨t₁, h₁, moved, r, c₂, c', collected⟩
  have fit' : MarksFit fuel' threads fakeRoots (t, h) := fit.mono (by omega)
  rcases (valid.markReady plain enough').markRoots_exactHeap fit' with
    ⟨s₁, marks, exactly, table⟩
  obtain rfl : s₁ = (t₁, h₁) := Except.ok.inj (marks.symm.trans collected.marks)
  refine ⟨t₁, h₁, moved, r, c₂, c', { collected.toMarkedAndSwept with
    valid := valid, plain := plain, object := ?_, root := ?_, closed := ?_, marked_iff := ?_,
    handlers := ?_ }⟩
  · exact fun b => valid.object_of_live plain
  · exact fun b root => ⟨b, root, ReflTransGen.refl⟩
  · rintro b d ⟨e, root, reaches⟩ pointsTo
    exact ⟨e, root, ReflTransGen.tail reaches pointsTo⟩
  · exact fun b isObject => exactly.marks b (valid.mem_objectBlocks_iff.mpr isObject)
  · rw [collected.table]
    exact congrArg _ table

end RootsValid

namespace CollectedKept

variable (live : CollectedKept pf threads fakeRoots (t, h) c bigs t₁ h₁ moved r c₂ s' c' kept)

include live

theorem ready : CollectionReady pf threads fakeRoots t h c bigs :=
  live.valid.processReady live.plain

theorem of_stackPin (isPinned : StackPins h bigs t (wordsOf threads) b) : kept b :=
  live.root b (Or.inl (Or.inl isPinned))

theorem of_stackRoot (mem : a ∈ (stackRoots threads).flatten)
    (designates : Designates (h.mem a) b) : kept b :=
  live.root b (Or.inl (Or.inr ⟨a, mem_stackRoots.mp mem, Or.inl designates⟩))

theorem of_fakeRoot {n : Nat × Nat} (mem : n ∈ fakeRoots.nodes)
    (designates : Designates (h.mem n.2) b) : kept b :=
  live.root b (Or.inr ⟨n.2, List.mem_map_of_mem mem, Or.inl designates⟩)

theorem of_slot (isKept : kept b) (slot : x ∈ slotsOf h.mem b)
    (designates : Designates (h.mem x) d) : kept d :=
  live.closed b d isKept ⟨x, slot, Or.inl designates⟩

/-- Pinned objects are kept. -/
theorem kept_of_pinned (used : InUse h b) (pinned : blockIsPinned (h₁.mem b) = true) :
    kept b := by
  rcases (live.marking.pinned b).mp pinned with old | isPinned
  · rw [(live.valid.unflagged b used).1] at old
    cases old
  · exact live.of_stackPin isPinned

/-- The blocks of pages that survive are those of objects that are kept. -/
theorem survives_iff (qMem : q ∈ c.alive) (bMem : b ∈ c.blocks q) :
    survives h₁.mem b = true ↔ kept b := by
  have used : InUse h b := live.valid.inUse_iff.mpr (Or.inl ⟨q, qMem, bMem⟩)
  simp only [survives, Bool.and_eq_true, Bool.not_eq_true', Bool.or_eq_true, live.marking.dead]
  constructor
  · rintro ⟨notDead, marked | pinned⟩
    · exact (live.marked_iff b ⟨used, notDead⟩).mp marked
    · exact live.kept_of_pinned used pinned
  · intro isKept
    have isObject := live.object b isKept
    exact ⟨isObject.2, Or.inl ((live.marked_iff b isObject).mpr isKept)⟩

theorem bigSurvives_iff (bigMem : big ∈ bigs) :
    bigSurvives h₁.mem big = true ↔ kept (bigHeader big) := by
  have used : InUse h (bigHeader big) := live.valid.inUse_iff.mpr (Or.inr ⟨big, bigMem, rfl⟩)
  have isObject : ObjectBlock h (bigHeader big) := ⟨used, (live.valid.large big bigMem).notDead⟩
  rw [bigSurvives, Bool.or_eq_true]
  constructor
  · rintro (marked | pinned)
    · exact (live.marked_iff _ isObject).mp marked
    · exact live.kept_of_pinned used pinned
  · exact fun isKept => Or.inl ((live.marked_iff _ isObject).mpr isKept)

end CollectedKept

namespace Midway

variable {roots : ThreadRoots} {p : Nat}

/-- Large blocks are not moved. -/
theorem relocate_big (mid : Midway pf roots h c bigs moved r c₂) (bigMem : big ∈ bigs) :
    relocate moved (bigHeader big) = bigHeader big := by
  rcases mid.evacuated with ⟨h₁, _, ev⟩
  apply relocate_of_not_mem
  intro mem
  rcases ev.source_of_mem mem with ⟨q, qMem, _, bMem⟩
  have qTiled := Classifying.tiled_of_alive (show q ∈ c.alive from qMem)
  have := (mid.start.arena.pageOk q qTiled).block_bounds bMem
  have := mid.start.big.pages big bigMem q (Arena.tiled_pages qTiled)
  have := bigLength_ge pf h.mem big
  simp only [bigHeader] at *
  omega

/-- The headers of blocks after the evacuation are those after the sweep. -/
theorem header_final (mid : Midway pf roots h c bigs moved r c₂)
    (fin : Finished pf roots r c₂ h' c') (pMem : p ∈ c₂.alive) (dMem : d ∈ c₂.blocks p) :
    h'.mem d = r.heap.mem d := by
  have pTiled := Classifying.tiled_of_alive pMem
  have bounds := (mid.arena.pageOk p pTiled).block_bounds dMem
  exact fin.frame (mid.header_not_redirected pTiled dMem)
    (mid.alive_notLink pMem (by omega) (by omega))

end Midway

/-- The block `d` of `h'` holds the object of the block `b` of `h`: it has the same size and shape,
and the same data outside the slots. -/
structure HeldBy (h h' : Heap) (b d : Nat) : Prop where
  object : ObjectBlock h' d
  size : blockSize (h'.mem d) = blockSize (h.mem b)
  shape : SameShape h.mem b h'.mem d
  data : ∀ o < blockSize (h.mem b), b + 8 + o ∉ slotsOf h.mem b →
    h'.mem (d + 8 + o) = h.mem (b + 8 + o)

theorem SameShape.trans {m m' m'' : Memory} {b' b'' : Nat} (first : SameShape m b m' b')
    (second : SameShape m' b' m'' b'') : SameShape m b m'' b'' where
  shell := second.shell.trans first.shell
  count := second.count.trans first.count
  size := first.shell ▸ second.size.trans (first.shell ▸ first.size)
  slots := first.shell ▸ second.slots.trans (first.shell ▸ first.slots)
  offset j less := by
    have later := second.offset j (by rw [first.shell, first.slots]; exact less)
    rw [first.shell] at later
    rw [later, first.offset j less]

namespace CollectedKept

variable (live : CollectedKept pf threads fakeRoots (t, h) c bigs t₁ h₁ moved r c₂ s' c' kept)

include live

/-- The mark phase keeps what objects hold. -/
theorem marked_held (isObject : ObjectBlock h b) : SameShape h.mem b h₁.mem b ∧
    blockSize (h₁.mem b) = blockSize (h.mem b) ∧ slotsOf h₁.mem b = slotsOf h.mem b ∧
      ∀ x, b + 8 ≤ x → x < b + 8 + blockSize (h.mem b) → h₁.mem x = h.mem x := by
  have inBlocks := live.valid.mem_objectBlocks_iff.mpr isObject
  refine ⟨live.ready.graph.shape live.marking inBlocks, live.marking.size b,
    live.ready.graph.slotsOf_eq live.marking inBlocks, fun x lower upper => ?_⟩
  exact live.marking.others x (live.ready.graph.dataApart b inBlocks x (by omega) upper)

/-- The object of a large block after the mark phase. -/
theorem marked_large (isObject : ObjectBlock h (bigHeader big)) :
    GcObject h₁.mem (ShellWord pf (stackRoots threads) h₁ c bigs) (bigHeader big) := by
  have inBlocks := live.valid.mem_objectBlocks_iff.mpr isObject
  have object : GcObject h.mem (ShellWord pf (stackRoots threads) h c bigs) (bigHeader big) :=
    { live.ready.graph.object _ inBlocks with shellApart := live.ready.shellApart _ inBlocks }
  refine (live.marked_held isObject).1.gcObject object (live.marking.size _) fun x apart => ?_
  exact ⟨live.offHeap_iff.mpr apart.1, apart.2⟩

/-- An object that is kept is held at its place. -/
theorem held (isKept : kept b) :
    HeldBy h s'.2 b (relocate moved b) := by
  have isObject := live.object b isKept
  have state := live.allocatorState live.valid
  rcases live.marked_held isObject with ⟨shape, size, slots, data⟩
  rcases live.valid.inUse_iff.mp isObject.1 with ⟨q, qMem, bMem⟩ | ⟨big, bigMem, rfl⟩
  · have alive := (live.survives_iff qMem bMem).mpr isKept
    have shape' := live.mid.shape_final live.fin qMem bMem alive
    rcases live.mid.image qMem bMem alive with ⟨image, notDead, p, pMem, dMem⟩
    have header := live.mid.header_final live.fin pMem dMem
    refine ⟨⟨state.inUse_iff.mpr (Or.inl ?_), ?_⟩, ?_, shape.trans shape', ?_⟩
    · rw [live.fin.census]
      exact ⟨p, pMem, dMem⟩
    · rw [header]
      exact notDead
    · rw [header, image.size, size]
    · intro o less notSlot
      rw [← slots] at notSlot
      have word := live.mid.image_word live.fin qMem bMem alive (by omega)
        (by rw [size]; omega) notSlot
      rw [show b + 8 + o - b + relocate moved b = relocate moved b + 8 + o by omega] at word
      rw [word, image.data o (by rw [size]; exact less), data _ (by omega) (by omega)]
  · have alive := (live.bigSurvives_iff bigMem).mpr isKept
    have header := live.mid.bigHeader_eq live.fin bigMem alive
    have shape' := live.mid.largeShape live.fin bigMem alive (live.marked_large isObject)
    rw [live.mid.relocate_big bigMem]
    refine ⟨⟨state.inUse_iff.mpr (Or.inr ⟨big, List.mem_filter.mpr ⟨bigMem, alive⟩, rfl⟩), ?_⟩, ?_,
      shape.trans shape', ?_⟩
    · rw [header, (flags_unmark_unpin _).2.2, live.marking.dead]
      exact isObject.2
    · rw [header, blockSize_unmarkBlock, blockSize_unpinBlock, size]
    · intro o less _
      have length := bigLength_ge pf h₁.mem big
      rw [size] at length
      rw [live.mid.bigData_eq live.fin bigMem alive, data _ (by omega) (by omega)]
      · simp only [bigData, sizeofBigBlock, bigHeader]
        omega
      · simp only [bigHeader] at less length ⊢
        omega

/-- The objects after the collection are those that were kept. -/
theorem origin (isObject : ObjectBlock s'.2 d) :
    ∃ b, kept b ∧ d = relocate moved b := by
  have state := live.allocatorState live.valid
  rcases state.inUse_iff.mp isObject.1 with ⟨p, pMem, dMem⟩ | ⟨big, bigMem, rfl⟩
  · rw [live.fin.census] at pMem dMem
    rcases live.mid.origin pMem dMem with ⟨q, qMem, b, bMem, _, survivor⟩
    have notDead := isObject.2
    rw [live.mid.header_final live.fin pMem dMem] at notDead
    rcases survivor notDead with ⟨alive, eq⟩
    exact ⟨b, (live.survives_iff qMem bMem).mp alive, eq⟩
  · rcases List.mem_filter.mp bigMem with ⟨bigMem, alive⟩
    exact ⟨bigHeader big, (live.bigSurvives_iff bigMem).mp alive,
      (live.mid.relocate_big bigMem).symm⟩

/-- Different objects have different places. -/
theorem relocate_inj (bKept : kept b)
    (dKept : kept d) (same : relocate moved b = relocate moved d) :
    b = d := by
  have state := live.allocatorState live.valid
  have place : ∀ q ∈ c.alive, ∀ e ∈ c.blocks q, kept e →
      ∀ big ∈ bigs, kept (bigHeader big) →
        relocate moved e ≠ relocate moved (bigHeader big) := by
    intro q qMem e eMem eKept big bigMem bigKept sameplace
    have alive := (live.bigSurvives_iff bigMem).mpr bigKept
    rcases live.mid.image qMem eMem ((live.survives_iff qMem eMem).mpr eKept) with
      ⟨_, _, p, pMem, inPage⟩
    rw [live.mid.relocate_big bigMem] at sameplace
    have pTiled : p ∈ c'.tiled := by
      rw [live.fin.census]
      exact Classifying.tiled_of_alive (show p ∈ c₂.alive from pMem)
    have inPage' : bigHeader big ∈ c'.blocks p := by
      rw [live.fin.census, ← sameplace]
      exact inPage
    have := (state.arena.pageOk p pTiled).block_bounds inPage'
    have := state.big.pages big (List.mem_filter.mpr ⟨bigMem, alive⟩) p (Arena.tiled_pages pTiled)
    have := bigLength_ge pf s'.2.mem big
    simp only [bigHeader] at *
    omega
  rcases live.valid.inUse_iff.mp (live.object b bKept).1 with
    ⟨q, qMem, bMem⟩ | ⟨big, bigMem, rfl⟩
  · rcases live.valid.inUse_iff.mp (live.object d dKept).1 with
      ⟨p, pMem, dMem⟩ | ⟨big, bigMem, rfl⟩
    · rcases live.mid.evacuated with ⟨_, _, ev⟩
      exact ev.relocate_inj qMem bMem pMem dMem same
    · exact absurd same (place q qMem b bMem bKept big bigMem dKept)
  · rcases live.valid.inUse_iff.mp (live.object d dKept).1 with
      ⟨p, pMem, dMem⟩ | ⟨big', bigMem', rfl⟩
    · exact absurd same.symm (place p pMem d dMem dKept big bigMem bKept)
    · rwa [live.mid.relocate_big bigMem, live.mid.relocate_big bigMem'] at same

end CollectedKept

end PreciseGc

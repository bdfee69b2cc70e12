import PreciseGc.Roots.FakeRootReferences
import PreciseGc.Roots.Fuel
import PreciseGc.Roots.RootRuns

/-!
# Plain collections

A full collection is plain if it starts from objects and roots with plain
pointers to objects and no traversal from a `StackMap` root overflows the mark
stack.  Together with the invariant of a run this is what the mark phase and the
sweep rely on.
-/

namespace PreciseGc

open Foundation

variable {pf : Platform} {threads : List ThreadHandler} {fakeRoots : FakeRoots} {t : DerefRoots}
  {h : Heap} {c : Census} {bigs : List Nat} {b x fuel : Nat}

/-- The pointer word is null or designates an object. -/
def PlainWord (h : Heap) (w : Nat) : Prop := IsNull w ∨ ∃ b, ObjectBlock h b ∧ Designates w b

/-- The word in front of a node of the fake roots, in which `mark_node` sets a flag. -/
def NodeWord (fakeRoots : FakeRoots) (x : Nat) : Prop := ∃ n ∈ fakeRoots.nodes, n.1 = blockData x

/-- A registered `gc_ptr` outside the heap with a plain pointer to an object, or null. -/
structure PlainCell (pf : Platform) (h : Heap) (fakeRoots : FakeRoots) (a : Nat) : Prop where
  nonnull : a ≠ 0
  foreign : Foreign pf h a
  notNode : ¬NodeWord fakeRoots a
  word : PlainWord h (h.mem a)

/-- A full collection starts from a heap in which every block in use that is not dead holds an
object as `gc_new` lays it out, all pointers in slots and roots are plain and designate objects, and
no traversal from a `StackMap` root overflows the mark stack. -/
structure PlainCollection (pf : Platform) (threads : List ThreadHandler) (fakeRoots : FakeRoots)
    (s : DerefRoots × Heap) : Prop where
  small : pf.bigBlockThreshold < freeBlocksLength
  object : ∀ b, ObjectBlock s.2 b → GcObject s.2.mem (fun x => Foreign pf s.2 x ∧
    x ∉ (stackRoots threads).flatten ∧ ¬NodeWord fakeRoots x) b
  slot : ∀ b, ObjectBlock s.2 b → ∀ x ∈ slotsOf s.2.mem b, PlainWord s.2 (s.2.mem x)
  slotsNodup : ∀ b, ObjectBlock s.2 b → (slotsOf s.2.mem b).Nodup
  node : ∀ n ∈ fakeRoots.nodes, ∃ x, n.1 = blockData x ∧ Foreign pf s.2 x
  stackRoot : ∀ a ∈ (stackRoots threads).flatten, PlainCell pf s.2 fakeRoots a
  stackRootsNodup : (stackRoots threads).flatten.Nodup
  fakeRoot : ∀ n ∈ fakeRoots.nodes, PlainCell pf s.2 fakeRoots n.2
  fit : ∀ fuel, stackMapsFit fuel threads s = true

/-- What a plain collection asks of the heap: all blocks in use that are not dead hold objects as
`gc_new` lays them out, and all pointers in slots and roots are plain and designate objects. -/
structure PlainProcess (pf : Platform) (threads : List ThreadHandler) (fakeRoots : FakeRoots)
    (h : Heap) : Prop where
  small : pf.bigBlockThreshold < freeBlocksLength
  object : ∀ b, ObjectBlock h b → GcObject h.mem (fun x => Foreign pf h x ∧
    x ∉ (stackRoots threads).flatten ∧ ¬NodeWord fakeRoots x) b
  slot : ∀ b, ObjectBlock h b → ∀ x ∈ slotsOf h.mem b, PlainWord h (h.mem x)
  slotsNodup : ∀ b, ObjectBlock h b → (slotsOf h.mem b).Nodup
  node : ∀ n ∈ fakeRoots.nodes, ∃ x, n.1 = blockData x ∧ Foreign pf h x
  stackRoot : ∀ a ∈ (stackRoots threads).flatten, PlainCell pf h fakeRoots a
  stackRootsNodup : (stackRoots threads).flatten.Nodup
  fakeRoot : ∀ n ∈ fakeRoots.nodes, PlainCell pf h fakeRoots n.2

theorem PlainCollection.process {s : DerefRoots × Heap}
    (plain : PlainCollection pf threads fakeRoots s) : PlainProcess pf threads fakeRoots s.2 :=
  { plain with }

/-- One run through the threads that returns without an overflow shows that no fuel leads to
one. -/
theorem stackMapsFit_of_ok {s s₁ : DerefRoots × Heap}
    (returned : (collector fuel).markThreads fuel threads s = .ok s₁)
    (fit : stackMapsFit fuel threads s = true) (fuel' : Nat) :
    stackMapsFit fuel' threads s = true := by
  have lower := Nat.le_max_left fuel fuel'
  have upper := Nat.le_max_right fuel fuel'
  induction threads generalizing s with
  | nil => rfl
  | cons thread threads ih =>
      rcases bind_eq_ok returned with ⟨s₂, threadEq, rest⟩
      rcases bind_eq_ok threadEq with ⟨s₃, stackEq, threadEq⟩
      rcases bind_eq_ok threadEq with ⟨r, mapEq, threadEq⟩
      simp only [stackMapsFit, stackEq, mapEq, Bool.and_eq_true, Bool.not_eq_true'] at fit
      rw [fit.1] at threadEq
      have noRescan : s₂ = (s₃.1, r.2) := by
        cases fuel <;> exact (Except.ok.inj threadEq).symm
      subst noRescan
      unfold stackMapsFit
      split
      · rfl
      · rename_i s₃' stackEq'
        -- with the larger fuel both runs have the same results
        have stack := (markStack_extends lower true thread.stackWords s).approximates s₃ stackEq
        have stack' := (markStack_extends upper true thread.stackWords s).approximates s₃' stackEq'
        obtain rfl : s₃' = s₃ := Except.ok.inj (stack'.symm.trans stack)
        split
        · rfl
        · rename_i r' mapEq'
          have map := (markStackMap_extends lower thread.stack _).approximates r mapEq
          have map' := (markStackMap_extends upper thread.stack _).approximates r' mapEq'
          obtain rfl : r' = r := Except.ok.inj (map'.symm.trans map)
          rw [fit.1, ih rest fit.2]
          rfl

theorem PlainWord.plain {w : Nat} (word : PlainWord h w) : isCompositePointer w = false := by
  rcases word with null | ⟨_, _, designates⟩
  · exact null.1
  · exact designates.1

/-- A page of the arena lies in a mapping recorded in `parts`. -/
theorem Arena.inParts {fromHead aliveHead q : Nat} (arena : Arena pf fromHead aliveHead h c)
    (mem : q ∈ c.pages) : ∃ part ∈ h.parts, part.start ≤ q ∧ q + pf.pageSize ≤ part.stop := by
  rcases List.mem_flatMap.mp (arena.owned.mem_iff.mp mem) with ⟨part, partMem, inPart⟩
  simp only [HeapPart.pages, List.mem_map, List.mem_range] at inPart
  rcases inPart with ⟨i, less, rfl⟩
  have large := pf.pageSize_ge
  have whole : (i + 1) * pf.pageSize ≤ part.stop - part.start :=
    (Nat.mul_le_mul_right _ less).trans (Nat.div_mul_le_self _ _)
  rw [Nat.succ_mul] at whole
  exact ⟨part, partMem, by omega, by omega⟩

namespace RootsValid

theorem mem_objectBlocks_iff (valid : RootsValid pf t h c bigs) :
    b ∈ objectBlocks h c bigs ↔ ObjectBlock h b := by
  simp only [ObjectBlock, objectBlocks, List.mem_append, List.mem_filter, List.mem_flatMap,
    Bool.not_eq_true', List.mem_map, valid.inUse_iff, Census.Used]
  constructor
  · rintro (⟨⟨q, qMem, bMem⟩, notDead⟩ | ⟨big, bigMem, rfl⟩)
    · exact ⟨Or.inl ⟨q, qMem, bMem⟩, notDead⟩
    · exact ⟨Or.inr ⟨big, bigMem, rfl⟩, (valid.large big bigMem).notDead⟩
  · rintro ⟨⟨q, qMem, bMem⟩ | ⟨big, bigMem, rfl⟩, notDead⟩
    · exact Or.inl ⟨⟨q, qMem, bMem⟩, notDead⟩
    · exact Or.inr ⟨big, bigMem, rfl⟩

/-- No header of a block in use is foreign. -/
theorem foreign_notHeader (valid : RootsValid pf t h c bigs) (foreign : Foreign pf h x) :
    ¬InUse h x := fun used => valid.header_not_writable (Or.inr foreign) used rfl

theorem foreign_notMarkWord (valid : RootsValid pf t h c bigs) (foreign : Foreign pf h x)
    (notNode : ¬NodeWord fakeRoots x) : ¬MarkWord h c bigs fakeRoots x := by
  rintro (inBlocks | isNode)
  · exact valid.foreign_notHeader foreign (valid.mem_objectBlocks_iff.mp inBlocks).1
  · exact notNode isNode

theorem pointsInto (valid : RootsValid pf t h c bigs) {w : Nat} (word : PlainWord h w) :
    PointsInto h.mem (objectBlocks h c bigs) (MarkWord h c bigs fakeRoots) w := by
  rcases word with null | ⟨b, isObject, designates⟩
  · exact Or.inl null
  · exact Or.inr (Or.inl ⟨b, valid.mem_objectBlocks_iff.mpr isObject, designates⟩)

theorem plainRoot (valid : RootsValid pf t h c bigs) {a : Nat}
    (cell : PlainCell pf h fakeRoots a) : PlainRoot pf h c bigs fakeRoots a where
  nonnull := cell.nonnull
  offHeap := valid.foreign_iff.mp cell.foreign
  plain := cell.word.plain
  root := ⟨valid.foreign_notMarkWord cell.foreign cell.notNode, valid.pointsInto cell.word⟩

/-- The start of an object lies in the heap. -/
theorem object_inHeap (valid : RootsValid pf t h c bigs) {apart : Nat → Prop}
    (used : InUse h b) (object : GcObject h.mem apart b) : InHeap h bigs (objectOf b) := by
  have room := object.room
  rw [objectOf_eq]
  rcases valid.inUse_iff.mp used with ⟨q, qMem, bMem⟩ | ⟨big, bigMem, rfl⟩
  · have qTiled := Classifying.tiled_of_alive qMem
    have := (valid.arena.pageOk q qTiled).block_bounds bMem
    rcases valid.arena.inParts (Arena.tiled_pages qTiled) with ⟨part, partMem, low, high⟩
    exact Or.inl ⟨part, partMem, by omega, by omega⟩
  · have size := (valid.large big bigMem).size
    have := pf.bigBlockThreshold_add
    have := pf.pageSize_ge
    refine Or.inr ⟨big, bigMem, ?_, ?_⟩
    · simp only [bigHeader]
      omega
    · simp only [bigHeader] at size ⊢
      simp only [bigData, sizeofBigBlock]
      omega

theorem object_bounded (valid : RootsValid pf t h c bigs) (used : InUse h b) :
    b + 8 + blockSize (h.mem b) ≤ wordSpace := by
  rcases valid.inUse_iff.mp used with ⟨q, qMem, bMem⟩ | ⟨big, bigMem, rfl⟩
  · have qTiled := Classifying.tiled_of_alive qMem
    have := (valid.arena.pageOk q qTiled).block_bounds bMem
    have := valid.arena.bounded q (Arena.tiled_pages qTiled)
    omega
  · have := (valid.large big bigMem).bounded
    simp only [bigHeader] at this ⊢
    omega

/-- Plain objects form a graph for the traversal. -/
theorem graph (valid : RootsValid pf t h c bigs) (plain : PlainProcess pf threads fakeRoots h) :
    ObjectGraph h (objectBlocks h c bigs) bigs (MarkWord h c bigs fakeRoots) := by
  have isObject : ∀ b ∈ objectBlocks h c bigs, ObjectBlock h b := fun b mem =>
    valid.mem_objectBlocks_iff.mp mem
  have nodeOff : ∀ x, NodeWord fakeRoots x → Foreign pf h x := by
    rintro x ⟨n, mem, eq⟩
    rcases plain.node n mem with ⟨y, nodeEq, foreign⟩
    have same : x = y := blockData_inj (eq.symm.trans nodeEq)
    exact same ▸ foreign
  refine
    { header := fun b mem => Or.inl mem, object := ?_, dataApart := ?_, bounded := ?_,
      bigChain := valid.big.chain, bigApart := ?_, inHeap := ?_, pointer := ?_ }
  · intro b mem
    exact (plain.object b (isObject b mem)).mono fun x apart =>
      valid.foreign_notMarkWord apart.1 apart.2.2
  · intro b mem x lower upper isWord
    have used := valid.inUse_iff.mp (isObject b mem).1
    rcases isWord with inBlocks | isNode
    · have used' := valid.inUse_iff.mp (isObject x inBlocks).1
      have := valid.used_disjoint used used' (by omega)
      omega
    · have := valid.used_offHeap used (valid.foreign_iff.mp (nodeOff x isNode))
      omega
  · exact fun b mem => valid.object_bounded (isObject b mem).1
  · intro big mem isWord
    have length := bigLength_ge pf h.mem big
    rcases isWord with inBlocks | isNode
    · rcases valid.inUse_iff.mp (isObject big inBlocks).1 with ⟨q, qMem, bMem⟩ | ⟨d, dMem, same⟩
      · have qTiled := Classifying.tiled_of_alive qMem
        have := (valid.arena.pageOk q qTiled).block_bounds bMem
        have := valid.big.pages big mem q (Arena.tiled_pages qTiled)
        omega
      · exact (valid.big.list.words_ne mem dMem).1 same
    · have := (valid.foreign_iff.mp (nodeOff big isNode)).2 big mem
      omega
  · intro b mem
    exact valid.object_inHeap (isObject b mem).1 (plain.object b (isObject b mem))
  · exact fun b mem x slot => valid.pointsInto (plain.slot b (isObject b mem) x slot)

/-- The handlers stand for objects, and none is marked. -/
theorem tracks (valid : RootsValid pf t h c bigs) : TracksAll h (objectBlocks h c bigs) t := by
  intro i handler mem
  rcases valid.registers i handler.range (List.mem_map_of_mem mem) with
    ⟨_, _, ⟨b, isObject, start⟩, _⟩
  refine ⟨b, valid.mem_objectBlocks_iff.mpr isObject, start, fun marked => ?_⟩
  rw [valid.unmarked i handler mem] at marked
  cases marked

/-- A heap of plain objects that satisfies the invariant is ready for a collection. -/
theorem processReady (valid : RootsValid pf t h c bigs)
    (plain : PlainProcess pf threads fakeRoots h) :
    CollectionReady pf threads fakeRoots t h c bigs := by
  have isObject : ∀ b ∈ objectBlocks h c bigs, ObjectBlock h b := fun b mem =>
    valid.mem_objectBlocks_iff.mp mem
  refine
    { arena := valid.arena, heldNil := valid.heldNil, fromNil := valid.fromNil,
      noBuckets := valid.noBuckets, small := plain.small, big := valid.big, deadUnmarked := ?_,
      graph := valid.graph plain, shellApart := ?_, slotPlain := ?_, slotsNodup := ?_,
      tracks := valid.tracks, nodeWord := ?_, stackRoot := ?_,
      stackRootsNodup := plain.stackRootsNodup, fakeRoot := ?_ }
  · intro q qMem b bMem
    rw [(valid.unflagged b (valid.inUse_iff.mpr (Or.inl ⟨q, qMem, bMem⟩))).2, Bool.and_false]
  · intro b mem x lower upper
    have apart := (plain.object b (isObject b mem)).shellApart x lower upper
    exact ⟨valid.foreign_iff.mp apart.1, apart.2.1⟩
  · exact fun b mem x slot => (plain.slot b (isObject b mem) x slot).plain
  · exact fun b mem => plain.slotsNodup b (isObject b mem)
  · intro n mem
    rcases plain.node n mem with ⟨x, eq, foreign⟩
    exact ⟨x, eq, valid.foreign_iff.mp foreign⟩
  · exact fun a mem => valid.plainRoot (plain.stackRoot a mem)
  · exact fun n mem => valid.plainRoot (plain.fakeRoot n mem)

/-- A plain collection of a heap that satisfies the invariant goes through. -/
theorem collectionReady (valid : RootsValid pf t h c bigs)
    (plain : PlainCollection pf threads fakeRoots (t, h)) :
    CollectionReady pf threads fakeRoots t h c bigs := valid.processReady plain.process

end RootsValid

end PreciseGc

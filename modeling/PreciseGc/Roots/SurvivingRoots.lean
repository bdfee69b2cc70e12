import PreciseGc.Allocator.BigMappings
import PreciseGc.Mark.Termination
import PreciseGc.Roots.PlainCollections

/-!
# Dereferenced roots that survive

A full collection pins the objects whose handlers it marks, leaves pinned blocks
where they are, and removes the handlers that are not marked.  In a run whose
full collections are all plain, every handler stands for an object in use.
-/

namespace PreciseGc

open Foundation Memory

variable {pf : Platform} {threads : List ThreadHandler} {fakeRoots : FakeRoots}
  {t t₁ : DerefRoots} {h h₁ h' : Heap} {c c₂ c' : Census} {bigs : List Nat} {b x big fuel : Nat}
  {moved : List (Nat × Nat)} {r : SweepState} {s' : DerefRoots × Heap}

/-- What a full collection does with a pinned object, where `h₁` is the heap after the mark phase:
the block stays in use at its place with its size and contents, and is not dead. -/
structure StaysPinned (h h₁ h' : Heap) (b : Nat) : Prop where
  before : ObjectBlock h b
  pinned : blockIsPinned (h₁.mem b) = true
  after : ObjectBlock h' b
  size : blockSize (h'.mem b) = blockSize (h.mem b)
  data : ∀ x, blockData b ≤ x → x < blockData b + blockSize (h.mem b) → x ∉ slotsOf h.mem b →
    h'.mem x = h.mem x

namespace Midway

variable {roots : ThreadRoots}

/-- The header of a surviving big block loses its flags. -/
theorem bigHeader_eq (mid : Midway pf roots h c bigs moved r c₂)
    (fin : Finished pf roots r c₂ h' c') (mem : big ∈ bigs)
    (alive : bigSurvives h.mem big = true) :
    h'.mem (bigHeader big) = unmarkBlock (unpinBlock (h.mem (bigHeader big))) := by
  rcases bigHeader_bounds pf h.mem big with ⟨lower, upper⟩
  rcases mid.big_outside mem alive lower upper with ⟨out, _, header⟩
  rw [fin.frame (mid.big_not_redirected mem alive lower upper) (outside_notLink out)]
  exact header rfl

/-- The header of a block in a page that survives and stays where it is. -/
theorem stays_block (mid : Midway pf roots h c bigs moved r c₂)
    (fin : Finished pf roots r c₂ h' c') {q : Nat} (qMem : q ∈ c.alive) (bMem : b ∈ c.blocks q)
    (notDead : blockIsDead (h.mem b) = false) (pinned : blockIsPinned (h.mem b) = true) :
    (∃ q ∈ c'.alive, b ∈ c'.blocks q) ∧ blockIsDead (h'.mem b) = false ∧
      blockSize (h'.mem b) = blockSize (h.mem b) ∧
        ∀ x, b + 8 ≤ x → x < b + 8 + blockSize (h.mem b) → x ∉ slotsOf h.mem b →
          h'.mem x = h.mem x := by
  have alive : survives h.mem b = true := by simp [survives, notDead, pinned]
  have place := mid.relocate_pinned qMem ⟨b, bMem, pinned⟩ bMem
  have image := mid.image qMem bMem alive
  rw [place] at image
  have word : ∀ x, b ≤ x → x < b + 8 + blockSize (h.mem b) → x ∉ slotsOf h.mem b →
      h'.mem x = r.heap.mem x := by
    intro x lower upper notSlot
    have same := mid.image_word fin qMem bMem alive lower upper notSlot
    rwa [place, Nat.sub_add_cancel lower] at same
  have notSlot : b ∉ slotsOf h.mem b := by
    intro slot
    have := (mid.ready.object q qMem b bMem alive).slot_bounds slot
    omega
  have header := word b (Nat.le_refl _) (by omega) notSlot
  refine ⟨?_, ?_, ?_, fun x lower upper notSlot => ?_⟩
  · rw [fin.census]
    exact image.2.2
  · rw [header]
    exact image.2.1
  · rw [header]
    exact image.1.size
  · have data := image.1.data (x - b - 8) (by omega)
    rw [show b + 8 + (x - b - 8) = x by omega] at data
    exact (word x (by omega) upper notSlot).trans data

end Midway

namespace MarkedAndSwept

/-- The heap that the mark phase leaves. -/
theorem marked_heap
    (collected : MarkedAndSwept pf threads fakeRoots (t, h) c bigs t₁ h₁ moved r c₂ s' c') :
    h₁ = { h with mem := h₁.mem } := collected.phase.heapEq

theorem allocatorState
    (collected : MarkedAndSwept pf threads fakeRoots (t, h) c bigs t₁ h₁ moved r c₂ s' c')
    (valid : RootsValid pf t h c bigs) :
    AllocatorState pf s'.2 c' (bigs.filter (bigSurvives h₁.mem)) := by
  apply collected.mid.allocatorState collected.fin
  rw [collected.marked_heap]
  exact valid.regions

theorem marking
    (collected : MarkedAndSwept pf threads fakeRoots (t, h) c bigs t₁ h₁ moved r c₂ s' c') :
    Marking (MarkWord h c bigs fakeRoots)
      (StackPins h bigs t (threads.flatMap ThreadHandler.stackWords)) h.mem h₁.mem :=
  collected.phase.marking

/-- A pinned object survives at its place. -/
theorem stays (collected : MarkedAndSwept pf threads fakeRoots (t, h) c bigs t₁ h₁ moved r c₂ s' c')
    (valid : RootsValid pf t h c bigs) (ready : CollectionReady pf threads fakeRoots t h c bigs)
    (isObject : ObjectBlock h b) (pinned : blockIsPinned (h₁.mem b) = true) :
    StaysPinned h h₁ s'.2 b := by
  have marking := collected.marking
  have state := collected.allocatorState valid
  have inBlocks := valid.mem_objectBlocks_iff.mpr isObject
  have sizeEq := marking.size b
  have slotsEq := ready.graph.slotsOf_eq marking inBlocks
  have dataEq : ∀ x, b + 8 ≤ x → x < b + 8 + blockSize (h.mem b) → h₁.mem x = h.mem x := by
    intro x lower upper
    exact marking.others x (ready.graph.dataApart b inBlocks x (by omega) upper)
  rcases valid.inUse_iff.mp isObject.1 with ⟨q, qMem, bMem⟩ | ⟨big, bigMem, rfl⟩
  · have notDead : blockIsDead (h₁.mem b) = false := (marking.dead b).trans isObject.2
    rcases collected.mid.stays_block collected.fin qMem bMem notDead pinned with
      ⟨inPage, notDead', size, data⟩
    refine ⟨isObject, pinned, ⟨state.inUse_iff.mpr (Or.inl inPage), notDead'⟩,
      size.trans sizeEq, fun x lower upper notSlot => ?_⟩
    rw [← sizeEq] at upper
    rw [← slotsEq] at notSlot
    exact (data x lower upper notSlot).trans (dataEq x lower (sizeEq ▸ upper))
  · have alive : bigSurvives h₁.mem big = true := by rw [bigSurvives, pinned, Bool.or_true]
    have header := collected.mid.bigHeader_eq collected.fin bigMem alive
    have inUse : InUse s'.2 (bigHeader big) :=
      state.inUse_iff.mpr (Or.inr ⟨big, List.mem_filter.mpr ⟨bigMem, alive⟩, rfl⟩)
    refine ⟨isObject, pinned, ⟨inUse, ?_⟩, ?_, fun x lower upper _ => ?_⟩
    · rw [header, (flags_unmark_unpin _).2.2, marking.dead]
      exact isObject.2
    · rw [header, blockSize_unmarkBlock, blockSize_unpinBlock]
      exact sizeEq
    · have length := bigLength_ge pf h₁.mem big
      simp only [blockData, sizeofBlock, bigHeader] at lower upper sizeEq length
      rw [collected.mid.bigData_eq collected.fin bigMem alive]
      · exact dataEq x lower (by simpa only [bigHeader] using upper)
      · simp only [bigData, sizeofBigBlock]
        omega
      · simp only [bigHeader] at *
        omega

/-- The handlers that are left stand for pinned objects. -/
theorem handler_stays
    (collected : MarkedAndSwept pf threads fakeRoots (t, h) c bigs t₁ h₁ moved r c₂ s' c')
    (valid : RootsValid pf t h c bigs) (ready : CollectionReady pf threads fakeRoots t h c bigs)
    {i : Nat} {handler : RootHandler} (mem : handler ∈ s'.1.roots i) :
    ∃ b, handler.plainPointer = objectOf b ∧ StaysPinned h h₁ s'.2 b := by
  rw [collected.table] at mem
  rcases List.mem_map.mp mem with ⟨handler₁, mem₁, rfl⟩
  rcases List.mem_filter.mp mem₁ with ⟨inChain, marked⟩
  rcases collected.phase.tracks i handler₁ inChain with ⟨b, inBlocks, pointer, pinned⟩
  refine ⟨b, ?_, ?_⟩
  · rw [RootHandler.plainPointer_unmark]
    exact pointer
  · exact collected.stays valid ready (valid.mem_objectBlocks_iff.mp inBlocks) (pinned marked)

/-- A full collection keeps the invariant. -/
theorem rootsValid
    (collected : MarkedAndSwept pf threads fakeRoots (t, h) c bigs t₁ h₁ moved r c₂ s' c')
    (valid : RootsValid pf t h c bigs) (ready : CollectionReady pf threads fakeRoots t h c bigs) :
    RootsValid pf s'.1 s'.2 c' (bigs.filter (bigSurvives h₁.mem)) := by
  have marking := collected.marking
  refine
    { collected.allocatorState valid with
      unflagged := collected.mid.unflagged collected.fin, large := ?_, registers := ?_,
      unmarked := ?_ }
  · intro big mem
    rcases List.mem_filter.mp mem with ⟨bigMem, alive⟩
    have header := collected.mid.bigHeader_eq collected.fin bigMem alive
    have before := valid.large big bigMem
    refine ⟨before.aligned, ?_, ?_, ?_⟩
    · rw [header, (flags_unmark_unpin _).2.2, marking.dead]
      exact before.notDead
    · rw [header, blockSize_unmarkBlock, blockSize_unpinBlock, marking.size]
      exact before.size
    · rw [header, blockSize_unmarkBlock, blockSize_unpinBlock, marking.size]
      exact before.bounded
  · intro i range mem
    have kept : Registers (fun root _ => StartsObject h root) t₁.sweep :=
      (valid.registers.sameRanges collected.phase.ranges).sweep
    rw [← collected.table] at kept
    rcases List.mem_map.mp mem with ⟨handler, handlerMem, rfl⟩
    rcases collected.handler_stays valid ready handlerMem with ⟨b, pointer, stays⟩
    rcases kept i handler.range (List.mem_map_of_mem handlerMem) with ⟨chain, size, _, stop⟩
    exact ⟨chain, size, ⟨b, stays.after, pointer⟩, stop⟩
  · rw [collected.table]
    exact unmarked_sweep t₁

end MarkedAndSwept

/-- A plain collection that returns, with whatever fuel, went through its mark phase and its
sweep. -/
theorem RootsValid.collected (valid : RootsValid pf t h c bigs)
    (plain : PlainCollection pf threads fakeRoots (t, h))
    (eq : markAndSweep pf fuel threads fakeRoots (t, h) = .ok s') :
    ∃ fuel' t₁ h₁ moved r c₂ c',
      (collector fuel).markRoots fuel threads fakeRoots (t, h) = .ok (t₁, h₁) ∧
        Collected pf fuel' threads fakeRoots (t, h) c bigs t₁ h₁ moved r c₂ s' c' := by
  have ready := valid.collectionReady plain
  rcases exists_goFuel h (objectBlocks h c bigs) bigs with ⟨bound, enough⟩
  let fuel' := fuel + bound + sweepFuel pf c bigs
  have more : fuel ≤ fuel' := by omega
  have eq' := (markAndSweep_extends more pf threads fakeRoots (t, h)).approximates s' eq
  rcases (ready.collected (enough fuel' (by omega)) (by omega) (plain.fit fuel')).of_ok eq' with
    ⟨t₁, h₁, moved, r, c₂, c', collected⟩
  rcases bind_eq_ok eq with ⟨marked, marks, _⟩
  have marks' := (markRoots_extends more threads fakeRoots (t, h)).approximates marked marks
  have same : marked = (t₁, h₁) := Except.ok.inj (marks'.symm.trans collected.marks)
  exact ⟨fuel', t₁, h₁, moved, r, c₂, c', same ▸ marks, collected⟩

/-- Every step of a run keeps the invariant. -/
theorem RootStep.rootsValid {state state' : DerefRoots × Heap}
    (stepped : RootStep pf (PlainCollection pf) state state')
    (holds : ∃ c bigs, RootsValid pf state.1 state.2 c bigs) :
    ∃ c bigs, RootsValid pf state'.1 state'.2 c bigs := by
  rcases holds with ⟨c, bigs, valid⟩
  cases stepped with
  | gcmalloc bounded eq => exact valid.gcmalloc bounded eq
  | write writable => exact ⟨c, bigs, valid.write writable _⟩
  | register isStart gc eq => exact ⟨c, bigs, valid.register isStart gc eq⟩
  | partialCollection eq => exact ⟨c, bigs, valid.clean eq⟩
  | fullCollection plain eq =>
      rcases valid.collected plain eq with ⟨_, _, _, _, _, _, _, _, collected⟩
      exact ⟨_, _, collected.rootsValid valid (valid.collectionReady plain)⟩

/-- The address lies on a page of `free_list`. -/
def OnRecycledPage (pf : Platform) (h : Heap) (x : Nat) : Prop :=
  ∃ pages p, Chain (pageNext h.mem) h.freeList pages ∧ p ∈ pages ∧ p ≤ x ∧ x < p + pf.pageSize

/-- No handler is marked, and each stands for an object whose block lies on no recycled page. -/
def RootsStand (pf : Platform) (t : DerefRoots) (h : Heap) : Prop :=
  ∀ i, ∀ handler ∈ t.roots i, handler.isMarked = false ∧
    ∃ b, handler.plainPointer = objectOf b ∧ ObjectBlock h b ∧ ¬OnRecycledPage pf h b

/-- Every handler that a full collection from `state` to `state'` leaves is unmarked and stands for
an object that the collection pinned and left in place. -/
def RootsSurvive (fuel : Nat) (threads : List ThreadHandler) (fakeRoots : FakeRoots)
    (state state' : DerefRoots × Heap) : Prop :=
  ∃ t₁ h₁, (collector fuel).markRoots fuel threads fakeRoots state = .ok (t₁, h₁) ∧
    ∀ i, ∀ handler ∈ state'.1.roots i, handler.isMarked = false ∧
      ∃ b, handler.plainPointer = objectOf b ∧ StaysPinned state.2 h₁ state'.2 b

namespace RootsValid

/-- No block in use lies on a recycled page. -/
theorem used_notRecycled (valid : RootsValid pf t h c bigs) (used : InUse h b) :
    ¬OnRecycledPage pf h b := by
  rintro ⟨pages, p, chain, pMem, lower, upper⟩
  have pagesEq := chain.unique valid.arena.freeChain
  subst pagesEq
  have inPages : p ∈ c.pages := Census.mem_pages.mpr (Or.inr pMem)
  rcases valid.inUse_iff.mp used with ⟨q, qMem, bMem⟩ | ⟨big, bigMem, rfl⟩
  · have qTiled := Classifying.tiled_of_alive qMem
    have bounds := (valid.arena.pageOk q qTiled).block_bounds bMem
    by_cases same : q = p
    · subst same
      have distinct := valid.arena.distinct
      simp only [Census.pages] at distinct
      exact (List.nodup_append'.mp distinct).2.2 (List.mem_append_right _ qMem) pMem
    · have := valid.arena.apart (Arena.tiled_pages qTiled) inPages same
      omega
  · have := valid.big.pages big bigMem p inPages
    have := bigLength_ge pf h.mem big
    simp only [bigHeader] at lower upper
    omega

theorem rootsStand (valid : RootsValid pf t h c bigs) : RootsStand pf t h := by
  intro i handler mem
  rcases valid.registers i handler.range (List.mem_map_of_mem mem) with
    ⟨_, _, ⟨b, isObject, start⟩, _⟩
  exact ⟨valid.unmarked i handler mem, b, start, isObject, valid.used_notRecycled isObject.1⟩

end RootsValid

/-- In a run whose full collections are all plain, every handler is unmarked and stands for an
object on no recycled page, and every full collection leaves the handlers of pinned objects only,
which stay where they are. -/
theorem runs_dereferencedRoots {state : DerefRoots × Heap}
    (run : Reachable InitialRoots (RootStep pf (PlainCollection pf)) state) :
    RootsStand pf state.1 state.2 ∧
      ∀ fuel threads fakeRoots state', PlainCollection pf threads fakeRoots state →
        markAndSweep pf fuel threads fakeRoots state = .ok state' →
          RootsSurvive fuel threads fakeRoots state state' ∧ RootsStand pf state'.1 state'.2 := by
  have invariant : ∃ c bigs, RootsValid pf state.1 state.2 c bigs :=
    run.invariant (fun _ initial => ⟨{}, [], initial.rootsValid⟩)
      fun _ _ holds stepped => stepped.rootsValid holds
  rcases invariant with ⟨c, bigs, valid⟩
  refine ⟨valid.rootsStand, fun fuel threads fakeRoots state' plain eq => ?_⟩
  rcases state with ⟨t, h⟩
  have ready := valid.collectionReady plain
  rcases valid.collected plain eq with ⟨fuel', t₁, h₁, moved, r, c₂, c', marks, collected⟩
  have valid' := collected.rootsValid valid ready
  refine ⟨⟨t₁, h₁, marks, fun i handler mem => ⟨valid'.unmarked i handler mem, ?_⟩⟩,
    valid'.rootsStand⟩
  exact collected.handler_stays valid ready mem

/-- The mapping there is at the start holds shells and two cells that are registered in a
`StackMap`.  The first object will have a slot that designates the object itself. -/
def shellsHeap : Heap where
  mem := wordsAt [(131072, 4), (131088, 24), (131096, 1), (131104, 16), (131120, 40), (131136, 8),
    (131144, 1), (131160, 16), (131168, 1), (131176, 8), (131328, 266280), (131336, 262192)]
  mappings := [⟨131072, 4096⟩]

theorem shellsHeap_runs {allowed : List ThreadHandler → FakeRoots → DerefRoots × Heap → Prop} :
    Reachable InitialRoots (RootStep upwards allowed) ({}, shellsHeap) :=
  Reachable.start ⟨rfl, _, _, rfl, by decide⟩

/-- The table in which the object is registered. -/
def oneRoot : DerefRoots where
  roots := Function.update (fun _ => []) (hashOfRoot 262192)
    [⟨524288 + 524287 * 24, 262192, 262208⟩]
  freeList := DerefRoots.newRecords 524288 524287
  count := 1
  totalCount := mmapCount

/-- A thread with the object on its stack and with a `gc_ptr` to it. -/
def oneThread : List ThreadHandler := [⟨[262192], [131336]⟩]

/-- The heap consists of the one object. -/
def OneObject (h : Heap) : Prop :=
  PageTable.Describes [(262144, [262160])] h ∧ h.firstBigBlock = 0 ∧
    h.mappings = [⟨135168, 131072⟩, ⟨131072, 4096⟩] ∧
      (∀ p ∈ mappedPages upwards h, 135168 ≤ p) ∧
        (h.mem 262160 = 48 ∧ shellOf h.mem 262160 = 131160 ∧ countOf h.mem 262160 = 1) ∧
          (shellSize h.mem 131160 = 16 ∧ shellCount h.mem 131160 = 1 ∧
            shellOffset h.mem 131160 0 = 8) ∧ h.mem 262200 = 262192 ∧ h.mem 131336 = 262192

instance (h : Heap) : Decidable (OneObject h) := inferInstanceAs (Decidable (_ ∧ _))

/-- The object is constructed, and a full collection with a handler for it follows. -/
def oneRootRun : Except Fault (Heap × DerefRoots × Heap) :=
  mallocAll upwards [40] shellsHeap >>= fun (_, h) =>
    writeAll [(262144, [262160])] [] [⟨262160, 262176, 131160⟩, ⟨262160, 262184, 1⟩,
      ⟨262160, 262200, 262192⟩] h >>= fun h =>
    markAndSweep upwards 40 oneThread .null (oneRoot, h) >>= fun s => .ok (h, s)

theorem oneRootRun_collects : Yields (fun _ => False)
    (fun r : Heap × DerefRoots × Heap => OneObject r.1 ∧
      Yields (fun _ => False) (fun _ => True)
          ((collector 40).markThreads 40 oneThread (oneRoot, r.1)) ∧
        stackMapsFit 40 oneThread (oneRoot, r.1) = true ∧
          (r.2.1.roots (hashOfRoot 262192)).map RootHandler.plainPointer = [262192])
    oneRootRun := by
  decide +kernel

namespace OneObject

theorem inUse_iff (one : OneObject h) : InUse h b ↔ b = 262160 := by
  constructor
  · rintro (isSmall | ⟨big, ⟨bigs, chain, mem⟩, _⟩)
    · rcases one.1.smallBlock_iff.mp isSmall with ⟨entry, mem, bMem⟩
      rw [List.mem_singleton.mp mem, List.mem_singleton] at bMem
      exact bMem
    · rw [chain.head_eq_zero_iff.mp one.2.1] at mem
      cases mem
  · rintro rfl
    exact Or.inl (one.1.smallBlock_iff.mpr ⟨_, List.mem_singleton.mpr rfl, by decide⟩)

theorem foreign (one : OneObject h) (lower : 131072 ≤ x) (upper : x < 135168) :
    Foreign upwards h x := by
  rcases one with ⟨_, noBigs, mappings, pages, _⟩
  refine ⟨⟨⟨131072, 4096⟩, by simp [mappings], lower, upper⟩, fun p mem => ?_, ?_⟩
  · have := pages p mem
    omega
  · rintro big ⟨bigs, chain, mem⟩
    rw [chain.head_eq_zero_iff.mp noBigs] at mem
    cases mem

theorem objectBlock (one : OneObject h) : ObjectBlock h 262160 := by
  refine ⟨one.inUse_iff.mpr rfl, ?_⟩
  rw [one.2.2.2.2.1.1]
  decide

theorem slots (one : OneObject h) : slotsOf h.mem 262160 = [262200] := by
  rcases one with ⟨_, _, _, _, ⟨_, shell, count⟩, ⟨size, slots, offset⟩, _⟩
  simp [slotsOf, elementSlots, slotAddr, shell, count, size, slots, offset, objectOf_eq]

theorem plainCollection (one : OneObject h) {s₁ : DerefRoots × Heap}
    (returned : (collector 40).markThreads 40 oneThread (oneRoot, h) = .ok s₁)
    (fit : stackMapsFit 40 oneThread (oneRoot, h) = true) :
    PlainCollection upwards oneThread .null (oneRoot, h) := by
  have only : ∀ b, ObjectBlock h b → b = 262160 := fun b isObject => one.inUse_iff.mp isObject.1
  have slots := one.slots
  have noNode : ∀ x, ¬NodeWord .null x := by simp [NodeWord, FakeRoots.nodes]
  have word : ∀ x, h.mem x = 262192 → PlainWord h (h.mem x) := by
    intro x same
    rw [same]
    exact Or.inr ⟨262160, one.objectBlock, by decide⟩
  rcases id one with ⟨_, _, _, _, ⟨header, shell, count⟩, ⟨size, slotCount, offset⟩, self, root⟩
  have blockEq : blockSize (h.mem 262160) = 48 := by
    rw [header]
    exact blockSize_of_aligned (by decide)
  refine
    { small := by decide, object := ?_, slot := ?_, slotsNodup := ?_,
      node := by simp [FakeRoots.nodes], stackRoot := ?_, stackRootsNodup := by decide,
      fakeRoot := by simp [FakeRoots.nodes], fit := stackMapsFit_of_ok returned fit }
  · intro b isObject
    rw [only b isObject]
    refine ⟨?_, ?_, fun x lower upper => ?_⟩
    · simp only [shell, count, size, blockEq]
      decide
    · intro j less
      rw [shell, slotCount] at less
      obtain rfl : j = 0 := by omega
      rw [shell, offset, size]
    · rw [shell] at lower upper
      rw [slotCount] at upper
      refine ⟨one.foreign (by omega) (by omega), ?_, noNode x⟩
      simp only [stackRoots, oneThread, List.map_cons, List.map_nil, List.flatten_cons,
        List.flatten_nil, List.append_nil, List.mem_singleton]
      omega
  · intro b isObject x slot
    rw [only b isObject, slots, List.mem_singleton] at slot
    exact word x (slot ▸ self)
  · intro b isObject
    rw [only b isObject, slots]
    exact List.nodup_singleton _
  · intro a mem
    have same : a = 131336 := by simpa [stackRoots, oneThread] using mem
    subst same
    exact ⟨by decide, one.foreign (by decide) (by decide), noNode _, word _ root⟩

end OneObject

theorem runs_dereferencedRoots_oneObject : ∃ h s' handler,
    Reachable InitialRoots (RootStep upwards (PlainCollection upwards)) (oneRoot, h) ∧
      PlainCollection upwards oneThread .null (oneRoot, h) ∧
        markAndSweep upwards 40 oneThread .null (oneRoot, h) = .ok s' ∧
          handler ∈ s'.1.roots (hashOfRoot 262192) ∧ handler.plainPointer = 262192 ∧
            RootsSurvive 40 oneThread .null (oneRoot, h) s' ∧ RootsStand upwards s'.1 s'.2 := by
  rcases oneRootRun_collects.total with ⟨⟨h, s'⟩, eq, one, returns, fit, kept⟩
  dsimp only at one returns fit kept
  rcases bind_eq_ok eq with ⟨⟨ps, h₁⟩, allocated, eq⟩
  rcases bind_eq_ok eq with ⟨h₂, written, eq⟩
  rcases bind_eq_ok eq with ⟨s₂, collected, eq⟩
  cases eq
  rcases returns.total with ⟨s₁, returned, _⟩
  have plain := one.plainCollection returned fit
  have start : Reachable InitialRoots (RootStep upwards (PlainCollection upwards))
      ({}, shellsHeap) := shellsHeap_runs
  have constructed := writeAll_runs written (mallocAll_rootRuns allocated (by decide) start)
  have registered : registerDereferencedRoot (some 524288) .ok 262192 16 {} = .ok oneRoot := rfl
  have run := constructed.next
    (.register (Or.inr ⟨262160, one.objectBlock, by decide⟩) (Or.inl rfl) registered)
  have inTable : 262192 ∈ (s'.1.roots (hashOfRoot 262192)).map RootHandler.plainPointer := by
    rw [kept]
    exact List.mem_singleton.mpr rfl
  rcases List.mem_map.mp inTable with ⟨handler, mem, start⟩
  have survive := (runs_dereferencedRoots run).2 40 oneThread .null s' plain collected
  exact ⟨h, s', handler, run, plain, collected, mem, start, survive⟩

/-- A full collection moves the object `262136`, to which the slot of a large object refers, and the
slot is not redirected.  The next objects take its place: `262112`, with `262136` in its last
words, and `262192` on the next page.  Both are on the stack of the thread; in this table the first
of them is registered, and in `twoRoots` the second one, too. -/
def firstOfTwoRoots : DerefRoots where
  roots := Function.update (fun _ => []) (hashOfRoot 262112)
    [⟨524288 + 524287 * 24, 262112, 262136⟩]
  freeList := DerefRoots.newRecords 524288 524287
  count := 1
  totalCount := mmapCount

def twoRoots : DerefRoots where
  roots := Function.update firstOfTwoRoots.roots (hashOfRoot 262192)
    [⟨524288 + 524286 * 24, 262192, 262232⟩]
  freeList := DerefRoots.newRecords 524288 524286
  count := 2
  totalCount := mmapCount

/-- The pages before the first collection. -/
def earlyTable : PageTable := [(262144, [262160]), (258048, [258064, 262104])]

/-- The objects of the first pages, and the large object, whose slot refers to `262136`. -/
def earlyWrites : List BlockWrite :=
  [⟨262160, 262176, 131072⟩, ⟨262160, 262184, 1010⟩, ⟨258064, 258080, 131072⟩,
    ⟨258064, 258088, 1000⟩, ⟨262104, 262120, 131072⟩, ⟨262104, 262128, 1⟩,
    ⟨266248, 266264, 131136⟩, ⟨266248, 266272, 1⟩, ⟨266248, 266280, 262136⟩]

/-- The pages after the next allocations. -/
def lateTable : PageTable :=
  [(253952, [253968, 254008]), (258048, [258064, 262080]), (262144, [262160])]

/-- The two objects that are registered. -/
def lateWrites : List BlockWrite :=
  [⟨262080, 262096, 131088⟩, ⟨262080, 262104, 1⟩, ⟨262080, 262120, 131072⟩,
    ⟨262160, 262176, 131120⟩, ⟨262160, 262184, 1⟩, ⟨262160, 262208, 2⟩, ⟨262160, 262216, 262136⟩]

def staleRun : Except Fault (Heap × (DerefRoots × Heap) × DerefRoots × Heap) :=
  mallocAll upwards [4064, 4024, 28, 5000] shellsHeap >>= fun (_, h) =>
    writeAll earlyTable [266240] earlyWrites h >>= fun h =>
    markAndSweep upwards 40 [⟨[], [131328]⟩] .null ({}, h) >>= fun (_, h) =>
    mallocAll upwards [4000, 4000, 48, 64] h >>= fun (_, h) =>
    writeAll lateTable [266240] lateWrites h >>= fun h =>
    markAndSweep upwards 40 [⟨[262112, 262192], [131328]⟩] .null (twoRoots, h) >>= fun s =>
    markAndSweep upwards 60 [⟨[262192], []⟩] .null s >>= fun s' => .ok (h, s, s')

def recycledPages : List Nat :=
  [258048, 262144] ++ (List.range 30).map fun i => 253952 - 4096 * i

/-- The second of these collections follows the stale slot into the object `262112`, whose count it
spoils, and then redirects words beyond the object, among them the start of the free tail of the
page of `262192`.  The third finds no block on that page, and recycles it. -/
theorem staleRun_recycles : Yields (fun _ => False)
    (fun r : Heap × (DerefRoots × Heap) × DerefRoots × Heap =>
      lateTable.Describes r.1 ∧ blockIsDead (r.1.mem 262080) = false ∧
        blockIsDead (r.1.mem 262160) = false ∧ r.2.2.2.firstPage = 0 ∧
          r.2.2.2.firstBigBlock = 0 ∧
            Chain (pageNext r.2.2.2.mem) r.2.2.2.freeList recycledPages ∧
              (r.2.2.1.roots (hashOfRoot 262192)).map RootHandler.plainPointer = [262192])
    staleRun := by
  decide +kernel

/-- After three full collections the table holds the handler of an object that lies on a recycled
page. -/
theorem runs_dereferencedRoots_recycled : ∃ state state' handler,
    Reachable InitialRoots (RootStep upwards fun _ _ _ => True) state ∧
      markAndSweep upwards 60 [⟨[262192], []⟩] .null state = .ok state' ∧
        handler ∈ state'.1.roots (hashOfRoot 262192) ∧ handler.plainPointer = objectOf 262160 ∧
          OnRecycledPage upwards state'.2 262160 ∧
            ¬RootsSurvive 60 [⟨[262192], []⟩] .null state state' ∧
              ¬RootsStand upwards state'.1 state'.2 := by
  rcases staleRun_recycles.total with
    ⟨⟨h, s, s'⟩, eq, describes, alive, alive', pages, bigs, free, kept⟩
  dsimp only at describes alive alive' pages bigs free kept
  rcases bind_eq_ok eq with ⟨⟨_, h₁⟩, allocated, eq⟩
  rcases bind_eq_ok eq with ⟨h₂, written, eq⟩
  rcases bind_eq_ok eq with ⟨⟨t₃, h₃⟩, collected, eq⟩
  rcases bind_eq_ok eq with ⟨⟨_, h₄⟩, allocated', eq⟩
  rcases bind_eq_ok eq with ⟨h₅, written', eq⟩
  rcases bind_eq_ok eq with ⟨s₆, collected', eq⟩
  rcases bind_eq_ok eq with ⟨s₇, last, eq⟩
  cases eq
  have start : Reachable InitialRoots (RootStep upwards fun _ _ _ => True) ({}, shellsHeap) :=
    shellsHeap_runs
  have early := writeAll_runs written (mallocAll_rootRuns allocated (by decide) start)
  have empty : t₃ = {} := (markAndSweep_noWords (by simp) collected).trans sweep_emptyTable
  subst empty
  have late := writeAll_runs written' (mallocAll_rootRuns allocated' (by decide)
    (early.next (.fullCollection trivial collected)))
  have inUse : SmallBlock h 262080 :=
    describes.smallBlock_iff.mpr ⟨(258048, [258064, 262080]), by decide, by decide⟩
  have inUse' : SmallBlock h 262160 :=
    describes.smallBlock_iff.mpr ⟨(262144, [262160]), by decide, by decide⟩
  have isStart : StartsObject h 262112 := ⟨262080, ⟨Or.inl inUse, alive⟩, by decide⟩
  have isStart' : StartsObject h 262192 := ⟨262160, ⟨Or.inl inUse', alive'⟩, by decide⟩
  have first : registerDereferencedRoot (some 524288) .ok 262112 24 {} = .ok firstOfTwoRoots := rfl
  have second : registerDereferencedRoot none .ok 262192 40 firstOfTwoRoots = .ok twoRoots := rfl
  have registered := (late.next (.register (Or.inr isStart) (Or.inl rfl) first)).next
    (.register (Or.inr isStart') (Or.inl rfl) second)
  have unused : ∀ b, ¬ObjectBlock s'.2 b := by
    rintro b ⟨⟨list, p, blocks, chain, mem, _⟩ | ⟨big, ⟨list, chain, mem⟩, _⟩, _⟩
    · rw [chain.head_eq_zero_iff.mp pages] at mem
      cases mem
    · rw [chain.head_eq_zero_iff.mp bigs] at mem
      cases mem
  have inTable : 262192 ∈ (s'.1.roots (hashOfRoot 262192)).map RootHandler.plainPointer := by
    rw [kept]
    exact List.mem_singleton.mpr rfl
  rcases List.mem_map.mp inTable with ⟨handler, mem, start⟩
  have recycled : OnRecycledPage upwards s'.2 262160 :=
    ⟨recycledPages, 262144, free, by decide, by decide, by decide⟩
  refine ⟨s, s', handler, registered.next (.fullCollection trivial collected'), last, mem, start,
    recycled, ?_, ?_⟩
  · rintro ⟨_, _, _, survive⟩
    rcases (survive _ handler mem).2 with ⟨b, _, stays⟩
    exact unused b stays.after
  · intro stand
    rcases (stand _ handler mem).2 with ⟨b, _, isObject, _⟩
    exact unused b isObject

end PreciseGc

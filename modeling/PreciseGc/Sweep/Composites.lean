import PreciseGc.Sweep.Relocation

/-!
# Composite pointers

The record of a composite pointer is a block like any other, without a
`base_meta`.  The pass that redirects pointers does not tell it from an object:
it reads the words of every surviving block as a `base_meta`, those of a record
included.
-/

namespace PreciseGc

open Foundation Memory

variable {pf : Platform} {threads : ThreadRoots} {h h' : Heap} {c c₂ : Census}
  {bigs records slots todo : List Nat} {b d p q r x : Nat} {s : SweepState}
  {moved : List (Nat × Nat)} {fuel : Nat} {m m' : Memory}

/-- The word at `g` is a composite pointer whose record is in the block `r`. -/
def RefersTo (m : Memory) (g r : Nat) : Prop :=
  isCompositePointer (m g) = true ∧ clearBothFlags (m g) = blockData r

instance (m : Memory) (g r : Nat) : Decidable (RefersTo m g r) :=
    inferInstanceAs (Decidable (_ ∧ _))

/-- `fix_ptr` on a composite pointer marks its record, may change the base in the record, and keeps
the pointer itself. -/
theorem fixPtr_composite (nonnull : p ≠ 0) (refers : RefersTo m p r) (apart : p ≠ r) :
    (∀ x, x ≠ r → x ≠ r + 16 → fixPtr p m x = m x) ∧ fixPtr p m r = markBlock (m r) := by
  have header : getBlock (blockData r) = r := by simp [getBlock, blockData]
  have data : blockData r ≠ 0 := by simp [blockData, sizeofBlock]
  have next : getNextObj p m =
      (compositeBase (mark (blockData r) m) (blockData r), mark (blockData r) m) := by
    simp only [getNextObj, getPtr, refers.1, refers.2, data, ↓reduceIte]
  have marked : mark (blockData r) m = m.write r (markBlock (m r)) := by
    rw [mark, header]
  have word : m.write r (markBlock (m r)) p = m p := write_of_ne apart
  unfold fixPtr
  rw [if_neg nonnull, next, marked]
  dsimp only
  split
  · exact ⟨fun x other _ => write_of_ne other, write_same ..⟩
  · split
    · simp only [movePtr, word, refers.1, refers.2, ↓reduceIte]
      have base : blockData r + 8 = r + 16 := by simp [blockData, sizeofBlock]
      rw [base]
      constructor
      · intro x other away
        by_cases same : x = p
        · rw [same, write_same]
        · rw [write_of_ne same, write_of_ne away, write_of_ne other]
      · rw [write_of_ne (Ne.symm apart), write_of_ne (by omega), write_same]
    · exact ⟨fun x other _ => write_of_ne other, write_same ..⟩

/-- What the pass relies on: the slots of objects are visited once each, and the composite pointers
among them lead to records, which hold no slot of an object. -/
structure Patchable (m : Memory) (slots records : List Nat) : Prop where
  once : slots.Nodup
  nonnull : ∀ p ∈ slots, p ≠ 0
  composite : ∀ p ∈ slots, isCompositePointer (m p) = true → ∃ r ∈ records, RefersTo m p r
  apart : ∀ p ∈ slots, ∀ r ∈ records, p ≠ r ∧ p ≠ r + 16
  records : ∀ r ∈ records, ∀ r' ∈ records, r ≠ r' + 16

/-- The memory during the pass, with the slots `todo` still to be fixed: it differs in slots, in the
bases in records and in marks of records only. -/
structure Patching (m : Memory) (slots records todo : List Nat) (m' : Memory) : Prop where
  suffix : ∃ done, slots = done ++ todo
  frame : ∀ x, x ∉ slots → x ∉ records → (∀ r ∈ records, x ≠ r + 16) → m' x = m x
  header : ∀ r ∈ records, blockSize (m' r) = blockSize (m r) ∧
    blockIsDead (m' r) = blockIsDead (m r)
  pending : ∀ p ∈ todo, m' p = m p

theorem Patching.start (m : Memory) (slots records : List Nat) :
    Patching m slots records slots m where
  suffix := ⟨[], rfl⟩
  frame _ _ _ _ := rfl
  header _ _ := ⟨rfl, rfl⟩
  pending _ _ := rfl

/-- Fixing the next slot. -/
theorem Patching.step (patchable : Patchable m slots records)
    (patching : Patching m slots records (p :: todo) m') :
    Patching m slots records todo (fixPtr p m') := by
  rcases patching.suffix with ⟨done, split⟩
  have pMem : p ∈ slots := by simp [split]
  have later : ∀ x ∈ todo, x ∈ slots ∧ x ≠ p := by
    intro x mem
    refine ⟨by simp [split, mem], ?_⟩
    rintro rfl
    have unique := patchable.once
    rw [split] at unique
    exact (List.nodup_cons.mp (List.nodup_append'.mp unique).2.1).1 mem
  have nonnull := patchable.nonnull p pMem
  have word : m' p = m p := patching.pending p (by simp)
  have suffix : ∃ done, slots = done ++ todo := ⟨done ++ [p], by simp [split]⟩
  cases composite : isCompositePointer (m p) with
  | false =>
      have fixed : fixPtr p m' = m'.write p (redirect m' (m' p)) := by
        apply fixPtr_plain nonnull
        rw [word]
        exact composite
      rw [fixed]
      refine ⟨suffix, ?_, ?_, ?_⟩
      · intro x notSlot notRecord notBase
        rw [write_of_ne (by rintro rfl; exact notSlot pMem)]
        exact patching.frame x notSlot notRecord notBase
      · intro r mem
        rw [write_of_ne (Ne.symm (patchable.apart p pMem r mem).1)]
        exact patching.header r mem
      · intro x mem
        rw [write_of_ne (later x mem).2]
        exact patching.pending x (by simp [mem])
  | true =>
      rcases patchable.composite p pMem composite with ⟨r, rMem, refers⟩
      have refers' : RefersTo m' p r := by
        rw [RefersTo, word]
        exact refers
      rcases fixPtr_composite nonnull refers' (patchable.apart p pMem r rMem).1 with
        ⟨others, marked⟩
      refine ⟨suffix, ?_, ?_, ?_⟩
      · intro x notSlot notRecord notBase
        rw [others x (by rintro rfl; exact notRecord rMem) (notBase r rMem)]
        exact patching.frame x notSlot notRecord notBase
      · intro r' mem
        by_cases same : r' = r
        · subst same
          rw [marked, blockSize_markBlock, (flags_markBlock _).2.2]
          exact patching.header r' mem
        · rw [others r' same (patchable.records r' mem r rMem)]
          exact patching.header r' mem
      · intro x mem
        have away := patchable.apart x (later x mem).1 r rMem
        rw [others x away.1 away.2]
        exact patching.pending x (by simp [mem])

/-- A heap at the beginning of a sweep.  The blocks `records` hold the records of composite
pointers, all other surviving blocks hold objects. -/
structure CompositeHeap (pf : Platform) (h : Heap) (c : Census) (bigs records : List Nat) : Prop
    extends SweepStart pf h c bigs where
  record : ∀ r ∈ records, ∃ q ∈ c.alive, r ∈ c.blocks q ∧ 24 ≤ blockSize (h.mem r)
  object : ∀ q ∈ c.alive, ∀ b ∈ c.blocks q, survives h.mem b = true → b ∉ records →
    GcObject h.mem (OffHeap pf h c bigs) b
  slotsNodup : ∀ q ∈ c.alive, ∀ b ∈ c.blocks q, survives h.mem b = true → b ∉ records →
    (slotsOf h.mem b).Nodup
  slot : ∀ q ∈ c.alive, ∀ b ∈ c.blocks q, survives h.mem b = true → b ∉ records →
    ∀ x ∈ slotsOf h.mem b, isCompositePointer (h.mem x) = true → ∃ r ∈ records, RefersTo h.mem x r

/-- The places of the surviving objects after the evacuation. -/
def objectImages (h : Heap) (c : Census) (records : List Nat) (moved : List (Nat × Nat)) :
    List Nat :=
  ((c.alive.flatMap c.blocks).filter fun b => survives h.mem b && decide (b ∉ records)).map
    (relocate moved)

theorem mem_objectImages : d ∈ objectImages h c records moved ↔
    ∃ q ∈ c.alive, ∃ b ∈ c.blocks q, survives h.mem b = true ∧ b ∉ records ∧
      d = relocate moved b := by
  simp only [objectImages, List.mem_map, List.mem_filter, List.mem_flatMap, Bool.and_eq_true,
    decide_eq_true_eq]
  constructor
  · rintro ⟨b, ⟨⟨q, qMem, bMem⟩, alive, object⟩, rfl⟩
    exact ⟨q, qMem, b, bMem, alive, object, rfl⟩
  · rintro ⟨q, qMem, b, bMem, alive, object, rfl⟩
    exact ⟨b, ⟨⟨q, qMem, bMem⟩, alive, object⟩, rfl⟩

/-- The slots of objects that the pass visits. -/
def patchedSlots (h : Heap) (c : Census) (records : List Nat) (moved : List (Nat × Nat))
    (m : Memory) (c₂ : Census) : List Nat :=
  visitedSlots m (fun d => decide (d ∈ objectImages h c records moved)) (c₂.alive.flatMap c₂.blocks)

namespace CompositeHeap

/-- The image of a surviving object holds the object. -/
theorem gcObject (heap : CompositeHeap pf h c bigs records) (half : Halfway pf h c bigs moved s c₂)
    (qMem : q ∈ c.alive) (bMem : b ∈ c.blocks q) (alive : survives h.mem b = true)
    (isObject : b ∉ records) : GcObject s.heap.mem (OffHeap pf h c bigs) (relocate moved b) :=
  half.gcObject_of qMem bMem alive (heap.object q qMem b bMem alive isObject) fun _ off => off

theorem mem_patchedSlots (heap : CompositeHeap pf h c bigs records)
    (half : Halfway pf h c bigs moved s c₂)
    (mem : x ∈ patchedSlots h c records moved s.heap.mem c₂) :
    ∃ t ∈ c₂.alive, ∃ q ∈ c.alive, ∃ b ∈ c.blocks q, survives h.mem b = true ∧ b ∉ records ∧
      relocate moved b ∈ c₂.blocks t ∧ x ∈ slotsOf s.heap.mem (relocate moved b) ∧
        relocate moved b + 32 ≤ x ∧
          x + 8 ≤ relocate moved b + 8 + blockSize (s.heap.mem (relocate moved b)) := by
  rcases mem_visitedSlots.mp mem with ⟨d, dMem, _, isImage, slot⟩
  rcases mem_objectImages.mp (by simpa using isImage) with ⟨q, qMem, b, bMem, alive, isObject, rfl⟩
  rcases List.mem_flatMap.mp dMem with ⟨t, tMem, dMem⟩
  have bounds := (heap.gcObject half qMem bMem alive isObject).slot_bounds slot
  exact ⟨t, tMem, q, qMem, b, bMem, alive, isObject, dMem, slot, bounds⟩

/-- The image of an object is no record. -/
theorem image_ne_record (half : Halfway pf h c bigs moved s c₂) (qMem : q ∈ c.alive)
    (bMem : b ∈ c.blocks q) (isObject : b ∉ records) {t : Nat} (tMem : t ∈ c₂.alive)
    (dMem : relocate moved b ∈ c₂.blocks t) (pMem : p ∈ c.alive) (rMem : r ∈ c.blocks p)
    (isRecord : r ∈ records) : relocate moved b ≠ r := by
  intro same
  rcases half.old_block pMem rMem with ⟨rMem₂, _, ⟨_, stays⟩ | inFrom⟩
  · rcases half.evacuated with ⟨h₁, swept, ev⟩
    have : b = r := ev.relocate_inj qMem bMem pMem rMem (same.trans stays.symm)
    exact isObject (this ▸ isRecord)
  · rw [same] at dMem
    have samePage := half.arena.page_unique (Classifying.tiled_of_alive tMem) dMem
      (Classifying.tiled_of_fromSpace inFrom) rMem₂
    exact half.arena.not_mem_alive_of_fromSpace inFrom (samePage ▸ tMem)

/-- A record does not overlap the image of an object. -/
theorem image_apart_record (heap : CompositeHeap pf h c bigs records)
    (half : Halfway pf h c bigs moved s c₂) (qMem : q ∈ c.alive) (bMem : b ∈ c.blocks q)
    (isObject : b ∉ records) {t : Nat} (tMem : t ∈ c₂.alive)
    (dMem : relocate moved b ∈ c₂.blocks t) (isRecord : r ∈ records) :
    relocate moved b + 8 + blockSize (s.heap.mem (relocate moved b)) ≤ r ∨
      r + 32 ≤ relocate moved b := by
  rcases heap.record r isRecord with ⟨p, pMem, rMem, large⟩
  have different := image_ne_record half qMem bMem isObject tMem dMem pMem rMem isRecord
  rcases half.old_block pMem rMem with ⟨rMem₂, size, _⟩
  have := half.arena.blocks_disjoint (Classifying.tiled_of_alive tMem) dMem
    (half.old_tiled pMem rMem) rMem₂ different
  omega

theorem patchable (heap : CompositeHeap pf h c bigs records)
    (half : Halfway pf h c bigs moved s c₂) :
    Patchable s.heap.mem (patchedSlots h c records moved s.heap.mem c₂) records where
  once := by
    have unique := half.arena.distinct
    simp only [Census.pages] at unique
    have aliveUnique := (List.nodup_append'.mp (List.nodup_append'.mp unique).1).2.1
    have blocksUnique := half.arena.nodup_blocks aliveUnique
      fun t mem => Classifying.tiled_of_alive mem
    unfold patchedSlots visitedSlots visitedObjects
    rw [List.nodup_flatMap]
    constructor
    · intro d dMem
      rcases List.mem_filter.mp dMem with ⟨_, isImage⟩
      simp only [Bool.and_eq_true, decide_eq_true_eq] at isImage
      rcases mem_objectImages.mp isImage.2 with ⟨q, qMem, b, bMem, alive, isObject, rfl⟩
      have object := heap.object q qMem b bMem alive isObject
      rw [(half.shape_of qMem bMem alive object fun _ off => off).slotsOf_eq]
      apply (heap.slotsNodup q qMem b bMem alive isObject).map_on
      intro y yMem z zMem same
      have := object.slot_bounds yMem
      have := object.slot_bounds zMem
      omega
    · apply (blocksUnique.filter _).imp_of_mem
      intro d e dMem eMem different
      rcases List.mem_filter.mp dMem with ⟨dBlock, dImage⟩
      rcases List.mem_filter.mp eMem with ⟨eBlock, eImage⟩
      simp only [Bool.and_eq_true, decide_eq_true_eq] at dImage eImage
      rcases mem_objectImages.mp dImage.2 with ⟨q, qMem, b, bMem, alive, isObject, rfl⟩
      rcases mem_objectImages.mp eImage.2 with ⟨q', qMem', b', bMem', alive', isObject', rfl⟩
      rcases List.mem_flatMap.mp dBlock with ⟨t, tMem, dBlock⟩
      rcases List.mem_flatMap.mp eBlock with ⟨t', tMem', eBlock⟩
      have apart := half.arena.blocks_disjoint (Classifying.tiled_of_alive tMem) dBlock
        (Classifying.tiled_of_alive tMem') eBlock different
      intro x inFirst inSecond
      have := (heap.gcObject half qMem bMem alive isObject).slot_bounds inFirst
      have := (heap.gcObject half qMem' bMem' alive' isObject').slot_bounds inSecond
      omega
  nonnull p mem := by
    rcases heap.mem_patchedSlots half mem with ⟨_, _, _, _, _, _, _, _, _, _, lower, _⟩
    omega
  composite p mem isComposite := by
    rcases heap.mem_patchedSlots half mem with
      ⟨_, _, q, qMem, b, bMem, alive, isObject, _, slot, _⟩
    rcases half.slot_eq_of qMem bMem alive (heap.object q qMem b bMem alive isObject)
      (fun _ off => off) slot with ⟨y, yMem, _, word⟩
    rw [word] at isComposite
    rcases heap.slot q qMem b bMem alive isObject y yMem isComposite with ⟨r, rMem, refers⟩
    refine ⟨r, rMem, ?_⟩
    rw [RefersTo, word]
    exact refers
  apart p mem r rMem := by
    rcases heap.mem_patchedSlots half mem with
      ⟨t, tMem, q, qMem, b, bMem, _, isObject, dMem, _, lower, upper⟩
    have := heap.image_apart_record half qMem bMem isObject tMem dMem rMem
    omega
  records r rMem r' rMem' := by
    rcases heap.record r rMem with ⟨q, qMem, block, _⟩
    rcases heap.record r' rMem' with ⟨q', qMem', block', large⟩
    by_cases same : r = r'
    · omega
    · have := heap.arena.blocks_disjoint (Classifying.tiled_of_alive qMem) block
        (Classifying.tiled_of_alive qMem') block' same
      omega

/-- Words outside the blocks are not written. -/
theorem outside_kept (heap : CompositeHeap pf h c bigs records)
    (half : Halfway pf h c bigs moved s c₂)
    (patching : Patching s.heap.mem (patchedSlots h c records moved s.heap.mem c₂) records todo m')
    (away : ∀ t ∈ c₂.tiled, ∀ e ∈ c₂.blocks t, x < e ∨ e + 8 + blockSize (s.heap.mem e) ≤ x) :
    m' x = s.heap.mem x := by
  have recordAway : ∀ r ∈ records, x < r ∨ r + 32 ≤ x := by
    intro r mem
    rcases heap.record r mem with ⟨q, qMem, block, large⟩
    rcases half.old_block qMem block with ⟨block₂, size, _⟩
    have := away q (half.old_tiled qMem block) r block₂
    omega
  apply patching.frame
  · intro mem
    rcases heap.mem_patchedSlots half mem with
      ⟨t, tMem, _, _, _, _, _, _, dMem, _, lower, upper⟩
    have := away t (Classifying.tiled_of_alive tMem) _ dMem
    omega
  · intro mem
    have := recordAway x mem
    omega
  · intro r mem
    have := recordAway r mem
    omega

/-- Block headers keep their size and their dead flag. -/
theorem header_kept (heap : CompositeHeap pf h c bigs records)
    (half : Halfway pf h c bigs moved s c₂)
    (patching : Patching s.heap.mem (patchedSlots h c records moved s.heap.mem c₂) records todo m')
    {t : Nat} (tMem : t ∈ c₂.alive) (dMem : d ∈ c₂.blocks t) :
    blockSize (m' d) = blockSize (s.heap.mem d) ∧
      blockIsDead (m' d) = blockIsDead (s.heap.mem d) := by
  by_cases isRecord : d ∈ records
  · exact patching.header d isRecord
  · have notData := half.arena.header_notData (Classifying.tiled_of_alive tMem) dMem
    have kept : m' d = s.heap.mem d := by
      apply patching.frame d ?_ isRecord
      · intro r mem
        rcases heap.record r mem with ⟨q, qMem, block, large⟩
        rcases half.old_block qMem block with ⟨block₂, size, _⟩
        have := notData.away q (half.old_tiled qMem block) r block₂
        omega
      · intro mem
        rcases heap.mem_patchedSlots half mem with
          ⟨t', tMem', _, _, _, _, _, _, dMem', _, lower, upper⟩
        have := notData.away t' (Classifying.tiled_of_alive tMem') _ dMem'
        omega
    rw [kept]
    exact ⟨rfl, rfl⟩

/-- The pass meets the requirements of the rule for it, which leaves open what happens after a
record has been read. -/
theorem fixPlan (heap : CompositeHeap pf h c bigs records) (half : Halfway pf h c bigs moved s c₂) :
    FixPlan (fun _ => True) s.heap.mem c₂.alive c₂.blocks
      (fun d => decide (d ∈ objectImages h c records moved))
      (Patching s.heap.mem (patchedSlots h c records moved s.heap.mem c₂) records) := by
  have large := pf.pageSize_ge
  have pageWord : ∀ q ∈ c₂.alive, ∀ x, q ≤ x → x < q + 16 →
      ∀ t ∈ c₂.tiled, ∀ e ∈ c₂.blocks t, x < e ∨ e + 8 + blockSize (s.heap.mem e) ≤ x := by
    intro q qMem x lower upper t tTiled e eMem
    have := (half.arena.pageOk t tTiled).block_bounds eMem
    by_cases same : q = t
    · omega
    · have := half.arena.apart (Arena.tiled_pages (Classifying.tiled_of_alive qMem))
        (Arena.tiled_pages tTiled) same
      omega
  refine
    { step := fun p rest m' patching => patching.step (heap.patchable half),
      links := ?_, free := ?_,
      sizes := ?_, dead := ?_, unflagged := fun _ _ _ _ _ _ _ => Or.inr trivial, shape := ?_,
      object := ?_, exhausted := fun _ _ => trivial }
  · intro rest m' patching q qMem
    exact heap.outside_kept half patching (pageWord q qMem q (by omega) (by omega))
  · intro rest m' patching q qMem
    exact heap.outside_kept half patching (pageWord q qMem _ (by omega) (by omega))
  · exact fun rest m' patching q qMem d dMem => (heap.header_kept half patching qMem dMem).1
  · exact fun rest m' patching q qMem d dMem => (heap.header_kept half patching qMem dMem).2
  · intro rest m' patching t tMem d dMem _ isImage
    rcases mem_objectImages.mp (by simpa using isImage) with
      ⟨q, qMem, b, bMem, alive, isObject, rfl⟩
    have object := heap.gcObject half qMem bMem alive isObject
    have room := object.room
    have tTiled := Classifying.tiled_of_alive tMem
    refine SameShape.of_agree (fun o less => ?_) fun x lower upper => ?_
    · apply patching.frame
      · intro mem
        rcases heap.mem_patchedSlots half mem with
          ⟨t', tMem', _, _, b', _, _, _, dMem', _, lower, upper⟩
        by_cases same : relocate moved b = relocate moved b'
        · omega
        · have := half.arena.blocks_disjoint tTiled dMem
            (Classifying.tiled_of_alive tMem') dMem' same
          omega
      · intro mem
        have := heap.image_apart_record half qMem bMem isObject tMem dMem mem
        omega
      · intro r mem
        have := heap.image_apart_record half qMem bMem isObject tMem dMem mem
        omega
    · have out := (half.outside (object.shellApart x lower upper)).1
      apply heap.outside_kept half patching
      intro t' tTiled' e eMem
      have := (half.arena.pageOk t' tTiled').block_bounds eMem
      have := out.2 t' (Arena.tiled_pages tTiled')
      omega
  · intro t tMem d dMem _ isImage
    rcases mem_objectImages.mp (by simpa using isImage) with
      ⟨q, qMem, b, bMem, alive, isObject, rfl⟩
    have tTiled := Classifying.tiled_of_alive tMem
    have bounds := (half.arena.pageOk t tTiled).block_bounds dMem
    have bounded := half.arena.bounded t (Arena.tiled_pages tTiled)
    exact ⟨(heap.gcObject half qMem bMem alive isObject).mono fun _ _ => trivial, by omega⟩

/-- If a record survives, the pass reads the words of a record as a `base_meta`. -/
theorem fixPages_misreads (heap : CompositeHeap pf h c bigs records)
    (half : Halfway pf h c bigs moved s c₂) (enough : sweepFuel pf c bigs ≤ fuel)
    (isRecord : r ∈ records) (survivor : survives h.mem r = true) :
    Yields (fun _ => True)
      (fun h' => ∃ r ∈ records, survives h.mem r = true ∧
        blockData (relocate moved r) ∈ h'.metaReads)
      (fixPages pf fuel s.alivePages s.heap) := by
  have arena := half.arena
  have length := half.alive_length_lt
  have pageFuel := pageSize_lt_of_sweepFuel enough
  have yields : Yields _ _ (fixPages pf fuel s.alivePages s.heap) :=
    (heap.fixPlan half).fixPages_yields arena.aliveChain
    (fun q mem => (arena.pageOk q (Classifying.tiled_of_alive mem)).tiles) (by omega)
    (fun q mem => Nat.lt_trans (blocks_length_lt arena (Classifying.tiled_of_alive mem)) pageFuel)
    (fun q mem d dMem => by
      have := (arena.pageOk q (Classifying.tiled_of_alive mem)).block_bounds dMem
      omega)
    (FixState.initial (by rw [List.append_nil]; exact Patching.start _ _ _))
  refine yields.mono fun h' reached => ?_
  rcases reached with ⟨_, objects⟩ | ⟨t, tMem, d, dMem, notDead, notObject, read⟩
  · rcases heap.record r isRecord with ⟨q, qMem, rMem, _⟩
    rcases half.image qMem rMem survivor with ⟨_, notDead, t, tMem, dMem⟩
    rcases objects _ (List.mem_flatMap.mpr ⟨t, tMem, dMem⟩) with dead | isImage
    · rw [notDead] at dead
      cases dead
    · rcases mem_objectImages.mp (by simpa using isImage) with ⟨p, pMem, b, bMem, _, isObject, same⟩
      rcases half.evacuated with ⟨h₁, swept, ev⟩
      have : r = b := ev.relocate_inj qMem rMem pMem bMem same
      exact absurd (this ▸ isRecord) isObject
  · rcases half.origin tMem dMem with ⟨q, qMem, b, bMem, _, alive⟩
    rcases alive notDead with ⟨isAlive, rfl⟩
    refine ⟨b, ?_, isAlive, read⟩
    by_contra isObject
    have isImage : relocate moved b ∈ objectImages h c records moved :=
      mem_objectImages.mpr ⟨q, qMem, b, bMem, isAlive, isObject, rfl⟩
    simp [isImage] at notObject

end CompositeHeap

theorem recyclePages_metaReads {a : Nat} (read : a ∈ h.metaReads) :
    Yields (fun _ => True) (fun h' => a ∈ h'.metaReads) (recyclePages fuel h) :=
  walk_keeps (fun _ _ kept => ⟨trivial, kept⟩) fuel read

theorem clearFreeBlocks_metaReads {a count freeSize : Nat} (read : a ∈ h.metaReads) :
    Yields (fun _ => True) (fun h' => a ∈ h'.metaReads) (clearFreeBlocks count freeSize h) := by
  induction count generalizing freeSize h with
  | zero => exact read
  | succ count ih =>
      unfold clearFreeBlocks
      split
      · exact read
      · cases checkIndex freeSize with
        | error fault => trivial
        | ok _ => exact ih read

/-- The rest of a sweep keeps what has been recorded. -/
theorem CompositeHeap.sweep_misreads (heap : CompositeHeap pf h c bigs records)
    (enough : sweepFuel pf c bigs ≤ fuel) (isRecord : r ∈ records)
    (survivor : survives h.mem r = true) (eq : sweep pf fuel threads h = .ok h') :
    ∃ moved s c₂, sweepHalf pf fuel h = .ok s ∧ Halfway pf h c bigs moved s c₂ ∧
      ∃ r ∈ records, survives h.mem r = true ∧ blockData (relocate moved r) ∈ h'.metaReads := by
  rw [sweep_eq] at eq
  rcases bind_eq_ok eq with ⟨s, halfEq, eq⟩
  rcases (sweepHalf_yields heap.toSweepStart enough).of_ok halfEq with ⟨moved, c₂, half⟩
  refine ⟨moved, s, c₂, halfEq, half, ?_⟩
  rcases bind_eq_ok eq with ⟨h₃, fixEq, eq⟩
  rcases (heap.fixPages_misreads half enough isRecord survivor).of_ok fixEq with
    ⟨r', isRecord', survivor', read⟩
  refine ⟨r', isRecord', survivor', ?_⟩
  rcases bind_eq_ok eq with ⟨h₅, recycleEq, eq⟩
  have kept : blockData (relocate moved r') ∈ (fixRoots threads h₃).metaReads := read
  have read₅ := (recyclePages_metaReads kept).of_ok recycleEq
  rcases bind_eq_ok eq with ⟨h₆, clearEq, eq⟩
  have still : blockData (relocate moved r') ∈ { h₅ with firstPage := s.alivePages }.metaReads :=
    read₅
  have read₆ := (clearFreeBlocks_metaReads still).of_ok clearEq
  cases eq
  exact read₆

/-- The record `r` is that of a composite pointer in a stack root or in a slot of a surviving
object. -/
inductive CompositeCell (threads : ThreadRoots) (h : Heap) (c : Census) (records : List Nat)
    (reloc : Nat → Nat) : (cell place record : Nat) → Prop where
  | root {g r : Nat} : g ∈ threads.flatten → RefersTo h.mem g r →
      CompositeCell threads h c records reloc g g r
  | slot {q b g r : Nat} : q ∈ c.alive → b ∈ c.blocks q → survives h.mem b = true → b ∉ records →
      g ∈ slotsOf h.mem b → RefersTo h.mem g r →
        CompositeCell threads h c records reloc g (g - b + reloc b) r

/-- What a collection owes to a composite pointer, whose cell is at `place` afterwards: the record
is in use, unchanged but for the places of the base object and of the pointer, and has never been
read as a `base_meta`. -/
structure CompositeKept (h : Heap) (c : Census) (h' : Heap) (c' : Census) (reloc : Nat → Nat)
    (place r : Nat) : Prop where
  refers : RefersTo h'.mem place (reloc r)
  live : blockIsDead (h'.mem (reloc r)) = false ∧ ∃ q ∈ c'.alive, reloc r ∈ c'.blocks q
  refCount : h'.mem (blockData (reloc r) + 16) = h.mem (blockData r + 16)
  base : ∀ q ∈ c.alive, ∀ b ∈ c.blocks q, compositeBase h.mem (blockData r) = objectOf b →
    compositeBase h'.mem (blockData (reloc r)) = objectOf (reloc b)
  distance : h'.mem (blockData (reloc r)) + compositeBase h.mem (blockData r) =
    h.mem (blockData r) + compositeBase h'.mem (blockData (reloc r))
  unread : blockData (reloc r) ∉ h'.metaReads

/-- Every surviving record is that of some composite pointer. -/
def Referenced (threads : ThreadRoots) (h : Heap) (c : Census) (records : List Nat) : Prop :=
  ∀ r ∈ records, survives h.mem r = true → ∃ g, RefersTo h.mem g r ∧ (g ∈ threads.flatten ∨
    ∃ q ∈ c.alive, ∃ b ∈ c.blocks q, survives h.mem b = true ∧ b ∉ records ∧ g ∈ slotsOf h.mem b)

/-- No sweep of a heap with a surviving record keeps all composite pointers. -/
theorem sweep_composites_lost (heap : CompositeHeap pf h c bigs records)
    (referenced : Referenced threads h c records)
    (some : ∃ r ∈ records, survives h.mem r = true) (enough : sweepFuel pf c bigs ≤ fuel)
    (eq : sweep pf fuel threads h = .ok h') :
    ∃ moved s c₂, sweepHalf pf fuel h = .ok s ∧ Halfway pf h c bigs moved s c₂ ∧
      ∀ c', ¬∀ cell place r, CompositeCell threads h c records (relocate moved) cell place r →
        CompositeKept h c h' c' (relocate moved) place r := by
  rcases some with ⟨r, isRecord, survivor⟩
  rcases heap.sweep_misreads enough isRecord survivor eq with
    ⟨moved, s, c₂, halfEq, half, r', isRecord', survivor', read⟩
  refine ⟨moved, s, c₂, halfEq, half, fun c' kept => ?_⟩
  rcases referenced r' isRecord' survivor' with
    ⟨g, refers, isRoot | ⟨q, qMem, b, bMem, alive, isObject, slot⟩⟩
  · exact (kept g g r' (.root isRoot refers)).unread read
  · exact (kept g _ r' (.slot qMem bMem alive isObject slot refers)).unread read

/-- The page at `65536` holds an object of two words without slots and, behind it, the record of a
pointer to the second word, which a root designates. -/
def compositeWords : List (Nat × Nat) :=
  [(65544, 65640), (65552, 42), (65568, 131072), (65576, 1), (65600, 34), (65608, 65592),
    (65616, 65584), (65624, 1), (65640, 3984), (131072, 16), (133120, 65611)]

def compositeHeap : Heap where
  mem := wordsAt compositeWords
  mappings := [⟨65536, 8192⟩, ⟨131072, 4096⟩]
  parts := [⟨65536, 73728⟩]
  freePages := 1
  totalPages := 2
  firstPage := 65536
  freeList := 69632
  lastPage := 65536

def compositeCensus : Census where
  alive := [65536]
  free := [69632]
  blocks _ := [65552, 65600]

theorem compositeHeap_compositeHeap :
    CompositeHeap noMemory compositeHeap compositeCensus [] [65600] := by
  have deadUnmarked : ∀ q ∈ compositeCensus.alive, ∀ b ∈ compositeCensus.blocks q,
      (blockIsDead (compositeHeap.mem b) && blockIsMarked (compositeHeap.mem b)) = false := by
    decide
  have slots : slotsOf compositeHeap.mem 65552 = [] := by decide
  have block : ∀ q b, b ∈ compositeCensus.blocks q → b ∉ [65600] → b = 65552 := by
    intro q b mem notRecord
    have : b = 65552 ∨ b = 65600 := by simpa [compositeCensus] using mem
    have : b ≠ 65600 := by simpa using notRecord
    omega
  refine
    { arena := ?_, heldNil := rfl, fromNil := rfl, noBuckets := fun _ => rfl, small := by decide,
      big := ⟨rfl, by decide, by decide, by decide, by decide, by decide⟩,
      deadUnmarked := fun q qMem _ => deadUnmarked q qMem, record := by decide, object := ?_,
        slotsNodup := ?_, slot := ?_ }
  · refine
      { fromChain := rfl, aliveChain := ⟨rfl, by decide, rfl⟩, freeChain := ⟨rfl, by decide, rfl⟩,
        distinct := by decide, aligned := by decide, bounded := by decide, mapped := ?_,
        pageOk := ?_, lastPage := rfl, owned := by decide, freePages := rfl, totalPages := rfl,
        perMap := ⟨5, rfl⟩ }
    · intro p mem
      refine ⟨⟨65536, 8192⟩, by decide, ?_⟩
      revert p
      decide
    · intro p mem
      have : p = 65536 := by simpa [Census.tiled, compositeCensus] using mem
      subst this
      exact ⟨⟨rfl, by decide, rfl, by decide, rfl⟩, by decide, fun _ => by decide, by decide⟩
  · intro q _ b bMem _ notRecord
    rw [block q b bMem notRecord]
    refine ⟨by decide, by decide, fun x lower upper => ?_⟩
    have shell : shellOf compositeHeap.mem 65552 = 131072 ∧
      shellCount compositeHeap.mem 131072 = 0 := by
      decide
    rw [shell.1] at lower upper
    rw [shell.2] at upper
    refine ⟨⟨⟨⟨131072, 4096⟩, by decide, lower, Nat.lt_trans upper (by decide)⟩, fun p mem => ?_⟩,
      by simp⟩
    have : p = 65536 ∨ p = 69632 := by simpa [Census.pages, compositeCensus] using mem
    simp only [noMemory]
    omega
  · intro q _ b bMem _ notRecord
    rw [block q b bMem notRecord, slots]
    exact List.nodup_nil
  · intro q _ b bMem _ notRecord x mem
    rw [block q b bMem notRecord, slots] at mem
    cases mem

theorem compositeHeap_sweep : Yields (fun _ => False)
    (fun h' => RefersTo h'.mem 133120 65600 ∧ h'.freeList = 65536 ∧ 69704 ∈ h'.metaReads ∧
      forwardPointer h'.mem 65600 = 69704)
    (sweep noMemory 16390 sampleRoots compositeHeap) := by decide +kernel

theorem sweep_composites_lost_compositeHeap :
    ∃ h' moved s c₂, sweep noMemory 16390 sampleRoots compositeHeap = .ok h' ∧
      sweepHalf noMemory 16390 compositeHeap = .ok s ∧
        Halfway noMemory compositeHeap compositeCensus [] moved s c₂ ∧
          ∀ c', ¬∀ cell place r,
            CompositeCell sampleRoots compositeHeap compositeCensus [65600] (relocate moved) cell
                place r →
              CompositeKept compositeHeap compositeCensus h' c' (relocate moved) place r := by
  have referenced : Referenced sampleRoots compositeHeap compositeCensus [65600] := by
    intro r mem _
    have : r = 65600 := by simpa using mem
    subst this
    exact ⟨133120, by decide, Or.inl (by decide)⟩
  rcases compositeHeap_sweep.total with ⟨h', eq, _⟩
  rcases sweep_composites_lost compositeHeap_compositeHeap referenced ⟨65600, by decide, by decide⟩
    (by decide) eq with ⟨moved, s, c₂, halfEq, half, lost⟩
  exact ⟨h', moved, s, c₂, eq, halfEq, half, lost⟩

/-- After the sweep the root still refers to the old record, whose page is on `free_list`, and the
copy of the record has been read as a `base_meta`. -/
theorem sweep_composite_dangles :
    ∃ h', sweep noMemory 16390 sampleRoots compositeHeap = .ok h' ∧
      RefersTo compositeHeap.mem 133120 65600 ∧ RefersTo h'.mem 133120 65600 ∧ h'.freeList = 65536 ∧
        forwardPointer h'.mem 65600 = 69704 ∧ 69704 ∈ h'.metaReads := by
  rcases compositeHeap_sweep.total with ⟨h', eq, word, recycled, read, forward⟩
  exact ⟨h', eq, by decide, word, recycled, forward, read⟩

end PreciseGc

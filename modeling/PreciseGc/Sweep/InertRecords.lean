import PreciseGc.Sweep.RecordMarks

/-!
# Heaps whose records are inert

When every surviving record has the `ref_count` zero or a base object with a null
second word, the pass over the pages reads the records as objects without
elements or without slots and goes on.  Such a heap can be swept to the end, and
what the pass leaves on the headers of the pages in use are the marks on the
records that stayed in place.
-/

namespace PreciseGc

open Foundation Memory

variable {pf : Platform} {threads : ThreadRoots} {h h' : Heap} {c c₂ : Census}
  {bigs records todo rest : List Nat} {b d p q r t x : Nat} {s : SweepState}
  {moved : List (Nat × Nat)} {fuel : Nat} {m' : Memory}

/-- A heap at the beginning of a sweep, with composite pointers among the slots and the stack
roots. -/
structure RecordHeap (pf : Platform) (threads : ThreadRoots) (h : Heap) (c : Census)
    (bigs records : List Nat) : Prop extends CompositeHeap pf h c bigs records where
  rootsNodup : threads.flatten.Nodup
  rootOff : ∀ a ∈ threads.flatten, a ≠ 0 ∧ OffHeap pf h c bigs a
  root : ∀ a ∈ threads.flatten, isCompositePointer (h.mem a) = true →
    ∃ r ∈ records, RefersTo h.mem a r

/-- The block holds an object that survives, on a page or as a big block. -/
def SurvivingObject (h : Heap) (c : Census) (bigs records : List Nat) (b : Nat) : Prop :=
  (∃ q ∈ c.alive, b ∈ c.blocks q ∧ b ∉ records ∧ survives h.mem b = true) ∨
    ∃ big ∈ bigs, bigSurvives h.mem big = true ∧ b = bigHeader big

/-- Read as a `base_meta`, a surviving record has no elements, its `ref_count` being zero, or no
slots: its base object has a second word, which is null. -/
def Inert (h : Heap) (c : Census) (bigs records : List Nat) : Prop :=
  ∀ r ∈ records, survives h.mem r = true → metaCount h.mem (blockData r) = 0 ∨
    ∃ b, SurvivingObject h c bigs records b ∧ 40 ≤ blockSize (h.mem b) ∧
      compositeBase h.mem (blockData r) = objectOf b ∧ h.mem (objectOf b + 8) = 0

/-- The pointer word at `g` is a stack root or a slot of a surviving object on a page. -/
def VisitedWord (threads : ThreadRoots) (h : Heap) (c : Census) (records : List Nat)
    (g : Nat) : Prop :=
  g ∈ threads.flatten ∨
    ∃ q ∈ c.alive, ∃ b ∈ c.blocks q, survives h.mem b = true ∧ b ∉ records ∧ g ∈ slotsOf h.mem b

/-- No composite pointer in a stack root or in a slot of a surviving object on a page has its record
on a page that holds a pinned block. -/
def RecordsLeave (threads : ThreadRoots) (h : Heap) (c : Census) (records : List Nat) : Prop :=
  ∀ g, VisitedWord threads h c records g → ∀ r ∈ records, RefersTo h.mem g r →
    ∀ q ∈ c.alive, r ∈ c.blocks q → ¬HasPinned h.mem c q

/-- The first passes leave the data of the blocks on evacuated pages behind, but for the first word
of each block. -/
def FromData (h : Heap) (c : Census) (m : Memory) : Prop :=
  ∀ q ∈ c.alive, ¬HasPinned h.mem c q → ∀ b ∈ c.blocks q, ∀ o, 8 ≤ o → o < blockSize (h.mem b) →
    m (b + 8 + o) = h.mem (b + 8 + o)

theorem Halfway.hasPinned_iff {h₁ : Heap} (swept : BigSwept pf h c bigs h₁)
    (start : SweepStart pf h c bigs) (qMem : q ∈ c.alive) :
    HasPinned h₁.mem c.toSweep q ↔ HasPinned h.mem c q := by
  constructor
  · rintro ⟨e, eMem, isPinned⟩
    refine ⟨e, eMem, ?_⟩
    rw [← (Halfway.header_eq swept start qMem eMem).1]
    exact isPinned
  · rintro ⟨e, eMem, isPinned⟩
    refine ⟨e, eMem, ?_⟩
    rw [(Halfway.header_eq swept start qMem eMem).1]
    exact isPinned

theorem sweepHalf_fromData (start : SweepStart pf h c bigs) (enough : sweepFuel pf c bigs ≤ fuel) :
    Yields (· = Fault.mapFailed) (fun s => FromData h c s.heap.mem) (sweepHalf pf fuel h) := by
  have bigFuel : bigs.length < fuel := by
    simp only [sweepFuel] at enough
    omega
  have pages : c.alive.length < fuel := by
    simp only [sweepFuel, Nat.add_mul, Nat.mul_add] at enough
    omega
  rcases sweepBigBlocks_spec start.big bigFuel with ⟨h₁, eq, swept⟩
  unfold sweepHalf
  rw [eq]
  refine (evacuate_fromData (swept.sweepable start)
    (fun q inFrom unpinned => Halfway.deadUnmarked swept start q inFrom unpinned) pages ?_).mono ?_
  · intro q qMem
    have := blocks_length_lt start.arena (Classifying.tiled_of_alive (c := c) qMem)
    exact Nat.lt_trans this (pageSize_lt_of_sweepFuel enough)
  · intro s kept q qMem unpinned b bMem o lower upper
    have same := Halfway.header_eq swept start qMem bMem
    rw [← same.2 o upper]
    apply kept q qMem ?_ b bMem o lower
    · dsimp only
      rw [same.1]
      exact upper
    · exact fun pinned => unpinned ((Halfway.hasPinned_iff swept start qMem).mp pinned)

namespace Halfway

/-- The pages with a pinned block stay in use, the others are evacuated. -/
theorem mem_alive_iff (half : Halfway pf h c bigs moved s c₂) (qMem : q ∈ c.alive) :
    q ∈ c₂.alive ↔ HasPinned h.mem c q := by
  rcases half.evacuated with ⟨h₁, swept, ev⟩
  rw [← hasPinned_iff swept half.start qMem]
  constructor
  · intro inAlive
    by_contra unpinned
    have inFrom := (ev.mem_fromSpace q).mpr ⟨qMem, unpinned⟩
    exact half.arena.not_mem_alive_of_fromSpace inFrom inAlive
  · exact fun pinned => (ev.stays q qMem pinned).1

/-- All words of a block but the first are the same before and after the evacuation. -/
theorem old_data (half : Halfway pf h c bigs moved s c₂) (kept : FromData h c s.heap.mem)
    (qMem : q ∈ c.alive) (bMem : b ∈ c.blocks q) {o : Nat} (lower : 8 ≤ o)
    (upper : o < blockSize (h.mem b)) : s.heap.mem (b + 8 + o) = h.mem (b + 8 + o) := by
  by_cases pinned : HasPinned h.mem c q
  · rcases half.evacuated with ⟨h₁, swept, ev⟩
    have same := header_eq swept half.start qMem bMem
    rcases ev.stays q qMem ((hasPinned_iff swept half.start qMem).mpr pinned) with ⟨_, stays⟩
    have data := (stays b bMem).2.2 o (by dsimp only; rwa [same.1])
    exact data.trans (same.2 o upper)
  · exact kept q qMem pinned b bMem o lower upper

/-- The header of a block that was copied leads to the copy. -/
theorem forward (half : Halfway pf h c bigs moved s c₂) (qMem : q ∈ c.alive) (bMem : b ∈ c.blocks q)
    (marked : blockIsMarked (s.heap.mem b) = true) :
    q ∈ c₂.fromSpace ∧ s.heap.mem (b + 8) = relocate moved b + 8 := by
  rcases half.evacuated with ⟨h₁, swept, ev⟩
  by_cases pinned : HasPinned h₁.mem c.toSweep q
  · rcases ev.stays q qMem pinned with ⟨_, stays⟩
    rw [(stays b bMem).2.1, (retainedHeader_flags _).2.1] at marked
    cases marked
  · have inFrom := (ev.mem_fromSpace q).mpr ⟨qMem, pinned⟩
    have header := ev.fromHeader q inFrom b bMem
    rw [header] at marked
    have moves := relocate_of_mem (ev.complete q inFrom b bMem marked)
    exact ⟨inFrom, (ev.copies _ moves).1.forward⟩

end Halfway

/-- The slots and roots that the sweep visits, in its order. -/
def visitedWords (threads : ThreadRoots) (h : Heap) (c : Census) (records : List Nat)
    (moved : List (Nat × Nat)) (m : Memory) (c₂ : Census) : List Nat :=
  patchedSlots h c records moved m c₂ ++ threads.flatten

/-- The base in the record `r` is the base object of before or its image. -/
structure BaseOf (h : Heap) (c : Census) (bigs records : List Nat) (moved : List (Nat × Nat))
    (r w : Nat) : Prop where
  small : ∀ q ∈ c.alive, ∀ b ∈ c.blocks q, b ∉ records → survives h.mem b = true →
    compositeBase h.mem (blockData r) = objectOf b →
      w = objectOf b ∨ w = objectOf (relocate moved b)
  large : ∀ big ∈ bigs, bigSurvives h.mem big = true →
    compositeBase h.mem (blockData r) = objectOf (bigHeader big) → w = objectOf (bigHeader big)

/-- It is so at the beginning. -/
theorem BaseOf.start (h : Heap) (c : Census) (bigs records : List Nat) (moved : List (Nat × Nat))
    (r : Nat) : BaseOf h c bigs records moved r (compositeBase h.mem (blockData r)) where
  small _ _ _ _ _ _ base := Or.inl base
  large _ _ _ base := base

theorem getBlock_objectOf (b : Nat) : getBlock (getMetaInf (objectOf b)) = b := by
  rw [objectOf_eq]
  simp only [getBlock, getMetaInf, sizeofBaseMeta, sizeofBlock]
  omega

namespace RecordHeap

theorem root_outside (heap : RecordHeap pf threads h c bigs records)
    (half : Halfway pf h c bigs moved s c₂) (isRoot : x ∈ threads.flatten) :
    Outside pf s.heap c₂ x ∧ s.heap.mem x = h.mem x :=
  half.outside (heap.rootOff x isRoot).2

/-- A visited word of a page is a slot in the image of an object. -/
theorem visited_in_page (heap : RecordHeap pf threads h c bigs records)
    (half : Halfway pf h c bigs moved s c₂) (pMem : p ∈ c₂.pages) (lower : p ≤ x)
    (upper : x < p + pf.pageSize)
    (mem : x ∈ visitedWords threads h c records moved s.heap.mem c₂) :
    x ∈ patchedSlots h c records moved s.heap.mem c₂ := by
  rcases List.mem_append.mp mem with slot | isRoot
  · exact slot
  · have := (heap.root_outside half isRoot).1.2 p pMem
    omega

theorem record_block (heap : RecordHeap pf threads h c bigs records)
    (half : Halfway pf h c bigs moved s c₂) (isRecord : r ∈ records) :
    ∃ q ∈ c.alive, r ∈ c.blocks q ∧ q ∈ c₂.tiled ∧ r ∈ c₂.blocks q ∧
      24 ≤ blockSize (s.heap.mem r) := by
  rcases heap.record r isRecord with ⟨q, qMem, rMem, large⟩
  rcases half.old_block qMem rMem with ⟨rMem₂, size, _⟩
  exact ⟨q, qMem, rMem, half.old_tiled qMem rMem, rMem₂, by omega⟩

/-- A word of a page that is no block data is visited only if it is the header of a record. -/
theorem notData_apart (heap : RecordHeap pf threads h c bigs records)
    (half : Halfway pf h c bigs moved s c₂) (pMem : p ∈ c₂.pages) (lower : p ≤ x)
    (upper : x < p + pf.pageSize) (notData : NotData pf s.heap.mem c₂ x) :
    x ∉ visitedWords threads h c records moved s.heap.mem c₂ ∧ ∀ r ∈ records, x ≠ r + 16 := by
  constructor
  · intro mem
    rcases heap.mem_patchedSlots half (heap.visited_in_page half pMem lower upper mem) with
      ⟨t, tMem, _, _, _, _, _, _, dMem, _, low, high⟩
    have := notData.away t (Classifying.tiled_of_alive tMem) _ dMem
    omega
  · intro r isRecord
    rcases heap.record_block half isRecord with ⟨q, _, _, qTiled, rMem, large⟩
    have := notData.away q qTiled r rMem
    omega

theorem patchable_all (heap : RecordHeap pf threads h c bigs records)
    (half : Halfway pf h c bigs moved s c₂) :
    Patchable s.heap.mem (visitedWords threads h c records moved s.heap.mem c₂) records := by
  have patchable := heap.patchable half
  have slotPage : ∀ x ∈ patchedSlots h c records moved s.heap.mem c₂,
      ∃ t ∈ c₂.pages, t ≤ x ∧ x < t + pf.pageSize := by
    intro x mem
    rcases heap.mem_patchedSlots half mem with ⟨t, tMem, _, _, _, _, _, _, dMem, _, low, high⟩
    have tTiled := Classifying.tiled_of_alive tMem
    have := (half.arena.pageOk t tTiled).block_bounds dMem
    exact ⟨t, Arena.tiled_pages tTiled, by omega, by omega⟩
  refine
    { once := ?_, nonnull := ?_, composite := ?_, apart := ?_, records := patchable.records }
  · refine List.nodup_append'.mpr ⟨patchable.once, heap.rootsNodup, fun x slot isRoot => ?_⟩
    rcases slotPage x slot with ⟨t, tPages, lower, upper⟩
    have := (heap.root_outside half isRoot).1.2 t tPages
    omega
  · intro x mem
    rcases List.mem_append.mp mem with slot | isRoot
    · exact patchable.nonnull x slot
    · exact (heap.rootOff x isRoot).1
  · intro x mem composite
    rcases List.mem_append.mp mem with slot | isRoot
    · exact patchable.composite x slot composite
    · have word := (heap.root_outside half isRoot).2
      rw [word] at composite
      rcases heap.root x isRoot composite with ⟨r, rMem, refers⟩
      refine ⟨r, rMem, ?_⟩
      rw [RefersTo, word]
      exact refers
  · intro x mem r isRecord
    rcases List.mem_append.mp mem with slot | isRoot
    · exact patchable.apart x slot r isRecord
    · rcases heap.record_block half isRecord with ⟨q, _, _, qTiled, rMem, large⟩
      have := (half.arena.pageOk q qTiled).block_bounds rMem
      have := (heap.root_outside half isRoot).1.2 q (Arena.tiled_pages qTiled)
      omega

/-- A word of the data of a block that holds no record, or of its header, is no word of a record. -/
theorem block_apart_record (heap : RecordHeap pf threads h c bigs records)
    (half : Halfway pf h c bigs moved s c₂) (tTiled : t ∈ c₂.tiled) (dMem : d ∈ c₂.blocks t)
    (notRecord : d ∉ records) (lower : d ≤ x) (upper : x < d + 8 + blockSize (s.heap.mem d)) :
    x ∉ records ∧ ∀ r ∈ records, x ≠ r + 16 := by
  have away : ∀ r ∈ records, x < r ∨ r + 32 ≤ x := by
    intro r isRecord
    rcases heap.record_block half isRecord with ⟨q, _, _, qTiled, rMem, large⟩
    have different : d ≠ r := by
      rintro rfl
      exact notRecord isRecord
    have := half.arena.blocks_disjoint tTiled dMem qTiled rMem different
    omega
  constructor
  · intro isRecord
    have := away x isRecord
    omega
  · intro r isRecord
    have := away r isRecord
    omega

/-- A word of a big block is not visited, and is no word of a record. -/
theorem big_apart (heap : RecordHeap pf threads h c bigs records)
    (half : Halfway pf h c bigs moved s c₂) {big : Nat} (mem : big ∈ bigs)
    (alive : bigSurvives h.mem big = true) (lower : big ≤ x)
    (upper : x < big + bigLength pf h.mem big) :
    x ∉ visitedWords threads h c records moved s.heap.mem c₂ ∧ x ∉ records ∧
      ∀ r ∈ records, x ≠ r + 16 := by
  have out := (half.big_outside mem alive lower upper).1
  have recordAway : ∀ r ∈ records, x < r ∨ r + 32 ≤ x := by
    intro r isRecord
    rcases heap.record_block half isRecord with ⟨p, _, _, pTiled, rMem, _⟩
    have := (half.arena.pageOk p pTiled).block_bounds rMem
    have := out.2 p (Arena.tiled_pages pTiled)
    omega
  refine ⟨fun visited => ?_, fun isRecord => ?_, fun r isRecord => ?_⟩
  · rcases List.mem_append.mp visited with slot | isRoot
    · rcases heap.mem_patchedSlots half slot with ⟨t, tMem, _, _, _, _, _, _, dMem, _, low, high⟩
      have tTiled := Classifying.tiled_of_alive tMem
      have := (half.arena.pageOk t tTiled).block_bounds dMem
      have := out.2 t (Arena.tiled_pages tTiled)
      omega
    · have := (heap.rootOff x isRoot).2.2 big mem
      omega
  · have := recordAway x isRecord
    omega
  · have := recordAway r isRecord
    omega

/-- The bases of records stay within the base object and its image. -/
theorem basesFollow (heap : RecordHeap pf threads h c bigs records)
    (half : Halfway pf h c bigs moved s c₂) :
    BasesFollow s.heap.mem (visitedWords threads h c records moved s.heap.mem c₂) records
      (BaseOf h c bigs records moved) := by
  intro m' frame r isRecord w holds isMarked
  have header : ∀ t ∈ c₂.tiled, ∀ d ∈ c₂.blocks t, d ∉ records → m' d = s.heap.mem d := by
    intro t tTiled d dMem other
    have bounds := (half.arena.pageOk t tTiled).block_bounds dMem
    have apart := heap.notData_apart half (Arena.tiled_pages tTiled) (by omega) (by omega)
      (half.arena.header_notData tTiled dMem)
    exact frame d apart.1 other apart.2
  constructor
  · intro q qMem b bMem notRecord alive base
    have bTiled := half.old_tiled qMem bMem
    have bMem₂ := (half.old_block qMem bMem).1
    rcases holds.small q qMem b bMem notRecord alive base with rfl | rfl
    · rw [getBlock_objectOf] at isMarked ⊢
      rw [header q bTiled b bMem₂ notRecord] at isMarked
      rcases half.forward qMem bMem isMarked with ⟨inFrom, forward⟩
      have bounds := (half.arena.pageOk q bTiled).block_bounds bMem₂
      have word : m' (b + 8) = s.heap.mem (b + 8) := by
        have apart := heap.block_apart_record half bTiled bMem₂ notRecord (x := b + 8) (by omega)
          (by omega)
        apply frame _ ?_ apart.1 apart.2
        intro mem
        have slot := heap.visited_in_page half (Arena.tiled_pages bTiled) (by omega) (by omega) mem
        rcases heap.mem_patchedSlots half slot with ⟨t, tMem, _, _, _, _, _, _, dMem, _, low, high⟩
        have tTiled := Classifying.tiled_of_alive tMem
        have block := (half.arena.pageOk t tTiled).block_bounds dMem
        have other : q ≠ t := by
          rintro rfl
          exact half.arena.not_mem_alive_of_fromSpace inFrom tMem
        have := half.arena.apart (Arena.tiled_pages bTiled) (Arena.tiled_pages tTiled) other
        omega
      right
      simp only [forwardPointer, blockData, sizeofBlock]
      rw [word, forward]
      rfl
    · rw [getBlock_objectOf] at isMarked
      rcases half.image qMem bMem alive with ⟨image, _, t, tMem, dMem⟩
      have other : relocate moved b ∉ records := by
        intro isRecord'
        rcases heap.record _ isRecord' with ⟨p, pMem, rMem, _⟩
        exact CompositeHeap.image_ne_record half qMem bMem notRecord tMem dMem pMem rMem isRecord'
          rfl
      rw [header t (Classifying.tiled_of_alive tMem) _ dMem other, image.unmarked] at isMarked
      cases isMarked
  · intro big mem alive base
    obtain rfl := holds.large big mem alive base
    rw [getBlock_objectOf] at isMarked
    rcases bigHeader_bounds pf h.mem big with ⟨lower, upper⟩
    have apart := heap.big_apart half mem alive lower upper
    have unflagged := (half.big_outside mem alive lower upper).2.2 rfl
    rw [frame _ apart.1 apart.2.1 apart.2.2, unflagged, (flags_unmark_unpin _).2.1] at isMarked
    cases isMarked

/-- The memory during the pass. -/
abbrev Pass (threads : ThreadRoots) (h : Heap) (c : Census) (bigs records : List Nat)
    (moved : List (Nat × Nat)) (m : Memory) (c₂ : Census) (todo : List Nat) (m' : Memory) : Prop :=
  Flagging m (visitedWords threads h c records moved m c₂) records
    (BaseOf h c bigs records moved) todo m'

/-- The memory during the pass over the pages: the slots `rest` are still to be fixed, and then the
roots. -/
abbrev PagePass (threads : ThreadRoots) (h : Heap) (c : Census) (bigs records : List Nat)
    (moved : List (Nat × Nat)) (m : Memory) (c₂ : Census) (rest : List Nat) (m' : Memory) : Prop :=
  Pass threads h c bigs records moved m c₂ (rest ++ threads.flatten) m'

/-- The pass starts with the base objects of before. -/
theorem pass_start (heap : RecordHeap pf threads h c bigs records)
    (half : Halfway pf h c bigs moved s c₂) (kept : FromData h c s.heap.mem) :
    Pass threads h c bigs records moved s.heap.mem c₂
      (visitedWords threads h c records moved s.heap.mem c₂) s.heap.mem := by
  refine Flagging.start fun r isRecord => ?_
  rcases heap.record r isRecord with ⟨p, pMem, rMem, large⟩
  have data : s.heap.mem (r + 16) = compositeBase h.mem (blockData r) :=
    half.old_data kept pMem rMem (o := 8) (by omega) (by omega)
  rw [data]
  exact BaseOf.start h c bigs records moved r

/-- Words of pages that are no block data keep their value, but for the headers of records. -/
theorem pass_notData (heap : RecordHeap pf threads h c bigs records)
    (half : Halfway pf h c bigs moved s c₂)
    (pass : Pass threads h c bigs records moved s.heap.mem c₂ todo m') (pMem : p ∈ c₂.pages)
    (lower : p ≤ x) (upper : x < p + pf.pageSize) (notData : NotData pf s.heap.mem c₂ x)
    (notRecord : x ∉ records) : m' x = s.heap.mem x := by
  have apart := heap.notData_apart half pMem lower upper notData
  exact pass.frame x apart.1 notRecord apart.2

/-- Headers of blocks keep the size and the dead flag. -/
theorem pass_header (heap : RecordHeap pf threads h c bigs records)
    (half : Halfway pf h c bigs moved s c₂)
    (pass : Pass threads h c bigs records moved s.heap.mem c₂ todo m') (tTiled : t ∈ c₂.tiled)
    (dMem : d ∈ c₂.blocks t) : blockSize (m' d) = blockSize (s.heap.mem d) ∧
      blockIsDead (m' d) = blockIsDead (s.heap.mem d) := by
  by_cases isRecord : d ∈ records
  · exact pass.header d isRecord
  · have bounds := (half.arena.pageOk t tTiled).block_bounds dMem
    rw [heap.pass_notData half pass (Arena.tiled_pages tTiled) (by omega) (by omega)
      (half.arena.header_notData tTiled dMem) isRecord]
    exact ⟨rfl, rfl⟩

/-- The words in front of the blocks of a page keep their value. -/
theorem pass_pageWord (heap : RecordHeap pf threads h c bigs records)
    (half : Halfway pf h c bigs moved s c₂)
    (pass : Pass threads h c bigs records moved s.heap.mem c₂ todo m') (pMem : p ∈ c₂.pages)
    (lower : p ≤ x) (upper : x < p + 16) (notData : NotData pf s.heap.mem c₂ x) :
    m' x = s.heap.mem x := by
  have large := pf.pageSize_ge
  apply heap.pass_notData half pass pMem lower (by omega) notData
  intro isRecord
  rcases heap.record_block half isRecord with ⟨q, _, _, qTiled, rMem, _⟩
  have := (half.arena.pageOk q qTiled).block_bounds rMem
  by_cases same : p = q
  · omega
  · have := half.arena.apart pMem (Arena.tiled_pages qTiled) same
    omega

/-- A visited word refers to the record that the word it comes from refers to. -/
theorem visited_origin (heap : RecordHeap pf threads h c bigs records)
    (half : Halfway pf h c bigs moved s c₂)
    (mem : x ∈ visitedWords threads h c records moved s.heap.mem c₂) :
    ∃ g, VisitedWord threads h c records g ∧ s.heap.mem x = h.mem g := by
  rcases List.mem_append.mp mem with slot | isRoot
  · rcases heap.mem_patchedSlots half slot with
      ⟨_, _, q, qMem, b, bMem, alive, isObject, _, slot, _⟩
    rcases half.slot_eq_of qMem bMem alive (heap.object q qMem b bMem alive isObject)
      (fun _ off => off) slot with ⟨y, yMem, _, word⟩
    exact ⟨y, Or.inr ⟨q, qMem, b, bMem, alive, isObject, yMem⟩, word⟩
  · exact ⟨x, Or.inl isRoot, (heap.root_outside half isRoot).2⟩

/-- Every word that refers to a record is visited at its new place. -/
theorem visited_image (heap : RecordHeap pf threads h c bigs records)
    (half : Halfway pf h c bigs moved s c₂) {g : Nat}
    (visited : VisitedWord threads h c records g) :
    ∃ x ∈ visitedWords threads h c records moved s.heap.mem c₂, s.heap.mem x = h.mem g := by
  rcases visited with isRoot | ⟨q, qMem, b, bMem, alive, isObject, slot⟩
  · exact ⟨g, List.mem_append_right _ isRoot, (heap.root_outside half isRoot).2⟩
  · have object := heap.object q qMem b bMem alive isObject
    have bounds := object.slot_bounds slot
    rcases half.image qMem bMem alive with ⟨image, notDead, t, tMem, dMem⟩
    refine ⟨g - b + relocate moved b, List.mem_append_left _ ?_, ?_⟩
    · refine mem_visitedSlots.mpr
        ⟨relocate moved b, List.mem_flatMap.mpr ⟨t, tMem, dMem⟩, notDead, ?_, ?_⟩
      · exact decide_eq_true (mem_objectImages.mpr ⟨q, qMem, b, bMem, alive, isObject, rfl⟩)
      · rw [(half.shape_of qMem bMem alive object fun _ off => off).slotsOf_eq]
        exact List.mem_map.mpr ⟨g, slot, rfl⟩
    · have data := image.data (g - b - 8) (by omega)
      rw [show relocate moved b + 8 + (g - b - 8) = g - b + relocate moved b by omega,
        show b + 8 + (g - b - 8) = g by omega] at data
      exact data

/-- If all records that are visited leave, no block of a page in use is flagged during the pass. -/
theorem pass_unflagged (heap : RecordHeap pf threads h c bigs records)
    (half : Halfway pf h c bigs moved s c₂)
    (pass : Pass threads h c bigs records moved s.heap.mem c₂ todo m')
    (leave : RecordsLeave threads h c records) (tMem : t ∈ c₂.alive) (dMem : d ∈ c₂.blocks t) :
    blockIsPinned (m' d) = false ∧ blockIsMarked (m' d) = false := by
  have tTiled := Classifying.tiled_of_alive tMem
  have bounds := (half.arena.pageOk t tTiled).block_bounds dMem
  rcases half.origin tMem dMem with ⟨_, _, _, _, image, _⟩
  have same : m' d = s.heap.mem d := by
    by_cases isRecord : d ∈ records
    · apply pass.untouched d isRecord
      intro x mem refers
      rcases heap.visited_origin half mem with ⟨g, visited, word⟩
      rcases heap.record d isRecord with ⟨q, qMem, block, _⟩
      have refersG : RefersTo h.mem g d := by
        rw [RefersTo, ← word]
        exact refers
      have unpinned := leave g visited d isRecord refersG q qMem block
      rcases half.old_block qMem block with ⟨block₂, _, place⟩
      have samePage := half.arena.page_unique tTiled dMem (half.old_tiled qMem block) block₂
      subst samePage
      exact unpinned ((half.mem_alive_iff qMem).mp tMem)
    · exact heap.pass_notData half pass (Arena.tiled_pages tTiled) (by omega) (by omega)
        (half.arena.header_notData tTiled dMem) isRecord
  rw [same]
  exact ⟨image.unpinned, image.unmarked⟩

/-- At the end of the pass every visited record is marked. -/
theorem pass_flagged (heap : RecordHeap pf threads h c bigs records)
    (half : Halfway pf h c bigs moved s c₂)
    (pass : Pass threads h c bigs records moved s.heap.mem c₂ [] m') {g : Nat}
    (visited : VisitedWord threads h c records g) (isRecord : r ∈ records)
    (refers : RefersTo h.mem g r) : blockIsMarked (m' r) = true := by
  rcases heap.visited_image half visited with ⟨x, mem, word⟩
  refine pass.flagged x mem (by simp) r isRecord ?_
  rw [RefersTo, word]
  exact refers

/-- While the roots are still to be visited, the objects keep their `base_meta` and their shell. -/
theorem pass_shape (heap : RecordHeap pf threads h c bigs records)
    (half : Halfway pf h c bigs moved s c₂)
    (pass : PagePass threads h c bigs records moved s.heap.mem c₂ rest m')
    (tMem : t ∈ c₂.alive) (dMem : d ∈ c₂.blocks t) (isImage : d ∈ objectImages h c records moved) :
    SameShape s.heap.mem d m' d := by
  rcases mem_objectImages.mp isImage with ⟨q, qMem, b, bMem, alive, isObject, rfl⟩
  have object := heap.gcObject half qMem bMem alive isObject
  have room := object.room
  have tTiled := Classifying.tiled_of_alive tMem
  have bounds := (half.arena.pageOk t tTiled).block_bounds dMem
  have notRecord : relocate moved b ∉ records := by
    intro isRecord
    rcases heap.record _ isRecord with ⟨p, pMem, rMem, _⟩
    exact CompositeHeap.image_ne_record half qMem bMem isObject tMem dMem pMem rMem isRecord rfl
  refine SameShape.of_agree (fun o less => ?_) fun x lower upper => ?_
  · have apart := heap.block_apart_record half tTiled dMem notRecord
      (x := relocate moved b + 8 + o) (by omega) (by omega)
    apply pass.frame _ ?_ apart.1 apart.2
    intro mem
    have slot := heap.visited_in_page half (Arena.tiled_pages tTiled) (by omega) (by omega) mem
    rcases heap.mem_patchedSlots half slot with
      ⟨t', tMem', _, _, b', _, _, _, dMem', _, low, high⟩
    by_cases same : relocate moved b = relocate moved b'
    · omega
    · have := half.arena.blocks_disjoint tTiled dMem (Classifying.tiled_of_alive tMem') dMem' same
      omega
  · have out := (half.outside (object.shellApart x lower upper)).1
    by_cases isRoot : x ∈ threads.flatten
    · exact pass.pending x (List.mem_append_right _ isRoot)
    · have recordAway : ∀ r ∈ records, x < r ∨ r + 32 ≤ x := by
        intro r isRecord
        rcases heap.record_block half isRecord with ⟨p, _, _, pTiled, rMem, _⟩
        have := (half.arena.pageOk p pTiled).block_bounds rMem
        have := out.2 p (Arena.tiled_pages pTiled)
        omega
      apply pass.frame
      · intro mem
        rcases List.mem_append.mp mem with slot | root
        · rcases heap.mem_patchedSlots half slot with
            ⟨t', tMem', _, _, _, _, _, _, dMem', _, low, high⟩
          have tTiled' := Classifying.tiled_of_alive tMem'
          have := (half.arena.pageOk t' tTiled').block_bounds dMem'
          have := out.2 t' (Arena.tiled_pages tTiled')
          omega
        · exact isRoot root
      · intro isRecord
        have := recordAway x isRecord
        omega
      · intro r isRecord
        have := recordAway r isRecord
        omega

/-- A copy lies apart from the records. -/
theorem copy_not_record (heap : RecordHeap pf threads h c bigs records)
    (half : Halfway pf h c bigs moved s c₂) (qMem : q ∈ c.alive) (bMem : b ∈ c.blocks q)
    (inFrom : q ∈ c₂.fromSpace) (tMem : t ∈ c₂.alive) (dMem : relocate moved b ∈ c₂.blocks t) :
    relocate moved b ∉ records := by
  have tTiled := Classifying.tiled_of_alive tMem
  have notAlive : ∀ p, p ∈ c₂.fromSpace → ∀ e, e ∈ c₂.blocks p → e ∉ c₂.blocks t := by
    intro p pFrom e eMem inTarget
    have samePage :=
      half.arena.page_unique tTiled inTarget (Classifying.tiled_of_fromSpace pFrom) eMem
    exact half.arena.not_mem_alive_of_fromSpace pFrom (samePage ▸ tMem)
  intro isRecord
  rcases heap.record _ isRecord with ⟨p, pMem, rMem, _⟩
  rcases half.old_block pMem rMem with ⟨rMem₂, _, ⟨_, stays⟩ | pFrom⟩
  · rcases half.evacuated with ⟨h₁, swept, ev⟩
    have same := ev.relocate_inj qMem bMem pMem rMem stays.symm
    exact notAlive q inFrom b (half.old_block qMem bMem).1 (same ▸ dMem)
  · exact notAlive p pFrom _ rMem₂ dMem

/-- Where the base in the image of a surviving record leads during the pass. -/
theorem pass_shell (heap : RecordHeap pf threads h c bigs records)
    (half : Halfway pf h c bigs moved s c₂)
    (pass : Pass threads h c bigs records moved s.heap.mem c₂ todo m') (isRecord : r ∈ records)
    (alive : survives h.mem r = true) :
    BaseOf h c bigs records moved r (metaShell m' (blockData (relocate moved r))) := by
  rcases heap.record r isRecord with ⟨p, pMem, rMem, large⟩
  rcases half.old_block pMem rMem with ⟨rMem₂, _, ⟨_, stays⟩ | inFrom⟩
  · rw [stays]
    exact pass.base r isRecord
  · -- the base in a copy is never written
    rcases half.image pMem rMem alive with ⟨image, _, t, tMem, dMem⟩
    have tTiled := Classifying.tiled_of_alive tMem
    have bounds := (half.arena.pageOk t tTiled).block_bounds dMem
    have sizeEq := image.size
    have apart := heap.block_apart_record half tTiled dMem
      (heap.copy_not_record half pMem rMem inFrom tMem dMem) (x := relocate moved r + 16) (by omega)
      (by omega)
    have word : m' (relocate moved r + 16) = s.heap.mem (relocate moved r + 16) := by
      apply pass.frame _ ?_ apart.1 apart.2
      intro mem
      have slot := heap.visited_in_page half (Arena.tiled_pages tTiled) (by omega) (by omega) mem
      rcases heap.mem_patchedSlots half slot with
        ⟨t', tMem', q', qMem', b', bMem', _, isObject', dMem', _, low, high⟩
      by_cases same : relocate moved r = relocate moved b'
      · rcases half.evacuated with ⟨h₁, swept, ev⟩
        have := ev.relocate_inj pMem rMem qMem' bMem' same
        exact isObject' (this ▸ isRecord)
      · have := half.arena.blocks_disjoint tTiled dMem (Classifying.tiled_of_alive tMem') dMem' same
        omega
    have base : metaShell m' (blockData (relocate moved r)) = compositeBase h.mem (blockData r) :=
      word.trans (image.data 8 (by omega))
    rw [base]
    exact BaseOf.start h c bigs records moved r

/-- The null second word of an object stays null, in its block and in the image. -/
theorem pass_null (heap : RecordHeap pf threads h c bigs records)
    (half : Halfway pf h c bigs moved s c₂) (kept : FromData h c s.heap.mem)
    (pass : Pass threads h c bigs records moved s.heap.mem c₂ todo m') (qMem : q ∈ c.alive)
    (bMem : b ∈ c.blocks q) (notRecord : b ∉ records) (alive : survives h.mem b = true)
    (large : 40 ≤ blockSize (h.mem b)) (null : h.mem (objectOf b + 8) = 0) :
    m' (objectOf b + 8) = 0 ∧ m' (objectOf (relocate moved b) + 8) = 0 := by
  have stays : ∀ t ∈ c₂.tiled, ∀ e ∈ c₂.blocks t, e ∉ records → 40 ≤ blockSize (s.heap.mem e) →
      s.heap.mem (e + 8 + 32) = 0 → m' (objectOf e + 8) = 0 := by
    intro t tTiled e eMem other size word
    have apart := heap.block_apart_record half tTiled eMem other (x := e + 8 + 32) (by omega)
      (by omega)
    rw [objectOf_eq]
    exact pass.nulls (e + 8 + 32) apart.1 apart.2 word
  have original : h.mem (b + 8 + 32) = 0 := by
    rw [objectOf_eq] at null
    exact null
  constructor
  · rcases half.old_block qMem bMem with ⟨bMem₂, size, _⟩
    apply stays q (half.old_tiled qMem bMem) b bMem₂ notRecord (by omega)
    rw [half.old_data kept qMem bMem (by omega) (by omega)]
    exact original
  · rcases half.image qMem bMem alive with ⟨image, _, t, tMem, dMem⟩
    have other : relocate moved b ∉ records := by
      intro isRecord
      rcases heap.record _ isRecord with ⟨p, pMem, rMem, _⟩
      exact CompositeHeap.image_ne_record half qMem bMem notRecord tMem dMem pMem rMem isRecord rfl
    apply stays t (Classifying.tiled_of_alive tMem) _ dMem other
    · rw [image.size]
      exact large
    · rw [image.data 32 (by omega)]
      exact original

/-- The same for an object in a big block. -/
theorem pass_bigNull (heap : RecordHeap pf threads h c bigs records)
    (half : Halfway pf h c bigs moved s c₂)
    (pass : Pass threads h c bigs records moved s.heap.mem c₂ todo m') {big : Nat}
    (mem : big ∈ bigs) (alive : bigSurvives h.mem big = true)
    (large : 40 ≤ blockSize (h.mem (bigHeader big)))
    (null : h.mem (objectOf (bigHeader big) + 8) = 0) :
    m' (objectOf (bigHeader big) + 8) = 0 := by
  have length := bigLength_ge pf h.mem big
  have lower : big ≤ objectOf (bigHeader big) + 8 := by
    rw [objectOf_eq]
    simp only [bigHeader]
    omega
  have upper : objectOf (bigHeader big) + 8 < big + bigLength pf h.mem big := by
    rw [objectOf_eq]
    simp only [bigHeader] at *
    omega
  have apart := heap.big_apart half mem alive lower upper
  apply pass.nulls _ apart.2.1 apart.2.2
  rw [(half.big_outside mem alive lower upper).2.1 ?_ ?_]
  · exact null
  · rw [objectOf_eq]
    simp only [bigHeader]
    omega
  · rw [objectOf_eq]
    omega

/-- A `ref_count` that is zero stays zero in the image of a surviving record. -/
theorem pass_refCount (heap : RecordHeap pf threads h c bigs records)
    (half : Halfway pf h c bigs moved s c₂) (kept : FromData h c s.heap.mem)
    (pass : Pass threads h c bigs records moved s.heap.mem c₂ todo m') (isRecord : r ∈ records)
    (alive : survives h.mem r = true) (none : metaCount h.mem (blockData r) = 0) :
    metaCount m' (blockData (relocate moved r)) = 0 := by
  rcases heap.record r isRecord with ⟨p, pMem, rMem, large⟩
  have original : h.mem (r + 8 + 16) = 0 := none
  rcases half.old_block pMem rMem with ⟨rMem₂, size, ⟨_, stays⟩ | inFrom⟩
  · have away : ∀ r' ∈ records, r + 8 + 16 ≠ r' ∧ r + 8 + 16 ≠ r' + 16 := by
      intro r' isRecord'
      by_cases same : r = r'
      · omega
      · rcases heap.record_block half isRecord' with ⟨_, _, _, qTiled', rMem', large'⟩
        have := half.arena.blocks_disjoint (half.old_tiled pMem rMem) rMem₂ qTiled' rMem' same
        omega
    rw [stays]
    apply pass.nulls (r + 8 + 16) (fun mem => (away _ mem).1 rfl) fun r' mem => (away r' mem).2
    rw [half.old_data kept pMem rMem (by omega) (by omega)]
    exact original
  · rcases half.image pMem rMem alive with ⟨image, _, t, tMem, dMem⟩
    have sizeEq := image.size
    have apart := heap.block_apart_record half (Classifying.tiled_of_alive tMem) dMem
      (heap.copy_not_record half pMem rMem inFrom tMem dMem) (x := relocate moved r + 8 + 16)
      (by omega) (by omega)
    apply pass.nulls (relocate moved r + 8 + 16) apart.1 apart.2
    rw [image.data 16 (by omega)]
    exact original

/-- The image of an inert record has no slots or no elements when it is read as a `base_meta`. -/
theorem pass_inert (heap : RecordHeap pf threads h c bigs records)
    (inert : Inert h c bigs records) (half : Halfway pf h c bigs moved s c₂)
    (kept : FromData h c s.heap.mem)
    (pass : Pass threads h c bigs records moved s.heap.mem c₂ todo m') (isRecord : r ∈ records)
    (alive : survives h.mem r = true) :
    shellCount m' (metaShell m' (blockData (relocate moved r))) = 0 ∨
      metaCount m' (blockData (relocate moved r)) = 0 := by
  rcases inert r isRecord alive with none | ⟨b, object, large, base, null⟩
  · exact Or.inr (heap.pass_refCount half kept pass isRecord alive none)
  · left
    have shell := heap.pass_shell half pass isRecord alive
    rcases object with ⟨q, qMem, bMem, notRecord, bAlive⟩ | ⟨big, mem, bigAlive, rfl⟩
    · have zero := heap.pass_null half kept pass qMem bMem notRecord bAlive large null
      rcases shell.small q qMem b bMem notRecord bAlive base with eq | eq
      · rw [eq]
        exact zero.1
      · rw [eq]
        exact zero.2
    · rw [shell.large big mem bigAlive base]
      exact heap.pass_bigNull half pass mem bigAlive large null

/-- During the pass no block of a page in use is flagged, unless a visited record stays in place. -/
theorem pass_flags (heap : RecordHeap pf threads h c bigs records)
    (half : Halfway pf h c bigs moved s c₂)
    (pass : Pass threads h c bigs records moved s.heap.mem c₂ todo m') (tMem : t ∈ c₂.alive)
    (dMem : d ∈ c₂.blocks t) : (blockIsPinned (m' d) = false ∧ blockIsMarked (m' d) = false) ∨
      (Fault.assertFailed = .assertFailed ∧ ¬RecordsLeave threads h c records) := by
  by_cases leave : RecordsLeave threads h c records
  · exact Or.inl (heap.pass_unflagged half pass leave tMem dMem)
  · exact Or.inr ⟨rfl, leave⟩

/-- The plan for the block of an object alone. -/
theorem object_plan (heap : RecordHeap pf threads h c bigs records)
    (half : Halfway pf h c bigs moved s c₂) (tMem : t ∈ c₂.alive) (dMem : d ∈ c₂.blocks t)
    (isImage : d ∈ objectImages h c records moved) :
    FixPlan (fun fault => fault = .assertFailed ∧ ¬RecordsLeave threads h c records) s.heap.mem [t]
      (fun _ => [d]) (fun _ => true) (PagePass threads h c bigs records moved s.heap.mem c₂) := by
  have tTiled := Classifying.tiled_of_alive tMem
  have tPages := Arena.tiled_pages tTiled
  have large := pf.pageSize_ge
  refine
    { step := fun p rest m' pass => pass.step (heap.patchable_all half) (heap.basesFollow half),
      links := ?_, free := ?_, sizes := ?_, dead := ?_, unflagged := ?_, shape := ?_,
      object := ?_, exhausted := by simp }
  · intro rest m' pass q mem
    rw [List.mem_singleton.mp mem]
    exact heap.pass_pageWord half pass tPages (by omega) (by omega) (half.arena.link_notData tPages)
  · intro rest m' pass q mem
    rw [List.mem_singleton.mp mem]
    exact heap.pass_pageWord half pass tPages (by omega) (by omega) (half.arena.free_notData tTiled)
  · intro rest m' pass _ _ e eMem
    rw [List.mem_singleton.mp eMem]
    exact (heap.pass_header half pass tTiled dMem).1
  · intro rest m' pass _ _ e eMem
    rw [List.mem_singleton.mp eMem]
    exact (heap.pass_header half pass tTiled dMem).2
  · intro rest m' pass _ _ e eMem
    rw [List.mem_singleton.mp eMem]
    exact heap.pass_flags half pass tMem dMem
  · intro rest m' pass _ _ e eMem _ _
    rw [List.mem_singleton.mp eMem]
    exact heap.pass_shape half pass tMem dMem isImage
  · intro _ _ e eMem _ _
    rw [List.mem_singleton.mp eMem]
    rcases mem_objectImages.mp isImage with ⟨q, qMem, b, bMem, alive, isObject, rfl⟩
    have bounds := (half.arena.pageOk t tTiled).block_bounds dMem
    have bounded := half.arena.bounded t tPages
    exact ⟨(heap.gcObject half qMem bMem alive isObject).mono fun _ _ => trivial, by omega⟩

/-- One block of the pass. -/
theorem pass_block (heap : RecordHeap pf threads h c bigs records)
    (inert : Inert h c bigs records) (half : Halfway pf h c bigs moved s c₂)
    (kept : FromData h c s.heap.mem) (enough : pf.pageSize < fuel) (tMem : t ∈ c₂.alive)
    (dMem : d ∈ c₂.blocks t)
    (state : FixState s.heap (PagePass threads h c bigs records moved s.heap.mem c₂)
      (visitedSlots s.heap.mem (fun d => decide (d ∈ objectImages h c records moved)) [d] ++ rest)
      h') :
    Yields (fun fault => fault = .assertFailed ∧ ¬RecordsLeave threads h c records)
      (FixState s.heap (PagePass threads h c bigs records moved s.heap.mem c₂) rest)
      (fixBlock pf fuel d h') := by
  have tTiled := Classifying.tiled_of_alive tMem
  by_cases isObject : blockIsDead (s.heap.mem d) = false ∧ d ∈ objectImages h c records moved
  · -- an object: the rule for objects, on this block alone
    have bounds := (half.arena.pageOk t tTiled).block_bounds dMem
    have same : visitedSlots s.heap.mem (fun d => decide (d ∈ objectImages h c records moved)) [d] =
        visitedSlots s.heap.mem (fun _ => true) [d] := by
      rw [visitedSlots_cons, visitedSlots_cons, decide_eq_true isObject.2]
      rfl
    rw [same] at state
    refine ((heap.object_plan half tMem dMem isObject.2).fixBlock_yields (List.mem_singleton_self t)
      (List.mem_singleton_self d) (by omega) state).mono fun h'' reached => ?_
    rcases reached with ⟨state', _⟩ | ⟨_, _, _, _, _, never, _⟩
    · exact state'
    · cases never
  · -- a dead block or a record: no slot is visited
    have none : visitedSlots s.heap.mem (fun d => decide (d ∈ objectImages h c records moved)) [d] =
        [] := by
      rw [visitedSlots_cons, if_neg]
      · rfl
      · simpa using isObject
    rw [none, List.nil_append] at state
    have unflagged := heap.pass_flags half state.holds tMem dMem
    unfold fixBlock
    refine (assertThat_yields ?_).bind fun _ _ => ?_
    · exact unflagged.imp (fun flags => by simp [flags.1]) id
    refine (assertThat_yields ?_).bind fun _ _ => ?_
    · exact unflagged.imp (fun flags => by simp [flags.2]) id
    rw [(heap.pass_header half state.holds tTiled dMem).2]
    by_cases isDead : blockIsDead (s.heap.mem d) = true
    · rw [if_pos isDead]
      exact state
    · rw [if_neg isDead]
      rw [Bool.not_eq_true] at isDead
      rcases half.origin tMem dMem with ⟨q, qMem, b, bMem, _, survivor⟩
      rcases survivor isDead with ⟨alive, rfl⟩
      have isRecord : b ∈ records := by
        by_contra notRecord
        exact isObject ⟨isDead, mem_objectImages.mpr ⟨q, qMem, b, bMem, alive, notRecord, rfl⟩⟩
      have nothing : FixState s.heap (PagePass threads h c bigs records moved s.heap.mem c₂) rest
          { h' with metaReads := h'.metaReads ++ [blockData (relocate moved b)] } := by
        refine ⟨state.holds, ?_⟩
        rw [state.heapEq]
      dsimp only
      split
      · exact nothing
      · rename_i slots
        have noElements := (heap.pass_inert inert half kept state.holds isRecord alive).resolve_left
          slots
        cases fuel with
        | zero => omega
        | succ fuel =>
            rw [fixElements, noElements, if_neg (Nat.lt_irrefl 0)]
            exact nothing

/-- The pass over the pages in use. -/
theorem pass_pages (heap : RecordHeap pf threads h c bigs records)
    (inert : Inert h c bigs records) (half : Halfway pf h c bigs moved s c₂)
    (kept : FromData h c s.heap.mem) (enough : sweepFuel pf c bigs ≤ fuel) :
    Yields (fun fault => fault = .assertFailed ∧ ¬RecordsLeave threads h c records)
      (FixState s.heap (PagePass threads h c bigs records moved s.heap.mem c₂) [])
      (fixPages pf fuel s.alivePages s.heap) := by
  have arena := half.arena
  have length := half.alive_length_lt
  have large := pf.pageSize_ge
  have pageFuel := pageSize_lt_of_sweepFuel enough
  have pageOk : ∀ q ∈ c₂.alive, PageOk pf s.heap.mem q (c₂.blocks q) := fun q mem =>
    arena.pageOk q (Classifying.tiled_of_alive mem)
  apply fixPages_blocks arena.aliveChain (fun q mem => (pageOk q mem).tiles) ?_ ?_ ?_ ?_ (by omega)
    (fun q mem => Nat.lt_trans (blocks_length_lt arena (Classifying.tiled_of_alive mem)) pageFuel)
  · refine FixState.initial ?_
    have start := heap.pass_start half kept
    rw [visitedWords, patchedSlots, visitedSlots_flatMap] at start
    rw [List.append_nil]
    exact start
  · intro rest m' pass q mem
    have qPages := Arena.tiled_pages (Classifying.tiled_of_alive mem)
    exact heap.pass_pageWord half pass qPages (by omega) (by omega) (arena.link_notData qPages)
  · intro rest m' pass q mem
    have qTiled := Classifying.tiled_of_alive mem
    exact heap.pass_pageWord half pass (Arena.tiled_pages qTiled) (by omega) (by omega)
      (arena.free_notData qTiled)
  · intro rest m' pass q mem d dMem
    exact (heap.pass_header half pass (Classifying.tiled_of_alive mem) dMem).1
  · exact fun q mem d dMem rest h' state => heap.pass_block inert half kept pageFuel mem dMem state

end RecordHeap

end PreciseGc

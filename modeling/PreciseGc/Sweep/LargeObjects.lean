import PreciseGc.Sweep.Relocation

/-!
# References of large objects

The pass that redirects pointers visits the pages in use and the stack roots,
but not the list of big blocks.  A pointer slot of a large object keeps its
word, which is right exactly when the object it designates was not moved.
-/

namespace PreciseGc

open Foundation Memory

variable {pf : Platform} {threads : ThreadRoots} {h h' : Heap} {c c₂ c' : Census}
  {bigs : List Nat} {b q x d big : Nat} {s : SweepState} {moved : List (Nat × Nat)} {fuel : Nat}

/-- The word at `x` designates the block `target`, which lies on no page of `free_list`. -/
def ReferenceKept (pf : Platform) (h : Heap) (c : Census) (x target : Nat) : Prop :=
  Designates (h.mem x) target ∧ ∀ p ∈ c.free, target < p ∨ p + pf.pageSize ≤ target

namespace Midway

/-- A slot of a large object lies in its data. -/
theorem largeSlot_bounds (object : GcObject h.mem (ShellWord pf threads h c bigs) (bigHeader big))
    (mem : x ∈ slotsOf h.mem (bigHeader big)) :
    bigData big ≤ x ∧ x < big + bigLength pf h.mem big := by
  have bounds := object.slot_bounds mem
  have := bigLength_ge pf h.mem big
  simp only [bigHeader, bigData, sizeofBigBlock] at *
  omega

/-- The slots of a large object are where they were. -/
theorem largeShape (mid : Midway pf threads h c bigs moved s c₂)
    (fin : Finished pf threads s c₂ h' c') (bigMem : big ∈ bigs)
    (alive : bigSurvives h.mem big = true)
    (object : GcObject h.mem (ShellWord pf threads h c bigs) (bigHeader big)) :
    SameShape h.mem (bigHeader big) h'.mem (bigHeader big) := by
  have room := object.room
  have long := bigLength_ge pf h.mem big
  refine SameShape.of_agree (fun o less => ?_) fun x lower upper => ?_
  · apply mid.bigData_eq fin bigMem alive
    · simp only [bigHeader, bigData, sizeofBigBlock]
      omega
    · simp only [bigHeader] at room long ⊢
      omega
  · have apart := object.shellApart x lower upper
    exact mid.offHeap_eq fin apart.1 apart.2

/-- A marked block ends up on a page in use. -/
theorem relocate_notFree (mid : Midway pf threads h c bigs moved s c₂)
    (fin : Finished pf threads s c₂ h' c') (qMem : q ∈ c.alive) (bMem : b ∈ c.blocks q)
    (alive : survives h.mem b = true) :
    ∀ p ∈ c'.free, relocate moved b < p ∨ p + pf.pageSize ≤ relocate moved b := by
  intro p pMem
  rcases mid.image qMem bMem alive with ⟨_, _, r, rMem, targetMem⟩
  have rMem' : r ∈ c'.alive := by
    rw [fin.census]
    exact rMem
  have rTiled := Classifying.tiled_of_alive rMem'
  have targetMem' : relocate moved b ∈ c'.blocks r := by
    rw [fin.census]
    exact targetMem
  have bounds := (fin.arena.pageOk r rTiled).block_bounds targetMem'
  have different : r ≠ p := by
    rintro rfl
    have unique := fin.arena.distinct
    simp only [Census.pages] at unique
    exact (List.nodup_append'.mp unique).2.2 (by simp [rMem']) pMem
  have := fin.arena.apart (Arena.tiled_pages rTiled) (by simp [Census.pages, pMem]) different
  omega

/-- The word in a slot of a large object is the one before the sweep. -/
theorem largeSlot_kept (mid : Midway pf threads h c bigs moved s c₂)
    (fin : Finished pf threads s c₂ h' c') (bigMem : big ∈ bigs)
    (alive : bigSurvives h.mem big = true)
    (object : GcObject h.mem (ShellWord pf threads h c bigs) (bigHeader big))
    (mem : x ∈ slotsOf h.mem (bigHeader big)) : h'.mem x = h.mem x := by
  rcases largeSlot_bounds object mem with ⟨lower, upper⟩
  exact mid.bigData_eq fin bigMem alive lower upper

/-- The word in a slot of a large object still designates the block it designated.  It is the
current place of this block exactly when the page of the block has a pinned block. -/
theorem largeReference_iff (mid : Midway pf threads h c bigs moved s c₂)
    (fin : Finished pf threads s c₂ h' c') (qMem : q ∈ c.alive) (bMem : b ∈ c.blocks q)
    (alive : survives h.mem b = true) (designates : Designates (h'.mem x) b) :
    ReferenceKept pf h' c' x (relocate moved b) ↔ HasPinned h.mem c q := by
  constructor
  · intro kept
    by_contra unpinned
    have same : relocate moved b = b := kept.1.unique designates
    have fresh := mid.relocate_fresh qMem unpinned bMem alive qMem bMem
    omega
  · intro pinned
    have stays := mid.relocate_pinned qMem pinned bMem
    refine ⟨?_, mid.relocate_notFree fin qMem bMem alive⟩
    rw [stays]
    exact designates

end Midway

/-- After a sweep a slot of a large object that designated a marked block designates the current
place of this block exactly when the page of the block had a pinned block. -/
theorem sweep_largeReference_iff (ready : SweepReady pf threads h c bigs)
    (deadUnmarked : ∀ q ∈ c.alive, ∀ b ∈ c.blocks q,
      (blockIsDead (h.mem b) && blockIsMarked (h.mem b)) = false)
    (large : ∀ big ∈ bigs, bigSurvives h.mem big = true →
      GcObject h.mem (ShellWord pf threads h c bigs) (bigHeader big))
    (enough : sweepFuel pf c bigs ≤ fuel) (mapped : sweep pf fuel threads h ≠ .error .mapFailed) :
    ∃ h' c' reloc, sweep pf fuel threads h = .ok h' ∧ Arena pf 0 h'.firstPage h' c' ∧
      Relocates threads h c h' c' reloc ∧
        ∀ big ∈ bigs, bigSurvives h.mem big = true →
          ∀ i < countOf h.mem (bigHeader big),
            ∀ j < shellCount h.mem (shellOf h.mem (bigHeader big)),
              ∀ q ∈ c.alive, ∀ b ∈ c.blocks q, blockIsMarked (h.mem b) = true →
                Designates (h.mem (slotAddr h.mem (bigHeader big) i j)) b →
                  (ReferenceKept pf h' c' (slotAddr h'.mem (bigHeader big) i j) (reloc b) ↔
                    HasPinned h.mem c q) := by
  rcases (sweep_yields ready enough).exists_ok mapped with ⟨h', eq, moved, s, c₂, c', mid, fin⟩
  refine ⟨h', c', relocate moved, eq, fin.arena, mid.relocates fin deadUnmarked, ?_⟩
  intro big bigMem alive i iLess j jLess q qMem b bMem marked designates
  have object := large big bigMem alive
  have slot : slotAddr h.mem (bigHeader big) i j ∈ slotsOf h.mem (bigHeader big) :=
    mem_slotsOf.mpr ⟨i, iLess, j, jLess, rfl⟩
  have shape := mid.largeShape fin bigMem alive object
  have place : slotAddr h'.mem (bigHeader big) i j = slotAddr h.mem (bigHeader big) i j := by
    have moved := @SameShape.slotAddr_eq _ _ _ _ shape i j jLess
    omega
  apply mid.largeReference_iff fin qMem bMem
    (survives_of_marked (deadUnmarked q qMem b bMem) marked)
  rw [place, mid.largeSlot_kept fin bigMem alive object slot]
  exact designates

theorem sampleHeap_large : ∀ big ∈ [196608], bigSurvives (sampleHeap true).mem big = true →
    GcObject (sampleHeap true).mem
      (ShellWord noMemory sampleRoots (sampleHeap true) sampleCensus [196608])
      (bigHeader big) := by
  intro big mem _
  have : big = 196608 := by simpa using mem
  subst this
  refine ⟨by decide, by decide, fun x lower upper => ?_⟩
  have shell : shellOf (sampleHeap true).mem (bigHeader 196608) = 131104 := by decide
  have slots : shellCount (sampleHeap true).mem 131104 = 1 := by decide
  rw [shell] at lower upper
  rw [slots] at upper
  exact sampleHeap_shellWord true (by omega) (by omega)

theorem sweep_largeReference_iff_sampleHeap :
    ∃ h' c' reloc, sweep noMemory 16390 sampleRoots (sampleHeap true) = .ok h' ∧
      Arena noMemory 0 h'.firstPage h' c' ∧
        Relocates sampleRoots (sampleHeap true) sampleCensus h' c' reloc ∧
        (ReferenceKept noMemory h' c' (slotAddr h'.mem (bigHeader 196608) 0 0) (reloc 65552) ↔
          HasPinned (sampleHeap true).mem sampleCensus 65536) := by
  have enough : sweepFuel noMemory sampleCensus [196608] ≤ 16390 := by decide
  rcases sweep_largeReference_iff sampleHeap_collectable.sweepReady (by decide)
    sampleHeap_large enough
    (ne_error_of_faultOf (by decide +kernel) _) with
    ⟨h', c', reloc, eq, arena, relocates, references⟩
  exact ⟨h', c', reloc, eq, arena, relocates,
    references 196608 (by decide) (by decide) 0 (by decide) 0 (by decide) 65536 (by decide) 65552
      (by decide) (by decide) (by decide)⟩

theorem sampleHeap_largeSlot : Yields (fun _ => False)
    (fun h' => Designates (h'.mem (slotAddr h'.mem (bigHeader 196608) 0 0)) 65552 ∧
      h'.freeList = 65536) (sweep noMemory 16390 sampleRoots (sampleHeap true)) := by decide +kernel

/-- The slot of the large object of `sampleHeap` dangles after the sweep: it keeps its word, while
the object it designated has left its page, and the page is on `free_list`. -/
theorem sweep_largeReference_dangles :
    ∃ h', sweep noMemory 16390 sampleRoots (sampleHeap true) = .ok h' ∧
      Marked (sampleHeap true) sampleCensus 65552 ∧
        bigSurvives (sampleHeap true).mem 196608 = true ∧
        Designates ((sampleHeap true).mem
          (slotAddr (sampleHeap true).mem (bigHeader 196608) 0 0)) 65552 ∧
          h'.freeList = 65536 ∧
            ∀ c' reloc, Relocates sampleRoots (sampleHeap true) sampleCensus h' c' reloc →
              ¬ReferenceKept noMemory h' c' (slotAddr h'.mem (bigHeader 196608) 0 0)
                (reloc 65552) := by
  rcases sampleHeap_largeSlot.total with ⟨h', eq, word, recycled⟩
  have marked : Marked (sampleHeap true) sampleCensus 65552 :=
    ⟨65536, by decide, by decide, by decide⟩
  refine ⟨h', eq, marked, by decide, by decide, recycled, ?_⟩
  intro c' reloc relocates kept
  have same : reloc 65552 = 65552 := kept.1.unique word
  have unpinned : ¬HasPinned (sampleHeap true).mem sampleCensus 65536 := by
    rintro ⟨d, mem, pinned⟩
    have : d = 65552 := by simpa [sampleCensus] using mem
    subst this
    revert pinned
    decide
  have fresh := relocates.fresh 65536 (by decide) unpinned 65552 (by decide) marked
    65536 (by decide)
    65552 (by decide)
  omega

end PreciseGc

import PreciseGc.Sweep.Classify
import PreciseGc.Sweep.Evacuate
import PreciseGc.Sweep.Recycle

/-!
# Where the blocks are after the evacuation

The first two passes together decide the place of every block that survives: a
block on a page with a pinned block stays, a marked block on another page has a
copy on a page in use.  `Evacuated` states this against the heap before both
passes.
-/

namespace PreciseGc

open Foundation Memory

variable {pf : Platform} {h₀ : Heap} {c₀ c : Census} {s : SweepState} {moved : List (Nat × Nat)}
  {b p : Nat}

/-- The first two passes over the pages. -/
def evacuate (pf : Platform) (fuel : Nat) (h : Heap) : Except Fault SweepState :=
  classifyPages pf fuel h >>= evacuatePages pf fuel

/-- The place of a block after the evacuation. -/
def relocate (moved : List (Nat × Nat)) (b : Nat) : Nat :=
  ((moved.find? fun pair => pair.1 == b).map Prod.snd).getD b

theorem relocate_of_not_mem (notMoved : b ∉ moved.map Prod.fst) : relocate moved b = b := by
  have none : moved.find? (fun pair => pair.1 == b) = none := by
    rw [List.find?_eq_none]
    intro pair mem
    simp only [beq_iff_eq]
    rintro rfl
    exact notMoved (List.mem_map_of_mem mem)
  simp [relocate, none]

theorem relocate_of_mem (mem : b ∈ moved.map Prod.fst) : (b, relocate moved b) ∈ moved := by
  rcases List.mem_map.mp mem with ⟨pair, pairMem, rfl⟩
  have found : (moved.find? fun other => other.1 == pair.1).isSome := by
    rw [List.find?_isSome]
    exact ⟨pair, pairMem, by simp⟩
  rcases Option.isSome_iff_exists.mp found with ⟨other, isFound⟩
  have same : other.1 = pair.1 := by simpa using List.find?_some isFound
  have value : relocate moved pair.1 = other.2 := by simp [relocate, isFound]
  rw [value, ← same]
  exact List.mem_of_find?_eq_some isFound

/-- The heap after the first two passes, against the heap `h₀` in which the pages in use are
`c₀.fromSpace`. -/
structure Evacuated (pf : Platform) (h₀ : Heap) (c₀ : Census) (moved : List (Nat × Nat))
    (s : SweepState) (c : Census) : Prop where
  arena : Arena pf s.heap.firstPage s.alivePages s.heap c
  heldNil : c.held = []
  keys : BucketKeys s.heap
  maxBound : s.heap.maxFreeBlock ≤ pf.bigBlockThreshold
  mem_fromSpace : ∀ q, q ∈ c.fromSpace ↔ q ∈ c₀.fromSpace ∧ ¬HasPinned h₀.mem c₀ q
  stays : ∀ q ∈ c₀.fromSpace, HasPinned h₀.mem c₀ q → q ∈ c.alive ∧ ∀ d ∈ c₀.blocks q,
    d ∈ c.blocks q ∧ s.heap.mem d = retainedHeader (h₀.mem d) ∧
      ∀ o < blockSize (h₀.mem d), s.heap.mem (d + 8 + o) = h₀.mem (d + 8 + o)
  fromBlocks : ∀ q ∈ c.fromSpace, c.blocks q = c₀.blocks q
  fromHeader : ∀ q ∈ c.fromSpace, ∀ d ∈ c₀.blocks q, s.heap.mem d = h₀.mem d
  sources : ∀ d ∈ moved.map Prod.fst, blockIsMarked (h₀.mem d) = true ∧
    ∃ q ∈ c.fromSpace, d ∈ c₀.blocks q
  copies : ∀ pair ∈ moved, CopyOf h₀ s.heap pair.1 pair.2 ∧ ∃ q ∈ c.alive, pair.2 ∈ c.blocks q
  complete : ∀ q ∈ c.fromSpace, ∀ d ∈ c₀.blocks q, blockIsMarked (h₀.mem d) = true →
    d ∈ moved.map Prod.fst
  sourcesNodup : (moved.map Prod.fst).Nodup
  copiesNodup : (moved.map Prod.snd).Nodup
  copiesFresh : ∀ q ∈ c₀.fromSpace, ∀ d ∈ c₀.blocks q, d ∉ moved.map Prod.snd
  aliveBlocks : ∀ q ∈ c.alive, ∀ d ∈ c.blocks q,
    (q ∈ c₀.fromSpace ∧ HasPinned h₀.mem c₀ q ∧ d ∈ c₀.blocks q) ∨ d ∈ moved.map Prod.snd
  aliveLength : c.alive.length ≤ c₀.fromSpace.length + moved.length + 1
  outside : ∀ x, Outside pf h₀ c₀ x → Outside pf s.heap c x ∧ s.heap.mem x = h₀.mem x
  mappings : MoreMapped h₀.mappings s.heap.mappings
  firstBigBlock : s.heap.firstBigBlock = h₀.firstBigBlock
  metaReads : s.heap.metaReads = h₀.metaReads

variable {kept : List Nat} {s₁ : SweepState} {c₁ : Census}

/-- The first pass divides the pages in use. -/
theorem Classifying.mem_parts (inv : Classifying pf h₀ c₀ kept [] s₁ c₁)
    (ready : Sweepable pf h₀ c₀) {q : Nat} :
    q ∈ c₀.fromSpace ↔ q ∈ c₁.fromSpace ∨ q ∈ c₁.alive := by
  have same := inv.perm.mem_iff (a := q)
  have unique₀ := ready.arena.distinct
  have unique₁ := inv.arena.distinct
  simp only [Census.pages, ready.heldNil, ready.aliveNil, inv.heldNil, inv.freeEq,
    List.nil_append, List.append_nil] at same unique₀ unique₁
  have disjoint₀ := (List.nodup_append'.mp unique₀).2.2
  have disjoint₁ := (List.nodup_append'.mp unique₁).2.2
  simp only [List.mem_append] at same
  constructor
  · intro mem
    exact (same.mpr (Or.inl mem)).resolve_right fun inFree => disjoint₀ mem inFree
  · intro either
    exact (same.mp (Or.inl either)).resolve_right fun inFree =>
      disjoint₁ (List.mem_append.mpr either) inFree

theorem Classifying.mem_fromSpace_iff (inv : Classifying pf h₀ c₀ kept [] s₁ c₁)
    (ready : Sweepable pf h₀ c₀) {q : Nat} :
    q ∈ c₁.fromSpace ↔ q ∈ c₀.fromSpace ∧ ¬HasPinned h₀.mem c₀ q := by
  have parts := inv.mem_parts ready (q := q)
  have keptEq := inv.fromSpace
  rw [List.append_nil] at keptEq
  constructor
  · intro mem
    exact ⟨parts.mpr (Or.inl mem), inv.unpinned q (keptEq ▸ mem)⟩
  · rintro ⟨mem, unpinned⟩
    exact (parts.mp mem).resolve_right fun inAlive => unpinned (inv.pinned q inAlive)

/-- Headers and data of the pages left in from-space are those of the start. -/
theorem Classifying.from_eq (inv : Classifying pf h₀ c₀ kept [] s₁ c₁) {q d : Nat}
    (mem : q ∈ c₁.fromSpace) (dMem : d ∈ c₀.blocks q) :
    s₁.heap.mem d = h₀.mem d ∧
      ∀ o < blockSize (h₀.mem d), s₁.heap.mem (d + 8 + o) = h₀.mem (d + 8 + o) := by
  have qTiled := Classifying.tiled_of_fromSpace mem
  have bounds := (inv.arena.pageOk q qTiled).block_bounds (inv.blocks ▸ dMem)
  have header := inv.fromFrame q mem d (by omega) (by omega)
  rw [header] at bounds
  exact ⟨header, fun o less => inv.fromFrame q mem _ (by omega) (by omega)⟩

/-- The heap between the two passes is ready for the second. -/
theorem Classifying.evacuationStart (inv : Classifying pf h₀ c₀ kept [] s₁ c₁)
    (ready : Sweepable pf h₀ c₀) : EvacuationStart pf s₁.alivePages s₁.heap c₁ := by
  refine
    { arena := inv.arena, heldNil := inv.heldNil, small := ready.small, unpinned := ?_ }
  intro q mem d dMem
  rw [inv.blocks] at dMem
  rw [(inv.from_eq mem dMem).1]
  by_contra isPinned
  exact ((inv.mem_fromSpace_iff ready).mp mem).2 ⟨d, dMem, by simpa using isPinned⟩

theorem Classifying.evacuable (inv : Classifying pf h₀ c₀ kept [] s₁ c₁)
    (ready : Sweepable pf h₀ c₀)
    (deadUnmarked : ∀ q ∈ c₀.fromSpace, ¬HasPinned h₀.mem c₀ q → ∀ d ∈ c₀.blocks q,
      (blockIsDead (h₀.mem d) && blockIsMarked (h₀.mem d)) = false) :
    Evacuable pf s₁.alivePages s₁.heap c₁ := by
  refine { toEvacuationStart := inv.evacuationStart ready, deadUnmarked := ?_ }
  intro q mem d dMem
  rw [inv.blocks] at dMem
  rw [(inv.from_eq mem dMem).1]
  rcases (inv.mem_fromSpace_iff ready).mp mem with ⟨inFrom, unpinned⟩
  exact deadUnmarked q inFrom unpinned d dMem

/-- The two passes compose. -/
theorem Classifying.evacuated (inv₁ : Classifying pf h₀ c₀ kept [] s₁ c₁)
    (ready : Sweepable pf h₀ c₀) (start : Evacuable pf s₁.alivePages s₁.heap c₁)
    (inv : Evacuating pf s₁.heap c₁ [] moved s c) : Evacuated pf h₀ c₀ moved s c := by
  have fromIff : ∀ q, q ∈ c.fromSpace ↔ q ∈ c₁.fromSpace := fun q => by rw [inv.fromSpace]
  have aliveIff : ∀ q, q ∈ c₁.alive ↔ q ∈ c₀.fromSpace ∧ HasPinned h₀.mem c₀ q := by
    intro q
    constructor
    · intro mem
      exact ⟨(inv₁.mem_parts ready).mpr (Or.inr mem), inv₁.pinned q mem⟩
    · rintro ⟨mem, pinned⟩
      exact ((inv₁.mem_parts ready).mp mem).resolve_left fun inFrom =>
        ((inv₁.mem_fromSpace_iff ready).mp inFrom).2 pinned
  have markedEq : ∀ q ∈ c₁.fromSpace, ∀ d ∈ c₀.blocks q,
      blockIsMarked (s₁.heap.mem d) = blockIsMarked (h₀.mem d) := fun q mem d dMem => by
    rw [(inv₁.from_eq mem dMem).1]
  refine
    { arena := inv.arena, heldNil := inv.heldNil,
      keys := inv.buckets.keys inv.arena fun q mem => by simp [Census.tiled, mem],
      maxBound := inv.maxBound, mem_fromSpace := ?_, stays := ?_, fromBlocks := ?_,
      fromHeader := ?_, sources := ?_, copies := ?_, complete := ?_,
      sourcesNodup := inv.sourcesNodup, copiesNodup := inv.copiesNodup, copiesFresh := ?_,
      aliveBlocks := ?_, aliveLength := ?_, outside := ?_,
      mappings := by rw [← inv₁.mappings]; exact inv.mappings,
      firstBigBlock := inv.firstBigBlock.trans inv₁.firstBigBlock,
      metaReads := inv.metaReads.trans inv₁.metaReads }
  · intro q
    rw [fromIff q]
    exact inv₁.mem_fromSpace_iff ready
  · intro q mem pinned
    have inAlive := (aliveIff q).mpr ⟨mem, pinned⟩
    have sub := inv.aliveSub q inAlive
    refine ⟨sub.1, fun d dMem => ?_⟩
    have dMem₁ : d ∈ c₁.blocks q := inv₁.blocks ▸ dMem
    have bounds := (inv₁.arena.pageOk q (Classifying.tiled_of_alive inAlive)).block_bounds dMem₁
    have header := inv₁.aliveHeader q inAlive d dMem
    refine ⟨sub.2 d dMem₁, ?_, fun o less => ?_⟩
    · rw [inv.aliveFrame q inAlive d (by omega) (by omega), header]
    · rw [header, blockSize_retainedHeader] at bounds
      rw [inv.aliveFrame q inAlive _ (by omega) (by omega)]
      exact inv₁.aliveData q inAlive d dMem o less
  · intro q mem
    rw [inv.fromBlocks q ((fromIff q).mp mem), inv₁.blocks]
  · intro q mem d dMem
    have mem₁ := (fromIff q).mp mem
    rw [inv.header_eq start.toEvacuationStart mem₁ (inv₁.blocks ▸ dMem)]
    exact (inv₁.from_eq mem₁ dMem).1
  · intro d mem
    rcases inv.sources d mem with ⟨marked, q, qMem, dMem⟩
    rw [inv₁.blocks] at dMem
    exact ⟨(markedEq q qMem d dMem) ▸ marked, q, (fromIff q).mpr qMem, dMem⟩
  · intro pair mem
    rcases inv.copies pair mem with ⟨copy, target⟩
    rcases (inv.sources pair.1 (List.mem_map_of_mem mem)).2 with ⟨q, qMem, dMem⟩
    rw [inv₁.blocks] at dMem
    have source := inv₁.from_eq qMem dMem
    refine ⟨⟨?_, ?_, copy.forward⟩, target⟩
    · rw [copy.header, source.1]
    · intro o less
      rw [← source.2 o less]
      exact copy.data o (by rwa [source.1])
  · intro q mem d dMem marked
    have mem₁ := (fromIff q).mp mem
    rw [← markedEq q mem₁ d dMem] at marked
    refine (inv.complete q mem₁ d (inv₁.blocks ▸ dMem) marked).resolve_right ?_
    simp
  · intro q mem d dMem inCopies
    rcases List.mem_map.mp inCopies with ⟨pair, pairMem, rfl⟩
    rcases (inv₁.mem_parts ready).mp mem with inFrom | inAlive
    · -- a copy lies on a page in use, not in from-space
      rcases (inv.copies pair pairMem).2 with ⟨r, rAlive, copyMem⟩
      have qFrom : q ∈ c.fromSpace := (fromIff q).mpr inFrom
      have same := inv.arena.page_unique (p := q) (by simp [Census.tiled, qFrom])
        (by rw [inv.fromBlocks q inFrom, inv₁.blocks]; exact dMem)
        (by simp [Census.tiled, rAlive]) copyMem
      subst same
      exact inv.arena.not_mem_alive_of_fromSpace qFrom rAlive
    · exact inv.copiesFresh q inAlive pair.2 (inv₁.blocks ▸ dMem) inCopies
  · intro q mem d dMem
    rcases inv.aliveBlocks q mem d dMem with ⟨inAlive, old⟩ | copied
    · rcases (aliveIff q).mp inAlive with ⟨inFrom, pinned⟩
      exact Or.inl ⟨inFrom, pinned, inv₁.blocks ▸ old⟩
    · exact Or.inr copied
  · have lengths := inv₁.perm.length_eq
    simp only [Census.pages, List.length_append, inv₁.heldNil, ready.heldNil, ready.aliveNil,
      List.length_nil, inv₁.freeEq] at lengths
    have := inv.aliveLength
    omega
  · rintro x ⟨contains, away⟩
    have same := inv₁.offPages x away
    have outside₁ : Outside pf s₁.heap c₁ x := by
      refine ⟨?_, fun q mem => away q (inv₁.perm.mem_iff.mp mem)⟩
      rw [inv₁.mappings]
      exact contains
    rcases inv.outside x outside₁ with ⟨outside, same'⟩
    exact ⟨outside, same'.trans same⟩

/-- The first two passes one after the other, when no mapping is refused. -/
theorem evacuate_passes (ready : Sweepable pf h₀ c₀)
    (deadUnmarked : ∀ q ∈ c₀.fromSpace, ¬HasPinned h₀.mem c₀ q → ∀ d ∈ c₀.blocks q,
      (blockIsDead (h₀.mem d) && blockIsMarked (h₀.mem d)) = false)
    {fuel : Nat} (enoughPages : c₀.fromSpace.length < fuel)
    (enoughBlocks : ∀ q ∈ c₀.fromSpace, (c₀.blocks q).length < fuel) :
    Yields (· = Fault.mapFailed)
      (fun s => ∃ s₁ kept c₁ moved c, Classifying pf h₀ c₀ kept [] s₁ c₁ ∧
        Evacuable pf s₁.alivePages s₁.heap c₁ ∧ Evacuating pf s₁.heap c₁ [] moved s c)
      (evacuate pf fuel h₀) := by
  rcases classifyPages_spec ready enoughPages enoughBlocks with ⟨s₁, kept, c₁, eq, inv₁⟩
  have start := inv₁.evacuable ready deadUnmarked
  unfold evacuate
  rw [eq]
  change Yields _ _ (evacuatePages pf fuel s₁)
  have fromSub : ∀ q ∈ c₁.fromSpace, q ∈ c₀.fromSpace := fun q mem =>
    ((inv₁.mem_fromSpace_iff ready).mp mem).1
  have fewer : c₁.fromSpace.length ≤ c₀.fromSpace.length := by
    have lengths := inv₁.perm.length_eq
    simp only [Census.pages, List.length_append, inv₁.heldNil, ready.heldNil, ready.aliveNil,
      List.length_nil, inv₁.freeEq] at lengths
    omega
  refine (((start.evacuating s₁.prevPage inv₁.buckets
    inv₁.maxBound).evacuatePages_yields start.toEvacuationStart (by omega) ?_).permit
      fun _ => start.fault_eq).mono ?_
  · intro q mem
    rw [inv₁.blocks]
    exact enoughBlocks q (fromSub q mem)
  · rintro s ⟨moved, c, inv⟩
    exact ⟨s₁, kept, c₁, moved, c, inv₁, start, inv⟩

/-- The first two passes succeed when no mapping is refused. -/
theorem evacuate_yields (ready : Sweepable pf h₀ c₀)
    (deadUnmarked : ∀ q ∈ c₀.fromSpace, ¬HasPinned h₀.mem c₀ q → ∀ d ∈ c₀.blocks q,
      (blockIsDead (h₀.mem d) && blockIsMarked (h₀.mem d)) = false)
    {fuel : Nat} (enoughPages : c₀.fromSpace.length < fuel)
    (enoughBlocks : ∀ q ∈ c₀.fromSpace, (c₀.blocks q).length < fuel) :
    Yields (· = Fault.mapFailed) (fun s => ∃ moved c, Evacuated pf h₀ c₀ moved s c)
      (evacuate pf fuel h₀) := by
  apply (evacuate_passes ready deadUnmarked enoughPages enoughBlocks).mono
  rintro s ⟨s₁, kept, c₁, moved, c, inv₁, start, inv⟩
  exact ⟨moved, c, inv₁.evacuated ready start inv⟩

/-- On a page that is evacuated the data of the blocks stay behind, but for their first words. -/
theorem evacuate_fromData (ready : Sweepable pf h₀ c₀)
    (deadUnmarked : ∀ q ∈ c₀.fromSpace, ¬HasPinned h₀.mem c₀ q → ∀ d ∈ c₀.blocks q,
      (blockIsDead (h₀.mem d) && blockIsMarked (h₀.mem d)) = false)
    {fuel : Nat} (enoughPages : c₀.fromSpace.length < fuel)
    (enoughBlocks : ∀ q ∈ c₀.fromSpace, (c₀.blocks q).length < fuel) :
    Yields (· = Fault.mapFailed)
      (fun s => ∀ q ∈ c₀.fromSpace, ¬HasPinned h₀.mem c₀ q → ∀ d ∈ c₀.blocks q,
        ∀ o, 8 ≤ o → o < blockSize (h₀.mem d) → s.heap.mem (d + 8 + o) = h₀.mem (d + 8 + o))
      (evacuate pf fuel h₀) := by
  apply (evacuate_passes ready deadUnmarked enoughPages enoughBlocks).mono
  rintro s ⟨s₁, kept, c₁, moved, c, inv₁, start, inv⟩ q mem unpinned d dMem o lower upper
  have inFrom := (inv₁.mem_fromSpace_iff ready).mpr ⟨mem, unpinned⟩
  have qTiled := Classifying.tiled_of_fromSpace inFrom
  have dMem₁ : d ∈ c₁.blocks q := inv₁.blocks ▸ dMem
  have source := inv₁.from_eq inFrom dMem
  have bounds := (inv₁.arena.pageOk q qTiled).block_bounds dMem₁
  rw [source.1] at bounds
  rw [← source.2 o upper]
  apply inv.fromFrame q inFrom _ (by omega) (by omega)
  intro e eMem
  rcases inv.sources e eMem with ⟨_, r, rFrom, eBlock⟩
  have rTiled := Classifying.tiled_of_fromSpace rFrom
  have room := ((inv₁.arena.pageOk r rTiled).block_bounds eBlock).2.2.2
  by_cases same : d = e
  · omega
  · have := inv₁.arena.blocks_disjoint qTiled dMem₁ rTiled eBlock same
    rw [source.1] at this
    omega

/-- A block survives a sweep if it is marked or pinned and not already dead. -/
def survives (m : Memory) (b : Nat) : Bool :=
  !blockIsDead (m b) && (blockIsMarked (m b) || blockIsPinned (m b))

/-- The block `d` of `m` has the size and the data of the block `b` of `m₀`, and no flag that the
sweep asserts to be clear. -/
structure ImageOf (m₀ m : Memory) (b d : Nat) : Prop where
  size : blockSize (m d) = blockSize (m₀ b)
  data : ∀ o < blockSize (m₀ b), m (d + 8 + o) = m₀ (b + 8 + o)
  unpinned : blockIsPinned (m d) = false
  unmarked : blockIsMarked (m d) = false

theorem retainedHeader_flags (header : Nat) :
    blockIsPinned (retainedHeader header) = false ∧ blockIsMarked (retainedHeader header) = false ∧
      (blockIsDead (retainedHeader header) = false ↔
        blockIsDead header = false ∧ (blockIsMarked header || blockIsPinned header) = true) := by
  have residue : retainedHeader header % 8 = retainedHeader (header % 8) % 8 := by
    unfold retainedHeader
    dsimp only
    rw [(flags_residue header).1, (flags_residue header).2.1]
    simp only [unpinBlock, unmarkBlock, setDeadFlag, pinFlag, markFlag, deadFlag]
    rw [clear_mod_eight (by decide), clear_mod_eight (by decide), clear_mod_eight (w := clear _ _)
      (by decide), clear_mod_eight (f := 2) (by decide)]
    split
    · rw [or_mod_eight (by decide), or_mod_eight (by decide), Nat.mod_mod]
    · rw [Nat.mod_mod]
  rw [(flags_residue (retainedHeader header)).1, (flags_residue (retainedHeader header)).2.1,
    (flags_residue (retainedHeader header)).2.2, (flags_residue header).1,
    (flags_residue header).2.1, (flags_residue header).2.2, residue]
  exact of_residues (motive := fun r => blockIsPinned (retainedHeader r % 8) = false ∧
    blockIsMarked (retainedHeader r % 8) = false ∧ (blockIsDead (retainedHeader r % 8) = false ↔
      blockIsDead r = false ∧ (blockIsMarked r || blockIsPinned r) = true)) header (by decide)

theorem CopyOf.image {h : Heap} {d : Nat} (copy : CopyOf h₀ h b d) :
    ImageOf h₀.mem h.mem b d ∧ blockIsDead (h.mem d) = false := by
  have flags := flags_of_aligned (blockSize_mod (h₀.mem b))
  refine ⟨⟨?_, copy.data, ?_, ?_⟩, ?_⟩
  · rw [copy.header, blockSize_of_aligned (blockSize_mod _)]
  all_goals rw [copy.header]
  · exact flags.1
  · exact flags.2.1
  · exact flags.2.2

namespace Evacuated

variable {q d : Nat}

theorem source_of_mem (ev : Evacuated pf h₀ c₀ moved s c) (mem : b ∈ moved.map Prod.fst) :
    ∃ q ∈ c₀.fromSpace, ¬HasPinned h₀.mem c₀ q ∧ b ∈ c₀.blocks q := by
  rcases (ev.sources b mem).2 with ⟨q, qFrom, bMem⟩
  rcases (ev.mem_fromSpace q).mp qFrom with ⟨inFrom, unpinned⟩
  exact ⟨q, inFrom, unpinned, bMem⟩

/-- A block on a page with a pinned block is not copied. -/
theorem relocate_of_pinned (ev : Evacuated pf h₀ c₀ moved s c) {fromHead aliveHead : Nat}
    (arena : Arena pf fromHead aliveHead h₀ c₀) (qMem : q ∈ c₀.fromSpace)
    (pinned : HasPinned h₀.mem c₀ q) (bMem : b ∈ c₀.blocks q) :
    b ∉ moved.map Prod.fst ∧ relocate moved b = b := by
  have notMoved : b ∉ moved.map Prod.fst := by
    intro mem
    rcases ev.source_of_mem mem with ⟨r, rMem, unpinned, bMem'⟩
    have same := arena.page_unique (Classifying.tiled_of_fromSpace qMem) bMem
      (Classifying.tiled_of_fromSpace rMem) bMem'
    exact unpinned (same ▸ pinned)
  exact ⟨notMoved, relocate_of_not_mem notMoved⟩

/-- Every block that survives has an image on a page in use. -/
theorem image (ev : Evacuated pf h₀ c₀ moved s c) {fromHead aliveHead : Nat}
    (arena : Arena pf fromHead aliveHead h₀ c₀) (qMem : q ∈ c₀.fromSpace) (bMem : b ∈ c₀.blocks q)
    (alive : survives h₀.mem b = true) :
    ImageOf h₀.mem s.heap.mem b (relocate moved b) ∧
      blockIsDead (s.heap.mem (relocate moved b)) = false ∧
        ∃ r ∈ c.alive, relocate moved b ∈ c.blocks r := by
  simp only [survives, Bool.and_eq_true, Bool.not_eq_true'] at alive
  by_cases pinned : HasPinned h₀.mem c₀ q
  · rcases ev.stays q qMem pinned with ⟨qAlive, stays⟩
    rcases stays b bMem with ⟨bStays, header, data⟩
    rw [(ev.relocate_of_pinned arena qMem pinned bMem).2]
    have flags := retainedHeader_flags (h₀.mem b)
    rw [← header] at flags
    exact ⟨⟨by rw [header, blockSize_retainedHeader], data, flags.1, flags.2.1⟩,
      flags.2.2.mpr alive, q, qAlive, bStays⟩
  · have inFrom := (ev.mem_fromSpace q).mpr ⟨qMem, pinned⟩
    have marked : blockIsMarked (h₀.mem b) = true := by
      rcases Bool.or_eq_true_iff.mp alive.2 with isMarked | isPinned
      · exact isMarked
      · exact absurd ⟨b, bMem, isPinned⟩ pinned
    have moves := relocate_of_mem (ev.complete q inFrom b bMem marked)
    rcases ev.copies _ moves with ⟨copy, target⟩
    exact ⟨copy.image.1, copy.image.2, target⟩

/-- Every block of a page in use is the image of a block, which survives unless it is dead. -/
theorem origin (ev : Evacuated pf h₀ c₀ moved s c) {fromHead aliveHead : Nat}
    (arena : Arena pf fromHead aliveHead h₀ c₀)
    (deadUnmarked : ∀ q ∈ c₀.fromSpace, ¬HasPinned h₀.mem c₀ q → ∀ d ∈ c₀.blocks q,
      (blockIsDead (h₀.mem d) && blockIsMarked (h₀.mem d)) = false)
    (qMem : q ∈ c.alive) (dMem : d ∈ c.blocks q) :
    ∃ q₀ ∈ c₀.fromSpace, ∃ b ∈ c₀.blocks q₀, ImageOf h₀.mem s.heap.mem b d ∧
      (blockIsDead (s.heap.mem d) = false → survives h₀.mem b = true ∧ d = relocate moved b) := by
  rcases ev.aliveBlocks q qMem d dMem with ⟨inFrom, pinned, old⟩ | copied
  · rcases (ev.stays q inFrom pinned).2 d old with ⟨_, header, data⟩
    have flags := retainedHeader_flags (h₀.mem d)
    rw [← header] at flags
    refine ⟨q, inFrom, d, old, ⟨by rw [header, blockSize_retainedHeader], data, flags.1, flags.2.1⟩,
      fun notDead => ?_⟩
    refine ⟨?_, (ev.relocate_of_pinned arena inFrom pinned old).2.symm⟩
    simpa [survives] using flags.2.2.mp notDead
  · rcases List.mem_map.mp copied with ⟨pair, pairMem, rfl⟩
    have source : pair.1 ∈ moved.map Prod.fst := List.mem_map_of_mem pairMem
    rcases ev.source_of_mem source with ⟨q₀, q₀Mem, unpinned, bMem⟩
    have marked := (ev.sources _ source).1
    have notDead := deadUnmarked q₀ q₀Mem unpinned pair.1 bMem
    rw [marked, Bool.and_true] at notDead
    refine ⟨q₀, q₀Mem, pair.1, bMem, (ev.copies pair pairMem).1.image.1, fun _ => ⟨?_, ?_⟩⟩
    · simp [survives, marked, notDead]
    · have both := relocate_of_mem source
      have unique := ev.sourcesNodup
      exact congrArg Prod.snd (List.inj_on_of_nodup_map unique pairMem both rfl)

/-- Distinct survivors have distinct images. -/
theorem relocate_inj (ev : Evacuated pf h₀ c₀ moved s c) {q' b' : Nat} (qMem : q ∈ c₀.fromSpace)
    (bMem : b ∈ c₀.blocks q) (qMem' : q' ∈ c₀.fromSpace) (bMem' : b' ∈ c₀.blocks q')
    (same : relocate moved b = relocate moved b') : b = b' := by
  have fresh : ∀ {q d : Nat}, q ∈ c₀.fromSpace → d ∈ c₀.blocks q → ∀ {e : Nat},
      e ∈ moved.map Prod.fst → d ≠ relocate moved e := by
    rintro q d qFrom dMem e eMem rfl
    exact ev.copiesFresh q qFrom _ dMem (List.mem_map_of_mem (relocate_of_mem eMem))
  by_cases first : b ∈ moved.map Prod.fst
  · by_cases second : b' ∈ moved.map Prod.fst
    · have left := relocate_of_mem first
      have right := relocate_of_mem second
      exact congrArg Prod.fst (List.inj_on_of_nodup_map ev.copiesNodup left right same)
    · rw [relocate_of_not_mem second] at same
      exact absurd same.symm (fresh qMem' bMem' first)
  · rw [relocate_of_not_mem first] at same
    by_cases second : b' ∈ moved.map Prod.fst
    · exact absurd same (fresh qMem bMem second)
    · rwa [relocate_of_not_mem second] at same

end Evacuated

end PreciseGc

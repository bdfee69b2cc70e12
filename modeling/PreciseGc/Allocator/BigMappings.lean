import PreciseGc.Allocator.BlockInvariant
import PreciseGc.Sweep.Mappings

/-!
# The mappings of big blocks

Every mapping of the process is one it started with, one that holds pages, or
that of a big block of the list `first_big_block`, as long as no sweep drops a
block whose mapping it unmaps in part.  `munmap` is given the size of a pointer
for that of the structure, which is a page short for the block sizes that are
eight short of a number of pages.
-/

namespace PreciseGc

open Foundation Memory

variable {pf : Platform} {threads : ThreadRoots} {initial : List Region} {h h₀ h₁ h' : Heap}
  {c c' : Census} {bigs bigs' : List Nat} {b s fuel : Nat}

/-- The mapping of a big block. -/
def bigRegion (pf : Platform) (m : Memory) (b : Nat) : Region := ⟨b, bigLength pf m b⟩

/-- The mappings of the process that it did not start with are those of pages and those of the
blocks in `first_big_block`. -/
def BigMappingsExact (pf : Platform) (initial : List Region) (h : Heap) : Prop :=
  ∀ r, r ∈ h.mappings ↔ r ∈ initial ∨ r ∈ pageMappings h.parts ∨
    ∃ big, LargeBlock h big ∧ r = bigRegion pf h.mem big

/-- The owners of the mappings: a mapping that starts with a big block is the block's. -/
structure MappingsOwned (initial : List Region) (h : Heap) (bigs : List Nat) : Prop where
  owner : ∀ r ∈ h.mappings, r ∈ initial ∨ r ∈ pageMappings h.parts ∨ r.start ∈ bigs
  initial : ∀ r ∈ initial, r ∈ h.mappings ∧ r.start ∉ bigs
  pages : ∀ r ∈ pageMappings h.parts, r ∈ h.mappings ∧ r.start ∉ bigs

namespace MappingsOwned

theorem exact (owned : MappingsOwned initial h bigs) (ok : AllocatorOk pf h c bigs) :
    BigMappingsExact pf initial h := by
  intro r
  constructor
  · intro mem
    rcases owned.owner r mem with start | page | big
    · exact Or.inl start
    · exact Or.inr (Or.inl page)
    · refine Or.inr (Or.inr ⟨r.start, ok.largeBlock_iff.mpr big, ?_⟩)
      rw [bigRegion, ← ok.big.region r.start big r mem rfl]
  · rintro (start | page | ⟨big, isBig, rfl⟩)
    · exact (owned.initial r start).1
    · exact (owned.pages r page).1
    · exact ok.big.mapped big (ok.largeBlock_iff.mp isBig)

/-- New mappings for pages. -/
theorem gains (owned : MappingsOwned initial h bigs) (maps : MapsPages pf h h')
    (mapped : ∀ b ∈ bigs, ∃ r ∈ h.mappings, r.start = b ∧ 0 < r.length) :
    MappingsOwned initial h' bigs := by
  rcases maps.gains with ⟨parts, gains⟩
  have kept : ∀ r ∈ h.mappings, r ∈ h'.mappings := by
    intro r mem
    rw [gains.mapped]
    exact List.mem_append_right _ mem
  have pagesEq : pageMappings h'.parts = pageMappings h.parts ++ pageMappings parts := by
    rw [gains.recorded, pageMappings_append]
  refine ⟨?_, ?_, ?_⟩
  · intro r mem
    rw [gains.mapped] at mem
    rw [pagesEq]
    rcases List.mem_append.mp mem with new | old
    · exact Or.inr (Or.inl (List.mem_append_right _ (List.mem_reverse.mp new)))
    · exact (owned.owner r old).imp id (Or.imp (List.mem_append_left _) id)
  · intro r mem
    exact ⟨kept r (owned.initial r mem).1, (owned.initial r mem).2⟩
  · intro r mem
    rw [pagesEq] at mem
    rcases List.mem_append.mp mem with old | new
    · exact ⟨kept r (owned.pages r old).1, (owned.pages r old).2⟩
    · refine ⟨?_, fun atBig => ?_⟩
      · rw [gains.mapped]
        exact List.mem_append_left _ (List.mem_reverse.mpr new)
      · rcases mapped r.start atBig with ⟨big, bigMem, start, positive⟩
        exact gains.fresh r new big bigMem positive start

/-- A new mapping for a big block. -/
theorem mapBig (owned : MappingsOwned initial h bigs) {length : Nat}
    (positive : ∀ r ∈ h.mappings, 0 < r.length)
    (fresh : ∀ r ∈ h.mappings, 0 < r.length → r.start ≠ b)
    (mappings : h'.mappings = ⟨b, length⟩ :: h.mappings) (parts : h'.parts = h.parts) :
    MappingsOwned initial h' (b :: bigs) := by
  have apart : ∀ r ∈ h.mappings, r.start ∉ bigs → r.start ∉ b :: bigs := by
    intro r mem notBig atBig
    rcases List.mem_cons.mp atBig with isNew | old
    · exact fresh r mem (positive r mem) isNew
    · exact notBig old
  refine ⟨?_, ?_, ?_⟩
  · intro r mem
    rw [mappings] at mem
    rw [parts]
    rcases List.mem_cons.mp mem with rfl | old
    · exact Or.inr (Or.inr List.mem_cons_self)
    · exact (owned.owner r old).imp id (Or.imp id (List.mem_cons_of_mem b))
  · intro r mem
    rcases owned.initial r mem with ⟨inside, notBig⟩
    rw [mappings]
    exact ⟨List.mem_cons_of_mem _ inside, apart r inside notBig⟩
  · intro r mem
    rw [parts] at mem
    rcases owned.pages r mem with ⟨inside, notBig⟩
    rw [mappings]
    exact ⟨List.mem_cons_of_mem _ inside, apart r inside notBig⟩

/-- Big blocks that are dropped with their mappings. -/
theorem release (owned : MappingsOwned initial h bigs) {survives : Nat → Bool}
    (mappings : ∀ r, r ∈ h'.mappings ↔
      r ∈ h.mappings ∧ ∀ b ∈ bigs, r.start = b → survives b = true)
    (parts : h'.parts = h.parts) : MappingsOwned initial h' (bigs.filter survives) := by
  have kept : ∀ r ∈ h.mappings, r.start ∉ bigs →
      r ∈ h'.mappings ∧ r.start ∉ bigs.filter survives := by
    intro r mem notBig
    refine ⟨(mappings r).mpr ⟨mem, fun b bMem atStart => ?_⟩, fun listed => ?_⟩
    · exact absurd (atStart ▸ bMem) notBig
    · exact notBig (List.mem_filter.mp listed).1
  refine ⟨?_, ?_, ?_⟩
  · intro r mem
    rcases (mappings r).mp mem with ⟨old, survivors⟩
    rw [parts]
    rcases owned.owner r old with start | page | big
    · exact Or.inl start
    · exact Or.inr (Or.inl page)
    · exact Or.inr (Or.inr (List.mem_filter.mpr ⟨big, survivors r.start big rfl⟩))
  · exact fun r mem => kept r (owned.initial r mem).1 (owned.initial r mem).2
  · intro r mem
    rw [parts] at mem
    exact kept r (owned.pages r mem).1 (owned.pages r mem).2

end MappingsOwned

theorem AllocatorState.bigs_mapped (state : AllocatorState pf h c bigs) :
    ∀ b ∈ bigs, ∃ r ∈ h.mappings, r.start = b ∧ 0 < r.length := by
  intro b mem
  have mapped := state.big.mapped b mem
  exact ⟨_, mapped, rfl, state.regions _ mapped⟩

/-- A critical section of `gcmalloc` keeps the owners of the mappings. -/
theorem gcmallocLocked_owned (state : AllocatorState pf h c bigs) (bounded : s < 2 ^ 63)
    (owned : MappingsOwned initial h bigs) (expand : Bool) :
    Yields (fun _ => True)
      (fun result => ∃ c' bigs', AllocatorState pf result.2 c' bigs' ∧
        MappingsOwned initial result.2 bigs')
      (gcmallocLocked pf s expand h) := by
  have size := align_spec bounded
  unfold gcmallocLocked
  apply (((initFirstPage_yields state).permit fun _ _ => trivial).and
    (initFirstPage_writes state.arena.perMap).result).bind
  rintro ⟨hasPage, h₁⟩ ⟨⟨⟨c₁, grown, -⟩, first⟩, ⟨maps, -⟩⟩
  dsimp only at grown first maps
  have owned₁ := owned.gains maps state.bigs_mapped
  cases hasPage with
  | false => exact ⟨c₁, bigs, grown.state, owned₁⟩
  | true =>
      rcases Nat.lt_or_ge pf.bigBlockThreshold (align s) with isBig | isSmall
      · apply ((mallocInternal_big grown.state size.1 size.2.2 isBig expand).permit
          fun _ _ => trivial).mono
        rintro result (⟨rfl, grown'⟩ | ⟨b, fresh, mappings, parts, -, grown', -⟩)
        · exact ⟨c₁, bigs, grown'.state, owned₁.owner, owned₁.initial, owned₁.pages⟩
        · refine ⟨c₁, b :: bigs, grown'.state,
            owned₁.mapBig grown.state.regions (fun r mem positive atStart => ?_) mappings parts⟩
          have apart := fresh.unmapped r mem r.start ⟨Nat.le_refl _, by omega⟩
          have room := roundToPages_pos pf fresh.nonempty
          omega
      · apply (((mallocInternal_small grown.state (first rfl) size.1 (by omega) isSmall
          expand).permit fun _ _ => trivial).and
            (mallocInternal_writes maps.doubling isSmall expand).result).mono
        rintro result ⟨⟨c', grown', _⟩, ⟨maps', -⟩⟩
        exact ⟨c', bigs, grown'.state, owned₁.gains maps' grown.state.bigs_mapped⟩

/-- A sweep that releases the blocks it drops whole keeps the owners of the mappings. -/
theorem AllocatorState.sweep_owned (state : AllocatorState pf h c bigs)
    (ready : SweepReady pf threads h c bigs) (owned : MappingsOwned initial h bigs)
    (whole : ∀ b ∈ bigs, bigSurvives h.mem b = false → ReleasedWhole pf h.mem b)
    (eq : sweep pf fuel threads h = .ok h') :
    ∃ c' bigs', AllocatorState pf h' c' bigs' ∧ MappingsOwned initial h' bigs' := by
  let enough := max fuel (sweepFuel pf c bigs)
  have more : sweep pf enough threads h = .ok h' :=
    (sweep_extends (Nat.le_max_left _ _) threads h).approximates h' eq
  rcases (sweep_yields ready (Nat.le_max_right _ _)).of_ok more with
    ⟨moved, s, c₂, c', mid, fin⟩
  rcases bind_eq_ok more with ⟨h₁, bigSweep, pageSweep⟩
  have fuelled : bigs.length < enough := by
    apply Nat.lt_of_lt_of_le _ (Nat.le_max_right _ _)
    unfold sweepFuel
    omega
  rcases sweepBigBlocks_spec state.big fuelled with ⟨h₁', bigSweep', swept⟩
  rw [bigSweep] at bigSweep'
  cases bigSweep'
  have mappings := sweepBigBlocks_mappings state.big whole fuelled bigSweep
  have parts : h₁.parts = h.parts := by rw [swept.heapEq]
  have perMap : h₁.pagePerMap = h.pagePerMap := by rw [swept.heapEq]
  have doubling : ∃ k, h₁.pagePerMap = 2 ^ k := perMap ▸ state.arena.perMap
  have maps := ((sweepPages_writes doubling).result.of_ok pageSweep).maps
  refine ⟨c', _, mid.allocatorState fin state.regions, (owned.release mappings parts).gains maps ?_⟩
  intro b mem
  have length := bigLength_ge pf h₁.mem b
  exact ⟨_, swept.bigBlocks.mapped b mem, rfl, by dsimp only; omega⟩

/-- The objects of the heap are plain, and no big block that the sweep will drop is eight bytes
short of a number of pages. -/
structure ReleasesWhole (pf : Platform) (threads : ThreadRoots) (h : Heap) : Prop where
  plain : PlainObjects pf threads h
  whole : ∀ big, LargeBlock h big → bigSurvives h.mem big = false →
    ¬pf.pageSize ∣ blockSize (h.mem (bigHeader big)) + 8

theorem Step.owned (stepped : Step pf (ReleasesWhole pf) h h')
    (holds : ∃ c bigs, AllocatorState pf h c bigs ∧ MappingsOwned initial h bigs) :
    ∃ c bigs, AllocatorState pf h' c bigs ∧ MappingsOwned initial h' bigs := by
  rcases holds with ⟨c, bigs, state, owned⟩
  have same : ∀ b, getBlock (blockData b) = b := fun b => Nat.add_sub_cancel b 8
  cases stepped with
  | gcmalloc bounded eq => exact (gcmallocLocked_owned state bounded owned _).of_ok eq
  | write writable =>
      rcases writable with ⟨b, used, lower, upper⟩ | foreign
      · exact ⟨c, bigs, state.write_data (state.inUse_iff.mp used) lower upper _,
          owned.owner, owned.initial, owned.pages⟩
      · exact ⟨c, bigs, state.write_off (state.foreign_iff.mp foreign) _,
          owned.owner, owned.initial, owned.pages⟩
  | mark used =>
      simp only [PreciseGc.mark, same]
      exact ⟨c, bigs, state.write_header (state.inUse_iff.mp used) (blockSize_markBlock _),
        owned.owner, owned.initial, owned.pages⟩
  | pin used =>
      simp only [PreciseGc.pin, same]
      exact ⟨c, bigs, state.write_header (state.inUse_iff.mp used) (blockSize_pinBlock _),
        owned.owner, owned.initial, owned.pages⟩
  | sweep releases eq =>
      apply state.sweep_owned (releases.plain.sweepReady state.toAllocatorOk) owned _ eq
      intro b mem dies
      exact releasedWhole_iff.mpr (releases.whole b (state.largeBlock_iff.mpr mem) dies)

/-- The lengths for `mmap` and `munmap` with the wrapping of `size_t`: a request for a big block
that has been granted is released whole if and only if it is not eight short of a number of
pages. -/
theorem releaseLength_iff {call start : Nat} {mappings : List Region}
    (granted : pf.mmap call mappings ((align s + sizeofBigBlock) % wordSpace) = some start) :
    roundToPages pf.pageSize ((8 + align s) % wordSpace) =
        roundToPages pf.pageSize ((align s + sizeofBigBlock) % wordSpace) ↔
      ¬pf.pageSize ∣ align s + 8 := by
  have fresh := pf.mmap_fresh granted
  have aligned : align s % 8 = 0 := by
    simp only [align, wordSpace]
    omega
  have below : align s < wordSpace := Nat.mod_lt _ (by decide)
  rcases Nat.lt_or_ge (align s + sizeofBigBlock) wordSpace with fits | wraps
  · rw [Nat.mod_eq_of_lt fits, Nat.mod_eq_of_lt (by simp only [sizeofBigBlock] at fits; omega)]
    exact roundToPages_eq_iff aligned
  · have nonempty := fresh.nonempty
    have inside := fresh.inside
    have room := roundToPages_pos pf nonempty
    simp only [sizeofBigBlock, wordSpace] at *
    have last : align s = 2 ^ 64 - 8 := by omega
    rw [last] at inside room ⊢
    have none : roundToPages pf.pageSize ((8 + (2 ^ 64 - 8)) % 2 ^ 64) = 0 := by
      have large := pf.pageSize_ge
      simp only [roundToPages]
      rw [Nat.div_eq_of_lt (by omega), Nat.zero_mul]
    have divides : pf.pageSize ∣ 2 ^ 64 - 8 + 8 := by
      rcases pf.pageSize_pow with ⟨shift, _, eq⟩
      have page : pf.pageSize ≤ roundToPages pf.pageSize ((2 ^ 64 - 8 + 16) % 2 ^ 64) :=
        Nat.le_of_dvd room (Nat.dvd_mul_left ..)
      have small : 2 ^ shift < 2 ^ 64 := by omega
      rw [eq]
      exact pow_dvd_pow 2 (Nat.le_of_lt ((Nat.pow_lt_pow_iff_right (by decide)).mp small))
    rw [none]
    simp only [divides, not_true, iff_false]
    omega

/-- In every run whose sweeps drop no big block that is eight bytes short of a number of pages, the
mapped pages of big blocks are those of the blocks in `first_big_block`. -/
theorem runs_bigMappings (start : Initial h₀)
    (run : Reachable (· = h₀) (Step pf (ReleasesWhole pf)) h) :
    BigMappingsExact pf h₀.mappings h ∧
      ∀ {s call mappings start},
        pf.mmap call mappings ((align s + sizeofBigBlock) % wordSpace) = some start →
        (roundToPages pf.pageSize ((8 + align s) % wordSpace) =
            roundToPages pf.pageSize ((align s + sizeofBigBlock) % wordSpace) ↔
          ¬pf.pageSize ∣ align s + 8) := by
  refine ⟨?_, releaseLength_iff⟩
  have owned : ∃ c bigs, AllocatorState pf h c bigs ∧ MappingsOwned h₀.mappings h bigs := by
    apply run.invariant
    · rintro _ rfl
      refine ⟨{}, [], start.allocatorState, ?_⟩
      rcases start with ⟨mem, mappings, rfl, _⟩
      refine ⟨fun r inside => Or.inl inside, fun r inside => ⟨inside, List.not_mem_nil⟩, ?_⟩
      simp [pageMappings]
    · exact fun _ _ holds stepped => stepped.owned holds
  rcases owned with ⟨c, bigs, state, owned⟩
  exact owned.exact state.toAllocatorOk

/-- The end of the highest mapping. -/
def highestEnd (mappings : List Region) : Nat :=
  mappings.foldr (fun r top => max (r.start + r.length) top) 4096

theorem highestEnd_ge (mappings : List Region) :
    4096 ≤ highestEnd mappings ∧ ∀ r ∈ mappings, r.start + r.length ≤ highestEnd mappings := by
  induction mappings with
  | nil => simp [highestEnd]
  | cons r mappings ih =>
      refine ⟨ih.1.trans (Nat.le_max_right _ _), fun d mem => ?_⟩
      rcases List.mem_cons.mp mem with rfl | later
      · exact Nat.le_max_left _ _
      · exact (ih.2 d later).trans (Nat.le_max_right _ _)

/-- `mmap` for a system that places every mapping above the others. -/
def mmapAbove (mappings : List Region) (length : Nat) : Option Nat :=
  if 0 < length ∧
      roundToPages 4096 (highestEnd mappings) + roundToPages 4096 length < wordSpace then
    some (roundToPages 4096 (highestEnd mappings))
  else none

def upwards : Platform where
  pageSize := 4096
  ndebug := false
  mmap _ mappings length := mmapAbove mappings length
  pageSize_pow := fourKiB_pow
  mmap_fresh := by
    intro call mappings length start answer
    simp only [mmapAbove] at answer
    split at answer
    · rename_i fits
      cases answer
      have highest := highestEnd_ge mappings
      have above : highestEnd mappings ≤ roundToPages 4096 (highestEnd mappings) :=
        le_roundToPages oneMapping _
      refine ⟨fits.1, Nat.dvd_mul_left .., by omega, fits.2, fun r mem x contains => Or.inl ?_⟩
      have below := highest.2 r mem
      simp only [Region.Contains] at contains
      omega
    · cases answer

def emptyHeap : Heap := { mem := fun _ => 0 }

theorem emptyHeap_initial : Initial emptyHeap := ⟨_, [], rfl, by simp⟩

/-- A big block is allocated and not marked before the sweep. -/
def allocateAndSweep (s : Nat) : Except Fault (Heap × Heap) :=
  gcmallocLocked upwards s true emptyHeap >>= fun served =>
    sweep upwards 10 [] served.2 >>= fun h' => .ok (served.2, h')

theorem allocateAndSweep_runs {allowed : ThreadRoots → Heap → Prop} (small : s < 2 ^ 63)
    (eq : allocateAndSweep s = .ok (h, h')) (ready : allowed [] h) :
    Reachable (· = emptyHeap) (Step upwards allowed) h' := by
  rcases bind_eq_ok eq with ⟨⟨p, h₁⟩, served, eq⟩
  rcases bind_eq_ok eq with ⟨h₂, swept, eq⟩
  cases eq
  have start : Reachable (· = emptyHeap) (Step upwards allowed) emptyHeap := Reachable.start rfl
  have allocated := start.next (Step.gcmalloc small served)
  exact allocated.next (Step.sweep ready swept)

theorem emptyHeap_released : Yields (fun _ => False)
    (fun r : Heap × Heap => PageTable.Describes [(131072, [])] r.1 ∧ r.1.firstBigBlock = 135168 ∧
      bigNext r.1.mem 135168 = 0 ∧ r.1.mem (bigHeader 135168) = 5008 ∧ r.2.firstBigBlock = 0)
    (allocateAndSweep 5000) := by
  decide +kernel

theorem emptyHeap_leaks : Yields (fun _ => False)
    (fun r : Heap × Heap => PageTable.Describes [(131072, [])] r.1 ∧ r.2.firstBigBlock = 0 ∧
      pageMappings r.2.parts = [⟨4096, 131072⟩] ∧ ⟨139264, 4096⟩ ∈ r.2.mappings)
    (allocateAndSweep 4080) := by
  decide +kernel

theorem runs_bigMappings_emptyHeap :
    ∃ h, Reachable (· = emptyHeap) (Step upwards (ReleasesWhole upwards)) h ∧
      h.firstBigBlock = 0 ∧ BigMappingsExact upwards emptyHeap.mappings h := by
  rcases emptyHeap_released.total with ⟨⟨h₁, h⟩, eq, describes, first, next, header, dropped⟩
  dsimp only at describes first next header dropped
  have releases : ReleasesWhole upwards [] h₁ := by
    refine ⟨describes.plainObjects (by decide) (by simp), ?_⟩
    rintro big ⟨bigs, chain, mem⟩ -
    have listed : Chain (bigNext h₁.mem) h₁.firstBigBlock [135168] := ⟨first, by decide, next⟩
    rw [chain.unique listed] at mem
    have size : blockSize 5008 + 8 = 5016 := by
      rw [blockSize_of_aligned (by decide)]
    rw [List.mem_singleton.mp mem, header, size]
    decide
  have run := allocateAndSweep_runs (by decide) eq releases
  exact ⟨h, run, dropped, (runs_bigMappings emptyHeap_initial run).1⟩

/-- A page of the mapping of a dropped big block stays mapped. -/
theorem runs_bigMappings_leak :
    ∃ h, Reachable (· = emptyHeap) (Step upwards (PlainObjects upwards)) h ∧
      ¬BigMappingsExact upwards emptyHeap.mappings h := by
  rcases emptyHeap_leaks.total with ⟨⟨h₁, h⟩, eq, describes, dropped, pages, leaks⟩
  dsimp only at describes dropped pages leaks
  have plain : PlainObjects upwards [] h₁ := describes.plainObjects (by decide) (by simp)
  refine ⟨h, allocateAndSweep_runs (by decide) eq plain, fun exact => ?_⟩
  rcases (exact _).mp leaks with start | page | ⟨big, ⟨bigs, chain, mem⟩, _⟩
  · cases start
  · rw [pages] at page
    simp at page
  · rw [dropped] at chain
    rw [chain.head_eq_zero_iff.mp rfl] at mem
    cases mem

end PreciseGc

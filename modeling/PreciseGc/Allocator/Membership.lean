import PreciseGc.Allocator.BigMappings
import PreciseGc.Mark.Marking

/-!
# Membership in the heap

`is_heap_pointer` takes the end of a recorded mapping for an address in it,
while its loop over the big blocks is half-open.  In every run it is wrong about
the ends of the mappings that no other mapping and no big block begins at, and
about nothing else.  The records never outgrow their array as long as refused
mappings are caught by the assertion of `morecore`.
-/

namespace PreciseGc

open Foundation Memory

variable {pf : Platform} {allowed : ThreadRoots → Heap → Prop} {threads : ThreadRoots}
  {h h₀ h' : Heap} {c : Census} {bigs : List Nat} {parts : List HeapPart} {a s fuel : Nat}

/-- The address is in a mapping made by `request_new_page`, or in a block of `first_big_block`. -/
def Managed (h : Heap) (a : Nat) : Prop :=
  (∃ r ∈ pageMappings h.parts, r.Contains a) ∨
    ∃ big, LargeBlock h big ∧ big ≤ a ∧ a < bigData big + blockSize (h.mem (bigHeader big))

/-- `is_heap_pointer(a)` returns whether the heap has the address. -/
def MembershipExact (h : Heap) (a : Nat) : Prop :=
  ∃ bound, ∀ fuel, bound ≤ fuel →
    ∃ found, isHeapPointer fuel a h = .ok found ∧ (found = true ↔ Managed h a)

/-- The address is the end of a recorded mapping. -/
def EndsPart (h : Heap) (a : Nat) : Prop :=
  ∃ part ∈ h.parts, part.start ≤ part.stop ∧ a = part.stop

/-- The list of big blocks ends. -/
def BigListEnds (h : Heap) : Prop := ∃ bigs, Chain (bigNext h.mem) h.firstBigBlock bigs

/-- What every mapping for pages keeps of the records. -/
structure RecordsOk (pf : Platform) (h : Heap) : Prop where
  doubled : h.pagePerMap = 32 * 2 ^ (pageMappings h.parts).length
  capacity : pageMappings h.parts = [] ∨ h.pagePerMap * pf.pageSize < 2 * wordSpace
  bounded : ∀ part ∈ h.parts, part.stop < wordSpace
  granted : pf.ndebug = false → ∀ part ∈ h.parts, part.start ≠ mapFailedAddr

namespace RecordsOk

theorem doubling (ok : RecordsOk pf h) : ∃ k, h.pagePerMap = 2 ^ k :=
  ⟨5 + (pageMappings h.parts).length, by rw [ok.doubled, pow_add]; rfl⟩

theorem gains (ok : RecordsOk pf h) (maps : MapsPages pf h h') : RecordsOk pf h' := by
  rcases maps.gains with ⟨new, gains⟩
  refine ⟨?_, ?_, ?_, ?_⟩
  · rw [gains.doubled, gains.recorded, pageMappings_append, List.length_append, pow_add,
      ← Nat.mul_assoc, ← ok.doubled]
  · rcases gains.capacity with none | room
    · have same : h'.pagePerMap = h.pagePerMap := by simp [gains.doubled, none]
      rw [gains.recorded, pageMappings_append, none, List.append_nil, same]
      exact ok.capacity
    · exact Or.inr room
  · intro part mem
    rw [gains.recorded] at mem
    exact (List.mem_append.mp mem).elim (ok.bounded part) (gains.bounded part)
  · intro asserts part mem
    rw [gains.recorded] at mem
    exact (List.mem_append.mp mem).elim (ok.granted asserts part) (gains.granted asserts part)

theorem congr (ok : RecordsOk pf h) (parts : h'.parts = h.parts)
    (perMap : h'.pagePerMap = h.pagePerMap) : RecordsOk pf h' where
  doubled := by rw [parts, perMap, ok.doubled]
  capacity := by
    rw [parts, perMap]
    exact ok.capacity
  bounded := parts ▸ ok.bounded
  granted := parts ▸ ok.granted

/-- Every mapping is twice as large as the one before, so that the address space has room for
few. -/
theorem pageMappings_length (ok : RecordsOk pf h) : (pageMappings h.parts).length ≤ 47 := by
  rcases ok.capacity with none | room
  · simp [none]
  · have large := pf.pageSize_ge
    have least : h.pagePerMap * 4096 ≤ h.pagePerMap * pf.pageSize := Nat.mul_le_mul_left _ large
    by_contra more
    have power : 2 ^ 48 ≤ 2 ^ (pageMappings h.parts).length :=
      Nat.pow_le_pow_right (by decide) (by omega)
    have doubled := ok.doubled
    simp only [wordSpace] at room
    omega

/-- With assertions, every record is one of a mapping. -/
theorem parts_length (ok : RecordsOk pf h) (asserts : pf.ndebug = false) :
    h.parts.length ≤ 47 := by
  have all : ∀ parts : List HeapPart, (∀ part ∈ parts, part.start ≠ mapFailedAddr) →
      (pageMappings parts).length = parts.length := by
    intro parts granted
    induction parts with
    | nil => rfl
    | cons part parts ih =>
        have first : part.mapping = some ⟨part.start, part.stop - part.start⟩ :=
          if_neg (granted part List.mem_cons_self)
        rw [pageMappings, List.filterMap_cons_some first, List.length_cons, List.length_cons]
        exact congrArg (· + 1) (ih fun other mem => granted other (List.mem_cons_of_mem _ mem))
  rw [← all h.parts (ok.granted asserts)]
  exact ok.pageMappings_length

end RecordsOk

/-- From `h` to `h'` the records stay in order, and one is added for each write. -/
structure RecordsGrow (pf : Platform) (writes : List Heap) (h h' : Heap) : Prop where
  ok : RecordsOk pf h'
  grown : h'.parts.length = h.parts.length + writes.length

theorem RecordsOk.grow (ok : RecordsOk pf h) (parts : h'.parts = h.parts)
    (perMap : h'.pagePerMap = h.pagePerMap) : RecordsGrow pf [] h h' :=
  ⟨ok.congr parts perMap, congrArg List.length parts⟩

theorem recordsGrowLaws (pf : Platform) :
    EffectLaws (RecordsOk pf) (fun _ => RecordsOk pf) (RecordsGrow pf) where
  refl h ok := ok.grow rfl rfl
  trans writes writes' h h' h'' first second := by
    refine ⟨second.ok, ?_⟩
    rw [second.grown, first.grown, List.length_append]
    omega
  back _ _ _ _ _ ok := ok
  next _ _ _ grow := grow.ok

/-- Every write of the computation finds the records in order and adds one. -/
abbrev WritesRecords {α : Type} (pf : Platform) (h : Heap) (view : α → Heap) (writes : List Heap)
    (computation : Except Fault α) : Prop :=
  Performs (fun _ => RecordsOk pf) (RecordsGrow pf) h view writes computation

theorem RecordsOk.writes {α : Type} {view : α → Heap} {writes : List Heap}
    {computation : Except Fault α} (ok : RecordsOk pf h)
    (written : Writes pf h view writes computation) : WritesRecords pf h view writes computation :=
  written.mono (fun _ maps => ok.gains maps) fun _ _ done => ⟨ok.gains done.maps, done.grown⟩

/-- A big block is recorded nowhere but in its list. -/
theorem mallocInternal_writesRecords (ok : RecordsOk pf h) (expand : Bool) :
    WritesRecords pf h Prod.snd (mallocInternalWrites pf s expand h)
      (mallocInternal pf s expand h) := by
  rcases Nat.lt_or_ge pf.bigBlockThreshold s with isBig | isSmall
  · rw [mallocInternal, mallocInternalWrites, if_pos isBig, if_pos isBig]
    apply Performs.quiet
    cases answer : pf.mmap h.mmapCalls h.mappings ((s + sizeofBigBlock) % wordSpace) with
    | none =>
        rw [morecore_big_of_none answer]
        exact ok.grow rfl rfl
    | some b =>
        rw [morecore_big_of_some answer]
        exact ok.grow rfl rfl
  · exact ok.writes (mallocInternal_writes ok.doubling isSmall expand)

theorem gcmallocLocked_writesRecords (ok : RecordsOk pf h) (expand : Bool) :
    WritesRecords pf h Prod.snd (gcmallocWrites pf s expand h)
      (gcmallocLocked pf s expand h) := by
  unfold gcmallocLocked gcmallocWrites
  apply (ok.writes (initFirstPage_writes ok.doubling)).bind (recordsGrowLaws pf)
  rintro ⟨hasPage, h₁⟩ ok₁
  cases hasPage with
  | false => exact Performs.quiet (ok₁.grow rfl rfl)
  | true => exact mallocInternal_writesRecords ok₁ expand

theorem sweepBigBlocks_records (pf : Platform) (fuel : Nat) (h : Heap) :
    Yields (fun _ => True)
      (fun h' => h'.parts = h.parts ∧ h'.pagePerMap = h.pagePerMap) (sweepBigBlocks pf fuel h) := by
  unfold sweepBigBlocks
  have kept : Yields (fun _ => True)
      (fun s : BigSweep => s.heap.parts = h.parts ∧ s.heap.pagePerMap = h.pagePerMap)
      (walk (fun big _ => big == 0) (sweepBigBlock pf) Fault.outOfFuel fuel h.firstBigBlock
        ⟨h, 0⟩) := by
    refine walk_keeps (fun big s here => ⟨trivial, ?_⟩) fuel ⟨rfl, rfl⟩
    unfold sweepBigBlock
    dsimp only
    split
    · split <;> exact here
    · exact here
  exact kept.bind fun _ here => here

theorem sweep_writesRecords (ok : RecordsOk pf h) :
    WritesRecords pf h id (sweepWrites pf fuel h) (sweep pf fuel threads h) := by
  have bigSweep : WritesRecords pf h id [] (sweepBigBlocks pf fuel h) :=
    Performs.quiet ((sweepBigBlocks_records pf fuel h).mono fun _ same => ok.grow same.1 same.2)
  unfold sweep sweepWrites
  apply bigSweep.bind (recordsGrowLaws pf)
  exact fun h₁ ok₁ => RecordsOk.writes ok₁ (sweepPages_writes ok₁.doubling)

theorem Initial.recordsOk (initial : Initial h) : RecordsOk pf h := by
  rcases initial with ⟨mem, mappings, rfl, -⟩
  exact ⟨rfl, Or.inl rfl, by simp, by simp⟩

/-- What happens to the mappings: requests for pages, allocations and sweeps in any order, and
whatever the program writes in between. -/
inductive MappingStep (pf : Platform) : Heap → Heap → Prop where
  | requestNewPage {expand : Bool} {p : Nat} {h h' : Heap} :
      requestNewPage pf expand h = .ok (p, h') → MappingStep pf h h'
  | gcmalloc {s : Nat} {expand : Bool} {p : Nat} {h h' : Heap} :
      gcmallocLocked pf s expand h = .ok (p, h') → MappingStep pf h h'
  | write {h : Heap} (mem : Memory) : MappingStep pf h { h with mem := mem }
  | sweep {threads : ThreadRoots} {fuel : Nat} {h h' : Heap} :
      sweep pf fuel threads h = .ok h' → MappingStep pf h h'

theorem MappingStep.recordsOk (stepped : MappingStep pf h h') (ok : RecordsOk pf h) :
    RecordsOk pf h' := by
  cases stepped with
  | requestNewPage eq =>
      exact ok.gains ((requestNewPage_mapsPages ok.doubling _).of_ok eq)
  | gcmalloc eq => exact ((gcmallocLocked_writesRecords ok _).result.of_ok eq).ok
  | write mem => exact ok.congr rfl rfl
  | sweep eq => exact ((sweep_writesRecords ok).result.of_ok eq).ok

theorem recordsOk_of_reachable (run : Reachable Initial (MappingStep pf) h) : RecordsOk pf h :=
  run.invariant (fun _ start => start.recordsOk) fun _ _ ok stepped => stepped.recordsOk ok

/-- The steps of the allocator and its clients are among them. -/
theorem Step.mappingStep (stepped : Step pf allowed h h') : MappingStep pf h h' := by
  cases stepped with
  | gcmalloc _ eq => exact .gcmalloc eq
  | write _ => exact .write _
  | mark _ => exact .write _
  | pin _ => exact .write _
  | sweep _ eq => exact .sweep eq

theorem Runs.mappingSteps (run : Runs pf allowed h) : Reachable Initial (MappingStep pf) h :=
  run.invariant (fun _ start => Reachable.start start)
    fun _ _ reached stepped => reached.next stepped.mappingStep

/-- When the sweeps of a run find plain objects, the list of big blocks ends. -/
theorem Runs.bigListEnds (run : Runs pf (PlainObjects pf) h) : BigListEnds h := by
  rcases run.allocatorState with ⟨c, bigs, state⟩
  exact ⟨bigs, state.big.chain⟩

/-- The two loops of `is_heap_pointer` differ in the end of a mapping. -/
theorem inHeap_iff_managed (bounded : ∀ part ∈ h.parts, part.stop < wordSpace)
    (chain : Chain (bigNext h.mem) h.firstBigBlock bigs) :
    InHeap h bigs a ↔ Managed h a ∨ EndsPart h a := by
  have large : ∀ big, LargeBlock h big ↔ big ∈ bigs := by
    intro big
    constructor
    · rintro ⟨others, chain', mem⟩
      rwa [chain.unique chain']
    · exact fun mem => ⟨bigs, chain, mem⟩
  have parts : (∃ part ∈ h.parts, part.start ≤ a ∧ a ≤ part.stop) ↔
      (∃ r ∈ pageMappings h.parts, r.Contains a) ∨ EndsPart h a := by
    constructor
    · rintro ⟨part, mem, lower, upper⟩
      rcases Nat.eq_or_lt_of_le upper with atEnd | inside
      · exact Or.inr ⟨part, mem, by omega, atEnd⟩
      · have below := bounded part mem
        refine Or.inl ⟨_, mem_pageMappings.mpr ⟨part, mem, ?_, rfl⟩, ?_⟩
        · simp only [mapFailedAddr]
          omega
        · simp only [Region.Contains]
          omega
    · rintro (⟨r, mem, contains⟩ | ⟨part, mem, nonempty, rfl⟩)
      · rcases mem_pageMappings.mp mem with ⟨part, partMem, _, rfl⟩
        simp only [Region.Contains] at contains
        exact ⟨part, partMem, by omega, by omega⟩
      · exact ⟨part, mem, nonempty, Nat.le_refl _⟩
  simp only [InHeap, Managed, parts, large, or_right_comm]

theorem membershipExact_iff (bounded : ∀ part ∈ h.parts, part.stop < wordSpace)
    (ends : BigListEnds h) : MembershipExact h a ↔ (EndsPart h a → Managed h a) := by
  rcases ends with ⟨bigs, chain⟩
  constructor
  · rintro ⟨bound, exact⟩ atEnd
    have enough : bigs.length < max bound (bigs.length + 1) := by omega
    rcases exact _ (Nat.le_max_left bound (bigs.length + 1)) with ⟨found, eq, iff⟩
    rcases @isHeapPointer_spec h bigs a _ chain enough with ⟨found', eq', iff'⟩
    rw [eq'] at eq
    cases eq
    exact iff.mp (iff'.mpr ((inHeap_iff_managed bounded chain).mpr (Or.inr atEnd)))
  · intro inside
    refine ⟨bigs.length + 1, fun fuel enough => ?_⟩
    rcases @isHeapPointer_spec h bigs a fuel chain enough with ⟨found, eq, iff⟩
    refine ⟨found, eq, iff.trans ((inHeap_iff_managed bounded chain).trans ?_)⟩
    exact ⟨fun either => either.elim id inside, Or.inl⟩

/-- What a call of `request_new_page` maps is what it records. -/
theorem requestNewPage_records {expand : Bool} {p : Nat} (ok : RecordsOk pf h)
    (eq : requestNewPage pf expand h = .ok (p, h')) :
    ∃ new, h'.mappings = new.reverse ++ h.mappings ∧
      pageMappings h'.parts = pageMappings h.parts ++ new := by
  rcases ((requestNewPage_mapsPages ok.doubling expand).of_ok eq).gains with ⟨parts, gains⟩
  refine ⟨pageMappings parts, gains.mapped, ?_⟩
  rw [gains.recorded, pageMappings_append]

/-- In every state of a run whose list of big blocks ends, `is_heap_pointer` is exact except about
the ends of recorded mappings that the heap does not have. -/
theorem runs_membership (run : Reachable Initial (MappingStep pf) h) :
    (BigListEnds h → ∀ a, MembershipExact h a ↔ (EndsPart h a → Managed h a)) ∧
      (Runs pf (PlainObjects pf) h → BigListEnds h) ∧
      (pf.ndebug = false → h.parts.length ≤ 47) ∧
      ∀ {expand p h'}, requestNewPage pf expand h = .ok (p, h') →
        ∃ new, h'.mappings = new.reverse ++ h.mappings ∧
          pageMappings h'.parts = pageMappings h.parts ++ new := by
  have ok := recordsOk_of_reachable run
  exact ⟨fun ends a => membershipExact_iff ok.bounded ends, Runs.bigListEnds, ok.parts_length,
    fun eq => requestNewPage_records ok eq⟩

/-- The pages of the process are mapped from 4096 to 135168. -/
theorem emptyHeap_parts : Yields (fun _ => False)
    (fun r : Nat × Heap => r.2.parts = [⟨4096, 135168⟩] ∧ r.2.firstBigBlock = 0)
    (gcmallocLocked upwards 40 true emptyHeap) := by
  decide +kernel

theorem emptyHeap_mapped : ∃ h, Runs upwards (PlainObjects upwards) h ∧
    h.parts = [⟨4096, 135168⟩] ∧ h.firstBigBlock = 0 := by
  rcases emptyHeap_parts.total with ⟨⟨p, h⟩, eq, parts, noBigs⟩
  have start : Runs upwards (PlainObjects upwards) emptyHeap := Reachable.start emptyHeap_initial
  exact ⟨h, start.next (Step.gcmalloc (by decide) eq), parts, noBigs⟩

theorem runs_membership_start :
    ∃ h, Runs upwards (PlainObjects upwards) h ∧ Managed h 4096 ∧ MembershipExact h 4096 := by
  rcases emptyHeap_mapped with ⟨h, run, parts, _⟩
  have exact := runs_membership run.mappingSteps
  have inside : Managed h 4096 := by
    refine Or.inl ⟨⟨4096, 131072⟩, mem_pageMappings.mpr ⟨⟨4096, 135168⟩, ?_, ?_, rfl⟩, ?_⟩
    · simp [parts]
    · decide
    · simp [Region.Contains]
  exact ⟨h, run, inside, (exact.1 (exact.2.1 run) 4096).mpr fun _ => inside⟩

/-- The address behind the only mapping is taken for one in the heap. -/
theorem runs_membership_end :
    ∃ h, Runs upwards (PlainObjects upwards) h ∧ ¬MembershipExact h 135168 := by
  rcases emptyHeap_mapped with ⟨h, run, parts, noBigs⟩
  refine ⟨h, run, ?_⟩
  rintro ⟨bound, exact⟩
  rcases exact bound (Nat.le_refl _) with ⟨found, eq, iff⟩
  have isFound : isHeapPointer bound 135168 h = .ok true := by simp [isHeapPointer, parts]
  rw [isFound] at eq
  cases eq
  rcases iff.mp rfl with ⟨r, mem, contains⟩ | ⟨big, ⟨bigs, chain, mem⟩, _⟩
  · rcases mem_pageMappings.mp mem with ⟨part, partMem, _, rfl⟩
    rw [parts, List.mem_singleton] at partMem
    subst partMem
    simp [Region.Contains] at contains
  · rw [noBigs] at chain
    rw [chain.head_eq_zero_iff.mp rfl] at mem
    cases mem

end PreciseGc

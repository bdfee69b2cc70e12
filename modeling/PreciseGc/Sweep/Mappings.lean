import PreciseGc.Heap.PartsWrites
import PreciseGc.Sweep.Collection

/-!
# What a sweep maps and unmaps

The passes over the pages map new pages and unmap nothing, whatever they make
of the heap they find; each request for pages leaves a record.
`sweep_big_blocks` unmaps one region for each big block it drops.  It computes
the length from the size of a pointer in place of that of the structure, which
makes a difference for block sizes at one residue modulo the page size.
-/

namespace PreciseGc

open Foundation Memory

variable {pf : Platform} {threads : ThreadRoots} {h h₀ h' : Heap} {c : Census}
  {bigs kept todo : List Nat} {b p fuel : Nat} {s : SweepState}

/-- A pass over the blocks of a page. -/
theorem forBlocks_keeps {holds : Heap → Prop} {body : Nat → Heap → Except Fault Heap}
    (keeps : ∀ b h, holds h → Yields (fun _ => True) holds (body b h)) (start : holds h) :
    Yields (fun _ => True) holds (forBlocks fuel p body h) := by
  apply walk_keeps _ _ start
  intro b h here
  exact ⟨trivial, (keeps b h here).bind fun _ there => there⟩

/-- A pass over a list of pages. -/
theorem forPages_keeps {σ : Type} {holds : σ → Prop} {heap : σ → Heap}
    {body : Nat → σ → Except Fault σ} {s : σ}
    (keeps : ∀ p s, holds s → Yields (fun _ => True) holds (body p s)) (start : holds s) :
    Yields (fun _ => True) holds (forPages heap fuel p body s) := by
  apply walk_keeps _ _ start
  intro p s here
  exact ⟨trivial, (keeps p s here).bind fun _ there => there⟩

theorem checkIndex_any (index : Nat) :
    Yields (fun _ => True) (fun _ => True) (checkIndex index) := by
  unfold checkIndex
  split <;> trivial

theorem linkFreeTail_idle (idle : Written pf [] h₀ h) :
    Yields (fun _ => True) (Written pf [] h₀) (linkFreeTail pf p h) := by
  unfold linkFreeTail
  split
  · exact idle
  · apply (checkIndex_any _).bind
    intro _ _
    exact idle.congr rfl rfl rfl

theorem unlinkPinnedPage_statics (currPage nextPage : Nat) (s : SweepState) :
    (unlinkPinnedPage currPage nextPage s).heap.parts = s.heap.parts ∧
      (unlinkPinnedPage currPage nextPage s).heap.mappings = s.heap.mappings ∧
        (unlinkPinnedPage currPage nextPage s).heap.pagePerMap = s.heap.pagePerMap := by
  unfold unlinkPinnedPage
  dsimp only
  split <;> split <;> exact ⟨rfl, rfl, rfl⟩

theorem classifyPages_idle (idle : Written pf [] h₀ h) :
    Yields (fun _ => True) (fun s => Written pf [] h₀ s.heap) (classifyPages pf fuel h) := by
  refine walk_keeps (fun p s here => ⟨trivial, ?_⟩) fuel idle
  unfold classifyPage
  dsimp only
  cases findPinned s.heap.mem p fuel (firstBlock p) with
  | error fault => trivial
  | ok b =>
      simp only [bind, Except.bind]
      split
      · exact here
      · rcases unlinkPinnedPage_statics p (pageNext s.heap.mem p) s with ⟨parts, mappings, perMap⟩
        have retained : Yields (fun _ => True) (Written pf [] h₀) (forBlocks fuel p retainBlock
            (unlinkPinnedPage p (pageNext s.heap.mem p) s).heap) :=
          forBlocks_keeps (fun b h₁ there => there.congr rfl rfl rfl)
            (here.congr parts mappings perMap)
        apply retained.bind
        intro h₁ there
        exact (linkFreeTail_idle there).bind fun _ last => last

theorem findFreeTail_idle (idle : Written pf [] h₀ h) (count size : Nat) :
    Yields (fun _ => True) (fun result => Written pf [] h₀ result.2)
      (findFreeTail count size h) := by
  induction count generalizing size with
  | zero => exact idle
  | succ count ih =>
      rw [findFreeTail]
      split
      · exact idle
      · apply (checkIndex_any _).bind
        intro _ _
        dsimp only
        split
        · exact idle.congr rfl rfl rfl
        · exact ih (size + 8)

theorem fixPages_idle (idle : Written pf [] h₀ h) :
    Yields (fun _ => True) (Written pf [] h₀) (fixPages pf fuel p h) := by
  apply forPages_keeps _ idle
  intro q h₁ here
  apply forBlocks_keeps _ here
  intro b h₂ there
  unfold fixBlock
  apply (assertThat_yields (Or.inr trivial)).bind
  intro _ _
  apply (assertThat_yields (Or.inr trivial)).bind
  intro _ _
  split
  · exact there
  · dsimp only
    split
    · exact there.congr rfl rfl rfl
    · cases fixElements _ _ _ _ _ _ _ with
      | error fault => trivial
      | ok m => exact there.congr rfl rfl rfl

theorem clearFreeBlocks_idle (idle : Written pf [] h₀ h) (count size : Nat) :
    Yields (fun _ => True) (Written pf [] h₀) (clearFreeBlocks count size h) := by
  induction count generalizing size h with
  | zero => exact idle
  | succ count ih =>
      rw [clearFreeBlocks]
      split
      · exact idle
      · apply (checkIndex_any _).bind
        intro _ _
        apply ih
        exact idle.congr rfl rfl rfl

def copyBlockWrites (b : Nat) (h : Heap) : List Heap :=
  after (findFreeTail (h.maxFreeBlock + 1) (blockSize (h.mem b)) h) fun found =>
    if found.1 ≠ 0 then [] else requestNewPageWrites true found.2

def ensureAlivePageWrites (s : SweepState) : List Heap :=
  if s.alivePages = 0 then requestNewPageWrites true s.heap else []

def evacuateBlockWrites (pf : Platform) (b : Nat) (s : SweepState) : List Heap :=
  let header := s.heap.mem b
  after (assertThat pf (!blockIsPinned header)) fun _ =>
    after (assertThat pf (!(blockIsDead header && blockIsMarked header))) fun _ =>
      if blockIsMarked header then
        ensureAlivePageWrites s ++ after (ensureAlivePage pf s) fun s => copyBlockWrites b s.heap
      else []

def evacuatePageWrites (pf : Platform) (fuel : Nat) (p : Nat) (s : SweepState) : List Heap :=
  walkRecord (fun b (s : SweepState) => b == freeBlock s.heap.mem p)
    (fun b s => evacuateBlock pf b s >>= fun s => .ok (nextBlock s.heap.mem b, s))
    (evacuateBlockWrites pf) fuel (firstBlock p) s

def evacuatePagesWrites (pf : Platform) (fuel : Nat) (s : SweepState) : List Heap :=
  walkRecord (fun p _ => p == 0)
    (fun p s => evacuatePage pf fuel p s >>= fun s => .ok (pageNext s.heap.mem p, s))
    (evacuatePageWrites pf fuel) fuel s.heap.firstPage s

def sweepPagesWrites (pf : Platform) (fuel : Nat) (h : Heap) : List Heap :=
  after (classifyPages pf fuel { h with maxFreeBlock := 0, lastPage := 0 })
    (evacuatePagesWrites pf fuel)

def sweepWrites (pf : Platform) (fuel : Nat) (h : Heap) : List Heap :=
  after (sweepBigBlocks pf fuel h) (sweepPagesWrites pf fuel)

theorem copyBlock_writes (doubling : Doubling h) :
    Writes pf h id (copyBlockWrites b h) (copyBlock pf b h) := by
  have paged : Writes pf h Prod.snd (copyBlockWrites b h)
      (pageForCopy pf (blockSize (h.mem b)) h) := by
    unfold pageForCopy copyBlockWrites
    apply (Performs.quiet (findFreeTail_idle (Written.refl doubling) _ _)).bind (writtenLaws pf)
    rintro ⟨currPage, h₁⟩ here
    dsimp only
    split
    · exact Performs.quiet (Written.refl here)
    · apply (requestNewPage_writes here true).andThen (writtenLaws pf)
      rintro ⟨newPage, h₂⟩ there
      dsimp only
      split
      · trivial
      · exact (Written.refl there).congr rfl rfl rfl
  unfold copyBlock
  apply paged.andThen (writtenLaws pf)
  rintro ⟨currPage, h₁⟩ here
  exact linkFreeTail_idle ((Written.refl here).congr rfl rfl rfl)

theorem ensureAlivePage_writes (doubling : Doubling s.heap) :
    Writes pf s.heap SweepState.heap (ensureAlivePageWrites s) (ensureAlivePage pf s) := by
  unfold ensureAlivePage ensureAlivePageWrites
  split
  · apply (requestNewPage_writes doubling true).andThen (writtenLaws pf)
    rintro ⟨newPage, h₁⟩ here
    dsimp only
    split
    · trivial
    · apply (checkIndex_any _).bind
      exact fun _ _ => (Written.refl here).congr rfl rfl rfl
  · exact Performs.quiet (Written.refl doubling)

theorem assertThat_writes (doubling : Doubling h) (condition : Bool) :
    Writes pf h (fun _ => h) [] (assertThat pf condition) :=
  Performs.quiet ((assertThat_yields (Or.inr trivial)).mono fun _ _ => Written.refl doubling)

theorem evacuateBlock_writes (doubling : Doubling s.heap) :
    Writes pf s.heap SweepState.heap (evacuateBlockWrites pf b s) (evacuateBlock pf b s) := by
  unfold evacuateBlock evacuateBlockWrites
  apply (assertThat_writes doubling _).bind (writtenLaws pf)
  intro _ _
  apply (assertThat_writes doubling _).bind (writtenLaws pf)
  intro _ _
  split
  · apply (ensureAlivePage_writes doubling).bind (writtenLaws pf)
    intro s₁ here
    apply (copyBlock_writes here).andThen (writtenLaws pf)
    exact fun h₁ there => Written.refl there
  · exact Performs.quiet (Written.refl doubling)

theorem evacuatePages_writes (doubling : Doubling s.heap) :
    Writes pf s.heap SweepState.heap (evacuatePagesWrites pf fuel s) (evacuatePages pf fuel s) := by
  apply Performs.walk (writtenLaws pf) _ doubling
  intro q s₁ here
  have page : Writes pf s₁.heap SweepState.heap (evacuatePageWrites pf fuel q s₁)
      (evacuatePage pf fuel q s₁) := by
    apply Performs.walk (writtenLaws pf) _ here
    intro b s₂ there
    apply (evacuateBlock_writes there).andThen (writtenLaws pf)
    exact fun s₃ last => Written.refl last
  apply page.andThen (writtenLaws pf)
  exact fun s₂ there => Written.refl there

/-- The passes over the pages only map pages, in any heap. -/
theorem sweepPages_writes (doubling : Doubling h) :
    Writes pf h id (sweepPagesWrites pf fuel h) (sweepPages pf fuel threads h) := by
  have start : Written pf [] h { h with maxFreeBlock := 0, lastPage := 0 } :=
    (Written.refl doubling).congr rfl rfl rfl
  unfold sweepPages sweepPagesWrites
  apply (Performs.quiet (classifyPages_idle start)).bind (writtenLaws pf)
  intro s₁ classified
  apply (evacuatePages_writes classified).andThen (writtenLaws pf)
  intro s evacuated
  apply (fixPages_idle (Written.refl evacuated)).bind
  intro h₃ fixed
  have recycled : Yields (fun _ => True) (Written pf [] s.heap)
      (recyclePages fuel (fixRoots threads h₃)) :=
    walk_keeps (fun _ _ here => ⟨trivial, here.congr rfl rfl rfl⟩) _ (fixed.congr rfl rfl rfl)
  apply recycled.bind
  intro h₅ returned
  have adopted : Written pf [] s.heap { h₅ with firstPage := s.alivePages } :=
    returned.congr rfl rfl rfl
  apply (clearFreeBlocks_idle adopted _ _).bind
  exact fun _ cleared => cleared.congr rfl rfl rfl

theorem roundToPages_split {page q t : Nat} (nonempty : 0 < t) (fits : t ≤ page) :
    roundToPages page (page * q + t) = page * q + page := by
  have shifted : page * q + t + (page - 1) = (t - 1) + page * (q + 1) := by
    rw [Nat.mul_succ]
    omega
  rw [roundToPages, shifted, Nat.add_mul_div_left _ _ (by omega), Nat.div_eq_of_lt (by omega),
    Nat.zero_add, Nat.mul_comm, Nat.mul_succ]

/-- The lengths that `mmap` and `munmap` are given for a big block of `size` bytes differ by eight,
which makes no difference in whole pages unless the smaller one is a number of whole pages. -/
theorem roundToPages_eq_iff {size : Nat} (aligned : size % 8 = 0) :
    roundToPages pf.pageSize (8 + size) = roundToPages pf.pageSize (size + sizeofBigBlock) ↔
      ¬pf.pageSize ∣ size + 8 := by
  have large := pf.pageSize_ge
  have pageAligned := pf.pageSize_mod
  have split := Nat.div_add_mod (size + 8) pf.pageSize
  have rest := Nat.mod_lt (size + 8) (show 0 < pf.pageSize by omega)
  have whole := roundToPages_mul pf ((size + 8) / pf.pageSize)
  rw [Nat.mul_comm] at whole
  have pagesAligned : pf.pageSize * ((size + 8) / pf.pageSize) % 8 = 0 := by
    rw [Nat.mul_mod, pageAligned, Nat.zero_mul, Nat.zero_mod]
  have first : 8 + size = pf.pageSize * ((size + 8) / pf.pageSize) + (size + 8) % pf.pageSize := by
    omega
  have second : size + sizeofBigBlock =
      pf.pageSize * ((size + 8) / pf.pageSize) + ((size + 8) % pf.pageSize + 8) := by
    simp only [sizeofBigBlock]
    omega
  rw [Nat.dvd_iff_mod_eq_zero, second, roundToPages_split (by omega) (by omega), first]
  by_cases none : (size + 8) % pf.pageSize = 0
  · rw [none, Nat.add_zero, whole]
    omega
  · rw [roundToPages_split (Nat.pos_of_ne_zero none) (by omega)]
    simp [none]

/-- `munmap` releases every page of the big block. -/
def ReleasedWhole (pf : Platform) (m : Memory) (b : Nat) : Prop :=
  roundToPages pf.pageSize (8 + blockSize (m (bigHeader b))) = bigLength pf m b

theorem releasedWhole_iff {m : Memory} :
    ReleasedWhole pf m b ↔ ¬pf.pageSize ∣ blockSize (m (bigHeader b)) + 8 :=
  roundToPages_eq_iff (blockSize_mod _)

/-- When every block it drops is released whole, `sweep_big_blocks` leaves exactly the other
mappings. -/
theorem sweepBigBlocks_mappings (big : BigBlocks pf h₀ c bigs)
    (whole : ∀ b ∈ bigs, bigSurvives h₀.mem b = false → ReleasedWhole pf h₀.mem b)
    (enough : bigs.length < fuel) (eq : sweepBigBlocks pf fuel h₀ = .ok h) (r : Region) :
    r ∈ h.mappings ↔
      r ∈ h₀.mappings ∧ ∀ b ∈ bigs, r.start = b → bigSurvives h₀.mem b = true := by
  have yields : Yields (fun _ => False) _ (walk (fun b _ => b == 0) (sweepBigBlock pf)
      Fault.outOfFuel fuel h₀.firstBigBlock ⟨h₀, 0⟩) := walk_yields
    (fun todo cursor s => (∃ kept, BigSweeping pf h₀ bigs kept todo s ∧ ∀ r ∈ s.heap.mappings,
      r ∈ h₀.mappings ∧ ∀ b ∈ bigs, r.start = b → b ∈ kept ++ todo) ∧ cursor = todo.headD 0)
    ?_ ?_ enough
    ⟨⟨[], BigSweeping.start big, fun r mem => ⟨mem, fun b bMem _ => bMem⟩⟩, big.chain.head_eq⟩
  · rcases yields.total with ⟨s, eq', cursor, ⟨kept, inv, old⟩, _⟩
    unfold sweepBigBlocks at eq
    rw [eq'] at eq
    cases eq
    rcases inv.visited with ⟨visited, split, filtered⟩
    rw [List.append_nil] at split
    subst split
    have inKept : ∀ b, b ∈ kept ↔ b ∈ bigs ∧ bigSurvives h₀.mem b = true := by
      intro b
      rw [filtered, List.mem_filter]
    constructor
    · intro mem
      refine ⟨(old r mem).1, fun b bMem atStart => ?_⟩
      have stays := (old r mem).2 b bMem atStart
      rw [List.append_nil] at stays
      exact ((inKept b).mp stays).2
    · rintro ⟨mem, survivors⟩
      refine inv.retained r mem fun b bMem gone atStart => gone ?_
      rw [List.append_nil]
      exact (inKept b).mpr ⟨bMem, survivors b bMem atStart⟩
  · rintro cursor s ⟨_, atEnd⟩
    simpa using atEnd
  · rintro b todo cursor s ⟨⟨kept, inv, old⟩, atHead⟩
    rw [List.headD_cons] at atHead
    subst atHead
    have nonnull : cursor ≠ 0 := inv.chain.ne_zero (by simp)
    refine ⟨by simpa using nonnull, ?_⟩
    rcases inv.iterate big with ⟨s', eq', ⟨dies, inv', mappings⟩ | ⟨_, inv', mappings⟩⟩
    · rw [eq']
      refine ⟨⟨_, inv', ?_⟩, rfl⟩
      intro r mem
      rw [mappings] at mem
      rcases List.mem_flatMap.mp mem with ⟨before, beforeMem, part⟩
      rcases old before beforeMem with ⟨original, listed⟩
      have cursorBig : cursor ∈ bigs := inv.sub cursor (by simp)
      rw [Region.unmap] at part
      split at part
      · rename_i atStart
        have length := big.region cursor cursorBig before original atStart
        have released := whole cursor cursorBig dies
        rw [ReleasedWhole, ← length] at released
        rw [if_pos (Nat.le_of_eq released.symm)] at part
        cases part
      · rename_i elsewhere
        rw [List.mem_singleton] at part
        subst part
        refine ⟨original, fun b bMem atStart => ?_⟩
        have other : b ≠ cursor := by
          rintro rfl
          exact elsewhere atStart
        simpa [other] using listed b bMem atStart
    · rw [eq']
      refine ⟨⟨_, inv', ?_⟩, rfl⟩
      rw [mappings]
      simpa using old

end PreciseGc

import PreciseGc.Allocator.Runs
import PreciseGc.Sweep.Relocation

/-!
# The blocks of a page

In a run that sweeps plain objects only, the blocks of every page in use tile
it up to its free block, the free block records the bytes left, and every
pointer handed out is the start of a new, aligned and zeroed block.

A sweep that finds the record of a composite pointer reads it as a `base_meta`
and takes the words of the user's object for a shell; the offsets found there
lead it to redirect any word of memory, the free-block word of a page included.
-/

namespace PreciseGc

open Foundation Memory

variable {pf : Platform} {h h' : Heap} {c : Census} {bigs : List Nat} {p : Nat}

/-- The blocks of a page tile it up to its free block, which ends the page or records what is left
of it. -/
def PageTiled (pf : Platform) (m : Memory) (p : Nat) : Prop :=
  ∃ blocks, Tiles (blockExtent m) (firstBlock p) (freeBlock m p) blocks ∧
    freeBlock m p ≤ p + pf.pageSize ∧
    (∀ b ∈ blocks, b % 8 = 0 ∧ blockSize (m b) % 8 = 0 ∧ 0 < blockSize (m b)) ∧
    (pageIsFull pf m p = false →
      m (freeBlock m p) + sizeofBlock + freeBlock m p = p + pf.pageSize)

/-- Every page in use is tiled by its blocks. -/
def PagesTiled (pf : Platform) (h : Heap) : Prop :=
  ∃ pages, Chain (pageNext h.mem) h.firstPage pages ∧ ∀ p ∈ pages, PageTiled pf h.mem p

/-- The pointer `p` that `gcmalloc(s)` returns in `h` is the start of a block of `h'` that is new,
aligned, large enough, zeroed, in one mapping, and apart from every other block in use. -/
def NewBlock (h : Heap) (s p : Nat) (h' : Heap) : Prop :=
  p % 8 = 0 ∧ ∃ b, p = blockData b ∧ InUse h' b ∧ ¬InUse h b ∧ s ≤ blockSize (h'.mem b) ∧
    (∀ x, p ≤ x → x < p + blockSize (h'.mem b) → h'.mem x = 0) ∧
    (∃ r ∈ h'.mappings, r.start ≤ b ∧ p + blockSize (h'.mem b) ≤ r.start + r.length) ∧
    ∀ d, InUse h' d → b ≠ d →
      b + 8 + blockSize (h'.mem b) ≤ d ∨ d + 8 + blockSize (h'.mem d) ≤ b

theorem PageOk.pageTiled {m : Memory} {blocks : List Nat} (ok : PageOk pf m p blocks)
    (aligned : p % 8 = 0) : PageTiled pf m p := by
  refine ⟨blocks, ok.tiles, ok.inside, fun b mem => ?_, ok.tail⟩
  have := ok.room b mem
  exact ⟨(ok.aligned_blocks aligned).2 b mem, blockSize_mod _, by omega⟩

theorem AllocatorOk.pagesTiled (ok : AllocatorOk pf h c bigs) : PagesTiled pf h := by
  refine ⟨c.alive, ok.arena.aliveChain, fun p mem => ?_⟩
  have pTiled := Classifying.tiled_of_alive mem
  exact (ok.arena.pageOk p pTiled).pageTiled
    (mod_eight_of_page (ok.arena.aligned p (Arena.tiled_pages pTiled)))

/-- Every block handed out by `gcmalloc` is a new one. -/
theorem AllocatorState.newBlock {s : Nat} {expand : Bool} (state : AllocatorState pf h c bigs)
    (bounded : s < 2 ^ 63) (eq : gcmallocLocked pf s expand h = .ok (p, h')) (nonnull : p ≠ 0) :
    NewBlock h s p h' := by
  have size := align_spec bounded
  rcases (gcmallocLocked_yields state bounded expand).of_ok eq with
    ⟨⟨c', bigs', grown, isNull | ⟨b, isData, served⟩⟩, -⟩
  · exact absurd isNull nonnull
  dsimp only at isData grown served
  subst isData
  have ok := grown.state.toAllocatorOk
  have sizeEq : blockSize (h'.mem b) = align s := by
    rw [served.header]
    exact blockSize_of_aligned size.1
  have aligned := served.aligned
  refine ⟨?_, b, rfl, ok.inUse_iff.mpr served.used, fun used => ?_, by omega,
    fun x lower upper => ?_,
    ?_, fun d used different => ?_⟩
  · simp only [blockData, sizeofBlock]
    omega
  · exact served.fresh (state.inUse_iff.mp used)
  · rw [sizeEq] at upper
    exact served.zeroed x lower upper
  · exact ok.used_mapped served.used
  · exact ok.used_disjoint served.used (ok.inUse_iff.mp used) different

/-- In a run that sweeps plain objects only, the pages in use are tiled and every block handed out
is a new one. -/
theorem runs_blocks (run : Runs pf (PlainObjects pf) h) :
    PagesTiled pf h ∧ ∀ s expand p h', s < 2 ^ 63 →
      gcmallocLocked pf s expand h = .ok (p, h') → p ≠ 0 → NewBlock h s p h' := by
  rcases run.allocatorState with ⟨c, bigs, state⟩
  exact ⟨state.pagesTiled, fun s expand p h' bounded eq nonnull =>
    state.newBlock bounded eq nonnull⟩

/-- `mmap` for a system that places every mapping at `start`, as long as there is room. -/
def mmapAt (start : Nat) (mappings : List Region) (length : Nat) : Option Nat :=
  if 0 < length ∧ start + roundToPages 4096 length < wordSpace ∧
      ∀ r ∈ mappings, r.start + r.length ≤ start ∨ start + roundToPages 4096 length ≤ r.start then
    some start
  else none

/-- Pages of 4 KiB, mapped at 1 MiB. -/
def oneMapping : Platform where
  pageSize := 4096
  ndebug := false
  mmap _ mappings length := mmapAt 1048576 mappings length
  pageSize_pow := fourKiB_pow
  mmap_fresh := by
    intro call mappings length start answer
    simp only [mmapAt] at answer
    split at answer
    · rename_i fresh
      cases answer
      refine ⟨fresh.1, by decide, by decide, fresh.2.1, fun r mem x contains => ?_⟩
      have := fresh.2.2 r mem
      simp only [Region.Contains] at contains
      omega
    · cases answer

/-- Two shells without pointer slots lie in the one mapping there is at the start. -/
def startHeap : Heap where
  mem := wordsAt [(131072, 32), (131088, 4040)]
  mappings := [⟨131072, 4096⟩]

theorem startHeap_runs {allowed : ThreadRoots → Heap → Prop} : Runs oneMapping allowed startHeap :=
  Reachable.start ⟨_, _, rfl, by decide⟩

/-- A heap without flagged blocks is a heap of plain objects: nothing survives. -/
theorem PageTable.Describes.plainObjects {table : PageTable} (describes : table.Describes h)
    (small : pf.bigBlockThreshold < freeBlocksLength)
    (unflagged : ∀ entry ∈ table, ∀ b ∈ entry.2, h.mem b % 8 = 0) : PlainObjects pf [] h := by
  have flags : ∀ b, SmallBlock h b → blockIsPinned (h.mem b) = false ∧
      blockIsMarked (h.mem b) = false ∧ blockIsDead (h.mem b) = false := by
    intro b isSmall
    rcases describes.smallBlock_iff.mp isSmall with ⟨entry, mem, bMem⟩
    exact flags_of_aligned (unflagged entry mem b bMem)
  have none : ∀ b, SmallBlock h b → survives h.mem b ≠ true := by
    intro b isSmall
    rcases flags b isSmall with ⟨unpinned, unmarked, _⟩
    simp [survives, unpinned, unmarked]
  refine
    { small := small, deadUnmarked := ?_, object := ?_, slotPlain := ?_, slotOnce := ?_,
      rootOff := by simp, rootPlain := by simp, rootOnce := by simp }
  · intro pages p blocks chain pMem tiles _ b bMem
    have := (flags b ⟨pages, p, blocks, chain, pMem, tiles, bMem⟩).2.2
    simp [this]
  · exact fun b isSmall alive => absurd alive (none b isSmall)
  · exact fun b isSmall alive => absurd alive (none b isSmall)
  · exact fun b isSmall alive => absurd alive (none b isSmall)

/-- The mapped bytes `[x, x + length)` belong to no page. -/
def ApartFromPages (pf : Platform) (h : Heap) (x length : Nat) : Prop :=
  (∃ r ∈ h.mappings, r.start ≤ x ∧ x + length ≤ r.start + r.length) ∧
    ∀ p ∈ mappedPages pf h, x + length ≤ p ∨ p + pf.pageSize ≤ x

instance (x length : Nat) : Decidable (ApartFromPages pf h x length) :=
  inferInstanceAs (Decidable (_ ∧ _))

theorem ApartFromPages.foreign {start length x : Nat} (apart : ApartFromPages pf h start length)
    (noBigs : h.firstBigBlock = 0) (lower : start ≤ x) (upper : x < start + length) :
    Foreign pf h x := by
  rcases apart with ⟨⟨r, mem, first, last⟩, away⟩
  refine ⟨⟨r, mem, by omega, by omega⟩, fun p pMem => ?_, ?_⟩
  · have := away p pMem
    omega
  · rintro big ⟨bigs, chain, bigMem⟩
    rw [noBigs] at chain
    cases bigs with
    | nil => simp at bigMem
    | cons b bigs => exact absurd chain.1.symm chain.2.1

/-- A check of a block by the table: it holds an object of plain pointers to blocks of the table,
whose shell ends before the word `root`. -/
def PageTable.ChecksObject (pf : Platform) (table : PageTable) (root : Nat) (h : Heap) (b : Nat) :
    Prop :=
  24 + shellSize h.mem (shellOf h.mem b) * countOf h.mem b ≤ blockSize (h.mem b) ∧
    (∀ j < shellCount h.mem (shellOf h.mem b),
      shellOffset h.mem (shellOf h.mem b) j + 8 ≤ shellSize h.mem (shellOf h.mem b)) ∧
    ApartFromPages pf h (shellOf h.mem b) (8 * (2 + shellCount h.mem (shellOf h.mem b))) ∧
    shellOf h.mem b + 8 * (2 + shellCount h.mem (shellOf h.mem b)) ≤ root ∧
    ∀ x ∈ slotsOf h.mem b, ∃ entry ∈ table, ∃ d ∈ entry.2, Designates (h.mem x) d

instance (table : PageTable) (root b : Nat) : Decidable (table.ChecksObject pf root h b) :=
  inferInstanceAs (Decidable (_ ∧ _ ∧ _ ∧ _ ∧ _))

/-- A heap without dead and big blocks whose survivors pass the check. -/
theorem PageTable.Describes.plainObjects_checked {table : PageTable} {root : Nat}
    (describes : table.Describes h) (small : pf.bigBlockThreshold < freeBlocksLength)
    (noBigs : h.firstBigBlock = 0)
    (checked : ∀ entry ∈ table, ∀ b ∈ entry.2, blockIsDead (h.mem b) = false ∧
      (survives h.mem b = true → table.ChecksObject pf root h b))
    (rootApart : root ≠ 0 ∧ ApartFromPages pf h root 1)
    (designates : ∃ entry ∈ table, ∃ d ∈ entry.2, Designates (h.mem root) d) :
    PlainObjects pf [[root]] h := by
  have listed : ∀ b, SmallBlock h b → blockIsDead (h.mem b) = false ∧
      (survives h.mem b = true → table.ChecksObject pf root h b) := by
    intro b isSmall
    rcases describes.smallBlock_iff.mp isSmall with ⟨entry, mem, bMem⟩
    exact checked entry mem b bMem
  have points : ∀ {w}, (∃ entry ∈ table, ∃ d ∈ entry.2, Designates w d) →
      isCompositePointer w = false ∧ PointsToBlock h w := by
    rintro w ⟨entry, mem, d, dMem, same⟩
    exact ⟨same.1, Or.inr (Or.inl ⟨d, describes.smallBlock_iff.mpr ⟨entry, mem, dMem⟩, same⟩)⟩
  have onlyRoot : ∀ a ∈ [[root]].flatten, a = root := by simp
  refine
    { small := small, deadUnmarked := ?_, object := ?_, slotPlain := ?_, slotOnce := ?_,
      rootOff := ?_, rootPlain := ?_, rootOnce := ?_ }
  · intro pages p blocks chain pMem tiles _ b bMem
    have := (listed b ⟨pages, p, blocks, chain, pMem, tiles, bMem⟩).1
    simp [this]
  · intro b isSmall alive
    rcases (listed b isSmall).2 alive with ⟨room, inside, apart, before, _⟩
    refine ⟨room, inside, fun x lower upper => ⟨apart.foreign noBigs lower upper, fun mem => ?_⟩⟩
    have := onlyRoot x mem
    omega
  · exact fun b isSmall alive x slot => (points (((listed b isSmall).2 alive).2.2.2.2 x slot)).1
  · exact fun b isSmall alive x slot =>
      Or.inl (points (((listed b isSmall).2 alive).2.2.2.2 x slot)).2
  · intro a mem
    rw [onlyRoot a mem]
    exact ⟨rootApart.1, rootApart.2.foreign noBigs (by omega) (by omega)⟩
  · intro a mem
    rw [onlyRoot a mem]
    exact (points designates).1
  · intro a mem
    rw [onlyRoot a mem]
    exact Or.inl (points designates).2

/-- The word at `131200` is a stack root; the shell at `131072` has one slot. -/
def survivorHeap : Heap where
  mem := wordsAt [(131072, 8), (131080, 1), (131200, 1175600)]
  mappings := [⟨131072, 4096⟩]

/-- Two objects on two pages, and a block that nothing marks. -/
def survivorTable : PageTable := [(1175552, [1175568, 1175616]), (1171456, [1171472])]

/-- The objects point to each other; both are marked, and the one on the second page is pinned. -/
def survivorActions : List Action :=
  [.write 1175568 1175584 131072, .write 1175568 1175592 1, .write 1175568 1175600 1171504,
    .write 1171472 1171488 131072, .write 1171472 1171496 1, .write 1171472 1171504 1175600,
    .mark 1175568, .mark 1171472, .pin 1171472]

/-- The sweep moves the first object behind the pinned one and redirects both pointers to it. -/
theorem survivorHeap_swept : Yields (fun _ => False)
    (fun r : Heap × Heap × Nat × Heap =>
      (survivorTable.Describes r.1 ∧ r.1.firstBigBlock = 0 ∧
        (∀ entry ∈ survivorTable, ∀ b ∈ entry.2, blockIsDead (r.1.mem b) = false ∧
          (survives r.1.mem b = true → survivorTable.ChecksObject oneMapping 131200 r.1 b)) ∧
        ApartFromPages oneMapping r.1 131200 1 ∧
        ∃ entry ∈ survivorTable, ∃ d ∈ entry.2, Designates (r.1.mem 131200) d) ∧
      blockIsMarked (r.1.mem 1175568) = true ∧ blockIsPinned (r.1.mem 1171472) = true ∧
        Designates (r.2.1.mem 131200) 1171520 ∧ Designates (r.2.1.mem 1171504) 1171520 ∧
          r.2.2.1 ≠ 0)
    (mallocAll oneMapping [32, 4000, 32] survivorHeap >>= fun (_, h) =>
      performAll survivorTable survivorActions h >>= fun h =>
        sweep oneMapping 10 [[131200]] h >>= fun h' =>
          gcmallocLocked oneMapping 40 true h' >>= fun (p, h'') => .ok (h, h', p, h'')) := by
  decide +kernel

/-- A run in which one block moves and one is pinned. -/
theorem survivorHeap_runs : ∃ h h' p h'', Runs oneMapping (PlainObjects oneMapping) h ∧
    blockIsMarked (h.mem 1175568) = true ∧ blockIsPinned (h.mem 1171472) = true ∧
      sweep oneMapping 10 [[131200]] h = .ok h' ∧
        Designates (h'.mem 131200) 1171520 ∧ Designates (h'.mem 1171504) 1171520 ∧
          Runs oneMapping (PlainObjects oneMapping) h' ∧
            gcmallocLocked oneMapping 40 true h' = .ok (p, h'') ∧ p ≠ 0 := by
  rcases survivorHeap_swept.total with ⟨⟨h, h', p, h''⟩, eq,
    ⟨describes, noBigs, checked, apart, designates⟩, isMarked, isPinned, root, slot, nonnull⟩
  rcases bind_eq_ok eq with ⟨⟨ps, h₁⟩, allocated, eq⟩
  rcases bind_eq_ok eq with ⟨h₂, performed, eq⟩
  rcases bind_eq_ok eq with ⟨h₃, swept, eq⟩
  rcases bind_eq_ok eq with ⟨⟨p', h₄⟩, served, eq⟩
  cases eq
  have run : Runs oneMapping (PlainObjects oneMapping) h :=
    performAll_runs performed (mallocAll_runs allocated (by decide)
      (Reachable.start ⟨_, _, rfl, by decide⟩))
  have plain := describes.plainObjects_checked (by decide) noBigs checked ⟨by decide, apart⟩
    designates
  exact ⟨h, h', p, h'', run, isMarked, isPinned, swept, root, slot, run.next (.sweep plain swept),
    served, nonnull⟩

theorem runs_blocks_survivorHeap : ∃ h h' p h'', sweep oneMapping 10 [[131200]] h = .ok h' ∧
    blockIsMarked (h.mem 1175568) = true ∧ blockIsPinned (h.mem 1171472) = true ∧
      Designates (h'.mem 131200) 1171520 ∧ gcmallocLocked oneMapping 40 true h' = .ok (p, h'') ∧
        PagesTiled oneMapping h' ∧ NewBlock h' 40 p h'' := by
  rcases survivorHeap_runs with
    ⟨h, h', p, h'', _, isMarked, isPinned, swept, root, _, run, served, nonnull⟩
  rcases runs_blocks run with ⟨tiled, newBlocks⟩
  exact ⟨h, h', p, h'', swept, isMarked, isPinned, root, served, tiled,
    newBlocks 40 true p h'' (by decide) served nonnull⟩

/-- The first page holds an object of four words at `1175600`, the record of a pointer into it and
an unused block; the second page holds one object. -/
def recordTable : PageTable :=
  [(1175552, [1175568, 1175640, 1175680]), (1171456, [1171472])]

/-- The client chooses the last words of the second object.  The two objects are pinned and the
record is marked. -/
def recordActions : List Action :=
  [.write 1175568 1175584 131072, .write 1175568 1175592 1, .write 1175568 1175608 2,
    .write 1175568 1175616 (2 ^ 64 - 4216), .write 1175568 1175624 (2 ^ 64 - 4208),
    .write 1175640 1175648 1175608, .write 1175640 1175656 1175600, .write 1175640 1175664 1,
    .write 1171472 1171488 131088, .write 1171472 1171496 1, .write 1171472 1175520 2,
    .write 1171472 1175528 1175576, .mark 1175568, .pin 1175568, .mark 1175640, .mark 1171472,
    .pin 1171472]

/-- The sweep writes the address of the first object to both words at the head of the second
page. -/
theorem startHeap_misread : Yields (fun _ => False)
    (fun h => h.firstPage = 1171456 ∧ pageNext h.mem 1171456 = 1175600 ∧
      freeBlock h.mem 1171456 = 1175600 ∧ 1175600 ∉ mappedPages oneMapping h)
    (mallocAll oneMapping [56, 24, 3936, 4064] startHeap >>= fun (_, h) =>
      performAll recordTable recordActions h >>= fun h => sweep oneMapping 40 [] h) := by
  decide +kernel

theorem startHeap_runs_misread : ∃ h, Runs oneMapping (fun _ _ => True) h ∧
    h.firstPage = 1171456 ∧ pageNext h.mem 1171456 = 1175600 ∧ freeBlock h.mem 1171456 = 1175600 ∧
      1175600 ∉ mappedPages oneMapping h := by
  rcases startHeap_misread.total with ⟨h, eq, words⟩
  rcases bind_eq_ok eq with ⟨⟨ps, h₁⟩, allocated, eq⟩
  rcases bind_eq_ok eq with ⟨h₂, performed, swept⟩
  have run : Runs oneMapping (fun _ _ => True) h₂ := performAll_runs performed
    (mallocAll_runs allocated (by decide) startHeap_runs)
  exact ⟨h, run.next (.sweep trivial swept), words⟩

/-- After the sweep the free block of a page in use lies outside the page. -/
theorem runs_blocks_misread :
    ∃ h, Runs oneMapping (fun _ _ => True) h ∧ ¬PagesTiled oneMapping h := by
  rcases startHeap_runs_misread with ⟨h, run, first, _, free, _⟩
  refine ⟨h, run, ?_⟩
  rintro ⟨pages, chain, tiled⟩
  have inUse : 1171456 ∈ pages := by
    rw [first] at chain
    cases pages with
    | nil => cases chain
    | cons p pages => exact chain.1 ▸ List.mem_cons_self
  rcases tiled _ inUse with ⟨blocks, _, inside, _⟩
  rw [free] at inside
  exact absurd inside (by decide)

end PreciseGc

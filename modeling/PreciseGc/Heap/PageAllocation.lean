import PreciseGc.Heap.PageRequests

/-!
# Allocating blocks in pages

`malloc_in_page` turns the front of a page's free tail into a block.  On one
page this keeps the tiling and the exactness of the tail; on the whole heap it
is a change of memory inside one page.
-/

namespace PreciseGc

open Foundation Memory

variable {pf : Platform} {m m' : Memory} {p b s : Nat} {blocks : List Nat}

/-- What `malloc_in_page` does to a page with a free tail of at least `s` bytes. -/
structure Allocated (pf : Platform) (m : Memory) (p : Nat) (blocks : List Nat) (s : Nat)
    (m' : Memory) : Prop where
  pageOk : PageOk pf m' p (blocks ++ [freeBlock m p])
  free : freeBlock m' p = freeBlock m p + 8 + s
  header : m' (freeBlock m p) = s
  zeroed : ∀ x, freeBlock m p + 8 ≤ x → x < freeBlock m p + 8 + s → m' x = 0
  frame : ∀ x, x ≠ p + 8 → (x < freeBlock m p ∨ p + pf.pageSize ≤ x) → m' x = m x

theorem PageOk.mallocInPage (ok : PageOk pf m p blocks) (alignedPage : p % 8 = 0)
    (notFull : pageIsFull pf m p = false) (aligned : s % 8 = 0) (positive : 8 ≤ s)
    (fits : s ≤ m (freeBlock m p)) :
    (mallocInPage pf s p m).1 = freeBlock m p ∧
      Allocated pf m p blocks s (mallocInPage pf s p m).2 := by
  refine ⟨rfl, ?_⟩
  have first := ok.first_le_free
  have tail := ok.tail_bounds alignedPage notFull
  have freeAligned := (ok.aligned_blocks alignedPage).1
  have pageAligned := pf.pageSize_mod
  generalize freeDef : freeBlock m p = f at *
  have memEq : ∃ m₁ : Memory, (PreciseGc.mallocInPage pf s p m).2 =
      (m₁.write f s).fill (f + 8) s 0 ∧
      (∀ x, x ≠ p + 8 → (x = f + 8 + s → p + pf.pageSize ≤ f + 8 + s + 8) → m₁ x = m x) ∧
      m₁ (p + 8) = f + 8 + s ∧
      (f + 8 + s + 8 < p + pf.pageSize → m₁ (f + 8 + s) = m f - (s + 8)) := by
    simp only [PreciseGc.mallocInPage, freeDef, sizeofBlock, blockData, setFreeBlock]
    have freeWord : freeBlock (m.write (p + 8) (f + (s + 8))) p = f + (s + 8) := by
      simp [freeBlock]
    split
    · rename_i full
      rw [pageIsFull_eq_true_iff, freeWord] at full
      refine ⟨_, rfl, ?_, ?_, ?_⟩
      · intro x other _
        exact write_of_ne other
      · rw [write_same]
        omega
      · intro room
        omega
    · rw [freeWord]
      refine ⟨_, rfl, ?_, ?_, ?_⟩
      · intro x other last
        rename_i room
        rw [Bool.not_eq_true, pageIsFull_eq_false_iff, freeWord] at room
        rw [write_of_ne (by omega), write_of_ne other]
      · rw [write_of_ne (by omega), write_same]
        omega
      · intro _
        rw [show f + 8 + s = f + (s + 8) by omega, write_same, write_of_ne (by omega)]
  rcases memEq with ⟨m₁, memEq, frame, freeWord, tailWord⟩
  rw [memEq]
  have free : freeBlock ((m₁.write f s).fill (f + 8) s 0) p = f + 8 + s := by
    rw [freeBlock, fill_of_not_mem (by omega), write_of_ne (by omega), freeWord]
  have header : (m₁.write f s).fill (f + 8) s 0 f = s := by
    rw [fill_of_not_mem (by omega), write_same]
  have frame' : ∀ x, x ≠ p + 8 → (x < f ∨ p + pf.pageSize ≤ x) →
      (m₁.write f s).fill (f + 8) s 0 x = m x := by
    intro x other outside
    rcases Nat.lt_or_ge x f with below | above
    · rw [fill_of_not_mem (by omega), write_of_ne (by omega), frame x other (by omega)]
    · rw [fill_of_not_mem (by omega), write_of_ne (by omega), frame x other (by omega)]
  refine
    { pageOk := ⟨?_, ?_, ?_, ?_⟩, free := ?_, header := ?_, zeroed := ?_, frame := ?_ }
  · have oldTiles : Tiles (blockExtent ((m₁.write f s).fill (f + 8) s 0)) _ _ _ :=
      ok.tiles.congr (by
        intro b mem
        have := ok.block_bounds mem
        rw [freeDef] at this
        simp only [blockExtent]
        rw [frame' b (by omega) (by omega)])
    have newExtent : blockExtent ((m₁.write f s).fill (f + 8) s 0) f = 8 + s := by
      simp only [blockExtent, header, blockSize_of_aligned aligned, sizeofBlock]
    have tiles := oldTiles.append (by rw [freeDef, newExtent]; omega)
    rw [freeDef] at tiles ⊢
    rw [free]
    rwa [newExtent, ← Nat.add_assoc] at tiles
  · rw [free]
    omega
  · intro room
    rw [pageIsFull_eq_false_iff, free] at room
    rw [free, fill_of_not_mem (by omega), write_of_ne (by omega), tailWord (by omega), sizeofBlock]
    omega
  · intro b mem
    rw [freeDef] at mem
    rcases List.mem_append.mp mem with old | new
    · have := ok.block_bounds old
      rw [freeDef] at this
      rw [frame' b (by omega) (by omega)]
      exact this.2.2.2
    · rw [List.mem_singleton.mp new, header, blockSize_of_aligned aligned]
      exact positive
  · rw [freeDef]
    exact free
  · rw [freeDef]
    exact header
  · intro x lower upper
    rw [freeDef] at lower upper
    exact fill_of_mem lower upper
  · rw [freeDef]
    exact frame'

/-- The statics an arena reads besides the memory. -/
structure SameOwnership (h h' : Heap) : Prop where
  mappings : h'.mappings = h.mappings
  parts : h'.parts = h.parts
  pagePerMap : h'.pagePerMap = h.pagePerMap
  freePages : h'.freePages = h.freePages
  totalPages : h'.totalPages = h.totalPages
  freeList : h'.freeList = h.freeList
  lastPage : h'.lastPage = h.lastPage

namespace Arena

variable {fromHead aliveHead : Nat} {h h' : Heap} {c : Census}

theorem tiled_pages {q : Nat} (inTiled : q ∈ c.tiled) : q ∈ c.pages :=
  Census.mem_pages.mpr (Or.inl inTiled)

theorem apart (arena : Arena pf fromHead aliveHead h c) {q : Nat} (pMem : p ∈ c.pages)
    (qMem : q ∈ c.pages) (different : p ≠ q) :
    p + pf.pageSize ≤ q ∨ q + pf.pageSize ≤ p :=
  pages_apart (arena.aligned p pMem) (arena.aligned q qMem) different

/-- Only page links and page bodies matter. -/
theorem transport (arena : Arena pf fromHead aliveHead h c) (same : SameOwnership h h')
    {blocks' : Nat → List Nat}
    (links : ∀ q ∈ c.pages, pageNext h'.mem q = pageNext h.mem q)
    (bodies : ∀ q ∈ c.tiled, PageOk pf h'.mem q (blocks' q)) :
    Arena pf fromHead aliveHead h' { c with blocks := blocks' } where
  fromChain := arena.fromChain.congr fun q mem => links q (by simp [Census.pages, mem])
  aliveChain := arena.aliveChain.congr fun q mem => links q (by simp [Census.pages, mem])
  freeChain := by
    rw [same.freeList]
    exact arena.freeChain.congr fun q mem => links q (by simp [Census.pages, mem])
  distinct := arena.distinct
  aligned := arena.aligned
  bounded := arena.bounded
  mapped := by
    intro q mem
    simp only [PageMapped, same.mappings]
    exact arena.mapped q mem
  pageOk := bodies
  lastPage := by rw [same.lastPage]; exact arena.lastPage
  owned := by
    simp only [mappedPages, same.parts]
    exact arena.owned
  freePages := by rw [same.freePages]; exact arena.freePages
  totalPages := by rw [same.totalPages]; exact arena.totalPages
  perMap := by rw [same.pagePerMap]; exact arena.perMap

/-- A change of memory inside the body of one page. -/
theorem change_page (arena : Arena pf fromHead aliveHead h c) (same : SameOwnership h h')
    (inTiled : p ∈ c.tiled) (ok : PageOk pf h'.mem p blocks)
    (frame : ∀ x, (x < p + 8 ∨ p + pf.pageSize ≤ x) → h'.mem x = h.mem x) :
    Arena pf fromHead aliveHead h' { c with blocks := Function.update c.blocks p blocks } := by
  have large := pf.pageSize_ge
  refine arena.transport same ?_ ?_
  · intro q mem
    refine frame q ?_
    by_cases samePage : q = p
    · omega
    · have := arena.apart mem (tiled_pages inTiled) samePage
      omega
  · intro q mem
    by_cases samePage : q = p
    · subst samePage
      simpa using ok
    · rw [Function.update_of_ne samePage]
      refine (arena.pageOk q mem).transport fun x lower upper => frame x ?_
      have := arena.apart (tiled_pages mem) (tiled_pages inTiled) samePage
      omega

end Arena

/-- The census after a new block on a page. -/
def Census.grow (c : Census) (p b : Nat) : Census :=
  { c with blocks := Function.update c.blocks p (c.blocks p ++ [b]) }

variable {fromHead aliveHead : Nat} {h h' : Heap} {c : Census}

theorem Arena.mallocInPage (arena : Arena pf fromHead aliveHead h c) (inTiled : p ∈ c.tiled)
    (notFull : pageIsFull pf h.mem p = false) (aligned : s % 8 = 0) (positive : 8 ≤ s)
    (fits : s ≤ h.mem (freeBlock h.mem p)) :
    Arena pf fromHead aliveHead { h with mem := (mallocInPage pf s p h.mem).2 }
        (c.grow p (freeBlock h.mem p)) ∧
      Allocated pf h.mem p (c.blocks p) s (PreciseGc.mallocInPage pf s p h.mem).2 := by
  have ok := arena.pageOk p inTiled
  have alignedPage := mod_eight_of_page (arena.aligned p (Arena.tiled_pages inTiled))
  have allocated := (ok.mallocInPage alignedPage notFull aligned positive fits).2
  refine ⟨?_, allocated⟩
  refine arena.change_page ⟨rfl, rfl, rfl, rfl, rfl, rfl, rfl⟩ inTiled allocated.pageOk ?_
  intro x outside
  have := ok.first_le_free
  exact allocated.frame x (by have := pf.pageSize_ge; omega) (by omega)

/-- The census in which the held page has become the last page in use. -/
def Census.append (c : Census) (p : Nat) : Census := { c with held := [], alive := c.alive ++ [p] }

theorem Census.append_pages_perm {c : Census} {p : Nat} (held : c.held = [p]) :
    (c.append p).pages.Perm c.pages := by
  simp only [Census.pages, Census.append, held, List.nil_append]
  refine List.Perm.append_right c.free ?_
  rw [← List.append_assoc, List.append_assoc [p]]
  exact List.perm_append_comm

/-- A write of a page link changes no page body. -/
theorem Arena.agree_setPageNext (arena : Arena pf fromHead aliveHead h c) {q value : Nat}
    (qMem : q ∈ c.pages) (pMem : p ∈ c.pages) :
    AgreeOn h.mem (setPageNext h.mem q value) (p + 8) (p + pf.pageSize) := by
  have := pf.pageSize_ge
  refine AgreeOn.write _ ?_
  by_cases samePage : q = p
  · omega
  · have := arena.apart qMem pMem samePage
    omega

/-- Changing the owner of a page and the links of some pages, with all page bodies kept. -/
theorem Arena.reassign (arena : Arena pf fromHead aliveHead h c) {fromHead' aliveHead' : Nat}
    {c' : Census} (perm : c'.pages.Perm c.pages) (tiled : ∀ q ∈ c'.tiled, q ∈ c.tiled)
    (blocks : c'.blocks = c.blocks)
    (mappings : h'.mappings = h.mappings) (parts : h'.parts = h.parts)
    (pagePerMap : h'.pagePerMap = h.pagePerMap) (totalPages : h'.totalPages = h.totalPages)
    (bodies : ∀ q ∈ c.tiled, AgreeOn h.mem h'.mem (q + 8) (q + pf.pageSize))
    (fromChain : Chain (pageNext h'.mem) fromHead' c'.fromSpace)
    (aliveChain : Chain (pageNext h'.mem) aliveHead' c'.alive)
    (freeChain : Chain (pageNext h'.mem) h'.freeList c'.free)
    (lastPage : h'.lastPage = c'.alive.getLastD 0)
    (freePages : h'.freePages = c'.free.length) :
    Arena pf fromHead' aliveHead' h' c' where
  fromChain := fromChain
  aliveChain := aliveChain
  freeChain := freeChain
  distinct := perm.nodup_iff.mpr arena.distinct
  aligned q mem := arena.aligned q (perm.mem_iff.mp mem)
  bounded q mem := arena.bounded q (perm.mem_iff.mp mem)
  mapped := by
    intro q mem
    simp only [PageMapped, mappings]
    exact arena.mapped q (perm.mem_iff.mp mem)
  pageOk := by
    intro q mem
    rw [blocks]
    exact (arena.pageOk q (tiled q mem)).transport (bodies q (tiled q mem))
  lastPage := lastPage
  owned := by
    simp only [mappedPages, parts]
    exact perm.trans arena.owned
  freePages := freePages
  totalPages := by rw [totalPages, perm.length_eq]; exact arena.totalPages
  perMap := by rw [pagePerMap]; exact arena.perMap

/-- `last_page->next = p; last_page = p;` for the held page `p`. -/
theorem Arena.appendHeld (arena : Arena pf fromHead aliveHead h c) (held : c.held = [p])
    (nonnull : p ≠ 0) (link : pageNext h.mem p = 0) (nonempty : c.alive ≠ []) :
    Arena pf fromHead aliveHead
      { h with mem := setPageNext h.mem h.lastPage p, lastPage := p } (c.append p) := by
  have lastEq : h.lastPage = c.alive.getLast nonempty := by
    rw [arena.lastPage, List.getLastD_eq_getLast?, List.getLast?_eq_getLast_of_ne_nil nonempty]
    rfl
  have lastMem : h.lastPage ∈ c.alive := lastEq ▸ List.getLast_mem nonempty
  have lastPages : h.lastPage ∈ c.pages := by simp [Census.pages, lastMem]
  have unique := arena.distinct
  simp only [Census.pages, held, List.append_assoc, List.cons_append, List.nil_append,
    List.nodup_cons, List.nodup_append'] at unique
  have pNotAlive : p ∉ c.alive := fun mem => unique.1 (by simp [mem])
  have linkEq : ∀ q, q ≠ h.lastPage →
    pageNext (setPageNext h.mem h.lastPage p) q = pageNext h.mem q :=
    fun q other => write_of_ne other
  refine arena.reassign (Census.append_pages_perm held) ?_ rfl rfl rfl rfl rfl ?_ ?_ ?_ ?_ ?_ ?_
  · intro q mem
    rw [Census.mem_tiled] at mem ⊢
    simp only [Census.append, List.not_mem_nil, false_or, List.mem_append, List.mem_singleton,
      held] at mem ⊢
    tauto
  · exact fun q mem => arena.agree_setPageNext lastPages (Arena.tiled_pages mem)
  · refine arena.fromChain.congr fun q mem => linkEq q ?_
    rintro rfl
    exact unique.2.2.2 mem (by simp [lastMem])
  · refine arena.aliveChain.append nonempty unique.2.2.1.1 nonnull pNotAlive ?_ ?_ ?_
    · exact (linkEq p (by rintro rfl; exact pNotAlive lastMem)).trans link
    · rw [← lastEq]
      exact write_same ..
    · intro q mem other
      exact linkEq q (by rwa [lastEq])
  · refine arena.freeChain.congr fun q mem => linkEq q ?_
    rintro rfl
    exact unique.2.2.1.2.2 lastMem mem
  · simp [Census.append, List.getLastD_eq_getLast?]
  · exact arena.freePages

/-- The held page becomes the only page in use. -/
theorem Arena.adoptHeld (arena : Arena pf fromHead aliveHead h c) (held : c.held = [p])
    (nonnull : p ≠ 0) (link : pageNext h.mem p = 0) (noneAlive : c.alive = [])
    (memEq : h'.mem = h.mem) (mappings : h'.mappings = h.mappings) (parts : h'.parts = h.parts)
    (pagePerMap : h'.pagePerMap = h.pagePerMap) (totalPages : h'.totalPages = h.totalPages)
    (freePages : h'.freePages = h.freePages) (freeList : h'.freeList = h.freeList)
    (lastPage : h'.lastPage = p) :
    Arena pf fromHead p h' (c.append p) := by
  refine arena.reassign (Census.append_pages_perm held) ?_ rfl mappings parts pagePerMap totalPages
    ?_ ?_ ?_ ?_ ?_ ?_
  · intro q mem
    rw [Census.mem_tiled] at mem ⊢
    simp only [Census.append, List.not_mem_nil, false_or, List.mem_append, List.mem_singleton,
      held] at mem ⊢
    tauto
  · intro q _
    rw [memEq]
    exact AgreeOn.refl _ _ _
  · rw [memEq]
    exact arena.fromChain
  · simp [Census.append, noneAlive, memEq, link, nonnull]
  · rw [memEq, freeList]
    exact arena.freeChain
  · simp [Census.append, lastPage, List.getLastD_eq_getLast?]
  · rw [freePages]
    exact arena.freePages

end PreciseGc

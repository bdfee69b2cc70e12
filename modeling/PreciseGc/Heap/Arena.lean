import PreciseGc.Foundation.Chain
import PreciseGc.Foundation.Tiling
import PreciseGc.Heap.Sweep

/-!
# The page invariant

A census assigns every page the allocator owns to one owner: a local variable
that holds it, the pages being evacuated, the pages in use, or the free list.
`Arena` states that the intrusive lists of a heap realise a census and that
every page in use is tiled by its blocks.

Each operation below changes at most one page body and a few page links, so a
page invariant is transported by agreement of the two memories on that page.
-/

namespace PreciseGc

open Foundation Memory

/-- The bytes of a block, header included. -/
def blockExtent (m : Memory) (b : Nat) : Nat := sizeofBlock + blockSize (m b)

theorem nextBlock_eq (m : Memory) (b : Nat) : nextBlock m b = b + blockExtent m b := by
  simp [nextBlock, blockExtent, Nat.add_assoc]

/-- A page whose blocks tile it up to the free block, and whose free block, if there is room for
one, records the bytes left behind its header. -/
structure PageOk (pf : Platform) (m : Memory) (p : Nat) (blocks : List Nat) : Prop where
  tiles : Tiles (blockExtent m) (firstBlock p) (freeBlock m p) blocks
  inside : freeBlock m p ≤ p + pf.pageSize
  tail : pageIsFull pf m p = false →
    m (freeBlock m p) + sizeofBlock + freeBlock m p = p + pf.pageSize
  room : ∀ b ∈ blocks, 8 ≤ blockSize (m b)

theorem pageIsFull_eq_false_iff {pf : Platform} {m : Memory} {p : Nat} :
    pageIsFull pf m p = false ↔ freeBlock m p + 8 < p + pf.pageSize := by
  simp [pageIsFull, sizeofBlock]

theorem pageIsFull_eq_true_iff {pf : Platform} {m : Memory} {p : Nat} :
    pageIsFull pf m p = true ↔ p + pf.pageSize ≤ freeBlock m p + 8 := by
  simp [pageIsFull, sizeofBlock]

theorem mod_eight_of_page {pf : Platform} {p : Nat} (aligned : pf.pageSize ∣ p) : p % 8 = 0 :=
  Nat.mod_eq_zero_of_dvd (dvd_trans (Nat.dvd_of_mod_eq_zero pf.pageSize_mod) aligned)

/-- Distinct pages do not overlap. -/
theorem pages_apart {pf : Platform} {p q : Nat} (alignedP : pf.pageSize ∣ p)
    (alignedQ : pf.pageSize ∣ q) (different : p ≠ q) :
    p + pf.pageSize ≤ q ∨ q + pf.pageSize ≤ p := by
  rcases alignedP with ⟨i, rfl⟩
  rcases alignedQ with ⟨j, rfl⟩
  rcases Nat.lt_or_gt_of_ne (fun same : i = j => different (by rw [same])) with less | greater
  · left
    calc pf.pageSize * i + pf.pageSize = pf.pageSize * (i + 1) := by rw [Nat.mul_succ]
      _ ≤ pf.pageSize * j := Nat.mul_le_mul_left _ less
  · right
    calc pf.pageSize * j + pf.pageSize = pf.pageSize * (j + 1) := by rw [Nat.mul_succ]
      _ ≤ pf.pageSize * i := Nat.mul_le_mul_left _ greater

namespace PageOk

variable {pf : Platform} {m m' : Memory} {p b : Nat} {blocks : List Nat}

/-- The page invariant reads the free-block word, the block headers and the free header. -/
theorem congr (ok : PageOk pf m p blocks) (freeEq : freeBlock m' p = freeBlock m p)
    (headers : ∀ b ∈ blocks, blockSize (m' b) = blockSize (m b))
    (tailEq : pageIsFull pf m p = false → m' (freeBlock m p) = m (freeBlock m p)) :
    PageOk pf m' p blocks where
  tiles := by
    rw [freeEq]
    exact ok.tiles.congr fun b mem => by simp [blockExtent, headers b mem]
  inside := by rw [freeEq]; exact ok.inside
  tail := by
    intro notFull
    have notFull' : pageIsFull pf m p = false := by
      rw [pageIsFull_eq_false_iff] at notFull ⊢
      rwa [freeEq] at notFull
    rw [freeEq, tailEq notFull']
    exact ok.tail notFull'
  room := by
    intro b mem
    rw [headers b mem]
    exact ok.room b mem

theorem block_bounds (ok : PageOk pf m p blocks) (mem : b ∈ blocks) :
    p + 16 ≤ b ∧ b + 8 + blockSize (m b) ≤ freeBlock m p ∧ freeBlock m p ≤ p + pf.pageSize ∧
      8 ≤ blockSize (m b) := by
  have bounds := ok.tiles.bounds mem
  have := ok.inside
  have := ok.room b mem
  simp only [firstBlock, sizeofPage, blockExtent, sizeofBlock] at bounds
  omega

theorem first_le_free (ok : PageOk pf m p blocks) : p + 16 ≤ freeBlock m p := by
  have := ok.tiles.le
  simpa [firstBlock, sizeofPage] using this

theorem transport (ok : PageOk pf m p blocks)
    (agree : AgreeOn m m' (p + 8) (p + pf.pageSize)) : PageOk pf m' p blocks := by
  have := pf.pageSize_ge
  have := ok.first_le_free
  refine ok.congr (agree _ (by omega) (by omega)) ?_ ?_
  · intro b mem
    have := ok.block_bounds mem
    rw [agree b (by omega) (by omega)]
  · intro notFull
    rw [pageIsFull_eq_false_iff] at notFull
    exact agree _ (by omega) (by omega)

theorem aligned_blocks (ok : PageOk pf m p blocks) (aligned : p % 8 = 0) :
    freeBlock m p % 8 = 0 ∧ ∀ b ∈ blocks, b % 8 = 0 := by
  refine ok.tiles.mod_eq_zero (by simp only [firstBlock, sizeofPage]; omega) ?_
  intro c
  have := blockSize_mod (m c)
  simp only [blockExtent, sizeofBlock]
  omega

/-- Where a page is not full, the free block has a data word, and its header is its data size. -/
theorem tail_bounds (ok : PageOk pf m p blocks) (aligned : p % 8 = 0)
    (notFull : pageIsFull pf m p = false) :
    freeBlock m p + 16 ≤ p + pf.pageSize ∧ m (freeBlock m p) % 8 = 0 ∧
      blockSize (m (freeBlock m p)) = m (freeBlock m p) ∧
        freeBlock m p + 8 + m (freeBlock m p) = p + pf.pageSize := by
  have free := (ok.aligned_blocks aligned).1
  have tail := ok.tail notFull
  have := pf.pageSize_mod
  rw [pageIsFull_eq_false_iff] at notFull
  simp only [sizeofBlock] at tail
  have tailAligned : m (freeBlock m p) % 8 = 0 := by omega
  refine ⟨by omega, tailAligned, blockSize_of_aligned tailAligned, by omega⟩

end PageOk

/-- An assignment of pages to owners, with the blocks of each page. -/
structure Census where
  /-- pages held by a local variable only -/
  held : List Nat := []
  /-- pages left in `first_page` while the sweep evacuates them -/
  fromSpace : List Nat := []
  /-- pages in use: the list `first_page` between operations, `alive_pages` during a sweep -/
  alive : List Nat := []
  free : List Nat := []
  blocks : Nat → List Nat := fun _ => []

/-- Every page of the census. -/
def Census.pages (c : Census) : List Nat := c.held ++ c.fromSpace ++ c.alive ++ c.free

/-- The pages of the census that hold blocks. -/
def Census.tiled (c : Census) : List Nat := c.held ++ c.fromSpace ++ c.alive

theorem Census.mem_pages {c : Census} {p : Nat} :
    p ∈ c.pages ↔ p ∈ c.tiled ∨ p ∈ c.free := by
  simp [Census.pages, Census.tiled, or_assoc]

theorem Census.mem_tiled {c : Census} {p : Nat} :
    p ∈ c.tiled ↔ p ∈ c.held ∨ p ∈ c.fromSpace ∨ p ∈ c.alive := by
  simp [Census.tiled]

/-- The pages of one mapping recorded in `parts`. -/
def HeapPart.pages (pf : Platform) (part : HeapPart) : List Nat :=
  (List.range ((part.stop - part.start) / pf.pageSize)).map
    fun i => part.start + i * pf.pageSize

/-- Every page ever mapped by `request_new_page`. -/
def mappedPages (pf : Platform) (h : Heap) : List Nat := h.parts.flatMap (HeapPart.pages pf)

/-- The page lies inside one mapping of the process. -/
def PageMapped (pf : Platform) (h : Heap) (p : Nat) : Prop :=
  ∃ r ∈ h.mappings, r.start ≤ p ∧ p + pf.pageSize ≤ r.start + r.length

/-- The heap realises the census, with `fromHead` and `aliveHead` the heads of the lists of
pages being evacuated and of pages in use. -/
structure Arena (pf : Platform) (fromHead aliveHead : Nat) (h : Heap) (c : Census) : Prop where
  fromChain : Chain (pageNext h.mem) fromHead c.fromSpace
  aliveChain : Chain (pageNext h.mem) aliveHead c.alive
  freeChain : Chain (pageNext h.mem) h.freeList c.free
  distinct : c.pages.Nodup
  aligned : ∀ p ∈ c.pages, pf.pageSize ∣ p
  bounded : ∀ p ∈ c.pages, p + pf.pageSize ≤ wordSpace
  mapped : ∀ p ∈ c.pages, PageMapped pf h p
  pageOk : ∀ p ∈ c.tiled, PageOk pf h.mem p (c.blocks p)
  lastPage : h.lastPage = c.alive.getLastD 0
  owned : c.pages.Perm (mappedPages pf h)
  freePages : h.freePages = c.free.length
  totalPages : h.totalPages = c.pages.length
  perMap : ∃ k, h.pagePerMap = 2 ^ k

/-- A mapped byte that belongs to no page of the census. -/
def Outside (pf : Platform) (h : Heap) (c : Census) (x : Nat) : Prop :=
  (∃ r ∈ h.mappings, r.Contains x) ∧ ∀ p ∈ c.pages, x < p ∨ p + pf.pageSize ≤ x

end PreciseGc

import PreciseGc.Foundation.FlagWord
import PreciseGc.Foundation.Memory
import PreciseGc.Foundation.Outcome
import Mathlib.Data.Nat.Prime.Basic

/-!
# Layout of the managed heap

The allocator keeps its data structures inside the memory it manages.  A block
is a header word followed by its data; the header holds the data size and, in
its low bits, the pin, mark and dead flags.  A page starts with the link to the
next page and the address of its free block, and is filled with blocks from
`firstBlock` up to that free block, which is itself a block header followed by
the unused tail of the page.  Objects too large for a page live in a
`big_block` mapping of their own.

`Heap` holds the statics of the allocator together with the memory, the
mappings of the process and the number of `mmap` calls made so far.  Addresses are
byte addresses, written as natural numbers; the null pointer is `0`.  Page size
and operating system are the `Platform`; the source reads the page size lazily
before its first use, so both statics derived from it are constants here.
-/

namespace PreciseGc

open Foundation

/-- The number of values of a 64-bit word. -/
def wordSpace : Nat := 2 ^ 64

/-- Pointer addition, modulo the size of the address space. -/
def ptrAdd (address offset : Nat) : Nat := (address + offset) % wordSpace

theorem ptrAdd_of_lt {address offset : Nat} (bounded : address + offset < wordSpace) :
    ptrAdd address offset = address + offset := Nat.mod_eq_of_lt bounded

def pinFlag : Nat := 1
def markFlag : Nat := 2
def deadFlag : Nat := 4

/-- The `block_size` macro, on a header word. -/
def blockSize (header : Nat) : Nat :=
  clear (clear (clear header pinFlag) markFlag) deadFlag

def pinBlock (header : Nat) : Nat := header ||| pinFlag
def unpinBlock (header : Nat) : Nat := clear header pinFlag
def blockIsPinned (header : Nat) : Bool := hasFlag header pinFlag

def markBlock (header : Nat) : Nat := header ||| markFlag
def unmarkBlock (header : Nat) : Nat := clear header markFlag
def blockIsMarked (header : Nat) : Bool := hasFlag header markFlag

def setDeadFlag (header : Nat) : Nat := header ||| deadFlag
def blockIsDead (header : Nat) : Bool := hasFlag header deadFlag

theorem blockSize_eq_octets (header : Nat) : blockSize header = octets header := by
  have same : blockSize header / 8 = header / 8 := by
    simp only [blockSize, pinFlag, markFlag, deadFlag]
    rw [clear_div_eight (by decide), clear_div_eight (by decide), clear_div_eight (by decide)]
  have residue : blockSize header % 8 = 0 := by
    simp only [blockSize, pinFlag, markFlag, deadFlag]
    rw [clear_mod_eight (by decide), clear_mod_eight (by decide), clear_mod_eight (by decide)]
    exact of_residues (motive := fun r => clear (clear (clear r 1) 2) 4 = 0) header
      (by decide)
  unfold octets
  omega

@[simp]
theorem blockSize_mod (header : Nat) : blockSize header % 8 = 0 := by
  simp [blockSize_eq_octets]

theorem blockSize_of_aligned {header : Nat} (aligned : header % 8 = 0) :
    blockSize header = header := by
  rw [blockSize_eq_octets, octets_of_mod_eq_zero aligned]

@[simp]
theorem blockSize_pinBlock (header : Nat) : blockSize (pinBlock header) = blockSize header := by
  simp only [blockSize_eq_octets, pinBlock, pinFlag]
  exact octets_or (by decide) header

@[simp]
theorem blockSize_markBlock (header : Nat) : blockSize (markBlock header) = blockSize header := by
  simp only [blockSize_eq_octets, markBlock, markFlag]
  exact octets_or (by decide) header

@[simp]
theorem blockSize_setDeadFlag (header : Nat) :
    blockSize (setDeadFlag header) = blockSize header := by
  simp only [blockSize_eq_octets, setDeadFlag, deadFlag]
  exact octets_or (by decide) header

@[simp]
theorem blockSize_unpinBlock (header : Nat) : blockSize (unpinBlock header) = blockSize header := by
  simp only [blockSize_eq_octets, unpinBlock, pinFlag]
  exact octets_clear (by decide) header

@[simp]
theorem blockSize_unmarkBlock (header : Nat) :
    blockSize (unmarkBlock header) = blockSize header := by
  simp only [blockSize_eq_octets, unmarkBlock, markFlag]
  exact octets_clear (by decide) header

/-- The three flags of a header depend only on its residue modulo eight. -/
theorem flags_residue (header : Nat) :
    blockIsPinned header = blockIsPinned (header % 8) ∧
      blockIsMarked header = blockIsMarked (header % 8) ∧
        blockIsDead header = blockIsDead (header % 8) :=
  ⟨hasFlag_residue (by decide) header, hasFlag_residue (by decide) header,
    hasFlag_residue (by decide) header⟩

theorem flags_markBlock (header : Nat) :
    blockIsPinned (markBlock header) = blockIsPinned header ∧
      blockIsMarked (markBlock header) = true ∧
        blockIsDead (markBlock header) = blockIsDead header := by
  simp only [blockIsPinned, blockIsMarked, blockIsDead, markBlock, pinFlag, markFlag, deadFlag]
  rw [hasFlag_or (f := 1) (by decide) (by decide), hasFlag_or (f := 2) (by decide) (by decide),
    hasFlag_or (f := 4) (by decide) (by decide), hasFlag_residue (f := 1) (by decide) header,
    hasFlag_residue (f := 4) (by decide) header]
  refine @of_residues (fun r => hasFlag (r ||| 2) 1 = hasFlag r 1 ∧ hasFlag (r ||| 2) 2 = true ∧
    hasFlag (r ||| 2) 4 = hasFlag r 4) header ?_
  decide

theorem flags_pinBlock (header : Nat) :
    blockIsPinned (pinBlock header) = true ∧
      blockIsMarked (pinBlock header) = blockIsMarked header ∧
        blockIsDead (pinBlock header) = blockIsDead header := by
  simp only [blockIsPinned, blockIsMarked, blockIsDead, pinBlock, pinFlag, markFlag, deadFlag]
  rw [hasFlag_or (f := 1) (by decide) (by decide), hasFlag_or (f := 2) (by decide) (by decide),
    hasFlag_or (f := 4) (by decide) (by decide), hasFlag_residue (f := 2) (by decide) header,
    hasFlag_residue (f := 4) (by decide) header]
  refine @of_residues (fun r => hasFlag (r ||| 1) 1 = true ∧ hasFlag (r ||| 1) 2 = hasFlag r 2 ∧
    hasFlag (r ||| 1) 4 = hasFlag r 4) header ?_
  decide

/-- A header word without flags is unpinned, unmarked and alive. -/
theorem flags_of_aligned {header : Nat} (aligned : header % 8 = 0) :
    blockIsPinned header = false ∧ blockIsMarked header = false ∧ blockIsDead header = false :=
  ⟨hasFlag_of_mod_eq_zero (by decide) aligned, hasFlag_of_mod_eq_zero (by decide) aligned,
    hasFlag_of_mod_eq_zero (by decide) aligned⟩

def sizeofBlock : Nat := 8
def sizeofPage : Nat := 16
def sizeofBigBlock : Nat := 16
def sizeofBaseMeta : Nat := 24

/-- `b->data` of a block. -/
def blockData (b : Nat) : Nat := b + sizeofBlock

/-- `get_block(p)`, the block whose data starts at `p`. -/
def getBlock (p : Nat) : Nat := p - sizeofBlock

/-- `next_block(b)`. -/
def nextBlock (m : Memory) (b : Nat) : Nat := b + sizeofBlock + blockSize (m b)

/-- `forward_pointer(b)`, the first data word of a block. -/
def forwardPointer (m : Memory) (b : Nat) : Nat := m (blockData b)

def setForwardPointer (m : Memory) (b ptr : Nat) : Memory := m.write (blockData b) ptr

/-- `p->next` of a page. -/
def pageNext (m : Memory) (p : Nat) : Nat := m p

def setPageNext (m : Memory) (p next : Nat) : Memory := m.write p next

/-- `p->free_block` of a page. -/
def freeBlock (m : Memory) (p : Nat) : Nat := m (p + 8)

def setFreeBlock (m : Memory) (p b : Nat) : Memory := m.write (p + 8) b

/-- `p->first_block` of a page. -/
def firstBlock (p : Nat) : Nat := p + sizeofPage

/-- `set_next_free_block(p, ptr)`: the bucket link is stored in the free block itself. -/
def setNextFreeBlock (m : Memory) (p ptr : Nat) : Memory := setForwardPointer m (freeBlock m p) ptr

/-- `next_free_block(p)`. -/
def nextFreeBlock (m : Memory) (p : Nat) : Nat := forwardPointer m (freeBlock m p)

/-- `b->next` of a big block. -/
def bigNext (m : Memory) (b : Nat) : Nat := m b

def setBigNext (m : Memory) (b next : Nat) : Memory := m.write b next

/-- The address of `b->size` of a big block, which `get_block` finds from its data. -/
def bigHeader (b : Nat) : Nat := b + 8

/-- `b->data` of a big block. -/
def bigData (b : Nat) : Nat := b + sizeofBigBlock

/-- A mapped range of whole pages. -/
structure Region where
  start : Nat
  length : Nat
deriving DecidableEq, Repr

/-- A byte of the region. -/
def Region.Contains (r : Region) (x : Nat) : Prop := r.start ≤ x ∧ x < r.start + r.length

/-- A length rounded up to whole pages. -/
def roundToPages (pageSize length : Nat) : Nat := (length + (pageSize - 1)) / pageSize * pageSize

/-- What `mmap` promises about an address it returns for a request of `length` bytes. -/
structure FreshMapping (pageSize : Nat) (mappings : List Region) (length start : Nat) : Prop where
  nonempty : 0 < length
  aligned : pageSize ∣ start
  nonnull : 0 < start
  inside : start + roundToPages pageSize length < wordSpace
  unmapped : ∀ r ∈ mappings, ∀ x, r.Contains x →
    x < start ∨ start + roundToPages pageSize length ≤ x

/-- The page size reported by `sysconf`, whether assertions are compiled out, and the
operating system's answer to the `call`-th request for a mapping. -/
structure Platform where
  pageSize : Nat
  ndebug : Bool
  mmap : (call : Nat) → List Region → (length : Nat) → Option Nat
  pageSize_pow : ∃ shift, 12 ≤ shift ∧ pageSize = 2 ^ shift
  mmap_fresh : ∀ {call : Nat} {mappings : List Region} {length start : Nat},
    mmap call mappings length = some start → FreshMapping pageSize mappings length start

/-- The usual page size is one. -/
theorem fourKiB_pow : ∃ shift, 12 ≤ shift ∧ 4096 = 2 ^ shift := ⟨12, Nat.le_refl 12, rfl⟩

/-- Pages of 4 KiB, and no further mappings. -/
def noMemory : Platform where
  pageSize := 4096
  ndebug := false
  mmap _ _ _ := none
  pageSize_pow := fourKiB_pow
  mmap_fresh := by simp

/-- `BIG_BLOCK_THRESHOLD`, the data size of a block that fills a page. -/
def Platform.bigBlockThreshold (pf : Platform) : Nat := pf.pageSize - sizeofBlock - sizeofPage

theorem Platform.pageSize_ge (pf : Platform) : 4096 ≤ pf.pageSize := by
  rcases pf.pageSize_pow with ⟨shift, large, eq⟩
  calc 4096 = 2 ^ 12 := rfl
    _ ≤ 2 ^ shift := Nat.pow_le_pow_right (by decide) large
    _ = pf.pageSize := eq.symm

theorem Platform.pageSize_mod (pf : Platform) : pf.pageSize % 8 = 0 := by
  rcases pf.pageSize_pow with ⟨shift, large, eq⟩
  have : (2 : Nat) ^ 3 ∣ 2 ^ shift := pow_dvd_pow 2 (by omega)
  rw [eq]
  exact Nat.mod_eq_zero_of_dvd this

theorem Platform.bigBlockThreshold_add (pf : Platform) :
    pf.bigBlockThreshold + 24 = pf.pageSize := by
  have := pf.pageSize_ge
  simp only [Platform.bigBlockThreshold, sizeofBlock, sizeofPage]
  omega

/-- `page_is_full(p)`. -/
def pageIsFull (pf : Platform) (m : Memory) (p : Nat) : Bool :=
  p + pf.pageSize - sizeofBlock ≤ freeBlock m p

/-- `heap_part`: a range obtained by `morecore` for pages. -/
structure HeapPart where
  start : Nat
  stop : Nat
deriving DecidableEq, Repr

/-- The statics of the allocator, the memory and the mappings of the process.

`metaReads` is a history variable: the data address of every block whose words
`sweep` has read as a `base_meta`. -/
structure Heap where
  mem : Memory
  mappings : List Region := []
  mmapCalls : Nat := 0
  parts : List HeapPart := []
  pagePerMap : Nat := 32
  freeBlocks : Nat → Nat := fun _ => 0
  maxFreeBlock : Nat := 0
  freePages : Nat := 0
  totalPages : Nat := 0
  firstPage : Nat := 0
  freeList : Nat := 0
  lastPage : Nat := 0
  firstBigBlock : Nat := 0
  metaReads : List Nat := []

/-- A memory given by the words that are not zero. -/
def wordsAt (words : List (Nat × Nat)) : Memory := fun x => (words.lookup x).getD 0

/-- How a run of the allocator can stop short of returning. -/
inductive Fault where
  /-- A failed assertion. -/
  | assertFailed
  /-- A refused mapping: the assertion in `morecore` fails, or the null page it leads to is used. -/
  | mapFailed
  /-- An index outside `free_blocks`. -/
  | indexOutOfBounds
  /-- The fuel of a loop of the model ran out. -/
  | outOfFuel
deriving DecidableEq, Repr

/-- The `assert` macro. -/
def assertThat (pf : Platform) (condition : Bool) : Except Fault Unit :=
  if pf.ndebug || condition then .ok () else .error .assertFailed

@[simp]
theorem assertThat_true (pf : Platform) : assertThat pf true = .ok () := by
  simp [assertThat]

/-- The number of entries of `free_blocks`. -/
def freeBlocksLength : Nat := 4096 * 2

/-- An access to `free_blocks[index]` is defined. -/
def checkIndex (index : Nat) : Except Fault Unit :=
  if index < freeBlocksLength then .ok () else .error .indexOutOfBounds

theorem checkIndex_of_lt {index : Nat} (bounded : index < freeBlocksLength) :
    checkIndex index = .ok () := by
  simp [checkIndex, bounded]

end PreciseGc

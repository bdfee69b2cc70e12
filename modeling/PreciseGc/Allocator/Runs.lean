import PreciseGc.Allocator.Sweeping
import PreciseGc.Foundation.Transition

/-!
# Runs of the allocator

A run starts in a process that has not allocated yet.  Its steps are the
critical sections of `gcmalloc`, whatever thread they belong to, writes of
clients, the flags that a mark phase sets, and sweeps.  In a run whose sweeps
all find objects with plain pointers in the blocks that survive, the invariant
of the allocator holds after every step.
-/

namespace PreciseGc

open Foundation Memory

variable {pf : Platform} {threads : ThreadRoots} {h h' : Heap} {c : Census} {bigs : List Nat}
  {w x : Nat}

/-- A process that has not allocated yet. -/
def Initial (h : Heap) : Prop :=
  ∃ mem mappings, h = { mem := mem, mappings := mappings } ∧ ∀ r ∈ mappings, 0 < r.length

/-- An address clients write to: data of a block in use, or what is not managed at all. -/
def Writable (pf : Platform) (h : Heap) (x : Nat) : Prop :=
  (∃ b, InUse h b ∧ blockData b ≤ x ∧ x < blockData b + blockSize (h.mem b)) ∨ Foreign pf h x

/-- The steps of a run, where `allowed` restricts the heaps in which a sweep is entered. -/
inductive Step (pf : Platform) (allowed : ThreadRoots → Heap → Prop) : Heap → Heap → Prop where
  | gcmalloc {s : Nat} {expand : Bool} {p : Nat} {h h' : Heap} : s < 2 ^ 63 →
      gcmallocLocked pf s expand h = .ok (p, h') → Step pf allowed h h'
  | write {h : Heap} {x value : Nat} : Writable pf h x →
      Step pf allowed h { h with mem := h.mem.write x value }
  | mark {h : Heap} {b : Nat} : InUse h b →
      Step pf allowed h { h with mem := mark (blockData b) h.mem }
  | pin {h : Heap} {b : Nat} : InUse h b →
      Step pf allowed h { h with mem := pin (blockData b) h.mem }
  | sweep {threads : ThreadRoots} {fuel : Nat} {h h' : Heap} : allowed threads h →
      sweep pf fuel threads h = .ok h' → Step pf allowed h h'

/-- The heaps in which a run of the allocator can be. -/
def Runs (pf : Platform) (allowed : ThreadRoots → Heap → Prop) : Heap → Prop :=
  Reachable Initial (Step pf allowed)

/-- The pointer word is null, or designates a block in use or a big block that survives. -/
def PointsToBlock (h : Heap) (w : Nat) : Prop :=
  IsNull w ∨ (∃ b, SmallBlock h b ∧ Designates w b) ∨
    ∃ big, LargeBlock h big ∧ bigSurvives h.mem big = true ∧ Designates w (bigHeader big)

/-- Every block in a page that survives the sweep holds an object as `gc_new` lays it out, whose
slots are plain pointers; so are the stack roots, and no dead block is to be evacuated. -/
structure PlainObjects (pf : Platform) (threads : ThreadRoots) (h : Heap) : Prop where
  small : pf.bigBlockThreshold < freeBlocksLength
  deadUnmarked : ∀ pages p blocks, Chain (pageNext h.mem) h.firstPage pages → p ∈ pages →
    Tiles (blockExtent h.mem) (firstBlock p) (freeBlock h.mem p) blocks →
      (∀ b ∈ blocks, blockIsPinned (h.mem b) = false) →
        ∀ b ∈ blocks, (blockIsDead (h.mem b) && blockIsMarked (h.mem b)) = false
  object : ∀ b, SmallBlock h b → survives h.mem b = true →
    GcObject h.mem (fun x => Foreign pf h x ∧ x ∉ threads.flatten) b
  slotPlain : ∀ b, SmallBlock h b → survives h.mem b = true → ∀ x ∈ slotsOf h.mem b,
    isCompositePointer (h.mem x) = false
  slotOnce : ∀ b, SmallBlock h b → survives h.mem b = true → ∀ x ∈ slotsOf h.mem b,
    PointsToBlock h (h.mem x) ∨ (slotsOf h.mem b).count x = 1
  rootOff : ∀ a ∈ threads.flatten, a ≠ 0 ∧ Foreign pf h a
  rootPlain : ∀ a ∈ threads.flatten, isCompositePointer (h.mem a) = false
  rootOnce : ∀ a ∈ threads.flatten, PointsToBlock h (h.mem a) ∨ threads.flatten.count a = 1

theorem AllocatorOk.pointsToBlock_iff (ok : AllocatorOk pf h c bigs) :
    PointsToBlock h w ↔ PointerOk h c bigs w := by
  have small : (∃ b, SmallBlock h b ∧ Designates w b) ↔
      ∃ q ∈ c.alive, ∃ b ∈ c.blocks q, Designates w b := by
    constructor
    · rintro ⟨b, isSmall, designates⟩
      rcases ok.smallBlock_iff.mp isSmall with ⟨q, qMem, bMem⟩
      exact ⟨q, qMem, b, bMem, designates⟩
    · rintro ⟨q, qMem, b, bMem, designates⟩
      exact ⟨b, ok.smallBlock_iff.mpr ⟨q, qMem, bMem⟩, designates⟩
  simp only [PointsToBlock, PointerOk, small, ok.largeBlock_iff]

/-- The condition is the one a sweep relies on. -/
theorem PlainObjects.sweepReady (plain : PlainObjects pf threads h)
    (ok : AllocatorOk pf h c bigs) : SweepReady pf threads h c bigs := by
  have isSmall : ∀ q ∈ c.alive, ∀ b ∈ c.blocks q, SmallBlock h b := fun q qMem b bMem =>
    ok.smallBlock_iff.mpr ⟨q, qMem, bMem⟩
  have tiles : ∀ q ∈ c.alive, Tiles (blockExtent h.mem) (firstBlock q) (freeBlock h.mem q)
      (c.blocks q) := fun q mem => (ok.arena.pageOk q (Classifying.tiled_of_alive mem)).tiles
  exact
    { toAllocatorOk := ok
      small := plain.small
      deadUnmarked := by
        intro q qMem unpinned
        apply plain.deadUnmarked c.alive q (c.blocks q) ok.arena.aliveChain qMem (tiles q qMem)
        intro b bMem
        by_contra isPinned
        exact unpinned ⟨b, bMem, by simpa using isPinned⟩
      object := fun q qMem b bMem alive =>
        (plain.object b (isSmall q qMem b bMem) alive).mono fun x apart =>
          ⟨ok.foreign_iff.mp apart.1, apart.2⟩
      slotPlain := fun q qMem b bMem alive => plain.slotPlain b (isSmall q qMem b bMem) alive
      slotOnce := fun q qMem b bMem alive x slot =>
        (plain.slotOnce b (isSmall q qMem b bMem) alive x slot).imp ok.pointsToBlock_iff.mp id
      rootOff := fun a mem => ⟨(plain.rootOff a mem).1, ok.foreign_iff.mp (plain.rootOff a mem).2⟩
      rootPlain := plain.rootPlain
      rootOnce := fun a mem => (plain.rootOnce a mem).imp ok.pointsToBlock_iff.mp id }

theorem Initial.allocatorState (initial : Initial h) : AllocatorState pf h {} [] := by
  rcases initial with ⟨mem, mappings, rfl, positive⟩
  have arena : Arena pf 0 0 { mem := mem, mappings := mappings } {} :=
    { fromChain := rfl, aliveChain := rfl, freeChain := rfl, distinct := List.nodup_nil,
      aligned := by simp [Census.pages], bounded := by simp [Census.pages],
      mapped := by simp [Census.pages], pageOk := by simp [Census.tiled], lastPage := rfl,
      owned := List.Perm.refl _, freePages := rfl, totalPages := rfl, perMap := ⟨5, rfl⟩ }
  exact
    { arena := arena, heldNil := rfl, fromNil := rfl, noBuckets := fun _ => rfl,
      big := ⟨rfl, List.nodup_nil, by simp, by simp, by simp, by simp⟩, regions := positive }

/-- Every step of a run keeps the invariant. -/
theorem Step.allocatorState (stepped : Step pf (PlainObjects pf) h h')
    (holds : ∃ c bigs, AllocatorState pf h c bigs) : ∃ c bigs, AllocatorState pf h' c bigs := by
  rcases holds with ⟨c, bigs, state⟩
  cases stepped with
  | gcmalloc bounded eq =>
      rcases (gcmallocLocked_yields state bounded _).of_ok eq with ⟨⟨c', bigs', grown, _⟩, -⟩
      exact ⟨c', bigs', grown.state⟩
  | write writable =>
      rcases writable with ⟨b, used, lower, upper⟩ | foreign
      · exact ⟨c, bigs, state.write_data (state.inUse_iff.mp used) lower upper _⟩
      · exact ⟨c, bigs, state.write_off (state.foreign_iff.mp foreign) _⟩
  | mark used =>
      have same : ∀ b, getBlock (blockData b) = b := fun b => Nat.add_sub_cancel b 8
      simp only [PreciseGc.mark, same]
      exact ⟨c, bigs, state.write_header (state.inUse_iff.mp used) (blockSize_markBlock _)⟩
  | pin used =>
      have same : ∀ b, getBlock (blockData b) = b := fun b => Nat.add_sub_cancel b 8
      simp only [PreciseGc.pin, same]
      exact ⟨c, bigs, state.write_header (state.inUse_iff.mp used) (blockSize_pinBlock _)⟩
  | sweep plain eq => exact state.swept (plain.sweepReady state.toAllocatorOk) eq

/-- In a run that sweeps plain objects only, the invariant holds after every step. -/
theorem Runs.allocatorState (run : Runs pf (PlainObjects pf) h) :
    ∃ c bigs, AllocatorState pf h c bigs :=
  run.invariant (fun _ initial => ⟨{}, [], initial.allocatorState⟩)
    fun _ _ holds stepped => stepped.allocatorState holds

/-- The pages in use, each with its blocks. -/
abbrev PageTable := List (Nat × List Nat)

/-- The table lists the pages in use and their blocks. -/
def PageTable.Describes (table : PageTable) (h : Heap) : Prop :=
  Chain (pageNext h.mem) h.firstPage (table.map Prod.fst) ∧
    ∀ entry ∈ table,
      Tiles (blockExtent h.mem) (firstBlock entry.1) (freeBlock h.mem entry.1) entry.2

instance (table : PageTable) (h : Heap) : Decidable (table.Describes h) :=
  inferInstanceAs (Decidable (_ ∧ _))

theorem PageTable.Describes.smallBlock_iff {table : PageTable} {b : Nat}
    (describes : table.Describes h) : SmallBlock h b ↔ ∃ entry ∈ table, b ∈ entry.2 := by
  constructor
  · rintro ⟨pages, p, blocks, chain, pMem, tiles, bMem⟩
    have pagesEq := chain.unique describes.1
    subst pagesEq
    rcases List.mem_map.mp pMem with ⟨entry, mem, rfl⟩
    have blocksEq := tiles.unique (describes.2 entry mem)
    exact ⟨entry, mem, blocksEq ▸ bMem⟩
  · rintro ⟨entry, mem, bMem⟩
    exact ⟨_, entry.1, entry.2, describes.1, List.mem_map_of_mem mem, describes.2 entry mem, bMem⟩

/-- An action of a client or of a mark phase on a block of a page. -/
inductive Action where
  | write (b x value : Nat)
  | mark (b : Nat)
  | pin (b : Nat)

/-- The block an action needs. -/
def Action.block : Action → Nat
  | .write b _ _ => b
  | .mark b => b
  | .pin b => b

/-- The address an action needs in the data of its block. -/
def Action.address : Action → Nat
  | .write _ x _ => x
  | .mark b => blockData b
  | .pin b => blockData b

def Action.apply (h : Heap) : Action → Heap
  | .write _ x value => { h with mem := h.mem.write x value }
  | .mark b => { h with mem := PreciseGc.mark (blockData b) h.mem }
  | .pin b => { h with mem := PreciseGc.pin (blockData b) h.mem }

/-- Perform actions one after the other, checking before each that the table describes the heap and
lists the block, and that the address lies in its data. -/
def performAll (table : PageTable) : List Action → Heap → Except Fault Heap
  | [], h => .ok h
  | action :: actions, h =>
      if table.Describes h ∧ (∃ entry ∈ table, action.block ∈ entry.2) ∧
          blockData action.block ≤ action.address ∧
            action.address < blockData action.block + blockSize (h.mem action.block) then
        performAll table actions (action.apply h)
      else .error .assertFailed

theorem performAll_runs {allowed : ThreadRoots → Heap → Prop} {table : PageTable}
    {actions : List Action} (performed : performAll table actions h = .ok h')
    (run : Runs pf allowed h) : Runs pf allowed h' := by
  induction actions generalizing h with
  | nil =>
      cases performed
      exact run
  | cons action actions ih =>
      rw [performAll] at performed
      split at performed
      · rename_i valid
        rcases valid with ⟨describes, inTable, lower, upper⟩
        have used : InUse h action.block := Or.inl (describes.smallBlock_iff.mpr inTable)
        apply ih performed
        cases action with
        | write b x value => exact run.next (.write (Or.inl ⟨b, used, lower, upper⟩))
        | mark b => exact run.next (.mark used)
        | pin b => exact run.next (.pin used)
      · cases performed

/-- Allocate blocks of the given sizes, collecting the pointers. -/
def mallocAll (pf : Platform) : List Nat → Heap → Except Fault (List Nat × Heap)
  | [], h => .ok ([], h)
  | s :: sizes, h =>
      gcmallocLocked pf s true h >>= fun (p, h) =>
        mallocAll pf sizes h >>= fun (ps, h) => .ok (p :: ps, h)

/-- What every allocation keeps holds after all of them. -/
theorem mallocAll_keeps (holds : Heap → Prop) {sizes ps : List Nat}
    (kept : ∀ s p h h', s < 2 ^ 63 → gcmallocLocked pf s true h = .ok (p, h') → holds h → holds h')
    (allocated : mallocAll pf sizes h = .ok (ps, h')) (small : ∀ s ∈ sizes, s < 2 ^ 63)
    (before : holds h) : holds h' := by
  induction sizes generalizing h ps with
  | nil =>
      cases allocated
      exact before
  | cons s sizes ih =>
      rcases bind_eq_ok allocated with ⟨⟨p, h₁⟩, eq, rest⟩
      rcases bind_eq_ok rest with ⟨⟨ps', h₂⟩, eq', last⟩
      cases last
      exact ih eq' (fun s mem => small s (by simp [mem]))
        (kept s p h h₁ (small s (by simp)) eq before)

theorem mallocAll_runs {allowed : ThreadRoots → Heap → Prop} {sizes ps : List Nat}
    (allocated : mallocAll pf sizes h = .ok (ps, h')) (small : ∀ s ∈ sizes, s < 2 ^ 63)
    (run : Runs pf allowed h) : Runs pf allowed h' := by
  apply mallocAll_keeps (Runs pf allowed) _ allocated small run
  exact fun _ _ _ _ bounded eq run => run.next (.gcmalloc bounded eq)

end PreciseGc

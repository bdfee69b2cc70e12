import PreciseGc.Mark.Reachability
import PreciseGc.Roots.Restarts
import PreciseGc.Sweep.Relocation

/-!
# Recovery from an overflow

`mark_after_overflow` is to restart the traversal at the objects that are marked.
`go` expects the address of an object, which lies behind the `base_meta` at the
start of the data of a block, and `mark_after_overflow` passes the start of the
data.
-/

namespace PreciseGc

open Foundation Relation

variable {pf : Platform} {h : Heap} {c : Census} {objects bigs : List Nat} {fuel : Nat}

/-- A call `go(pointer)` of `mark_after_overflow` for the block with this header. -/
structure Restart where
  header : Nat
  pointer : Nat
deriving DecidableEq, Repr

/-- The call in `if (block_is_marked(b) && go(&b->data))`. -/
def restartsAt (header data : Nat) (h : Heap) : List Restart :=
  if blockIsMarked (h.mem header) then [⟨header, data⟩] else []

/-- The calls of `go` that `mark_after_overflow()` makes. -/
def markAfterOverflowRestarts (fuel : Nat) (h : Heap) : List Restart :=
  markAfterOverflowRecord fuel restartsAt h

/-- What the objects of marked blocks point to is marked. -/
def MarkedClosed (objects : List Nat) (m : Memory) : Prop :=
  ∀ b ∈ objects, blockIsMarked (m b) = true → ∀ d, PointsTo m b d → blockIsMarked (m d) = true

/-- What `mark_after_overflow()` is for: it traverses the heap again from the marked objects, it has
finished the marking when it returns false, and if it is repeated until then, all that was reachable
from a marked object is marked. -/
structure RecoversOverflow (fuel : Nat) (objects : List Nat) (h : Heap) : Prop where
  ownPointers : ∀ restart ∈ markAfterOverflowRestarts fuel h,
    restart.pointer = objectOf restart.header
  closes : ∀ h', markAfterOverflow id (fun _ => go fuel) fuel h = .ok (false, h') →
    MarkedClosed objects h'.mem
  completes : ∀ rounds h', (collector fuel).rescan rounds true h = .ok h' →
    ∀ b ∈ objects, blockIsMarked (h.mem b) = true → ∀ d, Reaches h.mem b d →
      blockIsMarked (h'.mem d) = true

/-- The data of a block starts in front of the object. -/
theorem blockData_ne_objectOf (b : Nat) : blockData b ≠ objectOf b := by
  simp only [objectOf_eq, blockData, sizeofBlock]
  omega

/-- `mark_after_overflow` does what it is for if and only if no block in use is marked, so that it
has nothing to do. -/
theorem recoversOverflow_iff (ok : AllocatorOk pf h c bigs) (used : ∀ b ∈ objects, InUse h b)
    (enough : sweepFuel pf c bigs ≤ fuel) :
    RecoversOverflow fuel objects h ↔ ∀ b, InUse h b → blockIsMarked (h.mem b) = false := by
  have walks := ok.rescannable enough
  constructor
  · intro recovers
    by_contra some
    have marked : ∃ b, c.Used bigs b ∧ blockIsMarked (h.mem b) = true := by
      by_contra none
      apply some
      intro b inUse
      apply Bool.eq_false_iff.mpr
      exact fun isMarked => none ⟨b, ok.inUse_iff.mp inUse, isMarked⟩
    have bad : ∀ b, c.Used bigs b → blockIsMarked (h.mem b) = true →
        ∃ restart ∈ restartsAt b (blockData b) h, ¬restart.pointer = objectOf restart.header := by
      intro b _ isMarked
      unfold restartsAt
      rw [if_pos isMarked]
      exact ⟨_, List.mem_singleton.mpr rfl, blockData_ne_objectOf b⟩
    rcases walks.record_bad bad marked with ⟨restart, mem, wrong⟩
    exact wrong (recovers.ownPointers restart mem)
  · intro unmarked
    have dull : ∀ b, c.Used bigs b → ¬blockIsMarked (h.mem b) = true :=
      fun b isUsed => Bool.eq_false_iff.mp (unmarked b (ok.inUse_iff.mpr isUsed))
    have noObject : ∀ b ∈ objects, ¬blockIsMarked (h.mem b) = true :=
      fun b mem => Bool.eq_false_iff.mp (unmarked b (used b mem))
    constructor
    · have silent : markAfterOverflowRestarts fuel h = [] := by
        apply walks.record_idle dull
        intro b data isUnmarked
        exact if_neg isUnmarked
      rw [silent]
      exact nofun
    · intro h' returned
      rw [walks.idle dull] at returned
      cases returned
      exact fun b mem marked => absurd marked (noObject b mem)
    · exact fun _ _ _ b mem marked => absurd marked (noObject b mem)

/-- The page at `65536` holds three objects.  The first has a word `133184`, the second, which is
marked, a pointer to the third.  The words in front of the data of the second object are the word
of the first and the header of the second, and `go` takes them for a shell and a number of
elements. -/
def halfMarked : Heap where
  mem := wordsAt [(65544, 65672), (65552, 32), (65568, 131104), (65576, 1), (65584, 133184),
    (65592, markBlock 32), (65608, 131072), (65616, 1), (65624, 65664), (65632, 32),
    (65648, 131072), (65656, 1), (65672, 3952), (131072, 8), (131080, 1), (131104, 8)]
  mappings := [⟨65536, 4096⟩, ⟨131072, 4096⟩]
  parts := [⟨65536, 69632⟩]
  totalPages := 1
  firstPage := 65536
  lastPage := 65536

def halfMarkedCensus : Census where
  alive := [65536]
  blocks _ := [65552, 65592, 65632]

theorem halfMarked_allocatorOk : AllocatorOk noMemory halfMarked halfMarkedCensus [] where
  arena :=
    { fromChain := rfl
      aliveChain := ⟨rfl, by decide, rfl⟩
      freeChain := rfl
      distinct := by decide
      aligned := by decide
      bounded := by decide
      mapped := by
        intro p mem
        refine ⟨⟨65536, 4096⟩, by simp [halfMarked], ?_⟩
        revert p
        decide
      pageOk := by
        intro p mem
        have : p = 65536 := by simpa [Census.tiled, halfMarkedCensus] using mem
        subst this
        exact ⟨⟨rfl, by decide, rfl, by decide, rfl, by decide, rfl⟩, by decide,
          fun _ => by decide, by decide⟩
      lastPage := rfl
      owned := by decide
      freePages := rfl
      totalPages := rfl
      perMap := ⟨5, rfl⟩ }
  heldNil := rfl
  fromNil := rfl
  noBuckets _ := rfl
  big := ⟨rfl, by decide, by decide, by decide, by decide, by decide⟩

theorem halfMarked_inUse {x : Nat} :
    InUse halfMarked x ↔ x = 65552 ∨ x = 65592 ∨ x = 65632 := by
  rw [halfMarked_allocatorOk.inUse_iff]
  simp [Census.Used, halfMarkedCensus]

theorem halfMarked_graph :
    ObjectGraph halfMarked [65552, 65592, 65632] [] (InUse halfMarked) := by
  have shells : ∀ b ∈ [65552, 65592, 65632], 131072 ≤ shellOf halfMarked.mem b := by decide
  have sizes : ∀ b ∈ [65552, 65592, 65632], blockSize (halfMarked.mem b) = 32 := by decide
  have slots : slotsOf halfMarked.mem 65552 = [] ∧ slotsOf halfMarked.mem 65592 = [65624] ∧
      slotsOf halfMarked.mem 65632 = [65664] := by decide
  refine
    { header := ?_, object := ?_, dataApart := ?_, bounded := by decide, bigChain := rfl,
      bigApart := nofun, inHeap := ?_, pointer := ?_ }
  · intro b mem
    apply halfMarked_inUse.mpr
    simpa using mem
  · intro b mem
    refine ⟨?_, ?_, ?_⟩
    · revert b
      decide
    · revert b
      decide
    · intro x lower _ used
      have := shells b mem
      have := halfMarked_inUse.mp used
      omega
  · intro b mem x lower upper used
    rw [sizes b mem] at upper
    have inUse := halfMarked_inUse.mp used
    simp only [List.mem_cons, List.not_mem_nil, or_false] at mem
    omega
  · intro b mem
    refine Or.inl ⟨⟨65536, 69632⟩, List.mem_singleton.mpr rfl, ?_⟩
    revert b
    decide
  · intro b mem x slot
    simp only [List.mem_cons, List.not_mem_nil, or_false] at mem
    rcases mem with rfl | rfl | rfl
    · rw [slots.1] at slot
      cases slot
    · rw [slots.2.1, List.mem_singleton] at slot
      subst slot
      exact Or.inr (Or.inl ⟨65632, by decide, by decide⟩)
    · rw [slots.2.2, List.mem_singleton] at slot
      subst slot
      exact Or.inl ⟨by decide, by decide⟩

theorem recoversOverflow_iff_halfMarked :
    RecoversOverflow 16384 [65552, 65592, 65632] halfMarked ↔
      ∀ b, InUse halfMarked b → blockIsMarked (halfMarked.mem b) = false :=
  recoversOverflow_iff halfMarked_allocatorOk halfMarked_graph.header (by decide)

/-- The traversal is restarted in front of the object, returns false, and leaves what the marked
object points to unmarked. -/
theorem markAfterOverflow_incomplete :
    ObjectGraph halfMarked [65552, 65592, 65632] [] (InUse halfMarked) ∧
      markAfterOverflowRestarts 8192 halfMarked = [⟨65592, 65600⟩] ∧ objectOf 65592 ≠ 65600 ∧
      ∃ h', markAfterOverflow id (fun _ => go 8192) 8192 halfMarked = .ok (false, h') ∧
        blockIsMarked (h'.mem 65592) = true ∧ PointsTo h'.mem 65592 65632 ∧
          blockIsMarked (h'.mem 65632) = false := by
  refine ⟨halfMarked_graph, by decide +kernel, by decide, ?_⟩
  obtain ⟨⟨overflow, h'⟩, returned, fits, marked, slot, led, unmarked⟩ : ∃ r,
      markAfterOverflow id (fun _ => go 8192) 8192 halfMarked = .ok r ∧ r.1 = false ∧
        blockIsMarked (r.2.mem 65592) = true ∧ 65624 ∈ slotsOf r.2.mem 65592 ∧
          Designates (r.2.mem 65624) 65632 ∧ blockIsMarked (r.2.mem 65632) = false :=
    Yields.total (by decide +kernel)
  subst fits
  exact ⟨h', returned, marked, ⟨65624, slot, Or.inl led⟩, unmarked⟩

end PreciseGc

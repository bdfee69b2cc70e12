import PreciseGc.Allocator.Membership
import PreciseGc.Foundation.BinaryFloat

/-!
# The table of mappings

`parts` has a hundred entries, and nothing compares `parts_count` with their
number.  Every mapping for pages is twice as long as the one before, so the
address space is exhausted first: no call of `gcmalloc` or `sweep` in a run
writes behind the table.

`page_per_map` is doubled in the arithmetic of a `float`.  The product stays
exact, because the number of pages is a power of two.
-/

namespace PreciseGc

open Foundation

variable {pf : Platform} {h e : Heap}

/-- The number of entries of `parts`. -/
def partsLength : Nat := 100

/-- The significant digits of a `float`. -/
def floatDigits : Nat := 24

/-- `page_per_map *= EXPAND_FACTOR`: both operands are converted to a `float`. -/
def timesExpandFactor (perMap : Nat) : Nat := floatProduct floatDigits perMap expandFactor

/-- What `morecore` finds when it is entered for pages: a free entry of `parts`, a length that a
granted mapping does not wrap, and a number of pages whose double is computed exactly. -/
structure PartsWrite (pf : Platform) (e : Heap) : Prop where
  inside : e.parts.length < partsLength
  whole : ∀ start,
    pf.mmap e.mmapCalls e.mappings (e.pagePerMap * pf.pageSize % wordSpace) = some start →
      e.pagePerMap * pf.pageSize < wordSpace ∧ timesExpandFactor e.pagePerMap < wordSpace
  exact : timesExpandFactor e.pagePerMap = e.pagePerMap * expandFactor

/-- A call writes to free entries of `parts` only, and what it leaves has one record for each
write. -/
structure PartsKept {α : Type} (pf : Platform) (h : Heap) (view : α → Heap)
    (writes : List Heap) (computation : Except Fault α) : Prop where
  within : ∀ e ∈ writes, PartsWrite pf e
  counted : Yields (fun _ => True)
    (fun result => (view result).parts.length = h.parts.length + writes.length) computation

theorem timesExpandFactor_eq (doubling : Doubling e) :
    timesExpandFactor e.pagePerMap = e.pagePerMap * expandFactor := by
  rcases doubling with ⟨k, power⟩
  rw [power]
  exact floatProduct_two_pow (by decide) k 1

theorem RecordsOk.partsWrite (ok : RecordsOk pf e) (asserts : pf.ndebug = false) :
    PartsWrite pf e where
  inside := by
    have few := ok.parts_length asserts
    simp only [partsLength]
    omega
  whole := by
    intro start answer
    have fresh := pf.mmap_fresh answer
    have whole := pagePerMap_not_truncated ok.doubling fresh.nonempty
    have fits : e.pagePerMap * pf.pageSize < wordSpace := by
      rw [← whole]
      exact Nat.mod_lt _ (by decide)
    have least : e.pagePerMap * 4096 ≤ e.pagePerMap * pf.pageSize :=
      Nat.mul_le_mul_left _ pf.pageSize_ge
    refine ⟨fits, ?_⟩
    rw [timesExpandFactor_eq ok.doubling, expandFactor]
    omega
  exact := timesExpandFactor_eq ok.doubling

theorem partsKept {α : Type} {view : α → Heap} {writes : List Heap}
    {computation : Except Fault α} (asserts : pf.ndebug = false)
    (performed : WritesRecords pf h view writes computation) :
    PartsKept pf h view writes computation where
  within e mem := (performed.entries e mem).partsWrite asserts
  counted := performed.result.mono fun _ grow => grow.grown

/-- In every run whose refused mappings are caught by the assertion, no attempt of `gcmalloc` and
no sweep writes behind `parts`, and no mapping they are granted is shorter than asked for. -/
theorem runs_partsWithin (asserts : pf.ndebug = false)
    (run : Reachable Initial (MappingStep pf) h) :
    (∀ s expand, PartsKept pf h Prod.snd (gcmallocWrites pf s expand h)
        (gcmallocLocked pf s expand h)) ∧
      ∀ threads fuel, PartsKept pf h id (sweepWrites pf fuel h) (sweep pf fuel threads h) := by
  have ok := recordsOk_of_reachable run
  refine ⟨fun s expand => ?_, fun threads fuel => ?_⟩
  · exact partsKept asserts (gcmallocLocked_writesRecords ok expand)
  · exact partsKept asserts (sweep_writesRecords ok)

/-- The first call of `gcmalloc` writes the first entry. -/
theorem runs_partsWithin_firstCall :
    emptyHeap ∈ gcmallocWrites upwards 40 false emptyHeap ∧ PartsWrite upwards emptyHeap := by
  have start : Reachable Initial (MappingStep upwards) emptyHeap :=
    Reachable.start emptyHeap_initial
  have writes : emptyHeap ∈ gcmallocWrites upwards 40 false emptyHeap := List.mem_append_left _ (by
    simp [initFirstPageWrites, requestNewPageWrites, emptyHeap])
  exact ⟨writes, ((runs_partsWithin rfl start).1 40 false).within _ writes⟩

end PreciseGc

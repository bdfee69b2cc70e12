import PreciseGc.Heap.PageRequests

/-!
# Requests in any heap

These facts hold in every heap, whether or not its page lists are well formed:
what a request for a big mapping comes to, and which statics a page request
leaves alone.
-/

namespace PreciseGc

open Foundation

variable {pf : Platform} {h : Heap}

theorem morecore_big_of_none {size : Nat} (answer : pf.mmap h.mmapCalls h.mappings size = none) :
    morecore pf size true h = .ok (none, { h with mmapCalls := h.mmapCalls + 1 }) := by
  simp [morecore, mmap, answer]

theorem morecore_big_of_some {size b : Nat}
    (answer : pf.mmap h.mmapCalls h.mappings size = some b) :
    morecore pf size true h = .ok (some b, { h with
      mmapCalls := h.mmapCalls + 1
      mappings := ⟨b, roundToPages pf.pageSize size⟩ :: h.mappings
      mem := h.mem.fill b (roundToPages pf.pageSize size) 0 }) := by
  simp [morecore, mmap, answer]

theorem SameLists.refl (h : Heap) : SameLists h h := ⟨rfl, rfl, rfl, rfl, rfl, rfl⟩

theorem linkNewPages_sameLists (count ptr : Nat) : SameLists h (linkNewPages pf count ptr h) := by
  induction count generalizing ptr h with
  | zero => exact SameLists.refl h
  | succ count ih =>
      have linked : SameLists h { h with
          mem := setPageNext h.mem ptr h.freeList
          freeList := ptr
          freePages := h.freePages + 1
          totalPages := h.totalPages + 1 } := ⟨rfl, rfl, rfl, rfl, rfl, rfl⟩
      exact linked.trans (ih (ptr + pf.pageSize))

theorem linkNewPages_statics (count ptr : Nat) :
    (linkNewPages pf count ptr h).parts = h.parts ∧
      (linkNewPages pf count ptr h).mappings = h.mappings ∧
        (linkNewPages pf count ptr h).pagePerMap = h.pagePerMap := by
  induction count generalizing ptr h with
  | zero => exact ⟨rfl, rfl, rfl⟩
  | succ count ih => exact ih _

theorem mmap_sameLists (length : Nat) : SameLists h (mmap pf length h).2 := by
  unfold mmap
  split
  · exact ⟨rfl, rfl, rfl, rfl, rfl, rfl⟩
  · exact ⟨rfl, rfl, rfl, rfl, rfl, rfl⟩

theorem morecore_sameLists (size : Nat) (isBig : Bool) :
    Yields (fun _ => True) (fun result => SameLists h result.2) (morecore pf size isBig h) := by
  have mapped : SameLists h (mmap pf size h).2 := mmap_sameLists size
  unfold morecore
  dsimp only
  split
  · exact mapped
  · split
    · trivial
    · exact { mapped with }

theorem requestNewPage_sameLists (expand : Bool) :
    Yields (fun _ => True) (fun result => SameLists h result.2) (requestNewPage pf expand h) := by
  unfold requestNewPage
  split
  · split
    · exact SameLists.refl h
    · have expanded : Yields (fun _ => True) (fun result => SameLists h result.2)
          (expandFreeList pf h) := by
        unfold expandFreeList
        apply (morecore_sameLists _ false).bind
        rintro ⟨start, h₁⟩ same
        cases start with
        | none => exact same
        | some ptr =>
            have linked : SameLists h₁ (linkNewPages pf h₁.pagePerMap ptr h₁) :=
              linkNewPages_sameLists _ ptr
            exact { same.trans linked with }
      apply expanded.bind
      rintro ⟨mapped, h₁⟩ same
      cases mapped with
      | false => exact same
      | true => exact { same with }
  · exact ⟨rfl, rfl, rfl, rfl, rfl, rfl⟩

end PreciseGc

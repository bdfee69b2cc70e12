import PreciseGc.Allocator.BlockInvariant

/-!
# The owners of the pages

In a run that sweeps plain objects only, every page ever mapped is in exactly
one of the lists `free_list` and `first_page`, and the counters and `last_page`
agree with these lists.  The link of a page is one of the words that a sweep may
overwrite when it misreads the record of a composite pointer.
-/

namespace PreciseGc

open Foundation Memory

variable {pf : Platform} {h : Heap} {c : Census} {bigs : List Nat}

/-- The two lists of pages are finite and acyclic and share the mapped pages among them. -/
def PagesOwned (pf : Platform) (h : Heap) : Prop :=
  ∃ free used, Chain (pageNext h.mem) h.freeList free ∧ Chain (pageNext h.mem) h.firstPage used ∧
    (free ++ used).Nodup ∧ (free ++ used).Perm (mappedPages pf h) ∧ h.freePages = free.length ∧
      h.totalPages = (mappedPages pf h).length ∧ h.lastPage = used.getLastD 0

theorem AllocatorOk.pagesOwned (ok : AllocatorOk pf h c bigs) : PagesOwned pf h := by
  have pagesEq : c.pages = c.alive ++ c.free := by
    simp [Census.pages, ok.heldNil, ok.fromNil]
  have perm : (c.free ++ c.alive).Perm c.pages := by
    rw [pagesEq]
    exact List.perm_append_comm
  refine ⟨c.free, c.alive, ok.arena.freeChain, ok.arena.aliveChain, ?_, ?_, ok.arena.freePages, ?_,
    ok.arena.lastPage⟩
  · exact perm.nodup_iff.mpr ok.arena.distinct
  · exact perm.trans ok.arena.owned
  · rw [ok.arena.totalPages]
    exact ok.arena.owned.length_eq

/-- In a run that sweeps plain objects only, the lists of pages own the mapped pages. -/
theorem runs_pages (run : Runs pf (PlainObjects pf) h) : PagesOwned pf h := by
  rcases run.allocatorState with ⟨c, bigs, state⟩
  exact state.pagesOwned

theorem runs_pages_survivorHeap : ∃ h h', sweep oneMapping 10 [[131200]] h = .ok h' ∧
    blockIsMarked (h.mem 1175568) = true ∧ blockIsPinned (h.mem 1171472) = true ∧
      Designates (h'.mem 131200) 1171520 ∧ PagesOwned oneMapping h ∧ PagesOwned oneMapping h' := by
  rcases survivorHeap_runs with
    ⟨h, h', _, _, before, isMarked, isPinned, swept, root, _, after, _⟩
  exact ⟨h, h', swept, isMarked, isPinned, root, runs_pages before, runs_pages after⟩

/-- After the sweep the list `first_page` leads from a page into an object. -/
theorem runs_pages_misread :
    ∃ h, Runs oneMapping (fun _ _ => True) h ∧ ¬PagesOwned oneMapping h := by
  rcases startHeap_runs_misread with ⟨h, run, first, next, _, notPage⟩
  refine ⟨h, run, ?_⟩
  rintro ⟨free, used, _, chain, _, perm, _⟩
  apply notPage
  rw [← perm.mem_iff, List.mem_append]
  right
  rw [first] at chain
  cases used with
  | nil => cases chain
  | cons p used =>
      rcases chain with ⟨rfl, _, rest⟩
      rw [next] at rest
      cases used with
      | nil => cases rest
      | cons q used =>
          rcases rest with ⟨rfl, _⟩
          simp

end PreciseGc

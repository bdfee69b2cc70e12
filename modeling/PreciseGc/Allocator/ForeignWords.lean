import PreciseGc.Allocator.Requests

/-!
# What an allocation leaves alone

A critical section of `gcmalloc` hands out at most one block, which is new.  The
other blocks in use are those that were in use before, and the words of mapped
memory that the allocator does not manage stay foreign to it.
-/

namespace PreciseGc

open Foundation Memory

variable {pf : Platform} {h h₁ h₂ h' h'' : Heap} {c c' : Census} {bigs bigs' : List Nat}
  {b d p s x : Nat} {free : List Nat}

/-- Foreign words stay foreign and keep what they hold. -/
def KeepsForeign (pf : Platform) (h h' : Heap) : Prop :=
  ∀ x, Foreign pf h x → Foreign pf h' x ∧ h'.mem x = h.mem x

namespace KeepsForeign

theorem refl (pf : Platform) (h : Heap) : KeepsForeign pf h h := fun _ foreign => ⟨foreign, rfl⟩

theorem trans (first : KeepsForeign pf h h') (second : KeepsForeign pf h' h'') :
    KeepsForeign pf h h'' := by
  intro x foreign
  rcases first x foreign with ⟨foreign', same⟩
  rcases second x foreign' with ⟨foreign'', same'⟩
  exact ⟨foreign'', same'.trans same⟩

end KeepsForeign

/-- The big blocks keep their lengths. -/
theorem Grown.bigLength (grown : Grown pf h c bigs h' c' bigs') (mem : b ∈ bigs) :
    bigLength pf h'.mem b = bigLength pf h.mem b := by
  have header := (grown.kept (bigHeader b) (Or.inr ⟨b, mem, rfl⟩)).2 _ (Nat.le_refl _) (by omega)
  simp only [PreciseGc.bigLength, header]

/-- The words outside all pages and big blocks are what is foreign. -/
theorem Grown.keepsForeign (grown : Grown pf h c bigs h' c' bigs)
    (state : AllocatorState pf h c bigs)
    (outside : ∀ x, Outside pf h c x → Outside pf h' c' x ∧ h'.mem x = h.mem x) :
    KeepsForeign pf h h' := by
  intro x foreign
  rcases state.foreign_iff.mp foreign with ⟨out, away⟩
  rcases outside x out with ⟨out', same⟩
  refine ⟨grown.state.foreign_iff.mpr ⟨out', fun big mem => ?_⟩, same⟩
  rw [grown.bigLength mem]
  exact away big mem

/-- A page that is put into use was free or is newly mapped. -/
theorem Taken.outside (taken : Taken pf 0 h.firstPage h c p free h₁)
    (frame : ∀ x, (∀ q ∈ c.alive, x ≠ q) → h₂.mem x = h₁.mem x)
    (mappings : h₂.mappings = h₁.mappings) (out : Outside pf h c x) :
    Outside pf h₂ ((c.take p free).append p) x ∧ h₂.mem x = h.mem x := by
  have large := pf.pageSize_ge
  rcases taken.untouched.outside x out with ⟨out₁, same⟩
  have pagesEq : ∀ q, q ∈ ((c.take p free).append p).pages ↔ q ∈ (c.take p free).pages := fun q =>
    (Census.append_pages_perm rfl).mem_iff
  refine ⟨⟨?_, fun q mem => out₁.2 q ((pagesEq q).mp mem)⟩, ?_⟩
  · rw [mappings]
    exact out₁.1
  · rw [frame x fun q qMem => ?_, same]
    have := out.2 q (Arena.tiled_pages (Classifying.tiled_of_alive qMem))
    omega

namespace AllocatorState

theorem declined_keepsForeign (state : AllocatorState pf h c bigs)
    (refused : Declined pf 0 h.firstPage h c h') : KeepsForeign pf h h' :=
  (state.declined refused).keepsForeign state refused.untouched.outside

theorem initialised_keepsForeign (state : AllocatorState pf h c bigs)
    (taken : Taken pf 0 h.firstPage h c p free h₁) (empty : c.alive = []) :
    KeepsForeign pf h { h₁ with firstPage := p, lastPage := p } := by
  apply (state.initialised taken empty).keepsForeign state
  exact fun x => taken.outside (fun x _ => rfl) rfl

theorem appended_keepsForeign (state : AllocatorState pf h c bigs)
    (taken : Taken pf 0 h.firstPage h c p free h₁) (nonempty : c.alive ≠ []) :
    KeepsForeign pf h { h₁ with mem := setPageNext h₁.mem h₁.lastPage p, lastPage := p } := by
  have lastMem : h₁.lastPage ∈ c.alive := by
    rw [taken.lists.lastPage, state.arena.lastPage, List.getLastD_eq_getLast?,
      List.getLast?_eq_getLast_of_ne_nil nonempty]
    exact List.getLast_mem nonempty
  apply (state.appended taken nonempty).keepsForeign state
  exact fun x => taken.outside (fun x notLink => write_of_ne (notLink _ lastMem)) rfl

/-- A block is cut from a page in use. -/
theorem mallocInPage_keepsForeign (state : AllocatorState pf h c bigs) (pMem : p ∈ c.alive)
    (notFull : pageIsFull pf h.mem p = false) (aligned : s % 8 = 0) (positive : 8 ≤ s)
    (fits : s ≤ h.mem (freeBlock h.mem p)) :
    KeepsForeign pf h { h with mem := (PreciseGc.mallocInPage pf s p h.mem).2 } := by
  have large := pf.pageSize_ge
  have pTiled := Classifying.tiled_of_alive pMem
  have first := (state.arena.pageOk p pTiled).first_le_free
  have inside := (state.arena.pageOk p pTiled).inside
  have allocated := (state.arena.mallocInPage pTiled notFull aligned positive fits).2
  apply (state.mallocInPage pMem notFull aligned positive fits).1.keepsForeign state
  intro x out
  have := out.2 p (Arena.tiled_pages pTiled)
  exact ⟨out, allocated.frame x (by omega) (by omega)⟩

/-- A fresh mapping contains no word that was mapped before. -/
theorem mapBig_keepsForeign (state : AllocatorState pf h c bigs) (aligned : s % 8 = 0)
    (fresh : FreshMapping pf.pageSize h.mappings (s + sizeofBigBlock) b)
    (heapEq : h' = { h with
      mmapCalls := h.mmapCalls + 1
      mappings := ⟨b, roundToPages pf.pageSize (s + sizeofBigBlock)⟩ :: h.mappings
      mem := setBigNext ((h.mem.fill b (roundToPages pf.pageSize (s + sizeofBigBlock)) 0).write
        (bigHeader b) s) b h.firstBigBlock
      firstBigBlock := b }) : KeepsForeign pf h h' := by
  have room := le_roundToPages pf (s + sizeofBigBlock)
  rcases state.mapBig aligned fresh heapEq with ⟨grown, served⟩
  intro x foreign
  rcases state.foreign_iff.mp foreign with ⟨⟨⟨r, rMem, contains⟩, pages⟩, away⟩
  have apart := fresh.unmapped r rMem x contains
  have length : bigLength pf h'.mem b = roundToPages pf.pageSize (s + sizeofBigBlock) := by
    simp only [bigLength, served.header, blockSize_of_aligned aligned]
  refine ⟨grown.state.foreign_iff.mpr ⟨⟨⟨r, ?_, contains⟩, pages⟩, fun big mem => ?_⟩, ?_⟩
  · rw [heapEq]
    exact List.mem_cons_of_mem _ rMem
  · rcases List.mem_cons.mp mem with rfl | old
    · rw [length]
      exact apart
    · rw [grown.bigLength old]
      exact away big old
  · rw [heapEq]
    simp only [sizeofBigBlock, setBigNext, bigHeader] at room apart ⊢
    rw [write_of_ne (by omega), write_of_ne (by omega), fill_of_not_mem apart]

end AllocatorState

/-- An allocation of `size` bytes yields the null pointer or the data of a new block, and changes no
other block in use and no foreign word. -/
def Supplies (pf : Platform) (h : Heap) (c : Census) (bigs : List Nat) (size : Nat)
    (result : Nat × Heap) : Prop :=
  KeepsForeign pf h result.2 ∧ ∃ c' bigs', Grown pf h c bigs result.2 c' bigs' ∧
    ((result.1 = 0 ∧ ∀ d, c'.Used bigs' d → c.Used bigs d) ∨
      ∃ b, result.1 = blockData b ∧ Served c bigs size b result.2 c' bigs' ∧
        ∀ d, c'.Used bigs' d → c.Used bigs d ∨ d = b)

theorem mallocInternal_supplies (state : AllocatorState pf h c bigs) (hasPage : h.firstPage ≠ 0)
    (aligned : s % 8 = 0) (positive : 8 ≤ s) (bounded : s + sizeofBigBlock < wordSpace)
    (expand : Bool) :
    Yields (· = Fault.mapFailed) (Supplies pf h c bigs s) (mallocInternal pf s expand h) := by
  have nonempty : c.alive ≠ [] := fun nil =>
    hasPage (state.arena.aliveChain.head_eq_zero_iff.mpr nil)
  have lastMem : h.lastPage ∈ c.alive := by
    rw [state.arena.lastPage, List.getLastD_eq_getLast?,
      List.getLast?_eq_getLast_of_ne_nil nonempty]
    exact List.getLast_mem nonempty
  unfold mallocInternal
  split
  · rename_i isBig
    rw [Nat.mod_eq_of_lt bounded]
    cases answer : pf.mmap h.mmapCalls h.mappings (s + sizeofBigBlock) with
    | none =>
        rw [morecore_big_of_none answer]
        have counted : AllocatorState pf { h with mmapCalls := h.mmapCalls + 1 } c bigs :=
          { state with arena := { state.arena with }, big := { state.big with } }
        have grown : Grown pf h c bigs { h with mmapCalls := h.mmapCalls + 1 } c bigs :=
          ⟨counted, (Grown.refl state).kept⟩
        exact ⟨grown.keepsForeign state fun _ out => ⟨out, rfl⟩, c, bigs, grown,
          Or.inl ⟨rfl, fun _ used => used⟩⟩
    | some b =>
        rw [morecore_big_of_some answer]
        have fresh := pf.mmap_fresh answer
        rcases state.mapBig aligned fresh rfl with ⟨grown, served⟩
        refine ⟨state.mapBig_keepsForeign aligned fresh rfl, c, b :: bigs, grown,
          Or.inr ⟨bigHeader b, rfl, served, fun d used => ?_⟩⟩
        rcases used with inPage | ⟨big, mem, rfl⟩
        · exact Or.inl (Or.inl inPage)
        · rcases List.mem_cons.mp mem with rfl | old
          · exact Or.inr rfl
          · exact Or.inl (Or.inr ⟨big, old, rfl⟩)
  · rename_i isSmall
    split
    · apply (requestNewPage_yields state.arena state.heldNil expand).bind
      rintro ⟨newPage, h₁⟩ (⟨isNull, refused⟩ | ⟨free, taken⟩)
      · dsimp only at isNull refused
        subst isNull
        -- the null link is written to the last page, which has no successor
        have last : pageNext h₁.mem h₁.lastPage = 0 := by
          rw [refused.lists.lastPage, state.arena.lastPage]
          exact refused.arena.aliveChain.next_getLastD nonempty
        have same : setPageNext h₁.mem h₁.lastPage 0 = h₁.mem := by
          funext x
          by_cases atLast : x = h₁.lastPage
          · subst atLast
            exact (write_same ..).trans last.symm
          · exact write_of_ne atLast
        simp only [↓reduceIte, same]
        exact ⟨state.declined_keepsForeign refused, c, bigs, state.declined refused,
          Or.inl ⟨rfl, fun _ used => used⟩⟩
      · dsimp only at taken
        simp only [taken.nonnull, ↓reduceIte]
        have appended := state.appended taken nonempty
        have inUse : newPage ∈ ((c.take newPage free).append newPage).alive := by
          simp [Census.append]
        have empty : ((c.take newPage free).append newPage).blocks newPage = [] := by
          simp [Census.append, Census.take]
        have ok := appended.state.arena.pageOk newPage (Classifying.tiled_of_alive inUse)
        rw [empty] at ok
        have room := ok.room_of_nil
        have fits : s ≤ pf.bigBlockThreshold := Nat.not_lt.mp isSmall
        rw [← room.2] at fits
        rcases appended.state.mallocInPage inUse room.1 aligned positive fits with ⟨grown, served⟩
        refine ⟨(state.appended_keepsForeign taken nonempty).trans
            (appended.state.mallocInPage_keepsForeign inUse room.1 aligned positive fits), _, _,
          appended.trans grown, Or.inr ⟨_, rfl, served.of_kept appended, fun d used => ?_⟩⟩
        exact (Census.used_of_grow used).imp Census.used_of_append_take id
    · rename_i fits
      simp only [Bool.or_eq_true, decide_eq_true_eq, not_or, Bool.not_eq_true] at fits
      have lastTiled := Classifying.tiled_of_alive lastMem
      have tail := (state.arena.pageOk _ lastTiled).tail_bounds
        (mod_eight_of_page (state.arena.aligned _ (Arena.tiled_pages lastTiled))) fits.1
      have room : s ≤ h.mem (freeBlock h.mem h.lastPage) := by
        have := fits.2
        omega
      rcases state.mallocInPage lastMem fits.1 aligned positive room with ⟨grown, served⟩
      exact ⟨state.mallocInPage_keepsForeign lastMem fits.1 aligned positive room, _, _, grown,
        Or.inr ⟨_, rfl, served, fun d => Census.used_of_grow⟩⟩

theorem initFirstPage_keepsForeign (state : AllocatorState pf h c bigs) :
    Yields (fun _ => True) (fun result => KeepsForeign pf h result.2) (initFirstPage pf h) := by
  unfold initFirstPage
  split
  · rename_i noPage
    have empty : c.alive = [] := state.arena.aliveChain.head_eq_zero_iff.mp noPage
    apply ((requestNewPage_yields state.arena state.heldNil true).permit fun _ _ => trivial).bind
    rintro ⟨newPage, h₁⟩ (⟨isNull, refused⟩ | ⟨free, taken⟩)
    · dsimp only at isNull refused
      subst isNull
      have firstPage : h₁.firstPage = 0 := refused.lists.firstPage.trans noPage
      have same : ({ h₁ with firstPage := 0 } : Heap) = h₁ := by
        rw [← firstPage]
      simp only [↓reduceIte, same]
      exact state.declined_keepsForeign refused
    · dsimp only at taken
      simp only [taken.nonnull, ↓reduceIte]
      exact state.initialised_keepsForeign taken empty
  · exact KeepsForeign.refl pf h

/-- What a critical section of `gcmalloc` does to the blocks in use and to foreign words. -/
theorem gcmallocLocked_supplies (state : AllocatorState pf h c bigs) (bounded : s < 2 ^ 63)
    (expand : Bool) :
    Yields (fun _ => True) (Supplies pf h c bigs (align s)) (gcmallocLocked pf s expand h) := by
  have size := align_spec bounded
  unfold gcmallocLocked
  apply (((initFirstPage_yields state).permit fun _ _ => trivial).and
    (initFirstPage_keepsForeign state)).bind
  rintro ⟨hasPage, h₁⟩ ⟨⟨⟨c₁, grown, only⟩, first⟩, keeps⟩
  dsimp only at grown first keeps
  cases hasPage with
  | false => exact ⟨keeps, c₁, bigs, grown, Or.inl ⟨rfl, only⟩⟩
  | true =>
      apply ((mallocInternal_supplies grown.state (first rfl) size.1 (by omega) size.2.2
        expand).permit fun _ _ => trivial).mono
      rintro ⟨p, h'⟩ ⟨keeps', c', bigs', grown', answer⟩
      refine ⟨keeps.trans keeps', c', bigs', grown.trans grown', ?_⟩
      rcases answer with ⟨null, noNew⟩ | ⟨b, eq, served, single⟩
      · exact Or.inl ⟨null, fun d used => only d (noNew d used)⟩
      · exact Or.inr ⟨b, eq, served.of_kept grown, fun d used => (single d used).imp (only d) id⟩

end PreciseGc

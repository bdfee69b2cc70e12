import PreciseGc.Allocator.Gcmalloc

/-!
# What a small request consumes

The rounding of `gcmalloc` always adds: the test for multiples of eight in the
macro `align` is never true.  A request for a multiple of eight consumes eight
bytes more than it needs, and one that fills a page exactly is given a mapping
of its own.
-/

namespace PreciseGc

open Foundation Memory

variable {pf : Platform} {gc : Heap → Except Fault Heap} {h h' : Heap} {c c' : Census}
  {bigs bigs' : List Nat} {q b p s m n : Nat} {expand : Bool} {r : GcmallocReturn}

/-- The least multiple of eight that is not below `s`. -/
def roundUp (s : Nat) : Nat := (s + 7) / 8 * 8

theorem roundUp_least (s : Nat) :
    8 ∣ roundUp s ∧ s ≤ roundUp s ∧ ∀ t, 8 ∣ t → s ≤ t → roundUp s ≤ t := by
  unfold roundUp
  refine ⟨Nat.dvd_mul_left .., by omega, ?_⟩
  rintro _ ⟨k, rfl⟩ above
  omega

/-- `align` rounds up, and adds eight to a multiple of eight. -/
theorem align_eq (bounded : roundUp s + sizeofBlock < wordSpace) :
    align s = if s % 8 = 0 then roundUp s + 8 else roundUp s := by
  simp only [align, roundUp, sizeofBlock, wordSpace] at *
  split
  · rw [Nat.mod_eq_of_lt (by omega)]
    omega
  · rw [Nat.mod_eq_of_lt (by omega)]
    omega

/-- A page of the list `first_page`. -/
def PageInUse (h : Heap) (q : Nat) : Prop :=
  ∃ pages, Chain (pageNext h.mem) h.firstPage pages ∧ q ∈ pages

theorem AllocatorOk.pageInUse_iff (ok : AllocatorOk pf h c bigs) : PageInUse h q ↔ q ∈ c.alive := by
  constructor
  · rintro ⟨pages, chain, mem⟩
    exact chain.unique ok.arena.aliveChain ▸ mem
  · intro mem
    exact ⟨c.alive, ok.arena.aliveChain, mem⟩

/-- The free tail of the page starts at `b`, where a page that is not in use is empty. -/
def TailStart (h : Heap) (q b : Nat) : Prop :=
  (PageInUse h q ∧ freeBlock h.mem q = b) ∨ (¬PageInUse h q ∧ firstBlock q = b)

/-- A request has been served by cutting `bytes` bytes off the free tail of a page, and no mapping
has been made for it. -/
structure ServedFromPage (h h' : Heap) (bytes p : Nat) : Prop where
  noMapping : h'.firstBigBlock = h.firstBigBlock
  page : ∃ q, PageInUse h' q ∧ TailStart h q (getBlock p) ∧ TailStart h' q (getBlock p + bytes)

/-- A free tail starts behind the page's header, and not behind the page. -/
theorem AllocatorOk.tailStart_bounds (ok : AllocatorOk pf h c bigs) (starts : TailStart h q b) :
    q + 16 ≤ b ∧ b ≤ q + pf.pageSize := by
  have large := pf.pageSize_ge
  rcases starts with ⟨inUse, rfl⟩ | ⟨_, rfl⟩
  · have pageOk := ok.arena.pageOk q (Classifying.tiled_of_alive (ok.pageInUse_iff.mp inUse))
    exact ⟨pageOk.first_le_free, pageOk.inside⟩
  · simp only [firstBlock, sizeofPage]
    omega

/-- The consumption is determined by the pointer. -/
theorem ServedFromPage.unique (before : AllocatorOk pf h c bigs)
    (after : AllocatorOk pf h' c' bigs')
    (served : ServedFromPage h h' m p) (served' : ServedFromPage h h' n p) : m = n := by
  rcases served.page with ⟨q, inUse, start, stop⟩
  rcases served'.page with ⟨q', inUse', start', stop'⟩
  have same : q = q' := by
    by_contra different
    have bounds := before.tailStart_bounds start
    have bounds' := before.tailStart_bounds start'
    have := after.arena.apart
      (Arena.tiled_pages (Classifying.tiled_of_alive (after.pageInUse_iff.mp inUse)))
      (Arena.tiled_pages (Classifying.tiled_of_alive (after.pageInUse_iff.mp inUse'))) different
    omega
  subst same
  rcases stop with ⟨_, stop⟩ | ⟨unused, _⟩
  · rcases stop' with ⟨_, stop'⟩ | ⟨unused, _⟩
    · omega
    · exact absurd inUse unused
  · exact absurd inUse unused

/-- What a successful attempt with a size that has been rounded has done. -/
def Consumed (pf : Platform) (h : Heap) (size : Nat) (result : Nat × Heap) : Prop :=
  result.1 ≠ 0 →
    (size ≤ pf.bigBlockThreshold → ServedFromPage h result.2 (size + sizeofBlock) result.1) ∧
      (pf.bigBlockThreshold < size → result.2.firstBigBlock ≠ h.firstBigBlock)

namespace AllocatorState

/-- `malloc_in_page` consumes the size and the header. -/
theorem mallocInPage_consumes (state : AllocatorState pf h c bigs) (pMem : p ∈ c.alive)
    (notFull : pageIsFull pf h.mem p = false) (aligned : s % 8 = 0) (positive : 8 ≤ s)
    (fits : s ≤ h.mem (freeBlock h.mem p)) :
    PageInUse { h with mem := (PreciseGc.mallocInPage pf s p h.mem).2 } p ∧
      TailStart { h with mem := (PreciseGc.mallocInPage pf s p h.mem).2 } p
        (freeBlock h.mem p + (s + sizeofBlock)) := by
  have grown := (state.mallocInPage pMem notFull aligned positive fits).1
  have inUse : PageInUse { h with mem := (PreciseGc.mallocInPage pf s p h.mem).2 } p :=
    grown.state.pageInUse_iff.mpr pMem
  have allocated := (state.arena.mallocInPage (Classifying.tiled_of_alive pMem) notFull aligned
    positive fits).2
  refine ⟨inUse, Or.inl ⟨inUse, ?_⟩⟩
  rw [allocated.free, sizeofBlock]
  omega

/-- A big block is not one of the others. -/
theorem firstBigBlock_ne (state : AllocatorState pf h c bigs)
    (fresh : FreshMapping pf.pageSize h.mappings m b) : b ≠ h.firstBigBlock := by
  rintro rfl
  cases bigsEq : bigs with
  | nil =>
      have chain := state.big.chain
      rw [bigsEq] at chain
      exact absurd chain (Nat.ne_of_gt fresh.nonnull)
  | cons first rest =>
      have chain := state.big.chain
      rw [bigsEq] at chain
      have mapped := state.big.mapped first (by simp [bigsEq])
      have positive := state.regions _ mapped
      have apart := fresh.unmapped _ mapped first ⟨Nat.le_refl _, by dsimp only at *; omega⟩
      have := roundToPages_pos pf fresh.nonempty
      have := chain.1
      omega

theorem mallocInternal_consumes (state : AllocatorState pf h c bigs) (hasPage : h.firstPage ≠ 0)
    (aligned : s % 8 = 0) (positive : 8 ≤ s) (expand : Bool) :
    Yields (fun _ => True) (Consumed pf h s) (mallocInternal pf s expand h) := by
  have nonempty : c.alive ≠ [] := fun nil =>
    hasPage (state.arena.aliveChain.head_eq_zero_iff.mpr nil)
  have lastMem : h.lastPage ∈ c.alive := by
    rw [state.arena.lastPage, List.getLastD_eq_getLast?,
      List.getLast?_eq_getLast_of_ne_nil nonempty]
    exact List.getLast_mem nonempty
  unfold mallocInternal
  split
  · rename_i isBig
    cases answer : pf.mmap h.mmapCalls h.mappings ((s + sizeofBigBlock) % wordSpace) with
    | none =>
        rw [morecore_big_of_none answer]
        exact fun nonnull => absurd rfl nonnull
    | some b =>
        rw [morecore_big_of_some answer]
        intro _
        exact ⟨fun small => absurd isBig (Nat.not_lt.mpr small),
          fun _ => state.firstBigBlock_ne (pf.mmap_fresh answer)⟩
  · rename_i isSmall
    split
    · apply ((requestNewPage_yields state.arena state.heldNil expand).permit
        fun _ _ => trivial).bind
      rintro ⟨newPage, h₁⟩ (⟨isNull, refused⟩ | ⟨free, taken⟩)
      · dsimp only at isNull
        subst isNull
        exact fun nonnull => absurd rfl nonnull
      · dsimp only at taken
        simp only [taken.nonnull, ↓reduceIte]
        intro _
        refine ⟨fun small => ?_, fun big => absurd big isSmall⟩
        have appended := state.appended taken nonempty
        have inUse : newPage ∈ ((c.take newPage free).append newPage).alive := by
          simp [Census.append]
        have empty : ((c.take newPage free).append newPage).blocks newPage = [] := by
          simp [Census.append, Census.take]
        have ok := appended.state.arena.pageOk newPage (Classifying.tiled_of_alive inUse)
        rw [empty] at ok
        have room := ok.room_of_nil
        have tail := appended.state.mallocInPage_consumes inUse room.1 aligned positive
          (room.2.symm ▸ small)
        have unused : ¬PageInUse h newPage := fun used =>
          taken.fresh (Classifying.tiled_of_alive (state.pageInUse_iff.mp used))
        exact ⟨taken.lists.firstBigBlock, newPage, tail.1, Or.inr ⟨unused, ok.tiles⟩, tail.2⟩
    · rename_i fits
      simp only [Bool.or_eq_true, decide_eq_true_eq, not_or, Bool.not_eq_true] at fits
      have lastTiled := Classifying.tiled_of_alive lastMem
      have tail := (state.arena.pageOk _ lastTiled).tail_bounds
        (mod_eight_of_page (state.arena.aligned _ (Arena.tiled_pages lastTiled))) fits.1
      have room : s ≤ h.mem (freeBlock h.mem h.lastPage) := by
        have := fits.2
        omega
      have consumed := state.mallocInPage_consumes lastMem fits.1 aligned positive room
      intro _
      refine ⟨fun _ => ⟨rfl, h.lastPage, consumed.1, ?_, consumed.2⟩, fun big => absurd big isSmall⟩
      exact Or.inl ⟨state.pageInUse_iff.mpr lastMem, rfl⟩

/-- The page that `initFirstPage` provides is empty. -/
theorem initFirstPage_tails (state : AllocatorState pf h c bigs) :
    Yields (fun _ => True)
      (fun first => first.2.firstBigBlock = h.firstBigBlock ∧
        (first.1 = true → ∀ q b, TailStart first.2 q b → TailStart h q b))
      (initFirstPage pf h) := by
  unfold initFirstPage
  split
  · rename_i noPage
    have empty : c.alive = [] := state.arena.aliveChain.head_eq_zero_iff.mp noPage
    apply ((requestNewPage_yields state.arena state.heldNil true).permit fun _ _ => trivial).bind
    rintro ⟨newPage, h₁⟩ (⟨isNull, refused⟩ | ⟨free, taken⟩)
    · dsimp only at isNull refused
      subst isNull
      exact ⟨refused.lists.firstBigBlock, fun never => by cases never⟩
    · dsimp only at taken
      simp only [taken.nonnull, ↓reduceIte]
      refine ⟨taken.lists.firstBigBlock, fun _ q b starts => Or.inr ⟨?_, ?_⟩⟩
      · rw [state.pageInUse_iff, empty]
        exact List.not_mem_nil
      · have state' := (state.initialised taken empty).state
        rcases starts with ⟨inUse, rfl⟩ | ⟨_, start⟩
        · have isNew := state'.pageInUse_iff.mp inUse
          simp only [Census.append, Census.take, empty, List.nil_append,
            List.mem_singleton] at isNew
          subst isNew
          have ok := state'.arena.pageOk q (Classifying.tiled_of_alive (by simp [Census.append]))
          simp only [Census.append, Census.take, Function.update_self] at ok
          exact ok.tiles
        · exact start
  · exact ⟨rfl, fun _ q b starts => starts⟩

end AllocatorState

/-- An allocator with pages has room for two of their size. -/
theorem AllocatorState.pageSize_le (state : AllocatorState pf h c bigs)
    (hasPage : h.firstPage ≠ 0) : pf.pageSize ≤ 2 ^ 63 := by
  cases alive : c.alive with
  | nil => exact absurd (state.arena.aliveChain.head_eq_zero_iff.mpr alive) hasPage
  | cons p rest =>
      have chain := state.arena.aliveChain
      rw [alive] at chain
      have inPages : p ∈ c.pages := by simp [Census.pages, alive]
      have above := Nat.le_of_dvd (Nat.pos_of_ne_zero chain.2.1) (state.arena.aligned p inPages)
      have below := state.arena.bounded p inPages
      simp only [wordSpace] at below
      omega

/-- A critical section cuts the rounded size off a page, or maps a big block. -/
theorem gcmallocLocked_consumes (state : AllocatorState pf h c bigs) (bounded : s < 2 ^ 63)
    (expand : Bool) :
    Yields (fun _ => True) (Consumed pf h (align s)) (gcmallocLocked pf s expand h) := by
  have size := align_spec bounded
  unfold gcmallocLocked
  apply (((initFirstPage_yields state).permit fun _ _ => trivial).and
    state.initFirstPage_tails).bind
  rintro ⟨hasPage, h₁⟩ ⟨⟨⟨c₁, grown, -⟩, first⟩, sameBig, tails⟩
  dsimp only at grown first sameBig tails
  cases hasPage with
  | false => exact fun nonnull => absurd rfl nonnull
  | true =>
      apply (grown.state.mallocInternal_consumes (first rfl) size.1 (by omega) expand).mono
      rintro ⟨p, h'⟩ consumed nonnull
      rcases consumed nonnull with ⟨small, big⟩
      refine ⟨fun isSmall => ?_, fun isBig => sameBig ▸ big isBig⟩
      rcases small isSmall with ⟨noMapping, q, inUse, start, stop⟩
      exact ⟨noMapping.trans sameBig, q, inUse, tails rfl q _ start, stop⟩

theorem gcmallocLocked_pageSize (state : AllocatorState pf h c bigs) (expand : Bool) :
    Yields (fun _ => True) (fun result => result.1 ≠ 0 → pf.pageSize ≤ 2 ^ 63)
      (gcmallocLocked pf s expand h) := by
  unfold gcmallocLocked
  apply ((initFirstPage_yields state).permit fun _ _ => trivial).bind
  rintro ⟨hasPage, h₁⟩ ⟨⟨c₁, grown, -⟩, first⟩
  cases hasPage with
  | false => exact fun nonnull => absurd rfl nonnull
  | true =>
      have fits := grown.state.pageSize_le (first rfl)
      change Yields _ _ (mallocInternal pf (align s) expand h₁)
      cases mallocInternal pf (align s) expand h₁ with
      | error fault => trivial
      | ok served => exact fun _ => fits

/-- A critical section serves a request for at most a page minimally if and only if it is not for a
multiple of eight. -/
theorem gcmallocLocked_minimal_iff (state : AllocatorState pf h c bigs)
    (small : roundUp s ≤ pf.bigBlockThreshold) (eq : gcmallocLocked pf s expand h = .ok (p, h'))
    (succeeded : p ≠ 0) :
    ServedFromPage h h' (roundUp s + sizeofBlock) p ↔ s % 8 ≠ 0 := by
  have fits := (gcmallocLocked_pageSize state expand).of_ok eq succeeded
  have atLeast := (roundUp_least s).2.1
  have threshold := pf.bigBlockThreshold_add
  have bounded : s < 2 ^ 63 := by omega
  have rounded : align s = if s % 8 = 0 then roundUp s + 8 else roundUp s := by
    apply align_eq
    simp only [sizeofBlock, wordSpace]
    omega
  have consumed := (gcmallocLocked_consumes state bounded expand).of_ok eq succeeded
  rcases (gcmallocLocked_yields state bounded expand).of_ok eq with ⟨⟨c', bigs', grown, _⟩, -⟩
  constructor
  · intro served multiple
    rw [if_pos multiple] at rounded
    rcases Nat.lt_or_ge pf.bigBlockThreshold (align s) with isBig | isSmall
    · exact consumed.2 isBig served.noMapping
    · have same := served.unique state.toAllocatorOk grown.state.toAllocatorOk (consumed.1 isSmall)
      simp only [sizeofBlock] at same
      omega
  · intro notMultiple
    rw [if_neg notMultiple] at rounded
    rw [rounded] at consumed
    exact consumed.1 small

/-- A call that returns a pointer has it from a critical section. -/
theorem gcmalloc_served (eq : gcmalloc pf gc s h = .ok r) (succeeded : r.result ≠ 0) :
    ∃ expand, gcmallocLocked pf s expand (r.entered h) = .ok (r.result, r.heap) := by
  unfold gcmalloc at eq
  rcases bind_eq_ok eq with ⟨first, firstEq, rest⟩
  split at rest
  · cases rest
    exact absurd rfl succeeded
  · split at rest
    · rcases bind_eq_ok rest with ⟨collected, _, rest⟩
      rcases bind_eq_ok rest with ⟨second, secondEq, last⟩
      split at last
      · cases last
        exact absurd rfl succeeded
      · rcases bind_eq_ok last with ⟨_, _, last⟩
        cases last
        refine ⟨true, ?_⟩
        rw [gcmallocLocked_eq]
        exact congrArg (Except.map _) secondEq
    · cases rest
      refine ⟨false, ?_⟩
      rw [gcmallocLocked_eq]
      exact congrArg (Except.map _) firstEq

/-- A call serves a request for at most a page minimally if and only if it is not for a multiple of
eight. -/
theorem gcmalloc_minimal_iff (state : AllocatorState pf (r.entered h) c bigs)
    (small : roundUp s ≤ pf.bigBlockThreshold) (eq : gcmalloc pf gc s h = .ok r)
    (succeeded : r.result ≠ 0) :
    ServedFromPage (r.entered h) r.heap (roundUp s + sizeofBlock) r.result ↔ s % 8 ≠ 0 := by
  rcases gcmalloc_served eq succeeded with ⟨expand, critical⟩
  exact gcmallocLocked_minimal_iff state small critical succeeded

/-- The first request of a process is served from its first page. -/
theorem startHeap_served (s : Nat) (request : s = 40 ∨ s = 41) : Yields (fun _ => False)
    (fun r => r.result ≠ 0 ∧ r.collection.isNone = true) (gcmalloc oneMapping .ok s startHeap) := by
  rcases request with rfl | rfl
  · decide +kernel
  · decide +kernel

theorem startHeap_state : AllocatorState oneMapping startHeap {} [] :=
  Initial.allocatorState ⟨_, _, rfl, by decide⟩

theorem gcmalloc_minimal_iff_startHeap : ∃ r, gcmalloc oneMapping .ok 41 startHeap = .ok r ∧
    ServedFromPage startHeap r.heap 56 r.result := by
  rcases (startHeap_served 41 (Or.inr rfl)).total with ⟨r, eq, succeeded, direct⟩
  have entered : r.entered startHeap = startHeap := by
    rw [GcmallocReturn.entered, Option.isNone_iff_eq_none.mp direct]
    rfl
  have state : AllocatorState oneMapping (r.entered startHeap) {} [] := by
    rw [entered]
    exact startHeap_state
  have served := (gcmalloc_minimal_iff state (by decide) eq succeeded).mpr (by decide)
  rw [entered] at served
  exact ⟨r, eq, served⟩

/-- A request for 40 bytes does not consume 48 bytes of its page. -/
theorem gcmalloc_notMinimal : ∃ r, gcmalloc oneMapping .ok 40 startHeap = .ok r ∧
    r.result ≠ 0 ∧ ¬ServedFromPage startHeap r.heap (40 + sizeofBlock) r.result := by
  rcases (startHeap_served 40 (Or.inl rfl)).total with ⟨r, eq, succeeded, direct⟩
  refine ⟨r, eq, succeeded, ?_⟩
  have entered : r.entered startHeap = startHeap := by
    rw [GcmallocReturn.entered, Option.isNone_iff_eq_none.mp direct]
    rfl
  rcases gcmalloc_served eq succeeded with ⟨expand, critical⟩
  rw [entered] at critical
  intro served
  exact (gcmallocLocked_minimal_iff startHeap_state (by decide) critical succeeded).mp served rfl

end PreciseGc

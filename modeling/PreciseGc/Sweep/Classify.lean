import PreciseGc.Heap.Buckets
import PreciseGc.Heap.Traversal
import PreciseGc.Sweep.Evacuate

/-!
# The first pass

The pass moves every page with a pinned block from `first_page` to the front of
`alive_pages`, rewrites the headers of its blocks and links its free tail into
the buckets.  The pages left behind keep their order and their contents.
-/

namespace PreciseGc

open Foundation Memory

variable {pf : Platform} {h₀ h' : Heap} {c₀ c c' : Census} {p b : Nat} {kept todo : List Nat}
  {s : SweepState}

/-- Some block of the page is pinned. -/
def HasPinned (m : Memory) (c : Census) (p : Nat) : Prop :=
  ∃ d ∈ c.blocks p, blockIsPinned (m d) = true

/-- The state of the first pass: of the pages of `c₀.fromSpace`, those in `kept` have no pinned
block, those in `c.alive` have one, and those in `todo` are still to be visited. -/
structure Classifying (pf : Platform) (h₀ : Heap) (c₀ : Census) (kept todo : List Nat)
    (s : SweepState) (c : Census) : Prop where
  arena : Arena pf s.heap.firstPage s.alivePages s.heap c
  heldNil : c.held = []
  fromSpace : c.fromSpace = kept ++ todo
  blocks : c.blocks = c₀.blocks
  freeEq : c.free = c₀.free
  perm : c.pages.Perm c₀.pages
  prevPage : s.prevPage = kept.getLastD 0
  buckets : Buckets pf s.heap (· ∈ c.alive)
  maxBound : s.heap.maxFreeBlock ≤ pf.bigBlockThreshold
  unpinned : ∀ q ∈ kept, ¬HasPinned h₀.mem c₀ q
  pinned : ∀ q ∈ c.alive, HasPinned h₀.mem c₀ q
  fromFrame : ∀ q ∈ c.fromSpace, AgreeOn h₀.mem s.heap.mem (q + 8) (q + pf.pageSize)
  aliveHeader : ∀ q ∈ c.alive, ∀ d ∈ c₀.blocks q, s.heap.mem d = retainedHeader (h₀.mem d)
  aliveData : ∀ q ∈ c.alive, ∀ d ∈ c₀.blocks q, ∀ o < blockSize (h₀.mem d),
    s.heap.mem (d + 8 + o) = h₀.mem (d + 8 + o)
  offPages : ∀ x, (∀ q ∈ c₀.pages, x < q ∨ q + pf.pageSize ≤ x) → s.heap.mem x = h₀.mem x
  mappings : s.heap.mappings = h₀.mappings
  firstBigBlock : s.heap.firstBigBlock = h₀.firstBigBlock
  metaReads : s.heap.metaReads = h₀.metaReads

namespace Classifying

theorem mem_fromSpace (inv : Classifying pf h₀ c₀ kept todo s c) (mem : p ∈ kept ++ todo) :
    p ∈ c.fromSpace := by
  rw [inv.fromSpace]
  exact mem

theorem tiled_of_fromSpace (mem : p ∈ c.fromSpace) : p ∈ c.tiled := by simp [Census.tiled, mem]

theorem tiled_of_alive (mem : p ∈ c.alive) : p ∈ c.tiled := by simp [Census.tiled, mem]

/-- The page on top of the list still to be visited holds no pinned block. -/
theorem keep (inv : Classifying pf h₀ c₀ kept (p :: todo) s c)
    (none : ¬HasPinned h₀.mem c₀ p) :
    Classifying pf h₀ c₀ (kept ++ [p]) todo { s with prevPage := p } c :=
  { inv with
    fromSpace := by rw [inv.fromSpace]; simp
    prevPage := by simp [List.getLastD_eq_getLast?]
    unpinned := by
      intro q mem
      rcases List.mem_append.mp mem with old | new
      · exact inv.unpinned q old
      · rw [List.mem_singleton.mp new]
        exact none }

/-- The census after the page has become the first page in use. -/
def retain (c : Census) (kept todo : List Nat) (p : Nat) : Census :=
  { c with fromSpace := kept ++ todo, alive := p :: c.alive }

theorem retain_pages_perm (fromSpace : c.fromSpace = kept ++ p :: todo) :
    (retain c kept todo p).pages.Perm c.pages := by
  simp only [Census.pages, retain, fromSpace]
  refine List.Perm.append_right c.free ?_
  simp only [List.append_assoc, List.cons_append]
  exact List.Perm.append_left c.held (List.Perm.append_left kept List.perm_middle)

/-- The links after the page has been moved from `first_page` to `alive_pages`. -/
structure Unlinked (pf : Platform) (s : SweepState) (c : Census) (kept todo : List Nat) (p : Nat)
    (s' : SweepState) : Prop where
  arena : Arena pf s'.heap.firstPage s'.alivePages s'.heap (retain c kept todo p)
  alivePages : s'.alivePages = p
  prevPage : s'.prevPage = s.prevPage
  heapEq : s'.heap = { s.heap with
    mem := s'.heap.mem, firstPage := s'.heap.firstPage, lastPage := s'.heap.lastPage }
  frame : ∀ x, (∀ q ∈ c.pages, x ≠ q) → s'.heap.mem x = s.heap.mem x

theorem unlinkPinnedPage_spec (inv : Classifying pf h₀ c₀ kept (p :: todo) s c) :
    Unlinked pf s c kept todo p (unlinkPinnedPage p (pageNext s.heap.mem p) s) := by
  have unique := inv.arena.distinct
  have fromSpace := inv.fromSpace
  have fromUnique : (kept ++ p :: todo).Nodup := by
    simp only [Census.pages, List.append_assoc, inv.heldNil, List.nil_append, fromSpace] at unique
    rw [← List.append_assoc, ← List.append_assoc] at unique
    exact (List.nodup_append'.mp (List.nodup_append'.mp unique).1).1
  have pFrom : p ∈ c.fromSpace := by simp [fromSpace]
  have pNotAlive : p ∉ c.alive := inv.arena.not_mem_alive_of_fromSpace pFrom
  have pPages : p ∈ c.pages := Arena.tiled_pages (tiled_of_fromSpace pFrom)
  have chain := inv.arena.fromChain
  rw [fromSpace] at chain
  have pNonnull : p ≠ 0 := chain.ne_zero (by simp)
  have keptPages : ∀ q ∈ kept, q ∈ c.pages := fun q mem =>
    Arena.tiled_pages (tiled_of_fromSpace (by simp [fromSpace, mem]))
  have prevZero : s.prevPage = 0 ↔ kept = [] := by
    rw [inv.prevPage, List.getLastD_eq_getLast?]
    constructor
    · intro isZero
      by_contra nonempty
      rw [List.getLast?_eq_getLast_of_ne_nil nonempty] at isZero
      exact chain.ne_zero (by simp [List.getLast_mem nonempty]) isZero
    · rintro rfl
      rfl
  have prevLast : ∀ last, kept.getLast? = some last → s.prevPage = last := by
    intro last isLast
    rw [inv.prevPage, List.getLastD_eq_getLast?, isLast]
    rfl
  -- the memory before the link of the page itself is redirected
  obtain ⟨m₁, head, stateEq, redirect, others, headEq⟩ : ∃ m₁ head,
      unlinkPinnedPage p (pageNext s.heap.mem p) s = { s with
        heap := if s.alivePages = 0 then
            { s.heap with mem := setPageNext m₁ p s.alivePages, firstPage := head, lastPage := p }
          else { s.heap with mem := setPageNext m₁ p s.alivePages, firstPage := head }
        alivePages := p } ∧
      (∀ last, kept.getLast? = some last → m₁ last = pageNext s.heap.mem p) ∧
      (∀ x, kept.getLast? ≠ some x → m₁ x = s.heap.mem x) ∧
      head = if kept = [] then pageNext s.heap.mem p else s.heap.firstPage := by
    by_cases isZero : s.prevPage = 0
    · have keptNil := prevZero.mp isZero
      subst keptNil
      refine ⟨s.heap.mem, pageNext s.heap.mem p, ?_, by simp, fun _ _ => rfl, by simp⟩
      simp only [unlinkPinnedPage, isZero, ↓reduceIte, pageNext, setPageNext, write_same]
    · have keptNe : kept ≠ [] := fun nil => isZero (prevZero.mpr nil)
      refine ⟨setPageNext s.heap.mem s.prevPage (pageNext s.heap.mem p), s.heap.firstPage, ?_, ?_,
        ?_, by simp [keptNe]⟩
      · simp only [unlinkPinnedPage, isZero, ↓reduceIte, pageNext, setPageNext, write_same]
      · intro last isLast
        rw [← prevLast last isLast]
        exact write_same ..
      · intro x notLast
        refine write_of_ne ?_
        rintro rfl
        refine notLast ?_
        rw [List.getLast?_eq_getLast_of_ne_nil keptNe, inv.prevPage, List.getLastD_eq_getLast?,
          List.getLast?_eq_getLast_of_ne_nil keptNe]
        rfl
  have frame : ∀ x, (∀ q ∈ c.pages, x ≠ q) → setPageNext m₁ p s.alivePages x = s.heap.mem x := by
    intro x away
    rw [setPageNext, write_of_ne (away p pPages)]
    refine others x fun isLast => ?_
    exact away x (keptPages x (List.mem_of_getLast? isLast)) rfl
  have selfLink : pageNext (setPageNext m₁ p s.alivePages) p = s.alivePages := write_same ..
  have linkEq : ∀ q, q ≠ p → kept.getLast? ≠ some q →
      pageNext (setPageNext m₁ p s.alivePages) q = pageNext s.heap.mem q := by
    intro q other notLast
    simp only [pageNext, setPageNext]
    rw [write_of_ne other, others q notLast]
  have notLastOf : ∀ q, q ∉ c.fromSpace → kept.getLast? ≠ some q := by
    intro q notFrom isLast
    exact notFrom (by simp [fromSpace, List.mem_of_getLast? isLast])
  have pNotKept : p ∉ kept := fun mem => (List.nodup_append'.mp fromUnique).2.2 mem (by simp)
  have aliveNotFrom : ∀ q ∈ c.alive, q ∉ c.fromSpace := fun q mem inFrom =>
    inv.arena.not_mem_alive_of_fromSpace inFrom mem
  have freeNotFrom : ∀ q ∈ c.free, q ∉ c.fromSpace := by
    intro q mem inFrom
    simp only [Census.pages] at unique
    exact (List.nodup_append'.mp unique).2.2 (by simp [inFrom]) mem
  have heapEq : ∀ h', (h' = if s.alivePages = 0 then
        { s.heap with mem := setPageNext m₁ p s.alivePages, firstPage := head, lastPage := p }
      else { s.heap with mem := setPageNext m₁ p s.alivePages, firstPage := head }) →
      h' = { s.heap with
        mem := setPageNext m₁ p s.alivePages, firstPage := head
        lastPage := if s.alivePages = 0 then p else s.heap.lastPage } := by
    rintro h' rfl
    split <;> rfl
  rw [stateEq]
  refine ⟨?_, rfl, rfl, ?_, ?_⟩
  · dsimp only
    rw [heapEq _ rfl]
    refine inv.arena.reassign (retain_pages_perm fromSpace) ?_ rfl rfl rfl rfl rfl ?_ ?_ ?_ ?_ ?_
      inv.arena.freePages
    · intro q mem
      rw [Census.mem_tiled] at mem ⊢
      simp only [retain, fromSpace, List.mem_append, List.mem_cons] at mem ⊢
      tauto
    · intro q mem x lower upper
      refine frame x fun r rPages => ?_
      rintro rfl
      by_cases same : q = x
      · omega
      · have := inv.arena.apart (Arena.tiled_pages mem) rPages same
        omega
    · dsimp only [retain]
      rw [headEq]
      refine chain.unlink fromUnique ?_ ?_
      · intro q mem notLast
        refine linkEq q ?_ notLast
        rintro rfl
        rcases List.mem_append.mp mem with inKept | inTodo
        · exact pNotKept inKept
        · exact (List.nodup_cons.mp (List.nodup_append'.mp fromUnique).2.1).1 inTodo
      · intro last isLast
        have other : last ≠ p := by
          rintro rfl
          exact pNotKept (List.mem_of_getLast? isLast)
        simp only [pageNext, setPageNext]
        rw [write_of_ne other]
        exact redirect last isLast
    · refine ⟨rfl, pNonnull, ?_⟩
      dsimp only
      rw [selfLink]
      refine inv.arena.aliveChain.congr fun q mem => linkEq q ?_ (notLastOf q (aliveNotFrom q mem))
      rintro rfl
      exact pNotAlive mem
    · refine inv.arena.freeChain.congr fun q mem => linkEq q ?_ (notLastOf q (freeNotFrom q mem))
      rintro rfl
      exact freeNotFrom q mem pFrom
    · have aliveNil := inv.arena.aliveChain.head_eq_zero_iff
      dsimp only [retain]
      split
      · rename_i isNull
        rw [aliveNil.mp isNull]
        rfl
      · rename_i nonnull
        rw [inv.arena.lastPage]
        cases aliveEq : c.alive with
        | nil => exact absurd (aliveNil.mpr aliveEq) nonnull
        | cons q rest => simp [List.getLastD_eq_getLast?, List.getLast?_cons]
  · dsimp only
    rw [heapEq _ rfl]
  · intro x away
    dsimp only
    rw [heapEq _ rfl]
    exact frame x away

/-- A byte inside a page is not the address of a page. -/
theorem body_ne {fromHead aliveHead : Nat} {h : Heap} (arena : Arena pf fromHead aliveHead h c)
    {q x : Nat} (inPages : q ∈ c.pages) (lower : q < x) (upper : x < q + pf.pageSize) :
    ∀ r ∈ c.pages, x ≠ r := by
  rintro r rPages rfl
  have := arena.apart inPages rPages (by omega)
  omega

/-- The page moved to `alive_pages` has its headers rewritten and its tail linked. -/
theorem retainPage_spec (inv : Classifying pf h₀ c₀ kept (p :: todo) s c)
    (isPinned : HasPinned h₀.mem c₀ p) {s' : SweepState} {fuel : Nat}
    (unlinked : Unlinked pf s c kept todo p s') (small : pf.bigBlockThreshold < freeBlocksLength)
    (enough : (c₀.blocks p).length < fuel) :
    ∃ h₁ h₂, forBlocks fuel p retainBlock s'.heap = .ok h₁ ∧ linkFreeTail pf p h₁ = .ok h₂ ∧
      Classifying pf h₀ c₀ kept todo { s' with heap := h₂ } (retain c kept todo p) := by
  have pFrom : p ∈ c.fromSpace := by simp [inv.fromSpace]
  have pTiled := tiled_of_fromSpace pFrom
  have pNotAlive : p ∉ c.alive := inv.arena.not_mem_alive_of_fromSpace pFrom
  have pTiled' : p ∈ (retain c kept todo p).tiled := by simp [Census.tiled, retain]
  have pNonnull : p ≠ 0 := inv.arena.fromChain.ne_zero pFrom
  have pAligned := mod_eight_of_page (inv.arena.aligned p (Arena.tiled_pages pTiled))
  have large := pf.pageSize_ge
  have blocksEq : (retain c kept todo p).blocks = c₀.blocks := inv.blocks
  have pagesEq : ∀ q, q ∈ (retain c kept todo p).pages ↔ q ∈ c.pages := fun q =>
    (retain_pages_perm inv.fromSpace).mem_iff
  have aliveTiled : ∀ q ∈ c.alive, q ∈ (retain c kept todo p).tiled := fun q mem => by
    simp [Census.tiled, retain, mem]
  have body : ∀ q ∈ c.pages, ∀ x, q < x → x < q + pf.pageSize → s'.heap.mem x = s.heap.mem x :=
    fun q mem x lower upper => unlinked.frame x (body_ne inv.arena mem lower upper)
  have ok := unlinked.arena.pageOk p pTiled'
  rw [blocksEq] at ok
  -- the headers
  rcases retainBlocks_spec ok enough with ⟨h₁, retained, h₁Eq, headers, others⟩
  have changed : ∀ x, (x < p + 16 ∨ freeBlock s'.heap.mem p ≤ x) → h₁.mem x = s'.heap.mem x := by
    intro x away
    refine others x fun mem => ?_
    have := ok.block_bounds mem
    omega
  have first := ok.first_le_free
  have inside := ok.inside
  have ok₁ : PageOk pf h₁.mem p (c₀.blocks p) :=
    ok.congr (changed _ (by omega)) (fun d mem => by rw [headers d mem, blockSize_retainedHeader])
      (fun _ => changed _ (by omega))
  have arena₁ : Arena pf _ _ h₁ _ := unlinked.arena.change_page
    (by rw [h₁Eq]; exact ⟨rfl, rfl, rfl, rfl, rfl, rfl, rfl⟩) pTiled' ok₁
    (fun x outside => changed x (by omega))
  rw [← blocksEq, Function.update_eq_self] at arena₁
  have buckets' : Buckets pf s'.heap (· ∈ c.alive) := by
    refine inv.buckets.transport (by rw [unlinked.heapEq]) (by rw [unlinked.heapEq])
      (fun _ => Iff.rfl) ?_ ?_
    · intro q mem
      exact body q (Arena.tiled_pages (tiled_of_alive mem)) _ (by omega) (by omega)
    · intro q mem notFull
      have qTiled := tiled_of_alive mem
      have qOk := inv.arena.pageOk q qTiled
      have := qOk.first_le_free
      have := qOk.tail_bounds (mod_eight_of_page (inv.arena.aligned q (Arena.tiled_pages qTiled)))
        notFull
      exact ⟨body q (Arena.tiled_pages qTiled) _ (by omega) (by omega),
        body q (Arena.tiled_pages qTiled) _ (by omega) (by omega)⟩
  have buckets₁ : Buckets pf h₁ (· ∈ c.alive) :=
    buckets'.change_page unlinked.arena aliveTiled (by rw [h₁Eq]) (by rw [h₁Eq])
      (Arena.tiled_pages pTiled') pNotAlive (fun x outside => changed x (by omega))
  have maxBound₁ : h₁.maxFreeBlock ≤ pf.bigBlockThreshold := by
    rw [h₁Eq]
    dsimp only
    rw [unlinked.heapEq]
    exact inv.maxBound
  -- the free tail
  rcases arena₁.linkFreeTail buckets₁ aliveTiled pTiled' pNonnull pNotAlive small maxBound₁ with
    ⟨h₂, linkEq, linked⟩
  have h₂Eq := linked.heapEq
  have frame₂ := linked.frame
  rw [show freeBlock h₁.mem p = freeBlock s'.heap.mem p from changed _ (by omega)] at frame₂
  -- the whole step, seen from the memory before it
  have awayEq : ∀ q ∈ c.pages, q ≠ p → ∀ x, q < x → x < q + pf.pageSize →
      h₂.mem x = s.heap.mem x := by
    intro q mem other x lower upper
    have := inv.arena.apart mem (Arena.tiled_pages pTiled) other
    rw [frame₂ x (by omega), changed x (by omega), body q mem x lower upper]
  have fromNe : ∀ q ∈ (retain c kept todo p).fromSpace, q ∈ c.fromSpace ∧ q ≠ p := by
    intro q mem
    have mem' : q ∈ kept ++ todo := mem
    refine ⟨?_, ?_⟩
    · simp only [inv.fromSpace, List.mem_append, List.mem_cons]
      rcases List.mem_append.mp mem' with inKept | inTodo
      · exact Or.inl inKept
      · exact Or.inr (Or.inr inTodo)
    · rintro rfl
      have := linked.arena.not_mem_alive_of_fromSpace mem
      exact this (by simp [retain])
  have aliveNe : ∀ q ∈ c.alive, q ≠ p := by
    rintro q mem rfl
    exact pNotAlive mem
  have pSame : AgreeOn h₀.mem s.heap.mem (p + 8) (p + pf.pageSize) := inv.fromFrame p pFrom
  have pBlocks : ∀ d ∈ c₀.blocks p, p + 16 ≤ d ∧
      d + 8 + blockSize (h₀.mem d) ≤ freeBlock s'.heap.mem p ∧ s'.heap.mem d = h₀.mem d := by
    intro d mem
    have bounds := ok.block_bounds mem
    have same : s'.heap.mem d = h₀.mem d := by
      rw [body p (Arena.tiled_pages pTiled) d (by omega) (by omega)]
      exact pSame d (by omega) (by omega)
    rw [same] at bounds
    exact ⟨bounds.1, bounds.2.1, same⟩
  refine ⟨h₁, h₂, retained, linkEq, ?_⟩
  refine
    { arena := ?_, heldNil := inv.heldNil, fromSpace := rfl, blocks := blocksEq,
      freeEq := inv.freeEq, perm := (retain_pages_perm inv.fromSpace).trans inv.perm,
      prevPage := unlinked.prevPage.trans inv.prevPage, buckets := ?_, maxBound := linked.maxBound,
      unpinned := inv.unpinned, pinned := ?_, fromFrame := ?_, aliveHeader := ?_, aliveData := ?_,
      offPages := ?_, mappings := ?_, firstBigBlock := ?_, metaReads := ?_ }
  · have firstPage : h₂.firstPage = s'.heap.firstPage := by rw [h₂Eq, h₁Eq]
    dsimp only
    rw [firstPage]
    exact linked.arena
  · refine linked.buckets.transport rfl rfl ?_ (fun _ _ => rfl) (fun _ _ _ => ⟨rfl, rfl⟩)
    intro q
    simp [retain, or_comm]
  · intro q mem
    rcases List.mem_cons.mp mem with rfl | old
    · exact isPinned
    · exact inv.pinned q old
  · intro q mem x lower upper
    rcases fromNe q mem with ⟨qFrom, other⟩
    dsimp only
    rw [awayEq q (Arena.tiled_pages (tiled_of_fromSpace qFrom)) other x (by omega) upper]
    exact inv.fromFrame q qFrom x lower upper
  · intro q mem d dMem
    dsimp only
    rcases List.mem_cons.mp mem with rfl | old
    · have := pBlocks d dMem
      rw [frame₂ d (by omega), headers d dMem, this.2.2]
    · have qTiled := tiled_of_alive old
      have bounds := (inv.arena.pageOk q qTiled).block_bounds (inv.blocks ▸ dMem)
      rw [awayEq q (Arena.tiled_pages qTiled) (aliveNe q old) d (by omega) (by omega)]
      exact inv.aliveHeader q old d dMem
  · intro q mem d dMem o less
    dsimp only
    rcases List.mem_cons.mp mem with rfl | old
    · have := pBlocks d dMem
      have notHeader : d + 8 + o ∉ c₀.blocks q := by
        intro headerMem
        have different : d ≠ d + 8 + o := by omega
        have := ok.tiles.disjoint dMem headerMem different
        simp only [blockExtent, sizeofBlock, (pBlocks d dMem).2.2] at this
        omega
      rw [frame₂ _ (by omega), others _ notHeader,
        body q (Arena.tiled_pages pTiled) _ (by omega) (by omega)]
      exact pSame _ (by omega) (by omega)
    · have qTiled := tiled_of_alive old
      have bounds := (inv.arena.pageOk q qTiled).block_bounds (inv.blocks ▸ dMem)
      rw [inv.aliveHeader q old d dMem, blockSize_retainedHeader] at bounds
      rw [awayEq q (Arena.tiled_pages qTiled) (aliveNe q old) _ (by omega) (by omega)]
      exact inv.aliveData q old d dMem o less
  · intro x away
    have away' : ∀ q ∈ c.pages, x < q ∨ q + pf.pageSize ≤ x := fun q mem =>
      away q (inv.perm.mem_iff.mp mem)
    have := away' p (Arena.tiled_pages pTiled)
    dsimp only
    rw [frame₂ x (by omega), changed x (by omega), unlinked.frame x (fun q mem => by
      have := away' q mem
      omega)]
    exact inv.offPages x away
  · dsimp only
    rw [h₂Eq, h₁Eq]
    dsimp only
    rw [unlinked.heapEq]
    exact inv.mappings
  · dsimp only
    rw [h₂Eq, h₁Eq]
    dsimp only
    rw [unlinked.heapEq]
    exact inv.firstBigBlock
  · dsimp only
    rw [h₂Eq, h₁Eq]
    dsimp only
    rw [unlinked.heapEq]
    exact inv.metaReads

/-- One page of the first pass. -/
theorem classifyPage_spec (inv : Classifying pf h₀ c₀ kept (p :: todo) s c)
    (small : pf.bigBlockThreshold < freeBlocksLength) {fuel : Nat}
    (enough : (c₀.blocks p).length < fuel) :
    ∃ s', classifyPage pf fuel p s = .ok (pageNext s.heap.mem p, s') ∧
      ((Classifying pf h₀ c₀ (kept ++ [p]) todo s' c) ∨
        Classifying pf h₀ c₀ kept todo s' (retain c kept todo p)) := by
  have pFrom : p ∈ c.fromSpace := by simp [inv.fromSpace]
  have pTiled := tiled_of_fromSpace pFrom
  have ok := inv.arena.pageOk p pTiled
  rw [inv.blocks] at ok
  have headerEq : ∀ d ∈ c₀.blocks p, s.heap.mem d = h₀.mem d := by
    intro d mem
    have := ok.block_bounds mem
    exact inv.fromFrame p pFrom d (by omega) (by omega)
  unfold classifyPage
  dsimp only
  rcases findPinned_spec ok.tiles enough with ⟨eq, unpinned⟩ | ⟨d, mem, eq, notFree, isPinned⟩
  · rw [eq]
    change ∃ s', (if freeBlock s.heap.mem p = freeBlock s.heap.mem p then _ else _) = _ ∧ _
    rw [if_pos rfl]
    refine ⟨_, rfl, Or.inl (inv.keep ?_)⟩
    rintro ⟨d, mem, isPinned⟩
    rw [← headerEq d mem, unpinned d mem] at isPinned
    exact absurd isPinned (by simp)
  · rw [eq]
    change ∃ s', (if d = freeBlock s.heap.mem p then _ else _) = _ ∧ _
    rw [if_neg notFree]
    rw [headerEq d mem] at isPinned
    rcases inv.retainPage_spec ⟨d, mem, isPinned⟩ inv.unlinkPinnedPage_spec small enough with
      ⟨h₁, h₂, retained, linked, inv'⟩
    refine ⟨_, ?_, Or.inr inv'⟩
    rw [retained]
    change (linkFreeTail pf p h₁ >>= _) = _
    rw [linked]
    rfl

end Classifying

/-- The heap a sweep of the pages starts from: all pages in use are still to be classified, and
no free tail is listed. -/
structure Sweepable (pf : Platform) (h : Heap) (c : Census) : Prop where
  arena : Arena pf h.firstPage 0 h c
  heldNil : c.held = []
  aliveNil : c.alive = []
  noBuckets : ∀ k, h.freeBlocks k = 0
  small : pf.bigBlockThreshold < freeBlocksLength
  maxZero : h.maxFreeBlock = 0

theorem Sweepable.classifying (ready : Sweepable pf h₀ c₀) :
    Classifying pf h₀ c₀ [] c₀.fromSpace ⟨h₀, 0, 0⟩ c₀ where
  arena := ready.arena
  heldNil := ready.heldNil
  fromSpace := rfl
  blocks := rfl
  freeEq := rfl
  perm := List.Perm.refl _
  prevPage := rfl
  buckets := Buckets.empty ready.noBuckets fun q mem => by simp [ready.aliveNil] at mem
  maxBound := by simp [ready.maxZero]
  unpinned := by simp
  pinned := by simp [ready.aliveNil]
  fromFrame _ _ := AgreeOn.refl _ _ _
  aliveHeader := by simp [ready.aliveNil]
  aliveData := by simp [ready.aliveNil]
  offPages _ _ := rfl
  mappings := rfl
  firstBigBlock := rfl
  metaReads := rfl

/-- The first pass never faults and leaves the pages classified. -/
theorem classifyPages_spec (ready : Sweepable pf h₀ c₀) {fuel : Nat}
    (enoughPages : c₀.fromSpace.length < fuel)
    (enoughBlocks : ∀ q ∈ c₀.fromSpace, (c₀.blocks q).length < fuel) :
    ∃ s kept c, classifyPages pf fuel h₀ = .ok s ∧ Classifying pf h₀ c₀ kept [] s c := by
  have yields : Yields (fun _ => False) _ (classifyPages pf fuel h₀) := walk_yields
    (fun todo cursor s => (∃ kept c, Classifying pf h₀ c₀ kept todo s c) ∧
      cursor = todo.headD 0 ∧ ∀ q ∈ todo, q ∈ c₀.fromSpace)
    ?_ ?_ enoughPages
    ⟨⟨[], c₀, ready.classifying⟩, ready.arena.fromChain.head_eq, fun _ mem => mem⟩
  · rcases yields.total with ⟨s, eq, cursor, ⟨kept, c, inv⟩, _⟩
    exact ⟨s, kept, c, eq, inv⟩
  · rintro cursor s ⟨_, atEnd, _⟩
    simpa using atEnd
  · rintro q todo cursor s ⟨⟨kept, c, inv⟩, atHead, sub⟩
    rw [List.headD_cons] at atHead
    subst atHead
    have chain := inv.arena.fromChain
    rw [inv.fromSpace] at chain
    have nonnull : cursor ≠ 0 := chain.ne_zero (by simp)
    have next := chain.suffix.head_eq
    have sub' : ∀ r ∈ todo, r ∈ c₀.fromSpace := fun r mem => sub r (by simp [mem])
    refine ⟨by simpa using nonnull, ?_⟩
    rcases inv.classifyPage_spec ready.small (enoughBlocks cursor (sub cursor (by simp))) with
      ⟨s', eq, inv' | inv'⟩
    · rw [eq]
      exact ⟨⟨_, _, inv'⟩, next, sub'⟩
    · rw [eq]
      exact ⟨⟨_, _, inv'⟩, next, sub'⟩

end PreciseGc

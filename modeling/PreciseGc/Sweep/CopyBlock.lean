import PreciseGc.Heap.Buckets

/-!
# Copying one block

`copy_block` allocates in a listed page with a sufficient free tail, or in a
fresh page appended to the pages in use, copies the data of the block, leaves
the address of the copy in the first data word of the old block, and lists the
remaining tail.  `Copied` records everything later passes need to know.
-/

namespace PreciseGc

open Foundation Memory

variable {pf : Platform} {m m' : Memory} {p b : Nat} {blocks : List Nat}

/-- A change inside the data of one block keeps the page invariant. -/
theorem PageOk.change_data (ok : PageOk pf m p blocks) (mem : b ∈ blocks)
    (frame : ∀ x, (x < b + 8 ∨ b + 8 + blockSize (m b) ≤ x) → m' x = m x) :
    PageOk pf m' p blocks := by
  have bounds := ok.block_bounds mem
  refine ok.congr (frame _ (by omega)) ?_ (fun _ => frame _ (by omega))
  intro d dMem
  by_cases same : d = b
  · subst same
    rw [frame d (by omega)]
  · have := ok.tiles.disjoint dMem mem same
    simp only [blockExtent, sizeofBlock] at this
    rw [frame d (by omega)]

variable {fromHead aliveHead : Nat} {h h' : Heap} {c : Census}

theorem Arena.change_data (arena : Arena pf fromHead aliveHead h c) (same : SameOwnership h h')
    (inTiled : p ∈ c.tiled) (mem : b ∈ c.blocks p)
    (frame : ∀ x, (x < b + 8 ∨ b + 8 + blockSize (h.mem b) ≤ x) → h'.mem x = h.mem x) :
    Arena pf fromHead aliveHead h' c := by
  have ok := arena.pageOk p inTiled
  have bounds := ok.block_bounds mem
  have changed := arena.change_page same inTiled (ok.change_data mem frame)
    (fun x outside => frame x (by omega))
  rwa [Function.update_eq_self] at changed

/-- A change inside the data of one block keeps every bucket. -/
theorem Buckets.change_data {listed : Nat → Prop} (buckets : Buckets pf h listed)
    (arena : Arena pf fromHead aliveHead h c) (tiled : ∀ q, listed q → q ∈ c.tiled)
    (freeBlocks : h'.freeBlocks = h.freeBlocks) (maxFreeBlock : h'.maxFreeBlock = h.maxFreeBlock)
    (inTiled : p ∈ c.tiled) (mem : b ∈ c.blocks p)
    (frame : ∀ x, (x < b + 8 ∨ b + 8 + blockSize (h.mem b) ≤ x) → h'.mem x = h.mem x) :
    Buckets pf h' listed := by
  have bounds := (arena.pageOk p inTiled).block_bounds mem
  have away : ∀ q, listed q → ∀ x, (x = q + 8 ∨ freeBlock h.mem q ≤ x ∧ x < q + pf.pageSize) →
      h'.mem x = h.mem x := by
    intro q isListed x place
    have qOk := arena.pageOk q (tiled q isListed)
    have := qOk.first_le_free
    have := pf.pageSize_ge
    refine frame x ?_
    by_cases samePage : q = p
    · subst samePage
      omega
    · have := arena.apart (Arena.tiled_pages (tiled q isListed))
        (Arena.tiled_pages inTiled) samePage
      omega
  refine buckets.transport freeBlocks maxFreeBlock (fun _ => Iff.rfl) ?_ ?_
  · exact fun q isListed => away q isListed _ (Or.inl rfl)
  · intro q isListed notFull
    have tail := (arena.pageOk q (tiled q isListed)).tail_bounds
      (mod_eight_of_page (arena.aligned q (Arena.tiled_pages (tiled q isListed)))) notFull
    exact ⟨away q isListed _ (Or.inr (by omega)), away q isListed _ (Or.inr (by omega))⟩

theorem Arena.nonnull_alive (arena : Arena pf fromHead aliveHead h c) (mem : p ∈ c.alive) : p ≠ 0 :=
  arena.aliveChain.ne_zero mem

theorem Arena.not_mem_alive_of_fromSpace (arena : Arena pf fromHead aliveHead h c)
    (mem : p ∈ c.fromSpace) : p ∉ c.alive := by
  have unique := arena.distinct
  simp only [Census.pages, List.append_assoc] at unique
  have := (List.nodup_append'.mp (List.nodup_append'.mp unique).2.1).2.2 mem
  exact fun inAlive => this (by simp [inAlive])

theorem Census.tiled_of_other {q r : Nat} (listed : r ∈ c.alive ∧ r ≠ q) : r ∈ c.tiled := by
  simp [Census.tiled, listed.1]

/-- The heap in which `copy_block` has chosen the page `q` with a tail of at least `s` bytes. -/
structure Chosen (pf : Platform) (fromHead aliveHead : Nat) (h : Heap) (c : Census) (s q : Nat)
    (h' : Heap) (c' : Census) : Prop where
  arena : Arena pf fromHead aliveHead h' c'
  heldNil : c'.held = []
  fromSpace : c'.fromSpace = c.fromSpace
  target : q ∈ c'.alive
  origin : (q ∈ c.alive ∧ c' = c) ∨
    (q ∉ c.tiled ∧ c'.alive = c.alive ++ [q] ∧ c'.blocks q = [])
  blocks : ∀ r ∈ c.tiled, c'.blocks r = c.blocks r
  notFull : pageIsFull pf h'.mem q = false
  fits : s ≤ h'.mem (freeBlock h'.mem q)
  buckets : Buckets pf h' fun r => r ∈ c'.alive ∧ r ≠ q
  maxBound : h'.maxFreeBlock ≤ pf.bigBlockThreshold
  writes : ChangedWithin h h' fun x => InPage pf q x ∨ q ∉ c.alive ∧ x = h.lastPage
  fromFrame : ∀ r ∈ c.fromSpace, AgreeOn h.mem h'.mem r (r + pf.pageSize)
  aliveFrame : ∀ r ∈ c.alive, AgreeOn h.mem h'.mem (r + 8) (r + pf.pageSize)
  outside : ∀ x, Outside pf h c x → Outside pf h' c' x ∧ h'.mem x = h.mem x
  mappings : MoreMapped h.mappings h'.mappings
  firstPage : h'.firstPage = h.firstPage
  firstBigBlock : h'.firstBigBlock = h.firstBigBlock
  metaReads : h'.metaReads = h.metaReads

/-- A fresh page appended to the pages in use. -/
theorem Taken.chosen {s q : Nat} {free : List Nat} (arena : Arena pf fromHead aliveHead h c)
    (heldNil : c.held = []) (nonempty : c.alive ≠ []) (buckets : Buckets pf h (· ∈ c.alive))
    (maxBound : h.maxFreeBlock ≤ pf.bigBlockThreshold) (bounded : s ≤ pf.bigBlockThreshold)
    (taken : Taken pf fromHead aliveHead h c q free h') :
    Chosen pf fromHead aliveHead h c s q
      { h' with mem := setPageNext h'.mem h'.lastPage q, lastPage := q }
        ((c.take q free).append q) := by
  have heldEq : (c.take q free).held = [q] := rfl
  have aliveEq : (c.take q free).alive = c.alive := rfl
  have appended := taken.arena.appendHeld heldEq taken.nonnull taken.link nonempty
  have lastMem : h'.lastPage ∈ c.alive := by
    rw [taken.arena.lastPage, aliveEq, List.getLastD_eq_getLast?,
      List.getLast?_eq_getLast_of_ne_nil nonempty]
    exact List.getLast_mem nonempty
  have lastPages : h'.lastPage ∈ (c.take q free).pages := by simp [Census.pages, aliveEq, lastMem]
  have qMem : q ∈ ((c.take q free).append q).alive := by simp [Census.append]
  have qTiled : q ∈ ((c.take q free).append q).tiled := by simp [Census.tiled, qMem]
  have qBlocks : ((c.take q free).append q).blocks q = [] := by
    simp [Census.append, Census.take]
  have qOk := appended.pageOk q qTiled
  rw [qBlocks] at qOk
  have freeEq := qOk.tiles
  simp only [Tiles.nil_iff, firstBlock, sizeofPage] at freeEq
  have large := pf.pageSize_ge
  have thr := pf.bigBlockThreshold_add
  have notFull : pageIsFull pf (setPageNext h'.mem h'.lastPage q) q = false := by
    rw [pageIsFull_eq_false_iff, ← freeEq]
    omega
  have tail := qOk.tail notFull
  have otherTiled : ∀ r ∈ c.tiled, r ≠ q := by
    rintro r inTiled rfl
    exact taken.fresh inTiled
  have aliveTiled : ∀ r ∈ c.alive, r ∈ c.tiled := fun r mem => by simp [Census.tiled, mem]
  have lastNe : ∀ r ∈ c.fromSpace, h'.lastPage ≠ r := by
    rintro r inFrom rfl
    exact taken.arena.not_mem_alive_of_fromSpace (p := h'.lastPage) inFrom lastMem
  have inTake : ∀ r ∈ c.tiled, r ∈ (c.take q free).tiled := by
    intro r inTiled
    rw [Census.mem_tiled, heldNil] at inTiled
    rw [Census.mem_tiled]
    exact Or.inr (inTiled.resolve_left (by simp))
  have bodies : ∀ r ∈ c.tiled,
      AgreeOn h.mem (setPageNext h'.mem h'.lastPage q) (r + 8) (r + pf.pageSize) := fun r inTiled =>
    ((taken.untouched.tiled r inTiled).mono (by omega) (Nat.le_refl _)).trans
      (taken.arena.agree_setPageNext lastPages (Arena.tiled_pages (inTake r inTiled)))
  refine
    { arena := appended, heldNil := rfl, fromSpace := rfl, target := qMem,
      origin := Or.inr ⟨taken.fresh, rfl, qBlocks⟩, blocks := ?_, notFull := notFull, fits := ?_,
      buckets := ?_, maxBound := ?_, writes := ?_, fromFrame := ?_, aliveFrame := ?_,
      outside := ?_, mappings := taken.untouched.mappings,
      firstPage := taken.lists.firstPage, firstBigBlock := taken.lists.firstBigBlock,
      metaReads := taken.lists.metaReads }
  · intro r inTiled
    simp [Census.append, Census.take, Function.update_of_ne (otherTiled r inTiled)]
  · simp only [sizeofBlock] at tail
    change s ≤ setPageNext h'.mem h'.lastPage q (freeBlock (setPageNext h'.mem h'.lastPage q) q)
    omega
  · refine buckets.transport taken.lists.freeBlocks taken.lists.maxFreeBlock ?_ ?_ ?_
    · intro r
      simp only [Census.append, aliveEq, List.mem_append, List.mem_singleton]
      constructor
      · rintro ⟨inAlive | rfl, other⟩
        · exact inAlive
        · exact absurd rfl other
      · exact fun inAlive => ⟨Or.inl inAlive, otherTiled r (aliveTiled r inAlive)⟩
    · intro r inAlive
      exact bodies r (aliveTiled r inAlive) _ (Nat.le_refl _) (by omega)
    · intro r inAlive rNotFull
      have rTiled := aliveTiled r inAlive
      have rOk := arena.pageOk r rTiled
      have := rOk.first_le_free
      have := rOk.tail_bounds
        (mod_eight_of_page (arena.aligned r (Arena.tiled_pages rTiled))) rNotFull
      exact ⟨bodies r rTiled _ (by omega) (by omega), bodies r rTiled _ (by omega) (by omega)⟩
  · change h'.maxFreeBlock ≤ pf.bigBlockThreshold
    rw [taken.lists.maxFreeBlock]
    exact maxBound
  · intro x mapped other
    rw [not_or, not_and] at other
    refine Eq.trans (write_of_ne ?_) (taken.writes x mapped other.1)
    rw [taken.lists.lastPage]
    exact other.2 fun inAlive => otherTiled q (aliveTiled q inAlive) rfl
  · intro r inFrom x lower upper
    have rTiled : r ∈ c.tiled := by simp [Census.tiled, inFrom]
    have rPages := Arena.tiled_pages (inTake r rTiled)
    have := taken.arena.apart lastPages rPages (lastNe r inFrom)
    rw [← taken.untouched.tiled r rTiled x lower upper]
    exact write_of_ne (by omega)
  · exact fun r inAlive => bodies r (aliveTiled r inAlive)
  · intro x out
    rcases taken.untouched.outside x out with ⟨⟨contains, away⟩, same⟩
    have pagesMem : ∀ r, r ∈ ((c.take q free).append q).pages ↔ r ∈ (c.take q free).pages :=
      fun r => (Census.append_pages_perm heldEq).mem_iff
    refine ⟨⟨contains, fun r inPages => away r ((pagesMem r).mp inPages)⟩, ?_⟩
    rw [← same]
    have := away h'.lastPage lastPages
    exact write_of_ne (by omega)

theorem pageForCopy_yields {s : Nat} (arena : Arena pf fromHead aliveHead h c)
    (heldNil : c.held = []) (nonempty : c.alive ≠ []) (buckets : Buckets pf h (· ∈ c.alive))
    (small : pf.bigBlockThreshold < freeBlocksLength)
    (maxBound : h.maxFreeBlock ≤ pf.bigBlockThreshold) (bounded : s ≤ pf.bigBlockThreshold) :
    Yields (· = Fault.mapFailed)
      (fun result => ∃ c', Chosen pf fromHead aliveHead h c s result.1 result.2 c')
      (pageForCopy pf s h) := by
  rcases findFreeTail_spec buckets (s := s) (h.maxFreeBlock + 1)
      (Nat.lt_of_le_of_lt maxBound small) with
    ⟨q, h', eq, ⟨rfl, rfl⟩ | ⟨found, inAlive, notFull, fits, heapEq, buckets'⟩⟩
  · unfold pageForCopy
    rw [eq]
    change Yields _ _ (requestNewPage pf true h' >>= _)
    refine (requestNewPage_yields arena heldNil true).bind ?_
    rintro ⟨newPage, requested⟩ (⟨isNull, _⟩ | ⟨free, taken⟩)
    · simp only at isNull
      simp [isNull]
    · have nonnull := taken.nonnull
      simp only at nonnull taken
      simp only [nonnull, ↓reduceIte, Yields.ok_iff]
      exact ⟨_, taken.chosen arena heldNil nonempty buckets maxBound bounded⟩
  · unfold pageForCopy
    rw [eq]
    change Yields _ _ (if q ≠ 0 then Except.ok (q, h') else _)
    rw [if_pos found]
    refine ⟨c, ?_⟩
    have memEq : h'.mem = h.mem := by rw [heapEq]
    refine
      { arena := ?_, heldNil := heldNil, fromSpace := rfl, target := inAlive,
        origin := Or.inl ⟨inAlive, rfl⟩, blocks := fun _ _ => rfl, notFull := by rwa [memEq],
        fits := by rwa [memEq], buckets := buckets', maxBound := ?_,
        writes := fun _ _ _ => by rw [memEq], fromFrame := ?_, aliveFrame := ?_, outside := ?_,
        mappings := ?_, firstPage := ?_, firstBigBlock := ?_, metaReads := ?_ }
    · exact arena.transport (by rw [heapEq]; exact ⟨rfl, rfl, rfl, rfl, rfl, rfl, rfl⟩)
        (fun r _ => by rw [memEq]) (fun r mem => by rw [memEq]; exact arena.pageOk r mem)
    · rw [heapEq]
      exact maxBound
    · intro r _
      rw [memEq]
      exact AgreeOn.refl _ _ _
    · intro r _
      rw [memEq]
      exact AgreeOn.refl _ _ _
    · intro x out
      refine ⟨⟨?_, out.2⟩, by rw [memEq]⟩
      rw [heapEq]
      exact out.1
    · rw [heapEq]
      exact MoreMapped.refl _
    · rw [heapEq]
    · rw [heapEq]
    · rw [heapEq]

/-- The block `b` has been copied to the fresh block `new` of the page `q`. -/
structure Copied (pf : Platform) (fromHead aliveHead : Nat) (h : Heap) (c : Census) (b : Nat)
    (h' : Heap) (c' : Census) (q new : Nat) : Prop where
  arena : Arena pf fromHead aliveHead h' c'
  heldNil : c'.held = []
  buckets : Buckets pf h' (· ∈ c'.alive)
  maxBound : h'.maxFreeBlock ≤ pf.bigBlockThreshold
  fromSpace : c'.fromSpace = c.fromSpace
  target : q ∈ c'.alive
  alive : c'.alive = c.alive ∨ c'.alive = c.alive ++ [q]
  targetBlocks : (q ∈ c.alive ∧ c'.blocks q = c.blocks q ++ [new] ∧ new = freeBlock h.mem q) ∨
    (q ∉ c.tiled ∧ c'.blocks q = [new])
  otherBlocks : ∀ r ∈ c.tiled, r ≠ q → c'.blocks r = c.blocks r
  header : h'.mem new = blockSize (h.mem b)
  data : ∀ o < blockSize (h.mem b), h'.mem (new + 8 + o) = h.mem (b + 8 + o)
  forward : h'.mem (b + 8) = new + 8
  room : q + 16 ≤ new ∧ new + 8 + blockSize (h.mem b) ≤ q + pf.pageSize
  writes : ChangedWithin h h' fun x => InPage pf q x ∨ x = b + 8 ∨ q ∉ c.alive ∧ x = h.lastPage
  fromFrame : ∀ r ∈ c.fromSpace, ∀ x, r ≤ x → x < r + pf.pageSize → x ≠ b + 8 →
    h'.mem x = h.mem x
  aliveFrame : ∀ r ∈ c.alive, AgreeOn h.mem h'.mem (r + 16) (freeBlock h.mem r)
  freeMono : ∀ r ∈ c.alive, freeBlock h.mem r ≤ freeBlock h'.mem r
  outside : ∀ x, Outside pf h c x → Outside pf h' c' x ∧ h'.mem x = h.mem x
  mappings : MoreMapped h.mappings h'.mappings
  firstPage : h'.firstPage = h.firstPage
  firstBigBlock : h'.firstBigBlock = h.firstBigBlock
  metaReads : h'.metaReads = h.metaReads

namespace Chosen

variable {s q new : Nat} {h₁ : Heap} {c₁ : Census}

theorem targetTiled (chosen : Chosen pf fromHead aliveHead h c s q h₁ c₁) : q ∈ c₁.tiled := by
  simp [Census.tiled, chosen.target]

/-- A page to evacuate is another page than the chosen one, and still in use after the choice. -/
theorem from_ne (chosen : Chosen pf fromHead aliveHead h c s q h₁ c₁) (inFrom : p ∈ c.fromSpace) :
    p ∈ c₁.tiled ∧ p ≠ q := by
  have inFrom₁ : p ∈ c₁.fromSpace := chosen.fromSpace ▸ inFrom
  refine ⟨by simp [Census.tiled, inFrom₁], ?_⟩
  rintro rfl
  exact chosen.arena.not_mem_alive_of_fromSpace inFrom₁ chosen.target

theorem from_apart (chosen : Chosen pf fromHead aliveHead h c s q h₁ c₁)
    (inFrom : p ∈ c.fromSpace) : p + pf.pageSize ≤ q ∨ q + pf.pageSize ≤ p :=
  chosen.arena.apart (Arena.tiled_pages (chosen.from_ne inFrom).1)
    (Arena.tiled_pages chosen.targetTiled) (chosen.from_ne inFrom).2

theorem alive_tiled (chosen : Chosen pf fromHead aliveHead h c s q h₁ c₁) (inAlive : p ∈ c.alive) :
    p ∈ c₁.tiled := by
  rcases chosen.origin with ⟨_, rfl⟩ | ⟨_, eq, _⟩
  · simp [Census.tiled, inAlive]
  · simp [Census.tiled, eq, inAlive]

theorem freeBlock_eq (chosen : Chosen pf fromHead aliveHead h c s q h₁ c₁) (inAlive : p ∈ c.alive) :
    freeBlock h₁.mem p = freeBlock h.mem p := by
  have large := pf.pageSize_ge
  exact chosen.aliveFrame p inAlive (p + 8) (by omega) (by omega)

/-- Where the tail of the chosen page lies. -/
theorem tail (chosen : Chosen pf fromHead aliveHead h c s q h₁ c₁) :
    q + 16 ≤ freeBlock h₁.mem q ∧ freeBlock h₁.mem q + 8 + s ≤ q + pf.pageSize := by
  have ok := chosen.arena.pageOk q chosen.targetTiled
  have first := ok.first_le_free
  have bounds := ok.tail_bounds
    (mod_eight_of_page (chosen.arena.aligned q (Arena.tiled_pages chosen.targetTiled)))
    chosen.notFull
  have fits := chosen.fits
  omega

end Chosen

/-- `copy_block` at work in the page `q` it has chosen in the heap `h`: the block `new` of `s` bytes
is there, and outside the tail of the page only the words `touched` have changed. -/
structure Filling (pf : Platform) (fromHead aliveHead : Nat) (h : Heap) (c : Census)
    (s q new : Nat) (touched : Nat → Prop) (m : Memory) : Prop where
  arena : Arena pf fromHead aliveHead { h with mem := m } (c.grow q new)
  buckets : Buckets pf { h with mem := m } fun r => r ∈ c.alive ∧ r ≠ q
  free : freeBlock m q = new + 8 + s
  header : m new = s
  frame : ∀ x, x ≠ q + 8 → (x < new ∨ q + pf.pageSize ≤ x) → ¬touched x → m x = h.mem x

/-- The new block at the tail of the chosen page. -/
theorem Chosen.newBlock {s q : Nat} {h₁ : Heap} {c₁ : Census}
    (chosen : Chosen pf fromHead aliveHead h c s q h₁ c₁) (aligned : s % 8 = 0)
    (positive : 8 ≤ s) :
    Filling pf fromHead aliveHead h₁ c₁ s q (freeBlock h₁.mem q) (fun _ => False)
      (mallocInPage pf s q h₁.mem).2 := by
  have tail := chosen.tail
  rcases chosen.arena.mallocInPage chosen.targetTiled chosen.notFull aligned positive
    chosen.fits with ⟨arena, allocated⟩
  refine ⟨arena, ?_, allocated.free, allocated.header, fun x notFree outside _ =>
    allocated.frame x notFree outside⟩
  exact chosen.buckets.change_page chosen.arena (fun r => Census.tiled_of_other) rfl rfl
    (Arena.tiled_pages chosen.targetTiled) (fun both => both.2 rfl)
    fun x outside => allocated.frame x (by omega) (by omega)

namespace Filling

variable {s q new : Nat} {touched touched' : Nat → Prop}

/-- A change of the data of one block. -/
theorem change_data (filling : Filling pf fromHead aliveHead h c s q new touched m)
    (inTiled : p ∈ c.tiled) (mem : b ∈ (c.grow q new).blocks p)
    (frame : ∀ x, (x < b + 8 ∨ b + 8 + blockSize (m b) ≤ x) → m' x = m x)
    (free : m' (q + 8) = m (q + 8)) (header : m' new = m new)
    (others : ∀ x, (x < new ∨ q + pf.pageSize ≤ x) → ¬touched' x → ¬touched x ∧ m' x = m x) :
    Filling pf fromHead aliveHead h c s q new touched' m' where
  arena := filling.arena.change_data ⟨rfl, rfl, rfl, rfl, rfl, rfl, rfl⟩ inTiled mem frame
  buckets := filling.buckets.change_data filling.arena (fun r => Census.tiled_of_other) rfl rfl
    inTiled mem frame
  free := free.trans filling.free
  header := header.trans filling.header
  frame x notFree outside untouched := by
    rcases others x outside untouched with ⟨before, same⟩
    rw [same, filling.frame x notFree outside before]

theorem newMem : new ∈ (c.grow q new).blocks q := by simp [Census.grow]

/-- The data of the block `b` is copied to the new block. -/
theorem copyData (filling : Filling pf fromHead aliveHead h c s q new touched m)
    (inTiled : q ∈ c.tiled) (aligned : s % 8 = 0)
    (room : q + 16 ≤ new ∧ new + 8 + s ≤ q + pf.pageSize) :
    Filling pf fromHead aliveHead h c s q new touched (m.copy (blockData new) (blockData b) s) ∧
      ∀ o < s, m.copy (blockData new) (blockData b) s (new + 8 + o) = m (b + 8 + o) := by
  have frame : ∀ x, (x < new + 8 ∨ new + 8 + s ≤ x) →
      m.copy (blockData new) (blockData b) s x = m x := fun x outside =>
    copy_of_not_mem (by simpa [blockData, sizeofBlock] using outside)
  constructor
  · apply filling.change_data inTiled newMem
    · rwa [filling.header, blockSize_of_aligned aligned]
    · exact frame _ (by omega)
    · exact frame _ (by omega)
    · exact fun x outside untouched => ⟨untouched, frame x (by omega)⟩
  · intro o less
    exact copy_of_mem less

/-- The address of the copy is left in the first data word of the block `b` of another page. -/
theorem setForward (filling : Filling pf fromHead aliveHead h c s q new (fun _ => False) m)
    (target : Nat) (inTiled : p ∈ c.tiled) (mem : b ∈ c.blocks p) (other : p ≠ q)
    (place : b + 8 < q ∨ q + pf.pageSize ≤ b + 8) (room : q + 16 ≤ new ∧ new < q + pf.pageSize)
    (positive : 8 ≤ blockSize (m b)) :
    Filling pf fromHead aliveHead h c s q new (· = b + 8) (setForwardPointer m b target) := by
  have frame : ∀ x, x ≠ b + 8 → setForwardPointer m b target x = m x := fun x differs =>
    write_of_ne differs
  have mem' : b ∈ (c.grow q new).blocks p := by
    simpa [Census.grow, Function.update_of_ne other] using mem
  apply filling.change_data inTiled mem'
  · exact fun x outside => frame x (by omega)
  · exact frame _ (by omega)
  · exact frame _ (by omega)
  · exact fun x _ differs => ⟨id, frame x differs⟩

end Filling

/-- The words after a copy of the block `b`, seen from the heap `h` with the chosen page `q`. -/
structure Filled (pf : Platform) (h : Heap) (s q new b : Nat) (m : Memory) : Prop where
  free : freeBlock m q = new + 8 + s
  header : m new = s
  data : ∀ o < s, m (new + 8 + o) = h.mem (b + 8 + o)
  forward : m (b + 8) = new + 8
  frame : ∀ x, x ≠ q + 8 → x ≠ b + 8 → (x < new ∨ q + pf.pageSize ≤ x) → m x = h.mem x

/-- Linking the remaining tail changes no word of interest. -/
theorem Filled.link {s q new : Nat} {listed : Nat → Prop} {h₂ : Heap} {c₂ : Census}
    (filled : Filled pf h s q new b h₂.mem)
    (place : b + 8 < q ∨ q + pf.pageSize ≤ b + 8) (room : q + 16 ≤ new)
    (linked : Linked pf fromHead aliveHead h₂ c₂ listed q h') : Filled pf h s q new b h'.mem := by
  have frame := linked.frame
  rw [filled.free] at frame
  refine ⟨(frame _ (by omega)).trans filled.free, (frame _ (by omega)).trans filled.header,
    fun o less => (frame _ (by omega)).trans (filled.data o less),
    (frame _ (by omega)).trans filled.forward, fun x notFree notForward outside => ?_⟩
  exact (frame x (by omega)).trans (filled.frame x notFree notForward outside)

/-- Linking the chosen page completes the buckets. -/
theorem Linked.buckets_alive {q : Nat} {alive : List Nat} {h₂ : Heap} {c₂ : Census}
    (linked : Linked pf fromHead aliveHead h₂ c₂ (fun r => r ∈ alive ∧ r ≠ q) q h')
    (inAlive : q ∈ alive) : Buckets pf h' (· ∈ alive) := by
  rcases linked.buckets with ⟨lists, ok⟩
  refine ⟨lists, ok.chain, ok.nodup, fun k r => ?_, ok.bounded⟩
  rw [ok.mem_iff k r]
  apply and_congr_left
  intro _
  constructor
  · rintro (both | rfl)
    · exact both.1
    · exact inAlive
  · intro listed
    by_cases same : r = q
    · exact Or.inr same
    · exact Or.inl ⟨listed, same⟩

section Completed

variable {s q : Nat} {h₁ : Heap} {c₁ : Census}

/-- What the copy leaves of the pages to evacuate. -/
theorem Filled.fromFrame (filled : Filled pf h₁ s q (freeBlock h₁.mem q) b h'.mem)
    (chosen : Chosen pf fromHead aliveHead h c s q h₁ c₁) (inFrom : p ∈ c.fromSpace) {x : Nat}
    (lower : p ≤ x) (upper : x < p + pf.pageSize) (other : x ≠ b + 8) : h'.mem x = h.mem x := by
  have apart := chosen.from_apart inFrom
  have tail := chosen.tail
  rw [filled.frame x (by omega) other (by omega)]
  exact chosen.fromFrame p inFrom x lower upper

/-- What the copy leaves of the pages in use. -/
theorem Filled.aliveFrame (filled : Filled pf h₁ s q (freeBlock h₁.mem q) b h'.mem)
    (chosen : Chosen pf fromHead aliveHead h c s q h₁ c₁) {r : Nat} (inAlive : r ∈ c.alive)
    (inside : freeBlock h.mem r ≤ r + pf.pageSize)
    (away : b + 8 < r ∨ r + pf.pageSize ≤ b + 8) :
    AgreeOn h.mem h'.mem (r + 16) (freeBlock h.mem r) ∧
      freeBlock h.mem r ≤ freeBlock h'.mem r := by
  have tail := chosen.tail
  have same := chosen.freeBlock_eq inAlive
  by_cases isTarget : r = q
  · subst isTarget
    constructor
    · intro x lower upper
      rw [filled.frame x (by omega) (by omega) (by omega)]
      exact chosen.aliveFrame r inAlive x (by omega) (by omega)
    · rw [filled.free]
      omega
  · have apart := chosen.arena.apart (Arena.tiled_pages (chosen.alive_tiled inAlive))
      (Arena.tiled_pages chosen.targetTiled) isTarget
    constructor
    · intro x lower upper
      rw [filled.frame x (by omega) (by omega) (by omega)]
      exact chosen.aliveFrame r inAlive x (by omega) (by omega)
    · apply le_of_eq
      rw [← same]
      exact (filled.frame (r + 8) (by omega) (by omega) (by omega)).symm

/-- The stages of `copy_block` put together. -/
theorem Filled.copied (filled : Filled pf h₁ (blockSize (h.mem b)) q (freeBlock h₁.mem q) b h'.mem)
    (chosen : Chosen pf fromHead aliveHead h c (blockSize (h.mem b)) q h₁ c₁)
    (arena : Arena pf fromHead aliveHead h c) (inFrom : p ∈ c.fromSpace) (bMem : b ∈ c.blocks p)
    {m : Memory}
    (linked : Linked pf fromHead aliveHead { h₁ with mem := m } (c₁.grow q (freeBlock h₁.mem q))
      (fun r => r ∈ c₁.alive ∧ r ≠ q) q h') :
    Copied pf fromHead aliveHead h c b h' (c₁.grow q (freeBlock h₁.mem q)) q
      (freeBlock h₁.mem q) := by
  have pTiled : p ∈ c.tiled := by simp [Census.tiled, inFrom]
  have bBounds := (arena.pageOk p pTiled).block_bounds bMem
  have pPages := Arena.tiled_pages (chosen.from_ne inFrom).1
  have apart := chosen.from_apart inFrom
  have tail := chosen.tail
  have heapEq := linked.heapEq
  have alive : ∀ r ∈ c.alive, AgreeOn h.mem h'.mem (r + 16) (freeBlock h.mem r) ∧
      freeBlock h.mem r ≤ freeBlock h'.mem r := by
    intro r inAlive
    have rOk := arena.pageOk r (by simp [Census.tiled, inAlive])
    have differs : r ≠ p := by
      rintro rfl
      exact arena.not_mem_alive_of_fromSpace inFrom inAlive
    have away := chosen.arena.apart (Arena.tiled_pages (chosen.alive_tiled inAlive)) pPages differs
    exact filled.aliveFrame chosen inAlive rOk.inside (by omega)
  refine
    { arena := linked.arena, heldNil := chosen.heldNil,
      buckets := linked.buckets_alive chosen.target, maxBound := linked.maxBound,
      fromSpace := chosen.fromSpace, target := chosen.target, alive := ?_, targetBlocks := ?_,
      otherBlocks := ?_, header := filled.header, data := ?_, forward := filled.forward,
      room := by omega, writes := ?_, fromFrame := ?_, aliveFrame := fun r mem => (alive r mem).1,
      freeMono := fun r mem => (alive r mem).2, outside := ?_, mappings := ?_, firstPage := ?_,
      firstBigBlock := ?_, metaReads := ?_ }
  · rcases chosen.origin with ⟨_, rfl⟩ | ⟨_, eq, _⟩
    · exact Or.inl rfl
    · exact Or.inr eq
  · rcases chosen.origin with ⟨inAlive, rfl⟩ | ⟨fresh, _, noBlocks⟩
    · exact Or.inl ⟨inAlive, by simp [Census.grow], chosen.freeBlock_eq inAlive⟩
    · exact Or.inr ⟨fresh, by simp [Census.grow, noBlocks]⟩
  · intro r inTiled other
    simp only [Census.grow, Function.update_of_ne other]
    exact chosen.blocks r inTiled
  · intro o less
    rw [filled.data o less]
    exact chosen.fromFrame p inFrom _ (by omega) (by omega)
  · intro x mapped other
    simp only [not_or, InPage] at other
    rw [filled.frame x (by omega) other.2.1 (by omega)]
    exact chosen.writes x mapped (not_or.mpr ⟨other.1, other.2.2⟩)
  · exact fun r rFrom x => filled.fromFrame chosen rFrom
  · intro x out
    rcases chosen.outside x out with ⟨⟨contains, away⟩, same⟩
    have awayP := away p pPages
    have awayQ := away q (Arena.tiled_pages chosen.targetTiled)
    refine ⟨⟨?_, away⟩, (filled.frame x (by omega) (by omega) (by omega)).trans same⟩
    rw [heapEq]
    exact contains
  · rw [heapEq]
    exact chosen.mappings
  · rw [heapEq]
    exact chosen.firstPage
  · rw [heapEq]
    exact chosen.firstBigBlock
  · rw [heapEq]
    exact chosen.metaReads

end Completed

/-- The copy of the block in the chosen page, up to the link of the remaining tail. -/
theorem Chosen.fill {q : Nat} {h₁ : Heap} {c₁ : Census}
    (chosen : Chosen pf fromHead aliveHead h c (blockSize (h.mem b)) q h₁ c₁)
    (arena : Arena pf fromHead aliveHead h c) (inFrom : p ∈ c.fromSpace) (bMem : b ∈ c.blocks p)
    {new : Nat} (newDef : new = freeBlock h₁.mem q) {m : Memory}
    (memDef : m = setForwardPointer ((mallocInPage pf (blockSize (h.mem b)) q h₁.mem).2.copy
      (blockData new) (blockData b) (blockSize (h.mem b))) b (blockData new)) :
    Filling pf fromHead aliveHead h₁ c₁ (blockSize (h.mem b)) q new (· = b + 8) m ∧
      Filled pf h₁ (blockSize (h.mem b)) q new b m := by
  have pTiled : p ∈ c.tiled := by simp [Census.tiled, inFrom]
  have bBounds := (arena.pageOk p pTiled).block_bounds bMem
  have apart := chosen.from_apart inFrom
  have tail := chosen.tail
  have aligned := blockSize_mod (h.mem b)
  have bMem₁ : b ∈ c₁.blocks p := by rwa [chosen.blocks p pTiled]
  have fresh := chosen.newBlock aligned bBounds.2.2.2
  rw [← newDef] at fresh tail
  rcases fresh.copyData (b := b) chosen.targetTiled aligned (by omega) with ⟨copied, data⟩
  have header : (mallocInPage pf (blockSize (h.mem b)) q h₁.mem).2.copy (blockData new)
      (blockData b) (blockSize (h.mem b)) b = h.mem b := by
    rw [copied.frame b (by omega) (by omega) id]
    exact chosen.fromFrame p inFrom b (by omega) (by omega)
  have forwarded := copied.setForward (blockData new) (chosen.from_ne inFrom).1 bMem₁
    (chosen.from_ne inFrom).2 (by omega) (by omega) (by rw [header]; omega)
  rw [← memDef] at forwarded
  refine ⟨forwarded, forwarded.free, forwarded.header, fun o less => ?_, ?_,
    fun x notFree other outside => forwarded.frame x notFree outside other⟩
  · rw [memDef]
    refine (write_of_ne (by simp only [blockData, sizeofBlock]; omega)).trans ?_
    rw [data o less]
    exact fresh.frame _ (by omega) (by omega) id
  · rw [memDef]
    exact write_same ..

theorem copyBlock_yields (arena : Arena pf fromHead aliveHead h c)
    (heldNil : c.held = []) (nonempty : c.alive ≠ []) (buckets : Buckets pf h (· ∈ c.alive))
    (small : pf.bigBlockThreshold < freeBlocksLength)
    (maxBound : h.maxFreeBlock ≤ pf.bigBlockThreshold)
    (inFrom : p ∈ c.fromSpace) (bMem : b ∈ c.blocks p) :
    Yields (· = Fault.mapFailed)
      (fun h' => ∃ c' q new, Copied pf fromHead aliveHead h c b h' c' q new)
        (copyBlock pf b h) := by
  have pTiled : p ∈ c.tiled := by simp [Census.tiled, inFrom]
  have bBounds := (arena.pageOk p pTiled).block_bounds bMem
  have thr := pf.bigBlockThreshold_add
  unfold copyBlock
  refine (pageForCopy_yields arena heldNil nonempty buckets small maxBound (by omega)).bind ?_
  rintro ⟨q, h₁⟩ ⟨c₁, chosen⟩
  simp only at chosen
  have apart := chosen.from_apart inFrom
  have tail := chosen.tail
  rcases chosen.fill arena inFrom bMem rfl rfl with ⟨filling, filled⟩
  rcases filling.arena.linkFreeTail filling.buckets (fun r => Census.tiled_of_other)
    chosen.targetTiled (chosen.arena.nonnull_alive chosen.target) (fun both => both.2 rfl) small
    chosen.maxBound with
    ⟨h', linkEq, linked⟩
  have inPage := filled.link (by omega) (by omega) linked
  change Yields _ _ (linkFreeTail pf q { h₁ with
    mem := setForwardPointer ((mallocInPage pf (blockSize (h.mem b)) q h₁.mem).2.copy
      (blockData (freeBlock h₁.mem q)) (blockData b) (blockSize (h.mem b))) b
        (blockData (freeBlock h₁.mem q)) })
  rw [linkEq]
  exact ⟨_, q, _, inPage.copied chosen arena inFrom bMem linked⟩

end PreciseGc

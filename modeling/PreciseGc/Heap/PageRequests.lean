import PreciseGc.Heap.Arena
import Mathlib.Data.List.Range

/-!
# Requesting pages

`request_new_page` moves one page from the free list to its caller, after
extending the free list by a fresh mapping when it is empty.  Nothing that was
visible before changes: the page handed out was free, or was not mapped at all.
-/

namespace PreciseGc

open Foundation Memory

/-- The mappings have grown by regions that overlap none of the old ones. -/
structure MoreMapped (old new : List Region) : Prop where
  kept : ∀ r ∈ old, r ∈ new
  fresh : ∀ r ∈ new, r ∈ old ∨ (0 < r.length ∧ ∀ r₀ ∈ old, ∀ x, r₀.Contains x → ¬r.Contains x)

theorem MoreMapped.refl (old : List Region) : MoreMapped old old :=
  ⟨fun _ mem => mem, fun _ mem => Or.inl mem⟩

theorem MoreMapped.trans {old middle new : List Region} (first : MoreMapped old middle)
    (second : MoreMapped middle new) : MoreMapped old new where
  kept r mem := second.kept r (first.kept r mem)
  fresh r mem := by
    rcases second.fresh r mem with inMiddle | ⟨positive, apart⟩
    · exact first.fresh r inMiddle
    · exact Or.inr ⟨positive, fun r₀ oldMem => apart r₀ (first.kept r₀ oldMem)⟩

/-- Every page in use and every mapped byte outside the pages is as before. -/
structure Untouched (pf : Platform) (h h' : Heap) (c c' : Census) : Prop where
  mappings : MoreMapped h.mappings h'.mappings
  tiled : ∀ p ∈ c.tiled, AgreeOn h.mem h'.mem p (p + pf.pageSize)
  outside : ∀ x, Outside pf h c x → Outside pf h' c' x ∧ h'.mem x = h.mem x

namespace Untouched

variable {pf : Platform} {h h' h'' : Heap} {c c' c'' : Census}

theorem trans (first : Untouched pf h h' c c') (second : Untouched pf h' h'' c' c'')
    (grows : ∀ p ∈ c.tiled, p ∈ c'.tiled) : Untouched pf h h'' c c'' where
  mappings := first.mappings.trans second.mappings
  tiled p mem := (first.tiled p mem).trans (second.tiled p (grows p mem))
  outside x out := by
    rcases first.outside x out with ⟨out', same⟩
    rcases second.outside x out' with ⟨out'', same'⟩
    exact ⟨out'', same'.trans same⟩

/-- Without free pages, all that is mapped is as before. -/
theorem mapped_eq (untouched : Untouched pf h h' c c') (empty : c.free = []) {x : Nat}
    (mapped : ∃ r ∈ h.mappings, r.Contains x) : h'.mem x = h.mem x := by
  by_cases inTiled : ∃ p ∈ c.tiled, p ≤ x ∧ x < p + pf.pageSize
  · rcases inTiled with ⟨p, mem, lower, upper⟩
    exact untouched.tiled p mem x lower upper
  · refine (untouched.outside x ⟨mapped, fun p mem => ?_⟩).2
    rw [Census.mem_pages, empty] at mem
    by_contra inside
    exact inTiled ⟨p, mem.resolve_right List.not_mem_nil, by omega, by omega⟩

end Untouched

/-- Of the memory that is mapped in `h` only words at the given addresses differ in `h'`. -/
def ChangedWithin (h h' : Heap) (written : Nat → Prop) : Prop :=
  ∀ x, (∃ r ∈ h.mappings, r.Contains x) → ¬written x → h'.mem x = h.mem x

/-- The address lies in the page. -/
def InPage (pf : Platform) (p x : Nat) : Prop := p ≤ x ∧ x < p + pf.pageSize

/-- The pages of a mapping of `count` pages at `ptr`, in address order. -/
def newPages (pf : Platform) (count ptr : Nat) : List Nat :=
  (List.range count).map fun i => ptr + i * pf.pageSize

theorem mem_newPages {pf : Platform} {count ptr p : Nat} :
    p ∈ newPages pf count ptr ↔ ∃ i < count, p = ptr + i * pf.pageSize := by
  simp only [newPages, List.mem_map, List.mem_range]
  constructor
  · rintro ⟨i, less, rfl⟩
    exact ⟨i, less, rfl⟩
  · rintro ⟨i, less, rfl⟩
    exact ⟨i, less, rfl⟩

theorem newPages_succ (pf : Platform) (count ptr : Nat) :
    newPages pf (count + 1) ptr = ptr :: newPages pf count (ptr + pf.pageSize) := by
  simp only [newPages, List.range_succ_eq_map, List.map_cons, List.map_map, Nat.zero_mul,
    Nat.add_zero]
  congr 1
  apply List.map_congr_left
  intro i _
  simp only [Function.comp_apply, Nat.succ_eq_add_one]
  rw [Nat.add_mul, Nat.one_mul]
  omega

theorem nodup_newPages (pf : Platform) (count ptr : Nat) : (newPages pf count ptr).Nodup := by
  refine List.nodup_range.map ?_
  intro i j same
  have positive := pf.pageSize_ge
  have : i * pf.pageSize = j * pf.pageSize := by
    simpa using same
  exact Nat.eq_of_mul_eq_mul_right (by omega) this

theorem newPages_bounds {pf : Platform} {count ptr p : Nat} (mem : p ∈ newPages pf count ptr) :
    ptr ≤ p ∧ p + pf.pageSize ≤ ptr + count * pf.pageSize := by
  rcases mem_newPages.mp mem with ⟨i, less, rfl⟩
  have : (i + 1) * pf.pageSize ≤ count * pf.pageSize := Nat.mul_le_mul_right _ less
  rw [Nat.add_mul, Nat.one_mul] at this
  omega

/-- The linking loop of `request_new_page` prepends the pages of the mapping in reverse. -/
theorem linkNewPages_spec (pf : Platform) (count : Nat) :
    ∀ (ptr : Nat) (h : Heap) (free : List Nat), 0 < ptr →
      Chain (pageNext h.mem) h.freeList free → (∀ p ∈ newPages pf count ptr, p ∉ free) →
      ∃ mem head, linkNewPages pf count ptr h = { h with
          mem := mem
          freeList := head
          freePages := h.freePages + count
          totalPages := h.totalPages + count } ∧
        Chain (pageNext mem) head ((newPages pf count ptr).reverse ++ free) ∧
        ∀ x, x ∉ newPages pf count ptr → mem x = h.mem x := by
  induction count with
  | zero =>
      intro ptr h free _ chain _
      exact ⟨h.mem, h.freeList, rfl, by simpa [newPages] using chain, fun _ _ => rfl⟩
  | succ count ih =>
      intro ptr h free positive chain fresh
      have ptrFresh : ptr ∉ free := fresh ptr (by simp [newPages_succ])
      have pushed : Chain (pageNext (setPageNext h.mem ptr h.freeList)) ptr (ptr :: free) := by
        refine chain.push (by omega) ptrFresh (by simp [pageNext, setPageNext]) ?_
        intro x other
        simp [pageNext, setPageNext, write_of_ne other]
      have unique := nodup_newPages pf (count + 1) ptr
      rw [newPages_succ, List.nodup_cons] at unique
      rcases ih (ptr + pf.pageSize) { h with
          mem := setPageNext h.mem ptr h.freeList
          freeList := ptr
          freePages := h.freePages + 1
          totalPages := h.totalPages + 1 } (ptr :: free) (by omega) pushed (by
        intro p mem
        rw [List.mem_cons]
        rintro (rfl | inFree)
        · exact unique.1 mem
        · exact fresh p (by simp [newPages_succ, mem]) inFree) with
        ⟨mem, head, eq, chain', same⟩
      refine ⟨mem, head, ?_, ?_, ?_⟩
      · rw [linkNewPages, eq]
        simp only [Nat.add_assoc, Nat.add_comm 1 count]
      · simpa [newPages_succ] using chain'
      · intro x notNew
        rw [newPages_succ, List.mem_cons, not_or] at notNew
        rw [same x notNew.2]
        exact write_of_ne notNew.1

theorem le_roundToPages (pf : Platform) (length : Nat) :
    length ≤ roundToPages pf.pageSize length := by
  have large := pf.pageSize_ge
  have split := Nat.div_add_mod (length + (pf.pageSize - 1)) pf.pageSize
  have := Nat.mod_lt (length + (pf.pageSize - 1)) (show 0 < pf.pageSize by omega)
  rw [roundToPages, Nat.mul_comm]
  omega

theorem roundToPages_pos (pf : Platform) {length : Nat} (positive : 0 < length) :
    0 < roundToPages pf.pageSize length :=
  Nat.lt_of_lt_of_le positive (le_roundToPages pf length)

theorem roundToPages_mul (pf : Platform) (count : Nat) :
    roundToPages pf.pageSize (count * pf.pageSize) = count * pf.pageSize := by
  have := pf.pageSize_ge
  have quotient : (count * pf.pageSize + (pf.pageSize - 1)) / pf.pageSize = count := by
    rw [Nat.add_comm, Nat.add_mul_div_right _ _ (by omega), Nat.div_eq_of_lt (by omega)]
    omega
  rw [roundToPages, quotient]

/-- A mapping of `2^k` pages that succeeds is not truncated to the word size. -/
theorem pagePerMap_not_truncated {pf : Platform} {perMap : Nat} (power : ∃ k, perMap = 2 ^ k)
    (positive : 0 < perMap * pf.pageSize % wordSpace) :
    perMap * pf.pageSize % wordSpace = perMap * pf.pageSize := by
  rcases power with ⟨k, rfl⟩
  rcases pf.pageSize_pow with ⟨shift, _, eq⟩
  rw [eq, ← pow_add] at positive ⊢
  simp only [wordSpace] at positive ⊢
  rcases Nat.lt_or_ge (k + shift) 64 with small | large
  · exact Nat.mod_eq_of_lt (Nat.pow_lt_pow_right (by decide) small)
  · rw [Nat.mod_eq_zero_of_dvd (pow_dvd_pow 2 large)] at positive
    omega

/-- A mapped page and a fresh mapping do not overlap. -/
theorem PageMapped.apart_fresh {pf : Platform} {h : Heap} {p length start : Nat}
    (mapped : PageMapped pf h p) (fresh : FreshMapping pf.pageSize h.mappings length start)
    (nonempty : 0 < roundToPages pf.pageSize length) :
    p + pf.pageSize ≤ start ∨ start + roundToPages pf.pageSize length ≤ p := by
  rcases mapped with ⟨r, rMem, lower, upper⟩
  have := pf.pageSize_ge
  by_contra overlap
  have shared := fresh.unmapped r rMem (max p start) ⟨by omega, by omega⟩
  omega

/-- The statics that a page request leaves alone. -/
structure SameLists (h h' : Heap) : Prop where
  firstPage : h'.firstPage = h.firstPage
  lastPage : h'.lastPage = h.lastPage
  freeBlocks : h'.freeBlocks = h.freeBlocks
  maxFreeBlock : h'.maxFreeBlock = h.maxFreeBlock
  firstBigBlock : h'.firstBigBlock = h.firstBigBlock
  metaReads : h'.metaReads = h.metaReads

theorem SameLists.trans {h h' h'' : Heap} (first : SameLists h h') (second : SameLists h' h'') :
    SameLists h h'' :=
  ⟨second.1.trans first.1, second.2.trans first.2, second.3.trans first.3, second.4.trans first.4,
    second.5.trans first.5, second.6.trans first.6⟩

/-- The result of mapping pages for an empty free list. -/
def Expanded (pf : Platform) (fromHead aliveHead : Nat) (h : Heap) (c : Census)
    (h' : Heap) : Prop :=
  ∃ free, free ≠ [] ∧ Arena pf fromHead aliveHead h' { c with free := free } ∧
    Untouched pf h h' c { c with free := free } ∧ SameLists h h'

variable {pf : Platform} {fromHead aliveHead : Nat} {h h' : Heap} {c c' : Census}

theorem Arena.expand (arena : Arena pf fromHead aliveHead h c) (empty : c.free = [])
    {start : Nat}
    (answer : pf.mmap h.mmapCalls h.mappings (h.pagePerMap * pf.pageSize % wordSpace) = some start)
    {mapped linked : Heap}
    (mappedEq : mapped = { h with
      mmapCalls := h.mmapCalls + 1
      mappings := ⟨start, roundToPages pf.pageSize (h.pagePerMap * pf.pageSize % wordSpace)⟩ ::
        h.mappings
      mem := h.mem.fill start
        (roundToPages pf.pageSize (h.pagePerMap * pf.pageSize % wordSpace)) 0
      parts := h.parts ++ [⟨start, ptrAdd start (h.pagePerMap * pf.pageSize % wordSpace)⟩] })
    (linkedEq : linkNewPages pf h.pagePerMap start mapped = linked) :
    Expanded pf fromHead aliveHead h c
      { linked with pagePerMap := linked.pagePerMap * expandFactor } := by
  have fresh := pf.mmap_fresh answer
  have large := pf.pageSize_ge
  have untruncated := pagePerMap_not_truncated arena.perMap fresh.nonempty
  rw [untruncated] at mappedEq fresh
  rw [roundToPages_mul] at mappedEq
  have rounded := roundToPages_mul pf h.pagePerMap
  have inside := fresh.inside
  have unmapped := fresh.unmapped
  rw [rounded] at inside unmapped
  have lengthPos := fresh.nonempty
  have countPos : 0 < h.pagePerMap := Nat.pos_of_mul_pos_right lengthPos
  have apart : ∀ p ∈ c.pages, p + pf.pageSize ≤ start ∨
      start + h.pagePerMap * pf.pageSize ≤ p := by
    intro p mem
    have := (arena.mapped p mem).apart_fresh fresh (by rw [rounded]; exact lengthPos)
    rwa [rounded] at this
  have freshPage : ∀ p ∈ newPages pf h.pagePerMap start, p ∉ c.pages := by
    intro p new old
    have := newPages_bounds new
    have := apart p old
    omega
  have startChain : Chain (pageNext mapped.mem) mapped.freeList [] := by
    have := arena.freeChain
    rw [empty] at this
    rw [mappedEq]
    exact this
  rcases linkNewPages_spec pf h.pagePerMap start mapped [] fresh.nonnull startChain (by simp) with
    ⟨mem, head, eq, chain, same⟩
  rw [linkedEq] at eq
  subst mappedEq
  subst eq
  have memEq : ∀ x, x < start ∨ start + h.pagePerMap * pf.pageSize ≤ x → mem x = h.mem x := by
    intro x out
    rw [same x (fun new => by have := newPages_bounds new; omega)]
    exact fill_of_not_mem out
  have pageEq : ∀ p ∈ c.pages, AgreeOn h.mem mem p (p + pf.pageSize) := by
    intro p inPages x lower upper
    have := apart p inPages
    exact memEq x (by omega)
  have tiledPages : ∀ p ∈ c.tiled, p ∈ c.pages := fun p inTiled =>
    Census.mem_pages.mpr (Or.inl inTiled)
  have linkEq : ∀ p ∈ c.pages, pageNext mem p = pageNext h.mem p := fun p inPages =>
    pageEq p inPages p (Nat.le_refl _) (by omega)
  simp only [List.append_nil] at chain
  have pagesEq : ∀ free, ({ c with free := free } : Census).pages = c.tiled ++ free := fun _ => rfl
  have oldPages : c.pages = c.tiled := by simp [Census.pages, Census.tiled, empty]
  rw [oldPages] at freshPage
  refine ⟨(newPages pf h.pagePerMap start).reverse, ?_, ?_, ?_, ?_⟩
  · intro nil
    have : newPages pf h.pagePerMap start = [] := by simpa using nil
    have := congrArg List.length this
    simp [newPages] at this
    omega
  · refine
      { fromChain := ?_, aliveChain := ?_, freeChain := chain, distinct := ?_, aligned := ?_,
        bounded := ?_, mapped := ?_, pageOk := ?_, lastPage := arena.lastPage, owned := ?_,
        freePages := ?_, totalPages := ?_, perMap := ?_ }
    · exact arena.fromChain.congr fun p inFrom => linkEq p (by simp [Census.pages, inFrom])
    · exact arena.aliveChain.congr fun p inAlive => linkEq p (by simp [Census.pages, inAlive])
    · rw [pagesEq, List.nodup_append']
      refine ⟨oldPages ▸ arena.distinct, List.nodup_reverse.mpr (nodup_newPages ..), ?_⟩
      intro p old new
      exact freshPage p (List.mem_reverse.mp new) old
    · intro p inPages
      rcases Census.mem_pages.mp inPages with old | new
      · exact arena.aligned p (tiledPages p old)
      · rcases mem_newPages.mp (List.mem_reverse.mp new) with ⟨i, _, rfl⟩
        exact Nat.dvd_add fresh.aligned (Nat.dvd_mul_left _ _)
    · intro p inPages
      rcases Census.mem_pages.mp inPages with old | new
      · exact arena.bounded p (tiledPages p old)
      · have := newPages_bounds (List.mem_reverse.mp new)
        omega
    · intro p inPages
      rcases Census.mem_pages.mp inPages with old | new
      · rcases arena.mapped p (tiledPages p old) with ⟨r, rMem, bounds⟩
        exact ⟨r, List.mem_cons_of_mem _ rMem, bounds⟩
      · have := newPages_bounds (List.mem_reverse.mp new)
        exact ⟨_, List.mem_cons_self, this⟩
    · intro p inTiled
      exact (arena.pageOk p inTiled).transport
        ((pageEq p (tiledPages p inTiled)).mono (by omega) (Nat.le_refl _))
    · have stop : ptrAdd start (h.pagePerMap * pf.pageSize) =
          start + h.pagePerMap * pf.pageSize := ptrAdd_of_lt inside
      have count : (start + h.pagePerMap * pf.pageSize - start) / pf.pageSize = h.pagePerMap := by
        rw [Nat.add_sub_cancel_left, Nat.mul_div_cancel _ (by omega)]
      have newPart : HeapPart.pages pf ⟨start, ptrAdd start (h.pagePerMap * pf.pageSize)⟩ =
          newPages pf h.pagePerMap start := by
        simp only [HeapPart.pages, newPages, stop, count]
      rw [pagesEq, mappedPages, List.flatMap_append]
      refine List.Perm.append (oldPages ▸ arena.owned) ?_
      simpa only [List.flatMap_cons, List.flatMap_nil, List.append_nil, newPart] using
        List.reverse_perm _
    · have := arena.freePages
      simp only [empty, List.length_nil] at this
      simp [this, newPages]
    · have := arena.totalPages
      rw [oldPages] at this
      simp [this, pagesEq, newPages]
    · rcases arena.perMap with ⟨k, power⟩
      exact ⟨k + 1, by simp [power, expandFactor, Nat.pow_succ]⟩
  · refine ⟨⟨fun r mem => List.mem_cons_of_mem _ mem, ?_⟩,
      fun p inTiled => pageEq p (tiledPages p inTiled), ?_⟩
    · intro r mem
      rcases List.mem_cons.mp mem with rfl | old
      · refine Or.inr ⟨lengthPos, fun r₀ oldMem x contains inNew => ?_⟩
        have := unmapped r₀ oldMem x contains
        simp only [Region.Contains] at inNew
        omega
      · exact Or.inl old
    rintro x ⟨⟨r, rMem, contains⟩, notPage⟩
    have away := unmapped r rMem x contains
    refine ⟨⟨⟨r, List.mem_cons_of_mem _ rMem, contains⟩, fun p inPages => ?_⟩, memEq x away⟩
    rcases Census.mem_pages.mp inPages with old | new
    · exact notPage p (tiledPages p old)
    · have := newPages_bounds (List.mem_reverse.mp new)
      omega
  · exact ⟨rfl, rfl, rfl, rfl, rfl, rfl⟩

theorem morecore_of_some {size start : Nat}
    (answer : pf.mmap h.mmapCalls h.mappings size = some start) :
    morecore pf size false h = .ok (some start, { h with
      mmapCalls := h.mmapCalls + 1
      mappings := ⟨start, roundToPages pf.pageSize size⟩ :: h.mappings
      mem := h.mem.fill start (roundToPages pf.pageSize size) 0
      parts := h.parts ++ [⟨start, ptrAdd start size⟩] }) := by
  simp [morecore, mmap, answer]

/-- A refused request leaves the pages and their contents as they are. -/
structure Declined (pf : Platform) (fromHead aliveHead : Nat) (h : Heap) (c : Census) (h' : Heap) :
    Prop where
  arena : Arena pf fromHead aliveHead h' c
  untouched : Untouched pf h h' c c
  lists : SameLists h h'

theorem Declined.refl (arena : Arena pf fromHead aliveHead h c) :
    Declined pf fromHead aliveHead h c h where
  arena := arena
  untouched := ⟨MoreMapped.refl _, fun _ _ => AgreeOn.refl _ _ _, fun _ out => ⟨out, rfl⟩⟩
  lists := ⟨rfl, rfl, rfl, rfl, rfl, rfl⟩

/-- The part recorded for a refused mapping has no pages. -/
theorem HeapPart.pages_refused (pf : Platform) (size : Nat) :
    HeapPart.pages pf ⟨mapFailedAddr, ptrAdd mapFailedAddr size⟩ = [] := by
  have stop : ptrAdd mapFailedAddr size < wordSpace := Nat.mod_lt _ (by decide)
  have none : ptrAdd mapFailedAddr size - mapFailedAddr = 0 := by
    simp only [mapFailedAddr] at *
    omega
  simp [HeapPart.pages, none]

theorem Arena.declined (arena : Arena pf fromHead aliveHead h c) (size : Nat) :
    Declined pf fromHead aliveHead h c { h with
      mmapCalls := h.mmapCalls + 1
      parts := h.parts ++ [⟨mapFailedAddr, ptrAdd mapFailedAddr size⟩] } where
  arena :=
    { arena with
      owned := by
        rw [mappedPages, List.flatMap_append, List.flatMap_singleton, HeapPart.pages_refused,
          List.append_nil]
        exact arena.owned }
  untouched := ⟨MoreMapped.refl _, fun _ _ => AgreeOn.refl _ _ _, fun _ out => ⟨out, rfl⟩⟩
  lists := ⟨rfl, rfl, rfl, rfl, rfl, rfl⟩

theorem expandFreeList_yields (arena : Arena pf fromHead aliveHead h c) (empty : c.free = []) :
    Yields (· = Fault.mapFailed)
      (fun result => (result.1 = false ∧ Declined pf fromHead aliveHead h c result.2) ∨
        (result.1 = true ∧ Expanded pf fromHead aliveHead h c result.2))
      (expandFreeList pf h) := by
  cases answer : pf.mmap h.mmapCalls h.mappings (h.pagePerMap * pf.pageSize % wordSpace) with
  | none =>
      cases debug : pf.ndebug with
      | false =>
          have refused : expandFreeList pf h = .error .mapFailed := by
            simp [expandFreeList, morecore, mmap, answer, debug, bind, Except.bind]
          rw [refused]
          rfl
      | true =>
          have refused : expandFreeList pf h = .ok (false, { h with
              mmapCalls := h.mmapCalls + 1
              parts := h.parts ++ [⟨mapFailedAddr,
                ptrAdd mapFailedAddr (h.pagePerMap * pf.pageSize % wordSpace)⟩] }) := by
            simp [expandFreeList, morecore, mmap, answer, debug, bind, Except.bind]
          rw [refused]
          exact Or.inl ⟨rfl, arena.declined _⟩
  | some start =>
      rw [expandFreeList, morecore_of_some answer]
      exact Or.inr ⟨rfl, arena.expand empty answer rfl rfl⟩

/-- The census in which the first free page is held by the caller. -/
def Census.take (c : Census) (p : Nat) (free : List Nat) : Census :=
  { c with held := [p], free := free, blocks := Function.update c.blocks p [] }

/-- A page handed out by `request_new_page`. -/
structure Taken (pf : Platform) (fromHead aliveHead : Nat) (h : Heap) (c : Census) (p : Nat)
    (free : List Nat) (h' : Heap) : Prop where
  arena : Arena pf fromHead aliveHead h' (c.take p free)
  untouched : Untouched pf h h' c (c.take p free)
  lists : SameLists h h'
  writes : ChangedWithin h h' (InPage pf p)
  link : pageNext h'.mem p = 0
  nonnull : p ≠ 0
  fresh : p ∉ c.tiled

theorem Arena.take (arena : Arena pf fromHead aliveHead h c) (heldNil : c.held = [])
    (nonempty : c.free ≠ []) :
    ∃ free, Taken pf fromHead aliveHead h c (takePage pf h).1 free (takePage pf h).2 := by
  cases freeEq : c.free with
  | nil => exact absurd freeEq nonempty
  | cons p free =>
      have chain := arena.freeChain
      rw [freeEq] at chain
      rcases chain with ⟨head, nonnull, rest⟩
      have large := pf.pageSize_ge
      have pMem : p ∈ c.pages := by simp [Census.pages, freeEq]
      have aligned := arena.aligned p pMem
      have takenEq : takePage pf h = (p, { h with
          mem := ((h.mem.write p 0).write (p + 8) (p + 16)).write (p + 16) pf.bigBlockThreshold
          freeList := pageNext h.mem p
          freePages := h.freePages - 1 }) := by
        simp only [takePage, head, setPageNext, setFreeBlock, freeBlock, firstBlock, sizeofPage,
          write_same]
      have memEq : ∀ x, x < p ∨ p + pf.pageSize ≤ x →
          ((h.mem.write p 0).write (p + 8) (p + 16)).write (p + 16) pf.bigBlockThreshold x =
            h.mem x := by
        intro x out
        rw [write_of_ne (by omega), write_of_ne (by omega), write_of_ne (by omega)]
      generalize memDef : ((h.mem.write p 0).write (p + 8) (p + 16)).write (p + 16)
        pf.bigBlockThreshold = mem at takenEq memEq
      have unique := arena.distinct
      rw [Census.pages, heldNil, freeEq, List.nil_append] at unique
      have pNotTiled : p ∉ c.tiled := by
        rw [Census.tiled, heldNil, List.nil_append]
        intro inTiled
        exact (List.nodup_append'.mp unique).2.2 inTiled List.mem_cons_self
      have pNotFree : p ∉ free := (List.nodup_cons.mp (List.nodup_append'.mp unique).2.1).1
      have apart : ∀ q ∈ c.pages, q ≠ p → AgreeOn h.mem mem q (q + pf.pageSize) := by
        intro q inPages other x lower upper
        have := pages_apart (arena.aligned q inPages) aligned other
        exact memEq x (by omega)
      have linkEq : ∀ q ∈ c.pages, q ≠ p → pageNext mem q = pageNext h.mem q :=
        fun q inPages other => apart q inPages other q (Nat.le_refl _) (by omega)
      have pagesPerm : (c.take p free).pages.Perm c.pages := by
        simp only [Census.pages, Census.take, heldNil, freeEq, List.nil_append,
          List.cons_append]
        exact List.perm_middle.symm
      have pagesMem : ∀ q, q ∈ (c.take p free).pages ↔ q ∈ c.pages := fun q => pagesPerm.mem_iff
      have takenTiled : ∀ q, q ∈ (c.take p free).tiled ↔ q = p ∨ q ∈ c.tiled := by
        intro q
        simp [Census.tiled, Census.take, heldNil]
      have tiledNe : ∀ q ∈ c.tiled, q ≠ p := by
        rintro q inTiled rfl
        exact pNotTiled inTiled
      have tiledPages : ∀ q ∈ c.tiled, q ∈ c.pages := fun q inTiled =>
        Census.mem_pages.mpr (Or.inl inTiled)
      have fresh : PageOk pf mem p [] := by
        have freeWord : freeBlock mem p = p + 16 := by
          rw [← memDef, freeBlock, write_of_ne (by omega), write_same]
        refine ⟨by simp [freeWord, firstBlock, sizeofPage], by omega, fun _ => ?_, by simp⟩
        rw [freeWord, ← memDef, write_same]
        have := pf.bigBlockThreshold_add
        simp only [sizeofBlock]
        omega
      refine ⟨free, ?_⟩
      rw [takenEq]
      refine
        { arena := ?_, untouched := ⟨MoreMapped.refl _, ?_, ?_⟩,
          lists := ⟨rfl, rfl, rfl, rfl, rfl, rfl⟩, writes := ?_, link := ?_, nonnull := nonnull,
          fresh := pNotTiled }
      · refine
          { fromChain := ?_, aliveChain := ?_, freeChain := ?_,
            distinct := pagesPerm.nodup_iff.mpr arena.distinct,
            aligned := fun q inPages => arena.aligned q ((pagesMem q).mp inPages),
            bounded := fun q inPages => arena.bounded q ((pagesMem q).mp inPages),
            mapped := fun q inPages => arena.mapped q ((pagesMem q).mp inPages),
            pageOk := ?_, lastPage := arena.lastPage, owned := pagesPerm.trans arena.owned,
            freePages := ?_, totalPages := ?_, perMap := arena.perMap }
        · exact arena.fromChain.congr fun q inFrom =>
            linkEq q (by simp [Census.pages, inFrom]) (tiledNe q (by simp [Census.tiled, inFrom]))
        · exact arena.aliveChain.congr fun q inAlive =>
            linkEq q (by simp [Census.pages, inAlive]) (tiledNe q (by simp [Census.tiled, inAlive]))
        · exact rest.congr fun q inFree =>
            linkEq q (by simp [Census.pages, freeEq, inFree]) (by
              rintro rfl
              exact pNotFree inFree)
        · intro q inTiled
          rcases (takenTiled q).mp inTiled with rfl | old
          · simpa [Census.take] using fresh
          · simp only [Census.take, Function.update_of_ne (tiledNe q old)]
            exact (arena.pageOk q old).transport
              ((apart q (tiledPages q old) (tiledNe q old)).mono (by omega) (Nat.le_refl _))
        · have := arena.freePages
          simp only [freeEq, List.length_cons] at this
          simp [this, Census.take]
        · rw [pagesPerm.length_eq]
          exact arena.totalPages
      · exact fun q inTiled => apart q (tiledPages q inTiled) (tiledNe q inTiled)
      · rintro x ⟨contains, notPage⟩
        exact ⟨⟨contains, fun q inPages => notPage q ((pagesMem q).mp inPages)⟩,
          memEq x (notPage p pMem)⟩
      · intro x _ outside
        simp only [InPage] at outside
        exact memEq x (by omega)
      · change mem p = 0
        rw [← memDef, write_of_ne (by omega), write_of_ne (by omega), write_same]

/-- `request_new_page` hands out a page, or returns null where it may not or cannot expand. -/
theorem requestNewPage_yields (arena : Arena pf fromHead aliveHead h c) (heldNil : c.held = [])
    (expand : Bool) :
    Yields (· = Fault.mapFailed)
      (fun result =>
        (result.1 = 0 ∧ Declined pf fromHead aliveHead h c result.2) ∨
          ∃ free, Taken pf fromHead aliveHead h c result.1 free result.2)
      (requestNewPage pf expand h) := by
  unfold requestNewPage
  split
  · rename_i noFree
    have empty : c.free = [] := (arena.freeChain.head_eq_zero_iff).mp noFree
    cases expand with
    | false => exact Or.inl ⟨rfl, Declined.refl arena⟩
    | true =>
        have expanded := expandFreeList_yields arena empty
        simp only [Bool.not_true, Bool.false_eq_true, ↓reduceIte]
        refine expanded.bind ?_
        rintro ⟨mapped, expandedHeap⟩
          (⟨rfl, declined⟩ | ⟨rfl, free, nonempty, arena', untouched, lists⟩)
        · exact Or.inl ⟨rfl, declined⟩
        · rcases arena'.take heldNil nonempty with ⟨free', taken⟩
          refine Or.inr ⟨free', ?_⟩
          refine
            { arena := taken.arena
              untouched := untouched.trans taken.untouched fun _ inTiled => inTiled
              lists := lists.trans taken.lists
              writes := ?_
              link := taken.link
              nonnull := taken.nonnull
              fresh := taken.fresh }
          rintro x ⟨r, mem, contains⟩ outside
          rw [taken.writes x ⟨r, untouched.mappings.kept r mem, contains⟩ outside]
          exact untouched.mapped_eq empty ⟨r, mem, contains⟩
  · rename_i hasFree
    have nonempty : c.free ≠ [] := fun nil => hasFree (arena.freeChain.head_eq_zero_iff.mpr nil)
    exact Or.inr (arena.take heldNil nonempty)

end PreciseGc

import PreciseGc.Heap.PageAllocation

/-!
# Traversing pages and blocks

The loops over the blocks of a page and over a list of pages are driven by the
memory they change.  The rules below discharge the cursor once: a body that
keeps the block sizes, the free-block word and the page links of the memory in
which the loop starts visits exactly the blocks and pages of that memory.
-/

namespace PreciseGc

open Foundation Memory

variable {pf : Platform} {m : Memory} {p : Nat} {blocks pages : List Nat}
  {allowed : Fault → Prop} {fuel : Nat}

/-- A loop over the blocks of a page, up to a state that satisfies `escaped`. -/
theorem forBlocks_yields_or (escaped : Heap → Prop) (invariant : List Nat → Heap → Prop)
    {body : Nat → Heap → Except Fault Heap} {h : Heap}
    (tiles : Tiles (blockExtent m) (firstBlock p) (freeBlock m p) blocks)
    (free : ∀ rest h, invariant rest h → freeBlock h.mem p = freeBlock m p)
    (sizes : ∀ rest h, invariant rest h → ∀ d ∈ blocks, blockSize (h.mem d) = blockSize (m d))
    (step : ∀ d rest h, (∃ visited, blocks = visited ++ d :: rest) → invariant (d :: rest) h →
      Yields allowed (fun h' => invariant rest h' ∨ escaped h') (body d h))
    (stays : ∀ d h, escaped h → allowed .outOfFuel ∧ Yields allowed escaped (body d h))
    (enough : blocks.length < fuel) (start : invariant blocks h) :
    Yields allowed (fun h' => invariant [] h' ∨ escaped h') (forBlocks fuel p body h) := by
  unfold forBlocks
  refine (walk_yields_or escaped
    (fun (rest : List Nat) cursor h => invariant rest h ∧
      (∃ visited, blocks = visited ++ rest) ∧ Tiles (blockExtent m) cursor (freeBlock m p) rest)
    ?_ ?_ ?_ enough ⟨start, ⟨[], rfl⟩, tiles⟩).mono ?_
  · rintro cursor h ⟨holds, _, rest⟩
    rw [free _ _ holds]
    simpa using rest
  · rintro d rest cursor h ⟨holds, ⟨visited, split⟩, rfl, positive, later⟩
    constructor
    · rw [free _ _ holds]
      have := later.le
      simp only [beq_eq_false_iff_ne, ne_eq]
      omega
    · refine (step cursor rest h ⟨visited, split⟩ holds).bind fun h' holds' => ?_
      rcases holds' with holds' | escape
      · refine Or.inl ⟨holds', ⟨visited ++ [cursor], by simpa using split⟩, ?_⟩
        have inBlocks : cursor ∈ blocks := by simp [split]
        simp only [nextBlock_eq, blockExtent, sizes _ _ holds' cursor inBlocks]
        exact later
      · exact Or.inr escape
  · intro d h escape
    exact ⟨(stays d h escape).1, (stays d h escape).2.bind fun h' escape' => escape'⟩
  · rintro h' (⟨_, holds, _⟩ | escape)
    · exact Or.inl holds
    · exact Or.inr escape

/-- A loop over the blocks of a page. -/
theorem forBlocks_yields (invariant : List Nat → Heap → Prop)
    {body : Nat → Heap → Except Fault Heap} {h : Heap}
    (tiles : Tiles (blockExtent m) (firstBlock p) (freeBlock m p) blocks)
    (free : ∀ rest h, invariant rest h → freeBlock h.mem p = freeBlock m p)
    (sizes : ∀ rest h, invariant rest h → ∀ d ∈ blocks, blockSize (h.mem d) = blockSize (m d))
    (step : ∀ d rest h, (∃ visited, blocks = visited ++ d :: rest) → invariant (d :: rest) h →
      Yields allowed (invariant rest) (body d h))
    (enough : blocks.length < fuel) (start : invariant blocks h) :
    Yields allowed (invariant []) (forBlocks fuel p body h) :=
  (forBlocks_yields_or (fun _ => False) invariant tiles free sizes
    (fun d rest h split holds => (step d rest h split holds).mono fun _ => Or.inl)
    (fun _ _ never => never.elim) enough start).mono fun _ reached => reached.resolve_right id

/-- A loop over a list of pages, up to a state that satisfies `escaped`. -/
theorem forPages_yields_or {σ : Type} {heap : σ → Heap} (escaped : σ → Prop)
    (invariant : List Nat → σ → Prop) {body : Nat → σ → Except Fault σ} {s : σ}
    (chain : Chain (pageNext m) p pages)
    (links : ∀ rest s, invariant rest s → ∀ q ∈ pages, pageNext (heap s).mem q = pageNext m q)
    (step : ∀ q rest s, (∃ visited, pages = visited ++ q :: rest) → invariant (q :: rest) s →
      Yields allowed (fun s' => invariant rest s' ∨ escaped s') (body q s))
    (stays : ∀ q s, escaped s → allowed .outOfFuel ∧ Yields allowed escaped (body q s))
    (enough : pages.length < fuel) (start : invariant pages s) :
    Yields allowed (fun s' => invariant [] s' ∨ escaped s') (forPages heap fuel p body s) := by
  unfold forPages
  refine (walk_yields_or escaped
    (fun (rest : List Nat) cursor s => invariant rest s ∧
      (∃ visited, pages = visited ++ rest) ∧ Chain (pageNext m) cursor rest)
    ?_ ?_ ?_ enough ⟨start, ⟨[], rfl⟩, chain⟩).mono ?_
  · rintro cursor s ⟨_, _, rest⟩
    simpa using rest
  · rintro q rest cursor s ⟨holds, ⟨visited, split⟩, rfl, nonnull, later⟩
    refine ⟨by simpa using nonnull, ?_⟩
    refine (step cursor rest s ⟨visited, split⟩ holds).bind fun s' holds' => ?_
    rcases holds' with holds' | escape
    · refine Or.inl ⟨holds', ⟨visited ++ [cursor], by simpa using split⟩, ?_⟩
      rw [links _ _ holds' cursor (by simp [split])]
      exact later
    · exact Or.inr escape
  · intro q s escape
    exact ⟨(stays q s escape).1, (stays q s escape).2.bind fun s' escape' => escape'⟩
  · rintro s' (⟨_, holds, _⟩ | escape)
    · exact Or.inl holds
    · exact Or.inr escape

/-- The search for a pinned block of a page finds one or stops at the free block. -/
theorem findPinned_spec {b : Nat} (tiles : Tiles (blockExtent m) b (freeBlock m p) blocks)
    (enough : blocks.length < fuel) :
    (findPinned m p fuel b = .ok (freeBlock m p) ∧ ∀ d ∈ blocks, blockIsPinned (m d) = false) ∨
      ∃ d ∈ blocks, findPinned m p fuel b = .ok d ∧ d ≠ freeBlock m p ∧
        blockIsPinned (m d) = true := by
  induction fuel generalizing b blocks with
  | zero => omega
  | succ fuel ih =>
      cases blocks with
      | nil =>
          rw [Tiles.nil_iff] at tiles
          left
          simp [findPinned, tiles]
      | cons d rest =>
          rcases tiles with ⟨rfl, positive, later⟩
          have before : b ≠ freeBlock m p := by
            have := later.le
            omega
          rw [findPinned, if_neg before]
          by_cases pinned : blockIsPinned (m b) = true
          · exact Or.inr ⟨b, by simp, by rw [if_pos pinned], before, pinned⟩
          · rw [if_neg pinned, nextBlock_eq]
            rw [Bool.not_eq_true] at pinned
            simp only [List.length_cons] at enough
            rcases ih later (by omega) with ⟨eq, unpinned⟩ | ⟨d, mem, rest⟩
            · refine Or.inl ⟨eq, fun d mem => ?_⟩
              rcases List.mem_cons.mp mem with rfl | mem
              · exact pinned
              · exact unpinned d mem
            · exact Or.inr ⟨d, by simp [mem], rest⟩

@[simp]
theorem blockSize_retainedHeader (header : Nat) :
    blockSize (retainedHeader header) = blockSize header := by
  unfold retainedHeader
  dsimp only
  split <;> simp

/-- The loop over the blocks of a page that stays in place rewrites every header and nothing
else. -/
theorem retainBlocks_spec {h : Heap} (ok : PageOk pf h.mem p blocks)
    (enough : blocks.length < fuel) :
    ∃ h', forBlocks fuel p retainBlock h = .ok h' ∧ h' = { h with mem := h'.mem } ∧
      (∀ d ∈ blocks, h'.mem d = retainedHeader (h.mem d)) ∧
        ∀ x, x ∉ blocks → h'.mem x = h.mem x := by
  have unique := ok.tiles.nodup
  have yields : Yields (fun _ => False) _ (forBlocks fuel p retainBlock h) := forBlocks_yields
    (fun rest h' => h' = { h with mem := h'.mem } ∧
      (∀ d ∈ blocks, d ∉ rest → h'.mem d = retainedHeader (h.mem d)) ∧
        (∀ d ∈ rest, h'.mem d = h.mem d) ∧ ∀ x, x ∉ blocks → h'.mem x = h.mem x)
    ok.tiles ?_ ?_ ?_ enough ⟨rfl, fun d mem notMem => absurd mem notMem, fun _ _ => rfl,
      fun _ _ => rfl⟩
  · rcases yields.total with ⟨h', eq, heapEq, headers, _, others⟩
    exact ⟨h', eq, heapEq, fun d mem => headers d mem (by simp), others⟩
  · rintro rest h' ⟨_, _, _, others⟩
    refine others _ fun mem => ?_
    have := ok.block_bounds mem
    omega
  · rintro rest h' ⟨_, headers, untouched, _⟩ d mem
    by_cases inRest : d ∈ rest
    · rw [untouched d inRest]
    · rw [headers d mem inRest, blockSize_retainedHeader]
  · rintro d rest h' ⟨visited, rfl⟩ ⟨heapEq, headers, untouched, others⟩
    have dFresh : d ∉ rest := by
      have := (List.nodup_append'.mp unique).2.1
      exact (List.nodup_cons.mp this).1
    refine ⟨?_, ?_, ?_, ?_⟩
    · rw [heapEq]
    · intro e mem notRest
      change h'.mem.write d (retainedHeader (h'.mem d)) e = _
      by_cases same : e = d
      · subst same
        rw [write_same, untouched e (by simp)]
      · rw [write_of_ne same]
        exact headers e mem (by simp [same, notRest])
    · intro e mem
      have : e ≠ d := by
        rintro rfl
        exact dFresh mem
      exact (write_of_ne this).trans (untouched e (by simp [mem]))
    · intro x notMem
      have : x ≠ d := by
        rintro rfl
        exact notMem (by simp)
      exact (write_of_ne this).trans (others x notMem)

end PreciseGc

import PreciseGc.Heap.Statics

/-!
# The mappings that hold pages

`request_new_page` records every mapping it asks for in `parts`, refused ones
under the address `MAP_FAILED`.  In a process that doubles `page_per_map` with
each mapping, what it adds to the mappings is what it adds to the records.
-/

namespace PreciseGc

open Foundation

variable {pf : Platform} {h h' h'' : Heap} {parts parts' : List HeapPart} {r : Region}

/-- The mapping a record stands for. -/
def HeapPart.mapping (part : HeapPart) : Option Region :=
  if part.start = mapFailedAddr then none else some ⟨part.start, part.stop - part.start⟩

/-- The mappings made by `request_new_page`, from their records. -/
def pageMappings (parts : List HeapPart) : List Region := parts.filterMap HeapPart.mapping

@[simp]
theorem pageMappings_append (parts parts' : List HeapPart) :
    pageMappings (parts ++ parts') = pageMappings parts ++ pageMappings parts' :=
  List.filterMap_append

theorem mem_pageMappings : r ∈ pageMappings parts ↔
    ∃ part ∈ parts, part.start ≠ mapFailedAddr ∧ r = ⟨part.start, part.stop - part.start⟩ := by
  simp only [pageMappings, List.mem_filterMap, HeapPart.mapping]
  constructor
  · rintro ⟨part, mem, eq⟩
    split at eq
    · cases eq
    · rename_i granted
      cases eq
      exact ⟨part, mem, granted, rfl⟩
  · rintro ⟨part, mem, granted, rfl⟩
    exact ⟨part, mem, if_neg granted⟩

/-- The process has gained the mappings recorded in `parts`, and nothing else. -/
structure Gains (pf : Platform) (h h' : Heap) (parts : List HeapPart) : Prop where
  recorded : h'.parts = h.parts ++ parts
  mapped : h'.mappings = (pageMappings parts).reverse ++ h.mappings
  bounded : ∀ part ∈ parts, part.stop < wordSpace
  fresh : ∀ r ∈ pageMappings parts, ∀ old ∈ h.mappings, 0 < old.length → old.start ≠ r.start
  granted : pf.ndebug = false → ∀ part ∈ parts, part.start ≠ mapFailedAddr
  doubled : h'.pagePerMap = h.pagePerMap * 2 ^ (pageMappings parts).length
  capacity : pageMappings parts = [] ∨ h'.pagePerMap * pf.pageSize < 2 * wordSpace

theorem Gains.refl (h : Heap) : Gains pf h h [] where
  recorded := (List.append_nil _).symm
  mapped := rfl
  bounded := by simp
  fresh := by simp [pageMappings]
  granted := by simp
  doubled := (Nat.mul_one _).symm
  capacity := Or.inl rfl

theorem Gains.trans (first : Gains pf h h' parts) (second : Gains pf h' h'' parts') :
    Gains pf h h'' (parts ++ parts') where
  recorded := by rw [second.recorded, first.recorded, List.append_assoc]
  mapped := by
    rw [second.mapped, first.mapped, pageMappings_append, List.reverse_append, List.append_assoc]
  bounded part mem := (List.mem_append.mp mem).elim (first.bounded part) (second.bounded part)
  fresh := by
    intro r mem old oldMem
    rw [pageMappings_append] at mem
    rcases List.mem_append.mp mem with early | late
    · exact first.fresh r early old oldMem
    · apply second.fresh r late old
      rw [first.mapped]
      exact List.mem_append_right _ oldMem
  granted asserts part mem :=
    (List.mem_append.mp mem).elim (first.granted asserts part) (second.granted asserts part)
  doubled := by
    rw [second.doubled, first.doubled, pageMappings_append, List.length_append, pow_add,
      Nat.mul_assoc]
  capacity := by
    rcases second.capacity with none | room
    · have same : h''.pagePerMap = h'.pagePerMap := by simp [second.doubled, none]
      rw [pageMappings_append, none, List.append_nil, same]
      exact first.capacity
    · exact Or.inr room

/-- From `h` to `h'` the process has gained mappings for pages, and nothing else. -/
structure MapsPages (pf : Platform) (h h' : Heap) : Prop where
  doubling : ∃ k, h'.pagePerMap = 2 ^ k
  gains : ∃ parts, Gains pf h h' parts

theorem MapsPages.refl (doubling : ∃ k, h.pagePerMap = 2 ^ k) : MapsPages pf h h :=
  ⟨doubling, [], Gains.refl h⟩

theorem MapsPages.trans (first : MapsPages pf h h') (second : MapsPages pf h' h'') :
    MapsPages pf h h'' := by
  rcases first.gains with ⟨parts, gains⟩
  rcases second.gains with ⟨parts', gains'⟩
  exact ⟨second.doubling, parts ++ parts', gains.trans gains'⟩

/-- Only three statics matter. -/
theorem MapsPages.congr (maps : MapsPages pf h h') (parts : h''.parts = h'.parts)
    (mappings : h''.mappings = h'.mappings) (perMap : h''.pagePerMap = h'.pagePerMap) :
    MapsPages pf h h'' := by
  rcases maps.gains with ⟨new, gains⟩
  refine ⟨perMap ▸ maps.doubling, new, ?_, ?_, gains.bounded, gains.fresh, gains.granted, ?_, ?_⟩
  · exact parts.trans gains.recorded
  · exact mappings.trans gains.mapped
  · exact perMap.trans gains.doubled
  · rw [perMap]
    exact gains.capacity

/-- A mapping for `page_per_map` pages is recorded with its bounds, and the next one is to have
twice as many. -/
theorem expandFreeList_mapsPages (doubling : ∃ k, h.pagePerMap = 2 ^ k) :
    Yields (fun _ => True) (fun result => MapsPages pf h result.2) (expandFreeList pf h) := by
  have bounded : ∀ start, ptrAdd start (h.pagePerMap * pf.pageSize % wordSpace) < wordSpace :=
    fun start => Nat.mod_lt _ (by decide)
  unfold expandFreeList
  cases answer : pf.mmap h.mmapCalls h.mappings (h.pagePerMap * pf.pageSize % wordSpace) with
  | none =>
      cases asserts : pf.ndebug with
      | false => simp [morecore, mmap, answer, asserts, bind, Except.bind, Yields]
      | true =>
          have refused : pageMappings [⟨mapFailedAddr,
              ptrAdd mapFailedAddr (h.pagePerMap * pf.pageSize % wordSpace)⟩] = [] := by
            simp [pageMappings, HeapPart.mapping]
          simp only [morecore, mmap, answer, asserts, Bool.false_eq_true, ↓reduceIte,
            Option.getD_none, Option.isNone_none, Bool.not_true, Bool.and_false, bind, Except.bind]
          refine ⟨doubling, [_], rfl, ?_, by simp [bounded], ?_, by simp [asserts], ?_, ?_⟩
          · rw [refused]
            rfl
          · simp [refused]
          · simp [refused]
          · exact Or.inl refused
  | some start =>
      have fresh := pf.mmap_fresh answer
      have whole := pagePerMap_not_truncated doubling fresh.nonempty
      have rounded := roundToPages_mul pf h.pagePerMap
      have positive := roundToPages_pos pf fresh.nonempty
      have inside := fresh.inside
      have unmapped := fresh.unmapped
      rw [whole, rounded] at inside positive unmapped
      have granted : start ≠ mapFailedAddr := by
        simp only [mapFailedAddr]
        omega
      have made : pageMappings [⟨start, ptrAdd start (h.pagePerMap * pf.pageSize)⟩] =
          [⟨start, h.pagePerMap * pf.pageSize⟩] := by
        simp [pageMappings, HeapPart.mapping, granted, ptrAdd_of_lt inside]
      rw [whole] at bounded
      obtain ⟨h₁, eq, recorded, mapped, perMap⟩ : ∃ h₁,
          morecore pf (h.pagePerMap * pf.pageSize % wordSpace) false h = .ok (some start, h₁) ∧
            h₁.parts = h.parts ++ [⟨start, ptrAdd start (h.pagePerMap * pf.pageSize)⟩] ∧
              h₁.mappings = ⟨start, h.pagePerMap * pf.pageSize⟩ :: h.mappings ∧
                h₁.pagePerMap = h.pagePerMap := by
        refine ⟨_, morecore_of_some answer, ?_, ?_, rfl⟩
        · rw [whole]
        · rw [whole, rounded]
      rw [eq]
      rcases @linkNewPages_statics pf h₁ h₁.pagePerMap start with ⟨parts, mappings, kept⟩
      have doubled : (linkNewPages pf h₁.pagePerMap start h₁).pagePerMap * expandFactor =
          h.pagePerMap * 2 := by rw [kept, perMap, expandFactor]
      refine ⟨?_, [⟨start, ptrAdd start (h.pagePerMap * pf.pageSize)⟩], parts.trans recorded, ?_,
        by simp [bounded], ?_, by simp [granted], ?_, ?_⟩
      · rcases doubling with ⟨k, power⟩
        exact ⟨k + 1, by rw [doubled, power, pow_succ]⟩
      · rw [made]
        exact mappings.trans mapped
      · rw [made]
        intro r mem old oldMem nonempty
        rw [List.mem_singleton.mp mem]
        have apart := unmapped old oldMem old.start ⟨Nat.le_refl _, by omega⟩
        dsimp only
        omega
      · rw [made]
        exact doubled
      · right
        dsimp only
        rw [doubled, Nat.mul_right_comm]
        omega

theorem requestNewPage_mapsPages (doubling : ∃ k, h.pagePerMap = 2 ^ k) (expand : Bool) :
    Yields (fun _ => True) (fun result => MapsPages pf h result.2)
      (requestNewPage pf expand h) := by
  unfold requestNewPage
  split
  · split
    · exact MapsPages.refl doubling
    · apply (expandFreeList_mapsPages doubling).bind
      rintro ⟨mapped, h₁⟩ maps
      cases mapped with
      | false => exact maps
      | true => exact maps.congr rfl rfl rfl
  · exact (MapsPages.refl doubling).congr rfl rfl rfl

end PreciseGc

import PreciseGc.Foundation.Record
import PreciseGc.Heap.PageMappings

/-!
# Writes to the records of the mappings

`morecore` writes `parts[parts_count]` for every mapping that is to hold pages,
before it looks at the answer of `mmap`.  The functions below record the heaps
in which `morecore` is entered to that end, for each function of the allocator;
the record is there even if the assertion of `morecore` stops the call.
-/

namespace PreciseGc

open Foundation

variable {pf : Platform} {h h' h'' : Heap} {writes writes' : List Heap} {s : Nat}

def requestNewPageWrites (expand : Bool) (h : Heap) : List Heap :=
  if h.freeList = 0 then
    if !expand then [] else [h]
  else []

def initFirstPageWrites (h : Heap) : List Heap :=
  if h.firstPage = 0 then requestNewPageWrites true h else []

def mallocInternalWrites (pf : Platform) (s : Nat) (expand : Bool) (h : Heap) : List Heap :=
  if pf.bigBlockThreshold < s then []
  else if pageIsFull pf h.mem h.lastPage || blockSize (h.mem (freeBlock h.mem h.lastPage)) < s then
    requestNewPageWrites expand h
  else []

def gcmallocWrites (pf : Platform) (s : Nat) (expand : Bool) (h : Heap) : List Heap :=
  initFirstPageWrites h ++
    after (initFirstPage pf h) fun first =>
      if first.1 then mallocInternalWrites pf (align s) expand first.2 else []

/-- From `h` to `h'` the process has gained mappings for pages, one record for each write. -/
structure Written (pf : Platform) (writes : List Heap) (h h' : Heap) : Prop where
  maps : MapsPages pf h h'
  grown : h'.parts.length = h.parts.length + writes.length

/-- The number of pages for the next mapping is a power of two. -/
def Doubling (h : Heap) : Prop := ∃ k, h.pagePerMap = 2 ^ k

theorem Written.refl (doubling : Doubling h) : Written pf [] h h :=
  ⟨MapsPages.refl doubling, rfl⟩

theorem Written.trans (first : Written pf writes h h') (second : Written pf writes' h' h'') :
    Written pf (writes ++ writes') h h'' where
  maps := first.maps.trans second.maps
  grown := by
    rw [second.grown, first.grown, List.length_append]
    omega

/-- Only three statics matter. -/
theorem Written.congr (written : Written pf writes h h') (parts : h''.parts = h'.parts)
    (mappings : h''.mappings = h'.mappings) (perMap : h''.pagePerMap = h'.pagePerMap) :
    Written pf writes h h'' where
  maps := written.maps.congr parts mappings perMap
  grown := by rw [parts, written.grown]

theorem writtenLaws (pf : Platform) : EffectLaws Doubling (MapsPages pf) (Written pf) where
  refl _ doubling := Written.refl doubling
  trans _ _ _ _ _ first second := first.trans second
  back _ _ _ _ written maps := written.maps.trans maps
  next _ _ _ written := written.maps.doubling

/-- The record of a computation on heaps that maps pages. -/
abbrev Writes {α : Type} (pf : Platform) (h : Heap) (view : α → Heap) (writes : List Heap)
    (computation : Except Fault α) : Prop :=
  Performs (MapsPages pf) (Written pf) h view writes computation

theorem requestNewPage_grown (pf : Platform) (expand : Bool) (h : Heap) :
    Yields (fun _ => True)
      (fun result => result.2.parts.length =
        h.parts.length + (requestNewPageWrites expand h).length)
      (requestNewPage pf expand h) := by
  unfold requestNewPage requestNewPageWrites
  split
  · cases expand with
    | false => exact rfl
    | true =>
        have expanded : Yields (fun _ => True)
            (fun result => result.2.parts.length = h.parts.length + 1) (expandFreeList pf h) := by
          have mapped : Yields (fun _ => True)
              (fun result => result.2.parts.length = h.parts.length + 1)
              (morecore pf (h.pagePerMap * pf.pageSize % wordSpace) false h) := by
            unfold morecore mmap
            cases pf.mmap h.mmapCalls h.mappings (h.pagePerMap * pf.pageSize % wordSpace) with
            | none =>
                cases pf.ndebug with
                | false => trivial
                | true => simp
            | some start => simp
          unfold expandFreeList
          apply mapped.bind
          rintro ⟨start, h₁⟩ grown
          cases start with
          | none => exact grown
          | some start =>
              have linked := (@linkNewPages_statics pf h₁ h₁.pagePerMap start).1
              exact (congrArg List.length linked).trans grown
        apply expanded.bind
        rintro ⟨mapped, h₁⟩ grown
        cases mapped with
        | false => exact grown
        | true => exact grown
  · exact rfl

theorem requestNewPage_writes (doubling : Doubling h) (expand : Bool) :
    Writes pf h Prod.snd (requestNewPageWrites expand h) (requestNewPage pf expand h) where
  entries := by
    unfold requestNewPageWrites
    split
    · cases expand with
      | false => simp
      | true => simpa using MapsPages.refl doubling
    · simp
  result := ((requestNewPage_mapsPages doubling expand).and (requestNewPage_grown pf expand h)).mono
    fun _ both => ⟨both.1, both.2⟩

theorem initFirstPage_writes (doubling : Doubling h) :
    Writes pf h Prod.snd (initFirstPageWrites h) (initFirstPage pf h) := by
  unfold initFirstPage initFirstPageWrites
  split
  · apply (requestNewPage_writes doubling true).andThen (writtenLaws pf)
    rintro ⟨newPage, h₁⟩ here
    have idle : Written pf [] h₁ h₁ := Written.refl here
    dsimp only
    split
    · exact idle.congr rfl rfl rfl
    · exact idle.congr rfl rfl rfl
  · exact Performs.quiet (Written.refl doubling)

/-- A request that is not for a big block. -/
theorem mallocInternal_writes (doubling : Doubling h) (isSmall : s ≤ pf.bigBlockThreshold)
    (expand : Bool) :
    Writes pf h Prod.snd (mallocInternalWrites pf s expand h) (mallocInternal pf s expand h) := by
  rw [mallocInternal, mallocInternalWrites, if_neg (Nat.not_lt.mpr isSmall),
    if_neg (Nat.not_lt.mpr isSmall)]
  split
  · apply (requestNewPage_writes doubling expand).andThen (writtenLaws pf)
    rintro ⟨newPage, h₁⟩ here
    have idle : Written pf [] h₁ h₁ := Written.refl here
    dsimp only
    split
    · exact idle.congr rfl rfl rfl
    · exact idle.congr rfl rfl rfl
  · exact Performs.quiet ((Written.refl doubling).congr rfl rfl rfl)

end PreciseGc

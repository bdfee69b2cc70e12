import PreciseGc.Allocator.BlockInvariant

/-!
# Calls of `gcmalloc`

A call of `gcmalloc` makes an attempt under `malloc_mutex`.  When it yields the
null pointer, the call collects and makes another attempt, which may map new
pages.  The collection is a parameter `gc` of the model.

A refused mapping leaves traces: a page request records the mapping before it
looks at the answer, and both early returns skip the unlocking.  With
assertions compiled out, a failed call leaves none only if it requested a big
block from an allocator that has a first page.
-/

namespace PreciseGc

open Foundation

/-- One of the two attempts of `gcmalloc`: its result, and whether it ended in the early return,
with `malloc_mutex` locked. -/
structure Attempt where
  result : Nat
  locked : Bool
  heap : Heap

/-- The statements of `gcmalloc` from `pthread_mutex_lock` on, up to `pthread_mutex_unlock`. -/
def attempt (pf : Platform) (s : Nat) (expand : Bool) (h : Heap) : Except Fault Attempt :=
  initFirstPage pf h >>= fun first =>
    if first.1 then
      mallocInternal pf (align s) expand first.2 >>= fun served =>
        .ok ⟨served.1, false, served.2⟩
    else .ok ⟨0, true, first.2⟩

/-- What a call of `gcmalloc` leaves behind.  `collection` is a history variable: the heaps before
and after the collection of the call. -/
structure GcmallocReturn where
  result : Nat
  heap : Heap
  locked : Bool
  collection : Option (Heap × Heap)

/-- `gcmalloc(s)`, from the moment on at which it has locked `malloc_mutex`. -/
def gcmalloc (pf : Platform) (gc : Heap → Except Fault Heap) (s : Nat) (h : Heap) :
    Except Fault GcmallocReturn :=
  attempt pf s false h >>= fun first =>
    if first.locked then .ok ⟨0, first.heap, true, none⟩
    else if first.result = 0 then
      gc first.heap >>= fun collected =>
        attempt pf s true collected >>= fun second =>
          if second.locked then .ok ⟨0, second.heap, true, some (first.heap, collected)⟩
          else
            assertThat pf (second.result != 0) >>= fun _ =>
              .ok ⟨second.result, second.heap, false, some (first.heap, collected)⟩
    else .ok ⟨first.result, first.heap, false, none⟩

/-- The critical sections of `gcmalloc` are its attempts. -/
theorem gcmallocLocked_eq (pf : Platform) (s : Nat) (expand : Bool) (h : Heap) :
    gcmallocLocked pf s expand h =
      (attempt pf s expand h).map fun a => (a.result, a.heap) := by
  unfold gcmallocLocked attempt
  cases initFirstPage pf h with
  | error fault => rfl
  | ok first =>
      rcases first with ⟨_ | _, h₁⟩
      · rfl
      · simp only [bind, Except.bind]
        cases mallocInternal pf (align s) expand h₁ with
        | error fault => rfl
        | ok served => rfl

/-- The heap in which the attempt was made that the result comes from. -/
def GcmallocReturn.entered (r : GcmallocReturn) (h : Heap) : Heap :=
  (r.collection.map Prod.snd).getD h

section Failure

variable {pf : Platform} {gc : Heap → Except Fault Heap} {s : Nat} {expand : Bool}
  {h h' : Heap} {a : Attempt} {r : GcmallocReturn}

/-- The statics of the page lists, the big blocks and the recorded mappings are the same. -/
structure SameStatics (h h' : Heap) : Prop where
  firstPage : h'.firstPage = h.firstPage
  lastPage : h'.lastPage = h.lastPage
  freeList : h'.freeList = h.freeList
  firstBigBlock : h'.firstBigBlock = h.firstBigBlock
  parts : h'.parts = h.parts

/-- A call has released `malloc_mutex`, and only its collection has changed the statics. -/
structure LeavesNoTrace (h : Heap) (r : GcmallocReturn) : Prop where
  unlocked : r.locked = false
  direct : r.collection = none → SameStatics h r.heap
  collected : ∀ before after, r.collection = some (before, after) →
    SameStatics h before ∧ SameStatics after r.heap

/-- What a failed attempt has done. -/
inductive FailedAttempt (pf : Platform) (s : Nat) (expand : Bool) (h : Heap) : Attempt → Prop where
  | noFirstPage {h' : Heap} : h.firstPage = 0 → FailedAttempt pf s expand h ⟨0, true, h'⟩
  | initialised {h' : Heap} : h.firstPage = 0 → h'.firstPage ≠ 0 →
      FailedAttempt pf s expand h ⟨0, false, h'⟩
  | big : h.firstPage ≠ 0 → pf.bigBlockThreshold < align s →
      FailedAttempt pf s expand h ⟨0, false, { h with mmapCalls := h.mmapCalls + 1 }⟩
  | declined {h' : Heap} : h.firstPage ≠ 0 → align s ≤ pf.bigBlockThreshold → expand = false →
      SameStatics h h' → FailedAttempt pf s expand h ⟨0, false, h'⟩
  | recorded {h' : Heap} {part : HeapPart} : h.firstPage ≠ 0 → align s ≤ pf.bigBlockThreshold →
      expand = true → SameLists h h' → h'.parts = h.parts ++ [part] →
        FailedAttempt pf s expand h ⟨0, false, h'⟩

/-- `morecore` records a page mapping in any case. -/
theorem morecore_records (size : Nat) :
    Yields (fun _ => True) (fun result => ∃ part, result.2.parts = h.parts ++ [part])
      (morecore pf size false h) := by
  have same : (mmap pf size h).2.parts = h.parts := by
    unfold mmap
    split <;> rfl
  unfold morecore
  simp only [Bool.false_eq_true, ↓reduceIte]
  split
  · trivial
  · exact ⟨_, by rw [same]⟩

/-- What `request_new_page` has done when it yields the null page. -/
theorem requestNewPage_null (expand : Bool) :
    Yields (fun _ => True)
      (fun result => result.1 = 0 → (expand = false ∧ result.2 = h) ∨
        (expand = true ∧ ∃ part, result.2.parts = h.parts ++ [part]))
      (requestNewPage pf expand h) := by
  unfold requestNewPage
  split
  · cases expand with
    | false => exact fun _ => Or.inl ⟨rfl, rfl⟩
    | true =>
        have expanded : Yields (fun _ => True)
            (fun result => ∃ part, result.2.parts = h.parts ++ [part]) (expandFreeList pf h) := by
          unfold expandFreeList
          apply (morecore_records _).bind
          rintro ⟨start, h₁⟩ ⟨part, parts⟩
          cases start with
          | none => exact ⟨part, parts⟩
          | some ptr => exact ⟨part, (linkNewPages_statics _ ptr).1.trans parts⟩
        apply expanded.bind
        rintro ⟨mapped, h₁⟩ records
        cases mapped with
        | false => exact fun _ => Or.inr ⟨rfl, records⟩
        | true => exact fun _ => Or.inr ⟨rfl, records⟩
  · rename_i nonempty
    intro null
    exact absurd null nonempty

theorem mallocInternal_null (expand : Bool) (hasPage : h.firstPage ≠ 0) :
    Yields (fun _ => True)
      (fun result => result.1 = 0 → FailedAttempt pf s expand h ⟨0, false, result.2⟩)
      (mallocInternal pf (align s) expand h) := by
  unfold mallocInternal
  split
  · rename_i isBig
    cases answer : pf.mmap h.mmapCalls h.mappings ((align s + sizeofBigBlock) % wordSpace) with
    | none =>
        rw [morecore_big_of_none answer]
        exact fun _ => .big hasPage isBig
    | some b =>
        rw [morecore_big_of_some answer]
        intro null
        exact absurd null (by simp [bigData, sizeofBigBlock])
  · rename_i isSmall
    split
    · apply ((requestNewPage_null expand).and (requestNewPage_sameLists expand)).bind
      rintro ⟨newPage, h₁⟩ ⟨failed, lists⟩
      dsimp only
      split
      · rename_i null
        intro
        rcases failed null with ⟨noExpand, same⟩ | ⟨expands, part, parts⟩
        · dsimp only at same
          subst same
          exact .declined hasPage (Nat.not_lt.mp isSmall) noExpand ⟨rfl, rfl, rfl, rfl, rfl⟩
        · exact .recorded hasPage (Nat.not_lt.mp isSmall) expands { lists with } parts
      · intro null
        exact absurd null (by simp [blockData, sizeofBlock])
    · intro null
      exact absurd null (by simp [blockData, sizeofBlock])

theorem FailedAttempt.firstPage (failed : FailedAttempt pf s expand h ⟨0, false, h'⟩)
    (hasPage : h.firstPage ≠ 0) : h'.firstPage ≠ 0 := by
  cases failed with
  | initialised noPage _ => exact absurd noPage hasPage
  | big => exact hasPage
  | declined _ _ _ same => exact same.firstPage ▸ hasPage
  | recorded _ _ _ lists _ => exact lists.firstPage ▸ hasPage

/-- There is a first page, unless the initialisation has sent `gcmalloc` back. -/
theorem initFirstPage_hasPage (pf : Platform) (h : Heap) :
    Yields (fun _ => True)
      (fun first => (first.1 = false ∧ h.firstPage = 0) ∨
        (first.1 = true ∧ first.2.firstPage ≠ 0 ∧ (h.firstPage ≠ 0 → first.2 = h)))
      (initFirstPage pf h) := by
  unfold initFirstPage
  split
  · rename_i noPage
    apply (requestNewPage_sameLists true).bind
    rintro ⟨newPage, h₁⟩ -
    dsimp only
    split
    · exact Or.inl ⟨rfl, noPage⟩
    · rename_i nonnull
      exact Or.inr ⟨rfl, nonnull, fun hasPage => absurd noPage hasPage⟩
  · rename_i hasPage
    exact Or.inr ⟨rfl, hasPage, fun _ => rfl⟩

theorem attempt_failed (pf : Platform) (s : Nat) (expand : Bool) (h : Heap) :
    Yields (fun _ => True) (fun a => a.result = 0 → FailedAttempt pf s expand h a)
      (attempt pf s expand h) := by
  apply (initFirstPage_hasPage pf h).bind
  rintro ⟨first, h₁⟩ (⟨rfl, noPage⟩ | ⟨rfl, hasPage, same⟩)
  · exact fun _ => .noFirstPage noPage
  · apply (mallocInternal_null expand hasPage).bind
    rintro ⟨result, h'⟩ failed null
    dsimp only at null failed
    subst null
    by_cases noPage : h.firstPage = 0
    · exact .initialised noPage ((failed rfl).firstPage hasPage)
    · have unchanged := same noPage
      dsimp only at unchanged
      subst unchanged
      exact failed rfl

theorem attempt_locked (eq : attempt pf s expand h = .ok a) (locked : a.locked = true) :
    a.result = 0 := by
  unfold attempt at eq
  rcases bind_eq_ok eq with ⟨first, -, rest⟩
  split at rest
  · rcases bind_eq_ok rest with ⟨served, -, last⟩
    cases last
    cases locked
  · cases rest
    rfl

/-- A failed attempt has left the statics alone if and only if it needed no first page and could not
map any. -/
theorem FailedAttempt.sameStatics_iff (failed : FailedAttempt pf s expand h a) :
    a.locked = false ∧ SameStatics h a.heap ↔
      h.firstPage ≠ 0 ∧ (pf.bigBlockThreshold < align s ∨ expand = false) := by
  cases failed with
  | noFirstPage noPage => simp [noPage]
  | initialised noPage hasPage =>
      have changed : ¬SameStatics h _ := fun same => hasPage (same.firstPage.trans noPage)
      simp [noPage, changed]
  | big hasPage isBig =>
      have same : SameStatics h { h with mmapCalls := h.mmapCalls + 1 } :=
        ⟨rfl, rfl, rfl, rfl, rfl⟩
      simp [hasPage, isBig, same]
  | declined hasPage _ noExpand same => simp [hasPage, noExpand, same]
  | @recorded h' part hasPage isSmall expands _ parts =>
      have changed : ¬SameStatics h h' := by
        intro same
        have unchanged := same.parts
        simp [parts] at unchanged
      simp [changed, Nat.not_lt.mpr isSmall, expands]

/-- A refused big block changes nothing but the number of calls of `mmap`. -/
theorem FailedAttempt.of_big (failed : FailedAttempt pf s expand h a) (hasPage : h.firstPage ≠ 0)
    (isBig : pf.bigBlockThreshold < align s) :
    a = ⟨0, false, { h with mmapCalls := h.mmapCalls + 1 }⟩ := by
  cases failed with
  | noFirstPage noPage => exact absurd noPage hasPage
  | initialised noPage _ => exact absurd noPage hasPage
  | big => rfl
  | declined _ isSmall => exact absurd isBig (Nat.not_lt.mpr isSmall)
  | recorded _ isSmall => exact absurd isBig (Nat.not_lt.mpr isSmall)

/-- A call that yields the null pointer ended in its first early return, or collected and failed
again. -/
theorem gcmalloc_failed (eq : gcmalloc pf gc s h = .ok r) (failed : r.result = 0) :
    ∃ first, FailedAttempt pf s false h first ∧
      ((first.locked = true ∧ r.locked = true) ∨
        (first.locked = false ∧ ∃ collected second, gc first.heap = .ok collected ∧
          FailedAttempt pf s true collected second ∧
          r = ⟨0, second.heap, second.locked, some (first.heap, collected)⟩)) := by
  unfold gcmalloc at eq
  rcases bind_eq_ok eq with ⟨first, firstEq, rest⟩
  have firstFailed := (attempt_failed pf s false h).of_ok firstEq
  refine ⟨first, ?_⟩
  split at rest
  · rename_i locked
    cases rest
    exact ⟨firstFailed (attempt_locked firstEq locked), Or.inl ⟨locked, rfl⟩⟩
  · rename_i unlocked
    split at rest
    · rename_i null
      refine ⟨firstFailed null, Or.inr ⟨by simpa using unlocked, ?_⟩⟩
      rcases bind_eq_ok rest with ⟨collected, collects, rest⟩
      rcases bind_eq_ok rest with ⟨second, secondEq, last⟩
      have secondFailed := (attempt_failed pf s true collected).of_ok secondEq
      refine ⟨collected, second, collects, ?_⟩
      split at last
      · rename_i locked
        cases last
        exact ⟨secondFailed (attempt_locked secondEq locked), by rw [locked]⟩
      · rename_i unlocked'
        rcases bind_eq_ok last with ⟨_, _, last⟩
        cases last
        dsimp only at failed
        exact ⟨secondFailed failed, by rw [failed, Bool.eq_false_iff.mpr unlocked']⟩
    · rename_i nonnull
      cases rest
      exact absurd failed nonnull

/-- With assertions compiled out, a call that yields the null pointer leaves no trace if and only if
it requests a big block and neither attempt has to provide the first page. -/
theorem gcmalloc_leavesNoTrace_iff (eq : gcmalloc pf gc s h = .ok r) (failed : r.result = 0) :
    LeavesNoTrace h r ↔ pf.bigBlockThreshold < align s ∧ h.firstPage ≠ 0 ∧
      ∀ collected, gc { h with mmapCalls := h.mmapCalls + 1 } = .ok collected →
        collected.firstPage ≠ 0 := by
  rcases gcmalloc_failed eq failed with
    ⟨first, firstFailed, ⟨locked, left⟩ |
      ⟨unlocked, collected, second, collects, secondFailed, rfl⟩⟩
  · have noPage : h.firstPage = 0 := by
      by_contra hasPage
      have released := (firstFailed.sameStatics_iff.mpr ⟨hasPage, Or.inr rfl⟩).1
      simp [locked] at released
    constructor
    · intro clean
      simp [clean.unlocked] at left
    · intro never
      exact absurd noPage never.2.1
  · constructor
    · intro clean
      rcases clean.collected _ _ rfl with ⟨direct, collectedSame⟩
      have hasPage := (firstFailed.sameStatics_iff.mp ⟨unlocked, direct⟩).1
      rcases secondFailed.sameStatics_iff.mp ⟨clean.unlocked, collectedSame⟩ with
        ⟨stillPage, isBig | never⟩
      · refine ⟨isBig, hasPage, fun collected' collects' => ?_⟩
        rw [firstFailed.of_big hasPage isBig, collects'] at collects
        cases collects
        exact stillPage
      · cases never
    · rintro ⟨isBig, hasPage, keepsPage⟩
      have direct := firstFailed.sameStatics_iff.mpr ⟨hasPage, Or.inr rfl⟩
      rw [firstFailed.of_big hasPage isBig] at collects
      have again := secondFailed.sameStatics_iff.mpr ⟨keepsPage collected collects, Or.inl isBig⟩
      refine { unlocked := again.1, direct := ?_, collected := ?_ }
      · intro never
        cases never
      · rintro before after same
        cases same
        exact ⟨direct.2, again.2⟩

end Failure

/-- Every mapping is refused, and assertions are compiled out. -/
def refusesAll : Platform := { noMemory with ndebug := true }

/-- An allocator whose only page is full. -/
def fullPage : Heap := { mem := fun _ => 8192, firstPage := 4096, lastPage := 4096 }

/-- The first allocation of a process leaves `malloc_mutex` locked, a request for a new page the
record of a mapping that does not exist. -/
theorem gcmalloc_leavesTraces :
    (∃ r, gcmalloc refusesAll .ok 1 { mem := fun _ => 0 } = .ok r ∧ r.result = 0 ∧
      r.locked = true ∧ ¬LeavesNoTrace { mem := fun _ => 0 } r) ∧
    ∃ r, gcmalloc refusesAll .ok 1 fullPage = .ok r ∧ r.result = 0 ∧ r.heap.parts ≠ [] ∧
      ¬LeavesNoTrace fullPage r := by
  constructor
  · have eq : gcmalloc refusesAll .ok 1 { mem := fun _ => 0 } = .ok ⟨0, _, true, none⟩ := rfl
    refine ⟨_, eq, rfl, rfl, fun clean => ?_⟩
    cases clean.unlocked
  · have eq : gcmalloc refusesAll .ok 1 fullPage = .ok ⟨0, _, false, some (_, _)⟩ := rfl
    refine ⟨_, eq, rfl, by decide, fun clean => ?_⟩
    have parts := (clean.collected _ _ rfl).2.parts
    cases parts

/-- A big block is refused to an allocator with a page. -/
theorem gcmalloc_leavesNoTrace_iff_bigBlock :
    ∃ r, gcmalloc refusesAll .ok 5000 fullPage = .ok r ∧ r.result = 0 ∧
      LeavesNoTrace fullPage r := by
  have eq : gcmalloc refusesAll .ok 5000 fullPage = .ok ⟨0, { fullPage with mmapCalls := 2 }, false,
    some ({ fullPage with mmapCalls := 1 }, { fullPage with mmapCalls := 1 })⟩ := rfl
  refine ⟨_, eq, rfl, (gcmalloc_leavesNoTrace_iff eq rfl).mpr ⟨by decide, by decide, ?_⟩⟩
  rintro collected same
  cases same
  decide

end PreciseGc

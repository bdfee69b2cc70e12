import PreciseGc.Heap.Objects
import PreciseGc.Heap.Traversal

/-!
# The loops of the redirecting pass

The pass reads the `base_meta` of every block that is not dead and calls
`fix_ptr` on each slot it finds there.  The rules below reduce the pass to one
call of `fix_ptr`: a relation `J todo m` between the slots still to be fixed
and the memory, kept by `fix_ptr`, holds at the end if it implies that the
lists, the headers and the shapes of the objects are those of the memory in
which the pass starts.

A block need not hold an object.  The words of such a block are then read as a
`base_meta` all the same, and the rules say no more than that this was
recorded.
-/

namespace PreciseGc

open Foundation Memory

variable {pf : Platform} {allowed : Fault → Prop} {m m' : Memory} {pages : List Nat}
  {blocks : Nat → List Nat} {isObject : Nat → Bool} {J : List Nat → Memory → Prop} {fuel b : Nat}

/-- The blocks among `ds` that hold an object the pass visits. -/
def visitedObjects (m : Memory) (isObject : Nat → Bool) (ds : List Nat) : List Nat :=
  ds.filter fun d => !blockIsDead (m d) && isObject d

/-- The slots of the objects among `ds`, in the order of the pass. -/
def visitedSlots (m : Memory) (isObject : Nat → Bool) (ds : List Nat) : List Nat :=
  (visitedObjects m isObject ds).flatMap (slotsOf m)

theorem visitedSlots_cons (m : Memory) (isObject : Nat → Bool) (d : Nat) (ds : List Nat) :
    visitedSlots m isObject (d :: ds) =
      (if !blockIsDead (m d) && isObject d then slotsOf m d else []) ++
        visitedSlots m isObject ds := by
  simp only [visitedSlots, visitedObjects, List.filter_cons]
  split <;> simp

theorem visitedSlots_append (m : Memory) (isObject : Nat → Bool) (ds es : List Nat) :
    visitedSlots m isObject (ds ++ es) =
      visitedSlots m isObject ds ++ visitedSlots m isObject es := by
  simp [visitedSlots, visitedObjects]

theorem mem_visitedSlots {ds : List Nat} {x : Nat} : x ∈ visitedSlots m isObject ds ↔
    ∃ d ∈ ds, blockIsDead (m d) = false ∧ isObject d = true ∧ x ∈ slotsOf m d := by
  simp only [visitedSlots, visitedObjects, List.mem_flatMap, List.mem_filter, Bool.and_eq_true,
    Bool.not_eq_true']
  constructor
  · rintro ⟨d, ⟨mem, alive, object⟩, slot⟩
    exact ⟨d, mem, alive, object, slot⟩
  · rintro ⟨d, mem, alive, object, slot⟩
    exact ⟨d, ⟨mem, alive, object⟩, slot⟩

section Object

variable (step : ∀ p rest m', J (p :: rest) m' → J rest (fixPtr p m'))
  (shape : ∀ rest m', J rest m' → SameShape m b m' b)

include step shape

theorem fixSlots_keeps {i data : Nat}
    (slot : ∀ j < shellCount m (shellOf m b),
      ptrAdd data (shellOffset m (shellOf m b) j) = slotAddr m b i j)
    {count j : Nat} (range : j + count = shellCount m (shellOf m b)) {rest : List Nat}
    (holds : J ((List.range' j count).map (slotAddr m b i) ++ rest) m') :
    J rest (fixSlots (blockData b) data count j m') := by
  induction count generalizing j m' with
  | zero => exact holds
  | succ count ih =>
      rw [fixSlots]
      have less : j < shellCount m (shellOf m b) := by omega
      have same := shape _ _ holds
      have shellEq : metaShell m' (blockData b) = shellOf m b := same.shell
      rw [shellEq, same.offset j less, slot j less]
      refine ih (by omega) (step _ _ _ ?_)
      rw [List.range'_succ, List.map_cons, List.cons_append] at holds
      exact holds

theorem fixElements_keeps (object : GcObject m (fun _ => True) b)
    (bounded : b + 8 + blockSize (m b) ≤ wordSpace) {left fuel i data : Nat}
    (range : i + left = countOf m b) (enough : left < fuel)
    (dataEq : data % wordSpace = (objectOf b + i * shellSize m (shellOf m b)) % wordSpace)
    {rest : List Nat}
    (holds : J ((List.range' i left).flatMap (elementSlots m b) ++ rest) m') :
    ∃ m'', fixElements (blockData b) (shellSize m (shellOf m b)) (shellCount m (shellOf m b)) fuel i
      data m' = .ok m'' ∧ J rest m'' := by
  induction left generalizing fuel i data m' with
  | zero =>
      cases fuel with
      | zero => omega
      | succ fuel =>
          have count : metaCount m' (blockData b) = countOf m b := (shape _ _ holds).count
          have stop : ¬i < metaCount m' (blockData b) := by omega
          rw [fixElements, if_neg stop]
          exact ⟨m', rfl, holds⟩
  | succ left ih =>
      cases fuel with
      | zero => omega
      | succ fuel =>
          have count : metaCount m' (blockData b) = countOf m b := (shape _ _ holds).count
          have less : i < countOf m b := by omega
          have running : i < metaCount m' (blockData b) := by omega
          rw [fixElements, if_pos running]
          refine ih (by omega) (by omega) (ptrAdd_element dataEq)
            (fixSlots_keeps step shape (i := i) ?_ (Nat.zero_add _) ?_)
          · exact fun j jLess => object.ptrAdd_slot bounded less jLess dataEq
          · rw [List.range'_succ, List.flatMap_cons, List.append_assoc] at holds
            rw [← List.range_eq_range']
            exact holds

end Object

/-- What the relation `J` has to provide. -/
structure FixPlan (allowed : Fault → Prop) (m : Memory) (pages : List Nat)
    (blocks : Nat → List Nat) (isObject : Nat → Bool) (J : List Nat → Memory → Prop) : Prop where
  step : ∀ p rest m', J (p :: rest) m' → J rest (fixPtr p m')
  links : ∀ rest m', J rest m' → ∀ q ∈ pages, pageNext m' q = pageNext m q
  free : ∀ rest m', J rest m' → ∀ q ∈ pages, freeBlock m' q = freeBlock m q
  sizes : ∀ rest m', J rest m' → ∀ q ∈ pages, ∀ d ∈ blocks q, blockSize (m' d) = blockSize (m d)
  dead : ∀ rest m', J rest m' → ∀ q ∈ pages, ∀ d ∈ blocks q,
    blockIsDead (m' d) = blockIsDead (m d)
  unflagged : ∀ rest m', J rest m' → ∀ q ∈ pages, ∀ d ∈ blocks q,
    (blockIsPinned (m' d) = false ∧ blockIsMarked (m' d) = false) ∨ allowed .assertFailed
  shape : ∀ rest m', J rest m' → ∀ q ∈ pages, ∀ d ∈ blocks q, blockIsDead (m d) = false →
    isObject d = true → SameShape m d m' d
  object : ∀ q ∈ pages, ∀ d ∈ blocks q, blockIsDead (m d) = false → isObject d = true →
    GcObject m (fun _ => True) d ∧ d + 8 + blockSize (m d) ≤ wordSpace
  exhausted : (∃ q ∈ pages, ∃ d ∈ blocks q, blockIsDead (m d) = false ∧ isObject d = false) →
    ∀ fault, allowed fault

/-- Some block that holds no object has been read as a `base_meta`. -/
def Misread (m : Memory) (pages : List Nat) (blocks : Nat → List Nat) (isObject : Nat → Bool)
    (h : Heap) : Prop :=
  ∃ q ∈ pages, ∃ d ∈ blocks q, blockIsDead (m d) = false ∧ isObject d = false ∧
    blockData d ∈ h.metaReads

/-- Every block among `ds` is dead or holds an object. -/
def AllObjects (m : Memory) (isObject : Nat → Bool) (ds : List Nat) : Prop :=
  ∀ d ∈ ds, blockIsDead (m d) = true ∨ isObject d = true

/-- The pass changes the memory and the history variable only. -/
structure FixState (h₀ : Heap) (J : List Nat → Memory → Prop) (todo : List Nat) (h : Heap) :
    Prop where
  holds : J todo h.mem
  heapEq : h = { h₀ with mem := h.mem, metaReads := h.metaReads }

theorem FixState.initial {J : List Nat → Memory → Prop} {todo : List Nat} {h : Heap}
    (holds : J todo h.mem) : FixState h J todo h := ⟨holds, rfl⟩

theorem assertThat_yields {condition : Bool} (holds : condition = true ∨ allowed .assertFailed) :
    Yields allowed (fun _ => True) (assertThat pf condition) := by
  unfold assertThat
  split
  · trivial
  · rename_i failed
    rcases holds with rfl | permitted
    · simp at failed
    · exact permitted

/-- The metadata reads are only ever added to. -/
theorem fixBlock_metaReads {h : Heap} (every : ∀ fault, allowed fault) :
    Yields allowed (fun h' => ∀ r ∈ h.metaReads, r ∈ h'.metaReads) (fixBlock pf fuel b h) := by
  unfold fixBlock
  refine (assertThat_yields (Or.inr (every _))).bind fun _ _ => ?_
  refine (assertThat_yields (Or.inr (every _))).bind fun _ _ => ?_
  split
  · exact fun r mem => mem
  · dsimp only
    split
    · exact fun r mem => List.mem_append_left _ mem
    · cases fixElements (blockData b) _ _ fuel 0 _ _ with
      | error fault => exact every fault
      | ok m' => exact fun r mem => List.mem_append_left _ mem

theorem Misread.fixBlock {h : Heap} (misread : Misread m pages blocks isObject h)
    (every : ∀ fault, allowed fault) :
    Yields allowed (Misread m pages blocks isObject) (fixBlock pf fuel b h) := by
  rcases misread with ⟨q, qMem, d, dMem, alive, other, read⟩
  exact (fixBlock_metaReads every).mono fun h' grows =>
    ⟨q, qMem, d, dMem, alive, other, grows _ read⟩

variable {h₀ h : Heap} {q : Nat} {rest : List Nat}

namespace FixPlan

theorem every (plan : FixPlan allowed m pages blocks isObject J)
    (misread : Misread m pages blocks isObject h) : ∀ fault, allowed fault := by
  rcases misread with ⟨q, qMem, d, dMem, alive, other, _⟩
  exact plan.exhausted ⟨q, qMem, d, dMem, alive, other⟩

/-- One block of the pass. -/
theorem fixBlock_yields (plan : FixPlan allowed m pages blocks isObject J) (qMem : q ∈ pages)
    (bMem : b ∈ blocks q) (enough : blockSize (m b) < fuel)
    (state : FixState h₀ J (visitedSlots m isObject [b] ++ rest) h) :
    Yields allowed (fun h' => (FixState h₀ J rest h' ∧
      (blockIsDead (m b) = true ∨ isObject b = true)) ∨ Misread m pages blocks isObject h')
      (fixBlock pf fuel b h) := by
  have unflagged := plan.unflagged _ _ state.holds q qMem b bMem
  unfold fixBlock
  refine (assertThat_yields ?_).bind fun _ _ => ?_
  · exact unflagged.imp (fun flags => by simp [flags.1]) id
  refine (assertThat_yields ?_).bind fun _ _ => ?_
  · exact unflagged.imp (fun flags => by simp [flags.2]) id
  rw [plan.dead _ _ state.holds q qMem b bMem]
  by_cases isDead : blockIsDead (m b) = true
  · rw [if_pos isDead]
    refine Or.inl ⟨⟨?_, state.heapEq⟩, Or.inl isDead⟩
    have holds := state.holds
    rw [visitedSlots_cons, isDead] at holds
    exact holds
  · rw [if_neg isDead]
    rw [Bool.not_eq_true] at isDead
    by_cases object : isObject b = true
    · have holds := state.holds
      have same := plan.shape _ _ holds q qMem b bMem isDead object
      rcases plan.object q qMem b bMem isDead object with ⟨gcObject, bounded⟩
      rw [visitedSlots_cons, isDead, object] at holds
      simp only [Bool.not_false, Bool.and_self, ↓reduceIte, List.append_assoc] at holds
      have shellEq : metaShell h.mem (blockData b) = shellOf m b := same.shell
      dsimp only
      rw [shellEq, same.slots, same.size]
      split
      · rename_i none
        rw [slotsOf_eq_nil none] at holds
        refine Or.inl ⟨⟨holds, ?_⟩, Or.inr object⟩
        rw [state.heapEq]
      · rename_i some
        have dataEq : (blockData b + sizeofBaseMeta) % wordSpace =
            (objectOf b + 0 * shellSize m (shellOf m b)) % wordSpace := by
          rw [Nat.zero_mul, Nat.add_zero]
          rfl
        have few := gcObject.count_le some
        rcases fixElements_keeps plan.step
            (fun rest m' holds' => plan.shape rest m' holds' q qMem b bMem isDead object)
            gcObject bounded (Nat.zero_add _) (Nat.lt_of_le_of_lt few enough) dataEq
            (by rw [← List.range_eq_range']; exact holds :
              J ((List.range' 0 (countOf m b)).flatMap (elementSlots m b) ++
                (visitedSlots m isObject [] ++ rest)) h.mem) with ⟨m'', eq, holds'⟩
        rw [eq]
        refine Or.inl ⟨⟨holds', ?_⟩, Or.inr object⟩
        rw [state.heapEq]
    · rw [Bool.not_eq_true] at object
      have every := plan.exhausted ⟨q, qMem, b, bMem, isDead, object⟩
      have read : ∀ reads : List Nat, reads = h.metaReads ++ [blockData b] →
          blockData b ∈ reads := by
        rintro _ rfl
        simp
      dsimp only
      split
      · exact Or.inr ⟨q, qMem, b, bMem, isDead, object, read _ rfl⟩
      · cases fixElements (blockData b) _ _ fuel 0 _ _ with
        | error fault => exact every fault
        | ok m' => exact Or.inr ⟨q, qMem, b, bMem, isDead, object, read _ rfl⟩

/-- One page of the pass. -/
theorem fixPage_yields (plan : FixPlan allowed m pages blocks isObject J) (qMem : q ∈ pages)
    (tiles : Tiles (blockExtent m) (firstBlock q) (freeBlock m q) (blocks q))
    (enoughBlocks : (blocks q).length < fuel) (enough : ∀ d ∈ blocks q, blockSize (m d) < fuel)
    (state : FixState h₀ J (visitedSlots m isObject (blocks q) ++ rest) h) :
    Yields allowed (fun h' => (FixState h₀ J rest h' ∧ AllObjects m isObject (blocks q)) ∨
      Misread m pages blocks isObject h') (fixPage pf fuel q h) := by
  refine (forBlocks_yields_or (Misread m pages blocks isObject)
    (fun ds h' => FixState h₀ J (visitedSlots m isObject ds ++ rest) h' ∧
      ∃ visited, blocks q = visited ++ ds ∧ AllObjects m isObject visited)
    tiles ?_ ?_ ?_ ?_ enoughBlocks ⟨state, [], rfl, by simp [AllObjects]⟩).mono ?_
  · exact fun ds h' holds => plan.free _ _ holds.1.holds q qMem
  · exact fun ds h' holds => plan.sizes _ _ holds.1.holds q qMem
  · rintro d ds h' _ ⟨state', visited, split, objects⟩
    have dMem : d ∈ blocks q := by simp [split]
    rw [show d :: ds = [d] ++ ds from rfl, visitedSlots_append, List.append_assoc] at state'
    refine (plan.fixBlock_yields qMem dMem (enough d dMem) state').mono fun h'' reached => ?_
    refine reached.imp (fun holds => ⟨holds.1, visited ++ [d], by simp [split], ?_⟩) id
    intro e mem
    rcases List.mem_append.mp mem with before | last
    · exact objects e before
    · rw [List.mem_singleton.mp last]
      exact holds.2
  · intro d h' misread
    exact ⟨plan.every misread _, misread.fixBlock (plan.every misread)⟩
  · intro h' reached
    refine reached.imp (fun holds => ⟨holds.1, ?_⟩) id
    rcases holds.2 with ⟨visited, split, objects⟩
    rw [split, List.append_nil]
    exact objects

/-- The pass over a list of pages. -/
theorem fixPages_yields (plan : FixPlan allowed m pages blocks isObject J) {head : Nat}
    (chain : Chain (pageNext m) head pages)
    (tiles : ∀ q ∈ pages, Tiles (blockExtent m) (firstBlock q) (freeBlock m q) (blocks q))
    (enoughPages : pages.length < fuel) (enoughBlocks : ∀ q ∈ pages, (blocks q).length < fuel)
    (enough : ∀ q ∈ pages, ∀ d ∈ blocks q, blockSize (m d) < fuel)
    (state : FixState h₀ J (visitedSlots m isObject (pages.flatMap blocks) ++ rest) h) :
    Yields allowed (fun h' => (FixState h₀ J rest h' ∧
      AllObjects m isObject (pages.flatMap blocks)) ∨ Misread m pages blocks isObject h')
      (fixPages pf fuel head h) := by
  refine (forPages_yields_or (Misread m pages blocks isObject)
    (fun qs h' => FixState h₀ J (visitedSlots m isObject (qs.flatMap blocks) ++ rest) h' ∧
      ∃ visited, pages = visited ++ qs ∧ AllObjects m isObject (visited.flatMap blocks))
    chain ?_ ?_ ?_ enoughPages ⟨state, [], rfl, by simp [AllObjects]⟩).mono ?_
  · exact fun qs h' holds => plan.links _ _ holds.1.holds
  · rintro r qs h' _ ⟨state', visited, split, objects⟩
    have rMem : r ∈ pages := by simp [split]
    rw [List.flatMap_cons, visitedSlots_append, List.append_assoc] at state'
    refine (plan.fixPage_yields rMem (tiles r rMem) (enoughBlocks r rMem) (enough r rMem)
      state').mono fun h'' reached => ?_
    refine reached.imp (fun holds => ⟨holds.1, visited ++ [r], by simp [split], ?_⟩) id
    intro d mem
    rw [List.flatMap_append, List.flatMap_singleton] at mem
    rcases List.mem_append.mp mem with before | last
    · exact objects d before
    · exact holds.2 d last
  · intro r h' misread
    have every := plan.every misread
    refine ⟨every _, ?_⟩
    exact walk_keeps (fun d h misread => ⟨every _, (misread.fixBlock every).bind fun _ => id⟩) fuel
      misread
  · intro h' reached
    refine reached.imp (fun holds => ⟨holds.1, ?_⟩) id
    rcases holds.2 with ⟨visited, split, objects⟩
    rw [split, List.append_nil]
    exact objects

end FixPlan

end PreciseGc

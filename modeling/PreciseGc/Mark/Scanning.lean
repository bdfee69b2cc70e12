import PreciseGc.Mark.Marking

/-!
# Scanning objects

One iteration of `go` marks the popped object and pushes its unmarked
successors.  The number of unmarked objects and the height of the stack make up
a variant of the loop.
-/

namespace PreciseGc

open Foundation Memory

variable {h : Heap} {objects bigs : List Nat} {headers pins : Nat → Prop} {m : Memory}
  {t t' t'' : Traversal} {b fuel : Nat}

/-- Scanning sets flags of headers that belong to no object.  The unmarked objects among those
that the scanned words lead to are pushed, unless there is an overflow. -/
structure Scanned (objects : List Nat) (headers leads : Nat → Prop) (t t' : Traversal) :
    Prop where
  heapEq : t'.heap = { t.heap with mem := t'.heap.mem }
  marking : Marking headers (fun _ => False) t.heap.mem t'.heap.mem
  same : ∀ b ∈ objects, t'.heap.mem b = t.heap.mem b
  stack : ∃ pushed, t'.stack = pushed ++ t.stack ∧
    ∀ p ∈ pushed, ∃ b ∈ objects, p = objectOf b ∧ leads b ∧ blockIsMarked (t.heap.mem b) = false
  height : t.stack.length ≤ maxStackSize → t'.stack.length ≤ maxStackSize
  found : ∀ d, leads d →
    blockIsMarked (t.heap.mem d) = true ∨ objectOf d ∈ t'.stack ∨ t'.overflow = true
  overflowed : t.overflow = true → t'.overflow = true

namespace Scanned

variable {leads leads' : Nat → Prop}

theorem refl (objects : List Nat) (headers : Nat → Prop) (t : Traversal) :
    Scanned objects headers (fun _ => False) t t where
  heapEq := rfl
  marking := Marking.refl headers _
  same _ _ := rfl
  stack := ⟨[], rfl, by simp⟩
  height := id
  found _ never := never.elim
  overflowed := id

theorem congr (scanned : Scanned objects headers leads t t') (same : ∀ d, leads d ↔ leads' d) :
    Scanned objects headers leads' t t' := by
  have eq : leads = leads' := funext fun d => propext (same d)
  rw [← eq]
  exact scanned

theorem trans (first : Scanned objects headers leads t t')
    (second : Scanned objects headers leads' t' t'') (isObject : ∀ d, leads' d → d ∈ objects) :
    Scanned objects headers (fun d => leads d ∨ leads' d) t t'' where
  heapEq := by
    rw [second.heapEq, first.heapEq]
  marking := first.marking.andMark second.marking
  same b mem := (second.same b mem).trans (first.same b mem)
  stack := by
    rcases first.stack with ⟨pushed, eq, unmarked⟩
    rcases second.stack with ⟨pushed', eq', unmarked'⟩
    refine ⟨pushed' ++ pushed, by rw [eq', eq, List.append_assoc], fun p mem => ?_⟩
    rcases List.mem_append.mp mem with mem | mem
    · rcases unmarked' p mem with ⟨b, bMem, pEq, led, notMarked⟩
      rw [first.same b bMem] at notMarked
      exact ⟨b, bMem, pEq, Or.inr led, notMarked⟩
    · rcases unmarked p mem with ⟨b, bMem, pEq, led, notMarked⟩
      exact ⟨b, bMem, pEq, Or.inl led, notMarked⟩
  height bounded := second.height (first.height bounded)
  found d led := by
    rcases led with led | led
    · rcases first.found d led with marked | stacked | overflow
      · exact Or.inl marked
      · rcases second.stack with ⟨pushed, eq, _⟩
        right
        left
        rw [eq]
        exact List.mem_append_right _ stacked
      · exact Or.inr (Or.inr (second.overflowed overflow))
    · rw [← first.same d (isObject d led)]
      exact second.found d led
  overflowed overflow := second.overflowed (first.overflowed overflow)

end Scanned

/-- The pointer that is followed is the one the word leads to. -/
theorem getNextObj_eq_iff {x d : Nat} : (getNextObj x m).1 = objectOf d ↔ Leads m (m x) d := by
  unfold getNextObj getPtr Leads Designates
  by_cases null : clearBothFlags (m x) = 0
  · simp [null, objectOf_eq]
  · rw [if_neg null]
    cases composite : isCompositePointer (m x) with
    | false => simp [clearStackFlag_of_plain composite]
    | true =>
        have apart : clearBothFlags (m x) + 8 ≠ getBlock (clearBothFlags (m x)) := by
          unfold getBlock
          omega
        have kept : compositeBase (mark (clearBothFlags (m x)) m) (clearBothFlags (m x)) =
            compositeBase m (clearBothFlags (m x)) := write_of_ne apart
        simp [null, kept]

/-- The object a pointer word leads to; on the way the record of a composite pointer is marked. -/
theorem getNextObj_spec {x : Nat} (points : PointsInto m objects headers (m x)) :
    ∃ m', getNextObj x m = ((getNextObj x m).1, m') ∧ Marking headers (fun _ => False) m m' ∧
      (∀ b ∈ objects, m' b = m b) ∧
        ((getNextObj x m).1 = 0 ∨ ∃ b ∈ objects, (getNextObj x m).1 = objectOf b) := by
  rcases points with null | ⟨b, mem, designates⟩ |
    ⟨r, isHeader, notObject, notHeader, composite, record, b, mem, base⟩
  · have eq : getNextObj x m = (0, m) := by simp [getNextObj, null.2]
    rw [eq]
    exact ⟨m, rfl, Marking.refl headers m, fun _ _ => rfl, Or.inl rfl⟩
  · have nonnull : clearBothFlags (m x) ≠ 0 := by
      rw [designates.2, objectOf_eq]
      omega
    have eq : getNextObj x m = (objectOf b, m) := by
      simp [getNextObj, nonnull, getPtr, designates.1, clearStackFlag_of_plain, ← designates.2]
    rw [eq]
    exact ⟨m, rfl, Marking.refl headers m, fun _ _ => rfl, Or.inr ⟨b, mem, rfl⟩⟩
  · have nonnull : blockData r ≠ 0 := by simp [blockData, sizeofBlock]
    have marking := Marking.mark isHeader (m := m)
    have eq : getNextObj x m = (objectOf b, mark (blockData r) m) := by
      have kept : compositeBase (mark (blockData r) m) (blockData r) = objectOf b := by
        rw [← base]
        exact marking.others (r + 16) notHeader
      simp only [getNextObj, record, nonnull, ↓reduceIte, getPtr, composite, kept]
    rw [eq]
    refine ⟨_, rfl, marking, fun d dMem => ?_, Or.inr ⟨b, mem, rfl⟩⟩
    have header : getBlock (blockData r) = r := by simp [getBlock, blockData]
    unfold mark
    rw [header]
    apply write_of_ne
    rintro rfl
    exact notObject dMem

/-- A slot. -/
theorem goSlot_spec {x : Nat} (points : PointsInto t.heap.mem objects headers (t.heap.mem x)) :
    Scanned objects headers (Leads t.heap.mem (t.heap.mem x)) t (goSlot x t) := by
  rcases getNextObj_spec points with ⟨m', eq, marking, same, target⟩
  have followed : ∀ d, (getNextObj x t.heap.mem).1 = objectOf d ↔
      Leads t.heap.mem (t.heap.mem x) d := fun d => getNextObj_eq_iff
  generalize (getNextObj x t.heap.mem).1 = p at eq target followed
  unfold goSlot
  rw [eq]
  dsimp only
  have markEq : ∀ b ∈ objects, getMark (getMetaInf (objectOf b)) m' =
      blockIsMarked (t.heap.mem b) := by
    intro b mem
    rw [getMetaInf_objectOf, getMark_blockData, same b mem]
  rcases target with null | ⟨b, mem, rfl⟩
  · have nowhere : ∀ d, ¬Leads t.heap.mem (t.heap.mem x) d := by
      intro d led
      rw [(followed d).mpr led, objectOf_eq] at null
      omega
    rw [if_neg (by simp [null])]
    exact
      { heapEq := rfl, marking := marking, same := same, stack := ⟨[], rfl, by simp⟩, height := id,
        found := fun d led => absurd led (nowhere d), overflowed := id }
  · have led : Leads t.heap.mem (t.heap.mem x) b := (followed b).mp rfl
    have only : ∀ d, Leads t.heap.mem (t.heap.mem x) d → d = b :=
      fun d led => (objectOf_inj ((followed d).mpr led)).symm
    have nonnull : objectOf b ≠ 0 := by simp [objectOf_eq]
    cases isMarked : blockIsMarked (t.heap.mem b) with
    | true =>
        have unpushed : ¬(objectOf b ≠ 0 && !getMark (getMetaInf (objectOf b))
            (t.withMem m').heap.mem) = true := by
          have : getMark (getMetaInf (objectOf b)) (t.withMem m').heap.mem = true :=
            (markEq b mem).trans isMarked
          simp [this]
        rw [if_neg unpushed]
        refine
          { heapEq := rfl, marking := marking, same := same, stack := ⟨[], rfl, by simp⟩,
            height := id, found := fun d led => ?_, overflowed := id }
        rw [only d led]
        exact Or.inl isMarked
    | false =>
        have pushed : (objectOf b ≠ 0 && !getMark (getMetaInf (objectOf b))
            (t.withMem m').heap.mem) = true := by
          have : getMark (getMetaInf (objectOf b)) (t.withMem m').heap.mem = false :=
            (markEq b mem).trans isMarked
          simp [this, nonnull]
        rw [if_pos pushed]
        unfold push
        split
        · exact
            { heapEq := rfl, marking := marking, same := same, stack := ⟨[], rfl, by simp⟩,
              height := id, found := fun _ _ => Or.inr (Or.inr rfl), overflowed := fun _ => rfl }
        · rename_i room
          refine
            { heapEq := rfl, marking := marking, same := same,
              stack := ⟨[objectOf b], rfl, fun p pMem =>
                ⟨b, mem, by simpa using pMem, led, isMarked⟩⟩,
              height := fun _ => ?_, found := fun d led => ?_, overflowed := id }
          · have room' : ¬maxStackSize ≤ t.stack.length := room
            change t.stack.length + 1 ≤ maxStackSize
            omega
          · rw [only d led]
            exact Or.inr (Or.inl List.mem_cons_self)

/-- The traversal after the popped object has been marked. -/
def Traversal.visit (b : Nat) (t : Traversal) : Traversal :=
  if !getMark (blockData b) t.heap.mem then t.withMem (mark (blockData b) t.heap.mem) else t

theorem mark_of_ne {d : Nat} (different : d ≠ b) : mark (blockData b) m d = m d := by
  have header : getBlock (blockData b) = b := by simp [getBlock, blockData]
  unfold mark
  rw [header]
  exact write_of_ne different

/-- Visiting an object marks it and changes nothing else. -/
theorem Traversal.visit_spec (isHeader : headers b) :
    (t.visit b).stack = t.stack ∧ (t.visit b).heap = { t.heap with mem := (t.visit b).heap.mem } ∧
      Marking headers (fun _ => False) t.heap.mem (t.visit b).heap.mem ∧
      blockIsMarked ((t.visit b).heap.mem b) = true ∧
      (∀ d, d ≠ b → (t.visit b).heap.mem d = t.heap.mem d) ∧
        (blockIsMarked (t.heap.mem b) = true → (t.visit b).heap.mem = t.heap.mem) := by
  unfold Traversal.visit
  rw [getMark_blockData]
  cases marked : blockIsMarked (t.heap.mem b) with
  | true => exact ⟨rfl, rfl, Marking.refl headers _, marked, fun _ _ => rfl, fun _ => rfl⟩
  | false =>
      exact ⟨rfl, rfl, Marking.mark isHeader, blockIsMarked_mark b _, fun _ => mark_of_ne,
        fun never => by simp at never⟩

/-- Some slot of the object in `b` leads to the object in `d`. -/
def PointsTo (m : Memory) (b d : Nat) : Prop := ∃ x ∈ slotsOf m b, Leads m (m x) d

/-- The loops of `go` come to the slots by their element and their place in the element. -/
theorem pointsTo_iff {d : Nat} : PointsTo m b d ↔
    ∃ i < countOf m b, ∃ j < shellCount m (shellOf m b), Leads m (m (slotAddr m b i j)) d := by
  constructor
  · rintro ⟨x, slot, led⟩
    rcases mem_slotsOf.mp slot with ⟨i, iLess, j, jLess, rfl⟩
    exact ⟨i, iLess, j, jLess, led⟩
  · rintro ⟨i, iLess, j, jLess, led⟩
    exact ⟨_, mem_slotsOf.mpr ⟨i, iLess, j, jLess, rfl⟩, led⟩

section Object

variable (graph : ObjectGraph h objects bigs headers) (bMem : b ∈ objects)

include graph bMem

/-- The word at the address that the loop computes for a slot. -/
theorem ObjectGraph.slot_word {i v j : Nat} (iLess : i < countOf h.mem b)
    (less : j < shellCount h.mem (shellOf h.mem b))
    (dataEq : v % wordSpace = (objectOf b + i * shellSize h.mem (shellOf h.mem b)) % wordSpace)
    (marking : Marking headers pins h.mem t.heap.mem) :
    t.heap.mem (ptrAdd v (shellOffset t.heap.mem (metaShell t.heap.mem (blockData b)) j)) =
      h.mem (slotAddr h.mem b i j) := by
  have same := graph.shape marking bMem
  have shellEq : metaShell t.heap.mem (blockData b) = shellOf h.mem b := same.shell
  have slot : slotAddr h.mem b i j ∈ slotsOf h.mem b := mem_slotsOf.mpr ⟨i, iLess, j, less, rfl⟩
  rw [shellEq, same.offset j less,
    (graph.object b bMem).ptrAdd_slot (graph.bounded b bMem) iLess less dataEq]
  exact marking.others _ (graph.slot_notHeader bMem slot)

/-- It leads to an object. -/
theorem ObjectGraph.pointsInto_slot {i v j : Nat} (iLess : i < countOf h.mem b)
    (less : j < shellCount h.mem (shellOf h.mem b))
    (dataEq : v % wordSpace = (objectOf b + i * shellSize h.mem (shellOf h.mem b)) % wordSpace)
    (marking : Marking headers pins h.mem t.heap.mem) :
    PointsInto t.heap.mem objects headers
      (t.heap.mem (ptrAdd v (shellOffset t.heap.mem (metaShell t.heap.mem (blockData b)) j))) := by
  have slot : slotAddr h.mem b i j ∈ slotsOf h.mem b := mem_slotsOf.mpr ⟨i, iLess, j, less, rfl⟩
  rw [graph.slot_word bMem iLess less dataEq marking]
  exact ObjectGraph.pointsInto marking (graph.pointer b bMem _ slot)

/-- The slots of an object lead to objects. -/
theorem ObjectGraph.slot_leads {i j d : Nat} (iLess : i < countOf h.mem b)
    (less : j < shellCount h.mem (shellOf h.mem b))
    (led : Leads h.mem (h.mem (slotAddr h.mem b i j)) d) : d ∈ objects := by
  have slot : slotAddr h.mem b i j ∈ slotsOf h.mem b := mem_slotsOf.mpr ⟨i, iLess, j, less, rfl⟩
  exact ObjectGraph.leads_mem (graph.pointer b bMem _ slot) led

/-- The loop over the slots of an element. -/
theorem goSlots_spec {i v count j : Nat} (iLess : i < countOf h.mem b)
    (dataEq : v % wordSpace = (objectOf b + i * shellSize h.mem (shellOf h.mem b)) % wordSpace)
    (range : j + count ≤ shellCount h.mem (shellOf h.mem b))
    (marking : Marking headers pins h.mem t.heap.mem) :
    Scanned objects headers
      (fun d => ∃ j', j ≤ j' ∧ j' < j + count ∧ Leads h.mem (h.mem (slotAddr h.mem b i j')) d)
      t (goSlots (blockData b) v count j t) := by
  induction count generalizing j t with
  | zero =>
      apply (Scanned.refl objects headers t).congr
      simp
      omega
  | succ count ih =>
      rw [goSlots]
      have less : j < shellCount h.mem (shellOf h.mem b) := by omega
      have slot : slotAddr h.mem b i j ∈ slotsOf h.mem b := mem_slotsOf.mpr ⟨i, iLess, j, less, rfl⟩
      have scanned := goSlot_spec (graph.pointsInto_slot bMem iLess less dataEq marking)
      rw [graph.slot_word bMem iLess less dataEq marking] at scanned
      have rest := ih (j := j + 1) (by omega) (marking.andMark scanned.marking)
      refine (scanned.trans rest ?_).congr fun d => ?_
      · rintro d ⟨j', lower, upper, led⟩
        exact graph.slot_leads bMem iLess (by omega) led
      · rw [ObjectGraph.leads_iff marking (graph.pointer b bMem _ slot)]
        constructor
        · rintro (led | ⟨j', lower, upper, led⟩)
          · exact ⟨j, by omega, by omega, led⟩
          · exact ⟨j', by omega, by omega, led⟩
        · rintro ⟨j', lower, upper, led⟩
          by_cases first : j' = j
          · subst first
            exact Or.inl led
          · exact Or.inr ⟨j', by omega, by omega, led⟩

/-- The loop over the elements of an object. -/
theorem goElements_spec {left i v : Nat} (range : i + left = countOf h.mem b)
    (enough : left < fuel)
    (dataEq : v % wordSpace = (objectOf b + i * shellSize h.mem (shellOf h.mem b)) % wordSpace)
    (marking : Marking headers pins h.mem t.heap.mem) :
    ∃ t', goElements (blockData b) (shellSize h.mem (shellOf h.mem b))
      (shellCount h.mem (shellOf h.mem b)) fuel i v t = .ok t' ∧
      Scanned objects headers
        (fun d => ∃ i', i ≤ i' ∧ i' < i + left ∧
          ∃ j < shellCount h.mem (shellOf h.mem b),
            Leads h.mem (h.mem (slotAddr h.mem b i' j)) d) t t' := by
  induction left generalizing fuel i v t with
  | zero =>
      cases fuel with
      | zero => omega
      | succ fuel =>
          have count : metaCount t.heap.mem (blockData b) = countOf h.mem b :=
            (graph.shape marking bMem).count
          have stop : ¬i < metaCount t.heap.mem (blockData b) := by omega
          rw [goElements, if_neg stop]
          refine ⟨t, rfl, (Scanned.refl objects headers t).congr fun d => ?_⟩
          simp
          omega
  | succ left ih =>
      cases fuel with
      | zero => omega
      | succ fuel =>
          have count : metaCount t.heap.mem (blockData b) = countOf h.mem b :=
            (graph.shape marking bMem).count
          have less : i < countOf h.mem b := by omega
          have running : i < metaCount t.heap.mem (blockData b) := by omega
          rw [goElements, if_pos running]
          have scanned := goSlots_spec graph bMem less dataEq (Nat.le_of_eq (Nat.zero_add _))
            marking
          have range' : i + 1 + left = countOf h.mem b := by omega
          rcases ih range' (Nat.lt_of_succ_lt_succ enough) (ptrAdd_element dataEq)
            (marking.andMark scanned.marking) with ⟨t', eq, rest⟩
          refine ⟨t', eq, (scanned.trans rest ?_).congr fun d => ?_⟩
          · rintro d ⟨i', lower, upper, j, jLess, led⟩
            exact graph.slot_leads bMem (by omega) (by omega) led
          · constructor
            · rintro (⟨j, lower, upper, led⟩ | ⟨i', lower, upper, some⟩)
              · exact ⟨i, by omega, by omega, j, by omega, led⟩
              · exact ⟨i', by omega, by omega, some⟩
            · rintro ⟨i', lower, upper, j, jLess, led⟩
              by_cases first : i' = i
              · subst first
                exact Or.inl ⟨j, by omega, by omega, led⟩
              · exact Or.inr ⟨i', by omega, by omega, j, jLess, led⟩

/-- The loop body, for a popped object. -/
theorem goObject_spec (enough : GoFuel fuel h objects bigs)
    (heapEq : t.heap = { h with mem := t.heap.mem })
    (marking : Marking headers pins h.mem t.heap.mem) :
    ∃ t', goObject fuel (objectOf b) t = .ok t' ∧
      Scanned objects headers (PointsTo h.mem b) (t.visit b) t' := by
  have visited : Marking headers pins h.mem (t.visit b).heap.mem :=
    marking.andMark (Traversal.visit_spec (graph.header b bMem)).2.2.1
  have nonnull : objectOf b ≠ 0 := by simp [objectOf_eq]
  have chain : Chain (bigNext t.heap.mem) t.heap.firstBigBlock bigs := by
    rw [heapEq]
    exact (graph.marking marking).bigChain
  rcases @isHeapPointer_spec t.heap bigs (objectOf b) fuel chain enough.bigs with ⟨found, eq, iff⟩
  have inHeap : found = true := by
    rw [iff, heapEq]
    exact (graph.marking marking).inHeap b bMem
  have same := graph.shape visited bMem
  have shellEq : metaShell (t.visit b).heap.mem (blockData b) = shellOf h.mem b := same.shell
  have equation : goObject fuel (objectOf b) t =
      if shellCount h.mem (shellOf h.mem b) = 0 then .ok (t.visit b)
      else goElements (blockData b) (shellSize h.mem (shellOf h.mem b))
        (shellCount h.mem (shellOf h.mem b)) fuel 0 (objectOf b) (t.visit b) := by
    rw [← same.size, ← same.slots, ← shellEq, goObject, if_neg nonnull, eq, inHeap,
      getMetaInf_objectOf]
    rfl
  rw [equation]
  split
  · rename_i none
    refine ⟨_, rfl, (Scanned.refl objects headers _).congr fun d => ?_⟩
    simp [pointsTo_iff, none]
  · rename_i some
    have dataEq : objectOf b % wordSpace =
        (objectOf b + 0 * shellSize h.mem (shellOf h.mem b)) % wordSpace := by
      rw [Nat.zero_mul, Nat.add_zero]
    rcases goElements_spec graph bMem (Nat.zero_add _) (enough.counts b bMem some) dataEq visited
      with ⟨t', eq', scanned⟩
    refine ⟨t', eq', scanned.congr fun d => ?_⟩
    simp only [pointsTo_iff, Nat.zero_le, true_and, Nat.zero_add]

end Object

/-- The number of objects that are not marked yet. -/
def unmarkedCount (objects : List Nat) (m : Memory) : Nat :=
  objects.countP fun b => !blockIsMarked (m b)

theorem unmarkedCount_le (objects : List Nat) (m : Memory) :
    unmarkedCount objects m ≤ objects.length := List.countP_le_length

theorem unmarkedCount_congr {m m' : Memory} (same : ∀ b ∈ objects, m' b = m b) :
    unmarkedCount objects m' = unmarkedCount objects m := by
  apply List.countP_congr
  intro b mem
  rw [same b mem]

/-- Marking an object makes the count smaller. -/
theorem unmarkedCount_lt {m m' : Memory} (mem : b ∈ objects)
    (unmarked : blockIsMarked (m b) = false) (marked : blockIsMarked (m' b) = true)
    (others : ∀ d, d ≠ b → m' d = m d) : unmarkedCount objects m' < unmarkedCount objects m := by
  have le : ∀ ds : List Nat, unmarkedCount ds m' ≤ unmarkedCount ds m := by
    intro ds
    apply List.countP_mono_left
    intro d _ holds
    by_cases same : d = b
    · subst same
      simp [marked] at holds
    · rwa [← others d same]
  induction objects with
  | nil => simp at mem
  | cons d objects ih =>
      simp only [unmarkedCount, List.countP_cons] at ih ⊢
      by_cases same : d = b
      · subst same
        have := le objects
        simp only [unmarkedCount] at this
        simp only [marked, unmarked, Bool.not_true, Bool.not_false, Bool.false_eq_true, ↓reduceIte]
        omega
      · have smaller := ih ((List.mem_cons.mp mem).resolve_left fun eq => same eq.symm)
        rw [others d same]
        omega

/-- The variant of the loop: popping an unmarked object lowers the first summand, popping a marked
one leaves a lower stack or an unmarked object on top. -/
def goVariant (objects : List Nat) (t : Traversal) : Nat :=
  unmarkedCount objects t.heap.mem * (maxStackSize + 2) +
    match t.stack with
    | [] => 0
    | p :: _ => if getMark (getMetaInf p) t.heap.mem then t.stack.length else 0

theorem goVariant_le (objects : List Nat) (t : Traversal) : goVariant objects t ≤
    unmarkedCount objects t.heap.mem * (maxStackSize + 2) + t.stack.length := by
  unfold goVariant
  apply Nat.add_le_add_left
  split
  · exact Nat.zero_le _
  · split
    · exact Nat.le_refl _
    · exact Nat.zero_le _

/-- What holds whenever the loop of `go` tests its condition. -/
structure Traversing (h : Heap) (objects : List Nat) (headers pins : Nat → Prop) (root : Nat)
    (t : Traversal) : Prop where
  heapEq : t.heap = { h with mem := t.heap.mem }
  marking : Marking headers pins h.mem t.heap.mem
  entries : ∀ p ∈ t.stack, ∃ b ∈ objects, p = objectOf b
  height : t.stack.length ≤ maxStackSize
  root : blockIsMarked (t.heap.mem root) = true ∨ t.stack = [objectOf root]

/-- The invariant holds when the loop starts at an object. -/
theorem Traversing.start (graph : ObjectGraph h objects bigs headers) (bMem : b ∈ objects)
    (pinRoot : Bool) : Traversing h objects headers (fun x => pinRoot = true ∧ x = b) b
      ⟨{ h with mem := if pinRoot = true then pin (blockData b) h.mem else h.mem },
        [objectOf b], false⟩ := by
  have pinned : Marking headers (fun x => pinRoot = true ∧ x = b) h.mem
      (if pinRoot = true then pin (blockData b) h.mem else h.mem) := by
    cases pinRoot with
    | true => exact (Marking.pin (graph.header b bMem)).congr (by simp)
    | false => exact (Marking.refl headers h.mem).congr (by simp)
  exact
    { heapEq := rfl, marking := pinned, entries := fun p mem => ⟨b, bMem, by simpa using mem⟩,
      height := show 1 ≤ maxStackSize by decide, root := Or.inr rfl }

/-- One iteration keeps the invariant and lowers the variant. -/
theorem Traversing.step (graph : ObjectGraph h objects bigs headers)
    (enough : GoFuel fuel h objects bigs) {root p : Nat} {rest : List Nat}
    (inv : Traversing h objects headers pins root t) (top : t.stack = p :: rest) :
    ∃ t', goObject fuel p { t with stack := rest } = .ok t' ∧
      Traversing h objects headers pins root t' ∧ goVariant objects t' < goVariant objects t := by
  rcases inv.entries p (by simp [top]) with ⟨b, bMem, rfl⟩
  have restEntries : ∀ q ∈ rest, ∃ b ∈ objects, q = objectOf b :=
    fun q mem => inv.entries q (by simp [top, mem])
  have height := inv.height
  rw [top, List.length_cons] at height
  rcases @goObject_spec h objects bigs headers pins { t with stack := rest } b fuel
    graph bMem enough
    inv.heapEq inv.marking with ⟨t', eq, scanned⟩
  rcases @Traversal.visit_spec headers { t with stack := rest } b (graph.header b bMem) with
    ⟨stackKept, heapKept, visiting, visited, others, again⟩
  rcases scanned.stack with ⟨pushed, stackEq, unmarked⟩
  rw [stackKept] at stackEq
  dsimp only at stackEq heapKept visiting others again
  have marking : Marking headers (fun _ => False) t.heap.mem t'.heap.mem :=
    visiting.andMark scanned.marking
  have lower : t'.stack.length ≤ maxStackSize := by
    apply scanned.height
    rw [stackKept]
    dsimp only
    omega
  refine ⟨t', eq, ⟨?_, inv.marking.andMark marking, ?_, lower, ?_⟩, ?_⟩
  · rw [scanned.heapEq, heapKept, inv.heapEq]
  · rw [stackEq]
    intro q mem
    rcases List.mem_append.mp mem with mem | mem
    · rcases unmarked q mem with ⟨d, dMem, qEq, _⟩
      exact ⟨d, dMem, qEq⟩
    · exact restEntries q mem
  · left
    rcases inv.root with rootMarked | only
    · exact marking.marked root rootMarked
    · have same : objectOf b = objectOf root := by
        rw [top] at only
        exact (List.cons.inj only).1
      rw [← objectOf_inj same]
      exact scanned.marking.marked b visited
  · have sameCount := unmarkedCount_congr scanned.same
    have markEq : getMark (getMetaInf (objectOf b)) t.heap.mem = blockIsMarked (t.heap.mem b) := by
      rw [getMetaInf_objectOf, getMark_blockData]
    cases isMarked : blockIsMarked (t.heap.mem b) with
    | false =>
        -- an object has become marked
        have fewer : unmarkedCount objects t'.heap.mem < unmarkedCount objects t.heap.mem := by
          rw [sameCount]
          exact unmarkedCount_lt bMem isMarked visited others
        have product : (unmarkedCount objects t'.heap.mem + 1) * (maxStackSize + 2) ≤
            unmarkedCount objects t.heap.mem * (maxStackSize + 2) :=
          Nat.mul_le_mul_right _ fewer
        have after := goVariant_le objects t'
        have before : goVariant objects t =
            unmarkedCount objects t.heap.mem * (maxStackSize + 2) := by
          simp [goVariant, top, markEq, isMarked]
        rw [Nat.succ_mul] at product
        omega
    | true =>
        -- the stack gets lower, or an unmarked object lies on its top
        have before : goVariant objects t =
            unmarkedCount objects t.heap.mem * (maxStackSize + 2) + (rest.length + 1) := by
          simp [goVariant, top, markEq, isMarked]
        rw [again isMarked] at sameCount unmarked
        cases pushed with
        | nil =>
            have after := goVariant_le objects t'
            rw [sameCount, stackEq, List.nil_append] at after
            omega
        | cons q pushed =>
            rcases unmarked q (by simp) with ⟨d, dMem, rfl, _, notMarked⟩
            have topUnmarked : getMark (getMetaInf (objectOf d)) t'.heap.mem = false := by
              rw [getMetaInf_objectOf, getMark_blockData, scanned.same d dMem, again isMarked]
              exact notMarked
            rw [before, goVariant, sameCount, stackEq]
            simp [topUnmarked]

/-- The fuel is more than the variant. -/
theorem Traversing.variant_lt {root : Nat} (inv : Traversing h objects headers pins root t)
    (enough : GoFuel fuel h objects bigs) : goVariant objects t < fuel := by
  have count := unmarkedCount_le objects t.heap.mem
  have product : unmarkedCount objects t.heap.mem * (maxStackSize + 2) ≤
      objects.length * (maxStackSize + 2) := Nat.mul_le_mul_right _ count
  have pops := enough.pops
  rw [Nat.succ_mul] at pops
  have height := inv.height
  have top := goVariant_le objects t
  omega

/-- The loop of `go` runs to the end. -/
theorem goLoop_spec (graph : ObjectGraph h objects bigs headers)
    (enough : GoFuel fuel h objects bigs) {root : Nat}
    (inv : Traversing h objects headers pins root t) :
    ∃ t', goLoop fuel t = .ok t' ∧ Traversing h objects headers pins root t' ∧ t'.stack = [] := by
  have yields : Yields (fun _ => False) _ (goLoop fuel t) := walk_decreases
    (fun _ t => Traversing h objects headers pins root t) (fun _ t => goVariant objects t)
    ?_ (inv.variant_lt enough) inv
  · rcases yields.total with ⟨t', eq, _, inv', stopped⟩
    exact ⟨t', eq, inv', by simpa using stopped⟩
  · intro _ t inv running
    cases top : t.stack with
    | nil => simp [top] at running
    | cons p rest =>
        rcases inv.step graph enough top with ⟨t', eq, inv', smaller⟩
        rw [List.headD_cons, List.tail_cons, eq]
        exact ⟨inv', smaller⟩

/-- Started at an object, `go` runs its loop. -/
theorem go_objectOf (graph : ObjectGraph h objects bigs headers)
    (enough : GoFuel fuel h objects bigs) (bMem : b ∈ objects) (pinRoot : Bool) :
    go fuel (objectOf b) pinRoot h =
      (goLoop fuel ⟨{ h with mem := if pinRoot = true then pin (blockData b) h.mem else h.mem },
        [objectOf b], false⟩ >>= fun t => .ok (t.overflow, t.heap)) := by
  have nonnull : objectOf b ≠ 0 := by simp [objectOf_eq]
  rcases @isHeapPointer_spec h bigs (objectOf b) fuel graph.bigChain enough.bigs with
    ⟨found, eq, iff⟩
  have inHeap : found = true := iff.mpr (graph.inHeap b bMem)
  rw [go, if_neg nonnull, eq, inHeap, getMetaInf_objectOf]
  rfl

/-- `go`, started at an object: it returns, sets flags of headers only, pins at most the object and
leaves the object marked. -/
theorem go_spec (graph : ObjectGraph h objects bigs headers) (enough : GoFuel fuel h objects bigs)
    (bMem : b ∈ objects) (pinRoot : Bool) :
    ∃ overflow h', go fuel (objectOf b) pinRoot h = .ok (overflow, h') ∧
      h' = { h with mem := h'.mem } ∧
      Marking headers (fun x => pinRoot = true ∧ x = b) h.mem h'.mem ∧
        blockIsMarked (h'.mem b) = true := by
  have start := Traversing.start graph bMem pinRoot
  rcases goLoop_spec graph enough start with ⟨t, loopEq, inv, stackEq⟩
  have marked : blockIsMarked (t.heap.mem b) = true := by
    rcases inv.root with marked | only
    · exact marked
    · simp [stackEq] at only
  refine ⟨t.overflow, t.heap, ?_, inv.heapEq, inv.marking, marked⟩
  rw [go_objectOf graph enough bMem pinRoot, loopEq]
  rfl

end PreciseGc

import Mathlib.Algebra.BigOperators.Group.List.Basic
import PreciseGc.Mark.Exactness

/-!
# The height of the mark stack

Whatever lies above an entry of the mark stack is popped first.  So when an
object is popped again, the objects it leads to have been marked, and nothing
is pushed.  Every object is pushed for once for each slot that leads to it, and
the stack never holds more entries than the unmarked objects have slots.
-/

namespace PreciseGc

open Foundation Memory

variable {h : Heap} {objects bigs : List Nat} {headers pins leads leads' : Nat → Prop}
  {t t' t'' : Traversal} {tried tried' : List Nat} {m m' : Memory} {b x fuel root : Nat}

/-- The number of pointer slots of the object in `b`. -/
def slotNumber (m : Memory) (b : Nat) : Nat := (slotsOf m b).length

/-- Scanning tries to push `tried`: these are unmarked, no other unmarked object is led to, and they
are pushed as far as there is room for all of them. -/
structure Tries (leads : Nat → Prop) (tried : List Nat) (t t' : Traversal) : Prop where
  unmarked : ∀ d ∈ tried, leads d ∧ blockIsMarked (t.heap.mem d) = false
  all : ∀ d, leads d → blockIsMarked (t.heap.mem d) = true ∨ d ∈ tried
  pushed : t.stack.length + tried.length ≤ maxStackSize →
    t'.stack = tried.map objectOf ++ t.stack ∧ t'.overflow = t.overflow

namespace Tries

theorem refl (t : Traversal) : Tries (fun _ => False) [] t t where
  unmarked := by simp
  all _ never := never.elim
  pushed _ := ⟨rfl, rfl⟩

theorem congr (tries : Tries leads tried t t') (same : ∀ d, leads d ↔ leads' d) :
    Tries leads' tried t t' where
  unmarked d mem := ⟨(same d).mp (tries.unmarked d mem).1, (tries.unmarked d mem).2⟩
  all d led := tries.all d ((same d).mpr led)
  pushed := tries.pushed

/-- What is tried later comes to lie on top. -/
theorem trans (first : Tries leads tried t t') (second : Tries leads' tried' t' t'')
    (isObject : ∀ d, leads' d → d ∈ objects)
    (same : ∀ d ∈ objects, t'.heap.mem d = t.heap.mem d) :
    Tries (fun d => leads d ∨ leads' d) (tried' ++ tried) t t'' where
  unmarked d mem := by
    rcases List.mem_append.mp mem with mem | mem
    · rcases second.unmarked d mem with ⟨led, notMarked⟩
      rw [same d (isObject d led)] at notMarked
      exact ⟨Or.inr led, notMarked⟩
    · rcases first.unmarked d mem with ⟨led, notMarked⟩
      exact ⟨Or.inl led, notMarked⟩
  all d led := by
    rcases led with led | led
    · exact (first.all d led).imp id (List.mem_append_right _)
    · rw [← same d (isObject d led)]
      exact (second.all d led).imp id (List.mem_append_left _)
  pushed room := by
    rw [List.length_append] at room
    rcases first.pushed (by omega) with ⟨stackEq, kept⟩
    have room' : t'.stack.length + tried'.length ≤ maxStackSize := by
      rw [stackEq, List.length_append, List.length_map]
      omega
    rcases second.pushed room' with ⟨stackEq', kept'⟩
    exact ⟨by rw [stackEq', stackEq, List.map_append, List.append_assoc], kept'.trans kept⟩

end Tries

/-- A slot that leads to no unmarked object. -/
theorem Tries.none (marked : ∀ d, leads d → blockIsMarked (t.heap.mem d) = true)
    (stackEq : t'.stack = t.stack) (kept : t'.overflow = t.overflow) : Tries leads [] t t' where
  unmarked := by simp
  all d led := Or.inl (marked d led)
  pushed _ := ⟨stackEq, kept⟩

theorem goSlot_tries (points : PointsInto t.heap.mem objects headers (t.heap.mem x)) :
    ∃ tried, tried.length ≤ 1 ∧
      Tries (Leads t.heap.mem (t.heap.mem x)) tried t (goSlot x t) := by
  rcases getNextObj_spec points with ⟨m', eq, _, same, target⟩
  have followed : ∀ d, (getNextObj x t.heap.mem).1 = objectOf d ↔
      Leads t.heap.mem (t.heap.mem x) d := fun d => getNextObj_eq_iff
  generalize (getNextObj x t.heap.mem).1 = p at eq target followed
  unfold goSlot
  rw [eq]
  dsimp only
  rcases target with rfl | ⟨b, mem, rfl⟩
  · rw [if_neg (by simp)]
    refine ⟨[], Nat.zero_le _, Tries.none (fun d led => ?_) rfl rfl⟩
    have := (followed d).mpr led
    rw [objectOf_eq] at this
    omega
  have led : Leads t.heap.mem (t.heap.mem x) b := (followed b).mp rfl
  have only : ∀ d, Leads t.heap.mem (t.heap.mem x) d → d = b :=
    fun d led => (objectOf_inj ((followed d).mpr led)).symm
  have markEq : getMark (getMetaInf (objectOf b)) (t.withMem m').heap.mem =
      blockIsMarked (t.heap.mem b) := by
    rw [getMetaInf_objectOf, getMark_blockData]
    exact congrArg blockIsMarked (same b mem)
  rw [markEq]
  cases isMarked : blockIsMarked (t.heap.mem b) with
  | true =>
      rw [if_neg (by simp)]
      exact ⟨[], Nat.zero_le _, Tries.none (fun d led => only d led ▸ isMarked) rfl rfl⟩
  | false =>
      rw [if_pos (by simp [objectOf_eq])]
      refine ⟨[b], Nat.le_refl _, ⟨?_, fun d led => Or.inr (by simp [only d led]), fun room => ?_⟩⟩
      · intro d dMem
        rw [List.mem_singleton.mp dMem]
        exact ⟨led, isMarked⟩
      · have notFull : ¬maxStackSize ≤ (t.withMem m').stack.length := by
          rw [List.length_singleton] at room
          exact Nat.not_le.mpr room
        rw [push, if_neg notFull]
        exact ⟨rfl, rfl⟩

section Object

variable (graph : ObjectGraph h objects bigs headers) (bMem : b ∈ objects)

include graph bMem

theorem goSlots_tries {i v count j : Nat} (iLess : i < countOf h.mem b)
    (dataEq : v % wordSpace = (objectOf b + i * shellSize h.mem (shellOf h.mem b)) % wordSpace)
    (range : j + count ≤ shellCount h.mem (shellOf h.mem b))
    (marking : Marking headers pins h.mem t.heap.mem) :
    ∃ tried, tried.length ≤ count ∧
      Tries (fun d => ∃ j', j ≤ j' ∧ j' < j + count ∧ Leads h.mem (h.mem (slotAddr h.mem b i j')) d)
        tried t (goSlots (blockData b) v count j t) := by
  induction count generalizing j t with
  | zero =>
      refine ⟨[], Nat.le_refl _, (Tries.refl t).congr ?_⟩
      simp
      omega
  | succ count ih =>
      rw [goSlots]
      have less : j < shellCount h.mem (shellOf h.mem b) := by omega
      have slot : slotAddr h.mem b i j ∈ slotsOf h.mem b := mem_slotsOf.mpr ⟨i, iLess, j, less, rfl⟩
      have points := graph.pointsInto_slot bMem iLess less dataEq marking
      have scanned := goSlot_spec points
      rcases goSlot_tries points with ⟨tried, few, tries⟩
      rw [graph.slot_word bMem iLess less dataEq marking] at tries
      rcases ih (j := j + 1) (by omega) (marking.andMark scanned.marking) with
        ⟨tried', few', tries'⟩
      refine ⟨tried' ++ tried, by rw [List.length_append]; omega,
        (tries.trans tries' ?_ scanned.same).congr fun d => ?_⟩
      · rintro d ⟨j', lower, upper, led⟩
        exact graph.slot_leads bMem iLess (by omega) led
      · rw [ObjectGraph.leads_iff marking (graph.pointer b bMem _ slot)]
        constructor
        · rintro (led | ⟨j', lower, upper, led⟩)
          · exact ⟨j, by omega, by omega, led⟩
          · exact ⟨j', by omega, by omega, led⟩
        · rintro ⟨j', lower, upper, led⟩
          by_cases first : j' = j
          · subst first
            exact Or.inl led
          · exact Or.inr ⟨j', by omega, by omega, led⟩

theorem goElements_tries {left i v : Nat} (range : i + left = countOf h.mem b)
    (enough : left < fuel)
    (dataEq : v % wordSpace = (objectOf b + i * shellSize h.mem (shellOf h.mem b)) % wordSpace)
    (marking : Marking headers pins h.mem t.heap.mem)
    (eq : goElements (blockData b) (shellSize h.mem (shellOf h.mem b))
      (shellCount h.mem (shellOf h.mem b)) fuel i v t = .ok t') :
    ∃ tried, tried.length ≤ left * shellCount h.mem (shellOf h.mem b) ∧
      Tries (fun d => ∃ i', i ≤ i' ∧ i' < i + left ∧
        ∃ j < shellCount h.mem (shellOf h.mem b),
          Leads h.mem (h.mem (slotAddr h.mem b i' j)) d) tried t t' := by
  have count : metaCount t.heap.mem (blockData b) = countOf h.mem b :=
    (graph.shape marking bMem).count
  induction left generalizing fuel i v t with
  | zero =>
      cases fuel with
      | zero => omega
      | succ fuel =>
          have stop : ¬i < metaCount t.heap.mem (blockData b) := by omega
          rw [goElements, if_neg stop] at eq
          obtain rfl : t = t' := Except.ok.inj eq
          refine ⟨[], Nat.zero_le _, (Tries.refl t).congr fun d => ?_⟩
          simp
          omega
  | succ left ih =>
      cases fuel with
      | zero => omega
      | succ fuel =>
          have less : i < countOf h.mem b := by omega
          have running : i < metaCount t.heap.mem (blockData b) := by omega
          rw [goElements, if_pos running] at eq
          have slots := Nat.le_of_eq (Nat.zero_add (shellCount h.mem (shellOf h.mem b)))
          have scanned := goSlots_spec graph bMem less dataEq slots marking
          rcases goSlots_tries graph bMem less dataEq slots marking with ⟨tried, few, tries⟩
          have marking' := marking.andMark scanned.marking
          rcases ih (by omega) (by omega) (ptrAdd_element dataEq) marking' eq
            (graph.shape marking' bMem).count with ⟨tried', few', tries'⟩
          refine ⟨tried' ++ tried, ?_, (tries.trans tries' ?_ scanned.same).congr fun d => ?_⟩
          · rw [List.length_append, Nat.succ_mul]
            omega
          · rintro d ⟨i', lower, upper, j, jLess, led⟩
            exact graph.slot_leads bMem (by omega) (by omega) led
          · constructor
            · rintro (⟨j, lower, upper, led⟩ | ⟨i', lower, upper, some⟩)
              · exact ⟨i, by omega, by omega, j, by omega, led⟩
              · exact ⟨i', by omega, by omega, some⟩
            · rintro ⟨i', lower, upper, j, jLess, led⟩
              by_cases first : i' = i
              · subst first
                exact Or.inl ⟨j, by omega, by omega, led⟩
              · exact Or.inr ⟨i', by omega, by omega, j, jLess, led⟩

omit graph bMem in
/-- An object has as many slots as the loops over its elements and offsets have iterations. -/
theorem slotNumber_eq (m : Memory) (b : Nat) :
    slotNumber m b = countOf m b * shellCount m (shellOf m b) := by
  simp [slotNumber, slotsOf, elementSlots, List.length_flatMap]

/-- The scan of a popped object tries to push at most one entry for each of its slots. -/
theorem goObject_tries (enough : GoFuel fuel h objects bigs)
    (heapEq : t.heap = { h with mem := t.heap.mem })
    (marking : Marking headers pins h.mem t.heap.mem)
    (eq : goObject fuel (objectOf b) t = .ok t') :
    ∃ tried, tried.length ≤ slotNumber h.mem b ∧
      Tries (PointsTo h.mem b) tried (t.visit b) t' := by
  have visited : Marking headers pins h.mem (t.visit b).heap.mem :=
    marking.andMark (Traversal.visit_spec (graph.header b bMem)).2.2.1
  have nonnull : objectOf b ≠ 0 := by simp [objectOf_eq]
  have chain : Chain (bigNext t.heap.mem) t.heap.firstBigBlock bigs := by
    rw [heapEq]
    exact (graph.marking marking).bigChain
  rcases @isHeapPointer_spec t.heap bigs (objectOf b) fuel chain enough.bigs with
    ⟨found, foundEq, iff⟩
  have inHeap : found = true := by
    rw [iff, heapEq]
    exact (graph.marking marking).inHeap b bMem
  have same := graph.shape visited bMem
  have shellEq : metaShell (t.visit b).heap.mem (blockData b) = shellOf h.mem b := same.shell
  have equation : goObject fuel (objectOf b) t =
      if shellCount h.mem (shellOf h.mem b) = 0 then .ok (t.visit b)
      else goElements (blockData b) (shellSize h.mem (shellOf h.mem b))
        (shellCount h.mem (shellOf h.mem b)) fuel 0 (objectOf b) (t.visit b) := by
    rw [← same.size, ← same.slots, ← shellEq, goObject, if_neg nonnull, foundEq, inHeap,
      getMetaInf_objectOf]
    rfl
  rw [equation] at eq
  split at eq
  · rename_i none
    obtain rfl : t.visit b = t' := Except.ok.inj eq
    refine ⟨[], Nat.zero_le _, (Tries.refl _).congr fun d => ?_⟩
    simp [pointsTo_iff, none]
  · rename_i some
    have dataEq : objectOf b % wordSpace =
        (objectOf b + 0 * shellSize h.mem (shellOf h.mem b)) % wordSpace := by
      rw [Nat.zero_mul, Nat.add_zero]
    rcases goElements_tries graph bMem (Nat.zero_add _) (enough.counts b bMem some) dataEq visited
      eq with ⟨tried, few, tries⟩
    refine ⟨tried, ?_, tries.congr fun d => ?_⟩
    · rw [slotNumber_eq]
      exact few
    · simp only [pointsTo_iff, Nat.zero_le, true_and, Nat.zero_add]

end Object

/-- The slots of the objects that are not marked. -/
def unmarkedSlots (slots : Nat → Nat) (objects : List Nat) (m : Memory) : Nat :=
  ((objects.filter fun b => !blockIsMarked (m b)).map slots).sum

section UnmarkedSlots

variable (slots : Nat → Nat)

theorem unmarkedSlots_cons (d : Nat) : unmarkedSlots slots (d :: objects) m =
    (if blockIsMarked (m d) = true then 0 else slots d) + unmarkedSlots slots objects m := by
  unfold unmarkedSlots
  cases marked : blockIsMarked (m d) with
  | true => simp [marked]
  | false => simp [marked]

theorem unmarkedSlots_le : unmarkedSlots slots objects m ≤ (objects.map slots).sum := by
  induction objects with
  | nil => exact Nat.le_refl _
  | cons d objects ih =>
      rw [unmarkedSlots_cons, List.map_cons, List.sum_cons]
      split
      · omega
      · omega

/-- Marks that are added do not make it larger. -/
theorem unmarkedSlots_mono
    (more : ∀ d ∈ objects, blockIsMarked (m d) = true → blockIsMarked (m' d) = true) :
    unmarkedSlots slots objects m' ≤ unmarkedSlots slots objects m := by
  induction objects with
  | nil => exact Nat.le_refl _
  | cons d objects ih =>
      have later := ih fun e mem => more e (by simp [mem])
      have first := more d (by simp)
      rw [unmarkedSlots_cons, unmarkedSlots_cons]
      by_cases marked : blockIsMarked (m d) = true
      · rw [if_pos marked, if_pos (first marked)]
        omega
      · rw [if_neg marked]
        split
        · omega
        · omega

/-- The mark of an object takes its slots off. -/
theorem unmarkedSlots_mark (mem : b ∈ objects) (unmarked : blockIsMarked (m b) = false)
    (marked : blockIsMarked (m' b) = true)
    (more : ∀ d ∈ objects, blockIsMarked (m d) = true → blockIsMarked (m' d) = true) :
    unmarkedSlots slots objects m' + slots b ≤ unmarkedSlots slots objects m := by
  induction objects with
  | nil => cases mem
  | cons d objects ih =>
      have moreLater : ∀ e ∈ objects, blockIsMarked (m e) = true → blockIsMarked (m' e) = true :=
        fun e mem => more e (by simp [mem])
      rw [unmarkedSlots_cons, unmarkedSlots_cons]
      by_cases same : d = b
      · subst same
        have later := unmarkedSlots_mono slots moreLater
        rw [if_pos marked, unmarked, if_neg (by simp)]
        omega
      · have later := ih ((List.mem_cons.mp mem).resolve_left (Ne.symm same)) moreLater
        have first := more d (by simp)
        by_cases dMarked : blockIsMarked (m d) = true
        · rw [if_pos dMarked, if_pos (first dMarked)]
          omega
        · rw [if_neg dMarked]
          split
          · omega
          · omega

end UnmarkedSlots

/-- An element of two lists in a row lies in the first, or the second has it at the same place. -/
theorem append_eq_append_cons {xs ys above below : List Nat} {a : Nat}
    (eq : xs ++ ys = above ++ a :: below) :
    a ∈ xs ∨ ∃ lower, above = xs ++ lower ∧ ys = lower ++ a :: below := by
  rcases List.append_eq_append_iff.mp eq with ⟨lower, aboveEq, ysEq⟩ | ⟨upper, xsEq, rest⟩
  · exact Or.inr ⟨lower, aboveEq, ysEq⟩
  · cases upper with
    | nil => exact Or.inr ⟨[], by rw [xsEq, List.append_nil, List.append_nil], rest.symm⟩
    | cons first upper =>
        left
        rw [xsEq, (List.cons.inj rest).1]
        simp

/-- The traversal has had room for all that it pushed.  What an object on the stack leads to, once
the object is marked, is marked as well or lies above it. -/
structure Fitting (h : Heap) (objects : List Nat) (headers pins : Nat → Prop) (root : Nat)
    (t : Traversal) : Prop extends Traversing h objects headers pins root t where
  fits : t.overflow = false
  above : ∀ above d below, t.stack = above ++ objectOf d :: below →
    blockIsMarked (t.heap.mem d) = true → ∀ e, PointsTo h.mem d e →
      blockIsMarked (t.heap.mem e) = true ∨ objectOf e ∈ above
  room : t.stack.length + unmarkedSlots (slotNumber h.mem) objects t.heap.mem ≤
    1 + unmarkedSlots (slotNumber h.mem) objects h.mem

theorem Fitting.start (graph : ObjectGraph h objects bigs headers) (bMem : b ∈ objects)
    (closed : MarksClosed h objects) (pinRoot : Bool) :
    Fitting h objects headers (fun x => pinRoot = true ∧ x = b) b
      ⟨{ h with mem := if pinRoot = true then pin (blockData b) h.mem else h.mem },
        [objectOf b], false⟩ := by
  have marks : ∀ d, blockIsMarked
      ((if pinRoot = true then pin (blockData b) h.mem else h.mem) d) =
        blockIsMarked (h.mem d) := by
    intro d
    split
    · exact blockIsMarked_pin b d h.mem
    · rfl
  refine
    { Traversing.start graph bMem pinRoot with
      fits := rfl, above := fun above d below stackEq marked e points => ?_, room := ?_ }
  · rcases List.append_eq_cons_iff.mp stackEq.symm with ⟨_, same⟩ | ⟨_, _, same⟩
    · have isRoot : d = b := objectOf_inj (List.cons.inj same).1
      subst isRoot
      rw [marks] at marked ⊢
      exact Or.inl (closed d bMem marked e points)
    · simp at same
  · apply Nat.add_le_add_left
    exact unmarkedSlots_mono _ fun d _ marked => (marks d).trans marked

/-- One iteration keeps the invariant and lowers the variant of the loop. -/
theorem Fitting.step (graph : ObjectGraph h objects bigs headers)
    (enough : GoFuel fuel h objects bigs)
    (few : unmarkedSlots (slotNumber h.mem) objects h.mem ≤ maxStackSize) {p : Nat}
    {rest : List Nat} (inv : Fitting h objects headers pins root t) (top : t.stack = p :: rest) :
    ∃ t', goObject fuel p { t with stack := rest } = .ok t' ∧
      Fitting h objects headers pins root t' ∧ goVariant objects t' < goVariant objects t := by
  rcases inv.toTraversing.step graph enough top with ⟨t', eq, traversing, smaller⟩
  refine ⟨t', eq, ?_, smaller⟩
  rcases inv.entries p (by simp [top]) with ⟨b, bMem, rfl⟩
  rcases @Traversal.visit_spec headers { t with stack := rest } b (graph.header b bMem) with
    ⟨stackKept, heapKept, visiting, visited, others, again⟩
  rcases @goObject_spec h objects bigs headers pins { t with stack := rest } b fuel graph bMem
    enough inv.heapEq inv.marking with ⟨t₁, eq₁, scanned⟩
  obtain rfl : t' = t₁ := Except.ok.inj (eq.symm.trans eq₁)
  rcases @goObject_tries h objects bigs headers pins { t with stack := rest } t' b fuel graph bMem
    enough inv.heapEq inv.marking eq with ⟨tried, atMost, tries⟩
  have overflowKept : (Traversal.visit b { t with stack := rest }).overflow = t.overflow := by
    unfold Traversal.visit
    split
    · rfl
    · rfl
  generalize Traversal.visit b { t with stack := rest } = v at *
  dsimp only at stackKept visiting others again
  have marks : ∀ d ∈ objects, blockIsMarked (t'.heap.mem d) = true ↔
      d = b ∨ blockIsMarked (t.heap.mem d) = true := by
    intro d mem
    rw [scanned.same d mem]
    by_cases same : d = b
    · subst same
      simp [visited]
    · rw [others d same]
      simp [same]
  have more : ∀ d ∈ objects, blockIsMarked (t.heap.mem d) = true →
      blockIsMarked (t'.heap.mem d) = true := fun d mem marked => (marks d mem).mpr (Or.inr marked)
  have room := inv.room
  rw [top, List.length_cons] at room
  have sum : rest.length + tried.length +
      unmarkedSlots (slotNumber h.mem) objects t'.heap.mem ≤
        unmarkedSlots (slotNumber h.mem) objects h.mem := by
    cases isMarked : blockIsMarked (t.heap.mem b) with
    | false =>
        have spent := unmarkedSlots_mark (slotNumber h.mem) bMem isMarked
          ((marks b bMem).mpr (Or.inl rfl)) more
        omega
    | true =>
        -- nothing lies above the popped object, so that all it leads to is marked
        have nothing : tried = [] := by
          refine List.eq_nil_iff_forall_not_mem.mpr fun d dMem => ?_
          rcases tries.unmarked d dMem with ⟨points, unmarked⟩
          rw [again isMarked] at unmarked
          rcases inv.above [] b rest top isMarked d points with marked | never
          · rw [unmarked] at marked
            cases marked
          · cases never
        have spent := unmarkedSlots_mono (slotNumber h.mem) more
        rw [nothing, List.length_nil]
        omega
  rcases tries.pushed (by rw [stackKept]; omega) with ⟨stackEq, kept⟩
  rw [stackKept] at stackEq
  have fits : t'.overflow = false := kept.trans (overflowKept.trans inv.fits)
  refine { traversing with fits := fits, above := ?_, room := ?_ }
  · intro above d below shape marked e points
    rw [stackEq] at shape
    have dMem : d ∈ objects := by
      rcases traversing.entries (objectOf d) (by rw [stackEq, shape]; simp) with ⟨d', mem, same⟩
      exact objectOf_inj same ▸ mem
    have eMem := graph.pointsTo_mem dMem points
    rcases append_eq_append_cons shape with isTried | ⟨lower, aboveEq, restEq⟩
    · -- the entry has just been pushed, and is not marked
      rcases List.mem_map.mp isTried with ⟨d', d'Mem, same⟩
      have unmarked := (tries.unmarked d' d'Mem).2
      rw [objectOf_inj same, ← scanned.same d dMem, marked] at unmarked
      cases unmarked
    · -- the entry has been on the stack before
      rcases (marks d dMem).mp marked with rfl | before
      · rcases tries.all e points with eMarked | isTried
        · left
          rw [scanned.same e eMem]
          exact eMarked
        · right
          rw [aboveEq]
          exact List.mem_append_left _ (List.mem_map_of_mem isTried)
      · have shape' : t.stack = (objectOf b :: lower) ++ objectOf d :: below := by
          rw [top, restEq]
          rfl
        rcases inv.above _ d below shape' before e points with eMarked | isAbove
        · exact Or.inl (more e eMem eMarked)
        · rcases List.mem_cons.mp isAbove with same | isAbove
          · exact Or.inl ((marks e eMem).mpr (Or.inl (objectOf_inj same)))
          · right
            rw [aboveEq]
            exact List.mem_append_right _ isAbove
  · rw [stackEq, List.length_append, List.length_map]
    omega

/-- A traversal never overflows the mark stack when the objects that are not marked at its start
have at most as many slots as the mark stack has entries. -/
theorem go_fits (graph : ObjectGraph h objects bigs headers) (enough : GoFuel fuel h objects bigs)
    (bMem : b ∈ objects) (closed : MarksClosed h objects)
    (few : unmarkedSlots (slotNumber h.mem) objects h.mem ≤ maxStackSize) (pinRoot : Bool) :
    ∃ h', go fuel (objectOf b) pinRoot h = .ok (false, h') := by
  have start := Fitting.start graph bMem closed pinRoot
  have yields : Yields (fun _ => False) _ (goLoop fuel _) := walk_decreases
    (fun _ t => Fitting h objects headers (fun x => pinRoot = true ∧ x = b) b t)
    (fun _ t => goVariant objects t) ?_ (start.toTraversing.variant_lt enough) start
  · rcases yields.total with ⟨t, loopEq, _, inv, _⟩
    refine ⟨t.heap, ?_⟩
    rw [go_objectOf graph enough bMem pinRoot, loopEq, ← inv.fits]
    rfl
  · intro _ t inv running
    cases top : t.stack with
    | nil => simp [top] at running
    | cons p rest =>
        rcases inv.step graph enough few top with ⟨t', eq, inv', smaller⟩
        rw [List.headD_cons, List.tail_cons, eq]
        exact ⟨inv', smaller⟩

end PreciseGc

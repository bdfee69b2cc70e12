import PreciseGc.Mark.Reachability

/-!
# Exactness of the traversal

When no push is refused, the marked objects are afterwards those that were
marked before and those reachable from the root.
-/

namespace PreciseGc

open Foundation Memory Relation

variable {h : Heap} {objects bigs : List Nat} {headers : Nat → Prop} {b fuel : Nat}

/-- The pointer that the body of the inner loop of `go` tries to push onto the full stack. -/
def slotRefusals (slot : Nat) (t : Traversal) : List Nat :=
  let (p, m) := getNextObj slot t.heap.mem
  if (p ≠ 0 && !getMark (getMetaInf p) m) && maxStackSize ≤ t.stack.length then [p] else []

/-- The pointers that `push` refuses. -/
def refusalObserver : Observer Nat where
  pin _ := []
  visit _ _ := []
  slot := slotRefusals

/-- Those that it refuses in `go(pointer, pin_root)`. -/
def goRefusals (fuel : Nat) (pointer : Nat) (pinRoot : Bool) (h : Heap) : List Nat :=
  goRecord refusalObserver fuel pointer pinRoot h

theorem refusalObserver_explains : refusalObserver.Explains fun record t t' =>
    t'.overflow = true ↔ t.overflow = true ∨ record ≠ [] where
  refl t := by simp
  trans xs ys t t' t'' first second := by
    rw [second, first]
    simp only [ne_eq, List.append_eq_nil_iff]
    tauto
  slot x t := by
    unfold refusalObserver slotRefusals goSlot
    dsimp only
    generalize getNextObj x t.heap.mem = next
    by_cases unmarked : (next.1 ≠ 0 && !getMark (getMetaInf next.1) next.2) = true
    · have unmarked' : (next.1 ≠ 0 && !getMark (getMetaInf next.1)
          (t.withMem next.2).heap.mem) = true := unmarked
      rw [if_pos unmarked', unmarked, Bool.true_and]
      unfold push
      by_cases full : maxStackSize ≤ t.stack.length
      · have full' : maxStackSize ≤ (t.withMem next.2).stack.length := full
        rw [if_pos full']
        simp [full]
      · have room : ¬maxStackSize ≤ (t.withMem next.2).stack.length := full
        rw [if_neg room]
        simp [full, Traversal.withMem]
    · have marked : ¬(next.1 ≠ 0 && !getMark (getMetaInf next.1)
          (t.withMem next.2).heap.mem) = true := unmarked
      rw [if_neg marked, Bool.eq_false_iff.mpr unmarked, Bool.false_and]
      simp [Traversal.withMem]
  visit bm t := by
    unfold visitObject refusalObserver
    split
    · simp [Traversal.withMem]
    · simp
  pop record t t' within := within

/-- A traversal reports an overflow exactly when a push was refused. -/
theorem go_overflow_iff (fuel pointer : Nat) (pinRoot : Bool) (h : Heap) :
    Yields (fun _ => True) (fun r => r.1 = true ↔ goRefusals fuel pointer pinRoot h ≠ [])
      (go fuel pointer pinRoot h) := by
  unfold go goRefusals goRecord
  split
  · simp
  · cases isHeapPointer fuel pointer h with
    | error fault => trivial
    | ok inHeap =>
        cases inHeap with
        | false =>
            change (false = true ↔ ([] : List Nat) ≠ [])
            simp
        | true =>
            refine (refusalObserver_explains.loop fuel ⟨_, [pointer], false⟩).bind
              fun t within => ?_
            have unpinned : (if pinRoot = true then refusalObserver.pin pointer else []) = [] := by
              simp [refusalObserver]
            simp only [after_ok, Bool.not_true, Bool.false_eq_true, ↓reduceIte, unpinned,
              List.nil_append]
            simpa using within

/-- What a marked object points to is marked. -/
def MarksClosed (h : Heap) (objects : List Nat) : Prop :=
  ∀ d ∈ objects, blockIsMarked (h.mem d) = true → ∀ e, PointsTo h.mem d e →
    blockIsMarked (h.mem e) = true

/-- In the headers of objects nothing has changed but marks and the pin of the root. -/
def KeepsHeaders (objects : List Nat) (b : Nat) (pinRoot : Bool) (m m' : Memory) : Prop :=
  ∀ d ∈ objects, blockSize (m' d) = blockSize (m d) ∧ blockIsDead (m' d) = blockIsDead (m d) ∧
    (blockIsPinned (m' d) = true ↔ blockIsPinned (m d) = true ∨ pinRoot = true ∧ d = b)

/-- The marked objects are those marked before and those reachable from the root. -/
def MarksReachable (objects : List Nat) (b : Nat) (m m' : Memory) : Prop :=
  ∀ d ∈ objects, blockIsMarked (m' d) = true ↔ blockIsMarked (m d) = true ∨ Reaches m b d

/-- A traversal without an overflow marks what is reachable from its root, and nothing else. -/
theorem Exploring.marksReachable {pins : Nat → Prop} {t : Traversal}
    (inv : Exploring h objects headers pins b t) (graph : ObjectGraph h objects bigs headers)
    (bMem : b ∈ objects) (closed : MarksClosed h objects) (stackEq : t.stack = [])
    (fits : t.overflow = false) : MarksReachable objects b h.mem t.heap.mem := by
  have reached : ∀ d, Reaches h.mem b d → d ∈ objects ∧ blockIsMarked (t.heap.mem d) = true := by
    intro d reaches
    induction reaches with
    | refl =>
        refine ⟨bMem, ?_⟩
        rcases inv.root with marked | only
        · exact marked
        · simp [stackEq] at only
    | @tail d e _ points ih =>
        rcases ih with ⟨mem, marked⟩
        refine ⟨graph.pointsTo_mem mem points, ?_⟩
        rcases inv.complete d mem marked with old | followed
        · exact inv.marking.marked e (closed d mem old e points)
        · rcases followed e points with marked | stacked | overflow
          · exact marked
          · simp [stackEq] at stacked
          · simp [fits] at overflow
  intro d mem
  constructor
  · exact inv.sound d mem
  · rintro (old | reaches)
    · exact inv.marking.marked d old
    · exact (reached d reaches).2

/-- A traversal from an object returns nonzero exactly when a push was refused, and changes only
marks and the pin of the root.  When it returns zero, it has marked exactly what is reachable. -/
theorem go_exact (graph : ObjectGraph h objects bigs headers)
    (enough : GoFuel fuel h objects bigs) (bMem : b ∈ objects) (closed : MarksClosed h objects)
    (pinRoot : Bool) :
    ∃ overflow h', go fuel (objectOf b) pinRoot h = .ok (overflow, h') ∧
      (overflow = true ↔ goRefusals fuel (objectOf b) pinRoot h ≠ []) ∧
      KeepsHeaders objects b pinRoot h.mem h'.mem ∧
        (overflow = false → MarksReachable objects b h.mem h'.mem) := by
  rcases go_explores graph enough bMem pinRoot with ⟨t, eq, inv, stackEq⟩
  refine ⟨t.overflow, t.heap, eq, ?_, ?_, ?_⟩
  · exact (go_overflow_iff fuel (objectOf b) pinRoot h).of_ok eq
  · exact fun d _ => ⟨inv.marking.size d, inv.marking.dead d, inv.marking.pinned d⟩
  · exact inv.marksReachable graph bMem closed stackEq

/-- A big block with an array of `2^31 + 1` pointers, all null but the last, which designates the
object in the block `65552` of the only page. -/
def largeArray : Heap where
  mem := fun x =>
    if x = 131080 then 24 + 8 * (2 ^ 31 + 1)
    else if x = 131096 then 4096
    else if x = 131104 then 2 ^ 31 + 1
    else if x = 131112 + 8 * 2 ^ 31 then 65584
    else if x = 65552 then 24
    else if x = 65568 then 4096
    else if x = 4096 then 8
    else if x = 4104 then 1
    else 0
  parts := [⟨65536, 69632⟩]
  firstBigBlock := 131072

theorem largeArray_array : shellOf largeArray.mem 131080 = 4096 ∧
    countOf largeArray.mem 131080 = 2 ^ 31 + 1 ∧
      blockSize (largeArray.mem 131080) = 24 + 8 * (2 ^ 31 + 1) :=
  ⟨rfl, rfl, blockSize_of_aligned (by decide)⟩

theorem largeArray_last : shellOf largeArray.mem 65552 = 4096 ∧
    countOf largeArray.mem 65552 = 0 ∧ blockSize (largeArray.mem 65552) = 24 :=
  ⟨rfl, rfl, blockSize_of_aligned (by decide)⟩

theorem largeArray_shell : shellSize largeArray.mem 4096 = 8 ∧
    shellCount largeArray.mem 4096 = 1 ∧ shellOffset largeArray.mem 4096 0 = 0 := ⟨rfl, rfl, rfl⟩

theorem largeArray_slotAddr (i : Nat) : slotAddr largeArray.mem 131080 i 0 = 131112 + 8 * i := by
  simp only [slotAddr, largeArray_array.1, largeArray_shell.1, largeArray_shell.2.2, objectOf_eq]
  omega

theorem largeArray_slot {i : Nat} (less : i < 2 ^ 31 + 1) :
    largeArray.mem (slotAddr largeArray.mem 131080 i 0) = if i = 2 ^ 31 then 65584 else 0 := by
  rw [largeArray_slotAddr]
  simp only [largeArray]
  grind

theorem largeArray_designates : Designates 65584 65552 := by decide

/-- The slots of the array. -/
theorem largeArray_slotsOf {x : Nat} (slot : x ∈ slotsOf largeArray.mem 131080) :
    ∃ i < 2 ^ 31 + 1, x = slotAddr largeArray.mem 131080 i 0 := by
  rcases mem_slotsOf.mp slot with ⟨i, iLess, j, jLess, rfl⟩
  rw [largeArray_array.2.1] at iLess
  rw [largeArray_array.1, largeArray_shell.2.1] at jLess
  obtain rfl : j = 0 := by omega
  exact ⟨i, iLess, rfl⟩

theorem largeArray_graph :
    ObjectGraph largeArray [131080, 65552] [131072] (fun x => x = 131080 ∨ x = 65552) where
  header b mem := by simpa using mem
  object b mem := by
    have shell : shellOf largeArray.mem b = 4096 := by
      rcases List.mem_pair.mp mem with rfl | rfl
      · rfl
      · rfl
    refine ⟨?_, ?_, ?_⟩
    · rw [shell, largeArray_shell.1]
      rcases List.mem_pair.mp mem with rfl | rfl
      · rw [largeArray_array.2.1, largeArray_array.2.2]
      · rw [largeArray_last.2.1, largeArray_last.2.2]
    · rw [shell, largeArray_shell.1, largeArray_shell.2.1]
      intro j less
      obtain rfl : j = 0 := by omega
      rw [largeArray_shell.2.2]
    · rw [shell, largeArray_shell.2.1]
      intro x _ upper
      omega
  dataApart b mem x lower upper := by
    rcases List.mem_pair.mp mem with rfl | rfl
    · omega
    · rw [largeArray_last.2.2] at upper
      omega
  bounded b mem := by
    rcases List.mem_pair.mp mem with rfl | rfl
    · rw [largeArray_array.2.2]
      decide
    · rw [largeArray_last.2.2]
      decide
  bigChain := ⟨rfl, by decide, rfl⟩
  bigApart := by simp
  inHeap b mem := by
    rcases List.mem_pair.mp mem with rfl | rfl
    · right
      refine ⟨131072, List.mem_singleton.mpr rfl, by decide, ?_⟩
      rw [show bigHeader 131072 = 131080 from rfl, largeArray_array.2.2]
      decide
    · left
      exact ⟨⟨65536, 69632⟩, List.mem_singleton.mpr rfl, by decide, by decide⟩
  pointer b mem x slot := by
    rcases List.mem_pair.mp mem with rfl | rfl
    · rcases largeArray_slotsOf slot with ⟨i, less, rfl⟩
      rw [largeArray_slot less]
      split
      · exact Or.inr (Or.inl ⟨65552, by simp, largeArray_designates⟩)
      · exact Or.inl ⟨by decide, by decide⟩
    · rcases mem_slotsOf.mp slot with ⟨i, iLess, _⟩
      rw [largeArray_last.2.1] at iLess
      omega

theorem largeArray_goFuel : GoFuel (2 ^ 32) largeArray [131080, 65552] [131072] where
  bigs := by decide
  pops := by decide
  counts b mem _ := by
    rcases List.mem_pair.mp mem with rfl | rfl
    · rw [largeArray_array.2.1]
      decide
    · rw [largeArray_last.2.1]
      decide

theorem largeArray_unmarked {b : Nat} (mem : b ∈ [131080, 65552]) :
    blockIsMarked (largeArray.mem b) = false := by
  rcases List.mem_pair.mp mem with rfl | rfl
  · decide
  · decide

theorem largeArray_closed : MarksClosed largeArray [131080, 65552] := by
  intro d mem marked
  rw [largeArray_unmarked mem] at marked
  cases marked

theorem go_exact_largeArray : ∃ overflow h',
    go (2 ^ 32) (objectOf 131080) true largeArray = .ok (overflow, h') ∧
      (overflow = true ↔ goRefusals (2 ^ 32) (objectOf 131080) true largeArray ≠ []) ∧
      KeepsHeaders [131080, 65552] 131080 true largeArray.mem h'.mem ∧
        (overflow = false → MarksReachable [131080, 65552] 131080 largeArray.mem h'.mem) :=
  go_exact largeArray_graph largeArray_goFuel (by simp) largeArray_closed true

end PreciseGc

import Mathlib.Logic.Relation
import PreciseGc.Mark.Recording
import PreciseGc.Mark.Scanning

/-!
# What a traversal marks

An object points to the objects that its slots lead to.  A traversal marks
objects that are reachable from its root.  An object that it has marked points
to objects that are marked, wait on the stack, or were refused.
-/

namespace PreciseGc

open Foundation Memory Relation

/-- The object in `d` is reachable from the object in `b`. -/
def Reaches (m : Memory) : Nat → Nat → Prop := ReflTransGen (PointsTo m)

section Exploration

variable {h : Heap} {objects bigs : List Nat} {headers pins : Nat → Prop} {t : Traversal}
  {b root fuel : Nat}

theorem ObjectGraph.pointsTo_mem (graph : ObjectGraph h objects bigs headers) (bMem : b ∈ objects)
    {d : Nat} (points : PointsTo h.mem b d) : d ∈ objects := by
  rcases points with ⟨x, slot, led⟩
  exact ObjectGraph.leads_mem (graph.pointer b bMem x slot) led

/-- The loop has marked objects that it reaches from the root.  What an object it has marked leads
to is marked or waits on the stack, unless there was an overflow. -/
structure Exploring (h : Heap) (objects : List Nat) (headers pins : Nat → Prop) (origin : Nat)
    (t : Traversal) : Prop extends Traversing h objects headers pins origin t where
  stacked : ∀ d, objectOf d ∈ t.stack → Reaches h.mem origin d
  sound : ∀ d ∈ objects, blockIsMarked (t.heap.mem d) = true →
    blockIsMarked (h.mem d) = true ∨ Reaches h.mem origin d
  complete : ∀ d ∈ objects, blockIsMarked (t.heap.mem d) = true →
    blockIsMarked (h.mem d) = true ∨ ∀ e, PointsTo h.mem d e →
      blockIsMarked (t.heap.mem e) = true ∨ objectOf e ∈ t.stack ∨ t.overflow = true

theorem blockIsMarked_pin (b d : Nat) (m : Memory) :
    blockIsMarked (pin (blockData b) m d) = blockIsMarked (m d) := by
  have header : getBlock (blockData b) = b := by simp [getBlock, blockData]
  unfold pin
  rw [header]
  by_cases same : d = b
  · subst same
    rw [write_same]
    exact (flags_pinBlock (m d)).2.1
  · rw [write_of_ne same]

/-- The invariant holds when the loop starts at an object. -/
theorem Exploring.start (graph : ObjectGraph h objects bigs headers) (bMem : b ∈ objects)
    (pinRoot : Bool) : Exploring h objects headers (fun x => pinRoot = true ∧ x = b) b
      ⟨{ h with mem := if pinRoot = true then pin (blockData b) h.mem else h.mem },
        [objectOf b], false⟩ := by
  have marks : ∀ d, blockIsMarked
      ((if pinRoot = true then pin (blockData b) h.mem else h.mem) d) =
        blockIsMarked (h.mem d) := by
    intro d
    split
    · exact blockIsMarked_pin b d h.mem
    · rfl
  refine
    { Traversing.start graph bMem pinRoot with
      stacked := fun d mem => ?_, sound := fun d _ marked => ?_, complete := fun d _ marked => ?_ }
  · rw [objectOf_inj (List.mem_singleton.mp mem)]
    exact ReflTransGen.refl
  · exact Or.inl ((marks d).symm.trans marked)
  · exact Or.inl ((marks d).symm.trans marked)

/-- One iteration keeps the invariant and lowers the variant. -/
theorem Exploring.step (graph : ObjectGraph h objects bigs headers)
    (enough : GoFuel fuel h objects bigs) {p : Nat} {rest : List Nat}
    (inv : Exploring h objects headers pins root t) (top : t.stack = p :: rest) :
    ∃ t', goObject fuel p { t with stack := rest } = .ok t' ∧
      Exploring h objects headers pins root t' ∧ goVariant objects t' < goVariant objects t := by
  rcases inv.toTraversing.step graph enough top with ⟨t', eq, traversing, smaller⟩
  refine ⟨t', eq, ?_, smaller⟩
  rcases inv.entries p (by simp [top]) with ⟨b, bMem, rfl⟩
  have popped : Reaches h.mem root b := inv.stacked b (by simp [top])
  rcases @goObject_spec h objects bigs headers pins { t with stack := rest } b fuel
    graph bMem enough
    inv.heapEq inv.marking with ⟨t'', eq', scanned⟩
  obtain rfl : t' = t'' := Except.ok.inj (eq.symm.trans eq')
  rcases @Traversal.visit_spec headers { t with stack := rest } b (graph.header b bMem) with
    ⟨stackKept, heapKept, visiting, visited, others, _⟩
  have overflowKept : (Traversal.visit b { t with stack := rest }).overflow = t.overflow := by
    unfold Traversal.visit
    split
    · rfl
    · rfl
  rcases scanned.stack with ⟨pushed, stackEq, unmarked⟩
  rw [stackKept] at stackEq
  dsimp only at stackEq visiting others
  have marks : ∀ d ∈ objects, blockIsMarked (t'.heap.mem d) = true ↔
      d = b ∨ blockIsMarked (t.heap.mem d) = true := by
    intro d mem
    rw [scanned.same d mem]
    by_cases same : d = b
    · subst same
      simp [visited]
    · rw [others d same]
      simp [same]
  -- an entry that is no longer on the stack is the popped one
  have moved : ∀ e, objectOf e ∈ t.stack → e = b ∨ objectOf e ∈ t'.stack := by
    intro e mem
    rw [top] at mem
    rcases List.mem_cons.mp mem with same | mem
    · exact Or.inl (objectOf_inj same)
    · rw [stackEq]
      exact Or.inr (List.mem_append_right _ mem)
  refine { traversing with stacked := ?_, sound := ?_, complete := ?_ }
  · intro d mem
    rw [stackEq] at mem
    rcases List.mem_append.mp mem with mem | mem
    · rcases unmarked _ mem with ⟨e, _, same, points, _⟩
      rw [objectOf_inj same]
      exact ReflTransGen.tail popped points
    · apply inv.stacked
      rw [top]
      exact List.mem_cons_of_mem _ mem
  · intro d mem marked
    rcases (marks d mem).mp marked with rfl | before
    · exact Or.inr popped
    · exact inv.sound d mem before
  · intro d mem marked
    by_cases same : d = b
    · subst same
      right
      intro e points
      rcases scanned.found e points with visitMarked | stacked | overflow
      · left
        rw [scanned.same e (graph.pointsTo_mem mem points)]
        exact visitMarked
      · exact Or.inr (Or.inl stacked)
      · exact Or.inr (Or.inr overflow)
    · have before := ((marks d mem).mp marked).resolve_left same
      rcases inv.complete d mem before with old | followed
      · exact Or.inl old
      · right
        intro e points
        have eMem := graph.pointsTo_mem mem points
        rcases followed e points with marked | stacked | overflow
        · exact Or.inl ((marks e eMem).mpr (Or.inr marked))
        · rcases moved e stacked with rfl | stacked
          · exact Or.inl ((marks e eMem).mpr (Or.inl rfl))
          · exact Or.inr (Or.inl stacked)
        · rw [← overflowKept] at overflow
          exact Or.inr (Or.inr (scanned.overflowed overflow))

/-- The loop of `go` runs to the end. -/
theorem goLoop_explores (graph : ObjectGraph h objects bigs headers)
    (enough : GoFuel fuel h objects bigs) (inv : Exploring h objects headers pins root t) :
    ∃ t', goLoop fuel t = .ok t' ∧ Exploring h objects headers pins root t' ∧ t'.stack = [] := by
  have yields : Yields (fun _ => False) _ (goLoop fuel t) := walk_decreases
    (fun _ t => Exploring h objects headers pins root t) (fun _ t => goVariant objects t)
    ?_ (inv.toTraversing.variant_lt enough) inv
  · rcases yields.total with ⟨t', eq, _, inv', stopped⟩
    exact ⟨t', eq, inv', by simpa using stopped⟩
  · intro _ t inv running
    cases top : t.stack with
    | nil => simp [top] at running
    | cons p rest =>
        rcases inv.step graph enough top with ⟨t', eq, inv', smaller⟩
        rw [List.headD_cons, List.tail_cons, eq]
        exact ⟨inv', smaller⟩

/-- `go`, started at an object. -/
theorem go_explores (graph : ObjectGraph h objects bigs headers)
    (enough : GoFuel fuel h objects bigs) (bMem : b ∈ objects) (pinRoot : Bool) :
    ∃ t, go fuel (objectOf b) pinRoot h = .ok (t.overflow, t.heap) ∧
      Exploring h objects headers (fun x => pinRoot = true ∧ x = b) b t ∧ t.stack = [] := by
  rcases goLoop_explores graph enough (Exploring.start graph bMem pinRoot) with
    ⟨t, loopEq, inv, stackEq⟩
  refine ⟨t, ?_, inv, stackEq⟩
  rw [go_objectOf graph enough bMem pinRoot, loopEq]
  rfl

end Exploration

end PreciseGc

import PreciseGc.Roots.MarkAndSweep
import PreciseGc.Sweep.Fuel

/-!
# The fuel of a collection

The loops of the mark phase run with the same fuel as the sweep.  More fuel
never changes how a collection ends, unless it ran out of fuel.
-/

namespace PreciseGc

open Foundation

variable {fuel fuel' : Nat}

theorem isHeapPointer_extends (more : fuel ≤ fuel') (ptr : Nat) (h : Heap) :
    Extends .outOfFuel (isHeapPointer fuel ptr h) (isHeapPointer fuel' ptr h) := by
  have inBigs : ∀ bb, Extends .outOfFuel (findBigBlock h.mem ptr fuel bb)
      (findBigBlock h.mem ptr fuel' bb) := by
    intro bb
    induction fuel generalizing fuel' bb with
    | zero => exact Extends.of_exhausted
    | succ fuel ih =>
        obtain ⟨fuel', rfl⟩ : ∃ rest, fuel' = rest + 1 := ⟨fuel' - 1, by omega⟩
        rw [findBigBlock, findBigBlock]
        apply Extends.ite (Extends.refl _)
        apply Extends.ite (Extends.refl _)
        apply ih
        omega
  exact Extends.ite (Extends.refl _) (inBigs _)

theorem goElements_extends (more : fuel ≤ fuel') (metaAddr size count i v : Nat) (t : Traversal) :
    Extends .outOfFuel (goElements metaAddr size count fuel i v t)
      (goElements metaAddr size count fuel' i v t) := by
  induction fuel generalizing fuel' i v t with
  | zero => exact Extends.of_exhausted
  | succ fuel ih =>
      obtain ⟨fuel', rfl⟩ : ∃ rest, fuel' = rest + 1 := ⟨fuel' - 1, by omega⟩
      rw [goElements, goElements]
      apply Extends.ite _ (Extends.refl _)
      apply ih
      omega

theorem goObject_extends (more : fuel ≤ fuel') (v : Nat) (t : Traversal) :
    Extends .outOfFuel (goObject fuel v t) (goObject fuel' v t) := by
  apply Extends.ite (Extends.refl _)
  apply (isHeapPointer_extends more v t.heap).bind
  intro inHeap
  apply Extends.ite (Extends.refl _)
  exact Extends.ite (Extends.refl _) (goElements_extends more _ _ _ _ _ _)

theorem go_extends (more : fuel ≤ fuel') (pointer : Nat) (pinRoot : Bool) (h : Heap) :
    Extends .outOfFuel (go fuel pointer pinRoot h) (go fuel' pointer pinRoot h) := by
  apply Extends.ite (Extends.refl _)
  apply (isHeapPointer_extends more pointer h).bind
  intro inHeap
  apply Extends.ite (Extends.refl _)
  apply Extends.bind _ fun _ => Extends.refl _
  apply walk_extends _ more
  intro _ t
  exact (goObject_extends more _ _).bind fun _ => Extends.refl _

theorem restart_extends (more : fuel ≤ fuel') (header data : Nat) (s : Bool × Heap) :
    Extends .outOfFuel (restart id (fun _ => go fuel) header data s)
      (restart id (fun _ => go fuel') header data s) := by
  apply Extends.ite _ (Extends.refl _)
  exact (go_extends more data false s.2).bind fun _ => Extends.refl _

theorem markAfterOverflow_extends (more : fuel ≤ fuel') (h : Heap) :
    Extends .outOfFuel (markAfterOverflow id (fun _ => go fuel) fuel h)
      (markAfterOverflow id (fun _ => go fuel') fuel' h) := by
  apply Extends.bind
  · apply walk_extends _ more
    intro b s
    exact (restart_extends more _ _ s).bind fun _ => Extends.refl _
  · intro s
    apply walk_extends _ more
    intro p s
    apply Extends.bind _ fun _ => Extends.refl _
    apply walk_extends _ more
    intro b s
    exact (restart_extends more _ _ s).bind fun _ => Extends.refl _

theorem markChain_extends (more : fuel ≤ fuel') (root : Nat) (fullGc : Bool)
    (chain : List RootHandler) (h : Heap) :
    Extends .outOfFuel ((collector fuel).markChain root fullGc chain h)
      ((collector fuel').markChain root fullGc chain h) := by
  induction chain with
  | nil => exact Extends.refl _
  | cons curr next ih =>
      apply Extends.ite
      · apply Extends.ite _ (Extends.refl _)
        apply Extends.ite _ (Extends.refl _)
        exact (go_extends more _ true h).bind fun _ => Extends.refl _
      · exact ih.bind fun _ => Extends.refl _

theorem markStack_extends (more : fuel ≤ fuel') (fullGc : Bool) (words : List Nat)
    (s : DerefRoots × Heap) :
    Extends .outOfFuel ((collector fuel).markStack fuel fullGc words s)
      ((collector fuel').markStack fuel' fullGc words s) := by
  induction words generalizing s with
  | nil => exact Extends.refl _
  | cons word words ih =>
      apply (isHeapPointer_extends more word s.2).bind
      intro inHeap
      apply Extends.ite _ (ih s)
      apply Extends.bind _ ih
      apply Extends.ite (Extends.refl _)
      exact (markChain_extends more word fullGc _ s.2).bind fun _ => Extends.refl _

theorem goFrom_extends (more : fuel ≤ fuel') (site : CallSite) (addr : Nat) (h : Heap) :
    Extends .outOfFuel ((collector fuel).goFrom site addr h)
      ((collector fuel').goFrom site addr h) :=
  go_extends more _ _ _

theorem markStackMap_extends (more : fuel ≤ fuel') (roots : List Nat) (s : Bool × Heap) :
    Extends .outOfFuel ((collector fuel).markStackMap roots s)
      ((collector fuel').markStackMap roots s) := by
  induction roots generalizing s with
  | nil => exact Extends.refl _
  | cons root roots ih => exact (goFrom_extends more .stackMap root s.2).bind fun _ => ih _

theorem rescan_extends {rounds rounds' : Nat} (more : fuel ≤ fuel') (moreRounds : rounds ≤ rounds')
    (overflow : Bool) (h : Heap) :
    Extends .outOfFuel ((collector fuel).rescan rounds overflow h)
      ((collector fuel').rescan rounds' overflow h) := by
  cases overflow with
  | false =>
      cases rounds <;> cases rounds' <;> exact Extends.refl _
  | true =>
      induction rounds generalizing rounds' h with
      | zero => exact Extends.of_exhausted
      | succ rounds ih =>
          obtain ⟨rounds', rfl⟩ : ∃ rest, rounds' = rest + 1 := ⟨rounds' - 1, by omega⟩
          apply (markAfterOverflow_extends more h).bind
          rintro ⟨again, h'⟩
          cases again with
          | false => cases rounds <;> cases rounds' <;> exact Extends.refl _
          | true => exact ih (by omega) h'

theorem markThreads_extends (more : fuel ≤ fuel') (threads : List ThreadHandler)
    (s : DerefRoots × Heap) :
    Extends .outOfFuel ((collector fuel).markThreads fuel threads s)
      ((collector fuel').markThreads fuel' threads s) := by
  induction threads generalizing s with
  | nil => exact Extends.refl _
  | cons thread threads ih =>
      apply Extends.bind _ ih
      apply (markStack_extends more true _ s).bind
      intro s
      apply (markStackMap_extends more _ _).bind
      intro r
      exact (rescan_extends more more r.1 r.2).bind fun _ => Extends.refl _

theorem markNode_extends (more : fuel ≤ fuel') (fakeRoots : FakeRoots) (h : Heap) :
    Extends .outOfFuel ((collector fuel).markNode fakeRoots h)
      ((collector fuel').markNode fakeRoots h) := by
  induction fakeRoots generalizing h with
  | null => exact Extends.refl _
  | node self addr height left right leftIh rightIh =>
      apply (goFrom_extends more .fakeRoot addr _).bind
      exact fun r => (leftIh r.2).bind fun h => rightIh h

theorem markRoots_extends (more : fuel ≤ fuel') (threads : List ThreadHandler)
    (fakeRoots : FakeRoots) (s : DerefRoots × Heap) :
    Extends .outOfFuel ((collector fuel).markRoots fuel threads fakeRoots s)
      ((collector fuel').markRoots fuel' threads fakeRoots s) := by
  apply (markThreads_extends more threads s).bind
  intro s
  exact (markNode_extends more fakeRoots s.2).bind fun _ => Extends.refl _

theorem markAndSweep_extends (more : fuel ≤ fuel') (pf : Platform) (threads : List ThreadHandler)
    (fakeRoots : FakeRoots) (s : DerefRoots × Heap) :
    Extends .outOfFuel (markAndSweep pf fuel threads fakeRoots s)
      (markAndSweep pf fuel' threads fakeRoots s) := by
  apply (markRoots_extends more threads fakeRoots s).bind
  intro s
  exact (sweep_extends more _ s.2).bind fun _ => Extends.refl _

end PreciseGc

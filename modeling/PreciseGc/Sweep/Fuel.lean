import PreciseGc.Foundation.Approximation
import PreciseGc.Heap.Sweep

/-!
# The fuel of a sweep

The loops of a sweep all run with the fuel of the sweep.  More fuel never
changes how a sweep ends, unless it ran out of fuel.
-/

namespace PreciseGc

open Foundation

variable {pf : Platform} {fuel fuel' : Nat}

theorem findPinned_extends (more : fuel ≤ fuel') (m : Memory) (p b : Nat) :
    Extends .outOfFuel (findPinned m p fuel b) (findPinned m p fuel' b) := by
  induction fuel generalizing fuel' b with
  | zero => exact Extends.of_exhausted
  | succ fuel ih =>
      obtain ⟨fuel', rfl⟩ : ∃ rest, fuel' = rest + 1 := ⟨fuel' - 1, by omega⟩
      rw [findPinned, findPinned]
      apply Extends.ite (Extends.refl _)
      apply Extends.ite (Extends.refl _)
      apply ih
      omega

theorem forBlocks_extends (more : fuel ≤ fuel') {body body' : Nat → Heap → Except Fault Heap}
    (bodies : ∀ b h, Extends .outOfFuel (body b h) (body' b h)) (p : Nat) (h : Heap) :
    Extends .outOfFuel (forBlocks fuel p body h) (forBlocks fuel' p body' h) := by
  apply walk_extends _ more
  intro b h
  apply (bodies b h).bind
  exact fun _ => Extends.refl _

theorem forPages_extends {σ : Type} {heap : σ → Heap} (more : fuel ≤ fuel')
    {body body' : Nat → σ → Except Fault σ}
    (bodies : ∀ p s, Extends .outOfFuel (body p s) (body' p s)) (p : Nat) (s : σ) :
    Extends .outOfFuel (forPages heap fuel p body s) (forPages heap fuel' p body' s) := by
  apply walk_extends _ more
  intro p s
  apply (bodies p s).bind
  exact fun _ => Extends.refl _

theorem sweepBigBlocks_extends (more : fuel ≤ fuel') (h : Heap) :
    Extends .outOfFuel (sweepBigBlocks pf fuel h) (sweepBigBlocks pf fuel' h) := by
  apply (walk_extends (fun _ _ => Extends.refl _) more _ _).bind
  exact fun _ => Extends.refl _

theorem classifyPages_extends (more : fuel ≤ fuel') (h : Heap) :
    Extends .outOfFuel (classifyPages pf fuel h) (classifyPages pf fuel' h) := by
  apply walk_extends _ more
  intro p s
  apply (findPinned_extends more _ _ _).bind
  intro b
  apply Extends.ite (Extends.refl _)
  apply (forBlocks_extends more (fun _ _ => Extends.refl _) _ _).bind
  exact fun _ => Extends.refl _

theorem evacuatePages_extends (more : fuel ≤ fuel') (s : SweepState) :
    Extends .outOfFuel (evacuatePages pf fuel s) (evacuatePages pf fuel' s) := by
  apply forPages_extends more
  exact fun p s => walk_extends (fun _ _ => Extends.refl _) more _ _

theorem fixElements_extends (more : fuel ≤ fuel') (metaAddr size count i data : Nat)
    (m : Memory) : Extends .outOfFuel (fixElements metaAddr size count fuel i data m)
      (fixElements metaAddr size count fuel' i data m) := by
  induction fuel generalizing fuel' i data m with
  | zero => exact Extends.of_exhausted
  | succ fuel ih =>
      obtain ⟨fuel', rfl⟩ : ∃ rest, fuel' = rest + 1 := ⟨fuel' - 1, by omega⟩
      rw [fixElements, fixElements]
      apply Extends.ite _ (Extends.refl _)
      apply ih
      omega

theorem fixPages_extends (more : fuel ≤ fuel') (p : Nat) (h : Heap) :
    Extends .outOfFuel (fixPages pf fuel p h) (fixPages pf fuel' p h) := by
  apply forPages_extends more
  intro p h
  apply forBlocks_extends more
  intro b h
  apply (Extends.refl _).bind
  intro _
  apply (Extends.refl _).bind
  intro _
  apply Extends.ite (Extends.refl _)
  apply Extends.ite (Extends.refl _)
  apply (fixElements_extends more _ _ _ _ _ _).bind
  exact fun _ => Extends.refl _

theorem recyclePages_extends (more : fuel ≤ fuel') (h : Heap) :
    Extends .outOfFuel (recyclePages fuel h) (recyclePages fuel' h) :=
  walk_extends (fun _ _ => Extends.refl _) more _ _

/-- A sweep with more fuel ends as it does. -/
theorem sweep_extends (more : fuel ≤ fuel') (threads : ThreadRoots) (h : Heap) :
    Extends .outOfFuel (sweep pf fuel threads h) (sweep pf fuel' threads h) := by
  apply (sweepBigBlocks_extends more h).bind
  intro h
  apply (classifyPages_extends more _).bind
  intro s
  apply (evacuatePages_extends more s).bind
  intro s
  apply (fixPages_extends more _ _).bind
  intro h
  apply (recyclePages_extends more _).bind
  exact fun _ => Extends.refl _

end PreciseGc

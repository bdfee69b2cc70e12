import PreciseGc.Foundation.Record
import PreciseGc.Mark.Traversal

/-!
# Observing a traversal

An observer says what is recorded when `go` pins its root, visits an object and
scans a slot; the functions below put the records of one run together.  When
each recorded step has the effect that its record allows, so has the traversal.
-/

namespace PreciseGc

open Foundation

universe u

/-- What is recorded of a traversal. -/
structure Observer (τ : Type u) where
  /-- The root is pinned. -/
  pin : (pointer : Nat) → List τ
  /-- A popped object is looked at, and marked if it is not. -/
  visit : (bm : Nat) → Traversal → List τ
  /-- A slot of the object is scanned. -/
  slot : (slot : Nat) → Traversal → List τ

/-- The object with the `base_meta` at `bm` is marked if it is not. -/
def visitObject (bm : Nat) (t : Traversal) : Traversal :=
  if !getMark bm t.heap.mem then t.withMem (mark bm t.heap.mem) else t

section Record

variable {τ : Type u} (o : Observer τ)

/-- The record of the loop over the pointer slots of one element. -/
def goSlotsRecord (metaAddr v : Nat) : (count j : Nat) → Traversal → List τ
  | 0, _, _ => []
  | count + 1, j, t =>
      let slot := ptrAdd v (shellOffset t.heap.mem (metaShell t.heap.mem metaAddr) j)
      o.slot slot t ++ goSlotsRecord metaAddr v count (j + 1) (goSlot slot t)

/-- The record of the loop over the elements of one object. -/
def goElementsRecord (metaAddr size count : Nat) :
    (fuel i : Nat) → (v : Nat) → Traversal → List τ
  | 0, _, _, _ => []
  | fuel + 1, i, v, t =>
      if i < metaCount t.heap.mem metaAddr then
        goSlotsRecord o metaAddr v count 0 t ++
          goElementsRecord metaAddr size count fuel (i + 1) (ptrAdd v size)
            (goSlots metaAddr v count 0 t)
      else []

/-- The record of the body of the loop of `go` for the popped pointer `v`. -/
def goObjectRecord (fuel : Nat) (v : Nat) (t : Traversal) : List τ :=
  if v = 0 then []
  else
    after (isHeapPointer fuel v t.heap) fun inHeap =>
      if !inHeap then []
      else
        let bm := getMetaInf v
        let t' := visitObject bm t
        let size := shellSize t'.heap.mem (metaShell t'.heap.mem bm)
        let count := shellCount t'.heap.mem (metaShell t'.heap.mem bm)
        o.visit bm t ++ if count = 0 then [] else goElementsRecord o bm size count fuel 0 v t'

/-- The record of the loop of `go`. -/
def goLoopRecord (fuel : Nat) (t : Traversal) : List τ :=
  walkRecord (fun (_ : Unit) (t : Traversal) => t.stack.isEmpty)
    (fun _ t =>
      goObject fuel (t.stack.headD 0) { t with stack := t.stack.tail } >>= fun t => .ok ((), t))
    (fun _ t => goObjectRecord o fuel (t.stack.headD 0) { t with stack := t.stack.tail }) fuel () t

/-- The record of `go(pointer, pin_root)`. -/
def goRecord (fuel : Nat) (pointer : Nat) (pinRoot : Bool) (h : Heap) : List τ :=
  if pointer = 0 then []
  else
    after (isHeapPointer fuel pointer h) fun inHeap =>
      if !inHeap then []
      else
        let m := if pinRoot then pin (getMetaInf pointer) h.mem else h.mem
        (if pinRoot then o.pin pointer else []) ++
          goLoopRecord o fuel ⟨{ h with mem := m }, [pointer], false⟩

end Record

/-- Each step has the effect that its record allows. -/
structure Observer.Explains {τ : Type u} (o : Observer τ)
    (effect : List τ → Traversal → Traversal → Prop) : Prop where
  refl : ∀ t, effect [] t t
  trans : ∀ xs ys t t' t'', effect xs t t' → effect ys t' t'' → effect (xs ++ ys) t t''
  slot : ∀ x t, effect (o.slot x t) t (goSlot x t)
  visit : ∀ bm t, effect (o.visit bm t) t (visitObject bm t)
  pop : ∀ record t t', effect record { t with stack := t.stack.tail } t' → effect record t t'

namespace Observer.Explains

variable {τ : Type u} {o : Observer τ} {effect : List τ → Traversal → Traversal → Prop}
  (explains : o.Explains effect)

include explains

theorem slots (metaAddr v count j : Nat) (t : Traversal) :
    effect (goSlotsRecord o metaAddr v count j t) t (goSlots metaAddr v count j t) := by
  induction count generalizing j t with
  | zero => exact explains.refl t
  | succ count ih =>
      apply explains.trans
      · exact explains.slot _ t
      · exact ih (j + 1) _

theorem elements (metaAddr size count fuel i v : Nat) (t : Traversal) :
    Yields (fun _ => True) (effect (goElementsRecord o metaAddr size count fuel i v t) t)
      (goElements metaAddr size count fuel i v t) := by
  induction fuel generalizing i v t with
  | zero => trivial
  | succ fuel ih =>
      unfold goElements goElementsRecord
      split
      · apply (ih (i + 1) (ptrAdd v size) _).mono
        intro t' later
        exact explains.trans _ _ _ _ _ (explains.slots metaAddr v _ 0 t) later
      · exact explains.refl t

theorem object (fuel v : Nat) (t : Traversal) :
    Yields (fun _ => True) (effect (goObjectRecord o fuel v t) t) (goObject fuel v t) := by
  unfold goObject goObjectRecord
  split
  · exact explains.refl t
  · cases isHeapPointer fuel v t.heap with
    | error fault => trivial
    | ok inHeap =>
        cases inHeap with
        | false => exact explains.refl t
        | true =>
            have visited := explains.visit (getMetaInf v) t
            suffices scanned : ∀ t₁ : Traversal, effect (o.visit (getMetaInf v) t) t t₁ →
                Yields (fun _ => True)
                  (effect (o.visit (getMetaInf v) t ++
                    if shellCount t₁.heap.mem (metaShell t₁.heap.mem (getMetaInf v)) = 0 then []
                    else goElementsRecord o (getMetaInf v)
                      (shellSize t₁.heap.mem (metaShell t₁.heap.mem (getMetaInf v)))
                      (shellCount t₁.heap.mem (metaShell t₁.heap.mem (getMetaInf v)))
                      fuel 0 v t₁) t)
                  (if shellCount t₁.heap.mem (metaShell t₁.heap.mem (getMetaInf v)) = 0 then .ok t₁
                    else goElements (getMetaInf v)
                      (shellSize t₁.heap.mem (metaShell t₁.heap.mem (getMetaInf v)))
                      (shellCount t₁.heap.mem (metaShell t₁.heap.mem (getMetaInf v)))
                      fuel 0 v t₁) from scanned _ visited
            intro t₁ visited
            split
            · rw [List.append_nil]
              exact visited
            · apply (explains.elements _ _ _ fuel 0 v t₁).mono
              intro t' later
              exact explains.trans _ _ _ _ _ visited later

theorem loop (fuel : Nat) (t : Traversal) :
    Yields (fun _ => True) (effect (goLoopRecord o fuel t) t) (goLoop fuel t) := by
  refine walk_within explains.refl explains.trans ?_
  intro _ t
  refine (explains.object fuel (t.stack.headD 0) { t with stack := t.stack.tail }).bind ?_
  exact fun t' within => explains.pop _ t t' within

end Observer.Explains

end PreciseGc

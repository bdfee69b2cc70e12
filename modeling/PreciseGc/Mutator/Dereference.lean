import PreciseGc.Mark.Marking
import PreciseGc.Roots.DerefRoots

/-!
# Dereferencing a `gc_ptr`

The operators that hand out a reference ask `get_ptr` for the address, and
register it as a dereferenced root with the size that the metadata in front of
it gives.  `get_ptr` receives the word of the `gc_ptr` before its safepoint,
where a collection may move the object.
-/

namespace PreciseGc.Mutator

open Foundation

/-- `cp->pointer` of a `Composite_pointer`. -/
def compositePointer (m : Memory) (cp : Nat) : Nat := m cp

/-- `get_ptr(pointer)`, where `safepoint` is what the other threads and their collections do to the
memory at its safepoint. -/
def getPtr (safepoint : Memory → Memory) (pointer : Nat) (m : Memory) : Nat × Memory :=
  let m := safepoint m
  if isCompositePointer pointer then (compositePointer m (clearBothFlags pointer), m)
  else (clearStackFlag pointer, m)

/-- A call `register_dereferenced_root(root, size)`, and the `base_meta` that the size was read
from. -/
structure Registration where
  root : Nat
  size : Nat
  bm : Nat
deriving DecidableEq, Repr

/-- What an operator does: the roots it registers, and the address of the reference it returns. -/
structure Dereference where
  registrations : List Registration
  reference : Nat
deriving DecidableEq, Repr

section Operators

variable (safepoint : Memory → Memory) (sizeofT this : Nat) (m : Memory)

/-- The registration of `operator->` and of both `operator[]`. -/
def registerPointer (p : Nat) (m : Memory) : List Registration :=
  if p ≠ 0 then
    let sz := sizeofT * metaCount m (getMetaInf p) % wordSpace
    [{ root := p, size := sz, bm := getMetaInf p }]
  else []

/-- `operator*()`. -/
def operatorStar : Dereference :=
  { registrations := [], reference := (getPtr safepoint (m this) m).1 }

/-- `operator->()`. -/
def operatorArrow : Dereference :=
  let (p, m) := getPtr safepoint (m this) m
  { registrations := registerPointer sizeofT p m, reference := p }

/-- `operator[](index) const`. -/
def operatorIndexConst (index : Nat) : Dereference :=
  let (p, m) := getPtr safepoint (m this) m
  { registrations := registerPointer sizeofT p m, reference := ptrAdd p (index * sizeofT) }

/-- `operator[](index)`. -/
def operatorIndex (index : Nat) : Dereference :=
  let (p, m) := getPtr safepoint (m this) m
  { registrations := registerPointer sizeofT p m, reference := ptrAdd p (index * sizeofT) }

end Operators

/-- The operators that hand out a reference. -/
inductive Operator where
  | star
  | arrow
  | indexConst (index : Nat)
  | index (index : Nat)
deriving DecidableEq, Repr

/-- The operator applied to the `gc_ptr` at `this`. -/
def Operator.apply (safepoint : Memory → Memory) (sizeofT this : Nat) (m : Memory) :
    Operator → Dereference
  | .star => operatorStar safepoint this m
  | .arrow => operatorArrow safepoint sizeofT this m
  | .indexConst i => operatorIndexConst safepoint sizeofT this m i
  | .index i => operatorIndex safepoint sizeofT this m i

variable {safepoint : Memory → Memory} {sizeofT this b : Nat} {m : Memory} {t : DerefRoots}

/-- The table has a record of the range from `start` to `stop`. -/
def HasRange (t : DerefRoots) (start stop : Nat) : Prop :=
  ∃ handler ∈ t.roots (hashOfRoot start), handler.plainPointer = start ∧ handler.stop = stop

/-- The registration reads the count from the header of the object in `b`, and its record is the
range of `count` elements from the start of the object. -/
def Registration.Covers (m : Memory) (sizeofT b : Nat) (r : Registration) : Prop :=
  r.bm = blockData b ∧ ∀ (t : DerefRoots) (space : Option Nat) (needGc : Bool) (t' : DerefRoots),
    t.register space r.root r.size = .ok (needGc, t') →
      HasRange t' (objectOf b) (objectOf b + countOf m b * sizeofT)

/-- A registration enters its range. -/
theorem register_hasRange {root size : Nat} (nonnull : root ≠ 0) (even : root % 2 = 0)
    (space : Option Nat) (t : DerefRoots) : Yields (fun _ => True)
      (fun r => HasRange r.2 root (ptrAdd root size)) (t.register space root size) := by
  have plain : clear root 1 = root := by
    rw [clear, Nat.and_one_is_mod, even, Nat.sub_zero]
  have entered : ∀ t : DerefRoots, HasRange (t.enter root size).2 root (ptrAdd root size) := by
    intro t
    refine ⟨⟨t.freeList.headD 0, root, ptrAdd root size⟩, ?_, plain, rfl⟩
    unfold DerefRoots.enter
    dsimp only
    split
    · simp
    · simp
  unfold DerefRoots.register
  rw [if_neg nonnull]
  cases t.refill space with
  | error fault => trivial
  | ok t => exact entered t

/-- The operators other than `operator*` register the address that they get. -/
theorem registrations_apply {op : Operator} (registers : op ≠ .star) :
    (op.apply safepoint sizeofT this m).registrations =
      registerPointer sizeofT (getPtr safepoint (m this) m).1 (safepoint m) := by
  have kept : (getPtr safepoint (m this) m).2 = safepoint m := by
    unfold getPtr
    dsimp only
    split
    · rfl
    · rfl
  rw [← kept]
  cases op with
  | star => exact absurd rfl registers
  | arrow => rfl
  | indexConst index => rfl
  | index index => rfl

/-- The word leads to the start of the object in `b`: it is a plain pointer to the object, or the
field `pointer` of its record is not an address in the interior. -/
def PointsAtStart (m : Memory) (w b : Nat) : Prop :=
  Designates w b ∨ isCompositePointer w = true ∧
    compositePointer m (clearBothFlags w) = objectOf b

theorem getPtr_eq_iff : (getPtr safepoint (m this) m).1 = objectOf b ↔
    PointsAtStart (safepoint m) (m this) b := by
  unfold getPtr PointsAtStart Designates
  cases composite : isCompositePointer (m this) with
  | true => simp
  | false => simp [clearStackFlag_of_plain composite]

theorem getMetaInf_eq_blockData_iff {p : Nat} : getMetaInf p = blockData b ↔ p = objectOf b := by
  simp only [getMetaInf, sizeofBaseMeta, blockData, sizeofBlock, objectOf_eq]
  omega

/-- For a `gc_ptr` to the object in `b`, an operator registers the whole object, by its own header,
exactly if it is not `operator*` and the word of the `gc_ptr`, as it was before the safepoint, leads
to the start of the object. -/
theorem dereference_covers_iff (aligned : b % 8 = 0)
    (_refers : Leads (safepoint m) (safepoint m this) b)
    (fits : objectOf b + countOf (safepoint m) b * sizeofT < wordSpace) (op : Operator) :
    (∃ r ∈ (op.apply safepoint sizeofT this m).registrations, r.Covers (safepoint m) sizeofT b) ↔
      op ≠ .star ∧ PointsAtStart (safepoint m) (m this) b := by
  rw [← getPtr_eq_iff]
  constructor
  · rintro ⟨r, mem, own, _⟩
    by_cases registers : op = .star
    · subst registers
      cases mem
    · refine ⟨registers, ?_⟩
      rw [registrations_apply registers] at mem
      unfold registerPointer at mem
      split at mem
      · rw [List.mem_singleton.mp mem] at own
        exact getMetaInf_eq_blockData_iff.mp own
      · cases mem
  · rintro ⟨registers, start⟩
    have nonnull : objectOf b ≠ 0 := by simp [objectOf_eq]
    have even : objectOf b % 2 = 0 := by
      rw [objectOf_eq]
      omega
    rw [registrations_apply registers, start]
    unfold registerPointer
    rw [if_pos nonnull]
    refine ⟨_, List.mem_singleton.mpr rfl, getMetaInf_objectOf b,
      fun t space needGc t' returned => ?_⟩
    have entered := (register_hasRange nonnull even space t).of_ok returned
    have size : sizeofT * metaCount (safepoint m) (getMetaInf (objectOf b)) % wordSpace =
        countOf (safepoint m) b * sizeofT := by
      rw [getMetaInf_objectOf, Nat.mul_comm]
      apply Nat.mod_eq_of_lt
      exact Nat.lt_of_le_of_lt (Nat.le_add_left _ _) fits
    rw [size, ptrAdd_of_lt fits] at entered
    exact entered

/-- An array of three words in the block `65552`, a plain `gc_ptr` to it at the address `8`, and at
the address `16` a composite one, with its record at `65616`, to its second element. -/
def arrayWithInterior : Memory := fun x =>
  if x = 65552 then 48
  else if x = 65576 then 3
  else if x = 65608 then 24
  else if x = 65616 then 65592
  else if x = 65624 then 65584
  else if x = 65632 then 1
  else if x = 8 then 65584 + 1
  else if x = 16 then 65616 + 3
  else 0

theorem dereference_covers_iff_array :
    (∃ r ∈ (Operator.arrow.apply id 8 8 arrayWithInterior).registrations,
      r.Covers arrayWithInterior 8 65552) ↔
        Operator.arrow ≠ .star ∧ PointsAtStart arrayWithInterior (arrayWithInterior 8) 65552 :=
  dereference_covers_iff (by decide) (Or.inl (by decide)) (by decide) .arrow

/-- `operator*` registers nothing, and `operator->` of the interior pointer registers the second
element, with the count that the words before it give. -/
theorem dereference_uncovered :
    Leads arrayWithInterior (arrayWithInterior 8) 65552 ∧
      (operatorStar id 8 arrayWithInterior).registrations = [] ∧
      Leads arrayWithInterior (arrayWithInterior 16) 65552 ∧
        (operatorArrow id 8 16 arrayWithInterior).registrations =
          [{ root := 65592, size := 0, bm := 65568 }] :=
  ⟨Or.inl (by decide), rfl, Or.inr (by decide), by decide⟩

end PreciseGc.Mutator

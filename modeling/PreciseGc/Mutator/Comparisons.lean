import PreciseGc.Mutator.Dereference

/-!
# Comparing `gc_ptr`s

The comparison operators compare what `get_ptr` returns.  A comparison of two
`gc_ptr`s calls it twice, and the language leaves open whether the word of the
second operand is read before the first call, with its safepoint, or after it.
-/

namespace PreciseGc.Mutator

open Foundation

/-- When a comparison of the `gc_ptr` `this` with the argument `a` reads their words. -/
inductive EvaluationOrder where
  /-- `get_ptr(a.ptr)` has returned when `ptr` is read. -/
  | argumentFirst
  /-- `get_ptr(ptr)` has returned when `a.ptr` is read. -/
  | thisFirst
  /-- Both words are read before both calls. -/
  | wordsFirst
deriving DecidableEq, Repr

section Operators

variable (order : EvaluationOrder) (first second safepoint : Memory → Memory) (this a : Nat)
  (m : Memory)

/-- `get_ptr(a.ptr)` and `get_ptr(ptr)`; `first` and `second` happen at the safepoints of the call
that is made first and of the other one. -/
def operands : Nat × Nat :=
  match order with
  | .argumentFirst =>
      let (p, m) := getPtr first (m a) m
      (p, (getPtr second (m this) m).1)
  | .thisFirst =>
      let (q, m) := getPtr first (m this) m
      ((getPtr second (m a) m).1, q)
  | .wordsFirst =>
      let pointer := m this
      let (p, m) := getPtr first (m a) m
      (p, (getPtr second pointer m).1)

/-- `operator==(const gc_ptr & a)`. -/
def operatorEq : Bool :=
  let (p, q) := operands order first second this a m
  p == q

/-- `operator!=(const gc_ptr & a)`. -/
def operatorNe : Bool :=
  let (p, q) := operands order first second this a m
  p != q

/-- `operator==(const T * a)`. -/
def operatorEqPointer (p : Nat) : Bool := p == (getPtr safepoint (m this) m).1

/-- `operator!=(const T * a)`. -/
def operatorNePointer (p : Nat) : Bool := p != (getPtr safepoint (m this) m).1

/-- An `int` or a `long int` where it is compared with a `size_t`. -/
def sizeOfInt (n : Int) : Nat := (n % wordSpace).toNat

/-- `operator==(const int a)` and `operator==(const long int a)`. -/
def operatorEqInt (n : Int) : Bool := sizeOfInt n == (getPtr safepoint (m this) m).1

/-- `operator!=(const int a)` and `operator!=(const long int a)`. -/
def operatorNeInt (n : Int) : Bool := sizeOfInt n != (getPtr safepoint (m this) m).1

/-- `operator bool()`. -/
def operatorBool : Bool := (getPtr safepoint (m this) m).1 != 0

end Operators

variable {order : EvaluationOrder} {first second safepoint : Memory → Memory} {this a : Nat}
  {m : Memory}

/-- The words that a comparison reads, of the argument and of `this`. -/
def wordsRead (order : EvaluationOrder) (first : Memory → Memory) (this a : Nat) (m : Memory) :
    Nat × Nat :=
  match order with
  | .argumentFirst => (m a, first m this)
  | .thisFirst => (first m a, m this)
  | .wordsFirst => (m a, m this)

/-- Plain pointers are compared as they were when their words were read. -/
theorem operands_of_plain
    (plain : isCompositePointer (wordsRead order first this a m).1 = false)
    (plain' : isCompositePointer (wordsRead order first this a m).2 = false) :
    operands order first second this a m =
      (clearStackFlag (wordsRead order first this a m).1,
        clearStackFlag (wordsRead order first this a m).2) := by
  cases order with
  | argumentFirst =>
      simp only [wordsRead] at plain plain'
      simp [operands, getPtr, wordsRead, plain, plain']
  | thisFirst =>
      simp only [wordsRead] at plain plain'
      simp [operands, getPtr, wordsRead, plain, plain']
  | wordsFirst =>
      simp only [wordsRead] at plain plain'
      simp [operands, getPtr, wordsRead, plain, plain']

/-- What `==` and `!=` answer: `==` whether `same` holds, and `!=` the opposite. -/
structure Answers (equal unequal : Bool) (same : Prop) : Prop where
  equal_iff : equal = true ↔ same
  unequal_iff : unequal = true ↔ ¬same

theorem Answers.of_iff {equal : Bool} {same : Prop} (iff : equal = true ↔ same) :
    Answers equal (!equal) same :=
  ⟨iff, by simp [← iff]⟩

theorem operatorBool_eq_ne_zero :
    operatorBool safepoint this m = operatorNeInt safepoint this m 0 := by
  simp [operatorBool, operatorNeInt, sizeOfInt, bne_comm]

end PreciseGc.Mutator

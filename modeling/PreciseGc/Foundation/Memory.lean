import Mathlib.Data.Nat.Basic
import Mathlib.Tactic.Common

/-!
# Word memory

A memory assigns a word to every byte address that is the start of an aligned
word.  Filling and copying act on half-open byte ranges, as `memset` and
`memcpy` do on ranges of whole words.

`AgreeOn` states that two memories coincide on a range.  It is the form in
which every frame property below is given: an operation is described by the
few words it changes and by the ranges on which it agrees with its input.
-/

namespace Foundation

/-- Memory by aligned byte address. -/
abbrev Memory := Nat → Nat

namespace Memory

/-- Store one word. -/
def write (m : Memory) (address value : Nat) : Memory :=
  fun x => if x = address then value else m x

/-- Store `value` in every word of `[start, start + length)`. -/
def fill (m : Memory) (start length value : Nat) : Memory :=
  fun x => if start ≤ x ∧ x < start + length then value else m x

/-- Copy `length` bytes from `source` to `target`, reading before writing. -/
def copy (m : Memory) (target source length : Nat) : Memory :=
  fun x => if target ≤ x ∧ x < target + length then m (source + (x - target)) else m x

variable {m : Memory}

@[simp]
theorem write_same (m : Memory) (address value : Nat) : m.write address value address = value := by
  simp [write]

theorem write_of_ne {address value x : Nat} (other : x ≠ address) :
    m.write address value x = m x := by
  simp [write, other]

@[simp]
theorem write_eq_self (m : Memory) (address : Nat) : m.write address (m address) = m := by
  funext x
  by_cases same : x = address
  · rw [same, write_same]
  · exact write_of_ne same

@[simp]
theorem write_write (m : Memory) (address first second : Nat) :
    (m.write address first).write address second = m.write address second := by
  funext x
  by_cases same : x = address
  · subst same
    rw [write_same, write_same]
  · rw [write_of_ne same, write_of_ne same, write_of_ne same]

theorem fill_of_mem {start length value x : Nat} (lower : start ≤ x) (upper : x < start + length) :
    m.fill start length value x = value := by
  simp [fill, lower, upper]

theorem fill_of_not_mem {start length value x : Nat} (outside : x < start ∨ start + length ≤ x) :
    m.fill start length value x = m x := by
  have : ¬(start ≤ x ∧ x < start + length) := by omega
  simp [fill, this]

theorem copy_of_mem {target source length offset : Nat} (inside : offset < length) :
    m.copy target source length (target + offset) = m (source + offset) := by
  simp [copy, inside]

theorem copy_of_not_mem {target source length x : Nat}
    (outside : x < target ∨ target + length ≤ x) :
    m.copy target source length x = m x := by
  have : ¬(target ≤ x ∧ x < target + length) := by omega
  simp [copy, this]

/-- Two memories coincide on `[lower, upper)`. -/
def AgreeOn (m m' : Memory) (lower upper : Nat) : Prop :=
  ∀ x, lower ≤ x → x < upper → m' x = m x

namespace AgreeOn

variable {m m' m'' : Memory} {lower upper : Nat}

theorem refl (m : Memory) (lower upper : Nat) : AgreeOn m m lower upper := fun _ _ _ => rfl

theorem trans (first : AgreeOn m m' lower upper) (second : AgreeOn m' m'' lower upper) :
    AgreeOn m m'' lower upper :=
  fun x above below => (second x above below).trans (first x above below)

theorem symm (agree : AgreeOn m m' lower upper) : AgreeOn m' m lower upper :=
  fun x above below => (agree x above below).symm

theorem mono {lower' upper' : Nat} (agree : AgreeOn m m' lower upper)
    (above : lower ≤ lower') (below : upper' ≤ upper) : AgreeOn m m' lower' upper' :=
  fun x lowerBound upperBound =>
    agree x (le_trans above lowerBound) (lt_of_lt_of_le upperBound below)

theorem write (m : Memory) {address value : Nat} (outside : address < lower ∨ upper ≤ address) :
    AgreeOn m (m.write address value) lower upper := by
  intro x above below
  exact write_of_ne (by omega)

theorem fill (m : Memory) {start length value : Nat}
    (outside : start + length ≤ lower ∨ upper ≤ start) :
    AgreeOn m (m.fill start length value) lower upper := by
  intro x above below
  exact fill_of_not_mem (by omega)

theorem copy (m : Memory) {target source length : Nat}
    (outside : target + length ≤ lower ∨ upper ≤ target) :
    AgreeOn m (m.copy target source length) lower upper := by
  intro x above below
  exact copy_of_not_mem (by omega)

end AgreeOn

end Memory

end Foundation

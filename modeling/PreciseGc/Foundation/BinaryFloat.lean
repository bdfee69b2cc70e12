import Mathlib.Algebra.Divisibility.Basic
import Mathlib.Algebra.Ring.Nat
import Mathlib.Data.Nat.Size

/-!
# Natural numbers in binary floating point

A conversion to a binary floating-point format keeps a fixed number of
significant digits and rounds to the nearest number that has so few, ties to
the one with an even last digit.  For natural numbers within the range of the
format this is rounding to a multiple of a power of two.
-/

namespace Foundation

variable {n m unit precision : Nat}

/-- The quotient rounded to the nearest natural number, ties to even. -/
def roundedQuotient (n unit : Nat) : Nat :=
  if 2 * (n % unit) < unit ∨ 2 * (n % unit) = unit ∧ n / unit % 2 = 0 then n / unit
  else n / unit + 1

/-- The number with `precision` significant binary digits that is nearest to `n`. -/
def roundToFloat (precision n : Nat) : Nat :=
  roundedQuotient n (2 ^ (n.size - precision)) * 2 ^ (n.size - precision)

/-- The product of a natural number and a floating-point number, rounded like each operand. -/
def floatProduct (precision n factor : Nat) : Nat :=
  roundToFloat precision (roundToFloat precision n * roundToFloat precision factor)

theorem roundedQuotient_mul_of_dvd (divides : unit ∣ n) (positive : 0 < unit) :
    roundedQuotient n unit * unit = n := by
  have exact : n % unit = 0 := Nat.mod_eq_zero_of_dvd divides
  rw [roundedQuotient, exact, if_pos (Or.inl (by omega))]
  exact Nat.div_mul_cancel divides

/-- A number with few significant digits is not rounded. -/
theorem roundToFloat_of_digits (few : m < 2 ^ precision) (k : Nat) :
    roundToFloat precision (m * 2 ^ k) = m * 2 ^ k := by
  have size : (m * 2 ^ k).size ≤ precision + k := by
    rw [Nat.size_le, pow_add]
    exact Nat.mul_lt_mul_of_pos_right few (Nat.two_pow_pos k)
  have divides : 2 ^ ((m * 2 ^ k).size - precision) ∣ m * 2 ^ k :=
    (pow_dvd_pow 2 (by omega)).mul_left m
  exact roundedQuotient_mul_of_dvd divides (Nat.two_pow_pos _)

/-- The product of powers of two is exact. -/
theorem floatProduct_two_pow (positive : 0 < precision) (k j : Nat) :
    floatProduct precision (2 ^ k) (2 ^ j) = 2 ^ k * 2 ^ j := by
  have power : ∀ i, roundToFloat precision (2 ^ i) = 2 ^ i := by
    intro i
    have few : 1 < 2 ^ precision := Nat.one_lt_two_pow (by omega)
    simpa using roundToFloat_of_digits few i
  rw [floatProduct, power k, power j, ← pow_add, power]

example : roundToFloat 24 (2 ^ 24 + 1) = 2 ^ 24 ∧ roundToFloat 24 (2 ^ 24 + 3) = 2 ^ 24 + 4 := by
  decide

end Foundation

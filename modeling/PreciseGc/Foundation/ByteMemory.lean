import Mathlib.Algebra.Group.Nat.Defs
import Mathlib.Tactic.Common

/-!
# Byte memory

Numbers in a memory of bytes, little-endian and at any address.  A number is
read back where it was written, and a write elsewhere leaves it alone.
-/

namespace Foundation

/-- Memory by byte address. -/
abbrev ByteMemory := Nat → UInt8

namespace ByteMemory

/-- The number in the `count` bytes from `address` on. -/
def read (m : ByteMemory) : (address count : Nat) → Nat
  | _, 0 => 0
  | address, count + 1 => (m address).toNat + 256 * read m (address + 1) count

/-- Store the low `count` bytes of a number from `address` on. -/
def store (m : ByteMemory) (address count value : Nat) : ByteMemory :=
  fun x =>
    if address ≤ x ∧ x < address + count then UInt8.ofNat (value / 256 ^ (x - address)) else m x

variable {m m' : ByteMemory} {address count value : Nat}

theorem read_congr (same : ∀ x, address ≤ x → x < address + count → m' x = m x) :
    m'.read address count = m.read address count := by
  induction count generalizing address with
  | zero => rfl
  | succ count ih =>
      rw [read, read, same address (by omega) (by omega), ih]
      intro x lower upper
      exact same x (by omega) (by omega)

theorem read_lt (m : ByteMemory) (address count : Nat) : m.read address count < 256 ^ count := by
  induction count generalizing address with
  | zero => simp [read]
  | succ count ih =>
      have first := (m address).toNat_lt
      have rest := ih (address + 1)
      rw [read, pow_succ]
      omega

/-- Two numbers side by side are one. -/
theorem read_add (m : ByteMemory) (address low high : Nat) :
    m.read address (low + high) =
      m.read address low + 256 ^ low * m.read (address + low) high := by
  induction low generalizing address with
  | zero => simp [read]
  | succ low ih =>
      have shifted : address + 1 + low = address + (low + 1) := by omega
      rw [Nat.succ_add, read, read, ih, shifted, pow_succ', Nat.mul_add, Nat.mul_assoc,
        Nat.add_assoc]

theorem store_of_outside {x : Nat} (outside : x < address ∨ address + count ≤ x) :
    m.store address count value x = m x :=
  if_neg (by omega)

theorem store_of_inside {i : Nat} (inside : i < count) :
    m.store address count value (address + i) = UInt8.ofNat (value / 256 ^ i) := by
  rw [store, if_pos (by omega), Nat.add_sub_cancel_left]

/-- Reading bytes that are known. -/
theorem read_of_bytes (bytes : ∀ i < count, m (address + i) = UInt8.ofNat (value / 256 ^ i)) :
    m.read address count = value % 256 ^ count := by
  induction count generalizing address value with
  | zero => simp [read, Nat.mod_one]
  | succ count ih =>
      have first : (m address).toNat = value % 256 := by
        have here := bytes 0 (by omega)
        simpa using congrArg UInt8.toNat here
      have rest : m.read (address + 1) count = value / 256 % 256 ^ count := by
        apply ih
        intro i inside
        have here := bytes (i + 1) (by omega)
        rw [Nat.div_div_eq_div_mul, ← pow_succ', ← here]
        congr 1
        omega
      rw [read, first, rest, pow_succ', Nat.mod_mul]

@[simp]
theorem read_store : (m.store address count value).read address count = value % 256 ^ count :=
  read_of_bytes fun _ inside => store_of_inside inside

theorem read_store_of_apart {start length : Nat}
    (apart : start + length ≤ address ∨ address + count ≤ start) :
    (m.store address count value).read start length = m.read start length :=
  read_congr fun _ lower upper => store_of_outside (by omega)

end ByteMemory

end Foundation

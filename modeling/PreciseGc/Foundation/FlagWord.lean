import Mathlib.Data.Nat.Bitwise

/-!
# Words that carry flags in their low bits

A word whose value is a multiple of eight leaves its three low bits free for
flags.  Flags are set with `|||`; `clear` is the machine operation `w & ~f`,
written without a word width because `w &&& f` is exactly the part removed.

Every fact about a flag is a fact about the residue of the word modulo eight,
so the lemmas below first split a word into its octet part and its residue and
then compare the eight possible residues.
-/

namespace Foundation

/-- The machine operation `w & ~f`. -/
def clear (w f : Nat) : Nat := w - (w &&& f)

/-- Whether some bit of `f` is set in `w`, the C condition `w & f`. -/
def hasFlag (w f : Nat) : Bool := (w &&& f) != 0

/-- The part of a word above its three flag bits, `w & ~7`. -/
def octets (w : Nat) : Nat := w - w % 8

@[simp]
theorem octets_mod (w : Nat) : octets w % 8 = 0 := by
  unfold octets
  omega

theorem octets_of_mod_eq_zero {w : Nat} (aligned : w % 8 = 0) : octets w = w := by
  unfold octets
  omega

theorem octets_congr {v w : Nat} (same : v / 8 = w / 8) : octets v = octets w := by
  unfold octets
  omega

theorem and_eq_residue {f : Nat} (small : f < 8) (w : Nat) : w &&& f = w % 8 &&& f := by
  have split := @Nat.and_mod_two_pow w f 3
  simp only [Nat.reducePow, Nat.mod_eq_of_lt small] at split
  rw [← split, Nat.mod_eq_of_lt (lt_of_le_of_lt Nat.and_le_right small)]

theorem or_div_eight {f : Nat} (small : f < 8) (w : Nat) : (w ||| f) / 8 = w / 8 := by
  have split := @Nat.or_div_two_pow w f 3
  simpa [Nat.div_eq_of_lt small] using split

theorem or_mod_eight {f : Nat} (small : f < 8) (w : Nat) : (w ||| f) % 8 = w % 8 ||| f := by
  have split := @Nat.or_mod_two_pow w f 3
  simpa [Nat.mod_eq_of_lt small] using split

theorem clear_div_eight {f : Nat} (small : f < 8) (w : Nat) : clear w f / 8 = w / 8 := by
  have removed : w &&& f ≤ w % 8 := by
    rw [and_eq_residue small]
    exact Nat.and_le_left
  unfold clear
  omega

theorem clear_mod_eight {f : Nat} (small : f < 8) (w : Nat) :
    clear w f % 8 = clear (w % 8) f := by
  have removed : w &&& f ≤ w % 8 := by
    rw [and_eq_residue small]
    exact Nat.and_le_left
  unfold clear
  rw [and_eq_residue small] at removed ⊢
  omega

theorem hasFlag_residue {f : Nat} (small : f < 8) (w : Nat) :
    hasFlag w f = hasFlag (w % 8) f := by
  simp only [hasFlag, and_eq_residue small w]

@[simp]
theorem octets_or {f : Nat} (small : f < 8) (w : Nat) : octets (w ||| f) = octets w :=
  octets_congr (or_div_eight small w)

@[simp]
theorem octets_clear {f : Nat} (small : f < 8) (w : Nat) : octets (clear w f) = octets w :=
  octets_congr (clear_div_eight small w)

theorem hasFlag_or {f g : Nat} (smallF : f < 8) (smallG : g < 8) (w : Nat) :
    hasFlag (w ||| g) f = hasFlag (w % 8 ||| g) f := by
  rw [hasFlag_residue smallF, or_mod_eight smallG]

theorem hasFlag_clear {f g : Nat} (smallF : f < 8) (smallG : g < 8) (w : Nat) :
    hasFlag (clear w g) f = hasFlag (clear (w % 8) g) f := by
  rw [hasFlag_residue smallF, clear_mod_eight smallG]

/-- An aligned word carries no flag. -/
theorem hasFlag_of_mod_eq_zero {f w : Nat} (small : f < 8) (aligned : w % 8 = 0) :
    hasFlag w f = false := by
  rw [hasFlag_residue small, aligned]
  simp [hasFlag]

/-- A property of the residue of a word, checked on the eight residues. -/
theorem of_residues {motive : Nat → Prop} (w : Nat)
    (holds : ∀ residue < 8, motive residue) : motive (w % 8) :=
  holds (w % 8) (Nat.mod_lt _ (by decide))

end Foundation

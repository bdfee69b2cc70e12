import Mathlib.Algebra.Group.Nat.Defs
import PreciseGc.Foundation.Outcome

/-!
# Loops with a narrow index

`for (int i = 0; i < bound; ++i) body;` compares a signed index of 32 bits with
an unsigned bound of 64 bits.  The comparison extends the sign of the index, so
an index that has wrapped around is larger than most bounds, and the loop ends
before it has counted up to them.  `passes` is the number of its iterations.
-/

namespace Foundation

universe u v

/-- The value of an `int` that is converted to an unsigned type of 64 bits. -/
def sizeOfInt (i : BitVec 32) : Nat := (i.signExtend 64).toNat

/-- The number of iterations of a loop over an `int` with this bound. -/
def passes (bound : Nat) : Nat :=
  if bound ≤ 2 ^ 31 then bound
  else if bound ≤ 2 ^ 64 - 2 ^ 31 then 2 ^ 31
  else bound - (2 ^ 64 - 2 ^ 32)

section Indices

variable {n bound : Nat}

theorem sizeOfInt_ofNat (small : n < 2 ^ 32) :
    sizeOfInt (BitVec.ofNat 32 n) = if n < 2 ^ 31 then n else n + (2 ^ 64 - 2 ^ 32) := by
  have value : (BitVec.ofNat 32 n).toNat = n := by
    rw [BitVec.toNat_ofNat]
    exact Nat.mod_eq_of_lt small
  have sign : (BitVec.ofNat 32 n).msb = decide (2 ^ 31 ≤ n) := by
    rw [BitVec.msb_eq_decide, value]
  simp only [sizeOfInt, BitVec.toNat_signExtend, BitVec.toNat_setWidth, value, sign]
  split
  · rename_i negative
    simp only [decide_eq_true_eq] at negative
    rw [if_neg (by omega)]
    omega
  · rename_i positive
    simp only [decide_eq_true_eq] at positive
    rw [if_pos (by omega)]
    omega

theorem passes_le (bound : Nat) : passes bound ≤ bound := by
  unfold passes
  split
  · omega
  · split <;> omega

theorem passes_lt (inRange : bound < 2 ^ 64) : passes bound < 2 ^ 32 := by
  unfold passes
  split
  · omega
  · split <;> omega

theorem passes_eq_iff : passes bound = bound ↔ bound ≤ 2 ^ 31 := by
  unfold passes
  split
  · omega
  · split <;> omega

/-- The loop goes on until its last pass. -/
theorem sizeOfInt_lt_iff (inRange : bound < 2 ^ 64) (reached : n ≤ passes bound) :
    sizeOfInt (BitVec.ofNat 32 n) < bound ↔ n < passes bound := by
  have small := passes_lt inRange
  rw [sizeOfInt_ofNat (by omega)]
  unfold passes at *
  split at reached
  · split <;> omega
  · split at reached
    · split <;> omega
    · split <;> omega

end Indices

section CountedLoop

variable {ε : Type u} {σ : Type v}

/-- The loop `for (int i = 0; i < bound; ++i) body;`, from the index `i` on. -/
def countedLoop (bound : σ → Nat) (body : BitVec 32 → σ → Except ε σ) (exhausted : ε) :
    (fuel : Nat) → (i : BitVec 32) → σ → Except ε σ
  | 0, _, _ => .error exhausted
  | fuel + 1, i, s =>
      if sizeOfInt i < bound s then
        body i s >>= countedLoop bound body exhausted fuel (i + 1)
      else .ok s

variable {bound : σ → Nat} {body : BitVec 32 → σ → Except ε σ} {exhausted : ε}
  {allowed : ε → Prop} {s : σ}

/-- A property of the state that every iteration keeps. -/
theorem countedLoop_keeps {escaped : σ → Prop}
    (stays : ∀ i s, escaped s → allowed exhausted ∧ Yields allowed escaped (body i s))
    (fuel : Nat) {i : BitVec 32} (start : escaped s) :
    Yields allowed escaped (countedLoop bound body exhausted fuel i s) := by
  induction fuel generalizing i s with
  | zero => exact (stays i s start).1
  | succ fuel ih =>
      rw [countedLoop]
      split
      · apply (stays i s start).2.bind
        intro s' kept
        exact ih kept
      · exact start

/-- The rule for a loop whose bound does not change, up to a state that satisfies `escaped`. -/
theorem countedLoop_yields_or (escaped : σ → Prop) (holds : Nat → σ → Prop) {count : Nat}
    (inRange : count < 2 ^ 64) (constant : ∀ n s, holds n s → bound s = count)
    (step : ∀ n s, n < passes count → holds n s →
      Yields allowed (fun s' => holds (n + 1) s' ∨ escaped s') (body (BitVec.ofNat 32 n) s))
    (stays : ∀ i s, escaped s → allowed exhausted ∧ Yields allowed escaped (body i s))
    {fuel : Nat} (enough : passes count < fuel) (start : holds 0 s) :
    Yields allowed (fun s' => holds (passes count) s' ∨ escaped s')
      (countedLoop bound body exhausted fuel 0#32 s) := by
  suffices ∀ left n s, n + left = passes count → left < fuel → holds n s →
      Yields allowed (fun s' => holds (passes count) s' ∨ escaped s')
        (countedLoop bound body exhausted fuel (BitVec.ofNat 32 n) s) from
    this (passes count) 0 s (Nat.zero_add _) enough start
  clear enough start
  intro left
  induction left generalizing fuel with
  | zero =>
      intro n s atEnd enough here
      cases fuel with
      | zero => omega
      | succ fuel =>
          have stop : ¬sizeOfInt (BitVec.ofNat 32 n) < bound s := by
            rw [constant n s here, sizeOfInt_lt_iff inRange (by omega)]
            omega
          rw [countedLoop, if_neg stop]
          exact Or.inl (atEnd ▸ here)
  | succ left ih =>
      intro n s range enough here
      cases fuel with
      | zero => omega
      | succ fuel =>
          have runs : sizeOfInt (BitVec.ofNat 32 n) < bound s := by
            rw [constant n s here, sizeOfInt_lt_iff inRange (by omega)]
            omega
          have next : BitVec.ofNat 32 n + 1 = BitVec.ofNat 32 (n + 1) :=
            (BitVec.ofNat_add n 1).symm
          rw [countedLoop, if_pos runs, next]
          apply (step n s (by omega) here).bind
          rintro s' (there | escape)
          · exact ih (n + 1) s' (by omega) (by omega) there
          · exact (countedLoop_keeps stays fuel escape).mono fun _ => Or.inr

/-- The rule for a loop whose bound does not change. -/
theorem countedLoop_yields (holds : Nat → σ → Prop) {count : Nat}
    (inRange : count < 2 ^ 64) (constant : ∀ n s, holds n s → bound s = count)
    (step : ∀ n s, n < passes count → holds n s →
      Yields allowed (holds (n + 1)) (body (BitVec.ofNat 32 n) s))
    {fuel : Nat} (enough : passes count < fuel) (start : holds 0 s) :
    Yields allowed (holds (passes count)) (countedLoop bound body exhausted fuel 0#32 s) :=
  (countedLoop_yields_or (fun _ => False) holds inRange constant
    (fun n s below here => (step n s below here).mono fun _ => Or.inl)
    (fun _ _ never => never.elim) enough start).mono fun _ reached => reached.resolve_right id

/-- A loop on states that another loop's states are mapped to. -/
theorem countedLoop_map {τ : Type v} (f : σ → τ) {bound' : τ → Nat}
    {body' : BitVec 32 → τ → Except ε τ} (bounds : ∀ s, bound' (f s) = bound s)
    (bodies : ∀ i s, body' i (f s) = (body i s).map f) (fuel : Nat) (i : BitVec 32) (s : σ) :
    countedLoop bound' body' exhausted fuel i (f s) =
      (countedLoop bound body exhausted fuel i s).map f := by
  induction fuel generalizing i s with
  | zero => rfl
  | succ fuel ih =>
      simp only [countedLoop, bounds, bodies]
      split
      · cases body i s with
        | error fault => rfl
        | ok s' => exact ih (i + 1) s'
      · rfl

end CountedLoop

end Foundation

import Mathlib.Data.List.Nodup
import Mathlib.Data.List.Pairwise
import Mathlib.Tactic.Common

/-!
# Tilings of an address range by cells of their own extent

`Tiles extent start stop cells` says that the cells, each `extent` long and
each starting where its predecessor ends, cover `[start, stop)` exactly.  The
extent of a cell is read from the cell, as when every block of a page begins
with its own size; a tiling then survives any change that leaves the extents of
its cells alone.
-/

namespace Foundation

/-- The cells cover `[start, stop)` in order, without gap or overlap. -/
def Tiles (extent : Nat → Nat) : Nat → Nat → List Nat → Prop
  | start, stop, [] => start = stop
  | start, stop, cell :: cells =>
      start = cell ∧ 0 < extent cell ∧ Tiles extent (cell + extent cell) stop cells

namespace Tiles

variable {extent extent' : Nat → Nat} {start stop cell : Nat} {cells cells' : List Nat}

@[simp]
theorem nil_iff : Tiles extent start stop [] ↔ start = stop := Iff.rfl

@[simp]
theorem cons_iff : Tiles extent start stop (cell :: cells) ↔
    start = cell ∧ 0 < extent cell ∧ Tiles extent (cell + extent cell) stop cells := Iff.rfl

instance decidable (extent : Nat → Nat) (start stop : Nat) :
    (cells : List Nat) → Decidable (Tiles extent start stop cells)
  | [] => inferInstanceAs (Decidable (start = stop))
  | cell :: cells =>
      have := decidable extent (cell + extent cell) stop cells
      inferInstanceAs (Decidable
        (start = cell ∧ 0 < extent cell ∧ Tiles extent (cell + extent cell) stop cells))

theorem congr (tiles : Tiles extent start stop cells)
    (agree : ∀ c ∈ cells, extent' c = extent c) : Tiles extent' start stop cells := by
  induction cells generalizing start with
  | nil => exact tiles
  | cons cell cells ih =>
      rcases tiles with ⟨rfl, positive, rest⟩
      have same := agree start (by simp)
      refine ⟨rfl, by omega, ?_⟩
      rw [same]
      exact ih rest fun c mem => agree c (by simp [mem])

theorem le (tiles : Tiles extent start stop cells) : start ≤ stop := by
  induction cells generalizing start with
  | nil => exact Nat.le_of_eq tiles
  | cons cell cells ih =>
      rcases tiles with ⟨rfl, _, rest⟩
      have := ih rest
      omega

/-- A range has at least as many addresses as cells. -/
theorem length_le (tiles : Tiles extent start stop cells) : start + cells.length ≤ stop := by
  induction cells generalizing start with
  | nil => exact Nat.le_of_eq tiles
  | cons cell cells ih =>
      rcases tiles with ⟨rfl, positive, rest⟩
      have := ih rest
      simp only [List.length_cons]
      omega

/-- Every cell lies inside the tiled range. -/
theorem bounds (tiles : Tiles extent start stop cells) (mem : cell ∈ cells) :
    start ≤ cell ∧ 0 < extent cell ∧ cell + extent cell ≤ stop := by
  induction cells generalizing start with
  | nil => simp at mem
  | cons first cells ih =>
      rcases tiles with ⟨rfl, positive, rest⟩
      rcases List.mem_cons.mp mem with rfl | later
      · exact ⟨Nat.le_refl _, positive, rest.le⟩
      · have := ih rest later
        omega

/-- Distinct cells do not overlap: the earlier one ends before the later one starts. -/
theorem pairwise (tiles : Tiles extent start stop cells) :
    cells.Pairwise fun c d => c + extent c ≤ d := by
  induction cells generalizing start with
  | nil => exact List.Pairwise.nil
  | cons cell cells ih =>
      rcases tiles with ⟨rfl, _, rest⟩
      exact List.Pairwise.cons (fun d mem => (rest.bounds mem).1) (ih rest)

theorem disjoint (tiles : Tiles extent start stop cells) {c d : Nat} (memC : c ∈ cells)
    (memD : d ∈ cells) (different : c ≠ d) : c + extent c ≤ d ∨ d + extent d ≤ c := by
  induction cells generalizing start with
  | nil => simp at memC
  | cons first cells ih =>
      rcases tiles with ⟨rfl, _, rest⟩
      rcases List.mem_cons.mp memC with rfl | laterC
      · rcases List.mem_cons.mp memD with rfl | laterD
        · exact absurd rfl different
        · exact Or.inl (rest.bounds laterD).1
      · rcases List.mem_cons.mp memD with rfl | laterD
        · exact Or.inr (rest.bounds laterC).1
        · exact ih rest laterC laterD

theorem nodup (tiles : Tiles extent start stop cells) : cells.Nodup := by
  induction cells generalizing start with
  | nil => exact List.nodup_nil
  | cons cell cells ih =>
      rcases tiles with ⟨rfl, positive, rest⟩
      refine List.nodup_cons.mpr ⟨fun mem => ?_, ih rest⟩
      have := (rest.bounds mem).1
      omega

/-- A new cell at the end of the range. -/
theorem append (tiles : Tiles extent start stop cells) (positive : 0 < extent stop) :
    Tiles extent start (stop + extent stop) (cells ++ [stop]) := by
  induction cells generalizing start with
  | nil =>
      rw [nil_iff] at tiles
      subst tiles
      exact ⟨rfl, positive, rfl⟩
  | cons cell cells ih =>
      rcases tiles with ⟨rfl, first, rest⟩
      exact ⟨rfl, first, ih rest⟩

/-- A range and the extents determine the tiling. -/
theorem unique (left : Tiles extent start stop cells) (right : Tiles extent start stop cells') :
    cells = cells' := by
  induction cells generalizing start cells' with
  | nil =>
      cases cells' with
      | nil => rfl
      | cons cell' cells' =>
          rcases right with ⟨rfl, positive, rest⟩
          have := rest.le
          rw [nil_iff] at left
          omega
  | cons cell cells ih =>
      rcases left with ⟨rfl, positive, rest⟩
      cases cells' with
      | nil =>
          have := rest.le
          rw [nil_iff] at right
          omega
      | cons cell' cells' =>
          rcases right with ⟨rfl, _, rest'⟩
          rw [ih rest rest']

/-- Extents that are multiples of `unit` keep every boundary a multiple of `unit`. -/
theorem mod_eq_zero {unit : Nat} (tiles : Tiles extent start stop cells)
    (aligned : start % unit = 0) (extents : ∀ c, extent c % unit = 0) :
    stop % unit = 0 ∧ ∀ c ∈ cells, c % unit = 0 := by
  induction cells generalizing start with
  | nil =>
      rw [nil_iff] at tiles
      subst tiles
      exact ⟨aligned, by simp⟩
  | cons cell cells ih =>
      rcases tiles with ⟨rfl, _, rest⟩
      have next : (start + extent start) % unit = 0 := by
        rw [Nat.add_mod, aligned, extents start]
        simp
      rcases ih rest next with ⟨stopAligned, cellsAligned⟩
      refine ⟨stopAligned, fun c mem => ?_⟩
      rcases List.mem_cons.mp mem with rfl | later
      · exact aligned
      · exact cellsAligned c later

end Tiles

end Foundation

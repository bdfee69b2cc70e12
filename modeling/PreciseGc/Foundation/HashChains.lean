import Mathlib.Data.List.Perm.Basic
import Mathlib.Data.List.Range
import Mathlib.Logic.Function.Basic

/-!
# Chains of a hash table

A family of lists, one for each index below a bound.  Replacing one of them
moves elements between that list and a list outside the family; the elements
of all lists together are then the same if they are the same for these two.
-/

namespace Foundation

universe u

variable {α : Type u} {n i : Nat} {chains : Nat → List α} {chain extra extra' : List α}

/-- The elements of all chains with an index below `n`. -/
def chained (n : Nat) (chains : Nat → List α) : List α := (List.range n).flatMap chains

theorem mem_chained {x : α} : x ∈ chained n chains ↔ ∃ i < n, x ∈ chains i := by
  simp [chained]

theorem chained_congr {chains' : Nat → List α} (same : ∀ i < n, chains' i = chains i) :
    chained n chains' = chained n chains := by
  apply List.flatMap_congr
  intro i mem
  exact same i (List.mem_range.mp mem)

/-- One chain, and the others. -/
theorem chained_split (less : i < n) :
    (chained n chains).Perm (chains i ++ ((List.range n).erase i).flatMap chains) := by
  have front : (List.range n).Perm (i :: (List.range n).erase i) :=
    List.perm_cons_erase (List.mem_range.mpr less)
  exact front.flatMap_right chains

theorem chained_update (less : i < n) :
    (chained n (Function.update chains i chain)).Perm
      (chain ++ ((List.range n).erase i).flatMap chains) := by
  have others : ((List.range n).erase i).flatMap (Function.update chains i chain) =
      ((List.range n).erase i).flatMap chains := by
    apply List.flatMap_congr
    intro j mem
    apply Function.update_of_ne
    rintro rfl
    exact List.nodup_range.not_mem_erase mem
  have split := @chained_split α n i (Function.update chains i chain) less
  rw [Function.update_self, others] at split
  exact split

/-- Replacing one chain, with an exchange of elements with a list outside. -/
theorem chained_replace (less : i < n) (exchange : (chain ++ extra').Perm (chains i ++ extra)) :
    (chained n (Function.update chains i chain) ++ extra').Perm (chained n chains ++ extra) := by
  have left := (@chained_update α n i chains chain less).append_right extra'
  have right := (@chained_split α n i chains less).append_right extra
  have middle : (chain ++ ((List.range n).erase i).flatMap chains ++ extra').Perm
      (chains i ++ ((List.range n).erase i).flatMap chains ++ extra) := by
    have swap : ∀ xs ys zs : List α, (xs ++ ys ++ zs).Perm (xs ++ zs ++ ys) := by
      intro xs ys zs
      rw [List.append_assoc, List.append_assoc]
      exact List.perm_append_comm.append_left xs
    exact (swap _ _ _).trans ((exchange.append_right _).trans (swap _ _ _).symm)
  exact left.trans (middle.trans right.symm)

/-- Mapping the elements of an updated family. -/
theorem map_update {β : Type u} (f : α → β) (chains : Nat → List α) (i : Nat) (chain : List α) :
    (fun j => (Function.update chains i chain j).map f) =
      Function.update (fun j => (chains j).map f) i (chain.map f) := by
  funext j
  by_cases same : j = i
  · subst same
    simp
  · simp [Function.update_of_ne same]

end Foundation

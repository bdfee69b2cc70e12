import Mathlib.Data.Multiset.Count
import Mathlib.Data.Set.Insert
import Mathlib.Logic.Function.Basic

/-!
# Reference counts

Each record has a count, and the references to records form a multiset, in
which `none` is a reference to no record.  The counts are exact if the count of
a record is its multiplicity.  A reference that is taken or given up changes
the count of its record by one.
-/

namespace Foundation

open Function

universe u

variable {κ : Type u} [DecidableEq κ]

/-- The counts of the records are exact for these references. -/
structure CountsExact (records : Set κ) (counts : κ → Nat) (references : Multiset (Option κ)) :
    Prop where
  recorded : ∀ k, some k ∈ references → k ∈ records
  exact : ∀ k ∈ records, counts k = references.count (some k)

/-- The counts after a reference was taken. -/
def retained (counts : κ → Nat) : Option κ → κ → Nat
  | none => counts
  | some k => update counts k (counts k + 1)

/-- The counts after a reference was given up. -/
def released (counts : κ → Nat) : Option κ → κ → Nat
  | none => counts
  | some k => update counts k (counts k - 1)

namespace CountsExact

variable {records : Set κ} {counts : κ → Nat} {references : Multiset (Option κ)} {k : κ}
  {reference : Option κ}

theorem cons_none_iff :
    CountsExact records counts (none ::ₘ references) ↔ CountsExact records counts references := by
  constructor
  · intro counted
    refine ⟨fun k mem => counted.recorded k (Multiset.mem_cons_of_mem mem), fun k mem => ?_⟩
    have exact := counted.exact k mem
    rwa [Multiset.count_cons_of_ne (by simp)] at exact
  · intro counted
    refine ⟨fun k mem => counted.recorded k (by simpa using mem), fun k mem => ?_⟩
    rw [Multiset.count_cons_of_ne (by simp)]
    exact counted.exact k mem

theorem retain (counted : CountsExact records counts references)
    (recorded : ∀ k, reference = some k → k ∈ records) :
    CountsExact records (retained counts reference) (reference ::ₘ references) := by
  cases reference with
  | none => exact cons_none_iff.mpr counted
  | some k =>
      constructor
      · intro j mem
        rcases Multiset.mem_cons.mp mem with same | old
        · exact recorded j same.symm
        · exact counted.recorded j old
      · intro j mem
        by_cases same : j = k
        · subst same
          simpa [retained] using counted.exact j mem
        · have other : some j ≠ some k := fun eq => same (Option.some.inj eq)
          simpa [retained, same, Multiset.count_cons_of_ne other] using counted.exact j mem

/-- The record of a reference has a positive count. -/
theorem positive (counted : CountsExact records counts (some k ::ₘ references)) :
    0 < counts k := by
  rw [counted.exact k (counted.recorded k (Multiset.mem_cons_self _ _)), Multiset.count_cons_self]
  exact Nat.succ_pos _

theorem release (counted : CountsExact records counts (reference ::ₘ references)) :
    CountsExact records (released counts reference) references := by
  cases reference with
  | none => exact cons_none_iff.mp counted
  | some k =>
      refine ⟨fun j mem => counted.recorded j (Multiset.mem_cons_of_mem mem), fun j mem => ?_⟩
      have exact := counted.exact j mem
      by_cases same : j = k
      · subst same
        rw [Multiset.count_cons_self] at exact
        simp [released, exact]
      · have other : some j ≠ some k := fun eq => same (Option.some.inj eq)
        rw [Multiset.count_cons_of_ne other] at exact
        simpa [released, same] using exact

/-- A new record, with its first reference. -/
theorem enter (counted : CountsExact records counts references) (fresh : some k ∉ references) :
    CountsExact (insert k records) (update counts k 1) (some k ::ₘ references) := by
  constructor
  · intro j mem
    rcases Multiset.mem_cons.mp mem with same | old
    · exact Or.inl (Option.some.inj same)
    · exact Or.inr (counted.recorded j old)
  · intro j mem
    by_cases same : j = k
    · subst same
      simp [fresh]
    · have other : some j ≠ some k := fun eq => same (Option.some.inj eq)
      have old : j ∈ records := mem.resolve_left same
      simpa [same, Multiset.count_cons_of_ne other] using counted.exact j old

end CountsExact

section Variables

variable {ν : Type u} [DecidableEq ν] {β : Type u} {holders : List ν} {a : ν}

theorem count_referents (holders : List β) (referent : β → Option κ) (k : κ) :
    (holders.map referent : Multiset (Option κ)).count (some k) =
      holders.countP fun a => referent a = some k := by
  unfold Multiset.count
  rw [Multiset.coe_countP, List.countP_map]
  apply List.countP_congr
  intro a _
  simp [eq_comm]

theorem map_erase_cons (mem : a ∈ holders) (referent : ν → β) :
    (holders.map referent : Multiset β) =
      referent a ::ₘ ((holders.erase a).map referent : List β) := by
  apply Multiset.coe_eq_coe.mpr
  exact (List.perm_cons_erase mem).map referent

/-- What the variables hold after one of them was assigned. -/
theorem map_update_cons (apart : holders.Nodup) (mem : a ∈ holders) (referent : ν → β)
    (reference : β) :
    (holders.map (update referent a reference) : Multiset β) =
      reference ::ₘ ((holders.erase a).map referent : List β) := by
  have others : (holders.erase a).map (update referent a reference) =
      (holders.erase a).map referent := by
    apply List.map_congr_left
    intro x xMem
    exact update_of_ne (apart.mem_erase_iff.mp xMem).1 reference referent
  rw [map_erase_cons mem, update_self, others]

namespace CountsExact

variable {records : Set κ} {counts : κ → Nat} {referent : ν → Option κ} {reference : Option κ}
  {k : κ}

/-- A variable gives its reference up. -/
theorem vacate (counted : CountsExact records counts (holders.map referent : List _))
    (mem : a ∈ holders) :
    CountsExact records (released counts (referent a))
      ((holders.erase a).map referent : List _) := by
  rw [map_erase_cons mem] at counted
  exact counted.release

/-- A variable that holds no reference takes one. -/
theorem fill (counted : CountsExact records counts ((holders.erase a).map referent : List _))
    (apart : holders.Nodup) (mem : a ∈ holders)
    (recorded : ∀ k, reference = some k → k ∈ records) :
    CountsExact records (retained counts reference)
      (holders.map (update referent a reference) : List _) := by
  rw [map_update_cons apart mem]
  exact counted.retain recorded

/-- A variable that holds no reference takes the first one to a new record. -/
theorem fillNew (counted : CountsExact records counts ((holders.erase a).map referent : List _))
    (apart : holders.Nodup) (mem : a ∈ holders) (fresh : ∀ x ∈ holders, referent x ≠ some k) :
    CountsExact (insert k records) (update counts k 1)
      (holders.map (update referent a (some k)) : List _) := by
  rw [map_update_cons apart mem]
  apply counted.enter
  intro taken
  rcases List.mem_map.mp (Multiset.mem_coe.mp taken) with ⟨x, xMem, same⟩
  exact fresh x (List.mem_of_mem_erase xMem) same

/-- The record of what a variable holds has a positive count. -/
theorem positive_of_mem (counted : CountsExact records counts (holders.map referent : List _))
    (mem : a ∈ holders) (holds : referent a = some k) : 0 < counts k := by
  rw [map_erase_cons mem, holds] at counted
  exact counted.positive

end CountsExact

end Variables

end Foundation

import PreciseGc.Foundation.Transition
import PreciseGc.Roots.MarkAndSweep
import PreciseGc.Roots.RootSweep

/-!
# Runs of the table

Whatever calls the table has seen, its records are partitioned into the chains
and the free list, and the counts on which its growth depends are exact.
-/

namespace PreciseGc

open Foundation Memory

variable {c c' : RootTable} {t t' : DerefRoots} {i n fuel : Nat}

/-- The table when the chains below `i` have been swept. -/
def DerefRoots.sweptBelow (i : Nat) (t : DerefRoots) : DerefRoots :=
  { t with
    roots := fun j => if j < i then keptHandlers (t.roots j) else t.roots j
    freeList := ((chained i fun j => removedHandlers (t.roots j)).map RootHandler.self).reverse ++
      t.freeList
    count := t.count - (chained i fun j => removedHandlers (t.roots j)).length }

theorem sweptBelow_succ (t : DerefRoots) (i : Nat) :
    (t.sweptBelow i).sweptChain i [] (t.roots i) = t.sweptBelow (i + 1) := by
  have removed : chained (i + 1) (fun j => removedHandlers (t.roots j)) =
      chained i (fun j => removedHandlers (t.roots j)) ++ removedHandlers (t.roots i) := by
    simp [chained, List.range_succ]
  have roots : Function.update (fun j => if j < i then keptHandlers (t.roots j) else t.roots j) i
      (keptHandlers (t.roots i)) =
        fun j => if j < i + 1 then keptHandlers (t.roots j) else t.roots j := by
    funext j
    by_cases same : j = i
    · subst same
      simp
    · rw [Function.update_of_ne same]
      by_cases less : j < i
      · rw [if_pos less, if_pos (by omega)]
      · rw [if_neg less, if_neg (by omega)]
  unfold DerefRoots.sweptBelow DerefRoots.sweptChain DerefRoots.setChain
  rw [removed, List.nil_append]
  dsimp only
  rw [roots, List.map_append, List.reverse_append, List.append_assoc, List.length_append,
    Nat.sub_sub]

/-- No chain is longer than the table. -/
theorem TableInvariant.length_le (inv : TableInvariant c t) (less : i < numberOfRoots) :
    (t.roots i).length ≤ c.totalCount := by
  have split := (@chained_split _ numberOfRoots i t.roots less).length_eq
  have count := inv.accounted.count
  have total := inv.accounted.total
  have same := inv.represents.totalCount
  rw [List.length_append] at split
  omega

/-- The outer loop of the sweep. -/
theorem TableInvariant.sweepChains (inv : TableInvariant c (t.sweptBelow i))
    (range : i + n = numberOfRoots) :
    (c.sweepChains fuel n i = .error .outOfFuel ∧ fuel ≤ c.totalCount) ∨
    ∃ c', c.sweepChains fuel n i = .ok c' ∧ c'.spaces = c.spaces ∧
      TableInvariant c' (t.sweptBelow numberOfRoots) := by
  induction n generalizing c i with
  | zero =>
      obtain rfl : i = numberOfRoots := by omega
      exact Or.inr ⟨c, rfl, rfl, inv⟩
  | succ n ih =>
      have less : i < numberOfRoots := by omega
      have here : (t.sweptBelow i).roots i = [] ++ t.roots i := by simp [DerefRoots.sweptBelow]
      have short := inv.length_le less
      rw [here, List.nil_append] at short
      have head := (inv.represents.chains i less).chain.head_eq
      rw [here, List.nil_append] at head
      have none : 0 = (([] : List RootHandler).map RootHandler.self).getLast?.getD 0 := rfl
      rw [RootTable.sweepChains, head]
      rcases @TableInvariant.sweepChain _ _ _ fuel _ _ inv less here 0 none with
        ⟨exhausted, little⟩ | ⟨c₁, eq, spaces, inv₁⟩
      · rw [exhausted]
        exact Or.inl ⟨rfl, Nat.le_trans little short⟩
      rw [sweptBelow_succ] at inv₁
      have total : c₁.totalCount = c.totalCount :=
        inv₁.represents.totalCount.trans inv.represents.totalCount.symm
      have range' : i + 1 + n = numberOfRoots := by omega
      rw [eq]
      rcases ih inv₁ range' with ⟨exhausted, little⟩ | ⟨c', eq', spaces', inv'⟩
      · rw [total] at little
        exact Or.inl ⟨exhausted, little⟩
      · exact Or.inr ⟨c', eq', spaces'.trans spaces, inv'⟩

/-- `sweep_dereferenced_roots()`. -/
theorem TableInvariant.sweep (inv : TableInvariant c t) :
    (c.sweep fuel = .error .outOfFuel ∧ fuel ≤ c.totalCount) ∨
    ∃ c', c.sweep fuel = .ok c' ∧ c'.spaces = c.spaces ∧ TableInvariant c' t.sweep := by
  have start : t.sweptBelow 0 = t := by
    simp [DerefRoots.sweptBelow, chained]
  rw [← start] at inv
  rcases @TableInvariant.sweepChains _ _ _ _ fuel inv (Nat.zero_add _) with
    exhausted | ⟨c', eq, spaces, inv'⟩
  · exact Or.inl exhausted
  refine Or.inr ⟨c', eq, spaces, inv'.congr (fun i less => ?_) rfl⟩
  simp only [DerefRoots.sweptBelow, if_pos less]
  rfl

/-- The lookup on lists changes a chain in the same way. -/
theorem collector_markChain {σ : Type} (collector : Collector σ) (root : Nat)
    (chain : List RootHandler) (s : σ) :
    collector.markChain root false chain s = .ok (markFirst root chain, s) := by
  induction chain with
  | nil => rfl
  | cons curr next ih =>
      rw [Collector.markChain, markFirst]
      split
      · split
        · rfl
        · rfl
      · rw [ih]
        rfl

/-- A call of the functions of the table.  Its `space` is the answer of `mmap` should the call
ask for a mapping, and `expanded` is what a registration does after the partial collection it
asks for. -/
inductive TableCall where
  | register (root size : Nat) (space : Option Nat)
  | expanded
  | mark (root : Nat) (fullGc : Bool)
  | sweep

/-- The effect of a call. -/
def RootTable.call (fuel : Nat) : TableCall → RootTable → Except Fault RootTable
  | .register root size space, c => c.register space root size >>= fun r => .ok r.2
  | .expanded, c => .ok c.expanded
  | .mark root fullGc, c => c.mark fuel root fullGc >>= fun r => .ok r.2
  | .sweep, c => c.sweep fuel

/-- The mappings for records. -/
def spaceRegions (spaces : List Nat) : List Region := spaces.map fun space => ⟨space, spaceLength⟩

/-- The system answers a registration with a fresh mapping, if it answers. -/
def TableCall.Allowed (pageSize : Nat) (c : RootTable) : TableCall → Prop
  | .register root _ space => root ≠ 0 ∧ ∀ s, space = some s →
      FreshMapping pageSize (spaceRegions c.spaces) spaceLength s
  | _ => True

theorem freshSpace_of_mapping {pageSize space : Nat} {spaces : List Nat} (large : 0 < pageSize)
    (fresh : FreshMapping pageSize (spaceRegions spaces) spaceLength space) :
    FreshSpace spaces space := by
  refine ⟨Nat.ne_of_gt fresh.nonnull, fun s mem => ?_⟩
  have region : (⟨s, spaceLength⟩ : Region) ∈ spaceRegions spaces := List.mem_map_of_mem mem
  have rounded : spaceLength ≤ roundToPages pageSize spaceLength := by
    unfold roundToPages
    have := Nat.div_add_mod (spaceLength + (pageSize - 1)) pageSize
    have := Nat.mod_lt (spaceLength + (pageSize - 1)) large
    rw [Nat.mul_comm]
    omega
  have some : 0 < spaceLength := by decide
  by_cases below : s < space
  · left
    by_contra overlap
    rcases fresh.unmapped _ region space ⟨Nat.le_of_lt below, by dsimp only; omega⟩ with less | less
    · omega
    · omega
  · right
    rcases fresh.unmapped _ region s ⟨Nat.le_refl s, by dsimp only; omega⟩ with less | less
    · omega
    · omega

/-- The table of a process that starts. -/
def RootTable.Initial (c : RootTable) : Prop := c = { mem := c.mem }

/-- A call that returns. -/
def TableStep (pageSize : Nat) (c c' : RootTable) : Prop :=
  ∃ call fuel, call.Allowed pageSize c ∧ c.call fuel call = .ok c'

theorem TableInvariant.initial (isInitial : c.Initial) : TableInvariant c {} := by
  have nothing : ∀ α : Type, chained numberOfRoots (fun _ => ([] : List α)) = [] := by
    intro α
    unfold chained
    exact List.flatMap_eq_nil_iff.mpr fun _ _ => rfl
  rw [isInitial]
  refine ⟨⟨fun i _ => ⟨rfl, by simp⟩, rfl, rfl, rfl, rfl, rfl⟩, ⟨?_, ?_, rfl, by simp⟩, ?_⟩
  · unfold DerefRoots.records
    simp only [List.map_nil, nothing, List.append_nil]
    exact List.Perm.refl _
  · simp only [nothing, List.length_nil]
  · exact ⟨by simp [recordsOf], List.Pairwise.nil⟩

/-- A call keeps the invariant.  It returns, with fuel for all records, unless it needs a mapping
that the system refuses. -/
theorem TableInvariant.call {pageSize : Nat} (large : 0 < pageSize) (inv : TableInvariant c t)
    {call : TableCall} (allowed : call.Allowed pageSize c) :
    (c.call fuel call = .error .outOfFuel ∧ fuel ≤ c.totalCount) ∨
      c.call fuel call = .error .mapFailed ∨
        ∃ c' t', c.call fuel call = .ok c' ∧ TableInvariant c' t' := by
  cases call with
  | register root size space =>
      right
      have fresh : ∀ s, space = some s → FreshSpace c.spaces s :=
        fun s answer => freshSpace_of_mapping large (allowed.2 s answer)
      rw [RootTable.call, RootTable.register, if_neg allowed.1]
      rcases inv.refill space fresh with ⟨refused, _⟩ | ⟨c₁, t₁, eq, _, inv₁, some⟩
      · rw [refused]
        exact Or.inl rfl
      · rw [eq]
        exact Or.inr ⟨_, _, rfl, (inv₁.enter some root size).2⟩
  | expanded =>
      right
      right
      refine ⟨_, { t with
        expandCount := 0
        expandFactor := if t.expandFactor != 1 then t.expandFactor / 2 else t.expandFactor },
        rfl, ?_, ?_, inv.separated⟩
      · refine { inv.represents with expandCount := rfl, expandFactor := ?_ }
        unfold RootTable.expanded
        rw [inv.represents.expandFactor]
      · exact inv.accounted.congr (fun _ _ => rfl) rfl rfl rfl
  | mark root fullGc =>
      rw [RootTable.call, RootTable.mark]
      split
      · exact Or.inr (Or.inr ⟨c, t, rfl, inv⟩)
      · have less : hashOfRoot root < numberOfRoots := Nat.mod_lt _ (by decide)
        have head := (inv.represents.chains _ less).chain.head_eq
        have short := inv.length_le less
        rw [head]
        rcases @TableInvariant.markChain _ _ _ fuel [] _ inv less root fullGc rfl with
          ⟨exhausted, little⟩ | ⟨pointer, c', eq, _, inv'⟩
        · rw [exhausted]
          exact Or.inl ⟨rfl, Nat.le_trans little short⟩
        · rw [eq]
          exact Or.inr (Or.inr ⟨c', _, rfl, inv'⟩)
  | sweep =>
      rcases @TableInvariant.sweep c t fuel inv with exhausted | ⟨c', eq, _, inv'⟩
      · exact Or.inl exhausted
      · exact Or.inr (Or.inr ⟨c', _, eq, inv'⟩)

/-- After any calls, the records obtained from the system are partitioned into the chains and the
free list, the counts are exact, and every record is in the chain of its hash.  A sweep returns, and
leaves of each chain the marked records in their order, with the marks cleared. -/
theorem rootTable_runs {pageSize : Nat} (large : 0 < pageSize)
    (reached : Reachable RootTable.Initial (TableStep pageSize) c) :
    ∃ t : DerefRoots, Represents c t ∧ Accounted c.spaces t ∧ (recordsOf c.spaces).Nodup ∧
      ∀ fuel, c.totalCount < fuel → ∃ c', c.sweep fuel = .ok c' ∧ c'.spaces = c.spaces ∧
        ∃ t' : DerefRoots, Represents c' t' ∧ Accounted c.spaces t' ∧
          ∀ i < numberOfRoots,
            t'.roots i = ((t.roots i).filter RootHandler.isMarked).map RootHandler.unmark := by
  have invariant : ∃ t, TableInvariant c t := by
    apply reached.invariant
    · exact fun c isInitial => ⟨{}, TableInvariant.initial isInitial⟩
    · rintro c c' ⟨t, inv⟩ ⟨call, fuel, allowed, returns⟩
      rcases @TableInvariant.call c t fuel pageSize large inv call allowed with
        ⟨exhausted, _⟩ | refused | ⟨c'', t', eq, inv'⟩
      · rw [exhausted] at returns
        cases returns
      · rw [refused] at returns
        cases returns
      · rw [eq] at returns
        cases returns
        exact ⟨t', inv'⟩
  rcases invariant with ⟨t, inv⟩
  refine ⟨t, inv.represents, inv.accounted, inv.separated.nodup, fun fuel enough => ?_⟩
  rcases @TableInvariant.sweep c t fuel inv with ⟨_, little⟩ | ⟨c', eq, spaces, inv'⟩
  · omega
  · have accounted := inv'.accounted
    rw [spaces] at accounted
    exact ⟨c', eq, spaces, t.sweep, inv'.represents, accounted, fun _ _ => rfl⟩

/-- The table after the registration of one object of eight bytes. -/
theorem rootTable_runs_register : ∃ c, RootTable.call 1 (.register 65568 8 (some 131072))
      { mem := fun _ => 0 } = .ok c ∧
    ∃ t : DerefRoots, Represents c t ∧ Accounted c.spaces t ∧ (recordsOf c.spaces).Nodup ∧
      ∀ fuel, c.totalCount < fuel → ∃ c', c.sweep fuel = .ok c' ∧ c'.spaces = c.spaces ∧
        ∃ t' : DerefRoots, Represents c' t' ∧ Accounted c.spaces t' ∧
          ∀ i < numberOfRoots,
            t'.roots i = ((t.roots i).filter RootHandler.isMarked).map RootHandler.unmark := by
  have returns : ∃ c, RootTable.call 1 (.register 65568 8 (some 131072)) { mem := fun _ => 0 } =
      .ok c := ⟨_, rfl⟩
  rcases returns with ⟨c, returns⟩
  have fresh : FreshMapping 4096 [] spaceLength 131072 :=
    ⟨by decide, by decide, by decide, by decide, by simp⟩
  have allowed : TableCall.Allowed 4096 { mem := fun _ => 0 }
    (.register 65568 8 (some 131072)) := by
    refine ⟨by decide, fun s answer => ?_⟩
    cases answer
    exact fresh
  have start : Reachable RootTable.Initial (TableStep 4096) { mem := fun _ => 0 } :=
    Reachable.start rfl
  exact ⟨c, returns, rootTable_runs (by decide) (start.next ⟨_, 1, allowed, returns⟩)⟩

end PreciseGc

import Mathlib.Data.List.Nodup
import Mathlib.Data.List.Perm.Basic
import Mathlib.Tactic.Common

/-!
# Intrusive singly linked lists

`Chain next head cells` says that following `next` from `head` visits exactly
`cells` and then reaches the null address.  The link function is arbitrary, so
one development covers links stored at the start of a cell, at an offset
inside it, or behind a further indirection.

Because the list of visited cells is finite, a chain is finite and acyclic.
-/

namespace Foundation

/-- Following `next` from `head` visits `cells` and ends at null. -/
def Chain (next : Nat → Nat) : Nat → List Nat → Prop
  | head, [] => head = 0
  | head, cell :: cells => head = cell ∧ cell ≠ 0 ∧ Chain next (next cell) cells

namespace Chain

variable {next next' : Nat → Nat} {head cell : Nat} {cells front back : List Nat}

@[simp]
theorem nil_iff : Chain next head [] ↔ head = 0 := Iff.rfl

@[simp]
theorem cons_iff : Chain next head (cell :: cells) ↔
    head = cell ∧ cell ≠ 0 ∧ Chain next (next cell) cells := Iff.rfl

instance decidable (next : Nat → Nat) (head : Nat) :
    (cells : List Nat) → Decidable (Chain next head cells)
  | [] => inferInstanceAs (Decidable (head = 0))
  | cell :: cells =>
      have := decidable next (next cell) cells
      inferInstanceAs (Decidable (head = cell ∧ cell ≠ 0 ∧ Chain next (next cell) cells))

theorem congr (chain : Chain next head cells)
    (agree : ∀ x ∈ cells, next' x = next x) : Chain next' head cells := by
  induction cells generalizing head with
  | nil => exact chain
  | cons cell cells ih =>
      rcases chain with ⟨rfl, nonnull, rest⟩
      refine ⟨rfl, nonnull, ?_⟩
      rw [agree head (by simp)]
      exact ih rest fun x mem => agree x (by simp [mem])

theorem ne_zero (chain : Chain next head cells) (mem : cell ∈ cells) : cell ≠ 0 := by
  induction cells generalizing head with
  | nil => simp at mem
  | cons first cells ih =>
      rcases chain with ⟨rfl, nonnull, rest⟩
      rcases List.mem_cons.mp mem with rfl | later
      · exact nonnull
      · exact ih rest later

theorem eq_nil_of_head_eq_zero (chain : Chain next 0 cells) : cells = [] := by
  cases cells with
  | nil => rfl
  | cons cell cells => exact absurd chain.1.symm chain.2.1

theorem head_eq_zero_iff (chain : Chain next head cells) : head = 0 ↔ cells = [] := by
  constructor
  · rintro rfl
    exact chain.eq_nil_of_head_eq_zero
  · rintro rfl
    exact chain

theorem head_eq (chain : Chain next head cells) : head = cells.headD 0 := by
  cases cells with
  | nil => exact chain
  | cons cell cells => exact chain.1

/-- A chain determines its cells. -/
theorem unique {cells' : List Nat} (left : Chain next head cells)
    (right : Chain next head cells') : cells = cells' := by
  induction cells generalizing head cells' with
  | nil =>
      rw [nil_iff] at left
      subst left
      exact right.eq_nil_of_head_eq_zero.symm
  | cons cell cells ih =>
      rcases left with ⟨rfl, nonnull, rest⟩
      cases cells' with
      | nil => exact absurd right nonnull
      | cons cell' cells' =>
          rcases right with ⟨rfl, _, rest'⟩
          rw [ih rest rest']

/-- The cells after a given position form a chain from the link of that position. -/
theorem suffix (chain : Chain next head (front ++ cell :: back)) :
    Chain next (next cell) back := by
  induction front generalizing head with
  | nil => exact chain.2.2
  | cons first front ih => exact ih chain.2.2

/-- A chain does not come back to a cell. -/
theorem nodup (chain : Chain next head cells) : cells.Nodup := by
  induction cells generalizing head with
  | nil => exact List.nodup_nil
  | cons cell cells ih =>
      rcases chain with ⟨rfl, nonnull, rest⟩
      refine List.nodup_cons.mpr ⟨fun again => ?_, ih rest⟩
      rcases List.append_of_mem again with ⟨front, back, split⟩
      subst split
      have same := rest.unique rest.suffix
      have lengths := congrArg List.length same
      simp only [List.length_append, List.length_cons] at lengths
      omega

/-- The last cell has a null link. -/
theorem next_getLastD (chain : Chain next head cells) (nonempty : cells ≠ []) :
    next (cells.getLastD 0) = 0 := by
  have split := List.dropLast_append_getLast nonempty
  rw [← split] at chain
  have last : cells.getLastD 0 = cells.getLast nonempty := by
    rw [List.getLastD_eq_getLast?, List.getLast?_eq_getLast_of_ne_nil nonempty]
    rfl
  rw [last]
  exact chain.suffix

/-- Pushing a fresh cell in front of a chain. -/
theorem push (chain : Chain next head cells) (nonnull : cell ≠ 0) (fresh : cell ∉ cells)
    (link : next' cell = head) (agree : ∀ x, x ≠ cell → next' x = next x) :
    Chain next' cell (cell :: cells) := by
  refine ⟨rfl, nonnull, ?_⟩
  rw [link]
  refine chain.congr fun x mem => agree x ?_
  rintro rfl
  exact fresh mem

/-- Redirecting the head, or the last cell before it, past one cell unlinks that cell. -/
theorem unlink (chain : Chain next head (front ++ cell :: back))
    (unique : (front ++ cell :: back).Nodup)
    (agree : ∀ x ∈ front ++ back, front.getLast? ≠ some x → next' x = next x)
    (redirect : ∀ last, front.getLast? = some last → next' last = next cell) :
    Chain next' (if front = [] then next cell else head) (front ++ back) := by
  induction front generalizing head with
  | nil =>
      refine chain.2.2.congr fun x mem => agree x (by simpa using mem) ?_
      simp
  | cons first front ih =>
      rcases chain with ⟨rfl, nonnull, rest⟩
      simp only [List.cons_append, List.nodup_cons] at unique
      have tail := ih rest unique.2
        (by
          intro x mem notLast
          refine agree x (by simp [mem]) ?_
          rw [List.getLast?_cons]
          cases h : front.getLast? with
          | none =>
              simp only [Option.getD_none, ne_eq, Option.some.injEq]
              rintro rfl
              exact unique.1 (by
                rcases List.mem_append.mp mem with inFront | inBack
                · simp [inFront]
                · simp [inBack])
          | some last => simpa [h] using notLast)
        (by
          intro last isLast
          refine redirect last ?_
          rw [List.getLast?_cons, isLast]
          rfl)
      simp only [reduceCtorEq, ↓reduceIte, List.cons_append, cons_iff, true_and]
      refine ⟨nonnull, ?_⟩
      cases front with
      | nil =>
          simp only [↓reduceIte, List.nil_append] at tail ⊢
          rw [redirect head (by simp)]
          exact tail
      | cons second front =>
          simp only [reduceCtorEq, ↓reduceIte] at tail
          rw [agree head (by simp) (by
            intro isLast
            rw [List.getLast?_cons_cons] at isLast
            have := List.mem_of_getLast? isLast
            exact unique.1 (by
              rcases List.mem_cons.mp this with rfl | later
              · simp
              · simp [later]))]
          exact tail

/-- Linking a fresh cell behind the last cell. -/
theorem append (chain : Chain next head cells) (nonempty : cells ≠ [])
    (unique : cells.Nodup)
    (nonnull : cell ≠ 0) (fresh : cell ∉ cells) (ending : next' cell = 0)
    (link : next' (cells.getLast nonempty) = cell)
    (agree : ∀ x ∈ cells, x ≠ cells.getLast nonempty → next' x = next x) :
    Chain next' head (cells ++ [cell]) := by
  induction cells generalizing head with
  | nil => exact absurd rfl nonempty
  | cons first cells ih =>
      rcases chain with ⟨rfl, firstNonnull, rest⟩
      refine ⟨rfl, firstNonnull, ?_⟩
      cases cells with
      | nil =>
          simp only [List.getLast_singleton] at link
          simp [link, nonnull, ending]
      | cons second cells =>
          have tailNonempty : second :: cells ≠ [] := by simp
          have lastEq : (head :: second :: cells).getLast nonempty =
              (second :: cells).getLast tailNonempty := List.getLast_cons tailNonempty
          have headNotLast : head ≠ (second :: cells).getLast tailNonempty := by
            intro same
            exact (List.nodup_cons.mp unique).1 (same ▸ List.getLast_mem tailNonempty)
          rw [agree head (by simp) (by rw [lastEq]; exact headNotLast)]
          refine ih rest tailNonempty (List.nodup_cons.mp unique).2
            (fun mem => fresh (by simp [List.mem_cons.mp mem])) (by rw [← lastEq]; exact link) ?_
          intro x mem notLast
          exact agree x (List.mem_cons_of_mem _ mem) (by rw [lastEq]; exact notLast)

end Chain

end Foundation

import Mathlib.Data.Nat.Fib.Basic
import Mathlib.Data.Tree.Basic

/-!
# Balanced search trees

Search trees that may hold a key several times.  A key that occurs twice stands
on either side of itself, so the order is the one of the inorder traversal.
-/

namespace Foundation

variable {α : Type*}

/-- The keys from left to right. -/
def inorder : BinaryTree α → List α
  | .nil => []
  | .node a left right => inorder left ++ a :: inorder right

/-- No key is above one to its right. -/
def Ordered [LE α] : BinaryTree α → Prop
  | .nil => True
  | .node a left right =>
      (∀ b ∈ inorder left, b ≤ a) ∧ (∀ b ∈ inorder right, a ≤ b) ∧ Ordered left ∧ Ordered right

/-- The two sides of every node differ in height by one at most. -/
def Balanced : BinaryTree α → Prop
  | .nil => True
  | .node _ left right =>
      left.height ≤ right.height + 1 ∧ right.height ≤ left.height + 1 ∧
        Balanced left ∧ Balanced right

@[simp]
theorem length_inorder (t : BinaryTree α) : (inorder t).length = t.numNodes := by
  induction t with
  | nil => rfl
  | node a left right leftIh rightIh =>
      simp only [inorder, List.length_append, List.length_cons, leftIh, rightIh,
        BinaryTree.numNodes]
      omega

/-- The order of a tree is a property of its inorder traversal, so no rotation changes it. -/
theorem ordered_iff_pairwise [Preorder α] (t : BinaryTree α) :
    Ordered t ↔ (inorder t).Pairwise (· ≤ ·) := by
  induction t with
  | nil => simp [Ordered, inorder]
  | node a left right leftIh rightIh =>
      simp only [Ordered, inorder, leftIh, rightIh, List.pairwise_append, List.pairwise_cons]
      constructor
      · intro ⟨below, above, leftOrdered, rightOrdered⟩
        refine ⟨leftOrdered, ⟨above, rightOrdered⟩, fun b bMem c cMem => ?_⟩
        rcases List.mem_cons.mp cMem with cEq | cMem
        · exact cEq ▸ below b bMem
        · exact (below b bMem).trans (above c cMem)
      · intro ⟨leftOrdered, ⟨above, rightOrdered⟩, between⟩
        exact ⟨fun b bMem => between b bMem a List.mem_cons_self, above, leftOrdered, rightOrdered⟩

theorem Ordered.congr [Preorder α] {t u : BinaryTree α} (ordered : Ordered t)
    (same : inorder u = inorder t) : Ordered u := by
  apply (ordered_iff_pairwise u).mpr
  rw [same]
  exact (ordered_iff_pairwise t).mp ordered

/-- A balanced tree has at least as many nodes as the Fibonacci number of its height. -/
theorem Balanced.fib_le {t : BinaryTree α} (balanced : Balanced t) :
    Nat.fib (t.height + 2) ≤ t.numNodes + 1 := by
  induction t with
  | nil => simp [BinaryTree.height, BinaryTree.numNodes]
  | node a left right leftIh rightIh =>
      rcases balanced with ⟨leftLow, rightLow, leftBalanced, rightBalanced⟩
      have leftFib := leftIh leftBalanced
      have rightFib := rightIh rightBalanced
      simp only [BinaryTree.height, BinaryTree.numNodes]
      have split : Nat.fib (max left.height right.height + 1 + 2) =
          Nat.fib (max left.height right.height + 1) +
            Nat.fib (max left.height right.height + 2) := Nat.fib_add_two
      -- The higher side reaches the second summand and the lower side the first one.
      rcases Nat.le_total left.height right.height with leftLe | rightLe
      · rw [Nat.max_eq_right leftLe] at split ⊢
        have first : Nat.fib (right.height + 1) ≤ Nat.fib (left.height + 2) := by
          apply Nat.fib_mono
          omega
        omega
      · rw [Nat.max_eq_left rightLe] at split ⊢
        have first : Nat.fib (left.height + 1) ≤ Nat.fib (right.height + 2) := by
          apply Nat.fib_mono
          omega
        omega

/-- A balanced tree with fewer nodes than a Fibonacci number is lower than its index. -/
theorem Balanced.height_lt {t : BinaryTree α} (balanced : Balanced t) {k : Nat}
    (few : t.numNodes + 1 < Nat.fib (k + 2)) : t.height < k := by
  by_contra high
  have fibLe : Nat.fib (k + 2) ≤ Nat.fib (t.height + 2) := by
    apply Nat.fib_mono
    omega
  have nodes := balanced.fib_le
  omega

end Foundation

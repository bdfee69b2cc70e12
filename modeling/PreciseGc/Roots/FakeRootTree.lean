import Mathlib.Data.Multiset.AddSub
import Mathlib.Tactic.NormNum.NatFib
import PreciseGc.Foundation.SearchTree
import PreciseGc.Roots.FakeRoots

/-!
# The tree of fake roots

`register_object` and `unregister_object` keep the tree of fake roots ordered
and balanced.  The heights are `unsigned char`s; they never wrap, because a
balanced tree with fewer than `2^64` nodes is lower than 92.
-/

namespace PreciseGc.FakeRoots

open Foundation

/-- The tree of the registered addresses. -/
def toTree : FakeRoots → BinaryTree Nat
  | null => .nil
  | node _ addr _ left right => .node addr left.toTree right.toTree

/-- The registered addresses from left to right. -/
def addresses (t : FakeRoots) : List Nat := inorder t.toTree

@[simp]
theorem addresses_null : null.addresses = [] := rfl

@[simp]
theorem addresses_node (self addr h : Nat) (left right : FakeRoots) :
    (node self addr h left right).addresses = left.addresses ++ addr :: right.addresses := rfl

@[simp]
theorem addresses_fixheight (t : FakeRoots) : t.fixheight.addresses = t.addresses := by
  cases t <;> rfl

@[simp]
theorem addresses_rotateright (t : FakeRoots) : t.rotateright.addresses = t.addresses := by
  unfold rotateright
  split <;> simp

@[simp]
theorem addresses_rotateleft (t : FakeRoots) : t.rotateleft.addresses = t.addresses := by
  unfold rotateleft
  split <;> simp

@[simp]
theorem addresses_balance (t : FakeRoots) : t.balance.addresses = t.addresses := by
  have fixed := addresses_fixheight t
  unfold balance
  split
  · rename_i empty
    rw [← fixed, empty]
  · rename_i self addr h left right shape
    rw [← fixed, shape]
    split
    · rw [addresses_rotateleft, addresses_node, addresses_node]
      split <;> simp
    · split
      · rw [addresses_rotateright, addresses_node, addresses_node]
        split <;> simp
      · rfl

/-- Whether no address stands to the right of a greater one. -/
def IsOrdered (t : FakeRoots) : Prop := Ordered t.toTree

theorem isOrdered_node {self addr h : Nat} {left right : FakeRoots} :
    (node self addr h left right).IsOrdered ↔ (∀ b ∈ left.addresses, b ≤ addr) ∧
      (∀ b ∈ right.addresses, addr ≤ b) ∧ left.IsOrdered ∧ right.IsOrdered :=
  Iff.rfl

theorem IsOrdered.balance {t : FakeRoots} (ordered : t.IsOrdered) : t.balance.IsOrdered :=
  Ordered.congr ordered (addresses_balance t)

theorem addresses_insert (newNode k : Nat) (t : FakeRoots) :
    (t.insert newNode k).addresses.Perm (k :: t.addresses) := by
  induction t with
  | null => exact List.Perm.refl _
  | node self addr h left right leftIh rightIh =>
      simp only [insert]
      split
      · rw [addresses_balance, addresses_node, addresses_node]
        exact leftIh.append_right _
      · rw [addresses_balance, addresses_node, addresses_node]
        apply ((rightIh.cons addr).append_left left.addresses).trans
        apply (List.perm_append_comm_assoc left.addresses [addr, k] right.addresses).trans
        apply (List.Perm.swap k addr _).trans
        exact (List.perm_append_comm_assoc [addr] left.addresses right.addresses).cons k

theorem IsOrdered.insert {t : FakeRoots} (ordered : t.IsOrdered) (newNode k : Nat) :
    (t.insert newNode k).IsOrdered := by
  induction t with
  | null => exact ⟨by simp [inorder, toTree], by simp [inorder, toTree], trivial, trivial⟩
  | node self addr h left right leftIh rightIh =>
      rcases isOrdered_node.mp ordered with ⟨below, above, leftOrdered, rightOrdered⟩
      simp only [FakeRoots.insert]
      split
      · rename_i less
        apply IsOrdered.balance
        apply isOrdered_node.mpr
        refine ⟨fun b bMem => ?_, above, leftIh leftOrdered, rightOrdered⟩
        rcases List.mem_cons.mp ((addresses_insert newNode k left).mem_iff.mp bMem) with bEq | bMem
        · omega
        · exact below b bMem
      · rename_i notLess
        apply IsOrdered.balance
        apply isOrdered_node.mpr
        refine ⟨below, fun b bMem => ?_, leftOrdered, rightIh rightOrdered⟩
        rcases List.mem_cons.mp ((addresses_insert newNode k right).mem_iff.mp bMem) with bEq | bMem
        · omega
        · exact above b bMem

/-- `findmin` finds the node of the first address, and `removemin` keeps the others. -/
theorem findmin_spec {t : FakeRoots} (nonempty : t ≠ null) :
    ∃ self addr h left right, t.findmin = node self addr h left right ∧
      t.addresses = addr :: t.removemin.addresses := by
  induction t with
  | null => exact absurd rfl nonempty
  | node self addr h left right leftIh rightIh =>
      cases left with
      | null => exact ⟨self, addr, h, null, right, rfl, rfl⟩
      | node leftSelf leftAddr leftH leftLeft leftRight =>
          obtain ⟨minSelf, minAddr, minH, minLeft, minRight, found, first⟩ :=
            leftIh nofun
          refine ⟨minSelf, minAddr, minH, minLeft, minRight, found, ?_⟩
          rw [addresses_node, first]
          simp only [removemin, addresses_balance, addresses_node, List.cons_append]

theorem remove_node_lt {self addr h k : Nat} {left right : FakeRoots} (less : k < addr) :
    (node self addr h left right).remove k = balance (node self addr h (left.remove k) right) := by
  simp only [remove, less, if_true]

theorem remove_node_gt {self addr h k : Nat} {left right : FakeRoots} (greater : addr < k) :
    (node self addr h left right).remove k = balance (node self addr h left (right.remove k)) := by
  have notLess : ¬ k < addr := by omega
  simp only [remove, notLess, greater, if_true, if_false]

/-- A node that is found is replaced by the least node to its right, or by its left side. -/
theorem remove_node_self (self addr h : Nat) (left right : FakeRoots) :
    (node self addr h left right).remove addr = left ∧ right = null ∨
      ∃ minSelf minAddr minH, right ≠ null ∧
        right.addresses = minAddr :: right.removemin.addresses ∧
        (node self addr h left right).remove addr =
          balance (node minSelf minAddr minH left right.removemin) := by
  cases right with
  | null => exact Or.inl ⟨by simp [remove], rfl⟩
  | node rightSelf rightAddr rightH rightLeft rightRight =>
      apply Or.inr
      obtain ⟨minSelf, minAddr, minH, minLeft, minRight, found, first⟩ :=
        findmin_spec (t := node rightSelf rightAddr rightH rightLeft rightRight) nofun
      refine ⟨minSelf, minAddr, minH, nofun, first, ?_⟩
      simp [remove, found]

/-- `remove` drops the address once, if it is there. -/
theorem addresses_remove {t : FakeRoots} (ordered : t.IsOrdered) (k : Nat) :
    (t.remove k).addresses.Perm (t.addresses.erase k) := by
  induction t with
  | null => exact List.Perm.refl _
  | node self addr h left right leftIh rightIh =>
      rcases isOrdered_node.mp ordered with ⟨below, above, leftOrdered, rightOrdered⟩
      rcases Nat.lt_trichotomy k addr with less | same | greater
      · rw [remove_node_lt less, addresses_balance, addresses_node, addresses_node]
        -- The address is not to the right, so the list on the left is the one it is erased from.
        have notRight : k ∉ addr :: right.addresses := by
          intro kMem
          rcases List.mem_cons.mp kMem with kEq | kMem
          · omega
          · have le := above k kMem
            omega
        by_cases kMem : k ∈ left.addresses
        · rw [List.erase_append_left _ kMem]
          exact (leftIh leftOrdered).append_right _
        · rw [List.erase_append_right _ kMem, List.erase_of_not_mem notRight]
          have same := leftIh leftOrdered
          rw [List.erase_of_not_mem kMem] at same
          exact same.append_right _
      · subst same
        rcases remove_node_self self k h left right with
          ⟨removed, empty⟩ | ⟨minSelf, minAddr, minH, -, first, removed⟩
        · rw [removed, empty, addresses_node]
          apply List.Perm.trans _ (List.perm_middle.symm.erase k)
          simp
        · rw [removed, addresses_balance, addresses_node, addresses_node, ← first]
          apply List.Perm.trans _ (List.perm_middle.symm.erase k)
          simp
      · rw [remove_node_gt greater, addresses_balance, addresses_node, addresses_node]
        have notLeft : k ∉ left.addresses := by
          intro kMem
          have le := below k kMem
          omega
        rw [List.erase_append_right _ notLeft, List.erase_cons_tail (by simp; omega)]
        exact ((rightIh rightOrdered).cons addr).append_left _

theorem IsOrdered.removemin {t : FakeRoots} (ordered : t.IsOrdered) : t.removemin.IsOrdered := by
  by_cases empty : t = null
  · subst empty
    exact ordered
  · rcases findmin_spec empty with ⟨self, addr, h, left, right, -, first⟩
    apply (ordered_iff_pairwise _).mpr
    have sorted : t.addresses.Pairwise (· ≤ ·) := (ordered_iff_pairwise _).mp ordered
    rw [first] at sorted
    exact (List.pairwise_cons.mp sorted).2

theorem IsOrdered.remove {t : FakeRoots} (ordered : t.IsOrdered) (k : Nat) :
    (t.remove k).IsOrdered := by
  induction t with
  | null => exact ordered
  | node self addr h left right leftIh rightIh =>
      rcases isOrdered_node.mp ordered with ⟨below, above, leftOrdered, rightOrdered⟩
      rcases Nat.lt_trichotomy k addr with less | same | greater
      · rw [remove_node_lt less]
        apply IsOrdered.balance
        apply isOrdered_node.mpr
        refine ⟨fun b bMem => below b ?_, above, leftIh leftOrdered, rightOrdered⟩
        exact List.mem_of_mem_erase ((addresses_remove leftOrdered k).mem_iff.mp bMem)
      · subst same
        rcases remove_node_self self k h left right with
          ⟨removed, -⟩ | ⟨minSelf, minAddr, minH, -, first, removed⟩
        · rw [removed]
          exact leftOrdered
        · rw [removed]
          apply IsOrdered.balance
          have sorted : right.addresses.Pairwise (· ≤ ·) :=
            (ordered_iff_pairwise _).mp rightOrdered
          rw [first] at sorted
          apply isOrdered_node.mpr
          refine ⟨fun b bMem => ?_, (List.pairwise_cons.mp sorted).1, leftOrdered,
            rightOrdered.removemin⟩
          have minAbove : k ≤ minAddr := above minAddr (first ▸ List.mem_cons_self)
          exact (below b bMem).trans minAbove
      · rw [remove_node_gt greater]
        apply IsOrdered.balance
        apply isOrdered_node.mpr
        refine ⟨below, fun b bMem => above b ?_, leftOrdered, rightIh rightOrdered⟩
        exact List.mem_of_mem_erase ((addresses_remove rightOrdered k).mem_iff.mp bMem)

/-- Every node stores the height of its tree, and its sides differ by one at most. -/
def Shaped : FakeRoots → Prop
  | null => True
  | node _ _ h left right =>
      h = max left.height right.height + 1 ∧ left.height ≤ right.height + 1 ∧
        right.height ≤ left.height + 1 ∧ left.Shaped ∧ right.Shaped

@[simp]
theorem shaped_null : null.Shaped := trivial

@[simp]
theorem shaped_node (self addr h : Nat) (left right : FakeRoots) :
    (node self addr h left right).Shaped ↔ h = max left.height right.height + 1 ∧
      left.height ≤ right.height + 1 ∧ right.height ≤ left.height + 1 ∧
        left.Shaped ∧ right.Shaped :=
  Iff.rfl

@[simp]
theorem height_null : null.height = 0 := rfl

@[simp]
theorem height_node (self addr h : Nat) (left right : FakeRoots) :
    (node self addr h left right).height = h := rfl

@[simp]
theorem bfactor_node (self addr h : Nat) (left right : FakeRoots) :
    (node self addr h left right).bfactor = (right.height : Int) - left.height := rfl

/-- The `unsigned char` does not wrap above low trees. -/
theorem fixheight_node (self addr h : Nat) (left right : FakeRoots) (leftLow : left.height < 255)
    (rightLow : right.height < 255) :
    (node self addr h left right).fixheight =
      node self addr (max left.height right.height + 1) left right := by
  have high : (if right.height < left.height then left.height else right.height) =
      max left.height right.height := by
    split <;> omega
  have small : (max left.height right.height + 1) % 256 = max left.height right.height + 1 := by
    omega
  simp only [fixheight, high, small]

theorem rotateright_node (p pAddr pHeight q qAddr qHeight : Nat) {a b c : FakeRoots}
    (aLow : a.height < 255) (bLow : b.height < 254) (cLow : c.height < 254) :
    (node p pAddr pHeight (node q qAddr qHeight a b) c).rotateright =
      node q qAddr (max a.height (max b.height c.height + 1) + 1) a
        (node p pAddr (max b.height c.height + 1) b c) := by
  simp only [rotateright]
  rw [fixheight_node p pAddr pHeight _ _ (by omega) (by omega),
    fixheight_node q qAddr qHeight _ _ aLow (by rw [height_node]; omega)]
  rfl

theorem rotateleft_node (p pAddr pHeight q qAddr qHeight : Nat) {a b c : FakeRoots}
    (aLow : a.height < 254) (bLow : b.height < 254) (cLow : c.height < 255) :
    (node q qAddr qHeight a (node p pAddr pHeight b c)).rotateleft =
      node p pAddr (max (max a.height b.height + 1) c.height + 1)
        (node q qAddr (max a.height b.height + 1) a b) c := by
  simp only [rotateleft]
  rw [fixheight_node q qAddr qHeight _ _ (by omega) (by omega),
    fixheight_node p pAddr pHeight _ _ (by rw [height_node]; omega) cLow]
  rfl

/-- Leaning to the right by two: one turn, or two if the right side leans to the left. -/
theorem balance_right (self addr h : Nat) {left right : FakeRoots} (low : right.height ≤ 250)
    (leftShaped : left.Shaped) (rightShaped : right.Shaped)
    (leans : right.height = left.height + 2) :
    (balance (node self addr h left right)).Shaped ∧
      right.height ≤ (balance (node self addr h left right)).height ∧
      (balance (node self addr h left right)).height ≤ right.height + 1 := by
  rcases right with _ | ⟨p, pAddr, pHeight, inner, outer⟩
  · rw [height_null] at leans
    omega
  simp only [height_node] at leans low ⊢
  rcases rightShaped with ⟨pEq, innerLow, outerLow, innerShaped, outerShaped⟩
  have fixed := fixheight_node self addr h left (node p pAddr pHeight inner outer)
    (by omega) (by rw [height_node]; omega)
  have two : (bfactor (node self addr (max left.height pHeight + 1) left
      (node p pAddr pHeight inner outer))) = 2 := by
    rw [bfactor_node, height_node]
    omega
  simp only [balance, fixed, height_node, two, if_true]
  by_cases twice : outer.height < inner.height
  · have negative : (node p pAddr pHeight inner outer).bfactor < 0 := by
      rw [bfactor_node]
      omega
    rcases inner with _ | ⟨m, mAddr, mHeight, b, c⟩
    · rw [height_null] at twice
      omega
    rcases innerShaped with ⟨mEq, bLow, cLow, bShaped, cShaped⟩
    simp only [height_node] at pEq innerLow outerLow twice
    rw [if_pos negative, rotateright_node _ _ _ _ _ _ (by omega) (by omega) (by omega),
      rotateleft_node _ _ _ _ _ _ (by omega) (by omega) (by rw [height_node]; omega)]
    simp only [shaped_node, height_node, true_and]
    refine ⟨⟨?_, ?_, ⟨?_, ?_, leftShaped, bShaped⟩, ⟨?_, ?_, cShaped, outerShaped⟩⟩, ?_, ?_⟩ <;>
      omega
  · have notNegative : ¬ (node p pAddr pHeight inner outer).bfactor < 0 := by
      rw [bfactor_node]
      omega
    rw [if_neg notNegative, rotateleft_node _ _ _ _ _ _ (by omega) (by omega) (by omega)]
    simp only [shaped_node, height_node, true_and]
    refine ⟨⟨?_, ?_, ⟨?_, ?_, leftShaped, innerShaped⟩, outerShaped⟩, ?_, ?_⟩ <;> omega

/-- Leaning to the left by two: one turn, or two if the left side leans to the right. -/
theorem balance_left (self addr h : Nat) {left right : FakeRoots} (low : left.height ≤ 250)
    (leftShaped : left.Shaped) (rightShaped : right.Shaped)
    (leans : left.height = right.height + 2) :
    (balance (node self addr h left right)).Shaped ∧
      left.height ≤ (balance (node self addr h left right)).height ∧
      (balance (node self addr h left right)).height ≤ left.height + 1 := by
  rcases left with _ | ⟨q, qAddr, qHeight, outer, inner⟩
  · rw [height_null] at leans
    omega
  simp only [height_node] at leans low ⊢
  rcases leftShaped with ⟨qEq, outerLow, innerLow, outerShaped, innerShaped⟩
  have fixed := fixheight_node self addr h (node q qAddr qHeight outer inner) right
    (by rw [height_node]; omega) (by omega)
  have notTwo : ¬ (bfactor (node self addr (max qHeight right.height + 1)
      (node q qAddr qHeight outer inner) right)) = 2 := by
    rw [bfactor_node, height_node]
    omega
  have minusTwo : (bfactor (node self addr (max qHeight right.height + 1)
      (node q qAddr qHeight outer inner) right)) = -2 := by
    rw [bfactor_node, height_node]
    omega
  simp only [balance, fixed, height_node, if_neg notTwo, if_pos minusTwo]
  by_cases twice : outer.height < inner.height
  · have positive : (node q qAddr qHeight outer inner).bfactor > 0 := by
      rw [bfactor_node]
      omega
    rcases inner with _ | ⟨m, mAddr, mHeight, b, c⟩
    · rw [height_null] at twice
      omega
    rcases innerShaped with ⟨mEq, bLow, cLow, bShaped, cShaped⟩
    simp only [height_node] at qEq innerLow outerLow twice
    rw [if_pos positive, rotateleft_node _ _ _ _ _ _ (by omega) (by omega) (by omega),
      rotateright_node _ _ _ _ _ _ (by rw [height_node]; omega) (by omega) (by omega)]
    simp only [shaped_node, height_node, true_and]
    refine ⟨⟨?_, ?_, ⟨?_, ?_, outerShaped, bShaped⟩, ⟨?_, ?_, cShaped, rightShaped⟩⟩, ?_, ?_⟩ <;>
      omega
  · have notPositive : ¬ (node q qAddr qHeight outer inner).bfactor > 0 := by
      rw [bfactor_node]
      omega
    rw [if_neg notPositive, rotateright_node _ _ _ _ _ _ (by omega) (by omega) (by omega)]
    simp only [shaped_node, height_node, true_and]
    refine ⟨⟨?_, ?_, outerShaped, ⟨?_, ?_, innerShaped, rightShaped⟩⟩, ?_, ?_⟩ <;> omega

/-- `balance` of a node whose sides differ by one at most only corrects its height. -/
theorem balance_level {self addr h : Nat} {left right : FakeRoots} (leftLow : left.height ≤ 250)
    (rightLow : right.height ≤ 250) (leftLe : left.height ≤ right.height + 1)
    (rightLe : right.height ≤ left.height + 1) :
    balance (node self addr h left right) =
      node self addr (max left.height right.height + 1) left right := by
  have fixed := fixheight_node self addr h left right (by omega) (by omega)
  have notTwo : ¬ (bfactor (node self addr (max left.height right.height + 1) left right)) = 2 := by
    rw [bfactor_node]
    omega
  have notMinusTwo :
      ¬ (bfactor (node self addr (max left.height right.height + 1) left right)) = -2 := by
    rw [bfactor_node]
    omega
  simp only [balance, fixed, if_neg notTwo, if_neg notMinusTwo]

/-- What `balance` does to sides that differ by two at most, as they do after one insertion or
removal. -/
theorem balance_shaped (self addr h : Nat) {left right : FakeRoots} (leftLow : left.height ≤ 250)
    (rightLow : right.height ≤ 250) (leftShaped : left.Shaped) (rightShaped : right.Shaped)
    (leftLe : left.height ≤ right.height + 2) (rightLe : right.height ≤ left.height + 2) :
    (balance (node self addr h left right)).Shaped ∧
      max left.height right.height ≤ (balance (node self addr h left right)).height ∧
      (balance (node self addr h left right)).height ≤ max left.height right.height + 1 ∧
      (left.height ≤ right.height + 1 → right.height ≤ left.height + 1 →
        (balance (node self addr h left right)).height =
          max left.height right.height + 1) := by
  by_cases leansRight : right.height = left.height + 2
  · obtain ⟨shaped, low, high⟩ :=
      balance_right self addr h rightLow leftShaped rightShaped leansRight
    refine ⟨shaped, ?_, ?_, ?_⟩ <;> omega
  by_cases leansLeft : left.height = right.height + 2
  · obtain ⟨shaped, low, high⟩ := balance_left self addr h leftLow leftShaped rightShaped leansLeft
    refine ⟨shaped, ?_, ?_, ?_⟩ <;> omega
  · rw [balance_level leftLow rightLow (by omega) (by omega)]
    exact ⟨⟨rfl, by omega, by omega, leftShaped, rightShaped⟩, Nat.le_succ _, le_rfl,
      fun _ _ => rfl⟩

/-- An insertion makes a tree higher by one at most. -/
theorem insert_shaped {t : FakeRoots} (shaped : t.Shaped) (low : t.height ≤ 249)
    (newNode k : Nat) : (t.insert newNode k).Shaped ∧ t.height ≤ (t.insert newNode k).height ∧
      (t.insert newNode k).height ≤ t.height + 1 := by
  induction t with
  | null => exact ⟨⟨rfl, by simp, by simp, trivial, trivial⟩, by simp [insert], by simp [insert]⟩
  | node self addr h left right leftIh rightIh =>
      rcases shaped with ⟨hEq, leftLe, rightLe, leftShaped, rightShaped⟩
      rw [height_node] at low ⊢
      simp only [insert]
      split
      · rcases leftIh leftShaped (by omega) with ⟨newShaped, newLow, newHigh⟩
        obtain ⟨balanced, atLeast, atMost, level⟩ := balance_shaped self addr h (by omega)
          (by omega) newShaped rightShaped (by omega) (by omega)
        exact ⟨balanced, by omega, by omega⟩
      · rcases rightIh rightShaped (by omega) with ⟨newShaped, newLow, newHigh⟩
        obtain ⟨balanced, atLeast, atMost, level⟩ := balance_shaped self addr h (by omega)
          (by omega) leftShaped newShaped (by omega) (by omega)
        exact ⟨balanced, by omega, by omega⟩

theorem removemin_shaped {t : FakeRoots} (shaped : t.Shaped) (low : t.height ≤ 250) :
    t.removemin.Shaped ∧ t.removemin.height ≤ t.height ∧ t.height ≤ t.removemin.height + 1 := by
  induction t with
  | null => exact ⟨trivial, by simp [removemin], by simp [removemin]⟩
  | node self addr h left right leftIh rightIh =>
      rcases shaped with ⟨hEq, leftLe, rightLe, leftShaped, rightShaped⟩
      rw [height_node] at low ⊢
      cases left with
      | null =>
          simp only [removemin]
          rw [height_null] at hEq leftLe rightLe
          exact ⟨rightShaped, by omega, by omega⟩
      | node leftSelf leftAddr leftH leftLeft leftRight =>
          rcases leftIh leftShaped (by omega) with ⟨newShaped, newHigh, newLow⟩
          obtain ⟨balanced, atLeast, atMost, level⟩ := balance_shaped self addr h (by omega)
            (by omega) newShaped rightShaped (by omega) (by omega)
          simp only [removemin]
          exact ⟨balanced, by omega, by omega⟩

/-- A removal makes a tree lower by one at most. -/
theorem remove_shaped {t : FakeRoots} (shaped : t.Shaped) (low : t.height ≤ 250) (k : Nat) :
    (t.remove k).Shaped ∧ (t.remove k).height ≤ t.height ∧
      t.height ≤ (t.remove k).height + 1 := by
  induction t with
  | null => exact ⟨trivial, by simp [remove], by simp [remove]⟩
  | node self addr h left right leftIh rightIh =>
      rcases shaped with ⟨hEq, leftLe, rightLe, leftShaped, rightShaped⟩
      rw [height_node] at low ⊢
      rcases Nat.lt_trichotomy k addr with less | same | greater
      · rw [remove_node_lt less]
        rcases leftIh leftShaped (by omega) with ⟨newShaped, newHigh, newLow⟩
        obtain ⟨balanced, atLeast, atMost, level⟩ := balance_shaped self addr h (by omega)
          (by omega) newShaped rightShaped (by omega) (by omega)
        exact ⟨balanced, by omega, by omega⟩
      · subst same
        rcases remove_node_self self k h left right with
          ⟨removed, empty⟩ | ⟨minSelf, minAddr, minH, -, -, removed⟩
        · rw [removed]
          rw [empty, height_null] at hEq leftLe
          exact ⟨leftShaped, by omega, by omega⟩
        · rw [removed]
          rcases removemin_shaped rightShaped (by omega) with ⟨newShaped, newHigh, newLow⟩
          obtain ⟨balanced, atLeast, atMost, level⟩ := balance_shaped minSelf minAddr minH
            (by omega) (by omega) leftShaped newShaped (by omega) (by omega)
          exact ⟨balanced, by omega, by omega⟩
      · rw [remove_node_gt greater]
        rcases rightIh rightShaped (by omega) with ⟨newShaped, newHigh, newLow⟩
        obtain ⟨balanced, atLeast, atMost, level⟩ := balance_shaped self addr h (by omega)
          (by omega) leftShaped newShaped (by omega) (by omega)
        exact ⟨balanced, by omega, by omega⟩

theorem Shaped.height_toTree {t : FakeRoots} (shaped : t.Shaped) : t.toTree.height = t.height := by
  induction t with
  | null => rfl
  | node self addr h left right leftIh rightIh =>
      rcases shaped with ⟨hEq, -, -, leftShaped, rightShaped⟩
      simp only [toTree, BinaryTree.height, leftIh leftShaped, rightIh rightShaped, height_node,
        hEq]

theorem Shaped.balanced {t : FakeRoots} (shaped : t.Shaped) : Balanced t.toTree := by
  induction t with
  | null => trivial
  | node self addr h left right leftIh rightIh =>
      rcases shaped with ⟨-, leftLe, rightLe, leftShaped, rightShaped⟩
      refine ⟨?_, ?_, leftIh leftShaped, rightIh rightShaped⟩
      · rw [leftShaped.height_toTree, rightShaped.height_toTree]
        exact leftLe
      · rw [leftShaped.height_toTree, rightShaped.height_toTree]
        exact rightLe

/-- Fewer than `2^64` nodes fill less than 92 levels. -/
theorem Shaped.height_lt {t : FakeRoots} (shaped : t.Shaped) (few : t.addresses.length < 2 ^ 64) :
    t.height < 92 := by
  rw [← shaped.height_toTree]
  apply shaped.balanced.height_lt
  have nodes : t.addresses.length = t.toTree.numNodes := length_inorder t.toTree
  have fib : 2 ^ 64 < Nat.fib (92 + 2) := by norm_num
  omega

/-- A call of `register_object`, with the node that `malloc` returns, or of `unregister_object`. -/
inductive Request where
  | register (newNode p : Nat)
  | unregister (p : Nat)
deriving DecidableEq, Repr

/-- The tree after a request. -/
def serve (fakeRoots : FakeRoots) : Request → FakeRoots
  | .register newNode p => registerObject newNode p fakeRoots
  | .unregister p => unregisterObject p fakeRoots

/-- The tree after the requests, from the empty one. -/
def serveAll (requests : List Request) : FakeRoots := requests.foldl serve null

/-- The registrations that a request leaves. -/
def account (registered : Multiset Nat) : Request → Multiset Nat
  | .register _ p => p ::ₘ registered
  | .unregister p => registered.erase p

/-- The registrations after the requests: each `unregister_object` takes one occurrence of its
address away, if there is one. -/
def registrations (requests : List Request) : Multiset Nat := requests.foldl account 0

/-- The trees of a tree, itself included. -/
def subtrees : FakeRoots → List FakeRoots
  | null => []
  | node self addr h left right => node self addr h left right :: (left.subtrees ++ right.subtrees)

/-- What the requests leave behind, while the nodes are few. -/
theorem serveAll_spec (requests : List Request)
    (few : ∀ done, done <+: requests → (registrations done).card < 2 ^ 64) :
    (serveAll requests).IsOrdered ∧ (serveAll requests).Shaped ∧
      ((serveAll requests).addresses : Multiset Nat) = registrations requests := by
  induction requests using List.reverseRecOn with
  | nil => exact ⟨trivial, trivial, rfl⟩
  | append_singleton requests request ih =>
      have fewBefore : ∀ done, done <+: requests → (registrations done).card < 2 ^ 64 :=
        fun done isPrefix => few done (isPrefix.trans (List.prefix_append _ _))
      rcases ih fewBefore with ⟨ordered, shaped, same⟩
      have low : (serveAll requests).height < 92 := by
        apply shaped.height_lt
        have card := fewBefore requests List.prefix_rfl
        rw [← same, Multiset.coe_card] at card
        exact card
      have tree : serveAll (requests ++ [request]) = (serveAll requests).serve request := by
        rw [serveAll, List.foldl_concat, serveAll]
      have left : registrations (requests ++ [request]) =
          account (registrations requests) request := by
        rw [registrations, List.foldl_concat, registrations]
      rw [tree, left, ← same]
      cases request with
      | register newNode p =>
          refine ⟨ordered.insert newNode p, (insert_shaped shaped (by omega) newNode p).1, ?_⟩
          exact Multiset.coe_eq_coe.mpr (addresses_insert newNode p _)
      | unregister p =>
          refine ⟨ordered.remove p, (remove_shaped shaped (by omega) p).1, ?_⟩
          rw [account, Multiset.coe_erase]
          exact Multiset.coe_eq_coe.mpr (addresses_remove ordered p)

theorem Shaped.subtrees {t s : FakeRoots} (shaped : t.Shaped) (mem : s ∈ t.subtrees) :
    s.Shaped ∧ s.height ≤ t.height := by
  induction t with
  | null => cases mem
  | node self addr h left right leftIh rightIh =>
      rcases List.mem_cons.mp mem with same | inside
      · rw [same]
        exact ⟨shaped, le_rfl⟩
      · rcases shaped with ⟨hEq, -, -, leftShaped, rightShaped⟩
        rw [height_node]
        rcases List.mem_append.mp inside with inLeft | inRight
        · have ⟨subShaped, le⟩ := leftIh leftShaped inLeft
          exact ⟨subShaped, by omega⟩
        · have ⟨subShaped, le⟩ := rightIh rightShaped inRight
          exact ⟨subShaped, by omega⟩

theorem Shaped.bfactor_mem {s : FakeRoots} (shaped : s.Shaped) :
    s.bfactor ∈ ([-1, 0, 1] : List Int) := by
  cases s with
  | null => simp [bfactor]
  | node self addr h left right =>
      rcases shaped with ⟨-, leftLe, rightLe, -, -⟩
      rw [bfactor_node]
      simp only [List.mem_cons, List.not_mem_nil, or_false]
      omega

/-- After every sequence of registrations and removals the fake roots are a search tree in address
order, balanced, with exact heights that fit an `unsigned char`, and hold the registrations that
are left. -/
theorem serveAll_avl (requests : List Request)
    (few : ∀ done, done <+: requests → (registrations done).card < 2 ^ 64) :
    (serveAll requests).IsOrdered ∧
      (∀ s ∈ (serveAll requests).subtrees, s.bfactor ∈ ([-1, 0, 1] : List Int)) ∧
      (∀ s ∈ (serveAll requests).subtrees, s.height = s.toTree.height ∧ s.toTree.height ≤ 255) ∧
      ((serveAll requests).addresses : Multiset Nat) = registrations requests := by
  rcases serveAll_spec requests few with ⟨ordered, shaped, same⟩
  refine ⟨ordered, fun s mem => (shaped.subtrees mem).1.bfactor_mem, fun s mem => ?_, same⟩
  rcases shaped.subtrees mem with ⟨subShaped, le⟩
  have low : (serveAll requests).height < 92 := by
    apply shaped.height_lt
    have card := few requests List.prefix_rfl
    rw [← same, Multiset.coe_card] at card
    exact card
  rw [subShaped.height_toTree]
  exact ⟨rfl, by omega⟩

/-- One address registered three times, and taken away once, and another that was not registered. -/
theorem serveAll_avl_duplicates :
    (∀ s ∈ (serveAll [.register 64 8, .register 96 8, .register 128 8, .unregister 8,
        .unregister 9]).subtrees, s.bfactor ∈ ([-1, 0, 1] : List Int)) ∧
      ((serveAll [.register 64 8, .register 96 8, .register 128 8, .unregister 8,
        .unregister 9]).addresses : Multiset Nat) = {8, 8} := by
  have few : ∀ done ∈ List.inits ([.register 64 8, .register 96 8, .register 128 8,
      .unregister 8, .unregister 9] : List Request), (registrations done).card < 2 ^ 64 := by
    decide
  have avl := serveAll_avl [.register 64 8, .register 96 8, .register 128 8, .unregister 8,
    .unregister 9] fun done isPrefix => few done ((List.mem_inits _ _).mpr isPrefix)
  exact ⟨avl.2.1, avl.2.2.2⟩

end PreciseGc.FakeRoots

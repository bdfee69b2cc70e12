import Mathlib.Data.List.Perm.Basic

/-!
# Fake roots

`register_object` enters the address of a `gc_ptr` outside the thread stacks
into an AVL tree ordered by address.  The nodes come from `malloc`.
-/

namespace PreciseGc

/-- A tree of nodes.  `self` is the address of the node, `addr` the registered address. -/
inductive FakeRoots where
  | null
  | node (self addr height : Nat) (left right : FakeRoots)
deriving DecidableEq, Repr

namespace FakeRoots

/-- `height(p)`. -/
def height : FakeRoots → Nat
  | null => 0
  | node _ _ h _ _ => h

/-- `bfactor(p)`. -/
def bfactor : FakeRoots → Int
  | null => 0
  | node _ _ _ left right => (right.height : Int) - left.height

/-- `fixheight(p)`; the field is an `unsigned char`. -/
def fixheight : FakeRoots → FakeRoots
  | null => null
  | node self addr _ left right =>
      let hl := left.height
      let hr := right.height
      node self addr (((if hr < hl then hl else hr) + 1) % 256) left right

/-- `rotateright(p)`, for a node with a left child. -/
def rotateright : FakeRoots → FakeRoots
  | node p pAddr pHeight (node q qAddr qHeight a b) c =>
      let moved := (node p pAddr pHeight b c).fixheight
      (node q qAddr qHeight a moved).fixheight
  | t => t

/-- `rotateleft(q)`, for a node with a right child. -/
def rotateleft : FakeRoots → FakeRoots
  | node q qAddr qHeight a (node p pAddr pHeight b c) =>
      let moved := (node q qAddr qHeight a b).fixheight
      (node p pAddr pHeight moved c).fixheight
  | t => t

/-- `balance(p)`. -/
def balance (p : FakeRoots) : FakeRoots :=
  match p.fixheight with
  | null => null
  | node self addr h left right =>
      if (node self addr h left right).bfactor = 2 then
        rotateleft (node self addr h left (if right.bfactor < 0 then right.rotateright else right))
      else if (node self addr h left right).bfactor = -2 then
        rotateright (node self addr h (if left.bfactor > 0 then left.rotateleft else left) right)
      else node self addr h left right

/-- `insert(p, k)`, where `newNode` is the node that `malloc` returns. -/
def insert (newNode : Nat) : FakeRoots → Nat → FakeRoots
  | null, k => node newNode k 1 null null
  | node self addr h left right, k =>
      if k < addr then balance (node self addr h (left.insert newNode k) right)
      else balance (node self addr h left (right.insert newNode k))

/-- `findmin(p)`: the node with the least address, of a tree that is not empty. -/
def findmin : FakeRoots → FakeRoots
  | null => null
  | node self addr h null right => node self addr h null right
  | node _ _ _ left _ => left.findmin

/-- `removemin(p)`. -/
def removemin : FakeRoots → FakeRoots
  | null => null
  | node _ _ _ null right => right
  | node self addr h left right => balance (node self addr h left.removemin right)

/-- `remove(p, k)`. -/
def remove : FakeRoots → Nat → FakeRoots
  | null, _ => null
  | node self addr h left right, k =>
      if k < addr then balance (node self addr h (left.remove k) right)
      else if addr < k then balance (node self addr h left (right.remove k))
      else
        match right, right.findmin with
        | null, _ => left
        | _, node minSelf minAddr minHeight _ _ =>
            balance (node minSelf minAddr minHeight left right.removemin)
        | _, null => left

/-- `register_object(p)`. -/
def registerObject (newNode p : Nat) (fakeRoots : FakeRoots) : FakeRoots :=
  fakeRoots.insert newNode p

/-- `unregister_object(p)`. -/
def unregisterObject (p : Nat) (fakeRoots : FakeRoots) : FakeRoots := fakeRoots.remove p

/-- The nodes with the addresses registered in them, in the order in which `mark_node` visits
them. -/
def nodes : FakeRoots → List (Nat × Nat)
  | null => []
  | node self addr _ left right => (self, addr) :: (left.nodes ++ right.nodes)

@[simp]
theorem nodes_fixheight (t : FakeRoots) : t.fixheight.nodes = t.nodes := by
  cases t <;> rfl

theorem nodes_rotateright (t : FakeRoots) : t.rotateright.nodes.Perm t.nodes := by
  unfold rotateright
  split
  · simp only [nodes_fixheight, nodes]
    grind
  · exact List.Perm.refl _

theorem nodes_rotateleft (t : FakeRoots) : t.rotateleft.nodes.Perm t.nodes := by
  unfold rotateleft
  split
  · simp only [nodes_fixheight, nodes]
    grind
  · exact List.Perm.refl _

theorem nodes_balance (t : FakeRoots) : t.balance.nodes.Perm t.nodes := by
  have fixed := nodes_fixheight t
  unfold balance
  split
  · rename_i empty
    rw [← fixed, empty]
  · rename_i self addr h left right shape
    rw [← fixed, shape]
    split
    · apply (nodes_rotateleft _).trans
      simp only [nodes]
      split
      · exact ((nodes_rotateright right).append_left left.nodes).cons _
      · exact List.Perm.refl _
    · split
      · apply (nodes_rotateright _).trans
        simp only [nodes]
        split
        · exact ((nodes_rotateleft left).append_right right.nodes).cons _
        · exact List.Perm.refl _
      · exact List.Perm.refl _

/-- Registering an address adds one node. -/
theorem nodes_insert (newNode k : Nat) (t : FakeRoots) :
    (t.insert newNode k).nodes.Perm ((newNode, k) :: t.nodes) := by
  induction t with
  | null => exact List.Perm.refl _
  | node self addr h left right leftIh rightIh =>
      simp only [insert]
      split
      · apply (nodes_balance _).trans
        simp only [nodes]
        exact ((leftIh.append_right right.nodes).cons _).trans (List.Perm.swap _ _ _)
      · apply (nodes_balance _).trans
        simp only [nodes]
        grind

end FakeRoots

end PreciseGc

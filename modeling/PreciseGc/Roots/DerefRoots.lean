import PreciseGc.Mark.Traversal

/-!
# The table of dereferenced roots

`operator->` and `operator[]` hand out raw references.  Each registers the
range of the object in a hash table keyed by the start of the object.  A
collection looks up every word of the thread stacks in this table, marks the
handler it finds and pins the object of the handler.
-/

namespace PreciseGc

open Foundation

/-- A `root_handler` at the address `self`; `stop` is its field `end`.  The mark is bit 0 of `p`. -/
structure RootHandler where
  self : Nat
  p : Nat
  stop : Nat
deriving DecidableEq, Repr

namespace RootHandler

/-- `deref_mark(h)`. -/
def mark (handler : RootHandler) : RootHandler := { handler with p := handler.p ||| 1 }

/-- `deref_unmark(h)`. -/
def unmark (handler : RootHandler) : RootHandler := { handler with p := clear handler.p 1 }

/-- `deref_is_marked(h)`. -/
def isMarked (handler : RootHandler) : Bool := hasFlag handler.p 1

/-- `plain_pointer(h)`. -/
def plainPointer (handler : RootHandler) : Nat := clear handler.p 1

/-- `contains(h, p)`. -/
def contains (handler : RootHandler) (p : Nat) : Bool :=
  handler.plainPointer ≤ p && p ≤ handler.stop

end RootHandler

def sizeofRootHandler : Nat := 24

/-- `N`, the number of chains. -/
def numberOfRoots : Nat := 100003

def mmapCount : Nat := 4096 * 128

/-- The hash of an address. -/
def hashOfRoot (root : Nat) : Nat := root / 8 % numberOfRoots

/-- The statics of `deref_roots.cpp`: the chains `roots[i]`, and the records on `free_list`. -/
structure DerefRoots where
  roots : Nat → List RootHandler := fun _ => []
  freeList : List Nat := []
  count : Nat := 0
  totalCount : Nat := 0
  expandCount : Nat := 0
  expandFactor : Nat := 8

namespace DerefRoots

/-- The records of a fresh mapping at `space`, as the loop of `register_dereferenced_root` puts them
on `free_list`; `n` are left. -/
def newRecords (space : Nat) : (n : Nat) → List Nat
  | 0 => []
  | n + 1 => (space + n * sizeofRootHandler) :: newRecords space n

/-- The refill of `free_list`, from a mapping at `space`. -/
def refill (space : Option Nat) (t : DerefRoots) : Except Fault DerefRoots :=
  match t.freeList, space with
  | _ :: _, _ => .ok t
  | [], none => .error .mapFailed
  | [], some space =>
      .ok { t with
        freeList := newRecords space mmapCount
        totalCount := t.totalCount + mmapCount }

/-- Entering a range with the first record of `free_list`, and whether a partial collection is
due. -/
def enter (root size : Nat) (t : DerefRoots) : Bool × DerefRoots :=
  let data : RootHandler := ⟨t.freeList.headD 0, root, ptrAdd root size⟩
  let hash := hashOfRoot root
  let t := { t with
    freeList := t.freeList.tail
    roots := Function.update t.roots hash (data :: t.roots hash)
    count := t.count + 1 }
  if t.count = t.totalCount then
    let t := { t with expandCount := t.expandCount + 1 }
    (t.expandCount % t.expandFactor == 0, t)
  else (false, t)

/-- The part of `register_dereferenced_root(root, size)` under `deref_mutex`. -/
def register (space : Option Nat) (root size : Nat) (t : DerefRoots) :
    Except Fault (Bool × DerefRoots) :=
  if root = 0 then .ok (false, t)
  else t.refill space >>= fun t => .ok (t.enter root size)

/-- The handlers `sweep_dereferenced_roots` removes, in its order. -/
def unmarkedHandlers (t : DerefRoots) : List RootHandler :=
  (List.range numberOfRoots).flatMap fun i => (t.roots i).filter fun handler => !handler.isMarked

/-- `sweep_dereferenced_roots()`. -/
def sweep (t : DerefRoots) : DerefRoots :=
  { t with
    roots := fun i => ((t.roots i).filter RootHandler.isMarked).map RootHandler.unmark
    freeList := (t.unmarkedHandlers.map RootHandler.self).reverse ++ t.freeList
    count := t.count - t.unmarkedHandlers.length }

end DerefRoots

end PreciseGc

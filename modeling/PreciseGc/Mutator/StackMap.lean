import Mathlib.Data.List.Perm.Basic
import Mathlib.Data.List.Range

/-!
# The roots of a thread

A `StackMap` is a linked list of elements, each with the address of one
`gc_ptr`.  Elements that are not in use wait on a free list, which `mmap` fills
a page at a time.  The elements are numbered in the order in which they were
mapped.
-/

namespace PreciseGc

/-- A `StackElement` in use. -/
structure StackElement where
  self : Nat
  addr : Nat
deriving DecidableEq, Repr

/-- A `StackMap`: the elements from `top` on, the free ones, and how many were mapped. -/
structure StackMap where
  top : List StackElement
  freeList : List Nat
  mapped : Nat
deriving DecidableEq, Repr

namespace StackMap

/-- `ELEM_PER_PAGE`. -/
def elemPerPage : Nat := 4096 / 16

/-- The map of a thread that starts. -/
def empty : StackMap := { top := [], freeList := [], mapped := 0 }

/-- The addresses that `begin()` leads to. -/
def addresses (s : StackMap) : List Nat := s.top.map StackElement.addr

/-- The free list of `register_stack_root` after it was filled, if it was empty. -/
def fill (s : StackMap) : StackMap :=
  if s.freeList = [] then
    { s with
      freeList := (List.range' s.mapped elemPerPage).reverse
      mapped := s.mapped + elemPerPage }
  else s

/-- `register_stack_root(newAddr)`. -/
def registerStackRoot (newAddr : Nat) (s : StackMap) : StackMap :=
  match s.fill.freeList with
  | [] => s.fill
  | result :: rest =>
      { s.fill with freeList := rest, top := { self := result, addr := newAddr } :: s.fill.top }

/-- The loop of `delete_stack_root`: the first element with this address takes that of the top. -/
def overwrite (address topAddr : Nat) : List StackElement → List StackElement
  | [] => []
  | temp :: rest =>
      if temp.addr = address then { temp with addr := topAddr } :: rest
      else temp :: overwrite address topAddr rest

/-- `delete_stack_root(address)`, which reads `top` even if the list is empty.  The top element is
dropped in any case, also when the address is on none. -/
def deleteStackRoot (address : Nat) (s : StackMap) : Option StackMap :=
  match s.top with
  | [] => none
  | deleted :: rest =>
      some { s with
        top := if deleted.addr = address then rest else overwrite address deleted.addr rest
        freeList := deleted.self :: s.freeList }

@[simp]
theorem addresses_empty : empty.addresses = [] := rfl

@[simp]
theorem top_fill (s : StackMap) : s.fill.top = s.top := by
  unfold fill
  split <;> rfl

theorem fill_freeList_ne_nil (s : StackMap) : s.fill.freeList ≠ [] := by
  unfold fill
  split
  · simp [elemPerPage]
  · assumption

@[simp]
theorem addresses_registerStackRoot (newAddr : Nat) (s : StackMap) :
    (s.registerStackRoot newAddr).addresses = newAddr :: s.addresses := by
  unfold registerStackRoot
  split
  · exact absurd (by assumption) s.fill_freeList_ne_nil
  · simp [addresses]

theorem perm_overwrite {address topAddr : Nat} {elements : List StackElement}
    (mem : address ∈ elements.map StackElement.addr) :
    ((overwrite address topAddr elements).map StackElement.addr).Perm
      (topAddr :: (elements.map StackElement.addr).erase address) := by
  induction elements with
  | nil => cases mem
  | cons temp rest ih =>
      rw [overwrite]
      by_cases here : temp.addr = address
      · simp [here]
      · have later : address ∈ rest.map StackElement.addr := by
          rcases List.mem_cons.mp mem with same | later
          · exact absurd same.symm here
          · exact later
        rw [if_neg here, List.map_cons, List.map_cons, List.erase_cons_tail (by simpa using here)]
        exact ((ih later).cons temp.addr).trans (List.Perm.swap _ _ _)

/-- An address that is registered is deleted once, whatever is on top. -/
theorem deleteStackRoot_spec {address : Nat} {s : StackMap} (mem : address ∈ s.addresses) :
    ∃ s', s.deleteStackRoot address = some s' ∧
      s'.addresses.Perm (s.addresses.erase address) := by
  unfold deleteStackRoot
  rcases s with ⟨top, freeList, mapped⟩
  cases top with
  | nil => cases mem
  | cons deleted rest =>
      refine ⟨_, rfl, ?_⟩
      by_cases onTop : deleted.addr = address
      · simp [addresses, onTop]
      · have later : address ∈ rest.map StackElement.addr := by
          rcases List.mem_cons.mp mem with same | later
          · exact absurd same.symm onTop
          · exact later
        simp only [addresses, if_neg onTop, List.map_cons]
        rw [List.erase_cons_tail (by simpa using onTop)]
        exact perm_overwrite later

/-- Every element that was mapped is in use or free, and in one place only. -/
def Conserved (s : StackMap) : Prop :=
  (s.top.map StackElement.self ++ s.freeList).Perm (List.range s.mapped)

theorem conserved_empty : empty.Conserved := List.Perm.refl _

@[simp]
theorem map_self_overwrite (address topAddr : Nat) (elements : List StackElement) :
    (overwrite address topAddr elements).map StackElement.self =
      elements.map StackElement.self := by
  induction elements with
  | nil => rfl
  | cons temp rest ih =>
      simp only [overwrite]
      split
      · rfl
      · simp [ih]

theorem Conserved.fill {s : StackMap} (conserved : s.Conserved) : s.fill.Conserved := by
  unfold StackMap.fill
  split
  · rename_i empty
    have used : (s.top.map StackElement.self).Perm (List.range s.mapped) := by
      simpa [Conserved, empty] using conserved
    have new : (List.range' s.mapped elemPerPage).reverse.Perm
        ((List.range elemPerPage).map (s.mapped + ·)) := by
      rw [List.range'_eq_map_range]
      exact List.reverse_perm _
    simp only [Conserved, List.range_add]
    exact used.append new
  · exact conserved

theorem Conserved.registerStackRoot {s : StackMap} (conserved : s.Conserved) (newAddr : Nat) :
    (s.registerStackRoot newAddr).Conserved := by
  have filled := conserved.fill
  unfold StackMap.registerStackRoot
  split
  · exact filled
  · rename_i result rest free
    simp only [Conserved, free] at filled
    exact List.perm_middle.symm.trans filled

theorem Conserved.deleteStackRoot {s s' : StackMap} {address : Nat} (conserved : s.Conserved)
    (deleted : s.deleteStackRoot address = some s') : s'.Conserved := by
  unfold StackMap.deleteStackRoot at deleted
  split at deleted
  · cases deleted
  · rename_i top rest onTop
    cases deleted
    simp only [Conserved, onTop] at conserved
    have selves : (if top.addr = address then rest
        else overwrite address top.addr rest).map StackElement.self =
          rest.map StackElement.self := by
      split
      · rfl
      · exact map_self_overwrite ..
    simp only [Conserved, selves]
    exact List.perm_middle.trans conserved

end StackMap

end PreciseGc

import PreciseGc.Mutator.Dereference
import PreciseGc.Mutator.StackFlags
import PreciseGc.Roots.HeapStores

/-!
# Operations on plain pointers

On `gc_ptr`s without a composite pointer the constructors, the destructor, the
assignment and `setNULL` write one word each, and register or delete one root.
The word they write designates what the word they read does.
-/

namespace PreciseGc

open Foundation Memory

variable {h : Heap} {b w w' w'' x : Nat}

/-- A write to a word of the memory. -/
theorem write_eq_update (m : Memory) (x value : Nat) :
    m.write x value = Function.update m x value := by
  funext y
  by_cases same : y = x
  · rw [same, write_same, Function.update_self]
  · rw [write_of_ne same, Function.update_of_ne same]

/-- The words are both plain or both not, and lead to the same address. -/
structure SamePointer (w w' : Nat) : Prop where
  plain : isCompositePointer w' = isCompositePointer w
  address : clearBothFlags w' = clearBothFlags w

namespace SamePointer

theorem refl (w : Nat) : SamePointer w w := ⟨rfl, rfl⟩

theorem trans (first : SamePointer w w') (second : SamePointer w' w'') : SamePointer w w'' :=
  ⟨second.plain.trans first.plain, second.address.trans first.address⟩

theorem isNull_iff (same : SamePointer w w') : IsNull w' ↔ IsNull w := by
  simp only [IsNull, same.plain, same.address]

theorem designates_iff (same : SamePointer w w') : Designates w' b ↔ Designates w b := by
  simp only [Designates, same.plain, same.address]

theorem plainWord (same : SamePointer w w') (word : PlainWord h w) : PlainWord h w' := by
  rcases word with null | ⟨b, isObject, designates⟩
  · exact Or.inl (same.isNull_iff.mpr null)
  · exact Or.inr ⟨b, isObject, same.designates_iff.mpr designates⟩

theorem pointee_eq (same : SamePointer w w') : pointee w' = pointee w := by
  simp only [pointee, same.address]

/-- The words agree above the stack flag. -/
theorem of_residue (high : w' / 8 = w / 8)
    (plain : hasFlag (w' % 8) compositeBit = hasFlag (w % 8) compositeBit)
    (low : clear (w' % 8) bothBits = clear (w % 8) bothBits) : SamePointer w w' where
  plain := by
    unfold isCompositePointer
    rw [hasFlag_residue (by decide), hasFlag_residue (by decide) w]
    exact plain
  address := by
    have high' : clearBothFlags w' / 8 = clearBothFlags w / 8 := by
      unfold clearBothFlags
      rw [clear_div_eight (by decide), clear_div_eight (by decide), high]
    have low' : clearBothFlags w' % 8 = clearBothFlags w % 8 := by
      unfold clearBothFlags
      rw [clear_mod_eight (by decide), clear_mod_eight (by decide) w, low]
    omega

theorem setStackFlag (w : Nat) : SamePointer w (Mutator.setStackFlag w) := by
  apply of_residue (or_div_eight (by decide) w)
  · rw [or_mod_eight (by decide)]
    exact of_residues (motive := fun r => hasFlag (r ||| stackBit) compositeBit =
      hasFlag r compositeBit) w (by decide)
  · rw [or_mod_eight (by decide)]
    exact of_residues (motive := fun r => clear (r ||| stackBit) bothBits = clear r bothBits) w
      (by decide)

theorem clearStackFlag (w : Nat) : SamePointer w (PreciseGc.clearStackFlag w) := by
  apply of_residue (clear_div_eight (by decide) w)
  · rw [clear_mod_eight (by decide)]
    exact of_residues (motive := fun r => hasFlag (clear r stackBit) compositeBit =
      hasFlag r compositeBit) w (by decide)
  · rw [clear_mod_eight (by decide)]
    exact of_residues (motive := fun r => clear (clear r stackBit) bothBits = clear r bothBits) w
      (by decide)

end SamePointer

theorem isNull_zero : IsNull 0 := ⟨by decide, by decide⟩

theorem pointee_zero : pointee 0 = none := pointee_of_null isNull_zero

namespace Mutator.State

variable {s s' : State} {isHeapPointer : Nat → Bool} {this a p : Nat}

/-- The state after a word was written. -/
structure Wrote (s : State) (this value : Nat) (s' : State) : Prop where
  word : s'.word = Function.update s.word this value
  stack : s'.stack = s.stack

/-- The state after a `gc_ptr` was made outside of all constructors of `gc_new`. -/
structure Registered (s : State) (this value : Nat) (s' : State) : Prop where
  word : s'.word = Function.update s.word this value
  stack : s'.stack = s.stack.registerStackRoot this

theorem release_plain (plain : isCompositePointer w = false) (s : State) :
    s.release w = .ok s := by
  simp [release, plain]

theorem retain_plain (plain : isCompositePointer w = false) (s : State) : s.retain w = s := by
  simp [retain, plain]

theorem record_registered (outside : s.tlflags.newActive = false) (value : Nat)
    (eq : (s.setWord this value).record isHeapPointer this = .ok s') :
    Registered s this (setStackFlag value) s' := by
  simp only [record, setWord_tlflags, outside, Bool.not_false, ↓reduceIte] at eq
  cases eq
  refine ⟨?_, rfl⟩
  simp [setWord, setStack]

theorem defaultConstruct_registered (outside : s.tlflags.newActive = false)
    (eq : s.defaultConstruct isHeapPointer this = .ok s') :
    Registered s this (setStackFlag 0) s' :=
  record_registered outside 0 eq

theorem pointerConstruct_registered (outside : s.tlflags.newActive = false)
    (eq : s.pointerConstruct isHeapPointer this p = .ok s') :
    Registered s this (setStackFlag p) s' :=
  record_registered outside p eq

theorem copyConstruct_registered (outside : s.tlflags.newActive = false)
    (plain : isCompositePointer (s.word p) = false)
    (eq : s.copyConstruct isHeapPointer this p = .ok s') :
    Registered s this (setStackFlag (PreciseGc.clearStackFlag (s.word p))) s' := by
  rw [copyConstruct, retain_plain plain] at eq
  exact record_registered outside _ eq

/-- What an assignment writes: the word that is read, with the flag of the target. -/
def assignedWord (old new : Nat) : Nat :=
  if isStackPointer old then setStackFlag new else PreciseGc.clearStackFlag new

theorem samePointer_assignedWord (old new : Nat) : SamePointer new (assignedWord old new) := by
  unfold assignedWord
  split
  · exact SamePointer.setStackFlag new
  · exact SamePointer.clearStackFlag new

theorem assign_wrote (plain : isCompositePointer (s.word this) = false)
    (plain' : isCompositePointer (s.word a) = false) (eq : s.assign this a = .ok s') :
    Wrote s this (assignedWord (s.word this) (s.word a)) s' := by
  have value := samePointer_assignedWord (s.word this) (s.word a)
  simp only [assign, release_plain plain] at eq
  change (.ok ((s.setWord this (assignedWord (s.word this) (s.word a))).retain _) :
    Except Fault State) = .ok s' at eq
  rw [retain_plain ?_] at eq
  · cases eq
    exact ⟨rfl, rfl⟩
  · -- The word of `a` is read again after `this` was written.
    rw [setWord_word]
    by_cases same : a = this
    · subst same
      rw [Function.update_self]
      exact value.plain.trans plain'
    · rw [Function.update_of_ne same]
      exact plain'

theorem setNULL_wrote (plain : isCompositePointer (s.word this) = false)
    (eq : s.setNULL this = .ok s') : Wrote s this 0 s' := by
  rw [setNULL, release_plain plain] at eq
  cases eq
  exact ⟨rfl, rfl⟩

/-- The destructor of a `gc_ptr` without a stack flag does nothing. -/
theorem destruct_unflagged (plain : isCompositePointer (s.word this) = false)
    (unflagged : isStackPointer (s.word this) = false) (eq : s.destruct this = .ok s') :
    s' = s := by
  simp only [destruct, unflagged, Bool.false_eq_true, ↓reduceIte, release_plain plain] at eq
  exact (Except.ok.inj eq).symm

/-- That of a `gc_ptr` with the flag deletes one root. -/
theorem destruct_deleted (plain : isCompositePointer (s.word this) = false)
    (flagged : isStackPointer (s.word this) = true) (eq : s.destruct this = .ok s') :
    s'.word = s.word ∧ s.stack.deleteStackRoot this = some s'.stack := by
  rw [destruct, if_pos flagged] at eq
  cases deleted : s.stack.deleteStackRoot this with
  | none =>
      rw [deleted] at eq
      cases eq
  | some stack =>
      rw [deleted] at eq
      dsimp only at eq
      rw [release_plain plain] at eq
      cases eq
      exact ⟨rfl, rfl⟩

end Mutator.State

/-- The operators that register hand out the start of the object with its size. -/
theorem registration_of_plain {op : Mutator.Operator} {m : Memory} {sizeofT this : Nat}
    {r : Mutator.Registration} (designates : Designates (m this) b)
    (mem : r ∈ (op.apply id sizeofT this m).registrations) :
    r.root = objectOf b ∧ r.size = sizeofT * countOf m b % wordSpace := by
  by_cases star : op = .star
  · subst star
    cases mem
  · have start : (Mutator.getPtr id (m this) m).1 = objectOf b :=
      Mutator.getPtr_eq_iff.mpr (Or.inl designates)
    rw [Mutator.registrations_apply star, start] at mem
    unfold Mutator.registerPointer at mem
    split at mem
    · rw [List.mem_singleton.mp mem, getMetaInf_objectOf]
      exact ⟨rfl, rfl⟩
    · cases mem

end PreciseGc

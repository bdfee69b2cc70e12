import PreciseGc.Heap.Objects
import PreciseGc.Heap.Traversal

/-!
# Redirecting pointer words

`fix_ptr` replaces the pointer word in a slot by a pointer to the copy of the
object it designates.  On a plain pointer it writes its slot only, so a pass of
`fix_ptr` over a list of slots has a pointwise description: every settled word
is redirected once, and nothing else changes.
-/

namespace PreciseGc

open Foundation Memory

/-- The word `fix_ptr` leaves in a slot that holds the plain pointer `w`. -/
def redirect (m : Memory) (w : Nat) : Nat :=
  if clearBothFlags w = 0 then w
  else
    let b := getBlock (getMetaInf (clearStackFlag w))
    if blockIsMarked (m b) then
      restoreFlags (toGetMetaInf (forwardPointer m b)) (getBothFlags w)
    else w

theorem fixPtr_plain {m : Memory} {p : Nat} (nonnull : p ≠ 0)
    (plain : isCompositePointer (m p) = false) : fixPtr p m = m.write p (redirect m (m p)) := by
  unfold fixPtr redirect
  rw [if_neg nonnull]
  by_cases null : clearBothFlags (m p) = 0
  · simp [getNextObj, null]
  · have next : clearStackFlag (m p) ≠ 0 := by rwa [clearStackFlag_of_plain plain]
    simp only [getNextObj, null, ↓reduceIte, getPtr, plain, Bool.false_eq_true, next, movePtr]
    split
    · rfl
    · simp

/-- The plain pointer `w` is redirected in the same way in every memory that differs from `m` in
the slots `slots` only, and redirecting it again changes nothing. -/
def Settled (m : Memory) (slots : List Nat) (w : Nat) : Prop :=
  ∀ m' : Memory, (∀ x, x ∉ slots → m' x = m x) →
    isCompositePointer w = false ∧ redirect m' w = redirect m w ∧
      isCompositePointer (redirect m w) = false ∧ redirect m' (redirect m w) = redirect m w

theorem Settled.of_null {m : Memory} {slots : List Nat} {w : Nat} (null : IsNull w) :
    Settled m slots w ∧ redirect m w = w := by
  have same : ∀ m' : Memory, redirect m' w = w := fun m' => by simp [redirect, null.2]
  refine ⟨fun m' _ => ?_, same m⟩
  simp only [same, and_true, null.1]

theorem redirect_designates {m : Memory} {w b : Nat} (designates : Designates w b) :
    redirect m w =
      if blockIsMarked (m b) then restoreFlags (toGetMetaInf (m (b + 8))) (getBothFlags w)
      else w := by
  have nonnull : clearBothFlags w ≠ 0 := by
    rw [designates.2, objectOf_eq]
    omega
  have block : getBlock (getMetaInf (clearStackFlag w)) = b := by
    rw [clearStackFlag_of_plain designates.1, designates.2, objectOf_eq]
    simp only [getBlock, getMetaInf, sizeofBaseMeta, sizeofBlock]
    omega
  simp only [redirect, nonnull, ↓reduceIte, block, forwardPointer, blockData, sizeofBlock]

/-- A pointer to a block that was not copied. -/
theorem Settled.of_unmarked {m : Memory} {slots : List Nat} {w b : Nat}
    (designates : Designates w b) (unmarked : blockIsMarked (m b) = false) (header : b ∉ slots) :
    Settled m slots w ∧ redirect m w = w := by
  have same : ∀ m' : Memory, (∀ x, x ∉ slots → m' x = m x) → redirect m' w = w := by
    intro m' frame
    rw [redirect_designates designates, frame b header, unmarked]
    rfl
  have here := same m fun _ _ => rfl
  refine ⟨fun m' frame => ?_, here⟩
  simp only [here, same m' frame, and_true, designates.1]

/-- A pointer to a block that was copied is redirected to the copy. -/
theorem Settled.of_copied {m : Memory} {slots : List Nat} {w b copy : Nat}
    (designates : Designates w b) (aligned : b % 8 = 0) (marked : blockIsMarked (m b) = true)
    (header : b ∉ slots) (forward : m (b + 8) = copy + 8) (forwardWord : b + 8 ∉ slots)
    (copyAligned : copy % 8 = 0) (copyUnmarked : blockIsMarked (m copy) = false)
    (copyHeader : copy ∉ slots) :
    Settled m slots w ∧ Designates (redirect m w) copy := by
  have objectAligned : clearBothFlags w % 8 = 0 := by
    rw [designates.2, objectOf_eq]
    omega
  rcases word_split designates.1 objectAligned with ⟨flag, small, wEq⟩
  have copyObject : objectOf copy % 8 = 0 := by
    rw [objectOf_eq]
    omega
  have joined := word_join copyObject small
  have target : ∀ m' : Memory, (∀ x, x ∉ slots → m' x = m x) →
      redirect m' w = objectOf copy + flag := by
    intro m' frame
    rw [redirect_designates designates, frame b header, marked, frame _ forwardWord, forward]
    simp only [↓reduceIte]
    have flags : getBothFlags w = flag := by
      rw [wEq]
      exact (word_join objectAligned small).2.2.2.1
    rw [flags]
    exact joined.2.2.2.2
  have here := target m fun _ _ => rfl
  have reached : Designates (redirect m w) copy := by
    rw [here]
    exact ⟨joined.1, joined.2.1⟩
  refine ⟨fun m' frame => ⟨designates.1, ?_, reached.1, ?_⟩, reached⟩
  · rw [here, target m' frame]
  · rw [redirect_designates reached, frame copy copyHeader, copyUnmarked]
    rfl

/-- The memory in which the slots `todo` of the list `slots` are still to be fixed.  A slot whose
word is not settled must occur once only, so that its word is the original one when it is
reached. -/
structure Fixing (m : Memory) (slots todo : List Nat) (m' : Memory) : Prop where
  visited : ∃ visited, slots = visited ++ todo ∧
    ∀ p ∈ visited, Settled m slots (m p) → m' p = redirect m (m p)
  frame : ∀ x, x ∉ slots → m' x = m x
  settled : ∀ p ∈ slots, Settled m slots (m p) → m' p = m p ∨ m' p = redirect m (m p)
  unsettled : ∀ p ∈ todo, ¬Settled m slots (m p) → m' p = m p

/-- The slots a pass of `fix_ptr` can be run over. -/
structure Fixable (m : Memory) (slots : List Nat) : Prop where
  nonnull : ∀ p ∈ slots, p ≠ 0
  plain : ∀ p ∈ slots, isCompositePointer (m p) = false
  once : ∀ p ∈ slots, Settled m slots (m p) ∨ slots.count p = 1

variable {m m' : Memory} {slots todo : List Nat} {p : Nat}

theorem Fixing.start : Fixing m slots slots m where
  visited := ⟨[], rfl, by simp⟩
  frame _ _ := rfl
  settled _ _ _ := Or.inl rfl
  unsettled _ _ _ := rfl

/-- Storing the redirected word of the next slot. -/
theorem Fixing.write (fixing : Fixing m slots (p :: todo) m') {value : Nat}
    (redirected : Settled m slots (m p) → value = redirect m (m p))
    (once : ¬Settled m slots (m p) → p ∉ todo) : Fixing m slots todo (m'.write p value) := by
  rcases fixing.visited with ⟨visited, split, done⟩
  have pMem : p ∈ slots := by simp [split]
  refine
    { visited := ⟨visited ++ [p], by simpa using split, ?_⟩, frame := ?_, settled := ?_,
      unsettled := ?_ }
  · intro q mem isSettled
    by_cases same : q = p
    · subst same
      rw [write_same, redirected isSettled]
    · rw [write_of_ne same]
      refine done q ?_ isSettled
      simpa [same] using mem
  · intro x notMem
    have other : x ≠ p := by
      rintro rfl
      exact notMem pMem
    rw [write_of_ne other]
    exact fixing.frame x notMem
  · intro q mem isSettled
    by_cases same : q = p
    · subst same
      rw [write_same]
      exact Or.inr (redirected isSettled)
    · rw [write_of_ne same]
      exact fixing.settled q mem isSettled
  · intro q mem notSettled
    have other : q ≠ p := by
      rintro rfl
      exact once notSettled mem
    rw [write_of_ne other]
    exact fixing.unsettled q (by simp [mem]) notSettled

/-- One call of `fix_ptr`. -/
theorem Fixing.step (fixing : Fixing m slots (p :: todo) m') (fixable : Fixable m slots) :
    Fixing m slots todo (fixPtr p m') := by
  rcases fixing.visited with ⟨visited, split, done⟩
  have pMem : p ∈ slots := by simp [split]
  have nonnull := fixable.nonnull p pMem
  by_cases isSettled : Settled m slots (m p)
  · rcases isSettled m' fixing.frame with ⟨plain, same, plain', again⟩
    have result : fixPtr p m' = m'.write p (redirect m (m p)) := by
      rcases fixing.settled p pMem isSettled with value | value
      · rw [fixPtr_plain nonnull (by rwa [value]), value, same]
      · rw [fixPtr_plain nonnull (by rwa [value]), value, again]
    rw [result]
    exact fixing.write (fun _ => rfl) (fun notSettled => absurd isSettled notSettled)
  · have original := fixing.unsettled p (by simp) isSettled
    rw [fixPtr_plain nonnull (by rw [original]; exact fixable.plain p pMem)]
    refine fixing.write (fun settled => absurd settled isSettled) fun _ later => ?_
    have once := (fixable.once p pMem).resolve_left isSettled
    rw [split, List.count_append, List.count_cons_self] at once
    have := List.count_pos_iff.mpr later
    omega

theorem Fixing.finished (fixing : Fixing m slots [] m') (mem : p ∈ slots)
    (isSettled : Settled m slots (m p)) : m' p = redirect m (m p) := by
  rcases fixing.visited with ⟨visited, split, done⟩
  rw [List.append_nil] at split
  exact done p (split ▸ mem) isSettled

/-- `fix_roots` is a pass over the registered roots of all threads. -/
theorem Fixing.roots {threads : ThreadRoots} {h : Heap} {todo : List Nat}
    (fixing : Fixing m slots (threads.flatten ++ todo) h.mem) (fixable : Fixable m slots) :
    Fixing m slots todo (fixRoots threads h).mem := by
  have pass : ∀ (stack rest : List Nat) (m' : Memory), Fixing m slots (stack ++ rest) m' →
      Fixing m slots rest (stack.foldl (fun m addr => fixPtr addr m) m') := by
    intro stack
    induction stack with
    | nil => exact fun _ _ fixing => fixing
    | cons addr stack ih => exact fun rest m' fixing => ih rest _ (fixing.step fixable)
  have all : ∀ (threads : ThreadRoots) (m' : Memory), Fixing m slots (threads.flatten ++ todo) m' →
      Fixing m slots todo
        (threads.foldl (fun m stack => stack.foldl (fun m addr => fixPtr addr m) m) m') := by
    intro threads
    induction threads with
    | nil => exact fun _ fixing => fixing
    | cons stack threads ih =>
        intro m' fixing
        refine ih _ (pass stack _ m' ?_)
        simpa [List.append_assoc] using fixing
  exact all threads h.mem fixing

end PreciseGc

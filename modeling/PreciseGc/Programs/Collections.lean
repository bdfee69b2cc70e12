import PreciseGc.Programs.Assignments

/-!
# Dereferences and collections of a program

An operator that hands out a reference enters a handler, which the raw pointer
on the stack finds first.  The other words of the stacks find what they found
before.  Partial collections keep the handlers that words of stacks find, and a
harmless full collection leaves a sound process whose objects have new places.
-/

namespace PreciseGc

open Foundation Memory

variable {pf : Platform} {t t₁ t' : DerefRoots} {h h' : Heap} {c : Census} {bigs : List Nat}
  {b d root self size sizeofT stop this w x fuel : Nat} {s : Process} {space : Option Nat}
  {gcFalse : DerefRoots → Except Fault DerefRoots} {source : AccessPath RootName Nat}
  {r : Mutator.Registration}

/-- The table `t₁` is `t` with a handler of this range in front. -/
def Enters (t : DerefRoots) (root stop : Nat) (t₁ : DerefRoots) : Prop :=
  ∃ self, t₁.roots =
    Function.update t.roots (hashOfRoot root) (⟨self, root, stop⟩ :: t.roots (hashOfRoot root))

theorem register_enters (nonnull : root ≠ 0) {needGc : Bool}
    (eq : t.register space root size = .ok (needGc, t₁)) :
    Enters t root (ptrAdd root size) t₁ := by
  rw [DerefRoots.register, if_neg nonnull] at eq
  rcases bind_eq_ok eq with ⟨t₀, refilled, eq⟩
  have same := (refill_roots space t).of_ok refilled
  have result : (t₀.enter root size).2 = t₁ := congrArg Prod.snd (Except.ok.inj eq)
  rw [← result, Enters, ← same]
  unfold DerefRoots.enter
  dsimp only
  split
  · exact ⟨_, rfl⟩
  · exact ⟨_, rfl⟩

/-- A registration enters its range; it may collect, and resets counters. -/
theorem registerDereferencedRoot_cases
    (eq : registerDereferencedRoot space gcFalse root size t = .ok t') :
    ∃ needGc t₁, t.register space root size = .ok (needGc, t₁) ∧
      (t'.roots = t₁.roots ∨ ∃ t₂, gcFalse t₁ = .ok t₂ ∧ t'.roots = t₂.roots) := by
  rcases bind_eq_ok eq with ⟨⟨needGc, t₁⟩, registered, eq⟩
  refine ⟨needGc, t₁, registered, ?_⟩
  dsimp only at eq
  split at eq
  · rcases bind_eq_ok eq with ⟨t₂, collected, eq⟩
    cases eq
    exact Or.inr ⟨t₂, collected, rfl⟩
  · cases eq
    exact Or.inl rfl

theorem lookup_congr (same : t'.roots = t.roots) (w : Nat) : t'.lookup w = t.lookup w := by
  simp only [DerefRoots.lookup, same]

theorem wordTarget_congr (same : t'.roots = t.roots) (h : Heap) (w : Nat) :
    wordTarget t' h w = wordTarget t h w := by
  simp only [wordTarget, lookup_congr same]

namespace Enters

variable (enters : Enters t root stop t₁)

include enters

/-- Words outside of the range, or with another hash. -/
theorem lookup_away (away : hashOfRoot w = hashOfRoot root → w < root ∨ stop < w)
    (even : root % 2 = 0) : t₁.lookup w = t.lookup w := by
  rcases enters with ⟨self, rootsEq⟩
  have plain : (⟨self, root, stop⟩ : RootHandler).plainPointer = root := by
    simp only [RootHandler.plainPointer, clear, Nat.and_one_is_mod, even, Nat.sub_zero]
  unfold DerefRoots.lookup
  rw [rootsEq]
  split
  · rfl
  · by_cases atHash : hashOfRoot w = hashOfRoot root
    · have out : (⟨self, root, stop⟩ : RootHandler).contains w = false := by
        have := away atHash
        simp only [RootHandler.contains, plain, Bool.and_eq_false_iff, decide_eq_false_iff_not]
        omega
      rw [atHash, Function.update_self, List.find?_cons, out]
    · rw [Function.update_of_ne atHash]

theorem lookup_inside (used : ¬(w = 0 || w % 2 != 0) = true)
    (atHash : hashOfRoot w = hashOfRoot root) (lower : root ≤ w) (upper : w ≤ stop)
    (even : root % 2 = 0) :
    ∃ handler, t₁.lookup w = some handler ∧ handler.plainPointer = root := by
  rcases enters with ⟨self, rootsEq⟩
  have plain : (⟨self, root, stop⟩ : RootHandler).plainPointer = root := by
    simp only [RootHandler.plainPointer, clear, Nat.and_one_is_mod, even, Nat.sub_zero]
  have inside : (⟨self, root, stop⟩ : RootHandler).contains w = true := by
    simp only [RootHandler.contains, plain, Bool.and_eq_true, decide_eq_true_eq]
    exact ⟨lower, upper⟩
  refine ⟨_, lookup_eq_some.mpr ⟨used, ?_⟩, plain⟩
  rw [rootsEq, atHash, Function.update_self, List.find?_cons, inside]

end Enters

namespace RootsValid

/-- Other counters, and other free records. -/
theorem sameRoots (valid : RootsValid pf t h c bigs) (same : t'.roots = t.roots) :
    RootsValid pf t' h c bigs :=
  { valid with
    registers := fun i range mem => valid.registers i range (by rwa [same] at mem)
    unmarked := fun i handler mem => valid.unmarked i handler (by rwa [same] at mem) }

theorem entered (valid : RootsValid pf t h c bigs) (isStart : StartsObject h root)
    {needGc : Bool} (eq : t.register space root size = .ok (needGc, t₁)) :
    RootsValid pf t₁ h c bigs := by
  have declined : ∃ t', registerDereferencedRoot space .ok root size t = .ok t' ∧
      t'.roots = t₁.roots := by
    unfold registerDereferencedRoot
    rw [eq]
    cases needGc with
    | true => exact ⟨_, rfl, rfl⟩
    | false => exact ⟨_, rfl, rfl⟩
  rcases declined with ⟨t', registered, same⟩
  exact (valid.register (Or.inr isStart) (Or.inl rfl) registered).sameRoots same.symm

/-- The start of the object finds the new handler.  Other words find what they found, if those that
now find the new handler led to its object before. -/
theorem wordTarget_entered (valid : RootsValid pf t h c bigs) (valid₁ : RootsValid pf t₁ h c bigs)
    (isObject : ObjectBlock h b) (enters : Enters t (objectOf b) stop t₁)
    (lower : objectOf b ≤ stop) (upper : stop < b + 8 + blockSize (h.mem b)) :
    wordTarget t₁ h (objectOf b) = some b ∧ ∀ w, w ≠ objectOf b →
      (hashOfRoot w = hashOfRoot (objectOf b) → objectOf b ≤ w → w ≤ stop →
        wordTarget t h w = some b) → wordTarget t₁ h w = wordTarget t h w := by
  have aligned := valid.aligned_used valid.large (valid.inUse_iff.mp isObject.1)
  have even : objectOf b % 2 = 0 := by
    rw [objectOf_eq]
    omega
  have inside : ∀ w, ¬(w = 0 || w % 2 != 0) = true → hashOfRoot w = hashOfRoot (objectOf b) →
      objectOf b ≤ w → w ≤ stop → wordTarget t₁ h w = some b := by
    intro w used atHash wLower wUpper
    rcases enters.lookup_inside used atHash wLower wUpper even with ⟨handler, found, pointer⟩
    exact valid₁.wordTarget_iff.mpr ⟨handler, found, pointer, by omega⟩
  constructor
  · refine inside _ ?_ rfl (Nat.le_refl _) lower
    have nonnull : objectOf b ≠ 0 := by simp [objectOf_eq]
    simp [nonnull, even]
  · intro w _ led
    by_cases covered : hashOfRoot w = hashOfRoot (objectOf b) ∧ objectOf b ≤ w ∧ w ≤ stop
    · rcases covered with ⟨atHash, wLower, wUpper⟩
      have before := led atHash wLower wUpper
      rcases valid.wordTarget_iff.mp before with ⟨handler, found, _⟩
      rw [before, inside w (lookup_eq_some.mp found).1 atHash wLower wUpper]
    · have same : t₁.lookup w = t.lookup w := by
        apply enters.lookup_away _ even
        intro atHash
        by_contra notAway
        exact covered ⟨atHash, by omega, by omega⟩
      simp only [wordTarget, same]

end RootsValid

namespace Process

/-- The table is no part of what makes objects and roots plain. -/
theorem Sound.withTable (sound : s.Sound pf)
    (valid : ∃ c bigs, RootsValid pf t s.heap c bigs) (covers : Registers (CoversObject s.heap) t) :
    { s with table := t }.Sound pf where
  small := sound.small
  valid := valid
  covers := covers
  object b isObject := by
    have plain := sound.object b isObject
    apply @PlainObject.next pf b s { s with table := t } plain (SameShape.refl _ b) rfl
    · intro x inShell
      have apart := sound.apart_of_inShell isObject inShell
      exact ⟨apart.foreign, apart.notCell, apart.notNode⟩
    · exact plain.slot
  node := sound.node
  cell := sound.cell
  once := sound.once

/-- Tables in which the words of the stacks find the same. -/
theorem store_withTable (words : ∀ w ∈ stackWords s.threads,
    wordTarget t s.heap w = wordTarget s.table s.heap w) :
    { s with table := t }.store = s.store := by
  apply Store.ext
  · rfl
  · rfl
  · funext name
    cases name with
    | cell a => rfl
    | word w =>
        rw [store_word, store_word]
        dsimp only
        split
        · rename_i mem
          exact words w mem
        · rfl

/-- The registration of an object. -/
theorem Sound.registration (sound : s.Sound pf) {op : Mutator.Operator}
    (denotes : s.Denotes source this) (led : s.store.follow source = some b)
    (mem : r ∈ (op.apply id sizeofT this s.heap.mem).registrations)
    (small : sizeofT ≤ shellSize s.heap.mem (shellOf s.heap.mem b)) :
    ObjectBlock s.heap b ∧ r.root = objectOf b ∧ objectOf b + r.size < b + 8 +
      blockSize (s.heap.mem b) ∧ ptrAdd r.root r.size = objectOf b + r.size := by
  have isObject := sound.object_of_follow led
  rw [denotes.follow] at led
  have designates := (denotes.word sound).pointee_iff.mp led
  rcases registration_of_plain designates mem with ⟨root, size⟩
  have spare := (sound.object b isObject).spare
  have within : sizeofT * countOf s.heap.mem b ≤
      shellSize s.heap.mem (shellOf s.heap.mem b) * countOf s.heap.mem b :=
    Nat.mul_le_mul_right _ small
  have sizeLe : r.size ≤ sizeofT * countOf s.heap.mem b := size ▸ Nat.mod_le _ _
  rcases sound.valid with ⟨c, bigs, valid⟩
  have bounded := valid.object_bounded isObject.1
  have inside : objectOf b + r.size < b + 8 + blockSize (s.heap.mem b) := by
    rw [objectOf_eq]
    omega
  refine ⟨isObject, root, inside, ?_⟩
  rw [root]
  exact ptrAdd_of_lt (by omega)

/-- The raw pointer on the stack leads to the new object. -/
theorem store_entered (onStack : w ∈ stackWords s.threads)
    (start : wordTarget t s.heap w = some b)
    (others : ∀ v ∈ stackWords s.threads, v ≠ w →
      wordTarget t s.heap v = wordTarget s.table s.heap v) :
    { s with table := t }.store = s.store.setRoot (.word w) (some b) := by
  apply Store.ext
  · rfl
  · rfl
  · funext name
    rw [Store.setRoot_root]
    cases name with
    | cell a =>
        have other : RootName.cell a ≠ .word w := by simp
        rw [Function.update_of_ne other]
        rfl
    | word v =>
        rw [store_word]
        dsimp only
        by_cases same : v = w
        · rw [same, if_pos onStack, Function.update_self, start]
        · have other : RootName.word v ≠ .word w := fun eq => same (RootName.word.inj eq)
          rw [Function.update_of_ne other, store_word]
          split
          · rename_i mem
            exact others v mem same
          · rfl

/-- Collecting at once and resetting counters makes no difference. -/
theorem store_registered (valid : RootsValid pf t₁ s.heap c bigs)
    (gc : gcFalse = .ok ∨ ∃ fuel, gcFalse = cleanDerefRoots fuel s.handlers s.heap)
    (final : t.roots = t₁.roots ∨ ∃ t₂, gcFalse t₁ = .ok t₂ ∧ t.roots = t₂.roots) :
    { s with table := t }.store = { s with table := t₁ }.store := by
  have sameRoots : ∀ t₂, t.roots = t₂.roots →
      { s with table := t }.store = { s with table := t₂ }.store := fun t₂ same =>
    @store_withTable t { s with table := t₂ } fun w _ => wordTarget_congr same s.heap w
  rcases final with same | ⟨t₂, collected, same⟩
  · exact sameRoots t₁ same
  · rw [sameRoots t₂ same]
    rcases gc with rfl | ⟨fuel, rfl⟩
    · cases collected
      rfl
    · exact valid.heapStore_cleaned collected

/-- The raw pointer on the stack leads to the object of the `gc_ptr`. -/
theorem Sound.dereference_next (sound : s.Sound pf) {op : Mutator.Operator}
    (denotes : s.Denotes source this) (led : s.store.follow source = some b)
    (mem : r ∈ (op.apply id sizeofT this s.heap.mem).registrations)
    (small : sizeofT ≤ shellSize s.heap.mem (shellOf s.heap.mem b))
    (onStack : r.root ∈ stackWords s.threads) (only : s.OnlyPointers b r)
    (gc : gcFalse = .ok ∨ ∃ fuel, gcFalse = cleanDerefRoots fuel s.handlers s.heap)
    (eq : registerDereferencedRoot space gcFalse r.root r.size s.table = .ok t) :
    { s with table := t }.Sound pf ∧
      s.Performs (some (.assignRoot (.word r.root) (some source))) { s with table := t } := by
  rcases sound.registration denotes led mem small with ⟨isObject, root, inside, stop⟩
  rcases sound.valid with ⟨c, bigs, valid⟩
  have start : StartsObject s.heap r.root := ⟨b, isObject, root⟩
  have gc' : gcFalse = .ok ∨ ∃ fuel threads, gcFalse = cleanDerefRoots fuel threads s.heap :=
    gc.imp id fun cleans => cleans.imp fun fuel eq => ⟨s.handlers, eq⟩
  have valid' := valid.register (Or.inr start) gc' eq
  rcases registerDereferencedRoot_cases eq with ⟨needGc, t₁, registered, final⟩
  have valid₁ := valid.entered start registered
  have enters := register_enters (by rw [root, objectOf_eq]; omega) registered
  rw [stop, root] at enters
  have targets := valid.wordTarget_entered valid₁ isObject enters (Nat.le_add_right _ _) inside
  have stored : { s with table := t₁ }.store =
      s.store.setRoot (.word r.root) (s.store.value (some source)) := by
    have value : s.store.value (some source) = some b := led
    rw [value]
    apply store_entered onStack
    · rw [root]
      exact targets.1
    · intro v vMem other
      apply targets.2 v (root ▸ other)
      intro atHash lower upper
      exact only v vMem other (root ▸ atHash) (root ▸ lower) (root ▸ upper)
  have gc'' : gcFalse = .ok ∨ ∃ fuel threads h, gcFalse = cleanDerefRoots fuel threads h :=
    gc'.imp id fun cleans => cleans.imp fun fuel eq => eq.imp fun threads eq => ⟨s.heap, eq⟩
  have covers := (registerDereferencedRoot_registers space (fun _ => valid.start_even start)
    (Or.inr ⟨b, isObject, root, by rwa [root]⟩) gc'' sound.covers valid.unmarked).of_ok eq
  refine ⟨sound.withTable ⟨c, bigs, valid'⟩ covers.1, _, .assignRoot, ?_⟩
  rw [store_registered valid₁ gc final, stored]
  exact Store.Alike.refl _

theorem Sound.partialCollection_next (sound : s.Sound pf)
    (eq : cleanDerefRoots fuel s.handlers s.heap s.table = .ok t) :
    { s with table := t }.Sound pf ∧ s.Performs none { s with table := t } := by
  rcases sound.valid with ⟨c, bigs, valid⟩
  have covers := (cleanDerefRoots_registers sound.covers s.handlers s.heap).of_ok eq
  refine ⟨sound.withTable ⟨c, bigs, valid.clean eq⟩ covers.1, ?_⟩
  have same : { s with table := t }.store = s.store := valid.heapStore_cleaned eq
  change s.store.Alike { s with table := t }.store
  rw [same]
  exact Store.Alike.refl _

/-- A collection that keeps what its roots lead to, and redirects all pointers to what it moves,
leaves a sound process. -/
theorem Sound.kept_next {t₁ : DerefRoots} {h₁ : Heap} {moved : List (Nat × Nat)} {r : SweepState}
    {c₂ c' : Census} {kept : Nat → Prop} (sound : s.Sound pf)
    (live : CollectedKept pf s.handlers s.fakeRoots (s.table, s.heap) c bigs t₁ h₁ moved r c₂ (t, h)
      c' kept) (unmoved : Unmoved kept s.handlers s.fakeRoots s.table s.heap bigs) :
    { s with table := t, heap := h }.Sound pf ∧
      s.store.Renames (relocate moved) { s with table := t, heap := h }.store := by
  have valid := live.valid
  have plain' := live.plainProcess unmoved
  refine ⟨?_, live.renames unmoved⟩
  refine
    { small := sound.small, valid := ⟨c', _, live.rootsValid valid live.ready⟩,
      covers := fun i range mem => ?_, object := fun d isObject => ?_, node := plain'.node,
      cell := fun a mem => ?_, once := sound.once }
  · have covers := (sound.covers.sameRanges live.phase.ranges).sweep
    rw [← live.table] at covers
    rcases List.mem_map.mp mem with ⟨handler, handlerMem, rfl⟩
    rcases live.handler_stays valid live.ready handlerMem with ⟨b, pointer, stays⟩
    rcases covers i handler.range mem with ⟨chain, size, ⟨d, _, start, within⟩, stop⟩
    obtain rfl : b = d := objectOf_inj (pointer.symm.trans start)
    refine ⟨chain, size, ⟨b, stays.after, start, ?_⟩, stop⟩
    dsimp only
    rw [stays.size]
    exact within
  · -- the shell of a survivor is that of an object before
    rcases live.origin isObject with ⟨b, isKept, rfl⟩
    have held := live.held isKept
    have old := sound.object b (live.object b isKept)
    refine ⟨?_, ?_, plain'.slot _ isObject, plain'.slotsNodup _ isObject⟩
    · refine held.shape.gcObject old.object held.size fun x apart => ?_
      exact ⟨live.foreign_kept apart.foreign, apart.notCell, apart.notNode⟩
    · rw [held.shape.shell, held.shape.size, held.shape.count, held.size]
      exact old.spare
  · rcases List.mem_append.mp mem with isRoot | isFake
    · rw [← stackRoots_handlers] at isRoot
      exact plain'.stackRoot a isRoot
    · rcases List.mem_map.mp isFake with ⟨n, nMem, rfl⟩
      exact plain'.fakeRoot n nMem

theorem Sound.fullCollection_next (sound : s.Sound pf)
    (linked : Chain (bigNext s.heap.mem) s.heap.firstBigBlock bigs)
    (harmless : Harmless s.handlers s.fakeRoots s.table s.heap bigs)
    (eq : markAndSweep pf fuel s.handlers s.fakeRoots (s.table, s.heap) = .ok (t, h)) :
    { s with table := t, heap := h }.Sound pf ∧
      s.Performs none { s with table := t, heap := h } := by
  rcases sound.valid with ⟨c, bigs', valid⟩
  obtain rfl := linked.unique valid.big.chain
  rcases harmless.fits with ⟨fuel₀, fits⟩
  rcases valid.collectedLive sound.plainProcess fits eq with ⟨_, _, _, _, _, _, live⟩
  rcases sound.kept_next live harmless.toUnmoved with ⟨next, renames⟩
  exact ⟨next, renames.alike⟩

end Process

end PreciseGc

import PreciseGc.Mutator.Comparisons
import PreciseGc.Programs.Progress

/-!
# What comparisons answer

A comparison reads the words of its operands once.  If a collection moves the
object between the two reads the addresses do not fit together, and `==` answers
that two `gc_ptr`s to one object are different.  It never takes two objects for
one: no object is moved to a place at which a live object was.
-/

namespace PreciseGc

open Foundation Memory

variable {pf : Platform} {t t₁ : DerefRoots} {h h₁ : Heap} {c c' c₂ : Census} {bigs : List Nat}
  {a b d this w fuel : Nat} {s : Process} {actions : List ProgramAction}
  {threads : List ThreadHandler} {fakeRoots : FakeRoots} {moved : List (Nat × Nat)} {r : SweepState}
  {s' : DerefRoots × Heap} {path path' : AccessPath RootName Nat} {m : Memory}
  {first second safepoint : Memory → Memory} {order : Mutator.EvaluationOrder}

/-- The address of a reference. -/
def addressOf (ref : Option Nat) : Nat := ref.elim 0 objectOf

theorem addressOf_inj {ref ref' : Option Nat} : addressOf ref = addressOf ref' ↔ ref = ref' := by
  cases ref with
  | none =>
      cases ref' with
      | none => simp
      | some d => simp [addressOf, objectOf_eq]
  | some b =>
      cases ref' with
      | none => simp [addressOf, objectOf_eq]
      | some d => simp [addressOf, objectOf_eq]

/-- What `get_ptr` returns for a plain pointer. -/
theorem PlainWord.clearStackFlag_eq (word : PlainWord h w) :
    clearStackFlag w = addressOf (pointee w) := by
  rw [clearStackFlag_of_plain word.plain]
  rcases word with null | ⟨b, _, designates⟩
  · rw [pointee_of_null null, null.2]
    rfl
  · rw [pointee_of_designates designates, designates.2]
    rfl

theorem PlainWord.getPtr_eq (word : PlainWord h w) :
    (Mutator.getPtr safepoint w m).1 = addressOf (pointee w) := by
  rw [← word.clearStackFlag_eq]
  simp [Mutator.getPtr, word.plain]

/-- A live object is not moved to a place at which another one was. -/
theorem CollectedLive.relocate_eq_live
    (live : CollectedLive pf threads fakeRoots (t, h) c bigs t₁ h₁ moved r c₂ s' c')
    (bLive : Live threads fakeRoots t h bigs b) (dLive : Live threads fakeRoots t h bigs d)
    (same : relocate moved d = b) : d = b := by
  have used : InUse s'.2 b := same ▸ (live.held dLive).object.1
  have stationary : Stationary threads t h bigs b := by
    rcases (live.object b bLive).1 with isSmall | ⟨big, isLarge, rfl⟩
    · by_contra moves
      have unpinned : ∀ e, SamePage h b e → ¬StackPins h bigs t (wordsOf threads) e :=
        fun e samePage isPinned => moves (Or.inr ⟨e, samePage, isPinned⟩)
      exact (live.rootsValid live.valid live.ready).used_notRecycled used
        (live.reclaims.recycled b isSmall unpinned)
    · exact Or.inl ⟨big, isLarge, rfl⟩
  apply live.relocate_inj dLive bLive
  rw [same, live.relocate_stationary stationary]

namespace Process.Sound

variable (sound : s.Sound pf)

include sound

/-- A full collection leaves no reference where another one was. -/
theorem follow_collected (linked : Chain (bigNext s.heap.mem) s.heap.firstBigBlock bigs)
    (harmless : Harmless s.handlers s.fakeRoots s.table s.heap bigs)
    (eq : markAndSweep pf fuel s.handlers s.fakeRoots (s.table, s.heap) = .ok (t, h))
    (path path' : AccessPath RootName Nat) :
    s.store.follow path' = { s with table := t, heap := h }.store.follow path ↔
      s.store.follow path = s.store.follow path' ∧
        { s with table := t, heap := h }.store.follow path = s.store.follow path := by
  rcases sound.valid with ⟨c, bigs', valid⟩
  obtain rfl := linked.unique valid.big.chain
  rcases harmless.fits with ⟨fuel₀, fits⟩
  rcases valid.collectedLive sound.plainProcess fits eq with
    ⟨_, _, moved, _, _, _, live⟩
  have followed : { s with table := t, heap := h }.store.follow path =
      (s.store.follow path).map (relocate moved) := (live.renames harmless.toUnmoved).follow path
  constructor
  · intro same
    have unmoved : s.store.follow path = s.store.follow path' := by
      rw [followed] at same
      cases led : s.store.follow path with
      | none =>
          rw [led] at same
          exact same.symm
      | some d =>
          rw [led, Option.map_some] at same
          have dLive := live.kept_of_accessible (Store.accessible_of_follow led)
          have bLive := live.kept_of_accessible (Store.accessible_of_follow same)
          rw [same, ← live.relocate_eq_live bLive dLive rfl]
    exact ⟨unmoved, same.symm.trans unmoved.symm⟩
  · rintro ⟨same, unmoved⟩
    exact same.symm.trans unmoved.symm

end Process.Sound

/-- `==` of `gc_ptr`s with plain words compares the references that are read. -/
theorem operatorEq_iff {h h' : Heap} {x y : Nat} (argument : PlainWord h x) (word : PlainWord h' y)
    (read : Mutator.wordsRead order first this a m = (x, y)) :
    Mutator.operatorEq order first second this a m = true ↔ pointee y = pointee x := by
  have eq : Mutator.operands order first second this a m =
      (clearStackFlag x, clearStackFlag y) := by
    have eq := @Mutator.operands_of_plain order first second this a m
    rw [read] at eq
    exact eq argument.plain word.plain
  rw [argument.clearStackFlag_eq, word.clearStackFlag_eq] at eq
  simp only [Mutator.operatorEq, eq, beq_iff_eq, addressOf_inj]
  exact eq_comm

/-- The access paths lead to the same object of the ideal store, or both of them to none. -/
def SameObject (actions : List ProgramAction) (path path' : AccessPath RootName Nat) : Prop :=
  (Ideal.empty.performAll actions).store.follow path =
    (Ideal.empty.performAll actions).store.follow path'

theorem ProgramRun.sameObject_iff (run : ProgramRun pf s actions) :
    SameObject actions path path' ↔ s.store.follow path = s.store.follow path' :=
  (run.alike.aliases path path').symm

theorem ProgramRun.follow_ne_none_iff (run : ProgramRun pf s actions) :
    (Ideal.empty.performAll actions).store.follow path ≠ none ↔ s.store.follow path ≠ none := by
  have content := congrArg Option.isSome (run.alike.content path)
  simp only [Option.isSome_map] at content
  rw [Option.ne_none_iff_isSome, Option.ne_none_iff_isSome, content]

/-- What the comparisons of a `gc_ptr` with null and with a raw pointer answer. -/
theorem ProgramRun.compares (run : ProgramRun pf s actions) (place : s.Denotes path this) :
    (Mutator.operatorBool safepoint this s.heap.mem = true ↔
      (Ideal.empty.performAll actions).store.follow path ≠ none) ∧
      Mutator.Answers (Mutator.operatorEqInt safepoint this s.heap.mem 0)
        (Mutator.operatorNeInt safepoint this s.heap.mem 0)
        ((Ideal.empty.performAll actions).store.follow path = none) ∧
      ∀ b, s.store.root (.word (objectOf b)) = some b →
        Mutator.Answers (Mutator.operatorEqPointer safepoint this s.heap.mem (objectOf b))
          (Mutator.operatorNePointer safepoint this s.heap.mem (objectOf b))
          (SameObject actions path ⟨.word (objectOf b), []⟩) := by
  have word := place.word run.sound
  have isNull : Mutator.operatorEqInt safepoint this s.heap.mem 0 = true ↔
      (Ideal.empty.performAll actions).store.follow path = none := by
    simp only [Mutator.operatorEqInt, Mutator.sizeOfInt, word.getPtr_eq, beq_iff_eq]
    rw [not_iff_not.mp run.follow_ne_none_iff, place.follow]
    exact eq_comm.trans (@addressOf_inj _ none)
  refine ⟨?_, Mutator.Answers.of_iff isNull, fun b led => Mutator.Answers.of_iff ?_⟩
  · rw [Mutator.operatorBool_eq_ne_zero]
    exact (Mutator.Answers.of_iff isNull).unequal_iff
  · have follow : s.store.follow ⟨.word (objectOf b), []⟩ = some b := led
    rw [run.sameObject_iff, place.follow, follow]
    simp only [Mutator.operatorEqPointer, word.getPtr_eq, beq_iff_eq]
    exact (@addressOf_inj (some b) _).trans eq_comm

/-- In every run comparisons tell the objects of the ideal store apart, except that `==` takes two
`gc_ptr`s to one object for different ones if a collection moves it after the word of the one and
before that of the other was read. -/
theorem runs_comparisons (run : ProgramRun pf s actions)
    (linked : Chain (bigNext s.heap.mem) s.heap.firstBigBlock bigs)
    (harmless : Harmless s.handlers s.fakeRoots s.table s.heap bigs)
    (eq : markAndSweep pf fuel s.handlers s.fakeRoots (s.table, s.heap) = .ok (t, h))
    (place : s.Denotes path this) (place' : { s with table := t, heap := h }.Denotes path this)
    (argument : s.Denotes path' a) (argument' : { s with table := t, heap := h }.Denotes path' a)
    (order : Mutator.EvaluationOrder) (second safepoint : Memory → Memory) :
    Mutator.Answers (Mutator.operatorEq order id second this a s.heap.mem)
        (Mutator.operatorNe order id second this a s.heap.mem) (SameObject actions path path') ∧
      Mutator.Answers (Mutator.operatorEq order (fun _ => h.mem) second this a s.heap.mem)
        (Mutator.operatorNe order (fun _ => h.mem) second this a s.heap.mem)
        (SameObject actions path path' ∧ (order = .wordsFirst ∨
          { s with table := t, heap := h }.store.follow path = s.store.follow path)) ∧
      (Mutator.operatorBool safepoint this s.heap.mem = true ↔
        (Ideal.empty.performAll actions).store.follow path ≠ none) ∧
      Mutator.Answers (Mutator.operatorEqInt safepoint this s.heap.mem 0)
        (Mutator.operatorNeInt safepoint this s.heap.mem 0)
        ((Ideal.empty.performAll actions).store.follow path = none) ∧
      ∀ b, s.store.root (.word (objectOf b)) = some b →
        Mutator.Answers (Mutator.operatorEqPointer safepoint this s.heap.mem (objectOf b))
          (Mutator.operatorNePointer safepoint this s.heap.mem (objectOf b))
          (SameObject actions path ⟨.word (objectOf b), []⟩) := by
  have sound := run.sound
  have sound' := (sound.fullCollection_next linked harmless eq).1
  have word := place.word sound
  have argumentWord := argument.word sound
  rw [run.sameObject_iff]
  refine ⟨Mutator.Answers.of_iff ?_, Mutator.Answers.of_iff ?_, run.compares place⟩
  · have read : Mutator.wordsRead order id this a s.heap.mem = (s.heap.mem a, s.heap.mem this) := by
      cases order with
      | argumentFirst => rfl
      | thisFirst => rfl
      | wordsFirst => rfl
    rw [operatorEq_iff argumentWord word read, place.follow, argument.follow]
  · cases order with
    | argumentFirst =>
        rw [operatorEq_iff argumentWord (place'.word sound') rfl, ← place'.follow,
          ← argument.follow, eq_comm, sound.follow_collected linked harmless eq]
        simp
    | thisFirst =>
        have sameAfter : s.store.follow path = s.store.follow path' →
            { s with table := t, heap := h }.store.follow path =
              { s with table := t, heap := h }.store.follow path' :=
          ((sound.fullCollection_next linked harmless eq).2.aliases path path').mp
        rw [operatorEq_iff (argument'.word sound') word rfl, ← place.follow, ← argument'.follow,
          sound.follow_collected linked harmless eq]
        simp only [reduceCtorEq, false_or]
        constructor
        · rintro ⟨same, unmoved⟩
          exact ⟨same.symm, (sameAfter same.symm).trans (unmoved.trans same)⟩
        · rintro ⟨same, unmoved⟩
          exact ⟨same.symm, (sameAfter same).symm.trans (unmoved.trans same)⟩
    | wordsFirst =>
        rw [operatorEq_iff argumentWord word rfl, place.follow, argument.follow]
        simp

theorem oneProgramRun_moves : Yields (fun _ => False)
    (fun r : Heap × DerefRoots × Heap => ShowsOneObject {} r.1 ∧ r.2.2.mem 131336 = 258097)
    (oneProgramRun {}) := by
  decide +kernel

/-- A program compares its only `gc_ptr` with itself.  The answer is `false` if a collection moves
the object in the meantime. -/
theorem runs_comparisons_oneObject : ∃ h t h' actions,
    ProgramRun upwards (oneOwning {} h) actions ∧
      markAndSweep upwards 40 oneThread .null ({}, (oneOwning {} h).heap) = .ok (t, h') ∧
        Mutator.operatorEq .argumentFirst id id 131336 131336 (oneOwning {} h).heap.mem = true ∧
          Mutator.operatorEq .argumentFirst (fun _ => h'.mem) id 131336 131336
            (oneOwning {} h).heap.mem = false := by
  rcases oneProgramRun_moves.total with ⟨⟨h, t, h'⟩, eq, shows, after⟩
  rcases oneProgramRun_created eq with ⟨⟨actions, run⟩, collected⟩
  rcases oneOwning_harmless shows with ⟨linked, harmless⟩
  have isCell : 131336 ∈ (oneOwning {} h).cells := oneOwning_isCell
  have place : (oneOwning {} h).Denotes ⟨.cell 131336, []⟩ 131336 := .cell isCell
  have place' : { oneOwning {} h with table := t, heap := h' }.Denotes ⟨.cell 131336, []⟩ 131336 :=
    .cell isCell
  have answers := runs_comparisons run linked harmless collected place place' place place'
    .argumentFirst id id
  refine ⟨h, t, h', actions, run, collected, answers.1.equal_iff.mpr rfl, ?_⟩
  rw [Bool.eq_false_iff]
  intro same
  rcases (answers.2.1.equal_iff.mp same).2 with wordsFirst | unmoved
  · cases wordsFirst
  · rcases shows with ⟨_, _, _, _, before, _⟩
    dsimp only at after
    rw [place.follow, place'.follow, before, after] at unmoved
    exact absurd unmoved (by decide)

end PreciseGc

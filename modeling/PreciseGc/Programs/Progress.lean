import PreciseGc.Programs.Transparency

/-!
# The operations return

A process in a run is never stuck.  A request for memory and a registration
return unless the system refuses a mapping; the collections return once they
have fuel enough; and the assertions in the operations of `gc_ptr`s hold.
-/

namespace PreciseGc

open Foundation Memory

variable {pf : Platform} {t : DerefRoots} {h : Heap} {c : Census} {bigs : List Nat}
  {a p root size this fuel : Nat} {s : Process} {actions : List ProgramAction} {thread : Thread}
  {m : Mutator.State} {path target source : AccessPath RootName Nat}

namespace Mutator.State

variable {isHeapPointer : Nat → Bool}

theorem record_returns (outside : m.tlflags.newActive = false) :
    ∃ m', m.record isHeapPointer this = .ok m' := by
  simp [record, outside]

theorem pointerConstruct_returns (outside : m.tlflags.newActive = false) :
    ∃ m', m.pointerConstruct isHeapPointer this p = .ok m' :=
  record_returns outside

theorem construct_returns {init : Initializer} (outside : m.tlflags.newActive = false)
    (plain : ∀ p, init = .byCopy p → isCompositePointer (m.word p) = false) :
    ∃ m', construct isHeapPointer this init m = .ok m' := by
  cases init with
  | byDefault => exact record_returns outside
  | byCopy p =>
      simp only [construct, copyConstruct, retain_plain (plain p rfl)]
      exact record_returns outside
  | byMove p => exact ⟨_, rfl⟩

theorem assign_returns (plain : isCompositePointer (m.word this) = false) :
    ∃ m', m.assign this a = .ok m' := by
  simp only [assign, release_plain plain]
  exact ⟨_, rfl⟩

theorem setNULL_returns (plain : isCompositePointer (m.word this) = false) :
    ∃ m', m.setNULL this = .ok m' := by
  simp only [setNULL, release_plain plain]
  exact ⟨_, rfl⟩

/-- The `StackMap` of the thread still holds the `gc_ptr`, so it is not empty. -/
theorem destruct_returns (plain : isCompositePointer (m.word this) = false)
    (mem : this ∈ m.stack.addresses) : ∃ m', m.destruct this = .ok m' := by
  rcases StackMap.deleteStackRoot_spec mem with ⟨stack, deleted, _⟩
  simp only [destruct, deleted, release_plain plain]
  split
  · exact ⟨_, rfl⟩
  · exact ⟨_, rfl⟩

end Mutator.State

namespace RootsValid

variable (valid : RootsValid pf t h c bigs)

include valid

/-- Partial collections of any table return. -/
theorem cleanDerefRoots_returns (threads : List ThreadHandler) (enough : bigs.length < fuel)
    (t' : DerefRoots) : ∃ t'', cleanDerefRoots fuel threads h t' = .ok t'' :=
  ⟨_, cleanDerefRoots_table valid.big.chain enough threads t'⟩

/-- A registration returns unless the mapping for new records is refused. -/
theorem registerDereferencedRoot_returns (threads : List ThreadHandler)
    (enough : bigs.length < fuel) (space : Option Nat) (root size : Nat) (t' : DerefRoots) :
    Yields (fun fault => fault = Fault.mapFailed ∧ space = none) (fun _ => True)
      (registerDereferencedRoot space (cleanDerefRoots fuel threads h) root size t') := by
  have registered : Yields (fun fault => fault = Fault.mapFailed ∧ space = none) (fun _ => True)
      (t'.register space root size) := by
    unfold DerefRoots.register
    split
    · trivial
    · unfold DerefRoots.refill
      split
      · trivial
      · exact ⟨rfl, rfl⟩
      · trivial
  apply registered.bind
  rintro ⟨needGc, t₁⟩ _
  dsimp only
  split
  · rcases valid.cleanDerefRoots_returns threads enough t₁ with ⟨t₂, cleaned⟩
    rw [cleaned]
    trivial
  · trivial

/-- A full collection of plain objects without an overflow in the `StackMap`s returns. -/
theorem markAndSweep_returns {threads : List ThreadHandler} {fakeRoots : FakeRoots}
    (plain : PlainProcess pf threads fakeRoots h)
    (fit : ∀ fuel, stackMapsFit fuel threads (t, h) = true) : ∃ bound, ∀ fuel ≥ bound,
      Yields (· = Fault.mapFailed) (fun s => ∃ c bigs, RootsValid pf s.1 s.2 c bigs)
        (markAndSweep pf fuel threads fakeRoots (t, h)) := by
  have ready := valid.collectionReady (plain.collection fit)
  rcases exists_goFuel h (objectBlocks h c bigs) bigs with ⟨bound, enough⟩
  refine ⟨bound + sweepFuel pf c bigs, fun fuel more => ?_⟩
  apply (ready.collected (enough fuel (by omega)) (by omega) (fit fuel)).mono
  rintro s ⟨t₁, h₁, moved, r, c₂, c', collected⟩
  exact ⟨c', _, collected.rootsValid valid ready⟩

end RootsValid

/-- What a process can do next: no operation stops for another reason than a refused mapping. -/
structure Responds (pf : Platform) (s : Process) : Prop where
  gcmalloc : ∀ bytes < 2 ^ 63, ∀ expand, Yields (· = Fault.mapFailed)
    (fun r => r.1 = 0 ∨ ∃ b, r.1 = blockData b ∧ InUse r.2 b ∧ ¬InUse s.heap b)
    (gcmallocLocked pf bytes expand s.heap)
  register : ∃ bound, ∀ fuel ≥ bound, ∀ space root size,
    Yields (fun fault => fault = Fault.mapFailed ∧ space = none) (fun _ => True)
      (registerDereferencedRoot space (cleanDerefRoots fuel s.handlers s.heap) root size s.table)
  partialCollection : ∃ bound, ∀ fuel ≥ bound,
    ∃ t, cleanDerefRoots fuel s.handlers s.heap s.table = .ok t
  fullCollection : (∀ fuel, stackMapsFit fuel s.handlers (s.table, s.heap) = true) →
    ∃ bound, ∀ fuel ≥ bound,
      Yields (· = Fault.mapFailed) (fun s => ∃ c bigs, RootsValid pf s.1 s.2 c bigs)
        (markAndSweep pf fuel s.handlers s.fakeRoots (s.table, s.heap))
  pointerConstruct : ∀ thread m, s.Sees thread m → ∀ isHeapPointer this p,
    ∃ m', m.pointerConstruct isHeapPointer this p = .ok m'
  construct : ∀ thread m, s.Sees thread m → ∀ isHeapPointer this init source,
    s.Copies init source → ∃ m', Mutator.State.construct isHeapPointer this init m = .ok m'
  assign : ∀ thread m, s.Sees thread m → ∀ target source this a, s.Denotes target this →
    s.Denotes source a → ∃ m', m.assign this a = .ok m'
  setNULL : ∀ thread m, s.Sees thread m → ∀ target this, s.Denotes target this →
    ∃ m', m.setNULL this = .ok m'
  destruct : ∀ thread ∈ s.threads, ∀ m, s.Sees thread m → ∀ this ∈ thread.stack.addresses,
    ∃ m', m.destruct this = .ok m'

namespace Process.Sound

variable (sound : s.Sound pf)

include sound

theorem plain_of_denotes (denotes : s.Denotes path a) (sees : s.Sees thread m) :
    isCompositePointer (m.word a) = false :=
  (sound.word_of_sees denotes sees).plain

theorem gcmalloc_returns {bytes : Nat} (bounded : bytes < 2 ^ 63) (expand : Bool) :
    Yields (· = Fault.mapFailed)
      (fun r => r.1 = 0 ∨ ∃ b, r.1 = blockData b ∧ InUse r.2 b ∧ ¬InUse s.heap b)
      (gcmallocLocked pf bytes expand s.heap) := by
  rcases sound.valid with ⟨c, bigs, valid⟩
  apply (gcmallocLocked_yields valid.toAllocatorState bounded expand).mono
  rintro ⟨p, h'⟩ ⟨⟨c', bigs', grown, answer⟩, _⟩
  rcases answer with refused | ⟨b, eq, served⟩
  · exact Or.inl refused
  · refine Or.inr ⟨b, eq, grown.state.inUse_iff.mpr served.used, fun used => ?_⟩
    exact served.fresh (valid.inUse_iff.mp used)

theorem responds : Responds pf s := by
  rcases sound.valid with ⟨c, bigs, valid⟩
  refine
    { gcmalloc := fun bytes bounded expand => sound.gcmalloc_returns bounded expand
      register := ⟨bigs.length + 1, fun fuel enough space root size => ?_⟩
      partialCollection := ⟨bigs.length + 1, fun fuel enough => ?_⟩
      fullCollection := valid.markAndSweep_returns sound.plainProcess
      pointerConstruct := fun _ m sees _ _ _ => m.pointerConstruct_returns sees.outside
      construct := ?_
      assign := fun _ m sees _ _ _ _ denotes _ =>
        m.assign_returns (sound.plain_of_denotes denotes sees)
      setNULL := fun _ m sees _ _ denotes =>
        m.setNULL_returns (sound.plain_of_denotes denotes sees)
      destruct := ?_ }
  · exact valid.registerDereferencedRoot_returns _ (by omega) space root size _
  · exact valid.cleanDerefRoots_returns _ (by omega) _
  · intro thread m sees isHeapPointer this init source copies
    apply Mutator.State.construct_returns sees.outside
    rintro p rfl
    cases copies with
    | byCopy denotes => exact sound.plain_of_denotes denotes sees
  · intro thread running m sees this mem
    have isCell : this ∈ s.cells :=
      mem_cells_of_registered (List.mem_flatMap.mpr ⟨thread, running, mem⟩)
    apply Mutator.State.destruct_returns
    · exact sound.plain_of_denotes (.cell isCell) sees
    · rw [sees.stack]
      exact mem

end Process.Sound

/-- In every run no operation of the process faults, unless a mapping is refused. -/
theorem runs_neverFault (run : ProgramRun pf s actions) : Responds pf s :=
  run.sound.responds

theorem runs_neverFault_oneObject : ∃ h actions, ProgramRun upwards (oneOwning oneRoot h) actions ∧
    Responds upwards (oneOwning oneRoot h) := by
  rcases oneOwning_run with ⟨h, _, _, actions, run, _⟩
  exact ⟨h, actions, run, runs_neverFault run⟩

end PreciseGc

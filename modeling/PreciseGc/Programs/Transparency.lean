import PreciseGc.Programs.Allocations
import PreciseGc.Programs.Collections

/-!
# What programs see of the collector

Every step of a process keeps it sound and performs the action it is labelled
with.  So in every run whose full collections are harmless the memory stays safe,
and the program cannot tell its process from an ideal store, in which nothing is
moved and nothing taken away.  A full collection leaves exactly the objects that
the ideal store still gives access to.
-/

namespace PreciseGc

open Foundation Memory Relation

variable {pf : Platform} {t : DerefRoots} {h : Heap} {c : Census} {bigs : List Nat}
  {a b d w x fuel : Nat} {s s' : Process} {label : Option ProgramAction}
  {actions : List ProgramAction}

namespace Process

namespace Sound

variable (sound : s.Sound pf)

include sound

/-- The words of stacks that find a handler lie in its object. -/
theorem wordTarget_of_hits (hits : Hits s.table w b) : wordTarget s.table s.heap w = some b := by
  rcases sound.valid with ⟨c, bigs, valid⟩
  rcases hits with ⟨handler, found, pointer⟩
  rcases lookup_eq_some.mp found with ⟨_, inChain⟩
  rcases sound.covers _ handler.range
    (List.mem_map_of_mem (List.mem_of_find?_eq_some inChain)) with
    ⟨_, size, ⟨d, _, start, within⟩, stop⟩
  obtain rfl : b = d := objectOf_inj (pointer.symm.trans start)
  have inside := List.find?_some inChain
  simp only [RootHandler.contains, Bool.and_eq_true, decide_eq_true_eq] at inside
  have upper : handler.stop ≤ handler.plainPointer + size := by
    have stop : handler.stop = ptrAdd handler.plainPointer size := stop
    rw [stop]
    exact Nat.mod_le _ _
  have within : handler.plainPointer + size < b + 8 + blockSize (s.heap.mem b) := within
  exact valid.wordTarget_iff.mpr ⟨handler, found, pointer, by omega⟩

theorem cell_accessible (mem : a ∈ s.cells) (leads : Leads s.heap.mem (s.heap.mem a) b) :
    s.store.Accessible b := by
  have word := (sound.cell a mem).word
  have led : s.store.root (.cell a) = some b := by
    rw [store_cell, if_pos mem]
    exact pointee_of_designates (word.leads_iff.mp leads)
  exact .root led

theorem accessible_of_root
    (root : RootObject s.heap bigs s.table s.handlers s.fakeRoots b) : s.store.Accessible b := by
  rcases root with (⟨w, mem, _, hits⟩ | ⟨a, mem, leads⟩) | ⟨a, mem, leads⟩
  · have led : s.store.root (.word w) = some b := by
      change w ∈ wordsOf s.handlers at mem
      rw [wordsOf_handlers] at mem
      rw [store_word, if_pos mem]
      exact sound.wordTarget_of_hits hits
    exact .root led
  · have isRoot := mem_stackRoots.mpr mem
    rw [stackRoots_handlers] at isRoot
    exact sound.cell_accessible (mem_cells_of_registered isRoot) leads
  · exact sound.cell_accessible (List.mem_append_right _ mem) leads

/-- The mark phase reaches what the program comes to, and nothing else. -/
theorem accessible_of_live (isLive : Live s.handlers s.fakeRoots s.table s.heap bigs b) :
    s.store.Accessible b := by
  rcases isLive with ⟨d, root, reaches⟩
  induction reaches with
  | refl => exact sound.accessible_of_root root
  | @tail e b _ pointsTo ih =>
      rcases pointsTo with ⟨x, slot, leads⟩
      have isObject := sound.object_of_accessible ih
      have bounds := (sound.object e isObject).object.slot_bounds slot
      have place : e + (x - e) = x := by omega
      have word := (sound.object e isObject).slot x slot
      have led : s.store.slot e (x - e) = some b := by
        rw [store_slot, place, if_pos slot]
        exact pointee_of_designates (word.leads_iff.mp leads)
      exact ih.slot led

/-- After a harmless full collection all objects are accessible. -/
theorem accessible_of_collected
    (linked : Chain (bigNext s.heap.mem) s.heap.firstBigBlock bigs)
    (harmless : Harmless s.handlers s.fakeRoots s.table s.heap bigs)
    (eq : markAndSweep pf fuel s.handlers s.fakeRoots (s.table, s.heap) = .ok (t, h))
    (isObject : ObjectBlock h d) : { s with table := t, heap := h }.store.Accessible d := by
  rcases sound.valid with ⟨c, bigs', valid⟩
  obtain rfl := linked.unique valid.big.chain
  rcases harmless.fits with ⟨fuel₀, fits⟩
  rcases valid.collectedLive sound.plainProcess fits eq with
    ⟨_, _, _, _, _, _, live⟩
  rcases live.origin isObject with ⟨b, isLive, rfl⟩
  exact (live.renames harmless.toUnmoved).accessible_iff.mpr
    ⟨b, sound.accessible_of_live isLive, rfl⟩

end Sound

theorem Starting.noCells (starting : s.Starting pf) : s.cells = [] := by
  rw [cells, starting.registered, starting.fakeRoots]
  rfl

theorem Starting.noRoots (starting : s.Starting pf) (name : RootName) :
    s.store.root name = none := by
  cases name with
  | cell a => simp [starting.noCells]
  | word w =>
      have missing : s.table.lookup w = none := by
        simp [starting.table, DerefRoots.lookup]
      simp [wordTarget, missing]

theorem Starting.valid (starting : s.Starting pf) : RootsValid pf s.table s.heap {} [] :=
  @InitialRoots.rootsValid pf (s.table, s.heap) ⟨starting.table, starting.heap⟩

theorem Starting.noObject (starting : s.Starting pf) : ¬ObjectBlock s.heap b := by
  intro isObject
  have never := starting.valid.inUse_iff.mp isObject.1
  simp [Census.Used] at never

theorem Starting.sound (starting : s.Starting pf) : s.Sound pf := by
  refine
    { small := starting.small, valid := ⟨{}, [], starting.valid⟩, covers := ?_,
      object := fun b isObject => absurd isObject starting.noObject, node := ?_, cell := ?_,
      once := ?_ }
  · simp [Registers, starting.table]
  · simp [starting.fakeRoots, FakeRoots.nodes]
  · simp [starting.noCells]
  · simp [starting.registered]

/-- Every step keeps a process sound and performs its action. -/
theorem ProgramStep.keeps (stepped : ProgramStep pf label s s') (sound : s.Sound pf) :
    s'.Sound pf ∧ s.Performs label s' := by
  cases stepped with
  | create running fits bounded allocated free nonnull away sees constructed =>
      exact sound.create_next running fits bounded allocated free nonnull away sees constructed
  | construct running free nonnull copies sees constructed =>
      exact sound.construct_next running free nonnull copies sees constructed
  | destruct running mem sees destroyed => exact sound.destruct_next running mem sees destroyed
  | assign running target source sees assigned =>
      exact sound.assign_next running target source sees assigned
  | setNULL running target sees cleared => exact sound.setNULL_next running target sees cleared
  | modify led lower upper notSlot => exact sound.modify_next led lower upper notSlot
  | dereference denotes led mem small onStack only gc registered =>
      exact sound.dereference_next denotes led mem small onStack only gc registered
  | word perm words value => exact sound.word_next perm words value
  | registerObject foreign nonnull notNode notShell word value eq free other =>
      exact sound.registerObject_next foreign nonnull notNode notShell word value eq free other
  | unregisterObject gone => exact sound.unregisterObject_next gone
  | refused bounded allocated => exact sound.refused_next bounded allocated
  | write free => exact sound.write_next free
  | frames perm words => exact sound.frames_next perm words
  | partialCollection cleaned => exact sound.partialCollection_next cleaned
  | fullCollection linked harmless collected =>
      exact sound.fullCollection_next linked harmless collected

end Process

/-- A run of a process from its start, with the actions that the program has performed. -/
def ProgramRun (pf : Platform) (s : Process) (actions : List ProgramAction) : Prop :=
  Reachable (fun p : Process × List ProgramAction => p.1.Starting pf ∧ p.2 = [])
    (Recording (Process.ProgramStep pf)) (s, actions)

theorem ProgramRun.next (run : ProgramRun pf s actions)
    (stepped : Process.ProgramStep pf label s s') :
    ProgramRun pf s' (actions ++ label.toList) :=
  Reachable.next run ⟨label, stepped, rfl⟩

theorem ProgramRun.sound (run : ProgramRun pf s actions) : s.Sound pf := by
  refine @Reachable.invariant _ _ _ _ (fun p => p.1.Sound pf) run ?_ ?_
  · exact fun _ starts => starts.1.sound
  · rintro ⟨s, actions⟩ ⟨s', actions'⟩ sound ⟨label, stepped, _⟩
    exact (stepped.keeps sound).1

/-- The safety of the memory: objects lie in mapped memory and do not overlap, `gc_ptr`s and slots
are null or designate objects, and raw pointers of stacks with a handler point into its object. -/
structure MemorySafe (s : Process) : Prop where
  mapped : ∀ b, ObjectBlock s.heap b → ∃ r ∈ s.heap.mappings,
    r.start ≤ b ∧ b + 8 + blockSize (s.heap.mem b) ≤ r.start + r.length
  disjoint : ∀ b d, ObjectBlock s.heap b → ObjectBlock s.heap d → b ≠ d →
    b + 8 + blockSize (s.heap.mem b) ≤ d ∨ d + 8 + blockSize (s.heap.mem d) ≤ b
  cell : ∀ a ∈ s.cells, PlainWord s.heap (s.heap.mem a) ∧
    ∀ b, ObjectBlock s.heap b → a < b ∨ b + 8 + blockSize (s.heap.mem b) ≤ a
  slot : ∀ b, ObjectBlock s.heap b → ∀ x ∈ slotsOf s.heap.mem b, PlainWord s.heap (s.heap.mem x) ∧
    objectOf b ≤ x ∧ x + 8 ≤ b + 8 + blockSize (s.heap.mem b)
  word : ∀ w b, Hits s.table w b → ObjectBlock s.heap b ∧ objectOf b ≤ w ∧
    w < b + 8 + blockSize (s.heap.mem b)

/-- In every run whose full collections are harmless the memory is safe. -/
theorem runs_memorySafe (run : ProgramRun pf s actions) : MemorySafe s := by
  have sound := run.sound
  rcases sound.valid with ⟨c, bigs, valid⟩
  refine ⟨?_, ?_, ?_, ?_, ?_⟩
  · intro b isObject
    exact valid.used_mapped (valid.inUse_iff.mp isObject.1)
  · exact fun b d => sound.disjoint
  · intro a mem
    have cell := sound.cell a mem
    exact ⟨cell.word, fun b isObject => sound.foreign_outside isObject cell.foreign⟩
  · intro b isObject x slot
    have bounds := (sound.object b isObject).object.slot_bounds slot
    rw [objectOf_eq]
    exact ⟨(sound.object b isObject).slot x slot, bounds⟩
  · intro w b hits
    rcases valid.wordTarget_iff.mp (sound.wordTarget_of_hits hits) with
      ⟨handler, found, pointer, inside⟩
    rcases valid.handler_object found with ⟨d, isObject, start, lower⟩
    obtain rfl : b = d := objectOf_inj (pointer.symm.trans start)
    exact ⟨isObject, lower, inside⟩

theorem ProgramRun.alike (run : ProgramRun pf s actions) :
    s.store.Alike (Ideal.empty.performAll actions).store := by
  apply alike_ideal Process.store _ _ _ _ run
  · exact fun s => s.Sound pf
  · exact fun s starting => ⟨starting.sound, starting.noRoots⟩
  · exact fun label s s' sound stepped => (stepped.keeps sound).1
  · exact fun s s' sound stepped => (stepped.keeps sound).2
  · exact fun a s s' sound stepped => (stepped.keeps sound).2

/-- A program sees the ideal store of its actions, wherever and whenever collections happen: in any
two runs with the same actions it finds the same. -/
theorem runs_transparent {pf' : Platform} (run : ProgramRun pf s actions)
    (run' : ProgramRun pf' s' actions) :
    s.store.Alike (Ideal.empty.performAll actions).store ∧ s.store.Alike s'.store :=
  ⟨run.alike, run.alike.trans run'.alike.symm⟩

/-- A full collection leaves the objects that the ideal store gives access to, and no others. -/
theorem runs_collectGarbage (run : ProgramRun pf s actions)
    (linked : Chain (bigNext s.heap.mem) s.heap.firstBigBlock bigs)
    (harmless : Harmless s.handlers s.fakeRoots s.table s.heap bigs)
    (eq : markAndSweep pf fuel s.handlers s.fakeRoots (s.table, s.heap) = .ok (t, h)) :
    ∃ place, (Ideal.empty.performAll actions).store.Renames place
        { s with table := t, heap := h }.store ∧
      ∀ d, ObjectBlock h d ↔
        ∃ b, (Ideal.empty.performAll actions).store.Accessible b ∧ place b = d := by
  have run' : ProgramRun pf { s with table := t, heap := h } actions := by
    simpa using run.next (.fullCollection linked harmless eq)
  rcases run'.alike.symm.exists_renames with ⟨place, renames⟩
  refine ⟨place, renames, fun d => ?_⟩
  rw [← renames.accessible_iff]
  constructor
  · exact run.sound.accessible_of_collected linked harmless eq
  · exact run'.sound.object_of_accessible

/-- The heap of `shellsHeap`, and a thread on whose stack the address of the object lies. -/
def oneProcess : Process where
  table := {}
  heap := shellsHeap
  threads := [⟨[262192], .empty⟩]
  fakeRoots := .null

/-- The one object of a program, with a slot that is null. -/
def oneCreation : Creation where
  size := 16
  count := 1
  shell := 131160
  offsets := [8]
  fields := []

/-- The thread when the object has been built. -/
def oneBuilder (h : Heap) : Mutator.State where
  word := oneCreation.construct 262160 h.mem
  composite _ := ⟨0, 0, 0⟩
  tlflags := .initial
  stack := .empty
  clMeta _ := none
  objects := []
  automatics := []
  locals := []

/-- The thread with its `gc_ptr`. -/
def oneOwner (h : Heap) : Mutator.State :=
  let built := (oneBuilder h).setWord 131336 262192
  (built.setStack (built.stack.registerStackRoot 131336)).setWord 131336
    (Mutator.setStackFlag (built.word 131336))

/-- The process with the `gc_ptr`, and a handler once it was dereferenced. -/
def oneOwning (t : DerefRoots) (h : Heap) : Process where
  table := t
  heap := { h with mem := (oneOwner h).word }
  threads := [⟨[262192], (oneOwner h).stack⟩]
  fakeRoots := .null

/-- The object is created, and a full collection starts with the table `t`. -/
def oneProgramRun (t : DerefRoots) : Except Fault (Heap × DerefRoots × Heap) :=
  gcmallocLocked upwards 40 true shellsHeap >>= fun (p, h) =>
    if p = 262168 then
      markAndSweep upwards 40 oneThread .null (t, (oneOwning t h).heap) >>= fun s => .ok (h, s)
    else .error .assertFailed

/-- What a run shows of the process before the collection. -/
def ShowsOneObject (t : DerefRoots) (h : Heap) : Prop :=
  PageTable.Describes [(262144, [262160])] (oneOwning t h).heap ∧
    (oneOwning t h).heap.firstBigBlock = 0 ∧
      (shellOf (oneOwning t h).heap.mem 262160 = 131160 ∧
        countOf (oneOwning t h).heap.mem 262160 = 1) ∧
        (shellSize (oneOwning t h).heap.mem 131160 = 16 ∧
          shellCount (oneOwning t h).heap.mem 131160 = 1) ∧
          (oneOwning t h).heap.mem 131336 = 262193 ∧
            Yields (fun _ => False) (fun _ => True)
              ((fitting 40).markRoots 40 oneThread .null (t, (oneOwning t h).heap))

instance (t : DerefRoots) (h : Heap) : Decidable (ShowsOneObject t h) :=
  inferInstanceAs (Decidable (_ ∧ _ ∧ (_ ∧ _) ∧ (_ ∧ _) ∧ _ ∧ _))

theorem oneProgramRun_collects : Yields (fun _ => False)
    (fun r : Heap × DerefRoots × Heap => ShowsOneObject oneRoot r.1) (oneProgramRun oneRoot) := by
  decide +kernel

theorem oneProcess_starting : oneProcess.Starting upwards where
  small := by decide
  heap := ⟨_, _, rfl, by decide⟩
  table := rfl
  registered := rfl
  fakeRoots := rfl

theorem oneProcess_freeWord (lower : 131072 ≤ x) (upper : x < 135168) :
    oneProcess.FreeWord upwards x := by
  have noBigs : ∀ big, ¬LargeBlock oneProcess.heap big := by
    rintro big ⟨bigs, chain, mem⟩
    rw [chain.head_eq_zero_iff.mp rfl] at mem
    cases mem
  have noPages : mappedPages upwards oneProcess.heap = [] := by decide
  refine ⟨⟨⟨⟨⟨131072, 4096⟩, List.mem_singleton.mpr rfl, lower, upper⟩, ?_, ?_⟩, ?_, ?_⟩, ?_⟩
  · simp [noPages]
  · exact fun big isLarge => absurd isLarge (noBigs big)
  · simp [oneProcess_starting.noCells]
  · simp [NodeWord, oneProcess, FakeRoots.nodes]
  · exact fun b isObject => absurd isObject oneProcess_starting.noObject

theorem oneCreation_fits : oneCreation.Fits upwards oneProcess where
  shell := by decide
  apart x lower upper := by
    have lower : 131160 ≤ x := lower
    have upper : x < 131184 := upper
    exact (oneProcess_freeWord (by omega) (by omega)).toApart
  inside := by decide
  nodup := by decide
  few := by decide
  fields := by simp [oneCreation]

theorem oneOwning_created
    (allocated : gcmallocLocked upwards 40 true shellsHeap = .ok (262168, h)) :
    Process.ProgramStep upwards
      (some (.create (.cell 131336) (contentOf (oneCreation.construct 262160 h.mem) 262160)))
      oneProcess (oneOwning {} h) :=
  @Process.ProgramStep.create upwards oneProcess oneCreation true 262160 131336 h [] []
    ⟨[262192], .empty⟩ (oneBuilder h) (oneOwner h) (fun _ => false) rfl oneCreation_fits
    (by decide) allocated (oneProcess_freeWord (by decide) (by decide)) (by decide) (by decide)
    ⟨rfl, rfl, rfl⟩ rfl

theorem oneOwning_isCell : 131336 ∈ (oneOwning t h).cells := by
  have registered : (oneOwning t h).cells = [131336] := rfl
  simp [registered]

theorem oneOwning_dereferenced (metadata : shellOf (oneOwning {} h).heap.mem 262160 = 131160 ∧
      countOf (oneOwning {} h).heap.mem 262160 = 1)
    (size : shellSize (oneOwning {} h).heap.mem 131160 = 16)
    (held : (oneOwning {} h).heap.mem 131336 = 262193) : Process.ProgramStep upwards
      (some (.assignRoot (.word 262192) (some ⟨.cell 131336, []⟩))) (oneOwning {} h)
        (oneOwning oneRoot h) := by
  have designates : Designates ((oneOwning {} h).heap.mem 131336) 262160 := by
    rw [held]
    decide
  have led : (oneOwning {} h).store.follow ⟨.cell 131336, []⟩ = some 262160 := by
    rw [(Process.Denotes.cell oneOwning_isCell).follow]
    exact pointee_of_designates designates
  have registered : registerDereferencedRoot (some 524288) .ok 262192 16 {} = .ok oneRoot := rfl
  have registers : (⟨262192, 16, 262168⟩ : Mutator.Registration) ∈
      (Mutator.Operator.arrow.apply id 16 131336 (oneOwning {} h).heap.mem).registrations := by
    have start := (@Mutator.getPtr_eq_iff id 131336 262160 (oneOwning {} h).heap.mem).mpr
      (Or.inl designates)
    have count : metaCount (oneOwning {} h).heap.mem 262168 = 1 := metadata.2
    rw [Mutator.registrations_apply (by decide), start]
    simp [Mutator.registerPointer, objectOf_eq, getMetaInf, sizeofBaseMeta, count, wordSpace]
  apply @Process.ProgramStep.dereference upwards (oneOwning {} h) .arrow 16 131336 262160
    ⟨.cell 131336, []⟩ ⟨262192, 16, 262168⟩ (some 524288) .ok oneRoot (.cell oneOwning_isCell) led
    registers
  · rw [metadata.1]
    exact Nat.le_of_eq size.symm
  · exact List.mem_singleton.mpr rfl
  · intro w mem other
    exact absurd (List.mem_singleton.mp mem) other
  · exact Or.inl rfl
  · exact registered

theorem oneOwning_harmless (shows : ShowsOneObject t h) :
    Chain (bigNext (oneOwning t h).heap.mem) (oneOwning t h).heap.firstBigBlock [] ∧
      Harmless oneThread .null t (oneOwning t h).heap [] := by
  rcases shows with ⟨describes, noBigs, metadata, shell, _, fits⟩
  rcases fits.total with ⟨s₁, fits, _⟩
  have noLarge : ∀ big, ¬LargeBlock (oneOwning t h).heap big := by
    rintro big ⟨bigs, chain, mem⟩
    rw [chain.head_eq_zero_iff.mp noBigs] at mem
    cases mem
  exact ⟨noBigs, ⟨fun big isLarge => absurd isLarge (noLarge big), by simp [FakeRoots.nodes]⟩,
    ⟨40, s₁, fits⟩⟩

/-- The heap in which the object was created, and the collection that follows. -/
theorem oneProgramRun_created {r : Heap × DerefRoots × Heap} (eq : oneProgramRun t = .ok r) :
    (∃ actions, ProgramRun upwards (oneOwning {} r.1) actions) ∧
      markAndSweep upwards 40 oneThread .null (t, (oneOwning t r.1).heap) = .ok r.2 := by
  rcases bind_eq_ok eq with ⟨⟨p, h₁⟩, allocated, eq⟩
  dsimp only at eq
  split at eq
  · rename_i same
    subst same
    rcases bind_eq_ok eq with ⟨s, collected, eq⟩
    cases eq
    have start : ProgramRun upwards oneProcess [] := Reachable.start ⟨oneProcess_starting, rfl⟩
    exact ⟨⟨_, start.next (oneOwning_created allocated)⟩, collected⟩
  · cases eq

/-- The program has created its object and dereferenced it, and a full collection is harmless. -/
theorem oneOwning_run : ∃ h t h' actions, ProgramRun upwards (oneOwning oneRoot h) actions ∧
    Chain (bigNext (oneOwning oneRoot h).heap.mem) (oneOwning oneRoot h).heap.firstBigBlock [] ∧
      Harmless oneThread .null oneRoot (oneOwning oneRoot h).heap [] ∧
        markAndSweep upwards 40 oneThread .null (oneRoot, (oneOwning oneRoot h).heap) =
          .ok (t, h') := by
  rcases oneProgramRun_collects.total with ⟨⟨h, t, h'⟩, eq, shows⟩
  rcases oneProgramRun_created eq with ⟨⟨actions, created⟩, collected⟩
  rcases oneOwning_harmless shows with ⟨linked, harmless⟩
  rcases shows with ⟨_, _, metadata, shell, held, _⟩
  have run := created.next (oneOwning_dereferenced metadata shell.1 held)
  exact ⟨h, t, h', _, run, linked, harmless, collected⟩

theorem runs_memorySafe_oneObject : ∃ h actions, ProgramRun upwards (oneOwning oneRoot h) actions ∧
    MemorySafe (oneOwning oneRoot h) := by
  rcases oneOwning_run with ⟨h, _, _, actions, run, _⟩
  exact ⟨h, actions, run, runs_memorySafe run⟩

/-- The program finds the same with the collection and without it. -/
theorem runs_transparent_oneObject : ∃ h t h' actions,
    markAndSweep upwards 40 oneThread .null (oneRoot, (oneOwning oneRoot h).heap) = .ok (t, h') ∧
      (oneOwning oneRoot h).store.Alike (Ideal.empty.performAll actions).store ∧
        (oneOwning oneRoot h).store.Alike
          { oneOwning oneRoot h with table := t, heap := h' }.store := by
  rcases oneOwning_run with ⟨h, t, h', actions, run, linked, harmless, eq⟩
  have run' := run.next (.fullCollection linked harmless eq)
  rw [Option.toList_none, List.append_nil] at run'
  exact ⟨h, t, h', actions, eq, runs_transparent run run'⟩

theorem runs_collectGarbage_oneObject : ∃ h t h' actions place,
    markAndSweep upwards 40 oneThread .null (oneRoot, (oneOwning oneRoot h).heap) = .ok (t, h') ∧
      (Ideal.empty.performAll actions).store.Renames place
          { oneOwning oneRoot h with table := t, heap := h' }.store ∧
        ∀ d, ObjectBlock h' d ↔
          ∃ b, (Ideal.empty.performAll actions).store.Accessible b ∧ place b = d := by
  rcases oneOwning_run with ⟨h, t, h', actions, run, linked, harmless, eq⟩
  rcases runs_collectGarbage run linked harmless eq with ⟨place, renames, objects⟩
  exact ⟨h, t, h', actions, place, eq, renames, objects⟩

end PreciseGc

import PreciseGc.Mutator.ReferenceCounts
import PreciseGc.Sweep.Relocation

/-!
# What `attach` records

A call `x.attach(p, b)` copies `b` into a parameter, allocates a record and
stores two addresses in it: the one that the conversion of the parameter to a
pointer yields, and `p`.  The allocation may collect.  A composite `gc_ptr`
converts to the address in its record, which need not be the start of the
object, and nothing redirects `p`.
-/

namespace PreciseGc.Mutator

open Foundation State Function

/-- What a collection does: where it puts the object that starts at an address, and what the thread
finds afterwards. -/
structure Collection where
  place : Nat → Nat
  after : State → State

/-- A call `x.attach(pointer, b)`: the address of `x`, that of the parameter `base`, the record that
`my_malloc` returns, and the collection that it makes if it has to. -/
structure AttachCall where
  this : Nat
  pointer : Nat
  param : Nat
  cp : Nat
  aligned : cp % 8 = 0
  collection : Option Collection

/-- The rest of `attach`, behind the allocation. -/
def State.compose (this pointer base cp : Nat) (s : State) : State :=
  let s := s.setComposite cp
    { base := s.getPtr (s.word base), pointer := pointer, refCount := 1 }
  s.setWord this (if isStackPointer (s.word this) then setBothFlags cp else setCompositeFlag cp)

namespace AttachCall

/-- The collection that the call makes. -/
def runs (call : AttachCall) (s : State) : Option Collection :=
  if s.isUnsafePoint then none else call.collection

/-- The thread after the allocation. -/
def allocate (call : AttachCall) (s : State) : State :=
  ((call.runs s).map fun c => c.after s).getD s

/-- Where the object that starts at this address is after the allocation. -/
def place (call : AttachCall) (s : State) (start : Nat) : Nat :=
  ((call.runs s).map fun c => c.place start).getD start

/-- The call up to the allocation: the parameter is a copy, and `x` gives up its reference. -/
def prepare (isHeapPointer : Nat → Bool) (call : AttachCall) (b : Nat) (s : State) :
    Except Fault State :=
  s.settle (.automatic call.param) >>= fun s =>
    s.copyConstruct isHeapPointer call.param b >>= fun s => s.release (s.word call.this)

/-- The call from the allocation on, with the destructor of the parameter. -/
def finish (call : AttachCall) (s : State) : Except Fault State :=
  ((call.allocate s).compose call.this call.pointer call.param call.cp).leave call.param >>=
    fun s => s.destruct call.param

def perform (isHeapPointer : Nat → Bool) (call : AttachCall) (b : Nat) (s : State) :
    Except Fault State :=
  call.prepare isHeapPointer b s >>= call.finish

end AttachCall

/-- The address in the record of a composite `gc_ptr`. -/
def State.interior (a : Nat) (s : State) : Option Nat :=
  (s.referent a).map fun cp => (s.composite cp).pointer

/-- The `gc_ptr` at `a` converts to this address: it is plain and holds the address, or it is
composite and its record does. -/
def State.LeadsTo (a start : Nat) (s : State) : Prop :=
  s.interior a = some start ∨ s.interior a = none ∧ clearStackFlag (s.word a) = start

/-- The record holds the start of the object and an address at this distance from it. -/
def CompositePointer.Records (record : CompositePointer) (start : Nat) (distance : Int) : Prop :=
  record.base = start ∧ (record.pointer : Int) - start = distance

instance (record : CompositePointer) (start : Nat) (distance : Int) :
    Decidable (record.Records start distance) :=
  inferInstanceAs (Decidable (_ ∧ _))

/-- The `gc_ptr` at `b` is plain, or it comes from a chain of calls of `attach` and has the address
of the last one.  It may have been copied, and other operations may have gone on in between. -/
inductive Attached (isHeapPointer : Nat → Bool) : State → Nat → Option Nat → Prop where
  | plain {s : State} {b : Nat} (isPlain : s.referent b = none) : Attached isHeapPointer s b none
  | attach {s s' : State} {b : Nat} {last : Option Nat} (call : AttachCall)
      (chain : Attached isHeapPointer s b last)
      (returned : call.perform isHeapPointer b s = .ok s') :
      Attached isHeapPointer s' call.this (some call.pointer)
  | carry {s s' : State} {b b' : Nat} {last : Option Nat} (chain : Attached isHeapPointer s b last)
      (word : clearStackFlag (s'.word b') = clearStackFlag (s.word b))
      (pointer : ∀ cp, s.referent b = some cp →
        (s'.composite cp).pointer = (s.composite cp).pointer) :
      Attached isHeapPointer s' b' last

section

variable {isHeapPointer : Nat → Bool} {s t s' : State} {call : AttachCall} {b start : Nat}
  {last : Option Nat}

theorem runs_of_quiet (quiet : call.collection = none) (s : State) : call.runs s = none := by
  unfold AttachCall.runs
  rw [quiet]
  split <;> rfl

/-- Without a collection, the call is made of the operations on the parameter and of `attach`. -/
theorem perform_eq (quiet : call.collection = none) (sizeof : Nat → Nat) (base b : Nat)
    (s : State) : call.perform isHeapPointer b s =
      performAll isHeapPointer sizeof base [.construct (.automatic call.param) (.byCopy b),
        .attach call.this call.pointer call.param call.cp, .destruct call.param] s := by
  simp only [AttachCall.perform, AttachCall.prepare, performAll, Mutator.perform, Place.address]
  cases s.settle (.automatic call.param) with
  | error fault => rfl
  | ok settled =>
      simp only [bind, Except.bind, construct]
      cases settled.copyConstruct isHeapPointer call.param b with
      | error fault => rfl
      | ok copied =>
          simp only [State.attach, bind, Except.bind]
          cases copied.release (copied.word call.this) with
          | error fault => rfl
          | ok released =>
              have ends : ∀ result : Except Fault State, result = result >>= fun s => .ok s := by
                intro result
                cases result <;> rfl
              simp only [AttachCall.finish, AttachCall.allocate, runs_of_quiet quiet]
              exact ends _

/-- The words are the same, and so are the addresses in the records. -/
structure KeepsRecords (s t : State) : Prop where
  word : t.word = s.word
  pointer : ∀ cp, (t.composite cp).pointer = (s.composite cp).pointer
  base : ∀ cp, (t.composite cp).base = (s.composite cp).base

theorem KeepsRecords.trans {u : State} (earlier : KeepsRecords s t) (later : KeepsRecords t u) :
    KeepsRecords s u :=
  ⟨later.word.trans earlier.word, fun cp => (later.pointer cp).trans (earlier.pointer cp),
    fun cp => (later.base cp).trans (earlier.base cp)⟩

theorem setRefCount_keepsRecords (cp refCount : Nat) (s : State) :
    KeepsRecords s (s.setComposite cp { s.composite cp with refCount := refCount }) := by
  refine ⟨rfl, fun other => ?_, fun other => ?_⟩
  all_goals
    rw [setComposite_composite]
    by_cases same : other = cp
    · rw [same, update_self]
    · rw [update_of_ne same]

theorem retain_keepsRecords (pointer : Nat) (s : State) : KeepsRecords s (s.retain pointer) := by
  unfold retain
  split
  · exact setRefCount_keepsRecords _ _ s
  · exact ⟨rfl, fun _ => rfl, fun _ => rfl⟩

theorem release_keepsRecords (pointer : Nat) (s : State) :
    Yields (fun _ => True) (KeepsRecords s) (s.release pointer) := by
  unfold release
  split
  · simp only
    split
    · trivial
    · exact setRefCount_keepsRecords _ _ s
  · exact ⟨rfl, fun _ => rfl, fun _ => rfl⟩

theorem setFrame_keepsRecords (frame : List Nat) (s : State) :
    KeepsRecords s (s.setFrame frame) := by
  unfold setFrame
  split
  · exact ⟨rfl, fun _ => rfl, fun _ => rfl⟩
  · exact ⟨rfl, fun _ => rfl, fun _ => rfl⟩

theorem settle_keepsRecords (place : Place) (s : State) :
    Yields (fun _ => True) (KeepsRecords s) (s.settle place) := by
  cases place with
  | field offset => exact ⟨rfl, fun _ => rfl, fun _ => rfl⟩
  | automatic address =>
      simp only [settle]
      split
      · trivial
      · exact setFrame_keepsRecords _ s

theorem leave_keepsRecords (address : Nat) (s : State) :
    Yields (fun _ => True) (KeepsRecords s) (s.leave address) := by
  unfold leave
  split
  · exact setFrame_keepsRecords _ s
  · trivial

theorem destruct_keepsRecords (this : Nat) (s : State) :
    Yields (fun _ => True) (KeepsRecords s) (s.destruct this) := by
  unfold destruct
  split
  · split
    · trivial
    · rename_i stack _
      have dropped : KeepsRecords s (s.setStack stack) := ⟨rfl, fun _ => rfl, fun _ => rfl⟩
      exact (release_keepsRecords _ _).mono fun _ => dropped.trans
  · exact release_keepsRecords _ s

theorem eq_of_octet {x y : Nat} (octet : x / 8 = y / 8) (residue : x % 8 = y % 8) : x = y := by
  omega

theorem clearStackFlag_clearStackFlag (x : Nat) :
    clearStackFlag (clearStackFlag x) = clearStackFlag x := by
  unfold clearStackFlag
  apply eq_of_octet
  · exact clear_div_eight (by decide) _
  · rw [clear_mod_eight (by decide), clear_mod_eight (by decide)]
    exact of_residues (motive := fun r => clear (clear r stackBit) stackBit = clear r stackBit) x
      (by decide)

theorem clearStackFlag_setStackFlag (x : Nat) :
    clearStackFlag (setStackFlag x) = clearStackFlag x := by
  unfold clearStackFlag setStackFlag
  apply eq_of_octet
  · rw [clear_div_eight (by decide), or_div_eight (by decide), clear_div_eight (by decide)]
  · rw [clear_mod_eight (by decide), or_mod_eight (by decide), clear_mod_eight (by decide)]
    exact of_residues (motive := fun r => clear (r ||| stackBit) stackBit = clear r stackBit) x
      (by decide)

/-- A word and its copies refer to the same record. -/
theorem recordOf_of_clearStackFlag {x y : Nat} (same : clearStackFlag x = clearStackFlag y) :
    recordOf x = recordOf y := by
  rw [← recordOf_clearStackFlag, same, recordOf_clearStackFlag]

/-- The `gc_ptr` at `b'` is what the one at `b` was, and the record has the same address. -/
structure Carries (s : State) (b : Nat) (t : State) (b' : Nat) : Prop where
  word : clearStackFlag (t.word b') = clearStackFlag (s.word b)
  pointer : ∀ cp, s.referent b = some cp → (t.composite cp).pointer = (s.composite cp).pointer

theorem Carries.interior {b' : Nat} (carries : Carries s b t b') :
    t.interior b' = s.interior b := by
  have same : t.referent b' = s.referent b := recordOf_of_clearStackFlag carries.word
  unfold State.interior
  rw [same]
  cases refers : s.referent b with
  | none => rfl
  | some cp => exact congrArg some (carries.pointer cp refers)

theorem KeepsRecords.carries (keeps : KeepsRecords s t) (b : Nat) : Carries s b t b :=
  ⟨by rw [keeps.word], fun cp _ => keeps.pointer cp⟩

theorem Carries.trans {b' b'' : Nat} {u : State} (earlier : Carries s b t b')
    (later : Carries t b' u b'') : Carries s b u b'' := by
  refine ⟨later.word.trans earlier.word, fun cp refers => ?_⟩
  have still : t.referent b' = some cp := (recordOf_of_clearStackFlag earlier.word).trans refers
  exact (later.pointer cp still).trans (earlier.pointer cp refers)

/-- The end of the constructors changes no more than a stack flag. -/
theorem record_carries (this : Nat) (s : State) :
    Yields (fun _ => True) (fun t => Carries s this t this) (s.record isHeapPointer this) := by
  have same : Carries s this s this := ⟨rfl, fun _ _ => rfl⟩
  unfold record
  repeat' split
  · refine ⟨?_, fun _ _ => rfl⟩
    rw [setWord_word, update_self, clearStackFlag_setStackFlag]
  · exact same
  · trivial
  · exact ⟨rfl, fun _ _ => rfl⟩
  · exact same

theorem copyConstruct_carries (this b : Nat) (s : State) :
    Yields (fun _ => True) (fun t => Carries s b t this)
      (s.copyConstruct isHeapPointer this b) := by
  have copied : Carries s b (s.setWord this (clearStackFlag (s.word b))) this := by
    refine ⟨?_, fun _ _ => rfl⟩
    rw [setWord_word, update_self, clearStackFlag_clearStackFlag]
  have retained := copied.trans ((retain_keepsRecords (s.word b) _).carries this)
  exact (record_carries this _).mono fun _ => retained.trans

/-- The parameter is a copy of `b` when `attach` allocates. -/
theorem prepare_carries (call : AttachCall) (b : Nat) (s : State) :
    Yields (fun _ => True) (fun t => Carries s b t call.param)
      (call.prepare isHeapPointer b s) := by
  unfold AttachCall.prepare
  apply (settle_keepsRecords _ s).bind
  intro settled keeps
  apply (copyConstruct_carries call.param b settled).bind
  intro copied carries
  have before := (keeps.carries b).trans carries
  exact (release_keepsRecords _ copied).mono fun _ released => before.trans (released.carries _)

theorem getPtr_eq (a : Nat) (s : State) :
    s.getPtr (s.word a) = (s.interior a).getD (clearStackFlag (s.word a)) := by
  unfold State.getPtr State.interior State.referent recordOf
  split <;> rfl

theorem getPtr_eq_iff_leadsTo (a start : Nat) (s : State) :
    s.getPtr (s.word a) = start ↔ s.LeadsTo a start := by
  rw [getPtr_eq, LeadsTo]
  cases s.interior a with
  | none => simp
  | some pointer => simp

/-- The record of the call, and the word of `x`, which refers to it. -/
theorem finish_composite (call : AttachCall) (t : State) :
    Yields (fun _ => True) (fun s' =>
        (s'.composite call.cp).base =
            (call.allocate t).getPtr ((call.allocate t).word call.param) ∧
          (s'.composite call.cp).pointer = call.pointer ∧ s'.referent call.this = some call.cp)
      (call.finish t) := by
  unfold AttachCall.finish
  have composed : ∀ u : State,
      ((u.compose call.this call.pointer call.param call.cp).composite call.cp) =
        { base := u.getPtr (u.word call.param), pointer := call.pointer, refCount := 1 } := by
    intro u
    exact update_self _ _ _
  have refers : ∀ u : State,
      (u.compose call.this call.pointer call.param call.cp).referent call.this = some call.cp := by
    intro u
    unfold State.compose State.referent
    rw [setWord_word, update_self]
    split
    · exact recordOf_setBothFlags call.aligned
    · exact recordOf_setCompositeFlag call.aligned
  apply (leave_keepsRecords _ _).bind
  intro left leaves
  apply (destruct_keepsRecords _ left).mono
  intro s' destructed
  have keeps := leaves.trans destructed
  refine ⟨?_, ?_, ?_⟩
  · rw [keeps.base, composed]
  · rw [keeps.pointer, composed]
  · unfold State.referent
    rw [keeps.word]
    exact refers _

/-- A composite `gc_ptr` has the address of the last call of `attach` in its chain. -/
theorem Attached.interior (chain : Attached isHeapPointer s b last) : s.interior b = last := by
  induction chain with
  | plain isPlain =>
      unfold State.interior
      rw [isPlain]
      rfl
  | attach call chain returned ih =>
      rcases bind_eq_ok returned with ⟨t, -, finished⟩
      rcases (finish_composite call t).of_ok finished with ⟨-, pointer, refers⟩
      unfold State.interior
      rw [refers]
      exact congrArg some pointer
  | carry chain word pointer ih =>
      rw [← ih]
      exact Carries.interior ⟨word, pointer⟩

theorem records_iff {record : CompositePointer} {found place start pointer : Nat}
    (base : record.base = found) (stored : record.pointer = pointer) :
    record.Records place (pointer - start : Int) ↔ place = start ∧ found = place := by
  unfold CompositePointer.Records
  rw [base, stored]
  omega

/-- `attach` records the start of the object and the offset of the address exactly if the
allocation leaves the object in place and the copy of `b` converts to the start of the object.
Without a collection that is to say that `b` is plain, or that the last call of `attach` in its
chain was given the start of the object. -/
theorem attach_records_iff (isHeapPointer : Nat → Bool) (s t s' : State) (call : AttachCall)
    (b start : Nat) (last : Option Nat) (chain : Attached isHeapPointer s b last)
    (refers : last = none → clearStackFlag (s.word b) = start)
    (prepared : call.prepare isHeapPointer b s = .ok t) (finished : call.finish t = .ok s') :
    (s'.composite call.cp).Records (call.place t start) (call.pointer - start : Int) ↔
      (call.runs t = none → last = none ∨ last = some start) ∧
        ∀ c, call.runs t = some c →
          c.place start = start ∧ (c.after t).LeadsTo call.param start := by
  rcases (finish_composite call t).of_ok finished with ⟨base, pointer, -⟩
  have copied := (prepare_carries call b s).of_ok prepared
  rw [records_iff base pointer]
  unfold AttachCall.place AttachCall.allocate
  cases ran : call.runs t with
  | none =>
      have interior : t.interior call.param = last := copied.interior.trans chain.interior
      simp only [Option.map_none, Option.getD_none, true_and, forall_const, reduceCtorEq,
        false_implies, implies_true, and_true]
      rw [getPtr_eq, interior, copied.word]
      cases last with
      | none => simp [refers rfl]
      | some p => simp
  | some c =>
      simp only [Option.map_some, Option.getD_some, reduceCtorEq, false_implies, true_and,
        Option.some.injEq, forall_eq']
      constructor
      · rintro ⟨stays, leads⟩
        rw [getPtr_eq_iff_leadsTo, stays] at leads
        exact ⟨stays, leads⟩
      · rintro ⟨stays, leads⟩
        rw [getPtr_eq_iff_leadsTo, stays]
        exact ⟨rfl, leads⟩

/-- When the collection is a sweep of objects with plain pointers, a plain `gc_ptr` converts to the
start of the object wherever it is, but the offset is right only on a page that stays. -/
theorem attach_records_swept_iff {threads : ThreadRoots} {h h' : Heap} {c c' : Census}
    {reloc : Nat → Nat} (relocates : Relocates threads h c h' c' reloc) {stack : List Nat}
    (stackMem : stack ∈ threads) (registered : call.param ∈ stack) {o : Nat}
    (marked : Marked h c o) (designates : Designates (h.mem call.param) o)
    {collection : Collection} (ran : call.runs t = some collection)
    (place : collection.place (objectOf o) = objectOf (reloc o))
    (after : (collection.after t).word call.param = h'.mem call.param)
    (finished : call.finish t = .ok s') :
    (s'.composite call.cp).Records (call.place t (objectOf o)) (call.pointer - objectOf o : Int) ↔
      ∃ q ∈ c.alive, o ∈ c.blocks q ∧ HasPinned h.mem c q := by
  rcases (finish_composite call t).of_ok finished with ⟨base, pointer, -⟩
  obtain ⟨plain, address⟩ := relocates.root stack stackMem call.param registered o marked designates
  rw [records_iff base pointer]
  unfold AttachCall.place AttachCall.allocate
  rw [ran, Option.map_some, Option.getD_some, Option.map_some, Option.getD_some, place]
  have found : (collection.after t).getPtr ((collection.after t).word call.param) =
      objectOf (reloc o) := by
    unfold State.getPtr
    rw [after, plain, if_neg Bool.false_ne_true, clearStackFlag_of_plain plain, address]
  have moved : objectOf (reloc o) = objectOf o ↔ reloc o = o := by
    rw [objectOf_eq, objectOf_eq]
    omega
  rw [moved]
  constructor
  · rintro ⟨stays, -⟩
    rcases marked with ⟨q, qMem, oMem, isMarked⟩
    refine ⟨q, qMem, oMem, ?_⟩
    by_contra unpinned
    have apart := relocates.fresh q qMem unpinned o oMem ⟨q, qMem, oMem, isMarked⟩ q qMem o oMem
    omega
  · rintro ⟨q, qMem, oMem, pinned⟩
    exact ⟨relocates.stays q qMem pinned o oMem, found⟩

end

/-- Three automatic `gc_ptr`s: the first one is plain, the others are null. -/
def threePointers : State :=
  { State.start with
    word := fun a => if a = 8 then 65584 + 1 else 1
    stack := ((StackMap.empty.registerStackRoot 8).registerStackRoot 16).registerStackRoot 24
    automatics := [24, 16, 8] }

/-- `y.attach(65592, x)`, where `x` is at the address 8 and `y` at 16. -/
def firstAttach : AttachCall :=
  { this := 16, pointer := 65592, param := 32, cp := 66048, aligned := rfl, collection := none }

/-- `z.attach(65600, y)`, where `z` is at the address 24. -/
def secondAttach : AttachCall :=
  { this := 24, pointer := 65600, param := 40, cp := 66112, aligned := rfl, collection := none }

theorem attach_records_iff_firstAttach :
    ∃ t s', firstAttach.prepare (fun a => 65536 ≤ a) 8 threePointers = .ok t ∧
      firstAttach.finish t = .ok s' ∧
        (s'.composite 66048).Records (firstAttach.place t 65584) (65592 - 65584) := by
  have run : Yields (fun _ => False)
      (fun t => Yields (fun _ => False) (fun _ => True) (firstAttach.finish t))
      (firstAttach.prepare (fun a => 65536 ≤ a) 8 threePointers) := by
    decide +kernel
  rcases run.total with ⟨t, prepared, finishes⟩
  rcases finishes.total with ⟨s', finished, -⟩
  refine ⟨t, s', prepared, finished, ?_⟩
  have records := attach_records_iff _ _ _ _ firstAttach 8 65584 none (.plain (by decide))
    (fun _ => by decide) prepared finished
  apply records.mpr
  refine ⟨fun _ => Or.inl rfl, fun c ran => ?_⟩
  rw [runs_of_quiet rfl] at ran
  cases ran

/-- The memory behind a sweep of the small heap. -/
def sweptMemory : Memory :=
  ((sweep noMemory 16390 sampleRoots (sampleHeap true)).toOption.map Heap.mem).getD
    (sampleHeap true).mem

/-- The parameter of a call of `attach` is the root of the small heap, which is swept during the
allocation: the object at 65584 moves to the next page. -/
def sweptAttach : AttachCall :=
  { this := 16, pointer := 65592, param := 133120, cp := 69704, aligned := rfl
    collection := some
      { place := fun start => if start = 65584 then 69680 else start
        after := fun t => { t with word := sweptMemory } } }

/-- The second record in a chain has the address of the first one as its base.  When the allocation
moves the object, the record keeps the address that was given. -/
theorem attach_records_wrong :
    (∃ s t s', Attached (fun a => 65536 ≤ a) s 16 (some 65592) ∧
      secondAttach.prepare (fun a => 65536 ≤ a) 16 s = .ok t ∧ secondAttach.finish t = .ok s' ∧
        ¬ (s'.composite 66112).Records (secondAttach.place t 65584) (65600 - 65584)) ∧
    ∃ t s', clearStackFlag (threePointers.word 8) = 65584 ∧
      sweptAttach.prepare (fun a => 65536 ≤ a) 8 threePointers = .ok t ∧
        t.word 133120 = (sampleHeap true).mem 133120 ∧ sweptAttach.finish t = .ok s' ∧
          ¬ (s'.composite 69704).Records (sweptAttach.place t 65584) (65592 - 65584) := by
  constructor
  · have run : Yields (fun _ => False) (fun s => Yields (fun _ => False)
        (fun t => Yields (fun _ => False) (fun s' =>
            ¬ (s'.composite 66112).Records (secondAttach.place t 65584) (65600 - 65584))
          (secondAttach.finish t))
        (secondAttach.prepare (fun a => 65536 ≤ a) 16 s))
        (firstAttach.perform (fun a => 65536 ≤ a) 8 threePointers) := by
      decide +kernel
    rcases run.total with ⟨s, returned, prepares⟩
    rcases prepares.total with ⟨t, prepared, finishes⟩
    rcases finishes.total with ⟨s', finished, wrong⟩
    exact ⟨s, t, s', .attach firstAttach (.plain (by decide)) returned, prepared, finished, wrong⟩
  · have run : Yields (fun _ => False) (fun t => t.word 133120 = (sampleHeap true).mem 133120 ∧
        Yields (fun _ => False) (fun s' =>
            ¬ (s'.composite 69704).Records (sweptAttach.place t 65584) (65592 - 65584))
          (sweptAttach.finish t))
        (sweptAttach.prepare (fun a => 65536 ≤ a) 8 threePointers) := by
      decide +kernel
    rcases run.total with ⟨t, prepared, root, finishes⟩
    rcases finishes.total with ⟨s', finished, wrong⟩
    exact ⟨t, s', by decide, prepared, root, finished, wrong⟩

end PreciseGc.Mutator

import PreciseGc.Mutator.Scopes

/-!
# The stack flag

The destructor of a `gc_ptr` knows from the stack flag of its word whether it
must take its address out of the `StackMap`.  `setNULL` overwrites the word with
zero, flag included; every other operation carries the flag over.
-/

namespace PreciseGc.Mutator

open Foundation State

theorem isStackPointer_setStackFlag (x : Nat) : isStackPointer (setStackFlag x) = true := by
  unfold isStackPointer setStackFlag
  rw [hasFlag_or (by decide) (by decide)]
  exact of_residues (motive := fun r => hasFlag (r ||| stackBit) stackBit = true) x (by decide)

theorem isStackPointer_setBothFlags (x : Nat) : isStackPointer (setBothFlags x) = true := by
  unfold isStackPointer setBothFlags
  rw [hasFlag_or (by decide) (by decide)]
  exact of_residues (motive := fun r => hasFlag (r ||| bothBits) stackBit = true) x (by decide)

theorem isStackPointer_clearStackFlag (x : Nat) : isStackPointer (clearStackFlag x) = false := by
  unfold isStackPointer clearStackFlag
  rw [hasFlag_clear (by decide) (by decide)]
  exact of_residues (motive := fun r => hasFlag (clear r stackBit) stackBit = false) x (by decide)

theorem isStackPointer_of_aligned {x : Nat} (aligned : x % 8 = 0) : isStackPointer x = false :=
  hasFlag_of_mod_eq_zero (by decide) aligned

theorem isStackPointer_setCompositeFlag {x : Nat} (aligned : x % 8 = 0) :
    isStackPointer (setCompositeFlag x) = false := by
  unfold isStackPointer setCompositeFlag
  rw [hasFlag_or (by decide) (by decide), aligned]
  decide

theorem isStackPointer_congr {x y : Nat} (same : getBothFlags x = getBothFlags y) :
    isStackPointer x = isStackPointer y := by
  have bit (w : Nat) : isStackPointer w = isStackPointer (getBothFlags w) := by
    unfold isStackPointer getBothFlags hasFlag
    rw [Nat.and_assoc]
    rfl
  rw [bit x, bit y, same]

/-- The flag of an automatic `gc_ptr` says whether its address is registered. -/
structure FlagsAgree (isHeapPointer : Nat → Bool) (s : State) : Prop
    extends Scoped isHeapPointer s where
  agree : ∀ a ∈ s.living, isStackPointer (s.word a) = true ↔ a ∈ s.stack.addresses
  registered : ∀ a ∈ s.stack.addresses, a ∈ s.automatics
  registeredOnce : s.stack.addresses.Nodup

/-- The condition on the run: `setNULL` is called on `gc_ptr`s in objects only. -/
def Event.SparesFlags (isHeapPointer : Nat → Bool) : Event → Prop
  | .setNULL this => isHeapPointer this = true
  | _ => True

namespace FlagsAgree

variable {isHeapPointer : Nat → Bool} {s t : State}

/-- What changes neither the registrations nor the flags of automatic objects keeps them in
agreement. -/
theorem congr (agrees : FlagsAgree isHeapPointer s)
    (newActive : t.tlflags.newActive = s.tlflags.newActive) (stack : t.stack = s.stack)
    (automatics : t.automatics = s.automatics) (locals : t.locals = s.locals)
    (word : ∀ a ∈ s.living, isStackPointer (t.word a) = isStackPointer (s.word a)) :
    FlagsAgree isHeapPointer t := by
  have living : t.living = s.living := by
    unfold living
    rw [automatics, locals]
  refine ⟨agrees.toScoped.congr newActive automatics locals, ?_, ?_, ?_⟩
  · intro a mem
    rw [living] at mem
    rw [word a mem, stack]
    exact agrees.agree a mem
  · rw [stack, automatics]
    exact agrees.registered
  · rw [stack]
    exact agrees.registeredOnce

/-- A word in the heap may change freely. -/
theorem setWord_heap (agrees : FlagsAgree isHeapPointer s) {a : Nat} (value : Nat)
    (heap : isHeapPointer a = true) : FlagsAgree isHeapPointer (s.setWord a value) := by
  apply agrees.congr (t := s.setWord a value) rfl rfl rfl rfl
  intro x mem
  have other : x ≠ a := by
    rintro rfl
    rw [agrees.outside x mem] at heap
    cases heap
  rw [setWord_word, Function.update_of_ne other]

/-- A word may change as long as its flag does not. -/
theorem setWord_flag (agrees : FlagsAgree isHeapPointer s) {a value : Nat}
    (flag : isStackPointer value = isStackPointer (s.word a)) :
    FlagsAgree isHeapPointer (s.setWord a value) := by
  apply agrees.congr (t := s.setWord a value) rfl rfl rfl rfl
  intro x mem
  rw [setWord_word]
  by_cases same : x = a
  · rw [same, Function.update_self, flag]
  · rw [Function.update_of_ne same]

theorem retain (agrees : FlagsAgree isHeapPointer s) (pointer : Nat) :
    FlagsAgree isHeapPointer (s.retain pointer) := by
  unfold State.retain
  split
  · exact agrees.congr rfl rfl rfl rfl fun _ _ => rfl
  · exact agrees

theorem release (agrees : FlagsAgree isHeapPointer s) (pointer : Nat) :
    Yields (fun _ => True) (fun t => FlagsAgree isHeapPointer t ∧ t.word = s.word)
      (s.release pointer) := by
  simp only [State.release]
  split
  · split
    · trivial
    · exact ⟨agrees.congr rfl rfl rfl rfl fun _ _ => rfl, rfl⟩
  · exact ⟨agrees, rfl⟩

/-- A new automatic object whose word has no flag is not registered. -/
theorem push (agrees : FlagsAgree isHeapPointer s) {a value : Nat} (fresh : a ∉ s.living)
    (off : isHeapPointer a = false) (flag : isStackPointer value = false) :
    FlagsAgree isHeapPointer ((s.setFrame (a :: s.frame)).setWord a value) := by
  have unregistered : a ∉ s.stack.addresses := by
    intro mem
    exact fresh (List.mem_append_left _ (agrees.registered a mem))
  have scopes : Scoped isHeapPointer ((s.setFrame (a :: s.frame)).setWord a value) :=
    (agrees.toScoped.push fresh off).congr rfl rfl rfl
  refine ⟨scopes, ?_, ?_, ?_⟩
  · intro x mem
    rw [setWord_word, setWord_stack, setFrame_stack, setFrame_word]
    rcases List.mem_cons.mp ((living_push a s).mem_iff.mp mem) with same | old
    · rw [same, Function.update_self, flag]
      exact ⟨nofun, fun registered => absurd registered unregistered⟩
    · have other : x ≠ a := fun same => fresh (same ▸ old)
      rw [Function.update_of_ne other]
      exact agrees.agree x old
  · intro x mem
    rw [setWord_stack, setFrame_stack] at mem
    exact (automatics_push a s).1 x (agrees.registered x mem)
  · rw [setWord_stack, setFrame_stack]
    exact agrees.registeredOnce

/-- The registration of an automatic object outside of constructors. -/
theorem register (agrees : FlagsAgree isHeapPointer s) {a : Nat} (mem : a ∈ s.automatics)
    (unregistered : a ∉ s.stack.addresses) :
    FlagsAgree isHeapPointer
      ((s.setStack (s.stack.registerStackRoot a)).setWord a (setStackFlag (s.word a))) := by
  refine ⟨agrees.toScoped.congr rfl rfl rfl, ?_, ?_, ?_⟩
  · intro x living
    rw [setWord_word, setWord_stack, setStack_stack, StackMap.addresses_registerStackRoot]
    change isStackPointer (Function.update s.word a _ x) = true ↔ _
    by_cases same : x = a
    · rw [same, Function.update_self, isStackPointer_setStackFlag]
      simp
    · rw [Function.update_of_ne same, List.mem_cons]
      have old := agrees.agree x living
      exact ⟨fun flag => Or.inr (old.mp flag), fun either => old.mpr (either.resolve_left same)⟩
  · intro x registered
    rw [setWord_stack, setStack_stack, StackMap.addresses_registerStackRoot] at registered
    rcases List.mem_cons.mp registered with same | old
    · exact same ▸ mem
    · exact agrees.registered x old
  · rw [setWord_stack, setStack_stack, StackMap.addresses_registerStackRoot]
    exact List.nodup_cons.mpr ⟨unregistered, agrees.registeredOnce⟩

/-- In a field, a constructor records an offset at most. -/
theorem record_field (agrees : FlagsAgree isHeapPointer s) {this : Nat}
    (heap : isHeapPointer this = true) (nested : s.locals ≠ []) :
    Yields (fun _ => True) (FlagsAgree isHeapPointer) (s.record isHeapPointer this) := by
  simp only [record, agrees.nested.mpr nested, heap]
  by_cases noActive : s.tlflags.noActive = true
  · simp only [noActive]
    exact agrees
  · by_cases noObject : s.tlflags.currentPointerToObject = 0
    · simp [noActive, noObject]
    · simp only [noActive, noObject]
      exact agrees.congr (agrees.nested.mpr nested).symm rfl rfl rfl fun _ _ => rfl

/-- An automatic object is registered if no constructor of `gc_new` runs. -/
theorem record_automatic (agrees : FlagsAgree isHeapPointer s) {this : Nat}
    (mem : this ∈ s.living) (unregistered : this ∉ s.stack.addresses) :
    Yields (fun _ => True) (FlagsAgree isHeapPointer) (s.record isHeapPointer this) := by
  cases active : s.tlflags.newActive with
  | true =>
      simp only [record, active, agrees.outside this mem]
      exact agrees
  | false =>
      have top := agrees.toScoped.notNested active
      have outside : this ∈ s.automatics := by
        unfold living at mem
        rw [top] at mem
        simpa using mem
      simp only [record, active]
      exact agrees.register outside unregistered

/-- The constructors other than the moving one: the object comes to live, and is registered if no
constructor of `gc_new` runs. -/
theorem born (agrees : FlagsAgree isHeapPointer s) {base : Nat} {place : Place}
    (placed : place.Placed isHeapPointer base) (atTop : s.locals = [] → place.offset = none)
    (value pointer : State → Nat) (flag : ∀ t, isStackPointer (value t) = false) :
    Yields (fun _ => True) (FlagsAgree isHeapPointer) (s.settle place >>= fun t =>
      ((t.setWord (place.address base) (value t)).retain (pointer t)).record isHeapPointer
        (place.address base)) := by
  cases place with
  | field offset =>
      have nested : s.locals ≠ [] := nofun ∘ atTop
      have inHeap := (agrees.setWord_heap (value s) placed).retain (pointer s)
      apply inHeap.record_field placed
      rw [retain_locals]
      exact nested
  | automatic address =>
      simp only [settle]
      split
      · trivial
      · rename_i fresh
        have pushed := agrees.push fresh placed (flag (s.setFrame (address :: s.frame)))
        apply (pushed.retain _).record_automatic
        · rw [retain_living]
          exact (living_push address s).mem_iff.mpr List.mem_cons_self
        · rw [retain_stack, setWord_stack, setFrame_stack]
          intro registered
          exact fresh (List.mem_append_left _ (agrees.registered address registered))

/-- The moving constructor neither registers nor records. -/
theorem born_byMove (agrees : FlagsAgree isHeapPointer s) {base : Nat} {place : Place}
    (placed : place.Placed isHeapPointer base) (p : Nat) :
    Yields (fun _ => True) (FlagsAgree isHeapPointer) (s.settle place >>= fun t =>
      .ok (t.moveConstruct (place.address base) p)) := by
  cases place with
  | field offset => exact agrees.setWord_heap _ placed
  | automatic address =>
      simp only [settle]
      split
      · trivial
      · rename_i fresh
        exact agrees.push fresh placed (isStackPointer_clearStackFlag _)

/-- The end of an automatic object whose address is not registered any more. -/
theorem pop (agrees : FlagsAgree isHeapPointer s) {this : Nat} (mem : this ∈ s.frame)
    {stack : StackMap} (left : stack.addresses.Perm (s.stack.addresses.erase this)) :
    FlagsAgree isHeapPointer ((s.setFrame (s.frame.erase this)).setStack stack) := by
  have stays (x : Nat) : x ∈ stack.addresses ↔ x ≠ this ∧ x ∈ s.stack.addresses :=
    left.mem_iff.trans agrees.registeredOnce.mem_erase_iff
  refine ⟨(agrees.toScoped.pop mem).congr rfl rfl rfl, ?_, ?_,
    left.nodup_iff.mpr (agrees.registeredOnce.erase this)⟩
  · intro x living
    rcases agrees.toScoped.mem_pop mem living with ⟨other, old⟩
    rw [setStack_stack, stays]
    change isStackPointer ((s.setFrame _).word x) = true ↔ _
    rw [setFrame_word, agrees.agree x old]
    exact ⟨fun registered => ⟨other, registered⟩, And.right⟩
  · intro x registered
    have old := (stays x).mp registered
    exact automatics_pop (agrees.registered x old.2) old.1

/-- The destructor takes exactly its own address out of the `StackMap`. -/
theorem dies (agrees : FlagsAgree isHeapPointer s) (this : Nat) :
    Yields (fun _ => True) (FlagsAgree isHeapPointer)
      (s.leave this >>= fun t => t.destruct this) := by
  simp only [leave]
  split
  · rename_i mem
    have flag := agrees.agree this (mem_living_of_mem_frame mem)
    change Yields _ _ ((s.setFrame (s.frame.erase this)).destruct this)
    simp only [destruct, setFrame_word, setFrame_stack]
    split
    · rename_i flagged
      rcases StackMap.deleteStackRoot_spec (flag.mp flagged) with ⟨stack, deleted, left⟩
      rw [deleted]
      exact ((agrees.pop mem left).release _).mono fun _ => And.left
    · rename_i unflagged
      have unregistered : this ∉ s.stack.addresses := fun mem => unflagged (flag.mpr mem)
      have left : s.stack.addresses.Perm (s.stack.addresses.erase this) := by
        rw [List.erase_of_not_mem unregistered]
      have popped := agrees.pop mem left
      rw [setStack_setFrame] at popped
      exact (popped.release _).mono fun _ => And.left
  · trivial

/-- The end of `gc_new`: the automatic objects of its constructors are gone. -/
theorem ends (agrees : FlagsAgree isHeapPointer s) (old : FlagsAgree isHeapPointer t)
    {u : State} (word : u.word = s.word) (stack : u.stack = s.stack)
    (automatics : u.automatics = s.automatics) (locals : u.locals = s.locals.tail)
    (outer : s.locals.tail = t.locals) (newActive : u.tlflags.newActive = t.tlflags.newActive) :
    FlagsAgree isHeapPointer u := by
  refine ⟨agrees.toScoped.ends old.toScoped automatics locals outer newActive, ?_, ?_, ?_⟩
  · intro a mem
    rw [word, stack]
    exact agrees.agree a ((Scoped.living_sublist automatics locals).subset mem)
  · rw [stack, automatics]
    exact agrees.registered
  · rw [stack]
    exact agrees.registeredOnce

theorem enterNew (agrees : FlagsAgree isHeapPointer s) (cls : Nat) :
    FlagsAgree isHeapPointer (s.enterNew cls) :=
  ⟨agrees.toScoped.enterNew cls, agrees.agree, agrees.registered, agrees.registeredOnce⟩

end FlagsAgree

/-- Every event that spares the flags keeps them in agreement with the registrations. -/
theorem flagsAgree_kept (isHeapPointer : Nat → Bool) (sizeof : Nat → Nat) :
    Kept isHeapPointer sizeof (fun base event =>
      event.Placed isHeapPointer base ∧ event.SparesFlags isHeapPointer)
      (FlagsAgree isHeapPointer) where
  placed _ _ := And.left
  construct base place initializer s here atTop agrees := by
    cases initializer with
    | byDefault =>
        exact agrees.born here.1 atTop (fun _ => 0) (fun _ => 0)
          fun _ => isStackPointer_of_aligned rfl
    | byCopy p =>
        exact agrees.born here.1 atTop (fun t => clearStackFlag (t.word p)) (fun t => t.word p)
          fun t => isStackPointer_clearStackFlag (t.word p)
    | byMove p => exact agrees.born_byMove here.1 p
  result base cls res elements place s here atTop agrees := by
    have aligned : (res + sizeofBaseMeta) % 8 = 0 := by
      have resAligned := here.1.2
      unfold sizeofBaseMeta
      omega
    exact agrees.born here.1.1 atTop (fun _ => res + sizeofBaseMeta) (fun _ => 0)
      fun _ => isStackPointer_of_aligned aligned
  assign base this a s here agrees := by
    rw [assign]
    apply (agrees.release _).bind
    intro t ⟨released, word⟩
    apply FlagsAgree.retain
    apply released.setWord_flag
    split
    · rename_i flagged
      rw [isStackPointer_setStackFlag, flagged]
    · rename_i unflagged
      rw [isStackPointer_clearStackFlag, Bool.eq_false_iff.mpr unflagged]
  attach base this pointer b cp s here agrees := by
    rw [attach]
    apply (agrees.release _).bind
    intro t ⟨released, word⟩
    have recorded : FlagsAgree isHeapPointer (t.setComposite cp
        { base := t.getPtr (t.word b), pointer := pointer, refCount := 1 }) :=
      released.congr rfl rfl rfl rfl fun _ _ => rfl
    apply recorded.setWord_flag
    split
    · rename_i flagged
      rw [isStackPointer_setBothFlags, flagged]
    · rename_i unflagged
      rw [isStackPointer_setCompositeFlag here.1, Bool.eq_false_iff.mpr unflagged]
  setNULL base this s here agrees := by
    rw [setNULL]
    apply (agrees.release _).bind
    intro t ⟨released, word⟩
    exact released.setWord_heap 0 here.2
  destruct base this s here agrees := agrees.dies this
  enterNew cls s agrees := agrees.enterNew cls
  beginMeta data s agrees := agrees.congr rfl rfl rfl rfl fun _ _ => rfl
  stopRecording s nested agrees := agrees.congr rfl rfl rfl rfl fun _ _ => rfl
  endKnown base cls res first others place s t shell here known old agrees automatics outer :=
    agrees.ends old rfl rfl rfl rfl outer rfl
  endUnknown base cls res first others place s t here every old agrees automatics outer offsets :=
    agrees.ends old rfl rfl rfl rfl outer rfl

theorem Starts.flagsAgree {isHeapPointer : Nat → Bool} {s : State} (starts : Starts s) :
    FlagsAgree isHeapPointer s := by
  refine ⟨starts.scopes, ?_, ?_, ?_⟩
  · simp [starts.living]
  · simp [starts.stack]
  · simp [starts.stack]

theorem Collected.flagsAgree {isHeapPointer : Nat → Bool} {s s' : State}
    (collected : Collected s s') (outside : Outside s) (agrees : FlagsAgree isHeapPointer s) :
    FlagsAgree isHeapPointer s' := by
  apply agrees.congr (by rw [collected.tlflags]) collected.stack collected.automatics
    collected.locals
  intro a mem
  apply isStackPointer_congr
  apply collected.flags
  rw [outside.living] at mem
  exact mem

/-- As long as `setNULL` is not called on an automatic `gc_ptr`, the stack flag of each automatic
`gc_ptr` says whether its address is registered, and no other address is. -/
theorem runs_stackFlags {isHeapPointer : Nat → Bool} {sizeof : Nat → Nat} {s : State}
    (reached : Reachable Starts (Step isHeapPointer sizeof fun base event =>
      event.Placed isHeapPointer base ∧ event.SparesFlags isHeapPointer) s) :
    (∀ a ∈ s.automatics, isStackPointer (s.word a) = true ↔ a ∈ s.stack.addresses) ∧
      (∀ a ∈ s.stack.addresses, a ∈ s.automatics) ∧ s.stack.addresses.Nodup := by
  obtain ⟨-, agrees⟩ := (flagsAgree_kept isHeapPointer sizeof).reachable
    (fun s starts => ⟨starts, starts.flagsAgree⟩)
    (fun s s' outside agrees collected => collected.flagsAgree outside agrees) reached
  exact ⟨fun a mem => agrees.agree a (List.mem_append_left _ mem), agrees.registered,
    agrees.registeredOnce⟩

/-- Automatic objects that end in the order of their construction. -/
def queueOfPointers : List Event :=
  [.gcNew 0 1000 [[]] (.automatic 8), .construct (.automatic 16) (.byCopy 8),
    .construct (.automatic 24) .byDefault, .attach 24 1024 16 2000, .assign 8 24, .destruct 8,
    .destruct 16]

theorem runs_stackFlags_queueOfPointers :
    ∃ s, performAll (fun a => 1000 ≤ a) (fun _ => 8) 0 queueOfPointers .start = .ok s ∧
      (∀ a ∈ s.automatics, isStackPointer (s.word a) = true ↔ a ∈ s.stack.addresses) ∧
        (∀ a ∈ s.stack.addresses, a ∈ s.automatics) := by
  obtain ⟨s, returned, -⟩ : ∃ s, performAll (fun a => 1000 ≤ a) (fun _ => 8) 0 queueOfPointers
      .start = .ok s ∧ True :=
    Yields.total (by decide +kernel)
  have flags := runs_stackFlags (s := s) (reachable_of_performAll
    (.start ⟨rfl, rfl, rfl, rfl⟩)
    (by simp [queueOfPointers, Event.AtTop, Event.Every, Event.fieldOffset, Place.offset,
      Event.Placed, Place.Placed, Event.SparesFlags, EveryElement, EveryEvent]) returned)
  exact ⟨s, returned, flags.1, flags.2.1⟩

/-- After `setNULL` the destructor leaves the address of an automatic `gc_ptr` registered. -/
theorem runs_stackFlags_setNULL :
    ∃ s s', Reachable Starts (Step (fun a => 1000 ≤ a) (fun _ => 8) fun base event =>
        event.Placed (fun a => 1000 ≤ a) base) s ∧
      perform (fun a => 1000 ≤ a) (fun _ => 8) 0 (.destruct 8) s = .ok s' ∧
      8 ∈ s.automatics ∧ 8 ∈ s.stack.addresses ∧ isStackPointer (s.word 8) = false ∧
      8 ∉ s'.automatics ∧ 8 ∈ s'.stack.addresses := by
  have first : Yields (fun _ => False)
      (fun s => 8 ∈ s.automatics ∧ 8 ∈ s.stack.addresses ∧ isStackPointer (s.word 8) = false ∧
        Yields (fun _ => False) (fun s' => 8 ∉ s'.automatics ∧ 8 ∈ s'.stack.addresses)
          (perform (fun a => 1000 ≤ a) (fun _ => 8) 0 (.destruct 8) s))
      (performAll (fun a => 1000 ≤ a) (fun _ => 8) 0
        [.construct (.automatic 8) .byDefault, .setNULL 8] .start) := by
    decide +kernel
  rcases first.total with ⟨s, returned, alive, registered, flag, second⟩
  rcases second.total with ⟨s', destroyed, dead, stale⟩
  refine ⟨s, s', ?_, destroyed, alive, registered, flag, dead, stale⟩
  apply reachable_of_performAll (.start ⟨rfl, rfl, rfl, rfl⟩) _ returned
  simp [Event.AtTop, Event.Every, Event.fieldOffset, Place.offset, Event.Placed, Place.Placed]

end PreciseGc.Mutator

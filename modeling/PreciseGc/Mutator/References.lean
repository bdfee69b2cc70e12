import PreciseGc.Mutator.StackFlags

/-!
# The references that a collection finds

Between the events of a run every `gc_ptr` is registered in the `StackMap` or
lies in an object at an offset that the shell of the object lists, if none was
made by the moving constructor, which does neither.
-/

namespace PreciseGc.Mutator

open Foundation State

/-- Whether the shell of an object lists a position in the object as that of a `gc_ptr`. -/
def ManagedObject.Lists (object : ManagedObject) (field : Nat) : Prop :=
  ∃ i < object.count, ∃ offset ∈ object.shell.drop 2, field = i * object.shell.headD 0 + offset

/-- The language fixes the `gc_ptr` sub-objects of a class, and their order. -/
def Event.Typed (layout : Nat → List Nat) : Event → Prop
  | .gcNew cls _ elements _ => ∀ element ∈ elements, fieldOffsets element = layout cls
  | _ => True

/-- The condition on the run: the moving constructor is not used, and the index of the loop in
`create_meta` does not wrap. -/
def Event.Traced (layout : Nat → List Nat) : Event → Prop
  | .construct _ (.byMove _) => False
  | .gcNew cls _ _ _ => (layout cls).length ≤ 2 ^ 31
  | _ => True

theorem Event.Traced.recordedOffset {layout : Nat → List Nat} {event : Event}
    (traced : event.Traced layout) : event.recordedOffset = event.fieldOffset := by
  cases event with
  | construct place initializer =>
      cases initializer with
      | byMove p => exact traced.elim
      | byDefault => rfl
      | byCopy p => rfl
  | _ => rfl

/-- The collector knows all `gc_ptr`s, apart from the pending ones, which are not constructed
yet. -/
structure ReferencesKnown (isHeapPointer : Nat → Bool) (sizeof : Nat → Nat)
    (layout : Nat → List Nat) (pending : List Nat) (s : State) : Prop
    extends Scoped isHeapPointer s where
  flagged : ∀ a ∈ s.living, isStackPointer (s.word a) = true → a ∈ s.stack.addresses
  known : ∀ a ∈ s.automatics, a ∈ pending ∨ a ∈ s.stack.addresses
  classes : ∀ cls shell, s.clMeta cls = some shell →
    shell = sizeof cls :: (layout cls).length :: layout cls
  listed : ∀ object ∈ s.objects, ∀ field ∈ object.fields, object.Lists field

theorem mem_fieldPositions {offsets : List Nat} {elements : List (List Event)}
    (typed : ∀ element ∈ elements, fieldOffsets element = offsets) {size position field : Nat}
    (mem : field ∈ fieldPositions size position elements) :
    ∃ i < elements.length, ∃ offset ∈ offsets, field = position + (i * size + offset) := by
  induction elements generalizing position with
  | nil => cases mem
  | cons element elements ih =>
      rcases List.mem_append.mp mem with here | later
      · rcases List.mem_map.mp here with ⟨offset, offsetMem, same⟩
        rw [typed element List.mem_cons_self] at offsetMem
        exact ⟨0, Nat.succ_pos _, offset, offsetMem, by omega⟩
      · obtain ⟨i, below, offset, offsetMem, same⟩ :=
          ih (fun e eMem => typed e (List.mem_cons_of_mem _ eMem)) later
        refine ⟨i + 1, Nat.succ_lt_succ below, offset, offsetMem, ?_⟩
        rw [same, Nat.succ_mul]
        omega

/-- An object whose shell lists the offsets of its class lists all its fields. -/
theorem lists_fields {elements : List (List Event)} {offsets : List Nat} {size start field : Nat}
    (typed : ∀ element ∈ elements, fieldOffsets element = offsets)
    (mem : field ∈ fieldPositions size 0 elements) :
    ManagedObject.Lists
      { start := start, shell := size :: offsets.length :: offsets, count := elements.length,
        fields := fieldPositions size 0 elements } field := by
  rcases mem_fieldPositions typed mem with ⟨i, below, offset, offsetMem, same⟩
  exact ⟨i, below, offset, offsetMem, by simpa using same⟩

namespace State

theorem automatics_pop_subset {a x : Nat} {s : State}
    (mem : x ∈ (s.setFrame (s.frame.erase a)).automatics) : x ∈ s.automatics := by
  unfold setFrame frame at mem
  cases locals : s.locals with
  | nil =>
      rw [locals] at mem
      exact List.mem_of_mem_erase mem
  | cons frame rest =>
      rw [locals] at mem
      exact mem

theorem automatics_push_subset {a x : Nat} {s : State}
    (mem : x ∈ (s.setFrame (a :: s.frame)).automatics) : x = a ∨ x ∈ s.automatics := by
  unfold setFrame frame at mem
  cases locals : s.locals with
  | nil =>
      rw [locals] at mem
      exact List.mem_cons.mp mem
  | cons frame rest =>
      rw [locals] at mem
      exact Or.inr mem

theorem setFrame_objects (frame : List Nat) (s : State) :
    (s.setFrame frame).objects = s.objects := by
  unfold setFrame
  split <;> rfl

theorem setFrame_clMeta (frame : List Nat) (s : State) : (s.setFrame frame).clMeta = s.clMeta := by
  unfold setFrame
  split <;> rfl

end State

namespace ReferencesKnown

variable {isHeapPointer : Nat → Bool} {sizeof : Nat → Nat} {layout : Nat → List Nat}
  {pending : List Nat} {s t : State}

theorem congr (knows : ReferencesKnown isHeapPointer sizeof layout pending s)
    (newActive : t.tlflags.newActive = s.tlflags.newActive) (stack : t.stack = s.stack)
    (automatics : t.automatics = s.automatics) (locals : t.locals = s.locals)
    (clMeta : t.clMeta = s.clMeta) (objects : t.objects = s.objects)
    (word : ∀ a ∈ s.living, isStackPointer (t.word a) = true → isStackPointer (s.word a) = true) :
    ReferencesKnown isHeapPointer sizeof layout pending t := by
  have living : t.living = s.living := by
    unfold living
    rw [automatics, locals]
  refine ⟨knows.toScoped.congr newActive automatics locals, ?_, ?_, ?_, ?_⟩
  · intro a mem flag
    rw [living] at mem
    rw [stack]
    exact knows.flagged a mem (word a mem flag)
  · rw [automatics, stack]
    exact knows.known
  · rw [clMeta]
    exact knows.classes
  · rw [objects]
    exact knows.listed

theorem setWord_heap (knows : ReferencesKnown isHeapPointer sizeof layout pending s) {a : Nat}
    (value : Nat) (heap : isHeapPointer a = true) :
    ReferencesKnown isHeapPointer sizeof layout pending (s.setWord a value) := by
  apply knows.congr (t := s.setWord a value) rfl rfl rfl rfl rfl rfl
  intro x mem flag
  have other : x ≠ a := by
    intro same
    rw [same] at mem
    rw [knows.outside a mem] at heap
    cases heap
  rw [setWord_word, Function.update_of_ne other] at flag
  exact flag

/-- A word may lose its flag, but not get one. -/
theorem setWord_flag (knows : ReferencesKnown isHeapPointer sizeof layout pending s)
    {a value : Nat} (flag : isStackPointer value = true → isStackPointer (s.word a) = true) :
    ReferencesKnown isHeapPointer sizeof layout pending (s.setWord a value) := by
  apply knows.congr (t := s.setWord a value) rfl rfl rfl rfl rfl rfl
  intro x mem flagNow
  rw [setWord_word] at flagNow
  by_cases same : x = a
  · rw [same, Function.update_self] at flagNow
    rw [same]
    exact flag flagNow
  · rw [Function.update_of_ne same] at flagNow
    exact flagNow

theorem retain (knows : ReferencesKnown isHeapPointer sizeof layout pending s) (pointer : Nat) :
    ReferencesKnown isHeapPointer sizeof layout pending (s.retain pointer) := by
  unfold State.retain
  split
  · exact knows.congr rfl rfl rfl rfl rfl rfl fun _ _ => id
  · exact knows

theorem release (knows : ReferencesKnown isHeapPointer sizeof layout pending s) (pointer : Nat) :
    Yields (fun _ => True)
      (fun t => ReferencesKnown isHeapPointer sizeof layout pending t ∧ t.word = s.word)
      (s.release pointer) := by
  simp only [State.release]
  split
  · split
    · trivial
    · exact ⟨knows.congr rfl rfl rfl rfl rfl rfl fun _ _ => id, rfl⟩
  · exact ⟨knows, rfl⟩

/-- A new automatic object is pending until its constructor has decided about it. -/
theorem push (knows : ReferencesKnown isHeapPointer sizeof layout [] s) {a value : Nat}
    (fresh : a ∉ s.living) (off : isHeapPointer a = false) (flag : isStackPointer value = false) :
    ReferencesKnown isHeapPointer sizeof layout [a]
      ((s.setFrame (a :: s.frame)).setWord a value) := by
  have scopes : Scoped isHeapPointer ((s.setFrame (a :: s.frame)).setWord a value) :=
    (knows.toScoped.push fresh off).congr rfl rfl rfl
  refine ⟨scopes, ?_, ?_, ?_, ?_⟩
  · intro x mem flagged
    rw [setWord_word, setFrame_word] at flagged
    rw [setWord_stack, setFrame_stack]
    rcases List.mem_cons.mp ((living_push a s).mem_iff.mp mem) with same | old
    · rw [same, Function.update_self, flag] at flagged
      cases flagged
    · have other : x ≠ a := fun same => fresh (same ▸ old)
      rw [Function.update_of_ne other] at flagged
      exact knows.flagged x old flagged
  · intro x mem
    rw [setWord_stack, setFrame_stack]
    rcases automatics_push_subset mem with same | old
    · exact Or.inl (List.mem_singleton.mpr same)
    · exact Or.inr ((knows.known x old).resolve_left List.not_mem_nil)
  · change ∀ cls shell, (s.setFrame _).clMeta cls = some shell → _
    rw [setFrame_clMeta]
    exact knows.classes
  · rw [setWord_objects, setFrame_objects]
    exact knows.listed

/-- The registration settles what is pending. -/
theorem register {a : Nat} (knows : ReferencesKnown isHeapPointer sizeof layout [a] s) :
    ReferencesKnown isHeapPointer sizeof layout []
      ((s.setStack (s.stack.registerStackRoot a)).setWord a (setStackFlag (s.word a))) := by
  refine ⟨knows.toScoped.congr rfl rfl rfl, ?_, ?_, knows.classes, knows.listed⟩
  · intro x living flagged
    rw [setWord_stack, setStack_stack, StackMap.addresses_registerStackRoot]
    by_cases same : x = a
    · exact same ▸ List.mem_cons_self
    · rw [setWord_word, Function.update_of_ne same] at flagged
      exact List.mem_cons_of_mem _ (knows.flagged x living flagged)
  · intro x mem
    rw [setWord_stack, setStack_stack, StackMap.addresses_registerStackRoot]
    rcases knows.known x mem with same | registered
    · exact Or.inr (List.mem_singleton.mp same ▸ List.mem_cons_self)
    · exact Or.inr (List.mem_cons_of_mem _ registered)

/-- An automatic object of a constructor is not registered. -/
theorem settled {a : Nat} (knows : ReferencesKnown isHeapPointer sizeof layout [a] s)
    (inner : a ∉ s.automatics) : ReferencesKnown isHeapPointer sizeof layout [] s := by
  refine ⟨knows.toScoped, knows.flagged, fun x mem => Or.inr ?_, knows.classes, knows.listed⟩
  apply (knows.known x mem).resolve_left
  intro same
  rw [List.mem_singleton.mp same] at mem
  exact inner mem

theorem record_field (knows : ReferencesKnown isHeapPointer sizeof layout [] s) {this : Nat}
    (heap : isHeapPointer this = true) (nested : s.locals ≠ []) :
    Yields (fun _ => True) (ReferencesKnown isHeapPointer sizeof layout [])
      (s.record isHeapPointer this) := by
  simp only [record, knows.nested.mpr nested, heap]
  by_cases noActive : s.tlflags.noActive = true
  · simp only [noActive]
    exact knows
  · by_cases noObject : s.tlflags.currentPointerToObject = 0
    · simp [noActive, noObject]
    · simp only [noActive, noObject]
      exact knows.congr (knows.nested.mpr nested).symm rfl rfl rfl rfl rfl fun _ _ => id

/-- An automatic object is registered, or is one of a constructor. -/
theorem record_automatic {this : Nat}
    (knows : ReferencesKnown isHeapPointer sizeof layout [this] s) (mem : this ∈ s.living)
    (inner : s.locals ≠ [] → this ∉ s.automatics) :
    Yields (fun _ => True) (ReferencesKnown isHeapPointer sizeof layout [])
      (s.record isHeapPointer this) := by
  cases active : s.tlflags.newActive with
  | true =>
      simp only [record, active, knows.outside this mem]
      exact knows.settled (inner (knows.nested.mp active))
  | false =>
      simp only [record, active]
      exact knows.register

theorem born (knows : ReferencesKnown isHeapPointer sizeof layout [] s) {base : Nat}
    {place : Place} (placed : place.Placed isHeapPointer base)
    (atTop : s.locals = [] → place.offset = none) (value pointer : State → Nat)
    (flag : ∀ t, isStackPointer (value t) = false) :
    Yields (fun _ => True) (ReferencesKnown isHeapPointer sizeof layout [])
      (s.settle place >>= fun t =>
        ((t.setWord (place.address base) (value t)).retain (pointer t)).record isHeapPointer
          (place.address base)) := by
  cases place with
  | field offset =>
      have nested : s.locals ≠ [] := nofun ∘ atTop
      apply ((knows.setWord_heap (value s) placed).retain (pointer s)).record_field placed
      rw [retain_locals]
      exact nested
  | automatic address =>
      simp only [settle]
      split
      · trivial
      · rename_i fresh
        have pushed := knows.push fresh placed (flag (s.setFrame (address :: s.frame)))
        apply (pushed.retain _).record_automatic
        · rw [retain_living]
          exact (living_push address s).mem_iff.mpr List.mem_cons_self
        · intro nested mem
          rw [retain_locals, setWord_locals, Ne, setFrame_locals_eq_nil] at nested
          rw [retain_automatics, setWord_automatics, automatics_push_nested nested] at mem
          exact fresh (List.mem_append_left _ mem)

/-- The end of an automatic object, with a registration of its address at most taken away. -/
theorem pop (knows : ReferencesKnown isHeapPointer sizeof layout [] s) {this : Nat}
    (mem : this ∈ s.frame) (stack : StackMap)
    (stays : ∀ x, x ≠ this → x ∈ s.stack.addresses → x ∈ stack.addresses) :
    ReferencesKnown isHeapPointer sizeof layout []
      ((s.setFrame (s.frame.erase this)).setStack stack) := by
  refine ⟨(knows.toScoped.pop mem).congr rfl rfl rfl, ?_, ?_, ?_, ?_⟩
  · intro x living flagged
    rcases knows.toScoped.mem_pop mem living with ⟨other, old⟩
    change isStackPointer ((s.setFrame _).word x) = true at flagged
    rw [setFrame_word] at flagged
    exact stays x other (knows.flagged x old flagged)
  · intro x living
    have other := (knows.toScoped.mem_pop mem (List.mem_append_left _ living)).1
    have old := (knows.known x (automatics_pop_subset living)).resolve_left List.not_mem_nil
    exact Or.inr (stays x other old)
  · change ∀ cls shell, (s.setFrame _).clMeta cls = some shell → _
    rw [setFrame_clMeta]
    exact knows.classes
  · rw [setStack_objects, setFrame_objects]
    exact knows.listed

theorem dies (knows : ReferencesKnown isHeapPointer sizeof layout [] s) (this : Nat) :
    Yields (fun _ => True) (ReferencesKnown isHeapPointer sizeof layout [])
      (s.leave this >>= fun t => t.destruct this) := by
  simp only [leave]
  split
  · rename_i mem
    change Yields _ _ ((s.setFrame (s.frame.erase this)).destruct this)
    simp only [destruct, setFrame_word, setFrame_stack]
    split
    · rename_i flagged
      have registered := knows.flagged this (mem_living_of_mem_frame mem) flagged
      rcases StackMap.deleteStackRoot_spec registered with ⟨stack, deleted, left⟩
      have popped := knows.pop mem stack fun x other old =>
        left.mem_iff.mpr ((List.mem_erase_of_ne other).mpr old)
      rw [deleted]
      exact (popped.release _).mono fun _ => And.left
    · have popped := knows.pop mem s.stack fun _ _ => id
      rw [setStack_setFrame] at popped
      exact (popped.release _).mono fun _ => And.left
  · trivial

theorem ends (knows : ReferencesKnown isHeapPointer sizeof layout [] s)
    (old : ReferencesKnown isHeapPointer sizeof layout [] t) {u : State}
    (word : u.word = s.word) (stack : u.stack = s.stack) (automatics : u.automatics = s.automatics)
    (locals : u.locals = s.locals.tail) (outer : s.locals.tail = t.locals)
    (newActive : u.tlflags.newActive = t.tlflags.newActive)
    (classes : ∀ cls shell, u.clMeta cls = some shell →
      shell = sizeof cls :: (layout cls).length :: layout cls)
    (listed : ∀ object ∈ u.objects, ∀ field ∈ object.fields, object.Lists field) :
    ReferencesKnown isHeapPointer sizeof layout [] u := by
  refine ⟨knows.toScoped.ends old.toScoped automatics locals outer newActive, ?_, ?_, classes,
    listed⟩
  · intro a mem
    rw [word, stack]
    exact knows.flagged a ((Scoped.living_sublist automatics locals).subset mem)
  · rw [automatics, stack]
    exact knows.known

end ReferencesKnown

/-- What a typed program without moves does keeps all references known. -/
theorem referencesKnown_kept (isHeapPointer : Nat → Bool) (sizeof : Nat → Nat)
    (layout : Nat → List Nat) :
    Kept isHeapPointer sizeof (fun base event =>
      (event.Placed isHeapPointer base ∧ event.Typed layout) ∧ event.Traced layout)
      (ReferencesKnown isHeapPointer sizeof layout []) where
  placed _ _ here := here.1.1
  construct base place initializer s here atTop knows := by
    cases initializer with
    | byDefault =>
        exact knows.born here.1.1 atTop (fun _ => 0) (fun _ => 0)
          fun _ => isStackPointer_of_aligned rfl
    | byCopy p =>
        exact knows.born here.1.1 atTop (fun t => clearStackFlag (t.word p)) (fun t => t.word p)
          fun t => isStackPointer_clearStackFlag (t.word p)
    | byMove p => exact here.2.elim
  result base cls res elements place s here atTop knows := by
    have aligned : (res + sizeofBaseMeta) % 8 = 0 := by
      have resAligned := here.1.1.2
      unfold sizeofBaseMeta
      omega
    exact knows.born here.1.1.1 atTop (fun _ => res + sizeofBaseMeta) (fun _ => 0)
      fun _ => isStackPointer_of_aligned aligned
  assign base this a s here knows := by
    rw [assign]
    apply (knows.release _).bind
    intro t ⟨released, _⟩
    apply ReferencesKnown.retain
    apply released.setWord_flag
    split
    · rename_i flagged
      exact fun _ => flagged
    · rw [isStackPointer_clearStackFlag]
      exact nofun
  attach base this pointer b cp s here knows := by
    rw [attach]
    apply (knows.release _).bind
    intro t ⟨released, _⟩
    have recorded : ReferencesKnown isHeapPointer sizeof layout [] (t.setComposite cp
        { base := t.getPtr (t.word b), pointer := pointer, refCount := 1 }) :=
      released.congr rfl rfl rfl rfl rfl rfl fun _ _ => id
    apply recorded.setWord_flag
    split
    · rename_i flagged
      exact fun _ => flagged
    · rw [isStackPointer_setCompositeFlag here.1.1]
      exact nofun
  setNULL base this s here knows := by
    rw [setNULL]
    apply (knows.release _).bind
    intro t ⟨released, _⟩
    apply released.setWord_flag
    rw [isStackPointer_of_aligned rfl]
    exact nofun
  destruct base this s here knows := knows.dies this
  enterNew cls s knows :=
    ⟨knows.toScoped.enterNew cls, knows.flagged, knows.known, knows.classes, knows.listed⟩
  beginMeta data s knows := knows.congr rfl rfl rfl rfl rfl rfl fun _ _ => id
  stopRecording s nested knows := knows.congr rfl rfl rfl rfl rfl rfl fun _ _ => id
  endKnown base cls res first others place s t shell here known old knows automatics outer := by
    refine knows.ends old rfl rfl rfl rfl outer rfl knows.classes ?_
    intro object mem field fieldMem
    rcases List.mem_cons.mp mem with same | earlier
    · subst same
      rw [old.classes cls shell known]
      exact lists_fields here.1.2 fieldMem
    · exact knows.listed object earlier field fieldMem
  endUnknown base cls res first others place s t here every old knows automatics outer offsets := by
    have builds : recordedOffsets first = fieldOffsets first := by
      apply List.filterMap_congr
      intro event mem
      exact ((everyEvent_iff.mp every event mem).here).2.recordedOffset
    have layoutEq : t.tlflags.offsets = layout cls := by
      rw [offsets, builds, here.1.2 first List.mem_cons_self]
    have shell : createMeta (sizeof cls) t.tlflags.offsets =
        sizeof cls :: (layout cls).length :: layout cls := by
      rw [layoutEq]
      apply (createMeta_exact_iff _ _).mpr
      rw [List.drop_eq_nil_of_le here.2]
      exact nofun
    refine knows.ends old rfl rfl rfl rfl outer rfl ?_ ?_
    · intro other otherShell found
      change Function.update t.clMeta cls _ other = some otherShell at found
      by_cases same : other = cls
      · rw [same, Function.update_self, shell] at found
        rw [same]
        exact (Option.some.inj found).symm
      · rw [Function.update_of_ne same] at found
        exact knows.classes other otherShell found
    · intro object mem field fieldMem
      rcases List.mem_cons.mp mem with same | earlier
      · subst same
        rw [shell]
        exact lists_fields here.1.2 fieldMem
      · exact knows.listed object earlier field fieldMem

/-- The single thread of a program before its first allocation. -/
structure Fresh (s : State) : Prop extends Starts s where
  objects : s.objects = []
  clMeta : ∀ cls, s.clMeta cls = none

theorem Fresh.referencesKnown {isHeapPointer : Nat → Bool} {sizeof : Nat → Nat}
    {layout : Nat → List Nat} {s : State} (fresh : Fresh s) :
    ReferencesKnown isHeapPointer sizeof layout [] s := by
  refine ⟨fresh.toStarts.scopes, ?_, ?_, ?_, ?_⟩
  · simp [fresh.toStarts.living]
  · simp [fresh.automatics]
  · simp [fresh.clMeta]
  · simp [fresh.objects]

theorem Collected.referencesKnown {isHeapPointer : Nat → Bool} {sizeof : Nat → Nat}
    {layout : Nat → List Nat} {s s' : State} (collected : Collected s s') (outside : Outside s)
    (knows : ReferencesKnown isHeapPointer sizeof layout [] s) :
    ReferencesKnown isHeapPointer sizeof layout [] s' := by
  have living : s'.living = s.living := by
    unfold living
    rw [collected.automatics, collected.locals]
  refine ⟨knows.toScoped.congr (by rw [collected.tlflags]) collected.automatics collected.locals,
    ?_, ?_, ?_, ?_⟩
  · intro a mem flag
    rw [living, outside.living] at mem
    rw [isStackPointer_congr (collected.flags a mem)] at flag
    rw [collected.stack]
    exact knows.flagged a (List.mem_append_left _ mem) flag
  · rw [collected.automatics, collected.stack]
    exact knows.known
  · rw [collected.clMeta]
    exact knows.classes
  · intro object mem field fieldMem
    rcases collected.objects object mem with ⟨old, oldMem, moved⟩
    rw [moved] at fieldMem ⊢
    exact knows.listed old oldMem field fieldMem

/-- Whenever a collection may start, the automatic `gc_ptr`s are registered and the `gc_ptr`s in
objects are listed by the shells, if no `gc_ptr` was made by the moving constructor and no class
has more than `2^31` of them. -/
theorem runs_references {isHeapPointer : Nat → Bool} {sizeof : Nat → Nat}
    (layout : Nat → List Nat) {s : State}
    (reached : Reachable Fresh (Step isHeapPointer sizeof fun base event =>
      (event.Placed isHeapPointer base ∧ event.Typed layout) ∧ event.Traced layout) s) :
    s.tlflags.nestingLevel = 0 ∧ s.locals = [] ∧
      (∀ a ∈ s.automatics, a ∈ s.stack.addresses) ∧
      ∀ object ∈ s.objects, ∀ field ∈ object.fields, object.Lists field := by
  obtain ⟨outside, knows⟩ := (referencesKnown_kept isHeapPointer sizeof layout).reachable
    (fun s fresh => ⟨fresh.toStarts, fresh.referencesKnown⟩)
    (fun s s' outside knows collected => collected.referencesKnown outside knows) reached
  refine ⟨outside.nestingLevel, outside.locals, fun a mem => ?_, knows.listed⟩
  exact (knows.known a mem).resolve_left List.not_mem_nil

/-- Two elements with two fields each, and a copy of the `gc_ptr` to them. -/
def pairOfPairs : List Event :=
  let element := [.construct (.field 0) .byDefault,
    .gcNew 2 2000 [[]] (.field 8)]
  [.gcNew 1 1000 [element, element] (.automatic 8), .construct (.automatic 16) (.byCopy 8),
    .setNULL 8]

theorem runs_references_pairOfPairs :
    ∃ s, performAll (fun a => 1000 ≤ a) (fun _ => 16) 0 pairOfPairs .start = .ok s ∧
      (∀ a ∈ s.automatics, a ∈ s.stack.addresses) ∧
        ∀ object ∈ s.objects, ∀ field ∈ object.fields, object.Lists field := by
  obtain ⟨s, returned, -⟩ : ∃ s, performAll (fun a => 1000 ≤ a) (fun _ => 16) 0 pairOfPairs
      .start = .ok s ∧ True :=
    Yields.total (by decide +kernel)
  have known := runs_references (s := s) (fun cls => if cls = 1 then [0, 8] else [])
    (reachable_of_performAll (.start ⟨⟨rfl, rfl, rfl, rfl⟩, rfl, fun _ => rfl⟩)
    (by simp [pairOfPairs, Event.AtTop, Event.Every, Event.fieldOffset, Place.offset,
      Event.Placed, Place.Placed, EveryElement, EveryEvent, Event.Typed, Event.Traced,
      fieldOffsets, sizeofBaseMeta]) returned)
  exact ⟨s, returned, known.2.2.1, known.2.2.2⟩

/-- The moving constructor leaves an automatic `gc_ptr` to an object unregistered. -/
theorem runs_references_moved :
    ∃ s, Reachable Fresh (Step (fun a => 1000 ≤ a) (fun _ => 16) fun base event =>
        event.Placed (fun a => 1000 ≤ a) base ∧ event.Typed fun _ => []) s ∧
      16 ∈ s.automatics ∧ 16 ∉ s.stack.addresses ∧
        ∃ object ∈ s.objects, s.getPtr (s.word 16) = object.start := by
  have moved : Yields (fun _ => False)
      (fun s => 16 ∈ s.automatics ∧ 16 ∉ s.stack.addresses ∧
        ∃ object ∈ s.objects, s.getPtr (s.word 16) = object.start)
      (performAll (fun a => 1000 ≤ a) (fun _ => 16) 0
        [.gcNew 1 1000 [[]] (.automatic 8), .construct (.automatic 16) (.byMove 8)] .start) := by
    decide +kernel
  rcases moved.total with ⟨s, returned, unregistered⟩
  refine ⟨s, ?_, unregistered⟩
  apply reachable_of_performAll (.start ⟨⟨rfl, rfl, rfl, rfl⟩, rfl, fun _ => rfl⟩) _ returned
  simp [Event.AtTop, Event.Every, Event.fieldOffset, Place.offset, Event.Placed, Place.Placed,
    Event.Typed, EveryElement, EveryEvent, fieldOffsets]

end PreciseGc.Mutator

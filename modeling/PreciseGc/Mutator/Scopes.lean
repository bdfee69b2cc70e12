import PreciseGc.Mutator.Invariants

/-!
# Automatic objects

The automatic `gc_ptr`s of the functions that run are distinct objects outside
of the heap.  `gc_new` opens a scope for each constructor that it runs, and
`new_active` says whether one is open.
-/

namespace PreciseGc.Mutator

open Foundation State

namespace State

/-- The automatic objects of all functions that run. -/
def living (s : State) : List Nat := s.automatics ++ s.locals.flatten

theorem living_push (a : Nat) (s : State) :
    (s.setFrame (a :: s.frame)).living.Perm (a :: s.living) := by
  unfold setFrame frame living
  cases s.locals with
  | nil => simp
  | cons frame rest =>
      simp only [List.headD_cons, List.flatten_cons, List.cons_append]
      exact List.perm_middle

theorem automatics_push (a : Nat) (s : State) :
    (∀ x ∈ s.automatics, x ∈ (s.setFrame (a :: s.frame)).automatics) ∧
      (s.locals = [] → a ∈ (s.setFrame (a :: s.frame)).automatics) := by
  unfold setFrame frame
  cases s.locals with
  | nil => exact ⟨fun x mem => List.mem_cons_of_mem a mem, fun _ => List.mem_cons_self⟩
  | cons frame rest => exact ⟨fun x mem => mem, nofun⟩

theorem automatics_push_nested {frame : List Nat} {s : State} (nested : s.locals ≠ []) :
    (s.setFrame frame).automatics = s.automatics := by
  unfold setFrame
  split
  · rename_i top
    exact absurd top nested
  · rfl

theorem mem_living_of_mem_frame {a : Nat} {s : State} (mem : a ∈ s.frame) : a ∈ s.living := by
  unfold frame at mem
  unfold living
  cases locals : s.locals with
  | nil =>
      rw [locals] at mem
      exact List.mem_append_left _ mem
  | cons frame rest =>
      rw [locals] at mem
      exact List.mem_append_right _ (List.mem_append_left _ mem)

theorem living_pop {a : Nat} {s : State} (mem : a ∈ s.frame) (distinct : s.living.Nodup) :
    (s.setFrame (s.frame.erase a)).living.Perm (s.living.erase a) := by
  unfold frame at mem
  unfold setFrame frame living at *
  cases locals : s.locals with
  | nil => simp
  | cons frame rest =>
      rw [locals] at mem distinct
      have inner : a ∈ frame := mem
      have notOutside : a ∉ s.automatics := by
        intro outside
        exact (List.nodup_append.mp distinct).2.2 a outside a (List.mem_append_left _ inner) rfl
      simp only [List.headD_cons, List.flatten_cons]
      rw [List.erase_append_right _ notOutside, List.erase_append_left _ inner]

theorem automatics_pop {a x : Nat} {s : State} (mem : x ∈ s.automatics) (other : x ≠ a) :
    x ∈ (s.setFrame (s.frame.erase a)).automatics := by
  unfold setFrame frame
  cases s.locals with
  | nil => exact (List.mem_erase_of_ne other).mpr mem
  | cons frame rest => exact mem

@[simp]
theorem setFrame_stack (frame : List Nat) (s : State) : (s.setFrame frame).stack = s.stack := by
  unfold setFrame
  split <;> rfl

@[simp]
theorem setFrame_word (frame : List Nat) (s : State) : (s.setFrame frame).word = s.word := by
  unfold setFrame
  split <;> rfl

@[simp]
theorem setFrame_tlflags (frame : List Nat) (s : State) :
    (s.setFrame frame).tlflags = s.tlflags := by
  unfold setFrame
  split <;> rfl

@[simp]
theorem retain_locals (pointer : Nat) (s : State) : (s.retain pointer).locals = s.locals := by
  unfold retain
  split <;> rfl

@[simp]
theorem retain_living (pointer : Nat) (s : State) : (s.retain pointer).living = s.living := by
  unfold retain
  split <;> rfl

@[simp]
theorem retain_automatics (pointer : Nat) (s : State) :
    (s.retain pointer).automatics = s.automatics := by
  unfold retain
  split <;> rfl

theorem setStack_setFrame (frame : List Nat) (s : State) :
    (s.setFrame frame).setStack s.stack = s.setFrame frame := by
  unfold setStack
  rw [← setFrame_stack frame s]

theorem setFrame_locals_eq_nil {frame : List Nat} {s : State} :
    (s.setFrame frame).locals = [] ↔ s.locals = [] := by
  unfold setFrame
  split
  · rename_i top
    simp [top]
  · rename_i nested
    simp [nested]

end State

/-- The automatic objects are where they belong, and `new_active` says whether a constructor
runs. -/
structure Scoped (isHeapPointer : Nat → Bool) (s : State) : Prop where
  nested : s.tlflags.newActive = true ↔ s.locals ≠ []
  outside : ∀ a ∈ s.living, isHeapPointer a = false
  distinct : s.living.Nodup

namespace Scoped

variable {isHeapPointer : Nat → Bool} {s t : State}

theorem congr (scopes : Scoped isHeapPointer s)
    (newActive : t.tlflags.newActive = s.tlflags.newActive)
    (automatics : t.automatics = s.automatics) (locals : t.locals = s.locals) :
    Scoped isHeapPointer t := by
  have living : t.living = s.living := by
    unfold living
    rw [automatics, locals]
  refine ⟨?_, ?_, ?_⟩
  · rw [newActive, locals]
    exact scopes.nested
  · rw [living]
    exact scopes.outside
  · rw [living]
    exact scopes.distinct

theorem notNested (scopes : Scoped isHeapPointer s) (idle : s.tlflags.newActive = false) :
    s.locals = [] := by
  by_contra nested
  rw [scopes.nested.mpr nested] at idle
  cases idle

theorem push (scopes : Scoped isHeapPointer s) {a : Nat} (fresh : a ∉ s.living)
    (off : isHeapPointer a = false) : Scoped isHeapPointer (s.setFrame (a :: s.frame)) := by
  have perm := living_push a s
  refine ⟨?_, ?_, perm.nodup_iff.mpr (List.nodup_cons.mpr ⟨fresh, scopes.distinct⟩)⟩
  · rw [setFrame_tlflags, Ne, setFrame_locals_eq_nil]
    exact scopes.nested
  · intro x mem
    rcases List.mem_cons.mp (perm.mem_iff.mp mem) with same | old
    · exact same ▸ off
    · exact scopes.outside x old

/-- What lives after the end of an object lived before, and is another object. -/
theorem mem_pop (scopes : Scoped isHeapPointer s) {this x : Nat} (mem : this ∈ s.frame)
    (living : x ∈ (s.setFrame (s.frame.erase this)).living) : x ≠ this ∧ x ∈ s.living :=
  scopes.distinct.mem_erase_iff.mp ((living_pop mem scopes.distinct).mem_iff.mp living)

theorem pop (scopes : Scoped isHeapPointer s) {this : Nat} (mem : this ∈ s.frame) :
    Scoped isHeapPointer (s.setFrame (s.frame.erase this)) := by
  refine ⟨?_, fun x living => scopes.outside x (scopes.mem_pop mem living).2, ?_⟩
  · rw [setFrame_tlflags, Ne, setFrame_locals_eq_nil]
    exact scopes.nested
  · apply (living_pop mem scopes.distinct).nodup_iff.mpr
    exact scopes.distinct.erase this

/-- At the end of `gc_new` the automatic objects of its constructors are gone. -/
theorem living_sublist (automatics : t.automatics = s.automatics)
    (locals : t.locals = s.locals.tail) : t.living.Sublist s.living := by
  unfold living
  rw [automatics, locals]
  apply List.Sublist.append_left
  cases s.locals with
  | nil => exact List.Sublist.refl _
  | cons frame rest => exact List.sublist_append_right _ _

theorem ends {u : State} (scopes : Scoped isHeapPointer s) (old : Scoped isHeapPointer t)
    (automatics : u.automatics = s.automatics) (locals : u.locals = s.locals.tail)
    (outer : s.locals.tail = t.locals) (newActive : u.tlflags.newActive = t.tlflags.newActive) :
    Scoped isHeapPointer u := by
  have sublist := living_sublist automatics locals
  refine ⟨?_, fun a mem => scopes.outside a (sublist.subset mem), scopes.distinct.sublist sublist⟩
  rw [newActive, locals, outer]
  exact old.nested

theorem enterNew (scopes : Scoped isHeapPointer s) (cls : Nat) :
    Scoped isHeapPointer (s.enterNew cls) :=
  ⟨⟨fun _ => List.cons_ne_nil _ _, fun _ => rfl⟩, scopes.outside, scopes.distinct⟩

end Scoped

theorem Starts.living {s : State} (starts : Starts s) : s.living = [] := by
  unfold State.living
  rw [starts.automatics, starts.locals]
  rfl

theorem Starts.scopes {isHeapPointer : Nat → Bool} {s : State} (starts : Starts s) :
    Scoped isHeapPointer s := by
  refine ⟨?_, ?_, ?_⟩
  · rw [starts.tlflags, starts.locals]
    exact ⟨nofun, fun nested => absurd rfl nested⟩
  · simp [starts.living]
  · simp [starts.living]

/-- Outside of constructors only the automatic objects of the program live. -/
theorem Outside.living {s : State} (outside : Outside s) : s.living = s.automatics := by
  unfold State.living
  rw [outside.locals]
  exact List.append_nil _

end PreciseGc.Mutator

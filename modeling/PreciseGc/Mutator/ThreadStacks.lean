import PreciseGc.Mutator.ReferenceCounts

/-!
# The stacks of several threads

Every thread has a `StackMap` of its own.  A constructor registers the `gc_ptr`
in that of the thread that runs it, and the destructor looks for it in that of
the thread that runs the destructor.
-/

namespace PreciseGc.Mutator

open Foundation State Function

/-- The threads of a program and the `gc_ptr`s that they share.  `home` is the thread in which the
`gc_ptr` at an address was constructed. -/
structure Threads where
  shared : State
  tlflags : Nat → TlVars
  stack : Nat → StackMap
  live : List Nat
  home : Nat → Nat

/-- The address at which an operation constructs a `gc_ptr`. -/
def Operation.constructed : Operation → Option Nat
  | fromPointer this _ => some this
  | construct this _ => some this
  | _ => none

namespace Threads

/-- What a thread works with. -/
def view (t : Nat) (c : Threads) : State := (c.shared.setFlags (c.tlflags t)).setStack (c.stack t)

/-- The threads after the thread `t` has done an operation. -/
def after (t : Nat) (op : Operation) (s : State) (c : Threads) : Threads where
  shared := s
  tlflags := update c.tlflags t s.tlflags
  stack := update c.stack t s.stack
  live := op.live c.live
  home := (op.constructed.elim c.home) fun this => update c.home this t

/-- The address of a `gc_ptr` is in the `StackMap` of a thread. -/
def Registered (c : Threads) (a : Nat) : Prop := ∃ t, a ∈ (c.stack t).addresses

/-- What the language and `my_malloc` promise for an operation. -/
def Valid (c : Threads) (op : Operation) : Prop :=
  op.Valid { thread := c.shared, live := c.live, records := [] }

/-- What a collection does: it moves and drops `gc_ptr`s in objects, and those that are registered
stay. -/
structure Collects (kept : Nat → Bool) (place : Nat → Nat) (c d : Threads) : Prop where
  tlflags : d.tlflags = c.tlflags
  stack : d.stack = c.stack
  home : d.home = c.home
  live : d.live = (c.live.filter kept).map place
  apart : ∀ a ∈ c.live, ∀ b ∈ c.live, place a = place b → a = b
  roots : ∀ a, c.Registered a → kept a = true ∧ place a = a
  flags : ∀ a ∈ c.live, isStackPointer (d.shared.word (place a)) = isStackPointer (c.shared.word a)

/-- The steps of a run: a thread does an operation, or enters or leaves a constructor that `gc_new`
runs, or there is a collection. -/
inductive Step (allowed : Threads → Nat → Operation → Prop) : Threads → Threads → Prop
  | operate {c : Threads} {s : State} (isHeapPointer : Nat → Bool) (t : Nat) (op : Operation)
      (valid : c.Valid op) (condition : allowed c t op)
      (returned : op.run isHeapPointer (c.view t) = .ok s) : Step allowed c (c.after t op s)
  | construction {c : Threads} (t : Nat) (tlflags : TlVars) :
      Step allowed c { c with tlflags := update c.tlflags t tlflags }
  | collect {c d : Threads} {kept : Nat → Bool} {place : Nat → Nat}
      (collects : Collects kept place c d) : Step allowed c d

/-- No `gc_ptr` has been constructed. -/
structure Starts (c : Threads) : Prop where
  live : c.live = []
  stack : ∀ t, c.stack t = StackMap.empty

/-- The condition on the run: a `gc_ptr` with the stack flag is destroyed in the thread that
constructed it, and `setNULL` is not called on one. -/
def Homely (c : Threads) (t : Nat) : Operation → Prop
  | .destruct this => isStackPointer (c.shared.word this) = true → c.home this = t
  | .setNULL this => isStackPointer (c.shared.word this) = false
  | _ => True

/-- Exactly one registration of `a` is gone, if it was registered, and no other. -/
def Unregisters (a : Nat) (c d : Threads) : Prop :=
  (∀ t, a ∈ (c.stack t).addresses →
    (d.stack t).addresses.Perm ((c.stack t).addresses.erase a) ∧ ∀ u ≠ t, d.stack u = c.stack u) ∧
  (¬ c.Registered a → d.stack = c.stack)

/-- The flags of the live `gc_ptr`s say which are registered, each once and in the thread that
constructed it, and nothing else is registered. -/
structure StacksAgree (c : Threads) : Prop where
  apart : c.live.Nodup
  flagged : ∀ a ∈ c.live, isStackPointer (c.shared.word a) = true ↔ c.Registered a
  homes : ∀ t, ∀ a ∈ (c.stack t).addresses, a ∈ c.live ∧ c.home a = t
  once : ∀ t, (c.stack t).addresses.Nodup

end Threads

namespace State

variable {isHeapPointer : Nat → Bool} {s t u : State} {this : Nat}

/-- An operation writes the word of one `gc_ptr`. -/
def Writes (this : Nat) (s t : State) : Prop := ∀ x ≠ this, t.word x = s.word x

theorem Writes.trans (first : Writes this s t) (second : Writes this t u) : Writes this s u :=
  fun x other => (second x other).trans (first x other)

theorem writes_setWord (this value : Nat) (s : State) : Writes this s (s.setWord this value) := by
  intro x other
  rw [setWord_word, update_of_ne other]

theorem word_retain (pointer : Nat) (s : State) : (s.retain pointer).word = s.word := by
  unfold retain
  split <;> rfl

/-- A constructor registers the `gc_ptr` and sets its flag, or does neither. -/
structure Constructs (this : Nat) (s t : State) : Prop where
  writes : Writes this s t
  decided : isStackPointer (t.word this) = true ∧ t.stack.addresses = this :: s.stack.addresses ∨
    isStackPointer (t.word this) = false ∧ t.stack = s.stack

/-- What the assignments do to the stack: the flag is carried over. -/
structure Assigns (this : Nat) (s t : State) : Prop where
  writes : Writes this s t
  flag : isStackPointer (t.word this) = isStackPointer (s.word this)
  stack : t.stack = s.stack

theorem release_stack (pointer : Nat) (s : State) :
    Yields (· ≠ .emptyStackMap) (fun t => t.word = s.word ∧ t.stack = s.stack)
      (s.release pointer) := by
  simp only [release]
  split
  · split
    · intro same
      cases same
    · exact ⟨rfl, rfl⟩
  · exact ⟨rfl, rfl⟩

theorem record_constructs (unflagged : isStackPointer (s.word this) = false) :
    Yields (· ≠ .emptyStackMap) (Constructs this s) (s.record isHeapPointer this) := by
  unfold record
  split
  · refine ⟨writes_setWord _ _ _, Or.inl ⟨?_, ?_⟩⟩
    · rw [setWord_word, update_self]
      exact isStackPointer_setStackFlag _
    · rw [setWord_stack, setStack_stack]
      exact StackMap.addresses_registerStackRoot this s.stack
  · have unchanged : Constructs this s s := ⟨fun _ _ => rfl, Or.inr ⟨unflagged, rfl⟩⟩
    split
    · split
      · exact unchanged
      · split
        · exact nofun
        · exact ⟨fun _ _ => rfl, Or.inr ⟨unflagged, rfl⟩⟩
    · exact unchanged

/-- The constructors that end with a registration. -/
theorem born_constructs {value : Nat} (pointer : Nat) (unflagged : isStackPointer value = false) :
    Yields (· ≠ .emptyStackMap) (Constructs this s)
      (((s.setWord this value).retain pointer).record isHeapPointer this) := by
  have word : ((s.setWord this value).retain pointer).word = update s.word this value :=
    word_retain _ _
  have stack : ((s.setWord this value).retain pointer).stack = s.stack := retain_stack _ _
  have written : Writes this s ((s.setWord this value).retain pointer) := by
    intro x other
    rw [word, update_of_ne other]
  apply Yields.mono (record_constructs _)
  · intro t constructs
    refine ⟨written.trans constructs.writes, ?_⟩
    have decided := constructs.decided
    rw [stack] at decided
    exact decided
  · rw [word, update_self]
    exact unflagged

theorem moveConstruct_constructs (this source : Nat) (s : State) :
    Constructs this s (s.moveConstruct this source) := by
  refine ⟨writes_setWord _ _ _, Or.inr ⟨?_, rfl⟩⟩
  change isStackPointer (update s.word this (clearStackFlag (s.word source)) this) = false
  rw [update_self]
  exact isStackPointer_clearStackFlag _

theorem setWord_assigns {value : Nat} (word : t.word = s.word) (stack : t.stack = s.stack)
    (flag : isStackPointer value = isStackPointer (s.word this)) :
    Assigns this s (t.setWord this value) := by
  refine ⟨?_, ?_, stack⟩
  · intro x other
    rw [setWord_word, update_of_ne other, word]
  · rw [setWord_word, update_self, flag]

theorem assign_assigns (this a : Nat) (s : State) :
    Yields (· ≠ .emptyStackMap) (Assigns this s) (s.assign this a) := by
  apply (release_stack (s.word this) s).bind
  rintro t ⟨word, stack⟩
  have flag : isStackPointer (if isStackPointer (t.word this) then setStackFlag (t.word a)
      else clearStackFlag (t.word a)) = isStackPointer (s.word this) := by
    rw [← word]
    split
    · rename_i flagged
      rw [flagged, isStackPointer_setStackFlag]
    · rename_i unflagged
      rw [Bool.eq_false_iff.mpr unflagged, isStackPointer_clearStackFlag]
  have written := setWord_assigns word stack flag
  refine ⟨?_, ?_, ?_⟩
  · rw [Writes, word_retain]
    exact written.writes
  · rw [word_retain]
    exact written.flag
  · rw [retain_stack]
    exact written.stack

theorem attach_assigns {cp : Nat} (this pointer base : Nat) (aligned : cp % 8 = 0) (s : State) :
    Yields (· ≠ .emptyStackMap) (Assigns this s) (s.attach this pointer base cp) := by
  apply (release_stack (s.word this) s).bind
  rintro t ⟨word, stack⟩
  have flag : isStackPointer (if isStackPointer (t.word this) then setBothFlags cp
      else setCompositeFlag cp) = isStackPointer (s.word this) := by
    rw [← word]
    split
    · rename_i flagged
      rw [flagged, isStackPointer_setBothFlags]
    · rename_i unflagged
      rw [Bool.eq_false_iff.mpr unflagged, isStackPointer_setCompositeFlag aligned]
  exact @setWord_assigns s (t.setComposite cp _) this _ word stack flag

theorem setNULL_assigns (unflagged : isStackPointer (s.word this) = false) :
    Yields (· ≠ .emptyStackMap) (Assigns this s) (s.setNULL this) := by
  apply (release_stack (s.word this) s).bind
  rintro t ⟨word, stack⟩
  apply setWord_assigns word stack
  rw [unflagged]
  exact isStackPointer_of_aligned rfl

/-- The destructor of a `gc_ptr` whose flag is that of a registered one takes it out. -/
theorem destruct_stack (known : isStackPointer (s.word this) = true → this ∈ s.stack.addresses) :
    Yields (· ≠ .emptyStackMap)
      (fun t => t.word = s.word ∧
        (isStackPointer (s.word this) = true →
          t.stack.addresses.Perm (s.stack.addresses.erase this)) ∧
        (isStackPointer (s.word this) = false → t.stack = s.stack))
      (s.destruct this) := by
  unfold destruct
  split
  · rename_i flagged
    rcases StackMap.deleteStackRoot_spec (known flagged) with ⟨stack, deleted, left⟩
    rw [deleted]
    apply (release_stack (s.word this) (s.setStack stack)).mono
    rintro t ⟨word, same⟩
    refine ⟨word, fun _ => ?_, fun unflagged => absurd flagged (by simp [unflagged])⟩
    rw [same]
    exact left
  · rename_i unflagged
    apply (release_stack (s.word this) s).mono
    rintro t ⟨word, same⟩
    exact ⟨word, fun flagged => absurd flagged unflagged, fun _ => same⟩

end State

namespace Threads

variable {c d : Threads} {isHeapPointer : Nat → Bool} {t : Nat} {this : Nat} {s : State}

namespace StacksAgree

/-- A registered `gc_ptr` is in the `StackMap` of the thread that constructed it. -/
theorem registered_iff (agrees : StacksAgree c) {a : Nat} :
    c.Registered a ↔ a ∈ (c.stack (c.home a)).addresses := by
  constructor
  · rintro ⟨t, mem⟩
    rw [(agrees.homes t a mem).2]
    exact mem
  · exact fun mem => ⟨c.home a, mem⟩

theorem congr (agrees : StacksAgree c) (live : d.live = c.live) (stack : d.stack = c.stack)
    (home : d.home = c.home)
    (flag : ∀ a ∈ c.live, isStackPointer (d.shared.word a) = isStackPointer (c.shared.word a)) :
    StacksAgree d := by
  refine ⟨live ▸ agrees.apart, ?_, ?_, ?_⟩
  · intro a mem
    rw [live] at mem
    unfold Registered
    rw [flag a mem, stack]
    exact agrees.flagged a mem
  · rw [live, stack, home]
    exact agrees.homes
  · rw [stack]
    exact agrees.once

/-- A constructor in the thread `t`. -/
theorem constructs (agrees : StacksAgree c) {op : Operation} (fresh : this ∉ c.live)
    (constructed : op.constructed = some this) (live : op.live c.live = this :: c.live)
    (constructs : Constructs this (c.view t) s) : StacksAgree (c.after t op s) := by
  have unregistered (u : Nat) : this ∉ (c.stack u).addresses :=
    fun mem => fresh (agrees.homes u this mem).1
  have home : (c.after t op s).home = update c.home this t := by
    unfold after
    rw [constructed]
    rfl
  have word (x : Nat) (other : x ≠ this) : s.word x = c.shared.word x := constructs.writes x other
  have mem (u a : Nat) : a ∈ (update c.stack t s.stack u).addresses ↔
      a ∈ (c.stack u).addresses ∨ isStackPointer (s.word this) = true ∧ u = t ∧ a = this := by
    by_cases same : u = t
    · rw [same, update_self]
      rcases constructs.decided with ⟨flagged, stack⟩ | ⟨unflagged, stack⟩
      · rw [stack, flagged, List.mem_cons]
        simp only [true_and]
        exact or_comm
      · rw [stack, unflagged]
        simp [view]
    · rw [update_of_ne same]
      simp [same]
  refine ⟨?_, ?_, ?_, ?_⟩
  · change (op.live c.live).Nodup
    rw [live]
    exact List.nodup_cons.mpr ⟨fresh, agrees.apart⟩
  · intro a living
    change a ∈ op.live c.live at living
    change isStackPointer (s.word a) = true ↔ ∃ u, a ∈ (update c.stack t s.stack u).addresses
    rw [live] at living
    rcases List.mem_cons.mp living with same | old
    · rw [same]
      constructor
      · exact fun flagged => ⟨t, (mem t this).mpr (Or.inr ⟨flagged, rfl, rfl⟩)⟩
      · rintro ⟨u, registered⟩
        rcases (mem u this).mp registered with before | ⟨flagged, -⟩
        · exact absurd before (unregistered u)
        · exact flagged
    · have other : a ≠ this := fun same => fresh (same ▸ old)
      rw [word a other, agrees.flagged a old]
      apply exists_congr
      intro u
      rw [mem u a]
      simp [other]
  · intro u a registered
    change a ∈ op.live c.live ∧ (c.after t op s).home a = u
    rw [live, home]
    rcases (mem u a).mp registered with before | ⟨-, inThread, same⟩
    · rcases agrees.homes u a before with ⟨old, constructedIn⟩
      have other : a ≠ this := fun same => fresh (same ▸ old)
      rw [update_of_ne other]
      exact ⟨List.mem_cons_of_mem this old, constructedIn⟩
    · rw [same, update_self]
      exact ⟨List.mem_cons_self, inThread.symm⟩
  · intro u
    change (update c.stack t s.stack u).addresses.Nodup
    by_cases same : u = t
    · rw [same, update_self]
      rcases constructs.decided with ⟨-, stack⟩ | ⟨-, stack⟩
      · rw [stack]
        exact List.nodup_cons.mpr ⟨unregistered t, agrees.once t⟩
      · rw [stack]
        exact agrees.once t
    · rw [update_of_ne same]
      exact agrees.once u

/-- An assignment in the thread `t`. -/
theorem assigns (agrees : StacksAgree c) {op : Operation} (constructed : op.constructed = none)
    (live : op.live c.live = c.live) (assigns : Assigns this (c.view t) s) :
    StacksAgree (c.after t op s) := by
  apply agrees.congr live
  · change update c.stack t s.stack = c.stack
    rw [assigns.stack]
    exact update_eq_self t c.stack
  · unfold after
    rw [constructed]
    rfl
  · intro a _
    by_cases same : a = this
    · rw [same]
      exact assigns.flag
    · exact congrArg isStackPointer (assigns.writes a same)

/-- The destructor of a `gc_ptr` that is registered in the thread `t`, if at all. -/
theorem destructs (agrees : StacksAgree c) (mem : this ∈ c.live)
    (home : isStackPointer (c.shared.word this) = true → c.home this = t) :
    Yields (· ≠ .emptyStackMap)
      (fun s => StacksAgree (c.after t (.destruct this) s) ∧
        Unregisters this c (c.after t (.destruct this) s))
      ((c.view t).destruct this) := by
  have known : isStackPointer ((c.view t).word this) = true →
      this ∈ (c.view t).stack.addresses := by
    intro flagged
    have here := agrees.registered_iff.mp ((agrees.flagged this mem).mp flagged)
    rw [home flagged] at here
    exact here
  apply (destruct_stack known).mono
  rintro s ⟨word, taken, kept⟩
  have unchanged (unregistered : ¬ c.Registered this) : s.stack = c.stack t := by
    apply kept
    exact Bool.eq_false_iff.mpr fun flagged => unregistered ((agrees.flagged this mem).mp flagged)
  have left : s.stack.addresses.Perm ((c.stack t).addresses.erase this) := by
    by_cases registered : c.Registered this
    · exact taken ((agrees.flagged this mem).mpr registered)
    · rw [unchanged registered, List.erase_of_not_mem fun here => registered ⟨t, here⟩]
  have elsewhere (u : Nat) (other : u ≠ t) : this ∉ (c.stack u).addresses := by
    intro here
    apply other
    rw [← (agrees.homes u this here).2]
    exact home ((agrees.flagged this mem).mpr ⟨u, here⟩)
  have stays (u a : Nat) : a ∈ (update c.stack t s.stack u).addresses ↔
      a ≠ this ∧ a ∈ (c.stack u).addresses := by
    by_cases same : u = t
    · rw [same, update_self, left.mem_iff]
      exact (agrees.once t).mem_erase_iff
    · rw [update_of_ne same]
      refine ⟨fun here => ⟨?_, here⟩, And.right⟩
      intro self
      exact elsewhere u same (self ▸ here)
  refine ⟨⟨agrees.apart.erase this, ?_, ?_, ?_⟩, ?_, ?_⟩
  · intro a living
    rcases agrees.apart.mem_erase_iff.mp living with ⟨other, old⟩
    change isStackPointer (s.word a) = true ↔ ∃ u, a ∈ (update c.stack t s.stack u).addresses
    rw [word]
    apply (agrees.flagged a old).trans
    apply exists_congr
    intro u
    rw [stays u a]
    simp [other]
  · intro u a here
    rcases (stays u a).mp here with ⟨other, before⟩
    rcases agrees.homes u a before with ⟨old, constructedIn⟩
    exact ⟨agrees.apart.mem_erase_iff.mpr ⟨other, old⟩, constructedIn⟩
  · intro u
    change (update c.stack t s.stack u).addresses.Nodup
    by_cases same : u = t
    · rw [same, update_self]
      exact left.nodup_iff.mpr ((agrees.once t).erase this)
    · rw [update_of_ne same]
      exact agrees.once u
  · intro u here
    have inThread : u = t := by
      by_contra other
      exact elsewhere u other here
    rw [inThread]
    constructor
    · change (update c.stack t s.stack t).addresses.Perm _
      rw [update_self]
      exact left
    · intro v other
      change update c.stack t s.stack v = c.stack v
      exact update_of_ne other _ _
  · intro unregistered
    change update c.stack t s.stack = c.stack
    rw [unchanged unregistered]
    exact update_eq_self t c.stack

/-- What an operation of the thread `t` does, if it meets the condition. -/
theorem run (agrees : StacksAgree c) {op : Operation} (valid : c.Valid op)
    (condition : c.Homely t op) :
    Yields (· ≠ .emptyStackMap) (fun s => StacksAgree (c.after t op s))
      (op.run isHeapPointer (c.view t)) := by
  cases op with
  | fromPointer this pointer =>
      apply Yields.mono (born_constructs 0 (isStackPointer_of_aligned valid.2))
      exact fun s => agrees.constructs valid.1 rfl rfl
  | construct this initializer =>
      cases initializer with
      | byDefault =>
          apply Yields.mono (born_constructs 0 (isStackPointer_of_aligned rfl))
          exact fun s => agrees.constructs valid.1 rfl rfl
      | byCopy source =>
          apply Yields.mono (born_constructs _ (isStackPointer_clearStackFlag _))
          exact fun s => agrees.constructs valid.1 rfl rfl
      | byMove source =>
          exact agrees.constructs valid.1 rfl rfl (moveConstruct_constructs this source (c.view t))
  | assign this a =>
      apply (assign_assigns this a (c.view t)).mono
      exact fun s => agrees.assigns rfl rfl
  | attach this pointer base cp =>
      apply (attach_assigns this pointer base valid.2.2.1 (c.view t)).mono
      exact fun s => agrees.assigns rfl rfl
  | setNULL this =>
      have unflagged : isStackPointer ((c.view t).word this) = false := condition
      apply (setNULL_assigns unflagged).mono
      exact fun s => agrees.assigns rfl rfl
  | destruct this => exact (agrees.destructs valid condition).mono fun s => And.left

theorem collect (agrees : StacksAgree c) {kept : Nat → Bool} {place : Nat → Nat}
    (collects : Collects kept place c d) : StacksAgree d := by
  have survivors (a : Nat) (mem : a ∈ c.live.filter kept) : a ∈ c.live ∧ kept a = true :=
    List.mem_filter.mp mem
  have stays (a : Nat) (mem : a ∈ c.live) :
      d.Registered (place a) ↔ c.Registered a := by
    have same : d.Registered (place a) ↔ c.Registered (place a) := by
      unfold Registered
      rw [collects.stack]
    rw [same]
    constructor
    · intro registered
      have old := (agrees.homes _ _ (agrees.registered_iff.mp registered)).1
      rw [collects.apart _ old a mem (collects.roots _ registered).2] at registered
      exact registered
    · intro registered
      rw [(collects.roots a registered).2]
      exact registered
  refine ⟨?_, ?_, ?_, ?_⟩
  · rw [collects.live]
    apply (agrees.apart.filter kept).map_on
    intro a aMem b bMem
    exact collects.apart a (survivors a aMem).1 b (survivors b bMem).1
  · intro a' mem
    rw [collects.live] at mem
    rcases List.mem_map.mp mem with ⟨a, aMem, moved⟩
    rw [← moved, collects.flags a (survivors a aMem).1, stays a (survivors a aMem).1]
    exact agrees.flagged a (survivors a aMem).1
  · intro u a here
    rw [collects.stack] at here
    rcases agrees.homes u a here with ⟨old, constructedIn⟩
    rcases collects.roots a ⟨u, here⟩ with ⟨keeps, stayed⟩
    rw [collects.home, collects.live]
    exact ⟨List.mem_map.mpr ⟨a, List.mem_filter.mpr ⟨old, keeps⟩, stayed⟩, constructedIn⟩
  · rw [collects.stack]
    exact agrees.once

end StacksAgree

end Threads

/-- In every run in which each flagged `gc_ptr` is destroyed in the thread that constructed it and
`setNULL` is called on none, a destructor takes away the registration of its `gc_ptr` and no other,
and no operation reads an empty list. -/
theorem runs_unregister {c : Threads}
    (reached : Reachable Threads.Starts (Threads.Step Threads.Homely) c) :
    (∀ isHeapPointer t this s, this ∈ c.live → c.Homely t (.destruct this) →
      (Operation.destruct this).run isHeapPointer (c.view t) = .ok s →
        Threads.Unregisters this c (c.after t (.destruct this) s)) ∧
    ∀ (isHeapPointer : Nat → Bool) (t : Nat) (op : Operation), c.Valid op → c.Homely t op →
      op.run isHeapPointer (c.view t) ≠ .error .emptyStackMap := by
  have agrees : Threads.StacksAgree c := by
    apply reached.invariant
    · intro c starts
      refine ⟨by simp [starts.live], by simp [starts.live], ?_, ?_⟩
      · simp [starts.stack]
      · simp [starts.stack]
    · intro c d agrees step
      cases step with
      | operate isHeapPointer t op valid condition returned =>
          exact (agrees.run valid condition).of_ok returned
      | construction t tlflags => exact agrees.congr rfl rfl rfl fun _ _ => rfl
      | collect collects => exact agrees.collect collects
  constructor
  · intro isHeapPointer t this s mem home returned
    exact ((agrees.destructs mem home).of_ok returned).2
  · intro isHeapPointer t op valid condition failed
    exact (agrees.run valid condition).of_error failed rfl

namespace Threads

instance (c : Threads) : DecidablePred c.Valid := fun op =>
  inferInstanceAs (Decidable (op.Valid _))

instance (c : Threads) (t : Nat) : DecidablePred (c.Homely t)
  | .destruct this =>
      inferInstanceAs (Decidable (isStackPointer (c.shared.word this) = true → c.home this = t))
  | .setNULL this => inferInstanceAs (Decidable (isStackPointer (c.shared.word this) = false))
  | .fromPointer _ _ => .isTrue trivial
  | .construct _ _ => .isTrue trivial
  | .assign _ _ => .isTrue trivial
  | .attach _ _ _ _ => .isTrue trivial

/-- A thread does an operation. -/
def operate (isHeapPointer : Nat → Bool) (command : Nat × Operation) (c : Threads) :
    Except Fault Threads :=
  command.2.run isHeapPointer (c.view command.1) >>= fun s => .ok (c.after command.1 command.2 s)

theorem step_operate {allowed : Threads → Nat → Operation → Prop} {isHeapPointer : Nat → Bool}
    (c : Threads) (command : Nat × Operation) (d : Threads)
    (permitted : c.Valid command.2 ∧ allowed c command.1 command.2)
    (performed : operate isHeapPointer command c = .ok d) : Step allowed c d := by
  rcases bind_eq_ok performed with ⟨s, returned, same⟩
  cases same
  exact .operate isHeapPointer command.1 command.2 permitted.1 permitted.2 returned

/-- Threads that have made no `gc_ptr`. -/
def none : Threads where
  shared := .start
  tlflags _ := TlVars.initial
  stack _ := StackMap.empty
  live := []
  home _ := 0

end Threads

/-- Thread 1 makes two `gc_ptr`s and thread 2 one, which it copies into one of thread 1. -/
def eachItsOwn : List (Nat × Operation) :=
  [(1, .construct 8 .byDefault), (1, .construct 16 .byDefault), (2, .construct 24 .byDefault),
    (2, .assign 16 24)]

theorem runs_unregister_eachItsOwn :
    ∃ c s, runAll (Threads.operate fun _ => false) eachItsOwn .none = .ok c ∧
      (Operation.destruct 8).run (fun _ => false) (c.view 1) = .ok s ∧
      Threads.Unregisters 8 c (c.after 1 (.destruct 8) s) := by
  obtain ⟨c, returned, mem, home, destroys⟩ : ∃ c,
      runAll (Threads.operate fun _ => false) eachItsOwn .none = .ok c ∧
        8 ∈ c.live ∧ c.Homely 1 (.destruct 8) ∧
        Yields (fun _ => False) (fun _ => True)
          ((Operation.destruct 8).run (fun _ => false) (c.view 1)) :=
    Yields.total (by decide +kernel)
  rcases destroys.total with ⟨s, destroyed, -⟩
  have reached : Reachable Threads.Starts (Threads.Step Threads.Homely) c := by
    apply Reachable.runAll (.start ⟨rfl, fun _ => rfl⟩) Threads.step_operate _ returned
    decide +kernel
  exact ⟨c, s, returned, destroyed, (runs_unregister reached).1 _ 1 8 s mem home destroyed⟩

/-- Threads 1 and 2 make a `gc_ptr` each. -/
def oneEach : List (Nat × Operation) :=
  [(1, .construct 8 .byDefault), (2, .construct 16 .byDefault)]

/-- Thread 2 destroys the `gc_ptr` of thread 1 and loses its own root, and thread 3 would read an
empty list. -/
theorem runs_unregister_foreign :
    ∃ c s, Reachable Threads.Starts (Threads.Step fun _ _ _ => True) c ∧
      8 ∈ c.live ∧ 16 ∈ c.live ∧
      (Operation.destruct 8).run (fun _ => false) (c.view 2) = .ok s ∧
      8 ∈ ((c.after 2 (.destruct 8) s).stack 1).addresses ∧
      16 ∈ (c.stack 2).addresses ∧ 16 ∉ ((c.after 2 (.destruct 8) s).stack 2).addresses ∧
      faultOf ((Operation.destruct 8).run (fun _ => false) (c.view 3)) = some .emptyStackMap := by
  obtain ⟨c, returned, first, second, before, empty, destroys⟩ : ∃ c,
      runAll (Threads.operate fun _ => false) oneEach .none = .ok c ∧
        8 ∈ c.live ∧ 16 ∈ c.live ∧ 16 ∈ (c.stack 2).addresses ∧
        faultOf ((Operation.destruct 8).run (fun _ => false) (c.view 3)) = some .emptyStackMap ∧
        Yields (fun _ => False)
          (fun s => 8 ∈ ((c.after 2 (.destruct 8) s).stack 1).addresses ∧
            16 ∉ ((c.after 2 (.destruct 8) s).stack 2).addresses)
          ((Operation.destruct 8).run (fun _ => false) (c.view 2)) :=
    Yields.total (by decide +kernel)
  rcases destroys.total with ⟨s, destroyed, stale, lost⟩
  have reached : Reachable Threads.Starts (Threads.Step fun _ _ _ => True) c := by
    apply Reachable.runAll (.start ⟨rfl, fun _ => rfl⟩) Threads.step_operate _ returned
    decide +kernel
  exact ⟨c, s, reached, first, second, destroyed, stale, before, lost, empty⟩

end PreciseGc.Mutator

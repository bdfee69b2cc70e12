import PreciseGc.Foundation.Program
import PreciseGc.Foundation.ReferenceCounts
import PreciseGc.Mutator.StackFlags

/-!
# Reference counts of composite pointers

The `ref_count` of a `Composite_pointer` is to be the number of live `gc_ptr`s
whose word refers to it.  The move constructor copies the word and leaves the
count as it is.
-/

namespace PreciseGc.Mutator

open Foundation State Function

/-- The `Composite_pointer` to which a pointer word refers. -/
def recordOf (pointer : Nat) : Option Nat :=
  if isCompositePointer pointer then some (clearBothFlags pointer) else none

/-- An operation on the `gc_ptr` at `this`.  `fromPointer` is the private constructor, with which
`gc_new` makes its result. -/
inductive Operation where
  | fromPointer (this p : Nat)
  | construct (this : Nat) (initializer : Initializer)
  | assign (this a : Nat)
  | attach (this pointer base cp : Nat)
  | setNULL (this : Nat)
  | destruct (this : Nat)
deriving DecidableEq, Repr

/-- A thread, the addresses of the live `gc_ptr`s, and those of the `Composite_pointer`s that
`attach` has made. -/
structure Population where
  thread : State
  live : List Nat
  records : List Nat

namespace Operation

def run (isHeapPointer : Nat → Bool) : Operation → State → Except Fault State
  | fromPointer this p, s => s.pointerConstruct isHeapPointer this p
  | construct this initializer, s => s.construct isHeapPointer this initializer
  | assign this a, s => s.assign this a
  | attach this pointer base cp, s => s.attach this pointer base cp
  | setNULL this, s => s.setNULL this
  | destruct this, s => s.destruct this

/-- The live `gc_ptr`s afterwards. -/
def live (before : List Nat) : Operation → List Nat
  | fromPointer this _ => this :: before
  | construct this _ => this :: before
  | destruct this => before.erase this
  | _ => before

/-- The `Composite_pointer`s afterwards. -/
def records (before : List Nat) : Operation → List Nat
  | attach _ _ _ cp => cp :: before
  | _ => before

end Operation

/-- What a `gc_ptr` refers to. -/
def State.referent (s : State) (a : Nat) : Option Nat := recordOf (s.word a)

/-- The `ref_count` of a `Composite_pointer`. -/
def State.refCount (s : State) (cp : Nat) : Nat := (s.composite cp).refCount

/-- The `gc_ptr` that a constructor copies. -/
def Initializer.source : Initializer → Option Nat
  | byDefault => none
  | byCopy p => some p
  | byMove p => some p

/-- What the language and `my_malloc` promise: a constructor gets memory where no `gc_ptr` lives,
and `gc_new` passes it the address of an object, everything else is done with live ones, and no live
`gc_ptr` refers to memory that `my_malloc` returns. -/
def Operation.Valid (p : Population) : Operation → Prop
  | fromPointer this pointer => this ∉ p.live ∧ pointer % 8 = 0
  | construct this initializer =>
      this ∉ p.live ∧ ∀ source ∈ initializer.source, source ∈ p.live
  | assign this a => this ∈ p.live ∧ a ∈ p.live
  | attach this _ base cp =>
      this ∈ p.live ∧ base ∈ p.live ∧ cp % 8 = 0 ∧
        ∀ a ∈ p.live, p.thread.referent a ≠ some cp
  | setNULL this => this ∈ p.live
  | destruct this => this ∈ p.live

/-- The condition on the run: the move constructor copies no composite pointer. -/
def Operation.Counted (p : Population) : Operation → Prop
  | construct _ (.byMove source) => p.thread.referent source = none
  | _ => True

namespace Population

/-- What a collection does to the `gc_ptr`s and the `Composite_pointer`s that it keeps, if it
recycles no object with a composite `gc_ptr`. -/
structure Relocates (kept : Nat → Bool) (place record : Nat → Nat) (p q : Population) : Prop where
  live : q.live = (p.live.filter kept).map place
  apart : ∀ a ∈ p.live, ∀ b ∈ p.live, place a = place b → a = b
  composites : ∀ a ∈ p.live, p.thread.referent a ≠ none → kept a = true
  words : ∀ a ∈ p.live, kept a = true →
    q.thread.referent (place a) = (p.thread.referent a).map record
  recordsApart : ∀ cp ∈ p.records, ∀ cp' ∈ p.records, record cp = record cp' → cp = cp'
  referred : ∀ a ∈ p.live, ∀ cp, p.thread.referent a = some cp → record cp ∈ q.records
  records : ∀ cp' ∈ q.records, ∃ cp ∈ p.records, cp' = record cp ∧
    q.thread.refCount cp' = p.thread.refCount cp

/-- The steps of a run: an operation, a change to another thread or into and out of a constructor
that `gc_new` runs, and a collection. -/
inductive Step (allowed : Population → Operation → Prop) : Population → Population → Prop
  | operate {p : Population} {thread : State} (isHeapPointer : Nat → Bool) (op : Operation)
      (valid : op.Valid p) (condition : allowed p op)
      (returned : op.run isHeapPointer p.thread = .ok thread) :
      Step allowed p
        { thread := thread, live := op.live p.live, records := op.records p.records }
  | resume {p : Population} (tlflags : TlVars) (stack : StackMap) :
      Step allowed p { p with thread := (p.thread.setFlags tlflags).setStack stack }
  | collect {p q : Population} {kept : Nat → Bool} {place record : Nat → Nat}
      (relocates : Relocates kept place record p q) : Step allowed p q

/-- No `gc_ptr` has been constructed. -/
structure Starts (p : Population) : Prop where
  live : p.live = []
  records : p.records = []

/-- Every count is that of the live `gc_ptr`s that refer to the record. -/
structure ReferencesCounted (p : Population) : Prop where
  apart : p.live.Nodup
  counted : CountsExact {cp | cp ∈ p.records} p.thread.refCount
    (p.live.map p.thread.referent : List (Option Nat))

end Population

/-- The flags decide whether there is a record, and the rest of the word is its address. -/
theorem recordOf_eq (x : Nat) : recordOf x = (recordOf (x % 8)).map (8 * (x / 8) + ·) := by
  have address : clearBothFlags x = 8 * (x / 8) + clearBothFlags (x % 8) := by
    have octet : clearBothFlags x / 8 = x / 8 := clear_div_eight (by decide) x
    have residue : clearBothFlags x % 8 = clearBothFlags (x % 8) := clear_mod_eight (by decide) x
    rw [← octet, ← residue, Nat.div_add_mod]
  have flag : isCompositePointer x = isCompositePointer (x % 8) := hasFlag_residue (by decide) x
  unfold recordOf
  rw [flag, address]
  split <;> rfl

theorem recordOf_of_aligned {x : Nat} (aligned : x % 8 = 0) : recordOf x = none := by
  rw [recordOf_eq, aligned]
  rfl

theorem recordOf_congr {x y : Nat} (octet : x / 8 = y / 8)
    (residue : recordOf (x % 8) = recordOf (y % 8)) : recordOf x = recordOf y := by
  rw [recordOf_eq x, recordOf_eq y, octet, residue]

theorem recordOf_clearStackFlag (x : Nat) : recordOf (clearStackFlag x) = recordOf x := by
  have octet : clearStackFlag x / 8 = x / 8 := clear_div_eight (by decide) x
  apply recordOf_congr octet
  have residue : clearStackFlag x % 8 = clearStackFlag (x % 8) := clear_mod_eight (by decide) x
  rw [residue]
  exact of_residues (motive := fun r => recordOf (clearStackFlag r) = recordOf r) x (by decide)

theorem recordOf_setStackFlag (x : Nat) : recordOf (setStackFlag x) = recordOf x := by
  have octet : setStackFlag x / 8 = x / 8 := or_div_eight (by decide) x
  apply recordOf_congr octet
  have residue : setStackFlag x % 8 = setStackFlag (x % 8) := by
    apply or_mod_eight
    decide
  rw [residue]
  exact of_residues (motive := fun r => recordOf (setStackFlag r) = recordOf r) x (by decide)

theorem recordOf_setCompositeFlag {cp : Nat} (aligned : cp % 8 = 0) :
    recordOf (setCompositeFlag cp) = some cp := by
  have octet : setCompositeFlag cp / 8 = cp / 8 := or_div_eight (by decide) cp
  have residue : setCompositeFlag cp % 8 = 2 := by
    have flagged : setCompositeFlag cp % 8 = setCompositeFlag (cp % 8) := by
      apply or_mod_eight
      decide
    rw [flagged, aligned]
    rfl
  rw [recordOf_eq, octet, residue]
  apply congrArg some
  exact Nat.mul_div_cancel' (Nat.dvd_of_mod_eq_zero aligned)

theorem setBothFlags_eq (x : Nat) : setBothFlags x = setStackFlag (setCompositeFlag x) :=
  (Nat.or_assoc x compositeBit stackBit).symm

theorem recordOf_setBothFlags {cp : Nat} (aligned : cp % 8 = 0) :
    recordOf (setBothFlags cp) = some cp := by
  rw [setBothFlags_eq, recordOf_setStackFlag, recordOf_setCompositeFlag aligned]

namespace State

variable {isHeapPointer : Nat → Bool} {allowed : Fault → Prop} {s : State}

theorem referent_setWord (a value : Nat) (s : State) :
    (s.setWord a value).referent = update s.referent a (recordOf value) := by
  funext x
  unfold referent
  rw [setWord_word]
  by_cases same : x = a
  · rw [same, update_self, update_self]
  · rw [update_of_ne same, update_of_ne same]

theorem referent_retain (pointer : Nat) (s : State) :
    (s.retain pointer).referent = s.referent := by
  unfold retain
  split <;> rfl

theorem refCount_setComposite (cp : Nat) (record : CompositePointer) (s : State) :
    (s.setComposite cp record).refCount = update s.refCount cp record.refCount := by
  funext x
  unfold refCount
  rw [setComposite_composite]
  by_cases same : x = cp
  · rw [same, update_self, update_self]
  · rw [update_of_ne same, update_of_ne same]

theorem refCount_retain (pointer : Nat) (s : State) :
    (s.retain pointer).refCount = retained s.refCount (recordOf pointer) := by
  unfold retain recordOf
  split
  · exact refCount_setComposite _ _ s
  · rfl

/-- A reference whose record has a positive count is given up. -/
theorem release_refCount {pointer : Nat}
    (positive : ∀ cp, recordOf pointer = some cp → 0 < s.refCount cp) :
    Yields allowed
      (fun t => t.word = s.word ∧ t.refCount = released s.refCount (recordOf pointer))
      (s.release pointer) := by
  unfold release recordOf
  unfold recordOf at positive
  split
  · rename_i composite
    have counted : ¬ (s.composite (clearBothFlags pointer)).refCount = 0 := by
      apply Nat.pos_iff_ne_zero.mp
      exact positive _ (if_pos composite)
    rw [if_neg counted]
    exact ⟨rfl, refCount_setComposite _ _ s⟩
  · exact ⟨rfl, rfl⟩

/-- The end of the constructors changes no reference. -/
theorem record_references (this : Nat) (s : State) :
    Yields (· ≠ .noReference) (fun t => t.referent = s.referent ∧ t.refCount = s.refCount)
      (s.record isHeapPointer this) := by
  unfold record
  split
  · refine ⟨?_, rfl⟩
    rw [referent_setWord, recordOf_setStackFlag]
    exact update_eq_self this s.referent
  · split
    · split
      · exact ⟨rfl, rfl⟩
      · split
        · exact nofun
        · exact ⟨rfl, rfl⟩
    · exact ⟨rfl, rfl⟩

end State

namespace Population.ReferencesCounted

variable {p q : Population} {isHeapPointer : Nat → Bool}

theorem recorded (counted : p.ReferencesCounted) {a cp : Nat} (mem : a ∈ p.live)
    (refers : p.thread.referent a = some cp) : cp ∈ p.records := by
  apply counted.counted.recorded
  apply Multiset.mem_coe.mpr
  exact List.mem_map.mpr ⟨a, mem, refers⟩

/-- What a live `gc_ptr` refers to is given up, and its place waits for another reference. -/
theorem release (counted : p.ReferencesCounted) {this : Nat} (mem : this ∈ p.live)
    {allowed : Fault → Prop} :
    Yields allowed
      (fun t => t.word = p.thread.word ∧ CountsExact {cp | cp ∈ p.records} t.refCount
        ((p.live.erase this).map p.thread.referent : List _))
      (p.thread.release (p.thread.word this)) := by
  apply (release_refCount _).mono
  · rintro t ⟨word, counts⟩
    rw [counts]
    exact ⟨word, counted.counted.vacate mem⟩
  · intro cp refers
    exact counted.counted.positive_of_mem mem refers

/-- A constructor: a new `gc_ptr` takes a reference. -/
theorem born (counted : p.ReferencesCounted) {this value pointer : Nat} (fresh : this ∉ p.live)
    (same : recordOf value = recordOf pointer)
    (recorded : ∀ cp, recordOf pointer = some cp → cp ∈ p.records) :
    ReferencesCounted
      { thread := (p.thread.setWord this value).retain pointer, live := this :: p.live,
        records := p.records } := by
  have apart : (this :: p.live).Nodup := List.nodup_cons.mpr ⟨fresh, counted.apart⟩
  have waiting : CountsExact {cp | cp ∈ p.records} p.thread.refCount
      (((this :: p.live).erase this).map p.thread.referent : List _) := by
    rw [List.erase_cons_head]
    exact counted.counted
  refine ⟨apart, ?_⟩
  change CountsExact _ ((p.thread.setWord this value).retain pointer).refCount
    ((this :: p.live).map ((p.thread.setWord this value).retain pointer).referent : List _)
  rw [refCount_retain, referent_retain, referent_setWord, same]
  exact waiting.fill apart List.mem_cons_self recorded

theorem congr (counted : p.ReferencesCounted) (live : q.live = p.live)
    (records : q.records = p.records) (referent : q.thread.referent = p.thread.referent)
    (refCount : q.thread.refCount = p.thread.refCount) : q.ReferencesCounted := by
  refine ⟨live ▸ counted.apart, ?_⟩
  rw [live, records, referent, refCount]
  exact counted.counted

/-- The end of the constructors. -/
theorem record (counted : p.ReferencesCounted) (this : Nat) :
    Yields (· ≠ .noReference) (fun t => ReferencesCounted { p with thread := t })
      (p.thread.record isHeapPointer this) := by
  apply (record_references this p.thread).mono
  rintro t ⟨referent, refCount⟩
  exact counted.congr rfl rfl referent refCount

theorem pointerConstruct (counted : p.ReferencesCounted) {this pointer : Nat}
    (fresh : this ∉ p.live) (plain : recordOf pointer = none) :
    Yields (· ≠ .noReference)
      (fun t => ReferencesCounted { p with thread := t, live := this :: p.live })
      (p.thread.pointerConstruct isHeapPointer this pointer) := by
  have constructed := @born p counted this pointer 0 fresh plain nofun
  exact constructed.record this

theorem copyConstruct (counted : p.ReferencesCounted) {this source : Nat}
    (fresh : this ∉ p.live) (mem : source ∈ p.live) :
    Yields (· ≠ .noReference)
      (fun t => ReferencesCounted { p with thread := t, live := this :: p.live })
      (p.thread.copyConstruct isHeapPointer this source) := by
  have constructed := counted.born fresh (recordOf_clearStackFlag (p.thread.word source))
    fun cp refers => counted.recorded mem refers
  exact constructed.record this

/-- A moved plain pointer has no count. -/
theorem moveConstruct (counted : p.ReferencesCounted) {this source : Nat}
    (fresh : this ∉ p.live) (plain : p.thread.referent source = none) :
    ReferencesCounted
      { p with thread := p.thread.moveConstruct this source, live := this :: p.live } := by
  apply @born p counted this (clearStackFlag (p.thread.word source)) 0 fresh
  · rw [recordOf_clearStackFlag]
    exact plain
  · exact nofun

theorem referent_congr {s t : State} (word : t.word = s.word) : t.referent = s.referent := by
  unfold State.referent
  rw [word]

/-- A `gc_ptr` that has given up its reference takes another one. -/
theorem written (counted : p.ReferencesCounted) {this value pointer : Nat} (mem : this ∈ p.live)
    {t : State} (word : t.word = p.thread.word)
    (waiting : CountsExact {cp | cp ∈ p.records} t.refCount
      ((p.live.erase this).map p.thread.referent : List _))
    (same : recordOf value = recordOf pointer)
    (recorded : ∀ cp, recordOf pointer = some cp → cp ∈ p.records) :
    ReferencesCounted { p with thread := (t.setWord this value).retain pointer } := by
  refine ⟨counted.apart, ?_⟩
  change CountsExact _ ((t.setWord this value).retain pointer).refCount
    (p.live.map ((t.setWord this value).retain pointer).referent : List _)
  rw [refCount_retain, referent_retain, referent_setWord, same, referent_congr word]
  exact waiting.fill counted.apart mem recorded

theorem assign (counted : p.ReferencesCounted) {this a : Nat} (mem : this ∈ p.live)
    (source : a ∈ p.live) :
    Yields (· ≠ .noReference) (fun t => ReferencesCounted { p with thread := t })
      (p.thread.assign this a) := by
  apply (counted.release mem).bind
  rintro t ⟨word, waiting⟩
  have value : recordOf (if isStackPointer (t.word this) then setStackFlag (t.word a)
      else clearStackFlag (t.word a)) = recordOf (t.word a) := by
    split
    · exact recordOf_setStackFlag (t.word a)
    · exact recordOf_clearStackFlag (t.word a)
  -- The word of `a` is read again, which in a self-assignment is the word just written.
  have reread : recordOf ((t.setWord this (if isStackPointer (t.word this)
      then setStackFlag (t.word a) else clearStackFlag (t.word a))).word a) =
        recordOf (t.word a) := by
    rw [setWord_word]
    by_cases same : a = this
    · subst same
      rw [update_self, value]
    · rw [update_of_ne same]
  apply counted.written mem word waiting
  · exact value.trans reread.symm
  · intro cp refers
    have refersBefore : recordOf (p.thread.word a) = some cp := by
      rw [← word, ← reread]
      exact refers
    exact counted.recorded source refersBefore

theorem setNULL (counted : p.ReferencesCounted) {this : Nat} (mem : this ∈ p.live) :
    Yields (· ≠ .noReference) (fun t => ReferencesCounted { p with thread := t })
      (p.thread.setNULL this) := by
  apply (counted.release mem).bind
  rintro t ⟨word, waiting⟩
  exact @written p counted this 0 0 mem t word waiting rfl nofun

theorem attach (counted : p.ReferencesCounted) {this pointer base cp : Nat}
    (mem : this ∈ p.live) (aligned : cp % 8 = 0)
    (fresh : ∀ a ∈ p.live, p.thread.referent a ≠ some cp) :
    Yields (· ≠ .noReference)
      (fun t => ReferencesCounted { p with thread := t, records := cp :: p.records })
      (p.thread.attach this pointer base cp) := by
  apply (counted.release mem).bind
  rintro t ⟨word, waiting⟩
  have value : recordOf (if isStackPointer (t.word this) then setBothFlags cp
      else setCompositeFlag cp) = some cp := by
    split
    · exact recordOf_setBothFlags aligned
    · exact recordOf_setCompositeFlag aligned
  have records : {k | k ∈ cp :: p.records} = insert cp {k | k ∈ p.records} := by
    ext k
    simp
  have filled := waiting.fillNew counted.apart mem fresh
  refine ⟨counted.apart, ?_⟩
  change CountsExact {k | k ∈ cp :: p.records} (State.refCount (State.setComposite cp _ t))
    (p.live.map (State.referent (State.setWord this _ (State.setComposite cp _ t))) : List _)
  rw [records, refCount_setComposite, referent_setWord]
  change CountsExact _ (update t.refCount cp 1) ((p.live.map (update t.referent this
    (recordOf (if isStackPointer (t.word this) then setBothFlags cp else setCompositeFlag cp))) :
      List (Option Nat)) : Multiset (Option Nat))
  rw [value, referent_congr word]
  exact filled

theorem destruct (counted : p.ReferencesCounted) {this : Nat} (mem : this ∈ p.live) :
    Yields (· ≠ .noReference)
      (fun t => ReferencesCounted { p with thread := t, live := p.live.erase this })
      (p.thread.destruct this) := by
  have gone {t : State} (word : t.word = p.thread.word)
      (waiting : CountsExact {cp | cp ∈ p.records} t.refCount
        ((p.live.erase this).map p.thread.referent : List _)) :
      ReferencesCounted { p with thread := t, live := p.live.erase this } := by
    refine ⟨counted.apart.erase this, ?_⟩
    change CountsExact {cp | cp ∈ p.records} t.refCount
      ((p.live.erase this).map t.referent : List _)
    rw [referent_congr word]
    exact waiting
  unfold State.destruct
  split
  · split
    · exact nofun
    · rename_i stack deleted
      have unregistered : ReferencesCounted { p with thread := p.thread.setStack stack } :=
        counted.congr rfl rfl rfl rfl
      apply (unregistered.release mem).mono
      rintro t ⟨word, waiting⟩
      exact gone word waiting
  · apply (counted.release mem).mono
    rintro t ⟨word, waiting⟩
    exact gone word waiting

/-- No operation fails the assertion, and each keeps the counts exact. -/
theorem run (counted : p.ReferencesCounted) {op : Operation} (valid : op.Valid p)
    (condition : op.Counted p) :
    Yields (· ≠ .noReference)
      (fun t => ReferencesCounted
        { thread := t, live := op.live p.live, records := op.records p.records })
      (op.run isHeapPointer p.thread) := by
  cases op with
  | fromPointer this pointer =>
      exact counted.pointerConstruct valid.1 (recordOf_of_aligned valid.2)
  | construct this initializer =>
      cases initializer with
      | byDefault => exact counted.pointerConstruct valid.1 rfl
      | byCopy source => exact counted.copyConstruct valid.1 (valid.2 source rfl)
      | byMove source => exact counted.moveConstruct valid.1 condition
  | assign this a => exact counted.assign valid.1 valid.2
  | attach this pointer base cp => exact counted.attach valid.1 valid.2.2.1 valid.2.2.2
  | setNULL this => exact counted.setNULL valid
  | destruct this => exact counted.destruct valid

/-- A collection keeps the counts exact, because it keeps every composite `gc_ptr`. -/
theorem collect (counted : p.ReferencesCounted) {kept : Nat → Bool} {place record : Nat → Nat}
    (relocates : Relocates kept place record p q) : q.ReferencesCounted := by
  have survivors (a : Nat) (mem : a ∈ p.live.filter kept) : a ∈ p.live ∧ kept a = true :=
    List.mem_filter.mp mem
  have referents : q.live.map q.thread.referent =
      (p.live.filter kept).map fun a => (p.thread.referent a).map record := by
    rw [relocates.live, List.map_map]
    apply List.map_congr_left
    intro a mem
    exact relocates.words a (survivors a mem).1 (survivors a mem).2
  refine ⟨?_, ?_, ?_⟩
  · rw [relocates.live]
    apply (counted.apart.filter kept).map_on
    intro a aMem b bMem
    exact relocates.apart a (survivors a aMem).1 b (survivors b bMem).1
  · intro cp' mem
    rw [referents] at mem
    rcases List.mem_map.mp (Multiset.mem_coe.mp mem) with ⟨a, aMem, refers⟩
    rcases Option.map_eq_some_iff.mp refers with ⟨cp, before, moved⟩
    rw [← moved]
    exact relocates.referred a (survivors a aMem).1 cp before
  · intro cp' mem
    rcases relocates.records cp' mem with ⟨cp, cpMem, moved, same⟩
    rw [same, counted.counted.exact cp cpMem, referents, count_referents, count_referents,
      List.countP_filter]
    apply List.countP_congr
    intro a aMem
    simp only [Bool.and_eq_true, decide_eq_true_eq]
    constructor
    · intro refers
      refine ⟨?_, relocates.composites a aMem (by simp [refers])⟩
      rw [refers, moved]
      rfl
    · rintro ⟨refers, -⟩
      rcases Option.map_eq_some_iff.mp refers with ⟨old, before, movedToo⟩
      have oldMem := counted.recorded aMem before
      rw [before, relocates.recordsApart old oldMem cp cpMem (movedToo.trans moved)]

end Population.ReferencesCounted

instance (p : Population) : DecidablePred (Operation.Valid p)
  | .fromPointer this pointer =>
      inferInstanceAs (Decidable (this ∉ p.live ∧ pointer % 8 = 0))
  | .construct this initializer =>
      inferInstanceAs (Decidable (this ∉ p.live ∧ ∀ source ∈ initializer.source, source ∈ p.live))
  | .assign this a => inferInstanceAs (Decidable (this ∈ p.live ∧ a ∈ p.live))
  | .attach this _ base cp =>
      inferInstanceAs (Decidable (this ∈ p.live ∧ base ∈ p.live ∧ cp % 8 = 0 ∧
        ∀ a ∈ p.live, p.thread.referent a ≠ some cp))
  | .setNULL this => inferInstanceAs (Decidable (this ∈ p.live))
  | .destruct this => inferInstanceAs (Decidable (this ∈ p.live))

instance (p : Population) : DecidablePred (Operation.Counted p)
  | .construct _ (.byMove source) => inferInstanceAs (Decidable (p.thread.referent source = none))
  | .construct _ .byDefault => .isTrue trivial
  | .construct _ (.byCopy _) => .isTrue trivial
  | .fromPointer _ _ => .isTrue trivial
  | .assign _ _ => .isTrue trivial
  | .attach _ _ _ _ => .isTrue trivial
  | .setNULL _ => .isTrue trivial
  | .destruct _ => .isTrue trivial

namespace Population

/-- An operation, and what it does to the `gc_ptr`s and `Composite_pointer`s. -/
def operate (isHeapPointer : Nat → Bool) (op : Operation) (p : Population) :
    Except Fault Population :=
  op.run isHeapPointer p.thread >>= fun thread =>
    .ok { thread := thread, live := op.live p.live, records := op.records p.records }

theorem step_operate {allowed : Population → Operation → Prop} {isHeapPointer : Nat → Bool}
    (p : Population) (op : Operation) (q : Population) (permitted : op.Valid p ∧ allowed p op)
    (performed : operate isHeapPointer op p = .ok q) : Step allowed p q := by
  rcases bind_eq_ok performed with ⟨thread, returned, same⟩
  cases same
  exact .operate isHeapPointer op permitted.1 permitted.2 returned

/-- A thread that has made no `gc_ptr`. -/
def none : Population :=
  { thread := .start, live := [], records := [] }

end Population

end PreciseGc.Mutator

import PreciseGc.Programs.RootChanges

/-!
# Writes of a program

What the program sees of a write depends on the word that is written: a
registered `gc_ptr`, a slot of an object, other data of an object, or memory
that only the program uses.  The constructors, the destructor and the
assignments of `gc_ptr`s are such writes together with changes of a `StackMap`.
-/

namespace PreciseGc

open Foundation Memory

variable {pf : Platform} {t : DerefRoots} {h h' : Heap} {c : Census} {bigs : List Nat}
  {a b d o this w x value : Nat} {s s₁ s' : Process} {thread : Thread}
  {before after : List Thread} {m m' : Mutator.State} {path target source : AccessPath RootName Nat}

/-- The words of stacks keep their objects if the objects keep their places and sizes. -/
theorem RootsValid.wordTarget_keeps (valid : RootsValid pf t h c bigs) (keeps : KeepsObjects h h')
    (w : Nat) : wordTarget t h' w = wordTarget t h w := by
  unfold wordTarget
  cases found : t.lookup w with
  | none => rfl
  | some handler =>
      rcases valid.handler_object found with ⟨b, isObject, pointer, _⟩
      simp only [Option.bind_some, pointer, objectOf_eq, Nat.add_sub_cancel, keeps.size b isObject]

/-- An object whose words stay the same has the same content. -/
theorem KeepsObjects.content_eq {apart : Nat → Prop} (keeps : KeepsObjects h h')
    (isObject : ObjectBlock h b) (object : GcObject h.mem apart b)
    (data : ∀ o < blockSize (h.mem b), b + 8 + o ∉ slotsOf h.mem b →
      h'.mem (b + 8 + o) = h.mem (b + 8 + o)) : contentOf h'.mem b = contentOf h.mem b := by
  have held : HeldBy h h' b b :=
    ⟨keeps.object b isObject, keeps.size b isObject, keeps.shape b isObject, data⟩
  apply held.content_eq
  intro x slot
  have := object.slot_bounds slot
  omega

namespace Process

/-- The roots and the objects are the same. -/
structure Unseen (s s' : Process) : Prop where
  root : ∀ name, s'.store.root name = s.store.root name
  content : ∀ b, ObjectBlock s.heap b → s'.store.content b = s.store.content b
  slot : ∀ b, ObjectBlock s.heap b → ∀ o, s'.store.slot b o = s.store.slot b o

theorem Unseen.renames (unseen : s.Unseen s') (sound : s.Sound pf) :
    s.store.Renames id s'.store :=
  Store.Renames.of_eq unseen.root
    (fun b accessible => unseen.content b (sound.object_of_accessible accessible))
    fun b accessible => unseen.slot b (sound.object_of_accessible accessible)

/-- A step within a memory that keeps the objects: the roots and the accessible objects decide what
the program sees. -/
theorem Sound.renames_keeps (sound : s.Sound pf) (keeps : KeepsObjects s.heap s'.heap)
    {store : Store Nat RootName Nat Content}
    (objects : ∀ b, store.Accessible b → ObjectBlock s.heap b)
    (root : ∀ name, s'.store.root name = store.root name)
    (content : ∀ b, ObjectBlock s.heap b → contentOf s'.heap.mem b = store.content b)
    (slot : ∀ b, ObjectBlock s.heap b → ∀ o, b + o ∈ slotsOf s.heap.mem b →
      pointee (s'.heap.mem (b + o)) = store.slot b o)
    (noSlot : ∀ b, ObjectBlock s.heap b → ∀ o, b + o ∉ slotsOf s.heap.mem b →
      store.slot b o = none) : store.Renames id s'.store := by
  refine Store.Renames.of_eq root (fun b accessible => content b (objects b accessible)) ?_
  intro b accessible o
  have isObject := objects b accessible
  have slots := (keeps.shape b isObject).slotsOf_same (sound.object b isObject).object
  rw [store_slot, slots]
  by_cases isSlot : b + o ∈ slotsOf s.heap.mem b
  · rw [if_pos isSlot]
    exact slot b isObject o isSlot
  · rw [if_neg isSlot]
    exact (noSlot b isObject o isSlot).symm

namespace NoMeta

variable (noMeta : s.NoMeta pf x)

include noMeta

theorem root_word (sound : s.Sound pf) (w : Nat) :
    (s.setMem (s.heap.mem.write x value)).store.root (.word w) = s.store.root (.word w) := by
  rcases sound.valid with ⟨c, bigs, valid⟩
  have same := valid.wordTarget_keeps (noMeta.keepsObjects sound value).1 w
  rw [store_word, store_word]
  exact if_congr Iff.rfl same rfl

/-- A write outside of the objects leaves their contents as they are. -/
theorem content_of_foreign (sound : s.Sound pf) (foreign : Foreign pf s.heap x)
    (isObject : ObjectBlock s.heap b) :
    (s.setMem (s.heap.mem.write x value)).store.content b = s.store.content b := by
  apply (noMeta.keepsObjects sound value).1.content_eq isObject (sound.object b isObject).object
  intro o less _
  have := sound.foreign_outside isObject foreign
  exact write_of_ne (by omega)

theorem slot_of_foreign (sound : s.Sound pf) (foreign : Foreign pf s.heap x)
    (isObject : ObjectBlock s.heap b) (o : Nat) :
    (s.setMem (s.heap.mem.write x value)).store.slot b o = s.store.slot b o := by
  have shape := (noMeta.keepsObjects sound value).1.shape b isObject
  rw [store_slot, store_slot, shape.slotsOf_same (sound.object b isObject).object]
  split
  · rename_i slot
    refine congrArg pointee (write_of_ne ?_)
    rintro rfl
    exact sound.slot_not_foreign isObject slot foreign
  · rfl

/-- A write to a registered `gc_ptr`. -/
theorem renames_cell (sound : s.Sound pf) (isCell : x ∈ s.cells)
    (pointer : ∀ d, pointee value = some d → s.store.Accessible d) :
    (s.store.setRoot (.cell x) (pointee value)).Renames id
      (s.setMem (s.heap.mem.write x value)).store := by
  have foreign := (sound.cell x isCell).foreign
  have objects : ∀ b, (s.store.setRoot (.cell x) (pointee value)).Accessible b →
      ObjectBlock s.heap b := fun b accessible =>
    sound.object_of_accessible (Store.accessible_of_setRoot pointer accessible)
  apply Store.Renames.of_eq
  · intro name
    rw [Store.setRoot_root]
    cases name with
    | cell a =>
        rw [store_cell]
        change (if a ∈ s.cells then pointee (s.heap.mem.write x value a) else none) = _
        by_cases same : a = x
        · subst same
          rw [write_same, if_pos isCell, Function.update_self]
        · have other : RootName.cell a ≠ .cell x := fun eq => same (RootName.cell.inj eq)
          rw [write_of_ne same, Function.update_of_ne other, store_cell]
    | word w =>
        have other : RootName.word w ≠ .cell x := by simp
        rw [noMeta.root_word sound, Function.update_of_ne other]
  · exact fun b accessible => noMeta.content_of_foreign sound foreign (objects b accessible)
  · exact fun b accessible => noMeta.slot_of_foreign sound foreign (objects b accessible)

/-- A write that the program does not see. -/
theorem unseen_free (sound : s.Sound pf) (foreign : Foreign pf s.heap x)
    (notCell : x ∉ s.cells) : s.Unseen (s.setMem (s.heap.mem.write x value)) where
  root name := by
    cases name with
    | cell a =>
        rw [store_cell, store_cell]
        change (if a ∈ s.cells then pointee (s.heap.mem.write x value a) else none) = _
        split
        · rename_i isCell
          rw [write_of_ne]
          rintro rfl
          exact notCell isCell
        · rfl
    | word w => exact noMeta.root_word sound w
  content _ := noMeta.content_of_foreign sound foreign
  slot _ := noMeta.slot_of_foreign sound foreign

theorem root_of_heap (sound : s.Sound pf) (notForeign : ¬Foreign pf s.heap x) (name : RootName) :
    (s.setMem (s.heap.mem.write x value)).store.root name = s.store.root name := by
  cases name with
  | cell a =>
      rw [store_cell, store_cell]
      change (if a ∈ s.cells then pointee (s.heap.mem.write x value a) else none) = _
      split
      · rename_i isCell
        rw [write_of_ne]
        rintro rfl
        exact notForeign (sound.cell a isCell).foreign
      · rfl
  | word w => exact noMeta.root_word sound w

end NoMeta

namespace Sound

variable (sound : s.Sound pf)

include sound

/-- A word of an object belongs to no other object. -/
theorem word_unique (bObject : ObjectBlock s.heap b) (dObject : ObjectBlock s.heap d)
    (bLower : b ≤ x) (bUpper : x < b + 8 + blockSize (s.heap.mem b)) (dLower : d ≤ x)
    (dUpper : x < d + 8 + blockSize (s.heap.mem d)) : b = d := by
  by_contra different
  have := sound.disjoint bObject dObject different
  omega

/-- A write to a slot. -/
theorem renames_slot (isObject : ObjectBlock s.heap b) (slot : b + o ∈ slotsOf s.heap.mem b)
    (pointer : ∀ d, pointee value = some d → s.store.Accessible d) :
    (s.store.setSlot b o (pointee value)).Renames id
      (s.setMem (s.heap.mem.write (b + o) value)).store := by
  have noMeta := sound.noMeta_of_slot isObject slot
  have bounds := (sound.object b isObject).object.slot_bounds slot
  have elsewhere : ∀ d, ObjectBlock s.heap d → ∀ k, d + k ∈ slotsOf s.heap.mem d →
      d + k = b + o → d = b ∧ k = o := by
    intro d dObject k dSlot same
    have dBounds := (sound.object d dObject).object.slot_bounds dSlot
    have sameObject := sound.word_unique isObject dObject (x := b + o) (by omega) (by omega)
      (by omega) (by omega)
    omega
  apply sound.renames_keeps (noMeta.keepsObjects sound value).1
  · intro d accessible
    exact sound.object_of_accessible (Store.accessible_of_setSlot pointer accessible)
  · exact noMeta.root_of_heap sound (sound.slot_not_foreign isObject slot)
  · intro d dObject
    apply (noMeta.keepsObjects sound value).1.content_eq dObject (sound.object d dObject).object
    intro k less notSlot
    apply write_of_ne
    intro same
    have sameObject := sound.word_unique isObject dObject (x := b + o) (by omega) (by omega)
      (by omega) (by omega)
    subst sameObject
    rw [same] at notSlot
    exact notSlot slot
  · intro d dObject k dSlot
    rw [Store.setSlot_slot]
    change pointee (s.heap.mem.write (b + o) value (d + k)) = _
    by_cases same : d + k = b + o
    · rcases elsewhere d dObject k dSlot same with ⟨rfl, rfl⟩
      rw [write_same, Function.update_self, Function.update_self]
    · rw [write_of_ne same]
      have kept : s.store.slot d k = pointee (s.heap.mem (d + k)) := by
        rw [store_slot, if_pos dSlot]
      by_cases sameObject : d = b
      · subst sameObject
        have otherSlot : k ≠ o := fun eq => same (congrArg _ eq)
        rw [Function.update_self, Function.update_of_ne otherSlot, kept]
      · rw [Function.update_of_ne sameObject, kept]
  · intro d dObject k notSlot
    have none : s.store.slot d k = none := by
      rw [store_slot, if_neg notSlot]
    rw [Store.setSlot_slot]
    by_cases sameObject : d = b
    · subst sameObject
      have otherSlot : k ≠ o := by
        rintro rfl
        exact notSlot slot
      rw [Function.update_self, Function.update_of_ne otherSlot, none]
    · rw [Function.update_of_ne sameObject, none]

/-- A write to a place that an access path leads to. -/
theorem renames_assign (denotes : s.Denotes target this) {source : Option (AccessPath RootName Nat)}
    (value_eq : pointee value = s.store.value source) :
    ∃ store, s.store.Executes (Foundation.Action.assign target source) store ∧
      store.Renames id (s.setMem (s.heap.mem.write this value)).store := by
  have pointer : ∀ d, pointee value = some d → s.store.Accessible d := by
    rw [value_eq]
    exact Store.accessible_of_value
  cases denotes with
  | cell mem =>
      have renames := (sound.noMeta_of_cell mem).renames_cell sound mem pointer
      rw [value_eq] at renames
      exact ⟨_, .assignRoot, renames⟩
  | slot led slot =>
      have renames := sound.renames_slot (sound.object_of_follow led) slot pointer
      rw [value_eq] at renames
      rw [Foundation.Action.assign_snoc]
      exact ⟨_, .assignSlot led, renames⟩

end Sound

/-- The state that a thread which wrote a word leaves. -/
theorem resume_wrote (running : s.threads = before ++ thread :: after) (sees : s.Sees thread m)
    (wrote : m.Wrote this value m') :
    s.resume before thread after m' = s.setMem (s.heap.mem.write this value) := by
  have word : m'.word = s.heap.mem.write this value := by
    rw [wrote.word, sees.word, write_eq_update]
  have stack : m'.stack = thread.stack := wrote.stack.trans sees.stack
  unfold resume setMem
  rw [word, stack, ← running]

/-- The state that a thread which constructed a `gc_ptr` leaves. -/
theorem resume_registered (running : s.threads = before ++ thread :: after)
    (sees : s.Sees thread m) (constructed : m.Registered this value m') :
    ∃ threads, s.resume before thread after m' =
        (s.setMem (s.heap.mem.write this value)).withRoots threads s.fakeRoots ∧
      stackWords threads = stackWords s.threads ∧
        (registered threads).Perm (this :: registered s.threads) := by
  have word : m'.word = s.heap.mem.write this value := by
    rw [constructed.word, sees.word, write_eq_update]
  have stack : m'.stack = thread.stack.registerStackRoot this := by
    rw [constructed.stack, sees.stack]
  refine ⟨before ++ { thread with stack := m'.stack } :: after, ?_, ?_, ?_⟩
  · unfold resume withRoots
    rw [word]
    rfl
  · rw [running]
    exact stackWords_setStack before thread after _
  · rw [running, stack]
    exact registered_registerStackRoot before thread after this

namespace Sound

variable (sound : s.Sound pf)

include sound

theorem word_of_sees (denotes : s.Denotes path a) (sees : s.Sees thread m) :
    PlainWord s.heap (m.word a) := by
  rw [sees.word]
  exact denotes.word sound

/-- A `gc_ptr` with a plain pointer is constructed in memory that only the program uses. -/
theorem registered_next (running : s.threads = before ++ thread :: after)
    (free : s.FreeWord pf a) (nonnull : a ≠ 0) (sees : s.Sees thread m)
    (constructed : m.Registered a value m') (word : PlainWord s.heap value) :
    (s.resume before thread after m').Sound pf ∧
      ∃ s₁, s.Unseen s₁ ∧ (s.resume before thread after m').store =
        s₁.store.setRoot (.cell a) (pointee value) := by
  rcases resume_registered running sees constructed with ⟨threads, eq, words, perm⟩
  have noMeta := free.noMeta sound
  have keeps := noMeta.keepsObjects sound value
  have written : (s.setMem (s.heap.mem.write a value)).Sound pf := by
    apply noMeta.write sound
    rintro (isCell | ⟨b, isObject, slot⟩)
    · exact absurd isCell free.notCell
    · exact absurd free.foreign (sound.slot_not_foreign isObject slot)
  have free' : (s.setMem (s.heap.mem.write a value)).FreeWord pf a :=
    { foreign := (noMeta.foreign_iff sound value).mpr free.foreign
      notCell := free.notCell
      notNode := free.notNode
      notShell := fun b isObject inShell => free.notShell b (keeps.2 b isObject)
        ((keeps.1.inShell_iff (keeps.2 b isObject)).mp inShell) }
  have held : (s.setMem (s.heap.mem.write a value)).heap.mem a = value := write_same ..
  rw [eq]
  refine ⟨?_, s.setMem (s.heap.mem.write a value),
    noMeta.unseen_free sound free.foreign free.notCell, ?_⟩
  · apply written.register free' nonnull _ perm
    rw [held]
    exact keeps.1.plainWord word
  · have store := @store_register a (s.setMem (s.heap.mem.write a value)) threads words perm
    rw [held] at store
    exact store

theorem construct_next {isHeapPointer : Nat → Bool} {init : Mutator.Initializer}
    {source : Option (AccessPath RootName Nat)} (running : s.threads = before ++ thread :: after)
    (free : s.FreeWord pf a) (nonnull : a ≠ 0) (copies : s.Copies init source)
    (sees : s.Sees thread m) (eq : Mutator.State.construct isHeapPointer a init m = .ok m') :
    (s.resume before thread after m').Sound pf ∧
      s.Performs (some (.assignRoot (.cell a) source)) (s.resume before thread after m') := by
  have constructed : ∃ value, m.Registered a value m' ∧ PlainWord s.heap value ∧
      pointee value = s.store.value source := by
    cases copies with
    | byDefault =>
        have flagged := SamePointer.setStackFlag 0
        exact ⟨_, Mutator.State.defaultConstruct_registered sees.outside eq,
          flagged.plainWord (Or.inl isNull_zero), flagged.pointee_eq.trans pointee_zero⟩
    | @byCopy path p denotes =>
        have word := sound.word_of_sees denotes sees
        have flagged := (SamePointer.clearStackFlag (m.word p)).trans (SamePointer.setStackFlag _)
        refine ⟨_, Mutator.State.copyConstruct_registered sees.outside word.plain eq,
          flagged.plainWord word, ?_⟩
        rw [flagged.pointee_eq, sees.word]
        exact denotes.follow.symm
  rcases constructed with ⟨value, constructed, word, value_eq⟩
  rcases sound.registered_next running free nonnull sees constructed word with
    ⟨next, s₁, unseen, store⟩
  have renames : (s.store.setRoot (.cell a) (pointee value)).Renames id
      (s.resume before thread after m').store := by
    have pointer : ∀ d, pointee value = some d → s.store.Accessible d := by
      rw [value_eq]
      exact Store.accessible_of_value
    have renamed := (unseen.renames sound).setRoot (r := .cell a) pointer
    rw [Option.map_id] at renamed
    rw [store]
    exact renamed
  rw [value_eq] at renames
  exact ⟨next, _, .assignRoot, renames.alike⟩

/-- A registered `gc_ptr` is destroyed. -/
theorem destruct_next (running : s.threads = before ++ thread :: after)
    (mem : a ∈ thread.stack.addresses) (sees : s.Sees thread m) (eq : m.destruct a = .ok m') :
    (s.resume before thread after m').Sound pf ∧
      s.Performs (destruction a (s.resume before thread after m'))
        (s.resume before thread after m') := by
  have isRegistered : a ∈ registered s.threads := by
    rw [running, registered_split]
    exact List.mem_append_right _ (List.mem_append_left _ mem)
  have plain : isCompositePointer (m.word a) = false := by
    rw [sees.word]
    exact (sound.cell a (mem_cells_of_registered isRegistered)).word.plain
  cases flagged : isStackPointer (m.word a) with
  | true =>
      rcases Mutator.State.destruct_deleted plain flagged eq with ⟨word, deleted⟩
      rw [sees.stack] at deleted
      have perm := @registered_deleteStackRoot _ thread before after _ mem deleted
      rw [← running] at perm
      have words := stackWords_setStack before thread after m'.stack
      rw [← running] at words
      have resumed : s.resume before thread after m' =
          s.withRoots (before ++ { thread with stack := m'.stack } :: after) s.fakeRoots := by
        unfold resume setMem withRoots
        rw [word, sees.word]
      rw [resumed]
      exact ⟨sound.delete perm, performs_delete words perm⟩
  | false =>
      -- the address stays in the `StackMap`, and the program sees nothing
      obtain rfl := Mutator.State.destruct_unflagged plain flagged eq
      have stays : s.resume before thread after m' = s := by
        unfold resume setMem
        rw [sees.word, sees.stack, ← running]
      rw [stays, destruction, if_pos (mem_cells_of_registered isRegistered)]
      exact ⟨sound, Store.Alike.refl _⟩

theorem assign_next (running : s.threads = before ++ thread :: after)
    (place : s.Denotes target this) (denotes : s.Denotes source a) (sees : s.Sees thread m)
    (eq : m.assign this a = .ok m') : (s.resume before thread after m').Sound pf ∧
      s.Performs (some (Foundation.Action.assign target (some source)))
        (s.resume before thread after m') := by
  have word := sound.word_of_sees denotes sees
  have wrote := Mutator.State.assign_wrote (sound.word_of_sees place sees).plain word.plain eq
  have value := Mutator.State.samePointer_assignedWord (m.word this) (m.word a)
  rw [resume_wrote running sees wrote]
  refine ⟨(sound.noMeta_of_denotes place).write sound fun _ => value.plainWord word, ?_⟩
  have value_eq : pointee (Mutator.State.assignedWord (m.word this) (m.word a)) =
      s.store.value (some source) := by
    rw [value.pointee_eq, sees.word]
    exact denotes.follow.symm
  rcases sound.renames_assign place value_eq with ⟨store, executes, renames⟩
  exact ⟨store, executes, renames.alike⟩

theorem setNULL_next (running : s.threads = before ++ thread :: after)
    (place : s.Denotes target this) (sees : s.Sees thread m) (eq : m.setNULL this = .ok m') :
    (s.resume before thread after m').Sound pf ∧
      s.Performs (some (Foundation.Action.assign target none))
        (s.resume before thread after m') := by
  have wrote := Mutator.State.setNULL_wrote (sound.word_of_sees place sees).plain eq
  rw [resume_wrote running sees wrote]
  refine ⟨(sound.noMeta_of_denotes place).write sound fun _ => Or.inl isNull_zero, ?_⟩
  rcases @renames_assign pf _ 0 s target sound place none pointee_zero with
    ⟨store, executes, renames⟩
  exact ⟨store, executes, renames.alike⟩

/-- Other data of an object changes. -/
theorem modify_next (led : s.store.follow target = some b) (lower : sizeofBaseMeta ≤ o)
    (upper : o < blockSize (s.heap.mem b)) (notSlot : blockData b + o ∉ slotsOf s.heap.mem b) :
    (s.setMem (s.heap.mem.write (blockData b + o) value)).Sound pf ∧
      s.Performs (some (.modify target (contentOf (s.heap.mem.write (blockData b + o) value) b)))
        (s.setMem (s.heap.mem.write (blockData b + o) value)) := by
  have isObject := sound.object_of_follow led
  simp only [sizeofBaseMeta] at lower
  have inside : b + 32 ≤ blockData b + o ∧
      blockData b + o < b + 8 + blockSize (s.heap.mem b) := by
    simp only [blockData, sizeofBlock]
    omega
  generalize blockData b + o = x at notSlot inside ⊢
  have noMeta := sound.noMeta_of_data isObject inside.1 inside.2
  have notForeign : ¬Foreign pf s.heap x := by
    intro foreign
    have := sound.foreign_outside isObject foreign
    omega
  have apart : ∀ d, ObjectBlock s.heap d → ∀ y, d ≤ y → y < d + 8 + blockSize (s.heap.mem d) →
      d ≠ b → y ≠ x := by
    rintro d dObject y dLower dUpper other rfl
    exact other (sound.word_unique dObject isObject dLower dUpper (by omega) (by omega))
  have notPlace : ¬(x ∈ s.cells ∨ ∃ d, ObjectBlock s.heap d ∧ x ∈ slotsOf s.heap.mem d) := by
    rintro (isCell | ⟨d, dObject, slot⟩)
    · exact notForeign (sound.cell x isCell).foreign
    · have bounds := (sound.object d dObject).object.slot_bounds slot
      by_cases same : d = b
      · exact notSlot (same ▸ slot)
      · exact apart d dObject x (by omega) (by omega) same rfl
  refine ⟨noMeta.write sound fun place => absurd place notPlace, _, .modify led, ?_⟩
  have keeps := (noMeta.keepsObjects sound value).1
  have renames : (s.store.setContent b (contentOf (s.heap.mem.write x value) b)).Renames id
      (s.setMem (s.heap.mem.write x value)).store := by
    apply sound.renames_keeps keeps
    · intro d accessible
      exact sound.object_of_accessible (Store.accessible_of_setContent accessible)
    · exact noMeta.root_of_heap sound notForeign
    · intro d dObject
      rw [Store.setContent_content]
      by_cases same : d = b
      · subst same
        rw [Function.update_self]
        rfl
      · rw [Function.update_of_ne same]
        apply keeps.content_eq dObject (sound.object d dObject).object
        intro k less _
        exact write_of_ne (apart d dObject _ (by omega) (by omega) same)
    · intro d dObject k slot
      rw [Store.setContent_slot, store_slot, if_pos slot]
      refine congrArg pointee (write_of_ne ?_)
      intro same
      exact notPlace (Or.inr ⟨d, dObject, same ▸ slot⟩)
    · intro d _ k noSlot
      rw [Store.setContent_slot, store_slot, if_neg noSlot]
  exact renames.alike

theorem write_next (free : s.FreeWord pf x) :
    (s.setMem (s.heap.mem.write x value)).Sound pf ∧
      s.Performs none (s.setMem (s.heap.mem.write x value)) := by
  have noMeta := free.noMeta sound
  have unseen : s.Unseen (s.setMem (s.heap.mem.write x value)) :=
    noMeta.unseen_free sound free.foreign free.notCell
  refine ⟨noMeta.write sound ?_, (unseen.renames sound).alike⟩
  rintro (isCell | ⟨b, isObject, slot⟩)
  · exact absurd isCell free.notCell
  · exact absurd free.foreign (sound.slot_not_foreign isObject slot)

end Sound

end Process

end PreciseGc

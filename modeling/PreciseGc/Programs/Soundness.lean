import PreciseGc.Allocator.ForeignWords
import PreciseGc.Programs.Processes

/-!
# Sound processes

A process is sound if the invariants of its allocator and of its table hold,
every object is laid out as `gc_new` leaves it, and every registered `gc_ptr` and
every slot of an object is null or designates an object.  A process stays sound
if its objects keep their shapes and nothing but plain pointers is written to
`gc_ptr`s.
-/

namespace PreciseGc

open Foundation Memory

variable {pf : Platform} {t : DerefRoots} {h h' h'' : Heap} {c : Census} {bigs : List Nat}
  {a b d o x y w value : Nat} {s s' : Process} {threads : List Thread}
  {path : AccessPath RootName Nat}

/-- The range starts with an object and ends within its block. -/
def CoversObject (h : Heap) (root size : Nat) : Prop :=
  ∃ b, ObjectBlock h b ∧ root = objectOf b ∧ root + size < b + 8 + blockSize (h.mem b)

/-- What is an object stays one, with its size and shape. -/
structure KeepsObjects (h h' : Heap) : Prop where
  object : ∀ b, ObjectBlock h b → ObjectBlock h' b
  size : ∀ b, ObjectBlock h b → blockSize (h'.mem b) = blockSize (h.mem b)
  shape : ∀ b, ObjectBlock h b → SameShape h.mem b h'.mem b

theorem SameShape.refl (m : Memory) (b : Nat) : SameShape m b m b :=
  ⟨rfl, rfl, rfl, rfl, fun _ _ => rfl⟩

/-- An object that keeps its place and shape keeps its slots. -/
theorem SameShape.slotsOf_same {m m' : Memory} {apart : Nat → Prop} (same : SameShape m b m' b)
    (object : GcObject m apart b) : slotsOf m' b = slotsOf m b := by
  rw [same.slotsOf_eq]
  have kept : ∀ y ∈ slotsOf m b, y - b + b = id y := by
    intro y mem
    have := object.slot_bounds mem
    rw [id_eq]
    omega
  rw [List.map_congr_left kept, List.map_id]

namespace KeepsObjects

theorem refl (h : Heap) : KeepsObjects h h :=
  ⟨fun _ isObject => isObject, fun _ _ => rfl, fun b _ => SameShape.refl h.mem b⟩

theorem trans (first : KeepsObjects h h') (second : KeepsObjects h' h'') :
    KeepsObjects h h'' where
  object b isObject := second.object b (first.object b isObject)
  size b isObject := (second.size b (first.object b isObject)).trans (first.size b isObject)
  shape b isObject := (first.shape b isObject).trans (second.shape b (first.object b isObject))

theorem plainWord (keeps : KeepsObjects h h') (word : PlainWord h w) : PlainWord h' w :=
  word.imp id (Exists.imp fun b target => ⟨keeps.object b target.1, target.2⟩)

theorem coversObject (keeps : KeepsObjects h h') (root size : Nat)
    (covers : CoversObject h root size) :
    CoversObject h' root size := by
  rcases covers with ⟨b, isObject, start, within⟩
  refine ⟨b, keeps.object b isObject, start, ?_⟩
  rw [keeps.size b isObject]
  exact within

theorem inShell_iff (keeps : KeepsObjects h h') (isObject : ObjectBlock h b) :
    InShell h'.mem b x ↔ InShell h.mem b x := by
  have shape := keeps.shape b isObject
  simp only [InShell, shape.shell, shape.slots]

end KeepsObjects

/-- The same words are foreign as long as the headers of the blocks stay. -/
theorem RootsValid.foreign_congr (valid : RootsValid pf t h c bigs) {m : Memory}
    (valid' : RootsValid pf t { h with mem := m } c bigs)
    (header : ∀ b, InUse h b → m b = h.mem b) :
    Foreign pf { h with mem := m } x ↔ Foreign pf h x := by
  rw [valid'.foreign_iff, valid.foreign_iff]
  refine and_congr Iff.rfl (forall₂_congr fun big mem => ?_)
  have used : InUse h (bigHeader big) := valid.inUse_iff.mpr (Or.inr ⟨big, mem, rfl⟩)
  simp only [bigLength, header _ used]

namespace Process

/-- The block holds an object as `gc_new` lays it out, with plain pointers in its slots.  The block
goes on behind the last element. -/
structure PlainObject (pf : Platform) (s : Process) (b : Nat) : Prop where
  object : GcObject s.heap.mem (s.Apart pf) b
  spare : 24 + shellSize s.heap.mem (shellOf s.heap.mem b) * countOf s.heap.mem b <
    blockSize (s.heap.mem b)
  slot : ∀ x ∈ slotsOf s.heap.mem b, PlainWord s.heap (s.heap.mem x)
  slotsNodup : (slotsOf s.heap.mem b).Nodup

/-- The invariant of a process. -/
structure Sound (pf : Platform) (s : Process) : Prop where
  small : pf.bigBlockThreshold < freeBlocksLength
  valid : ∃ c bigs, RootsValid pf s.table s.heap c bigs
  covers : Registers (CoversObject s.heap) s.table
  object : ∀ b, ObjectBlock s.heap b → s.PlainObject pf b
  node : ∀ n ∈ s.fakeRoots.nodes, ∃ x, n.1 = blockData x ∧ Foreign pf s.heap x
  cell : ∀ a ∈ s.cells, PlainCell pf s.heap s.fakeRoots a
  once : (registered s.threads).Nodup

theorem stackRoots_handlers (s : Process) :
    (stackRoots s.handlers).flatten = registered s.threads := by
  simp only [stackRoots, handlers, registered, List.map_map, List.flatMap]
  rfl

theorem wordsOf_handlers (s : Process) : wordsOf s.handlers = stackWords s.threads := by
  simp only [wordsOf, handlers, stackWords, List.flatMap_map]
  rfl

theorem cellsOf_handlers (s : Process) : cellsOf s.handlers s.fakeRoots = s.cells := by
  rw [cellsOf, stackRoots_handlers]
  rfl

@[simp]
theorem store_content (s : Process) (b : Nat) : s.store.content b = contentOf s.heap.mem b := rfl

@[simp]
theorem store_slot (s : Process) (b o : Nat) : s.store.slot b o =
    if b + o ∈ slotsOf s.heap.mem b then pointee (s.heap.mem (b + o)) else none := rfl

@[simp]
theorem store_cell (s : Process) (a : Nat) : s.store.root (.cell a) =
    if a ∈ s.cells then pointee (s.heap.mem a) else none := by
  unfold store heapStore
  simp only [cellsOf_handlers]

@[simp]
theorem store_word (s : Process) (w : Nat) : s.store.root (.word w) =
    if w ∈ stackWords s.threads then wordTarget s.table s.heap w else none := by
  unfold store heapStore
  simp only [wordsOf_handlers]

theorem mem_cells_of_registered (mem : a ∈ registered s.threads) : a ∈ s.cells :=
  List.mem_append_left _ mem

namespace PlainObject

/-- An object that keeps its shape is plain if plain pointers are in its slots. -/
theorem next (plain : s.PlainObject pf b) (shape : SameShape s.heap.mem b s'.heap.mem b)
    (size : blockSize (s'.heap.mem b) = blockSize (s.heap.mem b))
    (apart : ∀ x, InShell s.heap.mem b x → s'.Apart pf x)
    (slot : ∀ x ∈ slotsOf s.heap.mem b, PlainWord s'.heap (s'.heap.mem x)) :
    s'.PlainObject pf b := by
  have slots := shape.slotsOf_same plain.object
  have inShell : GcObject s.heap.mem (InShell s.heap.mem b) b :=
    { plain.object with shellApart := fun x lower upper => ⟨lower, upper⟩ }
  refine ⟨shape.gcObject inShell size apart, ?_, ?_, ?_⟩
  · rw [shape.shell, shape.size, shape.count, size]
    exact plain.spare
  · rw [slots]
    exact slot
  · rw [slots]
    exact plain.slotsNodup

end PlainObject

namespace Sound

/-- A sound process is ready for a collection. -/
theorem plainProcess (sound : s.Sound pf) : PlainProcess pf s.handlers s.fakeRoots s.heap where
  small := sound.small
  object b isObject := by
    refine (sound.object b isObject).object.mono fun x apart => ?_
    rw [stackRoots_handlers]
    exact ⟨apart.foreign, fun mem => apart.notCell (mem_cells_of_registered mem), apart.notNode⟩
  slot b isObject := (sound.object b isObject).slot
  slotsNodup b isObject := (sound.object b isObject).slotsNodup
  node := sound.node
  stackRoot a mem := by
    rw [stackRoots_handlers] at mem
    exact sound.cell a (mem_cells_of_registered mem)
  stackRootsNodup := by
    rw [stackRoots_handlers]
    exact sound.once
  fakeRoot n mem := sound.cell n.2 (List.mem_append_right _ (List.mem_map_of_mem mem))

/-- What the program comes to is an object. -/
theorem object_of_accessible (sound : s.Sound pf) (accessible : s.store.Accessible b) :
    ObjectBlock s.heap b := by
  induction accessible with
  | @root name b led =>
      cases name with
      | cell a =>
          rw [store_cell] at led
          split at led
          · rename_i mem
            have word := (sound.cell a mem).word
            exact word.object (word.pointee_iff.mp led)
          · cases led
      | word w =>
          rw [store_word] at led
          split at led
          · rename_i mem
            rcases sound.valid with ⟨c, bigs, valid⟩
            rw [← wordsOf_handlers] at mem
            exact (valid.wordTarget_pins mem led).1
          · cases led
  | @slot b d o _ led isObject =>
      rw [store_slot] at led
      split at led
      · rename_i slot
        have word := (sound.object b isObject).slot _ slot
        exact word.object (word.pointee_iff.mp led)
      · cases led

theorem object_of_follow (sound : s.Sound pf) (led : s.store.follow path = some b) :
    ObjectBlock s.heap b :=
  sound.object_of_accessible (Store.accessible_of_follow led)

/-- The words of shells are foreign. -/
theorem apart_of_inShell (sound : s.Sound pf) (isObject : ObjectBlock s.heap b)
    (inShell : InShell s.heap.mem b x) : s.Apart pf x :=
  (sound.object b isObject).object.shellApart x inShell.1 inShell.2

/-- Foreign words are in no object. -/
theorem foreign_outside (sound : s.Sound pf) (isObject : ObjectBlock s.heap b)
    (foreign : Foreign pf s.heap x) : x < b ∨ b + 8 + blockSize (s.heap.mem b) ≤ x := by
  rcases sound.valid with ⟨c, bigs, valid⟩
  exact valid.used_offHeap (valid.inUse_iff.mp isObject.1) (valid.foreign_iff.mp foreign)

theorem slot_not_foreign (sound : s.Sound pf) (isObject : ObjectBlock s.heap b)
    (slot : x ∈ slotsOf s.heap.mem b) : ¬Foreign pf s.heap x := by
  intro foreign
  have := (sound.object b isObject).object.slot_bounds slot
  have := sound.foreign_outside isObject foreign
  omega

/-- The objects do not overlap. -/
theorem disjoint (sound : s.Sound pf) (bObject : ObjectBlock s.heap b)
    (dObject : ObjectBlock s.heap d) (different : b ≠ d) :
    b + 8 + blockSize (s.heap.mem b) ≤ d ∨ d + 8 + blockSize (s.heap.mem d) ≤ b := by
  rcases sound.valid with ⟨c, bigs, valid⟩
  exact valid.used_disjoint (valid.inUse_iff.mp bObject.1) (valid.inUse_iff.mp dObject.1) different

end Sound

theorem Denotes.follow (denotes : s.Denotes path a) :
    s.store.follow path = pointee (s.heap.mem a) := by
  cases denotes with
  | cell mem =>
      change s.store.root _ = _
      rw [store_cell, if_pos mem]
  | slot led mem =>
      rw [Store.follow_snoc, led, Option.bind_some, store_slot, if_pos mem]

theorem Denotes.word (denotes : s.Denotes path a) (sound : s.Sound pf) :
    PlainWord s.heap (s.heap.mem a) := by
  cases denotes with
  | cell mem => exact (sound.cell a mem).word
  | slot led mem => exact (sound.object _ (sound.object_of_follow led)).slot _ mem

/-- Words that do not describe an object. -/
structure NoMeta (pf : Platform) (s : Process) (x : Nat) : Prop where
  writable : Writable pf s.heap x
  notMeta : ∀ b, ObjectBlock s.heap b → x < b + 8 ∨ b + 32 ≤ x
  notShell : ∀ b, ObjectBlock s.heap b → ¬InShell s.heap.mem b x

namespace Sound

theorem noMeta_of_foreign (sound : s.Sound pf) (foreign : Foreign pf s.heap x)
    (notShell : ∀ b, ObjectBlock s.heap b → ¬InShell s.heap.mem b x) : s.NoMeta pf x := by
  refine ⟨Or.inr foreign, fun b isObject => ?_, notShell⟩
  have := (sound.object b isObject).object.room
  have := sound.foreign_outside isObject foreign
  omega

theorem noMeta_of_data (sound : s.Sound pf) (isObject : ObjectBlock s.heap b) (lower : b + 32 ≤ x)
    (upper : x < b + 8 + blockSize (s.heap.mem b)) : s.NoMeta pf x := by
  refine ⟨Or.inl ⟨b, isObject.1, ?_, ?_⟩, fun d dObject => ?_, fun d dObject inShell => ?_⟩
  · simp only [blockData, sizeofBlock]
    omega
  · simp only [blockData, sizeofBlock]
    omega
  · have := (sound.object d dObject).object.room
    by_cases same : d = b
    · omega
    · have := sound.disjoint isObject dObject (Ne.symm same)
      omega
  · have := sound.foreign_outside isObject (sound.apart_of_inShell dObject inShell).foreign
    omega

theorem noMeta_of_slot (sound : s.Sound pf) (isObject : ObjectBlock s.heap b)
    (slot : x ∈ slotsOf s.heap.mem b) : s.NoMeta pf x := by
  have := (sound.object b isObject).object.slot_bounds slot
  exact sound.noMeta_of_data isObject (by omega) (by omega)

theorem noMeta_of_cell (sound : s.Sound pf) (mem : a ∈ s.cells) : s.NoMeta pf a :=
  sound.noMeta_of_foreign (sound.cell a mem).foreign fun _ isObject inShell =>
    (sound.apart_of_inShell isObject inShell).notCell mem

theorem noMeta_of_denotes (sound : s.Sound pf) (denotes : s.Denotes path a) : s.NoMeta pf a := by
  cases denotes with
  | cell mem => exact sound.noMeta_of_cell mem
  | slot led mem => exact sound.noMeta_of_slot (sound.object_of_follow led) mem

end Sound

theorem FreeWord.noMeta (free : s.FreeWord pf x) (sound : s.Sound pf) : s.NoMeta pf x :=
  sound.noMeta_of_foreign free.foreign free.notShell

/-- A write to a word that describes no object. -/
theorem NoMeta.keepsObjects (noMeta : s.NoMeta pf x) (sound : s.Sound pf) (value : Nat) :
    KeepsObjects s.heap (s.setMem (s.heap.mem.write x value)).heap ∧
      ∀ b, ObjectBlock (s.setMem (s.heap.mem.write x value)).heap b → ObjectBlock s.heap b := by
  rcases sound.valid with ⟨c, bigs, valid⟩
  have valid' := valid.write noMeta.writable value
  have used : ∀ b, InUse { s.heap with mem := s.heap.mem.write x value } b ↔ InUse s.heap b := by
    intro b
    rw [valid'.inUse_iff, valid.inUse_iff]
  have header : ∀ b, InUse s.heap b → s.heap.mem.write x value b = s.heap.mem b := fun b used =>
    write_of_ne (Ne.symm (valid.header_not_writable noMeta.writable used))
  refine ⟨⟨fun b isObject => ⟨(used b).mpr isObject.1, ?_⟩, fun b isObject => ?_,
    fun b isObject => ?_⟩, fun b isObject => ⟨(used b).mp isObject.1, ?_⟩⟩
  · change blockIsDead (s.heap.mem.write x value b) = false
    rw [header b isObject.1]
    exact isObject.2
  · exact congrArg blockSize (header b isObject.1)
  · apply SameShape.of_agree
    · intro o less
      have := noMeta.notMeta b isObject
      exact write_of_ne (by omega)
    · intro y lower upper
      apply write_of_ne
      rintro rfl
      exact noMeta.notShell b isObject ⟨lower, upper⟩
  · have notDead : blockIsDead (s.heap.mem.write x value b) = false := isObject.2
    rwa [header b ((used b).mp isObject.1)] at notDead

theorem NoMeta.foreign_iff (noMeta : s.NoMeta pf x) (sound : s.Sound pf) (value : Nat) :
    Foreign pf (s.setMem (s.heap.mem.write x value)).heap y ↔ Foreign pf s.heap y := by
  rcases sound.valid with ⟨c, bigs, valid⟩
  apply valid.foreign_congr (valid.write noMeta.writable value)
  intro b used
  exact write_of_ne (Ne.symm (valid.header_not_writable noMeta.writable used))

/-- A process stays sound if plain pointers only are written to `gc_ptr`s. -/
theorem NoMeta.write (noMeta : s.NoMeta pf x) (sound : s.Sound pf)
    (pointer : x ∈ s.cells ∨ (∃ b, ObjectBlock s.heap b ∧ x ∈ slotsOf s.heap.mem b) →
      PlainWord s.heap value) : (s.setMem (s.heap.mem.write x value)).Sound pf := by
  rcases noMeta.keepsObjects sound value with ⟨keeps, only⟩
  have foreign : ∀ y, Foreign pf s.heap y →
      Foreign pf (s.setMem (s.heap.mem.write x value)).heap y := fun y =>
    (noMeta.foreign_iff sound value).mpr
  have word : ∀ y, (y ∈ s.cells ∨ ∃ b, ObjectBlock s.heap b ∧ y ∈ slotsOf s.heap.mem b) →
      PlainWord s.heap (s.heap.mem y) →
        PlainWord (s.setMem (s.heap.mem.write x value)).heap (s.heap.mem.write x value y) := by
    intro y place plain
    by_cases same : y = x
    · subst same
      rw [write_same]
      exact keeps.plainWord (pointer place)
    · rw [write_of_ne same]
      exact keeps.plainWord plain
  refine
    { small := sound.small, valid := ?_, covers := sound.covers.mono keeps.coversObject,
      object := fun b isObject => ?_, node := fun n mem => ?_, cell := fun a mem => ?_,
      once := sound.once }
  · rcases sound.valid with ⟨c, bigs, valid⟩
    exact ⟨c, bigs, valid.write noMeta.writable value⟩
  · have old := only b isObject
    refine (sound.object b old).next (keeps.shape b old) (keeps.size b old) (fun y inShell => ?_)
      fun y slot => word y (Or.inr ⟨b, old, slot⟩) ((sound.object b old).slot y slot)
    have apart := sound.apart_of_inShell old inShell
    exact ⟨foreign y apart.foreign, apart.notCell, apart.notNode⟩
  · rcases sound.node n mem with ⟨y, eq, isForeign⟩
    exact ⟨y, eq, foreign y isForeign⟩
  · have cell := sound.cell a mem
    exact ⟨cell.nonnull, foreign a cell.foreign, cell.notNode, word a (Or.inl mem) cell.word⟩

end Process

end PreciseGc

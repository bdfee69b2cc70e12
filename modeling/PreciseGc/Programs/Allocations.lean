import PreciseGc.Programs.Assignments

/-!
# Allocations of a program

A critical section of `gcmalloc` changes nothing that the program sees.  The
object that `gc_new` builds in the new block is seen once a `gc_ptr` to it is
registered: it has null in its slots, and no other `gc_ptr` leads to it.
-/

namespace PreciseGc

open Foundation Memory

variable {pf : Platform} {t : DerefRoots} {h h₁ : Heap} {c : Census} {bigs : List Nat}
  {a b d i j o p w x y bytes : Nat} {expand : Bool} {s : Process} {thread : Thread}
  {before after : List Thread} {m' : Mutator.State} {new : Creation}

/-- The block `b` is new, zeroed and of this size. -/
structure FreshBlock (h : Heap) (size b : Nat) (h' : Heap) : Prop where
  fresh : ¬InUse h b
  used : InUse h' b
  header : h'.mem b = size
  zeroed : ∀ x, b + 8 ≤ x → x < b + 8 + size → h'.mem x = 0

/-- What an allocation of `bytes` bytes that returns `p` does to the memory. -/
structure Allocates (pf : Platform) (h : Heap) (bytes p : Nat) (h' : Heap) : Prop where
  foreign : KeepsForeign pf h h'
  kept : ∀ b, InUse h b → InUse h' b ∧
    ∀ x, b ≤ x → x < b + 8 + blockSize (h.mem b) → h'.mem x = h.mem x
  only : ∀ d, InUse h' d → InUse h d ∨ p = blockData d
  new : ∀ b, p = blockData b → FreshBlock h (align bytes) b h'

theorem RootsValid.allocates (valid : RootsValid pf t h c bigs) (bounded : bytes < 2 ^ 63)
    (eq : gcmallocLocked pf bytes expand h = .ok (p, h₁)) :
    Allocates pf h bytes p h₁ ∧ ∃ c' bigs', RootsValid pf t h₁ c' bigs' := by
  refine ⟨?_, valid.gcmalloc bounded eq⟩
  rcases (gcmallocLocked_supplies valid.toAllocatorState bounded expand).of_ok eq with
    ⟨foreign, c', bigs', grown, answer⟩
  dsimp only at foreign grown answer
  refine ⟨foreign, fun b used => ?_, fun d used => ?_, fun b isData => ?_⟩
  · rcases grown.kept b (valid.inUse_iff.mp used) with ⟨used', same⟩
    exact ⟨grown.state.inUse_iff.mpr used', same⟩
  · rcases answer with ⟨_, noNew⟩ | ⟨b, isData, _, single⟩
    · exact Or.inl (valid.inUse_iff.mpr (noNew d (grown.state.inUse_iff.mp used)))
    · rcases single d (grown.state.inUse_iff.mp used) with old | rfl
      · exact Or.inl (valid.inUse_iff.mpr old)
      · exact Or.inr isData
  · rcases answer with ⟨null, _⟩ | ⟨d, isData', served, _⟩
    · rw [null] at isData
      simp only [blockData, sizeofBlock] at isData
      omega
    · have same : b = d := by
        simp only [blockData] at isData isData'
        omega
      subst same
      exact ⟨fun used => served.fresh (valid.inUse_iff.mp used),
        grown.state.inUse_iff.mpr served.used, served.header, served.zeroed⟩

theorem writeWords_append (first second : List (Nat × Nat)) (m : Memory) :
    writeWords (first ++ second) m = writeWords second (writeWords first m) :=
  List.foldl_append

theorem writeWords_of_not_mem {words : List (Nat × Nat)} (away : ∀ word ∈ words, word.1 ≠ x)
    (m : Memory) : writeWords words m x = m x := by
  induction words generalizing m with
  | nil => rfl
  | cons word words ih =>
      rcases List.forall_mem_cons.mp away with ⟨other, away⟩
      exact (ih away _).trans (write_of_ne (Ne.symm other))

/-- Writes into one block in use. -/
theorem RootsValid.writeWords (valid : RootsValid pf t h c bigs) (used : InUse h b)
    {words : List (Nat × Nat)}
    (inside : ∀ word ∈ words, b + 8 ≤ word.1 ∧ word.1 < b + 8 + blockSize (h.mem b)) :
    RootsValid pf t { h with mem := PreciseGc.writeWords words h.mem } c bigs := by
  induction words generalizing h with
  | nil => exact valid
  | cons word words ih =>
      rcases List.forall_mem_cons.mp inside with ⟨here, inside⟩
      have valid' := valid.write (x := word.1) (Or.inl ⟨b, used, here.1, here.2⟩) word.2
      have header : h.mem.write word.1 word.2 b = h.mem b := write_of_ne (by omega)
      apply ih valid'
      · exact valid'.inUse_iff.mpr (valid.inUse_iff.mp used)
      · dsimp only
        rw [header]
        exact inside

namespace Creation

/-- What is written lies in the block. -/
theorem writes_inside (fits : new.Fits pf s) (room : new.bytes < bytes) :
    ∀ word ∈ new.writes b, b + 8 ≤ word.1 ∧ word.1 < b + 8 + bytes := by
  intro word mem
  simp only [Creation.bytes, sizeofBaseMeta] at room
  rcases List.mem_append.mp mem with isField | isMeta
  · rcases List.mem_map.mp isField with ⟨field, fieldMem, rfl⟩
    have := (fits.fields field fieldMem).1
    rw [objectOf_eq]
    omega
  · simp only [List.mem_cons, List.not_mem_nil, or_false, blockData, sizeofBlock] at isMeta
    rcases isMeta with rfl | rfl <;> omega

theorem construct_shell (m : Memory) : shellOf (new.construct b m) b = new.shell := by
  unfold construct writes
  rw [writeWords_append]
  change ((writeWords _ m).write (blockData b + 8) new.shell).write (blockData b + 16) new.count
    (blockData b + 8) = _
  rw [write_of_ne (by omega), write_same]

theorem construct_count (m : Memory) : countOf (new.construct b m) b = new.count := by
  unfold construct writes
  rw [writeWords_append]
  exact write_same ..

/-- The constructors leave the `gc_ptr`s as they are. -/
theorem construct_slot (fits : new.Fits pf s) (less : i < new.count) (mem : o ∈ new.offsets)
    (m : Memory) :
    new.construct b m (objectOf b + i * new.size + o) = m (objectOf b + i * new.size + o) := by
  apply writeWords_of_not_mem
  intro word isWrite
  rcases List.mem_append.mp isWrite with isField | isMeta
  · rcases List.mem_map.mp isField with ⟨field, fieldMem, rfl⟩
    have := (fits.fields field fieldMem).2 i less o mem
    dsimp only
    omega
  · simp only [List.mem_cons, List.not_mem_nil, or_false, blockData, sizeofBlock] at isMeta
    rw [objectOf_eq]
    rcases isMeta with rfl | rfl <;> dsimp only <;> omega

/-- The metadata of the class is what `create_meta` has written. -/
theorem Fits.shell_eq (fits : new.Fits pf s) {m : Memory}
    (kept : ∀ x, s.Apart pf x → m x = s.heap.mem x) : shellSize m new.shell = new.size ∧
      shellCount m new.shell = new.offsets.length ∧
        ∀ j, (less : j < new.offsets.length) → shellOffset m new.shell j = new.offsets[j] := by
  have exactly : Mutator.createMeta new.size new.offsets =
      new.size :: new.offsets.length :: new.offsets := by
    apply (Mutator.createMeta_exact_iff _ _).mpr
    intro offset mem
    rw [List.drop_eq_nil_of_le (Nat.le_of_lt fits.few)] at mem
    cases mem
  have word : ∀ i < new.offsets.length + 2, m (new.shell + 8 * i) =
      (new.size :: new.offsets.length :: new.offsets).getD i 0 := by
    intro i less
    rw [kept _ (fits.apart _ (by omega) (by omega)), fits.shell i less, exactly]
  refine ⟨word 0 (by omega), word 1 (by omega), fun j less => ?_⟩
  unfold shellOffset
  rw [word (2 + j) (by omega), Nat.add_comm 2 j]
  simp [List.getD, less]

end Creation

/-- Slots of elements that follow one another are different. -/
theorem slotsOf_nodup {m : Memory} {offsets : List Nat}
    (count : shellCount m (shellOf m b) = offsets.length)
    (offset : ∀ j, (less : j < offsets.length) → shellOffset m (shellOf m b) j = offsets[j])
    (inside : ∀ o ∈ offsets, o + 8 ≤ shellSize m (shellOf m b)) (nodup : offsets.Nodup) :
    (slotsOf m b).Nodup := by
  have within : ∀ j < offsets.length,
      shellOffset m (shellOf m b) j < shellSize m (shellOf m b) := by
    intro j less
    have := inside _ (List.getElem_mem less)
    rw [offset j less]
    omega
  unfold slotsOf
  apply List.nodup_flatMap.mpr
  constructor
  · intro i _
    unfold elementSlots
    apply List.Nodup.map_on _ List.nodup_range
    intro j jMem k kMem same
    rw [count, List.mem_range] at jMem kMem
    simp only [slotAddr, offset j jMem, offset k kMem, Nat.add_left_cancel_iff] at same
    exact (List.Nodup.getElem_inj_iff nodup).mp same
  · apply List.Pairwise.imp _ (List.pairwise_lt_range)
    intro i k less x first second
    rcases List.mem_map.mp first with ⟨j, jMem, rfl⟩
    rcases List.mem_map.mp second with ⟨l, lMem, same⟩
    rw [count, List.mem_range] at jMem lMem
    have := within j jMem
    have next : (i + 1) * shellSize m (shellOf m b) ≤ k * shellSize m (shellOf m b) :=
      Nat.mul_le_mul_right _ less
    rw [Nat.succ_mul] at next
    simp only [slotAddr] at same
    omega

namespace Process

/-- The objects are untouched, together with their shells. -/
theorem Sound.keepsObjects_of_words (sound : s.Sound pf)
    (object : ∀ b, ObjectBlock s.heap b → ObjectBlock h b ∧
      ∀ x, b ≤ x → x < b + 8 + blockSize (s.heap.mem b) → h.mem x = s.heap.mem x)
    (foreign : ∀ x, Foreign pf s.heap x → h.mem x = s.heap.mem x) : KeepsObjects s.heap h where
  object b isObject := (object b isObject).1
  size b isObject := congrArg blockSize ((object b isObject).2 b (Nat.le_refl _) (by omega))
  shape b isObject := by
    have := (sound.object b isObject).object.room
    apply SameShape.of_agree
    · exact fun o less => (object b isObject).2 _ (by omega) (by omega)
    · exact fun x lower upper => foreign x (sound.apart_of_inShell isObject ⟨lower, upper⟩).foreign

/-- Nothing is seen of a change that leaves the objects and the foreign words as they are. -/
theorem Sound.unseen_of_words (sound : s.Sound pf)
    (object : ∀ b, ObjectBlock s.heap b → ObjectBlock h b ∧
      ∀ x, b ≤ x → x < b + 8 + blockSize (s.heap.mem b) → h.mem x = s.heap.mem x)
    (foreign : ∀ x, Foreign pf s.heap x → h.mem x = s.heap.mem x) :
    s.Unseen { s with heap := h } := by
  have keeps := sound.keepsObjects_of_words object foreign
  refine ⟨fun name => ?_, fun b isObject => ?_, fun b isObject o => ?_⟩
  · cases name with
    | cell a =>
        rw [store_cell, store_cell]
        change (if a ∈ s.cells then pointee (h.mem a) else none) = _
        split
        · rename_i isCell
          rw [foreign a (sound.cell a isCell).foreign]
        · rfl
    | word w =>
        rcases sound.valid with ⟨c, bigs, valid⟩
        rw [store_word, store_word]
        exact if_congr Iff.rfl (valid.wordTarget_keeps keeps w) rfl
  · apply keeps.content_eq isObject (sound.object b isObject).object
    exact fun o less _ => (object b isObject).2 _ (by omega) (by omega)
  · rw [store_slot, store_slot,
      (keeps.shape b isObject).slotsOf_same (sound.object b isObject).object]
    split
    · rename_i slot
      have bounds := (sound.object b isObject).object.slot_bounds slot
      exact congrArg pointee ((object b isObject).2 _ (by omega) (by omega))
    · rfl

/-- The process stays sound if objects and foreign words stay, and what is new is plain. -/
theorem Sound.of_words (sound : s.Sound pf) (valid : ∃ c bigs, RootsValid pf s.table h c bigs)
    (object : ∀ b, ObjectBlock s.heap b → ObjectBlock h b ∧
      ∀ x, b ≤ x → x < b + 8 + blockSize (s.heap.mem b) → h.mem x = s.heap.mem x)
    (foreign : ∀ x, Foreign pf s.heap x → Foreign pf h x ∧ h.mem x = s.heap.mem x)
    (only : ∀ b, ObjectBlock h b → ObjectBlock s.heap b ∨ { s with heap := h }.PlainObject pf b) :
    { s with heap := h }.Sound pf := by
  have keeps := sound.keepsObjects_of_words object fun x isForeign => (foreign x isForeign).2
  refine
    { small := sound.small, valid := valid, covers := sound.covers.mono keeps.coversObject,
      object := fun b isObject => ?_, node := fun n mem => ?_, cell := fun a mem => ?_,
      once := sound.once }
  · rcases only b isObject with old | new
    · have plain := sound.object b old
      refine plain.next (keeps.shape b old) (keeps.size b old) (fun x inShell => ?_)
        fun x slot => ?_
      · have apart := sound.apart_of_inShell old inShell
        exact ⟨(foreign x apart.foreign).1, apart.notCell, apart.notNode⟩
      · have bounds := plain.object.slot_bounds slot
        have same : h.mem x = s.heap.mem x := (object b old).2 x (by omega) (by omega)
        change PlainWord h (h.mem x)
        rw [same]
        exact keeps.plainWord (plain.slot x slot)
    · exact new
  · rcases sound.node n mem with ⟨x, eq, isForeign⟩
    exact ⟨x, eq, (foreign x isForeign).1⟩
  · have cell := sound.cell a mem
    have same : h.mem a = s.heap.mem a := (foreign a cell.foreign).2
    refine ⟨cell.nonnull, (foreign a cell.foreign).1, cell.notNode, ?_⟩
    change PlainWord h (h.mem a)
    rw [same]
    exact keeps.plainWord cell.word

/-- An object keeps its words in an allocation. -/
theorem object_kept (allocates : Allocates pf s.heap bytes p h) (isObject : ObjectBlock s.heap b) :
    ObjectBlock h b ∧
      ∀ x, b ≤ x → x < b + 8 + blockSize (s.heap.mem b) → h.mem x = s.heap.mem x := by
  rcases allocates.kept b isObject.1 with ⟨used, same⟩
  refine ⟨⟨used, ?_⟩, same⟩
  rw [same b (Nat.le_refl _) (by omega)]
  exact isObject.2

/-- An allocation that is refused. -/
theorem Sound.refused_next (sound : s.Sound pf) (bounded : bytes < 2 ^ 63)
    (eq : gcmallocLocked pf bytes expand s.heap = .ok (0, h)) :
    { s with heap := h }.Sound pf ∧ s.Performs none { s with heap := h } := by
  rcases sound.valid with ⟨c, bigs, valid⟩
  rcases valid.allocates bounded eq with ⟨allocates, valid'⟩
  have unseen := sound.unseen_of_words (fun _ => object_kept allocates)
    fun x foreign => (allocates.foreign x foreign).2
  refine ⟨?_, (unseen.renames sound).alike⟩
  apply sound.of_words valid' (fun _ => object_kept allocates) allocates.foreign
  intro b isObject
  left
  rcases allocates.only b isObject.1 with old | isData
  · refine ⟨old, ?_⟩
    have same := (allocates.kept b old).2 b (Nat.le_refl _) (by omega)
    exact same ▸ isObject.2
  · simp only [blockData, sizeofBlock] at isData
    omega

/-- The process in which the constructors of `gc_new` have run. -/
structure Built (pf : Platform) (s : Process) (new : Creation) (b : Nat) (h : Heap) : Prop where
  valid : ∃ c bigs, RootsValid pf s.table { h with mem := new.construct b h.mem } c bigs
  object : ∀ d, ObjectBlock s.heap d →
    ObjectBlock { h with mem := new.construct b h.mem } d ∧
      ∀ x, d ≤ x → x < d + 8 + blockSize (s.heap.mem d) →
        new.construct b h.mem x = s.heap.mem x
  foreign : ∀ x, Foreign pf s.heap x →
    Foreign pf { h with mem := new.construct b h.mem } x ∧
      new.construct b h.mem x = s.heap.mem x
  only : ∀ d, ObjectBlock { h with mem := new.construct b h.mem } d →
    ObjectBlock s.heap d ∨ d = b
  fresh : ¬InUse s.heap b
  isObject : ObjectBlock { h with mem := new.construct b h.mem } b
  size : blockSize (new.construct b h.mem b) = align new.bytes
  slots : ∀ i < new.count, ∀ o ∈ new.offsets,
    new.construct b h.mem (objectOf b + i * new.size + o) = 0

theorem Sound.built (sound : s.Sound pf) (fits : new.Fits pf s) (bounded : new.bytes < 2 ^ 63)
    (eq : gcmallocLocked pf new.bytes expand s.heap = .ok (blockData b, h)) :
    Built pf s new b h := by
  rcases sound.valid with ⟨c, bigs, valid⟩
  rcases valid.allocates bounded eq with ⟨allocates, c', bigs', valid₁⟩
  rcases align_spec bounded with ⟨aligned, room, _⟩
  have block := allocates.new b rfl
  have size : blockSize (h.mem b) = align new.bytes := by
    rw [block.header, blockSize_of_aligned aligned]
  have inside := Creation.writes_inside (b := b) fits room
  have outside : ∀ x, x < b + 8 ∨ b + 8 + align new.bytes ≤ x →
      new.construct b h.mem x = h.mem x := by
    intro x out
    apply writeWords_of_not_mem
    intro word mem
    have := inside word mem
    omega
  have valid₂ : RootsValid pf s.table { h with mem := new.construct b h.mem } c' bigs' := by
    apply valid₁.writeWords block.used
    rw [size]
    exact inside
  have apart : ∀ d, InUse h d → d ≠ b → ∀ x, d ≤ x → x < d + 8 + blockSize (h.mem d) →
      new.construct b h.mem x = h.mem x := by
    intro d used different x lower upper
    have := valid₁.used_disjoint (valid₁.inUse_iff.mp used) (valid₁.inUse_iff.mp block.used)
      different
    apply outside
    omega
  have header : ∀ d, InUse h d → new.construct b h.mem d = h.mem d := by
    intro d used
    by_cases same : d = b
    · exact outside d (by omega)
    · exact apart d used same d (Nat.le_refl _) (by omega)
  have inUse : ∀ d, InUse { h with mem := new.construct b h.mem } d ↔ InUse h d := by
    intro d
    rw [valid₂.inUse_iff, valid₁.inUse_iff]
  refine
    { valid := ⟨c', bigs', valid₂⟩, object := fun d isObject => ?_,
      foreign := fun x isForeign => ?_, only := fun d isObject => ?_, fresh := block.fresh,
      isObject := ?_, size := ?_, slots := fun i less o mem => ?_ }
  · rcases object_kept allocates isObject with ⟨isObject', same⟩
    have different : d ≠ b := by
      rintro rfl
      exact block.fresh isObject.1
    have headerEq := same d (Nat.le_refl _) (by omega)
    refine ⟨⟨(inUse d).mpr isObject'.1, ?_⟩, fun x lower upper => ?_⟩
    · dsimp only
      rw [header d isObject'.1]
      exact isObject'.2
    · rw [apart d isObject'.1 different x lower (by rwa [headerEq]), same x lower upper]
  · rcases allocates.foreign x isForeign with ⟨isForeign', same⟩
    refine ⟨(valid₁.foreign_congr valid₂ header).mpr isForeign', ?_⟩
    have out := valid₁.used_offHeap (valid₁.inUse_iff.mp block.used)
      (valid₁.foreign_iff.mp isForeign')
    rw [size] at out
    rw [outside x (by omega), same]
  · rcases allocates.only d ((inUse d).mp isObject.1) with old | isData
    · left
      have notDead : blockIsDead (new.construct b h.mem d) = false := isObject.2
      rw [header d ((inUse d).mp isObject.1), (allocates.kept d old).2 d (Nat.le_refl _) (by omega)]
        at notDead
      exact ⟨old, notDead⟩
    · right
      simp only [blockData] at isData
      omega
  · refine ⟨(inUse b).mpr block.used, ?_⟩
    dsimp only
    rw [header b block.used, block.header]
    exact (flags_of_aligned aligned).2.2
  · rw [header b block.used, size]
  · rw [Creation.construct_slot fits less mem]
    have within := fits.inside o mem
    have element : i * new.size + new.size ≤ new.size * new.count := by
      calc i * new.size + new.size = new.size * (i + 1) := by rw [Nat.mul_succ, Nat.mul_comm]
        _ ≤ new.size * new.count := Nat.mul_le_mul_left _ less
    simp only [Creation.bytes, sizeofBaseMeta] at room
    apply block.zeroed
    · rw [objectOf_eq]
      omega
    · rw [objectOf_eq]
      simp only [Creation.bytes, sizeofBaseMeta]
      omega

namespace Built

variable (built : Built pf s new b h)

include built

/-- All slots of the new object are null. -/
theorem slot_eq_zero (fits : new.Fits pf s) (slot : x ∈ slotsOf (new.construct b h.mem) b) :
    new.construct b h.mem x = 0 := by
  rcases fits.shell_eq fun x apart => (built.foreign x apart.foreign).2 with
    ⟨sizeEq, countEq, offsetEq⟩
  rcases mem_slotsOf.mp slot with ⟨i, iLess, j, jLess, rfl⟩
  rw [Creation.construct_count] at iLess
  rw [Creation.construct_shell, countEq] at jLess
  rw [slotAddr, Creation.construct_shell, sizeEq, offsetEq j jLess]
  exact built.slots i iLess _ (List.getElem_mem jLess)

/-- The new object is laid out as `gc_new` leaves it. -/
theorem plainObject (fits : new.Fits pf s) (bounded : new.bytes < 2 ^ 63) :
    { s with heap := { h with mem := new.construct b h.mem } }.PlainObject pf b := by
  rcases fits.shell_eq fun x apart => (built.foreign x apart.foreign).2 with
    ⟨sizeEq, countEq, offsetEq⟩
  rcases align_spec bounded with ⟨_, room, _⟩
  have shell : shellOf (new.construct b h.mem) b = new.shell := Creation.construct_shell _
  have count : countOf (new.construct b h.mem) b = new.count := Creation.construct_count _
  have spare : 24 + shellSize (new.construct b h.mem) (shellOf (new.construct b h.mem) b) *
      countOf (new.construct b h.mem) b < blockSize (new.construct b h.mem b) := by
    rw [shell, count, sizeEq, built.size]
    simp only [Creation.bytes, sizeofBaseMeta] at room ⊢
    omega
  refine ⟨⟨Nat.le_of_lt spare, ?_, ?_⟩, spare, ?_, ?_⟩
  · dsimp only
    rw [shell, sizeEq, countEq]
    intro j less
    rw [offsetEq j less]
    exact fits.inside _ (List.getElem_mem less)
  · dsimp only
    rw [shell, countEq]
    intro x lower upper
    have apart := fits.apart x lower upper
    exact ⟨(built.foreign x apart.foreign).1, apart.notCell, apart.notNode⟩
  · intro x slot
    left
    dsimp only at slot ⊢
    rw [built.slot_eq_zero fits slot]
    exact isNull_zero
  · refine slotsOf_nodup ?_ ?_ ?_ fits.nodup
    · dsimp only
      rw [shell, countEq]
    · dsimp only
      rw [shell]
      exact offsetEq
    · dsimp only
      rw [shell, sizeEq]
      exact fits.inside

theorem sound (before : s.Sound pf) (fits : new.Fits pf s) (bounded : new.bytes < 2 ^ 63) :
    { s with heap := { h with mem := new.construct b h.mem } }.Sound pf := by
  apply before.of_words built.valid built.object built.foreign
  intro d isObject
  rcases built.only d isObject with old | rfl
  · exact Or.inl old
  · exact Or.inr (built.plainObject fits bounded)

/-- Memory that only the program uses stays its own. -/
theorem freeWord (before : s.Sound pf) (free : s.FreeWord pf a)
    (away : ¬InShell (new.construct b h.mem) b a) :
    { s with heap := { h with mem := new.construct b h.mem } }.FreeWord pf a := by
  have keeps := before.keepsObjects_of_words built.object fun x foreign =>
    (built.foreign x foreign).2
  refine ⟨⟨(built.foreign a free.foreign).1, free.notCell, free.notNode⟩, ?_⟩
  intro d isObject inShell
  rcases built.only d isObject with old | rfl
  · exact free.notShell d old ((keeps.inShell_iff old).mp inShell)
  · exact away inShell

/-- The program sees the objects it had, and the new one with null in its slots. -/
theorem renames (before : s.Sound pf) (fits : new.Fits pf s)
    (unseen : { s with heap := { h with mem := new.construct b h.mem } }.Unseen s₁) :
    (s.store.create (.cell a) b (contentOf (new.construct b h.mem) b)).Renames id
      (s₁.store.setRoot (.cell a) (some b)) := by
  have unseen' := before.unseen_of_words built.object fun x foreign =>
    (built.foreign x foreign).2
  have old : ∀ d, d ≠ b → (s.store.create (.cell a) b
      (contentOf (new.construct b h.mem) b)).Accessible d → ObjectBlock s.heap d := by
    intro d different accessible
    apply before.object_of_accessible
    exact (Store.accessible_of_create accessible).resolve_left different
  have kept : ∀ d, ObjectBlock s.heap d →
      ObjectBlock { h with mem := new.construct b h.mem } d := fun d isObject =>
    (built.object d isObject).1
  apply Store.Renames.of_eq
  · intro name
    rw [Store.setRoot_root, Store.create_root]
    by_cases same : name = .cell a
    · rw [same, Function.update_self, Function.update_self]
    · rw [Function.update_of_ne same, Function.update_of_ne same, unseen.root, unseen'.root]
  · intro d accessible
    rw [Store.setRoot_content, Store.create_content]
    by_cases same : d = b
    · rw [same, Function.update_self, unseen.content b built.isObject]
      rfl
    · have isObject := old d same accessible
      rw [Function.update_of_ne same, unseen.content d (kept d isObject),
        unseen'.content d isObject]
  · intro d accessible o
    rw [Store.setRoot_slot, Store.create_slot]
    by_cases same : d = b
    · rw [same, Function.update_self, unseen.slot b built.isObject, store_slot]
      split
      · rename_i slot
        exact (congrArg pointee (built.slot_eq_zero fits slot)).trans pointee_zero
      · rfl
    · have isObject := old d same accessible
      rw [Function.update_of_ne same, unseen.slot d (kept d isObject), unseen'.slot d isObject]

end Built

/-- A new object with a `gc_ptr` to it. -/
theorem Sound.create_next {isHeapPointer : Nat → Bool} (sound : s.Sound pf)
    (running : s.threads = before ++ thread :: after) (fits : new.Fits pf s)
    (bounded : new.bytes < 2 ^ 63)
    (eq : gcmallocLocked pf new.bytes expand s.heap = .ok (blockData b, h))
    (free : s.FreeWord pf a) (nonnull : a ≠ 0)
    (away : a < new.shell ∨ new.shell + 8 * (2 + new.offsets.length) ≤ a)
    (sees : Sees ({ s with heap := h }.setMem (new.construct b h.mem)) thread m)
    (constructed : m.pointerConstruct isHeapPointer a (objectOf b) = .ok m') :
    ({ s with heap := h }.resume before thread after m').Sound pf ∧
      s.Performs (some (.create (.cell a) (contentOf (new.construct b h.mem) b)))
        ({ s with heap := h }.resume before thread after m') := by
  have built := sound.built fits bounded eq
  have shell := fits.shell_eq fun x apart => (built.foreign x apart.foreign).2
  have free' : { s with heap := { h with mem := new.construct b h.mem } }.FreeWord pf a := by
    apply built.freeWord sound free
    rw [InShell, Creation.construct_shell, shell.2.1]
    omega
  have sound' := built.sound sound fits bounded
  have aligned : b % 8 = 0 := by
    rcases sound'.valid with ⟨c, bigs, valid⟩
    exact valid.aligned_used valid.large (valid.inUse_iff.mp built.isObject.1)
  have same := SamePointer.setStackFlag (objectOf b)
  have target : Designates (objectOf b) b := @designates_word b 0 aligned (by decide)
  rcases sound'.registered_next running free' nonnull sees
    (Mutator.State.pointerConstruct_registered sees.outside constructed)
    (same.plainWord (Or.inr ⟨b, built.isObject, target⟩)) with ⟨sound'', s₁, unseen₁, store⟩
  have fresh : ¬s.store.Accessible b := fun accessible =>
    built.fresh (sound.object_of_accessible accessible).1
  rw [same.pointee_eq, pointee_of_designates target] at store
  refine ⟨sound'', _, .create fresh, ?_⟩
  have alike := (built.renames (a := a) sound fits unseen₁).alike
  rw [← store] at alike
  exact alike

end Process

end PreciseGc

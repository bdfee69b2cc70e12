import PreciseGc.TypeBoxes.Boxes

/-!
# Descriptors that are not read back

`generic_box_struct` stores the number of descriptors in eight bytes and the
descriptors behind it, at an index that is an `unsigned char`.  `get_iterator`
and `next_ptr` still expect a number of one byte: they read each descriptor
seven bytes before the place where it is, and `next_ptr` finds the descriptor it
has just read, so that it stays there.
-/

namespace PreciseGc.TypeBoxes

open Foundation ByteMemory

variable {m box : ByteMemory} {mmap : Nat → Option Nat} {object i j k x size numEl length : Nat}
  {descr : PointerDescr} {offsets : List Nat} {resPtr : Nat → Nat} {local₀ iterator : PtrIterator}

theorem descrAddress_ge (object i : Nat) : object + 40 ≤ descrAddress object i := by
  simp only [descrAddress, sizeofBlockTag, sizeofSizeT]
  omega

/-- Descriptors are stored in the same place, or they do not overlap. -/
theorem descrAddress_apart (different : descrAddress object i ≠ descrAddress object j) :
    descrAddress object i + 16 ≤ descrAddress object j ∨
      descrAddress object j + 16 ≤ descrAddress object i := by
  simp only [descrAddress, sizeofPointerDescr] at different ⊢
  omega

theorem setPtrDescr_frame
    (outside : x < descrAddress object i ∨ descrAddress object i + 16 ≤ x) :
    setPtrDescr object i descr m x = m x := by
  rw [setPtrDescr, store_of_outside (by omega), store_of_outside (by omega)]

theorem setPtrDescr_offset :
    (setPtrDescr object i descr m).read (descrAddress object i) 8 = descr.offset % wordSpace := by
  rw [setPtrDescr, read_store_of_apart (by omega), read_store]
  rfl

theorem setPtrDescrs_frame
    (outside : ∀ j < offsets.length,
      x < descrAddress object (i + j) ∨ descrAddress object (i + j) + 16 ≤ x) :
    setPtrDescrs object i offsets m x = m x := by
  induction offsets generalizing i m with
  | nil => rfl
  | cons offset offsets ih =>
      have rest : setPtrDescrs object (i + 1) offsets (setPtrDescr object i ⟨offset, 0⟩ m) x =
          setPtrDescr object i ⟨offset, 0⟩ m x := by
        apply ih
        intro j inside
        have later := outside (j + 1) (by simpa using inside)
        have index : i + 1 + j = i + (j + 1) := by omega
        rwa [index]
      rw [setPtrDescrs, rest]
      exact setPtrDescr_frame (outside 0 (by simp))

/-- Descriptor `i` of a box with `length` descriptors is overwritten by a later one. -/
def Overwritten (object length i : Nat) : Prop :=
  ∃ j, i < j ∧ j < length ∧ descrAddress object i < descrAddress object j + sizeofPointerDescr ∧
    descrAddress object j < descrAddress object i + sizeofPointerDescr

/-- An offset stays where it has been stored, unless its descriptor is overwritten. -/
theorem setPtrDescrs_offset (inside : k < offsets.length)
    (kept : ∀ j, k < j → j < offsets.length →
      descrAddress object (i + k) ≠ descrAddress object (i + j)) :
    (setPtrDescrs object i offsets m).read (descrAddress object (i + k)) 8 =
      offsets[k] % wordSpace := by
  induction offsets generalizing i k m with
  | nil => cases inside
  | cons offset offsets ih =>
      rw [setPtrDescrs]
      cases k with
      | zero =>
          rw [Nat.add_zero] at kept ⊢
          have untouched : (setPtrDescrs object (i + 1) offsets
              (setPtrDescr object i ⟨offset, 0⟩ m)).read (descrAddress object i) 8 =
                (setPtrDescr object i ⟨offset, 0⟩ m).read (descrAddress object i) 8 := by
            apply read_congr
            intro x lower upper
            apply setPtrDescrs_frame
            intro j inRest
            have index : i + 1 + j = i + (j + 1) := by omega
            rw [index]
            have apart := descrAddress_apart (kept (j + 1) (by omega) (by simpa using inRest))
            omega
          exact untouched.trans setPtrDescr_offset
      | succ k =>
          have index : ∀ j, i + (j + 1) = i + 1 + j := fun j => by omega
          rw [List.getElem_cons_succ, index k]
          apply ih
          intro j later inRest
          have different := kept (j + 1) (by omega) (by simpa using inRest)
          rwa [index k, index j] at different

/-- The index wraps behind descriptor 255. -/
theorem not_overwritten_iff :
    (∀ i < length, ¬Overwritten object length i) ↔ length ≤ 256 := by
  constructor
  · intro intact
    by_contra more
    refine intact 0 (by omega) ⟨256, by omega, by omega, ?_⟩
    simp [descrAddress, sizeofPointerDescr]
  · rintro small i inside ⟨j, later, below, upper, lower⟩
    have first : i % 256 = i := Nat.mod_eq_of_lt (by omega)
    have second : j % 256 = j := Nat.mod_eq_of_lt (by omega)
    simp only [descrAddress, sizeofPointerDescr, first, second] at upper lower
    omega

/-- The memory behind `create_generic_object`, for a box with descriptors. -/
def blankBox (object size numEl length : Nat) (m : ByteMemory) : ByteMemory :=
  (setTag object ⟨tagModel1, size, numEl, 0⟩ m).store (object + sizeofBlockTag) sizeofSizeT length

theorem genericBoxStruct_eq (nonempty : offsets ≠ [])
    (built : genericBoxStruct mmap offsets size numEl m = .ok (object, box)) :
    box = setPtrDescrs object 0 offsets (blankBox object size numEl offsets.length m) := by
  have some : offsets.length ≠ 0 := by simpa using nonempty
  rcases bind_eq_ok built with ⟨created, eq, returned⟩
  rw [createGenericObject, if_neg some] at eq
  rcases bind_eq_ok eq with ⟨result, -, stored⟩
  cases stored
  cases returned
  rfl

/-- The loop over the offsets leaves the tag and the number of descriptors alone. -/
theorem setPtrDescrs_read {address count : Nat} (below : address + count ≤ object + 40) :
    (setPtrDescrs object i offsets m).read address count = m.read address count := by
  apply read_congr
  intro x lower upper
  apply setPtrDescrs_frame
  intro j _
  have := descrAddress_ge object (i + j)
  omega

theorem blankBox_model : tagModel (blankBox object size numEl length m) object = tagModel1 := by
  simp only [tagModel, blankBox, setTag, sizeofBlockTag, sizeofSizeT]
  rw [read_store_of_apart (by omega), read_store_of_apart (by omega),
    read_store_of_apart (by omega), read_store_of_apart (by omega), read_store]
  rfl

theorem genericBoxStruct_model (nonempty : offsets ≠ [])
    (built : genericBoxStruct mmap offsets size numEl m = .ok (object, box)) :
    tagModel box object = tagModel1 := by
  rw [genericBoxStruct_eq nonempty built, tagModel, setPtrDescrs_read (by omega)]
  exact blankBox_model

/-- Each offset is stored by `set_ptr_descr`, and is still there unless it is overwritten. -/
theorem genericBoxStruct_stored (nonempty : offsets ≠ [])
    (built : genericBoxStruct mmap offsets size numEl m = .ok (object, box))
    (inside : i < offsets.length) (intact : ¬Overwritten object offsets.length i) :
    box.read (descrAddress object i) 8 = offsets[i] % wordSpace := by
  rw [genericBoxStruct_eq nonempty built]
  have stored := @setPtrDescrs_offset (blankBox object size numEl offsets.length m) object 0 i
    offsets inside
  rw [Nat.zero_add] at stored
  apply stored
  intro j later below same
  rw [Nat.zero_add] at same
  exact intact ⟨j, later, below, by rw [same, sizeofPointerDescr]; omega, by
    rw [same, sizeofPointerDescr]; omega⟩

/-- No descriptor is read from where one is stored. -/
theorem readAddress_ne (object i j : Nat) : readAddress object i ≠ descrAddress object j := by
  simp only [readAddress, descrAddress, sizeofBlockTag, sizeofSizeT, sizeofPointerDescr]
  omega

/-- What `get_iterator` makes of a box with descriptors. -/
def boxIterator (m : ByteMemory) (object : Nat) : PtrIterator :=
  ⟨object, m.read (readAddress object 0) 8⟩

theorem getIterator_eq (nonnull : object ≠ 0) (isBox : tagModel m object = tagModel1) :
    getIterator local₀ m object = .ok (boxIterator m object) := by
  simp [getIterator, nonnull, isBox, boxIterator]

/-- The first offset that is read is made of seven bytes of the number of descriptors and one byte
of the first offset. -/
theorem genericBoxStruct_first (nonempty : offsets ≠ [])
    (built : genericBoxStruct mmap offsets size numEl m = .ok (object, box)) :
    box.read (readAddress object 0) 8 = offsets.length % wordSpace / 256 +
      2 ^ 56 * (box.read (descrAddress object 0) 8 % 256) := by
  have number : box.read (object + 32) 8 = offsets.length % wordSpace := by
    rw [genericBoxStruct_eq nonempty built, setPtrDescrs_read (by omega)]
    exact read_store
  have behindFirst : box.read (object + 32) 8 =
      box.read (object + 32) 1 + 256 * box.read (object + 33) 7 := read_add box (object + 32) 1 7
  have offset : box.read (object + 40) 8 =
      box.read (object + 40) 1 + 256 * box.read (object + 41) 7 := read_add box (object + 40) 1 7
  have straddles : box.read (object + 33) 8 =
      box.read (object + 33) 7 + 2 ^ 56 * box.read (object + 40) 1 := read_add box (object + 33) 7 1
  have low := read_lt box (object + 32) 1
  have low' := read_lt box (object + 40) 1
  have upper : box.read (object + 33) 7 = offsets.length % wordSpace / 256 := by omega
  have lower : box.read (object + 40) 1 = box.read (object + 40) 8 % 256 := by omega
  rw [upper, lower] at straddles
  exact straddles

/-- `next_ptr` finds the descriptor that the iterator has been read from, and reads it again. -/
theorem nextPtr_stays {fuel uninitialised : Nat} (nonnull : object ≠ 0)
    (isBox : tagModel m object = tagModel1) :
    Yields (fun _ => True) (fun next => next.2 = boxIterator m object)
      (nextPtr uninitialised fuel m (boxIterator m object)) := by
  rw [boxIterator, nextPtr, if_neg nonnull]
  dsimp only
  rw [if_pos isBox]
  have pointer : Yields (fun _ => True) (fun _ => True)
      (getPtr m object (m.read (readAddress object 0) 8)) := by
    simp [getPtr, nonnull, isBox]
  apply pointer.bind
  intro result _
  -- the search compares the descriptor with itself
  have first : Yields (fun _ => True) (· = 0)
      (findDescr m object (m.read (readAddress object 0) 8) fuel 0) := by
    cases fuel with
    | zero => trivial
    | succ fuel => simp [findDescr]
  apply first.bind
  rintro i rfl
  -- a box of size zero ends with a fault, and any other stays as it is
  generalize tagSize m object = size
  split
  · trivial
  · rfl

/-- An iteration over a box does not come to an end. -/
theorem visitOffsets_diverges {fuel : Nat} (nonnull : object ≠ 0)
    (isBox : tagModel m object = tagModel1) :
    Yields (fun _ => True) (fun _ => False)
      (visitOffsets resPtr m fuel (boxIterator m object)) := by
  induction fuel with
  | zero => trivial
  | succ fuel ih =>
      have running : (boxIterator m object).object ≠ 0 := nonnull
      rw [visitOffsets, if_neg running]
      apply (nextPtr_stays nonnull isBox).bind
      intro next same
      rw [same]
      exact ih.bind fun _ never => never.elim

/-- Iterating a box visits the given offsets in order, and stops. -/
def Visits (box : ByteMemory) (object : Nat) (offsets : List Nat) : Prop :=
  ∀ resPtr local₀, ∃ fuel,
    (getIterator local₀ box object >>= visitOffsets resPtr box fuel) = .ok offsets

/-- What was written to a box is read back. -/
structure ReadsBack (box : ByteMemory) (object : Nat) (offsets : List Nat) : Prop where
  visits : Visits box object offsets
  agree : ∀ i < offsets.length, readAddress object i = descrAddress object i
  intact : ∀ i < offsets.length, ¬Overwritten object offsets.length i

theorem not_visits (isBox : tagModel box object = tagModel1) : ¬Visits box object offsets := by
  intro visits
  rcases visits (fun _ => 0) ⟨0, 0⟩ with ⟨fuel, eq⟩
  by_cases null : object = 0
  · rw [getIterator, if_pos null] at eq
    cases eq
  · rw [getIterator_eq null isBox] at eq
    exact (visitOffsets_diverges null isBox).of_ok eq

/-- No box is read back: the readers miss every descriptor and do not get past the first one.  The
descriptors themselves are intact as long as there are at most 256. -/
theorem genericBoxStruct_notReadBack (nonempty : offsets ≠ [])
    (built : genericBoxStruct mmap offsets size numEl m = .ok (object, box)) :
    ¬ReadsBack box object offsets ∧ ¬Visits box object offsets ∧
      (∀ i < offsets.length, readAddress object i ≠ descrAddress object i) ∧
      ((∀ i < offsets.length, ¬Overwritten object offsets.length i) ↔ offsets.length ≤ 256) := by
  have unvisited : ¬Visits box object offsets :=
    not_visits (genericBoxStruct_model nonempty built)
  exact ⟨fun reads => unvisited reads.visits, unvisited, fun i _ => readAddress_ne object i i,
    not_overwritten_iff⟩

/-- A box for a structure of two words with a pointer in the second. -/
def pairBox : Except Fault (Nat × ByteMemory) :=
  genericBoxStruct (fun _ => some 65536) [8] 16 1 fun _ => 0

theorem genericBoxStruct_notReadBack_pair :
    ∃ box, pairBox = .ok (65536, box) ∧ ¬ReadsBack box 65536 [8] := by
  have built : ∃ box, pairBox = .ok (65536, box) := ⟨_, rfl⟩
  rcases built with ⟨box, built⟩
  exact ⟨box, built, (genericBoxStruct_notReadBack (by simp) built).1⟩

/-- The iterator of the box starts with the offset `8 * 2 ^ 56`, and never ends. -/
theorem genericBoxStruct_misread :
    ∃ box, pairBox = .ok (65536, box) ∧
      (∀ local₀, getIterator local₀ box 65536 = .ok ⟨65536, 8 * 2 ^ 56⟩) ∧
        ¬ReadsBack box 65536 [8] := by
  have built : ∃ box, pairBox = .ok (65536, box) := ⟨_, rfl⟩
  rcases built with ⟨box, built⟩
  have nonempty : [8] ≠ [] := by simp
  have isBox := genericBoxStruct_model nonempty built
  have stored := genericBoxStruct_stored nonempty built (i := 0) (by simp)
    (not_overwritten_iff.mpr (by simp) 0 (by simp))
  have first : box.read (readAddress 65536 0) 8 = 8 * 2 ^ 56 := by
    rw [genericBoxStruct_first nonempty built, stored]
    rfl
  refine ⟨box, built, fun local₀ => ?_, fun reads => not_visits isBox reads.visits⟩
  rw [getIterator_eq (by simp) isBox, boxIterator, first]

end PreciseGc.TypeBoxes

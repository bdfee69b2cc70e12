import PreciseGc.Heap.Arena

/-!
# Objects and their pointer slots

`gc_new` puts a `base_meta` in front of every object: the shell of its class
and the number of elements.  The shell lists the size of an element and the
offsets of its `gc_ptr` members.  The slots of an object are the addresses that
the loops of `go` and `sweep` compute from these words.
-/

namespace PreciseGc

open Foundation Memory

/-- The object in the block `b`. -/
def objectOf (b : Nat) : Nat := toGetMetaInf (blockData b)

theorem objectOf_eq (b : Nat) : objectOf b = b + 32 := by
  simp only [objectOf, toGetMetaInf, blockData, sizeofBaseMeta, sizeofBlock]

/-- The shell of the object in `b`. -/
def shellOf (m : Memory) (b : Nat) : Nat := metaShell m (blockData b)

/-- The number of elements of the object in `b`. -/
def countOf (m : Memory) (b : Nat) : Nat := metaCount m (blockData b)

/-- The `j`-th pointer slot of the `i`-th element of the object in `b`. -/
def slotAddr (m : Memory) (b i j : Nat) : Nat :=
  objectOf b + i * shellSize m (shellOf m b) + shellOffset m (shellOf m b) j

/-- The pointer slots of the element `i`. -/
def elementSlots (m : Memory) (b i : Nat) : List Nat :=
  (List.range (shellCount m (shellOf m b))).map (slotAddr m b i)

/-- The pointer slots of the object in `b`. -/
def slotsOf (m : Memory) (b : Nat) : List Nat :=
  (List.range (countOf m b)).flatMap (elementSlots m b)

theorem mem_slotsOf {m : Memory} {b x : Nat} : x ∈ slotsOf m b ↔
    ∃ i < countOf m b, ∃ j < shellCount m (shellOf m b), x = slotAddr m b i j := by
  simp only [slotsOf, elementSlots, List.mem_flatMap, List.mem_map, List.mem_range]
  constructor
  · rintro ⟨i, iLess, j, jLess, rfl⟩
    exact ⟨i, iLess, j, jLess, rfl⟩
  · rintro ⟨i, iLess, j, jLess, rfl⟩
    exact ⟨i, iLess, j, jLess, rfl⟩

theorem slotsOf_eq_nil {m : Memory} {b : Nat} (none : shellCount m (shellOf m b) = 0) :
    slotsOf m b = [] := by
  refine List.eq_nil_iff_forall_not_mem.mpr fun x mem => ?_
  rcases mem_slotsOf.mp mem with ⟨_, _, j, less, _⟩
  omega

/-- A block that holds an object as `gc_new` lays it out: the elements fit into the block, every
slot lies inside its element, and `apart` holds of the words of the shell. -/
structure GcObject (m : Memory) (apart : Nat → Prop) (b : Nat) : Prop where
  room : 24 + shellSize m (shellOf m b) * countOf m b ≤ blockSize (m b)
  slotInside : ∀ j < shellCount m (shellOf m b),
    shellOffset m (shellOf m b) j + 8 ≤ shellSize m (shellOf m b)
  shellApart : ∀ x, shellOf m b ≤ x → x < shellOf m b + 8 * (2 + shellCount m (shellOf m b)) →
    apart x

namespace GcObject

variable {m m' : Memory} {apart : Nat → Prop} {b i j x : Nat}

theorem mono (object : GcObject m apart b) {apart' : Nat → Prop}
    (weaker : ∀ x, apart x → apart' x) : GcObject m apart' b :=
  { object with
    shellApart := fun x lower upper => weaker x (object.shellApart x lower upper) }

theorem element_le (object : GcObject m apart b) (less : i < countOf m b) :
    i * shellSize m (shellOf m b) + shellSize m (shellOf m b) + 24 ≤ blockSize (m b) := by
  have := object.room
  calc i * shellSize m (shellOf m b) + shellSize m (shellOf m b) + 24
      = 24 + shellSize m (shellOf m b) * (i + 1) := by rw [Nat.mul_succ, Nat.mul_comm]; omega
    _ ≤ 24 + shellSize m (shellOf m b) * countOf m b :=
        Nat.add_le_add_left (Nat.mul_le_mul_left _ less) _
    _ ≤ blockSize (m b) := this

/-- Every slot lies in the data of the block, behind the `base_meta`. -/
theorem slot_bounds (object : GcObject m apart b) (mem : x ∈ slotsOf m b) :
    b + 32 ≤ x ∧ x + 8 ≤ b + 8 + blockSize (m b) := by
  rcases mem_slotsOf.mp mem with ⟨i, iLess, j, jLess, rfl⟩
  have := object.element_le iLess
  have := object.slotInside j jLess
  simp only [slotAddr, objectOf_eq]
  omega

/-- The address a loop over the elements computes for a slot, from a running element pointer that
may have wrapped around. -/
theorem ptrAdd_slot (object : GcObject m apart b) (bounded : b + 8 + blockSize (m b) ≤ wordSpace)
    (iLess : i < countOf m b) (jLess : j < shellCount m (shellOf m b)) {data : Nat}
    (dataEq : data % wordSpace = (objectOf b + i * shellSize m (shellOf m b)) % wordSpace) :
    ptrAdd data (shellOffset m (shellOf m b) j) = slotAddr m b i j := by
  have := object.element_le iLess
  have := object.slotInside j jLess
  have inside : slotAddr m b i j < wordSpace := by
    simp only [slotAddr, objectOf_eq]
    omega
  calc ptrAdd data (shellOffset m (shellOf m b) j)
      = slotAddr m b i j % wordSpace := by
        rw [ptrAdd, Nat.add_mod, dataEq, ← Nat.add_mod]
        rfl
    _ = slotAddr m b i j := Nat.mod_eq_of_lt inside

/-- An object with slots has no more elements than its block has bytes. -/
theorem count_le (object : GcObject m apart b) (some : shellCount m (shellOf m b) ≠ 0) :
    countOf m b ≤ blockSize (m b) := by
  have := object.slotInside 0 (Nat.pos_of_ne_zero some)
  have := object.room
  have : 1 * countOf m b ≤ shellSize m (shellOf m b) * countOf m b :=
    Nat.mul_le_mul_right _ (by omega)
  omega

end GcObject

/-- The element pointer after one more element. -/
theorem ptrAdd_element {b i size data : Nat}
    (dataEq : data % wordSpace = (objectOf b + i * size) % wordSpace) :
    ptrAdd data size % wordSpace = (objectOf b + (i + 1) * size) % wordSpace := by
  rw [ptrAdd, Nat.mod_mod, Nat.add_mod, dataEq, ← Nat.add_mod, Nat.succ_mul, Nat.add_assoc]

/-- The object in the block `b'` of `m'` has the `base_meta` and the shell of the object in the
block `b` of `m`. -/
structure SameShape (m : Memory) (b : Nat) (m' : Memory) (b' : Nat) : Prop where
  shell : shellOf m' b' = shellOf m b
  count : countOf m' b' = countOf m b
  size : shellSize m' (shellOf m b) = shellSize m (shellOf m b)
  slots : shellCount m' (shellOf m b) = shellCount m (shellOf m b)
  offset : ∀ j < shellCount m (shellOf m b),
    shellOffset m' (shellOf m b) j = shellOffset m (shellOf m b) j

namespace SameShape

variable {m m' : Memory} {apart apart' : Nat → Prop} {b b' : Nat}

theorem of_agree (metaEq : ∀ o < 24, m' (b' + 8 + o) = m (b + 8 + o))
    (shellEq : ∀ x, shellOf m b ≤ x → x < shellOf m b + 8 * (2 + shellCount m (shellOf m b)) →
      m' x = m x) : SameShape m b m' b' where
  shell := metaEq 8 (by omega)
  count := metaEq 16 (by omega)
  size := shellEq _ (by omega) (by omega)
  slots := shellEq _ (by omega) (by omega)
  offset j less := shellEq _ (by omega) (by omega)

theorem slotAddr_eq (same : SameShape m b m' b') {i j : Nat}
    (less : j < shellCount m (shellOf m b)) : slotAddr m' b' i j + b = slotAddr m b i j + b' := by
  simp only [slotAddr, same.shell, same.size, same.offset j less, objectOf_eq]
  omega

/-- The slots of the two objects correspond. -/
theorem slotsOf_eq (same : SameShape m b m' b') :
    slotsOf m' b' = (slotsOf m b).map fun x => x - b + b' := by
  simp only [slotsOf, same.count, List.map_flatMap]
  congr 1
  funext i
  simp only [elementSlots, same.shell, same.slots, List.map_map]
  refine List.map_congr_left fun j mem => ?_
  have moved := same.slotAddr_eq (i := i) (List.mem_range.mp mem)
  have : b ≤ slotAddr m b i j := by
    simp only [slotAddr, objectOf_eq]
    omega
  simp only [Function.comp_apply]
  omega

theorem gcObject (same : SameShape m b m' b') (object : GcObject m apart b)
    (size : blockSize (m' b') = blockSize (m b))
    (shellApart : ∀ x, apart x → apart' x) : GcObject m' apart' b' where
  room := by
    rw [same.shell, same.size, same.count, size]
    exact object.room
  slotInside := by
    rw [same.shell, same.size, same.slots]
    intro j less
    rw [same.offset j less]
    exact object.slotInside j less
  shellApart := by
    rw [same.shell, same.slots]
    exact fun x lower upper => shellApart x (object.shellApart x lower upper)

end SameShape

/-- The word is a `gc_ptr` to the object of the block with header address `b`. -/
def Designates (w b : Nat) : Prop := isCompositePointer w = false ∧ clearBothFlags w = objectOf b

instance (w b : Nat) : Decidable (Designates w b) := inferInstanceAs (Decidable (_ ∧ _))

/-- The word is a null `gc_ptr`. -/
def IsNull (w : Nat) : Prop := isCompositePointer w = false ∧ clearBothFlags w = 0

theorem clearStackFlag_of_plain {w : Nat} (plain : isCompositePointer w = false) :
    clearStackFlag w = clearBothFlags w := by
  simp only [isCompositePointer, compositeBit] at plain
  rw [hasFlag_residue (by decide)] at plain
  simp only [clearStackFlag, clearBothFlags, stackBit, bothBits, clear]
  rw [and_eq_residue (f := 1) (by decide), and_eq_residue (f := 3) (by decide)]
  have small := Nat.mod_lt w (by decide : 0 < 8)
  generalize w % 8 = r at plain small ⊢
  have : ∀ r < 8, hasFlag r 2 = false → r &&& 1 = r &&& 3 := by decide
  rw [this r small plain]

theorem word_split {w : Nat} (plain : isCompositePointer w = false)
    (aligned : clearBothFlags w % 8 = 0) :
    ∃ flag < 2, w = clearBothFlags w + flag := by
  have residue : w % 8 < 2 ∧ clearBothFlags w = w - w % 8 := by
    simp only [isCompositePointer, compositeBit] at plain
    rw [hasFlag_residue (by decide)] at plain
    simp only [clearBothFlags, bothBits] at aligned ⊢
    rw [clear_mod_eight (by decide)] at aligned
    have small := Nat.mod_lt w (by decide : 0 < 8)
    have value : w % 8 < 2 := by
      generalize w % 8 = r at plain aligned small
      revert plain aligned
      have : ∀ r < 8, hasFlag r 2 = false → clear r 3 = 0 → r < 2 := by decide
      exact fun first second => this r small first second
    refine ⟨value, ?_⟩
    unfold clear
    rw [and_eq_residue (by decide)]
    have : w % 8 &&& 3 = w % 8 := by
      generalize w % 8 = r at value
      have : ∀ r < 2, r &&& 3 = r := by decide
      exact this r value
    rw [this]
  exact ⟨w % 8, residue.1, by omega⟩

theorem word_join {value flag : Nat} (aligned : value % 8 = 0) (small : flag < 2) :
    isCompositePointer (value + flag) = false ∧ clearBothFlags (value + flag) = value ∧
      clearStackFlag (value + flag) = value ∧ getBothFlags (value + flag) = flag ∧
        restoreFlags value flag = value + flag := by
  have mod : (value + flag) % 8 = flag := by omega
  have split : restoreFlags value flag = value + flag := by
    have high : (value ||| flag) / 8 = value / 8 := or_div_eight (by omega) value
    have low : (value ||| flag) % 8 = flag := by
      rw [or_mod_eight (by omega), aligned]
      exact Nat.zero_or flag
    simp only [restoreFlags]
    omega
  refine ⟨?_, ?_, ?_, ?_, split⟩
  · simp only [isCompositePointer, compositeBit]
    rw [hasFlag_residue (by decide), mod]
    have : ∀ f < 2, hasFlag f 2 = false := by decide
    exact this flag small
  · simp only [clearBothFlags, bothBits, clear]
    rw [and_eq_residue (by decide), mod]
    have : ∀ f < 2, f &&& 3 = f := by decide
    rw [this flag small]
    omega
  · simp only [clearStackFlag, stackBit, clear]
    rw [and_eq_residue (by decide), mod]
    have : ∀ f < 2, f &&& 1 = f := by decide
    rw [this flag small]
    omega
  · simp only [getBothFlags, bothBits]
    rw [and_eq_residue (by decide), mod]
    have : ∀ f < 2, f &&& 3 = f := by decide
    exact this flag small

theorem blockData_inj {b d : Nat} (same : blockData b = blockData d) : b = d := by
  simp only [blockData, sizeofBlock] at same
  omega

theorem objectOf_inj {b d : Nat} (same : objectOf b = objectOf d) : b = d := by
  simp only [objectOf_eq] at same
  omega

/-- A word designates at most one block. -/
theorem Designates.unique {w b d : Nat} (left : Designates w b) (right : Designates w d) : b = d :=
  objectOf_inj (left.2.symm.trans right.2)

end PreciseGc

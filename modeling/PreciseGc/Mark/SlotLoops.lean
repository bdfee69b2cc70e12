import PreciseGc.Foundation.CountedLoop
import PreciseGc.Mark.Scanning

/-!
# The loops over the slots of an object

`go` and `sweep` visit the slots of an object in the same two nested loops.
Their indices are `int`s, while the number of elements and the number of slots
are `size_t`s; the expression `shell[2 + j]` is an `int` addition, too.  Here
the indices are taken as declared, as 32-bit numbers that wrap around.  This is
what a build without optimisation does.  In the library as it is compiled, an
index takes every value below its bound, as in `goElements` and `fixElements`;
while the indices are in range, both readings agree.
-/

namespace PreciseGc

open Foundation Memory

/-- The address of `shell[index]`. -/
def shellWord (shell : Nat) (index : BitVec 32) : Nat := ptrAdd shell (8 * sizeOfInt index)

section Loops

variable {σ : Type} (mem : σ → Memory) (visit : (v word : Nat) → σ → σ)

/-- `for (int j = 0; j < count; ++j)`, where a visit gets the element and the address of
`bm->shell[2 + j]`. -/
def slotLoop (metaAddr v count fuel : Nat) (s : σ) : Except Fault σ :=
  countedLoop (fun _ => count)
    (fun j s => .ok (visit v (shellWord (metaShell (mem s) metaAddr) (2 + j)) s))
    Fault.outOfFuel fuel 0#32 s

/-- `for (int i = 0; i < bm->count; ++i)`, together with the element it has come to. -/
def elementLoop (metaAddr size count fuel v : Nat) (s : σ) : Except Fault (Nat × σ) :=
  countedLoop (fun r : Nat × σ => metaCount (mem r.2) metaAddr)
    (fun _ r => slotLoop mem visit metaAddr r.1 count fuel r.2 >>= fun s =>
      .ok (ptrAdd r.1 size, s))
    Fault.outOfFuel fuel 0#32 (v, s)

/-- The scan of an object, from the reads of `shell[0]` and `shell[1]` on. -/
def scanObject (metaAddr v fuel : Nat) (s : σ) : Except Fault (Nat × σ) :=
  let size := shellSize (mem s) (metaShell (mem s) metaAddr)
  let count := shellCount (mem s) (metaShell (mem s) metaAddr)
  if count = 0 then .ok (v, s) else elementLoop mem visit metaAddr size count fuel v s

/-- A visit that is recorded. -/
def recorded (v word : Nat) (r : σ × List (Nat × Nat)) : σ × List (Nat × Nat) :=
  (visit v word r.1, r.2 ++ [(v, word)])

end Loops

/-- The body of the loops of `go`. -/
def goVisit (v word : Nat) (t : Traversal) : Traversal := goSlot (ptrAdd v (t.heap.mem word)) t

/-- The body of the loops of `sweep`. -/
def fixVisit (v word : Nat) (m : Memory) : Memory := fixPtr (ptrAdd v (m word)) m

/-- The loops of `go` over the object whose `base_meta` is at `metaAddr`. -/
def goScan (metaAddr v fuel : Nat) (t : Traversal) : Except Fault (Nat × Traversal) :=
  scanObject (fun t : Traversal => t.heap.mem) goVisit metaAddr v fuel t

/-- The loops of `sweep` over the object whose `base_meta` is at `metaAddr`. -/
def fixScan (metaAddr data fuel : Nat) (m : Memory) : Except Fault (Nat × Memory) :=
  scanObject id fixVisit metaAddr data fuel m

/-- The header of an object that starts at `object`: its shell, `shell[0]`, `count` and
`shell[1]`. -/
structure ObjectHeader where
  object : Nat
  shell : Nat
  size : Nat
  count : Nat
  slots : Nat
  object_lt : object < wordSpace
  count_lt : count < 2 ^ 64
  slots_lt : slots < 2 ^ 64

namespace ObjectHeader

variable (header : ObjectHeader)

/-- The address of the element `i`. -/
def element (i : Nat) : Nat := (header.object + i * header.size) % wordSpace

/-- The address of `shell[2 + j]`. -/
def offsetWord (j : Nat) : Nat := (header.shell + 8 * (2 + j)) % wordSpace

/-- The visits of the slots of an element. -/
def elementVisits (v : Nat) (slots : Nat) : List (Nat × Nat) :=
  (List.range slots).map fun j => (v, header.offsetWord j)

/-- The visits of the first `count` elements. -/
def visits (count : Nat) : List (Nat × Nat) :=
  (List.range count).flatMap fun i => header.elementVisits (header.element i) header.slots

/-- Each slot of each element, once. -/
def allVisits : List (Nat × Nat) := header.visits header.count

theorem element_succ (i : Nat) :
    ptrAdd (header.element i) header.size = header.element (i + 1) := by
  simp only [element, ptrAdd, Nat.mod_add_mod, Nat.add_mul, Nat.one_mul, Nat.add_assoc]

@[simp]
theorem elementVisits_zero (v : Nat) : header.elementVisits v 0 = [] := rfl

theorem elementVisits_succ (v j : Nat) :
    header.elementVisits v (j + 1) = header.elementVisits v j ++ [(v, header.offsetWord j)] := by
  simp [elementVisits, List.range_succ]

@[simp]
theorem length_elementVisits (v slots : Nat) : (header.elementVisits v slots).length = slots := by
  simp [elementVisits]

@[simp]
theorem visits_zero : header.visits 0 = [] := rfl

theorem visits_succ (n : Nat) :
    header.visits (n + 1) =
      header.visits n ++ header.elementVisits (header.element n) header.slots := by
  simp [visits, List.range_succ]

@[simp]
theorem length_visits (n : Nat) : (header.visits n).length = n * header.slots := by
  induction n with
  | zero => simp
  | succ n ih => rw [visits_succ, List.length_append, ih, length_elementVisits, Nat.succ_mul]

theorem allVisits_getElem? {j : Nat} (positive : 0 < header.count) (inside : j < header.slots) :
    header.allVisits[j]? = some (header.element 0, header.offsetWord j) := by
  have split : header.allVisits = header.elementVisits (header.element 0) header.slots ++
      (List.range (header.count - 1)).flatMap fun i =>
        header.elementVisits (header.element (i + 1)) header.slots := by
    rw [allVisits, visits, show header.count = header.count - 1 + 1 by omega,
      List.range_succ_eq_map, List.flatMap_cons, List.flatMap_map]
    rfl
  rw [split, List.getElem?_append_left (by simpa using inside)]
  simp [elementVisits, inside]

/-- The index of a slot is an `int` only up to a limit. -/
theorem shellWord_eq {j : Nat} (small : j < 2 ^ 31 - 2) :
    shellWord header.shell (2 + BitVec.ofNat 32 j) = header.offsetWord j := by
  have index : (2 : BitVec 32) + BitVec.ofNat 32 j = BitVec.ofNat 32 (2 + j) :=
    (BitVec.ofNat_add 2 j).symm
  simp only [shellWord, offsetWord, ptrAdd]
  rw [index, sizeOfInt_ofNat (by omega), if_pos (by omega)]

theorem shellWord_ne :
    shellWord header.shell (2 + BitVec.ofNat 32 (2 ^ 31 - 2)) ≠ header.offsetWord (2 ^ 31 - 2) := by
  have index : sizeOfInt (2 + BitVec.ofNat 32 (2 ^ 31 - 2)) = 2 ^ 64 - 2 ^ 31 := by decide
  simp only [shellWord, offsetWord, ptrAdd, index, wordSpace]
  omega

end ObjectHeader

/-- The scan returns for all sufficient fuel, and visits each slot of each element once, in
order. -/
def VisitsEverySlot {σ : Type} (mem : σ → Memory) (visit : (v word : Nat) → σ → σ)
    (metaAddr : Nat) (header : ObjectHeader) (s : σ) : Prop :=
  ∃ bound, ∀ fuel, bound ≤ fuel → ∃ v s',
    scanObject (fun r : σ × List (Nat × Nat) => mem r.1) (recorded visit) metaAddr header.object
      fuel (s, []) = .ok (v, s', header.allVisits)

/-- The state holds the header, and the visits of the slots of the object leave it alone: `inv` is
what they keep. -/
structure KeepsHeader {σ : Type} (mem : σ → Memory) (visit : (v word : Nat) → σ → σ)
    (metaAddr : Nat) (header : ObjectHeader) (inv : σ → Prop) (s : σ) : Prop where
  start : inv s
  size : shellSize (mem s) header.shell = header.size
  slots : shellCount (mem s) header.shell = header.slots
  shell : ∀ s, inv s → metaShell (mem s) metaAddr = header.shell
  count : ∀ s, inv s → metaCount (mem s) metaAddr = header.count
  visit : ∀ i < header.count, ∀ j < header.slots, ∀ s, inv s →
    inv (visit (header.element i) (header.offsetWord j) s)

section Visits

variable {σ : Type} {mem : σ → Memory} {visit : (v word : Nat) → σ → σ} {metaAddr fuel : Nat}
  {header : ObjectHeader} {inv : σ → Prop} {s s₀ : σ} {v : Nat} {trace : List (Nat × Nat)}

/-- A visit that comes after `n` others is not the expected one. -/
def WentWrong (header : ObjectHeader) (r : σ × List (Nat × Nat)) : Prop :=
  ∃ v word, r.2[2 ^ 31 - 2]? = some (v, word) ∧ word ≠ header.offsetWord (2 ^ 31 - 2)

theorem WentWrong.recorded {r : σ × List (Nat × Nat)} (wrong : WentWrong header r) (v word : Nat) :
    WentWrong header (recorded visit v word r) := by
  rcases wrong with ⟨w, other, entry, different⟩
  refine ⟨w, other, ?_, different⟩
  rw [List.getElem?_eq_some_iff] at entry
  rcases entry with ⟨inside, entry⟩
  simp only [PreciseGc.recorded]
  rw [List.getElem?_append_left inside, List.getElem?_eq_some_iff]
  exact ⟨inside, entry⟩

variable (keeps : KeepsHeader mem visit metaAddr header inv s₀)

include keeps

/-- The slots of an element whose number of slots is in the range of the index expression. -/
theorem slotLoop_visits {i : Nat} (below : i < header.count) (few : header.slots ≤ 2 ^ 31 - 2)
    (holds : inv s) (enough : header.slots < fuel) :
    Yields (fun _ => False)
      (fun r => inv r.1 ∧ r.2 = trace ++ header.elementVisits (header.element i) header.slots)
      (slotLoop (fun r : σ × List (Nat × Nat) => mem r.1) (recorded visit) metaAddr
        (header.element i) header.slots fuel (s, trace)) := by
  have all : passes header.slots = header.slots := passes_eq_iff.mpr (by omega)
  have loop : Yields (fun _ => False)
      (fun r => inv r.1 ∧
        r.2 = trace ++ header.elementVisits (header.element i) (passes header.slots))
      (slotLoop (fun r : σ × List (Nat × Nat) => mem r.1) (recorded visit) metaAddr
        (header.element i) header.slots fuel (s, trace)) := by
    refine countedLoop_yields
      (fun n (r : σ × List (Nat × Nat)) =>
        inv r.1 ∧ r.2 = trace ++ header.elementVisits (header.element i) n)
      header.slots_lt (fun _ _ _ => rfl) ?_ (by omega) ⟨holds, by simp⟩
    rintro n ⟨s, visited⟩ less ⟨holds, rfl⟩
    have word := header.shellWord_eq (j := n) (by omega)
    simp only [Yields.ok_iff, recorded, keeps.shell s holds, word]
    refine ⟨keeps.visit i below n (by omega) s holds, ?_⟩
    rw [header.elementVisits_succ, List.append_assoc]
  rw [all] at loop
  exact loop

/-- With more slots, the index expression wraps around in the first element. -/
theorem slotLoop_wraps (positive : 0 < header.count) (many : 2 ^ 31 - 2 < header.slots)
    (enough : passes header.slots < fuel) (holds : inv s) :
    Yields (fun _ => True) (WentWrong header)
      (slotLoop (fun r : σ × List (Nat × Nat) => mem r.1) (recorded visit) metaAddr
        (header.element 0) header.slots fuel (s, [])) := by
  have reached : 2 ^ 31 - 2 < passes header.slots := by
    unfold passes
    split
    · omega
    · split <;> omega
  refine (countedLoop_yields_or (WentWrong header)
    (fun n (r : σ × List (Nat × Nat)) =>
      n ≤ 2 ^ 31 - 2 ∧ inv r.1 ∧ r.2 = header.elementVisits (header.element 0) n)
    header.slots_lt (fun _ _ _ => rfl) ?_ ?_ enough ⟨Nat.zero_le _, holds, rfl⟩).mono ?_
  · rintro n ⟨s, visited⟩ less ⟨early, holds, rfl⟩
    simp only [Yields.ok_iff, keeps.shell s holds]
    rcases Nat.lt_or_eq_of_le early with before | rfl
    · left
      have word := header.shellWord_eq before
      simp only [recorded, word]
      refine ⟨before, keeps.visit 0 positive n (by omega) s holds, ?_⟩
      rw [header.elementVisits_succ]
    · right
      refine ⟨header.element 0, _, ?_, header.shellWord_ne⟩
      simp only [recorded]
      rw [List.getElem?_append_right (by simp), header.length_elementVisits, Nat.sub_self]
      rfl
  · intro j r wrong
    exact ⟨trivial, wrong.recorded _ _⟩
  · rintro r (⟨early, _⟩ | wrong)
    · omega
    · exact wrong

/-- The elements, when the number of slots is in range: the loop ends after its passes. -/
theorem elementLoop_visits (few : header.slots ≤ 2 ^ 31 - 2)
    (enough : passes header.count < fuel) (enoughSlots : header.slots < fuel) (holds : inv s) :
    Yields (fun _ => False) (fun r => r.2.2 = header.visits (passes header.count))
      (elementLoop (fun r : σ × List (Nat × Nat) => mem r.1) (recorded visit) metaAddr header.size
        header.slots fuel header.object (s, [])) := by
  refine (countedLoop_yields
    (fun n (r : Nat × σ × List (Nat × Nat)) =>
      r.1 = header.element n ∧ inv r.2.1 ∧ r.2.2 = header.visits n)
    header.count_lt (fun n r reached => keeps.count _ reached.2.1) ?_ enough
    ⟨by simp [ObjectHeader.element, Nat.mod_eq_of_lt header.object_lt], holds, rfl⟩).mono ?_
  · rintro n ⟨v, s, trace⟩ less ⟨rfl, holds, rfl⟩
    have below : n < header.count := less.trans_le (passes_le _)
    apply (slotLoop_visits keeps below few holds enoughSlots).bind
    rintro ⟨s', trace'⟩ ⟨holds', rfl⟩
    exact ⟨header.element_succ n, holds', (header.visits_succ n).symm⟩
  · intro r reached
    exact reached.2.2

theorem elementLoop_wraps (positive : 0 < header.count) (many : 2 ^ 31 - 2 < header.slots)
    (enough : passes header.count < fuel) (enoughSlots : passes header.slots < fuel)
    (holds : inv s) :
    Yields (fun _ => True) (fun r => WentWrong header r.2)
      (elementLoop (fun r : σ × List (Nat × Nat) => mem r.1) (recorded visit) metaAddr header.size
        header.slots fuel header.object (s, [])) := by
  have first : 0 < passes header.count := by
    unfold passes
    split
    · exact positive
    · split <;> omega
  refine (countedLoop_yields_or (fun r : Nat × σ × List (Nat × Nat) => WentWrong header r.2)
    (fun n r => n = 0 ∧ r = (header.element 0, s, [])) header.count_lt ?_ ?_ ?_ enough
    ⟨rfl, by simp [ObjectHeader.element, Nat.mod_eq_of_lt header.object_lt]⟩).mono ?_
  · rintro n _ ⟨rfl, rfl⟩
    exact keeps.count s holds
  · rintro n _ less ⟨rfl, rfl⟩
    apply (slotLoop_wraps keeps positive many enoughSlots holds).bind
    intro r wrong
    exact Or.inr wrong
  · rintro i ⟨v, r⟩ wrong
    refine ⟨trivial, ?_⟩
    have slots : Yields (fun _ => True) (WentWrong header) (slotLoop
        (fun r : σ × List (Nat × Nat) => mem r.1) (recorded visit) metaAddr v header.slots fuel
          r) :=
      countedLoop_keeps (fun j r wrong => ⟨trivial, wrong.recorded _ _⟩) fuel wrong
    exact slots.bind fun r wrong => wrong
  · rintro r (⟨never, _⟩ | wrong)
    · omega
    · exact wrong

/-- An `int` counts up to `2 ^ 31`, and `2 + j` up to one less. -/
theorem visitsEverySlot_iff :
    VisitsEverySlot mem visit metaAddr header s₀ ↔
      header.count = 0 ∨ header.slots = 0 ∨
        (header.count ≤ 2 ^ 31 ∧ header.slots ≤ 2 ^ 31 - 2) := by
  have scan : ∀ fuel, scanObject (fun r : σ × List (Nat × Nat) => mem r.1) (recorded visit) metaAddr
      header.object fuel (s₀, []) = if header.slots = 0 then .ok (header.object, s₀, [])
        else elementLoop (fun r : σ × List (Nat × Nat) => mem r.1) (recorded visit) metaAddr
          header.size header.slots fuel header.object (s₀, []) := by
    intro fuel
    simp only [scanObject, keeps.shell s₀ keeps.start, keeps.size, keeps.slots]
  simp only [VisitsEverySlot, scan]
  by_cases none : header.slots = 0
  · have nothing : header.allVisits = [] := by
      apply List.eq_nil_of_length_eq_zero
      simp [ObjectHeader.allVisits, none]
    simp [none, nothing]
  · simp only [none, false_or, if_false]
    constructor
    · rintro ⟨bound, returns⟩
      by_contra fails
      simp only [not_or, not_and_or, Nat.not_le] at fails
      rcases fails with ⟨some, wide⟩
      let fuel := bound + passes header.count + passes header.slots + header.slots + 1
      have enough : passes header.count < fuel := by omega
      rcases returns fuel (by omega) with ⟨v, s', eq⟩
      by_cases many : 2 ^ 31 - 2 < header.slots
      · have wrong := (elementLoop_wraps keeps (Nat.pos_of_ne_zero some) many enough (by omega)
          keeps.start).of_ok eq
        rcases wrong with ⟨w, word, entry, different⟩
        rw [header.allVisits_getElem? (Nat.pos_of_ne_zero some) many] at entry
        cases entry
        exact different rfl
      · have visited := (elementLoop_visits keeps (Nat.not_lt.mp many) enough (by omega)
          keeps.start).of_ok eq
        have lengths := congrArg List.length visited
        simp only [ObjectHeader.allVisits, ObjectHeader.length_visits] at lengths
        have same := Nat.eq_of_mul_eq_mul_right (Nat.pos_of_ne_zero none) lengths
        have := passes_eq_iff.mp same.symm
        omega
    · intro small
      refine ⟨passes header.count + header.slots + 1, fun fuel enough => ?_⟩
      by_cases empty : header.count = 0
      · refine ⟨header.object, s₀, ?_⟩
        cases fuel with
        | zero => omega
        | succ fuel =>
            have stop : ¬sizeOfInt 0#32 < metaCount (mem s₀) metaAddr := by
              rw [keeps.count s₀ keeps.start, empty]
              exact Nat.not_lt_zero _
            rw [elementLoop, countedLoop, if_neg stop, ObjectHeader.allVisits, empty,
              ObjectHeader.visits_zero]
      · rcases small.resolve_left empty with ⟨counted, few⟩
        have passed : passes header.count < fuel := by omega
        rcases (elementLoop_visits keeps few passed (by omega) keeps.start).total with
          ⟨⟨v, s', trace⟩, eq, visited⟩
        dsimp only at visited
        subst visited
        refine ⟨v, s', eq.trans ?_⟩
        rw [passes_eq_iff.mpr counted]
        rfl

/-- Within the range of the indices, the loop over the slots is a count down. -/
theorem slotLoop_eq {slots : (count j : Nat) → σ → σ} {i : Nat} (below : i < header.count)
    (few : header.slots ≤ 2 ^ 31 - 2) (inRange : header.shell + 8 * (2 + header.slots) ≤ wordSpace)
    (atEnd : ∀ j s, slots 0 j s = s)
    (next : ∀ count j s, slots (count + 1) j s =
      slots count (j + 1) (visit (header.element i) (metaShell (mem s) metaAddr + 8 * (2 + j)) s))
    (enough : header.slots < fuel) (holds : inv s) :
    Yields (fun _ => False) (fun s' => inv s' ∧ s' = slots header.slots 0 s)
      (slotLoop mem visit metaAddr (header.element i) header.slots fuel s) := by
  have all : passes header.slots = header.slots := passes_eq_iff.mpr (by omega)
  have loop : Yields (fun _ => False)
      (fun s' => inv s' ∧
        slots (header.slots - passes header.slots) (passes header.slots) s' =
          slots header.slots 0 s)
      (slotLoop mem visit metaAddr (header.element i) header.slots fuel s) := by
    refine countedLoop_yields
      (fun n (s' : σ) => inv s' ∧ slots (header.slots - n) n s' = slots header.slots 0 s)
      header.slots_lt (fun _ _ _ => rfl) ?_ (by omega) ⟨holds, rfl⟩
    rintro n s' less ⟨holds, left⟩
    rw [all] at less
    have word := header.shellWord_eq (j := n) (by omega)
    have plain : header.offsetWord n = header.shell + 8 * (2 + n) :=
      Nat.mod_eq_of_lt (by omega)
    simp only [Yields.ok_iff, keeps.shell s' holds, word]
    refine ⟨keeps.visit i below n less s' holds, ?_⟩
    rw [← left, show header.slots - n = header.slots - (n + 1) + 1 by omega, next,
      keeps.shell s' holds, plain]
  rw [all] at loop
  apply loop.mono
  rintro s' ⟨holds, left⟩
  rw [Nat.sub_self, atEnd] at left
  exact ⟨holds, left⟩

/-- As long as the index of an element is in range, the scan is a loop that counts in `Nat`. -/
theorem scanObject_eq {slots : (v count j : Nat) → σ → σ}
    {elements : (fuel i v : Nat) → σ → Except Fault σ} (few : header.slots ≤ 2 ^ 31 - 2)
    (counted : header.count ≤ 2 ^ 31)
    (inRange : header.shell + 8 * (2 + header.slots) ≤ wordSpace)
    (atEnd : ∀ v j s, slots v 0 j s = s)
    (next : ∀ v count j s, slots v (count + 1) j s =
      slots v count (j + 1) (visit v (metaShell (mem s) metaAddr + 8 * (2 + j)) s))
    (unroll : ∀ fuel i v s, elements (fuel + 1) i v s =
      if i < metaCount (mem s) metaAddr then
        elements fuel (i + 1) (ptrAdd v header.size) (slots v header.slots 0 s)
      else .ok s)
    (enough : passes header.count < fuel) (enoughSlots : header.slots < fuel) :
    (scanObject mem visit metaAddr header.object fuel s₀).map Prod.snd =
      if header.slots = 0 then .ok s₀ else elements fuel 0 header.object s₀ := by
  have start : header.object = header.element 0 := by
    simp [ObjectHeader.element, Nat.mod_eq_of_lt header.object_lt]
  have reaches : passes header.count = header.count := passes_eq_iff.mpr counted
  simp only [scanObject, keeps.shell s₀ keeps.start, keeps.size, keeps.slots]
  split
  · rfl
  · have loop : Yields (fun _ => False)
        (fun r => r.1 = header.element (passes header.count) ∧ inv r.2 ∧
          elements (fuel - passes header.count) (passes header.count) r.1 r.2 =
            elements fuel 0 header.object s₀)
        (elementLoop mem visit metaAddr header.size header.slots fuel header.object s₀) := by
      refine countedLoop_yields
        (fun n (r : Nat × σ) => r.1 = header.element n ∧ inv r.2 ∧
          elements (fuel - n) n r.1 r.2 = elements fuel 0 header.object s₀)
        header.count_lt (fun n r reached => keeps.count _ reached.2.1) ?_ enough
        ⟨start, keeps.start, rfl⟩
      rintro n ⟨v, s⟩ less ⟨rfl, holds, left⟩
      have below : n < header.count := less.trans_le (passes_le _)
      apply (slotLoop_eq keeps below few inRange (atEnd _) (next _) enoughSlots holds).bind
      rintro s' ⟨holds', rfl⟩
      refine ⟨header.element_succ n, holds', ?_⟩
      rw [← left, show fuel - n = fuel - (n + 1) + 1 by omega, unroll, keeps.count s holds,
        if_pos below]
    rcases loop.total with ⟨⟨v, s⟩, eq, -, holds, left⟩
    rw [eq, ← left,
      show fuel - passes header.count = fuel - passes header.count - 1 + 1 by omega, unroll,
      keeps.count s holds, if_neg]
    · rfl
    · omega

end Visits

/-- The record does not change the scan. -/
theorem scanObject_recorded {σ : Type} (mem : σ → Memory) (visit : (v word : Nat) → σ → σ)
    (metaAddr v fuel : Nat) (s : σ) (trace : List (Nat × Nat)) :
    scanObject mem visit metaAddr v fuel s =
      (scanObject (fun r : σ × List (Nat × Nat) => mem r.1) (recorded visit) metaAddr v fuel
        (s, trace)).map fun r => (r.1, r.2.1) := by
  have slots : ∀ v count (r : σ × List (Nat × Nat)), slotLoop mem visit metaAddr v count fuel r.1 =
      (slotLoop (fun r : σ × List (Nat × Nat) => mem r.1) (recorded visit) metaAddr v count fuel
        r).map Prod.fst := fun v count r =>
    countedLoop_map Prod.fst (fun _ => rfl) (fun _ _ => rfl) fuel 0#32 r
  simp only [scanObject]
  split
  · rfl
  · apply countedLoop_map (fun r : Nat × σ × List (Nat × Nat) => (r.1, r.2.1)) (fun _ => rfl) _
      fuel 0#32 (v, s, trace)
    rintro i ⟨v, r⟩
    rw [slots]
    cases slotLoop (fun r : σ × List (Nat × Nat) => mem r.1) (recorded visit) metaAddr v _ fuel r
    · rfl
    · rfl

/-- In range, the scan of `go` is the loop `goElements`. -/
theorem goScan_eq {metaAddr fuel : Nat} {header : ObjectHeader} {inv : Traversal → Prop}
    {t : Traversal}
    (keeps : KeepsHeader (fun t : Traversal => t.heap.mem) goVisit metaAddr header inv t)
    (few : header.slots ≤ 2 ^ 31 - 2) (counted : header.count ≤ 2 ^ 31)
    (inRange : header.shell + 8 * (2 + header.slots) ≤ wordSpace)
    (enough : passes header.count < fuel) (enoughSlots : header.slots < fuel) :
    (goScan metaAddr header.object fuel t).map Prod.snd =
      if header.slots = 0 then .ok t
      else goElements metaAddr header.size header.slots fuel 0 header.object t :=
  scanObject_eq keeps few counted inRange (fun _ _ _ => rfl) (fun _ _ _ _ => rfl)
    (fun _ _ _ _ => rfl) enough enoughSlots

/-- In range, the scan of `sweep` is the loop `fixElements`. -/
theorem fixScan_eq {metaAddr fuel : Nat} {header : ObjectHeader} {inv : Memory → Prop} {m : Memory}
    (keeps : KeepsHeader id fixVisit metaAddr header inv m)
    (few : header.slots ≤ 2 ^ 31 - 2) (counted : header.count ≤ 2 ^ 31)
    (inRange : header.shell + 8 * (2 + header.slots) ≤ wordSpace)
    (enough : passes header.count < fuel) (enoughSlots : header.slots < fuel) :
    (fixScan metaAddr header.object fuel m).map Prod.snd =
      if header.slots = 0 then .ok m
      else fixElements metaAddr header.size header.slots fuel 0 header.object m :=
  scanObject_eq keeps few counted inRange (fun _ _ _ => rfl) (fun _ _ _ _ => rfl)
    (fun _ _ _ _ => rfl) enough enoughSlots

/-- In a heap of objects, the visits of `go` set flags of headers only. -/
theorem ObjectGraph.keepsHeader {h : Heap} {objects bigs : List Nat} {headers pins : Nat → Prop}
    {b : Nat} {t : Traversal} (graph : ObjectGraph h objects bigs headers) (mem : b ∈ objects)
    (header : ObjectHeader) (object : header.object = objectOf b)
    (shell : header.shell = shellOf h.mem b)
    (size : header.size = shellSize h.mem (shellOf h.mem b))
    (count : header.count = countOf h.mem b)
    (slots : header.slots = shellCount h.mem (shellOf h.mem b))
    (inRange : header.shell + 8 * (2 + header.slots) ≤ wordSpace)
    (marking : Marking headers pins h.mem t.heap.mem) :
    KeepsHeader (fun t : Traversal => t.heap.mem) goVisit (blockData b) header
      (fun t => Marking headers pins h.mem t.heap.mem) t where
  start := marking
  size := by
    rw [shell, size]
    exact (graph.shape marking mem).size
  slots := by
    rw [shell, slots]
    exact (graph.shape marking mem).slots
  shell t marking := by
    rw [shell]
    exact (graph.shape marking mem).shell
  count t marking := by
    rw [count]
    exact (graph.shape marking mem).count
  visit i iLess j jLess t marking := by
    have same : metaShell t.heap.mem (blockData b) = shellOf h.mem b :=
      (graph.shape marking mem).shell
    have word : header.offsetWord j = shellOf h.mem b + 8 * (2 + j) := by
      rw [← shell]
      apply Nat.mod_eq_of_lt
      omega
    have element : header.element i % wordSpace =
        (objectOf b + i * shellSize h.mem (shellOf h.mem b)) % wordSpace := by
      rw [ObjectHeader.element, Nat.mod_mod, object, size]
    have points := graph.pointsInto_slot mem (count ▸ iLess) (slots ▸ jLess) element marking
    rw [same, shellOffset, ← word] at points
    exact marking.andMark (goSlot_spec points).marking

/-- The loops of `go` and of `sweep` over an object visit each of its slots once if and only if the
indices count that far. -/
theorem scans_visitEverySlot_iff {metaAddr : Nat} {header : ObjectHeader}
    {goInv : Traversal → Prop} {fixInv : Memory → Prop} {t : Traversal} {m : Memory}
    (goKeeps : KeepsHeader (fun t : Traversal => t.heap.mem) goVisit metaAddr header goInv t)
    (fixKeeps : KeepsHeader id fixVisit metaAddr header fixInv m) :
    VisitsEverySlot (fun t : Traversal => t.heap.mem) goVisit metaAddr header t ∧
        VisitsEverySlot id fixVisit metaAddr header m ↔
      header.count = 0 ∨ header.slots = 0 ∨
        (header.count ≤ 2 ^ 31 ∧ header.slots ≤ 2 ^ 31 - 2) := by
  rw [visitsEverySlot_iff goKeeps, visitsEverySlot_iff fixKeeps, and_self]

/-- An array of `gc_ptr`s that are null: the shell is at 64, the `base_meta` at 1000. -/
def nullArray (count : Nat) : Memory := fun x =>
  if x = 64 then 8 else if x = 72 then 1 else if x = 1008 then 64 else if x = 1016 then count else 0

def nullArrayHeader (count : Nat) (inRange : count < 2 ^ 64) : ObjectHeader where
  object := 1024
  shell := 64
  size := 8
  count := count
  slots := 1
  object_lt := by decide
  count_lt := inRange
  slots_lt := by decide

theorem nullArray_slot {count i : Nat} (inRange : count < 2 ^ 32) (less : i < count)
    (value : Nat) : nullArray value (ptrAdd ((nullArrayHeader count (by omega)).element i)
      (nullArray value ((nullArrayHeader count (by omega)).offsetWord 0))) = 0 := by
  have word : (nullArrayHeader count (by omega)).offsetWord 0 = 80 := rfl
  have offset : nullArray value 80 = 0 := rfl
  have address : (nullArrayHeader count (by omega)).element i = 1024 + i * 8 :=
    Nat.mod_eq_of_lt (by simp only [nullArrayHeader, wordSpace]; omega)
  have fits : 1024 + i * 8 + 0 < wordSpace := by
    simp only [wordSpace]
    omega
  rw [word, offset, address, ptrAdd_of_lt fits, Nat.add_zero]
  simp only [nullArray]
  rw [if_neg (by omega), if_neg (by omega), if_neg (by omega), if_neg (by omega)]

/-- A visit of a null slot does nothing. -/
theorem nullArray_keeps {count : Nat} (inRange : count < 2 ^ 32) :
    KeepsHeader (fun t : Traversal => t.heap.mem) goVisit 1000 (nullArrayHeader count (by omega))
        (· = ⟨{ mem := nullArray count }, [], false⟩) ⟨{ mem := nullArray count }, [], false⟩ ∧
      KeepsHeader id fixVisit 1000 (nullArrayHeader count (by omega)) (· = nullArray count)
        (nullArray count) := by
  constructor
  · refine ⟨rfl, rfl, rfl, ?_, ?_, ?_⟩
    · rintro _ rfl
      rfl
    · rintro _ rfl
      rfl
    · rintro i less j first _ rfl
      have zero : j = 0 := Nat.lt_one_iff.mp first
      subst zero
      have null := nullArray_slot inRange less count
      simp only [goVisit, goSlot, getNextObj, null]
      rfl
  · refine ⟨rfl, rfl, rfl, ?_, ?_, ?_⟩
    · rintro _ rfl
      rfl
    · rintro _ rfl
      rfl
    · rintro i less j first _ rfl
      have zero : j = 0 := Nat.lt_one_iff.mp first
      subst zero
      have null := nullArray_slot inRange less count
      simp only [fixVisit, fixPtr, getNextObj, null]
      split <;> rfl

theorem scans_visitEverySlot_iff_nullArray :
    VisitsEverySlot (fun t : Traversal => t.heap.mem) goVisit 1000
        (nullArrayHeader 3 (by decide)) ⟨{ mem := nullArray 3 }, [], false⟩ ∧
      VisitsEverySlot id fixVisit 1000 (nullArrayHeader 3 (by decide)) (nullArray 3) :=
  (scans_visitEverySlot_iff (nullArray_keeps (by decide)).1 (nullArray_keeps (by decide)).2).mpr
    (Or.inr (Or.inr ⟨by decide, by decide⟩))

/-- Neither loop comes to the last element of a larger array. -/
theorem scans_missLastElement :
    ¬(VisitsEverySlot (fun t : Traversal => t.heap.mem) goVisit 1000
        (nullArrayHeader (2 ^ 31 + 1) (by decide)) ⟨{ mem := nullArray (2 ^ 31 + 1) }, [], false⟩ ∨
      VisitsEverySlot id fixVisit 1000 (nullArrayHeader (2 ^ 31 + 1) (by decide))
        (nullArray (2 ^ 31 + 1))) := by
  rw [visitsEverySlot_iff (nullArray_keeps (by decide)).1,
    visitsEverySlot_iff (nullArray_keeps (by decide)).2]
  simp [nullArrayHeader]

end PreciseGc

import PreciseGc.Heap.Objects
import PreciseGc.Mark.Traversal

/-!
# What a traversal changes

A traversal sets flags in block headers and nothing else, so that the objects,
their slots and the pointers in them are the same at every point of it.  It
terminates because every object it pops is either unmarked, and then marked,
or has its successors pushed unmarked on top of the stack.
-/

namespace PreciseGc

open Foundation Memory

/-- The memory `m'` differs from `m` in flags of the words `headers` only: some of these words have
become marked, and those in `pins` have become pinned. -/
structure Marking (headers pins : Nat → Prop) (m m' : Memory) : Prop where
  others : ∀ x, ¬headers x → m' x = m x
  size : ∀ x, blockSize (m' x) = blockSize (m x)
  dead : ∀ x, blockIsDead (m' x) = blockIsDead (m x)
  marked : ∀ x, blockIsMarked (m x) = true → blockIsMarked (m' x) = true
  pinned : ∀ x, blockIsPinned (m' x) = true ↔ blockIsPinned (m x) = true ∨ pins x

namespace Marking

variable {headers pins pins' : Nat → Prop} {m m' m'' : Memory} {b : Nat}

theorem refl (headers : Nat → Prop) (m : Memory) : Marking headers (fun _ => False) m m where
  others _ _ := rfl
  size _ := rfl
  dead _ := rfl
  marked _ holds := holds
  pinned x := by simp

theorem trans (first : Marking headers pins m m') (second : Marking headers pins' m' m'') :
    Marking headers (fun x => pins x ∨ pins' x) m m'' where
  others x notHeader := (second.others x notHeader).trans (first.others x notHeader)
  size x := (second.size x).trans (first.size x)
  dead x := (second.dead x).trans (first.dead x)
  marked x holds := second.marked x (first.marked x holds)
  pinned x := by rw [second.pinned, first.pinned, or_assoc]

theorem congr (marking : Marking headers pins m m') (same : ∀ x, pins x ↔ pins' x) :
    Marking headers pins' m m' :=
  { marking with pinned := fun x => by rw [marking.pinned, same] }

/-- Composition with a marking that pins nothing. -/
theorem andMark (first : Marking headers pins m m')
    (second : Marking headers (fun _ => False) m' m'') : Marking headers pins m m'' :=
  (first.trans second).congr fun x => by simp

theorem mark (isHeader : headers b) :
    Marking headers (fun _ => False) m (mark (blockData b) m) := by
  have header : getBlock (blockData b) = b := by simp [getBlock, blockData]
  unfold PreciseGc.mark
  rw [header]
  rcases flags_markBlock (m b) with ⟨pinned, marked, dead⟩
  refine ⟨?_, ?_, ?_, ?_, ?_⟩
  · intro x notHeader
    apply write_of_ne
    rintro rfl
    exact notHeader isHeader
  all_goals
    intro x
    by_cases same : x = b
    · subst same
      rw [write_same]
      simp [pinned, marked, dead]
    · simp [write_of_ne same]

theorem pin (isHeader : headers b) : Marking headers (fun x => x = b) m (pin (blockData b) m) := by
  have header : getBlock (blockData b) = b := by simp [getBlock, blockData]
  unfold PreciseGc.pin
  rw [header]
  rcases flags_pinBlock (m b) with ⟨pinned, marked, dead⟩
  refine ⟨?_, ?_, ?_, ?_, ?_⟩
  · intro x notHeader
    apply write_of_ne
    rintro rfl
    exact notHeader isHeader
  all_goals
    intro x
    by_cases same : x = b
    · subst same
      rw [write_same]
      simp [pinned, marked, dead]
    · simp [write_of_ne same, same]

end Marking

theorem getMark_blockData (b : Nat) (m : Memory) : getMark (blockData b) m =
    blockIsMarked (m b) := by
  simp [getMark, getBlock, blockData]

theorem getMetaInf_objectOf (b : Nat) : getMetaInf (objectOf b) = blockData b := by
  simp [getMetaInf, objectOf, toGetMetaInf]

theorem blockIsMarked_mark (b : Nat) (m : Memory) :
    blockIsMarked (mark (blockData b) m b) = true := by
  have header : getBlock (blockData b) = b := by simp [getBlock, blockData]
  unfold mark
  rw [header, write_same]
  exact (flags_markBlock (m b)).2.1

/-- The address lies in a mapping of pages or in a big block. -/
def InHeap (h : Heap) (bigs : List Nat) (ptr : Nat) : Prop :=
  (∃ part ∈ h.parts, part.start ≤ ptr ∧ ptr ≤ part.stop) ∨
    ∃ bb ∈ bigs, bb ≤ ptr ∧ ptr < bigData bb + blockSize (h.mem (bigHeader bb))

/-- The pointer word is null, designates an object, or is a composite pointer whose record is no
object and has an object for its base. -/
def PointsInto (m : Memory) (objects : List Nat) (headers : Nat → Prop) (w : Nat) : Prop :=
  IsNull w ∨ (∃ b ∈ objects, Designates w b) ∨
    ∃ r, headers r ∧ r ∉ objects ∧ ¬headers (r + 16) ∧ isCompositePointer w = true ∧
      clearBothFlags w = blockData r ∧ ∃ b ∈ objects, compositeBase m (blockData r) = objectOf b

/-- The pointer word leads to the object of `b`: it designates the object, or its record has the
object for base. -/
def Leads (m : Memory) (w b : Nat) : Prop :=
  Designates w b ∨ isCompositePointer w = true ∧ clearBothFlags w ≠ 0 ∧
    compositeBase m (clearBothFlags w) = objectOf b

/-- The blocks `objects` hold objects whose pointers lead to objects, and `headers` are the words
whose flags a traversal may set. -/
structure ObjectGraph (h : Heap) (objects bigs : List Nat) (headers : Nat → Prop) : Prop where
  header : ∀ b ∈ objects, headers b
  object : ∀ b ∈ objects, GcObject h.mem (fun x => ¬headers x) b
  dataApart : ∀ b ∈ objects, ∀ x, b < x → x < b + 8 + blockSize (h.mem b) → ¬headers x
  bounded : ∀ b ∈ objects, b + 8 + blockSize (h.mem b) ≤ wordSpace
  bigChain : Chain (bigNext h.mem) h.firstBigBlock bigs
  bigApart : ∀ big ∈ bigs, ¬headers big
  inHeap : ∀ b ∈ objects, InHeap h bigs (objectOf b)
  pointer : ∀ b ∈ objects, ∀ x ∈ slotsOf h.mem b, PointsInto h.mem objects headers (h.mem x)

/-- The fuel that a traversal of the graph needs at most. -/
structure GoFuel (fuel : Nat) (h : Heap) (objects bigs : List Nat) : Prop where
  bigs : bigs.length < fuel
  pops : (objects.length + 1) * (maxStackSize + 2) ≤ fuel
  counts : ∀ b ∈ objects, shellCount h.mem (shellOf h.mem b) ≠ 0 → countOf h.mem b < fuel

section Membership

variable {h : Heap} {bigs : List Nat} {ptr fuel : Nat}

theorem findBigBlock_spec {m : Memory} {bb : Nat} (chain : Chain (bigNext m) bb bigs)
    (enough : bigs.length < fuel) :
    ∃ found, findBigBlock m ptr fuel bb = .ok found ∧
      (found = true ↔ ∃ bb ∈ bigs, bb ≤ ptr ∧ ptr < bigData bb + blockSize (m (bigHeader bb))) := by
  induction bigs generalizing fuel bb with
  | nil =>
      cases fuel with
      | zero => omega
      | succ fuel =>
          have null : bb = 0 := chain
          exact ⟨false, by simp [findBigBlock, null], by simp⟩
  | cons big bigs ih =>
      cases fuel with
      | zero => omega
      | succ fuel =>
          rcases chain with ⟨rfl, nonnull, chain⟩
          rw [findBigBlock, if_neg nonnull]
          split
          · rename_i inside
            simp only [Bool.and_eq_true, decide_eq_true_eq] at inside
            exact ⟨true, rfl, by simp [inside]⟩
          · rename_i outside
            have enough' : bigs.length < fuel := Nat.lt_of_succ_lt_succ enough
            rcases ih chain enough' with ⟨found, eq, iff⟩
            refine ⟨found, eq, iff.trans ?_⟩
            simp only [Bool.and_eq_true, decide_eq_true_eq] at outside
            simp [outside]

theorem isHeapPointer_spec (chain : Chain (bigNext h.mem) h.firstBigBlock bigs)
    (enough : bigs.length < fuel) :
    ∃ found, isHeapPointer fuel ptr h = .ok found ∧ (found = true ↔ InHeap h bigs ptr) := by
  unfold isHeapPointer
  split
  · rename_i inPart
    refine ⟨true, rfl, ?_⟩
    simp only [List.any_eq_true, Bool.and_eq_true, decide_eq_true_eq] at inPart
    simp [InHeap, inPart]
  · rename_i notInPart
    rcases findBigBlock_spec chain enough with ⟨found, eq, iff⟩
    refine ⟨found, eq, iff.trans ?_⟩
    simp only [List.any_eq_true, Bool.and_eq_true, decide_eq_true_eq] at notInPart
    simp [InHeap, notInPart]

end Membership

namespace ObjectGraph

variable {h : Heap} {objects bigs : List Nat} {headers pins : Nat → Prop} {m : Memory} {b x : Nat}

theorem metaEq (graph : ObjectGraph h objects bigs headers) (marking : Marking headers pins h.mem m)
    (mem : b ∈ objects) {o : Nat} (less : o < 24) : m (b + 8 + o) = h.mem (b + 8 + o) := by
  have room := (graph.object b mem).room
  exact marking.others _ (graph.dataApart b mem _ (by omega) (by omega))

/-- The shape of an object does not change. -/
theorem shape (graph : ObjectGraph h objects bigs headers) (marking : Marking headers pins h.mem m)
    (mem : b ∈ objects) : SameShape h.mem b m b := by
  apply SameShape.of_agree
  · exact fun o less => graph.metaEq marking mem less
  · exact fun x lower upper => marking.others x ((graph.object b mem).shellApart x lower upper)

/-- The slots of an object stay where they are. -/
theorem slotsOf_eq (graph : ObjectGraph h objects bigs headers)
    (marking : Marking headers pins h.mem m) (mem : b ∈ objects) :
    slotsOf m b = slotsOf h.mem b := by
  rw [(graph.shape marking mem).slotsOf_eq]
  have kept : ∀ y ∈ slotsOf h.mem b, y - b + b = id y := by
    intro y yMem
    have := (graph.object b mem).slot_bounds yMem
    rw [id_eq]
    omega
  rw [List.map_congr_left kept, List.map_id]

/-- The slots of an object are no headers. -/
theorem slot_notHeader (graph : ObjectGraph h objects bigs headers) (mem : b ∈ objects)
    (slot : x ∈ slotsOf h.mem b) : ¬headers x := by
  have bounds := (graph.object b mem).slot_bounds slot
  exact graph.dataApart b mem x (by omega) (by omega)

/-- A pointer word leads to the same object throughout. -/
theorem pointsInto (marking : Marking headers pins h.mem m) {w : Nat}
    (points : PointsInto h.mem objects headers w) : PointsInto m objects headers w := by
  rcases points with null | plain
    | ⟨r, isHeader, notObject, notHeader, composite, record, b, mem, base⟩
  · exact Or.inl null
  · exact Or.inr (Or.inl plain)
  · refine Or.inr (Or.inr ⟨r, isHeader, notObject, notHeader, composite, record, b, mem, ?_⟩)
    rw [← base]
    exact marking.others (r + 16) notHeader

/-- It leads to nothing else. -/
theorem leads_mem {w d : Nat} (points : PointsInto m objects headers w) (leads : Leads m w d) :
    d ∈ objects := by
  rcases points with null | ⟨b, mem, designates⟩ | ⟨r, _, _, _, composite, record, b, mem, base⟩
  · rcases leads with designates | ⟨composite, _, _⟩
    · have zero : objectOf d = 0 := designates.2.symm.trans null.2
      simp [objectOf_eq] at zero
    · simp [null.1] at composite
  · rcases leads with designates' | ⟨composite, _, _⟩
    · rw [designates'.unique designates]
      exact mem
    · simp [designates.1] at composite
  · rcases leads with designates | ⟨_, _, target⟩
    · simp [designates.1] at composite
    · rw [record, base] at target
      rw [← objectOf_inj target]
      exact mem

theorem leads_iff (marking : Marking headers pins h.mem m) {w d : Nat}
    (points : PointsInto h.mem objects headers w) : Leads m w d ↔ Leads h.mem w d := by
  rcases points with null | ⟨b, _, designates⟩ | ⟨r, _, _, notHeader, _, record, _⟩
  · simp [Leads, null.1]
  · simp [Leads, designates.1]
  · have kept : compositeBase m (clearBothFlags w) = compositeBase h.mem (clearBothFlags w) := by
      rw [record]
      exact marking.others (r + 16) notHeader
    simp only [Leads, kept]

/-- The graph of the heap after a marking is the same. -/
theorem marking (graph : ObjectGraph h objects bigs headers)
    (marking : Marking headers pins h.mem m) :
    ObjectGraph { h with mem := m } objects bigs headers where
  header := graph.header
  object b mem :=
    (graph.shape marking mem).gcObject (graph.object b mem) (marking.size b) fun _ apart => apart
  dataApart b mem := by
    dsimp only
    rw [marking.size]
    exact graph.dataApart b mem
  bounded b mem := by
    dsimp only
    rw [marking.size]
    exact graph.bounded b mem
  bigChain := graph.bigChain.congr fun big mem => marking.others big (graph.bigApart big mem)
  bigApart := graph.bigApart
  inHeap b mem := by
    rcases graph.inHeap b mem with inPart | ⟨bb, bbMem, lower, upper⟩
    · exact Or.inl inPart
    · refine Or.inr ⟨bb, bbMem, lower, ?_⟩
      dsimp only
      rw [marking.size]
      exact upper
  pointer b mem x slot := by
    rw [graph.slotsOf_eq marking mem] at slot
    dsimp only
    rw [marking.others x (graph.slot_notHeader mem slot)]
    exact pointsInto marking (graph.pointer b mem x slot)

end ObjectGraph

theorem GoFuel.marking {fuel : Nat} {h : Heap} {objects bigs : List Nat} {headers pins : Nat → Prop}
    {m : Memory} (enough : GoFuel fuel h objects bigs) (graph : ObjectGraph h objects bigs headers)
    (marking : Marking headers pins h.mem m) : GoFuel fuel { h with mem := m } objects bigs where
  bigs := enough.bigs
  pops := enough.pops
  counts b mem := by
    have same := graph.shape marking mem
    dsimp only
    rw [same.shell, same.slots, same.count]
    exact enough.counts b mem

end PreciseGc

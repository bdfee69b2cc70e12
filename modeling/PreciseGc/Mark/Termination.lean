import Mathlib.Algebra.Order.BigOperators.Group.List
import Mathlib.Algebra.Order.Group.Nat
import PreciseGc.Mark.Exactness

/-!
# Termination of the traversal

`go` terminates on every object graph, whatever is marked at its start and
whatever is pushed twice or dropped.  A start pointer that is no object makes
it read arbitrary words as metadata.  It terminates even then, provided it
cannot take the link of a big block for a header and set a flag in it: marks
are only ever set, and until the next one is set, a popped entry is replaced by
entries that are not marked.
-/

namespace PreciseGc

open Foundation Memory

variable {h : Heap} {bigs : List Nat} {t t' t'' : Traversal} {m m' : Memory} {fuel : Nat}

/-- Whatever flags it carries, the word is not the address of the data, or of the object, behind
a header that would lie at the link of a big block. -/
def MissesLinks (bigs : List Nat) (w : Nat) : Prop :=
  ∀ big ∈ bigs, octets w ≠ octets (blockData big) ∧ octets w ≠ octets (objectOf big)

/-- A memory of machine words, none of which leads to the link of a big block. -/
structure Roamable (bigs : List Nat) (h : Heap) : Prop where
  word : ∀ x, h.mem x < wordSpace
  chain : Chain (bigNext h.mem) h.firstBigBlock bigs
  misses : ∀ x, MissesLinks bigs (h.mem x)

/-- The memory `m'` is `m` after some words have been marked: none of them, or fewer words are
unmarked now. -/
def MarksMore (m m' : Memory) : Prop :=
  m' = m ∨ unmarkedCount (List.range wordSpace) m' < unmarkedCount (List.range wordSpace) m

theorem MarksMore.trans {m'' : Memory} (first : MarksMore m m') (second : MarksMore m' m'') :
    MarksMore m m'' := by
  rcases first with rfl | fewer
  · exact second
  · rcases second with rfl | fewer'
    · exact Or.inr fewer
    · exact Or.inr (by omega)

/-- A memory that is the same in the end has been the same in between. -/
theorem MarksMore.between {m'' : Memory} (first : MarksMore m m') (second : MarksMore m' m'')
    (same : m'' = m) : m' = m := by
  subst same
  rcases first with rfl | fewer
  · rfl
  · rcases second with same | fewer'
    · exact same.symm
    · omega

theorem MissesLinks.congr {w w' : Nat} (misses : MissesLinks bigs w) (same : octets w' = octets w) :
    MissesLinks bigs w' := by
  intro big mem
  rw [same]
  exact misses big mem

namespace Roamable

/-- Setting a flag in a word that is no link. -/
theorem setFlag (roamable : Roamable bigs h) {a flag : Nat} (noLink : a ∉ bigs) (small : flag < 8) :
    Roamable bigs { h with mem := h.mem.write a (h.mem a ||| flag) } where
  word x := by
    by_cases same : x = a
    · subst same
      dsimp only
      rw [write_same]
      exact Nat.or_lt_two_pow (roamable.word x) (by omega)
    · dsimp only
      rw [write_of_ne same]
      exact roamable.word x
  chain := by
    apply roamable.chain.congr
    intro big mem
    apply write_of_ne
    rintro rfl
    exact noLink mem
  misses x := by
    by_cases same : x = a
    · subst same
      dsimp only
      rw [write_same]
      exact (roamable.misses x).congr (octets_or small _)
    · dsimp only
      rw [write_of_ne same]
      exact roamable.misses x

theorem link_pos (roamable : Roamable bigs h) {big : Nat} (mem : big ∈ bigs) : 0 < big :=
  Nat.pos_of_ne_zero (roamable.chain.ne_zero mem)

/-- The header in front of a pointer that misses the links is no link. -/
theorem header_notLink (roamable : Roamable bigs h) {p : Nat} (misses : MissesLinks bigs p) :
    getBlock (getMetaInf p) ∉ bigs := by
  intro mem
  have pos := roamable.link_pos mem
  have same : objectOf (getBlock (getMetaInf p)) = p := by
    simp only [getBlock, getMetaInf, sizeofBlock, sizeofBaseMeta, objectOf_eq] at pos ⊢
    omega
  have apart := (misses _ mem).2
  rw [same] at apart
  exact apart rfl

/-- The header of a record is no link. -/
theorem record_notLink (roamable : Roamable bigs h) {w : Nat} (misses : MissesLinks bigs w) :
    getBlock (clearBothFlags w) ∉ bigs := by
  intro mem
  have pos := roamable.link_pos mem
  have same : blockData (getBlock (clearBothFlags w)) = clearBothFlags w := by
    simp only [getBlock, blockData, sizeofBlock] at pos ⊢
    omega
  have apart := (misses _ mem).1
  rw [same] at apart
  exact apart (octets_clear (by decide) w).symm

end Roamable

theorem markBlock_of_marked {w : Nat} (marked : blockIsMarked w = true) : markBlock w = w := by
  have high : markBlock w / 8 = w / 8 := or_div_eight (by decide) w
  have low : markBlock w % 8 = w % 8 := by
    have residue : markBlock w % 8 = w % 8 ||| markFlag := or_mod_eight (by decide) w
    rw [residue]
    rw [(flags_residue w).2.1] at marked
    have small := Nat.mod_lt w (by decide : 0 < 8)
    generalize w % 8 = r at marked small
    have each : ∀ r < 8, blockIsMarked r = true → r ||| markFlag = r := by decide
    exact each r small marked
  omega

/-- Marking a word of the address space. -/
theorem marksMore_mark {ptr : Nat} (inside : getBlock ptr < wordSpace) :
    MarksMore m (mark ptr m) := by
  unfold mark
  cases already : blockIsMarked (m (getBlock ptr)) with
  | true =>
      left
      rw [markBlock_of_marked already]
      exact write_eq_self m _
  | false =>
      right
      have marked : blockIsMarked (m.write (getBlock ptr) (markBlock (m (getBlock ptr)))
          (getBlock ptr)) = true := by
        rw [write_same]
        exact (flags_markBlock _).2.1
      apply unmarkedCount_lt (List.mem_range.mpr inside) already marked
      exact fun d different => write_of_ne different

/-- Scanning marks words, and pushes pointers to headers that are not marked before, unless it has
marked something. -/
structure Roams (bigs : List Nat) (t t' : Traversal) : Prop where
  heapEq : t'.heap = { t.heap with mem := t'.heap.mem }
  roamable : Roamable bigs t'.heap
  sizes : ∀ x, blockSize (t'.heap.mem x) = blockSize (t.heap.mem x)
  marks : MarksMore t.heap.mem t'.heap.mem
  stack : ∃ pushed, t'.stack = pushed ++ t.stack ∧ ∀ p ∈ pushed, p < wordSpace ∧
    MissesLinks bigs p ∧
      (t'.heap.mem = t.heap.mem → getMark (getMetaInf p) t.heap.mem = false)
  height : t.stack.length ≤ maxStackSize → t'.stack.length ≤ maxStackSize

namespace Roams

theorem refl (roamable : Roamable bigs t.heap) : Roams bigs t t where
  heapEq := rfl
  roamable := roamable
  sizes _ := rfl
  marks := Or.inl rfl
  stack := ⟨[], rfl, by simp⟩
  height := id

theorem trans (first : Roams bigs t t') (second : Roams bigs t' t'') : Roams bigs t t'' where
  heapEq := by rw [second.heapEq, first.heapEq]
  roamable := second.roamable
  sizes x := (second.sizes x).trans (first.sizes x)
  marks := first.marks.trans second.marks
  stack := by
    rcases first.stack with ⟨pushed, eq, unmarked⟩
    rcases second.stack with ⟨pushed', eq', unmarked'⟩
    refine ⟨pushed' ++ pushed, by rw [eq', eq, List.append_assoc], fun p mem => ?_⟩
    rcases List.mem_append.mp mem with mem | mem
    · rcases unmarked' p mem with ⟨inside, misses, notMarked⟩
      refine ⟨inside, misses, fun same => ?_⟩
      have between := first.marks.between second.marks same
      rw [← between]
      exact notMarked (same.trans between.symm)
    · rcases unmarked p mem with ⟨inside, misses, notMarked⟩
      exact ⟨inside, misses, fun same => notMarked (first.marks.between second.marks same)⟩
  height bounded := second.height (first.height bounded)

/-- Marking the header in front of a data address. -/
theorem mark (roamable : Roamable bigs t.heap) {ptr : Nat} (inside : getBlock ptr < wordSpace)
    (noLink : getBlock ptr ∉ bigs) : Roams bigs t (t.withMem (mark ptr t.heap.mem)) where
  heapEq := rfl
  roamable := roamable.setFlag noLink (by decide)
  sizes x := by
    unfold Traversal.withMem PreciseGc.mark
    by_cases same : x = getBlock ptr
    · subst same
      simp
    · simp [write_of_ne same]
  marks := marksMore_mark inside
  stack := ⟨[], rfl, by simp⟩
  height := id

end Roams

theorem clear_le (w f : Nat) : clear w f ≤ w := Nat.sub_le _ _

/-- Following a pointer word. -/
theorem getNextObj_roams (roamable : Roamable bigs t.heap) (slot : Nat) :
    Roams bigs t (t.withMem (getNextObj slot t.heap.mem).2) ∧
      (getNextObj slot t.heap.mem).1 < wordSpace ∧
        MissesLinks bigs (getNextObj slot t.heap.mem).1 := by
  have word := roamable.word slot
  have misses := roamable.misses slot
  unfold getNextObj getPtr
  split
  · rename_i null
    refine ⟨Roams.refl roamable, show 0 < wordSpace by decide, misses.congr ?_⟩
    calc octets 0 = octets (clearBothFlags (t.heap.mem slot)) := by rw [null]
      _ = octets (t.heap.mem slot) := octets_clear (by decide) _
  · split
    · have small : getBlock (clearBothFlags (t.heap.mem slot)) < wordSpace := by
        have := clear_le (t.heap.mem slot) bothBits
        unfold getBlock clearBothFlags
        omega
      have marked : Roams bigs t (t.withMem (mark (clearBothFlags (t.heap.mem slot)) t.heap.mem)) :=
        Roams.mark roamable small (roamable.record_notLink misses)
      exact ⟨marked, marked.roamable.word _, marked.roamable.misses _⟩
    · have small := clear_le (t.heap.mem slot) stackBit
      refine ⟨Roams.refl roamable, ?_, misses.congr (octets_clear (by decide) _)⟩
      unfold clearStackFlag
      omega

/-- A slot. -/
theorem goSlot_roams (roamable : Roamable bigs t.heap) (slot : Nat) :
    Roams bigs t (goSlot slot t) := by
  rcases getNextObj_roams roamable slot with ⟨read, inside, misses⟩
  unfold goSlot
  dsimp only
  split
  · rename_i followed
    simp only [Bool.and_eq_true, Bool.not_eq_true'] at followed
    apply read.trans
    unfold push
    split
    · exact
        { heapEq := rfl, roamable := read.roamable, sizes := fun _ => rfl, marks := Or.inl rfl,
          stack := ⟨[], rfl, by simp⟩, height := id }
    · rename_i room
      refine
        { heapEq := rfl, roamable := read.roamable, sizes := fun _ => rfl, marks := Or.inl rfl,
          stack := ⟨[_], rfl, fun p mem => ?_⟩, height := fun _ => ?_ }
      · rw [List.mem_singleton.mp mem]
        exact ⟨inside, misses, fun _ => followed.2⟩
      · simp only [List.length_cons]
        omega
  · exact read

theorem goSlots_roams (roamable : Roamable bigs t.heap) (metaAddr v count j : Nat) :
    Roams bigs t (goSlots metaAddr v count j t) := by
  induction count generalizing j t with
  | zero => exact Roams.refl roamable
  | succ count ih =>
      rw [goSlots]
      have first := goSlot_roams roamable
        (ptrAdd v (shellOffset t.heap.mem (metaShell t.heap.mem metaAddr) j))
      exact first.trans (ih first.roamable (j + 1))

/-- The number of elements is a machine word: the loop over the elements ends. -/
theorem goElements_roams (roamable : Roamable bigs t.heap) (metaAddr size count : Nat) {i v : Nat}
    (enough : wordSpace < fuel + i) (some : 0 < fuel) :
    ∃ t', goElements metaAddr size count fuel i v t = .ok t' ∧ Roams bigs t t' := by
  induction fuel generalizing i v t with
  | zero => omega
  | succ fuel ih =>
      rw [goElements]
      split
      · rename_i running
        have word : metaCount t.heap.mem metaAddr < wordSpace := roamable.word _
        have scanned := goSlots_roams roamable metaAddr v count 0
        rcases ih scanned.roamable (i := i + 1) (v := ptrAdd v size) (by omega) (by omega) with
          ⟨t', eq, rest⟩
        exact ⟨t', eq, scanned.trans rest⟩
      · exact ⟨t, rfl, Roams.refl roamable⟩

/-- The entry `p` is skipped by the loop. -/
def Skipped (h : Heap) (bigs : List Nat) (p : Nat) : Prop := p = 0 ∨ ¬InHeap h bigs p

/-- The loop body, for an arbitrary popped pointer: it is skipped, or its header is marked. -/
theorem goObject_roams (roamable : Roamable bigs t.heap) {p : Nat} (inside : p < wordSpace)
    (misses : MissesLinks bigs p) (enoughBigs : bigs.length < fuel) (enough : wordSpace < fuel) :
    ∃ t', goObject fuel p t = .ok t' ∧ Roams bigs t t' ∧
      (Skipped t.heap bigs p ∧ t' = t ∨ ¬Skipped t.heap bigs p ∧
        (getMark (getMetaInf p) t.heap.mem = false →
          unmarkedCount (List.range wordSpace) t'.heap.mem <
            unmarkedCount (List.range wordSpace) t.heap.mem)) := by
  unfold goObject
  split
  · rename_i null
    exact ⟨t, rfl, Roams.refl roamable, Or.inl ⟨Or.inl null, rfl⟩⟩
  rename_i nonnull
  rcases @isHeapPointer_spec t.heap bigs p fuel roamable.chain enoughBigs with ⟨found, eq, iff⟩
  rw [eq]
  cases found with
  | false =>
      have outside : ¬InHeap t.heap bigs p := by
        intro inHeap
        have := iff.mpr inHeap
        contradiction
      exact ⟨t, rfl, Roams.refl roamable, Or.inl ⟨Or.inr outside, rfl⟩⟩
  | true =>
      have inHeap : InHeap t.heap bigs p := iff.mp rfl
      have live : ¬Skipped t.heap bigs p := by
        rintro (null | outside)
        · exact nonnull null
        · exact outside inHeap
      have header : getBlock (getMetaInf p) < wordSpace := by
        unfold getBlock getMetaInf
        omega
      have visits : ∃ t₁, (if !getMark (getMetaInf p) t.heap.mem then
          t.withMem (mark (getMetaInf p) t.heap.mem) else t) = t₁ ∧ Roams bigs t t₁ ∧
          (getMark (getMetaInf p) t.heap.mem = false → t₁.heap.mem ≠ t.heap.mem) := by
        cases already : getMark (getMetaInf p) t.heap.mem with
        | true => exact ⟨t, rfl, Roams.refl roamable, fun never => by cases never⟩
        | false =>
            refine ⟨_, rfl, Roams.mark roamable header (roamable.header_notLink misses), ?_⟩
            intro _ same
            have marked : blockIsMarked (mark (getMetaInf p) t.heap.mem (getBlock (getMetaInf p))) =
                true := by
              unfold mark
              rw [write_same]
              exact (flags_markBlock _).2.1
            have same' : mark (getMetaInf p) t.heap.mem = t.heap.mem := same
            rw [same'] at marked
            unfold getMark at already
            rw [marked] at already
            cases already
      rcases visits with ⟨t₁, visitEq, visit, changes⟩
      have scans : ∃ t', (if shellCount t₁.heap.mem (metaShell t₁.heap.mem (getMetaInf p)) = 0 then
          .ok t₁ else goElements (getMetaInf p)
            (shellSize t₁.heap.mem (metaShell t₁.heap.mem (getMetaInf p)))
            (shellCount t₁.heap.mem (metaShell t₁.heap.mem (getMetaInf p))) fuel 0 p t₁) = .ok t' ∧
          Roams bigs t₁ t' := by
        split
        · exact ⟨t₁, rfl, Roams.refl visit.roamable⟩
        · exact goElements_roams visit.roamable _ _ _ (by omega) (by omega)
      rcases scans with ⟨t', scanEq, scan⟩
      refine ⟨t', ?_, visit.trans scan, Or.inr ⟨live, fun unmarked => ?_⟩⟩
      · rw [← scanEq, ← visitEq]
        rfl
      · rcases (visit.trans scan).marks with same | fewer
        · exact absurd (visit.marks.between scan.marks same) (changes unmarked)
        · exact fewer

open Classical in
/-- The weight of the stack, up to the first entry that gets its header marked: an entry that is
skipped counts once, one with a marked header for all that it may push. -/
noncomputable def stackWeight (h : Heap) (bigs : List Nat) : List Nat → Nat
  | [] => 0
  | p :: rest =>
      if Skipped h bigs p then stackWeight h bigs rest + 1
      else if getMark (getMetaInf p) h.mem then stackWeight h bigs rest + (maxStackSize + 1)
      else 0

theorem stackWeight_le (h : Heap) (bigs stack : List Nat) :
    stackWeight h bigs stack ≤ (maxStackSize + 1) * stack.length := by
  induction stack with
  | nil => exact Nat.zero_le _
  | cons p rest ih =>
      rw [stackWeight, List.length_cons, Nat.mul_succ]
      split
      · omega
      · split
        · omega
        · omega

theorem stackWeight_append {pushed : List Nat} (rest : List Nat)
    (unmarked : ∀ p ∈ pushed, getMark (getMetaInf p) h.mem = false) :
    stackWeight h bigs (pushed ++ rest) ≤ pushed.length + stackWeight h bigs rest := by
  induction pushed with
  | nil => simp
  | cons p pushed ih =>
      have rest := ih fun q mem => unmarked q (List.mem_cons_of_mem _ mem)
      rw [List.cons_append, stackWeight, unmarked p List.mem_cons_self, List.length_cons]
      split
      · omega
      · simp

/-- The largest weight of a stack, and one more. -/
def weightBound : Nat := (maxStackSize + 1) * maxStackSize + 1

/-- The variant of the loop for arbitrary memories. -/
noncomputable def roamVariant (bigs : List Nat) (t : Traversal) : Nat :=
  unmarkedCount (List.range wordSpace) t.heap.mem * weightBound + stackWeight t.heap bigs t.stack

/-- What holds whenever the loop tests its condition. -/
structure Roaming (bigs : List Nat) (t : Traversal) : Prop where
  roamable : Roamable bigs t.heap
  entries : ∀ p ∈ t.stack, p < wordSpace ∧ MissesLinks bigs p
  height : t.stack.length ≤ maxStackSize

theorem Roaming.weight_lt (roaming : Roaming bigs t) :
    stackWeight t.heap bigs t.stack < weightBound := by
  have weight := stackWeight_le t.heap bigs t.stack
  have bounded : (maxStackSize + 1) * t.stack.length ≤ (maxStackSize + 1) * maxStackSize :=
    Nat.mul_le_mul_left _ roaming.height
  unfold weightBound
  omega

/-- A mark lowers the variant. -/
theorem Roaming.variant_lt (roaming : Roaming bigs t')
    (fewer : unmarkedCount (List.range wordSpace) t'.heap.mem <
      unmarkedCount (List.range wordSpace) t.heap.mem) : roamVariant bigs t' <
        roamVariant bigs t := by
  have weight := roaming.weight_lt
  have product : (unmarkedCount (List.range wordSpace) t'.heap.mem + 1) * weightBound ≤
      unmarkedCount (List.range wordSpace) t.heap.mem * weightBound :=
    Nat.mul_le_mul_right _ fewer
  rw [Nat.succ_mul] at product
  unfold roamVariant
  omega

/-- One iteration keeps the invariant and lowers the variant. -/
theorem Roaming.step (roaming : Roaming bigs t) (enoughBigs : bigs.length < fuel)
    (enough : wordSpace < fuel) {p : Nat} {rest : List Nat} (top : t.stack = p :: rest) :
    ∃ t', goObject fuel p { t with stack := rest } = .ok t' ∧ Roaming bigs t' ∧
      roamVariant bigs t' < roamVariant bigs t := by
  rcases roaming.entries p (by simp [top]) with ⟨inside, misses⟩
  have height := roaming.height
  rw [top, List.length_cons] at height
  rcases @goObject_roams bigs { t with stack := rest } fuel roaming.roamable p inside misses
    enoughBigs enough with ⟨t', eq, roams, popped⟩
  rcases roams.stack with ⟨pushed, stackEq, unmarked⟩
  dsimp only at stackEq unmarked popped
  have lower : t'.stack.length ≤ maxStackSize := by
    apply roams.height
    dsimp only
    omega
  have roaming' : Roaming bigs t' := by
    refine ⟨roams.roamable, fun q mem => ?_, lower⟩
    rw [stackEq] at mem
    rcases List.mem_append.mp mem with mem | mem
    · exact ⟨(unmarked q mem).1, (unmarked q mem).2.1⟩
    · apply roaming.entries
      rw [top]
      exact List.mem_cons_of_mem _ mem
  refine ⟨t', eq, roaming', ?_⟩
  rcases popped with ⟨skipped, rfl⟩ | ⟨live, fewer⟩
  · -- the entry is gone
    unfold roamVariant
    rw [top, stackWeight, if_pos skipped]
    dsimp only
    omega
  · cases marked : getMark (getMetaInf p) t.heap.mem with
    | false => exact roaming'.variant_lt (fewer marked)
    | true =>
        rcases roams.marks with same | fewer
        · -- the entry is replaced by entries that are not marked
          have heapSame : t'.heap = t.heap := by
            rw [roams.heapEq, same]
          have notMarked : ∀ q ∈ pushed, getMark (getMetaInf q) t.heap.mem = false :=
            fun q mem => (unmarked q mem).2.2 same
          have weight := @stackWeight_append t.heap bigs pushed rest notMarked
          rw [stackEq, List.length_append] at lower
          unfold roamVariant
          rw [heapSame, stackEq, top, stackWeight, if_neg live, if_pos marked]
          omega
        · exact roaming'.variant_lt fewer

/-- The loop of `go` terminates. -/
theorem goLoop_terminates (roaming : Roaming bigs t) (enoughBigs : bigs.length < fuel)
    (enough : wordSpace < fuel) (iterations : roamVariant bigs t < fuel) :
    ∃ t', goLoop fuel t = .ok t' := by
  have yields : Yields (fun _ => False) _ (goLoop fuel t) := walk_decreases
    (fun _ t => Roaming bigs t) (fun _ t => roamVariant bigs t) ?_ iterations roaming
  · rcases yields.total with ⟨t', eq, _⟩
    exact ⟨t', eq⟩
  · intro _ t roaming running
    cases top : t.stack with
    | nil => simp [top] at running
    | cons p rest =>
        rcases roaming.step enoughBigs enough top with ⟨t', eq, roaming', smaller⟩
        rw [List.headD_cons, List.tail_cons, eq]
        exact ⟨roaming', smaller⟩

section Start

variable {objects : List Nat} {headers : Nat → Prop}

/-- Enough fuel for all objects of a graph. -/
theorem exists_goFuel (h : Heap) (objects bigs : List Nat) :
    ∃ bound, ∀ fuel, bound ≤ fuel → GoFuel fuel h objects bigs := by
  refine ⟨bigs.length + (objects.length + 1) * (maxStackSize + 2) +
    (objects.map (countOf h.mem)).sum + 1, fun fuel enough => ⟨by omega, by omega, ?_⟩⟩
  intro b mem _
  have least : countOf h.mem b ≤ (objects.map (countOf h.mem)).sum :=
    List.le_sum_of_mem (List.mem_map_of_mem mem)
  omega

/-- The loop terminates when it starts at an arbitrary address. -/
theorem roamLoop_terminates (roamable : Roamable bigs h) {pointer : Nat}
    (inside : pointer < wordSpace) (misses : MissesLinks bigs pointer) (pinRoot : Bool) :
    ∃ bound, ∀ fuel, bound ≤ fuel → ∃ t, goLoop fuel
      ⟨{ h with mem := if pinRoot = true then pin (getMetaInf pointer) h.mem else h.mem },
        [pointer], false⟩ = .ok t := by
  have pinned : Roamable bigs
      { h with mem := if pinRoot = true then pin (getMetaInf pointer) h.mem else h.mem } := by
    cases pinRoot with
    | true => exact roamable.setFlag (roamable.header_notLink misses) (by decide)
    | false => exact roamable
  have roaming : Roaming bigs
      ⟨{ h with mem := if pinRoot = true then pin (getMetaInf pointer) h.mem else h.mem },
        [pointer], false⟩ :=
    { roamable := pinned,
      entries := fun p mem => by
        rw [List.mem_singleton.mp mem]
        exact ⟨inside, misses⟩
      height := show 1 ≤ maxStackSize by decide }
  generalize (⟨{ h with mem := _ }, [pointer], false⟩ : Traversal) = t at roaming ⊢
  exact ⟨wordSpace + bigs.length + roamVariant bigs t + 1, fun fuel more =>
    goLoop_terminates roaming (by omega) (by omega) (by omega)⟩

/-- What `go` can be called with: the null pointer, an address outside the heap, an object of the
graph, or any address at all if no word leads to the link of a big block. -/
def StartPointer (h : Heap) (objects bigs : List Nat) (pointer : Nat) : Prop :=
  pointer = 0 ∨ ¬InHeap h bigs pointer ∨ (∃ b ∈ objects, pointer = objectOf b) ∨
    Roamable bigs h ∧ pointer < wordSpace ∧ MissesLinks bigs pointer

/-- `go` terminates on every object graph, whatever is marked in it. -/
theorem go_terminates (graph : ObjectGraph h objects bigs headers) {pointer : Nat}
    (start : StartPointer h objects bigs pointer) (pinRoot : Bool) :
    ∃ bound, ∀ fuel, bound ≤ fuel → ∃ overflow h',
      go fuel pointer pinRoot h = .ok (overflow, h') := by
  by_cases null : pointer = 0
  · refine ⟨0, fun fuel _ => ⟨false, h, ?_⟩⟩
    rw [go, if_pos null]
  by_cases inHeap : InHeap h bigs pointer
  · rcases start with null' | outside | ⟨b, mem, rfl⟩ | ⟨roamable, inside, misses⟩
    · exact absurd null' null
    · exact absurd inHeap outside
    · rcases exists_goFuel h objects bigs with ⟨bound, enough⟩
      refine ⟨bound, fun fuel more => ?_⟩
      rcases go_spec graph (enough fuel more) mem pinRoot with ⟨overflow, h', eq, _⟩
      exact ⟨overflow, h', eq⟩
    · rcases roamLoop_terminates roamable inside misses pinRoot with ⟨bound, loops⟩
      refine ⟨bound + bigs.length + 1, fun fuel more => ?_⟩
      rcases loops fuel (by omega) with ⟨t, loopEq⟩
      rcases @isHeapPointer_spec h bigs pointer fuel graph.bigChain (by omega) with
        ⟨found, eq, iff⟩
      have isFound : found = true := iff.mpr inHeap
      refine ⟨t.overflow, t.heap, ?_⟩
      rw [go, if_neg null, eq, isFound]
      change (goLoop fuel _ >>= fun t => .ok (t.overflow, t.heap)) = _
      rw [loopEq]
      rfl
  · refine ⟨bigs.length + 1, fun fuel more => ⟨false, h, ?_⟩⟩
    rcases @isHeapPointer_spec h bigs pointer fuel graph.bigChain (by omega) with ⟨found, eq, iff⟩
    cases found with
    | false =>
        rw [go, if_neg null, eq]
        rfl
    | true => exact absurd (iff.mp rfl) inHeap

theorem largeArray_roamable : Roamable [131072] largeArray := by
  have words : ∀ x,
    largeArray.mem x ∈ [24 + 8 * (2 ^ 31 + 1), 4096, 2 ^ 31 + 1, 65584, 24, 8, 1, 0] := by
    intro x
    simp only [largeArray]
    grind
  refine ⟨fun x => ?_, largeArray_graph.bigChain, fun x => ?_⟩
  · have each : ∀ w ∈ [24 + 8 * (2 ^ 31 + 1), 4096, 2 ^ 31 + 1, 65584, 24, 8, 1, 0],
        w < wordSpace := by decide
    exact each _ (words x)
  · have each : ∀ w ∈ [24 + 8 * (2 ^ 31 + 1), 4096, 2 ^ 31 + 1, 65584, 24, 8, 1, 0],
        MissesLinks [131072] w := by
      unfold MissesLinks
      decide
    exact each _ (words x)

/-- An address in the free tail of the page, which holds no object. -/
theorem go_terminates_largeArray : ∃ bound, ∀ fuel, bound ≤ fuel → ∃ overflow h',
    go fuel 65640 true largeArray = .ok (overflow, h') := by
  have misses : MissesLinks [131072] 65640 := by
    unfold MissesLinks
    decide
  have start : StartPointer largeArray [131080, 65552] [131072] 65640 :=
    Or.inr (Or.inr (Or.inr ⟨largeArray_roamable, by decide, misses⟩))
  exact go_terminates largeArray_graph start true

end Start

end PreciseGc

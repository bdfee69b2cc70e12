import PreciseGc.Foundation.Approximation
import PreciseGc.Mark.StackBound
import PreciseGc.Roots.FakeRootReferences
import PreciseGc.Roots.Fuel
import PreciseGc.Roots.HandlerMarks

/-!
# What the mark phase marks

A mark phase without an overflow marks the objects that are reachable from its
roots, and no others: the objects hit by a word of a stack, and those to which
a `gc_ptr` registered in a `StackMap` or as a fake root leads.  There is no
overflow if the objects have no more slots than the mark stack has entries.
-/

namespace PreciseGc

open Foundation Memory Relation

variable {h₀ h : Heap} {t₀ t : DerefRoots} {objects bigs : List Nat}
  {headers pins roots roots' : Nat → Prop} {m : Memory} {b d fuel : Nat}
  {allowed : Fault → Prop} {chain : List RootHandler} {s : DerefRoots × Heap} {looked : List Nat}

/-- `go`, stopped where it would report an overflow. -/
def goFitting (fuel pointer : Nat) (pinRoot : Bool) (h : Heap) : Except Fault (Bool × Heap) :=
  go fuel pointer pinRoot h >>= fun r => if r.1 then .error .assertFailed else .ok r

/-- The collector of the library with this traversal. -/
def fitting (fuel : Nat) : Collector Heap := { collector fuel with go := fun _ => goFitting fuel }

/-- No traversal of the mark phase overflows. -/
def MarksFit (fuel : Nat) (threads : List ThreadHandler) (fakeRoots : FakeRoots)
    (s : DerefRoots × Heap) : Prop :=
  ∃ s', (fitting fuel).markRoots fuel threads fakeRoots s = .ok s'

theorem go_extends_fitting (fuel pointer : Nat) (pinRoot : Bool) (h : Heap) :
    Extends .assertFailed (goFitting fuel pointer pinRoot h) (go fuel pointer pinRoot h) := by
  unfold goFitting
  cases go fuel pointer pinRoot h with
  | error fault => exact Extends.refl _
  | ok r =>
      rcases r with ⟨overflow, h'⟩
      cases overflow with
      | false => exact Or.inr rfl
      | true => exact Or.inl rfl

/-- Each operation of the mark phase of `k'`, run with `fuel'`, extends that of `k`, run with
`fuel`. -/
structure Collector.ExtendedBy (exhausted : Fault) (fuel fuel' : Nat) (k k' : Collector Heap) :
    Prop where
  heap : k'.heap = k.heap
  withMem : k'.withMem = k.withMem
  go : ∀ site pointer pinRoot h,
    Extends exhausted (k.go site pointer pinRoot h) (k'.go site pointer pinRoot h)
  heapPointer : ∀ word h, Extends exhausted (isHeapPointer fuel word h) (isHeapPointer fuel' word h)
  rescan : ∀ overflow h, Extends exhausted (k.rescan fuel overflow h) (k'.rescan fuel' overflow h)

namespace Collector.ExtendedBy

variable {exhausted : Fault} {fuel fuel' : Nat} {k k' : Collector Heap}

theorem markChain (extended : ExtendedBy exhausted fuel fuel' k k') (root : Nat)
    (chain : List RootHandler) (h : Heap) :
    Extends exhausted (k.markChain root true chain h) (k'.markChain root true chain h) := by
  induction chain with
  | nil => exact Extends.refl _
  | cons curr next ih =>
      apply Extends.ite
      · apply Extends.ite _ (Extends.refl _)
        apply Extends.ite _ (Extends.refl _)
        exact (extended.go _ _ true h).bind fun _ => Extends.refl _
      · exact ih.bind fun _ => Extends.refl _

theorem markStack (extended : ExtendedBy exhausted fuel fuel' k k') (words : List Nat)
    (s : DerefRoots × Heap) :
    Extends exhausted (k.markStack fuel true words s) (k'.markStack fuel' true words s) := by
  induction words generalizing s with
  | nil => exact Extends.refl _
  | cons word words ih =>
      unfold Collector.markStack
      rw [extended.heap]
      apply (extended.heapPointer word _).bind
      intro inHeap
      apply Extends.ite _ (ih s)
      apply Extends.bind _ ih
      apply Extends.ite (Extends.refl _)
      exact (extended.markChain word _ s.2).bind fun _ => Extends.refl _

theorem goFrom (extended : ExtendedBy exhausted fuel fuel' k k') (site : CallSite) (addr : Nat)
    (h : Heap) : Extends exhausted (k.goFrom site addr h) (k'.goFrom site addr h) := by
  unfold Collector.goFrom
  rw [extended.heap, extended.withMem]
  exact extended.go _ _ _ _

theorem markStackMap (extended : ExtendedBy exhausted fuel fuel' k k') (addresses : List Nat)
    (s : Bool × Heap) :
    Extends exhausted (k.markStackMap addresses s) (k'.markStackMap addresses s) := by
  induction addresses generalizing s with
  | nil => exact Extends.refl _
  | cons root addresses ih => exact (extended.goFrom _ root _).bind fun _ => ih _

theorem markThreads (extended : ExtendedBy exhausted fuel fuel' k k') (threads : List ThreadHandler)
    (s : DerefRoots × Heap) :
    Extends exhausted (k.markThreads fuel threads s) (k'.markThreads fuel' threads s) := by
  induction threads generalizing s with
  | nil => exact Extends.refl _
  | cons thread threads ih =>
      apply Extends.bind _ ih
      apply (extended.markStack _ s).bind
      intro s
      apply (extended.markStackMap _ _).bind
      exact fun r => (extended.rescan r.1 r.2).bind fun _ => Extends.refl _

theorem markNode (extended : ExtendedBy exhausted fuel fuel' k k') (fakeRoots : FakeRoots)
    (h : Heap) : Extends exhausted (k.markNode fakeRoots h) (k'.markNode fakeRoots h) := by
  induction fakeRoots generalizing h with
  | null => exact Extends.refl _
  | node self addr height left right leftIh rightIh =>
      unfold Collector.markNode
      rw [extended.heap, extended.withMem]
      apply (extended.goFrom _ addr _).bind
      exact fun r => (leftIh r.2).bind fun h => rightIh h

/-- Then the whole mark phase is extended. -/
theorem markRoots (extended : ExtendedBy exhausted fuel fuel' k k') (threads : List ThreadHandler)
    (fakeRoots : FakeRoots) (s : DerefRoots × Heap) :
    Extends exhausted (k.markRoots fuel threads fakeRoots s)
      (k'.markRoots fuel' threads fakeRoots s) := by
  apply (extended.markThreads threads s).bind
  intro s
  exact (extended.markNode fakeRoots s.2).bind fun _ => Extends.refl _

end Collector.ExtendedBy

theorem rescan_fitting (rounds : Nat) (overflow : Bool) (h : Heap) :
    (fitting fuel).rescan rounds overflow h = (collector fuel).rescan rounds overflow h := by
  induction rounds generalizing overflow h with
  | zero => cases overflow <;> rfl
  | succ rounds ih =>
      cases overflow with
      | false => rfl
      | true => exact congrArg _ (funext fun r : Bool × Heap => ih r.1 r.2)

theorem fitting_extendedBy :
    (fitting fuel).ExtendedBy .assertFailed fuel fuel (collector fuel) := by
  refine ⟨rfl, rfl, fun _ => go_extends_fitting fuel, fun _ _ => Extends.refl _, ?_⟩
  intro overflow h
  rw [rescan_fitting]
  exact Extends.refl _

/-- Where no traversal overflows, the mark phase is the one of the library. -/
theorem markRoots_extends_fitting (threads : List ThreadHandler) (fakeRoots : FakeRoots)
    (s : DerefRoots × Heap) :
    Extends .assertFailed ((fitting fuel).markRoots fuel threads fakeRoots s)
      ((collector fuel).markRoots fuel threads fakeRoots s) :=
  fitting_extendedBy.markRoots threads fakeRoots s

/-- More fuel leads to no overflow. -/
theorem MarksFit.mono {threads : List ThreadHandler} {fakeRoots : FakeRoots} {fuel' : Nat}
    (fit : MarksFit fuel threads fakeRoots s) (more : fuel ≤ fuel') :
    MarksFit fuel' threads fakeRoots s := by
  rcases fit with ⟨s', eq⟩
  have extended : (fitting fuel).ExtendedBy .outOfFuel fuel fuel' (fitting fuel') := by
    refine ⟨rfl, rfl, fun _ pointer pinRoot h => ?_, isHeapPointer_extends more, ?_⟩
    · exact (go_extends more pointer pinRoot h).bind fun _ => Extends.refl _
    · intro overflow h
      rw [rescan_fitting, rescan_fitting]
      exact rescan_extends more more overflow h
  exact ⟨s', (extended.markRoots threads fakeRoots s).approximates s' eq⟩

/-- Pointers between objects stay as they are while flags are set. -/
theorem ObjectGraph.pointsTo_iff (graph : ObjectGraph h objects bigs headers)
    (marking : Marking headers pins h.mem m) (mem : b ∈ objects) :
    PointsTo m b d ↔ PointsTo h.mem b d := by
  unfold PointsTo
  rw [graph.slotsOf_eq marking mem]
  have each : ∀ x ∈ slotsOf h.mem b, Leads m (m x) d ↔ Leads h.mem (h.mem x) d := by
    intro x slot
    rw [marking.others x (graph.slot_notHeader mem slot)]
    exact ObjectGraph.leads_iff marking (graph.pointer b mem x slot)
  constructor
  · rintro ⟨x, slot, led⟩
    exact ⟨x, slot, (each x slot).mp led⟩
  · rintro ⟨x, slot, led⟩
    exact ⟨x, slot, (each x slot).mpr led⟩

theorem ObjectGraph.reaches_mem (graph : ObjectGraph h objects bigs headers) (mem : b ∈ objects)
    (reaches : Reaches h.mem b d) : d ∈ objects := by
  induction reaches with
  | refl => exact mem
  | tail _ points ih => exact graph.pointsTo_mem ih points

theorem ObjectGraph.reaches_iff (graph : ObjectGraph h objects bigs headers)
    (marking : Marking headers pins h.mem m) (mem : b ∈ objects) :
    Reaches m b d ↔ Reaches h.mem b d := by
  constructor
  · intro reaches
    induction reaches with
    | refl => exact ReflTransGen.refl
    | tail _ points ih =>
        exact ReflTransGen.tail ih
          ((graph.pointsTo_iff marking (graph.reaches_mem mem ih)).mp points)
  · intro reaches
    induction reaches with
    | refl => exact ReflTransGen.refl
    | tail before points ih =>
        exact ReflTransGen.tail ih
          ((graph.pointsTo_iff marking (graph.reaches_mem mem before)).mpr points)

/-- A traversal without an overflow marks exactly what is reachable from its root. -/
theorem go_reaches (graph : ObjectGraph h objects bigs headers)
    (enough : GoFuel fuel h objects bigs)
    (bMem : b ∈ objects) (closed : MarksClosed h objects) (pinRoot : Bool) :
    ∃ overflow h', go fuel (objectOf b) pinRoot h = .ok (overflow, h') ∧
      h' = { h with mem := h'.mem } ∧ (∃ pins, Marking headers pins h.mem h'.mem) ∧
        (overflow = false → MarksReachable objects b h.mem h'.mem) := by
  rcases go_explores graph enough bMem pinRoot with ⟨t, eq, inv, stackEq⟩
  exact ⟨t.overflow, t.heap, eq, inv.heapEq, ⟨_, inv.marking⟩,
    inv.marksReachable graph bMem closed stackEq⟩

/-- The marked objects are those reachable from `roots`. -/
structure ExactHeap (h₀ : Heap) (objects : List Nat) (headers roots : Nat → Prop) (h : Heap) :
    Prop where
  heapEq : h = { h₀ with mem := h.mem }
  marking : ∃ pins, Marking headers pins h₀.mem h.mem
  marks : ∀ d ∈ objects, blockIsMarked (h.mem d) = true ↔ ∃ b, roots b ∧ Reaches h₀.mem b d

/-- A traversal of such a heap from an object overflows only if this is allowed. -/
def Answers (allowed : Fault → Prop) (fuel : Nat) (h₀ : Heap) (objects : List Nat)
    (headers : Nat → Prop) : Prop :=
  ∀ roots h, ExactHeap h₀ objects headers roots h → ∀ b ∈ objects, ∀ pinRoot,
    Yields allowed (fun _ => True) (goFitting fuel (objectOf b) pinRoot h)

namespace ExactHeap

theorem start (unmarked : ∀ d ∈ objects, blockIsMarked (h₀.mem d) = false) :
    ExactHeap h₀ objects headers (fun _ => False) h₀ where
  heapEq := rfl
  marking := ⟨_, Marking.refl headers h₀.mem⟩
  marks d mem := by simp [unmarked d mem]

theorem congr (exactly : ExactHeap h₀ objects headers roots h)
    (same : ∀ b, roots b ↔ roots' b) : ExactHeap h₀ objects headers roots' h :=
  { exactly with
    marks := fun d mem => by
      rw [exactly.marks d mem]
      simp only [same] }

theorem graph (exactly : ExactHeap h₀ objects headers roots h)
    (graph₀ : ObjectGraph h₀ objects bigs headers) : ObjectGraph h objects bigs headers := by
  rcases exactly.marking with ⟨pins, marking⟩
  rw [exactly.heapEq]
  exact graph₀.marking marking

theorem goFuel (exactly : ExactHeap h₀ objects headers roots h)
    (graph₀ : ObjectGraph h₀ objects bigs headers) (enough : GoFuel fuel h₀ objects bigs) :
    GoFuel fuel h objects bigs := by
  rcases exactly.marking with ⟨pins, marking⟩
  rw [exactly.heapEq]
  exact enough.marking graph₀ marking

theorem closed (exactly : ExactHeap h₀ objects headers roots h)
    (graph₀ : ObjectGraph h₀ objects bigs headers) : MarksClosed h objects := by
  intro d mem marked e points
  rcases exactly.marking with ⟨pins, marking⟩
  have points₀ := (graph₀.pointsTo_iff marking mem).mp points
  rcases (exactly.marks d mem).mp marked with ⟨b, root, reaches⟩
  exact (exactly.marks e (graph₀.pointsTo_mem mem points₀)).mpr
    ⟨b, root, ReflTransGen.tail reaches points₀⟩

/-- A step that sets flags, and marks in addition what is reachable from `roots'`. -/
theorem next {h' : Heap} (exactly : ExactHeap h₀ objects headers roots h)
    (heapEq : h' = { h with mem := h'.mem }) (marking : Marking headers pins h.mem h'.mem)
    (more : ∀ d ∈ objects, blockIsMarked (h'.mem d) = true ↔
      blockIsMarked (h.mem d) = true ∨ ∃ b, roots' b ∧ Reaches h₀.mem b d) :
    ExactHeap h₀ objects headers (fun b => roots b ∨ roots' b) h' where
  heapEq := by rw [heapEq, exactly.heapEq]
  marking := by
    rcases exactly.marking with ⟨earlier, before⟩
    exact ⟨_, before.trans marking⟩
  marks d mem := by
    rw [more d mem, exactly.marks d mem]
    simp only [or_and_right, exists_or]

/-- A step that sets flags in words that are no objects. -/
theorem nextOther {h' : Heap} (exactly : ExactHeap h₀ objects headers roots h)
    (heapEq : h' = { h with mem := h'.mem }) (marking : Marking headers pins h.mem h'.mem)
    (same : ∀ d ∈ objects, h'.mem d = h.mem d) : ExactHeap h₀ objects headers roots h' := by
  have step : ExactHeap h₀ objects headers (fun b => roots b ∨ False) h' :=
    exactly.next heapEq marking fun d mem => by simp [same d mem]
  exact step.congr (by simp)

/-- A traversal from an object. -/
theorem go (exactly : ExactHeap h₀ objects headers roots h)
    (graph : ObjectGraph h₀ objects bigs headers) (enough : GoFuel fuel h₀ objects bigs)
    (answers : Answers allowed fuel h₀ objects headers)
    (bMem : b ∈ objects) (pinRoot : Bool) :
    Yields allowed
      (fun r => r.1 = false ∧ ExactHeap h₀ objects headers (fun x => roots x ∨ x = b) r.2)
      (goFitting fuel (objectOf b) pinRoot h) := by
  have outcome := answers roots h exactly b bMem pinRoot
  rcases go_reaches (exactly.graph graph) (exactly.goFuel graph enough) bMem
    (exactly.closed graph) pinRoot with ⟨overflow, h', eq, heapEq, ⟨pins, marking⟩, reached⟩
  unfold goFitting at outcome ⊢
  rw [eq] at outcome ⊢
  cases overflow with
  | true => exact outcome
  | false =>
      refine ⟨rfl, exactly.next heapEq marking fun d mem => ?_⟩
      rcases exactly.marking with ⟨earlier, before⟩
      rw [reached rfl d mem, graph.reaches_iff before bMem]
      simp

/-- The traversal from the word at an address. -/
theorem goFrom (exactly : ExactHeap h₀ objects headers roots h)
    (graph : ObjectGraph h₀ objects bigs headers) (enough : GoFuel fuel h₀ objects bigs)
    (answers : Answers allowed fuel h₀ objects headers)
    (site : CallSite) {a : Nat} (root : RootWord h₀ objects headers a) :
    Yields allowed
      (fun r => r.1 = false ∧
        ExactHeap h₀ objects headers (fun x => roots x ∨ Leads h₀.mem (h₀.mem a) x) r.2)
      ((fitting fuel).goFrom site a h) := by
  rcases exactly.marking with ⟨earlier, before⟩
  have word : h.mem a = h₀.mem a := before.others a root.1
  have points : PointsInto h.mem objects headers (h.mem a) := by
    rw [word]
    exact ObjectGraph.pointsInto before root.2
  have leads : ∀ d, (getNextObj a h.mem).1 = objectOf d ↔ Leads h₀.mem (h₀.mem a) d := by
    intro d
    rw [getNextObj_eq_iff, word]
    exact ObjectGraph.leads_iff before root.2
  rcases getNextObj_spec points with ⟨m, eq, marking, same, target⟩
  generalize (getNextObj a h.mem).1 = p at eq target leads
  have equation : (fitting fuel).goFrom site a h = goFitting fuel p false { h with mem := m } :=
    congrArg (fun r : Nat × Memory => goFitting fuel r.1 false { h with mem := r.2 }) eq
  rw [equation]
  have read : ExactHeap h₀ objects headers roots { h with mem := m } :=
    exactly.nextOther rfl marking same
  rcases target with rfl | ⟨b, bMem, rfl⟩
  · refine ⟨rfl, read.congr fun d => ?_⟩
    rw [← leads d, objectOf_eq]
    simp
  · apply (read.go graph enough answers bMem false).mono
    rintro r ⟨fits, step⟩
    refine ⟨fits, step.congr fun d => ?_⟩
    rw [← leads d]
    exact or_congr_right ⟨fun eq => eq ▸ rfl, fun eq => (objectOf_inj eq).symm⟩

end ExactHeap

/-- Every handler stands for an object, which is among `roots` if the handler is marked. -/
def Stands (objects : List Nat) (roots : Nat → Prop) (handlers : List RootHandler) : Prop :=
  ∀ handler ∈ handlers, ∃ b ∈ objects, handler.plainPointer = objectOf b ∧
    (handler.isMarked = true → roots b)

theorem Stands.mono {handlers : List RootHandler} (stands : Stands objects roots handlers)
    (more : ∀ b, roots b → roots' b) : Stands objects roots' handlers := by
  intro handler mem
  rcases stands handler mem with ⟨b, bMem, pointer, root⟩
  exact ⟨b, bMem, pointer, fun marked => more b (root marked)⟩

/-- The objects of the handler that a search of the chain finds. -/
def ChainHits (w : Nat) (chain : List RootHandler) (b : Nat) : Prop :=
  ∃ handler, (chain.find? fun handler => handler.contains w) = some handler ∧
    handler.plainPointer = objectOf b

/-- What the mark phase has come to: the objects reachable from `roots` are marked, and those of
marked handlers are among them; the words `looked` have been looked up. -/
structure ExactPhase (h₀ : Heap) (t₀ : DerefRoots) (objects : List Nat)
    (headers roots : Nat → Prop) (looked : List Nat) (s : DerefRoots × Heap) : Prop where
  exactly : ExactHeap h₀ objects headers roots s.2
  table : s.1 = t₀.markHandlers looked
  stands : ∀ i, Stands objects roots (s.1.roots i)

namespace ExactPhase

theorem congr (phase : ExactPhase h₀ t₀ objects headers roots looked s)
    (same : ∀ b, roots b ↔ roots' b) : ExactPhase h₀ t₀ objects headers roots' looked s where
  exactly := phase.exactly.congr same
  table := phase.table
  stands i := (phase.stands i).mono fun b => (same b).mp

/-- A step that leaves the table alone. -/
theorem nextHeap {h' : Heap} (phase : ExactPhase h₀ t₀ objects headers roots looked (t, h))
    (exactly : ExactHeap h₀ objects headers (fun b => roots b ∨ roots' b) h') :
    ExactPhase h₀ t₀ objects headers (fun b => roots b ∨ roots' b) looked (t, h') where
  exactly := exactly
  table := phase.table
  stands i := (phase.stands i).mono fun _ => Or.inl

end ExactPhase

/-- Some word at `addresses` leads to `b`. -/
def LedFrom (m : Memory) (addresses : List Nat) (b : Nat) : Prop :=
  ∃ a ∈ addresses, Leads m (m a) b

theorem ledFrom_cons (a : Nat) (addresses : List Nat) :
    LedFrom m (a :: addresses) b ↔ Leads m (m a) b ∨ LedFrom m addresses b := by
  simp [LedFrom]

theorem ledFrom_append (addresses addresses' : List Nat) :
    LedFrom m (addresses ++ addresses') b ↔ LedFrom m addresses b ∨ LedFrom m addresses' b := by
  simp only [LedFrom, List.mem_append, or_and_right, exists_or]

/-- The objects from which the roots of the threads keep others alive. -/
def ThreadRoot (h : Heap) (bigs : List Nat) (t : DerefRoots) (threads : List ThreadHandler)
    (b : Nat) : Prop :=
  StackPins h bigs t (threads.flatMap ThreadHandler.stackWords) b ∨
    LedFrom h.mem (threads.flatMap ThreadHandler.stack) b

theorem threadRoot_cons (thread : ThreadHandler) (threads : List ThreadHandler) :
    ThreadRoot h₀ bigs t₀ (thread :: threads) b ↔
      (StackPins h₀ bigs t₀ thread.stackWords b ∨ LedFrom h₀.mem thread.stack b) ∨
        ThreadRoot h₀ bigs t₀ threads b := by
  unfold ThreadRoot
  rw [List.flatMap_cons, List.flatMap_cons, stackPins_append, ledFrom_append]
  exact or_or_or_comm

section Phase

variable (graph : ObjectGraph h₀ objects bigs headers) (enough : GoFuel fuel h₀ objects bigs)
  (answers : Answers allowed fuel h₀ objects headers)

include graph enough answers

theorem markChain_exact (w : Nat) (exactly : ExactHeap h₀ objects headers roots h)
    (stands : Stands objects roots chain) :
    Yields allowed
      (fun r => ExactHeap h₀ objects headers (fun b => roots b ∨ ChainHits w chain b) r.2 ∧
        Stands objects (fun b => roots b ∨ ChainHits w chain b) r.1 ∧ r.1 = markFirst w chain)
      ((fitting fuel).markChain w true chain h) := by
  induction chain with
  | nil => exact ⟨exactly.congr (by simp [ChainHits]), by simp [Stands], rfl⟩
  | cons curr next ih =>
      rcases stands curr (by simp) with ⟨b, bMem, pointer, root⟩
      have later : Stands objects roots next := fun handler mem => stands handler (by simp [mem])
      unfold Collector.markChain
      cases inside : curr.contains w with
      | false =>
          rw [if_neg (by simp)]
          have same : ∀ x, ChainHits w (curr :: next) x ↔ ChainHits w next x := by
            intro x
            unfold ChainHits
            rw [List.find?_cons, inside]
          simp only [same]
          apply (ih later).bind
          rintro r ⟨exactly', stands', eq⟩
          refine ⟨exactly', ?_, ?_⟩
          · intro handler mem
            rcases List.mem_cons.mp mem with rfl | mem
            · exact (stands.mono fun _ => Or.inl) handler (by simp)
            · exact stands' handler mem
          · rw [markFirst, if_neg (by simp [inside]), ← eq]
      | true =>
          have hits : ∀ x, ChainHits w (curr :: next) x ↔ x = b := by
            intro x
            unfold ChainHits
            rw [List.find?_cons, inside]
            constructor
            · rintro ⟨handler, same, pointer'⟩
              cases same
              exact objectOf_inj (pointer'.symm.trans pointer)
            · rintro rfl
              exact ⟨curr, rfl, pointer⟩
          simp only [hits, ↓reduceIte]
          cases isMarked : curr.isMarked with
          | true =>
              refine ⟨exactly.congr fun x => ?_, stands.mono fun _ => Or.inl,
                by simp [markFirst, inside, isMarked]⟩
              constructor
              · exact Or.inl
              · rintro (old | rfl)
                · exact old
                · exact root isMarked
          | false =>
              rw [if_pos (by simp)]
              have equation : (fitting fuel).go .dereferenced curr.mark.plainPointer true h =
                  goFitting fuel (objectOf b) true h := by
                rw [RootHandler.plainPointer_mark, pointer]
                rfl
              rw [equation]
              apply (exactly.go graph enough answers bMem true).bind
              rintro r ⟨_, exactly'⟩
              refine ⟨exactly', ?_, by simp [markFirst, inside, isMarked]⟩
              intro handler mem
              rcases List.mem_cons.mp mem with rfl | mem
              · exact ⟨b, bMem, by rw [RootHandler.plainPointer_mark, pointer], fun _ => Or.inr rfl⟩
              · exact (later.mono fun _ => Or.inl) handler mem

theorem markDereferencedRoot_exact (w : Nat)
    (phase : ExactPhase h₀ t₀ objects headers roots looked s) :
    Yields allowed
      (ExactPhase h₀ t₀ objects headers (fun b => roots b ∨ Hits t₀ w b) (looked ++ [w]))
      ((fitting fuel).markDereferencedRoot w true s) := by
  unfold Collector.markDereferencedRoot
  have hits : ∀ b, Hits t₀ w b ↔ Hits s.1 w b := by
    intro b
    rw [phase.table, (markHandlers_sameRanges t₀ looked).hits_iff]
  have table : t₀.markHandlers (looked ++ [w]) = s.1.markHandler w := by
    rw [markHandlers_append, ← phase.table]
    rfl
  simp only [hits]
  by_cases skipped : (w = 0 || w % 2 != 0) = true
  · have missing : s.1.lookup w = none := by rw [DerefRoots.lookup, if_pos skipped]
    rw [DerefRoots.markHandler, if_pos skipped] at table
    rw [if_pos skipped]
    exact { phase.congr (by simp [Hits, missing]) with table := table.symm }
  · have lookup : ∀ b, Hits s.1 w b ↔ ChainHits w (s.1.roots (hashOfRoot w)) b := by
      intro b
      rw [Hits, DerefRoots.lookup, if_neg skipped]
      rfl
    rw [if_neg skipped]
    simp only [lookup]
    apply (markChain_exact graph enough answers w phase.exactly
      (phase.stands (hashOfRoot w))).bind
    rintro r ⟨exactly, stands, eq⟩
    rw [DerefRoots.markHandler, if_neg skipped] at table
    refine ⟨exactly, ?_, ?_⟩
    · rw [table, ← eq]
    · intro i
      by_cases same : i = hashOfRoot w
      · subst same
        simpa using stands
      · simp only [Function.update_of_ne same]
        exact (phase.stands i).mono fun _ => Or.inl

theorem markStack_exact (words : List Nat)
    (phase : ExactPhase h₀ t₀ objects headers roots looked s) :
    Yields allowed
      (ExactPhase h₀ t₀ objects headers (fun b => roots b ∨ StackPins h₀ bigs t₀ words b)
        (looked ++ heapWords h₀ bigs words))
      ((fitting fuel).markStack fuel true words s) := by
  induction words generalizing s roots looked with
  | nil =>
      rw [heapWords, List.filter_nil, List.append_nil]
      exact phase.congr (by simp [StackPins])
  | cons w words ih =>
      rcases @isHeapPointer_spec s.2 bigs w fuel (phase.exactly.graph graph).bigChain
        enough.bigs with ⟨found, eq, iff⟩
      have inHeap : InHeap s.2 bigs w ↔ InHeap h₀ bigs w := by
        rcases phase.exactly.marking with ⟨pins, marking⟩
        have parts : s.2.parts = h₀.parts := by rw [phase.exactly.heapEq]
        simp only [InHeap, parts, marking.size]
      have wordPins : ∀ b, StackPins h₀ bigs t₀ (w :: words) b ↔
          (found = true ∧ Hits t₀ w b) ∨ StackPins h₀ bigs t₀ words b := by
        intro b
        rw [iff, inHeap]
        simp [StackPins]
      simp only [wordPins]
      unfold Collector.markStack
      change Yields allowed _ (isHeapPointer fuel w s.2 >>= _)
      rw [eq]
      cases found with
      | false =>
          have outside : ¬InHeap h₀ bigs w := fun isIn => by simpa using (iff.trans inHeap).mpr isIn
          rw [heapWords, List.filter_cons, if_neg (by simpa using outside)]
          exact (ih phase).mono fun s' phase' => phase'.congr (by simp)
      | true =>
          rw [heapWords, List.filter_cons, if_pos (by simpa using (iff.trans inHeap).mp rfl),
            List.append_cons]
          refine (markDereferencedRoot_exact graph enough answers w phase).bind
            fun s₁ phase₁ => ?_
          exact (ih phase₁).mono fun s' phase' => phase'.congr (by simp [or_assoc])

theorem markStackMap_exact (addresses : List Nat)
    (exactly : ExactHeap h₀ objects headers roots h)
    (words : ∀ a ∈ addresses, RootWord h₀ objects headers a) :
    Yields allowed
      (fun r => r.1 = false ∧
        ExactHeap h₀ objects headers (fun b => roots b ∨ LedFrom h₀.mem addresses b) r.2)
      ((fitting fuel).markStackMap addresses (false, h)) := by
  induction addresses generalizing h roots with
  | nil => exact ⟨rfl, exactly.congr (by simp [LedFrom])⟩
  | cons root addresses ih =>
      unfold Collector.markStackMap
      apply (exactly.goFrom graph enough answers .stackMap (words root (by simp))).bind
      rintro r ⟨fits, exactly₁⟩
      rw [fits]
      apply (ih exactly₁ fun a mem => words a (by simp [mem])).mono
      rintro r' ⟨fits', exactly'⟩
      exact ⟨fits', exactly'.congr fun b => by rw [ledFrom_cons, or_assoc]⟩

theorem markThreads_exact (threads : List ThreadHandler)
    (phase : ExactPhase h₀ t₀ objects headers roots looked s)
    (words : ∀ a ∈ threads.flatMap ThreadHandler.stack, RootWord h₀ objects headers a) :
    Yields allowed
      (ExactPhase h₀ t₀ objects headers (fun b => roots b ∨ ThreadRoot h₀ bigs t₀ threads b)
        (looked ++ heapWords h₀ bigs (wordsOf threads)))
      ((fitting fuel).markThreads fuel threads s) := by
  induction threads generalizing s roots looked with
  | nil =>
      rw [wordsOf, List.flatMap_nil, heapWords, List.filter_nil, List.append_nil]
      exact phase.congr (by simp [ThreadRoot, StackPins, LedFrom])
  | cons thread threads ih =>
      rw [wordsOf_cons, heapWords_append, ← List.append_assoc]
      simp only [threadRoot_cons]
      have own : ∀ a ∈ thread.stack, RootWord h₀ objects headers a :=
        fun a mem => words a (by simp [mem])
      have later : ∀ a ∈ threads.flatMap ThreadHandler.stack, RootWord h₀ objects headers a := by
        intro a mem
        apply words
        rw [List.flatMap_cons]
        exact List.mem_append_right _ mem
      unfold Collector.markThreads Collector.markThread
      have one : Yields allowed
          (ExactPhase h₀ t₀ objects headers (fun b => (roots b ∨
            StackPins h₀ bigs t₀ thread.stackWords b) ∨ LedFrom h₀.mem thread.stack b)
            (looked ++ heapWords h₀ bigs thread.stackWords))
          ((fitting fuel).markThread fuel thread s) := by
        refine (markStack_exact graph enough answers _ phase).bind fun s₁ phase₁ => ?_
        apply (markStackMap_exact graph enough answers _ phase₁.exactly own).bind
        rintro r ⟨fits, exactly⟩
        -- nothing has overflowed, so that no scan of the heap follows
        have noRescan : (fitting fuel).rescan fuel r.1 r.2 = .ok r.2 := by
          rw [fits]
          cases fuel <;> rfl
        rw [noRescan]
        exact phase₁.nextHeap exactly
      refine one.bind fun s₂ phase₂ => ?_
      exact (ih phase₂ later).mono fun s' phase' => phase'.congr (by simp [or_assoc])

theorem markNode_exact (fakeRoots : FakeRoots) (exactly : ExactHeap h₀ objects headers roots h)
    (nodes : ∀ n ∈ fakeRoots.nodes, ∃ x, headers x ∧ x ∉ objects ∧ n.1 = blockData x)
    (words : ∀ n ∈ fakeRoots.nodes, RootWord h₀ objects headers n.2) :
    Yields allowed
      (ExactHeap h₀ objects headers fun b =>
        roots b ∨ LedFrom h₀.mem (fakeRoots.nodes.map Prod.snd) b)
      ((fitting fuel).markNode fakeRoots h) := by
  induction fakeRoots generalizing h roots with
  | null => exact exactly.congr (by simp [LedFrom, FakeRoots.nodes])
  | node self addr height left right leftIh rightIh =>
      have own : (self, addr) ∈ (FakeRoots.node self addr height left right).nodes := by
        simp [FakeRoots.nodes]
      rcases nodes _ own with ⟨x, isHeader, notObject, rfl⟩
      have marked : ExactHeap h₀ objects headers roots
          { h with mem := mark (blockData x) h.mem } := by
        refine exactly.nextOther rfl (Marking.mark isHeader) fun d mem => ?_
        have header : getBlock (blockData x) = x := by simp [getBlock, blockData]
        unfold mark
        rw [header]
        apply write_of_ne
        rintro rfl
        exact notObject mem
      unfold Collector.markNode
      apply (marked.goFrom graph enough answers .fakeRoot (words _ own)).bind
      rintro r ⟨_, exactly₁⟩
      refine (leftIh exactly₁ (fun n mem => nodes n (by simp [FakeRoots.nodes, mem]))
        fun n mem => words n (by simp [FakeRoots.nodes, mem])).bind fun h₂ exactly₂ => ?_
      refine (rightIh exactly₂ (fun n mem => nodes n (by simp [FakeRoots.nodes, mem]))
        fun n mem => words n (by simp [FakeRoots.nodes, mem])).mono fun h₃ exactly₃ => ?_
      apply exactly₃.congr
      intro b
      rw [FakeRoots.nodes, List.map_cons, List.map_append, ledFrom_cons, ledFrom_append, or_assoc,
        or_assoc]

/-- The objects from which the roots of the mutator keep others alive. -/
def RootObject (h : Heap) (bigs : List Nat) (t : DerefRoots) (threads : List ThreadHandler)
    (fakeRoots : FakeRoots) (b : Nat) : Prop :=
  ThreadRoot h bigs t threads b ∨ LedFrom h.mem (fakeRoots.nodes.map Prod.snd) b

end Phase

/-- What the mark phase relies on: objects that form a graph, no flag of an earlier mark phase, and
roots that lead to objects. -/
structure MarkReady (fuel : Nat) (threads : List ThreadHandler) (fakeRoots : FakeRoots)
    (t : DerefRoots) (h : Heap) (objects bigs : List Nat) (headers : Nat → Prop) : Prop where
  graph : ObjectGraph h objects bigs headers
  goFuel : GoFuel fuel h objects bigs
  unmarked : ∀ d ∈ objects, blockIsMarked (h.mem d) = false
  stands : ∀ i, Stands objects (fun _ => False) (t.roots i)
  stackWords : ∀ a ∈ threads.flatMap ThreadHandler.stack, RootWord h objects headers a
  nodes : ∀ n ∈ fakeRoots.nodes, ∃ x, headers x ∧ x ∉ objects ∧ n.1 = blockData x
  fakeWords : ∀ n ∈ fakeRoots.nodes, RootWord h objects headers n.2

namespace MarkReady

variable {threads : List ThreadHandler} {fakeRoots : FakeRoots}

theorem markRoots_phase (ready : MarkReady fuel threads fakeRoots t h objects bigs headers)
    (answers : Answers allowed fuel h objects headers) :
    Yields allowed
      (fun s => ExactHeap h objects headers (RootObject h bigs t threads fakeRoots) s.2 ∧
        s.1 = t.markHandlers (heapWords h bigs (wordsOf threads)))
      ((fitting fuel).markRoots fuel threads fakeRoots (t, h)) := by
  have start : ExactPhase h t objects headers (fun _ => False) [] (t, h) :=
    ⟨ExactHeap.start ready.unmarked, rfl, ready.stands⟩
  refine (markThreads_exact ready.graph ready.goFuel answers threads start
    ready.stackWords).bind fun s phase => ?_
  refine (markNode_exact ready.graph ready.goFuel answers fakeRoots phase.exactly
    ready.nodes ready.fakeWords).bind fun h' exactly => ?_
  exact ⟨exactly.congr (by simp [RootObject]), phase.table⟩

/-- A traversal returns in any case, with an overflow or without. -/
theorem answers_overflow (ready : MarkReady fuel threads fakeRoots t h objects bigs headers) :
    Answers (· = .assertFailed) fuel h objects headers := by
  intro roots h' exactly b bMem pinRoot
  rcases go_reaches (exactly.graph ready.graph) (exactly.goFuel ready.graph ready.goFuel) bMem
    (exactly.closed ready.graph) pinRoot with ⟨overflow, h'', eq, _⟩
  unfold goFitting
  rw [eq]
  cases overflow with
  | true => rfl
  | false => trivial

/-- What a mark phase without an overflow leaves. -/
theorem markRoots_exactHeap (ready : MarkReady fuel threads fakeRoots t h objects bigs headers)
    (fit : MarksFit fuel threads fakeRoots (t, h)) :
    ∃ s, (collector fuel).markRoots fuel threads fakeRoots (t, h) = .ok s ∧
      ExactHeap h objects headers (RootObject h bigs t threads fakeRoots) s.2 ∧
        s.1 = t.markHandlers (heapWords h bigs (wordsOf threads)) := by
  rcases fit with ⟨s, eq⟩
  exact ⟨s, (markRoots_extends_fitting threads fakeRoots _).approximates s eq,
    (ready.markRoots_phase ready.answers_overflow).of_ok eq⟩

/-- A mark phase without an overflow returns, and exactly the objects that are reachable from its
roots are marked. -/
theorem markRoots_exact (ready : MarkReady fuel threads fakeRoots t h objects bigs headers)
    (fit : MarksFit fuel threads fakeRoots (t, h)) :
    ∃ s, (collector fuel).markRoots fuel threads fakeRoots (t, h) = .ok s ∧
      ∀ d ∈ objects, blockIsMarked (s.2.mem d) = true ↔
        ∃ b, RootObject h bigs t threads fakeRoots b ∧ Reaches h.mem b d := by
  rcases ready.markRoots_exactHeap fit with ⟨s, eq, exactly, _⟩
  exact ⟨s, eq, exactly.marks⟩

/-- No traversal overflows when the objects have at most as many slots as the mark stack has
entries. -/
theorem answers_fits (ready : MarkReady fuel threads fakeRoots t h objects bigs headers)
    (room : (objects.map (slotNumber h.mem)).sum ≤ maxStackSize) :
    Answers (fun _ => False) fuel h objects headers := by
  intro roots h' exactly b bMem pinRoot
  have same : objects.map (slotNumber h'.mem) = objects.map (slotNumber h.mem) := by
    rcases exactly.marking with ⟨pins, marking⟩
    refine List.map_congr_left fun d mem => ?_
    rw [slotNumber, ready.graph.slotsOf_eq marking mem, slotNumber]
  have few : unmarkedSlots (slotNumber h'.mem) objects h'.mem ≤ maxStackSize := by
    refine Nat.le_trans (unmarkedSlots_le _) ?_
    rw [same]
    exact room
  rcases go_fits (exactly.graph ready.graph) (exactly.goFuel ready.graph ready.goFuel) bMem
    (exactly.closed ready.graph) few pinRoot with ⟨h'', eq⟩
  unfold goFitting
  rw [eq]
  trivial

/-- With no more slots than the mark stack has entries, the whole mark phase goes without an
overflow. -/
theorem markRoots_fits (ready : MarkReady fuel threads fakeRoots t h objects bigs headers)
    (room : (objects.map (slotNumber h.mem)).sum ≤ maxStackSize) :
    MarksFit fuel threads fakeRoots (t, h) := by
  rcases (ready.markRoots_phase (ready.answers_fits room)).total with ⟨s, eq, _⟩
  exact ⟨s, eq⟩

end MarkReady

theorem sampleHeap_markReady : MarkReady 32768 sampleThreads sampleFakeRoots {} (sampleHeap false)
    sampleObjects [196608] sampleHeaders := by
  have rootWord : ∀ a, a = 133120 ∨ a = 133128 →
      RootWord (sampleHeap false) sampleObjects sampleHeaders a := by
    intro a cell
    refine ⟨by simp only [sampleHeaders]; omega, Or.inr (Or.inl ⟨65552, by decide, ?_⟩)⟩
    rcases cell with rfl | rfl
    · decide
    · decide
  refine
    { graph := sampleHeap_graph, goFuel := sampleHeap_goFuel, unmarked := by decide,
      stands := by simp [Stands], stackWords := ?_, nodes := ?_,
      fakeWords := ?_ }
  · intro a mem
    have : a = 133120 := by simpa [sampleThreads] using mem
    exact rootWord a (Or.inl this)
  · intro n mem
    have : n = (262144, 133128) := by simpa [sampleFakeRoots, FakeRoots.nodes] using mem
    subst this
    exact ⟨262136, Or.inr (Or.inr rfl), by decide, rfl⟩
  · intro n mem
    have : n = (262144, 133128) := by simpa [sampleFakeRoots, FakeRoots.nodes] using mem
    subst this
    exact rootWord 133128 (Or.inr rfl)

theorem markRoots_fits_sampleHeap :
    MarksFit 32768 sampleThreads sampleFakeRoots ({}, sampleHeap false) :=
  sampleHeap_markReady.markRoots_fits (by decide)

theorem sampleHeap_fits : MarksFit 32768 sampleThreads sampleFakeRoots ({}, sampleHeap false) := by
  have run : Yields (fun _ => False) (fun _ => True)
      ((fitting 32768).markRoots 32768 sampleThreads sampleFakeRoots ({}, sampleHeap false)) := by
    decide +kernel
  rcases run.total with ⟨s, eq, _⟩
  exact ⟨s, eq⟩

theorem markRoots_exact_sampleHeap :
    ∃ s, (collector 32768).markRoots 32768 sampleThreads sampleFakeRoots ({}, sampleHeap false) =
        .ok s ∧
      ∀ d ∈ sampleObjects, blockIsMarked (s.2.mem d) = true ↔
        ∃ b, RootObject (sampleHeap false) [196608] {} sampleThreads sampleFakeRoots b ∧
          Reaches (sampleHeap false).mem b d :=
  sampleHeap_markReady.markRoots_exact sampleHeap_fits

end PreciseGc

import PreciseGc.Roots.Pinning

/-!
# The mark phase of a collection

From all roots together the mark phase sets flags of headers only.  It marks
the object of every root and pins exactly the objects that the words of the
stacks hit, provided no traversal from a `StackMap` root overflows.
-/

namespace PreciseGc

open Foundation

variable {h₀ : Heap} {t₀ : DerefRoots} {objects bigs done : List Nat} {headers pins : Nat → Prop}
  {s : DerefRoots × Heap} {fuel : Nat}

/-- What the mark phase has done so far: it has set flags of headers, pinned `pins`, and marked the
objects that the words at `done` designate. -/
structure MarkPhase (h₀ : Heap) (t₀ : DerefRoots) (objects : List Nat) (headers pins : Nat → Prop)
    (done : List Nat) (s : DerefRoots × Heap) : Prop where
  heapEq : s.2 = { h₀ with mem := s.2.mem }
  marking : Marking headers pins h₀.mem s.2.mem
  ranges : SameRanges t₀ s.1
  tracks : TracksAll s.2 objects s.1
  targets : ∀ a ∈ done, ∀ b ∈ objects, Designates (h₀.mem a) b →
    blockIsMarked (s.2.mem b) = true

namespace MarkPhase

theorem start (tracks : TracksAll h₀ objects t₀) :
    MarkPhase h₀ t₀ objects headers (fun _ => False) [] (t₀, h₀) where
  heapEq := rfl
  marking := Marking.refl headers h₀.mem
  ranges _ := rfl
  tracks := tracks
  targets := by simp

/-- The graph of the current heap. -/
theorem graph (phase : MarkPhase h₀ t₀ objects headers pins done s)
    (graph₀ : ObjectGraph h₀ objects bigs headers) : ObjectGraph s.2 objects bigs headers := by
  rw [phase.heapEq]
  exact graph₀.marking phase.marking

theorem goFuel (phase : MarkPhase h₀ t₀ objects headers pins done s)
    (graph₀ : ObjectGraph h₀ objects bigs headers) (enough : GoFuel fuel h₀ objects bigs) :
    GoFuel fuel s.2 objects bigs := by
  rw [phase.heapEq]
  exact enough.marking graph₀ phase.marking

/-- A step that sets flags of headers. -/
theorem next (phase : MarkPhase h₀ t₀ objects headers pins done s) {pins' : Nat → Prop}
    {s' : DerefRoots × Heap} (heapEq : s'.2 = { s.2 with mem := s'.2.mem })
    (marking : Marking headers pins' s.2.mem s'.2.mem) (ranges : SameRanges s.1 s'.1)
    (tracks : TracksAll s'.2 objects s'.1) :
    MarkPhase h₀ t₀ objects headers (fun x => pins x ∨ pins' x) done s' where
  heapEq := by rw [heapEq, phase.heapEq]
  marking := phase.marking.trans marking
  ranges i := (ranges i).trans (phase.ranges i)
  tracks := tracks
  targets a mem b bMem designates := marking.marked b (phase.targets a mem b bMem designates)

theorem congr (phase : MarkPhase h₀ t₀ objects headers pins done s) {pins' : Nat → Prop}
    (same : ∀ x, pins x ↔ pins' x) : MarkPhase h₀ t₀ objects headers pins' done s :=
  { phase with marking := phase.marking.congr same }

/-- A step that sets flags and pins nothing, and leaves the table alone. -/
theorem nextHeap {t : DerefRoots} {h h' : Heap}
    (phase : MarkPhase h₀ t₀ objects headers pins done (t, h))
    (heapEq : h' = { h with mem := h'.mem })
    (marking : Marking headers (fun _ => False) h.mem h'.mem) :
    MarkPhase h₀ t₀ objects headers pins done (t, h') := by
  have tracks : TracksAll h' objects t := by
    intro i
    rw [heapEq]
    exact (phase.tracks i).marking marking
  have step : MarkPhase h₀ t₀ objects headers _ done (t, h') :=
    phase.next heapEq marking (fun _ => rfl) tracks
  exact step.congr fun x => by simp

end MarkPhase

/-- Some word of a stack points into the heap and hits a dereferenced root of `b`. -/
def StackPins (h : Heap) (bigs : List Nat) (t : DerefRoots) (words : List Nat) (b : Nat) : Prop :=
  ∃ w ∈ words, InHeap h bigs w ∧ Hits t w b

theorem stackPins_append (words words' : List Nat) (b : Nat) :
    StackPins h₀ bigs t₀ (words ++ words') b ↔
      StackPins h₀ bigs t₀ words b ∨ StackPins h₀ bigs t₀ words' b := by
  simp only [StackPins, List.mem_append, or_and_right, exists_or]

theorem MarkPhase.inHeap_iff (phase : MarkPhase h₀ t₀ objects headers pins done s) (w : Nat) :
    InHeap s.2 bigs w ↔ InHeap h₀ bigs w := by
  have parts : s.2.parts = h₀.parts := by rw [phase.heapEq]
  simp only [InHeap, parts, phase.marking.size]

/-- The words of a stack pin what they hit. -/
theorem markStack_spec (graph : ObjectGraph h₀ objects bigs headers)
    (enough : GoFuel fuel h₀ objects bigs) (words : List Nat)
    (phase : MarkPhase h₀ t₀ objects headers pins done s) :
    ∃ s', (collector fuel).markStack fuel true words s = .ok s' ∧
      MarkPhase h₀ t₀ objects headers (fun x => pins x ∨ StackPins h₀ bigs t₀ words x) done s' := by
  induction words generalizing s pins with
  | nil => exact ⟨s, rfl, phase.congr fun x => by simp [StackPins]⟩
  | cons w words ih =>
      rcases @isHeapPointer_spec s.2 bigs w fuel (phase.graph graph).bigChain enough.bigs with
        ⟨found, eq, iff⟩
      have wordPins : ∀ x, StackPins h₀ bigs t₀ (w :: words) x ↔
          (found = true ∧ Hits t₀ w x) ∨ StackPins h₀ bigs t₀ words x := by
        intro x
        rw [iff, phase.inHeap_iff]
        simp [StackPins]
      unfold Collector.markStack
      change ∃ s', (isHeapPointer fuel w s.2 >>= _) = .ok s' ∧ _
      rw [eq]
      cases found with
      | false =>
          rcases ih phase with ⟨s', eq', phase'⟩
          exact ⟨s', eq', phase'.congr fun x => by simp [wordPins]⟩
      | true =>
          rcases markDereferencedRoot_spec (phase.graph graph) (phase.goFuel graph enough) w
            phase.tracks with ⟨t', h', eq', heapEq, ranges, marking, tracks, _, _⟩
          have step : MarkPhase h₀ t₀ objects headers _ done (t', h') :=
            phase.next heapEq marking ranges tracks
          have stepHits : ∀ x, pins x ∨ Hits s.1 w x ↔ pins x ∨ Hits t₀ w x := by
            intro x
            rw [phase.ranges.hits_iff]
          rcases ih (step.congr stepHits) with ⟨s', eq'', phase'⟩
          refine ⟨s', ?_, phase'.congr fun x => by simp [wordPins, or_assoc]⟩
          change ((collector fuel).markDereferencedRoot w true s >>= _) = _
          rw [eq']
          exact eq''

theorem getNextObj_of_designates {m : Memory} {a b : Nat} (designates : Designates (m a) b) :
    getNextObj a m = (objectOf b, m) := by
  have nonnull : clearBothFlags (m a) ≠ 0 := by
    rw [designates.2, objectOf_eq]
    omega
  simp [getNextObj, nonnull, getPtr, designates.1, clearStackFlag_of_plain, ← designates.2]

/-- A word from which the mark phase can start: it is no header and leads to an object. -/
def RootWord (h : Heap) (objects : List Nat) (headers : Nat → Prop) (a : Nat) : Prop :=
  ¬headers a ∧ PointsInto h.mem objects headers (h.mem a)

/-- The traversal from one root sets flags of headers only, marks the object the root leads to, and
overflows only if there is one. -/
theorem goFrom_object {h : Heap} (graph : ObjectGraph h objects bigs headers)
    (enough : GoFuel fuel h objects bigs) (site : CallSite) {a : Nat}
    (points : PointsInto h.mem objects headers (h.mem a)) :
    ∃ r, (collector fuel).goFrom site a h = .ok r ∧ r.2 = { h with mem := r.2.mem } ∧
      Marking headers (fun _ => False) h.mem r.2.mem ∧
        ((getNextObj a h.mem).1 = 0 ∧ r.1 = false ∨
          ∃ b ∈ objects, (getNextObj a h.mem).1 = objectOf b ∧
            blockIsMarked (r.2.mem b) = true) := by
  rcases getNextObj_spec points with ⟨m, eq, marking, _, target⟩
  generalize (getNextObj a h.mem).1 = p at eq target
  have equation : (collector fuel).goFrom site a h = go fuel p false { h with mem := m } :=
    congrArg (fun r : Nat × Memory => go fuel r.1 false { h with mem := r.2 }) eq
  rw [equation]
  rcases target with rfl | ⟨b, mem, rfl⟩
  · exact ⟨(false, { h with mem := m }), rfl, rfl, marking, Or.inl ⟨rfl, rfl⟩⟩
  · rcases go_spec (graph.marking marking) (enough.marking graph marking) mem false with
      ⟨overflow, h', goEq, heapEq, goMarking, marked⟩
    refine ⟨(overflow, h'), goEq, ?_, ?_, Or.inr ⟨b, mem, rfl, marked⟩⟩
    · dsimp only
      rw [heapEq]
    · exact marking.andMark (goMarking.congr fun x => by simp)

/-- The traversal from one root marks its object. -/
theorem goFrom_spec (graph : ObjectGraph h₀ objects bigs headers)
    (enough : GoFuel fuel h₀ objects bigs) {t : DerefRoots} {h : Heap}
    (phase : MarkPhase h₀ t₀ objects headers pins done (t, h)) (site : CallSite) {a : Nat}
    (root : RootWord h₀ objects headers a) :
    ∃ r, (collector fuel).goFrom site a h = .ok r ∧
      MarkPhase h₀ t₀ objects headers pins (done ++ [a]) (t, r.2) := by
  have word : h.mem a = h₀.mem a := phase.marking.others a root.1
  have points : PointsInto h.mem objects headers (h.mem a) := by
    rw [word]
    exact ObjectGraph.pointsInto phase.marking root.2
  have found : ∀ b, Designates (h₀.mem a) b → (getNextObj a h.mem).1 = objectOf b := by
    intro b designates
    rw [← word] at designates
    rw [getNextObj_of_designates designates]
  rcases goFrom_object (phase.graph graph) (phase.goFuel graph enough) site points with
    ⟨r, eq, heapEq, marking, target⟩
  have step := phase.nextHeap heapEq marking
  refine ⟨r, eq, { step with targets := ?_ }⟩
  intro x xMem d dMem designates
  rcases List.mem_append.mp xMem with xMem | isRoot
  · exact step.targets x xMem d dMem designates
  · rw [List.mem_singleton.mp isRoot] at designates
    have leads := found d designates
    rcases target with ⟨null, _⟩ | ⟨b, _, isTarget, marked⟩
    · rw [null, objectOf_eq] at leads
      omega
    · rw [← objectOf_inj (isTarget.symm.trans leads)]
      exact marked

/-- The roots in a `StackMap`. -/
theorem markStackMap_spec (graph : ObjectGraph h₀ objects bigs headers)
    (enough : GoFuel fuel h₀ objects bigs) {t : DerefRoots} {r : Bool × Heap}
    (phase : MarkPhase h₀ t₀ objects headers pins done (t, r.2)) (roots : List Nat)
    (words : ∀ a ∈ roots, RootWord h₀ objects headers a) :
    ∃ r', (collector fuel).markStackMap roots r = .ok r' ∧
      MarkPhase h₀ t₀ objects headers pins (done ++ roots) (t, r'.2) := by
  induction roots generalizing r done with
  | nil =>
      rw [List.append_nil]
      exact ⟨r, rfl, phase⟩
  | cons root roots ih =>
      rcases goFrom_spec graph enough phase .stackMap (words root (by simp)) with ⟨r₁, eq, step⟩
      have later : ∀ a ∈ roots, RootWord h₀ objects headers a :=
        fun a mem => words a (by simp [mem])
      rcases ih (r := (r.1 || r₁.1, r₁.2)) step later with ⟨r', eq', phase'⟩
      rw [List.append_assoc, List.singleton_append] at phase'
      refine ⟨r', ?_, phase'⟩
      unfold Collector.markStackMap
      rw [eq]
      exact eq'

/-- No traversal from a `StackMap` root overflows the mark stack. -/
def stackMapsFit (fuel : Nat) : List ThreadHandler → DerefRoots × Heap → Bool
  | [], _ => true
  | thread :: threads, s =>
      match (collector fuel).markStack fuel true thread.stackWords s with
      | .error _ => true
      | .ok s =>
          match (collector fuel).markStackMap thread.stack (false, s.2) with
          | .error _ => true
          | .ok r => !r.1 && stackMapsFit fuel threads (s.1, r.2)

/-- All threads. -/
theorem markThreads_spec (graph : ObjectGraph h₀ objects bigs headers)
    (enough : GoFuel fuel h₀ objects bigs) (threads : List ThreadHandler)
    (phase : MarkPhase h₀ t₀ objects headers pins done s)
    (words : ∀ a ∈ threads.flatMap ThreadHandler.stack, RootWord h₀ objects headers a)
    (fit : stackMapsFit fuel threads s = true) :
    ∃ s', (collector fuel).markThreads fuel threads s = .ok s' ∧
      MarkPhase h₀ t₀ objects headers
        (fun x => pins x ∨ StackPins h₀ bigs t₀ (threads.flatMap ThreadHandler.stackWords) x)
        (done ++ threads.flatMap ThreadHandler.stack) s' := by
  induction threads generalizing s pins done with
  | nil =>
      refine ⟨s, rfl, ?_⟩
      have same : done ++ [].flatMap ThreadHandler.stack = done := List.append_nil done
      rw [same]
      exact phase.congr fun x => by simp [StackPins]
  | cons thread threads ih =>
      rcases markStack_spec graph enough thread.stackWords phase with ⟨s₁, stackEq, phase₁⟩
      have own : ∀ a ∈ thread.stack, RootWord h₀ objects headers a :=
        fun a mem => words a (by simp [mem])
      have later : ∀ a ∈ threads.flatMap ThreadHandler.stack, RootWord h₀ objects headers a := by
        intro a mem
        apply words
        rw [List.flatMap_cons]
        exact List.mem_append_right _ mem
      rcases markStackMap_spec graph enough (r := (false, s₁.2)) phase₁ thread.stack own with
        ⟨r, mapEq, phase₂⟩
      simp only [stackMapsFit, stackEq, mapEq, Bool.and_eq_true, Bool.not_eq_true'] at fit
      rcases ih phase₂ later fit.2 with ⟨s', eq, phase'⟩
      refine ⟨s', ?_, ?_⟩
      · have noRescan : (collector fuel).rescan fuel r.1 r.2 = .ok r.2 := by
          rw [fit.1]
          cases fuel <;> rfl
        unfold Collector.markThreads Collector.markThread
        rw [stackEq]
        change (((collector fuel).markStackMap thread.stack (false, s₁.2) >>= fun r =>
          (collector fuel).rescan fuel r.1 r.2 >>= fun state => .ok (s₁.1, state)) >>= _) = _
        rw [mapEq]
        change (((collector fuel).rescan fuel r.1 r.2 >>= fun state => .ok (s₁.1, state)) >>= _) = _
        rw [noRescan]
        exact eq
      · rw [List.flatMap_cons, List.flatMap_cons, ← List.append_assoc]
        apply phase'.congr
        intro x
        rw [stackPins_append, or_assoc]

/-- The fake roots. -/
theorem markNode_spec (graph : ObjectGraph h₀ objects bigs headers)
    (enough : GoFuel fuel h₀ objects bigs) {t : DerefRoots} {h : Heap}
    (phase : MarkPhase h₀ t₀ objects headers pins done (t, h)) (fakeRoots : FakeRoots)
    (nodes : ∀ n ∈ fakeRoots.nodes, ∃ x, headers x ∧ n.1 = blockData x)
    (words : ∀ n ∈ fakeRoots.nodes, RootWord h₀ objects headers n.2) :
    ∃ h', (collector fuel).markNode fakeRoots h = .ok h' ∧
      MarkPhase h₀ t₀ objects headers pins (done ++ fakeRoots.nodes.map Prod.snd) (t, h') := by
  induction fakeRoots generalizing h done with
  | null =>
      rw [FakeRoots.nodes, List.map_nil, List.append_nil]
      exact ⟨h, rfl, phase⟩
  | node self addr height left right leftIh rightIh =>
      have own : (self, addr) ∈ (FakeRoots.node self addr height left right).nodes := by
        simp [FakeRoots.nodes]
      rcases nodes _ own with ⟨x, isHeader, rfl⟩
      have marked : MarkPhase h₀ t₀ objects headers pins done
          (t, { h with mem := mark (blockData x) h.mem }) :=
        phase.nextHeap rfl (Marking.mark isHeader)
      rcases goFrom_spec graph enough marked .fakeRoot (words _ own) with ⟨r, eq, phase₁⟩
      rcases leftIh phase₁ (fun n mem => nodes n (by simp [FakeRoots.nodes, mem]))
        (fun n mem => words n (by simp [FakeRoots.nodes, mem])) with ⟨h₂, leftEq, phase₂⟩
      rcases rightIh phase₂ (fun n mem => nodes n (by simp [FakeRoots.nodes, mem]))
        (fun n mem => words n (by simp [FakeRoots.nodes, mem])) with ⟨h₃, rightEq, phase₃⟩
      refine ⟨h₃, ?_, ?_⟩
      · unfold Collector.markNode
        change ((collector fuel).goFrom .fakeRoot addr
          { h with mem := mark (blockData x) h.mem } >>= _) = _
        rw [eq]
        change ((collector fuel).markNode left r.2 >>= _) = _
        rw [leftEq]
        exact rightEq
      · simpa [FakeRoots.nodes] using phase₃

/-- A mark phase in which no traversal from a `StackMap` root overflows. -/
theorem markRoots_spec (graph : ObjectGraph h₀ objects bigs headers)
    (enough : GoFuel fuel h₀ objects bigs) (tracks : TracksAll h₀ objects t₀)
    (threads : List ThreadHandler) (fakeRoots : FakeRoots)
    (stackWords : ∀ a ∈ threads.flatMap ThreadHandler.stack, RootWord h₀ objects headers a)
    (nodes : ∀ n ∈ fakeRoots.nodes, ∃ x, headers x ∧ n.1 = blockData x)
    (fakeWords : ∀ n ∈ fakeRoots.nodes, RootWord h₀ objects headers n.2)
    (fit : stackMapsFit fuel threads (t₀, h₀) = true) :
    ∃ s, (collector fuel).markRoots fuel threads fakeRoots (t₀, h₀) = .ok s ∧
      MarkPhase h₀ t₀ objects headers
        (StackPins h₀ bigs t₀ (threads.flatMap ThreadHandler.stackWords))
        (threads.flatMap ThreadHandler.stack ++ fakeRoots.nodes.map Prod.snd) s := by
  rcases markThreads_spec graph enough threads (MarkPhase.start tracks) stackWords fit with
    ⟨s₁, threadsEq, phase₁⟩
  rcases markNode_spec graph enough (t := s₁.1) (h := s₁.2) phase₁ fakeRoots nodes fakeWords with
    ⟨h', nodesEq, phase⟩
  refine ⟨(s₁.1, h'), ?_, phase.congr fun x => by simp⟩
  unfold Collector.markRoots
  rw [threadsEq]
  change ((collector fuel).markNode fakeRoots s₁.2 >>= _) = _
  rw [nodesEq]
  rfl

end PreciseGc

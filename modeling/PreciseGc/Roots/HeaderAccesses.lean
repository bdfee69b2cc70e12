import PreciseGc.Roots.FakeRootReferences
import PreciseGc.Roots.Restarts

/-!
# The words the mark phase touches

As long as a traversal starts at an object, every argument of `get_mark`, `mark`
and `pin` is the start of the data of a block in use.  The mark phase leaves
this path in three places.  A dereferenced root may be an interior pointer,
which `go` pins as if an object started there.  `mark_after_overflow` passes the
start of the data of a block to `go`, where the `base_meta` lies, and not the
object behind it.  `mark_node` marks the node of a fake root, which comes from
`malloc`.
-/

namespace PreciseGc

open Foundation

variable {pf : Platform} {threads : List ThreadHandler} {fakeRoots : FakeRoots}
  {t₀ t t' : DerefRoots} {h₀ h h' : Heap} {c : Census} {objects bigs : List Nat} {b p w fuel : Nat}

/-- The address is the start of an object or lies in its data. -/
def InsideObject (h : Heap) (objects : List Nat) (p : Nat) : Prop :=
  ∃ b ∈ objects, p = objectOf b ∨ objectOf b ≤ p ∧ p < b + 8 + blockSize (h.mem b)

/-- What a mark phase relies on: the blocks `objects` in use hold objects, every block in use has
room for a `base_meta` or the record of a composite pointer, dereferenced roots point into objects,
and the nodes of fake roots are no blocks of the collector. -/
structure AccessReady (pf : Platform) (threads : List ThreadHandler) (fakeRoots : FakeRoots)
    (t : DerefRoots) (h : Heap) (c : Census) (objects bigs : List Nat) : Prop where
  ok : AllocatorOk pf h c bigs
  inParts : ∀ q ∈ c.alive, ∃ part ∈ h.parts, part.start ≤ q ∧ q + pf.pageSize ≤ part.stop
  room : ∀ b, InUse h b → sizeofBaseMeta ≤ blockSize (h.mem b)
  graph : ObjectGraph h objects bigs (InUse h)
  inside : ∀ i, ∀ handler ∈ t.roots i, InsideObject h objects handler.plainPointer
  unmarked : Unmarked t
  stackRoot : ∀ a ∈ threads.flatMap ThreadHandler.stack, RootWord h objects (InUse h) a
  nodeApart : ∀ n ∈ fakeRoots.nodes, ∀ b, InUse h b → n.1 ≠ blockData b

/-- The table `t'` is `t` with other marks. -/
def MarksOnly (t t' : DerefRoots) : Prop := t' = { t with roots := t'.roots } ∧ SameRanges t t'

/-- The mark phase calls `get_mark`, `mark` and `pin` on the data of blocks in use only.  It
returns, and has changed headers of these blocks and marks of handlers only. -/
def TouchesHeadersOnly (fuel : Nat) (threads : List ThreadHandler) (fakeRoots : FakeRoots)
    (t : DerefRoots) (h : Heap) : Prop :=
  (∀ access ∈ markRootsAccesses fuel threads fakeRoots (t, h), access.OnHeader (InUse h)) ∧
    ∃ t' h', (collector fuel).markRoots fuel threads fakeRoots (t, h) = .ok (t', h') ∧
      h' = { h with mem := h'.mem } ∧ (∀ x, ¬InUse h x → h'.mem x = h.mem x) ∧ MarksOnly t t'

/-- If the stack word points into the heap and finds a dereferenced root, this is the start of an
object. -/
def FindsStart (h : Heap) (objects bigs : List Nat) (t : DerefRoots) (w : Nat) : Prop :=
  InHeap h bigs w → (t.lookup w).isSome = true → ∃ b ∈ objects, Hits t w b

namespace AccessReady

variable (ready : AccessReady pf threads fakeRoots t₀ h₀ c objects bigs)

include ready

theorem inHeap {x : Nat} (used : InUse h₀ b) (lower : b + 8 ≤ x)
    (upper : x < b + 8 + blockSize (h₀.mem b)) : InHeap h₀ bigs x := by
  rcases ready.ok.inUse_iff.mp used with ⟨q, qMem, bMem⟩ | ⟨big, bigMem, rfl⟩
  · have := (ready.ok.arena.pageOk q (Classifying.tiled_of_alive qMem)).block_bounds bMem
    rcases ready.inParts q qMem with ⟨part, partMem, low, high⟩
    exact Or.inl ⟨part, partMem, by omega, by omega⟩
  · refine Or.inr ⟨big, bigMem, ?_, ?_⟩
    · simp only [bigHeader] at lower
      omega
    · simp only [bigHeader] at upper ⊢
      simp only [bigData, sizeofBigBlock]
      omega

theorem disjoint {d : Nat} (bUsed : InUse h₀ b) (dUsed : InUse h₀ d) (different : b ≠ d) :
    b + 8 + blockSize (h₀.mem b) ≤ d ∨ d + 8 + blockSize (h₀.mem d) ≤ b :=
  ready.ok.used_disjoint (ready.ok.inUse_iff.mp bUsed) (ready.ok.inUse_iff.mp dUsed) different

/-- In front of an interior pointer lies no `base_meta`. -/
theorem interior_offHeader (inside : InsideObject h₀ objects p)
    (noStart : ∀ b ∈ objects, p ≠ objectOf b) :
    ∀ d, InUse h₀ d → getMetaInf p ≠ blockData d := by
  rcases inside with ⟨b, bMem, start | ⟨lower, upper⟩⟩
  · exact absurd start (noStart b bMem)
  · intro d dUsed same
    have notStart := noStart b bMem
    simp only [objectOf_eq] at lower notStart
    simp only [getMetaInf, blockData, sizeofBaseMeta, sizeofBlock] at same
    have different : b ≠ d := by omega
    have := ready.disjoint (ready.graph.header b bMem) dUsed different
    omega

/-- In front of the data of a block in use lies no `base_meta`. -/
theorem data_offHeader (used : InUse h₀ b) :
    ∀ d, InUse h₀ d → getMetaInf (blockData b) ≠ blockData d := by
  intro d dUsed same
  have room := ready.room d dUsed
  simp only [getMetaInf, blockData, sizeofBaseMeta, sizeofBlock] at same room
  have different : b ≠ d := by omega
  have := ready.disjoint used dUsed different
  omega

end AccessReady

/-- Only headers have changed. -/
def HeadersChanged (h₀ h : Heap) : Prop :=
  h = { h₀ with mem := h.mem } ∧ ∃ pins, Marking (InUse h₀) pins h₀.mem h.mem

/-- What holds between the steps of the mark phase as long as it touches headers only. -/
structure AccessPhase (t₀ : DerefRoots) (h₀ : Heap) (objects : List Nat) (s : DerefRoots × Heap) :
    Prop where
  headers : HeadersChanged h₀ s.2
  table : MarksOnly t₀ s.1
  starts : ∀ i, ∀ handler ∈ s.1.roots i, handler.isMarked = true →
    ∃ b ∈ objects, handler.plainPointer = objectOf b

/-- Some object is marked. -/
def SomeMarked (objects : List Nat) (m : Memory) : Prop := ∃ b ∈ objects, blockIsMarked (m b) = true

namespace HeadersChanged

theorem next (changed : HeadersChanged h₀ h) {pins : Nat → Prop}
    (heapEq : h' = { h with mem := h'.mem }) (marking : Marking (InUse h₀) pins h.mem h'.mem) :
    HeadersChanged h₀ h' := by
  rcases changed with ⟨eq, earlier, first⟩
  refine ⟨?_, _, first.trans marking⟩
  rw [heapEq, eq]

theorem graph (changed : HeadersChanged h₀ h) (graph₀ : ObjectGraph h₀ objects bigs (InUse h₀)) :
    ObjectGraph h objects bigs (InUse h₀) := by
  rcases changed with ⟨eq, _, marking⟩
  rw [eq]
  exact graph₀.marking marking

theorem goFuel (changed : HeadersChanged h₀ h) (graph₀ : ObjectGraph h₀ objects bigs (InUse h₀))
    (enough : GoFuel fuel h₀ objects bigs) : GoFuel fuel h objects bigs := by
  rcases changed with ⟨eq, _, marking⟩
  rw [eq]
  exact enough.marking graph₀ marking

theorem inHeap_iff (changed : HeadersChanged h₀ h) (x : Nat) : InHeap h bigs x ↔
    InHeap h₀ bigs x := by
  rcases changed with ⟨eq, _, marking⟩
  have parts : h.parts = h₀.parts := by rw [eq]
  simp only [InHeap, parts, marking.size]

/-- What `is_heap_pointer` answers. -/
theorem isHeapPointer (changed : HeadersChanged h₀ h)
    (graph₀ : ObjectGraph h₀ objects bigs (InUse h₀)) (enough : bigs.length < fuel) (x : Nat) :
    ∃ found, isHeapPointer fuel x h = .ok found ∧ (found = true ↔ InHeap h₀ bigs x) := by
  rcases @isHeapPointer_spec h bigs x fuel (changed.graph graph₀).bigChain enough with
    ⟨found, eq, iff⟩
  exact ⟨found, eq, iff.trans (changed.inHeap_iff x)⟩

end HeadersChanged

/-- Every handler found starts at an object. -/
theorem SameRanges.lookup_starts_iff (same : SameRanges t t') :
    (∀ handler, t'.lookup w = some handler → ∃ b ∈ objects, handler.plainPointer = objectOf b) ↔
      ((t.lookup w).isSome = true → ∃ b ∈ objects, Hits t w b) := by
  have found : (t.lookup w).isSome = (t'.lookup w).isSome := by
    rw [← Option.isSome_map, ← same.lookup_range w, Option.isSome_map]
  have hits : ∀ b, Hits t w b ↔ Hits t' w b := fun b => (same.hits_iff w b).symm
  rw [found]
  simp only [hits]
  unfold Hits
  cases t'.lookup w with
  | none => simp
  | some handler => simp

/-- Dereferenced roots keep pointing into objects. -/
theorem AccessPhase.inside {s : DerefRoots × Heap} (phase : AccessPhase t₀ h₀ objects s)
    (ready : AccessReady pf threads fakeRoots t₀ h₀ c objects bigs) (i : Nat) :
    ∀ handler ∈ s.1.roots i, InsideObject h₀ objects handler.plainPointer := by
  intro handler mem
  have inRanges : handler.range ∈ (t₀.roots i).map RootHandler.range := by
    rw [← phase.table.2 i]
    exact List.mem_map_of_mem mem
  rcases List.mem_map.mp inRanges with ⟨original, originalMem, same⟩
  rw [show handler.plainPointer = original.plainPointer from (congrArg Prod.fst same).symm]
  exact ready.inside i original originalMem

section Steps

variable (ready : AccessReady pf threads fakeRoots t₀ h₀ c objects bigs)
  (enough : GoFuel fuel h₀ objects bigs)

include ready enough

/-- The search in one chain is clean if and only if the handler it finds starts at an object. -/
theorem markChain_judged {chain : List RootHandler} (changed : HeadersChanged h₀ h)
    (inside : ∀ handler ∈ chain, InsideObject h₀ objects handler.plainPointer)
    (starts : ∀ handler ∈ chain, handler.isMarked = true →
      ∃ b ∈ objects, handler.plainPointer = objectOf b) :
    Judged (HeaderAccess.OnHeader (InUse h₀))
      (∀ handler, (chain.find? fun handler => handler.contains w) = some handler →
        ∃ b ∈ objects, handler.plainPointer = objectOf b)
      (fun r => HeadersChanged h₀ r.2 ∧
        r.1.map RootHandler.range = chain.map RootHandler.range ∧
          ∀ handler ∈ r.1, handler.isMarked = true →
            ∃ b ∈ objects, handler.plainPointer = objectOf b)
      (markChainAccesses fuel w chain h) ((collector fuel).markChain w true chain h) := by
  induction chain with
  | nil =>
      apply (Judged.clean (by simp [markChainAccesses]) rfl ⟨changed, rfl, starts⟩).congr
      simp
  | cons curr next ih =>
      unfold Collector.markChain markChainAccesses
      cases contains : curr.contains w with
      | false =>
          have later := ih (fun handler mem => inside handler (by simp [mem]))
            (fun handler mem => starts handler (by simp [mem]))
          rw [List.find?_cons, contains]
          apply later.map
          rintro r ⟨changed', ranges, starts'⟩
          refine ⟨changed', by simp [ranges], ?_⟩
          intro handler mem
          rcases List.mem_cons.mp mem with rfl | mem
          · exact starts handler (by simp)
          · exact starts' handler mem
      | true =>
          rw [List.find?_cons, contains]
          have decides : (∀ handler, some curr = some handler →
              ∃ b ∈ objects, handler.plainPointer = objectOf b) ↔
                ∃ b ∈ objects, curr.plainPointer = objectOf b := by
            simp
          rw [decides]
          cases isMarked : curr.isMarked with
          | true =>
              have start := starts curr (by simp) isMarked
              apply (Judged.clean (by simp) rfl ⟨changed, rfl, starts⟩).congr
              exact (iff_true_intro start).symm
          | false =>
              simp only [↓reduceIte, Bool.not_false]
              by_cases start : ∃ b ∈ objects, curr.plainPointer = objectOf b
              · rcases start with ⟨b, bMem, pointer⟩
                have graph := changed.graph ready.graph
                have goFuel := changed.goFuel ready.graph enough
                rcases go_spec graph goFuel bMem true with ⟨overflow, h', eq, heapEq, marking, _⟩
                rw [← pointer, ← RootHandler.plainPointer_mark] at eq
                have accesses := goAccesses_onHeader graph goFuel bMem true
                rw [← pointer, ← RootHandler.plainPointer_mark] at accesses
                have went : Judged (HeaderAccess.OnHeader (InUse h₀)) True
                    (fun r : Bool × Heap => HeadersChanged h₀ r.2)
                    (goAccesses fuel curr.mark.plainPointer true h)
                    (go fuel curr.mark.plainPointer true h) :=
                  Judged.clean accesses eq (changed.next heapEq marking)
                apply (went.map ?_).congr
                · exact (iff_true_intro ⟨b, bMem, pointer⟩).symm
                · intro r changed'
                  refine ⟨changed', by simp, ?_⟩
                  intro handler mem
                  rcases List.mem_cons.mp mem with rfl | mem
                  · exact fun _ => ⟨b, bMem, by simp [pointer]⟩
                  · exact starts handler (by simp [mem])
              · refine (Judged.spoilt ?_).congr (iff_false_intro start).symm
                -- `go` pins in front of the interior pointer
                have interior := inside curr (by simp)
                have noStart : ∀ b ∈ objects, curr.plainPointer ≠ objectOf b :=
                  fun b bMem pointer => start ⟨b, bMem, pointer⟩
                have offHeader := ready.interior_offHeader interior noStart
                rcases interior with ⟨b, bMem, atStart | ⟨lower, upper⟩⟩
                · exact absurd atStart (noStart b bMem)
                · rw [objectOf_eq] at lower
                  have inHeap : InHeap h₀ bigs curr.plainPointer :=
                    ready.inHeap (ready.graph.header b bMem) (by omega) upper
                  rcases changed.isHeapPointer ready.graph enough.bigs curr.plainPointer with
                    ⟨found, eq, iff⟩
                  rw [iff.mpr inHeap] at eq
                  rw [RootHandler.plainPointer_mark]
                  refine ⟨_, pin_mem_goAccesses (by omega) eq, ?_⟩
                  rintro ⟨d, dUsed, same⟩
                  exact offHeader d dUsed same

/-- One stack word. -/
theorem markDereferencedRoot_judged {s : DerefRoots × Heap}
    (phase : AccessPhase t₀ h₀ objects s) (inHeap : InHeap h₀ bigs w) :
    Judged (HeaderAccess.OnHeader (InUse h₀)) (FindsStart h₀ objects bigs t₀ w)
      (AccessPhase t₀ h₀ objects) (markDereferencedRootAccesses fuel w s)
      ((collector fuel).markDereferencedRoot w true s) := by
  have condition : (∀ handler, s.1.lookup w = some handler →
      ∃ b ∈ objects, handler.plainPointer = objectOf b) ↔ FindsStart h₀ objects bigs t₀ w := by
    rw [phase.table.2.lookup_starts_iff, FindsStart]
    exact ⟨fun holds _ => holds, fun holds => holds inHeap⟩
  rw [← condition]
  unfold Collector.markDereferencedRoot markDereferencedRootAccesses
  by_cases skipped : (w = 0 || w % 2 != 0) = true
  · rw [if_pos skipped, if_pos skipped]
    have missing : s.1.lookup w = none := by
      rw [DerefRoots.lookup, if_pos skipped]
    apply (Judged.clean (by simp) rfl phase).congr
    simp [missing]
  · rw [if_neg skipped, if_neg skipped]
    have lookup : s.1.lookup w =
        (s.1.roots (hashOfRoot w)).find? fun handler => handler.contains w := by
      rw [DerefRoots.lookup, if_neg skipped]
    rw [lookup]
    have searched := markChain_judged ready enough (w := w) phase.headers
      (fun handler mem => phase.inside ready (hashOfRoot w) handler mem)
        (phase.starts (hashOfRoot w))
    apply searched.map
    rintro r ⟨changed, ranges, starts⟩
    refine ⟨changed, ⟨?_, ?_⟩, ?_⟩
    · rw [phase.table.1]
    · intro i
      rw [← phase.table.2 i]
      by_cases same : i = hashOfRoot w
      · subst same
        simpa using ranges
      · simp [Function.update_of_ne same]
    · intro i handler mem
      by_cases same : i = hashOfRoot w
      · subst same
        apply starts handler
        simpa using mem
      · simp only [Function.update_of_ne same] at mem
        exact phase.starts i handler mem

/-- The words of a stack. -/
theorem markStack_judged (words : List Nat) {s : DerefRoots × Heap}
    (phase : AccessPhase t₀ h₀ objects s) :
    Judged (HeaderAccess.OnHeader (InUse h₀)) (∀ w ∈ words, FindsStart h₀ objects bigs t₀ w)
      (AccessPhase t₀ h₀ objects) (markStackAccesses fuel words s)
      ((collector fuel).markStack fuel true words s) := by
  induction words generalizing s with
  | nil =>
      apply (Judged.clean (by simp [markStackAccesses]) rfl phase).congr
      simp
  | cons w words ih =>
      rw [List.forall_mem_cons]
      unfold Collector.markStack markStackAccesses
      change Judged _ _ _ (after (isHeapPointer fuel w s.2) _) (isHeapPointer fuel w s.2 >>= _)
      rcases phase.headers.isHeapPointer ready.graph enough.bigs w with ⟨found, eq, iff⟩
      rw [eq]
      cases found with
      | false =>
          apply (ih phase).congr
          have outside : ¬InHeap h₀ bigs w := by simp [← iff]
          have holds : FindsStart h₀ objects bigs t₀ w := fun inHeap => absurd inHeap outside
          exact (and_iff_right holds).symm
      | true =>
          have inHeap : InHeap h₀ bigs w := iff.mp rfl
          apply (markDereferencedRoot_judged ready enough phase inHeap).andThen
          exact fun s' _ phase' => ih phase'

/-- The traversal from one root. -/
theorem goFrom_judged (changed : HeadersChanged h₀ h) (site : CallSite) {a : Nat}
    (root : RootWord h₀ objects (InUse h₀) a) :
    Judged (HeaderAccess.OnHeader (InUse h₀)) True
      (fun r => HeadersChanged h₀ r.2 ∧ (SomeMarked objects h.mem → SomeMarked objects r.2.mem) ∧
        (r.1 = true → SomeMarked objects r.2.mem))
      (goFromAccesses fuel a h) ((collector fuel).goFrom site a h) := by
  have graph := changed.graph ready.graph
  have goFuel := changed.goFuel ready.graph enough
  have points : PointsInto h.mem objects (InUse h₀) (h.mem a) := by
    rcases changed.2 with ⟨_, marking⟩
    rw [marking.others a root.1]
    exact ObjectGraph.pointsInto marking root.2
  rcases goFrom_object graph goFuel site points with ⟨r, eq, heapEq, marking, target⟩
  refine Judged.clean ?_ eq ⟨changed.next heapEq marking, ?_, ?_⟩
  · intro access mem
    rcases List.mem_append.mp mem with mem | mem
    · exact getNextObjAccesses_onHeader points access mem
    · rcases getNextObj_spec points with ⟨m, readEq, readMarking, _, null | ⟨b, bMem, isTarget⟩⟩
      · rw [null] at mem
        cases mem
      · have m_eq : (getNextObj a h.mem).2 = m := congrArg Prod.snd readEq
        rw [isTarget, m_eq] at mem
        exact goAccesses_onHeader (graph.marking readMarking)
          (goFuel.marking graph readMarking) bMem
          false access mem
  · rintro ⟨b, bMem, isMarked⟩
    exact ⟨b, bMem, marking.marked b isMarked⟩
  · intro overflow
    rcases target with ⟨_, fits⟩ | ⟨b, bMem, _, isMarked⟩
    · rw [fits] at overflow
      cases overflow
    · exact ⟨b, bMem, isMarked⟩

/-- The roots in a `StackMap`. -/
theorem markStackMap_judged (roots : List Nat)
    (words : ∀ a ∈ roots, RootWord h₀ objects (InUse h₀) a) {s : Bool × Heap}
    (changed : HeadersChanged h₀ s.2) (overflowed : s.1 = true → SomeMarked objects s.2.mem) :
    Judged (HeaderAccess.OnHeader (InUse h₀)) True
      (fun r => HeadersChanged h₀ r.2 ∧ (r.1 = true → SomeMarked objects r.2.mem))
      (markStackMapAccesses fuel roots s.2) ((collector fuel).markStackMap roots s) := by
  induction roots generalizing s with
  | nil => exact Judged.clean (by simp [markStackMapAccesses]) rfl ⟨changed, overflowed⟩
  | cons root roots ih =>
      apply ((goFrom_judged ready enough changed .stackMap (words root (by simp))).andThen ?_).congr
      · exact and_self_iff
      · rintro r _ ⟨changed', keeps, overflow⟩
        apply @ih (fun a mem => words a (by simp [mem])) (s.1 || r.1, r.2) changed'
        intro either
        rcases Bool.or_eq_true_iff.mp either with earlier | now
        · exact keeps (overflowed earlier)
        · exact overflow now

end Steps

/-- The link and the free block of a page are no headers. -/
theorem HeadersChanged.pageWords (changed : HeadersChanged h₀ h) {q x : Nat}
    (ok : AllocatorOk pf h₀ c bigs) (qMem : q ∈ c.alive) (word : x = q ∨ x = q + 8) :
    h.mem x = h₀.mem x := by
  rcases changed.2 with ⟨_, marking⟩
  apply marking.others
  intro used
  have qTiled := Classifying.tiled_of_alive qMem
  rcases ok.inUse_iff.mp used with ⟨p, pMem, xMem⟩ | ⟨big, bigMem, rfl⟩
  · have pTiled := Classifying.tiled_of_alive pMem
    have bounds := (ok.arena.pageOk p pTiled).block_bounds xMem
    by_cases same : p = q
    · subst same
      omega
    · have := ok.arena.apart (Arena.tiled_pages pTiled) (Arena.tiled_pages qTiled) same
      have := pf.pageSize_ge
      omega
  · have := ok.big.pages big bigMem q (Arena.tiled_pages qTiled)
    have := bigLength_ge pf h₀.mem big
    have := pf.pageSize_ge
    simp only [bigHeader] at *
    omega

section Restarts

variable (ready : AccessReady pf threads fakeRoots t₀ h₀ c objects bigs)
  (fuelEnough : sweepFuel pf c bigs ≤ fuel)

include ready fuelEnough

/-- A restart from a marked block makes `go` look in front of the data of the block. -/
theorem restartAccesses_bad (changed : HeadersChanged h₀ h) (used : InUse h₀ b)
    (marked : blockIsMarked (h.mem b) = true) {data : Nat} (dataEq : data = blockData b) :
    ∃ access ∈ restartAccesses fuel b data h, ¬access.OnHeader (InUse h₀) := by
  subst dataEq
  have room := ready.room b used
  simp only [sizeofBaseMeta] at room
  have inHeap : InHeap h₀ bigs (blockData b) :=
    ready.inHeap used (by simp [blockData, sizeofBlock])
      (by simp only [blockData, sizeofBlock]; omega)
  have bigsEnough : bigs.length < fuel := by
    unfold sweepFuel at fuelEnough
    omega
  rcases changed.isHeapPointer ready.graph bigsEnough (blockData b) with ⟨found, eq, iff⟩
  rw [iff.mpr inHeap] at eq
  have nonnull : blockData b ≠ 0 := by simp [blockData, sizeofBlock]
  unfold restartAccesses
  rw [if_pos marked]
  refine ⟨_, getMark_mem_goAccesses nonnull eq (by omega), ?_⟩
  rintro ⟨d, dUsed, same⟩
  exact ready.data_offHeader used d dUsed same

/-- A change to headers leaves the lists of pages and blocks as they are. -/
theorem HeadersChanged.rescannable (changed : HeadersChanged h₀ h) :
    Rescannable h c bigs fuel := by
  have walks := ready.ok.rescannable fuelEnough
  refine
    { walks with
      bigChain := (changed.graph ready.graph).bigChain, pageChain := ?_, tiles := ?_ }
  · have firstPage : h.firstPage = h₀.firstPage := by rw [changed.1]
    rw [firstPage]
    apply walks.pageChain.congr
    exact fun q mem => changed.pageWords ready.ok mem (Or.inl rfl)
  · intro q mem
    have free : freeBlock h.mem q = freeBlock h₀.mem q :=
      changed.pageWords ready.ok mem (Or.inr rfl)
    rw [free]
    apply (walks.tiles q mem).congr
    intro b _
    rcases changed.2 with ⟨_, marking⟩
    simp only [blockExtent, marking.size]

/-- When an object is marked, `mark_after_overflow` looks in front of the data of a block. -/
theorem markAfterOverflowAccesses_bad (changed : HeadersChanged h₀ h)
    (marked : SomeMarked objects h.mem) :
    ∃ access ∈ markAfterOverflowAccesses fuel h, ¬access.OnHeader (InUse h₀) := by
  rw [markAfterOverflowAccesses_eq]
  apply (changed.rescannable ready fuelEnough).record_bad
  · intro b used isMarked
    exact restartAccesses_bad ready fuelEnough changed (ready.ok.inUse_iff.mpr used) isMarked rfl
  · rcases marked with ⟨b, mem, isMarked⟩
    exact ⟨b, ready.ok.inUse_iff.mp (ready.graph.header b mem), isMarked⟩

/-- Rescanning is clean if and only if there is nothing to rescan. -/
theorem rescan_judged (changed : HeadersChanged h₀ h) {overflow : Bool}
    (marked : overflow = true → SomeMarked objects h.mem) :
    Judged (HeaderAccess.OnHeader (InUse h₀)) (overflow = false) (fun h' => h' = h)
      (rescanAccesses fuel fuel overflow h) ((collector fuel).rescan fuel overflow h) := by
  cases overflow with
  | false =>
      have returns : (collector fuel).rescan fuel false h = .ok h := by
        cases fuel <;> rfl
      have silent : rescanAccesses fuel fuel false h = [] := by
        cases fuel <;> rfl
      rw [silent]
      refine (@Judged.clean _ _ _ _ (fun h' => h' = h) _ _ _ (by simp) returns rfl).congr ?_
      simp
  | true =>
      refine (Judged.spoilt ?_).congr (by simp)
      rcases markAfterOverflowAccesses_bad ready fuelEnough changed (marked rfl) with
        ⟨access, mem, bad⟩
      have some : 0 < fuel := by
        unfold sweepFuel at fuelEnough
        omega
      exact ⟨access, mem_rescanAccesses some mem, bad⟩

end Restarts

section Phase

variable (ready : AccessReady pf threads fakeRoots t₀ h₀ c objects bigs)
  (enough : GoFuel fuel h₀ objects bigs) (fuelEnough : sweepFuel pf c bigs ≤ fuel)

include ready enough fuelEnough

/-- One thread. -/
theorem markThread_judged (thread : ThreadHandler)
    (roots : ∀ a ∈ thread.stack, RootWord h₀ objects (InUse h₀) a) {s : DerefRoots × Heap}
    (phase : AccessPhase t₀ h₀ objects s) :
    Judged (HeaderAccess.OnHeader (InUse h₀))
      ((∀ w ∈ thread.stackWords, FindsStart h₀ objects bigs t₀ w) ∧
        ∀ s₁, (collector fuel).markStack fuel true thread.stackWords s = .ok s₁ →
          ∀ r, (collector fuel).markStackMap thread.stack (false, s₁.2) = .ok r → r.1 = false)
      (fun s' => AccessPhase t₀ h₀ objects s' ∧
        ∃ s₁ r, (collector fuel).markStack fuel true thread.stackWords s = .ok s₁ ∧
          (collector fuel).markStackMap thread.stack (false, s₁.2) = .ok r ∧ s' = (s₁.1, r.2))
      (markThreadAccesses fuel thread s) ((collector fuel).markThread fuel thread s) := by
  apply (markStack_judged ready enough thread.stackWords phase).bind
  intro s₁ stackEq phase₁
  have mapped := @markStackMap_judged _ _ _ _ _ _ _ _ _ ready enough thread.stack roots
    (false, s₁.2) phase₁.headers fun never => by cases never
  refine Judged.congr ?_ (and_iff_right trivial)
  apply mapped.bind
  rintro r mapEq ⟨changed, marked⟩
  apply (rescan_judged ready fuelEnough changed marked).map
  rintro state rfl
  exact ⟨⟨changed, phase₁.table, phase₁.starts⟩, s₁, r, stackEq, mapEq, rfl⟩

/-- All threads. -/
theorem markThreads_judged (later : List ThreadHandler)
    (roots : ∀ a ∈ later.flatMap ThreadHandler.stack, RootWord h₀ objects (InUse h₀) a)
    {s : DerefRoots × Heap} (phase : AccessPhase t₀ h₀ objects s) :
    Judged (HeaderAccess.OnHeader (InUse h₀))
      ((∀ w ∈ later.flatMap ThreadHandler.stackWords, FindsStart h₀ objects bigs t₀ w) ∧
        stackMapsFit fuel later s = true)
      (AccessPhase t₀ h₀ objects) (markThreadsAccesses fuel later s)
      ((collector fuel).markThreads fuel later s) := by
  induction later generalizing s with
  | nil =>
      apply (Judged.clean (by simp [markThreadsAccesses]) rfl phase).congr
      simp [stackMapsFit]
  | cons thread later ih =>
      have own : ∀ a ∈ thread.stack, RootWord h₀ objects (InUse h₀) a :=
        fun a mem => roots a (by simp [mem])
      have rest : ∀ a ∈ later.flatMap ThreadHandler.stack, RootWord h₀ objects (InUse h₀) a := by
        intro a mem
        apply roots
        rw [List.flatMap_cons]
        exact List.mem_append_right _ mem
      have marked := markThread_judged ready enough fuelEnough thread own phase
      refine (marked.bind fun s' _ reached => ih rest reached.1).congr ?_
      rw [List.flatMap_cons, List.forall_mem_append]
      constructor
      · rintro ⟨⟨finds, fits⟩, holds⟩
        rcases (marked.1 ⟨finds, fits⟩).2 with ⟨s', eq, _, s₁, r, stackEq, mapEq, rfl⟩
        have last := holds _ eq
        refine ⟨⟨finds, last.1⟩, ?_⟩
        simp [stackMapsFit, stackEq, mapEq, fits s₁ stackEq r mapEq, last.2]
      · rintro ⟨⟨finds, findsLater⟩, fit⟩
        have fits : ∀ s₁, (collector fuel).markStack fuel true thread.stackWords s = .ok s₁ →
            ∀ r, (collector fuel).markStackMap thread.stack (false, s₁.2) = .ok r →
              r.1 = false := by
          intro s₁ stackEq r mapEq
          simp only [stackMapsFit, stackEq, mapEq, Bool.and_eq_true, Bool.not_eq_true'] at fit
          exact fit.1
        refine ⟨⟨finds, fits⟩, fun s' eq => ⟨findsLater, ?_⟩⟩
        rcases (marked.1 ⟨finds, fits⟩).2 with ⟨_, eq', _, s₁, r, stackEq, mapEq, rfl⟩
        rw [eq'] at eq
        cases eq
        simp only [stackMapsFit, stackEq, mapEq, Bool.and_eq_true, Bool.not_eq_true'] at fit
        exact fit.2

omit enough fuelEnough in
/-- The fake roots. -/
theorem markNode_judged (changed : HeadersChanged h₀ h) :
    Judged (HeaderAccess.OnHeader (InUse h₀)) (fakeRoots = .null) (HeadersChanged h₀)
      (markNodeAccesses fuel fakeRoots h) ((collector fuel).markNode fakeRoots h) := by
  have apart := ready.nodeApart
  cases fakeRoots with
  | null =>
      apply (Judged.clean (by simp [markNodeAccesses]) rfl changed).congr
      simp
  | node self addr height left right =>
      refine (Judged.spoilt ⟨HeaderAccess.mark self, List.mem_cons_self, ?_⟩).congr (by simp)
      rintro ⟨b, used, same⟩
      exact apart (self, addr) (by simp [FakeRoots.nodes]) b used same

theorem markRoots_judged :
    Judged (HeaderAccess.OnHeader (InUse h₀))
      (((∀ w ∈ threads.flatMap ThreadHandler.stackWords, FindsStart h₀ objects bigs t₀ w) ∧
        stackMapsFit fuel threads (t₀, h₀) = true) ∧ fakeRoots = .null)
      (AccessPhase t₀ h₀ objects) (markRootsAccesses fuel threads fakeRoots (t₀, h₀))
      ((collector fuel).markRoots fuel threads fakeRoots (t₀, h₀)) := by
  have start : AccessPhase t₀ h₀ objects (t₀, h₀) :=
    { headers := ⟨rfl, _, Marking.refl _ _⟩
      table := ⟨rfl, fun _ => rfl⟩
      starts := fun i handler mem isMarked => by
        rw [ready.unmarked i handler mem] at isMarked
        cases isMarked }
  apply (markThreads_judged ready enough fuelEnough threads ready.stackRoot start).andThen
  intro s _ phase
  apply (markNode_judged ready phase.headers).map
  exact fun h' changed => ⟨changed, phase.table, phase.starts⟩

end Phase

/-- The mark phase touches nothing but headers of blocks in use and marks of handlers if and only if
every dereferenced root that a stack word finds is the start of an object, no traversal from a
`StackMap` root overflows the mark stack, and there are no fake roots. -/
theorem markRoots_touchesHeadersOnly_iff
    (ready : AccessReady pf threads fakeRoots t₀ h₀ c objects bigs)
    (enough : GoFuel fuel h₀ objects bigs) (fuelEnough : sweepFuel pf c bigs ≤ fuel) :
    TouchesHeadersOnly fuel threads fakeRoots t₀ h₀ ↔
      (∀ w ∈ threads.flatMap ThreadHandler.stackWords, FindsStart h₀ objects bigs t₀ w) ∧
        stackMapsFit fuel threads (t₀, h₀) = true ∧ fakeRoots = .null := by
  have judged := markRoots_judged ready enough fuelEnough
  rw [← and_assoc, ← judged.good_iff]
  constructor
  · exact fun touches => touches.1
  · intro accesses
    rcases (judged.1 (judged.good_iff.mp accesses)).2 with ⟨⟨t', h'⟩, returns, phase⟩
    have frame := markRoots_frame accesses returns
    exact ⟨accesses, t', h', returns, frame.1, frame.2, phase.table⟩

theorem sampleHeap_allocatorOk :
    AllocatorOk noMemory (sampleHeap false) sampleCensus [196608] where
  arena := sampleHeap_arena false
  heldNil := rfl
  fromNil := rfl
  noBuckets _ := rfl
  big := sampleHeap_bigBlocks false

/-- In `sampleHeap` both objects are in use and nothing else is. -/
theorem sampleHeap_inUse {x : Nat} : InUse (sampleHeap false) x ↔ x = 65552 ∨ x = 196616 := by
  rw [sampleHeap_allocatorOk.inUse_iff]
  simp [Census.Used, sampleCensus, bigHeader]

theorem sampleHeap_usedGraph :
    ObjectGraph (sampleHeap false) sampleObjects [196608] (InUse (sampleHeap false)) := by
  have graph := sampleHeap_graph
  have isHeader : ∀ x, InUse (sampleHeap false) x → sampleHeaders x := by
    intro x used
    rcases sampleHeap_inUse.mp used with rfl | rfl
    · exact Or.inl rfl
    · exact Or.inr (Or.inl rfl)
  have notRecord : ∀ b ∈ sampleObjects, ∀ x ∈ slotsOf (sampleHeap false).mem b,
      isCompositePointer ((sampleHeap false).mem x) = false := by
    decide
  refine
    { header := ?_, object := ?_, dataApart := ?_, bounded := graph.bounded,
      bigChain := graph.bigChain, bigApart := ?_, inHeap := graph.inHeap, pointer := ?_ }
  · intro b mem
    rw [sampleHeap_inUse]
    simpa [sampleObjects] using mem
  · exact fun b mem => (graph.object b mem).mono fun x apart used => apart (isHeader x used)
  · exact fun b mem x lower upper used => graph.dataApart b mem x lower upper (isHeader x used)
  · exact fun big mem used => graph.bigApart big mem (isHeader big used)
  · intro b mem x slot
    rcases graph.pointer b mem x slot with null | plain | ⟨r, _, _, _, composite, _⟩
    · exact Or.inl null
    · exact Or.inr (Or.inl plain)
    · rw [notRecord b mem x slot] at composite
      cases composite

theorem sampleHeap_accessReady : AccessReady noMemory sampleThreads sampleFakeRoots {}
    (sampleHeap false) sampleCensus sampleObjects [196608] := by
  refine
    { ok := sampleHeap_allocatorOk, inParts := ?_, room := ?_, graph := sampleHeap_usedGraph,
      inside := by simp, unmarked := by simp [Unmarked], stackRoot := ?_, nodeApart := ?_ }
  · intro q mem
    refine ⟨⟨65536, 73728⟩, by decide, ?_⟩
    revert q
    decide
  · intro b used
    rcases sampleHeap_inUse.mp used with rfl | rfl
    · decide
    · decide
  · intro a mem
    have : a = 133120 := by simpa [sampleThreads] using mem
    subst this
    refine ⟨?_, Or.inr (Or.inl ⟨65552, by decide, by decide⟩)⟩
    rw [sampleHeap_inUse]
    decide
  · intro n mem b used
    have : n = (262144, 133128) := by simpa [sampleFakeRoots, FakeRoots.nodes] using mem
    subst this
    rcases sampleHeap_inUse.mp used with rfl | rfl
    · decide
    · decide

theorem markRoots_touchesHeadersOnly_iff_sampleHeap :
    TouchesHeadersOnly 32768 sampleThreads sampleFakeRoots {} (sampleHeap false) ↔
      (∀ w ∈ sampleThreads.flatMap ThreadHandler.stackWords,
        FindsStart (sampleHeap false) sampleObjects [196608] {} w) ∧
          stackMapsFit 32768 sampleThreads ({}, sampleHeap false) = true ∧
            sampleFakeRoots = .null :=
  markRoots_touchesHeadersOnly_iff sampleHeap_accessReady sampleHeap_goFuel (by decide)

theorem sampleHeap_marksNode : HeaderAccess.mark 262144 ∈
    markRootsAccesses 32768 sampleThreads sampleFakeRoots ({}, sampleHeap false) := by
  decide +kernel

/-- The mark phase marks the node of the fake root, which is no block of the collector. -/
theorem markRoots_touches_node :
    ¬TouchesHeadersOnly 32768 sampleThreads sampleFakeRoots {} (sampleHeap false) := by
  intro touches
  rcases touches.1 _ sampleHeap_marksNode with ⟨b, used, same⟩
  simp only [HeaderAccess.ptr, blockData, sizeofBlock] at same
  rcases sampleHeap_inUse.mp used with rfl | rfl
  · omega
  · omega

end PreciseGc

import PreciseGc.Mark.Recording
import PreciseGc.Mark.Scanning

/-!
# The header accesses of a traversal

`get_mark`, `mark` and `pin` take their argument for the start of the data of a
block and access the word in front of it.  Next to each function of the
traversal stands the list of the calls of these three that it makes.  The lists
are complete: a traversal changes no word in front of which no recorded
argument lies.
-/

namespace PreciseGc

open Foundation Memory

/-- A call of `get_mark(ptr)`, `mark(ptr)` or `pin(ptr)`. -/
inductive HeaderAccess where
  | getMark (ptr : Nat)
  | mark (ptr : Nat)
  | pin (ptr : Nat)
deriving DecidableEq, Repr

namespace HeaderAccess

/-- The argument of the call. -/
def ptr : HeaderAccess → Nat
  | getMark ptr => ptr
  | mark ptr => ptr
  | pin ptr => ptr

/-- The argument is the start of the data of a block whose header is in `headers`. -/
def OnHeader (headers : Nat → Prop) (access : HeaderAccess) : Prop :=
  ∃ b, headers b ∧ access.ptr = blockData b

end HeaderAccess

/-- Those of `get_ptr(ptr)`. -/
def getPtrAccesses (ptr : Nat) : List HeaderAccess :=
  if isCompositePointer ptr then [.mark (clearBothFlags ptr)] else []

/-- Those of `get_next_obj(v)`. -/
def getNextObjAccesses (v : Nat) (m : Memory) : List HeaderAccess :=
  if clearBothFlags (m v) = 0 then [] else getPtrAccesses (m v)

/-- Those of the body of the inner loop of `go`. -/
def goSlotAccesses (slot : Nat) (t : Traversal) : List HeaderAccess :=
  let p := (getNextObj slot t.heap.mem).1
  getNextObjAccesses slot t.heap.mem ++ if p ≠ 0 then [.getMark (getMetaInf p)] else []

/-- The calls of `get_mark`, `mark` and `pin`. -/
def accessObserver : Observer HeaderAccess where
  pin pointer := [.pin (getMetaInf pointer)]
  visit bm t := .getMark bm :: if !getMark bm t.heap.mem then [.mark bm] else []
  slot := goSlotAccesses

/-- Those of `go(pointer, pin_root)`. -/
def goAccesses (fuel : Nat) (pointer : Nat) (pinRoot : Bool) (h : Heap) : List HeaderAccess :=
  goRecord accessObserver fuel pointer pinRoot h

/-- A traversal that pins its root does so first. -/
theorem pin_mem_goAccesses {fuel pointer : Nat} {h : Heap} (nonnull : pointer ≠ 0)
    (inHeap : isHeapPointer fuel pointer h = .ok true) :
    .pin (getMetaInf pointer) ∈ goAccesses fuel pointer true h := by
  unfold goAccesses goRecord
  rw [if_neg nonnull, inHeap]
  apply List.mem_append_left
  simp [accessObserver]

/-- A traversal looks at the mark in front of its root. -/
theorem getMark_mem_goAccesses {fuel pointer : Nat} {h : Heap} (nonnull : pointer ≠ 0)
    (inHeap : isHeapPointer fuel pointer h = .ok true) (some : 0 < fuel) :
    .getMark (getMetaInf pointer) ∈ goAccesses fuel pointer false h := by
  have popped : .getMark (getMetaInf pointer) ∈
      goObjectRecord accessObserver fuel pointer ⟨h, [], false⟩ := by
    unfold goObjectRecord
    rw [if_neg nonnull, inHeap]
    exact List.mem_append_left _ List.mem_cons_self
  obtain ⟨rest, rfl⟩ : ∃ rest, fuel = rest + 1 := ⟨fuel - 1, by omega⟩
  unfold goAccesses goRecord
  rw [if_neg nonnull, inHeap]
  apply List.mem_append_right
  unfold goLoopRecord
  rw [walkRecord]
  apply List.mem_append_left
  exact popped

/-- The heap `h'` differs from `h` only in words in front of a recorded argument. -/
def WritesWithin (record : List HeaderAccess) (h h' : Heap) : Prop :=
  h' = { h with mem := h'.mem } ∧
    ∀ x, (∀ access ∈ record, getBlock access.ptr ≠ x) → h'.mem x = h.mem x

namespace WritesWithin

variable {record record' : List HeaderAccess} {h h' h'' : Heap}

theorem refl (h : Heap) : WritesWithin [] h h := ⟨rfl, fun _ _ => rfl⟩

theorem trans (record record' : List HeaderAccess) (h h' h'' : Heap)
    (first : WritesWithin record h h') (second : WritesWithin record' h' h'') :
    WritesWithin (record ++ record') h h'' := by
  constructor
  · rw [second.1, first.1]
  · intro x apart
    have later : h''.mem x = h'.mem x :=
      second.2 x fun access mem => apart access (List.mem_append_right _ mem)
    rw [later]
    exact first.2 x fun access mem => apart access (List.mem_append_left _ mem)

/-- Recording more allows more. -/
theorem more (within : WritesWithin record h h') (included : ∀ access ∈ record, access ∈ record') :
    WritesWithin record' h h' :=
  ⟨within.1, fun x apart => within.2 x fun access mem => apart access (included access mem)⟩

theorem mark (ptr : Nat) (h : Heap) :
    WritesWithin [.mark ptr] h { h with mem := mark ptr h.mem } := by
  refine ⟨rfl, fun x apart => ?_⟩
  apply write_of_ne
  exact (apart (.mark ptr) (by simp)).symm

theorem pin (ptr : Nat) (h : Heap) :
    WritesWithin [.pin ptr] h { h with mem := pin ptr h.mem } := by
  refine ⟨rfl, fun x apart => ?_⟩
  apply write_of_ne
  exact (apart (.pin ptr) (by simp)).symm

end WritesWithin

theorem getNextObj_within (v : Nat) (h : Heap) :
    WritesWithin (getNextObjAccesses v h.mem) h { h with mem := (getNextObj v h.mem).2 } := by
  unfold getNextObj getNextObjAccesses
  split
  · exact WritesWithin.refl h
  · unfold getPtr getPtrAccesses
    split
    · exact WritesWithin.mark _ h
    · exact WritesWithin.refl h

theorem goSlot_within (slot : Nat) (t : Traversal) :
    WritesWithin (goSlotAccesses slot t) t.heap (goSlot slot t).heap := by
  have read := getNextObj_within slot t.heap
  have moved : (goSlot slot t).heap = { t.heap with mem := (getNextObj slot t.heap.mem).2 } := by
    unfold goSlot
    dsimp only
    split
    · unfold push
      split
      · rfl
      · rfl
    · rfl
  rw [moved]
  apply read.more
  exact fun access mem => List.mem_append_left _ mem

theorem accessObserver_explains :
    accessObserver.Explains fun record t t' => WritesWithin record t.heap t'.heap where
  refl t := WritesWithin.refl t.heap
  trans xs ys t t' t'' := WritesWithin.trans xs ys t.heap t'.heap t''.heap
  slot := goSlot_within
  visit bm t := by
    unfold visitObject accessObserver
    cases isMarked : getMark bm t.heap.mem with
    | true =>
        apply (WritesWithin.refl t.heap).more
        simp
    | false =>
        apply (WritesWithin.mark bm t.heap).more
        simp [isMarked]
  pop _ _ _ within := within

/-- A traversal writes only in front of recorded arguments. -/
theorem go_within (fuel pointer : Nat) (pinRoot : Bool) (h : Heap) :
    Yields (fun _ => True) (fun r => WritesWithin (goAccesses fuel pointer pinRoot h) h r.2)
      (go fuel pointer pinRoot h) := by
  unfold go goAccesses goRecord
  split
  · exact WritesWithin.refl h
  · cases isHeapPointer fuel pointer h with
    | error fault => trivial
    | ok inHeap =>
        cases inHeap with
        | false => exact WritesWithin.refl h
        | true =>
            have pinned : WritesWithin (if pinRoot then accessObserver.pin pointer else []) h
                { h with mem := if pinRoot then pin (getMetaInf pointer) h.mem else h.mem } := by
              cases pinRoot with
              | true => exact WritesWithin.pin _ h
              | false => exact WritesWithin.refl h
            refine (accessObserver_explains.loop fuel ⟨_, [pointer], false⟩).bind fun t within => ?_
            exact WritesWithin.trans _ _ _ _ _ pinned within

section Graph

variable {h : Heap} {objects bigs : List Nat} {headers pins : Nat → Prop} {m : Memory}
  {t : Traversal} {b fuel : Nat}

/-- Following a pointer word marks at most the record of a composite pointer. -/
theorem getNextObjAccesses_onHeader {x : Nat} (points : PointsInto m objects headers (m x)) :
    ∀ access ∈ getNextObjAccesses x m, access.OnHeader headers := by
  unfold getNextObjAccesses getPtrAccesses
  rcases points with null | ⟨b, mem, designates⟩ |
    ⟨r, isHeader, notObject, notHeader, composite, record, b, mem, base⟩
  · simp [null.2]
  · simp [designates.1]
  · rw [record, composite, if_neg (by simp [blockData, sizeofBlock])]
    intro access only
    rw [if_pos rfl, List.mem_singleton] at only
    subst only
    exact ⟨r, isHeader, rfl⟩

theorem goSlotAccesses_onHeader (isHeader : ∀ b ∈ objects, headers b) {x : Nat}
    (points : PointsInto t.heap.mem objects headers (t.heap.mem x)) :
    ∀ access ∈ goSlotAccesses x t, access.OnHeader headers := by
  intro access mem
  unfold goSlotAccesses at mem
  rcases List.mem_append.mp mem with mem | mem
  · exact getNextObjAccesses_onHeader points access mem
  · rcases getNextObj_spec points with ⟨_, _, _, _, null | ⟨b, bMem, target⟩⟩
    · rw [if_neg (by simp [null])] at mem
      cases mem
    · split at mem
      · rw [List.mem_singleton.mp mem, target]
        exact ⟨b, isHeader b bMem, getMetaInf_objectOf b⟩
      · cases mem

section Object

variable (graph : ObjectGraph h objects bigs headers) (bMem : b ∈ objects)

include graph bMem

theorem goSlotsAccesses_onHeader {i v count j : Nat} (iLess : i < countOf h.mem b)
    (dataEq : v % wordSpace = (objectOf b + i * shellSize h.mem (shellOf h.mem b)) % wordSpace)
    (range : j + count ≤ shellCount h.mem (shellOf h.mem b))
    (marking : Marking headers pins h.mem t.heap.mem) :
    ∀ access ∈ goSlotsRecord accessObserver (blockData b) v count j t, access.OnHeader headers := by
  induction count generalizing j t with
  | zero => simp [goSlotsRecord]
  | succ count ih =>
      intro access mem
      have less : j < shellCount h.mem (shellOf h.mem b) := by omega
      have points := graph.pointsInto_slot bMem iLess less dataEq marking
      rcases List.mem_append.mp mem with mem | mem
      · exact goSlotAccesses_onHeader graph.header points access mem
      · exact ih (by omega) (marking.andMark (goSlot_spec points).marking) access mem

theorem goElementsAccesses_onHeader {i v : Nat}
    (dataEq : v % wordSpace = (objectOf b + i * shellSize h.mem (shellOf h.mem b)) % wordSpace)
    (marking : Marking headers pins h.mem t.heap.mem) :
    ∀ access ∈ goElementsRecord accessObserver (blockData b) (shellSize h.mem (shellOf h.mem b))
      (shellCount h.mem (shellOf h.mem b)) fuel i v t, access.OnHeader headers := by
  induction fuel generalizing i v t with
  | zero => simp [goElementsRecord]
  | succ fuel ih =>
      intro access mem
      rw [goElementsRecord] at mem
      split at mem
      · rename_i running
        have count : metaCount t.heap.mem (blockData b) = countOf h.mem b :=
          (graph.shape marking bMem).count
        have less : i < countOf h.mem b := by omega
        have range := Nat.le_of_eq (Nat.zero_add (shellCount h.mem (shellOf h.mem b)))
        rcases List.mem_append.mp mem with mem | mem
        · exact goSlotsAccesses_onHeader graph bMem less dataEq range marking access mem
        · have scanned := goSlots_spec graph bMem less dataEq range marking
          exact ih (ptrAdd_element dataEq) (marking.andMark scanned.marking) access mem
      · cases mem

theorem goObjectAccesses_onHeader (marking : Marking headers pins h.mem t.heap.mem) :
    ∀ access ∈ goObjectRecord accessObserver fuel (objectOf b) t, access.OnHeader headers := by
  have visited : Marking headers pins h.mem (t.visit b).heap.mem :=
    marking.andMark (Traversal.visit_spec (graph.header b bMem)).2.2.1
  have same := graph.shape visited bMem
  have shellEq : metaShell (t.visit b).heap.mem (blockData b) = shellOf h.mem b := same.shell
  intro access mem
  unfold goObjectRecord at mem
  split at mem
  · cases mem
  · cases found : isHeapPointer fuel (objectOf b) t.heap with
    | error fault => simp [found] at mem
    | ok inHeap =>
        cases inHeap with
        | false => simp [found] at mem
        | true =>
            rw [found, after_ok, getMetaInf_objectOf] at mem
            change access ∈ accessObserver.visit (blockData b) t ++
              (if shellCount (t.visit b).heap.mem (metaShell (t.visit b).heap.mem (blockData b)) = 0
                then [] else goElementsRecord accessObserver (blockData b)
                  (shellSize (t.visit b).heap.mem (metaShell (t.visit b).heap.mem (blockData b)))
                  (shellCount (t.visit b).heap.mem (metaShell (t.visit b).heap.mem (blockData b)))
                  fuel 0 (objectOf b) (t.visit b)) at mem
            rw [shellEq, same.slots, same.size] at mem
            rcases List.mem_append.mp mem with mem | mem
            · refine ⟨b, graph.header b bMem, ?_⟩
              rcases List.mem_cons.mp mem with rfl | mem
              · rfl
              · split at mem
                · rw [List.mem_singleton.mp mem]
                  rfl
                · cases mem
            · split at mem
              · cases mem
              · have dataEq : objectOf b % wordSpace =
                    (objectOf b + 0 * shellSize h.mem (shellOf h.mem b)) % wordSpace := by
                  rw [Nat.zero_mul, Nat.add_zero]
                exact goElementsAccesses_onHeader graph bMem dataEq visited access mem

end Object

theorem goLoopAccesses_onHeader (graph : ObjectGraph h objects bigs headers)
    (enough : GoFuel fuel h objects bigs) {root : Nat}
    (inv : Traversing h objects headers pins root t) :
    ∀ access ∈ goLoopRecord accessObserver fuel t, access.OnHeader headers := by
  refine walkRecord_good (fun _ t => Traversing h objects headers pins root t) ?_ inv
  intro _ t inv running
  cases top : t.stack with
  | nil => simp [top] at running
  | cons p rest =>
      rcases inv.entries p (by simp [top]) with ⟨b, bMem, rfl⟩
      rw [List.headD_cons, List.tail_cons]
      constructor
      · apply goObjectAccesses_onHeader graph bMem
        exact inv.marking
      · rcases inv.step graph enough top with ⟨t', eq, inv', _⟩
        rw [eq]
        exact inv'

/-- A traversal that starts at an object accesses headers only. -/
theorem goAccesses_onHeader (graph : ObjectGraph h objects bigs headers)
    (enough : GoFuel fuel h objects bigs) (bMem : b ∈ objects) (pinRoot : Bool) :
    ∀ access ∈ goAccesses fuel (objectOf b) pinRoot h, access.OnHeader headers := by
  have start := Traversing.start graph bMem pinRoot
  intro access mem
  unfold goAccesses goRecord at mem
  split at mem
  · cases mem
  · cases found : isHeapPointer fuel (objectOf b) h with
    | error fault => simp [found] at mem
    | ok inHeap =>
        cases inHeap with
        | false => simp [found] at mem
        | true =>
            rw [found, after_ok, getMetaInf_objectOf] at mem
            rcases List.mem_append.mp mem with mem | mem
            · split at mem
              · rw [List.mem_singleton.mp mem]
                exact ⟨b, graph.header b bMem, rfl⟩
              · cases mem
            · exact goLoopAccesses_onHeader graph enough start access mem

end Graph

end PreciseGc

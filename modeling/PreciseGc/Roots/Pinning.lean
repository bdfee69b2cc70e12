import PreciseGc.Mark.Scanning
import PreciseGc.Roots.MarkAndSweep
import PreciseGc.Sweep.Relocation

/-!
# Pinning through dereferenced roots

For each word of a thread stack the mark phase searches one chain of the table
of dereferenced roots, that of the hash of the word itself, and pins the object
of the first handler whose range contains the word.  The chain is the one of
the object only if the word and the start of the object have the same hash.
-/

namespace PreciseGc

open Foundation

variable {h : Heap} {objects bigs : List Nat} {headers : Nat → Prop} {t t' : DerefRoots}
  {fuel w : Nat} {chain : List RootHandler}

namespace RootHandler

variable (handler : RootHandler)

@[simp]
theorem plainPointer_mark : handler.mark.plainPointer = handler.plainPointer := by
  simp only [plainPointer, mark, clear]
  have high : (handler.p ||| 1) / 8 = handler.p / 8 := or_div_eight (by decide) handler.p
  have low : (handler.p ||| 1) % 8 = handler.p % 8 ||| 1 := or_mod_eight (by decide) handler.p
  have residue : (handler.p % 8 ||| 1) - ((handler.p % 8 ||| 1) &&& 1) =
      handler.p % 8 - (handler.p % 8 &&& 1) := by
    refine @of_residues (fun r => (r ||| 1) - ((r ||| 1) &&& 1) = r - (r &&& 1)) handler.p ?_
    decide
  have least : handler.p % 8 &&& 1 ≤ handler.p % 8 := Nat.and_le_left
  have least' : (handler.p % 8 ||| 1) &&& 1 ≤ handler.p % 8 ||| 1 := Nat.and_le_left
  rw [and_eq_residue (by decide), and_eq_residue (w := handler.p) (by decide), low]
  omega

@[simp]
theorem isMarked_mark : handler.mark.isMarked = true := by
  simp only [isMarked, mark]
  rw [hasFlag_or (by decide) (by decide)]
  refine @of_residues (fun r => hasFlag (r ||| 1) 1 = true) handler.p ?_
  decide

@[simp]
theorem contains_mark (p : Nat) : handler.mark.contains p = handler.contains p := by
  simp only [contains, plainPointer_mark]
  rfl

/-- The range of addresses the handler stands for. -/
def range : Nat × Nat := (handler.plainPointer, handler.stop)

@[simp]
theorem range_mark : handler.mark.range = handler.range := by
  simp only [range, plainPointer_mark]
  rfl

end RootHandler

/-- The handler that `mark_dereferenced_root(w, ...)` finds. -/
def DerefRoots.lookup (t : DerefRoots) (w : Nat) : Option RootHandler :=
  if w = 0 || w % 2 != 0 then none
  else (t.roots (hashOfRoot w)).find? fun handler => handler.contains w

/-- Looking up `w` finds a handler of the object in the block `b`. -/
def Hits (t : DerefRoots) (w b : Nat) : Prop :=
  ∃ handler, t.lookup w = some handler ∧ handler.plainPointer = objectOf b

/-- The two tables differ in marks only. -/
def SameRanges (t t' : DerefRoots) : Prop :=
  ∀ i, (t'.roots i).map RootHandler.range = (t.roots i).map RootHandler.range

theorem find?_contains_congr {chain' : List RootHandler}
    (same : chain'.map RootHandler.range = chain.map RootHandler.range) (w : Nat) :
    (chain'.find? fun handler => handler.contains w).map RootHandler.range =
      (chain.find? fun handler => handler.contains w).map RootHandler.range := by
  have asRanges : ∀ handlers : List RootHandler,
      (handlers.find? fun handler => handler.contains w).map RootHandler.range =
        (handlers.map RootHandler.range).find? fun range =>
          decide (range.1 ≤ w) && decide (w ≤ range.2) := by
    intro handlers
    rw [List.find?_map]
    rfl
  rw [asRanges, asRanges, same]

/-- Marks do not matter for a lookup. -/
theorem SameRanges.lookup_range (same : SameRanges t t') (w : Nat) :
    (t'.lookup w).map RootHandler.range = (t.lookup w).map RootHandler.range := by
  unfold DerefRoots.lookup
  split
  · rfl
  · exact find?_contains_congr (same _) w

theorem SameRanges.hits_iff (same : SameRanges t t') (w b : Nat) : Hits t' w b ↔ Hits t w b := by
  have found := same.lookup_range w
  have asRange : ∀ t : DerefRoots, Hits t w b ↔
      ∃ stop, (t.lookup w).map RootHandler.range = some (objectOf b, stop) := by
    intro t
    simp only [Hits, Option.map_eq_some_iff, RootHandler.range, Prod.mk.injEq]
    constructor
    · rintro ⟨handler, eq, pointer⟩
      exact ⟨handler.stop, handler, eq, pointer, rfl⟩
    · rintro ⟨_, handler, eq, pointer, _⟩
      exact ⟨handler, eq, pointer⟩
  rw [asRange, asRange, found]

/-- Every handler stands for an object, and if it is marked the object is pinned. -/
def Tracks (h : Heap) (objects : List Nat) (handlers : List RootHandler) : Prop :=
  ∀ handler ∈ handlers, ∃ b ∈ objects, handler.plainPointer = objectOf b ∧
    (handler.isMarked = true → blockIsPinned (h.mem b) = true)

def TracksAll (h : Heap) (objects : List Nat) (t : DerefRoots) : Prop :=
  ∀ i, Tracks h objects (t.roots i)

theorem Tracks.marking {handlers : List RootHandler} (tracks : Tracks h objects handlers)
    {pins : Nat → Prop} {m : Memory} (marking : Marking headers pins h.mem m) :
    Tracks { h with mem := m } objects handlers := by
  intro handler mem
  rcases tracks handler mem with ⟨b, bMem, pointer, pinned⟩
  exact ⟨b, bMem, pointer, fun marked => (marking.pinned b).mpr (Or.inl (pinned marked))⟩

/-- The search in one chain pins the object of the handler it finds, which ends up marked. -/
theorem markChain_spec (graph : ObjectGraph h objects bigs headers)
    (enough : GoFuel fuel h objects bigs) (w : Nat) (tracks : Tracks h objects chain) :
    ∃ chain' h', (collector fuel).markChain w true chain h = .ok (chain', h') ∧
      h' = { h with mem := h'.mem } ∧
      chain'.map RootHandler.range = chain.map RootHandler.range ∧
      Marking headers
        (fun x => ∃ handler, (chain.find? fun handler => handler.contains w) = some handler ∧
          handler.plainPointer = objectOf x) h.mem h'.mem ∧
      Tracks h' objects chain' ∧
      (∀ handler, (chain.find? fun handler => handler.contains w) = some handler →
        ∃ handler' ∈ chain', handler'.plainPointer = handler.plainPointer ∧
          handler'.isMarked = true) ∧
        ((chain.find? fun handler => handler.contains w) = none → chain' = chain) := by
  induction chain with
  | nil =>
      exact ⟨[], h, rfl, rfl, rfl, (Marking.refl headers h.mem).congr (by simp), tracks, by simp,
        fun _ => rfl⟩
  | cons curr next ih =>
      rcases tracks curr (by simp) with ⟨b, bMem, pointer, pinned⟩
      have later : Tracks h objects next := fun handler mem => tracks handler (by simp [mem])
      unfold Collector.markChain
      cases inside : curr.contains w with
      | false =>
          rcases ih later with
            ⟨chain', h', eq, heapEq, ranges, marking, tracks', marked, unchanged⟩
          refine ⟨curr :: chain', h', ?_, heapEq, ?_, ?_, ?_, ?_, ?_⟩
          · rw [if_neg (by simp), eq]
            rfl
          · rw [List.map_cons, List.map_cons, ranges]
          · simpa only [List.find?_cons, inside] using marking
          · intro handler mem
            rcases List.mem_cons.mp mem with rfl | mem
            · rw [heapEq]
              exact (tracks.marking marking) handler (by simp)
            · exact tracks' handler mem
          · intro handler found
            rw [List.find?_cons, inside] at found
            rcases marked handler found with ⟨handler', mem, rest⟩
            exact ⟨handler', by simp [mem], rest⟩
          · intro missing
            rw [List.find?_cons, inside] at missing
            rw [unchanged missing]
      | true =>
          have found : ((curr :: next).find? fun handler => handler.contains w) = some curr := by
            rw [List.find?_cons, inside]
          have hits : ∀ x, (∃ handler, some curr = some handler ∧
              handler.plainPointer = objectOf x) ↔ x = b := by
            intro x
            constructor
            · rintro ⟨handler, same, pointer'⟩
              cases same
              exact objectOf_inj (pointer'.symm.trans pointer)
            · rintro rfl
              exact ⟨curr, rfl, pointer⟩
          simp only [found, hits, ↓reduceIte]
          cases isMarked : curr.isMarked with
          | true =>
              refine ⟨curr :: next, h, rfl, rfl, rfl, ?_, tracks, ?_, by simp⟩
              · have alreadyPinned := pinned isMarked
                refine { Marking.refl headers h.mem with pinned := fun x => ?_ }
                constructor
                · exact Or.inl
                · rintro (holds | rfl)
                  · exact holds
                  · exact alreadyPinned
              · intro handler same
                cases same
                exact ⟨curr, by simp, rfl, isMarked⟩
          | false =>
              rcases go_spec graph enough bMem true with ⟨overflow, h', eq, heapEq, marking, _⟩
              refine ⟨curr.mark :: next, h', ?_, heapEq, by simp, marking.congr (by simp), ?_, ?_,
                by simp⟩
              · have equation : (collector fuel).go .dereferenced curr.mark.plainPointer true h =
                    .ok (overflow, h') := by
                  rw [RootHandler.plainPointer_mark, pointer]
                  exact eq
                rw [if_pos (by simp), equation]
                rfl
              · intro handler mem
                rcases List.mem_cons.mp mem with rfl | mem
                · refine ⟨b, bMem, by rw [RootHandler.plainPointer_mark, pointer], fun _ => ?_⟩
                  exact (marking.pinned b).mpr (Or.inr ⟨rfl, rfl⟩)
                · rw [heapEq]
                  exact (later.marking marking) handler mem
              · intro handler same
                cases same
                exact ⟨curr.mark, by simp, by simp, by simp⟩

/-- One stack word pins exactly the object it hits. -/
theorem markDereferencedRoot_spec (graph : ObjectGraph h objects bigs headers)
    (enough : GoFuel fuel h objects bigs) (w : Nat) (tracks : TracksAll h objects t) :
    ∃ t' h', (collector fuel).markDereferencedRoot w true (t, h) = .ok (t', h') ∧
      h' = { h with mem := h'.mem } ∧ SameRanges t t' ∧
      Marking headers (Hits t w) h.mem h'.mem ∧ TracksAll h' objects t' ∧
      (∀ handler, t.lookup w = some handler →
        ∃ i, ∃ handler' ∈ t'.roots i, handler'.plainPointer = handler.plainPointer ∧
          handler'.isMarked = true) ∧
        (t.lookup w = none → t'.roots = t.roots) := by
  unfold Collector.markDereferencedRoot
  by_cases skipped : (w = 0 || w % 2 != 0) = true
  · have missing : t.lookup w = none := by
      rw [DerefRoots.lookup, if_pos skipped]
    rw [if_pos skipped]
    refine ⟨t, h, rfl, rfl, fun _ => rfl, ?_, tracks, ?_, fun _ => rfl⟩
    · exact (Marking.refl headers h.mem).congr (by simp [Hits, missing])
    · simp [missing]
  · have lookup : t.lookup w =
        (t.roots (hashOfRoot w)).find? fun handler => handler.contains w := by
      rw [DerefRoots.lookup, if_neg skipped]
    rw [if_neg skipped]
    rcases markChain_spec graph enough w (tracks (hashOfRoot w)) with
      ⟨chain', h', eq, heapEq, ranges, marking, tracks', marked, unchanged⟩
    rw [← lookup] at marking marked unchanged
    dsimp only
    rw [eq]
    refine ⟨_, h', rfl, heapEq, ?_, marking, ?_, ?_, ?_⟩
    · intro i
      by_cases same : i = hashOfRoot w
      · subst same
        simpa using ranges
      · simp [Function.update_of_ne same]
    · intro i
      by_cases same : i = hashOfRoot w
      · subst same
        simpa using tracks'
      · simp only [Function.update_of_ne same]
        rw [heapEq]
        exact (tracks i).marking marking
    · intro handler found
      rcases marked handler found with ⟨handler', mem, rest⟩
      exact ⟨hashOfRoot w, handler', by simpa using mem, rest⟩
    · intro missing
      simp [unchanged missing]

namespace RootHandler

variable (handler : RootHandler)

@[simp]
theorem plainPointer_unmark : handler.unmark.plainPointer = handler.plainPointer := by
  have twice : clear (clear handler.p 1) 1 = clear handler.p 1 := by
    have high : clear (clear handler.p 1) 1 / 8 = clear handler.p 1 / 8 :=
      clear_div_eight (by decide) _
    have low : clear (clear handler.p 1) 1 % 8 = clear handler.p 1 % 8 := by
      rw [clear_mod_eight (by decide), clear_mod_eight (by decide)]
      refine @of_residues (fun r => clear (clear r 1) 1 = clear r 1) handler.p ?_
      decide
    omega
  exact twice

@[simp]
theorem range_unmark : handler.unmark.range = handler.range := by
  simp only [range, plainPointer_unmark]
  rfl

@[simp]
theorem isMarked_unmark : handler.unmark.isMarked = false := by
  simp only [isMarked, unmark]
  rw [hasFlag_clear (by decide) (by decide)]
  refine @of_residues (fun r => hasFlag (clear r 1) 1 = false) handler.p ?_
  decide

end RootHandler

/-- Marking through a stack changes marks only. -/
theorem markStack_sameRanges {σ : Type} (c : Collector σ) (fullGc : Bool) (words : List Nat)
    (s : DerefRoots × σ) :
    Yields (fun _ => True) (fun r => SameRanges s.1 r.1) (c.markStack fuel fullGc words s) := by
  have inChain : ∀ (w : Nat) (chain : List RootHandler) (state : σ),
      Yields (fun _ => True) (fun r => r.1.map RootHandler.range = chain.map RootHandler.range)
        (c.markChain w fullGc chain state) := by
    intro w chain
    induction chain with
    | nil => exact fun _ => rfl
    | cons curr next ih =>
        intro state
        unfold Collector.markChain
        split
        · split
          · split
            · cases c.go .dereferenced curr.mark.plainPointer true state with
              | error fault => trivial
              | ok r =>
                  change (curr.mark :: next).map RootHandler.range = _
                  simp
            · simp
          · simp
        · refine (ih state).bind fun r same => ?_
          simp [same]
  induction words generalizing s with
  | nil => exact fun _ => rfl
  | cons w words ih =>
      unfold Collector.markStack
      cases isHeapPointer fuel w (c.heap s.2) with
      | error fault => trivial
      | ok inHeap =>
          cases inHeap with
          | false => exact ih s
          | true =>
              have one : Yields (fun _ => True) (fun r : DerefRoots × σ => SameRanges s.1 r.1)
                  (c.markDereferencedRoot w fullGc s) := by
                unfold Collector.markDereferencedRoot
                split
                · exact fun _ => rfl
                · refine (inChain w _ s.2).bind fun r same => ?_
                  intro i
                  by_cases atHash : i = hashOfRoot w
                  · subst atHash
                    simpa using same
                  · simp [Function.update_of_ne atHash]
              refine one.bind fun r same => ?_
              exact (ih r).mono fun r' same' i => (same' i).trans (same i)

/-- Every handler stands for a registered range, in the chain of its start. -/
def Registers (allowed : Nat → Nat → Prop) (t : DerefRoots) : Prop :=
  ∀ i, ∀ range ∈ (t.roots i).map RootHandler.range,
    i = hashOfRoot range.1 ∧ ∃ size, allowed range.1 size ∧ range.2 = ptrAdd range.1 size

/-- No handler is marked. -/
def Unmarked (t : DerefRoots) : Prop :=
  ∀ i, ∀ handler ∈ t.roots i, handler.isMarked = false

/-- A table reached by calls of `register_dereferenced_root` on ranges that satisfy `allowed`.  The
partial collection a call may ask for is declined inside a constructor. -/
inductive Reached (allowed : Nat → Nat → Prop) : DerefRoots → Prop where
  | start : Reached allowed {}
  | register {t t' : DerefRoots} (space : Option Nat)
      (gcFalse : DerefRoots → Except Fault DerefRoots) (root size : Nat) : Reached allowed t →
      (root = 0 ∨ allowed root size) →
      (gcFalse = .ok ∨ ∃ fuel threads h, gcFalse = cleanDerefRoots fuel threads h) →
      registerDereferencedRoot space gcFalse root size t = .ok t' → Reached allowed t'

section Reached

variable {allowed : Nat → Nat → Prop}

theorem Registers.sameRanges (registers : Registers allowed t) (same : SameRanges t t') :
    Registers allowed t' := by
  intro i range mem
  rw [same i] at mem
  exact registers i range mem

/-- Removing the unmarked handlers. -/
theorem Registers.sweep (registers : Registers allowed t) : Registers allowed t.sweep := by
  intro i range mem
  apply registers i range
  simp only [DerefRoots.sweep, List.map_map, List.mem_map, List.mem_filter] at mem ⊢
  rcases mem with ⟨handler, ⟨handlerMem, _⟩, rfl⟩
  exact ⟨handler, handlerMem, by simp⟩

theorem unmarked_sweep (t : DerefRoots) : Unmarked t.sweep := by
  intro i handler mem
  simp only [DerefRoots.sweep, List.mem_map] at mem
  rcases mem with ⟨before, _, rfl⟩
  simp

theorem cleanDerefRoots_registers (registers : Registers allowed t) (threads : List ThreadHandler)
    (h : Heap) : Yields (fun _ => True) (fun t' => Registers allowed t' ∧ Unmarked t')
      (cleanDerefRoots fuel threads h t) := by
  induction threads generalizing t with
  | nil => exact ⟨registers.sweep, unmarked_sweep t⟩
  | cons thread threads ih =>
      unfold cleanDerefRoots
      exact (markStack_sameRanges _ false _ _).bind fun r same => ih (registers.sameRanges same)

theorem refill_roots (space : Option Nat) (t : DerefRoots) :
    Yields (fun _ => True) (fun t' => t'.roots = t.roots) (t.refill space) := by
  unfold DerefRoots.refill
  split
  · rfl
  · trivial
  · rfl

/-- Entering an allowed range. -/
theorem enter_registers {root size : Nat} (even : root % 2 = 0) (isAllowed : allowed root size)
    (registers : Registers allowed t) (unmarked : Unmarked t) :
    Registers allowed (t.enter root size).2 ∧ Unmarked (t.enter root size).2 := by
  have flag : root % 8 &&& 1 = 0 := by
    rw [← and_eq_residue (by decide), Nat.and_one_is_mod]
    exact even
  have plain : clear root 1 = root := by
    rw [clear, and_eq_residue (by decide), flag, Nat.sub_zero]
  have notMarked : hasFlag root 1 = false := by
    rw [hasFlag, and_eq_residue (by decide), flag]
    rfl
  have entered : ∃ self, (t.enter root size).2.roots = Function.update t.roots (hashOfRoot root)
      (⟨self, root, ptrAdd root size⟩ :: t.roots (hashOfRoot root)) := by
    unfold DerefRoots.enter
    dsimp only
    split
    · exact ⟨_, rfl⟩
    · exact ⟨_, rfl⟩
  rcases entered with ⟨self, rootsEq⟩
  constructor
  · intro i range mem
    rw [rootsEq] at mem
    by_cases atHash : i = hashOfRoot root
    · subst atHash
      rw [Function.update_self, List.map_cons] at mem
      rcases List.mem_cons.mp mem with rfl | old
      · simp only [RootHandler.range, RootHandler.plainPointer, plain]
        exact ⟨trivial, size, isAllowed, rfl⟩
      · exact registers _ range old
    · rw [Function.update_of_ne atHash] at mem
      exact registers i range mem
  · intro i handler mem
    rw [rootsEq] at mem
    by_cases atHash : i = hashOfRoot root
    · subst atHash
      rw [Function.update_self] at mem
      rcases List.mem_cons.mp mem with rfl | old
      · exact notMarked
      · exact unmarked _ handler old
    · rw [Function.update_of_ne atHash] at mem
      exact unmarked i handler mem

/-- A registration of an allowed range. -/
theorem registerDereferencedRoot_registers {root size : Nat} (space : Option Nat)
    {gcFalse : DerefRoots → Except Fault DerefRoots} (even : allowed root size → root % 2 = 0)
    (isAllowed : root = 0 ∨ allowed root size)
    (gc : gcFalse = .ok ∨ ∃ fuel threads h, gcFalse = cleanDerefRoots fuel threads h)
    (registers : Registers allowed t) (unmarked : Unmarked t) :
    Yields (fun _ => True) (fun t' => Registers allowed t' ∧ Unmarked t')
      (registerDereferencedRoot space gcFalse root size t) := by
  have entered : Yields (fun _ => True) (fun r => Registers allowed r.2 ∧ Unmarked r.2)
      (t.register space root size) := by
    unfold DerefRoots.register
    split
    · exact ⟨registers, unmarked⟩
    · rename_i nonnull
      refine (refill_roots space t).bind fun t₁ rootsEq => ?_
      have isAllowed := isAllowed.resolve_left nonnull
      have registers₁ : Registers allowed t₁ := by
        unfold Registers
        rw [rootsEq]
        exact registers
      have unmarked₁ : Unmarked t₁ := by
        unfold Unmarked
        rw [rootsEq]
        exact unmarked
      exact enter_registers (even isAllowed) isAllowed registers₁ unmarked₁
  refine entered.bind fun r holds => ?_
  split
  · have cleaned : Yields (fun _ => True) (fun t => Registers allowed t ∧ Unmarked t)
        (gcFalse r.2) := by
      rcases gc with rfl | ⟨fuel, threads, h, rfl⟩
      · exact holds
      · exact cleanDerefRoots_registers holds.1 threads h
    exact cleaned.bind fun t kept => kept
  · exact holds

/-- Every reachable table holds registered ranges only, in the right chains, and no marks. -/
theorem Reached.registers (even : ∀ root size, allowed root size → root % 2 = 0)
    (reached : Reached allowed t) : Registers allowed t ∧ Unmarked t := by
  induction reached with
  | start => simp [Registers, Unmarked]
  | register space gcFalse root size _ isAllowed gc eq ih =>
      exact (registerDereferencedRoot_registers space (even root size) isAllowed gc ih.1 ih.2).of_ok
        eq

end Reached

/-- A registered range that starts at an object and stays in its block. -/
def ObjectStart (h : Heap) (objects : List Nat) (root size : Nat) : Prop :=
  ∃ b ∈ objects, root = objectOf b ∧ root + size ≤ b + 8 + blockSize (h.mem b)

/-- The range from `p` of `size` bytes is registered. -/
def Registered (t : DerefRoots) (p size : Nat) : Prop :=
  ∃ i, ∃ handler ∈ t.roots i, handler.plainPointer = p ∧ handler.stop = p + size

/-- A handler of `p` is marked and the block of `p` is pinned. -/
def PinnedRoot (h : Heap) (t : DerefRoots) (p : Nat) : Prop :=
  (∃ i, ∃ handler ∈ t.roots i, handler.plainPointer = p ∧ handler.isMarked = true) ∧
    blockIsPinned (h.mem (getBlock (getMetaInf p))) = true

/-- A word lies in the range of one object only. -/
theorem ObjectGraph.range_unique (graph : ObjectGraph h objects bigs headers) {b d : Nat}
    (bMem : b ∈ objects) (dMem : d ∈ objects) (lower : objectOf b ≤ w)
    (upper : w < b + 8 + blockSize (h.mem b)) (lower' : objectOf d ≤ w)
    (upper' : w ≤ d + 8 + blockSize (h.mem d)) : d = b := by
  rw [objectOf_eq] at lower lower'
  by_contra different
  rcases Nat.lt_or_gt_of_ne different with less | greater
  · exact graph.dataApart d dMem b less (by omega) (graph.header b bMem)
  · exact graph.dataApart b bMem d greater (by omega) (graph.header d dMem)

/-- The lookup of a word inside a registered range finds a handler of the object if and only if the
word is even and has the hash of the start of the object. -/
theorem lookup_registered (graph : ObjectGraph h objects bigs headers)
    (registers : Registers (ObjectStart h objects) t) {p size : Nat}
    (registered : Registered t p size)
    (lower : p ≤ w) (upper : w < p + size) :
    (∃ handler, t.lookup w = some handler ∧ handler.plainPointer = p) ∧
        w % 2 = 0 ∧ hashOfRoot w = hashOfRoot p ∨
      t.lookup w = none ∧ ¬(w % 2 = 0 ∧ hashOfRoot w = hashOfRoot p) := by
  rcases registered with ⟨i, handler, mem, rfl, stop⟩
  rcases registers i handler.range (List.mem_map_of_mem mem) with
    ⟨rfl, size', ⟨b, bMem, start, room⟩, stopEq⟩
  simp only [RootHandler.range] at start room stopEq mem
  have inside : handler.contains w = true := by
    simp only [RootHandler.contains, Bool.and_eq_true, decide_eq_true_eq]
    omega
  have wrapped : ptrAdd handler.plainPointer size' ≤ handler.plainPointer + size' :=
    Nat.mod_le _ _
  have only : ∀ i, ∀ other ∈ t.roots i, other.contains w = true →
      other.plainPointer = handler.plainPointer ∧ i = hashOfRoot handler.plainPointer := by
    intro i other otherMem contains
    rcases registers i other.range (List.mem_map_of_mem otherMem) with
      ⟨chainEq, otherSize, ⟨d, dMem, otherStart, otherRoom⟩, otherStop⟩
    simp only [RootHandler.range] at otherStart otherRoom otherStop chainEq
    simp only [RootHandler.contains, Bool.and_eq_true, decide_eq_true_eq] at contains
    have otherWrapped : ptrAdd other.plainPointer otherSize ≤ other.plainPointer + otherSize :=
      Nat.mod_le _ _
    have lower' : objectOf b ≤ w := by
      rw [← start]
      exact lower
    have otherLower : objectOf d ≤ w := by
      rw [← otherStart]
      exact contains.1
    have same : d = b :=
      graph.range_unique bMem dMem lower' (by omega) otherLower (by omega)
    subst same
    have pointerEq : other.plainPointer = handler.plainPointer := otherStart.trans start.symm
    exact ⟨pointerEq, by rw [chainEq, pointerEq]⟩
  have nonnull : w ≠ 0 := by
    have := objectOf_eq b
    omega
  by_cases even : w % 2 = 0
  · have lookupEq : t.lookup w =
        (t.roots (hashOfRoot w)).find? fun handler => handler.contains w := by
      rw [DerefRoots.lookup, if_neg (by simp [nonnull, even])]
    rw [lookupEq]
    cases found : (t.roots (hashOfRoot w)).find? fun handler => handler.contains w with
    | some other =>
        have contains := List.find?_some found
        have pointer := only _ other (List.mem_of_find?_eq_some found) contains
        exact Or.inl ⟨⟨other, rfl, pointer.1⟩, even, pointer.2⟩
    | none =>
        refine Or.inr ⟨rfl, fun both => ?_⟩
        rw [both.2] at found
        exact List.find?_eq_none.mp found handler mem inside
  · have missing : t.lookup w = none := by
      rw [DerefRoots.lookup, if_pos (by simpa [nonnull] using even)]
    exact Or.inr ⟨missing, fun both => even both.1⟩

/-- A stack word inside the range of a registered root pins the object of the root if and only if it
is even and has the hash of the start of the object. -/
theorem markDereferencedRoot_pins_iff (graph : ObjectGraph h objects bigs headers)
    (enough : GoFuel fuel h objects bigs) (aligned : ∀ b ∈ objects, b % 8 = 0)
    (reached : Reached (ObjectStart h objects) t) {p size : Nat} (registered : Registered t p size)
    (lower : p ≤ w) (upper : w < p + size) :
    ∃ t' h', (collector fuel).markDereferencedRoot w true (t, h) = .ok (t', h') ∧
      (PinnedRoot h' t' p ↔ w % 2 = 0 ∧ hashOfRoot w = hashOfRoot p) := by
  have even : ∀ root size, ObjectStart h objects root size → root % 2 = 0 := by
    rintro root size ⟨b, bMem, rfl, _⟩
    have := aligned b bMem
    rw [objectOf_eq]
    omega
  rcases reached.registers even with ⟨registers, unmarked⟩
  have tracks : TracksAll h objects t := by
    intro i handler mem
    rcases registers i handler.range (List.mem_map_of_mem mem) with ⟨_, _, ⟨b, bMem, start, _⟩, _⟩
    refine ⟨b, bMem, start, fun marked => ?_⟩
    rw [unmarked i handler mem] at marked
    cases marked
  rcases markDereferencedRoot_spec graph enough w tracks with
    ⟨t', h', eq, _, _, marking, _, marked, unchanged⟩
  refine ⟨t', h', eq, ?_⟩
  rcases lookup_registered graph registers registered lower upper with
    ⟨⟨handler, found, pointer⟩, condition⟩ | ⟨missing, never⟩
  · refine ⟨fun _ => condition, fun _ => ⟨?_, ?_⟩⟩
    · rcases marked handler found with ⟨i, handler', mem, pointer', isMarked⟩
      exact ⟨i, handler', mem, pointer'.trans pointer, isMarked⟩
    · rcases registered with ⟨i, registeredHandler, mem, rfl, _⟩
      rcases registers i registeredHandler.range (List.mem_map_of_mem mem) with
        ⟨_, _, ⟨b, bMem, start, _⟩, _⟩
      have start : registeredHandler.plainPointer = objectOf b := start
      have block : getBlock (getMetaInf (objectOf b)) = b := by
        rw [getMetaInf_objectOf]
        simp [getBlock, blockData]
      rw [start, block]
      exact (marking.pinned b).mpr (Or.inr ⟨handler, found, pointer.trans start⟩)
  · refine ⟨fun pinnedRoot => ?_, fun condition => absurd condition never⟩
    rcases pinnedRoot.1 with ⟨i, handler, mem, _, isMarked⟩
    rw [unchanged missing] at mem
    rw [unmarked i handler mem] at isMarked
    cases isMarked

/-- The objects of `sampleHeap`.  The range of the large one is registered, and the stack word
`196656` is its second word. -/
def sampleObjects : List Nat := [65552, 196616]

/-- The headers of the sample, with the word in front of a fake-root node. -/
def sampleHeaders (x : Nat) : Prop := x = 65552 ∨ x = 196616 ∨ x = 262136

theorem sampleHeap_graph : ObjectGraph (sampleHeap false) sampleObjects [196608] sampleHeaders := by
  have small : slotsOf (sampleHeap false).mem 65552 = [65584] := by decide
  have large : slotsOf (sampleHeap false).mem 196616 = [196648] := by decide
  have size : blockSize ((sampleHeap false).mem 65552) = 40 ∧
    blockSize ((sampleHeap false).mem 196616) = 4104 := by
    decide
  have shell : shellOf (sampleHeap false).mem 65552 = 131072 ∧
    shellCount (sampleHeap false).mem 131072 = 1 ∧
      shellOf (sampleHeap false).mem 196616 = 131104 ∧
        shellCount (sampleHeap false).mem 131104 = 1 := by decide
  refine
    { header := ?_, object := ?_, dataApart := ?_, bounded := by decide,
      bigChain := ⟨rfl, by decide, rfl⟩, bigApart := ?_, inHeap := ?_, pointer := ?_ }
  · intro b mem
    simp only [sampleObjects, List.mem_cons, List.not_mem_nil, or_false] at mem
    rcases mem with rfl | rfl
    · exact Or.inl rfl
    · exact Or.inr (Or.inl rfl)
  · intro b mem
    simp only [sampleObjects, List.mem_cons, List.not_mem_nil, or_false] at mem
    rcases mem with rfl | rfl
    · refine ⟨by decide, by decide, fun x lower upper => ?_⟩
      simp only [shell] at lower upper
      simp only [sampleHeaders]
      omega
    · refine ⟨by decide, by decide, fun x lower upper => ?_⟩
      simp only [shell] at lower upper
      simp only [sampleHeaders]
      omega
  · intro b mem x lower upper
    simp only [sampleObjects, List.mem_cons, List.not_mem_nil, or_false] at mem
    rcases mem with rfl | rfl
    · rw [size.1] at upper
      simp only [sampleHeaders]
      omega
    · rw [size.2] at upper
      simp only [sampleHeaders]
      omega
  · intro big mem
    have : big = 196608 := by simpa using mem
    subst this
    simp [sampleHeaders]
  · intro b mem
    simp only [sampleObjects, List.mem_cons, List.not_mem_nil, or_false] at mem
    rcases mem with rfl | rfl
    · exact Or.inl ⟨⟨65536, 73728⟩, by decide, by decide, by decide⟩
    · exact Or.inr ⟨196608, by decide, by decide, by decide⟩
  · intro b mem x slot
    simp only [sampleObjects, List.mem_cons, List.not_mem_nil, or_false] at mem
    rcases mem with rfl | rfl
    · rw [small, List.mem_singleton] at slot
      subst slot
      exact Or.inr (Or.inl ⟨65552, by decide, by decide⟩)
    · rw [large, List.mem_singleton] at slot
      subst slot
      exact Or.inr (Or.inl ⟨65552, by decide, by decide⟩)

theorem sampleHeap_goFuel : GoFuel 32768 (sampleHeap false) sampleObjects [196608] where
  bigs := by decide
  pops := by decide
  counts := by decide

/-- The table in which the large object is registered. -/
def sampleTable : DerefRoots where
  roots := Function.update (fun _ => []) (hashOfRoot 196648)
    [⟨524288 + 524287 * 24, 196648, 200728⟩]
  freeList := DerefRoots.newRecords 524288 524287
  count := 1
  totalCount := mmapCount

theorem sampleTable_reached : Reached (ObjectStart (sampleHeap false) sampleObjects) sampleTable :=
  Reached.register (some 524288) .ok 196648 4080 Reached.start
    (Or.inr ⟨196616, by decide, by decide, by decide⟩) (Or.inl rfl) rfl

theorem sampleTable_registered : Registered sampleTable 196648 4080 :=
  ⟨hashOfRoot 196648, ⟨524288 + 524287 * 24, 196648, 200728⟩, by simp [sampleTable], by decide,
    by decide⟩

theorem markDereferencedRoot_pins_iff_sampleHeap :
    ∃ t' h', (collector 32768).markDereferencedRoot 196656 true (sampleTable, (sampleHeap false)) =
        .ok (t', h') ∧
      (PinnedRoot h' t' 196648 ↔ 196656 % 2 = 0 ∧ hashOfRoot 196656 = hashOfRoot 196648) :=
  markDereferencedRoot_pins_iff sampleHeap_graph sampleHeap_goFuel (by decide) sampleTable_reached
    sampleTable_registered (by decide) (by decide)

theorem sampleTable_unpinned : Yields (fun _ => False)
    (fun r => blockIsPinned (r.2.mem (getBlock (getMetaInf 196648))) = false)
    ((collector 32768).markDereferencedRoot 196656 true (sampleTable, (sampleHeap false))) := by
  decide +kernel

/-- The stack word does not pin the object it points into. -/
theorem markDereferencedRoot_misses :
    Reached (ObjectStart (sampleHeap false) sampleObjects) sampleTable ∧
      Registered sampleTable 196648 4080 ∧
        ∃ t' h', (collector 32768).markDereferencedRoot 196656 true
          (sampleTable, (sampleHeap false)) =
          .ok (t', h') ∧ ¬PinnedRoot h' t' 196648 := by
  rcases sampleTable_unpinned.total with ⟨⟨t', h'⟩, eq, unpinned⟩
  refine ⟨sampleTable_reached, sampleTable_registered, t', h', eq, fun pinnedRoot => ?_⟩
  have pinned := pinnedRoot.2
  rw [unpinned] at pinned
  cases pinned

end PreciseGc

import PreciseGc.Roots.Pinning
import PreciseGc.Roots.TableRuns

/-!
# Handlers that words of stacks keep

Both kinds of collection mark the handlers that the words of the stacks find and
remove the others.  What they do to the table depends on these words alone, and
each of the words finds the same range afterwards.
-/

namespace PreciseGc

open Foundation

variable {σ : Type} {k : Collector σ} {h : Heap} {t : DerefRoots} {bigs words : List Nat}
  {chain : List RootHandler} {handler : RootHandler} {threads : List ThreadHandler}
  {v w fuel : Nat}

instance (h : Heap) (bigs : List Nat) (ptr : Nat) : Decidable (InHeap h bigs ptr) :=
  inferInstanceAs (Decidable (_ ∨ _))

/-- The words that `mark_stack` takes for pointers into the heap. -/
def heapWords (h : Heap) (bigs words : List Nat) : List Nat :=
  words.filter fun w => decide (InHeap h bigs w)

/-- What `mark_dereferenced_root(w, ...)` does to the table. -/
def DerefRoots.markHandler (t : DerefRoots) (w : Nat) : DerefRoots :=
  if w = 0 || w % 2 != 0 then t
  else { t with
    roots := Function.update t.roots (hashOfRoot w) (markFirst w (t.roots (hashOfRoot w))) }

def DerefRoots.markHandlers (t : DerefRoots) (words : List Nat) : DerefRoots :=
  words.foldl DerefRoots.markHandler t

/-- The words on the stacks of the threads. -/
def wordsOf (threads : List ThreadHandler) : List Nat := threads.flatMap ThreadHandler.stackWords

theorem wordsOf_cons (thread : ThreadHandler) (threads : List ThreadHandler) :
    wordsOf (thread :: threads) = thread.stackWords ++ wordsOf threads := List.flatMap_cons

theorem heapWords_append (words words' : List Nat) :
    heapWords h bigs (words ++ words') = heapWords h bigs words ++ heapWords h bigs words' :=
  List.filter_append ..

theorem markHandlers_append (words words' : List Nat) :
    t.markHandlers (words ++ words') = (t.markHandlers words).markHandlers words' :=
  List.foldl_append

@[simp]
theorem range_markFirst (w : Nat) (chain : List RootHandler) :
    (markFirst w chain).map RootHandler.range = chain.map RootHandler.range := by
  induction chain with
  | nil => rfl
  | cons curr next ih =>
      rw [markFirst]
      split
      · split
        · simp
        · rfl
      · simp [ih]

theorem markHandler_sameRanges (t : DerefRoots) (w : Nat) : SameRanges t (t.markHandler w) := by
  intro i
  unfold DerefRoots.markHandler
  split
  · rfl
  · by_cases same : i = hashOfRoot w
    · subst same
      simp
    · simp [Function.update_of_ne same]

theorem markHandlers_sameRanges (t : DerefRoots) (words : List Nat) :
    SameRanges t (t.markHandlers words) := by
  induction words generalizing t with
  | nil => exact fun _ => rfl
  | cons w words ih => exact fun i => (ih (t.markHandler w) i).trans (markHandler_sameRanges t w i)

theorem markHandler_roots (t : DerefRoots) (w i : Nat) :
    (t.markHandler w).roots i = t.roots i ∨
      (t.markHandler w).roots i = markFirst w (t.roots i) := by
  unfold DerefRoots.markHandler
  split
  · exact Or.inl rfl
  · by_cases same : i = hashOfRoot w
    · subst same
      exact Or.inr (Function.update_self ..)
    · exact Or.inl (Function.update_of_ne same ..)

/-- If a search of the chain for `w` finds a handler, this is marked. -/
def FindsMarked (w : Nat) (chain : List RootHandler) : Prop :=
  ∀ handler, (chain.find? fun handler => handler.contains w) = some handler →
    handler.isMarked = true

theorem findsMarked_markFirst (w : Nat) (chain : List RootHandler) :
    FindsMarked w (markFirst w chain) := by
  induction chain with
  | nil => simp [FindsMarked, markFirst]
  | cons curr next ih =>
      intro handler found
      rw [markFirst] at found
      cases inside : curr.contains w with
      | false =>
          simp only [inside, Bool.false_eq_true, ↓reduceIte, List.find?_cons] at found
          exact ih handler found
      | true =>
          simp only [inside, ↓reduceIte] at found
          cases isMarked : curr.isMarked with
          | false =>
              simp only [isMarked, Bool.not_false, ↓reduceIte, List.find?_cons,
                RootHandler.contains_mark, inside] at found
              rw [← Option.some.inj found, RootHandler.isMarked_mark]
          | true =>
              simp only [isMarked, Bool.not_true, Bool.false_eq_true, ↓reduceIte, List.find?_cons,
                inside] at found
              rw [← Option.some.inj found, isMarked]

theorem FindsMarked.markFirst (finds : FindsMarked w chain) (v : Nat) :
    FindsMarked w (markFirst v chain) := by
  induction chain with
  | nil => exact finds
  | cons curr next ih =>
      have marked : curr.contains w = true → curr.isMarked = true := fun inside =>
        finds curr (by rw [List.find?_cons, inside])
      have later : curr.contains w = false → FindsMarked w next := by
        intro outside handler found
        exact finds handler (by rw [List.find?_cons, outside, found])
      intro handler found
      rw [PreciseGc.markFirst] at found
      cases inside : curr.contains w with
      | false =>
          split at found
          · refine later inside handler ?_
            rw [← found]
            split
            · rw [List.find?_cons, RootHandler.contains_mark, inside]
            · rw [List.find?_cons, inside]
          · rw [List.find?_cons, inside] at found
            exact ih (later inside) handler found
      | true =>
          have same : handler = curr := by
            split at found
            · rw [marked inside] at found
              simp only [Bool.not_true, Bool.false_eq_true, ↓reduceIte, List.find?_cons, inside]
                at found
              exact (Option.some.inj found).symm
            · rw [List.find?_cons, inside] at found
              exact (Option.some.inj found).symm
          rw [same, marked inside]

theorem lookup_eq_some {handler : RootHandler} : t.lookup w = some handler ↔
    ¬(w = 0 || w % 2 != 0) = true ∧
      ((t.roots (hashOfRoot w)).find? fun handler => handler.contains w) = some handler := by
  unfold DerefRoots.lookup
  split
  · rename_i skipped
    exact iff_of_false nofun fun found => found.1 skipped
  · rename_i used
    exact (and_iff_right used).symm

theorem findsMarked_markHandlers (finds : FindsMarked w (t.roots (hashOfRoot w)))
    (words : List Nat) : FindsMarked w ((t.markHandlers words).roots (hashOfRoot w)) := by
  induction words generalizing t with
  | nil => exact finds
  | cons v words ih =>
      apply ih
      rcases markHandler_roots t v (hashOfRoot w) with same | marked
      · rw [same]
        exact finds
      · rw [marked]
        exact finds.markFirst v

/-- What is looked up is marked, if it is there. -/
theorem markHandlers_finds (used : ¬(w = 0 || w % 2 != 0) = true) (mem : w ∈ words) :
    FindsMarked w ((t.markHandlers words).roots (hashOfRoot w)) := by
  induction words generalizing t with
  | nil => cases mem
  | cons v words ih =>
      rcases List.mem_cons.mp mem with rfl | later
      · refine @findsMarked_markHandlers (t.markHandler w) w ?_ words
        rw [DerefRoots.markHandler, if_neg used]
        dsimp only
        rw [Function.update_self]
        exact findsMarked_markFirst w _
      · exact ih later

/-- Marked handlers are found after the sweep of the table. -/
theorem lookup_sweep (found : t.lookup w = some handler) (marked : handler.isMarked = true) :
    t.sweep.lookup w = some handler.unmark := by
  rcases lookup_eq_some.mp found with ⟨used, found⟩
  refine lookup_eq_some.mpr ⟨used, ?_⟩
  have contains : ∀ handler : RootHandler, handler.unmark.contains w = handler.contains w := by
    intro handler
    simp only [RootHandler.contains, RootHandler.plainPointer_unmark]
    rfl
  unfold DerefRoots.sweep
  dsimp only
  rw [List.find?_map, List.find?_filter]
  have same : (t.roots (hashOfRoot w)).find? (fun handler => decide (handler.isMarked = true ∧
      ((fun handler => handler.contains w) ∘ RootHandler.unmark) handler = true)) =
        some handler := by
    simp only [Function.comp_apply, contains]
    generalize t.roots (hashOfRoot w) = chain at found
    induction chain with
    | nil => cases found
    | cons curr next ih =>
        rw [List.find?_cons] at found ⊢
        cases inside : curr.contains w with
        | false =>
            rw [inside] at found
            simpa using ih found
        | true =>
            rw [inside] at found
            obtain rfl : curr = handler := Option.some.inj found
            simp [marked]
  rw [same]
  rfl

/-- What is found after the sweep of the table was there before. -/
theorem lookup_of_sweep (found : t.sweep.lookup w = some handler) :
    ∃ handler', t.lookup w = some handler' := by
  rcases lookup_eq_some.mp found with ⟨used, found⟩
  have inside := List.find?_some found
  rcases List.mem_map.mp (List.mem_of_find?_eq_some found) with ⟨before, mem, rfl⟩
  have isSome : ((t.roots (hashOfRoot w)).find? fun handler => handler.contains w).isSome := by
    rw [List.find?_isSome]
    refine ⟨before, (List.mem_filter.mp mem).1, ?_⟩
    simp only [RootHandler.contains, RootHandler.plainPointer_unmark] at inside ⊢
    exact inside
  rcases Option.isSome_iff_exists.mp isSome with ⟨handler', found'⟩
  exact ⟨handler', lookup_eq_some.mpr ⟨used, found'⟩⟩

/-- A word that a collection looks at finds the same range after it. -/
theorem lookup_kept (found : t.lookup w = some handler) (mem : w ∈ words) :
    ∃ handler', (t.markHandlers words).sweep.lookup w = some handler' ∧
      handler'.range = handler.range := by
  have ranges := (markHandlers_sameRanges t words).lookup_range w
  rw [found] at ranges
  rcases Option.map_eq_some_iff.mp ranges with ⟨handler₁, found₁, same⟩
  rcases lookup_eq_some.mp found₁ with ⟨used, inChain⟩
  have marked := markHandlers_finds used mem handler₁ inChain
  exact ⟨handler₁.unmark, lookup_sweep found₁ marked, by simp [same]⟩

/-- A word that finds nothing finds nothing after a collection. -/
theorem lookup_none_kept (missing : t.lookup w = none) (words : List Nat) :
    (t.markHandlers words).sweep.lookup w = none := by
  rw [Option.eq_none_iff_forall_ne_some]
  intro handler found
  rcases lookup_of_sweep found with ⟨handler', found'⟩
  have ranges := (markHandlers_sameRanges t words).lookup_range w
  rw [missing, found'] at ranges
  cases ranges

theorem markDereferencedRoot_table (k : Collector σ) (w : Nat) (s : DerefRoots × σ) :
    k.markDereferencedRoot w false s = .ok (s.1.markHandler w, s.2) := by
  unfold Collector.markDereferencedRoot DerefRoots.markHandler
  split
  · rfl
  · dsimp only
    rw [collector_markChain]
    rfl

section Partial

variable (linked : Chain (bigNext h.mem) h.firstBigBlock bigs) (enough : bigs.length < fuel)

include linked enough

theorem markStack_table (words : List Nat) (t : DerefRoots) :
    (collector fuel).markStack fuel false words (t, h) =
      .ok (t.markHandlers (heapWords h bigs words), h) := by
  induction words generalizing t with
  | nil => rfl
  | cons w words ih =>
      rcases @isHeapPointer_spec h bigs w fuel linked enough with ⟨found, eq, iff⟩
      unfold Collector.markStack
      change (isHeapPointer fuel w h >>= _) = _
      rw [eq]
      cases found with
      | false =>
          have outside : ¬InHeap h bigs w := fun inHeap => by simpa using iff.mpr inHeap
          rw [heapWords, List.filter_cons, if_neg (by simpa using outside)]
          exact ih t
      | true =>
          rw [heapWords, List.filter_cons, if_pos (by simpa using iff.mp rfl)]
          change ((collector fuel).markDereferencedRoot w false (t, h) >>= _) = _
          rw [markDereferencedRoot_table]
          exact ih (t.markHandler w)

/-- A partial collection keeps the handlers that the words of the stacks find. -/
theorem cleanDerefRoots_table (threads : List ThreadHandler) (t : DerefRoots) :
    cleanDerefRoots fuel threads h t =
      .ok (t.markHandlers (heapWords h bigs (wordsOf threads))).sweep := by
  induction threads generalizing t with
  | nil => rfl
  | cons thread threads ih =>
      unfold cleanDerefRoots
      rw [markStack_table linked enough]
      refine (ih _).trans ?_
      rw [wordsOf_cons, heapWords_append, markHandlers_append]

end Partial

end PreciseGc

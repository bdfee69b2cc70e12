import PreciseGc.Programs.Soundness

/-!
# Changes of the roots

Constructors and destructors of `gc_ptr`s outside of objects change the
`StackMap` of a thread, `register_object` and `unregister_object` change the tree
of fake roots, and the stacks hold other raw pointers as functions are called
and return.  The memory stays as it is.
-/

namespace PreciseGc

open Foundation

variable {pf : Platform} {a k newNode w x : Nat} {s : Process} {thread : Thread}
  {before after threads : List Thread} {stack : StackMap} {fakeRoots : FakeRoots}

theorem registered_split (before : List Thread) (thread : Thread) (after : List Thread) :
    registered (before ++ thread :: after) =
      registered before ++ (thread.stack.addresses ++ registered after) := by
  simp [registered]

theorem stackWords_setStack (before : List Thread) (thread : Thread) (after : List Thread)
    (stack : StackMap) : stackWords (before ++ { thread with stack := stack } :: after) =
      stackWords (before ++ thread :: after) := by
  simp [stackWords]

theorem registered_registerStackRoot (before : List Thread) (thread : Thread)
    (after : List Thread) (a : Nat) :
    (registered (before ++ { thread with stack := thread.stack.registerStackRoot a } ::
      after)).Perm (a :: registered (before ++ thread :: after)) := by
  rw [registered_split, registered_split, StackMap.addresses_registerStackRoot]
  exact List.perm_middle

theorem registered_deleteStackRoot (mem : a ∈ thread.stack.addresses)
    (deleted : thread.stack.deleteStackRoot a = some stack) :
    (registered (before ++ thread :: after)).Perm
      (a :: registered (before ++ { thread with stack := stack } :: after)) := by
  rcases StackMap.deleteStackRoot_spec mem with ⟨stack', eq, perm⟩
  obtain rfl : stack' = stack := Option.some.inj (eq.symm.trans deleted)
  rw [registered_split, registered_split]
  have addresses : thread.stack.addresses.Perm (a :: stack'.addresses) :=
    (List.perm_cons_erase mem).trans (perm.symm.cons a)
  exact ((addresses.append_right _).append_left _).trans List.perm_middle

namespace FakeRoots

/-- `removemin` takes away the node that `findmin` finds. -/
theorem nodes_removemin {t : FakeRoots} {self addr height : Nat} {left right : FakeRoots}
    (found : t.findmin = node self addr height left right) :
    t.nodes.Perm ((self, addr) :: t.removemin.nodes) := by
  induction t with
  | null => cases found
  | node self' addr' height' left' right' leftIh _ =>
      cases left' with
      | null =>
          cases found
          exact List.Perm.refl _
      | node _ _ _ _ _ =>
          have ih := leftIh found
          simp only [removemin]
          refine List.Perm.trans ?_ ((nodes_balance _).symm.cons _)
          simp only [nodes] at ih ⊢
          exact ((ih.append_right _).cons _).trans (List.Perm.swap ..)

/-- `remove` takes away a node of the address, or none. -/
theorem nodes_remove (k : Nat) (t : FakeRoots) : t.nodes.Perm (t.remove k).nodes ∨
    ∃ n, n.2 = k ∧ t.nodes.Perm (n :: (t.remove k).nodes) := by
  induction t with
  | null => exact Or.inl (List.Perm.refl _)
  | node self addr height left right leftIh rightIh =>
      by_cases less : k < addr
      · rw [remove_node_lt less]
        have balanced := nodes_balance (node self addr height (left.remove k) right)
        simp only [nodes] at balanced ⊢
        rcases leftIh with same | ⟨n, eq, perm⟩
        · exact Or.inl (((same.append_right _).cons _).trans balanced.symm)
        · refine Or.inr ⟨n, eq, (((perm.append_right _).cons _).trans (List.Perm.swap ..)).trans ?_⟩
          exact balanced.symm.cons n
      · by_cases greater : addr < k
        · rw [remove_node_gt greater]
          have balanced := nodes_balance (node self addr height left (right.remove k))
          simp only [nodes] at balanced ⊢
          rcases rightIh with same | ⟨n, eq, perm⟩
          · exact Or.inl (((same.append_left _).cons _).trans balanced.symm)
          · refine Or.inr ⟨n, eq, ?_⟩
            have moved : ((self, addr) :: (left.nodes ++ right.nodes)).Perm
                (n :: (self, addr) :: (left.nodes ++ (right.remove k).nodes)) :=
              (((perm.append_left _).trans List.perm_middle).cons _).trans (List.Perm.swap ..)
            exact moved.trans (balanced.symm.cons n)
        · obtain rfl : addr = k := by omega
          refine Or.inr ⟨(self, addr), rfl, ?_⟩
          cases right with
          | null => simp [remove, nodes]
          | node rightSelf rightAddr rightH rightLeft rightRight =>
              have nonempty : node rightSelf rightAddr rightH rightLeft rightRight ≠ null := by simp
              rcases findmin_spec nonempty with
                ⟨minSelf, minAddr, minH, minLeft, minRight, found, _⟩
              have perm := nodes_removemin found
              have removed : (node self addr height left
                  (node rightSelf rightAddr rightH rightLeft rightRight)).remove addr =
                    balance (node minSelf minAddr minH left
                      (node rightSelf rightAddr rightH rightLeft rightRight).removemin) := by
                simp [remove, found]
              rw [removed]
              have balanced := nodes_balance (node minSelf minAddr minH left
                (node rightSelf rightAddr rightH rightLeft rightRight).removemin)
              rw [nodes] at balanced ⊢
              refine List.Perm.cons _ (List.Perm.trans ?_ balanced.symm)
              exact (perm.append_left _).trans List.perm_middle

end FakeRoots

namespace Process

/-- Equal up to the cells: the heap, the table and the words of the stacks stay. -/
def withRoots (s : Process) (threads : List Thread) (fakeRoots : FakeRoots) : Process :=
  { s with threads := threads, fakeRoots := fakeRoots }

/-- The word is none of a shell, and not in the heap. -/
structure OffHeapWord (pf : Platform) (s : Process) (x : Nat) : Prop where
  foreign : Foreign pf s.heap x
  notShell : ∀ b, ObjectBlock s.heap b → ¬InShell s.heap.mem b x

theorem FreeWord.offHeapWord (free : s.FreeWord pf x) : s.OffHeapWord pf x :=
  ⟨free.foreign, free.notShell⟩

namespace Sound

theorem offHeapWord_of_cell (sound : s.Sound pf) (mem : a ∈ s.cells) : s.OffHeapWord pf a :=
  ⟨(sound.cell a mem).foreign, fun _ isObject inShell =>
    (sound.apart_of_inShell isObject inShell).notCell mem⟩

theorem offHeapWord_of_node (sound : s.Sound pf) {n : Nat × Nat} (mem : n ∈ s.fakeRoots.nodes) :
    ∃ x, n.1 = blockData x ∧ s.OffHeapWord pf x := by
  rcases sound.node n mem with ⟨x, eq, foreign⟩
  exact ⟨x, eq, foreign, fun _ isObject inShell =>
    (sound.apart_of_inShell isObject inShell).notNode ⟨n, mem, eq⟩⟩

/-- Other roots keep a process sound if they are plain pointers outside of the heap, and if the
nodes of the tree are in no `gc_ptr` and in no shell. -/
theorem changeRoots (sound : s.Sound pf)
    (cell : ∀ a ∈ (s.withRoots threads fakeRoots).cells, a ∈ s.cells ∨
      a ≠ 0 ∧ s.OffHeapWord pf a ∧ PlainWord s.heap (s.heap.mem a))
    (node : ∀ n ∈ fakeRoots.nodes, ∃ x, n.1 = blockData x ∧ s.OffHeapWord pf x ∧
      x ∉ (s.withRoots threads fakeRoots).cells)
    (once : (registered threads).Nodup) : (s.withRoots threads fakeRoots).Sound pf := by
  have offHeap : ∀ a ∈ (s.withRoots threads fakeRoots).cells,
      a ≠ 0 ∧ s.OffHeapWord pf a ∧ PlainWord s.heap (s.heap.mem a) := by
    intro a mem
    rcases cell a mem with old | new
    · exact ⟨(sound.cell a old).nonnull, sound.offHeapWord_of_cell old, (sound.cell a old).word⟩
    · exact new
  have notNode : ∀ x n, n ∈ fakeRoots.nodes → n.1 = blockData x →
      s.OffHeapWord pf x ∧ x ∉ (s.withRoots threads fakeRoots).cells := by
    intro x n mem eq
    rcases node n mem with ⟨y, eq', offHeap, notCell⟩
    have same : y = x := by
      simp only [blockData] at eq eq'
      omega
    exact same ▸ ⟨offHeap, notCell⟩
  refine
    { small := sound.small, valid := sound.valid, covers := sound.covers,
      object := fun b isObject => ?_, node := fun n mem => ?_, cell := fun a mem => ?_,
      once := once }
  · refine (sound.object b isObject).next (SameShape.refl _ b) rfl (fun x inShell => ?_)
      (sound.object b isObject).slot
    refine ⟨(sound.apart_of_inShell isObject inShell).foreign, fun mem => ?_, ?_⟩
    · exact (offHeap x mem).2.1.notShell b isObject inShell
    · rintro ⟨n, mem, eq⟩
      exact (notNode x n mem eq).1.notShell b isObject inShell
  · rcases node n mem with ⟨x, eq, offHeap, _⟩
    exact ⟨x, eq, offHeap.foreign⟩
  · rcases offHeap a mem with ⟨nonnull, off, word⟩
    refine ⟨nonnull, off.foreign, ?_, word⟩
    rintro ⟨n, nMem, eq⟩
    exact (notNode a n nMem eq).2 mem

/-- Without a new fake root the nodes stay apart from a new `gc_ptr` that is in none of them. -/
theorem changeThreads (sound : s.Sound pf)
    (cell : ∀ a ∈ registered threads, a ∈ registered s.threads ∨
      a ≠ 0 ∧ s.FreeWord pf a ∧ PlainWord s.heap (s.heap.mem a))
    (once : (registered threads).Nodup) : (s.withRoots threads s.fakeRoots).Sound pf := by
  refine sound.changeRoots ?_ ?_ once
  · intro a mem
    rcases List.mem_append.mp mem with isRoot | isFake
    · rcases cell a isRoot with old | ⟨nonnull, free, word⟩
      · exact Or.inl (mem_cells_of_registered old)
      · exact Or.inr ⟨nonnull, free.offHeapWord, word⟩
    · exact Or.inl (List.mem_append_right _ isFake)
  · intro n mem
    rcases sound.offHeapWord_of_node mem with ⟨x, eq, off⟩
    refine ⟨x, eq, off, fun isCell => ?_⟩
    rcases List.mem_append.mp isCell with isRoot | isFake
    · rcases cell x isRoot with old | ⟨_, free, _⟩
      · exact (sound.cell x (mem_cells_of_registered old)).notNode ⟨n, mem, eq⟩
      · exact free.notNode ⟨n, mem, eq⟩
    · exact (sound.cell x (List.mem_append_right _ isFake)).notNode ⟨n, mem, eq⟩

/-- A constructed `gc_ptr` is registered. -/
theorem register (sound : s.Sound pf) (free : s.FreeWord pf a) (nonnull : a ≠ 0)
    (word : PlainWord s.heap (s.heap.mem a))
    (perm : (registered threads).Perm (a :: registered s.threads)) :
    (s.withRoots threads s.fakeRoots).Sound pf := by
  apply sound.changeThreads
  · intro x mem
    rcases List.mem_cons.mp (perm.mem_iff.mp mem) with rfl | old
    · exact Or.inr ⟨nonnull, free, word⟩
    · exact Or.inl old
  · apply perm.nodup_iff.mpr
    exact List.nodup_cons.mpr ⟨fun mem => free.notCell (mem_cells_of_registered mem), sound.once⟩

/-- A destroyed `gc_ptr` is no root any more. -/
theorem delete (sound : s.Sound pf) (perm : (registered s.threads).Perm (a :: registered threads)) :
    (s.withRoots threads s.fakeRoots).Sound pf := by
  apply sound.changeThreads
  · exact fun x mem => Or.inl (perm.mem_iff.mpr (List.mem_cons_of_mem _ mem))
  · exact (List.nodup_cons.mp (perm.nodup_iff.mp sound.once)).2

/-- Functions are called and return, threads start and end. -/
theorem frames (sound : s.Sound pf) (perm : (registered threads).Perm (registered s.threads)) :
    (s.withRoots threads s.fakeRoots).Sound pf := by
  apply sound.changeThreads
  · exact fun x mem => Or.inl (perm.mem_iff.mp mem)
  · exact perm.nodup_iff.mpr sound.once

theorem registerObject (sound : s.Sound pf) (off : s.OffHeapWord pf a) (nonnull : a ≠ 0)
    (notNode : ¬NodeWord s.fakeRoots a) (word : PlainWord s.heap (s.heap.mem a))
    (eq : newNode = blockData x) (free : s.FreeWord pf x) (other : x ≠ a) :
    (s.withRoots s.threads (s.fakeRoots.registerObject newNode a)).Sound pf := by
  have perm := FakeRoots.nodes_insert newNode a s.fakeRoots
  have cells : ∀ y ∈ (s.withRoots s.threads (s.fakeRoots.registerObject newNode a)).cells,
      y ∈ s.cells ∨ y = a := by
    intro y mem
    rcases List.mem_append.mp mem with isRoot | isFake
    · exact Or.inl (mem_cells_of_registered isRoot)
    · rcases List.mem_map.mp isFake with ⟨n, nMem, rfl⟩
      rcases List.mem_cons.mp (perm.mem_iff.mp nMem) with rfl | old
      · exact Or.inr rfl
      · exact Or.inl (List.mem_append_right _ (List.mem_map_of_mem old))
  refine sound.changeRoots ?_ ?_ sound.once
  · intro y mem
    rcases cells y mem with old | rfl
    · exact Or.inl old
    · exact Or.inr ⟨nonnull, off, word⟩
  · intro n mem
    rcases List.mem_cons.mp (perm.mem_iff.mp mem) with rfl | old
    · refine ⟨x, eq, free.offHeapWord, fun isCell => ?_⟩
      rcases cells x isCell with old | same
      · exact free.notCell old
      · exact other same
    · rcases sound.offHeapWord_of_node old with ⟨y, eq', off'⟩
      refine ⟨y, eq', off', fun isCell => ?_⟩
      rcases cells y isCell with oldCell | rfl
      · exact (sound.cell y oldCell).notNode ⟨n, old, eq'⟩
      · exact notNode ⟨n, old, eq'⟩

theorem unregisterObject (sound : s.Sound pf) (a : Nat) :
    (s.withRoots s.threads (s.fakeRoots.unregisterObject a)).Sound pf := by
  have subset : ∀ n ∈ (s.fakeRoots.unregisterObject a).nodes, n ∈ s.fakeRoots.nodes := by
    intro n mem
    rcases FakeRoots.nodes_remove a s.fakeRoots with same | ⟨_, _, perm⟩
    · exact same.mem_iff.mpr mem
    · exact perm.mem_iff.mpr (List.mem_cons_of_mem _ mem)
  have cells : ∀ y ∈ (s.withRoots s.threads (s.fakeRoots.unregisterObject a)).cells,
      y ∈ s.cells := by
    intro y mem
    rcases List.mem_append.mp mem with isRoot | isFake
    · exact mem_cells_of_registered isRoot
    · rcases List.mem_map.mp isFake with ⟨n, nMem, rfl⟩
      exact List.mem_append_right _ (List.mem_map_of_mem (subset n nMem))
  refine sound.changeRoots ?_ ?_ sound.once
  · exact fun y mem => Or.inl (cells y mem)
  · intro n mem
    rcases sound.offHeapWord_of_node (subset n mem) with ⟨y, eq, off⟩
    refine ⟨y, eq, off, fun isCell => ?_⟩
    exact (sound.cell y (cells y isCell)).notNode ⟨n, subset n mem, eq⟩

end Sound

/-- The program finds what it found before, apart from one `gc_ptr`. -/
theorem store_withCell (words : stackWords threads = stackWords s.threads)
    (others : ∀ x, x ≠ a → (x ∈ (s.withRoots threads fakeRoots).cells ↔ x ∈ s.cells)) :
    (s.withRoots threads fakeRoots).store = s.store.setRoot (.cell a)
      ((s.withRoots threads fakeRoots).store.root (.cell a)) := by
  apply Store.ext
  · rfl
  · rfl
  · funext name
    by_cases same : name = .cell a
    · subst same
      rw [Store.setRoot_root, Function.update_self]
    · rw [Store.setRoot_root, Function.update_of_ne same]
      cases name with
      | cell x =>
          have other : x ≠ a := fun eq => same (congrArg _ eq)
          simp only [store_cell, others x other]
          rfl
      | word w =>
          simp only [store_word]
          change (if w ∈ stackWords threads then _ else _) = _
          rw [words]
          rfl

/-- The program finds what it found before when the same addresses are registered. -/
theorem store_sameCells (words : stackWords threads = stackWords s.threads)
    (same : ∀ x, x ∈ (s.withRoots threads fakeRoots).cells ↔ x ∈ s.cells) :
    (s.withRoots threads fakeRoots).store = s.store := by
  apply Store.ext
  · rfl
  · rfl
  · funext name
    cases name with
    | cell x =>
        simp only [store_cell, same x]
        rfl
    | word w =>
        simp only [store_word]
        change (if w ∈ stackWords threads then _ else _) = _
        rw [words]
        rfl

theorem store_register (words : stackWords threads = stackWords s.threads)
    (perm : (registered threads).Perm (a :: registered s.threads)) :
    (s.withRoots threads s.fakeRoots).store =
      s.store.setRoot (.cell a) (pointee (s.heap.mem a)) := by
  have isCell : a ∈ (s.withRoots threads s.fakeRoots).cells :=
    List.mem_append_left _ (perm.mem_iff.mpr List.mem_cons_self)
  rw [store_withCell words (a := a), store_cell, if_pos isCell]
  · rfl
  · intro x other
    have same : x ∈ registered threads ↔ x ∈ registered s.threads := by
      rw [perm.mem_iff, List.mem_cons]
      exact or_iff_right other
    simp only [cells, List.mem_append]
    exact or_congr same Iff.rfl

/-- A root is deleted: the `gc_ptr` at its address is no root any more, unless it is a fake root. -/
theorem performs_delete (words : stackWords threads = stackWords s.threads)
    (perm : (registered s.threads).Perm (a :: registered threads)) :
    s.Performs (destruction a (s.withRoots threads s.fakeRoots))
      (s.withRoots threads s.fakeRoots) := by
  have others : ∀ x, x ≠ a → (x ∈ (s.withRoots threads s.fakeRoots).cells ↔ x ∈ s.cells) := by
    intro x other
    have same : x ∈ registered threads ↔ x ∈ registered s.threads := by
      rw [perm.mem_iff, List.mem_cons]
      exact (or_iff_right other).symm
    simp only [cells, List.mem_append]
    exact or_congr same Iff.rfl
  unfold destruction
  split
  · rename_i stays
    have wasCell : a ∈ s.cells :=
      mem_cells_of_registered (perm.mem_iff.mpr List.mem_cons_self)
    have same : ∀ x, x ∈ (s.withRoots threads s.fakeRoots).cells ↔ x ∈ s.cells := by
      intro x
      by_cases eq : x = a
      · subst eq
        exact iff_of_true stays wasCell
      · exact others x eq
    change s.store.Alike (s.withRoots threads s.fakeRoots).store
    rw [store_sameCells words same]
    exact Store.Alike.refl _
  · rename_i gone
    have store := store_withCell words others
    rw [store_cell, if_neg gone] at store
    exact ⟨_, .assignRoot, store ▸ Store.Alike.refl _⟩

theorem store_registerObject (newNode : Nat) :
    (s.withRoots s.threads (s.fakeRoots.registerObject newNode a)).store =
      s.store.setRoot (.cell a) (pointee (s.heap.mem a)) := by
  have perm := (FakeRoots.nodes_insert newNode a s.fakeRoots).map Prod.snd
  have isCell : a ∈ (s.withRoots s.threads (s.fakeRoots.registerObject newNode a)).cells :=
    List.mem_append_right _ (perm.mem_iff.mpr List.mem_cons_self)
  rw [store_withCell rfl (a := a), store_cell, if_pos isCell]
  · rfl
  · intro x other
    have same : x ∈ (s.fakeRoots.registerObject newNode a).nodes.map Prod.snd ↔
        x ∈ s.fakeRoots.nodes.map Prod.snd := by
      unfold FakeRoots.registerObject
      rw [perm.mem_iff, List.map_cons, List.mem_cons]
      exact or_iff_right other
    simp only [cells, List.mem_append]
    exact or_congr Iff.rfl same

theorem store_unregisterObject
    (gone : a ∉ (s.withRoots s.threads (s.fakeRoots.unregisterObject a)).cells) :
    (s.withRoots s.threads (s.fakeRoots.unregisterObject a)).store =
      s.store.setRoot (.cell a) none := by
  rw [store_withCell rfl (a := a), store_cell, if_neg gone]
  intro x other
  have same : x ∈ (s.fakeRoots.unregisterObject a).nodes.map Prod.snd ↔
      x ∈ s.fakeRoots.nodes.map Prod.snd := by
    unfold FakeRoots.unregisterObject
    rcases FakeRoots.nodes_remove a s.fakeRoots with perm | ⟨n, eq, perm⟩
    · exact (perm.map Prod.snd).mem_iff.symm
    · rw [(perm.map Prod.snd).mem_iff, List.map_cons, List.mem_cons, eq]
      exact (or_iff_right other).symm
  simp only [cells, List.mem_append]
  exact or_congr Iff.rfl same

/-- The stacks hold other words. -/
theorem store_frames (perm : (registered threads).Perm (registered s.threads))
    (words : s.SameWords threads fun _ => False) :
    (s.withRoots threads s.fakeRoots).store = s.store := by
  apply Store.ext
  · rfl
  · rfl
  · funext name
    cases name with
    | cell a =>
        simp only [store_cell, cells, withRoots, List.mem_append, perm.mem_iff]
    | word w =>
        simp only [store_word]
        change (if w ∈ stackWords threads then wordTarget s.table s.heap w else none) = _
        cases target : wordTarget s.table s.heap w with
        | none => simp
        | some b => simp only [words w id (by simp [target])]

/-- One pointer comes to the stacks or goes. -/
theorem store_word_changed (perm : (registered threads).Perm (registered s.threads))
    (words : s.SameWords threads (· = w)) : (s.withRoots threads s.fakeRoots).store =
      s.store.setRoot (.word w) ((s.withRoots threads s.fakeRoots).store.root (.word w)) := by
  apply Store.ext
  · rfl
  · rfl
  · funext name
    by_cases same : name = .word w
    · subst same
      rw [Store.setRoot_root, Function.update_self]
    · rw [Store.setRoot_root, Function.update_of_ne same]
      cases name with
      | cell a =>
          simp only [store_cell, cells, withRoots, List.mem_append, perm.mem_iff]
      | word v =>
          have other : v ≠ w := fun eq => same (congrArg _ eq)
          simp only [store_word]
          change (if v ∈ stackWords threads then wordTarget s.table s.heap v else none) = _
          cases target : wordTarget s.table s.heap v with
          | none => simp
          | some b => simp only [words v other (by simp [target])]

namespace Sound

variable (sound : s.Sound pf)

include sound

theorem word_next {source : Option (AccessPath RootName Nat)}
    (perm : (registered threads).Perm (registered s.threads)) (words : s.SameWords threads (· = w))
    (value : { s with threads := threads }.store.root (.word w) = s.store.value source) :
    { s with threads := threads }.Sound pf ∧
      s.Performs (some (.assignRoot (.word w) source)) { s with threads := threads } := by
  refine ⟨sound.frames perm, _, .assignRoot, ?_⟩
  have store := store_word_changed perm words
  rw [← value]
  exact store ▸ Store.Alike.refl _

theorem frames_next (perm : (registered threads).Perm (registered s.threads))
    (words : s.SameWords threads fun _ => False) :
    { s with threads := threads }.Sound pf ∧ s.Performs none { s with threads := threads } := by
  refine ⟨sound.frames perm, ?_⟩
  change s.store.Alike (s.withRoots threads s.fakeRoots).store
  rw [store_frames perm words]
  exact Store.Alike.refl _

theorem registerObject_next {source : Option (AccessPath RootName Nat)}
    (foreign : Foreign pf s.heap a) (nonnull : a ≠ 0) (notNode : ¬NodeWord s.fakeRoots a)
    (notShell : ∀ b, ObjectBlock s.heap b → ¬InShell s.heap.mem b a)
    (word : PlainWord s.heap (s.heap.mem a))
    (value : s.store.value source = pointee (s.heap.mem a)) (eq : newNode = blockData x)
    (free : s.FreeWord pf x) (other : x ≠ a) :
    { s with fakeRoots := s.fakeRoots.registerObject newNode a }.Sound pf ∧
      s.Performs (some (.assignRoot (.cell a) source))
        { s with fakeRoots := s.fakeRoots.registerObject newNode a } := by
  refine ⟨sound.registerObject ⟨foreign, notShell⟩ nonnull notNode word eq free other, _,
    .assignRoot, ?_⟩
  have store := @store_registerObject a s newNode
  rw [value]
  exact store ▸ Store.Alike.refl _

theorem unregisterObject_next
    (gone : a ∉ { s with fakeRoots := s.fakeRoots.unregisterObject a }.cells) :
    { s with fakeRoots := s.fakeRoots.unregisterObject a }.Sound pf ∧
      s.Performs (some (.assignRoot (.cell a) none))
        { s with fakeRoots := s.fakeRoots.unregisterObject a } := by
  refine ⟨sound.unregisterObject a, _, .assignRoot, ?_⟩
  have store := store_unregisterObject gone
  exact store ▸ Store.Alike.refl _

end Sound

end Process

end PreciseGc

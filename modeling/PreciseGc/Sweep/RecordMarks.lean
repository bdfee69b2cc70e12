import PreciseGc.Sweep.Composites

/-!
# Marks that the redirecting pass leaves on records

`fix_ptr` calls `get_next_obj`, which the mark phase calls, too, and which marks
the record of a composite pointer.  The pass therefore leaves a mark on exactly
the records that a visited pointer refers to.

A record whose base object has a null second word is inert: read as a
`base_meta`, it has a shell without slots.
-/

namespace PreciseGc

open Foundation Memory

variable {pf : Platform} {h h' h₀ : Heap} {c c₂ : Census} {bigs records slots todo : List Nat}
  {b d p q r x : Nat} {s : SweepState} {moved : List (Nat × Nat)} {fuel : Nat} {m m' : Memory}
  {bases : Nat → Nat → Prop} {allowed : Fault → Prop} {pages : List Nat} {blocks : Nat → List Nat}

/-- The pass over a list of pages, where `visited d` are the slots that are fixed in the block
`d`. -/
theorem fixPages_blocks {J : List Nat → Memory → Prop} {visited : Nat → List Nat} {head : Nat}
    {rest : List Nat} (chain : Chain (pageNext m) head pages)
    (tiles : ∀ q ∈ pages, Tiles (blockExtent m) (firstBlock q) (freeBlock m q) (blocks q))
    (links : ∀ rest m', J rest m' → ∀ q ∈ pages, pageNext m' q = pageNext m q)
    (free : ∀ rest m', J rest m' → ∀ q ∈ pages, freeBlock m' q = freeBlock m q)
    (sizes : ∀ rest m', J rest m' → ∀ q ∈ pages, ∀ d ∈ blocks q, blockSize (m' d) = blockSize (m d))
    (block : ∀ q ∈ pages, ∀ d ∈ blocks q, ∀ rest h, FixState h₀ J (visited d ++ rest) h →
      Yields allowed (FixState h₀ J rest) (fixBlock pf fuel d h))
    (enoughPages : pages.length < fuel) (enoughBlocks : ∀ q ∈ pages, (blocks q).length < fuel)
    (state : FixState h₀ J ((pages.flatMap blocks).flatMap visited ++ rest) h) :
    Yields allowed (FixState h₀ J rest) (fixPages pf fuel head h) := by
  have pass : Yields allowed (fun h' => FixState h₀ J rest h' ∨ False) (fixPages pf fuel head h) :=
    forPages_yields_or (fun _ : Heap => False)
      (fun qs h' => FixState h₀ J ((qs.flatMap blocks).flatMap visited ++ rest) h') chain
      (fun qs h' holds => links _ _ holds.holds) ?_ (fun _ _ never => never.elim) enoughPages state
  · exact pass.mono fun h' reached => reached.resolve_right id
  · rintro q qs h' ⟨before, split⟩ state'
    have qMem : q ∈ pages := by simp [split]
    rw [List.flatMap_cons, List.flatMap_append, List.append_assoc] at state'
    refine Yields.mono (forBlocks_yields
      (fun ds h' => FixState h₀ J
        (ds.flatMap visited ++ ((qs.flatMap blocks).flatMap visited ++ rest))
        h') (tiles q qMem) ?_ ?_ ?_ (enoughBlocks q qMem) state') fun h'' reached => Or.inl reached
    · exact fun ds h' holds => free _ _ holds.holds q qMem
    · exact fun ds h' holds => sizes _ _ holds.holds q qMem
    · rintro d ds h'' ⟨first, split'⟩ state''
      have dMem : d ∈ blocks q := by simp [split']
      rw [List.flatMap_cons, List.append_assoc] at state''
      exact block q qMem d dMem _ _ state''

theorem visitedSlots_flatMap (m : Memory) (isObject : Nat → Bool) (ds : List Nat) :
    visitedSlots m isObject ds = ds.flatMap fun d => visitedSlots m isObject [d] := by
  induction ds with
  | nil => rfl
  | cons d ds ih => rw [show d :: ds = [d] ++ ds from rfl, visitedSlots_append, ih]; rfl

/-- The base that `fix_ptr` on a composite pointer leaves in the record. -/
theorem fixPtr_composite_base (nonnull : p ≠ 0) (refers : RefersTo m p r) (apart : p ≠ r)
    (apart' : p ≠ r + 16) : fixPtr p m (r + 16) = m (r + 16) ∨
      ∃ b m₁, b = getBlock (getMetaInf (m (r + 16))) ∧ m₁ = m.write r (markBlock (m r)) ∧
        blockIsMarked (m₁ b) = true ∧ fixPtr p m (r + 16) = toGetMetaInf (forwardPointer m₁ b) := by
  have header : getBlock (blockData r) = r := by simp [getBlock, blockData]
  have data : blockData r ≠ 0 := by simp [blockData, sizeofBlock]
  have next : getNextObj p m =
      (compositeBase (mark (blockData r) m) (blockData r), mark (blockData r) m) := by
    simp only [getNextObj, getPtr, refers.1, refers.2, data, ↓reduceIte]
  have marked : mark (blockData r) m = m.write r (markBlock (m r)) := by
    rw [mark, header]
  have word : m.write r (markBlock (m r)) p = m p := write_of_ne apart
  have baseAt : blockData r + 8 = r + 16 := by simp [blockData, sizeofBlock]
  have base : compositeBase (m.write r (markBlock (m r))) (blockData r) = m (r + 16) := by
    rw [compositeBase, baseAt]
    exact write_of_ne (by omega)
  unfold fixPtr
  rw [if_neg nonnull, next, marked, base]
  dsimp only
  split
  · exact Or.inl (write_of_ne (by omega))
  · split
    · rename_i isMarked
      refine Or.inr ⟨_, _, rfl, rfl, isMarked, ?_⟩
      simp only [movePtr, word, refers.1, refers.2, ↓reduceIte]
      rw [baseAt, write_of_ne (Ne.symm apart'), write_same]
    · exact Or.inl (write_of_ne (by omega))

/-- The memory during the pass, with what it has done to the records so far; `bases` restricts the
base of each record. -/
structure Flagging (m : Memory) (slots records : List Nat) (bases : Nat → Nat → Prop)
    (todo : List Nat) (m' : Memory) : Prop extends Patching m slots records todo m' where
  untouched : ∀ r ∈ records, (∀ p ∈ slots, ¬RefersTo m p r) → m' r = m r
  flagged : ∀ p ∈ slots, p ∉ todo → ∀ r ∈ records, RefersTo m p r → blockIsMarked (m' r) = true
  nulls : ∀ x, x ∉ records → (∀ r ∈ records, x ≠ r + 16) → m x = 0 → m' x = 0
  base : ∀ r ∈ records, bases r (m' (r + 16))

/-- The restriction on bases is kept when a base is replaced by the address of the copy. -/
def BasesFollow (m : Memory) (slots records : List Nat) (bases : Nat → Nat → Prop) : Prop :=
  ∀ m' : Memory, (∀ x, x ∉ slots → x ∉ records → (∀ r ∈ records, x ≠ r + 16) → m' x = m x) →
    ∀ r ∈ records, ∀ w, bases r w → blockIsMarked (m' (getBlock (getMetaInf w))) = true →
      bases r (toGetMetaInf (forwardPointer m' (getBlock (getMetaInf w))))

theorem Flagging.start (start : ∀ r ∈ records, bases r (m (r + 16))) :
    Flagging m slots records bases slots m where
  toPatching := Patching.start m slots records
  untouched _ _ _ := rfl
  flagged _ mem notMem := absurd mem notMem
  nulls _ _ _ null := null
  base := start

/-- Fixing the next slot. -/
theorem Flagging.step (patchable : Patchable m slots records)
    (follow : BasesFollow m slots records bases)
    (flagging : Flagging m slots records bases (p :: todo) m') :
    Flagging m slots records bases todo (fixPtr p m') := by
  have pMem : p ∈ slots := by
    rcases flagging.suffix with ⟨done, split⟩
    simp [split]
  have nonnull := patchable.nonnull p pMem
  have word : m' p = m p := flagging.pending p (by simp)
  have patching := flagging.toPatching.step patchable
  cases composite : isCompositePointer (m p) with
  | false =>
      have fixed : fixPtr p m' = m'.write p (redirect m' (m' p)) := by
        apply fixPtr_plain nonnull
        rw [word]
        exact composite
      rw [fixed] at patching ⊢
      refine ⟨patching, ?_, ?_, ?_, ?_⟩
      · intro r mem none
        rw [write_of_ne (Ne.symm (patchable.apart p pMem r mem).1)]
        exact flagging.untouched r mem none
      · intro g gMem notTodo r mem refers
        rw [write_of_ne (Ne.symm (patchable.apart p pMem r mem).1)]
        apply flagging.flagged g gMem ?_ r mem refers
        intro inTodo
        rcases List.mem_cons.mp inTodo with rfl | later
        · rw [refers.1] at composite
          cases composite
        · exact notTodo later
      · intro x notRecord notBase null
        by_cases same : x = p
        · subst same
          have zero : m' x = 0 := by rw [word, null]
          rw [write_same, zero]
          simp [redirect, clearBothFlags, clear]
        · rw [write_of_ne same]
          exact flagging.nulls x notRecord notBase null
      · intro r mem
        rw [write_of_ne (Ne.symm (patchable.apart p pMem r mem).2)]
        exact flagging.base r mem
  | true =>
      rcases patchable.composite p pMem composite with ⟨r, rMem, refers⟩
      have refers' : RefersTo m' p r := by
        rw [RefersTo, word]
        exact refers
      have apart := patchable.apart p pMem r rMem
      rcases fixPtr_composite nonnull refers' apart.1 with ⟨others, marked⟩
      refine ⟨patching, ?_, ?_, ?_, ?_⟩
      · intro r' mem none
        have different : r' ≠ r := by
          rintro rfl
          exact none p pMem refers
        rw [others r' different (patchable.records r' mem r rMem)]
        exact flagging.untouched r' mem none
      · intro g gMem notTodo r' mem refersG
        by_cases same : r' = r
        · subst same
          rw [marked]
          exact (flags_markBlock _).2.1
        · rw [others r' same (patchable.records r' mem r rMem)]
          apply flagging.flagged g gMem ?_ r' mem refersG
          intro inTodo
          rcases List.mem_cons.mp inTodo with rfl | later
          · have data := refersG.2.symm.trans refers.2
            simp only [blockData, sizeofBlock] at data
            exact same (by omega)
          · exact notTodo later
      · intro x notRecord notBase null
        rw [others x (by rintro rfl; exact notRecord rMem) (notBase r rMem)]
        exact flagging.nulls x notRecord notBase null
      · intro r' mem
        by_cases same : r' = r
        · subst same
          rcases fixPtr_composite_base nonnull refers' apart.1 apart.2 with
            kept | ⟨b, m₁, rfl, rfl, isMarked, moves⟩
          · rw [kept]
            exact flagging.base r' mem
          · rw [moves]
            apply follow _ ?_ r' mem _ (flagging.base r' mem) isMarked
            intro x notSlot notRecord notBase
            rw [write_of_ne (by rintro rfl; exact notRecord mem)]
            exact flagging.frame x notSlot notRecord notBase
        · have away := patchable.records r rMem r' mem
          rw [others (r' + 16) (Ne.symm away) (by omega)]
          exact flagging.base r' mem

/-- `fix_roots` visits the roots of all threads. -/
theorem Flagging.roots {threads : ThreadRoots} (patchable : Patchable m slots records)
    (follow : BasesFollow m slots records bases)
    (flagging : Flagging m slots records bases (threads.flatten ++ todo) h.mem) :
    Flagging m slots records bases todo (fixRoots threads h).mem := by
  have pass : ∀ (stack rest : List Nat) (m' : Memory),
      Flagging m slots records bases (stack ++ rest) m' →
        Flagging m slots records bases rest (stack.foldl (fun m addr => fixPtr addr m) m') := by
    intro stack
    induction stack with
    | nil => exact fun _ _ flagging => flagging
    | cons addr stack ih => exact fun rest m' flagging => ih rest _ (flagging.step patchable follow)
  have all : ∀ (threads : ThreadRoots) (m' : Memory),
      Flagging m slots records bases (threads.flatten ++ todo) m' →
        Flagging m slots records bases todo
          (threads.foldl (fun m stack => stack.foldl (fun m addr => fixPtr addr m) m) m') := by
    intro threads
    induction threads with
    | nil => exact fun _ flagging => flagging
    | cons stack threads ih =>
        intro m' flagging
        refine ih _ (pass stack _ m' ?_)
        simpa [List.append_assoc] using flagging
  exact all threads h.mem flagging

end PreciseGc

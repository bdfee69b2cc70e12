import PreciseGc.Foundation.Chain
import PreciseGc.Heap.Sweep

/-!
# The list of big blocks

`sweep_big_blocks` walks along the list `first_big_block` and unlinks the blocks
that are neither marked nor pinned.  It needs no more of the list than that it
ends and that its blocks do not overlap.  The loop is also written as the accesses
it is made of, which collect their own record: a block is not touched any more once
it is unmapped.
-/

namespace PreciseGc

open Foundation Memory

variable {pf : Platform} {h₀ h : Heap} {bigs kept todo : List Nat} {b : Nat} {s : BigSweep}

/-- The list `first_big_block` visits `bigs`, which do not overlap. -/
structure BigList (h : Heap) (bigs : List Nat) : Prop where
  chain : Chain (bigNext h.mem) h.firstBigBlock bigs
  apart : ∀ b ∈ bigs, ∀ d ∈ bigs, b ≠ d →
    bigData b + blockSize (h.mem (bigHeader b)) ≤ d ∨
      bigData d + blockSize (h.mem (bigHeader d)) ≤ b

/-- A big block survives a sweep if it is marked or pinned. -/
def bigSurvives (m : Memory) (b : Nat) : Bool :=
  blockIsMarked (m (bigHeader b)) || blockIsPinned (m (bigHeader b))

/-- What the loop does to a big block. -/
inductive BigAccess where
  | readSize (big : Nat)
  | writeSize (big : Nat)
  | readNext (big : Nat)
  | writeNext (big : Nat)
  | unmap (big length : Nat)
deriving DecidableEq, Repr

namespace BigAccess

/-- The block that is accessed. -/
def block : BigAccess → Nat
  | readSize big => big
  | writeSize big => big
  | readNext big => big
  | writeNext big => big
  | unmap big _ => big

/-- The block that is unmapped, if any. -/
def unmapped : BigAccess → Option Nat
  | unmap big _ => some big
  | _ => none

end BigAccess

/-- Code that accesses big blocks; the accesses it has made so far stand beside the locals of
`sweep_big_blocks` and the heap. -/
abbrev BigCode := StateM (BigSweep × List BigAccess)

namespace BigCode

/-- An access and what it does to the state. -/
def access (entry : BigAccess) (change : BigSweep → BigSweep) : BigCode Unit :=
  modify fun state => (change state.1, state.2 ++ [entry])

def readSize (big : Nat) : BigCode Nat := do
  access (.readSize big) id
  return (← get).1.heap.mem (bigHeader big)

def writeSize (big size : Nat) : BigCode Unit :=
  access (.writeSize big) fun s =>
    { s with heap := { s.heap with mem := s.heap.mem.write (bigHeader big) size } }

def readNext (big : Nat) : BigCode Nat := do
  access (.readNext big) id
  return bigNext (← get).1.heap.mem big

def writeNext (big next : Nat) : BigCode Unit :=
  access (.writeNext big) fun s =>
    { s with heap := { s.heap with mem := setBigNext s.heap.mem big next } }

def unmap (pf : Platform) (big length : Nat) : BigCode Unit :=
  access (.unmap big length) fun s => { s with heap := munmap pf big length s.heap }

/-- `first_big_block = next`, which is no access to a block. -/
def setFirst (next : Nat) : BigCode Unit :=
  modify fun state =>
    ({ state.1 with heap := { state.1.heap with firstBigBlock := next } }, state.2)

def setPrev (big : Nat) : BigCode Unit :=
  modify fun state => ({ state.1 with prev := big }, state.2)

/-- `!block_is_marked(big) && !block_is_pinned(big)`. -/
def isGarbage (big : Nat) : BigCode Bool := do
  if blockIsMarked (← readSize big) then return false
  return !blockIsPinned (← readSize big)

/-- The branch for garbage: the block is unlinked and unmapped. -/
def dropBlock (pf : Platform) (big : Nat) : BigCode Nat := do
  let next ← readNext big
  let prev := (← get).1.prev
  if prev = 0 then setFirst next else writeNext prev next
  let size := blockSize (← readSize big)
  unmap pf big (8 + size)
  return next

/-- The branch for any other block. -/
def keepBlock (big : Nat) : BigCode Nat := do
  writeSize big (unpinBlock (← readSize big))
  writeSize big (unmarkBlock (← readSize big))
  setPrev big
  readNext big

/-- One iteration of `sweep_big_blocks`, access by access; the result is the next `big`. -/
def sweepBlock (pf : Platform) (big : Nat) : BigCode Nat := do
  if ← isGarbage big then dropBlock pf big else keepBlock big

end BigCode

/-- `sweep_big_blocks()` with the accesses it makes, in their order. -/
def sweepBigBlocksAccessing (pf : Platform) (fuel : Nat) (h : Heap) :
    Except Fault (Heap × List BigAccess) :=
  walk (fun big _ => big == 0) (fun big state => .ok ((BigCode.sweepBlock pf big).run state))
      Fault.outOfFuel fuel h.firstBigBlock (⟨h, 0⟩, []) >>= fun final =>
    .ok (final.1.heap, final.2)

/-- The reads of the test `!block_is_marked(big) && !block_is_pinned(big)`. -/
def sizeTests (header big : Nat) : List BigAccess :=
  if blockIsMarked header then [.readSize big] else [.readSize big, .readSize big]

theorem forall_mem_sizeTests {P : BigAccess → Prop} (header : Nat) (holds : P (.readSize b)) :
    ∀ access ∈ sizeTests header b, P access := by
  intro access mem
  unfold sizeTests at mem
  split at mem <;> simp_all

/-- The accesses of one iteration of `sweep_big_blocks`, in their order. -/
def sweepBigBlockAccesses (big : Nat) (s : BigSweep) : List BigAccess :=
  let header := s.heap.mem (bigHeader big)
  sizeTests header big ++
    if !blockIsMarked header && !blockIsPinned header then
      [.readNext big] ++ (if s.prev = 0 then [] else [.writeNext s.prev]) ++
        [.readSize big, .unmap big (8 + blockSize header)]
    else [.readSize big, .writeSize big, .readSize big, .writeSize big, .readNext big]

/-- The mappings after the blocks `dropped` have been unmapped. -/
def unmapBigs (pf : Platform) (m : Memory) (dropped : List Nat) (mappings : List Region) :
    List Region :=
  dropped.foldl (fun regions b =>
    regions.flatMap (Region.unmap pf.pageSize b (8 + blockSize (m (bigHeader b))))) mappings

/-- The state of the loop: the surviving blocks `kept` have been visited, `todo` are left. -/
structure BigFiltering (h₀ : Heap) (bigs kept todo : List Nat) (s : BigSweep) : Prop where
  visited : ∃ visited, bigs = visited ++ todo ∧ kept = visited.filter (bigSurvives h₀.mem)
  chain : Chain (bigNext s.heap.mem) s.heap.firstBigBlock (kept ++ todo)
  prev : s.prev = kept.getLastD 0
  otherHeader : ∀ b ∈ bigs, b ∉ kept → s.heap.mem (bigHeader b) = h₀.mem (bigHeader b)
  keptHeader : ∀ b ∈ kept,
    s.heap.mem (bigHeader b) = unmarkBlock (unpinBlock (h₀.mem (bigHeader b)))
  frame : ∀ x, (∀ b ∈ bigs, x ≠ b ∧ x ≠ bigHeader b) → s.heap.mem x = h₀.mem x
  heapEq : s.heap = { h₀ with
    mem := s.heap.mem, firstBigBlock := s.heap.firstBigBlock, mappings := s.heap.mappings }

/-- The words of distinct big blocks are distinct. -/
theorem BigList.words_ne (list : BigList h bigs) {d : Nat} (bMem : b ∈ bigs) (dMem : d ∈ bigs) :
    b ≠ bigHeader d ∧ (b ≠ d → bigHeader b ≠ d ∧ bigHeader b ≠ bigHeader d) := by
  simp only [bigHeader]
  by_cases same : b = d
  · exact ⟨by omega, fun different => absurd same different⟩
  · have apart := list.apart b bMem d dMem same
    simp only [bigData, sizeofBigBlock] at apart
    exact ⟨by omega, fun _ => ⟨by omega, by omega⟩⟩

namespace BigFiltering

theorem sub (inv : BigFiltering h₀ bigs kept todo s) : ∀ d ∈ kept ++ todo, d ∈ bigs := by
  rcases inv.visited with ⟨visited, rfl, rfl⟩
  intro d mem
  rcases List.mem_append.mp mem with inKept | inTodo
  · exact List.mem_append_left _ (List.mem_filter.mp inKept).1
  · exact List.mem_append_right _ inTodo

theorem nodup (inv : BigFiltering h₀ bigs kept todo s) : (kept ++ todo).Nodup :=
  inv.chain.nodup

theorem head_header (inv : BigFiltering h₀ bigs kept (b :: todo) s) :
    s.heap.mem (bigHeader b) = h₀.mem (bigHeader b) :=
  inv.otherHeader b (inv.sub b (by simp)) fun inKept =>
    (List.nodup_append'.mp inv.nodup).2.2 inKept (by simp)

/-- The block at the head of the rest is no survivor of the earlier ones, nor is it visited
again. -/
theorem head_fresh (inv : BigFiltering h₀ bigs kept (b :: todo) s) : b ∉ kept ++ todo := by
  intro mem
  rcases List.mem_append.mp mem with inKept | inTodo
  · exact (List.nodup_append'.mp inv.nodup).2.2 inKept (by simp)
  · exact (List.nodup_cons.mp (List.nodup_append'.mp inv.nodup).2.1).1 inTodo

/-- `prev` is null as long as no block has survived. -/
theorem prev_eq_zero_iff (inv : BigFiltering h₀ bigs kept todo s) : s.prev = 0 ↔ kept = [] := by
  rw [inv.prev, List.getLastD_eq_getLast?]
  constructor
  · intro isZero
    by_contra nonempty
    rw [List.getLast?_eq_getLast_of_ne_nil nonempty] at isZero
    exact inv.chain.ne_zero (by simp [List.getLast_mem nonempty]) isZero
  · rintro rfl
    rfl

theorem prev_eq_last (inv : BigFiltering h₀ bigs kept todo s) {last : Nat}
    (isLast : kept.getLast? = some last) : s.prev = last := by
  rw [inv.prev, List.getLastD_eq_getLast?, isLast]
  rfl

theorem last_eq_prev (inv : BigFiltering h₀ bigs kept todo s) (nonnull : s.prev ≠ 0) :
    kept.getLast? = some s.prev := by
  have nonempty : kept ≠ [] := fun nil => nonnull (inv.prev_eq_zero_iff.mpr nil)
  rw [inv.prev, List.getLastD_eq_getLast?, List.getLast?_eq_getLast_of_ne_nil nonempty]
  rfl

/-- The word of the last survivor that is redirected is not the size of the next block. -/
theorem prev_ne_header (inv : BigFiltering h₀ bigs kept (b :: todo) s) (list : BigList h₀ bigs) :
    s.prev ≠ bigHeader b := by
  intro same
  have nonnull : s.prev ≠ 0 := by
    rw [same]
    simp [bigHeader]
  have prevBig := inv.sub s.prev (by simp [List.mem_of_getLast? (inv.last_eq_prev nonnull)])
  exact (list.words_ne prevBig (inv.sub b (by simp))).1 same

theorem keep (inv : BigFiltering h₀ bigs kept (b :: todo) s) (list : BigList h₀ bigs)
    (survives : bigSurvives h₀.mem b = true) :
    BigFiltering h₀ bigs (kept ++ [b]) todo
      ⟨{ s.heap with
        mem := s.heap.mem.write (bigHeader b)
          (unmarkBlock (unpinBlock (s.heap.mem (bigHeader b)))) }, b⟩ := by
  have sub := inv.sub
  have bBig : b ∈ bigs := sub b (by simp)
  have headerEq := inv.head_header
  have cells : kept ++ [b] ++ todo = kept ++ b :: todo := by simp
  rcases inv.visited with ⟨visited, split, filtered⟩
  refine
    { visited := ⟨visited ++ [b], by simpa using split, ?_⟩, chain := ?_, prev := ?_,
      otherHeader := ?_, keptHeader := ?_, frame := ?_, heapEq := ?_ }
  · rw [List.filter_append, filtered]
    simp [survives]
  · rw [cells]
    refine inv.chain.congr fun d mem => ?_
    exact write_of_ne (list.words_ne (sub d mem) bBig).1
  · simp [List.getLastD_eq_getLast?]
  · intro d dBig notKept
    simp only [List.mem_append, List.mem_singleton, not_or] at notKept
    dsimp only
    rw [write_of_ne ((list.words_ne dBig bBig).2 notKept.2).2]
    exact inv.otherHeader d dBig notKept.1
  · intro d mem
    dsimp only
    rcases List.mem_append.mp mem with old | new
    · have other : d ≠ b := by
        rintro rfl
        exact inv.head_fresh (by simp [old])
      rw [write_of_ne ((list.words_ne (sub d (by simp [old])) bBig).2 other).2]
      exact inv.keptHeader d old
    · rw [List.mem_singleton.mp new, write_same, headerEq]
  · intro x away
    dsimp only
    rw [write_of_ne (away b bBig).2]
    exact inv.frame x away
  · dsimp only
    rw [inv.heapEq]

theorem redirect (inv : BigFiltering h₀ bigs kept (b :: todo) s) {next : Nat} {linked : Heap}
    (linkedEq : linked = if s.prev = 0 then { s.heap with firstBigBlock := next }
      else { s.heap with mem := setBigNext s.heap.mem s.prev next }) :
    ∃ m₁ : Memory, linked = { s.heap with
        mem := m₁, firstBigBlock := if kept = [] then next else s.heap.firstBigBlock } ∧
      (∀ last, kept.getLast? = some last → m₁ last = next) ∧
      ∀ x, kept.getLast? ≠ some x → m₁ x = s.heap.mem x := by
  by_cases isZero : s.prev = 0
  · have keptNil := inv.prev_eq_zero_iff.mp isZero
    subst keptNil
    refine ⟨s.heap.mem, ?_, by simp, fun _ _ => rfl⟩
    rw [linkedEq, if_pos isZero, if_pos rfl]
  · have keptNe : kept ≠ [] := fun nil => isZero (inv.prev_eq_zero_iff.mpr nil)
    refine ⟨setBigNext s.heap.mem s.prev next, ?_, ?_, ?_⟩
    · rw [linkedEq, if_neg isZero, if_neg keptNe]
    · intro last isLast
      rw [← inv.prev_eq_last isLast]
      exact write_same ..
    · intro x notLast
      refine write_of_ne ?_
      rintro rfl
      exact notLast (inv.last_eq_prev isZero)

theorem drop (inv : BigFiltering h₀ bigs kept (b :: todo) s) (list : BigList h₀ bigs)
    (dies : bigSurvives h₀.mem b = false) {next : Nat} (nextEq : next = bigNext s.heap.mem b)
    {linked : Heap} {length : Nat}
    (linkedEq : linked = if s.prev = 0 then { s.heap with firstBigBlock := next }
      else { s.heap with mem := setBigNext s.heap.mem s.prev next }) :
    BigFiltering h₀ bigs kept todo ⟨munmap pf b length linked, s.prev⟩ := by
  have sub := inv.sub
  rcases inv.redirect linkedEq with ⟨m₁, memEq, redirected, others⟩
  have lastMem : ∀ last, kept.getLast? = some last → last ∈ kept := fun last isLast =>
    List.mem_of_getLast? isLast
  have headerSame : ∀ d ∈ bigs, m₁ (bigHeader d) = s.heap.mem (bigHeader d) := by
    intro d dMem
    refine others _ fun isLast => ?_
    have lastBig := sub (bigHeader d) (by simp [lastMem _ isLast])
    exact (list.words_ne lastBig dMem).1 rfl
  rw [memEq]
  rcases inv.visited with ⟨visited, split, filtered⟩
  refine
    { visited := ⟨visited ++ [b], by simpa using split, ?_⟩, chain := ?_, prev := inv.prev,
      otherHeader := ?_, keptHeader := ?_, frame := ?_, heapEq := ?_ }
  · rw [List.filter_append, filtered]
    simp [dies]
  · dsimp only [munmap]
    rw [nextEq]
    refine inv.chain.unlink inv.nodup ?_ ?_
    · exact fun x _ notLast => others x notLast
    · intro last isLast
      exact (redirected last isLast).trans nextEq
  · intro d dBig notKept
    dsimp only [munmap]
    rw [headerSame d dBig]
    exact inv.otherHeader d dBig notKept
  · intro d mem
    dsimp only [munmap]
    rw [headerSame d (sub d (by simp [mem]))]
    exact inv.keptHeader d mem
  · intro x away
    dsimp only [munmap]
    rw [others x fun isLast => (away x (sub x (by simp [lastMem x isLast]))).1 rfl]
    exact inv.frame x away
  · dsimp only [munmap]
    rw [inv.heapEq]

theorem start (list : BigList h₀ bigs) : BigFiltering h₀ bigs [] bigs ⟨h₀, 0⟩ :=
  { visited := ⟨[], rfl, rfl⟩, chain := list.chain, prev := rfl, otherHeader := fun _ _ _ => rfl,
    keptHeader := by simp, frame := fun _ _ => rfl, heapEq := rfl }

end BigFiltering

theorem BigFiltering.iterate (pf : Platform) (inv : BigFiltering h₀ bigs kept (b :: todo) s)
    (list : BigList h₀ bigs) :
    ∃ s', sweepBigBlock pf b s = .ok (todo.headD 0, s') ∧
      ((bigSurvives h₀.mem b = false ∧ BigFiltering h₀ bigs kept todo s' ∧
          s'.heap.mappings = s.heap.mappings.flatMap
            (Region.unmap pf.pageSize b (8 + blockSize (h₀.mem (bigHeader b))))) ∨
        (bigSurvives h₀.mem b = true ∧ BigFiltering h₀ bigs (kept ++ [b]) todo s' ∧
          s'.heap.mappings = s.heap.mappings)) := by
  have next := inv.chain.suffix.head_eq
  have headerEq := inv.head_header
  unfold sweepBigBlock
  dsimp only
  split
  · rename_i dead
    have dies : bigSurvives h₀.mem b = false := by
      simpa [bigSurvives, headerEq] using dead
    refine ⟨⟨munmap pf b (8 + blockSize (s.heap.mem (bigHeader b))) _, s.prev⟩, ?_,
      Or.inl ⟨dies, inv.drop list dies rfl rfl, ?_⟩⟩
    · rw [next]
    · rw [← headerEq]
      dsimp only [munmap]
      split <;> rfl
  · rename_i alive
    have survives : bigSurvives h₀.mem b = true := by
      simp only [Bool.and_eq_true, Bool.not_eq_true', not_and, Bool.not_eq_false] at alive
      simp only [bigSurvives, Bool.or_eq_true, ← headerEq]
      by_cases isMarked : blockIsMarked (s.heap.mem (bigHeader b)) = true
      · exact Or.inl isMarked
      · exact Or.inr (alive (by simpa using isMarked))
    refine ⟨_, ?_, Or.inr ⟨survives, inv.keep list survives, rfl⟩⟩
    rw [← next]
    refine congrArg (fun link => Except.ok (link, _)) (write_of_ne ?_)
    simp only [bigHeader]
    omega

namespace BigCode

variable {entries : List BigAccess}

theorem run_isGarbage (big : Nat) : (isGarbage big).run (s, entries) =
    (!blockIsMarked (s.heap.mem (bigHeader big)) && !blockIsPinned (s.heap.mem (bigHeader big)), s,
      entries ++ sizeTests (s.heap.mem (bigHeader big)) big) := by
  cases isMarked : blockIsMarked (s.heap.mem (bigHeader big)) with
  | true =>
      simp [isGarbage, sizeTests, readSize, access, isMarked]
      rfl
  | false =>
      simp [isGarbage, sizeTests, readSize, access, isMarked]
      rfl

theorem run_keepBlock (big : Nat) : (keepBlock big).run (s, entries) =
    (bigNext (s.heap.mem.write (bigHeader big)
        (unmarkBlock (unpinBlock (s.heap.mem (bigHeader big))))) big,
      ⟨{ s.heap with
          mem := s.heap.mem.write (bigHeader big)
            (unmarkBlock (unpinBlock (s.heap.mem (bigHeader big)))) }, big⟩,
      entries ++
        [.readSize big, .writeSize big, .readSize big, .writeSize big, .readNext big]) := by
  simp [keepBlock, readSize, writeSize, readNext, setPrev, access]
  rfl

theorem run_dropBlock (pf : Platform) {big : Nat} (apart : s.prev ≠ bigHeader big) :
    (dropBlock pf big).run (s, entries) =
      (bigNext s.heap.mem big,
        ⟨munmap pf big (8 + blockSize (s.heap.mem (bigHeader big)))
          (if s.prev = 0 then { s.heap with firstBigBlock := bigNext s.heap.mem big }
          else { s.heap with mem := setBigNext s.heap.mem s.prev (bigNext s.heap.mem big) }),
          s.prev⟩,
        entries ++ ([.readNext big] ++ (if s.prev = 0 then [] else [.writeNext s.prev]) ++
          [.readSize big, .unmap big (8 + blockSize (s.heap.mem (bigHeader big)))])) := by
  -- the size is read again after the link to the block has been redirected
  have sizeSame : ∀ next, setBigNext s.heap.mem s.prev next (bigHeader big) =
      s.heap.mem (bigHeader big) := fun next => write_of_ne (Ne.symm apart)
  by_cases isFirst : s.prev = 0
  · simp [dropBlock, readSize, readNext, setFirst, unmap, access, isFirst]
    rfl
  · simp [dropBlock, readSize, readNext, writeNext, unmap, access, isFirst, sizeSame]
    rfl

/-- The code made of accesses does what one iteration does. -/
theorem run_sweepBlock (pf : Platform) (apart : s.prev ≠ bigHeader b) :
    Except.ok ((sweepBlock pf b).run (s, entries)) =
      sweepBigBlock pf b s >>= fun next =>
        .ok (next.1, next.2, entries ++ sweepBigBlockAccesses b s) := by
  have tested := @run_isGarbage s entries b
  cases garbage : !blockIsMarked (s.heap.mem (bigHeader b)) &&
      !blockIsPinned (s.heap.mem (bigHeader b)) with
  | true =>
      rw [garbage] at tested
      simp only [sweepBlock, StateT.run_bind, tested, sweepBigBlock, sweepBigBlockAccesses, garbage,
        if_true]
      refine congrArg Except.ok ((run_dropBlock pf apart).trans ?_)
      simp only [List.append_assoc]
  | false =>
      rw [garbage] at tested
      simp only [sweepBlock, StateT.run_bind, tested, sweepBigBlock, sweepBigBlockAccesses, garbage]
      refine congrArg Except.ok ((run_keepBlock b).trans ?_)
      simp only [List.append_assoc]
      rfl

end BigCode

/-- What the accesses to the blocks `todo` amount to, while the blocks `live` are mapped. -/
structure BigAccesses (m : Memory) (live todo : List Nat) (accesses : List BigAccess) : Prop where
  within : ∀ access ∈ accesses, access.block ∈ live
  unmaps : accesses.filterMap BigAccess.unmapped = todo.filter fun b => !bigSurvives m b
  ordered : accesses.Pairwise fun early late => early.unmapped ≠ some late.block

namespace BigAccesses

variable {m : Memory} {live live' : List Nat} {accesses : List BigAccess} {access : BigAccess}

theorem nil (m : Memory) (live : List Nat) : BigAccesses m live [] [] :=
  ⟨by simp, rfl, List.Pairwise.nil⟩

theorem wider (rest : BigAccesses m live todo accesses) (more : ∀ d ∈ live, d ∈ live') :
    BigAccesses m live' todo accesses :=
  { rest with within := fun access mem => more _ (rest.within access mem) }

/-- A mapped block is read or written first. -/
theorem touch (rest : BigAccesses m live todo accesses) (mapped : access.block ∈ live)
    (stays : access.unmapped = none) : BigAccesses m live todo (access :: accesses) where
  within := List.forall_mem_cons.mpr ⟨mapped, rest.within⟩
  unmaps := by rw [List.filterMap_cons_none stays, rest.unmaps]
  ordered := List.pairwise_cons.mpr ⟨by simp [stays], rest.ordered⟩

theorem touches {entries : List BigAccess}
    (touched : ∀ access ∈ entries, access.block ∈ live ∧ access.unmapped = none)
    (rest : BigAccesses m live todo accesses) :
    BigAccesses m live todo (entries ++ accesses) := by
  induction entries with
  | nil => exact rest
  | cons access entries ih =>
      rcases List.forall_mem_cons.mp touched with ⟨⟨mapped, stays⟩, others⟩
      exact (ih others).touch mapped stays

/-- A block is unmapped first, and no access to it follows. -/
theorem unmap (rest : BigAccesses m live todo accesses) (dies : bigSurvives m b = false)
    (gone : b ∉ live) (length : Nat) :
    BigAccesses m (b :: live) (b :: todo) (.unmap b length :: accesses) where
  within := List.forall_mem_cons.mpr ⟨List.mem_cons_self, fun access mem =>
    List.mem_cons_of_mem _ (rest.within access mem)⟩
  unmaps := by
    rw [List.filterMap_cons_some (show BigAccess.unmapped (.unmap b length) = some b from rfl),
      rest.unmaps, List.filter_cons_of_pos (by simp [dies])]
  ordered := by
    refine List.pairwise_cons.mpr ⟨fun late mem same => gone ?_, rest.ordered⟩
    cases same
    exact rest.within late mem

/-- The head of the list survives: it is read and written, and stays mapped. -/
theorem keep (rest : BigAccesses h₀.mem (kept ++ [b] ++ todo) todo accesses)
    (inv : BigFiltering h₀ bigs kept (b :: todo) s) (survives : bigSurvives h₀.mem b = true) :
    BigAccesses h₀.mem (kept ++ b :: todo) (b :: todo) (sweepBigBlockAccesses b s ++ accesses) := by
  have alive : (!blockIsMarked (h₀.mem (bigHeader b)) && !blockIsPinned (h₀.mem (bigHeader b))) =
      false := by simpa [bigSurvives, Classical.or_iff_not_imp_left] using survives
  have later : BigAccesses h₀.mem (kept ++ b :: todo) (b :: todo) accesses := by
    have skipped : (b :: todo).filter (fun d => !bigSurvives h₀.mem d) =
        todo.filter fun d => !bigSurvives h₀.mem d := List.filter_cons_of_neg (by simp [survives])
    have cells : kept ++ [b] ++ todo = kept ++ b :: todo := by simp
    rw [cells] at rest
    exact { rest with unmaps := rest.unmaps.trans skipped.symm }
  apply later.touches
  simp only [sweepBigBlockAccesses, inv.head_header, alive]
  rw [List.forall_mem_append]
  exact ⟨forall_mem_sizeTests _ (by simp [BigAccess.block, BigAccess.unmapped]),
    by simp [BigAccess.block, BigAccess.unmapped]⟩

/-- The head of the list is dropped: nothing touches it after its mapping has gone. -/
theorem drop (rest : BigAccesses h₀.mem (kept ++ todo) todo accesses)
    (inv : BigFiltering h₀ bigs kept (b :: todo) s) (dies : bigSurvives h₀.mem b = false) :
    BigAccesses h₀.mem (kept ++ b :: todo) (b :: todo) (sweepBigBlockAccesses b s ++ accesses) := by
  have dead : (!blockIsMarked (h₀.mem (bigHeader b)) && !blockIsPinned (h₀.mem (bigHeader b))) =
      true := by simpa [bigSurvives] using dies
  have later : BigAccesses h₀.mem (kept ++ b :: todo) (b :: todo)
      (.unmap b (8 + blockSize (h₀.mem (bigHeader b))) :: accesses) := by
    apply (rest.unmap dies inv.head_fresh _).wider
    intro d mem
    simpa [or_left_comm] using mem
  have parts : sweepBigBlockAccesses b s ++ accesses =
      (sizeTests (h₀.mem (bigHeader b)) b ++
        ([.readNext b] ++ (if s.prev = 0 then [] else [.writeNext s.prev]) ++ [.readSize b])) ++
          (.unmap b (8 + blockSize (h₀.mem (bigHeader b))) :: accesses) := by
    simp [sweepBigBlockAccesses, inv.head_header, dead]
  rw [parts]
  apply later.touches
  rw [List.forall_mem_append]
  refine ⟨forall_mem_sizeTests _ (by simp [BigAccess.block, BigAccess.unmapped]), ?_⟩
  by_cases isFirst : s.prev = 0
  · simp [isFirst, BigAccess.block, BigAccess.unmapped]
  · have inKept := List.mem_of_getLast? (inv.last_eq_prev isFirst)
    simp [isFirst, inKept, BigAccess.block, BigAccess.unmapped]

end BigAccesses

/-- One iteration, whether the block at the head survives or not. -/
theorem BigFiltering.advance (pf : Platform) (inv : BigFiltering h₀ bigs kept (b :: todo) s)
    (list : BigList h₀ bigs) :
    ∃ s' kept', sweepBigBlock pf b s = .ok (todo.headD 0, s') ∧
      BigFiltering h₀ bigs kept' todo s' ∧
      kept' ++ todo.filter (bigSurvives h₀.mem) =
        kept ++ (b :: todo).filter (bigSurvives h₀.mem) ∧
      unmapBigs pf h₀.mem (todo.filter fun d => !bigSurvives h₀.mem d) s'.heap.mappings =
        unmapBigs pf h₀.mem ((b :: todo).filter fun d => !bigSurvives h₀.mem d) s.heap.mappings ∧
      ∀ accesses, BigAccesses h₀.mem (kept' ++ todo) todo accesses →
        BigAccesses h₀.mem (kept ++ b :: todo) (b :: todo)
          (sweepBigBlockAccesses b s ++ accesses) := by
  rcases inv.iterate pf list with ⟨s', eq, ⟨dies, inv', mappings⟩ | ⟨survives, inv', same⟩⟩
  · have dropped : (b :: todo).filter (fun d => !bigSurvives h₀.mem d) =
        b :: todo.filter fun d => !bigSurvives h₀.mem d :=
      List.filter_cons_of_pos (by simp [dies])
    refine ⟨s', kept, eq, inv', by simp [dies], ?_, fun _ rest => rest.drop inv dies⟩
    rw [dropped, mappings]
    rfl
  · refine ⟨s', kept ++ [b], eq, inv', by simp [survives], by simp [survives, same],
      fun _ rest => rest.keep inv survives⟩

/-- The loop keeps the survivors of the blocks `todo` and unmaps the others; the code made of
accesses collects its record on the same way. -/
theorem BigFiltering.walk {fuel : Nat} (pf : Platform) (inv : BigFiltering h₀ bigs kept todo s)
    (list : BigList h₀ bigs) (enough : todo.length < fuel) :
    ∃ s' accesses,
      Foundation.walk (fun big _ => big == 0) (sweepBigBlock pf) Fault.outOfFuel fuel
        (todo.headD 0) s = .ok s' ∧
      (∀ entries, Foundation.walk (fun big _ => big == 0)
        (fun big state => .ok ((BigCode.sweepBlock pf big).run state)) Fault.outOfFuel fuel
        (todo.headD 0) (s, entries) = .ok (s', entries ++ accesses)) ∧
      BigFiltering h₀ bigs (kept ++ todo.filter (bigSurvives h₀.mem)) [] s' ∧
      s'.heap.mappings = unmapBigs pf h₀.mem (todo.filter fun b => !bigSurvives h₀.mem b)
        s.heap.mappings ∧
      BigAccesses h₀.mem (kept ++ todo) todo accesses := by
  induction fuel generalizing kept todo s with
  | zero => omega
  | succ fuel ih =>
      cases todo with
      | nil =>
          refine ⟨s, [], rfl, fun entries => by simp [Foundation.walk], ?_, rfl,
            BigAccesses.nil _ _⟩
          simpa using inv
      | cons b todo =>
          have nonnull : b ≠ 0 := inv.chain.ne_zero (by simp)
          have running : ((b :: todo).headD 0 == 0) = false := by simpa using nonnull
          have collects := fun entries =>
            @BigCode.run_sweepBlock b s entries pf (inv.prev_ne_header list)
          simp only [Foundation.walk, running]
          rcases inv.advance pf list with ⟨s', kept', eq, inv', survivors, dropped, grows⟩
          rcases ih inv' (Nat.lt_of_succ_lt_succ enough) with
            ⟨final, accesses, eq', collected, inv'', mappings, rest⟩
          rw [List.headD_cons, eq]
          refine ⟨final, sweepBigBlockAccesses b s ++ accesses, eq', fun entries => ?_,
            survivors ▸ inv'', mappings.trans dropped, grows accesses rest⟩
          rw [collects, eq, ← List.append_assoc]
          exact collected _

/-- What `sweep_big_blocks` makes of a list: the survivors, in their order, and a single call of
`munmap` for each other block, after which the block is not touched. -/
structure BigFiltered (pf : Platform) (h₀ : Heap) (bigs : List Nat) (accesses : List BigAccess)
    (h : Heap) : Prop where
  chain : Chain (bigNext h.mem) h.firstBigBlock (bigs.filter (bigSurvives h₀.mem))
  flags : ∀ b ∈ bigs.filter (bigSurvives h₀.mem),
    blockIsMarked (h.mem (bigHeader b)) = false ∧ blockIsPinned (h.mem (bigHeader b)) = false
  sizes : ∀ b ∈ bigs.filter (bigSurvives h₀.mem),
    blockSize (h.mem (bigHeader b)) = blockSize (h₀.mem (bigHeader b))
  contents : ∀ b ∈ bigs.filter (bigSurvives h₀.mem), ∀ x, bigData b ≤ x →
    x < bigData b + blockSize (h₀.mem (bigHeader b)) → h.mem x = h₀.mem x
  unmaps : accesses.filterMap BigAccess.unmapped = bigs.filter fun b => !bigSurvives h₀.mem b
  once : (accesses.filterMap BigAccess.unmapped).Nodup
  mappings : h.mappings =
    unmapBigs pf h₀.mem (bigs.filter fun b => !bigSurvives h₀.mem b) h₀.mappings
  ordered : accesses.Pairwise fun early late => early.unmapped ≠ some late.block

/-- A surviving header loses its mark and its pin; the third flag stays. -/
theorem flags_unmark_unpin (header : Nat) :
    blockIsPinned (unmarkBlock (unpinBlock header)) = false ∧
      blockIsMarked (unmarkBlock (unpinBlock header)) = false ∧
        blockIsDead (unmarkBlock (unpinBlock header)) = blockIsDead header := by
  have residue : unmarkBlock (unpinBlock header) % 8 =
      clear (clear (header % 8) pinFlag) markFlag := by
    simp only [unmarkBlock, unpinBlock, markFlag, pinFlag]
    rw [clear_mod_eight (by decide), clear_mod_eight (by decide)]
  rcases flags_residue (unmarkBlock (unpinBlock header)) with ⟨pinned, marked, dead⟩
  rw [pinned, marked, dead, residue, (flags_residue header).2.2]
  refine @of_residues (fun r => blockIsPinned (clear (clear r pinFlag) markFlag) = false ∧
    blockIsMarked (clear (clear r pinFlag) markFlag) = false ∧
      blockIsDead (clear (clear r pinFlag) markFlag) = blockIsDead r) header ?_
  decide

/-- Sweeping the big blocks is an exact filter of the list. -/
theorem sweepBigBlocks_filters {fuel : Nat} (list : BigList h bigs) (enough : bigs.length < fuel) :
    ∃ h' accesses, sweepBigBlocks pf fuel h = .ok h' ∧
      sweepBigBlocksAccessing pf fuel h = .ok (h', accesses) ∧
      BigFiltered pf h bigs accesses h' := by
  rcases (BigFiltering.start list).walk pf list enough with
    ⟨s, accesses, eq, collected, inv, mappings, ends⟩
  rw [← list.chain.head_eq] at eq collected
  rw [List.nil_append] at inv
  have chain := inv.chain
  rw [List.append_nil] at chain
  refine ⟨s.heap, accesses, ?_, ?_, ?_⟩
  · rw [sweepBigBlocks, eq]
    rfl
  · rw [sweepBigBlocksAccessing, collected]
    rfl
  · refine
      { chain := chain, flags := ?_, sizes := ?_, contents := ?_, unmaps := ends.unmaps,
        once := ?_, mappings := mappings, ordered := ends.ordered }
    · intro b mem
      rw [inv.keptHeader b mem]
      exact ⟨(flags_unmark_unpin _).2.1, (flags_unmark_unpin _).1⟩
    · intro b mem
      rw [inv.keptHeader b mem, blockSize_unmarkBlock, blockSize_unpinBlock]
    · intro b mem x lower upper
      have bMem := (List.mem_filter.mp mem).1
      apply inv.frame
      intro d dMem
      simp only [bigData, sizeofBigBlock, bigHeader] at lower upper ⊢
      by_cases same : b = d
      · omega
      · have apart := list.apart b bMem d dMem same
        simp only [bigData, sizeofBigBlock, bigHeader] at apart
        omega
    · rw [ends.unmaps]
      exact list.chain.nodup.filter _

/-- Five big blocks; the second is marked and the fourth pinned. -/
def fiveBigBlocks : Heap where
  mem := wordsAt [(65536, 131072), (65544, 4096), (131072, 196608), (131080, markBlock 4096),
    (131088, 7), (196608, 262144), (196616, 8192), (262144, 327680), (262152, pinBlock 4096),
    (327688, 4096)]
  mappings := [⟨65536, 8192⟩, ⟨131072, 8192⟩, ⟨196608, 12288⟩, ⟨262144, 8192⟩, ⟨327680, 8192⟩]
  firstBigBlock := 65536

theorem fiveBigBlocks_list : BigList fiveBigBlocks [65536, 131072, 196608, 262144, 327680] :=
  ⟨by decide, by decide⟩

theorem sweepBigBlocks_filters_five :
    ∃ h' accesses, sweepBigBlocks noMemory 6 fiveBigBlocks = .ok h' ∧
      sweepBigBlocksAccessing noMemory 6 fiveBigBlocks = .ok (h', accesses) ∧
      Chain (bigNext h'.mem) h'.firstBigBlock [131072, 262144] ∧ h'.mem 131088 = 7 ∧
        accesses.filterMap BigAccess.unmapped = [65536, 196608, 327680] := by
  rcases @sweepBigBlocks_filters noMemory _ _ 6 fiveBigBlocks_list (by decide) with
    ⟨h', accesses, eq, collected, filtered⟩
  have kept : [65536, 131072, 196608, 262144, 327680].filter (bigSurvives fiveBigBlocks.mem) =
      [131072, 262144] := by decide
  have data := filtered.contents 131072 (by decide) 131088 (by decide) (by decide)
  exact ⟨h', accesses, eq, collected, kept ▸ filtered.chain, data, filtered.unmaps⟩

end PreciseGc

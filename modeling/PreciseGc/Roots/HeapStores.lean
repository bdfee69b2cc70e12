import PreciseGc.Foundation.ObjectStore
import PreciseGc.Roots.CollectedWords

/-!
# The store a program sees

A program comes to its objects from registered `gc_ptr`s and from raw pointers
on its stacks.  `heapStore` is what it sees from there: contents, null, and
which references are the same.  A harmless full collection gives the objects
new places and is otherwise not to be seen; all other objects are reclaimed.
-/

namespace PreciseGc

open Foundation Memory Relation

variable {pf : Platform} {threads : List ThreadHandler} {fakeRoots : FakeRoots}
  {t t₁ : DerefRoots} {h h₁ h' : Heap} {c c₂ c' : Census} {bigs : List Nat}
  {a b d x q w big fuel : Nat} {moved : List (Nat × Nat)} {r : SweepState}
  {s' : DerefRoots × Heap}

/-- Where a program starts from: a registered `gc_ptr`, or a raw pointer on a stack. -/
inductive RootName where
  | cell (a : Nat)
  | word (w : Nat)
deriving DecidableEq

/-- What the program reads in an object: its size, which of its words are slots, and the others. -/
structure Content where
  size : Nat
  slots : List Nat
  data : Nat → Option Nat
deriving Inhabited

/-- The block a plain pointer word designates. -/
def pointee (w : Nat) : Option Nat :=
  if clearBothFlags w = 0 then none else some (clearBothFlags w - 32)

def contentOf (m : Memory) (b : Nat) : Content where
  size := blockSize (m b)
  slots := (slotsOf m b).map (· - b)
  data o := if o < blockSize (m b) ∧ b + 8 + o ∉ slotsOf m b then some (m (b + 8 + o)) else none

/-- The block that a raw pointer into a dereferenced object keeps. -/
def wordTarget (t : DerefRoots) (h : Heap) (w : Nat) : Option Nat :=
  (t.lookup w).bind fun handler =>
    let b := handler.plainPointer - 32
    if w < b + 8 + blockSize (h.mem b) then some b else none

/-- The registered `gc_ptr`s. -/
def cellsOf (threads : List ThreadHandler) (fakeRoots : FakeRoots) : List Nat :=
  (stackRoots threads).flatten ++ fakeRoots.nodes.map Prod.snd

/-- What the program sees of the heap. -/
def heapStore (threads : List ThreadHandler) (fakeRoots : FakeRoots) (t : DerefRoots) (h : Heap) :
    Store Nat RootName Nat Content where
  content := contentOf h.mem
  slot b o := if b + o ∈ slotsOf h.mem b then pointee (h.mem (b + o)) else none
  root
    | .cell a => if a ∈ cellsOf threads fakeRoots then pointee (h.mem a) else none
    | .word w => if w ∈ wordsOf threads then wordTarget t h w else none

theorem pointee_of_null (null : IsNull w) : pointee w = none := if_pos null.2

theorem pointee_of_designates (designates : Designates w b) : pointee w = some b := by
  have target := designates.2
  rw [objectOf_eq] at target
  rw [pointee, if_neg (by omega), target, Nat.add_sub_cancel]

theorem PlainWord.pointee_iff (word : PlainWord h w) : pointee w = some b ↔ Designates w b := by
  constructor
  · intro eq
    rcases word with null | ⟨d, _, designates⟩
    · rw [pointee_of_null null] at eq
      cases eq
    · rw [pointee_of_designates designates] at eq
      exact Option.some.inj eq ▸ designates
  · exact pointee_of_designates

theorem RenamedWord.pointee_eq {f : Nat → Nat} {w' : Nat} (renamed : RenamedWord f w w') :
    pointee w' = (pointee w).map f := by
  rcases renamed with ⟨null, rfl⟩ | ⟨b, flag, small, aligned, aligned', rfl, rfl⟩
  · rw [pointee_of_null null]
    rfl
  · rw [pointee_of_designates (designates_word aligned small),
      pointee_of_designates (designates_word aligned' small)]
    rfl

/-- The content of an object that is held at another place. -/
theorem HeldBy.content_eq (held : HeldBy h h' b d) (object : ∀ x ∈ slotsOf h.mem b, b ≤ x) :
    contentOf h'.mem d = contentOf h.mem b := by
  have slots := held.shape.slotsOf_eq
  have isSlot : ∀ o, d + 8 + o ∈ slotsOf h'.mem d ↔ b + 8 + o ∈ slotsOf h.mem b := by
    intro o
    rw [slots, List.mem_map]
    constructor
    · rintro ⟨x, mem, eq⟩
      have := object x mem
      rwa [show b + 8 + o = x by omega]
    · intro mem
      exact ⟨_, mem, by omega⟩
  rw [contentOf, contentOf]
  congr 1
  · exact held.size
  · rw [slots, List.map_map]
    refine List.map_congr_left fun x mem => ?_
    exact Nat.add_sub_cancel ..
  · funext o
    rw [held.size]
    simp only [isSlot]
    split
    · rename_i inside
      rw [held.data o inside.1 inside.2]
    · rfl

namespace RootsValid

/-- The bytes of an object lie in the heap. -/
theorem inHeap_of_inside (valid : RootsValid pf t h c bigs) (used : InUse h b)
    (lower : objectOf b ≤ w) (upper : w < b + 8 + blockSize (h.mem b)) : InHeap h bigs w := by
  rw [objectOf_eq] at lower
  rcases valid.inUse_iff.mp used with ⟨q, qMem, bMem⟩ | ⟨big, bigMem, rfl⟩
  · have qTiled := Classifying.tiled_of_alive qMem
    have := (valid.arena.pageOk q qTiled).block_bounds bMem
    rcases valid.arena.inParts (Arena.tiled_pages qTiled) with ⟨part, partMem, low, high⟩
    exact Or.inl ⟨part, partMem, by omega, by omega⟩
  · refine Or.inr ⟨big, bigMem, ?_, ?_⟩
    · simp only [bigHeader] at lower
      omega
    · simp only [bigHeader, bigData, sizeofBigBlock] at upper ⊢
      omega

/-- The handler that a word finds stands for an object. -/
theorem handler_object (valid : RootsValid pf t h c bigs) {handler : RootHandler}
    (found : t.lookup w = some handler) :
    ∃ b, ObjectBlock h b ∧ handler.plainPointer = objectOf b ∧ objectOf b ≤ w := by
  rcases lookup_eq_some.mp found with ⟨_, found⟩
  rcases valid.registers _ handler.range
    (List.mem_map_of_mem (List.mem_of_find?_eq_some found)) with ⟨_, _, ⟨b, isObject, start⟩, _⟩
  have inside := List.find?_some found
  simp only [RootHandler.contains, Bool.and_eq_true, decide_eq_true_eq] at inside
  exact ⟨b, isObject, start, start ▸ inside.1⟩

theorem wordTarget_iff (valid : RootsValid pf t h c bigs) : wordTarget t h w = some b ↔
    ∃ handler, t.lookup w = some handler ∧ handler.plainPointer = objectOf b ∧
      w < b + 8 + blockSize (h.mem b) := by
  rw [wordTarget, Option.bind_eq_some_iff]
  constructor
  · rintro ⟨handler, found, eq⟩
    rcases valid.handler_object found with ⟨d, _, pointer, _⟩
    rw [pointer, objectOf_eq, Nat.add_sub_cancel] at eq
    dsimp only at eq
    split at eq
    · rename_i inside
      obtain rfl := Option.some.inj eq
      exact ⟨handler, found, pointer, inside⟩
    · cases eq
  · rintro ⟨handler, found, pointer, inside⟩
    refine ⟨handler, found, ?_⟩
    rw [pointer, objectOf_eq, Nat.add_sub_cancel]
    exact if_pos inside

/-- The target of a word on a stack is pinned by the word. -/
theorem wordTarget_pins (valid : RootsValid pf t h c bigs) (mem : w ∈ wordsOf threads)
    (target : wordTarget t h w = some b) :
    ObjectBlock h b ∧ InHeap h bigs w ∧ StackPins h bigs t (wordsOf threads) b := by
  rcases valid.wordTarget_iff.mp target with ⟨handler, found, pointer, upper⟩
  rcases valid.handler_object found with ⟨d, isObject, start, lower⟩
  obtain rfl : b = d := objectOf_inj (pointer.symm.trans start)
  have inHeap := valid.inHeap_of_inside isObject.1 lower upper
  exact ⟨isObject, inHeap, w, mem, inHeap, handler, found, pointer⟩

/-- The words of the stacks find the same objects after a collection that keeps the handlers they
find, if the objects of these handlers stay where they are. -/
theorem wordTarget_swept {t' : DerefRoots} {bigs' : List Nat} (valid : RootsValid pf t h c bigs)
    (valid' : RootsValid pf t' h' c' bigs')
    (kept : t' = (t.markHandlers (heapWords h bigs (wordsOf threads))).sweep)
    (stays : ∀ i, ∀ handler ∈ t'.roots i, ∃ b, handler.plainPointer = objectOf b ∧
      ObjectBlock h b ∧ blockSize (h'.mem b) = blockSize (h.mem b)) (mem : w ∈ wordsOf threads) :
    wordTarget t' h' w = wordTarget t h w := by
  have size : ∀ {handler b}, t'.lookup w = some handler → handler.plainPointer = objectOf b →
      ObjectBlock h b ∧ blockSize (h'.mem b) = blockSize (h.mem b) := by
    intro handler b found pointer
    have inChain := List.mem_of_find?_eq_some (lookup_eq_some.mp found).2
    rcases stays _ handler inChain with ⟨d, pointer', isObject, same⟩
    obtain rfl : b = d := objectOf_inj (pointer.symm.trans pointer')
    exact ⟨isObject, same⟩
  have looked : InHeap h bigs w → w ∈ heapWords h bigs (wordsOf threads) := fun inHeap =>
    List.mem_filter.mpr ⟨mem, by simpa using inHeap⟩
  refine Option.ext fun b => ⟨fun after => ?_, fun before => ?_⟩
  · -- what the word finds afterwards it found before
    rcases valid'.wordTarget_iff.mp after with ⟨handler', found', pointer, inside⟩
    rcases valid'.handler_object found' with ⟨d, _, start, lower⟩
    obtain rfl : b = d := objectOf_inj (pointer.symm.trans start)
    rcases size found' pointer with ⟨isObject, same⟩
    rw [same] at inside
    cases found : t.lookup w with
    | none =>
        rw [kept, lookup_none_kept found] at found'
        cases found'
    | some handler =>
        have inHeap := valid.inHeap_of_inside isObject.1 lower inside
        rcases lookup_kept found (looked inHeap) with ⟨handler'', found'', range⟩
        rw [← kept, found'] at found''
        obtain rfl := Option.some.inj found''
        exact valid.wordTarget_iff.mpr
          ⟨handler, found, (congrArg Prod.fst range).symm.trans pointer, inside⟩
  · rcases valid.wordTarget_pins mem before with ⟨_, inHeap, _⟩
    rcases valid.wordTarget_iff.mp before with ⟨handler, found, pointer, inside⟩
    rcases lookup_kept found (looked inHeap) with ⟨handler', found', range⟩
    rw [← kept] at found'
    have pointer' := (congrArg Prod.fst range).trans pointer
    refine valid'.wordTarget_iff.mpr ⟨handler', found', pointer', ?_⟩
    rw [(size found' pointer').2]
    exact inside

end RootsValid

namespace CollectedKept

variable (live : CollectedKept pf threads fakeRoots (t, h) c bigs t₁ h₁ moved r c₂ s' c' kept)

include live

/-- A pinned block stays where it is, with its size. -/
theorem pinned_held (isPinned : StackPins h bigs t (wordsOf threads) b) :
    relocate moved b = b ∧ ObjectBlock s'.2 b ∧ blockSize (s'.2.mem b) = blockSize (h.mem b) := by
  have isKept : kept b := live.of_stackPin isPinned
  have used := (live.object b isKept).1
  have place : relocate moved b = b := by
    apply live.relocate_stationary
    rcases live.valid.inUse_iff.mp used with ⟨q, qMem, bMem⟩ | ⟨big, bigMem, rfl⟩
    · exact Or.inr ⟨b, live.valid.samePage_iff.mpr ⟨q, qMem, bMem, bMem⟩, isPinned⟩
    · exact Or.inl ⟨big, live.valid.largeBlock_iff.mpr bigMem, rfl⟩
  have held := live.held isKept
  rw [place] at held
  exact ⟨place, held.object, held.size⟩

/-- A raw pointer keeps its object. -/
theorem wordTarget_kept (mem : w ∈ wordsOf threads) :
    wordTarget s'.1 s'.2 w = (wordTarget t h w).map (relocate moved) := by
  rw [live.valid.wordTarget_swept (live.rootsValid live.valid live.ready) live.handlers ?_ mem]
  · cases target : wordTarget t h w with
    | none => rfl
    | some b =>
        have isPinned := (live.valid.wordTarget_pins mem target).2.2
        rw [Option.map_some, (live.pinned_held isPinned).1]
  · intro i handler inChain
    rcases live.handler_stays live.valid live.ready inChain with ⟨b, pointer, stays⟩
    exact ⟨b, pointer, stays.before, stays.size⟩

/-- What the program comes to is kept. -/
theorem kept_of_accessible (accessible : (heapStore threads fakeRoots t h).Accessible b) :
    kept b := by
  induction accessible with
  | @root name b led =>
      cases name with
      | cell a =>
          unfold heapStore at led
          dsimp only at led
          split at led
          · rename_i mem
            rcases List.mem_append.mp mem with isRoot | isFake
            · exact live.of_stackRoot isRoot
                ((live.plain.stackRoot a isRoot).word.pointee_iff.mp led)
            · rcases List.mem_map.mp isFake with ⟨n, nMem, rfl⟩
              exact live.of_fakeRoot nMem ((live.plain.fakeRoot n nMem).word.pointee_iff.mp led)
          · cases led
      | word w =>
          unfold heapStore at led
          dsimp only at led
          split at led
          · rename_i mem
            exact live.of_stackPin (live.valid.wordTarget_pins mem led).2.2
          · cases led
  | @slot b d o _ led isKept =>
      unfold heapStore at led
      dsimp only at led
      split at led
      · rename_i slot
        have word := live.plain.slot b (live.object b isKept) _ slot
        exact live.of_slot isKept slot (word.pointee_iff.mp led)
      · cases led

theorem slot_above (isKept : kept b) (slot : x ∈ slotsOf h.mem b) :
    b ≤ x := by
  have := (live.plain.object b (live.object b isKept)).slot_bounds slot
  omega

theorem cell_renamed (unmoved : Unmoved kept threads fakeRoots t h bigs)
    (mem : a ∈ cellsOf threads fakeRoots) :
    RenamedWord (relocate moved) (h.mem a) (s'.2.mem a) := by
  rcases List.mem_append.mp mem with isRoot | isFake
  · exact live.stackRoot_renamed isRoot
  · rcases List.mem_map.mp isFake with ⟨n, nMem, rfl⟩
    exact live.fakeRoot_renamed unmoved nMem

/-- A unmoved collection gives the objects of the store new names. -/
theorem renames (unmoved : Unmoved kept threads fakeRoots t h bigs) :
    (heapStore threads fakeRoots t h).Renames (relocate moved)
      (heapStore threads fakeRoots s'.1 s'.2) where
  injective b d bAccessible dAccessible same :=
    live.relocate_inj (live.kept_of_accessible bAccessible) (live.kept_of_accessible dAccessible)
      same
  content b accessible := by
    have isKept := live.kept_of_accessible accessible
    exact (live.held isKept).content_eq fun x => live.slot_above isKept
  slot b accessible o := by
    have isKept := live.kept_of_accessible accessible
    have isSlot : relocate moved b + o ∈ slotsOf s'.2.mem (relocate moved b) ↔
        b + o ∈ slotsOf h.mem b := by
      rw [(live.held isKept).shape.slotsOf_eq, List.mem_map]
      constructor
      · rintro ⟨x, slot, eq⟩
        have := live.slot_above isKept slot
        rwa [show b + o = x by omega]
      · intro slot
        exact ⟨_, slot, by omega⟩
    unfold heapStore
    dsimp only
    by_cases slot : b + o ∈ slotsOf h.mem b
    · have renamed := live.slot_renamed unmoved isKept slot
      rw [Nat.add_sub_cancel_left, Nat.add_comm o] at renamed
      rw [if_pos (isSlot.mpr slot), if_pos slot, renamed.pointee_eq]
    · rw [if_neg (fun slot' => slot (isSlot.mp slot')), if_neg slot]
      rfl
  root name := by
    cases name with
    | cell a =>
        unfold heapStore
        dsimp only
        split
        · rename_i mem
          exact (live.cell_renamed unmoved mem).pointee_eq
        · rfl
    | word w =>
        unfold heapStore
        dsimp only
        split
        · rename_i mem
          exact live.wordTarget_kept mem
        · rfl

end CollectedKept

/-- A harmless full collection gives the objects new places and does nothing else that the program
could see: contents, slots and roots are the same up to these places, every registered `gc_ptr`
keeps its flag, and the program is left with plain objects again. -/
theorem markAndSweep_renames (valid : RootsValid pf t h c bigs)
    (plain : PlainProcess pf threads fakeRoots h) (harmless : Harmless threads fakeRoots t h bigs)
    (eq : markAndSweep pf fuel threads fakeRoots (t, h) = .ok s') :
    (∃ place, (heapStore threads fakeRoots t h).Renames place
      (heapStore threads fakeRoots s'.1 s'.2)) ∧
      (∀ a ∈ cellsOf threads fakeRoots, isStackPointer (s'.2.mem a) = isStackPointer (h.mem a)) ∧
        PlainProcess pf threads fakeRoots s'.2 ∧ ∃ c' bigs', RootsValid pf s'.1 s'.2 c' bigs' := by
  rcases harmless.fits with ⟨fuel₀, fits⟩
  rcases valid.collectedLive plain fits eq with
    ⟨t₁, h₁, moved, r, c₂, c', live⟩
  exact ⟨⟨_, live.renames harmless.toUnmoved⟩,
    fun a mem => (live.cell_renamed harmless.toUnmoved mem).isStackPointer_eq,
    live.plainProcess harmless.toUnmoved, _, _, live.rootsValid valid live.ready⟩

theorem cleanDerefRoots_extends {fuel' : Nat} (more : fuel ≤ fuel') (threads : List ThreadHandler)
    (h : Heap) (t : DerefRoots) :
    Extends .outOfFuel (cleanDerefRoots fuel threads h t) (cleanDerefRoots fuel' threads h t) := by
  induction threads generalizing t with
  | nil => exact Extends.refl _
  | cons thread threads ih => exact (markStack_extends more false _ _).bind fun s => ih s.1

namespace RootsValid

variable {t' : DerefRoots}

/-- The table that a partial collection leaves, with whatever fuel it returned. -/
theorem cleaned (valid : RootsValid pf t h c bigs)
    (eq : cleanDerefRoots fuel threads h t = .ok t') :
    t' = (t.markHandlers (heapWords h bigs (wordsOf threads))).sweep := by
  have more : fuel ≤ fuel + bigs.length + 1 := by omega
  have eq' := (cleanDerefRoots_extends more threads h t).approximates t' eq
  rw [cleanDerefRoots_table valid.big.chain (by omega)] at eq'
  exact (Except.ok.inj eq').symm

/-- The program cannot see a partial collection. -/
theorem heapStore_cleaned (valid : RootsValid pf t h c bigs)
    (eq : cleanDerefRoots fuel threads h t = .ok t') :
    heapStore threads fakeRoots t' h = heapStore threads fakeRoots t h := by
  have valid' := valid.clean eq
  have stays : ∀ i, ∀ handler ∈ t'.roots i, ∃ b, handler.plainPointer = objectOf b ∧
      ObjectBlock h b ∧ blockSize (h.mem b) = blockSize (h.mem b) := by
    intro i handler mem
    rcases valid'.registers i handler.range (List.mem_map_of_mem mem) with
      ⟨_, _, ⟨b, isObject, start⟩, _⟩
    exact ⟨b, start, isObject, rfl⟩
  unfold heapStore
  congr 1
  funext name
  cases name with
  | cell a => rfl
  | word w =>
      dsimp only
      split
      · rename_i mem
        exact valid.wordTarget_swept valid' (valid.cleaned eq) stays mem
      · rfl

end RootsValid

/-- A partial collection leaves the table that a full collection of the same state leaves, and the
program cannot see it. -/
theorem cleanDerefRoots_agrees {t' : DerefRoots} {fuel₀ fuel' : Nat}
    (valid : RootsValid pf t h c bigs) (plain : PlainProcess pf threads fakeRoots h)
    (fits : MarksFit fuel₀ threads fakeRoots (t, h))
    (full : markAndSweep pf fuel threads fakeRoots (t, h) = .ok s')
    (cleans : cleanDerefRoots fuel' threads h t = .ok t') :
    t' = s'.1 ∧ heapStore threads fakeRoots t' h = heapStore threads fakeRoots t h := by
  rcases valid.collectedLive plain fits full with ⟨_, _, _, _, _, _, live⟩
  exact ⟨(valid.cleaned cleans).trans live.handlers.symm, valid.heapStore_cleaned cleans⟩

/-- After a collection from `h` to `h'` the objects are the live ones, at the places that `place`
gives them.  A page without a pinned block is recycled, on the others the blocks without a live
object are dead, and large blocks without one are returned to the system. -/
structure Reclaims (pf : Platform) (threads : List ThreadHandler) (fakeRoots : FakeRoots)
    (t : DerefRoots) (h : Heap) (bigs : List Nat) (h' : Heap) (place : Nat → Nat) : Prop where
  objects : ∀ d, ObjectBlock h' d ↔ ∃ b, Live threads fakeRoots t h bigs b ∧ place b = d
  injective : ∀ b d, Live threads fakeRoots t h bigs b → Live threads fakeRoots t h bigs d →
    place b = place d → b = d
  held : ∀ b, Live threads fakeRoots t h bigs b → HeldBy h h' b (place b)
  recycled : ∀ b, SmallBlock h b →
    (∀ d, SamePage h b d → ¬StackPins h bigs t (wordsOf threads) d) → OnRecycledPage pf h' b
  dead : ∀ b d, SamePage h b d → StackPins h bigs t (wordsOf threads) d →
    ¬Live threads fakeRoots t h bigs b → InUse h' b ∧ blockIsDead (h'.mem b) = true
  large : ∀ big, LargeBlock h' big ↔
    LargeBlock h big ∧ Live threads fakeRoots t h bigs (bigHeader big)

namespace CollectedLive

variable (live : CollectedLive pf threads fakeRoots (t, h) c bigs t₁ h₁ moved r c₂ s' c')

include live

/-- The pages with a pinned block. -/
theorem hasPinned_iff (qMem : q ∈ c.alive) :
    HasPinned h₁.mem c q ↔ ∃ d ∈ c.blocks q, StackPins h bigs t (wordsOf threads) d := by
  constructor
  · rintro ⟨d, dMem, pinned⟩
    rcases (live.marking.pinned d).mp pinned with old | isPinned
    · rw [(live.valid.unflagged d (live.valid.inUse_iff.mpr (Or.inl ⟨q, qMem, dMem⟩))).1] at old
      cases old
    · exact ⟨d, dMem, isPinned⟩
  · rintro ⟨d, dMem, isPinned⟩
    exact ⟨d, dMem, (live.marking.pinned d).mpr (Or.inr isPinned)⟩

/-- On a page with a pinned block the blocks that do not survive are dead. -/
theorem dead_of_pinned (qMem : q ∈ c.alive) (pinned : HasPinned h₁.mem c q) (bMem : b ∈ c.blocks q)
    (notLive : ¬Live threads fakeRoots t h bigs b) :
    InUse s'.2 b ∧ blockIsDead (s'.2.mem b) = true := by
  rcases live.mid.evacuated with ⟨h₂, swept, ev⟩
  have header := (Halfway.header_eq swept live.mid.start qMem bMem).1
  have pinned₂ : HasPinned h₂.mem c.toSweep q := by
    rcases pinned with ⟨e, eMem, isPinned⟩
    refine ⟨e, eMem, ?_⟩
    rw [(Halfway.header_eq swept live.mid.start qMem eMem).1]
    exact isPinned
  rcases ev.stays q qMem pinned₂ with ⟨qAlive, stays⟩
  rcases stays b bMem with ⟨bStays, retained, _⟩
  have used : InUse s'.2 b := by
    refine (live.allocatorState live.valid).inUse_iff.mpr (Or.inl ?_)
    rw [live.fin.census]
    exact ⟨q, qAlive, bStays⟩
  refine ⟨used, ?_⟩
  rw [live.mid.header_final live.fin qAlive bStays, retained]
  by_contra notDead
  rw [Bool.not_eq_true] at notDead
  have alive := (retainedHeader_flags _).2.2.mp notDead
  rw [show h₂.mem b = h₁.mem b from header] at alive
  exact notLive ((live.survives_iff qMem bMem).mp (by simp [survives, alive.1, alive.2]))

theorem reclaims : Reclaims pf threads fakeRoots t h bigs s'.2 (relocate moved) where
  objects d := by
    constructor
    · intro isObject
      rcases live.origin isObject with ⟨b, isLive, eq⟩
      exact ⟨b, isLive, eq.symm⟩
    · rintro ⟨b, isLive, rfl⟩
      exact (live.held isLive).object
  injective _ _ := live.relocate_inj
  held _ := live.held
  recycled b isSmall unpinned := by
    rcases live.valid.smallBlock_iff.mp isSmall with ⟨q, qMem, bMem⟩
    have qTiled := Classifying.tiled_of_alive qMem
    have := (live.valid.arena.pageOk q qTiled).block_bounds bMem
    refine ⟨c'.free, q, live.fin.arena.freeChain, ?_, by omega, by omega⟩
    refine live.mid.released live.fin qMem fun pinned => ?_
    rcases (live.hasPinned_iff qMem).mp pinned with ⟨d, dMem, isPinned⟩
    exact unpinned d (live.valid.samePage_iff.mpr ⟨q, qMem, bMem, dMem⟩) isPinned
  dead b d samePage isPinned notLive := by
    rcases live.valid.samePage_iff.mp samePage with ⟨q, qMem, bMem, dMem⟩
    exact live.dead_of_pinned qMem ((live.hasPinned_iff qMem).mpr ⟨d, dMem, isPinned⟩) bMem notLive
  large big := by
    rw [(live.allocatorState live.valid).largeBlock_iff, List.mem_filter,
      live.valid.largeBlock_iff]
    exact and_congr_right live.bigSurvives_iff

end CollectedLive

/-- A full collection without an overflow of the mark stack keeps the live objects and reclaims all
others. -/
theorem markAndSweep_reclaims (valid : RootsValid pf t h c bigs)
    (plain : PlainProcess pf threads fakeRoots h) {fuel₀ : Nat}
    (fits : MarksFit fuel₀ threads fakeRoots (t, h))
    (eq : markAndSweep pf fuel threads fakeRoots (t, h) = .ok s') :
    ∃ place, Reclaims pf threads fakeRoots t h bigs s'.2 place := by
  rcases valid.collectedLive plain fits eq with ⟨_, _, moved, _, _, _, live⟩
  exact ⟨relocate moved, live.reclaims⟩

theorem oneRootRun_fits : Yields (fun _ => False)
    (fun r : Heap × DerefRoots × Heap =>
      Yields (fun _ => False) (fun _ => True)
          ((fitting 40).markRoots 40 oneThread .null (oneRoot, r.1)) ∧
        Yields (fun _ => False) (fun _ => True) (cleanDerefRoots 40 oneThread r.1 oneRoot))
    oneRootRun := by
  decide +kernel

/-- The process with one object is ready for a harmless collection, which returns. -/
theorem oneRoot_harmless : ∃ h s' t' c bigs, RootsValid upwards oneRoot h c bigs ∧
    PlainProcess upwards oneThread .null h ∧ Harmless oneThread .null oneRoot h bigs ∧
      markAndSweep upwards 40 oneThread .null (oneRoot, h) = .ok s' ∧
        cleanDerefRoots 40 oneThread h oneRoot = .ok t' := by
  rcases oneRootRun_collects.total with ⟨⟨h, s'⟩, eq, one, returns, fit, _⟩
  rcases oneRootRun_fits.of_ok eq with ⟨fits, cleans⟩
  dsimp only at one returns fit fits cleans
  rcases bind_eq_ok eq with ⟨⟨ps, h₁⟩, allocated, eq⟩
  rcases bind_eq_ok eq with ⟨h₂, written, eq⟩
  rcases bind_eq_ok eq with ⟨s₂, collected, eq⟩
  cases eq
  rcases returns.total with ⟨s₁, returned, _⟩
  have plain := one.plainCollection returned fit
  have start : Reachable InitialRoots (RootStep upwards (PlainCollection upwards))
      ({}, shellsHeap) := shellsHeap_runs
  have constructed := writeAll_runs written (mallocAll_rootRuns allocated (by decide) start)
  have registered : registerDereferencedRoot (some 524288) .ok 262192 16 {} = .ok oneRoot := rfl
  have run := constructed.next
    (.register (Or.inr ⟨262160, one.objectBlock, by decide⟩) (Or.inl rfl) registered)
  have invariant : ∃ c bigs, RootsValid upwards oneRoot h c bigs :=
    run.invariant (fun _ initial => ⟨{}, [], initial.rootsValid⟩)
      fun _ _ holds stepped => stepped.rootsValid holds
  rcases invariant with ⟨c, bigs, valid⟩
  rcases fits.total with ⟨s₃, fits, _⟩
  rcases cleans.total with ⟨t', cleans, _⟩
  refine ⟨h, s', t', c, bigs, valid, { plain with }, ?_, collected, cleans⟩
  have noBigs : ∀ big, ¬LargeBlock h big := by
    rintro big ⟨list, chain, mem⟩
    rw [chain.head_eq_zero_iff.mp one.2.1] at mem
    cases mem
  exact ⟨⟨fun big isLarge => absurd isLarge (noBigs big), by simp [FakeRoots.nodes]⟩,
    ⟨40, s₃, fits⟩⟩

theorem markAndSweep_renames_oneObject : ∃ h s', markAndSweep upwards 40 oneThread .null
      (oneRoot, h) = .ok s' ∧
    (∃ place, (heapStore oneThread .null oneRoot h).Renames place
      (heapStore oneThread .null s'.1 s'.2)) ∧
      (∀ a ∈ cellsOf oneThread .null, isStackPointer (s'.2.mem a) = isStackPointer (h.mem a)) ∧
        PlainProcess upwards oneThread .null s'.2 ∧
          ∃ c' bigs', RootsValid upwards s'.1 s'.2 c' bigs' := by
  rcases oneRoot_harmless with ⟨h, s', _, c, bigs, valid, plain, harmless, eq, _⟩
  exact ⟨h, s', eq, markAndSweep_renames valid plain harmless eq⟩

theorem markAndSweep_reclaims_oneObject : ∃ h s' bigs place, markAndSweep upwards 40 oneThread .null
      (oneRoot, h) = .ok s' ∧ Reclaims upwards oneThread .null oneRoot h bigs s'.2 place := by
  rcases oneRoot_harmless with ⟨h, s', _, c, bigs, valid, plain, harmless, eq, _⟩
  rcases harmless.fits with ⟨fuel₀, fits⟩
  rcases markAndSweep_reclaims valid plain fits eq with ⟨place, reclaims⟩
  exact ⟨h, s', bigs, place, eq, reclaims⟩

theorem cleanDerefRoots_agrees_oneObject : ∃ h s' t', markAndSweep upwards 40 oneThread .null
      (oneRoot, h) = .ok s' ∧ cleanDerefRoots 40 oneThread h oneRoot = .ok t' ∧ t' = s'.1 ∧
        heapStore oneThread .null t' h = heapStore oneThread .null oneRoot h := by
  rcases oneRoot_harmless with ⟨h, s', t', c, bigs, valid, plain, harmless, full, cleans⟩
  rcases harmless.fits with ⟨fuel₀, fits⟩
  exact ⟨h, s', t', full, cleans,
    cleanDerefRoots_agrees valid plain fits full cleans⟩

end PreciseGc

import PreciseGc.Allocator.HeaderFlags
import PreciseGc.Allocator.Runs
import PreciseGc.Roots.Pinning

/-!
# Runs with dereferenced roots

The table of dereferenced roots and the heap change together.  Clients allocate,
write and register objects, a partial collection cleans the table, and a full
collection marks, sweeps and cleans the table.  Between collections no flag is
set, and every handler stands for an object in use.
-/

namespace PreciseGc

open Foundation Memory

variable {pf : Platform} {t t' : DerefRoots} {h h' : Heap} {c c' : Census}
  {bigs bigs' : List Nat} {b d p s x big : Nat} {expand : Bool}

/-- The block holds an object: it is in use and not flagged `DEAD`. -/
def ObjectBlock (h : Heap) (b : Nat) : Prop := InUse h b ∧ blockIsDead (h.mem b) = false

/-- The address is the start of an object. -/
def StartsObject (h : Heap) (root : Nat) : Prop := ∃ b, ObjectBlock h b ∧ root = objectOf b

/-- The steps of a run, where `allowed` restricts the states in which a full collection starts. -/
inductive RootStep (pf : Platform)
    (allowed : List ThreadHandler → FakeRoots → DerefRoots × Heap → Prop) :
    DerefRoots × Heap → DerefRoots × Heap → Prop where
  | gcmalloc {t : DerefRoots} {s : Nat} {expand : Bool} {p : Nat} {h h' : Heap} : s < 2 ^ 63 →
      gcmallocLocked pf s expand h = .ok (p, h') → RootStep pf allowed (t, h) (t, h')
  | write {t : DerefRoots} {h : Heap} {x value : Nat} : Writable pf h x →
      RootStep pf allowed (t, h) (t, { h with mem := h.mem.write x value })
  | register {t t' : DerefRoots} {h : Heap} {root size : Nat} {space : Option Nat}
      {gcFalse : DerefRoots → Except Fault DerefRoots} : root = 0 ∨ StartsObject h root →
      (gcFalse = .ok ∨ ∃ fuel threads, gcFalse = cleanDerefRoots fuel threads h) →
      registerDereferencedRoot space gcFalse root size t = .ok t' →
        RootStep pf allowed (t, h) (t', h)
  | partialCollection {t t' : DerefRoots} {h : Heap} {fuel : Nat} {threads : List ThreadHandler} :
      cleanDerefRoots fuel threads h t = .ok t' → RootStep pf allowed (t, h) (t', h)
  | fullCollection {state state' : DerefRoots × Heap} {fuel : Nat} {threads : List ThreadHandler}
      {fakeRoots : FakeRoots} : allowed threads fakeRoots state →
      markAndSweep pf fuel threads fakeRoots state = .ok state' → RootStep pf allowed state state'

/-- A process that has neither allocated nor registered anything. -/
def InitialRoots (state : DerefRoots × Heap) : Prop := state.1 = {} ∧ Initial state.2

/-- The header of a big block: it is aligned, not dead, and records a size no page has room for. -/
structure LargeHeader (pf : Platform) (m : Memory) (big : Nat) : Prop where
  aligned : big % 8 = 0
  notDead : blockIsDead (m (bigHeader big)) = false
  size : pf.bigBlockThreshold < blockSize (m (bigHeader big))
  bounded : big + 16 + blockSize (m (bigHeader big)) ≤ wordSpace

/-- No block in use is flagged, and the table holds starts of objects only, unmarked. -/
structure RootsValid (pf : Platform) (t : DerefRoots) (h : Heap) (c : Census) (bigs : List Nat) :
    Prop extends AllocatorState pf h c bigs where
  unflagged : Unflagged h
  large : ∀ big ∈ bigs, LargeHeader pf h.mem big
  registers : Registers (fun root _ => StartsObject h root) t
  unmarked : Unmarked t

theorem LargeHeader.congr {m m' : Memory} (header : LargeHeader pf m big)
    (same : m' (bigHeader big) = m (bigHeader big)) : LargeHeader pf m' big := by
  refine ⟨header.aligned, ?_, ?_, ?_⟩
  · rw [same]
    exact header.notDead
  · rw [same]
    exact header.size
  · rw [same]
    exact header.bounded

theorem Registers.mono {allowed allowed' : Nat → Nat → Prop} (registers : Registers allowed t)
    (weaker : ∀ root size, allowed root size → allowed' root size) : Registers allowed' t := by
  intro i range mem
  rcases registers i range mem with ⟨chain, size, isAllowed, stop⟩
  exact ⟨chain, size, weaker _ _ isAllowed, stop⟩

/-- Blocks in use start at multiples of eight. -/
theorem AllocatorOk.aligned_used (ok : AllocatorOk pf h c bigs)
    (large : ∀ big ∈ bigs, LargeHeader pf h.mem big) (used : c.Used bigs b) : b % 8 = 0 := by
  rcases used with ⟨q, qMem, bMem⟩ | ⟨big, bigMem, rfl⟩
  · have qTiled := Classifying.tiled_of_alive qMem
    exact ((ok.arena.pageOk q qTiled).aligned_blocks
      (mod_eight_of_page (ok.arena.aligned q (Arena.tiled_pages qTiled)))).2 b bMem
  · have := (large big bigMem).aligned
    simp only [bigHeader]
    omega

/-- Big blocks that an allocation adds are given a header of their size. -/
theorem mallocInternal_large (state : AllocatorState pf h c bigs) (hasPage : h.firstPage ≠ 0)
    (aligned : s % 8 = 0) (positive : 8 ≤ s) (bounded : s + sizeofBigBlock < wordSpace) :
    Yields (· = Fault.mapFailed)
      (fun result => ∀ big, LargeBlock result.2 big →
        LargeBlock h big ∨ LargeHeader pf result.2.mem big)
      (mallocInternal pf s expand h) := by
  rcases Nat.lt_or_ge pf.bigBlockThreshold s with isBig | isSmall
  · apply ((mallocInternal_big state aligned bounded isBig expand).permit
      fun _ never => never.elim).mono
    rintro result (⟨-, grown⟩ | ⟨start, fresh, -, -, -, grown, served⟩) big isLarge
    · rw [grown.state.largeBlock_iff] at isLarge
      exact Or.inl (state.largeBlock_iff.mpr isLarge)
    · rw [grown.state.largeBlock_iff] at isLarge
      rcases List.mem_cons.mp isLarge with rfl | old
      · right
        have header := served.header
        have startAligned := served.aligned
        simp only [bigHeader] at startAligned
        have fits := fresh.inside
        have rounded := le_roundToPages pf (s + sizeofBigBlock)
        simp only [sizeofBigBlock] at fits rounded
        refine ⟨by omega, ?_, ?_, ?_⟩
        · rw [header]
          exact (flags_of_aligned aligned).2.2
        · rw [header, blockSize_of_aligned aligned]
          exact isBig
        · rw [header, blockSize_of_aligned aligned]
          omega
      · exact Or.inl (state.largeBlock_iff.mpr old)
  · apply (mallocInternal_small state hasPage aligned positive isSmall expand).mono
    rintro result ⟨c', grown, -, -⟩ big isLarge
    rw [grown.state.largeBlock_iff] at isLarge
    exact Or.inl (state.largeBlock_iff.mpr isLarge)

theorem gcmallocLocked_large (state : AllocatorState pf h c bigs) (bounded : s < 2 ^ 63) :
    Yields (· = Fault.mapFailed)
      (fun result => ∀ big, LargeBlock result.2 big →
        LargeBlock h big ∨ LargeHeader pf result.2.mem big)
      (gcmallocLocked pf s expand h) := by
  have size := align_spec bounded
  unfold gcmallocLocked
  apply (initFirstPage_yields state).bind
  rintro ⟨hasPage, h₁⟩ ⟨⟨c₁, grown, -⟩, first⟩
  dsimp only at grown first
  have noNew : ∀ big, LargeBlock h₁ big → LargeBlock h big := by
    intro big isLarge
    exact state.largeBlock_iff.mpr (grown.state.largeBlock_iff.mp isLarge)
  cases hasPage with
  | false => exact fun big isLarge => Or.inl (noNew big isLarge)
  | true =>
      apply (mallocInternal_large grown.state (first rfl) size.1 (by omega) size.2.2).mono
      exact fun result only big isLarge => (only big isLarge).imp (noNew big) id

namespace RootsValid

/-- An allocation keeps the blocks in use, and the new block has no flags. -/
theorem gcmalloc (valid : RootsValid pf t h c bigs) (bounded : s < 2 ^ 63)
    (eq : gcmallocLocked pf s expand h = .ok (p, h')) :
    ∃ c' bigs', RootsValid pf t h' c' bigs' := by
  rcases (gcmallocLocked_yields valid.toAllocatorState bounded _).of_ok eq with
    ⟨⟨c', bigs', grown, _⟩, sized⟩
  have newLarge := (gcmallocLocked_large valid.toAllocatorState bounded).of_ok eq
  dsimp only at sized newLarge
  have kept : ∀ d, InUse h d → InUse h' d ∧ h'.mem d = h.mem d := by
    intro d used
    rcases grown.kept d (valid.inUse_iff.mp used) with ⟨used', same⟩
    exact ⟨grown.state.inUse_iff.mpr used', same d (Nat.le_refl _) (by omega)⟩
  refine ⟨c', bigs',
    { grown.state with
      unflagged := ?_, large := ?_, registers := ?_, unmarked := valid.unmarked }⟩
  · intro d used
    rcases sized d used with old | new
    · rw [(kept d old).2]
      exact valid.unflagged d old
    · rw [new]
      have flags := flags_of_aligned (align_spec bounded).1
      exact ⟨flags.1, flags.2.1⟩
  · intro big mem
    rcases newLarge big (grown.state.largeBlock_iff.mpr mem) with old | new
    · have same := (kept (bigHeader big) (Or.inr ⟨big, old, rfl⟩)).2
      exact (valid.large big (valid.largeBlock_iff.mp old)).congr same
    · exact new
  · apply valid.registers.mono
    rintro root _ ⟨b, ⟨used, notDead⟩, rfl⟩
    rcases kept b used with ⟨used', same⟩
    exact ⟨b, ⟨used', same ▸ notDead⟩, rfl⟩

/-- Clients do not write to headers. -/
theorem header_not_writable (valid : RootsValid pf t h c bigs) (writable : Writable pf h x)
    (used : InUse h d) : x ≠ d := by
  have dUsed := valid.inUse_iff.mp used
  rintro rfl
  rcases writable with ⟨b, bUsed, lower, upper⟩ | foreign
  · simp only [blockData, sizeofBlock] at lower upper
    by_cases same : b = x
    · omega
    · have := valid.used_disjoint (valid.inUse_iff.mp bUsed) dUsed same
      omega
  · have := valid.used_offHeap dUsed (valid.foreign_iff.mp foreign)
    omega

theorem write (valid : RootsValid pf t h c bigs) (writable : Writable pf h x) (value : Nat) :
    RootsValid pf t { h with mem := h.mem.write x value } c bigs := by
  have state : AllocatorState pf { h with mem := h.mem.write x value } c bigs := by
    rcases writable with ⟨b, used, lower, upper⟩ | foreign
    · exact valid.write_data (valid.inUse_iff.mp used) lower upper _
    · exact valid.write_off (valid.foreign_iff.mp foreign) _
  have sameUse : ∀ d, InUse { h with mem := h.mem.write x value } d ↔ InUse h d := by
    intro d
    rw [state.inUse_iff, valid.inUse_iff]
  have header : ∀ d, InUse h d → h.mem.write x value d = h.mem d := fun d used =>
    write_of_ne (Ne.symm (valid.header_not_writable writable used))
  refine { state with unflagged := ?_, large := ?_, registers := ?_, unmarked := valid.unmarked }
  · intro d used
    have used := (sameUse d).mp used
    dsimp only
    rw [header d used]
    exact valid.unflagged d used
  · intro big mem
    apply (valid.large big mem).congr
    exact header _ (valid.inUse_iff.mpr (Or.inr ⟨big, mem, rfl⟩))
  · apply valid.registers.mono
    rintro root _ ⟨b, ⟨used, notDead⟩, rfl⟩
    refine ⟨b, ⟨(sameUse b).mpr used, ?_⟩, rfl⟩
    dsimp only
    rw [header b used]
    exact notDead

theorem start_even (valid : RootsValid pf t h c bigs) {root : Nat} (starts : StartsObject h root) :
    root % 2 = 0 := by
  rcases starts with ⟨b, ⟨used, _⟩, rfl⟩
  have := valid.aligned_used valid.large (valid.inUse_iff.mp used)
  rw [objectOf_eq]
  omega

theorem register (valid : RootsValid pf t h c bigs) {root size : Nat} {space : Option Nat}
    {gcFalse : DerefRoots → Except Fault DerefRoots} (isStart : root = 0 ∨ StartsObject h root)
    (gc : gcFalse = .ok ∨ ∃ fuel threads, gcFalse = cleanDerefRoots fuel threads h)
    (eq : registerDereferencedRoot space gcFalse root size t = .ok t') :
    RootsValid pf t' h c bigs := by
  have gc' : gcFalse = .ok ∨ ∃ fuel threads h, gcFalse = cleanDerefRoots fuel threads h := by
    rcases gc with declined | ⟨fuel, threads, cleans⟩
    · exact Or.inl declined
    · exact Or.inr ⟨fuel, threads, h, cleans⟩
  have even : StartsObject h root → root % 2 = 0 := valid.start_even
  have kept := (registerDereferencedRoot_registers space even isStart gc' valid.registers
    valid.unmarked).of_ok eq
  exact { valid with registers := kept.1, unmarked := kept.2 }

theorem clean (valid : RootsValid pf t h c bigs) {fuel : Nat} {threads : List ThreadHandler}
    (eq : cleanDerefRoots fuel threads h t = .ok t') : RootsValid pf t' h c bigs := by
  have kept := (cleanDerefRoots_registers valid.registers threads h).of_ok eq
  exact { valid with registers := kept.1, unmarked := kept.2 }

end RootsValid

theorem InitialRoots.rootsValid {state : DerefRoots × Heap} (initial : InitialRoots state) :
    RootsValid pf state.1 state.2 {} [] := by
  rcases state with ⟨t, h⟩
  rcases initial with ⟨rfl, initial⟩
  have start : AllocatorState pf h {} [] := initial.allocatorState
  refine { start with unflagged := ?_, large := by simp, registers := ?_, unmarked := ?_ }
  · intro b used
    have never := start.inUse_iff.mp used
    simp [Census.Used] at never
  · simp [Registers]
  · simp [Unmarked]

section

variable {threads : List ThreadHandler} {fakeRoots : FakeRoots} {fuel : Nat}

/-- A collection that finds no stack word leaves the table alone until it sweeps it. -/
theorem markThreads_noWords (noWords : ∀ thread ∈ threads, thread.stackWords = [])
    {s s₁ : DerefRoots × Heap} (eq : (collector fuel).markThreads fuel threads s = .ok s₁) :
    s₁.1 = s.1 := by
  induction threads generalizing s with
  | nil =>
      cases eq
      rfl
  | cons thread threads ih =>
      rcases bind_eq_ok eq with ⟨s₂, threadEq, rest⟩
      rw [Collector.markThread, noWords thread (by simp)] at threadEq
      rcases bind_eq_ok threadEq with ⟨s₃, stackEq, threadEq⟩
      rcases bind_eq_ok threadEq with ⟨r, _, threadEq⟩
      rcases bind_eq_ok threadEq with ⟨state, _, last⟩
      cases stackEq
      cases last
      have later : s₁.1 = (s.1, state).1 :=
        ih (fun thread mem => noWords thread (by simp [mem])) rest
      exact later

theorem markAndSweep_noWords (noWords : ∀ thread ∈ threads, thread.stackWords = [])
    {s' : DerefRoots × Heap}
    (eq : markAndSweep pf fuel threads fakeRoots (t, h) = .ok s') : s'.1 = t.sweep := by
  rcases bind_eq_ok eq with ⟨s₁, marks, eq⟩
  rcases bind_eq_ok marks with ⟨s₂, threadsEq, marks⟩
  rcases bind_eq_ok marks with ⟨state, _, last⟩
  rcases bind_eq_ok eq with ⟨h', _, swept⟩
  cases last
  cases swept
  rw [markThreads_noWords noWords threadsEq]

theorem sweep_emptyTable : ({} : DerefRoots).sweep = {} := by
  have none : ({} : DerefRoots).unmarkedHandlers = [] := by
    unfold DerefRoots.unmarkedHandlers
    exact List.flatMap_eq_nil_iff.mpr fun _ _ => rfl
  unfold DerefRoots.sweep
  rw [none]
  rfl

end

/-- A write of `value` to `x`, in the data of the block `block`. -/
structure BlockWrite where
  block : Nat
  x : Nat
  value : Nat

/-- Perform writes one after the other, checking before each that the tables list the blocks in
pages and the big blocks, and that the address lies in the data of a block of theirs. -/
def writeAll (table : PageTable) (bigs : List Nat) : List BlockWrite → Heap → Except Fault Heap
  | [], h => .ok h
  | w :: writes, h =>
      if table.Describes h ∧ Chain (bigNext h.mem) h.firstBigBlock bigs ∧
          ((∃ entry ∈ table, w.block ∈ entry.2) ∨ w.block ∈ bigs.map bigHeader) ∧
            blockData w.block ≤ w.x ∧ w.x < blockData w.block + blockSize (h.mem w.block) then
        writeAll table bigs writes { h with mem := h.mem.write w.x w.value }
      else .error .assertFailed

theorem PageTable.Describes.inUse {table : PageTable} (describes : table.Describes h)
    (chain : Chain (bigNext h.mem) h.firstBigBlock bigs)
    (listed : (∃ entry ∈ table, b ∈ entry.2) ∨ b ∈ bigs.map bigHeader) : InUse h b := by
  rcases listed with inPage | isBig
  · exact Or.inl (describes.smallBlock_iff.mpr inPage)
  · rcases List.mem_map.mp isBig with ⟨big, mem, rfl⟩
    exact Or.inr ⟨big, ⟨bigs, chain, mem⟩, rfl⟩

section

variable {allowed : List ThreadHandler → FakeRoots → DerefRoots × Heap → Prop}

theorem writeAll_runs {table : PageTable} {writes : List BlockWrite}
    (written : writeAll table bigs writes h = .ok h')
    (run : Reachable InitialRoots (RootStep pf allowed) (t, h)) :
    Reachable InitialRoots (RootStep pf allowed) (t, h') := by
  induction writes generalizing h with
  | nil =>
      cases written
      exact run
  | cons w writes ih =>
      rw [writeAll] at written
      split at written
      · rename_i valid
        rcases valid with ⟨describes, chain, listed, lower, upper⟩
        exact ih written
          (run.next (.write (Or.inl ⟨w.block, describes.inUse chain listed, lower, upper⟩)))
      · cases written

theorem mallocAll_rootRuns {sizes ps : List Nat} (allocated : mallocAll pf sizes h = .ok (ps, h'))
    (small : ∀ s ∈ sizes, s < 2 ^ 63) (run : Reachable InitialRoots (RootStep pf allowed) (t, h)) :
    Reachable InitialRoots (RootStep pf allowed) (t, h') := by
  apply mallocAll_keeps (fun h => Reachable InitialRoots (RootStep pf allowed) (t, h)) _ allocated
    small run
  exact fun _ _ _ _ bounded eq run => run.next (.gcmalloc bounded eq)

end

end PreciseGc

import PreciseGc.Foundation.Chain
import PreciseGc.Roots.RootTable

/-!
# The records and the lists they stand for

The records in memory represent the chains and the free list of a table.  Each
operation on the records changes one or two of them and is matched by an
operation on the lists, as long as no two records overlap.
-/

namespace PreciseGc

open Foundation Memory

variable {c c' : RootTable} {t t' : DerefRoots} {m m' : Memory} {head i : Nat}
  {handlers kept rest : List RootHandler} {curr : RootHandler} {touched : List Nat}

/-- Two records do not overlap. -/
def Apart (r s : Nat) : Prop := r + sizeofRootHandler ≤ s ∨ s + sizeofRootHandler ≤ r

theorem Apart.symm {r s : Nat} (apart : Apart r s) : Apart s r := Or.symm apart

/-- Records at proper addresses, no two of which overlap. -/
structure Separated (records : List Nat) : Prop where
  nonnull : ∀ r ∈ records, r ≠ 0
  apart : records.Pairwise Apart

namespace Separated

variable {records records' : List Nat}

theorem perm (separated : Separated records) (same : records'.Perm records) :
    Separated records' where
  nonnull r mem := separated.nonnull r (same.mem_iff.mp mem)
  apart := (same.pairwise_iff Apart.symm).mpr separated.apart

theorem nodup (separated : Separated records) : records.Nodup := by
  apply separated.apart.imp
  rintro r s apart rfl
  unfold Apart sizeofRootHandler at apart
  omega

theorem of_ne (separated : Separated records) {r s : Nat} (rMem : r ∈ records)
    (sMem : s ∈ records) (different : r ≠ s) : Apart r s := by
  have : Std.Symm Apart := ⟨fun _ _ => Apart.symm⟩
  exact separated.apart.forall rMem sMem different

end Separated

section Fields

variable {records : List Nat} {r s : Nat} (separated : Separated records) (sMem : s ∈ records)
  (rMem : r ∈ records)

include separated sMem rMem

/-- Fields of records at different addresses. -/
theorem Separated.field_ne {o o' : Nat} (inside : o < sizeofRootHandler)
    (inside' : o' < sizeofRootHandler) (different : r ≠ s ∨ o ≠ o') : r + o ≠ s + o' := by
  by_cases same : r = s
  · omega
  · rcases separated.of_ne rMem sMem same with below | above
    · omega
    · omega

theorem Separated.setHandlerP_kept (m : Memory) (p : Nat) :
    handlerNext (setHandlerP m s p) r = handlerNext m r ∧
      handlerEnd (setHandlerP m s p) r = handlerEnd m r ∧
        (r ≠ s → handlerP (setHandlerP m s p) r = handlerP m r) := by
  refine ⟨write_of_ne ?_, write_of_ne ?_, fun different => write_of_ne different⟩
  · exact @Separated.field_ne _ _ _ separated sMem rMem 16 0 (by decide) (by decide) (by simp)
  · exact @Separated.field_ne _ _ _ separated sMem rMem 8 0 (by decide) (by decide) (by simp)

theorem Separated.setHandlerEnd_kept (m : Memory) (stop : Nat) :
    handlerNext (setHandlerEnd m s stop) r = handlerNext m r ∧
      handlerP (setHandlerEnd m s stop) r = handlerP m r ∧
        (r ≠ s → handlerEnd (setHandlerEnd m s stop) r = handlerEnd m r) := by
  refine ⟨write_of_ne ?_, write_of_ne ?_, fun different => write_of_ne ?_⟩
  · exact separated.field_ne sMem rMem (by decide) (by decide) (by simp)
  · exact @Separated.field_ne _ _ _ separated sMem rMem 0 8 (by decide) (by decide) (by simp)
  · exact separated.field_ne sMem rMem (by decide) (by decide) (by simp [different])

theorem Separated.setHandlerNext_kept (m : Memory) (next : Nat) :
    handlerP (setHandlerNext m s next) r = handlerP m r ∧
      handlerEnd (setHandlerNext m s next) r = handlerEnd m r ∧
        (r ≠ s → handlerNext (setHandlerNext m s next) r = handlerNext m r) := by
  refine ⟨write_of_ne ?_, write_of_ne ?_, fun different => write_of_ne ?_⟩
  · exact @Separated.field_ne _ _ _ separated sMem rMem 0 16 (by decide) (by decide) (by simp)
  · exact separated.field_ne sMem rMem (by decide) (by decide) (by simp)
  · exact separated.field_ne sMem rMem (by decide) (by decide) (by simp [different])

end Fields

/-- The fields of the record. -/
def Stores (m : Memory) (handler : RootHandler) : Prop :=
  handlerP m handler.self = handler.p ∧ handlerEnd m handler.self = handler.stop

/-- The records linked from `head` on are `handlers`. -/
structure Holds (m : Memory) (head : Nat) (handlers : List RootHandler) : Prop where
  chain : Chain (handlerNext m) head (handlers.map RootHandler.self)
  stores : ∀ handler ∈ handlers, Stores m handler

theorem Holds.congr (holds : Holds m head handlers)
    (same : ∀ handler ∈ handlers, handlerNext m' handler.self = handlerNext m handler.self ∧
      handlerP m' handler.self = handlerP m handler.self ∧
        handlerEnd m' handler.self = handlerEnd m handler.self) : Holds m' head handlers where
  chain := by
    apply holds.chain.congr
    intro r mem
    rcases List.mem_map.mp mem with ⟨handler, handlerMem, rfl⟩
    exact (same handler handlerMem).1
  stores handler mem :=
    ⟨(same handler mem).2.1.trans (holds.stores handler mem).1,
      (same handler mem).2.2.trans (holds.stores handler mem).2⟩

/-- All records of the table. -/
def DerefRoots.records (t : DerefRoots) : List Nat :=
  chained numberOfRoots (fun i => (t.roots i).map RootHandler.self) ++ t.freeList

/-- The records in memory are those of the lists. -/
structure Represents (c : RootTable) (t : DerefRoots) : Prop where
  chains : ∀ i < numberOfRoots, Holds c.mem (c.roots i) (t.roots i)
  free : Chain (handlerNext c.mem) c.freeList t.freeList
  count : c.count = t.count
  totalCount : c.totalCount = t.totalCount
  expandCount : c.expandCount = t.expandCount
  expandFactor : c.expandFactor = t.expandFactor

namespace DerefRoots

theorem self_mem_records (less : i < numberOfRoots) (mem : curr ∈ t.roots i) :
    curr.self ∈ t.records := by
  apply List.mem_append_left
  exact mem_chained.mpr ⟨i, less, List.mem_map_of_mem mem⟩

theorem free_mem_records {r : Nat} (mem : r ∈ t.freeList) : r ∈ t.records :=
  List.mem_append_right _ mem

/-- A record of a chain is not on the free list. -/
theorem self_ne_free (separated : Separated t.records) (less : i < numberOfRoots)
    (mem : curr ∈ t.roots i) {r : Nat} (rMem : r ∈ t.freeList) : curr.self ≠ r := by
  have disjoint := (List.nodup_append.mp separated.nodup).2.2
  exact disjoint _ (mem_chained.mpr ⟨i, less, List.mem_map_of_mem mem⟩) _ rMem

/-- Two chains have no record in common. -/
theorem self_ne_self (separated : Separated t.records) (less : i < numberOfRoots)
    (mem : curr ∈ t.roots i) {j : Nat} (jLess : j < numberOfRoots) (different : j ≠ i)
    {other : RootHandler} (otherMem : other ∈ t.roots j) : other.self ≠ curr.self := by
  have split := @chained_split _ numberOfRoots i (fun i => (t.roots i).map RootHandler.self) less
  have unique := split.nodup_iff.mp (List.nodup_append.mp separated.nodup).1
  have disjoint := (List.nodup_append.mp unique).2.2
  have inChain : curr.self ∈ (t.roots i).map RootHandler.self := List.mem_map_of_mem mem
  have inOthers : other.self ∈ ((List.range numberOfRoots).erase i).flatMap
      fun i => (t.roots i).map RootHandler.self := by
    apply List.mem_flatMap.mpr
    refine ⟨j, ?_, List.mem_map_of_mem otherMem⟩
    exact (List.mem_erase_of_ne different).mpr (List.mem_range.mpr jLess)
  exact (disjoint _ inChain _ inOthers).symm

/-- The records of one chain are distinct. -/
theorem chain_nodup (separated : Separated t.records) (less : i < numberOfRoots) :
    ((t.roots i).map RootHandler.self).Nodup := by
  have split := @chained_split _ numberOfRoots i (fun i => (t.roots i).map RootHandler.self) less
  have unique := split.nodup_iff.mp (List.nodup_append.mp separated.nodup).1
  exact (List.nodup_append.mp unique).1

/-- Replacing the chain `i`. -/
def setChain (i : Nat) (chain : List RootHandler) (t : DerefRoots) : DerefRoots :=
  { t with roots := Function.update t.roots i chain }

theorem records_setChain (less : i < numberOfRoots) {free : List Nat} {chain : List RootHandler}
    (exchange : (chain.map RootHandler.self ++ free).Perm
      ((t.roots i).map RootHandler.self ++ t.freeList)) :
    (records { t.setChain i chain with freeList := free }).Perm t.records := by
  unfold records setChain
  dsimp only
  rw [map_update]
  exact chained_replace less exchange

/-- Moving the record of the handler `curr` from the chain `i`, of which `chain` is left, to the
free list. -/
def unlink (i : Nat) (chain : List RootHandler) (curr : RootHandler)
    (t : DerefRoots) : DerefRoots :=
  { t.setChain i chain with freeList := curr.self :: t.freeList, count := t.count - 1 }

end DerefRoots

namespace Represents

/-- Rewriting the field `p` of one record. -/
theorem rewrite (represents : Represents c t) (separated : Separated t.records)
    (less : i < numberOfRoots) (split : t.roots i = kept ++ curr :: rest) (p : Nat) :
    Represents { c with mem := setHandlerP c.mem curr.self p }
      (t.setChain i (kept ++ { curr with p := p } :: rest)) := by
  have currMem : curr ∈ t.roots i := by simp [split]
  have sMem := DerefRoots.self_mem_records less currMem
  have fields := fun r rMem => @Separated.setHandlerP_kept _ r _ separated sMem rMem c.mem p
  have others : ∀ j < numberOfRoots, ∀ handler ∈ t.roots j, handler.self ≠ curr.self →
      handlerNext (setHandlerP c.mem curr.self p) handler.self = handlerNext c.mem handler.self ∧
        handlerP (setHandlerP c.mem curr.self p) handler.self = handlerP c.mem handler.self ∧
          handlerEnd (setHandlerP c.mem curr.self p) handler.self =
            handlerEnd c.mem handler.self := by
    intro j jLess handler mem different
    rcases fields _ (DerefRoots.self_mem_records jLess mem) with ⟨nextKept, endKept, pKept⟩
    exact ⟨nextKept, pKept different, endKept⟩
  refine
    { represents with
      chains := fun j jLess => ?_
      free := represents.free.congr fun r mem => (fields r (DerefRoots.free_mem_records mem)).1 }
  by_cases same : j = i
  · subst same
    have holds := represents.chains j jLess
    have unique := DerefRoots.chain_nodup separated jLess
    simp only [DerefRoots.setChain, Function.update_self]
    constructor
    · have selves : (kept ++ { curr with p := p } :: rest).map RootHandler.self =
          (t.roots j).map RootHandler.self := by simp [split]
      rw [selves]
      apply holds.chain.congr
      intro r mem
      rcases List.mem_map.mp mem with ⟨handler, handlerMem, rfl⟩
      exact (fields _ (DerefRoots.self_mem_records jLess handlerMem)).1
    · rw [split] at unique
      simp only [List.map_append, List.map_cons, List.nodup_append, List.nodup_cons,
        List.mem_map, List.mem_cons] at unique
      have old : ∀ handler ∈ t.roots j, handler.self ≠ curr.self →
          Stores (setHandlerP c.mem curr.self p) handler := by
        intro handler mem different
        have stores := holds.stores handler mem
        rcases others j jLess handler mem different with ⟨_, pKept, endKept⟩
        exact ⟨pKept.trans stores.1, endKept.trans stores.2⟩
      intro handler mem
      rcases List.mem_append.mp mem with inKept | inRest
      · apply old handler (by simp [split, inKept])
        exact unique.2.2 _ ⟨handler, inKept, rfl⟩ _ (Or.inl rfl)
      · rcases List.mem_cons.mp inRest with rfl | inRest
        · exact ⟨write_same _ _ _, (fields _ sMem).2.1.trans (holds.stores curr currMem).2⟩
        · apply old handler (by simp [split, inRest])
          intro same
          exact unique.2.1.1 ⟨handler, inRest, same⟩
  · simp only [DerefRoots.setChain, Function.update_of_ne same]
    apply (represents.chains j jLess).congr
    intro handler mem
    apply others j jLess handler mem
    exact DerefRoots.self_ne_self separated less currMem jLess same mem

/-- The memory after a record has been unlinked: `prev` links to the record behind it, if there is a
record `prev` at all. -/
theorem unlink_fields (separated : Separated t.records) (less : i < numberOfRoots)
    (currMem : curr ∈ t.roots i) {prev : Nat} (prevMem : prev ≠ 0 → prev ∈ t.records)
    (different : prev ≠ curr.self) :
    handlerNext (c.unlink i curr.self prev).mem curr.self = c.freeList ∧
      (prev ≠ 0 →
        handlerNext (c.unlink i curr.self prev).mem prev = handlerNext c.mem curr.self) ∧
      ∀ r ∈ t.records,
        handlerP (c.unlink i curr.self prev).mem r = handlerP c.mem r ∧
        handlerEnd (c.unlink i curr.self prev).mem r = handlerEnd c.mem r ∧
        (r ≠ curr.self → r ≠ prev →
          handlerNext (c.unlink i curr.self prev).mem r = handlerNext c.mem r) := by
  have sMem := DerefRoots.self_mem_records less currMem
  unfold RootTable.unlink
  by_cases none : prev = 0
  · rw [if_pos none]
    dsimp only
    refine ⟨write_same _ _ _, fun some => absurd none some, fun r mem => ?_⟩
    rcases @Separated.setHandlerNext_kept _ r _ separated sMem mem c.mem c.freeList with
      ⟨pKept, endKept, nextKept⟩
    exact ⟨pKept, endKept, fun away _ => nextKept away⟩
  · rw [if_neg none]
    dsimp only
    have redirected := fun r rMem => @Separated.setHandlerNext_kept _ r _ separated (prevMem none)
      rMem c.mem (handlerNext c.mem curr.self)
    have freed := fun r rMem => @Separated.setHandlerNext_kept _ r _ separated sMem rMem
      (setHandlerNext c.mem prev (handlerNext c.mem curr.self)) c.freeList
    refine ⟨write_same _ _ _, fun _ => ?_, fun r mem => ?_⟩
    · rw [(freed prev (prevMem none)).2.2 different]
      exact write_same _ _ _
    · rcases redirected r mem with ⟨pKept, endKept, nextKept⟩
      rcases freed r mem with ⟨pKept', endKept', nextKept'⟩
      refine ⟨pKept'.trans pKept, endKept'.trans endKept, fun away notPrev => ?_⟩
      exact (nextKept' away).trans (nextKept notPrev)

/-- Removing one record. -/
theorem unlink (represents : Represents c t) (separated : Separated t.records)
    (less : i < numberOfRoots) (split : t.roots i = kept ++ curr :: rest) {prev : Nat}
    (before : prev = (kept.map RootHandler.self).getLast?.getD 0) :
    Represents (c.unlink i curr.self prev) (t.unlink i (kept ++ rest) curr) := by
  have currMem : curr ∈ t.roots i := by simp [split]
  have sMem := DerefRoots.self_mem_records less currMem
  have unique := DerefRoots.chain_nodup separated less
  have chain := (represents.chains i less).chain
  rw [split, List.map_append, List.map_cons] at chain unique
  have inRecords : ∀ r ∈ kept.map RootHandler.self ++ rest.map RootHandler.self,
      r ∈ t.records ∧ r ≠ curr.self := by
    intro r mem
    have distinct := List.nodup_middle.mp unique
    rw [List.nodup_cons] at distinct
    constructor
    · rw [← List.map_append] at mem
      rcases List.mem_map.mp mem with ⟨handler, handlerMem, rfl⟩
      apply DerefRoots.self_mem_records less
      rw [split]
      rcases List.mem_append.mp handlerMem with inKept | inRest
      · exact List.mem_append_left _ inKept
      · exact List.mem_append_right _ (List.mem_cons_of_mem _ inRest)
    · rintro rfl
      exact distinct.1 mem
  -- the record before the removed one
  have position : ((kept.map RootHandler.self).getLast? = none ∧ prev = 0) ∨
      ((kept.map RootHandler.self).getLast? = some prev ∧ prev ∈ t.records ∧ prev ≠ curr.self) := by
    cases last : (kept.map RootHandler.self).getLast? with
    | none => exact Or.inl ⟨rfl, by rw [before, last]; rfl⟩
    | some r =>
        have same : prev = r := by rw [before, last]; rfl
        have mem := inRecords r (List.mem_append_left _ (List.mem_of_getLast? last))
        rw [same]
        exact Or.inr ⟨rfl, mem⟩
  have fields := @unlink_fields c t i curr separated less currMem prev
    (by
      rcases position with ⟨_, none⟩ | ⟨_, mem, _⟩
      · exact fun some => absurd none some
      · exact fun _ => mem)
    (by
      rcases position with ⟨_, none⟩ | ⟨_, _, different⟩
      · rw [none]
        exact (separated.nonnull _ sMem).symm
      · exact different)
  rcases fields with ⟨freedLink, redirected, kept'⟩
  have linked : Chain (handlerNext (c.unlink i curr.self prev).mem) _ _ := chain.unlink unique
    (by
      intro r mem notLast
      rcases inRecords r mem with ⟨rMem, notCurr⟩
      apply (kept' r rMem).2.2 notCurr
      rintro rfl
      rcases position with ⟨_, none⟩ | ⟨isLast, _⟩
      · exact separated.nonnull _ rMem none
      · exact notLast isLast)
    (by
      intro last isLast
      rcases position with ⟨none, _⟩ | ⟨isLast', _, _⟩
      · rw [isLast] at none
        cases none
      · have same : prev = last := Option.some.inj (isLast'.symm.trans isLast)
        have mem := inRecords last (List.mem_append_left _ (List.mem_of_getLast? isLast))
        rw [← same] at mem ⊢
        exact redirected (separated.nonnull _ mem.1))
  have heads : ∀ j, (c.unlink i curr.self prev).roots j =
      if j = i ∧ kept.map RootHandler.self = [] then handlerNext c.mem curr.self
        else c.roots j := by
    intro j
    unfold RootTable.unlink
    rcases position with ⟨last, none⟩ | ⟨last, mem, _⟩
    · rw [List.getLast?_eq_none_iff] at last
      rw [if_pos none]
      by_cases same : j = i
      · subst same
        simp [last]
      · simp [same, Function.update_of_ne]
    · have some : kept.map RootHandler.self ≠ [] := by
        intro none
        rw [none] at last
        cases last
      rw [if_neg (separated.nonnull _ mem), if_neg (by simp [some])]
  have stores : ∀ j < numberOfRoots, ∀ handler ∈ t.roots j,
      Stores (c.unlink i curr.self prev).mem handler := by
    intro j jLess handler mem
    have old := (represents.chains j jLess).stores handler mem
    rcases kept' _ (DerefRoots.self_mem_records jLess mem) with ⟨pKept, endKept, _⟩
    exact ⟨pKept.trans old.1, endKept.trans old.2⟩
  -- a link outside the chain is not touched
  have outside : ∀ r ∈ t.records, r ∉ (t.roots i).map RootHandler.self →
      handlerNext (c.unlink i curr.self prev).mem r = handlerNext c.mem r := by
    intro r rMem notHere
    apply (kept' r rMem).2.2
    · rintro rfl
      exact notHere (List.mem_map_of_mem currMem)
    · rintro rfl
      rcases position with ⟨_, none⟩ | ⟨last, _, _⟩
      · exact separated.nonnull _ rMem none
      · apply notHere
        rw [split, List.map_append]
        exact List.mem_append_left _ (List.mem_of_getLast? last)
  refine
    { chains := fun j jLess => ?_, free := ?_, count := ?_, totalCount := ?_, expandCount := ?_,
      expandFactor := ?_ }
  · by_cases same : j = i
    · subst same
      simp only [DerefRoots.unlink, DerefRoots.setChain, Function.update_self]
      constructor
      · rw [List.map_append, heads]
        simpa using linked
      · intro handler mem
        apply stores j jLess
        rw [split]
        rcases List.mem_append.mp mem with inKept | inRest
        · exact List.mem_append_left _ inKept
        · exact List.mem_append_right _ (List.mem_cons_of_mem _ inRest)
    · simp only [DerefRoots.unlink, DerefRoots.setChain, Function.update_of_ne same]
      constructor
      · rw [heads, if_neg (by simp [same])]
        apply (represents.chains j jLess).chain.congr
        intro r mem
        rcases List.mem_map.mp mem with ⟨handler, handlerMem, rfl⟩
        apply outside _ (DerefRoots.self_mem_records jLess handlerMem)
        intro here
        rcases List.mem_map.mp here with ⟨other, otherMem, sameSelf⟩
        exact DerefRoots.self_ne_self separated less otherMem jLess same handlerMem sameSelf.symm
      · exact stores j jLess
  · have linkedFree : Chain (handlerNext (c.unlink i curr.self prev).mem) c.freeList
      t.freeList := by
      apply represents.free.congr
      intro r mem
      apply outside r (DerefRoots.free_mem_records mem)
      intro here
      rcases List.mem_map.mp here with ⟨other, otherMem, sameSelf⟩
      exact DerefRoots.self_ne_free separated less otherMem mem sameSelf
    refine ⟨rfl, separated.nonnull _ sMem, ?_⟩
    rw [freedLink]
    exact linkedFree
  · have counted := represents.count
    unfold RootTable.unlink DerefRoots.unlink
    split
    · exact congrArg (· - 1) counted
    · exact congrArg (· - 1) counted
  all_goals
    unfold RootTable.unlink
    split
  · exact represents.totalCount
  · exact represents.totalCount
  · exact represents.expandCount
  · exact represents.expandCount
  · exact represents.expandFactor
  · exact represents.expandFactor

/-- Entering a range with the first free record. -/
theorem enter (represents : Represents c t) (separated : Separated t.records)
    (some : t.freeList ≠ []) (root size : Nat) :
    (c.enter root size).1 = (t.enter root size).1 ∧
      Represents (c.enter root size).2 (t.enter root size).2 := by
  rcases List.exists_cons_of_ne_nil some with ⟨data, free, freeEq⟩
  have freeChain := represents.free
  rw [freeEq] at freeChain
  rcases freeChain with ⟨headEq, nonnull, freeRest⟩
  have less : hashOfRoot root < numberOfRoots := Nat.mod_lt _ (by decide)
  have dataMem : data ∈ t.records := DerefRoots.free_mem_records (by simp [freeEq])
  have m' : ∃ m', m' = setHandlerEnd (setHandlerP (setHandlerNext c.mem data
      (c.roots (hashOfRoot root))) data root) data (ptrAdd root size) := ⟨_, rfl⟩
  rcases m' with ⟨m', memEq⟩
  have linked := fun r rMem => @Separated.setHandlerNext_kept _ r _ separated dataMem rMem c.mem
    (c.roots (hashOfRoot root))
  have keyed := fun r rMem => @Separated.setHandlerP_kept _ r _ separated dataMem rMem
    (setHandlerNext c.mem data (c.roots (hashOfRoot root))) root
  have ended := fun r rMem => @Separated.setHandlerEnd_kept _ r _ separated dataMem rMem
    (setHandlerP (setHandlerNext c.mem data (c.roots (hashOfRoot root))) data root)
    (ptrAdd root size)
  have others : ∀ r ∈ t.records, r ≠ data → handlerNext m' r = handlerNext c.mem r ∧
      handlerP m' r = handlerP c.mem r ∧ handlerEnd m' r = handlerEnd c.mem r := by
    intro r mem different
    rw [memEq]
    refine ⟨?_, ?_, ?_⟩
    · rw [(ended r mem).1, (keyed r mem).1, (linked r mem).2.2 different]
    · rw [(ended r mem).2.1, (keyed r mem).2.2 different, (linked r mem).1]
    · rw [(ended r mem).2.2 different, (keyed r mem).2.1, (linked r mem).2.1]
  have dataNext : handlerNext m' data = c.roots (hashOfRoot root) := by
    rw [memEq, (ended data dataMem).1, (keyed data dataMem).1]
    exact write_same _ _ _
  have dataStores : Stores m' ⟨data, root, ptrAdd root size⟩ := by
    constructor
    · dsimp only
      rw [memEq, (ended data dataMem).2.1]
      exact write_same _ _ _
    · dsimp only
      rw [memEq]
      exact write_same _ _ _
  have notData : ∀ j < numberOfRoots, ∀ handler ∈ t.roots j, handler.self ≠ data := by
    intro j jLess handler mem
    exact DerefRoots.self_ne_free separated jLess mem (by simp [freeEq])
  have chains : ∀ j < numberOfRoots, Holds m'
      (Function.update c.roots (hashOfRoot root) data j)
      (Function.update t.roots (hashOfRoot root)
        (⟨data, root, ptrAdd root size⟩ :: t.roots (hashOfRoot root)) j) := by
    intro j jLess
    have kept : Holds m' (c.roots j) (t.roots j) := by
      apply (represents.chains j jLess).congr
      intro handler mem
      exact others _ (DerefRoots.self_mem_records jLess mem) (notData j jLess handler mem)
    by_cases same : j = hashOfRoot root
    · subst same
      rw [Function.update_self, Function.update_self]
      constructor
      · refine ⟨rfl, nonnull, ?_⟩
        rw [dataNext]
        exact kept.chain
      · intro handler mem
        rcases List.mem_cons.mp mem with rfl | mem
        · exact dataStores
        · exact kept.stores handler mem
    · rw [Function.update_of_ne same, Function.update_of_ne same]
      exact kept
  have freeKept : Chain (handlerNext m') (handlerNext c.mem data) free := by
    apply freeRest.congr
    intro r mem
    apply (others r (DerefRoots.free_mem_records (by simp [freeEq, mem])) ?_).1
    rintro rfl
    have unique := (List.nodup_append.mp separated.nodup).2.1
    rw [freeEq] at unique
    exact (List.nodup_cons.mp unique).1 mem
  unfold RootTable.enter DerefRoots.enter
  simp only [headEq, freeEq, List.headD_cons, List.tail_cons, ← memEq, represents.count,
    represents.totalCount, represents.expandCount, represents.expandFactor]
  split
  · exact ⟨rfl, chains, freeKept, rfl, rfl, rfl, rfl⟩
  · exact ⟨rfl, chains, freeKept, rfl, rfl, rfl, rfl⟩

end Represents

end PreciseGc

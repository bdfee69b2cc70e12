import PreciseGc.Roots.RootRecords

/-!
# The loops over the records

The refill links the records of a fresh mapping, the lookup follows one chain,
and the sweep unlinks the unmarked records of every chain while it keeps the
record before the current one.  Each loop is followed on the lists of the table.
-/

namespace PreciseGc

open Foundation Memory

variable {c c' : RootTable} {t t' : DerefRoots} {i fuel : Nat}
  {handlers kept rest : List RootHandler} {curr : RootHandler} {spaces : List Nat}

theorem mem_newRecords {space n r : Nat} :
    r ∈ DerefRoots.newRecords space n ↔ ∃ k < n, r = space + k * sizeofRootHandler := by
  induction n with
  | zero => simp [DerefRoots.newRecords]
  | succ n ih =>
      rw [DerefRoots.newRecords, List.mem_cons, ih]
      constructor
      · rintro (rfl | ⟨k, less, rfl⟩)
        · exact ⟨n, by omega, rfl⟩
        · exact ⟨k, by omega, rfl⟩
      · rintro ⟨k, less, rfl⟩
        by_cases last : k = n
        · exact Or.inl (by rw [last])
        · exact Or.inr ⟨k, by omega, rfl⟩

/-- The first record is linked first, and so comes last. -/
theorem newRecords_succ (space n : Nat) : DerefRoots.newRecords space (n + 1) =
    DerefRoots.newRecords (space + sizeofRootHandler) n ++ [space] := by
  induction n with
  | zero => simp [DerefRoots.newRecords]
  | succ n ih =>
      rw [DerefRoots.newRecords, ih, DerefRoots.newRecords, List.cons_append, Nat.succ_mul]
      congr 1
      omega

theorem length_newRecords (space n : Nat) : (DerefRoots.newRecords space n).length = n := by
  induction n with
  | zero => rfl
  | succ n ih => rw [DerefRoots.newRecords, List.length_cons, ih]

/-- Linking `n` records from `curr` on, none of which is linked yet. -/
theorem linkRecords_spec {n curr : Nat} {cells : List Nat} (nonnull : curr ≠ 0)
    (below : ∀ r ∈ cells, r + sizeofRootHandler ≤ curr)
    (chain : Chain (handlerNext c.mem) c.freeList cells) :
    ∃ m' freeList', c.linkRecords n curr = { c with mem := m', freeList := freeList' } ∧
      (∀ x, x < curr ∨ curr + n * sizeofRootHandler ≤ x → m' x = c.mem x) ∧
        Chain (handlerNext m') freeList' (DerefRoots.newRecords curr n ++ cells) := by
  induction n generalizing c curr cells with
  | zero => exact ⟨c.mem, c.freeList, rfl, fun _ _ => rfl, chain⟩
  | succ n ih =>
      have linked : Chain (handlerNext (setHandlerNext c.mem curr c.freeList)) curr
        (curr :: cells) := by
        refine ⟨rfl, nonnull, ?_⟩
        rw [show handlerNext (setHandlerNext c.mem curr c.freeList) curr = c.freeList from
          write_same _ _ _]
        apply chain.congr
        intro r mem
        have := below r mem
        apply write_of_ne
        unfold sizeofRootHandler at this
        omega
      have below' : ∀ r ∈ curr :: cells, r + sizeofRootHandler ≤ curr + sizeofRootHandler := by
        intro r mem
        rcases List.mem_cons.mp mem with rfl | mem
        · exact Nat.le_refl _
        · have := below r mem
          omega
      have positive : curr + sizeofRootHandler ≠ 0 := by omega
      rcases @ih { c with mem := setHandlerNext c.mem curr c.freeList, freeList := curr }
        (curr + sizeofRootHandler) (curr :: cells) positive below' linked with
        ⟨m', freeList', eq, outside, chain'⟩
      refine ⟨m', freeList', eq, fun x apart => ?_, ?_⟩
      · rw [Nat.succ_mul] at apart
        rw [outside x (by omega)]
        apply write_of_ne
        unfold sizeofRootHandler at apart
        omega
      · rw [newRecords_succ, List.append_assoc]
        exact chain'

/-- The length of a mapping for records. -/
def spaceLength : Nat := mmapCount * sizeofRootHandler

/-- A mapping that does not overlap those in `spaces`. -/
def FreshSpace (spaces : List Nat) (space : Nat) : Prop :=
  space ≠ 0 ∧ ∀ s ∈ spaces, s + spaceLength ≤ space ∨ space + spaceLength ≤ s

/-- The records in the mappings. -/
def recordsOf (spaces : List Nat) : List Nat :=
  spaces.flatMap fun space => DerefRoots.newRecords space mmapCount

theorem mem_recordsOf {r : Nat} : r ∈ recordsOf spaces ↔
    ∃ space ∈ spaces, ∃ k < mmapCount, r = space + k * sizeofRootHandler := by
  simp only [recordsOf, List.mem_flatMap, mem_newRecords]

/-- Where the records of a mapping lie. -/
theorem newRecords_bounds {space r : Nat} (mem : r ∈ DerefRoots.newRecords space mmapCount) :
    space ≤ r ∧ r + sizeofRootHandler ≤ space + spaceLength := by
  rcases mem_newRecords.mp mem with ⟨k, less, rfl⟩
  have product : (k + 1) * sizeofRootHandler ≤ mmapCount * sizeofRootHandler :=
    Nat.mul_le_mul_right _ less
  rw [Nat.succ_mul] at product
  unfold spaceLength
  omega

theorem newRecords_apart (space n : Nat) : (DerefRoots.newRecords space n).Pairwise Apart := by
  induction n with
  | zero => exact List.Pairwise.nil
  | succ n ih =>
      refine List.Pairwise.cons ?_ ih
      intro r mem
      rcases mem_newRecords.mp mem with ⟨k, less, rfl⟩
      have product : (k + 1) * sizeofRootHandler ≤ n * sizeofRootHandler :=
        Nat.mul_le_mul_right _ less
      rw [Nat.succ_mul] at product
      right
      omega

/-- A fresh mapping adds records that do not overlap the others. -/
theorem Separated.fresh (separated : Separated (recordsOf spaces)) {space : Nat}
    (fresh : FreshSpace spaces space) : Separated (recordsOf (space :: spaces)) where
  nonnull r mem := by
    rcases List.mem_append.mp mem with new | old
    · have := newRecords_bounds new
      have := fresh.1
      omega
    · exact separated.nonnull r old
  apart := by
    apply List.pairwise_append.mpr
    refine ⟨newRecords_apart space mmapCount, separated.apart, fun r new s old => ?_⟩
    rcases List.mem_flatMap.mp old with ⟨other, otherMem, sMem⟩
    have rBounds := newRecords_bounds new
    have sBounds := newRecords_bounds sMem
    rcases fresh.2 other otherMem with below | above
    · right
      omega
    · left
      omega

/-- The records of the mappings are those of the chains and of the free list, each in one place; the
counts are exact, and every record is in the chain of its hash. -/
structure Accounted (spaces : List Nat) (t : DerefRoots) : Prop where
  partition : t.records.Perm (recordsOf spaces)
  count : t.count = (chained numberOfRoots t.roots).length
  total : t.count + t.freeList.length = t.totalCount
  hash : ∀ i < numberOfRoots, ∀ handler ∈ t.roots i, hashOfRoot handler.plainPointer = i

/-- The table in memory stands for lists whose records are accounted for. -/
structure TableInvariant (c : RootTable) (t : DerefRoots) : Prop where
  represents : Represents c t
  accounted : Accounted c.spaces t
  separated : Separated (recordsOf c.spaces)

namespace DerefRoots

theorem length_records (t : DerefRoots) :
    t.records.length = (chained numberOfRoots t.roots).length + t.freeList.length := by
  simp only [records, chained, List.length_append, List.length_flatMap, List.length_map]

/-- Lists that agree up to the number of chains are the same table. -/
theorem records_congr (same : ∀ i < numberOfRoots, t'.roots i = t.roots i)
    (free : t'.freeList = t.freeList) : t'.records = t.records := by
  have chains : chained numberOfRoots (fun i => (t'.roots i).map RootHandler.self) =
      chained numberOfRoots (fun i => (t.roots i).map RootHandler.self) := by
    apply chained_congr
    intro i less
    rw [same i less]
  rw [records, records, chains, free]

end DerefRoots

namespace Accounted

/-- An exchange of records between a chain and the free list. -/
theorem exchange (accounted : Accounted spaces t) (less : i < numberOfRoots)
    {chain : List RootHandler} {free : List Nat}
    (moved : (chain.map RootHandler.self ++ free).Perm
      ((t.roots i).map RootHandler.self ++ t.freeList)) {total : Nat}
    (counted : total + free.length = t.totalCount)
    (hash : ∀ handler ∈ chain, hashOfRoot handler.plainPointer = i) :
    Accounted spaces { t.setChain i chain with freeList := free, count := total } where
  partition := (DerefRoots.records_setChain less moved).trans accounted.partition
  count := by
    have same := (DerefRoots.records_setChain less moved).length_eq
    rw [DerefRoots.length_records, DerefRoots.length_records] at same
    have before := accounted.count
    have sum := accounted.total
    dsimp only at same ⊢
    omega
  total := counted
  hash j jLess handler mem := by
    by_cases same : j = i
    · subst same
      apply hash handler
      simpa [DerefRoots.setChain] using mem
    · apply accounted.hash j jLess handler
      simpa [DerefRoots.setChain, Function.update_of_ne same] using mem

/-- A table with the same lists and counts. -/
theorem congr (accounted : Accounted spaces t)
    (same : ∀ i < numberOfRoots, t'.roots i = t.roots i) (free : t'.freeList = t.freeList)
    (count : t'.count = t.count) (total : t'.totalCount = t.totalCount) : Accounted spaces t' where
  partition := by
    rw [DerefRoots.records_congr same free]
    exact accounted.partition
  count := by
    rw [count, chained_congr same]
    exact accounted.count
  total := by
    rw [count, free, total]
    exact accounted.total
  hash i less := by
    rw [same i less]
    exact accounted.hash i less

end Accounted

namespace TableInvariant

theorem separatedRecords (inv : TableInvariant c t) : Separated t.records :=
  inv.separated.perm inv.accounted.partition

theorem congr (inv : TableInvariant c t) (same : ∀ i < numberOfRoots, t'.roots i = t.roots i)
    (rest : t' = { t with roots := t'.roots }) : TableInvariant c t' where
  represents :=
    { chains := fun i less => by
        rw [same i less]
        exact inv.represents.chains i less
      free := by
        rw [rest]
        exact inv.represents.free
      count := by
        rw [rest]
        exact inv.represents.count
      totalCount := by
        rw [rest]
        exact inv.represents.totalCount
      expandCount := by
        rw [rest]
        exact inv.represents.expandCount
      expandFactor := by
        rw [rest]
        exact inv.represents.expandFactor }
  accounted := by
    apply inv.accounted.congr same
    · rw [rest]
    · rw [rest]
    · rw [rest]
  separated := inv.separated

/-- Rewriting the mark of one record. -/
theorem rewrite (inv : TableInvariant c t) (less : i < numberOfRoots)
    (split : t.roots i = kept ++ curr :: rest) {p : Nat} (plain : clear p 1 = curr.plainPointer) :
    TableInvariant { c with mem := setHandlerP c.mem curr.self p }
      (t.setChain i (kept ++ { curr with p := p } :: rest)) where
  represents := inv.represents.rewrite inv.separatedRecords less split p
  accounted := by
    have hash := inv.accounted.hash i less
    rw [split] at hash
    have moved : ((kept ++ { curr with p := p } :: rest).map RootHandler.self ++ t.freeList).Perm
        ((t.roots i).map RootHandler.self ++ t.freeList) := by simp [split]
    have exchanged := inv.accounted.exchange less moved inv.accounted.total ?_
    · exact exchanged
    · intro handler mem
      rcases List.mem_append.mp mem with inKept | inRest
      · exact hash handler (List.mem_append_left _ inKept)
      · rcases List.mem_cons.mp inRest with rfl | inRest
        · rw [show RootHandler.plainPointer { curr with p := p } = curr.plainPointer from plain]
          exact hash curr (by simp)
        · exact hash handler (List.mem_append_right _ (List.mem_cons_of_mem _ inRest))
  separated := inv.separated

theorem unlink_spaces (c : RootTable) (i curr prev : Nat) :
    (c.unlink i curr prev).spaces = c.spaces := by
  unfold RootTable.unlink
  split
  · rfl
  · rfl

/-- Removing one record. -/
theorem unlink (inv : TableInvariant c t) (less : i < numberOfRoots)
    (split : t.roots i = kept ++ curr :: rest) {prev : Nat}
    (before : prev = (kept.map RootHandler.self).getLast?.getD 0) :
    TableInvariant (c.unlink i curr.self prev) (t.unlink i (kept ++ rest) curr) where
  represents := inv.represents.unlink inv.separatedRecords less split before
  accounted := by
    rw [unlink_spaces]
    have some : 0 < t.count := by
      rw [inv.accounted.count]
      apply List.length_pos_of_mem
      exact mem_chained.mpr ⟨i, less, show curr ∈ t.roots i by simp [split]⟩
    have total := inv.accounted.total
    apply inv.accounted.exchange less
    · rw [split]
      simp only [List.map_append, List.map_cons, List.append_assoc, List.cons_append]
      apply List.Perm.append_left
      exact List.perm_middle
    · simp only [List.length_cons]
      omega
    · intro handler mem
      apply inv.accounted.hash i less
      rw [split]
      rcases List.mem_append.mp mem with inKept | inRest
      · exact List.mem_append_left _ inKept
      · exact List.mem_append_right _ (List.mem_cons_of_mem _ inRest)
  separated := by
    rw [unlink_spaces]
    exact inv.separated

/-- The refill, unless the mapping is refused. -/
theorem refill (inv : TableInvariant c t) (space : Option Nat)
    (fresh : ∀ s, space = some s → FreshSpace c.spaces s) :
    (c.refill space = .error .mapFailed ∧ t.freeList = [] ∧ space = none) ∨
      ∃ c' t', c.refill space = .ok c' ∧ t.refill space = .ok t' ∧ TableInvariant c' t' ∧
        t'.freeList ≠ [] := by
  unfold RootTable.refill DerefRoots.refill
  cases freeEq : t.freeList with
  | cons data free =>
      have linked := inv.represents.free
      rw [freeEq] at linked
      have some : (c.freeList != 0) = true := by
        rw [linked.1]
        exact bne_iff_ne.mpr linked.2.1
      rw [if_pos some]
      exact Or.inr ⟨c, t, rfl, rfl, inv, by simp [freeEq]⟩
  | nil =>
      have linked := inv.represents.free
      rw [freeEq] at linked
      have null : c.freeList = 0 := linked
      rw [if_neg (by simp [null])]
      cases space with
      | none => exact Or.inl ⟨rfl, rfl, rfl⟩
      | some space =>
          right
          have freshSpace := fresh space rfl
          rcases @linkRecords_spec { c with spaces := space :: c.spaces } mmapCount space
            [] freshSpace.1
            (by simp) null with ⟨m', freeList', eq, outside, chain⟩
          dsimp only at eq outside chain
          refine ⟨_, _, rfl, rfl, ?_, ?_⟩
          · have kept : ∀ r ∈ t.records, ∀ o < sizeofRootHandler, m' (r + o) = c.mem (r + o) := by
              intro r mem o inside
              rcases mem_recordsOf.mp (inv.accounted.partition.mem_iff.mp mem) with
                ⟨s, sMem, k, less, rfl⟩
              have bounds := newRecords_bounds (mem_newRecords.mpr ⟨k, less, rfl⟩ :
                s + k * sizeofRootHandler ∈ DerefRoots.newRecords s mmapCount)
              apply outside
              rcases freshSpace.2 s sMem with below | above
              · left
                omega
              · right
                unfold spaceLength at above
                omega
            rw [eq]
            refine ⟨?_, ?_, inv.separated.fresh freshSpace⟩
            · refine
                { chains := fun i less => ?_, free := ?_, count := inv.represents.count,
                  totalCount := ?_, expandCount := inv.represents.expandCount,
                  expandFactor := inv.represents.expandFactor }
              · apply (inv.represents.chains i less).congr
                intro handler mem
                have inRecords := DerefRoots.self_mem_records less mem
                exact ⟨kept _ inRecords 16 (by decide), kept _ inRecords 0 (by decide),
                  kept _ inRecords 8 (by decide)⟩
              · rw [List.append_nil] at chain
                exact chain
              · exact congrArg (· + mmapCount) inv.represents.totalCount
            · have partition := inv.accounted.partition
              have total := inv.accounted.total
              unfold DerefRoots.records at partition
              rw [freeEq, List.append_nil] at partition
              rw [freeEq, List.length_nil] at total
              refine ⟨?_, inv.accounted.count, ?_, inv.accounted.hash⟩
              · exact (partition.append_right _).trans List.perm_append_comm
              · dsimp only
                rw [length_newRecords]
                omega
          · intro none
            have nothing : DerefRoots.newRecords space mmapCount = [] := none
            have length := length_newRecords space mmapCount
            rw [nothing] at length
            exact absurd length (by decide)

/-- Entering a range. -/
theorem enter (inv : TableInvariant c t) (some : t.freeList ≠ []) (root size : Nat) :
    (c.enter root size).1 = (t.enter root size).1 ∧
      TableInvariant (c.enter root size).2 (t.enter root size).2 := by
  rcases inv.represents.enter inv.separatedRecords some root size with ⟨same, represents⟩
  refine ⟨same, represents, ?_, ?_⟩
  · rcases List.exists_cons_of_ne_nil some with ⟨data, free, freeEq⟩
    have less : hashOfRoot root < numberOfRoots := Nat.mod_lt _ (by decide)
    have total := inv.accounted.total
    rw [freeEq, List.length_cons] at total
    have spaces : (c.enter root size).2.spaces = c.spaces := by
      unfold RootTable.enter
      dsimp only
      split
      · rfl
      · rfl
    have moved : ((⟨data, root, ptrAdd root size⟩ :: t.roots (hashOfRoot root)).map
        RootHandler.self ++ free).Perm ((t.roots (hashOfRoot root)).map RootHandler.self ++
          t.freeList) := by
      rw [freeEq]
      exact List.perm_middle.symm
    have counted : t.count + 1 + free.length = t.totalCount := by omega
    have entered := inv.accounted.exchange less moved counted (by
      intro handler mem
      rcases List.mem_cons.mp mem with rfl | mem
      · unfold RootHandler.plainPointer hashOfRoot
        rw [clear_div_eight (by decide)]
      · exact inv.accounted.hash _ less handler mem)
    rw [spaces]
    have lists : ∃ expandCount, (t.enter root size).2 =
        { t.setChain (hashOfRoot root) (⟨data, root, ptrAdd root size⟩ :: t.roots (hashOfRoot root))
          with freeList := free, count := t.count + 1, expandCount := expandCount } := by
      unfold DerefRoots.enter
      rw [freeEq]
      dsimp only [List.headD_cons, List.tail_cons]
      split
      · exact ⟨_, rfl⟩
      · exact ⟨_, rfl⟩
    rcases lists with ⟨expandCount, eq⟩
    rw [eq]
    exact entered.congr (fun _ _ => rfl) rfl rfl rfl
  · have spaces : (c.enter root size).2.spaces = c.spaces := by
      unfold RootTable.enter
      dsimp only
      split
      · rfl
      · rfl
    rw [spaces]
    exact inv.separated

theorem contains_eq (inv : TableInvariant c t) (less : i < numberOfRoots) (mem : curr ∈ t.roots i)
    (p : Nat) : derefContains c.mem curr.self p = curr.contains p ∧
      derefIsMarked c.mem curr.self = curr.isMarked ∧
        derefPlainPointer c.mem curr.self = curr.plainPointer := by
  have stores := (inv.represents.chains i less).stores curr mem
  have plain : derefPlainPointer c.mem curr.self = curr.plainPointer :=
    congrArg (clear · 1) stores.1
  refine ⟨?_, congrArg (hasFlag · 1) stores.1, plain⟩
  unfold derefContains RootHandler.contains
  rw [plain, stores.2]

/-- The rest of a chain is linked from its first record. -/
theorem rest_chain (inv : TableInvariant c t) (less : i < numberOfRoots)
    (split : t.roots i = kept ++ curr :: rest) :
    curr.self ≠ 0 ∧ handlerNext c.mem curr.self = (rest.map RootHandler.self).headD 0 := by
  have chain := (inv.represents.chains i less).chain
  rw [split, List.map_append, List.map_cons] at chain
  exact ⟨chain.ne_zero (by simp), chain.suffix.head_eq⟩

end TableInvariant

/-- The chain in which the first record that contains the address is marked. -/
def markFirst (root : Nat) : List RootHandler → List RootHandler
  | [] => []
  | curr :: next =>
      if curr.contains root then (if !curr.isMarked then curr.mark else curr) :: next
      else curr :: markFirst root next

theorem clear_mark (curr : RootHandler) : clear curr.mark.p 1 = curr.plainPointer := by
  have high : clear curr.mark.p 1 / 8 = clear curr.p 1 / 8 := by
    rw [clear_div_eight (by decide), clear_div_eight (by decide)]
    exact or_div_eight (by decide) _
  have low : clear curr.mark.p 1 % 8 = clear curr.p 1 % 8 := by
    rw [clear_mod_eight (by decide), clear_mod_eight (by decide)]
    unfold RootHandler.mark
    rw [or_mod_eight (by decide)]
    exact @of_residues (fun r => clear (r ||| 1) 1 = clear r 1) curr.p (by decide)
  unfold RootHandler.plainPointer
  omega

theorem clear_unmark (curr : RootHandler) : clear curr.unmark.p 1 = curr.plainPointer := by
  have high : clear curr.unmark.p 1 / 8 = clear curr.p 1 / 8 := clear_div_eight (by decide) _
  have low : clear curr.unmark.p 1 % 8 = clear curr.p 1 % 8 := by
    unfold RootHandler.unmark
    rw [clear_mod_eight (by decide), clear_mod_eight (by decide)]
    exact @of_residues (fun r => clear (clear r 1) 1 = clear r 1) curr.p (by decide)
  unfold RootHandler.plainPointer
  omega

theorem setChain_self (same : t.roots i = handlers) : t.setChain i handlers = t := by
  rw [← same]
  unfold DerefRoots.setChain
  rw [Function.update_eq_self]

/-- The search in one chain. -/
theorem TableInvariant.markChain (inv : TableInvariant c t) (less : i < numberOfRoots) (root : Nat)
    (fullGc : Bool) (split : t.roots i = kept ++ rest) :
    (c.markChain root fullGc fuel ((rest.map RootHandler.self).headD 0) = .error .outOfFuel ∧
      fuel ≤ rest.length) ∨
    ∃ pointer c', c.markChain root fullGc fuel ((rest.map RootHandler.self).headD 0) =
      .ok (pointer, c') ∧ c'.spaces = c.spaces ∧
        TableInvariant c' (t.setChain i (kept ++ markFirst root rest)) := by
  induction rest generalizing fuel kept with
  | nil =>
      cases fuel with
      | zero => exact Or.inl ⟨rfl, Nat.zero_le _⟩
      | succ fuel =>
          refine Or.inr ⟨none, c, rfl, rfl, ?_⟩
          rw [markFirst, setChain_self split]
          exact inv
  | cons curr rest ih =>
      cases fuel with
      | zero => exact Or.inl ⟨rfl, Nat.zero_le _⟩
      | succ fuel =>
          rcases inv.rest_chain less split with ⟨nonnull, nextEq⟩
          rcases inv.contains_eq less (show curr ∈ t.roots i by simp [split]) root with
            ⟨containsEq, markedEq, _⟩
          rw [List.map_cons, List.headD_cons, RootTable.markChain, if_neg nonnull, containsEq,
            markedEq, markFirst]
          split
          · split
            · refine Or.inr ⟨_, _, rfl, rfl, ?_⟩
              have stores := (inv.represents.chains i less).stores curr (by simp [split])
              unfold derefMark
              rw [stores.1]
              exact inv.rewrite less split (clear_mark curr)
            · refine Or.inr ⟨none, c, rfl, rfl, ?_⟩
              rw [setChain_self split]
              exact inv
          · rw [nextEq]
            have split' : t.roots i = (kept ++ [curr]) ++ rest := by simp [split]
            rcases @ih fuel _ split' with ⟨exhausted, little⟩ | ⟨pointer, c', eq, spaces, inv'⟩
            · exact Or.inl ⟨exhausted, Nat.succ_le_succ little⟩
            · rw [List.append_assoc, List.singleton_append] at inv'
              exact Or.inr ⟨pointer, c', eq, spaces, inv'⟩

/-- The handlers that a sweep keeps, and what becomes of them. -/
def keptHandlers (chain : List RootHandler) : List RootHandler :=
  (chain.filter RootHandler.isMarked).map RootHandler.unmark

/-- The handlers that a sweep removes. -/
def removedHandlers (chain : List RootHandler) : List RootHandler :=
  chain.filter fun handler => !handler.isMarked

/-- The table when the handlers `rest` of the chain `i` have been swept. -/
def DerefRoots.sweptChain (i : Nat) (kept rest : List RootHandler) (t : DerefRoots) : DerefRoots :=
  { t.setChain i (kept ++ keptHandlers rest) with
    freeList := ((removedHandlers rest).map RootHandler.self).reverse ++ t.freeList
    count := t.count - (removedHandlers rest).length }

/-- The inner loop of the sweep. -/
theorem TableInvariant.sweepChain (inv : TableInvariant c t) (less : i < numberOfRoots)
    (split : t.roots i = kept ++ rest) {prev : Nat}
    (before : prev = (kept.map RootHandler.self).getLast?.getD 0) :
    (c.sweepChain i fuel ((rest.map RootHandler.self).headD 0) prev = .error .outOfFuel ∧
      fuel ≤ rest.length) ∨
    ∃ c', c.sweepChain i fuel ((rest.map RootHandler.self).headD 0) prev = .ok c' ∧
      c'.spaces = c.spaces ∧ TableInvariant c' (t.sweptChain i kept rest) := by
  induction rest generalizing fuel kept prev c t with
  | nil =>
      cases fuel with
      | zero => exact Or.inl ⟨rfl, Nat.zero_le _⟩
      | succ fuel =>
          refine Or.inr ⟨c, rfl, rfl, ?_⟩
          unfold DerefRoots.sweptChain
          have whole : kept ++ keptHandlers [] = t.roots i := by simp [split, keptHandlers]
          rw [setChain_self whole.symm]
          exact inv
  | cons curr rest ih =>
      cases fuel with
      | zero => exact Or.inl ⟨rfl, Nat.zero_le _⟩
      | succ fuel =>
          rcases inv.rest_chain less split with ⟨nonnull, nextEq⟩
          have markedEq := (inv.contains_eq less (show curr ∈ t.roots i by simp [split]) 0).2.1
          rw [List.map_cons, List.headD_cons, RootTable.sweepChain, if_neg nonnull, markedEq]
          cases isMarked : curr.isMarked with
          | false =>
              have unlinked := inv.unlink less split before
              have split' : (t.unlink i (kept ++ rest) curr).roots i = kept ++ rest := by
                simp [DerefRoots.unlink, DerefRoots.setChain]
              rw [if_pos (by simp), nextEq]
              rcases @ih (c.unlink i curr.self prev) _ fuel kept unlinked split' prev before with
                ⟨exhausted, little⟩ | ⟨c', eq, spaces, inv'⟩
              · exact Or.inl ⟨exhausted, Nat.succ_le_succ little⟩
              right
              rw [TableInvariant.unlink_spaces] at spaces
              refine ⟨c', ?_, spaces, ?_⟩
              · exact eq
              · have same : (t.unlink i (kept ++ rest) curr).sweptChain i kept rest =
                    t.sweptChain i kept (curr :: rest) := by
                  simp only [DerefRoots.sweptChain, DerefRoots.unlink, DerefRoots.setChain,
                    keptHandlers, removedHandlers, List.filter_cons, isMarked, Bool.not_false,
                    Bool.false_eq_true, ↓reduceIte, List.map_cons, List.reverse_cons,
                    List.length_cons, Function.update_idem, List.append_assoc,
                    List.singleton_append]
                  rw [Nat.sub_sub, Nat.add_comm 1]
                rw [← same]
                exact inv'
          | true =>
              have stores := (inv.represents.chains i less).stores curr (by simp [split])
              have rewritten : TableInvariant { c with mem := derefUnmark c.mem curr.self }
                  (t.setChain i (kept ++ curr.unmark :: rest)) := by
                unfold derefUnmark
                rw [stores.1]
                exact inv.rewrite less split (clear_unmark curr)
              have split' : (t.setChain i (kept ++ curr.unmark :: rest)).roots i =
                  (kept ++ [curr.unmark]) ++ rest := by
                simp [DerefRoots.setChain]
              have split'' : (t.setChain i (kept ++ curr.unmark :: rest)).roots i =
                  kept ++ curr.unmark :: rest := by
                simp [DerefRoots.setChain]
              have before' : curr.self =
                  ((kept ++ [curr.unmark]).map RootHandler.self).getLast?.getD 0 := by
                simp [RootHandler.unmark]
              have nextEq' := (rewritten.rest_chain less split'').2
              rw [show curr.unmark.self = curr.self from rfl] at nextEq'
              rw [if_neg (by simp)]
              dsimp only at nextEq' ⊢
              rw [nextEq']
              rcases @ih { c with mem := derefUnmark c.mem curr.self } _ fuel _ rewritten split'
                curr.self before' with ⟨exhausted, little⟩ | ⟨c', eq, spaces, inv'⟩
              · exact Or.inl ⟨exhausted, Nat.succ_le_succ little⟩
              right
              refine ⟨c', ?_, spaces, ?_⟩
              · exact eq
              · have same : (t.setChain i (kept ++ curr.unmark :: rest)).sweptChain i
                    (kept ++ [curr.unmark]) rest = t.sweptChain i kept (curr :: rest) := by
                  simp only [DerefRoots.sweptChain, DerefRoots.setChain, keptHandlers,
                    removedHandlers, List.filter_cons, isMarked, Bool.not_true,
                    Bool.false_eq_true, ↓reduceIte, List.map_cons, Function.update_idem,
                    List.append_assoc, List.singleton_append]
                rw [← same]
                exact inv'

end PreciseGc

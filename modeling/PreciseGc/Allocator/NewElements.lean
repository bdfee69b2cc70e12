import PreciseGc.Allocator.SmallRequests

/-!
# The elements of a new object

`gc_new` requests memory for the header and `count` elements, in arithmetic
modulo the size of the address space, and constructs the elements with one or
two new-expressions.  An array new-expression refuses arrays that are too large.
Without metadata of the class it is only asked for the elements behind the first
one, so that what it accepts need not have fitted into the request.
-/

namespace PreciseGc

open Foundation Memory

variable {pf : Platform} {gc : Heap → Except Fault Heap} {h h' : Heap}
  {s p size count limit data : Nat} {known : Bool}

/-- The bytes that `gcmalloc(s)` reserves from the address it returns on: those of the block, or
what is left of the mapping of a big block. -/
def reservedBytes (pf : Platform) (s : Nat) : Nat :=
  if pf.bigBlockThreshold < align s then
    roundToPages pf.pageSize ((align s + sizeofBigBlock) % wordSpace) - sizeofBigBlock
  else align s

/-- The block at `p` is of the size that is reserved for a request of `s` bytes. -/
structure Reserves (pf : Platform) (h : Heap) (s p : Nat) : Prop where
  header : h.mem (getBlock p) = align s
  mapping : pf.bigBlockThreshold < align s → ∃ b, p = bigData b ∧ 4096 ≤ b ∧
    ⟨b, reservedBytes pf s + sizeofBigBlock⟩ ∈ h.mappings ∧ p + reservedBytes pf s < wordSpace

/-- The header of a block that has been cut off a page. -/
theorem mallocInPage_header (pf : Platform) (m : Memory) (q : Nat) :
    (mallocInPage pf s q m).2 (getBlock (blockData (mallocInPage pf s q m).1)) = s := by
  have same : getBlock (blockData (mallocInPage pf s q m).1) = freeBlock m q := by
    simp [getBlock, blockData, mallocInPage]
  rw [same]
  simp only [mallocInPage]
  rw [fill_of_not_mem (by simp only [blockData, sizeofBlock]; omega), write_same]

theorem mallocInternal_reserves (expand : Bool) :
    Yields (fun _ => True) (fun result => result.1 ≠ 0 →
      result.2.mem (getBlock result.1) = s ∧ (pf.bigBlockThreshold < s → ∃ b,
        result.1 = bigData b ∧
          FreshMapping pf.pageSize h.mappings ((s + sizeofBigBlock) % wordSpace) b ∧
            ⟨b, roundToPages pf.pageSize ((s + sizeofBigBlock) % wordSpace)⟩ ∈ result.2.mappings))
      (mallocInternal pf s expand h) := by
  unfold mallocInternal
  split
  · cases answer : pf.mmap h.mmapCalls h.mappings ((s + sizeofBigBlock) % wordSpace) with
    | none =>
        rw [morecore_big_of_none answer]
        exact fun nonnull => absurd rfl nonnull
    | some b =>
        rw [morecore_big_of_some answer]
        refine fun _ => ⟨?_, fun _ => ⟨b, rfl, pf.mmap_fresh answer, List.mem_cons_self⟩⟩
        have same : getBlock (bigData b) = bigHeader b := by
          simp [getBlock, bigData, bigHeader, sizeofBigBlock, sizeofBlock]
        simp only [same, setBigNext, bigHeader]
        rw [write_of_ne (by omega), write_same]
  · rename_i isSmall
    split
    · cases requestNewPage pf expand h with
      | error fault => trivial
      | ok requested =>
          rcases requested with ⟨newPage, h₁⟩
          simp only [bind, Except.bind]
          split
          · exact fun nonnull => absurd rfl nonnull
          · exact fun _ => ⟨mallocInPage_header pf _ newPage, fun isBig => absurd isBig isSmall⟩
    · exact fun _ => ⟨mallocInPage_header pf _ h.lastPage, fun isBig => absurd isBig isSmall⟩

theorem gcmallocLocked_reserves {expand : Bool} (eq : gcmallocLocked pf s expand h = .ok (p, h'))
    (succeeded : p ≠ 0) : Reserves pf h' s p := by
  unfold gcmallocLocked at eq
  rcases bind_eq_ok eq with ⟨⟨hasPage, h₁⟩, _, rest⟩
  cases hasPage with
  | false =>
      cases rest
      exact absurd rfl succeeded
  | true =>
      rcases (mallocInternal_reserves expand).of_ok rest succeeded with ⟨header, mapped⟩
      refine ⟨header, fun isBig => ?_⟩
      rcases mapped isBig with ⟨b, rfl, fresh, mem⟩
      have large := pf.pageSize_ge
      have start := Nat.le_of_dvd fresh.nonnull fresh.aligned
      have inside := fresh.inside
      have room : pf.pageSize ≤
          roundToPages pf.pageSize ((align s + sizeofBigBlock) % wordSpace) :=
        Nat.le_of_dvd (roundToPages_pos pf fresh.nonempty) (Nat.dvd_mul_left ..)
      have bytes : reservedBytes pf s + sizeofBigBlock =
          roundToPages pf.pageSize ((align s + sizeofBigBlock) % wordSpace) := by
        have few : sizeofBigBlock ≤ 4096 := by decide
        rw [reservedBytes, if_pos isBig, Nat.sub_add_cancel (by omega)]
      refine ⟨b, rfl, by omega, ?_, ?_⟩
      · rw [bytes]
        exact mem
      · rw [bigData]
        omega

/-- The reserved bytes end within the address space. -/
theorem Reserves.bounded (reserves : Reserves pf h s p) (representable : pf.pageSize < wordSpace) :
    reservedBytes pf s + sizeofBaseMeta < wordSpace := by
  rcases Nat.lt_or_ge pf.bigBlockThreshold (align s) with isBig | isSmall
  · rcases reserves.mapping isBig with ⟨b, rfl, above, _, inside⟩
    simp only [bigData, sizeofBaseMeta] at *
    omega
  · have threshold := pf.bigBlockThreshold_add
    rw [reservedBytes, if_neg (Nat.not_lt.mpr isSmall)]
    simp only [sizeofBaseMeta]
    omega

/-- When no computation wraps, the request is met. -/
theorem lt_reservedBytes (exact : s + 24 < wordSpace) : s < reservedBytes pf s := by
  have rounded : s < align s ∧ align s + sizeofBigBlock < wordSpace := by
    simp only [align, sizeofBigBlock, wordSpace] at *
    rw [Nat.mod_eq_of_lt (by omega)]
    omega
  unfold reservedBytes
  split
  · have room := le_roundToPages pf (align s + sizeofBigBlock)
    rw [Nat.mod_eq_of_lt rounded.2]
    omega
  · exact rounded.1

/-- The elements that `new (start) T[n]` constructs, the address of the first one and their number;
the expression throws `bad_array_new_length` for an array larger than `limit`. -/
def newArray (limit size start n : Nat) : Option (Nat × Nat) :=
  if limit < size * n then none else some (start, n)

/-- The call of `my_malloc` in `gc_new`, the elements each new-expression has constructed, and
whether one of them has thrown. -/
structure Construction where
  block : GcmallocReturn
  constructed : List (Nat × Nat)
  thrown : Bool

/-- The argument of `my_malloc`: `sizeof(T) * count + sizeof(meta<T>)`. -/
def newRequest (size count : Nat) : Nat := (size * count + sizeofBaseMeta) % wordSpace

/-- The two branches of `gc_new` that construct the elements, with and without metadata. -/
def newElements (limit size count : Nat) (known : Bool) (data : Nat) : List (Nat × Nat) × Bool :=
  if known then
    if count = 1 then ([(data, 1)], false)
    else
      let elements := newArray limit size data count
      (elements.toList, elements.isNone)
  else
    if count = 1 then ([(data, 1)], false)
    else
      let elements := newArray limit size (data + size) ((count + wordSpace - 1) % wordSpace)
      ((data, 1) :: elements.toList, elements.isNone)

/-- `gc_new<T>(types, count)` up to the construction of the elements, for a class of `size` bytes
whose metadata are known or not.  A null block is used like any other. -/
def gcNewElements (pf : Platform) (gc : Heap → Except Fault Heap) (limit size count : Nat)
    (known : Bool) (h : Heap) : Except Fault Construction :=
  gcmalloc pf gc (newRequest size count) h >>= fun r =>
    if r.result = 0 then .error .mapFailed
    else
      let elements := newElements limit size count known (r.result + sizeofBaseMeta)
      .ok ⟨r, elements.1, elements.2⟩

namespace Construction

/-- The addresses of the elements that have been constructed, in this order. -/
def positions (size : Nat) (k : Construction) : List Nat :=
  k.constructed.flatMap fun run => (List.range run.2).map fun i => run.1 + i * size

/-- The elements are `count`, consecutive behind the header, and within the block. -/
structure Within (pf : Platform) (size count : Nat) (k : Construction) : Prop where
  elements : k.positions size =
    (List.range count).map fun i => k.block.result + sizeofBaseMeta + i * size
  inside : ∀ p ∈ k.positions size, k.block.result ≤ p ∧
    p + size ≤ k.block.result + reservedBytes pf (newRequest size count)

end Construction

/-- The elements of consecutive arrays are consecutive. -/
theorem positions_append (data size m n : Nat) :
    ((List.range m).map fun i => data + i * size) ++
        ((List.range n).map fun i => data + m * size + i * size) =
      (List.range (m + n)).map fun i => data + i * size := by
  rw [List.range_add, List.map_append, List.map_map]
  congr 1
  apply List.map_congr_left
  intro i _
  simp only [Function.comp_apply]
  rw [Nat.add_mul, Nat.add_assoc]

theorem newArray_of_some {start n : Nat} (returned : (newArray limit size start n).isNone = false) :
    newArray limit size start n = some (start, n) := by
  unfold newArray at *
  split
  · rename_i large
    rw [if_pos large] at returned
    cases returned
  · rfl

/-- When no new-expression throws, the elements are `count` and consecutive, except that without
metadata one is constructed where none is asked for. -/
theorem newElements_positions (counts : count < wordSpace)
    (returned : (newElements limit size count known data).2 = false) :
    (newElements limit size count known data).1.flatMap
        (fun run => (List.range run.2).map fun i => run.1 + i * size) =
      (List.range count).map (fun i => data + i * size) ↔ known = true ∨ count ≠ 0 := by
  have first := positions_append data size 1
  unfold newElements at *
  cases known with
  | true =>
      simp only [↓reduceIte, true_or, iff_true] at returned ⊢
      split
      · rename_i one
        simp [one]
      · rename_i many
        rw [if_neg many] at returned
        simp [newArray_of_some returned]
  | false =>
      simp only [Bool.false_eq_true, ↓reduceIte, false_or] at returned ⊢
      split
      · rename_i one
        simp [one]
      · rename_i many
        rw [if_neg many] at returned
        have fewer : 0 < count → (count + wordSpace - 1) % wordSpace = count - 1 := by
          simp only [wordSpace] at *
          omega
        generalize (count + wordSpace - 1) % wordSpace = others at *
        simp only [newArray_of_some returned, Option.toList_some, List.flatMap_cons,
          List.flatMap_nil, List.append_nil]
        rcases Nat.eq_zero_or_pos count with none | some
        · subst none
          simp
        · have all := first (count - 1)
          rw [Nat.one_mul, Nat.add_sub_cancel' some] at all
          rw [fewer some, all]
          simp only [true_iff]
          omega

/-- A call that returns has its block from `gcmalloc`. -/
theorem gcNewElements_block {k : Construction}
    (eq : gcNewElements pf gc limit size count known h = .ok k) :
    Reserves pf k.block.heap (newRequest size count) k.block.result ∧
      (k.constructed, k.thrown) =
        newElements limit size count known (k.block.result + sizeofBaseMeta) := by
  unfold gcNewElements at eq
  rcases bind_eq_ok eq with ⟨r, served, rest⟩
  split at rest
  · cases rest
  · rename_i succeeded
    cases rest
    rcases gcmalloc_served served succeeded with ⟨expand, critical⟩
    exact ⟨gcmallocLocked_reserves critical succeeded, rfl⟩

/-- The elements are within the block when none of the sizes wraps, and when there are elements to
construct or the metadata are known. -/
theorem Construction.within_iff {k : Construction} (representable : pf.pageSize < wordSpace)
    (counts : count < wordSpace) (eq : gcNewElements pf gc limit size count known h = .ok k)
    (returned : k.thrown = false) :
    k.Within pf size count ↔
      (known = true ∨ count ≠ 0) ∧ size * count + sizeofBaseMeta + 24 < wordSpace := by
  rcases gcNewElements_block eq with ⟨reserves, elements⟩
  rw [Prod.ext_iff] at elements
  dsimp only at elements
  rw [elements.2] at returned
  have asked := newElements_positions counts returned
  rw [← elements.1] at asked
  constructor
  · intro within
    refine ⟨asked.mp within.elements, ?_⟩
    have bounded := reserves.bounded representable
    rcases Nat.eq_zero_or_pos count with none | some
    · subst none
      simp only [sizeofBaseMeta, wordSpace]
      omega
    · have last : k.block.result + sizeofBaseMeta + (count - 1) * size ∈ k.positions size := by
        rw [within.elements]
        exact List.mem_map.mpr ⟨count - 1, List.mem_range.mpr (by omega), rfl⟩
      have upper := (within.inside _ last).2
      have whole : (count - 1) * size + size = size * count := by
        rw [← Nat.succ_mul, Nat.succ_eq_add_one, Nat.sub_add_cancel some, Nat.mul_comm]
      simp only [sizeofBaseMeta] at *
      omega
  · rintro ⟨elementsAsked, exact⟩
    have positions : k.positions size =
        (List.range count).map fun i => k.block.result + sizeofBaseMeta + i * size :=
      asked.mpr elementsAsked
    have request : newRequest size count = size * count + sizeofBaseMeta :=
      Nat.mod_eq_of_lt (by omega)
    have room := @lt_reservedBytes pf (newRequest size count) (by omega)
    refine ⟨positions, fun p mem => ?_⟩
    rw [positions] at mem
    rcases List.mem_map.mp mem with ⟨i, iMem, rfl⟩
    have before : (i + 1) * size ≤ count * size :=
      Nat.mul_le_mul_right _ (List.mem_range.mp iMem)
    rw [Nat.succ_mul, Nat.mul_comm count] at before
    omega

/-- A call of `gc_new` that returns has constructed exactly the elements asked for, within its
block, if and only if none of the sizes wraps and, without metadata, there are elements to
construct.  This is for every limit of the array new-expression, every heap and collection. -/
theorem gcNewElements_within_iff {k : Construction} (representable : pf.pageSize < wordSpace)
    (counts : count < wordSpace) (eq : gcNewElements pf gc limit size count known h = .ok k)
    (returned : k.thrown = false) :
    Reserves pf k.block.heap (newRequest size count) k.block.result ∧
      (k.Within pf size count ↔
        (known = true ∨ count ≠ 0) ∧ size * count + sizeofBaseMeta + 24 < wordSpace) :=
  ⟨(gcNewElements_block eq).1, Construction.within_iff representable counts eq returned⟩

/-- The largest object size of the usual compilers. -/
def ptrdiffMax : Nat := 2 ^ 63 - 1

/-- Half the address space, but for the header. -/
def hugeSize : Nat := 2 ^ 63 - sizeofBaseMeta / 2

theorem startHeap_elements (size count : Nat)
    (request : (size, count) = (16, 3) ∨ (size, count) = (hugeSize, 2)) :
    Yields (fun _ => False) (fun k : Construction => k.thrown = false)
      (gcNewElements oneMapping .ok ptrdiffMax size count false startHeap) := by
  rcases request with request | request
  · cases request
    decide +kernel
  · cases request
    decide +kernel

theorem gcNewElements_within_iff_three : ∃ k,
    gcNewElements oneMapping .ok ptrdiffMax 16 3 false startHeap = .ok k ∧
      k.Within oneMapping 16 3 := by
  rcases (startHeap_elements 16 3 (Or.inl rfl)).total with ⟨k, eq, returned⟩
  have within := gcNewElements_within_iff (by decide) (by decide) eq returned
  exact ⟨k, eq, within.2.mpr (by decide)⟩

/-- The request wraps to no bytes at all, and both elements are constructed. -/
theorem gcNewElements_overruns : ∃ k,
    gcNewElements oneMapping .ok ptrdiffMax hugeSize 2 false startHeap = .ok k ∧
      k.thrown = false ∧ newRequest hugeSize 2 = 0 ∧ ¬k.Within oneMapping hugeSize 2 := by
  rcases (startHeap_elements hugeSize 2 (Or.inr rfl)).total with ⟨k, eq, returned⟩
  refine ⟨k, eq, returned, by decide, ?_⟩
  rw [Construction.within_iff (by decide) (by decide) eq returned]
  decide

end PreciseGc

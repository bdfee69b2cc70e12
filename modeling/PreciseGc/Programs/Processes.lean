import PreciseGc.Mutator.Metadata
import PreciseGc.Programs.PlainOperations
import PreciseGc.Roots.FakeRootTree

/-!
# Processes

A process is a program together with its collector: the memory, the tables of
the collector, and threads with stacks and `StackMap`s.  The steps of a program
create objects, construct, assign and destroy `gc_ptr`s, dereference them and
register fake roots.  Allocations and collections may happen between any two of
them.  Every step is labelled with the action that the program means by it; the
steps without a label are those that it does not see.

A call of `gc_new` and a collection are one step each: no other thread takes a
step before they return, and the constructors that `gc_new` runs write fields
but start no collection.  How threads come to such a moment, and how they may
miss it, is the subject of `Threads`.  A `gc_ptr` whose stack flag `setNULL` has
cleared stays in the `StackMap` when it is destroyed: its word remains a root,
and the program does not use the memory for anything else.
-/

namespace PreciseGc

open Foundation Memory

/-- A thread: the words on its stack, and its `StackMap`. -/
structure Thread where
  stackWords : List Nat
  stack : StackMap

/-- What a collection reads of a thread. -/
def Thread.handler (thread : Thread) : ThreadHandler where
  stackWords := thread.stackWords
  stack := thread.stack.addresses

structure Process where
  table : DerefRoots
  heap : Heap
  threads : List Thread
  fakeRoots : FakeRoots

/-- What the program does to its objects, in terms of the places it knows. -/
abbrev ProgramAction := Foundation.Action RootName Nat Content

/-- The addresses in the `StackMap`s. -/
def registered (threads : List Thread) : List Nat :=
  threads.flatMap fun thread => thread.stack.addresses

/-- The words on the stacks. -/
def stackWords (threads : List Thread) : List Nat := threads.flatMap Thread.stackWords

/-- The words of the shell of the object in the block `b`. -/
def InShell (m : Memory) (b x : Nat) : Prop :=
  shellOf m b ≤ x ∧ x < shellOf m b + 8 * (2 + shellCount m (shellOf m b))

namespace Process

def handlers (s : Process) : List ThreadHandler := s.threads.map Thread.handler

/-- The registered `gc_ptr`s. -/
def cells (s : Process) : List Nat := registered s.threads ++ s.fakeRoots.nodes.map Prod.snd

/-- The objects as the program sees them. -/
def store (s : Process) : Store Nat RootName Nat Content :=
  heapStore s.handlers s.fakeRoots s.table s.heap

def setMem (s : Process) (m : Memory) : Process := { s with heap := { s.heap with mem := m } }

/-- What `m`, the thread between `before` and `after`, leaves of the process. -/
def resume (s : Process) (before : List Thread) (thread : Thread) (after : List Thread)
    (m : Mutator.State) : Process :=
  { s.setMem m.word with threads := before ++ { thread with stack := m.stack } :: after }

/-- The thread sees the memory and its `StackMap`, outside of the constructors of `gc_new`. -/
structure Sees (s : Process) (thread : Thread) (m : Mutator.State) : Prop where
  word : m.word = s.heap.mem
  stack : m.stack = thread.stack
  outside : m.tlflags.newActive = false

/-- The `gc_ptr` at an address is that at the end of an access path. -/
inductive Denotes (s : Process) : AccessPath RootName Nat → Nat → Prop where
  | cell {a : Nat} : a ∈ s.cells → Denotes s ⟨.cell a, []⟩ a
  | slot {path : AccessPath RootName Nat} {b o : Nat} : s.store.follow path = some b →
      b + o ∈ slotsOf s.heap.mem b → Denotes s (path.snoc o) (b + o)

/-- A word that is neither in the heap nor a registered `gc_ptr` nor part of a fake root. -/
structure Apart (pf : Platform) (s : Process) (x : Nat) : Prop where
  foreign : Foreign pf s.heap x
  notCell : x ∉ s.cells
  notNode : ¬NodeWord s.fakeRoots x

/-- A word that only the program uses.  The word of a `gc_ptr` that was destroyed is one if its
address has left the `StackMap`. -/
structure FreeWord (pf : Platform) (s : Process) (x : Nat) : Prop extends Apart pf s x where
  notShell : ∀ b, ObjectBlock s.heap b → ¬InShell s.heap.mem b x

end Process

/-- Write values to addresses, one after the other. -/
def writeWords (words : List (Nat × Nat)) (m : Memory) : Memory :=
  words.foldl (fun m word => m.write word.1 word.2) m

/-- The parameters of `gc_new<T>(count)`: the `sizeof` of `T`, its shell and the offsets of its
`gc_ptr`s, and what the constructors write to other fields, relative to the first element. -/
structure Creation where
  size : Nat
  count : Nat
  shell : Nat
  offsets : List Nat
  fields : List (Nat × Nat)

namespace Creation

variable (new : Creation)

/-- `sizeof(T) * count + sizeof(meta<T>)`. -/
def bytes : Nat := new.size * new.count + sizeofBaseMeta

/-- The constructors write their fields, and `gc_new` writes the `shell` and the `count`. -/
def writes (b : Nat) : List (Nat × Nat) :=
  (new.fields.map fun field => (objectOf b + field.1, field.2)) ++
    [(blockData b + 8, new.shell), (blockData b + 16, new.count)]

/-- The memory with the new object in the block `b`. -/
def construct (b : Nat) (m : Memory) : Memory := writeWords (new.writes b) m

/-- `create_meta` has made the shell of the class, and the constructors of the elements write into
the elements, and null to the `gc_ptr`s. -/
structure Fits (pf : Platform) (s : Process) : Prop where
  shell : ∀ i < new.offsets.length + 2, s.heap.mem (new.shell + 8 * i) =
    (Mutator.createMeta new.size new.offsets).getD i 0
  apart : ∀ x, new.shell ≤ x → x < new.shell + 8 * (2 + new.offsets.length) → s.Apart pf x
  inside : ∀ o ∈ new.offsets, o + 8 ≤ new.size
  nodup : new.offsets.Nodup
  few : new.offsets.length < 2 ^ 31
  fields : ∀ field ∈ new.fields, field.1 < new.size * new.count ∧
    ∀ i < new.count, ∀ o ∈ new.offsets, field.1 ≠ i * new.size + o

end Creation

namespace Process

/-- The `gc_ptr` that the constructor copies is the source of the action. -/
inductive Copies (s : Process) :
    Mutator.Initializer → Option (AccessPath RootName Nat) → Prop where
  | byDefault : Copies s .byDefault none
  | byCopy {path : AccessPath RootName Nat} {p : Nat} : s.Denotes path p →
      Copies s (.byCopy p) (some path)

/-- The stacks hold the same pointers to dereferenced objects, apart from the word `w`. -/
def SameWords (s : Process) (threads : List Thread) (except : Nat → Prop) : Prop :=
  ∀ w, ¬except w → wordTarget s.table s.heap w ≠ none →
    (w ∈ stackWords threads ↔ w ∈ stackWords s.threads)

/-- The words of stacks that find the handler of a range lead to the object `b` already, apart from
the start of the range. -/
def OnlyPointers (s : Process) (b : Nat) (r : Mutator.Registration) : Prop :=
  ∀ w ∈ stackWords s.threads, w ≠ r.root → hashOfRoot w = hashOfRoot r.root → r.root ≤ w →
    w ≤ r.root + r.size → wordTarget s.table s.heap w = some b

/-- What the destruction of the `gc_ptr` at `a` means to the program.  The address may stay
registered: in the `StackMap` if `setNULL` has cleared the stack flag, or as a fake root. -/
def destruction (a : Nat) (s' : Process) : Option ProgramAction :=
  if a ∈ s'.cells then none else some (.assignRoot (.cell a) none)

/-- The steps of a process. -/
inductive ProgramStep (pf : Platform) : Option ProgramAction → Process → Process → Prop where
  | create {s : Process} {new : Creation} {expand : Bool} {b a : Nat} {h : Heap}
      {before after : List Thread} {thread : Thread} {m m' : Mutator.State}
      {isHeapPointer : Nat → Bool} : s.threads = before ++ thread :: after → new.Fits pf s →
      new.bytes < 2 ^ 63 → gcmallocLocked pf new.bytes expand s.heap = .ok (blockData b, h) →
      s.FreeWord pf a → a ≠ 0 → a < new.shell ∨ new.shell + 8 * (2 + new.offsets.length) ≤ a →
      Sees ({ s with heap := h }.setMem (new.construct b h.mem)) thread m →
      m.pointerConstruct isHeapPointer a (objectOf b) = .ok m' →
      ProgramStep pf (some (.create (.cell a) (contentOf (new.construct b h.mem) b))) s
        ({ s with heap := h }.resume before thread after m')
  | construct {s : Process} {a : Nat} {init : Mutator.Initializer}
      {source : Option (AccessPath RootName Nat)} {before after : List Thread} {thread : Thread}
      {m m' : Mutator.State} {isHeapPointer : Nat → Bool} :
      s.threads = before ++ thread :: after → s.FreeWord pf a → a ≠ 0 → s.Copies init source →
      s.Sees thread m → Mutator.State.construct isHeapPointer a init m = .ok m' →
      ProgramStep pf (some (.assignRoot (.cell a) source)) s (s.resume before thread after m')
  | destruct {s : Process} {a : Nat} {before after : List Thread} {thread : Thread}
      {m m' : Mutator.State} : s.threads = before ++ thread :: after →
      a ∈ thread.stack.addresses → s.Sees thread m → m.destruct a = .ok m' →
      ProgramStep pf (destruction a (s.resume before thread after m')) s
        (s.resume before thread after m')
  | assign {s : Process} {target source : AccessPath RootName Nat} {this a : Nat}
      {before after : List Thread} {thread : Thread} {m m' : Mutator.State} :
      s.threads = before ++ thread :: after → s.Denotes target this → s.Denotes source a →
      s.Sees thread m → m.assign this a = .ok m' →
      ProgramStep pf (some (Foundation.Action.assign target (some source))) s
        (s.resume before thread after m')
  | setNULL {s : Process} {target : AccessPath RootName Nat} {this : Nat}
      {before after : List Thread} {thread : Thread} {m m' : Mutator.State} :
      s.threads = before ++ thread :: after → s.Denotes target this → s.Sees thread m →
      m.setNULL this = .ok m' →
      ProgramStep pf (some (Foundation.Action.assign target none)) s
        (s.resume before thread after m')
  | modify {s : Process} {target : AccessPath RootName Nat} {b o value : Nat} :
      s.store.follow target = some b → sizeofBaseMeta ≤ o → o < blockSize (s.heap.mem b) →
      blockData b + o ∉ slotsOf s.heap.mem b →
      ProgramStep pf
        (some (.modify target (contentOf (s.heap.mem.write (blockData b + o) value) b))) s
        (s.setMem (s.heap.mem.write (blockData b + o) value))
  | dereference {s : Process} {op : Mutator.Operator} {sizeofT this b : Nat}
      {source : AccessPath RootName Nat} {r : Mutator.Registration} {space : Option Nat}
      {gcFalse : DerefRoots → Except Fault DerefRoots} {t : DerefRoots} : s.Denotes source this →
      s.store.follow source = some b →
      r ∈ (op.apply id sizeofT this s.heap.mem).registrations →
      sizeofT ≤ shellSize s.heap.mem (shellOf s.heap.mem b) → r.root ∈ stackWords s.threads →
      s.OnlyPointers b r →
      (gcFalse = .ok ∨ ∃ fuel, gcFalse = cleanDerefRoots fuel s.handlers s.heap) →
      registerDereferencedRoot space gcFalse r.root r.size s.table = .ok t →
      ProgramStep pf (some (.assignRoot (.word r.root) (some source))) s { s with table := t }
  | word {s : Process} {w : Nat} {source : Option (AccessPath RootName Nat)}
      {threads : List Thread} : (registered threads).Perm (registered s.threads) →
      s.SameWords threads (· = w) →
      { s with threads := threads }.store.root (.word w) = s.store.value source →
      ProgramStep pf (some (.assignRoot (.word w) source)) s { s with threads := threads }
  | registerObject {s : Process} {a newNode x : Nat} {source : Option (AccessPath RootName Nat)} :
      Foreign pf s.heap a → a ≠ 0 → ¬NodeWord s.fakeRoots a →
      (∀ b, ObjectBlock s.heap b → ¬InShell s.heap.mem b a) → PlainWord s.heap (s.heap.mem a) →
      s.store.value source = pointee (s.heap.mem a) → newNode = blockData x → s.FreeWord pf x →
      x ≠ a → ProgramStep pf (some (.assignRoot (.cell a) source)) s
        { s with fakeRoots := s.fakeRoots.registerObject newNode a }
  | unregisterObject {s : Process} {a : Nat} :
      a ∉ { s with fakeRoots := s.fakeRoots.unregisterObject a }.cells →
      ProgramStep pf (some (.assignRoot (.cell a) none)) s
        { s with fakeRoots := s.fakeRoots.unregisterObject a }
  | refused {s : Process} {bytes : Nat} {expand : Bool} {h : Heap} : bytes < 2 ^ 63 →
      gcmallocLocked pf bytes expand s.heap = .ok (0, h) →
      ProgramStep pf none s { s with heap := h }
  | write {s : Process} {x value : Nat} : s.FreeWord pf x →
      ProgramStep pf none s (s.setMem (s.heap.mem.write x value))
  | frames {s : Process} {threads : List Thread} :
      (registered threads).Perm (registered s.threads) → s.SameWords threads (fun _ => False) →
      ProgramStep pf none s { s with threads := threads }
  | partialCollection {s : Process} {fuel : Nat} {t : DerefRoots} :
      cleanDerefRoots fuel s.handlers s.heap s.table = .ok t →
      ProgramStep pf none s { s with table := t }
  | fullCollection {s : Process} {fuel : Nat} {bigs : List Nat} {t : DerefRoots} {h : Heap} :
      Chain (bigNext s.heap.mem) s.heap.firstBigBlock bigs →
      Harmless s.handlers s.fakeRoots s.table s.heap bigs →
      markAndSweep pf fuel s.handlers s.fakeRoots (s.table, s.heap) = .ok (t, h) →
      ProgramStep pf none s { s with table := t, heap := h }

/-- The program sees the action, and nothing of a step without one. -/
def Performs (s : Process) : Option ProgramAction → Process → Prop
  | none, s' => s.store.Alike s'.store
  | some action, s' => ∃ store, s.store.Executes action store ∧ store.Alike s'.store

/-- A process that has not allocated or registered anything yet. -/
structure Starting (pf : Platform) (s : Process) : Prop where
  small : pf.bigBlockThreshold < freeBlocksLength
  heap : Initial s.heap
  table : s.table = {}
  registered : registered s.threads = []
  fakeRoots : s.fakeRoots = .null

end Process

end PreciseGc

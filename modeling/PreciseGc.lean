import PreciseGc.Allocator.BigMappings
import PreciseGc.Allocator.BlockInvariant
import PreciseGc.Allocator.Blocks
import PreciseGc.Allocator.ForeignWords
import PreciseGc.Allocator.Gcmalloc
import PreciseGc.Allocator.HeaderFlags
import PreciseGc.Allocator.MappingTable
import PreciseGc.Allocator.Membership
import PreciseGc.Allocator.NewElements
import PreciseGc.Allocator.PageOwnership
import PreciseGc.Allocator.PageSizes
import PreciseGc.Allocator.Requests
import PreciseGc.Allocator.Runs
import PreciseGc.Allocator.SmallRequests
import PreciseGc.Allocator.Sweeping
import PreciseGc.Foundation.Approximation
import PreciseGc.Foundation.BinaryFloat
import PreciseGc.Foundation.ByteMemory
import PreciseGc.Foundation.Chain
import PreciseGc.Foundation.CountedLoop
import PreciseGc.Foundation.FlagWord
import PreciseGc.Foundation.HashChains
import PreciseGc.Foundation.Memory
import PreciseGc.Foundation.ObjectStore
import PreciseGc.Foundation.Outcome
import PreciseGc.Foundation.Program
import PreciseGc.Foundation.Record
import PreciseGc.Foundation.ReferenceCounts
import PreciseGc.Foundation.SearchTree
import PreciseGc.Foundation.Tiling
import PreciseGc.Foundation.Transition
import PreciseGc.Heap.Arena
import PreciseGc.Heap.Buckets
import PreciseGc.Heap.Layout
import PreciseGc.Heap.Objects
import PreciseGc.Heap.PageAllocation
import PreciseGc.Heap.PageMappings
import PreciseGc.Heap.PageRequests
import PreciseGc.Heap.Pages
import PreciseGc.Heap.PartsWrites
import PreciseGc.Heap.Pointers
import PreciseGc.Heap.Statics
import PreciseGc.Heap.Sweep
import PreciseGc.Heap.Traversal
import PreciseGc.Mark.Accesses
import PreciseGc.Mark.Exactness
import PreciseGc.Mark.Marking
import PreciseGc.Mark.Reachability
import PreciseGc.Mark.Recording
import PreciseGc.Mark.Scanning
import PreciseGc.Mark.SlotLoops
import PreciseGc.Mark.StackBound
import PreciseGc.Mark.Termination
import PreciseGc.Mark.Traversal
import PreciseGc.Mutator.Attachments
import PreciseGc.Mutator.Comparisons
import PreciseGc.Mutator.Dereference
import PreciseGc.Mutator.Exceptions
import PreciseGc.Mutator.GcNew
import PreciseGc.Mutator.GcPtr
import PreciseGc.Mutator.Invariants
import PreciseGc.Mutator.LinkedStackMap
import PreciseGc.Mutator.Metadata
import PreciseGc.Mutator.ReferenceCounts
import PreciseGc.Mutator.References
import PreciseGc.Mutator.Scopes
import PreciseGc.Mutator.StackFlags
import PreciseGc.Mutator.StackMap
import PreciseGc.Mutator.ThreadStacks
import PreciseGc.Programs.Allocations
import PreciseGc.Programs.Assignments
import PreciseGc.Programs.Collections
import PreciseGc.Programs.Comparisons
import PreciseGc.Programs.PlainOperations
import PreciseGc.Programs.Processes
import PreciseGc.Programs.Progress
import PreciseGc.Programs.RootChanges
import PreciseGc.Programs.Soundness
import PreciseGc.Programs.Transparency
import PreciseGc.Roots.Accesses
import PreciseGc.Roots.CollectedObjects
import PreciseGc.Roots.CollectedWords
import PreciseGc.Roots.DerefRoots
import PreciseGc.Roots.ExactMarks
import PreciseGc.Roots.FakeRootReferences
import PreciseGc.Roots.FakeRootTree
import PreciseGc.Roots.FakeRoots
import PreciseGc.Roots.Fuel
import PreciseGc.Roots.HandlerMarks
import PreciseGc.Roots.HeaderAccesses
import PreciseGc.Roots.HeapStores
import PreciseGc.Roots.MarkAndSweep
import PreciseGc.Roots.MarkPhase
import PreciseGc.Roots.Overflow
import PreciseGc.Roots.Pinning
import PreciseGc.Roots.PlainCollections
import PreciseGc.Roots.Recovery
import PreciseGc.Roots.Restarts
import PreciseGc.Roots.RootRecords
import PreciseGc.Roots.RootRuns
import PreciseGc.Roots.RootSweep
import PreciseGc.Roots.RootTable
import PreciseGc.Roots.SurvivingRoots
import PreciseGc.Roots.TableRuns
import PreciseGc.Sweep.BigBlocks
import PreciseGc.Sweep.BigList
import PreciseGc.Sweep.Classify
import PreciseGc.Sweep.Collection
import PreciseGc.Sweep.Completion
import PreciseGc.Sweep.Composites
import PreciseGc.Sweep.CopyBlock
import PreciseGc.Sweep.Evacuate
import PreciseGc.Sweep.FixPass
import PreciseGc.Sweep.FreeTails
import PreciseGc.Sweep.Fuel
import PreciseGc.Sweep.InertRecords
import PreciseGc.Sweep.LargeObjects
import PreciseGc.Sweep.Mappings
import PreciseGc.Sweep.RecordMarks
import PreciseGc.Sweep.Recycle
import PreciseGc.Sweep.Redirect
import PreciseGc.Sweep.Relocation
import PreciseGc.Sweep.Survivors
import PreciseGc.Threads.Construction
import PreciseGc.Threads.FullCollections
import PreciseGc.Threads.HandlerCustody
import PreciseGc.Threads.HandlerPool
import PreciseGc.Threads.Handlers
import PreciseGc.Threads.Lookup
import PreciseGc.Threads.Protocol
import PreciseGc.Threads.Registry
import PreciseGc.Threads.Safepoints
import PreciseGc.Threads.Steps
import PreciseGc.Threads.StopTheWorld
import PreciseGc.Threads.ThreadList
import PreciseGc.Threads.WakeUps
import PreciseGc.TypeBoxes.Boxes
import PreciseGc.TypeBoxes.Descriptors

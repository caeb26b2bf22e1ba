import SystemsProjects.Lib.Exec
import SystemsProjects.Lib.NextChain
import SystemsProjects.DataStructures.RingBuffer
import SystemsProjects.DataStructures.RingBufferFifo
import SystemsProjects.DataStructures.NodeStack
import SystemsProjects.DataStructures.NodeStackLifo
import SystemsProjects.Lib.CInt
import SystemsProjects.Lib.Latest
import SystemsProjects.CacheSimulator.BinaryString
import SystemsProjects.CacheSimulator.Simulator
import SystemsProjects.CacheSimulator.DirectMapped
import SystemsProjects.Painters.Canvas
import SystemsProjects.Painters.Exclusion
import SystemsProjects.Lib.InsertionMap
import SystemsProjects.Lib.Loop
import SystemsProjects.Hashmap.Heap
import SystemsProjects.Hashmap.Operations
import SystemsProjects.Hashmap.Chains
import SystemsProjects.Hashmap.Changes
import SystemsProjects.Hashmap.Refinement
import SystemsProjects.Allocator.BlockStore
import SystemsProjects.Allocator.FreeList
import SystemsProjects.MemoryAllocator1.Mymalloc
import SystemsProjects.MemoryAllocator1.HeapInvariant
import SystemsProjects.AdvancedMemory.Mymalloc
import SystemsProjects.AdvancedMemory.Sections
import SystemsProjects.AdvancedMemory.Layout
import SystemsProjects.AdvancedMemory.CpuLists
import SystemsProjects.AdvancedMemory.Migration
import SystemsProjects.AdvancedMemory.Regions
import SystemsProjects.AdvancedMemory.Threads
import SystemsProjects.AdvancedMemory.ThreadSafety
import SystemsProjects.Lib.Strtok
import SystemsProjects.Shell.Session
import SystemsProjects.Shell.Rounds
import SystemsProjects.Shell.Survival
import SystemsProjects.Shell.Descriptors
import SystemsProjects.Painters.Wandering
import SystemsProjects.Painters.Islands
import SystemsProjects.Painters.LockDiscipline
import SystemsProjects.Hashmap.Lifetime
import SystemsProjects.Hashmap.Ownership
import SystemsProjects.Hashmap.NewMap
import SystemsProjects.Hashmap.StringRoom
import SystemsProjects.AdvancedMemory.LockBalance
import SystemsProjects.AdvancedMemory.Tiling
import SystemsProjects.Lib.BestFit
import SystemsProjects.AdvancedMemory.Records
import SystemsProjects.AdvancedMemory.OneList
import SystemsProjects.AdvancedMemory.SteadyState
import SystemsProjects.Shell.History
import SystemsProjects.Lib.Rounds
import SystemsProjects.MemoryAllocator1.Reuse
import SystemsProjects.CacheSimulator.Encoding
import SystemsProjects.MemoryAllocator1.ProgramBreak
import SystemsProjects.CacheSimulator.TraceFile
import SystemsProjects.CacheSimulator.RealisticTrace
import SystemsProjects.CacheSimulator.ShortTrace
import SystemsProjects.Lib.Prog
import SystemsProjects.Lib.Cells
import SystemsProjects.Lib.Team
import SystemsProjects.Parallel.Quicksort
import SystemsProjects.Parallel.Branches
import SystemsProjects.Assembly.Machine
import SystemsProjects.Assembly.Parsing
import SystemsProjects.Assembly.Printing
import SystemsProjects.Assembly.Calculator
import SystemsProjects.Hashmap.BucketIndex
import SystemsProjects.MemoryAllocator1.ForeignFree
import SystemsProjects.CacheSimulator.CycleTraces
import SystemsProjects.DataStructures.NodeStackFree
import SystemsProjects.Lib.Scanf
import SystemsProjects.DataStructures.LinkedList
import SystemsProjects.Avx.Increment
import SystemsProjects.AdvancedMemory.BoundedWaste
import SystemsProjects.Assembly.CycleTool
import SystemsProjects.Assembly.Instructions
import SystemsProjects.Lib.Buffers
import SystemsProjects.Shell.Splitting
import SystemsProjects.Allocator.ZeroedBlocks
import SystemsProjects.MemoryAllocator1.Mycalloc
import SystemsProjects.AdvancedMemory.EndingLists
import SystemsProjects.AdvancedMemory.Payloads
import SystemsProjects.AdvancedMemory.Mycalloc
import SystemsProjects.Allocator.CallocContract
import SystemsProjects.Allocator.OptimalBlocks
import SystemsProjects.CacheSimulator.BitCodec
import SystemsProjects.Lib.OwnCells
import SystemsProjects.Parallel.StridedSum
import SystemsProjects.Lib.Crash
import SystemsProjects.Xv6.Log
import SystemsProjects.Xv6.CrashSafety
import SystemsProjects.Xv6.LogRoom
import SystemsProjects.Xv6.Grep
import SystemsProjects.Lib.Yields
import SystemsProjects.Xv6.ShellParser
import SystemsProjects.Xv6.ShellAccepts
import SystemsProjects.Xv6.ShellRoundTrip
import SystemsProjects.Xv6.Pipe
import SystemsProjects.Xv6.PipeRuns
import SystemsProjects.Lib.Ring
import SystemsProjects.Lib.Tiles
import SystemsProjects.Xv6.Umalloc
import SystemsProjects.Xv6.UmallocRuns
import SystemsProjects.Lib.DoublyLinked
import SystemsProjects.Xv6.BufferCache
import SystemsProjects.Xv6.BufferCacheRuns
import SystemsProjects.Xv6.BufferCoherence
import SystemsProjects.Xv6.Processes
import SystemsProjects.Xv6.ProcessTree
import SystemsProjects.Xv6.ProcessAccount
import SystemsProjects.Lib.Bitmap
import SystemsProjects.Lib.Holds
import SystemsProjects.Lib.Layout
import SystemsProjects.Lib.Overwrite
import SystemsProjects.Xv6.InodeBlocks
import SystemsProjects.Xv6.InodeBytes
import SystemsProjects.Xv6.FileStore

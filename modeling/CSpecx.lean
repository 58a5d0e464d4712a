import CSpecx.CExec
import CSpecx.Component
import CSpecx.CellMemory
import CSpecx.CircularBuffer
import CSpecx.CircularBufferFifo
import CSpecx.CircularBufferRuns
import CSpecx.GranularLock
import CSpecx.GranularLockRuns
import CSpecx.ProbeTable
import CSpecx.RobinHood
import CSpecx.RobinHoodFull
import CSpecx.RobinHoodMap
import CSpecx.SlabAllocator
import CSpecx.SlabAllocatorRuns
import CSpecx.SlabLifetimes
import CSpecx.ArrayAgreement
import CSpecx.BlockRandom
import CSpecx.EchoBounds
import CSpecx.EchoCalls
import CSpecx.EchoCrowds
import CSpecx.EchoOwnership
import CSpecx.FileReads
import CSpecx.FileWrites
import CSpecx.PeriodicTask
import CSpecx.Census
import CSpecx.GuardedSections
import CSpecx.Latch
import CSpecx.HashTableThreads
import CSpecx.HashTableVisits
import CSpecx.GranularLockDrain
import CSpecx.LockHierarchy
import CSpecx.IntrusiveLists
import CSpecx.SpxLatch
import CSpecx.HashTable
import CSpecx.HashTableClients
import CSpecx.RobinHoodManual
import CSpecx.RobinHoodManualRuns
import CSpecx.BumpBlocks
import CSpecx.ChunkAlloc
import CSpecx.ChunkAllocSteps
import CSpecx.ChunkReuse
import CSpecx.ChunkAllocLimits
import CSpecx.ArenaContents
import CSpecx.HashTableRuns
import CSpecx.PeriodicTaskRuns
import CSpecx.SpxLatchProgress
import CSpecx.BlockArrayRuns
import CSpecx.EmptySelections
import CSpecx.PartialElements
import CSpecx.PollingAlignment
import CSpecx.PollingPasses
import CSpecx.CircularBufferFiles
import CSpecx.CircularBufferPairs
import CSpecx.CircularBufferViews
import CSpecx.CircularBufferWraps
import CSpecx.CircularBufferElements
import CSpecx.CircularBufferEnds
import CSpecx.ChunkAllocAsserts
import CSpecx.LinearAllocatorRuns
import CSpecx.SlabSlots
import CSpecx.StridePositions
import CSpecx.Slices
import CSpecx.StrideResolve
import CSpecx.StridedItems
import CSpecx.SlicedArrays
import CSpecx.Serializers
import CSpecx.MallocPlans
import CSpecx.Streams
import CSpecx.StreamCopies
import CSpecx.DoubleBuffers
import CSpecx.GrowingBuffers
import CSpecx.DifferentialTests
import CSpecx.StreamStaging
import CSpecx.StreamLimits
import CSpecx.ByteStrings
import CSpecx.StringOrder
import CSpecx.StringSearch
import CSpecx.CheckedArithmetic
import CSpecx.ParseNumbers
import CSpecx.CyclicChecks
import CSpecx.Checksums
import CSpecx.CyclicFrames
import CSpecx.ChecksumFrames
import CSpecx.RandomRanges
import CSpecx.RandomDraws
import CSpecx.RobinHoodManualFull
import CSpecx.BinaryFloats
import CSpecx.HalfFloats
import CSpecx.Hashing
import CSpecx.AcceptedWriters
import CSpecx.SharedCalls
import CSpecx.SerializerThreads
import CSpecx.LinearAllocatorThreads
import CSpecx.ExchangeShuffle
import CSpecx.Shuffles
import CSpecx.Reallocs

import HopeThreading.Queue.MpmcBounded
import HopeThreading.Queue.MpmcBoundedInv
import HopeThreading.Queue.MpmcBoundedSafety
import HopeThreading.Queue.MpmcBoundedSequential
import HopeThreading.Memory.Chain
import HopeThreading.Memory.Release
import HopeThreading.Transition.Peak
import HopeThreading.Queue.Mpsc
import HopeThreading.Queue.MpscInv
import HopeThreading.Queue.MpscConsumer
import HopeThreading.Queue.MpscSafety
import HopeThreading.Queue.MpscNodes
import HopeThreading.Queue.MpscRelease
import HopeThreading.Sync.RecursiveRwSpinlock
import HopeThreading.Sync.RecursiveSpinlock
import HopeThreading.Sync.RecursiveSpinlockSafety
import HopeThreading.Sync.LinuxExclusion
import HopeThreading.Sync.ContentionFreeRwLock
import HopeThreading.Sync.SeqLock
import HopeThreading.Sync.SeqLockRegister
import HopeThreading.Hashing.Table
import HopeThreading.Hashing.Growth
import HopeThreading.Hashmap.HashStorage
import HopeThreading.Hashmap.HashStorageLinear
import HopeThreading.Hashmap.HashStorageSequential
import HopeThreading.Hashmap.HashStorageGrowth
import HopeThreading.Hashmap.HashStorageNodes
import HopeThreading.Memory.Bytes
import HopeThreading.Queue.SpmcNonUniform
import HopeThreading.Queue.SpmcNonUniformRecords
import HopeThreading.Queue.SpmcNonUniformSequential
import HopeThreading.Queue.SpmcNonUniformInside
import HopeThreading.Queue.SpmcNonUniformInv
import HopeThreading.Queue.SpmcNonUniformDelivery
import HopeThreading.Queue.SpmcNonUniformLagging
import HopeThreading.Sync.RwSpinlock
import HopeThreading.Sync.ContentionFreeReaders
import HopeThreading.Sync.RecursiveRwSafety
import HopeThreading.Sync.RecursiveRwOutlasting
import HopeThreading.Queue.MpscBounded
import HopeThreading.Queue.MpscBoundedInv
import HopeThreading.Queue.MpscBoundedSafety
import HopeThreading.Queue.SpscBounded
import HopeThreading.Queue.Spsc
import HopeThreading.Queue.SpscInv
import HopeThreading.Queue.SpscSafety
import HopeThreading.Queue.SpscNodes
import HopeThreading.Queue.Sutter
import HopeThreading.Queue.SutterInv
import HopeThreading.Queue.SutterSafety
import HopeThreading.Transition.Broadcast
import HopeThreading.Transition.Picks
import HopeThreading.Transition.History
import HopeThreading.Queue.SpmcMessage
import HopeThreading.Queue.SpmcMessageDelivery
import HopeThreading.Queue.SpmcMessageSequential
import HopeThreading.Runtime.ThreadPool
import HopeThreading.Runtime.ThreadPoolWakeup
import HopeThreading.Runtime.ThreadPoolInv
import HopeThreading.Runtime.ThreadPoolCalls
import HopeThreading.Runtime.ThreadPoolSafety
import HopeThreading.Runtime.ThreadPoolItems
import HopeThreading.Runtime.ThreadPoolSchedule
import HopeThreading.Runtime.AsyncWorker
import HopeThreading.Runtime.AsyncWorkerWakeup
import HopeThreading.Platform.SharedMemory
import HopeThreading.Platform.SharedMemoryAgreement
import HopeThreading.Transition.Ownership
import HopeThreading.Platform.SharedMemoryHandles
import HopeThreading.Platform.SharedMemoryRefinement
import HopeThreading.Platform.SharedMemoryBacked
import HopeThreading.Queue.MpmcBoundedRefusal
import HopeThreading.Queue.MpscBoundedRefusal
import HopeThreading.Hashmap.HashStorageContention
import HopeThreading.Hashmap.HashStorageThrowing
import HopeThreading.Hashmap.HashStorageSeparation
import HopeThreading.Runtime.ThreadPoolWrappers
import HopeThreading.Runtime.ThreadPoolOverflow
import HopeThreading.Runtime.ThreadPoolRelease
import HopeThreading.Core.TaggedPointer
import HopeThreading.Sync.RecursiveRwUpgrade
import HopeThreading.Sync.ObjectSafeWrapper
import HopeThreading.Hashmap.StlChunkedSet
import HopeThreading.Queue.MpmcBoundedProgress
import HopeThreading.Transition.Calls
import HopeThreading.Transition.Buffer
import HopeThreading.Queue.SutterLinear
import HopeThreading.Queue.SpscLinear
import HopeThreading.Queue.MpmcBoundedLinear
import HopeThreading.Transition.Simulation
import HopeThreading.Runtime.AsyncWorkerImpl
import HopeThreading.Runtime.AsyncWorkerTickets
import HopeThreading.Runtime.AsyncWorkerQueue
import HopeThreading.Runtime.AsyncWorkerRefinement
import HopeThreading.Queue.MpscLinear
import HopeThreading.Runtime.AsyncWorkerDelivery
import HopeThreading.Hashing.Count
import HopeThreading.Hashmap.HashStorageSize
import HopeThreading.Hashmap.HashStorageWords
import HopeThreading.Hashmap.HashStorageProgress

import K42.Lib.Run
import K42.Lib.Word
import K42.Lib.Interval
import K42.Lib.BinTree
import K42.Lib.Bitmap
import K42.Sys.SysStatus
import K42.Mem.RegionList
import K42.Alloc.PageAllocatorDefault
import K42.Alloc.FreeTree
import K42.Alloc.PageAllocatorSpec
import K42.Alloc.PageAllocatorRuns
import K42.KFS.SuperBlock
import K42.KFS.BlockCache
import K42.KFS.BlockCacheFlush
import K42.KFS.RecordMap
import K42.KFS.LinkRuns
import K42.Lib.Bytes
import K42.KFS.Directory
import K42.KFS.DirectoryMap
import K42.KFS.PSOSmall
import K42.KFS.BlockMapRuns
import K42.Exception.KernelTimer
import K42.Exception.DispatchHeap
import K42.Exception.DispatchQueue
import K42.Exception.DispatchInvariant
import K42.Exception.DispatchSteps
import K42.Exception.DispatchSound
import K42.Exception.DispatchRuns
import K42.Exception.DispatchStats
import K42.Misc.DHashTable
import K42.Misc.DHashTableRuns
import K42.Lib.AutoList
import K42.Scheduler.SchedulerTimer
import K42.Scheduler.SchedulerTimerRuns
import K42.Lib.Threads
import K42.Sync.RequestCount
import K42.Lib.Ring
import K42.Misc.SharedBuffer
import K42.Misc.SSACSimplePartitionedArray
import K42.Swap.BlockSet
import K42.Swap.DiskSwap
import K42.Lib.Deque
import K42.Lib.Places
import K42.Mem.FreeFrameList
import K42.Mem.PMRoot
import K42.Mem.PMRootRuns
import K42.Lib.Assoc
import K42.Mem.PageList
import K42.Mem.FCMDefault
import K42.Mem.FCMDefaultRuns
import K42.Mem.FCMDefaultPager
import K42.Mem.ForkCopy
import K42.Mem.ForkTree
import K42.Sync.RequestCountWithStop
import K42.Mem.VPSet
import K42.Mem.UnmapBarrier
import K42.Sync.BaseUnFairBLock
import K42.Lib.Phases
import K42.Sync.Barrier
import K42.Sync.RWLock
import K42.Lib.LateLinked
import K42.Sync.FairBLock
import K42.Sync.BitBLock
import K42.Mem.SegmentList
import K42.Mem.HATDefault
import K42.Mem.FCMCommon
import K42.Lib.WaitFor
import K42.Mem.HATLocks
import K42.Swap.FRComputation
import K42.Swap.PageOut
import K42.Sync.RequestCountCalls
import K42.Mem.RegionDefault
import K42.Mem.KernelPagingTransport
import K42.Cobj.XHandleTrans
import K42.Lib.Components
import K42.Io.PathName
import K42.Io.PathNameLexical
import K42.Lib.PathTree
import K42.Sys.MountPointMgrCommon
import K42.Sys.MountLookup
import K42.Sys.MountMarshal
import K42.Lib.Circle
import K42.Exception.CPUDomainRing
import K42.Exception.PriorityMantissa
import K42.Exception.KernelTimerDeadline
import K42.Exception.PriorityDecay
import K42.Alloc.PageAllocatorAt
import K42.Alloc.PageAllocatorAlign
import K42.Scheduler.SchedulerTimerDelivery
import K42.Sys.MountLinks
import K42.Mem.RegionListReserve
import K42.Mem.RegionListFrame
import K42.Alloc.MemoryMgrPrimitive
import K42.Alloc.GMalloc
import K42.Alloc.PageAllocatorUser
import K42.Alloc.PageAllocatorRecords
import K42.KFS.GetDblk
import K42.KFS.FreeDblk
import K42.KFS.BlockMapFree
import K42.KFS.LSOBasicSymlink
import K42.Misc.DHashTableCount
import K42.Misc.MasterDHashTable
import K42.Misc.MasterDHashTableLocks
import K42.Misc.MasterDHashTableRuns
import K42.Misc.MasterDHashTableCalls
import K42.Mem.WriteFreeFreeList
import K42.Mem.PageEntry
import K42.Lib.Buckets
import K42.Mem.PageSets
import K42.Mem.PageSetsRefinement
import K42.Mem.PageSet
import K42.Mem.PageListLinks
import K42.Mem.PageSetDense
import K42.Mem.PageSetRuns
import K42.Mem.ForkFrames
import K42.Mem.ForkLocks
import K42.Swap.BlockSetRuns
import K42.Lib.Chained
import K42.Misc.HashSimple
import K42.Misc.HashSimpleIteration
import K42.Misc.ListSimple
import K42.Mem.SegmentTable
import K42.Mem.SegmentListRestart
import K42.Sync.Sem
import K42.Misc.StringTable
import K42.Misc.BitVec
import K42.Cobj.XHandleLocks
import K42.Mem.FRPA
import K42.Mem.SegmentTableHardware
import K42.Mem.VSID
import K42.Mem.ForkPages
import K42.Mem.RegionInit
import K42.Mem.FCMFile
import K42.Io.PathFromBuf

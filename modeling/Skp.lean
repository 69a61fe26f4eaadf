import Skp.Foundations.Refinement
import Skp.Foundations.Chains
import Skp.Foundations.FiniteMap
import Skp.Foundations.Runs
import Skp.Foundations.Holder
import Skp.Foundations.Tally
import Skp.Foundations.Unrolled
import Skp.Foundations.LinkedRuns
import Skp.Foundations.Scans
import Skp.Foundations.Wrapping
import Skp.Foundations.Digits
import Skp.Foundations.Tiling
import Skp.Foundations.Placement
import Skp.Foundations.RedBlack
import Skp.Foundations.Logs
import Skp.Foundations.ByteMem
import Skp.Foundations.CTypes
import Skp.Foundations.WordLinks
import Skp.Foundations.BitWords
import Skp.Foundations.HeapOrder
import Skp.Foundations.StableMerge
import Skp.Foundations.Walks
import Skp.Foundations.Crc
import Skp.Errno
import Skp.Adt.DictModel
import Skp.Adt.DictTable
import Skp.Adt.DictInvariant
import Skp.Adt.DictRefine
import Skp.Adt.DictIter
import Skp.Adt.IdtModel
import Skp.Adt.IdtScan
import Skp.Adt.IdtRefine
import Skp.Adt.IdtRing
import Skp.Adt.RadixModel
import Skp.Adt.RadixWalk
import Skp.Adt.RadixRefine
import Skp.Adt.RadixTags
import Skp.Adt.RadixTagRuns
import Skp.Adt.RadixGang
import Skp.Adt.RadixScan
import Skp.Adt.RadixRange
import Skp.Adt.RadixFailure
import Skp.Adt.RadixRooted
import Skp.Adt.IdrModel
import Skp.Adt.IdrRuns
import Skp.Adt.RingModel
import Skp.Adt.RingInvariant
import Skp.Adt.RingSteps
import Skp.Adt.RingSafety
import Skp.Adt.RingFifo
import Skp.Adt.RingCreate
import Skp.Adt.RbtreeModel
import Skp.Adt.RbtreeShape
import Skp.Adt.RbtreeInsert
import Skp.Adt.RbtreeRebalance
import Skp.Adt.RbtreeWalk
import Skp.Adt.RbtreeErase
import Skp.Adt.RbtreeCompare
import Skp.Adt.RbtreeRuns
import Skp.Adt.RbtreePostorder
import Skp.Adt.RbtreeReplace
import Skp.Adt.HeapModel
import Skp.Adt.HeapQueue
import Skp.Adt.VectorModel
import Skp.Adt.VectorSteps
import Skp.Adt.VectorRuns
import Skp.Algorithm.HeapSortModel
import Skp.Algorithm.HeapSort
import Skp.Algorithm.ListSortModel
import Skp.Algorithm.ListSortMerge
import Skp.Algorithm.ListSort
import Skp.Adt.ListModel
import Skp.Adt.ListRuns
import Skp.Mm.BuddyModel
import Skp.Mm.BuddyCore
import Skp.Mm.BuddyLoops
import Skp.Mm.BuddyRuns
import Skp.Mm.BuddyOrder
import Skp.Mm.PageCacheModel
import Skp.Mm.PageCacheRuns
import Skp.Mm.SlabModel
import Skp.Mm.SlabInvariant
import Skp.Mm.SlabMoves
import Skp.Mm.SlabRuns
import Skp.Mm.SlabLinks
import Skp.Mm.SlabLinkSteps
import Skp.Mm.SlabHands
import Skp.Mm.UmallocSizes
import Skp.Mm.UmallocModel
import Skp.Mm.UmallocPages
import Skp.Mm.UmallocMemory
import Skp.Mm.UmallocDesc
import Skp.Mm.UmallocCalls
import Skp.Mm.UmallocFirst
import Skp.Mm.UmallocRealloc
import Skp.Mm.AlignedAlloc
import Skp.Mm.UmallocZero
import Skp.Mm.CacheSizes
import Skp.Mm.CacheFlush
import Skp.Mm.CacheMerge
import Skp.Mm.PageKinds
import Skp.Mm.ObjpoolModel
import Skp.Mm.ObjpoolOnce
import Skp.Utils.MutexModel
import Skp.Utils.MutexWakeup
import Skp.Utils.RwsemModel
import Skp.Utils.RwsemFront
import Skp.Utils.SpinlockModel
import Skp.Utils.SpinlockOwner
import Skp.Utils.RwlockModel
import Skp.Utils.RwlockCount
import Skp.Utils.Seqlock
import Skp.Utils.PbuffModel
import Skp.Utils.PbuffSpec
import Skp.Utils.PbuffBooks
import Skp.Utils.PbuffRuns
import Skp.Utils.PbuffCodec
import Skp.Utils.PbuffWrite
import Skp.Utils.PbuffStream
import Skp.Utils.Bitops
import Skp.Utils.BitmapModel
import Skp.Utils.BitmapShift
import Skp.Utils.BitmapScan
import Skp.Utils.BitmapRange
import Skp.Utils.BitmapArr32
import Skp.Utils.BitmapInline
import Skp.Utils.BitmapSets
import Skp.Utils.ParselistModel
import Skp.Utils.ParselistItem
import Skp.Utils.ParselistLoose
import Skp.Utils.Parselist
import Skp.Utils.Str2int
import Skp.Utils.Crc32
import Skp.Utils.Str2float
import Skp.Utils.FloatScan
import Skp.Utils.FloatScale
import Skp.Process.AsyncModel
import Skp.Process.EventModel
import Skp.Process.EventDeadline
import Skp.Process.FlushModel
import Skp.Process.FlushWakeup
import Skp.Process.FlushReturn
import Skp.Process.CompletionModel
import Skp.Process.CompletionWakeup
import Skp.Process.DeleteModel
import Skp.Process.DeleteQuiet
import Skp.Process.SlotIndex
import Skp.Process.StreamModel
import Skp.Process.StreamBooks
import Skp.Process.StaleEvents
import Skp.Process.RcuModel
import Skp.Process.RcuLife
import Skp.Process.RcuOnce
import Skp.Process.WaitBitModel
import Skp.Process.WaitBitServed
import Skp.Process.WaitBitRuns
import Skp.Process.WaitEventModel
import Skp.Process.WaitEventEntries
import Skp.Process.WaitEventRuns
import Skp.Process.TimerModel
import Skp.Process.TimerRemain
import Skp.Process.ThreadModel
import Skp.Process.ThreadLife
import Skp.Process.ThreadRuns
import Skp.Workqueue.Model
import Skp.Workqueue.Calls
import Skp.Workqueue.Layout
import Skp.Workqueue.Chains
import Skp.Workqueue.Inserts
import Skp.Workqueue.Moves
import Skp.Workqueue.Removal
import Skp.Workqueue.Effects
import Skp.Workqueue.Frames
import Skp.Workqueue.Ownership
import Skp.Workqueue.Control
import Skp.Workqueue.Reach
import Skp.Workqueue.Flushes
import Skp.Workqueue.Counters
import Skp.Workqueue.Active
import Skp.Workqueue.CounterRuns
import Skp.Workqueue.Order
import Skp.Workqueue.Single
import Skp.Workqueue.Alone
import Skp.Workqueue.Cancel
import Skp.Workqueue.CancelWait
import Skp.Workqueue.QueueCall
import Skp.Workqueue.Locks
import Skp.Workqueue.PoolModel
import Skp.Workqueue.PoolFills
import Skp.Workqueue.PoolWakeup
import Skp.Workqueue.PoolRuns
import Skp.Server.XprtModel
import Skp.Server.XprtCallbacks
import Skp.Server.XprtConnect
import Skp.Server.AttachModel
import Skp.Server.AttachLife
import Skp.Server.AttachSteps
import Skp.Server.AttachBooks
import Skp.Server.StreamIo

import ScaleStore.BTree.ArraySafety
import ScaleStore.BTree.LeafAccess
import ScaleStore.BTree.NodeLayout
import ScaleStore.BTree.NodeSearches
import ScaleStore.BTree.ScanRuns
import ScaleStore.BTree.Structure
import ScaleStore.Buffers.MonotonicBuffer
import ScaleStore.Buffers.PagePool
import ScaleStore.Buffers.PartitionedQueue
import ScaleStore.Eviction.Handshake
import ScaleStore.Eviction.Responses
import ScaleStore.Guards.Conversions
import ScaleStore.Latches.OptimisticLatch
import ScaleStore.Mailbox.Answers
import ScaleStore.Mailbox.CopyTracking
import ScaleStore.Mailbox.Invalidations
import ScaleStore.Mailbox.PageWrites
import ScaleStore.PageProvider.Candidates
import ScaleStore.PageTable.Failures
import ScaleStore.PageTable.FreeFrames
import ScaleStore.PageTable.Insertion
import ScaleStore.PageTable.NonBlocking
import ScaleStore.Protocol.Directory
import ScaleStore.Protocol.OneCopy
import ScaleStore.Protocol.Reclaimed
import ScaleStore.Protocol.Selection
import ScaleStore.Protocol.Waiting
import ScaleStore.Storage.AsyncBuffers
import ScaleStore.Storage.ReadPage
import ScaleStore.Structures.Catalog
import ScaleStore.Structures.DistributedBarrier
import ScaleStore.Structures.LinkedList
import ScaleStore.Structures.MaskedIndices
import ScaleStore.Structures.StaticBitmap
import ScaleStore.Threads.WorkerPool

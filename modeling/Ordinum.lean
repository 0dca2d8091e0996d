import Ordinum.Alignment.RoundUp
import Ordinum.Arena.Arena
import Ordinum.Arena.Blocks
import Ordinum.Arena.Budget
import Ordinum.Arena.Epochs
import Ordinum.Arena.Layout
import Ordinum.Arena.Outcome
import Ordinum.Arena.Progress
import Ordinum.Arena.Regions
import Ordinum.Arena.Reset
import Ordinum.Arena.Steps
import Ordinum.Arena.Waste
import Ordinum.Db.Batch.Acceptance
import Ordinum.Db.Batch.Deferred
import Ordinum.Db.Batch.DeferredCount
import Ordinum.Db.Batch.Format
import Ordinum.Db.Batch.Handle
import Ordinum.Db.Batch.Inner
import Ordinum.Db.Batch.State
import Ordinum.Db.BatchPool.Ledger
import Ordinum.Db.BatchPool.Ownership
import Ordinum.Db.BatchPool.Pool
import Ordinum.Db.BatchPool.Recycling
import Ordinum.Db.BatchPool.Refinement
import Ordinum.Db.BatchPool.Retention
import Ordinum.Db.BatchPool.Statistics
import Ordinum.Db.WritePipeline.Admission
import Ordinum.Db.WritePipeline.AdmissionProgress
import Ordinum.Db.WritePipeline.BatchQueue
import Ordinum.Db.WritePipeline.ClaimOrder
import Ordinum.Db.WritePipeline.Commit
import Ordinum.Db.WritePipeline.EarlyDequeue
import Ordinum.Db.WritePipeline.EmptyAnswers
import Ordinum.Db.WritePipeline.FailedPrepare
import Ordinum.Db.WritePipeline.Fifo
import Ordinum.Db.WritePipeline.HeadTail
import Ordinum.Db.WritePipeline.OverRelease
import Ordinum.Db.WritePipeline.Permits
import Ordinum.Db.WritePipeline.Prepare
import Ordinum.Db.WritePipeline.QueueInvariant
import Ordinum.Db.WritePipeline.QueueProgress
import Ordinum.Db.WritePipeline.QueueSystem
import Ordinum.Db.WritePipeline.Reservation
import Ordinum.Db.WritePipeline.ReservedSpace
import Ordinum.Db.WritePipeline.Semaphore
import Ordinum.Db.WritePipeline.SemaphoreInvariant
import Ordinum.Db.WritePipeline.SequenceNumbers
import Ordinum.Db.WritePipeline.SlotOwnership
import Ordinum.Db.WritePipeline.StaleReads
import Ordinum.Hazard.ArraySlots
import Ordinum.Hazard.Arrays
import Ordinum.Hazard.Domain
import Ordinum.Hazard.Ownership
import Ordinum.Hazard.Protect
import Ordinum.Hazard.RecordList
import Ordinum.Hazard.Records
import Ordinum.Hazard.Reuse
import Ordinum.Hazard.Steps
import Ordinum.Hazard.Validation
import Ordinum.Interleaving.Alone
import Ordinum.Interleaving.AtomicObject
import Ordinum.Interleaving.Census
import Ordinum.Interleaving.History
import Ordinum.Interleaving.Linearization
import Ordinum.Interleaving.LockFree
import Ordinum.Interleaving.Observer
import Ordinum.Interleaving.Ownership
import Ordinum.Interleaving.Retry
import Ordinum.Interleaving.Simulation
import Ordinum.Interleaving.Sync
import Ordinum.Interleaving.System
import Ordinum.Interleaving.TraceInclusion
import Ordinum.Key.Comparator
import Ordinum.Key.InternalKey
import Ordinum.Key.LookUpKey
import Ordinum.Key.RecordKinds
import Ordinum.Linked.Ascending
import Ordinum.Linked.Chain
import Ordinum.Linked.Related
import Ordinum.Linked.Ring
import Ordinum.Linked.Segment
import Ordinum.Memtable.ArenaIterator
import Ordinum.Memtable.ArenaReads
import Ordinum.Memtable.FirstGe
import Ordinum.Memtable.InsertDirect
import Ordinum.Memtable.Iterator
import Ordinum.Memtable.KeyLimit
import Ordinum.Memtable.Linearization
import Ordinum.Memtable.LockFree
import Ordinum.Memtable.Memtable
import Ordinum.Memtable.Positioned
import Ordinum.Memtable.Read
import Ordinum.Memtable.RecordKinds
import Ordinum.Memtable.Snapshot
import Ordinum.Memtable.VersionStore
import Ordinum.Memtable.Versions
import Ordinum.Refinement.Machine
import Ordinum.ThreadLocalStorage.Cells
import Ordinum.ThreadLocalStorage.ColumnIds
import Ordinum.ThreadLocalStorage.Entries
import Ordinum.ThreadLocalStorage.Nested
import Ordinum.ThreadLocalStorage.Reclamation
import Ordinum.ThreadLocalStorage.Rows
import Ordinum.ThreadLocalStorage.ThreadLocal
import Ordinum.Utils.Exec
import Ordinum.Utils.InitStack
import Ordinum.Utils.SkipLists.ArenaList
import Ordinum.Utils.SkipLists.ArenaNodes
import Ordinum.Utils.SkipLists.ArenaRefinement
import Ordinum.Utils.SkipLists.ArenaRepresents
import Ordinum.Utils.SkipLists.ArenaRuns
import Ordinum.Utils.SkipLists.ArenaSafety
import Ordinum.Utils.SkipLists.ArenaSteps
import Ordinum.Utils.SkipLists.BaseLevel
import Ordinum.Utils.SkipLists.ConcurrentInsert
import Ordinum.Utils.SkipLists.ConcurrentSearch
import Ordinum.Utils.SkipLists.EntryCount
import Ordinum.Utils.SkipLists.Insert
import Ordinum.Utils.SkipLists.InsertAlone
import Ordinum.Utils.SkipLists.InsertProgress
import Ordinum.Utils.SkipLists.LongValues
import Ordinum.Utils.SkipLists.MemSkipList
import Ordinum.Utils.SkipLists.NodeLayout
import Ordinum.Utils.SkipLists.Pairs
import Ordinum.Utils.SkipLists.RangeScan
import Ordinum.Utils.SkipLists.Search
import Ordinum.Utils.SkipLists.SearchAlone
import Ordinum.Utils.SkipLists.Seek
import Ordinum.Utils.SkipLists.SequentialInsert
import Ordinum.Utils.SkipLists.TowerHeight
import Ordinum.Utils.SkipLists.Towers
import Ordinum.Utils.VarInt
import Ordinum.Utils.VarIntDecode
import Ordinum.Wal.SyncResult
import Ordinum.Wal.SyncWaiter
import Ordinum.Wal.SyncWakeup
import Ordinum.Wire.BigEndian
import Ordinum.Wire.Extent
import Ordinum.Wire.Memory
import Ordinum.Wire.Reader

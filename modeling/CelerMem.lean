import CelerMem.Core.Pipeline
import CelerMem.Core.ChunkSlices
import CelerMem.Core.PagedStream
import CelerMem.Materialization.JoinSemantics
import CelerMem.Materialization.Delta
import CelerMem.Materialization.DryRun
import CelerMem.Core.Compression
import CelerMem.Core.CompressionRoundTrip
import CelerMem.Core.FrameHeader
import CelerMem.Library.Framing
import CelerMem.Library.Transition
import CelerMem.Necto.Actor
import CelerMem.Necto.ActorSteps
import CelerMem.Necto.NameRegistry
import CelerMem.Necto.Delivery
import CelerMem.Necto.Backpressure
import CelerMem.Necto.Injection
import CelerMem.Library.Numbering
import CelerMem.Necto.SendLog
import CelerMem.Necto.Quiescence
import CelerMem.Necto.SequenceNumbers
import CelerMem.Necto.SequenceRuns
import CelerMem.Library.Sweep
import CelerMem.Necto.Swarm.Cluster
import CelerMem.Necto.Swarm.Alignment
import CelerMem.Necto.Swarm.Membership
import CelerMem.Necto.Swarm.MembershipRuns
import CelerMem.Necto.Swarm.Recruitment
import CelerMem.Library.Stretch
import CelerMem.Library.Decay
import CelerMem.Necto.Swarm.Pheromone
import CelerMem.Necto.Swarm.Convergence
import CelerMem.Core.Scheduler
import CelerMem.Library.Custody
import CelerMem.Core.SchedulerCustody
import CelerMem.Core.LeaseConservation
import CelerMem.Core.DemandCredits
import CelerMem.Core.TaskPool
import CelerMem.Core.ChaseLevDeque
import CelerMem.Core.ChaseLevSafety
import CelerMem.Core.SequentialDeque
import CelerMem.Core.Wakeup
import CelerMem.Core.AsyncStream
import CelerMem.Core.AsyncMeaning
import CelerMem.Core.ConcatMap
import CelerMem.Core.AsyncBridge
import CelerMem.Core.MergeMap
import CelerMem.Core.MergeMapLimit
import CelerMem.Core.ParEval
import CelerMem.Core.CloneSafe
import CelerMem.Materialization.CloneIndependence
import CelerMem.Materialization.CompositeKey
import CelerMem.Materialization.ScanCompleteness
import CelerMem.Materialization.HashBuildCap
import CelerMem.Materialization.OuterJoins
import CelerMem.Materialization.JoinLimit
import CelerMem.Materialization.Overwrite
import CelerMem.Materialization.ReplaceFailure
import CelerMem.Materialization.Reruns
import CelerMem.Core.AsyncAgree
import CelerMem.Core.ParEvalRing
import CelerMem.Core.AsyncClone
import CelerMem.Materialization.RecordPipeline
import CelerMem.Core.DoneFinal
import CelerMem.Materialization.DoneFinality
import CelerMem.Core.SymbolTable
import CelerMem.Core.Dispatch
import CelerMem.Core.Routing
import CelerMem.Core.TreeScan
import CelerMem.Core.TreeBuilder
import CelerMem.Library.Sequence
import CelerMem.Core.ScopeBatch
import CelerMem.Core.BatchOrder
import CelerMem.Backend.SQLite
import CelerMem.Backend.RocksDB
import CelerMem.Backend.Scans
import CelerMem.Backend.ScanFailures
import CelerMem.Backend.GetMany
import CelerMem.Backend.S3
import CelerMem.Backend.S3Batch
import CelerMem.Backend.S3Get
import CelerMem.Backend.S3Ranges
import CelerMem.Backend.S3Scan
import CelerMem.Backend.S3Listing
import CelerMem.Backend.S3Versions
import CelerMem.Backend.S3Upload
import CelerMem.Backend.S3UploadStores
import CelerMem.Backend.SQLiteBatch
import CelerMem.Backend.BatchAtomicity
import CelerMem.Backend.PdfName
import CelerMem.Backend.QPDF
import CelerMem.Backend.QPDFTables
import CelerMem.Backend.QPDFWrites
import CelerMem.Backend.QPDFSnapshots
import CelerMem.Backend.PutGet
import CelerMem.Backend.QPDFFailure
import CelerMem.Library.References
import CelerMem.Core.ChunkSharing
import CelerMem.Core.ChunkLifetime
import CelerMem.Core.ChunkValues
import CelerMem.Library.Tables
import CelerMem.Backend.S3Tables
import CelerMem.Backend.QPDFRecovery
import CelerMem.Backend.S3VersionedObjects
import CelerMem.Library.Ownership
import CelerMem.Core.Handles
import CelerMem.Core.Lifecycle
import CelerMem.Library.Scanner
import CelerMem.Backend.SQLText
import CelerMem.Backend.SQLiteTables
import CelerMem.Core.TypedTables
import CelerMem.Core.Directory
import CelerMem.Core.StoreRuns
import CelerMem.Backend.RocksDBStore
import CelerMem.Core.Terminals
import CelerMem.Materialization.TypedStore

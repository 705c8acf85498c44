import MiniTsdb.Lib.Bytes
import MiniTsdb.Spec.Utils
import MiniTsdb.Spec.Crc32
import MiniTsdb.Spec.Wal
import MiniTsdb.Proofs.WalReplay
import MiniTsdb.Proofs.WalCut
import MiniTsdb.Proofs.WalReuse
import MiniTsdb.Lib.Text
import MiniTsdb.Spec.Status
import MiniTsdb.Spec.Version
import MiniTsdb.Proofs.ManifestLine
import MiniTsdb.Lib.Runs
import MiniTsdb.Proofs.ManifestReplay
import MiniTsdb.Proofs.ManifestLog
import MiniTsdb.Proofs.ManifestCut
import MiniTsdb.Spec.Startup
import MiniTsdb.Proofs.StartupScan
import MiniTsdb.Proofs.CrashAtomic
import MiniTsdb.Proofs.SSTableCodec
import MiniTsdb.Spec.BloomFilter
import MiniTsdb.Spec.SSTable
import MiniTsdb.Proofs.Bloom
import MiniTsdb.Proofs.SSTableBuild
import MiniTsdb.Proofs.SSTableRoundTrip
import MiniTsdb.Lib.Merge
import MiniTsdb.Spec.Compaction
import MiniTsdb.Spec.Store
import MiniTsdb.Proofs.Tables
import MiniTsdb.Proofs.StoreInv
import MiniTsdb.Proofs.StoreSteps
import MiniTsdb.Proofs.CompactionLookups
import MiniTsdb.Spec.Engine
import MiniTsdb.Proofs.EngineInv
import MiniTsdb.Proofs.EngineSteps
import MiniTsdb.Proofs.EngineReads
import MiniTsdb.Proofs.NoTtl
import MiniTsdb.Proofs.ReadYourWrites
import MiniTsdb.Proofs.StaleReads
import MiniTsdb.Proofs.Reopen
import MiniTsdb.Proofs.EngineLog
import MiniTsdb.Proofs.EngineDisk
import MiniTsdb.Proofs.Durability
import MiniTsdb.Proofs.Restart
import MiniTsdb.Proofs.Counter
import MiniTsdb.Proofs.FaultSteps
import MiniTsdb.Proofs.Rotation
import MiniTsdb.Proofs.Registry
import MiniTsdb.Spec.DamagedInputs
import MiniTsdb.Spec.Reading
import MiniTsdb.Proofs.Reading
import MiniTsdb.Proofs.CompactionRun
import MiniTsdb.Proofs.Leveled
import MiniTsdb.Proofs.DamagedManifest
import MiniTsdb.Proofs.SnapshotCut
import MiniTsdb.Proofs.FailedCommit
import MiniTsdb.Proofs.DamagedInputs
import MiniTsdb.Proofs.HandOver
import MiniTsdb.Proofs.ReaderComplete
import MiniTsdb.Spec.DeltaOfDelta
import MiniTsdb.Lib.Bits
import MiniTsdb.Proofs.DeltaOfDelta
import MiniTsdb.Proofs.BlockCache
import MiniTsdb.Proofs.LegacyLog
import MiniTsdb.Proofs.ShortWrites
import MiniTsdb.Spec.RangeQuery
import MiniTsdb.Proofs.RangeQuery
import MiniTsdb.Proofs.StoreRecords
import MiniTsdb.Proofs.OpenedReaders
import MiniTsdb.Proofs.TtlClock
import MiniTsdb.Proofs.ScanFallback
import MiniTsdb.Proofs.BatchWrite
import MiniTsdb.Proofs.StoreFaults
import MiniTsdb.Proofs.FailedFlush
import MiniTsdb.Proofs.CallEffect
import MiniTsdb.Lib.Checked
import MiniTsdb.Proofs.DeleteFrame
import MiniTsdb.Spec.TtlArithmetic
import MiniTsdb.Proofs.TtlArithmetic
import MiniTsdb.Spec.Downsample
import MiniTsdb.Proofs.Downsample
import MiniTsdb.Lib.Linked
import MiniTsdb.Spec.SkipList
import MiniTsdb.Proofs.SkipList
import MiniTsdb.Proofs.BloomGrowth
import MiniTsdb.Proofs.BloomDecoded
import MiniTsdb.Spec.BuilderWrites
import MiniTsdb.Proofs.BuilderWrites
import MiniTsdb.Proofs.BatchEquals
import MiniTsdb.Lib.ShiftRegister
import MiniTsdb.Proofs.Crc32
import MiniTsdb.Proofs.FlippedByte
import MiniTsdb.Lib.SizeT
import MiniTsdb.Proofs.KeyCodec
import MiniTsdb.Spec.CacheCalls
import MiniTsdb.Lib.NodeIndex
import MiniTsdb.Proofs.CacheCoherence
import MiniTsdb.Proofs.CacheNodes
import MiniTsdb.Proofs.CacheRefinement
import MiniTsdb.Spec.DeltaArithmetic
import MiniTsdb.Proofs.DeltaArithmetic
import MiniTsdb.Lib.BufferAccess
import MiniTsdb.Spec.BoundedParsers
import MiniTsdb.Proofs.BoundedParsers
import MiniTsdb.Proofs.FileNumbers
import MiniTsdb.Proofs.TtlReads
import MiniTsdb.Spec.InFlight
import MiniTsdb.Proofs.InFlight
import MiniTsdb.Spec.Scheduling
import MiniTsdb.Proofs.Scheduling
import MiniTsdb.Proofs.CloseJoin
import MiniTsdb.Proofs.CompactionRest
import MiniTsdb.Spec.SkipTable
import MiniTsdb.Proofs.SkipTable
import MiniTsdb.Proofs.CleanClose
import MiniTsdb.Proofs.NoOrphans
import MiniTsdb.Lib.Progress
import MiniTsdb.Proofs.Quiescence
import MiniTsdb.Proofs.Backpressure
import MiniTsdb.Spec.RandomAccess
import MiniTsdb.Proofs.RandomAccess
import MiniTsdb.Spec.Journal
import MiniTsdb.Proofs.Provenance
import MiniTsdb.Proofs.Journal
import MiniTsdb.Spec.Opening
import MiniTsdb.Proofs.Opening
import MiniTsdb.Spec.OnFiles
import MiniTsdb.Proofs.OnFiles

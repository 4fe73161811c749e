import OmxDb.Replay
import OmxDb.Lib.Runs
import OmxDb.Lib.Selection
import OmxDb.Segments
import OmxDb.Reload
import OmxDb.Snapshot
import OmxDb.Opening
import OmxDb.History
import OmxDb.MapSemantics
import OmxDb.SoundHistory
import OmxDb.Agreement
import OmxDb.Reopening
import OmxDb.SnapshotFaults
import OmxDb.TornIndex
import OmxDb.Crash
import OmxDb.Lib.Histories
import OmxDb.MemTableRuns
import OmxDb.Flushing
import OmxDb.IndexRegistry
import OmxDb.Lib.KeyedMerge
import OmxDb.TableMerge
import OmxDb.Wire
import OmxDb.FilterHistory
import OmxDb.Compression
import OmxDb.Lib.Framing
import OmxDb.Sessions
import OmxDb.Exchange
import OmxDb.Concurrent
import OmxDb.Linearizability
import OmxDb.RowStreams
import OmxDb.IndexFiles
import OmxDb.SnapshotOffsets
import OmxDb.MemoryLimit
import OmxDb.Adapters
import OmxDb.Interleaving
import OmxDb.LogClearing
import OmxDb.Frames
import OmxDb.Loading
import OmxDb.Lib.RecordLoops
import OmxDb.File
import OmxDb.PartialSends
import OmxDb.Lifecycle
import OmxDb.PutsAndGets
import OmxDb.ServiceRuns
import OmxDb.WorkerProgress
import OmxDb.Durability
import OmxDb.Scanning
import OmxDb.Configuration
import OmxDb.Peers
import OmxDb.Connector
import OmxDb.BothEnds
import OmxDb.OneObject
import OmxDb.TornOptions
import OmxDb.DatabaseServer

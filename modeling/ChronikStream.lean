import ChronikStream.Wal.TruncatedSuffix
import ChronikStream.Wal.TailDurable
import ChronikStream.Produce.ResponsePipeline
import ChronikStream.Produce.LogHoles
import ChronikStream.Replication.Convergence
import ChronikStream.Replication.Watermark
import ChronikStream.Replication.RetentionInterlock
import ChronikStream.Raft.Restart
import ChronikStream.Raft.LogRefinement
import ChronikStream.Fetch.TieredFetch
import ChronikStream.Metadata.ProducerIds
import ChronikStream.Raft.PersistFirst
import ChronikStream.Metadata.LeaderEpochs
import ChronikStream.Metadata.Replay
import ChronikStream.Txn.Atomicity
import ChronikStream.Metadata.Fencing
import ChronikStream.ConsumerGroup.OneOwner
import ChronikStream.ConsumerGroup.OffsetCommit
import ChronikStream.Replication.Failover
import ChronikStream.Replication.Rebalance
import ChronikStream.Wal.SealedSegments
import ChronikStream.Produce.Recovery
import ChronikStream.Wal.TruncatedRead
import ChronikStream.Wal.ReadSegment
import ChronikStream.Produce.EpochHistory
import ChronikStream.Metadata.TxnOffsets
import ChronikStream.Acl.Mediation
import ChronikStream.Replication.FetchReports
import ChronikStream.Sasl.Transcript
import ChronikStream.Sasl.Enumeration
import ChronikStream.Produce.SequenceWrap
import ChronikStream.Replication.ApplyAtomicity
import ChronikStream.Sql.Pruning
import ChronikStream.Produce.WatermarkFlusher
import ChronikStream.Replication.EpochQueries
import ChronikStream.Produce.PendingResponses
import ChronikStream.Produce.Varints
import ChronikStream.Replication.BatchPlan

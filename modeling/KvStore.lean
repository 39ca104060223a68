import KvStore.Store.ShardRun
import KvStore.Store.Refinement
import KvStore.Store.Sweeper
import KvStore.Store.Recency
import KvStore.Store.Refusal
import KvStore.Engine.LogOrder
import KvStore.Engine.Snapshot
import KvStore.Engine.Restart
import KvStore.Engine.FailedWrite
import KvStore.Engine.FeedOrder
import KvStore.Engine.Scheduling
import KvStore.Engine.Lock
import KvStore.Engine.Backpressure
import KvStore.Cluster.ReadLoop
import KvStore.Cluster.CatchUp
import KvStore.Cluster.Fencing
import KvStore.Cluster.ReplicaClock
import KvStore.Cluster.Mirror
import KvStore.Engine.FlushRecovery
import KvStore.Engine.Fallback
import KvStore.Engine.Seeds
import KvStore.Cluster.Overlap
import KvStore.Cluster.Resume
import KvStore.Protocol.Command
import KvStore.Cluster.Delimited
import KvStore.Server.Responses
import KvStore.Server.PoolRuns
import KvStore.Server.OutputRuns
import KvStore.Snapshot.Newest
import KvStore.Snapshot.Count
import KvStore.Wal.BitFlip
import KvStore.Wal.Names
import KvStore.Wal.Ticker
import KvStore.Kvctl.WalReplay
import KvStore.Kvbench.Histogram

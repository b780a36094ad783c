import Stash.AtomicWatch
import Stash.Bitmaps
import Stash.ClientSessions
import Stash.Collections
import Stash.EventLoopMemory
import Stash.ExecQueue
import Stash.ExpiryDeadlines
import Stash.ExpiryReports
import Stash.FullResync
import Stash.KeyCounts
import Stash.ListWaiters
import Stash.LzfTokens
import Stash.Registries
import Stash.ReplicationOffsets
import Stash.Restart
import Stash.ShardedDeletes
import Stash.Slowlog
import Stash.SnapshotRoundTrip
import Stash.SpoiledTail
import Stash.StaleMarks
import Stash.StreamRuns
import Stash.WriterRuns

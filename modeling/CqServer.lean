import CqServer.Arena
import CqServer.Client.Bookmark
import CqServer.Client.PublishStore
import CqServer.Delivery.Bookmarks
import CqServer.Delivery.Framing
import CqServer.Delivery.Overflow
import CqServer.Flatten
import CqServer.Protocol.DepthGuard
import CqServer.Query.CaseFold
import CqServer.Query.Join
import CqServer.Query.Like
import CqServer.Queue.Buffer
import CqServer.Queue.DeadLetters
import CqServer.Queue.Delivery
import CqServer.Queue.Stranded
import CqServer.Replication.ActiveActive
import CqServer.Replication.ActivePassive
import CqServer.Replication.Filtered
import CqServer.Replication.Follower
import CqServer.RoundTrip
import CqServer.Router.AsOf
import CqServer.Router.CacheCoherence
import CqServer.Router.Noninterference
import CqServer.Router.QueueConsumers
import CqServer.Subscription.Cap
import CqServer.Subscription.Counter
import CqServer.Subscription.Sparse
import CqServer.Subscription.TopN
import CqServer.Topic.Batch
import CqServer.Topic.Cut
import CqServer.Topic.DeltaRace
import CqServer.Topic.Expiry
import CqServer.TxLog.Directories
import CqServer.TxLog.Recovery
import CqServer.View.Graph
import CqServer.View.Races

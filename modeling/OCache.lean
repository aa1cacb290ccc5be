import OCache.Merge.Split
import OCache.Version.Reservation
import OCache.Cas.Winners
import OCache.Cas.Fence
import OCache.Listing.Complete
import OCache.OrphanSweep
import OCache.Store.Erasure
import OCache.Store.Shape
import OCache.Accounting.Reconcile
import OCache.DeletionQueue
import OCache.Streaming.AllOrNothing
import OCache.Streaming.PeerReader
import OCache.Eviction.Recreate
import OCache.Eviction.Recency
import OCache.Store.SpillFate
import OCache.SegmentFile.Survival
import OCache.Accounting.DeadBytes
import OCache.Accounting.FifoEntries
import OCache.Compaction.Capacity
import OCache.Forwarding
import OCache.Ring.Epoch
import OCache.Ring.Owner
import OCache.Ring.Views
import OCache.FdCache.Size
import OCache.MemoryCache.Simulation
import OCache.Router.Connections
import OCache.Router.Circuit
import OCache.Values.Expiry
import OCache.Values.ByteRange
import OCache.Values.Put
import OCache.SegmentFile.OpenScan
import OCache.Compaction.Recompact
import OCache.Files.Recovery
import OCache.Cleaner.SweepSafe
import OCache.Cleaner.Backfill

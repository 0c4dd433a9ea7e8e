import Walgit.Lineage
import Walgit.Linear
import Walgit.Snapshots
import Walgit.Reads
import Walgit.Receive
import Walgit.Manifests
import Walgit.ConsumerRuns
import Walgit.Convergence
import Walgit.ImportRuns
import Walgit.CacheRuns
import Walgit.CompactionRuns
import Walgit.EventReplay
import Walgit.LeaseRuns
import Walgit.CasUpdate
import Walgit.Protection
import Walgit.CiNorm
import Walgit.CiElection
import Walgit.Aggregation
import Walgit.CollabGcRuns
import Walgit.Reviews
import Walgit.Rules
import Walgit.Globs
import Walgit.Actors
import Walgit.Appliers
import Walgit.Signing
import Walgit.BundleRuns
import Walgit.SlotRuns
import Walgit.FetchComplete
import Walgit.ShallowComplete
import Walgit.PushRuns
import Walgit.Overlap
import Walgit.ThreadOrder
import Walgit.Canonical
import Walgit.JsonSize
import Walgit.RetentionOrder
import Walgit.PlanRuns
import Walgit.DueSlots
import Walgit.RefSelection
import Walgit.Sideband
import Walgit.RequestExact
import Walgit.LsRefs
import Walgit.PackedRefs
import Walgit.Compose
import Walgit.Transfer
import Walgit.BulkRead
import Walgit.Notify
import Walgit.StaticObject
import Walgit.FaultRounds
import Walgit.Deltas
import Walgit.RefGlobs
import Walgit.Eviction
import Walgit.SignedValues
import Walgit.Attach
import Walgit.ReportStatus
import Walgit.FetchRebuilt
import Walgit.Frames
import Walgit.WebObjects
import Walgit.MergeBase
import Walgit.TreeFaults
import Walgit.HistoryWalk
import Walgit.Blame
import Walgit.CiBodies
import Walgit.RemoteExact
import Walgit.PrefixedStore
import Walgit.RepoDelete
import Walgit.RepoListing
import Walgit.TaskRegistry
import Walgit.RefPages
import Walgit.Sse
import Walgit.CiTips
import Walgit.PackPrune

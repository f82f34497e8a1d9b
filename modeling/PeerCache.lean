import PeerCache.Main
import PeerCache.Peer.Pool
import PeerCache.Proofs.AddedDirectives
import PeerCache.Proofs.BoundaryPath
import PeerCache.Proofs.CacheRuns
import PeerCache.Proofs.EndToEndFields
import PeerCache.Proofs.EntryCodec
import PeerCache.Proofs.EntryPoints
import PeerCache.Proofs.FileMap
import PeerCache.Proofs.FreshReplies
import PeerCache.Proofs.Invalidation
import PeerCache.Proofs.LruHistory
import PeerCache.Proofs.LruRefinement
import PeerCache.Proofs.NamedResource
import PeerCache.Proofs.OutsideClients
import PeerCache.Proofs.PassingTime
import PeerCache.Proofs.PoolOwnership
import PeerCache.Proofs.RequestDirectives
import PeerCache.Proofs.Revalidation
import PeerCache.Proofs.RingMembership
import PeerCache.Proofs.Routing
import PeerCache.Proofs.Staleness
import PeerCache.Proofs.StoreFailures
import PeerCache.Proofs.VaryMatching
import PeerCache.Store.Stack
import PeerCache.Proofs.RingLookup
import PeerCache.Proofs.DirectiveLayout
import PeerCache.Proofs.TargetGrammar
import PeerCache.Proofs.BoundaryCrossing
import PeerCache.Proofs.PooledBodies
import PeerCache.Proofs.ClearedFiles

import KvCache.Promotion
import KvCache.Acknowledged
import KvCache.Poison
import KvCache.Retries
import KvCache.Isolation
import KvCache.Sweeps
import KvCache.Restoring
import KvCache.SessionAges
import KvCache.Replicas
import KvCache.MachineRuns
import KvCache.StateMachine
import KvCache.QuorumLogMoves
import KvCache.FullLog
import KvCache.BackOff
import KvCache.CommitRule
import KvCache.DjangoRaftStorage
import KvCache.Recency
import KvCache.BatchedLoad
import KvCache.EngineMoves
import KvCache.Deeds
import KvCache.Durable
import KvCache.Persistence
import KvCache.Membership
import KvCache.Assembly
import KvCache.Delivery
import KvCache.Lockstep
import KvCache.PreVotes
import KvCache.InStep
import KvCache.Proposals
import KvCache.Additions
import KvCache.NewLeader
import KvCache.OneByOne
import KvCache.CacheClient
import KvCache.RoundTrip

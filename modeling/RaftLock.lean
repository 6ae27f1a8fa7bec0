import RaftLock.Library.Lists
import RaftLock.Library.Machine
import RaftLock.Library.Shares
import RaftLock.Library.Appends
import RaftLock.Library.Blocks
import RaftLock.Library.Mutex
import RaftLock.Raft.Types
import RaftLock.Raft.Storage
import RaftLock.Raft.Handlers
import RaftLock.Raft.Sections
import RaftLock.Raft.Cluster
import RaftLock.Raft.World
import RaftLock.Raft.Refinement
import RaftLock.Raft.Nodes
import RaftLock.Raft.Traffic
import RaftLock.Raft.Threads
import RaftLock.Raft.Locking
import RaftLock.Consensus.Protocol
import RaftLock.Consensus.Safety
import RaftLock.Consensus.Invariant
import RaftLock.Consensus.Committed
import RaftLock.Safety.Election
import RaftLock.Safety.Simulation
import RaftLock.Safety.LogMatching
import RaftLock.Safety.Bookkeeping
import RaftLock.Safety.Commitment
import RaftLock.Safety.Agreement
import RaftLock.Safety.NextIndex
import RaftLock.Safety.Quorum
import RaftLock.Safety.Completeness
import RaftLock.Safety.Application
import RaftLock.Safety.Windows
import RaftLock.Safety.Capacity
import RaftLock.Raft.Verdict
import RaftLock.Raft.Dump
import RaftLock.Safety.Provenance
import RaftLock.Safety.Duplicates
import RaftLock.Safety.Durable
import RaftLock.Safety.Ordered
import RaftLock.Safety.Acknowledged
import RaftLock.Safety.CatchUp
import RaftLock.Safety.Commuting
import RaftLock.Lock.Timed
import RaftLock.Lock.Handlers
import RaftLock.Lock.Exclusion
import RaftLock.Lock.Isolation
import RaftLock.Lock.Manager
import RaftLock.Lock.Tags
import RaftLock.Lock.Verdicts
import RaftLock.Lock.Batching
import RaftLock.Recovery.Files
import RaftLock.Recovery.Store
import RaftLock.Recovery.Snapshots
import RaftLock.Recovery.Rebuild
import RaftLock.Recovery.Contents
import RaftLock.Recovery.Names
import RaftLock.Recovery.Verdicts
import RaftLock.Recovery.Replicas
import RaftLock.Transfer.Chunks
import RaftLock.Transfer.Fields
import RaftLock.Transfer.Flag
import RaftLock.Transfer.Overlap
import RaftLock.Transfer.Retry
import RaftLock.Transfer.Reported
import RaftLock.Transfer.Counted
import RaftLock.Safety.Compaction
import RaftLock.Recovery.Cored
import RaftLock.Recovery.Turns
import RaftLock.Recovery.History
import RaftLock.Progress.Deliveries
import RaftLock.Progress.Elections
import RaftLock.Progress.Rounds
import RaftLock.Progress.Commits
import RaftLock.Progress.Leaders
import RaftLock.Rpc.Session
import RaftLock.Rpc.Invocations
import RaftLock.Rpc.Answers
import RaftLock.Safety.Retention
import RaftLock.Lock.Ledger
import RaftLock.Lock.Threads
import RaftLock.Lock.Service
import RaftLock.Lock.Releases
import RaftLock.Progress.Returns

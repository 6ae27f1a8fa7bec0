import Mathlib.Algebra.GroupWithZero.Nat
import Mathlib.Logic.Function.Basic
import Mathlib.Data.Fintype.Basic
import Mathlib.Tactic.Common

/-!
The data model of the server: the constants and structures of `raft.h` and
`packet_format.h`, field by field.

A C `int` is an integer here. Nothing in the program wraps around before
`2 ^ 31` elections, appends or requests, and `-1` is a value it uses on
purpose: the term of an entry outside the log, the vote not given, the
snapshot not being installed. A `char` array is the list of its bytes, and
`cstr` reads it the way `strcpy`, `strcmp` and `"%s"` do.
-/

namespace RaftLock

abbrev nServers : ℕ := 5
abbrev logSize : ℕ := 100
abbrev maxTransactionEntries : ℕ := 10
abbrev commitsToSnapshot : ℤ := 60
abbrev snapshotSize : ℤ := 50
abbrev bufferSize : ℕ := 1024

/-- A position in `config.servers`. It also names the server's socket
address: a reply to `addr` goes to the server behind that position. -/
abbrev Server := Fin nServers

instance : NeZero nServers := ⟨by decide⟩

/-- The ids of `raft_configuration_t`, one for each configured server. -/
abbrev Config := Server → ℤ

abbrev Bytes := List UInt8

instance : LawfulBEq Bytes := inferInstance

/-- The string a `char` array holds: everything before the first NUL. -/
def cstr (b : Bytes) : Bytes := b.takeWhile (· ≠ 0)

structure TransactionEntry where
  filename : Bytes
  buffer : Bytes
  deriving DecidableEq, Repr, Inhabited

inductive LogEntryType
  | clientLog
  | leaderLog
  deriving DecidableEq, Repr, Inhabited

structure LogEntry where
  term : ℤ
  nServersReplicated : ℤ
  type : LogEntryType
  id : ℤ
  client : ℤ
  data : List TransactionEntry
  deriving DecidableEq, Repr

/-- A log slot that has never been written: the server's state is a zeroed
global. -/
instance : Inhabited LogEntry := ⟨⟨0, 0, .clientLog, 0, 0, []⟩⟩

/-- The writes of an entry, in the order both `handle_raft_commit` and
`Raft_create_snapshot` go through them: they stop at the first empty name. -/
def LogEntry.writes (e : LogEntry) : List TransactionEntry :=
  (e.data.take maxTransactionEntries).takeWhile fun d => cstr d.filename ≠ []

/-- The entry without its acknowledgement counter, which is the leader's own
bookkeeping and differs between the servers that hold the entry. -/
def LogEntry.core (e : LogEntry) : LogEntry := { e with nServersReplicated := 0 }

@[simp] theorem LogEntry.core_term (e : LogEntry) : e.core.term = e.term := rfl

inductive NodeState
  | leader
  | candidate
  | follower
  deriving DecidableEq, Repr, Inhabited

/-- `raft_state_t`, less the socket, the lock, the directory name and the
handler pointer, which never change while a server runs. The arrays indexed
by server id are functions of the id. -/
structure RaftState where
  config : Config
  id : ℤ
  currentTerm : ℤ
  votedFor : ℤ
  log : ℕ → LogEntry
  startLogIndex : ℤ
  logCount : ℤ
  state : NodeState
  commitIndex : ℤ
  lastAppliedIndex : ℤ
  snapshotInProgress : Bool
  installSnapshotIndex : ℤ
  installSnapshotId : ℤ
  nvoted : ℤ
  nblocked : ℤ
  nextIndex : ℤ → ℤ
  matchIndex : ℤ → ℤ
  lastRequestId : ℤ → ℤ
  lastRequestResponse : ℤ → ℤ
  nFollowersReceivingSnapshots : ℤ

structure AppendRequest where
  term : ℤ
  leaderId : ℤ
  prevLogIndex : ℤ
  prevLogTerm : ℤ
  entry : LogEntry
  entriesN : ℤ
  leaderCommit : ℤ
  requestId : ℤ
  deriving DecidableEq, Repr

structure VoteRequest where
  term : ℤ
  candidateId : ℤ
  lastLogIndex : ℤ
  lastLogTerm : ℤ
  deriving DecidableEq, Repr

structure InstallRequest where
  term : ℤ
  leaderId : ℤ
  snapshotId : ℤ
  index : ℤ
  done : Bool
  requestId : ℤ
  filename : Bytes
  buffer : Bytes
  deriving DecidableEq, Repr

structure Response where
  id : ℤ
  term : ℤ
  success : ℤ
  requestId : ℤ
  deriving DecidableEq, Repr

/-- `raft_packet_t`: the tag is the constructor, the union its argument. -/
inductive Packet
  | append (r : AppendRequest)
  | vote (r : VoteRequest)
  | installSnapshot (r : InstallRequest)
  | response (r : Response)
  deriving DecidableEq, Repr

end RaftLock

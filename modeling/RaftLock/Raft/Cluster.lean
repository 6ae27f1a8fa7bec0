import RaftLock.Library.Lists
import RaftLock.Library.Machine
import RaftLock.Raft.Handlers

/-!
The servers of a configuration, their threads and the datagrams between them.

A step of the cluster is one critical section of one thread, one step of a
thread outside the lock, the loss of a datagram, a crash or a restart. Any
order of steps is a run: delay and reordering are the freedom to choose which
datagram is handled next, and a datagram is gone once it has been handled.
-/

namespace RaftLock

open Outcome

/-! ### The threads of a server -/

/-- Where a `Raft_leader_thread` stands: between two rounds, in the waiting
loop at the head of `Raft_send_snapshot`, or asleep after the datagram of a
transfer. -/
inductive LeaderPc
  | idle
  | waiting
  | sending (packet : InstallRequest) (it : SnapshotIterator)
  deriving DecidableEq, Repr

structure LeaderThread where
  follower : Server
  pc : LeaderPc
  deriving DecidableEq, Repr

/-- Where a packet thread stands once its handler has returned: `Raft_handle_packet`
compares the indices, reads the argument, and calls `Raft_create_snapshot`. -/
inductive SnapshotPc
  | check
  | argument
  | enter (newLogStart : ℤ)
  | opened (newLogStart : ℤ)
  | copy (newLogStart prevSnapId src : ℤ) (k : ℕ)
  | entries (newLogStart prevSnapId : ℤ)
  | add (newLogStart prevSnapId i : ℤ) (j : ℕ)
  | shift (newLogStart prevSnapId : ℤ)
  | remove (prevSnapId : ℤ)
  deriving DecidableEq, Repr

/-- The datagram `Raft_send_snapshot` sends next: the iterator's next block,
or the closing request. -/
def sendChunk (raft : RaftState) (files : FileSystem) (follower : Server)
    (packet : InstallRequest) (it : SnapshotIterator) (ind : ℤ) : Outcome × LeaderPc :=
  let requestId := raft.lastRequestId (raft.config follower)
  match it.getNext files with
  | (it, some (filename, buffer)) =>
    let packet := { packet with index := ind, requestId, done := false, filename, buffer }
    (emit raft [.send follower (.installSnapshot packet)], .sending packet it)
  | (it, none) =>
    let packet := { packet with index := ind, requestId, done := true }
    (emit raft [.send follower (.installSnapshot packet)], .sending packet it)

/-- `Raft_send_snapshot` from the test of its waiting loop on. The role of the
server is not looked at again. -/
def sendSnapshot (raft : RaftState) (files : FileSystem) (follower : Server) :
    Outcome × LeaderPc :=
  if raft.snapshotInProgress then (ret raft, .waiting)
  else
    let raft := { raft with
      nFollowersReceivingSnapshots := raft.nFollowersReceivingSnapshots + 1 }
    sendChunk raft files follower
      { term := raft.currentTerm, leaderId := raft.id, snapshotId := raft.startLogIndex
        index := 0, done := false, requestId := 0, filename := [], buffer := [] }
      (snapshotItInit raft.startLogIndex) 0

/-- `Raft_send_snapshot` after a sleep. -/
def resumeSnapshot (raft : RaftState) (files : FileSystem) (follower : Server)
    (packet : InstallRequest) (it : SnapshotIterator) : Outcome × LeaderPc :=
  let followerId := raft.config follower
  if packet.requestId = raft.lastRequestId followerId then
    (emit raft [.send follower (.installSnapshot packet)], .sending packet it)
  else if raft.lastRequestResponse followerId = 0 then
    (ret { raft with
      nFollowersReceivingSnapshots := raft.nFollowersReceivingSnapshots - 1 }, .idle)
  else if ¬ packet.done then sendChunk raft files follower packet it (packet.index + 1)
  else
    (ret { raft with
      nextIndex := Function.update raft.nextIndex followerId raft.startLogIndex
      matchIndex := Function.update raft.matchIndex followerId (raft.startLogIndex - 1)
      nFollowersReceivingSnapshots := raft.nFollowersReceivingSnapshots - 1 }, .idle)

/-- One critical section of a leader thread; `none` when the thread ends. -/
def leaderStep (raft : RaftState) (files : FileSystem) (t : LeaderThread) :
    Outcome × Option LeaderPc :=
  match t.pc with
  | .idle =>
    if raft.state ≠ .leader then (ret raft, none)
    else if raft.nextIndex (raft.config t.follower) < raft.startLogIndex then
      let (o, pc) := sendSnapshot raft files t.follower
      (o, some pc)
    else (sendAppendEntryRequest raft t.follower, some .idle)
  | .waiting =>
    let (o, pc) := sendSnapshot raft files t.follower
    (o, some pc)
  | .sending packet it =>
    let (o, pc) := resumeSnapshot raft files t.follower packet it
    (o, some pc)

/-- One step of a packet thread after its handler; `none` when it ends. The
reads of the copying phase are made without the lock, one step at a time. -/
def snapshotStep (raft : RaftState) : SnapshotPc → Outcome × Option SnapshotPc
  | .check =>
    if raft.commitIndex - raft.startLogIndex + 1 ≥ commitsToSnapshot then
      (ret raft, some .argument)
    else (ret raft, none)
  | .argument => (ret raft, some (.enter (raft.startLogIndex + snapshotSize)))
  | .enter n =>
    match createSnapshotEnter raft n with
    | none => (ret raft, none)
    | some raft => (ret raft, some (.opened n))
  | .opened n =>
    let prev := raft.startLogIndex
    (ret raft, some (if prev ≠ 0 then .copy n prev prev 0 else .entries n prev))
  | .copy n prev src k =>
    if k < 100 then (emit raft [.copyFile src n k], some (.copy n prev src (k + 1)))
    else (ret raft, some (.entries n prev))
  | .entries n prev => (ret raft, some (.add n prev raft.startLogIndex 0))
  | .add n prev i j =>
    if i < n then
      match getLog raft i with
      | none => (die raft, none)
      | some e =>
        match e.type, e.writes[j]? with
        | .clientLog, some d =>
          (emit raft [.addToSnapshot n d.filename d.buffer], some (.add n prev i (j + 1)))
        | _, _ => (ret raft, some (.add n prev (i + 1) 0))
    else (ret raft, some (.shift n prev))
  | .shift n prev =>
    (createSnapshotShift raft n, if prev ≠ 0 then some (.remove prev) else none)
  | .remove prev => (emit raft [.removeSnapshot prev], none)

/-! ### A server -/

/-- One configured server. `saved` is the file `raft_state`; `applied` lists
the turns of the loop of `Raft_commit_update` the running process has made. -/
structure Node where
  raft : RaftState
  saved : Option RaftState
  files : FileSystem
  up : Bool
  /-- The listener has seen its read time out in state FOLLOWER and is about
  to take the lock. -/
  timedOut : Bool
  leaderThreads : List LeaderThread
  snapshotThreads : List SnapshotPc
  applied : List (ℤ × LogEntry)

namespace Node

def init (config : Config) (s : Server) : Node :=
  { raft := serverInit config (config s)
    saved := none
    files := FileSystem.cleanMainFiles fun _ _ => none
    up := true
    timedOut := false
    leaderThreads := []
    snapshotThreads := []
    applied := [] }

def perform (n : Node) : Effect → Node
  | .save raft => { n with saved := some raft }
  | .send _ _ => n
  | .commit i e =>
    { n with
      files := match e.type with
        | .leaderLog => n.files
        | .clientLog => n.files.handleRaftCommit e
      applied := n.applied ++ [(i, e)] }
  | .spawnLeaderThreads followers =>
    { n with leaderThreads := n.leaderThreads ++ followers.map fun f => ⟨f, .idle⟩ }
  | .removeSnapshot id => { n with files := n.files.removeSnapshot id }
  | .copySnapshot src dst => { n with files := n.files.copySnapshot src dst }
  | .copyFile src dst k => { n with files := FileSystem.copyFile src dst n.files k }
  | .addToSnapshot id filename buffer =>
    { n with files := n.files.addToSnapshot id filename buffer }
  | .cleanMainFiles => { n with files := n.files.cleanMainFiles }

def crash (n : Node) : Node :=
  { n with up := false, timedOut := false, leaderThreads := [], snapshotThreads := [] }

/-- The effects of an outcome that are performed: all of them, or the first
ones when the server crashes on the way. -/
def performed (o : Outcome) : Option ℕ → List Effect
  | none => o.effects
  | some k => o.effects.take k

def settle (n : Node) (o : Outcome) (crashAt : Option ℕ) : Node :=
  let n := (performed o crashAt).foldl perform n
  if crashAt = none ∧ o.fault = false then { n with raft := o.raft } else n.crash

end Node

/-! ### The cluster -/

/-- Servers with the ids `0` to `4`. -/
def plainConfig : Config := fun i => i.val

/-- A datagram in flight. `answers` remembers, for the answer to a request,
which request that was; nothing in the program can see it. -/
structure Datagram where
  src : Server
  dst : Server
  packet : Packet
  answers : Option Packet
  deriving DecidableEq, Repr

/-- `commits` records the turns of the loop of `Raft_commit_update`: which
server, which index, which entry. -/
structure Cluster where
  nodes : Server → Node
  net : List Datagram
  commits : List (Server × ℤ × LogEntry)

inductive Action
  /-- The listener's read times out and it sees state FOLLOWER. -/
  | timeout (s : Server)
  /-- The listener takes the lock and an election starts, whatever the state
  is by then. -/
  | elect (s : Server) (crashAt : Option ℕ)
  /-- The election thread's own timer runs out. -/
  | retry (s : Server) (crashAt : Option ℕ)
  | deliver (k : ℕ) (crashAt : Option ℕ)
  | drop (k : ℕ)
  /-- A client handler calls `Raft_append_entry`. -/
  | append (s : Server) (entry : LogEntry) (crashAt : Option ℕ)
  | leaderThread (s : Server) (k : ℕ)
  | snapshotThread (s : Server) (k : ℕ) (crashAt : Option ℕ)
  | crash (s : Server)
  | restart (s : Server)
  deriving DecidableEq, Repr

namespace Cluster

def init (config : Config) : Cluster := ⟨Node.init config, [], []⟩

def sentBy (s : Server) (answers : Option Packet) : Effect → Option Datagram
  | .send dst packet => some ⟨s, dst, packet, answers⟩
  | _ => none

theorem mem_sentBy {s : Server} {answers : Option Packet} {es : List Effect} {d : Datagram}
    (hd : d ∈ es.filterMap (sentBy s answers)) :
    d.src = s ∧ d.answers = answers ∧ .send d.dst d.packet ∈ es := by
  obtain ⟨e, he, hsent⟩ := List.mem_filterMap.mp hd
  cases e with
  | send dst packet =>
      simp only [sentBy, Option.some.injEq] at hsent
      subst hsent
      exact ⟨rfl, rfl, he⟩
  | _ => simp [sentBy] at hsent

def committedBy (s : Server) : Effect → Option (Server × ℤ × LogEntry)
  | .commit i e => some (s, i, e)
  | _ => none

/-- Server `s`, in state `n`, runs a section with outcome `o`. -/
def settle (c : Cluster) (s : Server) (n : Node) (o : Outcome) (crashAt : Option ℕ)
    (answers : Option Packet) : Cluster :=
  { nodes := Function.update c.nodes s (n.settle o crashAt)
    net := c.net ++ (Node.performed o crashAt).filterMap (sentBy s answers)
    commits := c.commits ++ (Node.performed o crashAt).filterMap (committedBy s) }

def exec (c : Cluster) : Action → Option Cluster
  | .timeout s =>
    let n := c.nodes s
    if n.up ∧ n.raft.state = .follower then
      some { c with nodes := Function.update c.nodes s { n with timedOut := true } }
    else none
  | .elect s crashAt =>
    let n := c.nodes s
    if n.up ∧ n.timedOut then
      some (c.settle s { n with timedOut := false } (attemptToElect n.raft) crashAt none)
    else none
  | .retry s crashAt =>
    let n := c.nodes s
    if n.up ∧ n.raft.state = .candidate ∧ n.raft.nblocked * 2 < nServers then
      some (c.settle s n (attemptToElect n.raft) crashAt none)
    else none
  | .deliver k crashAt =>
    match c.net[k]? with
    | none => none
    | some d =>
      let n := c.nodes d.dst
      if n.up then
        some ({ c with net := c.net.eraseIdx k }.settle d.dst
          { n with snapshotThreads := n.snapshotThreads ++ [SnapshotPc.check] }
          (handlePacket n.raft d.src d.packet) crashAt (some d.packet))
      else none
  | .drop k => if k < c.net.length then some { c with net := c.net.eraseIdx k } else none
  | .append s entry crashAt =>
    let n := c.nodes s
    if n.up then some (c.settle s n (appendEntry n.raft entry) crashAt none) else none
  | .leaderThread s k =>
    let n := c.nodes s
    match n.up, n.leaderThreads[k]? with
    | true, some t =>
      let (o, pc) := leaderStep n.raft n.files t
      let threads := List.replaceAt n.leaderThreads k (pc.map fun pc => { t with pc })
      some (c.settle s { n with leaderThreads := threads } o none none)
    | _, _ => none
  | .snapshotThread s k crashAt =>
    let n := c.nodes s
    match n.up, n.snapshotThreads[k]? with
    | true, some pc =>
      let (o, pc) := snapshotStep n.raft pc
      let threads := List.replaceAt n.snapshotThreads k pc
      some (c.settle s { n with snapshotThreads := threads } o crashAt none)
    | _, _ => none
  | .crash s =>
    let n := c.nodes s
    if n.up then some { c with nodes := Function.update c.nodes s n.crash } else none
  | .restart s =>
    let n := c.nodes s
    match n.up, n.saved with
    | false, some saved =>
      some (c.settle s { n with up := true, raft := saved, applied := [] }
        (serverRestore saved) none none)
    | _, _ => none

/-- Any number of steps, each of which meets `ok` in the state it is taken in. -/
abbrev Steps (ok : Cluster → Action → Prop) : Cluster → Cluster → Prop := Machine.Steps exec ok

/-- The cluster `c` is reached from the start. -/
abbrev Run (config : Config) (ok : Cluster → Action → Prop) (c : Cluster) : Prop :=
  Steps ok (init config) c

/-- The states of every run. -/
abbrev Reachable (config : Config) : Cluster → Prop := Run config fun _ _ => True

/-- The cluster after a list of steps, if each of them can be taken and passes
the test. -/
abbrev execWhile (test : Cluster → Action → Bool) (c : Cluster) (as : List Action) :
    Option Cluster :=
  Machine.execWhile exec test c as

/-- The cluster after a list of steps, if each of them can be taken. -/
abbrev execAll (c : Cluster) (as : List Action) : Option Cluster := Machine.execAll exec c as

end Cluster

end RaftLock

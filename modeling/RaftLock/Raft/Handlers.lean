import RaftLock.Raft.Storage

/-!
The critical sections of the Raft server: `raft_utils.c`, `raft_follower.c`,
`raft_candidate.c`, `raft_leader.c` and `raft.c`.

A handler holds `raft->lock` from its first access to the state to its last,
so it is a function of the state. What it does outside its memory (saving
the state, writing datagrams, running the commit handler, touching snapshot
files) is returned as a list of effects in program order. Nothing it does
depends on an effect it has made, so the list can be performed afterwards;
and since memory is lost in a crash, a crash inside the handler is exactly a
prefix of the list performed.

A dereferenced null log slot ends the process, and so does, here, an access
outside the `log` array, where the program has no defined behaviour. Both are
`fault`: the effects before it stand and nothing after it happens.
-/

namespace RaftLock

inductive Effect
  /-- `Raft_save_state`. -/
  | save (raft : RaftState)
  /-- `UDP_Write` to the raft socket of `dst`. -/
  | send (dst : Server) (packet : Packet)
  /-- One turn of the loop of `Raft_commit_update`. -/
  | commit (index : ℤ) (entry : LogEntry)
  /-- `pthread_create` of `Raft_leader_thread`, once for each follower. -/
  | spawnLeaderThreads (followers : List Server)
  | removeSnapshot (id : ℤ)
  | copySnapshot (src dst : ℤ)
  | copyFile (src dst : ℤ) (k : ℕ)
  | addToSnapshot (id : ℤ) (filename buffer : Bytes)
  | cleanMainFiles

structure Outcome where
  raft : RaftState
  effects : List Effect
  fault : Bool

namespace Outcome

def ret (raft : RaftState) : Outcome := ⟨raft, [], false⟩

def die (raft : RaftState) : Outcome := ⟨raft, [], true⟩

def emit (raft : RaftState) (effects : List Effect) : Outcome := ⟨raft, effects, false⟩

def andThen (o : Outcome) (f : RaftState → Outcome) : Outcome :=
  if o.fault then o else ⟨(f o.raft).raft, o.effects ++ (f o.raft).effects, (f o.raft).fault⟩

end Outcome

open Outcome

def saveState (raft : RaftState) : Outcome := emit raft [.save raft]

/-! ### `raft_utils.c` -/

/-- The entry behind the pointer `Raft_get_log` returns, or `none` for null. -/
def getLog (raft : RaftState) (absIndex : ℤ) : Option LogEntry :=
  if absIndex < raft.startLogIndex ∨ absIndex ≥ raft.logCount then none
  else some (raft.log (absIndex - raft.startLogIndex).toNat)

def getLogTerm (raft : RaftState) (absIndex : ℤ) : ℤ :=
  if absIndex < raft.startLogIndex ∨ absIndex ≥ raft.logCount then -1
  else (raft.log (absIndex - raft.startLogIndex).toNat).term

/-- A write through the pointer `Raft_get_log` returns. -/
def modifyLog (raft : RaftState) (absIndex : ℤ) (f : LogEntry → LogEntry) : Option RaftState :=
  if absIndex < raft.startLogIndex ∨ absIndex ≥ raft.logCount ∨
      absIndex - raft.startLogIndex ≥ (logSize : ℤ) then none
  else
    let slot := (absIndex - raft.startLogIndex).toNat
    some { raft with log := Function.update raft.log slot (f (raft.log slot)) }

/-! ### Committing -/

/-- The loop of `Raft_commit_update`, `turns` entries from `i` on. -/
def commitLoop (raft : RaftState) : ℕ → ℤ → Outcome
  | 0, _ => ret raft
  | turns + 1, i =>
    match getLog raft i with
    | none => die raft
    | some e => (emit raft [.commit i e]).andThen fun raft => commitLoop raft turns (i + 1)

def commitUpdate (raft : RaftState) (newCommitIndex : ℤ) : Outcome :=
  (commitLoop raft (newCommitIndex - raft.commitIndex).toNat (raft.commitIndex + 1)).andThen
    fun raft => ret { raft with commitIndex := newCommitIndex }

/-! ### `raft_follower.c` -/

def convertToFollower (raft : RaftState) (term : ℤ) : Outcome :=
  let raft := { raft with
    currentTerm := term, nvoted := 0, nblocked := 0, votedFor := -1, state := .follower }
  if raft.installSnapshotId ≠ -1 then
    emit { raft with installSnapshotId := -1, installSnapshotIndex := -1 }
      [.removeSnapshot raft.installSnapshotId]
  else ret raft

/-- The end of a request handler: the answer goes out after the last save. -/
def answer (raft : RaftState) (addr : Server) (requestId success : ℤ) : Outcome :=
  emit raft [.send addr (.response ⟨raft.id, raft.currentTerm, success, requestId⟩)]

/-- The branch of `Raft_handle_append_request` that writes the entry. -/
def storeEntry (raft : RaftState) (r : AppendRequest) : Outcome :=
  let index := r.prevLogIndex + 1
  let raft :=
    if index < raft.logCount ∧ getLogTerm raft index ≠ r.entry.term then
      { raft with state := .follower, logCount := index + 1 }
    else if raft.logCount = index then
      { raft with state := .follower, logCount := raft.logCount + 1 }
    else { raft with state := .follower }
  match modifyLog raft index fun _ => r.entry with
  | none => die raft
  | some raft =>
    if r.leaderCommit > raft.commitIndex then
      commitUpdate raft (if r.leaderCommit > index then index else r.leaderCommit)
    else ret raft

/-- The consistency check of `Raft_handle_append_request`, passed. -/
def consistent (raft : RaftState) (r : AppendRequest) : Prop :=
  ¬ (raft.currentTerm > r.term ∨ r.prevLogIndex ≥ raft.logCount ∨
    getLogTerm raft r.prevLogIndex ≠ r.prevLogTerm)

instance (raft : RaftState) (r : AppendRequest) : Decidable (consistent raft r) :=
  inferInstanceAs (Decidable (¬ _))

def handleAppendRequest (raft : RaftState) (addr : Server) (r : AppendRequest) : Outcome :=
  (if raft.currentTerm < r.term then convertToFollower raft r.term else ret raft).andThen
    fun raft =>
  if ¬ consistent raft r then
    (saveState raft).andThen fun raft => answer raft addr r.requestId 0
  else if r.entriesN = 0 then
    let raft := { raft with state := .follower }
    (if r.leaderCommit > raft.commitIndex then commitUpdate raft r.leaderCommit
      else ret raft).andThen fun raft =>
    (saveState raft).andThen fun raft => answer raft addr r.requestId 1
  else
    (storeEntry raft r).andThen fun raft =>
    (saveState raft).andThen fun raft => answer raft addr r.requestId 1

/-- The check an `InstallSnapshot` request has to pass. -/
def installable (raft : RaftState) (r : InstallRequest) : Prop :=
  ¬ (raft.currentTerm > r.term ∨
    (raft.installSnapshotId ≠ -1 ∧ raft.installSnapshotId ≠ r.snapshotId) ∨
    raft.installSnapshotIndex + 1 ≠ r.index)

instance (raft : RaftState) (r : InstallRequest) : Decidable (installable raft r) :=
  inferInstanceAs (Decidable (¬ _))

/-- The state after the last request of a transfer: the log is replaced by
the snapshot. -/
def installDone (raft : RaftState) (snapshotId : ℤ) : RaftState :=
  { raft with
    snapshotInProgress := false
    startLogIndex := snapshotId
    logCount := snapshotId
    commitIndex := snapshotId - 1
    lastAppliedIndex := snapshotId - 1
    installSnapshotIndex := -1
    installSnapshotId := -1 }

def handleInstallSnapshotRequest (raft : RaftState) (addr : Server) (r : InstallRequest) :
    Outcome :=
  (if raft.currentTerm < r.term then (convertToFollower raft r.term).andThen saveState
    else ret raft).andThen fun raft =>
  if ¬ installable raft r then answer raft addr r.requestId 0
  else if r.done then
    let outdatedSnapshot := raft.startLogIndex
    (emit (installDone raft r.snapshotId) [.copySnapshot r.snapshotId (-1)]).andThen fun raft =>
    (saveState raft).andThen fun raft =>
    (answer raft addr r.requestId 1).andThen fun raft =>
    if outdatedSnapshot ≠ 0 then emit raft [.removeSnapshot outdatedSnapshot] else ret raft
  else
    (emit { raft with
        snapshotInProgress := true
        installSnapshotId := r.snapshotId
        installSnapshotIndex := raft.installSnapshotIndex + 1 }
      [.addToSnapshot r.snapshotId r.filename r.buffer]).andThen fun raft =>
    (saveState raft).andThen fun raft => answer raft addr r.requestId 1

/-! ### `raft_leader.c` -/

/-- The other configured servers, in the order of the configuration. -/
def others (raft : RaftState) : List Server :=
  (List.finRange nServers).filter fun i => raft.config i ≠ raft.id

def convertToLeader (raft : RaftState) : Outcome :=
  let raft := { raft with
    nFollowersReceivingSnapshots := 0, logCount := raft.logCount + 1 }
  -- the fields of the slot that are not named here keep what they held
  match modifyLog raft (raft.logCount - 1) fun e =>
      { e with term := raft.currentTerm, nServersReplicated := 1, type := .leaderLog } with
  | none => die raft
  | some raft =>
    (saveState { raft with
      nextIndex := fun _ => raft.logCount
      matchIndex := fun _ => 0
      lastRequestId := fun _ => 0
      lastRequestResponse := fun _ => -1 }).andThen fun raft =>
    emit { raft with state := .leader } [.spawnLeaderThreads (others raft)]

def sendAppendEntryRequest (raft : RaftState) (follower : Server) : Outcome :=
  let followerId := raft.config follower
  let nextInd := raft.nextIndex followerId
  let request (entriesN : ℤ) (entry : LogEntry) : AppendRequest :=
    { term := raft.currentTerm
      leaderId := raft.id
      prevLogIndex := nextInd - 1
      prevLogTerm := getLogTerm raft (nextInd - 1)
      entry
      entriesN
      leaderCommit := raft.commitIndex
      requestId := raft.lastRequestId followerId }
  if nextInd = raft.logCount then emit raft [.send follower (.append (request 0 default))]
  else
    match getLog raft nextInd with
    | none => die raft
    | some e => emit raft [.send follower (.append (request 1 e))]

/-- The acknowledgement of the entry at `next_index`: count it, and commit
once a majority of the servers is counted. -/
def countReplica (raft : RaftState) (next : ℤ) : Outcome :=
  if next > raft.commitIndex ∧ getLogTerm raft next = raft.currentTerm then
    match modifyLog raft next fun e =>
        { e with nServersReplicated := e.nServersReplicated + 1 } with
    | none => die raft
    | some raft =>
      if (raft.log (next - raft.startLogIndex).toNat).nServersReplicated * 2 > (nServers : ℤ) then
        commitUpdate raft next
      else ret raft
  else ret raft

def handleAppendResponse (raft : RaftState) (r : Response) : Outcome :=
  (if r.success = 0 then
      ret { raft with
        nextIndex := Function.update raft.nextIndex r.id (raft.nextIndex r.id - 1) }
    else if raft.nextIndex r.id < raft.logCount then
      (countReplica raft (raft.nextIndex r.id)).andThen fun raft =>
      ret { raft with
        matchIndex := Function.update raft.matchIndex r.id (raft.nextIndex r.id)
        nextIndex := Function.update raft.nextIndex r.id (raft.nextIndex r.id + 1) }
    else ret raft).andThen fun raft =>
  saveState { raft with
    lastRequestId := Function.update raft.lastRequestId r.id (raft.lastRequestId r.id + 1) }

def handleInstallResponse (raft : RaftState) (r : Response) : Outcome :=
  saveState { raft with
    lastRequestId := Function.update raft.lastRequestId r.id (raft.lastRequestId r.id + 1) }

/-! ### `raft_candidate.c` -/

/-- `Raft_attempt_to_elect` up to the release of the lock. -/
def attemptToElect (raft : RaftState) : Outcome :=
  let raft := { raft with
    currentTerm := raft.currentTerm + 1
    votedFor := raft.id
    state := .candidate
    nvoted := 1
    nblocked := 0 }
  (saveState raft).andThen fun raft =>
  emit raft ((others raft).map fun i => .send i (.vote
    { term := raft.currentTerm
      candidateId := raft.id
      lastLogIndex := raft.logCount - 1
      lastLogTerm := getLogTerm raft (raft.logCount - 1) }))

/-- The comparison of `Raft_handle_vote_request` in the candidate's favour. -/
def upToDate (raft : RaftState) (r : VoteRequest) : Prop :=
  r.lastLogTerm > getLogTerm raft (raft.logCount - 1) ∨
    (r.lastLogTerm = getLogTerm raft (raft.logCount - 1) ∧ r.lastLogIndex ≥ raft.logCount - 1)

instance (raft : RaftState) (r : VoteRequest) : Decidable (upToDate raft r) :=
  inferInstanceAs (Decidable (_ ∨ _))

def handleVoteRequest (raft : RaftState) (addr : Server) (r : VoteRequest) : Outcome :=
  (if raft.currentTerm < r.term then (convertToFollower raft r.term).andThen saveState
    else ret raft).andThen fun raft =>
  if raft.currentTerm = r.term ∧ raft.votedFor = -1 then
    if upToDate raft r then
      (saveState { raft with votedFor := r.candidateId }).andThen fun raft =>
        answer raft addr (-1) 1
    else (saveState raft).andThen fun raft => answer raft addr (-1) (-1)
  else answer raft addr (-1) 0

def handleVoteResponse (raft : RaftState) (r : Response) : Outcome :=
  if r.success ≤ 0 then
    if r.success = -1 then ret { raft with nblocked := raft.nblocked + 1 } else ret raft
  else
    let raft := { raft with nvoted := raft.nvoted + 1 }
    if raft.nvoted * 2 > (nServers : ℤ) then convertToLeader raft else ret raft

/-! ### `raft.c` -/

def handleResponse (raft : RaftState) (r : Response) : Outcome :=
  if raft.currentTerm > r.term then ret raft
  else if raft.currentTerm < r.term then (convertToFollower raft r.term).andThen saveState
  else
    let raft := { raft with
      lastRequestResponse := Function.update raft.lastRequestResponse r.id r.success }
    match raft.state with
    | .candidate => handleVoteResponse raft r
    | .leader =>
      if r.requestId = raft.lastRequestId r.id then
        if raft.nextIndex r.id < raft.startLogIndex then handleInstallResponse raft r
        else handleAppendResponse raft r
      else ret raft
    | .follower => ret raft

/-- The `switch` of `Raft_handle_packet`. -/
def handlePacket (raft : RaftState) (addr : Server) : Packet → Outcome
  | .response r => handleResponse raft r
  | .vote r => handleVoteRequest raft addr r
  | .append r => handleAppendRequest raft addr r
  | .installSnapshot r => handleInstallSnapshotRequest raft addr r

/-- `Raft_append_entry`. -/
def appendEntry (raft : RaftState) (log : LogEntry) : Outcome :=
  if raft.state ≠ .leader ∨ raft.logCount = raft.startLogIndex + (logSize : ℤ) then ret raft
  else
    let raft := { raft with logCount := raft.logCount + 1 }
    match modifyLog raft (raft.logCount - 1) fun _ =>
        { log with term := raft.currentTerm, nServersReplicated := 1, type := .clientLog } with
    | none => die raft
    | some raft => saveState raft

/-- The first critical section of `Raft_create_snapshot`: the state with the
flag set, or `none` when the call is refused. -/
def createSnapshotEnter (raft : RaftState) (newLogStart : ℤ) : Option RaftState :=
  if raft.snapshotInProgress ∨ raft.nFollowersReceivingSnapshots > 0 ∨
      newLogStart ≤ raft.startLogIndex ∨ newLogStart > raft.commitIndex + 1 then none
  else some { raft with snapshotInProgress := true }

/-- `log[k] = log[k + d]` for `k` from `0` up. -/
def copyDown (log : ℕ → LogEntry) (d count : ℕ) : ℕ → LogEntry :=
  (List.range count).foldl (fun log k => Function.update log k (log (k + d))) log

/-- The second critical section of `Raft_create_snapshot`. -/
def createSnapshotShift (raft : RaftState) (newLogStart : ℤ) : Outcome :=
  let raft := { raft with snapshotInProgress := false }
  if newLogStart < raft.logCount ∧ (newLogStart < raft.startLogIndex ∨
      raft.logCount - raft.startLogIndex > (logSize : ℤ)) then die raft
  else
    saveState { raft with
      log := copyDown raft.log (newLogStart - raft.startLogIndex).toNat
        (raft.logCount - newLogStart).toNat
      startLogIndex := newLogStart }

/-- `Raft_server_init` on empty directories. The log is a zeroed global and
so are the fields the function does not set. -/
def serverInit (config : Config) (id : ℤ) : RaftState :=
  { config, id
    currentTerm := 0
    votedFor := -1
    log := fun _ => default
    startLogIndex := 0
    logCount := 0
    state := .follower
    commitIndex := -1
    lastAppliedIndex := -1
    snapshotInProgress := false
    installSnapshotIndex := -1
    installSnapshotId := -1
    nvoted := 0
    nblocked := 0
    nextIndex := fun _ => 0
    matchIndex := fun _ => 0
    lastRequestId := fun _ => 0
    lastRequestResponse := fun _ => 0
    nFollowersReceivingSnapshots := 0 }

/-- `Raft_server_restore` on the state `Raft_load_state` read. -/
def serverRestore (saved : RaftState) : Outcome :=
  let prevSessionCommitIndex := saved.commitIndex
  let raft := { saved with
    state := .follower
    snapshotInProgress := false
    nFollowersReceivingSnapshots := 0
    commitIndex := saved.startLogIndex - 1
    lastAppliedIndex := -1
    nvoted := 0
    nblocked := 0
    installSnapshotId := -1
    installSnapshotIndex := -1 }
  (emit raft (.cleanMainFiles ::
    if raft.startLogIndex ≠ 0 then [.copySnapshot raft.startLogIndex (-1)] else [])).andThen
    fun raft =>
  (commitUpdate raft prevSessionCommitIndex).andThen fun raft =>
  emit raft (((List.range 100).filter fun i => (i : ℤ) ≠ raft.startLogIndex).map
    fun i => .removeSnapshot i)

/-- `Raft_is_entry_committed`, the loop from `i` on. -/
def isEntryCommittedFrom (raft : RaftState) (term id : ℤ) : ℕ → ℤ → ℤ
  | 0, _ => 0
  | turns + 1, i =>
    match getLog raft i with
    | none => 0
    | some e =>
      if e.term = term ∧ e.id = id then if raft.commitIndex ≥ i then 1 else 0
      else if e.term > term then if raft.commitIndex ≥ i then -1 else 0
      else isEntryCommittedFrom raft term id turns (i + 1)

def isEntryCommitted (raft : RaftState) (term id : ℤ) : ℤ :=
  isEntryCommittedFrom raft term id (raft.logCount - raft.startLogIndex).toNat
    raft.startLogIndex

end RaftLock

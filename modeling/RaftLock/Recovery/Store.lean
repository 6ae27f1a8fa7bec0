import RaftLock.Library.Machine
import RaftLock.Raft.Nodes
import RaftLock.Recovery.Files

/-!
One server's log and files, whatever the other servers make of it.

The log grows by any entries at its end and is cut off behind the commit
index; the commit index goes forward; the state is saved; threads run
`Raft_create_snapshot`, one access at a time; the process ends and is started
again. Which of this happens is left open, and so is what happens to the
fields of the state that the log is not made of.
-/

namespace RaftLock

open Outcome

/-- A server, and the entries that its log began with before they were
compacted. -/
structure Store where
  node : Node
  past : List LogEntry

/-- The entries of the window before index `i`. -/
def entriesTo (r : RaftState) (i : ℤ) : List LogEntry :=
  (List.range (i - r.startLogIndex).toNat).map r.log

/-- The write that every growth of the log ends in: a new last slot, and the
entry in it. -/
def pushEntry (r : RaftState) (e : LogEntry) : Option RaftState :=
  modifyLog { r with logCount := r.logCount + 1 } r.logCount fun _ => e

inductive StoreAction
  | append (e : LogEntry)
  /-- `log_count` is set back to `n`. -/
  | truncate (n : ℤ)
  /-- `Raft_commit_update`. -/
  | commit (n : ℤ) (crashAt : Option ℕ)
  | save
  /-- Fields other than those of the log change to those of `r`. -/
  | other (r : RaftState)
  /-- A thread calls `Raft_create_snapshot`. -/
  | call (newLogStart : ℤ)
  | thread (k : ℕ)
  | crash
  /-- `Raft_server_restore`. -/
  | restore (crashAt : Option ℕ)

namespace Store

/-- `Raft_server_init`. -/
def init (config : Config) (s : Server) : Store := ⟨.init config s, []⟩

/-- All entries from the first one on, as far as the window goes. -/
def fullLog (s : Store) : List LogEntry := s.past ++ entriesTo s.node.raft s.node.raft.logCount

/-- The entries up to the commit index. -/
def committed (s : Store) : List LogEntry :=
  s.past ++ entriesTo s.node.raft (s.node.raft.commitIndex + 1)

/-- The fields of `r` other than those the log is made of. -/
def withLogOf (r raft : RaftState) : RaftState :=
  { r with
    log := raft.log
    startLogIndex := raft.startLogIndex
    logCount := raft.logCount
    commitIndex := raft.commitIndex
    snapshotInProgress := raft.snapshotInProgress }

/-- The second section of `Raft_create_snapshot` drops entries. -/
def pastAfter (s : Store) : SnapshotPc → List LogEntry
  | .shift n _ => s.past ++ entriesTo s.node.raft n
  | _ => s.past

/-- Thread `k` of those in `Raft_create_snapshot` takes its next step. -/
def runThread (s : Store) (k : ℕ) (pc : SnapshotPc) : Store :=
  let threads := List.replaceAt s.node.snapshotThreads k (snapshotStep s.node.raft pc).2
  { node := { s.node with snapshotThreads := threads }.settle (snapshotStep s.node.raft pc).1 none
    past := s.pastAfter pc }

/-- A step. The process does not end while a thread is in
`Raft_create_snapshot`. -/
def exec (s : Store) : StoreAction → Option Store
  | .append e =>
    let n := s.node
    if n.up then (pushEntry n.raft e).map fun raft => { s with node := { n with raft } } else none
  | .truncate logCount =>
    let n := s.node
    if n.up ∧ n.raft.commitIndex < logCount ∧ logCount ≤ n.raft.logCount then
      some { s with node := { n with raft := { n.raft with logCount } } }
    else none
  | .commit i crashAt =>
    let n := s.node
    if n.up ∧ n.raft.commitIndex ≤ i ∧ i ≤ n.raft.logCount - 1 ∧
        (crashAt = none ∨ n.snapshotThreads = []) then
      some { s with node := n.settle (commitUpdate n.raft i) crashAt }
    else none
  | .save =>
    let n := s.node
    if n.up then some { s with node := n.settle (saveState n.raft) none } else none
  | .other r =>
    let n := s.node
    if n.up then some { s with node := { n with raft := withLogOf r n.raft } } else none
  | .call newLogStart =>
    let n := s.node
    if n.up then
      some { s with node :=
        { n with snapshotThreads := n.snapshotThreads ++ [.enter newLogStart] } }
    else none
  | .thread k =>
    let n := s.node
    match n.up, n.snapshotThreads[k]? with
    | true, some pc => some (s.runThread k pc)
    | _, _ => none
  | .crash =>
    let n := s.node
    if n.up ∧ n.snapshotThreads = [] then some { s with node := n.crash } else none
  | .restore crashAt =>
    let n := s.node
    match n.up, n.saved with
    | false, some saved =>
      some { s with node := (n.reloaded saved).settle (serverRestore saved) crashAt }
    | _, _ => none

end Store

end RaftLock

import RaftLock.Raft.Cluster
import RaftLock.Raft.Sections

/-!
The cluster as its messages see it.

A world has one state for each server: the one in memory while the server is
up, and while it is down the one it will come back with. A crash in the
middle of a handler is then a whole step or no step at all, up to lost
answers and turns of the commit loop already made: a server saves its state
before anything leaves it. The safety arguments are made about worlds;
`RaftLock.Raft.Refinement` carries them over to the cluster.
-/

namespace RaftLock

open Outcome

/-! ### Candidates -/

/-- The state in which a server stands for election. -/
def campaigner (r : RaftState) : RaftState :=
  { r with
    currentTerm := r.currentTerm + 1
    votedFor := r.id
    state := .candidate
    nvoted := 1
    nblocked := 0 }

def voteRequest (r : RaftState) : VoteRequest :=
  { term := r.currentTerm + 1
    candidateId := r.id
    lastLogIndex := r.logCount - 1
    lastLogTerm := getLogTerm r (r.logCount - 1) }

theorem attemptToElect_eq (r : RaftState) :
    attemptToElect r = ⟨campaigner r, .save (campaigner r) ::
      (others r).map fun i => .send i (.vote (voteRequest r)), false⟩ := rfl

/-! ### Leader threads -/

/-- The append request to `follower`. -/
def appendRequest (r : RaftState) (follower : Server) (entriesN : ℤ) (entry : LogEntry) :
    AppendRequest :=
  { term := r.currentTerm
    leaderId := r.id
    prevLogIndex := r.nextIndex (r.config follower) - 1
    prevLogTerm := getLogTerm r (r.nextIndex (r.config follower) - 1)
    entry
    entriesN
    leaderCommit := r.commitIndex
    requestId := r.lastRequestId (r.config follower) }

/-- A thread at the head of `Raft_send_snapshot`. -/
def Entering (r : RaftState) (t : LeaderThread) : Prop :=
  t.pc = .waiting ∨
    (t.pc = .idle ∧ r.state = .leader ∧ r.nextIndex (r.config t.follower) < r.startLogIndex)

/-- What one critical section of a leader thread can do. -/
inductive Sends (r : RaftState) (t : LeaderThread) :
    RaftState → List Effect → Option LeaderPc → Prop
  | stop (hpc : t.pc = .idle) (hstate : r.state ≠ .leader) : Sends r t r [] none
  | heartbeat (hpc : t.pc = .idle) (hstate : r.state = .leader)
      (hnext : r.startLogIndex ≤ r.nextIndex (r.config t.follower))
      (heq : r.nextIndex (r.config t.follower) = r.logCount) :
      Sends r t r [.send t.follower (.append (appendRequest r t.follower 0 default))]
        (some .idle)
  | entry (hpc : t.pc = .idle) (hstate : r.state = .leader)
      (hnext : r.startLogIndex ≤ r.nextIndex (r.config t.follower)) (e : LogEntry)
      (he : getLog r (r.nextIndex (r.config t.follower)) = some e) :
      Sends r t r [.send t.follower (.append (appendRequest r t.follower 1 e))] (some .idle)
  | wait (hpc : Entering r t) (hbusy : r.snapshotInProgress = true) :
      Sends r t r [] (some .waiting)
  | first (hpc : Entering r t) (hfree : r.snapshotInProgress = false) (q : InstallRequest)
      (it : SnapshotIterator) (hterm : q.term = r.currentTerm)
      (hid : q.snapshotId = r.startLogIndex) :
      Sends r t { r with nFollowersReceivingSnapshots := r.nFollowersReceivingSnapshots + 1 }
        [.send t.follower (.installSnapshot q)] (some (.sending q it))
  | next (q q' : InstallRequest) (it it' : SnapshotIterator) (hpc : t.pc = .sending q it)
      (hterm : q'.term = q.term) (hid : q'.snapshotId = q.snapshotId) :
      Sends r t r [.send t.follower (.installSnapshot q')] (some (.sending q' it'))
  | giveUp (q : InstallRequest) (it : SnapshotIterator) (hpc : t.pc = .sending q it) :
      Sends r t { r with nFollowersReceivingSnapshots := r.nFollowersReceivingSnapshots - 1 } []
        (some .idle)
  | finish (q : InstallRequest) (it : SnapshotIterator) (hpc : t.pc = .sending q it)
      (hid : q.requestId ≠ r.lastRequestId (r.config t.follower))
      (hres : r.lastRequestResponse (r.config t.follower) ≠ 0) (hdone : q.done = true) :
      Sends r t
        { r with
          nextIndex := Function.update r.nextIndex (r.config t.follower) r.startLogIndex
          matchIndex :=
            Function.update r.matchIndex (r.config t.follower) (r.startLogIndex - 1)
          nFollowersReceivingSnapshots := r.nFollowersReceivingSnapshots - 1 } []
        (some .idle)

theorem sendChunk_sends (r : RaftState) (files : FileSystem) (f : Server) (q : InstallRequest)
    (it : SnapshotIterator) (ind : ℤ) :
    ∃ q' it', q'.term = q.term ∧ q'.snapshotId = q.snapshotId ∧
      sendChunk r files f q it ind =
        (emit r [.send f (.installSnapshot q')], .sending q' it') := by
  unfold sendChunk
  cases h : it.getNext files with
  | mk it' block =>
      cases block with
      | none =>
          let q' : InstallRequest :=
            { q with index := ind, requestId := r.lastRequestId (r.config f), done := true }
          exact ⟨q', it', rfl, rfl, rfl⟩
      | some block =>
          let q' : InstallRequest :=
            { q with
              index := ind
              requestId := r.lastRequestId (r.config f)
              done := false
              filename := block.1
              buffer := block.2 }
          exact ⟨q', it', rfl, rfl, rfl⟩

theorem sendSnapshot_sends {r : RaftState} {files : FileSystem} {t : LeaderThread}
    (hpc : Entering r t) :
    (sendSnapshot r files t.follower).1.fault = false ∧
    Sends r t (sendSnapshot r files t.follower).1.raft
      (sendSnapshot r files t.follower).1.effects
      (some (sendSnapshot r files t.follower).2) := by
  unfold sendSnapshot
  by_cases hbusy : r.snapshotInProgress = true
  · rw [if_pos hbusy]
    exact ⟨rfl, .wait hpc hbusy⟩
  · rw [if_neg hbusy]
    simp only
    obtain ⟨q, it, hterm, hid, heq⟩ := sendChunk_sends
      { r with nFollowersReceivingSnapshots := r.nFollowersReceivingSnapshots + 1 } files t.follower
      { term := r.currentTerm, leaderId := r.id, snapshotId := r.startLogIndex
        index := 0, done := false, requestId := 0, filename := [], buffer := [] }
      (snapshotItInit r.startLogIndex) 0
    rw [heq]
    exact ⟨rfl, .first hpc (by simpa using hbusy) q it hterm hid⟩

theorem resumeSnapshot_sends {r : RaftState} {files : FileSystem} {t : LeaderThread}
    {q : InstallRequest} {it : SnapshotIterator} (hpc : t.pc = .sending q it) :
    (resumeSnapshot r files t.follower q it).1.fault = false ∧
    Sends r t (resumeSnapshot r files t.follower q it).1.raft
      (resumeSnapshot r files t.follower q it).1.effects
      (some (resumeSnapshot r files t.follower q it).2) := by
  unfold resumeSnapshot
  simp only
  by_cases hsame : q.requestId = r.lastRequestId (r.config t.follower)
  · rw [if_pos hsame]
    exact ⟨rfl, .next q q it it hpc rfl rfl⟩
  rw [if_neg hsame]
  by_cases hrefused : r.lastRequestResponse (r.config t.follower) = 0
  · rw [if_pos hrefused]
    exact ⟨rfl, .giveUp q it hpc⟩
  rw [if_neg hrefused]
  cases hmore : q.done with
  | false =>
      obtain ⟨q', it', hterm, hid, heq⟩ := sendChunk_sends r files t.follower q it
        (q.index + 1)
      simp only [Bool.false_eq_true, not_false_eq_true, if_true, heq]
      exact ⟨rfl, .next q q' it it' hpc hterm hid⟩
  | true =>
      simp only [not_true_eq_false, if_false]
      exact ⟨rfl, .finish q it hpc hsame hrefused hmore⟩

theorem leaderStep_sends {r : RaftState} {files : FileSystem} {t : LeaderThread}
    (hf : (leaderStep r files t).1.fault = false) :
    Sends r t (leaderStep r files t).1.raft (leaderStep r files t).1.effects
      (leaderStep r files t).2 := by
  unfold leaderStep at hf ⊢
  cases hpc : t.pc with
  | idle =>
      simp only [hpc] at hf ⊢
      by_cases hstate : r.state = .leader
      · by_cases hnext : r.nextIndex (r.config t.follower) < r.startLogIndex
        · simp only [hstate, hnext, ne_eq, not_true_eq_false, if_true, if_false]
          exact (sendSnapshot_sends (Or.inr ⟨hpc, hstate, hnext⟩)).2
        · simp only [hstate, hnext, ne_eq, not_true_eq_false, if_false] at hf ⊢
          unfold sendAppendEntryRequest at hf ⊢
          by_cases heq : r.nextIndex (r.config t.follower) = r.logCount
          · simp only [heq, if_true]
            have := Sends.heartbeat hpc hstate (not_lt.mp hnext) heq
            unfold appendRequest at this
            rw [heq] at this
            exact this
          · simp only [heq, if_false] at hf ⊢
            cases he : getLog r (r.nextIndex (r.config t.follower)) with
            | none =>
                simp only [he] at hf
                exact absurd hf (by simp [die])
            | some e => exact .entry hpc hstate (not_lt.mp hnext) e he
      · simp only [hstate, ne_eq, not_false_eq_true, if_true]
        exact .stop hpc hstate
  | waiting =>
      simp only
      exact (sendSnapshot_sends (Or.inl hpc)).2
  | sending q it =>
      simp only
      exact (resumeSnapshot_sends hpc).2

/-- Only the lookup of the entry to send can end the process, and then nothing
has been sent. -/
theorem leaderStep_fault {r : RaftState} {files : FileSystem} {t : LeaderThread}
    (hf : (leaderStep r files t).1.fault = true) : (leaderStep r files t).1.effects = [] := by
  unfold leaderStep at hf ⊢
  cases hpc : t.pc with
  | idle =>
      simp only [hpc] at hf ⊢
      by_cases hstate : r.state = .leader
      · by_cases hnext : r.nextIndex (r.config t.follower) < r.startLogIndex
        · simp only [hstate, hnext, ne_eq, not_true_eq_false, if_true, if_false] at hf
          rw [(sendSnapshot_sends (Or.inr ⟨hpc, hstate, hnext⟩)).1] at hf
          exact absurd hf (by simp)
        · simp only [hstate, hnext, ne_eq, not_true_eq_false, if_false] at hf ⊢
          unfold sendAppendEntryRequest at hf ⊢
          simp only at hf ⊢
          split_ifs at hf ⊢ with heq
          · exact absurd hf (by simp [emit])
          · cases he : getLog r (r.nextIndex (r.config t.follower)) with
            | none => rfl
            | some e =>
                simp only [he] at hf
                exact absurd hf (by simp [emit])
      · simp only [hstate, ne_eq, not_false_eq_true, if_true] at hf
        exact absurd hf (by simp [ret])
  | waiting =>
      simp only [hpc] at hf
      rw [(sendSnapshot_sends (Or.inl hpc)).1] at hf
      exact absurd hf (by simp)
  | sending q it =>
      simp only [hpc] at hf
      rw [(resumeSnapshot_sends hpc).1] at hf
      exact absurd hf (by simp)

/-! ### Worlds and their steps -/

/-- `opened` lists the arguments with which `Raft_create_snapshot` has passed
its first critical section. -/
structure World where
  raft : Server → RaftState
  threads : Server → List LeaderThread
  opened : Server → List ℤ
  net : List Datagram
  commits : List (Server × ℤ × LogEntry)

/-- A restriction on runs. A packet is looked at in the state the server is in
once it has taken over the packet's term, and with the entries committed so
far; a leader thread and the second section of `Raft_create_snapshot` in the
state they find. -/
structure Guard where
  packet : List (Server × ℤ × LogEntry) → RaftState → Datagram → Prop
  sender : RaftState → LeaderThread → Prop
  shift : RaftState → ℤ → Prop

/-- The steps of the cluster that the restriction lets pass. -/
def Guard.allows (g : Guard) (c : Cluster) : Action → Prop
  | .deliver k _ => ∀ d ∈ c.net[k]?, g.packet c.commits (arrived (c.nodes d.dst).raft d.packet) d
  | .leaderThread s k => ∀ t ∈ (c.nodes s).leaderThreads[k]?, g.sender (c.nodes s).raft t
  | .snapshotThread s k _ => ∀ pc ∈ (c.nodes s).snapshotThreads[k]?,
      match pc with
      | .shift n _ => g.shift (c.nodes s).raft n
      | _ => True
  | _ => True

instance (g : Guard) [∀ l r d, Decidable (g.packet l r d)] [∀ r t, Decidable (g.sender r t)]
    [∀ r n, Decidable (g.shift r n)] (c : Cluster) (x : Action) : Decidable (g.allows c x) :=
  match x with
  | .deliver k _ =>
    inferInstanceAs (Decidable (∀ d ∈ c.net[k]?,
      g.packet c.commits (arrived (c.nodes d.dst).raft d.packet) d))
  | .leaderThread s k =>
    inferInstanceAs (Decidable (∀ t ∈ (c.nodes s).leaderThreads[k]?,
      g.sender (c.nodes s).raft t))
  | .snapshotThread s k _ =>
    have (pc : SnapshotPc) : Decidable (match pc with
        | .shift n _ => g.shift (c.nodes s).raft n
        | _ => True) := by
      cases pc <;> infer_instance
    inferInstanceAs (Decidable (∀ pc ∈ (c.nodes s).snapshotThreads[k]?,
      match pc with
      | .shift n _ => g.shift (c.nodes s).raft n
      | _ => True))
  | .timeout _ | .elect _ _ | .retry _ _ | .drop _ | .append _ _ _ | .crash _ | .restart _ =>
    inferInstanceAs (Decidable True)

/-- The state a restarted server goes on from. -/
def forget (r : RaftState) : RaftState :=
  { r with
    state := .follower
    snapshotInProgress := false
    nFollowersReceivingSnapshots := 0
    lastAppliedIndex := -1
    nvoted := 0
    nblocked := 0
    installSnapshotId := -1
    installSnapshotIndex := -1 }

theorem forget_agrees (st : RaftState) : Agrees st (forget st) := by
  constructor <;> rfl

def spawned (es : List Effect) : List LeaderThread :=
  es.flatMap fun
    | .spawnLeaderThreads followers => followers.map fun f => ⟨f, .idle⟩
    | _ => []

namespace World

/-- A section of server `s` ends in `r'` with effects `es`. -/
def settle (w : World) (s : Server) (r' : RaftState) (es : List Effect)
    (answers : Option Packet) : World :=
  { raft := Function.update w.raft s r'
    threads := Function.update w.threads s (w.threads s ++ spawned es)
    opened := w.opened
    net := w.net ++ es.filterMap (Cluster.sentBy s answers)
    commits := w.commits ++ es.filterMap (Cluster.committedBy s) }

/-- The vote a server gives when it handles `d`. -/
def ballot (d : Datagram) (r r' : RaftState) : Option (Server × ℤ × Server) :=
  if r'.votedFor = r.votedFor then none else some (d.dst, r'.currentTerm, d.src)

/-- A step, with the vote that is given in it. -/
inductive Step (g : Guard) (w : World) : Option (Server × ℤ × Server) → World → Prop
  | stepDown (s : Server) (t : ℤ) (ht : (w.raft s).currentTerm < t) :
      Step g w none
        { w with raft := Function.update w.raft s (convertToFollower (w.raft s) t).raft }
  | campaign (s : Server) :
      Step g w (some (s, (w.raft s).currentTerm + 1, s))
        (w.settle s (attemptToElect (w.raft s)).raft (attemptToElect (w.raft s)).effects none)
  | handle (a b : List Datagram) (d : Datagram) (r' : RaftState) (es : List Effect)
      (hnet : w.net = a ++ d :: b) (hle : d.packet.term ≤ (w.raft d.dst).currentTerm)
      (hg : g.packet w.commits (w.raft d.dst) d)
      (h : Handled (w.raft d.dst) d.src d.packet r' es) :
      Step g w (ballot d (w.raft d.dst) r')
        ({ w with net := a ++ b }.settle d.dst r' es (some d.packet))
  /-- A crash in a handler that has not saved yet: the commits it has made
  remain. -/
  | turns (d : Datagram) (l : List (ℤ × LogEntry)) (hd : d ∈ w.net)
      (hg : g.packet w.commits (arrived (w.raft d.dst) d.packet) d)
      (hl : ∀ x ∈ l, Turn (arrived (w.raft d.dst) d.packet) d.packet x.1 x.2) :
      Step g w none
        { w with
          raft := Function.update w.raft d.dst (forget (w.raft d.dst))
          threads := Function.update w.threads d.dst []
          commits := w.commits ++ l.map fun x => (d.dst, x) }
  | lose (net : List Datagram) (h : net.Sublist w.net) : Step g w none { w with net }
  | append (s : Server) (e : LogEntry) (hf : (appendEntry (w.raft s) e).fault = false) :
      Step g w none
        (w.settle s (appendEntry (w.raft s) e).raft (appendEntry (w.raft s) e).effects none)
  | sender (s : Server) (a b : List LeaderThread) (t : LeaderThread) (r' : RaftState)
      (es : List Effect) (pc : Option LeaderPc) (ht : w.threads s = a ++ t :: b)
      (hg : g.sender (w.raft s) t) (h : Sends (w.raft s) t r' es pc) :
      Step g w none
        ({ w with
            threads := Function.update w.threads s
              (a ++ (pc.map fun pc => { t with pc }).toList ++ b) }.settle s r' es none)
  | enter (s : Server) (n : ℤ) (r' : RaftState)
      (h : createSnapshotEnter (w.raft s) n = some r') :
      Step g w none
        { w with
          raft := Function.update w.raft s r'
          opened := Function.update w.opened s (n :: w.opened s) }
  | shift (s : Server) (n : ℤ) (hn : n ∈ w.opened s) (hg : g.shift (w.raft s) n)
      (hf : (createSnapshotShift (w.raft s) n).fault = false) :
      Step g w none
        (w.settle s (createSnapshotShift (w.raft s) n).raft
          (createSnapshotShift (w.raft s) n).effects none)
  | crash (s : Server) (st : RaftState) (hst : Agrees st (w.raft s)) :
      Step g w none
        { w with
          raft := Function.update w.raft s (forget st)
          threads := Function.update w.threads s [] }
  /-- The commits of a restart. -/
  | replay (s : Server) (l : List (ℤ × LogEntry))
      (hl : ∀ x ∈ l, x.1 ≤ (w.raft s).commitIndex ∧ getLog (w.raft s) x.1 = some x.2) :
      Step g w none { w with commits := w.commits ++ l.map fun x => (s, x) }

/-- Any number of steps. -/
abbrev Path (g : Guard) : World → World → Prop :=
  Relation.ReflTransGen fun w w' => ∃ v, Step g w v w'

def init (config : Config) : World :=
  { raft := fun s => serverInit config (config s)
    threads := fun _ => []
    opened := fun _ => []
    net := []
    commits := [] }

end World

section Settle

variable {w : World} {s : Server} {r' : RaftState} {es : List Effect} {answers : Option Packet}

theorem mem_settle_sent {d : Datagram} (hd : d ∈ (w.settle s r' es answers).net) :
    d ∈ w.net ∨ (d.src = s ∧ d.answers = answers ∧ .send d.dst d.packet ∈ es) := by
  exact (List.mem_append.mp hd).imp id Cluster.mem_sentBy

theorem mem_settle_spawned {v : Server} {t : LeaderThread}
    (ht : t ∈ (w.settle s r' es answers).threads v) :
    t ∈ w.threads v ∨ (v = s ∧ t ∈ spawned es) := by
  rcases eq_or_ne v s with rfl | hv
  · simp only [World.settle, Function.update_self, List.mem_append] at ht
    exact ht.imp id fun hnew => ⟨rfl, hnew⟩
  · exact Or.inl (by simpa [World.settle, hv] using ht)

end Settle

end RaftLock

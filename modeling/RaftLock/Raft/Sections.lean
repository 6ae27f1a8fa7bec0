import Mathlib.Tactic.Ring
import RaftLock.Raft.Handlers

/-!
What a packet handler can do, said once.

A packet of a later term first turns the server into a follower of that term
(`arrived`); what is left is the handler on a state whose term is not behind
the packet. `Handled` lists the outcomes of that, each with its guard, its
new state and its effects, and every later proof about a handler is a case
analysis over it. `Shaped` is what a crash inside a handler needs to know:
nothing leaves the server before the state that justifies it is saved.
-/

namespace RaftLock

open Outcome

namespace Outcome

@[simp] theorem andThen_ret (r : RaftState) (f : RaftState → Outcome) :
    (ret r).andThen f = f r := by
  simp [andThen, ret]

@[simp] theorem andThen_emit (r : RaftState) (es : List Effect) (f : RaftState → Outcome) :
    (emit r es).andThen f = ⟨(f r).raft, es ++ (f r).effects, (f r).fault⟩ := by
  simp [andThen, emit]

end Outcome

/-! ### The window -/

theorem getLog_some {r : RaftState} {i : ℤ} {e : LogEntry} (h : getLog r i = some e) :
    r.startLogIndex ≤ i ∧ i < r.logCount ∧ e = r.log (i - r.startLogIndex).toNat := by
  unfold getLog at h
  split_ifs at h with hi
  push Not at hi
  simp only [Option.some.injEq] at h
  exact ⟨hi.1, hi.2, h.symm⟩

theorem getLog_of_mem {r : RaftState} {i : ℤ} (hlo : r.startLogIndex ≤ i) (hhi : i < r.logCount) :
    getLog r i = some (r.log (i - r.startLogIndex).toNat) := by
  unfold getLog
  rw [if_neg (by omega)]

/-- The term of an entry in the window, and `-1` outside of it. -/
theorem getLogTerm_cases (r : RaftState) (i : ℤ) :
    (∃ e, getLog r i = some e ∧ getLogTerm r i = e.term) ∨
    ((i < r.startLogIndex ∨ r.logCount ≤ i) ∧ getLogTerm r i = -1) := by
  unfold getLog getLogTerm
  by_cases h : i < r.startLogIndex ∨ i ≥ r.logCount
  · rw [if_pos h, if_pos h]
    exact Or.inr ⟨h, rfl⟩
  · rw [if_neg h, if_neg h]
    exact Or.inl ⟨_, rfl, rfl⟩

/-- The first critical section of `Raft_create_snapshot`, passed. -/
theorem createSnapshotEnter_some {r r' : RaftState} {n : ℤ}
    (h : createSnapshotEnter r n = some r') :
    (¬ r.snapshotInProgress ∧ r.nFollowersReceivingSnapshots ≤ 0 ∧ r.startLogIndex < n ∧
      n ≤ r.commitIndex + 1) ∧ r' = { r with snapshotInProgress := true } := by
  unfold createSnapshotEnter at h
  split_ifs at h with hrefused
  push Not at hrefused
  simp only [Option.some.injEq] at h
  exact ⟨hrefused, h.symm⟩

/-! ### Committing -/

def Effect.ofTurn (turn : ℤ × LogEntry) : Effect := .commit turn.1 turn.2

/-- The turns `Raft_commit_update` makes on the way to `n`. -/
def commitTurns (r : RaftState) (n : ℤ) : List (ℤ × LogEntry) :=
  (List.range (n - r.commitIndex).toNat).map fun k : ℕ =>
    (r.commitIndex + 1 + (k : ℤ), (getLog r (r.commitIndex + 1 + k)).getD default)

/-- Every entry on the way from the commit index to `n` is in the log. -/
def Committable (r : RaftState) (n : ℤ) : Prop :=
  ∀ i, r.commitIndex < i → i ≤ n → ∃ e, getLog r i = some e

theorem mem_commitTurns {r : RaftState} {n : ℤ} (hc : Committable r n) {i : ℤ} {e : LogEntry}
    (h : (i, e) ∈ commitTurns r n) : r.commitIndex < i ∧ i ≤ n ∧ getLog r i = some e := by
  simp only [commitTurns, List.mem_map, List.mem_range, Prod.mk.injEq] at h
  obtain ⟨k, hk, rfl, rfl⟩ := h
  have hlt : r.commitIndex < r.commitIndex + 1 + k := by omega
  have hle : r.commitIndex + 1 + (k : ℤ) ≤ n := by omega
  obtain ⟨e, he⟩ := hc _ hlt hle
  exact ⟨hlt, hle, by simp [he]⟩

theorem commitTurns_of_le {r : RaftState} {n : ℤ} (h : n ≤ r.commitIndex) :
    commitTurns r n = [] := by
  have : (n - r.commitIndex).toNat = 0 := by omega
  simp [commitTurns, this]

theorem commitLoop_raft (r : RaftState) (turns : ℕ) (i : ℤ) :
    (commitLoop r turns i).raft = r := by
  induction turns generalizing i with
  | zero => rfl
  | succ turns ih =>
      unfold commitLoop
      split
      · rfl
      · simp [ih]

/-- A loop that runs to its end has found every entry it asked for. -/
theorem commitLoop_ok {r : RaftState} {turns : ℕ} {i : ℤ}
    (h : (commitLoop r turns i).fault = false) :
    (commitLoop r turns i).effects = (List.range turns).map
      (fun k : ℕ => Effect.ofTurn (i + (k : ℤ), (getLog r (i + k)).getD default)) ∧
    ∀ k < turns, ∃ e, getLog r (i + k) = some e := by
  induction turns generalizing i with
  | zero => simp [commitLoop, ret]
  | succ turns ih =>
      unfold commitLoop at h ⊢
      cases he : getLog r i with
      | none => simp [he, die] at h
      | some e =>
          simp only [he, andThen_emit] at h ⊢
          obtain ⟨heff, hall⟩ := ih h
          refine ⟨?_, ?_⟩
          · rw [heff, List.range_succ_eq_map]
            simp [Effect.ofTurn, he, Function.comp_def, add_comm, add_left_comm]
          · intro k hk
            cases k with
            | zero => exact ⟨e, by simpa using he⟩
            | succ k =>
                have := hall k (by omega)
                push_cast
                rwa [show i + ((k : ℤ) + 1) = i + 1 + k by ring]

/-- Whether or not it ends well, the loop only commits entries of the log. -/
theorem commitLoop_mem {r : RaftState} {turns : ℕ} {i : ℤ} {x : Effect}
    (h : x ∈ (commitLoop r turns i).effects) :
    ∃ j e, x = .commit j e ∧ i ≤ j ∧ j < i + turns ∧ getLog r j = some e := by
  induction turns generalizing i with
  | zero => simp [commitLoop, ret] at h
  | succ turns ih =>
      unfold commitLoop at h
      cases he : getLog r i with
      | none => simp [he, die] at h
      | some e =>
          simp only [he, andThen_emit, List.singleton_append, List.mem_cons] at h
          rcases h with rfl | h
          · exact ⟨i, e, rfl, le_rfl, by omega, he⟩
          · obtain ⟨j, e', rfl, hj, hj', hget⟩ := ih h
            exact ⟨j, e', rfl, by omega, by push_cast; omega, hget⟩

theorem commitUpdate_ok {r : RaftState} {n : ℤ} (h : (commitUpdate r n).fault = false) :
    commitUpdate r n = emit { r with commitIndex := n } ((commitTurns r n).map Effect.ofTurn) ∧
    Committable r n := by
  unfold commitUpdate at h ⊢
  have hf : (commitLoop r (n - r.commitIndex).toNat (r.commitIndex + 1)).fault = false := by
    unfold andThen at h
    split at h
    · exact h
    · rename_i hne
      simpa using hne
  obtain ⟨heff, hall⟩ := commitLoop_ok hf
  refine ⟨?_, ?_⟩
  · simp only [andThen, hf, Bool.false_eq_true, if_false, commitLoop_raft, heff, ret, emit,
      List.append_nil, commitTurns, List.map_map]
    rfl
  · intro i hlo hhi
    obtain ⟨e, he⟩ := hall (i - r.commitIndex - 1).toNat (by omega)
    refine ⟨e, ?_⟩
    rwa [show r.commitIndex + 1 + ((i - r.commitIndex - 1).toNat : ℤ) = i by omega] at he

/-- A loop that finds its entries runs to its end. -/
theorem commitLoop_fault {r : RaftState} {turns : ℕ} {i : ℤ}
    (h : ∀ k < turns, ∃ e, getLog r (i + (k : ℤ)) = some e) :
    (commitLoop r turns i).fault = false := by
  induction turns generalizing i with
  | zero => rfl
  | succ turns ih =>
      obtain ⟨e, he⟩ := h 0 (by omega)
      simp only [Nat.cast_zero, add_zero] at he
      simp only [commitLoop, he, andThen_emit]
      refine ih fun k hk => ?_
      obtain ⟨e', he'⟩ := h (k + 1) (by omega)
      refine ⟨e', ?_⟩
      rw [← he']
      push_cast
      ring_nf

theorem commitUpdate_fault {r : RaftState} {n : ℤ} (h : Committable r n) :
    (commitUpdate r n).fault = false := by
  have hloop : (commitLoop r (n - r.commitIndex).toNat (r.commitIndex + 1)).fault = false :=
    commitLoop_fault fun k hk => h _ (by omega) (by omega)
  simp [commitUpdate, andThen, hloop, ret]

theorem committable_of_lt {r : RaftState} {n : ℤ} (hlo : r.startLogIndex ≤ r.commitIndex + 1)
    (hhi : n < r.logCount) : Committable r n :=
  fun i hi hin => ⟨_, getLog_of_mem (by omega) (by omega)⟩

theorem commitUpdate_mem {r : RaftState} {n : ℤ} {x : Effect}
    (h : x ∈ (commitUpdate r n).effects) :
    ∃ j e, x = .commit j e ∧ r.commitIndex < j ∧ j ≤ n ∧ getLog r j = some e := by
  have hmem : x ∈ (commitLoop r (n - r.commitIndex).toNat (r.commitIndex + 1)).effects := by
    unfold commitUpdate andThen at h
    split at h
    · exact h
    · simpa [ret] using h
  obtain ⟨j, e, rfl, hlo, hhi, he⟩ := commitLoop_mem hmem
  exact ⟨j, e, rfl, by omega, by omega, he⟩

/-! ### What a handler can do -/

def Packet.term : Packet → ℤ
  | .append q => q.term
  | .vote q => q.term
  | .installSnapshot q => q.term
  | .response q => q.term

/-- The state in which the rest of a handler runs: a packet of a later term
has turned the server into a follower of that term. -/
def arrived (r : RaftState) (packet : Packet) : RaftState :=
  if r.currentTerm < packet.term then (convertToFollower r packet.term).raft else r

def reply (r : RaftState) (addr : Server) (requestId success : ℤ) : Effect :=
  .send addr (.response ⟨r.id, r.currentTerm, success, requestId⟩)

/-- The length of the log once the entry of `q` is written. -/
def storedCount (r : RaftState) (q : AppendRequest) : ℤ :=
  if q.prevLogIndex + 1 < r.logCount ∧ getLogTerm r (q.prevLogIndex + 1) ≠ q.entry.term then
    q.prevLogIndex + 2
  else if r.logCount = q.prevLogIndex + 1 then r.logCount + 1
  else r.logCount

def stored (r : RaftState) (q : AppendRequest) : RaftState :=
  { r with
    state := .follower
    logCount := storedCount r q
    log := Function.update r.log (q.prevLogIndex + 1 - r.startLogIndex).toNat q.entry }

/-- The commit index after an accepted append request. -/
def commitTarget (r : RaftState) (q : AppendRequest) : ℤ :=
  if q.leaderCommit > r.commitIndex then
    if q.entriesN = 0 then q.leaderCommit
    else if q.leaderCommit > q.prevLogIndex + 1 then q.prevLogIndex + 1 else q.leaderCommit
  else r.commitIndex

def noted (r : RaftState) (q : Response) : RaftState :=
  { r with lastRequestResponse := Function.update r.lastRequestResponse q.id q.success }

/-- The candidate that has just won: the leader's own entry is in its log. -/
def elected (r : RaftState) : RaftState :=
  { r with
    nFollowersReceivingSnapshots := 0
    logCount := r.logCount + 1
    log := Function.update r.log (r.logCount - r.startLogIndex).toNat
      { r.log (r.logCount - r.startLogIndex).toNat with
        term := r.currentTerm, nServersReplicated := 1, type := .leaderLog }
    nextIndex := fun _ => r.logCount + 1
    matchIndex := fun _ => 0
    lastRequestId := fun _ => 0
    lastRequestResponse := fun _ => -1
    state := .leader }

/-- The request of `id` is answered, the follower's next index is `next`. -/
def answered (r : RaftState) (id next : ℤ) : RaftState :=
  { r with
    nextIndex := Function.update r.nextIndex id next
    lastRequestId := Function.update r.lastRequestId id (r.lastRequestId id + 1) }

/-- The same after a successful answer to an entry. -/
def matched (r : RaftState) (id : ℤ) : RaftState :=
  { r with
    matchIndex := Function.update r.matchIndex id (r.nextIndex id)
    nextIndex := Function.update r.nextIndex id (r.nextIndex id + 1)
    lastRequestId := Function.update r.lastRequestId id (r.lastRequestId id + 1) }

/-- One more server is counted for the entry at `i`. -/
def counted (r : RaftState) (i : ℤ) : RaftState :=
  { r with
    log := Function.update r.log (i - r.startLogIndex).toNat
      { r.log (i - r.startLogIndex).toNat with
        nServersReplicated := (r.log (i - r.startLogIndex).toNat).nServersReplicated + 1 } }

/-- The commit index after the entry at `i` has been counted once more. -/
def countTarget (r : RaftState) (i : ℤ) : ℤ :=
  if ((r.log (i - r.startLogIndex).toNat).nServersReplicated + 1) * 2 > (nServers : ℤ) then i
  else r.commitIndex

/-- What handling a packet of the current or an earlier term can do. -/
inductive Handled (r : RaftState) (addr : Server) : Packet → RaftState → List Effect → Prop
  | voteRefused (q : VoteRequest) (success : ℤ) (es : List Effect) (hs : success ≤ 0)
      (hes : es = [] ∨ es = [.save r]) :
      Handled r addr (.vote q) r (es ++ [reply r addr (-1) success])
  | voteGranted (q : VoteRequest) (hterm : q.term = r.currentTerm) (hfree : r.votedFor = -1)
      (hup : upToDate r q) :
      Handled r addr (.vote q) { r with votedFor := q.candidateId }
        [.save { r with votedFor := q.candidateId }, reply r addr (-1) 1]
  | appendRefused (q : AppendRequest) (hc : ¬ consistent r q) :
      Handled r addr (.append q) r [.save r, reply r addr q.requestId 0]
  | heartbeat (q : AppendRequest) (hterm : q.term = r.currentTerm) (hc : consistent r q)
      (hn : q.entriesN = 0) (hcommit : Committable r (commitTarget r q)) :
      Handled r addr (.append q)
        { r with state := .follower, commitIndex := commitTarget r q }
        ((commitTurns r (commitTarget r q)).map Effect.ofTurn ++
          [.save { r with state := .follower, commitIndex := commitTarget r q },
            reply r addr q.requestId 1])
  | entryStored (q : AppendRequest) (hterm : q.term = r.currentTerm) (hc : consistent r q)
      (hn : q.entriesN ≠ 0) (hlo : r.startLogIndex ≤ q.prevLogIndex + 1)
      (hhi : q.prevLogIndex + 1 < storedCount r q)
      (hroom : q.prevLogIndex + 1 - r.startLogIndex < (logSize : ℤ))
      (hcommit : Committable (stored r q) (commitTarget r q)) :
      Handled r addr (.append q) { stored r q with commitIndex := commitTarget r q }
        ((commitTurns (stored r q) (commitTarget r q)).map Effect.ofTurn ++
          [.save { stored r q with commitIndex := commitTarget r q },
            reply r addr q.requestId 1])
  | installRefused (q : InstallRequest) (hi : ¬ installable r q) :
      Handled r addr (.installSnapshot q) r [reply r addr q.requestId 0]
  | installChunk (q : InstallRequest) (hterm : q.term = r.currentTerm) (hi : installable r q)
      (hd : q.done = false) (r' : RaftState)
      (hr' : r' = { r with
        snapshotInProgress := true
        installSnapshotId := q.snapshotId
        installSnapshotIndex := r.installSnapshotIndex + 1 }) :
      Handled r addr (.installSnapshot q) r'
        [.addToSnapshot q.snapshotId q.filename q.buffer, .save r', reply r addr q.requestId 1]
  | installDone (q : InstallRequest) (hterm : q.term = r.currentTerm) (hi : installable r q)
      (hd : q.done = true) (es : List Effect)
      (hes : es = [] ∨ es = [.removeSnapshot r.startLogIndex]) :
      Handled r addr (.installSnapshot q) (installDone r q.snapshotId)
        ([.copySnapshot q.snapshotId (-1), .save (installDone r q.snapshotId),
          reply r addr q.requestId 1] ++ es)
  | responseOld (q : Response) (hterm : q.term < r.currentTerm) :
      Handled r addr (.response q) r []
  | responseUnused (q : Response) (hterm : q.term = r.currentTerm)
      (hstate : r.state = .follower ∨ (r.state = .leader ∧ q.requestId ≠ r.lastRequestId q.id) ∨
        (r.state = .candidate ∧ q.success ≤ 0)) :
      Handled r addr (.response q) (noted r q) []
  | voteBlocked (q : Response) (hterm : q.term = r.currentTerm) (hstate : r.state = .candidate)
      (hs : q.success = -1) :
      Handled r addr (.response q) { noted r q with nblocked := r.nblocked + 1 } []
  | voteCounted (q : Response) (hterm : q.term = r.currentTerm) (hstate : r.state = .candidate)
      (hs : 0 < q.success) (hfew : ¬ (r.nvoted + 1) * 2 > (nServers : ℤ)) :
      Handled r addr (.response q) { noted r q with nvoted := r.nvoted + 1 } []
  | voteDecided (q : Response) (hterm : q.term = r.currentTerm) (hstate : r.state = .candidate)
      (hs : 0 < q.success) (hmany : (r.nvoted + 1) * 2 > (nServers : ℤ))
      (hlo : r.startLogIndex ≤ r.logCount)
      (hroom : r.logCount - r.startLogIndex < (logSize : ℤ)) (r' : RaftState)
      (hr' : r' = elected { noted r q with nvoted := r.nvoted + 1 }) :
      Handled r addr (.response q) r'
        [.save { r' with state := .candidate }, .spawnLeaderThreads (others r)]
  | installAnswered (q : Response) (hterm : q.term = r.currentTerm) (hstate : r.state = .leader)
      (hid : q.requestId = r.lastRequestId q.id) (hnext : r.nextIndex q.id < r.startLogIndex)
      (r' : RaftState) (hr' : r' = answered (noted r q) q.id (r.nextIndex q.id)) :
      Handled r addr (.response q) r' [.save r']
  | appendAnswered (q : Response) (hterm : q.term = r.currentTerm) (hstate : r.state = .leader)
      (hid : q.requestId = r.lastRequestId q.id) (hnext : r.startLogIndex ≤ r.nextIndex q.id)
      (next : ℤ) (hans : (q.success = 0 ∧ next = r.nextIndex q.id - 1) ∨
        (q.success ≠ 0 ∧ r.logCount ≤ r.nextIndex q.id ∧ next = r.nextIndex q.id))
      (r' : RaftState) (hr' : r' = answered (noted r q) q.id next) :
      Handled r addr (.response q) r' [.save r']
  | entryAnswered (q : Response) (hterm : q.term = r.currentTerm) (hstate : r.state = .leader)
      (hid : q.requestId = r.lastRequestId q.id) (hnext : r.startLogIndex ≤ r.nextIndex q.id)
      (hlt : r.nextIndex q.id < r.logCount) (hs : q.success ≠ 0)
      (hskip : ¬ (r.nextIndex q.id > r.commitIndex ∧
        getLogTerm r (r.nextIndex q.id) = r.currentTerm))
      (r' : RaftState) (hr' : r' = matched (noted r q) q.id) :
      Handled r addr (.response q) r' [.save r']
  | entryCounted (q : Response) (hterm : q.term = r.currentTerm) (hstate : r.state = .leader)
      (hid : q.requestId = r.lastRequestId q.id) (hnext : r.startLogIndex ≤ r.nextIndex q.id)
      (hlt : r.nextIndex q.id < r.logCount) (hs : q.success ≠ 0)
      (hnew : r.nextIndex q.id > r.commitIndex)
      (hown : getLogTerm r (r.nextIndex q.id) = r.currentTerm)
      (hroom : r.nextIndex q.id - r.startLogIndex < (logSize : ℤ)) (n : ℤ)
      (hn : n = countTarget r (r.nextIndex q.id))
      (hcommit : Committable (counted r (r.nextIndex q.id)) n) (r' : RaftState)
      (hr' : r' = { matched (counted (noted r q) (r.nextIndex q.id)) q.id with
        commitIndex := n }) :
      Handled r addr (.response q) r'
        ((commitTurns (counted r (r.nextIndex q.id)) n).map Effect.ofTurn ++ [.save r'])

theorem fault_of_andThen {o : Outcome} {f : RaftState → Outcome}
    (h : (o.andThen f).fault = false) : o.fault = false ∧ (f o.raft).fault = false := by
  unfold Outcome.andThen at h
  split at h
  · rename_i ht
    simp [ht] at h
  · rename_i ht
    exact ⟨by simpa using ht, h⟩

/-- When only the first part can fail and the whole has failed, the second
part has not run. -/
theorem andThen_of_fault {o : Outcome} {f : RaftState → Outcome} (h : (o.andThen f).fault = true)
    (hf : (f o.raft).fault = false) : o.andThen f = o := by
  unfold Outcome.andThen at h ⊢
  split_ifs at h ⊢ with ho
  · rfl
  · rw [hf] at h
    exact absurd h (by simp)

theorem handled_vote {r : RaftState} {addr : Server} {q : VoteRequest}
    (hle : q.term ≤ r.currentTerm) :
    Handled r addr (.vote q) (handleVoteRequest r addr q).raft
      (handleVoteRequest r addr q).effects := by
  unfold handleVoteRequest
  rw [if_neg (by omega), andThen_ret]
  split_ifs with hfree hup
  · exact .voteGranted q hfree.1.symm hfree.2 hup
  · exact .voteRefused q (-1) [.save r] (by decide) (Or.inr rfl)
  · exact .voteRefused q 0 [] le_rfl (Or.inl rfl)

theorem consistent.term {r : RaftState} {q : AppendRequest} (h : consistent r q) :
    r.currentTerm ≤ q.term := by
  by_contra hlt
  exact h (Or.inl (by omega))

theorem modifyLog_some {r r' : RaftState} {i : ℤ} {f : LogEntry → LogEntry}
    (h : modifyLog r i f = some r') :
    r.startLogIndex ≤ i ∧ i < r.logCount ∧ i - r.startLogIndex < (logSize : ℤ) ∧
    r' = { r with
      log := Function.update r.log (i - r.startLogIndex).toNat
        (f (r.log (i - r.startLogIndex).toNat)) } := by
  unfold modifyLog at h
  split at h
  · exact absurd h (by simp)
  · rename_i hslot
    push Not at hslot
    simp only [Option.some.injEq] at h
    exact ⟨hslot.1, hslot.2.1, hslot.2.2, h.symm⟩

theorem modifyLog_none {r : RaftState} {i : ℤ} {f : LogEntry → LogEntry}
    (h : modifyLog r i f = none) :
    ¬ (r.startLogIndex ≤ i ∧ i < r.logCount ∧ i - r.startLogIndex < (logSize : ℤ)) := by
  unfold modifyLog at h
  split at h
  · rename_i hslot
    omega
  · exact absurd h (by simp)

/-- The branch that writes an entry stops at a bad slot or writes it. -/
theorem storeEntry_cases (r : RaftState) (q : AppendRequest) :
    (¬ (r.startLogIndex ≤ q.prevLogIndex + 1 ∧ q.prevLogIndex + 1 < storedCount r q ∧
      q.prevLogIndex + 1 - r.startLogIndex < (logSize : ℤ)) ∧
      storeEntry r q = die { r with state := .follower, logCount := storedCount r q }) ∨
    (r.startLogIndex ≤ q.prevLogIndex + 1 ∧ q.prevLogIndex + 1 < storedCount r q ∧
      q.prevLogIndex + 1 - r.startLogIndex < (logSize : ℤ) ∧
      storeEntry r q = if q.leaderCommit > r.commitIndex then
          commitUpdate (stored r q) (if q.leaderCommit > q.prevLogIndex + 1 then
            q.prevLogIndex + 1 else q.leaderCommit)
        else ret (stored r q)) := by
  -- the three branches differ in `logCount` only
  have hbranch : (if q.prevLogIndex + 1 < r.logCount ∧
        getLogTerm r (q.prevLogIndex + 1) ≠ q.entry.term then
      { r with state := .follower, logCount := q.prevLogIndex + 1 + 1 }
    else if r.logCount = q.prevLogIndex + 1 then
      { r with state := .follower, logCount := r.logCount + 1 }
    else { r with state := .follower } : RaftState) =
      { r with state := .follower, logCount := storedCount r q } := by
    unfold storedCount
    split_ifs
    · rw [show q.prevLogIndex + 1 + 1 = q.prevLogIndex + 2 by ring]
    · rfl
    · rfl
  unfold storeEntry
  simp only [hbranch]
  cases hm : modifyLog { r with state := .follower, logCount := storedCount r q }
      (q.prevLogIndex + 1) fun _ => q.entry with
  | none => exact Or.inl ⟨modifyLog_none hm, rfl⟩
  | some r' =>
      obtain ⟨hlo, hhi, hroom, rfl⟩ := modifyLog_some hm
      exact Or.inr ⟨hlo, hhi, hroom, rfl⟩

theorem storeEntry_ok {r : RaftState} {q : AppendRequest} (hn : q.entriesN ≠ 0)
    (h : (storeEntry r q).fault = false) :
    r.startLogIndex ≤ q.prevLogIndex + 1 ∧ q.prevLogIndex + 1 < storedCount r q ∧
    q.prevLogIndex + 1 - r.startLogIndex < (logSize : ℤ) ∧
    Committable (stored r q) (commitTarget r q) ∧
    storeEntry r q = emit { stored r q with commitIndex := commitTarget r q }
      ((commitTurns (stored r q) (commitTarget r q)).map Effect.ofTurn) := by
  rcases storeEntry_cases r q with ⟨-, hdie⟩ | ⟨hlo, hhi, hroom, heq⟩
  · rw [hdie] at h
    exact absurd h (by simp [die])
  refine ⟨hlo, hhi, hroom, ?_⟩
  rw [heq] at h ⊢
  by_cases hgt : q.leaderCommit > r.commitIndex
  · have htarget : commitTarget r q = if q.leaderCommit > q.prevLogIndex + 1 then
        q.prevLogIndex + 1 else q.leaderCommit := by
      simp [commitTarget, hgt, hn]
    rw [if_pos hgt] at h ⊢
    obtain ⟨hupdate, hcommit⟩ := commitUpdate_ok h
    rw [htarget]
    exact ⟨hcommit, hupdate⟩
  · have htarget : commitTarget r q = r.commitIndex := by simp [commitTarget, hgt]
    have hnone : commitTurns (stored r q) r.commitIndex = [] := commitTurns_of_le le_rfl
    rw [if_neg hgt, htarget, hnone]
    exact ⟨fun i hlo hhi => absurd hlo (not_lt.mpr hhi), rfl⟩

theorem storeEntry_mem {r : RaftState} {q : AppendRequest} {x : Effect}
    (h : x ∈ (storeEntry r q).effects) :
    ∃ i e, x = .commit i e ∧ r.startLogIndex ≤ q.prevLogIndex + 1 ∧ r.commitIndex < i ∧
      i ≤ q.leaderCommit ∧ i ≤ q.prevLogIndex + 1 ∧ getLog (stored r q) i = some e := by
  rcases storeEntry_cases r q with ⟨-, hdie⟩ | ⟨hlow, -, -, heq⟩
  · rw [hdie] at h
    exact absurd h (by simp [die])
  rw [heq] at h
  split_ifs at h with hgt hclamp
  · obtain ⟨i, e, rfl, hlo, hhi, he⟩ := commitUpdate_mem h
    exact ⟨i, e, rfl, hlow, hlo, by omega, hhi, he⟩
  · obtain ⟨i, e, rfl, hlo, hhi, he⟩ := commitUpdate_mem h
    exact ⟨i, e, rfl, hlow, hlo, hhi, by omega, he⟩
  · exact absurd h (by simp [ret])

theorem lt_storedCount {r : RaftState} {q : AppendRequest} (h : q.prevLogIndex < r.logCount) :
    q.prevLogIndex + 1 < storedCount r q := by
  unfold storedCount
  split_ifs <;> omega

/-- Writing an entry that fits the array does not end the process. -/
theorem storeEntry_fault {r : RaftState} {q : AppendRequest} (hprev : q.prevLogIndex < r.logCount)
    (hlo : r.startLogIndex ≤ q.prevLogIndex + 1)
    (hroom : q.prevLogIndex + 1 - r.startLogIndex < (logSize : ℤ))
    (hcommit : r.startLogIndex ≤ r.commitIndex + 1) : (storeEntry r q).fault = false := by
  have hhi := lt_storedCount hprev
  rcases storeEntry_cases r q with ⟨hslot, -⟩ | ⟨-, -, -, heq⟩
  · exact absurd ⟨hlo, hhi, hroom⟩ hslot
  rw [heq]
  split_ifs with hgt hclamp
  · exact commitUpdate_fault (committable_of_lt hcommit hhi)
  · exact commitUpdate_fault (committable_of_lt hcommit (lt_of_le_of_lt (not_lt.mp hclamp) hhi))
  · rfl

theorem handled_append {r : RaftState} {addr : Server} {q : AppendRequest}
    (hle : q.term ≤ r.currentTerm) (hf : (handleAppendRequest r addr q).fault = false) :
    Handled r addr (.append q) (handleAppendRequest r addr q).raft
      (handleAppendRequest r addr q).effects := by
  unfold handleAppendRequest at hf ⊢
  rw [if_neg (by omega), andThen_ret] at hf ⊢
  by_cases hc : consistent r q
  · have hterm : q.term = r.currentTerm := le_antisymm hle hc.term
    rw [if_neg (not_not_intro hc)] at hf ⊢
    by_cases hn : q.entriesN = 0
    · rw [if_pos hn] at hf ⊢
      by_cases hgt : q.leaderCommit > r.commitIndex
      · have htarget : commitTarget r q = q.leaderCommit := by simp [commitTarget, hgt, hn]
        simp only [hgt, if_true] at hf ⊢
        obtain ⟨heq, hcommit⟩ := commitUpdate_ok (fault_of_andThen hf).1
        rw [heq, ← htarget]
        rw [← htarget] at hcommit
        exact .heartbeat q hterm hc hn hcommit
      · have htarget : commitTarget r q = r.commitIndex := by simp [commitTarget, hgt]
        simp only [hgt, if_false]
        have hcommit : Committable r (commitTarget r q) :=
          fun i hlo hhi => absurd hlo (by omega)
        have hbeat := @Handled.heartbeat r addr q hterm hc hn hcommit
        rw [htarget, commitTurns_of_le (le_refl _)] at hbeat
        exact hbeat
    · rw [if_neg hn] at hf ⊢
      obtain ⟨hlo, hhi, hroom, hcommit, heq⟩ := storeEntry_ok hn (fault_of_andThen hf).1
      rw [heq]
      exact .entryStored q hterm hc hn hlo hhi hroom hcommit
  · rw [if_pos hc]
    exact .appendRefused q hc

theorem installable.term {r : RaftState} {q : InstallRequest} (h : installable r q) :
    r.currentTerm ≤ q.term := by
  by_contra hlt
  exact h (Or.inl (by omega))

theorem handled_install {r : RaftState} {addr : Server} {q : InstallRequest}
    (hle : q.term ≤ r.currentTerm) :
    Handled r addr (.installSnapshot q) (handleInstallSnapshotRequest r addr q).raft
      (handleInstallSnapshotRequest r addr q).effects := by
  unfold handleInstallSnapshotRequest
  rw [if_neg (by omega), andThen_ret]
  by_cases hi : installable r q
  · have hterm : q.term = r.currentTerm := le_antisymm hle hi.term
    rw [if_neg (not_not_intro hi)]
    cases hd : q.done with
    | true =>
        by_cases h0 : r.startLogIndex = 0
        · simp only [h0, ne_eq, not_true_eq_false, if_false, if_true]
          exact .installDone q hterm hi hd [] (Or.inl rfl)
        · simp only [h0, ne_eq, not_false_eq_true, if_true]
          exact .installDone q hterm hi hd _ (Or.inr rfl)
    | false => exact .installChunk q hterm hi hd _ rfl
  · rw [if_pos hi]
    exact .installRefused q hi

theorem convertToLeader_ok {r : RaftState} (h : (convertToLeader r).fault = false) :
    r.startLogIndex ≤ r.logCount ∧ r.logCount - r.startLogIndex < (logSize : ℤ) ∧
    convertToLeader r = emit (elected r)
      [.save { elected r with state := r.state }, .spawnLeaderThreads (others r)] := by
  unfold convertToLeader at h ⊢
  cases hm : modifyLog { r with nFollowersReceivingSnapshots := 0, logCount := r.logCount + 1 }
      (r.logCount + 1 - 1) fun e =>
        { e with term := r.currentTerm, nServersReplicated := 1, type := .leaderLog } with
  | none =>
      simp only [hm] at h
      exact absurd h (by simp [die])
  | some r' =>
      simp only [hm]
      obtain ⟨hlo, hhi, hroom, rfl⟩ := modifyLog_some hm
      rw [add_sub_cancel_right] at hlo hroom ⊢
      exact ⟨hlo, hroom, rfl⟩

theorem countReplica_ok {r : RaftState} {i : ℤ} (hnew : i > r.commitIndex)
    (hown : getLogTerm r i = r.currentTerm) (h : (countReplica r i).fault = false) :
    i - r.startLogIndex < (logSize : ℤ) ∧ Committable (counted r i) (countTarget r i) ∧
    countReplica r i = emit { counted r i with commitIndex := countTarget r i }
      ((commitTurns (counted r i) (countTarget r i)).map Effect.ofTurn) := by
  unfold countReplica at h ⊢
  rw [if_pos ⟨hnew, hown⟩] at h ⊢
  cases hm : modifyLog r i fun e => { e with nServersReplicated := e.nServersReplicated + 1 } with
  | none =>
      simp only [hm] at h
      exact absurd h (by simp [die])
  | some r' =>
      simp only [hm] at h ⊢
      obtain ⟨-, -, hroom, rfl⟩ := modifyLog_some hm
      refine ⟨hroom, ?_⟩
      simp only [Function.update_self] at h ⊢
      unfold countTarget
      split_ifs at h ⊢ with hmany
      · obtain ⟨heq, hcommit⟩ := commitUpdate_ok h
        exact ⟨hcommit, heq⟩
      · have hnone : commitTurns (counted r i) r.commitIndex = [] := commitTurns_of_le le_rfl
        rw [hnone]
        exact ⟨fun j hlo hhi => absurd hlo (not_lt.mpr hhi), rfl⟩

theorem countReplica_fault {r : RaftState} {i : ℤ} (hcommit : r.startLogIndex ≤ r.commitIndex + 1)
    (hhi : i < r.logCount) (hroom : i - r.startLogIndex < (logSize : ℤ)) :
    (countReplica r i).fault = false := by
  unfold countReplica
  split_ifs with hnew
  · cases hm : modifyLog r i fun e =>
        { e with nServersReplicated := e.nServersReplicated + 1 } with
    | none => exact absurd ⟨by omega, hhi, hroom⟩ (modifyLog_none hm)
    | some r' =>
        obtain ⟨-, -, -, rfl⟩ := modifyLog_some hm
        simp only
        split_ifs
        · exact commitUpdate_fault (committable_of_lt hcommit hhi)
        · rfl
  · rfl

/-- Counting changes nothing but the counter. -/
theorem core_counted (r : RaftState) (i j : ℤ) :
    (getLog (counted r i) j).map LogEntry.core = (getLog r j).map LogEntry.core := by
  unfold getLog counted
  simp only
  split_ifs
  · rfl
  · rcases eq_or_ne (j - r.startLogIndex).toNat (i - r.startLogIndex).toNat with hslot | hslot
    · rw [hslot, Function.update_self]
      rfl
    · rw [Function.update_of_ne hslot]

theorem handled_appendResponse {r : RaftState} {addr : Server} {q : Response}
    (hterm : q.term = r.currentTerm) (hstate : r.state = .leader)
    (hid : q.requestId = r.lastRequestId q.id) (hnext : r.startLogIndex ≤ r.nextIndex q.id)
    (hf : (handleAppendResponse (noted r q) q).fault = false) :
    Handled r addr (.response q) (handleAppendResponse (noted r q) q).raft
      (handleAppendResponse (noted r q) q).effects := by
  unfold handleAppendResponse at hf ⊢
  by_cases hs : q.success = 0
  · rw [if_pos hs]
    exact .appendAnswered q hterm hstate hid hnext _ (Or.inl ⟨hs, rfl⟩) _ rfl
  rw [if_neg hs] at hf ⊢
  by_cases hlt : (noted r q).nextIndex q.id < (noted r q).logCount
  · rw [if_pos hlt] at hf ⊢
    have hcf := (fault_of_andThen (fault_of_andThen hf).1).1
    by_cases hnew : (noted r q).nextIndex q.id > (noted r q).commitIndex ∧
        getLogTerm (noted r q) ((noted r q).nextIndex q.id) = (noted r q).currentTerm
    · obtain ⟨hroom, hcommit, heq⟩ := countReplica_ok hnew.1 hnew.2 hcf
      simp only [heq, andThen_emit, ret, List.append_nil]
      exact .entryCounted q hterm hstate hid hnext hlt hs hnew.1 hnew.2 hroom _ rfl hcommit _ rfl
    · unfold countReplica
      rw [if_neg hnew]
      exact .entryAnswered q hterm hstate hid hnext hlt hs hnew _ rfl
  · rw [if_neg hlt]
    refine .appendAnswered q hterm hstate hid hnext _ (Or.inr ⟨hs, not_lt.mp hlt, rfl⟩) _ ?_
    simp [saveState, emit, answered, noted]

theorem handled_voteResponse {r : RaftState} {addr : Server} {q : Response}
    (hterm : q.term = r.currentTerm) (hstate : r.state = .candidate)
    (hf : (handleVoteResponse (noted r q) q).fault = false) :
    Handled r addr (.response q) (handleVoteResponse (noted r q) q).raft
      (handleVoteResponse (noted r q) q).effects := by
  unfold handleVoteResponse at hf ⊢
  by_cases hs : q.success ≤ 0
  · rw [if_pos hs]
    by_cases hblock : q.success = -1
    · rw [if_pos hblock]
      exact .voteBlocked q hterm hstate hblock
    · rw [if_neg hblock]
      exact .responseUnused q hterm (Or.inr (Or.inr ⟨hstate, hs⟩))
  rw [if_neg hs] at hf ⊢
  by_cases hmany : ((noted r q).nvoted + 1) * 2 > (nServers : ℤ)
  · simp only [hmany, if_true] at hf ⊢
    obtain ⟨hlo, hroom, heq⟩ := convertToLeader_ok hf
    rw [heq]
    have := @Handled.voteDecided r addr q hterm hstate (by omega) hmany hlo hroom _ rfl
    rwa [← hstate] at this
  · simp only [hmany, if_false]
    exact .voteCounted q hterm hstate (by omega) hmany

theorem handleResponse_eq {r : RaftState} {q : Response} (hterm : q.term = r.currentTerm) :
    handleResponse r q = match (noted r q).state with
      | .candidate => handleVoteResponse (noted r q) q
      | .leader =>
        if q.requestId = (noted r q).lastRequestId q.id then
          if (noted r q).nextIndex q.id < (noted r q).startLogIndex then
            handleInstallResponse (noted r q) q
          else handleAppendResponse (noted r q) q
        else ret (noted r q)
      | .follower => ret (noted r q) := by
  unfold handleResponse
  rw [if_neg (by omega), if_neg (by omega)]
  rfl

theorem handled_response {r : RaftState} {addr : Server} {q : Response}
    (hle : q.term ≤ r.currentTerm) (hf : (handleResponse r q).fault = false) :
    Handled r addr (.response q) (handleResponse r q).raft (handleResponse r q).effects := by
  by_cases hold : r.currentTerm > q.term
  · unfold handleResponse
    rw [if_pos hold]
    exact .responseOld q hold
  have hterm : q.term = r.currentTerm := by omega
  have heq := handleResponse_eq hterm
  rw [heq] at hf ⊢
  have hsame : (noted r q).state = r.state := rfl
  cases hstate : r.state with
  | follower =>
      rw [hsame, hstate]
      exact .responseUnused q hterm (Or.inl hstate)
  | candidate =>
      rw [hsame, hstate] at hf ⊢
      exact handled_voteResponse hterm hstate hf
  | leader =>
      rw [hsame, hstate] at hf ⊢
      by_cases hid : q.requestId = (noted r q).lastRequestId q.id
      · by_cases hnext : (noted r q).nextIndex q.id < (noted r q).startLogIndex
        · simp only [if_pos hid, if_pos hnext]
          refine .installAnswered q hterm hstate hid hnext _ ?_
          simp [handleInstallResponse, saveState, emit, answered, noted]
        · simp only [if_pos hid, if_neg hnext] at hf ⊢
          exact handled_appendResponse hterm hstate hid (not_lt.mp hnext) hf
      · simp only [if_neg hid]
        exact .responseUnused q hterm (Or.inr (Or.inl ⟨hstate, hid⟩))

theorem handled {r : RaftState} {addr : Server} {packet : Packet}
    (hle : packet.term ≤ r.currentTerm) (hf : (handlePacket r addr packet).fault = false) :
    Handled r addr packet (handlePacket r addr packet).raft
      (handlePacket r addr packet).effects := by
  cases packet with
  | append q => exact handled_append hle hf
  | vote q => exact handled_vote hle
  | installSnapshot q => exact handled_install hle
  | response q => exact handled_response hle hf

/-! ### A packet of a later term -/

theorem convertToFollower_effects (r : RaftState) (t : ℤ) :
    (convertToFollower r t).effects = [] ∨
    (convertToFollower r t).effects = [.removeSnapshot r.installSnapshotId] := by
  unfold convertToFollower
  by_cases h : r.installSnapshotId = -1
  · simp [h, ret]
  · simp [h, emit]

theorem convertToFollower_fault (r : RaftState) (t : ℤ) :
    (convertToFollower r t).fault = false := by
  unfold convertToFollower
  by_cases h : r.installSnapshotId = -1
  · simp [h, ret]
  · simp [h, emit]

/-- What `Raft_convert_to_follower` changes. -/
structure Follows (r : RaftState) (t : ℤ) (r' : RaftState) : Prop where
  config : r'.config = r.config
  id : r'.id = r.id
  currentTerm : r'.currentTerm = t
  votedFor : r'.votedFor = -1
  log : r'.log = r.log
  startLogIndex : r'.startLogIndex = r.startLogIndex
  logCount : r'.logCount = r.logCount
  commitIndex : r'.commitIndex = r.commitIndex
  state : r'.state = .follower
  snapshotInProgress : r'.snapshotInProgress = r.snapshotInProgress

theorem convertToFollower_follows (r : RaftState) (t : ℤ) :
    Follows r t (convertToFollower r t).raft := by
  unfold convertToFollower
  by_cases h : r.installSnapshotId = -1
  · constructor <;> simp [h, ret]
  · constructor <;> simp [h, emit]

theorem arrived_of_le {r : RaftState} {packet : Packet} (h : packet.term ≤ r.currentTerm) :
    arrived r packet = r := by
  unfold arrived
  rw [if_neg (by omega)]

theorem arrived_of_lt {r : RaftState} {packet : Packet} (h : r.currentTerm < packet.term) :
    arrived r packet = (convertToFollower r packet.term).raft := by
  unfold arrived
  rw [if_pos h]

theorem le_arrived (r : RaftState) (packet : Packet) :
    packet.term ≤ (arrived r packet).currentTerm := by
  rcases Int.lt_or_le r.currentTerm packet.term with h | h
  · rw [arrived_of_lt h, (convertToFollower_follows r _).currentTerm]
  · rwa [arrived_of_le h]

section Arrived

variable (r : RaftState) (packet : Packet)

theorem arrived_startLogIndex : (arrived r packet).startLogIndex = r.startLogIndex := by
  unfold arrived
  split_ifs
  · exact (convertToFollower_follows r _).startLogIndex
  · rfl

theorem arrived_logCount : (arrived r packet).logCount = r.logCount := by
  unfold arrived
  split_ifs
  · exact (convertToFollower_follows r _).logCount
  · rfl

theorem arrived_log : (arrived r packet).log = r.log := by
  unfold arrived
  split_ifs
  · exact (convertToFollower_follows r _).log
  · rfl

theorem getLogTerm_arrived (i : ℤ) : getLogTerm (arrived r packet) i = getLogTerm r i := by
  simp only [getLogTerm, arrived_startLogIndex, arrived_logCount, arrived_log]

theorem getLog_arrived (i : ℤ) : getLog (arrived r packet) i = getLog r i := by
  simp only [getLog, arrived_startLogIndex, arrived_logCount, arrived_log]

theorem term_le_arrived : r.currentTerm ≤ (arrived r packet).currentTerm := by
  rcases Int.lt_or_le r.currentTerm packet.term with h | h
  · exact h.le.trans (le_arrived r packet)
  · rw [arrived_of_le h]

end Arrived

theorem consistent_of_arrived {r : RaftState} {packet : Packet} {q : AppendRequest}
    (h : consistent (arrived r packet) q) : consistent r q := by
  have hterm := term_le_arrived r packet
  unfold consistent at h ⊢
  rw [getLogTerm_arrived, arrived_logCount] at h
  push Not at h ⊢
  exact ⟨by omega, h.2⟩

/-- The effects of the step from `r` to `arrived r packet`: every handler but
the one for append requests saves the new term at once. -/
def arrival (r : RaftState) (packet : Packet) : List Effect :=
  (convertToFollower r packet.term).effects ++
    match packet with
    | .append _ => []
    | _ => [.save (arrived r packet)]

/-- A request of a later term is handled in two parts. -/
theorem handlePacket_later {r : RaftState} {addr : Server} {packet : Packet}
    (h : r.currentTerm < packet.term) (hreq : ∀ q, packet ≠ .response q) :
    handlePacket r addr packet =
      ⟨(handlePacket (arrived r packet) addr packet).raft,
        arrival r packet ++ (handlePacket (arrived r packet) addr packet).effects,
        (handlePacket (arrived r packet) addr packet).fault⟩ := by
  have hle : ¬ (arrived r packet).currentTerm < packet.term := not_lt.mpr (le_arrived r packet)
  have hf := convertToFollower_fault r packet.term
  have hr := arrived_of_lt h
  cases packet with
  | append q =>
      simp only [Packet.term] at h hle hf hr
      simp only [handlePacket, handleAppendRequest, arrival, Packet.term, if_pos h, if_neg hle,
        andThen_ret, List.append_nil]
      simp only [Outcome.andThen, hf, hr, Bool.false_eq_true, if_false]
  | vote q =>
      simp only [Packet.term] at h hle hf hr
      simp only [handlePacket, handleVoteRequest, arrival, Packet.term, if_pos h, if_neg hle,
        andThen_ret]
      simp only [Outcome.andThen, saveState, emit, hf, hr, Bool.false_eq_true, if_false]
  | installSnapshot q =>
      simp only [Packet.term] at h hle hf hr
      simp only [handlePacket, handleInstallSnapshotRequest, arrival, Packet.term, if_pos h,
        if_neg hle, andThen_ret]
      simp only [Outcome.andThen, saveState, emit, hf, hr, Bool.false_eq_true, if_false]
  | response q => exact absurd rfl (hreq q)

theorem handleResponse_later {r : RaftState} {addr : Server} {q : Response}
    (h : r.currentTerm < q.term) :
    handlePacket r addr (.response q) =
      ⟨arrived r (.response q), arrival r (.response q), false⟩ := by
  have hf := convertToFollower_fault r q.term
  have hr : arrived r (.response q) = _ := arrived_of_lt h
  simp only [handlePacket, handleResponse, if_neg (not_lt.mpr (le_of_lt h)), if_pos h, arrival,
    Packet.term]
  simp only [Outcome.andThen, saveState, emit, hf, hr, Bool.false_eq_true, if_false, Packet.term]

/-! ### The order of effects -/

/-- The fields a restarted server goes on from are the same. -/
structure Agrees (r r' : RaftState) : Prop where
  config : r.config = r'.config
  id : r.id = r'.id
  currentTerm : r.currentTerm = r'.currentTerm
  votedFor : r.votedFor = r'.votedFor
  log : r.log = r'.log
  startLogIndex : r.startLogIndex = r'.startLogIndex
  logCount : r.logCount = r'.logCount
  commitIndex : r.commitIndex = r'.commitIndex

theorem Agrees.refl (r : RaftState) : Agrees r r := by
  constructor <;> rfl

theorem Agrees.symm {r r' : RaftState} (h : Agrees r r') : Agrees r' r where
  config := h.config.symm
  id := h.id.symm
  currentTerm := h.currentTerm.symm
  votedFor := h.votedFor.symm
  log := h.log.symm
  startLogIndex := h.startLogIndex.symm
  logCount := h.logCount.symm
  commitIndex := h.commitIndex.symm

theorem Agrees.trans {r₁ r₂ r₃ : RaftState} (h : Agrees r₁ r₂) (h' : Agrees r₂ r₃) :
    Agrees r₁ r₃ where
  config := h.config.trans h'.config
  id := h.id.trans h'.id
  currentTerm := h.currentTerm.trans h'.currentTerm
  votedFor := h.votedFor.trans h'.votedFor
  log := h.log.trans h'.log
  startLogIndex := h.startLogIndex.trans h'.startLogIndex
  logCount := h.logCount.trans h'.logCount
  commitIndex := h.commitIndex.trans h'.commitIndex

/-- Effects a crash forgets, the turns of the commit loop apart. -/
def Effect.isQuiet : Effect → Prop
  | .save _ | .send _ _ | .spawnLeaderThreads _ => False
  | _ => True

/-- Effects that may come after the state is saved. -/
def Effect.isLate : Effect → Prop
  | .save _ | .commit _ _ => False
  | _ => True

/-- The effects `es` of a section from `r` to `r'`: either nothing that lasts
has changed, or the new state is saved before anything leaves the server. -/
inductive Shaped (r r' : RaftState) (es : List Effect) : Prop
  | unchanged (hr : Agrees r' r) (hes : ∀ x ∈ es, x.isLate)
  | saved (pre post : List Effect) (st : RaftState) (hes : es = pre ++ .save st :: post)
      (hpre : ∀ x ∈ pre, x.isQuiet) (hpost : ∀ x ∈ post, x.isLate) (hst : Agrees st r')

theorem isQuiet_ofTurn (l : List (ℤ × LogEntry)) : ∀ x ∈ l.map Effect.ofTurn, x.isQuiet := by
  intro x hx
  obtain ⟨turn, -, rfl⟩ := List.mem_map.mp hx
  trivial

theorem Handled.shaped {r r' : RaftState} {addr : Server} {packet : Packet} {es : List Effect}
    (h : Handled r addr packet r' es) : Shaped r r' es := by
  -- the handlers that save do it once, and what follows is the answer
  have hsave : ∀ (st : RaftState) (pre post : List Effect), (∀ x ∈ pre, x.isQuiet) →
      (∀ x ∈ post, x.isLate) → Agrees st r' → Shaped r r' (pre ++ .save st :: post) :=
    fun st pre post hpre hpost hst => .saved pre post st rfl hpre hpost hst
  cases h with
  | voteRefused q success es hs hes =>
      rcases hes with rfl | rfl
      · exact .unchanged (Agrees.refl _) (by simp [reply, Effect.isLate])
      · exact hsave _ [] _ (by simp) (by simp [reply, Effect.isLate]) (Agrees.refl _)
  | voteGranted q hterm hfree hup =>
      exact hsave _ [] _ (by simp) (by simp [reply, Effect.isLate]) (Agrees.refl _)
  | appendRefused q hc =>
      exact hsave _ [] _ (by simp) (by simp [reply, Effect.isLate]) (Agrees.refl _)
  | heartbeat q hterm hc hn hcommit =>
      exact hsave _ _ _ (isQuiet_ofTurn _) (by simp [reply, Effect.isLate]) (Agrees.refl _)
  | entryStored q hterm hc hn hlo hhi hroom hcommit =>
      exact hsave _ _ _ (isQuiet_ofTurn _) (by simp [reply, Effect.isLate]) (Agrees.refl _)
  | installRefused q hi => exact .unchanged (Agrees.refl _) (by simp [reply, Effect.isLate])
  | installChunk q hterm hi hd r' hr' =>
      exact hsave _ [_] _ (by simp [Effect.isQuiet]) (by simp [reply, Effect.isLate])
        (Agrees.refl _)
  | installDone q hterm hi hd es hes =>
      refine hsave _ [_] _ (by simp [Effect.isQuiet]) ?_ (Agrees.refl _)
      rcases hes with rfl | rfl
      · simp [reply, Effect.isLate]
      · simp [reply, Effect.isLate]
  | responseOld q hterm => exact .unchanged (Agrees.refl _) (by simp)
  | responseUnused q hterm hstate => exact .unchanged (by constructor <;> rfl) (by simp)
  | voteBlocked q hterm hstate hs => exact .unchanged (by constructor <;> rfl) (by simp)
  | voteCounted q hterm hstate hs hfew => exact .unchanged (by constructor <;> rfl) (by simp)
  | voteDecided q hterm hstate hs hmany hlo hroom r' hr' =>
      exact hsave _ [] _ (by simp) (by simp [Effect.isLate]) (by constructor <;> rfl)
  | installAnswered q hterm hstate hid hnext r' hr' =>
      exact hsave _ [] _ (by simp) (by simp) (Agrees.refl _)
  | appendAnswered q hterm hstate hid hnext next hans r' hr' =>
      exact hsave _ [] _ (by simp) (by simp) (Agrees.refl _)
  | entryAnswered q hterm hstate hid hnext hlt hs hskip r' hr' =>
      exact hsave _ [] _ (by simp) (by simp) (Agrees.refl _)
  | entryCounted q hterm hstate hid hnext hlt hs hnew hown hroom n hn hcommit r' hr' =>
      exact hsave _ _ _ (isQuiet_ofTurn _) (by simp) (Agrees.refl _)

/-! ### The turns of the commit loop -/

/-- Why a handler commits the entry `e` at `i`. -/
inductive Turn (r : RaftState) : Packet → ℤ → LogEntry → Prop
  | heartbeat (q : AppendRequest) (i : ℤ) (e : LogEntry) (hterm : q.term = r.currentTerm)
      (hc : consistent r q) (hn : q.entriesN = 0) (hlo : r.commitIndex < i)
      (hhi : i ≤ q.leaderCommit) (he : getLog r i = some e) : Turn r (.append q) i e
  | stored (q : AppendRequest) (i : ℤ) (e : LogEntry) (hterm : q.term = r.currentTerm)
      (hc : consistent r q) (hn : q.entriesN ≠ 0) (hlow : r.startLogIndex ≤ q.prevLogIndex + 1)
      (hlo : r.commitIndex < i) (hhi : i ≤ q.leaderCommit) (hhi' : i ≤ q.prevLogIndex + 1)
      (he : getLog (stored r q) i = some e) : Turn r (.append q) i e
  | counted (q : Response) (i : ℤ) (e : LogEntry) (hterm : q.term = r.currentTerm)
      (hstate : r.state = .leader) (hid : q.requestId = r.lastRequestId q.id)
      (hnext : r.startLogIndex ≤ r.nextIndex q.id) (hlt : r.nextIndex q.id < r.logCount)
      (hs : q.success ≠ 0) (hnew : r.nextIndex q.id > r.commitIndex)
      (hown : getLogTerm r (r.nextIndex q.id) = r.currentTerm)
      (hmany : ((r.log (r.nextIndex q.id - r.startLogIndex).toNat).nServersReplicated + 1) * 2 >
        (nServers : ℤ))
      (hlo : r.commitIndex < i) (hhi : i ≤ r.nextIndex q.id)
      (he : getLog (counted r (r.nextIndex q.id)) i = some e) : Turn r (.response q) i e

theorem Handled.turn {r r' : RaftState} {addr : Server} {packet : Packet} {es : List Effect}
    (h : Handled r addr packet r' es) {i : ℤ} {e : LogEntry} (hmem : .commit i e ∈ es) :
    Turn r packet i e := by
  -- a turn that is not among those of `Raft_commit_update` is not there
  have hturns : ∀ {r₁ : RaftState} {n : ℤ}, Committable r₁ n →
      .commit i e ∈ (commitTurns r₁ n).map Effect.ofTurn →
      r₁.commitIndex < i ∧ i ≤ n ∧ getLog r₁ i = some e := by
    intro r₁ n hc hx
    obtain ⟨⟨j, x⟩, hj, hjx⟩ := List.mem_map.mp hx
    simp only [Effect.ofTurn, Effect.commit.injEq] at hjx
    obtain ⟨rfl, rfl⟩ := hjx
    exact mem_commitTurns hc hj
  cases h with
  | heartbeat q hterm hc hn hcommit =>
      simp only [List.mem_append, List.mem_cons, reply, reduceCtorEq, List.not_mem_nil,
        or_false] at hmem
      obtain ⟨hlo, hhi, he⟩ := hturns hcommit hmem
      refine .heartbeat q i e hterm hc hn hlo ?_ he
      unfold commitTarget at hhi
      split_ifs at hhi <;> omega
  | entryStored q hterm hc hn hlo hhi hroom hcommit =>
      simp only [List.mem_append, List.mem_cons, reply, reduceCtorEq, List.not_mem_nil,
        or_false] at hmem
      obtain ⟨hlt, hle, he⟩ := hturns hcommit hmem
      have hlt' : r.commitIndex < i := hlt
      unfold commitTarget at hle
      refine .stored q i e hterm hc hn hlo hlt ?_ ?_ he <;> split_ifs at hle <;> omega
  | entryCounted q hterm hstate hid hnext hlt hs hnew hown hroom n hn hcommit r' hr' =>
      simp only [List.mem_append, List.mem_cons, reduceCtorEq, List.not_mem_nil,
        or_false] at hmem
      obtain ⟨hlo, hhi, he⟩ := hturns hcommit hmem
      have hlo' : r.commitIndex < i := hlo
      unfold countTarget at hn
      split_ifs at hn with hmany
      · exact .counted q i e hterm hstate hid hnext hlt hs hnew hown hmany hlo (by omega) he
      · omega
  | voteRefused q success es hs hes =>
      rcases hes with rfl | rfl <;> simp [reply] at hmem
  | installDone q hterm hi hd es hes =>
      rcases hes with rfl | rfl <;> simp [reply] at hmem
  | _ => simp [reply] at hmem

theorem turn_of_fault_append {r : RaftState} {addr : Server} {q : AppendRequest}
    (hle : q.term ≤ r.currentTerm) (hf : (handleAppendRequest r addr q).fault = true)
    {x : Effect} (hx : x ∈ (handleAppendRequest r addr q).effects) :
    ∃ i e, x = .commit i e ∧ Turn r (.append q) i e := by
  unfold handleAppendRequest at hf hx
  rw [if_neg (by omega), andThen_ret] at hf hx
  by_cases hc : consistent r q
  · have hterm : q.term = r.currentTerm := le_antisymm hle hc.term
    rw [if_neg (not_not_intro hc)] at hf hx
    by_cases hn : q.entriesN = 0
    · rw [if_pos hn] at hf hx
      rw [andThen_of_fault hf rfl] at hx
      split_ifs at hx
      · obtain ⟨i, e, rfl, hlo, hhi, he⟩ := commitUpdate_mem hx
        exact ⟨i, e, rfl, .heartbeat q i e hterm hc hn hlo hhi he⟩
      · exact absurd hx (by simp [ret])
    · rw [if_neg hn] at hf hx
      rw [andThen_of_fault hf rfl] at hx
      obtain ⟨i, e, rfl, hlow, hlo, hhi, hhi', he⟩ := storeEntry_mem hx
      exact ⟨i, e, rfl, .stored q i e hterm hc hn hlow hlo hhi hhi' he⟩
  · rw [if_pos hc] at hf
    exact absurd hf (by simp [saveState, answer, emit, Outcome.andThen])

theorem convertToLeader_of_fault {r : RaftState} (h : (convertToLeader r).fault = true) :
    (convertToLeader r).effects = [] := by
  unfold convertToLeader at h ⊢
  cases hm : modifyLog { r with nFollowersReceivingSnapshots := 0, logCount := r.logCount + 1 }
      (r.logCount + 1 - 1) fun e =>
        { e with term := r.currentTerm, nServersReplicated := 1, type := .leaderLog } with
  | none =>
      simp only [hm]
      rfl
  | some r' =>
      simp only [hm] at h
      exact absurd h (by simp [saveState, emit, Outcome.andThen])

theorem turn_of_fault_count {r : RaftState} {q : Response} (hterm : q.term = r.currentTerm)
    (hstate : r.state = .leader) (hid : q.requestId = r.lastRequestId q.id)
    (hnext : r.startLogIndex ≤ r.nextIndex q.id)
    (hf : (handleAppendResponse (noted r q) q).fault = true) {x : Effect}
    (hx : x ∈ (handleAppendResponse (noted r q) q).effects) :
    ∃ i e, x = .commit i e ∧ Turn r (.response q) i e := by
  unfold handleAppendResponse at hf hx
  have hsave := andThen_of_fault hf rfl
  rw [hsave] at hf hx
  by_cases hs : q.success = 0
  · rw [if_pos hs] at hf
    exact absurd hf (by simp [ret])
  rw [if_neg hs] at hf hx
  by_cases hlt : (noted r q).nextIndex q.id < (noted r q).logCount
  · rw [if_pos hlt] at hf hx
    have hnote := andThen_of_fault hf rfl
    rw [hnote] at hf hx
    unfold countReplica at hf hx
    split_ifs at hf hx with hnew
    · cases hm : modifyLog (noted r q) ((noted r q).nextIndex q.id) fun e =>
          { e with nServersReplicated := e.nServersReplicated + 1 } with
      | none =>
          simp only [hm] at hx
          exact absurd hx (by simp [die])
      | some r' =>
          simp only [hm] at hf hx
          obtain ⟨-, -, -, rfl⟩ := modifyLog_some hm
          simp only [Function.update_self] at hf hx
          split_ifs at hf hx with hmany
          · obtain ⟨i, e, rfl, hlo, hhi, he⟩ := commitUpdate_mem hx
            exact ⟨i, e, rfl, .counted q i e hterm hstate hid hnext hlt hs hnew.1 hnew.2 hmany
              hlo hhi he⟩
          · exact absurd hf (by simp [ret])
    · exact absurd hf (by simp [ret])
  · rw [if_neg hlt] at hf
    exact absurd hf (by simp [ret])

theorem turn_of_fault_response {r : RaftState} {q : Response}
    (hle : q.term ≤ r.currentTerm) (hf : (handleResponse r q).fault = true)
    {x : Effect} (hx : x ∈ (handleResponse r q).effects) :
    ∃ i e, x = .commit i e ∧ Turn r (.response q) i e := by
  by_cases hold : r.currentTerm > q.term
  · unfold handleResponse at hf
    rw [if_pos hold] at hf
    exact absurd hf (by simp [ret])
  have hterm : q.term = r.currentTerm := by omega
  rw [handleResponse_eq hterm] at hf hx
  have hsame : (noted r q).state = r.state := rfl
  cases hstate : r.state with
  | follower =>
      rw [hsame, hstate] at hf
      exact absurd hf (by simp [ret])
  | candidate =>
      rw [hsame, hstate] at hf hx
      simp only [handleVoteResponse] at hf hx
      split_ifs at hf hx
      · exact absurd hf (by simp [ret])
      · exact absurd hf (by simp [ret])
      · rw [convertToLeader_of_fault hf] at hx
        exact absurd hx (by simp)
      · exact absurd hf (by simp [ret])
  | leader =>
      rw [hsame, hstate] at hf hx
      simp only at hf hx
      split_ifs at hf hx with hid hnext
      · exact absurd hf (by simp [handleInstallResponse, saveState, emit])
      · exact turn_of_fault_count hterm hstate hid (not_lt.mp hnext) hf hx
      · exact absurd hf (by simp [ret])

theorem handleVoteRequest_fault {r : RaftState} {addr : Server} {q : VoteRequest}
    (hle : q.term ≤ r.currentTerm) : (handleVoteRequest r addr q).fault = false := by
  unfold handleVoteRequest
  rw [if_neg (by omega), andThen_ret]
  split_ifs <;> rfl

theorem handleInstallSnapshotRequest_fault {r : RaftState} {addr : Server} {q : InstallRequest}
    (hle : q.term ≤ r.currentTerm) : (handleInstallSnapshotRequest r addr q).fault = false := by
  unfold handleInstallSnapshotRequest
  rw [if_neg (by omega), andThen_ret]
  by_cases hi : installable r q
  · rw [if_neg (not_not_intro hi)]
    by_cases h0 : r.startLogIndex = 0 <;> cases q.done <;>
      simp [h0, saveState, answer, ret, emit, Outcome.andThen]
  · rw [if_pos hi]
    rfl

/-- A handler that ends the process has done nothing but turns of the commit
loop. -/
theorem turn_of_fault {r : RaftState} {addr : Server} {packet : Packet}
    (hle : packet.term ≤ r.currentTerm) (hf : (handlePacket r addr packet).fault = true)
    {x : Effect} (hx : x ∈ (handlePacket r addr packet).effects) :
    ∃ i e, x = .commit i e ∧ Turn r packet i e := by
  cases packet with
  | append q => exact turn_of_fault_append hle hf hx
  | vote q =>
      have hok : (handlePacket r addr (.vote q)).fault = false := handleVoteRequest_fault hle
      exact absurd hf (by simp [hok])
  | installSnapshot q =>
      have hok : (handlePacket r addr (.installSnapshot q)).fault = false :=
        handleInstallSnapshotRequest_fault hle
      exact absurd hf (by simp [hok])
  | response q => exact turn_of_fault_response hle hf hx

/-! ### Compaction -/

theorem copyDown_apply (log : ℕ → LogEntry) (d count k : ℕ) :
    copyDown log d count k = if k < count then log (k + d) else log k := by
  induction count generalizing k with
  | zero => simp [copyDown]
  | succ count ih =>
      have hsucc : copyDown log d (count + 1) =
          Function.update (copyDown log d count) count (copyDown log d count (count + d)) := by
        simp [copyDown, List.range_succ]
      -- the slot read has not been written yet
      rw [hsucc, ih (count + d), if_neg (by omega)]
      by_cases hk : k = count
      · subst hk
        simp
      · rw [Function.update_of_ne hk, ih k]
        by_cases hlt : k < count
        · rw [if_pos hlt, if_pos (by omega)]
        · rw [if_neg hlt, if_neg (by omega)]

/-- The window after a compaction is a part of the one before. -/
theorem getLog_shifted {r : RaftState} {n i : ℤ} {e : LogEntry}
    (hn : n < r.logCount → r.startLogIndex ≤ n)
    (h : getLog { r with
      snapshotInProgress := false
      log := copyDown r.log (n - r.startLogIndex).toNat (r.logCount - n).toNat
      startLogIndex := n } i = some e) : getLog r i = some e := by
  obtain ⟨hlo, hhi, rfl⟩ := getLog_some h
  simp only at hlo hhi ⊢
  have hle := hn (by omega)
  rw [getLog_of_mem (by omega) hhi, copyDown_apply, if_pos (by omega),
    show (i - n).toNat + (n - r.startLogIndex).toNat = (i - r.startLogIndex).toNat by omega]

end RaftLock

import RaftLock.Safety.Application

/-!
The window of the log that a server keeps, and what comes before it.

A server holds the entries from `start_log_index` to `log_count` and answers
the term `-1` for every other index. Three handlers rely on that answer or
replace the window: the vote request handler, the append request handler and
the handler of an InstallSnapshot request. For each of them the states are
named in which the answer or the replacement is right.
-/

namespace RaftLock

open Outcome

/-! ### Installing a snapshot -/

/-- The server has not been moved back: its window starts no earlier, its
commit index is not lower, and every committed entry of its log is still
there or before the window. -/
structure NotBack (r r' : RaftState) : Prop where
  start : r.startLogIndex ≤ r'.startLogIndex
  commit : r.commitIndex ≤ r'.commitIndex
  kept : ∀ i e, getLog r i = some e → i ≤ r.commitIndex →
    getLog r' i = some e ∨ i < r'.startLogIndex

/-- The snapshot of a closing request that is accepted covers everything the
server has committed, and its own snapshot. -/
def Covers (r : RaftState) (q : InstallRequest) : Prop :=
  installable (arrived r (.installSnapshot q)) q → q.done = true →
    r.startLogIndex ≤ q.snapshotId ∧ r.commitIndex < q.snapshotId

theorem NotBack.refl (r : RaftState) : NotBack r r := ⟨le_rfl, le_rfl, fun _ _ he _ => Or.inl he⟩

theorem NotBack.trans {r r' r'' : RaftState} (h : NotBack r r') (h' : NotBack r' r'') :
    NotBack r r'' where
  start := h.start.trans h'.start
  commit := h.commit.trans h'.commit
  kept i e he hi := by
    rcases h.kept i e he hi with hkept | hcovered
    · exact h'.kept i e hkept (hi.trans h.commit)
    · exact Or.inr (hcovered.trans_le h'.start)

/-- A state with the same window and the same commit index. -/
theorem NotBack.of_same {r r' : RaftState} (hstart : r'.startLogIndex = r.startLogIndex)
    (hcount : r'.logCount = r.logCount) (hlog : r'.log = r.log)
    (hcommit : r'.commitIndex = r.commitIndex) : NotBack r r' := by
  refine ⟨hstart.ge, hcommit.ge, fun i e he _ => Or.inl ?_⟩
  simpa only [getLog, hstart, hcount, hlog] using he

theorem install_notBack_iff (r : RaftState) (addr : Server) (q : InstallRequest) :
    NotBack r (handlePacket r addr (.installSnapshot q)).raft ↔ Covers r q := by
  have hstart := arrived_startLogIndex r (.installSnapshot q)
  have hcount := arrived_logCount r (.installSnapshot q)
  have hlog := arrived_log r (.installSnapshot q)
  have hcommit := arrived_commitIndex r (.installSnapshot q)
  rw [(handlePacket_raft r (.installSnapshot q) addr (by simp)).1]
  have hh := handled (le_arrived r (.installSnapshot q)) (install_fault _ addr q)
  unfold Covers
  generalize arrived r (.installSnapshot q) = r₁ at *
  generalize (handlePacket r₁ addr (.installSnapshot q)).effects = es at hh
  generalize (handlePacket r₁ addr (.installSnapshot q)).raft = r' at hh ⊢
  cases hh with
  | installRefused _ hi =>
      exact ⟨fun _ hi' => absurd hi' hi, fun _ => .of_same hstart hcount hlog hcommit⟩
  | installChunk _ hterm hi hd _ hr' =>
      subst hr'
      refine ⟨fun _ _ hd' => ?_, fun _ => .of_same hstart hcount hlog hcommit⟩
      rw [hd] at hd'
      exact absurd hd' (by simp)
  | installDone _ hterm hi hd es hes =>
      refine ⟨fun h _ _ => ⟨h.start, ?_⟩, fun h => ?_⟩
      · have := h.commit
        simp only [installDone] at this
        omega
      · obtain ⟨h1, h2⟩ := h hi hd
        refine ⟨h1, ?_, fun i e _ hi => Or.inr ?_⟩
        · simp only [installDone]
          omega
        · simp only [installDone]
          omega

/-- A step that delivers an InstallSnapshot request whose snapshot covers what
the receiver has. -/
def CoveringInstall (c : Cluster) (x : Action) : Prop :=
  ∃ k d q, x = .deliver k none ∧ c.net[k]? = some d ∧ d.packet = .installSnapshot q ∧
    Covers (c.nodes d.dst).raft q

section Installs

variable {c c' : Cluster}

theorem exec_install {k : ℕ} {d : Datagram} {q : InstallRequest} (hd : c.net[k]? = some d)
    (hq : d.packet = .installSnapshot q) (hx : c.exec (.deliver k none) = some c') (s : Server) :
    (c'.nodes s).raft =
      if s = d.dst then (handlePacket (c.nodes d.dst).raft d.src (.installSnapshot q)).raft
      else (c.nodes s).raft := by
  simp only [Cluster.exec, hd] at hx
  split_ifs at hx
  simp only [Option.some.injEq] at hx
  subst hx
  rw [Cluster.settle_nodes, hq]
  split_ifs
  · exact Node.settle_raft _ (install_fault _ _ _)
  · rfl

/-- In every state a run reaches, handling an InstallSnapshot request moves the
server back unless the snapshot covers what the server has; so no sequence of
requests that do moves any server back. -/
theorem install_moves_back_unless_covering {config : Config} (hc : Cluster.Reachable config c) :
    (∀ k d q c', c.net[k]? = some d → d.packet = .installSnapshot q →
      c.exec (.deliver k none) = some c' → Cluster.Reachable config c' ∧
      (NotBack (c.nodes d.dst).raft (c'.nodes d.dst).raft ↔ Covers (c.nodes d.dst).raft q)) ∧
    ∀ c', Cluster.Steps CoveringInstall c c' → ∀ s, NotBack (c.nodes s).raft (c'.nodes s).raft := by
  refine ⟨fun k d q c' hd hq hx => ⟨hc.tail ⟨_, trivial, hx⟩, ?_⟩, fun c' hsteps s => ?_⟩
  · rw [exec_install hd hq hx, if_pos rfl]
    exact install_notBack_iff _ _ _
  · induction hsteps with
    | refl => exact .refl _
    | tail _ hstep ih =>
        obtain ⟨x, ⟨k, d, q, rfl, hd, hq, hcov⟩, hx⟩ := hstep
        refine ih.trans ?_
        rw [exec_install hd hq hx]
        split_ifs with hs
        · subst hs
          exact (install_notBack_iff _ _ _).mpr hcov
        · exact .refl _

end Installs

/-! ### Granting a vote -/

/-- The term and the index of the last entry a server holds, `t` being the
term of the last entry that its snapshot covers. -/
def lastHeld (r : RaftState) (t : ℤ) : Option (ℤ × ℤ) :=
  if r.startLogIndex < r.logCount then some (getLogTerm r (r.logCount - 1), r.logCount - 1)
  else if 0 < r.startLogIndex then some (t, r.startLogIndex - 1)
  else none

/-- The answer to the vote request grants it. -/
def GrantsVote (r : RaftState) (addr : Server) (q : VoteRequest) : Prop :=
  ∃ p : Response, .send addr (.response p) ∈ (handlePacket r addr (.vote q)).effects ∧
    p.success = 1

/-- The log that ends with term `t` and index `i` is at least as recent as the
one that ends with `x`. -/
def AtLeast (t i : ℤ) (x : ℤ × ℤ) : Prop := x.1 < t ∨ (x.1 = t ∧ x.2 ≤ i)

theorem upToDate_arrived (r : RaftState) (q : VoteRequest) :
    upToDate (arrived r (.vote q)) q ↔ upToDate r q := by
  simp only [upToDate, getLogTerm_arrived, arrived_logCount]

theorem success_of_answer {r : RaftState} {addr : Server} {requestId success : ℤ} {p : Response}
    (hp : .send addr (.response p) ∈ (answer r addr requestId success).effects) :
    p.success = success := by
  simp only [answer, emit, List.mem_singleton, Effect.send.injEq, Packet.response.injEq] at hp
  rw [hp.2]

theorem grantsVote_iff (r : RaftState) (addr : Server) (q : VoteRequest) :
    GrantsVote r addr q ↔ (arrived r (.vote q)).currentTerm = q.term ∧
      (arrived r (.vote q)).votedFor = -1 ∧ upToDate r q := by
  obtain ⟨pre, hpre, heq⟩ := handlePacket_parts r addr (.vote q) (Or.inr (by simp))
  have hle : ¬ (arrived r (.vote q)).currentTerm < q.term :=
    not_lt.mpr (le_arrived r (.vote q))
  -- the first part sends nothing
  have hown : GrantsVote r addr q ↔ ∃ p : Response, .send addr (.response p) ∈
      (handlePacket (arrived r (.vote q)) addr (.vote q)).effects ∧ p.success = 1 := by
    unfold GrantsVote
    rw [heq]
    constructor
    · rintro ⟨p, hp, hs⟩
      rcases List.mem_append.mp hp with hp | hp
      · rcases hpre.mem hp with h | ⟨h, -⟩ <;> exact absurd h (by simp)
      · exact ⟨p, hp, hs⟩
    · rintro ⟨p, hp, hs⟩
      exact ⟨p, List.mem_append_right _ hp, hs⟩
  rw [hown, ← upToDate_arrived]
  simp only [handlePacket, handleVoteRequest, if_neg hle, andThen_ret]
  by_cases hfree : (arrived r (.vote q)).currentTerm = q.term ∧ (arrived r (.vote q)).votedFor = -1
  · rw [if_pos hfree]
    by_cases hup : upToDate (arrived r (.vote q)) q
    · rw [if_pos hup]
      refine ⟨fun _ => ⟨hfree.1, hfree.2, hup⟩, fun _ => ?_⟩
      refine ⟨⟨(arrived r (.vote q)).id, (arrived r (.vote q)).currentTerm, 1, -1⟩, ?_, rfl⟩
      rw [saveState, andThen_emit]
      exact List.mem_append_right _ (List.mem_singleton.mpr rfl)
    · rw [if_neg hup]
      constructor
      · rintro ⟨p, hp, hs⟩
        rw [saveState, andThen_emit] at hp
        simp only [List.mem_append, List.mem_singleton, reduceCtorEq, false_or] at hp
        exact absurd ((success_of_answer hp).symm.trans hs) (by simp)
      · exact fun h => absurd h.2.2 hup
  · rw [if_neg hfree]
    constructor
    · rintro ⟨p, hp, hs⟩
      exact absurd ((success_of_answer hp).symm.trans hs) (by simp)
    · exact fun h => absurd ⟨h.1, h.2.1⟩ hfree

/-- In every state, and whatever the term of the last entry its snapshot
covers, each vote a server would grant goes to a log at least as recent as its
own exactly when its window is not empty or nothing precedes it. -/
theorem granted_vote_restricted_iff (r : RaftState) {t : ℤ} (ht : -1 < t) :
    (∀ addr q, GrantsVote r addr q → ∀ x ∈ lastHeld r t, AtLeast q.lastLogTerm q.lastLogIndex x) ↔
      r.startLogIndex < r.logCount ∨ r.startLogIndex ≤ 0 := by
  refine ⟨fun h => ?_, fun h addr q hgrant x hx => ?_⟩
  · by_contra hempty
    push Not at hempty
    -- a candidate of the next term that answers `-1` for its last entry too
    let q : VoteRequest := ⟨r.currentTerm + 1, 0, r.logCount - 1, -1⟩
    have hlt : r.currentTerm < (Packet.vote q).term := Int.lt_succ _
    have hterm : getLogTerm r (r.logCount - 1) = -1 := by
      unfold getLogTerm
      rw [if_pos (by omega)]
    have hgrant : GrantsVote r 0 q := by
      rw [grantsVote_iff, arrived_of_lt hlt]
      have hf := convertToFollower_follows r (Packet.vote q).term
      exact ⟨hf.currentTerm, hf.votedFor, Or.inr ⟨hterm.symm, le_rfl⟩⟩
    have hheld : lastHeld r t = some (t, r.startLogIndex - 1) := by
      unfold lastHeld
      rw [if_neg (by omega), if_pos (by omega)]
    rcases h 0 q hgrant _ hheld with hold | ⟨hold, -⟩
    · exact absurd (lt_trans ht hold) (lt_irrefl _)
    · exact absurd hold ht.ne'
  · obtain ⟨-, -, hup⟩ := (grantsVote_iff r addr q).mp hgrant
    unfold lastHeld at hx
    split_ifs at hx with hwindow hcovered
    · simp only [Option.mem_def, Option.some.injEq] at hx
      subst hx
      rcases hup with hlt | ⟨heq, hle⟩
      · exact Or.inl hlt
      · exact Or.inr ⟨heq.symm, hle⟩
    · omega
    · exact absurd hx (by simp)

/-! ### Storing an entry -/

/-- The request passes the consistency check and carries an entry. -/
def Stores (r : RaftState) (q : AppendRequest) : Prop :=
  consistent (arrived r (.append q)) q ∧ q.entriesN ≠ 0

/-- The entry is written inside the window or at its end: `Raft_get_log` finds
its index in the window that the handler leaves, and that window does not end
before it starts. -/
structure WritesInside (r : RaftState) (q : AppendRequest) (r' : RaftState) : Prop where
  lo : r.startLogIndex ≤ q.prevLogIndex + 1
  hi : q.prevLogIndex + 1 ≤ r.logCount
  slot : (getLog r' (q.prevLogIndex + 1)).isSome = true
  count : r'.startLogIndex ≤ r'.logCount

/-- A request that vouches for no preceding entry is not about an entry before
the window. -/
def Vouched (r : RaftState) (q : AppendRequest) : Prop :=
  q.prevLogTerm = -1 → r.startLogIndex ≤ q.prevLogIndex + 1

theorem commitUpdate_window (r : RaftState) (n : ℤ) :
    (commitUpdate r n).raft.startLogIndex = r.startLogIndex ∧
      (commitUpdate r n).raft.logCount = r.logCount := by
  unfold commitUpdate Outcome.andThen
  split_ifs <;> simp [commitLoop_raft, ret]

theorem storeEntry_window (r : RaftState) (q : AppendRequest) :
    (storeEntry r q).raft.startLogIndex = r.startLogIndex ∧
      (storeEntry r q).raft.logCount = storedCount r q := by
  rcases storeEntry_cases r q with ⟨-, hdie⟩ | ⟨-, -, -, heq⟩
  · rw [hdie]
    exact ⟨rfl, rfl⟩
  · rw [heq]
    split_ifs
    · exact commitUpdate_window _ _
    · exact commitUpdate_window _ _
    · exact ⟨rfl, rfl⟩

theorem stores_window {r : RaftState} {q : AppendRequest} (hs : Stores r q) (addr : Server) :
    (handlePacket r addr (.append q)).raft.startLogIndex = r.startLogIndex ∧
      (handlePacket r addr (.append q)).raft.logCount =
        storedCount (arrived r (.append q)) q := by
  obtain ⟨hc, hn⟩ := hs
  rw [(handlePacket_raft r (.append q) addr (by simp)).1,
    ← arrived_startLogIndex r (.append q)]
  have hle : ¬ (arrived r (.append q)).currentTerm < q.term :=
    not_lt.mpr (le_arrived r (.append q))
  have hstore := storeEntry_window (arrived r (.append q)) q
  simp only [handlePacket, handleAppendRequest, if_neg hle, andThen_ret, not_not.mpr hc, if_false,
    if_neg hn]
  unfold Outcome.andThen
  split_ifs
  · exact hstore
  · exact hstore

theorem storedCount_gt {r : RaftState} {q : AppendRequest} (h : q.prevLogIndex < r.logCount) :
    q.prevLogIndex + 1 < storedCount r q := by
  unfold storedCount
  split_ifs <;> omega

/-- In every state, a request that is accepted writes inside the window unless
it vouches for no preceding entry and is about one before the window. -/
theorem stored_entry_inside_iff (r : RaftState) (addr : Server) (q : AppendRequest) :
    (Stores r q → WritesInside r q (handlePacket r addr (.append q)).raft) ↔
      (Stores r q → Vouched r q) := by
  refine ⟨fun h hs _ => (h hs).lo, fun h hs => ?_⟩
  obtain ⟨hstart, hcount⟩ := stores_window hs addr
  have hc := hs.1
  unfold consistent at hc
  push Not at hc
  obtain ⟨-, hprev, hterm⟩ := hc
  rw [arrived_logCount] at hprev
  rw [getLogTerm_arrived] at hterm
  have hlo : r.startLogIndex ≤ q.prevLogIndex + 1 := by
    by_cases hnone : q.prevLogTerm = -1
    · exact h hs hnone
    · by_contra hbefore
      apply hnone
      rw [← hterm, getLogTerm, if_pos (by omega)]
  have hgt := storedCount_gt (r := arrived r (.append q)) (q := q)
    (by rw [arrived_logCount]; exact hprev)
  refine ⟨hlo, by omega, ?_, by omega⟩
  unfold getLog
  rw [if_neg (by omega)]
  rfl

/-- An append request that a server handles, and stores the entry of, meets a
condition. -/
def StoresOnly (ok : RaftState → Server → AppendRequest → Prop) (c : Cluster) : Action → Prop
  | .deliver k _ => ∀ d, c.net[k]? = some d → ∀ q, d.packet = .append q →
      Stores (c.nodes d.dst).raft q → ok (c.nodes d.dst).raft d.src q
  | _ => True

/-- In a run in which no request that vouches for nothing is about an entry
before the window, each entry that is stored is stored inside. -/
theorem entries_stored_inside {config : Config} {c : Cluster}
    (hrun : Cluster.Run config (StoresOnly fun r _ q => Vouched r q) c) :
    Cluster.Run config (StoresOnly fun r addr q =>
      WritesInside r q (handlePacket r addr (.append q)).raft) c := by
  refine hrun.weaken fun c x hok => ?_
  cases x with
  | deliver k crashAt =>
      intro d hd q hq hs
      exact (stored_entry_inside_iff (c.nodes d.dst).raft d.src q).mpr
        (fun hs => hok d hd q hq hs) hs
  | _ => trivial

/-! ### A run with a late request -/

section LongRun

/-- A request to each of servers `1` and `2` and their answers, with one
datagram already on its way. -/
def exchangeBehind : List Action :=
  [.leaderThread 0 0, .leaderThread 0 1, .deliver 1 none, .deliver 1 none, .deliver 1 none,
    .deliver 1 none]

/-- Server `4` gets the first entry and no other; a copy of the request with
which server `1` gets it stays on its way while sixty more are committed. -/
def sixtyBehind : List Action :=
  firstElection ++ exchange ++
    [Action.leaderThread 0 3, .deliver 0 none, .deliver 0 none, .leaderThread 0 3, .deliver 0 none,
      .deliver 0 none, .leaderThread 0 0] ++ exchangeBehind ++
    (List.replicate 60 (Action.append 0 emptyEntry none :: exchangeBehind)).flatten

/-- Server `s` takes a snapshot of its first fifty entries. -/
def takeSnapshot (s : Server) : List Action := List.replicate 57 (.snapshotThread s 0 none)

/-- The snapshot is sent to server `3`. -/
def sendToThree : List Action := takeSnapshot 0 ++ [.leaderThread 0 2]

/-- The closing request is sent once more before it is answered; server `3`
gets the next entry and commits it. -/
def afterTransfer : List Action :=
  [.leaderThread 0 2, .deliver 1 none, .deliver 2 none, .leaderThread 0 2, .leaderThread 0 2,
    .deliver 2 none]

/-- Server `4` stands for election. -/
def candidateFour : List Action := [.deliver 1 none, .timeout 4, .elect 4 none]

/-- Some datagram in flight meets the test. -/
def inFlight (c : Cluster) (test : RaftState → Datagram → Bool) : Bool :=
  c.net.any fun d => (c.nodes d.dst).up && test (c.nodes d.dst).raft d

/-- An InstallSnapshot request that lowers the commit index. -/
def lowers (r : RaftState) (d : Datagram) : Bool :=
  match d.packet with
  | .installSnapshot _ => decide ((handlePacket r d.src d.packet).raft.commitIndex < r.commitIndex)
  | _ => false

/-- An InstallSnapshot request that is accepted and closes the transfer. -/
def closes (r : RaftState) (d : Datagram) : Bool :=
  match d.packet with
  | .installSnapshot q => decide (installable (arrived r d.packet) q) && q.done &&
      decide (r.startLogIndex ≤ q.snapshotId ∧ r.commitIndex < q.snapshotId)
  | _ => false

/-- A request that is accepted although it is about an entry before the
window. -/
def writesBefore (r : RaftState) (d : Datagram) : Bool :=
  match d.packet with
  | .append q => decide (consistent (arrived r d.packet) q ∧ q.entriesN ≠ 0 ∧
      q.prevLogIndex + 1 < r.startLogIndex)
  | _ => false

/-- A vote that is granted with an empty window to a candidate whose log ends
in term `1` before index `49`. -/
def grantsBehind (r : RaftState) (d : Datagram) : Bool :=
  match d.packet with
  | .vote q => decide (r.startLogIndex = 50 ∧ r.logCount = 50 ∧ q.lastLogTerm = 1 ∧
      q.lastLogIndex < 49 ∧ (arrived r d.packet).currentTerm = q.term ∧
      (arrived r d.packet).votedFor = -1 ∧ upToDate r q)
  | _ => false

/-- Server `1` has compacted fifty of its entries, and would vote for a log as
long as its own. -/
def compactedOne (c : Cluster) : Bool :=
  decide (lastHeld (c.nodes 1).raft 1 = some (1, 60) ∧ (c.nodes 1).raft.startLogIndex = 50 ∧
    (c.nodes 1).raft.logCount = 61 ∧
    (arrived (c.nodes 1).raft (.vote ⟨2, 2, 60, 1⟩)).currentTerm = 2 ∧
    (arrived (c.nodes 1).raft (.vote ⟨2, 2, 60, 1⟩)).votedFor = -1 ∧
    upToDate (c.nodes 1).raft ⟨2, 2, 60, 1⟩)

/-- The entry at index `49` has been committed, with term `1`. -/
def committedOne (c : Cluster) : Bool := c.commits.any fun x => x.2.1 == 49 && x.2.2.term == 1

set_option maxRecDepth 100000 in
theorem sixtyBehind_runs : ((Cluster.init plainConfig).execAll sixtyBehind).any (fun c =>
    (c.execAll (takeSnapshot 1)).any (fun c => inFlight c writesBefore && compactedOne c) &&
    (c.execAll sendToThree).any fun c => inFlight c closes &&
      (c.execAll afterTransfer).any (fun c => inFlight c lowers) &&
      (c.execAll candidateFour).any fun c => inFlight c grantsBehind && committedOne c) = true := by
  decide +kernel

theorem exists_of_inFlight {c : Cluster} {test : RaftState → Datagram → Bool}
    (h : inFlight c test = true) : ∃ (k : ℕ) (d : Datagram), c.net[k]? = some d ∧
      (c.nodes d.dst).up = true ∧ test (c.nodes d.dst).raft d = true := by
  obtain ⟨d, hd, htest⟩ := List.any_eq_true.mp h
  rw [Bool.and_eq_true] at htest
  obtain ⟨k, hk⟩ := List.mem_iff_getElem?.mp hd
  exact ⟨k, d, hk, htest⟩

/-- The four states the run leads to. -/
theorem sixtyBehind_reaches : (∃ c, Cluster.Reachable plainConfig c ∧
      inFlight c writesBefore = true ∧ compactedOne c = true) ∧
    (∃ c, Cluster.Reachable plainConfig c ∧ inFlight c closes = true) ∧
    (∃ c, Cluster.Reachable plainConfig c ∧ inFlight c lowers = true) ∧
    ∃ c, Cluster.Reachable plainConfig c ∧ inFlight c grantsBehind = true ∧
      committedOne c = true := by
  obtain ⟨c, hc, hall⟩ := Machine.exists_of_execAll sixtyBehind_runs
  simp only [Bool.and_eq_true] at hall
  obtain ⟨hwrites, hsent⟩ := hall
  obtain ⟨c₁, hc₁, hwrites⟩ := Machine.exists_of_execAll hwrites
  rw [Bool.and_eq_true] at hwrites
  obtain ⟨c₂, hc₂, hsent⟩ := Machine.exists_of_execAll hsent
  simp only [Bool.and_eq_true] at hsent
  obtain ⟨⟨hcloses, hlowers⟩, hgrants⟩ := hsent
  obtain ⟨c₃, hc₃, hlowers⟩ := Machine.exists_of_execAll hlowers
  obtain ⟨c₄, hc₄, hgrants⟩ := Machine.exists_of_execAll hgrants
  rw [Bool.and_eq_true] at hgrants
  exact ⟨⟨c₁, hc.trans hc₁, hwrites⟩, ⟨c₂, hc.trans hc₂, hcloses⟩,
    ⟨c₃, (hc.trans hc₂).trans hc₃, hlowers⟩, c₄, (hc.trans hc₂).trans hc₄, hgrants⟩

/-- The first snapshot server `3` gets covers everything it has. -/
theorem first_install_moves_forward : ∃ c c' d, Cluster.Reachable plainConfig c ∧ d ∈ c.net ∧
    closes (c.nodes d.dst).raft d = true ∧ Cluster.Reachable plainConfig c' ∧
    NotBack (c.nodes d.dst).raft (c'.nodes d.dst).raft := by
  obtain ⟨c, hc, hflight⟩ := sixtyBehind_reaches.2.1
  obtain ⟨k, d, hd, hup, htest⟩ := exists_of_inFlight hflight
  have hcloses := htest
  unfold closes at htest
  split at htest
  · rename_i q hq
    simp only [Bool.and_eq_true, decide_eq_true_eq] at htest
    have hx : ∃ c', c.exec (.deliver k none) = some c' := by
      simp only [Cluster.exec, hd, hup, if_true]
      exact ⟨_, rfl⟩
    obtain ⟨c', hx⟩ := hx
    obtain ⟨hc', hiff⟩ := (install_moves_back_unless_covering hc).1 k d q c' hd hq hx
    exact ⟨c, c', d, hc, List.mem_of_getElem? hd, hcloses, hc', hiff.mpr fun _ _ => htest.2⟩
  · exact absurd htest (by simp)

/-- A late copy of the closing request lowers the commit index. -/
theorem late_install_moves_back : ∃ c d, Cluster.Reachable plainConfig c ∧ d ∈ c.net ∧
    (c.nodes d.dst).up = true ∧ (∃ q, d.packet = .installSnapshot q) ∧
    (handlePacket (c.nodes d.dst).raft d.src d.packet).raft.commitIndex <
      (c.nodes d.dst).raft.commitIndex := by
  obtain ⟨c, hc, hflight⟩ := sixtyBehind_reaches.2.2.1
  obtain ⟨k, d, hd, hup, htest⟩ := exists_of_inFlight hflight
  unfold lowers at htest
  split at htest
  · rename_i q hq
    exact ⟨c, d, hc, List.mem_of_getElem? hd, hup, ⟨q, hq⟩, of_decide_eq_true htest⟩
  · exact absurd htest (by simp)

/-- A server with a snapshot and eleven entries behind it votes, and only for
logs that are as recent as its own. -/
theorem compacted_voter_restricts_votes : ∃ c, Cluster.Reachable plainConfig c ∧
    (c.nodes 1).raft.startLogIndex = 50 ∧ (c.nodes 1).raft.logCount = 61 ∧
    lastHeld (c.nodes 1).raft 1 = some (1, 60) ∧
    GrantsVote (c.nodes 1).raft 2 ⟨2, 2, 60, 1⟩ ∧
    ∀ addr q, GrantsVote (c.nodes 1).raft addr q →
      AtLeast q.lastLogTerm q.lastLogIndex (1, 60) := by
  obtain ⟨c, hc, -, hcompacted⟩ := sixtyBehind_reaches.1
  obtain ⟨hheld, hstart, hcount, hvotes⟩ := of_decide_eq_true hcompacted
  have hwindow : (c.nodes 1).raft.startLogIndex < (c.nodes 1).raft.logCount := by
    omega
  refine ⟨c, hc, hstart, hcount, hheld, (grantsVote_iff _ _ _).mpr hvotes, fun addr q hgrant => ?_⟩
  exact (granted_vote_restricted_iff (c.nodes 1).raft (t := 1) (by decide)).mpr
    (Or.inl hwindow) addr q hgrant (1, 60) hheld

/-- Server `3`, whose snapshot covers an entry of term `1` at index `49`, votes
for a candidate whose log ends in the same term before it. -/
theorem vote_granted_to_older_log : ∃ c d q, Cluster.Reachable plainConfig c ∧ d ∈ c.net ∧
    (c.nodes d.dst).up = true ∧ d.packet = .vote q ∧
    GrantsVote (c.nodes d.dst).raft d.src q ∧
    lastHeld (c.nodes d.dst).raft 1 = some (1, 49) ∧
    (∃ x ∈ c.commits, x.2.1 = 49 ∧ x.2.2.term = 1) ∧
    ¬ AtLeast q.lastLogTerm q.lastLogIndex (1, 49) := by
  obtain ⟨c, hc, hflight, hone⟩ := sixtyBehind_reaches.2.2.2
  obtain ⟨k, d, hd, hup, htest⟩ := exists_of_inFlight hflight
  unfold grantsBehind at htest
  split at htest
  · rename_i q hq
    rw [decide_eq_true_eq] at htest
    obtain ⟨hstart, hcount, hterm, hindex, hgrant⟩ := htest
    rw [hq] at hgrant
    obtain ⟨x, hx, hxone⟩ := List.any_eq_true.mp hone
    simp only [Bool.and_eq_true, beq_iff_eq] at hxone
    refine ⟨c, d, q, hc, List.mem_of_getElem? hd, hup, hq, (grantsVote_iff _ _ _).mpr hgrant, ?_,
      ⟨x, hx, hxone⟩, ?_⟩
    · simp [lastHeld, hstart, hcount]
    · rw [hterm]
      rintro (h | ⟨-, h⟩)
      · exact absurd h (by simp)
      · exact absurd h (not_le.mpr hindex)
  · exact absurd htest (by simp)

/-- An old request is accepted although it is about an entry before the
window. -/
theorem entry_stored_before_window : ∃ c d q, Cluster.Reachable plainConfig c ∧ d ∈ c.net ∧
    (c.nodes d.dst).up = true ∧ d.packet = .append q ∧ Stores (c.nodes d.dst).raft q ∧
    q.prevLogIndex + 1 < (c.nodes d.dst).raft.startLogIndex := by
  obtain ⟨c, hc, hflight, -⟩ := sixtyBehind_reaches.1
  obtain ⟨k, d, hd, hup, htest⟩ := exists_of_inFlight hflight
  unfold writesBefore at htest
  split at htest
  · rename_i q hq
    rw [decide_eq_true_eq] at htest
    obtain ⟨hcons, hn, hbefore⟩ := htest
    rw [hq] at hcons
    exact ⟨c, d, q, hc, List.mem_of_getElem? hd, hup, hq, ⟨hcons, hn⟩, hbefore⟩
  · exact absurd htest (by simp)

end LongRun

end RaftLock

import Mathlib.Data.Finset.Lattice.Fold
import RaftLock.Progress.Deliveries
import RaftLock.Safety.Duplicates

/-!
An election can be won.

A server stands again and again until its term is above those of a majority
that runs. Then each of these servers takes over the term on the request, which
frees its vote, and gives it when it is not ahead; the candidate counts one
answer after the other and is the leader before the majority is through.
-/

namespace RaftLock

open Outcome

/-- The candidate of term `t` with `k` votes that `r` becomes. -/
def standing (r : RaftState) (t k : ℤ) (answers : ℤ → ℤ) : RaftState :=
  { r with
    currentTerm := t
    votedFor := r.id
    state := .candidate
    nvoted := k
    nblocked := 0
    lastRequestResponse := answers }

/-- What `Raft_attempt_to_elect` asks for in term `t`. -/
def standingRequest (r : RaftState) (t : ℤ) : VoteRequest := { voteRequest r with term := t }

@[simp] theorem standingRequest_term (r : RaftState) (t : ℤ) :
    (standingRequest r t).term = t := rfl

theorem attemptToElect_standing (r : RaftState) (t k : ℤ) (answers : ℤ → ℤ) :
    attemptToElect (standing r t k answers) = ⟨standing r (t + 1) 1 answers,
      .save (standing r (t + 1) 1 answers) ::
        (others r).map fun i => .send i (.vote (standingRequest r (t + 1))), false⟩ := rfl

theorem attemptToElect_stands (r : RaftState) :
    attemptToElect r = ⟨standing r (r.currentTerm + 1) 1 r.lastRequestResponse,
      .save (standing r (r.currentTerm + 1) 1 r.lastRequestResponse) ::
        (others r).map fun i => .send i (.vote (standingRequest r (r.currentTerm + 1))), false⟩ :=
  rfl

/-- The leader's entry fits in the array. -/
def FreeSlot (r : RaftState) : Prop :=
  r.startLogIndex ≤ r.logCount ∧ r.logCount - r.startLogIndex < (logSize : ℤ)

theorem convertToLeader_fault {r : RaftState} (h : FreeSlot r) :
    (convertToLeader r).fault = false := by
  unfold convertToLeader
  cases hm : modifyLog { r with nFollowersReceivingSnapshots := 0, logCount := r.logCount + 1 }
      (r.logCount + 1 - 1) fun e =>
        { e with term := r.currentTerm, nServersReplicated := 1, type := .leaderLog } with
  | some r' =>
      simp only [hm]
      rfl
  | none =>
      obtain ⟨hlo, hroom⟩ := h
      unfold modifyLog at hm
      split_ifs at hm with hout
      simp only at hout
      omega

theorem mem_spawned {es : List Effect} {followers : List Server} {f : Server}
    (h : .spawnLeaderThreads followers ∈ es) (hf : f ∈ followers) :
    ⟨f, .idle⟩ ∈ spawned es :=
  List.mem_flatMap.mpr ⟨_, h, List.mem_map.mpr ⟨f, hf, rfl⟩⟩

/-! ### The two ends of a vote -/

/-- The log and the commit index are the same. -/
structure SameEntries (r r' : RaftState) : Prop where
  log : r'.log = r.log
  start : r'.startLogIndex = r.startLogIndex
  count : r'.logCount = r.logCount
  commit : r'.commitIndex = r.commitIndex

theorem SameEntries.getLog_eq {r r' : RaftState} (h : SameEntries r r') (i : ℤ) :
    getLog r' i = getLog r i := by
  simp only [getLog, h.log, h.start, h.count]

/-- What remains of a server that may have been asked for its vote in term `t`. -/
structure Polled (t : ℤ) (n n' : Node) : Prop where
  up : n.up = true → n'.up = true
  same : SameEntries n.raft n'.raft
  term : n'.raft.currentTerm ≤ max t n.raft.currentTerm

theorem Polled.refl (t : ℤ) (n : Node) : Polled t n n :=
  ⟨id, ⟨rfl, rfl, rfl, rfl⟩, le_max_right _ _⟩

/-- A server of an earlier term that is not ahead gives its vote. -/
theorem vote_given {r : RaftState} {addr : Server} {q : VoteRequest}
    (hlt : r.currentTerm < q.term) (hup : upToDate r q) :
    (handlePacket r addr (.vote q)).fault = false ∧
    .send addr (.response ⟨r.id, q.term, 1, -1⟩) ∈ (handlePacket r addr (.vote q)).effects ∧
    SameEntries r (handlePacket r addr (.vote q)).raft ∧
    (handlePacket r addr (.vote q)).raft.currentTerm = q.term := by
  have hfollows := convertToFollower_follows r q.term
  have hr : arrived r (.vote q) = (convertToFollower r q.term).raft := arrived_of_lt hlt
  have hterm : (arrived r (.vote q)).currentTerm = q.term := by rw [hr, hfollows.currentTerm]
  have hfree : (arrived r (.vote q)).votedFor = -1 := by rw [hr, hfollows.votedFor]
  have hid : (arrived r (.vote q)).id = r.id := by rw [hr, hfollows.id]
  have hup' : upToDate (arrived r (.vote q)) q := by
    unfold upToDate
    rw [getLogTerm_arrived, arrived_logCount]
    exact hup
  have hgives : handlePacket (arrived r (.vote q)) addr (.vote q) =
      emit { arrived r (.vote q) with votedFor := q.candidateId }
        [.save { arrived r (.vote q) with votedFor := q.candidateId },
          reply (arrived r (.vote q)) addr (-1) 1] := by
    simp only [handlePacket, handleVoteRequest]
    rw [if_neg (by omega), andThen_ret, if_pos ⟨hterm, hfree⟩, if_pos hup']
    rfl
  rw [handlePacket_later (show r.currentTerm < (Packet.vote q).term from hlt) (by simp), hgives]
  refine ⟨rfl, List.mem_append_right _ ?_, ⟨arrived_log r _, arrived_startLogIndex r _,
    arrived_logCount r _, ?_⟩, hterm⟩
  swap
  · show (arrived r (.vote q)).commitIndex = r.commitIndex
    rw [hr, hfollows.commitIndex]
  rw [reply, hterm, hid]
  exact List.mem_cons_of_mem _ List.mem_cons_self

/-- The candidate counts a vote. -/
theorem vote_counted (r : RaftState) (t k : ℤ) (answers : ℤ → ℤ) (addr : Server) (id : ℤ) :
    handlePacket (standing r t k answers) addr (.response ⟨id, t, 1, -1⟩) =
      if (k + 1) * 2 > (nServers : ℤ) then
        convertToLeader (standing r t (k + 1) (Function.update answers id 1))
      else ret (standing r t (k + 1) (Function.update answers id 1)) := by
  have heq : handlePacket (standing r t k answers) addr (.response ⟨id, t, 1, -1⟩) = _ :=
    handleResponse_eq (r := standing r t k answers) rfl
  rw [heq]
  rfl

/-! ### A campaign -/

section Campaign

variable {config : Config} {w : World} {M : Finset Server} {c c' : Cluster} {s : Server} {t k : ℤ}
  {Q : List Server}

/-- Since `c`, server `s` has stood in term `t`, has `k` votes, and the requests
to the servers of `Q` are on their way. -/
structure Campaign (c : Cluster) (s : Server) (t k : ℤ) (Q : List Server) (c' : Cluster) :
    Prop where
  up : (c'.nodes s).up = true
  raft : ∃ answers, (c'.nodes s).raft = standing (c.nodes s).raft t k answers
  asked : ∀ q ∈ Q, c'.nodes q = c.nodes q ∧
    ⟨s, q, .vote (standingRequest (c.nodes s).raft t), none⟩ ∈ c'.net
  rest : ∀ v, v ≠ s → Polled t (c.nodes v) (c'.nodes v)

/-- Since `c`, server `s` has become the leader of term `t`. -/
structure Won (c : Cluster) (s : Server) (t : ℤ) (c' : Cluster) : Prop where
  up : (c'.nodes s).up = true
  raft : ∃ k answers, (c'.nodes s).raft = elected (standing (c.nodes s).raft t k answers)
  threads : ∀ f ∈ others (c.nodes s).raft, ⟨f, .idle⟩ ∈ (c'.nodes s).leaderThreads
  rest : ∀ v, v ≠ s → Polled t (c.nodes v) (c'.nodes v)

/-- The server stands, in the next term, and asks the others. -/
theorem campaign_begins (hs : s ∈ M) (hup : (c.nodes s).up = true)
    (hstands : Stands (c.nodes s).raft) (hQ : ∀ q ∈ Q, q ∈ others (c.nodes s).raft ∧ q ≠ s) :
    ∃ c', Cluster.Steps (Within M) c c' ∧
      Campaign c s ((c.nodes s).raft.currentTerm + 1) 1 Q c' := by
  obtain ⟨c', hsteps, hran⟩ := Cluster.ran_elect hs hup hstands
  rw [attemptToElect_stands] at hran
  refine ⟨c', hsteps, hran.up, ⟨_, hran.raft⟩, fun q hq => ?_, fun v hv => ?_⟩
  · obtain ⟨hmem, hne⟩ := hQ q hq
    refine ⟨hran.other q hne, hran.sent q _ ?_⟩
    exact List.mem_cons_of_mem _ (List.mem_map.mpr ⟨q, hmem, rfl⟩)
  · rw [hran.other v hv]
    exact .refl _ _

/-- The election is started over. -/
theorem Campaign.again (h : Campaign c s t k Q c') (hs : s ∈ M)
    (hQ : ∀ q ∈ Q, q ∈ others (c.nodes s).raft ∧ q ≠ s) :
    ∃ c'', Cluster.Steps (Within M) c' c'' ∧ Campaign c s (t + 1) 1 Q c'' := by
  obtain ⟨answers, heq⟩ := h.raft
  have hstands : Stands (c'.nodes s).raft := by
    rw [heq]
    exact Or.inr ⟨rfl, show (0 : ℤ) * 2 < (nServers : ℤ) by decide⟩
  obtain ⟨c'', hsteps, hran⟩ := Cluster.ran_elect hs h.up hstands
  rw [heq, attemptToElect_standing] at hran
  refine ⟨c'', hsteps, hran.up, ⟨_, hran.raft⟩, fun q hq => ?_, fun v hv => ?_⟩
  · obtain ⟨hmem, hne⟩ := hQ q hq
    refine ⟨(hran.other q hne).trans (h.asked q hq).1, hran.sent q _ ?_⟩
    exact List.mem_cons_of_mem _ (List.mem_map.mpr ⟨q, hmem, rfl⟩)
  · rw [hran.other v hv]
    have hpolled := h.rest v hv
    exact ⟨hpolled.up, hpolled.same, hpolled.term.trans (max_le_max_right _ (by omega))⟩

/-- The term of a campaign can be any later one. -/
theorem campaign_reaches (hs : s ∈ M) (hup : (c.nodes s).up = true)
    (hstands : Stands (c.nodes s).raft) (hQ : ∀ q ∈ Q, q ∈ others (c.nodes s).raft ∧ q ≠ s)
    (n : ℕ) : ∃ c', Cluster.Steps (Within M) c c' ∧
      Campaign c s ((c.nodes s).raft.currentTerm + 1 + n) 1 Q c' := by
  induction n with
  | zero =>
      rw [Nat.cast_zero, add_zero]
      exact campaign_begins hs hup hstands hQ
  | succ n ih =>
      obtain ⟨c', hsteps, hcampaign⟩ := ih
      obtain ⟨c'', hsteps', hcampaign'⟩ := hcampaign.again hs hQ
      refine ⟨c'', hsteps.trans hsteps', ?_⟩
      rwa [Nat.cast_succ, ← add_assoc]

/-- One more server gives its vote. -/
theorem Campaign.poll {q : Server} (h : Campaign c s t k (q :: Q) c') (hs : s ∈ M) (hq : q ∈ M)
    (hne : q ≠ s) (hnot : q ∉ Q) (hQ : s ∉ Q) (hup : (c.nodes q).up = true)
    (hlt : (c.nodes q).raft.currentTerm < t)
    (hlog : upToDate (c.nodes q).raft (voteRequest (c.nodes s).raft))
    (hroom : FreeSlot (c.nodes s).raft) :
    ∃ c'', Cluster.Steps (Within M) c' c'' ∧
      (Won c s t c'' ∨ ((k + 1) * 2 ≤ (nServers : ℤ) ∧ Campaign c s t (k + 1) Q c'')) := by
  obtain ⟨answers, heq⟩ := h.raft
  obtain ⟨hnode, hnet⟩ := h.asked q List.mem_cons_self
  obtain ⟨hf, hanswer, hsame, hterm⟩ := @vote_given (c.nodes q).raft s
    (standingRequest (c.nodes s).raft t) hlt hlog
  rw [standingRequest_term] at hanswer hterm
  -- the request is answered
  obtain ⟨c₁, hsteps₁, hran₁⟩ := Cluster.ran_deliver hnet (by rw [hnode]; exact hup) hs hq
    (by simp) (by simp only [hnode]; exact hf)
  simp only [hnode] at hran₁
  have hsent := hran₁.sent _ _ hanswer
  have hself : c₁.nodes s = c'.nodes s := hran₁.other s hne.symm
  -- the answer is counted
  have hcounted := vote_counted (c.nodes s).raft t k answers q (c.nodes q).raft.id
  have hroom' : FreeSlot (standing (c.nodes s).raft t (k + 1)
      (Function.update answers (c.nodes q).raft.id 1)) := hroom
  have hf' : (handlePacket (c₁.nodes s).raft q
      (.response ⟨(c.nodes q).raft.id, t, 1, -1⟩)).fault = false := by
    rw [hself, heq, hcounted]
    split_ifs
    · exact convertToLeader_fault hroom'
    · rfl
  obtain ⟨c₂, hsteps₂, hran₂⟩ := Cluster.ran_deliver hsent (by rw [hself]; exact h.up) hq hs
    (by simp) hf'
  simp only [hself, heq] at hran₂
  rw [hcounted] at hran₂
  have hothers : ∀ v, v ≠ s → Polled t (c.nodes v) (c₂.nodes v) := by
    intro v hv
    rw [hran₂.other v hv]
    by_cases hvq : v = q
    · subst hvq
      rw [← hran₁.raft] at hsame hterm
      exact ⟨fun _ => hran₁.up, hsame, hterm.trans_le (le_max_left _ _)⟩
    · rw [hran₁.other v hvq]
      exact h.rest v hv
  refine ⟨c₂, hsteps₁.trans hsteps₂, ?_⟩
  split_ifs at hran₂ with hmany
  · left
    obtain ⟨-, -, hwins⟩ := convertToLeader_ok (convertToLeader_fault hroom')
    rw [hwins] at hran₂
    refine ⟨hran₂.up, ⟨_, _, hran₂.raft⟩, fun f hf => ?_, hothers⟩
    rw [hran₂.threads]
    have hspawns : Effect.spawnLeaderThreads (others (c.nodes s).raft) ∈
        [.save { elected (standing (c.nodes s).raft t (k + 1)
          (Function.update answers (c.nodes q).raft.id 1)) with state := .candidate },
          .spawnLeaderThreads (others (c.nodes s).raft)] :=
      List.mem_cons_of_mem _ List.mem_cons_self
    exact List.mem_append_right _ (mem_spawned hspawns hf)
  · refine Or.inr ⟨by omega, hran₂.up, ⟨_, hran₂.raft⟩, fun v hv => ?_, hothers⟩
    have hvs : v ≠ s := fun heq => hQ (heq ▸ hv)
    have hvq : v ≠ q := fun heq => hnot (heq ▸ hv)
    obtain ⟨hstill, hwaits⟩ := h.asked v (List.mem_cons_of_mem _ hv)
    refine ⟨by rw [hran₂.other v hvs, hran₁.other v hvq, hstill], ?_⟩
    exact hran₂.kept _ (hran₁.kept _ hwaits hvq) hvs

/-- The candidate wins before it has been through the servers that are enough. -/
theorem Campaign.wins (h : Campaign c s t k Q c') (hs : s ∈ M) (hnodup : Q.Nodup)
    (hQ : ∀ q ∈ Q, q ∈ M ∧ q ≠ s ∧ (c.nodes q).up = true ∧ (c.nodes q).raft.currentTerm < t ∧
      upToDate (c.nodes q).raft (voteRequest (c.nodes s).raft))
    (hroom : FreeSlot (c.nodes s).raft) (hfew : k * 2 ≤ (nServers : ℤ))
    (hmany : (nServers : ℤ) < (k + Q.length) * 2) :
    ∃ c'', Cluster.Steps (Within M) c' c'' ∧ Won c s t c'' := by
  induction Q generalizing k c' with
  | nil =>
      simp only [List.length_nil, Nat.cast_zero, add_zero] at hmany
      omega
  | cons q Q ih =>
      obtain ⟨hnot, hrest⟩ := List.nodup_cons.mp hnodup
      obtain ⟨hq, hne, hup, hlt, hlog⟩ := hQ q List.mem_cons_self
      have hQs : s ∉ Q := fun hmem => (hQ s (List.mem_cons_of_mem _ hmem)).2.1 rfl
      obtain ⟨c₁, hsteps, hwon | ⟨hfew', hcampaign⟩⟩ :=
        h.poll hs hq hne hnot hQs hup hlt hlog hroom
      · exact ⟨c₁, hsteps, hwon⟩
      · rw [List.length_cons, Nat.cast_succ Q.length] at hmany
        obtain ⟨c₂, hsteps', hwon⟩ := ih hcampaign hrest
          (fun v hv => hQ v (List.mem_cons_of_mem _ hv)) hfew' (by omega)
        exact ⟨c₂, hsteps.trans hsteps', hwon⟩

/-- Its own id is nobody else's. -/
theorem mem_others_of_ne (hinj : Function.Injective config) (hids : OwnIds config w) {s q : Server}
    (h : q ≠ s) : q ∈ others (w.raft s) := by
  obtain ⟨hconfig, hid⟩ := hids.ids s
  refine List.mem_filter.mpr ⟨List.mem_finRange q, ?_⟩
  rw [hconfig, hid]
  exact decide_eq_true fun heq => h (hinj heq)

/-- In a majority that runs, a server that is not behind any of the others can
become the leader of a term that is later than all of theirs. -/
theorem majority_elects (hinj : Function.Injective config) (hids : OwnIds config w)
    (hw : w.raft s = (c.nodes s).raft) (hs : s ∈ M) (hM : nServers < M.card * 2)
    (hup : ∀ q ∈ M, (c.nodes q).up = true) (hstands : Stands (c.nodes s).raft)
    (hlog : ∀ q ∈ M, upToDate (c.nodes q).raft (voteRequest (c.nodes s).raft))
    (hroom : FreeSlot (c.nodes s).raft) :
    ∃ t c', Cluster.Steps (Within M) c c' ∧ Won c s t c' ∧
      ∀ q, (c.nodes q).raft.currentTerm < t := by
  obtain ⟨b, hterms⟩ : ∃ b, ∀ q, (c.nodes q).raft.currentTerm ≤ b :=
    ⟨Finset.univ.sup' Finset.univ_nonempty fun q => (c.nodes q).raft.currentTerm,
      fun q => Finset.le_sup' (fun q => (c.nodes q).raft.currentTerm) (Finset.mem_univ q)⟩
  have hQ : ∀ q ∈ (M.erase s).toList, q ∈ M ∧ q ≠ s := by
    intro q hq
    rw [Finset.mem_toList, Finset.mem_erase] at hq
    exact ⟨hq.2, hq.1⟩
  obtain ⟨c₁, hsteps, hcampaign⟩ := campaign_reaches (Q := (M.erase s).toList) hs (hup s hs)
    hstands (fun q hq => ⟨hw ▸ mem_others_of_ne hinj hids (hQ q hq).2, (hQ q hq).2⟩)
    (b - (c.nodes s).raft.currentTerm).toNat
  have hlater : ∀ q, (c.nodes q).raft.currentTerm <
      (c.nodes s).raft.currentTerm + 1 + (b - (c.nodes s).raft.currentTerm).toNat := by
    intro q
    have := hterms q
    have := hterms s
    omega
  have hcard : (M.erase s).toList.length + 1 = M.card := by
    rw [Finset.length_toList]
    exact Finset.card_erase_add_one hs
  obtain ⟨c₂, hsteps', hwon⟩ := hcampaign.wins hs (Finset.nodup_toList _)
    (fun q hq => ⟨(hQ q hq).1, (hQ q hq).2, hup q (hQ q hq).1, hlater q, hlog q (hQ q hq).1⟩)
    hroom (by decide) (by omega)
  exact ⟨_, c₂, hsteps.trans hsteps', hwon, hlater⟩

theorem Won.leads (h : Won c s t c') : (c'.nodes s).raft.state = .leader ∧
    (c'.nodes s).raft.currentTerm = t := by
  obtain ⟨k, answers, heq⟩ := h.raft
  rw [heq]
  exact ⟨rfl, rfl⟩

end Campaign

/-- **An election can be won**: in a majority of running servers, one whose log
is not behind any of the others', that may stand and has room for one more
entry can be elected by them, in a term later than any there has been. Nobody
else is needed for it, and no chance other than that the datagrams between them
arrive. -/
theorem election_can_be_won {config : Config} (hinj : Function.Injective config) {c : Cluster}
    (hreach : Cluster.Reachable config c) {M : Finset Server} {s : Server} (hs : s ∈ M)
    (hM : nServers < M.card * 2) (hup : ∀ q ∈ M, (c.nodes q).up = true)
    (hstands : Stands (c.nodes s).raft)
    (hlog : ∀ q ∈ M, upToDate (c.nodes q).raft (voteRequest (c.nodes s).raft))
    (hroom : FreeSlot (c.nodes s).raft) :
    ∃ c', Cluster.Steps (Within M) c c' ∧ (c'.nodes s).up = true ∧
      (c'.nodes s).raft.state = .leader ∧
      ∀ q, (c.nodes q).raft.currentTerm < (c'.nodes s).raft.currentTerm := by
  obtain ⟨w, hpath, href⟩ := (refines_init config).steps
    (Machine.Steps.weaken (fun c x _ => unrestricted_allows c x) hreach)
  have hids : OwnIds config w := OwnIds.path ⟨fun s => ⟨rfl, rfl⟩, by simp [World.init]⟩ hpath
  obtain ⟨t, c', hsteps, hwon, hterms⟩ := majority_elects hinj hids
    ((href.node s).raft_eq (hup s hs)) hs hM hup hstands hlog hroom
  exact ⟨c', hsteps, hwon.up, hwon.leads.1, fun q => hwon.leads.2 ▸ hterms q⟩

instance (r : RaftState) : Decidable (Stands r) := inferInstanceAs (Decidable (_ ∨ _))

instance (r : RaftState) : Decidable (FreeSlot r) := inferInstanceAs (Decidable (_ ∧ _))

/-- Server `0` has been elected, and crashes. -/
def leaderCrashes : List Action := firstElection ++ [.crash 0]

theorem leaderCrashes_runs : ((Cluster.init plainConfig).execAll leaderCrashes).any (fun c =>
    decide ((∀ q ∈ ({1, 2, 3} : Finset Server), (c.nodes q).up = true ∧
      upToDate (c.nodes q).raft (voteRequest (c.nodes 1).raft)) ∧
      Stands (c.nodes 1).raft ∧ FreeSlot (c.nodes 1).raft)) = true := by
  decide +kernel

theorem next_leader_can_be_elected : ∃ c c', Cluster.Reachable plainConfig c ∧
    Cluster.Steps (Within {1, 2, 3}) c c' ∧ (c'.nodes 1).raft.state = .leader := by
  obtain ⟨c, hreach, hready⟩ := Machine.exists_of_execAll leaderCrashes_runs
  obtain ⟨hM, hstands, hroom⟩ := of_decide_eq_true hready
  obtain ⟨c', hsteps, -, hleader, -⟩ := election_can_be_won (by decide) hreach
    (s := 1) (by decide) (by decide) (fun q hq => (hM q hq).1) hstands (fun q hq => (hM q hq).2)
    hroom
  exact ⟨c, c', hreach, hsteps, hleader⟩

end RaftLock

import RaftLock.Transfer.Chunks
import RaftLock.Transfer.Flag

/-!
Starting a transfer again.

`Raft_send_snapshot` starts with index `0` whenever it is called. The receiver
takes the request with the next index only, and it goes back to `-1` when the
transfer is closed or the term ends, but not when a request with index `0`
comes again.
-/

namespace RaftLock

open Outcome

/-! ### The sender -/

/-- The requests a thread sends from a place in `Raft_send_snapshot` on, each
of them answered with success. -/
inductive Sequence (files : FileSystem) (follower : Server) :
    LeaderPc → List InstallRequest → Prop
  | last (q : InstallRequest) (it : SnapshotIterator) (hd : q.done = true) :
      Sequence files follower (.sending q it) [q]
  | more (q : InstallRequest) (it : SnapshotIterator) (r : RaftState) (rest : List InstallRequest)
      (hd : q.done = false) (hanswered : q.requestId ≠ r.lastRequestId (r.config follower))
      (hsuccess : r.lastRequestResponse (r.config follower) ≠ 0)
      (hrest : Sequence files follower (resumeSnapshot r files follower q it).2 rest) :
      Sequence files follower (.sending q it) (q :: rest)

/-- The requests of a call of `Raft_send_snapshot` that does not have to wait
and is not aborted. -/
structure FreshRun (r : RaftState) (files : FileSystem) (follower : Server)
    (l : List InstallRequest) : Prop where
  free : r.snapshotInProgress = false
  requests : Sequence files follower (sendSnapshot r files follower).2 l

/-- Requests of one term and one snapshot with the indices from `i` on, of
which the last one closes the transfer. -/
inductive Complete (t id : ℤ) : ℤ → List InstallRequest → Prop
  | last (i : ℤ) (q : InstallRequest) (hterm : q.term = t) (hid : q.snapshotId = id)
      (hindex : q.index = i) (hd : q.done = true) : Complete t id i [q]
  | more (i : ℤ) (q : InstallRequest) (rest : List InstallRequest) (hterm : q.term = t)
      (hid : q.snapshotId = id) (hindex : q.index = i) (hd : q.done = false)
      (hrest : Complete t id (i + 1) rest) : Complete t id i (q :: rest)

section Sender

variable {r : RaftState} {files : FileSystem} {follower : Server} {l : List InstallRequest}

theorem sendChunk_sending (r : RaftState) (files : FileSystem) (follower : Server)
    (q : InstallRequest) (it : SnapshotIterator) (i : ℤ) :
    ∃ q' it', (sendChunk r files follower q it i).2 = .sending q' it' ∧ q'.term = q.term ∧
      q'.snapshotId = q.snapshotId ∧ q'.index = i := by
  unfold sendChunk
  simp only
  split
  · exact ⟨_, _, rfl, rfl, rfl, rfl⟩
  · exact ⟨_, _, rfl, rfl, rfl, rfl⟩

/-- A thread that wakes up to a success goes on with the next block. -/
theorem resumeSnapshot_answered {q : InstallRequest} (it : SnapshotIterator)
    (hd : q.done = false) (hanswered : q.requestId ≠ r.lastRequestId (r.config follower))
    (hsuccess : r.lastRequestResponse (r.config follower) ≠ 0) :
    resumeSnapshot r files follower q it = sendChunk r files follower q it (q.index + 1) := by
  unfold resumeSnapshot
  simp only
  rw [if_neg hanswered, if_neg hsuccess, if_pos (by simp [hd])]

theorem sendSnapshot_free (files : FileSystem) (follower : Server)
    (hfree : r.snapshotInProgress = false) : ∃ r' q, q.term = r.currentTerm ∧
      q.snapshotId = r.startLogIndex ∧ sendSnapshot r files follower =
        sendChunk r' files follower q (snapshotItInit r.startLogIndex) 0 := by
  unfold sendSnapshot
  rw [if_neg (by simp [hfree])]
  exact ⟨_, _, rfl, rfl, rfl⟩

theorem Sequence.complete {pc : LeaderPc} (h : Sequence files follower pc l) {q : InstallRequest}
    {it : SnapshotIterator} (hpc : pc = .sending q it) :
    Complete q.term q.snapshotId q.index l := by
  induction h generalizing q it with
  | last q' it' hd =>
      cases hpc
      exact .last _ _ rfl rfl rfl hd
  | more q' it' r rest hd hanswered hsuccess hrest ih =>
      cases hpc
      obtain ⟨q₁, it₁, hpc, hterm, hid, hindex⟩ :=
        sendChunk_sending r files follower q' it' (q'.index + 1)
      have hcomplete := ih ((congrArg Prod.snd
        (resumeSnapshot_answered it' hd hanswered hsuccess)).trans hpc)
      rw [hterm, hid, hindex] at hcomplete
      exact .more _ _ _ rfl rfl rfl hd hcomplete

theorem FreshRun.complete (h : FreshRun r files follower l) :
    Complete r.currentTerm r.startLogIndex 0 l := by
  obtain ⟨r', q, hterm, hid, hsent⟩ := sendSnapshot_free files follower h.free
  obtain ⟨q₁, it₁, hpc, hterm₁, hid₁, hindex₁⟩ :=
    sendChunk_sending r' files follower q (snapshotItInit r.startLogIndex) 0
  have hcomplete := h.requests.complete ((congrArg Prod.snd hsent).trans hpc)
  rwa [hterm₁, hid₁, hindex₁, hterm, hid] at hcomplete

/-- The sender's loop comes to its end if every request is answered. -/
theorem Produces.sequence {it : SnapshotIterator} {chunks : List (Bytes × Bytes)}
    (h : Produces files it chunks) (follower : Server) (r : RaftState) (q : InstallRequest)
    (i : ℤ) :
    ∃ l, Sequence files follower (sendChunk r files follower q it i).2 l := by
  induction h generalizing r q i with
  | done it hdone =>
      unfold sendChunk
      simp only
      split
      · rename_i it' filename buffer hnext
        exact absurd (congrArg Prod.snd hnext) (by simp [hdone])
      · exact ⟨_, .last _ _ rfl⟩
  | next it it' chunk chunks hnext hrest ih =>
      unfold sendChunk
      simp only [hnext]
      -- the answer raises the request id
      let r' : RaftState :=
        { r with
          lastRequestId := fun id => r.lastRequestId id + 1
          lastRequestResponse := fun _ => 1 }
      let q' : InstallRequest :=
        { q with
          index := i, requestId := r.lastRequestId (r.config follower), done := false
          filename := chunk.1, buffer := chunk.2 }
      have hanswered : q'.requestId ≠ r'.lastRequestId (r'.config follower) := by
        show r.lastRequestId (r.config follower) ≠ r.lastRequestId (r.config follower) + 1
        omega
      have hsuccess : r'.lastRequestResponse (r'.config follower) ≠ 0 := one_ne_zero
      obtain ⟨l, hl⟩ := ih r' q' (i + 1)
      refine ⟨q' :: l, .more q' it' r' l rfl hanswered hsuccess ?_⟩
      rw [resumeSnapshot_answered it' rfl hanswered hsuccess]
      exact hl

theorem exists_freshRun (files : FileSystem) (follower : Server)
    (hfree : r.snapshotInProgress = false) : ∃ l, FreshRun r files follower l := by
  obtain ⟨r', q, -, -, hsent⟩ := sendSnapshot_free files follower hfree
  obtain ⟨l, hl⟩ := (produces_snapshot files r.startLogIndex).sequence follower r' q 0
  exact ⟨l, hfree, by rw [hsent]; exact hl⟩

end Sender

/-! ### The receiver -/

/-- The answer to an InstallSnapshot request says that it was accepted. -/
def AcceptsInstall (r : RaftState) (addr : Server) (q : InstallRequest) : Prop :=
  ∃ p : Response, .send addr (.response p) ∈ (handlePacket r addr (.installSnapshot q)).effects ∧
    p.success = 1

/-- The requests are handled one after the other and accepted. -/
def AcceptsAll (addr : Server) : RaftState → List InstallRequest → Prop
  | _, [] => True
  | r, q :: l => AcceptsInstall r addr q ∧
      AcceptsAll addr (handlePacket r addr (.installSnapshot q)).raft l

/-- The state once the requests have been handled. -/
def received (addr : Server) (r : RaftState) (l : List InstallRequest) : RaftState :=
  l.foldl (fun r q => (handlePacket r addr (.installSnapshot q)).raft) r

/-- Both fields of an installation say whether one is under way. -/
structure Paired (r : RaftState) : Prop where
  free : r.installSnapshotId = -1 → r.installSnapshotIndex = -1
  busy : r.installSnapshotId ≠ -1 → 0 ≤ r.installSnapshotIndex

section Receiver

variable {r r' : RaftState} {addr : Server} {q : InstallRequest}

theorem handled_ownTerm (addr : Server) (hterm : r.currentTerm = q.term) :
    Handled r addr (.installSnapshot q) (handlePacket r addr (.installSnapshot q)).raft
      (handlePacket r addr (.installSnapshot q)).effects :=
  handled hterm.ge (install_fault r addr q)

/-- In its own term a request is accepted as the check says. -/
theorem acceptsInstall_iff (hterm : r.currentTerm = q.term) :
    AcceptsInstall r addr q ↔ installable r q := by
  have hh := handled_ownTerm addr hterm
  constructor
  · rintro ⟨p, hp, hs⟩
    exact hh.install_success hp (by rw [hs]; exact one_ne_zero)
  · intro hi
    refine ⟨⟨r.id, r.currentTerm, 1, q.requestId⟩, ?_, rfl⟩
    generalize (handlePacket r addr (.installSnapshot q)).effects = es at hh ⊢
    generalize (handlePacket r addr (.installSnapshot q)).raft = r' at hh
    cases hh with
    | installRefused _ hi' => exact absurd hi hi'
    | installChunk _ _ _ hd _ hr' => simp [reply]
    | installDone _ _ _ hd es hes => simp [reply]

theorem install_raft (addr : Server) (hterm : r.currentTerm = q.term) (hi : installable r q) :
    (handlePacket r addr (.installSnapshot q)).raft =
      if q.done then installDone r q.snapshotId
      else { r with
        snapshotInProgress := true
        installSnapshotId := q.snapshotId
        installSnapshotIndex := r.installSnapshotIndex + 1 } := by
  have hh := handled_ownTerm addr hterm
  generalize (handlePacket r addr (.installSnapshot q)).effects = es at hh
  generalize (handlePacket r addr (.installSnapshot q)).raft = r' at hh ⊢
  cases hh with
  | installRefused _ hi' => exact absurd hi hi'
  | installChunk _ _ _ hd _ hr' => rw [hr', if_neg (by simp [hd])]
  | installDone _ _ _ hd es hes => rw [if_pos hd]

theorem installable_iff (hterm : r.currentTerm = q.term) :
    installable r q ↔ (r.installSnapshotId = -1 ∨ r.installSnapshotId = q.snapshotId) ∧
      r.installSnapshotIndex + 1 = q.index := by
  unfold installable
  constructor
  · intro h
    push Not at h
    obtain ⟨-, hid, hindex⟩ := h
    exact ⟨or_iff_not_imp_left.mpr hid, hindex⟩
  · rintro ⟨hid, hindex⟩
    push Not
    exact ⟨hterm.le, or_iff_not_imp_left.mp hid, hindex⟩

/-- A transfer that goes on where the receiver is comes to its end. -/
theorem Complete.accepted {t id i : ℤ} {l : List InstallRequest} (h : Complete t id i l)
    (hterm : r.currentTerm = t) (hid : r.installSnapshotId = -1 ∨ r.installSnapshotId = id)
    (hindex : r.installSnapshotIndex + 1 = i) :
    AcceptsAll addr r l ∧ (received addr r l).startLogIndex = id := by
  induction h generalizing r with
  | last i q hqterm hqid hqindex hd =>
      have hown : r.currentTerm = q.term := hterm.trans hqterm.symm
      have hi : installable r q := (installable_iff hown).mpr ⟨by rwa [hqid], by rwa [hqindex]⟩
      refine ⟨⟨(acceptsInstall_iff hown).mpr hi, trivial⟩, ?_⟩
      simp only [received, List.foldl_cons, List.foldl_nil]
      rw [install_raft addr hown hi, if_pos hd]
      exact hqid
  | more i q rest hqterm hqid hqindex hd hrest ih =>
      have hown : r.currentTerm = q.term := hterm.trans hqterm.symm
      have hi : installable r q := (installable_iff hown).mpr ⟨by rwa [hqid], by rwa [hqindex]⟩
      have hraft := install_raft addr hown hi
      rw [if_neg (by simp [hd])] at hraft
      obtain ⟨hall, hend⟩ := ih (r := (handlePacket r addr (.installSnapshot q)).raft)
        (by rw [hraft]; exact hterm) (by rw [hraft]; exact Or.inr hqid)
        (by rw [hraft]; exact congrArg (· + 1) hindex)
      exact ⟨⟨(acceptsInstall_iff hown).mpr hi, hall⟩, hend⟩

/-- The first request of a transfer is refused while one is under way. -/
theorem Complete.refused {t id : ℤ} {l : List InstallRequest} (h : Complete t id 0 l)
    (hterm : r.currentTerm = t) (hindex : 0 ≤ r.installSnapshotIndex) : ¬ AcceptsAll addr r l := by
  intro hall
  have hfirst : ∀ q rest, l = q :: rest → q.term = t → q.index = 0 → False := by
    rintro q rest rfl hqterm hqindex
    have hi := (acceptsInstall_iff (hterm.trans hqterm.symm)).mp hall.1
    have hnext := ((installable_iff (hterm.trans hqterm.symm)).mp hi).2
    omega
  cases h with
  | last _ q hqterm hqid hqindex hd => exact hfirst q [] rfl hqterm hqindex
  | more _ q rest hqterm hqid hqindex hd hrest => exact hfirst q rest rfl hqterm hqindex

/-- From its first request on, a transfer is accepted exactly when none is
under way. -/
theorem Complete.accepted_iff {t id : ℤ} {l : List InstallRequest} (h : Complete t id 0 l)
    (hterm : r.currentTerm = t) (hpaired : Paired r) :
    (AcceptsAll addr r l ∧ (received addr r l).startLogIndex = id) ↔ r.installSnapshotId = -1 := by
  constructor
  · rintro ⟨hall, -⟩
    by_contra hbusy
    exact h.refused hterm (hpaired.busy hbusy) hall
  · intro hfree
    exact h.accepted hterm (Or.inl hfree) (by rw [hpaired.free hfree]; rfl)

end Receiver

/-! ### States of the receiver -/

section Turns

variable {c : Cluster} {s : Server} {n n' : Node} {x : Action}

theorem Paired.of_same {r r' : RaftState} (h : Paired r) (hsame : SameTransfer r r') :
    Paired r' := by
  refine ⟨?_, ?_⟩
  · rw [hsame.id, hsame.index]
    exact h.free
  · rw [hsame.id, hsame.index]
    exact h.busy

theorem Paired.arrived {r : RaftState} (h : Paired r) (packet : Packet) :
    Paired (arrived r packet) := by
  obtain ⟨-, ⟨-, hid, hindex⟩ | ⟨-, heq⟩⟩ := arrived_transfer r packet
  · refine ⟨fun _ => ?_, fun hbusy => absurd hid hbusy⟩
    rcases hindex with hindex | ⟨hfree, hindex⟩
    · exact hindex
    · rw [hindex]
      exact h.free hfree
  · rw [heq]
    exact h

theorem Transfers.paired {r r' : RaftState} {packet : Packet} (h : Transfers r packet r')
    (hr : Paired r) (hids : ∀ q, packet = .installSnapshot q → q.snapshotId ≠ -1) : Paired r' := by
  cases h with
  | keeps _ _ hkeeps => exact hr.of_same hkeeps
  | chunk q hi hd _ hr' =>
      subst hr'
      refine ⟨fun hfree => absurd hfree (hids q rfl), fun _ => ?_⟩
      show 0 ≤ r.installSnapshotIndex + 1
      rcases eq_or_ne r.installSnapshotId (-1) with hfree | hbusy
      · rw [hr.free hfree]
        rfl
      · have := hr.busy hbusy
        omega
  | done q hi hd => exact ⟨fun _ => rfl, fun hbusy => absurd rfl hbusy⟩

/-- A local snapshot leaves an installation alone. -/
theorem snapshotStep_install (r : RaftState) (pc : SnapshotPc) :
    (snapshotStep r pc).1.raft.installSnapshotId = r.installSnapshotId ∧
      (snapshotStep r pc).1.raft.installSnapshotIndex = r.installSnapshotIndex := by
  have h := snapshotStep_section r pc
  generalize (snapshotStep r pc).1 = o at h ⊢
  cases h with
  | enter n hpc he => exact ⟨rfl, rfl⟩
  | shift n prev hpc =>
      unfold createSnapshotShift
      simp only
      split_ifs <;> exact ⟨rfl, rfl⟩
  | plain _ hraft hes =>
      rw [hraft]
      exact ⟨rfl, rfl⟩

theorem NodeTurn.paired (h : NodeTurn c s n x n') (hup' : n'.up = true)
    (hn : n.up = true → Paired n.raft)
    (hids : ∀ d ∈ c.net, ∀ q, d.packet = .installSnapshot q → q.snapshotId ≠ -1) :
    Paired n'.raft := by
  cases h with
  | down _ _ hdown => exact absurd (hup'.symm.trans hdown) (by simp)
  | idle _ _ _ hup _ hraft =>
      rw [hraft]
      exact hn hup
  | elect _ _ _ hup _ hraft =>
      rw [hraft]
      exact (hn hup).of_same (attemptToElect_keeps _)
  | packet k d _ hup _ hd hs hf hraft =>
      rw [hraft]
      exact (handlePacket_transfers hf).paired ((hn hup).arrived d.packet)
        (hids d (List.mem_of_getElem? hd))
  | append e _ hup _ hf hraft =>
      rw [hraft]
      exact (hn hup).of_same (appendEntry_keeps hf)
  | sender k t _ hup _ ht hf hraft =>
      rw [hraft]
      exact (hn hup).of_same (leaderStep_keeps hf)
  | snapshot k pc _ hup _ hpc hf hraft =>
      obtain ⟨hid, hindex⟩ := snapshotStep_install n.raft pc
      rw [hraft]
      refine ⟨?_, ?_⟩
      · rw [hid, hindex]
        exact (hn hup).free
      · rw [hid, hindex]
        exact (hn hup).busy
  | restart st _ _ _ _ hraft =>
      rw [hraft]
      exact ⟨fun _ => rfl, fun hbusy => absurd rfl hbusy⟩

end Turns

namespace Traffic

variable {config : Config} {m : Traffic}

theorem paired_reached (hrun : Machine.Reaches exec (init config) m) (s : Server)
    (hup : (m.cluster.nodes s).up = true) : Paired (m.cluster.nodes s).raft := by
  induction hrun generalizing s with
  | refl => exact ⟨fun _ => rfl, fun hbusy => absurd rfl hbusy⟩
  | tail hpre hlast ih =>
      obtain ⟨y, -, hy⟩ := hlast
      rcases exec_cases hy with ⟨x, c, rfl, hx, rfl⟩ | ⟨k, d, rfl, hd, rfl⟩
      · refine (Cluster.exec_turn hx s).paired hup (ih s) fun d hd q hq => ?_
        have := install_nonneg hpre hd hq
        omega
      · exact ih s hup

/-- In every state a run reaches, the requests of a new call of
`Raft_send_snapshot`, handled in order by a server of the same term, are all
accepted and install the snapshot exactly when that server has no installation
under way. -/
theorem transfer_retried_iff (hrun : Machine.Reaches exec (init config) m) {s f : Server}
    (hup : (m.cluster.nodes f).up = true)
    (hterm : (m.cluster.nodes f).raft.currentTerm = (m.cluster.nodes s).raft.currentTerm) :
    ((m.cluster.nodes s).raft.snapshotInProgress = false →
      ∃ l, FreshRun (m.cluster.nodes s).raft (m.cluster.nodes s).files f l) ∧
    ∀ l, FreshRun (m.cluster.nodes s).raft (m.cluster.nodes s).files f l →
      ((AcceptsAll s (m.cluster.nodes f).raft l ∧
        (received s (m.cluster.nodes f).raft l).startLogIndex =
          (m.cluster.nodes s).raft.startLogIndex) ↔
        (m.cluster.nodes f).raft.installSnapshotId = -1) :=
  ⟨exists_freshRun _ f, fun _ hl => hl.complete.accepted_iff hterm (paired_reached hrun f hup)⟩

end Traffic

/-! ### Lost answers -/

section LongRun

/-- The answer to the first block arrives, the transfer is closed, and the
answer to the closing request is lost. -/
def closingLost : List Action := [.deliver 0 none, .leaderThread 0 2, .deliver 0 none, .drop 0]

/-- The answer to the first block is lost. The block is sent again and refused,
and the transfer aborted. -/
def blockLost : List Action :=
  [.drop 0, .leaderThread 0 2, .deliver 0 none, .deliver 0 none, .leaderThread 0 2]

/-- Server `0` leads and can start a transfer to server `3`, which is in its
term and has the installation `id` under way. -/
def canRetry (id : ℤ) (c : Cluster) : Bool :=
  decide ((c.nodes 0).raft.state = .leader ∧ (c.nodes 0).raft.snapshotInProgress = false ∧
    (c.nodes 0).raft.startLogIndex = 50 ∧ (c.nodes 3).up = true ∧
    (c.nodes 3).raft.currentTerm = (c.nodes 0).raft.currentTerm ∧
    (c.nodes 3).raft.installSnapshotId = id)

set_option maxRecDepth 100000 in
theorem lostAnswers_run : ((Cluster.init plainConfig).execAll (sixtyWithFile ++ firstBlock)).any
    (fun c => (c.execAll closingLost).any (canRetry (-1)) &&
      (c.execAll blockLost).any (canRetry 50)) = true := by
  decide +kernel

/-- The closing request was accepted, so the transfer can be made again. -/
theorem closed_transfer_retried : ∃ (m : Traffic) (l : List InstallRequest),
    Machine.Reaches Traffic.exec (Traffic.init plainConfig) m ∧ (m.cluster.nodes 3).up = true ∧
    (m.cluster.nodes 3).raft.currentTerm = (m.cluster.nodes 0).raft.currentTerm ∧
    FreshRun (m.cluster.nodes 0).raft (m.cluster.nodes 0).files 3 l ∧
    AcceptsAll 0 (m.cluster.nodes 3).raft l ∧
    (received 0 (m.cluster.nodes 3).raft l).startLogIndex = 50 := by
  obtain ⟨c, hc, htest⟩ := Machine.exists_of_execAll lostAnswers_run
  rw [Bool.and_eq_true] at htest
  obtain ⟨c', hc', hretry⟩ := Machine.exists_of_execAll htest.1
  obtain ⟨-, hfree, hstart, hup, hterm, hid⟩ := of_decide_eq_true hretry
  obtain ⟨m, hm, rfl⟩ := Traffic.lifts_steps (hc.trans hc') (m := Traffic.init plainConfig) rfl
  have hrun := Machine.Steps.weaken (fun _ _ _ => trivial) hm
  obtain ⟨hexists, hiff⟩ := Traffic.transfer_retried_iff hrun (s := 0) hup hterm
  obtain ⟨l, hl⟩ := hexists hfree
  obtain ⟨hall, hend⟩ := (hiff l hl).mpr hid
  exact ⟨m, l, hrun, hup, hterm, hl, hall, hend.trans hstart⟩

/-- The first block was accepted and its answer lost: no request of a new call
of `Raft_send_snapshot` starts the transfer again. -/
theorem block_refused_forever : ∃ c, Cluster.Reachable plainConfig c ∧
    (c.nodes 0).raft.state = .leader ∧ (c.nodes 3).up = true ∧
    (c.nodes 3).raft.currentTerm = (c.nodes 0).raft.currentTerm ∧
    (∃ l, FreshRun (c.nodes 0).raft (c.nodes 0).files 3 l) ∧
    ∀ l, FreshRun (c.nodes 0).raft (c.nodes 0).files 3 l → ¬ AcceptsAll 0 (c.nodes 3).raft l := by
  obtain ⟨c, hc, htest⟩ := Machine.exists_of_execAll lostAnswers_run
  rw [Bool.and_eq_true] at htest
  obtain ⟨c', hc', hretry⟩ := Machine.exists_of_execAll htest.2
  obtain ⟨hleads, hfree, -, hup, hterm, hid⟩ := of_decide_eq_true hretry
  obtain ⟨m, hm, hcluster⟩ :=
    Traffic.lifts_steps (hc.trans hc') (m := Traffic.init plainConfig) rfl
  have hpaired := Traffic.paired_reached (Machine.Steps.weaken (fun _ _ _ => trivial) hm) 3
    (by rw [hcluster]; exact hup)
  rw [hcluster] at hpaired
  refine ⟨c', hc.trans hc', hleads, hup, hterm, exists_freshRun _ 3 hfree, fun l hl hall => ?_⟩
  have hbusy : (c'.nodes 3).raft.installSnapshotId ≠ -1 := by
    rw [hid]
    decide
  exact hl.complete.refused hterm (hpaired.busy hbusy) hall

end LongRun

end RaftLock

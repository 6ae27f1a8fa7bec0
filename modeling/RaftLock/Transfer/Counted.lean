import RaftLock.Transfer.Flag
import RaftLock.Transfer.Reported

/-!
The number of transfers under way.

`Raft_send_snapshot` adds one to `n_followers_receiving_snapshots` before its
first datagram and takes one off where it returns, and while the number is
positive `Raft_create_snapshot` is refused. A thread in the middle of a
transfer does not look at the role of the server, so it may still be there
when the server wins its next election; and a new leader starts from zero.
-/

namespace RaftLock

open Outcome

/-- The thread is inside `Raft_send_snapshot` and has counted itself. -/
def LeaderThread.transfers (t : LeaderThread) : Bool :=
  match t.pc with
  | .sending _ _ => true
  | _ => false

def Node.transfers (n : Node) : ℕ := n.leaderThreads.countP LeaderThread.transfers

/-- The server's count is exact. -/
def Node.Counted (n : Node) : Prop :=
  n.up = true → n.raft.nFollowersReceivingSnapshots = n.transfers

section Sections

variable {r r' : RaftState} {addr : Server} {packet : Packet} {es : List Effect}

/-- The count changes in a handler when the server is elected, and then to
zero. -/
theorem Handled.receiving (h : Handled r addr packet r' es) :
    r'.nFollowersReceivingSnapshots = r.nFollowersReceivingSnapshots ∨
    (r'.nFollowersReceivingSnapshots = 0 ∧
      ∃ q, packet = .response q ∧ q.term = r.currentTerm ∧ MakesLeader r q) := by
  cases h with
  | voteDecided q hterm hstate hs hmany hlo hroom _ hr' =>
      subst hr'
      exact Or.inr ⟨rfl, q, rfl, hterm, hstate, hs, hmany⟩
  | installChunk q hterm hi hd _ hr' =>
      subst hr'
      exact Or.inl rfl
  | installAnswered q hterm hstate hid hnext _ hr' =>
      subst hr'
      exact Or.inl rfl
  | appendAnswered q hterm hstate hid hnext next hans _ hr' =>
      subst hr'
      exact Or.inl rfl
  | entryAnswered q hterm hstate hid hnext hlt hs hskip _ hr' =>
      subst hr'
      exact Or.inl rfl
  | entryCounted q hterm hstate hid hnext hlt hs hnew hown hroom n hn hcommit _ hr' =>
      subst hr'
      exact Or.inl rfl
  | _ => exact Or.inl rfl

theorem arrived_receiving (r : RaftState) (packet : Packet) :
    (arrived r packet).nFollowersReceivingSnapshots = r.nFollowersReceivingSnapshots := by
  unfold arrived convertToFollower
  simp only
  split_ifs <;> rfl

theorem handlePacket_receiving (hf : (handlePacket r addr packet).fault = false) :
    (handlePacket r addr packet).raft.nFollowersReceivingSnapshots =
      r.nFollowersReceivingSnapshots ∨
    ((handlePacket r addr packet).raft.nFollowersReceivingSnapshots = 0 ∧
      ∃ q, packet = .response q ∧ q.term = r.currentTerm ∧ MakesLeader r q) := by
  rcases handlePacket_cases hf with ⟨-, heq⟩ | ⟨es, h, hsame | hrequest⟩
  · rw [heq]
    exact Or.inl (arrived_receiving r packet)
  · rw [hsame] at h
    exact h.receiving
  · rcases h.receiving with heq | ⟨-, q, rfl, -⟩
    · exact Or.inl (heq.trans (arrived_receiving r packet))
    · exact absurd rfl (hrequest q)

end Sections

section Turns

variable {c : Cluster} {s : Server} {n n' : Node} {x : Action}

/-- A thread that moves takes its own part of the number with it. -/
theorem transfers_replaceAt {l : List LeaderThread} {k : ℕ} {t : LeaderThread}
    (ht : l[k]? = some t) (t' : Option LeaderThread) :
    (List.replaceAt l k t').countP LeaderThread.transfers + (if t.transfers then 1 else 0) =
      l.countP LeaderThread.transfers + t'.toList.countP LeaderThread.transfers := by
  obtain ⟨hold, hnew⟩ := List.replaceAt_perm ht t'
  rw [hnew.countP_eq, hold.countP_eq, List.countP_append, List.countP_cons]
  omega

theorem transfers_spawned (es : List Effect) :
    (spawned es).countP LeaderThread.transfers = 0 := by
  rw [List.countP_eq_zero]
  intro t ht
  simp [LeaderThread.transfers, spawned_idle ht]

theorem Entering.transfers {r : RaftState} {t : LeaderThread} (h : Entering r t) :
    t.transfers = false := by
  rcases h with hpc | ⟨hpc, -⟩ <;> simp [LeaderThread.transfers, hpc]

/-- A section of a leader thread changes the count as the thread goes into a
transfer or comes out of one. -/
theorem Sends.receiving {r r' : RaftState} {t : LeaderThread} {es : List Effect}
    {pc : Option LeaderPc} (h : Sends r t r' es pc) :
    r'.nFollowersReceivingSnapshots + (if t.transfers then 1 else 0) =
      r.nFollowersReceivingSnapshots +
        (pc.map fun pc => { t with pc }).toList.countP LeaderThread.transfers := by
  cases h with
  | first hpc hfree q it hterm hid =>
      rw [hpc.transfers]
      simp [LeaderThread.transfers]
  | wait hpc hbusy =>
      rw [hpc.transfers]
      simp [LeaderThread.transfers]
  | next q q' it it' hpc hterm hid => simp [LeaderThread.transfers, hpc]
  | giveUp q it hpc => simp [LeaderThread.transfers, hpc]
  | finish q it hpc hid hres hdone => simp [LeaderThread.transfers, hpc]
  | stop hpc hstate => simp [LeaderThread.transfers, hpc]
  | heartbeat hpc hstate hnext heq => simp [LeaderThread.transfers, hpc]
  | entry hpc hstate hnext e he => simp [LeaderThread.transfers, hpc]

/-- The packet makes the server leader while a thread of an earlier term of
its own is in the middle of a transfer. -/
def Overtakes (n : Node) : Packet → Prop
  | .response q => q.term = n.raft.currentTerm ∧ MakesLeader n.raft q ∧ 0 < n.transfers
  | _ => False

instance (n : Node) (packet : Packet) : Decidable (Overtakes n packet) :=
  match packet with
  | .response _ => inferInstanceAs (Decidable (_ ∧ _))
  | .append _ | .vote _ | .installSnapshot _ => inferInstanceAs (Decidable False)

theorem Node.Counted.of_same (h : n.Counted) (hup : n.up = true)
    (hraft : n'.raft.nFollowersReceivingSnapshots = n.raft.nFollowersReceivingSnapshots)
    (hthreads : n'.leaderThreads = n.leaderThreads) : n'.Counted := by
  intro _
  rw [hraft, h hup, Node.transfers, Node.transfers, hthreads]

theorem NodeTurn.counted (h : NodeTurn c s n x n') (hquiet : n.Quiet) (hn : n.Counted)
    (hok : ∀ k d, x = .deliver k none → c.net[k]? = some d → d.dst = s → ¬ Overtakes n d.packet) :
    n'.Counted := by
  cases h with
  | down _ _ hdown => exact fun hup => absurd (hup.symm.trans hdown) (by simp)
  | idle _ _ _ hup _ hraft hleaders _ => exact hn.of_same hup (by rw [hraft]) hleaders
  | elect _ _ _ hup _ hraft hleaders _ => exact hn.of_same hup (by rw [hraft]; rfl) hleaders
  | append e _ hup _ hf hraft hleaders _ =>
      refine hn.of_same hup ?_ hleaders
      rw [hraft]
      rcases appendEntry_ok hf with heq | ⟨r', heq, -, -, -, rfl⟩ <;> rw [heq] <;> rfl
  | packet k d _ hup _ hd hs hf hraft hleaders _ =>
      have hcount : n'.transfers = n.transfers := by
        rw [Node.transfers, hleaders, List.countP_append, transfers_spawned, add_zero,
          Node.transfers]
      intro _
      rw [hraft, hcount]
      rcases handlePacket_receiving hf with heq | ⟨hzero, q, hq, hterm, hmakes⟩
      · rw [heq, hn hup]
      · have hidle : ¬ Overtakes n d.packet := hok k d rfl hd hs
        rw [hq] at hidle
        have hnone : ¬ 0 < n.transfers := fun hpos => hidle ⟨hterm, hmakes, hpos⟩
        omega
  | sender k t _ hup _ ht hf hraft hleaders _ =>
      have hsends := (leaderStep_sends hf).receiving
      have hmoves := transfers_replaceAt ht ((leaderStep n.raft n.files t).2.map fun pc =>
        { t with pc })
      have hold := hn hup
      intro _
      rw [hraft, Node.transfers, hleaders]
      unfold Node.transfers at hold
      split_ifs at hsends hmoves <;> omega
  | snapshot k pc _ hup _ hpc hf hraft hleaders _ =>
      refine hn.of_same hup ?_ hleaders
      rw [hraft]
      have hsection := snapshotStep_section n.raft pc
      generalize (snapshotStep n.raft pc).1 = o at hf hsection ⊢
      cases hsection with
      | enter m hpc' he => rfl
      | shift m prev hpc' =>
          obtain ⟨-, heq⟩ := createSnapshotShift_ok hf
          rw [heq]
          rfl
      | plain _ hplain hes => rw [hplain]
  | restart st _ hdown _ _ hraft hleaders _ =>
      intro _
      rw [hraft, Node.transfers, hleaders, (hquiet hdown).1]
      rfl

end Turns

/-- No server becomes leader while a thread of its earlier leadership is in the
middle of a transfer. -/
def Cluster.LeadsIdle (c : Cluster) : Action → Prop
  | .deliver k _ => ∀ d, c.net[k]? = some d → ¬ Overtakes (c.nodes d.dst) d.packet
  | _ => True

namespace Traffic

/-- In every run in which no server wins an election in the middle of a
transfer it has begun as an earlier leader, the count of a server that is up is
the number of its threads inside `Raft_send_snapshot`, and while there is one
`Raft_create_snapshot` does not start. -/
theorem transfers_counted {config : Config} {m : Traffic}
    (hrun : Machine.Steps exec (lifts Cluster.LeadsIdle) (init config) m) {s : Server}
    (hup : (m.cluster.nodes s).up = true) :
    (m.cluster.nodes s).raft.nFollowersReceivingSnapshots = (m.cluster.nodes s).transfers ∧
    ((∃ t ∈ (m.cluster.nodes s).leaderThreads, t.transfers = true) →
      ∀ n, createSnapshotEnter (m.cluster.nodes s).raft n = none) := by
  have hcount : ∀ s, (m.cluster.nodes s).Quiet ∧ (m.cluster.nodes s).Counted := by
    clear hup
    induction hrun with
    | refl => exact fun s => ⟨fun hdown => absurd hdown (by simp [init, Cluster.init, Node.init]),
        fun _ => rfl⟩
    | tail _ hlast ih =>
        obtain ⟨y, hok, hy⟩ := hlast
        rcases exec_cases hy with ⟨x, c, rfl, hx, rfl⟩ | ⟨k, d, rfl, hd, rfl⟩
        · intro s
          have hturn := Cluster.exec_turn hx s
          refine ⟨hturn.quiet (ih s).1, hturn.counted (ih s).1 (ih s).2 ?_⟩
          rintro k d rfl hd rfl
          exact hok d hd
        · exact ih
  have hs := (hcount s).2 hup
  refine ⟨hs, ?_⟩
  rintro ⟨t, ht, hin⟩ n
  have hpos : 0 < (m.cluster.nodes s).transfers := List.countP_pos_iff.mpr ⟨t, ht, hin⟩
  unfold createSnapshotEnter
  rw [if_pos]
  exact Or.inr (Or.inl (by omega))

end Traffic

/-! ### A leader of two terms -/

section LongRun

/-- Server `1` stands for election, server `0` hears of it, stands for the next
term and is elected by servers `1` and `2`. -/
def leadsAgain : List Action :=
  [.timeout 1, .elect 1 none, .deliver 1 none, .timeout 0, .elect 0 none, .deliver 5 none,
    .deliver 5 none, .deliver 7 none, .deliver 7 none]

def leadsIdle (c : Cluster) : Action → Bool
  | .deliver k _ => c.net[k]?.all fun d => decide (¬ Overtakes (c.nodes d.dst) d.packet)
  | _ => true

theorem leadsIdle_sound (c : Cluster) (x : Action) (h : leadsIdle c x = true) : c.LeadsIdle x := by
  cases x with
  | deliver k crashAt =>
      intro d hd
      simp only [leadsIdle, hd, Option.all_some, decide_eq_true_eq] at h
      exact h
  | _ => trivial

/-- Server `0` is sending its snapshot, and counts `n` transfers. -/
def sendsCounting (n : ℤ) (c : Cluster) : Bool :=
  (c.nodes 0).up && decide ((c.nodes 0).transfers = 1) &&
    decide ((c.nodes 0).raft.nFollowersReceivingSnapshots = n)

set_option maxRecDepth 100000 in
theorem leadsAgain_runs : ((Cluster.init plainConfig).execWhile leadsIdle
    (sixtyWithFile ++ firstBlock)).any (fun c => sendsCounting 1 c &&
      (c.execAll leadsAgain).any (sendsCounting 0)) = true := by
  decide +kernel

/-- Server `0` counts the transfer it has begun. -/
theorem first_transfer_counted : ∃ m : Traffic,
    Machine.Steps Traffic.exec (Traffic.lifts Cluster.LeadsIdle) (Traffic.init plainConfig) m ∧
    (m.cluster.nodes 0).up = true ∧ (m.cluster.nodes 0).transfers = 1 ∧
    (m.cluster.nodes 0).raft.nFollowersReceivingSnapshots = (m.cluster.nodes 0).transfers ∧
    ((∃ t ∈ (m.cluster.nodes 0).leaderThreads, t.transfers = true) →
      ∀ n, createSnapshotEnter (m.cluster.nodes 0).raft n = none) := by
  obtain ⟨c, hc, htest⟩ := Machine.exists_of_execWhile Cluster.LeadsIdle leadsIdle_sound
    leadsAgain_runs
  simp only [sendsCounting, Bool.and_eq_true, decide_eq_true_eq] at htest
  obtain ⟨m, hrun, rfl⟩ := Traffic.lifts_steps hc (m := Traffic.init plainConfig) rfl
  exact ⟨m, hrun, htest.1.1.1, htest.1.1.2, Traffic.transfers_counted hrun htest.1.1.1⟩

/-- Elected again, server `0` counts none while its thread goes on. -/
theorem second_leadership_loses_count : ∃ c, Cluster.Reachable plainConfig c ∧
    (c.nodes 0).up = true ∧ (c.nodes 0).transfers = 1 ∧
    (c.nodes 0).raft.nFollowersReceivingSnapshots = 0 := by
  obtain ⟨c, hc, htest⟩ := Machine.exists_of_execWhile (fun _ _ => True) (fun _ _ _ => trivial)
    leadsAgain_runs
  rw [Bool.and_eq_true] at htest
  obtain ⟨c', hc', hlost⟩ := Machine.exists_of_execAll htest.2
  simp only [sendsCounting, Bool.and_eq_true, decide_eq_true_eq] at hlost
  exact ⟨c', hc.trans hc', hlost.1.1, hlost.1.2, hlost.2⟩

end LongRun

end RaftLock

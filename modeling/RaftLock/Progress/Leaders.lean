import RaftLock.Progress.Commits

/-!
A leader that stays.

As long as a server leads it has a thread for each other one. So what is put
into its log, it can bring to a majority that runs, and then tell them that it
is committed.
-/

namespace RaftLock

open CatchUp Outcome

/-! ### The threads of a leader -/

section Threads

variable {config : Config} {r r' : RaftState} {addr s : Server} {packet : Packet}
  {es : List Effect} {c c' : Cluster}

/-- A handler that makes its server the leader starts the threads. -/
theorem Handled.leads (h : Handled r addr packet r' es) (hlead : r'.state = .leader) :
    r.state = .leader ∨ (r.state = .candidate ∧ .spawnLeaderThreads (others r) ∈ es) := by
  cases h with
  | heartbeat | entryStored => exact absurd hlead (by simp [stored])
  | voteDecided q hterm hstate => exact Or.inr ⟨hstate, by simp⟩
  | installAnswered q hterm hstate | appendAnswered q hterm hstate
  | entryAnswered q hterm hstate | entryCounted q hterm hstate => exact Or.inl hstate
  | installChunk q hterm hi hd r' hr' =>
      subst hr'
      exact Or.inl hlead
  | _ => exact Or.inl hlead

theorem handlePacket_leads (hf : (handlePacket r addr packet).fault = false)
    (hlead : (handlePacket r addr packet).raft.state = .leader) : r.state = .leader ∨
      .spawnLeaderThreads (others r) ∈ (handlePacket r addr packet).effects := by
  rcases Int.lt_or_le r.currentTerm packet.term with hlt | hle
  · have hfollower : (arrived r packet).state = .follower := by
      rw [arrived_of_lt hlt]
      exact (convertToFollower_follows r _).state
    by_cases hq : ∃ q, packet = .response q
    · obtain ⟨q, rfl⟩ := hq
      rw [handleResponse_later hlt] at hlead
      exact absurd (hfollower.symm.trans hlead) (by decide)
    · push Not at hq
      rw [handlePacket_later hlt hq] at hf hlead
      rcases (handled (le_arrived r packet) hf).leads hlead with hstate | ⟨hstate, -⟩ <;>
        exact absurd (hfollower.symm.trans hstate) (by decide)
  · exact ((handled hle hf).leads hlead).imp_right And.right

/-- If server `s` leads, it has a thread for each other server. -/
def Staffed (c : Cluster) (s : Server) : Prop :=
  (c.nodes s).up = true → (c.nodes s).raft.state = .leader →
    ∀ f, f ≠ s → ⟨f, .idle⟩ ∈ (c.nodes s).leaderThreads

/-- A thread of the leader that is idle stays so. -/
theorem leaderStep_idle {files : FileSystem} {f : Server}
    (hf : (leaderStep r files ⟨f, .idle⟩).1.fault = false)
    (hlead : (leaderStep r files ⟨f, .idle⟩).1.raft.state = .leader)
    (hnext : r.startLogIndex ≤ r.nextIndex (r.config f)) :
    (leaderStep r files ⟨f, .idle⟩).2 = some .idle := by
  have hs := leaderStep_sends hf
  have hstate : r.state = .leader := hs.same.2.2.1.symm.trans hlead
  simp only [leaderStep]
  rw [if_neg (not_not_intro hstate), if_neg (not_lt.mpr hnext)]

theorem Staffed.step (h : Staffed c s) {x : Action} (hx : c.exec x = some c')
    (hothers : (c.nodes s).up = true → ∀ f, f ≠ s → f ∈ others (c.nodes s).raft)
    (hnext : (c.nodes s).up = true → (c.nodes s).raft.state = .leader →
      ∀ i, (c.nodes s).raft.startLogIndex ≤ (c.nodes s).raft.nextIndex i) : Staffed c' s := by
  intro hon hlead f hf
  have hturn := Cluster.exec_turn hx s
  generalize c'.nodes s = n' at hturn hon hlead ⊢
  cases hturn with
  | down _ _ hdown => exact absurd (hdown.symm.trans hon) (by simp)
  | idle _ _ _ hup _ hraft hleaders =>
      rw [hleaders]
      exact h hup (hraft ▸ hlead) f hf
  | elect _ _ _ hup _ hraft =>
      rw [hraft, attemptToElect_eq] at hlead
      exact absurd hlead (by simp [campaigner])
  | packet k d _ hup _ hd hs hok hraft hleaders =>
      rw [hraft] at hlead
      rw [hleaders]
      rcases handlePacket_leads hok hlead with hstate | hspawn
      · exact List.mem_append_left _ (h hup hstate f hf)
      · exact List.mem_append_right _ (mem_spawned hspawn (hothers hup f hf))
  | append e _ hup _ hok hraft hleaders =>
      rw [hleaders]
      refine h hup ?_ f hf
      rw [hraft] at hlead
      rcases appendEntry_ok hok with heq | ⟨r', -, hstate, -⟩
      · rwa [heq] at hlead
      · exact hstate
  | sender k t _ hup _ ht hok hraft hleaders =>
      rw [hraft] at hlead
      have hstate : (c.nodes s).raft.state = .leader :=
        (leaderStep_sends hok).same.2.2.1.symm.trans hlead
      rw [hleaders]
      refine List.mem_replaceAt_of_mem ht (h hup hstate f hf) ?_
      rintro rfl
      rw [leaderStep_idle hok hlead (hnext hup hstate _)]
      rfl
  | snapshot k pc _ hup _ hpc hok hraft hleaders =>
      rw [hleaders]
      rw [hraft, (snapshotStep_role hok).1] at hlead
      exact h hup hlead f hf
  | restart st _ hdown _ hst hraft =>
      rw [hraft] at hlead
      exact absurd hlead (by simp [forget])

end Threads

/-! ### What a run says -/

section Leaders

variable {config : Config} {M : Finset Server} {c : Cluster} {s q : Server} {r : RaftState}
  {e : LogEntry}

theorem staffed (hinj : Function.Injective config) (hvalid : ∀ v, config v ≠ -1)
    (hrun : Cluster.Run config confirmed.allows c) (s : Server) : Staffed c s := by
  induction hrun with
  | refl => exact fun _ hlead => absurd hlead (by simp [Cluster.init, Node.init, serverInit])
  | tail hprefix hstep ih =>
      obtain ⟨x, -, hx⟩ := hstep
      obtain ⟨w, p, C, -, -, hrange, hids, hraft⟩ := confirmed_view hinj hvalid hprefix
      refine ih.step hx (fun hup f hf => hraft s hup ▸ mem_others_of_ne hinj hids hf)
        fun hup hlead i => ?_
      rw [← hraft s hup] at hlead ⊢
      rw [hrange.start s]
      exact (hrange.next s hlead i).1

/-- The leader's log with a client's entry behind it. -/
def pushed (r : RaftState) (e : LogEntry) : RaftState :=
  { r with
    logCount := r.logCount + 1
    log := Function.update r.log (r.logCount - r.startLogIndex).toNat
      { e with term := r.currentTerm, nServersReplicated := 1, type := .clientLog } }

theorem appendEntry_pushes (hlead : r.state = .leader) (hlo : r.startLogIndex ≤ r.logCount)
    (hroom : r.logCount - r.startLogIndex < (logSize : ℤ)) :
    appendEntry r e = saveState (pushed r e) := by
  have hstores : ¬ (r.state ≠ .leader ∨ r.logCount = r.startLogIndex + (logSize : ℤ)) := by
    rintro (hnot | hfull)
    · exact hnot hlead
    · omega
  have hslot : ¬ (r.logCount < r.startLogIndex ∨ r.logCount ≥ r.logCount + 1 ∨
      r.logCount - r.startLogIndex ≥ (logSize : ℤ)) := by
    omega
  simp only [appendEntry, modifyLog, add_sub_cancel_right]
  rw [if_neg hstores, if_neg hslot]
  rfl

/-- The client's entry is the last one. -/
theorem getLog_pushed (hlo : r.startLogIndex ≤ r.logCount) :
    getLog (pushed r e) ((pushed r e).logCount - 1) =
      some { e with term := r.currentTerm, nServersReplicated := 1, type := .clientLog } := by
  have hindex : (pushed r e).logCount - 1 = r.logCount := add_sub_cancel_right _ _
  have hmem := getLog_of_mem (r := pushed r e) (i := r.logCount) hlo (Int.lt_succ _)
  rw [hindex, hmem]
  exact congrArg some (Function.update_self _ _ _)

/-- What a leader that has just stored an entry has to bring to the others. -/
theorem leading_pushed (hinj : Function.Injective config) (hvalid : ∀ v, config v ≠ -1)
    (hrun : Cluster.Run config confirmed.allows c) (hup : (c.nodes s).up = true)
    (hfit : Fitted r) (hlead : r.state = .leader) (hroom : r.logCount < (logSize : ℤ))
    (hraft : (c.nodes s).raft = pushed r e) :
    Leading (c.nodes s).raft s r.currentTerm c ∧ Backed 1 (c.nodes s).raft := by
  have hstart := hfit.start
  have hge := hfit.commit_ge
  have hlt := hfit.commit_lt
  have hcount : (c.nodes s).raft.logCount = r.logCount + 1 := by
    rw [hraft]
    rfl
  have hcommit : (c.nodes s).raft.commitIndex = r.commitIndex := by
    rw [hraft]
    rfl
  have hlead' : (c.nodes s).raft.state = .leader := by
    rw [hraft]
    exact hlead
  have hlast : getLog (c.nodes s).raft ((c.nodes s).raft.logCount - 1) =
      some { e with term := r.currentTerm, nServersReplicated := 1, type := .clientLog } := by
    rw [hraft]
    exact getLog_pushed (by omega)
  obtain ⟨w, p, C, -, -, -, hids, hview⟩ := confirmed_view hinj hvalid hrun
  refine ⟨⟨hup, hlead', ?_, ?_, ⟨?_, ?_, ?_, ⟨rfl, fun _ => rfl⟩⟩, ?_,
    staffed hinj hvalid hrun s hup hlead'⟩, Or.inr ⟨?_, ?_, by decide⟩⟩
  · rw [hraft]
    rfl
  · rw [← hview s hup, (hids.ids s).1]
    exact hinj
  · rw [hraft]
    exact hstart
  · omega
  · omega
  · rw [getLogTerm_eq, hlast]
    rfl
  · omega
  · obtain ⟨-, -, hslot⟩ := getLog_some hlast
    rw [← hslot]

/-- A server that runs, and is not ahead, waits for the entry. -/
theorem awaits_pushed (hinj : Function.Injective config) (hvalid : ∀ v, config v ≠ -1)
    (hrun : Cluster.Run config confirmed.allows c) (hq : q ∈ M) (hne : q ≠ s)
    (hup : (c.nodes q).up = true) (hcount : (c.nodes q).raft.logCount ≤ (logSize : ℤ))
    (hterm : (c.nodes q).raft.currentTerm ≤ (c.nodes s).raft.currentTerm) {t : ℤ}
    (hleads : Leading (c.nodes s).raft s t c)
    (hbehind : ∀ i, (c.nodes s).raft.nextIndex i < (c.nodes s).raft.logCount) :
    Awaits M (c.nodes s).raft s q c := by
  obtain ⟨w, p, C, hagree, hun, hrange, hids, hview⟩ := confirmed_view hinj hvalid hrun
  have hqview := hview q hup
  have hsview := hview s hleads.up
  have hfit : Fitted (c.nodes q).raft := hqview ▸ hagree.fitted hun q
  have hmatching := hagree.sim.matching hun s q
  rw [hsview, hqview] at hmatching
  have hid : (c.nodes s).raft.config q = (c.nodes q).raft.id := by
    rw [← hsview, ← hqview, (hids.ids s).1, (hids.ids q).2]
  have hnext : 0 ≤ (c.peers s q).next := by
    have hrange' := (hrange.next s (by rw [hsview]; exact hleads.state) (c.nodes q).raft.id).1
    rwa [hsview] at hrange'
  have hge := hfit.commit_ge
  have hlt := hfit.commit_lt
  have hlog := hleads.log
  refine ⟨⟨hq, hne, hup, ⟨⟨hid, ⟨hlog.start, hfit.start⟩, hlog.count, ⟨?_, hcount⟩, hterm,
    hlog.commit, hge, ⟨hnext, (hbehind _).le⟩⟩, hlog.log, Or.inl hmatching⟩⟩,
    fun _ => (hbehind _).ne⟩
  show 0 ≤ (c.nodes q).raft.logCount
  omega

theorem Agreed.start {L : RaftState} {t : ℤ} (h : Agreed M L s t c) (hq : q ∈ M) :
    (c.nodes q).raft.startLogIndex = 0 := by
  rcases eq_or_ne q s with rfl | hne
  · exact h.leading.log.start
  · exact (h.rest q hq hne).1.member.catching.connected.start.2

/-- An entry with the same core is of the same term and has the same id. -/
theorem exists_of_core {i : ℤ} (h : (getLog r i).map LogEntry.core = some e.core) :
    ∃ e', getLog r i = some e' ∧ e'.term = e.term ∧ e'.id = e.id := by
  obtain ⟨e', he', hcore⟩ := Option.map_eq_some_iff.mp h
  have hterm : e'.core.term = e.core.term := by rw [hcore]
  have hid : e'.core.id = e.core.id := by rw [hcore]
  exact ⟨e', he', hterm, hid⟩

/-- Where the leader's last entry is committed, its tag is. -/
theorem Agreed.confirms {L : RaftState} {t : ℤ} (h : Agreed M L s t c) (hq : q ∈ M)
    (hlast : getLog L (L.logCount - 1) = some e) (hterms : ∀ i, getLogTerm L i ≤ e.term) :
    isEntryCommitted (c.nodes q).raft e.term e.id = 1 := by
  obtain ⟨-, hknows, hagree⟩ := h.knows hq
  have hstart := h.start hq
  have hzero : 0 ≤ L.logCount - 1 := by
    have hleader := h.leading.log.log.core (L.logCount - 1)
    rw [hlast, Option.map_some] at hleader
    obtain ⟨x, hx, -⟩ := exists_of_core hleader
    rw [← h.leading.log.start]
    exact (getLog_some hx).1
  have hcore := hagree (L.logCount - 1) hzero (by omega)
  rw [hlast, Option.map_some] at hcore
  obtain ⟨e', he', hterm, hid⟩ := exists_of_core hcore
  have htagged : e'.Decisive e.term e.id := Or.inl ⟨hterm, hid⟩
  rcases isEntryCommitted_cases (c.nodes q).raft e.term e.id with ⟨i, x, hd, heq⟩ | ⟨hnone, -⟩
  · have hi := hd.le he' htagged
    have hcommitted : (c.nodes q).raft.commitIndex ≥ i := hi.trans hknows
    have hx : x.Tagged e.term e.id := by
      refine hd.decisive.resolve_right fun hlater => ?_
      -- an entry of a later term would be one of the leader's
      have hlow := (getLog_some hd.entry).1
      have hleader := hagree i (by omega) (by omega)
      rw [hd.entry, Option.map_some] at hleader
      obtain ⟨y, hy, hyterm, -⟩ := exists_of_core hleader.symm
      have hle := hterms i
      rw [getLogTerm_eq, hy] at hle
      simp only [Option.map_some, Option.elim_some, LogEntry.core_term] at hle
      omega
    rw [heq, verdictOn, if_pos hcommitted, if_pos hx]
  · exact absurd htagged (hnone _ e' he')

end Leaders

/-- **A leader can commit**: in every run without snapshots in which answers are
taken for what they are, when a server leads, the servers of a majority with it
run and none of them is in a later term, then an entry that a client hands to it
can be committed by steps of these servers alone. Every one of them comes to
know that it is, and the server still leads its term. -/
theorem leader_can_commit {config : Config} (hinj : Function.Injective config)
    (hvalid : ∀ v, config v ≠ -1) {c c₁ : Cluster} (hrun : Cluster.Run config confirmed.allows c)
    {M : Finset Server} (hM : nServers < M.card * 2) {s : Server} (hs : s ∈ M)
    (hlead : (c.nodes s).raft.state = .leader)
    (hroom : (c.nodes s).raft.logCount < (logSize : ℤ))
    (hready : ∀ q ∈ M, (c.nodes q).up = true ∧ (c.nodes q).raft.logCount ≤ (logSize : ℤ) ∧
      (c.nodes q).raft.currentTerm ≤ (c.nodes s).raft.currentTerm)
    {e : LogEntry} (hx : c.exec (.append s e none) = some c₁) :
    ∃ c', Cluster.Steps (Within M) c₁ c' ∧ (c'.nodes s).raft.state = .leader ∧
      (c'.nodes s).raft.currentTerm = (c.nodes s).raft.currentTerm ∧
      ∀ q ∈ M, (c'.nodes q).up = true ∧
        (c.nodes s).raft.logCount ≤ (c'.nodes q).raft.commitIndex ∧
        (getLog (c'.nodes q).raft (c.nodes s).raft.logCount).map LogEntry.core =
          some ({ e with
            term := (c.nodes s).raft.currentTerm, nServersReplicated := 1, type := .clientLog } :
            LogEntry).core ∧
        isEntryCommitted (c'.nodes q).raft (c.nodes s).raft.currentTerm e.id = 1 := by
  have hup := (hready s hs).1
  obtain ⟨w, p, C, hagree, hun, hrange, -, hview⟩ := confirmed_view hinj hvalid hrun
  have hfit : Fitted (c.nodes s).raft := hview s hup ▸ hagree.fitted hun s
  have hstart := hfit.start
  have hcount := hfit.commit_ge.trans_lt hfit.commit_lt
  have hpushes : appendEntry (c.nodes s).raft e = saveState (pushed (c.nodes s).raft e) :=
    appendEntry_pushes hlead (by omega) (by omega)
  have hran : c.Ran s (saveState (pushed (c.nodes s).raft e)) none c₁ := by
    simp only [Cluster.exec, hup, if_true, Option.some.injEq, hpushes] at hx
    rw [← hx]
    exact Cluster.ran_settle rfl (fun d hd _ => hd) hup rfl rfl
  have hrun₁ : Cluster.Run config confirmed.allows c₁ :=
    hrun.tail ⟨.append s e none, trivial, hx⟩
  have hraft : (c₁.nodes s).raft = pushed (c.nodes s).raft e := hran.raft
  obtain ⟨hleads, hbacked⟩ := leading_pushed hinj hvalid hrun₁ hran.up hfit hlead hroom hraft
  have hlast : getLog (c₁.nodes s).raft ((c₁.nodes s).raft.logCount - 1) = some { e with
      term := (c.nodes s).raft.currentTerm, nServersReplicated := 1, type := .clientLog } := by
    rw [hraft]
    exact getLog_pushed (by omega)
  have hcount₁ : (c₁.nodes s).raft.logCount = (c.nodes s).raft.logCount + 1 := by
    rw [hraft]
    rfl
  have hterm₁ : (c₁.nodes s).raft.currentTerm = (c.nodes s).raft.currentTerm := by
    rw [hraft]
    rfl
  obtain ⟨w₁, p₁, C₁, hagree₁, hun₁, -, -, hview₁⟩ := confirmed_view hinj hvalid hrun₁
  have hterms : ∀ i, getLogTerm (c₁.nodes s).raft i ≤ (c.nodes s).raft.currentTerm := by
    have hfit₁ : Fitted (c₁.nodes s).raft := hview₁ s hran.up ▸ hagree₁.fitted hun₁ s
    exact fun i => hterm₁ ▸ hfit₁.terms i
  have hbehind : ∀ i, (c₁.nodes s).raft.nextIndex i < (c₁.nodes s).raft.logCount := by
    intro i
    have hnext := (hrange.next s (by rw [hview s hup]; exact hlead) i).2
    rw [hview s hup] at hnext
    rw [hraft]
    exact Int.lt_add_one_of_le hnext
  have hawaits : ∀ q ∈ M, q ≠ s → Awaits M (c₁.nodes s).raft s q c₁ := by
    intro q hq hne
    obtain ⟨hon, hfits, hle⟩ := hready q hq
    have hnode : c₁.nodes q = c.nodes q := hran.other q hne
    rw [← hnode] at hon hfits
    refine awaits_pushed hinj hvalid hrun₁ hq hne hon hfits ?_ hleads hbehind
    rwa [hnode, hterm₁]
  obtain ⟨c', hsteps, h⟩ := hleads.agrees hs hM (by omega) hawaits hbacked
  refine ⟨c', hsteps, h.leading.state, h.leading.term, fun q hq => ?_⟩
  obtain ⟨hon, hknows, hsame⟩ := h.knows hq
  refine ⟨hon, by omega, ?_, h.confirms hq hlast hterms⟩
  have hindex : (c.nodes s).raft.logCount = (c₁.nodes s).raft.logCount - 1 := by omega
  rw [hindex, hsame _ (by omega) (by omega), hlast]
  rfl

theorem firstElection_confirmed : ((Cluster.init plainConfig).execWhile
    (fun c x => decide (confirmed.allows c x)) firstElection).any
    (fun c => decide (((c.nodes 0).raft.state = .leader ∧
      (c.nodes 0).raft.logCount < (logSize : ℤ) ∧ ∀ q ∈ ({0, 1, 2} : Finset Server),
        (c.nodes q).up = true ∧ (c.nodes q).raft.logCount ≤ (logSize : ℤ) ∧
        (c.nodes q).raft.currentTerm ≤ (c.nodes 0).raft.currentTerm) ∧
      (c.exec (.append 0 { emptyEntry with id := 5 } none)).isSome = true)) = true := by
  decide +kernel

theorem first_leader_can_commit : ∃ c c₁, Cluster.Run plainConfig confirmed.allows c ∧
    c.exec (.append 0 { emptyEntry with id := 5 } none) = some c₁ ∧
    ∃ c', Cluster.Steps (Within {0, 1, 2}) c₁ c' ∧ (c'.nodes 0).raft.state = .leader ∧
      (c'.nodes 0).raft.currentTerm = (c.nodes 0).raft.currentTerm ∧
      isEntryCommitted (c'.nodes 2).raft (c.nodes 0).raft.currentTerm 5 = 1 := by
  obtain ⟨c, hrun, hready⟩ := Machine.exists_of_execWhile confirmed.allows
    (fun _ _ h => of_decide_eq_true h) firstElection_confirmed
  obtain ⟨⟨hlead, hroom, hready⟩, hsome⟩ := of_decide_eq_true hready
  obtain ⟨c₁, hx⟩ := Option.isSome_iff_exists.mp hsome
  obtain ⟨c', hsteps, hstate, hterm, hall⟩ :=
    leader_can_commit (by decide) (by decide) hrun (M := {0, 1, 2})
    (by decide) (by decide) hlead hroom hready hx
  exact ⟨c, c₁, hrun, hx, c', hsteps, hstate, hterm, (hall 2 (by decide)).2.2.2⟩

end RaftLock

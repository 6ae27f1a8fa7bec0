import RaftLock.Safety.Windows

/-!
The size of the log window.

`Raft_append_entry` refuses a client's entry when the window is full. The
leader's own entry and an entry from another leader are written without that
test, and nothing keeps a compaction from starting the window after its end.
With the missing tests as conditions on the steps, the window is never empty
by less than nothing and never longer than the array.
-/

namespace RaftLock

open Outcome

/-- The window lies in the log array. -/
def Fits (r : RaftState) : Prop :=
  0 ≤ r.logCount - r.startLogIndex ∧ r.logCount - r.startLogIndex ≤ (logSize : ℤ)

/-- An election that is won and an entry that is accepted at the end of the
log find a free slot, and no entry is accepted before the window. -/
def HasRoom (r : RaftState) (d : Datagram) : Prop :=
  match d.packet with
  | .response q => r.state = .candidate → q.term = r.currentTerm → 0 < q.success →
      (r.nvoted + 1) * 2 > (nServers : ℤ) → r.logCount - r.startLogIndex < (logSize : ℤ)
  | .append q => consistent r q → q.entriesN ≠ 0 → r.startLogIndex ≤ q.prevLogIndex + 1 ∧
      (q.prevLogIndex + 1 = r.logCount → r.logCount - r.startLogIndex < (logSize : ℤ))
  | _ => True

/-- Runs in which entries find room and a compaction ends in the window. -/
abbrev roomy : Guard where
  packet _ r d := HasRoom r d
  sender _ _ := True
  shift r n := r.startLogIndex ≤ n ∧ n ≤ r.logCount

section Fits

variable {r r' : RaftState} {w w' : World}

theorem Fits.of_window (h : Fits r) (hstart : r'.startLogIndex = r.startLogIndex)
    (hcount : r'.logCount = r.logCount) : Fits r' := by
  unfold Fits
  rw [hstart, hcount]
  exact h

theorem fits_arrived (h : Fits r) (packet : Packet) : Fits (arrived r packet) :=
  h.of_window (arrived_startLogIndex r packet) (arrived_logCount r packet)

/-- The log after an entry has been written. -/
theorem fits_stored {q : AppendRequest} (h : Fits r) (hc : consistent r q)
    (hlo : r.startLogIndex ≤ q.prevLogIndex + 1)
    (hroom : q.prevLogIndex + 1 = r.logCount → r.logCount - r.startLogIndex < (logSize : ℤ)) :
    0 ≤ storedCount r q - r.startLogIndex ∧
      storedCount r q - r.startLogIndex ≤ (logSize : ℤ) := by
  have hprev : q.prevLogIndex < r.logCount := by
    by_contra hge
    exact hc (Or.inr (Or.inl (not_lt.mp hge)))
  unfold Fits at h
  unfold storedCount
  split_ifs <;> omega

/-- What both parts of a handler keep, the handler keeps, whether or not it
runs to its end. -/
theorem andThen_keeps {P : RaftState → Prop} {o : Outcome} {f : RaftState → Outcome}
    (ho : P o.raft) (hf : ∀ r, P r → P (f r).raft) : P (o.andThen f).raft := by
  unfold Outcome.andThen
  split
  · exact ho
  · exact hf _ ho

theorem fits_commitUpdate (h : Fits r) (n : ℤ) : Fits (commitUpdate r n).raft :=
  h.of_window (commitUpdate_window r n).1 (commitUpdate_window r n).2

theorem fits_append {d : Datagram} {q : AppendRequest} (h : Fits r) (hq : d.packet = .append q)
    (hroom : HasRoom (arrived r d.packet) d) (addr : Server) :
    Fits (handlePacket r addr (.append q)).raft := by
  by_cases hs : Stores r q
  · obtain ⟨hstart, hcount⟩ := stores_window hs addr
    simp only [HasRoom, hq] at hroom
    obtain ⟨hlo, hend⟩ := hroom hs.1 hs.2
    have := fits_stored (fits_arrived h (.append q)) hs.1 hlo hend
    unfold Fits
    rwa [hstart, hcount, ← arrived_startLogIndex r (.append q)]
  · have hle : ¬ (arrived r (.append q)).currentTerm < q.term :=
      not_lt.mpr (le_arrived r (.append q))
    have hr := fits_arrived h (.append q)
    rw [(handlePacket_raft r (.append q) addr (by simp)).1]
    simp only [handlePacket, handleAppendRequest, if_neg hle, andThen_ret]
    by_cases hc : consistent (arrived r (.append q)) q
    · have hn : q.entriesN = 0 := by
        by_contra hn
        exact hs ⟨hc, hn⟩
      rw [if_neg (not_not_intro hc), if_pos hn]
      refine andThen_keeps (P := Fits) ?_ fun _ hr => andThen_keeps hr fun _ hr => hr
      split
      · exact fits_commitUpdate (r := { arrived r (.append q) with state := .follower }) hr _
      · exact hr
    · rw [if_pos hc]
      exact andThen_keeps (P := Fits) hr fun _ hr => hr

theorem modifyLog_window {i : ℤ} {f : LogEntry → LogEntry} (hm : modifyLog r i f = some r') :
    r'.startLogIndex = r.startLogIndex ∧ r'.logCount = r.logCount := by
  obtain ⟨-, -, -, rfl⟩ := modifyLog_some hm
  exact ⟨rfl, rfl⟩

/-- The leader's own entry. -/
theorem fits_convertToLeader (h : Fits r)
    (hroom : r.logCount - r.startLogIndex < (logSize : ℤ)) : Fits (convertToLeader r).raft := by
  have hone : 0 ≤ r.logCount + 1 - r.startLogIndex ∧
      r.logCount + 1 - r.startLogIndex ≤ (logSize : ℤ) := ⟨by have := h.1; omega, by omega⟩
  unfold convertToLeader
  simp only
  split
  · exact hone
  · rename_i r' hm
    obtain ⟨hstart, hcount⟩ := modifyLog_window hm
    refine andThen_keeps (P := Fits) ?_ fun _ hr => hr
    simp only [saveState, emit, Fits, hstart, hcount]
    exact hone

theorem fits_countReplica (h : Fits r) (i : ℤ) : Fits (countReplica r i).raft := by
  unfold countReplica
  split
  · split
    · exact h
    · rename_i r' hm
      have hr' := h.of_window (modifyLog_window hm).1 (modifyLog_window hm).2
      split
      · exact fits_commitUpdate hr' i
      · exact hr'
  · exact h

theorem fits_handleAppendResponse (h : Fits r) (q : Response) :
    Fits (handleAppendResponse r q).raft := by
  unfold handleAppendResponse
  refine andThen_keeps (P := Fits) ?_ fun _ hr => hr
  split_ifs
  · exact h
  · exact andThen_keeps (fits_countReplica h _) fun _ hr => hr
  · exact h

theorem fits_response {d : Datagram} {q : Response} (h : Fits r) (hq : d.packet = .response q)
    (hroom : HasRoom (arrived r d.packet) d) (addr : Server) :
    Fits (handlePacket r addr (.response q)).raft := by
  rcases lt_trichotomy r.currentTerm q.term with hlt | heq | hgt
  · rw [handleResponse_later hlt]
    exact fits_arrived h _
  · rw [arrived_of_le (by rw [hq]; exact heq.ge)] at hroom
    simp only [HasRoom, hq] at hroom
    simp only [handlePacket, handleResponse_eq heq.symm]
    have hr : Fits (noted r q) := h
    cases hstate : (noted r q).state with
    | candidate =>
        simp only [handleVoteResponse]
        split_ifs with hs hblock hmany
        · exact hr
        · exact hr
        · exact fits_convertToLeader (r := { noted r q with nvoted := (noted r q).nvoted + 1 }) hr
            (hroom hstate heq.symm (by omega) hmany)
        · exact hr
    | leader =>
        simp only
        split_ifs
        · exact hr
        · exact fits_handleAppendResponse hr q
        · exact hr
    | follower => exact hr
  · simp only [handlePacket, handleResponse, if_pos hgt]
    exact h

theorem Handled.fits_vote {addr : Server} {q : VoteRequest} {es : List Effect}
    (hh : Handled r addr (.vote q) r' es) (h : Fits r) : Fits r' := by
  cases hh with
  | voteRefused => exact h
  | voteGranted => exact h

theorem Handled.fits_install {addr : Server} {q : InstallRequest} {es : List Effect}
    (hh : Handled r addr (.installSnapshot q) r' es) (h : Fits r) : Fits r' := by
  cases hh with
  | installRefused => exact h
  | installChunk _ _ _ _ _ hr' =>
      subst hr'
      exact h
  | installDone =>
      unfold Fits RaftLock.installDone
      simp

theorem fits_handlePacket {d : Datagram} (h : Fits r) (hroom : HasRoom (arrived r d.packet) d) :
    Fits (handlePacket r d.src d.packet).raft := by
  obtain ⟨pk, hp⟩ : ∃ pk, d.packet = pk := ⟨_, rfl⟩
  cases pk with
  | append q =>
      have := fits_append h hp hroom d.src
      rwa [hp]
  | response q =>
      have := fits_response h hp hroom d.src
      rwa [hp]
  | vote q =>
      rw [hp, (handlePacket_raft r (.vote q) d.src (by simp)).1]
      have hle := le_arrived r (.vote q)
      exact (handled hle (handleVoteRequest_fault hle)).fits_vote (fits_arrived h _)
  | installSnapshot q =>
      rw [hp, (handlePacket_raft r (.installSnapshot q) d.src (by simp)).1]
      exact (handled (le_arrived r (.installSnapshot q)) (install_fault _ d.src q)).fits_install
        (fits_arrived h _)

theorem fits_appendEntry (h : Fits r) (e : LogEntry) : Fits (appendEntry r e).raft := by
  unfold appendEntry
  split_ifs with hno
  · exact h
  · push Not at hno
    have hone : 0 ≤ r.logCount + 1 - r.startLogIndex ∧
        r.logCount + 1 - r.startLogIndex ≤ (logSize : ℤ) := by
      unfold Fits at h
      omega
    simp only
    split
    · exact hone
    · rename_i r' hm
      obtain ⟨hstart, hcount⟩ := modifyLog_window hm
      simp only [saveState, emit, Fits, hstart, hcount]
      exact hone

theorem fits_shift (h : Fits r) {n : ℤ} (hn : roomy.shift r n) :
    Fits (createSnapshotShift r n).raft := by
  unfold createSnapshotShift
  simp only
  split_ifs
  · exact h
  · obtain ⟨hlo, hhi⟩ := hn
    unfold Fits at h
    simp only [saveState, emit, Fits]
    omega

/-! ### Whole runs -/

theorem fits_update (h : ∀ s, Fits (w.raft s)) {s : Server} (hr' : Fits r') (v : Server) :
    Fits (Function.update w.raft s r' v) := by
  rw [Function.update_apply]
  split
  · exact hr'
  · exact h v

theorem Handled.fits {d : Datagram} {es : List Effect} (hh : Handled r d.src d.packet r' es)
    (h : Fits r) (hroom : HasRoom r d) : Fits r' := by
  obtain ⟨pk, hp⟩ : ∃ pk, d.packet = pk := ⟨_, rfl⟩
  rw [hp] at hh
  cases hh with
  | entryStored q hterm hc hn =>
      simp only [HasRoom, hp] at hroom
      obtain ⟨hlo, hend⟩ := hroom hc hn
      exact fits_stored h hc hlo hend
  | voteDecided q hterm hstate hs hmany hlo hfree r' hr' =>
      subst hr'
      unfold Fits at h ⊢
      simp only [elected, noted]
      omega
  | installDone =>
      unfold Fits RaftLock.installDone
      simp
  | installChunk _ _ _ _ r' hr' =>
      subst hr'
      exact h
  | installAnswered _ _ _ _ _ r' hr' =>
      subst hr'
      exact h
  | appendAnswered _ _ _ _ _ _ _ r' hr' =>
      subst hr'
      exact h
  | entryAnswered _ _ _ _ _ _ _ _ r' hr' =>
      subst hr'
      exact h
  | entryCounted _ _ _ _ _ _ _ _ _ _ _ _ _ r' hr' =>
      subst hr'
      exact h
  | _ => exact h

theorem fits_step (h : ∀ s, Fits (w.raft s)) {v : Option (Server × ℤ × Server)}
    (hstep : World.Step roomy w v w') : ∀ s, Fits (w'.raft s) := by
  cases hstep with
  | stepDown s t ht =>
      have hf := convertToFollower_follows (w.raft s) t
      exact fits_update h ((h s).of_window hf.startLogIndex hf.logCount)
  | campaign s => exact fits_update h (h s)
  | handle a b d r' es hnet hle hpass hh => exact fits_update h (hh.fits (h d.dst) hpass)
  | turns d l hd hpass hl => exact fits_update h (h d.dst)
  | lose net hsub => exact h
  | append s e hf => exact fits_update h (fits_appendEntry (h s) e)
  | sender s a b t r' es pc ht hpass hs =>
      have hagree := hs.late.1
      exact fits_update h ((h s).of_window hagree.startLogIndex hagree.logCount)
  | enter s n r' he =>
      obtain ⟨-, rfl⟩ := createSnapshotEnter_some he
      exact fits_update h (h s)
  | shift s n hn hpass hf => exact fits_update h (fits_shift (h s) hpass)
  | crash s st hst =>
      exact fits_update h ((h s).of_window hst.startLogIndex hst.logCount)
  | replay s l hl => exact h

theorem fits_path {config : Config} (hpath : World.Path roomy (World.init config) w) :
    ∀ s, Fits (w.raft s) := by
  induction hpath with
  | refl => exact fun s => ⟨le_rfl, by simp [World.init, serverInit]⟩
  | tail _ hstep ih =>
      obtain ⟨v, hstep⟩ := hstep
      exact fits_step ih hstep

end Fits

/-- In every state a server goes through, the window lies in the log array, so
that every slot `Raft_get_log` returns does: at rest, after each handler that
its packet lets run, after a client's entry and after a compaction, also where
the process ends in it. -/
theorem log_fits_array {config : Config} {c : Cluster} (hrun : Cluster.Run config roomy.allows c)
    (s : Server) :
    Fits (c.nodes s).view ∧
    (∀ i e, getLog (c.nodes s).view i = some e →
      (i - (c.nodes s).view.startLogIndex).toNat < logSize) ∧
    (∀ d ∈ c.net, roomy.packet c.commits (arrived (c.nodes s).view d.packet) d →
      Fits (handlePacket (c.nodes s).view d.src d.packet).raft) ∧
    (∀ e, Fits (appendEntry (c.nodes s).view e).raft) ∧
    ∀ n, roomy.shift (c.nodes s).view n → Fits (createSnapshotShift (c.nodes s).view n).raft := by
  obtain ⟨w, hpath, href⟩ := (refines_init config).steps hrun
  have h := fits_path hpath s
  rw [(href.node s).view] at h
  refine ⟨h, fun i e he => ?_, fun d _ hroom => fits_handlePacket h hroom,
    fun e => fits_appendEntry h e, fun n hn => fits_shift h hn⟩
  obtain ⟨hlo, hhi, -⟩ := getLog_some he
  have := h.2
  have hpos : 0 < logSize := by decide
  omega

instance (r : RaftState) : (d : Datagram) → Decidable (HasRoom r d)
  | ⟨_, _, .response _, _⟩ | ⟨_, _, .append _, _⟩ => inferInstanceAs (Decidable (_ → _))
  | ⟨_, _, .vote _, _⟩ | ⟨_, _, .installSnapshot _, _⟩ => .isTrue trivial

set_option maxRecDepth 10000 in
theorem firstEntries_roomy : ((Cluster.init plainConfig).execWhile
    (fun c x => decide (roomy.allows c x)) firstEntries).any (fun c => committedTo c 0 1) =
      true := by
  decide +kernel

theorem first_entries_fit : ∃ c, Cluster.Run plainConfig roomy.allows c ∧
    committedTo c 0 1 = true ∧ ∀ s, Fits (c.nodes s).view := by
  obtain ⟨c, hrun, hto⟩ := Machine.exists_of_execWhile roomy.allows
    (fun _ _ h => of_decide_eq_true h) firstEntries_roomy
  exact ⟨c, hrun, hto, fun s => (log_fits_array hrun s).1⟩

/-- Server `0` fills its log, gives way to a later term and is elected once
more. -/
def fullElection : List Action :=
  firstElection ++ List.replicate 99 (Action.append 0 emptyEntry none) ++
    [Action.timeout 4, .elect 4 none, .drop 0, .drop 0, .drop 0, .drop 0, .retry 4 none,
      .deliver 0 none, .drop 0, .drop 0, .drop 0, .drop 0, .timeout 0, .elect 0 none,
      .deliver 0 none, .deliver 0 none, .drop 0, .drop 0, .deliver 0 none]

/-- A datagram whose handler makes the window longer than the array. -/
def overfills (r : RaftState) (d : Datagram) : Bool :=
  decide ((logSize : ℤ) < (handlePacket r d.src d.packet).raft.logCount -
    (handlePacket r d.src d.packet).raft.startLogIndex)

set_option maxRecDepth 10000 in
theorem fullElection_runs : ((Cluster.init plainConfig).execAll fullElection).any
    (fun c => inFlight c overfills) = true := by
  decide +kernel

/-- The leader's own entry is written outside the array. -/
theorem log_overfilled : ∃ c d, Cluster.Reachable plainConfig c ∧ d ∈ c.net ∧
    (c.nodes d.dst).up = true ∧ ¬ Fits (handlePacket (c.nodes d.dst).raft d.src d.packet).raft := by
  obtain ⟨c, hc, hflight⟩ := Machine.exists_of_execAll fullElection_runs
  obtain ⟨k, d, hd, hup, htest⟩ := exists_of_inFlight hflight
  refine ⟨c, d, hc, List.mem_of_getElem? hd, hup, fun hfits => ?_⟩
  exact absurd hfits.2 (not_le.mpr (of_decide_eq_true htest))

end RaftLock

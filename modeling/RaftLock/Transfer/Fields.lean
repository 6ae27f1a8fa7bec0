import RaftLock.Raft.Threads
import RaftLock.Recovery.Snapshots
import RaftLock.Safety.Durable

/-!
What the sections of a server do to the fields of a snapshot transfer.

These are the flag `snapshot_in_progress`, the two fields of the installation
that is under way, and the start of the log. Of the handlers only those of
InstallSnapshot requests write them, and a packet of a later term ends an
installation. Ids of snapshots are starts of logs, so they are not negative.
-/

namespace RaftLock

open Outcome

/-- The fields of a transfer stay as they are. -/
structure SameTransfer (r r' : RaftState) : Prop where
  flag : r'.snapshotInProgress = r.snapshotInProgress
  id : r'.installSnapshotId = r.installSnapshotId
  index : r'.installSnapshotIndex = r.installSnapshotIndex
  start : r'.startLogIndex = r.startLogIndex

theorem SameTransfer.refl (r : RaftState) : SameTransfer r r := ⟨rfl, rfl, rfl, rfl⟩

section Sections

variable {r r' : RaftState} {addr : Server} {packet : Packet} {es : List Effect}

/-- What a handler does to the fields of a transfer. -/
inductive Transfers (r : RaftState) : Packet → RaftState → Prop
  | keeps (packet : Packet) (r' : RaftState) (hkeeps : SameTransfer r r')
      (hrefused : ∀ q, packet = .installSnapshot q → ¬ installable r q) : Transfers r packet r'
  | chunk (q : InstallRequest) (hi : installable r q) (hd : q.done = false) (r' : RaftState)
      (hr' : r' = { r with
        snapshotInProgress := true
        installSnapshotId := q.snapshotId
        installSnapshotIndex := r.installSnapshotIndex + 1 }) :
      Transfers r (.installSnapshot q) r'
  | done (q : InstallRequest) (hi : installable r q) (hd : q.done = true) :
      Transfers r (.installSnapshot q) (installDone r q.snapshotId)

theorem Handled.transfers (h : Handled r addr packet r' es) : Transfers r packet r' := by
  cases h with
  | installChunk q hterm hi hd _ hr' => exact .chunk q hi hd _ hr'
  | installDone q hterm hi hd es hes => exact .done q hi hd
  | installRefused q hi =>
      refine .keeps _ _ (.refl r) fun q' hq => ?_
      cases hq
      exact hi
  | voteDecided q hterm hstate hs hmany hlo hroom _ hr' =>
      subst hr'
      exact .keeps _ _ ⟨rfl, rfl, rfl, rfl⟩ (by simp)
  | installAnswered q hterm hstate hid hnext _ hr' =>
      subst hr'
      exact .keeps _ _ ⟨rfl, rfl, rfl, rfl⟩ (by simp)
  | appendAnswered q hterm hstate hid hnext next hans _ hr' =>
      subst hr'
      exact .keeps _ _ ⟨rfl, rfl, rfl, rfl⟩ (by simp)
  | entryAnswered q hterm hstate hid hnext hlt hs hskip _ hr' =>
      subst hr'
      exact .keeps _ _ ⟨rfl, rfl, rfl, rfl⟩ (by simp)
  | entryCounted q hterm hstate hid hnext hlt hs hnew hown hroom n hn hcommit _ hr' =>
      subst hr'
      exact .keeps _ _ ⟨rfl, rfl, rfl, rfl⟩ (by simp)
  | _ => exact .keeps _ _ ⟨rfl, rfl, rfl, rfl⟩ (by simp)

/-- A response of a later term is not looked at any further. -/
theorem handlePacket_laterResponse {q : Response} (hlt : r.currentTerm < q.term) :
    (handlePacket r addr (.response q)).raft = arrived r (.response q) := by
  rw [arrived_of_lt (show r.currentTerm < (Packet.response q).term from hlt)]
  simp only [handlePacket, handleResponse]
  rw [if_neg (by omega), if_pos hlt]
  unfold convertToFollower
  simp only
  split_ifs <;> rfl

/-- A handler goes on from the state that the packet's term has left, unless
the packet is a response of a later term. -/
theorem handlePacket_cases (hf : (handlePacket r addr packet).fault = false) :
    ((∃ q, packet = .response q) ∧ (handlePacket r addr packet).raft = arrived r packet) ∨
      ∃ es, Handled (arrived r packet) addr packet (handlePacket r addr packet).raft es ∧
        (arrived r packet = r ∨ ∀ q, packet ≠ .response q) := by
  rcases Int.lt_or_le r.currentTerm packet.term with hlt | hle
  · by_cases hresponse : ∃ q, packet = .response q
    · obtain ⟨q, rfl⟩ := hresponse
      exact Or.inl ⟨⟨q, rfl⟩, handlePacket_laterResponse hlt⟩
    · push Not at hresponse
      obtain ⟨hraft, hfault⟩ := handlePacket_raft r packet addr hresponse
      rw [hraft]
      rw [hfault] at hf
      exact Or.inr ⟨_, handled (le_arrived r packet) hf, Or.inr hresponse⟩
  · rw [arrived_of_le hle]
    exact Or.inr ⟨_, handled hle hf, Or.inl rfl⟩

theorem handlePacket_transfers (hf : (handlePacket r addr packet).fault = false) :
    Transfers (arrived r packet) packet (handlePacket r addr packet).raft := by
  rcases handlePacket_cases hf with ⟨⟨q, rfl⟩, heq⟩ | ⟨es, h, -⟩
  · rw [heq]
    exact .keeps _ _ (.refl _) (by simp)
  · exact h.transfers

/-- A success answers a request that has passed the check. -/
theorem Handled.install_success {q : InstallRequest} (h : Handled r addr (.installSnapshot q) r' es)
    {dst : Server} {p : Response} (hp : .send dst (.response p) ∈ es) (hs : p.success ≠ 0) :
    installable r q := by
  cases h with
  | installRefused _ hi =>
      simp only [reply, List.mem_singleton, Effect.send.injEq, Packet.response.injEq] at hp
      rw [hp.2] at hs
      exact absurd rfl hs
  | installChunk _ _ hi => exact hi
  | installDone _ _ hi => exact hi

/-- A packet of a later term ends an installation and leaves the flag. -/
theorem arrived_transfer (r : RaftState) (packet : Packet) :
    (arrived r packet).snapshotInProgress = r.snapshotInProgress ∧
    (r.currentTerm < packet.term ∧ (arrived r packet).installSnapshotId = -1 ∧
      ((arrived r packet).installSnapshotIndex = -1 ∨ (r.installSnapshotId = -1 ∧
        (arrived r packet).installSnapshotIndex = r.installSnapshotIndex)) ∨
      packet.term ≤ r.currentTerm ∧ arrived r packet = r) := by
  rcases Int.lt_or_le r.currentTerm packet.term with hlt | hle
  · rw [arrived_of_lt hlt]
    unfold convertToFollower
    simp only
    split_ifs with hid
    · exact ⟨rfl, Or.inl ⟨hlt, rfl, Or.inl rfl⟩⟩
    · exact ⟨rfl, Or.inl ⟨hlt, not_not.mp hid, Or.inr ⟨not_not.mp hid, rfl⟩⟩⟩
  · rw [arrived_of_le hle]
    exact ⟨rfl, Or.inr ⟨hle, rfl⟩⟩

theorem attemptToElect_keeps (r : RaftState) : SameTransfer r (attemptToElect r).raft :=
  ⟨rfl, rfl, rfl, rfl⟩

theorem appendEntry_keeps {e : LogEntry} (hf : (appendEntry r e).fault = false) :
    SameTransfer r (appendEntry r e).raft := by
  rcases appendEntry_ok hf with heq | ⟨r', heq, -, -, -, rfl⟩
  · rw [heq]
    exact .refl r
  · rw [heq]
    exact ⟨rfl, rfl, rfl, rfl⟩

theorem leaderStep_keeps {files : FileSystem} {t : LeaderThread}
    (hf : (leaderStep r files t).1.fault = false) :
    SameTransfer r (leaderStep r files t).1.raft := by
  have hs := leaderStep_sends hf
  generalize (leaderStep r files t).1.effects = es at hs
  generalize (leaderStep r files t).1.raft = r' at hs ⊢
  generalize (leaderStep r files t).2 = pc at hs
  cases hs <;> exact ⟨rfl, rfl, rfl, rfl⟩

end Sections

/-! ### Ids of snapshots -/

/-- The log starts at no negative index, and its window is no longer than the
array. -/
structure Placed (r : RaftState) : Prop where
  start : 0 ≤ r.startLogIndex
  room : r.logCount - r.startLogIndex ≤ (logSize : ℤ)

theorem Placed.of_window {r r' : RaftState} (h : Placed r)
    (hstart : r'.startLogIndex = r.startLogIndex) (hcount : r'.logCount = r.logCount) :
    Placed r' := by
  refine ⟨?_, ?_⟩
  · rw [hstart]
    exact h.start
  · rw [hstart, hcount]
    exact h.room

theorem Handled.placed {r r' : RaftState} {addr : Server} {packet : Packet} {es : List Effect}
    (h : Handled r addr packet r' es) (hr : Placed r)
    (hpacket : ∀ q, packet = .installSnapshot q → 0 ≤ q.snapshotId) : Placed r' := by
  cases h with
  | entryStored q hterm hc hn hlo hhi hroom hcommit =>
      refine ⟨hr.start, ?_⟩
      show storedCount r q - r.startLogIndex ≤ (logSize : ℤ)
      have := hr.room
      unfold storedCount
      split_ifs <;> omega
  | installChunk q hterm hi hd _ hr' => exact hr.of_window (by rw [hr']) (by rw [hr'])
  | installDone q hterm hi hd es hes =>
      refine ⟨hpacket q rfl, ?_⟩
      show q.snapshotId - q.snapshotId ≤ (logSize : ℤ)
      omega
  | voteDecided q hterm hstate hs hmany hlo hroom _ hr' =>
      subst hr'
      refine ⟨hr.start, ?_⟩
      show r.logCount + 1 - r.startLogIndex ≤ (logSize : ℤ)
      omega
  | installAnswered q hterm hstate hid hnext _ hr' =>
      exact hr.of_window (by rw [hr']; rfl) (by rw [hr']; rfl)
  | appendAnswered q hterm hstate hid hnext next hans _ hr' =>
      exact hr.of_window (by rw [hr']; rfl) (by rw [hr']; rfl)
  | entryAnswered q hterm hstate hid hnext hlt hs hskip _ hr' =>
      exact hr.of_window (by rw [hr']; rfl) (by rw [hr']; rfl)
  | entryCounted q hterm hstate hid hnext hlt hs hnew hown hroom n hn hcommit _ hr' =>
      exact hr.of_window (by rw [hr']; rfl) (by rw [hr']; rfl)
  | _ => exact hr.of_window rfl rfl

theorem appendEntry_placed {r : RaftState} {e : LogEntry} (hr : Placed r)
    (hf : (appendEntry r e).fault = false) : Placed (appendEntry r e).raft := by
  rcases appendEntry_ok hf with heq | ⟨r', heq, -, -, hroom, rfl⟩
  · rwa [heq]
  · rw [heq]
    refine ⟨hr.start, ?_⟩
    show r.logCount + 1 - r.startLogIndex ≤ (logSize : ℤ)
    omega

/-- A thread that sends a snapshot sends one of a log's start. -/
def LeaderThread.Sends (t : LeaderThread) : Prop :=
  ∀ q it, t.pc = .sending q it → 0 ≤ q.snapshotId

/-- Nothing in the cluster has a negative start or id, and no window is longer
than the array. -/
structure Based (w : World) : Prop where
  placed : ∀ s, Placed (w.raft s)
  opened : ∀ s, ∀ n ∈ w.opened s, 0 ≤ n
  threads : ∀ s, ∀ t ∈ w.threads s, t.Sends
  net : ∀ d ∈ w.net, ∀ q, d.packet = .installSnapshot q → 0 ≤ q.snapshotId

theorem based_init (config : Config) : Based (World.init config) where
  placed _ := ⟨le_rfl, by simp [World.init, serverInit]⟩
  opened _ n hn := absurd hn (by simp [World.init])
  threads _ t ht := absurd ht (by simp [World.init])
  net d hd := absurd hd (by simp [World.init])

theorem spawned_sends {es : List Effect} {t : LeaderThread} (ht : t ∈ spawned es) : t.Sends := by
  intro q it hpc
  rw [spawned_idle ht] at hpc
  exact absurd hpc (by simp)

section Steps

variable {g : Guard} {w w' : World} {s : Server} {r' : RaftState}

theorem Based.update (h : Based w) (hraft : w'.raft = Function.update w.raft s r')
    (hplaced : Placed r') (hopened : ∀ v, ∀ n ∈ w'.opened v, n ∈ w.opened v ∨ 0 ≤ n)
    (hthreads : ∀ v, ∀ t ∈ w'.threads v, t ∈ w.threads v ∨ t.Sends)
    (hnet : ∀ d ∈ w'.net, d ∈ w.net ∨ ∀ q, d.packet = .installSnapshot q → 0 ≤ q.snapshotId) :
    Based w' where
  placed v := by
    rw [hraft, Function.update_apply]
    split
    · exact hplaced
    · exact h.placed v
  opened v n hn := (hopened v n hn).elim (h.opened v n) id
  threads v t ht := (hthreads v t ht).elim (h.threads v t) id
  net d hd := (hnet d hd).elim (h.net d) id

theorem Based.rerouted (h : Based w) (net : List Datagram) (hnet : ∀ d ∈ net, d ∈ w.net) :
    Based { w with net } := ⟨h.placed, h.opened, h.threads, fun d hd => h.net d (hnet d hd)⟩

/-- A section that sends no snapshot. -/
theorem Based.settled (h : Based w) (hplaced : Placed r') {es : List Effect}
    {answers : Option Packet} (hsend : ∀ dst q, .send dst (.installSnapshot q) ∉ es) :
    Based (w.settle s r' es answers) := by
  refine h.update rfl hplaced (fun v n hn => Or.inl hn) (fun v t ht => ?_) fun d hd => ?_
  · exact (mem_settle_spawned ht).imp id fun hnew => spawned_sends hnew.2
  · refine (mem_settle_sent hd).imp id fun hnew q hq => ?_
    rw [hq] at hnew
    exact absurd hnew.2.2 (hsend _ q)

theorem Handled.no_install {r : RaftState} {addr : Server} {packet : Packet} {es : List Effect}
    (hh : Handled r addr packet r' es) (dst : Server) (q : InstallRequest) :
    .send dst (.installSnapshot q) ∉ es := by
  intro hmem
  obtain ⟨p, hp⟩ := hh.sends_response hmem
  exact absurd hp (by simp)

theorem Sends.based {r : RaftState} {t : LeaderThread} {es : List Effect} {pc : Option LeaderPc}
    (h : Sends r t r' es pc) (hr : 0 ≤ r.startLogIndex) (ht : t.Sends) :
    (r'.startLogIndex = r.startLogIndex ∧ r'.logCount = r.logCount) ∧
    (∀ dst q, .send dst (.installSnapshot q) ∈ es → 0 ≤ q.snapshotId) ∧
    ∀ q it, pc = some (.sending q it) → 0 ≤ q.snapshotId := by
  cases h with
  | first hpc hfree q it hterm hid => simp [hid, hr]
  | next q q' it it' hpc hterm hid =>
      have hq := ht q it hpc
      simp [hid, hq]
  | _ => exact ⟨⟨rfl, rfl⟩, by simp, by simp⟩

theorem Based.step (h : Based w) {v : Option (Server × ℤ × Server)}
    (hstep : World.Step g w v w') : Based w' := by
  cases hstep with
  | stepDown s t ht =>
      have hfollows := convertToFollower_follows (w.raft s) t
      exact h.update rfl ((h.placed s).of_window hfollows.startLogIndex hfollows.logCount)
        (fun _ _ => Or.inl) (fun _ _ => Or.inl) fun _ => Or.inl
  | campaign s =>
      have hplaced : Placed (attemptToElect (w.raft s)).raft := (h.placed s).of_window rfl rfl
      refine h.settled hplaced ?_
      simp [attemptToElect_eq]
  | handle a b d r' es hnet hle hg hh =>
      have hmem : d ∈ w.net := by simp [hnet]
      have hfewer := h.rerouted (a ++ b) fun x hx => by
        rw [hnet]
        simp only [List.mem_append, List.mem_cons] at hx ⊢
        exact hx.imp id Or.inr
      exact hfewer.settled (hh.placed (h.placed d.dst) (h.net d hmem)) hh.no_install
  | turns d l hd hg hl =>
      have hplaced : Placed (forget (w.raft d.dst)) := (h.placed d.dst).of_window rfl rfl
      exact h.update rfl hplaced
        (fun _ _ => Or.inl)
        (fun _ _ ht => Or.inl (mem_restarted ht)) fun _ => Or.inl
  | lose net hsub => exact h.rerouted net fun d hd => hsub.subset hd
  | append s e hf =>
      refine h.settled (appendEntry_placed (h.placed s) hf) fun dst q hmem => ?_
      rcases appendEntry_ok hf with heq | ⟨r', heq, -⟩
      all_goals
        rw [heq] at hmem
        simp [ret, saveState, emit] at hmem
  | sender s a b t r' es pc ht hg hs =>
      have htsends : t.Sends := h.threads s t (by simp [ht])
      obtain ⟨⟨hstart, hcount⟩, hsent, hnext⟩ := hs.based (h.placed s).start htsends
      refine h.update rfl ((h.placed s).of_window hstart hcount) (fun _ _ => Or.inl)
        (fun v x hx => ?_)
        fun d hd => ?_
      · rcases mem_settle_spawned hx with hx | ⟨-, hnew⟩
        · have hx' : x ∈ Function.update w.threads s
              (a ++ (pc.map fun pc => { t with pc }).toList ++ b) v := hx
          rw [Function.update_apply] at hx'
          split_ifs at hx' with hv
          · subst hv
            simp only [List.mem_append, Option.mem_toList, Option.map_eq_some_iff] at hx'
            rw [ht, List.mem_append, List.mem_cons]
            rcases hx' with (hx | ⟨pc', hpc', rfl⟩) | hx
            · exact Or.inl (Or.inl hx)
            · exact Or.inr fun q it hpc => hnext q it (by rw [hpc', ← hpc])
            · exact Or.inl (Or.inr (Or.inr hx))
          · exact Or.inl hx'
        · exact Or.inr (spawned_sends hnew)
      · refine (mem_settle_sent hd).imp id fun hnew q hq => ?_
        rw [hq] at hnew
        exact hsent _ q hnew.2.2
  | enter s n r' he =>
      obtain ⟨hrefused, rfl⟩ := createSnapshotEnter_some he
      have hs := (h.placed s).start
      refine h.update (s := s) rfl ((h.placed s).of_window rfl rfl) (fun v m hm => ?_)
        (fun _ _ => Or.inl) fun _ => Or.inl
      · have hm' : m ∈ Function.update w.opened s (n :: w.opened s) v := hm
        rw [Function.update_apply] at hm'
        split_ifs at hm' with hv
        · subst hv
          rcases List.mem_cons.mp hm' with rfl | hm'
          · exact Or.inr (by omega)
          · exact Or.inl hm'
        · exact Or.inl hm'
  | shift s n hn hg hf =>
      obtain ⟨hlo, heq⟩ := createSnapshotShift_ok hf
      rw [heq]
      refine h.settled ⟨h.opened s n hn, ?_⟩ (by simp [saveState, emit])
      show (w.raft s).logCount - n ≤ (logSize : ℤ)
      have hroom := (h.placed s).room
      omega
  | crash s st hst =>
      have hplaced : Placed (forget st) :=
        (h.placed s).of_window hst.startLogIndex hst.logCount
      exact h.update rfl hplaced
        (fun _ _ => Or.inl) (fun _ _ ht => Or.inl (mem_restarted ht)) fun _ => Or.inl
  | replay s l hl => exact ⟨h.placed, h.opened, h.threads, h.net⟩

end Steps

namespace Traffic

/-- In every run, whatever is sent, lost or repeated. -/
theorem based_reached {config : Config} {ok : Traffic → RepeatedAction → Prop} {m : Traffic}
    (hrun : Machine.Steps exec ok (init config) m) : ∃ w, Refines m.cluster w ∧ Based w := by
  refine exists_world (g := unrestricted) (based_init config) (fun _ _ _ h => h.step)
    (fun _ net h => h.rerouted net) ?_
  refine Machine.Steps.weaken (fun m y _ => ?_) hrun
  cases y with
  | step x => exact unrestricted_allows _ x
  | duplicate k => trivial

/-- The id of a snapshot on its way is the start of some log. -/
theorem install_nonneg {config : Config} {ok : Traffic → RepeatedAction → Prop} {m : Traffic}
    (hrun : Machine.Steps exec ok (init config) m) {d : Datagram} (hd : d ∈ m.cluster.net)
    {q : InstallRequest} (hq : d.packet = .installSnapshot q) : 0 ≤ q.snapshotId := by
  obtain ⟨w, href, h⟩ := based_reached hrun
  exact h.net d (by rw [href.net]; exact hd) q hq

theorem placed_reached {config : Config} {ok : Traffic → RepeatedAction → Prop} {m : Traffic}
    (hrun : Machine.Steps exec ok (init config) m) {s : Server}
    (hup : (m.cluster.nodes s).up = true) : Placed (m.cluster.nodes s).raft := by
  obtain ⟨w, href, h⟩ := based_reached hrun
  have hplaced := h.placed s
  rwa [(href.node s).view, Node.view, if_pos hup] at hplaced

end Traffic

end RaftLock

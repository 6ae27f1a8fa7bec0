import RaftLock.Safety.Windows
import RaftLock.Transfer.Fields

/-!
Who has the flag `snapshot_in_progress` up.

`Raft_create_snapshot` raises the flag in its first critical section and lowers
it in its second, an installation raises it with every block and lowers it with
the closing request. A packet of a later term ends an installation as well, and
there nothing lowers the flag.
-/

namespace RaftLock

open Outcome

/-- A request that starts a transfer. -/
def Packet.opensTransfer : Packet → Bool
  | .installSnapshot q => decide (q.index = 0)
  | _ => false

/-- The flag is up on behalf of a thread that makes a snapshot or of an
installation. -/
def Node.FlagHeld (n : Node) : Prop :=
  n.up = true → n.raft.snapshotInProgress = true →
    (∃ pc ∈ n.snapshotThreads, pc.building.isSome = true) ∨ n.raft.installSnapshotId ≠ -1

/-- The packet ends the installation that has the flag up, and no other one
starts with it. -/
structure Orphans (n : Node) (packet : Packet) : Prop where
  later : n.raft.currentTerm < packet.term
  installing : n.raft.installSnapshotId ≠ -1
  flag : n.raft.snapshotInProgress = true
  idle : ∀ pc ∈ n.snapshotThreads, pc.building = none
  opens : packet.opensTransfer = false

section Turns

variable {c : Cluster} {s : Server} {n n' : Node} {x : Action}

theorem Node.FlagHeld.of_same (h : n.FlagHeld) (hup : n.up = true)
    (hsame : SameTransfer n.raft n'.raft) (hthreads : n'.snapshotThreads = n.snapshotThreads) :
    n'.FlagHeld := by
  intro _ hflag
  rw [hthreads, hsame.id]
  rw [hsame.flag] at hflag
  exact h hup hflag

/-- A packet of a later term that is refused, or is no InstallSnapshot request,
starts no transfer. -/
theorem not_opens {r : RaftState} {packet : Packet} (hterm : r.currentTerm ≤ packet.term)
    (hid : r.installSnapshotId = -1) (hindex : r.installSnapshotIndex = -1)
    (hrefused : ∀ q, packet = .installSnapshot q → ¬ installable r q) :
    packet.opensTransfer = false := by
  cases packet with
  | installSnapshot q =>
      have hq := hrefused q rfl
      simp only [Packet.opensTransfer, decide_eq_false_iff_not]
      intro hzero
      refine hq ?_
      unfold installable
      push Not
      exact ⟨hterm, fun h => absurd hid h, by omega⟩
  | _ => rfl

theorem Node.FlagHeld.packet (h : n.FlagHeld) (hup : n.up = true) {packet : Packet}
    (htransfers : Transfers (arrived n.raft packet) packet n'.raft)
    (hthreads : n'.snapshotThreads = n.snapshotThreads ++ [.check])
    (hids : ∀ q, packet = .installSnapshot q → q.snapshotId ≠ -1)
    (hok : ¬ Orphans n packet) : n'.FlagHeld := by
  intro _ hflag
  have hmore : ∀ pc ∈ n.snapshotThreads, pc ∈ n'.snapshotThreads := fun pc hpc => by
    rw [hthreads]
    exact List.mem_append_left _ hpc
  generalize hr : n'.raft = r' at htransfers hflag ⊢
  obtain ⟨hsame, hcases⟩ := arrived_transfer n.raft packet
  cases htransfers with
  | keeps _ _ hkeeps hrefused =>
      rw [hkeeps.flag, hsame] at hflag
      rw [hkeeps.id]
      rcases h hup hflag with ⟨pc, hpc, hbuild⟩ | hid
      · exact Or.inl ⟨pc, hmore pc hpc, hbuild⟩
      · rcases hcases with ⟨hlater, hid', hindex⟩ | ⟨-, heq⟩
        · left
          by_contra hnone
          push Not at hnone
          refine hok ⟨hlater, hid, hflag, fun pc hpc => ?_, ?_⟩
          · simpa using hnone pc (hmore pc hpc)
          · refine not_opens ?_ hid' (hindex.resolve_right fun h => hid h.1) hrefused
            rw [arrived_of_lt hlater, (convertToFollower_follows n.raft _).currentTerm]
        · exact Or.inr (by rwa [heq])
  | chunk q hi hd _ hr' =>
      right
      rw [hr']
      exact hids q rfl
  | done q hi hd => exact absurd hflag (by simp [installDone])

/-- A thread that goes on with its snapshot. -/
theorem building_replaceAt {l : List SnapshotPc} {k : ℕ} {pc : SnapshotPc}
    {pc' : Option SnapshotPc} (hk : l[k]? = some pc)
    (hbuild : pc'.bind SnapshotPc.building = pc.building)
    (h : ∃ p ∈ l, p.building.isSome = true) :
    ∃ p ∈ List.replaceAt l k pc', p.building.isSome = true := by
  have hpos : 0 < l.countP fun p => p.building.isSome := List.countP_pos_iff.mpr h
  rw [← countP_replaceAt hk hbuild] at hpos
  exact List.countP_pos_iff.mp hpos

theorem Node.FlagHeld.snapshot (h : n.FlagHeld) (hup : n.up = true) {k : ℕ} {pc : SnapshotPc}
    (hpc : n.snapshotThreads[k]? = some pc) (hf : (snapshotStep n.raft pc).1.fault = false)
    (hraft : n'.raft = (snapshotStep n.raft pc).1.raft)
    (hthreads : n'.snapshotThreads =
      List.replaceAt n.snapshotThreads k (snapshotStep n.raft pc).2) : n'.FlagHeld := by
  intro _ hflag
  -- between the two sections, and where the first one is refused, nothing changes
  have hgoes : (snapshotStep n.raft pc).1.raft = n.raft →
      (snapshotStep n.raft pc).2.bind SnapshotPc.building = pc.building →
      (∃ p ∈ n'.snapshotThreads, p.building.isSome = true) ∨ n'.raft.installSnapshotId ≠ -1 := by
    intro hkeeps hbuild
    rw [hraft, hkeeps] at hflag ⊢
    rw [hthreads]
    exact (h hup hflag).imp (building_replaceAt hpc hbuild) id
  cases pc with
  | shift m prev =>
      rw [hraft] at hflag
      simp only [snapshotStep] at hflag hf
      obtain ⟨-, heq⟩ := createSnapshotShift_ok hf
      rw [heq] at hflag
      exact absurd hflag (by simp [saveState, emit])
  | enter m =>
      cases he : createSnapshotEnter n.raft m with
      | none =>
          exact hgoes (by simp [snapshotStep, he, ret])
            (by simp [snapshotStep, he, SnapshotPc.building])
      | some r =>
          left
          have hk : k < n.snapshotThreads.length := (List.getElem?_eq_some_iff.mp hpc).1
          refine ⟨.opened m, ?_, rfl⟩
          rw [hthreads]
          simp only [snapshotStep, he, List.replaceAt]
          exact List.mem_of_getElem? (List.getElem?_set_self hk)
  | _ =>
      exact hgoes (snapshotStep_plain n.raft (by simp) (by simp)).1
        (snapshotStep_building (by simp) (by simp) hf)

theorem NodeTurn.flagHeld (h : NodeTurn c s n x n') (hn : n.FlagHeld)
    (hids : ∀ d ∈ c.net, ∀ q, d.packet = .installSnapshot q → q.snapshotId ≠ -1)
    (hok : ∀ k d, x = .deliver k none → c.net[k]? = some d → d.dst = s → ¬ Orphans n d.packet) :
    n'.FlagHeld := by
  cases h with
  | down _ _ hdown => exact fun hup => absurd (hup.symm.trans hdown) (by simp)
  | idle _ _ _ hup _ hraft _ hsnapshots =>
      exact hn.of_same hup (by rw [hraft]; exact .refl _) hsnapshots
  | elect _ _ _ hup _ hraft _ hsnapshots =>
      exact hn.of_same hup (by rw [hraft]; exact attemptToElect_keeps _) hsnapshots
  | packet k d _ hup _ hd hs hf hraft _ hsnapshots =>
      refine hn.packet hup ?_ hsnapshots (hids d (List.mem_of_getElem? hd)) (hok k d rfl hd hs)
      rw [hraft]
      exact handlePacket_transfers hf
  | append e _ hup _ hf hraft _ hsnapshots =>
      exact hn.of_same hup (by rw [hraft]; exact appendEntry_keeps hf) hsnapshots
  | sender k t _ hup _ ht hf hraft _ hsnapshots =>
      exact hn.of_same hup (by rw [hraft]; exact leaderStep_keeps hf) hsnapshots
  | snapshot k pc _ hup _ hpc hf hraft _ hsnapshots =>
      exact hn.snapshot hup hpc hf hraft hsnapshots
  | restart st _ _ _ _ hraft =>
      intro _ hflag
      rw [hraft] at hflag
      exact absurd hflag (by simp [forget])

end Turns

/-- No packet takes the flag's owner away. -/
def Cluster.KeepsFlag (c : Cluster) : Action → Prop
  | .deliver k _ => ∀ d, c.net[k]? = some d → ¬ Orphans (c.nodes d.dst) d.packet
  | _ => True

namespace Traffic

/-- In every run in which no packet of a later term ends an installation that
has the flag up, the flag is up only while a thread makes a snapshot or an
installation is under way. -/
theorem flag_held {config : Config} {m : Traffic}
    (hrun : Machine.Steps exec (lifts Cluster.KeepsFlag) (init config) m) {s : Server}
    (hup : (m.cluster.nodes s).up = true)
    (hflag : (m.cluster.nodes s).raft.snapshotInProgress = true) :
    (∃ pc ∈ (m.cluster.nodes s).snapshotThreads, pc.building.isSome = true) ∨
      (m.cluster.nodes s).raft.installSnapshotId ≠ -1 := by
  suffices h : ∀ s, (m.cluster.nodes s).FlagHeld from h s hup hflag
  clear hup hflag
  induction hrun with
  | refl =>
      exact fun s _ hflag => absurd hflag (by simp [init, Cluster.init, Node.init, serverInit])
  | tail hpre hlast ih =>
      obtain ⟨y, hok, hy⟩ := hlast
      rcases exec_cases hy with ⟨x, c, rfl, hx, rfl⟩ | ⟨k, d, rfl, hd, rfl⟩
      · intro s
        refine (Cluster.exec_turn hx s).flagHeld (ih s) (fun d hd q hq => ?_) ?_
        · have := install_nonneg hpre hd hq
          omega
        · rintro k d rfl hd rfl
          exact hok d hd
      · exact ih

end Traffic

/-! ### A term ends during a transfer -/

section LongRun

/-- A client entry that writes one byte. -/
def oneByte : LogEntry := ⟨0, 0, .clientLog, 0, 0, [⟨fileName 0, [65]⟩]⟩

/-- Sixty-one entries are stored by servers `0`, `1` and `2`; the second one
writes a file. -/
def sixtyWithFile : List Action :=
  firstElection ++ (List.replicate 4 exchange).flatten ++ (.append 0 oneByte none :: exchange) ++
    (List.replicate 59 (.append 0 emptyEntry none :: exchange)).flatten

/-- Server `0` takes a snapshot and sends the file to server `3`. -/
def firstBlock : List Action :=
  List.replicate 58 (.snapshotThread 0 0 none) ++ [.leaderThread 0 2, .deliver 0 none]

/-- Server `1` stands for election and server `3` hears of it. -/
def candidateOne : List Action := [.timeout 1, .elect 1 none, .deliver 3 none]

instance (n : Node) (packet : Packet) : Decidable (Orphans n packet) :=
  decidable_of_iff (n.raft.currentTerm < packet.term ∧ n.raft.installSnapshotId ≠ -1 ∧
      n.raft.snapshotInProgress = true ∧ (∀ pc ∈ n.snapshotThreads, pc.building = none) ∧
      packet.opensTransfer = false)
    ⟨fun h => ⟨h.1, h.2.1, h.2.2.1, h.2.2.2.1, h.2.2.2.2⟩,
      fun h => ⟨h.later, h.installing, h.flag, h.idle, h.opens⟩⟩

/-- The delivery leaves the flag with its owner. -/
def keepsFlag (c : Cluster) : Action → Bool
  | .deliver k _ => c.net[k]?.all fun d => decide (¬ Orphans (c.nodes d.dst) d.packet)
  | _ => true

theorem keepsFlag_sound (c : Cluster) (x : Action) (h : keepsFlag c x = true) : c.KeepsFlag x := by
  cases x with
  | deliver k crashAt =>
      intro d hd
      simp only [keepsFlag, hd, Option.all_some, decide_eq_true_eq] at h
      exact h
  | _ => trivial

/-- The flag of server `3` is up. -/
def raised (c : Cluster) : Bool :=
  (c.nodes 3).up && (c.nodes 3).raft.snapshotInProgress

/-- The flag of server `3` is up, for no one. -/
def leaked (c : Cluster) : Bool :=
  raised c && (c.nodes 3).snapshotThreads.all (fun pc => pc.building.isNone) &&
    decide ((c.nodes 3).raft.installSnapshotId = -1)

set_option maxRecDepth 100000 in
theorem sixtyWithFile_runs : ((Cluster.init plainConfig).execWhile keepsFlag
    (sixtyWithFile ++ firstBlock)).any (fun c => raised c &&
      (c.execAll candidateOne).any leaked) = true := by
  decide +kernel

/-- The flag of server `3` is up while it installs a snapshot. -/
theorem first_block_holds_flag : ∃ m : Traffic,
    Machine.Steps Traffic.exec (Traffic.lifts Cluster.KeepsFlag) (Traffic.init plainConfig) m ∧
    (m.cluster.nodes 3).up = true ∧ (m.cluster.nodes 3).raft.snapshotInProgress = true ∧
    ((∃ pc ∈ (m.cluster.nodes 3).snapshotThreads, pc.building.isSome = true) ∨
      (m.cluster.nodes 3).raft.installSnapshotId ≠ -1) := by
  obtain ⟨c, hc, htest⟩ := Machine.exists_of_execWhile Cluster.KeepsFlag keepsFlag_sound
    sixtyWithFile_runs
  simp only [raised, Bool.and_eq_true] at htest
  obtain ⟨m, hrun, rfl⟩ := Traffic.lifts_steps hc (m := Traffic.init plainConfig) rfl
  exact ⟨m, hrun, htest.1.1, htest.1.2, Traffic.flag_held hrun htest.1.1 htest.1.2⟩

/-- A vote request of the next term ends the installation and leaves the
flag. -/
theorem candidate_leaks_flag : ∃ c, Cluster.Reachable plainConfig c ∧ (c.nodes 3).up = true ∧
    (c.nodes 3).raft.snapshotInProgress = true ∧
    (∀ pc ∈ (c.nodes 3).snapshotThreads, pc.building = none) ∧
    (c.nodes 3).raft.installSnapshotId = -1 := by
  obtain ⟨c, hc, htest⟩ := Machine.exists_of_execWhile (fun _ _ => True) (fun _ _ _ => trivial)
    sixtyWithFile_runs
  rw [Bool.and_eq_true] at htest
  obtain ⟨c', hc', hleaked⟩ := Machine.exists_of_execAll htest.2
  simp only [leaked, raised, Bool.and_eq_true, List.all_eq_true, Option.isNone_iff_eq_none,
    decide_eq_true_eq] at hleaked
  exact ⟨c', hc.trans hc', hleaked.1.1.1, hleaked.1.1.2, hleaked.1.2, hleaked.2⟩

end LongRun

end RaftLock

import RaftLock.Safety.LogMatching
import RaftLock.Safety.Commitment

/-!
Two servers that commit at one index commit one entry.

The guard `sound` names what the runs must not do for this to hold: five ways
in which the program takes one thing for another. Each of them is a branch of
a handler or of a leader thread on a state and an input that occur, and the
last section runs into the first of them.
-/

namespace RaftLock

open Consensus Outcome

/-- A voter that knows the term of its last entry: its window is not empty, or
its log is. -/
def VoterKnows (r : RaftState) (d : Datagram) : Prop :=
  match d.packet with
  | .vote q => q.term = r.currentTerm → r.votedFor = -1 → upToDate r q →
      r.startLogIndex < r.logCount ∨ r.startLogIndex = 0
  | _ => True

/-- A snapshot that is installed reaches to the end of the log it replaces, or
the log has an entry of another term where the snapshot ends. -/
def InstallReaches (commits : List (Server × ℤ × LogEntry)) (r : RaftState) (d : Datagram) :
    Prop :=
  match d.packet with
  | .installSnapshot q => Installs r d → r.logCount ≤ q.snapshotId ∨
      (r.startLogIndex ≤ q.snapshotId - 1 ∧ ∃ x ∈ commits, x.2.1 = q.snapshotId - 1 ∧
        x.2.2.term ≠ getLogTerm r (q.snapshotId - 1))
  | _ => True

/-- A thread that leaves the waiting loop of `Raft_send_snapshot` finds its
server still in state LEADER. -/
def RoleHeld (r : RaftState) (t : LeaderThread) : Prop :=
  t.pc = .waiting → r.snapshotInProgress = false → r.state = .leader

/-- Runs in which an answer is taken for what it is, a voter knows its last
entry, a snapshot replaces nothing beyond its end, and no transfer goes on in
a role or to a follower it was not meant for. -/
abbrev sound : Guard where
  packet commits r d := Confirms r d ∧ VoterKnows r d ∧ InstallReaches commits r d
  sender r t := RoleHeld r t ∧ NoReturn r t
  shift _ _ := True

section Agreement

variable {config : Config} {w w' : World} {p : Protocol} {C : Server → ℤ → Finset Server}

/-- A committed entry of another term than the server's own, at the end of the
snapshot, shows that the server does not hold the snapshot's entries. -/
theorem SimInv.diverges (h : SimInv config w p) (hk : Known w p) {s v : Server}
    {q : InstallRequest} (hq : InstallOk p v q)
    (hlo : (w.raft s).startLogIndex ≤ q.snapshotId - 1)
    (hhi : q.snapshotId ≤ (w.raft s).logCount) {x : Server × ℤ × LogEntry}
    (hx : x ∈ w.commits) (hindex : x.2.1 = q.snapshotId - 1)
    (hterm : x.2.2.term ≠ getLogTerm (w.raft s) (q.snapshotId - 1)) :
    ¬ (p.llog q.term).take q.snapshotId.toNat <+: p.log s := by
  intro hpre
  obtain ⟨-, -, hcom⟩ := hq
  have hstart := (h.holds s).start_nonneg
  have hlen : q.snapshotId.toNat ≤ (p.llog q.term).length := by
    obtain ⟨u, -, hk, hu⟩ := hcom
    have h1 := hu.length_le
    have h2 := h.inv.clevel_le u
    simp only [List.length_take] at h1
    omega
  have hmine := (h.holds s).entry _ _ (getLog_of_mem hlo (by omega))
  have hleader := getElem?_of_take_prefix hpre hlen (by omega) hmine
  obtain ⟨-, hentry⟩ := hk.applied x hx
  rw [hindex] at hentry
  have heq := hentry.unique h.inv (hcom.entry h.inv (by omega) hleader)
  apply hterm
  unfold getLogTerm
  rw [if_neg (by omega), ← LogEntry.core_term, heq, LogEntry.core_term]

theorem sound_guarded (h : SimInv config w p) (hk : Known w p) : Guarded sound w p where
  vote d _ q hp hterm hfree hup hpass := by
    have := hpass.2.1
    simp only [VoterKnows, hp] at this
    exact this hterm hfree hup
  done d hd q hp _ hi hdone hpass := by
    have hlen := (h.holds d.dst).length
    have htruth := h.truthful d hd
    simp only [Truthful, hp] at htruth
    have hreach := hpass.2.2
    simp only [InstallReaches, hp] at hreach
    by_cases hle : (w.raft d.dst).logCount ≤ q.snapshotId
    · exact Or.inl (by omega)
    · right
      rcases hreach (by simp only [Installs, hp]; exact ⟨hi, hdone⟩) with
        hle' | ⟨hlo, x, hx, hindex, hterm⟩
      · exact absurd hle' hle
      · exact h.diverges hk htruth hlo (by omega) hx hindex hterm
  shift s n hn _ := hk.opened s n hn
  sender _ _ _ hpass := hpass.1

theorem AgreeInv.steps (hinj : Function.Injective config) (hvalid : ∀ v, config v ≠ -1)
    (h : AgreeInv config w p C) (hpath : World.Path sound w w') :
    ∃ p' C', Proto.Steps LogEntry.term p p' ∧ AgreeInv config w' p' C' := by
  induction hpath with
  | refl => exact ⟨p, C, .refl, h⟩
  | tail _ hstep ih =>
      obtain ⟨p₁, C₁, hs₁, h₁⟩ := ih
      obtain ⟨v, hstep⟩ := hstep
      obtain ⟨p', C', hs, h'⟩ := h₁.step hinj hvalid (fun _ => sound_guarded)
        (fun hpass => hpass.1) (fun _ _ _ hpass => hpass.2) hstep
      exact ⟨p', C', hs₁.trans hs, h'⟩

theorem AgreeInv.path (hinj : Function.Injective config) (hvalid : ∀ v, config v ≠ -1)
    (h : AgreeInv config w p C) (hpath : World.Path sound w w') :
    ∃ p' C', AgreeInv config w' p' C' := by
  obtain ⟨p', C', -, h'⟩ := h.steps hinj hvalid hpath
  exact ⟨p', C', h'⟩

end Agreement

/-- No two turns of the loop of `Raft_commit_update`, at whatever servers, are
for one index and different entries. -/
theorem commits_agree {config : Config} (hinj : Function.Injective config)
    (hvalid : ∀ s, config s ≠ -1) {c : Cluster} (hrun : Cluster.Run config sound.allows c)
    {s v : Server} {i : ℤ} {e e' : LogEntry} (h : (s, i, e) ∈ c.commits)
    (h' : (v, i, e') ∈ c.commits) : e.core = e'.core := by
  obtain ⟨w, hpath, href⟩ := (refines_init config).steps hrun
  obtain ⟨p, C, hinv⟩ := (agreeInv_init config).path hinj hvalid hpath
  rw [← href.commits] at h h'
  exact (hinv.known.applied _ h).2.unique hinv.sim.inv (hinv.known.applied _ h').2

instance (r : RaftState) : (d : Datagram) → Decidable (VoterKnows r d)
  | ⟨_, _, .vote _, _⟩ => inferInstanceAs (Decidable (_ → _))
  | ⟨_, _, .append _, _⟩ | ⟨_, _, .installSnapshot _, _⟩ | ⟨_, _, .response _, _⟩ => .isTrue trivial

instance (l : List (Server × ℤ × LogEntry)) (r : RaftState) :
    (d : Datagram) → Decidable (InstallReaches l r d)
  | ⟨_, _, .installSnapshot _, _⟩ => inferInstanceAs (Decidable (_ → _))
  | ⟨_, _, .append _, _⟩ | ⟨_, _, .vote _, _⟩ | ⟨_, _, .response _, _⟩ => .isTrue trivial

instance (r : RaftState) : (t : LeaderThread) → Decidable (Finishes r t)
  | ⟨_, .sending _ _⟩ => inferInstanceAs (Decidable (_ ∧ _))
  | ⟨_, .idle⟩ | ⟨_, .waiting⟩ => .isFalse id

instance (r : RaftState) (t : LeaderThread) : Decidable (RoleHeld r t) :=
  inferInstanceAs (Decidable (_ → _ → _))

instance (r : RaftState) (t : LeaderThread) : Decidable (NoReturn r t) :=
  inferInstanceAs (Decidable (_ → Finishes r t → _))

/-- Server `s` has committed at index `i`. -/
def hasCommitted (c : Cluster) (s : Server) (i : ℤ) : Bool :=
  c.commits.any fun x => x.1 == s && x.2.1 == i

set_option maxRecDepth 10000 in
theorem firstEntries_sound : ((Cluster.init plainConfig).execWhile
    (fun c x => decide (sound.allows c x)) firstEntries).any
    (fun c => hasCommitted c 0 0 && hasCommitted c 1 0) = true := by
  decide +kernel

theorem first_commits_agree : ∃ c, Cluster.Run plainConfig sound.allows c ∧
    hasCommitted c 0 0 = true ∧ hasCommitted c 1 0 = true ∧
    ∀ x ∈ c.commits, ∀ y ∈ c.commits, x.2.1 = y.2.1 → x.2.2.core = y.2.2.core := by
  obtain ⟨c, hrun, hboth⟩ := Machine.exists_of_execWhile sound.allows
    (fun _ _ h => of_decide_eq_true h) firstEntries_sound
  rw [Bool.and_eq_true] at hboth
  refine ⟨c, hrun, hboth.1, hboth.2, fun x hx y hy hxy => ?_⟩
  exact commits_agree (by decide) (by decide) hrun (s := x.1) (i := x.2.1) hx
    (v := y.1) (by rw [hxy]; exact hy)

/-! ### Without the restriction -/

section Disagreement

/-- Two heartbeats are on their way when a client's entry arrives, and their
answers are counted for it: server `0` commits an entry nobody else has. -/
def commitAlone : List Action :=
  firstElection ++ exchange ++ exchange ++
    [Action.leaderThread 0 0, .leaderThread 0 1, .append 0 emptyEntry none, .deliver 0 none,
      .deliver 0 none, .deliver 0 none, .deliver 0 none]

/-- Server `1` is elected in term `2` by servers `2` and `3`, and its entry
reaches servers `0` and `2`. -/
def commitOther : List Action :=
  [Action.timeout 1, .elect 1 none, .drop 0, .deliver 0 none, .deliver 0 none, .drop 0,
    .deliver 0 none, .deliver 0 none] ++
    (List.replicate 2 [Action.leaderThread 1 0, .leaderThread 1 1, .deliver 0 none, .deliver 0 none,
      .deliver 0 none, .deliver 0 none]).flatten

/-- Two servers have committed entries of different terms at one index. -/
def disagrees (c : Cluster) : Bool :=
  c.commits.any fun x => c.commits.any fun y =>
    decide (x.1 ≠ y.1 ∧ x.2.1 = y.2.1 ∧ x.2.2.term ≠ y.2.2.term)

set_option maxRecDepth 10000 in
theorem commitOther_runs : ((Cluster.init plainConfig).execAll (commitAlone ++ commitOther)).any
    disagrees = true := by
  decide +kernel

theorem two_entries_at_one_index : ∃ c, Cluster.Reachable plainConfig c ∧
    ∃ x ∈ c.commits, ∃ y ∈ c.commits,
      x.1 ≠ y.1 ∧ x.2.1 = y.2.1 ∧ x.2.2.term ≠ y.2.2.term := by
  obtain ⟨c, hc, hdis⟩ := Machine.exists_of_execAll commitOther_runs
  obtain ⟨x, hx, hdis⟩ := List.any_eq_true.mp hdis
  obtain ⟨y, hy, hdis⟩ := List.any_eq_true.mp hdis
  exact ⟨c, hc, x, hx, y, hy, of_decide_eq_true hdis⟩

end Disagreement

end RaftLock

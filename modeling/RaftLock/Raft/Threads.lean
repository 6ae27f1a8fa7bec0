import RaftLock.Raft.Traffic

/-!
One server's threads through a step of the cluster.

A server that is up after a step has stayed as it was, has run one section to
its end, or has come back from its file (`Cluster.exec_turn`). Besides the
state this says which thread has moved and where. A server that is down has no
threads.
-/

namespace RaftLock

open Outcome

/-- The step is one of a packet thread of server `s`, or starts one. -/
def Action.turns (c : Cluster) (s : Server) : Action → Prop
  | .deliver k _ => ∃ d, c.net[k]? = some d ∧ d.dst = s
  | .snapshotThread v _ _ => v = s
  | _ => False

/-- What a step of the cluster does to a server. -/
inductive NodeTurn (c : Cluster) (s : Server) (n : Node) : Action → Node → Prop
  | down (x : Action) (n' : Node) (hdown : n'.up = false)
      (hidle : (n.up = false ∧ n' = n) ∨ (n'.leaderThreads = [] ∧ n'.snapshotThreads = [])) :
      NodeTurn c s n x n'
  | idle (x : Action) (hx : ¬ x.turns c s) (n' : Node) (hup : n.up = true) (hon : n'.up = true)
      (hraft : n'.raft = n.raft) (hleaders : n'.leaderThreads = n.leaderThreads)
      (hsnapshots : n'.snapshotThreads = n.snapshotThreads) : NodeTurn c s n x n'
  | elect (x : Action) (hx : x.elects s) (n' : Node) (hup : n.up = true) (hon : n'.up = true)
      (hraft : n'.raft = (attemptToElect n.raft).raft)
      (hleaders : n'.leaderThreads = n.leaderThreads)
      (hsnapshots : n'.snapshotThreads = n.snapshotThreads) : NodeTurn c s n x n'
  | packet (k : ℕ) (d : Datagram) (n' : Node) (hup : n.up = true) (hon : n'.up = true)
      (hd : c.net[k]? = some d)
      (hs : d.dst = s) (hf : (handlePacket n.raft d.src d.packet).fault = false)
      (hraft : n'.raft = (handlePacket n.raft d.src d.packet).raft)
      (hleaders : n'.leaderThreads =
        n.leaderThreads ++ spawned (handlePacket n.raft d.src d.packet).effects)
      (hsnapshots : n'.snapshotThreads = n.snapshotThreads ++ [.check]) :
      NodeTurn c s n (.deliver k none) n'
  | append (e : LogEntry) (n' : Node) (hup : n.up = true) (hon : n'.up = true)
      (hf : (appendEntry n.raft e).fault = false) (hraft : n'.raft = (appendEntry n.raft e).raft)
      (hleaders : n'.leaderThreads = n.leaderThreads)
      (hsnapshots : n'.snapshotThreads = n.snapshotThreads) :
      NodeTurn c s n (.append s e none) n'
  | sender (k : ℕ) (t : LeaderThread) (n' : Node) (hup : n.up = true) (hon : n'.up = true)
      (ht : n.leaderThreads[k]? = some t) (hf : (leaderStep n.raft n.files t).1.fault = false)
      (hraft : n'.raft = (leaderStep n.raft n.files t).1.raft)
      (hleaders : n'.leaderThreads = List.replaceAt n.leaderThreads k
        ((leaderStep n.raft n.files t).2.map fun pc => { t with pc }))
      (hsnapshots : n'.snapshotThreads = n.snapshotThreads) :
      NodeTurn c s n (.leaderThread s k) n'
  | snapshot (k : ℕ) (pc : SnapshotPc) (n' : Node) (hup : n.up = true) (hon : n'.up = true)
      (hpc : n.snapshotThreads[k]? = some pc) (hf : (snapshotStep n.raft pc).1.fault = false)
      (hraft : n'.raft = (snapshotStep n.raft pc).1.raft)
      (hleaders : n'.leaderThreads = n.leaderThreads)
      (hsnapshots : n'.snapshotThreads =
        List.replaceAt n.snapshotThreads k (snapshotStep n.raft pc).2) :
      NodeTurn c s n (.snapshotThread s k none) n'
  | restart (st : RaftState) (n' : Node) (hdown : n.up = false) (hon : n'.up = true)
      (hst : n.saved = some st)
      (hraft : n'.raft = forget st) (hleaders : n'.leaderThreads = n.leaderThreads)
      (hsnapshots : n'.snapshotThreads = n.snapshotThreads) : NodeTurn c s n (.restart s) n'

theorem Node.settle_threads {n : Node} {o : Outcome} {crashAt : Option ℕ}
    (hup : (n.settle o crashAt).up = true) : crashAt = none ∧ o.fault = false ∧
      (n.settle o crashAt).raft = o.raft ∧
      (n.settle o crashAt).leaderThreads = n.leaderThreads ++ spawned o.effects ∧
      (n.settle o crashAt).snapshotThreads = n.snapshotThreads := by
  unfold settle at hup ⊢
  simp only at hup ⊢
  split_ifs at hup ⊢ with hwhole
  · obtain ⟨rfl, hf⟩ := hwhole
    obtain ⟨-, -, hsnapshots, hleaders, -⟩ := foldl_perform (performed o none) n
    exact ⟨rfl, hf, rfl, hleaders, hsnapshots⟩
  · exact absurd hup (by simp [crash])

theorem Node.settle_down {n : Node} {o : Outcome} {crashAt : Option ℕ} (hup : n.up = true)
    (hdown : (n.settle o crashAt).up = false) :
    (n.settle o crashAt).leaderThreads = [] ∧ (n.settle o crashAt).snapshotThreads = [] := by
  unfold settle at hdown ⊢
  simp only at hdown ⊢
  split_ifs at hdown ⊢ with hwhole
  · have hsame := (foldl_perform (performed o crashAt) n).2.1
    exact absurd (hup.symm.trans (hsame.symm.trans hdown)) (by simp)
  · exact ⟨rfl, rfl⟩

/-- Only a handler that wins an election starts threads. -/
theorem spawned_attemptToElect (r : RaftState) : spawned (attemptToElect r).effects = [] := by
  simp [attemptToElect, saveState, andThen, emit, spawned]

theorem spawned_appendEntry (r : RaftState) (e : LogEntry) :
    spawned (appendEntry r e).effects = [] := by
  unfold appendEntry
  split_ifs
  · rfl
  · simp only
    split <;> rfl

theorem spawned_leaderStep (r : RaftState) (files : FileSystem) (t : LeaderThread) :
    spawned (leaderStep r files t).1.effects = [] := by
  cases hf : (leaderStep r files t).1.fault with
  | true => rw [leaderStep_fault hf]; rfl
  | false =>
      have hs := leaderStep_sends hf
      generalize (leaderStep r files t).1.effects = es at hs ⊢
      generalize (leaderStep r files t).1.raft = r' at hs
      generalize (leaderStep r files t).2 = pc at hs
      cases hs <;> rfl

theorem spawned_snapshotStep (r : RaftState) (pc : SnapshotPc) :
    spawned (snapshotStep r pc).1.effects = [] := by
  have h := snapshotStep_section r pc
  generalize (snapshotStep r pc).1 = o at h ⊢
  cases h with
  | enter n hpc he => rfl
  | shift n prev hpc =>
      unfold createSnapshotShift
      simp only
      split_ifs <;> rfl
  | plain _ hraft hes => exact spawned_quiet fun x hx => (hes x hx).1

namespace Cluster

variable {c c' : Cluster}

/-- Only server `v` moves. -/
theorem turn_update {v s : Server} {x : Action} {n : Node}
    (hx : s ≠ v → ¬ x.turns c s) (hn : NodeTurn c v (c.nodes v) x n) :
    NodeTurn c s (c.nodes s) x (if s = v then n else c.nodes s) := by
  split_ifs with hs
  · exact hs ▸ hn
  · cases hup : (c.nodes s).up with
    | true => exact .idle x (hx hs) _ hup hup rfl rfl rfl
    | false => exact .down x _ hup (Or.inl ⟨hup, rfl⟩)

theorem turn_settle {s : Server} {x : Action} {n n₁ : Node} {o : Outcome} {crashAt : Option ℕ}
    (hup : n₁.up = true)
    (h : crashAt = none → o.fault = false → ∀ n' : Node, n'.up = true → n'.raft = o.raft →
      n'.leaderThreads = n₁.leaderThreads ++ spawned o.effects →
      n'.snapshotThreads = n₁.snapshotThreads → NodeTurn c s n x n') :
    NodeTurn c s n x (n₁.settle o crashAt) := by
  cases hv : (n₁.settle o crashAt).up with
  | true =>
      obtain ⟨hnone, hf, hraft, hleaders, hsnapshots⟩ := Node.settle_threads hv
      exact h hnone hf _ hv hraft hleaders hsnapshots
  | false => exact .down _ _ hv (Or.inr (Node.settle_down hup hv))

theorem exec_turn {x : Action} (hx : c.exec x = some c') (s : Server) :
    NodeTurn c s (c.nodes s) x (c'.nodes s) := by
  cases x with
  | timeout v =>
      simp only [exec] at hx
      split_ifs at hx with hok
      simp only [Option.some.injEq] at hx
      subst hx
      simp only [Function.update_apply]
      exact turn_update (fun _ => id) (.idle _ id _ hok.1 hok.1 rfl rfl rfl)
  | elect v crashAt =>
      simp only [exec] at hx
      split_ifs at hx with hok
      simp only [Option.some.injEq] at hx
      subst hx
      rw [settle_nodes]
      refine turn_update (fun _ => id)
        (turn_settle hok.1 fun _ _ n' hon hraft hleaders hsnapshots => ?_)
      rw [spawned_attemptToElect, List.append_nil] at hleaders
      exact .elect (.elect v crashAt) rfl n' hok.1 hon hraft hleaders hsnapshots
  | retry v crashAt =>
      simp only [exec] at hx
      split_ifs at hx with hok
      simp only [Option.some.injEq] at hx
      subst hx
      rw [settle_nodes]
      refine turn_update (fun _ => id)
        (turn_settle hok.1 fun _ _ n' hon hraft hleaders hsnapshots => ?_)
      rw [spawned_attemptToElect, List.append_nil] at hleaders
      exact .elect (.retry v crashAt) rfl n' hok.1 hon hraft hleaders hsnapshots
  | deliver k crashAt =>
      simp only [exec] at hx
      cases hd : c.net[k]? with
      | none => simp [hd] at hx
      | some d =>
          simp only [hd] at hx
          split_ifs at hx with hok
          simp only [Option.some.injEq] at hx
          subst hx
          rw [settle_nodes]
          refine turn_update (fun hs => ?_) (turn_settle hok ?_)
          · rintro ⟨d', hd', hdst⟩
            rw [hd, Option.some.injEq] at hd'
            exact hs (hd' ▸ hdst.symm)
          rintro rfl hf n' hon hraft hleaders hsnapshots
          exact .packet k d n' hok hon hd rfl hf hraft hleaders hsnapshots
  | drop k =>
      simp only [exec] at hx
      split_ifs at hx
      simp only [Option.some.injEq] at hx
      subst hx
      cases hup : (c.nodes s).up with
      | true => exact .idle _ id _ hup hup rfl rfl rfl
      | false => exact .down _ _ hup (Or.inl ⟨hup, rfl⟩)
  | append v e crashAt =>
      simp only [exec] at hx
      split_ifs at hx with hok
      simp only [Option.some.injEq] at hx
      subst hx
      rw [settle_nodes]
      refine turn_update (fun _ => id) (turn_settle hok ?_)
      rintro rfl hf n' hon hraft hleaders hsnapshots
      rw [spawned_appendEntry, List.append_nil] at hleaders
      exact .append e n' hok hon hf hraft hleaders hsnapshots
  | leaderThread v k =>
      simp only [exec] at hx
      split at hx
      · rename_i t hok ht
        simp only [Option.some.injEq] at hx
        subst hx
        rw [settle_nodes]
        refine turn_update (fun _ => id)
          (turn_settle hok fun _ hf n' hon hraft hleaders hsnapshots => ?_)
        rw [spawned_leaderStep, List.append_nil] at hleaders
        exact .sender k t n' hok hon ht hf hraft hleaders hsnapshots
      · exact absurd hx (by simp)
  | snapshotThread v k crashAt =>
      simp only [exec] at hx
      split at hx
      · rename_i pc hok hpc
        simp only [Option.some.injEq] at hx
        subst hx
        rw [settle_nodes]
        refine turn_update (fun hs hv => hs hv.symm) (turn_settle hok ?_)
        rintro rfl hf n' hon hraft hleaders hsnapshots
        rw [spawned_snapshotStep, List.append_nil] at hleaders
        exact .snapshot k pc n' hok hon hpc hf hraft hleaders hsnapshots
      · exact absurd hx (by simp)
  | crash v =>
      simp only [exec] at hx
      split_ifs at hx
      simp only [Option.some.injEq] at hx
      subst hx
      simp only [Function.update_apply]
      exact turn_update (fun _ => id) (.down _ _ rfl (Or.inr ⟨rfl, rfl⟩))
  | restart v =>
      simp only [exec] at hx
      split at hx
      · rename_i st hdown hst
        simp only [Option.some.injEq] at hx
        subst hx
        rw [settle_nodes]
        refine turn_update (fun _ => id)
          (turn_settle rfl fun _ hf n' hon hraft hleaders hsnapshots => ?_)
        rw [spawned_quiet (serverRestore_quiet st), List.append_nil] at hleaders
        exact .restart st n' hdown hon hst (hraft.trans (serverRestore_ok hf)) hleaders hsnapshots
      · exact absurd hx (by simp)

end Cluster

/-- A server that is down has no threads. -/
def Node.Quiet (n : Node) : Prop :=
  n.up = false → n.leaderThreads = [] ∧ n.snapshotThreads = []

theorem NodeTurn.quiet {c : Cluster} {s : Server} {n n' : Node} {x : Action}
    (h : NodeTurn c s n x n') (hn : n.Quiet) : n'.Quiet := by
  intro hdown
  cases h with
  | down _ _ _ hidle =>
      rcases hidle with ⟨hold, rfl⟩ | hnone
      · exact hn hold
      · exact hnone
  | idle _ _ _ _ hon => exact absurd (hon.symm.trans hdown) (by simp)
  | elect _ _ _ _ hon => exact absurd (hon.symm.trans hdown) (by simp)
  | packet _ _ _ _ hon => exact absurd (hon.symm.trans hdown) (by simp)
  | append _ _ _ hon => exact absurd (hon.symm.trans hdown) (by simp)
  | sender _ _ _ _ hon => exact absurd (hon.symm.trans hdown) (by simp)
  | snapshot _ _ _ _ hon => exact absurd (hon.symm.trans hdown) (by simp)
  | restart _ _ _ hon => exact absurd (hon.symm.trans hdown) (by simp)

end RaftLock

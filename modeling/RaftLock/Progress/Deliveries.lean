import RaftLock.Raft.Threads

/-!
Runs in which nothing goes wrong.

Some servers take steps among themselves. None of them crashes, the network
loses none of their datagrams and delivers those that are asked for. The other
servers need not be there. What such a step leaves alone is most of the
cluster, and a run is put together from steps by saying of each what it adds.
-/

namespace RaftLock

open Outcome

/-- Steps of the servers of `M` without a crash, and datagrams between them; no
client comes in between, and no snapshot is installed. -/
def Within (M : Finset Server) (c : Cluster) : Action → Prop
  | .timeout s => s ∈ M
  | .elect s crashAt => s ∈ M ∧ crashAt = none
  | .retry s crashAt => s ∈ M ∧ crashAt = none
  | .leaderThread s _ => s ∈ M
  | .deliver k crashAt => crashAt = none ∧
      ∀ d ∈ c.net[k]?, d.src ∈ M ∧ d.dst ∈ M ∧ ∀ q, d.packet ≠ .installSnapshot q
  | _ => False

/-- A follower, or a candidate that too few servers have told that it is behind:
its next election may start. -/
def Stands (r : RaftState) : Prop :=
  r.state = .follower ∨ (r.state = .candidate ∧ r.nblocked * 2 < (nServers : ℤ))

namespace Cluster

/-- Server `s` has run a section to its end, and the others have not moved. -/
structure Ran (c : Cluster) (s : Server) (o : Outcome) (answers : Option Packet)
    (c' : Cluster) : Prop where
  other : ∀ v, v ≠ s → c'.nodes v = c.nodes v
  up : (c'.nodes s).up = true
  raft : (c'.nodes s).raft = o.raft
  threads : (c'.nodes s).leaderThreads = (c.nodes s).leaderThreads ++ spawned o.effects
  kept : ∀ d ∈ c.net, d.dst ≠ s → d ∈ c'.net
  sent : ∀ dst packet, .send dst packet ∈ o.effects → ⟨s, dst, packet, answers⟩ ∈ c'.net

variable {M : Finset Server} {c c₁ : Cluster} {s : Server} {n : Node} {o : Outcome}
  {answers : Option Packet}

theorem ran_settle (hnodes : c₁.nodes = c.nodes) (hnet : ∀ d ∈ c.net, d.dst ≠ s → d ∈ c₁.net)
    (hup : n.up = true) (hthreads : n.leaderThreads = (c.nodes s).leaderThreads)
    (hf : o.fault = false) : c.Ran s o answers (c₁.settle s n o none answers) := by
  have hself : (c₁.settle s n o none answers).nodes s = n.settle o none := by
    rw [settle_nodes, if_pos rfl]
  have hon : (n.settle o none).up = true := by
    rw [Node.settle, if_pos ⟨rfl, hf⟩]
    exact (Node.foldl_perform _ n).2.1.trans hup
  obtain ⟨-, -, hraft, hleaders, -⟩ := Node.settle_threads hon
  refine ⟨fun v hv => ?_, hself ▸ hon, hself ▸ hraft, ?_, fun d hd hdst => ?_,
    fun dst packet hmem => ?_⟩
  · rw [settle_nodes, if_neg hv, hnodes]
  · rw [hself, hleaders, hthreads]
  · exact List.mem_append_left _ (hnet d hd hdst)
  · exact List.mem_append_right _ (List.mem_filterMap.mpr ⟨_, hmem, rfl⟩)

/-- A datagram in flight is delivered. -/
theorem ran_deliver {d : Datagram} (hd : d ∈ c.net) (hup : (c.nodes d.dst).up = true)
    (hsrc : d.src ∈ M) (hdst : d.dst ∈ M) (hplain : ∀ q, d.packet ≠ .installSnapshot q)
    (hf : (handlePacket (c.nodes d.dst).raft d.src d.packet).fault = false) :
    ∃ c', Steps (Within M) c c' ∧
      c.Ran d.dst (handlePacket (c.nodes d.dst).raft d.src d.packet) (some d.packet) c' := by
  obtain ⟨k, hk⟩ := List.mem_iff_getElem?.mp hd
  have hstep : c.exec (.deliver k none) = some ({ c with net := c.net.eraseIdx k }.settle d.dst
      { c.nodes d.dst with
        snapshotThreads := (c.nodes d.dst).snapshotThreads ++ [SnapshotPc.check] }
      (handlePacket (c.nodes d.dst).raft d.src d.packet) none (some d.packet)) := by
    simp only [exec, hk]
    rw [if_pos hup]
  refine ⟨_, .single ⟨.deliver k none, ⟨rfl, fun x hx => ?_⟩, hstep⟩,
    ran_settle rfl (fun x hx hne => ?_) hup rfl hf⟩
  · obtain rfl := Option.some.inj (hk.symm.trans hx)
    exact ⟨hsrc, hdst, hplain⟩
  · exact List.mem_eraseIdx_of_ne hk hx (by rintro rfl; exact hne rfl)

/-- The listener of a follower sees its read time out. -/
theorem listener_times_out (hs : s ∈ M) (hup : (c.nodes s).up = true)
    (hfollower : (c.nodes s).raft.state = .follower) :
    ∃ c', Steps (Within M) c c' ∧ (∀ v, v ≠ s → c'.nodes v = c.nodes v) ∧
      c'.nodes s = { c.nodes s with timedOut := true } ∧ c'.net = c.net := by
  refine ⟨{ c with nodes := Function.update c.nodes s { c.nodes s with timedOut := true } },
    .single ⟨.timeout s, hs, ?_⟩, fun v hv => Function.update_of_ne hv .., Function.update_self ..,
    rfl⟩
  simp only [exec]
  rw [if_pos ⟨hup, hfollower⟩]

/-- A server that may stand does. -/
theorem ran_elect (hs : s ∈ M) (hup : (c.nodes s).up = true) (hstands : Stands (c.nodes s).raft) :
    ∃ c', Steps (Within M) c c' ∧ c.Ran s (attemptToElect (c.nodes s).raft) none c' := by
  rcases hstands with hfollower | hcandidate
  · obtain ⟨c₁, hsteps, hother, hself, hnet⟩ := listener_times_out hs hup hfollower
    have helect : c₁.exec (.elect s none) = some (c₁.settle s
        { c.nodes s with timedOut := false } (attemptToElect (c.nodes s).raft) none none) := by
      simp only [exec, hself, hup, and_self, if_true]
    have hran : c₁.Ran s (attemptToElect (c.nodes s).raft) none (c₁.settle s
        { c.nodes s with timedOut := false } (attemptToElect (c.nodes s).raft) none none) :=
      ran_settle rfl (fun d hd _ => hd) hup (by rw [hself]) rfl
    refine ⟨_, hsteps.tail ⟨.elect s none, ⟨hs, rfl⟩, helect⟩,
      fun v hv => (hran.other v hv).trans (hother v hv), hran.up, hran.raft, ?_,
      fun d hd hdst => hran.kept d (hnet ▸ hd) hdst, hran.sent⟩
    rw [hran.threads, hself]
  · have hretry : c.exec (.retry s none) = some (c.settle s (c.nodes s)
        (attemptToElect (c.nodes s).raft) none none) := by
      simp only [exec]
      rw [if_pos ⟨hup, hcandidate⟩]
    exact ⟨_, .single ⟨.retry s none, ⟨hs, rfl⟩, hretry⟩,
      ran_settle rfl (fun d hd _ => hd) hup rfl rfl⟩

/-- A leader thread between two rounds sends its request. -/
theorem ran_send {f : Server} (hs : s ∈ M) (hup : (c.nodes s).up = true)
    (ht : ⟨f, .idle⟩ ∈ (c.nodes s).leaderThreads) (hleader : (c.nodes s).raft.state = .leader)
    (hnext : (c.nodes s).raft.startLogIndex ≤
      (c.nodes s).raft.nextIndex ((c.nodes s).raft.config f))
    (hf : (sendAppendEntryRequest (c.nodes s).raft f).fault = false) :
    ∃ c', Steps (Within M) c c' ∧
      c.Ran s (sendAppendEntryRequest (c.nodes s).raft f) none c' := by
  obtain ⟨k, hk⟩ := List.mem_iff_getElem?.mp ht
  have hstep : leaderStep (c.nodes s).raft (c.nodes s).files ⟨f, .idle⟩ =
      (sendAppendEntryRequest (c.nodes s).raft f, some .idle) := by
    simp only [leaderStep]
    rw [if_neg (not_not_intro hleader), if_neg (not_lt.mpr hnext)]
  have hsame : List.replaceAt (c.nodes s).leaderThreads k (some ⟨f, .idle⟩) =
      (c.nodes s).leaderThreads := by
    obtain ⟨hlt, heq⟩ := List.getElem?_eq_some_iff.mp hk
    simp only [List.replaceAt, ← heq, List.set_getElem_self]
  have hexec : c.exec (.leaderThread s k) = some (c.settle s
      { c.nodes s with leaderThreads := (c.nodes s).leaderThreads }
      (sendAppendEntryRequest (c.nodes s).raft f) none none) := by
    simp only [exec, hup, hk, hstep]
    simp only [Option.map_some, hsame]
  exact ⟨_, .single ⟨.leaderThread s k, hs, hexec⟩,
    ran_settle rfl (fun d hd _ => hd) hup rfl hf⟩

end Cluster

end RaftLock

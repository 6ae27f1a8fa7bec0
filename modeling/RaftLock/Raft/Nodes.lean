import RaftLock.Raft.Refinement

/-!
One server's part in a step of the cluster.

Whatever happens in the cluster, a server stays as it is, runs one of its
sections, crashes or is restarted (`Cluster.exec_node`). Facts about a single
server, such as the calls of its commit handler, are proved from this.
-/

namespace RaftLock

open Outcome

/-- Two states of a server that differ in its threads at most. -/
structure Node.Same (n n' : Node) : Prop where
  raft : n'.raft = n.raft
  saved : n'.saved = n.saved
  files : n'.files = n.files
  up : n'.up = n.up
  applied : n'.applied = n.applied

theorem Node.Same.refl (n : Node) : n.Same n := ⟨rfl, rfl, rfl, rfl, rfl⟩

/-- The listener or the election thread of `s` starts an election. -/
def Action.elects (s : Server) : Action → Prop
  | .elect v _ | .retry v _ => v = s
  | _ => False

/-- The sections of a running server in state `r`; a packet is the one the
action delivers. -/
inductive Runs (g : Guard) (c : Cluster) (s : Server) (r : RaftState) : Action → Outcome → Prop
  | elect (x : Action) (hx : x.elects s) : Runs g c s r x (attemptToElect r)
  | packet (k : ℕ) (crashAt : Option ℕ) (d : Datagram) (hd : c.net[k]? = some d) (hs : d.dst = s)
      (hg : g.packet c.commits (arrived r d.packet) d) :
      Runs g c s r (.deliver k crashAt) (handlePacket r d.src d.packet)
  | append (e : LogEntry) (crashAt : Option ℕ) :
      Runs g c s r (.append s e crashAt) (appendEntry r e)
  | sender (k : ℕ) (files : FileSystem) (t : LeaderThread) (hg : g.sender r t) :
      Runs g c s r (.leaderThread s k) (leaderStep r files t).1
  | snapshot (k : ℕ) (crashAt : Option ℕ) (pc : SnapshotPc)
      (hg : ∀ n prev, pc = .shift n prev → g.shift r n) :
      Runs g c s r (.snapshotThread s k crashAt) (snapshotStep r pc).1

/-- What a step of the cluster can do to a server, other than restart it. -/
inductive NodeStep (g : Guard) (c : Cluster) (s : Server) (x : Action) (n : Node) : Node → Prop
  | idle (n' : Node) (hsame : n.Same n') : NodeStep g c s x n n'
  | runs (n₁ : Node) (o : Outcome) (crashAt : Option ℕ) (hsame : n.Same n₁) (hup : n.up = true)
      (hruns : Runs g c s n.raft x o) : NodeStep g c s x n (n₁.settle o crashAt)
  | crash : NodeStep g c s x n n.crash

/-- The server as it is at the start of `Raft_server_restore`. -/
def Node.reloaded (n : Node) (st : RaftState) : Node :=
  { n with up := true, raft := st, applied := [] }

theorem Node.mem_of_performed {o : Outcome} {crashAt : Option ℕ} {x : Effect}
    (h : x ∈ performed o crashAt) : x ∈ o.effects := by
  cases crashAt with
  | none => exact h
  | some k => exact List.mem_of_mem_take h

/-- The state and the fault of a request handler are those of its own part. -/
theorem handlePacket_raft (r : RaftState) (packet : Packet) (addr : Server)
    (h : ∀ q, packet ≠ .response q) :
    (handlePacket r addr packet).raft = (handlePacket (arrived r packet) addr packet).raft ∧
    (handlePacket r addr packet).fault = (handlePacket (arrived r packet) addr packet).fault := by
  obtain ⟨pre, -, heq⟩ := handlePacket_parts r addr packet (Or.inr h)
  rw [heq]
  exact ⟨rfl, rfl⟩

theorem install_fault (r : RaftState) (addr : Server) (q : InstallRequest) :
    (handlePacket r addr (.installSnapshot q)).fault = false := by
  rw [(handlePacket_raft r (.installSnapshot q) addr (by simp)).2]
  exact handleInstallSnapshotRequest_fault (le_arrived r (.installSnapshot q))

theorem Node.settle_raft (n : Node) {o : Outcome} (hf : o.fault = false) :
    (n.settle o none).raft = o.raft := by
  simp [Node.settle, hf]

namespace Cluster

variable {g : Guard} {c c' : Cluster}

theorem settle_nodes (c : Cluster) (v s : Server) (n : Node) (o : Outcome) (crashAt : Option ℕ)
    (answers : Option Packet) : (c.settle v n o crashAt answers).nodes s =
      if s = v then n.settle o crashAt else c.nodes s := by
  simp only [settle, Function.update_apply]

/-- A step in which only server `v` moves. -/
theorem nodeStep_update {v s : Server} {x : Action} {n : Node}
    (hn : NodeStep g c v x (c.nodes v) n) :
    NodeStep g c s x (c.nodes s) (if s = v then n else c.nodes s) := by
  split
  · rename_i h
    exact h ▸ hn
  · exact .idle _ (.refl _)

/-- A step of the cluster: nothing but threads and datagrams change, a server
crashes, a section runs at server `v`, or `v` comes back. Only a handler
answers, and its answers name the request. -/
inductive Executes (g : Guard) (c : Cluster) (x : Action) : Cluster → Prop
  | still (c' : Cluster) (hnodes : ∀ s, (c.nodes s).Same (c'.nodes s))
      (hnet : ∀ d ∈ c'.net, d ∈ c.net) : Executes g c x c'
  | crash (v : Server) :
      Executes g c x { c with nodes := Function.update c.nodes v (c.nodes v).crash }
  | runs (c₁ : Cluster) (v : Server) (n : Node) (o : Outcome) (crashAt : Option ℕ)
      (answers : Option Packet) (hnodes : c₁.nodes = c.nodes) (hnet : ∀ d ∈ c₁.net, d ∈ c.net)
      (hsame : (c.nodes v).Same n) (hup : (c.nodes v).up = true)
      (hruns : Runs g c v (c.nodes v).raft x o)
      (hanswers : ∀ p, answers = some p → ∃ d ∈ c.net, d.dst = v ∧ d.packet = p ∧
        o = handlePacket (c.nodes v).raft d.src p) :
      Executes g c x (c₁.settle v n o crashAt answers)
  | restart (v : Server) (st : RaftState) (hx : x = .restart v) (hdown : (c.nodes v).up = false)
      (hsaved : (c.nodes v).saved = some st) :
      Executes g c x (c.settle v ((c.nodes v).reloaded st) (serverRestore st) none none)

theorem exec_cases {x : Action} (hok : g.allows c x) (hx : c.exec x = some c') :
    Executes g c x c' := by
  cases x with
  | timeout v =>
      simp only [exec] at hx
      split_ifs at hx
      simp only [Option.some.injEq] at hx
      subst hx
      refine .still _ (fun s => ?_) fun d hd => hd
      simp only [Function.update_apply]
      split
      · rename_i hs
        rw [hs]
        exact ⟨rfl, rfl, rfl, rfl, rfl⟩
      · exact .refl _
  | elect v crashAt =>
      simp only [exec] at hx
      split_ifs at hx with hup
      simp only [Option.some.injEq] at hx
      subst hx
      exact .runs c v _ _ crashAt none rfl (fun d hd => hd) ⟨rfl, rfl, rfl, rfl, rfl⟩ hup.1
        (.elect _ rfl) (by simp)
  | retry v crashAt =>
      simp only [exec] at hx
      split_ifs at hx with hup
      simp only [Option.some.injEq] at hx
      subst hx
      exact .runs c v _ _ crashAt none rfl (fun d hd => hd) (.refl _) hup.1 (.elect _ rfl)
        (by simp)
  | deliver k crashAt =>
      simp only [exec] at hx
      cases hd : c.net[k]? with
      | none => simp [hd] at hx
      | some d =>
          simp only [hd] at hx
          split_ifs at hx with hup
          simp only [Option.some.injEq] at hx
          subst hx
          refine .runs { c with net := c.net.eraseIdx k } d.dst _ _ crashAt _ rfl
            (fun d hd => List.mem_of_mem_eraseIdx hd) ⟨rfl, rfl, rfl, rfl, rfl⟩ hup
            (.packet k crashAt d hd rfl (hok d hd)) ?_
          rintro p hp
          cases hp
          exact ⟨d, List.mem_of_getElem? hd, rfl, rfl, rfl⟩
  | drop k =>
      simp only [exec] at hx
      split_ifs at hx
      simp only [Option.some.injEq] at hx
      subst hx
      exact .still _ (fun s => .refl _) fun d hd => List.mem_of_mem_eraseIdx hd
  | append v e crashAt =>
      simp only [exec] at hx
      split_ifs at hx with hup
      simp only [Option.some.injEq] at hx
      subst hx
      exact .runs c v _ _ crashAt none rfl (fun d hd => hd) (.refl _) hup (.append e crashAt)
        (by simp)
  | leaderThread v k =>
      simp only [exec] at hx
      split at hx
      · rename_i t hup ht
        simp only [Option.some.injEq] at hx
        subst hx
        exact .runs c v _ _ none none rfl (fun d hd => hd) ⟨rfl, rfl, rfl, rfl, rfl⟩ hup
          (.sender k _ t (hok t ht)) (by simp)
      · exact absurd hx (by simp)
  | snapshotThread v k crashAt =>
      simp only [exec] at hx
      split at hx
      · rename_i pc hup hpc
        simp only [Option.some.injEq] at hx
        subst hx
        refine .runs c v _ _ crashAt none rfl (fun d hd => hd) ⟨rfl, rfl, rfl, rfl, rfl⟩ hup
          (.snapshot k crashAt pc ?_) (by simp)
        intro n prev hshift
        have hpass := hok pc hpc
        rwa [hshift] at hpass
      · exact absurd hx (by simp)
  | crash v =>
      simp only [exec] at hx
      split_ifs at hx
      simp only [Option.some.injEq] at hx
      subst hx
      exact .crash v
  | restart v =>
      simp only [exec] at hx
      split at hx
      · rename_i st hdown hsaved
        simp only [Option.some.injEq] at hx
        subst hx
        exact .restart v st rfl hdown hsaved
      · exact absurd hx (by simp)

theorem exec_node {x : Action} (hok : g.allows c x) (hx : c.exec x = some c') (s : Server) :
    NodeStep g c s x (c.nodes s) (c'.nodes s) ∨ (x = .restart s ∧ (c.nodes s).up = false ∧
      ∃ st, (c.nodes s).saved = some st ∧
        c'.nodes s = ((c.nodes s).reloaded st).settle (serverRestore st) none) := by
  cases exec_cases hok hx with
  | still _ hnodes => exact Or.inl (.idle _ (hnodes s))
  | crash v =>
      left
      simp only [Function.update_apply]
      exact nodeStep_update .crash
  | runs c₁ v n o crashAt answers hnodes hnet hsame hup hruns hanswers =>
      left
      rw [settle_nodes, hnodes]
      exact nodeStep_update (.runs n o crashAt hsame hup hruns)
  | restart v st heq hdown hsaved =>
      rw [settle_nodes]
      split
      · rename_i hs
        subst hs
        exact Or.inr ⟨heq, hdown, st, hsaved, rfl⟩
      · exact Or.inl (.idle _ (.refl _))

/-- A datagram in flight after a section was so before or is one it sends. -/
theorem mem_settle_net {v : Server} {n : Node} {o : Outcome} {crashAt : Option ℕ}
    {answers : Option Packet} {d : Datagram} (hd : d ∈ (c.settle v n o crashAt answers).net) :
    d ∈ c.net ∨ (d.src = v ∧ d.answers = answers ∧
      .send d.dst d.packet ∈ Node.performed o crashAt) := by
  exact (List.mem_append.mp hd).imp id mem_sentBy

/-- A datagram in flight after a step was so before or is sent by the section
that ran. -/
theorem exec_net {x : Action} (hok : g.allows c x) (hx : c.exec x = some c') {d : Datagram}
    (hd : d ∈ c'.net) : d ∈ c.net ∨ ∃ o, (c.nodes d.src).up = true ∧
      Runs g c d.src (c.nodes d.src).raft x o ∧ .send d.dst d.packet ∈ o.effects := by
  cases exec_cases hok hx with
  | still _ hnodes hnet => exact Or.inl (hnet d hd)
  | crash v => exact Or.inl hd
  | runs c₁ v n o crashAt answers hnodes hnet hsame hup hruns hanswers =>
      rcases mem_settle_net hd with hd | ⟨hsrc, -, hmem⟩
      · exact Or.inl (hnet d hd)
      · rw [hsrc]
        exact Or.inr ⟨o, hup, hruns, Node.mem_of_performed hmem⟩
  | restart v st heq hdown hsaved =>
      rcases mem_settle_net hd with hd | ⟨-, -, hmem⟩
      · exact Or.inl hd
      · exact absurd (serverRestore_quiet st _ hmem) (by simp [Effect.isQuiet])

/-- An answer that is new in flight was sent by the handler of its request. -/
theorem exec_answers {x : Action} (hok : g.allows c x) (hx : c.exec x = some c') {d : Datagram}
    (hd : d ∈ c'.net) {p : Packet} (hp : d.answers = some p) :
    d ∈ c.net ∨ ∃ (q : Datagram) (n : Node) (crashAt : Option ℕ),
      q ∈ c.net ∧ q.packet = p ∧ d.src = q.dst ∧ n.up = true ∧
      .send d.dst d.packet ∈
        Node.performed (handlePacket (c.nodes q.dst).raft q.src p) crashAt ∧
      c'.nodes q.dst = n.settle (handlePacket (c.nodes q.dst).raft q.src p) crashAt := by
  cases exec_cases hok hx with
  | still _ hnodes hnet => exact Or.inl (hnet d hd)
  | crash v => exact Or.inl hd
  | runs c₁ v n o crashAt answers hnodes hnet hsame hup hruns hanswers =>
      rcases mem_settle_net hd with hd | ⟨hsrc, hmine, hmem⟩
      · exact Or.inl (hnet d hd)
      · rw [hp] at hmine
        obtain ⟨q, hq, rfl, hpacket, rfl⟩ := hanswers p hmine.symm
        refine Or.inr ⟨q, n, crashAt, hq, hpacket, hsrc, hsame.up.trans hup, hmem, ?_⟩
        rw [settle_nodes, if_pos rfl]
  | restart v st heq hdown hsaved =>
      rcases mem_settle_net hd with hd | ⟨-, hnone, -⟩
      · exact Or.inl hd
      · rw [hp] at hnone
        exact absurd hnone (by simp)

end Cluster

/-! ### A section that runs to its end -/

namespace Node

theorem applied_foldl (es : List Effect) (n : Node) :
    (es.foldl perform n).applied = n.applied ++ turnsOf es := by
  induction es generalizing n with
  | nil => simp [turnsOf]
  | cons x es ih =>
      rw [List.foldl_cons, ih]
      cases x <;> simp [perform, turnsOf]

/-- A server that is up after a section has run it to its end. -/
theorem settle_up {n : Node} {o : Outcome} {crashAt : Option ℕ}
    (hup : (n.settle o crashAt).up = true) :
    o.fault = false ∧ (n.settle o crashAt).raft = o.raft ∧
      (n.settle o crashAt).applied = n.applied ++ turnsOf o.effects := by
  unfold settle at hup ⊢
  simp only at hup ⊢
  split_ifs at hup ⊢ with hwhole
  · obtain ⟨rfl, hf⟩ := hwhole
    exact ⟨hf, rfl, applied_foldl o.effects n⟩
  · exact absurd hup (by simp [crash])

end Node

end RaftLock

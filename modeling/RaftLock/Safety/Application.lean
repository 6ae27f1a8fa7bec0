import RaftLock.Raft.Nodes
import RaftLock.Safety.LogMatching

/-!
The calls of the commit handler, in runs without snapshots.

Between two restarts a server goes through its log once, in order, as long as
no request moves its commit index back. A request that carries an entry sets
the commit index to the entry's own index at most, whatever it was before: a
late copy of a request about an entry before the commit index, sent when the
leader had already committed more than the follower now has, lowers it, and
the next request has the handler called for the same entries again.
-/

namespace RaftLock

open Outcome

/-- An accepted request that carries an entry and news of a commit is not
about an entry before the commit index. -/
def Forward (r : RaftState) (d : Datagram) : Prop :=
  match d.packet with
  | .append q => consistent r q → q.entriesN ≠ 0 → r.commitIndex < q.leaderCommit →
      r.commitIndex ≤ q.prevLogIndex + 1
  | _ => True

/-- Runs without snapshots in which no commit index is moved back. -/
abbrev orderly : Guard where
  packet _ r d := Forward r d ∧ ¬ Installs r d
  sender _ _ := True
  shift _ _ := False

theorem orderly_plain : orderly.Plain := ⟨And.right, id⟩

/-! ### One section -/

/-- The section goes through the log from the commit index on, up to the new
one. -/
structure CommitsThrough (r r' : RaftState) (es : List Effect) : Prop where
  le : r.commitIndex ≤ r'.commitIndex
  indices : (turnsOf es).map Prod.fst =
    (List.range (r'.commitIndex - r.commitIndex).toNat).map fun k : ℕ => r.commitIndex + 1 + (k : ℤ)
  entry : ∀ x ∈ turnsOf es, getLog r' x.1 = some x.2

section CommitsThrough

variable {r r₁ r' : RaftState} {es : List Effect}

theorem turnsOf_append (es es' : List Effect) : turnsOf (es ++ es') = turnsOf es ++ turnsOf es' :=
  List.filterMap_append

theorem turnsOf_ofTurn (l : List (ℤ × LogEntry)) : turnsOf (l.map Effect.ofTurn) = l := by
  rw [turnsOf, List.filterMap_map]
  exact List.filterMap_some

theorem turnsOf_late (h : ∀ x ∈ es, x.isLate) : turnsOf es = [] := by
  refine List.filterMap_eq_nil_iff.mpr fun x hx => ?_
  cases x with
  | commit i e => exact absurd (h _ hx) (by simp [Effect.isLate])
  | _ => rfl

theorem CommitsThrough.idle (hturns : turnsOf es = []) (hcommit : r'.commitIndex = r.commitIndex) :
    CommitsThrough r r' es where
  le := hcommit.ge
  indices := by simp [hturns, hcommit]
  entry x hx := absurd hx (by simp [hturns])

/-- `Raft_commit_update` to `n`, on a log that stays as it is from there on. -/
theorem CommitsThrough.commit {n : ℤ} (hc : Committable r₁ n)
    (hsame : r₁.commitIndex = r.commitIndex)
    (hle : r.commitIndex ≤ n) (hturns : turnsOf es = commitTurns r₁ n)
    (hcommit : r'.commitIndex = n) (hlog : ∀ i, getLog r' i = getLog r₁ i) :
    CommitsThrough r r' es where
  le := hcommit ▸ hle
  indices := by
    rw [hturns, commitTurns, List.map_map, hcommit, hsame]
    rfl
  entry x hx := by
    rw [hturns] at hx
    rw [hlog]
    exact (mem_commitTurns hc hx).2.2

/-- The first part of a handler commits nothing. -/
theorem CommitsThrough.after {pre : List Effect} (h : CommitsThrough r₁ r' es)
    (hsame : r₁.commitIndex = r.commitIndex) (hpre : turnsOf pre = []) :
    CommitsThrough r r' (pre ++ es) where
  le := hsame ▸ h.le
  indices := by rw [turnsOf_append, hpre, List.nil_append, h.indices, hsame]
  entry x hx := by
    rw [turnsOf_append, hpre, List.nil_append] at hx
    exact h.entry x hx

theorem commitTarget_ge {q : AppendRequest} (hback : q.entriesN ≠ 0 →
    r.commitIndex < q.leaderCommit → r.commitIndex ≤ q.prevLogIndex + 1) :
    r.commitIndex ≤ commitTarget r q := by
  unfold commitTarget
  split_ifs with hnews hn hcut
  · omega
  · exact hback hn (by omega)
  · omega
  · exact le_rfl

theorem Handled.advances {d : Datagram} (h : Handled r d.src d.packet r' es) (hfwd : Forward r d)
    (hno : ¬ Installs r d) : CommitsThrough r r' es := by
  obtain ⟨pk, hp⟩ : ∃ pk, d.packet = pk := ⟨_, rfl⟩
  rw [hp] at h
  cases h with
  | voteRefused q success es hs hes =>
      refine .idle ?_ rfl
      rcases hes with rfl | rfl <;> rfl
  | installDone q hterm hi hd es hes =>
      refine absurd ?_ hno
      simp only [Installs, hp]
      exact ⟨hi, hd⟩
  | heartbeat q hterm hc hn hcommit =>
      refine .commit hcommit rfl (commitTarget_ge fun h0 => absurd hn h0) ?_ rfl fun _ => rfl
      rw [turnsOf_append, turnsOf_ofTurn]
      exact List.append_nil _
  | entryStored q hterm hc hn hlo hhi hroom hcommit =>
      simp only [Forward, hp] at hfwd
      refine .commit hcommit rfl (commitTarget_ge fun _ => hfwd hc hn) ?_ rfl fun _ => rfl
      rw [turnsOf_append, turnsOf_ofTurn]
      exact List.append_nil _
  | entryCounted q hterm hstate hid hnext hlt hs hnew hown hroom n hn hcommit r' hr' =>
      have hle : r.commitIndex ≤ n := by
        rw [hn]
        unfold countTarget
        split_ifs
        · omega
        · exact le_rfl
      subst hr'
      refine .commit hcommit rfl hle ?_ rfl fun _ => rfl
      rw [turnsOf_append, turnsOf_ofTurn]
      exact List.append_nil _
  | installChunk q hterm hi hd r' hr' =>
      subst hr'
      exact .idle rfl rfl
  | voteDecided q hterm hstate hs hmany hlo hroom r' hr' =>
      subst hr'
      exact .idle rfl rfl
  | installAnswered q hterm hstate hid hnext r' hr' =>
      subst hr'
      exact .idle rfl rfl
  | appendAnswered q hterm hstate hid hnext next hans r' hr' =>
      subst hr'
      exact .idle rfl rfl
  | entryAnswered q hterm hstate hid hnext hlt hs hskip r' hr' =>
      subst hr'
      exact .idle rfl rfl
  | _ => exact .idle rfl rfl

theorem arrived_commitIndex (r : RaftState) (packet : Packet) :
    (arrived r packet).commitIndex = r.commitIndex := by
  unfold arrived
  split_ifs
  · exact (convertToFollower_follows r _).commitIndex
  · rfl

theorem Arrives.turnsOf {packet : Packet} {pre : List Effect} (h : Arrives r packet pre) :
    turnsOf pre = [] := by
  refine List.filterMap_eq_nil_iff.mpr fun x hx => ?_
  rcases h.mem hx with rfl | ⟨rfl, -⟩ <;> rfl

theorem handlePacket_advances {d : Datagram}
    (hf : (handlePacket r d.src d.packet).fault = false)
    (hfwd : Forward (arrived r d.packet) d) (hno : ¬ Installs (arrived r d.packet) d) :
    CommitsThrough r (handlePacket r d.src d.packet).raft
      (handlePacket r d.src d.packet).effects := by
  by_cases hlate : r.currentTerm < d.packet.term ∧ ∃ q, d.packet = .response q
  · obtain ⟨hlt, q, hq⟩ := hlate
    rw [hq] at hlt ⊢
    rw [handleResponse_later hlt]
    exact .idle (Arrives.later hlt).turnsOf (arrived_commitIndex r _)
  · have hreq : d.packet.term ≤ r.currentTerm ∨ ∀ q, d.packet ≠ .response q := by
      by_cases hlt : r.currentTerm < d.packet.term
      · exact Or.inr fun q hq => hlate ⟨hlt, q, hq⟩
      · exact Or.inl (not_lt.mp hlt)
    obtain ⟨pre, hpre, heq⟩ := handlePacket_parts r d.src d.packet hreq
    rw [heq] at hf ⊢
    have hown := (handled (le_arrived r d.packet) hf).advances hfwd hno
    exact hown.after (arrived_commitIndex r _) hpre.turnsOf

theorem Runs.advances {c : Cluster} {s : Server} {x : Action} {o : Outcome}
    (h : Runs orderly c s r x o) (hf : o.fault = false) : CommitsThrough r o.raft o.effects := by
  cases h with
  | elect x hx =>
      refine .idle ?_ rfl
      rw [attemptToElect_eq]
      refine List.filterMap_eq_nil_iff.mpr fun y hy => ?_
      rcases List.mem_cons.mp hy with rfl | hy
      · rfl
      · obtain ⟨i, -, rfl⟩ := List.mem_map.mp hy
        rfl
  | packet k crashAt d hd hs hg => exact handlePacket_advances hf hg.1 hg.2
  | append e crashAt =>
      rcases appendEntry_ok hf with heq | ⟨r', heq, -, -, -, hr'⟩
      · rw [heq]
        exact .idle rfl rfl
      · rw [heq, hr']
        exact .idle rfl rfl
  | sender k files t hg =>
      have hs := leaderStep_sends hf
      exact .idle (turnsOf_late hs.late.2) hs.late.1.commitIndex
  | snapshot k crashAt pc hg =>
      have hsection := snapshotStep_section r pc
      generalize (snapshotStep r pc).1 = o at hsection ⊢
      cases hsection with
      | enter n hpc he => exact .idle rfl rfl
      | shift n prev hpc => exact absurd (hg n prev hpc) id
      | plain _ hraft hes =>
          exact .idle (turnsOf_late fun y hy => (hes y hy).2) (by rw [hraft])

end CommitsThrough

/-! ### Whole runs -/

/-- The indices `0` to `k`. -/
def indicesTo (k : ℤ) : List ℤ := (List.range (k + 1).toNat).map fun i : ℕ => (i : ℤ)

theorem indicesTo_append {k m : ℤ} (hk : -1 ≤ k) (hm : k ≤ m) :
    indicesTo k ++ (List.range (m - k).toNat).map (fun i : ℕ => k + 1 + (i : ℤ)) = indicesTo m := by
  have hlen : (m + 1).toNat = (k + 1).toNat + (m - k).toNat := by omega
  rw [indicesTo, indicesTo, hlen, List.range_add, List.map_append, List.map_map]
  congr 1
  refine List.map_congr_left fun i _ => ?_
  simp only [Function.comp_apply]
  omega

/-- The process has gone through the log once, up to the commit index. -/
structure Node.AppliedInOrder (n : Node) : Prop where
  ge : n.up = true → -1 ≤ n.raft.commitIndex
  indices : n.up = true → n.applied.map Prod.fst = indicesTo n.raft.commitIndex

section Runs

variable {config : Config} {c c' : Cluster} {s : Server} {x : Action}

/-- One step between two restarts. -/
theorem NodeStep.advances {n n' : Node} (h : NodeStep orderly c s x n n') (hup : n'.up = true) :
    n.up = true ∧
      ∃ es, CommitsThrough n.raft n'.raft es ∧ n'.applied = n.applied ++ turnsOf es := by
  cases h with
  | idle n' hsame =>
      refine ⟨hsame.up ▸ hup, [], .idle rfl (by rw [hsame.raft]), ?_⟩
      rw [hsame.applied]
      exact (List.append_nil _).symm
  | runs n₁ o crashAt hsame hup' hruns =>
      obtain ⟨hf, hraft, happlied⟩ := Node.settle_up hup
      refine ⟨hup', o.effects, ?_, ?_⟩
      · rw [hraft]
        exact hruns.advances hf
      · rw [happlied, hsame.applied]
  | crash => exact absurd hup (by simp [Node.crash])

theorem Node.AppliedInOrder.advances {n n' : Node} (h : n.AppliedInOrder) (hup : n.up = true)
    {es : List Effect}
    (ha : CommitsThrough n.raft n'.raft es) (happlied : n'.applied = n.applied ++ turnsOf es) :
    n'.AppliedInOrder where
  ge _ := (h.ge hup).trans ha.le
  indices _ := by
    rw [happlied, List.map_append, h.indices hup, ha.indices]
    exact indicesTo_append (h.ge hup) ha.le

theorem serverRestore_turns {st : RaftState} (hf : (serverRestore st).fault = false) :
    turnsOf (serverRestore st).effects =
      commitTurns { forget st with commitIndex := st.startLogIndex - 1 } st.commitIndex ∧
    Committable { forget st with commitIndex := st.startLogIndex - 1 } st.commitIndex := by
  unfold serverRestore at hf ⊢
  simp only [andThen_emit] at hf ⊢
  obtain ⟨heq, hc⟩ := commitUpdate_ok (fault_of_andThen hf).1
  refine ⟨?_, hc⟩
  have hremove : ∀ l : List ℤ, turnsOf (l.map fun i => Effect.removeSnapshot i) = [] := by
    intro l
    rw [turnsOf, List.filterMap_map]
    exact List.filterMap_eq_nil_iff.mpr fun _ _ => rfl
  rw [heq, turnsOf_append, andThen_emit]
  simp only [turnsOf_append, turnsOf_ofTurn, emit, hremove, List.append_nil]
  have hfiles : ∀ b : List Effect, b = [.copySnapshot st.startLogIndex (-1)] ∨ b = [] →
      turnsOf (.cleanMainFiles :: b) = [] := by
    rintro b (rfl | rfl) <;> rfl
  rw [hfiles _ (by split_ifs <;> simp), List.nil_append]
  rfl

/-- A restarted server goes through its log from the start. -/
theorem Node.reloaded_inOrder {n : Node} {st : RaftState} (hstart : st.startLogIndex = 0)
    (hge : -1 ≤ st.commitIndex) :
    ((n.reloaded st).settle (serverRestore st) none).AppliedInOrder := by
  have hview : ((n.reloaded st).settle (serverRestore st) none).up = true →
      ((n.reloaded st).settle (serverRestore st) none).raft.commitIndex = st.commitIndex ∧
      ((n.reloaded st).settle (serverRestore st) none).applied.map Prod.fst =
        indicesTo st.commitIndex := by
    intro hup
    obtain ⟨hf, hraft, happlied⟩ := Node.settle_up hup
    obtain ⟨hturns, -⟩ := serverRestore_turns hf
    refine ⟨by rw [hraft, serverRestore_ok hf]; rfl, ?_⟩
    rw [happlied, hturns, hstart]
    simp only [Node.reloaded, List.nil_append, commitTurns, List.map_map]
    have := indicesTo_append (k := -1) le_rfl hge
    rw [← this]
    rfl
  refine ⟨fun hup => ?_, fun hup => ?_⟩
  · rw [(hview hup).1]
    exact hge
  · rw [(hview hup).1, (hview hup).2]

theorem commit_update {w : World} (h : ∀ s, -1 ≤ (w.raft s).commitIndex) {r' : RaftState}
    (hr' : (w.raft s).commitIndex ≤ r'.commitIndex) (v : Server) :
    -1 ≤ (Function.update w.raft s r' v).commitIndex := by
  rw [Function.update_apply]
  split
  · exact (h s).trans hr'
  · exact h v

theorem commit_step {w w' : World} (h : ∀ s, -1 ≤ (w.raft s).commitIndex)
    {v : Option (Server × ℤ × Server)} (hstep : World.Step orderly w v w') :
    ∀ s, -1 ≤ (w'.raft s).commitIndex := by
  cases hstep with
  | stepDown s t ht => exact commit_update h (convertToFollower_follows (w.raft s) t).commitIndex.ge
  | campaign s => exact commit_update h le_rfl
  | handle a b d r' es hnet hle hpass hh => exact commit_update h (hh.advances hpass.1 hpass.2).le
  | turns d l hd hpass hl => exact commit_update h le_rfl
  | lose net hsub => exact h
  | append s e hf =>
      refine commit_update h ?_
      rcases appendEntry_ok hf with heq | ⟨r', heq, -, -, -, hr'⟩
      · rw [heq]
        exact le_rfl
      · rw [heq, hr']
        exact le_rfl
  | sender s a b t r' es pc ht hpass hs => exact commit_update h hs.late.1.commitIndex.ge
  | enter s n r' he =>
      obtain ⟨-, rfl⟩ := createSnapshotEnter_some he
      exact commit_update h le_rfl
  | shift s n hn hpass hf => exact absurd hpass id
  | crash s st hst => exact commit_update h hst.commitIndex.ge
  | replay s l hl => exact h

theorem placed_path {w : World} (hpath : World.Path orderly (World.init config) w) :
    Unshifted w ∧ ∀ s, -1 ≤ (w.raft s).commitIndex := by
  induction hpath with
  | refl => exact ⟨unshifted_init config, fun _ => le_rfl⟩
  | tail _ hstep ih =>
      obtain ⟨v, hstep⟩ := hstep
      exact ⟨ih.1.step orderly_plain hstep, commit_step ih.2 hstep⟩

/-- Without snapshots every log starts at `0`, in the memory of a running
server and in the file of one that is down. -/
theorem view_placed (hrun : Cluster.Run config orderly.allows c) (s : Server) :
    (c.nodes s).view.startLogIndex = 0 ∧ -1 ≤ (c.nodes s).view.commitIndex := by
  obtain ⟨w, hpath, href⟩ := (refines_init config).steps hrun
  obtain ⟨hun, hge⟩ := placed_path hpath
  rw [← (href.node s).view]
  exact ⟨hun.start s, hge s⟩

theorem inOrder_run (hrun : Cluster.Run config orderly.allows c) (s : Server) :
    (c.nodes s).AppliedInOrder := by
  induction hrun with
  | refl => exact ⟨fun _ => le_rfl, fun _ => rfl⟩
  | tail hrun hstep ih =>
      obtain ⟨x, hok, hx⟩ := hstep
      rcases Cluster.exec_node hok hx s with hstep | ⟨-, hdown, st, hsaved, heq⟩
      · refine ⟨fun hup => ?_, fun hup => ?_⟩
        · obtain ⟨hup', es, ha, happlied⟩ := hstep.advances hup
          exact (ih.advances hup' ha happlied).ge hup
        · obtain ⟨hup', es, ha, happlied⟩ := hstep.advances hup
          exact (ih.advances hup' ha happlied).indices hup
      · rw [heq]
        have hview := view_placed hrun s
        simp only [Node.view, hdown, hsaved, Bool.false_eq_true, if_false] at hview
        exact Node.reloaded_inOrder hview.1 hview.2

end Runs

instance (r : RaftState) : (d : Datagram) → Decidable (Forward r d)
  | ⟨_, _, .append _, _⟩ => inferInstanceAs (Decidable (_ → _))
  | ⟨_, _, .vote _, _⟩ | ⟨_, _, .installSnapshot _, _⟩ | ⟨_, _, .response _, _⟩ => .isTrue trivial

/-- A running server with commit index `k`. -/
def committedTo (c : Cluster) (s : Server) (k : ℤ) : Bool :=
  (c.nodes s).up && decide ((c.nodes s).raft.commitIndex = k)

end RaftLock

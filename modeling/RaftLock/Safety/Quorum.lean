import RaftLock.Safety.Agreement
import RaftLock.Safety.NextIndex

/-!
A leader commits what a majority holds, in runs without snapshots.

Here one condition is enough: an answer is taken for what it is. A leader's
next index then stays in its log, so no thread ever enters
`Raft_send_snapshot`.
-/

namespace RaftLock

open Consensus Outcome

/-- Runs without snapshots in which an answer is taken for what it is. -/
abbrev confirmed : Guard where
  packet _ r d := Confirms r d ∧ ¬ Installs r d
  sender _ _ := True
  shift _ _ := False

theorem confirmed_plain : confirmed.Plain := ⟨And.right, id⟩

theorem confirmed_refuses : confirmed.Refuses := ⟨fun hpass => hpass.1.refusalFits, id⟩

theorem confirmed_path {config : Config} {w : World} (hinj : Function.Injective config)
    (hvalid : ∀ v, config v ≠ -1) (hpath : World.Path confirmed (World.init config) w) :
    ∃ p C, AgreeInv config w p C ∧ Unshifted w ∧ InRange w := by
  induction hpath with
  | refl => exact ⟨_, _, agreeInv_init config, unshifted_init config, inRange_init config⟩
  | tail _ hstep ih =>
      obtain ⟨p, C, h, hun, hno⟩ := ih
      obtain ⟨v, hstep⟩ := hstep
      obtain ⟨p', C', -, h'⟩ := h.step hinj hvalid (fun p _ _ => hun.guarded confirmed_plain p)
        (fun hpass => hpass.1) (fun s t ht _ _ hfin => by
          simp [Finishes, hno.idle s t ht] at hfin) hstep
      exact ⟨p', C', h', hun.step confirmed_plain hstep, hno.step confirmed_refuses hstep⟩

/-! ### The quorum of a commit -/

/-- The servers that have acknowledged an entry the leader commits hold it
still: a later leader that made one of them give it up would have been elected
without it. -/
theorem AgreeInv.quorum {config : Config} {w : World} {p : Protocol}
    {C : Server → ℤ → Finset Server} (h : AgreeInv config w p C) {d : Datagram}
    (hd : d ∈ w.net) {q : Response} (hp : d.packet = .response q)
    (hconf : Confirms (w.raft d.dst) d) (hq : Quorate (w.raft d.dst) q) :
    ∃ Q : Finset Server, Majority Q ∧ d.dst ∈ Q ∧ ∀ f ∈ Q,
      (p.llog (w.raft d.dst).currentTerm).take ((w.raft d.dst).nextIndex q.id + 1).toNat <+:
        p.log f := by
  have hown := h.sim.own hq.state hq.own hq.lo hq.hi
  have hmaj := h.counts.majority h.sim h.routed hd hp hconf hq
  obtain ⟨k, hk⟩ : ∃ k, k = ((w.raft d.dst).nextIndex q.id + 1).toNat := ⟨_, rfl⟩
  rw [← hk] at hown hmaj ⊢
  have hinv : (p.ack d.dst k).Inv LogEntry.term := by
    refine h.sim.inv.ack ?_ ?_
    · rw [h.sim.term]
      exact hown.le_length
    · rw [h.sim.term, h.sim.leader_log hq.state]
      exact List.take_prefix _ _
  refine ⟨_, hmaj, ?_, fun f hf => ?_⟩
  · simp [Proto.holders, Proto.ack, h.sim.term]
  · have hacks : k ≤ (p.ack d.dst k).acks f (w.raft d.dst).currentTerm := by
      simpa [Proto.holders] using hf
    rcases hinv.kept f _ k hacks hown with hheld | ⟨u, -, hbad⟩
    · exact hheld
    · exact absurd hbad (hinv.not_bad hown hmaj u)

theorem commitIndex_of_fault_count {r : RaftState} {i : ℤ} (hf : (countReplica r i).fault = true) :
    (countReplica r i).raft.commitIndex = r.commitIndex := by
  unfold countReplica at hf ⊢
  split_ifs at hf ⊢ with hnew
  · cases hm : modifyLog r i fun e =>
        { e with nServersReplicated := e.nServersReplicated + 1 } with
    | none => rfl
    | some r' =>
        simp only [hm] at hf ⊢
        obtain ⟨-, -, -, rfl⟩ := modifyLog_some hm
        split_ifs at hf ⊢ with hmany
        · unfold commitUpdate at hf ⊢
          rw [andThen_of_fault hf rfl, commitLoop_raft]
        · rfl
  · rfl

/-- A handler that ends the process has not set the commit index. -/
theorem commitIndex_of_fault {r : RaftState} {addr : Server} {q : Response}
    (hterm : q.term = r.currentTerm) (hstate : r.state = .leader)
    (hf : (handlePacket r addr (.response q)).fault = true) :
    (handlePacket r addr (.response q)).raft.commitIndex = r.commitIndex := by
  have hsame : (noted r q).state = r.state := rfl
  simp only [handlePacket, handleResponse_eq hterm, hsame, hstate] at hf ⊢
  split_ifs at hf ⊢ with hid hnext
  · rfl
  · unfold handleAppendResponse at hf ⊢
    have hsave := andThen_of_fault hf rfl
    rw [hsave] at hf ⊢
    split_ifs at hf ⊢ with hs hlt
    · rfl
    · have hnote := andThen_of_fault hf rfl
      rw [hnote] at hf ⊢
      exact commitIndex_of_fault_count hf
    · rfl
  · rfl

theorem term_of_raise {r : RaftState} {addr : Server} {q : Response}
    (h : (handlePacket r addr (.response q)).raft.commitIndex ≠ r.commitIndex) :
    q.term = r.currentTerm := by
  by_contra hne
  apply h
  simp only [handlePacket, handleResponse]
  by_cases hold : r.currentTerm > q.term
  · rw [if_pos hold]
    rfl
  · rw [if_neg hold, if_pos (by omega)]
    simp only [Outcome.andThen, convertToFollower_fault, Bool.false_eq_true, if_false]
    exact (convertToFollower_follows r q.term).commitIndex

/-- Whenever the handler of an answer raises a leader's commit index to `i`,
more than half of the servers have the leader's entry at `i` in their logs. -/
theorem commit_held_by_quorum {config : Config} (hinj : Function.Injective config)
    (hvalid : ∀ s, config s ≠ -1) {c : Cluster}
    (hrun : Cluster.Run config confirmed.allows c) {d : Datagram} (hd : d ∈ c.net)
    (hup : (c.nodes d.dst).up = true) (hleader : (c.nodes d.dst).raft.state = .leader)
    (hconf : Confirms (c.nodes d.dst).raft d) {q : Response} (hp : d.packet = .response q)
    {r' : RaftState} (hr' : r' = (handlePacket (c.nodes d.dst).raft d.src d.packet).raft)
    (hraise : (c.nodes d.dst).raft.commitIndex < r'.commitIndex) :
    ∃ e, getLog r' r'.commitIndex = some e ∧ ∃ Q : Finset Server,
      nServers / 2 + 1 ≤ Q.card ∧ d.dst ∈ Q ∧ ∀ f ∈ Q, ∃ e',
        getLog (c.nodes f).view r'.commitIndex = some e' ∧ e'.core = e.core := by
  obtain ⟨w, hpath, href⟩ := (refines_init config).steps hrun
  obtain ⟨p, C, hinv, hun, -⟩ := confirmed_path hinj hvalid hpath
  rw [← href.net] at hd
  rw [← (href.node d.dst).raft_eq hup] at hleader hconf hr' hraise
  -- the handler runs to its end and counts the answer
  have hterm : q.term = (w.raft d.dst).currentTerm := by
    rw [hp] at hr'
    exact term_of_raise (hr' ▸ hraise.ne')
  have hf : (handlePacket (w.raft d.dst) d.src d.packet).fault = false := by
    by_contra hfault
    rw [hp] at hfault hr'
    rw [hr', commitIndex_of_fault hterm hleader (by simpa using hfault)] at hraise
    exact lt_irrefl _ hraise
  have hh := handled (by rw [hp]; exact hterm.le) hf
  rw [← hr', hp] at hh
  have hq : Quorate (w.raft d.dst) q := by
    by_contra hno
    rw [hh.commitIndex_of_not_quorate hno] at hraise
    exact lt_irrefl _ hraise
  obtain ⟨Q, hmaj, hself, hheld⟩ := hinv.quorum hd hp hconf hq
  have hlog := hinv.sim.leader_log hleader
  have hstart := (hinv.sim.holds d.dst).start_nonneg
  have hlo := hq.lo
  have hmine := (hinv.sim.holds d.dst).entry _ _ (getLog_of_mem hlo hq.hi)
  rw [hlog] at hmine
  have hr'' := hh.of_quorate hq
  subst hr''
  refine ⟨_, getLog_of_mem hq.lo hq.hi, Q, ?_, hself, fun f hf' => ?_⟩
  · unfold Majority at hmaj
    rw [Fintype.card_fin] at hmaj
    omega
  · have hf := prefix_getElem? (hheld f hf') (i := ((w.raft d.dst).nextIndex q.id).toNat)
      (by rw [List.getElem?_take_of_lt (by omega), hmine])
    have hlt := (List.getElem?_eq_some_iff.mp hf).1
    have hlen := (hinv.sim.holds f).length
    have hget := getLog_of_mem (r := w.raft f) (i := (w.raft d.dst).nextIndex q.id)
      (by rw [hun.start f]; omega) (by omega)
    refine ⟨_, by rw [← (href.node f).view]; exact hget, ?_⟩
    have hentry := (hinv.sim.holds f).entry _ _ hget
    rw [hf, Option.some.injEq] at hentry
    rw [← hentry]
    simp [matched, counted, noted, LogEntry.core]

/-- The commit index of the receiver once it has handled `d`. -/
def commitAfter (c : Cluster) (d : Datagram) : ℤ :=
  (handlePacket (c.nodes d.dst).raft d.src d.packet).raft.commitIndex

/-- Handling the answer `d` raises the commit index of a leader. -/
def raises (c : Cluster) (d : Datagram) : Bool :=
  match d.packet with
  | .response _ => (c.nodes d.dst).up && decide ((c.nodes d.dst).raft.state = .leader ∧
      (c.nodes d.dst).raft.commitIndex < commitAfter c d)
  | _ => false

theorem raises_response {c : Cluster} {d : Datagram} (h : raises c d = true) :
    (∃ q, d.packet = .response q) ∧ (c.nodes d.dst).up = true ∧
      (c.nodes d.dst).raft.state = .leader ∧
      (c.nodes d.dst).raft.commitIndex < commitAfter c d := by
  unfold raises at h
  split at h
  · rename_i q hp
    rw [Bool.and_eq_true, decide_eq_true_eq] at h
    exact ⟨⟨q, hp⟩, h⟩
  · exact absurd h (by simp)

/-- The answer of server `2` to the leader's own entry is on its way, that of
server `1` is counted. -/
def beforeCommit : List Action := firstElection ++ exchange ++ exchange.take 5

set_option maxRecDepth 10000 in
theorem beforeCommit_runs : ((Cluster.init plainConfig).execWhile
    (fun c x => decide (confirmed.allows c x)) beforeCommit).any
    (fun c => c.net.any fun d => raises c d && decide (Confirms (c.nodes d.dst).raft d)) =
      true := by
  decide +kernel

theorem first_commit_held : ∃ c, Cluster.Run plainConfig confirmed.allows c ∧
    ∃ d ∈ c.net, raises c d = true ∧ ∃ (e : LogEntry) (Q : Finset Server), 3 ≤ Q.card ∧
      d.dst ∈ Q ∧ ∀ f ∈ Q, ∃ e', getLog (c.nodes f).view (commitAfter c d) = some e' ∧
        e'.core = e.core := by
  obtain ⟨c, hrun, hany⟩ := Machine.exists_of_execWhile confirmed.allows
    (fun _ _ h => of_decide_eq_true h) beforeCommit_runs
  obtain ⟨d, hd, hraises⟩ := List.any_eq_true.mp hany
  rw [Bool.and_eq_true, decide_eq_true_eq] at hraises
  obtain ⟨⟨q, hp⟩, hup, hl, hlt⟩ := raises_response hraises.1
  obtain ⟨e, -, hquorum⟩ :=
    commit_held_by_quorum (by decide) (by decide) hrun hd hup hl hraises.2 hp rfl hlt
  exact ⟨c, hrun, d, hd, hraises.1, e, hquorum⟩

set_option maxRecDepth 10000 in
theorem commitAlone_runs : ((Cluster.init plainConfig).execWhile
    (fun c x => decide (noSnapshots.allows c x)) commitAlone.dropLast).any
    (fun c => c.net.any fun d => raises c d && (List.finRange nServers).all fun f =>
      decide (f ≠ d.dst → getLog (c.nodes f).view (commitAfter c d) = none)) = true := by
  decide +kernel

/-- Without the restriction a leader commits an entry that no other server
has. -/
theorem commit_held_by_leader_alone : ∃ c, Cluster.Run plainConfig noSnapshots.allows c ∧
    ∃ d ∈ c.net, raises c d = true ∧
      ∀ f, f ≠ d.dst → getLog (c.nodes f).view (commitAfter c d) = none := by
  obtain ⟨c, hrun, hany⟩ := Machine.exists_of_execWhile noSnapshots.allows
    (fun _ _ h => of_decide_eq_true h) commitAlone_runs
  obtain ⟨d, hd, hraises⟩ := List.any_eq_true.mp hany
  rw [Bool.and_eq_true] at hraises
  refine ⟨c, hrun, d, hd, hraises.1, fun f hf => ?_⟩
  exact of_decide_eq_true (List.all_eq_true.mp hraises.2 f (List.mem_finRange f)) hf

end RaftLock

import RaftLock.Safety.Bookkeeping

/-!
What the servers take for committed is committed.

A leader that commits has counted a majority, so the protocol can commit with
it (`SimInv.advance`); the followers learn of it from requests that tell the
truth about what their leader has committed (`Known`). `AgreeInv` puts this
together with the books of the leaders, and `AgreeInv.step` shows that a step
keeps it.
-/

namespace RaftLock

open Consensus Outcome

/-- A leader that handles the answer `q` counts it and commits. -/
structure Quorate (r : RaftState) (q : Response) : Prop where
  term : q.term = r.currentTerm
  state : r.state = .leader
  id : q.requestId = r.lastRequestId q.id
  lo : r.startLogIndex ≤ r.nextIndex q.id
  hi : r.nextIndex q.id < r.logCount
  success : q.success ≠ 0
  new : r.nextIndex q.id > r.commitIndex
  own : getLogTerm r (r.nextIndex q.id) = r.currentTerm
  many : ((r.log (r.nextIndex q.id - r.startLogIndex).toNat).nServersReplicated + 1) * 2 >
    (nServers : ℤ)

theorem Handled.of_quorate {r r' : RaftState} {addr : Server} {q : Response}
    {es : List Effect} (h : Handled r addr (.response q) r' es) (hq : Quorate r q) :
    r' = { matched (counted (noted r q) (r.nextIndex q.id)) q.id with
      commitIndex := r.nextIndex q.id } := by
  obtain ⟨hterm, hstate, hid, hlo, hhi, hs, hnew, hown, hmany⟩ := hq
  cases h with
  | responseOld q hold => omega
  | responseUnused q _ hrole =>
      rw [hstate] at hrole
      simp [hid] at hrole
  | voteBlocked q _ hc =>
      rw [hstate] at hc
      exact absurd hc (by simp)
  | voteCounted q _ hc =>
      rw [hstate] at hc
      exact absurd hc (by simp)
  | voteDecided q _ hc =>
      rw [hstate] at hc
      exact absurd hc (by simp)
  | installAnswered q _ _ _ hlt => omega
  | appendAnswered q _ _ _ _ next hans =>
      rcases hans with ⟨h0, -⟩ | ⟨-, hle, -⟩
      · exact absurd h0 hs
      · omega
  | entryAnswered q _ _ _ _ _ _ hskip => exact absurd ⟨hnew, hown⟩ hskip
  | entryCounted q _ _ _ _ _ _ _ _ _ n hn _ r' hr' =>
      rw [hr', hn, countTarget, if_pos hmany]

theorem Handled.commitIndex_of_quorate {r r' : RaftState} {addr : Server} {q : Response}
    {es : List Effect} (h : Handled r addr (.response q) r' es) (hq : Quorate r q) :
    r'.commitIndex = r.nextIndex q.id := by
  rw [h.of_quorate hq]

theorem Handled.commitIndex_of_not_quorate {r r' : RaftState} {addr : Server} {q : Response}
    {es : List Effect} (h : Handled r addr (.response q) r' es) (hq : ¬ Quorate r q) :
    r'.commitIndex = r.commitIndex := by
  cases h with
  | voteDecided q _ _ _ _ _ _ r' hr' =>
      rw [hr']
      rfl
  | installAnswered q _ _ _ _ r' hr' =>
      rw [hr']
      rfl
  | appendAnswered q _ _ _ _ _ _ r' hr' =>
      rw [hr']
      rfl
  | entryAnswered q _ _ _ _ _ _ _ r' hr' =>
      rw [hr']
      rfl
  | entryCounted q hterm hstate hid hlo hhi hs hnew hown _ n hn _ r' hr' =>
      rw [hr', hn, countTarget, if_neg]
      exact fun hmany => hq ⟨hterm, hstate, hid, hlo, hhi, hs, hnew, hown, hmany⟩
  | _ => rfl

theorem Turn.quorate {r : RaftState} {q : Response} {i : ℤ} {e : LogEntry}
    (h : Turn r (.response q) i e) : Quorate r q ∧ i ≤ r.nextIndex q.id ∧
      ∃ x, getLog r i = some x ∧ e.core = x.core := by
  cases h with
  | counted q i e hterm hstate hid hlo hhi hs hnew hown hmany hlt hle he =>
      refine ⟨⟨hterm, hstate, hid, hlo, hhi, hs, hnew, hown, hmany⟩, hle, ?_⟩
      rcases getLog_counted hlo he with ⟨-, hold⟩ | ⟨-, x, hold, rfl⟩
      · exact ⟨e, hold, rfl⟩
      · exact ⟨x, hold, rfl⟩

section Commitment

variable {config : Config} {w w' : World} {p p' : Protocol} {s : Server} {r' : RaftState}
  {es : List Effect} {C C' : Server → ℤ → Finset Server}

/-! ### Leaders -/

/-- The servers counted for an entry the leader commits, the sender of the
last answer and the leader itself are a majority that has held it. -/
theorem Counts.majority (h : Counts config w p C) (hsim : SimInv config w p)
    (hrouted : Routed config w) {d : Datagram} (hd : d ∈ w.net) {q : Response}
    (hp : d.packet = .response q) (hconf : Confirms (w.raft d.dst) d)
    (hq : Quorate (w.raft d.dst) q) :
    Majority ((p.ack d.dst ((w.raft d.dst).nextIndex q.id + 1).toNat).holders
      (w.raft d.dst).currentTerm ((w.raft d.dst).nextIndex q.id + 1).toNat) := by
  obtain ⟨n, hn⟩ : ∃ n, n = (w.raft d.dst).nextIndex q.id := ⟨_, rfl⟩
  have hbooks := h.books d.dst hq.state
  have hroute := hrouted.net d hd
  have hack := hsim.acknowledged hrouted hd hp hconf hq.term hq.state hq.id hq.lo hq.hi hq.success
  have hnew := hq.new
  rw [← hn] at hnew hack ⊢
  -- the sender is not counted yet, since the leader has not moved past the entry
  have hfresh : d.src ∉ C d.dst n := by
    intro hmem
    have := (hbooks.acked n hnew _ hmem).2.1
    rw [← hroute.id q hp, ← hn] at this
    exact lt_irrefl _ this
  have hself : d.dst ∉ insert d.src (C d.dst n) := by
    intro hmem
    rcases Finset.mem_insert.mp hmem with heq | hmem
    · exact hroute.apart heq.symm
    · exact (hbooks.acked n hnew _ hmem).1 rfl
  have hcard : (insert d.dst (insert d.src (C d.dst n))).card = (C d.dst n).card + 2 := by
    rw [Finset.card_insert_of_notMem hself, Finset.card_insert_of_notMem hfresh]
  have hcounter : ((w.raft d.dst).log (n - (w.raft d.dst).startLogIndex).toNat).nServersReplicated
      ≤ 1 + (C d.dst n).card := by
    refine hbooks.bound n _ hnew (getLog_of_mem (hn ▸ hq.lo) (hn ▸ hq.hi)) ?_
    have hown := hq.own
    have hlo := hq.lo
    have hhi := hq.hi
    rw [← hn] at hown hlo hhi
    unfold getLogTerm at hown
    rwa [if_neg (by omega)] at hown
  have hmany := hq.many
  rw [← hn] at hmany
  refine Majority.mono (Q := insert d.dst (insert d.src (C d.dst n))) ?_ fun f hf => ?_
  · unfold Majority
    rw [hcard, Fintype.card_fin]
    unfold nServers at hmany ⊢
    omega
  · simp only [Proto.holders, Finset.mem_filter, Finset.mem_univ, true_and]
    by_cases hfs : f = d.dst
    · subst hfs
      simp [Proto.ack, hsim.term]
    · simp only [Proto.ack, Function.update_of_ne hfs]
      rcases Finset.mem_insert.mp hf with heq | hf
      · exact absurd heq hfs
      · rcases Finset.mem_insert.mp hf with rfl | hf
        · exact hack
        · exact (hbooks.acked n hnew f hf).2.2.2

/-- The protocol commits with the leader. -/
theorem SimInv.advance (h : SimInv config w p) (hl : (w.raft s).state = .leader) {n : ℕ}
    (hown : p.Own LogEntry.term (w.raft s).currentTerm n)
    (hmaj : Majority ((p.ack s n).holders (w.raft s).currentTerm n)) :
    ∃ p', Proto.Steps LogEntry.term p p' ∧ SimInv config w p' ∧ p'.Committed s n ∧
      ∀ t, p'.clevel t = p.clevel t ∨
        (t = (w.raft s).currentTerm ∧ p'.clevel t = max (p.clevel t) n) := by
  have hpt := h.term s
  have hlog := h.leader_log hl
  have hlen := hown.le_length
  obtain ⟨k, e, rfl, he, het⟩ := hown
  have hsteps : Proto.Steps LogEntry.term p
      ((p.ack s (k + 1)).commit (w.raft s).currentTerm (k + 1)) := by
    refine .tail (.single (.ack s (k + 1) ?_ ?_)) (.commit _ k e he het hmaj)
    · rwa [hpt]
    · rw [hpt, hlog]
      exact List.take_prefix _ _
  refine ⟨_, hsteps, ⟨h.elect, Proto.Steps.inv h.inv hsteps, h.term, h.nonneg, h.cand_pos, h.holds,
    fun v => Proto.Steps.committed h.inv hsteps (h.covered v), h.leader, h.candidate,
    fun d hd => (h.truthful d hd).steps h.inv hsteps,
    fun v t ht q it hpc => (h.sending v t ht q it hpc).steps h.inv hsteps⟩, ?_, fun t => ?_⟩
  · refine ⟨(w.raft s).currentTerm, hpt.ge, by simp [Proto.commit], ?_⟩
    have : p.log s = p.llog (w.raft s).currentTerm := hlog
    simp only [Proto.commit, Proto.ack, this]
    exact List.take_prefix _ _
  · by_cases ht : t = (w.raft s).currentTerm
    · subst ht
      exact Or.inr ⟨rfl, by simp [Proto.commit, Proto.ack]⟩
    · exact Or.inl (by simp [Proto.commit, Proto.ack, ht])

/-! ### Followers -/

/-- What an append request tells about commitment is true. -/
structure NewsOk (p : Protocol) (q : AppendRequest) : Prop where
  ge : -1 ≤ q.leaderCommit
  committed : p.CommittedAt q.term (q.leaderCommit + 1).toNat
  heartbeat : q.entriesN = 0 → q.leaderCommit ≤ q.prevLogIndex

structure Known (w : World) (p : Protocol) : Prop where
  commit_ge : ∀ s, -1 ≤ (w.raft s).commitIndex
  committed : ∀ s, p.Committed s ((w.raft s).commitIndex + 1).toNat
  opened : ∀ s, ∀ n ∈ w.opened s, 0 ≤ n ∧ p.Committed s n.toNat
  applied : ∀ x ∈ w.commits, 0 ≤ x.2.1 ∧ p.CommittedEntry x.2.1.toNat x.2.2.core
  news : ∀ d ∈ w.net, ∀ q, d.packet = .append q → NewsOk p q

theorem NewsOk.steps {q : AppendRequest} (h : NewsOk p q) (hinv : p.Inv LogEntry.term)
    (hs : Proto.Steps LogEntry.term p p') : NewsOk p' q :=
  ⟨h.ge, Proto.Steps.committedAt hinv hs h.committed, h.heartbeat⟩

theorem Known.steps (h : Known w p) (hinv : p.Inv LogEntry.term)
    (hs : Proto.Steps LogEntry.term p p') : Known w p' where
  commit_ge := h.commit_ge
  committed s := Proto.Steps.committed hinv hs (h.committed s)
  opened s n hn := (h.opened s n hn).imp_right (Proto.Steps.committed hinv hs)
  applied x hx := (h.applied x hx).imp_right (Proto.Steps.committedEntry hinv hs)
  news d hd q hp := (h.news d hd q hp).steps hinv hs

/-- The entries up to the one written. -/
theorem getLog_stored {r : RaftState} {q : AppendRequest} {i : ℤ} {e : LogEntry}
    (hlt : q.prevLogIndex < r.logCount) (hi : i ≤ q.prevLogIndex + 1)
    (h : getLog (stored r q) i = some e) :
    (i = q.prevLogIndex + 1 ∧ e = q.entry) ∨ (i ≤ q.prevLogIndex ∧ getLog r i = some e) := by
  obtain ⟨hlo, -, rfl⟩ := getLog_some h
  simp only [stored] at hlo ⊢
  by_cases heq : i = q.prevLogIndex + 1
  · subst heq
    simp
  · have hne : (i - r.startLogIndex).toNat ≠ (q.prevLogIndex + 1 - r.startLogIndex).toNat := by
      omega
    right
    rw [Function.update_of_ne hne]
    exact ⟨by omega, getLog_of_mem hlo (by omega)⟩

/-- A follower commits what its leader has committed. -/
theorem SimInv.turn_committed (h : SimInv config w p) {v : Server} {q : AppendRequest}
    (hq : AppendOk p v q) (hnews : NewsOk p q) {i : ℤ} {e : LogEntry}
    (ht : Turn (arrived (w.raft s) (.append q)) (.append q) i e) :
    0 ≤ i ∧ p.CommittedEntry i.toNat e.core := by
  have hstart := (h.holds s).start_nonneg
  have hprev := hq.prev_lt
  have hge := hq.prev_ge
  -- an entry of the follower's log that the request goes back to is the leader's
  have hold : consistent (arrived (w.raft s) (.append q)) q → i ≤ q.prevLogIndex →
      i ≤ q.leaderCommit → getLog (w.raft s) i = some e →
      0 ≤ i ∧ p.CommittedEntry i.toNat e.core := by
    intro hc hip hil he
    have hlo := (getLog_some he).1
    have hheld := h.held_of_consistent hq (consistent_of_arrived hc)
    have hlog := getElem?_of_take_prefix hheld (by omega) (i := i.toNat) (by omega)
      ((h.holds s).entry i e he)
    exact ⟨by omega, hnews.committed.entry h.inv (by omega) hlog⟩
  cases ht with
  | heartbeat q i e hterm hc hn hlo hhi he =>
      rw [getLog_arrived] at he
      have := hnews.heartbeat hn
      exact hold hc (by omega) hhi he
  | stored q i e hterm hc hn hlow hlo hhi hhi' he =>
      have hlt : q.prevLogIndex < (arrived (w.raft s) (.append q)).logCount := by
        unfold consistent at hc
        push Not at hc
        exact hc.2.1
      rcases getLog_stored hlt hhi' he with ⟨rfl, rfl⟩ | ⟨hle, he⟩
      · exact ⟨by omega, hnews.committed.entry h.inv (by omega) (hq.entry hn)⟩
      · rw [getLog_arrived] at he
        exact hold hc hle hhi he

/-- A server that is still a leader after a packet has arrived has not taken
over a term. -/
theorem Quorate.arrived_eq {r : RaftState} {packet : Packet} {q : Response}
    (h : Quorate (arrived r packet) q) : arrived r packet = r := by
  rcases Int.lt_or_le r.currentTerm packet.term with hlt | hle
  · have hstate := h.state
    rw [arrived_of_lt hlt, (convertToFollower_follows r packet.term).state] at hstate
    exact absurd hstate (by simp)
  · exact arrived_of_le hle

/-- If the entries a leader is about to commit are committed, then so is
everything a handler commits. -/
theorem Known.turn (h : Known w p) (hsim : SimInv config w p) {d : Datagram} (hd : d ∈ w.net)
    (hq : ∀ q, d.packet = .response q → Quorate (arrived (w.raft d.dst) d.packet) q →
      p.Committed d.dst ((w.raft d.dst).nextIndex q.id + 1).toNat) {i : ℤ} {e : LogEntry}
    (ht : Turn (arrived (w.raft d.dst) d.packet) d.packet i e) :
    0 ≤ i ∧ p.CommittedEntry i.toNat e.core := by
  cases hp : d.packet with
  | append q =>
      have htruth := hsim.truthful d hd
      simp only [Truthful, hp] at htruth
      rw [hp] at ht
      exact hsim.turn_committed htruth (h.news d hd q hp) ht
  | response q =>
      rw [hp] at ht
      obtain ⟨hquorate, hle, x, hx, hcore⟩ := ht.quorate
      have hcom := hq q hp (hp ▸ hquorate)
      rw [hquorate.arrived_eq] at hle hx
      have hlo := (getLog_some hx).1
      have h0 := (hsim.holds d.dst).start_nonneg
      rw [hcore]
      exact ⟨by omega, hcom.entry hsim.inv (by omega) ((hsim.holds d.dst).entry i x hx)⟩
  | vote q =>
      rw [hp] at ht
      cases ht
  | installSnapshot q =>
      rw [hp] at ht
      cases ht

/-- A step of one server. -/
theorem Known.update (h : Known w p) (hraft : w'.raft = Function.update w.raft s r')
    (hge : -1 ≤ r'.commitIndex) (hcommitted : p.Committed s (r'.commitIndex + 1).toNat)
    (hopened : ∀ v, ∀ n ∈ w'.opened v, n ∈ w.opened v ∨ (0 ≤ n ∧ p.Committed v n.toNat))
    (hcommits : ∀ x ∈ w'.commits, x ∈ w.commits ∨
      (0 ≤ x.2.1 ∧ p.CommittedEntry x.2.1.toNat x.2.2.core))
    (hnet : ∀ d ∈ w'.net, d ∈ w.net ∨ ∀ q, d.packet = .append q → NewsOk p q) : Known w' p where
  commit_ge v := by
    by_cases hv : v = s
    · subst hv
      simpa [hraft] using hge
    · simpa [hraft, hv] using h.commit_ge v
  committed v := by
    by_cases hv : v = s
    · subst hv
      simpa [hraft] using hcommitted
    · simpa [hraft, hv] using h.committed v
  opened v n hn := (hopened v n hn).elim (h.opened v n) id
  applied x hx := (hcommits x hx).elim (h.applied x) id
  news d hd q hp := (hnet d hd).elim (fun hold => h.news d hold q hp) fun hnew => hnew q hp

/-- The commit index after a handler. -/
theorem Known.commitIndex (h : Known w p) (hsim : SimInv config w p)
    (hs : Proto.Steps LogEntry.term p p') {d : Datagram} (hd : d ∈ w.net)
    (hq : ∀ q, d.packet = .response q → Quorate (w.raft d.dst) q →
      p.Committed d.dst ((w.raft d.dst).nextIndex q.id + 1).toNat)
    (hh : Handled (w.raft d.dst) d.src d.packet r' es)
    (hsim' : SimInv config w' p') (hraft : w'.raft d.dst = r')
    (hreply : ∀ x ∈ es.filterMap (Cluster.sentBy d.dst (some d.packet)), x ∈ w'.net) :
    -1 ≤ r'.commitIndex ∧ p'.Committed d.dst (r'.commitIndex + 1).toNat := by
  have hge := h.commit_ge d.dst
  have hsame : -1 ≤ (w.raft d.dst).commitIndex ∧
      p'.Committed d.dst ((w.raft d.dst).commitIndex + 1).toNat :=
    ⟨hge, Proto.Steps.committed hsim.inv hs (h.committed d.dst)⟩
  have htruth := hsim.truthful d hd
  obtain ⟨pk, hp⟩ : ∃ pk, d.packet = pk := ⟨_, rfl⟩
  have hcases := hh
  rw [hp] at hcases
  cases pk with
  | response q =>
      by_cases hquorate : Quorate (w.raft d.dst) q
      · rw [hcases.commitIndex_of_quorate hquorate]
        have hnew := hquorate.new
        exact ⟨by omega, Proto.Steps.committed hsim.inv hs (hq q hp hquorate)⟩
      · rw [hcases.commitIndex_of_not_quorate hquorate]
        exact hsame
  | append q =>
      have hnews := h.news d hd q hp
      simp only [Truthful, hp] at htruth
      obtain ⟨y, hone, -, hyt, -, hy⟩ := hcases.answers_append d.dst (some d.packet)
      cases hcases with
      | appendRefused => exact hsame
      | heartbeat q hterm hc hn hcommit =>
          simp only [commitTarget, if_pos hn]
          split_ifs with hgt
          · have hheld := hsim.held_of_consistent htruth hc
            have hle := hnews.heartbeat hn
            refine ⟨hnews.ge, Proto.Steps.committed hsim.inv hs (hnews.committed.committed hsim.inv
              ?_ hheld (by omega))⟩
            rw [hsim.term, hterm]
          · exact hsame
      | entryStored q hterm hc hn hlo hhi hroom hcommit =>
          -- the answer says that the server holds the entry
          have hyok := hsim'.truthful _ (hreply _ (by rw [hone]; exact List.mem_singleton_self _))
          have hpos : 0 < y.success := by
            rcases hy with ⟨-, hno⟩ | ⟨hone, -⟩
            · exact absurd hc hno
            · omega
          have hacks : (q.prevLogIndex + 2).toNat ≤ p'.acks d.dst y.term :=
            (hyok q (by rw [hp])).2 hpos hn
          have hterm' : p'.term d.dst = q.term := by
            rw [hsim'.term, hraft, hterm]
            rfl
          have hheld := hsim'.inv.held d.dst
          rw [hterm'] at hheld
          rw [hyt, ← hterm] at hacks
          simp only [commitTarget, if_neg hn]
          have hstart := (hsim.holds d.dst).start_nonneg
          have hge' := hnews.ge
          have hnews' := (hnews.steps hsim.inv hs).committed
          split_ifs with hgt hclamp
          · exact ⟨by omega, (hnews'.mono (by omega)).committed hsim'.inv hterm'.ge hheld
              (by omega)⟩
          · exact ⟨hge', hnews'.committed hsim'.inv hterm'.ge hheld (by omega)⟩
          · exact hsame
  | vote q =>
      cases hcases with
      | _ => exact hsame
  | installSnapshot q =>
      simp only [Truthful, hp] at htruth
      cases hcases with
      | installRefused => exact hsame
      | installChunk q hterm hi hdone r' hr' =>
          subst hr'
          exact hsame
      | installDone q hterm hi hdone es hes =>
          have hcovered := hsim'.covered d.dst
          rw [hraft] at hcovered
          have h0 := htruth.2.1
          simp only [installDone] at hcovered ⊢
          rw [sub_add_cancel]
          exact ⟨by omega, hcovered⟩

theorem mem_committedBy {x : Server × ℤ × LogEntry}
    (hx : x ∈ es.filterMap (Cluster.committedBy s)) :
    .commit x.2.1 x.2.2 ∈ es := by
  obtain ⟨y, hy, hyx⟩ := List.mem_filterMap.mp hx
  cases y with
  | commit i e =>
      simp only [Cluster.committedBy, Option.some.injEq] at hyx
      subst hyx
      exact hy
  | _ => exact absurd hyx (by simp [Cluster.committedBy])

theorem Known.handle (h : Known w p) (hsim : SimInv config w p)
    (hs : Proto.Steps LogEntry.term p p') {a b : List Datagram} {d : Datagram}
    (hnet : w.net = a ++ d :: b) (hle : d.packet.term ≤ (w.raft d.dst).currentTerm)
    (hq : ∀ q, d.packet = .response q → Quorate (w.raft d.dst) q →
      p.Committed d.dst ((w.raft d.dst).nextIndex q.id + 1).toNat)
    (hh : Handled (w.raft d.dst) d.src d.packet r' es)
    (hsim' : SimInv config ({ w with net := a ++ b }.settle d.dst r' es (some d.packet)) p') :
    Known ({ w with net := a ++ b }.settle d.dst r' es (some d.packet)) p' := by
  have hd : d ∈ w.net := by simp [hnet]
  obtain ⟨hge, hcommitted⟩ := h.commitIndex hsim hs hd hq hh hsim'
    (by simp [World.settle]) fun x hx => by simp only [World.settle, List.mem_append, hx, or_true]
  refine (h.steps hsim.inv hs).update (s := d.dst) rfl hge hcommitted
    (fun v n hn => Or.inl hn) (fun x hx => ?_) fun x hx => ?_
  · simp only [World.settle, List.mem_append] at hx
    refine hx.imp id fun hnew => ?_
    have hturn := hh.turn (mem_committedBy hnew)
    rw [← arrived_of_le hle] at hturn
    have := h.turn hsim hd (fun q hp hquorate => hq q hp (by rwa [arrived_of_le hle] at hquorate))
      hturn
    exact this.imp_right (Proto.Steps.committedEntry hsim.inv hs)
  · rcases mem_settle_net hx with hold | hnew
    · exact Or.inl (mem_handle_net hnet hold)
    · right
      intro q hp
      rcases hh.sent d.dst (some d.packet) with hnil | ⟨y, hone, -⟩
      · rw [hnil] at hnew
        exact absurd hnew (by simp)
      · rw [hone, List.mem_singleton] at hnew
        rw [hnew] at hp
        exact absurd hp (by simp)

theorem SimInv.newsOk (h : SimInv config w p) (hk : Known w p)
    (hstate : (w.raft s).state = .leader) {f : Server} {n : ℤ} {e : LogEntry}
    (hn : n = 0 → (w.raft s).nextIndex ((w.raft s).config f) = (w.raft s).logCount) :
    NewsOk p (appendRequest (w.raft s) f n e) where
  ge := hk.commit_ge s
  committed := h.leader_committed hstate (hk.committed s)
  heartbeat hzero := by
    have hle := (hk.committed s).le_length h.inv
    have hlen := (h.holds s).length
    have hge := hk.commit_ge s
    have := hn hzero
    simp only [appendRequest]
    omega

theorem Sends.newsOk {t : LeaderThread} {pc : Option LeaderPc} (h : Sends (w.raft s) t r' es pc)
    (hsim : SimInv config w p) (hk : Known w p) {d : Datagram}
    (hd : d ∈ es.filterMap (Cluster.sentBy s none)) {q : AppendRequest}
    (hp : d.packet = .append q) : NewsOk p q := by
  cases h with
  | heartbeat hpc hstate hnext heq =>
      simp only [List.filterMap_cons, Cluster.sentBy, List.filterMap_nil,
        List.mem_singleton] at hd
      subst hd
      simp only [Packet.append.injEq] at hp
      subst hp
      exact hsim.newsOk hk hstate fun _ => heq
  | entry hpc hstate hnext e he =>
      simp only [List.filterMap_cons, Cluster.sentBy, List.filterMap_nil,
        List.mem_singleton] at hd
      subst hd
      simp only [Packet.append.injEq] at hp
      subst hp
      exact hsim.newsOk hk hstate fun h0 => absurd h0 (by simp)
  | first | next =>
      simp only [List.filterMap_cons, Cluster.sentBy, List.filterMap_nil,
        List.mem_singleton] at hd
      subst hd
      exact absurd hp (by simp)
  | _ => exact absurd hd (by simp)

/-- A step of one server that keeps its commit index and commits nothing. -/
theorem Known.same (h : Known w p) (hraft : w'.raft = Function.update w.raft s r')
    (hcommit : r'.commitIndex = (w.raft s).commitIndex) (hopened : w'.opened = w.opened)
    (hcommits : w'.commits = w.commits)
    (hnet : ∀ d ∈ w'.net, d ∈ w.net ∨ ∀ q, d.packet = .append q → NewsOk p q) : Known w' p :=
  h.update hraft (hcommit ▸ h.commit_ge s) (hcommit ▸ h.committed s)
    (fun _ _ hn => Or.inl (hopened ▸ hn)) (fun _ hx => Or.inl (hcommits ▸ hx)) hnet

/-- A crash in a handler: the commits stand. -/
theorem Known.turns (h : Known w p) (hsim : SimInv config w p) {d : Datagram} (hd : d ∈ w.net)
    (hq : ∀ q, d.packet = .response q → Quorate (arrived (w.raft d.dst) d.packet) q →
      p.Committed d.dst ((w.raft d.dst).nextIndex q.id + 1).toNat) {l : List (ℤ × LogEntry)}
    (hl : ∀ x ∈ l, Turn (arrived (w.raft d.dst) d.packet) d.packet x.1 x.2) :
    Known { w with
      raft := Function.update w.raft d.dst (forget (w.raft d.dst))
      threads := Function.update w.threads d.dst []
      commits := w.commits ++ l.map fun x => (d.dst, x) } p := by
  refine h.update (s := d.dst) rfl (h.commit_ge d.dst)
    (h.committed d.dst) (fun v n hn => Or.inl hn) (fun x hx => ?_) fun x hx => Or.inl hx
  rcases List.mem_append.mp hx with hold | hnew
  · exact Or.inl hold
  · obtain ⟨y, hy, rfl⟩ := List.mem_map.mp hnew
    exact Or.inr (h.turn hsim hd hq (hl y hy))

theorem Known.enter (h : Known w p) (hsim : SimInv config w p) {n : ℤ}
    (he : createSnapshotEnter (w.raft s) n = some r') :
    Known { w with
      raft := Function.update w.raft s r'
      opened := Function.update w.opened s (n :: w.opened s) } p := by
  obtain ⟨hno, rfl⟩ := createSnapshotEnter_some he
  refine h.update (s := s) rfl (h.commit_ge s) (h.committed s) (fun v m hm => ?_)
    (fun x hx => Or.inl hx) fun d hd => Or.inl hd
  by_cases hv : v = s
  · subst hv
    simp only [Function.update_self, List.mem_cons] at hm
    rcases hm with rfl | hm
    · have hstart := (hsim.holds v).start_nonneg
      exact Or.inr ⟨by omega, (h.committed v).mono (by omega)⟩
    · exact Or.inl hm
  · exact Or.inl (by simpa [hv] using hm)

theorem Known.replay (h : Known w p) (hsim : SimInv config w p) {l : List (ℤ × LogEntry)}
    (hl : ∀ x ∈ l, x.1 ≤ (w.raft s).commitIndex ∧ getLog (w.raft s) x.1 = some x.2) :
    Known { w with commits := w.commits ++ l.map fun x => (s, x) } p := by
  refine ⟨h.commit_ge, h.committed, h.opened, fun x hx => ?_, h.news⟩
  rcases List.mem_append.mp hx with hold | hnew
  · exact h.applied x hold
  · obtain ⟨y, hy, rfl⟩ := List.mem_map.mp hnew
    obtain ⟨hle, hget⟩ := hl y hy
    have hlo := (getLog_some hget).1
    have hstart := (hsim.holds s).start_nonneg
    simp only
    exact ⟨by omega, (h.committed s).entry hsim.inv (by omega)
      ((hsim.holds s).entry _ _ hget)⟩

/-- Everything the agreement of the servers rests on. -/
structure AgreeInv (config : Config) (w : World) (p : Protocol)
    (C : Server → ℤ → Finset Server) : Prop where
  sim : SimInv config w p
  routed : Routed config w
  counts : Counts config w p C
  known : Known w p

/-- The protocol commits with a leader that is about to. -/
theorem AgreeInv.commit (h : AgreeInv config w p C) {d : Datagram} (hd : d ∈ w.net)
    {q : Response} (hp : d.packet = .response q) (hconf : Confirms (w.raft d.dst) d)
    (hq : Quorate (w.raft d.dst) q) :
    ∃ p₀, Proto.Steps LogEntry.term p p₀ ∧ SimInv config w p₀ ∧
      p₀.Committed d.dst ((w.raft d.dst).nextIndex q.id + 1).toNat ∧
      ∀ t, p₀.clevel t = p.clevel t ∨ (t = (w.raft d.dst).currentTerm ∧
        (p₀.clevel t : ℤ) ≤ (w.raft d.dst).nextIndex q.id + 1) := by
  have hown := h.sim.own hq.state hq.own hq.lo hq.hi
  have hmaj := h.counts.majority h.sim h.routed hd hp hconf hq
  obtain ⟨p₀, hs, hsim, hcom, hlevel⟩ := h.sim.advance hq.state hown hmaj
  refine ⟨p₀, hs, hsim, hcom, fun t => (hlevel t).imp id ?_⟩
  rintro ⟨rfl, hmax⟩
  have hold := (h.counts.books d.dst hq.state).level
  have hnew := hq.new
  have hge := h.known.commit_ge d.dst
  exact ⟨rfl, by omega⟩

theorem AgreeInv.step {g : Guard} (hinj : Function.Injective config)
    (hvalid : ∀ v, config v ≠ -1) (h : AgreeInv config w p C)
    (hguard : ∀ p, SimInv config w p → Known w p → Guarded g w p)
    (hconf : ∀ {l r d}, g.packet l r d → Confirms r d)
    (hback : ∀ s, ∀ t ∈ w.threads s, g.sender (w.raft s) t → NoReturn (w.raft s) t)
    {v : Option (Server × ℤ × Server)} (hstep : World.Step g w v w') :
    ∃ p' C', Proto.Steps LogEntry.term p p' ∧ AgreeInv config w' p' C' := by
  have hk := h.known
  obtain ⟨C', hC'⟩ :=
    h.counts.step hinj hvalid h.sim hk.commit_ge h.routed hconf hback hstep
  have hrouted' := h.routed.step h.sim.elect hstep
  -- what is left once the protocol has committed with the leader
  have hgoal : ∀ p₀, Proto.Steps LogEntry.term p p₀ → SimInv config w p₀ →
      (∀ p', Proto.Steps LogEntry.term p₀ p' → SimInv config w' p' → Known w' p') →
      (∀ v, (w'.raft v).state = .leader →
        (p₀.clevel (w'.raft v).currentTerm : ℤ) ≤ (w'.raft v).commitIndex + 1) →
      ∃ p' C', Proto.Steps LogEntry.term p p' ∧ AgreeInv config w' p' C' := by
    intro p₀ hs₀ hsim₀ hknown hlevel
    obtain ⟨p', hs, hcl, hsim'⟩ :=
      hsim₀.step hvalid (hguard p₀ hsim₀ (hk.steps h.sim.inv hs₀)) hstep
    exact ⟨p', C', hs₀.trans hs, hsim', hrouted',
      hC'.steps h.sim.inv (hs₀.trans hs) (hcl ▸ hlevel), hknown p' hs hsim'⟩
  have hquiet : Known w' p →
      ∃ p' C', Proto.Steps LogEntry.term p p' ∧ AgreeInv config w' p' C' := fun hk' =>
    hgoal p .refl h.sim (fun p' hs _ => hk'.steps h.sim.inv hs) fun v hl => (hC'.books v hl).level
  -- the leader of a term is the only one that commits in it
  have hlevel : ∀ {d : Datagram} {q : Response} {p₀ : Protocol}, Quorate (w.raft d.dst) q →
      (∀ t, p₀.clevel t = p.clevel t ∨ (t = (w.raft d.dst).currentTerm ∧
        (p₀.clevel t : ℤ) ≤ (w.raft d.dst).nextIndex q.id + 1)) →
      (∀ v, v ≠ d.dst → w'.raft v = w.raft v) →
      ((w'.raft d.dst).state = .leader →
        (w'.raft d.dst).commitIndex = (w.raft d.dst).nextIndex q.id) →
      ∀ v, (w'.raft v).state = .leader →
        (p₀.clevel (w'.raft v).currentTerm : ℤ) ≤ (w'.raft v).commitIndex + 1 := by
    intro d q p₀ hq hcl hother hself v hl
    rcases hcl (w'.raft v).currentTerm with hsame | ⟨hterm, hle⟩
    · rw [hsame]
      exact (hC'.books v hl).level
    · by_cases hv : v = d.dst
      · subst hv
        rw [hself hl]
        exact hle
      · rw [hother v hv] at hl hterm
        have h1 := h.sim.leader v hl
        rw [hterm, h.sim.leader d.dst hq.state, Option.some.injEq] at h1
        exact absurd h1.symm hv
  cases hstep with
  | stepDown s t ht =>
      exact hquiet (hk.same (s := s) rfl (convertToFollower_follows _ t).commitIndex rfl rfl
        fun d hd => Or.inl hd)
  | campaign s =>
      refine hquiet (hk.same (s := s) rfl rfl rfl ?_ fun d hd => ?_)
      · simp [World.settle, attemptToElect_eq, Cluster.committedBy]
      · refine (mem_settle_net hd).imp id fun hnew q hp => ?_
        obtain ⟨q', hp'⟩ := attemptToElect_sent hnew
        exact absurd (hp'.symm.trans hp) (by simp)
  | handle a b d r' es hnet hle hpass hh =>
      have hd : d ∈ w.net := by simp [hnet]
      by_cases hex : ∃ q, d.packet = .response q ∧ Quorate (w.raft d.dst) q
      · obtain ⟨q, hp, hq⟩ := hex
        obtain ⟨p₀, hs₀, hsim₀, hcom, hcl⟩ := h.commit hd hp (hconf hpass) hq
        refine hgoal p₀ hs₀ hsim₀ (fun p' hs hsim' => ?_) (hlevel hq hcl ?_ ?_)
        · refine (hk.steps h.sim.inv hs₀).handle hsim₀ hs hnet hle (fun q' hp' _ => ?_) hh hsim'
          rw [hp, Packet.response.injEq] at hp'
          exact hp' ▸ hcom
        · exact fun v hv => by simp [World.settle, hv]
        · intro _
          rw [hp] at hh
          simpa [World.settle] using hh.commitIndex_of_quorate hq
      · exact hgoal p .refl h.sim (fun p' hs hsim' => hk.handle h.sim hs hnet hle
          (fun q hp hq => absurd ⟨q, hp, hq⟩ hex) hh hsim') fun v hl => (hC'.books v hl).level
  | turns d l hd hpass hl =>
      by_cases hex : ∃ q, d.packet = .response q ∧
          Quorate (arrived (w.raft d.dst) d.packet) q
      · obtain ⟨q, hp, hq⟩ := hex
        have hsame := hq.arrived_eq
        have hc := hconf hpass
        rw [hsame] at hq hc
        obtain ⟨p₀, hs₀, hsim₀, hcom, hcl⟩ := h.commit hd hp hc hq
        refine hgoal p₀ hs₀ hsim₀ (fun p' hs hsim' => ?_)
          (hlevel hq hcl (fun v hv => by simp [hv]) ?_)
        · refine ((hk.steps h.sim.inv hs₀).turns hsim₀ hd (fun q' hp' _ => ?_) hl).steps
            hsim₀.inv hs
          rw [hp, Packet.response.injEq] at hp'
          exact hp' ▸ hcom
        · intro hl'
          exact absurd hl' (by simp [forget])
      · exact hquiet (hk.turns h.sim hd (fun q hp hq => absurd ⟨q, hp, hq⟩ hex) hl)
  | lose net hsub =>
      exact hquiet ⟨hk.commit_ge, hk.committed, hk.opened, hk.applied,
        fun d hd => hk.news d (hsub.subset hd)⟩
  | append s e hf =>
      rcases appendEntry_ok hf with heq | ⟨r', heq, -, -, -, hr'⟩
      · refine hquiet (hk.same (s := s) rfl (by rw [heq]; rfl) rfl ?_ ?_) <;>
          simp +contextual [World.settle, heq, ret]
      · refine hquiet (hk.same (s := s) rfl (by rw [heq, hr']; rfl) rfl ?_ ?_) <;>
          simp +contextual [World.settle, heq, saveState, emit, Cluster.committedBy,
            Cluster.sentBy]
  | sender s a b t r' es pc ht hpass hs =>
      refine hquiet (hk.same (s := s) rfl hs.keeps_log.2.2.2 rfl ?_ fun d hd =>
        (mem_settle_net hd).imp id fun hnew q hp => hs.newsOk h.sim hk hnew hp)
      cases hs <;> simp [World.settle, Cluster.committedBy]
  | enter s n r' he => exact hquiet (hk.enter h.sim he)
  | shift s n hn hpass hf =>
      obtain ⟨-, heq⟩ := createSnapshotShift_ok hf
      refine hquiet (hk.same (s := s) rfl
        (by rw [heq]; rfl) rfl ?_ ?_) <;>
        simp +contextual [World.settle, heq, saveState, emit, Cluster.committedBy,
          Cluster.sentBy]
  | crash s st hst =>
      exact hquiet (hk.same (s := s) rfl hst.commitIndex rfl rfl fun d hd => Or.inl hd)
  | replay s l hl => exact hquiet (hk.replay h.sim hl)

theorem agreeInv_init (config : Config) :
    AgreeInv config (World.init config) Proto.init fun _ _ => ∅ where
  sim := simInv_init config
  routed := routed_init config
  counts := counts_init config _
  known :=
    { commit_ge := fun _ => le_rfl
      committed := fun s => Proto.committed_zero _ s
      opened := fun s n hn => absurd hn (by simp [World.init])
      applied := fun x hx => absurd hx (by simp [World.init])
      news := fun d hd => absurd hd (by simp [World.init]) }

end Commitment

end RaftLock

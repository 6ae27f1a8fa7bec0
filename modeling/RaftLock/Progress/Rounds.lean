import RaftLock.Library.Machine
import RaftLock.Progress.Elections
import RaftLock.Safety.CatchUp
import RaftLock.Safety.Election

/-!
A leader and the servers that follow it.

The leader brings one follower after the other up to date, and the last entry,
which is its own, is counted once for each of them: when a follower acknowledges
it, the next index moves past it for good. Once it is committed, one more
heartbeat tells a follower.
-/

namespace RaftLock

open CatchUp Outcome

/-! ### The count of the last entry -/

/-- The last entry is committed, or `k` servers are counted for it and are too
few. -/
def Backed (k : ℤ) (r : RaftState) : Prop :=
  r.commitIndex = r.logCount - 1 ∨ (r.commitIndex < r.logCount - 1 ∧
    (r.log (r.logCount - 1 - r.startLogIndex).toNat).nServersReplicated = k ∧
    k * 2 ≤ (nServers : ℤ))

theorem Backed.same {r r' : RaftState} {k : ℤ} (h : Backed k r) (hsame : SameEntries r r') :
    Backed k r' := by
  unfold Backed
  rw [hsame.log, hsame.start, hsame.count, hsame.commit]
  exact h

/-- One more server is counted for the entry at `i`. -/
theorem Backed.counted {r : RaftState} {k i : ℤ} (h : Backed k r) (hlo : r.startLogIndex ≤ i)
    (hhi : i < r.logCount) (hnew : r.commitIndex < i) :
    Backed (if i = r.logCount - 1 then k + 1 else k)
      { counted r i with commitIndex := countTarget r i } := by
  rcases h with hdone | ⟨hmore, hcount, hfew⟩
  · omega
  by_cases hlast : i = r.logCount - 1
  · subst hlast
    rw [if_pos rfl]
    have hslot : ((RaftLock.counted r (r.logCount - 1)).log
        (r.logCount - 1 - r.startLogIndex).toNat).nServersReplicated = k + 1 := by
      simp only [RaftLock.counted, Function.update_self, hcount]
    by_cases hmany : (k + 1) * 2 > (nServers : ℤ)
    · left
      show countTarget r (r.logCount - 1) = _
      rw [countTarget, hcount, if_pos hmany]
      rfl
    · right
      refine ⟨?_, hslot, not_lt.mp hmany⟩
      show countTarget r (r.logCount - 1) < _
      rw [countTarget, hcount, if_neg hmany]
      exact hmore
  · rw [if_neg hlast]
    right
    refine ⟨?_, ?_, hfew⟩
    · show countTarget r i < r.logCount - 1
      unfold countTarget
      split_ifs <;> omega
    · have hslot : (r.logCount - 1 - r.startLogIndex).toNat ≠ (i - r.startLogIndex).toNat := by
        omega
      show (Function.update r.log _ _
        (r.logCount - 1 - r.startLogIndex).toNat).nServersReplicated = k
      rw [Function.update_of_ne hslot]
      exact hcount

/-- The leader of its last entry takes an answer for what it is. -/
theorem Backed.answer {r r' : RaftState} {addr : Server} {a : Response} {es : List Effect} {k : ℤ}
    (h : Backed k r) (hh : Handled r addr (.response a) r' es) (hterm : a.term = r.currentTerm)
    (hstate : r.state = .leader) (hid : a.requestId = r.lastRequestId a.id)
    (hnext : r.startLogIndex ≤ r.nextIndex a.id)
    (hown : getLogTerm r (r.logCount - 1) = r.currentTerm) :
    (r'.state = .leader ∧ r'.config = r.config ∧ r'.currentTerm = r.currentTerm ∧
      ∀ j, j ≠ a.id → r'.nextIndex j = r.nextIndex j) ∧
    Backed (if a.success ≠ 0 ∧ r.nextIndex a.id = r.logCount - 1 then k + 1 else k) r' := by
  have hupdate : ∀ x j, j ≠ a.id → Function.update r.nextIndex a.id x j = r.nextIndex j :=
    fun x j hj => Function.update_of_ne hj ..
  cases hh with
  | responseOld _ hlt => omega
  | responseUnused _ _ hwhy =>
      rcases hwhy with hwhy | ⟨-, hwhy⟩ | ⟨hwhy, -⟩
      · exact absurd (hstate.symm.trans hwhy) (by decide)
      · exact absurd hid hwhy
      · exact absurd (hstate.symm.trans hwhy) (by decide)
  | voteBlocked _ _ hc | voteCounted _ _ hc | voteDecided _ _ hc =>
      exact absurd (hstate.symm.trans hc) (by decide)
  | installAnswered _ _ _ _ hlt => omega
  | appendAnswered _ _ _ _ _ next hans _ hr' =>
      subst hr'
      refine ⟨⟨hstate, rfl, rfl, hupdate next⟩, ?_⟩
      rw [if_neg (by rintro ⟨hs, hlast⟩; rcases hans with ⟨hzero, -⟩ | ⟨-, hend, -⟩
                     · exact hs hzero
                     · omega)]
      exact h.same ⟨rfl, rfl, rfl, rfl⟩
  | entryAnswered _ _ _ _ _ hlt hs hskip _ hr' =>
      subst hr'
      refine ⟨⟨hstate, rfl, rfl, hupdate _⟩, ?_⟩
      split_ifs with hlast
      · -- an entry of its own is passed over only when it is committed
        rw [hlast.2] at hskip
        rcases h with hdone | ⟨hmore, -⟩
        · exact Or.inl hdone
        · exact absurd ⟨hmore, hown⟩ hskip
      · exact h.same ⟨rfl, rfl, rfl, rfl⟩
  | entryCounted _ _ _ _ _ hlt hs hnew hmine _ m hm _ _ hr' =>
      subst hr' hm
      refine ⟨⟨hstate, rfl, rfl, hupdate _⟩, ?_⟩
      simp only [hs, ne_eq, not_false_eq_true, true_and]
      exact (h.counted hnext hlt hnew).same ⟨rfl, rfl, rfl, rfl⟩

/-! ### A request and its answer -/

/-- A leader thread's request to server `f`, the answer, and what both ends make
of it. -/
structure Exchange (l f : Server) (p : Peers) (q : AppendRequest) (a : Response) (p' : Peers) :
    Prop where
  request : sendAppendEntryRequest p.leader f = emit p.leader [.send f (.append q)]
  handled : (handlePacket p.follower l (.append q)).fault = false
  answer : .send l (.response a) ∈ (handlePacket p.follower l (.append q)).effects
  follower : p'.follower = (handlePacket p.follower l (.append q)).raft
  counted : (handlePacket p.leader f (.response a)).fault = false
  leader : p'.leader = (handlePacket p.leader f (.response a)).raft
  id : a.id = p.follower.id
  term : a.term = p.leader.currentTerm
  requestId : a.requestId = p.leader.lastRequestId a.id
  success : a.success ≠ 0 ↔ Accepted p
  told : Accepted p → p.next = p.leader.logCount →
    p.leader.commitIndex ≤ p'.follower.commitIndex

theorem mem_of_responseSent {es : List Effect} {a : Response} (h : responseSent es = some a) :
    ∃ dst, .send dst (.response a) ∈ es := by
  obtain ⟨x, hx, heq⟩ := List.exists_of_findSome?_eq_some h
  cases x with
  | send dst packet =>
      cases packet with
      | response b =>
          simp only [Option.some.injEq] at heq
          exact ⟨dst, heq ▸ hx⟩
      | _ => exact absurd heq (by simp)
  | _ => exact absurd heq (by simp)

/-- A request is answered to where it came from. -/
theorem answered_to {r : RaftState} {addr dst : Server} {q : AppendRequest} {a : Response}
    (hf : (handlePacket r addr (.append q)).fault = false)
    (h : .send dst (.response a) ∈ (handlePacket r addr (.append q)).effects) : dst = addr := by
  obtain ⟨pre, harr, heq⟩ := handlePacket_parts r addr (.append q) (Or.inr (by simp))
  rw [heq] at hf h
  rcases List.mem_append.mp h with hpre | hown
  · rcases harr.mem hpre with heff | ⟨heff, -⟩ <;> exact absurd heff (by simp)
  · have hmem : (⟨addr, dst, .response a, none⟩ : Datagram) ∈
        (handlePacket (arrived r (.append q)) addr (.append q)).effects.filterMap
          (Cluster.sentBy addr none) := List.mem_filterMap.mpr ⟨_, hown, rfl⟩
    rcases (handled (le_arrived r (.append q)) hf).sent addr none with hnil | ⟨b, hone, -⟩
    · rw [hnil] at hmem
      exact absurd hmem (by simp)
    · rw [hone] at hmem
      exact (Datagram.mk.inj (List.mem_singleton.mp hmem)).2.1

/-- A heartbeat that passes the check brings the leader's commit index. -/
theorem heartbeat_commits {r : RaftState} {addr : Server} {q : AppendRequest}
    (hle : r.currentTerm ≤ q.term) (ha : Accepts r q) (hn : q.entriesN = 0)
    (hf : (handlePacket r addr (.append q)).fault = false) :
    q.leaderCommit ≤ (handlePacket r addr (.append q)).raft.commitIndex := by
  obtain ⟨hraft, hfault⟩ := handlePacket_raft r (.append q) addr (by simp)
  rw [hraft]
  have hterm : (arrived r (.append q)).currentTerm = q.term := by
    rcases hle.eq_or_lt with heq | hlt
    · rw [arrived_of_le (show (Packet.append q).term ≤ r.currentTerm from heq.ge), heq]
    · rw [arrived_of_lt hlt]
      exact (convertToFollower_follows r _).currentTerm
  have hh := handled (le_arrived r (.append q)) (hfault ▸ hf)
  generalize (handlePacket (arrived r (.append q)) addr (.append q)).raft = r' at hh ⊢
  generalize (handlePacket (arrived r (.append q)) addr (.append q)).effects = es at hh
  cases hh with
  | appendRefused _ hc => exact absurd ((consistent_iff hterm).mpr (accepts_arrived.mpr ha)) hc
  | heartbeat _ _ _ _ _ =>
      show q.leaderCommit ≤ commitTarget (arrived r (.append q)) q
      unfold commitTarget
      split_ifs <;> omega
  | entryStored _ _ _ hmore => exact absurd hn hmore

/-- Noting an answer changes no request. -/
theorem sendAppendEntryRequest_noted (r : RaftState) (f : Server) (a : Response) :
    sendAppendEntryRequest (noted r a) f =
      { sendAppendEntryRequest r f with raft := noted r a } := by
  by_cases hend : r.nextIndex (r.config f) = r.logCount
  · have hend' : (noted r a).nextIndex ((noted r a).config f) = (noted r a).logCount := hend
    simp only [sendAppendEntryRequest]
    rw [if_pos hend, if_pos hend']
    rfl
  · have hend' : ¬ (noted r a).nextIndex ((noted r a).config f) = (noted r a).logCount := hend
    have hsame : getLog (noted r a) ((noted r a).nextIndex ((noted r a).config f)) =
        getLog r (r.nextIndex (r.config f)) := rfl
    simp only [sendAppendEntryRequest]
    rw [if_neg hend, if_neg hend', hsame]
    cases getLog r (r.nextIndex (r.config f)) <;> rfl

theorem handleResponse_leader {r : RaftState} {addr : Server} {a : Response}
    (hstate : r.state = .leader) (hterm : a.term = r.currentTerm)
    (hid : a.requestId = r.lastRequestId a.id) (hnext : r.startLogIndex ≤ r.nextIndex a.id) :
    handlePacket r addr (.response a) = handleAppendResponse (noted r a) a := by
  have heq : handlePacket r addr (.response a) = _ := handleResponse_eq hterm
  have hstate' : (noted r a).state = .leader := hstate
  rw [heq, hstate']
  simp only
  rw [if_pos (show a.requestId = (noted r a).lastRequestId a.id from hid),
    if_neg (show ¬ (noted r a).nextIndex a.id < (noted r a).startLogIndex from
      not_lt.mpr hnext)]

namespace CatchUp

theorem Connected.noted {p : Peers} {f : Server} (hp : Connected f p) (a : Response) :
    Connected f ⟨noted p.leader a, p.follower⟩ :=
  ⟨hp.config, hp.start, hp.leaderCount, hp.followerCount, hp.term, hp.leaderCommit,
    hp.followerCommit, hp.range⟩

/-- Where the next index is after a round. -/
def nextOf (p : Peers) : ℤ :=
  if Accepted p then if p.next < p.leader.logCount then p.next + 1 else p.next else p.next - 1

theorem Turned.next_eq {p p' : Peers} (h : Turned p p') : p'.next = nextOf p := by
  unfold nextOf
  cases h with
  | refused ha _ _ hnext => rw [if_neg ha, hnext]
  | heartbeat ha hend _ _ hnext => rw [if_pos ha, if_neg hend.not_lt, hnext]
  | stored ha hmore _ _ _ _ hnext => rw [if_pos ha, if_pos hmore, hnext]

/-- Leader and follower make one round. -/
theorem Catching.exchange {f : Server} {L : RaftState} {p : Peers} (h : Catching f L p)
    (l : Server) (hstate : p.leader.state = .leader) :
    ∃ q a p', Exchange l f p q a p' ∧ Catching f L p' ∧ charge p' ≤ charge p - 1 ∧
      p'.next = nextOf p := by
  have hp := h.connected
  have hstart := hp.start
  have hcommit := hp.leaderCommit
  have hrange := hp.range
  obtain ⟨n, e, hrequest, hn⟩ := hp.request
  have hprev := hp.request_prev n e
  obtain ⟨hf, success, hsent, htakes, -⟩ := @takes_request l (q := appendRequest p.leader f n e)
    (r := p.follower) hp.term (by omega) hstart.2 hp.followerCommit
    (fun (hzero : n = 0) => by
      have hlast : (appendRequest p.leader f n e).leaderCommit = p.leader.commitIndex := rfl
      omega)
    (fun (hone : n ≠ 0) => by have := hp.leaderCount.2; omega)
  obtain ⟨q, hq⟩ : ∃ q, q = appendRequest p.leader f n e := ⟨_, rfl⟩
  obtain ⟨a, ha⟩ : ∃ a : Response, a = ⟨p.follower.id, q.term, success, q.requestId⟩ := ⟨_, rfl⟩
  rw [← hq] at hrequest hf hsent htakes
  rw [← ha] at hsent
  have hid : a.id = p.follower.id := by rw [ha]
  have hterm : a.term = p.leader.currentTerm := by rw [ha, hq]; rfl
  have hrid : a.requestId = p.leader.lastRequestId a.id := by rw [ha, hq, ← hp.config]; rfl
  have hsuccess : a.success ≠ 0 ↔ Accepted p := by
    rw [← hp.accepts_iff n e, ← hq, ha]
    cases htakes with
    | refused _ hc => exact iff_of_false (not_not_intro rfl) hc
    | heartbeat _ hc => exact iff_of_true one_ne_zero hc
    | stored _ hc => exact iff_of_true one_ne_zero hc
  obtain ⟨dst, hmem⟩ := mem_of_responseSent hsent
  obtain rfl := answered_to hf hmem
  have hleader := @handleResponse_leader p.leader f a hstate hterm hrid (by
    rw [hid, hstart.1]
    exact hrange.1)
  -- the answer is noted, and the rest is a round of the two ends
  have hcatching : Catching f L ⟨noted p.leader a, p.follower⟩ :=
    ⟨hp.noted a, ⟨h.log.count, h.log.core⟩, h.agree⟩
  obtain ⟨p', hround, hcatching', hcharge⟩ := hcatching.round dst
  obtain ⟨p'', hsame, -, hturned, -⟩ := hcatching.connected.turned dst
  obtain rfl := Option.some.inj (hround.symm.trans hsame)
  have hq' : appendSent [Effect.send f (.append q)] = some q := rfl
  unfold CatchUp.round at hround
  simp only [sendAppendEntryRequest_noted, hrequest, emit, Bool.false_eq_true, if_false, hq',
    Option.bind_some, hf] at hround
  rw [hsent, Option.bind_some] at hround
  split_ifs at hround with hfault
  simp only [Option.some.injEq] at hround
  subst hround
  refine ⟨q, a, _, ⟨hrequest, hf, hmem, rfl, ?_, ?_, hid, hterm, hrid, hsuccess, fun ha hend => ?_⟩,
    hcatching', hcharge, hturned.next_eq⟩
  · rw [hleader]
    simpa using hfault
  · rw [hleader]
  · have hnone : q.entriesN = 0 := by
      rcases hn with ⟨hzero, -⟩ | ⟨-, hmore, -⟩
      · rw [hq]
        exact hzero
      · omega
    have haccepts : Accepts p.follower q := by
      rw [hq, hp.accepts_iff]
      exact ha
    have hcommits := heartbeat_commits (hq ▸ hp.term) haccepts hnone hf
    rw [hq] at hcommits ⊢
    exact hcommits

theorem SameLog.between {L r r' : RaftState} (h : SameLog L r) (h' : SameLog L r') :
    SameLog r r' :=
  ⟨h'.count.trans h.count.symm, fun i => (h'.core i).trans (h.core i).symm⟩

theorem Accepted.congr {r r' v : RaftState} (h : Accepted ⟨r', v⟩) (hl : SameLog r r')
    (hnext : r'.nextIndex v.id = r.nextIndex v.id) : Accepted ⟨r, v⟩ := by
  unfold Accepted Peers.next at h ⊢
  simp only at h ⊢
  rw [hnext, getLogTerm_eq r', hl.core, ← getLogTerm_eq] at h
  exact h

/-- The leader's log is that of `L`, from index `0` on. -/
structure LeaderLog (L r : RaftState) : Prop where
  start : r.startLogIndex = 0
  count : 0 ≤ r.logCount ∧ r.logCount ≤ (logSize : ℤ)
  commit : -1 ≤ r.commitIndex ∧ r.commitIndex < r.logCount
  log : SameLog L r

theorem Catching.leaderLog {f : Server} {L : RaftState} {p : Peers} (h : Catching f L p) :
    LeaderLog L p.leader :=
  ⟨h.connected.start.1, h.connected.leaderCount, h.connected.leaderCommit, h.log⟩

/-- The leader has meanwhile served another follower. -/
theorem Catching.other {f : Server} {L r r' v : RaftState} (h : Catching f L ⟨r, v⟩)
    (h' : LeaderLog L r') (hconfig : r'.config = r.config)
    (hterm : r'.currentTerm = r.currentTerm) (hnext : r'.nextIndex v.id = r.nextIndex v.id) :
    Catching f L ⟨r', v⟩ := by
  have hp := h.connected
  have hsame : SameLog r r' := h.log.between h'.log
  refine ⟨⟨hconfig ▸ hp.config, ⟨h'.start, hp.start.2⟩, h'.count, hp.followerCount,
    hp.term.trans_eq hterm.symm, h'.commit, hp.followerCommit, ?_⟩, h'.log, ?_⟩
  · have hrange := hp.range
    show 0 ≤ r'.nextIndex v.id ∧ r'.nextIndex v.id ≤ r'.logCount
    rwa [hnext, hsame.count]
  · refine h.agree.imp (fun hm => hm.congr hsame rfl fun _ => rfl) fun hb => ?_
    have hb' : AgreeBelow ⟨r', v⟩ (Peers.next ⟨r, v⟩) := hb.congr hsame rfl fun _ => rfl
    rwa [← show Peers.next ⟨r', v⟩ = Peers.next ⟨r, v⟩ from hnext] at hb'

/-- Once accepted, always accepted: the refusals are charged first. -/
theorem accepted_next {p p' : Peers} (hcount : p'.leader.logCount = p.leader.logCount)
    (hrange : 0 ≤ p.next ∧ p.next ≤ p.leader.logCount) (hpos : 0 < p.leader.logCount)
    (hcharge : charge p' ≤ charge p - 1) (hnext : p'.next = nextOf p) (ha : Accepted p) :
    Accepted p' := by
  by_contra hna
  unfold nextOf at hnext
  unfold charge at hcharge
  rw [if_pos ha, if_neg hna] at hcharge
  rw [if_pos ha] at hnext
  split_ifs at hnext <;> omega

/-- The servers counted while `q` is being served: `q` is one of them when it has
the last entry. -/
def countWith (k : ℤ) (p : Peers) : ℤ :=
  if Accepted p ∧ p.next = p.leader.logCount then k + 1 else k

theorem countWith_next {p p' : Peers} (k : ℤ) (hpos : 0 < p.leader.logCount)
    (hcount : p'.leader.logCount = p.leader.logCount)
    (hrange : 0 ≤ p.next ∧ p.next ≤ p.leader.logCount) (hcharge : charge p' ≤ charge p - 1)
    (hnext : p'.next = nextOf p) : countWith k p' =
      if Accepted p ∧ p.next = p.leader.logCount - 1 then countWith k p + 1
      else countWith k p := by
  have hstays : Accepted p → Accepted p' := accepted_next hcount hrange hpos hcharge hnext
  unfold countWith
  unfold nextOf at hnext
  by_cases ha : Accepted p
  · simp only [ha, hstays ha, true_and, hcount]
    rw [if_pos ha] at hnext
    split_ifs at hnext ⊢ <;> omega
  · rw [if_neg ha] at hnext
    rw [if_neg (by omega), if_neg (fun h => ha h.1), if_neg (fun h => ha h.1)]

end CatchUp

/-! ### The leader and its followers -/

section Followers

variable {M : Finset Server} {c c' : Cluster} {s q : Server} {t k : ℤ} {L : RaftState}

/-- The two ends of a connection, as they are in the cluster. -/
def Cluster.peers (c : Cluster) (s q : Server) : Peers := ⟨(c.nodes s).raft, (c.nodes q).raft⟩

/-- Server `s` is the leader of term `t` with the log of `L`, its last entry is of
this term, and its threads go on. -/
structure Leading (L : RaftState) (s : Server) (t : ℤ) (c : Cluster) : Prop where
  up : (c.nodes s).up = true
  state : (c.nodes s).raft.state = .leader
  term : (c.nodes s).raft.currentTerm = t
  config : Function.Injective (c.nodes s).raft.config
  log : LeaderLog L (c.nodes s).raft
  own : getLogTerm (c.nodes s).raft ((c.nodes s).raft.logCount - 1) = t
  threads : ∀ f, f ≠ s → ⟨f, .idle⟩ ∈ (c.nodes s).leaderThreads

/-- Another server of `M` that runs and is connected with the leader. -/
structure Member (M : Finset Server) (L : RaftState) (s q : Server) (c : Cluster) : Prop where
  mem : q ∈ M
  ne : q ≠ s
  up : (c.nodes q).up = true
  catching : Catching q L (c.peers s q)

/-- What a round of leader `s` with `q` leaves alone. -/
structure Served (c : Cluster) (s q : Server) (c' : Cluster) : Prop where
  other : ∀ v, v ≠ s → v ≠ q → c'.nodes v = c.nodes v
  up : (c'.nodes q).up = true
  config : (c'.nodes s).raft.config = (c.nodes s).raft.config
  next : ∀ j, j ≠ (c.nodes q).raft.id →
    (c'.nodes s).raft.nextIndex j = (c.nodes s).raft.nextIndex j
  id : (c'.nodes q).raft.id = (c.nodes q).raft.id

theorem Served.refl (hup : (c.nodes q).up = true) : Served c s q c :=
  ⟨fun _ _ _ => rfl, hup, rfl, fun _ _ => rfl, rfl⟩

theorem Served.trans {c₁ c₂ : Cluster} (h : Served c s q c₁) (h' : Served c₁ s q c₂) :
    Served c s q c₂ where
  other v hs hq := (h'.other v hs hq).trans (h.other v hs hq)
  up := h'.up
  config := h'.config.trans h.config
  next j hj := (h'.next j (by rwa [h.id])).trans (h.next j hj)
  id := h'.id.trans h.id

/-- What a round with `q` does not change about another follower. -/
theorem Member.served {v : Server} (h : Member M L s v c) (hq : Member M L s q c) (hv : v ≠ q)
    (hleads : Leading L s t c) (hleads' : Leading L s t c') (hserved : Served c s q c') :
    Member M L s v c' ∧ (Accepted (c'.peers s v) ↔ Accepted (c.peers s v)) ∧
      (c'.peers s v).next = (c.peers s v).next ∧ c'.nodes v = c.nodes v := by
  have hnode : c'.nodes v = c.nodes v := hserved.other v h.ne hv
  have hid : (c.nodes v).raft.id ≠ (c.nodes q).raft.id := by
    intro heq
    have hconfig : (c.nodes s).raft.config v = (c.nodes s).raft.config q :=
      (h.catching.connected.config.trans heq).trans hq.catching.connected.config.symm
    exact hv (hleads.config hconfig)
  have hnext := hserved.next _ hid
  have hterm : (c'.nodes s).raft.currentTerm = (c.nodes s).raft.currentTerm :=
    hleads'.term.trans hleads.term.symm
  have hpeers : c'.peers s v = ⟨(c'.nodes s).raft, (c.nodes v).raft⟩ := by
    rw [Cluster.peers, hnode]
  have hsame := hleads.log.log.between hleads'.log.log
  rw [hpeers]
  refine ⟨⟨h.mem, h.ne, hnode ▸ h.up, ?_⟩, ⟨fun ha => ha.congr hsame hnext,
    fun ha => Accepted.congr ha (hleads'.log.log.between hleads.log.log) hnext.symm⟩, hnext, hnode⟩
  rw [hpeers]
  exact h.catching.other hleads'.log hserved.config hterm hnext

/-- Request, answer and count, one after the other. -/
theorem Leading.round (h : Leading L s t c) (hs : s ∈ M) (hq : Member M L s q c)
    (hbacked : Backed k (c.nodes s).raft) :
    ∃ c', Cluster.Steps (Within M) c c' ∧ Leading L s t c' ∧ Served c s q c' ∧
      Member M L s q c' ∧ charge (c'.peers s q) ≤ charge (c.peers s q) - 1 ∧
      (c'.peers s q).next = nextOf (c.peers s q) ∧
      Backed (if Accepted (c.peers s q) ∧
        (c.peers s q).next = (c.nodes s).raft.logCount - 1 then k + 1 else k) (c'.nodes s).raft ∧
      (Accepted (c.peers s q) → (c.peers s q).next = (c.nodes s).raft.logCount →
        (c.nodes s).raft.commitIndex ≤ (c'.nodes q).raft.commitIndex) := by
  obtain ⟨hmem, hne, hup, hcatching⟩ := hq
  obtain ⟨req, a, p', hx, hcatching', hcharge, hnext'⟩ := hcatching.exchange s h.state
  have hp := hcatching.connected
  have hrequest : sendAppendEntryRequest (c.nodes s).raft q =
      emit (c.nodes s).raft [.send q (.append req)] := hx.request
  obtain ⟨c₁, hsteps₁, hran₁⟩ := Cluster.ran_send hs h.up (h.threads q hne) h.state (by
    have hstart := hp.start.1
    have hrange := hp.range.1
    have hconfig : (c.nodes s).raft.config q = (c.nodes q).raft.id := hp.config
    rw [hconfig]
    exact hstart.trans_le hrange) (by rw [hrequest]; rfl)
  rw [hrequest] at hran₁
  have hnode : c₁.nodes q = c.nodes q := hran₁.other q hne
  obtain ⟨c₂, hsteps₂, hran₂⟩ := Cluster.ran_deliver (hran₁.sent q _ List.mem_cons_self)
    (by rw [hnode]; exact hup) hs hmem (by simp) (by simp only [hnode]; exact hx.handled)
  simp only [hnode] at hran₂
  have hself : (c₂.nodes s).raft = (c.nodes s).raft := by
    rw [hran₂.other s hne.symm]
    exact hran₁.raft
  have hon : (c₂.nodes s).up = true := by
    rw [hran₂.other s hne.symm]
    exact hran₁.up
  obtain ⟨c₃, hsteps₃, hran₃⟩ := Cluster.ran_deliver (hran₂.sent s _ hx.answer) hon hmem hs
    (by simp) (by simp only [hself]; exact hx.counted)
  simp only [hself] at hran₃
  have hfollower : c₃.nodes q = c₂.nodes q := hran₃.other q hne
  have hpeers : c₃.peers s q = p' := by
    have hleader : (c₃.nodes s).raft = p'.leader := hran₃.raft.trans hx.leader.symm
    have hfollower' : (c₃.nodes q).raft = p'.follower := by
      rw [hfollower, hran₂.raft]
      exact hx.follower.symm
    rw [Cluster.peers, hleader, hfollower']
  rw [← hpeers] at hcatching' hcharge hnext'
  have hnext : (c.nodes s).raft.startLogIndex ≤ (c.nodes s).raft.nextIndex a.id := by
    have hrange := hp.range.1
    rw [hx.id]
    exact hp.start.1.trans_le hrange
  obtain ⟨⟨hstate, hconfig, hterm, hnexts⟩, hbacked'⟩ := hbacked.answer
    (handled hx.term.le hx.counted) hx.term h.state hx.requestId hnext (h.own.trans h.term.symm)
  rw [← hran₃.raft] at hstate hconfig hterm hnexts hbacked'
  have hsame : SameLog (c.nodes s).raft (c₃.nodes s).raft := hcatching.log.between hcatching'.log
  refine ⟨c₃, (hsteps₁.trans hsteps₂).trans hsteps₃, ⟨hran₃.up, hstate, hterm.trans h.term,
    hconfig ▸ h.config, hcatching'.leaderLog, ?_, fun f hf => ?_⟩,
    ⟨fun v hvs hvq => ?_, hfollower ▸ hran₂.up, hconfig, fun j hj => ?_, ?_⟩,
    ⟨hmem, hne, hfollower ▸ hran₂.up, hcatching'⟩, hcharge, hnext', ?_, fun ha hend => ?_⟩
  · rw [hsame.count, getLogTerm_eq, hsame.core, ← getLogTerm_eq]
    exact h.own
  · rw [hran₃.threads, hran₂.other s hne.symm, hran₁.threads]
    exact List.mem_append_left _ (List.mem_append_left _ (h.threads f hf))
  · rw [hran₃.other v hvs, hran₂.other v hvq, hran₁.other v hvs]
  · exact hnexts j (by rwa [hx.id])
  · have hid := hcatching'.connected.config
    simp only [Cluster.peers] at hid
    rw [← hid, hconfig]
    exact hp.config
  · simp only [hx.success, hx.id] at hbacked'
    exact hbacked'
  · have htold := hx.told ha hend
    rw [← hpeers] at htold
    exact htold

/-- Server `q` has the leader's log, and the leader knows. -/
structure Synced (M : Finset Server) (L : RaftState) (s q : Server) (c : Cluster) : Prop where
  member : Member M L s q c
  accepted : Accepted (c.peers s q)
  next : (c.peers s q).next = L.logCount

theorem Synced.agree (h : Synced M L s q c) : AgreeBelow (c.peers s q) L.logCount :=
  h.next ▸ h.member.catching.agreeBelow h.accepted

/-- The leader brings server `q` up to date, which is counted for the last
entry once. -/
theorem Leading.catch_up (h : Leading L s t c) (hs : s ∈ M) (hpos : 0 < L.logCount)
    (hq : Member M L s q c) (hbacked : Backed (countWith k (c.peers s q)) (c.nodes s).raft) :
    ∃ c', Cluster.Steps (Within M) c c' ∧ Leading L s t c' ∧ Served c s q c' ∧
      Synced M L s q c' ∧ Backed (k + 1) (c'.nodes s).raft := by
  obtain ⟨m, hm⟩ : ∃ m, charge (c.peers s q) ≤ m := ⟨_, le_rfl⟩
  induction m generalizing c with
  | zero =>
      obtain ⟨hnext, hagree⟩ := hq.catching.done (Nat.le_zero.mp hm)
      have haccepted : Accepted (c.peers s q) :=
        AgreeBelow.accepted (hnext ▸ hagree) hq.catching.connected
      rw [countWith, if_pos ⟨haccepted, hnext⟩] at hbacked
      exact ⟨c, .refl, h, .refl hq.up, ⟨hq, haccepted, hnext.trans hq.catching.log.count⟩, hbacked⟩
  | succ m ih =>
      obtain ⟨c₁, hsteps, h₁, hserved, hq₁, hcharge, hnext, hbacked₁, -⟩ := h.round hs hq hbacked
      have hcount : (c₁.peers s q).leader.logCount = (c.peers s q).leader.logCount :=
        hq₁.catching.log.count.trans hq.catching.log.count.symm
      have hkeeps : Backed (countWith k (c₁.peers s q)) (c₁.nodes s).raft := by
        have hkept := countWith_next k (hq.catching.log.count ▸ hpos) hcount
          hq.catching.connected.range hcharge hnext
        rwa [hkept]
      obtain ⟨c₂, hsteps', h₂, hserved', hsynced, hbacked₂⟩ := ih h₁ hq₁ hkeeps (by omega)
      exact ⟨c₂, hsteps.trans hsteps', h₂, hserved.trans hserved', hsynced, hbacked₂⟩

theorem Synced.served {v : Server} (h : Synced M L s v c) (hq : Member M L s q c) (hv : v ≠ q)
    (hleads : Leading L s t c) (hleads' : Leading L s t c') (hserved : Served c s q c') :
    Synced M L s v c' := by
  obtain ⟨hmember, haccepted, hnext, -⟩ := h.member.served hq hv hleads hleads' hserved
  exact ⟨hmember, haccepted.mpr h.accepted, hnext.trans h.next⟩

/-- Server `q` has not been counted for the leader's last entry. -/
structure Awaits (M : Finset Server) (L : RaftState) (s q : Server) (c : Cluster) : Prop where
  member : Member M L s q c
  behind : Accepted (c.peers s q) → (c.peers s q).next ≠ L.logCount

theorem Awaits.served {v : Server} (h : Awaits M L s v c) (hq : Member M L s q c) (hv : v ≠ q)
    (hleads : Leading L s t c) (hleads' : Leading L s t c') (hserved : Served c s q c') :
    Awaits M L s v c' := by
  obtain ⟨hmember, haccepted, hnext, -⟩ := h.member.served hq hv hleads hleads' hserved
  refine ⟨hmember, fun ha => ?_⟩
  rw [hnext]
  exact h.behind (haccepted.mp ha)

/-- The leader serves the servers of `Q`, one after the other. -/
theorem Leading.serve {Q : List Server} (h : Leading L s t c) (hs : s ∈ M) (hpos : 0 < L.logCount)
    (hnodup : Q.Nodup) (hQ : ∀ q ∈ Q, Awaits M L s q c) (hbacked : Backed 1 (c.nodes s).raft) :
    ∃ c', Cluster.Steps (Within M) c c' ∧ Leading L s t c' ∧
      Backed (1 + (Q.length : ℤ)) (c'.nodes s).raft ∧ ∀ q ∈ Q, Synced M L s q c' := by
  have hvisit : ∀ (q : Server) (n : ℕ) (c : Cluster),
      Leading L s t c ∧ Backed (1 + (n : ℤ)) (c.nodes s).raft → Awaits M L s q c →
      ∃ c', Cluster.Steps (Within M) c c' ∧
        (Leading L s t c' ∧ Backed (1 + ((n + 1 : ℕ) : ℤ)) (c'.nodes s).raft) ∧
        Synced M L s q c' ∧ ∀ v, v ≠ q → (Awaits M L s v c → Awaits M L s v c') ∧
          (Synced M L s v c → Synced M L s v c') := by
    rintro q n c ⟨hleads, hcount⟩ ⟨hq, hbehind⟩
    have hnot : ¬ (Accepted (c.peers s q) ∧ (c.peers s q).next = (c.peers s q).leader.logCount) :=
      fun ⟨ha, hend⟩ => hbehind ha (hend.trans hleads.log.log.count)
    rw [← show countWith (1 + (n : ℤ)) (c.peers s q) = 1 + (n : ℤ) from if_neg hnot] at hcount
    obtain ⟨c', hsteps, hleads', hserved, hsynced, hcount'⟩ := hleads.catch_up hs hpos hq hcount
    refine ⟨c', hsteps, ⟨hleads', ?_⟩, hsynced, fun v hv =>
      ⟨fun hv' => hv'.served hq hv hleads hleads' hserved,
        fun hv' => hv'.served hq hv hleads hleads' hserved⟩⟩
    rwa [Nat.cast_succ, ← add_assoc]
  obtain ⟨c', hsteps, ⟨hleads, hcount⟩, hall, -⟩ := Machine.Steps.visit
    (P := fun n c => Leading L s t c ∧ Backed (1 + (n : ℤ)) (c.nodes s).raft) hvisit hnodup
    (n := 0) ⟨h, by simpa using hbacked⟩ hQ
  rw [Nat.zero_add] at hcount
  exact ⟨c', hsteps, hleads, hcount, hall⟩

/-- Server `q` has applied the leader's log. -/
def Told (L : RaftState) (q : Server) (c : Cluster) : Prop :=
  L.logCount - 1 ≤ (c.nodes q).raft.commitIndex

/-- With all of its log committed, the leader tells the servers of `Q`. -/
theorem Leading.announce {Q : List Server} (h : Leading L s t c) (hs : s ∈ M)
    (hpos : 0 < L.logCount) (hnodup : Q.Nodup) (hQ : ∀ q ∈ Q, Synced M L s q c)
    (hcommit : (c.nodes s).raft.commitIndex = L.logCount - 1) :
    ∃ c', Cluster.Steps (Within M) c c' ∧ Leading L s t c' ∧
      (c'.nodes s).raft.commitIndex = L.logCount - 1 ∧
      ∀ q ∈ Q, Synced M L s q c' ∧ Told L q c' := by
  have hvisit : ∀ (q : Server) (_ : ℕ) (c : Cluster),
      Leading L s t c ∧ (c.nodes s).raft.commitIndex = L.logCount - 1 → Synced M L s q c →
      ∃ c', Cluster.Steps (Within M) c c' ∧
        (Leading L s t c' ∧ (c'.nodes s).raft.commitIndex = L.logCount - 1) ∧
        (Synced M L s q c' ∧ Told L q c') ∧ ∀ v, v ≠ q →
          (Synced M L s v c → Synced M L s v c') ∧
          (Synced M L s v c ∧ Told L v c → Synced M L s v c' ∧ Told L v c') := by
    rintro q - c ⟨hleads, hdone⟩ hq
    have hcount := hleads.log.log.count
    have hend : (c.peers s q).next = (c.nodes s).raft.logCount := hq.next.trans hcount.symm
    -- three servers are enough, so the log stays committed
    obtain ⟨c', hsteps, hleads', hserved, hq', hcharge, hnext, hbacked, htold⟩ := hleads.round
      (k := nServers) hs hq.member (Or.inl (by rw [hdone, hcount]))
    have hcount' := hleads'.log.log.count
    have hmore : (c'.nodes s).raft.commitIndex = L.logCount - 1 := by
      rcases hbacked with hcommitted | ⟨-, -, hfew⟩
      · rw [hcommitted, hcount']
      · split_ifs at hfew <;> exact absurd hfew (by decide)
    have hsame : (c'.peers s q).leader.logCount = (c.peers s q).leader.logCount :=
      hcount'.trans hcount.symm
    have haccepted := accepted_next hsame hq.member.catching.connected.range
      (hpos.trans_eq hcount.symm) hcharge hnext hq.accepted
    have hstop : ¬ (c.peers s q).next < (c.peers s q).leader.logCount := hend.not_lt
    have hnext' : (c'.peers s q).next = L.logCount := by
      rw [hnext, nextOf, if_pos hq.accepted, if_neg hstop, hq.next]
    refine ⟨c', hsteps, ⟨hleads', hmore⟩, ⟨⟨hq', haccepted, hnext'⟩, ?_⟩, fun v hv =>
      ⟨fun hv' => hv'.served hq.member hv hleads hleads' hserved, fun ⟨hv', hknows⟩ =>
        ⟨hv'.served hq.member hv hleads hleads' hserved, ?_⟩⟩⟩
    · show L.logCount - 1 ≤ (c'.nodes q).raft.commitIndex
      rw [← hdone]
      exact htold hq.accepted hend
    · obtain ⟨-, -, -, hnode⟩ := hv'.member.served hq.member hv hleads hleads' hserved
      unfold Told
      rwa [hnode]
  obtain ⟨c', hsteps, ⟨hleads, hdone⟩, hall, -⟩ := Machine.Steps.visit
    (P := fun _ c => Leading L s t c ∧ (c.nodes s).raft.commitIndex = L.logCount - 1) hvisit
    hnodup (n := 0) ⟨h, hcommit⟩ hQ
  exact ⟨c', hsteps, hleads, hdone, hall⟩

end Followers

end RaftLock

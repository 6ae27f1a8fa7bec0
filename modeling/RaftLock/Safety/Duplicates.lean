import RaftLock.Raft.Traffic
import RaftLock.Safety.Election

/-!
Elections when the network repeats datagrams.

`nvoted` is a number: a candidate does not know whose answers it has counted.
Here the servers it has counted are kept beside it, and so is every vote any
server has had in `voted_for`. As long as a candidate counts each server once,
and only answers to vote requests, the servers behind `nvoted` are the ones
that have voted for it.
-/

namespace RaftLock

open Outcome

/-- The servers that stand in the configuration under their own ids, and vote
requests that carry the id of their sender. -/
structure OwnIds (config : Config) (w : World) : Prop where
  ids : ∀ s, (w.raft s).config = config ∧ (w.raft s).id = config s
  votes : ∀ d ∈ w.net, ∀ q, d.packet = .vote q → q.candidateId = config d.src

section OwnIds

variable {config : Config} {w w' : World} {s : Server} {r' : RaftState}

theorem OwnIds.update (h : OwnIds config w) (hraft : w'.raft = Function.update w.raft s r')
    (hids : r'.config = (w.raft s).config ∧ r'.id = (w.raft s).id)
    (hnet : ∀ d ∈ w'.net, d ∈ w.net ∨
      (d.src = s ∧ ∀ q, d.packet = .vote q → q.candidateId = config s)) : OwnIds config w' where
  ids v := by
    rw [hraft, Function.update_apply]
    split
    · rename_i hv
      rw [hids.1, hids.2, hv]
      exact h.ids s
    · exact h.ids v
  votes d hd q hq := by
    rcases hnet d hd with hold | ⟨hsrc, hnew⟩
    · exact h.votes d hold q hq
    · rw [hsrc]
      exact hnew q hq

theorem OwnIds.settle (h : OwnIds config w) (hids : r'.config = (w.raft s).config ∧
      r'.id = (w.raft s).id) {es : List Effect} (answers : Option Packet)
    (hes : ∀ dst q, .send dst (.vote q) ∈ es → q.candidateId = config s) :
    OwnIds config (w.settle s r' es answers) := by
  refine h.update rfl hids fun d hd => ?_
  refine (List.mem_append.mp hd).imp id fun hnew => ?_
  obtain ⟨hsrc, -, hsent⟩ := Cluster.mem_sentBy hnew
  exact ⟨hsrc, fun q hq => hes d.dst q (hq ▸ hsent)⟩

/-- Handlers answer, they do not ask for votes. -/
theorem Handled.no_vote {r : RaftState} {addr : Server} {packet : Packet} {es : List Effect}
    (h : Handled r addr packet r' es) (dst : Server) (q : VoteRequest) :
    .send dst (.vote q) ∉ es := by
  intro hmem
  have hsent : (⟨addr, dst, .vote q, none⟩ : Datagram) ∈
      es.filterMap (Cluster.sentBy addr none) := List.mem_filterMap.mpr ⟨_, hmem, rfl⟩
  rcases h.sent addr none with hnil | ⟨p, hone, -⟩
  · rw [hnil] at hsent
    exact absurd hsent (by simp)
  · rw [hone] at hsent
    exact absurd hsent (by simp)

theorem Sends.no_vote {r : RaftState} {t : LeaderThread} {es : List Effect}
    {pc : Option LeaderPc} (h : Sends r t r' es pc) (dst : Server) (q : VoteRequest) :
    .send dst (.vote q) ∉ es := by
  cases h <;> simp

theorem OwnIds.step {g : Guard} (h : OwnIds config w) {v : Option (Server × ℤ × Server)}
    (hstep : World.Step g w v w') : OwnIds config w' := by
  cases hstep with
  | stepDown s t ht =>
      have hf := convertToFollower_follows (w.raft s) t
      exact h.update rfl ⟨hf.config, hf.id⟩ fun d hd => Or.inl hd
  | campaign s =>
      refine h.settle ?_ none fun dst q hq => ?_
      · exact ⟨rfl, rfl⟩
      · rw [attemptToElect_eq] at hq
        obtain ⟨i, -, hi⟩ := List.mem_map.mp (List.mem_of_ne_of_mem (by simp) hq)
        simp only [Effect.send.injEq, Packet.vote.injEq] at hi
        rw [← hi.2]
        exact (h.ids s).2
  | handle a b d r' es hnet hle hg hh =>
      have hfewer : OwnIds config { w with net := a ++ b } :=
        ⟨h.ids, fun x hx => h.votes x (by rw [hnet]; simp at hx ⊢; tauto)⟩
      exact hfewer.settle hh.ids _ fun dst q hq => absurd hq (hh.no_vote dst q)
  | turns d l hd hg hl => exact h.update rfl ⟨rfl, rfl⟩ fun d hd => Or.inl hd
  | lose net hsub => exact ⟨h.ids, fun d hd => h.votes d (hsub.subset hd)⟩
  | append s e hf =>
      rcases appendEntry_ok hf with heq | ⟨r', heq, -, -, -, hr'⟩
      · rw [heq]
        exact h.settle ⟨rfl, rfl⟩ none (by simp [ret])
      · rw [heq, hr']
        refine h.settle ?_ none fun dst q hq => ?_
        · exact ⟨rfl, rfl⟩
        · exact absurd hq (by simp [saveState, emit])
  | sender s a b t r' es pc ht hg hs =>
      have hthreads : OwnIds config { w with
          threads := Function.update w.threads s
            (a ++ (pc.map fun pc => { t with pc }).toList ++ b) } := ⟨h.ids, h.votes⟩
      obtain ⟨-, -, -, -, hids⟩ := hs.same
      exact hthreads.settle hids none fun dst q hq => absurd hq (hs.no_vote dst q)
  | enter s n r' he =>
      obtain ⟨-, rfl⟩ := createSnapshotEnter_some he
      exact h.update (s := s) rfl ⟨rfl, rfl⟩ fun d hd => Or.inl hd
  | shift s n hn hg hf =>
      obtain ⟨-, heq⟩ := createSnapshotShift_ok hf
      rw [heq]
      refine h.settle ?_ none fun dst q hq => ?_
      · exact ⟨rfl, rfl⟩
      · exact absurd hq (by simp [saveState, emit])
  | crash s st hst => exact h.update rfl ⟨hst.config, hst.id⟩ fun d hd => Or.inl hd
  | replay s l hl => exact ⟨h.ids, h.votes⟩

theorem OwnIds.path {g : Guard} (h : OwnIds config w) (hpath : World.Path g w w') :
    OwnIds config w' := by
  induction hpath with
  | refl => exact h
  | tail _ hstep ih =>
      obtain ⟨v, hv⟩ := hstep
      exact ih.step hv

end OwnIds

/-! ### What a section does to a role -/

/-- The server is a candidate and counts the answer. -/
def Tallies (r : RaftState) : Packet → Prop
  | .response q => q.term = r.currentTerm ∧ r.state = .candidate ∧ 0 < q.success
  | _ => False

instance (r : RaftState) (packet : Packet) : Decidable (Tallies r packet) :=
  match packet with
  | .response q =>
    inferInstanceAs (Decidable (q.term = r.currentTerm ∧ r.state = .candidate ∧ 0 < q.success))
  | .append _ | .vote _ | .installSnapshot _ => inferInstanceAs (Decidable False)

/-- A running server stands for election, counts an answer, or stays what it
is or becomes a follower. -/
inductive Roles (c : Cluster) (s : Server) (r r' : RaftState) : Action → Prop
  | campaign (x : Action) (hx : x.elects s) (hr' : r' = campaigner r) : Roles c s r r' x
  | tally (k : ℕ) (crashAt : Option ℕ) (d : Datagram) (hd : c.net[k]? = some d) (hs : d.dst = s)
      (ht : Tallies r d.packet) (hterm : r'.currentTerm = r.currentTerm)
      (hvoted : r'.nvoted = r.nvoted + 1)
      (hdone : r'.state = .candidate ∨
        (r'.state = .leader ∧ (r.nvoted + 1) * 2 > (nServers : ℤ))) :
      Roles c s r r' (.deliver k crashAt)
  | other (x : Action) (h : r'.state = .follower ∨ (r'.state = r.state ∧
      r'.currentTerm = r.currentTerm ∧ r'.nvoted = r.nvoted)) : Roles c s r r' x

/-- A packet is counted in the state it finds: one of a later term finds, in
effect, a follower. -/
theorem handlePacket_role {r : RaftState} {addr : Server} {packet : Packet}
    (hf : (handlePacket r addr packet).fault = false) :
    Elects r (handlePacket r addr packet).raft packet ∨
      (handlePacket r addr packet).raft.state = .follower := by
  rcases Int.lt_or_le r.currentTerm packet.term with hlt | hle
  · right
    have hfollower : (arrived r packet).state = .follower := by
      rw [arrived_of_lt hlt]
      exact (convertToFollower_follows r _).state
    by_cases hq : ∃ q, packet = .response q
    · obtain ⟨q, rfl⟩ := hq
      rw [handleResponse_later hlt]
      exact hfollower
    · push Not at hq
      rw [handlePacket_later hlt hq] at hf ⊢
      cases (handled (le_arrived r packet) hf).elects with
      | granted q hterm hfree hr' =>
          rw [hr']
          exact hfollower
      | counted q hterm hstate hs hids => exact absurd rfl (hq q)
      | other packet hids hsame hvote hrole =>
          rcases hrole with hdown | ⟨hsame, -⟩
          · exact hdown
          · exact hsame.trans hfollower
  · exact Or.inl (handled hle hf).elects

theorem snapshotStep_role {r : RaftState} {pc : SnapshotPc}
    (hf : (snapshotStep r pc).1.fault = false) :
    (snapshotStep r pc).1.raft.state = r.state ∧
    (snapshotStep r pc).1.raft.currentTerm = r.currentTerm ∧
    (snapshotStep r pc).1.raft.nvoted = r.nvoted := by
  have h := snapshotStep_section r pc
  generalize (snapshotStep r pc).1 = o at hf h ⊢
  cases h with
  | enter n hpc he => exact ⟨rfl, rfl, rfl⟩
  | shift n prev hpc =>
      obtain ⟨-, heq⟩ := createSnapshotShift_ok hf
      rw [heq]
      exact ⟨rfl, rfl, rfl⟩
  | plain _ hraft hes =>
      rw [hraft]
      exact ⟨rfl, rfl, rfl⟩

theorem Runs.roles {g : Guard} {c : Cluster} {s : Server} {r : RaftState} {x : Action}
    {o : Outcome} (h : Runs g c s r x o) (hf : o.fault = false) : Roles c s r o.raft x := by
  cases h with
  | elect x hx => exact .campaign x hx rfl
  | packet k crashAt d hd hs hg =>
      rcases handlePacket_role hf with helects | hdown
      · generalize hp : d.packet = packet at hf helects
        cases helects with
        | granted q hterm hfree hr' =>
            rw [hr']
            exact .other _ (Or.inr ⟨rfl, rfl, rfl⟩)
        | counted q hterm hstate hs' hids hsame hvote hvoted hdone =>
            refine .tally k crashAt d hd hs ?_ hsame hvoted hdone
            rw [hp]
            exact ⟨hterm, hstate, hs'⟩
        | other packet hids hsame hvote hrole =>
            exact .other _ (hrole.imp id fun h => ⟨h.1, hsame, h.2⟩)
      · exact .other _ (Or.inl hdown)
  | append e crashAt =>
      rcases appendEntry_ok hf with heq | ⟨r', heq, -, -, -, hr'⟩
      · rw [heq]
        exact .other _ (Or.inr ⟨rfl, rfl, rfl⟩)
      · rw [heq, hr']
        exact .other _ (Or.inr ⟨rfl, rfl, rfl⟩)
  | sender k files t hg =>
      obtain ⟨hterm, -, hstate, hvoted, -⟩ := (leaderStep_sends hf).same
      exact .other _ (Or.inr ⟨hstate, hterm, hvoted⟩)
  | snapshot k crashAt pc hg =>
      obtain ⟨hstate, hterm, hvoted⟩ := snapshotStep_role hf
      exact .other _ (Or.inr ⟨hstate, hterm, hvoted⟩)

/-! ### A vote is recorded before its answer leaves -/

/-- The datagram answers a vote request. -/
def Datagram.AnswersVote (d : Datagram) : Prop :=
  match d.answers with
  | some (.vote _) => True
  | _ => False

instance (d : Datagram) : Decidable d.AnswersVote :=
  match h : d.answers with
  | some (.vote _) => isTrue (by simp [Datagram.AnswersVote, h])
  | none | some (.append _) | some (.installSnapshot _) | some (.response _) =>
    isFalse (by simp [Datagram.AnswersVote, h])

/-- Server `n` has voted for the server with this id in the term. -/
def Node.VotedIn (n : Node) (t id : ℤ) : Prop := n.view.currentTerm = t ∧ n.view.votedFor = id

/-- A server that has saved the state its section ends in and sent its answer
goes on from there, also after a crash. -/
theorem Node.view_settle {n : Node} {o : Outcome} {crashAt : Option ℕ} {l : List Effect}
    {dst : Server} {packet : Packet} (hup : n.up = true)
    (hperf : performed o crashAt = l ++ [.save o.raft, .send dst packet]) :
    (n.settle o crashAt).view = o.raft ∨ (n.settle o crashAt).view = forget o.raft := by
  obtain ⟨-, hup', -, -, hfile⟩ := foldl_perform (performed o crashAt) n
  have hsaved : savedAfter (performed o crashAt) n.saved = some o.raft := by
    rw [hperf, savedAfter_append]
    rfl
  unfold settle
  simp only
  split
  · left
    simp [view, hup', hup]
  · right
    simp [view, crash, hfile, hsaved]

theorem take_pair {α : Type} {x y z : α} {m : ℕ} (h : z ∈ [x, y].take m) (hne : z ≠ x) :
    [x, y].take m = [x, y] ∧ z = y := by
  rcases m with _ | _ | m
  · exact absurd h (by simp)
  · exact absurd (List.mem_singleton.mp h) hne
  · exact ⟨by simp, by simpa [hne] using h⟩

/-- The state with the vote is saved before the answer goes out, so the vote
is there also when the server crashes next. -/
theorem voted_of_answer {r : RaftState} {addr dst : Server} {q : VoteRequest} {p : Response}
    {n : Node} {crashAt : Option ℕ} (hup : n.up = true) (hs : 0 < p.success)
    (hmem : .send dst (.response p) ∈
      Node.performed (handlePacket r addr (.vote q)) crashAt) :
    dst = addr ∧ (n.settle (handlePacket r addr (.vote q)) crashAt).VotedIn p.term
      q.candidateId := by
  obtain ⟨pre, hpre, heq⟩ := handlePacket_parts r addr (.vote q) (Or.inr (by simp))
  have hle := le_arrived r (.vote q)
  have hf : (handlePacket (arrived r (.vote q)) addr (.vote q)).fault = false :=
    handleVoteRequest_fault hle
  have hh : Handled _ addr _ _ _ := handled hle hf
  rw [hf] at heq
  rw [heq] at hmem ⊢
  generalize (handlePacket (arrived r (.vote q)) addr (.vote q)).raft = r' at hh hmem ⊢
  generalize (handlePacket (arrived r (.vote q)) addr (.vote q)).effects = es at hh hmem ⊢
  -- nothing is sent on the packet's arrival
  obtain ⟨l, m, hperf, hl, hwhole⟩ := performed_parts r' pre es false crashAt
  rw [hperf, List.mem_append] at hmem
  have hmem : .send dst (.response p) ∈ es.take m := by
    refine hmem.resolve_left fun hmem => ?_
    rcases hpre.mem (hl _ hmem) with h | ⟨h, -⟩ <;> exact absurd h (by simp)
  cases hh with
  | voteRefused _ success es hsuccess hes =>
      have hmem := List.mem_of_mem_take hmem
      rcases hes with rfl | rfl
      all_goals
        simp [reply] at hmem
        obtain ⟨-, rfl⟩ := hmem
        exact absurd hs (not_lt.mpr hsuccess)
  | voteGranted _ hterm hfree hdate =>
      -- the answer is the last effect
      obtain ⟨hall, hlast⟩ := take_pair hmem (by simp)
      simp only [reply, Effect.send.injEq, Packet.response.injEq] at hlast
      obtain ⟨rfl, rfl⟩ := hlast
      refine ⟨rfl, ?_⟩
      rw [hall] at hperf
      rcases Node.view_settle hup hperf with hview | hview
      all_goals
        unfold Node.VotedIn
        rw [hview]
        exact ⟨rfl, rfl⟩

/-! ### A network that repeats datagrams -/

/-- `counted s t` are the servers whose votes `s` has counted as a candidate
of term `t`, its own included. `recorded` lists, for each server and each
moment of the run, the term it is in and the vote it has in that term. -/
structure Repeated where
  cluster : Cluster
  counted : Server → ℤ → Finset Server
  recorded : List (Server × ℤ × ℤ)

/-- The votes of all servers. -/
def Cluster.votes (c : Cluster) : List (Server × ℤ × ℤ) :=
  (List.finRange nServers).map fun s =>
    (s, (c.nodes s).view.currentTerm, (c.nodes s).view.votedFor)

namespace Repeated

def init (config : Config) : Repeated := ⟨Cluster.init config, fun _ _ => ∅, []⟩

/-- Server `u` is counted by `s` in term `t`. -/
def count (m : Repeated) (s : Server) (t : ℤ) (u : Server) : Server → ℤ → Finset Server :=
  fun s' t' => if s' = s ∧ t' = t then insert u (m.counted s' t') else m.counted s' t'

def countedAfter (m : Repeated) : Action → Server → ℤ → Finset Server
  | .elect s _ | .retry s _ => m.count s ((m.cluster.nodes s).raft.currentTerm + 1) s
  | .deliver k _ =>
    match m.cluster.net[k]? with
    | none => m.counted
    | some d =>
      if Tallies (m.cluster.nodes d.dst).raft d.packet then
        m.count d.dst (m.cluster.nodes d.dst).raft.currentTerm d.src
      else m.counted
  | _ => m.counted

def exec (m : Repeated) : RepeatedAction → Option Repeated
  | .step x =>
    match m.cluster.exec x with
    | none => none
    | some c => some ⟨c, m.countedAfter x, m.recorded ++ c.votes⟩
  | .duplicate k =>
    match m.cluster.net[k]? with
    | none => none
    | some d => some { m with cluster := { m.cluster with net := m.cluster.net ++ [d] } }

/-- An answer that a candidate counts answers a vote request and comes from a
server it has not counted in its term. -/
def CountsOnce (m : Repeated) : RepeatedAction → Prop
  | .step (.deliver k _) => ∀ d ∈ m.cluster.net[k]?,
      Tallies (m.cluster.nodes d.dst).raft d.packet → d.AnswersVote ∧
        d.src ∉ m.counted d.dst (m.cluster.nodes d.dst).raft.currentTerm
  | _ => True

instance (m : Repeated) (x : RepeatedAction) : Decidable (m.CountsOnce x) :=
  match x with
  | .step (.deliver k _) => inferInstanceAs (Decidable (∀ d ∈ m.cluster.net[k]?, _ → _ ∧ _))
  | .duplicate _ | .step (.timeout _) | .step (.elect _ _) | .step (.retry _ _)
  | .step (.drop _) | .step (.append _ _ _) | .step (.leaderThread _ _)
  | .step (.snapshotThread _ _ _) | .step (.crash _) | .step (.restart _) =>
    inferInstanceAs (Decidable True)

theorem count_subset (m : Repeated) (s : Server) (t : ℤ) (u s' : Server) (t' : ℤ) :
    m.counted s' t' ⊆ m.count s t u s' t' := by
  unfold count
  split
  · exact Finset.subset_insert _ _
  · exact Finset.Subset.refl _

theorem mem_count {m : Repeated} {s u s' v : Server} {t t' : ℤ} (h : v ∈ m.count s t u s' t') :
    v ∈ m.counted s' t' ∨ (s' = s ∧ t' = t ∧ v = u) := by
  unfold count at h
  split_ifs at h with heq
  · rcases Finset.mem_insert.mp h with rfl | h
    · exact Or.inr ⟨heq.1, heq.2, rfl⟩
    · exact Or.inl h
  · exact Or.inl h

theorem counted_subset (m : Repeated) (x : Action) (s : Server) (t : ℤ) :
    m.counted s t ⊆ m.countedAfter x s t := by
  cases x with
  | elect v crashAt => exact m.count_subset _ _ _ s t
  | retry v crashAt => exact m.count_subset _ _ _ s t
  | deliver k crashAt =>
      cases hk : m.cluster.net[k]? with
      | none =>
          simp only [countedAfter, hk]
          exact Finset.Subset.refl _
      | some d =>
          simp only [countedAfter, hk]
          split_ifs
          · exact m.count_subset _ _ _ s t
          · exact Finset.Subset.refl _
  | _ => exact Finset.Subset.refl _

/-- A candidate has voted for itself, and a leader too; the votes a candidate
has counted come from as many servers, and the ones of a leader from a
majority. -/
structure Backed (config : Config) (m : Repeated) (s : Server) (r : RaftState) : Prop where
  own : r.state ≠ .follower → (s, r.currentTerm, config s) ∈ m.recorded
  self : r.state ≠ .follower → s ∈ m.counted s r.currentTerm
  candidate : r.state = .candidate → r.nvoted ≤ (m.counted s r.currentTerm).card
  leader : r.state = .leader → nServers / 2 + 1 ≤ (m.counted s r.currentTerm).card

structure RepeatedInv (config : Config) (m : Repeated) : Prop where
  own : ∃ w, Refines m.cluster w ∧ OwnIds config w
  answers : ∀ d ∈ m.cluster.net, d.AnswersVote → ∀ q, d.packet = .response q → 0 < q.success →
    (d.src, q.term, config d.dst) ∈ m.recorded
  counted : ∀ s t, ∀ u ∈ m.counted s t, u = s ∨ (u, t, config s) ∈ m.recorded
  backed : ∀ s, (m.cluster.nodes s).up = true → Backed config m s (m.cluster.nodes s).raft

section Step

variable {config : Config} {m m' : Repeated} {c' : Cluster} {x : Action}

theorem mem_votes (c : Cluster) (s : Server) {t id : ℤ} (h : (c.nodes s).VotedIn t id) :
    (s, t, id) ∈ c.votes := by
  obtain ⟨rfl, rfl⟩ := h
  exact List.mem_map.mpr ⟨s, List.mem_finRange s, rfl⟩

theorem RepeatedInv.ids (h : RepeatedInv config m) {s : Server}
    (hup : (m.cluster.nodes s).up = true) : (m.cluster.nodes s).raft.id = config s := by
  obtain ⟨w, href, hown⟩ := h.own
  rw [← (href.node s).raft_eq hup]
  exact (hown.ids s).2

theorem Backed.follower {s : Server} {r : RaftState} (h : r.state = .follower) :
    Backed config m s r := by
  constructor <;> simp [h]

/-- A server that keeps its role keeps what it has. -/
theorem Backed.mono {s : Server} {r r' : RaftState} (h : Backed config m s r)
    (hrec : ∀ v ∈ m.recorded, v ∈ m'.recorded) (hcount : ∀ t, m.counted s t ⊆ m'.counted s t)
    (hstate : r'.state = r.state) (hterm : r'.currentTerm = r.currentTerm)
    (hvoted : r'.nvoted = r.nvoted) : Backed config m' s r' := by
  have hcard := Finset.card_le_card (hcount r.currentTerm)
  constructor
  · rw [hstate, hterm]
    exact fun hr => hrec _ (h.own hr)
  · rw [hstate, hterm]
    exact fun hr => hcount _ (h.self hr)
  · rw [hstate, hterm, hvoted]
    intro hc
    have := h.candidate hc
    omega
  · rw [hstate, hterm]
    exact fun hl => (h.leader hl).trans hcard

theorem elects_counted {s : Server} (hx : x.elects s) :
    m.countedAfter x = m.count s ((m.cluster.nodes s).raft.currentTerm + 1) s := by
  cases x with
  | elect v crashAt =>
      cases hx
      rfl
  | retry v crashAt =>
      cases hx
      rfl
  | _ => exact hx.elim

theorem deliver_counted {k : ℕ} {crashAt : Option ℕ} {d : Datagram}
    (hd : m.cluster.net[k]? = some d) (ht : Tallies (m.cluster.nodes d.dst).raft d.packet) :
    m.countedAfter (.deliver k crashAt) =
      m.count d.dst (m.cluster.nodes d.dst).raft.currentTerm d.src := by
  simp only [countedAfter, hd, if_pos ht]

theorem count_self (m : Repeated) (s u : Server) (t : ℤ) :
    m.count s t u s t = insert u (m.counted s t) := by
  simp [count]

theorem RepeatedInv.roles (h : RepeatedInv config m) (hok : m.CountsOnce (.step x))
    {c' : Cluster} (hm' : m' = ⟨c', m.countedAfter x, m.recorded ++ c'.votes⟩) {s : Server}
    (hup : (m.cluster.nodes s).up = true) (hup' : (c'.nodes s).up = true)
    (hr : Roles m.cluster s (m.cluster.nodes s).raft (c'.nodes s).raft x) :
    Backed config m' s (c'.nodes s).raft := by
  have hrec : ∀ v ∈ m.recorded, v ∈ m'.recorded := by
    rw [hm']
    exact fun v hv => List.mem_append_left _ hv
  have hcount : ∀ t, m.counted s t ⊆ m'.counted s t := by
    rw [hm']
    exact m.counted_subset x s
  have hb := h.backed s hup
  cases hr with
  | campaign _ hx hr' =>
      have hcounted : m'.counted s (c'.nodes s).raft.currentTerm =
          insert s (m.counted s (c'.nodes s).raft.currentTerm) := by
        rw [hm', hr']
        exact (congrFun (congrFun (elects_counted hx) s) _).trans (count_self ..)
      have hself : s ∈ m'.counted s (c'.nodes s).raft.currentTerm := by
        rw [hcounted]
        exact Finset.mem_insert_self _ _
      refine ⟨fun _ => ?_, fun _ => hself, fun _ => ?_, fun hl => ?_⟩
      · rw [hm']
        refine List.mem_append_right _ (mem_votes c' s ?_)
        simp only [Node.VotedIn, Node.view, if_pos hup', true_and]
        rw [hr']
        exact h.ids hup
      · have hone : (c'.nodes s).raft.nvoted = 1 := by
          rw [hr']
          rfl
        have := Finset.card_pos.mpr ⟨s, hself⟩
        omega
      · rw [hr'] at hl
        exact absurd hl (by simp [campaigner])
  | tally k crashAt d hd hs ht hterm hvoted hdone =>
      subst hs
      have hcand : (m.cluster.nodes d.dst).raft.state = .candidate := by
        unfold Tallies at ht
        split at ht
        · exact ht.2.1
        · exact ht.elim
      have hrole : (m.cluster.nodes d.dst).raft.state ≠ .follower := by simp [hcand]
      -- the server is counted for the first time
      have hcard : (m'.counted d.dst (m.cluster.nodes d.dst).raft.currentTerm).card =
          (m.counted d.dst (m.cluster.nodes d.dst).raft.currentTerm).card + 1 := by
        rw [hm', deliver_counted hd ht]
        simp only [count_self]
        exact Finset.card_insert_of_notMem (hok d hd ht).2
      have hle := hb.candidate hcand
      constructor
      · rw [hterm]
        exact fun _ => hrec _ (hb.own hrole)
      · rw [hterm]
        exact fun _ => hcount _ (hb.self hrole)
      · rw [hterm, hvoted, hcard]
        intro _
        push_cast
        omega
      · intro hl
        rw [hterm, hcard]
        rcases hdone with hc | ⟨-, hmany⟩
        · rw [hc] at hl
          exact absurd hl (by simp)
        · omega
  | other _ hother =>
      rcases hother with hdown | ⟨hstate, hterm, hvoted⟩
      · exact .follower hdown
      · exact hb.mono hrec hcount hstate hterm hvoted

/-- The candidates and leaders after a step. -/
theorem RepeatedInv.backed_exec (h : RepeatedInv config m) (hok : m.CountsOnce (.step x))
    (hx : m.cluster.exec x = some c') (s : Server) (hup : (c'.nodes s).up = true) :
    Backed config ⟨c', m.countedAfter x, m.recorded ++ c'.votes⟩ s (c'.nodes s).raft := by
  rcases Cluster.exec_node (unrestricted_allows m.cluster x) hx s with hstep | ⟨-, -, st, -, heq⟩
  · generalize hn : c'.nodes s = n' at hstep
    cases hstep with
    | idle _ hsame =>
        rw [hn, hsame.up] at hup
        rw [hsame.raft]
        exact (h.backed s hup).mono (fun v hv => List.mem_append_left _ hv)
          (m.counted_subset x s) rfl rfl rfl
    | runs n₁ o crashAt hsame hup₀ hruns =>
        have hup' := hup
        rw [hn] at hup'
        obtain ⟨hf, hraft, -⟩ := Node.settle_up hup'
        rw [← hn] at hraft ⊢
        refine h.roles hok rfl hup₀ hup ?_
        rw [hraft]
        exact hruns.roles hf
    | crash =>
        rw [hn] at hup
        exact absurd hup (by simp [Node.crash])
  · rw [heq] at hup ⊢
    obtain ⟨hf, hraft, -⟩ := Node.settle_up hup
    rw [hraft, serverRestore_ok hf]
    exact .follower rfl

/-- The answers on their way after a step. -/
theorem RepeatedInv.answers_exec (h : RepeatedInv config m) (hx : m.cluster.exec x = some c')
    {d : Datagram} (hd : d ∈ c'.net) (hvote : d.AnswersVote) {q : Response}
    (hq : d.packet = .response q) (hs : 0 < q.success) :
    (d.src, q.term, config d.dst) ∈ m.recorded ++ c'.votes := by
  obtain ⟨v, hv⟩ : ∃ v, d.answers = some (.vote v) := by
    unfold Datagram.AnswersVote at hvote
    split at hvote
    · rename_i v hv
      exact ⟨v, hv⟩
    · exact hvote.elim
  rcases Cluster.exec_answers (unrestricted_allows m.cluster x) hx hd hv with
    hd | ⟨p, n, crashAt, hp, hpacket, hsrc, hup, hmem, hnode⟩
  · exact List.mem_append_left _ (h.answers d hd hvote q hq hs)
  · obtain ⟨w, href, hown⟩ := h.own
    rw [hq] at hmem
    obtain ⟨hdst, hvoted⟩ := voted_of_answer hup hs hmem
    rw [← hnode, hown.votes p (by rwa [href.net]) v hpacket, ← hdst] at hvoted
    rw [hsrc]
    exact List.mem_append_right _ (mem_votes c' _ hvoted)

/-- The servers counted after a step. -/
theorem RepeatedInv.counted_exec (h : RepeatedInv config m) (hok : m.CountsOnce (.step x))
    {s u : Server} {t : ℤ} (hu : u ∈ m.countedAfter x s t) :
    u = s ∨ (u, t, config s) ∈ m.recorded := by
  cases x with
  | elect v crashAt =>
      rcases mem_count hu with hu | ⟨rfl, -, rfl⟩
      · exact h.counted s t u hu
      · exact Or.inl rfl
  | retry v crashAt =>
      rcases mem_count hu with hu | ⟨rfl, -, rfl⟩
      · exact h.counted s t u hu
      · exact Or.inl rfl
  | deliver k crashAt =>
      cases hd : m.cluster.net[k]? with
      | none =>
          simp only [countedAfter, hd] at hu
          exact h.counted s t u hu
      | some d =>
          simp only [countedAfter, hd] at hu
          split_ifs at hu with ht
          · rcases mem_count hu with hu | ⟨rfl, rfl, rfl⟩
            · exact h.counted _ _ u hu
            · right
              cases hp : d.packet with
              | response q =>
                  rw [hp] at ht
                  rw [← ht.1]
                  exact h.answers d (List.mem_of_getElem? hd) (hok d hd (hp ▸ ht)).1 q hp ht.2.2
              | _ =>
                  rw [hp] at ht
                  exact ht.elim
          · exact h.counted s t u hu
  | _ => exact h.counted s t u hu

theorem RepeatedInv.exec {y : RepeatedAction} (h : RepeatedInv config m) (hok : m.CountsOnce y)
    (hy : m.exec y = some m') : RepeatedInv config m' := by
  cases y with
  | step x =>
      simp only [Repeated.exec] at hy
      split at hy
      · exact absurd hy (by simp)
      · rename_i c' hx
        simp only [Option.some.injEq] at hy
        subst hy
        obtain ⟨w, href, hown⟩ := h.own
        obtain ⟨w', hpath, href'⟩ := href.exec (unrestricted_allows m.cluster x) hx
        exact ⟨⟨w', href', hown.path hpath⟩,
          fun d hd hvote q hq hs => h.answers_exec hx hd hvote hq hs,
          fun s t u hu => (h.counted_exec hok hu).imp id fun hu => List.mem_append_left _ hu,
          h.backed_exec hok hx⟩
  | duplicate k =>
      simp only [Repeated.exec] at hy
      split at hy
      · exact absurd hy (by simp)
      · rename_i d hd
        simp only [Option.some.injEq] at hy
        subst hy
        have hmem := Traffic.mem_duplicate hd
        obtain ⟨w, href, hown⟩ := h.own
        refine ⟨⟨{ w with net := m.cluster.net ++ [d] }, ⟨href.node, rfl, href.commits⟩,
          hown.ids, fun x hx => hown.votes x ?_⟩, fun x hx => h.answers x (hmem x hx),
          h.counted, fun s hup => (h.backed s hup).mono (fun _ hv => hv)
            (fun _ => Finset.Subset.refl _) rfl rfl rfl⟩
        rw [href.net]
        exact hmem x hx

theorem repeatedInv_init (config : Config) : RepeatedInv config (init config) where
  own := ⟨World.init config, refines_init config, fun _ => ⟨rfl, rfl⟩, by simp [World.init]⟩
  answers := by simp [init, Cluster.init]
  counted := by simp [init]
  backed s _ := .follower rfl

end Step

/-- A leader has the recorded votes of a majority of the servers, its own
among them. -/
theorem leader_recorded_by_quorum {config : Config} {m : Repeated}
    (hrun : Machine.Steps exec CountsOnce (init config) m) {s : Server}
    (hup : (m.cluster.nodes s).up = true) (hl : (m.cluster.nodes s).raft.state = .leader) :
    ∃ S : Finset Server, s ∈ S ∧ nServers / 2 + 1 ≤ S.card ∧
      ∀ u ∈ S, (u, (m.cluster.nodes s).raft.currentTerm, config s) ∈ m.recorded := by
  have hinv : RepeatedInv config m :=
    hrun.invariant (fun _ _ _ h hok hx => h.exec hok hx) (repeatedInv_init config)
  have hb := hinv.backed s hup
  have hrole : (m.cluster.nodes s).raft.state ≠ .follower := by simp [hl]
  refine ⟨m.counted s (m.cluster.nodes s).raft.currentTerm, hb.self hrole, hb.leader hl,
    fun u hu => ?_⟩
  rcases hinv.counted s _ u hu with rfl | hvoted
  · exact hb.own hrole
  · exact hvoted

/-- Server `0` is elected by servers `1` and `2`; the request to server `1` is
delivered twice, and so is its refusal of the second one. -/
def repeatedRequest : List RepeatedAction :=
  [.step (.timeout 0), .step (.elect 0 none), .duplicate 0, .step (.deliver 0 none),
    .step (.deliver 3 none), .duplicate 4, .step (.deliver 5 none), .step (.deliver 4 none),
    .step (.deliver 3 none), .step (.deliver 0 none), .step (.deliver 2 none)]

/-- Server `s` is a leader of term `t`. -/
def led (m : Repeated) (s : Server) (t : ℤ) : Bool := leads m.cluster s t

theorem repeatedRequest_runs : (Machine.execWhile exec (fun m x => decide (m.CountsOnce x))
    (init plainConfig) repeatedRequest).any (fun m => m.led 0 1) = true := by
  decide +kernel

theorem first_leader_recorded : ∃ m, Machine.Steps exec CountsOnce (init plainConfig) m ∧
    m.led 0 1 = true ∧ ∃ S : Finset Server, 0 ∈ S ∧ nServers / 2 + 1 ≤ S.card ∧
      ∀ u ∈ S, (u, 1, 0) ∈ m.recorded := by
  obtain ⟨m, hrun, hlead⟩ := Machine.exists_of_execWhile CountsOnce
    (fun _ _ h => of_decide_eq_true h) repeatedRequest_runs
  refine ⟨m, hrun, hlead, ?_⟩
  simp only [led, leads, Bool.and_eq_true, decide_eq_true_eq] at hlead
  have hquorum := leader_recorded_by_quorum hrun hlead.1 hlead.2.1
  rwa [hlead.2.2] at hquorum

/-- Only server `1` votes for server `0`, and the network repeats its answer. -/
def repeatedAnswer : List RepeatedAction :=
  [.step (.timeout 0), .step (.elect 0 none), .step (.deliver 0 none), .duplicate 3,
    .step (.deliver 3 none), .step (.deliver 3 none)]

theorem repeatedAnswer_runs : (Machine.execAll exec (init plainConfig) repeatedAnswer).any
    (fun m => m.led 0 1 && decide (∀ u : Server, (u, 1, 0) ∈ m.recorded → u = 0 ∨ u = 1)) =
      true := by
  decide +kernel

/-- A repeated answer elects a leader for whom two servers have voted. -/
theorem leader_recorded_by_two : ∃ m, Machine.Reaches exec (init plainConfig) m ∧
    m.led 0 1 = true ∧ ¬ ∃ S : Finset Server, 0 ∈ S ∧ nServers / 2 + 1 ≤ S.card ∧
      ∀ u ∈ S, (u, 1, plainConfig 0) ∈ m.recorded := by
  obtain ⟨m, hrun, hm⟩ := Machine.exists_of_execAll repeatedAnswer_runs
  rw [Bool.and_eq_true, decide_eq_true_eq] at hm
  refine ⟨m, hrun, hm.1, ?_⟩
  rintro ⟨S, -, hcard, hS⟩
  have hsub : S ⊆ {0, 1} := by
    intro u hu
    simpa using hm.2 u (hS u hu)
  have hle := Finset.card_le_card hsub
  exact absurd (hcard.trans hle) (by decide)

end Repeated

end RaftLock

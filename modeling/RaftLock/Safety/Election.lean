import RaftLock.Raft.Refinement
import RaftLock.Consensus.Protocol

/-!
Elections: a term has at most one leader.

An answer does not say what it answers, so a candidate counts every
successful answer of its term. The argument is a count: for a candidate, the
votes it has counted and the successful answers still on their way to it are
together at most the votes given to it (`ElectInv.count`). An answer to an
append or install request reaches the sender of that request only when it is
no longer, and will not again be, a candidate of that term (`Past`), so it is
never counted. That last part rests on a thread that leaves the waiting loop
of `Raft_send_snapshot` not finding its server a candidate.
-/

namespace RaftLock

open Consensus Outcome

/-- Every vote given so far. -/
abbrev Votes := Server → ℤ → Option Server

namespace Votes

def record (V : Votes) : Option (Server × ℤ × Server) → Votes
  | none => V
  | some (s, t, c) => Function.update V s (Function.update (V s) t (some c))

def voters (V : Votes) (t : ℤ) (c : Server) : Finset Server :=
  Finset.univ.filter fun v => V v t = some c

theorem mem_voters {V : Votes} {t : ℤ} {c v : Server} : v ∈ V.voters t c ↔ V v t = some c := by
  simp [voters]

theorem record_of_ne {V : Votes} {s c v : Server} {t u : ℤ} (h : v ≠ s ∨ u ≠ t) :
    V.record (some (s, t, c)) v u = V v u := by
  unfold record
  by_cases hv : v = s
  · subst hv
    simp [h.resolve_left (not_not_intro rfl)]
  · simp [hv]

@[simp] theorem record_self (V : Votes) (s c : Server) (t : ℤ) :
    V.record (some (s, t, c)) s t = some c := by
  simp [record]

theorem voters_record {V : Votes} {s c : Server} {t : ℤ} (hfree : V s t = none) (u : ℤ)
    (x : Server) : V.voters u x ⊆ (V.record (some (s, t, c))).voters u x := by
  intro v hv
  rw [mem_voters] at hv ⊢
  rw [record_of_ne, hv]
  by_contra hne
  push Not at hne
  obtain ⟨rfl, rfl⟩ := hne
  rw [hfree] at hv
  exact absurd hv (by simp)

/-- A new vote counts for its candidate. -/
theorem card_voters_record {V : Votes} {s c : Server} {t : ℤ} (hfree : V s t = none) :
    (V.voters t c).card + 1 ≤ ((V.record (some (s, t, c))).voters t c).card := by
  have hnot : s ∉ V.voters t c := by
    rw [mem_voters, hfree]
    simp
  rw [← Finset.card_insert_of_notMem hnot]
  refine Finset.card_le_card fun v hv => ?_
  rcases Finset.mem_insert.mp hv with rfl | hv
  · rw [mem_voters]
    exact record_self V v c t
  · exact voters_record hfree t c hv

end Votes

/-- A candidate of a term counts this datagram. -/
def grants (s : Server) (t : ℤ) (d : Datagram) : Bool :=
  match d.packet with
  | .response q => decide (d.dst = s ∧ q.term = t ∧ 0 < q.success)
  | _ => false

/-- Server `s` has been in term `t` and, if it still is, is not a candidate. -/
def Past (w : World) (s : Server) (t : ℤ) : Prop :=
  t ≤ (w.raft s).currentTerm ∧ (t = (w.raft s).currentTerm → (w.raft s).state ≠ .candidate)

/-- A datagram a server of a cluster with this configuration can have sent. -/
def Sane (config : Config) (w : World) (d : Datagram) : Prop :=
  match d.packet with
  | .vote q => q.candidateId = config d.src ∧ q.term ≤ (w.raft d.src).currentTerm
  | .append q => Past w d.src q.term
  | .installSnapshot q => Past w d.src q.term
  | .response q => 0 < q.success → q.term ≤ (w.raft d.dst).currentTerm ∧
      ((∀ v, d.answers ≠ some (.vote v)) → Past w d.dst q.term)

structure ElectInv (config : Config) (w : World) (V : Votes) : Prop where
  ids : ∀ s, (w.raft s).config = config ∧ (w.raft s).id = config s
  free : ∀ s, (w.raft s).votedFor = -1 → V s (w.raft s).currentTerm = none
  voted_le : ∀ s t c, V s t = some c → t ≤ (w.raft s).currentTerm
  sane : ∀ d ∈ w.net, Sane config w d
  sender : ∀ s, ∀ t ∈ w.threads s, ∀ q it, t.pc = .sending q it → Past w s q.term
  count : ∀ s, (w.raft s).state = .candidate →
    (w.net.countP (grants s (w.raft s).currentTerm) : ℤ) + (w.raft s).nvoted ≤
      (V.voters (w.raft s).currentTerm s).card
  leader : ∀ s, (w.raft s).state = .leader → Majority (V.voters (w.raft s).currentTerm s)

/-- How the term and the role of a server can change. -/
def Moves (r r' : RaftState) : Prop :=
  r.currentTerm ≤ r'.currentTerm ∧
    (r'.currentTerm = r.currentTerm → r'.state = .candidate → r.state = .candidate)

theorem Moves.refl (r : RaftState) : Moves r r := ⟨le_rfl, fun _ h => h⟩

theorem Past.moves {w w' : World} {s : Server} {t : ℤ} (h : Past w s t)
    (hm : Moves (w.raft s) (w'.raft s)) : Past w' s t := by
  refine ⟨h.1.trans hm.1, fun ht hc => ?_⟩
  have hle := h.1
  have hle' := hm.1
  have hsame : (w'.raft s).currentTerm = (w.raft s).currentTerm := by omega
  exact h.2 (by omega) (hm.2 hsame hc)

theorem Sane.moves {config : Config} {w w' : World} {d : Datagram} (h : Sane config w d)
    (hm : ∀ s, Moves (w.raft s) (w'.raft s)) : Sane config w' d := by
  unfold Sane at h ⊢
  cases hp : d.packet with
  | vote q =>
      rw [hp] at h
      exact ⟨h.1, h.2.trans (hm _).1⟩
  | append q =>
      rw [hp] at h
      exact Past.moves h (hm _)
  | installSnapshot q =>
      rw [hp] at h
      exact Past.moves h (hm _)
  | response q =>
      rw [hp] at h
      intro hs
      exact ⟨(h hs).1.trans (hm _).1, fun hv => ((h hs).2 hv).moves (hm _)⟩

/-- An answer to a request other than a vote is not counted by anybody. -/
theorem not_grants_of_past {w : World} {d : Datagram} {q : Response} {s : Server}
    (hp : d.packet = .response q) (hpast : 0 < q.success → Past w d.dst q.term)
    (hc : (w.raft s).state = .candidate) : grants s (w.raft s).currentTerm d = false := by
  by_contra hg
  simp only [grants, hp, Bool.not_eq_false, decide_eq_true_eq] at hg
  obtain ⟨rfl, hterm, hs⟩ := hg
  exact (hpast hs).2 hterm hc

/-! ### Handlers and votes -/

/-- A handler sends at most one datagram, an answer of its own term; it is
successful only for a request of that term, and for a vote request only when
the vote is given. -/
theorem Handled.sent {r r' : RaftState} {addr : Server} {packet : Packet} {es : List Effect}
    (h : Handled r addr packet r' es) (s : Server) (answers : Option Packet) :
    es.filterMap (Cluster.sentBy s answers) = [] ∨
    ∃ q, es.filterMap (Cluster.sentBy s answers) = [⟨s, addr, .response q, answers⟩] ∧
      q.id = r.id ∧ q.term = r.currentTerm ∧ (∀ x, packet ≠ .response x) ∧
      (0 < q.success → packet.term = r.currentTerm ∧
        ∀ v, packet = .vote v → r.votedFor = -1 ∧ r'.votedFor = v.candidateId) := by
  have hturns : ∀ l : List (ℤ × LogEntry),
      (l.map Effect.ofTurn).filterMap (Cluster.sentBy s answers) = [] :=
    fun l => filterMap_sentBy_quiet (isQuiet_ofTurn l) s answers
  cases h with
  | voteRefused q success es hs hes =>
      refine Or.inr ⟨⟨r.id, r.currentTerm, success, -1⟩, ?_, rfl, rfl, by simp, ?_⟩
      · rcases hes with rfl | rfl <;> rfl
      · intro hpos
        simp only at hpos
        omega
  | voteGranted q hterm hfree hup =>
      refine Or.inr ⟨_, rfl, rfl, rfl, by simp, fun _ => ⟨hterm, fun v hv => ?_⟩⟩
      simp only [Packet.vote.injEq] at hv
      subst hv
      exact ⟨hfree, rfl⟩
  | appendRefused q hc =>
      exact Or.inr ⟨⟨r.id, r.currentTerm, 0, q.requestId⟩, rfl, rfl, rfl, by simp, by simp⟩
  | heartbeat q hterm hc hn hcommit =>
      refine Or.inr ⟨⟨r.id, r.currentTerm, 1, q.requestId⟩, ?_, rfl, rfl, by simp,
        fun _ => ⟨hterm, by simp⟩⟩
      rw [List.filterMap_append, hturns]
      rfl
  | entryStored q hterm hc hn hlo hhi hroom hcommit =>
      refine Or.inr ⟨⟨r.id, r.currentTerm, 1, q.requestId⟩, ?_, rfl, rfl, by simp,
        fun _ => ⟨hterm, by simp⟩⟩
      rw [List.filterMap_append, hturns]
      rfl
  | installRefused q hi =>
      exact Or.inr ⟨⟨r.id, r.currentTerm, 0, q.requestId⟩, rfl, rfl, rfl, by simp, by simp⟩
  | installChunk q hterm hi hd r' hr' =>
      exact Or.inr ⟨⟨r.id, r.currentTerm, 1, q.requestId⟩, rfl, rfl, rfl, by simp,
        fun _ => ⟨hterm, by simp⟩⟩
  | installDone q hterm hi hd es hes =>
      refine Or.inr ⟨⟨r.id, r.currentTerm, 1, q.requestId⟩, ?_, rfl, rfl, by simp,
        fun _ => ⟨hterm, by simp⟩⟩
      rcases hes with rfl | rfl <;> rfl
  | entryCounted q hterm hstate hid hnext hlt hs hnew hown hroom n hn hcommit r' hr' =>
      refine Or.inl ?_
      rw [List.filterMap_append, hturns]
      rfl
  | _ => exact Or.inl rfl

/-- What handling a packet means for elections: a vote is given, a vote is
counted, or the server stays what it is or becomes a follower. -/
inductive Elects (r r' : RaftState) : Packet → Prop
  | granted (q : VoteRequest) (hterm : q.term = r.currentTerm) (hfree : r.votedFor = -1)
      (hr' : r' = { r with votedFor := q.candidateId }) : Elects r r' (.vote q)
  | counted (q : Response) (hterm : q.term = r.currentTerm) (hstate : r.state = .candidate)
      (hs : 0 < q.success) (hids : r'.config = r.config ∧ r'.id = r.id)
      (hsame : r'.currentTerm = r.currentTerm) (hvote : r'.votedFor = r.votedFor)
      (hvoted : r'.nvoted = r.nvoted + 1)
      (hdone : r'.state = .candidate ∨
        (r'.state = .leader ∧ (r.nvoted + 1) * 2 > (nServers : ℤ))) : Elects r r' (.response q)
  | other (packet : Packet) (hids : r'.config = r.config ∧ r'.id = r.id)
      (hsame : r'.currentTerm = r.currentTerm) (hvote : r'.votedFor = r.votedFor)
      (hrole : r'.state = .follower ∨ (r'.state = r.state ∧ r'.nvoted = r.nvoted)) :
      Elects r r' packet

theorem Handled.elects {r r' : RaftState} {addr : Server} {packet : Packet} {es : List Effect}
    (h : Handled r addr packet r' es) : Elects r r' packet := by
  cases h with
  | voteGranted q hterm hfree hup => exact .granted q hterm hfree rfl
  | voteCounted q hterm hstate hs hfew =>
      exact .counted q hterm hstate hs ⟨rfl, rfl⟩ rfl rfl rfl (Or.inl hstate)
  | voteDecided q hterm hstate hs hmany hlo hroom r' hr' =>
      subst hr'
      exact .counted q hterm hstate hs ⟨rfl, rfl⟩ rfl rfl rfl (Or.inr ⟨rfl, hmany⟩)
  | heartbeat q hterm hc hn hcommit => exact .other _ ⟨rfl, rfl⟩ rfl rfl (Or.inl rfl)
  | entryStored q hterm hc hn hlo hhi hroom hcommit =>
      exact .other _ ⟨rfl, rfl⟩ rfl rfl (Or.inl rfl)
  | installChunk q hterm hi hd r' hr' =>
      subst hr'
      exact .other _ ⟨rfl, rfl⟩ rfl rfl (Or.inr ⟨rfl, rfl⟩)
  | installAnswered q hterm hstate hid hnext r' hr' =>
      subst hr'
      exact .other _ ⟨rfl, rfl⟩ rfl rfl (Or.inr ⟨rfl, rfl⟩)
  | appendAnswered q hterm hstate hid hnext next hans r' hr' =>
      subst hr'
      exact .other _ ⟨rfl, rfl⟩ rfl rfl (Or.inr ⟨rfl, rfl⟩)
  | entryAnswered q hterm hstate hid hnext hlt hs hskip r' hr' =>
      subst hr'
      exact .other _ ⟨rfl, rfl⟩ rfl rfl (Or.inr ⟨rfl, rfl⟩)
  | entryCounted q hterm hstate hid hnext hlt hs hnew hown hroom n hn hcommit r' hr' =>
      subst hr'
      exact .other _ ⟨rfl, rfl⟩ rfl rfl (Or.inr ⟨rfl, rfl⟩)
  | _ => exact .other _ ⟨rfl, rfl⟩ rfl rfl (Or.inr ⟨rfl, rfl⟩)

theorem Handled.ids {r r' : RaftState} {addr : Server} {packet : Packet} {es : List Effect}
    (h : Handled r addr packet r' es) : r'.config = r.config ∧ r'.id = r.id := by
  cases h.elects with
  | granted q hterm hfree hr' =>
      rw [hr']
      exact ⟨rfl, rfl⟩
  | counted q hterm hstate hs hids => exact hids
  | other packet hids => exact hids

theorem spawned_idle {es : List Effect} {t : LeaderThread} (h : t ∈ spawned es) :
    t.pc = .idle := by
  obtain ⟨x, -, hx⟩ := List.mem_flatMap.mp h
  cases x with
  | spawnLeaderThreads fs =>
      obtain ⟨f, -, rfl⟩ := List.mem_map.mp hx
      rfl
  | _ => exact absurd hx (by simp)

/-- A section adds at most idle threads. -/
theorem mem_settle_threads {w : World} {s v : Server} {r' : RaftState} {es : List Effect}
    {answers : Option Packet} {t : LeaderThread}
    (ht : t ∈ (w.settle s r' es answers).threads v) : t ∈ w.threads v ∨ t.pc = .idle := by
  by_cases hv : v = s
  · subst hv
    simp only [World.settle, Function.update_self, List.mem_append] at ht
    exact ht.imp id spawned_idle
  · exact Or.inl (by simpa [World.settle, hv] using ht)

/-- The step of a thread moves that thread, and adds at most idle ones. -/
theorem mem_settle_sender {w : World} {s v : Server} {r' : RaftState} {es : List Effect}
    {a b : List LeaderThread} {t y : LeaderThread} {pc : Option LeaderPc}
    (ht : w.threads s = a ++ t :: b)
    (hy : y ∈ ({ w with
      threads := Function.update w.threads s
        (a ++ (pc.map fun pc => { t with pc }).toList ++ b) }.settle s r' es none).threads v) :
    y ∈ w.threads v ∨ y.pc = .idle ∨ (v = s ∧ ∃ z, pc = some z ∧ y = { t with pc := z }) := by
  rcases mem_settle_threads hy with hy | hidle
  · by_cases hv : v = s
    · subst hv
      simp only [Function.update_self, List.mem_append, Option.mem_toList,
        Option.map_eq_some_iff] at hy
      rcases hy with (hy | ⟨z, hz, rfl⟩) | hy
      · exact Or.inl (by simp [ht, hy])
      · exact Or.inr (Or.inr ⟨rfl, z, hz, rfl⟩)
      · exact Or.inl (by simp [ht, hy])
    · exact Or.inl (by simpa [hv] using hy)
  · exact Or.inr (Or.inl hidle)

/-! ### Steps of one server -/

section Step

variable {config : Config} {w w' : World} {V V' : Votes} {s : Server} {r' : RaftState}

/-- What a step of server `s` to `r'` has to do to keep the invariant, the
votes given being `V'` afterwards. -/
structure Keeps (config : Config) (w w' : World) (V V' : Votes) (s : Server) (r' : RaftState) :
    Prop where
  raft : w'.raft = Function.update w.raft s r'
  ids : r'.config = (w.raft s).config ∧ r'.id = (w.raft s).id
  moves : Moves (w.raft s) r'
  free : r'.votedFor = -1 → V' s r'.currentTerm = none
  others : ∀ v t, v ≠ s → V' v t = V v t
  voted_le : ∀ t c, V' s t = some c → t ≤ r'.currentTerm
  voters : ∀ t c, V.voters t c ⊆ V'.voters t c
  sent : ∀ d ∈ w'.net, d ∈ w.net ∨ Sane config w' d
  threads : ∀ v, ∀ t ∈ w'.threads v, (t ∈ w.threads v) ∨
    ∀ q it, t.pc = .sending q it → Past w' v q.term
  count : r'.state = .candidate →
    (w'.net.countP (grants s r'.currentTerm) : ℤ) + r'.nvoted ≤ (V'.voters r'.currentTerm s).card
  counts : ∀ v, v ≠ s → (w.raft v).state = .candidate →
    w'.net.countP (grants v (w.raft v).currentTerm) + (V.voters (w.raft v).currentTerm v).card ≤
    w.net.countP (grants v (w.raft v).currentTerm) + (V'.voters (w.raft v).currentTerm v).card
  leader : r'.state = .leader → Majority (V'.voters r'.currentTerm s)

theorem Keeps.moves_all (h : Keeps config w w' V V' s r') (v : Server) :
    Moves (w.raft v) (w'.raft v) := by
  rw [h.raft]
  by_cases hv : v = s
  · subst hv
    simpa using h.moves
  · simpa [hv] using Moves.refl _

theorem ElectInv.keeps (h : ElectInv config w V) (hk : Keeps config w w' V V' s r') :
    ElectInv config w' V' := by
  have hself : w'.raft s = r' := by simp [hk.raft]
  have hother : ∀ v, v ≠ s → w'.raft v = w.raft v := fun v hv => by simp [hk.raft, hv]
  constructor
  · intro v
    by_cases hv : v = s
    · subst hv
      rw [hself, hk.ids.1, hk.ids.2]
      exact h.ids v
    · rw [hother v hv]
      exact h.ids v
  · intro v hfree
    by_cases hv : v = s
    · subst hv
      rw [hself] at hfree ⊢
      exact hk.free hfree
    · rw [hother v hv] at hfree ⊢
      rw [hk.others v _ hv]
      exact h.free v hfree
  · intro v t c hvote
    by_cases hv : v = s
    · subst hv
      rw [hself]
      exact hk.voted_le t c hvote
    · rw [hk.others v t hv] at hvote
      rw [hother v hv]
      exact h.voted_le v t c hvote
  · intro d hd
    rcases hk.sent d hd with hold | hnew
    · exact (h.sane d hold).moves hk.moves_all
    · exact hnew
  · intro v t ht q it hpc
    rcases hk.threads v t ht with hold | hnew
    · exact (h.sender v t hold q it hpc).moves (hk.moves_all v)
    · exact hnew q it hpc
  · intro v hc
    by_cases hv : v = s
    · subst hv
      rw [hself] at hc ⊢
      exact hk.count hc
    · rw [hother v hv] at hc ⊢
      have h1 := h.count v hc
      have h2 := hk.counts v hv hc
      omega
  · intro v hl
    by_cases hv : v = s
    · subst hv
      rw [hself] at hl ⊢
      exact hk.leader hl
    · rw [hother v hv] at hl ⊢
      exact (h.leader v hl).mono (hk.voters _ _)

/-- A step that gives no vote: the role and the term of the server stay, or it
is a follower afterwards. -/
theorem ElectInv.quiet (h : ElectInv config w V) (hraft : w'.raft = Function.update w.raft s r')
    (hids : r'.config = (w.raft s).config ∧ r'.id = (w.raft s).id)
    (hterm : (w.raft s).currentTerm ≤ r'.currentTerm)
    (hfree : r'.currentTerm = (w.raft s).currentTerm → r'.votedFor = (w.raft s).votedFor)
    (hrole : r'.state = .follower ∨ (r'.state = (w.raft s).state ∧
      r'.currentTerm = (w.raft s).currentTerm ∧ r'.nvoted = (w.raft s).nvoted))
    (hsent : ∀ d ∈ w'.net, d ∈ w.net ∨ Sane config w' d)
    (hthreads : ∀ v, ∀ t ∈ w'.threads v, (t ∈ w.threads v) ∨
      ∀ q it, t.pc = .sending q it → Past w' v q.term)
    (hcount : ∀ v, (w.raft v).state = .candidate →
      w'.net.countP (grants v (w.raft v).currentTerm) ≤
        w.net.countP (grants v (w.raft v).currentTerm)) :
    ElectInv config w' V := by
  refine h.keeps (s := s)
    ⟨hraft, hids, ⟨hterm, ?_⟩, ?_, fun _ _ _ => rfl, ?_, fun _ _ => Finset.Subset.refl _, hsent,
      hthreads, ?_, ?_, ?_⟩
  · intro _ hc
    rcases hrole with hf | ⟨hs, -, -⟩
    · rw [hf] at hc
      exact absurd hc (by simp)
    · rwa [hs] at hc
  · intro hv
    rcases Int.lt_or_eq_of_le hterm with hlt | heq
    · cases hV : V s r'.currentTerm with
      | none => rfl
      | some c =>
          have := h.voted_le s _ c hV
          omega
    · rw [hfree heq.symm] at hv
      rw [← heq]
      exact h.free s hv
  · exact fun t c hv => (h.voted_le s t c hv).trans hterm
  · intro hc
    rcases hrole with hf | ⟨hs, ht, hn⟩
    · rw [hf] at hc
      exact absurd hc (by simp)
    · rw [hs] at hc
      have h1 := h.count s hc
      have h2 := hcount s hc
      rw [ht, hn]
      omega
  · intro v _ hc
    have := hcount v hc
    omega
  · intro hl
    rcases hrole with hf | ⟨hs, ht, -⟩
    · rw [hf] at hl
      exact absurd hl (by simp)
    · rw [hs] at hl
      rw [ht]
      exact h.leader s hl

theorem countP_net_le {p : Datagram → Bool} {a b l : List Datagram} {d : Datagram}
    (hl : ∀ x ∈ l, p x = false) : (a ++ b ++ l).countP p ≤ (a ++ d :: b).countP p := by
  have hzero : l.countP p = 0 := List.countP_eq_zero.mpr fun x hx => by simp [hl x hx]
  simp only [List.countP_append, List.countP_cons, hzero]
  omega

theorem ElectInv.handle_other (h : ElectInv config w V) (hvalid : ∀ v, config v ≠ -1)
    {a b : List Datagram} {d : Datagram} {es : List Effect} (hnet : w.net = a ++ d :: b)
    (hh : Handled (w.raft d.dst) d.src d.packet r' es)
    (hids : r'.config = (w.raft d.dst).config ∧ r'.id = (w.raft d.dst).id)
    (hsame : r'.currentTerm = (w.raft d.dst).currentTerm)
    (hvote : r'.votedFor = (w.raft d.dst).votedFor)
    (hrole : r'.state = .follower ∨
      (r'.state = (w.raft d.dst).state ∧ r'.nvoted = (w.raft d.dst).nvoted)) :
    ElectInv config ({ w with net := a ++ b }.settle d.dst r' es (some d.packet)) V := by
  have hd : d ∈ w.net := by simp [hnet]
  -- a successful answer goes to a server that is past the term of its request
  have hpast : ∀ x ∈ es.filterMap (Cluster.sentBy d.dst (some d.packet)),
      ∃ q, x = ⟨d.dst, d.src, .response q, some d.packet⟩ ∧
        (0 < q.success → Past w d.src q.term) := by
    intro x hx
    rcases hh.sent d.dst (some d.packet) with hnil | ⟨q, hq, -, hterm, hreq, hpos⟩
    · rw [hnil] at hx
      exact absurd hx (by simp)
    rw [hq, List.mem_singleton] at hx
    refine ⟨q, hx, fun hs => ?_⟩
    obtain ⟨hpt, hgrant⟩ := hpos hs
    rw [hterm, ← hpt]
    have hsane := h.sane d hd
    unfold Sane at hsane
    cases hp : d.packet with
    | append q =>
        rw [hp] at hsane
        exact hsane
    | installSnapshot q =>
        rw [hp] at hsane
        exact hsane
    | response q => exact absurd hp (hreq q)
    | vote v =>
        -- the vote would have been given
        obtain ⟨hfree, hgiven⟩ := hgrant v hp
        rw [hp] at hsane
        rw [hvote, hfree, hsane.1] at hgiven
        exact absurd hgiven.symm (hvalid d.src)
  have hmoves : ∀ v, Moves (w.raft v) (Function.update w.raft d.dst r' v) := by
    intro v
    by_cases hv : v = d.dst
    · subst hv
      refine ⟨by simp [hsame], fun _ hc => ?_⟩
      rw [Function.update_self] at hc
      rcases hrole with hf | ⟨hs, -⟩
      · rw [hf] at hc
        exact absurd hc (by simp)
      · rwa [hs] at hc
    · simpa [hv] using Moves.refl _
  refine h.quiet (s := d.dst) rfl hids (le_of_eq hsame.symm) (fun _ => hvote) ?_ ?_ ?_ ?_
  · exact hrole.imp id fun hs => ⟨hs.1, hsame, hs.2⟩
  · intro x hx
    simp only [World.settle, List.mem_append] at hx
    rcases hx with (hx | hx) | hx
    · exact Or.inl (by simp [hnet, hx])
    · exact Or.inl (by simp [hnet, hx])
    · refine Or.inr ?_
      obtain ⟨q, rfl, hq⟩ := hpast x hx
      intro hs
      have hlater : Past (({ w with net := a ++ b } : World).settle d.dst r' es
          (some d.packet)) d.src q.term := (hq hs).moves (hmoves d.src)
      exact ⟨hlater.1, fun _ => hlater⟩
  · exact fun v t ht => (mem_settle_threads ht).imp id fun hidle q it hpc =>
      absurd hidle (by simp [hpc])
  · intro v hc
    simp only [World.settle, hnet]
    refine countP_net_le fun x hx => ?_
    obtain ⟨q, rfl, hq⟩ := hpast x hx
    exact not_grants_of_past rfl hq hc

theorem ElectInv.handle_granted (h : ElectInv config w V) (hvalid : ∀ v, config v ≠ -1)
    {a b : List Datagram} {d : Datagram} {es : List Effect} (hnet : w.net = a ++ d :: b)
    (hh : Handled (w.raft d.dst) d.src d.packet r' es) {q : VoteRequest}
    (hp : d.packet = .vote q) (hfree : (w.raft d.dst).votedFor = -1)
    (hr' : r' = { w.raft d.dst with votedFor := q.candidateId }) :
    ElectInv config ({ w with net := a ++ b }.settle d.dst r' es (some d.packet))
      (V.record (some (d.dst, (w.raft d.dst).currentTerm, d.src))) := by
  have hd : d ∈ w.net := by simp [hnet]
  have hsane := h.sane d hd
  simp only [Sane, hp] at hsane
  have hnone := h.free d.dst hfree
  have hterm' : r'.currentTerm = (w.raft d.dst).currentTerm := by rw [hr']
  have hstate' : r'.state = (w.raft d.dst).state := by rw [hr']
  have hmoves : ∀ v, Moves (w.raft v) (Function.update w.raft d.dst r' v) := by
    intro v
    by_cases hv : v = d.dst
    · subst hv
      exact ⟨by simp [hterm'], fun _ hc => by simpa [hstate'] using hc⟩
    · simpa [hv] using Moves.refl _
  -- the one datagram sent is the answer to the candidate
  have hsent : ∀ x ∈ es.filterMap (Cluster.sentBy d.dst (some d.packet)),
      ∃ y, x = ⟨d.dst, d.src, .response y, some d.packet⟩ ∧
        y.term = (w.raft d.dst).currentTerm ∧ (0 < y.success → y.term = q.term) := by
    intro x hx
    rcases hh.sent d.dst (some d.packet) with hnil | ⟨y, hy, -, hterm, -, hpos⟩
    · rw [hnil] at hx
      exact absurd hx (by simp)
    · rw [hy, List.mem_singleton] at hx
      refine ⟨y, hx, hterm, fun hs => ?_⟩
      rw [hterm, ← (hpos hs).1, hp]
      rfl
  have hone : (es.filterMap (Cluster.sentBy d.dst (some d.packet))).length ≤ 1 := by
    rcases hh.sent d.dst (some d.packet) with hnil | ⟨y, hy, -⟩
    · simp [hnil]
    · simp [hy]
  -- the count of any candidate grows by at most its votes
  have hcount : ∀ v, (w.raft v).state = .candidate →
      (a ++ b ++ es.filterMap (Cluster.sentBy d.dst (some d.packet))).countP
        (grants v (w.raft v).currentTerm) + (V.voters (w.raft v).currentTerm v).card ≤
      w.net.countP (grants v (w.raft v).currentTerm) +
        ((V.record (some (d.dst, (w.raft d.dst).currentTerm, d.src))).voters
          (w.raft v).currentTerm v).card := by
    intro v hc
    have hsub := Finset.card_le_card (Votes.voters_record (c := d.src) hnone
      (w.raft v).currentTerm v)
    by_cases hmine : v = d.src ∧ (w.raft v).currentTerm = (w.raft d.dst).currentTerm
    · obtain ⟨rfl, hsame⟩ := hmine
      rw [hsame]
      have hmore := Votes.card_voters_record (c := d.src) hnone
      have hle := List.countP_le_length
        (p := grants d.src (w.raft d.dst).currentTerm)
        (l := es.filterMap (Cluster.sentBy d.dst (some d.packet)))
      simp only [hnet, List.countP_append, List.countP_cons]
      omega
    · have hzero : ∀ x ∈ es.filterMap (Cluster.sentBy d.dst (some d.packet)),
          grants v (w.raft v).currentTerm x = false := by
        intro x hx
        obtain ⟨y, rfl, hyterm, -⟩ := hsent x hx
        by_contra hg
        simp only [grants, Bool.not_eq_false, decide_eq_true_eq] at hg
        exact hmine ⟨hg.1.symm, by rw [← hg.2.1, hyterm]⟩
      have := countP_net_le (a := a) (b := b) (d := d) hzero
      rw [hnet]
      omega
  refine h.keeps (s := d.dst) ⟨rfl, by rw [hr']; exact ⟨rfl, rfl⟩, ?_, ?_, ?_, ?_,
    fun t c => Votes.voters_record hnone t c, ?_, ?_, ?_, fun v _ hc => hcount v hc, ?_⟩
  · have := hmoves d.dst
    rwa [Function.update_self] at this
  · intro hv
    rw [hr'] at hv
    exact absurd (hsane.1 ▸ hv) (hvalid d.src)
  · exact fun v t hv => Votes.record_of_ne (Or.inl hv)
  · intro t c hv
    rw [hterm']
    by_cases ht : t = (w.raft d.dst).currentTerm
    · exact le_of_eq ht
    · rw [Votes.record_of_ne (Or.inr ht)] at hv
      exact h.voted_le d.dst t c hv
  · intro x hx
    simp only [World.settle, List.mem_append] at hx
    rcases hx with (hx | hx) | hx
    · exact Or.inl (by simp [hnet, hx])
    · exact Or.inl (by simp [hnet, hx])
    · refine Or.inr ?_
      obtain ⟨y, rfl, -, hyterm⟩ := hsent x hx
      intro hs
      refine ⟨?_, fun hno => absurd (congrArg some hp) (hno q)⟩
      rw [hyterm hs]
      exact hsane.2.trans (hmoves d.src).1
  · exact fun v t ht => (mem_settle_threads ht).imp id fun hidle q it hpc =>
      absurd hidle (by simp [hpc])
  · intro hc
    rw [hstate'] at hc
    have h1 := h.count d.dst hc
    have h2 := hcount d.dst hc
    have h3 : r'.nvoted = (w.raft d.dst).nvoted := by rw [hr']
    rw [hterm', h3]
    simp only [World.settle]
    omega
  · intro hl
    rw [hstate'] at hl
    rw [hterm']
    exact (h.leader d.dst hl).mono (Votes.voters_record hnone _ _)

theorem ElectInv.handle_counted (h : ElectInv config w V) {a b : List Datagram} {d : Datagram}
    {es : List Effect} (hnet : w.net = a ++ d :: b)
    (hh : Handled (w.raft d.dst) d.src d.packet r' es) {q : Response}
    (hp : d.packet = .response q) (hterm : q.term = (w.raft d.dst).currentTerm)
    (hstate : (w.raft d.dst).state = .candidate) (hs : 0 < q.success)
    (hids : r'.config = (w.raft d.dst).config ∧ r'.id = (w.raft d.dst).id)
    (hsame : r'.currentTerm = (w.raft d.dst).currentTerm)
    (hvote : r'.votedFor = (w.raft d.dst).votedFor)
    (hvoted : r'.nvoted = (w.raft d.dst).nvoted + 1)
    (hdone : r'.state = .candidate ∨
      (r'.state = .leader ∧ ((w.raft d.dst).nvoted + 1) * 2 > (nServers : ℤ))) :
    ElectInv config ({ w with net := a ++ b }.settle d.dst r' es (some d.packet)) V := by
  have hnone : es.filterMap (Cluster.sentBy d.dst (some d.packet)) = [] := by
    rcases hh.sent d.dst (some d.packet) with hnil | ⟨y, -, -, -, hreq, -⟩
    · exact hnil
    · exact absurd hp (hreq q)
  -- the answer that is taken off the net is the one that is counted
  have hcount : ((a ++ b).countP (grants d.dst (w.raft d.dst).currentTerm) : ℤ) +
      ((w.raft d.dst).nvoted + 1) ≤ (V.voters (w.raft d.dst).currentTerm d.dst).card := by
    have h1 := h.count d.dst hstate
    have hg : grants d.dst (w.raft d.dst).currentTerm d = true := by
      simp [grants, hp, hterm, hs]
    simp only [hnet, List.countP_append, List.countP_cons, hg, if_true] at h1 ⊢
    push_cast at h1 ⊢
    omega
  refine h.keeps (s := d.dst) ⟨rfl, hids, ⟨le_of_eq hsame.symm, fun _ _ => hstate⟩,
    ?_, fun _ _ _ => rfl, ?_, fun _ _ => Finset.Subset.refl _, ?_, ?_, ?_, ?_, ?_⟩
  · intro hv
    rw [hvote] at hv
    rw [hsame]
    exact h.free d.dst hv
  · intro t c hv
    rw [hsame]
    exact h.voted_le d.dst t c hv
  · intro x hx
    simp only [World.settle, hnone, List.append_nil, List.mem_append] at hx
    exact Or.inl (by rcases hx with hx | hx <;> simp [hnet, hx])
  · exact fun v t ht => (mem_settle_threads ht).imp id fun hidle q it hpc =>
      absurd hidle (by simp [hpc])
  · intro _
    rw [hsame, hvoted]
    simp only [World.settle, hnone, List.append_nil]
    exact hcount
  · intro v _ hc
    simp only [World.settle, hnone, List.append_nil, hnet, List.countP_append, List.countP_cons]
    omega
  · intro hl
    rw [hsame]
    rcases hdone with hc | ⟨-, hmany⟩
    · rw [hc] at hl
      exact absurd hl (by simp)
    · have hcard : Fintype.card Server = nServers := Fintype.card_fin _
      unfold Majority
      rw [hcard]
      omega

theorem ElectInv.handle (h : ElectInv config w V) (hvalid : ∀ v, config v ≠ -1)
    {a b : List Datagram} {d : Datagram} {es : List Effect} (hnet : w.net = a ++ d :: b)
    (hh : Handled (w.raft d.dst) d.src d.packet r' es) :
    ElectInv config ({ w with net := a ++ b }.settle d.dst r' es (some d.packet))
      (V.record (World.ballot d (w.raft d.dst) r')) := by
  have hnone : r'.votedFor = (w.raft d.dst).votedFor →
      V.record (World.ballot d (w.raft d.dst) r') = V := by
    intro hv
    rw [World.ballot, if_pos hv]
    rfl
  generalize hpk : d.packet = pk at hh
  cases hh.elects with
  | granted q hterm hfree hr' =>
      have hsane := h.sane d (by simp [hnet])
      simp only [Sane, hpk] at hsane
      have hv : r'.votedFor ≠ (w.raft d.dst).votedFor := by
        rw [hr', hfree, hsane.1]
        exact hvalid d.src
      have hsame : r'.currentTerm = (w.raft d.dst).currentTerm := by rw [hr']
      rw [World.ballot, if_neg hv, hsame, ← hpk]
      rw [← hpk] at hh
      exact h.handle_granted hvalid hnet hh hpk hfree hr'
  | counted q hterm hstate hs hids hsame hvote hvoted hdone =>
      rw [hnone hvote, ← hpk]
      rw [← hpk] at hh
      exact h.handle_counted hnet hh hpk hterm hstate hs hids hsame hvote hvoted hdone
  | other packet hids hsame hvote hrole =>
      rw [hnone hvote, ← hpk]
      rw [← hpk] at hh
      exact h.handle_other hvalid hnet hh hids hsame hvote hrole

theorem ElectInv.campaign (h : ElectInv config w V) (hvalid : ∀ v, config v ≠ -1) (s : Server) :
    ElectInv config
      (w.settle s (attemptToElect (w.raft s)).raft (attemptToElect (w.raft s)).effects none)
      (V.record (some (s, (w.raft s).currentTerm + 1, s))) := by
  obtain ⟨hconfig, hid⟩ := h.ids s
  have hfresh : V s ((w.raft s).currentTerm + 1) = none := by
    cases hV : V s ((w.raft s).currentTerm + 1) with
    | none => rfl
    | some c =>
        have := h.voted_le s _ c hV
        omega
  -- only vote requests are sent
  have hsent : ∀ x ∈ (attemptToElect (w.raft s)).effects.filterMap (Cluster.sentBy s none),
      ∃ q, x.src = s ∧ x.packet = .vote q ∧ q.candidateId = config s ∧
        q.term = (w.raft s).currentTerm + 1 := by
    intro x hx
    obtain ⟨y, hy, hyx⟩ := List.mem_filterMap.mp hx
    simp only [attemptToElect_eq, List.mem_cons, List.mem_map] at hy
    rcases hy with rfl | ⟨i, -, rfl⟩
    · exact absurd hyx (by simp [Cluster.sentBy])
    · simp only [Cluster.sentBy, Option.some.injEq] at hyx
      subst hyx
      exact ⟨_, rfl, rfl, hid, rfl⟩
  have hnot : ∀ v t, ∀ x ∈ (attemptToElect (w.raft s)).effects.filterMap (Cluster.sentBy s none),
      grants v t x = false := by
    intro v t x hx
    obtain ⟨q, -, hq, -⟩ := hsent x hx
    simp [grants, hq]
  have hcount : ∀ v t, (w.net ++ (attemptToElect (w.raft s)).effects.filterMap
      (Cluster.sentBy s none)).countP (grants v t) = w.net.countP (grants v t) := by
    intro v t
    have hzero := List.countP_eq_zero.mpr fun x hx => by simpa using hnot v t x hx
    rw [List.countP_append, hzero, Nat.add_zero]
  refine h.keeps (s := s)
    ⟨rfl, ⟨rfl, rfl⟩, ⟨?_, ?_⟩, ?_, ?_, ?_, fun t c => Votes.voters_record hfresh t c, ?_, ?_, ?_,
      ?_, ?_⟩
  · change (w.raft s).currentTerm ≤ (w.raft s).currentTerm + 1
    omega
  · intro hsame
    change (w.raft s).currentTerm + 1 = (w.raft s).currentTerm at hsame
    omega
  · intro hv
    change (w.raft s).id = -1 at hv
    exact absurd (hid ▸ hv) (hvalid s)
  · exact fun v t hv => Votes.record_of_ne (Or.inl hv)
  · intro t c hv
    change t ≤ (w.raft s).currentTerm + 1
    by_cases ht : t = (w.raft s).currentTerm + 1
    · exact le_of_eq ht
    · rw [Votes.record_of_ne (Or.inr ht)] at hv
      have := h.voted_le s t c hv
      omega
  · intro x hx
    simp only [World.settle, List.mem_append] at hx
    rcases hx with hx | hx
    · exact Or.inl hx
    · refine Or.inr ?_
      obtain ⟨q, hsrc, hq, hcand, hterm⟩ := hsent x hx
      simp only [Sane, hq, hsrc, World.settle, Function.update_self]
      exact ⟨hcand, le_of_eq hterm⟩
  · exact fun v t ht => (mem_settle_threads ht).imp id fun hidle q it hpc =>
      absurd hidle (by simp [hpc])
  · intro _
    change ((w.net ++ _).countP (grants s ((w.raft s).currentTerm + 1)) : ℤ) + 1 ≤ _
    rw [hcount]
    -- no answer of the new term can be on its way yet
    have hzero : w.net.countP (grants s ((w.raft s).currentTerm + 1)) = 0 := by
      refine List.countP_eq_zero.mpr fun x hx hg => ?_
      have hsane := h.sane x hx
      cases hp : x.packet with
      | response q =>
          simp only [grants, hp, decide_eq_true_eq] at hg
          simp only [Sane, hp] at hsane
          have := (hsane hg.2.2).1
          rw [hg.1] at this
          omega
      | _ => simp [grants, hp] at hg
    have hmine := Votes.card_voters_record (c := s) hfresh
    change _ ≤ (((V.record (some (s, (w.raft s).currentTerm + 1, s))).voters
      ((w.raft s).currentTerm + 1) s).card : ℤ)
    omega
  · intro v _ _
    have := Finset.card_le_card (Votes.voters_record (c := s) hfresh (w.raft v).currentTerm v)
    simp only [World.settle, hcount]
    omega
  · intro hl
    exact absurd hl (by simp [attemptToElect_eq, campaigner])

/-- A change to one server that leaves its term, vote and role alone and adds
at most idle threads. -/
theorem ElectInv.settle_quiet (h : ElectInv config w V) {es : List Effect}
    (hids : r'.config = (w.raft s).config ∧ r'.id = (w.raft s).id)
    (hsame : r'.currentTerm = (w.raft s).currentTerm ∧ r'.votedFor = (w.raft s).votedFor ∧
      r'.state = (w.raft s).state ∧ r'.nvoted = (w.raft s).nvoted)
    (hes : es.filterMap (Cluster.sentBy s none) = []) :
    ElectInv config (w.settle s r' es none) V := by
  refine h.quiet (s := s) rfl hids (le_of_eq hsame.1.symm) (fun _ => hsame.2.1)
    (Or.inr ⟨hsame.2.2.1, hsame.1, hsame.2.2.2⟩) ?_ ?_ ?_
  · intro x hx
    simp only [World.settle, hes, List.append_nil] at hx
    exact Or.inl hx
  · exact fun v t ht => (mem_settle_threads ht).imp id fun hidle q it hpc =>
      absurd hidle (by simp [hpc])
  · intro v _
    simp [World.settle, hes]

/-- A leader thread whose server, if it is a candidate, stays in the waiting
loop. -/
def LeavesRole (r : RaftState) (t : LeaderThread) : Prop :=
  t.pc = .waiting → r.snapshotInProgress = false → r.state ≠ .candidate

/-- A leader thread sends only requests of terms its server is past. -/
theorem sends_past {t : LeaderThread} {es : List Effect} {pc : Option LeaderPc}
    (hs : Sends (w.raft s) t r' es pc) (hrole : LeavesRole (w.raft s) t)
    (hold : ∀ q it, t.pc = .sending q it → Past w s q.term) :
    (∀ x ∈ es.filterMap (Cluster.sentBy s none), x.src = s ∧
      ((∃ q, x.packet = .append q ∧ Past w s q.term) ∨
        ∃ q, x.packet = .installSnapshot q ∧ Past w s q.term)) ∧
    ∀ q it, pc = some (.sending q it) → Past w s q.term := by
  have hleader : (w.raft s).state = .leader → Past w s (w.raft s).currentTerm :=
    fun hl => ⟨le_rfl, fun _ hc => by rw [hl] at hc; exact absurd hc (by simp)⟩
  have hone : ∀ (f : Server) (packet : Packet) (x : Datagram),
      x ∈ [Effect.send f packet].filterMap (Cluster.sentBy s none) →
      x = ⟨s, f, packet, none⟩ := by
    intro f packet x hx
    simpa [Cluster.sentBy] using hx
  cases hs with
  | stop hpc hstate => simp
  | heartbeat hpc hstate hnext heq =>
      refine ⟨fun x hx => ?_, by simp⟩
      rw [hone _ _ x hx]
      exact ⟨rfl, Or.inl ⟨_, rfl, hleader hstate⟩⟩
  | entry hpc hstate hnext e he =>
      refine ⟨fun x hx => ?_, by simp⟩
      rw [hone _ _ x hx]
      exact ⟨rfl, Or.inl ⟨_, rfl, hleader hstate⟩⟩
  | wait hpc hbusy => simp
  | first hpc hfree q it hterm hid =>
      have hpast : Past w s q.term := by
        rw [hterm]
        refine ⟨le_rfl, fun _ => ?_⟩
        rcases hpc with hwait | ⟨-, hl, -⟩
        · exact hrole hwait hfree
        · rw [hl]
          simp
      refine ⟨fun x hx => ?_, fun q' it' hq => ?_⟩
      · rw [hone _ _ x hx]
        exact ⟨rfl, Or.inr ⟨q, rfl, hpast⟩⟩
      · simp only [Option.some.injEq, LeaderPc.sending.injEq] at hq
        rw [← hq.1]
        exact hpast
  | next q q' it it' hpc hterm hid =>
      have hpast : Past w s q'.term := by
        rw [hterm]
        exact hold q it hpc
      refine ⟨fun x hx => ?_, fun q'' it'' hq => ?_⟩
      · rw [hone _ _ x hx]
        exact ⟨rfl, Or.inr ⟨q', rfl, hpast⟩⟩
      · simp only [Option.some.injEq, LeaderPc.sending.injEq] at hq
        rw [← hq.1]
        exact hpast
  | giveUp q it hpc => simp
  | finish q it hpc hid hres hdone => simp

theorem Sends.same {r : RaftState} {t : LeaderThread} {es : List Effect} {pc : Option LeaderPc}
    (h : Sends r t r' es pc) : r'.currentTerm = r.currentTerm ∧ r'.votedFor = r.votedFor ∧
      r'.state = r.state ∧ r'.nvoted = r.nvoted ∧ r'.config = r.config ∧ r'.id = r.id := by
  cases h <;> exact ⟨rfl, rfl, rfl, rfl, rfl, rfl⟩

theorem ElectInv.sender_step (h : ElectInv config w V) {a b : List LeaderThread} {t : LeaderThread}
    {es : List Effect} {pc : Option LeaderPc} (ht : w.threads s = a ++ t :: b)
    (hrole : LeavesRole (w.raft s) t) (hs : Sends (w.raft s) t r' es pc) :
    ElectInv config
      ({ w with
          threads := Function.update w.threads s
            (a ++ (pc.map fun pc => { t with pc }).toList ++ b) }.settle s r' es none) V := by
  obtain ⟨h1, h2, h3, h4, h5, h6⟩ := hs.same
  obtain ⟨hsent, hpc⟩ := sends_past hs hrole (h.sender s t (by simp [ht]))
  have hmoves : Moves (w.raft s) r' := ⟨le_of_eq h1.symm, fun _ hc => by rwa [h3] at hc⟩
  refine h.quiet (s := s) rfl ⟨h5, h6⟩ (le_of_eq h1.symm) (fun _ => h2)
    (Or.inr ⟨h3, h1, h4⟩) ?_ ?_ ?_
  · intro x hx
    simp only [World.settle, List.mem_append] at hx
    rcases hx with hx | hx
    · exact Or.inl hx
    · refine Or.inr ?_
      obtain ⟨hsrc, ⟨q, hq, hp⟩ | ⟨q, hq, hp⟩⟩ := hsent x hx
      · simp only [Sane, hq, hsrc]
        exact hp.moves (by simpa [World.settle] using hmoves)
      · simp only [Sane, hq, hsrc]
        exact hp.moves (by simpa [World.settle] using hmoves)
  · intro v t' ht'
    by_cases hv : v = s
    · subst hv
      simp only [World.settle, Function.update_self, List.mem_append] at ht'
      rcases ht' with ((ht' | ht') | ht') | ht'
      · exact Or.inl (by simp [ht, ht'])
      · refine Or.inr fun q it hq => ?_
        obtain ⟨pc', hpc', rfl⟩ : ∃ pc', pc = some pc' ∧ t' = { t with pc := pc' } := by
          cases pc with
          | none => exact absurd ht' (by simp)
          | some pc' => exact ⟨pc', rfl, by simpa using ht'⟩
        have hq' : pc' = .sending q it := hq
        exact (hpc q it (by rw [hpc', hq'])).moves (by simpa [World.settle] using hmoves)
      · exact Or.inl (by simp [ht, ht'])
      · exact Or.inr fun q it hpc' => absurd (spawned_idle ht') (by simp [hpc'])
    · exact Or.inl (by simpa [World.settle, hv] using ht')
  · intro v _
    have hzero : (es.filterMap (Cluster.sentBy s none)).countP
        (grants v (w.raft v).currentTerm) = 0 := by
      refine List.countP_eq_zero.mpr fun x hx => ?_
      obtain ⟨-, ⟨q, hq, -⟩ | ⟨q, hq, -⟩⟩ := hsent x hx <;> simp [grants, hq]
    simp [World.settle, List.countP_append, hzero]

theorem ElectInv.restarted (h : ElectInv config w V) {st : RaftState}
    (hst : Agrees st (w.raft s)) (hraft : w'.raft = Function.update w.raft s (forget st))
    (hthreads : w'.threads = Function.update w.threads s []) (hnet : w'.net = w.net) :
    ElectInv config w' V := by
  refine h.quiet (s := s) hraft ⟨hst.config, hst.id⟩
    (le_of_eq hst.currentTerm.symm) (fun _ => hst.votedFor) (Or.inl rfl)
    (fun d hd => Or.inl (hnet ▸ hd)) ?_ (fun v _ => by rw [hnet])
  intro v t ht
  rw [hthreads] at ht
  by_cases hv : v = s
  · subst hv
    exact absurd ht (by simp)
  · exact Or.inl (by simpa [hv] using ht)

/-- The invariant is kept by every step in which no thread leaves the waiting
loop of `Raft_send_snapshot` at a candidate. -/
theorem ElectInv.step {g : Guard}
    (hg : ∀ s, ∀ t ∈ w.threads s, g.sender (w.raft s) t → LeavesRole (w.raft s) t)
    (hvalid : ∀ v, config v ≠ -1) (h : ElectInv config w V) {v : Option (Server × ℤ × Server)}
    (hstep : World.Step g w v w') : ElectInv config w' (V.record v) := by
  cases hstep with
  | stepDown s t ht =>
      have hf := convertToFollower_follows (w.raft s) t
      refine h.quiet (s := s) rfl
        ⟨hf.config, hf.id⟩ (by rw [hf.currentTerm]; omega) ?_ (Or.inl hf.state)
        (fun d hd => Or.inl hd) (fun v t ht => Or.inl ht) (fun v _ => le_rfl)
      intro hsame
      rw [hf.currentTerm] at hsame
      omega
  | campaign s => exact h.campaign hvalid s
  | handle a b d r' es hnet hle hg' hh => exact h.handle hvalid hnet hh
  | turns d l hd hg' hl => exact h.restarted (Agrees.refl _) rfl rfl rfl
  | lose net hsub =>
      refine ⟨h.ids, h.free, h.voted_le, fun d hd => h.sane d (hsub.subset hd), h.sender, ?_,
        h.leader⟩
      intro s hc
      have h1 := h.count s hc
      have h2 := hsub.countP_le (p := grants s (w.raft s).currentTerm)
      simp only [Votes.record]
      omega
  | append s e hf =>
      rcases appendEntry_ok hf with heq | ⟨r', heq, -, -, -, hr'⟩
      · rw [heq]
        exact h.settle_quiet ⟨rfl, rfl⟩ ⟨rfl, rfl, rfl, rfl⟩ rfl
      · rw [heq, hr']
        exact h.settle_quiet ⟨rfl, rfl⟩ ⟨rfl, rfl, rfl, rfl⟩ rfl
  | sender s a b t r' es pc ht hg' hs => exact h.sender_step ht (hg s t (by simp [ht]) hg') hs
  | enter s n r' he =>
      obtain ⟨-, rfl⟩ := createSnapshotEnter_some he
      exact h.quiet (s := s) rfl ⟨rfl, rfl⟩ le_rfl (fun _ => rfl) (Or.inr ⟨rfl, rfl, rfl⟩)
        (fun d hd => Or.inl hd) (fun v t ht => Or.inl ht) (fun v _ => le_rfl)
  | shift s n hn hg' hf =>
      obtain ⟨-, heq⟩ := createSnapshotShift_ok hf
      rw [heq]
      exact h.settle_quiet ⟨rfl, rfl⟩ ⟨rfl, rfl, rfl, rfl⟩ rfl
  | crash s st hst => exact h.restarted hst rfl rfl rfl
  | replay s l hl => exact ⟨h.ids, h.free, h.voted_le, h.sane, h.sender, h.count, h.leader⟩

/-- Votes are never taken back. -/
theorem ElectInv.step_voters {g : Guard} (h : ElectInv config w V)
    {v : Option (Server × ℤ × Server)} (hstep : World.Step g w v w') (t : ℤ) (c : Server) :
    V.voters t c ⊆ (V.record v).voters t c := by
  cases hstep with
  | campaign s =>
      refine Votes.voters_record ?_ t c
      cases hV : V s ((w.raft s).currentTerm + 1) with
      | none => rfl
      | some c =>
          have := h.voted_le s _ c hV
          omega
  | handle a b d r' es hnet hle hg' hh =>
      unfold World.ballot
      split_ifs with hsame
      · exact Finset.Subset.refl _
      · refine Votes.voters_record ?_ t c
        generalize hpk : d.packet = pk at hh
        cases hh.elects with
        | granted q hterm hfree hr' =>
            have := h.free d.dst hfree
            rwa [hr']
        | counted q hterm hstate hs hids hsame' hvote hvoted hdone => exact absurd hvote hsame
        | other packet hids hsame' hvote hrole => exact absurd hvote hsame
  | _ => exact Finset.Subset.refl _

theorem ElectInv.path {g : Guard} (hg : ∀ r t, g.sender r t → LeavesRole r t)
    (hvalid : ∀ v, config v ≠ -1) (h : ElectInv config w V) (hpath : World.Path g w w') :
    ∃ V', ElectInv config w' V' ∧ ∀ t c, V.voters t c ⊆ V'.voters t c := by
  induction hpath with
  | refl => exact ⟨V, h, fun _ _ => Finset.Subset.refl _⟩
  | tail _ hstep ih =>
      obtain ⟨V₁, h₁, hsub⟩ := ih
      obtain ⟨v, hv⟩ := hstep
      exact ⟨V₁.record v, h₁.step (fun s t _ => hg _ t) hvalid hv,
        fun t c => (hsub t c).trans (h₁.step_voters hv t c)⟩

theorem electInv_init (config : Config) : ElectInv config (World.init config) fun _ _ => none where
  ids _ := ⟨rfl, rfl⟩
  free _ _ := rfl
  voted_le _ _ _ h := absurd h (by simp)
  sane d hd := absurd hd (by simp [World.init])
  sender s t ht := absurd ht (by simp [World.init])
  count s hc := absurd hc (by simp [World.init, serverInit])
  leader s hl := absurd hl (by simp [World.init, serverInit])

end Step

/-! ### At most one leader -/

/-- Runs in which no thread leaves the waiting loop of `Raft_send_snapshot` at
a server that has become a candidate. -/
abbrev rolesKept : Guard where
  packet _ _ _ := True
  sender := LeavesRole
  shift _ _ := True

instance (r : RaftState) (t : LeaderThread) : Decidable (LeavesRole r t) :=
  inferInstanceAs (Decidable (_ → _ → _))

/-- Two leaders of one term, at whatever moments of a run, are one server; and
a candidate counts only answers to vote requests. -/
theorem one_leader_per_term {config : Config} (hvalid : ∀ s, config s ≠ -1) {c c' : Cluster}
    (hrun : Cluster.Run config rolesKept.allows c) (hlater : Cluster.Steps rolesKept.allows c c') :
    (∀ s s', (c.nodes s).up = true → (c.nodes s).raft.state = .leader →
      (c'.nodes s').up = true → (c'.nodes s').raft.state = .leader →
      (c.nodes s).raft.currentTerm = (c'.nodes s').raft.currentTerm → s = s') ∧
    ∀ d ∈ c.net, ∀ q, d.packet = .response q → (c.nodes d.dst).up = true →
      (c.nodes d.dst).raft.state = .candidate → q.term = (c.nodes d.dst).raft.currentTerm →
      0 < q.success → ∃ v, d.answers = some (.vote v) := by
  obtain ⟨w, hpath, href⟩ := (refines_init config).steps hrun
  obtain ⟨V, hinv, -⟩ := (electInv_init config).path (fun _ _ h => h) hvalid hpath
  obtain ⟨w', hpath', href'⟩ := href.steps hlater
  obtain ⟨V', hinv', hsub⟩ := hinv.path (fun _ _ h => h) hvalid hpath'
  refine ⟨?_, ?_⟩
  · intro s s' hup hl hup' hl' hterm
    rw [← (href.node s).raft_eq hup] at hl hterm
    rw [← (href'.node s').raft_eq hup'] at hl' hterm
    -- two majorities meet in a server, which has one vote
    obtain ⟨v, hv, hv'⟩ := ((hinv.leader s hl).mono (hsub _ _)).inter (hinv'.leader s' hl')
    rw [Votes.mem_voters] at hv hv'
    rw [hterm, hv', Option.some.injEq] at hv
    exact hv.symm
  · intro d hd q hp hup hc hterm hs
    rw [← href.net] at hd
    rw [← (href.node d.dst).raft_eq hup] at hc hterm
    have hsane := hinv.sane d hd
    simp only [Sane, hp] at hsane
    by_contra hno
    push Not at hno
    exact ((hsane hs).2 hno).2 hterm hc

/-- Server `0` is elected by servers `1` and `2`. -/
def firstElection : List Action :=
  [.timeout 0, .elect 0 none, .deliver 0 none, .deliver 0 none, .drop 0, .drop 0,
    .deliver 0 none, .deliver 0 none]

def leads (c : Cluster) (s : Server) (t : ℤ) : Bool :=
  (c.nodes s).up && decide ((c.nodes s).raft.state = .leader ∧ (c.nodes s).raft.currentTerm = t)

theorem firstElection_runs : ((Cluster.init plainConfig).execWhile
    (fun c x => decide (rolesKept.allows c x)) firstElection).any (fun c => leads c 0 1) =
    true := by
  decide +kernel

theorem first_leader_is_alone : ∃ c, Cluster.Run plainConfig rolesKept.allows c ∧
    leads c 0 1 = true ∧ ∀ s, leads c s 1 = true → s = 0 := by
  obtain ⟨c, hrun, hlead⟩ := Machine.exists_of_execWhile rolesKept.allows
    (fun _ _ h => of_decide_eq_true h) firstElection_runs
  refine ⟨c, hrun, hlead, fun s hs => ?_⟩
  simp only [leads, Bool.and_eq_true, decide_eq_true_eq] at hlead hs
  exact (one_leader_per_term (by decide) hrun .refl).1 s 0 hs.1 hs.2.1 hlead.1 hlead.2.1
    (hs.2.2.trans hlead.2.2.symm)

section TwoLeaders

/-- Four requests to server `3` under the request ids `0`, `1` and `2`, of
which one of each id stays on its way. A vote request of server `4` ends term
`1`, and server `0` is elected again in term `3`. -/
def staleRequests : List Action :=
  [.leaderThread 0 2, .leaderThread 0 2, .deliver 0 none, .deliver 1 none,
    .leaderThread 0 2, .leaderThread 0 2, .deliver 1 none, .deliver 2 none, .leaderThread 0 2,
    .timeout 4, .elect 4 none, .drop 3, .drop 3, .drop 3, .drop 3, .retry 4 none,
    .deliver 3 none, .drop 3, .drop 3, .drop 3, .drop 3, .timeout 0, .elect 0 none,
    .deliver 3 none, .deliver 3 none, .deliver 3 none, .deliver 3 none, .deliver 3 none,
    .deliver 3 none, .drop 3, .drop 3]

/-- Their refusals fit the request ids of term `3` and drive `next_index` of
server `3` down to `-1`. -/
def staleRefusals : List Action :=
  [.deliver 0 none, .deliver 2 none, .deliver 0 none, .deliver 1 none, .deliver 0 none,
    .deliver 0 none]

/-- One request to each of servers `1` and `2`, and their answers. -/
def exchange : List Action :=
  [.leaderThread 0 0, .leaderThread 0 1, .deliver 0 none, .deliver 0 none, .deliver 0 none,
    .deliver 0 none]

/-- A client entry that writes no file. -/
def emptyEntry : LogEntry := ⟨0, 0, .clientLog, 0, 0, []⟩

/-- Sixty entries are committed by servers `0`, `1` and `2`. -/
def sixtyCommits : List Action :=
  (List.replicate 4 exchange).flatten ++
    (List.replicate 58 (.append 0 emptyEntry none :: exchange)).flatten

/-- Server `0` starts its snapshot, and the thread for server `3` waits for
it. -/
def waitForSnapshot : List Action :=
  List.replicate 3 (.snapshotThread 0 0 none) ++ [.leaderThread 0 2]

/-- A vote request of server `4` ends term `3` at servers `0` and `2`, and
server `0` stands for election in term `5`; server `1` votes for it. -/
def loseRole : List Action :=
  [.timeout 4, .elect 4 none, .deliver 0 none, .drop 0, .deliver 0 none, .drop 0, .drop 0,
    .drop 0, .timeout 0, .elect 0 none, .deliver 0 none, .drop 0, .drop 0, .drop 0]

/-- The snapshot is done, the thread sends it to server `3` in the name of
term `5`, and the answer is counted as a vote. -/
def countAnswer : List Action :=
  List.replicate 54 (.snapshotThread 0 0 none) ++
    [.leaderThread 0 2, .deliver 1 none, .deliver 0 none, .deliver 0 none]

/-- Server `2` is elected in term `5` by servers `3` and `4`. -/
def secondElection : List Action :=
  [.timeout 2, .elect 2 none, .drop 0, .drop 0, .deliver 0 none, .deliver 0 none,
    .deliver 0 none, .deliver 0 none]

def twoLeaders : List Action :=
  firstElection ++ staleRequests ++ staleRefusals ++ sixtyCommits ++ waitForSnapshot ++
    loseRole ++ countAnswer ++ secondElection

set_option maxRecDepth 100000 in
theorem twoLeaders_runs : ((Cluster.init plainConfig).execAll twoLeaders).any
    (fun c => leads c 0 5 && leads c 2 5) = true := by
  decide +kernel

/-- Without the restriction a term can have two leaders. -/
theorem two_leaders_in_one_term : ∃ c, Cluster.Reachable plainConfig c ∧
    leads c 0 5 = true ∧ leads c 2 5 = true := by
  obtain ⟨c, hc, hlead⟩ := Machine.exists_of_execAll twoLeaders_runs
  rw [Bool.and_eq_true] at hlead
  exact ⟨c, hc, hlead⟩

end TwoLeaders

end RaftLock

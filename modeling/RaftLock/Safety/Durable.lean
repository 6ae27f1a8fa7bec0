import RaftLock.Safety.Duplicates

/-!
Terms and votes survive a crash.

A ballot is the vote a server has had in a term. It is in the saved state
before an answer that tells of it leaves, and a vote once given is there until
the term is over. A server that crashes goes on from its file, so the ballots
of its whole life do not contradict each other, its own candidacies included.
-/

namespace RaftLock

open Outcome

/-- The id of the candidate a server has voted for, by server and term. -/
abbrev Ballots := Server → ℤ → Option ℤ

/-- The vote in `voted_for`. -/
def RaftState.vote (r : RaftState) : Option ℤ := if r.votedFor = -1 then none else some r.votedFor

/-- What a server can have sent: packets of terms it has reached, vote
requests for itself, and, for a vote it has given, an answer. -/
structure Backs (config : Config) (w : World) (B : Ballots) (d : Datagram) : Prop where
  pos : 1 ≤ d.packet.term
  le : d.packet.term ≤ (w.raft d.src).currentTerm
  request : ∀ q, d.packet = .vote q →
    q.candidateId = config d.src ∧ B d.src q.term = some (config d.src)
  answer : ∀ v q, d.answers = some (.vote v) → d.packet = .response q → 0 < q.success →
    B d.src q.term = some v.candidateId

structure BallotInv (config : Config) (w : World) (B : Ballots) : Prop where
  ids : ∀ s, (w.raft s).id = config s
  nonneg : ∀ s, 0 ≤ (w.raft s).currentTerm
  active : ∀ s, ((w.raft s).state ≠ .follower ∨ w.threads s ≠ []) → 1 ≤ (w.raft s).currentTerm
  current : ∀ s, B s (w.raft s).currentTerm = (w.raft s).vote
  later : ∀ s t, (w.raft s).currentTerm < t → B s t = none
  net : ∀ d ∈ w.net, Backs config w B d
  sending : ∀ s, ∀ t ∈ w.threads s, ∀ q it, t.pc = .sending q it →
    1 ≤ q.term ∧ q.term ≤ (w.raft s).currentTerm

/-- No ballot is taken back and no term goes down. -/
structure Lasts (w w' : World) (B B' : Ballots) : Prop where
  term : ∀ s, (w.raft s).currentTerm ≤ (w'.raft s).currentTerm
  ballot : ∀ s t id, B s t = some id → B' s t = some id

section Step

variable {config : Config} {w w' w₁ : World} {B B' B₁ : Ballots} {s : Server} {r' : RaftState}

theorem Lasts.refl (w : World) (B : Ballots) : Lasts w w B B := ⟨fun _ => le_rfl, fun _ _ _ h => h⟩

theorem Lasts.trans (h : Lasts w w₁ B B₁) (h' : Lasts w₁ w' B₁ B') : Lasts w w' B B' :=
  ⟨fun s => (h.term s).trans (h'.term s), fun s t id hB => h'.ballot s t id (h.ballot s t id hB)⟩

theorem Backs.lasts {d : Datagram} (h : Backs config w B d) (hl : Lasts w w' B B') :
    Backs config w' B' d where
  pos := h.pos
  le := h.le.trans (hl.term d.src)
  request q hq := ⟨(h.request q hq).1, hl.ballot _ _ _ (h.request q hq).2⟩
  answer v q hv hq hs := hl.ballot _ _ _ (h.answer v q hv hq hs)

/-- What a step of server `s` to `r'` has to do to keep the invariant. -/
structure Casts (config : Config) (w w' : World) (B B' : Ballots) (s : Server) (r' : RaftState) :
    Prop where
  raft : w'.raft = Function.update w.raft s r'
  id : r'.id = (w.raft s).id
  term : (w.raft s).currentTerm ≤ r'.currentTerm
  active : r'.state = .follower ∨ r'.state = (w.raft s).state ∨ 1 ≤ r'.currentTerm
  threads : ∀ v, ∀ t ∈ w'.threads v, t ∈ w.threads v ∨ (v = s ∧ 1 ≤ r'.currentTerm ∧
    ∀ q it, t.pc = .sending q it → 1 ≤ q.term ∧ q.term ≤ r'.currentTerm)
  others : ∀ v t, v ≠ s → B' v t = B v t
  ballot : ∀ t id, B s t = some id → B' s t = some id
  current : B' s r'.currentTerm = r'.vote
  later : ∀ t, r'.currentTerm < t → B' s t = none
  net : ∀ d ∈ w'.net, d ∈ w.net ∨ Backs config w' B' d

theorem Casts.lasts (h : Casts config w w' B B' s r') : Lasts w w' B B' where
  term v := by
    rw [h.raft, Function.update_apply]
    split
    · rename_i hv
      exact hv ▸ h.term
    · exact le_rfl
  ballot v t id hB := by
    rcases eq_or_ne v s with rfl | hv
    · exact h.ballot t id hB
    · rwa [h.others v t hv]

theorem BallotInv.casts (h : BallotInv config w B) (hc : Casts config w w' B B' s r') :
    BallotInv config w' B' := by
  have hself : w'.raft s = r' := by simp [hc.raft]
  have hother : ∀ v, v ≠ s → w'.raft v = w.raft v := fun v hv => by simp [hc.raft, hv]
  refine ⟨fun v => ?_, fun v => (h.nonneg v).trans (hc.lasts.term v), fun v hv => ?_, fun v => ?_,
    fun v t ht => ?_, fun d hd => ?_, fun v t ht q it hpc => ?_⟩
  · rcases eq_or_ne v s with rfl | hv
    · rw [hself, hc.id]
      exact h.ids v
    · rw [hother v hv]
      exact h.ids v
  · have hold : (w.raft v).state ≠ .follower ∨ w.threads v ≠ [] → 1 ≤ (w'.raft v).currentTerm :=
      fun ha => (h.active v ha).trans (hc.lasts.term v)
    rcases hv with hrole | hthreads
    · rcases eq_or_ne v s with rfl | hne
      · rw [hself] at hrole hold ⊢
        rcases hc.active with hf | hsame | hpos
        · exact absurd hf hrole
        · exact hold (Or.inl (hsame ▸ hrole))
        · exact hpos
      · exact hold (Or.inl (hother v hne ▸ hrole))
    · obtain ⟨t, ht⟩ := List.exists_mem_of_ne_nil _ hthreads
      rcases hc.threads v t ht with hmem | ⟨rfl, hpos, -⟩
      · exact hold (Or.inr (List.ne_nil_of_mem hmem))
      · rwa [hself]
  · rcases eq_or_ne v s with rfl | hv
    · rw [hself]
      exact hc.current
    · rw [hother v hv, hc.others v _ hv]
      exact h.current v
  · rcases eq_or_ne v s with rfl | hv
    · rw [hself] at ht
      exact hc.later t ht
    · rw [hother v hv] at ht
      rw [hc.others v t hv]
      exact h.later v t ht
  · rcases hc.net d hd with hold | hnew
    · exact (h.net d hold).lasts hc.lasts
    · exact hnew
  · rcases hc.threads v t ht with hmem | ⟨rfl, -, hnew⟩
    · obtain ⟨hpos, hle⟩ := h.sending v t hmem q it hpc
      exact ⟨hpos, hle.trans (hc.lasts.term v)⟩
    · rw [hself]
      exact hnew q it hpc

/-- The vote of a server that stays in its term with its vote. -/
theorem BallotInv.kept (h : BallotInv config w B) (hterm : r'.currentTerm = (w.raft s).currentTerm)
    (hvote : r'.votedFor = (w.raft s).votedFor) :
    B s r'.currentTerm = r'.vote ∧ ∀ t, r'.currentTerm < t → B s t = none := by
  rw [hterm, RaftState.vote, hvote]
  exact ⟨h.current s, h.later s⟩

/-- A server that stays in its term with its vote, starts at most idle threads
and sends nothing. -/
theorem BallotInv.still (h : BallotInv config w B)
    (hraft : w'.raft = Function.update w.raft s r') (hid : r'.id = (w.raft s).id)
    (hterm : r'.currentTerm = (w.raft s).currentTerm)
    (hvote : r'.votedFor = (w.raft s).votedFor)
    (hrole : r'.state = .follower ∨ r'.state = (w.raft s).state)
    (hthreads : ∀ v, ∀ t ∈ w'.threads v, t ∈ w.threads v)
    (hnet : ∀ d ∈ w'.net, d ∈ w.net) : BallotInv config w' B ∧ Lasts w w' B B := by
  obtain ⟨hcurrent, hlater⟩ := h.kept hterm hvote
  have hc : Casts config w w' B B s r' := by
    refine ⟨hraft, hid, hterm.ge, ?_, fun v t ht => Or.inl (hthreads v t ht), fun _ _ _ => rfl,
      fun _ _ h => h, hcurrent, hlater, fun d hd => Or.inl (hnet d hd)⟩
    exact hrole.imp id Or.inl
  exact ⟨h.casts hc, hc.lasts⟩

/-- The datagrams change, the servers do not. -/
theorem BallotInv.rerouted (h : BallotInv config w B) (hraft : w'.raft = w.raft)
    (hthreads : w'.threads = w.threads) (hnet : ∀ d ∈ w'.net, d ∈ w.net) :
    BallotInv config w' B ∧ Lasts w w' B B := by
  refine h.still (s := 0) ?_ rfl rfl rfl (Or.inr rfl) (fun v t ht => hthreads ▸ ht) hnet
  rw [hraft, Function.update_eq_self]

/-- A section that sends nothing and starts no thread. -/
theorem BallotInv.settled (h : BallotInv config w B) {es : List Effect}
    (hid : r'.id = (w.raft s).id) (hterm : r'.currentTerm = (w.raft s).currentTerm)
    (hvote : r'.votedFor = (w.raft s).votedFor) (hstate : r'.state = (w.raft s).state)
    (hsend : ∀ dst p, .send dst p ∉ es) (hspawn : spawned es = []) :
    BallotInv config (w.settle s r' es none) B ∧ Lasts w (w.settle s r' es none) B B := by
  refine h.still rfl hid hterm hvote (Or.inr hstate) (fun v t ht => ?_) fun d hd => ?_
  · refine (mem_settle_spawned ht).resolve_right fun hnew => ?_
    rw [hspawn] at hnew
    exact absurd hnew.2 (by simp)
  · exact (mem_settle_sent hd).resolve_right fun hnew => hsend _ _ hnew.2.2

/-- Handlers answer, and that is all they send. -/
theorem Handled.sends_response {r r' : RaftState} {addr : Server} {packet : Packet}
    {es : List Effect} (hh : Handled r addr packet r' es) {dst : Server} {p : Packet}
    (hmem : .send dst p ∈ es) : ∃ q, p = .response q := by
  have hsent : (⟨addr, dst, p, none⟩ : Datagram) ∈ es.filterMap (Cluster.sentBy addr none) :=
    List.mem_filterMap.mpr ⟨_, hmem, rfl⟩
  rcases hh.sent addr none with hnil | ⟨q, hone, -⟩
  · rw [hnil] at hsent
    exact absurd hsent (by simp)
  · rw [hone, List.mem_singleton, Datagram.mk.injEq] at hsent
    exact ⟨q, hsent.2.2.1⟩

theorem mem_restarted {v : Server} {t : LeaderThread}
    (ht : t ∈ Function.update w.threads s [] v) : t ∈ w.threads v := by
  rw [Function.update_apply] at ht
  split_ifs at ht
  · exact absurd ht (by simp)
  · exact ht

/-- A ballot is added for a term that has none. -/
def Ballots.cast (B : Ballots) (s : Server) (t id : ℤ) : Ballots :=
  Function.update B s (Function.update (B s) t (some id))

@[simp] theorem Ballots.cast_self (B : Ballots) (s : Server) (t id : ℤ) :
    B.cast s t id s t = some id := by
  simp [Ballots.cast]

theorem Ballots.cast_of_ne (B : Ballots) {s v : Server} {t u id : ℤ} (h : v ≠ s ∨ u ≠ t) :
    B.cast s t id v u = B v u := by
  unfold Ballots.cast
  rcases eq_or_ne v s with rfl | hv
  · rw [Function.update_self, Function.update_of_ne (h.resolve_left (by simp))]
  · rw [Function.update_of_ne hv]

theorem Ballots.cast_keeps {s : Server} {t id : ℤ} (hfree : B s t = none) (v : Server) (u x : ℤ)
    (hB : B v u = some x) : B.cast s t id v u = some x := by
  rw [B.cast_of_ne, hB]
  by_contra hsame
  push Not at hsame
  obtain ⟨rfl, rfl⟩ := hsame
  rw [hfree] at hB
  exact absurd hB (by simp)

theorem BallotInv.campaign (h : BallotInv config w B) (hvalid : ∀ v, config v ≠ -1) (s : Server) :
    ∃ B', BallotInv config
      (w.settle s (attemptToElect (w.raft s)).raft (attemptToElect (w.raft s)).effects none) B' ∧
      Lasts w (w.settle s (attemptToElect (w.raft s)).raft (attemptToElect (w.raft s)).effects none)
        B B' := by
  rw [attemptToElect_eq]
  have hnonneg := h.nonneg s
  have hfree : B s ((w.raft s).currentTerm + 1) = none := h.later s _ (by omega)
  have hmine : (campaigner (w.raft s)).vote = some (config s) := by
    have hid : (campaigner (w.raft s)).votedFor = config s := h.ids s
    rw [RaftState.vote, hid, if_neg (hvalid s)]
  have hc : Casts config w (w.settle s (campaigner (w.raft s)) (.save (campaigner (w.raft s)) ::
      (others (w.raft s)).map fun i => .send i (.vote (voteRequest (w.raft s)))) none)
      B (B.cast s ((w.raft s).currentTerm + 1) (config s)) s (campaigner (w.raft s)) := by
    refine ⟨rfl, rfl, ?_, ?_, fun v t ht => ?_, fun v t hv => B.cast_of_ne (Or.inl hv),
      fun t id => Ballots.cast_keeps hfree s t id, ?_, fun t ht => ?_, fun d hd => ?_⟩
    · simp only [campaigner]
      omega
    · right
      right
      simp only [campaigner]
      omega
    · refine Or.inl ((mem_settle_spawned ht).resolve_right fun hnew => ?_)
      exact absurd hnew.2 (by simp [spawned])
    · rw [hmine]
      exact B.cast_self s _ _
    · simp only [campaigner] at ht
      rw [B.cast_of_ne (Or.inr (by omega))]
      exact h.later s t (by omega)
    · rcases mem_settle_sent hd with hd | ⟨hsrc, hnone, hmem⟩
      · exact Or.inl hd
      · right
        obtain ⟨i, -, hi⟩ := List.mem_map.mp (List.mem_of_ne_of_mem (by simp) hmem)
        simp only [Effect.send.injEq] at hi
        subst hsrc
        refine ⟨?_, ?_, fun q hq => ?_, fun v q hv => ?_⟩
        · rw [← hi.2]
          simp only [Packet.term, voteRequest]
          omega
        · rw [← hi.2]
          simp [World.settle, Packet.term, voteRequest, campaigner]
        · rw [← hi.2, Packet.vote.injEq] at hq
          subst hq
          exact ⟨h.ids d.src, B.cast_self d.src _ _⟩
        · rw [hnone] at hv
          exact absurd hv (by simp)
  exact ⟨_, h.casts hc, hc.lasts⟩

theorem Handled.term {r : RaftState} {addr : Server} {packet : Packet} {es : List Effect}
    (h : Handled r addr packet r' es) : r'.currentTerm = r.currentTerm := by
  cases h.elects with
  | granted q hterm hfree hr' => rw [hr']
  | counted q hterm hstate hs hids hsame => exact hsame
  | other packet hids hsame => exact hsame

/-- The ballots once a packet has been handled. -/
theorem BallotInv.handled (h : BallotInv config w B) {addr : Server} {packet : Packet}
    {es : List Effect} (hh : Handled (w.raft s) addr packet r' es)
    (hcand : ∀ q, packet = .vote q → q.candidateId ≠ -1) :
    ∃ B' : Ballots, (∀ v t, v ≠ s → B' v t = B v t) ∧
      (∀ t id, B s t = some id → B' s t = some id) ∧ B' s r'.currentTerm = r'.vote ∧
      ∀ t, r'.currentTerm < t → B' s t = none := by
  have hterm := hh.term
  cases hh.elects with
  | granted q hq hfree hr' =>
      have hnone : B s (w.raft s).currentTerm = none := by
        rw [h.current s, RaftState.vote, if_pos hfree]
      refine ⟨B.cast s (w.raft s).currentTerm q.candidateId,
        fun v t hv => B.cast_of_ne (Or.inl hv),
        fun t id => Ballots.cast_keeps hnone s t id, ?_, fun t ht => ?_⟩
      · rw [hterm, B.cast_self, hr', RaftState.vote, if_neg (hcand q rfl)]
      · rw [hterm] at ht
        rw [B.cast_of_ne (Or.inr (by omega))]
        exact h.later s t ht
  | counted q hq hstate hs hids hsame hvote =>
      exact ⟨B, fun _ _ _ => rfl, fun _ _ hB => hB, h.kept hterm hvote⟩
  | other packet hids hsame hvote =>
      exact ⟨B, fun _ _ _ => rfl, fun _ _ hB => hB, h.kept hterm hvote⟩

theorem BallotInv.handle (h : BallotInv config w B) (hvalid : ∀ v, config v ≠ -1)
    {a b : List Datagram} {d : Datagram} {es : List Effect} (hnet : w.net = a ++ d :: b)
    (hle : d.packet.term ≤ (w.raft d.dst).currentTerm)
    (hh : Handled (w.raft d.dst) d.src d.packet r' es) :
    ∃ B', BallotInv config ({ w with net := a ++ b }.settle d.dst r' es (some d.packet)) B' ∧
      Lasts w ({ w with net := a ++ b }.settle d.dst r' es (some d.packet)) B B' := by
  have hd : Backs config w B d := h.net d (by rw [hnet]; simp)
  have hcand : ∀ q, d.packet = .vote q → q.candidateId ≠ -1 := fun q hq => by
    rw [(hd.request q hq).1]
    exact hvalid d.src
  have hterm := hh.term
  have hpos : 1 ≤ r'.currentTerm := by
    have := hd.pos
    omega
  obtain ⟨B', hothers, hballot, hcurrent, hlater⟩ := h.handled hh hcand
  have hself : ({ w with net := a ++ b }.settle d.dst r' es (some d.packet)).raft d.dst = r' := by
    simp [World.settle]
  have hc : Casts config w ({ w with net := a ++ b }.settle d.dst r' es (some d.packet)) B B'
      d.dst r' := by
    refine ⟨rfl, hh.ids.2, hterm.ge, Or.inr (Or.inr hpos), fun v t ht => ?_, hothers, hballot,
      hcurrent, hlater, fun x hx => ?_⟩
    · refine (mem_settle_spawned ht).imp id fun hnew => ⟨hnew.1, hpos, fun q it hpc => ?_⟩
      exact absurd (spawned_idle hnew.2) (by simp [hpc])
    · rcases List.mem_append.mp hx with hx | hx
      · left
        rw [hnet]
        simp only [List.mem_append, List.mem_cons] at hx ⊢
        exact hx.imp id Or.inr
      -- the answer carries the term, and a vote that is in the new state
      right
      rcases hh.sent d.dst (some d.packet) with hnil | ⟨p, hone, -, hp, -, hgrant⟩
      · rw [hnil] at hx
        exact absurd hx (by simp)
      · rw [hone, List.mem_singleton] at hx
        subst hx
        refine ⟨?_, ?_, by simp, fun v q hv hq hs => ?_⟩
        · simp only [Packet.term]
          omega
        · simp only [Packet.term, hself]
          omega
        · simp only [Packet.response.injEq, Option.some.injEq] at hv hq
          subst hq
          have hvote := ((hgrant hs).2 v hv).2
          rw [hp, ← hterm, hcurrent, RaftState.vote, hvote, if_neg (hcand v hv)]
  exact ⟨B', h.casts hc, hc.lasts⟩

/-- A leader thread sends requests of the server's term, or goes on with an
install request. -/
theorem Sends.request {r : RaftState} {t : LeaderThread} {es : List Effect}
    {pc : Option LeaderPc} (h : Sends r t r' es pc) {lo : ℤ} (hlo : lo ≤ r.currentTerm)
    (hpc : ∀ q it, t.pc = .sending q it → lo ≤ q.term ∧ q.term ≤ r.currentTerm) :
    (∀ dst p, .send dst p ∈ es → lo ≤ p.term ∧ p.term ≤ r.currentTerm ∧
      (∀ q, p ≠ .vote q) ∧ ∀ q, p ≠ .response q) ∧
    ∀ q it, pc = some (.sending q it) → lo ≤ q.term ∧ q.term ≤ r.currentTerm := by
  cases h with
  | heartbeat _ hstate hnext heq => simp [Packet.term, appendRequest, hlo]
  | entry _ hstate hnext e he => simp [Packet.term, appendRequest, hlo]
  | first _ hfree q it hterm hid =>
      simp only [List.mem_singleton, Effect.send.injEq, Option.some.injEq, LeaderPc.sending.injEq]
      refine ⟨?_, ?_⟩
      · rintro dst p ⟨-, rfl⟩
        simp [Packet.term, hterm, hlo]
      · rintro q' it' ⟨rfl, -⟩
        simp [hterm, hlo]
  | next q q' it it' hsend hterm hid =>
      have hold := hpc q it hsend
      simp only [List.mem_singleton, Effect.send.injEq, Option.some.injEq, LeaderPc.sending.injEq]
      refine ⟨?_, ?_⟩
      · rintro dst p ⟨-, rfl⟩
        simpa [Packet.term, hterm] using hold
      · rintro q'' it'' ⟨rfl, -⟩
        simpa [hterm] using hold
  | _ => simp

theorem BallotInv.sender (h : BallotInv config w B) {a b : List LeaderThread} {t : LeaderThread}
    {es : List Effect} {pc : Option LeaderPc} (ht : w.threads s = a ++ t :: b)
    (hs : Sends (w.raft s) t r' es pc) :
    BallotInv config
      ({ w with
          threads := Function.update w.threads s
            (a ++ (pc.map fun pc => { t with pc }).toList ++ b) }.settle s r' es none) B ∧
    Lasts w
      ({ w with
          threads := Function.update w.threads s
            (a ++ (pc.map fun pc => { t with pc }).toList ++ b) }.settle s r' es none) B B := by
  have hmem : t ∈ w.threads s := by simp [ht]
  have hpos := h.active s (Or.inr (List.ne_nil_of_mem hmem))
  obtain ⟨hsent, hpc⟩ := hs.request hpos (h.sending s t hmem)
  obtain ⟨hterm, hvote, hstate, -, -, hid⟩ := hs.same
  obtain ⟨hcurrent, hlater⟩ := h.kept hterm hvote
  have hc : Casts config w
      ({ w with
          threads := Function.update w.threads s
            (a ++ (pc.map fun pc => { t with pc }).toList ++ b) }.settle s r' es none)
      B B s r' := by
    refine ⟨rfl, hid, hterm.ge, Or.inr (Or.inl hstate), fun v x hx => ?_, fun _ _ _ => rfl,
      fun _ _ hB => hB, hcurrent, hlater, fun x hx => ?_⟩
    · rcases mem_settle_spawned hx with hx | ⟨rfl, hnew⟩
      · rcases eq_or_ne v s with rfl | hv
        · simp only [Function.update_self, List.mem_append, Option.mem_toList,
            Option.map_eq_some_iff] at hx
          rcases hx with (hx | ⟨pc', hpc', rfl⟩) | hx
          · exact Or.inl (by simp [ht, hx])
          · refine Or.inr ⟨rfl, by omega, fun q it hq => ?_⟩
            obtain ⟨hlo, hhi⟩ := hpc q it (by rw [hpc', ← hq])
            exact ⟨hlo, by omega⟩
          · exact Or.inl (by simp [ht, hx])
        · exact Or.inl (by simpa [hv] using hx)
      · exact Or.inr ⟨rfl, by omega, fun q it hq => absurd (spawned_idle hnew) (by simp [hq])⟩
    · rcases mem_settle_sent hx with hx | ⟨hsrc, hnone, hsend⟩
      · exact Or.inl hx
      · obtain ⟨hlo, hhi, hnovote, hnoanswer⟩ := hsent _ _ hsend
        refine Or.inr ⟨hlo, ?_, fun q hq => absurd hq (hnovote q),
          fun v q hv hq => absurd hq (hnoanswer q)⟩
        rw [hsrc]
        simp only [World.settle, Function.update_self]
        omega
  exact ⟨h.casts hc, hc.lasts⟩

theorem BallotInv.step {g : Guard} (h : BallotInv config w B) (hvalid : ∀ v, config v ≠ -1)
    {v : Option (Server × ℤ × Server)} (hstep : World.Step g w v w') :
    ∃ B', BallotInv config w' B' ∧ Lasts w w' B B' := by
  cases hstep with
  | stepDown s t ht =>
      have hf := convertToFollower_follows (w.raft s) t
      have hnone : B s t = none := h.later s t ht
      have hc : Casts config w
          { w with raft := Function.update w.raft s (convertToFollower (w.raft s) t).raft } B B s
          (convertToFollower (w.raft s) t).raft := by
        refine ⟨rfl, hf.id, by rw [hf.currentTerm]; omega, Or.inl hf.state,
          fun v t ht => Or.inl ht, fun _ _ _ => rfl, fun _ _ hB => hB, ?_, fun u hu => ?_,
          fun d hd => Or.inl hd⟩
        · rw [hf.currentTerm, hnone, RaftState.vote, if_pos hf.votedFor]
        · rw [hf.currentTerm] at hu
          exact h.later s u (by omega)
      exact ⟨B, h.casts hc, hc.lasts⟩
  | campaign s => exact h.campaign hvalid s
  | handle a b d r' es hnet hle hg hh => exact h.handle hvalid hnet hle hh
  | turns d l hd hg hl =>
      refine ⟨B, h.still rfl rfl rfl rfl (Or.inl rfl) (fun v t ht => ?_) fun d hd => hd⟩
      exact mem_restarted ht
  | lose net hsub =>
      exact ⟨B, h.rerouted rfl rfl fun d hd => hsub.subset hd⟩
  | append s e hf =>
      rcases appendEntry_ok hf with heq | ⟨r', heq, -, -, -, hr'⟩
      · rw [heq]
        exact ⟨B, h.settled rfl rfl rfl rfl (by simp [ret]) (by simp [ret, spawned])⟩
      · rw [heq, hr']
        exact ⟨B, h.settled rfl rfl rfl rfl (by simp [saveState, emit])
          (by simp [saveState, emit, spawned])⟩
  | sender s a b t r' es pc ht hg hs => exact ⟨B, h.sender ht hs⟩
  | enter s n r' he =>
      obtain ⟨-, rfl⟩ := createSnapshotEnter_some he
      exact ⟨B, h.still (s := s) rfl rfl rfl rfl (Or.inr rfl) (fun v t ht => ht) fun d hd => hd⟩
  | shift s n hn hg hf =>
      obtain ⟨-, heq⟩ := createSnapshotShift_ok hf
      rw [heq]
      exact ⟨B, h.settled rfl rfl rfl rfl (by simp [saveState, emit])
        (by simp [saveState, emit, spawned])⟩
  | crash s st hst =>
      exact ⟨B, h.still rfl hst.id hst.currentTerm hst.votedFor (Or.inl rfl)
        (fun v t ht => mem_restarted ht) fun d hd => hd⟩
  | replay s l hl => exact ⟨B, h.rerouted rfl rfl fun d hd => hd⟩

theorem BallotInv.path {g : Guard} (h : BallotInv config w B) (hvalid : ∀ v, config v ≠ -1)
    (hpath : World.Path g w w') : ∃ B', BallotInv config w' B' ∧ Lasts w w' B B' := by
  induction hpath with
  | refl => exact ⟨B, h, Lasts.refl w B⟩
  | tail _ hstep ih =>
      obtain ⟨B₁, h₁, hl₁⟩ := ih
      obtain ⟨v, hv⟩ := hstep
      obtain ⟨B₂, h₂, hl₂⟩ := h₁.step hvalid hv
      exact ⟨B₂, h₂, hl₁.trans hl₂⟩

theorem ballotInv_init (config : Config) :
    BallotInv config (World.init config) fun _ _ => none where
  ids _ := rfl
  nonneg _ := le_rfl
  active s h := absurd h (by simp [World.init, serverInit])
  current _ := rfl
  later _ _ _ := rfl
  net d hd := absurd hd (by simp [World.init])
  sending s t ht := absurd ht (by simp [World.init])

end Step

/-! ### A server that has saved nothing -/

theorem Handled.append_save {r r' : RaftState} {addr : Server} {q : AppendRequest}
    {es : List Effect} (h : Handled r addr (.append q) r' es) : ∃ st, .save st ∈ es := by
  cases h with
  | appendRefused _ hc => exact ⟨_, List.mem_cons_self⟩
  | heartbeat _ hterm hc hn hcommit => exact ⟨_, List.mem_append_right _ List.mem_cons_self⟩
  | entryStored _ hterm hc hn hlo hhi hroom hcommit =>
      exact ⟨_, List.mem_append_right _ List.mem_cons_self⟩

/-- A packet of a later term: the new term is saved at once, or with the
answer to an append request. -/
theorem handlePacket_saves {r : RaftState} {addr : Server} {packet : Packet}
    (hlt : r.currentTerm < packet.term) (hf : (handlePacket r addr packet).fault = false) :
    ∃ st, .save st ∈ (handlePacket r addr packet).effects := by
  have harrival : (∀ q, packet ≠ .append q) → .save (arrived r packet) ∈ arrival r packet := by
    intro hreq
    unfold arrival
    cases packet with
    | append q => exact absurd rfl (hreq q)
    | _ => simp
  by_cases hq : ∃ q, packet = .response q
  · obtain ⟨q, rfl⟩ := hq
    rw [handleResponse_later hlt]
    exact ⟨_, harrival (by simp)⟩
  · push Not at hq
    rw [handlePacket_later hlt hq] at hf ⊢
    cases packet with
    | append q =>
        obtain ⟨st, hst⟩ := (handled (le_arrived r (.append q)) hf).append_save
        exact ⟨st, List.mem_append_right _ hst⟩
    | _ => exact ⟨_, List.mem_append_left _ (harrival (by simp))⟩

/-- A section that changes the term saves the state. -/
theorem Runs.saves {g : Guard} {c : Cluster} {s : Server} {r : RaftState} {x : Action}
    {o : Outcome} (h : Runs g c s r x o) (hf : o.fault = false)
    (hterm : o.raft.currentTerm ≠ r.currentTerm) : ∃ st, .save st ∈ o.effects := by
  cases h with
  | elect x hx => exact ⟨campaigner r, by rw [attemptToElect_eq]; simp⟩
  | packet k crashAt d hd hs hg =>
      rcases Int.lt_or_le r.currentTerm d.packet.term with hlt | hle
      · exact handlePacket_saves hlt hf
      · exact absurd (handled hle hf).term hterm
  | append e crashAt =>
      rcases appendEntry_ok hf with heq | ⟨r', heq, -, -, -, hr'⟩
      · exact absurd (by rw [heq]; rfl) hterm
      · exact absurd (by rw [heq, hr']; rfl) hterm
  | sender k files t hg => exact absurd (leaderStep_sends hf).same.1 hterm
  | snapshot k crashAt pc hg => exact absurd (snapshotStep_role hf).2.1 hterm

theorem savedAfter_none {es : List Effect} {saved : Option RaftState}
    (h : savedAfter es saved = none) : saved = none ∧ ∀ st, .save st ∉ es := by
  induction es using List.reverseRecOn with
  | nil => exact ⟨h, by simp⟩
  | append_singleton es x ih =>
      rw [savedAfter_append] at h
      cases x with
      | save st => exact absurd h (by simp [savedAfter])
      | _ =>
          obtain ⟨hnone, hno⟩ := ih h
          refine ⟨hnone, fun st hst => ?_⟩
          rcases List.mem_append.mp hst with hst | hst
          · exact hno st hst
          · exact absurd (List.mem_singleton.mp hst) (by simp)

/-- As long as there is no file, the term is the first one. -/
theorem NodeStep.unsaved {g : Guard} {c : Cluster} {s : Server} {x : Action} {n n' : Node}
    (h : NodeStep g c s x n n') (hn : n.saved = none → n.raft.currentTerm = 0)
    (hnone : n'.saved = none) : n'.raft.currentTerm = 0 := by
  cases h with
  | idle _ hsame =>
      rw [hsame.saved] at hnone
      rw [hsame.raft]
      exact hn hnone
  | crash => exact hn hnone
  | runs n₁ o crashAt hsame hup hruns =>
      obtain ⟨hraft, -, -, -, hfile⟩ := Node.foldl_perform (Node.performed o crashAt) n₁
      unfold Node.settle at hnone ⊢
      simp only at hnone ⊢
      split_ifs at hnone ⊢ with hwhole
      · obtain ⟨rfl, hf⟩ := hwhole
        obtain ⟨hold, hno⟩ := savedAfter_none (hfile.symm.trans hnone)
        rw [hsame.saved] at hold
        rw [← hn hold]
        by_contra hterm
        obtain ⟨st, hst⟩ := hruns.saves hf hterm
        exact hno st hst
      · obtain ⟨hold, -⟩ := savedAfter_none (hfile.symm.trans hnone)
        rw [hsame.saved] at hold
        show ((Node.performed o crashAt).foldl Node.perform n₁).raft.currentTerm = 0
        rw [hraft, hsame.raft]
        exact hn hold

theorem Cluster.exec_unsaved {c c' : Cluster} {x : Action} (hx : c.exec x = some c')
    (h : ∀ s, (c.nodes s).saved = none → (c.nodes s).raft.currentTerm = 0) (s : Server)
    (hnone : (c'.nodes s).saved = none) : (c'.nodes s).raft.currentTerm = 0 := by
  rcases Cluster.exec_node (unrestricted_allows c x) hx s with hstep | ⟨-, -, st, hst, heq⟩
  · exact hstep.unsaved (h s) hnone
  · obtain ⟨-, -, -, -, hfile⟩ := Node.foldl_perform
      (Node.performed (serverRestore st) none) ((c.nodes s).reloaded st)
    have hsaved : (c'.nodes s).saved =
        savedAfter (serverRestore st).effects ((c.nodes s).reloaded st).saved := by
      rw [heq]
      unfold Node.settle
      simp only
      split_ifs
      · exact hfile
      · exact hfile
    rw [hsaved] at hnone
    have hold := (savedAfter_none hnone).1
    rw [Node.reloaded, hst] at hold
    exact absurd hold (by simp)

/-! ### Durability -/

/-- The datagram answers the vote request `q` with success, in term `t`. -/
def Datagram.GrantsVote (d : Datagram) (q : VoteRequest) (t : ℤ) : Prop :=
  d.answers = some (.vote q) ∧ ∃ p, d.packet = .response p ∧ p.term = t ∧ p.success = 1

/-- A server that has saved the state in which it stands for election has
voted for itself, also after a crash. -/
theorem Node.view_elect {n : Node} {r : RaftState} {crashAt : Option ℕ} (hup : n.up = true)
    (hcrash : crashAt ≠ some 0) :
    (n.settle (attemptToElect r) crashAt).view.currentTerm = r.currentTerm + 1 ∧
    (n.settle (attemptToElect r) crashAt).view.votedFor = r.id := by
  have hsaved : ∀ k, savedAfter ((attemptToElect r).effects.take (k + 1)) n.saved =
      some (campaigner r) := by
    intro k
    rw [attemptToElect_eq, List.take_succ_cons]
    refine savedAfter_of_forall (fun x hx st => ?_) (some (campaigner r))
    obtain ⟨i, -, rfl⟩ := List.mem_map.mp (List.mem_of_mem_take hx)
    simp
  obtain ⟨-, hup', -, -, hfile⟩ := Node.foldl_perform (performed (attemptToElect r) crashAt) n
  cases crashAt with
  | none =>
      simp only [settle, view, hup', hup]
      exact ⟨rfl, rfl⟩
  | some k =>
      cases k with
      | zero => exact absurd rfl hcrash
      | succ k =>
          rw [performed, hsaved] at hfile
          simp [settle, view, crash, performed, hfile, forget, campaigner]

namespace Traffic

variable {config : Config} {m m' : Traffic}

structure DurableInv (config : Config) (m : Traffic) (w : World) (B : Ballots) : Prop where
  refines : Refines m.cluster w
  ballots : BallotInv config w B
  sent : ∀ d ∈ m.sent, Backs config w B d
  stood : ∀ p ∈ m.stood, B p.1 p.2 = some (config p.1)
  unsaved : ∀ s, (m.cluster.nodes s).saved = none → (m.cluster.nodes s).raft.currentTerm = 0

/-- A server that comes past `Raft_save_state` in `Raft_attempt_to_elect` has
voted for itself. -/
theorem mem_stoodAfter {x : Action} {c : Cluster} {w : World} {B : Ballots}
    (hx : m.cluster.exec x = some c) (href : Refines m.cluster w) (hold : BallotInv config w B)
    {w' : World} {B' : Ballots} (href' : Refines c w') (hnew : BallotInv config w' B')
    (hvalid : ∀ s, config s ≠ -1) {p : Server × ℤ} (hp : p ∈ m.stoodAfter x) :
    p ∈ m.stood ∨ B' p.1 p.2 = some (config p.1) := by
  have helect : ∀ (s : Server) (n : Node) (crashAt : Option ℕ), (m.cluster.nodes s).up = true →
      n.up = true → crashAt ≠ some 0 →
      c.nodes s = n.settle (attemptToElect (m.cluster.nodes s).raft) crashAt →
      B' s ((m.cluster.nodes s).raft.currentTerm + 1) = some (config s) := by
    intro s n crashAt hup hn hcrash hnode
    obtain ⟨hterm, hvote⟩ := Node.view_elect (r := (m.cluster.nodes s).raft) hn hcrash
    rw [← hnode, ← (href'.node s).view] at hterm hvote
    have hid : (m.cluster.nodes s).raft.id = config s := by
      rw [← (href.node s).raft_eq hup]
      exact hold.ids s
    rw [← hterm, hnew.current, RaftState.vote, hvote, hid, if_neg (hvalid s)]
  cases x with
  | elect s crashAt =>
      simp only [stoodAfter] at hp
      split_ifs at hp with hcrash
      · exact Or.inl hp
      · rcases List.mem_append.mp hp with hp | hp
        · exact Or.inl hp
        · rw [List.mem_singleton.mp hp]
          simp only [Cluster.exec] at hx
          split_ifs at hx with hup
          simp only [Option.some.injEq] at hx
          refine Or.inr (helect s { m.cluster.nodes s with timedOut := false } crashAt hup.1 hup.1
            hcrash ?_)
          rw [← hx, Cluster.settle_nodes, if_pos rfl]
  | retry s crashAt =>
      simp only [stoodAfter] at hp
      split_ifs at hp with hcrash
      · exact Or.inl hp
      · rcases List.mem_append.mp hp with hp | hp
        · exact Or.inl hp
        · rw [List.mem_singleton.mp hp]
          simp only [Cluster.exec] at hx
          split_ifs at hx with hup
          simp only [Option.some.injEq] at hx
          refine Or.inr (helect s (m.cluster.nodes s) crashAt hup.1 hup.1 hcrash ?_)
          rw [← hx, Cluster.settle_nodes, if_pos rfl]
  | _ => exact Or.inl hp

theorem DurableInv.exec {w : World} {B : Ballots} (h : DurableInv config m w B)
    (hvalid : ∀ s, config s ≠ -1) {y : RepeatedAction} (hy : m.exec y = some m') :
    ∃ w' B', DurableInv config m' w' B' := by
  rcases exec_cases hy with ⟨x, c, rfl, hx, rfl⟩ | ⟨k, d, rfl, hd, rfl⟩
  · obtain ⟨w', hpath, href'⟩ := h.refines.exec (unrestricted_allows m.cluster x) hx
    obtain ⟨B', hB', hlasts⟩ := h.ballots.path hvalid hpath
    refine ⟨w', B', href', hB', fun d hd => ?_, fun p hp => ?_, Cluster.exec_unsaved hx h.unsaved⟩
    · rcases List.mem_append.mp hd with hd | hd
      · exact (h.sent d hd).lasts hlasts
      · exact hB'.net d (by rwa [href'.net])
    · rcases mem_stoodAfter hx h.refines h.ballots href' hB' hvalid hp with hold | hnew
      · exact hlasts.ballot _ _ _ (h.stood p hold)
      · exact hnew
  · have hnet : ∀ x ∈ m.cluster.net ++ [d], x ∈ w.net := by
      rw [h.refines.net]
      exact mem_duplicate hd
    obtain ⟨hB, hlasts⟩ : BallotInv config { w with net := m.cluster.net ++ [d] } B ∧
        Lasts w { w with net := m.cluster.net ++ [d] } B B :=
      h.ballots.rerouted rfl rfl hnet
    exact ⟨_, B, refines_duplicate h.refines _, hB, fun x hx => (h.sent x hx).lasts hlasts,
      h.stood, h.unsaved⟩

/-- What a server that has sent a packet has in its file. -/
theorem DurableInv.saved {w : World} {B : Ballots} (h : DurableInv config m w B) {d : Datagram}
    (hd : d ∈ m.sent) :
    ∃ st, (m.cluster.nodes d.src).saved = some st ∧ d.packet.term ≤ st.currentTerm := by
  have hpos := (h.sent d hd).pos
  have hle := (h.sent d hd).le
  have hnode := h.refines.node d.src
  cases hst : (m.cluster.nodes d.src).saved with
  | none =>
      have hzero := h.unsaved d.src hst
      rw [hnode.view, Node.view, hst] at hle
      split_ifs at hle
      · omega
      · simp only [Option.getD_none, forget] at hle
        omega
  | some st =>
      refine ⟨st, rfl, hle.trans_eq ?_⟩
      cases hup : (m.cluster.nodes d.src).up with
      | true =>
          rw [hnode.raft_eq hup]
          exact (hnode.synced hup st hst).currentTerm.symm
      | false => simp [hnode.view, Node.view, hup, hst, forget]

/-- A packet leaves a server only when its term is in the server's file; over
its whole life a server grants its vote of a term to one candidate, and to no
other than itself in a term in which it has stood. A server may crash after
each of its effects, so that what the file holds when a packet has just left
is what it held before. -/
theorem terms_and_votes_durable {config : Config} (hvalid : ∀ s, config s ≠ -1) {m : Traffic}
    (hrun : Machine.Reaches exec (init config) m) :
    (∀ d ∈ m.sent,
      ∃ st, (m.cluster.nodes d.src).saved = some st ∧ d.packet.term ≤ st.currentTerm) ∧
    (∀ d ∈ m.sent, ∀ d' ∈ m.sent, d.src = d'.src → ∀ q q' t, d.GrantsVote q t →
      d'.GrantsVote q' t → q.candidateId = q'.candidateId) ∧
    ∀ d ∈ m.sent, ∀ q t, d.GrantsVote q t → (d.src, t) ∈ m.stood →
      q.candidateId = config d.src := by
  obtain ⟨w, B, h⟩ : ∃ w B, DurableInv config m w B := by
    refine Machine.Steps.invariant (P := fun m => ∃ w B, DurableInv config m w B)
      (fun m y m' h _ hy => ?_) hrun ?_
    · obtain ⟨w, B, h⟩ := h
      exact h.exec hvalid hy
    · exact ⟨_, _, refines_init config, ballotInv_init config, by simp [init], by simp [init],
        fun _ _ => rfl⟩
  have hgrant : ∀ d ∈ m.sent, ∀ q t, d.GrantsVote q t → B d.src t = some q.candidateId := by
    rintro d hd q t ⟨hanswers, p, hp, rfl, hs⟩
    exact (h.sent d hd).answer q p hanswers hp (by omega)
  refine ⟨fun d hd => h.saved hd, fun d hd d' hd' hsrc q q' t hq hq' => ?_,
    fun d hd q t hq hst => ?_⟩
  · have hB := hgrant d hd q t hq
    rw [hsrc, hgrant d' hd' q' t hq'] at hB
    exact (Option.some.inj hB).symm
  · have hB := hgrant d hd q t hq
    rw [h.stood _ hst] at hB
    exact (Option.some.inj hB).symm

/-- Server `0` stands for election and server `1` votes for it. -/
def firstVote : List RepeatedAction :=
  [.step (.timeout 0), .step (.elect 0 none), .step (.deliver 0 none)]

theorem firstVote_runs : (Machine.execAll exec (init plainConfig) firstVote).any (fun m =>
    decide ((0, 1) ∈ m.stood ∧
      ∃ d ∈ m.sent, d.src = 1 ∧ d.packet = .response ⟨1, 1, 1, -1⟩)) = true := by
  decide +kernel

theorem first_vote_durable : ∃ m, Machine.Reaches exec (init plainConfig) m ∧
    (0, 1) ∈ m.stood ∧ ∃ d ∈ m.sent, d.src = 1 ∧ d.packet = .response ⟨1, 1, 1, -1⟩ ∧
      ∃ st, (m.cluster.nodes 1).saved = some st ∧ 1 ≤ st.currentTerm := by
  obtain ⟨m, hrun, hm⟩ := Machine.exists_of_execAll firstVote_runs
  obtain ⟨hstood, d, hd, hsrc, hp⟩ := of_decide_eq_true hm
  obtain ⟨st, hst, hle⟩ := (terms_and_votes_durable (by decide) hrun).1 d hd
  rw [hsrc] at hst
  rw [hp] at hle
  exact ⟨m, hrun, hstood, d, hd, hsrc, hp, st, hst, hle⟩

/-- In `Raft_attempt_to_elect` the server is a candidate of term `t` when it
comes to `Raft_save_state`. -/
def StandsIn (r : RaftState) (t : ℤ) : Prop :=
  match (attemptToElect r).effects with
  | .save r' :: _ => r'.state = .candidate ∧ r'.currentTerm = t
  | _ => False

instance (r : RaftState) (t : ℤ) : Decidable (StandsIn r t) := by
  unfold StandsIn
  split <;> infer_instance

/-- Server `1` has stood in term `1`. -/
def standsFirst : List RepeatedAction := [.step (.timeout 1), .step (.elect 1 none)]

/-- Server `1` starts again with term `1` in its file. Server `0` hears of that
term, stands in the next one and asks server `1` for its vote. -/
def votesAfterwards : List RepeatedAction :=
  [.step (.restart 1), .step (.deliver 0 none), .step (.timeout 0), .step (.elect 0 none),
    .step (.deliver 4 none)]

theorem unsaved_runs : (Machine.execAll exec (init plainConfig) standsFirst).any (fun m =>
    decide (StandsIn (m.cluster.nodes 1).raft 2) &&
      (m.exec (.step (.retry 1 (some 0)))).any fun m₁ =>
        (Machine.execAll exec m₁ votesAfterwards).any fun m₂ => decide (∃ d ∈ m₂.sent,
          d.src = 1 ∧ d.answers = some (.vote ⟨2, 0, -1, -1⟩) ∧
            d.packet = .response ⟨1, 2, 1, -1⟩)) = true := by
  decide +kernel

/-- A candidate that ends before it has saved its state votes for another
server in the term in which it was a candidate. -/
theorem votes_in_unsaved_term : ∃ m m₁ m₂ : Traffic,
    Machine.Reaches exec (init plainConfig) m ∧ StandsIn (m.cluster.nodes 1).raft 2 ∧
    m.exec (.step (.retry 1 (some 0))) = some m₁ ∧ Machine.Reaches exec m₁ m₂ ∧
    ∃ d ∈ m₂.sent, ∃ q, d.src = 1 ∧ d.GrantsVote q 2 ∧ q.candidateId ≠ plainConfig 1 := by
  obtain ⟨m, hrun, hm⟩ := Machine.exists_of_execAll unsaved_runs
  rw [Bool.and_eq_true] at hm
  obtain ⟨m₁, hcrash, hm₁⟩ := (Option.any_eq_true _ _).mp hm.2
  obtain ⟨m₂, hrun₂, hm₂⟩ := Machine.exists_of_execAll hm₁
  obtain ⟨d, hd, hsrc, hanswers, hp⟩ := of_decide_eq_true hm₂
  exact ⟨m, m₁, m₂, hrun, of_decide_eq_true hm.1, hcrash, hrun₂, d, hd, ⟨2, 0, -1, -1⟩, hsrc,
    ⟨hanswers, _, hp, rfl, rfl⟩, by decide⟩

end Traffic

end RaftLock

import RaftLock.Safety.Simulation

/-!
What a leader's counters are worth.

For each entry of its term a leader keeps only how many servers it has
counted, and for each follower the index it sends next and the id of the
request that is open. The invariant `Counts` gives every counter its set of
servers: each of them has acknowledged the entry and the leader has moved past
it. It is kept by every step in which an answer is taken for what it is
(`Confirms`).
-/

namespace RaftLock

open Consensus Outcome

/-! ### Who writes to whom -/

/-- A datagram goes to another server, and an answer names its sender and the
request it answers. -/
structure RoutedDatagram (config : Config) (d : Datagram) : Prop where
  apart : d.src ≠ d.dst
  id : ∀ q, d.packet = .response q → q.id = config d.src
  answer : ∀ q x, d.packet = .response q → d.answers = some (.append x) →
    q.requestId = x.requestId ∧ (q.success = 0 ∨ (q.success = 1 ∧ x.term = q.term))

structure Routed (config : Config) (w : World) : Prop where
  net : ∀ d ∈ w.net, RoutedDatagram config d
  follower : ∀ s, ∀ t ∈ w.threads s, t.follower ≠ s

theorem mem_settle_net {w : World} {s : Server} {r' : RaftState} {es : List Effect}
    {answers : Option Packet} {d : Datagram} (hd : d ∈ (w.settle s r' es answers).net) :
    d ∈ w.net ∨ d ∈ es.filterMap (Cluster.sentBy s answers) := by
  simpa only [World.settle, List.mem_append] using hd

/-- A candidate sends requests for votes only. -/
theorem attemptToElect_sent {r : RaftState} {s : Server} {answers : Option Packet} {d : Datagram}
    (hd : d ∈ (attemptToElect r).effects.filterMap (Cluster.sentBy s answers)) :
    ∃ q, d.packet = .vote q := by
  obtain ⟨-, -, hsent⟩ := Cluster.mem_sentBy hd
  rw [attemptToElect_eq] at hsent
  obtain ⟨i, -, heq⟩ := List.mem_map.mp (List.mem_of_ne_of_mem (by simp) hsent)
  simp only [Effect.send.injEq] at heq
  exact ⟨_, heq.2.symm⟩

theorem mem_handle_net {w : World} {a b : List Datagram} {d x : Datagram}
    (hnet : w.net = a ++ d :: b) (hx : x ∈ a ++ b) : x ∈ w.net := by
  rw [hnet]
  simp only [List.mem_append, List.mem_cons] at hx ⊢
  tauto

/-- The answer to an append request. -/
theorem Handled.answers_append {r r' : RaftState} {addr : Server} {x : AppendRequest}
    {es : List Effect} (h : Handled r addr (.append x) r' es) (s : Server)
    (answers : Option Packet) :
    ∃ q, es.filterMap (Cluster.sentBy s answers) = [⟨s, addr, .response q, answers⟩] ∧
      q.id = r.id ∧ q.term = r.currentTerm ∧ q.requestId = x.requestId ∧
      ((q.success = 0 ∧ ¬ consistent r x) ∨ (q.success = 1 ∧ x.term = r.currentTerm)) := by
  have hturns : ∀ l : List (ℤ × LogEntry),
      (l.map Effect.ofTurn).filterMap (Cluster.sentBy s answers) = [] :=
    fun l => filterMap_sentBy_quiet (isQuiet_ofTurn l) s answers
  cases h with
  | appendRefused q hc => exact ⟨_, rfl, rfl, rfl, rfl, Or.inl ⟨rfl, hc⟩⟩
  | heartbeat q hterm hc hn hcommit =>
      refine ⟨⟨r.id, r.currentTerm, 1, x.requestId⟩, ?_, rfl, rfl, rfl, Or.inr ⟨rfl, hterm⟩⟩
      rw [List.filterMap_append, hturns]
      rfl
  | entryStored q hterm hc hn hlo hhi hroom hcommit =>
      refine ⟨⟨r.id, r.currentTerm, 1, x.requestId⟩, ?_, rfl, rfl, rfl, Or.inr ⟨rfl, hterm⟩⟩
      rw [List.filterMap_append, hturns]
      rfl

/-- Only a won election starts threads, one for each other server. -/
theorem Handled.spawned {r r' : RaftState} {addr : Server} {packet : Packet} {es : List Effect}
    (h : Handled r addr packet r' es) {t : LeaderThread} (ht : t ∈ spawned es) :
    t.follower ∈ others r := by
  obtain ⟨x, hx, htx⟩ := List.mem_flatMap.mp ht
  cases x with
  | spawnLeaderThreads fs =>
      obtain ⟨f, hf, rfl⟩ := List.mem_map.mp htx
      have hturns : ∀ l : List (ℤ × LogEntry),
          Effect.spawnLeaderThreads fs ∉ l.map Effect.ofTurn := fun l hmem => by
        obtain ⟨y, -, hy⟩ := List.mem_map.mp hmem
        exact absurd hy (by simp [Effect.ofTurn])
      cases h with
      | voteDecided q hterm hstate hs hmany hlo hroom r' hr' =>
          simp only [List.mem_cons, reduceCtorEq, Effect.spawnLeaderThreads.injEq,
            List.not_mem_nil, or_false, false_or] at hx
          rwa [hx] at hf
      | voteRefused q success es hs hes => rcases hes with rfl | rfl <;> simp [reply] at hx
      | installDone q hterm hi hd es hes => rcases hes with rfl | rfl <;> simp [reply] at hx
      | _ => simp [reply, hturns] at hx
  | _ => exact absurd htx (by simp)

section Routed

variable {config : Config} {w w' : World} {s : Server} {r' : RaftState} {es : List Effect}
  {V : Votes}

theorem Routed.settle (h : Routed config w) {answers : Option Packet} {net : List Datagram}
    (hsub : net ⊆ w.net)
    (hsent : ∀ d ∈ es.filterMap (Cluster.sentBy s answers), RoutedDatagram config d)
    (hspawn : ∀ t ∈ spawned es, t.follower ≠ s) :
    Routed config ({ w with net }.settle s r' es answers) where
  net d hd := (mem_settle_net hd).elim (fun hold => h.net d (hsub hold)) (hsent d)
  follower v t ht := by
    rcases mem_settle_spawned ht with hold | ⟨rfl, hnew⟩
    · exact h.follower v t hold
    · exact hspawn t hnew

theorem ne_of_mem_others (helect : ElectInv config w V) {v : Server}
    (hv : v ∈ others (w.raft s)) : v ≠ s := by
  rintro rfl
  obtain ⟨hconfig, hid⟩ := helect.ids v
  simp [others, hconfig, hid] at hv

theorem Routed.handle (h : Routed config w) (helect : ElectInv config w V) {a b : List Datagram}
    {d : Datagram} (hnet : w.net = a ++ d :: b)
    (hh : Handled (w.raft d.dst) d.src d.packet r' es) :
    Routed config ({ w with net := a ++ b }.settle d.dst r' es (some d.packet)) := by
  have hd := h.net d (by simp [hnet])
  refine h.settle (fun x hx => mem_handle_net hnet hx) ?_ fun t ht =>
    ne_of_mem_others helect (hh.spawned ht)
  intro x hx
  rcases hh.sent d.dst (some d.packet) with hnil | ⟨q, hone, hid, hterm, -⟩
  · rw [hnil] at hx
    exact absurd hx (by simp)
  · rw [hone, List.mem_singleton] at hx
    subst hx
    refine ⟨hd.apart.symm, ?_, ?_⟩
    · intro y hy
      simp only [Packet.response.injEq] at hy
      rw [← hy, hid]
      exact (helect.ids d.dst).2
    · intro y z hy hz
      simp only [Packet.response.injEq, Option.some.injEq] at hy hz
      subst hy
      rw [hz] at hh
      obtain ⟨q', hone', -, hterm', hrid, hs⟩ := hh.answers_append d.dst (some d.packet)
      rw [hone', List.singleton_inj] at hone
      simp only [Datagram.mk.injEq, Packet.response.injEq, true_and, and_true] at hone
      subst hone
      exact ⟨hrid, hs.imp And.left fun hs => ⟨hs.1, by rw [hterm', hs.2]⟩⟩

theorem Routed.sender (h : Routed config w) {a b : List LeaderThread} {t : LeaderThread}
    {pc : Option LeaderPc} (ht : w.threads s = a ++ t :: b)
    (hs : Sends (w.raft s) t r' es pc) :
    Routed config
      ({ w with
          threads := Function.update w.threads s
            (a ++ (pc.map fun pc => { t with pc }).toList ++ b) }.settle s r' es none) := by
  have hfollower := h.follower s t (by simp [ht])
  have hthreads : Routed config { w with
      threads := Function.update w.threads s
        (a ++ (pc.map fun pc => { t with pc }).toList ++ b) } := by
    refine ⟨h.net, fun v y hy => ?_⟩
    by_cases hv : v = s
    · subst hv
      simp only [Function.update_self, List.mem_append, Option.mem_toList,
        Option.map_eq_some_iff] at hy
      rcases hy with (hy | ⟨z, -, rfl⟩) | hy
      · exact h.follower v y (by simp [ht, hy])
      · exact hfollower
      · exact h.follower v y (by simp [ht, hy])
    · simp only [Function.update_of_ne hv] at hy
      exact h.follower v y hy
  refine hthreads.settle (List.Subset.refl _) ?_ ?_
  · have hone : ∀ q, (∀ y, q ≠ Packet.response y) →
        RoutedDatagram config ⟨s, t.follower, q, none⟩ := fun q hq =>
      ⟨hfollower.symm, fun y hy => absurd hy (hq y), fun y _ hy => absurd hy (hq y)⟩
    intro x hx
    cases hs with
    | heartbeat | entry | first | next =>
        simp only [List.filterMap_cons, Cluster.sentBy, List.filterMap_nil,
          List.mem_singleton] at hx
        rw [hx]
        exact hone _ (by simp)
    | _ => exact absurd hx (by simp)
  · intro y hy
    cases hs <;> exact absurd hy (by simp [RaftLock.spawned])

theorem Routed.step {g : Guard} (h : Routed config w) (helect : ElectInv config w V)
    {v : Option (Server × ℤ × Server)} (hstep : World.Step g w v w') : Routed config w' := by
  have hsilent : ∀ {s r' es}, es.filterMap (Cluster.sentBy s none) = [] → spawned es = [] →
      Routed config (w.settle s r' es none) := fun hsent hspawn =>
    h.settle (List.Subset.refl _) (by simp [hsent]) (by simp [hspawn])
  have hrestart : ∀ s raft commits, Routed config
      { w with raft, threads := Function.update w.threads s [], commits } := by
    refine fun s raft commits => ⟨h.net, fun v t ht => ?_⟩
    by_cases hv : v = s
    · subst hv
      exact absurd ht (by simp)
    · exact h.follower v t (by simpa [hv] using ht)
  cases hstep with
  | stepDown s t ht => exact ⟨h.net, h.follower⟩
  | campaign s =>
      rw [attemptToElect_eq]
      refine h.settle (List.Subset.refl _) ?_ ?_
      · intro d hd
        simp only [List.filterMap_cons, Cluster.sentBy, List.filterMap_map, List.mem_filterMap,
          Function.comp_apply, Option.some.injEq] at hd
        obtain ⟨i, hi, rfl⟩ := hd
        exact ⟨(ne_of_mem_others helect hi).symm, by simp, by simp⟩
      · intro t ht
        obtain ⟨x, hx, htx⟩ := List.mem_flatMap.mp ht
        simp only [List.mem_cons, List.mem_map] at hx
        rcases hx with rfl | ⟨i, -, rfl⟩ <;> exact absurd htx (by simp)
  | handle a b d r' es hnet hle hpass hh => exact h.handle helect hnet hh
  | turns d l hd hpass hl => exact hrestart _ _ _
  | lose net hsub => exact ⟨fun d hd => h.net d (hsub.subset hd), h.follower⟩
  | append s e hf =>
      rcases appendEntry_ok hf with heq | ⟨r', heq, -⟩
      · rw [heq]
        exact hsilent rfl rfl
      · rw [heq]
        exact hsilent rfl rfl
  | sender s a b t r' es pc ht hpass hs => exact h.sender ht hs
  | enter s n r' he => exact ⟨h.net, h.follower⟩
  | shift s n hn hpass hf =>
      obtain ⟨-, heq⟩ := createSnapshotShift_ok hf
      rw [heq]
      exact hsilent rfl rfl
  | crash s st hst => exact hrestart _ _ _
  | replay s l hl => exact ⟨h.net, h.follower⟩

theorem routed_init (config : Config) : Routed config (World.init config) where
  net d hd := absurd hd (by simp [World.init])
  follower s t ht := absurd ht (by simp [World.init])

end Routed

/-! ### Counters -/

/-- The answer `q` is one to the request about the follower's next index: a
refusal to one of this term, a success to one that carried the entry. -/
def AnswerFits (r : RaftState) (q : Response) : Option Packet → Prop
  | some (.append x) => x.prevLogIndex + 1 = r.nextIndex q.id ∧
      if q.success = 0 then x.term = r.currentTerm else x.entriesN ≠ 0
  | _ => False

instance (r : RaftState) (q : Response) (answers : Option Packet) :
    Decidable (AnswerFits r q answers) := by
  unfold AnswerFits
  split <;> infer_instance

/-- An answer that moves a leader's next index, or is counted for an entry, is
taken for what it is. -/
def Confirms (r : RaftState) (d : Datagram) : Prop :=
  match d.packet with
  | .response q =>
    r.state = .leader → q.term = r.currentTerm → q.requestId = r.lastRequestId q.id →
      r.startLogIndex ≤ r.nextIndex q.id → q.success = 0 ∨ r.nextIndex q.id < r.logCount →
      AnswerFits r q d.answers
  | _ => True

instance (r : RaftState) : (d : Datagram) → Decidable (Confirms r d)
  | ⟨_, _, .response _, _⟩ => inferInstanceAs (Decidable (_ → _))
  | ⟨_, _, .append _, _⟩ | ⟨_, _, .vote _, _⟩ | ⟨_, _, .installSnapshot _, _⟩ => .isTrue trivial

theorem AnswerFits.append {r : RaftState} {q : Response} {answers : Option Packet}
    (h : AnswerFits r q answers) : ∃ x, answers = some (.append x) ∧
      x.prevLogIndex + 1 = r.nextIndex q.id ∧
      if q.success = 0 then x.term = r.currentTerm else x.entriesN ≠ 0 := by
  unfold AnswerFits at h
  split at h
  · exact ⟨_, rfl, h⟩
  · exact absurd h id

/-- What the datagrams in flight mean for a leader's books, where `C` gives
the servers counted for each index. -/
def CountsDatagram (config : Config) (w : World) (C : Server → ℤ → Finset Server)
    (d : Datagram) : Prop :=
  match d.packet with
  | .append q => (w.raft d.src).state = .leader → q.term = (w.raft d.src).currentTerm →
      q.requestId ≤ (w.raft d.src).lastRequestId (config d.dst)
  | .response q => ∀ x, d.answers = some (.append x) → (w.raft d.dst).state = .leader →
      x.term = (w.raft d.dst).currentTerm → q.term = (w.raft d.dst).currentTerm →
      q.requestId ≤ (w.raft d.dst).lastRequestId (config d.src) ∧
      (q.success = 0 → q.requestId = (w.raft d.dst).lastRequestId (config d.src) →
        (w.raft d.dst).commitIndex < x.prevLogIndex → d.src ∉ C d.dst x.prevLogIndex)
  | _ => True

/-- The books of leader `s`. It knows of everything committed in its term. -/
structure BooksOf (config : Config) (p : Protocol) (s : Server) (r : RaftState)
    (C : ℤ → Finset Server) : Prop where
  level : (p.clevel r.currentTerm : ℤ) ≤ r.commitIndex + 1
  bound : ∀ n e, r.commitIndex < n → getLog r n = some e → e.term = r.currentTerm →
    e.nServersReplicated ≤ 1 + (C n).card
  acked : ∀ n, r.commitIndex < n → ∀ f ∈ C n, f ≠ s ∧ n < r.nextIndex (config f) ∧
    p.Own LogEntry.term r.currentTerm (n + 1).toNat ∧ (n + 1).toNat ≤ p.acks f r.currentTerm

structure Counts (config : Config) (w : World) (p : Protocol) (C : Server → ℤ → Finset Server) :
    Prop where
  net : ∀ d ∈ w.net, CountsDatagram config w C d
  books : ∀ s, (w.raft s).state = .leader → BooksOf config p s (w.raft s) (C s)

section Counts

variable {config : Config} {w w' : World} {p p' : Protocol} {s : Server} {r r' : RaftState}
  {es : List Effect} {C C' : Server → ℤ → Finset Server}

theorem Counts.steps (h : Counts config w p C) (hinv : p.Inv LogEntry.term)
    (hs : Proto.Steps LogEntry.term p p')
    (hlevel : ∀ s, (w.raft s).state = .leader →
      (p'.clevel (w.raft s).currentTerm : ℤ) ≤ (w.raft s).commitIndex + 1) :
    Counts config w p' C where
  net := h.net
  books s hl := by
    refine ⟨hlevel s hl, (h.books s hl).bound, fun n hn f hf => ?_⟩
    obtain ⟨hne, hnext, hown, hacks⟩ := (h.books s hl).acked n hn f hf
    exact ⟨hne, hnext, hown.mono (Proto.Steps.llog_prefix hinv hs _),
      hacks.trans (hs.acks_le f _)⟩

/-- A step after which a server leads only if it did, in the same term, with
nothing taken back. -/
structure Grows (config : Config) (r r' : RaftState) (C C' : ℤ → Finset Server) : Prop where
  state : r.state = .leader
  term : r'.currentTerm = r.currentTerm
  last : ∀ id, r.lastRequestId id ≤ r'.lastRequestId id
  commit : r.commitIndex ≤ r'.commitIndex
  fresh : ∀ n, ∀ f ∈ C' n, r'.lastRequestId (config f) = r.lastRequestId (config f) → f ∈ C n

theorem Grows.refl (hl : r.state = .leader) (C : ℤ → Finset Server) : Grows config r r C C :=
  ⟨hl, rfl, fun _ => le_rfl, le_rfl, fun _ _ hf _ => hf⟩

theorem CountsDatagram.grows {d : Datagram} (h : CountsDatagram config w C d)
    (hg : ∀ v, (w'.raft v).state = .leader → Grows config (w.raft v) (w'.raft v) (C v) (C' v)) :
    CountsDatagram config w' C' d := by
  unfold CountsDatagram at h ⊢
  cases hp : d.packet with
  | append q =>
      rw [hp] at h
      intro hl hterm
      have hv := hg _ hl
      exact (h hv.state (hterm.trans hv.term)).trans (hv.last _)
  | response q =>
      rw [hp] at h
      intro x hx hl hterm hq
      have hv := hg _ hl
      obtain ⟨hle, hnot⟩ := h x hx hv.state (hterm.trans hv.term) (hq.trans hv.term)
      have hlast := hv.last (config d.src)
      refine ⟨hle.trans hlast, fun hs hid hcommit hmem => ?_⟩
      have hcommit' := hv.commit
      exact hnot hs (by omega) (by omega) (hv.fresh _ _ hmem (by omega))
  | _ => trivial

/-- The rest of the books is as it was, but for entries that nobody has been
counted for. -/
structure SameBooks (config : Config) (r r' : RaftState) : Prop where
  state : r.state = .leader
  term : r'.currentTerm = r.currentTerm
  last : ∀ id, r.lastRequestId id ≤ r'.lastRequestId id
  commit : r'.commitIndex = r.commitIndex
  next : ∀ f, r.nextIndex (config f) ≤ r'.nextIndex (config f)
  log : ∀ n e, r.commitIndex < n → getLog r' n = some e →
    getLog r n = some e ∨ e.nServersReplicated ≤ 1

theorem SameBooks.refl (hl : r.state = .leader) : SameBooks config r r :=
  ⟨hl, rfl, fun _ => le_rfl, rfl, fun _ => le_rfl, fun _ _ _ he => Or.inl he⟩

theorem SameBooks.grows (h : SameBooks config r r') (c : ℤ → Finset Server) :
    Grows config r r' c c :=
  ⟨h.state, h.term, h.last, h.commit.ge, fun _ _ hf _ => hf⟩

theorem BooksOf.same {c : ℤ → Finset Server} (h : BooksOf config p s r c)
    (hs : SameBooks config r r') : BooksOf config p s r' c where
  level := by
    rw [hs.term, hs.commit]
    exact h.level
  bound n e hn he ht := by
    rw [hs.commit] at hn
    rw [hs.term] at ht
    rcases hs.log n e hn he with hold | hone
    · exact h.bound n e hn hold ht
    · omega
  acked n hn f hf := by
    rw [hs.commit] at hn
    rw [hs.term]
    obtain ⟨hne, hnext, hrest⟩ := h.acked n hn f hf
    exact ⟨hne, hnext.trans_le (hs.next f), hrest⟩

/-- A step of one server. -/
theorem Counts.update (h : Counts config w p C) (hraft : w'.raft = Function.update w.raft s r')
    (hC : ∀ v, v ≠ s → C' v = C v)
    (hgrows : r'.state = .leader → Grows config (w.raft s) r' (C s) (C' s))
    (hbooks : r'.state = .leader → BooksOf config p s r' (C' s))
    (hnet : ∀ d ∈ w'.net, d ∈ w.net ∨ CountsDatagram config w' C' d) :
    Counts config w' p C' := by
  have hself : w'.raft s = r' := by simp [hraft]
  have hother : ∀ v, v ≠ s → w'.raft v = w.raft v := fun v hv => by simp [hraft, hv]
  refine ⟨fun d hd => ?_, fun v hl => ?_⟩
  · rcases hnet d hd with hold | hnew
    · refine (h.net d hold).grows fun v hl => ?_
      by_cases hv : v = s
      · subst hv
        rw [hself] at hl ⊢
        exact hgrows hl
      · rw [hother v hv] at hl ⊢
        rw [hC v hv]
        exact .refl hl _
    · exact hnew
  · by_cases hv : v = s
    · subst hv
      rw [hself] at hl ⊢
      exact hbooks hl
    · rw [hother v hv] at hl ⊢
      rw [hC v hv]
      exact h.books v hl

theorem Counts.same (h : Counts config w p C) (hraft : w'.raft = Function.update w.raft s r')
    (hs : r'.state = .leader → SameBooks config (w.raft s) r')
    (hnet : ∀ d ∈ w'.net, d ∈ w.net ∨ CountsDatagram config w' C d) : Counts config w' p C :=
  h.update hraft (fun _ _ => rfl) (fun hl => (hs hl).grows _)
    (fun hl => (h.books s (hs hl).state).same (hs hl)) hnet

/-- A server that refuses a request about an entry of the leader's term has
not been counted for it. -/
theorem Counts.refused (h : Counts config w p C) (hsim : SimInv config w p)
    {f : Server} {x : AppendRequest} (hx : AppendOk p s x) (hl : (w.raft s).state = .leader)
    (hterm : x.term = (w.raft s).currentTerm) (hf : (w.raft f).currentTerm = x.term)
    (hcommit : (w.raft s).commitIndex < x.prevLogIndex)
    (hc : ¬ consistent (w.raft f) x) : f ∉ C s x.prevLogIndex := by
  intro hmem
  obtain ⟨-, -, ⟨k, e, hk, he, het⟩, hacks⟩ := (h.books s hl).acked _ hcommit f hmem
  rw [← hterm] at he het hacks
  have hk' : k = x.prevLogIndex.toNat := by omega
  subst hk'
  have hlt := (h.books s hl).level
  rw [← hterm] at hlt
  -- the entry is not committed yet
  have hnot : ¬ x.prevLogIndex.toNat < p.clevel x.term := by omega
  have hheld := hsim.inv.held f
  rw [hsim.term f, hf] at hheld
  have hmine : (p.log f)[x.prevLogIndex.toNat]? = some e :=
    prefix_getElem? hheld (by rw [List.getElem?_take_of_lt (by omega), he])
  have hlen : x.prevLogIndex.toNat < (p.log f).length := (List.getElem?_eq_some_iff.mp hmine).1
  have hcount := (hsim.holds f).length
  rcases hx.prev with ⟨h0, e', he', ht'⟩ | ⟨ht, u, hu, hk, hpre⟩
  · rw [he, Option.some.injEq] at he'
    subst he'
    rcases getLogTerm_cases (w.raft f) x.prevLogIndex with ⟨y, hy, hyt⟩ | ⟨hout, -⟩
    · have hye := (hsim.holds f).entry _ _ hy
      rw [hmine, Option.some.injEq] at hye
      apply hc
      unfold consistent
      push Not
      refine ⟨by omega, by omega, ?_⟩
      rw [hyt, ht', hye, LogEntry.core_term]
    · -- a follower that has it in a snapshot knows that it is committed
      obtain ⟨u, hu, hk, hpre⟩ := hsim.covered f
      rw [hsim.term f, hf] at hu
      exact hnot (hsim.inv.clevel_of_own hu hk (by omega) hpre hmine het)
  · exact hnot (hsim.inv.clevel_of_own hu hk (by omega) hpre he het)

theorem Counts.reply (h : Counts config w p C) (hsim : SimInv config w p)
    (hrouted : Routed config w) {d : Datagram} (hd : d ∈ w.net)
    (hh : Handled (w.raft d.dst) d.src d.packet r' es)
    (hraft : w'.raft = Function.update w.raft d.dst r') (hC : ∀ v, v ≠ d.dst → C' v = C v)
    {y : Datagram} (hy : y ∈ es.filterMap (Cluster.sentBy d.dst (some d.packet))) :
    CountsDatagram config w' C' y := by
  have hne := (hrouted.net d hd).apart
  rcases hh.sent d.dst (some d.packet) with hnil | ⟨q, hone, -, hqt, -⟩
  · rw [hnil] at hy
    exact absurd hy (by simp)
  rw [hone, List.mem_singleton] at hy
  subst hy
  intro x hx
  simp only [Option.some.injEq] at hx
  rw [hx] at hh
  obtain ⟨q', hone', -, -, hrid, hs⟩ := hh.answers_append d.dst (some d.packet)
  rw [hone', List.singleton_inj] at hone
  simp only [Datagram.mk.injEq, Packet.response.injEq, true_and, and_true] at hone
  subst hone
  simp only [hraft, Function.update_of_ne hne, hC _ hne]
  intro hl hterm hq
  have hreq := h.net d hd
  have htruth := hsim.truthful d hd
  simp only [CountsDatagram, hx] at hreq
  simp only [Truthful, hx] at htruth
  refine ⟨hrid ▸ hreq hl hterm, fun hzero _ hcommit => ?_⟩
  rcases hs with ⟨-, hc⟩ | ⟨hpos, -⟩
  · exact h.refused hsim htruth hl hterm (by omega) hcommit hc
  · omega

theorem le_answered (r : RaftState) (id i : ℤ) :
    r.lastRequestId i ≤ Function.update r.lastRequestId id (r.lastRequestId id + 1) i := by
  by_cases hi : i = id
  · subst hi
    simp
  · simp [hi]

theorem le_matched (r : RaftState) (id i : ℤ) :
    r.nextIndex i ≤ Function.update r.nextIndex id (r.nextIndex id + 1) i := by
  by_cases hi : i = id
  · subst hi
    simp
  · simp [hi]

/-- A refusal moves the leader back by one entry, which its sender has not
been counted for. -/
theorem BooksOf.refusal {c : ℤ → Finset Server} (h : BooksOf config p s r c)
    (hinj : Function.Injective config) {f : Server} {q : Response} (hid : q.id = config f)
    (hnot : r.commitIndex < r.nextIndex q.id - 1 → f ∉ c (r.nextIndex q.id - 1)) :
    BooksOf config p s (answered (noted r q) q.id (r.nextIndex q.id - 1)) c where
  level := h.level
  bound := h.bound
  acked n hn g hg := by
    obtain ⟨hne, hnext, hrest⟩ := h.acked n hn g hg
    refine ⟨hne, ?_, hrest⟩
    simp only [answered, noted]
    by_cases hgf : config g = q.id
    · rw [hgf, Function.update_self]
      obtain rfl : g = f := hinj (hgf.trans hid)
      rw [hgf] at hnext
      have hn' : r.commitIndex < n := hn
      have : n ≠ r.nextIndex q.id - 1 := by
        rintro rfl
        exact hnot hn' hg
      omega
    · rwa [Function.update_of_ne hgf]

theorem getLog_counted {i n : ℤ} {e : LogEntry} (hi : r.startLogIndex ≤ i)
    (h : getLog (counted r i) n = some e) :
    (n ≠ i ∧ getLog r n = some e) ∨
    (n = i ∧ ∃ x, getLog r n = some x ∧
      e = { x with nServersReplicated := x.nServersReplicated + 1 }) := by
  obtain ⟨hlo, hhi, rfl⟩ := getLog_some h
  have hold : getLog r n = _ := getLog_of_mem hlo hhi
  by_cases hn : n = i
  · subst hn
    exact Or.inr ⟨rfl, _, hold, by simp [counted]⟩
  · left
    refine ⟨hn, ?_⟩
    rw [hold]
    have h0 : r.startLogIndex ≤ n := hlo
    have hslot : (n - r.startLogIndex).toNat ≠ (i - r.startLogIndex).toNat := by omega
    simp [counted, Function.update_of_ne hslot]

/-- A counted answer adds its sender to the servers of the entry. -/
theorem BooksOf.count {c : ℤ → Finset Server} (h : BooksOf config p s r c) {f : Server}
    {q : Response} (hid : q.id = config f) (hf : f ≠ s)
    (hstart : r.startLogIndex ≤ r.nextIndex q.id) (hnew : r.nextIndex q.id > r.commitIndex)
    (hown : p.Own LogEntry.term r.currentTerm (r.nextIndex q.id + 1).toNat)
    (hacks : (r.nextIndex q.id + 1).toNat ≤ p.acks f r.currentTerm) {m : ℤ}
    (hm : r.commitIndex ≤ m) :
    BooksOf config p s
      { matched (counted (noted r q) (r.nextIndex q.id)) q.id with commitIndex := m }
      (Function.update c (r.nextIndex q.id) (insert f (c (r.nextIndex q.id)))) := by
  have hfresh : f ∉ c (r.nextIndex q.id) := by
    intro hmem
    have := (h.acked _ hnew f hmem).2.1
    rw [← hid] at this
    exact lt_irrefl _ this
  refine ⟨?_, fun n e hn he ht => ?_, fun n hn g hg => ?_⟩
  · have hlevel := h.level
    simp only [matched, counted, noted]
    omega
  · have hn' : r.commitIndex < n := hm.trans_lt hn
    have hcounted : getLog (counted (noted r q) (r.nextIndex q.id)) n = some e := he
    rcases getLog_counted hstart hcounted with ⟨hne, hold⟩ | ⟨rfl, x, hold, rfl⟩
    · rw [Function.update_of_ne hne]
      exact h.bound n e hn' hold ht
    · rw [Function.update_self, Finset.card_insert_of_notMem hfresh]
      have := h.bound _ x hn' hold ht
      push_cast
      omega
  · have hn' : r.commitIndex < n := hm.trans_lt hn
    have hold : ∀ g ∈ c n, g ≠ s ∧ n < Function.update r.nextIndex q.id (r.nextIndex q.id + 1)
        (config g) ∧ p.Own LogEntry.term r.currentTerm (n + 1).toNat ∧
        (n + 1).toNat ≤ p.acks g r.currentTerm := by
      intro g hg
      obtain ⟨hne, hlt, hrest⟩ := h.acked n hn' g hg
      exact ⟨hne, hlt.trans_le (le_matched r _ _), hrest⟩
    by_cases hni : n = r.nextIndex q.id
    · subst hni
      rw [Function.update_self, Finset.mem_insert] at hg
      rcases hg with rfl | hg
      · refine ⟨hf, ?_, hown, hacks⟩
        simp only [matched, counted, noted]
        rw [← hid, Function.update_self]
        omega
      · exact hold g hg
    · rw [Function.update_of_ne hni] at hg
      exact hold g hg

/-- A new leader has one entry of its term and nobody counted for it. -/
theorem BooksOf.elected (hold : ∀ n e, getLog r n = some e → e.term < r.currentTerm)
    (hstart : r.startLogIndex ≤ r.logCount)
    (hlevel : (p.clevel r.currentTerm : ℤ) ≤ r.commitIndex + 1) :
    BooksOf config p s (elected r) fun _ => ∅ where
  level := hlevel
  bound n e _ he ht := by
    obtain ⟨hlo, hhi, rfl⟩ := getLog_some he
    simp only [RaftLock.elected] at hlo hhi ht ⊢
    by_cases hn : n = r.logCount
    · subst hn
      simp
    · have hne : (n - r.startLogIndex).toNat ≠ (r.logCount - r.startLogIndex).toNat := by omega
      rw [Function.update_of_ne hne] at ht
      have := hold n _ (getLog_of_mem hlo (by omega))
      omega
  acked n _ f hf := absurd hf (by simp)

/-- An answer that a leader counts for an entry, in a run in which answers are
taken for what they are, is an acknowledgement of that entry by its sender. -/
theorem SimInv.acknowledged (h : SimInv config w p) (hrouted : Routed config w) {d : Datagram}
    (hd : d ∈ w.net) {q : Response} (hp : d.packet = .response q)
    (hconf : Confirms (w.raft d.dst) d) (hterm : q.term = (w.raft d.dst).currentTerm)
    (hstate : (w.raft d.dst).state = .leader)
    (hid : q.requestId = (w.raft d.dst).lastRequestId q.id)
    (hnext : (w.raft d.dst).startLogIndex ≤ (w.raft d.dst).nextIndex q.id)
    (hlt : (w.raft d.dst).nextIndex q.id < (w.raft d.dst).logCount) (hs : q.success ≠ 0) :
    ((w.raft d.dst).nextIndex q.id + 1).toNat ≤ p.acks d.src (w.raft d.dst).currentTerm := by
  have htruth := h.truthful d hd
  simp only [Truthful, hp] at htruth
  simp only [Confirms, hp] at hconf
  obtain ⟨x, hx, hprev, hcarried⟩ := (hconf hstate hterm hid hnext (Or.inr hlt)).append
  rw [if_neg hs] at hcarried
  have hpos : 0 < q.success := by
    rcases ((hrouted.net d hd).answer q x hp hx).2 with h0 | ⟨h1, -⟩
    · exact absurd h0 hs
    · omega
  have := (htruth x hx).2 hpos hcarried
  rwa [hterm, show x.prevLogIndex + 2 = (w.raft d.dst).nextIndex q.id + 1 by omega] at this

/-- The leader's entry of its own term at `n`. -/
theorem SimInv.own (h : SimInv config w p) (hstate : (w.raft s).state = .leader) {n : ℤ}
    (hown : getLogTerm (w.raft s) n = (w.raft s).currentTerm)
    (hlo : (w.raft s).startLogIndex ≤ n) (hhi : n < (w.raft s).logCount) :
    p.Own LogEntry.term (w.raft s).currentTerm (n + 1).toNat := by
  have h0 := (h.holds s).start_nonneg
  have he := (h.holds s).entry n _ (getLog_of_mem hlo hhi)
  rw [h.leader_log hstate] at he
  refine ⟨n.toNat, _, by omega, he, ?_⟩
  unfold getLogTerm at hown
  rwa [if_neg (by omega)] at hown

/-- The books of a new leader. Nothing of its term has been sent. -/
theorem Counts.elected (h : Counts config w p C) (hsim : SimInv config w p)
    (hraft : w'.raft = Function.update w.raft s r')
    (hterm : r'.currentTerm = (w.raft s).currentTerm)
    (hnone : p.lead (w.raft s).currentTerm = none) {c : ℤ → Finset Server}
    (hbooks : BooksOf config p s r' c)
    (hnet : ∀ d ∈ w'.net, d ∈ w.net ∨ CountsDatagram config w' (Function.update C s c) d) :
    Counts config w' p (Function.update C s c) := by
  refine ⟨fun d hd => ?_, fun v hl => ?_⟩
  · rcases hnet d hd with hold | hnew
    · have htruth := hsim.truthful d hold
      have hmine := h.net d hold
      unfold CountsDatagram at hmine ⊢
      unfold Truthful at htruth
      cases hp : d.packet with
      | append q =>
          rw [hp] at hmine htruth
          intro hl hqt
          by_cases hv : d.src = s
          · rw [hraft, hv, Function.update_self, hterm] at hqt
            have hlead := htruth.lead
            rw [hqt, hnone] at hlead
            exact absurd hlead (by simp)
          · rw [hraft, Function.update_of_ne hv] at hl hqt ⊢
            exact hmine hl hqt
      | response q =>
          rw [hp] at hmine htruth
          intro x hx hl hxt hqt
          by_cases hv : d.dst = s
          · rw [hraft, hv, Function.update_self, hterm] at hxt
            have hlead := (htruth x hx).1
            rw [hxt, hnone] at hlead
            exact absurd hlead (by simp)
          · rw [hraft, Function.update_of_ne hv] at hl hxt hqt ⊢
            rw [Function.update_of_ne hv]
            exact hmine x hx hl hxt hqt
      | _ => trivial
    · exact hnew
  · by_cases hv : v = s
    · subst hv
      rw [hraft, Function.update_self, Function.update_self]
      exact hbooks
    · rw [hraft, Function.update_of_ne hv] at hl ⊢
      rw [Function.update_of_ne hv]
      exact h.books v hl

theorem Counts.handle (h : Counts config w p C) (hsim : SimInv config w p)
    (hge : ∀ v, -1 ≤ (w.raft v).commitIndex) (hrouted : Routed config w)
    (hinj : Function.Injective config)
    (hvalid : ∀ v, config v ≠ -1) {a b : List Datagram} {d : Datagram}
    (hnet : w.net = a ++ d :: b) (hconf : Confirms (w.raft d.dst) d)
    (hh : Handled (w.raft d.dst) d.src d.packet r' es) :
    ∃ C', Counts config ({ w with net := a ++ b }.settle d.dst r' es (some d.packet)) p C' := by
  have hd : d ∈ w.net := by simp [hnet]
  obtain ⟨w', hw'⟩ : ∃ w', w' = { w with net := a ++ b }.settle d.dst r' es (some d.packet) :=
    ⟨_, rfl⟩
  have hraft : w'.raft = Function.update w.raft d.dst r' := by rw [hw']; rfl
  have hsent : ∀ {C' : Server → ℤ → Finset Server}, (∀ v, v ≠ d.dst → C' v = C v) →
      ∀ x ∈ w'.net, x ∈ w.net ∨ CountsDatagram config w' C' x := by
    intro C' hC x hx
    rw [hw'] at hx
    rcases mem_settle_net hx with hold | hnew
    · exact Or.inl (mem_handle_net hnet hold)
    · exact Or.inr (h.reply hsim hrouted hd hh hraft hC hnew)
  have hsame : (r'.state = .leader → SameBooks config (w.raft d.dst) r') →
      ∃ C', Counts config w' p C' := fun hs => ⟨C, h.same hraft hs (hsent fun _ _ => rfl)⟩
  have hroute := hrouted.net d hd
  obtain ⟨pk, hp⟩ : ∃ pk, d.packet = pk := ⟨_, rfl⟩
  have hcases := hh
  rw [hp] at hcases
  rw [← hw']
  cases hcases with
  | heartbeat | entryStored => exact hsame fun hl => absurd hl (by simp [stored])
  | installDone q hterm hi hd' es hes =>
      -- the leader of the term does not send it to itself
      refine hsame fun hl => ?_
      have htruth := hsim.truthful d hd
      simp only [Truthful, hp] at htruth
      have hlead := hsim.leader d.dst hl
      rw [← hterm, htruth.1, Option.some.injEq] at hlead
      exact absurd hlead hroute.apart
  | voteBlocked q hterm hstate hs => exact hsame fun hl => absurd hl (by simp [noted, hstate])
  | voteCounted q hterm hstate hs hfew => exact hsame fun hl => absurd hl (by simp [noted, hstate])
  | installChunk q hterm hi hd' r' hr' =>
      subst hr'
      exact hsame fun hl =>
        ⟨hl, rfl, fun _ => le_rfl, rfl, fun _ => le_rfl, fun _ _ _ he => Or.inl he⟩
  | installAnswered q hterm hstate hid hnext r' hr' =>
      subst hr'
      refine hsame fun hl => ⟨hl, rfl, le_answered _ _, rfl, fun f => ?_, fun _ _ _ he => Or.inl he⟩
      simp [answered, noted]
  | appendAnswered q hterm hstate hid hnext next hans r' hr' =>
      subst hr'
      rcases hans with ⟨hs, rfl⟩ | ⟨hs, hle, rfl⟩
      · refine ⟨C, h.update hraft (fun _ _ => rfl)
          (fun hl => ⟨hl, rfl, le_answered _ _, le_rfl, fun _ _ hf _ => hf⟩)
          (fun hl => (h.books d.dst hl).refusal hinj (hroute.id q hp) ?_) (hsent fun _ _ => rfl)⟩
        intro hcommit
        have hmine := h.net d hd
        simp only [CountsDatagram, hp] at hmine
        simp only [Confirms, hp] at hconf
        obtain ⟨x, hx, hprev, hxt⟩ := (hconf hstate hterm hid hnext (Or.inl hs)).append
        rw [if_pos hs] at hxt
        rw [show (w.raft d.dst).nextIndex q.id - 1 = x.prevLogIndex by omega] at hcommit ⊢
        refine (hmine x hx hstate hxt hterm).2 hs ?_ hcommit
        rw [hid, hroute.id q hp]
      · refine hsame fun hl =>
          ⟨hl, rfl, le_answered _ _, rfl, fun f => ?_, fun _ _ _ he => Or.inl he⟩
        simp [answered, noted]
  | entryAnswered q hterm hstate hid hnext hlt hs hskip r' hr' =>
      subst hr'
      exact hsame fun hl => ⟨hl, rfl, le_answered _ _, rfl, fun f => le_matched _ _ _,
        fun _ _ _ he => Or.inl he⟩
  | entryCounted q hterm hstate hid hnext hlt hs hnew hown hroom n hn hcommit r' hr' =>
      subst hr'
      have hle : (w.raft d.dst).commitIndex ≤ n := by
        rw [hn, countTarget]
        split_ifs <;> omega
      refine ⟨Function.update C d.dst (Function.update (C d.dst) ((w.raft d.dst).nextIndex q.id)
        (insert d.src (C d.dst ((w.raft d.dst).nextIndex q.id)))), h.update hraft
        (fun v hv => by simp [hv]) (fun hl => ⟨hl, rfl, le_answered _ _, hle, ?_⟩) (fun hl => ?_)
        (hsent fun v hv => by simp [hv])⟩
      · intro m f hf hlast
        rw [Function.update_self] at hf
        by_cases hm : m = (w.raft d.dst).nextIndex q.id
        · subst hm
          rw [Function.update_self, Finset.mem_insert] at hf
          refine hf.resolve_left ?_
          rintro rfl
          simp [matched, counted, noted, ← hroute.id q hp] at hlast
        · rwa [Function.update_of_ne hm] at hf
      · rw [Function.update_self]
        exact (h.books d.dst hl).count (hroute.id q hp) hroute.apart hnext hnew
          (hsim.own hl hown hnext hlt)
          (hsim.acknowledged hrouted hd hp hconf hterm hl hid hnext hlt hs) hle
  | voteDecided q hterm hstate hs hmany hlo hroom r' hr' =>
      subst hr'
      have helect := hsim.elect.handle_silent hvalid hnet hh rfl
      rw [← hw'] at helect
      obtain ⟨-, hnone, hcand⟩ := hsim.won hstate helect (by rw [hraft, Function.update_self]; rfl)
        (by rw [hraft, Function.update_self]; rfl)
      refine ⟨Function.update C d.dst fun _ => ∅, h.elected hsim hraft rfl hnone ?_
        (hsent fun v hv => by simp [hv])⟩
      refine BooksOf.elected (fun n e he => ?_) hlo ?_
      · have hmem := List.mem_of_getElem? ((hsim.holds d.dst).entry n e he)
        exact hsim.inv.cand_lt _ _ _ hcand e.core hmem
      · -- nothing can be committed in a term before its leader is elected
        have hzero : p.clevel (w.raft d.dst).currentTerm = 0 := by
          by_contra hne
          exact hsim.inv.lead_of_clevel (Nat.pos_of_ne_zero hne) hnone
        have := hge d.dst
        simp only [noted, hzero]
        omega
  | _ =>
      exact hsame fun hl =>
        ⟨hl, rfl, fun _ => le_rfl, rfl, fun _ => le_rfl, fun _ _ _ he => Or.inl he⟩

/-- `Raft_send_snapshot` is about to end with the follower's answer to its
last request. -/
def Finishes (r : RaftState) (t : LeaderThread) : Prop :=
  match t.pc with
  | .sending q _ => q.done = true ∧ q.requestId ≠ r.lastRequestId (r.config t.follower) ∧
      r.lastRequestResponse (r.config t.follower) ≠ 0
  | _ => False

/-- The end of a transfer does not send a leader back. -/
def NoReturn (r : RaftState) (t : LeaderThread) : Prop :=
  r.state = .leader → Finishes r t → r.nextIndex (r.config t.follower) ≤ r.startLogIndex

theorem Sends.sameBooks {t : LeaderThread} {pc : Option LeaderPc} (h : Sends r t r' es pc)
    (hback : NoReturn r t) (hl : r'.state = .leader) : SameBooks config r r' := by
  cases h with
  | finish q it hpc hid hres hdone =>
      have hle := hback hl (by simp only [Finishes, hpc]; exact ⟨hdone, hid, hres⟩)
      refine ⟨hl, rfl, fun _ => le_rfl, rfl, fun f => ?_, fun _ _ _ he => Or.inl he⟩
      by_cases hf : config f = r.config t.follower
      · rw [hf]
        simpa using hle
      · simp [hf]
  | _ => exact ⟨hl, rfl, fun _ => le_rfl, rfl, fun _ => le_rfl, fun _ _ _ he => Or.inl he⟩

theorem Sends.countsDatagram {t : LeaderThread} {pc : Option LeaderPc}
    (h : Sends (w.raft s) t r' es pc) (helect : ElectInv config w p.voted)
    (hraft : w'.raft = Function.update w.raft s r') {d : Datagram}
    (hd : d ∈ es.filterMap (Cluster.sentBy s none)) : CountsDatagram config w' C d := by
  cases h with
  | heartbeat hpc hstate hnext heq =>
      simp only [List.filterMap_cons, Cluster.sentBy, List.filterMap_nil,
        List.mem_singleton] at hd
      subst hd
      intro _ _
      simp [hraft, appendRequest, (helect.ids s).1]
  | entry hpc hstate hnext e he =>
      simp only [List.filterMap_cons, Cluster.sentBy, List.filterMap_nil,
        List.mem_singleton] at hd
      subst hd
      intro _ _
      simp [hraft, appendRequest, (helect.ids s).1]
  | first | next =>
      simp only [List.filterMap_cons, Cluster.sentBy, List.filterMap_nil,
        List.mem_singleton] at hd
      subst hd
      trivial
  | _ => exact absurd hd (by simp)

/-- The books are kept by every step in which answers are taken for what they
are and the end of a transfer does not send a leader back. -/
theorem Counts.step {g : Guard} (hinj : Function.Injective config)
    (hvalid : ∀ v, config v ≠ -1) (h : Counts config w p C) (hsim : SimInv config w p)
    (hge : ∀ v, -1 ≤ (w.raft v).commitIndex) (hrouted : Routed config w)
    (hconf : ∀ {l r d}, g.packet l r d → Confirms r d)
    (hback : ∀ s, ∀ t ∈ w.threads s, g.sender (w.raft s) t → NoReturn (w.raft s) t)
    {v : Option (Server × ℤ × Server)} (hstep : World.Step g w v w') :
    ∃ C', Counts config w' p C' := by
  cases hstep with
  | stepDown s t ht =>
      refine ⟨C, h.same (s := s) rfl (fun hl => ?_) fun d hd => Or.inl hd⟩
      rw [(convertToFollower_follows (w.raft s) t).state] at hl
      exact absurd hl (by simp)
  | campaign s =>
      refine ⟨C, h.same (s := s) rfl (fun hl => absurd hl (by simp [attemptToElect_eq, campaigner]))
        fun d hd => (mem_settle_net hd).imp id fun hnew => ?_⟩
      obtain ⟨q, hp⟩ := attemptToElect_sent hnew
      simp only [CountsDatagram, hp]
  | handle a b d r' es hnet hle hpass hh =>
      exact h.handle hsim hge hrouted hinj hvalid hnet (hconf hpass) hh
  | turns d l hd hpass hl =>
      exact ⟨C, h.same (s := d.dst) rfl (fun hl => absurd hl (by simp [forget]))
        fun d hd => Or.inl hd⟩
  | lose net hsub => exact ⟨C, fun d hd => h.net d (hsub.subset hd), h.books⟩
  | append s e hf =>
      rcases appendEntry_ok hf with heq | ⟨r', heq, -, hlo, -, hr'⟩
      · rw [heq]
        exact ⟨C, h.same (s := s) rfl (fun hl => .refl hl) fun d hd =>
          Or.inl (by simpa [World.settle, ret] using hd)⟩
      · rw [heq, hr']
        refine ⟨C, h.same (s := s) rfl (fun hl => ⟨hl, rfl, fun _ => le_rfl, rfl, fun _ => le_rfl,
          fun n x _ hx => ?_⟩) fun d hd => Or.inl (by simpa [World.settle, saveState, emit,
            Cluster.sentBy] using hd)⟩
        obtain ⟨hnlo, hnhi, rfl⟩ := getLog_some hx
        simp only [saveState, emit] at hnlo hnhi ⊢
        by_cases hn : n = (w.raft s).logCount
        · subst hn
          simp
        · have hne : (n - (w.raft s).startLogIndex).toNat ≠
              ((w.raft s).logCount - (w.raft s).startLogIndex).toNat := by omega
          rw [Function.update_of_ne hne]
          exact Or.inl (getLog_of_mem hnlo (by omega))
  | sender s a b t r' es pc ht hpass hs =>
      have hmem : t ∈ w.threads s := by simp [ht]
      refine ⟨C, h.same (s := s) rfl (fun hl => hs.sameBooks (hback s t hmem hpass) hl)
        fun d hd => (mem_settle_net hd).imp id fun hnew => ?_⟩
      exact hs.countsDatagram hsim.elect rfl hnew
  | enter s n r' he =>
      obtain ⟨-, rfl⟩ := createSnapshotEnter_some he
      exact ⟨C, h.same (s := s) rfl (fun hl => ⟨hl, rfl, fun _ => le_rfl, rfl, fun _ => le_rfl,
        fun _ _ _ he => Or.inl he⟩) fun d hd => Or.inl hd⟩
  | shift s n hn hpass hf =>
      obtain ⟨hroom, heq⟩ := createSnapshotShift_ok hf
      rw [heq]
      exact ⟨C, h.same (s := s) rfl (fun hl => ⟨hl, rfl, fun _ => le_rfl, rfl, fun _ => le_rfl,
        fun i e _ he => Or.inl (getLog_shifted (fun hlt => (hroom hlt).1) he)⟩) fun d hd =>
        Or.inl (by simpa [World.settle, saveState, emit, Cluster.sentBy] using hd)⟩
  | crash s st hst =>
      exact ⟨C, h.same (s := s) rfl (fun hl => absurd hl (by simp [forget])) fun d hd => Or.inl hd⟩
  | replay s l hl => exact ⟨C, h.net, h.books⟩

theorem counts_init (config : Config) (p : Protocol) :
    Counts config (World.init config) p fun _ _ => ∅ where
  net d hd := absurd hd (by simp [World.init])
  books s hl := absurd hl (by simp [World.init, serverInit])

end Counts

end RaftLock

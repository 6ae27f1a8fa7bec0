import RaftLock.Safety.Bookkeeping
import RaftLock.Safety.LogMatching

/-!
A leader's next index, in runs without snapshots.

The index of a follower goes down by one with each refusal. A refusal of the
request about it is no danger: a request that goes back to the beginning of
the log is not refused. But request ids start from `0` in every term, so a
server that leads again can take the refusal of a request of its earlier term
for one of the open request; enough of them bring the index below `0`, where
the leader believes that the follower needs a snapshot.
-/

namespace RaftLock

open Outcome

/-- A refusal that lowers a leader's next index answers the request about it,
one of the leader's present term. -/
def RefusalFits (r : RaftState) (d : Datagram) : Prop :=
  match d.packet with
  | .response q =>
    r.state = .leader → q.term = r.currentTerm → q.requestId = r.lastRequestId q.id →
      r.startLogIndex ≤ r.nextIndex q.id → q.success = 0 → AnswerFits r q d.answers
  | _ => True

theorem Confirms.refusalFits {r : RaftState} {d : Datagram} (h : Confirms r d) :
    RefusalFits r d := by
  unfold Confirms at h
  unfold RefusalFits
  split
  · rename_i q hp
    simp only [hp] at h
    exact fun hl ht hid hnext hs => h hl ht hid hnext (Or.inl hs)
  · trivial

/-- A restriction under which no log is shifted and refusals fit. -/
structure Guard.Refuses (g : Guard) : Prop where
  packet : ∀ {l r d}, g.packet l r d → RefusalFits r d
  shift : ∀ {r n}, ¬ g.shift r n

/-- What a datagram in flight means for the next indices. -/
def InRangeDatagram (d : Datagram) : Prop :=
  match d.packet with
  | .installSnapshot _ => False
  | .append x => x.prevLogIndex = -1 → x.prevLogTerm = -1
  | .response q => ∀ x, d.answers = some (.append x) → q.success = 0 → x.term = q.term →
      -1 ≤ x.prevLogIndex → 0 ≤ x.prevLogIndex
  | .vote _ => True

structure InRange (w : World) : Prop where
  start : ∀ s, (w.raft s).startLogIndex = 0
  count : ∀ s, 0 ≤ (w.raft s).logCount
  idle : ∀ s, ∀ t ∈ w.threads s, t.pc = .idle
  next : ∀ s, (w.raft s).state = .leader → ∀ i,
    0 ≤ (w.raft s).nextIndex i ∧ (w.raft s).nextIndex i ≤ (w.raft s).logCount
  net : ∀ d ∈ w.net, InRangeDatagram d

section InRange

variable {g : Guard} {w w' : World} {s : Server} {r r' : RaftState} {es : List Effect}

theorem InRange.update (h : InRange w) (hraft : w'.raft = Function.update w.raft s r')
    (hstart : r'.startLogIndex = 0) (hcount : 0 ≤ r'.logCount)
    (hidle : ∀ v, ∀ t ∈ w'.threads v, t ∈ w.threads v ∨ t.pc = .idle)
    (hnext : r'.state = .leader → ∀ i, 0 ≤ r'.nextIndex i ∧ r'.nextIndex i ≤ r'.logCount)
    (hnet : ∀ d ∈ w'.net, d ∈ w.net ∨ InRangeDatagram d) : InRange w' := by
  have hcases : ∀ v, w'.raft v = r' ∨ w'.raft v = w.raft v := by
    intro v
    rw [hraft, Function.update_apply]
    split
    · exact Or.inl rfl
    · exact Or.inr rfl
  refine ⟨fun v => ?_, fun v => ?_, fun v t ht => (hidle v t ht).elim (h.idle v t) id,
    fun v => ?_, fun d hd => (hnet d hd).elim (h.net d) id⟩
  · rcases hcases v with hv | hv <;> rw [hv]
    · exact hstart
    · exact h.start v
  · rcases hcases v with hv | hv <;> rw [hv]
    · exact hcount
    · exact h.count v
  · rcases hcases v with hv | hv <;> rw [hv]
    · exact hnext
    · exact h.next v

/-- The request about the beginning of a log is accepted. -/
theorem consistent_of_beginning {x : AppendRequest} (hstart : r.startLogIndex = 0)
    (hcount : 0 ≤ r.logCount) (hterm : x.term = r.currentTerm) (hprev : x.prevLogIndex = -1)
    (hprevTerm : x.prevLogTerm = -1) : consistent r x := by
  unfold consistent getLogTerm
  push Not
  refine ⟨by omega, by omega, ?_⟩
  rw [if_pos (by omega), hprevTerm]

/-- The window after a handler, in a run in which nobody sends a snapshot. -/
theorem Handled.in_range {d : Datagram} (hh : Handled r d.src d.packet r' es)
    (hstart : r.startLogIndex = 0) (hcount : 0 ≤ r.logCount)
    (hnext : r.state = .leader → ∀ i, 0 ≤ r.nextIndex i ∧ r.nextIndex i ≤ r.logCount)
    (hd : InRangeDatagram d) (hfits : RefusalFits r d) :
    r'.startLogIndex = 0 ∧ 0 ≤ r'.logCount ∧
      (r'.state = .leader → ∀ i, 0 ≤ r'.nextIndex i ∧ r'.nextIndex i ≤ r'.logCount) := by
  obtain ⟨pk, hp⟩ : ∃ pk, d.packet = pk := ⟨_, rfl⟩
  rw [hp] at hh
  cases hh with
  | installRefused q | installChunk q | installDone q =>
      simp only [InRangeDatagram, hp] at hd
  | heartbeat q => exact ⟨hstart, hcount, fun hl => absurd hl (by simp)⟩
  | entryStored q hterm hc hn hlo hhi =>
      refine ⟨hstart, ?_, fun hl => absurd hl (by simp [stored])⟩
      simp only [stored]
      omega
  | voteBlocked q _ hstate => exact ⟨hstart, hcount, fun hl => absurd hl (by simp [noted, hstate])⟩
  | voteCounted q _ hstate => exact ⟨hstart, hcount, fun hl => absurd hl (by simp [noted, hstate])⟩
  | voteDecided q _ _ _ _ hlo _ r' hr' =>
      subst hr'
      refine ⟨hstart, ?_, fun _ i => ⟨?_, le_rfl⟩⟩ <;>
      · simp only [elected, noted]
        omega
  | installAnswered q _ hstate _ hlt r' hr' =>
      have := (hnext hstate q.id).1
      omega
  | appendAnswered q hterm hstate hid hle next hans r' hr' =>
      subst hr'
      refine ⟨hstart, hcount, fun _ i => ?_⟩
      simp only [answered, noted]
      rw [Function.update_apply]
      split
      · rcases hans with ⟨hs, rfl⟩ | ⟨-, -, rfl⟩
        · -- the refused request did not go back to the beginning
          simp only [RefusalFits, hp] at hfits
          obtain ⟨x, hx, hprev, hxt⟩ := (hfits hstate hterm hid hle hs).append
          rw [if_pos hs] at hxt
          simp only [InRangeDatagram, hp] at hd
          have := hd x hx hs (hxt.trans hterm.symm) (by omega)
          have := (hnext hstate q.id).2
          exact ⟨by omega, by omega⟩
        · exact hnext hstate q.id
      · exact hnext hstate i
  | entryAnswered q _ hstate _ _ hlt _ _ r' hr' =>
      subst hr'
      refine ⟨hstart, hcount, fun _ i => ?_⟩
      simp only [matched, noted]
      rw [Function.update_apply]
      have := hnext hstate i
      have := hnext hstate q.id
      split
      · exact ⟨by omega, by omega⟩
      · assumption
  | entryCounted q _ hstate _ _ hlt _ _ _ _ n _ _ r' hr' =>
      subst hr'
      refine ⟨hstart, hcount, fun _ i => ?_⟩
      simp only [matched, counted, noted]
      rw [Function.update_apply]
      have := hnext hstate i
      have := hnext hstate q.id
      split
      · exact ⟨by omega, by omega⟩
      · assumption
  | _ => exact ⟨hstart, hcount, hnext⟩

/-- A refusal of a request of the same term did not go back to the
beginning. -/
theorem Handled.answers_in_range {d y : Datagram} (hh : Handled r d.src d.packet r' es)
    (hstart : r.startLogIndex = 0) (hcount : 0 ≤ r.logCount) (hd : InRangeDatagram d)
    (hy : y ∈ es.filterMap (Cluster.sentBy s (some d.packet))) : InRangeDatagram y := by
  rcases hh.sent s (some d.packet) with hnone | ⟨q, hone, -⟩
  · rw [hnone] at hy
    exact absurd hy (by simp)
  rw [hone, List.mem_singleton] at hy
  subst hy
  intro x hx hs hterm hge
  rw [Option.some.injEq] at hx
  rw [hx] at hh hone
  obtain ⟨q', hone', -, hqt, -, hcase⟩ := hh.answers_append s (some (.append x))
  rw [hone, List.cons.injEq, Datagram.mk.injEq, Packet.response.injEq] at hone'
  obtain ⟨⟨-, -, rfl, -⟩, -⟩ := hone'
  simp only [InRangeDatagram, hx] at hd
  rcases hcase with ⟨-, hc⟩ | ⟨h1, -⟩
  · by_contra hneg
    exact hc (consistent_of_beginning hstart hcount (hterm.trans hqt) (by omega)
      (hd (by omega)))
  · omega

theorem InRange.handle (h : InRange w) {a b : List Datagram} {d : Datagram}
    (hnet : w.net = a ++ d :: b) (hfits : RefusalFits (w.raft d.dst) d)
    (hh : Handled (w.raft d.dst) d.src d.packet r' es) :
    InRange ({ w with net := a ++ b }.settle d.dst r' es (some d.packet)) := by
  have hd := h.net d (by simp [hnet])
  obtain ⟨hstart, hcount, hnext⟩ :=
    hh.in_range (h.start _) (h.count _) (h.next _) hd hfits
  refine h.update (s := d.dst) rfl hstart hcount
    (fun v t ht => mem_settle_threads (w := { w with net := a ++ b }) ht) hnext fun y hy => ?_
  rcases mem_settle_net hy with hold | hnew
  · exact Or.inl (mem_handle_net hnet hold)
  · exact Or.inr (hh.answers_in_range (h.start _) (h.count _) hd hnew)

/-- A leader thread sends append requests and nothing else. -/
theorem InRange.sends (h : InRange w) {t : LeaderThread} {pc : Option LeaderPc}
    (ht : t ∈ w.threads s) (hs : Sends (w.raft s) t r' es pc) :
    r' = w.raft s ∧ (∀ z, pc = some z → z = .idle) ∧
      ∀ d ∈ es.filterMap (Cluster.sentBy s none), InRangeDatagram d := by
  have hidle := h.idle s t ht
  -- an idle thread does not enter `Raft_send_snapshot`
  have hno : ¬ Entering (w.raft s) t := by
    rintro (hpc | ⟨-, hl, hlt⟩)
    · rw [hidle] at hpc
      exact absurd hpc (by simp)
    · have := (h.next s hl ((w.raft s).config t.follower)).1
      rw [h.start s] at hlt
      omega
  have hbegin : ∀ n e, InRangeDatagram
      ⟨s, t.follower, .append (appendRequest (w.raft s) t.follower n e), none⟩ := by
    intro n e hprev
    simp only [appendRequest] at hprev ⊢
    rw [hprev, getLogTerm, if_pos (by rw [h.start s]; omega)]
  cases hs with
  | stop => exact ⟨rfl, by simp, by simp⟩
  | heartbeat =>
      refine ⟨rfl, by simp, fun d hd => ?_⟩
      simp only [List.filterMap_cons, Cluster.sentBy, List.filterMap_nil,
        List.mem_singleton] at hd
      exact hd ▸ hbegin _ _
  | entry =>
      refine ⟨rfl, by simp, fun d hd => ?_⟩
      simp only [List.filterMap_cons, Cluster.sentBy, List.filterMap_nil,
        List.mem_singleton] at hd
      exact hd ▸ hbegin _ _
  | wait hpc | first hpc => exact absurd hpc hno
  | next q _ it _ hpc | giveUp q it hpc | finish q it hpc =>
      rw [hidle] at hpc
      exact absurd hpc (by simp)

theorem InRange.restarted (h : InRange w) (hraft : w'.raft = Function.update w.raft s r')
    (hthreads : w'.threads = Function.update w.threads s []) (hnet : w'.net = w.net)
    (hagree : r'.startLogIndex = (w.raft s).startLogIndex ∧ r'.logCount = (w.raft s).logCount)
    (hf : r'.state = .follower) : InRange w' := by
  refine h.update hraft (hagree.1.trans (h.start s)) (by rw [hagree.2]; exact h.count s)
    (fun v t ht => ?_) (fun hl => ?_) fun d hd => Or.inl (hnet ▸ hd)
  · rw [hthreads, Function.update_apply] at ht
    split at ht
    · exact absurd ht (by simp)
    · exact Or.inl ht
  · rw [hf] at hl
    exact absurd hl (by simp)

theorem InRange.step (hg : g.Refuses) (h : InRange w) {v : Option (Server × ℤ × Server)}
    (hstep : World.Step g w v w') : InRange w' := by
  cases hstep with
  | stepDown s t ht =>
      have hf := convertToFollower_follows (w.raft s) t
      refine h.update (s := s) rfl (hf.startLogIndex.trans (h.start s))
        (by rw [hf.logCount]; exact h.count s) (fun v t ht => Or.inl ht) (fun hl => ?_)
        fun d hd => Or.inl hd
      rw [hf.state] at hl
      exact absurd hl (by simp)
  | campaign s =>
      refine h.update (s := s) rfl (h.start s) (h.count s) (fun v t ht => mem_settle_threads ht)
        (fun hl => absurd hl (by simp [attemptToElect_eq, campaigner])) fun d hd =>
        (mem_settle_net hd).imp id fun hnew => ?_
      obtain ⟨q, hp⟩ := attemptToElect_sent hnew
      simp only [InRangeDatagram, hp]
  | handle a b d r' es hnet hle hpass hh => exact h.handle hnet (hg.packet hpass) hh
  | turns d l hd hpass hl => exact h.restarted (s := d.dst) rfl rfl rfl ⟨rfl, rfl⟩ rfl
  | lose net hsub =>
      exact ⟨h.start, h.count, h.idle, h.next, fun d hd => h.net d (hsub.subset hd)⟩
  | append s e hf =>
      rcases appendEntry_ok hf with heq | ⟨r', heq, hl, -, -, hr'⟩
      · rw [heq]
        exact h.update (s := s) rfl (h.start s) (h.count s) (fun v t ht => mem_settle_threads ht)
          (h.next s) fun d hd => Or.inl (by simpa [World.settle, ret] using hd)
      · rw [heq, hr']
        have hcount := h.count s
        refine h.update (s := s) rfl (h.start s) ?_ (fun v t ht => mem_settle_threads ht)
          (fun _ i => ?_) fun d hd =>
          Or.inl (by simpa [World.settle, saveState, emit, Cluster.sentBy] using hd)
        · simp only [saveState, emit]
          omega
        · have := h.next s hl i
          simp only [saveState, emit]
          exact ⟨by omega, by omega⟩
  | sender s a b t r' es pc ht hpass hs =>
      obtain ⟨hr', hpc, hsent⟩ := h.sends (by simp [ht]) hs
      refine h.update (s := s) rfl (hr' ▸ h.start s) (hr' ▸ h.count s) (fun v y hy => ?_)
        (fun hl => hr' ▸ h.next s (hr' ▸ hl)) fun d hd => (mem_settle_net hd).imp id (hsent d)
      rcases mem_settle_sender ht hy with hy | hidle | ⟨-, z, hz, rfl⟩
      · exact Or.inl hy
      · exact Or.inr hidle
      · exact Or.inr (hpc z hz)
  | enter s n r' he =>
      obtain ⟨-, rfl⟩ := createSnapshotEnter_some he
      exact h.update (s := s) rfl (h.start s) (h.count s) (fun v t ht => Or.inl ht) (h.next s)
        fun d hd => Or.inl hd
  | shift s n hn hpass hf => exact absurd hpass hg.shift
  | crash s st hst =>
      exact h.restarted (s := s) rfl rfl rfl ⟨hst.startLogIndex, hst.logCount⟩ rfl
  | replay s l hl => exact ⟨h.start, h.count, h.idle, h.next, h.net⟩

theorem inRange_init (config : Config) : InRange (World.init config) where
  start _ := rfl
  count _ := le_rfl
  idle s t ht := absurd ht (by simp [World.init])
  next s hl := absurd hl (by simp [World.init, serverInit])
  net d hd := absurd hd (by simp [World.init])

theorem InRange.path (hg : g.Refuses) (h : InRange w) (hpath : World.Path g w w') :
    InRange w' := by
  induction hpath with
  | refl => exact h
  | tail _ hstep ih =>
      obtain ⟨v, hstep⟩ := hstep
      exact ih.step hg hstep

end InRange

/-- Runs in which no log is shifted and a refusal that counts is one of the
open request. -/
abbrev refusalsFit : Guard where
  packet _ r d := RefusalFits r d
  sender _ _ := True
  shift _ _ := False

theorem refusalsFit_refuses : refusalsFit.Refuses := ⟨id, id⟩

/-- Every leader's next indices stay in its log, no thread is in
`Raft_send_snapshot`, and nobody sends a snapshot. -/
theorem next_index_in_range {config : Config} {c : Cluster}
    (hrun : Cluster.Run config refusalsFit.allows c) :
    (∀ s, (c.nodes s).up = true → (c.nodes s).raft.state = .leader → ∀ f : Server,
      0 ≤ (c.nodes s).raft.nextIndex (config f) ∧
        (c.nodes s).raft.nextIndex (config f) ≤ (c.nodes s).raft.logCount) ∧
    (∀ s, (c.nodes s).view.startLogIndex = 0) ∧
    (∀ s, ∀ t ∈ (c.nodes s).leaderThreads, t.pc = .idle) ∧
    ∀ d ∈ c.net, ∀ q, d.packet ≠ .installSnapshot q := by
  obtain ⟨w, hpath, href⟩ := (refines_init config).steps hrun
  have h := (inRange_init config).path refusalsFit_refuses hpath
  refine ⟨fun s hup hl f => ?_, fun s => ?_, fun s t ht => ?_, fun d hd q hq => ?_⟩
  · rw [← (href.node s).raft_eq hup] at hl ⊢
    exact h.next s hl _
  · rw [← (href.node s).view]
    exact h.start s
  · rw [← (href.node s).threads] at ht
    exact h.idle s t ht
  · rw [← href.net] at hd
    have := h.net d hd
    simp only [InRangeDatagram, hq] at this

instance (r : RaftState) : (d : Datagram) → Decidable (RefusalFits r d)
  | ⟨_, _, .response _, _⟩ => inferInstanceAs (Decidable (_ → _))
  | ⟨_, _, .append _, _⟩ | ⟨_, _, .vote _, _⟩ | ⟨_, _, .installSnapshot _, _⟩ => .isTrue trivial

/-- Server `s` leads and its next index for `f` is `i`. -/
def leadsWith (c : Cluster) (s f : Server) (i : ℤ) : Bool :=
  (c.nodes s).up && decide ((c.nodes s).raft.state = .leader ∧
    (c.nodes s).raft.nextIndex (plainConfig f) = i)

theorem firstRefusal_runs : ((Cluster.init plainConfig).execWhile
    (fun c x => decide (refusalsFit.allows c x)) (firstElection ++ exchange)).any
    (fun c => leadsWith c 0 1 0) = true := by
  decide +kernel

theorem first_refusal_in_range : ∃ c, Cluster.Run plainConfig refusalsFit.allows c ∧
    leadsWith c 0 1 0 = true ∧ ∀ f, 0 ≤ (c.nodes 0).raft.nextIndex (plainConfig f) := by
  obtain ⟨c, hrun, hlead⟩ := Machine.exists_of_execWhile refusalsFit.allows
    (fun _ _ h => of_decide_eq_true h) firstRefusal_runs
  have hl := hlead
  simp only [leadsWith, Bool.and_eq_true, decide_eq_true_eq] at hl
  exact ⟨c, hrun, hlead, fun f => ((next_index_in_range hrun).1 0 hl.1 hl.2.1 f).1⟩

set_option maxRecDepth 10000 in
theorem staleRefusals_runs : ((Cluster.init plainConfig).execWhile
    (fun c x => decide (noSnapshots.allows c x))
    (firstElection ++ staleRequests ++ staleRefusals)).any (fun c => leadsWith c 0 3 (-1)) =
      true := by
  decide +kernel

/-- Refusals of the requests of an earlier term bring the next index below
`0`. -/
theorem next_index_below_zero : ∃ c, Cluster.Run plainConfig noSnapshots.allows c ∧
    leadsWith c 0 3 (-1) = true :=
  Machine.exists_of_execWhile noSnapshots.allows (fun _ _ h => of_decide_eq_true h)
    staleRefusals_runs

end RaftLock

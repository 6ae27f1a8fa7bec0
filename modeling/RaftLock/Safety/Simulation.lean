import RaftLock.Safety.Election
import RaftLock.Consensus.Committed

/-!
The servers follow the protocol of `RaftLock.Consensus`.

A server keeps a window of its log; the protocol state keeps the whole of it,
the entries covered by a snapshot included, and without the acknowledgement
counters (`Holds`). Every datagram tells the truth about the protocol state
(`Truthful`), which is a fact about history and so cannot be lost. A step of
the world is then matched by steps of the protocol (`SimInv.step`), under the
conditions that are not the business of replication itself: what a snapshot
covers is committed, a voter knows the term of its last entry, and an install
request does not cut off what the server has acknowledged.
-/

namespace RaftLock

open Consensus Outcome

abbrev Protocol := Proto Server LogEntry

/-- The log of a server: its window lies at the end of `L`. -/
structure Holds (r : RaftState) (L : List LogEntry) : Prop where
  start_nonneg : 0 ≤ r.startLogIndex
  start_le : r.startLogIndex ≤ r.logCount
  length : (L.length : ℤ) = r.logCount
  entry : ∀ i e, getLog r i = some e → L[i.toNat]? = some e.core

/-- An install request of the leader of its term, for a snapshot of committed
entries. -/
def InstallOk (p : Protocol) (s : Server) (q : InstallRequest) : Prop :=
  p.lead q.term = some s ∧ 0 ≤ q.snapshotId ∧ p.CommittedAt q.term q.snapshotId.toNat

/-- An append request of the leader of its term, from its log. -/
structure AppendOk (p : Protocol) (s : Server) (q : AppendRequest) : Prop where
  lead : p.lead q.term = some s
  prev_ge : -1 ≤ q.prevLogIndex
  prev_lt : q.prevLogIndex < ((p.llog q.term).length : ℤ)
  prev : (0 ≤ q.prevLogIndex ∧ ∃ e, (p.llog q.term)[q.prevLogIndex.toNat]? = some e ∧
      q.prevLogTerm = e.term) ∨
    (q.prevLogTerm = -1 ∧ p.CommittedAt q.term (q.prevLogIndex + 1).toNat)
  entry : q.entriesN ≠ 0 →
    (p.llog q.term)[(q.prevLogIndex + 1).toNat]? = some q.entry.core

/-- A vote request of a candidate, about the log it stands with. -/
def VoteOk (p : Protocol) (s : Server) (q : VoteRequest) : Prop :=
  ∃ L, p.cand q.term s = some L ∧ q.lastLogIndex = (L.length : ℤ) - 1 ∧
    (q.lastLogTerm = -1 ∨ ∃ e, L.getLast? = some e ∧ q.lastLogTerm = e.term)

def Truthful (p : Protocol) (d : Datagram) : Prop :=
  match d.packet with
  | .vote q => VoteOk p d.src q
  | .append q => AppendOk p d.src q
  | .installSnapshot q => InstallOk p d.src q
  | .response q => ∀ x, d.answers = some (.append x) → p.lead x.term = some d.dst ∧
      (0 < q.success → x.entriesN ≠ 0 → (x.prevLogIndex + 2).toNat ≤ p.acks d.src q.term)

structure SimInv (config : Config) (w : World) (p : Protocol) : Prop where
  elect : ElectInv config w p.voted
  inv : p.Inv LogEntry.term
  term : ∀ s, p.term s = (w.raft s).currentTerm
  nonneg : ∀ s, 0 ≤ (w.raft s).currentTerm
  cand_pos : ∀ t v, p.cand t v ≠ none → 1 ≤ t
  holds : ∀ s, Holds (w.raft s) (p.log s)
  covered : ∀ s, p.Committed s (w.raft s).startLogIndex.toNat
  leader : ∀ s, (w.raft s).state = .leader → p.lead (w.raft s).currentTerm = some s
  candidate : ∀ s, (w.raft s).state = .candidate → p.lead (w.raft s).currentTerm ≠ some s ∧
    (p.lead (w.raft s).currentTerm = none →
      p.cand (w.raft s).currentTerm s = some (p.log s))
  truthful : ∀ d ∈ w.net, Truthful p d
  sending : ∀ s, ∀ t ∈ w.threads s, ∀ q it, t.pc = .sending q it → InstallOk p s q

/-! ### Truth is not lost -/

section Steps

variable {p p' : Protocol} {s : Server}

theorem InstallOk.steps (hinv : p.Inv LogEntry.term) (hs : Proto.Steps LogEntry.term p p')
    {q : InstallRequest} (h : InstallOk p s q) : InstallOk p' s q :=
  ⟨hs.lead_eq h.1, h.2.1, Proto.Steps.committedAt hinv hs h.2.2⟩

theorem AppendOk.steps (hinv : p.Inv LogEntry.term) (hs : Proto.Steps LogEntry.term p p')
    {q : AppendRequest} (h : AppendOk p s q) : AppendOk p' s q where
  lead := hs.lead_eq h.lead
  prev_ge := h.prev_ge
  prev_lt := by
    have h1 := h.prev_lt
    have h2 := (Proto.Steps.llog_prefix hinv hs q.term).length_le
    omega
  prev := by
    rcases h.prev with ⟨h0, e, he, ht⟩ | ⟨ht, hc⟩
    · exact Or.inl ⟨h0, e, prefix_getElem? (Proto.Steps.llog_prefix hinv hs q.term) he, ht⟩
    · exact Or.inr ⟨ht, Proto.Steps.committedAt hinv hs hc⟩
  entry hn := prefix_getElem? (Proto.Steps.llog_prefix hinv hs q.term) (h.entry hn)

theorem Truthful.steps (hinv : p.Inv LogEntry.term) (hs : Proto.Steps LogEntry.term p p')
    {d : Datagram} (h : Truthful p d) : Truthful p' d := by
  unfold Truthful at h ⊢
  cases hp : d.packet with
  | vote q =>
      rw [hp] at h
      obtain ⟨L, hL, hrest⟩ := h
      exact ⟨L, Proto.Steps.cand_eq hinv hs hL, hrest⟩
  | append q =>
      rw [hp] at h
      exact AppendOk.steps hinv hs h
  | installSnapshot q =>
      rw [hp] at h
      exact InstallOk.steps hinv hs h
  | response q =>
      rw [hp] at h
      intro x hx
      obtain ⟨hlead, hacks⟩ := h x hx
      exact ⟨hs.lead_eq hlead, fun hpos hn => (hacks hpos hn).trans (hs.acks_le d.src q.term)⟩

end Steps

/-! ### Logs -/

section Logs

variable {r : RaftState} {L : List LogEntry}

theorem Holds.congr {r' : RaftState} (h : Holds r L) (hstart : r'.startLogIndex = r.startLogIndex)
    (hcount : r'.logCount = r.logCount) (hlog : ∀ k, (r'.log k).core = (r.log k).core) :
    Holds r' L where
  start_nonneg := hstart ▸ h.start_nonneg
  start_le := by rw [hstart, hcount]; exact h.start_le
  length := by rw [hcount]; exact h.length
  entry i e he := by
    obtain ⟨hlo, hhi, rfl⟩ := getLog_some he
    rw [hlog, hstart]
    rw [hstart] at hlo
    rw [hcount] at hhi
    exact h.entry i _ (getLog_of_mem hlo hhi)

/-- The window of a server that has written the entry at `i`, its last one. -/
theorem Holds.put {r' : RaftState} (h : Holds r L) {i : ℤ} {e : LogEntry}
    (hlo : r.startLogIndex ≤ i) (hhi : i ≤ r.logCount)
    (hstart : r'.startLogIndex = r.startLogIndex) (hcount : r'.logCount = i + 1)
    (hlog : r'.log = Function.update r.log (i - r.startLogIndex).toNat e) :
    Holds r' (L.take i.toNat ++ [e.core]) := by
  have hlen := h.length
  have h0 := h.start_nonneg
  have htake : (L.take i.toNat).length = i.toNat := by
    simp only [List.length_take]
    omega
  refine ⟨hstart ▸ h0, by omega, ?_, ?_⟩
  · rw [List.length_append, htake, List.length_singleton]
    omega
  · intro j x hx
    obtain ⟨hjlo, hjhi, rfl⟩ := getLog_some hx
    rw [hstart] at hjlo ⊢
    rw [hlog]
    by_cases hj : j = i
    · subst hj
      rw [Function.update_self, List.getElem?_append_right (by omega), htake]
      simp
    · have hlt : j < i := by omega
      have hne : (j - r.startLogIndex).toNat ≠ (i - r.startLogIndex).toNat := by omega
      rw [Function.update_of_ne hne, List.getElem?_append_left (by omega),
        List.getElem?_take_of_lt (by omega)]
      exact h.entry j _ (getLog_of_mem hjlo (by omega))

theorem Holds.push {r' : RaftState} (h : Holds r L) {e : LogEntry}
    (hstart : r'.startLogIndex = r.startLogIndex) (hcount : r'.logCount = r.logCount + 1)
    (hlog : r'.log = Function.update r.log (r.logCount - r.startLogIndex).toNat e) :
    Holds r' (L ++ [e.core]) := by
  have hput := h.put h.start_le le_rfl hstart hcount hlog
  rwa [← h.length, Int.toNat_natCast, List.take_length] at hput

end Logs

/-! ### Steps of one server -/

section Step

variable {config : Config} {w w' : World} {p p' : Protocol} {s : Server} {r' : RaftState}
  {es : List Effect} {pc : Option LeaderPc}

/-- What a step of server `s` to `r'` has to do, with the protocol state `p'`
afterwards. -/
structure Matches (w w' : World) (p p' : Protocol) (s : Server) (r' : RaftState) :
    Prop where
  raft : w'.raft = Function.update w.raft s r'
  log : ∀ v, v ≠ s → p'.log v = p.log v
  lead : ∀ t v, p'.lead t = some v → p.lead t = some v ∨ v = s
  cand : ∀ t v, p'.cand t v ≠ none → p.cand t v ≠ none ∨ 1 ≤ t
  holds : Holds r' (p'.log s)
  covered : p'.Committed s r'.startLogIndex.toNat
  leader : r'.state = .leader → p'.lead r'.currentTerm = some s
  candidate : r'.state = .candidate → p'.lead r'.currentTerm ≠ some s ∧
    (p'.lead r'.currentTerm = none → p'.cand r'.currentTerm s = some (p'.log s))
  sent : ∀ d ∈ w'.net, d ∈ w.net ∨ Truthful p' d
  threads : ∀ v, ∀ t ∈ w'.threads v, t ∈ w.threads v ∨
    ∀ q it, t.pc = .sending q it → InstallOk p' v q

theorem SimInv.assemble (h : SimInv config w p) (hs : Proto.Steps LogEntry.term p p')
    (helect : ElectInv config w' p'.voted) (hterm : ∀ v, p'.term v = (w'.raft v).currentTerm)
    (hstep : Matches w w' p p' s r') : SimInv config w' p' := by
  have hself : w'.raft s = r' := by simp [hstep.raft]
  have hother : ∀ v, v ≠ s → w'.raft v = w.raft v := fun v hv => by simp [hstep.raft, hv]
  refine ⟨helect, Proto.Steps.inv h.inv hs, hterm, ?_, ?_, ?_, ?_, ?_, ?_, ?_, ?_⟩
  · intro v
    have h1 := hs.term_le v
    have h2 := h.nonneg v
    rw [h.term v, hterm v] at h1
    omega
  · intro t v ht
    rcases hstep.cand t v ht with hold | hpos
    · exact h.cand_pos t v hold
    · exact hpos
  · intro v
    by_cases hv : v = s
    · subst hv
      rw [hself]
      exact hstep.holds
    · rw [hother v hv, hstep.log v hv]
      exact h.holds v
  · intro v
    by_cases hv : v = s
    · subst hv
      rw [hself]
      exact hstep.covered
    · rw [hother v hv]
      exact Proto.Steps.committed h.inv hs (h.covered v)
  · intro v hl
    by_cases hv : v = s
    · subst hv
      rw [hself] at hl ⊢
      exact hstep.leader hl
    · rw [hother v hv] at hl ⊢
      exact hs.lead_eq (h.leader v hl)
  · intro v hc
    by_cases hv : v = s
    · subst hv
      rw [hself] at hc ⊢
      exact hstep.candidate hc
    · rw [hother v hv] at hc ⊢
      obtain ⟨hne, hcand⟩ := h.candidate v hc
      refine ⟨fun hl => ?_, fun hl => ?_⟩
      · rcases hstep.lead _ v hl with hold | hvs
        · exact hne hold
        · exact hv hvs
      · rw [hstep.log v hv]
        refine Proto.Steps.cand_eq h.inv hs (hcand ?_)
        cases hold : p.lead (w.raft v).currentTerm with
        | none => rfl
        | some c =>
            rw [hs.lead_eq hold] at hl
            exact absurd hl (by simp)
  · intro d hd
    rcases hstep.sent d hd with hold | hnew
    · exact (h.truthful d hold).steps h.inv hs
    · exact hnew
  · intro v t ht q it hpc
    rcases hstep.threads v t ht with hold | hnew
    · exact (h.sending v t hold q it hpc).steps h.inv hs
    · exact hnew q it hpc

theorem SimInv.term_update (h : SimInv config w p) (hraft : w'.raft = Function.update w.raft s r')
    (hp : ∀ v, v ≠ s → p'.term v = p.term v) (hs : p'.term s = r'.currentTerm) (v : Server) :
    p'.term v = (w'.raft v).currentTerm := by
  by_cases hv : v = s
  · subst hv
    rw [hs, hraft, Function.update_self]
  · rw [hp v hv, hraft, Function.update_of_ne hv]
    exact h.term v

/-- A step that leaves the protocol state alone. -/
theorem SimInv.idle (h : SimInv config w p) (helect : ElectInv config w' p.voted)
    (hraft : w'.raft = Function.update w.raft s r')
    (hterm : r'.currentTerm = (w.raft s).currentTerm)
    (hrole : r'.state = .follower ∨ r'.state = (w.raft s).state)
    (hholds : Holds r' (p.log s)) (hcovered : p.Committed s r'.startLogIndex.toNat)
    (hsent : ∀ d ∈ w'.net, d ∈ w.net ∨ Truthful p d)
    (hthreads : ∀ v, ∀ t ∈ w'.threads v, t ∈ w.threads v ∨
      ∀ q it, t.pc = .sending q it → InstallOk p v q) : SimInv config w' p := by
  refine h.assemble (s := s) .refl helect
    (h.term_update hraft (fun _ _ => rfl) ?_)
    ⟨hraft, fun _ _ => rfl, fun t v hv => Or.inl hv, fun t v hv => Or.inl hv, hholds, hcovered,
      ?_, ?_, hsent, hthreads⟩
  · rw [h.term s, hterm]
  · intro hl
    rcases hrole with hf | hs
    · rw [hf] at hl
      exact absurd hl (by simp)
    · rw [hs] at hl
      rw [hterm]
      exact h.leader s hl
  · intro hc
    rcases hrole with hf | hs
    · rw [hf] at hc
      exact absurd hc (by simp)
    · rw [hs] at hc
      rw [hterm]
      exact h.candidate s hc

theorem SimInv.step_down (h : SimInv config w p) {t : ℤ} (ht : (w.raft s).currentTerm < t)
    (helect : ElectInv config
      { w with raft := Function.update w.raft s (convertToFollower (w.raft s) t).raft } p.voted) :
    ∃ p', Proto.Steps LogEntry.term p p' ∧ p'.clevel = p.clevel ∧ SimInv config
      { w with raft := Function.update w.raft s (convertToFollower (w.raft s) t).raft } p' := by
  have hf := convertToFollower_follows (w.raft s) t
  have hlt : p.term s < t := by rw [h.term s]; exact ht
  have hsteps : Proto.Steps LogEntry.term p (p.bump s t) := .single (.bump s t hlt)
  refine ⟨p.bump s t, hsteps, rfl, h.assemble (s := s) hsteps helect
    (h.term_update rfl (fun v hv => by simp [Proto.bump, hv]) ?_)
    ⟨rfl, fun _ _ => rfl, fun u v hv => Or.inl hv, fun u v hv => Or.inl hv, ?_, ?_, ?_, ?_,
      fun d hd => Or.inl hd, fun v t ht => Or.inl ht⟩⟩
  · simp [Proto.bump, hf.currentTerm]
  · exact (h.holds s).congr hf.startLogIndex hf.logCount fun k => by rw [hf.log]
  · rw [hf.startLogIndex]
    exact Proto.Steps.committed h.inv hsteps (h.covered s)
  · intro hl
    rw [hf.state] at hl
    exact absurd hl (by simp)
  · intro hc
    rw [hf.state] at hc
    exact absurd hc (by simp)

/-- The vote request of a server is about its log. -/
theorem SimInv.voteRequest_ok (h : SimInv config w p)
    (hL : p'.cand (voteRequest (w.raft s)).term s = some (p.log s)) :
    VoteOk p' s (voteRequest (w.raft s)) := by
  have hlen := (h.holds s).length
  refine ⟨p.log s, hL, by simp only [voteRequest]; omega, ?_⟩
  rcases getLogTerm_cases (w.raft s) ((w.raft s).logCount - 1) with ⟨e, he, ht⟩ | ⟨-, ht⟩
  · refine Or.inr ⟨e.core, ?_, ht⟩
    have hlast := (h.holds s).entry _ e he
    rw [List.getLast?_eq_getElem?]
    rwa [show (p.log s).length - 1 = ((w.raft s).logCount - 1).toNat by omega]
  · exact Or.inl ht

theorem SimInv.campaign (h : SimInv config w p)
    (helect : ElectInv config
      (w.settle s (attemptToElect (w.raft s)).raft (attemptToElect (w.raft s)).effects none)
      (Votes.record p.voted (some (s, (w.raft s).currentTerm + 1, s)))) :
    ∃ p', Proto.Steps LogEntry.term p p' ∧ p'.clevel = p.clevel ∧ SimInv config
      (w.settle s (attemptToElect (w.raft s)).raft (attemptToElect (w.raft s)).effects none)
      p' := by
  have hterm := h.term s
  have hsteps : Proto.Steps LogEntry.term p (p.campaign s) := .single (.campaign s)
  have hfree : p.lead ((w.raft s).currentTerm + 1) ≠ some s := by
    intro hl
    have := h.inv.cand_le _ _ _ (h.inv.lead_cand _ _ hl)
    omega
  have hcand : (p.campaign s).cand ((w.raft s).currentTerm + 1) s = some (p.log s) := by
    simp [Proto.campaign, hterm]
  refine ⟨p.campaign s, hsteps, rfl, h.assemble (s := s) hsteps ?_
    (h.term_update rfl (fun v hv => by simp [Proto.campaign, hv]) ?_)
    ⟨rfl, fun _ _ => rfl, fun u v hv => Or.inl hv, ?_, ?_, ?_, ?_, ?_, ?_, ?_⟩⟩
  · simpa [Proto.campaign, Votes.record, hterm] using helect
  · simp [Proto.campaign, hterm, attemptToElect_eq, campaigner]
  · intro t v hv
    by_cases ht : t = p.term s + 1
    · have := h.nonneg s
      exact Or.inr (by omega)
    · left
      simpa [Proto.campaign, ht] using hv
  · exact (h.holds s).congr rfl rfl fun _ => rfl
  · exact Proto.Steps.committed h.inv hsteps (h.covered s)
  · intro hl
    exact absurd hl (by simp [attemptToElect_eq, campaigner])
  · exact fun _ => ⟨hfree, fun _ => hcand⟩
  · intro d hd
    simp only [World.settle, List.mem_append] at hd
    refine hd.imp id fun hnew => ?_
    obtain ⟨y, hy, hyx⟩ := List.mem_filterMap.mp hnew
    simp only [attemptToElect_eq, List.mem_cons, List.mem_map] at hy
    rcases hy with rfl | ⟨i, -, rfl⟩
    · exact absurd hyx (by simp [Cluster.sentBy])
    · simp only [Cluster.sentBy, Option.some.injEq] at hyx
      subst hyx
      exact h.voteRequest_ok hcand
  · exact fun v t ht => (mem_settle_threads ht).imp id fun hidle q it hpc =>
      absurd hidle (by simp [hpc])

theorem SimInv.term_pos_of_matched (h : SimInv config w p) {X : List LogEntry}
    (hX : p.Matched LogEntry.term X) {e : LogEntry} (he : e ∈ X) : 1 ≤ e.term := by
  obtain ⟨i, hi⟩ := List.mem_iff_getElem?.mp he
  have hmem : e ∈ p.llog e.term :=
    (hX i e hi).subset (List.mem_iff_getElem?.mpr
      ⟨i, by rw [List.getElem?_take_of_lt (by omega), hi]⟩)
  obtain ⟨c, hc⟩ := Option.ne_none_iff_exists'.mp (h.inv.lead_of_mem hmem)
  exact h.cand_pos _ c (by rw [h.inv.lead_cand _ c hc]; simp)

theorem SimInv.term_pos (h : SimInv config w p) {e : LogEntry} (he : e ∈ p.log s) :
    1 ≤ e.term :=
  h.term_pos_of_matched (h.inv.log_matched s) he

/-- The last entry of a log that is empty or reaches into the window. -/
theorem SimInv.last_term (h : SimInv config w p)
    (hknown : (w.raft s).startLogIndex < (w.raft s).logCount ∨ (w.raft s).startLogIndex = 0)
    {x : LogEntry} (hx : (p.log s).getLast? = some x) :
    getLogTerm (w.raft s) ((w.raft s).logCount - 1) = x.term := by
  have hlen := (h.holds s).length
  have hle := (h.holds s).start_le
  have hne : 0 < (p.log s).length := List.length_pos_of_mem (List.mem_of_getLast? hx)
  rcases getLogTerm_cases (w.raft s) ((w.raft s).logCount - 1) with ⟨e, he, ht⟩ | ⟨hout, -⟩
  · have hlast := (h.holds s).entry _ e he
    rw [List.getLast?_eq_getElem?,
      show (p.log s).length - 1 = ((w.raft s).logCount - 1).toNat by omega, hlast,
      Option.some.injEq] at hx
    rw [ht, ← hx]
    rfl
  · omega

theorem SimInv.upToDate_log (h : SimInv config w p)
    (hknown : (w.raft s).startLogIndex < (w.raft s).logCount ∨ (w.raft s).startLogIndex = 0)
    {q : VoteRequest} (hup : upToDate (w.raft s) q) {L : List LogEntry}
    (hindex : q.lastLogIndex = (L.length : ℤ) - 1)
    (hlast : q.lastLogTerm = -1 ∨ ∃ e, L.getLast? = some e ∧ q.lastLogTerm = e.term) :
    UpToDate LogEntry.term L (p.log s) := by
  intro x hx
  have hpos := h.term_pos (List.mem_of_getLast? hx)
  have hterm := h.last_term hknown hx
  have hlen := (h.holds s).length
  unfold upToDate at hup
  rw [hterm] at hup
  rcases hlast with hnone | ⟨e, he, ht⟩
  · omega
  · refine ⟨e, he, ?_⟩
    omega

theorem SimInv.grant (h : SimInv config w p) {a b : List Datagram} {d : Datagram}
    (hnet : w.net = a ++ d :: b) {q : VoteRequest} (hp : d.packet = .vote q)
    (hterm : q.term = (w.raft d.dst).currentTerm) (hfree : (w.raft d.dst).votedFor = -1)
    (hup : upToDate (w.raft d.dst) q)
    (hknown : (w.raft d.dst).startLogIndex < (w.raft d.dst).logCount ∨
      (w.raft d.dst).startLogIndex = 0)
    {r' : RaftState} {es : List Effect}
    (hr' : r' = { w.raft d.dst with votedFor := q.candidateId })
    (hes : es = [.save r', reply (w.raft d.dst) d.src (-1) 1])
    (helect : ElectInv config ({ w with net := a ++ b }.settle d.dst r' es (some d.packet))
      (Votes.record p.voted (some (d.dst, (w.raft d.dst).currentTerm, d.src)))) :
    ∃ p', Proto.Steps LogEntry.term p p' ∧ p'.clevel = p.clevel ∧ SimInv config
      ({ w with net := a ++ b }.settle d.dst r' es (some d.packet)) p' := by
  have htruth := h.truthful d (by simp [hnet])
  simp only [Truthful, hp] at htruth
  obtain ⟨L, hL, hindex, hlast⟩ := htruth
  have hpt := h.term d.dst
  rw [hterm, ← hpt] at hL
  have hnone : p.voted d.dst (p.term d.dst) = none := by
    rw [hpt]
    exact h.elect.free d.dst hfree
  have hsteps : Proto.Steps LogEntry.term p (p.grant d.dst d.src) :=
    .single (.grant d.dst d.src L hnone hL (h.upToDate_log hknown hup hindex hlast))
  refine ⟨p.grant d.dst d.src, hsteps, rfl, h.assemble (s := d.dst) hsteps ?_
    (h.term_update rfl (fun _ _ => rfl) ?_)
    ⟨rfl, fun _ _ => rfl, fun u v hv => Or.inl hv, fun u v hv => Or.inl hv, ?_, ?_, ?_, ?_, ?_,
      ?_⟩⟩
  · simpa [Proto.grant, Votes.record, hpt] using helect
  · rw [hr']
    exact hpt
  · rw [hr']
    exact (h.holds d.dst).congr rfl rfl fun _ => rfl
  · rw [hr']
    exact Proto.Steps.committed h.inv hsteps (h.covered d.dst)
  · rw [hr']
    exact h.leader d.dst
  · rw [hr']
    exact h.candidate d.dst
  · intro x hx
    simp only [World.settle, List.mem_append] at hx
    rcases hx with (hx | hx) | hx
    · exact Or.inl (by simp [hnet, hx])
    · exact Or.inl (by simp [hnet, hx])
    · right
      rw [hes, hp] at hx
      simp only [reply, List.filterMap_cons, Cluster.sentBy, List.filterMap_nil,
        List.mem_singleton] at hx
      subst hx
      intro y hy
      exact absurd hy (by simp)
  · exact fun v t ht => (mem_settle_threads ht).imp id fun hidle q it hpc =>
      absurd hidle (by simp [hpc])

/-- A candidate that becomes the leader is the first one of its term. -/
theorem SimInv.won (h : SimInv config w p) (hstate : (w.raft s).state = .candidate)
    (helect : ElectInv config w' p.voted) (hl : (w'.raft s).state = .leader)
    (hterm : (w'.raft s).currentTerm = (w.raft s).currentTerm) :
    Majority (p.voters (w.raft s).currentTerm s) ∧ p.lead (w.raft s).currentTerm = none ∧
      p.cand (w.raft s).currentTerm s = some (p.log s) := by
  have hmaj : Majority (p.voters (w.raft s).currentTerm s) := by
    have := helect.leader s hl
    rwa [hterm] at this
  obtain ⟨hne, hcand⟩ := h.candidate s hstate
  have hnone := h.inv.lead_eq_none hmaj hne
  exact ⟨hmaj, hnone, hcand hnone⟩

theorem SimInv.elected (h : SimInv config w p) {a b : List Datagram} {d : Datagram}
    (hnet : w.net = a ++ d :: b) {q : Response} (hstate : (w.raft d.dst).state = .candidate)
    {r' : RaftState} {es : List Effect}
    (hr' : r' = elected { noted (w.raft d.dst) q with nvoted := (w.raft d.dst).nvoted + 1 })
    (hes : es.filterMap (Cluster.sentBy d.dst (some d.packet)) = [])
    (helect : ElectInv config ({ w with net := a ++ b }.settle d.dst r' es (some d.packet))
      p.voted) :
    ∃ p', Proto.Steps LogEntry.term p p' ∧ p'.clevel = p.clevel ∧ SimInv config
      ({ w with net := a ++ b }.settle d.dst r' es (some d.packet)) p' := by
  have hpt := h.term d.dst
  have hterm' : r'.currentTerm = (w.raft d.dst).currentTerm := by rw [hr']; rfl
  have hstate' : r'.state = .leader := by rw [hr']; rfl
  obtain ⟨hmaj, hnone, hcand⟩ := h.won hstate helect (by simp [World.settle, hstate'])
    (by simp [World.settle, hterm'])
  -- the entry the new leader appends
  obtain ⟨e, he⟩ : ∃ e : LogEntry, e = { (w.raft d.dst).log ((w.raft d.dst).logCount -
      (w.raft d.dst).startLogIndex).toNat with
    term := (w.raft d.dst).currentTerm, nServersReplicated := 1, type := .leaderLog } := ⟨_, rfl⟩
  have hsteps : Proto.Steps LogEntry.term p (p.elect d.dst e.core) := by
    refine .single (.elect d.dst e.core ?_ ?_ ?_ ?_)
    · rw [hpt]
      exact hcand
    · rwa [hpt]
    · rwa [hpt]
    · rw [hpt, LogEntry.core_term, he]
  have hlead : (p.elect d.dst e.core).lead (w.raft d.dst).currentTerm = some d.dst := by
    simp [Proto.elect, hpt]
  refine ⟨_, hsteps, rfl, h.assemble (s := d.dst) hsteps helect
    (h.term_update rfl (fun _ _ => rfl) ?_)
    ⟨rfl, fun v hv => by simp [Proto.elect, hv], ?_, fun t v hv => Or.inl hv, ?_, ?_, ?_, ?_, ?_,
      ?_⟩⟩
  · rw [hterm']
    exact hpt
  · intro t v hv
    by_cases ht : t = (w.raft d.dst).currentTerm
    · subst ht
      rw [hlead, Option.some.injEq] at hv
      exact Or.inr hv.symm
    · left
      simpa [Proto.elect, hpt, ht] using hv
  · have hlog : (p.elect d.dst e.core).log d.dst = p.log d.dst ++ [e.core] := by
      simp [Proto.elect]
    rw [hlog, hr']
    refine (h.holds d.dst).push rfl rfl ?_
    rw [he]
    rfl
  · have hstart : r'.startLogIndex = (w.raft d.dst).startLogIndex := by rw [hr']; rfl
    rw [hstart]
    exact Proto.Steps.committed h.inv hsteps (h.covered d.dst)
  · intro _
    rw [hterm']
    exact hlead
  · intro hc
    rw [hstate'] at hc
    exact absurd hc (by simp)
  · intro x hx
    simp only [World.settle, hes, List.append_nil, List.mem_append] at hx
    exact Or.inl (by rcases hx with hx | hx <;> simp [hnet, hx])
  · exact fun v t ht => (mem_settle_threads ht).imp id fun hidle q it hpc =>
      absurd hidle (by simp [hpc])

theorem SimInv.append (h : SimInv config w p) {r' : RaftState} {e : LogEntry}
    (hstate : (w.raft s).state = .leader)
    (hr' : r' = { w.raft s with
      logCount := (w.raft s).logCount + 1
      log := Function.update (w.raft s).log
        ((w.raft s).logCount - (w.raft s).startLogIndex).toNat e })
    (he : e.term = (w.raft s).currentTerm)
    (helect : ElectInv config (w.settle s r' [.save r'] none) p.voted) :
    ∃ p', Proto.Steps LogEntry.term p p' ∧ p'.clevel = p.clevel ∧
      SimInv config (w.settle s r' [.save r'] none) p' := by
  have hpt := h.term s
  have hlead := h.leader s hstate
  have hsteps : Proto.Steps LogEntry.term p (p.append s e.core) := by
    refine .single (.append s e.core ?_ ?_)
    · rwa [hpt]
    · rw [LogEntry.core_term, he, hpt]
  refine ⟨_, hsteps, rfl, h.assemble (s := s) hsteps helect
    (h.term_update rfl (fun _ _ => rfl) ?_)
    ⟨rfl, fun v hv => by simp [Proto.append, hv], fun t v hv => Or.inl hv,
      fun t v hv => Or.inl hv, ?_, ?_, ?_, ?_, ?_, ?_⟩⟩
  · rw [hr']
    exact hpt
  · have hlog : (p.append s e.core).log s = p.log s ++ [e.core] := by simp [Proto.append]
    rw [hlog, hr']
    exact (h.holds s).push rfl rfl rfl
  · rw [hr']
    exact Proto.Steps.committed h.inv hsteps (h.covered s)
  · rw [hr']
    exact fun _ => hlead
  · rw [hr']
    intro hc
    rw [show (w.raft s).state = .leader from hstate] at hc
    exact absurd hc (by simp)
  · intro x hx
    simp only [World.settle, List.filterMap_cons, Cluster.sentBy, List.filterMap_nil,
      List.append_nil] at hx
    exact Or.inl hx
  · exact fun v t ht => (mem_settle_threads ht).imp id fun hidle q it hpc =>
      absurd hidle (by simp [hpc])

/-! ### Append requests -/

/-- Two matched logs with entries of one term at one place agree up to it. -/
theorem matched_take_eq {X Y : List LogEntry} (hX : p.Matched LogEntry.term X)
    (hY : p.Matched LogEntry.term Y) {i : ℕ} {e e' : LogEntry} (he : X[i]? = some e)
    (he' : Y[i]? = some e') (hterm : e.term = e'.term) : X.take (i + 1) = Y.take (i + 1) := by
  have h1 := hX i e he
  have h2 := hY i e' he'
  have hlx : i < X.length := (List.getElem?_eq_some_iff.mp he).1
  have hly : i < Y.length := (List.getElem?_eq_some_iff.mp he').1
  rw [hterm] at h1
  exact (prefix_of_both h1 h2 (by simp only [List.length_take]; omega)).eq_of_length
    (by simp only [List.length_take]; omega)

/-- A server that finds a request consistent holds the leader's log as far as
the request goes back. -/
theorem SimInv.held_of_consistent (h : SimInv config w p) {v : Server} {q : AppendRequest}
    (hq : AppendOk p v q) (hc : consistent (w.raft s) q) :
    (p.llog q.term).take (q.prevLogIndex + 1).toNat <+: p.log s := by
  obtain ⟨-, hlt, hterm⟩ : ¬ (w.raft s).currentTerm > q.term ∧
      ¬ q.prevLogIndex ≥ (w.raft s).logCount ∧
      getLogTerm (w.raft s) q.prevLogIndex = q.prevLogTerm := by
    unfold consistent at hc
    push Not at hc
    exact ⟨by omega, by omega, hc.2.2⟩
  rcases hq.prev with ⟨h0, e, he, ht⟩ | ⟨ht, hcom⟩
  · -- the entries before the one sent have the same term, so the logs agree
    have hpos := h.term_pos_of_matched (h.inv.llog_matched q.term) (List.mem_of_getElem? he)
    rcases getLogTerm_cases (w.raft s) q.prevLogIndex with ⟨e', he', ht'⟩ | ⟨-, hnone⟩
    · have hlog := (h.holds s).entry _ _ he'
      have heq := matched_take_eq (h.inv.llog_matched q.term) (h.inv.log_matched s) he hlog
        (by rw [LogEntry.core_term]; omega)
      rw [show (q.prevLogIndex + 1).toNat = q.prevLogIndex.toNat + 1 by omega, heq]
      exact List.take_prefix _ _
    · omega
  · -- neither side knows the entry: both have it in a snapshot
    rcases getLogTerm_cases (w.raft s) q.prevLogIndex with ⟨e', he', ht'⟩ | ⟨hout, -⟩
    · have := h.term_pos (List.mem_of_getElem? ((h.holds s).entry _ _ he'))
      rw [LogEntry.core_term] at this
      omega
    · obtain ⟨u, -, hu, hpre⟩ := hcom
      obtain ⟨u', -, hu', hpre'⟩ := h.covered s
      have hlen := h.inv.clevel_le u
      have hcover := h.inv.clevel_comparable hu hu' (by omega)
      rw [take_prefix_of_isPrefix hpre (by simp only [List.length_take]; omega),
        List.take_take, Nat.min_self]
      exact hcover.trans hpre'

/-- Writing the entry of a request is a merge with the leader's log. -/
theorem SimInv.holds_stored (h : SimInv config w p) {v : Server} {q : AppendRequest}
    (hq : AppendOk p v q) (hc : consistent (w.raft s) q) (hn : q.entriesN ≠ 0)
    (hlo : (w.raft s).startLogIndex ≤ q.prevLogIndex + 1) :
    Holds (stored (w.raft s) q) (merge (p.log s) (p.llog q.term) (q.prevLogIndex + 2).toNat) := by
  have hheld := h.held_of_consistent hq hc
  have hholds := h.holds s
  have hentry := hq.entry hn
  have hge := hq.prev_ge
  have hlen := hholds.length
  have hlt : q.prevLogIndex < (w.raft s).logCount := by
    unfold consistent at hc
    push Not at hc
    exact hc.2.1
  have hleader : (q.prevLogIndex + 1).toNat < (p.llog q.term).length :=
    (List.getElem?_eq_some_iff.mp hentry).1
  have htwo : (q.prevLogIndex + 2).toNat = (q.prevLogIndex + 1).toNat + 1 := by omega
  -- the part the server keeps is the leader's
  have hkeep : (p.log s).take (q.prevLogIndex + 1).toNat =
      (p.llog q.term).take (q.prevLogIndex + 1).toNat := by
    have := take_prefix_of_isPrefix hheld (k := (q.prevLogIndex + 1).toNat)
      (by simp only [List.length_take]; omega)
    rwa [List.take_take, Nat.min_self] at this
  have hnew : (p.log s).take (q.prevLogIndex + 1).toNat ++ [q.entry.core] =
      (p.llog q.term).take (q.prevLogIndex + 2).toNat := by
    rw [hkeep, htwo, List.take_add_one, hentry, Option.toList_some]
  by_cases htrunc : q.prevLogIndex + 1 < (w.raft s).logCount ∧
      getLogTerm (w.raft s) (q.prevLogIndex + 1) ≠ q.entry.term
  · -- an entry of another term is there
    have hne : ¬ (p.llog q.term).take (q.prevLogIndex + 2).toNat <+: p.log s := by
      intro hpre
      have hmine := hholds.entry _ _ (getLog_of_mem hlo htrunc.1)
      have hsame := prefix_getElem? hpre (i := (q.prevLogIndex + 1).toNat) (e := q.entry.core)
        (by rw [List.getElem?_take_of_lt (by omega), hentry])
      rw [hmine, Option.some.injEq] at hsame
      apply htrunc.2
      unfold getLogTerm
      rw [if_neg (by omega), ← LogEntry.core_term, hsame, LogEntry.core_term]
    rw [merge, if_neg hne, ← hnew]
    refine hholds.put hlo htrunc.1.le rfl ?_ rfl
    simp only [stored, storedCount, if_pos htrunc]
    omega
  · by_cases hend : (w.raft s).logCount = q.prevLogIndex + 1
    · -- the entry goes at the end
      have hne : ¬ (p.llog q.term).take (q.prevLogIndex + 2).toNat <+: p.log s := by
        intro hpre
        have := hpre.length_le
        simp only [List.length_take] at this
        omega
      rw [merge, if_neg hne, ← hnew]
      refine hholds.put hlo hend.ge rfl ?_ rfl
      simp only [stored, storedCount, if_neg htrunc, if_pos hend]
      omega
    · -- the entry is there already
      have hmem : q.prevLogIndex + 1 < (w.raft s).logCount := by omega
      have hmine := hholds.entry _ _ (getLog_of_mem hlo hmem)
      have hterm : ((w.raft s).log (q.prevLogIndex + 1 - (w.raft s).startLogIndex).toNat).term =
          q.entry.term := by
        by_contra hne
        refine htrunc ⟨hmem, ?_⟩
        unfold getLogTerm
        rwa [if_neg (by omega)]
      have heq := matched_take_eq (h.inv.log_matched s) (h.inv.llog_matched q.term) hmine hentry
        (by simpa using hterm)
      have hcore : ((w.raft s).log
          (q.prevLogIndex + 1 - (w.raft s).startLogIndex).toNat).core = q.entry.core := by
        have := congrArg (·[(q.prevLogIndex + 1).toNat]?) heq
        simp only [List.getElem?_take_of_lt (Nat.lt_succ_self _), hmine, hentry,
          Option.some.injEq] at this
        exact this
      have hpre : (p.llog q.term).take (q.prevLogIndex + 2).toNat <+: p.log s := by
        rw [htwo, ← heq]
        exact List.take_prefix _ _
      rw [merge, if_pos hpre]
      refine hholds.congr rfl ?_ fun k => ?_
      · simp only [stored, storedCount, if_neg htrunc, if_neg hend]
      · by_cases hk : k = (q.prevLogIndex + 1 - (w.raft s).startLogIndex).toNat
        · subst hk
          simp [stored, hcore]
        · simp [stored, hk]

theorem prefix_merge (X L : List LogEntry) (n : ℕ) : L.take n <+: merge X L n := by
  unfold merge
  split_ifs with hpre
  · exact hpre
  · exact List.prefix_rfl

theorem SimInv.store (h : SimInv config w p) {a b : List Datagram} {d : Datagram}
    (hnet : w.net = a ++ d :: b) {q : AppendRequest} (hp : d.packet = .append q)
    (hterm : q.term = (w.raft d.dst).currentTerm) (hc : consistent (w.raft d.dst) q)
    (hn : q.entriesN ≠ 0) (hlo : (w.raft d.dst).startLogIndex ≤ q.prevLogIndex + 1)
    {r' : RaftState} {es : List Effect}
    (hr' : r' = { stored (w.raft d.dst) q with commitIndex := commitTarget (w.raft d.dst) q })
    (hes : ∃ x, es.filterMap (Cluster.sentBy d.dst (some d.packet)) =
      [⟨d.dst, d.src, .response x, some d.packet⟩] ∧ x.term = (w.raft d.dst).currentTerm)
    (helect : ElectInv config ({ w with net := a ++ b }.settle d.dst r' es (some d.packet))
      p.voted) :
    ∃ p', Proto.Steps LogEntry.term p p' ∧ p'.clevel = p.clevel ∧ SimInv config
      ({ w with net := a ++ b }.settle d.dst r' es (some d.packet)) p' := by
  have hq := h.truthful d (by simp [hnet])
  simp only [Truthful, hp] at hq
  have hpt := h.term d.dst
  obtain ⟨n, hn'⟩ : ∃ n, n = (q.prevLogIndex + 2).toNat := ⟨_, rfl⟩
  have hleader : (q.prevLogIndex + 1).toNat < (p.llog q.term).length :=
    (List.getElem?_eq_some_iff.mp (hq.entry hn)).1
  have hlen : n ≤ (p.llog (p.term d.dst)).length := by
    have := hq.prev_ge
    rw [hpt, ← hterm]
    omega
  have hlog : (p.accept d.dst n).log d.dst = merge (p.log d.dst) (p.llog q.term) n := by
    simp [Proto.accept, hpt, hterm]
  have hsteps : Proto.Steps LogEntry.term p ((p.accept d.dst n).ack d.dst n) := by
    refine .tail (.single (.accept d.dst n ?_)) (.ack d.dst n hlen ?_)
    · rw [hpt, ← hterm, hq.lead]
      simp
    · rw [hlog, hterm, ← hpt]
      exact prefix_merge _ _ _
  have hacks : n ≤ ((p.accept d.dst n).ack d.dst n).acks d.dst q.term := by
    rw [hterm, ← hpt]
    simp [Proto.ack, Proto.accept]
  refine ⟨_, hsteps, rfl, h.assemble (s := d.dst) hsteps helect
    (h.term_update rfl (fun _ _ => rfl) ?_)
    ⟨rfl, fun v hv => by simp [Proto.accept, Proto.ack, hv], fun t v hv => Or.inl hv,
      fun t v hv => Or.inl hv, ?_, ?_, ?_, ?_, ?_, ?_⟩⟩
  · rw [hr']
    exact hpt
  · have hstored := h.holds_stored hq hc hn hlo
    rw [← hn', ← hlog] at hstored
    rw [hr']
    exact hstored.congr rfl rfl fun _ => rfl
  · rw [hr']
    exact Proto.Steps.committed h.inv hsteps (h.covered d.dst)
  · rw [hr']
    exact fun hl => absurd hl (by simp [stored])
  · rw [hr']
    exact fun hl => absurd hl (by simp [stored])
  · intro x hx
    obtain ⟨y, hy, hyt⟩ := hes
    simp only [World.settle, hy, List.mem_append, List.mem_singleton] at hx
    rcases hx with (hx | hx) | rfl
    · exact Or.inl (by simp [hnet, hx])
    · exact Or.inl (by simp [hnet, hx])
    · right
      intro z hz
      simp only [hp, Option.some.injEq, Packet.append.injEq] at hz
      subst hz
      refine ⟨hsteps.lead_eq hq.lead, fun _ _ => ?_⟩
      rw [← hn', hyt, ← hterm]
      exact hacks
  · exact fun v t ht => (mem_settle_threads ht).imp id fun hidle q it hpc =>
      absurd hidle (by simp [hpc])

/-! ### Snapshots -/

theorem SimInv.install (h : SimInv config w p) {a b : List Datagram} {d : Datagram}
    (hnet : w.net = a ++ d :: b) {q : InstallRequest} (hp : d.packet = .installSnapshot q)
    (hterm : q.term = (w.raft d.dst).currentTerm)
    (hkeep : (p.log d.dst).length ≤ q.snapshotId.toNat ∨
      ¬ (p.llog q.term).take q.snapshotId.toNat <+: p.log d.dst)
    {r' : RaftState} {es : List Effect} (hr' : r' = installDone (w.raft d.dst) q.snapshotId)
    (hes : ∃ x, es.filterMap (Cluster.sentBy d.dst (some d.packet)) =
      [⟨d.dst, d.src, .response x, some d.packet⟩])
    (helect : ElectInv config ({ w with net := a ++ b }.settle d.dst r' es (some d.packet))
      p.voted) :
    ∃ p', Proto.Steps LogEntry.term p p' ∧ p'.clevel = p.clevel ∧ SimInv config
      ({ w with net := a ++ b }.settle d.dst r' es (some d.packet)) p' := by
  have hq := h.truthful d (by simp [hnet])
  simp only [Truthful, hp] at hq
  obtain ⟨hlead, h0, u, hu, hn, hpre⟩ := hq
  have hpt := h.term d.dst
  have hlen := h.inv.clevel_le u
  have htake : (p.llog q.term).take q.snapshotId.toNat = (p.llog u).take q.snapshotId.toNat := by
    rw [take_prefix_of_isPrefix hpre (by simp only [List.length_take]; omega), List.take_take,
      Nat.min_self]
  rw [htake] at hkeep
  have hsteps : Proto.Steps LogEntry.term p
      (p.adopt d.dst ((p.llog u).take q.snapshotId.toNat)) :=
    .single (.adopt d.dst u q.snapshotId.toNat (by omega) hn hkeep)
  have hlog : (p.adopt d.dst ((p.llog u).take q.snapshotId.toNat)).log d.dst =
      (p.llog u).take q.snapshotId.toNat := by simp [Proto.adopt]
  refine ⟨_, hsteps, rfl, h.assemble (s := d.dst) hsteps helect
    (h.term_update rfl (fun _ _ => rfl) ?_)
    ⟨rfl, fun v hv => by simp [Proto.adopt, hv], fun t v hv => Or.inl hv,
      fun t v hv => Or.inl hv, ?_, ?_, ?_, ?_, ?_, ?_⟩⟩
  · rw [hr']
    exact hpt
  · rw [hlog, hr']
    refine ⟨h0, le_rfl, ?_, fun i e he => ?_⟩
    · simp only [List.length_take, installDone]
      omega
    · obtain ⟨hlo, hhi, -⟩ := getLog_some he
      exact absurd hhi (not_lt.mpr hlo)
  · rw [hr']
    refine ⟨u, ?_, hn, ?_⟩
    · have : (p.adopt d.dst ((p.llog u).take q.snapshotId.toNat)).term d.dst = p.term d.dst := rfl
      omega
    · rw [hlog]
      exact List.prefix_rfl
  · rw [hr']
    exact h.leader d.dst
  · rw [hr']
    intro hc
    refine ⟨(h.candidate d.dst hc).1, fun hnone => ?_⟩
    have hnone' : p.lead (w.raft d.dst).currentTerm = none := hnone
    rw [← hterm, hlead] at hnone'
    exact absurd hnone' (by simp)
  · intro x hx
    obtain ⟨y, hy⟩ := hes
    simp only [World.settle, hy, List.mem_append, List.mem_singleton] at hx
    rcases hx with (hx | hx) | rfl
    · exact Or.inl (by simp [hnet, hx])
    · exact Or.inl (by simp [hnet, hx])
    · right
      intro z hz
      exact absurd hz (by simp [hp])
  · exact fun v t ht => (mem_settle_threads ht).imp id fun hidle q it hpc =>
      absurd hidle (by simp [hpc])

theorem SimInv.shift (h : SimInv config w p) {n : ℤ}
    (hn : n < (w.raft s).logCount → (w.raft s).startLogIndex ≤ n) (h0 : 0 ≤ n)
    (hcom : p.Committed s n.toNat) {r' : RaftState}
    (hr' : r' = { w.raft s with
      snapshotInProgress := false
      log := copyDown (w.raft s).log (n - (w.raft s).startLogIndex).toNat
        ((w.raft s).logCount - n).toNat
      startLogIndex := n })
    (helect : ElectInv config (w.settle s r' [.save r'] none) p.voted) :
    SimInv config (w.settle s r' [.save r'] none) p := by
  have hholds := h.holds s
  have hlen := hholds.length
  have hle := hholds.start_le
  have hcount := hcom.le_length h.inv
  refine h.idle (s := s) helect rfl (by rw [hr']) (Or.inr (by rw [hr'])) ?_
    (by rw [hr']; exact hcom) ?_ ?_
  · rw [hr']
    refine ⟨h0, by simp only; omega, hlen, fun i e he => ?_⟩
    obtain ⟨hlo, hhi, rfl⟩ := getLog_some he
    simp only at hlo hhi ⊢
    rw [copyDown_apply, if_pos (by omega)]
    have hold := hholds.entry i _ (getLog_of_mem (by omega) hhi)
    rwa [show (i - n).toNat + (n - (w.raft s).startLogIndex).toNat =
      (i - (w.raft s).startLogIndex).toNat by omega]
  · intro x hx
    simp only [World.settle, List.filterMap_cons, Cluster.sentBy, List.filterMap_nil,
      List.append_nil] at hx
    exact Or.inl hx
  · exact fun v t ht => (mem_settle_threads ht).imp id fun hidle q it hpc =>
      absurd hidle (by simp [hpc])

/-! ### Leaders -/

theorem SimInv.leader_log (h : SimInv config w p) (hstate : (w.raft s).state = .leader) :
    p.log s = p.llog (w.raft s).currentTerm :=
  h.inv.leader_log _ s (h.leader s hstate) (h.term s)

/-- What is committed at a leader is committed in its term. -/
theorem SimInv.leader_committed (h : SimInv config w p) (hstate : (w.raft s).state = .leader)
    {k : ℕ} (hk : p.Committed s k) : p.CommittedAt (w.raft s).currentTerm k := by
  have hlog := h.leader_log hstate
  rw [← h.term s] at hlog ⊢
  exact hk.committedAt hlog

theorem SimInv.appendRequest_ok (h : SimInv config w p) (hstate : (w.raft s).state = .leader)
    {f : Server} (hlo : (w.raft s).startLogIndex ≤ (w.raft s).nextIndex ((w.raft s).config f))
    (hhi : (w.raft s).nextIndex ((w.raft s).config f) ≤ (w.raft s).logCount) {n : ℤ}
    {e : LogEntry} (he : n ≠ 0 → getLog (w.raft s)
      ((w.raft s).nextIndex ((w.raft s).config f)) = some e) :
    AppendOk p s (appendRequest (w.raft s) f n e) := by
  have hlog := h.leader_log hstate
  have hholds := h.holds s
  have hlen := hholds.length
  have h0 := hholds.start_nonneg
  rw [hlog] at hlen
  refine ⟨h.leader s hstate, ?_, ?_, ?_, fun hn => ?_⟩
  · simp only [appendRequest]
    omega
  · simp only [appendRequest]
    omega
  · simp only [appendRequest, sub_add_cancel]
    rcases getLogTerm_cases (w.raft s) ((w.raft s).nextIndex ((w.raft s).config f) - 1) with
      ⟨x, hx, ht⟩ | ⟨hout, ht⟩
    · left
      have hget := hholds.entry _ _ hx
      rw [hlog] at hget
      have hmem := getLog_some hx
      exact ⟨by omega, x.core, hget, ht⟩
    · right
      refine ⟨ht, ?_⟩
      rw [show (w.raft s).nextIndex ((w.raft s).config f) = (w.raft s).startLogIndex by omega]
      exact h.leader_committed hstate (h.covered s)
  · simp only [appendRequest, sub_add_cancel]
    have hget := hholds.entry _ _ (he hn)
    rwa [hlog] at hget

/-- What a leader thread sends and keeps to send again. -/
theorem SimInv.sends_truthful (h : SimInv config w p) {t : LeaderThread}
    (hs : Sends (w.raft s) t r' es pc)
    (hrole : t.pc = .waiting → (w.raft s).snapshotInProgress = false →
      (w.raft s).state = .leader)
    (hold : ∀ q it, t.pc = .sending q it → InstallOk p s q) :
    (∀ x ∈ es.filterMap (Cluster.sentBy s none), Truthful p x) ∧
    ∀ q it, pc = some (.sending q it) → InstallOk p s q := by
  cases hs with
  | stop hpc hstate => exact ⟨by simp, by simp⟩
  | heartbeat hpc hstate hnext heq =>
      refine ⟨?_, by simp⟩
      simp only [List.filterMap_cons, Cluster.sentBy, List.filterMap_nil, List.mem_singleton,
        forall_eq]
      exact h.appendRequest_ok hstate hnext heq.le fun hn => absurd rfl hn
  | entry hpc hstate hnext e he =>
      refine ⟨?_, by simp⟩
      simp only [List.filterMap_cons, Cluster.sentBy, List.filterMap_nil, List.mem_singleton,
        forall_eq]
      exact h.appendRequest_ok hstate hnext (getLog_some he).2.1.le fun _ => he
  | wait hpc hbusy => exact ⟨by simp, by simp⟩
  | first hpc hfree q it hterm hid =>
      have hstate : (w.raft s).state = .leader := by
        rcases hpc with hpc | ⟨-, hstate, -⟩
        · exact hrole hpc hfree
        · exact hstate
      have hok : InstallOk p s q := by
        refine ⟨?_, ?_, ?_⟩
        · rw [hterm]
          exact h.leader s hstate
        · rw [hid]
          exact (h.holds s).start_nonneg
        · rw [hterm, hid]
          exact h.leader_committed hstate (h.covered s)
      refine ⟨?_, ?_⟩
      · simp only [List.filterMap_cons, Cluster.sentBy, List.filterMap_nil, List.mem_singleton,
          forall_eq]
        exact hok
      · intro q' it' hpc'
        simp only [Option.some.injEq, LeaderPc.sending.injEq] at hpc'
        rwa [← hpc'.1]
  | next q q' it it' hpc hterm hid =>
      have hok : InstallOk p s q' := by
        have := hold q it hpc
        unfold InstallOk at this ⊢
        rwa [hterm, hid]
      refine ⟨?_, ?_⟩
      · simp only [List.filterMap_cons, Cluster.sentBy, List.filterMap_nil, List.mem_singleton,
          forall_eq]
        exact hok
      · intro q'' it'' hpc'
        simp only [Option.some.injEq, LeaderPc.sending.injEq] at hpc'
        rwa [← hpc'.1]
  | giveUp q it hpc => exact ⟨by simp, by simp⟩
  | finish q it hpc hid hres hdone => exact ⟨by simp, by simp⟩

theorem Sends.keeps_log {r : RaftState} {t : LeaderThread} (h : Sends r t r' es pc) :
    r'.startLogIndex = r.startLogIndex ∧ r'.logCount = r.logCount ∧ r'.log = r.log ∧
      r'.commitIndex = r.commitIndex := by
  cases h <;> exact ⟨rfl, rfl, rfl, rfl⟩

theorem SimInv.sender (h : SimInv config w p) {a b : List LeaderThread} {t : LeaderThread}
    (ht : w.threads s = a ++ t :: b) (hs : Sends (w.raft s) t r' es pc)
    (hrole : t.pc = .waiting → (w.raft s).snapshotInProgress = false →
      (w.raft s).state = .leader)
    (helect : ElectInv config
      ({ w with
          threads := Function.update w.threads s
            (a ++ (pc.map fun pc => { t with pc }).toList ++ b) }.settle s r' es none) p.voted) :
    SimInv config
      ({ w with
          threads := Function.update w.threads s
            (a ++ (pc.map fun pc => { t with pc }).toList ++ b) }.settle s r' es none) p := by
  obtain ⟨hterm, -, hstate, -⟩ := hs.same
  obtain ⟨hstart, hcount, hlog, -⟩ := hs.keeps_log
  obtain ⟨hsent, hpc⟩ := h.sends_truthful hs hrole (h.sending s t (by simp [ht]))
  refine h.idle (s := s) helect rfl hterm (Or.inr hstate)
    ((h.holds s).congr hstart hcount fun k => by rw [hlog]) (by rw [hstart]; exact h.covered s)
    ?_ ?_
  · intro x hx
    simp only [World.settle, List.mem_append] at hx
    exact hx.imp id (hsent x)
  · intro v y hy
    rcases mem_settle_sender ht hy with hy | hidle | ⟨rfl, z, hz, rfl⟩
    · exact Or.inl hy
    · exact Or.inr fun q it hq => absurd hidle (by simp [hq])
    · right
      rintro q it rfl
      exact hpc q it hz

/-! ### Any step -/

theorem SimInv.handle_idle (h : SimInv config w p) {a b : List Datagram} {d : Datagram}
    (hnet : w.net = a ++ d :: b) (hh : Handled (w.raft d.dst) d.src d.packet r' es)
    (hterm : r'.currentTerm = (w.raft d.dst).currentTerm)
    (hrole : r'.state = .follower ∨ r'.state = (w.raft d.dst).state)
    (hstart : r'.startLogIndex = (w.raft d.dst).startLogIndex)
    (hcount : r'.logCount = (w.raft d.dst).logCount)
    (hlog : ∀ k, (r'.log k).core = ((w.raft d.dst).log k).core)
    (hquiet : ∀ q, d.packet = .append q → q.entriesN ≠ 0 → ∀ dst y,
      Effect.send dst (.response y) ∈ es → y.success ≤ 0)
    (helect : ElectInv config ({ w with net := a ++ b }.settle d.dst r' es (some d.packet))
      p.voted) :
    SimInv config ({ w with net := a ++ b }.settle d.dst r' es (some d.packet)) p := by
  refine h.idle (s := d.dst) helect rfl hterm hrole
    ((h.holds d.dst).congr hstart hcount hlog) (by rw [hstart]; exact h.covered d.dst) ?_
    fun v t ht => (mem_settle_threads ht).imp id fun hidle q it hpc => absurd hidle (by simp [hpc])
  intro x hx
  simp only [World.settle, List.mem_append] at hx
  rcases hx with (hx | hx) | hx
  · exact Or.inl (by simp [hnet, hx])
  · exact Or.inl (by simp [hnet, hx])
  · right
    obtain ⟨y, hy, hyx⟩ := List.mem_filterMap.mp hx
    rcases hh.sent d.dst (some d.packet) with hnil | ⟨q, hone, -⟩
    · rw [hnil] at hx
      exact absurd hx (by simp)
    · rw [hone, List.mem_singleton] at hx
      subst hx
      intro z hz
      cases y with
      | send dst packet =>
          simp only [Cluster.sentBy, Option.some.injEq, Datagram.mk.injEq] at hyx
          obtain ⟨-, -, rfl, -⟩ := hyx
          simp only [Option.some.injEq] at hz
          have htruth := h.truthful d (by simp [hnet])
          simp only [Truthful, hz] at htruth
          exact ⟨htruth.lead, fun hpos hn =>
            absurd (hquiet z hz hn dst q hy) (not_le.mpr hpos)⟩
      | _ => exact absurd hyx (by simp [Cluster.sentBy])

theorem ballot_none {d : Datagram} {r : RaftState} (h : r'.votedFor = r.votedFor) (V : Votes) :
    V.record (World.ballot d r r') = V := by
  unfold World.ballot
  rw [if_pos h]
  rfl

theorem ElectInv.handle_silent {V : Votes} (h : ElectInv config w V)
    (hvalid : ∀ v, config v ≠ -1) {a b : List Datagram} {d : Datagram}
    (hnet : w.net = a ++ d :: b) (hh : Handled (w.raft d.dst) d.src d.packet r' es)
    (hv : r'.votedFor = (w.raft d.dst).votedFor) :
    ElectInv config ({ w with net := a ++ b }.settle d.dst r' es (some d.packet)) V := by
  have := h.handle hvalid hnet hh
  rwa [ballot_none hv] at this

/-- The conditions under which the protocol is followed, for the steps that
`g` lets pass. -/
structure Guarded (g : Guard) (w : World) (p : Protocol) : Prop where
  vote : ∀ d ∈ w.net, ∀ q, d.packet = .vote q → q.term = (w.raft d.dst).currentTerm →
    (w.raft d.dst).votedFor = -1 → upToDate (w.raft d.dst) q →
    g.packet w.commits (w.raft d.dst) d →
    (w.raft d.dst).startLogIndex < (w.raft d.dst).logCount ∨ (w.raft d.dst).startLogIndex = 0
  done : ∀ d ∈ w.net, ∀ q, d.packet = .installSnapshot q →
    q.term = (w.raft d.dst).currentTerm → installable (w.raft d.dst) q → q.done = true →
    g.packet w.commits (w.raft d.dst) d →
    (p.log d.dst).length ≤ q.snapshotId.toNat ∨
      ¬ (p.llog q.term).take q.snapshotId.toNat <+: p.log d.dst
  shift : ∀ s, ∀ n ∈ w.opened s, g.shift (w.raft s) n → 0 ≤ n ∧ p.Committed s n.toNat
  sender : ∀ s, ∀ t ∈ w.threads s, g.sender (w.raft s) t → t.pc = .waiting →
    (w.raft s).snapshotInProgress = false → (w.raft s).state = .leader

theorem SimInv.handle {g : Guard} (h : SimInv config w p) (hg : Guarded g w p)
    (hvalid : ∀ v, config v ≠ -1) {a b : List Datagram} {d : Datagram}
    (hnet : w.net = a ++ d :: b) (hpass : g.packet w.commits (w.raft d.dst) d)
    (hh : Handled (w.raft d.dst) d.src d.packet r' es) :
    ∃ p', Proto.Steps LogEntry.term p p' ∧ p'.clevel = p.clevel ∧ SimInv config
      ({ w with net := a ++ b }.settle d.dst r' es (some d.packet)) p' := by
  have helect := h.elect.handle hvalid hnet hh
  have hsilent := h.elect.handle_silent hvalid hnet hh
  have hmem : d ∈ w.net := by simp [hnet]
  obtain ⟨pk, hp⟩ : ∃ pk, d.packet = pk := ⟨_, rfl⟩
  have hcases := hh
  rw [hp] at hcases
  cases hcases with
  | voteRefused q success es hs hes =>
      refine ⟨p, .refl, rfl,
        h.handle_idle hnet hh rfl (Or.inr rfl) rfl rfl (fun _ => rfl) ?_ (hsilent rfl)⟩
      simp [hp]
  | voteGranted q hterm hfree hup =>
      have hid : q.candidateId ≠ (w.raft d.dst).votedFor := by
        have := h.elect.sane d hmem
        simp only [Sane, hp] at this
        rw [this.1, hfree]
        exact hvalid _
      unfold World.ballot at helect
      rw [if_neg hid] at helect
      exact h.grant hnet hp hterm hfree hup (hg.vote d hmem q hp hterm hfree hup hpass) rfl rfl
        helect
  | appendRefused q hc =>
      refine ⟨p, .refl, rfl,
        h.handle_idle hnet hh rfl (Or.inr rfl) rfl rfl (fun _ => rfl) ?_ (hsilent rfl)⟩
      intro x _ _ dst y hy
      simp only [reply, List.mem_cons, reduceCtorEq, Effect.send.injEq, Packet.response.injEq,
        List.not_mem_nil, or_false, false_or] at hy
      rw [hy.2]
  | heartbeat q hterm hc hn hcommit =>
      refine ⟨p, .refl, rfl,
        h.handle_idle hnet hh rfl (Or.inl rfl) rfl rfl (fun _ => rfl) ?_ (hsilent rfl)⟩
      intro x hx hxn
      rw [hp, Packet.append.injEq] at hx
      subst hx
      exact absurd hn hxn
  | entryStored q hterm hc hn hlo hhi hroom hcommit =>
      refine h.store hnet hp hterm hc hn hlo rfl ?_ (hsilent rfl)
      rcases hh.sent d.dst (some d.packet) with hnil | ⟨x, hone, -, hx, -⟩
      · simp [reply, List.filterMap_append, Cluster.sentBy] at hnil
      · exact ⟨x, hone, hx⟩
  | installRefused q hi =>
      refine ⟨p, .refl, rfl,
        h.handle_idle hnet hh rfl (Or.inr rfl) rfl rfl (fun _ => rfl) ?_ (hsilent rfl)⟩
      simp [hp]
  | installChunk q hterm hi hd r' hr' =>
      subst hr'
      refine ⟨p, .refl, rfl,
        h.handle_idle hnet hh rfl (Or.inr rfl) rfl rfl (fun _ => rfl) ?_ (hsilent rfl)⟩
      simp [hp]
  | installDone q hterm hi hd es hes =>
      refine h.install hnet hp hterm (hg.done d hmem q hp hterm hi hd hpass) rfl ?_ (hsilent rfl)
      rcases hh.sent d.dst (some d.packet) with hnil | ⟨x, hone, -⟩
      · simp [reply, Cluster.sentBy] at hnil
      · exact ⟨x, hone⟩
  | voteDecided q hterm hstate hs hmany hlo hroom r' hr' =>
      exact h.elected hnet hstate hr' (by simp [Cluster.sentBy]) (hsilent (by rw [hr']; rfl))
  | entryCounted q hterm hstate hid hnext hlt hs hnew hown hroom n hn hcommit r' hr' =>
      subst hr'
      refine ⟨p, .refl, rfl,
        h.handle_idle hnet hh rfl (Or.inr rfl) rfl rfl (fun k => ?_) ?_ (hsilent rfl)⟩
      · simp only [matched, counted, noted]
        by_cases hk : k = ((w.raft d.dst).nextIndex q.id - (w.raft d.dst).startLogIndex).toNat
        · subst hk
          simp [LogEntry.core]
        · simp [hk]
      · simp [hp]
  | responseOld q hterm =>
      refine ⟨p, .refl, rfl,
        h.handle_idle hnet hh rfl (Or.inr rfl) rfl rfl (fun _ => rfl) ?_ (hsilent rfl)⟩
      simp [hp]
  | responseUnused q hterm hstate =>
      refine ⟨p, .refl, rfl,
        h.handle_idle hnet hh rfl (Or.inr rfl) rfl rfl (fun _ => rfl) ?_ (hsilent rfl)⟩
      simp [hp]
  | voteBlocked q hterm hstate hs =>
      refine ⟨p, .refl, rfl,
        h.handle_idle hnet hh rfl (Or.inr rfl) rfl rfl (fun _ => rfl) ?_ (hsilent rfl)⟩
      simp [hp]
  | voteCounted q hterm hstate hs hfew =>
      refine ⟨p, .refl, rfl,
        h.handle_idle hnet hh rfl (Or.inr rfl) rfl rfl (fun _ => rfl) ?_ (hsilent rfl)⟩
      simp [hp]
  | installAnswered q hterm hstate hid hnext r' hr' =>
      subst hr'
      refine ⟨p, .refl, rfl,
        h.handle_idle hnet hh rfl (Or.inr rfl) rfl rfl (fun _ => rfl) ?_ (hsilent rfl)⟩
      simp [hp]
  | appendAnswered q hterm hstate hid hnext next hans r' hr' =>
      subst hr'
      refine ⟨p, .refl, rfl,
        h.handle_idle hnet hh rfl (Or.inr rfl) rfl rfl (fun _ => rfl) ?_ (hsilent rfl)⟩
      simp [hp]
  | entryAnswered q hterm hstate hid hnext hlt hs hskip r' hr' =>
      subst hr'
      refine ⟨p, .refl, rfl,
        h.handle_idle hnet hh rfl (Or.inr rfl) rfl rfl (fun _ => rfl) ?_ (hsilent rfl)⟩
      simp [hp]

theorem SimInv.restarted (h : SimInv config w p) {st : RaftState} (hst : Agrees st (w.raft s))
    (hraft : w'.raft = Function.update w.raft s (forget st))
    (hthreads : w'.threads = Function.update w.threads s []) (hnet : w'.net = w.net)
    (helect : ElectInv config w' p.voted) : SimInv config w' p := by
  refine h.idle (s := s) helect hraft hst.currentTerm (Or.inl rfl)
    ((h.holds s).congr hst.startLogIndex hst.logCount fun k => ?_) ?_
    (fun d hd => Or.inl (hnet ▸ hd)) fun v t ht => ?_
  · simp only [forget, hst.log]
  · simp only [forget, hst.startLogIndex]
    exact h.covered s
  · rw [hthreads] at ht
    by_cases hv : v = s
    · subst hv
      exact absurd ht (by simp)
    · exact Or.inl (by simpa [hv] using ht)

/-- A step of the world is matched by steps of the protocol. -/
theorem SimInv.step {g : Guard} (hvalid : ∀ v, config v ≠ -1) (h : SimInv config w p)
    (hg : Guarded g w p) {v : Option (Server × ℤ × Server)} (hstep : World.Step g w v w') :
    ∃ p', Proto.Steps LogEntry.term p p' ∧ p'.clevel = p.clevel ∧ SimInv config w' p' := by
  have helect := h.elect.step (g := g) (fun s t ht hpass hpc hfree => by
    rw [hg.sender s t ht hpass hpc hfree]
    simp) hvalid hstep
  -- a step that does not touch what the invariant is about
  have hsame : ∀ commits net, net ⊆ w.net →
      ElectInv config { w with commits, net } p.voted →
      SimInv config { w with commits, net } p := fun commits net hsub he =>
    ⟨he, h.inv, h.term, h.nonneg, h.cand_pos, h.holds, h.covered, h.leader, h.candidate,
      fun d hd => h.truthful d (hsub hd), h.sending⟩
  cases hstep with
  | stepDown s t ht => exact h.step_down ht helect
  | campaign s => exact h.campaign helect
  | handle a b d r' es hnet hle hpass hh => exact h.handle hg hvalid hnet hpass hh
  | turns d l hd hpass hl =>
      exact ⟨p, .refl, rfl, h.restarted (Agrees.refl _) rfl rfl rfl helect⟩
  | lose net hsub => exact ⟨p, .refl, rfl, hsame _ _ hsub.subset helect⟩
  | append s e hf =>
      rcases appendEntry_ok hf with heq | ⟨r', heq, hstate, -, -, hr'⟩
      · rw [heq] at helect ⊢
        refine ⟨p, .refl, rfl, h.idle (s := s) helect rfl rfl (Or.inr rfl) (h.holds s)
          (h.covered s) (fun d hd => ?_) fun v t ht => ?_⟩
        · exact Or.inl (by simpa [World.settle, ret] using hd)
        · exact (mem_settle_threads ht).imp id fun hidle q it hpc => absurd hidle (by simp [hpc])
      · rw [heq] at helect ⊢
        exact h.append hstate hr' rfl helect
  | sender s a b t r' es pc ht hpass hs =>
      exact ⟨p, .refl, rfl, h.sender ht hs (hg.sender s t (by simp [ht]) hpass) helect⟩
  | enter s n r' he =>
      obtain ⟨-, rfl⟩ := createSnapshotEnter_some he
      exact ⟨p, .refl, rfl, h.idle (s := s) helect rfl rfl (Or.inr rfl)
        ((h.holds s).congr rfl rfl fun _ => rfl) (h.covered s) (fun d hd => Or.inl hd)
        fun v t ht => Or.inl ht⟩
  | shift s n hn hpass hf =>
      obtain ⟨hroom, heq⟩ := createSnapshotShift_ok hf
      rw [heq] at helect ⊢
      obtain ⟨h0, hcom⟩ := hg.shift s n hn hpass
      exact ⟨p, .refl, rfl, h.shift (fun hlt => (hroom hlt).1) h0 hcom rfl helect⟩
  | crash s st hst => exact ⟨p, .refl, rfl, h.restarted hst rfl rfl rfl helect⟩
  | replay s l hl => exact ⟨p, .refl, rfl, hsame _ _ (List.Subset.refl _) helect⟩

theorem simInv_init (config : Config) : SimInv config (World.init config) Proto.init where
  elect := electInv_init config
  inv := Proto.inv_init
  term _ := rfl
  nonneg _ := le_rfl
  cand_pos t v h := absurd rfl h
  holds s :=
    { start_nonneg := le_rfl
      start_le := le_rfl
      length := rfl
      entry := fun i e he => by
        obtain ⟨hlo, hhi, -⟩ := getLog_some he
        exact absurd hhi (not_lt.mpr hlo) }
  covered s := Proto.committed_zero _ s
  leader s h := absurd h (by simp [World.init, serverInit])
  candidate s h := absurd h (by simp [World.init, serverInit])
  truthful d hd := absurd hd (by simp [World.init])
  sending s t ht := absurd ht (by simp [World.init])

end Step

end RaftLock

import RaftLock.Raft.Verdict
import RaftLock.Safety.Quorum

/-!
What a server has committed, every later leader has.

The protocol state behind a run only grows, so two moments of one run can be
compared: what is committed at the first of them is in the logs of the leaders
of the second, a leader only ever adds to its log, and no server gives up what
it has committed. A client that has been told that its transaction is
committed can then be told otherwise only where the entry has been compacted.
-/

namespace RaftLock

open Consensus Outcome

/-- The log has the entry `e` at index `i`, but for its counter, or a snapshot
covers the index. -/
structure HasEntry (r : RaftState) (i : ℤ) (e : LogEntry) : Prop where
  lt : i < r.logCount
  entry : r.startLogIndex ≤ i → ∃ e', getLog r i = some e' ∧ e'.core = e.core

/-! ### Two moments of a run -/

section Moments

variable {config : Config} {w w' : World} {p p' : Protocol} {C C' : Server → ℤ → Finset Server}
  {s v : Server} {i : ℤ} {e : LogEntry}

theorem Holds.hasEntry {r : RaftState} {L : List LogEntry} (h : Holds r L) (hi : 0 ≤ i)
    (he : L[i.toNat]? = some e.core) : HasEntry r i e := by
  have hlt := (List.getElem?_eq_some_iff.mp he).1
  have hlen := h.length
  have hcount : i < r.logCount := by omega
  refine ⟨hcount, fun hlo => ?_⟩
  have hget := getLog_of_mem hlo hcount
  have hentry := h.entry i _ hget
  rw [he, Option.some.injEq] at hentry
  exact ⟨_, hget, hentry.symm⟩

/-- An entry up to the commit index is one that a leader up to the server's
term has committed. -/
theorem AgreeInv.level (h : AgreeInv config w p C) (he : getLog (w.raft s) i = some e)
    (hi : i ≤ (w.raft s).commitIndex) : ∃ t ≤ (w.raft s).currentTerm, i.toNat < p.clevel t ∧
      (p.llog t)[i.toNat]? = some e.core := by
  have hstart := (h.sim.holds s).start_nonneg
  have hlo := (getLog_some he).1
  have hentry := (h.sim.holds s).entry i e he
  obtain ⟨t, ht, hk, hpre⟩ := h.known.committed s
  rw [h.sim.term] at ht
  refine ⟨t, ht, by omega, ?_⟩
  exact getElem?_of_take_prefix hpre (hk.trans (h.sim.inv.clevel_le t)) (by omega) hentry

theorem AgreeInv.committedEntry (h : AgreeInv config w p C) (he : getLog (w.raft s) i = some e)
    (hi : i ≤ (w.raft s).commitIndex) : p.CommittedEntry i.toNat e.core := by
  obtain ⟨t, -, hlt, hentry⟩ := h.level he hi
  exact ⟨t, hlt, hentry⟩

/-- A server that knows the index to be committed has the entry committed
there. -/
theorem AgreeInv.hasEntry {k : ℕ} (h : AgreeInv config w p C) (hk : p.Committed s k) (hi : 0 ≤ i)
    (hik : i.toNat < k) (he : p.CommittedEntry i.toNat e.core) : HasEntry (w.raft s) i e := by
  have hlt : i.toNat < (p.log s).length := hik.trans_le (hk.le_length h.sim.inv)
  have hentry := hk.entry h.sim.inv hik (List.getElem?_eq_getElem hlt)
  refine (h.sim.holds s).hasEntry hi ?_
  rw [List.getElem?_eq_getElem hlt, hentry.unique h.sim.inv he]

/-- The terms of a matched log do not go down. -/
theorem term_le_of_matched (h : p.Inv LogEntry.term) {X : List LogEntry}
    (hX : p.Matched LogEntry.term X) {a b : ℕ} {x y : LogEntry} (hx : X[a]? = some x)
    (hy : X[b]? = some y) (hab : a ≤ b) : x.term ≤ y.term := by
  have hmem : (p.llog y.term)[a]? = some x :=
    prefix_getElem? (hX b y hy) (by rw [List.getElem?_take_of_lt (by omega)]; exact hx)
  exact h.llog_le (List.mem_of_getElem? hmem)

theorem exists_moments (hinj : Function.Injective config) (hvalid : ∀ v, config v ≠ -1)
    {c c' : Cluster} (hrun : Cluster.Run config sound.allows c)
    (hsteps : Cluster.Steps sound.allows c c') :
    ∃ w w' p p' C C', Refines c w ∧ Refines c' w' ∧ AgreeInv config w p C ∧
      AgreeInv config w' p' C' ∧ Proto.Steps LogEntry.term p p' := by
  obtain ⟨w, hpath, href⟩ := (refines_init config).steps hrun
  obtain ⟨w', hpath', href'⟩ := href.steps hsteps
  obtain ⟨p, C, hinv⟩ := (agreeInv_init config).path hinj hvalid hpath
  obtain ⟨p', C', hs, hinv'⟩ := hinv.steps hinj hvalid hpath'
  exact ⟨w, w', p, p', C, C', href, href', hinv, hinv', hs⟩

end Moments

/-! ### Leaders -/

/-- Server `s` has an entry at index `i`. -/
def entryAt (c : Cluster) (s : Server) (i : ℤ) : Bool := (getLog (c.nodes s).view i).isSome

/-- The view of server `s` is of a leader of term `t`. -/
def leadsIn (c : Cluster) (s : Server) (t : ℤ) : Bool :=
  decide ((c.nodes s).view.state = .leader ∧ (c.nodes s).view.currentTerm = t)

/-- The steps that `sound` lets pass. -/
def soundly (c : Cluster) (as : List Action) : Option Cluster :=
  c.execWhile (fun c x => decide (sound.allows c x)) as

theorem exists_soundly {c : Cluster} {as : List Action} {test : Cluster → Bool}
    (h : (soundly c as).any test = true) :
    ∃ c', Cluster.Steps sound.allows c c' ∧ test c' = true :=
  Machine.exists_of_execWhile sound.allows (fun _ _ h => of_decide_eq_true h) h

section Leaders

variable {config : Config} {c c' : Cluster} {s v : Server} {i : ℤ} {e : LogEntry}

/-- **Leader completeness**: an entry that a server has committed is in the
log of every leader of the server's term or a later one, at that moment and at
every later one, unless a snapshot covers it there. -/
theorem leader_has_committed (hinj : Function.Injective config) (hvalid : ∀ v, config v ≠ -1)
    (hrun : Cluster.Run config sound.allows c) (hsteps : Cluster.Steps sound.allows c c')
    (he : getLog (c.nodes s).view i = some e) (hi : i ≤ (c.nodes s).view.commitIndex)
    (hleader : (c'.nodes v).view.state = .leader)
    (hterm : (c.nodes s).view.currentTerm ≤ (c'.nodes v).view.currentTerm) :
    HasEntry (c'.nodes v).view i e := by
  obtain ⟨w, w', p, p', C, C', href, href', hinv, hinv', hs⟩ :=
    exists_moments hinj hvalid hrun hsteps
  rw [← (href.node s).view] at he hi hterm
  rw [← (href'.node v).view] at hleader hterm ⊢
  obtain ⟨t, ht, hlt, hentry⟩ := hinv.level he hi
  -- the leader that committed the entry and the leader at hand, in the later state
  have hlt' : i.toNat < p'.clevel t := hlt.trans_le (hs.clevel_le t)
  have hentry' := prefix_getElem? (Proto.Steps.llog_prefix hinv.sim.inv hs t) hentry
  have hlead := hinv'.sim.leader v hleader
  have hpre : (p'.llog t).take (p'.clevel t) <+: p'.llog (w'.raft v).currentTerm :=
    hinv'.sim.inv.clevel_prefix_llog (ht.trans hterm) (by rw [hlead]; simp) le_rfl
  have hstart := (hinv.sim.holds s).start_nonneg
  have hlo := (getLog_some he).1
  refine (hinv'.sim.holds v).hasEntry (by omega) ?_
  rw [hinv'.sim.leader_log hleader]
  refine prefix_getElem? hpre ?_
  rw [List.getElem?_take_of_lt hlt']
  exact hentry'

/-- Server `1` is elected in term `2` by the votes of servers `2` and `3`. -/
def electNext : List Action :=
  [.timeout 1, .elect 1 none, .drop 0, .deliver 0 none, .deliver 0 none, .drop 0,
    .deliver 0 none, .deliver 0 none]

set_option maxRecDepth 10000 in
theorem electNext_runs : (soundly (Cluster.init plainConfig) firstEntries).any
    (fun c => entryAt c 0 1 && decide (1 ≤ (c.nodes 0).view.commitIndex ∧
      (c.nodes 0).view.currentTerm = 1) && (soundly c electNext).any
        fun c' => leadsIn c' 1 2) = true := by
  decide +kernel

theorem second_leader_has_committed : ∃ c c' e, Cluster.Run plainConfig sound.allows c ∧
    Cluster.Steps sound.allows c c' ∧ getLog (c.nodes 0).view 1 = some e ∧
    leadsIn c' 1 2 = true ∧ HasEntry (c'.nodes 1).view 1 e := by
  obtain ⟨c, hrun, hc⟩ := exists_soundly electNext_runs
  simp only [Bool.and_eq_true, decide_eq_true_eq] at hc
  obtain ⟨⟨hentry, hcommit, hterm⟩, hlater⟩ := hc
  obtain ⟨e, he⟩ := Option.isSome_iff_exists.mp hentry
  obtain ⟨c', hsteps, hleads⟩ := exists_soundly hlater
  obtain ⟨hleader, hterm'⟩ := of_decide_eq_true hleads
  exact ⟨c, c', e, hrun, hsteps, he, hleads, leader_has_committed (by decide) (by decide) hrun
    hsteps he hcommit hleader (by omega)⟩

/-- **Leaders append only**: what a leader has in its log it still has at every
later moment of its term, unless a snapshot covers it by then. -/
theorem leader_appends_only (hinj : Function.Injective config) (hvalid : ∀ v, config v ≠ -1)
    (hrun : Cluster.Run config sound.allows c) (hsteps : Cluster.Steps sound.allows c c')
    (he : getLog (c.nodes s).view i = some e) (hleader : (c.nodes s).view.state = .leader)
    (hleader' : (c'.nodes v).view.state = .leader)
    (hterm : (c'.nodes v).view.currentTerm = (c.nodes s).view.currentTerm) :
    v = s ∧ HasEntry (c'.nodes v).view i e := by
  obtain ⟨w, w', p, p', C, C', href, href', hinv, hinv', hs⟩ :=
    exists_moments hinj hvalid hrun hsteps
  rw [← (href.node s).view] at he hleader hterm
  rw [← (href'.node v).view] at hleader' hterm ⊢
  have hlead := hs.lead_eq (hinv.sim.leader s hleader)
  have hlead' := hinv'.sim.leader v hleader'
  rw [hterm, hlead, Option.some.injEq] at hlead'
  have hstart := (hinv.sim.holds s).start_nonneg
  have hlo := (getLog_some he).1
  have hentry := (hinv.sim.holds s).entry i e he
  rw [hinv.sim.leader_log hleader] at hentry
  refine ⟨hlead'.symm, (hinv'.sim.holds v).hasEntry (by omega) ?_⟩
  rw [hinv'.sim.leader_log hleader', hterm]
  exact prefix_getElem? (Proto.Steps.llog_prefix hinv.sim.inv hs _) hentry

set_option maxRecDepth 10000 in
theorem firstLeader_runs : (soundly (Cluster.init plainConfig) firstElection).any
    (fun c => entryAt c 0 0 && leadsIn c 0 1 &&
      (soundly c (firstEntries.drop firstElection.length)).any fun c' => leadsIn c' 0 1) =
    true := by
  decide +kernel

theorem first_leader_appends_only : ∃ c c' e, Cluster.Run plainConfig sound.allows c ∧
    Cluster.Steps sound.allows c c' ∧ getLog (c.nodes 0).view 0 = some e ∧
    HasEntry (c'.nodes 0).view 0 e := by
  obtain ⟨c, hrun, hc⟩ := exists_soundly firstLeader_runs
  simp only [Bool.and_eq_true] at hc
  obtain ⟨⟨hentry, hleads⟩, hlater⟩ := hc
  obtain ⟨e, he⟩ := Option.isSome_iff_exists.mp hentry
  obtain ⟨c', hsteps, hleads'⟩ := exists_soundly hlater
  obtain ⟨hleader, hterm⟩ := of_decide_eq_true hleads
  obtain ⟨hleader', hterm'⟩ := of_decide_eq_true hleads'
  exact ⟨c, c', e, hrun, hsteps, he, (leader_appends_only (by decide) (by decide) hrun hsteps he
    hleader hleader' (hterm'.trans hterm.symm)).2⟩

/-- **Committed entries stay**: what a server has committed it has at every
later moment, restarts and installed snapshots included, and so has every
server that has committed as far. -/
theorem committed_entry_stays (hinj : Function.Injective config) (hvalid : ∀ v, config v ≠ -1)
    (hrun : Cluster.Run config sound.allows c) (hsteps : Cluster.Steps sound.allows c c')
    (he : getLog (c.nodes s).view i = some e) (hi : i ≤ (c.nodes s).view.commitIndex)
    (hv : v = s ∨ i ≤ (c'.nodes v).view.commitIndex) : HasEntry (c'.nodes v).view i e := by
  obtain ⟨w, w', p, p', C, C', href, href', hinv, hinv', hs⟩ :=
    exists_moments hinj hvalid hrun hsteps
  rw [← (href.node s).view] at he hi
  rw [← (href'.node v).view] at hv ⊢
  have hstart := (hinv.sim.holds s).start_nonneg
  have hlo := (getLog_some he).1
  have hcommitted := Proto.Steps.committedEntry hinv.sim.inv hs (hinv.committedEntry he hi)
  rcases hv with rfl | hv
  · have hknown := Proto.Steps.committed hinv.sim.inv hs (hinv.known.committed v)
    exact hinv'.hasEntry hknown (by omega) (by omega) hcommitted
  · exact hinv'.hasEntry (hinv'.known.committed v) (by omega) (by omega) hcommitted

set_option maxRecDepth 10000 in
theorem crashedLeader_runs : (soundly (Cluster.init plainConfig) firstEntries).any
    (fun c => entryAt c 0 1 && decide (1 ≤ (c.nodes 0).view.commitIndex) &&
      (soundly c [.crash 0, .restart 0]).any fun c' => (c'.nodes 0).up) = true := by
  decide +kernel

theorem restarted_leader_has_entry : ∃ c c' e, Cluster.Run plainConfig sound.allows c ∧
    Cluster.Steps sound.allows c c' ∧ getLog (c.nodes 0).view 1 = some e ∧
    (c'.nodes 0).up = true ∧ HasEntry (c'.nodes 0).view 1 e := by
  obtain ⟨c, hrun, hc⟩ := exists_soundly crashedLeader_runs
  simp only [Bool.and_eq_true, decide_eq_true_eq] at hc
  obtain ⟨⟨hentry, hcommit⟩, hlater⟩ := hc
  obtain ⟨e, he⟩ := Option.isSome_iff_exists.mp hentry
  obtain ⟨c', hsteps, hup⟩ := exists_soundly hlater
  exact ⟨c, c', e, hrun, hsteps, he, hup, committed_entry_stays (by decide) (by decide) hrun
    hsteps he hcommit (Or.inl rfl)⟩

end Leaders

/-! ### Verdicts -/

section Verdicts

variable {config : Config} {c₁ c₂ : Cluster} {s v : Server} {i j : ℤ} {e e' : LogEntry}

/-- Two moments of one run, in either order, and the protocol state at the
later of them. -/
theorem exists_common (hinj : Function.Injective config) (hvalid : ∀ v, config v ≠ -1)
    (hrun₁ : Cluster.Run config sound.allows c₁) (hrun₂ : Cluster.Run config sound.allows c₂)
    (hsteps : Cluster.Steps sound.allows c₁ c₂ ∨ Cluster.Steps sound.allows c₂ c₁) :
    ∃ w₁ w₂ p₁ p₂ C₁ C₂ p, Refines c₁ w₁ ∧ Refines c₂ w₂ ∧ AgreeInv config w₁ p₁ C₁ ∧
      AgreeInv config w₂ p₂ C₂ ∧ Proto.Steps LogEntry.term p₁ p ∧
      Proto.Steps LogEntry.term p₂ p := by
  rcases hsteps with hsteps | hsteps
  · obtain ⟨w, w', p, p', C, C', href, href', hinv, hinv', hs⟩ :=
      exists_moments hinj hvalid hrun₁ hsteps
    exact ⟨w, w', p, p', C, C', p', href, href', hinv, hinv', hs, .refl⟩
  · obtain ⟨w, w', p, p', C, C', href, href', hinv, hinv', hs⟩ :=
      exists_moments hinj hvalid hrun₂ hsteps
    exact ⟨w', w, p', p, C', C, p', href', href, hinv', hinv, .refl, hs⟩

/-- The committed entries are in the order of their terms, whoever holds them
and whenever. -/
theorem committed_ordered (hinj : Function.Injective config) (hvalid : ∀ v, config v ≠ -1)
    (hrun₁ : Cluster.Run config sound.allows c₁) (hrun₂ : Cluster.Run config sound.allows c₂)
    (hsteps : Cluster.Steps sound.allows c₁ c₂ ∨ Cluster.Steps sound.allows c₂ c₁)
    (he : getLog (c₁.nodes s).view i = some e) (hi : i ≤ (c₁.nodes s).view.commitIndex)
    (he' : getLog (c₂.nodes v).view j = some e') (hj : j ≤ (c₂.nodes v).view.commitIndex)
    (hji : j ≤ i) : e'.term ≤ e.term := by
  obtain ⟨w₁, w₂, p₁, p₂, C₁, C₂, p, href₁, href₂, hinv₁, hinv₂, hs₁, hs₂⟩ :=
    exists_common hinj hvalid hrun₁ hrun₂ hsteps
  rw [← (href₁.node s).view] at he hi
  rw [← (href₂.node v).view] at he' hj
  have hinv := Proto.Steps.inv hinv₁.sim.inv hs₁
  have h := Proto.Steps.committedEntry hinv₁.sim.inv hs₁ (hinv₁.committedEntry he hi)
  have h' := Proto.Steps.committedEntry hinv₂.sim.inv hs₂ (hinv₂.committedEntry he' hj)
  obtain ⟨t, hi, he⟩ := h
  have hlt : j.toNat < (p.llog t).length := by
    have := (List.getElem?_eq_some_iff.mp he).1
    omega
  have hat := List.getElem?_eq_getElem hlt
  have hsame := Proto.CommittedEntry.unique hinv (⟨t, by omega, hat⟩ : p.CommittedEntry _ _) h'
  rw [hsame] at hat
  have hterm := term_le_of_matched hinv (hinv.llog_matched t) hat he (by omega)
  rwa [LogEntry.core_term, LogEntry.core_term] at hterm

/-- What one server has committed, another one that has committed as far and
has not compacted it has in its log. -/
theorem committed_held (hinj : Function.Injective config) (hvalid : ∀ v, config v ≠ -1)
    (hrun₁ : Cluster.Run config sound.allows c₁) (hrun₂ : Cluster.Run config sound.allows c₂)
    (hsteps : Cluster.Steps sound.allows c₁ c₂ ∨ Cluster.Steps sound.allows c₂ c₁)
    (he : getLog (c₁.nodes s).view i = some e) (hi : i ≤ (c₁.nodes s).view.commitIndex)
    (hi' : i ≤ (c₂.nodes v).view.commitIndex) (hlo : (c₂.nodes v).view.startLogIndex ≤ i) :
    ∃ e', getLog (c₂.nodes v).view i = some e' ∧ e'.core = e.core := by
  obtain ⟨w₁, w₂, p₁, p₂, C₁, C₂, p, href₁, href₂, hinv₁, hinv₂, hs₁, hs₂⟩ :=
    exists_common hinj hvalid hrun₁ hrun₂ hsteps
  rw [← (href₁.node s).view] at he hi
  rw [← (href₂.node v).view] at hi' hlo ⊢
  have hinv := Proto.Steps.inv hinv₁.sim.inv hs₁
  have hstart := (hinv₂.sim.holds v).start_nonneg
  have hlen := (hinv₂.sim.holds v).length
  have hknown := hinv₂.known.committed v
  have hle := hknown.le_length hinv₂.sim.inv
  have hget := getLog_of_mem (r := w₂.raft v) hlo (by omega)
  have h := Proto.Steps.committedEntry hinv₁.sim.inv hs₁ (hinv₁.committedEntry he hi)
  have h' := Proto.Steps.committedEntry hinv₂.sim.inv hs₂ (hinv₂.committedEntry hget hi')
  exact ⟨_, hget, h'.unique hinv h⟩

/-- **A confirmed transaction is not denied**: once, or before, a server
answers that a transaction is committed, no server that has not compacted its
entry answers that it is lost, and those that have committed as far confirm
it. -/
theorem confirmed_not_denied (hinj : Function.Injective config) (hvalid : ∀ v, config v ≠ -1)
    (hrun₁ : Cluster.Run config sound.allows c₁) (hrun₂ : Cluster.Run config sound.allows c₂)
    (hsteps : Cluster.Steps sound.allows c₁ c₂ ∨ Cluster.Steps sound.allows c₂ c₁)
    {term id : ℤ} (hone : isEntryCommitted (c₁.nodes s).view term id = 1)
    (hkept : ∀ i e, getLog (c₁.nodes s).view i = some e → e.Tagged term id →
      (c₂.nodes v).view.startLogIndex ≤ i) :
    isEntryCommitted (c₂.nodes v).view term id ≠ -1 ∧
    ((c₁.nodes s).view.commitIndex ≤ (c₂.nodes v).view.commitIndex →
      isEntryCommitted (c₂.nodes v).view term id = 1) := by
  obtain ⟨i, e, hd, ht, hi⟩ := isEntryCommitted_eq_one.mp hone
  have hlo := hkept i e hd.entry ht
  have hheld : ∀ {k}, k ≤ (c₂.nodes v).view.commitIndex → i ≤ k →
      ∃ e', getLog (c₂.nodes v).view i = some e' ∧ e'.Tagged term id := by
    intro k hk hik
    obtain ⟨e', he', hcore⟩ := committed_held hinj hvalid hrun₁ hrun₂ hsteps hd.entry hi
      (hik.trans hk) hlo
    exact ⟨e', he', (congrArg LogEntry.term hcore).trans ht.1,
      (congrArg LogEntry.id hcore).trans ht.2⟩
  have hnot : isEntryCommitted (c₂.nodes v).view term id ≠ -1 := by
    intro hneg
    obtain ⟨j, e', hd', hlater, hj⟩ := isEntryCommitted_eq_neg_one.mp hneg
    rcases lt_or_ge i j with hij | hji
    · obtain ⟨x, hx, htx⟩ := hheld hj hij.le
      exact hd'.first i x hij hx (Or.inl htx)
    · have hterm := committed_ordered hinj hvalid hrun₁ hrun₂ hsteps hd.entry hi hd'.entry hj hji
      rw [ht.1] at hterm
      omega
  refine ⟨hnot, fun hfar => ?_⟩
  obtain ⟨x, hx, htx⟩ := hheld hfar hi
  rcases isEntryCommitted_cases (c₂.nodes v).view term id with ⟨j, e', hd', heq⟩ | ⟨hnone, -⟩
  · have hji := hd'.le hx (Or.inl htx)
    rw [heq, verdictOn, if_pos (by omega)] at hnot ⊢
    split_ifs at hnot ⊢ with htag
    · rfl
    · exact absurd rfl hnot
  · exact absurd (Or.inl htx) (hnone i x hx)

set_option maxRecDepth 10000 in
theorem confirmedTwice_runs : (soundly (Cluster.init plainConfig) firstEntries).any
    (fun c => decide (isEntryCommitted (c.nodes 0).view 1 0 = 1 ∧
      (c.nodes 0).view.startLogIndex = 0) && (soundly c exchange).any fun c' =>
        decide ((c'.nodes 1).view.startLogIndex = 0 ∧
          (c.nodes 0).view.commitIndex ≤ (c'.nodes 1).view.commitIndex)) = true := by
  decide +kernel

theorem first_transaction_confirmed_twice : ∃ c c', Cluster.Run plainConfig sound.allows c ∧
    Cluster.Steps sound.allows c c' ∧ isEntryCommitted (c.nodes 0).view 1 0 = 1 ∧
    isEntryCommitted (c'.nodes 1).view 1 0 = 1 := by
  obtain ⟨c, hrun, hc⟩ := exists_soundly confirmedTwice_runs
  simp only [Bool.and_eq_true, decide_eq_true_eq] at hc
  obtain ⟨⟨hone, hstart⟩, hlater⟩ := hc
  obtain ⟨c', hsteps, hfar⟩ := exists_soundly hlater
  obtain ⟨hstart', hfar⟩ := of_decide_eq_true hfar
  refine ⟨c, c', hrun, hsteps, hone, (confirmed_not_denied (by decide) (by decide) hrun
    (hrun.trans hsteps) (Or.inl hsteps) hone fun i e he _ => ?_).2 hfar⟩
  have hlo := (getLog_some he).1
  omega

end Verdicts

end RaftLock

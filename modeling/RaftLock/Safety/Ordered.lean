import RaftLock.Safety.Durable
import RaftLock.Safety.LogMatching

/-!
The terms in a log do not go down.

A leader writes entries of its own term, which is not behind any in its log. A
follower takes an entry behind one of the term the request names, and the
request names a term that is not later than the entry's: so it does not matter
who sent it, or whether there are two leaders of a term. A snapshot cuts off
the beginning of a log. What precedes the first retained entry has term `-1`
for both sides, and there the order has nothing to say.
-/

namespace RaftLock

open Outcome

/-- The window has an entry of term `t` at `i`. -/
def HasTerm (r : RaftState) (i t : ℤ) : Prop := ∃ e, getLog r i = some e ∧ e.term = t

/-- The terms in the window do not go down and are not past the current one. -/
structure Ordered (r : RaftState) : Prop where
  mono : ∀ {i j t u}, HasTerm r i t → HasTerm r j u → i ≤ j → t ≤ u
  nonneg : ∀ {i t}, HasTerm r i t → 0 ≤ t
  le : ∀ {i t}, HasTerm r i t → t ≤ r.currentTerm

/-- A request whose entry may follow the one it names. -/
def EntryInOrder (q : AppendRequest) : Prop :=
  q.entriesN ≠ 0 → q.prevLogTerm ≤ q.entry.term ∧ 0 ≤ q.entry.term ∧ q.entry.term ≤ q.term

section Order

variable {r r' : RaftState}

theorem HasTerm.mem {i t : ℤ} (h : HasTerm r i t) : r.startLogIndex ≤ i ∧ i < r.logCount := by
  obtain ⟨e, he, -⟩ := h
  exact ⟨(getLog_some he).1, (getLog_some he).2.1⟩

theorem HasTerm.unique {i t u : ℤ} (h : HasTerm r i t) (h' : HasTerm r i u) : t = u := by
  obtain ⟨e, he, rfl⟩ := h
  obtain ⟨e', he', rfl⟩ := h'
  rw [he, Option.some.injEq] at he'
  rw [he']

theorem hasTerm_iff {i t : ℤ} : HasTerm r i t ↔ r.startLogIndex ≤ i ∧ i < r.logCount ∧
    (r.log (i - r.startLogIndex).toNat).term = t := by
  constructor
  · rintro ⟨e, he, rfl⟩
    obtain ⟨hlo, hhi, rfl⟩ := getLog_some he
    exact ⟨hlo, hhi, rfl⟩
  · rintro ⟨hlo, hhi, rfl⟩
    exact ⟨_, getLog_of_mem hlo hhi, rfl⟩

/-- The term `Raft_get_log_term` returns. -/
theorem getLogTerm_hasTerm (r : RaftState) (i : ℤ) :
    HasTerm r i (getLogTerm r i) ∨
      ((i < r.startLogIndex ∨ r.logCount ≤ i) ∧ getLogTerm r i = -1) := by
  rcases getLogTerm_cases r i with ⟨e, he, ht⟩ | hout
  · exact Or.inl ⟨e, he, ht.symm⟩
  · exact Or.inr hout

/-- A window with no entries that the old one did not have. -/
theorem Ordered.of_terms (h : Ordered r) (hterm : r.currentTerm ≤ r'.currentTerm)
    (hsub : ∀ i t, HasTerm r' i t → HasTerm r i t) : Ordered r' where
  mono hi hj hij := h.mono (hsub _ _ hi) (hsub _ _ hj) hij
  nonneg hi := h.nonneg (hsub _ _ hi)
  le hi := (h.le (hsub _ _ hi)).trans hterm

theorem Ordered.congr (h : Ordered r) (hterm : r.currentTerm ≤ r'.currentTerm)
    (hstart : r'.startLogIndex = r.startLogIndex) (hcount : r'.logCount = r.logCount)
    (hlog : ∀ k, (r'.log k).term = (r.log k).term) : Ordered r' := by
  refine h.of_terms hterm fun i t hi => ?_
  rw [hasTerm_iff, hstart, hcount, hlog] at hi
  exact hasTerm_iff.mpr hi

/-- One entry is written, of term `t`. -/
theorem Ordered.put (h : Ordered r) (hterm : r.currentTerm ≤ r'.currentTerm) {i t : ℤ}
    (ht : 0 ≤ t) (htop : t ≤ r'.currentTerm)
    (hbefore : ∀ j u, j < i → HasTerm r' j u → HasTerm r j u ∧ u ≤ t)
    (hat : ∀ u, HasTerm r' i u → u = t)
    (hafter : ∀ j u, i < j → HasTerm r' j u → HasTerm r j u ∧ t ≤ u) : Ordered r' := by
  have hold : ∀ j u, j ≠ i → HasTerm r' j u → HasTerm r j u := by
    intro j u hne hj
    rcases lt_or_gt_of_ne hne with hlt | hgt
    · exact (hbefore j u hlt hj).1
    · exact (hafter j u hgt hj).1
  refine ⟨fun {j k u v} hj hk hjk => ?_, fun {j u} hj => ?_, fun {j u} hj => ?_⟩
  · rcases lt_trichotomy j i with hji | rfl | hji
    · rcases lt_trichotomy k i with hki | rfl | hki
      · exact h.mono (hold j u (by omega) hj) (hold k v (by omega) hk) hjk
      · rw [hat v hk]
        exact (hbefore j u hji hj).2
      · exact (hbefore j u hji hj).2.trans (hafter k v hki hk).2
    · rcases eq_or_ne k j with rfl | hne
      · exact (hj.unique hk).le
      · rw [hat u hj]
        exact (hafter k v (by omega) hk).2
    · exact h.mono (hold j u (by omega) hj) (hold k v (by omega) hk) hjk
  · rcases eq_or_ne j i with rfl | hne
    · rwa [hat u hj]
    · exact h.nonneg (hold j u hne hj)
  · rcases eq_or_ne j i with rfl | hne
    · rwa [hat u hj]
    · exact (h.le (hold j u hne hj)).trans hterm

/-- A leader adds an entry of its term. -/
theorem Ordered.push (h : Ordered r) (hnonneg : 0 ≤ r.currentTerm)
    (hterm : r'.currentTerm = r.currentTerm) (hstart : r'.startLogIndex = r.startLogIndex)
    (hlo : r.startLogIndex ≤ r.logCount) (hcount : r'.logCount = r.logCount + 1) {e : LogEntry}
    (he : e.term = r.currentTerm)
    (hlog : r'.log = Function.update r.log (r.logCount - r.startLogIndex).toNat e) :
    Ordered r' := by
  refine h.put (i := r.logCount) hterm.ge hnonneg hterm.ge (fun j u hj hu => ?_) (fun u hu => ?_)
    fun j u hj hu => ?_
  · rw [hasTerm_iff, hstart, hcount, hlog] at hu
    obtain ⟨hjlo, hjhi, hu⟩ := hu
    rw [Function.update_of_ne (by omega)] at hu
    have hold : HasTerm r j u := hasTerm_iff.mpr ⟨hjlo, hj, hu⟩
    exact ⟨hold, h.le hold⟩
  · rw [hasTerm_iff, hstart, hlog, Function.update_self] at hu
    rw [← hu.2.2, he]
  · have := hu.mem.2
    omega

/-- A follower takes the entry of a request it finds consistent. -/
theorem Ordered.stored (h : Ordered r) {q : AppendRequest} (hq : EntryInOrder q)
    (hterm : q.term = r.currentTerm) (hc : consistent r q) (hn : q.entriesN ≠ 0)
    (hlo : r.startLogIndex ≤ q.prevLogIndex + 1) (hstart : r'.startLogIndex = r.startLogIndex)
    (hcurrent : r'.currentTerm = r.currentTerm) (hcount : r'.logCount = storedCount r q)
    (hlog : r'.log = Function.update r.log (q.prevLogIndex + 1 - r.startLogIndex).toNat q.entry) :
    Ordered r' := by
  obtain ⟨hprev, hnonneg, htop⟩ := hq hn
  have hc' := hc
  simp only [consistent, not_or, not_lt, ge_iff_le, not_le, not_not] at hc'
  obtain ⟨-, hbehind, hsame⟩ := hc'
  have hslot : ∀ j u, j ≠ q.prevLogIndex + 1 → HasTerm r' j u →
      j < storedCount r q ∧ (j < r.logCount → HasTerm r j u) := by
    intro j u hj hu
    rw [hasTerm_iff, hstart, hcount, hlog] at hu
    obtain ⟨hjlo, hjhi, hu⟩ := hu
    rw [Function.update_of_ne (by omega)] at hu
    exact ⟨hjhi, fun hlt => hasTerm_iff.mpr ⟨hjlo, hlt, hu⟩⟩
  refine h.put (i := q.prevLogIndex + 1) hcurrent.ge hnonneg (by omega) (fun j u hj hu => ?_)
    (fun u hu => ?_) fun j u hj hu => ?_
  · have hold := (hslot j u (by omega) hu).2 (by omega)
    refine ⟨hold, ?_⟩
    -- the entry before is in the window, or the new one is the first there
    rcases getLogTerm_hasTerm r q.prevLogIndex with hat | ⟨hout, -⟩
    · rw [hsame] at hat
      exact (h.mono hold hat (by omega)).trans hprev
    · have := hold.mem.1
      omega
  · rw [hasTerm_iff, hstart, hlog, Function.update_self] at hu
    exact hu.2.2.symm
  · obtain ⟨hend, hold⟩ := hslot j u (by omega) hu
    unfold storedCount at hend
    split_ifs at hend with hconflict hfull
    · omega
    · omega
    · -- nothing is cut off: the entry there has the same term
      push Not at hconflict
      have hinside : q.prevLogIndex + 1 < r.logCount := by omega
      have hat : HasTerm r (q.prevLogIndex + 1) q.entry.term := by
        rw [← hconflict hinside]
        refine (getLogTerm_hasTerm r (q.prevLogIndex + 1)).resolve_right fun hout => ?_
        omega
      have hmine := hold hend
      exact ⟨hmine, h.mono hat hmine (by omega)⟩

/-- Every handler keeps the order, but for the end of a transfer. -/
theorem Handled.ordered {d : Datagram} {es : List Effect} (hh : Handled r d.src d.packet r' es)
    (h : Ordered r) (hnonneg : 0 ≤ r.currentTerm)
    (hq : ∀ q, d.packet = .append q → EntryInOrder q) (hno : ¬ Installs r d) : Ordered r' := by
  obtain ⟨pk, hp⟩ : ∃ pk, d.packet = pk := ⟨_, rfl⟩
  rw [hp] at hh
  cases hh with
  | entryStored q hterm hc hn hlo hhi hroom hcommit =>
      exact h.stored (hq q hp) hterm hc hn hlo rfl rfl rfl rfl
  | voteDecided q hterm hstate hs hmany hlo hroom r' hr' =>
      subst hr'
      exact h.push hnonneg rfl rfl hlo rfl rfl rfl
  | entryCounted q hterm hstate hid hnext hlt hs hnew hown hroom n hn hcommit r' hr' =>
      subst hr'
      refine h.congr le_rfl rfl rfl fun k => ?_
      -- only the counter of the entry changes
      simp only [matched, counted, noted, Function.update_apply]
      split
      · rename_i hk
        rw [hk]
      · rfl
  | installDone q hterm hi hd es hes =>
      exact absurd (by simpa only [Installs, hp] using ⟨hi, hd⟩) hno
  | installChunk q hterm hi hd r' hr' =>
      subst hr'
      exact h.congr le_rfl rfl rfl fun _ => rfl
  | installAnswered q hterm hstate hid hnext r' hr' =>
      subst hr'
      exact h.congr le_rfl rfl rfl fun _ => rfl
  | appendAnswered q hterm hstate hid hnext next hans r' hr' =>
      subst hr'
      exact h.congr le_rfl rfl rfl fun _ => rfl
  | entryAnswered q hterm hstate hid hnext hlt hs hskip r' hr' =>
      subst hr'
      exact h.congr le_rfl rfl rfl fun _ => rfl
  | _ => exact h.congr le_rfl rfl rfl fun _ => rfl

/-- The requests of a leader thread are in order when its log is. -/
theorem Sends.inOrder {t : LeaderThread} {es : List Effect} {pc : Option LeaderPc}
    (hs : Sends r t r' es pc) (h : Ordered r) {dst : Server} {q : AppendRequest}
    (hsend : .send dst (.append q) ∈ es) : EntryInOrder q := by
  cases hs with
  | heartbeat hpc hstate hnext heq =>
      simp only [List.mem_singleton, Effect.send.injEq, Packet.append.injEq] at hsend
      intro hn
      rw [hsend.2] at hn
      exact absurd rfl hn
  | entry hpc hstate hnext e he =>
      simp only [List.mem_singleton, Effect.send.injEq, Packet.append.injEq] at hsend
      intro _
      rw [hsend.2]
      have hat : HasTerm r (r.nextIndex (r.config t.follower)) e.term := ⟨e, he, rfl⟩
      refine ⟨?_, h.nonneg hat, h.le hat⟩
      simp only [appendRequest]
      rcases getLogTerm_hasTerm r (r.nextIndex (r.config t.follower) - 1) with hprev | ⟨-, hout⟩
      · exact h.mono hprev hat (by omega)
      · have := h.nonneg hat
        omega
  | _ => exact absurd hsend (by simp)

end Order

/-! ### Every run -/

structure OrderInv (w : World) : Prop where
  nonneg : ∀ s, 0 ≤ (w.raft s).currentTerm
  ordered : ∀ s, Ordered (w.raft s)
  net : ∀ d ∈ w.net, ∀ q, d.packet = .append q → EntryInOrder q

/-- Runs in which no transfer of a snapshot is completed. -/
abbrev noInstalls : Guard where
  packet _ r d := ¬ Installs r d
  sender _ _ := True
  shift _ _ := True

section Steps

variable {w w' : World} {s : Server} {r' : RaftState}

theorem OrderInv.update (h : OrderInv w) (hraft : w'.raft = Function.update w.raft s r')
    (hterm : (w.raft s).currentTerm ≤ r'.currentTerm) (hr' : Ordered r')
    (hnet : ∀ d ∈ w'.net, d ∈ w.net ∨ ∀ q, d.packet = .append q → EntryInOrder q) :
    OrderInv w' := by
  refine ⟨fun v => ?_, fun v => ?_, fun d hd => ?_⟩
  · rw [hraft, Function.update_apply]
    split
    · exact (h.nonneg s).trans hterm
    · exact h.nonneg v
  · rw [hraft, Function.update_apply]
    split
    · exact hr'
    · exact h.ordered v
  · exact (hnet d hd).elim (h.net d) id

/-- A section that sends no append request. -/
theorem OrderInv.settled (h : OrderInv w) (hterm : (w.raft s).currentTerm ≤ r'.currentTerm)
    (hr' : Ordered r') {es : List Effect} {answers : Option Packet}
    (hsend : ∀ dst q, .send dst (.append q) ∉ es) : OrderInv (w.settle s r' es answers) := by
  refine h.update rfl hterm hr' fun d hd => (mem_settle_sent hd).imp id fun hnew q hq => ?_
  rw [hq] at hnew
  exact absurd hnew.2.2 (hsend _ q)

theorem OrderInv.rerouted (h : OrderInv w) (net : List Datagram) (hnet : ∀ d ∈ net, d ∈ w.net) :
    OrderInv { w with net } := ⟨h.nonneg, h.ordered, fun d hd => h.net d (hnet d hd)⟩

/-- Handlers answer, they do not send entries. -/
theorem Handled.no_append {r : RaftState} {addr : Server} {packet : Packet} {es : List Effect}
    (hh : Handled r addr packet r' es) (dst : Server) (q : AppendRequest) :
    .send dst (.append q) ∉ es := by
  intro hmem
  obtain ⟨p, hp⟩ := hh.sends_response hmem
  exact absurd hp (by simp)

theorem OrderInv.step (h : OrderInv w) {v : Option (Server × ℤ × Server)}
    (hstep : World.Step noInstalls w v w') : OrderInv w' := by
  cases hstep with
  | stepDown s t ht =>
      have hf := convertToFollower_follows (w.raft s) t
      have hterm : (w.raft s).currentTerm ≤ (convertToFollower (w.raft s) t).raft.currentTerm := by
        rw [hf.currentTerm]
        omega
      refine h.update rfl hterm ?_ fun d hd => Or.inl hd
      exact (h.ordered s).congr hterm hf.startLogIndex hf.logCount fun k => by rw [hf.log]
  | campaign s =>
      have hterm : (w.raft s).currentTerm ≤ (campaigner (w.raft s)).currentTerm := by
        simp only [campaigner]
        omega
      rw [attemptToElect_eq]
      exact h.settled hterm ((h.ordered s).congr hterm rfl rfl fun _ => rfl) (by simp)
  | handle a b d r' es hnet hle hg hh =>
      have hmem : d ∈ w.net := by simp [hnet]
      have hfewer := h.rerouted (a ++ b) fun x hx => by
        rw [hnet]
        simp only [List.mem_append, List.mem_cons] at hx ⊢
        exact hx.imp id Or.inr
      exact hfewer.settled hh.term.ge
        (hh.ordered (h.ordered d.dst) (h.nonneg d.dst) (h.net d hmem) hg) hh.no_append
  | turns d l hd hg hl =>
      exact h.update rfl le_rfl ((h.ordered d.dst).congr le_rfl rfl rfl fun _ => rfl)
        fun d hd => Or.inl hd
  | lose net hsub => exact h.rerouted net fun d hd => hsub.subset hd
  | append s e hf =>
      rcases appendEntry_ok hf with heq | ⟨r', heq, -, hlo, -, hr'⟩
      · rw [heq]
        exact h.settled le_rfl (h.ordered s) (by simp [ret])
      · rw [heq, hr']
        refine h.settled ?_ ?_ ?_
        · exact le_rfl
        · exact (h.ordered s).push (h.nonneg s) rfl rfl hlo rfl rfl rfl
        · simp [saveState, emit]
  | sender s a b t r' es pc ht hg hs =>
      have hlog := hs.keeps_log
      refine h.update rfl hs.same.1.ge ?_ fun d hd => ?_
      · exact (h.ordered s).congr hs.same.1.ge hlog.1 hlog.2.1 fun k => by rw [hlog.2.2.1]
      · refine (mem_settle_sent hd).imp id fun hnew q hq => ?_
        rw [hq] at hnew
        exact hs.inOrder (h.ordered s) hnew.2.2
  | enter s n r' he =>
      obtain ⟨-, rfl⟩ := createSnapshotEnter_some he
      refine h.update (s := s) rfl ?_ ?_ fun d hd => Or.inl hd
      · exact le_rfl
      · exact (h.ordered s).congr le_rfl rfl rfl fun _ => rfl
  | shift s n hn hg hf =>
      obtain ⟨hlo, heq⟩ := createSnapshotShift_ok hf
      rw [heq]
      refine h.settled ?_ ?_ ?_
      · exact le_rfl
      · refine (h.ordered s).of_terms le_rfl ?_
        rintro i t ⟨e, he, ht⟩
        exact ⟨e, getLog_shifted (fun hlt => (hlo hlt).1) he, ht⟩
      · simp [saveState, emit]
  | crash s st hst =>
      refine h.update rfl hst.currentTerm.ge ?_ fun d hd => Or.inl hd
      refine (h.ordered s).congr hst.currentTerm.ge ?_ ?_ fun k => ?_
      · exact hst.startLogIndex
      · exact hst.logCount
      · exact congrArg (fun log => (log k).term) hst.log
  | replay s l hl => exact ⟨h.nonneg, h.ordered, h.net⟩

end Steps

theorem orderInv_init (config : Config) : OrderInv (World.init config) where
  nonneg _ := le_rfl
  ordered s := by
    have hempty : ∀ i t, ¬ HasTerm ((World.init config).raft s) i t := by
      intro i t hi
      obtain ⟨hlo, hhi⟩ := hi.mem
      simp only [World.init, serverInit] at hlo hhi
      omega
    exact ⟨fun hi => absurd hi (hempty _ _), fun hi => absurd hi (hempty _ _),
      fun hi => absurd hi (hempty _ _)⟩
  net d hd := absurd hd (by simp [World.init])

/-- As long as no transfer is completed, the terms of the entries a server has
in its log do not go down with the index and are not past its current term. -/
theorem log_terms_ordered {config : Config} {m : Traffic}
    (hrun : Machine.Steps Traffic.exec (Traffic.allows noInstalls) (.init config) m) (s : Server) :
    (∀ i j e e', getLog (m.cluster.nodes s).view i = some e →
      getLog (m.cluster.nodes s).view j = some e' → i ≤ j → e.term ≤ e'.term) ∧
    ∀ i e, getLog (m.cluster.nodes s).view i = some e →
      e.term ≤ (m.cluster.nodes s).view.currentTerm := by
  obtain ⟨w, href, h⟩ := Traffic.exists_world (orderInv_init config) (fun _ _ _ h => h.step)
    (fun _ net h => h.rerouted net) hrun
  rw [← (href.node s).view]
  exact ⟨fun i j e e' he he' hij => (h.ordered s).mono ⟨e, he, rfl⟩ ⟨e', he', rfl⟩ hij,
    fun i e he => (h.ordered s).le ⟨e, he, rfl⟩⟩

/-- The leader's entry and one client entry reach servers `1` and `2`, and the
first request is repeated. -/
def repeatedEntries : List RepeatedAction :=
  firstEntries.map .step ++ [.step (.leaderThread 0 3), .duplicate 0, .step (.deliver 0 none)]

theorem repeatedEntries_runs : (Machine.execWhile Traffic.exec
    (fun m y => decide (m.allows noInstalls y)) (.init plainConfig) repeatedEntries).any
    (fun m => (getLog (m.cluster.nodes 1).view 0).isSome &&
      (getLog (m.cluster.nodes 1).view 1).isSome) = true := by
  decide +kernel

theorem first_terms_ordered : ∃ m e e',
    Machine.Steps Traffic.exec (Traffic.allows noInstalls) (.init plainConfig) m ∧
    getLog (m.cluster.nodes 1).view 0 = some e ∧ getLog (m.cluster.nodes 1).view 1 = some e' ∧
    e.term ≤ e'.term ∧ e'.term ≤ (m.cluster.nodes 1).view.currentTerm := by
  obtain ⟨m, hrun, hm⟩ := Machine.exists_of_execWhile (Traffic.allows noInstalls)
    (fun _ _ h => of_decide_eq_true h) repeatedEntries_runs
  rw [Bool.and_eq_true, Option.isSome_iff_exists, Option.isSome_iff_exists] at hm
  obtain ⟨⟨e, he⟩, e', he'⟩ := hm
  obtain ⟨hmono, hle⟩ := log_terms_ordered hrun 1
  exact ⟨m, e, e', hrun, he, he', hmono 0 1 e e' he he' (by decide), hle 1 e' he'⟩

end RaftLock

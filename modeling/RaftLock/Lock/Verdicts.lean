import RaftLock.Lock.Tags
import RaftLock.Raft.Verdict
import RaftLock.Safety.Provenance

/-!
Positive verdicts: what an entry that `Raft_is_entry_committed` matches is.

A tag that an acquire has returned has a counter of at least one. The entries
in the logs are those the handlers have appended and those the leaders have
written, and a leader's entry has the counter its slot held before. As long as
elections are won with a zero there, a tag can only match an entry that a
release has appended.
-/

namespace RaftLock

@[simp] theorem LogEntry.core_id (e : LogEntry) : e.core.id = e.id := rfl

/-! ### Leader entries over stale slots -/

instance (r : RaftState) (packet : Packet) : Decidable (Wins r packet) :=
  match packet with
  | .response _ => inferInstanceAs (Decidable (_ ∧ _))
  | .append _ | .vote _ | .installSnapshot _ => inferInstanceAs (Decidable False)

/-- An answer that makes a candidate leader finds no counter in the slot that
`Raft_convert_to_leader` writes. -/
abbrev cleanSlots : Guard where
  packet _ r d := Wins r d.packet → (leaderEntry r).id = 0
  sender _ _ := True
  shift _ _ := True

namespace Manager

/-- The condition on runs: every election is won over a slot without a
counter. -/
def CleanElections (m : Manager) : ManagerAction → Prop
  | .raft x => cleanSlots.allows m.cluster x
  | _ => True

instance (m : Manager) (x : ManagerAction) : Decidable (m.CleanElections x) :=
  match x with
  | .raft x => inferInstanceAs (Decidable (cleanSlots.allows m.cluster x))
  | .accept _ _ _ | .step _ _ _ | .fire _ => inferInstanceAs (Decidable True)

/-- An entry of a leader, with no counter, or one that was appended. -/
def Genuine (stored : List LogEntry) (e : LogEntry) : Prop :=
  (e.type = .leaderLog ∧ e.id = 0) ∨ (e.type = .clientLog ∧ e ∈ stored.map LogEntry.core)

theorem cleanSlots_elects (stored : List LogEntry) : cleanSlots.elects (Genuine stored) :=
  fun _ _ _ hclean hwins => Or.inl ⟨rfl, hclean hwins⟩

theorem Genuine.mono {stored stored' : List LogEntry} (hsub : stored ⊆ stored') {e : LogEntry}
    (h : Genuine stored e) : Genuine stored' e :=
  h.imp_right fun hmem => ⟨hmem.1, List.map_subset LogEntry.core hsub hmem.2⟩

/-! ### Counters -/

/-- The counter is at least one while a tag is in the making, and so is the
one in a tag that is returned. -/
structure TagsCounted (l : LockServer) : Prop where
  nonneg : 0 ≤ l.currentLogEntry.id
  pos : ∀ c, (l.handler c).tagging = true → 1 ≤ l.currentLogEntry.id
  returned : ∀ c rc term id, l.handler c = .returned ⟨rc, .tag term id⟩ → 1 ≤ id

theorem counts_init : TagsCounted .init where
  nonneg := le_rfl
  pos c hc := absurd hc (by simp [LockServer.init, HandlerPc.tagging])
  returned c rc term id h := absurd h (by simp [LockServer.init])

variable {config : Config} {m m' : Manager} {s : Server} {l l' : LockServer} {c : ℤ}
  {raft : RaftState}

theorem TagsCounted.tagging (h : TagsCounted l) (ht : l.Tagging raft c l') : TagsCounted l' := by
  cases ht with
  | counts hp hhandler hid =>
      have := h.nonneg
      refine ⟨by omega, fun _ _ => by omega, fun c' rc term id hret => ?_⟩
      rw [hhandler, Function.update_apply] at hret
      split_ifs at hret
      exact h.returned c' rc term id hret
  | reads hp hhandler hid =>
      have htagging : ((l.handler c).tagging) = true := by simp [hp, HandlerPc.tagging]
      refine ⟨hid ▸ h.nonneg, fun _ _ => hid ▸ h.pos c htagging, fun c' rc term id hret => ?_⟩
      rw [hhandler, Function.update_apply] at hret
      split_ifs at hret
      exact h.returned c' rc term id hret
  | returns term hp hhandler hid =>
      have hpos := h.pos c (by simp [hp, HandlerPc.tagging])
      refine ⟨hid ▸ h.nonneg, fun _ _ => hid ▸ hpos, fun c' rc term' id hret => ?_⟩
      rw [hhandler, Function.update_apply] at hret
      split_ifs at hret
      · simp only [HandlerPc.returned.injEq, Reply.mk.injEq, Message.tag.injEq] at hret
        exact hret.2.2 ▸ hpos
      · exact h.returned c' rc term' id hret
  | waits hin hhandler hid =>
      exact ⟨hid ▸ h.nonneg, fun c' hc' => hid ▸ h.pos c' (hhandler ▸ hc'),
        fun c' rc term id hret => h.returned c' rc term id (hhandler ▸ hret)⟩
  | other p hhandler hid hp hreply =>
      refine ⟨hid ▸ h.nonneg, fun c' hc' => ?_, fun c' rc term id hret => ?_⟩
      · rw [hid]
        rw [hhandler, Function.update_apply] at hc'
        split_ifs at hc'
        · exact absurd (hp.symm.trans hc') (by simp)
        · exact h.pos c' hc'
      · rw [hhandler, Function.update_apply] at hret
        split_ifs at hret
        · exact absurd hret (hreply rc term id)
        · exact h.returned c' rc term id hret

/-! ### Runs -/

structure VerdictInv (m : Manager) : Prop where
  kept : m.cluster.Kept (Genuine m.stored)
  counts : ∀ s, TagsCounted (m.server s)
  tags : ∀ s term id, (s, term, id) ∈ m.tags → 1 ≤ id

theorem verdictInv_init (config : Config) : VerdictInv (init config) where
  kept := Cluster.kept_init config
  counts _ := counts_init
  tags s term id h := absurd h (by simp [init])

theorem VerdictInv.moved (h : VerdictInv m) {c' : Cluster} (hkept : c'.Kept (Genuine m.stored)) :
    VerdictInv (m.move c') where
  kept := hkept
  counts s := by
    simp only [move]
    split
    · exact h.counts s
    · exact counts_init
  tags := h.tags

theorem VerdictInv.served (h : VerdictInv m) (hl : TagsCounted l) :
    VerdictInv (m.setServer s l) where
  kept := h.kept
  counts v := by
    simp only [setServer, Function.update_apply]
    split
    · exact hl
    · exact h.counts v
  tags := h.tags

theorem VerdictInv.handed (h : VerdictInv m) (hl : TagsCounted l) :
    VerdictInv { m.setServer s l with tags := m.tags ++ handed s l c } where
  kept := h.kept
  counts := (h.served hl).counts
  tags v term id htag := by
    rcases List.mem_append.mp htag with htag | htag
    · exact h.tags v term id htag
    · unfold Manager.handed at htag
      split at htag
      · rename_i rc term' id' hret
        simp only [List.mem_singleton, Prod.mk.injEq] at htag
        obtain ⟨-, -, rfl⟩ := htag
        exact hl.returned c rc term' _ hret
      · exact absurd htag (by simp)

/-- What `Raft_append_entry` puts into the log is recorded. -/
theorem kept_append {stored : List LogEntry} {e : LogEntry}
    (h : RaftLock.Kept (Genuine stored) raft) :
    (appendEntry raft e).Kept (Genuine (stored ++ storedEntry raft e)) := by
  refine kept_appendEntry (fun i e' he' => (h i e' he').mono (List.subset_append_left _ _))
    fun hstores => Or.inr ⟨rfl, List.mem_map.mpr ⟨
      { e with term := raft.currentTerm, nServersReplicated := 1, type := .clientLog }, ?_, rfl⟩⟩
  refine List.mem_append_right _ ?_
  rw [storedEntry, if_neg (by push Not; exact hstores)]
  exact List.mem_singleton_self _

theorem VerdictInv.appended (h : VerdictInv m) {e : LogEntry} {crashAt : Option ℕ} {c' : Cluster}
    (hup : (m.cluster.nodes s).up = true) (hl : TagsCounted l)
    (hx : m.cluster.exec (.append s e crashAt) = some c') :
    VerdictInv ({ m.setServer s l with
      stored := m.stored ++ storedEntry (m.cluster.nodes s).raft e }.move c') := by
  have hmono : m.cluster.Kept (Genuine (m.stored ++ storedEntry (m.cluster.nodes s).raft e)) :=
    h.kept.mono fun _ he => he.mono (List.subset_append_left _ _)
  have hstored : VerdictInv { m.setServer s l with
      stored := m.stored ++ storedEntry (m.cluster.nodes s).raft e } :=
    ⟨hmono, (h.served hl).counts, h.tags⟩
  refine hstored.moved (hmono.exec (g := cleanSlots) (x := .append s e crashAt)
    (cleanSlots_elects _) trivial hx ?_)
  intro v e' crashAt' heq
  simp only [Action.append.injEq] at heq
  obtain ⟨rfl, rfl, -⟩ := heq
  exact kept_append (h.kept.raft s hup)

theorem VerdictInv.exec (h : VerdictInv m) {x : ManagerAction} (hok : m.CleanElections x)
    (hx : m.exec x = some m') : VerdictInv m' := by
  cases exec_cases hx with
  | raft a c' ha hc' =>
      exact h.moved (h.kept.exec (cleanSlots_elects _) hok hc'
        fun s e crashAt heq => absurd heq (ha s e crashAt))
  | accept s c request l hup hl =>
      have ht : (m.server s).Tagging (m.cluster.nodes s).raft c l := LockServer.accept_tagging hl
      exact h.served ((h.counts s).tagging ht)
  | serve s c crashAt l hup hstep =>
      exact h.handed ((h.counts s).tagging (LockServer.step_tagging hstep))
  | append s c crashAt l e c' hup hstep hc' =>
      exact h.appended hup ((h.counts s).tagging (LockServer.step_tagging hstep)) hc'
  | fire s lock hup hfire =>
      exact h.served ⟨(h.counts s).nonneg, (h.counts s).pos, (h.counts s).returned⟩

end Manager

/-- The entry a positive verdict on a returned tag has matched is one that a
release has appended under that tag. -/
theorem verdict_names_transaction {config : Config} {m : Manager}
    (hrun : Machine.Steps Manager.exec Manager.CleanElections (.init config) m)
    {s₀ s : Server} {term id : ℤ} (htag : (s₀, term, id) ∈ m.tags)
    (hup : (m.cluster.nodes s).up = true)
    (hverdict : isEntryCommitted (m.cluster.nodes s).raft term id = 1) :
    ∃ i e, Decides (m.cluster.nodes s).raft term id i e ∧ e.Tagged term id ∧
      e.type = .clientLog ∧ e.core ∈ m.stored.map LogEntry.core := by
  have h : m.VerdictInv := hrun.invariant (fun _ _ _ h hok hx => h.exec hok hx)
    (Manager.verdictInv_init config)
  obtain ⟨i, e, hd, ht, -⟩ := isEntryCommitted_eq_one.mp hverdict
  have hpos := h.tags s₀ term id htag
  refine ⟨i, e, hd, ht, ?_⟩
  rcases h.kept.raft s hup i e hd.entry with ⟨-, hzero⟩ | hstored
  · simp only [LogEntry.core_id, ht.2] at hzero
    omega
  · exact hstored

def releases (s : Server) (c term id : ℤ) : List ManagerAction :=
  .accept s c (.release term id) :: List.replicate 8 (.step s c none)

/-- The leader thread `k` of `s` and its follower exchange a request and the
answer to it, with nothing else on its way. -/
def round (s : Server) (k : ℕ) : List Action :=
  [.leaderThread s k, .deliver 0 none, .deliver 0 none]

/-- Servers `1` and `2` hold the log of server `0` up to the entry that the
release of client `1` has appended. -/
def firstRelease : List ManagerAction :=
  firstElection.map .raft ++ acquires 0 1 ++ releases 0 1 1 1 ++
    ((List.replicate 3 (round 0 0)).flatten ++ (List.replicate 3 (round 0 1)).flatten).map .raft

set_option maxRecDepth 10000 in
theorem firstRelease_runs : (Machine.execWhile Manager.exec (fun m x => decide (m.CleanElections x))
    (.init plainConfig) firstRelease).any (fun m => decide ((0, 1, 1) ∈ m.tags ∧
      (m.cluster.nodes 0).up = true ∧ isEntryCommitted (m.cluster.nodes 0).raft 1 1 = 1)) =
      true := by
  decide +kernel

theorem first_verdict_names_release : ∃ m : Manager,
    Machine.Steps Manager.exec Manager.CleanElections (.init plainConfig) m ∧
    (0, 1, 1) ∈ m.tags ∧ isEntryCommitted (m.cluster.nodes 0).raft 1 1 = 1 ∧
    ∃ i e, Decides (m.cluster.nodes 0).raft 1 1 i e ∧ e.Tagged 1 1 ∧ e.type = .clientLog ∧
      e.core ∈ m.stored.map LogEntry.core := by
  obtain ⟨m, hrun, hm⟩ := Machine.exists_of_execWhile Manager.CleanElections
    (fun _ _ h => of_decide_eq_true h) firstRelease_runs
  obtain ⟨htag, hup, hverdict⟩ := of_decide_eq_true hm
  exact ⟨m, hrun, htag, hverdict, verdict_names_transaction hrun htag hup hverdict⟩

/-- Server `1` wins the next term with an empty log and cuts off the entry that
the release has appended at server `0`, whose slot keeps the counter `1`.
Server `0` comes back from a crash and wins the term after that: its leader's
entry goes into the slot. -/
def overwriteRelease : List Action :=
  [Action.timeout 1, .elect 1 none, .deliver 0 none, .deliver 0 none, .deliver 0 none, .drop 0,
    .drop 0, .deliver 0 none, .deliver 0 none] ++ round 1 0 ++
    [Action.leaderThread 1 0, .deliver 0 none, .drop 0, .crash 0, .restart 0] ++ firstElection

/-- The first acquire of the new process returns the counter `1` again, and the
leader's entry is committed. -/
def staleSlot : List ManagerAction :=
  firstElection.map .raft ++ acquires 0 1 ++ releases 0 1 1 1 ++ overwriteRelease.map .raft ++
    acquires 0 5 ++
    ((List.replicate 2 (round 0 0)).flatten ++ (List.replicate 4 (round 0 1)).flatten).map .raft

/-- The verdict on the tag `(3, 1)` is about a leader's entry. -/
def matchesLeaderEntry (r : RaftState) : Prop :=
  isEntryCommitted r 3 1 = 1 ∧ r.startLogIndex = 0 ∧ getLogTerm r 0 = 2 ∧
    (getLog r 1).any fun e => e.term = 3 ∧ e.id = 1 ∧ e.type = .leaderLog

instance (r : RaftState) : Decidable (matchesLeaderEntry r) :=
  inferInstanceAs (Decidable (_ ∧ _))

set_option maxRecDepth 10000 in
theorem staleSlot_runs : (Machine.execAll Manager.exec (.init plainConfig) staleSlot).any
    (fun m => decide ((0, 3, 1) ∈ m.tags ∧ (m.cluster.nodes 0).up = true ∧
      matchesLeaderEntry (m.cluster.nodes 0).raft)) = true := by
  decide +kernel

theorem matchesLeaderEntry.decides {r : RaftState} (h : matchesLeaderEntry r) :
    ∃ e, Decides r 3 1 1 e ∧ e.type = .leaderLog := by
  obtain ⟨-, hstart, hterm, hany⟩ := h
  obtain ⟨e, he, hfields⟩ := (Option.any_eq_true _ _).mp hany
  obtain ⟨ht, hid, htype⟩ := of_decide_eq_true hfields
  refine ⟨e, ⟨he, Or.inl ⟨ht, hid⟩, fun j e' hj he' => ?_⟩, htype⟩
  obtain ⟨hlo, -, -⟩ := getLog_some he'
  obtain rfl : j = 0 := by omega
  have hterm' : e'.term = 2 := by
    rcases getLogTerm_cases r 0 with ⟨e₀, he₀, heq⟩ | ⟨-, heq⟩
    · obtain rfl : e₀ = e' := Option.some.inj (he₀.symm.trans he')
      exact heq.symm.trans hterm
    · exact absurd (heq.symm.trans hterm) (by decide)
  rintro (⟨h, -⟩ | h) <;> omega

/-- The verdict on a returned tag matches an entry that a leader has written. -/
theorem verdict_names_leader_entry : ∃ m, Manager.Reachable plainConfig m ∧
    ∃ s₀ s : Server, ∃ term id : ℤ, (s₀, term, id) ∈ m.tags ∧ (m.cluster.nodes s).up = true ∧
      isEntryCommitted (m.cluster.nodes s).raft term id = 1 ∧
      ¬ ∃ i e, Decides (m.cluster.nodes s).raft term id i e ∧ e.type = .clientLog := by
  obtain ⟨m, hrun, hm⟩ := Machine.exists_of_execAll staleSlot_runs
  obtain ⟨htag, hup, hmatches⟩ := of_decide_eq_true hm
  obtain ⟨e, hd, htype⟩ := hmatches.decides
  refine ⟨m, hrun, 0, 0, 3, 1, htag, hup, hmatches.1, ?_⟩
  rintro ⟨i, e', hd', hclient⟩
  obtain ⟨-, rfl⟩ := hd.unique hd'
  exact absurd (hclient.symm.trans htype) (by simp)

end RaftLock

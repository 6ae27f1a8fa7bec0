import RaftLock.Raft.Nodes
import RaftLock.Safety.Bookkeeping

/-!
Where log entries come from.

An entry enters a log when a leader writes its own entry or a client handler
appends one; after that it is only copied: into a saved state, into append
requests, into other logs. So a property of entries that does not look at the
acknowledgement counter holds of every entry of every log as soon as it holds
of the entries that enter one. The argument goes along the sections, effect by
effect, and does not mind where a section is cut off.
-/

namespace RaftLock

open Outcome

/-- Every entry in the window has the property. -/
def Kept (K : LogEntry → Prop) (r : RaftState) : Prop := ∀ i e, getLog r i = some e → K e.core

def Effect.Kept (K : LogEntry → Prop) : Effect → Prop
  | .save st => RaftLock.Kept K st
  | .send _ (.append q) => q.entriesN ≠ 0 → K q.entry.core
  | _ => True

theorem Effect.kept_of_quiet {K : LogEntry → Prop} {x : Effect} (hx : x.isQuiet) : x.Kept K := by
  cases x with
  | save st => exact hx.elim
  | send dst packet => exact hx.elim
  | _ => trivial

/-- Wherever the section is cut off, and at its end unless it ends the process. -/
structure Outcome.Kept (K : LogEntry → Prop) (o : Outcome) : Prop where
  raft : o.fault = false → RaftLock.Kept K o.raft
  effects : ∀ x ∈ o.effects, x.Kept K

section Kept

variable {K : LogEntry → Prop} {r r' : RaftState}

theorem Kept.of_window (h : Kept K r) (hlog : r'.log = r.log)
    (hstart : r'.startLogIndex = r.startLogIndex) (hcount : r'.logCount = r.logCount) :
    Kept K r' := by
  intro i e he
  refine h i e ?_
  simpa only [getLog, hlog, hstart, hcount] using he

theorem Outcome.Kept.ret (h : RaftLock.Kept K r) : (ret r).Kept K :=
  ⟨fun _ => h, by simp [Outcome.ret]⟩

theorem Outcome.Kept.die : (die r).Kept K := ⟨by simp [Outcome.die], by simp [Outcome.die]⟩

theorem Outcome.Kept.emit (h : RaftLock.Kept K r) {es : List Effect} (hes : ∀ x ∈ es, x.Kept K) :
    (emit r es).Kept K := ⟨fun _ => h, hes⟩

theorem Outcome.Kept.save (h : RaftLock.Kept K r) : (saveState r).Kept K := by
  refine .emit h fun x hx => ?_
  rw [List.mem_singleton.mp hx]
  exact h

theorem Outcome.Kept.andThen {o : Outcome} {f : RaftState → Outcome} (ho : o.Kept K)
    (hf : ∀ r', RaftLock.Kept K r' → (f r').Kept K) : (o.andThen f).Kept K := by
  unfold Outcome.andThen
  split
  · exact ho
  · rename_i hfault
    have hrest := hf o.raft (ho.raft (by simpa using hfault))
    refine ⟨hrest.raft, fun x hx => ?_⟩
    rcases List.mem_append.mp hx with hx | hx
    · exact ho.effects x hx
    · exact hrest.effects x hx

/-! ### The sections -/

theorem kept_commitLoop (h : Kept K r) (turns : ℕ) (i : ℤ) : (commitLoop r turns i).Kept K := by
  induction turns generalizing r i with
  | zero => exact .ret h
  | succ turns ih =>
      unfold commitLoop
      split
      · exact .die
      · exact .andThen (.emit h (by simp [Effect.Kept])) fun _ h => ih h (i + 1)

theorem kept_commitUpdate (h : Kept K r) (n : ℤ) : (commitUpdate r n).Kept K :=
  .andThen (kept_commitLoop h _ _) fun _ h => .ret (h.of_window rfl rfl rfl)

theorem kept_convertToFollower (h : Kept K r) (t : ℤ) : (convertToFollower r t).Kept K := by
  have hf := convertToFollower_follows r t
  refine ⟨fun _ => h.of_window hf.log hf.startLogIndex hf.logCount, fun x hx => ?_⟩
  rcases convertToFollower_effects r t with hnil | hone
  · exact absurd hx (by simp [hnil])
  · rw [hone, List.mem_singleton] at hx
    subst hx
    trivial

theorem kept_answer (h : Kept K r) (addr : Server) (id success : ℤ) :
    (answer r addr id success).Kept K :=
  .emit h (by simp [Effect.Kept])

/-- A write to one slot, of an entry with the property. -/
theorem Kept.modifyLog {i : ℤ} {f : LogEntry → LogEntry} (hm : modifyLog r i f = some r')
    (h : ∀ j e, j ≠ i → getLog r j = some e → K e.core)
    (hf : ∀ e, getLog r i = some e → K (f e).core) : Kept K r' := by
  obtain ⟨hlo, hhi, -, rfl⟩ := modifyLog_some hm
  intro j e he
  obtain ⟨hjlo, hjhi, rfl⟩ := getLog_some he
  simp only [Function.update_apply]
  by_cases hj : j = i
  · rw [hj, if_pos rfl]
    exact hf _ (getLog_of_mem hlo hhi)
  · rw [if_neg (by simp only at hjlo; omega)]
    exact h j _ hj (getLog_of_mem hjlo hjhi)

/-- The window grows by one slot, which is then written. -/
theorem Kept.modifyLast {f : LogEntry → LogEntry} (h : Kept K r)
    (hm : RaftLock.modifyLog { r with logCount := r.logCount + 1 } r.logCount f = some r')
    (hf : K (f (r.log (r.logCount - r.startLogIndex).toNat)).core) : Kept K r' := by
  refine Kept.modifyLog hm (fun j e hj he => ?_) fun e he => ?_
  · obtain ⟨hlo, hhi, rfl⟩ := getLog_some he
    exact h j _ (getLog_of_mem hlo (by simp only at hhi; omega))
  · obtain ⟨-, -, rfl⟩ := getLog_some he
    exact hf

theorem kept_storeEntry (h : Kept K r) {q : AppendRequest} (hc : consistent r q)
    (hq : K q.entry.core) : (storeEntry r q).Kept K := by
  have hprev : q.prevLogIndex < r.logCount := by
    unfold consistent at hc
    push Not at hc
    exact hc.2.1
  unfold storeEntry
  simp only
  generalize hgrown : (if q.prevLogIndex + 1 < r.logCount ∧
      getLogTerm r (q.prevLogIndex + 1) ≠ q.entry.term then
        { r with state := .follower, logCount := q.prevLogIndex + 1 + 1 }
      else if r.logCount = q.prevLogIndex + 1 then
        { r with state := .follower, logCount := r.logCount + 1 }
      else { r with state := .follower }) = r₁
  -- beside the slot that is written the window is part of what it was
  have hrest : ∀ j e, j ≠ q.prevLogIndex + 1 → getLog r₁ j = some e → K e.core := by
    intro j e hj he
    obtain ⟨hlo, hhi, rfl⟩ := getLog_some he
    subst hgrown
    split_ifs at hlo hhi ⊢
    · exact h j _ (getLog_of_mem hlo (by simp only at hhi; omega))
    · exact h j _ (getLog_of_mem hlo (by simp only at hhi; omega))
    · exact h j _ (getLog_of_mem hlo hhi)
  cases hm : modifyLog r₁ (q.prevLogIndex + 1) fun _ => q.entry with
  | none => exact .die
  | some r₂ =>
      have h₂ : Kept K r₂ := Kept.modifyLog hm hrest fun _ _ => hq
      simp only
      split
      · exact kept_commitUpdate h₂ _
      · exact .ret h₂

theorem kept_handleAppendRequest (h : Kept K r) (addr : Server) {q : AppendRequest}
    (hq : q.entriesN ≠ 0 → K q.entry.core) : (handleAppendRequest r addr q).Kept K := by
  unfold handleAppendRequest
  refine .andThen ?_ fun _ h => ?_
  · split
    · exact kept_convertToFollower h _
    · exact .ret h
  · split
    · exact .andThen (.save h) fun _ h => kept_answer h _ _ _
    · rename_i hc
      split
      · refine .andThen ?_ fun _ h => .andThen (.save h) fun _ h => kept_answer h _ _ _
        split
        · exact kept_commitUpdate (h.of_window (by rfl) (by rfl) (by rfl)) _
        · exact .ret (h.of_window rfl rfl rfl)
      · rename_i hn
        exact .andThen (kept_storeEntry h (not_not.mp hc) (hq hn)) fun _ h =>
          .andThen (.save h) fun _ h => kept_answer h _ _ _

/-- The log that replaces another one at the end of a transfer is empty. -/
theorem kept_installDone (r : RaftState) (id : ℤ) : Kept K (installDone r id) := by
  intro i e he
  obtain ⟨hlo, hhi, -⟩ := getLog_some he
  simp only [installDone] at hlo hhi
  omega

theorem kept_handleInstallSnapshotRequest (h : Kept K r) (addr : Server) (q : InstallRequest) :
    (handleInstallSnapshotRequest r addr q).Kept K := by
  unfold handleInstallSnapshotRequest
  refine .andThen ?_ fun _ h => ?_
  · split
    · exact .andThen (kept_convertToFollower h _) fun _ h => .save h
    · exact .ret h
  · split
    · exact kept_answer h _ _ _
    · split
      · refine .andThen (.emit (kept_installDone _ _) (by simp [Effect.Kept])) fun _ h =>
          .andThen (.save h) fun _ h => .andThen (kept_answer h _ _ _) fun _ h => ?_
        split
        · exact .emit h (by simp [Effect.Kept])
        · exact .ret h
      · exact .andThen (.emit (h.of_window (by rfl) (by rfl) (by rfl))
          (by simp [Effect.Kept])) fun _ h => .andThen (.save h) fun _ h => kept_answer h _ _ _

theorem kept_handleVoteRequest (h : Kept K r) (addr : Server) (q : VoteRequest) :
    (handleVoteRequest r addr q).Kept K := by
  unfold handleVoteRequest
  refine .andThen ?_ fun _ h => ?_
  · split
    · exact .andThen (kept_convertToFollower h _) fun _ h => .save h
    · exact .ret h
  · split
    · split
      · exact .andThen (.save (h.of_window rfl rfl rfl)) fun _ h => kept_answer h _ _ _
      · exact .andThen (.save h) fun _ h => kept_answer h _ _ _
    · exact kept_answer h _ _ _

/-- The entry `Raft_convert_to_leader` writes: the fields it does not set are
those of the slot. -/
def leaderEntry (r : RaftState) : LogEntry :=
  { r.log (r.logCount - r.startLogIndex).toNat with
    term := r.currentTerm, nServersReplicated := 1, type := .leaderLog }

theorem kept_convertToLeader (h : Kept K r) (hnew : K (leaderEntry r).core) :
    (convertToLeader r).Kept K := by
  unfold convertToLeader
  simp only [add_sub_cancel_right]
  split
  · exact .die
  · rename_i r₁ hm
    have h₀ : Kept K { r with nFollowersReceivingSnapshots := 0 } := h.of_window rfl rfl rfl
    have h₁ : Kept K r₁ := h₀.modifyLast hm hnew
    exact .andThen (.save (h₁.of_window rfl rfl rfl)) fun _ h =>
      .emit (h.of_window (by rfl) (by rfl) (by rfl)) (by simp [Effect.Kept])

theorem kept_countReplica (h : Kept K r) (i : ℤ) : (countReplica r i).Kept K := by
  unfold countReplica
  split
  · split
    · exact .die
    · rename_i r₁ hm
      have h₁ : Kept K r₁ := Kept.modifyLog hm (fun j e _ he => h j e he) fun e he => h i e he
      split
      · exact kept_commitUpdate h₁ _
      · exact .ret h₁
  · exact .ret h

theorem kept_handleAppendResponse (h : Kept K r) (q : Response) :
    (handleAppendResponse r q).Kept K := by
  unfold handleAppendResponse
  refine .andThen ?_ fun _ h => .save (h.of_window rfl rfl rfl)
  split
  · exact .ret (h.of_window rfl rfl rfl)
  · split
    · exact .andThen (kept_countReplica h _) fun _ h => .ret (h.of_window rfl rfl rfl)
    · exact .ret h

/-- The answer makes the candidate a leader. -/
def Wins (r : RaftState) : Packet → Prop
  | .response q => q.term = r.currentTerm ∧ r.state = .candidate ∧ 0 < q.success ∧
      (r.nvoted + 1) * 2 > (nServers : ℤ)
  | _ => False

theorem kept_handleResponse (h : Kept K r) {q : Response}
    (hnew : Wins r (.response q) → K (leaderEntry r).core) : (handleResponse r q).Kept K := by
  unfold handleResponse
  split
  · exact .ret h
  · split
    · exact .andThen (kept_convertToFollower h _) fun _ h => .save h
    · have hterm : q.term = r.currentTerm := by omega
      simp only
      cases hstate : r.state with
      | follower => exact .ret (h.of_window rfl rfl rfl)
      | leader =>
          simp only
          split
          · split
            · exact .save (h.of_window rfl rfl rfl)
            · exact kept_handleAppendResponse (h.of_window (by rfl) (by rfl) (by rfl)) q
          · exact .ret (h.of_window rfl rfl rfl)
      | candidate =>
          simp only [handleVoteResponse]
          split
          · split
            · exact .ret (h.of_window rfl rfl rfl)
            · exact .ret (h.of_window rfl rfl rfl)
          · split
            · rename_i hs hmaj
              exact kept_convertToLeader (h.of_window (by rfl) (by rfl) (by rfl))
                (hnew ⟨hterm, hstate, by omega, hmaj⟩)
            · exact .ret (h.of_window rfl rfl rfl)

theorem kept_handlePacket (h : Kept K r) (addr : Server) {packet : Packet}
    (hq : ∀ q, packet = .append q → q.entriesN ≠ 0 → K q.entry.core)
    (hnew : Wins r packet → K (leaderEntry r).core) : (handlePacket r addr packet).Kept K := by
  cases packet with
  | append q => exact kept_handleAppendRequest h addr (hq q rfl)
  | vote q => exact kept_handleVoteRequest h addr q
  | installSnapshot q => exact kept_handleInstallSnapshotRequest h addr q
  | response q => exact kept_handleResponse h hnew

theorem kept_attemptToElect (h : Kept K r) : (attemptToElect r).Kept K := by
  unfold attemptToElect
  refine .andThen (.save (h.of_window rfl rfl rfl)) fun _ h => .emit h fun x hx => ?_
  obtain ⟨i, -, rfl⟩ := List.mem_map.mp hx
  trivial

/-- `Raft_append_entry` puts the entry into the log. -/
def Storing (r : RaftState) : Prop :=
  r.state = .leader ∧ r.logCount ≠ r.startLogIndex + (logSize : ℤ)

theorem kept_appendEntry (h : Kept K r) {e : LogEntry}
    (hnew : Storing r →
      K { e with term := r.currentTerm, nServersReplicated := 0, type := .clientLog }) :
    (appendEntry r e).Kept K := by
  unfold appendEntry
  split
  · exact .ret h
  · rename_i hstores
    push Not at hstores
    simp only [add_sub_cancel_right]
    split
    · exact .die
    · rename_i r₁ hm
      exact .save (Kept.modifyLast h hm (hnew hstores))

theorem Sends.kept {t : LeaderThread} {es : List Effect} {pc : Option LeaderPc} (h : Kept K r)
    (hs : Sends r t r' es pc) : Kept K r' ∧ ∀ x ∈ es, x.Kept K := by
  cases hs with
  | entry hpc hstate hnext e he =>
      refine ⟨h, fun x hx => ?_⟩
      rw [List.mem_singleton.mp hx]
      exact fun _ => h _ e he
  | first hpc hfree q it hterm hid =>
      exact ⟨h.of_window rfl rfl rfl, by simp [Effect.Kept]⟩
  | giveUp q it hpc => exact ⟨h.of_window rfl rfl rfl, by simp⟩
  | finish q it hpc hid hres hdone => exact ⟨h.of_window rfl rfl rfl, by simp⟩
  | _ => exact ⟨h, by simp [Effect.Kept, appendRequest]⟩

theorem kept_leaderStep (h : Kept K r) (files : FileSystem) (t : LeaderThread) :
    (leaderStep r files t).1.Kept K := by
  cases hf : (leaderStep r files t).1.fault with
  | true =>
      refine ⟨fun hok => absurd (hok.symm.trans hf) (by simp), ?_⟩
      rw [leaderStep_fault hf]
      simp
  | false =>
      obtain ⟨hraft, heffects⟩ := (leaderStep_sends hf).kept h
      exact ⟨fun _ => hraft, heffects⟩

theorem kept_createSnapshotShift (h : Kept K r) (n : ℤ) : (createSnapshotShift r n).Kept K := by
  rcases createSnapshotShift_cases r n with ⟨r', heq⟩ | ⟨hn, heq⟩
  · rw [heq]
    exact .die
  · rw [heq]
    exact .save fun i e he => h i e (getLog_shifted (fun hlt => (hn hlt).1) he)

theorem kept_snapshotStep (h : Kept K r) (pc : SnapshotPc) : (snapshotStep r pc).1.Kept K := by
  have hsection := snapshotStep_section r pc
  generalize (snapshotStep r pc).1 = o at hsection ⊢
  cases hsection with
  | enter n hpc he => exact .ret (h.of_window rfl rfl rfl)
  | shift n prev hpc => exact kept_createSnapshotShift h n
  | plain _ hraft hes =>
      refine ⟨fun _ => ?_, fun x hx => Effect.kept_of_quiet (hes x hx).1⟩
      rw [hraft]
      exact h

theorem kept_serverRestore (h : Kept K r) : (serverRestore r).Kept K := by
  refine ⟨fun hf => ?_, fun x hx => Effect.kept_of_quiet (serverRestore_quiet r x hx)⟩
  rw [serverRestore_ok hf]
  exact h.of_window rfl rfl rfl

end Kept

/-! ### The cluster -/

/-- A leader is elected into a slot whose entry gets the property. -/
def Guard.elects (g : Guard) (K : LogEntry → Prop) : Prop :=
  ∀ l r d, g.packet l r d → Wins r d.packet → K (leaderEntry r).core

namespace Cluster

/-- Every entry of every log, of every saved state and on its way has the
property. -/
structure Kept (K : LogEntry → Prop) (c : Cluster) : Prop where
  raft : ∀ s, (c.nodes s).up = true → RaftLock.Kept K (c.nodes s).raft
  saved : ∀ s st, (c.nodes s).saved = some st → RaftLock.Kept K st
  net : ∀ d ∈ c.net, ∀ q, d.packet = .append q → q.entriesN ≠ 0 → K q.entry.core

variable {K K' : LogEntry → Prop} {g : Guard} {c c' : Cluster} {s : Server}

theorem Kept.mono (h : c.Kept K) (hK : ∀ e, K e → K' e) : c.Kept K' where
  raft s hup i e he := hK _ (h.raft s hup i e he)
  saved s st hst i e he := hK _ (h.saved s st hst i e he)
  net d hd q hq hn := hK _ (h.net d hd q hq hn)

theorem kept_init (config : Config) : (init config).Kept K where
  raft s _ i e he := by
    obtain ⟨hlo, hhi, -⟩ := getLog_some he
    simp only [init, Node.init, serverInit] at hlo hhi
    omega
  saved s st hst := absurd hst (by simp [init, Node.init])
  net d hd := absurd hd (by simp [init])

/-- A packet of a later term cannot make its receiver a leader, so the guard
looks at the state the packet finds. -/
theorem wins_arrived {r : RaftState} {packet : Packet} (h : Wins r packet) :
    arrived r packet = r := by
  cases packet with
  | response q => exact arrived_of_le (le_of_eq h.1)
  | _ => exact h.elim

theorem Kept.runs (h : c.Kept K) (hg : g.elects K) (hup : (c.nodes s).up = true) {x : Action}
    {o : Outcome} (hx : Runs g c s (c.nodes s).raft x o)
    (happend : ∀ e crashAt, x = .append s e crashAt →
      (appendEntry (c.nodes s).raft e).Kept K) : o.Kept K := by
  have hraft := h.raft s hup
  cases hx with
  | elect x hx => exact kept_attemptToElect hraft
  | packet k crashAt d hd hs hpacket =>
      refine kept_handlePacket hraft d.src (h.net d (List.mem_of_getElem? hd)) fun hwins => ?_
      rw [wins_arrived hwins] at hpacket
      exact hg _ _ d hpacket hwins
  | append e crashAt => exact happend e crashAt rfl
  | sender k files t ht => exact kept_leaderStep hraft files t
  | snapshot k crashAt pc hpc => exact kept_snapshotStep hraft pc

/-- A server that runs a section, to its end or to a crash. -/
theorem kept_settle {n : Node} {o : Outcome} {crashAt : Option ℕ}
    (hsaved : ∀ st, n.saved = some st → RaftLock.Kept K st) (ho : o.Kept K) :
    ((n.settle o crashAt).up = true → RaftLock.Kept K (n.settle o crashAt).raft) ∧
    ∀ st, (n.settle o crashAt).saved = some st → RaftLock.Kept K st := by
  have heffects : ∀ es : List Effect, (∀ x ∈ es, x.Kept K) → ∀ n : Node,
      (∀ st, n.saved = some st → RaftLock.Kept K st) →
      ∀ st, (es.foldl Node.perform n).saved = some st → RaftLock.Kept K st := by
    intro es
    induction es with
    | nil => exact fun _ n hn => hn
    | cons x es ih =>
        intro hes n hn
        refine ih (fun y hy => hes y (List.mem_cons_of_mem x hy)) _ fun st hst => ?_
        cases x with
        | save st' =>
            simp only [Node.perform, Option.some.injEq] at hst
            exact hst ▸ hes _ (List.mem_cons_self)
        | _ => exact hn st hst
  refine ⟨fun hup => ?_, fun st hst => ?_⟩
  · obtain ⟨hf, hraft, -⟩ := Node.settle_up hup
    rw [hraft]
    exact ho.raft hf
  · refine heffects (Node.performed o crashAt) (fun x hx => ho.effects x ?_) n hsaved st ?_
    · cases crashAt with
      | none => exact hx
      | some k => exact List.mem_of_mem_take hx
    · unfold Node.settle at hst
      simp only at hst
      split_ifs at hst <;> exact hst

theorem Kept.exec (h : c.Kept K) (hg : g.elects K) {x : Action} (hok : g.allows c x)
    (hx : c.exec x = some c') (happend : ∀ s e crashAt, x = .append s e crashAt →
      (appendEntry (c.nodes s).raft e).Kept K) : c'.Kept K := by
  have hnode : ∀ s, ((c'.nodes s).up = true → RaftLock.Kept K (c'.nodes s).raft) ∧
      ∀ st, (c'.nodes s).saved = some st → RaftLock.Kept K st := by
    intro s
    rcases exec_node hok hx s with hstep | ⟨-, -, st, hst, heq⟩
    · generalize c'.nodes s = n' at hstep
      cases hstep with
      | idle _ hsame =>
          rw [hsame.up, hsame.raft, hsame.saved]
          exact ⟨h.raft s, h.saved s⟩
      | runs n₁ o crashAt hsame hup hruns =>
          refine kept_settle ?_ (h.runs hg hup hruns (happend s))
          rw [hsame.saved]
          exact h.saved s
      | crash => exact ⟨fun hup => absurd hup (by simp [Node.crash]), h.saved s⟩
    · rw [heq]
      exact kept_settle (h.saved s) (kept_serverRestore (h.saved s st hst))
  refine ⟨fun s => (hnode s).1, fun s => (hnode s).2, fun d hd q hq hn => ?_⟩
  rcases exec_net hok hx hd with hd | ⟨o, hup, hruns, hmem⟩
  · exact h.net d hd q hq hn
  · have hsent := (h.runs hg hup hruns (happend d.src)).effects _ hmem
    rw [hq] at hsent
    exact hsent hn

end Cluster

end RaftLock

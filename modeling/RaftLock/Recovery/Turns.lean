import RaftLock.Recovery.Cored
import RaftLock.Recovery.Replicas
import RaftLock.Safety.Provenance
import RaftLock.Transfer.Fields

/-!
One server's files through a step of the cluster.

As long as no snapshot is received, a section saves states whose logs start
where the log started before, sends, and commits entries; only threads in
`Raft_create_snapshot` touch the directories of snapshots. So the invariant of
`Recovery.Snapshots` about one server, its past and its files is kept by all
that happens to a server of the cluster (`StoreInv.settles`).
-/

namespace RaftLock

open Outcome Appends

/-! ### Sections -/

/-- The effect saves a log that starts where that of `r` does, commits an entry
that writes to the hundred files only, or leaves the disk alone. -/
def Effect.Plain (r : RaftState) : Effect → Prop
  | .save st => st.startLogIndex = r.startLogIndex
  | .commit _ e => e.Numbered
  | .send _ _ | .spawnLeaderThreads _ => True
  | _ => False

section Sections

variable {r r' : RaftState} {packet : Packet} {addr : Server} {es : List Effect}
  {K : LogEntry → Prop}

theorem Effect.Plain.aside {x : Effect} (h : x.Plain r) : x.Aside := by
  cases x with
  | save | commit | send | spawnLeaderThreads => trivial
  | _ => exact absurd h id

/-- What a handler commits is from the log or from the packet. -/
theorem Turn.kept {i : ℤ} {e : LogEntry} (ht : Turn r packet i e) (h : Kept K r)
    (hq : ∀ q, packet = .append q → q.entriesN ≠ 0 → K q.entry.core) : K e.core := by
  cases packet with
  | append q =>
      cases ht with
      | heartbeat q i e hterm hc hn hlo hhi he => exact h i e he
      | stored q i e hterm hc hn hlow hlo hhi hhi' he =>
          have hlt : q.prevLogIndex < r.logCount := by
            unfold consistent at hc
            push Not at hc
            exact hc.2.1
          rcases getLog_stored hlt hhi' he with ⟨-, rfl⟩ | ⟨-, he⟩
          · exact hq q rfl hn
          · exact h i e he
  | response q =>
      obtain ⟨-, -, x, hx, hcore⟩ := ht.quorate
      rw [hcore]
      exact h i x hx
  | vote q => cases ht
  | installSnapshot q => cases ht

/-- The state a handler goes on from, and its own part of the effects: those of
a handler that runs to its end, or turns of the commit loop. -/
theorem handlePacket_effects (r : RaftState) (addr : Server) (packet : Packet) :
    ∃ pre es, Arrives r packet pre ∧ (handlePacket r addr packet).effects = pre ++ es ∧
      ((∃ r', Handled (arrived r packet) addr packet r' es) ∨
        ∀ x ∈ es, ∃ i e, x = .commit i e ∧ Turn (arrived r packet) packet i e) := by
  by_cases hlate : r.currentTerm < packet.term ∧ ∃ q, packet = .response q
  · obtain ⟨hlt, q, rfl⟩ := hlate
    refine ⟨_, [], .later hlt, ?_, Or.inr (by simp)⟩
    rw [handleResponse_later hlt, List.append_nil]
  · have hreq : packet.term ≤ r.currentTerm ∨ ∀ q, packet ≠ .response q := by
      by_cases hlt : r.currentTerm < packet.term
      · exact Or.inr fun q hq => hlate ⟨hlt, q, hq⟩
      · exact Or.inl (not_lt.mp hlt)
    obtain ⟨pre, hpre, heq⟩ := handlePacket_parts r addr packet hreq
    refine ⟨pre, _, hpre, by rw [heq], ?_⟩
    have hle := le_arrived r packet
    cases hf : (handlePacket (arrived r packet) addr packet).fault with
    | false => exact Or.inl ⟨_, handled hle hf⟩
    | true => exact Or.inr fun x hx => turn_of_fault hle hf hx

theorem Arrives.plain (h : Arrives r packet es) (hfree : r.installSnapshotId = -1) :
    ∀ x ∈ es, x.Plain r := by
  intro x hx
  have haside := h.aside x hx
  rcases h.mem hx with rfl | ⟨rfl, -⟩
  · exact absurd hfree haside
  · exact arrived_startLogIndex r packet

/-- A handler of a packet other than an InstallSnapshot request. -/
theorem Handled.plain (h : Handled r addr packet r' es)
    (hno : ∀ q, packet ≠ .installSnapshot q)
    (hcommit : ∀ i e, .commit i e ∈ es → e.Numbered) : ∀ x ∈ es, x.Plain r := by
  have hkeeps : ∀ x ∈ es, (∀ i e, x ≠ .commit i e) → x.Plain r := by
    intro x hx hnot
    cases h with
    | installRefused q | installChunk q | installDone q => exact absurd rfl (hno q)
    | voteRefused _ _ es _ hes =>
        rcases hes with rfl | rfl <;> simp [reply] at hx
        · exact hx ▸ trivial
        · rcases hx with rfl | rfl
          · rfl
          · trivial
    | heartbeat | entryStored =>
        rcases List.mem_append.mp hx with hx | hx
        · obtain ⟨t, -, rfl⟩ := List.mem_map.mp hx
          exact absurd rfl (hnot _ _)
        · simp only [reply, List.mem_cons, List.not_mem_nil, or_false] at hx
          rcases hx with rfl | rfl
          · rfl
          · trivial
    | entryCounted _ _ _ _ _ _ _ _ _ _ _ _ _ r' hr' =>
        rcases List.mem_append.mp hx with hx | hx
        · obtain ⟨t, -, rfl⟩ := List.mem_map.mp hx
          exact absurd rfl (hnot _ _)
        · obtain rfl := List.mem_singleton.mp hx
          exact hr' ▸ rfl
    | voteGranted | appendRefused =>
        simp only [reply, List.mem_cons, List.not_mem_nil, or_false] at hx
        rcases hx with rfl | rfl
        · rfl
        · trivial
    | voteDecided _ _ _ _ _ _ _ r' hr' =>
        simp only [List.mem_cons, List.not_mem_nil, or_false] at hx
        rcases hx with rfl | rfl
        · exact hr' ▸ rfl
        · trivial
    | installAnswered _ _ _ _ _ r' hr' =>
        obtain rfl := List.mem_singleton.mp hx
        exact hr' ▸ rfl
    | appendAnswered _ _ _ _ _ _ _ r' hr' =>
        obtain rfl := List.mem_singleton.mp hx
        exact hr' ▸ rfl
    | entryAnswered _ _ _ _ _ _ _ _ r' hr' =>
        obtain rfl := List.mem_singleton.mp hx
        exact hr' ▸ rfl
    | _ => exact absurd hx (by simp)
  intro x hx
  by_cases hx' : ∃ i e, x = .commit i e
  · obtain ⟨i, e, rfl⟩ := hx'
    exact hcommit i e hx
  · push Not at hx'
    exact hkeeps x hx hx'

theorem handlePacket_plain (hno : ∀ q, packet ≠ .installSnapshot q)
    (hfree : r.installSnapshotId = -1) (h : Kept LogEntry.Numbered r)
    (hq : ∀ q, packet = .append q → q.entriesN ≠ 0 → q.entry.core.Numbered) :
    ∀ x ∈ (handlePacket r addr packet).effects, x.Plain r := by
  obtain ⟨pre, es, hpre, heq, hown⟩ := handlePacket_effects r addr packet
  have hsame := arrived_startLogIndex r packet
  have harrived : Kept LogEntry.Numbered (arrived r packet) :=
    h.of_window (arrived_log r packet) hsame (arrived_logCount r packet)
  rw [heq]
  simp only [List.forall_mem_append]
  refine ⟨hpre.plain hfree, ?_⟩
  rcases hown with ⟨r', hh⟩ | hturns
  · intro x hx
    have hplain := hh.plain hno (fun i e hmem => (hh.turn hmem).kept harrived hq) x hx
    cases x with
    | save st => exact hplain.trans hsame
    | _ => exact hplain
  · intro x hx
    obtain ⟨i, e, rfl, ht⟩ := hturns x hx
    exact ht.kept harrived hq

/-- The sections of a server, those of the threads in `Raft_create_snapshot`
apart. -/
theorem Runs.plain {g : Guard} {c : Cluster} {s : Server} {x : Action} {o : Outcome}
    (h : Runs g c s r x o) (hx : ∀ k crashAt, x ≠ .snapshotThread s k crashAt)
    (hfree : r.installSnapshotId = -1) (hkept : Kept LogEntry.Numbered r)
    (hno : ∀ d ∈ c.net, ∀ q, d.packet ≠ .installSnapshot q)
    (hnet : ∀ d ∈ c.net, ∀ q, d.packet = .append q → q.entriesN ≠ 0 → q.entry.core.Numbered) :
    ∀ y ∈ o.effects, y.Plain r := by
  cases h with
  | elect x hx =>
      intro y hy
      rw [attemptToElect_eq] at hy
      rcases List.mem_cons.mp hy with rfl | hy
      · rfl
      · obtain ⟨i, -, rfl⟩ := List.mem_map.mp hy
        trivial
  | packet k crashAt d hd hs hg =>
      have hmem := List.mem_of_getElem? hd
      exact handlePacket_plain (hno d hmem) hfree hkept (hnet d hmem)
  | append e crashAt =>
      intro y hy
      rcases appendEntry_cases r e with heq | ⟨r', heq⟩ | ⟨r', heq, -, -, -, rfl⟩
      · rw [heq] at hy
        exact absurd hy (by simp [ret])
      · rw [heq] at hy
        exact absurd hy (by simp [die])
      · rw [heq] at hy
        obtain rfl := List.mem_singleton.mp hy
        rfl
  | sender k files t hg =>
      cases hf : (leaderStep r files t).1.fault with
      | true =>
          rw [leaderStep_fault hf]
          simp
      | false =>
          have hs := leaderStep_sends hf
          generalize (leaderStep r files t).1.effects = es at hs
          generalize (leaderStep r files t).1.raft = r' at hs
          generalize (leaderStep r files t).2 = pc at hs
          intro y hy
          cases hs with
          | stop | wait | giveUp | finish => exact absurd hy (by simp)
          | _ =>
              obtain rfl := List.mem_singleton.mp hy
              trivial
  | snapshot k crashAt pc hg => exact absurd rfl (hx k crashAt)

/-- Such a section moves no window and leaves the flag of a transfer alone. -/
theorem Runs.unshifted {g : Guard} {c : Cluster} {s : Server} {x : Action} {o : Outcome}
    (h : Runs g c s r x o) (hx : ∀ k crashAt, x ≠ .snapshotThread s k crashAt)
    (hno : ∀ d ∈ c.net, ∀ q, d.packet ≠ .installSnapshot q) (hf : o.fault = false) :
    o.raft.snapshotInProgress = r.snapshotInProgress ∧ o.raft.startLogIndex = r.startLogIndex := by
  cases h with
  | elect x hx => exact ⟨(attemptToElect_keeps r).flag, (attemptToElect_keeps r).start⟩
  | packet k crashAt d hd hs hg =>
      have ht := handlePacket_transfers hf
      have hflag := (arrived_transfer r d.packet).1
      have hstart := arrived_startLogIndex r d.packet
      have hplain := hno d (List.mem_of_getElem? hd)
      generalize (handlePacket r d.src d.packet).raft = r' at ht ⊢
      generalize arrived r d.packet = r₁ at ht hflag hstart
      generalize d.packet = packet at ht hplain
      cases ht with
      | keeps _ _ hkeeps => exact ⟨hkeeps.flag.trans hflag, hkeeps.start.trans hstart⟩
      | chunk q | done q => exact absurd rfl (hplain q)
  | append e crashAt => exact ⟨(appendEntry_keeps hf).flag, (appendEntry_keeps hf).start⟩
  | sender k files t hg => exact ⟨(leaderStep_keeps hf).flag, (leaderStep_keeps hf).start⟩
  | snapshot k crashAt pc hg => exact absurd rfl (hx k crashAt)

/-- Such a section is one of a run without snapshots. -/
theorem Runs.orderly {g : Guard} {c : Cluster} {s : Server} {x : Action} {o : Outcome}
    (h : Runs g c s r x o) (hx : ∀ k crashAt, x ≠ .snapshotThread s k crashAt)
    (hno : ∀ d ∈ c.net, ∀ q, d.packet ≠ .installSnapshot q)
    (hfwd : ∀ r d, g.packet c.commits r d → Forward r d) : Runs orderly c s r x o := by
  cases h with
  | elect x hx => exact .elect x hx
  | packet k crashAt d hd hs hg =>
      refine .packet k crashAt d hd hs ⟨hfwd _ _ hg, ?_⟩
      have hplain := hno d (List.mem_of_getElem? hd)
      obtain ⟨pk, hp⟩ : ∃ pk, d.packet = pk := ⟨_, rfl⟩
      cases pk with
      | installSnapshot q => exact absurd hp (hplain q)
      | _ => simp [Installs, hp]
  | append e crashAt => exact .append e crashAt
  | sender k files t hg => exact .sender k files t trivial
  | snapshot k crashAt pc hg => exact absurd rfl (hx k crashAt)

end Sections

/-! ### Effects -/

section Effects

variable {r : RaftState} {n : Node} {es : List Effect}

theorem Effect.Plain.perform {x : Effect} (h : x.Plain r) (hn : n.files.Numbered) :
    (n.perform x).files.Numbered ∧ ∀ d ≠ .main, (n.perform x).files d = n.files d := by
  cases x with
  | commit i e =>
      have hone : CommitsNumbered [.commit i e] := fun x hx => ⟨i, e, List.mem_singleton.mp hx, h⟩
      exact foldl_commit_files hone hn
  | save | send | spawnLeaderThreads => exact ⟨hn, fun _ _ => rfl⟩
  | _ => exact absurd h id

theorem foldl_plain (h : ∀ x ∈ es, x.Plain r) (hn : n.files.Numbered) :
    (es.foldl Node.perform n).files.Numbered ∧
      ∀ d ≠ .main, (es.foldl Node.perform n).files d = n.files d := by
  induction es generalizing n with
  | nil => exact ⟨hn, fun _ _ => rfl⟩
  | cons x es ih =>
      obtain ⟨hnum, hdirs⟩ := (h x List.mem_cons_self).perform hn
      obtain ⟨hnum', hdirs'⟩ := ih (fun y hy => h y (List.mem_cons_of_mem x hy)) hnum
      exact ⟨hnum', fun d hd => (hdirs' d hd).trans (hdirs d hd)⟩

/-- What is in the file `raft_state` was there before, or has been saved. -/
theorem mem_of_savedAfter {saved : Option RaftState} {st : RaftState}
    (hst : savedAfter es saved = some st) : saved = some st ∨ .save st ∈ es := by
  induction es using List.reverseRecOn with
  | nil => exact Or.inl hst
  | append_singleton es x ih =>
      rw [savedAfter_append] at hst
      cases x with
      | save st' =>
          obtain rfl := Option.some.inj hst
          exact Or.inr (by simp)
      | _ => exact (ih hst).imp id (List.mem_append_left _)

end Effects

/-! ### The invariant of one server -/

/-- What becomes of the threads: those there are stay and others may come that
have not called `Raft_create_snapshot` yet, or the process ends and none of
them was making a snapshot. -/
inductive CarriesOn (n n' : Node) : Prop
  | on (l : List SnapshotPc) (hup : n.up = true) (hon : n'.up = true)
      (hthreads : n'.snapshotThreads = n.snapshotThreads ++ l) (hl : ∀ pc ∈ l, pc = .check)
      (hflag : n'.raft.snapshotInProgress = n.raft.snapshotInProgress)
  | off (hoff : n'.up = false) (hnone : n'.snapshotThreads = [])
      (hidle : ∀ pc ∈ n.snapshotThreads, pc.building = none)

theorem CarriesOn.mem {n n' : Node} (h : CarriesOn n n') {pc : SnapshotPc}
    (hpc : pc ∈ n'.snapshotThreads) : pc ∈ n.snapshotThreads ∨ pc = .check := by
  cases h with
  | on l hup hon hthreads hl hflag =>
      rw [hthreads] at hpc
      exact (List.mem_append.mp hpc).imp id (hl pc)
  | off hoff hnone hidle =>
      rw [hnone] at hpc
      exact absurd hpc (by simp)

theorem CarriesOn.unbuilt {n n' : Node} (h : CarriesOn n n') {id : ℤ}
    (hfree : ∀ pc ∈ n'.snapshotThreads, pc.building ≠ some id) :
    ∀ pc ∈ n.snapshotThreads, pc.building ≠ some id := by
  intro pc hpc
  cases h with
  | on l hup hon hthreads hl hflag =>
      exact hfree pc (hthreads ▸ List.mem_append_left l hpc)
  | off hoff hnone hidle => simp [hidle pc hpc]

/-- A step in which no thread moves and no snapshot from the log's own on is
touched. -/
theorem StoreInv.settles {n n' : Node} {past : List LogEntry} (h : StoreInv ⟨n, past⟩)
    (he : Extends n.raft n'.raft) (hsound : Sound n'.raft)
    (hsaved : ∀ st, n'.saved = some st → Sound st ∧ st.startLogIndex = n'.raft.startLogIndex)
    (hnum : n'.files.Numbered)
    (hfiles : ∀ id, n.raft.startLogIndex ≤ id → n'.files (.snapshot id) = n.files (.snapshot id))
    (hthreads : CarriesOn n n') : StoreInv ⟨n', past⟩ where
  past := h.past.trans he.start.symm
  sound := hsound
  saved := hsaved
  numbered := h.numbered
  files := hnum
  snapshot hne := by
    have hstart := he.start
    simp only [hstart] at hne ⊢
    exact (hfiles _ le_rfl).trans (h.snapshot hne)
  free id hid hfree := by
    have hstart := he.start
    simp only [hstart] at hid
    exact (hfiles id hid.le).trans (h.free id hid (hthreads.unbuilt hfree))
  building hup := by
    cases hthreads with
    | on l hup' hon hthreads hl hflag =>
        have hnone : l.countP (fun pc => pc.building.isSome) = 0 :=
          List.countP_eq_zero.mpr fun pc hpc => by simp [hl pc hpc, SnapshotPc.building]
        simp only [hthreads, hflag, List.countP_append, hnone, Nat.add_zero]
        exact h.building hup'
    | off hoff hnone hidle => exact absurd (hup.symm.trans hoff) (by simp)
  progress pc hpc := by
    rcases hthreads.mem hpc with hold | rfl
    · exact (h.progress pc hold).extends he hfiles
    · trivial
  down hdown := by
    cases hthreads with
    | on l hup' hon hthreads hl hflag => exact absurd (hon.symm.trans hdown) (by simp)
    | off hoff hnone hidle => exact hnone

/-! ### What happens to a server -/

/-- A step of the cluster, for the state and the files of one server. -/
inductive StoreTurn (g : Guard) (c : Cluster) (s : Server) (n : Node) : Node → Prop
  | idle (n' : Node) (hsame : n.Same n') (hthreads : n'.snapshotThreads = n.snapshotThreads) :
      StoreTurn g c s n n'
  | crash (hup : n.up = true) : StoreTurn g c s n n.crash
  | runs (x : Action) (n₁ : Node) (o : Outcome) (crashAt : Option ℕ) (l : List SnapshotPc)
      (hsame : n.Same n₁) (hup : n.up = true)
      (hthreads : n₁.snapshotThreads = n.snapshotThreads ++ l)
      (hl : ∀ pc ∈ l, pc = .check) (hx : ∀ k crashAt, x ≠ .snapshotThread s k crashAt)
      (hruns : Runs g c s n.raft x o) : StoreTurn g c s n (n₁.settle o crashAt)
  | thread (k : ℕ) (pc : SnapshotPc) (crashAt : Option ℕ) (hup : n.up = true)
      (hk : n.snapshotThreads[k]? = some pc) :
      StoreTurn g c s n ({ n with
        snapshotThreads := List.replaceAt n.snapshotThreads k (snapshotStep n.raft pc).2 }.settle
          (snapshotStep n.raft pc).1 crashAt)
  | restart (st : RaftState) (hdown : n.up = false) (hsaved : n.saved = some st) :
      StoreTurn g c s n ((n.reloaded st).settle (serverRestore st) none)

namespace Cluster

variable {g : Guard} {c c' : Cluster}

theorem storeTurn_refl (s : Server) : StoreTurn g c s (c.nodes s) (c.nodes s) :=
  .idle _ (.refl _) rfl

theorem storeTurn_update {v s : Server} {n : Node} (hn : StoreTurn g c v (c.nodes v) n) :
    StoreTurn g c s (c.nodes s) (if s = v then n else c.nodes s) := by
  split
  · rename_i h
    exact h ▸ hn
  · exact storeTurn_refl s

theorem exec_store {x : Action} (hok : g.allows c x) (hx : c.exec x = some c') (s : Server) :
    StoreTurn g c s (c.nodes s) (c'.nodes s) := by
  cases x with
  | timeout v =>
      simp only [exec] at hx
      split_ifs at hx
      obtain rfl := Option.some.inj hx
      simp only [Function.update_apply]
      exact storeTurn_update (.idle _ ⟨rfl, rfl, rfl, rfl, rfl⟩ rfl)
  | elect v crashAt =>
      simp only [exec] at hx
      split_ifs at hx with hup
      obtain rfl := Option.some.inj hx
      rw [settle_nodes]
      exact storeTurn_update (.runs _ _ _ crashAt [] ⟨rfl, rfl, rfl, rfl, rfl⟩ hup.1 (by simp)
        (by simp) (by simp) (.elect (.elect v crashAt) rfl))
  | retry v crashAt =>
      simp only [exec] at hx
      split_ifs at hx with hup
      obtain rfl := Option.some.inj hx
      rw [settle_nodes]
      exact storeTurn_update (.runs _ _ _ crashAt [] (.refl _) hup.1 (by simp) (by simp) (by simp)
        (.elect (.retry v crashAt) rfl))
  | deliver k crashAt =>
      simp only [exec] at hx
      cases hd : c.net[k]? with
      | none => simp [hd] at hx
      | some d =>
          simp only [hd] at hx
          split_ifs at hx with hup
          obtain rfl := Option.some.inj hx
          rw [settle_nodes]
          exact storeTurn_update (.runs _ _ _ crashAt [.check] ⟨rfl, rfl, rfl, rfl, rfl⟩ hup rfl
            (by simp) (by simp) (.packet k crashAt d hd rfl (hok d hd)))
  | drop k =>
      simp only [exec] at hx
      split_ifs at hx
      obtain rfl := Option.some.inj hx
      exact storeTurn_refl s
  | append v e crashAt =>
      simp only [exec] at hx
      split_ifs at hx with hup
      obtain rfl := Option.some.inj hx
      rw [settle_nodes]
      exact storeTurn_update (.runs _ _ _ crashAt [] (.refl _) hup (by simp) (by simp) (by simp)
        (.append e crashAt))
  | leaderThread v k =>
      simp only [exec] at hx
      split at hx
      · rename_i t hup ht
        obtain rfl := Option.some.inj hx
        rw [settle_nodes]
        exact storeTurn_update (.runs _ _ _ none [] ⟨rfl, rfl, rfl, rfl, rfl⟩ hup (by simp)
          (by simp) (by simp) (.sender k _ t (hok t ht)))
      · exact absurd hx (by simp)
  | snapshotThread v k crashAt =>
      simp only [exec] at hx
      split at hx
      · rename_i pc hup hpc
        obtain rfl := Option.some.inj hx
        rw [settle_nodes]
        exact storeTurn_update (.thread k pc crashAt hup hpc)
      · exact absurd hx (by simp)
  | crash v =>
      simp only [exec] at hx
      split_ifs at hx with hup
      obtain rfl := Option.some.inj hx
      simp only [Function.update_apply]
      exact storeTurn_update (.crash hup)
  | restart v =>
      simp only [exec] at hx
      split at hx
      · rename_i st hdown hsaved
        obtain rfl := Option.some.inj hx
        rw [settle_nodes]
        exact storeTurn_update (.restart st hdown hsaved)
      · exact absurd hx (by simp)

end Cluster

end RaftLock

import RaftLock.Raft.World

/-!
Every step of the cluster is a path of steps of the world (`Refines.exec`).

A section that runs to its end is one step, after the step in which a later
term is taken over. A section cut off by a crash is, by the order of its
effects (`Shaped`), either that step with some answers lost and a crash after
it, or no step: then the turns of the commit loop it has made remain, and the
crash.
-/

namespace RaftLock

open Outcome

/-! ### A server and its view -/

namespace Node

def view (n : Node) : RaftState := if n.up then n.raft else forget (n.saved.getD n.raft)

end Node

/-- The argument of a call of `Raft_create_snapshot` past its first section. -/
def SnapshotPc.pending : SnapshotPc → Option ℤ
  | .opened n | .copy n _ _ _ | .entries n _ | .add n _ _ _ | .shift n _ => some n
  | _ => none

structure NodeRefines (n : Node) (r : RaftState) (threads : List LeaderThread)
    (opened : List ℤ) : Prop where
  view : r = n.view
  threads : threads = n.leaderThreads
  opened : ∀ pc ∈ n.snapshotThreads, ∀ k, pc.pending = some k → k ∈ opened
  synced : n.up = true → ∀ st, n.saved = some st → Agrees st n.raft

structure Refines (c : Cluster) (w : World) : Prop where
  node : ∀ s, NodeRefines (c.nodes s) (w.raft s) (w.threads s) (w.opened s)
  net : w.net = c.net
  commits : w.commits = c.commits

theorem refines_init (config : Config) : Refines (Cluster.init config) (World.init config) where
  node s :=
    { view := rfl
      threads := rfl
      opened := by simp [Cluster.init, Node.init]
      synced := by simp [Cluster.init, Node.init] }
  net := rfl
  commits := rfl

/-- The file `raft_state` after `es`. -/
def savedAfter (es : List Effect) (saved : Option RaftState) : Option RaftState :=
  es.foldl (fun saved x => match x with | .save st => some st | _ => saved) saved

namespace Node

/-- What performing effects leaves alone, and what it adds up to. -/
theorem foldl_perform (es : List Effect) (n : Node) :
    (es.foldl perform n).raft = n.raft ∧ (es.foldl perform n).up = n.up ∧
    (es.foldl perform n).snapshotThreads = n.snapshotThreads ∧
    (es.foldl perform n).leaderThreads = n.leaderThreads ++ spawned es ∧
    (es.foldl perform n).saved = savedAfter es n.saved := by
  induction es generalizing n with
  | nil => simp [spawned, savedAfter]
  | cons x es ih =>
      obtain ⟨h1, h2, h3, h4, h5⟩ := ih (n.perform x)
      simp only [List.foldl_cons, h1, h2, h3, h4, h5]
      cases x <;> simp [perform, spawned, savedAfter]

end Node

theorem savedAfter_append (es es' : List Effect) (saved : Option RaftState) :
    savedAfter (es ++ es') saved = savedAfter es' (savedAfter es saved) := by
  simp [savedAfter, List.foldl_append]

theorem savedAfter_of_forall {es : List Effect} (h : ∀ x ∈ es, ∀ st, x ≠ .save st)
    (saved : Option RaftState) : savedAfter es saved = saved := by
  induction es with
  | nil => rfl
  | cons x es ih =>
      have hx : savedAfter (x :: es) saved = savedAfter es saved := by
        cases x with
        | save st => exact absurd rfl (h _ (by simp) st)
        | _ => rfl
      rw [hx]
      exact ih fun y hy => h y (List.mem_cons_of_mem _ hy)

theorem savedAfter_quiet {es : List Effect} (h : ∀ x ∈ es, x.isQuiet)
    (saved : Option RaftState) : savedAfter es saved = saved := by
  refine savedAfter_of_forall (fun x hx st hst => ?_) saved
  subst hst
  exact h _ hx

theorem savedAfter_late {es : List Effect} (h : ∀ x ∈ es, x.isLate)
    (saved : Option RaftState) : savedAfter es saved = saved := by
  refine savedAfter_of_forall (fun x hx st hst => ?_) saved
  subst hst
  exact h _ hx

theorem filterMap_committedBy_late {es : List Effect} (h : ∀ x ∈ es, x.isLate) (s : Server) :
    es.filterMap (Cluster.committedBy s) = [] := by
  refine List.filterMap_eq_nil_iff.mpr fun x hx => ?_
  cases x with
  | commit i e => exact absurd (h _ hx) (by simp [Effect.isLate])
  | _ => rfl

theorem filterMap_sentBy_quiet {es : List Effect} (h : ∀ x ∈ es, x.isQuiet) (s : Server)
    (answers : Option Packet) : es.filterMap (Cluster.sentBy s answers) = [] := by
  refine List.filterMap_eq_nil_iff.mpr fun x hx => ?_
  cases x with
  | send dst packet => exact absurd (h _ hx) (by simp [Effect.isQuiet])
  | _ => rfl

/-- The three places a crash can fall in: after the save, before it, or in a
section that changes nothing that lasts. -/
theorem Shaped.crash {r r' : RaftState} {es : List Effect} (h : Shaped r r' es) (k : ℕ)
    (saved : Option RaftState) (s : Server) :
    (∃ st, savedAfter (es.take k) saved = some st ∧ Agrees st r' ∧
      (es.take k).filterMap (Cluster.committedBy s) = es.filterMap (Cluster.committedBy s)) ∨
    (savedAfter (es.take k) saved = saved ∧ ∀ x ∈ es.take k, x.isQuiet) ∨
    (savedAfter (es.take k) saved = saved ∧ Agrees r' r ∧ ∀ x ∈ es, x.isLate) := by
  cases h with
  | unchanged hr hes =>
      refine Or.inr (Or.inr ⟨savedAfter_late (fun x hx => hes x ?_) saved, hr, hes⟩)
      exact List.mem_of_mem_take hx
  | saved pre post st hes hpre hpost hst =>
      subst hes
      rcases Nat.lt_or_ge pre.length k with hk | hk
      · obtain ⟨m, hm⟩ := Nat.exists_eq_add_of_lt hk
        have htake : (pre ++ .save st :: post).take k = pre ++ .save st :: post.take m := by
          rw [List.take_append, List.take_of_length_le (by omega),
            show k - pre.length = m + 1 by omega, List.take_succ_cons]
        have hlate : ∀ x ∈ post.take m, x.isLate :=
          fun x hx => hpost x (List.mem_of_mem_take hx)
        refine Or.inl ⟨st, ?_, hst, ?_⟩
        · rw [htake, savedAfter_append]
          exact savedAfter_late hlate (some st)
        · rw [htake]
          simp only [List.filterMap_append, List.filterMap_cons, Cluster.committedBy,
            filterMap_committedBy_late hlate, filterMap_committedBy_late hpost]
      · have hquiet : ∀ x ∈ (pre ++ .save st :: post).take k, x.isQuiet := by
          rw [List.take_append_of_le_length hk]
          exact fun x hx => hpre x (List.mem_of_mem_take hx)
        exact Or.inr (Or.inl ⟨savedAfter_quiet hquiet saved, hquiet⟩)

/-- After a whole section the file agrees with the memory. -/
theorem Shaped.synced {r r' : RaftState} {es : List Effect} (h : Shaped r r' es)
    {saved : Option RaftState} (hs : ∀ st, saved = some st → Agrees st r) :
    ∀ st, savedAfter es saved = some st → Agrees st r' := by
  intro st hst
  cases h with
  | unchanged hr hes =>
      rw [savedAfter_late hes] at hst
      exact (hs st hst).trans hr.symm
  | saved pre post st' hes hpre hpost hst' =>
      subst hes
      rw [savedAfter_append] at hst
      have hlast : savedAfter (.save st' :: post) (savedAfter pre saved) = some st' :=
        savedAfter_late hpost (some st')
      rw [hlast, Option.some.injEq] at hst
      exact hst ▸ hst'

theorem NodeRefines.settle {n : Node} {o : Outcome} {opened : List ℤ} (hup : n.up = true)
    (hopened : ∀ pc ∈ n.snapshotThreads, ∀ k, pc.pending = some k → k ∈ opened)
    (hsynced : ∀ st, savedAfter o.effects n.saved = some st → Agrees st o.raft)
    (hf : o.fault = false) :
    NodeRefines (n.settle o none) o.raft (n.leaderThreads ++ spawned o.effects) opened := by
  obtain ⟨h1, h2, h3, h4, h5⟩ := Node.foldl_perform o.effects n
  have heq : n.settle o none = { o.effects.foldl Node.perform n with raft := o.raft } := by
    simp [Node.settle, Node.performed, hf]
  rw [heq]
  refine ⟨?_, h4.symm, ?_, ?_⟩
  · simp [Node.view, h2, hup]
  · rw [h3]
    exact hopened
  · intro _
    rw [h5]
    exact hsynced

theorem NodeRefines.crash (n : Node) (opened : List ℤ) :
    NodeRefines n.crash (forget (n.saved.getD n.raft)) [] opened where
  view := by simp [Node.view, Node.crash]
  threads := rfl
  opened := by simp [Node.crash]
  synced := by simp [Node.crash]

theorem NodeRefines.raft_eq {n : Node} {r : RaftState} {threads : List LeaderThread}
    {opened : List ℤ} (h : NodeRefines n r threads opened) (hup : n.up = true) : r = n.raft := by
  rw [h.view, Node.view, if_pos hup]

/-! ### Every step of the cluster is a path of the world -/

section Paths

variable {g : Guard} {c : Cluster} {w : World}

/-- One server changes. -/
theorem Refines.update (h : Refines c w) {s : Server} {n : Node} {r : RaftState}
    {threads : List LeaderThread} {opened : List ℤ} (hn : NodeRefines n r threads opened)
    (net : List Datagram) (commits : List (Server × ℤ × LogEntry)) :
    Refines ⟨Function.update c.nodes s n, net, commits⟩
      ⟨Function.update w.raft s r, Function.update w.threads s threads,
        Function.update w.opened s opened, net, commits⟩ where
  node v := by
    by_cases hv : v = s
    · subst hv
      simpa using hn
    · simpa [hv] using h.node v
  net := rfl
  commits := rfl

/-- A server crashes in a cluster whose other servers are as in `w`, after a
path to a world in which the server is what its file says. -/
theorem Refines.crash_path (h : Refines c w) {s : Server} {n : Node} {w₁ : World}
    (hpath : World.Path g w w₁) (hraft : ∀ v, v ≠ s → w₁.raft v = w.raft v)
    (hthreads : ∀ v, v ≠ s → w₁.threads v = w.threads v) (hopened : w₁.opened = w.opened)
    (hagree : Agrees (n.saved.getD n.raft) (w₁.raft s)) (net : List Datagram)
    (hnet : net.Sublist w₁.net) :
    ∃ w', World.Path g w w' ∧ Refines ⟨Function.update c.nodes s n.crash, net, w₁.commits⟩ w' := by
  have hlose : World.Step g w₁ none { w₁ with net } := .lose net hnet
  have hcrash : World.Step g { w₁ with net } none
      { w₁ with
        net
        raft := Function.update w₁.raft s (forget (n.saved.getD n.raft))
        threads := Function.update w₁.threads s [] } := .crash s _ hagree
  refine ⟨_, (hpath.tail ⟨_, hlose⟩).tail ⟨_, hcrash⟩, ?_⟩
  have hup := h.update (s := s) (NodeRefines.crash n (w.opened s)) net w₁.commits
  refine ⟨fun v => ?_, rfl, rfl⟩
  have hv := hup.node v
  by_cases hvs : v = s
  · subst hvs
    simpa [hopened] using hv
  · simpa [hvs, hopened, hraft v hvs, hthreads v hvs] using hv

/-- The turns of the commit loop among effects. -/
def turnsOf (es : List Effect) : List (ℤ × LogEntry) :=
  es.filterMap fun
    | .commit i e => some (i, e)
    | _ => none

theorem filterMap_committedBy (es : List Effect) (s : Server) :
    es.filterMap (Cluster.committedBy s) = (turnsOf es).map fun x => (s, x) := by
  rw [turnsOf, List.map_filterMap]
  refine List.filterMap_congr fun x _ => ?_
  cases x <;> rfl

theorem mem_turnsOf {es : List Effect} {x : ℤ × LogEntry} (h : x ∈ turnsOf es) :
    .commit x.1 x.2 ∈ es := by
  obtain ⟨y, hy, hyx⟩ := List.mem_filterMap.mp h
  cases y with
  | commit i e =>
      simp only [Option.some.injEq] at hyx
      exact hyx ▸ hy
  | _ => exact absurd hyx (by simp)

theorem settle_of_crash {n : Node} {o : Outcome} {crashAt : Option ℕ}
    (h : ¬ (crashAt = none ∧ o.fault = false)) :
    n.settle o crashAt = ((Node.performed o crashAt).foldl Node.perform n).crash := by
  simp only [Node.settle, if_neg h]

theorem Refines.settle (h : Refines c w) {s : Server} {n : Node} {o : Outcome}
    (net : List Datagram) (hup : n.up = true)
    (hsynced : ∀ st, savedAfter o.effects n.saved = some st → Agrees st o.raft)
    (hopened : ∀ pc ∈ n.snapshotThreads, ∀ k, pc.pending = some k → k ∈ w.opened s)
    (hf : o.fault = false) {threads : List LeaderThread}
    (hthreads : n.leaderThreads = threads) (answers : Option Packet) :
    Refines ({ c with net }.settle s n o none answers)
      ({ w with net, threads := Function.update w.threads s threads }.settle s o.raft o.effects
        answers) := by
  have hn := NodeRefines.settle hup hopened hsynced hf
  have := h.update (s := s) hn (net ++ o.effects.filterMap (Cluster.sentBy s answers))
    (c.commits ++ o.effects.filterMap (Cluster.committedBy s))
  rw [hthreads, Function.update_eq_self] at this
  unfold World.settle Cluster.settle
  simpa [Node.performed, h.commits] using this

theorem Refines.synced (h : Refines c w) {s : Server} (hup : (c.nodes s).up = true) :
    ∀ st, (c.nodes s).saved = some st → Agrees st (w.raft s) := by
  rw [(h.node s).raft_eq hup]
  exact (h.node s).synced hup

/-- What the file of a running server holds, or the memory when there is no
file yet. -/
theorem Refines.saved_agrees (h : Refines c w) {s : Server} (hup : (c.nodes s).up = true) :
    Agrees ((c.nodes s).saved.getD (c.nodes s).raft) (w.raft s) := by
  cases hs : (c.nodes s).saved with
  | none =>
      rw [(h.node s).raft_eq hup]
      exact Agrees.refl _
  | some st => exact h.synced hup st hs

/-- A section that commits nothing, crashed or not. -/
theorem Refines.section_path (h : Refines c w) {s : Server} (hup : (c.nodes s).up = true)
    {n : Node} (hn : n.raft = (c.nodes s).raft ∧ n.saved = (c.nodes s).saved ∧
      n.leaderThreads = (c.nodes s).leaderThreads ∧ n.up = true)
    (hopened : ∀ pc ∈ n.snapshotThreads, ∀ k, pc.pending = some k → k ∈ w.opened s)
    {o : Outcome} (hsh : o.fault = false → Shaped (w.raft s) o.raft o.effects)
    (hdead : o.fault = true → o.effects = [])
    (hturns : ∀ i e, .commit i e ∉ o.effects)
    (hstep : o.fault = false → ∃ v, World.Step g w v (w.settle s o.raft o.effects none))
    (crashAt : Option ℕ) :
    ∃ w', World.Path g w w' ∧ Refines (c.settle s n o crashAt none) w' := by
  obtain ⟨hraft, hsaved, hthreads, hnup⟩ := hn
  by_cases hwhole : crashAt = none ∧ o.fault = false
  · obtain ⟨rfl, hf⟩ := hwhole
    refine ⟨_, .single (hstep hf), ?_⟩
    have hsync := (hsh hf).synced (h.synced hup)
    rw [← hsaved] at hsync
    have hc : ({ c with net := w.net } : Cluster) = c := by rw [h.net]
    have := h.settle w.net hnup hsync hopened hf hthreads none
    rw [← (h.node s).threads, hc, Function.update_eq_self] at this
    exact this
  -- the file and the net after the effects performed before the crash
  obtain ⟨h1, -, -, -, h5⟩ := Node.foldl_perform (Node.performed o crashAt) n
  have hsub : (Node.performed o crashAt).Sublist o.effects := by
    cases crashAt with
    | none => exact List.Sublist.refl _
    | some k => exact List.take_sublist k _
  have hnone : ∀ l : List Effect, l.Sublist o.effects →
      l.filterMap (Cluster.committedBy s) = [] := by
    intro l hl
    refine List.filterMap_eq_nil_iff.mpr fun x hx => ?_
    cases x with
    | commit i e => exact absurd (hl.subset hx) (hturns i e)
    | _ => rfl
  have hgoal : ∀ w₁, World.Path g w w₁ → (∀ v, v ≠ s → w₁.raft v = w.raft v) →
      (∀ v, v ≠ s → w₁.threads v = w.threads v) → w₁.opened = w.opened →
      w₁.commits = w.commits →
      Agrees ((savedAfter (Node.performed o crashAt) n.saved).getD n.raft) (w₁.raft s) →
      (c.net ++ (Node.performed o crashAt).filterMap (Cluster.sentBy s none)).Sublist w₁.net →
      ∃ w', World.Path g w w' ∧ Refines (c.settle s n o crashAt none) w' := by
    intro w₁ hpath hr ht ho hc hagree hnet
    rw [← h5, ← h1] at hagree
    have := h.crash_path hpath hr ht ho hagree _ hnet
    unfold Cluster.settle
    rw [settle_of_crash hwhole, hnone _ hsub, List.append_nil, ← h.commits, ← hc]
    exact this
  have hstay : Agrees (n.saved.getD n.raft) (w.raft s) := by
    rw [hsaved, hraft]
    exact h.saved_agrees hup
  by_cases hf : o.fault = false
  · have hfull := hstep hf
    have hraft' : ∀ v, v ≠ s → (w.settle s o.raft o.effects none).raft v = w.raft v :=
      fun v hv => by simp [World.settle, hv]
    have hthreads' : ∀ v, v ≠ s → (w.settle s o.raft o.effects none).threads v = w.threads v :=
      fun v hv => by simp [World.settle, hv]
    have hcommits' : (w.settle s o.raft o.effects none).commits = w.commits := by
      simp [World.settle, hnone o.effects (List.Sublist.refl _)]
    have hnet' : (c.net ++ (Node.performed o crashAt).filterMap
        (Cluster.sentBy s none)).Sublist (w.settle s o.raft o.effects none).net := by
      simp only [World.settle, h.net]
      exact (List.Sublist.refl _).append (hsub.filterMap _)
    cases crashAt with
    | none => exact absurd ⟨rfl, hf⟩ hwhole
    | some k =>
        rcases (hsh hf).crash k n.saved s with ⟨st, hst, hagree, -⟩ | ⟨hst, hquiet⟩ |
          ⟨hst, hagree, -⟩
        · refine hgoal _ (.single hfull) hraft' hthreads' rfl hcommits' ?_ hnet'
          simpa [Node.performed, hst, World.settle] using hagree
        · refine hgoal w .refl (fun _ _ => rfl) (fun _ _ => rfl) rfl rfl ?_ ?_
          · simpa [Node.performed, hst] using hstay
          · simp [Node.performed, filterMap_sentBy_quiet hquiet, h.net]
        · refine hgoal _ (.single hfull) hraft' hthreads' rfl hcommits' ?_ hnet'
          simpa [Node.performed, hst, World.settle] using hstay.trans hagree.symm
  · have hnil : Node.performed o crashAt = [] :=
      List.sublist_nil.mp (hdead (by simpa using hf) ▸ hsub)
    refine hgoal w .refl (fun _ _ => rfl) (fun _ _ => rfl) rfl rfl ?_ ?_
    · simpa [hnil, savedAfter] using hstay
    · simp [hnil, h.net]

theorem attemptToElect_shaped (r : RaftState) :
    Shaped r (attemptToElect r).raft (attemptToElect r).effects :=
  .saved [] _ _ rfl (by simp) (by simp [emit, Effect.isLate]) (Agrees.refl _)

theorem appendEntry_cases (r : RaftState) (e : LogEntry) :
    appendEntry r e = ret r ∨ (∃ r', appendEntry r e = die r') ∨
    ∃ r', appendEntry r e = saveState r' ∧ r.state = .leader ∧
      r.startLogIndex ≤ r.logCount ∧ r.logCount - r.startLogIndex < (logSize : ℤ) ∧
      r' = { r with
        logCount := r.logCount + 1
        log := Function.update r.log (r.logCount - r.startLogIndex).toNat
          { e with term := r.currentTerm, nServersReplicated := 1, type := .clientLog } } := by
  unfold appendEntry
  by_cases hno : r.state ≠ .leader ∨ r.logCount = r.startLogIndex + (logSize : ℤ)
  · rw [if_pos hno]
    exact Or.inl rfl
  rw [if_neg hno]
  push Not at hno
  cases hm : modifyLog { r with logCount := r.logCount + 1 } (r.logCount + 1 - 1) fun _ =>
      { e with term := r.currentTerm, nServersReplicated := 1, type := .clientLog } with
  | none =>
      simp only [hm]
      exact Or.inr (Or.inl ⟨_, rfl⟩)
  | some r' =>
      simp only [hm]
      obtain ⟨hlo, -, hroom, rfl⟩ := modifyLog_some hm
      rw [add_sub_cancel_right] at hlo hroom ⊢
      exact Or.inr (Or.inr ⟨_, rfl, hno.1, hlo, hroom, rfl⟩)

theorem appendEntry_ok {r : RaftState} {e : LogEntry} (hf : (appendEntry r e).fault = false) :
    appendEntry r e = ret r ∨
    ∃ r', appendEntry r e = saveState r' ∧ r.state = .leader ∧
      r.startLogIndex ≤ r.logCount ∧ r.logCount - r.startLogIndex < (logSize : ℤ) ∧
      r' = { r with
        logCount := r.logCount + 1
        log := Function.update r.log (r.logCount - r.startLogIndex).toNat
          { e with term := r.currentTerm, nServersReplicated := 1, type := .clientLog } } := by
  rcases appendEntry_cases r e with heq | ⟨r', heq⟩ | hstored
  · exact Or.inl heq
  · rw [heq] at hf
    exact absurd hf (by simp [die])
  · exact Or.inr hstored

theorem Refines.elect (h : Refines c w) {s : Server} (hup : (c.nodes s).up = true) {n : Node}
    (hn : n = (c.nodes s) ∨ n = { c.nodes s with timedOut := false }) (crashAt : Option ℕ) :
    ∃ w', World.Path g w w' ∧
      Refines (c.settle s n (attemptToElect (c.nodes s).raft) crashAt none) w' := by
  have hraft := (h.node s).raft_eq hup
  rw [← hraft]
  refine h.section_path hup ?_ ?_ (fun _ => attemptToElect_shaped _) ?_ ?_
    (fun _ => ⟨_, .campaign s⟩) crashAt
  · rcases hn with rfl | rfl <;> exact ⟨rfl, rfl, rfl, hup⟩
  · rcases hn with rfl | rfl <;> exact (h.node s).opened
  · intro hf
    exact absurd hf (by simp [attemptToElect, saveState, emit, Outcome.andThen])
  · intro i e
    simp [attemptToElect, saveState, emit, Outcome.andThen]

theorem Refines.append (h : Refines c w) {s : Server} (hup : (c.nodes s).up = true)
    (e : LogEntry) (crashAt : Option ℕ) :
    ∃ w', World.Path g w w' ∧
      Refines (c.settle s (c.nodes s) (appendEntry (c.nodes s).raft e) crashAt none) w' := by
  have hraft := (h.node s).raft_eq hup
  rw [← hraft]
  refine h.section_path hup ⟨rfl, rfl, rfl, hup⟩ (h.node s).opened ?_ ?_ ?_
    (fun hf => ⟨_, .append s e hf⟩) crashAt
  all_goals rcases appendEntry_cases (w.raft s) e with heq | ⟨r', heq⟩ | ⟨r', heq, -⟩
  all_goals rw [heq]
  · exact fun _ => .unchanged (Agrees.refl _) (by simp [ret])
  · exact fun hf => absurd hf (by simp [die])
  · exact fun _ => .saved [] [] _ rfl (by simp) (by simp) (Agrees.refl _)
  · exact fun _ => rfl
  · exact fun _ => rfl
  · exact fun hf => absurd hf (by simp [saveState, emit])
  · simp [ret]
  · simp [die]
  · simp [saveState, emit]

/-- The steps of a packet thread outside the two critical sections of
`Raft_create_snapshot` touch files only. -/
theorem snapshotStep_plain (r : RaftState) {pc : SnapshotPc} (henter : ∀ n, pc ≠ .enter n)
    (hshift : ∀ n prev, pc ≠ .shift n prev) :
    (snapshotStep r pc).1.raft = r ∧
    ((snapshotStep r pc).1.fault = true → (snapshotStep r pc).1.effects = []) ∧
    (∀ x ∈ (snapshotStep r pc).1.effects, x.isQuiet ∧ x.isLate) ∧
    ∀ pc', (snapshotStep r pc).2 = some pc' → ∀ k, pc'.pending = some k → pc.pending = some k := by
  cases pc with
  | enter n => exact absurd rfl (henter n)
  | shift n prev => exact absurd rfl (hshift n prev)
  | check =>
      simp only [snapshotStep]
      split_ifs <;> simp [ret, SnapshotPc.pending]
  | argument => simp [snapshotStep, ret, SnapshotPc.pending]
  | opened n =>
      simp only [snapshotStep]
      split_ifs <;> simp [ret, SnapshotPc.pending]
  | copy n prev src k =>
      simp only [snapshotStep]
      split_ifs <;> simp [ret, emit, SnapshotPc.pending, Effect.isQuiet, Effect.isLate]
  | entries n prev => simp [snapshotStep, ret, SnapshotPc.pending]
  | add n prev i j =>
      simp only [snapshotStep]
      by_cases hi : i < n
      · simp only [if_pos hi]
        cases hget : getLog r i with
        | none => simp [die]
        | some e =>
            simp only
            split <;> simp [ret, emit, SnapshotPc.pending, Effect.isQuiet, Effect.isLate]
      · simp [if_neg hi, ret, SnapshotPc.pending]
  | remove prev => simp [snapshotStep, emit, Effect.isQuiet, Effect.isLate]

theorem settle_plain (w : World) (s : Server) (es : List Effect)
    (h : ∀ x ∈ es, x.isQuiet ∧ x.isLate) : w.settle s (w.raft s) es none = w := by
  have hspawn : spawned es = [] := by
    refine List.flatMap_eq_nil_iff.mpr fun x hx => ?_
    cases x with
    | spawnLeaderThreads fs => exact absurd (h _ hx).1 (by simp [Effect.isQuiet])
    | _ => rfl
  simp [World.settle, hspawn, filterMap_sentBy_quiet fun x hx => (h x hx).1,
    filterMap_committedBy_late fun x hx => (h x hx).2]

theorem createSnapshotShift_cases (r : RaftState) (n : ℤ) :
    (∃ r', createSnapshotShift r n = die r') ∨
    ((n < r.logCount → r.startLogIndex ≤ n ∧ r.logCount - r.startLogIndex ≤ (logSize : ℤ)) ∧
      createSnapshotShift r n = saveState { r with
        snapshotInProgress := false
        log := copyDown r.log (n - r.startLogIndex).toNat (r.logCount - n).toNat
        startLogIndex := n }) := by
  unfold createSnapshotShift
  simp only
  split_ifs with hbad
  · exact Or.inl ⟨_, rfl⟩
  · refine Or.inr ⟨fun hlt => ?_, rfl⟩
    push Not at hbad
    exact hbad hlt

theorem createSnapshotShift_ok {r : RaftState} {n : ℤ}
    (hf : (createSnapshotShift r n).fault = false) :
    (n < r.logCount → r.startLogIndex ≤ n ∧ r.logCount - r.startLogIndex ≤ (logSize : ℤ)) ∧
      createSnapshotShift r n = saveState { r with
        snapshotInProgress := false
        log := copyDown r.log (n - r.startLogIndex).toNat (r.logCount - n).toNat
        startLogIndex := n } := by
  rcases createSnapshotShift_cases r n with ⟨r', heq⟩ | hshifted
  · rw [heq] at hf
    exact absurd hf (by simp [die])
  · exact hshifted

/-- What a step of a packet thread is for the server: one of the two critical
sections of `Raft_create_snapshot`, or nothing but work on files. -/
inductive SnapshotSection (r : RaftState) (pc : SnapshotPc) : Outcome → Prop
  | enter (n : ℤ) (hpc : pc = .enter n)
      (he : createSnapshotEnter r n = some { r with snapshotInProgress := true }) :
      SnapshotSection r pc (ret { r with snapshotInProgress := true })
  | shift (n prev : ℤ) (hpc : pc = .shift n prev) :
      SnapshotSection r pc (createSnapshotShift r n)
  | plain (o : Outcome) (hraft : o.raft = r) (hes : ∀ x ∈ o.effects, x.isQuiet ∧ x.isLate) :
      SnapshotSection r pc o

theorem snapshotStep_section (r : RaftState) (pc : SnapshotPc) :
    SnapshotSection r pc (snapshotStep r pc).1 := by
  cases pc with
  | enter n =>
      simp only [snapshotStep]
      cases he : createSnapshotEnter r n with
      | none => exact .plain _ rfl (by simp [ret])
      | some r' =>
          obtain ⟨-, rfl⟩ := createSnapshotEnter_some he
          exact .enter n rfl he
  | shift n prev => exact .shift n prev rfl
  | _ =>
      refine .plain _ ?_ ?_
      · exact (snapshotStep_plain r (by simp) (by simp)).1
      · exact (snapshotStep_plain r (by simp) (by simp)).2.2.1

theorem Refines.shift (h : Refines c w) {s : Server} (hup : (c.nodes s).up = true) {n prev : ℤ}
    {k : ℕ} (hpc : (c.nodes s).snapshotThreads[k]? = some (.shift n prev))
    (hg : g.shift (c.nodes s).raft n) (crashAt : Option ℕ) :
    ∃ w', World.Path g w w' ∧
      Refines (c.settle s
        { c.nodes s with
          snapshotThreads := List.replaceAt (c.nodes s).snapshotThreads k
            (snapshotStep (c.nodes s).raft (.shift n prev)).2 }
        (snapshotStep (c.nodes s).raft (.shift n prev)).1 crashAt none) w' := by
  have hraft := (h.node s).raft_eq hup
  have hmem := List.mem_of_getElem? hpc
  rw [← hraft] at hg ⊢
  refine h.section_path hup (n := { c.nodes s with snapshotThreads := List.replaceAt _ k _ })
    ⟨rfl, rfl, rfl, hup⟩ ?_ (o := createSnapshotShift (w.raft s) n) ?_ ?_ ?_
    (fun hf => ⟨_, .shift s n ((h.node s).opened _ hmem n rfl) hg hf⟩) crashAt
  · intro pc hpc' j hj
    rcases List.mem_replaceAt hpc' with hold | hnew
    · exact (h.node s).opened pc hold j hj
    · simp only [snapshotStep] at hnew
      split_ifs at hnew
      · simp only [Option.some.injEq] at hnew
        subst hnew
        exact absurd hj (by simp [SnapshotPc.pending])
  all_goals rcases createSnapshotShift_cases (w.raft s) n with ⟨r', heq⟩ | ⟨-, heq⟩
  all_goals rw [heq]
  · exact fun hf => absurd hf (by simp [die])
  · exact fun _ => .saved [] [] _ rfl (by simp) (by simp) (Agrees.refl _)
  · exact fun _ => rfl
  · exact fun hf => absurd hf (by simp [saveState, emit])
  · simp [die]
  · simp [saveState, emit]

theorem Refines.plain (h : Refines c w) {s : Server} (hup : (c.nodes s).up = true)
    {pc : SnapshotPc} {k : ℕ} (hpc : (c.nodes s).snapshotThreads[k]? = some pc)
    (henter : ∀ n, pc ≠ .enter n) (hshift : ∀ n prev, pc ≠ .shift n prev)
    (crashAt : Option ℕ) :
    ∃ w', World.Path g w w' ∧
      Refines (c.settle s
        { c.nodes s with
          snapshotThreads := List.replaceAt (c.nodes s).snapshotThreads k
            (snapshotStep (c.nodes s).raft pc).2 }
        (snapshotStep (c.nodes s).raft pc).1 crashAt none) w' := by
  have hraft := (h.node s).raft_eq hup
  have hmem := List.mem_of_getElem? hpc
  rw [← hraft]
  obtain ⟨hsame, hdead, hes, hpending⟩ := snapshotStep_plain (w.raft s) henter hshift
  refine h.section_path hup (n := { c.nodes s with snapshotThreads := List.replaceAt _ k _ })
    ⟨rfl, rfl, rfl, hup⟩ ?_ ?_ hdead ?_ ?_ crashAt
  · intro pc' hpc' j hj
    rcases List.mem_replaceAt hpc' with hold | hnew
    · exact (h.node s).opened pc' hold j hj
    · exact (h.node s).opened pc hmem j (hpending pc' hnew j hj)
  · exact fun _ => .unchanged (by rw [hsame]; exact Agrees.refl _) fun x hx => (hes x hx).2
  · exact fun i e hx => (hes _ hx).2
  · intro _
    rw [hsame, settle_plain w s _ hes]
    exact ⟨none, .lose w.net (List.Sublist.refl _)⟩

theorem Refines.enter (h : Refines c w) {s : Server} (hup : (c.nodes s).up = true) {n : ℤ}
    (k : ℕ) (crashAt : Option ℕ) :
    ∃ w', World.Path g w w' ∧
      Refines (c.settle s
        { c.nodes s with
          snapshotThreads := List.replaceAt (c.nodes s).snapshotThreads k
            (snapshotStep (c.nodes s).raft (.enter n)).2 }
        (snapshotStep (c.nodes s).raft (.enter n)).1 crashAt none) w' := by
  have hraft := (h.node s).raft_eq hup
  cases he : createSnapshotEnter (c.nodes s).raft n with
  | none =>
      -- refused: the thread ends and nothing has happened
      have heq : snapshotStep (c.nodes s).raft (.enter n) = (ret (c.nodes s).raft, none) := by
        simp only [snapshotStep, he]
      rw [heq, ← hraft]
      refine h.section_path hup (n := { c.nodes s with snapshotThreads := List.replaceAt _ k _ })
        ⟨rfl, rfl, rfl, hup⟩ ?_ (fun _ => .unchanged (Agrees.refl _) (by simp [ret]))
        (fun _ => rfl) (by simp [ret]) ?_ crashAt
      · intro pc' hpc' j hj
        change pc' ∈ List.replaceAt (c.nodes s).snapshotThreads k none at hpc'
        rcases List.mem_replaceAt hpc' with hold | hnew
        · exact (h.node s).opened pc' hold j hj
        · exact absurd hnew (by simp)
      · intro _
        have hplain := settle_plain w s [] (by simp)
        simp only [ret]
        rw [hplain]
        exact ⟨none, .lose w.net (List.Sublist.refl _)⟩
  | some r' =>
      have heq : snapshotStep (c.nodes s).raft (.enter n) = (ret r', some (.opened n)) := by
        simp only [snapshotStep, he]
      have hagree : Agrees r' (c.nodes s).raft := by
        obtain ⟨-, rfl⟩ := createSnapshotEnter_some he
        constructor <;> rfl
      rw [heq]
      by_cases hwhole : crashAt = none
      · subst hwhole
        have he' := he
        rw [← hraft] at he'
        refine ⟨_, .single ⟨none, .enter s n r' he'⟩, ?_⟩
        have hnode : NodeRefines
            (Node.settle { c.nodes s with
              snapshotThreads := List.replaceAt (c.nodes s).snapshotThreads k (some (.opened n)) }
              (ret r') none) r' (w.threads s) (n :: w.opened s) := by
          refine ⟨?_, (h.node s).threads, ?_, ?_⟩
          · simp [Node.settle, Node.performed, ret, Node.view, hup]
          · intro pc' hpc' j hj
            change pc' ∈ List.replaceAt (c.nodes s).snapshotThreads k (some (.opened n)) at hpc'
            rcases List.mem_replaceAt hpc' with hold | hnew
            · exact List.mem_cons_of_mem _ ((h.node s).opened pc' hold j hj)
            · simp only [Option.some.injEq] at hnew
              subst hnew
              simp only [SnapshotPc.pending, Option.some.injEq] at hj
              simp [hj]
          · intro _ st hst
            exact ((h.node s).synced hup st hst).trans hagree.symm
        have := h.update (s := s) hnode c.net c.commits
        rw [Function.update_eq_self] at this
        simpa [Cluster.settle, Node.performed, ret, h.net, h.commits] using this
      · have hcrash : ¬ (crashAt = none ∧ (ret r').fault = false) := fun hh => hwhole hh.1
        have hnil : Node.performed (ret r') crashAt = [] := by
          cases crashAt <;> simp [Node.performed, ret]
        unfold Cluster.settle
        rw [settle_of_crash hcrash, hnil]
        have := h.crash_path (g := g) (s := s)
          (n := { c.nodes s with
            snapshotThreads := List.replaceAt (c.nodes s).snapshotThreads k (some (.opened n)) })
          .refl (fun _ _ => rfl) (fun _ _ => rfl) rfl (h.saved_agrees hup)
          c.net (by rw [h.net])
        simpa [h.commits] using this

theorem Sends.late {r r' : RaftState} {t : LeaderThread} {es : List Effect}
    {pc : Option LeaderPc} (h : Sends r t r' es pc) : Agrees r' r ∧ ∀ x ∈ es, x.isLate := by
  cases h <;> exact ⟨by constructor <;> rfl, by simp [Effect.isLate]⟩

theorem Refines.leaderThread (h : Refines c w) {s : Server} (hup : (c.nodes s).up = true)
    {t : LeaderThread} {k : ℕ} (ht : (c.nodes s).leaderThreads[k]? = some t)
    (hg : g.sender (c.nodes s).raft t) :
    ∃ w', World.Path g w w' ∧
      Refines (c.settle s
        { c.nodes s with
          leaderThreads := List.replaceAt (c.nodes s).leaderThreads k
            ((leaderStep (c.nodes s).raft (c.nodes s).files t).2.map fun pc => { t with pc }) }
        (leaderStep (c.nodes s).raft (c.nodes s).files t).1 none none) w' := by
  have hraft := (h.node s).raft_eq hup
  cases hf : (leaderStep (c.nodes s).raft (c.nodes s).files t).1.fault with
  | false =>
      have hsends := leaderStep_sends hf
      have hsplit : w.threads s = (c.nodes s).leaderThreads.take k ++ t ::
          (c.nodes s).leaderThreads.drop (k + 1) := by
        rw [(h.node s).threads]
        exact List.split_getElem? ht
      obtain ⟨hagree, hlate⟩ := hsends.late
      have hsends' := hsends
      rw [← hraft] at hg
      rw [show (c.nodes s).raft = w.raft s from hraft.symm] at hsends'
      refine ⟨_, .single ⟨none, .sender s _ _ t _ _ _ hsplit hg hsends'⟩, ?_⟩
      have hc : ({ c with net := w.net } : Cluster) = c := by rw [h.net]
      have := h.settle (s := s)
        (n := { c.nodes s with
          leaderThreads := List.replaceAt (c.nodes s).leaderThreads k
            ((leaderStep (c.nodes s).raft (c.nodes s).files t).2.map fun pc => { t with pc }) })
        (o := (leaderStep (c.nodes s).raft (c.nodes s).files t).1) w.net hup
        (fun st hst => ?_) (h.node s).opened hf (List.replaceAt_eq ht _) none
      · rw [hc] at this
        rw [hraft]
        exact this
      · rw [savedAfter_late hlate] at hst
        exact ((h.node s).synced hup st hst).trans hagree.symm
  | true =>
      have hnil := leaderStep_fault hf
      have hcrash : ¬ ((none : Option ℕ) = none ∧
          (leaderStep (c.nodes s).raft (c.nodes s).files t).1.fault = false) := by simp [hf]
      unfold Cluster.settle
      rw [settle_of_crash hcrash]
      have := h.crash_path (g := g) (s := s)
        (n := { c.nodes s with
          leaderThreads := List.replaceAt (c.nodes s).leaderThreads k
            ((leaderStep (c.nodes s).raft (c.nodes s).files t).2.map fun pc => { t with pc }) })
        .refl (fun _ _ => rfl) (fun _ _ => rfl) rfl (h.saved_agrees hup)
        c.net (by rw [h.net])
      simpa [Node.performed, hnil, h.commits] using this

/-- The effects of a packet's arrival: a file removed, the new term saved. -/
theorem mem_arrival {r : RaftState} {packet : Packet} {x : Effect}
    (h : x ∈ arrival r packet) :
    x = .removeSnapshot r.installSnapshotId ∨
    (x = .save (arrived r packet) ∧ ∀ q, packet ≠ .append q) := by
  unfold arrival at h
  rw [List.mem_append] at h
  rcases h with h | h
  · rcases convertToFollower_effects r packet.term with heq | heq
    · rw [heq] at h
      exact absurd h (by simp)
    · rw [heq] at h
      exact Or.inl (by simpa using h)
  · cases packet with
    | append q => exact absurd h (by simp)
    | _ => exact Or.inr ⟨by simpa using h, by simp⟩

/-- The steps of a handler before the packet's own part: the state the rest
starts from, and the effects so far. -/
inductive Arrives (r : RaftState) (packet : Packet) : List Effect → Prop
  | now (hle : packet.term ≤ r.currentTerm) : Arrives r packet []
  | later (hlt : r.currentTerm < packet.term) : Arrives r packet (arrival r packet)

theorem Arrives.mem {r : RaftState} {packet : Packet} {es : List Effect}
    (h : Arrives r packet es) {x : Effect} (hx : x ∈ es) :
    x = .removeSnapshot r.installSnapshotId ∨
    (x = .save (arrived r packet) ∧ ∀ q, packet ≠ .append q) := by
  cases h with
  | now hle => exact absurd hx (by simp)
  | later hlt => exact mem_arrival hx

/-- A beginning of these effects leaves the file as it was or saves the state
the rest starts from; the whole of them does the latter, unless the packet is
an append request. -/
theorem Arrives.savedAfter {r : RaftState} {packet : Packet} {es : List Effect}
    (h : Arrives r packet es) {l : List Effect} (hl : ∀ x ∈ l, x ∈ es)
    (saved : Option RaftState) :
    savedAfter l saved = saved ∨ savedAfter l saved = some (arrived r packet) := by
  induction l using List.reverseRecOn with
  | nil => exact Or.inl rfl
  | append_singleton l x ih =>
      rw [savedAfter_append]
      rcases h.mem (hl x (by simp)) with rfl | ⟨rfl, -⟩
      · exact ih fun y hy => hl y (by simp [hy])
      · exact Or.inr rfl

theorem Arrives.savedAfter_whole {r : RaftState} {packet : Packet} {es : List Effect}
    (h : Arrives r packet es) (hreq : ∀ q, packet ≠ .append q) (saved : Option RaftState)
    (hs : Agrees (saved.getD r) r) :
    Agrees ((RaftLock.savedAfter es saved).getD r) (arrived r packet) := by
  cases h with
  | now hle => simpa [RaftLock.savedAfter, arrived_of_le hle] using hs
  | later hlt =>
      have hsave : arrival r packet = (convertToFollower r packet.term).effects ++
          [.save (arrived r packet)] := by
        cases packet with
        | append q => exact absurd rfl (hreq q)
        | _ => rfl
      rw [hsave, savedAfter_append]
      exact Agrees.refl _

theorem Arrives.no_send {r : RaftState} {packet : Packet} {es : List Effect}
    (h : Arrives r packet es) {l : List Effect} (hl : ∀ x ∈ l, x ∈ es) (s : Server)
    (answers : Option Packet) :
    l.filterMap (Cluster.sentBy s answers) = [] ∧ l.filterMap (Cluster.committedBy s) = [] ∧
    spawned l = [] := by
  refine ⟨List.filterMap_eq_nil_iff.mpr fun x hx => ?_,
    List.filterMap_eq_nil_iff.mpr fun x hx => ?_, List.flatMap_eq_nil_iff.mpr fun x hx => ?_⟩
  all_goals rcases h.mem (hl x hx) with rfl | ⟨rfl, -⟩
  all_goals rfl

theorem Handled.append_saves {r r' : RaftState} {addr : Server} {q : AppendRequest}
    {es : List Effect} (h : Handled r addr (.append q) r' es) : ¬ ∀ x ∈ es, x.isLate := by
  intro hlate
  cases h with
  | appendRefused _ hc => exact hlate _ List.mem_cons_self
  | heartbeat _ hterm hc hn hcommit => exact hlate _ (List.mem_append_right _ List.mem_cons_self)
  | entryStored _ hterm hc hn hlo hhi hroom hcommit =>
      exact hlate _ (List.mem_append_right _ List.mem_cons_self)

/-- The world once a packet's term has been taken over. -/
theorem arrive_path (w : World) (s : Server) (packet : Packet) :
    World.Path g w
      { w with raft := Function.update w.raft s (arrived (w.raft s) packet) } := by
  rcases Int.lt_or_le (w.raft s).currentTerm packet.term with hlt | hle
  · rw [arrived_of_lt hlt]
    exact .single ⟨none, .stepDown s packet.term hlt⟩
  · rw [arrived_of_le hle, Function.update_eq_self]

section Deliver

variable {d : Datagram} {a b : List Datagram} {o : Outcome}

/-- The handler's own part, in the world that has taken over the packet's
term. -/
theorem handle_path (hnet : w.net = a ++ d :: b)
    (hg : g.packet w.commits (arrived (w.raft d.dst) d.packet) d)
    (ho : o = handlePacket (arrived (w.raft d.dst) d.packet) d.src d.packet)
    (hf : o.fault = false) :
    World.Path g w
      ({ w with net := a ++ b }.settle d.dst o.raft o.effects (some d.packet)) := by
  subst ho
  have hle := le_arrived (w.raft d.dst) d.packet
  have harrive := arrive_path (g := g) w d.dst d.packet
  have hstep := World.Step.handle (g := g)
    (w := { w with raft := Function.update w.raft d.dst (arrived (w.raft d.dst) d.packet) })
    a b d (handlePacket (arrived (w.raft d.dst) d.packet) d.src d.packet).raft
    (handlePacket (arrived (w.raft d.dst) d.packet) d.src d.packet).effects hnet
    (by simpa using hle) (by simpa using hg) (by simpa using handled hle hf)
  have := harrive.tail ⟨_, hstep⟩
  simpa [World.settle] using this

/-- Commits of a handler that is cut off, in the world before or after the
packet's term is taken over. -/
theorem turns_path (hd : d ∈ w.net)
    (hg : g.packet w.commits (arrived (w.raft d.dst) d.packet) d)
    {l : List Effect}
    (hl : ∀ i e, .commit i e ∈ l → Turn (arrived (w.raft d.dst) d.packet) d.packet i e)
    (r : RaftState) (hr : r = w.raft d.dst ∨ r = arrived (w.raft d.dst) d.packet) :
    World.Path g w
      { w with
        raft := Function.update w.raft d.dst (forget r)
        threads := Function.update w.threads d.dst []
        commits := w.commits ++ l.filterMap (Cluster.committedBy d.dst) } := by
  rw [filterMap_committedBy]
  have hturn : ∀ x ∈ turnsOf l, Turn (arrived (w.raft d.dst) d.packet) d.packet x.1 x.2 :=
    fun x hx => hl _ _ (mem_turnsOf hx)
  rcases hr with rfl | rfl
  · exact .single ⟨none, .turns d (turnsOf l) hd hg hturn⟩
  · have hidem : arrived (arrived (w.raft d.dst) d.packet) d.packet =
        arrived (w.raft d.dst) d.packet := arrived_of_le (le_arrived _ _)
    refine (arrive_path w d.dst d.packet).tail ⟨none, ?_⟩
    have hstep := World.Step.turns
      (w := { w with raft := Function.update w.raft d.dst (arrived (w.raft d.dst) d.packet) })
      d (turnsOf l) hd (by simpa [hidem] using hg) (by simpa [hidem] using hturn)
    simpa using hstep

theorem handlePacket_parts (r : RaftState) (addr : Server) (packet : Packet)
    (h : packet.term ≤ r.currentTerm ∨ ∀ q, packet ≠ .response q) :
    ∃ pre, Arrives r packet pre ∧ handlePacket r addr packet =
      ⟨(handlePacket (arrived r packet) addr packet).raft,
        pre ++ (handlePacket (arrived r packet) addr packet).effects,
        (handlePacket (arrived r packet) addr packet).fault⟩ := by
  rcases Int.lt_or_le r.currentTerm packet.term with hlt | hle
  · have hreq : ∀ q, packet ≠ .response q := h.resolve_left (not_le.mpr hlt)
    exact ⟨_, .later hlt, handlePacket_later hlt hreq⟩
  · refine ⟨[], .now hle, ?_⟩
    rw [arrived_of_le hle]
    rfl

/-- The effects performed before a crash: some of the arrival's, and of the
rest only after all of these. -/
theorem performed_parts (r' : RaftState) (pre es : List Effect) (fault : Bool)
    (crashAt : Option ℕ) :
    ∃ l m, Node.performed ⟨r', pre ++ es, fault⟩ crashAt = l ++ es.take m ∧
      (∀ x ∈ l, x ∈ pre) ∧ (l = pre ∨ es.take m = []) := by
  cases crashAt with
  | none => exact ⟨pre, es.length, by simp [Node.performed], fun _ hx => hx, Or.inl rfl⟩
  | some k =>
      rcases Nat.lt_or_ge k pre.length with hk | hk
      · refine ⟨pre.take k, 0, ?_, fun x hx => List.mem_of_mem_take hx, Or.inr rfl⟩
        simp [Node.performed, List.take_append_of_le_length (le_of_lt hk)]
      · refine ⟨pre, k - pre.length, ?_, fun _ hx => hx, Or.inl rfl⟩
        simp [Node.performed, List.take_append, List.take_of_length_le hk]

/-- What the refinement has to know about the handler's own part `es`. -/
structure Part (g : Guard) (w : World) (a b : List Datagram) (d : Datagram) (r' : RaftState)
    (es : List Effect) (fault : Bool) : Prop where
  full : fault = false →
    World.Path g w ({ w with net := a ++ b }.settle d.dst r' es (some d.packet))
  shaped : fault = false → Shaped (arrived (w.raft d.dst) d.packet) r' es
  saves : fault = false → (∀ x ∈ es, x.isLate) → ∀ q, d.packet ≠ .append q
  dead : fault = true → ∀ x ∈ es, x.isQuiet
  turn : ∀ i e, .commit i e ∈ es → Turn (arrived (w.raft d.dst) d.packet) d.packet i e

theorem Refines.deliver_whole (h : Refines c w) {r' : RaftState} {pre es : List Effect}
    (hup : (c.nodes d.dst).up = true)
    (hpre : Arrives (w.raft d.dst) d.packet pre) (hpart : Part g w a b d r' es false)
    {n : Node} (hn : n.raft = (c.nodes d.dst).raft ∧ n.saved = (c.nodes d.dst).saved ∧
      n.leaderThreads = (c.nodes d.dst).leaderThreads ∧ n.up = true)
    (hopened : ∀ pc ∈ n.snapshotThreads, ∀ k, pc.pending = some k → k ∈ w.opened d.dst) :
    ∃ w', World.Path g w w' ∧
      Refines ({ c with net := a ++ b }.settle d.dst n ⟨r', pre ++ es, false⟩ none
        (some d.packet)) w' := by
  obtain ⟨hraft, hsaved, hthreads, hnup⟩ := hn
  obtain ⟨hsend, hcommit, hspawn⟩ := hpre.no_send (fun _ hx => hx) d.dst (some d.packet)
  refine ⟨_, hpart.full rfl, ?_⟩
  have := h.settle (s := d.dst) (o := ⟨r', pre ++ es, false⟩) (a ++ b) hnup ?_ hopened rfl
    hthreads (some d.packet)
  · rw [← (h.node d.dst).threads, Function.update_eq_self] at this
    have hspawn' : spawned (pre ++ es) = spawned es := by
      rw [spawned, List.flatMap_append, ← spawned, ← spawned, hspawn, List.nil_append]
    simpa [World.settle, hsend, hcommit, hspawn'] using this
  · intro st hst
    rw [hsaved] at hst
    simp only [savedAfter_append] at hst
    cases hpart.shaped rfl with
    | unchanged hr hes =>
        rw [savedAfter_late hes] at hst
        have hagree := hpre.savedAfter_whole (hpart.saves rfl hes)
          (c.nodes d.dst).saved (by
            have := h.saved_agrees hup
            rwa [← (h.node d.dst).raft_eq hup] at this)
        rw [hst] at hagree
        exact Agrees.trans hagree hr.symm
    | saved pre' post st' hes hpre' hpost hst' =>
        subst hes
        rw [savedAfter_append] at hst
        have hlast : savedAfter (.save st' :: post)
            (savedAfter pre' (savedAfter pre (c.nodes d.dst).saved)) = some st' :=
          savedAfter_late hpost (some st')
        rw [hlast, Option.some.injEq] at hst
        exact hst ▸ hst'

theorem Refines.deliver_crash (h : Refines c w) {r' : RaftState} {pre es : List Effect}
    {fault : Bool} (hup : (c.nodes d.dst).up = true) (hnet : w.net = a ++ d :: b)
    (hg : g.packet w.commits (arrived (w.raft d.dst) d.packet) d)
    (hpre : Arrives (w.raft d.dst) d.packet pre) (hpart : Part g w a b d r' es fault)
    {n : Node} (hn : n.raft = (c.nodes d.dst).raft ∧ n.saved = (c.nodes d.dst).saved)
    {crashAt : Option ℕ} (hcrash : ¬ (crashAt = none ∧ fault = false)) :
    ∃ w', World.Path g w w' ∧
      Refines ({ c with net := a ++ b }.settle d.dst n ⟨r', pre ++ es, fault⟩ crashAt
        (some d.packet)) w' := by
  obtain ⟨hraft, hsaved⟩ := hn
  have hraft' : n.raft = w.raft d.dst := hraft.trans ((h.node d.dst).raft_eq hup).symm
  have hstay : Agrees (n.saved.getD n.raft) (w.raft d.dst) := by
    rw [hsaved, hraft]
    exact h.saved_agrees hup
  obtain ⟨l, m, hperf, hl, hwhole⟩ := performed_parts r' pre es fault crashAt
  obtain ⟨hsend, hcommit, -⟩ := hpre.no_send hl d.dst (some d.packet)
  obtain ⟨h1, -, -, -, h5⟩ := Node.foldl_perform (l ++ es.take m) n
  have hgoal : ∀ w₁, World.Path g w w₁ → (∀ v, v ≠ d.dst → w₁.raft v = w.raft v) →
      (∀ v, v ≠ d.dst → w₁.threads v = w.threads v) → w₁.opened = w.opened →
      w₁.commits = w.commits ++ (es.take m).filterMap (Cluster.committedBy d.dst) →
      Agrees ((savedAfter (es.take m) (savedAfter l n.saved)).getD (w.raft d.dst))
        (w₁.raft d.dst) →
      (a ++ b ++ (es.take m).filterMap (Cluster.sentBy d.dst (some d.packet))).Sublist w₁.net →
      ∃ w', World.Path g w w' ∧
        Refines ({ c with net := a ++ b }.settle d.dst n ⟨r', pre ++ es, fault⟩ crashAt
          (some d.packet)) w' := by
    intro w₁ hpath hr ht ho hc hagree hsub
    rw [← savedAfter_append, ← h5, ← hraft', ← h1] at hagree
    have := h.crash_path hpath hr ht ho hagree _ hsub
    unfold Cluster.settle
    rw [settle_of_crash hcrash, hperf]
    simpa [hsend, hcommit, hc, h.commits] using this
  -- a crash before anything of the handler's own part is saved
  have hbefore : (∀ x ∈ es.take m, x.isQuiet) →
      ∃ w', World.Path g w w' ∧
        Refines ({ c with net := a ++ b }.settle d.dst n ⟨r', pre ++ es, fault⟩ crashAt
          (some d.packet)) w' := by
    intro hquiet
    have hturn : ∀ i e, .commit i e ∈ es.take m →
        Turn (arrived (w.raft d.dst) d.packet) d.packet i e :=
      fun i e hx => hpart.turn i e (List.mem_of_mem_take hx)
    have hd : d ∈ w.net := by simp [hnet]
    have hnone := filterMap_sentBy_quiet hquiet d.dst (some d.packet)
    have hsub : (a ++ b ++ (es.take m).filterMap
        (Cluster.sentBy d.dst (some d.packet))).Sublist w.net := by
      rw [hnone, hnet, List.append_nil]
      exact (List.Sublist.refl a).append (List.sublist_cons_self d b)
    rcases hpre.savedAfter hl n.saved with hs | hs
    · refine hgoal _ (turns_path hd hg hturn _ (Or.inl rfl)) (fun v hv => by simp [hv])
        (fun v hv => by simp [hv]) rfl rfl ?_ hsub
      have hkeep := hstay.trans (forget_agrees _)
      simpa [savedAfter_quiet hquiet, hs, ← hraft'] using hraft' ▸ hkeep
    · refine hgoal _ (turns_path hd hg hturn _ (Or.inr rfl)) (fun v hv => by simp [hv])
        (fun v hv => by simp [hv]) rfl rfl ?_ hsub
      simpa [savedAfter_quiet hquiet, hs] using forget_agrees _
  rcases hwhole with rfl | hnil
  · cases fault with
    | true => exact hbefore fun x hx => hpart.dead rfl x (List.mem_of_mem_take hx)
    | false =>
        -- the whole handler, with some of its answers lost
        have hafter : ((es.take m).filterMap (Cluster.committedBy d.dst) =
              es.filterMap (Cluster.committedBy d.dst)) →
            Agrees ((savedAfter (es.take m) (savedAfter l n.saved)).getD (w.raft d.dst)) r' →
            ∃ w', World.Path g w w' ∧
              Refines ({ c with net := a ++ b }.settle d.dst n ⟨r', l ++ es, false⟩ crashAt
                (some d.packet)) w' := by
          intro hcom hagree
          refine hgoal _ (hpart.full rfl) (fun v hv => by simp [World.settle, hv])
            (fun v hv => by simp [World.settle, hv]) rfl ?_ ?_ ?_
          · simp [World.settle, hcom]
          · simpa [World.settle] using hagree
          · simp only [World.settle]
            exact (List.Sublist.refl _).append ((List.take_sublist m es).filterMap _)
        rcases (hpart.shaped rfl).crash m (savedAfter l n.saved) d.dst with
          ⟨st, hst, hagree, hcom⟩ | ⟨-, hquiet⟩ | ⟨hst, hagree, hlate⟩
        · exact hafter hcom (by simpa [hst] using hagree)
        · exact hbefore hquiet
        · have hlate' : ∀ x ∈ es.take m, x.isLate :=
            fun x hx => hlate x (List.mem_of_mem_take hx)
          refine hafter ?_ ?_
          · rw [filterMap_committedBy_late hlate, filterMap_committedBy_late hlate']
          · rw [hst]
            rw [hraft'] at hstay
            exact (hpre.savedAfter_whole (hpart.saves rfl hlate) _ hstay).trans hagree.symm
  · exact hbefore fun x hx => absurd hx (by simp [hnil])

theorem part_handle (hnet : w.net = a ++ d :: b)
    (hg : g.packet w.commits (arrived (w.raft d.dst) d.packet) d)
    (ho : o = handlePacket (arrived (w.raft d.dst) d.packet) d.src d.packet) :
    Part g w a b d o.raft o.effects o.fault := by
  have hle := le_arrived (w.raft d.dst) d.packet
  have hhandled : o.fault = false →
      Handled (arrived (w.raft d.dst) d.packet) d.src d.packet o.raft o.effects := by
    subst ho
    exact handled hle
  refine ⟨handle_path hnet hg ho, fun hf => (hhandled hf).shaped, ?_, ?_, ?_⟩
  · intro hf hlate q hq
    have := hhandled hf
    rw [hq] at this
    exact this.append_saves hlate
  · intro hf x hx
    subst ho
    obtain ⟨i, e, rfl, -⟩ := turn_of_fault hle hf hx
    trivial
  · intro i e hx
    cases hf : o.fault with
    | false => exact (hhandled hf).turn hx
    | true =>
        subst ho
        obtain ⟨j, x, heq, hturn⟩ := turn_of_fault hle hf hx
        simp only [Effect.commit.injEq] at heq
        obtain ⟨rfl, rfl⟩ := heq
        exact hturn

/-- The answer of a server in a later term only ends the receiver's own. -/
theorem part_response (hnet : w.net = a ++ d :: b) {q : Response} (hq : d.packet = .response q) :
    Part g w a b d (arrived (w.raft d.dst) d.packet) [] false where
  full _ := by
    have hlose : World.Step g
        { w with raft := Function.update w.raft d.dst (arrived (w.raft d.dst) d.packet) } none
        { w with
          raft := Function.update w.raft d.dst (arrived (w.raft d.dst) d.packet)
          net := a ++ b } := by
      refine .lose (a ++ b) ?_
      simp only [hnet]
      exact (List.Sublist.refl a).append (List.sublist_cons_self d b)
    have := (arrive_path (g := g) w d.dst d.packet).tail ⟨none, hlose⟩
    simpa [World.settle, spawned] using this
  shaped _ := .unchanged (Agrees.refl _) (by simp)
  saves _ _ q' := by simp [hq]
  dead hf := absurd hf (by simp)
  turn i e hx := absurd hx (by simp)

theorem Refines.deliver (h : Refines c w) {k : ℕ} (hd : c.net[k]? = some d)
    (hup : (c.nodes d.dst).up = true)
    (hg : g.packet c.commits (arrived (c.nodes d.dst).raft d.packet) d) (crashAt : Option ℕ) :
    ∃ w', World.Path g w w' ∧
      Refines ({ c with net := c.net.eraseIdx k }.settle d.dst
        { c.nodes d.dst with
          snapshotThreads := (c.nodes d.dst).snapshotThreads ++ [SnapshotPc.check] }
        (handlePacket (c.nodes d.dst).raft d.src d.packet) crashAt (some d.packet)) w' := by
  have hraft := (h.node d.dst).raft_eq hup
  have hnet : w.net = c.net.take k ++ d :: c.net.drop (k + 1) := by
    rw [h.net]
    exact List.split_getElem? hd
  rw [← hraft, ← h.commits] at hg
  rw [List.eraseIdx_eq_take_drop_succ, ← hraft]
  have hopened : ∀ pc ∈ (c.nodes d.dst).snapshotThreads ++ [SnapshotPc.check],
      ∀ j, pc.pending = some j → j ∈ w.opened d.dst := by
    intro pc hpc j hj
    rcases List.mem_append.mp hpc with hold | hnew
    · exact (h.node d.dst).opened pc hold j hj
    · rw [List.mem_singleton] at hnew
      subst hnew
      exact absurd hj (by simp [SnapshotPc.pending])
  -- the handler is an arrival and a part
  obtain ⟨pre, r', es, fault, hpre, hpart, heq⟩ : ∃ pre r' es fault,
      Arrives (w.raft d.dst) d.packet pre ∧
      Part g w (c.net.take k) (c.net.drop (k + 1)) d r' es fault ∧
      handlePacket (w.raft d.dst) d.src d.packet = ⟨r', pre ++ es, fault⟩ := by
    by_cases hkind : d.packet.term ≤ (w.raft d.dst).currentTerm ∨ ∀ q, d.packet ≠ .response q
    · obtain ⟨pre, hpre, heq⟩ := handlePacket_parts (w.raft d.dst) d.src d.packet hkind
      exact ⟨pre, _, _, _, hpre, part_handle hnet hg rfl, heq⟩
    · push Not at hkind
      obtain ⟨hlt, q, hq⟩ := hkind
      refine ⟨_, _, [], false, .later hlt, part_response hnet hq, ?_⟩
      rw [List.append_nil, hq]
      exact handleResponse_later (by rwa [hq] at hlt)
  rw [heq]
  by_cases hwhole : crashAt = none ∧ fault = false
  · obtain ⟨rfl, rfl⟩ := hwhole
    exact h.deliver_whole hup hpre hpart
      (n := { c.nodes d.dst with
        snapshotThreads := (c.nodes d.dst).snapshotThreads ++ [SnapshotPc.check] })
      ⟨rfl, rfl, rfl, hup⟩ hopened
  · exact h.deliver_crash hup hnet hg hpre hpart
      (n := { c.nodes d.dst with
        snapshotThreads := (c.nodes d.dst).snapshotThreads ++ [SnapshotPc.check] })
      ⟨rfl, rfl⟩ hwhole

end Deliver

/-- A restart commits entries of the restored log again. -/
theorem mem_serverRestore {st : RaftState} {i : ℤ} {e : LogEntry}
    (h : .commit i e ∈ (serverRestore st).effects) :
    i ≤ st.commitIndex ∧ getLog st i = some e := by
  unfold serverRestore at h
  simp only [andThen_emit, List.mem_append, List.mem_cons, reduceCtorEq, false_or] at h
  rcases h with h | h
  · split_ifs at h <;> simp at h
  · unfold Outcome.andThen at h
    split_ifs at h
    · obtain ⟨j, x, heq, -, hj, hx⟩ := commitUpdate_mem h
      simp only [Effect.commit.injEq] at heq
      obtain ⟨rfl, rfl⟩ := heq
      exact ⟨hj, hx⟩
    · simp only [List.mem_append] at h
      rcases h with h | h
      · obtain ⟨j, x, heq, -, hj, hx⟩ := commitUpdate_mem h
        simp only [Effect.commit.injEq] at heq
        obtain ⟨rfl, rfl⟩ := heq
        exact ⟨hj, hx⟩
      · simp [emit] at h

theorem serverRestore_quiet (st : RaftState) :
    ∀ x ∈ (serverRestore st).effects, x.isQuiet := by
  intro x h
  unfold serverRestore at h
  simp only [andThen_emit, List.mem_append, List.mem_cons] at h
  rcases h with (rfl | h) | h
  · trivial
  · split_ifs at h
    · simp only [List.mem_singleton] at h
      subst h
      trivial
    · exact absurd h (by simp)
  · unfold Outcome.andThen at h
    split_ifs at h
    · obtain ⟨j, e, rfl, -⟩ := commitUpdate_mem h
      trivial
    · simp only [List.mem_append] at h
      rcases h with h | h
      · obtain ⟨j, e, rfl, -⟩ := commitUpdate_mem h
        trivial
      · simp only [emit, List.mem_map] at h
        obtain ⟨j, -, rfl⟩ := h
        trivial

theorem serverRestore_ok {st : RaftState} (hf : (serverRestore st).fault = false) :
    (serverRestore st).raft = forget st := by
  unfold serverRestore at hf ⊢
  simp only [andThen_emit] at hf ⊢
  obtain ⟨heq, -⟩ := commitUpdate_ok (fault_of_andThen hf).1
  rw [heq]
  rfl

theorem spawned_quiet {es : List Effect} (h : ∀ x ∈ es, x.isQuiet) : spawned es = [] := by
  refine List.flatMap_eq_nil_iff.mpr fun x hx => ?_
  cases x with
  | spawnLeaderThreads fs => exact absurd (h _ hx) (by simp [Effect.isQuiet])
  | _ => rfl

theorem Refines.restart (h : Refines c w) {s : Server} {st : RaftState}
    (hdown : (c.nodes s).up = false) (hsaved : (c.nodes s).saved = some st) :
    ∃ w', World.Path g w w' ∧
      Refines (c.settle s { c.nodes s with up := true, raft := st, applied := [] }
        (serverRestore st) none none) w' := by
  have hview : w.raft s = forget st := by
    rw [(h.node s).view, Node.view, hdown, hsaved]
    rfl
  have hquiet := serverRestore_quiet st
  have hstep : World.Step g w none
      { w with
        commits := w.commits ++ (turnsOf (serverRestore st).effects).map fun x => (s, x) } := by
    refine .replay s _ fun x hx => ?_
    rw [hview]
    exact mem_serverRestore (mem_turnsOf hx)
  rw [← filterMap_committedBy] at hstep
  by_cases hf : (serverRestore st).fault = false
  · refine ⟨_, .single ⟨none, hstep⟩, ?_⟩
    have := h.settle (s := s) (o := serverRestore st)
      (n := { c.nodes s with up := true, raft := st, applied := [] }) w.net rfl ?_
      (h.node s).opened hf
      rfl none
    · rw [← (h.node s).threads, Function.update_eq_self] at this
      rw [serverRestore_ok hf, ← hview] at this
      have hc : ({ c with net := w.net } : Cluster) = c := by rw [h.net]
      rw [hc] at this
      simpa [World.settle, spawned_quiet hquiet, filterMap_sentBy_quiet hquiet] using this
    · intro st' hst'
      rw [savedAfter_quiet hquiet, hsaved, Option.some.injEq] at hst'
      rw [serverRestore_ok hf, ← hst']
      exact forget_agrees st
  · have hcrash : ¬ ((none : Option ℕ) = none ∧ (serverRestore st).fault = false) := by simp [hf]
    obtain ⟨h1, -, -, -, h5⟩ := Node.foldl_perform (serverRestore st).effects
      { c.nodes s with up := true, raft := st, applied := [] }
    have := h.crash_path (g := g) (s := s)
      (n := (serverRestore st).effects.foldl Node.perform
        { c.nodes s with up := true, raft := st, applied := [] })
      (.single ⟨none, hstep⟩) (fun _ _ => rfl) (fun _ _ => rfl) rfl ?_ c.net
      (by rw [h.net])
    · unfold Cluster.settle
      rw [settle_of_crash hcrash]
      simpa [Node.performed, filterMap_sentBy_quiet hquiet, h.commits] using this
    · rw [h5, savedAfter_quiet hquiet, hsaved, hview]
      exact forget_agrees st

/-- Every step of the cluster is a path of the world. -/
theorem Refines.exec (h : Refines c w) {x : Action} {c' : Cluster} (hok : g.allows c x)
    (hx : c.exec x = some c') : ∃ w', World.Path g w w' ∧ Refines c' w' := by
  cases x with
  | timeout s =>
      simp only [Cluster.exec] at hx
      split_ifs at hx with hup
      simp only [Option.some.injEq] at hx
      subst hx
      refine ⟨w, .refl, fun v => ?_, h.net, h.commits⟩
      by_cases hv : v = s
      · subst hv
        have hn := h.node v
        simpa using (⟨hn.view, hn.threads, hn.opened, hn.synced⟩ : NodeRefines
          { c.nodes v with timedOut := true } (w.raft v) (w.threads v) (w.opened v))
      · simpa [hv] using h.node v
  | elect s crashAt =>
      simp only [Cluster.exec] at hx
      split_ifs at hx with hup
      simp only [Option.some.injEq] at hx
      subst hx
      exact h.elect hup.1 (Or.inr rfl) crashAt
  | retry s crashAt =>
      simp only [Cluster.exec] at hx
      split_ifs at hx with hup
      simp only [Option.some.injEq] at hx
      subst hx
      exact h.elect hup.1 (Or.inl rfl) crashAt
  | deliver k crashAt =>
      simp only [Cluster.exec] at hx
      cases hd : c.net[k]? with
      | none =>
          rw [hd] at hx
          exact absurd hx (by simp)
      | some d =>
          rw [hd] at hx
          simp only at hx
          split_ifs at hx with hup
          simp only [Option.some.injEq] at hx
          subst hx
          exact h.deliver hd hup (hok d hd) crashAt
  | drop k =>
      simp only [Cluster.exec] at hx
      split_ifs at hx with hk
      simp only [Option.some.injEq] at hx
      subst hx
      refine ⟨_, .single ⟨none, .lose (c.net.eraseIdx k) ?_⟩, h.node, rfl, h.commits⟩
      rw [h.net]
      exact List.eraseIdx_sublist ..
  | append s entry crashAt =>
      simp only [Cluster.exec] at hx
      split_ifs at hx with hup
      simp only [Option.some.injEq] at hx
      subst hx
      exact h.append hup entry crashAt
  | leaderThread s k =>
      simp only [Cluster.exec] at hx
      split at hx
      · rename_i t hup ht
        simp only [Option.some.injEq] at hx
        subst hx
        exact h.leaderThread hup ht (hok t ht)
      · exact absurd hx (by simp)
  | snapshotThread s k crashAt =>
      simp only [Cluster.exec] at hx
      split at hx
      · rename_i pc hup hpc
        simp only [Option.some.injEq] at hx
        subst hx
        by_cases henter : ∃ n, pc = .enter n
        · obtain ⟨n, rfl⟩ := henter
          exact h.enter hup k crashAt
        by_cases hshift : ∃ n prev, pc = .shift n prev
        · obtain ⟨n, prev, rfl⟩ := hshift
          exact h.shift hup hpc (hok _ hpc) crashAt
        · exact h.plain hup hpc (fun n hn => henter ⟨n, hn⟩)
            (fun n prev hn => hshift ⟨n, prev, hn⟩) crashAt
      · exact absurd hx (by simp)
  | crash s =>
      simp only [Cluster.exec] at hx
      split_ifs at hx with hup
      simp only [Option.some.injEq] at hx
      subst hx
      have := h.crash_path (g := g) (s := s) (n := c.nodes s) .refl (fun _ _ => rfl)
        (fun _ _ => rfl) rfl (h.saved_agrees hup) c.net (by rw [h.net])
      simpa [h.commits] using this
  | restart s =>
      simp only [Cluster.exec] at hx
      split at hx
      · rename_i st hdown hsaved
        simp only [Option.some.injEq] at hx
        subst hx
        exact h.restart hdown hsaved
      · exact absurd hx (by simp)

/-- A restricted run of the cluster is a path of the world. -/
theorem Refines.steps (h : Refines c w) {c' : Cluster} (hrun : Cluster.Steps g.allows c c') :
    ∃ w', World.Path g w w' ∧ Refines c' w' := by
  induction hrun with
  | refl => exact ⟨w, .refl, h⟩
  | tail _ hstep ih =>
      obtain ⟨w₁, hpath, href⟩ := ih
      obtain ⟨x, hok, hx⟩ := hstep
      obtain ⟨w', hpath', href'⟩ := href.exec hok hx
      exact ⟨w', hpath.trans hpath', href'⟩

end Paths

end RaftLock

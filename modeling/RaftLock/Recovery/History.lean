import RaftLock.Recovery.Turns
import RaftLock.Safety.Compaction

/-!
The files of the servers, in runs with compactions and restarts.

What a server has committed is the beginning of one list of entries, however
much of it has been compacted. Its snapshot is the replay of the part before
the start of its log, and its main files are the replay of all of it, whether
the process has applied the entries one by one or has been started again from
the snapshot and the saved log.
-/

namespace RaftLock

open Appends Consensus Outcome

/-! ### The log behind a window -/

section Windows

variable {r r' : RaftState} {L L' : List LogEntry} {i : ℤ}

/-- The entries before the window and those of the window up to `i`. -/
theorem Holds.take_eq (h : Holds r L) (hlo : r.startLogIndex ≤ i) (hhi : i ≤ r.logCount) :
    L.take i.toNat = L.take r.startLogIndex.toNat ++ entriesTo r.cored i := by
  have hstart := h.start_nonneg
  have hlen := h.length
  have hsum : i.toNat = r.startLogIndex.toNat + (i - r.startLogIndex).toNat := by omega
  rw [hsum, List.take_add]
  congr 1
  refine List.ext_getElem? fun k => ?_
  simp only [entriesTo, RaftState.cored_startLogIndex, List.getElem?_map]
  rcases Nat.lt_or_ge k (i - r.startLogIndex).toNat with hk | hk
  · have hget := getLog_of_mem (r := r) (i := r.startLogIndex + k) (by omega) (by omega)
    have hentry := h.entry _ _ hget
    rw [List.getElem?_take_of_lt hk, List.getElem?_drop, List.getElem?_range hk]
    rw [show (r.startLogIndex + (k : ℤ)).toNat = r.startLogIndex.toNat + k by omega,
      show (r.startLogIndex + (k : ℤ) - r.startLogIndex).toNat = k by omega] at hentry
    exact hentry
  · have hrange : (List.range (i - r.startLogIndex).toNat)[k]? = none := by simpa using hk
    rw [hrange, List.getElem?_eq_none (by simp only [List.length_take]; omega)]
    rfl

/-- The entries the commit loop has come by are the next ones of the list. -/
theorem take_of_turns {turns : List (ℤ × LogEntry)} {a : ℤ} {m : ℕ} (ha : 0 ≤ a)
    (hindices : turns.map Prod.fst = (List.range m).map fun k : ℕ => a + (k : ℤ))
    (hentry : ∀ x ∈ turns, L[x.1.toNat]? = some x.2.core) :
    L.take (a.toNat + m) = L.take a.toNat ++ turns.map fun x => x.2.core := by
  have hlen : turns.length = m := by simpa using congrArg List.length hindices
  rw [List.take_add]
  congr 1
  refine List.ext_getElem? fun k => ?_
  rw [List.getElem?_map]
  rcases Nat.lt_or_ge k m with hk | hk
  · have hlt : k < turns.length := hlen ▸ hk
    have hindex : turns[k].1 = a + (k : ℤ) := by
      have hget := congrArg (fun l => l[k]?) hindices
      simpa [hlt, hk] using hget
    have hmine := hentry _ (List.getElem_mem hlt)
    rw [hindex, show (a + (k : ℤ)).toNat = a.toNat + k by omega] at hmine
    rw [List.getElem?_take_of_lt hk, List.getElem?_drop, List.getElem?_eq_getElem hlt, hmine]
    rfl
  · rw [List.getElem?_eq_none (by omega : turns.length ≤ k)]
    simp [hk]

/-- Two moments of a server, with the whole log behind each: what was committed
is the same. -/
structure Later (r : RaftState) (L : List LogEntry) (r' : RaftState) (L' : List LogEntry) :
    Prop where
  holds : Holds r L
  holds' : Holds r' L'
  begun : r.startLogIndex ≤ r.commitIndex + 1
  sound : Sound r'.cored
  commit : r.commitIndex ≤ r'.commitIndex
  same : L'.take (r.commitIndex + 1).toNat = L.take (r.commitIndex + 1).toNat

theorem Later.take_eq (h : Later r L r' L') (hi : i ≤ r.commitIndex + 1) :
    L'.take i.toNat = L.take i.toNat := by
  have hsame := congrArg (List.take i.toNat) h.same
  rw [List.take_take, List.take_take, min_eq_left (by omega)] at hsame
  exact hsame

theorem Later.extends (h : Later r L r' L') (hstart : r'.startLogIndex = r.startLogIndex) :
    Extends r.cored r'.cored := by
  refine ⟨hstart, h.commit, fun k hk => ?_⟩
  simp only [RaftState.cored_startLogIndex, RaftState.cored_commitIndex] at hk
  have hlen := h.holds.length
  have hlen' := h.holds'.length
  have hnonneg := h.holds.start_nonneg
  have hcount := h.sound.count
  have hcommit := h.commit
  simp only [RaftState.cored_commitIndex, RaftState.cored_logCount] at hcount
  have hsame := congrArg (fun l => l[(r.startLogIndex + (k : ℤ)).toNat]?) h.same
  simp only [List.getElem?_take_of_lt
    (show (r.startLogIndex + (k : ℤ)).toNat < (r.commitIndex + 1).toNat by omega)] at hsame
  have hnew := h.holds'.entry _ _
    (getLog_of_mem (r := r') (i := r.startLogIndex + k) (by omega) (by omega))
  have hlt : (r.startLogIndex + (k : ℤ)).toNat < L.length := by
    rw [hnew] at hsame
    exact (List.getElem?_eq_some_iff.mp hsame.symm).1
  have hold := h.holds.entry _ _
    (getLog_of_mem (r := r) (i := r.startLogIndex + k) (by omega) (by omega))
  rw [hnew, hold, Option.some.injEq, hstart,
    show (r.startLogIndex + (k : ℤ) - r.startLogIndex).toNat = k by omega] at hsame
  exact hsame

theorem Sound.of_agrees {st : RaftState} (h : Sound r.cored) (hst : Agrees st r) :
    Sound st.cored := by
  have hget : ∀ i, getLog st.cored i = getLog r.cored i := by
    intro i
    rw [getLog_cored, getLog_cored]
    simp only [getLog, hst.startLogIndex, hst.logCount, hst.log]
  refine ⟨⟨?_, ?_, ?_⟩, fun i e he => h.numbered i e ((hget i).symm.trans he)⟩
  · show st.startLogIndex ≤ st.commitIndex + 1
    rw [hst.startLogIndex, hst.commitIndex]
    exact h.start
  · show st.commitIndex < st.logCount
    rw [hst.commitIndex, hst.logCount]
    exact h.count
  · show st.logCount ≤ st.startLogIndex + (logSize : ℤ)
    rw [hst.logCount, hst.startLogIndex]
    exact h.room

end Windows

/-! ### One server -/

theorem Node.view_up {n : Node} (h : n.up = true) : n.view = n.raft := if_pos h

theorem Node.view_down {n : Node} (h : n.up = false) : n.view = forget (n.saved.getD n.raft) :=
  if_neg (by simp [h])

/-- What a server's files have to do with the log behind its window. -/
structure Node.Shows (n : Node) (L : List LogEntry) : Prop where
  store : StoreInv ⟨n.stored, L.take n.view.startLogIndex.toNat⟩
  main : n.up = true →
    n.files .main = replay emptyFiles (L.take (n.raft.commitIndex + 1).toNat)

section Shows

variable {n n' : Node} {L L' : List LogEntry} {r : RaftState}

/-- The file `raft_state` goes with the server's state. -/
def Node.Synced (n : Node) : Prop := ∀ st, n.saved = some st → Agrees st n.view

theorem NodeRefines.saved_view {threads : List LeaderThread} {opened : List ℤ}
    (h : NodeRefines n r threads opened) : n.Synced := by
  intro st hst
  cases hup : n.up with
  | true =>
      rw [Node.view_up hup]
      exact h.synced hup st hst
  | false =>
      rw [Node.view_down hup, hst]
      exact forget_agrees st

/-- A step in which no thread makes a step and no window moves. -/
theorem Node.Shows.settles (h : n.Shows L) (hlater : Later n.view L n'.view L')
    (hsync : n'.Synced) (hstart : n'.view.startLogIndex = n.view.startLogIndex)
    (hnum : n'.files.Numbered)
    (hfiles : ∀ id, n.view.startLogIndex ≤ id →
      n'.files (.snapshot id) = n.files (.snapshot id))
    (hthreads : CarriesOn n.stored n'.stored)
    (hmain : n'.up = true →
      n'.files .main = replay emptyFiles (L'.take (n'.raft.commitIndex + 1).toNat)) :
    n'.Shows L' where
  store := by
    rw [hstart, hlater.take_eq hlater.begun]
    have hextends : Extends n.stored.raft n'.stored.raft := hlater.extends hstart
    refine h.store.settles hextends hlater.sound (fun st hst => ?_) hnum hfiles hthreads
    obtain ⟨st', hst', rfl⟩ := Option.map_eq_some_iff.mp hst
    exact ⟨hlater.sound.of_agrees (hsync st' hst'), (hsync st' hst').startLogIndex⟩
  main := hmain

theorem Node.Shows.down (h : n.Shows L) (hdown : n.up = false) : n.snapshotThreads = [] :=
  h.store.down hdown

theorem Node.Shows.idle (h : n.Shows L) (hlater : Later n.view L n'.view L') (hsync : n'.Synced)
    (hsame : n.Same n') (hthreads : n'.snapshotThreads = n.snapshotThreads) : n'.Shows L' := by
  have hview : n'.view = n.view := by
    unfold Node.view
    rw [hsame.up, hsame.raft, hsame.saved]
  refine h.settles hlater hsync (by rw [hview]) (hsame.files ▸ h.store.files)
    (fun id _ => by rw [hsame.files]) ?_ fun hup => ?_
  · cases hup : n.up with
    | true =>
        refine .on [] hup (hsame.up.trans hup) ?_ (by simp) ?_
        · exact hthreads.trans (List.append_nil _).symm
        · exact congrArg (fun r => r.cored.snapshotInProgress) hview
    | false =>
        refine .off (hsame.up.trans hup) (hthreads.trans (h.down hup)) fun pc hpc => ?_
        have hnone := h.down hup
        exact absurd (hnone ▸ hpc : pc ∈ []) (by simp)
  · have hon : n.up = true := hsame.up ▸ hup
    have hsub := hlater.same
    rw [Node.view_up hon] at hsub
    rw [hsame.files, hsame.raft, h.main hon, hsub]

/-- The process ends, and no thread was making a snapshot. -/
theorem Node.Shows.ends (h : n.Shows L) (hlater : Later n.view L n'.view L') (hsync : n'.Synced)
    (hdown : n'.up = false) (hnone : n'.snapshotThreads = [])
    (hidle : ∀ pc ∈ n.snapshotThreads, pc.building = none)
    (hstart : n'.view.startLogIndex = n.view.startLogIndex) (hnum : n'.files.Numbered)
    (hfiles : ∀ id, n.view.startLogIndex ≤ id →
      n'.files (.snapshot id) = n.files (.snapshot id)) : n'.Shows L' :=
  h.settles hlater hsync hstart hnum hfiles (.off hdown hnone hidle)
    fun hup => absurd (hup.symm.trans hdown) (by simp)

/-- The window of a server that comes back from what effects have saved. -/
theorem Node.Shows.saved_start (h : n.Shows L) {st : RaftState} (hst : n.saved = some st) :
    st.startLogIndex = n.view.startLogIndex :=
  (h.store.saved st.cored (Option.map_eq_some_iff.mpr ⟨st, hst, rfl⟩)).2

/-- A section that is cut off, or that asserts. -/
theorem Node.Shows.cut (h : n.Shows L) (hlater : Later n.view L n'.view L') (hsync : n'.Synced)
    (hup : n.up = true) {n₁ : Node} (hsame : n.Same n₁) {o : Outcome} {crashAt : Option ℕ}
    (hn' : n' = n₁.settle o crashAt) (hcut : ¬ (crashAt = none ∧ o.fault = false))
    (hidle : ∀ pc ∈ n.snapshotThreads, pc.building = none)
    (hsaves : ∀ st, .save st ∈ o.effects → st.startLogIndex = n.raft.startLogIndex)
    (hfiles : ((Node.performed o crashAt).foldl Node.perform n₁).files.Numbered ∧
      ∀ id, n.raft.startLogIndex ≤ id →
        ((Node.performed o crashAt).foldl Node.perform n₁).files (.snapshot id) =
          n₁.files (.snapshot id)) : n'.Shows L' := by
  have hview := Node.view_up hup
  rw [settle_of_crash hcut] at hn'
  obtain ⟨hraft, -, -, -, hsaved⟩ := Node.foldl_perform (Node.performed o crashAt) n₁
  have hdown : n'.up = false := by rw [hn']; rfl
  have hnone : n'.snapshotThreads = [] := by rw [hn']; rfl
  refine h.ends hlater hsync hdown hnone hidle ?_ ?_ fun id hid => ?_
  · rw [Node.view_down hdown, hview]
    cases hst : n'.saved with
    | none =>
        have hsame' : n'.raft = n.raft := by
          rw [hn']
          exact hraft.trans hsame.raft
        show n'.raft.startLogIndex = n.raft.startLogIndex
        rw [hsame']
    | some st =>
        have hst' : savedAfter (Node.performed o crashAt) n₁.saved = some st := by
          rw [← hsaved, ← hst, hn']
          rfl
        show st.startLogIndex = n.raft.startLogIndex
        rcases mem_of_savedAfter hst' with hold | hmem
        · rw [← hview]
          exact h.saved_start (hsame.saved ▸ hold)
        · exact hsaves st (Node.mem_of_performed hmem)
  · rw [hn']
    exact hfiles.1
  · rw [hview] at hid
    rw [hn', ← hsame.files]
    exact hfiles.2 id hid

/-- A section of another thread. -/
theorem Node.Shows.runs (h : n.Shows L) (hlater : Later n.view L n'.view L') (hsync : n'.Synced)
    (hup : n.up = true) {n₁ : Node} {l : List SnapshotPc} (hsame : n.Same n₁)
    (hthreads : n₁.snapshotThreads = n.snapshotThreads ++ l) (hl : ∀ pc ∈ l, pc = .check)
    {o : Outcome} {crashAt : Option ℕ} (hn' : n' = n₁.settle o crashAt)
    (hplain : ∀ x ∈ o.effects, x.Plain n.raft)
    (hmoves : o.fault = false → o.raft.snapshotInProgress = n.raft.snapshotInProgress ∧
      o.raft.startLogIndex = n.raft.startLogIndex ∧ CommitsThrough n.raft o.raft o.effects)
    (hidle : n'.up = false → ∀ pc ∈ n.snapshotThreads, pc.building = none) : n'.Shows L' := by
  have hview := Node.view_up hup
  have hnum : n₁.files.Numbered := hsame.files ▸ h.store.files
  have hperformed : ∀ x ∈ Node.performed o crashAt, x.Plain n.raft := fun x hx =>
    hplain x (Node.mem_of_performed hx)
  have hfiles := foldl_plain hperformed hnum
  by_cases hwhole : crashAt = none ∧ o.fault = false
  · obtain ⟨rfl, hf⟩ := hwhole
    obtain ⟨hflag, hstart, hadv⟩ := hmoves hf
    have hon : n'.up = true := by
      rw [hn', Node.settle, if_pos ⟨rfl, hf⟩]
      exact (Node.foldl_perform _ n₁).2.1.trans (hsame.up.trans hup)
    have hview' := Node.view_up hon
    subst hn'
    obtain ⟨-, -, hraft, -, hthreads'⟩ := Node.settle_threads hon
    have hfiles' : (n₁.settle o none).files =
        ((Node.performed o none).foldl Node.perform n₁).files := by
      rw [Node.settle, if_pos ⟨rfl, hf⟩]
    refine h.settles hlater hsync ?_ ?_ (fun id _ => ?_) ?_ fun _ => ?_
    · rw [hview', hview, hraft, hstart]
    · rw [hfiles']
      exact hfiles.1
    · rw [hfiles', hfiles.2 _ (by simp), hsame.files]
    · refine .on l hup hon (hthreads'.trans hthreads) hl ?_
      show (n₁.settle o none).view.snapshotInProgress = n.view.snapshotInProgress
      rw [hview', hview, hraft, hflag]
    · -- the turns of the commit loop, behind what the files showed before
      rw [Node.settle_main hon fun x hx => (hplain x hx).aside, hsame.files, h.main hup, hraft,
        ← replay_core _ ((turnsOf o.effects).map Prod.snd), List.map_map, ← replay_append]
      congr 1
      have hbegun := hlater.begun
      have hnonneg := hlater.holds.start_nonneg
      have hle := hadv.le
      have hsame' := hlater.same
      rw [hview] at hbegun hnonneg hsame'
      have htake := take_of_turns (L := L') (by omega) hadv.indices fun x hx => by
        refine hlater.holds'.entry x.1 x.2 ?_
        rw [hview', hraft]
        exact hadv.entry x hx
      rw [hsame'] at htake
      refine htake.symm.trans ?_
      congr 1
      omega
  · have hdown : n'.up = false := by
      rw [hn', settle_of_crash hwhole]
      rfl
    exact h.cut hlater hsync hup hsame hn' hwhole (hidle hdown) (fun st hst => hplain _ hst)
      ⟨hfiles.1, fun id _ => hfiles.2 _ (by simp)⟩

/-- Outside the critical sections the only files a thread that makes no snapshot
touches are those of an earlier one. -/
theorem Progress.removes {past : List LogEntry} {files : FileSystem} {pc : SnapshotPc}
    (h : Progress past r files pc) (hpc : pc.building = none) (r' : RaftState) :
    ∀ x ∈ (snapshotStep r' pc).1.effects,
      ∃ id : ℤ, x = .removeSnapshot id ∧ 0 ≤ id ∧ id < r.startLogIndex := by
  intro x hx
  cases pc with
  | remove prev =>
      obtain rfl := List.mem_singleton.mp hx
      exact ⟨prev, rfl, h⟩
  | check =>
      simp only [snapshotStep] at hx
      split_ifs at hx <;> exact absurd hx (by simp [ret])
  | argument => exact absurd hx (by simp [snapshotStep, ret])
  | enter n =>
      simp only [snapshotStep] at hx
      split at hx <;> exact absurd hx (by simp [ret])
  | _ => simp [SnapshotPc.building] at hpc

theorem foldl_removes {start : ℤ} {es : List Effect}
    (h : ∀ x ∈ es, ∃ id : ℤ, x = .removeSnapshot id ∧ 0 ≤ id ∧ id < start)
    (hn : n.files.Numbered) : (es.foldl Node.perform n).files.Numbered ∧
      ∀ id, start ≤ id →
        (es.foldl Node.perform n).files (.snapshot id) = n.files (.snapshot id) := by
  induction es generalizing n with
  | nil => exact ⟨hn, fun _ _ => rfl⟩
  | cons x es ih =>
      obtain ⟨old, rfl, hold, hlt⟩ := h x List.mem_cons_self
      obtain ⟨hnum, hdirs⟩ := ih (n := n.perform (.removeSnapshot old))
        (fun y hy => h y (List.mem_cons_of_mem _ hy)) (hn.removeSnapshot old)
      refine ⟨hnum, fun id hid => (hdirs id hid).trans (FileSystem.removeSnapshot_of_ne ?_)⟩
      rw [getSnapshotPath_of_nonneg hold]
      simp only [ne_eq, Dir.snapshot.injEq]
      omega

/-- Making a snapshot, a thread writes no main file and commits nothing. -/
theorem Progress.aside {past : List LogEntry} {files : FileSystem} {pc : SnapshotPc}
    (h : Progress past r files pc) (hstart : 0 ≤ r.startLogIndex) (r' : RaftState) :
    ∀ x ∈ (snapshotStep r' pc).1.effects, x.Aside := by
  cases hpc : pc.building with
  | none =>
      intro x hx
      obtain ⟨id, rfl, hid, -⟩ := h.removes hpc r' x hx
      show id ≠ -1
      omega
  | some m =>
      have hlt := h.start_lt hpc
      refine SnapshotPc.Aside.effects ?_
      cases pc with
      | check | argument | enter | remove => simp [SnapshotPc.building] at hpc
      | _ =>
          obtain rfl := Option.some.inj hpc
          exact hstart.trans hlt.le

theorem snapshotStep_idle {pc : SnapshotPc} (hf : (snapshotStep r pc).1.fault = false) :
    turnsOf (snapshotStep r pc).1.effects = [] ∧
      (snapshotStep r pc).1.raft.commitIndex = r.commitIndex := by
  have hsection := snapshotStep_section r pc
  generalize (snapshotStep r pc).1 = o at hsection hf ⊢
  cases hsection with
  | enter n hpc he => exact ⟨rfl, rfl⟩
  | shift n prev hpc =>
      obtain ⟨-, heq⟩ := createSnapshotShift_ok hf
      rw [heq]
      exact ⟨rfl, rfl⟩
  | plain _ hraft hes => exact ⟨turnsOf_late fun y hy => (hes y hy).2, by rw [hraft]⟩

/-- The past a thread leaves behind is a beginning of the log, and committed. -/
theorem Node.Shows.pastAfter (h : n.Shows L) (hup : n.up = true) (hholds : Holds n.raft L)
    {k : ℕ} {pc : SnapshotPc} (hk : n.snapshotThreads[k]? = some pc) :
    ∃ i ≤ n.raft.commitIndex + 1, Store.pastAfter ⟨n.cored, L.take n.raft.startLogIndex.toNat⟩ pc =
      L.take i.toNat ∧ ((L.take i.toNat).length : ℤ) = i := by
  have hstore := h.store
  rw [Node.stored_of_up hup, Node.view_up hup] at hstore
  have hbegun : n.raft.startLogIndex ≤ n.raft.commitIndex + 1 := hstore.sound.start
  have hcount : n.raft.commitIndex < n.raft.logCount := hstore.sound.count
  have hnonneg := hholds.start_nonneg
  have hlen := hholds.length
  have hkeep : Store.pastAfter ⟨n.cored, L.take n.raft.startLogIndex.toNat⟩ pc =
      L.take n.raft.startLogIndex.toNat → ∃ i ≤ n.raft.commitIndex + 1,
        Store.pastAfter ⟨n.cored, L.take n.raft.startLogIndex.toNat⟩ pc = L.take i.toNat ∧
        ((L.take i.toNat).length : ℤ) = i := by
    intro heq
    refine ⟨n.raft.startLogIndex, hbegun, heq, ?_⟩
    rw [List.length_take]
    omega
  cases pc with
  | shift m prev =>
      obtain ⟨ht, -, -⟩ := hstore.progress _ (List.mem_of_getElem? hk)
      have hlo : n.raft.startLogIndex < m := ht.start
      have hhi : m ≤ n.raft.commitIndex + 1 := ht.commit
      refine ⟨m, hhi, (hholds.take_eq hlo.le (by omega)).symm, ?_⟩
      rw [List.length_take]
      omega
  | _ => exact hkeep rfl

/-- A thread in `Raft_create_snapshot` goes on. -/
theorem Node.Shows.thread (h : n.Shows L) (hlater : Later n.view L n'.view L') (hup : n.up = true)
    {k : ℕ} {pc : SnapshotPc} (hk : n.snapshotThreads[k]? = some pc)
    (hf : (snapshotStep n.raft pc).1.fault = false)
    (hn' : n' = { n with
      snapshotThreads := List.replaceAt n.snapshotThreads k (snapshotStep n.raft pc).2 }.settle
        (snapshotStep n.raft pc).1 none) : n'.Shows L' := by
  have hstore := h.store
  rw [Node.stored_of_up hup, Node.view_up hup] at hstore
  have hon : n'.up = true := by
    rw [hn', Node.settle, if_pos ⟨rfl, hf⟩]
    exact (Node.foldl_perform _ _).2.1.trans hup
  have hnext : StoreInv ⟨n'.cored,
      Store.pastAfter ⟨n.cored, L.take n.raft.startLogIndex.toNat⟩ pc⟩ := by
    have hrun := hstore.thread hup hk
    rw [hn', Node.settle_cored]
    simp only [Store.runThread] at hrun
    have hstep : snapshotStep n.cored.raft pc = _ := snapshotStep_cored n.raft pc
    rw [hstep] at hrun
    exact hrun
  have hholds : Holds n.raft L := Node.view_up hup ▸ hlater.holds
  obtain ⟨i, hi, hpast, hlen⟩ := h.pastAfter hup hholds hk
  have hstart : n'.view.startLogIndex = i := by
    rw [Node.view_up hon, ← hlen, ← hpast]
    exact hnext.past.symm
  have hsame := hlater.take_eq (i := i) (by rw [Node.view_up hup]; exact hi)
  refine ⟨?_, fun _ => ?_⟩
  · rw [Node.stored_of_up hon, hstart, hsame, ← hpast]
    exact hnext
  · have hprogress := hstore.progress pc (List.mem_of_getElem? hk)
    obtain ⟨hturns, hcommit⟩ := snapshotStep_idle hf
    have hmain := hlater.same
    rw [Node.view_up hup] at hmain
    subst hn'
    rw [Node.settle_main hon (hprogress.aside hholds.start_nonneg n.raft), hturns,
      (Node.settle_threads hon).2.2.1, hcommit, hmain]
    exact h.main hup

/-- A restart from the snapshot and the saved log. -/
theorem Node.Shows.restart (h : n.Shows L) (hlater : Later n.view L n'.view L')
    (hdown : n.up = false) {st : RaftState} (hst : n.saved = some st)
    (hn' : n' = (n.reloaded st).settle (serverRestore st) none) : n'.Shows L' := by
  have hst' : n.stored.saved = some st.cored := Option.map_eq_some_iff.mpr ⟨st, hst, rfl⟩
  have hsound := (h.store.saved st.cored hst').1
  have hview : n.view = forget st := by
    rw [Node.view_down hdown, hst]
    rfl
  have hf : (serverRestore st).fault = false := by
    obtain ⟨rest, -, heq⟩ := serverRestore_eq hsound.toShape
    have hcored : (serverRestore st).cored.fault = false := by
      rw [← serverRestore_cored, heq]
      rfl
    exact hcored
  have hon : n'.up = true := by
    rw [hn', Node.settle, if_pos ⟨rfl, hf⟩]
    exact (Node.foldl_perform _ _).2.1
  have hraft : n'.raft = forget st := by
    subst hn'
    exact (Node.settle_up hon).2.1.trans (serverRestore_ok hf)
  have hcored : (n.stored.reloaded st.cored).settle (serverRestore st.cored) none = n'.cored := by
    rw [hn', Node.settle_cored, serverRestore_cored]
    rfl
  have hview' : n'.view = n.view := by rw [Node.view_up hon, hraft, hview]
  refine ⟨?_, fun _ => ?_⟩
  · have hrestored := h.store.restore hdown hst' none
    rw [hcored] at hrestored
    rw [Node.stored_of_up hon, hview', hlater.take_eq hlater.begun]
    exact hrestored
  · have hbuilt := h.store.rebuilt hst'
    rw [hcored] at hbuilt
    have hcount : n.view.commitIndex < n.view.logCount := by
      rw [hview]
      exact hsound.count
    have htake := hlater.holds.take_eq (i := n.view.commitIndex + 1) hlater.begun (by omega)
    have hcommit : n'.raft.commitIndex = n.view.commitIndex := by rw [hraft, hview]
    rw [hcommit, hlater.same, htake]
    refine hbuilt.trans ?_
    rw [hview]
    rfl

end Shows

/-! ### The cluster -/

/-- No process ends while one of its threads makes a snapshot. -/
def Unbroken (c : Cluster) (x : Action) : Prop :=
  ∀ c' ∈ c.exec x, ∀ s, (c.nodes s).up = true → (c'.nodes s).up = false →
    ∀ pc ∈ (c.nodes s).snapshotThreads, pc.building = none

/-- A client's entry writes to the hundred files only. -/
def Action.Numbered : Action → Prop
  | .append _ e _ => ({ e with type := .clientLog } : LogEntry).Numbered
  | _ => True

/-- Runs in which servers may compact their logs, crash and come back. -/
def lasting (c : Cluster) (x : Action) : Prop :=
  compacting.allows c x ∧ Unbroken c x ∧ x.Numbered

/-- The files of the servers, in a cluster behind which there is a run of the
protocol. -/
structure Retells (config : Config) (c : Cluster) (w : World) (p : Protocol)
    (C : Server → ℤ → Finset Server) : Prop where
  refines : Refines c w
  inv : AgreeInv config w p C
  compacts : Compacts w
  kept : c.Kept LogEntry.Numbered
  seen : ∀ s, Kept LogEntry.Numbered (c.nodes s).view
  shows : ∀ s, (c.nodes s).Shows (p.log s)

section Retells

variable {config : Config} {c c' : Cluster} {w w' : World} {p p' : Protocol}
  {C C' : Server → ℤ → Finset Server} {s : Server} {x : Action} {n n' : Node}
  {K : LogEntry → Prop} {g : Guard}

/-- A server that is down and has never saved its state keeps its log. -/
theorem StoreTurn.unsaved (h : StoreTurn g c s n n') (hdown : n'.up = false)
    (hnone : n'.saved = none) : n'.raft = n.raft ∧ (n.up = false → n.saved = none) := by
  have hcut : ∀ (n₁ : Node) (o : Outcome) (crashAt : Option ℕ), n₁.raft = n.raft →
      n₁.up = true → (n₁.settle o crashAt).up = false → (n₁.settle o crashAt).raft = n.raft := by
    intro n₁ o crashAt hraft hup hoff
    by_cases hwhole : crashAt = none ∧ o.fault = false
    · rw [Node.settle, if_pos hwhole] at hoff
      exact absurd (((Node.foldl_perform _ n₁).2.1.trans hup).symm.trans hoff) (by simp)
    · rw [settle_of_crash hwhole]
      exact (Node.foldl_perform _ n₁).1.trans hraft
  cases h with
  | idle n' hsame hthreads => exact ⟨hsame.raft, fun _ => hsame.saved ▸ hnone⟩
  | crash hup => exact ⟨rfl, fun hoff => absurd (hup.symm.trans hoff) (by simp)⟩
  | runs x n₁ o crashAt l hsame hup hthreads hl hx hruns =>
      exact ⟨hcut n₁ o crashAt hsame.raft (hsame.up.trans hup) hdown,
        fun hoff => absurd (hup.symm.trans hoff) (by simp)⟩
  | thread k pc crashAt hup hk =>
      exact ⟨hcut _ _ crashAt rfl hup hdown, fun hoff => absurd (hup.symm.trans hoff) (by simp)⟩
  | restart st hoff hsaved =>
      have hsame : ((n.reloaded st).settle (serverRestore st) none).saved = n.saved := by
        have hfold := (Node.foldl_perform (Node.performed (serverRestore st) none)
          (n.reloaded st)).2.2.2.2
        rw [savedAfter_quiet fun x hx => serverRestore_quiet st x (Node.mem_of_performed hx)]
          at hfold
        rw [Node.settle]
        split_ifs <;> exact hfold
      rw [hsame, hsaved] at hnone
      exact absurd hnone (by simp)

theorem kept_forget {r : RaftState} (h : Kept K r) : Kept K (forget r) :=
  h.of_window rfl rfl rfl

theorem StoreTurn.seen (h : StoreTurn g c s n n') (hold : Kept K n.view)
    (hraft : n'.up = true → Kept K n'.raft) (hsaved : ∀ st, n'.saved = some st → Kept K st) :
    Kept K n'.view := by
  cases hup : n'.up with
  | true =>
      rw [Node.view_up hup]
      exact hraft hup
  | false =>
      rw [Node.view_down hup]
      cases hst : n'.saved with
      | some st => exact kept_forget (hsaved st hst)
      | none =>
          obtain ⟨hsame, hnever⟩ := h.unsaved hup hst
          refine kept_forget (?_ : Kept K n'.raft)
          rw [hsame]
          cases hon : n.up with
          | true => exact Node.view_up hon ▸ hold
          | false =>
              rw [Node.view_down hon, hnever hon] at hold
              exact hold.of_window rfl rfl rfl

/-- What is committed at a server stays, whatever the server goes through. -/
theorem Retells.later (h : Retells config c w p C) (hinv' : AgreeInv config w' p' C')
    (href' : Refines c' w') (hcompacts' : Compacts w') (hs : Proto.Steps LogEntry.term p p')
    (hle : (w.raft s).commitIndex ≤ (w'.raft s).commitIndex)
    (hseen : Kept LogEntry.Numbered (c'.nodes s).view) :
    Later (c.nodes s).view (p.log s) (c'.nodes s).view (p'.log s) := by
  rw [← (h.refines.node s).view, ← (href'.node s).view] at *
  refine ⟨h.inv.sim.holds s, hinv'.sim.holds s, (h.compacts.window s).start, ?_, hle,
    Proto.Steps.take_eq h.inv.sim.inv hs (h.inv.known.committed s)⟩
  have hshape := hcompacts'.shape hinv' s
  refine ⟨⟨hshape.start, hshape.count, hshape.room⟩, fun i e he => ?_⟩
  rw [getLog_cored] at he
  obtain ⟨e', he', rfl⟩ := Option.map_eq_some_iff.mp he
  exact hseen i e' he'

/-- What a thread has tested in the first critical section of
`Raft_create_snapshot` still holds when it comes to the second one. -/
theorem Retells.allows_targeted (h : Retells config c w p C) (hok : compacting.allows c x) :
    targeted.allows c x := by
  cases x with
  | snapshotThread v k crashAt =>
      intro pc hpc
      cases pc with
      | shift n prev =>
          have hstore := (h.shows v).store
          have hmem := List.mem_of_getElem? hpc
          have hup : (c.nodes v).up = true := by
            by_contra hdown
            rw [(h.shows v).down (by simpa using hdown)] at hmem
            exact absurd hmem (by simp)
          rw [Node.stored_of_up hup] at hstore
          obtain ⟨ht, -, -⟩ := hstore.progress _ hmem
          exact ⟨ht.start, ht.commit⟩
      | _ => trivial
  | deliver k crashAt => exact hok
  | leaderThread v k => exact hok
  | _ => trivial

theorem targeted_elects : targeted.elects LogEntry.Numbered := by
  intro l r d _ _ w hw
  exact absurd hw (by simp [LogEntry.fileWrites, leaderEntry, LogEntry.core])

theorem Retells.kept_append (h : Retells config c w p C) (hx : c.exec x = some c')
    (hnum : x.Numbered) (v : Server) (e : LogEntry) (crashAt : Option ℕ)
    (happend : x = .append v e crashAt) :
    (appendEntry (c.nodes v).raft e).Kept LogEntry.Numbered := by
  subst happend
  simp only [Cluster.exec] at hx
  split_ifs at hx with hup
  exact kept_appendEntry (h.kept.raft v hup) fun _ => hnum

theorem Retells.shows_next (h : Retells config c w p C) (hok : targeted.allows c x)
    (hx : c.exec x = some c') (hunbroken : Unbroken c x) (href' : Refines c' w')
    (hlater : Later (c.nodes s).view (p.log s) (c'.nodes s).view (p'.log s)) :
    (c'.nodes s).Shows (p'.log s) := by
  have hshows := h.shows s
  have hsync := (href'.node s).saved_view
  have hidle := hunbroken c' hx s
  have hturn := Cluster.exec_store hok hx s
  generalize hn' : c'.nodes s = n' at hlater hsync hidle hturn ⊢
  cases hturn with
  | idle _ hsame hthreads => exact hshows.idle hlater hsync hsame hthreads
  | crash hup =>
      have hview := (h.refines.saved_agrees hup).startLogIndex
      refine hshows.ends hlater hsync rfl rfl (hidle hup rfl) ?_ hshows.store.files
        fun _ _ => rfl
      rw [← (h.refines.node s).view]
      exact hview
  | runs x n₁ o crashAt l hsame hup hthreads hl hx' hruns =>
      have hno : ∀ d ∈ c.net, ∀ q, d.packet ≠ .installSnapshot q :=
        h.refines.net ▸ h.compacts.net
      have hfree : (c.nodes s).raft.installSnapshotId = -1 :=
        (h.refines.node s).raft_eq hup ▸ (h.compacts.window s).free
      refine hshows.runs hlater hsync hup hsame hthreads hl rfl
        (hruns.plain hx' hfree (h.kept.raft s hup) hno h.kept.net) (fun hf => ?_) (hidle hup)
      obtain ⟨hflag, hstart⟩ := hruns.unshifted hx' hno hf
      exact ⟨hflag, hstart, (hruns.orderly hx' hno fun _ _ hpass => hpass.2.2).advances hf⟩
  | thread k pc crashAt hup hk =>
      by_cases hwhole : crashAt = none ∧ (snapshotStep (c.nodes s).raft pc).1.fault = false
      · obtain ⟨rfl, hf⟩ := hwhole
        exact hshows.thread hlater hup hk hf rfl
      · have hnone := hidle hup (by rw [settle_of_crash hwhole]; rfl)
        have hstore := hshows.store
        rw [Node.stored_of_up hup] at hstore
        have hmem := List.mem_of_getElem? hk
        have hremoves := (hstore.progress pc hmem).removes (hnone pc hmem) (c.nodes s).raft
        have hsame : (c.nodes s).Same { c.nodes s with
            snapshotThreads := List.replaceAt (c.nodes s).snapshotThreads k
              (snapshotStep (c.nodes s).raft pc).2 } := ⟨rfl, rfl, rfl, rfl, rfl⟩
        refine hshows.cut hlater hsync hup hsame rfl hwhole hnone (fun st hst => ?_)
          (foldl_removes (fun y hy => hremoves y (Node.mem_of_performed hy)) hstore.files)
        obtain ⟨id, heq, -⟩ := hremoves _ hst
        exact absurd heq (by simp)
  | restart st hdown hsaved => exact hshows.restart hlater hdown hsaved rfl

theorem Retells.step (hinj : Function.Injective config) (hvalid : ∀ v, config v ≠ -1)
    (h : Retells config c w p C) (hok : lasting c x) (hx : c.exec x = some c') :
    ∃ w' p' C', Retells config c' w' p' C' := by
  obtain ⟨hallows, hunbroken, hnum⟩ := hok
  have htarget := h.allows_targeted hallows
  obtain ⟨w', hpath, href'⟩ := h.refines.exec htarget hx
  obtain ⟨p', C', hs, hinv', hcompacts', hle⟩ := h.compacts.path hinj hvalid h.inv hpath
  have hkept' := h.kept.exec targeted_elects htarget hx (h.kept_append hx hnum)
  have hseen' : ∀ s, Kept LogEntry.Numbered (c'.nodes s).view := fun s =>
    (Cluster.exec_store htarget hx s).seen (h.seen s) (hkept'.raft s) (hkept'.saved s)
  exact ⟨w', p', C', href', hinv', hcompacts', hkept', hseen', fun s =>
    h.shows_next htarget hx hunbroken href'
      (h.later hinv' href' hcompacts' hs (hle s) (hseen' s))⟩

theorem sound_init (config : Config) (s : Server) : Sound (Node.init config s).raft.cored := by
  have hshape := shape_init config s
  refine ⟨⟨hshape.start, hshape.count, hshape.room⟩, fun i e he => ?_⟩
  obtain ⟨hlo, hhi, -⟩ := getLog_some he
  simp only [Node.init, serverInit, RaftState.cored_startLogIndex, RaftState.cored_logCount]
    at hlo hhi
  omega

theorem shows_init (config : Config) (s : Server) : (Node.init config s).Shows [] where
  store := by
    have hinit := storeInv_init config s
    have hcored : (Node.init config s).stored = (Node.init config s).cored :=
      Node.stored_of_up rfl
    have hfiles : (Node.init config s).cored.files = (Store.init config s).node.files := rfl
    rw [hcored, List.take_nil]
    have hextends : Extends (Node.init config s).cored.raft (Node.init config s).cored.raft :=
      .of_eq rfl rfl rfl
    exact hinit.settles hextends (sound_init config s) (by simp [Node.cored, Node.init]) hinit.files
      (fun _ _ => congrFun hfiles _) (.on [] rfl rfl rfl (by simp) rfl)
  main _ := cleanMainFiles_eq fun _ _ _ => rfl

theorem retells_init (config : Config) :
    Retells config (Cluster.init config) (World.init config) Proto.init fun _ _ => ∅ where
  refines := refines_init config
  inv := agreeInv_init config
  compacts := compacts_init config
  kept := Cluster.kept_init config
  seen s i e he := by
    obtain ⟨hlo, hhi, -⟩ := getLog_some he
    simp only [Cluster.init, Node.view, Node.init, serverInit, if_true] at hlo hhi
    omega
  shows := shows_init config

theorem retells_run (hinj : Function.Injective config) (hvalid : ∀ v, config v ≠ -1)
    (hrun : Cluster.Run config lasting c) : ∃ w p C, Retells config c w p C := by
  induction hrun with
  | refl => exact ⟨_, _, _, retells_init config⟩
  | tail _ hstep ih =>
      obtain ⟨w, p, C, h⟩ := ih
      obtain ⟨x, hok, hx⟩ := hstep
      exact h.step hinj hvalid hok hx

/-- What is committed at a server, read off the record of a later moment. -/
theorem Retells.take_eq (h : Retells config c w p C) (hsub : c.commits <+: c'.commits)
    (hagree : ∀ x ∈ c'.commits, ∀ y ∈ c'.commits, x.2.1 = y.2.1 → x.2.2.core = y.2.2.core)
    {k : ℤ} (hk : k ≤ (w.raft s).commitIndex + 1) :
    (p.log s).take k.toNat = (List.range k.toNat).map (historyAt c'.commits) := by
  have hinv := h.inv.sim.inv
  have hcommitted := h.inv.known.committed s
  have hlen := hcommitted.le_length hinv
  refine List.ext_getElem? fun i => ?_
  rw [List.getElem?_map]
  rcases Nat.lt_or_ge i k.toNat with hi | hi
  · have hlt : i < (p.log s).length := by omega
    have hentry := hcommitted.entry hinv (i := i) (by omega) (List.getElem?_eq_getElem hlt)
    obtain ⟨x, hx, hindex⟩ := h.compacts.recorded s i (by omega) (by omega)
    have happlied := (h.inv.known.applied x hx).2
    rw [h.refines.commits] at hx
    have hhistory := historyAt_of_mem hagree (hsub.subset hx) (by omega)
    rw [hindex, Int.toNat_natCast] at happlied hhistory
    rw [happlied.unique hinv hentry] at hhistory
    rw [List.getElem?_take_of_lt hi, List.getElem?_eq_getElem hlt, List.getElem?_range hi,
      Option.map_some, hhistory]
  · rw [List.getElem?_eq_none (by simp only [List.length_take]; omega),
      List.getElem?_eq_none (by simpa using hi)]
    rfl

/-- **One history**: behind a run there is one list of entries. At every moment
of the run each running server's main files are the replay of its beginning, up
to the server's commit index, on empty files; the snapshot a compacted log
starts at is the replay of the part before it; and the entries in the window
are those of the list. -/
theorem compacted_files_show_one_history (hinj : Function.Injective config)
    (hvalid : ∀ s, config s ≠ -1) (hrun' : Cluster.Run config lasting c') :
    ∃ history : ℕ → LogEntry, ∀ c s, Cluster.Run config lasting c → Cluster.Steps lasting c c' →
      (c.nodes s).up = true →
      let r := (c.nodes s).raft
      (c.nodes s).files .main =
        replay emptyFiles ((List.range (r.commitIndex + 1).toNat).map history) ∧
      (r.startLogIndex ≠ 0 → (c.nodes s).files (.snapshot r.startLogIndex) =
        replay noFiles ((List.range r.startLogIndex.toNat).map history)) ∧
      ∀ i e, i ≤ r.commitIndex → getLog r i = some e → history i.toNat = e.core := by
  obtain ⟨w', p', C', h'⟩ := retells_run hinj hvalid hrun'
  have hagree := commits_agree_of_inv h'.refines h'.inv
  refine ⟨historyAt c'.commits, fun c s hrun hsteps hup => ?_⟩
  obtain ⟨w, p, C, h⟩ := retells_run hinj hvalid hrun
  have hview := (h.refines.node s).raft_eq hup
  have hshows := h.shows s
  have hsub := steps_commits (Machine.Steps.weaken (fun _ _ hok => hok.1) hsteps)
  have htake := fun k => h.take_eq (s := s) (k := k) hsub hagree
  rw [hview] at htake
  refine ⟨?_, fun hstart => ?_, fun i e hi he => ?_⟩
  · rw [hshows.main hup, htake _ le_rfl]
  · have hstore := hshows.store
    rw [Node.stored_of_up hup, Node.view_up hup] at hstore
    have hstart' : (c.nodes s).raft.startLogIndex ≤ (c.nodes s).raft.commitIndex + 1 :=
      hstore.sound.start
    rw [← htake _ hstart']
    exact hstore.snapshot hstart
  · have hholds := h.inv.sim.holds s
    rw [hview] at hholds
    have hlo := (getLog_some he).1
    have hnonneg := hholds.start_nonneg
    have hentry := hholds.entry i e he
    have hbound := congrArg (fun l => l[i.toNat]?) (htake (i + 1) (by omega))
    have hlt : i.toNat < (i + 1).toNat := by omega
    simp only [List.getElem?_take_of_lt hlt, hentry, List.getElem?_map,
      List.getElem?_range hlt, Option.map_some, Option.some.injEq] at hbound
    exact hbound.symm

instance (r : RaftState) (t : LeaderThread) : Decidable (InWindow r t) :=
  inferInstanceAs (Decidable (_ → _))

instance (x : Action) : Decidable x.Numbered :=
  match x with
  | .append _ e _ =>
    inferInstanceAs (Decidable ({ e with type := .clientLog } : LogEntry).Numbered)
  | .timeout _ | .elect _ _ | .retry _ _ | .deliver _ _ | .drop _ | .leaderThread _ _
  | .snapshotThread _ _ _ | .crash _ | .restart _ => inferInstanceAs (Decidable True)

instance (c : Cluster) (x : Action) : Decidable (Unbroken c x) :=
  inferInstanceAs (Decidable (∀ c' ∈ c.exec x, ∀ s, (c.nodes s).up = true →
    (c'.nodes s).up = false → ∀ pc ∈ (c.nodes s).snapshotThreads, pc.building = none))

instance (c : Cluster) (x : Action) : Decidable (lasting c x) :=
  inferInstanceAs (Decidable (compacting.allows c x ∧ Unbroken c x ∧ x.Numbered))

/-- Sixty entries are committed by servers `0`, `1` and `2`, server `0` compacts
fifty of them, crashes and comes back. -/
def compactAndReturn : List Action :=
  firstElection ++ exchange ++ exchange ++ (Action.append 0 byteForSeven none :: exchange) ++
    (List.replicate 59 (Action.append 0 emptyEntry none :: exchange)).flatten ++
    List.replicate 58 (.snapshotThread 0 0 none) ++ [.crash 0, .restart 0]

set_option maxRecDepth 100000 in
theorem compactAndReturn_runs : ((Cluster.init plainConfig).execWhile
    (fun c x => decide (lasting c x)) compactAndReturn).any (fun c => committedTo c 0 60 &&
      decide ((c.nodes 0).raft.startLogIndex = 50)) = true := by
  decide +kernel

theorem first_compaction_survives_restart : ∃ c, Cluster.Run plainConfig lasting c ∧
    committedTo c 0 60 = true ∧ (c.nodes 0).raft.startLogIndex = 50 ∧
    ∃ history : ℕ → LogEntry,
      (c.nodes 0).files .main = replay emptyFiles ((List.range 61).map history) ∧
      (c.nodes 0).files (.snapshot 50) = replay noFiles ((List.range 50).map history) := by
  obtain ⟨c, hrun, htest⟩ := Machine.exists_of_execWhile lasting
    (fun _ _ h => of_decide_eq_true h) compactAndReturn_runs
  obtain ⟨hto, hstart⟩ := (Bool.and_eq_true _ _).mp htest
  replace hstart := of_decide_eq_true hstart
  have hcommit := hto
  simp only [committedTo, Bool.and_eq_true, decide_eq_true_eq] at hcommit
  obtain ⟨history, hshows⟩ := compacted_files_show_one_history (by decide) (by decide) hrun
  obtain ⟨hmain, hdir, -⟩ := hshows c 0 hrun .refl hcommit.1
  rw [hcommit.2] at hmain
  rw [hstart] at hdir
  exact ⟨c, hrun, hto, hstart, history, hmain, hdir (by decide)⟩

/-- What the entry at `i` writes to a file is found behind what the entries
before it write. -/
theorem replay_read {L : List LogEntry} {e : LogEntry} {i k : ℕ} (he : L[i]? = some e)
    (hik : i < k) (name : Bytes) :
    (((replay emptyFiles (L.take k) name).getD []).drop
      (bytesTo name ((L.take i).flatMap LogEntry.fileWrites)).length).take
        (bytesTo name e.fileWrites).length = bytesTo name e.fileWrites := by
  obtain ⟨hlt, rfl⟩ := List.getElem?_eq_some_iff.mp he
  have hsplit : L.take k = L.take i ++ [L[i]] ++ (L.take k).drop (i + 1) :=
    calc L.take k = (L.take k).take (i + 1) ++ (L.take k).drop (i + 1) :=
        (List.take_append_drop _ _).symm
      _ = L.take (i + 1) ++ (L.take k).drop (i + 1) := by
        rw [List.take_take, min_eq_left (by omega)]
      _ = _ := by rw [List.take_succ_eq_append_getElem hlt]
  have hread := appendAll_read emptyFiles ((L.take i).flatMap LogEntry.fileWrites)
    (L[i]).fileWrites (((L.take k).drop (i + 1)).flatMap LogEntry.fileWrites) name
  rw [emptyFiles_getD, List.nil_append] at hread
  rw [replay, hsplit, List.flatMap_append, List.flatMap_append, List.flatMap_singleton]
  exact hread

/-- **A confirmed transaction stays in the files**: once a server answers that
a transaction is committed, what the transaction has written to a file is, at
every later moment, at one and the same place of this file on every running
server that has committed as far. -/
theorem confirmed_writes_stay (hinj : Function.Injective config) (hvalid : ∀ v, config v ≠ -1)
    (hrun : Cluster.Run config lasting c) (hup : (c.nodes s).up = true) {term id : ℤ}
    (hone : isEntryCommitted (c.nodes s).raft term id = 1) :
    ∃ i e, getLog (c.nodes s).raft i = some e ∧ e.Tagged term id ∧ ∃ place : Bytes → ℕ,
      ∀ c' v, Cluster.Steps lasting c c' → (c'.nodes v).up = true →
        i ≤ (c'.nodes v).raft.commitIndex → ∀ name,
          ((((c'.nodes v).files .main name).getD []).drop (place name)).take
            (bytesTo name e.fileWrites).length = bytesTo name e.fileWrites := by
  obtain ⟨i, e, hd, ht, hi⟩ := isEntryCommitted_eq_one.mp hone
  obtain ⟨w, p, C, h⟩ := retells_run hinj hvalid hrun
  have hview := (h.refines.node s).raft_eq hup
  have hholds := h.inv.sim.holds s
  rw [hview] at hholds
  have hentry := hholds.entry i e hd.entry
  have hlo := (getLog_some hd.entry).1
  have hnonneg := hholds.start_nonneg
  refine ⟨i, e, hd.entry, ht,
    fun name => (bytesTo name (((p.log s).take i.toNat).flatMap LogEntry.fileWrites)).length,
    fun c' v hsteps hup' hi' name => ?_⟩
  obtain ⟨w', p', C', h'⟩ := retells_run hinj hvalid (hrun.trans hsteps)
  have hview' := (h'.refines.node v).raft_eq hup'
  have hagree := commits_agree_of_inv h'.refines h'.inv
  have hsub := steps_commits (Machine.Steps.weaken (fun _ _ hok => hok.1) hsteps)
  -- both servers have the same entries up to the transaction
  have hsame : (p'.log v).take (i + 1).toNat = (p.log s).take (i + 1).toNat := by
    rw [h'.take_eq List.prefix_rfl hagree (by rw [hview']; omega),
      h.take_eq hsub hagree (by rw [hview]; omega)]
  have hbefore : (p'.log v).take i.toNat = (p.log s).take i.toNat := by
    have hcut := congrArg (List.take i.toNat) hsame
    rwa [List.take_take, List.take_take, min_eq_left (by omega)] at hcut
  have hentry' : (p'.log v)[i.toNat]? = some e.core := by
    have hat := congrArg (fun l => l[i.toNat]?) hsame
    simp only [List.getElem?_take_of_lt (show i.toNat < (i + 1).toNat by omega)] at hat
    exact hat.trans hentry
  rw [(h'.shows v).main hup', ← hbefore]
  exact replay_read hentry' (by omega) name

/-- Servers `0` and `1` have committed the transaction, and server `1` has
crashed and come back. -/
def confirmAndReturn : List Action := firstByte ++ exchange ++ [.crash 1, .restart 1]

set_option maxRecDepth 10000 in
theorem confirmAndReturn_runs : ((Cluster.init plainConfig).execWhile
    (fun c x => decide (lasting c x)) confirmAndReturn).any (fun c => (c.nodes 0).up &&
      decide (isEntryCommitted (c.nodes 0).raft 1 1 = 1 ∧ (c.nodes 0).raft.startLogIndex = 0 ∧
        (c.nodes 0).raft.logCount = 2 ∧ (∀ i ∈ [0, 1], ∀ e ∈ getLog (c.nodes 0).raft i,
          e.Tagged 1 1 → bytesTo (fileName 7) e.fileWrites = [65]) ∧
        (c.nodes 1).files .main (fileName 7) = some [65]) && committedTo c 1 1) = true := by
  decide +kernel

theorem first_byte_stays : ∃ c, Cluster.Run plainConfig lasting c ∧
    isEntryCommitted (c.nodes 0).raft 1 1 = 1 ∧ ∃ i e, getLog (c.nodes 0).raft i = some e ∧
      e.Tagged 1 1 ∧ (∃ place : Bytes → ℕ, ∀ name,
        ((((c.nodes 1).files .main name).getD []).drop (place name)).take
          (bytesTo name e.fileWrites).length = bytesTo name e.fileWrites) ∧
      bytesTo (fileName 7) e.fileWrites = [65] ∧
      (c.nodes 1).files .main (fileName 7) = some [65] := by
  obtain ⟨c, hrun, htest⟩ := Machine.exists_of_execWhile lasting
    (fun _ _ h => of_decide_eq_true h) confirmAndReturn_runs
  simp only [committedTo, Bool.and_eq_true, decide_eq_true_eq] at htest
  obtain ⟨⟨hup, hone, hstart, hcount, hbytes, hfile⟩, hup', hcommit⟩ := htest
  obtain ⟨i, e, he, ht, place, hplace⟩ :=
    confirmed_writes_stay (by decide) (by decide) hrun hup hone
  obtain ⟨hlo, hhi, -⟩ := getLog_some he
  have hi : i ∈ [(0 : ℤ), 1] := by
    simp only [List.mem_cons, List.not_mem_nil, or_false]
    omega
  exact ⟨c, hrun, hone, i, e, he, ht, ⟨place, hplace c 1 .refl hup' (by omega)⟩,
    hbytes i hi e he ht, hfile⟩

end Retells

end RaftLock

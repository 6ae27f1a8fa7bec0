import RaftLock.Recovery.Store

/-!
Snapshots hold the compacted entries.

The entries a log began with are in its snapshot: its directory holds what
they write, and nothing else. A thread that makes the next snapshot copies
this and adds the entries up to the new start, all of them committed, so
nothing it reads changes under it. When it is done, the window moves and the
state is saved in one section.
-/

namespace RaftLock

open Outcome Appends

/-- No files at all. -/
def noFiles : Bytes → Option Bytes := fun _ => none

/-! ### The window -/

section Window

variable {r r' : RaftState}

/-- The log is committed up to somewhere in the window. -/
structure Shape (r : RaftState) : Prop where
  start : r.startLogIndex ≤ r.commitIndex + 1
  count : r.commitIndex < r.logCount
  room : r.logCount ≤ r.startLogIndex + (logSize : ℤ)

/-- The entries write to the hundred files only. -/
structure Sound (r : RaftState) : Prop extends Shape r where
  numbered : ∀ i e, getLog r i = some e → e.Numbered

/-- What a step that is not a compaction keeps of the log. -/
structure Extends (r r' : RaftState) : Prop where
  start : r'.startLogIndex = r.startLogIndex
  commit : r.commitIndex ≤ r'.commitIndex
  log : ∀ k : ℕ, r.startLogIndex + (k : ℤ) ≤ r.commitIndex → r'.log k = r.log k

theorem Extends.of_eq (hstart : r'.startLogIndex = r.startLogIndex)
    (hcommit : r'.commitIndex = r.commitIndex) (hlog : r'.log = r.log) : Extends r r' :=
  ⟨hstart, hcommit.ge, fun k _ => congrFun hlog k⟩

theorem pushEntry_some {e : LogEntry} (h : pushEntry r e = some r') :
    r.startLogIndex ≤ r.logCount ∧ r.logCount < r.startLogIndex + (logSize : ℤ) ∧
    r' = { r with
      logCount := r.logCount + 1
      log := Function.update r.log (r.logCount - r.startLogIndex).toNat e } := by
  obtain ⟨hlo, -, hslot, heq⟩ := modifyLog_some h
  simp only at hlo hslot
  exact ⟨hlo, by omega, heq⟩

theorem Shape.push (h : Shape r) {e : LogEntry} (hr : pushEntry r e = some r') :
    Shape r' ∧ Extends r r' := by
  obtain ⟨hlo, hroom, rfl⟩ := pushEntry_some hr
  have hcount := h.count
  refine ⟨⟨h.start, by simp only; omega, by simp only; omega⟩, rfl, le_rfl, fun k hk => ?_⟩
  exact Function.update_of_ne (by omega) _ _

theorem Shape.truncate (h : Shape r) {m : ℤ} (hlo : r.commitIndex < m) (hhi : m ≤ r.logCount) :
    Shape { r with logCount := m } := by
  have hroom := h.room
  exact ⟨h.start, hlo, by simp only; omega⟩

theorem Shape.commit (h : Shape r) {i : ℤ} (hlo : r.commitIndex ≤ i) (hhi : i ≤ r.logCount - 1) :
    Shape { r with commitIndex := i } := by
  have hstart := h.start
  exact ⟨by simp only; omega, by simp only; omega, h.room⟩

/-- Nothing that is asked to be committed is missing. -/
theorem Shape.committable (h : Shape r) {i : ℤ} (hhi : i ≤ r.logCount - 1) : Committable r i := by
  have hstart := h.start
  exact fun j hj hji => ⟨_, getLog_of_mem (by omega) (by omega)⟩

theorem entriesTo_congr (hstart : r'.startLogIndex = r.startLogIndex) {i : ℤ}
    (hlog : ∀ k : ℕ, r.startLogIndex + (k : ℤ) < i → r'.log k = r.log k) :
    entriesTo r' i = entriesTo r i := by
  unfold entriesTo
  rw [hstart]
  refine List.map_congr_left fun k hk => hlog k ?_
  rw [List.mem_range] at hk
  omega

theorem Extends.entriesTo (h : Extends r r') {i : ℤ} (hi : i ≤ r.commitIndex + 1) :
    entriesTo r' i = RaftLock.entriesTo r i :=
  entriesTo_congr h.start fun k hk => h.log k (by omega)

theorem entriesTo_length (r : RaftState) (i : ℤ) :
    (entriesTo r i).length = (i - r.startLogIndex).toNat := by
  simp [entriesTo]

/-- The past reaches up to the new start of the window. -/
theorem past_compacted {past : List LogEntry} {r : RaftState} {n : ℤ}
    (hpast : (past.length : ℤ) = r.startLogIndex) (hle : r.startLogIndex ≤ n) :
    ((past ++ entriesTo r n).length : ℤ) = n := by
  rw [List.length_append, entriesTo_length]
  push_cast
  omega

theorem entriesTo_start (r : RaftState) : entriesTo r r.startLogIndex = [] := by
  simp [entriesTo]

theorem entriesTo_succ {i : ℤ} (hi : r.startLogIndex ≤ i) :
    entriesTo r (i + 1) = entriesTo r i ++ [r.log (i - r.startLogIndex).toNat] := by
  have hsucc : (i + 1 - r.startLogIndex).toNat = (i - r.startLogIndex).toNat + 1 := by omega
  rw [entriesTo, hsucc, List.range_succ, List.map_append]
  rfl

theorem Sound.numbered_entriesTo (h : Sound r) {i : ℤ} (hi : i ≤ r.logCount) :
    ∀ e ∈ entriesTo r i, e.Numbered := by
  intro e he
  obtain ⟨k, hk, rfl⟩ := List.mem_map.mp he
  rw [List.mem_range] at hk
  have hget := getLog_of_mem (r := r) (i := r.startLogIndex + k) (by omega) (by omega)
  refine h.numbered _ _ (hget.trans ?_)
  rw [show (r.startLogIndex + (k : ℤ) - r.startLogIndex).toNat = k by omega]

/-- The entries that the loop of `Raft_commit_update` goes through. -/
theorem entriesTo_commitTurns {n : ℤ} (hstart : r.startLogIndex ≤ r.commitIndex + 1)
    (hle : r.commitIndex ≤ n) (hn : n < r.logCount) :
    entriesTo r (n + 1) =
      entriesTo r (r.commitIndex + 1) ++ (commitTurns r n).map Prod.snd := by
  have hsum : (n + 1 - r.startLogIndex).toNat =
      (r.commitIndex + 1 - r.startLogIndex).toNat + (n - r.commitIndex).toNat := by omega
  rw [entriesTo, hsum, List.range_add, List.map_append]
  refine congrArg₂ _ rfl ?_
  rw [commitTurns, List.map_map, List.map_map]
  refine List.map_congr_left fun k hk => ?_
  rw [List.mem_range] at hk
  simp only [Function.comp_apply]
  rw [getLog_of_mem (by omega) (by omega), Option.getD_some]
  congr 1
  omega

end Window

/-! ### Committing writes to the main files -/

section Commits

variable {n : Node} {es : List Effect}

/-- Effects of committing entries that write to the numbered files. -/
def CommitsNumbered (es : List Effect) : Prop :=
  ∀ x ∈ es, ∃ i e, x = .commit i e ∧ e.Numbered

theorem perform_commit_main (n : Node) (i : ℤ) (e : LogEntry) :
    (n.perform (.commit i e)).files .main = replay (n.files .main) [e] := by
  simp only [Node.perform, replay, List.flatMap_singleton, LogEntry.fileWrites]
  cases e.type with
  | leaderLog => rfl
  | clientLog => exact FileSystem.handleRaftCommit_main e

theorem perform_commit_of_ne (n : Node) (i : ℤ) (e : LogEntry) {d : Dir} (hd : d ≠ .main) :
    (n.perform (.commit i e)).files d = n.files d := by
  simp only [Node.perform]
  cases e.type with
  | leaderLog => rfl
  | clientLog => exact FileSystem.handleRaftCommit_of_ne hd e

theorem foldl_commit_main (turns : List (ℤ × LogEntry)) (n : Node) :
    ((turns.map Effect.ofTurn).foldl Node.perform n).files .main =
      replay (n.files .main) (turns.map Prod.snd) := by
  induction turns generalizing n with
  | nil => rfl
  | cons t turns ih =>
      rw [List.map_cons, List.foldl_cons, ih, List.map_cons,
        show t.2 :: turns.map Prod.snd = [t.2] ++ turns.map Prod.snd from rfl, replay_append]
      exact congrArg₂ _ (perform_commit_main n t.1 t.2) rfl

theorem foldl_commit_files (hes : CommitsNumbered es) (hn : n.files.Numbered) :
    (es.foldl Node.perform n).files.Numbered ∧
    ∀ d ≠ .main, (es.foldl Node.perform n).files d = n.files d := by
  induction es generalizing n with
  | nil => exact ⟨hn, fun _ _ => rfl⟩
  | cons x es ih =>
      obtain ⟨i, e, rfl, he⟩ := hes x List.mem_cons_self
      have hstep : (n.perform (.commit i e)).files.Numbered := by
        intro d name hname
        by_cases hd : d = .main
        · rw [hd, perform_commit_main]
          refine (replay_of_notMem (fun e' he' => ?_) hname).trans (hn _ name hname)
          rw [List.mem_singleton.mp he']
          exact he
        · rw [perform_commit_of_ne n i e hd]
          exact hn d name hname
      obtain ⟨hnum, hdirs⟩ := ih (fun y hy => hes y (List.mem_cons_of_mem _ hy)) hstep
      exact ⟨hnum, fun d hd => (hdirs d hd).trans (perform_commit_of_ne n i e hd)⟩

end Commits

/-! ### Threads in `Raft_create_snapshot` -/

/-- The snapshot a thread is making, between its two critical sections. -/
def SnapshotPc.building : SnapshotPc → Option ℤ
  | .opened n | .copy n _ _ _ | .entries n _ | .add n _ _ _ | .shift n _ => some n
  | _ => none

/-- The first `k` of the hundred files. -/
def firstFiles (k : ℕ) (f : Bytes → Option Bytes) : Bytes → Option Bytes :=
  fun name => if name ∈ (List.range k).map fileName then f name else none

/-- The new start of the log is one the first critical section lets pass. -/
structure Target (r : RaftState) (n : ℤ) : Prop where
  start : r.startLogIndex < n
  commit : n ≤ r.commitIndex + 1

/-- How far a thread is with the directory of its snapshot. -/
def Progress (past : List LogEntry) (r : RaftState) (files : FileSystem) : SnapshotPc → Prop
  | .check | .argument | .enter _ => True
  | .opened n => Target r n ∧ files (.snapshot n) = noFiles
  | .copy n prev src k => Target r n ∧ prev = r.startLogIndex ∧ src = r.startLogIndex ∧
      r.startLogIndex ≠ 0 ∧ k ≤ 100 ∧
      files (.snapshot n) = firstFiles k (files (.snapshot r.startLogIndex))
  | .entries n prev => Target r n ∧ prev = r.startLogIndex ∧
      files (.snapshot n) = replay noFiles past
  | .add n prev i j => Target r n ∧ prev = r.startLogIndex ∧ r.startLogIndex ≤ i ∧ i ≤ n ∧
      (i = n → j = 0) ∧
      files (.snapshot n) = appendAll (replay noFiles (past ++ entriesTo r i))
        ((r.log (i - r.startLogIndex).toNat).fileWrites.take j)
  | .shift n prev => Target r n ∧ prev = r.startLogIndex ∧
      files (.snapshot n) = replay noFiles (past ++ entriesTo r n)
  | .remove prev => 0 ≤ prev ∧ prev < r.startLogIndex

section Progress

variable {past : List LogEntry} {r r' : RaftState} {files files' : FileSystem} {pc : SnapshotPc}

theorem Target.mono {n : ℤ} (h : Target r n) (he : Extends r r') : Target r' n := by
  have hstart := he.start
  have hcommit := he.commit
  exact ⟨by have := h.start; omega, by have := h.commit; omega⟩

/-- Nothing that a thread has read or will read changes under it. -/
theorem Progress.extends (h : Progress past r files pc) (he : Extends r r')
    (hfiles : ∀ id, r.startLogIndex ≤ id → files' (.snapshot id) = files (.snapshot id)) :
    Progress past r' files' pc := by
  have hstart := he.start
  cases pc with
  | check => trivial
  | argument => trivial
  | enter n => trivial
  | opened n => exact ⟨h.1.mono he, (hfiles n h.1.start.le).trans h.2⟩
  | copy n prev src k =>
      obtain ⟨ht, hprev, hsrc, hzero, hk, hdir⟩ := h
      simp only [Progress, hstart, hfiles n ht.start.le, hfiles _ le_rfl]
      exact ⟨ht.mono he, hprev, hsrc, hzero, hk, hdir⟩
  | entries n prev =>
      obtain ⟨ht, hprev, hdir⟩ := h
      simp only [Progress, hstart, hfiles n ht.start.le]
      exact ⟨ht.mono he, hprev, hdir⟩
  | add n prev i j =>
      obtain ⟨ht, hprev, hlo, hhi, hlast, hdir⟩ := h
      have hn := ht.commit
      simp only [Progress, hstart, hfiles n ht.start.le]
      refine ⟨ht.mono he, hprev, hlo, hhi, hlast, ?_⟩
      rw [he.entriesTo (by omega), hdir]
      rcases eq_or_ne i n with heq | hne
      · rw [hlast heq, List.take_zero, List.take_zero]
      · rw [he.log _ (by omega)]
  | shift n prev =>
      obtain ⟨ht, hprev, hdir⟩ := h
      simp only [Progress, hstart, hfiles n ht.start.le]
      refine ⟨ht.mono he, hprev, ?_⟩
      rw [he.entriesTo ht.commit, hdir]
  | remove prev => exact ⟨h.1, hstart ▸ h.2⟩

/-- A thread that makes no snapshot reads no files. -/
theorem Progress.idle (h : Progress past r files pc) (hpc : pc.building = none)
    (hstart : r.startLogIndex ≤ r'.startLogIndex) {past' : List LogEntry} :
    Progress past' r' files' pc := by
  cases pc with
  | remove prev => exact ⟨h.1, lt_of_lt_of_le h.2 hstart⟩
  | check => trivial
  | argument => trivial
  | enter n => trivial
  | _ => simp [SnapshotPc.building] at hpc

theorem Progress.start_lt (h : Progress past r files pc) {n : ℤ} (hpc : pc.building = some n) :
    r.startLogIndex < n := by
  cases pc with
  | check | argument | enter | remove => simp [SnapshotPc.building] at hpc
  | opened | copy | entries | add | shift =>
      simp only [SnapshotPc.building, Option.some.injEq] at hpc
      exact hpc ▸ h.1.start

end Progress

/-! ### The invariant -/

structure StoreInv (s : Store) : Prop where
  past : (s.past.length : ℤ) = s.node.raft.startLogIndex
  sound : Sound s.node.raft
  saved : ∀ st, s.node.saved = some st → Sound st ∧ st.startLogIndex = s.node.raft.startLogIndex
  numbered : ∀ e ∈ s.past, e.Numbered
  files : s.node.files.Numbered
  snapshot : s.node.raft.startLogIndex ≠ 0 →
    s.node.files (.snapshot s.node.raft.startLogIndex) = replay noFiles s.past
  /-- Directories of later snapshots are empty but for the one being made. -/
  free : ∀ id, s.node.raft.startLogIndex < id →
    (∀ pc ∈ s.node.snapshotThreads, pc.building ≠ some id) → s.node.files (.snapshot id) = noFiles
  /-- The flag is up while a thread makes a snapshot, and no other one does. -/
  building : s.node.up = true → s.node.snapshotThreads.countP (fun pc => pc.building.isSome) =
    if s.node.raft.snapshotInProgress then 1 else 0
  progress : ∀ pc ∈ s.node.snapshotThreads, Progress s.past s.node.raft s.node.files pc
  down : s.node.up = false → s.node.snapshotThreads = []

theorem shape_init (config : Config) (v : Server) : Shape (Store.init config v).node.raft := by
  constructor <;> simp [Store.init, Node.init, serverInit]

theorem storeInv_init (config : Config) (v : Server) : StoreInv (.init config v) where
  past := rfl
  sound := by
    refine ⟨shape_init config v, fun i e he => ?_⟩
    obtain ⟨hlo, hhi, -⟩ := getLog_some he
    simp only [Store.init, Node.init, serverInit] at hlo hhi
    omega
  saved st hst := absurd hst (by simp [Store.init, Node.init])
  numbered e he := absurd he (by simp [Store.init])
  files d name hname := by
    have hinit : (Store.init config v).node.files = FileSystem.cleanMainFiles fun _ _ => none := rfl
    rw [hinit]
    by_cases hd : d = .main
    · rw [hd, FileSystem.cleanMainFiles_main, if_neg hname]
    · rw [FileSystem.cleanMainFiles_of_ne hd]
  snapshot h := absurd rfl h
  free id _ _ := by
    have hinit : (Store.init config v).node.files = FileSystem.cleanMainFiles fun _ _ => none := rfl
    rw [hinit, FileSystem.cleanMainFiles_of_ne (by simp)]
    rfl
  building _ := rfl
  progress pc hpc := absurd hpc (by simp [Store.init, Node.init])
  down h := absurd h (by simp [Store.init, Node.init])

section Steps

variable {s : Store} {n : Node}

/-- A step that leaves the threads and the snapshots alone. -/
theorem StoreInv.extends (h : StoreInv s) (he : Extends s.node.raft n.raft)
    (hsound : Sound n.raft)
    (hsaved : ∀ st, n.saved = some st → Sound st ∧ st.startLogIndex = s.node.raft.startLogIndex)
    (hnum : n.files.Numbered)
    (hfiles : ∀ id, n.files (.snapshot id) = s.node.files (.snapshot id))
    (hthreads : (n.up = true ∧ s.node.up = true ∧ n.snapshotThreads = s.node.snapshotThreads ∧
      n.raft.snapshotInProgress = s.node.raft.snapshotInProgress) ∨
      (n.up = false ∧ n.snapshotThreads = [] ∧ s.node.snapshotThreads = [])) :
    StoreInv { s with node := n } where
  past := h.past.trans he.start.symm
  sound := hsound
  saved st hst := by
    rw [he.start]
    exact hsaved st hst
  numbered := h.numbered
  files := hnum
  snapshot hne := by
    rw [he.start] at hne ⊢
    rw [hfiles]
    exact h.snapshot hne
  free id hid hbuild := by
    rw [he.start] at hid
    rw [hfiles]
    refine h.free id hid ?_
    rcases hthreads with ⟨-, -, heq, -⟩ | ⟨-, -, heq⟩
    · exact heq ▸ hbuild
    · simp [heq]
  building hup := by
    rcases hthreads with ⟨-, hup', heq, hflag⟩ | ⟨hdown, -, -⟩
    · rw [heq, hflag]
      exact h.building hup'
    · exact absurd (hup.symm.trans hdown) (by simp)
  progress pc hpc := by
    rcases hthreads with ⟨-, -, heq, -⟩ | ⟨-, heq, -⟩
    · exact (h.progress pc (heq ▸ hpc)).extends he fun id _ => hfiles id
    · exact absurd hpc (by simp [heq])
  down hdown := by
    rcases hthreads with ⟨hup, -, -, -⟩ | ⟨-, heq, -⟩
    · exact absurd (hup.symm.trans hdown) (by simp)
    · exact heq

/-- A step of a running server that leaves the files alone. -/
theorem StoreInv.raft (h : StoreInv s) (hup : s.node.up = true) {r : RaftState}
    (he : Extends s.node.raft r) (hsound : Sound r)
    (hflag : r.snapshotInProgress = s.node.raft.snapshotInProgress) :
    StoreInv { s with node := { s.node with raft := r } } :=
  h.extends he hsound h.saved h.files (fun _ => rfl) (Or.inl ⟨hup, hup, rfl, hflag⟩)

theorem StoreInv.append (h : StoreInv s) (hup : s.node.up = true) {e : LogEntry} {r : RaftState}
    (he : e.Numbered) (hr : pushEntry s.node.raft e = some r) :
    StoreInv { s with node := { s.node with raft := r } } := by
  obtain ⟨hshape, hext⟩ := h.sound.toShape.push hr
  obtain ⟨hlo, -, rfl⟩ := pushEntry_some hr
  refine h.raft hup hext ⟨hshape, fun i e' he' => ?_⟩ rfl
  obtain ⟨hilo, hihi, rfl⟩ := getLog_some he'
  simp only at hilo hihi
  simp only [Function.update_apply]
  split
  · exact he
  · exact h.sound.numbered i _ (getLog_of_mem hilo (by omega))

theorem StoreInv.truncate (h : StoreInv s) (hup : s.node.up = true) {m : ℤ}
    (hlo : s.node.raft.commitIndex < m) (hhi : m ≤ s.node.raft.logCount) :
    StoreInv { s with node := { s.node with raft := { s.node.raft with logCount := m } } } := by
  refine h.raft hup (.of_eq rfl rfl rfl) ⟨h.sound.toShape.truncate hlo hhi, fun i e he => ?_⟩ rfl
  obtain ⟨hilo, hihi, rfl⟩ := getLog_some he
  simp only at hilo hihi
  exact h.sound.numbered i _ (getLog_of_mem hilo (by omega))

theorem StoreInv.save (h : StoreInv s) (hup : s.node.up = true) :
    StoreInv { s with node := s.node.settle (saveState s.node.raft) none } := by
  refine h.extends (.of_eq rfl rfl rfl) h.sound (fun st hst => ?_) h.files
    (fun _ => rfl) (Or.inl ⟨hup, hup, rfl, rfl⟩)
  simp only [Node.settle, Node.performed, saveState, emit, List.foldl_cons, List.foldl_nil,
    Node.perform, and_self, if_true, Option.some.injEq] at hst
  subst hst
  exact ⟨h.sound, rfl⟩

/-- A server that runs a section of which nothing but commits remains. -/
theorem settle_commits {o : Outcome} {crashAt : Option ℕ} (hes : CommitsNumbered o.effects)
    (hn : n.files.Numbered) :
    (n.settle o crashAt).files.Numbered ∧ (n.settle o crashAt).saved = n.saved ∧
    (∀ d ≠ .main, (n.settle o crashAt).files d = n.files d) ∧
    ((crashAt = none ∧ o.fault = false ∧ (n.settle o crashAt).raft = o.raft ∧
        (n.settle o crashAt).up = n.up ∧
        (n.settle o crashAt).snapshotThreads = n.snapshotThreads) ∨
      (¬ (crashAt = none ∧ o.fault = false) ∧ (n.settle o crashAt).raft = n.raft ∧
        (n.settle o crashAt).up = false ∧ (n.settle o crashAt).snapshotThreads = [])) := by
  have hsub : CommitsNumbered (Node.performed o crashAt) := by
    intro x hx
    cases crashAt with
    | none => exact hes x hx
    | some k => exact hes x (List.mem_of_mem_take hx)
  obtain ⟨hnum, hdirs⟩ := foldl_commit_files hsub hn
  obtain ⟨hraft, hup, hthreads, -, hsaved⟩ := Node.foldl_perform (Node.performed o crashAt) n
  have hsame : savedAfter (Node.performed o crashAt) n.saved = n.saved :=
    savedAfter_of_forall (fun x hx st heq => by
      obtain ⟨i, e, rfl, -⟩ := hsub x hx
      exact absurd heq (by simp)) n.saved
  unfold Node.settle
  simp only
  split_ifs with hwhole
  · exact ⟨hnum, hsaved.trans hsame, hdirs, Or.inl ⟨hwhole.1, hwhole.2, rfl, hup, hthreads⟩⟩
  · exact ⟨hnum, hsaved.trans hsame, hdirs, Or.inr ⟨hwhole, hraft, rfl, rfl⟩⟩

theorem StoreInv.commit (h : StoreInv s) (hup : s.node.up = true) {i : ℤ} {crashAt : Option ℕ}
    (hlo : s.node.raft.commitIndex ≤ i) (hhi : i ≤ s.node.raft.logCount - 1)
    (hcrash : crashAt = none ∨ s.node.snapshotThreads = []) :
    StoreInv { s with node := s.node.settle (commitUpdate s.node.raft i) crashAt } := by
  have hfault := commitUpdate_fault (h.sound.toShape.committable hhi)
  have hes : CommitsNumbered (commitUpdate s.node.raft i).effects := by
    intro x hx
    obtain ⟨j, e, rfl, -, -, he⟩ := commitUpdate_mem hx
    exact ⟨j, e, rfl, h.sound.numbered j e he⟩
  obtain ⟨hnum, hsaved, hdirs, hend⟩ := settle_commits hes h.files
  have hsaved' := h.saved
  rw [← hsaved] at hsaved'
  rcases hend with ⟨-, -, hraft, hup', hthreads⟩ | ⟨hcut, hraft, hdown, hthreads⟩
  · replace hraft : (s.node.settle (commitUpdate s.node.raft i) crashAt).raft =
        { s.node.raft with commitIndex := i } :=
      hraft.trans (congrArg Outcome.raft (commitUpdate_ok hfault).1)
    refine h.extends ?_ ?_ hsaved' hnum (fun _ => hdirs _ (by simp))
      (Or.inl ⟨hup'.trans hup, hup, hthreads, by rw [hraft]⟩)
    · rw [hraft]
      exact ⟨rfl, hlo, fun _ _ => rfl⟩
    · rw [hraft]
      exact ⟨h.sound.toShape.commit hlo hhi, fun j e he => h.sound.numbered j e he⟩
  · have hnone : s.node.snapshotThreads = [] :=
      hcrash.resolve_left fun heq => hcut ⟨heq, hfault⟩
    refine h.extends ?_ ?_ hsaved' hnum (fun _ => hdirs _ (by simp))
      (Or.inr ⟨hdown, hthreads, hnone⟩)
    · rw [hraft]
      exact .of_eq rfl rfl rfl
    · rw [hraft]
      exact h.sound

/-- A thread calls `Raft_create_snapshot`. -/
theorem StoreInv.called (h : StoreInv s) (hup : s.node.up = true) (m : ℤ) :
    StoreInv { s with node :=
      { s.node with snapshotThreads := s.node.snapshotThreads ++ [.enter m] } } where
  past := h.past
  sound := h.sound
  saved := h.saved
  numbered := h.numbered
  files := h.files
  snapshot := h.snapshot
  free id hid hfree := h.free id hid fun pc hpc => hfree pc (List.mem_append_left _ hpc)
  building _ := by
    show (s.node.snapshotThreads ++ [SnapshotPc.enter m]).countP _ = _
    rw [List.countP_append]
    exact h.building hup
  progress pc hpc := by
    rcases List.mem_append.mp hpc with hpc | hpc
    · exact h.progress pc hpc
    · rw [List.mem_singleton.mp hpc]
      trivial
  down hdown := absurd (hup.symm.trans hdown) (by simp)

theorem StoreInv.crash (h : StoreInv s) (hnone : s.node.snapshotThreads = []) :
    StoreInv { s with node := s.node.crash } :=
  h.extends (.of_eq rfl rfl rfl) h.sound h.saved h.files (fun _ => rfl)
    (Or.inr ⟨rfl, rfl, hnone⟩)

/-! ### Threads move -/

section Threads

variable {k : ℕ} {pc : SnapshotPc} {pc' : Option SnapshotPc}

/-- The other threads make no snapshot when one at most does. -/
theorem rest_idle {l : List SnapshotPc} (hone : l.countP (fun pc => pc.building.isSome) ≤ 1)
    (hk : l[k]? = some pc) (hpc : pc.building.isSome) :
    ∀ p ∈ l.take k ++ l.drop (k + 1), p.building = none := by
  rw [List.split_getElem? hk, List.countP_append, List.countP_cons, if_pos hpc] at hone
  have hzero : (l.take k ++ l.drop (k + 1)).countP (fun pc => pc.building.isSome) = 0 := by
    rw [List.countP_append]
    omega
  intro p hp
  simpa using List.countP_eq_zero.mp hzero p hp

/-- While a thread makes a snapshot no other one does. -/
theorem others_idle (hcount : s.node.snapshotThreads.countP (fun pc => pc.building.isSome) =
      if s.node.raft.snapshotInProgress then 1 else 0)
    (hk : s.node.snapshotThreads[k]? = some pc) (hpc : pc.building.isSome) :
    ∀ p ∈ s.node.snapshotThreads.take k ++ s.node.snapshotThreads.drop (k + 1),
      p.building = none := by
  refine rest_idle ?_ hk hpc
  rw [hcount]
  split <;> omega

theorem mem_replaced {l : List SnapshotPc} {p : SnapshotPc} (hk : l[k]? = some pc)
    (hp : p ∈ List.replaceAt l k pc') : p ∈ l.take k ++ l.drop (k + 1) ∨ pc' = some p := by
  rw [List.replaceAt_eq hk] at hp
  simp only [List.mem_append, Option.mem_toList] at hp ⊢
  tauto

/-- The thread that has moved the window goes on to remove the snapshot before,
if there is one. -/
theorem mem_shifted {l : List SnapshotPc} {p : SnapshotPc} {prev : ℤ} (hk : l[k]? = some pc)
    (hp : p ∈ List.replaceAt l k (if prev ≠ 0 then some (.remove prev) else none)) :
    p ∈ l.take k ++ l.drop (k + 1) ∨ (prev ≠ 0 ∧ p = .remove prev) := by
  rcases mem_replaced hk hp with hp | hp
  · exact Or.inl hp
  · split_ifs at hp with hprev
    exact Or.inr ⟨hprev, (Option.some.inj hp).symm⟩

theorem shifted_idle {l : List SnapshotPc} {prev : ℤ} (hk : l[k]? = some pc)
    (hothers : ∀ p ∈ l.take k ++ l.drop (k + 1), p.building = none) :
    (List.replaceAt l k (if prev ≠ 0 then some (.remove prev) else none)).countP
      (fun p => p.building.isSome) = 0 := by
  refine List.countP_eq_zero.mpr fun p hp => ?_
  rcases mem_shifted hk hp with hp | ⟨-, rfl⟩
  · simp [hothers p hp]
  · simp [SnapshotPc.building]

theorem mem_of_rest {l : List SnapshotPc} {p : SnapshotPc}
    (hp : p ∈ l.take k ++ l.drop (k + 1)) : p ∈ l := by
  rcases List.mem_append.mp hp with hp | hp
  · exact List.mem_of_mem_take hp
  · exact List.mem_of_mem_drop hp

/-- Outside the critical sections a thread goes on with the snapshot it makes. -/
theorem snapshotStep_building {r : RaftState} (henter : ∀ n, pc ≠ .enter n)
    (hshift : ∀ n prev, pc ≠ .shift n prev) (hok : (snapshotStep r pc).1.fault = false) :
    (snapshotStep r pc).2.bind SnapshotPc.building = pc.building := by
  cases pc with
  | enter n => exact absurd rfl (henter n)
  | shift n prev => exact absurd rfl (hshift n prev)
  | check =>
      simp only [snapshotStep]
      split <;> rfl
  | argument => rfl
  | opened n =>
      simp only [snapshotStep]
      split <;> rfl
  | copy n prev src k =>
      simp only [snapshotStep]
      split <;> rfl
  | entries n prev => rfl
  | add n prev i j =>
      simp only [snapshotStep] at hok ⊢
      split_ifs at hok ⊢ with hi
      · cases hget : getLog r i with
        | none => simp [hget, die] at hok
        | some e =>
            simp only
            split <;> rfl
      · rfl
  | remove prev => rfl

/-- The number of threads that make a snapshot, after a step of one of them. -/
theorem countP_replaceAt {l : List SnapshotPc} (hk : l[k]? = some pc)
    (hbuild : pc'.bind SnapshotPc.building = pc.building) :
    (List.replaceAt l k pc').countP (fun pc => pc.building.isSome) =
      l.countP fun pc => pc.building.isSome := by
  have hcount : l.countP (fun pc => pc.building.isSome) = (l.take k).countP (fun pc =>
      pc.building.isSome) + ((l.drop (k + 1)).countP (fun pc => pc.building.isSome) +
        if pc.building.isSome then 1 else 0) := by
    conv_lhs => rw [List.split_getElem? hk]
    rw [List.countP_append, List.countP_cons]
  rw [List.replaceAt_eq hk, List.countP_append, List.countP_append, hcount, ← hbuild]
  cases pc' with
  | none => simp
  | some p =>
      simp only [Option.toList_some, List.countP_singleton, Option.bind_some]
      omega

/-- One thread comes to make a snapshot where none did. -/
theorem countP_enter {l : List SnapshotPc} {n : ℤ} (hk : l[k]? = some (.enter n))
    (hnone : l.countP (fun pc => pc.building.isSome) = 0) :
    (List.replaceAt l k (some (.opened n))).countP (fun pc => pc.building.isSome) = 1 := by
  rw [List.split_getElem? hk, List.countP_append, List.countP_cons] at hnone
  rw [List.replaceAt_eq hk, List.countP_append, List.countP_append]
  have hone : (some (SnapshotPc.opened n)).toList.countP (fun pc => pc.building.isSome) = 1 := rfl
  omega

/-- A thread that goes on with its snapshot makes the same directory before and
after. -/
theorem unbuilt_of_moved {l : List SnapshotPc} {id : ℤ} (hk : l[k]? = some pc)
    (hbuild : pc'.bind SnapshotPc.building = pc.building)
    (hfree : ∀ p ∈ List.replaceAt l k pc', p.building ≠ some id) :
    ∀ p ∈ l, p.building ≠ some id := by
  intro p hp
  rw [List.split_getElem? hk] at hp
  simp only [List.mem_append, List.mem_cons] at hp
  rcases hp with hp | rfl | hp
  · exact hfree p (by simp [List.replaceAt_eq hk, hp])
  · rw [← hbuild]
    intro heq
    obtain ⟨p', rfl, hp'⟩ := Option.bind_eq_some_iff.mp heq
    exact hfree p' (by simp [List.replaceAt_eq hk]) hp'
  · exact hfree p (by simp [List.replaceAt_eq hk, hp])

/-- Where one thread alone makes a snapshot, the other directories are free. -/
theorem unbuilt_of_other {l : List SnapshotPc} {n id : ℤ} (hk : l[k]? = some pc)
    (hpc : pc.building = some n) (hne : id ≠ n)
    (hothers : ∀ p ∈ l.take k ++ l.drop (k + 1), p.building = none) :
    ∀ p ∈ l, p.building ≠ some id := by
  intro p hp
  rw [List.split_getElem? hk] at hp
  simp only [List.mem_append, List.mem_cons] at hp
  rcases hp with hp | rfl | hp
  · simp [hothers p (List.mem_append_left _ hp)]
  · rw [hpc]
    exact fun heq => hne (Option.some.inj heq).symm
  · simp [hothers p (List.mem_append_right _ hp)]

/-- The first critical section is refused, or the thread is the only one that
makes a snapshot. -/
theorem enter_cases {r : RaftState} {l : List SnapshotPc} {n : ℤ}
    (hcount : l.countP (fun pc => pc.building.isSome) = if r.snapshotInProgress then 1 else 0) :
    snapshotStep r (.enter n) = (ret r, none) ∨
    (Target r n ∧ (createSnapshotEnter r n).isSome ∧
      l.countP (fun pc => pc.building.isSome) = 0 ∧
      snapshotStep r (.enter n) =
        (ret { r with snapshotInProgress := true }, some (.opened n))) := by
  cases he : createSnapshotEnter r n with
  | none => exact Or.inl (by simp only [snapshotStep, he])
  | some r' =>
      obtain ⟨⟨hflag, -, hlo, hhi⟩, rfl⟩ := createSnapshotEnter_some he
      rw [if_neg hflag] at hcount
      exact Or.inr ⟨⟨hlo, hhi⟩, rfl, hcount, by simp only [snapshotStep, he]⟩

/-- A leader's entry, or one whose writes are all made. -/
theorem fileWrites_take {e : LogEntry} {j : ℕ}
    (h : ¬ ∃ d, e.type = .clientLog ∧ e.writes[j]? = some d) :
    e.fileWrites.take j = e.fileWrites := by
  refine List.take_of_length_le ?_
  unfold LogEntry.fileWrites
  cases htype : e.type with
  | leaderLog => simp
  | clientLog =>
      push Not at h
      have hnone : e.writes[j]? = none := by
        rw [Option.eq_none_iff_forall_ne_some]
        exact fun d => h d htype
      simpa using hnone

/-- The next write of the entry at `i`, the step to the next entry, or the end
of the entries. -/
theorem add_cases {r : RaftState} {e : LogEntry} {n prev i : ℤ} {j : ℕ}
    (hslot : r.log (i - r.startLogIndex).toNat = e) (hlo : r.startLogIndex ≤ i) (hhi : i ≤ n)
    (hn : n ≤ r.logCount) :
    (∃ d : TransactionEntry, i < n ∧ getLog r i = some e ∧
      e.fileWrites[j]? = some (cstr d.filename, cstr d.buffer) ∧
      e.fileWrites.take (j + 1) =
        e.fileWrites.take j ++ [(cstr d.filename, cstr d.buffer)] ∧
      snapshotStep r (.add n prev i j) =
        (emit r [.addToSnapshot n d.filename d.buffer], some (.add n prev i (j + 1)))) ∨
    (i < n ∧ e.fileWrites.take j = e.fileWrites ∧
      snapshotStep r (.add n prev i j) = (ret r, some (.add n prev (i + 1) 0))) ∨
    (i = n ∧ snapshotStep r (.add n prev i j) = (ret r, some (.shift n prev))) := by
  rcases hhi.lt_or_eq with hi | rfl
  · have hget : getLog r i = some e := hslot ▸ getLog_of_mem hlo (by omega)
    by_cases hwrite : ∃ d, e.type = .clientLog ∧ e.writes[j]? = some d
    · left
      obtain ⟨d, htype, hd⟩ := hwrite
      have hfile : e.fileWrites[j]? = some (cstr d.filename, cstr d.buffer) := by
        simp [LogEntry.fileWrites, htype, hd]
      refine ⟨d, hi, hget, hfile, ?_, ?_⟩
      · rw [List.take_add_one, hfile]
        rfl
      · simp only [snapshotStep, if_pos hi, hget, htype, hd]
    · right
      left
      refine ⟨hi, fileWrites_take hwrite, ?_⟩
      simp only [snapshotStep, if_pos hi, hget]
      split
      · rename_i d htype hd
        exact absurd ⟨d, htype, hd⟩ hwrite
      · rfl
  · exact Or.inr (Or.inr ⟨rfl, by rw [snapshotStep, if_neg (lt_irrefl _)]⟩)

/-- A thread takes a step outside the critical sections: it may write to the
directory it is making, and to those of earlier snapshots. -/
theorem StoreInv.moves (h : StoreInv s) (hup : s.node.up = true)
    (hk : s.node.snapshotThreads[k]? = some pc) {files : FileSystem} (hnum : files.Numbered)
    (hbuild : pc'.bind SnapshotPc.building = pc.building)
    (hdirs : ∀ id, s.node.raft.startLogIndex ≤ id → pc.building ≠ some id →
      files (.snapshot id) = s.node.files (.snapshot id))
    (hprogress : ∀ p, pc' = some p → Progress s.past s.node.raft files p) :
    StoreInv { s with node :=
      { s.node with snapshotThreads := List.replaceAt s.node.snapshotThreads k pc', files } } where
  past := h.past
  sound := h.sound
  saved := h.saved
  numbered := h.numbered
  files := hnum
  snapshot hne := by
    have hpc := h.progress pc (List.mem_of_getElem? hk)
    refine (hdirs _ le_rfl fun heq => ?_).trans (h.snapshot hne)
    exact absurd (hpc.start_lt heq) (lt_irrefl _)
  free id hid hfree := by
    have hold := unbuilt_of_moved hk hbuild hfree
    exact (hdirs id hid.le (hold pc (List.mem_of_getElem? hk))).trans (h.free id hid hold)
  building _ := (countP_replaceAt hk hbuild).trans (h.building hup)
  progress p hp := by
    rcases mem_replaced hk hp with hp | hp
    · have hold := h.progress p (mem_of_rest hp)
      cases hpb : p.building with
      | none => exact hold.idle hpb le_rfl
      | some n =>
          have hmine : pc.building = none := by
            by_contra hne
            have := others_idle (h.building hup) hk (Option.isSome_iff_ne_none.mpr hne) p hp
            exact absurd (this.symm.trans hpb) (by simp)
          exact hold.extends (.of_eq rfl rfl rfl) fun id hid =>
            hdirs id hid (by simp [hmine])
    · exact hprogress p hp
  down hdown := absurd (hup.symm.trans hdown) (by simp)

theorem StoreInv.start_nonneg (h : StoreInv s) : 0 ≤ s.node.raft.startLogIndex := by
  have := h.past
  omega

theorem getSnapshotPath_of_nonneg {id : ℤ} (h : 0 ≤ id) : getSnapshotPath id = .snapshot id :=
  if_neg (by omega)

theorem settle_ret (n : Node) (r : RaftState) : n.settle (ret r) none = { n with raft := r } := by
  simp [Node.settle, Node.performed, ret]

theorem settle_emit (n : Node) (r : RaftState) (x : Effect) :
    n.settle (emit r [x]) none = { n.perform x with raft := r } := by
  simp [Node.settle, Node.performed, emit]

/-- A thread moves on without a trace. -/
theorem StoreInv.passes (h : StoreInv s) (hup : s.node.up = true)
    (hk : s.node.snapshotThreads[k]? = some pc)
    (hstep : snapshotStep s.node.raft pc = (ret s.node.raft, pc'))
    (hpast : s.pastAfter pc = s.past) (hbuild : pc'.bind SnapshotPc.building = pc.building)
    (hprogress : ∀ p, pc' = some p → Progress s.past s.node.raft s.node.files p) :
    StoreInv (s.runThread k pc) := by
  simp only [Store.runThread, hstep, hpast, settle_ret]
  exact h.moves hup hk h.files hbuild (fun _ _ _ => rfl) hprogress

/-- A thread moves on with an operation on the files. -/
theorem StoreInv.touches (h : StoreInv s) (hup : s.node.up = true)
    (hk : s.node.snapshotThreads[k]? = some pc) {x : Effect} (f : FileSystem → FileSystem)
    (hx : ∀ n : Node, n.perform x = { n with files := f n.files })
    (hstep : snapshotStep s.node.raft pc = (emit s.node.raft [x], pc'))
    (hpast : s.pastAfter pc = s.past) (hbuild : pc'.bind SnapshotPc.building = pc.building)
    (hnum : (f s.node.files).Numbered)
    (hdirs : ∀ id, s.node.raft.startLogIndex ≤ id → pc.building ≠ some id →
      f s.node.files (.snapshot id) = s.node.files (.snapshot id))
    (hprogress : ∀ p, pc' = some p → Progress s.past s.node.raft (f s.node.files) p) :
    StoreInv (s.runThread k pc) := by
  simp only [Store.runThread, hstep, hpast, settle_emit, hx]
  exact h.moves hup hk hnum hbuild hdirs hprogress

theorem StoreInv.opened (h : StoreInv s) (hup : s.node.up = true) {n : ℤ}
    (hk : s.node.snapshotThreads[k]? = some (.opened n)) :
    StoreInv (s.runThread k (.opened n)) := by
  obtain ⟨ht, hdir⟩ := h.progress _ (List.mem_of_getElem? hk)
  refine h.passes hup hk rfl rfl ?_ fun p hp => ?_
  · by_cases hzero : s.node.raft.startLogIndex = 0
    · simp [hzero, SnapshotPc.building]
    · simp [hzero, SnapshotPc.building]
  · simp only [Option.some.injEq] at hp
    subst hp
    split_ifs with hzero
    · exact ⟨ht, rfl, rfl, hzero, by omega, hdir⟩
    · have hpast : s.past = [] := by
        have := h.past
        exact List.length_eq_zero_iff.mp (by omega)
      refine ⟨ht, rfl, ?_⟩
      rw [hdir, hpast]
      rfl

theorem firstFiles_succ (j : ℕ) (f : Bytes → Option Bytes) (name : Bytes) :
    firstFiles (j + 1) f name = if name = fileName j then f name else firstFiles j f name := by
  simp only [firstFiles, List.range_succ, List.map_append, List.map_cons, List.map_nil,
    List.mem_append, List.mem_singleton]
  by_cases hname : name = fileName j
  · simp [hname]
  · simp [hname]

theorem StoreInv.copied (h : StoreInv s) (hup : s.node.up = true) {n prev src : ℤ} {j : ℕ}
    (hk : s.node.snapshotThreads[k]? = some (.copy n prev src j)) :
    StoreInv (s.runThread k (.copy n prev src j)) := by
  obtain ⟨ht, hprev, hsrc, hzero, hj, hdir⟩ := h.progress _ (List.mem_of_getElem? hk)
  have hnonneg := h.start_nonneg
  have hlt := ht.start
  by_cases hmore : j < 100
  · have hpath : getSnapshotPath n = .snapshot n := getSnapshotPath_of_nonneg (by omega)
    have hsrcPath : getSnapshotPath src = .snapshot src := getSnapshotPath_of_nonneg (by omega)
    refine h.touches hup hk (fun files => FileSystem.copyFile src n files j) (fun _ => rfl)
      (by rw [snapshotStep, if_pos hmore]) rfl rfl (h.files.copyFile src n hmore)
      (fun id hid hne => ?_) fun p hp => ?_
    · refine FileSystem.copyFile_of_ne (hpath ▸ ?_) j
      simpa [SnapshotPc.building, eq_comm] using hne
    · simp only [Option.some.injEq] at hp
      subst hp
      have hsame : FileSystem.copyFile src n s.node.files j (.snapshot s.node.raft.startLogIndex) =
          s.node.files (.snapshot s.node.raft.startLogIndex) :=
        FileSystem.copyFile_of_ne (by simp only [hpath, ne_eq, Dir.snapshot.injEq]; omega) j
      refine ⟨ht, hprev, hsrc, hzero, by omega, ?_⟩
      rw [hsame]
      funext name
      rw [← hpath, FileSystem.copyFile_self, firstFiles_succ, hpath, hdir, hsrcPath, hsrc]
      split
      · simp only [overlay, firstFiles]
        cases s.node.files (.snapshot s.node.raft.startLogIndex) name <;> simp
      · rfl
  · refine h.passes hup hk (by rw [snapshotStep, if_neg hmore]) rfl rfl fun p hp => ?_
    simp only [Option.some.injEq] at hp
    subst hp
    refine ⟨ht, hprev, ?_⟩
    rw [hdir, ← h.snapshot hzero]
    funext name
    have hj' : j = 100 := by omega
    subst hj'
    simp only [firstFiles]
    split
    · rfl
    · rename_i hname
      exact (h.files _ name hname).symm

theorem StoreInv.entries (h : StoreInv s) (hup : s.node.up = true) {n prev : ℤ}
    (hk : s.node.snapshotThreads[k]? = some (.entries n prev)) :
    StoreInv (s.runThread k (.entries n prev)) := by
  obtain ⟨ht, hprev, hdir⟩ := h.progress _ (List.mem_of_getElem? hk)
  refine h.passes hup hk rfl rfl rfl fun p hp => ?_
  simp only [Option.some.injEq] at hp
  subst hp
  refine ⟨ht, hprev, le_rfl, ht.start.le, fun _ => rfl, ?_⟩
  rw [hdir, entriesTo_start, List.append_nil, List.take_zero, appendAll_nil]

/-- The next write of the entry at `i`, or the step to the next entry. -/
theorem StoreInv.added (h : StoreInv s) (hup : s.node.up = true) {n prev i : ℤ} {j : ℕ}
    (hk : s.node.snapshotThreads[k]? = some (.add n prev i j)) :
    StoreInv (s.runThread k (.add n prev i j)) := by
  obtain ⟨ht, hprev, hlo, hhi, hlast, hdir⟩ := h.progress _ (List.mem_of_getElem? hk)
  have hnonneg := h.start_nonneg
  have hcount := h.sound.count
  have hn := ht.commit
  have hlt := ht.start
  generalize hslot : s.node.raft.log (i - s.node.raft.startLogIndex).toNat = e at hdir
  rcases add_cases hslot hlo hhi (by omega) with
    ⟨d, hi, hget, hfile, htake, hstep⟩ | ⟨hi, htake, hstep⟩ | ⟨rfl, hstep⟩
  · have hnum : cstr d.filename ∈ fileNames :=
      h.sound.numbered i e hget _ (List.mem_of_getElem? hfile)
    have hpath : getSnapshotPath n = .snapshot n := getSnapshotPath_of_nonneg (by omega)
    refine h.touches hup hk (fun files => files.addToSnapshot n d.filename d.buffer)
      (fun _ => rfl) hstep rfl rfl (h.files.write hnum _) (fun id hid hne => ?_) fun p hp => ?_
    · refine FileSystem.appendTo_of_ne ?_ _ _
      rw [hpath]
      simpa [SnapshotPc.building, eq_comm] using hne
    · simp only [Option.some.injEq] at hp
      subst hp
      refine ⟨ht, hprev, hlo, hhi, fun heq => absurd heq (by omega), ?_⟩
      rw [hslot, htake, appendAll_concat, ← hdir, ← hpath]
      exact FileSystem.appendTo_self _ _
  · refine h.passes hup hk hstep rfl rfl fun p hp => ?_
    simp only [Option.some.injEq] at hp
    subst hp
    refine ⟨ht, hprev, by omega, by omega, fun _ => rfl, ?_⟩
    rw [hdir, htake, List.take_zero, appendAll_nil, entriesTo_succ hlo, hslot,
      ← List.append_assoc, replay_concat]
  · refine h.passes hup hk hstep rfl rfl fun p hp => ?_
    simp only [Option.some.injEq] at hp
    subst hp
    refine ⟨ht, hprev, ?_⟩
    rw [hdir, hlast rfl, List.take_zero, appendAll_nil]

theorem StoreInv.removed (h : StoreInv s) (hup : s.node.up = true) {prev : ℤ}
    (hk : s.node.snapshotThreads[k]? = some (.remove prev)) :
    StoreInv (s.runThread k (.remove prev)) := by
  obtain ⟨hnonneg, hlt⟩ := h.progress _ (List.mem_of_getElem? hk)
  refine h.touches hup hk (fun files => files.removeSnapshot prev) (fun _ => rfl) rfl rfl rfl
    (h.files.removeSnapshot prev) (fun id hid _ => ?_) fun p hp => absurd hp (by simp)
  refine FileSystem.removeSnapshot_of_ne ?_
  rw [getSnapshotPath_of_nonneg hnonneg]
  simp only [ne_eq, Dir.snapshot.injEq]
  omega

/-- The first critical section of `Raft_create_snapshot`. -/
theorem StoreInv.entered (h : StoreInv s) (hup : s.node.up = true) {n : ℤ}
    (hk : s.node.snapshotThreads[k]? = some (.enter n)) :
    StoreInv (s.runThread k (.enter n)) := by
  rcases enter_cases (n := n) (h.building hup) with hstep | ⟨ht, -, hnone, hstep⟩
  · exact h.passes hup hk hstep rfl rfl fun p hp => absurd hp (by simp)
  · have hidle : ∀ p ∈ s.node.snapshotThreads, p.building = none := fun p hp => by
      simpa using List.countP_eq_zero.mp hnone p hp
    simp only [Store.runThread, hstep, settle_ret]
    refine ⟨h.past, ⟨⟨h.sound.start, h.sound.count, h.sound.room⟩, h.sound.numbered⟩, h.saved,
      h.numbered, h.files, h.snapshot, fun id hid _ => ?_, fun _ => ?_, fun p hp => ?_, ?_⟩
    · exact h.free id hid fun p hp => by simp [hidle p hp]
    · exact countP_enter hk hnone
    · have hmem : p ∈ List.replaceAt s.node.snapshotThreads k (some (.opened n)) := hp
      rcases mem_replaced hk hmem with hp | hp
      · refine (h.progress p (mem_of_rest hp)).idle (hidle p (mem_of_rest hp)) ?_
        exact le_rfl
      · simp only [Option.some.injEq] at hp
        subst hp
        exact ⟨⟨ht.start, ht.commit⟩, h.free n ht.start fun p hp => by simp [hidle p hp]⟩
    · exact fun hdown => absurd (hup.symm.trans hdown) (by simp)

/-- The state the second critical section saves. -/
def compacted (r : RaftState) (n : ℤ) : RaftState :=
  { r with
    snapshotInProgress := false
    log := copyDown r.log (n - r.startLogIndex).toNat (r.logCount - n).toNat
    startLogIndex := n }

theorem Shape.compacted {r : RaftState} (h : Shape r) {n : ℤ} (ht : Target r n) :
    Shape (compacted r n) ∧ createSnapshotShift r n = saveState (RaftLock.compacted r n) := by
  have hroom := h.room
  have hlt := ht.start
  refine ⟨⟨ht.commit, h.count, ?_⟩, ?_⟩
  · show r.logCount ≤ n + (logSize : ℤ)
    omega
  · unfold createSnapshotShift
    simp only
    rw [if_neg (by push Not; intro _; exact ⟨hlt.le, by omega⟩)]
    rfl

/-- The second critical section: the window moves and the state is saved. -/
theorem StoreInv.shifted (h : StoreInv s) (hup : s.node.up = true) {n prev : ℤ}
    (hk : s.node.snapshotThreads[k]? = some (.shift n prev)) :
    StoreInv (s.runThread k (.shift n prev)) := by
  obtain ⟨ht, hprev, hdir⟩ := h.progress _ (List.mem_of_getElem? hk)
  have hnonneg := h.start_nonneg
  have hlt := ht.start
  have hpast := h.past
  have hothers := others_idle (h.building hup) hk rfl
  obtain ⟨hshape, hshift⟩ := h.sound.toShape.compacted ht
  have hsound : Sound (compacted s.node.raft n) :=
    ⟨hshape, fun i e he => h.sound.numbered i e (getLog_shifted (fun _ => hlt.le) he)⟩
  simp only [Store.runThread, snapshotStep, hshift, saveState, settle_emit]
  refine ⟨?_, hsound, fun st hst => ?_, fun e he => ?_, h.files, fun _ => hdir, fun id hid _ => ?_,
    fun _ => ?_, fun p hp => ?_, fun hdown => absurd (hup.symm.trans hdown) (by simp)⟩
  · exact past_compacted hpast hlt.le
  · simp only [Node.perform, Option.some.injEq] at hst
    subst hst
    exact ⟨hsound, rfl⟩
  · rcases List.mem_append.mp he with he | he
    · exact h.numbered e he
    · have hcommit := ht.commit
      have hcount := h.sound.count
      exact h.sound.numbered_entriesTo (by omega) e he
  · have hid' : n < id := hid
    exact h.free id (by omega) (unbuilt_of_other hk rfl hid'.ne' hothers)
  · exact shifted_idle hk hothers
  · rcases mem_shifted hk hp with hp | ⟨hsome, rfl⟩
    · exact (h.progress p (mem_of_rest hp)).idle (hothers p hp) hlt.le
    · exact ⟨by omega, hprev ▸ hlt⟩

theorem StoreInv.thread (h : StoreInv s) (hup : s.node.up = true)
    (hk : s.node.snapshotThreads[k]? = some pc) : StoreInv (s.runThread k pc) := by
  cases pc with
  | check =>
      by_cases hfull : s.node.raft.commitIndex - s.node.raft.startLogIndex + 1 ≥ commitsToSnapshot
      · exact h.passes hup hk (by rw [snapshotStep, if_pos hfull]) rfl rfl fun p hp => by
          simp only [Option.some.injEq] at hp
          subst hp
          trivial
      · exact h.passes hup hk (by rw [snapshotStep, if_neg hfull]) rfl rfl fun p hp =>
          absurd hp (by simp)
  | argument =>
      exact h.passes hup hk rfl rfl rfl fun p hp => by
        simp only [Option.some.injEq] at hp
        subst hp
        trivial
  | enter n => exact h.entered hup hk
  | opened n => exact h.opened hup hk
  | copy n prev src j => exact h.copied hup hk
  | entries n prev => exact h.entries hup hk
  | add n prev i j => exact h.added hup hk
  | shift n prev => exact h.shifted hup hk
  | remove prev => exact h.removed hup hk

end Threads

end Steps

end RaftLock

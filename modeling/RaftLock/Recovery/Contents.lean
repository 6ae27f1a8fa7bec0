import RaftLock.Recovery.Rebuild

/-!
One file through crashes, file by file.

The process may end anywhere, also while a thread is in
`Raft_create_snapshot`, and the directory the thread was making stays behind
as it is. What comes of it depends on the file: one that the previous snapshot
has is written anew by the next attempt, one that it does not have is appended
to. Here the entries may write to any names; a file is followed through the
directories on its own.
-/

namespace RaftLock

open Outcome Appends

/-- What a file holds; nothing when it is not there. -/
def content (fs : FileSystem) (d : Dir) (name : Bytes) : Bytes := (fs d name).getD []

/-- The bytes that the entries write to a file, in order. -/
def written (name : Bytes) (es : List LogEntry) : Bytes :=
  bytesTo name (es.flatMap LogEntry.fileWrites)

theorem written_append (name : Bytes) (es es' : List LogEntry) :
    written name (es ++ es') = written name es ++ written name es' := by
  rw [written, List.flatMap_append, bytesTo_append]
  rfl

theorem written_singleton (name : Bytes) (e : LogEntry) :
    written name [e] = bytesTo name e.fileWrites := by
  rw [written, List.flatMap_singleton]

theorem replay_getD (f : Bytes → Option Bytes) (es : List LogEntry) (name : Bytes) :
    (replay f es name).getD [] = (f name).getD [] ++ written name es := appendAll_getD _ _ _

theorem content_congr {fs fs' : FileSystem} {d : Dir} {name : Bytes}
    (h : fs' d name = fs d name) : content fs' d name = content fs d name := by
  rw [content, h]
  rfl

namespace Store

/-- A step of a server whose process may end anywhere. -/
def execAnywhere (s : Store) : StoreAction → Option Store
  | .commit i crashAt =>
    let n := s.node
    if n.up ∧ n.raft.commitIndex ≤ i ∧ i ≤ n.raft.logCount - 1 then
      some { s with node := n.settle (commitUpdate n.raft i) crashAt }
    else none
  | .crash =>
    let n := s.node
    if n.up then some { s with node := n.crash } else none
  | x => s.exec x

end Store

/-! ### What a thread has made of a file -/

/-- What `snapshot_<n>` holds of a file does not get into the new snapshot: it
is nothing, or the file is copied from the previous snapshot. -/
def Overwritten (name : Bytes) (r : RaftState) (files : FileSystem) (n : ℤ) : Prop :=
  content files (.snapshot n) name = [] ∨
    r.startLogIndex ≠ 0 ∧ files (.snapshot r.startLogIndex) name ≠ none

instance (name : Bytes) (r : RaftState) (files : FileSystem) (n : ℤ) :
    Decidable (Overwritten name r files n) := inferInstanceAs (Decidable (_ ∨ _ ∧ _))

/-- How far a thread is with one file of the directory of its snapshot. -/
def FileProgress (name : Bytes) (past : List LogEntry) (r : RaftState) (files : FileSystem) :
    SnapshotPc → Prop
  | .check | .argument | .enter _ => True
  | .opened n => Target r n ∧ Overwritten name r files n
  | .copy n prev src k => Target r n ∧ prev = r.startLogIndex ∧ src = r.startLogIndex ∧
      r.startLogIndex ≠ 0 ∧ k ≤ 100 ∧
      if name ∈ (List.range k).map fileName then
        content files (.snapshot n) name = written name past
      else Overwritten name r files n
  | .entries n prev => Target r n ∧ prev = r.startLogIndex ∧
      content files (.snapshot n) name = written name past
  | .add n prev i j => Target r n ∧ prev = r.startLogIndex ∧ r.startLogIndex ≤ i ∧ i ≤ n ∧
      (i = n → j = 0) ∧
      content files (.snapshot n) name = written name (past ++ entriesTo r i) ++
        bytesTo name ((r.log (i - r.startLogIndex).toNat).fileWrites.take j)
  | .shift n prev => Target r n ∧ prev = r.startLogIndex ∧
      content files (.snapshot n) name = written name (past ++ entriesTo r n)
  | .remove prev => 0 ≤ prev ∧ prev < r.startLogIndex

section Progress

variable {name : Bytes} {past : List LogEntry} {r r' : RaftState} {files files' : FileSystem}
  {pc : SnapshotPc}

theorem Overwritten.congr {n : ℤ} (h : Overwritten name r files n)
    (hstart : r'.startLogIndex = r.startLogIndex)
    (hown : files' (.snapshot r.startLogIndex) name = files (.snapshot r.startLogIndex) name)
    (hdir : files' (.snapshot n) name = files (.snapshot n) name) :
    Overwritten name r' files' n := by
  unfold Overwritten content at h ⊢
  rw [hstart, hown, hdir]
  exact h

/-- Nothing that a thread has read or will read changes under it. -/
theorem FileProgress.extends (h : FileProgress name past r files pc) (he : Extends r r')
    (hfiles : ∀ id, r.startLogIndex ≤ id →
      files' (.snapshot id) name = files (.snapshot id) name) :
    FileProgress name past r' files' pc := by
  have hstart := he.start
  have hcontent : ∀ id, r.startLogIndex ≤ id →
      content files' (.snapshot id) name = content files (.snapshot id) name :=
    fun id hid => content_congr (hfiles id hid)
  cases pc with
  | check => trivial
  | argument => trivial
  | enter n => trivial
  | opened n =>
      exact ⟨h.1.mono he, h.2.congr hstart (hfiles _ le_rfl) (hfiles n h.1.start.le)⟩
  | copy n prev src k =>
      obtain ⟨ht, hprev, hsrc, hzero, hk, hdir⟩ := h
      simp only [FileProgress, hstart]
      refine ⟨ht.mono he, hprev, hsrc, hzero, hk, ?_⟩
      split_ifs at hdir ⊢
      · exact (hcontent n ht.start.le).trans hdir
      · exact hdir.congr hstart (hfiles _ le_rfl) (hfiles n ht.start.le)
  | entries n prev =>
      obtain ⟨ht, hprev, hdir⟩ := h
      simp only [FileProgress, hstart, hcontent n ht.start.le]
      exact ⟨ht.mono he, hprev, hdir⟩
  | add n prev i j =>
      obtain ⟨ht, hprev, hlo, hhi, hlast, hdir⟩ := h
      have hn := ht.commit
      simp only [FileProgress, hstart, hcontent n ht.start.le]
      refine ⟨ht.mono he, hprev, hlo, hhi, hlast, ?_⟩
      rw [he.entriesTo (by omega), hdir]
      rcases eq_or_ne i n with heq | hne
      · rw [hlast heq, List.take_zero, List.take_zero]
      · rw [he.log _ (by omega)]
  | shift n prev =>
      obtain ⟨ht, hprev, hdir⟩ := h
      simp only [FileProgress, hstart, hcontent n ht.start.le]
      refine ⟨ht.mono he, hprev, ?_⟩
      rw [he.entriesTo ht.commit, hdir]
  | remove prev => exact ⟨h.1, hstart ▸ h.2⟩

/-- A thread that makes no snapshot reads no files. -/
theorem FileProgress.idle (h : FileProgress name past r files pc) (hpc : pc.building = none)
    (hstart : r.startLogIndex ≤ r'.startLogIndex) {past' : List LogEntry} :
    FileProgress name past' r' files' pc := by
  cases pc with
  | remove prev => exact ⟨h.1, lt_of_lt_of_le h.2 hstart⟩
  | check => trivial
  | argument => trivial
  | enter n => trivial
  | _ => simp [SnapshotPc.building] at hpc

theorem FileProgress.start_lt (h : FileProgress name past r files pc) {n : ℤ}
    (hpc : pc.building = some n) : r.startLogIndex < n := by
  cases pc with
  | check | argument | enter | remove => simp [SnapshotPc.building] at hpc
  | opened | copy | entries | add | shift =>
      simp only [SnapshotPc.building, Option.some.injEq] at hpc
      exact hpc ▸ h.1.start

end Progress

/-! ### The invariant -/

/-- A file of a server. The directories in `left` may hold what a thread has
left in them when the process ended. -/
structure FileInv (name : Bytes) (left : Set ℤ) (s : Store) : Prop where
  past : (s.past.length : ℤ) = s.node.raft.startLogIndex
  shape : Shape s.node.raft
  saved : ∀ st, s.node.saved = some st → Shape st ∧ st.startLogIndex = s.node.raft.startLogIndex
  snapshot : s.node.raft.startLogIndex ≠ 0 →
    content s.node.files (.snapshot s.node.raft.startLogIndex) name = written name s.past
  free : ∀ id, s.node.raft.startLogIndex < id → id ∉ left →
    (∀ pc ∈ s.node.snapshotThreads, pc.building ≠ some id) →
    content s.node.files (.snapshot id) name = []
  building : s.node.up = true → s.node.snapshotThreads.countP (fun pc => pc.building.isSome) =
    if s.node.raft.snapshotInProgress then 1 else 0
  progress : ∀ pc ∈ s.node.snapshotThreads,
    FileProgress name s.past s.node.raft s.node.files pc
  down : s.node.up = false → s.node.snapshotThreads = []

theorem fileInv_init (name : Bytes) (left : Set ℤ) (config : Config) (v : Server) :
    FileInv name left (.init config v) where
  past := rfl
  shape := shape_init config v
  saved st hst := absurd hst (by simp [Store.init, Node.init])
  snapshot h := absurd rfl h
  free id _ _ _ := by
    have hinit : (Store.init config v).node.files = FileSystem.cleanMainFiles fun _ _ => none := rfl
    rw [hinit, content, FileSystem.cleanMainFiles_of_ne (by simp)]
    rfl
  building _ := rfl
  progress pc hpc := absurd hpc (by simp [Store.init, Node.init])
  down h := absurd h (by simp [Store.init, Node.init])

section Steps

variable {name : Bytes} {left : Set ℤ} {s : Store} {n : Node}

theorem FileInv.start_nonneg (h : FileInv name left s) : 0 ≤ s.node.raft.startLogIndex := by
  have := h.past
  omega

/-- A step that leaves the snapshots alone, and the threads too unless the
process ends. -/
theorem FileInv.extends (h : FileInv name left s) (he : Extends s.node.raft n.raft)
    (hshape : Shape n.raft)
    (hsaved : ∀ st, n.saved = some st → Shape st ∧ st.startLogIndex = s.node.raft.startLogIndex)
    (hfiles : ∀ id, n.files (.snapshot id) = s.node.files (.snapshot id))
    (hthreads : (n.up = true ∧ s.node.up = true ∧ n.snapshotThreads = s.node.snapshotThreads ∧
      n.raft.snapshotInProgress = s.node.raft.snapshotInProgress) ∨
      (n.up = false ∧ n.snapshotThreads = [] ∧
        ∀ pc ∈ s.node.snapshotThreads, ∀ id, pc.building = some id → id ∈ left)) :
    FileInv name left { s with node := n } where
  past := h.past.trans he.start.symm
  shape := hshape
  saved st hst := by
    rw [he.start]
    exact hsaved st hst
  snapshot hne := by
    rw [he.start] at hne ⊢
    exact (content_congr (congrFun (hfiles _) name)).trans (h.snapshot hne)
  free id hid hleft hbuild := by
    rw [he.start] at hid
    refine (content_congr (congrFun (hfiles id) name)).trans (h.free id hid hleft ?_)
    rcases hthreads with ⟨-, -, heq, -⟩ | ⟨-, -, hkilled⟩
    · exact heq ▸ hbuild
    · exact fun pc hpc heq => hleft (hkilled pc hpc id heq)
  building hup := by
    rcases hthreads with ⟨-, hup', heq, hflag⟩ | ⟨hdown, -, -⟩
    · rw [heq, hflag]
      exact h.building hup'
    · exact absurd (hup.symm.trans hdown) (by simp)
  progress pc hpc := by
    rcases hthreads with ⟨-, -, heq, -⟩ | ⟨-, heq, -⟩
    · exact (h.progress pc (heq ▸ hpc)).extends he fun id _ => by rw [hfiles id]
    · exact absurd hpc (by simp [heq])
  down hdown := by
    rcases hthreads with ⟨hup, -, -, -⟩ | ⟨-, heq, -⟩
    · exact absurd (hup.symm.trans hdown) (by simp)
    · exact heq

/-- A step of a running server that leaves the files alone. -/
theorem FileInv.raft (h : FileInv name left s) (hup : s.node.up = true) {r : RaftState}
    (he : Extends s.node.raft r) (hshape : Shape r)
    (hflag : r.snapshotInProgress = s.node.raft.snapshotInProgress) :
    FileInv name left { s with node := { s.node with raft := r } } :=
  h.extends he hshape h.saved (fun _ => rfl) (Or.inl ⟨hup, hup, rfl, hflag⟩)

theorem FileInv.save (h : FileInv name left s) (hup : s.node.up = true) :
    FileInv name left { s with node := s.node.settle (saveState s.node.raft) none } := by
  refine h.extends (.of_eq rfl rfl rfl) h.shape (fun st hst => ?_) (fun _ => rfl)
    (Or.inl ⟨hup, hup, rfl, rfl⟩)
  simp only [Node.settle, Node.performed, saveState, emit, List.foldl_cons, List.foldl_nil,
    Node.perform, and_self, if_true, Option.some.injEq] at hst
  subst hst
  exact ⟨h.shape, rfl⟩

/-- Committing leaves the snapshots alone. -/
theorem foldl_commit_of_ne {es : List Effect} (hes : ∀ x ∈ es, ∃ i e, x = .commit i e) {d : Dir}
    (hd : d ≠ .main) : (es.foldl Node.perform n).files d = n.files d := by
  induction es generalizing n with
  | nil => rfl
  | cons x es ih =>
      obtain ⟨i, e, rfl⟩ := hes x List.mem_cons_self
      rw [List.foldl_cons, ih fun y hy => hes y (List.mem_cons_of_mem _ hy)]
      exact perform_commit_of_ne n i e hd

theorem FileInv.commit (h : FileInv name left s) (hup : s.node.up = true) {i : ℤ}
    {crashAt : Option ℕ} (hlo : s.node.raft.commitIndex ≤ i) (hhi : i ≤ s.node.raft.logCount - 1)
    (hkilled : crashAt = none ∨ ∀ pc ∈ s.node.snapshotThreads, ∀ id, pc.building = some id →
      id ∈ left) :
    FileInv name left { s with node := s.node.settle (commitUpdate s.node.raft i) crashAt } := by
  have hfault := commitUpdate_fault (h.shape.committable hhi)
  have hes : ∀ x ∈ Node.performed (commitUpdate s.node.raft i) crashAt, ∃ j e, x = .commit j e := by
    intro x hx
    obtain ⟨j, e, rfl, -⟩ := commitUpdate_mem (Node.mem_of_performed hx)
    exact ⟨j, e, rfl⟩
  obtain ⟨hraft, hup', hthreads, -, hsaved⟩ :=
    Node.foldl_perform (Node.performed (commitUpdate s.node.raft i) crashAt) s.node
  rw [savedAfter_of_forall (fun x hx st heq => by
    obtain ⟨j, e, rfl⟩ := hes x hx
    exact absurd heq (by simp)) s.node.saved] at hsaved
  have hdirs : ∀ id, ((Node.performed (commitUpdate s.node.raft i) crashAt).foldl Node.perform
      s.node).files (.snapshot id) = s.node.files (.snapshot id) :=
    fun id => foldl_commit_of_ne hes (by simp)
  have hend : (commitUpdate s.node.raft i).raft = { s.node.raft with commitIndex := i } :=
    congrArg Outcome.raft (commitUpdate_ok hfault).1
  unfold Node.settle
  simp only [hend]
  generalize (Node.performed (commitUpdate s.node.raft i) crashAt).foldl Node.perform s.node = n
    at hraft hup' hthreads hsaved hdirs
  have hold : ∀ st, n.saved = some st →
      Shape st ∧ st.startLogIndex = s.node.raft.startLogIndex := by
    rw [hsaved]
    exact h.saved
  split_ifs with hwhole
  · exact h.extends ⟨rfl, hlo, fun _ _ => rfl⟩ (h.shape.commit hlo hhi) hold hdirs
      (Or.inl ⟨hup'.trans hup, hup, hthreads, rfl⟩)
  · refine h.extends ?_ ?_ hold hdirs (Or.inr ⟨rfl, rfl, hkilled.resolve_left ?_⟩)
    · simp only [Node.crash, hraft]
      exact .of_eq rfl rfl rfl
    · simp only [Node.crash, hraft]
      exact h.shape
    · exact fun heq => hwhole ⟨heq, hfault⟩

/-- A thread calls `Raft_create_snapshot`. -/
theorem FileInv.called (h : FileInv name left s) (hup : s.node.up = true) (m : ℤ) :
    FileInv name left { s with node :=
      { s.node with snapshotThreads := s.node.snapshotThreads ++ [.enter m] } } where
  past := h.past
  shape := h.shape
  saved := h.saved
  snapshot := h.snapshot
  free id hid hleft hfree :=
    h.free id hid hleft fun pc hpc => hfree pc (List.mem_append_left _ hpc)
  building _ := by
    show (s.node.snapshotThreads ++ [SnapshotPc.enter m]).countP _ = _
    rw [List.countP_append]
    exact h.building hup
  progress pc hpc := by
    rcases List.mem_append.mp hpc with hpc | hpc
    · exact h.progress pc hpc
    · rw [List.mem_singleton.mp hpc]
      trivial
  down hdown := absurd (hup.symm.trans hdown) (by simp)

/-! ### Threads move -/

section Threads

variable {k : ℕ} {pc : SnapshotPc} {pc' : Option SnapshotPc}

/-- A thread takes a step outside the critical sections. -/
theorem FileInv.moves (h : FileInv name left s) (hup : s.node.up = true)
    (hk : s.node.snapshotThreads[k]? = some pc) {files : FileSystem}
    (hbuild : pc'.bind SnapshotPc.building = pc.building)
    (hdirs : ∀ id, s.node.raft.startLogIndex ≤ id → pc.building ≠ some id →
      files (.snapshot id) name = s.node.files (.snapshot id) name)
    (hprogress : ∀ p, pc' = some p → FileProgress name s.past s.node.raft files p) :
    FileInv name left { s with node :=
      { s.node with snapshotThreads := List.replaceAt s.node.snapshotThreads k pc', files } } where
  past := h.past
  shape := h.shape
  saved := h.saved
  snapshot hne := by
    have hpc := h.progress pc (List.mem_of_getElem? hk)
    refine (content_congr (hdirs _ le_rfl fun heq => ?_)).trans (h.snapshot hne)
    exact absurd (hpc.start_lt heq) (lt_irrefl _)
  free id hid hleft hfree := by
    have hold := unbuilt_of_moved hk hbuild hfree
    have hsame := hdirs id hid.le (hold pc (List.mem_of_getElem? hk))
    exact (content_congr hsame).trans (h.free id hid hleft hold)
  building _ := (countP_replaceAt hk hbuild).trans (h.building hup)
  progress p hp := by
    rcases mem_replaced hk hp with hp | hp
    · have hold := h.progress p (mem_of_rest hp)
      cases hpb : p.building with
      | none => exact hold.idle hpb le_rfl
      | some n =>
          have hmine : pc.building = none := by
            by_contra hne
            have := others_idle (h.building hup) hk (Option.isSome_iff_ne_none.mpr hne) p hp
            exact absurd (this.symm.trans hpb) (by simp)
          exact hold.extends (.of_eq rfl rfl rfl) fun id hid => hdirs id hid (by simp [hmine])
    · exact hprogress p hp
  down hdown := absurd (hup.symm.trans hdown) (by simp)

/-- A thread moves on without a trace. -/
theorem FileInv.passes (h : FileInv name left s) (hup : s.node.up = true)
    (hk : s.node.snapshotThreads[k]? = some pc)
    (hstep : snapshotStep s.node.raft pc = (ret s.node.raft, pc'))
    (hpast : s.pastAfter pc = s.past) (hbuild : pc'.bind SnapshotPc.building = pc.building)
    (hprogress : ∀ p, pc' = some p → FileProgress name s.past s.node.raft s.node.files p) :
    FileInv name left (s.runThread k pc) := by
  simp only [Store.runThread, hstep, hpast, settle_ret]
  exact h.moves hup hk hbuild (fun _ _ _ => rfl) hprogress

/-- A thread moves on with an operation on the files. -/
theorem FileInv.touches (h : FileInv name left s) (hup : s.node.up = true)
    (hk : s.node.snapshotThreads[k]? = some pc) {x : Effect} (f : FileSystem → FileSystem)
    (hx : ∀ n : Node, n.perform x = { n with files := f n.files })
    (hstep : snapshotStep s.node.raft pc = (emit s.node.raft [x], pc'))
    (hpast : s.pastAfter pc = s.past) (hbuild : pc'.bind SnapshotPc.building = pc.building)
    (hdirs : ∀ id, s.node.raft.startLogIndex ≤ id → pc.building ≠ some id →
      f s.node.files (.snapshot id) = s.node.files (.snapshot id))
    (hprogress : ∀ p, pc' = some p → FileProgress name s.past s.node.raft (f s.node.files) p) :
    FileInv name left (s.runThread k pc) := by
  simp only [Store.runThread, hstep, hpast, settle_emit, hx]
  exact h.moves hup hk hbuild (fun id hid hne => by rw [hdirs id hid hne]) hprogress

theorem FileInv.opened (h : FileInv name left s) (hup : s.node.up = true) {n : ℤ}
    (hk : s.node.snapshotThreads[k]? = some (.opened n)) :
    FileInv name left (s.runThread k (.opened n)) := by
  obtain ⟨ht, hdir⟩ := h.progress _ (List.mem_of_getElem? hk)
  refine h.passes hup hk rfl rfl ?_ fun p hp => ?_
  · by_cases hzero : s.node.raft.startLogIndex = 0
    · simp [hzero, SnapshotPc.building]
    · simp [hzero, SnapshotPc.building]
  · simp only [Option.some.injEq] at hp
    subst hp
    split_ifs with hzero
    · exact ⟨ht, rfl, rfl, hzero, by omega, hdir⟩
    · have hpast : s.past = [] := by
        have := h.past
        exact List.length_eq_zero_iff.mp (by omega)
      refine ⟨ht, rfl, ?_⟩
      rw [hpast]
      exact hdir.resolve_right fun hcopied => hzero hcopied.1

/-- Once its turn has been made a file is the one of the previous snapshot. -/
theorem content_copyFile {fs : FileSystem} {src n : ℤ} (j : ℕ)
    (hpath : getSnapshotPath n = .snapshot n) (hsrc : getSnapshotPath src = .snapshot src)
    (h : fs (.snapshot src) (fileName j) = none → content fs (.snapshot n) (fileName j) = []) :
    content (FileSystem.copyFile src n fs j) (.snapshot n) (fileName j) =
      content fs (.snapshot src) (fileName j) := by
  rw [content, ← hpath, FileSystem.copyFile_self, if_pos rfl, hsrc, hpath]
  unfold content at h ⊢
  cases hfile : fs (.snapshot src) (fileName j) with
  | none => simpa [overlay, hfile] using h hfile
  | some c => simp [overlay, hfile]

theorem FileInv.copied (h : FileInv name left s) (hname : name ∈ fileNames) (hup : s.node.up = true)
    {n prev src : ℤ} {j : ℕ} (hk : s.node.snapshotThreads[k]? = some (.copy n prev src j)) :
    FileInv name left (s.runThread k (.copy n prev src j)) := by
  obtain ⟨ht, hprev, hsrc, hzero, hj, hdir⟩ := h.progress _ (List.mem_of_getElem? hk)
  have hnonneg := h.start_nonneg
  have hlt := ht.start
  by_cases hmore : j < 100
  · have hpath : getSnapshotPath n = .snapshot n := getSnapshotPath_of_nonneg (by omega)
    have hsrcPath := getSnapshotPath_of_nonneg hnonneg
    have hother : ∀ id, id ≠ n → FileSystem.copyFile src n s.node.files j (.snapshot id) =
        s.node.files (.snapshot id) := fun id hid =>
      FileSystem.copyFile_of_ne (by simpa only [hpath, ne_eq, Dir.snapshot.injEq] using hid) j
    refine h.touches hup hk (fun files => FileSystem.copyFile src n files j) (fun _ => rfl)
      (by rw [snapshotStep, if_pos hmore]) rfl rfl (fun id hid hne => hother id ?_) fun p hp => ?_
    · simpa [SnapshotPc.building, eq_comm] using hne
    · simp only [Option.some.injEq] at hp
      subst hp
      refine ⟨ht, hprev, hsrc, hzero, by omega, ?_⟩
      simp only [List.range_succ, List.map_append, List.map_cons, List.map_nil, List.mem_append,
        List.mem_singleton]
      rcases eq_or_ne name (fileName j) with rfl | hne
      · -- the turn of this file
        rw [if_pos (Or.inr rfl), ← h.snapshot hzero, hsrc]
        refine content_copyFile j hpath hsrcPath fun hnone => ?_
        split_ifs at hdir
        · rw [hdir, ← h.snapshot hzero, content, hnone]
          rfl
        · exact hdir.resolve_right fun hcopied => hcopied.2 hnone
      · have hsame : FileSystem.copyFile src n s.node.files j (.snapshot n) name =
            s.node.files (.snapshot n) name := by
          rw [← hpath, FileSystem.copyFile_self, if_neg hne]
        have hmem : (name ∈ (List.range j).map fileName ∨ name = fileName j) ↔
            name ∈ (List.range j).map fileName := or_iff_left hne
        simp only [hmem]
        split_ifs at hdir ⊢
        · exact (content_congr hsame).trans hdir
        · exact hdir.congr rfl (by rw [hother _ (by omega)]) hsame
  · refine h.passes hup hk (by rw [snapshotStep, if_neg hmore]) rfl rfl fun p hp => ?_
    simp only [Option.some.injEq] at hp
    subst hp
    obtain rfl : j = 100 := by omega
    have hmem : name ∈ (List.range 100).map fileName := hname
    rw [if_pos hmem] at hdir
    exact ⟨ht, hprev, hdir⟩

theorem FileInv.entries (h : FileInv name left s) (hup : s.node.up = true) {n prev : ℤ}
    (hk : s.node.snapshotThreads[k]? = some (.entries n prev)) :
    FileInv name left (s.runThread k (.entries n prev)) := by
  obtain ⟨ht, hprev, hdir⟩ := h.progress _ (List.mem_of_getElem? hk)
  refine h.passes hup hk rfl rfl rfl fun p hp => ?_
  simp only [Option.some.injEq] at hp
  subst hp
  refine ⟨ht, hprev, le_rfl, ht.start.le, fun _ => rfl, ?_⟩
  rw [hdir, entriesTo_start, List.append_nil, List.take_zero]
  exact (List.append_nil _).symm

/-- The next write of the entry at `i`, or the step to the next entry. -/
theorem FileInv.added (h : FileInv name left s) (hup : s.node.up = true) {n prev i : ℤ} {j : ℕ}
    (hk : s.node.snapshotThreads[k]? = some (.add n prev i j)) :
    FileInv name left (s.runThread k (.add n prev i j)) := by
  obtain ⟨ht, hprev, hlo, hhi, hlast, hdir⟩ := h.progress _ (List.mem_of_getElem? hk)
  have hnonneg := h.start_nonneg
  have hcount := h.shape.count
  have hn := ht.commit
  have hlt := ht.start
  generalize hslot : s.node.raft.log (i - s.node.raft.startLogIndex).toNat = e at hdir
  rcases add_cases hslot hlo hhi (by omega) with
    ⟨d, hi, hget, hfile, htake, hstep⟩ | ⟨hi, htake, hstep⟩ | ⟨rfl, hstep⟩
  · have hpath : getSnapshotPath n = .snapshot n := getSnapshotPath_of_nonneg (by omega)
    refine h.touches hup hk (fun files => files.addToSnapshot n d.filename d.buffer)
      (fun _ => rfl) hstep rfl rfl (fun id hid hne => ?_) fun p hp => ?_
    · refine FileSystem.appendTo_of_ne ?_ _ _
      rw [hpath]
      simpa [SnapshotPc.building, eq_comm] using hne
    · simp only [Option.some.injEq] at hp
      subst hp
      refine ⟨ht, hprev, hlo, hhi, fun heq => absurd heq (by omega), ?_⟩
      rw [hslot, htake, bytesTo_append, ← List.append_assoc, ← hdir, ← hpath, content,
        FileSystem.addToSnapshot, FileSystem.appendTo_self, append_getD]
      rfl
  · refine h.passes hup hk hstep rfl rfl fun p hp => ?_
    simp only [Option.some.injEq] at hp
    subst hp
    refine ⟨ht, hprev, by omega, by omega, fun _ => rfl, ?_⟩
    rw [hdir, htake, List.take_zero, entriesTo_succ hlo, hslot, ← List.append_assoc,
      written_append name _ [e], written_singleton]
    exact (List.append_nil _).symm
  · refine h.passes hup hk hstep rfl rfl fun p hp => ?_
    simp only [Option.some.injEq] at hp
    subst hp
    refine ⟨ht, hprev, ?_⟩
    rw [hdir, hlast rfl, List.take_zero]
    exact List.append_nil _

theorem FileInv.removed (h : FileInv name left s) (hup : s.node.up = true) {prev : ℤ}
    (hk : s.node.snapshotThreads[k]? = some (.remove prev)) :
    FileInv name left (s.runThread k (.remove prev)) := by
  obtain ⟨hnonneg, hlt⟩ := h.progress _ (List.mem_of_getElem? hk)
  refine h.touches hup hk (fun files => files.removeSnapshot prev) (fun _ => rfl) rfl rfl rfl
    (fun id hid _ => ?_) fun p hp => absurd hp (by simp)
  refine FileSystem.removeSnapshot_of_ne ?_
  rw [getSnapshotPath_of_nonneg hnonneg]
  simp only [ne_eq, Dir.snapshot.injEq]
  omega

/-- The first critical section of `Raft_create_snapshot`. -/
theorem FileInv.entered (h : FileInv name left s) (hup : s.node.up = true) {n : ℤ}
    (hk : s.node.snapshotThreads[k]? = some (.enter n))
    (hclean : (createSnapshotEnter s.node.raft n).isSome →
      Overwritten name s.node.raft s.node.files n) :
    FileInv name left (s.runThread k (.enter n)) := by
  rcases enter_cases (n := n) (h.building hup) with hstep | ⟨ht, hsome, hnone, hstep⟩
  · exact h.passes hup hk hstep rfl rfl fun p hp => absurd hp (by simp)
  · have hidle : ∀ p ∈ s.node.snapshotThreads, p.building = none := fun p hp => by
      simpa using List.countP_eq_zero.mp hnone p hp
    simp only [Store.runThread, hstep, settle_ret]
    refine ⟨h.past, ⟨h.shape.start, h.shape.count, h.shape.room⟩, h.saved, h.snapshot,
      fun id hid hleft _ => ?_, fun _ => ?_, fun p hp => ?_, ?_⟩
    · exact h.free id hid hleft fun p hp => by simp [hidle p hp]
    · exact countP_enter hk hnone
    · have hmem : p ∈ List.replaceAt s.node.snapshotThreads k (some (.opened n)) := hp
      rcases mem_replaced hk hmem with hp | hp
      · refine (h.progress p (mem_of_rest hp)).idle (hidle p (mem_of_rest hp)) ?_
        exact le_rfl
      · simp only [Option.some.injEq] at hp
        subst hp
        exact ⟨⟨ht.start, ht.commit⟩, hclean hsome⟩
    · exact fun hdown => absurd (hup.symm.trans hdown) (by simp)

/-- The second critical section: the window moves and the state is saved. -/
theorem FileInv.shifted (h : FileInv name left s) (hup : s.node.up = true) {n prev : ℤ}
    (hk : s.node.snapshotThreads[k]? = some (.shift n prev)) :
    FileInv name left (s.runThread k (.shift n prev)) := by
  obtain ⟨ht, hprev, hdir⟩ := h.progress _ (List.mem_of_getElem? hk)
  have hnonneg := h.start_nonneg
  have hlt := ht.start
  have hpast := h.past
  have hothers := others_idle (h.building hup) hk rfl
  obtain ⟨hshape, hshift⟩ := h.shape.compacted ht
  simp only [Store.runThread, snapshotStep, hshift, saveState, settle_emit]
  refine ⟨?_, hshape, fun st hst => ?_, fun _ => hdir, fun id hid hleft _ => ?_,
    fun _ => ?_, fun p hp => ?_, fun hdown => absurd (hup.symm.trans hdown) (by simp)⟩
  · exact past_compacted hpast hlt.le
  · simp only [Node.perform, Option.some.injEq] at hst
    subst hst
    exact ⟨hshape, rfl⟩
  · have hid' : n < id := hid
    exact h.free id (by omega) hleft (unbuilt_of_other hk rfl hid'.ne' hothers)
  · exact shifted_idle hk hothers
  · rcases mem_shifted hk hp with hp | ⟨hsome, rfl⟩
    · exact (h.progress p (mem_of_rest hp)).idle (hothers p hp) hlt.le
    · exact ⟨by omega, hprev ▸ hlt⟩

theorem FileInv.thread (h : FileInv name left s) (hname : name ∈ fileNames)
    (hup : s.node.up = true) (hk : s.node.snapshotThreads[k]? = some pc)
    (hclean : ∀ n, pc = .enter n → (createSnapshotEnter s.node.raft n).isSome →
      Overwritten name s.node.raft s.node.files n) : FileInv name left (s.runThread k pc) := by
  cases pc with
  | check =>
      by_cases hfull : s.node.raft.commitIndex - s.node.raft.startLogIndex + 1 ≥ commitsToSnapshot
      · exact h.passes hup hk (by rw [snapshotStep, if_pos hfull]) rfl rfl fun p hp => by
          simp only [Option.some.injEq] at hp
          subst hp
          trivial
      · exact h.passes hup hk (by rw [snapshotStep, if_neg hfull]) rfl rfl fun p hp =>
          absurd hp (by simp)
  | argument =>
      exact h.passes hup hk rfl rfl rfl fun p hp => by
        simp only [Option.some.injEq] at hp
        subst hp
        trivial
  | enter n => exact h.entered hup hk (hclean n rfl)
  | opened n => exact h.opened hup hk
  | copy n prev src j => exact h.copied hname hup hk
  | entries n prev => exact h.entries hup hk
  | add n prev i j => exact h.added hup hk
  | shift n prev => exact h.shifted hup hk
  | remove prev => exact h.removed hup hk

end Threads

/-! ### Restarts -/

/-- What each effect of a restart does to the snapshots: the server's own one
stays, and no file comes to another one. -/
theorem restore_perform {st : RaftState} (h : Shape st) :
    ∀ x ∈ (serverRestore st).effects, (∀ r, x ≠ .save r) ∧ ∀ n : Node,
      (n.perform x).files (.snapshot st.startLogIndex) = n.files (.snapshot st.startLogIndex) ∧
      ∀ id, content n.files (.snapshot id) name = [] →
        content (n.perform x).files (.snapshot id) name = [] := by
  obtain ⟨rest, hrest, heq⟩ := serverRestore_eq h
  have hsame : ∀ x : Effect, (∀ n : Node, ∀ id, (n.perform x).files (.snapshot id) =
      n.files (.snapshot id)) → ∀ n : Node,
      (n.perform x).files (.snapshot st.startLogIndex) = n.files (.snapshot st.startLogIndex) ∧
      ∀ id, content n.files (.snapshot id) name = [] →
        content (n.perform x).files (.snapshot id) name = [] := by
    intro x hx n
    refine ⟨hx n _, fun id hid => ?_⟩
    exact (content_congr (congrFun (hx n id) name)).trans hid
  intro x hx
  rw [heq] at hx
  simp only [emit, List.cons_append, List.mem_cons, List.mem_append, List.mem_map] at hx
  rcases hx with rfl | hx | ⟨⟨i, e⟩, -, rfl⟩ | hx
  · refine ⟨by simp, hsame _ fun n id => ?_⟩
    simp only [Node.perform]
    exact FileSystem.cleanMainFiles_of_ne (by simp)
  · split_ifs at hx
    · rw [List.mem_singleton.mp hx]
      refine ⟨by simp, hsame _ fun n id => ?_⟩
      simp only [Node.perform]
      exact FileSystem.copySnapshot_of_ne (by simp [getSnapshotPath])
    · exact absurd hx (by simp)
  · exact ⟨by simp [Effect.ofTurn], hsame _ fun n id => perform_commit_of_ne n i e (by simp)⟩
  · obtain ⟨i, rfl, hi, hne⟩ := hrest x hx
    have hpath := getSnapshotPath_of_nonneg hi
    have hother : ∀ (n : Node) (id : ℤ), id ≠ i →
        (n.perform (.removeSnapshot i)).files (.snapshot id) = n.files (.snapshot id) := by
      intro n id hid
      simp only [Node.perform]
      refine FileSystem.removeSnapshot_of_ne ?_
      rw [hpath]
      simpa using hid
    refine ⟨by simp, fun n => ⟨hother n _ hne.symm, fun id hid => ?_⟩⟩
    rcases eq_or_ne id i with rfl | hid'
    · have hself := FileSystem.removeSnapshot_self n.files id name
      rw [hpath] at hself
      simp only [Node.perform, content, hself]
      split_ifs
      · rfl
      · exact hid
    · exact (content_congr (congrFun (hother n id hid') name)).trans hid

theorem restore_foldl {start : ℤ} {es : List Effect}
    (hes : ∀ x ∈ es, ∀ n : Node,
      (n.perform x).files (.snapshot start) = n.files (.snapshot start) ∧
      ∀ id, content n.files (.snapshot id) name = [] →
        content (n.perform x).files (.snapshot id) name = []) :
    (es.foldl Node.perform n).files (.snapshot start) = n.files (.snapshot start) ∧
    ∀ id, content n.files (.snapshot id) name = [] →
      content (es.foldl Node.perform n).files (.snapshot id) name = [] := by
  induction es generalizing n with
  | nil => exact ⟨rfl, fun _ h => h⟩
  | cons x es ih =>
      have hfirst := hes x List.mem_cons_self n
      have hrest := ih (n := n.perform x) fun y hy => hes y (List.mem_cons_of_mem x hy)
      exact ⟨hrest.1.trans hfirst.1, fun id hid => hrest.2 id (hfirst.2 id hid)⟩

theorem FileInv.restore (h : FileInv name left s) (hdown : s.node.up = false) {st : RaftState}
    (hst : s.node.saved = some st) (crashAt : Option ℕ) :
    FileInv name left
      { s with node := (s.node.reloaded st).settle (serverRestore st) crashAt } := by
  obtain ⟨hshape, hstart⟩ := h.saved st hst
  have hnone := h.down hdown
  have hes := @restore_perform name st hshape
  obtain ⟨hown, hfree⟩ := restore_foldl (n := s.node.reloaded st)
    fun x (hx : x ∈ Node.performed (serverRestore st) crashAt) =>
      (hes x (Node.mem_of_performed hx)).2
  obtain ⟨hraft, hup, hthreads, -, hsaved⟩ :=
    Node.foldl_perform (Node.performed (serverRestore st) crashAt) (s.node.reloaded st)
  have hquiet : savedAfter (Node.performed (serverRestore st) crashAt) (s.node.reloaded st).saved =
      s.node.saved :=
    savedAfter_of_forall (fun x hx => (hes x (Node.mem_of_performed hx)).1) s.node.saved
  unfold Node.settle
  simp only
  generalize (Node.performed (serverRestore st) crashAt).foldl Node.perform (s.node.reloaded st) = n
    at hown hfree hraft hup hthreads hsaved
  have hinv : ∀ n' : Node, n'.raft.startLogIndex = st.startLogIndex → Shape n'.raft →
      n'.saved = s.node.saved → n'.files = n.files → n'.snapshotThreads = [] →
      (n'.up = true → n'.raft.snapshotInProgress = false) →
      FileInv name left { s with node := n' } := by
    intro n' hs hshape' hsaved' hfiles hthreads' hflag
    rw [hstart] at hs hown
    refine ⟨h.past.trans hs.symm, hshape', ?_, ?_, ?_, ?_, ?_, fun _ => hthreads'⟩
    · rw [hsaved', hs]
      exact h.saved
    · intro hne
      rw [hs] at hne ⊢
      rw [hfiles]
      exact (content_congr (congrFun hown name)).trans (h.snapshot hne)
    · intro id hid hleft _
      rw [hs] at hid
      rw [hfiles]
      exact hfree id (h.free id hid hleft (by simp [hnone]))
    · intro hup'
      simp [hthreads', hflag hup']
    · simp [hthreads']
  split_ifs with hwhole
  · have hend : (serverRestore st).raft = forget st := serverRestore_ok hwhole.2
    refine hinv _ ?_ ?_ (hsaved.trans hquiet) rfl (hthreads.trans hnone) fun _ => ?_
    · rw [hend]
      rfl
    · rw [hend]
      exact ⟨hshape.start, hshape.count, hshape.room⟩
    · rw [hend]
      rfl
  · refine hinv _ ?_ ?_ (hsaved.trans hquiet) rfl rfl fun hup' => absurd hup' (by simp [Node.crash])
    · exact congrArg RaftState.startLogIndex hraft
    · show Shape n.raft
      rw [hraft]
      exact hshape

/-- The snapshots that threads are making when the process ends. -/
def Store.Leaves (s : Store) (left : Set ℤ) : StoreAction → Prop
  | .commit _ (some _) | .crash =>
    ∀ pc ∈ s.node.snapshotThreads, ∀ id, pc.building = some id → id ∈ left
  | _ => True

/-- A thread that passes the first section finds nothing of the file that
would get into its snapshot. -/
def Store.Opens (s : Store) (name : Bytes) : SnapshotPc → Prop
  | .enter n => (createSnapshotEnter s.node.raft n).isSome →
    Overwritten name s.node.raft s.node.files n
  | _ => True

theorem FileInv.exec (h : FileInv name left s) (hname : name ∈ fileNames) {x : StoreAction}
    {s' : Store} (hleaves : s.Leaves left x)
    (hopens : ∀ k, x = .thread k → ∀ pc ∈ s.node.snapshotThreads[k]?, s.Opens name pc)
    (hx : s.execAnywhere x = some s') : FileInv name left s' := by
  cases x with
  | append e =>
      simp only [Store.execAnywhere, Store.exec] at hx
      split_ifs at hx with hup
      obtain ⟨r, hr, rfl⟩ := Option.map_eq_some_iff.mp hx
      obtain ⟨hshape, hext⟩ := h.shape.push hr
      refine h.raft hup hext hshape ?_
      rw [(pushEntry_some hr).2.2]
  | truncate m =>
      simp only [Store.execAnywhere, Store.exec] at hx
      split_ifs at hx with hok
      simp only [Option.some.injEq] at hx
      subst hx
      exact h.raft hok.1 (.of_eq rfl rfl rfl) (h.shape.truncate hok.2.1 hok.2.2) rfl
  | commit i crashAt =>
      simp only [Store.execAnywhere] at hx
      split_ifs at hx with hok
      simp only [Option.some.injEq] at hx
      subst hx
      refine h.commit hok.1 hok.2.1 hok.2.2 ?_
      cases crashAt with
      | none => exact Or.inl rfl
      | some k => exact Or.inr hleaves
  | save =>
      simp only [Store.execAnywhere, Store.exec] at hx
      split_ifs at hx with hup
      simp only [Option.some.injEq] at hx
      subst hx
      exact h.save hup
  | other r =>
      simp only [Store.execAnywhere, Store.exec] at hx
      split_ifs at hx with hup
      simp only [Option.some.injEq] at hx
      subst hx
      exact h.raft hup (.of_eq rfl rfl rfl) ⟨h.shape.start, h.shape.count, h.shape.room⟩ rfl
  | call m =>
      simp only [Store.execAnywhere, Store.exec] at hx
      split_ifs at hx with hup
      simp only [Option.some.injEq] at hx
      subst hx
      exact h.called hup m
  | thread k =>
      simp only [Store.execAnywhere, Store.exec] at hx
      split at hx
      · rename_i pc hup hk
        simp only [Option.some.injEq] at hx
        subst hx
        refine h.thread hname hup hk ?_
        rintro n rfl
        exact hopens k rfl _ hk
      · exact absurd hx (by simp)
  | crash =>
      simp only [Store.execAnywhere] at hx
      split_ifs at hx with hup
      simp only [Option.some.injEq] at hx
      subst hx
      exact h.extends (.of_eq rfl rfl rfl) h.shape h.saved (fun _ => rfl)
        (Or.inr ⟨rfl, rfl, hleaves⟩)
  | restore crashAt =>
      simp only [Store.execAnywhere, Store.exec] at hx
      split at hx
      · rename_i st hdown hst
        simp only [Option.some.injEq] at hx
        subst hx
        exact h.restore hdown hst crashAt
      · exact absurd hx (by simp)

/-- The compacted entries are the first ones of those committed. -/
theorem FileInv.committed (h : FileInv name left s) :
    s.committed.take s.node.raft.startLogIndex.toNat = s.past := by
  have := h.past
  rw [Store.committed, List.take_left' (by omega)]

end Steps

namespace Store

/-- A thread starts a snapshot only where an earlier attempt has left nothing
that gets into it. -/
def StartsClean (s : Store) : StoreAction → Prop
  | .thread k => ∀ pc ∈ s.node.snapshotThreads[k]?, ∀ name ∈ fileNames, s.Opens name pc
  | _ => True

end Store

/-- Whenever the process ends, the snapshot the log starts from holds in each
file what the committed entries before it write, in order. -/
theorem snapshot_holds_committed_writes {config : Config} {v : Server} {s : Store}
    (hrun : Machine.Steps Store.execAnywhere Store.StartsClean (.init config v) s)
    (hstart : s.node.raft.startLogIndex ≠ 0) {name : Bytes} (hname : name ∈ fileNames) :
    content s.node.files (.snapshot s.node.raft.startLogIndex) name =
      written name (s.committed.take s.node.raft.startLogIndex.toNat) := by
  have h : FileInv name Set.univ s := by
    refine hrun.invariant (fun s x s' h hok hx => ?_) (fileInv_init name _ config v)
    refine h.exec hname ?_ ?_ hx
    · cases x with
      | commit i crashAt =>
          cases crashAt with
          | none => trivial
          | some k => exact fun _ _ _ _ => trivial
      | crash => exact fun _ _ _ _ => trivial
      | _ => trivial
    · rintro k rfl pc hpc
      exact hok pc hpc name hname
  rw [h.committed]
  exact h.snapshot hstart

instance (s : Store) (name : Bytes) (pc : SnapshotPc) : Decidable (s.Opens name pc) :=
  match pc with
  | .enter _ => inferInstanceAs (Decidable (_ → _))
  | .check | .argument | .opened _ | .copy _ _ _ _ | .entries _ _ | .add _ _ _ _ | .shift _ _
  | .remove _ => inferInstanceAs (Decidable True)

instance (s : Store) (x : StoreAction) : Decidable (s.StartsClean x) :=
  match x with
  | .thread k =>
    inferInstanceAs (Decidable (∀ pc ∈ s.node.snapshotThreads[k]?, ∀ name ∈ fileNames, _))
  | .append _ | .truncate _ | .commit _ _ | .save | .other _ | .call _ | .crash | .restore _ =>
    inferInstanceAs (Decidable True)

/-- One entry is compacted, and the process ends while a thread makes the next
snapshot. -/
def endInSnapshot : List StoreAction :=
  [StoreAction.append (firstFileEntry 1 [65]), .commit 0 none, .call 1] ++
    List.replicate 7 (StoreAction.thread 0) ++
    [StoreAction.append (firstFileEntry 1 [66]), .commit 1 none, .save, .call 2, .thread 0,
      .thread 0,
      .thread 0, .crash]

set_option maxRecDepth 10000 in
theorem endInSnapshot_runs : (Machine.execWhile Store.execAnywhere
    (fun s x => decide (s.StartsClean x)) (.init plainConfig 0) endInSnapshot).any (fun s =>
      decide (s.node.raft.startLogIndex = 1 ∧ written (fileName 0) (s.committed.take 1) = [65])) =
        true := by
  decide +kernel

theorem first_snapshot_holds_write : ∃ s : Store,
    Machine.Steps Store.execAnywhere Store.StartsClean (.init plainConfig 0) s ∧
    s.node.raft.startLogIndex = 1 ∧ content s.node.files (.snapshot 1) (fileName 0) = [65] := by
  obtain ⟨s, hrun, hs⟩ := Machine.exists_of_execWhile Store.StartsClean
    (fun _ _ h => of_decide_eq_true h) endInSnapshot_runs
  obtain ⟨hstart, hwritten⟩ := of_decide_eq_true hs
  refine ⟨s, hrun, hstart, ?_⟩
  have hholds := snapshot_holds_committed_writes hrun (by rw [hstart]; decide)
    (mem_fileNames.mpr ⟨0, by decide, rfl⟩)
  rw [hstart] at hholds
  exact hholds.trans hwritten

/-- A hundred entries are committed, of which the first one writes to a file.
The process ends while a thread makes the snapshot of all of them, and is
started again. -/
def endInHundredth : List StoreAction :=
  StoreAction.append (firstFileEntry 1 [65]) :: List.replicate 99 (StoreAction.append default) ++
    [StoreAction.commit 99 none, .save, .call 100] ++ List.replicate 4 (StoreAction.thread 0) ++
    [StoreAction.crash, .restore none]

/-- The snapshot is made once more, in the directory that was left. -/
def makeHundredth : List StoreAction := .call 100 :: List.replicate 106 (.thread 0)

set_option maxRecDepth 100000 in
theorem makeHundredth_runs : (Machine.execWhile Store.execAnywhere
    (fun s x => decide (s.WritesNumbered x)) (.init plainConfig 0)
    (endInHundredth ++ makeHundredth)).any (fun s => decide (s.node.raft.startLogIndex = 100 ∧
      content s.node.files (.snapshot 100) (fileName 0) = [65, 65] ∧
      written (fileName 0) (s.committed.take 100) = [65])) = true := by
  decide +kernel

/-- A write is in the snapshot twice: `Raft_server_restore` removes the
directories `snapshot_0` to `snapshot_99` only. -/
theorem snapshot_repeats_write : ∃ s : Store,
    Machine.Steps Store.execAnywhere Store.WritesNumbered (.init plainConfig 0) s ∧
    s.node.raft.startLogIndex = 100 ∧ fileName 0 ∈ fileNames ∧
    content s.node.files (.snapshot s.node.raft.startLogIndex) (fileName 0) ≠
      written (fileName 0) (s.committed.take s.node.raft.startLogIndex.toNat) := by
  obtain ⟨s, hrun, hs⟩ := Machine.exists_of_execWhile Store.WritesNumbered
    (fun _ _ h => of_decide_eq_true h) makeHundredth_runs
  obtain ⟨hstart, hcontent, hwritten⟩ := of_decide_eq_true hs
  refine ⟨s, hrun, hstart, mem_fileNames.mpr ⟨0, by decide, rfl⟩, ?_⟩
  have htake : s.committed.take s.node.raft.startLogIndex.toNat = s.committed.take 100 := by
    rw [hstart]
    rfl
  rw [htake, hwritten, hstart, hcontent]
  decide

end RaftLock

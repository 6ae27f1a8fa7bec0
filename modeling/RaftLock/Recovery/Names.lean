import Mathlib.Data.List.TakeWhile
import RaftLock.Recovery.Contents

/-!
Which files survive a restart.

The commit handler takes any name. Cleaning, copying and removing go through
the hundred names `file_0` to `file_99`. A file with one of these names is
cleared and then written again, from the snapshot and from the log. Any other
file keeps what it held, and the entries of the log are written to it once
more.
-/

namespace RaftLock

open Outcome Appends

def nameOf (s : String) : Bytes := s.toList.map byteOfChar

/-- A name of a file in the directory of the server, other than those of the
server's own state. -/
structure PlainName (name : Bytes) : Prop where
  nonempty : name ≠ []
  noNul : (0 : UInt8) ∉ name
  noSlash : byteOfChar '/' ∉ name
  notState : name ≠ nameOf "raft_state"
  notTmpState : name ≠ nameOf "tmp_raft_state"

theorem PlainName.cstr {name : Bytes} (h : PlainName name) : cstr name = name := by
  refine List.takeWhile_eq_self_iff.mpr fun b hb => ?_
  simp only [ne_eq, decide_eq_true_eq]
  rintro rfl
  exact h.noNul hb

namespace Store

/-- The file `raft_state` has the log as it is. -/
def Flushed (s : Store) : Prop :=
  ∃ st, s.node.saved = some st ∧ st.log = s.node.raft.log ∧
    st.startLogIndex = s.node.raft.startLogIndex ∧ st.commitIndex = s.node.raft.commitIndex

/-- The process ends between two sections, with its log saved. -/
def CrashFree (s : Store) : StoreAction → Prop
  | .commit _ crashAt | .restore crashAt => crashAt = none
  | .crash => s.Flushed
  | _ => True

theorem exec_anywhere {s s' : Store} {x : StoreAction} (h : s.exec x = some s') :
    s.execAnywhere x = some s' := by
  cases x with
  | commit i crashAt =>
      simp only [exec] at h
      split_ifs at h with hok
      rw [execAnywhere, if_pos ⟨hok.1, hok.2.1, hok.2.2.1⟩]
      exact h
  | crash =>
      simp only [exec] at h
      split_ifs at h with hok
      rw [execAnywhere, if_pos hok.1]
      exact h
  | _ => exact h

theorem exec_restore {s : Store} {st : RaftState} (hdown : s.node.up = false)
    (hst : s.node.saved = some st) (crashAt : Option ℕ) : s.exec (.restore crashAt) =
      some { s with node := (s.node.reloaded st).settle (serverRestore st) crashAt } := by
  simp only [exec, hdown, hst]

end Store

/-- After any history and a shutdown, the file holds what the committed
entries write to it, each of them once and in order. -/
def Survives (name : Bytes) : Prop :=
  ∀ (config : Config) (v : Server) (s s₁ s₂ : Store),
    Machine.Steps Store.exec Store.CrashFree (.init config v) s → s.Flushed →
    s.exec .crash = some s₁ → s₁.exec (.restore none) = some s₂ →
    content s₂.node.files .main name = written name s.committed

/-! ### The hundred files -/

section Numbered

variable {name : Bytes} {left : Set ℤ} {s s' : Store}

/-- Without interruptions a thread finds an empty directory. -/
theorem FileInv.tidy (h : FileInv name ∅ s) (hname : name ∈ fileNames) {x : StoreAction}
    (hx : s.exec x = some s') : FileInv name ∅ s' := by
  refine h.exec hname ?_ ?_ (Store.exec_anywhere hx)
  · cases x with
    | commit i crashAt =>
        cases crashAt with
        | none => trivial
        | some k =>
            have hnone : s.node.snapshotThreads = [] := by
              by_contra hne
              simp [Store.exec, hne] at hx
            exact fun pc hpc => absurd hpc (by simp [hnone])
    | crash =>
        simp only [Store.exec] at hx
        split_ifs at hx with hok
        exact fun pc hpc => absurd hpc (by simp [hok.2])
    | _ => trivial
  · rintro k rfl pc hpc
    simp only [Store.exec] at hx
    split at hx
    · rename_i hup _
      cases pc with
      | enter n =>
          intro hsome
          obtain ⟨r', he⟩ := Option.isSome_iff_exists.mp hsome
          obtain ⟨⟨hflag, -, hlo, -⟩, -⟩ := createSnapshotEnter_some he
          have hcount := h.building hup
          rw [if_neg hflag] at hcount
          refine Or.inl (h.free n hlo (by simp) fun p hp => ?_)
          have hidle := List.countP_eq_zero.mp hcount p hp
          simp [Option.not_isSome_iff_eq_none.mp hidle]
      | _ => trivial
    · exact absurd hx (by simp)

/-- A file of the snapshot is copied over the empty one. -/
theorem content_copySnapshot {fs : FileSystem} {id : ℤ} (hid : getSnapshotPath id = .snapshot id)
    (hname : name ∈ fileNames) (hempty : content fs .main name = []) :
    content (fs.copySnapshot id (-1)) .main name = content fs (.snapshot id) name := by
  have hmain : getSnapshotPath (-1) = .main := rfl
  have hne : getSnapshotPath id ≠ getSnapshotPath (-1) := by simp [hid, hmain]
  have hmem : name ∈ (List.range 100).map fileName := hname
  unfold content at hempty ⊢
  rw [FileSystem.copySnapshot, ← hmain, FileSystem.foldl_copyFile hne, if_pos hmem, hid, hmain]
  cases hfile : fs (.snapshot id) name with
  | none => simpa [overlay, hfile] using hempty
  | some c => simp [overlay, hfile]

/-- What a file holds after a restart that runs to its end. -/
theorem FileInv.rebuilt (h : FileInv name left s) (hname : name ∈ fileNames) {st : RaftState}
    (hst : s.node.saved = some st) :
    content ((s.node.reloaded st).settle (serverRestore st) none).files .main name =
      written name (s.past ++ entriesTo st (st.commitIndex + 1)) := by
  obtain ⟨hshape, hstart⟩ := h.saved st hst
  obtain ⟨rest, hrest, heq⟩ := serverRestore_eq hshape
  have hclean : content (s.node.files.cleanMainFiles) .main name = [] := by
    rw [content, FileSystem.cleanMainFiles_main, if_pos hname]
    rfl
  have hcopied : content ((.cleanMainFiles :: (if st.startLogIndex ≠ 0 then
      [.copySnapshot st.startLogIndex (-1)] else [])).foldl Node.perform (s.node.reloaded st)).files
      .main name = written name s.past := by
    by_cases hzero : st.startLogIndex = 0
    · have hpast : s.past = [] := by
        have := h.past
        exact List.length_eq_zero_iff.mp (by omega)
      rw [if_neg (not_not.mpr hzero), hpast]
      exact hclean
    · have hpath := getSnapshotPath_of_nonneg (hstart ▸ h.start_nonneg)
      rw [if_pos hzero]
      simp only [List.foldl_cons, List.foldl_nil, Node.perform, Node.reloaded]
      rw [content_copySnapshot hpath hname hclean, hstart, ← h.snapshot (hstart ▸ hzero)]
      refine content_congr ?_
      rw [FileSystem.cleanMainFiles_of_ne (by simp)]
  rw [files_restored hshape, heq]
  show content (List.foldl Node.perform _ (_ ++ (_ ++ _))).files .main name = _
  rw [List.foldl_append, List.foldl_append, content, foldl_remove_main fun x hx => by
      obtain ⟨i, hi, hnonneg, -⟩ := hrest x hx
      exact ⟨i, hi, hnonneg⟩,
    foldl_commit_main, replay_getD, written_append, entriesTo_reset hshape]
  exact congrArg (· ++ _) hcopied

/-- The process ends, is started again, and each of the hundred files holds
the committed writes. -/
theorem survives_of_numbered (hname : name ∈ fileNames) : Survives name := by
  intro config v s s₁ s₂ hrun hflushed hcrash hrestore
  have h : FileInv name ∅ s :=
    hrun.invariant (fun _ _ _ h _ hx => h.tidy hname hx) (fileInv_init name _ config v)
  have h₁ := h.tidy hname hcrash
  obtain ⟨st, hst, hlog, hstart, hcommit⟩ := hflushed
  simp only [Store.exec] at hcrash
  split_ifs at hcrash
  simp only [Option.some.injEq] at hcrash
  subst hcrash
  rw [Store.exec_restore (s := ⟨s.node.crash, s.past⟩) rfl hst, Option.some.injEq] at hrestore
  subst hrestore
  have hentries : entriesTo st (st.commitIndex + 1) =
      entriesTo s.node.raft (s.node.raft.commitIndex + 1) := by
    rw [hcommit]
    exact entriesTo_congr hstart fun k _ => by rw [hlog]
  rw [Store.committed, ← hentries]
  exact h₁.rebuilt hname hst

end Numbered

/-! ### Other names -/

section Others

variable {name : Bytes}

/-- A transaction of one write to the file. -/
def nameEntry (name : Bytes) : LogEntry := ⟨1, 1, .clientLog, 1, 1, [⟨name, [65]⟩]⟩

theorem written_nameEntry (h : PlainName name) : written name [nameEntry name] = [65] := by
  have hwrites : (nameEntry name).writes = [⟨name, [65]⟩] := by
    simp [LogEntry.writes, nameEntry, h.cstr, h.nonempty]
  rw [written_singleton, LogEntry.fileWrites]
  simp only [nameEntry] at hwrites ⊢
  rw [hwrites]
  simp [bytesTo, h.cstr]
  decide

/-- The server after one committed transaction, its state saved. -/
def writtenOnce (name : Bytes) : Store :=
  let raft : RaftState :=
    { serverInit plainConfig 0 with
      log := Function.update (fun _ => default) 0 (nameEntry name)
      logCount := 1
      commitIndex := 0 }
  { node :=
      { Node.init plainConfig 0 with
        raft
        saved := some raft
        files := (Node.init plainConfig 0).files.handleRaftCommit (nameEntry name)
        applied := [(0, nameEntry name)] }
    past := [] }

theorem writtenOnce_reached (name : Bytes) :
    Machine.Steps Store.exec Store.CrashFree (.init plainConfig 0) (writtenOnce name) :=
  .tail (.tail (.single ⟨.append (nameEntry name), trivial, rfl⟩) ⟨.commit 0 none, rfl, rfl⟩)
    ⟨.save, trivial, rfl⟩

/-- No step of a restart but the commits touches a file outside the hundred. -/
theorem restored_other {n : Node} {st : RaftState} (h : Shape st) (hstart : 0 ≤ st.startLogIndex)
    (hname : name ∉ fileNames) :
    content (n.settle (serverRestore st) none).files .main name =
      content n.files .main name ++ written name (entriesTo st (st.commitIndex + 1)) := by
  obtain ⟨rest, hrest, heq⟩ := serverRestore_eq h
  have hmain : getSnapshotPath (-1) = .main := rfl
  have hkept : ((.cleanMainFiles :: (if st.startLogIndex ≠ 0 then
      [.copySnapshot st.startLogIndex (-1)] else [])).foldl Node.perform n).files .main name =
      n.files .main name := by
    have hclean : n.files.cleanMainFiles .main name = n.files .main name := by
      rw [FileSystem.cleanMainFiles_main, if_neg hname]
    split_ifs with hzero
    · simp only [List.foldl_cons, List.foldl_nil, Node.perform]
      have hne : getSnapshotPath st.startLogIndex ≠ getSnapshotPath (-1) := by
        simp [getSnapshotPath_of_nonneg hstart, hmain]
      have hmem : name ∉ (List.range 100).map fileName := hname
      rw [FileSystem.copySnapshot, ← hmain, FileSystem.foldl_copyFile hne, if_neg hmem, hmain,
        hclean]
    · exact hclean
  rw [files_restored h, heq]
  show content (List.foldl Node.perform _ (_ ++ (_ ++ _))).files .main name = _
  rw [List.foldl_append, List.foldl_append, content, foldl_remove_main fun x hx => by
      obtain ⟨i, hi, hnonneg, -⟩ := hrest x hx
      exact ⟨i, hi, hnonneg⟩,
    foldl_commit_main, replay_getD, entriesTo_reset h, hkept]
  rfl

/-- The server after the shutdown, and after the restart. -/
def shutDown (name : Bytes) : Store :=
  { writtenOnce name with node := (writtenOnce name).node.crash }

def startedAgain (name : Bytes) : Store :=
  let raft := (writtenOnce name).node.raft
  { shutDown name with
    node := ((shutDown name).node.reloaded raft).settle (serverRestore raft) none }

/-- One write and one restart, and the write is there twice. -/
theorem content_startedAgain (h : PlainName name) (hname : name ∉ fileNames) :
    content (startedAgain name).node.files .main name = [65, 65] := by
  have hwritten := written_nameEntry h
  have hshape : Shape (writtenOnce name).node.raft := by
    constructor <;> simp [writtenOnce, serverInit]
  have hbefore : content (writtenOnce name).node.files .main name = [65] := by
    show content ((Node.init plainConfig 0).files.handleRaftCommit (nameEntry name)) .main name = _
    have hnone : (Node.init plainConfig 0).files .main name = none := by
      show FileSystem.cleanMainFiles (fun _ _ => none) .main name = none
      rw [FileSystem.cleanMainFiles_main, if_neg hname]
    rw [content, FileSystem.handleRaftCommit_main, appendAll_getD, hnone]
    rw [written_singleton] at hwritten
    exact hwritten
  have hagain := restored_other (n := (shutDown name).node.reloaded (writtenOnce name).node.raft)
    hshape le_rfl hname
  have hentries : entriesTo (writtenOnce name).node.raft
      ((writtenOnce name).node.raft.commitIndex + 1) = [nameEntry name] := rfl
  rw [hentries, hwritten] at hagain
  exact hagain.trans (congrArg (· ++ [65]) hbefore)

theorem not_survives (h : PlainName name) (hname : name ∉ fileNames) : ¬ Survives name := by
  intro hall
  have hafter := hall plainConfig 0 (writtenOnce name) (shutDown name) (startedAgain name)
    (writtenOnce_reached name) ⟨_, rfl, rfl, rfl, rfl⟩ rfl (Store.exec_restore rfl rfl none)
  have hcommitted : (writtenOnce name).committed = [nameEntry name] := rfl
  rw [hcommitted, written_nameEntry h, content_startedAgain h hname] at hafter
  exact absurd hafter (by decide)

end Others

/-- The files that survive are the hundred ones. -/
theorem survives_iff_numbered {name : Bytes} (h : PlainName name) :
    Survives name ↔ name ∈ fileNames := by
  constructor
  · intro hall
    by_contra hname
    exact not_survives h hname hall
  · exact survives_of_numbered

theorem file_zero_plain : PlainName (fileName 0) := by
  constructor <;> decide

theorem file_zero_survives : Survives (fileName 0) :=
  (survives_iff_numbered file_zero_plain).mpr (by decide)

theorem notes_plain : PlainName (nameOf "notes") := by
  constructor <;> decide

/-- The one write to the file `notes` is in it twice after a restart. -/
theorem notes_written_twice : ∃ s s₁ s₂ : Store,
    Machine.Steps Store.exec Store.CrashFree (.init plainConfig 0) s ∧ s.Flushed ∧
    s.exec .crash = some s₁ ∧ s₁.exec (.restore none) = some s₂ ∧
    PlainName (nameOf "notes") ∧ written (nameOf "notes") s.committed = [65] ∧
    content s₂.node.files .main (nameOf "notes") = [65, 65] := by
  refine ⟨writtenOnce _, shutDown _, startedAgain (nameOf "notes"), writtenOnce_reached _,
    ⟨_, rfl, rfl, rfl, rfl⟩, rfl, Store.exec_restore rfl rfl none, notes_plain, ?_, ?_⟩
  · exact written_nameEntry notes_plain
  · exact content_startedAgain notes_plain (by decide)

end RaftLock

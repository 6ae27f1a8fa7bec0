import RaftLock.Recovery.Snapshots

/-!
A restart rebuilds the files.

The saved state starts its log where the running one does, so its snapshot is
there. A restart clears the files, copies the snapshot and commits the rest of
the log again; it may itself be cut off anywhere and be made once more.
-/

namespace RaftLock

open Outcome Appends

section Restart

variable {s : Store} {n : Node}

/-- The state from which `Raft_server_restore` commits. -/
def reset (st : RaftState) : RaftState := { forget st with commitIndex := st.startLogIndex - 1 }

/-- What a restart does, in order: it clears the files, copies the snapshot,
commits the entries of the log and removes other snapshots. -/
theorem serverRestore_eq {st : RaftState} (h : Shape st) :
    ∃ rest, (∀ x ∈ rest, ∃ i : ℤ, x = .removeSnapshot i ∧ 0 ≤ i ∧ i ≠ st.startLogIndex) ∧
    serverRestore st = emit (forget st) (.cleanMainFiles ::
      (if st.startLogIndex ≠ 0 then [.copySnapshot st.startLogIndex (-1)] else []) ++
      ((commitTurns (reset st) st.commitIndex).map Effect.ofTurn ++ rest)) := by
  have hcount := h.count
  have hcommittable : Committable (reset st) st.commitIndex := fun i hlo hhi => by
    refine ⟨_, getLog_of_mem (r := reset st) ?_ ?_⟩
    · simp only [reset, forget] at hlo ⊢
      omega
    · simp only [reset, forget]
      omega
  obtain ⟨heq, -⟩ := commitUpdate_ok (commitUpdate_fault hcommittable)
  refine ⟨((List.range 100).filter fun i => (i : ℤ) ≠ st.startLogIndex).map
    fun i => .removeSnapshot i, fun x hx => ?_, ?_⟩
  · obtain ⟨i, hi, rfl⟩ := List.mem_map.mp hx
    obtain ⟨hmem, hne⟩ := List.mem_filter.mp hi
    simp only [List.pure_def, List.bind_eq_flatMap, List.mem_flatMap, List.mem_range,
      List.mem_singleton] at hmem
    obtain ⟨k, -, rfl⟩ := hmem
    exact ⟨k, rfl, by omega, of_decide_eq_true hne⟩
  · unfold serverRestore
    change (emit (reset st) _).andThen (fun raft =>
      (commitUpdate raft st.commitIndex).andThen fun raft => emit raft _) = _
    simp only [andThen_emit, heq]
    rfl

/-- The effects of a restart of a log that starts at `start`. -/
inductive Restoring (start : ℤ) : Effect → Prop
  | clean : Restoring start .cleanMainFiles
  | copy (src : ℤ) : Restoring start (.copySnapshot src (-1))
  | commit (i : ℤ) (e : LogEntry) (he : e.Numbered) : Restoring start (.commit i e)
  | remove (i : ℤ) (hi : 0 ≤ i) (hne : i ≠ start) : Restoring start (.removeSnapshot i)

theorem restoring_serverRestore {st : RaftState} (h : Sound st) :
    ∀ x ∈ (serverRestore st).effects, Restoring st.startLogIndex x := by
  obtain ⟨rest, hrest, heq⟩ := serverRestore_eq h.toShape
  intro x hx
  rw [heq] at hx
  simp only [emit, List.cons_append, List.mem_cons, List.mem_append, List.mem_map] at hx
  rcases hx with rfl | hx | ⟨⟨i, e⟩, ht, rfl⟩ | hx
  · exact .clean
  · split_ifs at hx
    · rw [List.mem_singleton.mp hx]
      exact .copy _
    · exact absurd hx (by simp)
  · have hmem : .commit i e ∈ (serverRestore st).effects := by
      rw [heq]
      simp only [emit, List.cons_append, List.mem_cons, List.mem_append, List.mem_map]
      exact Or.inr (Or.inr (Or.inl ⟨(i, e), ht, rfl⟩))
    exact .commit i e (h.numbered i e (mem_serverRestore hmem).2)
  · obtain ⟨i, rfl, hi, hne⟩ := hrest x hx
    exact .remove i hi hne

/-- The snapshots a restart does not touch: its own, and those there are none of. -/
structure Restored (start : ℤ) (files files' : FileSystem) : Prop where
  numbered : files'.Numbered
  own : files' (.snapshot start) = files (.snapshot start)
  free : ∀ id, start < id → files (.snapshot id) = noFiles → files' (.snapshot id) = noFiles

theorem Restoring.restored {start : ℤ} {x : Effect} (hx : Restoring start x)
    (hn : n.files.Numbered) :
    Restored start n.files (n.perform x).files := by
  cases hx with
  | clean =>
      simp only [Node.perform]
      have hdirs : ∀ id, n.files.cleanMainFiles (.snapshot id) = n.files (.snapshot id) := by
        intro id
        rw [FileSystem.cleanMainFiles_of_ne (by simp)]
      exact ⟨hn.cleanMainFiles, hdirs start, fun id _ hid => (hdirs id).trans hid⟩
  | copy src =>
      simp only [Node.perform]
      have hdirs : ∀ id, n.files.copySnapshot src (-1) (.snapshot id) = n.files (.snapshot id) := by
        intro id
        rw [FileSystem.copySnapshot_of_ne (by simp [getSnapshotPath])]
      exact ⟨hn.copySnapshot src (-1), hdirs start, fun id _ hid => (hdirs id).trans hid⟩
  | commit i e he =>
      have hone : CommitsNumbered [.commit i e] := fun x hx => ⟨i, e, List.mem_singleton.mp hx, he⟩
      obtain ⟨hnum, hdirs⟩ := foldl_commit_files hone hn
      exact ⟨hnum, hdirs _ (by simp), fun id _ hid => (hdirs _ (by simp)).trans hid⟩
  | remove i hi hne =>
      have hpath := getSnapshotPath_of_nonneg hi
      have hdirs : ∀ id, id ≠ i →
          (n.perform (.removeSnapshot i)).files (.snapshot id) = n.files (.snapshot id) := by
        intro id hid
        have hd : Dir.snapshot id ≠ getSnapshotPath i := by
          rw [hpath]
          simpa using hid
        exact FileSystem.removeSnapshot_of_ne hd
      refine ⟨hn.removeSnapshot i, hdirs start hne.symm, fun id _ hid => ?_⟩
      by_cases heq : id = i
      · subst heq
        funext name
        have hself := FileSystem.removeSnapshot_self n.files id name
        rw [hpath, hid] at hself
        exact hself.trans (ite_self none)
      · exact (hdirs id heq).trans hid

theorem restored_foldl {start : ℤ} {es : List Effect} (hes : ∀ x ∈ es, Restoring start x)
    (hn : n.files.Numbered) : Restored start n.files (es.foldl Node.perform n).files := by
  induction es generalizing n with
  | nil => exact ⟨hn, rfl, fun _ _ h => h⟩
  | cons x es ih =>
      have hfirst := (hes x List.mem_cons_self).restored hn
      have hrest := ih (fun y hy => hes y (List.mem_cons_of_mem x hy)) hfirst.numbered
      exact ⟨hrest.numbered, hrest.own.trans hfirst.own,
        fun id hid h => hrest.free id hid (hfirst.free id hid h)⟩

theorem Sound.forget {st : RaftState} (h : Sound st) : Sound (forget st) :=
  ⟨⟨h.start, h.count, h.room⟩, h.numbered⟩

theorem StoreInv.restore (h : StoreInv s) (hdown : s.node.up = false) {st : RaftState}
    (hst : s.node.saved = some st) (crashAt : Option ℕ) :
    StoreInv { s with node := (s.node.reloaded st).settle (serverRestore st) crashAt } := by
  obtain ⟨hsound, hstart⟩ := h.saved st hst
  have hnone := h.down hdown
  have hes : ∀ x ∈ Node.performed (serverRestore st) crashAt, Restoring st.startLogIndex x := by
    intro x hx
    refine restoring_serverRestore hsound x ?_
    cases crashAt with
    | none => exact hx
    | some k => exact List.mem_of_mem_take hx
  have hkept := restored_foldl (n := s.node.reloaded st) hes h.files
  obtain ⟨hraft, hup, hthreads, -, hsaved⟩ :=
    Node.foldl_perform (Node.performed (serverRestore st) crashAt) (s.node.reloaded st)
  have hquiet : savedAfter (Node.performed (serverRestore st) crashAt) (s.node.reloaded st).saved =
      s.node.saved :=
    savedAfter_of_forall (fun x hx st' heq => by cases heq ▸ hes x hx) s.node.saved
  unfold Node.settle
  simp only
  generalize (Node.performed (serverRestore st) crashAt).foldl Node.perform (s.node.reloaded st) = n
    at hkept hraft hup hthreads hsaved
  have hinv : ∀ n' : Node, n'.raft.startLogIndex = st.startLogIndex → Sound n'.raft →
      n'.saved = s.node.saved → n'.files = n.files → n'.snapshotThreads = [] →
      (n'.up = true → n'.raft.snapshotInProgress = false) → StoreInv { s with node := n' } := by
    intro n' hs hsound' hsaved' hfiles hthreads' hflag
    rw [hstart] at hs hkept
    refine ⟨h.past.trans hs.symm, hsound', ?_, h.numbered, ?_, ?_, ?_, ?_, ?_, fun _ => hthreads'⟩
    · rw [hsaved', hs]
      exact h.saved
    · rw [hfiles]
      exact hkept.numbered
    · intro hne
      rw [hs] at hne ⊢
      rw [hfiles, hkept.own]
      exact h.snapshot hne
    · intro id hid _
      rw [hs] at hid
      rw [hfiles]
      exact hkept.free id hid (h.free id hid (by simp [hnone]))
    · intro hup'
      simp [hthreads', hflag hup']
    · simp [hthreads']
  split_ifs with hwhole
  · have hend : (serverRestore st).raft = forget st := serverRestore_ok hwhole.2
    refine hinv _ ?_ ?_ (hsaved.trans hquiet) rfl (hthreads.trans hnone) fun _ => ?_
    · rw [hend]
      rfl
    · rw [hend]
      exact hsound.forget
    · rw [hend]
      rfl
  · refine hinv _ ?_ ?_ (hsaved.trans hquiet) rfl rfl fun hup' => absurd hup' (by simp [Node.crash])
    · exact congrArg RaftState.startLogIndex hraft
    · show Sound n.raft
      rw [hraft]
      exact hsound

/-- The entries that are appended write to the hundred files only. -/
def Store.WritesNumbered (_ : Store) : StoreAction → Prop
  | .append e => e.Numbered
  | _ => True

theorem StoreInv.exec (h : StoreInv s) {x : StoreAction} {s' : Store} (hok : s.WritesNumbered x)
    (hx : s.exec x = some s') : StoreInv s' := by
  cases x with
  | append e =>
      simp only [Store.exec] at hx
      split_ifs at hx with hup
      obtain ⟨r, hr, rfl⟩ := Option.map_eq_some_iff.mp hx
      exact h.append hup hok hr
  | truncate m =>
      simp only [Store.exec] at hx
      split_ifs at hx with hok
      simp only [Option.some.injEq] at hx
      subst hx
      exact h.truncate hok.1 hok.2.1 hok.2.2
  | commit i crashAt =>
      simp only [Store.exec] at hx
      split_ifs at hx with hok
      simp only [Option.some.injEq] at hx
      subst hx
      exact h.commit hok.1 hok.2.1 hok.2.2.1 hok.2.2.2
  | save =>
      simp only [Store.exec] at hx
      split_ifs at hx with hup
      simp only [Option.some.injEq] at hx
      subst hx
      exact h.save hup
  | other r =>
      simp only [Store.exec] at hx
      split_ifs at hx with hup
      simp only [Option.some.injEq] at hx
      subst hx
      exact h.raft hup (.of_eq rfl rfl rfl)
        ⟨⟨h.sound.start, h.sound.count, h.sound.room⟩, h.sound.numbered⟩ rfl
  | call m =>
      simp only [Store.exec] at hx
      split_ifs at hx with hup
      simp only [Option.some.injEq] at hx
      subst hx
      exact h.called hup m
  | thread k =>
      simp only [Store.exec] at hx
      split at hx
      · rename_i pc hup hk
        simp only [Option.some.injEq] at hx
        subst hx
        exact h.thread hup hk
      · exact absurd hx (by simp)
  | crash =>
      simp only [Store.exec] at hx
      split_ifs at hx with hok
      simp only [Option.some.injEq] at hx
      subst hx
      exact h.crash hok.2
  | restore crashAt =>
      simp only [Store.exec] at hx
      split at hx
      · rename_i st hdown hst
        simp only [Option.some.injEq] at hx
        subst hx
        exact h.restore hdown hst crashAt
      · exact absurd hx (by simp)

theorem StoreInv.reachable {config : Config} {v : Server}
    (h : Machine.Steps Store.exec Store.WritesNumbered (.init config v) s) : StoreInv s :=
  h.invariant (fun _ _ _ h hok hx => h.exec hok hx) (storeInv_init config v)

theorem emptyFiles_getD (name : Bytes) : (emptyFiles name).getD [] = [] := by
  unfold emptyFiles
  split <;> rfl

theorem cleanMainFiles_eq {fs : FileSystem} (h : fs.Numbered) :
    fs.cleanMainFiles .main = emptyFiles := by
  funext name
  rw [FileSystem.cleanMainFiles_main, emptyFiles]
  split
  · rfl
  · rename_i hname
    exact h .main name hname

/-- The files once the snapshot has been copied: what the compacted entries
write to empty files. -/
theorem StoreInv.copiedBack (h : StoreInv s) {st : RaftState}
    (hstart : st.startLogIndex = s.node.raft.startLogIndex) :
    ((.cleanMainFiles :: (if st.startLogIndex ≠ 0 then [.copySnapshot st.startLogIndex (-1)]
      else [])).foldl Node.perform (s.node.reloaded st)).files .main =
        replay emptyFiles s.past := by
  have hnonneg := h.start_nonneg
  have hclean := cleanMainFiles_eq h.files
  by_cases hzero : st.startLogIndex = 0
  · have hpast : s.past = [] := by
      have := h.past
      exact List.length_eq_zero_iff.mp (by omega)
    rw [if_neg (not_not.mpr hzero), hpast]
    exact hclean
  · rw [if_pos hzero]
    have hmain : getSnapshotPath (-1) = .main := rfl
    have hpath : getSnapshotPath st.startLogIndex = .snapshot st.startLogIndex :=
      getSnapshotPath_of_nonneg (by omega)
    have hcopy := FileSystem.copySnapshot_self st.startLogIndex (-1)
      h.files.cleanMainFiles (by rw [hpath, hmain]; simp)
    rw [hmain, hpath, hclean, FileSystem.cleanMainFiles_of_ne (by simp), hstart,
      h.snapshot (hstart ▸ hzero)] at hcopy
    simp only [List.foldl_cons, List.foldl_nil, Node.perform, Node.reloaded]
    rw [hstart, hcopy]
    exact overlay_appendAll emptyFiles_getD _

/-- Removing snapshots leaves the main files alone. -/
theorem foldl_remove_main {es : List Effect}
    (hes : ∀ x ∈ es, ∃ i : ℤ, x = .removeSnapshot i ∧ 0 ≤ i) :
    (es.foldl Node.perform n).files .main = n.files .main := by
  induction es generalizing n with
  | nil => rfl
  | cons x es ih =>
      obtain ⟨i, rfl, hi⟩ := hes x List.mem_cons_self
      rw [List.foldl_cons, ih fun y hy => hes y (List.mem_cons_of_mem _ hy)]
      have hd : Dir.main ≠ getSnapshotPath i := by
        rw [getSnapshotPath_of_nonneg hi]
        simp
      exact FileSystem.removeSnapshot_of_ne hd

/-- A restart commits the entries of the window up to the saved index. -/
theorem entriesTo_reset {st : RaftState} (h : Shape st) : entriesTo st (st.commitIndex + 1) =
    (commitTurns (reset st) st.commitIndex).map Prod.snd := by
  have hlo := h.start
  have hturns := entriesTo_commitTurns (r := reset st) (n := st.commitIndex)
    (by simp only [reset, forget]; omega) (by simp only [reset]; omega) h.count
  have hnil : entriesTo (reset st) ((reset st).commitIndex + 1) = [] := by
    simp [entriesTo, reset, forget]
  rw [hnil, List.nil_append] at hturns
  exact hturns

/-- The effects of a restart, all of which are performed. -/
theorem files_restored {st : RaftState} (h : Shape st) :
    (n.settle (serverRestore st) none).files =
      ((serverRestore st).effects.foldl Node.perform n).files := by
  obtain ⟨rest, -, heq⟩ := serverRestore_eq h
  rw [heq]
  simp [Node.settle, Node.performed, emit]

/-- What the main files hold after a restart that runs to its end. -/
theorem StoreInv.rebuilt (h : StoreInv s) {st : RaftState} (hst : s.node.saved = some st) :
    ((s.node.reloaded st).settle (serverRestore st) none).files .main =
      replay emptyFiles (s.past ++ entriesTo st (st.commitIndex + 1)) := by
  obtain ⟨hsound, hstart⟩ := h.saved st hst
  obtain ⟨rest, hrest, heq⟩ := serverRestore_eq hsound.toShape
  rw [files_restored hsound.toShape, heq]
  show (List.foldl Node.perform _ (_ ++ (_ ++ _))).files .main = _
  rw [List.foldl_append, List.foldl_append, foldl_remove_main fun x hx => by
      obtain ⟨i, hi, hnonneg, -⟩ := hrest x hx
      exact ⟨i, hi, hnonneg⟩,
    foldl_commit_main, h.copiedBack hstart, replay_append, entriesTo_reset hsound.toShape]

end Restart

/-- After each restart the files are those that the committed entries, from the
first one on, write to empty files. -/
theorem restore_rebuilds_files {config : Config} {v : Server} {s s' : Store}
    (hrun : Machine.Steps Store.exec Store.WritesNumbered (.init config v) s)
    (hx : s.exec (.restore none) = some s') :
    s'.node.up = true ∧ (s'.past.length : ℤ) = s'.node.raft.startLogIndex ∧
    (s'.committed.length : ℤ) = s'.node.raft.commitIndex + 1 ∧
    s'.node.files .main = replay emptyFiles s'.committed := by
  have h := StoreInv.reachable hrun
  have h' := h.exec (x := .restore none) trivial hx
  simp only [Store.exec] at hx
  split at hx
  · rename_i st hdown hst
    simp only [Option.some.injEq] at hx
    obtain ⟨hsound, -⟩ := h.saved st hst
    have hfault : (serverRestore st).fault = false := by
      obtain ⟨rest, -, heq⟩ := serverRestore_eq hsound.toShape
      rw [heq]
      rfl
    have hup : s'.node.up = true := by
      rw [← hx]
      simp only [Node.settle, hfault, and_self, if_true]
      exact (Node.foldl_perform _ _).2.1
    have hraft : s'.node.raft = forget st := by
      rw [← hx] at hup ⊢
      exact (Node.settle_up hup).2.1.trans (serverRestore_ok hfault)
    have hpast := h'.past
    have hlo := hsound.start
    refine ⟨hup, hpast, ?_, ?_⟩
    · rw [Store.committed, List.length_append, entriesTo_length, hraft] at *
      push_cast
      simp only [forget] at hpast ⊢
      omega
    · have hlog : entriesTo (forget st) ((forget st).commitIndex + 1) =
          entriesTo st (st.commitIndex + 1) := rfl
      rw [Store.committed, hraft, hlog, ← hx]
      exact h.rebuilt hst
  · exact absurd hx (by simp)

/-- An entry that writes the bytes of one name to the first file. -/
def firstFileEntry (term : ℤ) (bytes : Bytes) : LogEntry :=
  ⟨term, 1, .clientLog, 1, 1, [⟨fileName 0, bytes⟩]⟩

/-- One entry is committed and compacted, another one committed behind it. -/
def compactAndCommit : List StoreAction :=
  [StoreAction.append (firstFileEntry 1 [65]), .commit 0 none, .call 1] ++
    List.replicate 7 (StoreAction.thread 0) ++
    [StoreAction.append (firstFileEntry 1 [66]), .commit 1 none, .save, .crash]

instance (s : Store) (x : StoreAction) : Decidable (s.WritesNumbered x) :=
  match x with
  | .append e => inferInstanceAs (Decidable e.Numbered)
  | .truncate _ | .commit _ _ | .save | .other _ | .call _ | .thread _ | .crash | .restore _ =>
    inferInstanceAs (Decidable True)

set_option maxRecDepth 10000 in
theorem compactAndCommit_runs : (Machine.execWhile Store.exec
    (fun s x => decide (s.WritesNumbered x)) (.init plainConfig 0) compactAndCommit).any
    (fun s => decide ((s.exec (.restore none)).any fun s' =>
      s'.node.raft.startLogIndex = 1 ∧ s'.node.raft.commitIndex = 1 ∧
        s'.node.files .main (fileName 0) = some [65, 66])) = true := by
  decide +kernel

theorem first_restore_rebuilds : ∃ s s' : Store,
    Machine.Steps Store.exec Store.WritesNumbered (.init plainConfig 0) s ∧
    s.exec (.restore none) = some s' ∧ s'.node.raft.startLogIndex = 1 ∧
    s'.node.files .main (fileName 0) = some [65, 66] ∧
    s'.node.files .main = replay emptyFiles s'.committed := by
  obtain ⟨s, hrun, hs⟩ := Machine.exists_of_execWhile Store.WritesNumbered
    (fun _ _ h => of_decide_eq_true h) compactAndCommit_runs
  obtain ⟨s', hx, hs'⟩ := (Option.any_eq_true _ _).mp (of_decide_eq_true hs)
  obtain ⟨hstart, -, hfile⟩ := of_decide_eq_true hs'
  exact ⟨s, s', hrun, hx, hstart, hfile, (restore_rebuilds_files hrun hx).2.2.2⟩

end RaftLock

import RaftLock.Library.Appends
import RaftLock.Raft.Handlers

/-!
What the file operations do, directory by directory.

The program reads and writes the hundred files it numbers. As long as there
are no others, copying a snapshot lays it over the destination and removing
one empties its directory.
-/

namespace RaftLock

open Appends

def fileNames : List Bytes := (List.range 100).map fileName

/-- The hundred files, each of them empty. -/
def emptyFiles : Bytes → Option Bytes := fun name => if name ∈ fileNames then some [] else none

/-- What committing an entry writes: nothing for a leader's own entry. -/
def LogEntry.fileWrites (e : LogEntry) : List (Bytes × Bytes) :=
  match e.type with
  | .leaderLog => []
  | .clientLog => e.writes.map fun d => (cstr d.filename, cstr d.buffer)

/-- The writes of the entries, in order, applied to a directory. -/
def replay (f : Bytes → Option Bytes) (es : List LogEntry) : Bytes → Option Bytes :=
  appendAll f (es.flatMap LogEntry.fileWrites)

/-- The entry writes to the hundred files only. -/
def LogEntry.Numbered (e : LogEntry) : Prop := ∀ w ∈ e.fileWrites, w.1 ∈ fileNames

instance (e : LogEntry) : Decidable e.Numbered := inferInstanceAs (Decidable (∀ w ∈ _, _))

theorem replay_append (f : Bytes → Option Bytes) (es es' : List LogEntry) :
    replay f (es ++ es') = replay (replay f es) es' := by
  rw [replay, List.flatMap_append, appendAll_append]
  rfl

theorem replay_concat (f : Bytes → Option Bytes) (es : List LogEntry) (e : LogEntry) :
    replay f (es ++ [e]) = appendAll (replay f es) e.fileWrites := by
  rw [replay_append, replay, List.flatMap_singleton]

theorem replay_of_notMem {f : Bytes → Option Bytes} {es : List LogEntry}
    (h : ∀ e ∈ es, e.Numbered) {name : Bytes} (hname : name ∉ fileNames) :
    replay f es name = f name := by
  refine appendAll_of_notMem fun w hw heq => hname ?_
  obtain ⟨e, he, hwe⟩ := List.mem_flatMap.mp hw
  exact heq ▸ h e he w hwe

theorem mem_fileNames {name : Bytes} : name ∈ fileNames ↔ ∃ k < 100, name = fileName k := by
  simp only [fileNames, List.mem_map, List.mem_range]
  exact ⟨fun ⟨k, hk, h⟩ => ⟨k, hk, h.symm⟩, fun ⟨k, hk, h⟩ => ⟨k, hk, h.symm⟩⟩

namespace FileSystem

variable {fs : FileSystem} {d : Dir}

theorem write_of_ne {d' : Dir} (h : d' ≠ d) (name : Bytes) (content : Option Bytes) :
    fs.write d name content d' = fs d' := by
  funext name'
  simp [FileSystem.write, h]

theorem write_self (name : Bytes) (content : Option Bytes) :
    fs.write d name content d = Function.update (fs d) name content := by
  funext name'
  simp [FileSystem.write, Function.update_apply]

theorem appendTo_self (name buffer : Bytes) :
    fs.appendTo d name buffer d = append (fs d) (cstr name, cstr buffer) := write_self _ _

theorem appendTo_of_ne {d' : Dir} (h : d' ≠ d) (name buffer : Bytes) :
    fs.appendTo d name buffer d' = fs d' := write_of_ne h _ _

/-- Writes to the main directory, one after the other. -/
theorem foldl_appendTo_main (ws : List TransactionEntry) :
    ws.foldl (fun fs w => fs.appendTo .main w.filename w.buffer) fs .main =
      appendAll (fs .main) (ws.map fun w => (cstr w.filename, cstr w.buffer)) := by
  induction ws generalizing fs with
  | nil => rfl
  | cons w ws ih =>
      rw [List.foldl_cons, ih, appendTo_self]
      rfl

theorem foldl_appendTo_of_ne (h : d ≠ .main) (ws : List TransactionEntry) :
    ws.foldl (fun fs w => fs.appendTo .main w.filename w.buffer) fs d = fs d := by
  induction ws generalizing fs with
  | nil => rfl
  | cons w ws ih => rw [List.foldl_cons, ih, appendTo_of_ne h]

theorem handleRaftCommit_main (e : LogEntry) : fs.handleRaftCommit e .main =
    appendAll (fs .main) (e.writes.map fun d => (cstr d.filename, cstr d.buffer)) :=
  foldl_appendTo_main e.writes

theorem handleRaftCommit_of_ne (h : d ≠ .main) (e : LogEntry) :
    fs.handleRaftCommit e d = fs d :=
  foldl_appendTo_of_ne h e.writes

/-- A loop over the first files that writes one directory. -/
theorem foldl_of_ne {step : FileSystem → ℕ → FileSystem} (hstep : ∀ fs k, step fs k d = fs d)
    (ks : List ℕ) : ks.foldl step fs d = fs d := by
  induction ks generalizing fs with
  | nil => rfl
  | cons k ks ih => rw [List.foldl_cons, ih, hstep]

theorem removeSnapshot_of_ne {id : ℤ} (h : d ≠ getSnapshotPath id) :
    fs.removeSnapshot id d = fs d :=
  foldl_of_ne (fun _ _ => write_of_ne h _ _) _

/-- A loop that sets the files it goes through. -/
theorem foldl_write (c : Option Bytes) (ks : List ℕ) (name : Bytes) :
    ks.foldl (fun fs k => fs.write d (fileName k) c) fs d name =
      if name ∈ ks.map fileName then c else fs d name := by
  induction ks generalizing fs with
  | nil => rfl
  | cons k ks ih =>
      rw [List.foldl_cons, ih, write_self, Function.update_apply, List.map_cons]
      by_cases hmem : name ∈ ks.map fileName
      · simp [hmem]
      · by_cases hk : name = fileName k
        · simp [hk]
        · simp [hmem, hk]

theorem removeSnapshot_self (fs : FileSystem) (id : ℤ) (name : Bytes) :
    fs.removeSnapshot id (getSnapshotPath id) name =
      if name ∈ fileNames then none else fs (getSnapshotPath id) name :=
  foldl_write none (List.range 100) name

theorem cleanMainFiles_main (name : Bytes) : fs.cleanMainFiles .main name =
    if name ∈ fileNames then some [] else fs .main name :=
  foldl_write (some []) (List.range 100) name

theorem cleanMainFiles_of_ne (h : d ≠ .main) : fs.cleanMainFiles d = fs d :=
  foldl_of_ne (fun _ _ => write_of_ne h _ _) _

theorem copyFile_of_ne {src dst : ℤ} (h : d ≠ getSnapshotPath dst) (k : ℕ) :
    copyFile src dst fs k d = fs d := by
  unfold copyFile
  cases fs (getSnapshotPath src) (fileName k) with
  | none => rfl
  | some content => exact write_of_ne h _ _

theorem copyFile_self {src dst : ℤ} (k : ℕ) (name : Bytes) :
    copyFile src dst fs k (getSnapshotPath dst) name =
      if name = fileName k then overlay (fs (getSnapshotPath dst)) (fs (getSnapshotPath src)) name
      else fs (getSnapshotPath dst) name := by
  unfold copyFile
  cases hsrc : fs (getSnapshotPath src) (fileName k) with
  | none =>
      simp only
      split
      · rename_i hname
        simp [overlay, hname, hsrc]
      · rfl
  | some content =>
      simp only
      rw [write_self, Function.update_apply]
      split
      · rename_i hname
        simp [overlay, hname, hsrc]
      · rfl

/-- Copying the files up to `k` lays them over the destination. -/
theorem foldl_copyFile {src dst : ℤ} (hne : getSnapshotPath src ≠ getSnapshotPath dst) (k : ℕ)
    (name : Bytes) : (List.range k).foldl (copyFile src dst) fs (getSnapshotPath dst) name =
      if name ∈ (List.range k).map fileName then
        overlay (fs (getSnapshotPath dst)) (fs (getSnapshotPath src)) name
      else fs (getSnapshotPath dst) name := by
  induction k with
  | zero => rfl
  | succ k ih =>
      have hsrc : (List.range k).foldl (copyFile src dst) fs (getSnapshotPath src) =
          fs (getSnapshotPath src) := foldl_of_ne (fun _ _ => copyFile_of_ne hne _) _
      rw [List.range_succ, List.foldl_append, List.foldl_cons, List.foldl_nil, copyFile_self,
        List.map_append]
      simp only [overlay, ih, hsrc, List.map_cons, List.map_nil, List.mem_append,
        List.mem_singleton]
      by_cases hmem : name ∈ (List.range k).map fileName
      · rw [if_pos hmem, if_pos (Or.inl hmem)]
        split
        · cases fs (getSnapshotPath src) name <;> rfl
        · rfl
      · by_cases hk : name = fileName k
        · rw [if_neg hmem, if_pos hk, if_pos (Or.inr hk)]
        · rw [if_neg hmem, if_neg hk, if_neg (by simp only [hmem, hk, or_self, not_false_eq_true])]

/-- No directory has a file outside the hundred. -/
def Numbered (fs : FileSystem) : Prop := ∀ d name, name ∉ fileNames → fs d name = none

theorem Numbered.write (h : fs.Numbered) {name : Bytes} (hname : name ∈ fileNames)
    (content : Option Bytes) : (fs.write d name content).Numbered := by
  intro d' name' hname'
  simp only [FileSystem.write]
  split
  · rename_i heq
    exact absurd (heq.2 ▸ hname) hname'
  · exact h d' name' hname'

theorem Numbered.foldl {step : FileSystem → ℕ → FileSystem}
    (hstep : ∀ (fs : FileSystem) (k : ℕ), k < 100 → fs.Numbered → (step fs k).Numbered)
    (h : fs.Numbered) : ((List.range 100).foldl step fs).Numbered := by
  have hall : ∀ ks : List ℕ, (∀ k ∈ ks, k < 100) → ∀ fs : FileSystem, fs.Numbered →
      (ks.foldl step fs).Numbered := by
    intro ks
    induction ks with
    | nil => exact fun _ _ h => h
    | cons k ks ih =>
        intro hks fs h
        exact ih (fun j hj => hks j (List.mem_cons_of_mem k hj)) _
          (hstep fs k (hks k List.mem_cons_self) h)
  exact hall _ (fun k hk => List.mem_range.mp hk) fs h

theorem Numbered.removeSnapshot (h : fs.Numbered) (id : ℤ) : (fs.removeSnapshot id).Numbered :=
  Numbered.foldl (fun _ k hk h => h.write (mem_fileNames.mpr ⟨k, hk, rfl⟩) none) h

theorem Numbered.cleanMainFiles (h : fs.Numbered) : fs.cleanMainFiles.Numbered :=
  Numbered.foldl (fun _ k hk h => h.write (mem_fileNames.mpr ⟨k, hk, rfl⟩) (some [])) h

theorem Numbered.copyFile (h : fs.Numbered) (src dst : ℤ) {k : ℕ} (hk : k < 100) :
    (FileSystem.copyFile src dst fs k).Numbered := by
  unfold FileSystem.copyFile
  split
  · exact h
  · exact h.write (mem_fileNames.mpr ⟨k, hk, rfl⟩) _

theorem Numbered.copySnapshot (h : fs.Numbered) (src dst : ℤ) :
    (fs.copySnapshot src dst).Numbered :=
  Numbered.foldl (fun _ _ hk h => h.copyFile src dst hk) h

theorem copySnapshot_self (src dst : ℤ) (h : fs.Numbered)
    (hne : getSnapshotPath src ≠ getSnapshotPath dst) :
    fs.copySnapshot src dst (getSnapshotPath dst) =
      overlay (fs (getSnapshotPath dst)) (fs (getSnapshotPath src)) := by
  funext name
  unfold copySnapshot
  rw [foldl_copyFile hne]
  split
  · rfl
  · rename_i hname
    simp [overlay, h _ name hname]

theorem copySnapshot_of_ne {src dst : ℤ} (h : d ≠ getSnapshotPath dst) :
    fs.copySnapshot src dst d = fs d := foldl_of_ne (fun _ _ => copyFile_of_ne h _) _

end FileSystem

end RaftLock

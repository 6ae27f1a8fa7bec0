import RaftLock.Recovery.Rebuild

/-!
Servers without the counters of their entries.

`n_servers_replicated` is the leader's own count: a follower that is sent an
entry again gets it with another count. Nothing that is written to a file
depends on it, so a server can be looked at with all counters at zero, and
then a committed entry never changes.
-/

namespace RaftLock

open Outcome Appends

/-- The state with the counters of all entries at zero. -/
def RaftState.cored (r : RaftState) : RaftState := { r with log := fun k => (r.log k).core }

def Effect.cored : Effect → Effect
  | .save r => .save r.cored
  | .commit i e => .commit i e.core
  | x => x

def Outcome.cored (o : Outcome) : Outcome := ⟨o.raft.cored, o.effects.map Effect.cored, o.fault⟩

namespace Node

def cored (n : Node) : Node :=
  { n with
    raft := n.raft.cored
    saved := n.saved.map RaftState.cored
    applied := n.applied.map fun x => (x.1, x.2.core) }

/-- The server as its files see it: while it is down, with the state it will
come back with. -/
def stored (n : Node) : Node := { n.cored with raft := n.view.cored }

theorem stored_of_up {n : Node} (h : n.up = true) : n.stored = n.cored := by
  simp only [stored, view, h, if_true]
  rfl

end Node

section Cored

variable {r : RaftState} {i : ℤ}

@[simp] theorem RaftState.cored_startLogIndex (r : RaftState) :
    r.cored.startLogIndex = r.startLogIndex := rfl

@[simp] theorem RaftState.cored_logCount (r : RaftState) : r.cored.logCount = r.logCount := rfl

@[simp] theorem RaftState.cored_commitIndex (r : RaftState) :
    r.cored.commitIndex = r.commitIndex := rfl

@[simp] theorem RaftState.cored_snapshotInProgress (r : RaftState) :
    r.cored.snapshotInProgress = r.snapshotInProgress := rfl

@[simp] theorem RaftState.cored_log (r : RaftState) (k : ℕ) : r.cored.log k = (r.log k).core := rfl

theorem getLog_cored (r : RaftState) (i : ℤ) :
    getLog r.cored i = (getLog r i).map LogEntry.core := by
  unfold getLog RaftState.cored
  split_ifs <;> rfl

/-! ### Sections -/

theorem andThen_cored (o : Outcome) {f : RaftState → Outcome}
    (hf : ∀ r, f r.cored = (f r).cored) : (o.andThen f).cored = o.cored.andThen f := by
  unfold Outcome.andThen
  simp only [Outcome.cored, hf]
  split_ifs
  · rfl
  · simp

theorem commitLoop_cored (r : RaftState) (turns : ℕ) (i : ℤ) :
    commitLoop r.cored turns i = (commitLoop r turns i).cored := by
  induction turns generalizing r i with
  | zero => rfl
  | succ turns ih =>
      unfold commitLoop
      rw [getLog_cored]
      cases getLog r i with
      | none => rfl
      | some e =>
          simp only [Option.map_some]
          rw [andThen_cored _ fun r => ih r (i + 1)]
          rfl

theorem commitUpdate_cored (r : RaftState) (n : ℤ) :
    commitUpdate r.cored n = (commitUpdate r n).cored := by
  unfold commitUpdate
  rw [andThen_cored _ fun r => rfl, ← commitLoop_cored]
  rfl

theorem serverRestore_cored (st : RaftState) :
    serverRestore st.cored = (serverRestore st).cored := by
  have hlast : ∀ r : RaftState, (emit r.cored (((List.range 100).filter fun i =>
      (i : ℤ) ≠ r.cored.startLogIndex).map fun i => .removeSnapshot i)) =
      (emit r (((List.range 100).filter fun i => (i : ℤ) ≠ r.startLogIndex).map
        fun i => .removeSnapshot i)).cored := by
    intro r
    simp only [Outcome.cored, emit, List.map_map]
    rfl
  unfold serverRestore
  simp only
  rw [andThen_cored]
  · congr 1
    simp only [emit, Outcome.cored]
    congr 1
    by_cases hzero : st.startLogIndex = 0 <;> simp [hzero, Effect.cored]
  · intro r
    rw [andThen_cored _ hlast, ← commitUpdate_cored]

theorem createSnapshotEnter_cored (r : RaftState) (n : ℤ) :
    createSnapshotEnter r.cored n = (createSnapshotEnter r n).map RaftState.cored := by
  unfold createSnapshotEnter
  have hsenders : r.cored.nFollowersReceivingSnapshots = r.nFollowersReceivingSnapshots := rfl
  simp only [RaftState.cored_startLogIndex, RaftState.cored_commitIndex,
    RaftState.cored_snapshotInProgress, hsenders]
  split_ifs <;> rfl

theorem copyDown_core (log : ℕ → LogEntry) (d count : ℕ) :
    copyDown (fun k => (log k).core) d count = fun k => (copyDown log d count k).core := by
  funext k
  simp only [copyDown_apply]
  split_ifs <;> rfl

theorem createSnapshotShift_cored (r : RaftState) (n : ℤ) :
    createSnapshotShift r.cored n = (createSnapshotShift r n).cored := by
  unfold createSnapshotShift
  simp only
  have hlog : r.cored.log = fun k => (r.log k).core := rfl
  by_cases hbad : n < r.logCount ∧ (n < r.startLogIndex ∨
      r.logCount - r.startLogIndex > (logSize : ℤ))
  · rw [if_pos hbad]
    exact if_pos hbad
  · rw [if_neg hbad, hlog, copyDown_core]
    exact if_neg hbad

theorem snapshotStep_cored (r : RaftState) (pc : SnapshotPc) :
    snapshotStep r.cored pc = ((snapshotStep r pc).1.cored, (snapshotStep r pc).2) := by
  cases pc with
  | check =>
      by_cases hfull : r.commitIndex - r.startLogIndex + 1 ≥ commitsToSnapshot
      · rw [snapshotStep, snapshotStep, if_pos hfull]
        exact if_pos hfull
      · rw [snapshotStep, snapshotStep, if_neg hfull]
        exact if_neg hfull
  | argument => rfl
  | enter n =>
      simp only [snapshotStep, createSnapshotEnter_cored]
      cases createSnapshotEnter r n <;> rfl
  | opened n => rfl
  | copy n prev src k =>
      simp only [snapshotStep]
      split_ifs <;> rfl
  | entries n prev => rfl
  | add n prev i j =>
      simp only [snapshotStep, getLog_cored]
      split_ifs
      · cases getLog r i with
        | none => rfl
        | some e =>
            simp only [Option.map_some]
            have htype : e.core.type = e.type := rfl
            have hwrites : e.core.writes = e.writes := rfl
            rw [htype, hwrites]
            split <;> rfl
      · rfl
  | shift n prev =>
      simp only [snapshotStep, createSnapshotShift_cored]
  | remove prev => rfl

/-! ### Effects -/

theorem Node.perform_cored (n : Node) (x : Effect) :
    (n.perform x).cored = n.cored.perform x.cored := by
  cases x with
  | commit i e =>
      have hcommit : n.files.handleRaftCommit e.core = n.files.handleRaftCommit e := rfl
      have htype : e.core.type = e.type := rfl
      simp only [Node.perform, Node.cored, Effect.cored, List.map_append, List.map_cons,
        List.map_nil, hcommit, htype]
  | save st => rfl
  | spawnLeaderThreads followers => rfl
  | send dst packet => rfl
  | _ => simp only [Node.perform, Node.cored, Effect.cored]

theorem Node.foldl_perform_cored (es : List Effect) (n : Node) :
    (es.foldl Node.perform n).cored = (es.map Effect.cored).foldl Node.perform n.cored := by
  induction es generalizing n with
  | nil => rfl
  | cons x es ih => rw [List.foldl_cons, ih, Node.perform_cored, List.map_cons, List.foldl_cons]

theorem Node.performed_cored (o : Outcome) (crashAt : Option ℕ) :
    performed o.cored crashAt = (performed o crashAt).map Effect.cored := by
  cases crashAt with
  | none => rfl
  | some k => exact List.map_take.symm

theorem Node.settle_cored (n : Node) (o : Outcome) (crashAt : Option ℕ) :
    (n.settle o crashAt).cored = n.cored.settle o.cored crashAt := by
  unfold Node.settle
  simp only [performed_cored, ← foldl_perform_cored]
  have hfault : o.cored.fault = o.fault := rfl
  rw [hfault]
  split_ifs <;> rfl

end Cored

end RaftLock

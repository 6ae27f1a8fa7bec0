import RaftLock.Raft.Verdict
import RaftLock.Recovery.Snapshots

/-!
Verdicts over the life of one log.

Terms do not go down along a log, so an entry of the window that has the tag
is found before any entry of a later term. Once compaction has dropped it, the
loop of `Raft_is_entry_committed` cannot tell a transaction that was committed
from one that was lost: it answers by the entries that are left.
-/

namespace RaftLock

open Outcome

namespace Store

/-- The log evolves by appends of terms that do not go down, truncations,
commits and compactions; the process goes on. -/
def Evolves (s : Store) : StoreAction → Prop
  | .append e => ∀ last ∈ s.fullLog.getLast?, last.term ≤ e.term
  | .commit _ crashAt => crashAt = none
  | .crash | .restore _ => False
  | _ => True

end Store

/-! ### The whole log under compaction -/

section Compaction

variable {r : RaftState}

theorem entriesTo_compacted {n i : ℤ} (hlo : r.startLogIndex ≤ n) (hn : n ≤ i)
    (hi : i ≤ r.logCount) : entriesTo r i = entriesTo r n ++ entriesTo (compacted r n) i := by
  have hsum : (i - r.startLogIndex).toNat = (n - r.startLogIndex).toNat + (i - n).toNat := by omega
  rw [entriesTo, hsum, List.range_add, List.map_append, List.map_map]
  refine congrArg₂ _ rfl (List.map_congr_left fun k hk => ?_)
  have hk' : k < (i - n).toNat := List.mem_range.mp hk
  show r.log ((n - r.startLogIndex).toNat + k) =
    copyDown r.log (n - r.startLogIndex).toNat (r.logCount - n).toNat k
  rw [copyDown_apply, if_pos (by omega), add_comm]

theorem entriesTo_isPrefix {i j : ℤ} (h : i ≤ j) : entriesTo r i <+: entriesTo r j := by
  have hsum : (j - r.startLogIndex).toNat = (i - r.startLogIndex).toNat +
      ((j - r.startLogIndex).toNat - (i - r.startLogIndex).toNat) := by omega
  unfold entriesTo
  rw [hsum, List.range_add, List.map_append]
  exact List.prefix_append _ _

theorem entriesTo_push {r' : RaftState} {e : LogEntry} (h : pushEntry r e = some r') :
    entriesTo r' r'.logCount = entriesTo r r.logCount ++ [e] := by
  obtain ⟨hlo, -, heq⟩ := pushEntry_some h
  have hstart : r'.startLogIndex = r.startLogIndex := by rw [heq]
  have hcount : r'.logCount = r.logCount + 1 := by rw [heq]
  have hlog : r'.log =
      Function.update r.log (r.logCount - r.startLogIndex).toNat e := by rw [heq]
  rw [hcount, entriesTo_succ (hstart ▸ hlo), hlog, hstart, Function.update_self]
  refine congrArg₂ _ (entriesTo_congr hstart fun k hk => ?_) rfl
  rw [hlog]
  exact Function.update_of_ne (by omega) _ _

theorem mem_entriesTo {i : ℤ} {e : LogEntry} (hi : i ≤ r.logCount) :
    e ∈ entriesTo r i ↔ ∃ j < i, getLog r j = some e := by
  constructor
  · intro he
    obtain ⟨k, hk, rfl⟩ := List.mem_map.mp he
    rw [List.mem_range] at hk
    refine ⟨r.startLogIndex + k, by omega, ?_⟩
    rw [getLog_of_mem (by omega) (by omega),
      show (r.startLogIndex + (k : ℤ) - r.startLogIndex).toNat = k by omega]
  · rintro ⟨j, hj, he⟩
    obtain ⟨hlo, hhi, rfl⟩ := getLog_some he
    exact List.mem_map.mpr ⟨_, List.mem_range.mpr (by omega), rfl⟩

end Compaction

/-! ### The invariant -/

/-- One thread at most makes a snapshot, and it is one that may be made. -/
structure OneTarget (n : Node) : Prop where
  building : n.snapshotThreads.countP (fun pc => pc.building.isSome) =
    if n.raft.snapshotInProgress then 1 else 0
  target : ∀ pc ∈ n.snapshotThreads, ∀ m, pc.building = some m → Target n.raft m

structure LogInv (s : Store) : Prop where
  past : (s.past.length : ℤ) = s.node.raft.startLogIndex
  shape : Shape s.node.raft
  sorted : s.fullLog.Pairwise fun e e' => e.term ≤ e'.term
  threads : s.node.up = true → OneTarget s.node

theorem logInv_init (config : Config) (v : Server) : LogInv (.init config v) where
  past := rfl
  shape := shape_init config v
  sorted := by simp [Store.init, Store.fullLog, Node.init, serverInit, entriesTo]
  threads _ := ⟨rfl, fun pc hpc => absurd hpc (by simp [Store.init, Node.init])⟩

/-- What a step does to the log as a whole. -/
structure Continues (s s' : Store) : Prop where
  inv : LogInv s'
  committed : s.committed <+: s'.committed

section Steps

variable {s : Store} {n : Node}

theorem OneTarget.extends {n' : Node} (h : OneTarget n) (he : Extends n.raft n'.raft)
    (hthreads : n'.snapshotThreads = n.snapshotThreads)
    (hflag : n'.raft.snapshotInProgress = n.raft.snapshotInProgress) : OneTarget n' where
  building := by
    rw [hthreads, hflag]
    exact h.building
  target pc hpc m hm := (h.target pc (hthreads ▸ hpc) m hm).mono he

/-- A step that leaves the window where it is. -/
theorem LogInv.extends (h : LogInv s) (he : Extends s.node.raft n.raft) (hshape : Shape n.raft)
    (hsorted : (s.past ++ entriesTo n.raft n.raft.logCount).Pairwise
      fun e e' => e.term ≤ e'.term)
    (hthreads : n.up = true → OneTarget n) : Continues s { s with node := n } where
  inv := ⟨h.past.trans he.start.symm, hshape, hsorted, hthreads⟩
  committed := by
    have hstart := h.shape.start
    have hcommit := he.commit
    have hle : entriesTo s.node.raft (s.node.raft.commitIndex + 1) <+:
        entriesTo n.raft (n.raft.commitIndex + 1) := by
      rw [← he.entriesTo le_rfl]
      exact entriesTo_isPrefix (by omega)
    exact (List.prefix_append_right_inj s.past).mpr hle

theorem LogInv.append (h : LogInv s) (hup : s.node.up = true) {e : LogEntry} {r : RaftState}
    (hterm : ∀ last ∈ s.fullLog.getLast?, last.term ≤ e.term)
    (hr : pushEntry s.node.raft e = some r) :
    Continues s { s with node := { s.node with raft := r } } := by
  obtain ⟨hshape, hext⟩ := h.shape.push hr
  have hflag : r.snapshotInProgress = s.node.raft.snapshotInProgress := by
    rw [(pushEntry_some hr).2.2]
  refine h.extends hext hshape ?_ fun _ => (h.threads hup).extends hext rfl hflag
  rw [entriesTo_push hr, ← List.append_assoc]
  show (s.fullLog ++ [e]).Pairwise _
  refine List.pairwise_append.mpr ⟨h.sorted, by simp, fun e₁ he₁ e₂ he₂ => ?_⟩
  rw [List.mem_singleton.mp he₂]
  obtain ⟨l, last, hl⟩ := List.eq_nil_or_concat'  s.fullLog |>.resolve_left (List.ne_nil_of_mem he₁)
  have hlast : last.term ≤ e.term := hterm last (by simp [hl])
  have hsorted := h.sorted
  rw [hl] at he₁ hsorted
  rcases List.mem_append.mp he₁ with he₁ | he₁
  · exact ((List.pairwise_append.mp hsorted).2.2 e₁ he₁ last (by simp)).trans hlast
  · rw [List.mem_singleton.mp he₁]
    exact hlast

theorem LogInv.truncate (h : LogInv s) (hup : s.node.up = true) {m : ℤ}
    (hlo : s.node.raft.commitIndex < m) (hhi : m ≤ s.node.raft.logCount) :
    Continues s { s with node := { s.node with raft := { s.node.raft with logCount := m } } } := by
  refine h.extends (.of_eq rfl rfl rfl) (h.shape.truncate hlo hhi) ?_ fun _ =>
    (h.threads hup).extends (.of_eq rfl rfl rfl) rfl rfl
  refine h.sorted.sublist (List.IsPrefix.sublist ?_)
  exact (List.prefix_append_right_inj s.past).mpr (entriesTo_isPrefix hhi)

/-- A step that leaves the log as it is. -/
theorem LogInv.same (h : LogInv s) (hlog : n.raft.log = s.node.raft.log)
    (hstart : n.raft.startLogIndex = s.node.raft.startLogIndex)
    (hcount : n.raft.logCount = s.node.raft.logCount)
    (hcommit : n.raft.commitIndex = s.node.raft.commitIndex)
    (hthreads : n.up = true → OneTarget n) : Continues s { s with node := n } := by
  refine h.extends (.of_eq hstart hcommit hlog) ?_ ?_ hthreads
  · exact ⟨by rw [hstart, hcommit]; exact h.shape.start,
      by rw [hcommit, hcount]; exact h.shape.count,
      by rw [hstart, hcount]; exact h.shape.room⟩
  · rw [hcount, entriesTo_congr hstart fun k _ => congrFun hlog k]
    exact h.sorted

theorem LogInv.commit (h : LogInv s) (hup : s.node.up = true) {i : ℤ}
    (hlo : s.node.raft.commitIndex ≤ i) (hhi : i ≤ s.node.raft.logCount - 1) :
    Continues s { s with node := s.node.settle (commitUpdate s.node.raft i) none } := by
  have hfault := commitUpdate_fault (h.shape.committable hhi)
  have hnode : (s.node.settle (commitUpdate s.node.raft i) none).raft =
      { s.node.raft with commitIndex := i } ∧
      (s.node.settle (commitUpdate s.node.raft i) none).snapshotThreads =
        s.node.snapshotThreads := by
    rw [(commitUpdate_ok hfault).1]
    refine ⟨by simp [Node.settle, emit], ?_⟩
    simp only [Node.settle, emit, and_self, if_true]
    exact (Node.foldl_perform _ _).2.2.1
  have hext : Extends s.node.raft (s.node.settle (commitUpdate s.node.raft i) none).raft := by
    rw [hnode.1]
    exact ⟨rfl, hlo, fun _ _ => rfl⟩
  refine h.extends hext ?_ ?_ fun _ => (h.threads hup).extends hext hnode.2 (by rw [hnode.1])
  · rw [hnode.1]
    exact h.shape.commit hlo hhi
  · rw [hnode.1]
    exact h.sorted

section Threads

variable {k : ℕ} {pc : SnapshotPc}

theorem OneTarget.replaced (h : OneTarget s.node) (hk : s.node.snapshotThreads[k]? = some pc)
    {pc' : Option SnapshotPc} (hbuild : pc'.bind SnapshotPc.building = pc.building)
    (hraft : n.raft = s.node.raft)
    (hthreads : n.snapshotThreads = List.replaceAt s.node.snapshotThreads k pc') : OneTarget n where
  building := by
    rw [hthreads, hraft, countP_replaceAt hk hbuild]
    exact h.building
  target p hp m hm := by
    rw [hthreads] at hp
    rw [hraft]
    rcases mem_replaced hk hp with hp | hp
    · exact h.target p (mem_of_rest hp) m hm
    · refine h.target pc (List.mem_of_getElem? hk) m ?_
      rw [← hbuild, hp]
      exact hm

theorem LogInv.plain (h : LogInv s) (hup : s.node.up = true)
    (hk : s.node.snapshotThreads[k]? = some pc) (henter : ∀ n, pc ≠ .enter n)
    (hshift : ∀ n prev, pc ≠ .shift n prev) : Continues s (s.runThread k pc) := by
  obtain ⟨hraft, -, -, -⟩ := snapshotStep_plain s.node.raft henter hshift
  have hpast : s.pastAfter pc = s.past := by
    cases pc with
    | shift n prev => exact absurd rfl (hshift n prev)
    | _ => rfl
  obtain ⟨hsame, -, hthreads, -, -⟩ := Node.foldl_perform (snapshotStep s.node.raft pc).1.effects
    { s.node with
      snapshotThreads := List.replaceAt s.node.snapshotThreads k (snapshotStep s.node.raft pc).2 }
  simp only [Store.runThread, Node.settle, Node.performed, true_and, hpast]
  split_ifs with hok
  · refine h.same ?_ ?_ ?_ ?_ fun _ => ?_
    iterate 4 rw [hraft]
    exact (h.threads hup).replaced hk (snapshotStep_building henter hshift hok) hraft hthreads
  · -- the process has ended
    refine h.same ?_ ?_ ?_ ?_ fun hup' => absurd hup' (by simp [Node.crash])
    iterate 4 simp only [Node.crash, hsame]

theorem LogInv.entered (h : LogInv s) (hup : s.node.up = true) {n : ℤ}
    (hk : s.node.snapshotThreads[k]? = some (.enter n)) :
    Continues s (s.runThread k (.enter n)) := by
  have hthreads := h.threads hup
  rcases enter_cases (n := n) hthreads.building with hstep | ⟨ht, -, hnone, hstep⟩
  · have hbuild : (none : Option SnapshotPc).bind SnapshotPc.building =
        (SnapshotPc.enter n).building := rfl
    simp only [Store.runThread, hstep, settle_ret]
    exact h.same rfl rfl rfl rfl fun _ => hthreads.replaced hk hbuild rfl rfl
  · simp only [Store.runThread, hstep, settle_ret]
    refine h.same rfl rfl rfl rfl fun _ => ⟨countP_enter hk hnone, fun p hp m hm => ?_⟩
    have hmem : p ∈ List.replaceAt s.node.snapshotThreads k (some (.opened n)) := hp
    rcases mem_replaced hk hmem with hp | hp
    · have hidle := List.countP_eq_zero.mp hnone p (mem_of_rest hp)
      exact absurd hm (by simp [Option.not_isSome_iff_eq_none.mp hidle])
    · simp only [Option.some.injEq] at hp
      subst hp
      simp only [SnapshotPc.building, Option.some.injEq] at hm
      subst hm
      exact ⟨ht.start, ht.commit⟩

/-- The window moves, and the log as a whole stays as it is. -/
theorem LogInv.shifted (h : LogInv s) (hup : s.node.up = true) {n prev : ℤ}
    (hk : s.node.snapshotThreads[k]? = some (.shift n prev)) :
    Continues s (s.runThread k (.shift n prev)) := by
  have ht := (h.threads hup).target _ (List.mem_of_getElem? hk) n rfl
  have hothers := others_idle (h.threads hup).building hk rfl
  have hpast := h.past
  have hlt := ht.start
  have hcommit := ht.commit
  have hcount := h.shape.count
  obtain ⟨hshape, hshift⟩ := h.shape.compacted ht
  have hwhole : ∀ i, n ≤ i → i ≤ s.node.raft.logCount →
      (s.past ++ entriesTo s.node.raft n) ++ entriesTo (compacted s.node.raft n) i =
        s.past ++ entriesTo s.node.raft i := by
    intro i hi hle
    rw [List.append_assoc, ← entriesTo_compacted hlt.le hi hle]
  simp only [Store.runThread, snapshotStep, hshift, saveState, settle_emit]
  refine ⟨⟨?_, hshape, ?_, fun _ => ⟨?_, fun p hp m hm => ?_⟩⟩, ?_⟩
  · exact past_compacted hpast hlt.le
  · show ((s.past ++ entriesTo s.node.raft n) ++
      entriesTo (compacted s.node.raft n) s.node.raft.logCount).Pairwise _
    rw [hwhole _ (by omega) le_rfl]
    exact h.sorted
  · exact shifted_idle hk hothers
  · rcases mem_shifted hk hp with hp | ⟨-, rfl⟩
    · exact absurd hm (by simp [hothers p hp])
    · exact absurd hm (by simp [SnapshotPc.building])
  · show s.past ++ _ <+: (s.past ++ entriesTo s.node.raft n) ++
      entriesTo (compacted s.node.raft n) (s.node.raft.commitIndex + 1)
    rw [hwhole _ hcommit (by omega)]

theorem LogInv.thread (h : LogInv s) (hup : s.node.up = true)
    (hk : s.node.snapshotThreads[k]? = some pc) : Continues s (s.runThread k pc) := by
  cases pc with
  | enter n => exact h.entered hup hk
  | shift n prev => exact h.shifted hup hk
  | _ => exact h.plain hup hk (by simp) (by simp)

end Threads

theorem LogInv.exec (h : LogInv s) {x : StoreAction} {s' : Store} (hok : s.Evolves x)
    (hx : s.exec x = some s') : Continues s s' := by
  cases x with
  | append e =>
      simp only [Store.exec] at hx
      split_ifs at hx with hup
      obtain ⟨r, hr, rfl⟩ := Option.map_eq_some_iff.mp hx
      exact h.append hup hok hr
  | truncate m =>
      simp only [Store.exec] at hx
      split_ifs at hx with hup
      simp only [Option.some.injEq] at hx
      subst hx
      exact h.truncate hup.1 hup.2.1 hup.2.2
  | commit i crashAt =>
      obtain rfl : crashAt = none := hok
      simp only [Store.exec] at hx
      split_ifs at hx with hup
      simp only [Option.some.injEq] at hx
      subst hx
      exact h.commit hup.1 hup.2.1 hup.2.2.1
  | save =>
      simp only [Store.exec] at hx
      split_ifs at hx with hup
      simp only [Option.some.injEq] at hx
      subst hx
      exact h.same rfl rfl rfl rfl fun _ => (h.threads hup).extends (.of_eq rfl rfl rfl) rfl rfl
  | other r =>
      simp only [Store.exec] at hx
      split_ifs at hx with hup
      simp only [Option.some.injEq] at hx
      subst hx
      exact h.same rfl rfl rfl rfl fun _ => (h.threads hup).extends (.of_eq rfl rfl rfl) rfl rfl
  | call m =>
      simp only [Store.exec] at hx
      split_ifs at hx with hup
      simp only [Option.some.injEq] at hx
      subst hx
      refine h.same rfl rfl rfl rfl fun _ => ⟨?_, fun pc hpc n hn => ?_⟩
      · show (s.node.snapshotThreads ++ [SnapshotPc.enter m]).countP _ = _
        rw [List.countP_append]
        exact (h.threads hup).building
      · rcases List.mem_append.mp hpc with hpc | hpc
        · exact (h.threads hup).target pc hpc n hn
        · rw [List.mem_singleton.mp hpc] at hn
          exact absurd hn (by simp [SnapshotPc.building])
  | thread k =>
      simp only [Store.exec] at hx
      split at hx
      · rename_i pc hup hk
        simp only [Option.some.injEq] at hx
        subst hx
        exact h.thread hup hk
      · exact absurd hx (by simp)
  | crash => exact hok.elim
  | restore crashAt => exact hok.elim

/-- What is committed stays so. -/
theorem LogInv.steps (h : LogInv s) {s' : Store}
    (hrun : Machine.Steps Store.exec Store.Evolves s s') : Continues s s' := by
  induction hrun with
  | refl => exact ⟨h, List.prefix_rfl⟩
  | tail _ hlast ih =>
      obtain ⟨x, hok, hx⟩ := hlast
      have hstep := ih.inv.exec hok hx
      exact ⟨hstep.inv, ih.committed.trans hstep.committed⟩

/-! ### Verdicts -/

variable {term id : ℤ}

theorem LogInv.term_le (h : LogInv s) {i j : ℤ} {e e' : LogEntry} (hij : i < j)
    (he : getLog s.node.raft i = some e) (he' : getLog s.node.raft j = some e') :
    e.term ≤ e'.term := by
  obtain ⟨hlo, hhi, rfl⟩ := getLog_some he
  obtain ⟨hlo', hhi', rfl⟩ := getLog_some he'
  have hsorted : (entriesTo s.node.raft s.node.raft.logCount).Pairwise
      fun e e' => e.term ≤ e'.term := (List.pairwise_append.mp h.sorted).2.1
  rw [entriesTo, List.pairwise_map] at hsorted
  have hrange := List.pairwise_iff_getElem.mp hsorted
    (i - s.node.raft.startLogIndex).toNat (j - s.node.raft.startLogIndex).toNat
    (by simp only [List.length_range]; omega) (by simp only [List.length_range]; omega) (by omega)
  simpa only [List.getElem_range] using hrange

/-- The loop answers that the transaction is lost when the window has no entry
with the tag but a committed one of a later term. -/
theorem LogInv.verdict (h : LogInv s) :
    isEntryCommitted s.node.raft term id = -1 ↔
      ¬ Retained s.node.raft term id ∧ Outdated s.node.raft term :=
  TermsOrdered.verdict_negative fun hij he he' => h.term_le hij he he'

/-- A positive verdict is about a committed entry. -/
theorem LogInv.committed_of_verdict (h : LogInv s)
    (hv : isEntryCommitted s.node.raft term id = 1) : ∃ e ∈ s.committed, e.Tagged term id := by
  obtain ⟨i, e, hd, ht, hi⟩ := isEntryCommitted_eq_one.mp hv
  have hcount := h.shape.count
  refine ⟨e, List.mem_append_right _ ?_, ht⟩
  exact (mem_entriesTo (by omega)).mpr ⟨i, by omega, hd.entry⟩

end Steps

/-- Once a transaction is committed on a server, or a verdict has said so, it
stays committed there, and later verdicts deny it exactly when its entry has
been compacted and a committed entry of a later term is left. -/
theorem verdict_denies_iff {config : Config} {v : Server} {s s' : Store} {term id : ℤ}
    (hrun : Machine.Steps Store.exec Store.Evolves (.init config v) s)
    (hcommitted : isEntryCommitted s.node.raft term id = 1 ∨ ∃ e ∈ s.committed, e.Tagged term id)
    (hlater : Machine.Steps Store.exec Store.Evolves s s') :
    (∃ e ∈ s'.committed, e.Tagged term id) ∧
    (isEntryCommitted s'.node.raft term id ≠ -1 ↔
      Retained s'.node.raft term id ∨ ¬ Outdated s'.node.raft term) := by
  have h := ((logInv_init config v).steps hrun).inv
  have h' := h.steps hlater
  have htagged : ∃ e ∈ s.committed, e.Tagged term id :=
    hcommitted.elim h.committed_of_verdict fun h => h
  obtain ⟨e, he, ht⟩ := htagged
  refine ⟨⟨e, h'.committed.subset he, ht⟩, ?_⟩
  rw [Ne, h'.inv.verdict]
  tauto

instance (s : Store) (x : StoreAction) : Decidable (s.Evolves x) :=
  match x with
  | .append e => inferInstanceAs (Decidable (∀ last ∈ s.fullLog.getLast?, last.term ≤ e.term))
  | .commit _ crashAt => inferInstanceAs (Decidable (crashAt = none))
  | .crash | .restore _ => inferInstanceAs (Decidable False)
  | .truncate _ | .save | .other _ | .call _ | .thread _ => inferInstanceAs (Decidable True)

/-- The entry of a transaction that writes nothing. -/
def taggedEntry (term id : ℤ) : LogEntry := ⟨term, 1, .clientLog, id, 1, []⟩

/-- Two transactions of terms `1` and `2`, both committed. -/
def twoTerms : List StoreAction :=
  [.append (taggedEntry 1 1), .append (taggedEntry 2 1), .commit 1 none]

theorem twoTerms_runs : (Machine.execWhile Store.exec (fun s x => decide (s.Evolves x))
    (.init plainConfig 0) twoTerms).any
      (fun s => decide (isEntryCommitted s.node.raft 1 1 = 1)) = true := by
  decide +kernel

theorem first_verdict_final : ∃ s : Store,
    Machine.Steps Store.exec Store.Evolves (.init plainConfig 0) s ∧
    isEntryCommitted s.node.raft 1 1 = 1 ∧
    (isEntryCommitted s.node.raft 1 1 ≠ -1 ↔
      Retained s.node.raft 1 1 ∨ ¬ Outdated s.node.raft 1) := by
  obtain ⟨s, hrun, hs⟩ := Machine.exists_of_execWhile Store.Evolves
    (fun _ _ h => of_decide_eq_true h) twoTerms_runs
  have hv := of_decide_eq_true hs
  exact ⟨s, hrun, hv, (verdict_denies_iff hrun (Or.inl hv) .refl).2⟩

/-- The log is compacted up to the second transaction. -/
def dropFirst : List StoreAction := .call 1 :: List.replicate 6 (.thread 0)

theorem dropFirst_runs : ((Machine.execWhile Store.exec (fun s x => decide (s.Evolves x))
    (.init plainConfig 0) twoTerms).any fun s =>
      decide (isEntryCommitted s.node.raft 1 1 = 1) &&
      (Machine.execWhile Store.exec (fun s x => decide (s.Evolves x)) s dropFirst).any fun s' =>
        decide (isEntryCommitted s'.node.raft 1 1 = -1)) = true := by
  decide +kernel

/-- A verdict says that a transaction is committed, and a later one that it is
lost. -/
theorem verdict_taken_back : ∃ s s' : Store,
    Machine.Steps Store.exec Store.Evolves (.init plainConfig 0) s ∧
    isEntryCommitted s.node.raft 1 1 = 1 ∧ Machine.Steps Store.exec Store.Evolves s s' ∧
    isEntryCommitted s'.node.raft 1 1 = -1 := by
  obtain ⟨s, hrun, hs⟩ := Machine.exists_of_execWhile Store.Evolves
    (fun _ _ h => of_decide_eq_true h) dropFirst_runs
  rw [Bool.and_eq_true] at hs
  obtain ⟨s', hlater, hs'⟩ := Machine.exists_of_execWhile Store.Evolves
    (fun _ _ h => of_decide_eq_true h) hs.2
  exact ⟨s, s', hrun, of_decide_eq_true hs.1, hlater, of_decide_eq_true hs'⟩

end RaftLock

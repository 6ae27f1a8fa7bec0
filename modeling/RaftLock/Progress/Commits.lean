import Mathlib.Data.Finset.Max
import Mathlib.Data.Prod.Lex
import RaftLock.Progress.Rounds
import RaftLock.Raft.Verdict
import RaftLock.Safety.Quorum

/-!
A majority that runs commits.

The server whose log is not behind any other becomes the leader. It serves the
others one after the other, which makes enough servers for its own entry, and
one more heartbeat each tells them. Whatever was asked about before is decided
then: the new leader's entry has a later term.
-/

namespace RaftLock

open CatchUp Outcome

/-! ### The majority -/

section Majority

variable {config : Config} {w : World} {p : Protocol} {M : Finset Server} {c : Cluster}
  {s q : Server}

/-- A log that starts at `0`, holds what is committed, and no entry of a later
term. -/
structure Fitted (r : RaftState) : Prop where
  start : r.startLogIndex = 0
  commit_ge : -1 ≤ r.commitIndex
  commit_lt : r.commitIndex < r.logCount
  terms : ∀ i, getLogTerm r i ≤ r.currentTerm

theorem AgreeInv.fitted {C : Server → ℤ → Finset Server} (h : AgreeInv config w p C)
    (hun : Unshifted w) (v : Server) : Fitted (w.raft v) := by
  have hholds := h.sim.holds v
  have hcommit := h.known.commit_ge v
  have hknown := (h.known.committed v).le_length h.sim.inv
  have hlength := hholds.length
  refine ⟨hun.start v, hcommit, by omega, fun i => ?_⟩
  rcases getLogTerm_cases (w.raft v) i with ⟨e, he, hterm⟩ | ⟨-, hterm⟩
  · have hle := h.sim.inv.log_le v _ (List.mem_of_getElem? (hholds.entry i e he))
    rw [h.sim.term] at hle
    exact hterm.trans_le hle
  · have := h.sim.nonneg v
    omega

/-- What a run says about the servers that run. -/
theorem confirmed_view (hinj : Function.Injective config) (hvalid : ∀ v, config v ≠ -1)
    (hrun : Cluster.Run config confirmed.allows c) :
    ∃ w p C, AgreeInv config w p C ∧ Unshifted w ∧ InRange w ∧ OwnIds config w ∧
      ∀ v, (c.nodes v).up = true → w.raft v = (c.nodes v).raft := by
  obtain ⟨w, hpath, href⟩ := (refines_init config).steps hrun
  obtain ⟨p, C, hagree, hun, hrange⟩ := confirmed_path hinj hvalid hpath
  exact ⟨w, p, C, hagree, hun, hrange,
    OwnIds.path ⟨fun s => ⟨rfl, rfl⟩, by simp [World.init]⟩ hpath,
    fun v hup => (href.node v).raft_eq hup⟩

theorem SimInv.matching (h : SimInv config w p) (hun : Unshifted w) (s q : Server) :
    Matching ⟨w.raft s, w.raft q⟩ := by
  intro i hlo (hL : i < (w.raft s).logCount) (hF : i < (w.raft q).logCount) hterm
  have hstart := hun.start
  have hmem : ∀ v j, 0 ≤ j → j < (w.raft v).logCount → ∃ e, getLog (w.raft v) j = some e :=
    fun v j hj hj' => ⟨_, getLog_of_mem (by rw [hstart]; exact hj) hj'⟩
  obtain ⟨e, he⟩ := hmem s i hlo hL
  obtain ⟨e', he'⟩ := hmem q i hlo hF
  rw [getLogTerm_eq, getLogTerm_eq, he, he'] at hterm
  have heq := h.logs_match he he' hterm
  refine ⟨Int.add_one_le_of_lt hF, fun j hj hji => ?_⟩
  obtain ⟨x, hx⟩ := hmem s j hj (by omega)
  obtain ⟨x', hx'⟩ := hmem q j hj (by omega)
  have hat := congrArg (·[j.toNat]?) heq
  simp only [List.getElem?_take_of_lt (show j.toNat < i.toNat + 1 by omega),
    (h.holds s).entry j x hx, (h.holds q).entry j x' hx', Option.some.injEq] at hat
  simp only [hx, hx', Option.map_some, hat]

theorem within_noSnapshots (c : Cluster) (x : Action) (h : Within M c x) :
    noSnapshots.allows c x := by
  cases x with
  | deliver k crashAt =>
      intro d hd hinstalls
      have hplain := (h.2 d hd).2.2
      unfold Installs at hinstalls
      cases hp : d.packet with
      | installSnapshot q => exact hplain q hp
      | _ => simp [hp] at hinstalls
  | leaderThread s k => exact fun _ _ => trivial
  | snapshotThread s k crashAt => exact absurd h (by simp [Within])
  | _ => trivial

theorem confirmed_noSnapshots (c : Cluster) (x : Action) (h : confirmed.allows c x) :
    noSnapshots.allows c x := by
  cases x with
  | deliver k crashAt => exact fun d hd => (h d hd).2
  | leaderThread s k => exact fun _ _ => trivial
  | snapshotThread s k crashAt =>
      intro pc hpc
      cases pc with
      | shift n prev => exact h _ hpc
      | _ => trivial
  | _ => trivial

/-- A majority has a member that is not behind any of the others. -/
theorem exists_upToDate (c : Cluster) (hM : M.Nonempty) :
    ∃ s ∈ M, ∀ q ∈ M, upToDate (c.nodes q).raft (voteRequest (c.nodes s).raft) := by
  obtain ⟨s, hs, hmax⟩ := M.exists_max_image (fun q => toLex
    (getLogTerm (c.nodes q).raft ((c.nodes q).raft.logCount - 1), (c.nodes q).raft.logCount - 1)) hM
  refine ⟨s, hs, fun q hq => ?_⟩
  rcases Prod.Lex.toLex_le_toLex.mp (hmax q hq) with hlt | ⟨heq, hle⟩
  · exact Or.inl hlt
  · exact Or.inr ⟨heq.symm, hle⟩

/-- The leader's own entry, in the slot after the last one. -/
def ownEntry (r : RaftState) : LogEntry :=
  { r.log (r.logCount - r.startLogIndex).toNat with
    term := r.currentTerm, nServersReplicated := 1, type := .leaderLog }

/-- The log a new leader goes on with. -/
theorem getLog_elected {r : RaftState} (hlo : r.startLogIndex ≤ r.logCount) (i : ℤ) :
    getLog (elected r) i = if i = r.logCount then some (ownEntry r) else getLog r i := by
  have hcount : (elected r).logCount = r.logCount + 1 := rfl
  have hstart : (elected r).startLogIndex = r.startLogIndex := rfl
  have hlog : (elected r).log =
      Function.update r.log (r.logCount - r.startLogIndex).toNat (ownEntry r) := rfl
  unfold getLog
  rw [hcount, hstart, hlog]
  by_cases hi : i = r.logCount
  · subst hi
    rw [if_neg (by omega), if_pos rfl, Function.update_self]
  · rw [if_neg hi]
    by_cases hout : i < r.startLogIndex ∨ r.logCount ≤ i
    · rw [if_pos (by omega), if_pos hout]
    · rw [if_neg (by omega), if_neg hout, Function.update_of_ne (by omega)]

theorem Won.count {t : ℤ} {c' : Cluster} (h : Won c s t c') :
    (c'.nodes s).raft.logCount = (c.nodes s).raft.logCount + 1 := by
  obtain ⟨k, answers, heq⟩ := h.raft
  rw [heq]
  rfl

/-- A new leader keeps what it had. -/
theorem Won.getLog_eq {t i : ℤ} {e : LogEntry} {c' : Cluster} (h : Won c s t c')
    (hroom : FreeSlot (c.nodes s).raft) (he : getLog (c.nodes s).raft i = some e) :
    getLog (c'.nodes s).raft i = some e := by
  obtain ⟨k, answers, heq⟩ := h.raft
  have hroom' : FreeSlot (standing (c.nodes s).raft t k answers) := hroom
  have hlt : i < (c.nodes s).raft.logCount := (getLog_some he).2.1
  rw [heq, getLog_elected hroom'.1]
  exact (if_neg hlt.ne).trans he

/-- What a new leader starts from. -/
theorem Won.leading {t : ℤ} {c' : Cluster} (h : Won c s t c') (hfit : Fitted (c.nodes s).raft)
    (hroom : (c.nodes s).raft.logCount < (logSize : ℤ))
    (hinj : Function.Injective (c'.nodes s).raft.config)
    (hothers : ∀ f, f ≠ s → f ∈ others (c.nodes s).raft) :
    Leading (c'.nodes s).raft s t c' ∧ Backed 1 (c'.nodes s).raft := by
  obtain ⟨k, answers, heq⟩ := h.raft
  have hstart : (c'.nodes s).raft.startLogIndex = 0 := by
    rw [heq]
    exact hfit.start
  have hcommit : (c'.nodes s).raft.commitIndex = (c.nodes s).raft.commitIndex := by
    rw [heq]
    rfl
  have hfloor := hfit.start
  have hge := hfit.commit_ge
  have hlt := hfit.commit_lt
  have hcount := h.count
  have hfits : (standing (c.nodes s).raft t k answers).startLogIndex ≤
      (standing (c.nodes s).raft t k answers).logCount := by
    show (c.nodes s).raft.startLogIndex ≤ (c.nodes s).raft.logCount
    omega
  have hown : getLog (c'.nodes s).raft (c.nodes s).raft.logCount =
      some (ownEntry (standing (c.nodes s).raft t k answers)) := by
    rw [heq, getLog_elected hfits]
    exact if_pos rfl
  refine ⟨⟨h.up, h.leads.1, h.leads.2, hinj, ⟨hstart, ?_, ?_, ⟨rfl, fun _ => rfl⟩⟩, ?_,
    fun f hf => h.threads f (hothers f hf)⟩, Or.inr ⟨?_, ?_, by decide⟩⟩
  · omega
  · rw [hcommit]
    omega
  · rw [hcount, add_sub_cancel_right, getLogTerm_eq, hown]
    rfl
  · rw [hcount, add_sub_cancel_right, hcommit]
    exact hlt
  · obtain ⟨-, -, hslot⟩ := getLog_some hown
    rw [hcount, add_sub_cancel_right, ← hslot]
    rfl

/-- The others have not got the new leader's entry. -/
theorem Won.awaits {t : ℤ} {c' : Cluster} (h : Won c s t c') (hq : q ∈ M) (hne : q ≠ s)
    (hup : (c.nodes q).up = true) (hfit : Fitted (c.nodes q).raft)
    (hroom : (c.nodes q).raft.logCount < (logSize : ℤ)) (hlt : (c.nodes q).raft.currentTerm < t)
    (hid : (c'.nodes s).raft.config q = (c'.nodes q).raft.id) (hm : Matching (c'.peers s q))
    (hleads : Leading (c'.nodes s).raft s t c') :
    Awaits M (c'.nodes s).raft s q c' := by
  obtain ⟨k, answers, heq⟩ := h.raft
  have hpolled := h.rest q hne
  have hsame := hpolled.same
  have hnext : (c'.peers s q).next = (c'.nodes s).raft.logCount := by
    show (c'.nodes s).raft.nextIndex _ = _
    rw [heq]
    rfl
  have hge := hfit.commit_ge
  have hcommit := hfit.commit_lt
  have hterm := hpolled.term
  rw [max_eq_left hlt.le] at hterm
  have hlog := hleads.log
  refine ⟨⟨hq, hne, hpolled.up hup, ⟨⟨hid, ⟨hlog.start, hsame.start.trans hfit.start⟩, hlog.count,
    ?_, ?_, hlog.commit, ?_, ?_⟩, hlog.log, Or.inl hm⟩⟩, fun ha _ => ?_⟩
  · show 0 ≤ (c'.nodes q).raft.logCount ∧ (c'.nodes q).raft.logCount ≤ _
    rw [hsame.count]
    omega
  · show (c'.nodes q).raft.currentTerm ≤ (c'.nodes s).raft.currentTerm
    rwa [hleads.term]
  · show -1 ≤ (c'.nodes q).raft.commitIndex
    rwa [hsame.commit]
  · rw [hnext]
    exact ⟨hlog.count.1, le_rfl⟩
  · -- an entry of the new term where the leader has its own
    have hold := hfit.terms ((c'.nodes s).raft.logCount - 1)
    have hnew := ha.2
    rw [hnext, getLogTerm_eq (c'.peers s q).follower] at hnew
    simp only [Cluster.peers] at hnew
    rw [hsame.getLog_eq, ← getLogTerm_eq, hleads.own] at hnew
    omega

/-- The leader's log, that of `L`, is committed at every server of `M`. -/
structure Agreed (M : Finset Server) (L : RaftState) (s : Server) (t : ℤ) (c : Cluster) :
    Prop where
  leading : Leading L s t c
  commit : (c.nodes s).raft.commitIndex = L.logCount - 1
  rest : ∀ q ∈ M, q ≠ s → Synced M L s q c ∧ Told L q c

theorem Agreed.knows {L : RaftState} {t : ℤ} (h : Agreed M L s t c) (hq : q ∈ M) :
    (c.nodes q).up = true ∧ L.logCount - 1 ≤ (c.nodes q).raft.commitIndex ∧
      ∀ i, 0 ≤ i → i < L.logCount → (getLog (c.nodes q).raft i).map LogEntry.core =
        (getLog L i).map LogEntry.core := by
  have hlog := h.leading.log.log
  rcases eq_or_ne q s with rfl | hne
  · exact ⟨h.leading.up, h.commit.ge, fun i _ _ => hlog.core i⟩
  · obtain ⟨hsynced, htold⟩ := h.rest q hq hne
    refine ⟨hsynced.member.up, htold, fun i hlo hhi => ?_⟩
    exact (hsynced.agree.2 i hlo hhi).symm.trans (hlog.core i)

/-- The last entry of the leader's log is of its term, and it is everywhere. -/
theorem Agreed.last {L : RaftState} {t : ℤ} (h : Agreed M L s t c) (hpos : 0 < L.logCount)
    (hq : q ∈ M) : ∃ e, getLog (c.nodes q).raft (L.logCount - 1) = some e ∧ e.term = t := by
  have hlog := h.leading.log.log
  have hstart := h.leading.log.start
  have hcount := hlog.count
  have hmem := getLog_of_mem (r := (c.nodes s).raft) (i := L.logCount - 1) (by omega) (by omega)
  have hown := h.leading.own
  rw [hcount, getLogTerm_eq, hmem] at hown
  have hcore := hlog.core (L.logCount - 1)
  rw [hmem, Option.map_some] at hcore
  have heq := (h.knows hq).2.2 (L.logCount - 1) (by omega) (by omega)
  rw [← hcore] at heq
  obtain ⟨e, he, hsame⟩ := Option.map_eq_some_iff.mp heq
  exact ⟨e, he, (congrArg LogEntry.term hsame).trans hown⟩

/-- A leader with a majority behind it commits its log. -/
theorem Leading.agrees {L : RaftState} {t : ℤ} (h : Leading L s t c) (hs : s ∈ M)
    (hM : nServers < M.card * 2) (hpos : 0 < L.logCount)
    (hawaits : ∀ q ∈ M, q ≠ s → Awaits M L s q c) (hbacked : Backed 1 (c.nodes s).raft) :
    ∃ c', Cluster.Steps (Within M) c c' ∧ Agreed M L s t c' := by
  have hnodup : (M.erase s).toList.Nodup := Finset.nodup_toList _
  have hmem : ∀ q, q ∈ (M.erase s).toList ↔ q ≠ s ∧ q ∈ M := fun q =>
    Finset.mem_toList.trans Finset.mem_erase
  obtain ⟨c₁, hsteps₁, hleads₁, hbacked₁, hall₁⟩ := h.serve hs hpos hnodup
    (fun q hq => hawaits q ((hmem q).mp hq).2 ((hmem q).mp hq).1) hbacked
  have hcommit : (c₁.nodes s).raft.commitIndex = L.logCount - 1 := by
    rw [← hleads₁.log.log.count]
    rcases hbacked₁ with hdone | ⟨-, -, hfew⟩
    · exact hdone
    · rw [Finset.length_toList] at hfew
      have := Finset.card_erase_add_one hs
      omega
  obtain ⟨c₂, hsteps₂, hleads₂, hcommit₂, hall₂⟩ := hleads₁.announce hs hpos hnodup hall₁ hcommit
  exact ⟨c₂, hsteps₁.trans hsteps₂, hleads₂, hcommit₂, fun q hq hne =>
    hall₂ q ((hmem q).mpr ⟨hne, hq⟩)⟩

/-- A majority that runs commits the log of one of its servers. -/
theorem majority_commits (hinj : Function.Injective config) (hvalid : ∀ v, config v ≠ -1)
    (hrun : Cluster.Run config confirmed.allows c) (hM : nServers < M.card * 2)
    (hready : ∀ q ∈ M, (c.nodes q).up = true ∧ Stands (c.nodes q).raft ∧
      (c.nodes q).raft.logCount < (logSize : ℤ)) :
    ∃ s ∈ M, ∃ L t c', Cluster.Steps (Within M) c c' ∧ Agreed M L s t c' ∧
      (∀ v, (c.nodes v).raft.currentTerm < t) ∧ 0 < L.logCount ∧
      (c.nodes s).raft.logCount < L.logCount ∧
      ∀ i e, getLog (c.nodes s).raft i = some e → getLog L i = some e := by
  have hcard : 0 < M.card := by
    have : nServers = 5 := rfl
    omega
  obtain ⟨s, hs, hlog⟩ := exists_upToDate c (Finset.card_pos.mp hcard)
  obtain ⟨w, p, C, hagree, hun, -, hids, hview⟩ := confirmed_view hinj hvalid hrun
  have hraft : ∀ q ∈ M, w.raft q = (c.nodes q).raft := fun q hq => hview q (hready q hq).1
  have hfit : ∀ q ∈ M, Fitted (c.nodes q).raft := fun q hq => hraft q hq ▸ hagree.fitted hun q
  have hfits := hfit s hs
  have hroom : FreeSlot (c.nodes s).raft := by
    have hcommit := hfits.commit_ge.trans_lt hfits.commit_lt
    have hcount := (hready s hs).2.2
    have hstart := hfits.start
    exact ⟨by omega, by omega⟩
  obtain ⟨t, c₁, hsteps, hwon, hterms⟩ := majority_elects hinj hids (hraft s hs) hs hM
    (fun q hq => (hready q hq).1) (hready s hs).2.1 hlog hroom
  have hrun₁ : Cluster.Run config noSnapshots.allows c₁ :=
    (Machine.Steps.weaken confirmed_noSnapshots hrun).trans
      (Machine.Steps.weaken within_noSnapshots hsteps)
  obtain ⟨w₁, hpath₁, href₁⟩ := (refines_init config).steps hrun₁
  obtain ⟨p₁, -, hsim₁, hun₁⟩ :=
    (simInv_init config).plain_path hvalid noSnapshots_plain (unshifted_init config) hpath₁
  have hraft₁ : ∀ q ∈ M, w₁.raft q = (c₁.nodes q).raft := by
    intro q hq
    refine (href₁.node q).raft_eq ?_
    rcases eq_or_ne q s with rfl | hne
    · exact hwon.up
    · exact (hwon.rest q hne).up (hready q hq).1
  have hids₁ : ∀ q ∈ M, (c₁.nodes q).raft.config = config ∧ (c₁.nodes q).raft.id = config q :=
    fun q hq => hraft₁ q hq ▸ hsim₁.elect.ids q
  obtain ⟨hleads, hbacked⟩ := hwon.leading hfits (hready s hs).2.2 ((hids₁ s hs).1 ▸ hinj)
    fun f hf => hraft s hs ▸ mem_others_of_ne hinj hids hf
  have hcount := hwon.count
  have hpos : 0 < (c₁.nodes s).raft.logCount := by
    have := hfits.commit_ge
    have := hfits.commit_lt
    omega
  have hawaits : ∀ q ∈ M, q ≠ s → Awaits M (c₁.nodes s).raft s q c₁ := by
    intro q hqM hne
    have hmatching := hsim₁.matching hun₁ s q
    rw [hraft₁ s hs, hraft₁ q hqM] at hmatching
    refine hwon.awaits hqM hne (hready q hqM).1 (hfit q hqM) (hready q hqM).2.2 (hterms q) ?_
      hmatching hleads
    rw [(hids₁ s hs).1, (hids₁ q hqM).2]
  obtain ⟨c₂, hsteps₂, hagreed⟩ := hleads.agrees hs hM hpos hawaits hbacked
  refine ⟨s, hs, (c₁.nodes s).raft, t, c₂, hsteps.trans hsteps₂, hagreed, hterms, hpos, ?_,
    fun i e he => hwon.getLog_eq hroom he⟩
  rw [hcount]
  exact Int.lt_succ _

end Majority

/-- **A majority that runs can commit**: in every run without snapshots in which
answers are taken for what they are, when the servers of a majority run, may
stand and have room for one more entry, one of them can become the leader and
commit its whole log, without a step of any other server. What it had in its
log is committed then, and the others of the majority have the same log. -/
theorem majority_can_commit {config : Config} (hinj : Function.Injective config)
    (hvalid : ∀ v, config v ≠ -1) {c : Cluster} (hrun : Cluster.Run config confirmed.allows c)
    {M : Finset Server} (hM : nServers < M.card * 2)
    (hready : ∀ q ∈ M, (c.nodes q).up = true ∧ Stands (c.nodes q).raft ∧
      (c.nodes q).raft.logCount < (logSize : ℤ)) :
    ∃ s ∈ M, ∃ c', Cluster.Steps (Within M) c c' ∧ (c'.nodes s).raft.state = .leader ∧
      (c'.nodes s).raft.commitIndex = (c'.nodes s).raft.logCount - 1 ∧
      (c.nodes s).raft.logCount < (c'.nodes s).raft.logCount ∧
      (∀ i e, getLog (c.nodes s).raft i = some e →
        (getLog (c'.nodes s).raft i).map LogEntry.core = some e.core) ∧
      ∀ q ∈ M, (c'.nodes q).up = true ∧ ∀ i, 0 ≤ i → i < (c'.nodes s).raft.logCount →
        (getLog (c'.nodes s).raft i).map LogEntry.core =
          (getLog (c'.nodes q).raft i).map LogEntry.core := by
  obtain ⟨s, hs, L, t, c', hsteps, h, -, -, hmore, hkept⟩ :=
    majority_commits hinj hvalid hrun hM hready
  have hlog := h.leading.log.log
  refine ⟨s, hs, c', hsteps, h.leading.state, ?_, ?_, fun i e he => ?_, fun q hq => ?_⟩
  · rw [h.commit, hlog.count]
  · rw [hlog.count]
    exact hmore
  · rw [hlog.core, hkept i e he]
    rfl
  · obtain ⟨hup, -, hagree⟩ := h.knows hq
    refine ⟨hup, fun i hlo hhi => ?_⟩
    rw [hlog.core i, hagree i hlo (by rwa [← hlog.count])]

/-- Two entries have reached servers `1` and `2`, and their leader crashes. -/
def entriesLeft : List Action :=
  firstElection ++ exchange ++ exchange ++ [.append 0 { emptyEntry with id := 5 } none] ++
    exchange ++ [.crash 0]

theorem entriesLeft_runs : ((Cluster.init plainConfig).execWhile
    (fun c x => decide (confirmed.allows c x)) entriesLeft).any
    (fun c => decide ((∀ q ∈ ({1, 2, 3} : Finset Server), (c.nodes q).up = true ∧
      Stands (c.nodes q).raft ∧ (c.nodes q).raft.logCount < (logSize : ℤ)) ∧
      (c.nodes 1).raft.commitIndex + 1 < (c.nodes 1).raft.logCount ∧
      1 ≤ (c.nodes 1).raft.currentTerm ∧ isEntryCommitted (c.nodes 1).raft 1 5 = 0)) = true := by
  decide +kernel

theorem entries_left_can_be_committed : ∃ c, Cluster.Run plainConfig confirmed.allows c ∧
    (c.nodes 1).raft.commitIndex + 1 < (c.nodes 1).raft.logCount ∧
    ∃ s ∈ ({1, 2, 3} : Finset Server), ∃ c', Cluster.Steps (Within {1, 2, 3}) c c' ∧
      (c'.nodes s).raft.state = .leader ∧
      (c'.nodes s).raft.commitIndex = (c'.nodes s).raft.logCount - 1 := by
  obtain ⟨c, hrun, hready⟩ := Machine.exists_of_execWhile confirmed.allows
    (fun _ _ h => of_decide_eq_true h) entriesLeft_runs
  obtain ⟨hready, hmore, -⟩ := of_decide_eq_true hready
  obtain ⟨s, hs, c', hsteps, hleader, hcommit, -⟩ := majority_can_commit (by decide) (by decide)
    hrun (M := {1, 2, 3}) (by decide) hready
  exact ⟨c, hrun, hmore, s, hs, c', hsteps, hleader, hcommit⟩

/-- **Every wait can end**: in such a run and with such a majority, its servers
can come to know of every entry that a server may wait for, whether it is
committed or lost. -/
theorem every_wait_can_end {config : Config} (hinj : Function.Injective config)
    (hvalid : ∀ v, config v ≠ -1) {c : Cluster} (hrun : Cluster.Run config confirmed.allows c)
    {M : Finset Server} (hM : nServers < M.card * 2)
    (hready : ∀ q ∈ M, (c.nodes q).up = true ∧ Stands (c.nodes q).raft ∧
      (c.nodes q).raft.logCount < (logSize : ℤ)) :
    ∃ c', Cluster.Steps (Within M) c c' ∧ ∀ q ∈ M, (c'.nodes q).up = true ∧
      ∀ v term id, term ≤ (c.nodes v).raft.currentTerm →
        isEntryCommitted (c'.nodes q).raft term id ≠ 0 := by
  obtain ⟨s, hs, L, t, c', hsteps, h, hterms, hpos, -⟩ :=
    majority_commits hinj hvalid hrun hM hready
  refine ⟨c', hsteps, fun q hq => ?_⟩
  obtain ⟨hup, hknows, -⟩ := h.knows hq
  obtain ⟨e, he, hterm⟩ := h.last hpos hq
  refine ⟨hup, fun v term id hle => ?_⟩
  -- the new leader's entry stops the loop if nothing before it does
  have hlater : e.Decisive term id := Or.inr (hterm ▸ hle.trans_lt (hterms v))
  rcases isEntryCommitted_cases (c'.nodes q).raft term id with ⟨i, e', hd, heq⟩ | ⟨hnone, -⟩
  · have hi : (c'.nodes q).raft.commitIndex ≥ i := (hd.le he hlater).trans hknows
    rw [heq, verdictOn, if_pos hi]
    split_ifs <;> decide
  · exact absurd hlater (hnone _ e he)

theorem wait_for_lost_leader_can_end : ∃ c, Cluster.Run plainConfig confirmed.allows c ∧
    isEntryCommitted (c.nodes 1).raft 1 5 = 0 ∧ ∃ c', Cluster.Steps (Within {1, 2, 3}) c c' ∧
      isEntryCommitted (c'.nodes 1).raft 1 5 ≠ 0 := by
  obtain ⟨c, hrun, hready⟩ := Machine.exists_of_execWhile confirmed.allows
    (fun _ _ h => of_decide_eq_true h) entriesLeft_runs
  obtain ⟨hready, -, hterm, hwaits⟩ := of_decide_eq_true hready
  obtain ⟨c', hsteps, hall⟩ := every_wait_can_end (by decide) (by decide) hrun (M := {1, 2, 3})
    (by decide) hready
  exact ⟨c, hrun, hwaits, c', hsteps, (hall 1 (by decide)).2 1 1 5 hterm⟩

end RaftLock

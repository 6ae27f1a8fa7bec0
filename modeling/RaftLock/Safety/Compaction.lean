import RaftLock.Recovery.Snapshots
import RaftLock.Safety.Agreement
import RaftLock.Safety.Application
import RaftLock.Transfer.Fields

/-!
Servers that compact their logs, in runs in which no snapshot is sent.

A leader sends entries only, as long as no follower is further behind than the
leader's window. Commit indices then only go forward, the window of every
server begins at an entry that the server has committed and lies in the log
array, and each index up to a commit index is on record as committed.
-/

namespace RaftLock

open Consensus Outcome

/-- The leader's window reaches back to the entry the follower is sent next. -/
def InWindow (r : RaftState) (t : LeaderThread) : Prop :=
  r.state = .leader → r.startLogIndex ≤ r.nextIndex (r.config t.follower)

/-- Runs in which an answer is taken for what it is, a voter knows its last
entry, no commit index is moved back and no snapshot is sent. -/
abbrev compacting : Guard where
  packet _ r d := Confirms r d ∧ VoterKnows r d ∧ Forward r d
  sender := InWindow
  shift _ _ := True

/-- The same, with what the first critical section of `Raft_create_snapshot`
has tested still true in the second. -/
abbrev targeted : Guard := { compacting with shift := Target }

/-- The window begins at a committed entry and lies in the array, and no
snapshot is being installed. -/
structure Windowed (r : RaftState) : Prop where
  start : r.startLogIndex ≤ r.commitIndex + 1
  room : r.logCount ≤ r.startLogIndex + (logSize : ℤ)
  free : r.installSnapshotId = -1

structure Compacts (w : World) : Prop where
  window : ∀ s, Windowed (w.raft s)
  idle : ∀ s, ∀ t ∈ w.threads s, t.pc = .idle
  net : ∀ d ∈ w.net, ∀ q, d.packet ≠ .installSnapshot q
  recorded : ∀ s i, 0 ≤ i → i ≤ (w.raft s).commitIndex → ∃ x ∈ w.commits, x.2.1 = i

section Sections

variable {r r' : RaftState} {es : List Effect} {d : Datagram}

theorem Windowed.of_eq (h : Windowed r) (hstart : r'.startLogIndex = r.startLogIndex)
    (hcount : r'.logCount = r.logCount) (hcommit : r'.commitIndex = r.commitIndex)
    (hfree : r'.installSnapshotId = -1) : Windowed r' :=
  ⟨by rw [hstart, hcommit]; exact h.start, by rw [hstart, hcount]; exact h.room, hfree⟩

theorem convertToFollower_free (h : r.installSnapshotId = -1) (t : ℤ) :
    (convertToFollower r t).raft.installSnapshotId = -1 := by
  unfold convertToFollower
  simp only
  split_ifs
  · rfl
  · exact h

/-- An entry is written to a free slot or over another one. -/
theorem Handled.room (hh : Handled r d.src d.packet r' es)
    (hno : ∀ q, d.packet ≠ .installSnapshot q)
    (h : r.logCount ≤ r.startLogIndex + (logSize : ℤ)) :
    r'.logCount ≤ r.startLogIndex + (logSize : ℤ) := by
  obtain ⟨pk, hp⟩ : ∃ pk, d.packet = pk := ⟨_, rfl⟩
  rw [hp] at hh
  cases hh with
  | entryStored q hterm hc hn hlo hhi hroom =>
      simp only [stored, storedCount]
      split_ifs <;> omega
  | voteDecided q hterm hstate hs hmany hlo hroom r' hr' =>
      subst hr'
      simp only [elected, noted]
      omega
  | installRefused q | installChunk q | installDone q => exact absurd hp (hno q)
  | installAnswered _ _ _ _ _ r' hr' => exact hr' ▸ h
  | appendAnswered _ _ _ _ _ _ _ r' hr' => exact hr' ▸ h
  | entryAnswered _ _ _ _ _ _ _ _ r' hr' => exact hr' ▸ h
  | entryCounted _ _ _ _ _ _ _ _ _ _ _ _ _ r' hr' => exact hr' ▸ h
  | _ => exact h

/-- A handler of a packet other than an InstallSnapshot request. -/
theorem Handled.windowed (hh : Handled r d.src d.packet r' es) (h : Windowed r)
    (hfwd : Forward r d) (hno : ∀ q, d.packet ≠ .installSnapshot q) :
    Windowed r' ∧ CommitsThrough r r' es := by
  have hinstalls : ¬ Installs r d := by
    obtain ⟨pk, hp⟩ : ∃ pk, d.packet = pk := ⟨_, rfl⟩
    cases pk with
    | installSnapshot q => exact absurd hp (hno q)
    | _ => simp [Installs, hp]
  have hadv := hh.advances hfwd hinstalls
  have hstart := (hh.unshifted hinstalls).1
  have hbegin := h.start
  have hle := hadv.le
  refine ⟨⟨by omega, by rw [hstart]; exact hh.room hno h.room, ?_⟩, hadv⟩
  have ht := hh.transfers
  generalize d.packet = pk at ht hno
  cases ht with
  | keeps _ _ hkeeps => exact hkeeps.id.trans h.free
  | chunk q | done q => exact absurd rfl (hno q)

end Sections

section Compacts

variable {config : Config} {w w' : World} {p p' : Protocol} {C C' : Server → ℤ → Finset Server}
  {s : Server} {r' : RaftState} {es : List Effect}

theorem compacts_init (config : Config) : Compacts (World.init config) where
  window s := ⟨by simp [World.init, serverInit], by simp [World.init, serverInit], rfl⟩
  idle s t ht := absurd ht (by simp [World.init])
  net d hd := absurd hd (by simp [World.init])
  recorded s i h0 hi := by
    simp only [World.init, serverInit] at hi
    omega

theorem Compacts.update (h : Compacts w) (hraft : w'.raft = Function.update w.raft s r')
    (hr' : Windowed r') (hthreads : ∀ v, ∀ t ∈ w'.threads v, t ∈ w.threads v ∨ t.pc = .idle)
    (hnet : ∀ d ∈ w'.net, d ∈ w.net ∨ ∀ q, d.packet ≠ .installSnapshot q)
    (hcommits : ∀ x ∈ w.commits, x ∈ w'.commits)
    (hrecorded : ∀ i, (w.raft s).commitIndex < i → i ≤ r'.commitIndex →
      ∃ x ∈ w'.commits, x.2.1 = i) : Compacts w' where
  window v := by
    rw [hraft, Function.update_apply]
    split
    · exact hr'
    · exact h.window v
  idle v t ht := (hthreads v t ht).elim (h.idle v t) id
  net d hd := (hnet d hd).elim (h.net d) id
  recorded v i h0 hi := by
    have hold : i ≤ (w.raft v).commitIndex → ∃ x ∈ w'.commits, x.2.1 = i := fun hle => by
      obtain ⟨x, hx, heq⟩ := h.recorded v i h0 hle
      exact ⟨x, hcommits x hx, heq⟩
    rw [hraft, Function.update_apply] at hi
    split at hi
    · rename_i hv
      subst hv
      rcases le_or_gt i (w.raft v).commitIndex with hle | hlt
      · exact hold hle
      · exact hrecorded i hlt hi
    · exact hold hi

/-- A step that leaves the commit index as it is. -/
theorem Compacts.keeps (h : Compacts w) (hraft : w'.raft = Function.update w.raft s r')
    (hr' : Windowed r') (hthreads : ∀ v, ∀ t ∈ w'.threads v, t ∈ w.threads v ∨ t.pc = .idle)
    (hnet : ∀ d ∈ w'.net, d ∈ w.net ∨ ∀ q, d.packet ≠ .installSnapshot q)
    (hcommits : ∀ x ∈ w.commits, x ∈ w'.commits)
    (hcommit : r'.commitIndex = (w.raft s).commitIndex) : Compacts w' :=
  h.update hraft hr' hthreads hnet hcommits fun i hlo hhi => by omega

theorem Compacts.restarted (h : Compacts w) {st : RaftState} (hst : Agrees st (w.raft s))
    (hraft : w'.raft = Function.update w.raft s (forget st))
    (hthreads : w'.threads = Function.update w.threads s []) (hnet : w'.net = w.net)
    (hcommits : ∀ x ∈ w.commits, x ∈ w'.commits) : Compacts w' := by
  refine h.keeps hraft ((h.window s).of_eq hst.startLogIndex hst.logCount hst.commitIndex rfl)
    (fun v t ht => ?_) (fun d hd => Or.inl (hnet ▸ hd)) hcommits hst.commitIndex
  rw [hthreads, Function.update_apply] at ht
  split at ht
  · exact absurd ht (by simp)
  · exact Or.inl ht

/-- An answer is no InstallSnapshot request. -/
theorem Handled.answers {d x : Datagram} (hh : Handled (w.raft d.dst) d.src d.packet r' es)
    {answers : Option Packet} (hx : x ∈ es.filterMap (Cluster.sentBy s answers)) :
    ∀ q, x.packet ≠ .installSnapshot q := by
  intro q hq
  obtain ⟨-, -, hsent⟩ := Cluster.mem_sentBy hx
  rw [hq] at hsent
  obtain ⟨pk, hp⟩ : ∃ pk, d.packet = pk := ⟨_, rfl⟩
  rw [hp] at hh
  cases hh with
  | voteRefused _ _ es _ hes => rcases hes with rfl | rfl <;> simp [reply] at hsent
  | installDone _ _ _ _ es hes => rcases hes with rfl | rfl <;> simp [reply] at hsent
  | heartbeat | entryStored | entryCounted =>
      rcases List.mem_append.mp hsent with hsent | hsent
      · obtain ⟨t, -, ht⟩ := List.mem_map.mp hsent
        exact absurd ht (by simp [Effect.ofTurn])
      · simp [reply] at hsent
  | _ => simp [reply] at hsent

theorem Compacts.handle (h : Compacts w) {a b : List Datagram} {d : Datagram}
    (hnet : w.net = a ++ d :: b) (hfwd : Forward (w.raft d.dst) d)
    (hh : Handled (w.raft d.dst) d.src d.packet r' es) :
    Compacts ({ w with net := a ++ b }.settle d.dst r' es (some d.packet)) := by
  obtain ⟨hwindow, hadv⟩ := hh.windowed (h.window d.dst) hfwd (h.net d (by simp [hnet]))
  refine h.update (s := d.dst) rfl hwindow
    (fun v t ht => mem_settle_threads (w := { w with net := a ++ b }) ht)
    (fun x hx => ?_) (fun x hx => List.mem_append_left _ hx) fun i hlo hhi => ?_
  · rcases List.mem_append.mp hx with hold | hnew
    · exact Or.inl (mem_handle_net hnet hold)
    · exact Or.inr (hh.answers hnew)
  · -- the loop of `Raft_commit_update` has come by the index
    have hmem : i ∈ (turnsOf es).map Prod.fst := by
      rw [hadv.indices]
      refine List.mem_map.mpr ⟨(i - (w.raft d.dst).commitIndex - 1).toNat, ?_, by omega⟩
      rw [List.mem_range]
      omega
    obtain ⟨x, hx, rfl⟩ := List.mem_map.mp hmem
    refine ⟨(d.dst, x), List.mem_append_right _ ?_, rfl⟩
    rw [filterMap_committedBy]
    exact List.mem_map.mpr ⟨x, hx, rfl⟩

/-- A leader thread of an idle leader sends append requests and nothing else. -/
theorem Compacts.sends (h : Compacts w) {t : LeaderThread} {pc : Option LeaderPc}
    (ht : t ∈ w.threads s) (hin : InWindow (w.raft s) t) (hs : Sends (w.raft s) t r' es pc) :
    r' = w.raft s ∧ (∀ z, pc = some z → z = .idle) ∧
      ∀ q, ∀ dst, .send dst (.installSnapshot q) ∉ es := by
  have hidle := h.idle s t ht
  have hno : ¬ Entering (w.raft s) t := by
    rintro (hpc | ⟨-, hl, hlt⟩)
    · rw [hidle] at hpc
      exact absurd hpc (by simp)
    · exact absurd (hin hl) (not_le.mpr hlt)
  cases hs with
  | stop | heartbeat | entry => exact ⟨rfl, by simp, by simp⟩
  | wait hpc | first hpc => exact absurd hpc hno
  | next q _ it _ hpc | giveUp q it hpc | finish q it hpc =>
      rw [hidle] at hpc
      exact absurd hpc (by simp)

theorem Compacts.step (h : Compacts w) {v : Option (Server × ℤ × Server)}
    (hstep : World.Step targeted w v w') : Compacts w' := by
  cases hstep with
  | stepDown s t ht =>
      have hf := convertToFollower_follows (w.raft s) t
      exact h.keeps (s := s) rfl ((h.window s).of_eq hf.startLogIndex hf.logCount hf.commitIndex
        (convertToFollower_free (h.window s).free t)) (fun v t ht => Or.inl ht)
        (fun d hd => Or.inl hd) (fun x hx => hx) hf.commitIndex
  | campaign s =>
      refine h.keeps (s := s) rfl ((h.window s).of_eq rfl rfl rfl (h.window s).free)
        (fun v t ht => mem_settle_threads ht)
        (fun d hd => (mem_settle_net hd).imp id fun hnew => ?_)
        (fun x hx => List.mem_append_left _ hx) rfl
      obtain ⟨q, hp⟩ := attemptToElect_sent hnew
      simp [hp]
  | handle a b d r' es hnet hle hpass hh => exact h.handle hnet hpass.2.2 hh
  | turns d l hd hpass hl =>
      exact h.restarted (s := d.dst) (Agrees.refl _) rfl rfl rfl
        fun x hx => List.mem_append_left _ hx
  | lose net hsub => exact ⟨h.window, h.idle, fun d hd => h.net d (hsub.subset hd), h.recorded⟩
  | append s e hf =>
      have hroom := (h.window s).room
      rcases appendEntry_ok hf with heq | ⟨r', heq, -, -, hfree, hr'⟩
      · rw [heq]
        exact h.keeps (s := s) rfl (h.window s) (fun v t ht => mem_settle_threads ht)
          (fun d hd => Or.inl (by simpa [World.settle, ret] using hd))
          (fun x hx => List.mem_append_left _ hx) rfl
      · rw [heq, hr']
        refine h.keeps (s := s) rfl ⟨(h.window s).start, ?_, (h.window s).free⟩
          (fun v t ht => mem_settle_threads ht)
          (fun d hd => Or.inl (by simpa [World.settle, saveState, emit, Cluster.sentBy] using hd))
          (fun x hx => List.mem_append_left _ hx) rfl
        simp only [saveState, emit]
        omega
  | sender s a b t r' es pc ht hpass hs =>
      obtain ⟨rfl, hpc, hsent⟩ := h.sends (by simp [ht]) hpass hs
      refine h.keeps (s := s) rfl (h.window s) (fun v y hy => ?_)
        (fun d hd => (mem_settle_net hd).imp id fun hnew q hq => ?_)
        (fun x hx => List.mem_append_left _ hx) rfl
      · rcases mem_settle_sender ht hy with hy | hidle | ⟨-, z, hz, rfl⟩
        · exact Or.inl hy
        · exact Or.inr hidle
        · exact Or.inr (hpc z hz)
      · have hmem := (Cluster.mem_sentBy hnew).2.2
        rw [hq] at hmem
        exact hsent _ _ hmem
  | enter s n r' he =>
      obtain ⟨-, rfl⟩ := createSnapshotEnter_some he
      exact h.keeps (s := s) rfl ((h.window s).of_eq rfl rfl rfl (h.window s).free)
        (fun v t ht => Or.inl ht) (fun d hd => Or.inl hd) (fun x hx => hx) rfl
  | shift s n hn hpass hf =>
      obtain ⟨-, heq⟩ := createSnapshotShift_ok hf
      have hlt := hpass.start
      have hroom := (h.window s).room
      rw [heq]
      refine h.keeps (s := s) rfl ⟨hpass.commit, ?_, (h.window s).free⟩
        (fun v t ht => mem_settle_threads ht)
        (fun d hd => Or.inl (by simpa [World.settle, saveState, emit, Cluster.sentBy] using hd))
        (fun x hx => List.mem_append_left _ hx) rfl
      simp only [saveState, emit]
      omega
  | crash s st hst => exact h.restarted (s := s) hst rfl rfl rfl fun x hx => hx
  | replay s l hl =>
      refine ⟨h.window, h.idle, h.net, fun v i h0 hi => ?_⟩
      obtain ⟨x, hx, heq⟩ := h.recorded v i h0 hi
      exact ⟨x, List.mem_append_left _ hx, heq⟩

/-- No step moves a commit index back. -/
theorem Compacts.commit_le (h : Compacts w) {v : Option (Server × ℤ × Server)}
    (hstep : World.Step targeted w v w') (s : Server) :
    (w.raft s).commitIndex ≤ (w'.raft s).commitIndex := by
  have hupdate : ∀ (s' : Server) (r' : RaftState), w'.raft = Function.update w.raft s' r' →
      (w.raft s').commitIndex ≤ r'.commitIndex →
      (w.raft s).commitIndex ≤ (w'.raft s).commitIndex := by
    intro s' r' hraft hle
    rw [hraft, Function.update_apply]
    split
    · rename_i hs
      exact hs ▸ hle
    · exact le_rfl
  cases hstep with
  | stepDown s' t ht =>
      exact hupdate s' _ rfl (convertToFollower_follows (w.raft s') t).commitIndex.ge
  | campaign s' => exact hupdate s' _ rfl le_rfl
  | handle a b d r' es hnet hle hpass hh =>
      exact hupdate d.dst r' rfl
        (hh.windowed (h.window d.dst) hpass.2.2 (h.net d (by simp [hnet]))).2.le
  | turns d l hd hpass hl => exact hupdate d.dst _ rfl le_rfl
  | lose net hsub => exact le_rfl
  | append s' e hf =>
      refine hupdate s' _ rfl ?_
      rcases appendEntry_ok hf with heq | ⟨r', heq, -, -, -, hr'⟩
      · rw [heq]
        exact le_rfl
      · rw [heq, hr']
        exact le_rfl
  | sender s' a b t r' es pc ht hpass hs => exact hupdate s' r' rfl hs.keeps_log.2.2.2.ge
  | enter s' n r' he =>
      obtain ⟨-, rfl⟩ := createSnapshotEnter_some he
      exact hupdate s' _ rfl le_rfl
  | shift s' n hn hpass hf =>
      obtain ⟨-, heq⟩ := createSnapshotShift_ok hf
      refine hupdate s' _ rfl ?_
      rw [heq]
      exact le_rfl
  | crash s' st hst => exact hupdate s' _ rfl hst.commitIndex.ge
  | replay s' l hl => exact le_rfl

theorem Compacts.guarded (h : Compacts w) (hk : Known w p) : Guarded targeted w p where
  vote d _ q hp hterm hfree hup hpass := by
    have := hpass.2.1
    simp only [VoterKnows, hp] at this
    exact this hterm hfree hup
  done d hd q hp := absurd hp (h.net d hd q)
  shift s n hn _ := hk.opened s n hn
  sender s t ht _ hpc := by
    rw [h.idle s t ht] at hpc
    exact absurd hpc (by simp)

theorem Compacts.path (hinj : Function.Injective config) (hvalid : ∀ v, config v ≠ -1)
    (h : Compacts w) (hinv : AgreeInv config w p C) (hpath : World.Path targeted w w') :
    ∃ p' C', Proto.Steps LogEntry.term p p' ∧ AgreeInv config w' p' C' ∧ Compacts w' ∧
      ∀ s, (w.raft s).commitIndex ≤ (w'.raft s).commitIndex := by
  induction hpath with
  | refl => exact ⟨p, C, .refl, hinv, h, fun _ => le_rfl⟩
  | tail _ hstep ih =>
      obtain ⟨p₁, C₁, hs₁, hinv₁, h₁, hle₁⟩ := ih
      obtain ⟨v, hstep⟩ := hstep
      obtain ⟨p', C', hs, hinv'⟩ := hinv₁.step hinj hvalid (fun _ _ hk => h₁.guarded hk)
        (fun hpass => hpass.1) (fun s t ht _ _ hfin => by
          simp [Finishes, h₁.idle s t ht] at hfin) hstep
      exact ⟨p', C', hs₁.trans hs, hinv', h₁.step hstep,
        fun s => (hle₁ s).trans (h₁.commit_le hstep s)⟩

theorem Compacts.shape (h : Compacts w) (hinv : AgreeInv config w p C) (s : Server) :
    Shape (w.raft s) := by
  have hlen := (hinv.sim.holds s).length
  have hcount := (hinv.known.committed s).le_length hinv.sim.inv
  exact ⟨(h.window s).start, by omega, (h.window s).room⟩

end Compacts

end RaftLock

import RaftLock.Safety.Simulation

/-!
Log matching, in runs without snapshots.

As long as nobody takes or installs a snapshot, every window starts at index
`0`, and a leader thread that has come to wait for a snapshot waits for ever.
The conditions of `Guarded` then hold by themselves, so the servers follow the
protocol, where two logs that have an entry of one term at one place agree up
to it.
-/

namespace RaftLock

open Consensus Outcome

/-! ### Runs without snapshots -/

/-- The closing request of a transfer, accepted. -/
def Installs (r : RaftState) (d : Datagram) : Prop :=
  match d.packet with
  | .installSnapshot q => installable r q ∧ q.done = true
  | _ => False

instance (r : RaftState) : (d : Datagram) → Decidable (Installs r d)
  | ⟨_, _, .installSnapshot _, _⟩ => inferInstanceAs (Decidable (_ ∧ _))
  | ⟨_, _, .append _, _⟩ | ⟨_, _, .vote _, _⟩ | ⟨_, _, .response _, _⟩ => .isFalse id

/-- A restriction under which no server takes or installs a snapshot. -/
structure Guard.Plain (g : Guard) : Prop where
  packet : ∀ {l r d}, g.packet l r d → ¬ Installs r d
  shift : ∀ {r n}, ¬ g.shift r n

structure Unshifted (w : World) : Prop where
  start : ∀ s, (w.raft s).startLogIndex = 0
  waiting : ∀ s, ∀ t ∈ w.threads s, t.pc = .waiting → (w.raft s).snapshotInProgress = true

section Unshifted

variable {g : Guard} {w w' : World} {s : Server} {r' : RaftState}

theorem Unshifted.update (h : Unshifted w) (hraft : w'.raft = Function.update w.raft s r')
    (hstart : r'.startLogIndex = (w.raft s).startLogIndex)
    (hbusy : ∀ t ∈ w'.threads s, t.pc = .waiting →
      (w.raft s).snapshotInProgress = true → r'.snapshotInProgress = true)
    (hthreads : ∀ v, ∀ t ∈ w'.threads v, t ∈ w.threads v ∨
      (t.pc = .waiting → (w.raft v).snapshotInProgress = true)) : Unshifted w' := by
  refine ⟨fun v => ?_, fun v t ht hpc => ?_⟩
  · by_cases hv : v = s
    · subst hv
      rw [hraft, Function.update_self, hstart]
      exact h.start v
    · rw [hraft, Function.update_of_ne hv]
      exact h.start v
  · have hold : (w.raft v).snapshotInProgress = true := by
      rcases hthreads v t ht with hmem | hnew
      · exact h.waiting v t hmem hpc
      · exact hnew hpc
    by_cases hv : v = s
    · subst hv
      rw [hraft, Function.update_self]
      exact hbusy t ht hpc hold
    · rw [hraft, Function.update_of_ne hv]
      exact hold

theorem Unshifted.settle (h : Unshifted w) {es : List Effect} {answers : Option Packet}
    {net : List Datagram} (hstart : r'.startLogIndex = (w.raft s).startLogIndex)
    (hbusy : (w.raft s).snapshotInProgress = true → r'.snapshotInProgress = true) :
    Unshifted ({ w with net }.settle s r' es answers) :=
  h.update (s := s) rfl hstart (fun _ _ _ => hbusy) fun _ _ ht =>
    (mem_settle_threads ht).imp id fun hidle hpc => by
      rw [hidle] at hpc
      exact absurd hpc (by simp)

/-- A handler that does not close a transfer leaves the window where it is. -/
theorem Handled.unshifted {r : RaftState} {d : Datagram} {es : List Effect}
    (h : Handled r d.src d.packet r' es) (hno : ¬ Installs r d) :
    r'.startLogIndex = r.startLogIndex ∧
      (r.snapshotInProgress = true → r'.snapshotInProgress = true) := by
  obtain ⟨pk, hp⟩ : ∃ pk, d.packet = pk := ⟨_, rfl⟩
  rw [hp] at h
  cases h with
  | installDone q hterm hi hd es hes =>
      refine absurd ?_ hno
      simp only [Installs, hp]
      exact ⟨hi, hd⟩
  | installChunk q hterm hi hd r' hr' =>
      subst hr'
      exact ⟨rfl, fun _ => rfl⟩
  | voteDecided q hterm hstate hs hmany hlo hroom r' hr' =>
      subst hr'
      exact ⟨rfl, id⟩
  | installAnswered q hterm hstate hid hnext r' hr' =>
      subst hr'
      exact ⟨rfl, id⟩
  | appendAnswered q hterm hstate hid hnext next hans r' hr' =>
      subst hr'
      exact ⟨rfl, id⟩
  | entryAnswered q hterm hstate hid hnext hlt hs hskip r' hr' =>
      subst hr'
      exact ⟨rfl, id⟩
  | entryCounted q hterm hstate hid hnext hlt hs hnew hown hroom n hn hcommit r' hr' =>
      subst hr'
      exact ⟨rfl, id⟩
  | _ => exact ⟨rfl, id⟩

theorem Unshifted.restarted (h : Unshifted w) {st : RaftState} (hst : Agrees st (w.raft s))
    (hraft : w'.raft = Function.update w.raft s (forget st))
    (hthreads : w'.threads = Function.update w.threads s []) : Unshifted w' := by
  refine h.update (s := s) hraft hst.startLogIndex
    (fun t ht => absurd ht (by simp [hthreads])) fun v t ht => ?_
  rw [hthreads] at ht
  by_cases hv : v = s
  · subst hv
    exact absurd ht (by simp)
  · exact Or.inl (by simpa [hv] using ht)

theorem Unshifted.step (hg : g.Plain) (h : Unshifted w) {v : Option (Server × ℤ × Server)}
    (hstep : World.Step g w v w') : Unshifted w' := by
  cases hstep with
  | stepDown s t ht =>
      have hf := convertToFollower_follows (w.raft s) t
      exact h.update (s := s) rfl hf.startLogIndex
        (fun _ _ _ hb => by rw [hf.snapshotInProgress]; exact hb) fun v t ht => Or.inl ht
  | campaign s => exact h.settle rfl id
  | handle a b d r' es hnet hle hpass hh =>
      obtain ⟨hstart, hbusy⟩ := hh.unshifted (hg.packet hpass)
      exact h.settle hstart hbusy
  | turns d l hd hpass hl => exact h.restarted (Agrees.refl _) rfl rfl
  | lose net hsub => exact ⟨h.start, h.waiting⟩
  | append s e hf =>
      rcases appendEntry_ok hf with heq | ⟨r', heq, -, -, -, hr'⟩
      · rw [heq]
        exact h.settle rfl id
      · rw [heq, hr']
        exact h.settle rfl id
  | sender s a b t r' es pc ht hpass hs =>
      have hbusy : r'.snapshotInProgress = (w.raft s).snapshotInProgress := by cases hs <;> rfl
      refine h.update (s := s) rfl hs.keeps_log.1 (fun _ _ _ hb => by rw [hbusy]; exact hb) ?_
      intro v y hy
      rcases mem_settle_sender ht hy with hy | hidle | ⟨rfl, z, hz, rfl⟩
      · exact Or.inl hy
      · exact Or.inr fun hpc => absurd hidle (by simp [hpc])
      · -- a thread starts to wait only for a snapshot in progress
        right
        rintro rfl
        cases hs with
        | wait _ hb => exact hb
        | _ => exact absurd hz (by simp)
  | enter s n r' he =>
      obtain ⟨-, rfl⟩ := createSnapshotEnter_some he
      exact h.update (s := s) rfl rfl (fun _ _ _ _ => rfl) fun v t ht => Or.inl ht
  | shift s n hn hpass hf => exact absurd hpass hg.shift
  | crash s st hst => exact h.restarted hst rfl rfl
  | replay s l hl => exact ⟨h.start, h.waiting⟩

theorem unshifted_init (config : Config) : Unshifted (World.init config) where
  start _ := rfl
  waiting s t ht := absurd ht (by simp [World.init])

theorem Unshifted.guarded (hg : g.Plain) (h : Unshifted w) (p : Protocol) : Guarded g w p where
  vote d _ _ _ _ _ _ _ := Or.inr (h.start d.dst)
  done d _ q hp _ hi hd hpass := absurd (by simpa [Installs, hp] using ⟨hi, hd⟩) (hg.packet hpass)
  shift _ _ _ hpass := absurd hpass hg.shift
  sender s t ht _ hpc hfree := by
    rw [h.waiting s t ht hpc] at hfree
    exact absurd hfree (by simp)

/-- Without snapshots the servers follow the protocol. -/
theorem SimInv.plain_path {config : Config} {p : Protocol} (hvalid : ∀ v, config v ≠ -1)
    (hg : g.Plain) (h : SimInv config w p) (hun : Unshifted w) (hpath : World.Path g w w') :
    ∃ p', Proto.Steps LogEntry.term p p' ∧ SimInv config w' p' ∧ Unshifted w' := by
  induction hpath with
  | refl => exact ⟨p, .refl, h, hun⟩
  | tail _ hstep ih =>
      obtain ⟨p₁, hsteps, h₁, hun₁⟩ := ih
      obtain ⟨v, hstep⟩ := hstep
      obtain ⟨p₂, hlast, -, h₂⟩ := h₁.step hvalid (hun₁.guarded hg p₁) hstep
      exact ⟨p₂, hsteps.trans hlast, h₂, hun₁.step hg hstep⟩

end Unshifted

/-! ### Log matching -/

/-- Runs in which no server takes or installs a snapshot. -/
abbrev noSnapshots : Guard where
  packet _ r d := ¬ Installs r d
  sender _ _ := True
  shift _ _ := False

theorem noSnapshots_plain : noSnapshots.Plain := ⟨id, id⟩

theorem SimInv.logs_match {config : Config} {w : World} {p : Protocol} (h : SimInv config w p)
    {s v : Server} {i : ℤ} {e e' : LogEntry} (he : getLog (w.raft s) i = some e)
    (he' : getLog (w.raft v) i = some e') (hterm : e.term = e'.term) :
    (p.log s).take (i.toNat + 1) = (p.log v).take (i.toNat + 1) :=
  matched_take_eq (h.inv.log_matched s) (h.inv.log_matched v) ((h.holds s).entry i e he)
    ((h.holds v).entry i e' he') hterm

/-- Two servers whose logs have entries of one term at index `i` have the same
entries at every index up to `i`. -/
theorem logs_agree_up_to {config : Config} (hvalid : ∀ s, config s ≠ -1) {c : Cluster}
    (hrun : Cluster.Run config noSnapshots.allows c) {s v : Server} {i : ℤ} {e e' : LogEntry}
    (he : getLog (c.nodes s).view i = some e) (he' : getLog (c.nodes v).view i = some e')
    (hterm : e.term = e'.term) {j : ℤ} (hj : 0 ≤ j) (hji : j ≤ i) :
    ∃ x x', getLog (c.nodes s).view j = some x ∧ getLog (c.nodes v).view j = some x' ∧
      x.core = x'.core := by
  obtain ⟨w, hpath, href⟩ := (refines_init config).steps hrun
  obtain ⟨p, -, hsim, hun⟩ :=
    (simInv_init config).plain_path hvalid noSnapshots_plain (unshifted_init config) hpath
  rw [← (href.node s).view] at he ⊢
  rw [← (href.node v).view] at he' ⊢
  have hs := hsim.holds s
  have hv := hsim.holds v
  have hle := (getLog_some he).2.1
  have hle' := (getLog_some he').2.1
  have hx := getLog_of_mem (r := w.raft s) (i := j) (by rw [hun.start]; exact hj) (by omega)
  have hx' := getLog_of_mem (r := w.raft v) (i := j) (by rw [hun.start]; exact hj) (by omega)
  refine ⟨_, _, hx, hx', ?_⟩
  have heq := congrArg (·[j.toNat]?) (hsim.logs_match he he' hterm)
  simp only [List.getElem?_take_of_lt (show j.toNat < i.toNat + 1 by omega), hs.entry j _ hx,
    hv.entry j _ hx', Option.some.injEq] at heq
  exact heq

/-- The leader's entry and one client entry reach servers `1` and `2`. -/
def firstEntries : List Action :=
  firstElection ++ exchange ++ exchange ++ [.append 0 emptyEntry none] ++ exchange

/-- Servers `s` and `v` have entries of one term at index `i`. -/
def sameTermAt (c : Cluster) (s v : Server) (i : ℤ) : Bool :=
  match getLog (c.nodes s).view i, getLog (c.nodes v).view i with
  | some e, some e' => decide (e.term = e'.term)
  | _, _ => false

theorem firstEntries_runs : ((Cluster.init plainConfig).execWhile
    (fun c x => decide (noSnapshots.allows c x)) firstEntries).any
    (fun c => sameTermAt c 0 1 1) = true := by
  decide +kernel

theorem first_entries_agree : ∃ c, Cluster.Run plainConfig noSnapshots.allows c ∧
    sameTermAt c 0 1 1 = true ∧ ∃ x x', getLog (c.nodes 0).view 0 = some x ∧
      getLog (c.nodes 1).view 0 = some x' ∧ x.core = x'.core := by
  obtain ⟨c, hrun, hsame⟩ := Machine.exists_of_execWhile noSnapshots.allows
    (fun _ _ h => of_decide_eq_true h) firstEntries_runs
  refine ⟨c, hrun, hsame, ?_⟩
  unfold sameTermAt at hsame
  cases he : getLog (c.nodes 0).view 1 with
  | none => simp [he] at hsame
  | some e =>
      cases he' : getLog (c.nodes 1).view 1 with
      | none => simp [he, he'] at hsame
      | some e' =>
          simp only [he, he', decide_eq_true_eq] at hsame
          exact logs_agree_up_to (by decide) hrun he he' hsame le_rfl (by decide)

end RaftLock

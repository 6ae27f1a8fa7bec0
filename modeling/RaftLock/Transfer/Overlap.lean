import RaftLock.Transfer.Flag

/-!
A local snapshot while its thread does not hold the lock.

Beside the cluster the machine remembers, for each thread in
`Raft_create_snapshot`, the start of the log that the first critical section
has found; nothing in the program can see it. Only an installation can move
the start between the two sections, and `Raft_handle_install_snapshot_request`
does not look at the flag before it raises it.
-/

namespace RaftLock

open Outcome

/-- A packet thread after its handler; `began` is `start_log_index` as the
first critical section of its call has found it. -/
structure SnapshotCall where
  pc : SnapshotPc
  began : ℤ
  deriving DecidableEq, Repr

/-- A thread whose handler has just returned. -/
def SnapshotCall.new : SnapshotCall := ⟨.check, 0⟩

/-- The start a thread remembers after a step. -/
def SnapshotCall.remembers (r : RaftState) (t : SnapshotCall) : ℤ :=
  match t.pc with
  | .enter _ => r.startLogIndex
  | _ => t.began

def SnapshotCall.next (r : RaftState) (t : SnapshotCall) : Option SnapshotCall :=
  (snapshotStep r t.pc).2.map fun pc => ⟨pc, t.remembers r⟩

/-- The cluster and the calls of `Raft_create_snapshot` at each server. -/
structure Watched where
  traffic : Traffic
  calls : Server → List SnapshotCall

namespace Watched

def init (config : Config) : Watched := ⟨Traffic.init config, fun _ => []⟩

/-- The calls at server `s` after a step of the cluster that leaves it up. -/
def callsAfter (c : Cluster) (s : Server) (l : List SnapshotCall) : Action → List SnapshotCall
  | .deliver k _ =>
    match c.net[k]? with
    | some d => if d.dst = s then l ++ [SnapshotCall.new] else l
    | none => l
  | .snapshotThread v k _ =>
    match l[k]? with
    | some t => if v = s then List.replaceAt l k (t.next (c.nodes s).raft) else l
    | none => l
  | _ => l

def exec (m : Watched) (y : RepeatedAction) : Option Watched :=
  match m.traffic.exec y with
  | none => none
  | some t => some
      { traffic := t
        calls := fun s =>
          match y with
          | .step x =>
              if (t.cluster.nodes s).up then callsAfter m.traffic.cluster s (m.calls s) x else []
          | .duplicate _ => m.calls s }

end Watched

/-- An InstallSnapshot request that is accepted and closes the transfer. -/
def Closes (r : RaftState) : Packet → Prop
  | .installSnapshot q => installable (arrived r (.installSnapshot q)) q ∧ q.done = true
  | _ => False

instance (r : RaftState) (packet : Packet) : Decidable (Closes r packet) :=
  match packet with
  | .installSnapshot _ => inferInstanceAs (Decidable (_ ∧ _))
  | .response _ | .vote _ | .append _ => inferInstanceAs (Decidable False)

/-- No transfer is closed at a server while one of its threads is between the
two critical sections of `Raft_create_snapshot`. -/
def Cluster.NoOverlap (c : Cluster) : Action → Prop
  | .deliver k _ => ∀ d, c.net[k]? = some d → Closes (c.nodes d.dst).raft d.packet →
      ∀ pc ∈ (c.nodes d.dst).snapshotThreads, pc.building = none
  | _ => True

/-- The calls at a server: one at most is between its two sections, and for
that one the flag is up and the start of the log has not moved. -/
structure Alone (n : Node) (l : List SnapshotCall) : Prop where
  threads : l.map SnapshotCall.pc = n.snapshotThreads
  one : n.snapshotThreads.countP (fun pc => pc.building.isSome) ≤ 1
  began : ∀ t ∈ l, ∀ j, t.pc.building = some j → n.raft.snapshotInProgress = true ∧
    t.began = n.raft.startLogIndex ∧ n.raft.startLogIndex < j

section Turns

variable {c : Cluster} {s : Server} {n n' : Node} {x : Action} {l : List SnapshotCall}

theorem callsAfter_of_idle (hx : ¬ x.turns c s) : Watched.callsAfter c s l x = l := by
  cases x with
  | deliver k crashAt =>
      simp only [Watched.callsAfter]
      cases hd : c.net[k]? with
      | none => rfl
      | some d => exact if_neg fun hs => hx ⟨d, hd, hs⟩
  | snapshotThread v k crashAt =>
      simp only [Watched.callsAfter]
      cases l[k]? with
      | none => rfl
      | some t => exact if_neg hx
  | _ => rfl

theorem Alone.of_same (h : Alone n l) (hsame : SameTransfer n.raft n'.raft)
    (hthreads : n'.snapshotThreads = n.snapshotThreads) : Alone n' l where
  threads := h.threads.trans hthreads.symm
  one := by
    rw [hthreads]
    exact h.one
  began := by
    rw [hsame.flag, hsame.start]
    exact h.began

/-- No thread is between its sections. -/
theorem Alone.of_idle (hthreads : l.map SnapshotCall.pc = n.snapshotThreads)
    (hidle : ∀ pc ∈ n.snapshotThreads, pc.building = none) : Alone n l where
  threads := hthreads
  one := by
    have hzero : n.snapshotThreads.countP (fun pc => pc.building.isSome) = 0 :=
      List.countP_eq_zero.mpr fun pc hpc => by simp [hidle pc hpc]
    omega
  began t ht j hj := by
    have hpc : t.pc ∈ n.snapshotThreads := by
      rw [← hthreads]
      exact List.mem_map_of_mem ht
    exact absurd ((hidle _ hpc).symm.trans hj) (by simp)

theorem Alone.packet (h : Alone n l) {packet : Packet}
    (htransfers : Transfers (arrived n.raft packet) packet n'.raft)
    (hthreads : n'.snapshotThreads = n.snapshotThreads ++ [.check])
    (hok : Closes n.raft packet → ∀ pc ∈ n.snapshotThreads, pc.building = none) :
    Alone n' (l ++ [.new]) := by
  have hmap : (l ++ [SnapshotCall.new]).map SnapshotCall.pc = n'.snapshotThreads := by
    rw [hthreads, List.map_append, h.threads]
    rfl
  have hone : n'.snapshotThreads.countP (fun pc => pc.building.isSome) ≤ 1 := by
    rw [hthreads, List.countP_append]
    exact h.one
  -- the flag stays up and the start stays where it is
  have hbegan : (n.raft.snapshotInProgress = true → n'.raft.snapshotInProgress = true) →
      n'.raft.startLogIndex = n.raft.startLogIndex → Alone n' (l ++ [.new]) := by
    intro hflag hstart
    refine ⟨hmap, hone, fun t ht j hj => ?_⟩
    rcases List.mem_append.mp ht with ht | ht
    · obtain ⟨hup, hbegan, hlt⟩ := h.began t ht j hj
      rw [hstart]
      exact ⟨hflag hup, hbegan, hlt⟩
    · rw [List.mem_singleton.mp ht] at hj
      exact absurd hj (by simp [SnapshotCall.new, SnapshotPc.building])
  have hsame := (arrived_transfer n.raft packet).1
  have hstart := arrived_startLogIndex n.raft packet
  generalize hr : n'.raft = r' at htransfers
  cases htransfers with
  | keeps _ _ hkeeps =>
      refine hbegan (fun hup => ?_) ?_
      · rw [hr, hkeeps.flag, hsame, hup]
      · rw [hr, hkeeps.start, hstart]
  | chunk q hi hd _ hr' =>
      refine hbegan (fun _ => ?_) ?_
      · rw [hr, hr']
      · rw [hr, hr']
        exact hstart
  | done q hi hd =>
      refine .of_idle hmap fun pc hpc => ?_
      rw [hthreads] at hpc
      rcases List.mem_append.mp hpc with hpc | hpc
      · exact hok ⟨hi, hd⟩ pc hpc
      · rw [List.mem_singleton.mp hpc]
        rfl

theorem SnapshotCall.next_pc (r : RaftState) (t : SnapshotCall) :
    (t.next r).map SnapshotCall.pc = (snapshotStep r t.pc).2 := by
  rw [SnapshotCall.next, Option.map_map]
  exact Option.map_id_apply

/-- A thread goes on with its snapshot, or goes on without one. -/
theorem Alone.passes (h : Alone n l) {k : ℕ} {t : SnapshotCall} (hk : l[k]? = some t)
    (hpc : n.snapshotThreads[k]? = some t.pc)
    (hbuild : (snapshotStep n.raft t.pc).2.bind SnapshotPc.building = t.pc.building)
    (hremembers : t.pc.building.isSome = true → t.remembers n.raft = t.began)
    (hraft : n'.raft = n.raft)
    (hthreads : n'.snapshotThreads =
      List.replaceAt n.snapshotThreads k (snapshotStep n.raft t.pc).2) :
    Alone n' (List.replaceAt l k (t.next n.raft)) where
  threads := by rw [List.map_replaceAt, SnapshotCall.next_pc, h.threads, hthreads]
  one := by
    rw [hthreads, countP_replaceAt hpc hbuild]
    exact h.one
  began t' ht' j hj := by
    rw [hraft]
    rcases List.mem_replaceAt ht' with ht' | ht'
    · exact h.began t' ht' j hj
    · obtain ⟨pc', hpc', rfl⟩ := Option.map_eq_some_iff.mp ht'
      rw [hpc', Option.bind_some] at hbuild
      have hold := hbuild.symm.trans hj
      simp only
      rw [hremembers (by rw [hold]; rfl)]
      exact h.began t (List.mem_of_getElem? hk) j hold

theorem Alone.enters (h : Alone n l) {k : ℕ} {t : SnapshotCall} {j : ℤ} {r : RaftState}
    (hpc : n.snapshotThreads[k]? = some t.pc) (hj : t.pc = .enter j)
    (he : createSnapshotEnter n.raft j = some r) (hraft : n'.raft = r)
    (hthreads : n'.snapshotThreads =
      List.replaceAt n.snapshotThreads k (snapshotStep n.raft t.pc).2) :
    Alone n' (List.replaceAt l k (t.next n.raft)) := by
  have hstep : (snapshotStep n.raft t.pc).2 = some (.opened j) := by
    rw [hj]
    simp only [snapshotStep, he]
  have hnext : t.next n.raft = some ⟨.opened j, n.raft.startLogIndex⟩ := by
    rw [SnapshotCall.next, hstep]
    simp only [SnapshotCall.remembers, hj, Option.map_some]
  obtain ⟨⟨hflag, -, hlo, -⟩, rfl⟩ := createSnapshotEnter_some he
  -- the flag was down, so no other thread is between its sections
  have hidle : ∀ t' ∈ l, t'.pc.building = none := by
    intro t' ht'
    by_contra hne
    obtain ⟨i, hi⟩ := Option.ne_none_iff_exists'.mp hne
    exact hflag (h.began t' ht' i hi).1
  refine ⟨?_, ?_, fun t' ht' i hi => ?_⟩
  · rw [List.map_replaceAt, SnapshotCall.next_pc, h.threads, hthreads]
  · rw [hthreads, hstep]
    refine (countP_enter (hpc.trans (by rw [hj])) ?_).le
    refine List.countP_eq_zero.mpr fun pc hmem => ?_
    rw [← h.threads] at hmem
    obtain ⟨t', ht', rfl⟩ := List.mem_map.mp hmem
    simp [hidle t' ht']
  · rcases List.mem_replaceAt ht' with ht' | ht'
    · exact absurd ((hidle t' ht').symm.trans hi) (by simp)
    · rw [hnext, Option.some.injEq] at ht'
      subst ht'
      simp only [SnapshotPc.building, Option.some.injEq] at hi
      rw [hraft, ← hi]
      exact ⟨rfl, rfl, hlo⟩

theorem Alone.shifts (h : Alone n l) {k : ℕ} {t : SnapshotCall} {j prev : ℤ}
    (hpc : n.snapshotThreads[k]? = some t.pc) (hj : t.pc = .shift j prev)
    (hthreads : n'.snapshotThreads =
      List.replaceAt n.snapshotThreads k (snapshotStep n.raft t.pc).2) :
    Alone n' (List.replaceAt l k (t.next n.raft)) := by
  refine .of_idle (by rw [List.map_replaceAt, SnapshotCall.next_pc, h.threads, hthreads])
    fun pc hmem => ?_
  rw [hthreads] at hmem
  rcases mem_replaced hpc hmem with hmem | hnew
  · exact rest_idle h.one hpc (by rw [hj]; rfl) pc hmem
  · rw [hj] at hnew
    simp only [snapshotStep] at hnew
    split_ifs at hnew
    rw [← Option.some.inj hnew]
    rfl

theorem Alone.snapshot (h : Alone n l) {k : ℕ} {t : SnapshotCall} (hk : l[k]? = some t)
    (hpc : n.snapshotThreads[k]? = some t.pc) (hf : (snapshotStep n.raft t.pc).1.fault = false)
    (hraft : n'.raft = (snapshotStep n.raft t.pc).1.raft)
    (hthreads : n'.snapshotThreads =
      List.replaceAt n.snapshotThreads k (snapshotStep n.raft t.pc).2) :
    Alone n' (List.replaceAt l k (t.next n.raft)) := by
  cases hj : t.pc with
  | shift j prev => exact h.shifts hpc hj hthreads
  | enter j =>
      cases he : createSnapshotEnter n.raft j with
      | none =>
          refine h.passes hk hpc ?_ ?_ ?_ hthreads
          · simp [hj, snapshotStep, he, SnapshotPc.building]
          · simp [hj, SnapshotPc.building]
          · rw [hraft, hj]
            simp only [snapshotStep, he, ret]
      | some r =>
          refine h.enters hpc hj he ?_ hthreads
          rw [hraft, hj]
          simp only [snapshotStep, he, ret]
  | _ =>
      have henter : ∀ j, t.pc ≠ .enter j := by simp [hj]
      have hshift : ∀ j prev, t.pc ≠ .shift j prev := by simp [hj]
      refine h.passes hk hpc (snapshotStep_building henter hshift hf) ?_ ?_ hthreads
      · simp [SnapshotCall.remembers, hj]
      · rw [hraft]
        exact (snapshotStep_plain n.raft henter hshift).1

theorem NodeTurn.alone (h : NodeTurn c s n x n') (hup : n'.up = true)
    (hidle : n.up = false → l = [])
    (hquiet : n.Quiet) (hn : n.up = true → Alone n l) (hnode : n = c.nodes s)
    (hok : ∀ k d, x = .deliver k none → c.net[k]? = some d → d.dst = s → Closes n.raft d.packet →
      ∀ pc ∈ n.snapshotThreads, pc.building = none) :
    Alone n' (Watched.callsAfter c s l x) := by
  cases h with
  | down _ _ hdown => exact absurd (hup.symm.trans hdown) (by simp)
  | idle _ hx _ hon _ hraft _ hsnapshots =>
      rw [callsAfter_of_idle hx]
      exact (hn hon).of_same (by rw [hraft]; exact .refl _) hsnapshots
  | elect _ hx _ hon _ hraft _ hsnapshots =>
      have hcalls : Watched.callsAfter c s l x = l := callsAfter_of_idle fun hturns => by
        cases x <;> simp [Action.elects, Action.turns] at hx hturns
      rw [hcalls]
      exact (hn hon).of_same (by rw [hraft]; exact attemptToElect_keeps _) hsnapshots
  | packet k d _ hon _ hd hs hf hraft _ hsnapshots =>
      have hcalls : Watched.callsAfter c s l (.deliver k none) = l ++ [.new] := by
        simp only [Watched.callsAfter, hd]
        exact if_pos hs
      rw [hcalls]
      refine (hn hon).packet ?_ hsnapshots (hok k d rfl hd hs)
      rw [hraft]
      exact handlePacket_transfers hf
  | append e _ hon _ hf hraft _ hsnapshots =>
      exact (hn hon).of_same (by rw [hraft]; exact appendEntry_keeps hf) hsnapshots
  | sender k t _ hon _ ht hf hraft _ hsnapshots =>
      exact (hn hon).of_same (by rw [hraft]; exact leaderStep_keeps hf) hsnapshots
  | snapshot k pc _ hon _ hpc hf hraft _ hsnapshots =>
      have hmem := hpc
      rw [← (hn hon).threads, List.getElem?_map] at hmem
      obtain ⟨t, ht, rfl⟩ := Option.map_eq_some_iff.mp hmem
      have hcalls : Watched.callsAfter c s l (.snapshotThread s k none) =
          List.replaceAt l k (t.next n.raft) := by
        simp only [Watched.callsAfter, ht, if_true, hnode]
      rw [hcalls]
      exact (hn hon).snapshot ht hpc hf hraft hsnapshots
  | restart st _ hdown _ _ _ _ hsnapshots =>
      have hnone := (hquiet hdown).2
      refine .of_idle ?_ ?_
      · show (l.map SnapshotCall.pc) = _
        rw [hsnapshots, hnone, hidle hdown]
        rfl
      · rw [hsnapshots, hnone]
        simp

end Turns

/-- The second critical section leaves every entry from the new start on. -/
theorem createSnapshotShift_keeps {r : RaftState} {j : ℤ} (hplaced : Placed r)
    (hj : r.startLogIndex < j) :
    (createSnapshotShift r j).fault = false ∧ (createSnapshotShift r j).raft.logCount = r.logCount ∧
    ∀ i, j ≤ i → i < r.logCount →
      ∃ e, getLog (createSnapshotShift r j).raft i = some e ∧ getLog r i = some e := by
  have hroom := hplaced.room
  have heq : createSnapshotShift r j = saveState { r with
      snapshotInProgress := false
      log := copyDown r.log (j - r.startLogIndex).toNat (r.logCount - j).toNat
      startLogIndex := j } := by
    unfold createSnapshotShift
    simp only
    rw [if_neg (by omega)]
  rw [heq]
  refine ⟨rfl, rfl, fun i hlo hhi => ?_⟩
  obtain ⟨e, he⟩ : ∃ e, getLog (saveState { r with
      snapshotInProgress := false
      log := copyDown r.log (j - r.startLogIndex).toNat (r.logCount - j).toNat
      startLogIndex := j }).raft i = some e := ⟨_, getLog_of_mem hlo hhi⟩
  exact ⟨e, he, getLog_shifted (fun _ => hj.le) he⟩

/-- A step of a packet thread that does not end the process. -/
theorem Cluster.exec_thread {c c' : Cluster} {s : Server} {k : ℕ} {pc : SnapshotPc}
    (hpc : (c.nodes s).snapshotThreads[k]? = some pc)
    (hx : c.exec (.snapshotThread s k none) = some c') :
    (c.nodes s).up = true ∧ ((snapshotStep (c.nodes s).raft pc).1.fault = false →
      (c'.nodes s).up = true ∧ (c'.nodes s).raft = (snapshotStep (c.nodes s).raft pc).1.raft) := by
  simp only [exec] at hx
  split at hx
  · rename_i pc' hup hpc'
    rw [hpc, Option.some.injEq] at hpc'
    subst hpc'
    simp only [Option.some.injEq] at hx
    subst hx
    refine ⟨hup, fun hf => ?_⟩
    rw [settle_nodes, if_pos rfl]
    have hsame := (Node.foldl_perform (snapshotStep (c.nodes s).raft pc).1.effects
      { c.nodes s with
        snapshotThreads := List.replaceAt (c.nodes s).snapshotThreads k
          (snapshotStep (c.nodes s).raft pc).2 }).2.1
    unfold Node.settle
    simp only [Node.performed]
    rw [if_pos ⟨trivial, hf⟩]
    exact ⟨hsame.trans hup, rfl⟩
  · exact absurd hx (by simp)

namespace Watched

variable {config : Config} {ok : Watched → RepeatedAction → Prop} {m m' : Watched}

theorem exec_some {y : RepeatedAction} (hy : m.exec y = some m') :
    m.traffic.exec y = some m'.traffic ∧
    (∀ x, y = .step x → ∀ s, m'.calls s =
      if (m'.traffic.cluster.nodes s).up then callsAfter m.traffic.cluster s (m.calls s) x
      else []) ∧
    ∀ k, y = .duplicate k → m'.calls = m.calls := by
  unfold exec at hy
  split at hy
  · exact absurd hy (by simp)
  · rename_i t ht
    simp only [Option.some.injEq] at hy
    subst hy
    refine ⟨ht, ?_, ?_⟩
    · rintro x rfl s
      rfl
    · rintro k rfl
      rfl

theorem traffic_steps (hrun : Machine.Steps exec ok (init config) m) :
    Machine.Reaches Traffic.exec (Traffic.init config) m.traffic := by
  refine Machine.Steps.invariant
    (P := fun m => Machine.Reaches Traffic.exec (Traffic.init config) m.traffic)
    (fun m y m' h _ hy => ?_) hrun .refl
  exact h.tail ⟨y, trivial, (exec_some hy).1⟩

/-- A server that is down has no calls; a server that is up has one at most
between its sections. -/
structure Sections (m : Watched) (s : Server) : Prop where
  quiet : (m.traffic.cluster.nodes s).Quiet
  down : (m.traffic.cluster.nodes s).up = false → m.calls s = []
  alone : (m.traffic.cluster.nodes s).up = true → Alone (m.traffic.cluster.nodes s) (m.calls s)

/-- No transfer is closed while a thread makes a snapshot. -/
def NoOverlap (m : Watched) : RepeatedAction → Prop := Traffic.lifts Cluster.NoOverlap m.traffic

theorem sections_init (config : Config) (s : Server) : (init config).Sections s where
  quiet hdown := absurd hdown (by simp [init, Traffic.init, Cluster.init, Node.init])
  down _ := rfl
  alone _ := .of_idle rfl (by simp [init, Traffic.init, Cluster.init, Node.init])

theorem Sections.step {y : RepeatedAction} (h : ∀ s, m.Sections s) (hok : m.NoOverlap y)
    (hy : m.exec y = some m') (s : Server) : m'.Sections s := by
  obtain ⟨htraffic, hstep, hcopy⟩ := exec_some hy
  rcases Traffic.exec_cases htraffic with ⟨x, c, rfl, hx, heq⟩ | ⟨k, d, rfl, hd, heq⟩
  · have hturn := Cluster.exec_turn hx s
    have hcalls := hstep x rfl s
    have hcluster : m'.traffic.cluster = c := by rw [heq]
    rw [hcluster] at hcalls
    refine ⟨?_, fun hdown => ?_, fun hup => ?_⟩
    · rw [hcluster]
      exact hturn.quiet (h s).quiet
    · rw [hcluster] at hdown
      rw [hcalls, if_neg (by simp [hdown])]
    · rw [hcluster] at hup ⊢
      rw [hcalls, if_pos hup]
      refine hturn.alone hup (h s).down (h s).quiet (h s).alone rfl ?_
      rintro k d rfl hd rfl
      exact hok d hd
  · have hnodes : m'.traffic.cluster.nodes = m.traffic.cluster.nodes := by rw [heq]
    have hcalls := hcopy k rfl
    refine ⟨?_, ?_, ?_⟩
    · rw [hnodes]
      exact (h s).quiet
    · rw [hnodes, hcalls]
      exact (h s).down
    · rw [hnodes, hcalls]
      exact (h s).alone

theorem sections_reached (hrun : Machine.Steps exec NoOverlap (init config) m) (s : Server) :
    m.Sections s :=
  Machine.Steps.invariant (P := fun m => ∀ s, m.Sections s)
    (fun _ _ _ h hok hy => Sections.step h hok hy) hrun (sections_init config) s

/-- In every run in which no transfer is closed at a server while one of its
threads is between the two critical sections of `Raft_create_snapshot`, the
second section finds the start of the log that the first has found, and every
index from the new start on keeps its entry. -/
theorem second_section_finds_first (hrun : Machine.Steps exec NoOverlap (init config) m)
    {s : Server} {k : ℕ} {n prev : ℤ}
    (hpc : (m.traffic.cluster.nodes s).snapshotThreads[k]? = some (.shift n prev))
    (hx : m.exec (.step (.snapshotThread s k none)) = some m') :
    (m.calls s)[k]? =
      some ⟨.shift n prev, (m.traffic.cluster.nodes s).raft.startLogIndex⟩ ∧
    (m'.traffic.cluster.nodes s).up = true ∧
    ∀ i, n ≤ i → i < (m'.traffic.cluster.nodes s).raft.logCount →
      ∃ e, getLog (m'.traffic.cluster.nodes s).raft i = some e ∧
        getLog (m.traffic.cluster.nodes s).raft i = some e := by
  have hsections := sections_reached hrun s
  obtain ⟨c, hc, hcluster⟩ : ∃ c, m.traffic.cluster.exec (.snapshotThread s k none) = some c ∧
      m'.traffic.cluster = c := by
    rcases Traffic.exec_cases (exec_some hx).1 with ⟨x, c, hx, hc, heq⟩ | ⟨_, _, hx, -⟩
    · cases hx
      exact ⟨c, hc, by rw [heq]⟩
    · exact absurd hx (by simp)
  obtain ⟨hup, hafter⟩ := Cluster.exec_thread hpc hc
  have halone := hsections.alone hup
  -- the call is the one its thread belongs to
  have hmem := hpc
  rw [← halone.threads, List.getElem?_map] at hmem
  obtain ⟨t, ht, htpc⟩ := Option.map_eq_some_iff.mp hmem
  obtain ⟨-, hbegan, hlt⟩ := halone.began t (List.mem_of_getElem? ht) n (by rw [htpc]; rfl)
  obtain ⟨hf, hcount, hkeeps⟩ :=
    createSnapshotShift_keeps (Traffic.placed_reached (traffic_steps hrun) hup) hlt
  obtain ⟨hup', hraft⟩ := hafter hf
  rw [hcluster]
  refine ⟨?_, hup', fun i hlo hhi => ?_⟩
  · rw [ht, ← hbegan, ← htpc]
  · rw [hraft] at hhi ⊢
    exact hkeeps i hlo (hhi.trans_eq hcount)

end Watched

/-! ### A transfer closed in the gap -/

section LongRun

/-- The delivery closes no transfer while a thread makes a snapshot. -/
def noOverlap (m : Watched) : RepeatedAction → Bool
  | .step (.deliver k _) => m.traffic.cluster.net[k]?.all fun d : Datagram =>
      !decide (Closes (m.traffic.cluster.nodes d.dst).raft d.packet) ||
        (m.traffic.cluster.nodes d.dst).snapshotThreads.all fun pc => pc.building.isNone
  | _ => true

theorem noOverlap_sound (m : Watched) (y : RepeatedAction) (h : noOverlap m y = true) :
    m.NoOverlap y := by
  cases y with
  | step x =>
      cases x with
      | deliver k crashAt =>
          intro d hd hcloses pc hpc
          simp only [noOverlap, hd, Option.all_some, hcloses, decide_true, Bool.not_true,
            Bool.false_or, List.all_eq_true, Option.isNone_iff_eq_none] at h
          exact h pc hpc
      | _ => trivial
  | duplicate k => trivial

/-- Two exchanges of server `0` with the followers of two of its threads. -/
def exchangeWith (i j : ℕ) : List Action :=
  [.leaderThread 0 i, .leaderThread 0 j] ++ List.replicate 4 (.deliver 0 none)

/-- Servers `0`, `1` and `3` commit sixty entries, and a thread of server `0`
makes a snapshot and comes to its second critical section. -/
def sixtyAtThree : List Action :=
  firstElection ++ exchangeWith 0 2 ++ exchangeWith 0 2 ++
    (List.replicate 59 (Action.append 0 emptyEntry none :: exchangeWith 0 2)).flatten ++
    exchangeWith 0 2 ++ List.replicate 56 (Action.snapshotThread 0 0 none)

/-- The follower of a thread gets the snapshot and the ten entries behind it. -/
def catchUp (i : ℕ) : List Action :=
  [Action.leaderThread 0 i, .deliver 0 none, .deliver 0 none, .leaderThread 0 i] ++
    (List.replicate 10 [Action.leaderThread 0 i, .deliver 0 none, .deliver 0 none]).flatten

/-- Servers `0`, `2` and `4` commit fifty more entries. Server `0` takes its
second snapshot, which server `3` is not part of, and sends it there. -/
def secondSnapshot : List Action :=
  Action.snapshotThread 0 0 none :: catchUp 1 ++ catchUp 3 ++
    (List.replicate 50 (Action.append 0 emptyEntry none :: exchangeWith 1 3)).flatten ++
    List.replicate 158 (Action.snapshotThread 0 0 none) ++ [Action.leaderThread 0 2]

/-- Server `3` makes its first snapshot. Before the thread takes the lock again
the closing request arrives. -/
def closedInGap : List Action := List.replicate 56 (.snapshotThread 3 0 none) ++ [.deliver 0 none]

/-- A thread of server `0` can take the lock again. -/
def atShift (m : Watched) : Bool :=
  decide ((m.traffic.cluster.nodes 0).snapshotThreads[0]? = some (.shift 50 0)) &&
    (m.exec (.step (.snapshotThread 0 0 none))).isSome

/-- The thread of server `3` has begun with another start than it finds. -/
def startMoved (m : Watched) : Bool :=
  decide ((m.traffic.cluster.nodes 3).snapshotThreads[0]? = some (.shift 50 0)) &&
    decide ((m.calls 3)[0]? = some ⟨.shift 50 0, 0⟩) &&
    decide ((m.traffic.cluster.nodes 3).raft.startLogIndex = 100)

set_option maxRecDepth 100000 in
theorem closedInGap_runs : (Machine.execWhile Watched.exec noOverlap
    (Watched.init plainConfig) (sixtyAtThree.map .step)).any (fun m => atShift m &&
      (Machine.execAll Watched.exec m ((secondSnapshot ++ closedInGap).map .step)).any
        startMoved) = true := by
  decide +kernel

/-- The first snapshot of server `0`. -/
theorem first_snapshot_undisturbed : ∃ m m' : Watched,
    Machine.Steps Watched.exec Watched.NoOverlap (Watched.init plainConfig) m ∧
    m.exec (.step (.snapshotThread 0 0 none)) = some m' ∧
    (m.calls 0)[0]? =
      some ⟨.shift 50 0, (m.traffic.cluster.nodes 0).raft.startLogIndex⟩ ∧
    (m'.traffic.cluster.nodes 0).up = true ∧
    ∀ i, 50 ≤ i → i < (m'.traffic.cluster.nodes 0).raft.logCount →
      ∃ e, getLog (m'.traffic.cluster.nodes 0).raft i = some e ∧
        getLog (m.traffic.cluster.nodes 0).raft i = some e := by
  obtain ⟨m, hm, htest⟩ := Machine.exists_of_execWhile Watched.NoOverlap noOverlap_sound
    closedInGap_runs
  simp only [atShift, Bool.and_eq_true, decide_eq_true_eq] at htest
  obtain ⟨m', hx⟩ := Option.isSome_iff_exists.mp htest.1.2
  exact ⟨m, m', hm, hx, Watched.second_section_finds_first hm htest.1.1 hx⟩

/-- Server `3` has begun its snapshot with the log's start at `0`, and its
second critical section finds `100`. -/
theorem start_moved_in_gap : ∃ m : Watched,
    Machine.Reaches Watched.exec (Watched.init plainConfig) m ∧
    (m.traffic.cluster.nodes 3).snapshotThreads[0]? = some (.shift 50 0) ∧
    (m.calls 3)[0]? = some ⟨.shift 50 0, 0⟩ ∧
    (m.traffic.cluster.nodes 3).raft.startLogIndex = 100 := by
  obtain ⟨m, hm, htest⟩ := Machine.exists_of_execWhile (fun _ _ => True) (fun _ _ _ => trivial)
    closedInGap_runs
  rw [Bool.and_eq_true] at htest
  obtain ⟨m', hm', hmoved⟩ := Machine.exists_of_execAll htest.2
  simp only [startMoved, Bool.and_eq_true, decide_eq_true_eq] at hmoved
  exact ⟨m', hm.trans hm', hmoved.1.1, hmoved.1.2, hmoved.2⟩

end LongRun

end RaftLock

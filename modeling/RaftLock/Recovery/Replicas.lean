import RaftLock.Raft.Threads
import RaftLock.Recovery.Snapshots
import RaftLock.Safety.Application
import RaftLock.Safety.Completeness

/-!
The files of the servers, in runs without snapshots.

A server's main files are the replay of the entries its process has applied
(`Node.Replays`). What is applied has been committed, and what is committed is
committed once and for all, so behind the files of all servers there is one
list of entries, of which each of them shows a beginning.
-/

namespace RaftLock

open Appends Consensus Outcome

/-- Runs without snapshots in which an answer is taken for what it is and no
commit index is moved back. -/
abbrev steady : Guard where
  packet commits r d := confirmed.packet commits r d ∧ Forward r d
  sender _ _ := True
  shift _ _ := False

theorem steady_confirmed (c : Cluster) (x : Action) (h : steady.allows c x) :
    confirmed.allows c x := by
  cases x with
  | deliver k crashAt => exact fun d hd => (h d hd).1
  | snapshotThread s k crashAt => exact h
  | _ => exact h

theorem steady_orderly (c : Cluster) (x : Action) (h : steady.allows c x) :
    orderly.allows c x := by
  cases x with
  | deliver k crashAt => exact fun d hd => ⟨(h d hd).2, (h d hd).1.2⟩
  | snapshotThread s k crashAt => exact h
  | _ => exact h

/-! ### Effects on the main files -/

/-- The effect changes the main files only if it is a turn of the loop of
`Raft_commit_update`. -/
def Effect.Aside : Effect → Prop
  | .removeSnapshot id | .addToSnapshot id _ _ => id ≠ -1
  | .copySnapshot _ dst | .copyFile _ dst _ => dst ≠ -1
  | .cleanMainFiles => False
  | _ => True

section Effects

variable {r r' : RaftState} {es : List Effect} {n n' : Node}

theorem main_ne_path {id : ℤ} (h : id ≠ -1) : Dir.main ≠ getSnapshotPath id := by
  simp [getSnapshotPath, h]

theorem Effect.Aside.perform {x : Effect} (h : x.Aside) (n : Node) :
    (n.perform x).files .main = replay (n.files .main) ((turnsOf [x]).map Prod.snd) := by
  cases x with
  | commit i e => exact perform_commit_main n i e
  | removeSnapshot id =>
      simp only [Node.perform, FileSystem.removeSnapshot_of_ne (main_ne_path h)]
      rfl
  | addToSnapshot id name buffer =>
      simp only [Node.perform, FileSystem.addToSnapshot]
      exact FileSystem.appendTo_of_ne (main_ne_path h) name buffer
  | copySnapshot src dst =>
      simp only [Node.perform, FileSystem.copySnapshot_of_ne (main_ne_path h)]
      rfl
  | copyFile src dst k =>
      simp only [Node.perform, FileSystem.copyFile_of_ne (main_ne_path h)]
      rfl
  | cleanMainFiles => exact absurd h id
  | _ => rfl

theorem foldl_aside (h : ∀ x ∈ es, x.Aside) (n : Node) :
    (es.foldl Node.perform n).files .main =
      replay (n.files .main) ((turnsOf es).map Prod.snd) := by
  induction es generalizing n with
  | nil => rfl
  | cons x es ih =>
      have hrest := ih (fun y hy => h y (List.mem_cons_of_mem x hy)) (n.perform x)
      rw [List.foldl_cons, hrest, (h x List.mem_cons_self).perform, ← replay_append,
        ← List.map_append, ← turnsOf_append]
      rfl

theorem aside_ofTurn (l : List (ℤ × LogEntry)) : ∀ x ∈ l.map Effect.ofTurn, x.Aside := by
  intro x hx
  obtain ⟨t, -, rfl⟩ := List.mem_map.mp hx
  trivial

/-- The step to a later term removes a snapshot only if one is being
installed. -/
theorem Arrives.aside {packet : Packet} (h : Arrives r packet es) : ∀ x ∈ es, x.Aside := by
  cases h with
  | now hle => simp
  | later hlt =>
      intro x hx
      rcases List.mem_append.mp hx with hx | hx
      · unfold convertToFollower at hx
        simp only at hx
        split_ifs at hx with hid
        · obtain rfl := List.mem_singleton.mp hx
          exact hid
        · exact absurd hx (by simp [ret])
      · cases packet with
        | append q => exact absurd hx (by simp)
        | _ =>
            obtain rfl := List.mem_singleton.mp hx
            trivial

theorem Handled.aside {addr : Server} {packet : Packet} (h : Handled r addr packet r' es)
    (hp : ∀ q, packet ≠ .installSnapshot q) : ∀ x ∈ es, x.Aside := by
  cases h with
  | installRefused q | installChunk q | installDone q => exact absurd rfl (hp q)
  | voteRefused q success es hs hes =>
      rcases hes with rfl | rfl <;> simp [Effect.Aside, reply]
  | heartbeat q | entryStored q | entryCounted q =>
      simp only [List.forall_mem_append]
      exact ⟨aside_ofTurn _, by simp [Effect.Aside, reply]⟩
  | _ => simp [Effect.Aside, reply]

theorem handlePacket_aside {d : Datagram} (hp : ∀ q, d.packet ≠ .installSnapshot q)
    (hf : (handlePacket r d.src d.packet).fault = false) :
    ∀ x ∈ (handlePacket r d.src d.packet).effects, x.Aside := by
  by_cases hlate : r.currentTerm < d.packet.term ∧ ∃ q, d.packet = .response q
  · obtain ⟨hlt, q, hq⟩ := hlate
    rw [hq] at hlt ⊢
    rw [handleResponse_later hlt]
    exact (Arrives.later hlt).aside
  · have hreq : d.packet.term ≤ r.currentTerm ∨ ∀ q, d.packet ≠ .response q := by
      by_cases hlt : r.currentTerm < d.packet.term
      · exact Or.inr fun q hq => hlate ⟨hlt, q, hq⟩
      · exact Or.inl (not_lt.mp hlt)
    obtain ⟨pre, hpre, heq⟩ := handlePacket_parts r d.src d.packet hreq
    rw [heq] at hf ⊢
    simp only [List.forall_mem_append]
    exact ⟨hpre.aside, (handled (le_arrived r d.packet) hf).aside hp⟩

/-- `Raft_server_restore` empties the main files, and then only commits change
them. -/
theorem serverRestore_aside {st : RaftState} (hstart : st.startLogIndex = 0) :
    ∃ es, (serverRestore st).effects = .cleanMainFiles :: es ∧ ∀ x ∈ es, x.Aside := by
  unfold serverRestore
  simp only [andThen_emit, hstart, ne_eq, not_true_eq_false, if_false, List.cons_append,
    List.nil_append]
  refine ⟨_, rfl, fun x hx => ?_⟩
  have hcommits : ∀ {raft : RaftState} {m : ℤ}, ∀ y ∈ (commitUpdate raft m).effects, y.Aside := by
    intro raft m y hy
    obtain ⟨i, e, rfl, -⟩ := commitUpdate_mem hy
    trivial
  unfold Outcome.andThen at hx
  split_ifs at hx
  · exact hcommits x hx
  · rcases List.mem_append.mp hx with hx | hx
    · exact hcommits x hx
    · obtain ⟨i, hi, rfl⟩ := List.mem_map.mp hx
      have hmem := (List.mem_filter.mp hi).1
      simp only [List.pure_def, List.bind_eq_flatMap, List.mem_flatMap, List.mem_range,
        List.mem_singleton] at hmem
      obtain ⟨k, -, rfl⟩ := hmem
      show (k : ℤ) ≠ -1
      omega

/-- Where a thread in `Raft_create_snapshot` writes no main file. -/
def SnapshotPc.Aside : SnapshotPc → Prop
  | .enter n | .opened n | .copy n _ _ _ | .entries n _ | .add n _ _ _ | .shift n _ => 0 ≤ n
  | .remove _ => False
  | _ => True

theorem SnapshotPc.Aside.effects {pc : SnapshotPc} (h : pc.Aside) :
    ∀ x ∈ (snapshotStep r pc).1.effects, x.Aside := by
  cases pc with
  | shift n prev =>
      unfold snapshotStep createSnapshotShift
      simp only
      split_ifs <;> simp [die, saveState, emit, Effect.Aside]
  | remove prev => exact absurd h id
  | copy n prev src k =>
      have hn : n ≠ -1 := by
        have : 0 ≤ n := h
        omega
      simp only [snapshotStep]
      split_ifs <;> simp [emit, ret, Effect.Aside, hn]
  | add n prev i j =>
      have hn : n ≠ -1 := by
        have : 0 ≤ n := h
        omega
      simp only [snapshotStep]
      split_ifs
      · cases getLog r i with
        | none => simp [die]
        | some e =>
            simp only
            split <;> simp [emit, ret, Effect.Aside, hn]
      · simp [ret]
  | enter n =>
      simp only [snapshotStep]
      split <;> simp [ret]
  | check =>
      simp only [snapshotStep]
      split_ifs <;> simp [ret]
  | _ => simp [snapshotStep, ret]

/-- As long as no log is shifted, a thread goes from one such place to
another. -/
theorem SnapshotPc.Aside.next {pc pc' : SnapshotPc} (h : pc.Aside) (hstart : r.startLogIndex = 0)
    (hshift : ∀ n prev, pc ≠ .shift n prev) (hpc : (snapshotStep r pc).2 = some pc') :
    pc'.Aside := by
  cases pc with
  | shift n prev => exact absurd rfl (hshift n prev)
  | remove prev => exact absurd h id
  | check =>
      simp only [snapshotStep] at hpc
      split_ifs at hpc
      obtain rfl := Option.some.inj hpc
      trivial
  | argument =>
      obtain rfl := Option.some.inj hpc
      show (0 : ℤ) ≤ r.startLogIndex + snapshotSize
      rw [hstart]
      decide
  | enter n =>
      simp only [snapshotStep] at hpc
      split at hpc
      · exact absurd hpc (by simp)
      · obtain rfl := Option.some.inj hpc
        exact h
  | opened n =>
      simp only [snapshotStep] at hpc
      split_ifs at hpc <;>
      · obtain rfl := Option.some.inj hpc
        exact h
  | copy n prev src k =>
      simp only [snapshotStep] at hpc
      split_ifs at hpc <;>
      · obtain rfl := Option.some.inj hpc
        exact h
  | entries n prev =>
      obtain rfl := Option.some.inj hpc
      exact h
  | add n prev i j =>
      simp only [snapshotStep] at hpc
      split_ifs at hpc
      · cases he : getLog r i with
        | none => simp [he] at hpc
        | some e =>
            simp only [he] at hpc
            split at hpc <;>
            · obtain rfl := Option.some.inj hpc
              exact h
      · obtain rfl := Option.some.inj hpc
        exact h

end Effects

/-! ### Servers -/

/-- The main files of a running server are those its process has written, from
empty ones on. -/
def Node.Replays (n : Node) : Prop :=
  n.up = true → ∀ name ∈ fileNames,
    n.files .main name = replay emptyFiles (n.applied.map Prod.snd) name

section Nodes

variable {n n' : Node} {o : Outcome} {crashAt : Option ℕ}

theorem appendAll_congr_at {f g : Bytes → Option Bytes} {name : Bytes} (h : f name = g name)
    (ws : List (Bytes × Bytes)) : appendAll f ws name = appendAll g ws name := by
  induction ws using List.reverseRecOn with
  | nil => exact h
  | append_singleton ws w ih =>
      rw [appendAll_concat, appendAll_concat]
      by_cases hw : name = w.1
      · subst hw
        simp [Appends.append, ih]
      · simp [Appends.append, hw, ih]

theorem Node.settle_main (hup : (n.settle o crashAt).up = true) (h : ∀ x ∈ o.effects, x.Aside) :
    (n.settle o crashAt).files .main =
      replay (n.files .main) ((turnsOf o.effects).map Prod.snd) := by
  unfold settle at hup ⊢
  simp only at hup ⊢
  split_ifs at hup ⊢ with hwhole
  · obtain ⟨rfl, -⟩ := hwhole
    exact foldl_aside h n
  · exact absurd hup (by simp [crash])

theorem Node.Replays.settle (h : n.Replays) (hup : n.up = true) {n₁ : Node} (hsame : n.Same n₁)
    (ho : ∀ x ∈ o.effects, x.Aside) : (n₁.settle o crashAt).Replays := by
  intro hon name hname
  obtain ⟨-, -, happlied⟩ := Node.settle_up hon
  rw [Node.settle_main hon ho, happlied, hsame.files, hsame.applied, List.map_append,
    replay_append]
  exact appendAll_congr_at (h hup name hname) _

theorem Node.reloaded_replays {st : RaftState} (hstart : st.startLogIndex = 0) :
    ((n.reloaded st).settle (serverRestore st) none).Replays := by
  intro hon name hname
  obtain ⟨hf, -, happlied⟩ := Node.settle_up hon
  obtain ⟨es, heq, hes⟩ := serverRestore_aside hstart
  have hfiles : ((n.reloaded st).settle (serverRestore st) none).files .main =
      replay (n.files.cleanMainFiles .main) ((turnsOf es).map Prod.snd) := by
    simp only [settle, performed, hf, and_self, if_true, heq, List.foldl_cons]
    exact foldl_aside hes _
  have hturns : turnsOf (serverRestore st).effects = turnsOf es := by
    rw [heq]
    rfl
  rw [hfiles, happlied, hturns]
  refine appendAll_congr_at ?_ _
  rw [FileSystem.cleanMainFiles_main, if_pos hname, emptyFiles, if_pos hname]

theorem Node.Replays.idle (h : n.Replays) (hsame : n.Same n') : n'.Replays := by
  intro hon name hname
  rw [hsame.files, hsame.applied]
  exact h (hsame.up ▸ hon) name hname

end Nodes

/-- What the servers' files and threads have in common with what has been
committed. -/
structure Mirrors (c : Cluster) : Prop where
  replays : ∀ s, (c.nodes s).Replays
  aside : ∀ s, ∀ pc ∈ (c.nodes s).snapshotThreads, pc.Aside
  recorded : ∀ s, ∀ x ∈ (c.nodes s).applied, (s, x) ∈ c.commits

section Mirrors

variable {config : Config} {c c' c₁ : Cluster} {x : Action} {s v : Server}

/-- A step of the cluster adds to the record of the commits what the servers
apply. -/
structure Records (c c' : Cluster) : Prop where
  commits : c.commits <+: c'.commits
  applied : ∀ s, ∀ x ∈ (c'.nodes s).applied, x ∈ (c.nodes s).applied ∨ (s, x) ∈ c'.commits

theorem records_update {n : Node} (h : n.applied = (c.nodes v).applied) (net : List Datagram) :
    Records c { c with nodes := Function.update c.nodes v n, net } where
  commits := List.prefix_rfl
  applied s x hx := by
    left
    simp only [Function.update_apply] at hx
    split at hx
    · rename_i hs
      rw [hs, ← h]
      exact hx
    · exact hx

theorem records_settle {n : Node} {o : Outcome} {crashAt : Option ℕ} {answers : Option Packet}
    (hcommits : c₁.commits = c.commits) (hnodes : c₁.nodes = c.nodes)
    (h : ∀ x ∈ n.applied, x ∈ (c.nodes v).applied) :
    Records c (c₁.settle v n o crashAt answers) where
  commits := by
    rw [← hcommits]
    exact List.prefix_append _ _
  applied s x hx := by
    rw [Cluster.settle_nodes] at hx
    split at hx
    · rename_i hs
      subst hs
      have happlied : (n.settle o crashAt).applied =
          n.applied ++ turnsOf (Node.performed o crashAt) := by
        simp only [Node.settle]
        split_ifs <;> exact Node.applied_foldl _ n
      rw [happlied] at hx
      rcases List.mem_append.mp hx with hx | hx
      · exact Or.inl (h x hx)
      · right
        simp only [Cluster.settle, List.mem_append, filterMap_committedBy]
        exact Or.inr (List.mem_map_of_mem hx)
    · rw [hnodes] at hx
      exact Or.inl hx

theorem exec_records (hx : c.exec x = some c') : Records c c' := by
  have hself : Records c c := ⟨List.prefix_rfl, fun s x hx => Or.inl hx⟩
  cases x with
  | timeout v =>
      simp only [Cluster.exec] at hx
      split_ifs at hx
      obtain rfl := Option.some.inj hx
      refine records_update ?_ c.net
      rfl
  | elect v crashAt | retry v crashAt | append v e crashAt =>
      simp only [Cluster.exec] at hx
      split_ifs at hx
      obtain rfl := Option.some.inj hx
      exact records_settle rfl rfl fun x hx => hx
  | deliver k crashAt =>
      simp only [Cluster.exec] at hx
      cases hd : c.net[k]? with
      | none => simp [hd] at hx
      | some d =>
          simp only [hd] at hx
          split_ifs at hx
          obtain rfl := Option.some.inj hx
          exact records_settle rfl rfl fun x hx => hx
  | drop k =>
      simp only [Cluster.exec] at hx
      split_ifs at hx
      obtain rfl := Option.some.inj hx
      exact ⟨List.prefix_rfl, fun s x hx => Or.inl hx⟩
  | leaderThread v k | snapshotThread v k crashAt =>
      simp only [Cluster.exec] at hx
      split at hx
      · obtain rfl := Option.some.inj hx
        exact records_settle rfl rfl fun x hx => hx
      · exact absurd hx (by simp)
  | crash v =>
      simp only [Cluster.exec] at hx
      split_ifs at hx
      obtain rfl := Option.some.inj hx
      refine records_update ?_ c.net
      rfl
  | restart v =>
      simp only [Cluster.exec] at hx
      split at hx
      · obtain rfl := Option.some.inj hx
        exact records_settle rfl rfl fun x hx => absurd hx (by simp)
      · exact absurd hx (by simp)

/-- A step of a thread of server `v` in `Raft_create_snapshot`. -/
theorem exec_snapshotThread {k : ℕ} {crashAt : Option ℕ}
    (hx : c.exec (.snapshotThread v k crashAt) = some c') :
    (c.nodes v).up = true ∧ ∃ pc, (c.nodes v).snapshotThreads[k]? = some pc ∧
      ∃ n, (c.nodes v).Same n ∧
        c' = c.settle v n (snapshotStep (c.nodes v).raft pc).1 crashAt none := by
  simp only [Cluster.exec] at hx
  split at hx
  · rename_i pc hup hpc
    obtain rfl := Option.some.inj hx
    refine ⟨hup, pc, hpc, _, ?_, rfl⟩
    exact ⟨rfl, rfl, rfl, rfl, rfl⟩
  · exact absurd hx (by simp)

theorem Runs.aside {r : RaftState} {o : Outcome} (h : Runs steady c s r x o)
    (hx : ∀ v k crashAt, x ≠ .snapshotThread v k crashAt)
    (hnet : ∀ d ∈ c.net, ∀ q, d.packet ≠ .installSnapshot q) (hf : o.fault = false) :
    ∀ y ∈ o.effects, y.Aside := by
  cases h with
  | elect x hx => simp [attemptToElect_eq, Effect.Aside]
  | packet k crashAt d hd hs hg => exact handlePacket_aside (hnet d (List.mem_of_getElem? hd)) hf
  | append e crashAt =>
      rcases appendEntry_ok hf with heq | ⟨r', heq, -, -, -, hr'⟩ <;> rw [heq] <;>
        simp [ret, saveState, emit, Effect.Aside]
  | sender k files t hg =>
      have hs := leaderStep_sends hf
      generalize (leaderStep r files t).1.effects = es at hs
      generalize (leaderStep r files t).1.raft = r' at hs
      generalize (leaderStep r files t).2 = pc at hs
      cases hs <;> simp [Effect.Aside]
  | snapshot k crashAt pc hg => exact absurd rfl (hx s k crashAt)

/-- A running server's files after a step. -/
theorem Mirrors.replays_step (h : Mirrors c) (hok : steady.allows c x) (hx : c.exec x = some c')
    (hnet : ∀ d ∈ c.net, ∀ q, d.packet ≠ .installSnapshot q)
    (hstart : ∀ s, (c.nodes s).view.startLogIndex = 0) (s : Server) : (c'.nodes s).Replays := by
  by_cases hthread : ∃ v k crashAt, x = .snapshotThread v k crashAt
  · obtain ⟨v, k, crashAt, rfl⟩ := hthread
    obtain ⟨hup, pc, hpc, n, hsame, rfl⟩ := exec_snapshotThread hx
    rw [Cluster.settle_nodes]
    split
    · have haside := h.aside v pc (List.mem_of_getElem? hpc)
      exact (h.replays v).settle hup hsame haside.effects
    · exact h.replays s
  push Not at hthread
  rcases Cluster.exec_node hok hx s with hstep | ⟨-, hdown, st, hsaved, heq⟩
  · generalize c'.nodes s = n' at hstep ⊢
    cases hstep with
    | idle _ hsame => exact (h.replays s).idle hsame
    | crash => exact fun hup => absurd hup (by simp [Node.crash])
    | runs n₁ o crashAt hsame hup hruns =>
        intro hon
        have hf := (Node.settle_up hon).1
        exact (h.replays s).settle hup hsame (hruns.aside hthread hnet hf) hon
  · rw [heq]
    have hview := hstart s
    simp only [Node.view, hdown, hsaved, Bool.false_eq_true, if_false] at hview
    exact Node.reloaded_replays hview

/-- A running server's threads after a step. -/
theorem Mirrors.aside_step (h : Mirrors c) (hok : steady.allows c x) (hx : c.exec x = some c')
    (hstart : ∀ s, (c.nodes s).view.startLogIndex = 0) (s : Server) :
    ∀ pc ∈ (c'.nodes s).snapshotThreads, pc.Aside := by
  intro pc hpc
  have hturn := Cluster.exec_turn hx s
  generalize c'.nodes s = n' at hturn hpc
  cases hturn with
  | down _ _ hdown hidle =>
      rcases hidle with ⟨-, heq⟩ | ⟨-, hnone⟩
      · exact h.aside s pc (heq ▸ hpc)
      · rw [hnone] at hpc
        exact absurd hpc (by simp)
  | idle _ _ _ _ _ _ _ hsame => exact h.aside s pc (hsame ▸ hpc)
  | elect _ _ _ _ _ _ _ hsame => exact h.aside s pc (hsame ▸ hpc)
  | append _ _ _ _ _ _ _ hsame => exact h.aside s pc (hsame ▸ hpc)
  | sender _ _ _ _ _ _ _ _ _ hsame => exact h.aside s pc (hsame ▸ hpc)
  | restart _ _ _ _ _ _ _ hsame => exact h.aside s pc (hsame ▸ hpc)
  | packet _ _ _ _ _ _ _ _ _ _ hnew =>
      rw [hnew] at hpc
      rcases List.mem_append.mp hpc with hpc | hpc
      · exact h.aside s pc hpc
      · obtain rfl := List.mem_singleton.mp hpc
        trivial
  | snapshot k p _ hup _ hp _ _ _ hnew =>
      rw [hnew] at hpc
      rcases List.mem_replaceAt hpc with hpc | hpc
      · exact h.aside s pc hpc
      · have hview := hstart s
        rw [Node.view, if_pos hup] at hview
        refine (h.aside s p (List.mem_of_getElem? hp)).next hview (fun n prev heq => ?_) hpc
        have hpass := hok p hp
        rw [heq] at hpass
        exact hpass

theorem Records.recorded (h : Records c c')
    (hc : ∀ s, ∀ x ∈ (c.nodes s).applied, (s, x) ∈ c.commits) :
    ∀ s, ∀ x ∈ (c'.nodes s).applied, (s, x) ∈ c'.commits := fun s x hx =>
  (h.applied s x hx).elim (fun hold => h.commits.subset (hc s x hold)) id

/-- The facts about a run that the files depend on. -/
theorem steady_path (hinj : Function.Injective config) (hvalid : ∀ s, config s ≠ -1)
    (hrun : Cluster.Run config steady.allows c) :
    ∃ w p C, Refines c w ∧ AgreeInv config w p C ∧ Unshifted w ∧ InRange w := by
  have hconf : Cluster.Run config confirmed.allows c := Machine.Steps.weaken steady_confirmed hrun
  obtain ⟨w, hpath, href⟩ := (refines_init config).steps hconf
  obtain ⟨p, C, hinv, hun, hin⟩ := confirmed_path hinj hvalid hpath
  exact ⟨w, p, C, href, hinv, hun, hin⟩

theorem mirrors_run (hinj : Function.Injective config) (hvalid : ∀ s, config s ≠ -1)
    (hrun : Cluster.Run config steady.allows c) : Mirrors c := by
  induction hrun with
  | refl =>
      refine ⟨fun s _ name hname => ?_,
        fun s pc hpc => absurd hpc (by simp [Cluster.init, Node.init]),
        fun s x hx => absurd hx (by simp [Cluster.init, Node.init])⟩
      simp only [Cluster.init, Node.init, List.map_nil]
      rw [FileSystem.cleanMainFiles_main, if_pos hname]
      exact (if_pos hname).symm
  | tail hrun hstep ih =>
      obtain ⟨x, hok, hx⟩ := hstep
      obtain ⟨w, p, C, href, -, hun, hin⟩ := steady_path hinj hvalid hrun
      have hstart := fun s => ((href.node s).view ▸ hun.start s : (_ : Node).view.startLogIndex = 0)
      refine ⟨ih.replays_step hok hx (fun d hd q hq => ?_) hstart, ih.aside_step hok hx hstart,
        (exec_records hx).recorded ih.recorded⟩
      have hd' := hin.net d (href.net ▸ hd)
      simp [InRangeDatagram, hq] at hd'

end Mirrors

/-! ### One history -/

/-- The entry committed at index `i`, by whichever server was first. -/
def historyAt (commits : List (Server × ℤ × LogEntry)) (i : ℕ) : LogEntry :=
  ((commits.find? fun x => x.2.1 = (i : ℤ)).map fun x => x.2.2.core).getD default

section History

variable {config : Config} {c c' : Cluster} {s : Server}

theorem replay_core (f : Bytes → Option Bytes) (es : List LogEntry) :
    replay f (es.map LogEntry.core) = replay f es := by
  rw [replay, List.flatMap_map]
  rfl

theorem historyAt_of_mem {commits : List (Server × ℤ × LogEntry)}
    (hagree : ∀ x ∈ commits, ∀ y ∈ commits, x.2.1 = y.2.1 → x.2.2.core = y.2.2.core)
    {x : Server × ℤ × LogEntry} (hx : x ∈ commits) (hpos : 0 ≤ x.2.1) :
    historyAt commits x.2.1.toNat = x.2.2.core := by
  have hindex : ((x.2.1.toNat : ℕ) : ℤ) = x.2.1 := by omega
  simp only [historyAt, hindex]
  cases hfind : commits.find? fun y => y.2.1 = x.2.1 with
  | none =>
      exact absurd (decide_eq_true rfl) (List.find?_eq_none.mp hfind x hx)
  | some y =>
      have hy := List.mem_of_find?_eq_some hfind
      have hsame : y.2.1 = x.2.1 := by simpa using List.find?_some hfind
      exact hagree y hy x hx hsame

theorem commits_agree_of_inv {w : World} {p : Protocol} {C : Server → ℤ → Finset Server}
    (href : Refines c w) (hinv : AgreeInv config w p C) :
    ∀ x ∈ c.commits, ∀ y ∈ c.commits, x.2.1 = y.2.1 → x.2.2.core = y.2.2.core := by
  intro x hx y hy hxy
  rw [← href.commits] at hx hy
  have h := (hinv.known.applied x hx).2
  rw [hxy] at h
  exact h.unique hinv.sim.inv (hinv.known.applied y hy).2

theorem steps_commits {g : Guard} (hsteps : Cluster.Steps g.allows c c') :
    c.commits <+: c'.commits := by
  induction hsteps with
  | refl => exact List.prefix_rfl
  | tail _ hstep ih =>
      obtain ⟨x, -, hx⟩ := hstep
      exact ih.trans (exec_records hx).commits

/-- The entries a running server has applied, read off the record. -/
theorem applied_eq_history (hmirrors : Mirrors c) (horder : (c.nodes s).AppliedInOrder)
    (hup : (c.nodes s).up = true) (hsub : c.commits <+: c'.commits)
    (hagree : ∀ x ∈ c'.commits, ∀ y ∈ c'.commits, x.2.1 = y.2.1 → x.2.2.core = y.2.2.core) :
    (c.nodes s).applied.map (fun x => x.2.core) =
      (List.range ((c.nodes s).raft.commitIndex + 1).toNat).map (historyAt c'.commits) := by
  have hindices := horder.indices hup
  have hpos : ∀ x ∈ (c.nodes s).applied, 0 ≤ x.1 := by
    intro x hx
    have hmem := List.mem_map_of_mem (f := Prod.fst) hx
    rw [hindices] at hmem
    obtain ⟨k, -, hk⟩ := List.mem_map.mp hmem
    omega
  calc (c.nodes s).applied.map (fun x => x.2.core)
      = (c.nodes s).applied.map (fun x => historyAt c'.commits x.1.toNat) := by
        refine List.map_congr_left fun x hx => ?_
        have hmem := hsub.subset (hmirrors.recorded s x hx)
        exact (historyAt_of_mem hagree hmem (hpos x hx)).symm
    _ = (indicesTo (c.nodes s).raft.commitIndex).map fun i => historyAt c'.commits i.toNat := by
        rw [← hindices, List.map_map]
        rfl
    _ = _ := by
        rw [indicesTo, List.map_map]
        rfl

/-- **Replicated files**: behind a run there is one list of entries. At every
moment of the run each running server's log has, up to its commit index, the
beginning of this list, and its main files are the replay of that beginning on
empty files. -/
theorem files_show_one_history (hinj : Function.Injective config)
    (hvalid : ∀ s, config s ≠ -1) (hrun' : Cluster.Run config steady.allows c') :
    ∃ history : ℕ → LogEntry, ∀ c s, Cluster.Run config steady.allows c →
      Cluster.Steps steady.allows c c' → (c.nodes s).up = true →
      (∀ name ∈ fileNames, (c.nodes s).files .main name =
        replay emptyFiles ((List.range ((c.nodes s).raft.commitIndex + 1).toNat).map history)
          name) ∧
      ∀ i e, i ≤ (c.nodes s).raft.commitIndex → getLog (c.nodes s).raft i = some e →
        history i.toNat = e.core := by
  obtain ⟨w', p', C', href', hinv', -, -⟩ := steady_path hinj hvalid hrun'
  have hagree := commits_agree_of_inv href' hinv'
  refine ⟨historyAt c'.commits, fun c s hrun hsteps hup => ⟨fun name hname => ?_, ?_⟩⟩
  · have hmirrors := mirrors_run hinj hvalid hrun
    have horder := inOrder_run (Machine.Steps.weaken steady_orderly hrun) s
    rw [hmirrors.replays s hup name hname, ← applied_eq_history hmirrors horder hup
      (steps_commits hsteps) hagree, ← replay_core, List.map_map]
    rfl
  · intro i e hi he
    obtain ⟨w, p, C, href, hinv, hun, -⟩ := steady_path hinj hvalid hrun
    have hmirrors := mirrors_run hinj hvalid hrun
    have horder := inOrder_run (Machine.Steps.weaken steady_orderly hrun) s
    have hview : (c.nodes s).raft = w.raft s := ((href.node s).raft_eq hup).symm
    have hlo := (getLog_some he).1
    rw [hview, hun.start s] at hlo
    -- the server has applied an entry at this index
    have hmem : i ∈ (c.nodes s).applied.map Prod.fst := by
      rw [horder.indices hup, indicesTo]
      exact List.mem_map.mpr ⟨i.toNat, List.mem_range.mpr (by omega), by omega⟩
    obtain ⟨x, hx, rfl⟩ := List.mem_map.mp hmem
    have hrecord := hmirrors.recorded s x hx
    have hmine := hinv.committedEntry (s := s) (hview ▸ he) (hview ▸ hi)
    have happlied := (hinv.known.applied _ (href.commits ▸ hrecord)).2
    rw [historyAt_of_mem hagree ((steps_commits hsteps).subset hrecord) hlo]
    exact happlied.unique hinv.sim.inv hmine

/-- A client entry with one byte for `file_7`. -/
def byteForSeven : LogEntry := ⟨0, 0, .clientLog, 1, 3, [⟨fileName 7, [65]⟩]⟩

/-- The entry is committed by servers `0`, `1` and `2`. -/
def firstByte : List Action :=
  firstElection ++ exchange ++ exchange ++ [.append 0 byteForSeven none] ++ exchange ++ exchange

set_option maxRecDepth 10000 in
theorem firstByte_runs : ((Cluster.init plainConfig).execWhile
    (fun c x => decide (steady.allows c x)) firstByte).any
    (fun c => committedTo c 0 1 && committedTo c 1 1 &&
      decide ((c.nodes 0).files .main (fileName 7) = some [65])) = true := by
  decide +kernel

theorem first_byte_replicated : ∃ c, Cluster.Run plainConfig steady.allows c ∧
    committedTo c 0 1 = true ∧ committedTo c 1 1 = true ∧ ∃ history : ℕ → LogEntry,
      (∀ s, s = 0 ∨ s = 1 → ∀ name ∈ fileNames,
        (c.nodes s).files .main name = replay emptyFiles ((List.range 2).map history) name) ∧
      replay emptyFiles ((List.range 2).map history) (fileName 7) = some [65] := by
  obtain ⟨c, hrun, hto⟩ := Machine.exists_of_execWhile steady.allows
    (fun _ _ h => of_decide_eq_true h) firstByte_runs
  simp only [Bool.and_eq_true, decide_eq_true_eq] at hto
  obtain ⟨⟨hzero, hone⟩, hbyte⟩ := hto
  obtain ⟨history, hfiles⟩ := files_show_one_history (by decide) (by decide) hrun
  have hboth : ∀ s, s = 0 ∨ s = 1 → committedTo c s 1 = true := by
    rintro s (rfl | rfl)
    · exact hzero
    · exact hone
  have hshows : ∀ s, s = 0 ∨ s = 1 → ∀ name ∈ fileNames,
      (c.nodes s).files .main name = replay emptyFiles ((List.range 2).map history) name := by
    intro s hs name hname
    have hcommit := hboth s hs
    simp only [committedTo, Bool.and_eq_true, decide_eq_true_eq] at hcommit
    have hfile := (hfiles c s hrun .refl hcommit.1).1 name hname
    rw [hcommit.2] at hfile
    exact hfile
  refine ⟨c, hrun, hzero, hone, history, hshows, ?_⟩
  rw [← hshows 0 (Or.inl rfl) (fileName 7) (by decide)]
  exact hbyte

end History

end RaftLock

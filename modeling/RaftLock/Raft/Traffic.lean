import RaftLock.Library.Machine
import RaftLock.Raft.Nodes

/-!
A network that repeats datagrams, and what has passed over it.

Beside the cluster the machine keeps every datagram that has ever been in
flight and every term in which a server has stood for election; nothing in
the program can see either. A world invariant that does not mind repeated
datagrams holds of the machine (`Traffic.exists_world`).
-/

namespace RaftLock

open Outcome

inductive RepeatedAction
  | step (x : Action)
  /-- The network makes a copy of a datagram. -/
  | duplicate (k : ℕ)
  deriving DecidableEq, Repr

/-- Every step of the cluster passes. -/
abbrev unrestricted : Guard where
  packet _ _ _ := True
  sender _ _ := True
  shift _ _ := True

theorem unrestricted_allows (c : Cluster) (x : Action) : unrestricted.allows c x := by
  cases x with
  | deliver k crashAt => exact fun _ _ => trivial
  | leaderThread s k => exact fun _ _ => trivial
  | snapshotThread s k crashAt =>
      intro pc _
      cases pc <;> trivial
  | _ => trivial

/-- `sent` lists every datagram that has been in flight. `stood` lists the
terms in which a server has been a candidate: it has come past
`Raft_save_state` in `Raft_attempt_to_elect`. -/
structure Traffic where
  cluster : Cluster
  sent : List Datagram
  stood : List (Server × ℤ)

namespace Traffic

def init (config : Config) : Traffic := ⟨Cluster.init config, [], []⟩

def stoodAfter (m : Traffic) : Action → List (Server × ℤ)
  | .elect s crashAt | .retry s crashAt =>
    if crashAt = some 0 then m.stood
    else m.stood ++ [(s, (m.cluster.nodes s).raft.currentTerm + 1)]
  | _ => m.stood

def exec (m : Traffic) : RepeatedAction → Option Traffic
  | .step x =>
    match m.cluster.exec x with
    | none => none
    | some c => some ⟨c, m.sent ++ c.net, m.stoodAfter x⟩
  | .duplicate k =>
    match m.cluster.net[k]? with
    | none => none
    | some d => some { m with cluster := { m.cluster with net := m.cluster.net ++ [d] } }

/-- The steps of the cluster that the restriction lets pass, and copies. -/
def allows (g : Guard) (m : Traffic) : RepeatedAction → Prop
  | .step x => g.allows m.cluster x
  | .duplicate _ => True

instance (g : Guard) [∀ l r d, Decidable (g.packet l r d)] [∀ r t, Decidable (g.sender r t)]
    [∀ r n, Decidable (g.shift r n)] (m : Traffic) (y : RepeatedAction) :
    Decidable (allows g m y) :=
  match y with
  | .step x => inferInstanceAs (Decidable (g.allows m.cluster x))
  | .duplicate _ => inferInstanceAs (Decidable True)

/-- The steps of the cluster that meet a condition, and copies. -/
def lifts (ok : Cluster → Action → Prop) (m : Traffic) : RepeatedAction → Prop
  | .step x => ok m.cluster x
  | .duplicate _ => True

/-- A run of the cluster is one of the machine. -/
theorem lifts_steps {ok : Cluster → Action → Prop} {c c' : Cluster} (h : Cluster.Steps ok c c')
    {m : Traffic} (hm : m.cluster = c) :
    ∃ m', Machine.Steps exec (lifts ok) m m' ∧ m'.cluster = c' := by
  induction h with
  | refl => exact ⟨m, .refl, hm⟩
  | @tail _ c₂ _ hlast ih =>
      obtain ⟨x, hok, hx⟩ := hlast
      obtain ⟨m', hsteps, rfl⟩ := ih
      refine ⟨⟨c₂, m'.sent ++ c₂.net, m'.stoodAfter x⟩, hsteps.tail ⟨.step x, hok, ?_⟩, rfl⟩
      simp only [exec, hx]

theorem mem_duplicate {l : List Datagram} {k : ℕ} {d : Datagram} (hd : l[k]? = some d) :
    ∀ x ∈ l ++ [d], x ∈ l := by
  intro x hx
  rcases List.mem_append.mp hx with hx | hx
  · exact hx
  · rw [List.mem_singleton.mp hx]
    exact List.mem_of_getElem? hd

/-- A copy of a datagram changes nothing that a world shows but its net. -/
theorem refines_duplicate {c : Cluster} {w : World} (h : Refines c w) (net : List Datagram) :
    Refines { c with net } { w with net } := ⟨h.node, rfl, h.commits⟩

section World

variable {g : Guard} {config : Config} {P : World → Prop} {m m' : Traffic}

/-- A step of the machine is a step of the cluster or a copy of a datagram. -/
theorem exec_cases {y : RepeatedAction} (hy : m.exec y = some m') :
    (∃ x c, y = .step x ∧ m.cluster.exec x = some c ∧
      m' = ⟨c, m.sent ++ c.net, m.stoodAfter x⟩) ∨
    ∃ k d, y = .duplicate k ∧ m.cluster.net[k]? = some d ∧
      m' = { m with cluster := { m.cluster with net := m.cluster.net ++ [d] } } := by
  cases y with
  | step x =>
      simp only [exec] at hy
      split at hy
      · exact absurd hy (by simp)
      · rename_i c hx
        exact Or.inl ⟨x, c, rfl, hx, (Option.some.inj hy).symm⟩
  | duplicate k =>
      simp only [exec] at hy
      split at hy
      · exact absurd hy (by simp)
      · rename_i d hd
        exact Or.inr ⟨k, d, rfl, hd, (Option.some.inj hy).symm⟩

/-- What holds of worlds step by step, and still holds when datagrams are
repeated, holds of a world behind each state of the machine. -/
theorem exists_world (hinit : P (World.init config))
    (hstep : ∀ w v w', P w → World.Step g w v w' → P w')
    (hcopy : ∀ (w : World) (net : List Datagram), P w → (∀ d ∈ net, d ∈ w.net) →
      P { w with net })
    (hrun : Machine.Steps exec (allows g) (init config) m) :
    ∃ w, Refines m.cluster w ∧ P w := by
  refine Machine.Steps.invariant (P := fun m => ∃ w, Refines m.cluster w ∧ P w)
    (fun m y m' h hok hy => ?_) hrun ⟨_, refines_init config, hinit⟩
  obtain ⟨w, href, hw⟩ := h
  rcases exec_cases hy with ⟨x, c, rfl, hx, rfl⟩ | ⟨k, d, rfl, hd, rfl⟩
  · obtain ⟨w', hpath, href'⟩ := href.exec hok hx
    refine ⟨w', href', ?_⟩
    clear href'
    induction hpath with
    | refl => exact hw
    | tail _ hlast ih =>
        obtain ⟨v, hv⟩ := hlast
        exact hstep _ v _ ih hv
  · refine ⟨_, refines_duplicate href _, hcopy w _ hw ?_⟩
    rw [href.net]
    exact mem_duplicate hd

end World

end Traffic

end RaftLock

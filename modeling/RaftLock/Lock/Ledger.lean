import RaftLock.Lock.Tags
import RaftLock.Safety.Retention

/-!
The lock manager with a ledger of what its releases put into the logs.

The ledger notes, for each running handler, the entries that its calls of
`Raft_append_entry` have stored, and for each server the entries that its
snapshots have taken over from its log. Nothing in the program reads it.

A client's handler only moves by its own steps; the other handlers and the
timer can change what it has of the lock, and the Raft module what its server
has in the log.
-/

namespace RaftLock

/-! ### One step seen from another client -/

namespace LockServer

/-- Client `j` stands where it stood, and has the lock if it had it. No client
has the id `-1`. -/
structure Elsewhere (s s' : LockServer) (j : ℤ) : Prop where
  handler : s'.handler j = s.handler j
  pc : s'.lock.pc j = s.lock.pc j
  holder : j ≠ -1 → (s'.lock.holderId = j ↔ s.lock.holderId = j)
  firing : s'.lock.firing = s.lock.firing

variable {s s' : LockServer} {raft : RaftState} {c j rc : ℤ} {out : Option LogEntry}

theorem Moves.elsewhere (hm : s.Moves c rc s') (hj : j ≠ c) : s.Elsewhere s' j := by
  cases hm with
  | goes p hhandler hlock hcalls hacq hpaused =>
      exact ⟨by rw [hhandler, Function.update_of_ne hj], by rw [hlock], fun _ => by rw [hlock],
        by rw [hlock]⟩
  | asks p op hhandler hlock hcalls hreset =>
      exact ⟨by rw [hhandler, Function.update_of_ne hj], by simp [hlock, hj],
        fun _ => by simp [hlock], by simp [hlock]⟩

theorem Steady.step_elsewhere (h : s.Steady) (hstep : s.step raft c = some (s', out))
    (hj : j ≠ c) : s.Elsewhere s' j := by
  rcases step_cases hstep with ⟨rc, -, hresume⟩ | ⟨l, hl, rfl, -⟩
  · exact (resume_moves hresume).elsewhere hj
  · have hadvances := TimedLock.advance_cases hl
    exact ⟨rfl, (hadvances.other hj).1, hadvances.holder_other h.lock hj, hadvances.firing⟩

theorem accept_elsewhere {request : LockRequest} (hstep : s.accept c request = some s')
    (hj : j ≠ c) : s.Elsewhere s' j :=
  ((accept_moves hstep).2.2 0).elsewhere hj

/-- Where a call begins. -/
def entry : LockRequest → HandlerPc
  | .acquire => .acquire
  | .release term id => .release term id
  | .append filename buffer => .append filename buffer

theorem accept_handler {request : LockRequest} (hstep : s.accept c request = some s') :
    s'.handler c = entry request := by
  unfold LockServer.accept at hstep
  split at hstep
  · split_ifs at hstep
    simp only [Option.some.injEq] at hstep
    subst hstep
    cases request <;> simp [goto, enter, entry]
  · exact absurd hstep (by simp)

end LockServer

/-! ### One step seen from one server -/

namespace Manager

/-- What a step does to the handlers of server `s`. -/
inductive Serves (m : Manager) (s : Server) : ManagerAction → LockServer → Prop
  | rests (x : ManagerAction) (hother : ∀ c crashAt, x ≠ .step s c crashAt)
      (hcalls : ∀ c request, x ≠ .accept s c request) : Serves m s x (m.server s)
  | ends (x : ManagerAction) : Serves m s x .init
  | accepts (c : ℤ) (request : LockRequest) (l : LockServer)
      (h : (m.server s).accept c request = some l) : Serves m s (.accept s c request) l
  | steps (c : ℤ) (crashAt : Option ℕ) (l : LockServer) (out : Option LogEntry)
      (h : (m.server s).step (m.cluster.nodes s).raft c = some (l, out)) :
      Serves m s (.step s c crashAt) l
  | fires (lock : TimedLock) (h : (m.server s).lock.fire = some lock) :
      Serves m s (.fire s) { m.server s with lock }

variable {m m' : Manager} {x : ManagerAction}

theorem serves_setServer {s v : Server} {l : LockServer} (h : m.Serves v x l)
    (hother : v ≠ s → m.Serves s x (m.server s)) : m.Serves s x ((m.setServer v l).server s) := by
  simp only [setServer, Function.update_apply]
  split
  · rename_i hs
    exact hs ▸ h
  · rename_i hs
    exact hother (Ne.symm hs)

theorem exec_serves (hx : m.exec x = some m') (s : Server) : m.Serves s x (m'.server s) := by
  cases exec_cases hx with
  | raft a c' =>
      simp only [move]
      split
      · exact .rests _ (by simp) (by simp)
      · exact .ends _
  | accept v c request l hup hl =>
      refine serves_setServer (.accepts c request l hl) fun hs => .rests _ (by simp) ?_
      rintro c' request' ⟨⟩
      exact hs rfl
  | serve v c crashAt l hup hstep =>
      refine serves_setServer (.steps c crashAt l none hstep) fun hs => .rests _ ?_ (by simp)
      rintro c' crashAt' ⟨⟩
      exact hs rfl
  | append v c crashAt l e c' hup hstep hc' =>
      simp only [move]
      split
      · refine serves_setServer (.steps c crashAt l (some e) hstep) fun hs => .rests _ ?_ (by simp)
        rintro c' crashAt' ⟨⟩
        exact hs rfl
      · exact .ends _
  | fire v lock hup hfire =>
      exact serves_setServer (.fires lock hfire) fun _ => .rests _ (by simp) (by simp)

theorem Serves.steady {s : Server} {l : LockServer} (h : m.Serves s x l)
    (hs : (m.server s).Steady) : l.Steady := by
  cases h with
  | rests => exact hs
  | ends => exact LockServer.steady_init
  | accepts c request _ h => exact hs.accept h
  | steps c crashAt _ out h => exact hs.step h
  | fires lock h => exact hs.fire h

/-- Only a server that is up has its handlers move. -/
theorem setServer_idle {s v : Server} {l : LockServer} (hup : (m.cluster.nodes v).up = true)
    (hdown : (m.cluster.nodes s).up = false) (hinit : m.server s = .init) :
    (m.setServer v l).server s = .init := by
  have hne : s ≠ v := by
    rintro rfl
    exact absurd (hup.symm.trans hdown) (by simp)
  simp only [setServer, Function.update_of_ne hne, hinit]

theorem move_idle {c' : Cluster} {s : Server}
    (h : m.server s = .init ∨ (c'.nodes s).up = false) : (m.move c').server s = .init := by
  simp only [move]
  split
  · rename_i hon
    exact h.resolve_right fun hoff => absurd (hon.symm.trans hoff) (by simp)
  · rfl

/-- A server that is down before or after a step has no handlers after it. -/
theorem exec_idle (hx : m.exec x = some m') {s : Server}
    (hinit : (m.cluster.nodes s).up = false → m.server s = .init)
    (hdown : (m.cluster.nodes s).up = false ∨ (m'.cluster.nodes s).up = false) :
    m'.server s = .init := by
  cases exec_cases hx with
  | raft a c' ha hc' => exact move_idle (hdown.imp_left hinit)
  | accept v c request l hup hl =>
      have hoff := hdown.elim id id
      exact setServer_idle hup hoff (hinit hoff)
  | serve v c crashAt l hup hstep =>
      have hoff := hdown.elim id id
      exact setServer_idle hup hoff (hinit hoff)
  | append v c crashAt l e c' hup hstep hc' =>
      exact move_idle (hdown.imp_left fun hoff => setServer_idle hup hoff (hinit hoff))
  | fire v lock hup hfire =>
      have hoff := hdown.elim id id
      exact setServer_idle hup hoff (hinit hoff)

end Manager

/-! ### The ledger -/

/-- `logged` is what the running or last call of a client's handler has put
into the log, `compacted` what snapshots have taken over from it. -/
structure Ledger where
  manager : Manager
  logged : Server → ℤ → List LogEntry
  compacted : Server → List LogEntry

namespace Ledger

def init (config : Config) : Ledger := ⟨.init config, fun _ _ => [], fun _ => []⟩

def server (l : Ledger) (s : Server) : LockServer := l.manager.server s

def raft (l : Ledger) (s : Server) : RaftState := (l.manager.cluster.nodes s).raft

def up (l : Ledger) (s : Server) : Bool := (l.manager.cluster.nodes s).up

def note (logged : Server → ℤ → List LogEntry) (s : Server) (c : ℤ) (es : List LogEntry) :
    Server → ℤ → List LogEntry :=
  Function.update logged s (Function.update (logged s) c es)

theorem note_self (logged : Server → ℤ → List LogEntry) (s : Server) (c : ℤ)
    (es : List LogEntry) : note logged s c es s = Function.update (logged s) c es := by
  simp only [note, Function.update_self]

theorem note_of_ne (logged : Server → ℤ → List LogEntry) {s v : Server} (h : s ≠ v) (c : ℤ)
    (es : List LogEntry) : note logged v c es s = logged s := by
  simp only [note, Function.update_of_ne h]

/-- What the next step of the handler of `c` puts into the log. -/
def puts (l : Ledger) (s : Server) (c : ℤ) : List LogEntry :=
  match (l.server s).step (l.raft s) c with
  | some (_, some e) => Manager.storedEntry (l.raft s) e
  | _ => []

def loggedAfter (l : Ledger) : ManagerAction → Server → ℤ → List LogEntry
  | .accept s c _ => note l.logged s c []
  | .step s c _ => note l.logged s c (l.logged s c ++ l.puts s c)
  | .raft _ | .fire _ => l.logged

def compactedAfter (l : Ledger) (m : Manager) : ManagerAction → Server → List LogEntry
  | .raft (.snapshotThread s _ _) => Function.update l.compacted s
      (l.compacted s ++ leftBehind (l.raft s) (m.cluster.nodes s).raft)
  | _ => l.compacted

def exec (l : Ledger) (x : ManagerAction) : Option Ledger :=
  (l.manager.exec x).map fun m => ⟨m, l.loggedAfter x, l.compactedAfter m x⟩

/-- A client's entry with the tag that `Raft_append_entry` has stored. -/
def Appended (l : Ledger) (term id : ℤ) (e : LogEntry) : Prop :=
  e.Tagged term id ∧ e.type = .clientLog ∧ e ∈ l.manager.stored.map LogEntry.core

/-- The server's log or snapshot contains such an entry. -/
def Recorded (l : Ledger) (s : Server) (term id : ℤ) : Prop :=
  Bears (l.raft s) (l.Appended term id) ∨ ∃ e ∈ l.compacted s, l.Appended term id e.core

variable {l l' : Ledger} {x : ManagerAction}

theorem exec_some (hx : l.exec x = some l') : l.manager.exec x = some l'.manager ∧
    l'.logged = l.loggedAfter x ∧ l'.compacted = l.compactedAfter l'.manager x := by
  obtain ⟨m, hm, rfl⟩ := Option.map_eq_some_iff.mp hx
  exact ⟨hm, rfl, rfl⟩

variable {config : Config} {ok : Manager → ManagerAction → Prop}

theorem compacted_grows (hx : l.exec x = some l') (s : Server) :
    l.compacted s ⊆ l'.compacted s := by
  rw [(exec_some hx).2.2]
  unfold compactedAfter
  split
  · rw [Function.update_apply]
    split
    · rename_i hs
      rw [hs]
      exact List.subset_append_left _ _
    · exact List.Subset.refl _
  · exact List.Subset.refl _

theorem stored_grows (hx : l.exec x = some l') : l.manager.stored ⊆ l'.manager.stored := by
  have hexec := Manager.exec_cases (exec_some hx).1
  generalize l'.manager = m' at hexec ⊢
  cases hexec with
  | append => exact List.subset_append_left _ _
  | _ => exact List.Subset.refl _

theorem Appended.exec {term id : ℤ} {e : LogEntry} (h : l.Appended term id e)
    (hx : l.exec x = some l') : l'.Appended term id e :=
  ⟨h.1, h.2.1, List.map_subset _ (stored_grows hx) h.2.2⟩

/-- A server that stays up keeps what it has recorded, as long as the packets
it handles spare it. -/
theorem Recorded.exec {s : Server} {term id : ℤ} (h : l.Recorded s term id)
    (hx : l.exec x = some l') (hup : l.up s = true) (hon : l'.up s = true)
    (hspares : ∀ a, x = .raft a → a.Spares l.manager.cluster s (l.Appended term id)) :
    l'.Recorded s term id := by
  have happended : ∀ e, l.Appended term id e → l'.Appended term id e := fun e he => he.exec hx
  rcases h with hbears | ⟨e, he, ht⟩
  swap
  · exact Or.inr ⟨e, compacted_grows hx s he, happended _ ht⟩
  obtain ⟨hm, -, hcompacted⟩ := exec_some hx
  have hexec := Manager.exec_cases hm
  -- what the log bears is looked at in the state before the step
  suffices hbefore : Bears (l'.raft s) (l.Appended term id) ∨
      ∃ e ∈ l'.compacted s, l.Appended term id e.core from
    hbefore.imp (fun h => h.mono happended) fun ⟨e, he, ht⟩ => ⟨e, he, happended _ ht⟩
  unfold raft
  unfold up at hon
  rw [hcompacted]
  generalize l'.manager = m' at hexec hon ⊢
  cases hexec with
  | raft a c' ha hc' =>
      have hturn := Cluster.exec_turn hc' s
      rcases hturn.bears hup hon (hspares a rfl) hbears with hkept | ⟨⟨k, rfl⟩, e, he, ht⟩
      · exact Or.inl hkept
      · refine Or.inr ⟨e, ?_, ht⟩
        rw [compactedAfter, Function.update_self]
        exact List.mem_append_right _ he
  | append v c crashAt k e c' hrunning hstep hc' =>
      have hturn := Cluster.exec_turn hc' s
      rcases hturn.bears hup hon (fun k d hx => absurd hx (by simp)) hbears with
        hkept | ⟨⟨k, hk⟩, -⟩
      · exact Or.inl hkept
      · exact absurd hk (by simp)
  | accept | serve | fire => exact Or.inl hbears

end Ledger

end RaftLock

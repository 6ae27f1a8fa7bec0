import RaftLock.Lock.Exclusion
import RaftLock.Raft.Cluster

/-!
The lock manager: the servers of a configuration, each with its Raft module
and its request handlers.

`handle_packet` calls a handler when it finds the server a leader. The handler
then goes on whatever becomes of that: it reads the Raft module again where
`server.c` does, without its lock. A process that ends takes the lock and the
transaction counter with it.
-/

namespace RaftLock

/-- `tags` lists what successful calls of `handle_lock_acquire` have returned
and where, `stored` the entries that `Raft_append_entry` has put into a log. -/
structure Manager where
  cluster : Cluster
  server : Server → LockServer
  tags : List (Server × ℤ × ℤ)
  stored : List LogEntry

inductive ManagerAction
  | raft (x : Action)
  | accept (s : Server) (c : ℤ) (request : LockRequest)
  | step (s : Server) (c : ℤ) (crashAt : Option ℕ)
  | fire (s : Server)
  deriving DecidableEq, Repr

namespace Manager

def init (config : Config) : Manager := ⟨.init config, fun _ => .init, [], []⟩

/-- The Raft modules move on; a process that has ended starts afresh. -/
def move (m : Manager) (c : Cluster) : Manager :=
  { m with cluster := c, server := fun s => if (c.nodes s).up then m.server s else .init }

/-- The tag in the reply to client `c`, if it is one to an acquire. -/
def handed (s : Server) (l : LockServer) (c : ℤ) : List (Server × ℤ × ℤ) :=
  match l.handler c with
  | .returned ⟨_, .tag term id⟩ => [(s, term, id)]
  | _ => []

/-- The entry as `Raft_append_entry` stores it, if it does. -/
def storedEntry (raft : RaftState) (log : LogEntry) : List LogEntry :=
  if raft.state ≠ .leader ∨ raft.logCount = raft.startLogIndex + (logSize : ℤ) then []
  else [{ log with term := raft.currentTerm, nServersReplicated := 1, type := .clientLog }]

def setServer (m : Manager) (s : Server) (l : LockServer) : Manager :=
  { m with server := Function.update m.server s l }

def exec (m : Manager) : ManagerAction → Option Manager
  -- entries come from the handlers
  | .raft (.append _ _ _) => none
  | .raft x => (m.cluster.exec x).map m.move
  | .accept s c request =>
    if (m.cluster.nodes s).up ∧ (m.cluster.nodes s).raft.state = .leader then
      ((m.server s).accept c request).map (m.setServer s)
    else none
  | .step s c crashAt =>
    if (m.cluster.nodes s).up then
      match (m.server s).step (m.cluster.nodes s).raft c with
      | none => none
      | some (l, none) => some { m.setServer s l with tags := m.tags ++ handed s l c }
      | some (l, some e) =>
        (m.cluster.exec (.append s e crashAt)).map
          { m.setServer s l with
            stored := m.stored ++ storedEntry (m.cluster.nodes s).raft e }.move
    else none
  | .fire s =>
    if (m.cluster.nodes s).up then
      (m.server s).lock.fire.map fun lock => m.setServer s { m.server s with lock }
    else none

abbrev Reachable (config : Config) (m : Manager) : Prop := Machine.Reaches exec (init config) m

/-- The steps of the lock manager. -/
inductive Executes (m : Manager) : ManagerAction → Manager → Prop
  | raft (a : Action) (c' : Cluster) (ha : ∀ s e crashAt, a ≠ .append s e crashAt)
      (h : m.cluster.exec a = some c') : Executes m (.raft a) (m.move c')
  | accept (s : Server) (c : ℤ) (request : LockRequest) (l : LockServer)
      (hup : (m.cluster.nodes s).up = true) (h : (m.server s).accept c request = some l) :
      Executes m (.accept s c request) (m.setServer s l)
  | serve (s : Server) (c : ℤ) (crashAt : Option ℕ) (l : LockServer)
      (hup : (m.cluster.nodes s).up = true)
      (h : (m.server s).step (m.cluster.nodes s).raft c = some (l, none)) :
      Executes m (.step s c crashAt) { m.setServer s l with tags := m.tags ++ handed s l c }
  | append (s : Server) (c : ℤ) (crashAt : Option ℕ) (l : LockServer) (e : LogEntry)
      (c' : Cluster) (hup : (m.cluster.nodes s).up = true)
      (h : (m.server s).step (m.cluster.nodes s).raft c = some (l, some e))
      (hc' : m.cluster.exec (.append s e crashAt) = some c') :
      Executes m (.step s c crashAt) ({ m.setServer s l with
        stored := m.stored ++ storedEntry (m.cluster.nodes s).raft e }.move c')
  | fire (s : Server) (lock : TimedLock) (hup : (m.cluster.nodes s).up = true)
      (h : (m.server s).lock.fire = some lock) :
      Executes m (.fire s) (m.setServer s { m.server s with lock })

theorem exec_cases {m m' : Manager} {x : ManagerAction} (hx : m.exec x = some m') :
    m.Executes x m' := by
  cases x with
  | raft a =>
      have hmove : (m.cluster.exec a).map m.move = some m' ∧
          ∀ s e crashAt, a ≠ .append s e crashAt := by
        cases a <;> simp only [exec, reduceCtorEq] at hx <;> exact ⟨hx, by simp⟩
      obtain ⟨c', hc', rfl⟩ := Option.map_eq_some_iff.mp hmove.1
      exact .raft a c' hmove.2 hc'
  | accept s c request =>
      simp only [exec] at hx
      split_ifs at hx with hup
      obtain ⟨l, hl, rfl⟩ := Option.map_eq_some_iff.mp hx
      exact .accept s c request l hup.1 hl
  | step s c crashAt =>
      simp only [exec] at hx
      split_ifs at hx with hup
      cases hstep : (m.server s).step (m.cluster.nodes s).raft c with
      | none => simp [hstep] at hx
      | some r =>
          obtain ⟨l, out⟩ := r
          cases out with
          | none =>
              simp only [hstep, Option.some.injEq] at hx
              subst hx
              exact .serve s c crashAt l hup hstep
          | some e =>
              simp only [hstep] at hx
              obtain ⟨c', hc', rfl⟩ := Option.map_eq_some_iff.mp hx
              exact .append s c crashAt l e c' hup hstep hc'
  | fire s =>
      simp only [exec] at hx
      split_ifs at hx with hup
      obtain ⟨lock, hlock, rfl⟩ := Option.map_eq_some_iff.mp hx
      exact .fire s lock hup hlock

end Manager

end RaftLock

import RaftLock.Lock.Ledger

/-!
The handlers of a server as threads.

`handle_packet` calls a handler in a thread of its own and does not ask whether
the client has another one running; the lock knows a thread by the id of its
client only. A thread keeps where it stands in its handler and in the lock. On
its turn it moves as the handler of its client does, from there.

As long as no client has two handlers running, the clients stand where their
threads do, and the machine of the clients and the one of the threads have the
same runs (`ThreadLedger.ledger_run`, `ThreadLedger.of_ledger`). When that is so
in the server with its table of clients is in `Lock/Service`.
-/

namespace RaftLock

/-- The handler has returned. -/
def HandlerPc.ended : HandlerPc → Bool
  | .returned _ => true
  | _ => false

theorem HandlerPc.ended_iff {p : HandlerPc} : p.ended = true ↔ ∃ reply, p = .returned reply := by
  cases p <;> simp [ended]

/-- A thread of `handle_packet` that has called a handler. `logged` is what this
call has put into the log; nothing in the program can see it. -/
structure HandlerThread where
  client : ℤ
  pc : HandlerPc
  lockPc : LockPc
  logged : List LogEntry
  deriving DecidableEq, Repr

abbrev HandlerThread.Running (t : HandlerThread) : Prop := t.pc.ended = false

/-- No handler of client `c` is running. -/
def Unserved (ts : List HandlerThread) (c : ℤ) : Prop := ∀ t ∈ ts, t.client = c → ¬ t.Running

instance (ts : List HandlerThread) (c : ℤ) : Decidable (Unserved ts c) :=
  inferInstanceAs (Decidable (∀ t ∈ ts, t.client = c → ¬ t.Running))

/-! ### A thread's turn -/

namespace LockServer

/-- The thread takes the place of its client's handler. -/
def load (s : LockServer) (t : HandlerThread) : LockServer :=
  { s with
    handler := Function.update s.handler t.client t.pc
    lock := s.lock.goto t.client t.lockPc }

/-- The thread after its turn. -/
def keep (s : LockServer) (t : HandlerThread) : HandlerThread :=
  { t with pc := s.handler t.client, lockPc := s.lock.pc t.client }

/-- A new thread. What its last call of the lock has returned is not read
before it has made one. -/
def fresh (s : LockServer) (c : ℤ) : HandlerThread :=
  { client := c
    pc := .returned ⟨0, .text ""⟩
    lockPc := match s.lock.pc c with
      | .outside rc => .outside rc
      | _ => .outside 0
    logged := [] }

variable {s s' : LockServer} {raft : RaftState} {c : ℤ} {out : Option LogEntry}
  {logged logged' : ℤ → List LogEntry} {ts ts' : List HandlerThread} {t u : HandlerThread} {k : ℕ}

theorem load_accept (hended : (s.handler c).ended = true)
    (hout : ∃ rc, s.lock.pc c = .outside rc) (request : LockRequest) :
    (s.load (s.fresh c)).accept c request = s.accept c request := by
  obtain ⟨reply, hp⟩ := HandlerPc.ended_iff.mp hended
  obtain ⟨rc, hrc⟩ := hout
  have hlock : s.lock.goto c (.outside rc) = s.lock := by
    rw [← hrc, TimedLock.goto, Function.update_eq_self]
  unfold accept
  simp only [load, fresh, hrc, hlock, Function.update_self, hp]
  cases request <;> simp only [enter, goto, Function.update_idem]

/-- A handler that has returned makes no step. -/
theorem step_ended (hended : (s.handler c).ended = true) (hout : ∃ rc, s.lock.pc c = .outside rc)
    (raft : RaftState) : s.step raft c = none := by
  obtain ⟨reply, hp⟩ := HandlerPc.ended_iff.mp hended
  obtain ⟨rc, hrc⟩ := hout
  simp only [step, hrc, resume, hp]

/-! ### Threads and clients -/

/-- The handler of the thread's client stands where the thread does, and has
logged what the thread has. -/
structure StandsWith (s : LockServer) (logged : ℤ → List LogEntry) (t : HandlerThread) : Prop where
  handler : s.handler t.client = t.pc
  pc : s.lock.pc t.client = t.lockPc
  logged : logged t.client = t.logged

theorem StandsWith.load (h : s.StandsWith logged t) : s.load t = s := by
  simp only [LockServer.load, TimedLock.goto, ← h.handler, ← h.pc, Function.update_eq_self]

/-- No client has two threads running, and its handler stands where the one
that it has stands. -/
structure Threaded (s : LockServer) (logged : ℤ → List LogEntry) (ts : List HandlerThread) :
    Prop where
  steady : s.Steady
  stands : ∀ t ∈ ts, t.Running → s.StandsWith logged t
  apart : ts.Pairwise fun t u => t.Running → u.Running → t.client ≠ u.client
  served : ∀ c, (s.handler c).ended = false → ∃ t ∈ ts, t.client = c ∧ t.Running
  ended : ∀ t ∈ ts, ¬ t.Running → ∃ rc, t.lockPc = .outside rc

theorem threaded_init (logged : ℤ → List LogEntry) : init.Threaded logged [] where
  steady := steady_init
  stands := by simp
  apart := .nil
  served c h := absurd h (by simp [init, HandlerPc.ended])
  ended := by simp

/-- One client's handler has moved, and one thread with it. -/
theorem Threaded.moved {rest : List HandlerThread} (h : s.Threaded logged ts) (hsteady : s'.Steady)
    (helse : ∀ j, j ≠ u.client → s'.handler j = s.handler j ∧ s'.lock.pc j = s.lock.pc j ∧
      logged' j = logged j) (hu : s'.StandsWith logged' u) (hperm : ts'.Perm (u :: rest))
    (hrest : ∀ v ∈ rest, v ∈ ts ∧ (v.Running → v.client ≠ u.client))
    (hpair : rest.Pairwise fun t v => t.Running → v.Running → t.client ≠ v.client)
    (hback : ∀ v ∈ ts, v.Running → v.client ≠ u.client → v ∈ rest) :
    s'.Threaded logged' ts' where
  steady := hsteady
  stands v hv hrun := by
    rcases List.mem_cons.mp (hperm.mem_iff.mp hv) with rfl | hv
    · exact hu
    · obtain ⟨hmem, hne⟩ := hrest v hv
      obtain ⟨hhandler, hpc, hlogged⟩ := helse v.client (hne hrun)
      have hstands := h.stands v hmem hrun
      exact ⟨hhandler.trans hstands.handler, hpc.trans hstands.pc,
        hlogged.trans hstands.logged⟩
  apart := by
    refine (hperm.pairwise_iff fun h ht hv heq => h hv ht heq.symm).mpr ?_
    refine List.pairwise_cons.mpr ⟨fun v hv _ hrun => ?_, hpair⟩
    exact ((hrest v hv).2 hrun).symm
  served c hc := by
    by_cases hcu : c = u.client
    · subst hcu
      refine ⟨u, hperm.mem_iff.mpr List.mem_cons_self, rfl, ?_⟩
      rwa [HandlerThread.Running, ← hu.handler]
    · rw [(helse c hcu).1] at hc
      obtain ⟨v, hv, rfl, hrun⟩ := h.served c hc
      exact ⟨v, hperm.mem_iff.mpr (List.mem_cons_of_mem _ (hback v hv hrun hcu)), rfl, hrun⟩
  ended v hv hrun := by
    rcases List.mem_cons.mp (hperm.mem_iff.mp hv) with rfl | hv
    · rw [HandlerThread.Running, Bool.not_eq_false, ← hu.handler] at hrun
      obtain ⟨reply, hp⟩ := HandlerPc.ended_iff.mp hrun
      rw [← hu.pc]
      exact (hsteady.seated _).outside hp
    · exact h.ended v (hrest v hv).1 hrun

/-- A handler is called for a client that has none running. -/
theorem Threaded.accept {request : LockRequest} (h : s.Threaded logged ts)
    (hfree : Unserved ts u.client) (hstep : s.accept u.client request = some s')
    (helse : ∀ j, j ≠ u.client → logged' j = logged j) (hu : s'.StandsWith logged' u) :
    s'.Threaded logged' (ts ++ [u]) := by
  refine h.moved (h.steady.accept hstep) (fun j hj => ?_) hu
    List.perm_append_comm (fun v hv => ⟨hv, fun hrun heq => hfree v hv heq hrun⟩) h.apart
    fun v hv _ _ => hv
  have he := accept_elsewhere hstep hj
  exact ⟨he.handler, he.pc, helse j hj⟩

/-- A thread has made a step. -/
theorem Threaded.step (h : s.Threaded logged ts) (ht : ts[k]? = some t) (hrun : t.Running)
    (hsame : u.client = t.client) (hstep : s.step raft t.client = some (s', out))
    (helse : ∀ j, j ≠ t.client → logged' j = logged j) (hu : s'.StandsWith logged' u) :
    s'.Threaded logged' (List.replaceAt ts k (some u)) := by
  obtain ⟨hbefore, hafter⟩ := List.replaceAt_perm ht (some u)
  have hpair := (hbefore.pairwise_iff fun h ht hv heq => h hv ht heq.symm).mp h.apart
  obtain ⟨hapart, hrest⟩ := List.pairwise_cons.mp hpair
  refine h.moved (h.steady.step hstep) (fun j hj => ?_) hu hafter (fun v hv => ⟨?_, ?_⟩) hrest
    fun v hv _ hne => ?_
  · rw [hsame] at hj
    have he := h.steady.step_elsewhere hstep hj
    exact ⟨he.handler, he.pc, helse j hj⟩
  · exact hbefore.mem_iff.mpr (List.mem_cons_of_mem _ hv)
  · rw [hsame]
    exact fun hv' => (hapart v hv hrun hv').symm
  · refine (List.mem_cons.mp (hbefore.mem_iff.mp hv)).resolve_left ?_
    rintro rfl
    exact hne hsame.symm

theorem Threaded.fire (h : s.Threaded logged ts) {lock : TimedLock}
    (hfire : s.lock.fire = some lock) : Threaded { s with lock } logged ts where
  steady := h.steady.fire hfire
  stands t ht hrun :=
    ⟨(h.stands t ht hrun).handler,
      (congrFun (TimedLock.fire_frame hfire).1 _).trans (h.stands t ht hrun).pc,
      (h.stands t ht hrun).logged⟩
  apart := h.apart
  served := h.served
  ended := h.ended

/-- The handler of a client with no running thread has returned. -/
theorem Threaded.returned (h : s.Threaded logged ts) (hfree : Unserved ts c) :
    (s.handler c).ended = true ∧ ∃ rc, s.lock.pc c = .outside rc := by
  have hended : (s.handler c).ended = true := by
    by_contra hrun
    rw [Bool.not_eq_true] at hrun
    obtain ⟨t, ht, hc, hrun⟩ := h.served c hrun
    exact hfree t ht hc hrun
  obtain ⟨reply, hp⟩ := HandlerPc.ended_iff.mp hended
  exact ⟨hended, (h.steady.seated c).outside hp⟩

theorem Threaded.unserved (h : s.Threaded logged ts) (hended : (s.handler c).ended = true) :
    Unserved ts c := by
  rintro t ht rfl hrun
  rw [(h.stands t ht hrun).handler, hrun] at hended
  exact absurd hended (by simp)

/-- A thread that can make a step is running. -/
theorem Threaded.running (h : s.Threaded logged ts) (ht : ts[k]? = some t)
    (hstep : (s.load t).step raft t.client = some (s', out)) : t.Running := by
  by_contra hrun
  obtain ⟨rc, hrc⟩ := h.ended t (List.mem_of_getElem? ht) hrun
  rw [HandlerThread.Running, Bool.not_eq_false] at hrun
  have hnone := step_ended (s := s.load t) (c := t.client) (by simpa [load] using hrun)
    ⟨rc, by simpa [load] using hrc⟩ raft
  rw [hnone] at hstep
  exact absurd hstep (by simp)

/-- A handler that can make a step is one of the threads. -/
theorem Threaded.thread (h : s.Threaded logged ts) (hstep : s.step raft c = some (s', out)) :
    ∃ (k : ℕ) (t : HandlerThread), ts[k]? = some t ∧ t.client = c ∧ t.Running := by
  have hrun : (s.handler c).ended = false := by
    by_contra hended
    rw [Bool.not_eq_false] at hended
    obtain ⟨reply, hp⟩ := HandlerPc.ended_iff.mp hended
    rw [step_ended hended ((h.steady.seated c).outside hp)] at hstep
    exact absurd hstep (by simp)
  obtain ⟨t, ht, hc, hrun⟩ := h.served c hrun
  obtain ⟨k, hk⟩ := List.mem_iff_getElem?.mp ht
  exact ⟨k, t, hk, hc, hrun⟩

end LockServer

/-! ### The threads of one server -/

/-- The memory the handlers of a server share, and the threads. In `server` a
client stands where its last thread to move does. -/
structure HandlerThreads where
  server : LockServer
  threads : List HandlerThread

inductive ThreadAction
  | accept (c : ℤ) (request : LockRequest)
  | step (k : ℕ) (raft : RaftState)
  | fire

namespace HandlerThreads

def init : HandlerThreads := ⟨.init, []⟩

def exec (m : HandlerThreads) : ThreadAction → Option HandlerThreads
  | .accept c request =>
    let t := m.server.fresh c
    ((m.server.load t).accept c request).map fun s => ⟨s, m.threads ++ [s.keep t]⟩
  | .step k raft =>
    match m.threads[k]? with
    | none => none
    | some t =>
      ((m.server.load t).step raft t.client).map fun r =>
        ⟨r.1, List.replaceAt m.threads k (some (r.1.keep t))⟩
  | .fire => m.server.lock.fire.map fun lock => { m with server := { m.server with lock } }

/-- A handler is called for a client that has none running. -/
def OneEach (m : HandlerThreads) : ThreadAction → Prop
  | .accept c _ => Unserved m.threads c
  | .step _ _ | .fire => True

instance (m : HandlerThreads) (x : ThreadAction) : Decidable (m.OneEach x) :=
  match x with
  | .accept c _ => inferInstanceAs (Decidable (Unserved m.threads c))
  | .step _ _ | .fire => inferInstanceAs (Decidable True)

/-- The step as one of a client's handler. -/
def plain (m : HandlerThreads) : ThreadAction → HandlerAction
  | .accept c request => .accept c request
  | .step k raft => .step (m.threads[k]?.elim (-1) HandlerThread.client) raft
  | .fire => .fire

def Inv (m : HandlerThreads) : Prop := m.server.Threaded (fun _ => []) m.threads

variable {m m' : HandlerThreads} {x : ThreadAction} {y : HandlerAction} {s' : LockServer}
  {k : ℕ} {t : HandlerThread}

theorem inv_init : init.Inv := LockServer.threaded_init _

/-- As long as no client has two handlers running, the threads move as the
clients do. -/
theorem Inv.exec (h : m.Inv) (hone : m.OneEach x) (hx : m.exec x = some m') :
    m.server.exec (m.plain x) = some m'.server ∧ m'.Inv := by
  cases x with
  | accept c request =>
      obtain ⟨hended, hout⟩ := LockServer.Threaded.returned h hone
      simp only [HandlerThreads.exec, LockServer.load_accept hended hout] at hx
      obtain ⟨s, hs, rfl⟩ := Option.map_eq_some_iff.mp hx
      exact ⟨hs, LockServer.Threaded.accept h hone hs (fun _ _ => rfl) ⟨rfl, rfl, rfl⟩⟩
  | step k raft =>
      simp only [HandlerThreads.exec] at hx
      cases ht : m.threads[k]? with
      | none => simp [ht] at hx
      | some t =>
          simp only [ht] at hx
          obtain ⟨⟨s, out⟩, hs, rfl⟩ := Option.map_eq_some_iff.mp hx
          have hrun := LockServer.Threaded.running h ht hs
          have hstands := h.stands t (List.mem_of_getElem? ht) hrun
          rw [hstands.load] at hs
          refine ⟨?_, LockServer.Threaded.step h ht hrun rfl hs (fun _ _ => rfl)
            ⟨rfl, rfl, hstands.logged⟩⟩
          simp only [plain, ht, Option.elim_some, LockServer.exec, hs, Option.map_some]
  | fire =>
      obtain ⟨lock, hlock, rfl⟩ := Option.map_eq_some_iff.mp hx
      refine ⟨?_, LockServer.Threaded.fire h hlock⟩
      simp only [plain, LockServer.exec, hlock, Option.map_some]

/-- A step of a client's handler is one of its thread. -/
theorem Inv.of_plain (h : m.Inv) (hy : m.server.exec y = some s') :
    ∃ x m', m.plain x = y ∧ m.OneEach x ∧ m.exec x = some m' ∧ m'.server = s' := by
  cases y with
  | accept c request =>
      obtain ⟨-, ⟨reply, hp⟩, -⟩ := LockServer.accept_moves hy
      have hended : (m.server.handler c).ended = true := HandlerPc.ended_iff.mpr ⟨reply, hp⟩
      have hload := LockServer.load_accept hended ((h.steady.seated c).outside hp) request
      refine ⟨.accept c request, ⟨s', m.threads ++ [s'.keep (m.server.fresh c)]⟩, rfl,
        LockServer.Threaded.unserved h hended, ?_, rfl⟩
      have hy' : m.server.accept c request = some s' := hy
      simp only [HandlerThreads.exec, hload, hy', Option.map_some]
  | step c raft =>
      obtain ⟨⟨s, out⟩, hs, rfl⟩ := Option.map_eq_some_iff.mp hy
      obtain ⟨k, t, ht, rfl, hrun⟩ := LockServer.Threaded.thread h hs
      have hload := (h.stands t (List.mem_of_getElem? ht) hrun).load
      refine ⟨.step k raft, ⟨s, List.replaceAt m.threads k (some (s.keep t))⟩, ?_, trivial, ?_, rfl⟩
      · simp only [plain, ht, Option.elim_some]
      · simp only [HandlerThreads.exec, ht, hload, hs, Option.map_some]
  | fire =>
      obtain ⟨lock, hlock, rfl⟩ := Option.map_eq_some_iff.mp hy
      refine ⟨.fire, { m with server := { m.server with lock } }, rfl, trivial, ?_, rfl⟩
      simp only [HandlerThreads.exec, hlock, Option.map_some]

/-- A run in which no client has two handlers running is one of the clients. -/
theorem server_run (h : Machine.Steps HandlerThreads.exec OneEach init m) :
    Machine.Reaches LockServer.exec .init m.server ∧ m.Inv := by
  obtain ⟨s, hrun, rfl, hinv⟩ : ∃ s, Machine.Reaches LockServer.exec .init s ∧
      m.server = s ∧ m.Inv := by
    refine h.simulate (R := fun m s => m.server = s ∧ m.Inv) (fun m s x m' hR hone hx => ?_)
      ⟨rfl, inv_init⟩
    obtain ⟨rfl, hinv⟩ := hR
    obtain ⟨hs, hinv'⟩ := hinv.exec hone hx
    exact ⟨m.plain x, m'.server, trivial, hs, rfl, hinv'⟩
  exact ⟨hrun, hinv⟩

/-- A thread keeps its place, and serves the same client. -/
theorem exec_thread (hx : m.exec x = some m') (ht : m.threads[k]? = some t) :
    ∃ t', m'.threads[k]? = some t' ∧ t'.client = t.client := by
  cases x with
  | accept c request =>
      obtain ⟨s, -, rfl⟩ := Option.map_eq_some_iff.mp hx
      obtain ⟨hlt, -⟩ := List.getElem?_eq_some_iff.mp ht
      exact ⟨t, (List.getElem?_append_left hlt).trans ht, rfl⟩
  | step j raft =>
      simp only [exec] at hx
      cases hj : m.threads[j]? with
      | none => simp [hj] at hx
      | some u =>
          simp only [hj] at hx
          obtain ⟨r, -, rfl⟩ := Option.map_eq_some_iff.mp hx
          obtain ⟨hlt, -⟩ := List.getElem?_eq_some_iff.mp ht
          rcases eq_or_ne j k with rfl | hne
          · obtain rfl := Option.some.inj (ht.symm.trans hj)
            exact ⟨r.1.keep t, List.getElem?_set_self hlt, rfl⟩
          · exact ⟨t, (List.getElem?_set_ne hne).trans ht, rfl⟩
  | fire =>
      obtain ⟨lock, -, rfl⟩ := Option.map_eq_some_iff.mp hx
      exact ⟨t, ht, rfl⟩

end HandlerThreads

/-! ### The threads of all servers -/

/-- The lock manager with its ledger and the threads of its handlers. -/
structure ThreadLedger where
  ledger : Ledger
  threads : Server → List HandlerThread

inductive ThreadedAction
  | raft (x : Action)
  | accept (s : Server) (c : ℤ) (request : LockRequest)
  | step (s : Server) (k : ℕ) (crashAt : Option ℕ)
  | fire (s : Server)
  deriving DecidableEq, Repr

namespace Ledger

/-- The thread takes the place of its client's handler at server `s`. -/
def load (l : Ledger) (s : Server) (t : HandlerThread) : Ledger :=
  { l with
    manager := l.manager.setServer s ((l.server s).load t)
    logged := note l.logged s t.client t.logged }

def keep (l : Ledger) (s : Server) (t : HandlerThread) : HandlerThread :=
  { (l.server s).keep t with logged := l.logged s t.client }

/-- A process that ends takes its threads with it. -/
def surviving (l : Ledger) (threads : Server → List HandlerThread) :
    Server → List HandlerThread :=
  fun s => if l.up s then threads s else []

end Ledger

namespace ThreadLedger

def init (config : Config) : ThreadLedger := ⟨.init config, fun _ => []⟩

def exec (m : ThreadLedger) : ThreadedAction → Option ThreadLedger
  | .raft x => (m.ledger.exec (.raft x)).map fun l => ⟨l, l.surviving m.threads⟩
  | .accept s c request =>
    let t := (m.ledger.server s).fresh c
    ((m.ledger.load s t).exec (.accept s c request)).map fun l =>
      ⟨l, Function.update m.threads s (m.threads s ++ [l.keep s t])⟩
  | .step s k crashAt =>
    match (m.threads s)[k]? with
    | none => none
    | some t =>
      ((m.ledger.load s t).exec (.step s t.client crashAt)).map fun l =>
        ⟨l, l.surviving
          (Function.update m.threads s (List.replaceAt (m.threads s) k (some (l.keep s t))))⟩
  | .fire s => (m.ledger.exec (.fire s)).map fun l => { m with ledger := l }

/-- A handler is called for a client that has none running at the server. -/
def OneEach (m : ThreadLedger) : ThreadedAction → Prop
  | .accept s c _ => Unserved (m.threads s) c
  | .raft _ | .step _ _ _ | .fire _ => True

/-- The step as one of a client's handler. -/
def plain (m : ThreadLedger) : ThreadedAction → ManagerAction
  | .raft x => .raft x
  | .accept s c request => .accept s c request
  | .step s k crashAt => .step s ((m.threads s)[k]?.elim (-1) HandlerThread.client) crashAt
  | .fire s => .fire s

/-- The steps that meet a condition and give no client two running handlers. -/
def Meets (ok : Ledger → ManagerAction → Prop) (m : ThreadLedger) (x : ThreadedAction) : Prop :=
  m.OneEach x ∧ ok m.ledger (m.plain x)

instance (m : ThreadLedger) (x : ThreadedAction) : Decidable (m.OneEach x) :=
  match x with
  | .accept s c _ => inferInstanceAs (Decidable (Unserved (m.threads s) c))
  | .raft _ | .step _ _ _ | .fire _ => inferInstanceAs (Decidable True)

instance (ok : Ledger → ManagerAction → Prop) [∀ l x, Decidable (ok l x)] (m : ThreadLedger)
    (x : ThreadedAction) : Decidable (Meets ok m x) :=
  inferInstanceAs (Decidable (_ ∧ _))

structure Inv (m : ThreadLedger) : Prop where
  threaded : ∀ s, (m.ledger.server s).Threaded (m.ledger.logged s) (m.threads s)
  down : ∀ s, m.ledger.up s = false → m.threads s = []

theorem inv_init (config : Config) : (init config).Inv :=
  ⟨fun _ => LockServer.threaded_init _, fun _ _ => rfl⟩

end ThreadLedger

namespace Ledger

variable {l l' : Ledger} {s : Server} {c : ℤ} {t : HandlerThread}

theorem note_eq_self (logged : Server → ℤ → List LogEntry) (s : Server) (c : ℤ) :
    note logged s c (logged s c) = logged := by
  simp only [note, Function.update_eq_self]

theorem load_stands (h : (l.server s).StandsWith (l.logged s) t) : l.load s t = l := by
  have hload : (l.manager.server s).load t = l.manager.server s := h.load
  simp only [load, server, hload, Manager.setServer, Function.update_eq_self, ← h.logged,
    note_eq_self]

theorem load_accept (hended : ((l.server s).handler c).ended = true)
    (hout : ∃ rc, (l.server s).lock.pc c = .outside rc) (request : LockRequest) :
    (l.load s ((l.server s).fresh c)).exec (.accept s c request) =
      l.exec (.accept s c request) := by
  have hload := LockServer.load_accept hended hout request
  have hidem : ∀ u v, (l.manager.setServer s u).setServer s v = l.manager.setServer s v := by
    intro u v
    simp only [Manager.setServer, Function.update_idem]
  have hserver : ∀ u, (l.manager.setServer s u).server s = u := fun u => Function.update_self ..
  have hnote : note (note l.logged s c []) s c [] = note l.logged s c [] := by
    simp only [note, Function.update_self, Function.update_idem]
  have hmap : (l.manager.setServer s ((l.server s).load ((l.server s).fresh c))).exec
      (.accept s c request) = l.manager.exec (.accept s c request) := by
    simp only [Manager.exec, hserver, hload, funext (hidem _)]
    rfl
  simp only [exec, load, hmap, loggedAfter, compactedAfter]
  rw [show ((l.server s).fresh c).client = c from rfl,
    show ((l.server s).fresh c).logged = [] from rfl, hnote]

end Ledger

namespace ThreadLedger

variable {m m' : ThreadLedger} {x : ThreadedAction} {y : ManagerAction} {l : Ledger}
  {s : Server} {k : ℕ} {t : HandlerThread}

/-- The threads of one server move. -/
theorem Inv.served (h : m.Inv) {server : LockServer} {logged : Server → ℤ → List LogEntry}
    {ts : List HandlerThread} (hlogged : ∀ v, v ≠ s → logged v = m.ledger.logged v)
    (hs : server.Threaded (logged s) ts) (v : Server) :
    ((m.ledger.manager.setServer s server).server v).Threaded (logged v)
      (Function.update m.threads s ts v) := by
  rcases eq_or_ne v s with rfl | hv
  · simpa only [Manager.setServer, Function.update_self] using hs
  · simp only [Manager.setServer, Function.update_of_ne hv, hlogged v hv]
    exact h.threaded v

/-- A server that goes down takes its threads with it. -/
theorem surviving_inv {threads : Server → List HandlerThread} {m₁ : Manager} {c' : Cluster}
    {logged : Server → ℤ → List LogEntry} {compacted : Server → List LogEntry}
    (h : ∀ v, (c'.nodes v).up = true → (m₁.server v).Threaded (logged v) (threads v)) :
    Inv ⟨⟨m₁.move c', logged, compacted⟩,
      Ledger.surviving ⟨m₁.move c', logged, compacted⟩ threads⟩ where
  threaded v := by
    cases hup : (c'.nodes v).up with
    | true =>
        simp only [Ledger.server, Ledger.surviving, Ledger.up, Manager.move, hup, if_true]
        exact h v hup
    | false =>
        simp only [Ledger.server, Ledger.surviving, Ledger.up, Manager.move, hup,
          Bool.false_eq_true, if_false]
        exact LockServer.threaded_init _
  down v hdown := if_neg (by rw [hdown]; simp)

/-- A server that stays up keeps its threads. -/
theorem Inv.surviving (h : m.Inv) (hup : m.ledger.up s = true) {ts : List HandlerThread}
    (hsame : ∀ v, l.up v = m.ledger.up v) :
    l.surviving (Function.update m.threads s ts) = Function.update m.threads s ts := by
  funext v
  simp only [Ledger.surviving, hsame v]
  split_ifs with hon
  · rfl
  · have hv : v ≠ s := by
      rintro rfl
      exact hon hup
    rw [Function.update_of_ne hv, h.down v (by simpa using hon)]

theorem Inv.raft (h : m.Inv) {a : Action} (hl : m.ledger.exec (.raft a) = some l) :
    Inv ⟨l, l.surviving m.threads⟩ := by
  obtain ⟨hm, hlogged, -⟩ := Ledger.exec_some hl
  obtain ⟨manager, logged, compacted⟩ := l
  simp only at hm hlogged
  subst hlogged
  cases Manager.exec_cases hm with
  | raft a c' ha hc' => exact surviving_inv fun v _ => h.threaded v

theorem Inv.accept (h : m.Inv) {c : ℤ} {request : LockRequest} (hfree : Unserved (m.threads s) c)
    (hl : m.ledger.exec (.accept s c request) = some l) (ht : t.client = c) :
    Inv ⟨l, Function.update m.threads s (m.threads s ++ [l.keep s t])⟩ := by
  obtain ⟨hm, hlogged, -⟩ := Ledger.exec_some hl
  obtain ⟨manager, logged, compacted⟩ := l
  simp only at hm hlogged
  subst hlogged ht
  cases Manager.exec_cases hm with
  | accept _ _ _ server hup hstep =>
      have hserver : (m.ledger.manager.setServer s server).server s = server :=
        Function.update_self ..
      refine ⟨h.served (fun v hv => Ledger.note_of_ne _ hv _ _) ?_, fun v hdown => ?_⟩
      · refine (h.threaded s).accept hfree hstep (fun j hj => ?_) ⟨?_, ?_, rfl⟩
        · have hj : j ≠ t.client := hj
          show Ledger.note m.ledger.logged s t.client [] s j = m.ledger.logged s j
          rw [Ledger.note_self, Function.update_of_ne hj]
        · simp only [Ledger.keep, LockServer.keep, Ledger.server, hserver]
        · simp only [Ledger.keep, LockServer.keep, Ledger.server, hserver]
      · have hv : v ≠ s := by
          rintro rfl
          exact absurd (hup.symm.trans hdown) (by simp)
        exact (Function.update_of_ne hv _ _).trans (h.down v hdown)

theorem Inv.step (h : m.Inv) {crashAt : Option ℕ} (hk : (m.threads s)[k]? = some t)
    (hrun : t.Running) (hl : m.ledger.exec (.step s t.client crashAt) = some l) :
    Inv ⟨l, l.surviving
      (Function.update m.threads s (List.replaceAt (m.threads s) k (some (l.keep s t))))⟩ := by
  obtain ⟨hm, hlogged, -⟩ := Ledger.exec_some hl
  obtain ⟨manager, logged, compacted⟩ := l
  simp only at hm hlogged
  subst hlogged
  have helse : ∀ v, v ≠ s →
      m.ledger.loggedAfter (.step s t.client crashAt) v = m.ledger.logged v :=
    fun v hv => Ledger.note_of_ne _ hv _ _
  have hothers : ∀ j, j ≠ t.client →
      m.ledger.loggedAfter (.step s t.client crashAt) s j = m.ledger.logged s j := by
    intro j hj
    rw [Ledger.loggedAfter, Ledger.note_self, Function.update_of_ne hj]
  cases Manager.exec_cases hm with
  | serve _ _ _ server hup hstep =>
      have hserver : (m.ledger.manager.setServer s server).server s = server :=
        Function.update_self ..
      have hsame : ∀ v, (Ledger.mk { m.ledger.manager.setServer s server with
          tags := m.ledger.manager.tags ++ Manager.handed s server t.client }
          (m.ledger.loggedAfter (.step s t.client crashAt)) compacted).up v = m.ledger.up v :=
        fun _ => rfl
      rw [h.surviving hup hsame]
      refine ⟨h.served helse ?_, fun v hdown => ?_⟩
      · refine (h.threaded s).step hk hrun rfl hstep hothers ⟨?_, ?_, rfl⟩
        · simp only [Ledger.keep, LockServer.keep, Ledger.server, hserver]
        · simp only [Ledger.keep, LockServer.keep, Ledger.server, hserver]
      · have hv : v ≠ s := by
          rintro rfl
          exact absurd (hup.symm.trans hdown) (by simp)
        exact (Function.update_of_ne hv _ _).trans (h.down v hdown)
  | append _ _ _ server e c' hup hstep hc' =>
      refine surviving_inv fun v hon => ?_
      rcases eq_or_ne v s with rfl | hv
      · have hserver : ∀ stored, (Manager.move
            { m.ledger.manager.setServer v server with stored } c').server v = server := by
          intro stored
          simp only [Manager.move, hon, if_true, Manager.setServer, Function.update_self]
        refine h.served helse ?_ v
        refine (h.threaded v).step hk hrun rfl hstep hothers ⟨?_, ?_, rfl⟩
        · simp only [Ledger.keep, LockServer.keep, Ledger.server, hserver]
        · simp only [Ledger.keep, LockServer.keep, Ledger.server, hserver]
      · simp only [Manager.setServer, Function.update_of_ne hv, helse v hv]
        exact h.threaded v

theorem Inv.fire (h : m.Inv) (hl : m.ledger.exec (.fire s) = some l) :
    Inv { m with ledger := l } := by
  obtain ⟨hm, hlogged, -⟩ := Ledger.exec_some hl
  obtain ⟨manager, logged, compacted⟩ := l
  simp only at hm hlogged
  subst hlogged
  cases Manager.exec_cases hm with
  | fire _ lock hup hfire =>
      refine ⟨fun v => ?_, h.down⟩
      have hs := (h.threaded s).fire hfire
      have hserved := h.served (fun _ _ => rfl) hs v
      rwa [Function.update_eq_self] at hserved

/-- The thread that makes a step is running, and its client stands there. -/
theorem Inv.running (h : m.Inv) {crashAt : Option ℕ} (hk : (m.threads s)[k]? = some t)
    (hl : (m.ledger.load s t).exec (.step s t.client crashAt) = some l) :
    t.Running ∧ m.ledger.load s t = m.ledger := by
  have hserver : (m.ledger.load s t).manager.server s = (m.ledger.server s).load t :=
    Function.update_self ..
  have hrun : t.Running := by
    have hexec := Manager.exec_cases (Ledger.exec_some hl).1
    generalize l.manager = m₁ at hexec
    cases hexec with
    | serve _ _ _ server hup hstep => exact (h.threaded s).running hk (hserver ▸ hstep)
    | append _ _ _ server e c' hup hstep hc' => exact (h.threaded s).running hk (hserver ▸ hstep)
  exact ⟨hrun, Ledger.load_stands ((h.threaded s).stands t (List.mem_of_getElem? hk) hrun)⟩

/-- As long as no client has two handlers running, the threads move as the
clients do. -/
theorem Inv.exec (h : m.Inv) (hone : m.OneEach x) (hx : m.exec x = some m') :
    m.ledger.exec (m.plain x) = some m'.ledger ∧ m'.Inv := by
  cases x with
  | raft a =>
      obtain ⟨l, hl, rfl⟩ := Option.map_eq_some_iff.mp hx
      exact ⟨hl, h.raft hl⟩
  | accept s c request =>
      obtain ⟨hended, hout⟩ := (h.threaded s).returned hone
      simp only [ThreadLedger.exec, Ledger.load_accept hended hout] at hx
      obtain ⟨l, hl, rfl⟩ := Option.map_eq_some_iff.mp hx
      exact ⟨hl, h.accept hone hl rfl⟩
  | step s k crashAt =>
      simp only [ThreadLedger.exec] at hx
      cases hk : (m.threads s)[k]? with
      | none => simp [hk] at hx
      | some t =>
          simp only [hk] at hx
          obtain ⟨l, hl, rfl⟩ := Option.map_eq_some_iff.mp hx
          obtain ⟨hrun, hload⟩ := h.running hk hl
          rw [hload] at hl
          refine ⟨?_, h.step hk hrun hl⟩
          simp only [plain, hk, Option.elim_some, hl]
  | fire s =>
      obtain ⟨l, hl, rfl⟩ := Option.map_eq_some_iff.mp hx
      exact ⟨hl, h.fire hl⟩

/-- A step of a client's handler is one of its thread. -/
theorem Inv.of_plain (h : m.Inv) (hy : m.ledger.exec y = some l) :
    ∃ x m', m.plain x = y ∧ m.OneEach x ∧ m.exec x = some m' ∧ m'.ledger = l := by
  cases y with
  | raft a =>
      refine ⟨.raft a, ⟨l, l.surviving m.threads⟩, rfl, trivial, ?_, rfl⟩
      simp only [ThreadLedger.exec, hy, Option.map_some]
  | accept s c request =>
      have hended : ((m.ledger.server s).handler c).ended = true := by
        have hexec := Manager.exec_cases (Ledger.exec_some hy).1
        generalize l.manager = m₁ at hexec
        cases hexec with
        | accept _ _ _ server hup hstep =>
            exact HandlerPc.ended_iff.mpr (LockServer.accept_moves hstep).2.1
      have hfree := (h.threaded s).unserved hended
      have hload := Ledger.load_accept hended ((h.threaded s).returned hfree).2 request
      refine ⟨.accept s c request, ⟨l, Function.update m.threads s
        (m.threads s ++ [l.keep s ((m.ledger.server s).fresh c)])⟩, rfl, hfree, ?_, rfl⟩
      simp only [ThreadLedger.exec, hload, hy, Option.map_some]
  | step s c crashAt =>
      obtain ⟨k, t, hk, rfl, hrun⟩ : ∃ (k : ℕ) (t : HandlerThread), (m.threads s)[k]? = some t ∧
          t.client = c ∧ t.Running := by
        have hexec := Manager.exec_cases (Ledger.exec_some hy).1
        generalize l.manager = m₁ at hexec
        cases hexec with
        | serve _ _ _ server hup hstep => exact (h.threaded s).thread hstep
        | append _ _ _ server e c' hup hstep hc' => exact (h.threaded s).thread hstep
      have hload := Ledger.load_stands ((h.threaded s).stands t (List.mem_of_getElem? hk) hrun)
      refine ⟨.step s k crashAt, ⟨l, l.surviving (Function.update m.threads s
        (List.replaceAt (m.threads s) k (some (l.keep s t))))⟩, ?_, trivial, ?_, rfl⟩
      · simp only [plain, hk, Option.elim_some]
      · simp only [ThreadLedger.exec, hk, hload, hy, Option.map_some]
  | fire s =>
      refine ⟨.fire s, { m with ledger := l }, rfl, trivial, ?_, rfl⟩
      simp only [ThreadLedger.exec, hy, Option.map_some]

variable {config : Config} {ok : Ledger → ManagerAction → Prop}

/-- A run in which no client has two handlers running is one of the clients. -/
theorem ledger_run (h : Machine.Steps exec (Meets ok) (init config) m) :
    Machine.Steps Ledger.exec ok (.init config) m.ledger ∧ m.Inv := by
  have hsim : ∃ l, Machine.Steps Ledger.exec ok (.init config) l ∧ m.ledger = l ∧ m.Inv := by
    refine h.simulate (R := fun m l => m.ledger = l ∧ m.Inv) (fun m l x m' hR hok hx => ?_)
      ⟨rfl, inv_init config⟩
    obtain ⟨rfl, hinv⟩ := hR
    obtain ⟨hl, hinv'⟩ := hinv.exec hok.1 hx
    exact ⟨m.plain x, m'.ledger, hok.2, hl, rfl, hinv'⟩
  obtain ⟨l, hrun, rfl, hinv⟩ := hsim
  exact ⟨hrun, hinv⟩

/-- Every run of the clients is such a run of the threads. -/
theorem of_ledger (h : Machine.Steps Ledger.exec ok (.init config) l) :
    ∃ m, Machine.Steps exec (Meets ok) (init config) m ∧ m.ledger = l ∧ m.Inv := by
  refine h.simulate (R := fun (l : Ledger) (m : ThreadLedger) => m.ledger = l ∧ m.Inv)
    (fun l m y l' hR hok hy => ?_) ⟨rfl, inv_init config⟩
  obtain ⟨rfl, hinv⟩ := hR
  obtain ⟨x, m', rfl, hone, hx, rfl⟩ := hinv.of_plain hy
  exact ⟨x, m', ⟨hone, hok⟩, hx, rfl, (hinv.exec hone hx).2⟩

/-- A thread has not moved, or it is the one that has moved last. -/
theorem exec_threads (hx : m.exec x = some m') (ht : t ∈ m'.threads s) : t ∈ m.threads s ∨
    (t.pc = (m'.ledger.server s).handler t.client ∧
      t.logged = m'.ledger.logged s t.client) := by
  have hsurvives : ∀ (l : Ledger) (threads : Server → List HandlerThread),
      t ∈ l.surviving threads s → t ∈ threads s := by
    intro l threads hmem
    unfold Ledger.surviving at hmem
    split at hmem
    · exact hmem
    · exact absurd hmem (by simp)
  cases x with
  | raft a =>
      obtain ⟨l, -, rfl⟩ := Option.map_eq_some_iff.mp hx
      exact Or.inl (hsurvives _ _ ht)
  | accept v c request =>
      obtain ⟨l, -, rfl⟩ := Option.map_eq_some_iff.mp hx
      simp only [Function.update_apply] at ht
      split_ifs at ht with hs
      · subst hs
        rcases List.mem_append.mp ht with hold | hnew
        · exact Or.inl hold
        · rw [List.mem_singleton.mp hnew]
          exact Or.inr ⟨rfl, rfl⟩
      · exact Or.inl ht
  | step v k crashAt =>
      simp only [exec] at hx
      split at hx
      · exact absurd hx (by simp)
      · obtain ⟨l, -, rfl⟩ := Option.map_eq_some_iff.mp hx
        replace ht := hsurvives _ _ ht
        simp only [Function.update_apply] at ht
        split_ifs at ht with hs
        · subst hs
          rcases List.mem_replaceAt ht with hold | hnew
          · exact Or.inl hold
          · rw [← Option.some.inj hnew]
            exact Or.inr ⟨rfl, rfl⟩
        · exact Or.inl ht
  | fire v =>
      obtain ⟨l, -, rfl⟩ := Option.map_eq_some_iff.mp hx
      exact Or.inl ht

/-- A running handler belongs to a thread, which stands where it does. -/
theorem Inv.served_by (h : m.Inv) {c : ℤ} {p : HandlerPc}
    (hp : (m.ledger.server s).handler c = p) (hended : p.ended = false) :
    ∃ t ∈ m.threads s, t.client = c ∧ t.pc = p ∧ (m.ledger.server s).lock.pc c = t.lockPc := by
  obtain ⟨t, ht, rfl, hrun⟩ := (h.threaded s).served c (hp ▸ hended)
  have hstands := (h.threaded s).stands t ht hrun
  exact ⟨t, ht, rfl, hstands.handler.symm.trans hp, hstands.pc⟩

end ThreadLedger

/-! ### Unique tags -/

end RaftLock

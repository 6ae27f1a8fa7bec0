import RaftLock.Lock.Threads
import RaftLock.Rpc.Invocations

/-!
The lock manager with its clients: the requests and answers of `client_rpc.c`
and `server_rpc.c`, and the handlers of `server.c` that `handle_packet` calls.

A thread of `handle_packet` that has called a handler waits until this has
returned, and sends what it has returned. When every request that is let
through comes in order, a handler is called only for a client that has none
running, so what is proved of the handlers under that condition holds of them
here (`Service.handlers_run`).
-/

namespace RaftLock

/-- The call of a handler of `server.c`, if the thread makes one. -/
def RequestThread.lockRequest (t : RequestThread) : Option LockRequest :=
  match t.request.packet.operation with
  | .lock request => some request
  | .clientInit | .clientClose => none

/-- The servers that are down have lost their table and their threads. -/
def Sessions.surviving (m : Sessions) (up : Server → Bool) : Sessions :=
  { m with servers := fun s => if up s then m.servers s else .init }

/-- `awaited` has an entry for each thread in a handler: the request it serves,
as long as a thread of `handle_packet` waits for it to return. -/
structure Service where
  sessions : Sessions
  handlers : ThreadLedger
  awaited : Server → List (Option Request)

inductive ServiceAction
  /-- A step of a client, or of `handle_packet` outside the handlers. -/
  | session (x : SessionAction)
  | raft (x : Action)
  | step (s : Server) (j : ℕ) (crashAt : Option ℕ)
  | fire (s : Server)
  /-- Thread `k` of `handle_packet` calls its handler. -/
  | call (s : Server) (k : ℕ)
  /-- The handler that thread `k` has called has returned. It is thread `j` of
  the handlers. -/
  | returns (s : Server) (k j : ℕ)
  deriving DecidableEq, Repr

namespace Service

def init (config : Config) : Service := ⟨.init, .init config, fun _ => []⟩

def role (m : Service) (s : Server) : NodeState := (m.handlers.ledger.raft s).state

def threads (m : Service) (s : Server) : List RequestThread := (m.sessions.servers s).threads

/-- A packet arrives at a server that is up; `handle_packet` reads the state of
the Raft module at the moment; calls and returns are steps of their own. -/
def Outside (m : Service) : SessionAction → Prop
  | .deliver k => ∀ r ∈ m.sessions.requests[k]?, m.handlers.ledger.up r.1 = true
  | .thread s k => (m.sessions.servers s).role = m.role s ∧
      ∀ t ∈ (m.threads s)[k]?, t.pc = .calling → t.lockRequest = none
  | .handlerReturns s k _ => ∀ t ∈ (m.threads s)[k]?, t.lockRequest = none
  | .role s role => role = m.role s
  | .restart _ => False
  | .connect _ | .call _ _ | .close _ | .timeout _ | .readError _ | .receive _ | .loseAnswer _
  | .loseRequest _ => True

instance (m : Service) (x : SessionAction) : Decidable (m.Outside x) :=
  match x with
  | .deliver k =>
    inferInstanceAs (Decidable (∀ r ∈ m.sessions.requests[k]?, m.handlers.ledger.up r.1 = true))
  | .thread s k => inferInstanceAs (Decidable ((m.sessions.servers s).role = m.role s ∧
      ∀ t ∈ (m.threads s)[k]?, t.pc = .calling → t.lockRequest = none))
  | .handlerReturns s k _ =>
    inferInstanceAs (Decidable (∀ t ∈ (m.threads s)[k]?, t.lockRequest = none))
  | .role s role => inferInstanceAs (Decidable (role = m.role s))
  | .restart _ => inferInstanceAs (Decidable False)
  | .connect _ | .call _ _ | .close _ | .timeout _ | .readError _ | .receive _ | .loseAnswer _
  | .loseRequest _ => inferInstanceAs (Decidable True)

/-- The handlers have moved. -/
def move (m : Service) (handlers : ThreadLedger) : Service where
  sessions := m.sessions.surviving handlers.ledger.up
  handlers
  awaited s := if handlers.ledger.up s then m.awaited s else []

/-- Thread `t` has called its handler. -/
def called (m : Service) (s : Server) (t : RequestThread) (sessions : Sessions)
    (handlers : ThreadLedger) : Service where
  sessions
  handlers
  awaited := Function.update m.awaited s (m.awaited s ++ [some t.request])

/-- Thread `j` of the handlers has returned to the thread that has called it. -/
def returned (m : Service) (s : Server) (j : ℕ) (sessions : Sessions) : Service where
  sessions
  handlers := m.handlers
  awaited := Function.update m.awaited s ((m.awaited s).set j none)

def exec (m : Service) : ServiceAction → Option Service
  | .session x =>
    if m.Outside x then (m.sessions.exec x).map fun sessions => { m with sessions } else none
  | .raft x => (m.handlers.exec (.raft x)).map m.move
  | .step s j crashAt => (m.handlers.exec (.step s j crashAt)).map m.move
  | .fire s => (m.handlers.exec (.fire s)).map m.move
  | .call s k =>
    match (m.threads s)[k]? with
    | none => none
    | some t =>
      match t.lockRequest with
      | none => none
      | some request =>
        if t.pc = .calling then
          (m.sessions.exec (.thread s k)).bind fun sessions =>
            (m.handlers.exec (.accept s t.request.packet.clientId request)).map
              (m.called s t sessions)
        else none
  | .returns s k j =>
    match (m.threads s)[k]?, (m.handlers.threads s)[j]? with
    | some t, some u =>
      match u.pc with
      | .returned reply =>
        if (m.awaited s)[j]? = some (some t.request) then
          (m.sessions.exec (.handlerReturns s k reply)).map (m.returned s j)
        else none
      | _ => none
    | _, _ => none

/-- The step of the handlers. -/
def plain (m : Service) : ServiceAction → Option ThreadedAction
  | .raft x => some (.raft x)
  | .step s j crashAt => some (.step s j crashAt)
  | .fire s => some (.fire s)
  | .call s k => (m.threads s)[k]?.bind fun t =>
      t.lockRequest.map (.accept s t.request.packet.clientId)
  | .session _ | .returns _ _ _ => none

/-- A request that is let through comes in order. -/
def AdmitsInOrder (m : Service) : ServiceAction → Prop
  | .session x => m.sessions.AdmitsInOrder x
  | .raft _ | .step _ _ _ | .fire _ | .call _ _ | .returns _ _ _ => True

/-- Requests come in order, and the steps of the handlers meet a condition. -/
def Meets (ok : Ledger → ManagerAction → Prop) (m : Service) (x : ServiceAction) : Prop :=
  m.AdmitsInOrder x ∧ ∀ y ∈ m.plain x, ok m.handlers.ledger (m.handlers.plain y)

end Service

/-! ### Threads and the handlers they have called -/

/-- Every handler that is running is waited for, by a thread of its client. -/
structure Coupled (sv : RpcServer) (ts : List HandlerThread) (awaited : List (Option Request)) :
    Prop where
  served : sv.Served
  waiting : ∀ r, some r ∈ awaited →
    ∃ t ∈ sv.threads, t.request = r ∧ t.pc = .running ∧ t.lockRequest ≠ none
  apart : awaited.Pairwise fun a b => ∀ r ∈ a, ∀ r' ∈ b, r.packet.clientId ≠ r'.packet.clientId
  length : ts.length = awaited.length
  handled : ∀ (j : ℕ) (u : HandlerThread), ts[j]? = some u → u.Running →
    ∃ r, awaited[j]? = some (some r) ∧ r.packet.clientId = u.client

theorem coupled_init : Coupled .init [] [] where
  served := RpcServer.served_init
  waiting := by simp
  apart := .nil
  length := rfl
  handled := by simp

/-- A thread that waits for its handler goes on waiting until this returns. -/
theorem ServerStep.waits {m : Sessions} {s : Server} {x : SessionAction} {sv : RpcServer}
    {t : RequestThread} (h : ServerStep m s x sv) (hx : x ≠ .restart s)
    (hreturns : ∀ k reply, x = .handlerReturns s k reply → (m.servers s).threads[k]? ≠ some t)
    (ht : t ∈ (m.servers s).threads) (hpc : t.pc = .running) : t ∈ sv.threads := by
  cases h with
  | idle => exact ht
  | deliver k request hk => exact List.mem_append_left _ ht
  | advance k u client pc called answer hu hstep =>
      refine List.mem_replaceAt_of_mem hu ht fun heq => ?_
      subst heq
      cases hstep <;> simp_all
  | returns k u reply reply' hu hpc' =>
      show t ∈ List.replaceAt (m.servers s).threads k (some { u with pc := .returned reply' })
      refine List.mem_replaceAt_of_mem hu ht fun heq => ?_
      subst heq
      exact absurd hu (hreturns k reply rfl)
  | role role => exact ht
  | restart => exact absurd rfl hx

namespace Coupled

variable {sv sv' : RpcServer} {ts : List HandlerThread} {awaited : List (Option Request)}
  {k j : ℕ} {t : RequestThread} {u v : HandlerThread}

/-- Other threads move. -/
theorem keep (h : Coupled sv ts awaited) (hserved : sv'.Served)
    (hwaits : ∀ t ∈ sv.threads, t.pc = .running → t.lockRequest ≠ none → t ∈ sv'.threads) :
    Coupled sv' ts awaited where
  served := hserved
  waiting r hr := by
    obtain ⟨t, ht, hrequest, hpc, hlock⟩ := h.waiting r hr
    exact ⟨t, hwaits t ht hpc hlock, hrequest, hpc, hlock⟩
  apart := h.apart
  length := h.length
  handled := h.handled

/-- A thread that is about to call its handler is the only one of its client. -/
theorem client_ne (h : Coupled sv ts awaited) (ht : sv.threads[k]? = some t)
    (hpc : t.pc = .calling) {r : Request} (hr : some r ∈ awaited) :
    r.packet.clientId ≠ t.request.packet.clientId := by
  obtain ⟨w, hw, rfl, hrunning, -⟩ := h.waiting r hr
  have hne : w ≠ t := by
    rintro rfl
    exact absurd (hpc.symm.trans hrunning) (by simp)
  have hactive : w.pc.active ∧ t.pc.active := by
    rw [hrunning, hpc]
    exact ⟨trivial, trivial⟩
  have : Std.Symm RequestThread.Apart := ⟨fun _ _ => RequestThread.Apart.symm⟩
  exact h.served.apart.forall hw (List.mem_of_getElem? ht) hne hactive.1 hactive.2

theorem unserved (h : Coupled sv ts awaited) (ht : sv.threads[k]? = some t)
    (hpc : t.pc = .calling) : Unserved ts t.request.packet.clientId := by
  rintro u hu hclient hrun
  obtain ⟨j, hj⟩ := List.mem_iff_getElem?.mp hu
  obtain ⟨r, hr, hrc⟩ := h.handled j u hj hrun
  exact h.client_ne ht hpc (List.mem_of_getElem? hr) (hrc.trans hclient)

/-- A thread calls its handler. -/
theorem call (h : Coupled sv ts awaited) (ht : sv.threads[k]? = some t) (hpc : t.pc = .calling)
    (hlock : t.lockRequest ≠ none) (hserved : sv'.Served)
    (hwaits : ∀ t ∈ sv.threads, t.pc = .running → t ∈ sv'.threads)
    (hcalled : { t with pc := .running } ∈ sv'.threads)
    (hu : u.client = t.request.packet.clientId) :
    Coupled sv' (ts ++ [u]) (awaited ++ [some t.request]) where
  served := hserved
  waiting r hr := by
    rcases List.mem_append.mp hr with hold | hnew
    · obtain ⟨w, hw, hrequest, hrunning, hw'⟩ := h.waiting r hold
      exact ⟨w, hwaits w hw hrunning, hrequest, hrunning, hw'⟩
    · rw [List.mem_singleton, Option.some.injEq] at hnew
      exact ⟨_, hcalled, hnew.symm, rfl, hlock⟩
  apart := by
    refine List.pairwise_append.mpr ⟨h.apart, List.pairwise_singleton _ _, ?_⟩
    rintro a ha b hb r hr r' hr'
    rw [List.mem_singleton.mp hb, Option.mem_some_iff] at hr'
    rw [Option.mem_def] at hr
    rw [← hr']
    exact h.client_ne ht hpc (hr ▸ ha)
  length := by simp [h.length]
  handled i v hv hrun := by
    rcases Nat.lt_or_ge i ts.length with hlt | hge
    · rw [List.getElem?_append_left hlt] at hv
      rw [List.getElem?_append_left (h.length ▸ hlt)]
      exact h.handled i v hv hrun
    · obtain ⟨-, rfl⟩ : i - ts.length = 0 ∧ u = v := by
        rw [List.getElem?_append_right hge] at hv
        simpa [List.getElem?_cons] using hv
      obtain rfl : i = awaited.length := by
        have := (List.getElem?_eq_some_iff.mp hv).1
        rw [List.length_append, List.length_singleton] at this
        have := h.length
        omega
      exact ⟨t.request, by simp, hu.symm⟩

/-- A handler has returned to the thread that has called it. -/
theorem returns (h : Coupled sv ts awaited) (hj : ts[j]? = some u) (hended : ¬ u.Running)
    (hr : awaited[j]? = some (some t.request)) (hserved : sv'.Served)
    (hwaits : ∀ w ∈ sv.threads, w ≠ t → w.pc = .running → w ∈ sv'.threads) :
    Coupled sv' ts (awaited.set j none) := by
  obtain ⟨hbefore, hafter⟩ := List.replaceAt_perm hr (some none)
  have hsymm : ∀ a b : Option Request,
      (∀ r ∈ a, ∀ r' ∈ b, r.packet.clientId ≠ r'.packet.clientId) →
      ∀ r ∈ b, ∀ r' ∈ a, r.packet.clientId ≠ r'.packet.clientId :=
    fun a b hab r hr r' hr' => (hab r' hr' r hr).symm
  have hpair := (hbefore.pairwise_iff fun {_ _} => hsymm _ _).mp h.apart
  obtain ⟨hapart, hrest⟩ := List.pairwise_cons.mp hpair
  refine ⟨hserved, fun r hmem => ?_, ?_, by rw [List.length_set]; exact h.length,
    fun i v hv hrun => ?_⟩
  · have hmem' := (List.mem_cons.mp (hafter.mem_iff.mp hmem)).resolve_left (by simp)
    obtain ⟨w, hw, rfl, hrunning, hlock⟩ :=
      h.waiting r (hbefore.mem_iff.mpr (List.mem_cons_of_mem _ hmem'))
    refine ⟨w, hwaits w hw ?_ hrunning, rfl, hrunning, hlock⟩
    rintro rfl
    exact hapart _ hmem' _ rfl _ rfl rfl
  · refine (hafter.pairwise_iff fun {_ _} => hsymm _ _).mpr (List.pairwise_cons.mpr ⟨?_, hrest⟩)
    simp
  · have hne : j ≠ i := by
      rintro rfl
      exact hended (Option.some.inj (hj.symm.trans hv) ▸ hrun)
    rw [List.getElem?_set_ne hne]
    exact h.handled i v hv hrun

/-- A running handler makes a step. -/
theorem step (h : Coupled sv ts awaited) (hj : ts[j]? = some u) (hrun : u.Running)
    (hclient : v.client = u.client) : Coupled sv (List.replaceAt ts j (some v)) awaited where
  served := h.served
  waiting := h.waiting
  apart := h.apart
  length := by
    rw [List.replaceAt, List.length_set]
    exact h.length
  handled i w hw hrunning := by
    rcases eq_or_ne j i with rfl | hne
    · obtain ⟨hlt, -⟩ := List.getElem?_eq_some_iff.mp hj
      rw [List.replaceAt, List.getElem?_set_self hlt, Option.some.injEq] at hw
      rw [← hw, hclient]
      exact h.handled j u hj hrun
    · rw [List.replaceAt, List.getElem?_set_ne hne] at hw
      exact h.handled i w hw hrunning

end Coupled

/-! ### Runs -/

namespace Sessions

/-- The servers of a list are started again. -/
theorem restarts (m : Sessions) (l : List Server) : Machine.Steps exec AdmitsInOrder m
    { m with servers := fun s => if s ∈ l then .init else m.servers s } := by
  induction l generalizing m with
  | nil => simpa using Relation.ReflTransGen.refl
  | cons v l ih =>
      have hrest := ih (m.setServer v .init)
      have hsame : (fun s => if s ∈ l then RpcServer.init else (m.setServer v .init).servers s) =
          fun s => if s ∈ v :: l then .init else m.servers s := by
        funext s
        simp only [setServer, Function.update_apply, List.mem_cons]
        split_ifs <;> simp_all
      rw [hsame] at hrest
      exact .head ⟨.restart v, trivial, rfl⟩ hrest

theorem surviving_steps (m : Sessions) (up : Server → Bool) :
    Machine.Steps exec AdmitsInOrder m (m.surviving up) := by
  have h := m.restarts ((List.finRange nServers).filter fun s => !up s)
  have hsame : (fun s => if s ∈ (List.finRange nServers).filter (fun s => !up s)
      then RpcServer.init else m.servers s) = fun s => if up s then m.servers s else .init := by
    funext s
    cases hs : up s <;> simp [hs]
  rwa [hsame] at h

end Sessions

namespace Service

variable {m m' : Service} {x : ServiceAction} {s : Server} {k j : ℕ} {t : RequestThread}
  {u : HandlerThread} {sessions : Sessions} {handlers : ThreadLedger}

theorem exec_call (hx : m.exec (.call s k) = some m') : ∃ t request sessions handlers,
    (m.threads s)[k]? = some t ∧ t.lockRequest = some request ∧ t.pc = .calling ∧
    m.sessions.exec (.thread s k) = some sessions ∧
    m.handlers.exec (.accept s t.request.packet.clientId request) = some handlers ∧
    m' = m.called s t sessions handlers := by
  simp only [exec] at hx
  cases ht : (m.threads s)[k]? with
  | none => simp [ht] at hx
  | some t =>
      cases hlock : t.lockRequest with
      | none => simp [ht, hlock] at hx
      | some request =>
          simp only [ht, hlock] at hx
          split_ifs at hx with hpc
          obtain ⟨sessions, hs, hx⟩ := Option.bind_eq_some_iff.mp hx
          obtain ⟨handlers, hh, rfl⟩ := Option.map_eq_some_iff.mp hx
          exact ⟨t, request, sessions, handlers, rfl, hlock, hpc, hs, hh, rfl⟩

theorem exec_returns (hx : m.exec (.returns s k j) = some m') : ∃ t u reply sessions,
    (m.threads s)[k]? = some t ∧ (m.handlers.threads s)[j]? = some u ∧
    u.pc = .returned reply ∧ (m.awaited s)[j]? = some (some t.request) ∧
    m.sessions.exec (.handlerReturns s k reply) = some sessions ∧
    m' = m.returned s j sessions := by
  simp only [exec] at hx
  split at hx
  · rename_i t u ht hu
    split at hx
    · rename_i reply hpc
      split_ifs at hx with hr
      obtain ⟨sessions, hs, rfl⟩ := Option.map_eq_some_iff.mp hx
      exact ⟨t, u, reply, sessions, ht, hu, hpc, hr, hs, rfl⟩
    · exact absurd hx (by simp)
  · exact absurd hx (by simp)

structure Inv (m : Service) : Prop where
  handlers : m.handlers.Inv
  coupled : ∀ s, Coupled (m.sessions.servers s) (m.handlers.threads s) (m.awaited s)

theorem inv_init (config : Config) : (init config).Inv :=
  ⟨ThreadLedger.inv_init config, fun _ => coupled_init⟩

theorem Inv.served (h : m.Inv) (s : Server) : (m.sessions.servers s).Served :=
  (h.coupled s).served

/-- A server that goes down takes everything with it. -/
theorem move_inv (hinv : handlers.Inv) (hup : ∀ s, handlers.ledger.up s = true →
      Coupled (m.sessions.servers s) (handlers.threads s) (m.awaited s)) :
    (m.move handlers).Inv where
  handlers := hinv
  coupled s := by
    cases hs : handlers.ledger.up s with
    | true => simpa only [move, Sessions.surviving, hs, if_true] using hup s hs
    | false =>
        have hnone : (m.move handlers).handlers.threads s = [] := hinv.down s hs
        rw [hnone]
        simpa only [move, Sessions.surviving, hs, Bool.false_eq_true, if_false] using coupled_init

theorem Inv.session (h : m.Inv) {y : SessionAction} (hout : m.Outside y)
    (hok : m.sessions.AdmitsInOrder y) (hy : m.sessions.exec y = some sessions) :
    Inv { m with sessions } where
  handlers := h.handlers
  coupled s := by
    refine (h.coupled s).keep (Sessions.served_exec h.served hok hy s) fun t ht hpc hlock => ?_
    refine (Sessions.exec_server hy s).waits ?_ (fun k reply heq hk => ?_) ht hpc
    · rintro rfl
      exact hout
    · subst heq
      exact hlock (hout t hk)

/-- A thread that calls its handler has been let through. -/
theorem admits_calling (ht : (m.threads s)[k]? = some t) (hpc : t.pc = .calling) :
    m.sessions.AdmitsInOrder (.thread s k) := by
  intro w hw hcheck
  obtain rfl := Option.some.inj (ht.symm.trans hw)
  exact absurd (hpc.symm.trans hcheck) (by simp)

theorem Inv.call (h : m.Inv) {request : LockRequest} (ht : (m.threads s)[k]? = some t)
    (hlock : t.lockRequest = some request) (hpc : t.pc = .calling)
    (hs : m.sessions.exec (.thread s k) = some sessions)
    (hh : m.handlers.exec (.accept s t.request.packet.clientId request) = some handlers) :
    Unserved (m.handlers.threads s) t.request.packet.clientId ∧
      (m.called s t sessions handlers).Inv := by
  have hfree := (h.coupled s).unserved ht hpc
  have hinv := (h.handlers.exec (x := .accept s t.request.packet.clientId request) hfree hh).2
  have hserved := Sessions.served_exec h.served (admits_calling ht hpc) hs
  have hwaits : ∀ v, ∀ w ∈ (m.sessions.servers v).threads, w.pc = .running →
      w ∈ (sessions.servers v).threads := fun v w hw hrunning =>
    (Sessions.exec_server hs v).waits (by simp) (by simp) hw hrunning
  have hcalled : { t with pc := .running } ∈ (sessions.servers s).threads := by
    have ht' : (m.sessions.servers s).threads[k]? = some t := ht
    simp only [Sessions.exec, RpcServer.step, ht', hpc, Option.some.injEq] at hs
    rw [← hs]
    simp only [Sessions.setServer, Function.update_self]
    exact List.mem_of_getElem? (List.getElem?_set_self (List.getElem?_eq_some_iff.mp ht').1)
  refine ⟨hfree, hinv, fun v => ?_⟩
  obtain ⟨l, -, rfl⟩ := Option.map_eq_some_iff.mp hh
  rcases eq_or_ne v s with rfl | hv
  · simp only [called, Function.update_self]
    exact (h.coupled v).call ht hpc (by simp [hlock]) (hserved v) (hwaits v) hcalled rfl
  · simp only [called, Function.update_of_ne hv]
    exact (h.coupled v).keep (hserved v) fun w hw hrunning _ => hwaits v w hw hrunning

theorem Inv.returns (h : m.Inv) {reply : Reply} (ht : (m.threads s)[k]? = some t)
    (hu : (m.handlers.threads s)[j]? = some u) (hpc : u.pc = .returned reply)
    (hr : (m.awaited s)[j]? = some (some t.request))
    (hs : m.sessions.exec (.handlerReturns s k reply) = some sessions) :
    (m.returned s j sessions).Inv := by
  have hserved := Sessions.served_exec h.served (x := .handlerReturns s k reply) trivial hs
  refine ⟨h.handlers, fun v => ?_⟩
  rcases eq_or_ne v s with rfl | hv
  · simp only [returned, Function.update_self]
    refine (h.coupled v).returns hu (by simp [hpc, HandlerPc.ended]) hr (hserved v)
      fun w hw hne hrunning => ?_
    refine (Sessions.exec_server hs v).waits (by simp) (fun i reply' heq hi => ?_) hw hrunning
    obtain ⟨-, rfl, -⟩ := SessionAction.handlerReturns.inj heq
    exact hne (Option.some.inj (hi.symm.trans ht))
  · simp only [returned, Function.update_of_ne hv]
    refine (h.coupled v).keep (hserved v) fun w hw hrunning _ => ?_
    refine (Sessions.exec_server hs v).waits (by simp) (fun i reply' heq => ?_) hw hrunning
    exact absurd (SessionAction.handlerReturns.inj heq).1.symm hv

/-- The handlers stay as they are, or make the step that belongs to this one,
and do not get a second one of a client. -/
theorem Inv.exec (h : m.Inv) (hok : m.AdmitsInOrder x) (hx : m.exec x = some m') :
    m'.Inv ∧ (m'.handlers = m.handlers ∨
      ∃ y ∈ m.plain x, m.handlers.OneEach y ∧ m.handlers.exec y = some m'.handlers) := by
  cases x with
  | session y =>
      simp only [Service.exec] at hx
      split_ifs at hx with hout
      obtain ⟨sessions, hy, rfl⟩ := Option.map_eq_some_iff.mp hx
      exact ⟨h.session hout hok hy, Or.inl rfl⟩
  | raft a =>
      obtain ⟨handlers, hh, rfl⟩ := Option.map_eq_some_iff.mp hx
      have hinv := (h.handlers.exec (x := .raft a) trivial hh).2
      refine ⟨move_inv hinv fun v hup => ?_, Or.inr ⟨_, rfl, trivial, hh⟩⟩
      obtain ⟨l, -, rfl⟩ := Option.map_eq_some_iff.mp hh
      show Coupled _ (l.surviving m.handlers.threads v) _
      rw [Ledger.surviving, if_pos hup]
      exact h.coupled v
  | step s j crashAt =>
      obtain ⟨handlers, hh, rfl⟩ := Option.map_eq_some_iff.mp hx
      have hinv := (h.handlers.exec (x := .step s j crashAt) trivial hh).2
      refine ⟨move_inv hinv fun v hup => ?_, Or.inr ⟨_, rfl, trivial, hh⟩⟩
      simp only [ThreadLedger.exec] at hh
      cases hj : (m.handlers.threads s)[j]? with
      | none => simp [hj] at hh
      | some u =>
          simp only [hj] at hh
          obtain ⟨l, hl, rfl⟩ := Option.map_eq_some_iff.mp hh
          obtain ⟨hrun, -⟩ := h.handlers.running hj hl
          show Coupled _ (l.surviving _ v) _
          rw [Ledger.surviving, if_pos hup]
          rcases eq_or_ne v s with rfl | hv
          · rw [Function.update_self]
            exact (h.coupled v).step hj hrun rfl
          · rw [Function.update_of_ne hv]
            exact h.coupled v
  | fire s =>
      obtain ⟨handlers, hh, rfl⟩ := Option.map_eq_some_iff.mp hx
      have hinv := (h.handlers.exec (x := .fire s) trivial hh).2
      refine ⟨move_inv hinv fun v _ => ?_, Or.inr ⟨_, rfl, trivial, hh⟩⟩
      obtain ⟨l, -, rfl⟩ := Option.map_eq_some_iff.mp hh
      exact h.coupled v
  | call s k =>
      obtain ⟨t, request, sessions, handlers, ht, hlock, hpc, hs, hh, rfl⟩ := exec_call hx
      obtain ⟨hfree, hinv⟩ := h.call ht hlock hpc hs hh
      refine ⟨hinv, Or.inr ⟨.accept s t.request.packet.clientId request, ?_, hfree, hh⟩⟩
      simp only [plain, ht, hlock, Option.bind_some, Option.map_some, Option.mem_some_iff]
  | returns s k j =>
      obtain ⟨t, u, reply, sessions, ht, hu, hpc, hr, hs, rfl⟩ := exec_returns hx
      exact ⟨h.returns ht hu hpc hr hs, Or.inl rfl⟩

/-- What the clients and `handle_packet` do is a run of theirs. -/
theorem exec_sessions (hok : m.AdmitsInOrder x) (hx : m.exec x = some m') :
    Machine.Steps Sessions.exec Sessions.AdmitsInOrder m.sessions m'.sessions := by
  cases x with
  | session y =>
      simp only [exec] at hx
      split_ifs at hx
      obtain ⟨sessions, hy, rfl⟩ := Option.map_eq_some_iff.mp hx
      exact .single ⟨y, hok, hy⟩
  | raft a =>
      obtain ⟨handlers, -, rfl⟩ := Option.map_eq_some_iff.mp hx
      exact Sessions.surviving_steps _ _
  | step s j crashAt =>
      obtain ⟨handlers, -, rfl⟩ := Option.map_eq_some_iff.mp hx
      exact Sessions.surviving_steps _ _
  | fire s =>
      obtain ⟨handlers, -, rfl⟩ := Option.map_eq_some_iff.mp hx
      exact Sessions.surviving_steps _ _
  | call s k =>
      obtain ⟨t, _, _, _, ht, -, hpc, hs, -, rfl⟩ := exec_call hx
      exact .single ⟨.thread s k, admits_calling ht hpc, hs⟩
  | returns s k j =>
      obtain ⟨_, _, reply, _, -, -, -, -, hs, rfl⟩ := exec_returns hx
      exact .single ⟨.handlerReturns s k reply, trivial, hs⟩

variable {config : Config} {ok : Ledger → ManagerAction → Prop}

/-- When the requests that are let through come in order, the handlers run as
they do when no client has two of them running, and the clients and
`handle_packet` as they do around any handlers. -/
theorem handlers_run (h : Machine.Steps exec (Meets ok) (init config) m) :
    Machine.Steps ThreadLedger.exec (ThreadLedger.Meets ok) (.init config) m.handlers ∧
    Machine.Steps Sessions.exec Sessions.AdmitsInOrder .init m.sessions := by
  have hall : m.Inv ∧
      Machine.Steps ThreadLedger.exec (ThreadLedger.Meets ok) (.init config) m.handlers ∧
      Machine.Steps Sessions.exec Sessions.AdmitsInOrder .init m.sessions := by
    refine h.invariant (P := fun m => m.Inv ∧
      Machine.Steps ThreadLedger.exec (ThreadLedger.Meets ok) (.init config) m.handlers ∧
      Machine.Steps Sessions.exec Sessions.AdmitsInOrder .init m.sessions)
      (fun m x m' hinv hok hx => ?_) ⟨inv_init config, .refl, .refl⟩
    obtain ⟨hinv, hhandlers, hsessions⟩ := hinv
    obtain ⟨hinv', hstep⟩ := hinv.exec hok.1 hx
    refine ⟨hinv', ?_, hsessions.trans (exec_sessions hok.1 hx)⟩
    rcases hstep with hsame | ⟨y, hy, hone, hh⟩
    · rwa [hsame]
    · exact hhandlers.tail ⟨y, ⟨hone, hok.2 y hy⟩, hh⟩
  exact hall.2

instance (m : Service) (x : ServiceAction) : Decidable (m.AdmitsInOrder x) :=
  match x with
  | .session y => inferInstanceAs (Decidable (m.sessions.AdmitsInOrder y))
  | .raft _ | .step _ _ _ | .fire _ | .call _ _ | .returns _ _ _ =>
    inferInstanceAs (Decidable True)

/-- Client `7` connects to server `0` and sends its request for the lock, which
is let through. -/
def requested : List SessionAction :=
  [SessionAction.role 0 .leader, .connect 7, .deliver 0] ++ Sessions.serve 0 0 ++
    Sessions.conclude 0 0 ⟨0, .text ""⟩ ++
    [SessionAction.receive 0, .call 7 .acquire, .deliver 0, .thread 0 0, .thread 0 0, .thread 0 0]

/-- The handler acquires the lock, and the answer comes to the client. -/
def connectAndAcquire : List ServiceAction :=
  firstElection.map .raft ++ requested.map .session ++
    ServiceAction.call 0 0 :: List.replicate 20 (.step 0 0 none) ++
    [ServiceAction.returns 0 0 0, .session (.thread 0 0), .session (.receive 0)]

set_option maxRecDepth 10000 in
example : (Machine.execWhile exec (fun m x => decide (m.AdmitsInOrder x)) (init plainConfig)
    connectAndAcquire).any (fun m => decide (m.handlers.ledger.manager.tags = [(0, 1, 1)] ∧
      (m.sessions.clients 7).phase = .idle ∧ m.awaited 0 = [none])) = true := by
  decide +kernel

end Service

end RaftLock

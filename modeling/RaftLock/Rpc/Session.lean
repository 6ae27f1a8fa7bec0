import RaftLock.Library.Machine
import RaftLock.Lock.Handlers
import RaftLock.Raft.Cluster

/-!
The requests of clients: `client_rpc.c` and `server_rpc.c`.

A client has one request under way, repeats it until an answer comes that is
not older, and numbers its requests from `0` on in each session. A server has
one thread for each packet it reads and one table entry for each client. The
role of the server is what its Raft module makes of it, at any moment, and a
handler returns whatever `server.c` makes it return.

Requests and answers wait in the network until they are read or lost. The
session a packet is sent in, and the request whose handler has produced an
answer, are remembered here; nothing in the program can see them.
-/

namespace RaftLock

abbrev eInProgress : ℤ := -2
abbrev eFollower : ℤ := -7
abbrev eElection : ℤ := -8
abbrev maxId : ℤ := 1000
abbrev rpcRetryLimit : ℕ := 10

/-- `operation_type_t`, with what the branch of the `switch` reads of the
packet. -/
inductive Operation
  | clientInit
  | lock (request : LockRequest)
  | clientClose
  deriving DecidableEq, Repr

structure PacketInfo where
  clientId : ℤ
  vtime : ℤ
  operation : Operation
  deriving DecidableEq, Repr

structure ResponseInfo where
  clientId : ℤ
  rc : ℤ
  vtime : ℤ
  message : Message
  deriving DecidableEq, Repr

/-- A packet and the session in which the client sends it. -/
structure Request where
  packet : PacketInfo
  session : ℕ
  deriving DecidableEq, Repr

/-- What tells the requests of one server apart. -/
def Request.key (r : Request) : ℤ × ℕ × ℤ := (r.packet.clientId, r.session, r.packet.vtime)

/-- A response and the request whose handler has produced it; `handle_packet`
itself produces the others. -/
structure Answer where
  response : ResponseInfo
  origin : Option Request
  deriving DecidableEq, Repr

/-- An answer on its way to the client that has sent `request`. -/
structure AnswerDatagram where
  request : Request
  answer : Answer
  deriving DecidableEq, Repr

/-! ### The server -/

inductive ClientState
  | processing
  | waiting
  deriving DecidableEq, Repr

/-- `client_process_data_t`, less the lock; `session` is the one of the request
that has set `vtime`. -/
structure ClientProcessData where
  id : ℤ
  state : ClientState
  vtime : ℤ
  lastResponse : Answer
  session : ℕ
  deriving DecidableEq, Repr

/-- A new entry of the table. Its state and its last response are not set by
the program, and not read before they are. -/
def ClientProcessData.create (id : ℤ) : ClientProcessData :=
  ⟨id, .waiting, -1, ⟨⟨0, 0, 0, .text ""⟩, none⟩, 0⟩

/-- Where a thread of `handle_packet` stands: before one of its accesses to
shared memory, or in the handler. -/
inductive RequestPc
  | start
  | refused
  | table
  | check
  | calling
  | running
  | returned (reply : Reply)
  deriving DecidableEq, Repr

structure RequestThread where
  request : Request
  pc : RequestPc
  deriving DecidableEq, Repr

/-- `server_rpc_conn_t` and the threads of `handle_packet`. `invoked` lists the
requests for which a handler has been called. -/
structure RpcServer where
  role : NodeState
  table : ℤ → Option ClientProcessData
  threads : List RequestThread
  invoked : List Request

/-- The response as `handle_packet` starts it, with a code and a message. -/
def PacketInfo.response (packet : PacketInfo) (reply : Reply) : ResponseInfo :=
  ⟨packet.clientId, reply.rc, packet.vtime, reply.message⟩

/-- What the `switch` leaves in the response when the handler, if there is one,
returns `reply`. -/
def Operation.perform (reply : Reply) : Operation → Reply
  | .clientInit => ⟨0, .text "connected"⟩
  | .lock _ => reply
  | .clientClose => ⟨0, .text "disconnected"⟩

namespace RpcServer

/-- `Server_RPC_init`. -/
def init : RpcServer := ⟨.follower, fun _ => none, [], []⟩

def goto (sv : RpcServer) (k : ℕ) (t : RequestThread) (pc : RequestPc) : RpcServer :=
  { sv with threads := List.replaceAt sv.threads k (some { t with pc }) }

/-- The thread sends an answer of its own and ends. -/
def refuse (sv : RpcServer) (k : ℕ) (t : RequestThread) (rc : ℤ) (message : String) :
    RpcServer × Option AnswerDatagram :=
  ({ sv with threads := List.replaceAt sv.threads k none },
    some ⟨t.request, ⟨t.request.packet.response ⟨rc, .text message⟩, none⟩⟩)

def setClient (sv : RpcServer) (c : ℤ) (client : ClientProcessData) : RpcServer :=
  { sv with table := Function.update sv.table c (some client) }

/-- The section under `client->lock` before the handler is called. -/
def check (sv : RpcServer) (k : ℕ) (t : RequestThread) (client : ClientProcessData) :
    RpcServer × Option AnswerDatagram :=
  if client.vtime = t.request.packet.vtime then
    if client.state = .processing then
      sv.refuse k t eInProgress "request from this client is already in progress"
    else
      ({ sv with threads := List.replaceAt sv.threads k none },
        some ⟨t.request, client.lastResponse⟩)
  else
    ((sv.setClient t.request.packet.clientId
        { client with
          state := .processing, vtime := t.request.packet.vtime
          session := t.request.session }).goto k t .calling, none)

/-- The answer the handler has produced. -/
def produced (t : RequestThread) (reply : Reply) : Answer :=
  ⟨t.request.packet.response reply, some t.request⟩

/-- The section under `client->lock` after the handler has returned. -/
def finish (sv : RpcServer) (k : ℕ) (t : RequestThread) (client : ClientProcessData)
    (reply : Reply) : RpcServer × Option AnswerDatagram :=
  ({ sv.setClient t.request.packet.clientId
      { client with state := .waiting, lastResponse := produced t reply } with
      threads := List.replaceAt sv.threads k none },
    some ⟨t.request, produced t reply⟩)

/-- The next access of thread `k`, and the answer it sends. -/
def step (sv : RpcServer) (k : ℕ) : Option (RpcServer × Option AnswerDatagram) :=
  match sv.threads[k]? with
  | none => none
  | some t =>
    let c := t.request.packet.clientId
    match t.pc with
    | .start => some (sv.goto k t (if sv.role ≠ .leader then .refused else .table), none)
    | .refused =>
      some (sv.refuse k t (if sv.role = .follower then eFollower else eElection)
        "this is not the leader server; address another one\n")
    | .table =>
      match sv.table c with
      | none => some ((sv.setClient c (.create c)).goto k t .check, none)
      | some _ => some (sv.goto k t .check, none)
    | .check => (sv.table c).map (sv.check k t)
    | .calling => some ({ sv.goto k t .running with invoked := sv.invoked ++ [t.request] }, none)
    | .running => none
    | .returned reply => (sv.table c).map fun client => sv.finish k t client reply

end RpcServer

/-! ### The client -/

/-- Before `RPC_init`, between two requests, in `send_packet`, or gone after a
failed `RPC_init`. -/
inductive ClientPhase
  | closed
  | idle
  | waiting (request : Request) (nAttempts : ℕ)
  | exited
  deriving DecidableEq, Repr

/-- `rpc_conn_t`. -/
structure RpcConn where
  session : ℕ
  vtime : ℤ
  currentLeaderIndex : Server
  phase : ClientPhase
  deriving DecidableEq, Repr

namespace RpcConn

def init : RpcConn := ⟨0, 0, 0, .closed⟩

/-- The head of `send_packet`. -/
def issue (conn : RpcConn) (c : ℤ) (operation : Operation) : RpcConn × Request :=
  let request : Request := ⟨⟨c, conn.vtime, operation⟩, conn.session⟩
  ({ conn with vtime := conn.vtime + 1, phase := .waiting request 1 }, request)

/-- The connection with which `RPC_init` calls `send_packet`. -/
def connect (conn : RpcConn) : RpcConn :=
  { conn with session := conn.session + 1, vtime := 0, currentLeaderIndex := 0 }

/-- The phase once `send_packet` has returned, with or without an error. -/
def afterCall (request : Request) (failed : Bool) : ClientPhase :=
  match request.packet.operation with
  | .clientInit => if failed then .exited else .idle
  | .lock _ => .idle
  | .clientClose => .closed

end RpcConn

/-- `send_packet` goes on reading after this response. -/
def ResponseInfo.ignored (packet : PacketInfo) (response : ResponseInfo) : Prop :=
  response.rc = eInProgress ∨ response.vtime < packet.vtime

instance (packet : PacketInfo) (response : ResponseInfo) :
    Decidable (response.ignored packet) := inferInstanceAs (Decidable (_ ∨ _))

/-- `send_packet` sends the packet again after this response. -/
def ResponseInfo.redirects (response : ResponseInfo) : Prop :=
  response.rc = eFollower ∨ response.rc = eElection

instance (response : ResponseInfo) : Decidable response.redirects :=
  inferInstanceAs (Decidable (_ ∨ _))

/-! ### Clients, servers and what is between them -/

/-- `returned` lists the responses with which `send_packet` has returned, and
`executions` the handlers that have returned, where and with what response. -/
structure Sessions where
  servers : Server → RpcServer
  clients : ℤ → RpcConn
  requests : List (Server × Request)
  answers : List AnswerDatagram
  returned : List (Request × Answer)
  executions : List (Server × Request × ResponseInfo)

inductive SessionAction
  /-- `RPC_init`. -/
  | connect (c : ℤ)
  | call (c : ℤ) (request : LockRequest)
  /-- `RPC_close`. -/
  | close (c : ℤ)
  /-- The client's read times out. -/
  | timeout (c : ℤ)
  /-- The client's read fails for another reason. -/
  | readError (c : ℤ)
  /-- A client reads answer `k`. -/
  | receive (k : ℕ)
  | loseAnswer (k : ℕ)
  | loseRequest (k : ℕ)
  /-- A server reads request `k`. -/
  | deliver (k : ℕ)
  | thread (s : Server) (k : ℕ)
  /-- The handler of thread `k` returns. -/
  | handlerReturns (s : Server) (k : ℕ) (reply : Reply)
  | role (s : Server) (role : NodeState)
  /-- The server's process ends, and a new one starts. -/
  | restart (s : Server)
  deriving DecidableEq, Repr

namespace Sessions

def init : Sessions := ⟨fun _ => .init, fun _ => .init, [], [], [], []⟩

def setServer (m : Sessions) (s : Server) (sv : RpcServer) : Sessions :=
  { m with servers := Function.update m.servers s sv }

def setConn (m : Sessions) (c : ℤ) (conn : RpcConn) : Sessions :=
  { m with clients := Function.update m.clients c conn }

/-- `UDP_Write` of the request to the server the client takes for the leader. -/
def write (m : Sessions) (c : ℤ) (conn : RpcConn) (request : Request) : Sessions :=
  { m.setConn c conn with requests := m.requests ++ [(conn.currentLeaderIndex, request)] }

/-- A new request. -/
def issue (m : Sessions) (c : ℤ) (conn : RpcConn) (operation : Operation) : Sessions :=
  m.write c (conn.issue c operation).1 (conn.issue c operation).2

/-- The turn of the loop of `send_packet` after an answer. -/
def read (m : Sessions) (c : ℤ) (conn : RpcConn) (request : Request) (answer : Answer) :
    Sessions :=
  if answer.response.ignored request.packet then
    m.setConn c { conn with phase := .waiting request 0 }
  else if answer.response.redirects then
    let next := if answer.response.rc = eFollower then conn.currentLeaderIndex + 1
      else conn.currentLeaderIndex
    m.write c { conn with currentLeaderIndex := next, phase := .waiting request 0 } request
  else
    { m.setConn c
        { conn with phase := RpcConn.afterCall request (decide (answer.response.rc < 0)) } with
      returned := m.returned ++ [(request, answer)] }

/-- The turn of the loop of `send_packet` after a timeout. -/
def retry (m : Sessions) (c : ℤ) (conn : RpcConn) (request : Request) (nAttempts : ℕ) :
    Sessions :=
  if nAttempts ≥ rpcRetryLimit then
    m.write c
      { conn with
        currentLeaderIndex := conn.currentLeaderIndex + 1, phase := .waiting request 1 } request
  else m.write c { conn with phase := .waiting request (nAttempts + 1) } request

def exec (m : Sessions) : SessionAction → Option Sessions
  | .connect c =>
    if 0 ≤ c ∧ c < maxId ∧ (m.clients c).phase = .closed then
      some (m.issue c (m.clients c).connect .clientInit)
    else none
  | .call c request =>
    if (m.clients c).phase = .idle then some (m.issue c (m.clients c) (.lock request)) else none
  | .close c =>
    if (m.clients c).phase = .idle then some (m.issue c (m.clients c) .clientClose) else none
  | .timeout c =>
    match (m.clients c).phase with
    | .waiting request nAttempts => some (m.retry c (m.clients c) request nAttempts)
    | _ => none
  | .readError c =>
    match (m.clients c).phase with
    | .waiting request _ =>
      some (m.setConn c { m.clients c with phase := RpcConn.afterCall request true })
    | _ => none
  | .receive k =>
    match m.answers[k]? with
    | none => none
    | some d =>
      let c := d.request.packet.clientId
      match (m.clients c).phase with
      | .waiting request _ =>
        some ({ m with answers := m.answers.eraseIdx k }.read c (m.clients c) request d.answer)
      | _ => none
  | .loseAnswer k =>
    if k < m.answers.length then some { m with answers := m.answers.eraseIdx k } else none
  | .loseRequest k =>
    if k < m.requests.length then some { m with requests := m.requests.eraseIdx k } else none
  | .deliver k =>
    match m.requests[k]? with
    | none => none
    | some (s, request) =>
      let sv := m.servers s
      some ({ m with requests := m.requests.eraseIdx k }.setServer s
        { sv with threads := sv.threads ++ [RequestThread.mk request .start] })
  | .thread s k =>
    match (m.servers s).step k with
    | none => none
    | some (sv, answer) =>
      some { m.setServer s sv with answers := m.answers ++ answer.toList }
  | .handlerReturns s k reply =>
    match (m.servers s).threads[k]? with
    | none => none
    | some t =>
      if t.pc = .running then
        let reply := t.request.packet.operation.perform reply
        some { m.setServer s ((m.servers s).goto k t (.returned reply)) with
          executions := m.executions ++ [(s, t.request, t.request.packet.response reply)] }
      else none
  | .role s role => some (m.setServer s { m.servers s with role })
  | .restart s => some (m.setServer s .init)

end Sessions

/-! ### What a step does to a server -/

/-- What thread `t` does next on a server with this role and this entry for
its client: the entry, the place of the thread, the handler called and the
answer sent. -/
inductive ThreadStep (role : NodeState) (client : Option ClientProcessData) (t : RequestThread) :
    Option ClientProcessData → Option RequestPc → List Request → Option AnswerDatagram → Prop
  | lead (hpc : t.pc = .start) (hrole : role = .leader) :
      ThreadStep role client t client (some .table) [] none
  | turn (hpc : t.pc = .start) (hrole : role ≠ .leader) :
      ThreadStep role client t client (some .refused) [] none
  | redirect (reply : Reply) (hpc : t.pc = .refused)
      (hrc : reply.rc = eFollower ∨ reply.rc = eElection) :
      ThreadStep role client t client none []
        (some ⟨t.request, ⟨t.request.packet.response reply, none⟩⟩)
  | create (hpc : t.pc = .table) (hnone : client = none) :
      ThreadStep role client t (some (.create t.request.packet.clientId)) (some .check) [] none
  | found (e : ClientProcessData) (hpc : t.pc = .table) (he : client = some e) :
      ThreadStep role client t (some e) (some .check) [] none
  | busy (e : ClientProcessData) (reply : Reply) (hpc : t.pc = .check) (he : client = some e)
      (hvtime : e.vtime = t.request.packet.vtime) (hrc : reply.rc = eInProgress) :
      ThreadStep role client t (some e) none []
        (some ⟨t.request, ⟨t.request.packet.response reply, none⟩⟩)
  | repeated (e : ClientProcessData) (hpc : t.pc = .check) (he : client = some e)
      (hvtime : e.vtime = t.request.packet.vtime) (hstate : e.state = .waiting) :
      ThreadStep role client t (some e) none [] (some ⟨t.request, e.lastResponse⟩)
  | letIn (e : ClientProcessData) (hpc : t.pc = .check) (he : client = some e)
      (hvtime : e.vtime ≠ t.request.packet.vtime) :
      ThreadStep role client t
        (some
          { e with
            state := .processing, vtime := t.request.packet.vtime
            session := t.request.session })
        (some .calling) [] none
  | invoke (hpc : t.pc = .calling) :
      ThreadStep role client t client (some .running) [t.request] none
  | finish (e : ClientProcessData) (reply : Reply) (hpc : t.pc = .returned reply)
      (he : client = some e) :
      ThreadStep role client t
        (some { e with state := .waiting, lastResponse := RpcServer.produced t reply }) none []
        (some ⟨t.request, RpcServer.produced t reply⟩)

namespace RpcServer

variable {sv sv' : RpcServer} {k : ℕ}

/-- The server after thread `k` has moved. -/
def advanced (sv : RpcServer) (k : ℕ) (t : RequestThread) (client : Option ClientProcessData)
    (pc : Option RequestPc) (called : List Request) : RpcServer :=
  { sv with
    table := Function.update sv.table t.request.packet.clientId client
    threads := List.replaceAt sv.threads k (pc.map fun pc => { t with pc })
    invoked := sv.invoked ++ called }

theorem step_threadStep {answer : Option AnswerDatagram} (h : sv.step k = some (sv', answer)) :
    ∃ t client pc called, sv.threads[k]? = some t ∧
      ThreadStep sv.role (sv.table t.request.packet.clientId) t client pc called answer ∧
      sv' = sv.advanced k t client pc called := by
  unfold step at h
  cases ht : sv.threads[k]? with
  | none => simp [ht] at h
  | some t =>
      simp only [ht] at h
      cases hpc : t.pc with
      | start =>
          simp only [hpc, Option.some.injEq, Prod.mk.injEq] at h
          obtain ⟨rfl, rfl⟩ := h
          split_ifs with hrole
          · exact ⟨t, _, _, _, rfl, .turn hpc hrole, by simp [advanced, goto]⟩
          · exact ⟨t, _, _, _, rfl, .lead hpc (not_not.mp hrole), by simp [advanced, goto]⟩
      | refused =>
          simp only [hpc, Option.some.injEq, refuse, Prod.mk.injEq] at h
          obtain ⟨rfl, rfl⟩ := h
          refine ⟨t, _, _, _, rfl, .redirect _ hpc ?_, by simp [advanced]⟩
          split_ifs
          · exact Or.inl rfl
          · exact Or.inr rfl
      | table =>
          simp only [hpc] at h
          cases he : sv.table t.request.packet.clientId with
          | none =>
              simp only [he, Option.some.injEq, Prod.mk.injEq] at h
              obtain ⟨rfl, rfl⟩ := h
              exact ⟨t, _, _, _, rfl, .create hpc he, by simp [advanced, goto, setClient]⟩
          | some e =>
              simp only [he, Option.some.injEq, Prod.mk.injEq] at h
              obtain ⟨rfl, rfl⟩ := h
              refine ⟨t, _, _, _, rfl, .found e hpc he, ?_⟩
              simp [advanced, goto, ← he]
      | check =>
          simp only [hpc, Option.map_eq_some_iff] at h
          obtain ⟨e, he, h⟩ := h
          unfold check at h
          split_ifs at h with hvtime hstate
          · simp only [refuse, Prod.mk.injEq] at h
            obtain ⟨rfl, rfl⟩ := h
            refine ⟨t, _, _, _, rfl, .busy e _ hpc he hvtime rfl, ?_⟩
            simp [advanced, ← he]
          · simp only [Prod.mk.injEq] at h
            obtain ⟨rfl, rfl⟩ := h
            have hwaiting : e.state = .waiting := by
              cases hs : e.state with
              | processing => exact absurd hs hstate
              | waiting => rfl
            refine ⟨t, _, _, _, rfl, .repeated e hpc he hvtime hwaiting, ?_⟩
            simp [advanced, ← he]
          · simp only [Prod.mk.injEq] at h
            obtain ⟨rfl, rfl⟩ := h
            exact ⟨t, _, _, _, rfl, .letIn e hpc he hvtime, by simp [advanced, goto, setClient]⟩
      | calling =>
          simp only [hpc, Option.some.injEq, Prod.mk.injEq] at h
          obtain ⟨rfl, rfl⟩ := h
          exact ⟨t, _, _, _, rfl, .invoke hpc, by simp [advanced, goto]⟩
      | running => simp [hpc] at h
      | returned reply =>
          simp only [hpc, Option.map_eq_some_iff] at h
          obtain ⟨e, he, h⟩ := h
          simp only [finish, Prod.mk.injEq] at h
          obtain ⟨rfl, rfl⟩ := h
          exact ⟨t, _, _, _, rfl, .finish e reply hpc he, by simp [advanced, setClient]⟩

end RpcServer

/-- What a step can do to server `s`. -/
inductive ServerStep (m : Sessions) (s : Server) : SessionAction → RpcServer → Prop
  | idle (x : SessionAction) : ServerStep m s x (m.servers s)
  | deliver (k : ℕ) (request : Request) (hk : m.requests[k]? = some (s, request)) :
      ServerStep m s (.deliver k)
        { m.servers s with threads := (m.servers s).threads ++ [⟨request, .start⟩] }
  | advance (k : ℕ) (t : RequestThread) (client : Option ClientProcessData)
      (pc : Option RequestPc) (called : List Request) (answer : Option AnswerDatagram)
      (ht : (m.servers s).threads[k]? = some t)
      (h : ThreadStep (m.servers s).role ((m.servers s).table t.request.packet.clientId) t client pc
        called answer) :
      ServerStep m s (.thread s k) ((m.servers s).advanced k t client pc called)
  | returns (k : ℕ) (t : RequestThread) (reply reply' : Reply)
      (ht : (m.servers s).threads[k]? = some t) (hpc : t.pc = .running) :
      ServerStep m s (.handlerReturns s k reply) ((m.servers s).goto k t (.returned reply'))
  | role (role : NodeState) : ServerStep m s (.role s role) { m.servers s with role }
  | restart : ServerStep m s (.restart s) .init

namespace Sessions

variable {m m' : Sessions} {x : SessionAction}

@[simp] theorem write_servers (m : Sessions) (c : ℤ) (conn : RpcConn) (request : Request) :
    (m.write c conn request).servers = m.servers := rfl

@[simp] theorem issue_servers (m : Sessions) (c : ℤ) (conn : RpcConn) (operation : Operation) :
    (m.issue c conn operation).servers = m.servers := rfl

@[simp] theorem retry_servers (m : Sessions) (c : ℤ) (conn : RpcConn) (request : Request)
    (nAttempts : ℕ) : (m.retry c conn request nAttempts).servers = m.servers := by
  unfold retry
  split <;> rfl

@[simp] theorem read_servers (m : Sessions) (c : ℤ) (conn : RpcConn) (request : Request)
    (answer : Answer) : (m.read c conn request answer).servers = m.servers := by
  unfold read
  split
  · rfl
  · split <;> rfl

/-- A step in which only server `v` moves. -/
theorem serverStep_update {v s : Server} {sv : RpcServer} (h : ServerStep m v x sv) :
    ServerStep m s x (Function.update m.servers v sv s) := by
  rw [Function.update_apply]
  split
  · rename_i hs
    exact hs ▸ h
  · exact .idle x

theorem exec_server (hx : m.exec x = some m') (s : Server) : ServerStep m s x (m'.servers s) := by
  cases x with
  | connect c =>
      simp only [exec] at hx
      split_ifs at hx
      simp only [Option.some.injEq] at hx
      subst hx
      exact .idle _
  | call c request =>
      simp only [exec] at hx
      split_ifs at hx
      simp only [Option.some.injEq] at hx
      subst hx
      exact .idle _
  | close c =>
      simp only [exec] at hx
      split_ifs at hx
      simp only [Option.some.injEq] at hx
      subst hx
      exact .idle _
  | timeout c =>
      simp only [exec] at hx
      split at hx
      · simp only [Option.some.injEq] at hx
        subst hx
        rw [retry_servers]
        exact .idle _
      · exact absurd hx (by simp)
  | readError c =>
      simp only [exec] at hx
      split at hx
      · simp only [Option.some.injEq] at hx
        subst hx
        exact .idle _
      · exact absurd hx (by simp)
  | receive k =>
      simp only [exec] at hx
      split at hx
      · exact absurd hx (by simp)
      · split at hx
        · simp only [Option.some.injEq] at hx
          subst hx
          rw [read_servers]
          exact .idle _
        · exact absurd hx (by simp)
  | loseAnswer k =>
      simp only [exec] at hx
      split_ifs at hx
      simp only [Option.some.injEq] at hx
      subst hx
      exact .idle _
  | loseRequest k =>
      simp only [exec] at hx
      split_ifs at hx
      simp only [Option.some.injEq] at hx
      subst hx
      exact .idle _
  | deliver k =>
      simp only [exec] at hx
      split at hx
      · exact absurd hx (by simp)
      · rename_i v request hk
        simp only [Option.some.injEq] at hx
        subst hx
        exact serverStep_update (.deliver k request hk)
  | thread v k =>
      simp only [exec] at hx
      split at hx
      · exact absurd hx (by simp)
      · rename_i sv answer hstep
        simp only [Option.some.injEq] at hx
        subst hx
        obtain ⟨t, client, pc, called, ht, hadv, rfl⟩ := RpcServer.step_threadStep hstep
        exact serverStep_update (.advance k t client pc called answer ht hadv)
  | handlerReturns v k reply =>
      simp only [exec] at hx
      split at hx
      · exact absurd hx (by simp)
      · rename_i t ht
        split_ifs at hx with hpc
        simp only [Option.some.injEq] at hx
        subst hx
        exact serverStep_update (.returns k t reply _ ht hpc)
  | role v role =>
      simp only [exec, Option.some.injEq] at hx
      subst hx
      exact serverStep_update (.role role)
  | restart v =>
      simp only [exec, Option.some.injEq] at hx
      subst hx
      exact serverStep_update .restart

end Sessions

end RaftLock

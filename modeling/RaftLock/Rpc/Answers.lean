import RaftLock.Rpc.Invocations

/-!
The response `send_packet` returns with, and the request it belongs to.

A response carries the number of its request, and numbers start again in each
session. The client takes any response whose number is not smaller than the
one it waits for. Within a session this is enough: no later request has been
made. So what has to be kept out is what an earlier session has left behind:
packets and answers in the network, threads that are still at work, and table
entries with the number of the new request.
-/

namespace RaftLock

/-- How a connection goes on: to another session, or to a later request. -/
def RpcConn.Later (conn conn' : RpcConn) : Prop :=
  conn.session < conn'.session ∨ (conn'.session = conn.session ∧ conn.vtime ≤ conn'.vtime ∧
    ∀ p n, conn'.phase = .waiting p n → (∃ n', conn.phase = .waiting p n') ∨
      conn.vtime ≤ p.packet.vtime)

theorem RpcConn.Later.refl (conn : RpcConn) : conn.Later conn :=
  Or.inr ⟨rfl, le_rfl, fun _ n h => Or.inl ⟨n, h⟩⟩

/-- The connection waits for the answer to a request of its own. -/
structure RpcConn.Sound (conn : RpcConn) (c : ℤ) : Prop where
  vtime : 0 ≤ conn.vtime
  waiting : ∀ p n, conn.phase = .waiting p n → p.packet.clientId = c ∧
    p.session = conn.session ∧ 0 ≤ p.packet.vtime ∧ p.packet.vtime + 1 = conn.vtime

/-- The thread is about to take `client->lock`. -/
def RequestPc.locks : RequestPc → Bool
  | .check | .returned _ => true
  | _ => false

/-- `send_packet` returns with this response. -/
def ClientPhase.accepts (response : ResponseInfo) : ClientPhase → Bool
  | .waiting request _ =>
    !decide (response.ignored request.packet) && !decide response.redirects
  | _ => false

namespace Sessions

/-- Nothing of an earlier session is left: a thread looks at the table in the
session of its request, an entry with the number of the request is of that
session, and an answer the client takes is to a request of its session. -/
def Timely (m : Sessions) : SessionAction → Prop
  | .receive k => ∀ d ∈ m.answers[k]?,
      (m.clients d.request.packet.clientId).phase.accepts d.answer.response = true →
      d.request.session = (m.clients d.request.packet.clientId).session
  | .thread s k => ∀ t ∈ (m.servers s).threads[k]?, t.pc.locks = true →
      t.request.session = (m.clients t.request.packet.clientId).session ∧
      (t.pc = .check → ∀ e ∈ (m.servers s).table t.request.packet.clientId,
        e.vtime = t.request.packet.vtime → e.session = t.request.session)
  | _ => True

instance (m : Sessions) (x : SessionAction) : Decidable (m.Timely x) :=
  match x with
  | .receive k => inferInstanceAs (Decidable (∀ d ∈ m.answers[k]?, _ → _))
  | .thread s k => inferInstanceAs (Decidable (∀ t ∈ (m.servers s).threads[k]?, _ → _ ∧
      (t.pc = .check → ∀ e ∈ (m.servers s).table t.request.packet.clientId, _ → _)))
  | .connect _ | .call _ _ | .close _ | .timeout _ | .readError _ | .loseAnswer _
  | .loseRequest _ | .deliver _ | .handlerReturns _ _ _ | .role _ _ | .restart _ =>
    inferInstanceAs (Decidable True)

/-- The request has been made by its client: in an earlier session, or earlier
in this one, or it is the one the client waits for. -/
def Known (m : Sessions) (r : Request) : Prop :=
  0 ≤ r.packet.vtime ∧ (r.session < (m.clients r.packet.clientId).session ∨
    (r.session = (m.clients r.packet.clientId).session ∧
      r.packet.vtime < (m.clients r.packet.clientId).vtime ∧
      ∀ p n, (m.clients r.packet.clientId).phase = .waiting p n →
        r.packet.vtime = p.packet.vtime → r = p))

/-- A handler has produced the answer, for a request of this client and this
session. -/
def Traced (m : Sessions) (c : ℤ) (session : ℕ) (a : Answer) : Prop :=
  ∃ r, a.origin = some r ∧ r.packet.clientId = c ∧ r.session = session ∧ m.Known r ∧
    a.response.vtime = r.packet.vtime ∧ ∃ s, (s, r, a.response) ∈ m.executions

structure AnswersInv (m : Sessions) : Prop where
  clients : ∀ c, (m.clients c).Sound c
  requests : ∀ x ∈ m.requests, m.Known x.2
  threads : ∀ s, ∀ t ∈ (m.servers s).threads, m.Known t.request
  active : ∀ s, ∀ t ∈ (m.servers s).threads, t.pc.active →
    ∃ e, (m.servers s).table t.request.packet.clientId = some e ∧ t.request.session ≤ e.session
  replies : ∀ s, ∀ t ∈ (m.servers s).threads, ∀ reply, t.pc = .returned reply →
    (s, t.request, t.request.packet.response reply) ∈ m.executions
  table : ∀ s c e, (m.servers s).table c = some e → e.session ≤ (m.clients c).session ∧
    (e.state = .waiting → 0 ≤ e.vtime → m.Traced c e.session e.lastResponse)
  answers : ∀ d ∈ m.answers, m.Known d.request ∧
    ((d.answer.response.rc = eInProgress ∨ d.answer.response.redirects) ∨
      m.Traced d.request.packet.clientId d.request.session d.answer)
  returned : ∀ x ∈ m.returned, x.2.origin = some x.1 ∧
    ∃ s, (s, x.1, x.2.response) ∈ m.executions

section Clients

variable {m m' : Sessions} {c : ℤ} {conn : RpcConn} {r : Request}

theorem Known.later (h : m.Known r)
    (hlater : (m.clients r.packet.clientId).Later (m'.clients r.packet.clientId)) :
    m'.Known r := by
  obtain ⟨hpos, hold⟩ := h
  refine ⟨hpos, ?_⟩
  rcases hlater with hsession | ⟨hsession, hvtime, hphase⟩
  · rcases hold with hold | ⟨heq, -⟩
    · exact Or.inl (hold.trans hsession)
    · exact Or.inl (heq ▸ hsession)
  · rcases hold with hold | ⟨heq, hlt, hsame⟩
    · exact Or.inl (hsession ▸ hold)
    · refine Or.inr ⟨heq.trans hsession.symm, hlt.trans_le hvtime, fun p n hp hr => ?_⟩
      rcases hphase p n hp with ⟨n', hp⟩ | hle
      · exact hsame p n' hp hr
      · omega

theorem AnswersInv.known_waiting (h : AnswersInv m) {p : Request} {n : ℕ}
    (hp : (m.clients c).phase = .waiting p n) : m.Known p := by
  obtain ⟨rfl, hsession, hpos, hvtime⟩ := (h.clients c).waiting p n hp
  refine ⟨hpos, Or.inr ⟨hsession, by omega, fun p' n' hp' _ => ?_⟩⟩
  rw [hp] at hp'
  injection hp'

theorem later_issue (conn : RpcConn) (c : ℤ) (operation : Operation) :
    conn.Later (conn.issue c operation).1 := by
  refine Or.inr ⟨rfl, ?_, fun p n hp => Or.inr ?_⟩
  · simp [RpcConn.issue]
  · simp only [RpcConn.issue, ClientPhase.waiting.injEq] at hp
    rw [← hp.1]

theorem later_setConn (hlater : (m.clients c).Later conn) (c' : ℤ) :
    (m.clients c').Later ((m.setConn c conn).clients c') := by
  simp only [setConn, Function.update_apply]
  split
  · rename_i hc
    rw [hc]
    exact hlater
  · exact .refl _

/-- A client goes on. -/
theorem AnswersInv.setConn (h : AnswersInv m) (hlater : (m.clients c).Later conn)
    (hsound : conn.Sound c) : AnswersInv (m.setConn c conn) := by
  have hall := later_setConn hlater
  have hknown : ∀ r, m.Known r → (m.setConn c conn).Known r := fun r hr => hr.later (hall _)
  have htraced : ∀ c' σ a, m.Traced c' σ a → (m.setConn c conn).Traced c' σ a := by
    rintro c' σ a ⟨r, ho, hc, hs, hr, hv, hx⟩
    exact ⟨r, ho, hc, hs, hknown r hr, hv, hx⟩
  refine ⟨fun c' => ?_, fun x hx => hknown _ (h.requests x hx),
    fun s t ht => hknown _ (h.threads s t ht), h.active, h.replies, fun s c' e he => ?_,
    fun d hd => ⟨hknown _ (h.answers d hd).1, (h.answers d hd).2.imp id (htraced _ _ _)⟩,
    h.returned⟩
  · simp only [Sessions.setConn, Function.update_apply]
    split
    · rename_i hc
      rw [hc]
      exact hsound
    · exact h.clients c'
  · obtain ⟨hle, hlast⟩ := h.table s c' e he
    refine ⟨hle.trans ?_, fun hstate hpos => htraced _ _ _ (hlast hstate hpos)⟩
    rcases hall c' with hlt | ⟨heq, -⟩
    · exact hlt.le
    · exact heq.ge

theorem AnswersInv.send (h : AnswersInv m) (s : Server) (hr : m.Known r) :
    AnswersInv { m with requests := m.requests ++ [(s, r)] } := by
  refine ⟨h.clients, fun x hx => ?_, h.threads, h.active, h.replies, h.table, h.answers,
    h.returned⟩
  rcases List.mem_append.mp hx with hx | hx
  · exact h.requests x hx
  · rw [List.mem_singleton.mp hx]
    exact hr

/-- A new request. -/
theorem AnswersInv.issue (h : AnswersInv m) (operation : Operation)
    (hlater : (m.clients c).Later (conn.issue c operation).1) (hpos : 0 ≤ conn.vtime) :
    AnswersInv (m.issue c conn operation) := by
  have hsound : (conn.issue c operation).1.Sound c := by
    refine ⟨?_, fun p n hp => ?_⟩
    · simp only [RpcConn.issue]
      omega
    · simp only [RpcConn.issue, ClientPhase.waiting.injEq] at hp
      obtain ⟨rfl, rfl⟩ := hp
      exact ⟨rfl, rfl, hpos, rfl⟩
  have hset := h.setConn hlater hsound
  refine hset.send _ (hset.known_waiting (c := c) (n := 1) ?_)
  simp [Sessions.setConn, RpcConn.issue]

/-- The client sends its request again, or goes on reading. -/
theorem AnswersInv.waits (h : AnswersInv m) {p : Request} {n : ℕ}
    (hp : (m.clients c).phase = .waiting p n) (leader : Server) (n' : ℕ) :
    AnswersInv (m.setConn c
      { m.clients c with currentLeaderIndex := leader, phase := .waiting p n' }) := by
  refine h.setConn (Or.inr ⟨rfl, le_rfl, fun p' k hp' => Or.inl ⟨n, ?_⟩⟩) ⟨(h.clients c).vtime, ?_⟩
  · simp only [ClientPhase.waiting.injEq] at hp'
    rw [← hp'.1]
    exact hp
  · intro p' k hp'
    simp only [ClientPhase.waiting.injEq] at hp'
    rw [← hp'.1]
    exact (h.clients c).waiting p n hp

theorem AnswersInv.write (h : AnswersInv m) {p : Request} {n : ℕ}
    (hp : (m.clients c).phase = .waiting p n) (leader : Server) (n' : ℕ) :
    AnswersInv (m.write c
      { m.clients c with currentLeaderIndex := leader, phase := .waiting p n' } p) := by
  have hset := h.waits hp leader n'
  refine hset.send _ (hset.known_waiting (c := c) (n := n') ?_)
  simp [Sessions.setConn]

/-- `send_packet` returns. -/
theorem AnswersInv.leave (h : AnswersInv m) (p : Request) (failed : Bool) :
    AnswersInv (m.setConn c { m.clients c with phase := RpcConn.afterCall p failed }) := by
  have hnot : ∀ p' n, RpcConn.afterCall p failed ≠ .waiting p' n := by
    intro p' n
    unfold RpcConn.afterCall
    split
    · split <;> simp
    · simp
    · simp
  exact h.setConn (Or.inr ⟨rfl, le_rfl, fun p' n hp => absurd hp (hnot p' n)⟩)
    ⟨(h.clients c).vtime, fun p' n hp => absurd hp (hnot p' n)⟩

end Clients

section Servers

open RpcServer

variable {m : Sessions} {s : Server} {k : ℕ} {t : RequestThread}

/-- One server changes: its threads handle known requests, those that have been
let through have an entry that is not older, and its entries hold answers of
their sessions. -/
structure ServerSound (m : Sessions) (s : Server) (sv : RpcServer) : Prop where
  threads : ∀ t ∈ sv.threads, m.Known t.request
  active : ∀ t ∈ sv.threads, t.pc.active →
    ∃ e, sv.table t.request.packet.clientId = some e ∧ t.request.session ≤ e.session
  replies : ∀ t ∈ sv.threads, ∀ reply, t.pc = .returned reply →
    (s, t.request, t.request.packet.response reply) ∈ m.executions
  table : ∀ c e, sv.table c = some e → e.session ≤ (m.clients c).session ∧
    (e.state = .waiting → 0 ≤ e.vtime → m.Traced c e.session e.lastResponse)

theorem AnswersInv.server (h : AnswersInv m) (s : Server) : m.ServerSound s (m.servers s) :=
  ⟨h.threads s, h.active s, h.replies s, h.table s⟩

theorem AnswersInv.setServer (h : AnswersInv m) {sv : RpcServer} (hsv : m.ServerSound s sv) :
    AnswersInv (m.setServer s sv) := by
  have hall : ∀ v, m.ServerSound v (Function.update m.servers s sv v) := by
    intro v
    rw [Function.update_apply]
    split
    · rename_i hv
      rw [hv]
      exact hsv
    · exact h.server v
  exact ⟨h.clients, h.requests, fun v => (hall v).threads, fun v => (hall v).active,
    fun v => (hall v).replies, fun v => (hall v).table, h.answers, h.returned⟩

/-- An answer is sent. -/
theorem AnswersInv.answer (h : AnswersInv m) {answer : Option AnswerDatagram}
    (ha : ∀ d ∈ answer, m.Known d.request ∧
      ((d.answer.response.rc = eInProgress ∨ d.answer.response.redirects) ∨
        m.Traced d.request.packet.clientId d.request.session d.answer)) :
    AnswersInv { m with answers := m.answers ++ answer.toList } := by
  refine ⟨h.clients, h.requests, h.threads, h.active, h.replies, h.table, fun d hd => ?_,
    h.returned⟩
  rcases List.mem_append.mp hd with hd | hd
  · exact h.answers d hd
  · exact ha d (Option.mem_toList.mp hd)

/-- What a step of thread `t` has to respect. -/
theorem ServerSound.advance (h : m.ServerSound s (m.servers s))
    (ht : (m.servers s).threads[k]? = some t) {client : Option ClientProcessData}
    {pc : Option RequestPc} (called : List Request)
    (hself : ∀ p, pc = some p → p.active →
      ∃ e, client = some e ∧ t.request.session ≤ e.session)
    (hreply : ∀ reply, pc ≠ some (.returned reply))
    (hgrow : ∀ e, (m.servers s).table t.request.packet.clientId = some e →
      ∃ e', client = some e' ∧ e.session ≤ e'.session)
    (hentry : ∀ e, client = some e → e.session ≤ (m.clients t.request.packet.clientId).session ∧
      (e.state = .waiting → 0 ≤ e.vtime →
        m.Traced t.request.packet.clientId e.session e.lastResponse)) :
    m.ServerSound s ((m.servers s).advanced k t client pc called) where
  threads u hu := by
    rcases mem_advanced ht hu with hu | ⟨p, -, rfl⟩
    · exact h.threads u (mem_threads hu)
    · exact h.threads t (List.mem_of_getElem? ht)
  active u hu hactive := by
    simp only [advanced, Function.update_apply]
    rcases mem_advanced ht hu with hu | ⟨p, hp, rfl⟩
    · obtain ⟨e, he, hle⟩ := h.active u (mem_threads hu) hactive
      split
      · rename_i heq
        rw [heq] at he
        obtain ⟨e', he', hle'⟩ := hgrow e he
        exact ⟨e', he', hle.trans hle'⟩
      · exact ⟨e, he, hle⟩
    · rw [if_pos rfl]
      exact hself p hp hactive
  replies u hu reply hpc := by
    rcases mem_advanced ht hu with hu | ⟨p, hp, rfl⟩
    · exact h.replies u (mem_threads hu) reply hpc
    · exact absurd (hp.trans (congrArg some hpc)) (hreply reply)
  table c e he := by
    simp only [advanced, Function.update_apply] at he
    split_ifs at he with hc
    · rw [hc]
      exact hentry e he
    · exact h.table c e he

/-- A thread that leaves the table as it is and is not let through. -/
theorem ServerSound.move (h : m.ServerSound s (m.servers s))
    (ht : (m.servers s).threads[k]? = some t) {pc : Option RequestPc}
    (hpc : ∀ p, pc = some p → ¬ p.active) :
    m.ServerSound s ((m.servers s).advanced k t
      ((m.servers s).table t.request.packet.clientId) pc []) :=
  h.advance ht [] (fun p hp hactive => absurd hactive (hpc p hp))
    (fun _ hp => absurd trivial (hpc _ hp)) (fun e he => ⟨e, he, le_rfl⟩) fun e he => h.table _ e he

theorem AnswersInv.sound_threadStep (h : AnswersInv m) (hok : m.Timely (.thread s k))
    (ht : (m.servers s).threads[k]? = some t) {client : Option ClientProcessData}
    {pc : Option RequestPc} {called : List Request} {answer : Option AnswerDatagram}
    (hadv : ThreadStep (m.servers s).role ((m.servers s).table t.request.packet.clientId) t client
      pc called answer) :
    m.ServerSound s ((m.servers s).advanced k t client pc called) := by
  have hs := h.server s
  have hmem := List.mem_of_getElem? ht
  have hpassive : ∀ q : RequestPc, ¬ q.active → ∀ p, some q = some p → ¬ p.active := by
    intro q hq p hp
    cases hp
    exact hq
  cases hadv with
  | lead hpc hrole => exact hs.move ht (hpassive _ id)
  | turn hpc hrole => exact hs.move ht (hpassive _ id)
  | redirect reply hpc hrc => exact hs.move ht (by simp)
  | create hpc hnone =>
      refine hs.advance ht [] (fun p hp hactive => absurd hactive (hpassive _ id p hp)) (by simp)
        (fun e he => ?_) (fun e he => ?_)
      · rw [hnone] at he
        exact absurd he (by simp)
      · rw [Option.some.injEq] at he
        rw [← he]
        exact ⟨Nat.zero_le _, fun _ hpos => absurd hpos (by simp [ClientProcessData.create])⟩
  | found e hpc he =>
      rw [← he]
      exact hs.move ht (hpassive _ id)
  | busy e reply hpc he hvtime hrc =>
      rw [← he]
      exact hs.move ht (by simp)
  | repeated e hpc he hvtime hstate =>
      rw [← he]
      exact hs.move ht (by simp)
  | letIn e hpc he hvtime =>
      obtain ⟨hnow, -⟩ := hok t ht (by rw [hpc]; rfl)
      refine hs.advance ht [] (fun p _ _ => ⟨_, rfl, le_rfl⟩) (by simp) (fun e' he' => ?_)
        (fun e' he' => ?_)
      · exact ⟨_, rfl, hnow ▸ (hs.table _ e' he').1⟩
      · rw [Option.some.injEq] at he'
        rw [← he']
        exact ⟨hnow.le, fun hwaiting => absurd hwaiting (by simp)⟩
  | invoke hpc =>
      refine hs.advance ht _ (fun p _ _ => hs.active t hmem ?_) (by simp)
        (fun e he => ⟨e, he, le_rfl⟩) fun e he => hs.table _ e he
      rw [hpc]
      trivial
  | finish e reply hpc he =>
      obtain ⟨hnow, -⟩ := hok t ht (by rw [hpc]; rfl)
      obtain ⟨e', he', hle⟩ := hs.active t hmem (by rw [hpc]; trivial)
      rw [he, Option.some.injEq] at he'
      subst he'
      refine hs.advance ht [] (by simp) (by simp) (fun e' he' => ?_) (fun e' he' => ?_)
      · rw [he, Option.some.injEq] at he'
        rw [← he']
        exact ⟨_, rfl, le_rfl⟩
      · rw [Option.some.injEq] at he'
        rw [← he']
        have hentry := (hs.table _ e he).1
        refine ⟨hentry, fun _ _ => ⟨t.request, rfl, rfl, ?_, hs.threads t hmem, rfl, s,
          hs.replies t hmem reply hpc⟩⟩
        rw [← hnow] at hentry
        exact le_antisymm hle hentry

theorem AnswersInv.answer_threadStep (h : AnswersInv m) (hok : m.Timely (.thread s k))
    (ht : (m.servers s).threads[k]? = some t) {client : Option ClientProcessData}
    {pc : Option RequestPc} {called : List Request} {answer : Option AnswerDatagram}
    (hadv : ThreadStep (m.servers s).role ((m.servers s).table t.request.packet.clientId) t client
      pc called answer) :
    ∀ d ∈ answer, m.Known d.request ∧
      ((d.answer.response.rc = eInProgress ∨ d.answer.response.redirects) ∨
        m.Traced d.request.packet.clientId d.request.session d.answer) := by
  have hmem := List.mem_of_getElem? ht
  have hknown := h.threads s t hmem
  intro d hd
  cases hadv with
  | redirect reply hpc hrc =>
      cases hd
      exact ⟨hknown, Or.inl (Or.inr hrc)⟩
  | busy e reply hpc he hvtime hrc =>
      cases hd
      exact ⟨hknown, Or.inl (Or.inl hrc)⟩
  | repeated e hpc he hvtime hstate =>
      cases hd
      obtain ⟨-, hsame⟩ := hok t ht (by rw [hpc]; rfl)
      have htraced := (h.table s _ e he).2 hstate (hvtime ▸ hknown.1)
      rw [hsame hpc e he hvtime] at htraced
      exact ⟨hknown, Or.inr htraced⟩
  | finish e reply hpc he =>
      cases hd
      exact ⟨hknown, Or.inr
        ⟨t.request, rfl, rfl, rfl, hknown, rfl, s, h.replies s t hmem reply hpc⟩⟩
  | _ => exact absurd hd (by simp)

end Servers

/-! ### Whole runs -/

variable {m m' : Sessions} {x : SessionAction}

theorem AnswersInv.fewer (h : AnswersInv m) {requests : List (Server × Request)}
    {answers : List AnswerDatagram} (hr : ∀ x ∈ requests, x ∈ m.requests)
    (ha : ∀ d ∈ answers, d ∈ m.answers) :
    AnswersInv { m with requests, answers } :=
  ⟨h.clients, fun x hx => h.requests x (hr x hx), h.threads, h.active, h.replies, h.table,
    fun d hd => h.answers d (ha d hd), h.returned⟩

/-- The client reads an answer. -/
theorem AnswersInv.read (h : AnswersInv m) {d : AnswerDatagram} {p : Request} {n : ℕ}
    (hd : m.Known d.request ∧ ((d.answer.response.rc = eInProgress ∨ d.answer.response.redirects) ∨
      m.Traced d.request.packet.clientId d.request.session d.answer))
    (hp : (m.clients d.request.packet.clientId).phase = .waiting p n)
    (hok : ¬ d.answer.response.ignored p.packet → ¬ d.answer.response.redirects →
      d.request.session = (m.clients d.request.packet.clientId).session) :
    AnswersInv (m.read d.request.packet.clientId (m.clients d.request.packet.clientId) p
      d.answer) := by
  unfold Sessions.read
  split
  · exact h.waits hp _ 0
  rename_i hignored
  split
  · exact h.write hp _ 0
  · rename_i hredirects
    have hleft := h.leave (c := d.request.packet.clientId) p (decide (d.answer.response.rc < 0))
    refine ⟨hleft.clients, hleft.requests, hleft.threads, hleft.active, hleft.replies, hleft.table,
      hleft.answers, fun x hx => ?_⟩
    rcases List.mem_append.mp hx with hx | hx
    · exact h.returned x hx
    · rw [List.mem_singleton.mp hx]
      have hnow := hok hignored hredirects
      rcases hd.2 with (hbusy | hnot) | ⟨r, horigin, hclient, hsession, hknown, hvtime, hdone⟩
      · exact absurd (Or.inl hbusy) hignored
      · exact absurd hnot hredirects
      -- the answer is to a request of this session, and no later one has been made
      have hr : r = p := by
        obtain ⟨-, -, -, hlast⟩ := (h.clients _).waiting p n hp
        obtain ⟨-, hold⟩ := hknown
        rw [hclient] at hold
        rcases hold with hold | ⟨-, hlt, hsame⟩
        · omega
        · refine hsame p n hp ?_
          simp only [ResponseInfo.ignored, not_or, not_lt] at hignored
          omega
      rw [hr] at horigin hdone
      exact ⟨horigin, hdone⟩

theorem AnswersInv.handlerReturns (h : AnswersInv m) {s : Server} {k : ℕ} {t : RequestThread}
    (ht : (m.servers s).threads[k]? = some t) (hpc : t.pc = .running) (reply : Reply) :
    AnswersInv { m.setServer s ((m.servers s).goto k t (.returned reply)) with
      executions := m.executions ++ [(s, t.request, t.request.packet.response reply)] } := by
  have hmem := List.mem_of_getElem? ht
  have htraced : ∀ c σ a, m.Traced c σ a → Traced { m with
      executions := m.executions ++ [(s, t.request, t.request.packet.response reply)] } c σ a := by
    rintro c σ a ⟨r, ho, hc, hs, hr, hv, v, hx⟩
    exact ⟨r, ho, hc, hs, hr, hv, v, List.mem_append_left _ hx⟩
  have hmore : AnswersInv { m with
      executions := m.executions ++ [(s, t.request, t.request.packet.response reply)] } := by
    refine ⟨h.clients, h.requests, h.threads, h.active, fun v u hu r hr => ?_, fun v c e he => ?_,
      fun d hd => ⟨(h.answers d hd).1, (h.answers d hd).2.imp id (htraced _ _ _)⟩, fun x hx => ?_⟩
    · exact List.mem_append_left _ (h.replies v u hu r hr)
    · exact ⟨(h.table v c e he).1, fun hw hpos => htraced _ _ _ ((h.table v c e he).2 hw hpos)⟩
    · obtain ⟨horigin, v, hx⟩ := h.returned x hx
      exact ⟨horigin, v, List.mem_append_left _ hx⟩
  have hthreads : ∀ u ∈ ((m.servers s).goto k t (.returned reply)).threads,
      u ∈ (m.servers s).threads ∨ u = { t with pc := .returned reply } := by
    intro u hu
    simp only [RpcServer.goto] at hu
    refine (List.mem_replaceAt hu).imp id fun h => ?_
    rw [Option.some.injEq] at h
    exact h.symm
  refine hmore.setServer ⟨fun u hu => ?_, fun u hu hactive => ?_, fun u hu r hr => ?_,
    hmore.table s⟩
  · rcases hthreads u hu with hu | rfl
    · exact h.threads s u hu
    · exact h.threads s t hmem
  · rcases hthreads u hu with hu | rfl
    · exact h.active s u hu hactive
    · exact h.active s t hmem (by rw [hpc]; trivial)
  · rcases hthreads u hu with hu | rfl
    · exact hmore.replies s u hu r hr
    · cases hr
      exact List.mem_append_right _ (List.mem_singleton.mpr rfl)

theorem AnswersInv.exec (h : AnswersInv m) (hok : m.Timely x) (hx : m.exec x = some m') :
    AnswersInv m' := by
  cases x with
  | connect c =>
      simp only [Sessions.exec] at hx
      split_ifs at hx
      simp only [Option.some.injEq] at hx
      subst hx
      exact h.issue _ (Or.inl (Nat.lt_succ_self _)) le_rfl
  | call c request =>
      simp only [Sessions.exec] at hx
      split_ifs at hx
      simp only [Option.some.injEq] at hx
      subst hx
      exact h.issue _ (later_issue _ _ _) (h.clients c).vtime
  | close c =>
      simp only [Sessions.exec] at hx
      split_ifs at hx
      simp only [Option.some.injEq] at hx
      subst hx
      exact h.issue _ (later_issue _ _ _) (h.clients c).vtime
  | timeout c =>
      simp only [Sessions.exec] at hx
      split at hx
      · rename_i p n hp
        simp only [Option.some.injEq] at hx
        subst hx
        unfold retry
        split_ifs
        · exact h.write hp _ _
        · exact h.write hp _ _
      · exact absurd hx (by simp)
  | readError c =>
      simp only [Sessions.exec] at hx
      split at hx
      · simp only [Option.some.injEq] at hx
        subst hx
        exact h.leave _ _
      · exact absurd hx (by simp)
  | receive k =>
      simp only [Sessions.exec] at hx
      split at hx
      · exact absurd hx (by simp)
      · rename_i d hd
        split at hx
        · rename_i p n hp
          simp only [Option.some.injEq] at hx
          subst hx
          have hfewer := h.fewer (fun x hx => hx) fun d (hd : d ∈ m.answers.eraseIdx k) =>
            List.mem_of_mem_eraseIdx hd
          refine hfewer.read (h.answers d (List.mem_of_getElem? hd)) hp fun hi hr => ?_
          refine hok d hd ?_
          rw [hp]
          simp [ClientPhase.accepts, hi, hr]
        · exact absurd hx (by simp)
  | loseAnswer k =>
      simp only [Sessions.exec] at hx
      split_ifs at hx
      simp only [Option.some.injEq] at hx
      subst hx
      exact h.fewer (fun x hx => hx) fun d hd => List.mem_of_mem_eraseIdx hd
  | loseRequest k =>
      simp only [Sessions.exec] at hx
      split_ifs at hx
      simp only [Option.some.injEq] at hx
      subst hx
      exact h.fewer (fun x hx => List.mem_of_mem_eraseIdx hx) fun d hd => hd
  | deliver k =>
      simp only [Sessions.exec] at hx
      split at hx
      · exact absurd hx (by simp)
      · rename_i s r hk
        simp only [Option.some.injEq] at hx
        subst hx
        have hfewer := h.fewer (fun x (hx : x ∈ m.requests.eraseIdx k) =>
          List.mem_of_mem_eraseIdx hx) fun d hd => hd
        refine hfewer.setServer ⟨fun t ht => ?_, fun t ht hactive => ?_, fun t ht reply hpc => ?_,
          h.table s⟩
        · rcases List.mem_append.mp ht with ht | ht
          · exact h.threads s t ht
          · rw [List.mem_singleton.mp ht]
            exact h.requests _ (List.mem_of_getElem? hk)
        · rcases List.mem_append.mp ht with ht | ht
          · exact h.active s t ht hactive
          · rw [List.mem_singleton.mp ht] at hactive
            exact hactive.elim
        · rcases List.mem_append.mp ht with ht | ht
          · exact h.replies s t ht reply hpc
          · rw [List.mem_singleton.mp ht] at hpc
            exact absurd hpc (by simp)
  | thread s k =>
      simp only [Sessions.exec] at hx
      split at hx
      · exact absurd hx (by simp)
      · rename_i sv answer hstep
        simp only [Option.some.injEq] at hx
        subst hx
        obtain ⟨t, client, pc, called, ht, hadv, rfl⟩ := RpcServer.step_threadStep hstep
        have hserver := h.setServer (h.sound_threadStep hok ht hadv)
        exact hserver.answer (h.answer_threadStep hok ht hadv)
  | handlerReturns s k reply =>
      simp only [Sessions.exec] at hx
      split at hx
      · exact absurd hx (by simp)
      · rename_i t ht
        split_ifs at hx with hpc
        simp only [Option.some.injEq] at hx
        subst hx
        exact h.handlerReturns ht hpc _
  | role s role =>
      simp only [Sessions.exec, Option.some.injEq] at hx
      subst hx
      exact h.setServer ⟨h.threads s, h.active s, h.replies s, h.table s⟩
  | restart s =>
      simp only [Sessions.exec, Option.some.injEq] at hx
      subst hx
      refine h.setServer ⟨?_, ?_, ?_, ?_⟩ <;> simp [RpcServer.init]

theorem answersInv_init : AnswersInv init := by
  refine ⟨fun c => ⟨le_rfl, ?_⟩, ?_, ?_, ?_, ?_, ?_, ?_, ?_⟩ <;>
    simp [init, RpcServer.init, RpcConn.init]

/-- `send_packet` returns with the response that the handler of its request has
produced. -/
theorem returned_by_own_handler {m : Sessions} (hrun : Machine.Steps exec Timely init m) :
    ∀ x ∈ m.returned, x.2.origin = some x.1 ∧ ∃ s, (s, x.1, x.2.response) ∈ m.executions := by
  have hinv : AnswersInv m := hrun.invariant (fun _ _ _ h hok hx => h.exec hok hx) answersInv_init
  exact hinv.returned

/-- The request at the head of the network is handled at server `0`. -/
def answerHead : List SessionAction := .deliver 0 :: serve 0 0 ++ conclude 0 0 ⟨0, .text ""⟩

/-- Client `7` connects, closes, and connects again. -/
def twoSessions : List SessionAction :=
  [SessionAction.role 0 .leader, .connect 7] ++ answerHead ++
    [SessionAction.receive 0, .close 7] ++ answerHead ++
    [SessionAction.receive 0, .connect 7] ++ answerHead ++ [SessionAction.receive 0]

/-- `send_packet` has returned in session `n`. -/
def returnedIn (m : Sessions) (n : ℕ) : Bool := m.returned.any fun x => decide (x.1.session = n)

theorem twoSessions_runs : (Machine.execWhile exec (fun m x => decide (m.Timely x)) init
    twoSessions).any (fun m => m.returnedIn 2) = true := by
  decide +kernel

theorem second_session_answered : ∃ m, Machine.Steps exec Timely init m ∧
    m.returnedIn 2 = true ∧ ∀ x ∈ m.returned, x.2.origin = some x.1 ∧
      ∃ s, (s, x.1, x.2.response) ∈ m.executions := by
  obtain ⟨m, hrun, hm⟩ := Machine.exists_of_execWhile Timely (fun _ _ h => of_decide_eq_true h)
    twoSessions_runs
  exact ⟨m, hrun, hm, returned_by_own_handler hrun⟩

/-- The request to close is sent twice. The client takes the answer to the
first copy, connects again, and takes the answer to the second one. -/
def lateAnswer : List SessionAction :=
  [SessionAction.role 0 .leader, .connect 7] ++ answerHead ++
    [SessionAction.receive 0, .close 7, .timeout 7] ++ answerHead ++
    [SessionAction.deliver 0, .thread 0 0, .thread 0 0, .thread 0 0, .receive 0, .connect 7,
      .receive 0]

theorem lateAnswer_runs : (Machine.execAll exec init lateAnswer).any (fun m =>
    m.returned.any fun x => decide (x.2.origin ≠ some x.1)) = true := by
  decide +kernel

/-- A new session can start with the answer of the one before. -/
theorem returned_from_earlier_session : ∃ m, Machine.Reaches exec init m ∧
    ¬ ∀ x ∈ m.returned, x.2.origin = some x.1 ∧
      ∃ s, (s, x.1, x.2.response) ∈ m.executions := by
  obtain ⟨m, hrun, hm⟩ := Machine.exists_of_execAll lateAnswer_runs
  refine ⟨m, hrun, fun hall => ?_⟩
  obtain ⟨x, hx, horigin⟩ := List.any_eq_true.mp hm
  exact (of_decide_eq_true horigin) (hall x hx).1

end Sessions

end RaftLock

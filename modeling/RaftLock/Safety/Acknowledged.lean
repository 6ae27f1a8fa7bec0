import RaftLock.Safety.Duplicates
import RaftLock.Safety.LogMatching

/-!
What a successful answer to an append request vouches for.

The follower has compared one term at one index. Behind it stands the whole
log of the leader as it was when the request left: a leader's log only grows
in its term, the request is about a part of it that was there, and a server
that finds the request consistent holds this part. It does not matter how late
the request arrives, nor what others have written to the follower before.
-/

namespace RaftLock

open Consensus Outcome

/-! ### The answer leaves last -/

theorem take_of_last {α : Type} {l : List α} {x : α} {k : ℕ} (h : x ∈ (l ++ [x]).take k)
    (hx : x ∉ l) : (l ++ [x]).take k = l ++ [x] := by
  rcases Nat.lt_or_ge l.length k with hk | hk
  · exact List.take_of_length_le (by simp; omega)
  · rw [List.take_append_of_le_length hk] at h
    exact absurd (List.mem_of_mem_take h) hx

/-- A server that saves, answers and has answered goes on from what it saved. -/
theorem Node.view_answer {n : Node} {o : Outcome} {crashAt : Option ℕ} {l : List Effect}
    {dst : Server} {packet : Packet} (hup : n.up = true)
    (heff : o.effects = l ++ [.save o.raft, .send dst packet]) (hl : .send dst packet ∉ l)
    (hmem : .send dst packet ∈ performed o crashAt) :
    (n.settle o crashAt).view = o.raft ∨ (n.settle o crashAt).view = forget o.raft := by
  suffices hperf : performed o crashAt = l ++ [.save o.raft, .send dst packet] from
    view_settle hup hperf
  cases crashAt with
  | none => exact heff
  | some k =>
      have hsplit : l ++ [.save o.raft, .send dst packet] =
          (l ++ [.save o.raft]) ++ [.send dst packet] := by simp
      rw [performed, heff, hsplit] at hmem ⊢
      exact take_of_last hmem (by simpa using hl)

/-- A server whose successful answer to an append request has left. -/
inductive Acknowledges (r : RaftState) (q : AppendRequest) : RaftState → Prop
  | heartbeat (r' : RaftState) (hc : consistent r q) (hn : q.entriesN = 0)
      (hstart : r'.startLogIndex = r.startLogIndex) (hcount : r'.logCount = r.logCount)
      (hlog : r'.log = r.log) : Acknowledges r q r'
  | entry (r' : RaftState) (hc : consistent r q) (hn : q.entriesN ≠ 0)
      (hlo : r.startLogIndex ≤ q.prevLogIndex + 1)
      (hstart : r'.startLogIndex = r.startLogIndex) (hcount : r'.logCount = storedCount r q)
      (hlog : r'.log = (stored r q).log) : Acknowledges r q r'

theorem storedCount_arrived (r : RaftState) (packet : Packet) (q : AppendRequest) :
    storedCount (arrived r packet) q = storedCount r q := by
  simp only [storedCount, getLogTerm_arrived, arrived_logCount]

theorem stored_arrived_log (r : RaftState) (packet : Packet) (q : AppendRequest) :
    (stored (arrived r packet) q).log = (stored r q).log := by
  simp only [stored, arrived_startLogIndex, arrived_log]

/-- Only a handler that has come to its end has answered, and it has saved what
it answers for. -/
theorem acknowledges_of_answer {r : RaftState} {addr dst : Server} {q : AppendRequest}
    {p : Response} {n : Node} {crashAt : Option ℕ} (hup : n.up = true) (hs : 0 < p.success)
    (hmem : .send dst (.response p) ∈
      Node.performed (handlePacket r addr (.append q)) crashAt) :
    Acknowledges r q (n.settle (handlePacket r addr (.append q)) crashAt).view := by
  obtain ⟨pre, hpre, heq⟩ := handlePacket_parts r addr (.append q) (Or.inr (by simp))
  have hle := le_arrived r (.append q)
  have hquiet : ∀ x ∈ pre, x ≠ .send dst (.response p) := by
    intro x hx hsend
    rcases hpre.mem hx with h | ⟨h, -⟩
    · rw [hsend] at h
      exact absurd h (by simp)
    · rw [hsend] at h
      exact absurd h (by simp)
  have hin := Node.mem_of_performed hmem
  rw [heq] at hin hmem ⊢
  have hown := (List.mem_append.mp hin).resolve_left fun h => hquiet _ h rfl
  -- a handler that ends the process has sent nothing
  cases hf : (handlePacket (arrived r (.append q)) addr (.append q)).fault with
  | true =>
      obtain ⟨i, e, hcommit, -⟩ := turn_of_fault hle hf hown
      exact absurd hcommit (by simp)
  | false =>
      have hh := handled hle hf
      rw [hf] at hmem
      generalize (handlePacket (arrived r (.append q)) addr (.append q)).raft = r' at hh hmem ⊢
      generalize (handlePacket (arrived r (.append q)) addr (.append q)).effects = es
        at hh hmem hown ⊢
      -- the answer is the last effect of a handler that accepts
      have hview : ∀ (turns : List (ℤ × LogEntry)) (x : Response),
          es = turns.map Effect.ofTurn ++ [.save r', .send addr (.response x)] →
          (n.settle ⟨r', pre ++ es, false⟩ crashAt).view = r' ∨
            (n.settle ⟨r', pre ++ es, false⟩ crashAt).view = forget r' := by
        rintro turns x rfl
        have hnot : .send dst (.response p) ∉ pre ++ turns.map Effect.ofTurn := by
          rw [List.mem_append]
          rintro (h | h)
          · exact hquiet _ h rfl
          · exact isQuiet_ofTurn turns _ h
        obtain ⟨rfl, rfl⟩ : dst = addr ∧ p = x := by
          have hlast := (List.mem_append.mp hown).resolve_left fun h =>
            hnot (List.mem_append_right _ h)
          simpa using hlast
        exact Node.view_answer (o := ⟨r', pre ++ (_ ++ _), false⟩)
          (l := pre ++ turns.map Effect.ofTurn) hup (by simp) hnot hmem
      cases hh with
      | appendRefused _ hc =>
          simp only [reply, List.mem_cons, reduceCtorEq, Effect.send.injEq, Packet.response.injEq,
            List.not_mem_nil, or_false, false_or] at hown
          rw [hown.2] at hs
          exact absurd hs (by simp)
      | heartbeat _ hterm hc hn hcommit =>
          have hc' := consistent_of_arrived hc
          rcases hview _ _ rfl with hview | hview
          all_goals
            rw [hview]
            exact .heartbeat _ hc' hn (arrived_startLogIndex _ _) (arrived_logCount _ _)
              (arrived_log _ _)
      | entryStored _ hterm hc hn hlo hhi hroom hcommit =>
          have hc' := consistent_of_arrived hc
          rw [arrived_startLogIndex] at hlo
          rcases hview _ _ rfl with hview | hview
          all_goals
            rw [hview]
            exact .entry _ hc' hn hlo (arrived_startLogIndex _ _) (storedCount_arrived _ _ q)
              (stored_arrived_log _ _ q)

/-! ### Both logs -/

/-- An append request comes from a leader, about entries it has. -/
theorem Sends.about {r r' : RaftState} {t : LeaderThread} {es : List Effect}
    {pc : Option LeaderPc} (h : Sends r t r' es pc) {dst : Server} {q : AppendRequest}
    (hsend : .send dst (.append q) ∈ es) :
    r.state = .leader ∧ q.term = r.currentTerm ∧ (q.entriesN = 0 ∨ q.entriesN = 1) ∧
      q.prevLogIndex + q.entriesN < r.logCount := by
  cases h with
  | heartbeat hpc hstate hnext heq =>
      simp only [List.mem_singleton, Effect.send.injEq, Packet.append.injEq] at hsend
      rw [hsend.2]
      simp only [appendRequest]
      exact ⟨hstate, trivial, Or.inl trivial, by omega⟩
  | entry hpc hstate hnext e he =>
      simp only [List.mem_singleton, Effect.send.injEq, Packet.append.injEq] at hsend
      rw [hsend.2]
      simp only [appendRequest]
      have hlt := (getLog_some he).2.1
      exact ⟨hstate, trivial, Or.inr trivial, by omega⟩
  | _ => exact absurd hsend (by simp)

section Logs

variable {config : Config} {w : World} {p : Protocol} {s v : Server} {r' : RaftState}
  {q : AppendRequest}

/-- A server that acknowledges a request holds the leader's log as far as the
request reaches. -/
theorem SimInv.acknowledgedPrefix (h : SimInv config w p) (hq : AppendOk p v q)
    (hcount : q.entriesN = 0 ∨ q.entriesN = 1) (ha : Acknowledges (w.raft s) q r') :
    ∃ L, Holds r' L ∧
      (p.llog q.term).take (q.prevLogIndex + q.entriesN + 1).toNat <+: L := by
  cases ha with
  | heartbeat hc hn hstart hcount' hlog =>
      refine ⟨p.log s, (h.holds s).congr hstart hcount' fun k => by rw [hlog], ?_⟩
      rw [hn, add_zero]
      exact h.held_of_consistent hq hc
  | entry hc hn hlo hstart hcount' hlog =>
      have hone : q.entriesN = 1 := hcount.resolve_left hn
      refine ⟨_, (h.holds_stored hq hc hn hlo).congr hstart hcount' fun k => by rw [hlog], ?_⟩
      rw [hone, show q.prevLogIndex + 1 + 1 = q.prevLogIndex + 2 by ring]
      exact prefix_merge _ _ _

/-- The entries of a log that begins with `L`, in a window from the first one
on. -/
theorem Holds.entry_of_prefix {r : RaftState} {X L : List LogEntry} (h : Holds r X)
    (hstart : r.startLogIndex = 0) (hpre : L <+: X) {i : ℤ} (hi : 0 ≤ i)
    (hlt : i.toNat < L.length) : ∃ e, getLog r i = some e ∧ L[i.toNat]? = some e.core := by
  have hlen := h.length
  have hle := hpre.length_le
  have hget := getLog_of_mem (r := r) (i := i) (by omega) (by omega)
  refine ⟨_, hget, ?_⟩
  have hentry := h.entry i _ hget
  obtain ⟨rest, rfl⟩ := hpre
  rwa [List.getElem?_append_left hlt] at hentry

end Logs

/-- A follower that answers an append request with success has, up to the last
index the request is about, the entries that the leader had when it sent it. -/
theorem acknowledged_logs_equal {config : Config} (hvalid : ∀ v, config v ≠ -1)
    {c₁ c₂ c₃ : Cluster} (hrun : Cluster.Run config noSnapshots.allows c₁) {d : Datagram}
    {q : AppendRequest} (hq : d.packet = .append q) {t : LeaderThread}
    (hup : (c₁.nodes d.src).up = true)
    (hsend : .send d.dst d.packet ∈
      (leaderStep (c₁.nodes d.src).raft (c₁.nodes d.src).files t).1.effects)
    (hsteps : Cluster.Steps noSnapshots.allows c₁ c₂) {j : ℕ} (hd : c₂.net[j]? = some d)
    {crashAt : Option ℕ} (hx : c₂.exec (.deliver j crashAt) = some c₃) {a : Response}
    (ha : .send d.src (.response a) ∈
      Node.performed (handlePacket (c₂.nodes d.dst).raft d.src d.packet) crashAt)
    (hsuccess : a.success = 1) {i : ℤ} (hi : 0 ≤ i) (hiq : i ≤ q.prevLogIndex + q.entriesN) :
    ∃ e e', getLog (c₁.nodes d.src).raft i = some e ∧ getLog (c₃.nodes d.dst).view i = some e' ∧
      e.core = e'.core := by
  obtain ⟨w₁, hpath₁, href₁⟩ := (refines_init config).steps hrun
  obtain ⟨p₁, -, hsim₁, hun₁⟩ :=
    (simInv_init config).plain_path hvalid noSnapshots_plain (unshifted_init config) hpath₁
  obtain ⟨w₂, hpath₂, href₂⟩ := href₁.steps hsteps
  obtain ⟨p₂, hp, hsim₂, hun₂⟩ := hsim₁.plain_path hvalid noSnapshots_plain hun₁ hpath₂
  have hraft₁ := (href₁.node d.src).raft_eq hup
  -- the leader has the entries, and its log is the one of its term
  obtain ⟨hleader, hterm, hcount, hhave⟩ : (c₁.nodes d.src).raft.state = .leader ∧
      q.term = (c₁.nodes d.src).raft.currentTerm ∧ (q.entriesN = 0 ∨ q.entriesN = 1) ∧
      q.prevLogIndex + q.entriesN < (c₁.nodes d.src).raft.logCount := by
    rw [hq] at hsend
    refine (leaderStep_sends ?_).about hsend
    cases hf : (leaderStep (c₁.nodes d.src).raft (c₁.nodes d.src).files t).1.fault with
    | false => rfl
    | true =>
        rw [leaderStep_fault hf] at hsend
        exact absurd hsend (by simp)
  rw [← hraft₁] at hleader hterm hhave ⊢
  have hlog := hsim₁.leader_log hleader
  rw [← hterm] at hlog
  have hholds := hsim₁.holds d.src
  have hlen := hholds.length
  obtain ⟨e, he, hentry⟩ := hholds.entry_of_prefix (hun₁.start d.src) List.prefix_rfl hi (by omega)
  -- the follower holds what the request is about
  have hmem : d ∈ w₂.net := by
    rw [href₂.net]
    exact List.mem_of_getElem? hd
  have hok := hsim₂.truthful d hmem
  simp only [Truthful, hq] at hok
  have hview : Acknowledges (w₂.raft d.dst) q (c₃.nodes d.dst).view := by
    simp only [Cluster.exec, hd] at hx
    split_ifs at hx with hdst
    simp only [Option.some.injEq] at hx
    rw [(href₂.node d.dst).raft_eq hdst, ← hx, Cluster.settle_nodes, if_pos rfl]
    rw [hq] at ha ⊢
    exact acknowledges_of_answer hdst (by omega) ha
  obtain ⟨L, hL, hpre⟩ := hsim₂.acknowledgedPrefix hok hcount hview
  have hstart : (c₃.nodes d.dst).view.startLogIndex = 0 := by
    cases hview with
    | heartbeat hc hn hs => exact hs.trans (hun₂.start d.dst)
    | entry hc hn hlo hs => exact hs.trans (hun₂.start d.dst)
  -- and the leader's log of the term has only grown
  have hgrown := Proto.Steps.llog_prefix hsim₁.inv hp q.term
  rw [← hlog] at hgrown
  have hlt : i.toNat < ((p₂.llog q.term).take (q.prevLogIndex + q.entriesN + 1).toNat).length := by
    have := hgrown.length_le
    simp only [List.length_take]
    omega
  obtain ⟨e', he', hentry'⟩ := hL.entry_of_prefix hstart hpre hi hlt
  refine ⟨e, e', he, he', ?_⟩
  rw [List.getElem?_take_of_lt (by omega)] at hentry'
  rw [prefix_getElem? hgrown hentry, Option.some.injEq] at hentry'
  exact hentry'

/-- What an effect puts on the network. -/
def isSend (dst : Server) (packet : Packet) : Effect → Bool
  | .send dst' packet' => decide (dst' = dst ∧ packet' = packet)
  | _ => false

theorem mem_of_isSend {es : List Effect} {dst : Server} {packet : Packet}
    (h : es.any (isSend dst packet) = true) : .send dst packet ∈ es := by
  obtain ⟨x, hx, hsend⟩ := List.any_eq_true.mp h
  cases x with
  | send dst' packet' =>
      obtain ⟨rfl, rfl⟩ : dst' = dst ∧ packet' = packet := by simpa [isSend] using hsend
      exact hx
  | _ => exact absurd hsend (by simp [isSend])

/-- The second request of server `0` to server `1`, with its own first entry. -/
def firstRequest : AppendRequest where
  term := 1
  leaderId := 0
  prevLogIndex := -1
  prevLogTerm := -1
  entry := ⟨1, 1, .leaderLog, 0, 0, []⟩
  entriesN := 1
  leaderCommit := -1
  requestId := 1

def sendsFirst (c : Cluster) : Bool :=
  (c.nodes 0).up && (leaderStep (c.nodes 0).raft (c.nodes 0).files ⟨1, .idle⟩).1.effects.any
    (isSend 1 (.append firstRequest))

def acceptsFirst (c : Cluster) : Bool :=
  decide (c.net[0]? = some ⟨0, 1, .append firstRequest, none⟩) &&
    (handlePacket (c.nodes 1).raft 0 (.append firstRequest)).effects.any
      (isSend 0 (.response ⟨1, 1, 1, 1⟩)) && (c.exec (.deliver 0 none)).isSome

theorem firstRequest_runs : ((Cluster.init plainConfig).execWhile
    (fun c x => decide (noSnapshots.allows c x)) (firstElection ++ exchange)).any
    (fun c => sendsFirst c && (c.execWhile (fun c x => decide (noSnapshots.allows c x))
      [.leaderThread 0 0]).any acceptsFirst) = true := by
  decide +kernel

theorem first_request_acknowledged : ∃ c₁ c₂ c₃,
    Cluster.Run plainConfig noSnapshots.allows c₁ ∧ Cluster.Steps noSnapshots.allows c₁ c₂ ∧
    c₂.exec (.deliver 0 none) = some c₃ ∧ ∃ e e', getLog (c₁.nodes 0).raft 0 = some e ∧
      getLog (c₃.nodes 1).view 0 = some e' ∧ e.core = e'.core := by
  obtain ⟨c₁, hrun, hc₁⟩ := Machine.exists_of_execWhile noSnapshots.allows
    (fun _ _ h => of_decide_eq_true h) firstRequest_runs
  rw [Bool.and_eq_true, sendsFirst, Bool.and_eq_true] at hc₁
  obtain ⟨⟨hup, hsend⟩, hc₂⟩ := hc₁
  obtain ⟨c₂, hsteps, hc₂⟩ := Machine.exists_of_execWhile noSnapshots.allows
    (fun _ _ h => of_decide_eq_true h) hc₂
  rw [acceptsFirst, Bool.and_eq_true, Bool.and_eq_true, decide_eq_true_eq] at hc₂
  obtain ⟨⟨hd, hanswer⟩, hdeliver⟩ := hc₂
  obtain ⟨c₃, hx⟩ := Option.isSome_iff_exists.mp hdeliver
  refine ⟨c₁, c₂, c₃, hrun, hsteps, hx, ?_⟩
  exact acknowledged_logs_equal (by decide) hrun (d := ⟨0, 1, .append firstRequest, none⟩) rfl hup
    (mem_of_isSend hsend) hsteps hd hx (mem_of_isSend hanswer) rfl le_rfl (by decide)

end RaftLock

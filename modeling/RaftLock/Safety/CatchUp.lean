import RaftLock.Library.Machine
import RaftLock.Raft.World

/-!
A follower catches up.

Leader and follower exchange append requests and answers and nothing is lost.
The next index goes down by one with each refusal, and no refusal touches the
follower's log; the first acceptance says that the logs agree below the next
index. From there on each round carries one entry over, and whatever the
follower holds above it may be cut off or stay.

So the invariant has two forms: before the first acceptance the two logs are
what they were, which match as logs of two servers do; after it they agree
below the next index, and nothing need be known about the rest of the
follower's log. Refusals are charged first, then the entries still to send.
-/

namespace RaftLock

open Outcome

namespace CatchUp

/-- The two ends of a connection. -/
structure Peers where
  leader : RaftState
  follower : RaftState

def appendSent (es : List Effect) : Option AppendRequest :=
  es.findSome? fun
    | .send _ (.append q) => some q
    | _ => none

def responseSent (es : List Effect) : Option Response :=
  es.findSome? fun
    | .send _ (.response a) => some a
    | _ => none

/-- An append request of server `l` to server `f` and its answer: the three
functions one after the other, with each packet delivered. No result means
that one of the two processes has ended, or that a packet is missing. -/
def round (l f : Server) (p : Peers) : Option Peers :=
  let request := sendAppendEntryRequest p.leader f
  if request.fault then none
  else
    (appendSent request.effects).bind fun q =>
    let answer := handleAppendRequest p.follower l q
    if answer.fault then none
    else
      (responseSent answer.effects).bind fun a =>
      let done := handleAppendResponse request.raft a
      if done.fault then none else some ⟨done.raft, answer.raft⟩

/-- The leader's next index for the follower. -/
def Peers.next (p : Peers) : ℤ := p.leader.nextIndex p.follower.id

/-- The entries below `n` are the same, and the follower has them all. -/
def AgreeBelow (p : Peers) (n : ℤ) : Prop :=
  n ≤ p.follower.logCount ∧ ∀ i, 0 ≤ i → i < n →
    (getLog p.leader i).map LogEntry.core = (getLog p.follower i).map LogEntry.core

/-- Two entries at one index with one term: then the logs are the same up to
there. -/
def Matching (p : Peers) : Prop :=
  ∀ i, 0 ≤ i → i < p.leader.logCount → i < p.follower.logCount →
    getLogTerm p.leader i = getLogTerm p.follower i → AgreeBelow p (i + 1)

/-- A leader and a follower whose logs start at `0` and fit the array. -/
structure Connected (f : Server) (p : Peers) : Prop where
  config : p.leader.config f = p.follower.id
  start : p.leader.startLogIndex = 0 ∧ p.follower.startLogIndex = 0
  leaderCount : 0 ≤ p.leader.logCount ∧ p.leader.logCount ≤ (logSize : ℤ)
  followerCount : 0 ≤ p.follower.logCount ∧ p.follower.logCount ≤ (logSize : ℤ)
  term : p.follower.currentTerm ≤ p.leader.currentTerm
  leaderCommit : -1 ≤ p.leader.commitIndex ∧ p.leader.commitIndex < p.leader.logCount
  followerCommit : -1 ≤ p.follower.commitIndex
  range : 0 ≤ p.next ∧ p.next ≤ p.leader.logCount

/-! ### The follower -/

section Follower

variable {r : RaftState} {addr : Server} {q : AppendRequest}

theorem responseSent_reply {es : List Effect} {st : RaftState} {requestId success : ℤ}
    (hes : ∀ x ∈ es, x.isQuiet) :
    responseSent (es ++ [.save st, reply r addr requestId success]) =
      some ⟨r.id, r.currentTerm, success, requestId⟩ := by
  induction es with
  | nil => rfl
  | cons x es ih =>
      have hx : x.isQuiet := hes x (List.mem_cons_self ..)
      have ih := ih fun y hy => hes y (List.mem_cons_of_mem _ hy)
      unfold responseSent at ih ⊢
      cases x with
      | send dst packet => exact absurd hx (by simp [Effect.isQuiet])
      | _ => simpa using ih

theorem handleAppendRequest_fault (hle : q.term ≤ r.currentTerm)
    (hcommit : r.startLogIndex ≤ r.commitIndex + 1)
    (hbeat : q.entriesN = 0 → q.leaderCommit ≤ q.prevLogIndex)
    (hstore : q.entriesN ≠ 0 → r.startLogIndex ≤ q.prevLogIndex + 1 ∧
      q.prevLogIndex + 1 - r.startLogIndex < (logSize : ℤ)) :
    (handleAppendRequest r addr q).fault = false := by
  unfold handleAppendRequest
  rw [if_neg (not_lt.mpr hle), andThen_ret]
  by_cases hc : consistent r q
  · have hprev : q.prevLogIndex < r.logCount := by
      unfold consistent at hc
      push Not at hc
      exact hc.2.1
    rw [if_neg (not_not_intro hc)]
    by_cases hn : q.entriesN = 0
    · rw [if_pos hn]
      have hlt : q.leaderCommit < r.logCount := lt_of_le_of_lt (hbeat hn) hprev
      simp only
      split_ifs
      · have hf := commitUpdate_fault (r := { r with state := .follower })
          (committable_of_lt hcommit hlt)
        simp [Outcome.andThen, saveState, answer, emit, hf]
      · rfl
    · rw [if_neg hn]
      have hf := storeEntry_fault hprev (hstore hn).1 (hstore hn).2 hcommit
      simp [Outcome.andThen, saveState, answer, emit, hf]
  · rw [if_pos hc]
    rfl

/-- The check of a request once the follower has taken over its term. -/
def Accepts (r : RaftState) (q : AppendRequest) : Prop :=
  q.prevLogIndex < r.logCount ∧ getLogTerm r q.prevLogIndex = q.prevLogTerm

instance (r : RaftState) (q : AppendRequest) : Decidable (Accepts r q) :=
  inferInstanceAs (Decidable (_ ∧ _))

theorem consistent_iff (hterm : r.currentTerm = q.term) : consistent r q ↔ Accepts r q := by
  unfold consistent Accepts
  push Not
  exact ⟨fun h => h.2, fun h => ⟨hterm.le, h⟩⟩

/-- What a request does to the follower: the answer's `success` and the state. -/
inductive Takes (r : RaftState) (q : AppendRequest) : ℤ → RaftState → Prop
  | refused (r' : RaftState) (hc : ¬ Accepts r q) (hlog : r'.log = r.log)
      (hcount : r'.logCount = r.logCount) : Takes r q 0 r'
  | heartbeat (r' : RaftState) (hc : Accepts r q) (hn : q.entriesN = 0) (hlog : r'.log = r.log)
      (hcount : r'.logCount = r.logCount) : Takes r q 1 r'
  | stored (r' : RaftState) (hc : Accepts r q) (hn : q.entriesN ≠ 0)
      (hlog : r'.log = Function.update r.log (q.prevLogIndex + 1 - r.startLogIndex).toNat q.entry)
      (hcount : r'.logCount = storedCount r q) : Takes r q 1 r'

/-- The other fields of the follower after a request. -/
structure Stays (r : RaftState) (q : AppendRequest) (r' : RaftState) : Prop where
  id : r'.id = r.id
  start : r'.startLogIndex = r.startLogIndex
  term : r'.currentTerm = q.term
  commit : -1 ≤ r'.commitIndex

theorem le_commitTarget (hprev : -1 ≤ q.prevLogIndex) (hcommit : -1 ≤ r.commitIndex) :
    -1 ≤ commitTarget r q := by
  unfold commitTarget
  split_ifs <;> omega

/-- A handled request of the follower's own term. -/
theorem Takes.of_handled {r' : RaftState} {es : List Effect}
    (h : Handled r addr (.append q) r' es) (hterm : r.currentTerm = q.term)
    (hprev : -1 ≤ q.prevLogIndex) (hcommit : -1 ≤ r.commitIndex) :
    ∃ success, responseSent es = some ⟨r.id, q.term, success, q.requestId⟩ ∧
      Takes r q success r' ∧ Stays r q r' := by
  have htarget := le_commitTarget hprev hcommit
  rw [← hterm]
  cases h with
  | appendRefused _ hc =>
      refine ⟨0, rfl, .refused _ ?_ rfl rfl, rfl, rfl, hterm, hcommit⟩
      rwa [← consistent_iff hterm]
  | heartbeat _ _ hc hn _ =>
      exact ⟨1, responseSent_reply (isQuiet_ofTurn _),
        .heartbeat _ ((consistent_iff hterm).mp hc) hn rfl rfl, rfl, rfl, hterm, htarget⟩
  | entryStored _ _ hc hn _ _ _ _ =>
      exact ⟨1, responseSent_reply (isQuiet_ofTurn _),
        .stored _ ((consistent_iff hterm).mp hc) hn rfl rfl, rfl, rfl, hterm, htarget⟩

theorem accepts_arrived {packet : Packet} : Accepts (arrived r packet) q ↔ Accepts r q := by
  unfold Accepts
  rw [arrived_logCount, getLogTerm_arrived]

theorem Takes.of_arrived {r' : RaftState} {packet : Packet} {success : ℤ}
    (h : Takes (arrived r packet) q success r') : Takes r q success r' := by
  cases h with
  | refused _ hc hlog hcount =>
      rw [accepts_arrived] at hc
      rw [arrived_log] at hlog
      rw [arrived_logCount] at hcount
      exact .refused _ hc hlog hcount
  | heartbeat _ hc hn hlog hcount =>
      rw [accepts_arrived] at hc
      rw [arrived_log] at hlog
      rw [arrived_logCount] at hcount
      exact .heartbeat _ hc hn hlog hcount
  | stored _ hc hn hlog hcount =>
      rw [accepts_arrived] at hc
      rw [arrived_log, arrived_startLogIndex] at hlog
      unfold storedCount at hcount
      rw [arrived_logCount, getLogTerm_arrived] at hcount
      exact .stored _ hc hn hlog hcount

/-- A request of the follower's term or a later one. -/
theorem takes_request (hle : r.currentTerm ≤ q.term) (hprev : -1 ≤ q.prevLogIndex)
    (hstart : r.startLogIndex = 0) (hcommit : -1 ≤ r.commitIndex)
    (hbeat : q.entriesN = 0 → q.leaderCommit ≤ q.prevLogIndex)
    (hstore : q.entriesN ≠ 0 → q.prevLogIndex + 1 < (logSize : ℤ)) :
    (handleAppendRequest r addr q).fault = false ∧ ∃ success,
      responseSent (handleAppendRequest r addr q).effects =
        some ⟨r.id, q.term, success, q.requestId⟩ ∧
      Takes r q success (handleAppendRequest r addr q).raft ∧
      Stays r q (handleAppendRequest r addr q).raft := by
  rcases hle.eq_or_lt with hterm | hlt
  · have hf : (handleAppendRequest r addr q).fault = false :=
      handleAppendRequest_fault hterm.ge (by omega) hbeat fun hn => ⟨by omega, by
        have := hstore hn
        omega⟩
    exact ⟨hf, Takes.of_handled (handled_append hterm.ge hf) hterm hprev hcommit⟩
  -- a later term: the follower first takes it over, which leaves its log alone
  have hfollows := convertToFollower_follows r q.term
  have hr : arrived r (.append q) = (convertToFollower r q.term).raft := arrived_of_lt hlt
  have hlater : handlePacket r addr (.append q) = _ :=
    handlePacket_later (show r.currentTerm < (Packet.append q).term from hlt) (by simp)
  have hterm : (arrived r (.append q)).currentTerm = q.term := by rw [hr, hfollows.currentTerm]
  have hstart' : (arrived r (.append q)).startLogIndex = 0 := by
    rw [arrived_startLogIndex, hstart]
  have hcommit' : -1 ≤ (arrived r (.append q)).commitIndex := by
    rw [hr, hfollows.commitIndex]
    exact hcommit
  have hf : (handleAppendRequest (arrived r (.append q)) addr q).fault = false :=
    handleAppendRequest_fault hterm.ge (by omega) hbeat fun hn => ⟨by omega, by
      have := hstore hn
      omega⟩
  obtain ⟨success, hsent, htakes, hstays⟩ :=
    Takes.of_handled (handled_append hterm.ge hf) hterm hprev hcommit'
  simp only [handlePacket] at hlater
  rw [hlater]
  refine ⟨hf, success, ?_, htakes.of_arrived, ?_, ?_, hstays.term, hstays.commit⟩
  · rw [hr, hfollows.id] at hsent
    rw [← hsent, hr]
    simp only [arrival, List.append_nil, Packet.term]
    rcases convertToFollower_effects r q.term with he | he
    · rw [he, List.nil_append]
    · rw [he]
      rfl
  · rw [hstays.id, hr, hfollows.id]
  · rw [hstays.start, arrived_startLogIndex]

end Follower

/-! ### The leader -/

section Leader

variable {r : RaftState} {a : Response}

/-- The leader after an answer by which the next index of `id` becomes `next`. -/
structure Records (r : RaftState) (id next : ℤ) (r' : RaftState) : Prop where
  config : r'.config = r.config
  start : r'.startLogIndex = r.startLogIndex
  count : r'.logCount = r.logCount
  term : r'.currentTerm = r.currentTerm
  commit : r'.commitIndex = r.commitIndex ∨
    (r.commitIndex < r'.commitIndex ∧ r'.commitIndex < r.logCount)
  nextIndex : r'.nextIndex id = next
  core : ∀ i, (getLog r' i).map LogEntry.core = (getLog r i).map LogEntry.core

/-- The next index an answer leads to. -/
def nextAfter (r : RaftState) (a : Response) : ℤ :=
  if a.success = 0 then r.nextIndex a.id - 1
  else if r.nextIndex a.id < r.logCount then r.nextIndex a.id + 1
  else r.nextIndex a.id

theorem records_response (hcommit : r.startLogIndex ≤ r.commitIndex + 1)
    (hroom : r.logCount - r.startLogIndex ≤ (logSize : ℤ)) :
    (handleAppendResponse r a).fault = false ∧
    Records r a.id (nextAfter r a) (handleAppendResponse r a).raft := by
  unfold handleAppendResponse nextAfter
  by_cases hs : a.success = 0
  · rw [if_pos hs, if_pos hs]
    exact ⟨rfl, rfl, rfl, rfl, rfl, Or.inl rfl, Function.update_self .., fun _ => rfl⟩
  rw [if_neg hs, if_neg hs]
  by_cases hlt : r.nextIndex a.id < r.logCount
  · rw [if_pos hlt, if_pos hlt]
    have hf := countReplica_fault hcommit hlt (by omega)
    by_cases hnew : r.nextIndex a.id > r.commitIndex ∧
        getLogTerm r (r.nextIndex a.id) = r.currentTerm
    · obtain ⟨-, -, heq⟩ := countReplica_ok hnew.1 hnew.2 hf
      simp only [heq, andThen_emit, ret, List.append_nil]
      refine ⟨rfl, rfl, rfl, rfl, rfl, ?_, Function.update_self .., core_counted r _⟩
      show countTarget r _ = r.commitIndex ∨ _
      unfold countTarget
      split_ifs with hmany
      · refine Or.inr ⟨hnew.1, ?_⟩
        exact hlt
      · exact Or.inl rfl
    · unfold countReplica
      rw [if_neg hnew]
      exact ⟨rfl, rfl, rfl, rfl, rfl, Or.inl rfl, Function.update_self .., fun _ => rfl⟩
  · rw [if_neg hlt, if_neg hlt]
    exact ⟨rfl, rfl, rfl, rfl, rfl, Or.inl rfl, rfl, fun _ => rfl⟩

end Leader

/-! ### One round -/

section Round

variable {l f : Server} {p p' : Peers} {L : RaftState}

/-- The leader's log is the one it had. -/
structure SameLog (r r' : RaftState) : Prop where
  count : r'.logCount = r.logCount
  core : ∀ i, (getLog r' i).map LogEntry.core = (getLog r i).map LogEntry.core

theorem getLogTerm_eq (r : RaftState) (i : ℤ) :
    getLogTerm r i = ((getLog r i).map LogEntry.core).elim (-1) LogEntry.term := by
  rcases getLogTerm_cases r i with ⟨e, he, hterm⟩ | ⟨hout, hterm⟩
  · rw [hterm, he]
    rfl
  · have hnone : getLog r i = none := if_pos hout
    rw [hterm, hnone]
    rfl

/-- The follower will pass the next request. -/
def Accepted (p : Peers) : Prop :=
  p.next - 1 < p.follower.logCount ∧
    getLogTerm p.follower (p.next - 1) = getLogTerm p.leader (p.next - 1)

instance (p : Peers) : Decidable (Accepted p) := inferInstanceAs (Decidable (_ ∧ _))

theorem AgreeBelow.accepted (h : AgreeBelow p p.next) (hp : Connected f p) : Accepted p := by
  refine ⟨by have := h.1; omega, ?_⟩
  rcases hp.range.1.eq_or_lt with hzero | hpos
  · have hout : ∀ r : RaftState, r.startLogIndex = 0 → getLogTerm r (p.next - 1) = -1 :=
      fun r hr => if_pos (Or.inl (by omega))
    rw [hout _ hp.start.1, hout _ hp.start.2]
  · rw [getLogTerm_eq, getLogTerm_eq, h.2 _ (by omega) (by omega)]

theorem Matching.agreeBelow (h : Matching p) (hp : Connected f p) (ha : Accepted p) :
    AgreeBelow p p.next := by
  have hcount := hp.followerCount.1
  have hnext := hp.range
  rcases hnext.1.eq_or_lt with hzero | hpos
  · exact ⟨by omega, fun i hlo hhi => absurd hlo (by omega)⟩
  · have := h (p.next - 1) (by omega) (by omega) ha.1 ha.2.symm
    rwa [sub_add_cancel] at this

/-- The request of the round. -/
theorem Connected.request (hp : Connected f p) :
    ∃ n e, sendAppendEntryRequest p.leader f =
        emit p.leader [.send f (.append (appendRequest p.leader f n e))] ∧
      ((n = 0 ∧ p.next = p.leader.logCount) ∨
        (n = 1 ∧ p.next < p.leader.logCount ∧ getLog p.leader p.next = some e)) := by
  have hnext := hp.range
  have hstart := hp.start.1
  unfold sendAppendEntryRequest
  rw [hp.config]
  by_cases heq : p.leader.nextIndex p.follower.id = p.leader.logCount
  · refine ⟨0, default, ?_, Or.inl ⟨rfl, heq⟩⟩
    simp only [heq, if_true]
    unfold appendRequest
    rw [hp.config, heq]
  · have hlt : p.next < p.leader.logCount := lt_of_le_of_ne hnext.2 heq
    refine ⟨1, _, ?_, Or.inr ⟨rfl, hlt, getLog_of_mem (by omega) hlt⟩⟩
    have hget := getLog_of_mem (r := p.leader) (i := p.leader.nextIndex p.follower.id)
      (by unfold Peers.next at hnext; omega) hlt
    simp only [heq, if_false, hget]
    unfold appendRequest
    rw [hp.config]
    rfl

theorem Connected.accepts_iff (hp : Connected f p) (n : ℤ) (e : LogEntry) :
    Accepts p.follower (appendRequest p.leader f n e) ↔ Accepted p := by
  unfold Accepts appendRequest
  rw [hp.config]
  exact Iff.rfl

/-- What a round does to the follower's log and to the next index. -/
inductive Turned (p p' : Peers) : Prop
  | refused (ha : ¬ Accepted p) (hlog : p'.follower.log = p.follower.log)
      (hcount : p'.follower.logCount = p.follower.logCount) (hnext : p'.next = p.next - 1)
  | heartbeat (ha : Accepted p) (hend : p.next = p.leader.logCount)
      (hlog : p'.follower.log = p.follower.log)
      (hcount : p'.follower.logCount = p.follower.logCount) (hnext : p'.next = p.next)
  | stored (ha : Accepted p) (hmore : p.next < p.leader.logCount) (e : LogEntry)
      (he : getLog p.leader p.next = some e)
      (hlog : p'.follower.log = Function.update p.follower.log p.next.toNat e)
      (hcount : p.next < p'.follower.logCount) (hnext : p'.next = p.next + 1)

theorem storedCount_le {r : RaftState} {q : AppendRequest} {n : ℤ} (hr : r.logCount ≤ n)
    (hq : q.prevLogIndex + 1 < n) : storedCount r q ≤ n := by
  unfold storedCount
  split_ifs <;> omega

theorem Connected.request_prev (hp : Connected f p) (n : ℤ) (e : LogEntry) :
    (appendRequest p.leader f n e).prevLogIndex = p.next - 1 := by
  unfold appendRequest
  rw [hp.config]
  rfl

/-- The request of a round, its answer, and what the leader makes of it. -/
theorem Connected.round_eq (hp : Connected f p) (l : Server) :
    ∃ n e success p', round l f p = some p' ∧
      ((n = 0 ∧ p.next = p.leader.logCount) ∨
        (n = 1 ∧ p.next < p.leader.logCount ∧ getLog p.leader p.next = some e)) ∧
      Takes p.follower (appendRequest p.leader f n e) success p'.follower ∧
      Stays p.follower (appendRequest p.leader f n e) p'.follower ∧
      Records p.leader p.follower.id
        (if success = 0 then p.next - 1 else if p.next < p.leader.logCount then p.next + 1
          else p.next) p'.leader := by
  obtain ⟨n, e, hrequest, hn⟩ := hp.request
  have hstart := hp.start
  have hroom := hp.leaderCount.2
  have hcommit := hp.leaderCommit
  have hrange := hp.range
  have hprev := hp.request_prev n e
  obtain ⟨hf, success, hsent, htakes, hstays⟩ := @takes_request l
    (q := appendRequest p.leader f n e) (r := p.follower) hp.term (by omega) hstart.2
    hp.followerCommit
    (fun (hzero : n = 0) => by
      have hlast : (appendRequest p.leader f n e).leaderCommit = p.leader.commitIndex := rfl
      omega)
    (fun (hone : n ≠ 0) => by omega)
  obtain ⟨hdone, hrecords⟩ := records_response (r := p.leader)
    (a := ⟨p.follower.id, p.leader.currentTerm, success,
      (appendRequest p.leader f n e).requestId⟩) (by omega) (by omega)
  refine ⟨n, e, success, ⟨_, _⟩, ?_, hn, htakes, hstays, hrecords⟩
  have hq : appendSent [Effect.send f (.append (appendRequest p.leader f n e))] =
    some (appendRequest p.leader f n e) := rfl
  unfold round
  simp only [hrequest, emit, Bool.false_eq_true, if_false, hq, Option.bind_some, hf]
  rw [hsent, Option.bind_some, if_neg (by rw [Bool.not_eq_true]; exact hdone)]
  rfl

/-- A round goes through, and leaves the two servers connected. -/
theorem Connected.turned (hp : Connected f p) (l : Server) :
    ∃ p', round l f p = some p' ∧ Connected f p' ∧ Turned p p' ∧
      SameLog p.leader p'.leader := by
  obtain ⟨n, e, success, p', hround, hn, htakes, hstays, hrecords⟩ := hp.round_eq l
  have hstart := hp.start
  have hleader := hp.leaderCount
  have hfollower := hp.followerCount
  have hcommit := hp.leaderCommit
  have hrange := hp.range
  have hstart' : p'.leader.startLogIndex = 0 ∧ p'.follower.startLogIndex = 0 :=
    ⟨by rw [hrecords.start, hstart.1], by rw [hstays.start, hstart.2]⟩
  have hnext := hrecords.nextIndex
  rw [← hstays.id] at hnext
  have connected : 0 ≤ p'.follower.logCount ∧ p'.follower.logCount ≤ (logSize : ℤ) →
      0 ≤ p'.next ∧ p'.next ≤ p.leader.logCount → Connected f p' := by
    intro hcount hrange'
    refine ⟨?_, hstart', ?_, hcount, ?_, ?_, hstays.commit, ?_⟩
    · rw [hrecords.config, hp.config, hstays.id]
    · rwa [hrecords.count]
    · rw [hstays.term, hrecords.term]
      exact le_refl _
    · rw [hrecords.count]
      have := hrecords.commit
      omega
    · rwa [hrecords.count]
  refine ⟨p', hround, ?_⟩
  have same : SameLog p.leader p'.leader := ⟨hrecords.count, hrecords.core⟩
  cases htakes with
  | refused _ hc hlog hcount =>
      rw [hp.accepts_iff] at hc
      rw [if_pos rfl] at hnext
      -- the request about the beginning of the log is not refused
      have hpos : p.next ≠ 0 := by
        intro hzero
        refine hc (AgreeBelow.accepted ⟨by omega, fun i hlo hhi => ?_⟩ hp)
        exact absurd hlo (by omega)
      exact ⟨connected (by omega) (by unfold Peers.next at *; omega),
        .refused hc hlog hcount hnext, same⟩
  | heartbeat _ hc hzero hlog hcount =>
      rw [hp.accepts_iff] at hc
      obtain ⟨-, hend⟩ := hn.resolve_right (fun h => by
        have hone : n = 0 := hzero
        omega)
      rw [if_neg one_ne_zero, if_neg (by omega)] at hnext
      exact ⟨connected (by omega) (by unfold Peers.next at *; omega),
        .heartbeat hc hend hlog hcount hnext, same⟩
  | stored _ hc hone hlog hcount =>
      rw [hp.accepts_iff] at hc
      obtain ⟨-, hmore, he⟩ := hn.resolve_left (fun h => hone h.1)
      have hprev := hp.request_prev n e
      have hlt := lt_storedCount (r := p.follower) (q := appendRequest p.leader f n e)
        (by rw [hprev]; exact hc.1)
      have hle := storedCount_le (q := appendRequest p.leader f n e) hfollower.2 (by omega)
      rw [if_neg one_ne_zero, if_pos hmore] at hnext
      rw [hprev, hstart.2, sub_add_cancel, sub_zero] at hlog
      exact ⟨connected (by omega) (by unfold Peers.next at *; omega),
        .stored hc hmore e he hlog (by omega) hnext, same⟩

theorem SameLog.trans {r₁ r₂ r₃ : RaftState} (h : SameLog r₁ r₂) (h' : SameLog r₂ r₃) :
    SameLog r₁ r₃ :=
  ⟨h'.count.trans h.count, fun i => (h'.core i).trans (h.core i)⟩

/-- What a round keeps: see the head of this file. -/
structure Catching (f : Server) (L : RaftState) (p : Peers) : Prop where
  connected : Connected f p
  log : SameLog L p.leader
  agree : Matching p ∨ AgreeBelow p p.next

theorem Catching.agreeBelow (h : Catching f L p) (ha : Accepted p) : AgreeBelow p p.next :=
  h.agree.elim (fun hm => hm.agreeBelow h.connected ha) id

/-- The rounds still to come: the refusals at worst, then the entries. -/
def charge (p : Peers) : ℕ :=
  if Accepted p then (p.leader.logCount - p.next).toNat
  else (p.leader.logCount + p.next).toNat

theorem charge_le (h : p.next ≤ p.leader.logCount) (hpos : 0 ≤ p.next) :
    charge p ≤ (2 * p.leader.logCount).toNat := by
  unfold charge
  split_ifs <;> omega

theorem getLog_congr {r r' : RaftState} (hlog : r'.log = r.log) (hcount : r'.logCount = r.logCount)
    (hstart : r'.startLogIndex = r.startLogIndex) (i : ℤ) : getLog r' i = getLog r i := by
  simp only [getLog, hlog, hcount, hstart]

theorem AgreeBelow.congr {n : ℤ} (h : AgreeBelow p n) (hl : SameLog p.leader p'.leader)
    (hcount : p'.follower.logCount = p.follower.logCount)
    (hf : ∀ i, getLog p'.follower i = getLog p.follower i) : AgreeBelow p' n :=
  ⟨h.1.trans_eq hcount.symm, fun i hlo hhi => by rw [hl.core, hf, h.2 i hlo hhi]⟩

theorem Matching.congr (h : Matching p) (hl : SameLog p.leader p'.leader)
    (hcount : p'.follower.logCount = p.follower.logCount)
    (hf : ∀ i, getLog p'.follower i = getLog p.follower i) : Matching p' := by
  intro i hlo hiL hiF hterm
  rw [hl.count] at hiL
  rw [hcount] at hiF
  rw [getLogTerm_eq, getLogTerm_eq, hl.core, hf, ← getLogTerm_eq, ← getLogTerm_eq] at hterm
  exact (h i hlo hiL hiF hterm).congr hl hcount hf

/-- Once the entry at the next index is written, the logs agree up to it. -/
theorem AgreeBelow.store (h : AgreeBelow p p.next) (hl : SameLog p.leader p'.leader)
    (hp : Connected f p) (hstart : p'.follower.startLogIndex = 0) {e : LogEntry}
    (he : getLog p.leader p.next = some e)
    (hlog : p'.follower.log = Function.update p.follower.log p.next.toNat e)
    (hcount : p.next < p'.follower.logCount) : AgreeBelow p' (p.next + 1) := by
  have hpos := hp.range.1
  refine ⟨hcount, fun i hlo hhi => ?_⟩
  rw [hl.core, getLog_of_mem (r := p'.follower) (by omega) (by omega), hlog, hstart, sub_zero]
  rcases eq_or_ne i p.next with rfl | hi
  · rw [Function.update_self, he]
  · have hold := h.1
    rw [Function.update_of_ne (by omega), h.2 i hlo (by omega),
      getLog_of_mem (r := p.follower) (by have := hp.start.2; omega) (by omega), hp.start.2,
      sub_zero]

theorem Catching.round (h : Catching f L p) (l : Server) :
    ∃ p', round l f p = some p' ∧ Catching f L p' ∧ charge p' ≤ charge p - 1 := by
  obtain ⟨p', hround, hp', hturned, hl⟩ := h.connected.turned l
  have hcountL := hl.count
  have hrange := h.connected.range
  have hrange' := hp'.range
  have hstart' : p'.follower.startLogIndex = p.follower.startLogIndex := by
    rw [hp'.start.2, h.connected.start.2]
  refine ⟨p', hround, ?_⟩
  cases hturned with
  | refused ha hlog hcount hnext =>
      have hf := getLog_congr hlog hcount hstart'
      have hm : Matching p := h.agree.resolve_right fun hb => ha (hb.accepted h.connected)
      refine ⟨⟨hp', h.log.trans hl, Or.inl (hm.congr hl hcount hf)⟩, ?_⟩
      unfold charge
      rw [if_neg ha]
      split_ifs <;> omega
  | heartbeat ha hend hlog hcount hnext =>
      have hf := getLog_congr hlog hcount hstart'
      have hb : AgreeBelow p' p'.next := by
        rw [hnext]
        exact (h.agreeBelow ha).congr hl hcount hf
      refine ⟨⟨hp', h.log.trans hl, Or.inr hb⟩, ?_⟩
      unfold charge
      rw [if_pos (hb.accepted hp')]
      omega
  | stored ha hmore e he hlog hcount hnext =>
      have hb : AgreeBelow p' p'.next := by
        rw [hnext]
        exact (h.agreeBelow ha).store hl h.connected hp'.start.2 he hlog hcount
      refine ⟨⟨hp', h.log.trans hl, Or.inr hb⟩, ?_⟩
      unfold charge
      rw [if_pos ha, if_pos (hb.accepted hp')]
      omega

/-- With no rounds left to come, the follower has the leader's log. -/
theorem Catching.done (h : Catching f L p) (hcharge : charge p = 0) :
    p.next = p.leader.logCount ∧ AgreeBelow p p.leader.logCount := by
  have hrange := h.connected.range
  have hcount := h.connected.followerCount.1
  unfold charge at hcharge
  split_ifs at hcharge with ha
  · have hnext : p.next = p.leader.logCount := by omega
    rw [← hnext]
    exact ⟨rfl, h.agreeBelow ha⟩
  · refine absurd (AgreeBelow.accepted ⟨by omega, fun i hlo hhi => ?_⟩ h.connected) ha
    exact absurd hlo (by omega)

end Round

end CatchUp

/-- From the `2 * log_count + 1`st round on, the next index of a follower whose
log matches the leader's is the end of the leader's log, and the follower has
that log below it. -/
theorem follower_catches_up (l f : Server) (p : CatchUp.Peers) (hp : CatchUp.Connected f p)
    (hm : CatchUp.Matching p) (n : ℕ) (hn : 2 * p.leader.logCount + 1 ≤ n) :
    ∃ p', Machine.turns (CatchUp.round l f) n p = some p' ∧
      p'.next = p.leader.logCount ∧ CatchUp.SameLog p.leader p'.leader ∧
      CatchUp.AgreeBelow p' p.leader.logCount := by
  have hrange := hp.range
  have hcharge := CatchUp.charge_le hrange.2 hrange.1
  obtain ⟨p', hturns, hcatching, hzero⟩ := Machine.turns_settle
    (P := CatchUp.Catching f p.leader) (fun _ h => h.round l) n
    ⟨hp, ⟨rfl, fun _ => rfl⟩, Or.inl hm⟩ (by omega)
  obtain ⟨hnext, hagree⟩ := hcatching.done hzero
  rw [hcatching.log.count] at hnext hagree
  exact ⟨p', hturns, hnext, hcatching.log, hagree⟩

/-- A leader whose second entry is of a later term than the follower's, and a
follower that has a third one. -/
def conflicting : CatchUp.Peers :=
  { leader := { serverInit plainConfig 0 with
      currentTerm := 2
      log := fun k => { (default : LogEntry) with term := if k = 0 then 1 else 2 }
      logCount := 2
      nextIndex := fun _ => 2 }
    follower := { serverInit plainConfig 1 with
      currentTerm := 1
      log := fun _ => { (default : LogEntry) with term := 1 }
      logCount := 3 } }

theorem conflicting_caught_up : ∃ p', Machine.turns (CatchUp.round 0 1) 5 conflicting = some p' ∧
    p'.next = 2 ∧ CatchUp.SameLog conflicting.leader p'.leader ∧ CatchUp.AgreeBelow p' 2 := by
  have hp : CatchUp.Connected 1 conflicting := by
    constructor <;> decide
  refine follower_catches_up 0 1 conflicting hp ?_ 5 (by decide)
  intro i hlo hL hF hterm
  have hzero : i = 0 := by
    by_contra hne
    have hone : i = 1 := by
      have : i < 2 := hL
      omega
    subst hone
    exact absurd hterm (by decide)
  subst hzero
  refine ⟨by decide, fun j hj hj' => ?_⟩
  have : j = 0 := by omega
  subst this
  decide

end RaftLock

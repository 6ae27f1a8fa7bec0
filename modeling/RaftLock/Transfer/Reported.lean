import RaftLock.Safety.Windows
import RaftLock.Transfer.Fields

/-!
Transfers that the sender takes for done.

A thread in `Raft_send_snapshot` sleeps after each datagram and learns from
`last_request_id` and `last_request_response` how the request was answered.
Every response from the follower writes the second field, whatever it answers,
and a new election writes both.
-/

namespace RaftLock

open Outcome

/-! ### The two fields -/

/-- What a sleeping thread looks at stays as it is. -/
structure SameAnswers (r r' : RaftState) : Prop where
  config : r'.config = r.config
  ids : r'.lastRequestId = r.lastRequestId
  responses : r'.lastRequestResponse = r.lastRequestResponse

theorem SameAnswers.refl (r : RaftState) : SameAnswers r r := ⟨rfl, rfl, rfl⟩

theorem SameAnswers.trans {r r' r'' : RaftState} (h : SameAnswers r r') (h' : SameAnswers r' r'') :
    SameAnswers r r'' :=
  ⟨h'.config.trans h.config, h'.ids.trans h.ids, h'.responses.trans h.responses⟩

/-- The response makes its candidate the leader. -/
def MakesLeader (r : RaftState) (q : Response) : Prop :=
  r.state = .candidate ∧ 0 < q.success ∧ (r.nvoted + 1) * 2 > (nServers : ℤ)

instance (r : RaftState) (q : Response) : Decidable (MakesLeader r q) :=
  inferInstanceAs (Decidable (_ ∧ _))

/-- What a handler does to what a sleeping thread looks at. -/
inductive Notes (r : RaftState) : Packet → RaftState → Prop
  | keeps (packet : Packet) (r' : RaftState) (hsame : SameAnswers r r') : Notes r packet r'
  | noted (q : Response) (r' : RaftState) (hterm : q.term = r.currentTerm)
      (hconfig : r'.config = r.config) (hids : r'.lastRequestId = r.lastRequestId)
      (hresponses : r'.lastRequestResponse =
        Function.update r.lastRequestResponse q.id q.success) : Notes r (.response q) r'
  | answered (q : Response) (r' : RaftState) (hterm : q.term = r.currentTerm)
      (hstate : r.state = .leader) (hid : q.requestId = r.lastRequestId q.id)
      (hconfig : r'.config = r.config)
      (hids : r'.lastRequestId = Function.update r.lastRequestId q.id (r.lastRequestId q.id + 1))
      (hresponses : r'.lastRequestResponse =
        Function.update r.lastRequestResponse q.id q.success) : Notes r (.response q) r'
  | elected (q : Response) (r' : RaftState) (hterm : q.term = r.currentTerm)
      (hmakes : MakesLeader r q)
      (hconfig : r'.config = r.config) (hids : r'.lastRequestId = fun _ => 0) :
      Notes r (.response q) r'

section Sections

variable {r r' : RaftState} {addr : Server} {packet : Packet} {es : List Effect}

theorem Handled.notes (h : Handled r addr packet r' es) : Notes r packet r' := by
  cases h with
  | installChunk q hterm hi hd _ hr' =>
      subst hr'
      exact .keeps _ _ ⟨rfl, rfl, rfl⟩
  | responseOld q hterm => exact .keeps _ _ (.refl r)
  | responseUnused q hterm hstate => exact .noted q _ hterm rfl rfl rfl
  | voteBlocked q hterm hstate hs => exact .noted q _ hterm rfl rfl rfl
  | voteCounted q hterm hstate hs hfew => exact .noted q _ hterm rfl rfl rfl
  | voteDecided q hterm hstate hs hmany hlo hroom _ hr' =>
      subst hr'
      exact .elected q _ hterm ⟨hstate, hs, hmany⟩ rfl rfl
  | installAnswered q hterm hstate hid hnext _ hr' =>
      subst hr'
      exact .answered q _ hterm hstate hid rfl rfl rfl
  | appendAnswered q hterm hstate hid hnext next hans _ hr' =>
      subst hr'
      exact .answered q _ hterm hstate hid rfl rfl rfl
  | entryAnswered q hterm hstate hid hnext hlt hs hskip _ hr' =>
      subst hr'
      exact .answered q _ hterm hstate hid rfl rfl rfl
  | entryCounted q hterm hstate hid hnext hlt hs hnew hown hroom n hn hcommit _ hr' =>
      subst hr'
      exact .answered q _ hterm hstate hid rfl rfl rfl
  | _ => exact .keeps _ _ ⟨rfl, rfl, rfl⟩

theorem arrived_answers (r : RaftState) (packet : Packet) : SameAnswers r (arrived r packet) := by
  rcases Int.lt_or_le r.currentTerm packet.term with hlt | hle
  · rw [arrived_of_lt hlt]
    unfold convertToFollower
    simp only
    split_ifs <;> exact ⟨rfl, rfl, rfl⟩
  · rw [arrived_of_le hle]
    exact .refl r

theorem handlePacket_notes (hf : (handlePacket r addr packet).fault = false) :
    Notes r packet (handlePacket r addr packet).raft := by
  rcases handlePacket_cases hf with ⟨⟨q, rfl⟩, heq⟩ | ⟨es, h, hsame | hrequest⟩
  · rw [heq]
    exact .keeps _ _ (arrived_answers r _)
  · rw [hsame] at h
    exact h.notes
  · have hnotes := h.notes
    -- a request leaves the two fields alone
    generalize (handlePacket r addr packet).raft = r' at hnotes ⊢
    cases hnotes with
    | keeps _ _ hsame => exact .keeps _ _ ((arrived_answers r packet).trans hsame)
    | _ => exact absurd rfl (hrequest _)

theorem attemptToElect_answers (r : RaftState) : SameAnswers r (attemptToElect r).raft :=
  ⟨rfl, rfl, rfl⟩

theorem appendEntry_answers {e : LogEntry} (hf : (appendEntry r e).fault = false) :
    SameAnswers r (appendEntry r e).raft := by
  rcases appendEntry_ok hf with heq | ⟨r', heq, -, -, -, rfl⟩
  · rw [heq]
    exact .refl r
  · rw [heq]
    exact ⟨rfl, rfl, rfl⟩

theorem leaderStep_answers {files : FileSystem} {t : LeaderThread}
    (hf : (leaderStep r files t).1.fault = false) :
    SameAnswers r (leaderStep r files t).1.raft := by
  have hs := leaderStep_sends hf
  generalize (leaderStep r files t).1.effects = es at hs
  generalize (leaderStep r files t).1.raft = r' at hs ⊢
  generalize (leaderStep r files t).2 = pc at hs
  cases hs <;> exact ⟨rfl, rfl, rfl⟩

theorem snapshotStep_answers (r : RaftState) (pc : SnapshotPc) :
    SameAnswers r (snapshotStep r pc).1.raft := by
  have h := snapshotStep_section r pc
  generalize (snapshotStep r pc).1 = o at h ⊢
  cases h with
  | enter n hpc he => exact ⟨rfl, rfl, rfl⟩
  | shift n prev hpc =>
      unfold createSnapshotShift
      simp only
      split_ifs <;> exact ⟨rfl, rfl, rfl⟩
  | plain _ hraft hes =>
      rw [hraft]
      exact .refl r

/-- The effects of accepting `q`: the state is saved, with a window that begins
at the snapshot once this is complete, and success is answered. -/
structure Accepting (q : InstallRequest) (addr : Server) (es : List Effect) : Prop where
  saved : ∃ st, .save st ∈ es ∧ (q.done = true → st.startLogIndex = q.snapshotId)
  answered : ∃ p, .send addr (.response p) ∈ es ∧ p.success ≠ 0

theorem Accepting.append {q : InstallRequest} (h : Accepting q addr es) (pre : List Effect) :
    Accepting q addr (pre ++ es) := by
  obtain ⟨⟨st, hst, hstart⟩, p, hp, hs⟩ := h
  exact ⟨⟨st, List.mem_append_right _ hst, hstart⟩, p, List.mem_append_right _ hp, hs⟩

/-- The answer is sent behind the saved state. -/
theorem Handled.accepting {q : InstallRequest} (h : Handled r addr (.installSnapshot q) r' es)
    {m : ℕ} {dst : Server} {p : Response} (hp : .send dst (.response p) ∈ es.take m)
    (hs : p.success ≠ 0) : installable r q ∧ Accepting q addr (es.take m) := by
  have hi := h.install_success (List.mem_of_mem_take hp) hs
  refine ⟨hi, ?_⟩
  cases h with
  | installRefused _ hi' => exact absurd hi hi'
  | installChunk _ _ _ hd =>
      match m, hp with
      | 0, hp | 1, hp | 2, hp => simp at hp
      | m + 3, _ =>
          refine ⟨⟨_, .tail _ (.head _), fun hdone => ?_⟩, _, .tail _ (.tail _ (.head _)),
            one_ne_zero⟩
          exact absurd (hdone.symm.trans hd) (by simp)
  | installDone _ _ _ _ _ _ =>
      match m, hp with
      | 0, hp | 1, hp | 2, hp => simp at hp
      | m + 3, _ =>
          exact ⟨⟨_, .tail _ (.head _), fun _ => rfl⟩, _, .tail _ (.tail _ (.head _)), one_ne_zero⟩

/-- A success answers a request that has passed the check and is accepted. -/
theorem install_of_success {q : InstallRequest} {crashAt : Option ℕ} {dst : Server}
    {p : Response} (hp : .send dst (.response p) ∈
      Node.performed (handlePacket r addr (.installSnapshot q)) crashAt) (hs : p.success ≠ 0) :
    installable (arrived r (.installSnapshot q)) q ∧
      Accepting q addr (Node.performed (handlePacket r addr (.installSnapshot q)) crashAt) := by
  obtain ⟨pre, hpre, heq⟩ := handlePacket_parts r addr (.installSnapshot q) (Or.inr (by simp))
  rw [heq] at hp ⊢
  obtain ⟨l, m, hparts, hl, -⟩ := performed_parts
    (handlePacket (arrived r (.installSnapshot q)) addr (.installSnapshot q)).raft pre
    (handlePacket (arrived r (.installSnapshot q)) addr (.installSnapshot q)).effects
    (handlePacket (arrived r (.installSnapshot q)) addr (.installSnapshot q)).fault crashAt
  rw [hparts] at hp ⊢
  rcases List.mem_append.mp hp with hp | hp
  · rcases hpre.mem (hl _ hp) with h | ⟨h, -⟩ <;> exact absurd h (by simp)
  · have hhandled := handled (le_arrived r (.installSnapshot q)) (install_fault _ addr q)
    obtain ⟨hi, haccepts⟩ := hhandled.accepting hp hs
    exact ⟨hi, haccepts.append l⟩

/-- A request that a thread has not sent before carries the last id. -/
theorem leaderStep_sending {files : FileSystem} {t : LeaderThread} {q : InstallRequest}
    {it : SnapshotIterator} (h : (leaderStep r files t).2 = some (.sending q it)) :
    (∃ it₀, t.pc = .sending q it₀) ∨ q.requestId = r.lastRequestId (r.config t.follower) := by
  have hchunk : ∀ (r' : RaftState) (q₀ : InstallRequest) (it₀ : SnapshotIterator) (i : ℤ),
      (sendChunk r' files t.follower q₀ it₀ i).2 = .sending q it →
      r'.lastRequestId = r.lastRequestId → r'.config = r.config →
      q.requestId = r.lastRequestId (r.config t.follower) := by
    intro r' q₀ it₀ i hsent hids hconfig
    unfold sendChunk at hsent
    simp only [hids, hconfig] at hsent
    split at hsent
    · cases hsent
      rfl
    · cases hsent
      rfl
  have hsnapshot : (sendSnapshot r files t.follower).2 = .sending q it →
      q.requestId = r.lastRequestId (r.config t.follower) := by
    intro hsent
    unfold sendSnapshot at hsent
    split_ifs at hsent
    exact hchunk _ _ _ _ hsent rfl rfl
  unfold leaderStep at h
  split at h
  · split_ifs at h
    · exact Or.inr (hsnapshot (Option.some.inj h))
    · exact absurd h (by simp)
  · exact Or.inr (hsnapshot (Option.some.inj h))
  · rename_i q₀ it₀ hpc
    have hsent := Option.some.inj h
    unfold resumeSnapshot at hsent
    simp only at hsent
    split_ifs at hsent
    · cases hsent
      exact Or.inl ⟨_, hpc⟩
    · exact Or.inr (hchunk r q₀ it₀ _ hsent rfl rfl)

end Sections

/-! ### Threads behind a closing request -/

/-- Server `f` has answered `p` with success. -/
def Answered (sent : List Datagram) (f : Server) (p : InstallRequest) : Prop :=
  ∃ d ∈ sent, d.src = f ∧ d.answers = some (.installSnapshot p) ∧
    ∃ q : Response, d.packet = .response q ∧ q.success ≠ 0

/-- The next section of the thread is the end of `Raft_send_snapshot` behind
the closing request `p`: it sets the indices of the follower. -/
structure Reports (r : RaftState) (t : LeaderThread) (p : InstallRequest) : Prop where
  asleep : ∃ it, t.pc = .sending p it
  done : p.done = true
  seen : p.requestId ≠ r.lastRequestId (r.config t.follower)
  success : r.lastRequestResponse (r.config t.follower) ≠ 0

/-- A success that a thread behind the closing request `p` takes for the answer
to it: it has the id of `p`, or the answer was a refusal and the thread has not
looked yet. -/
def PassesFor (r : RaftState) (q : Response) (f : Server) (p : InstallRequest) : Prop :=
  q.id = r.config f ∧ q.success ≠ 0 ∧
    ((r.state = .leader ∧ p.requestId = r.lastRequestId q.id ∧
        q.requestId = r.lastRequestId q.id) ∨
      (p.requestId ≠ r.lastRequestId q.id ∧ r.lastRequestResponse q.id = 0))

instance (r : RaftState) (q : Response) (f : Server) (p : InstallRequest) :
    Decidable (PassesFor r q f p) :=
  inferInstanceAs (Decidable (_ ∧ _))

/-- A response that comes while the thread `t` sleeps behind the closing request
`p` is the answer to `p` if it passes for it; and it does not make the server
the leader again, unless `p` has the id with which a leader starts. -/
structure Harmless (r : RaftState) (d : Datagram) (q : Response) (t : LeaderThread)
    (p : InstallRequest) : Prop where
  wins : MakesLeader r q → p.requestId = 0
  passes : PassesFor r q t.follower p →
    d.src = t.follower ∧ d.answers = some (.installSnapshot p)

/-- Every response is harmless to every thread behind a closing request. -/
def Node.Undisturbed (n : Node) (d : Datagram) : Prop :=
  ∀ q, d.packet = .response q → q.term = n.raft.currentTerm →
    ∀ t ∈ n.leaderThreads, ∀ p it, t.pc = .sending p it → p.done = true → Harmless n.raft d q t p

/-- Every thread that takes a closing request for answered has an answer. -/
def Node.Backed (sent : List Datagram) (n : Node) : Prop :=
  ∀ t ∈ n.leaderThreads, ∀ p, Reports n.raft t p → Answered sent t.follower p

section Turns

variable {c : Cluster} {s : Server} {n n' : Node} {x : Action} {sent sent' : List Datagram}

theorem Reports.of_same {r r' : RaftState} {t : LeaderThread} {p : InstallRequest}
    (h : Reports r' t p) (hsame : SameAnswers r r') : Reports r t p := by
  refine ⟨h.asleep, h.done, ?_, ?_⟩
  · rw [← hsame.ids, ← hsame.config]
    exact h.seen
  · rw [← hsame.responses, ← hsame.config]
    exact h.success

theorem Answered.mono {f : Server} {p : InstallRequest} (h : Answered sent f p)
    (hsent : sent ⊆ sent') : Answered sent' f p := by
  obtain ⟨d, hd, hrest⟩ := h
  exact ⟨d, hsent hd, hrest⟩

theorem Node.Backed.of_same (h : n.Backed sent) (hsent : sent ⊆ sent')
    (hsame : SameAnswers n.raft n'.raft) (hthreads : n'.leaderThreads = n.leaderThreads) :
    n'.Backed sent' := by
  intro t ht p hreports
  rw [hthreads] at ht
  exact (h t ht p (hreports.of_same hsame)).mono hsent

/-- A response that is noted, and answers the last request if `p` is that. -/
theorem Reports.noted {r r' : RaftState} {d : Datagram} {q : Response} {t : LeaderThread}
    {p : InstallRequest} (h : Reports r' t p) (hconfig : r'.config = r.config)
    (hresponses : r'.lastRequestResponse = Function.update r.lastRequestResponse q.id q.success)
    (hids : ∀ id, id ≠ q.id → r'.lastRequestId id = r.lastRequestId id)
    (hown : r'.lastRequestId q.id ≠ r.lastRequestId q.id →
      r.state = .leader ∧ q.requestId = r.lastRequestId q.id)
    (hd : d ∈ sent) (hq : d.packet = .response q) (hharmless : Harmless r d q t p) :
    Reports r t p ∨ Answered sent t.follower p := by
  have hseen := h.seen
  have hsuccess := h.success
  rw [hconfig] at hseen hsuccess
  rw [hresponses, Function.update_apply] at hsuccess
  split_ifs at hsuccess with hid
  · rw [hid] at hseen
    have hanswer : PassesFor r q t.follower p → Answered sent t.follower p := by
      intro hpasses
      obtain ⟨hsrc, hanswers⟩ := hharmless.passes hpasses
      exact ⟨d, hd, hsrc, hanswers, q, hq, hsuccess⟩
    by_cases hlast : p.requestId = r.lastRequestId q.id
    · obtain ⟨hstate, hreq⟩ := hown fun hsame => hseen (hlast.trans hsame.symm)
      exact Or.inr (hanswer ⟨hid.symm, hsuccess, Or.inl ⟨hstate, hlast, hreq⟩⟩)
    · by_cases hold : r.lastRequestResponse q.id = 0
      · exact Or.inr (hanswer ⟨hid.symm, hsuccess, Or.inr ⟨hlast, hold⟩⟩)
      · exact Or.inl ⟨h.asleep, h.done, by rwa [hid], by rwa [hid]⟩
  · rw [hids _ hid] at hseen
    exact Or.inl ⟨h.asleep, h.done, hseen, hsuccess⟩

theorem Node.Backed.packet (h : n.Backed sent) (hsent : sent ⊆ sent') {d : Datagram}
    (hd : d ∈ sent') (hnotes : Notes n.raft d.packet n'.raft) {es : List Effect}
    (hthreads : n'.leaderThreads = n.leaderThreads ++ spawned es) (hok : n.Undisturbed d) :
    n'.Backed sent' := by
  intro t ht p hreports
  obtain ⟨it, hpc⟩ := hreports.asleep
  have hold : t ∈ n.leaderThreads := by
    rw [hthreads] at ht
    rcases List.mem_append.mp ht with ht | ht
    · exact ht
    · rw [spawned_idle ht] at hpc
      exact absurd hpc (by simp)
  have hback : Reports n.raft t p ∨ Answered sent' t.follower p → Answered sent' t.follower p :=
    fun hcases => hcases.elim (fun hr => (h t hold p hr).mono hsent) id
  generalize hpacket : d.packet = packet at hnotes
  generalize n'.raft = r' at hnotes hreports
  cases hnotes with
  | keeps _ _ hsame => exact hback (Or.inl (hreports.of_same hsame))
  | noted q _ hterm hconfig hids hresponses =>
      have hharmless := hok q hpacket hterm t hold p it hpc hreports.done
      refine hback (hreports.noted hconfig hresponses (fun _ _ => by rw [hids]) ?_ hd hpacket
        hharmless)
      exact fun hne => absurd (by rw [hids]) hne
  | answered q _ hterm hstate hid hconfig hids hresponses =>
      have hharmless := hok q hpacket hterm t hold p it hpc hreports.done
      refine hback (hreports.noted hconfig hresponses (fun id hne => ?_) ?_ hd hpacket hharmless)
      · rw [hids, Function.update_of_ne hne]
      · exact fun _ => ⟨hstate, hid⟩
  | elected q _ hterm hmakes hconfig hids =>
      have hharmless := hok q hpacket hterm t hold p it hpc hreports.done
      have hseen := hreports.seen
      rw [hids] at hseen
      exact absurd (hharmless.wins hmakes) hseen

theorem Node.Backed.sender (h : n.Backed sent) (hsent : sent ⊆ sent') {k : ℕ} {t : LeaderThread}
    (ht : n.leaderThreads[k]? = some t) (hf : (leaderStep n.raft n.files t).1.fault = false)
    (hraft : n'.raft = (leaderStep n.raft n.files t).1.raft)
    (hthreads : n'.leaderThreads = List.replaceAt n.leaderThreads k
      ((leaderStep n.raft n.files t).2.map fun pc => { t with pc })) : n'.Backed sent' := by
  intro t' ht' p hreports
  have hsame := leaderStep_answers hf
  rw [hraft] at hreports
  have hbefore := hreports.of_same hsame
  rw [hthreads] at ht'
  rcases List.mem_replaceAt ht' with ht' | ht'
  · exact (h t' ht' p hbefore).mono hsent
  · obtain ⟨pc, hpc, rfl⟩ := Option.map_eq_some_iff.mp ht'
    obtain ⟨it, hasleep⟩ := hbefore.asleep
    simp only at hasleep
    subst hasleep
    rcases leaderStep_sending hpc with hold | hnew
    · exact (h t (List.mem_of_getElem? ht) p
        ⟨hold, hbefore.done, hbefore.seen, hbefore.success⟩).mono hsent
    · exact absurd hnew hbefore.seen

theorem NodeTurn.backed (h : NodeTurn c s n x n') (hquiet : n.Quiet) (hn : n.Backed sent)
    (hsent : sent ⊆ sent') (hnet : ∀ d ∈ c.net, d ∈ sent')
    (hok : ∀ k d, x = .deliver k none → c.net[k]? = some d → d.dst = s → n.Undisturbed d) :
    n'.Backed sent' := by
  cases h with
  | down _ _ hdown hidle =>
      rcases hidle with ⟨-, rfl⟩ | ⟨hnone, -⟩
      · exact hn.of_same hsent (.refl _) rfl
      · intro t ht
        rw [hnone] at ht
        exact absurd ht (by simp)
  | idle _ _ _ hup _ hraft hleaders =>
      exact hn.of_same hsent (by rw [hraft]; exact .refl _) hleaders
  | elect _ _ _ hup _ hraft hleaders =>
      exact hn.of_same hsent (by rw [hraft]; exact attemptToElect_answers _) hleaders
  | packet k d _ hup _ hd hs hf hraft hleaders =>
      refine hn.packet hsent (hnet d (List.mem_of_getElem? hd)) ?_ hleaders (hok k d rfl hd hs)
      rw [hraft]
      exact handlePacket_notes hf
  | append e _ hup _ hf hraft hleaders =>
      exact hn.of_same hsent (by rw [hraft]; exact appendEntry_answers hf) hleaders
  | sender k t _ hup _ ht hf hraft hleaders => exact hn.sender hsent ht hf hraft hleaders
  | snapshot k pc _ hup _ hpc hf hraft hleaders =>
      exact hn.of_same hsent (by rw [hraft]; exact snapshotStep_answers _ _) hleaders
  | restart st _ hdown _ _ _ hleaders =>
      intro t ht
      rw [hleaders, (hquiet hdown).1] at ht
      exact absurd ht (by simp)

end Turns

/-- The end of `Raft_send_snapshot`. -/
theorem leaderStep_of_reports {r : RaftState} {files : FileSystem} {t : LeaderThread}
    {p : InstallRequest} (h : Reports r t p) :
    leaderStep r files t = (ret { r with
      nextIndex := Function.update r.nextIndex (r.config t.follower) r.startLogIndex
      matchIndex := Function.update r.matchIndex (r.config t.follower) (r.startLogIndex - 1)
      nFollowersReceivingSnapshots := r.nFollowersReceivingSnapshots - 1 }, some .idle) := by
  obtain ⟨it, hpc⟩ := h.asleep
  simp only [leaderStep, hpc, resumeSnapshot]
  rw [if_neg h.seen, if_neg h.success, if_neg (by simp [h.done])]

/-! ### Runs -/

/-- A new answer comes from the handler of its request. -/
theorem Cluster.exec_answer {c c' : Cluster} {x : Action} (hx : c.exec x = some c') {d : Datagram}
    (hd : d ∈ c'.net) (hnew : d ∉ c.net) {p : Packet} (hp : d.answers = some p) :
    ∃ k crashAt q, x = .deliver k crashAt ∧ c.net[k]? = some q ∧ q.packet = p ∧ d.src = q.dst ∧
      .send d.dst d.packet ∈
        Node.performed (handlePacket (c.nodes q.dst).raft q.src p) crashAt := by
  -- no other section answers
  have hsilent : ∀ (v : Server) (n : Node) (o : Outcome) (crashAt : Option ℕ),
      d ∈ (c.settle v n o crashAt none).net → False := by
    intro v n o crashAt hmem
    rcases mem_settle_net hmem with hold | ⟨-, hnone, -⟩
    · exact hnew hold
    · exact absurd (hnone.symm.trans hp) (by simp)
  cases x with
  | deliver k crashAt =>
      simp only [exec] at hx
      cases hq : c.net[k]? with
      | none => simp [hq] at hx
      | some q =>
          simp only [hq] at hx
          split_ifs at hx with hup
          simp only [Option.some.injEq] at hx
          subst hx
          rcases mem_settle_net hd with hold | ⟨hsrc, hanswers, hsend⟩
          · exact absurd (List.mem_of_mem_eraseIdx hold) hnew
          · rw [hp, Option.some.injEq] at hanswers
            subst hanswers
            exact ⟨k, crashAt, q, rfl, hq, rfl, hsrc, hsend⟩
  | timeout v =>
      simp only [exec] at hx
      split_ifs at hx
      simp only [Option.some.injEq] at hx
      subst hx
      exact absurd hd hnew
  | elect v crashAt =>
      simp only [exec] at hx
      split_ifs at hx
      simp only [Option.some.injEq] at hx
      subst hx
      exact (hsilent _ _ _ _ hd).elim
  | retry v crashAt =>
      simp only [exec] at hx
      split_ifs at hx
      simp only [Option.some.injEq] at hx
      subst hx
      exact (hsilent _ _ _ _ hd).elim
  | drop k =>
      simp only [exec] at hx
      split_ifs at hx
      simp only [Option.some.injEq] at hx
      subst hx
      exact absurd (List.mem_of_mem_eraseIdx hd) hnew
  | append v e crashAt =>
      simp only [exec] at hx
      split_ifs at hx
      simp only [Option.some.injEq] at hx
      subst hx
      exact (hsilent _ _ _ _ hd).elim
  | leaderThread v k =>
      simp only [exec] at hx
      split at hx
      · simp only [Option.some.injEq] at hx
        subst hx
        exact (hsilent _ _ _ _ hd).elim
      · exact absurd hx (by simp)
  | snapshotThread v k crashAt =>
      simp only [exec] at hx
      split at hx
      · simp only [Option.some.injEq] at hx
        subst hx
        exact (hsilent _ _ _ _ hd).elim
      · exact absurd hx (by simp)
  | crash v =>
      simp only [exec] at hx
      split_ifs at hx
      simp only [Option.some.injEq] at hx
      subst hx
      exact absurd hd hnew
  | restart v =>
      simp only [exec] at hx
      split at hx
      · simp only [Option.some.injEq] at hx
        subst hx
        exact (hsilent _ _ _ _ hd).elim
      · exact absurd hx (by simp)

/-- No response disturbs a thread behind a closing request. -/
def Cluster.OwnAnswers (c : Cluster) : Action → Prop
  | .deliver k _ => ∀ d, c.net[k]? = some d → (c.nodes d.dst).Undisturbed d
  | _ => True

namespace Traffic

variable {config : Config} {ok : Traffic → RepeatedAction → Prop} {m : Traffic}

/-- In an earlier step of the run, server `f` has handled the request `p`,
which has passed the check, and has come past the answer that accepts it. -/
def HasAccepted (config : Config) (ok : Traffic → RepeatedAction → Prop) (m : Traffic) (f : Server)
    (p : InstallRequest) : Prop :=
  ∃ (m₀ m₁ : Traffic) (k : ℕ) (crashAt : Option ℕ) (d : Datagram),
    Machine.Steps exec ok (init config) m₀ ∧ m₀.exec (.step (.deliver k crashAt)) = some m₁ ∧
    Machine.Steps exec ok m₁ m ∧ m₀.cluster.net[k]? = some d ∧ d.dst = f ∧
    d.packet = .installSnapshot p ∧ installable (arrived (m₀.cluster.nodes f).raft d.packet) p ∧
    Accepting p d.src
      (Node.performed (handlePacket (m₀.cluster.nodes f).raft d.src d.packet) crashAt)

theorem HasAccepted.tail {m' : Traffic} {f : Server} {p : InstallRequest}
    (h : HasAccepted config ok m f p) {y : RepeatedAction} (hok : ok m y)
    (hy : m.exec y = some m') : HasAccepted config ok m' f p := by
  obtain ⟨m₀, m₁, k, crashAt, d, hpre, hx, hpost, hrest⟩ := h
  exact ⟨m₀, m₁, k, crashAt, d, hpre, hx, hpost.tail ⟨y, hok, hy⟩, hrest⟩

theorem net_subset_sent (hrun : Machine.Steps exec ok (init config) m) :
    ∀ d ∈ m.cluster.net, d ∈ m.sent := by
  refine Machine.Steps.invariant (P := fun m : Traffic => ∀ d ∈ m.cluster.net, d ∈ m.sent)
    (fun m y m' h _ hy => ?_) hrun (fun d hd => absurd hd (by simp [init, Cluster.init]))
  rcases exec_cases hy with ⟨x, c, rfl, hx, rfl⟩ | ⟨k, d, rfl, hd, rfl⟩
  · exact fun d hd => List.mem_append_right _ hd
  · exact fun d' hd' => h d' (mem_duplicate hd d' hd')

/-- A success of `f` in answer to `p` tells that it has accepted `p`. -/
theorem hasAccepted_of_answered (hrun : Machine.Steps exec ok (init config) m) {f : Server}
    {p : InstallRequest} (h : Answered m.sent f p) : HasAccepted config ok m f p := by
  induction hrun with
  | refl =>
      obtain ⟨d, hd, -⟩ := h
      exact absurd hd (by simp [init])
  | tail hpre hlast ih =>
      rename_i m₀ m₁
      obtain ⟨y, hok, hy⟩ := hlast
      have hlater : Answered m₀.sent f p → HasAccepted config ok m₁ f p :=
        fun hold => (ih hold).tail hok hy
      rcases exec_cases hy with ⟨x, c, rfl, hx, rfl⟩ | ⟨k, d, rfl, hd, rfl⟩
      · obtain ⟨d, hd, hsrc, hanswers, a, ha, hs⟩ := h
        by_cases hold : d ∈ m₀.sent
        · exact hlater ⟨d, hold, hsrc, hanswers, a, ha, hs⟩
        have hnet : d ∈ c.net := (List.mem_append.mp hd).resolve_left hold
        obtain ⟨k, crashAt, q, rfl, hq, hpacket, hdst, hsend⟩ :=
          Cluster.exec_answer hx hnet (fun hmem => hold (net_subset_sent hpre d hmem)) hanswers
        have hf : q.dst = f := hdst.symm.trans hsrc
        rw [hf, ha] at hsend
        refine ⟨m₀, _, k, crashAt, q, hpre, hy, .refl, hq, hf, hpacket, ?_⟩
        rw [hpacket]
        exact install_of_success hsend hs
      · exact hlater h

theorem backed_reached (hrun : Machine.Steps exec (lifts Cluster.OwnAnswers) (init config) m)
    (s : Server) : (m.cluster.nodes s).Quiet ∧ (m.cluster.nodes s).Backed m.sent := by
  induction hrun generalizing s with
  | refl =>
      refine ⟨fun hdown => absurd hdown (by simp [init, Cluster.init, Node.init]), fun t ht => ?_⟩
      exact absurd ht (by simp [init, Cluster.init, Node.init])
  | tail hpre hlast ih =>
      obtain ⟨y, hok, hy⟩ := hlast
      rcases exec_cases hy with ⟨x, c, rfl, hx, rfl⟩ | ⟨k, d, rfl, hd, rfl⟩
      · obtain ⟨hquiet, hbacked⟩ := ih s
        have hturn := Cluster.exec_turn hx s
        refine ⟨hturn.quiet hquiet, hturn.backed hquiet hbacked
          (List.subset_append_left _ _)
          (fun d hd => List.mem_append_left _ (net_subset_sent hpre d hd)) ?_⟩
        rintro k d rfl hd rfl
        exact hok d hd
      · exact ih s

/-- In every run in which no response disturbs a thread behind a closing
request, a thread that comes to the end of `Raft_send_snapshot` does so after
the follower has accepted the closing request. -/
theorem reported_transfer_accepted
    (hrun : Machine.Steps exec (lifts Cluster.OwnAnswers) (init config) m) {s : Server}
    {t : LeaderThread} (ht : t ∈ (m.cluster.nodes s).leaderThreads) {p : InstallRequest}
    (hreports : Reports (m.cluster.nodes s).raft t p) :
    leaderStep (m.cluster.nodes s).raft (m.cluster.nodes s).files t = (ret
      { (m.cluster.nodes s).raft with
        nextIndex := Function.update (m.cluster.nodes s).raft.nextIndex
          ((m.cluster.nodes s).raft.config t.follower) (m.cluster.nodes s).raft.startLogIndex
        matchIndex := Function.update (m.cluster.nodes s).raft.matchIndex
          ((m.cluster.nodes s).raft.config t.follower) ((m.cluster.nodes s).raft.startLogIndex - 1)
        nFollowersReceivingSnapshots :=
          (m.cluster.nodes s).raft.nFollowersReceivingSnapshots - 1 }, some .idle) ∧
    HasAccepted config (lifts Cluster.OwnAnswers) m t.follower p :=
  ⟨leaderStep_of_reports hreports,
    hasAccepted_of_answered hrun ((backed_reached hrun s).2 t ht p hreports)⟩

end Traffic

/-! ### An answer that passes for another -/

section LongRun

/-- Server `3` stores the first entry, and its answer stays on its way while
sixty entries are committed by servers `0`, `1` and `2`. Server `0` takes a
snapshot and sends the closing request to server `3`. -/
def answerBehind : List Action :=
  firstElection ++ [Action.leaderThread 0 2, .deliver 0 none, .deliver 0 none, .leaderThread 0 2,
      .deliver 0 none] ++ (List.replicate 4 exchangeBehind).flatten ++
    (List.replicate 59 (Action.append 0 emptyEntry none :: exchangeBehind)).flatten ++ sendToThree

/-- The old answer is lost; the closing request arrives, and so does its
answer. -/
def closingAnswered : List Action := [.drop 0, .deliver 0 none, .deliver 0 none]

/-- The response disturbs no thread behind a closing request. -/
def undisturbed (c : Cluster) : Action → Bool
  | .deliver k _ => c.net[k]?.all fun d : Datagram =>
    match d.packet with
    | .response q => (c.nodes d.dst).leaderThreads.all fun t =>
      match t.pc with
      | .sending p _ => decide ((MakesLeader (c.nodes d.dst).raft q → p.requestId = 0) ∧
          (PassesFor (c.nodes d.dst).raft q t.follower p →
            d.src = t.follower ∧ d.answers = some (.installSnapshot p)))
      | _ => true
    | _ => true
  | _ => true

theorem undisturbed_sound (c : Cluster) (x : Action) (h : undisturbed c x = true) :
    c.OwnAnswers x := by
  cases x with
  | deliver k crashAt =>
      intro d hd q hq _ t ht p it hpc _
      simp only [undisturbed, hd, Option.all_some, hq, List.all_eq_true] at h
      have htest := h t ht
      simp only [hpc, decide_eq_true_eq] at htest
      exact ⟨htest.1, htest.2⟩
  | _ => trivial

/-- No InstallSnapshot request is accepted. -/
def Cluster.AcceptsNone (c : Cluster) : Action → Prop
  | .deliver k _ => ∀ d, c.net[k]? = some d → ∀ q, d.packet = .installSnapshot q →
      ¬ installable (arrived (c.nodes d.dst).raft d.packet) q
  | _ => True

def acceptsNone (c : Cluster) : Action → Bool
  | .deliver k _ => c.net[k]?.all fun d : Datagram =>
    match d.packet with
    | .installSnapshot q => decide (¬ installable (arrived (c.nodes d.dst).raft d.packet) q)
    | _ => true
  | _ => true

theorem acceptsNone_sound (c : Cluster) (x : Action) (h : acceptsNone c x = true) :
    c.AcceptsNone x := by
  cases x with
  | deliver k crashAt =>
      intro d hd q hq
      simp only [acceptsNone, hd, Option.all_some, hq, decide_eq_true_eq] at h
      rw [hq]
      exact h
  | _ => trivial

/-- The thread for server `3` is at the end of a transfer. -/
def reports (c : Cluster) : Bool :=
  (c.nodes 0).leaderThreads[2]?.any fun t =>
    match t.pc with
    | .sending p _ => decide (t.follower = 3 ∧ p.done = true ∧
        p.requestId ≠ (c.nodes 0).raft.lastRequestId ((c.nodes 0).raft.config t.follower) ∧
        (c.nodes 0).raft.lastRequestResponse ((c.nodes 0).raft.config t.follower) ≠ 0)
    | _ => false

theorem reports_sound {c : Cluster} (h : reports c = true) :
    ∃ t ∈ (c.nodes 0).leaderThreads, ∃ p, t.follower = 3 ∧ Reports (c.nodes 0).raft t p := by
  obtain ⟨t, ht, htest⟩ := (Option.any_eq_true _ _).mp h
  split at htest
  · rename_i p it hpc
    obtain ⟨hf, hdone, hseen, hsuccess⟩ := of_decide_eq_true htest
    exact ⟨t, List.mem_of_getElem? ht, p, hf, ⟨it, hpc⟩, hdone, hseen, hsuccess⟩
  · exact absurd htest (by simp)

set_option maxRecDepth 100000 in
theorem answerBehind_runs : ((Cluster.init plainConfig).execWhile
    (fun c x => undisturbed c x && acceptsNone c x) answerBehind).any (fun c =>
      (c.execWhile undisturbed closingAnswered).any reports &&
      (c.execWhile acceptsNone [.deliver 0 none]).any reports) = true := by
  decide +kernel

/-- A transfer that has really ended. -/
theorem closing_request_accepted : ∃ (m : Traffic) (t : LeaderThread) (p : InstallRequest),
    Machine.Steps Traffic.exec (Traffic.lifts Cluster.OwnAnswers) (Traffic.init plainConfig) m ∧
    t ∈ (m.cluster.nodes 0).leaderThreads ∧ t.follower = 3 ∧
    Reports (m.cluster.nodes 0).raft t p ∧
    Traffic.HasAccepted plainConfig (Traffic.lifts Cluster.OwnAnswers) m 3 p := by
  obtain ⟨c, hc, htest⟩ := Machine.exists_of_execWhile Cluster.OwnAnswers
    (fun c x h => undisturbed_sound c x (Bool.and_eq_true_iff.mp h).1) answerBehind_runs
  rw [Bool.and_eq_true] at htest
  obtain ⟨c', hc', hreports⟩ := Machine.exists_of_execWhile Cluster.OwnAnswers undisturbed_sound
    htest.1
  obtain ⟨m, hm, rfl⟩ := Traffic.lifts_steps (hc.trans hc') (m := Traffic.init plainConfig) rfl
  obtain ⟨t, ht, p, hf, hend⟩ := reports_sound hreports
  have haccepted := (Traffic.reported_transfer_accepted hm ht hend).2
  rw [hf] at haccepted
  exact ⟨m, t, p, hm, ht, hf, hend, haccepted⟩

/-- Server `3` has accepted nothing, and an old answer ends the transfer. -/
theorem transfer_ended_by_old_answer : ∃ (c : Cluster) (t : LeaderThread) (p : InstallRequest),
    Cluster.Run plainConfig Cluster.AcceptsNone c ∧ t ∈ (c.nodes 0).leaderThreads ∧
    t.follower = 3 ∧ Reports (c.nodes 0).raft t p := by
  obtain ⟨c, hc, htest⟩ := Machine.exists_of_execWhile Cluster.AcceptsNone
    (fun c x h => acceptsNone_sound c x (Bool.and_eq_true_iff.mp h).2) answerBehind_runs
  rw [Bool.and_eq_true] at htest
  obtain ⟨c', hc', hreports⟩ := Machine.exists_of_execWhile Cluster.AcceptsNone acceptsNone_sound
    htest.2
  obtain ⟨t, ht, p, hf, hend⟩ := reports_sound hreports
  exact ⟨c', t, p, hc.trans hc', ht, hf, hend⟩

end LongRun

end RaftLock

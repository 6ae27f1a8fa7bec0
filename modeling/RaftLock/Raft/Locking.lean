import RaftLock.Library.Mutex
import RaftLock.Raft.Traffic

/-!
The threads of one server around `raft->lock`.

Every section of the cluster's model stands for the code between two operations
on this lock. Here the operations are moves of their own: a thread reads the
state once it has the lock, writes what it has made of it, and clears the lock
later. The lock does not always go back where it was taken. The listener takes
it for the election thread it starts, this thread keeps it when it starts the
election over, and a packet thread that wins an election has it cleared in
`Raft_convert_to_leader` and not again in `Raft_handle_response`.
-/

namespace RaftLock

open Mutex Outcome

/-- What a thread takes the lock for. -/
inductive Call
  /-- `Raft_RPC_listen` after its read has timed out. -/
  | listener
  /-- The waiting loop of `Raft_attempt_to_elect`. -/
  | poll
  /-- One of the handlers of `Raft_handle_packet`. -/
  | handler (addr : Server) (packet : Packet)
  /-- One of the two sections of `Raft_create_snapshot`. -/
  | snapshot (pc : SnapshotPc)
  | leader (t : LeaderThread)
  /-- `Raft_append_entry`, and then the question whether it is committed. -/
  | append (e : LogEntry) (term id : ℤ)
  /-- `Raft_is_entry_committed`, in the loop of `handle_lock_release`. -/
  | query (term id : ℤ)

/-- Where a thread is that does not have the lock. -/
inductive OutsidePc
  /-- `Raft_RPC_listen`, reading. -/
  | listen
  /-- `Server_RPC_listen`, reading. -/
  | serve
  /-- `spinlock_acquire`. -/
  | acquire (c : Call)
  /-- `Raft_convert_to_leader` past its `spinlock_release`: leader threads are
  started. -/
  | start (ts : List LeaderThread)
  /-- `Raft_handle_packet` past its handler. -/
  | handled (pc : SnapshotPc)

/-- Where a thread is that has the lock. -/
inductive InsidePc
  /-- Past `spinlock_acquire`. -/
  | entered (c : Call)
  /-- The start of `Raft_attempt_to_elect`. -/
  | elect
  /-- `spinlock_release`, and how it goes on. -/
  | release (next : List OutsidePc)

inductive Thread
  | outside (p : OutsidePc)
  /-- The thread works on the state as it has read it, or written it itself. -/
  | inside (p : InsidePc) (raft : RaftState)

/-- What a move depends on besides the state. -/
inductive Chance
  | go
  /-- The time of the read, or that of the election, is over. -/
  | timeout
  /-- A packet has come. -/
  | packet (addr : Server) (packet : Packet)
  /-- A request to release the lock manager's lock has come, from its owner or
  not. -/
  | release (owner : Bool) (e : LogEntry) (term id : ℤ)
  /-- The snapshot iterator reads these files. -/
  | files (files : FileSystem)

namespace Call

/-- A section that writes: what it makes of the state, and where the thread goes
on once it has cleared the lock. -/
def run (raft : RaftState) (files : FileSystem) : Call → Option (Outcome × List OutsidePc)
  | .listener | .poll | .query _ _ => none
  | .handler addr packet =>
    let o := handlePacket raft addr packet
    -- a packet that makes a candidate the leader has it start its threads
    some (o, match spawned o.effects with
      | [] => [.handled .check]
      | ts => [.start ts])
  | .snapshot pc =>
    let (o, next) := snapshotStep raft pc
    some (o, next.toList.map .handled)
  | .leader t =>
    let (o, next) := leaderStep raft files t
    some (o, next.toList.map fun pc => .acquire (.leader { t with pc }))
  | .append e term id => some (appendEntry raft e, [.acquire (.query term id)])

end Call

/-- Past its handler a packet thread works on files without the lock, and takes it
for the two sections of `Raft_create_snapshot`. -/
def goOn (shared : RaftState) : SnapshotPc → Option (List OutsidePc)
  | .enter n => some [.acquire (.snapshot (.enter n))]
  | .shift n prev => some [.acquire (.snapshot (.shift n prev))]
  | pc =>
    let (o, next) := snapshotStep shared pc
    if o.fault then none else some (next.toList.map .handled)

def Chance.expired : Chance → Bool
  | .timeout => true
  | _ => false

def Chance.readFiles : Chance → FileSystem
  | .files fs => fs
  | _ => fun _ _ => none

namespace Thread

/-- The next move of a thread, when the state is `shared`. -/
def move (shared : RaftState) : Thread → Chance → Option (Op × RaftState × List Thread)
  | .outside .listen, .timeout =>
    if shared.state = .follower then some (.work, shared, [.outside (.acquire .listener)])
    else some (.work, shared, [.outside .listen])
  | .outside .listen, .packet addr packet =>
    some (.work, shared, [.outside .listen, .outside (.acquire (.handler addr packet))])
  | .outside .serve, .release owner e term id =>
    let call := if term = shared.currentTerm ∧ owner then .append e term id else .query term id
    some (.work, shared, [.outside .serve, .outside (.acquire call)])
  | .outside (.acquire c), .go =>
    some (.acquire, shared, [.inside (.entered c) shared])
  | .outside (.start []), .go => some (.work, shared, [.outside (.handled .check)])
  | .outside (.start (t :: ts)), .go =>
    some (.work, shared, [.outside (.start ts), .outside (.acquire (.leader t))])
  | .outside (.handled pc), .go =>
    (goOn shared pc).map fun next => (.work, shared, next.map .outside)
  | .inside (.entered .listener) raft, .go =>
    -- the new thread has the lock, this one goes back to reading
    some (.work, shared, [.outside .listen, .inside .elect raft])
  | .inside (.entered .poll) raft, chance =>
    if raft.state ≠ .candidate then some (.work, shared, [.inside (.release []) raft])
    else if chance.expired ∧ raft.nblocked * 2 < (nServers : ℤ) then
      -- the thread starts the election over and has the lock already
      some (.work, shared, [.inside .elect raft])
    else some (.work, shared, [.inside (.release [.acquire .poll]) raft])
  | .inside (.entered (.query term id)) raft, .go =>
    if isEntryCommitted raft term id = 0 then
      some (.work, shared, [.inside (.release [.acquire (.query term id)]) raft])
    else some (.work, shared, [.inside (.release []) raft])
  | .inside (.entered c) raft, chance =>
    match c.run raft chance.readFiles with
    | none => none
    | some (o, next) =>
      if o.fault then none else some (.work, o.raft, [.inside (.release next) o.raft])
  | .inside .elect raft, .go =>
    let o := attemptToElect raft
    some (.work, o.raft, [.inside (.release [.acquire .poll]) o.raft])
  | .inside (.release next) _, .go => some (.release, shared, next.map .outside)
  | _, _ => none

/-- What a thread that has the lock has read of the state. -/
def seen : Thread → Option RaftState
  | .outside _ => none
  | .inside _ raft => some raft

end Thread

/-- The threads of a process and the memory they share. -/
abbrev Process := State RaftState Thread

namespace Process

def init (raft : RaftState) : Process := ⟨raft, false, [.outside .listen, .outside .serve]⟩

def exec (s : Process) (a : ℕ × Chance) : Option Process := Mutex.exec Thread.move s a

end Process

/-! ### The discipline -/

section Discipline

variable {shared raft : RaftState} {t : Thread} {chance : Chance} {op : Op}
  {shared' : RaftState} {ts : List Thread}

@[simp] theorem seen_outside (next : List OutsidePc) :
    (next.map Thread.outside).filterMap Thread.seen = [] := by
  rw [List.filterMap_map]
  exact List.filterMap_eq_nil_iff.mpr fun _ _ => rfl

/-- A move of a thread that does not have the lock. -/
inductive MovesOutside (shared : RaftState) : Op → RaftState → List Thread → Prop
  | work (next : List OutsidePc) : MovesOutside shared .work shared (next.map .outside)
  | acquire (c : Call) : MovesOutside shared .acquire shared [.inside (.entered c) shared]

theorem move_outside {p : OutsidePc}
    (h : (Thread.outside p).move shared chance = some (op, shared', ts)) :
    MovesOutside shared op shared' ts := by
  have hwork : ∀ next : List OutsidePc,
      some (Op.work, shared, next.map Thread.outside) = some (op, shared', ts) →
        MovesOutside shared op shared' ts := by
    intro next heq
    simp only [Option.some.injEq, Prod.mk.injEq] at heq
    obtain ⟨rfl, rfl, rfl⟩ := heq
    exact .work next
  cases p with
  | listen =>
      cases chance with
      | timeout =>
          simp only [Thread.move] at h
          split_ifs at h
          · exact hwork [.acquire .listener] h
          · exact hwork [.listen] h
      | packet addr packet => exact hwork [.listen, .acquire (.handler addr packet)] h
      | _ => exact absurd h (by simp [Thread.move])
  | serve =>
      cases chance with
      | release owner e term id => exact hwork [.serve, .acquire _] h
      | _ => exact absurd h (by simp [Thread.move])
  | acquire c =>
      cases chance with
      | go =>
          simp only [Thread.move, Option.some.injEq, Prod.mk.injEq] at h
          obtain ⟨rfl, rfl, rfl⟩ := h
          exact .acquire c
      | _ => exact absurd h (by simp [Thread.move])
  | start ts =>
      cases chance with
      | go =>
          cases ts with
          | nil => exact hwork [.handled .check] h
          | cons t ts => exact hwork [.start ts, .acquire (.leader t)] h
      | _ => cases ts <;> exact absurd h (by simp [Thread.move])
  | handled pc =>
      cases chance with
      | go =>
          obtain ⟨next, -, heq⟩ := Option.map_eq_some_iff.mp h
          exact hwork next (congrArg some heq)
      | _ => exact absurd h (by simp [Thread.move])

/-- The sections of the cluster's model. -/
def Section (raft raft' : RaftState) : Prop :=
  ∃ c s x o, Runs unrestricted c s raft x o ∧ o.fault = false ∧ raft' = o.raft

/-- A move of a thread that has the lock and has read `raft`. -/
inductive Works (shared raft : RaftState) : Op → RaftState → List Thread → Prop
  /-- It writes nothing and goes on to clear the lock. -/
  | reads (next : List OutsidePc) : Works shared raft .work shared [.inside (.release next) raft]
  /-- It goes on to an election, itself or another thread for it. -/
  | elects (next : List OutsidePc) :
      Works shared raft .work shared (next.map .outside ++ [.inside .elect raft])
  | writes (raft' : RaftState) (next : List OutsidePc) (h : Section raft raft') :
      Works shared raft .work raft' [.inside (.release next) raft']
  | release (next : List OutsidePc) : Works shared raft .release shared (next.map .outside)

theorem section_elect (raft : RaftState) : Section raft (attemptToElect raft).raft :=
  ⟨Cluster.init fun _ => 0, 0, .elect 0 none, _, .elect _ rfl, rfl, rfl⟩

theorem Call.run_section {c : Call} {files : FileSystem} {o : Outcome} {next : List OutsidePc}
    (h : c.run raft files = some (o, next)) (hf : o.fault = false) : Section raft o.raft := by
  cases c with
  | listener => exact absurd h (by simp [Call.run])
  | poll => exact absurd h (by simp [Call.run])
  | query term id => exact absurd h (by simp [Call.run])
  | handler addr packet =>
      simp only [Call.run, Option.some.injEq, Prod.mk.injEq] at h
      obtain ⟨rfl, -⟩ := h
      refine ⟨{ Cluster.init (fun _ => 0) with net := [⟨addr, 0, packet, none⟩] }, 0,
        .deliver 0 none, _, .packet 0 none ⟨addr, 0, packet, none⟩ rfl rfl trivial, hf, rfl⟩
  | snapshot pc =>
      simp only [Call.run, Option.some.injEq, Prod.mk.injEq] at h
      obtain ⟨rfl, -⟩ := h
      exact ⟨Cluster.init fun _ => 0, 0, .snapshotThread 0 0 none, _,
        .snapshot 0 none pc fun _ _ _ => trivial, hf, rfl⟩
  | leader t =>
      simp only [Call.run, Option.some.injEq, Prod.mk.injEq] at h
      obtain ⟨rfl, -⟩ := h
      exact ⟨Cluster.init fun _ => 0, 0, .leaderThread 0 0, _, .sender 0 files t trivial, hf, rfl⟩
  | append e term id =>
      simp only [Call.run, Option.some.injEq, Prod.mk.injEq] at h
      obtain ⟨rfl, -⟩ := h
      exact ⟨Cluster.init fun _ => 0, 0, .append 0 e none, _, .append e none, hf, rfl⟩

theorem move_inside {p : InsidePc}
    (h : (Thread.inside p raft).move shared chance = some (op, shared', ts)) :
    Works shared raft op shared' ts := by
  have hreads : ∀ next : List OutsidePc,
      some (Op.work, shared, [Thread.inside (.release next) raft]) = some (op, shared', ts) →
        Works shared raft op shared' ts := by
    intro next heq
    simp only [Option.some.injEq, Prod.mk.injEq] at heq
    obtain ⟨rfl, rfl, rfl⟩ := heq
    exact .reads next
  have helects : ∀ next : List OutsidePc,
      some (Op.work, shared, next.map Thread.outside ++ [Thread.inside .elect raft]) =
        some (op, shared', ts) → Works shared raft op shared' ts := by
    intro next heq
    simp only [Option.some.injEq, Prod.mk.injEq] at heq
    obtain ⟨rfl, rfl, rfl⟩ := heq
    exact .elects next
  have hruns : ∀ c : Call, (match c.run raft chance.readFiles with
      | none => none
      | some (o, next) =>
        if o.fault then none
        else some (Op.work, o.raft, [Thread.inside (.release next) o.raft])) =
          some (op, shared', ts) → Works shared raft op shared' ts := by
    intro c heq
    cases hrun : c.run raft chance.readFiles with
    | none => simp [hrun] at heq
    | some x =>
        simp only [hrun] at heq
        split_ifs at heq with hf
        simp only [Option.some.injEq, Prod.mk.injEq] at heq
        obtain ⟨rfl, rfl, rfl⟩ := heq
        exact .writes _ _ (Call.run_section hrun (by simpa using hf))
  cases p with
  | entered c =>
      cases c with
      | listener =>
          cases chance with
          | go => exact helects [.listen] h
          | _ => exact hruns .listener h
      | poll =>
          simp only [Thread.move] at h
          split_ifs at h
          · exact hreads [] h
          · exact helects [] h
          · exact hreads [.acquire .poll] h
      | query term id =>
          cases chance with
          | go =>
              simp only [Thread.move] at h
              split_ifs at h
              · exact hreads [.acquire (.query term id)] h
              · exact hreads [] h
          | _ => exact hruns (.query term id) h
      | handler addr packet => exact hruns (.handler addr packet) h
      | snapshot pc => exact hruns (.snapshot pc) h
      | leader t => exact hruns (.leader t) h
      | append e term id => exact hruns (.append e term id) h
  | elect =>
      cases chance with
      | go =>
          simp only [Thread.move, Option.some.injEq, Prod.mk.injEq] at h
          obtain ⟨rfl, rfl, rfl⟩ := h
          exact .writes _ _ (section_elect raft)
      | _ => exact absurd h (by simp [Thread.move])
  | release next =>
      cases chance with
      | go =>
          simp only [Thread.move, Option.some.injEq, Prod.mk.injEq] at h
          obtain ⟨rfl, rfl, rfl⟩ := h
          exact .release next
      | _ => exact absurd h (by simp [Thread.move])

theorem Thread.disciplined : Disciplined Thread.move Thread.seen where
  outside {s p c s' ps} h hp := by
    cases p with
    | inside p raft => exact absurd hp (by simp [Thread.seen])
    | outside p =>
        generalize hop : Op.work = op at h
        cases move_outside h with
        | work next => exact ⟨rfl, seen_outside next⟩
        | acquire c => exact absurd hop (by simp)
  inside {s p c s' ps} h hp := by
    cases p with
    | outside p => exact absurd hp (by simp [Thread.seen])
    | inside p raft =>
        obtain rfl := Option.some.inj hp
        generalize hop : Op.work = op at h
        cases move_inside h with
        | reads next => rfl
        | elects next =>
            rw [List.filterMap_append, seen_outside]
            rfl
        | writes _ next _ => rfl
        | release next => exact absurd hop (by simp)
  acquire {s p c s' ps} h := by
    generalize hop : Op.acquire = op at h
    cases p with
    | outside p =>
        cases move_outside h with
        | work next => exact absurd hop (by simp)
        | acquire c => exact ⟨rfl, rfl, rfl⟩
    | inside p raft => cases move_inside h <;> exact absurd hop (by simp)
  release {s p c s' ps} h := by
    generalize hop : Op.release = op at h
    cases p with
    | outside p => cases move_outside h <;> exact absurd hop (by simp)
    | inside p raft =>
        cases move_inside h with
        | release next => exact ⟨rfl, rfl, seen_outside next⟩
        | _ => exact absurd hop (by simp)

/-- The section the thread is in asserts, or goes through a null pointer. -/
def Thread.Dies (raft : RaftState) (t : Thread) : Prop :=
  ∃ c files o next, t = .inside (.entered c) raft ∧ c.run raft files = some (o, next) ∧
    o.fault = true

theorem InsidePc.frees (p : InsidePc) (raft : RaftState) :
    Frees Thread.move Thread.seen Thread.Dies raft (.inside p raft) := by
  have hrelease : ∀ (next : List OutsidePc) (raft : RaftState),
      Frees Thread.move Thread.seen Thread.Dies raft (.inside (.release next) raft) :=
    fun next raft => .release (c := .go) rfl
  have helect : Frees Thread.move Thread.seen Thread.Dies raft (.inside .elect raft) :=
    .work (c := .go) rfl List.mem_cons_self rfl (hrelease _ _)
  have hnext : ∀ (c : Call) (next : List OutsidePc) (raft' : RaftState),
      (Thread.inside (.entered c) raft).move raft .go =
        some (Op.work, raft', [Thread.inside (.release next) raft']) →
      Frees Thread.move Thread.seen Thread.Dies raft (.inside (.entered c) raft) :=
    fun c next raft' hmove => .work hmove List.mem_cons_self rfl (hrelease next raft')
  have hrun : ∀ c : Call, (∃ x, c.run raft Chance.go.readFiles = some x) →
      ((Thread.inside (.entered c) raft).move raft .go =
        match c.run raft Chance.go.readFiles with
        | none => none
        | some (o, next) =>
          if o.fault then none
          else some (Op.work, o.raft, [Thread.inside (.release next) o.raft])) →
      Frees Thread.move Thread.seen Thread.Dies raft (.inside (.entered c) raft) := by
    rintro c ⟨⟨o, next⟩, hsome⟩ hmove
    cases hf : o.fault with
    | true => exact .lost ⟨c, _, o, next, rfl, hsome, hf⟩
    | false =>
        refine hnext c next o.raft (hmove.trans ?_)
        simp only [hsome, hf, Bool.false_eq_true, if_false]
  cases p with
  | release next => exact hrelease next raft
  | elect => exact helect
  | entered c =>
      cases c with
      | listener =>
          exact .work (c := .go) rfl (List.mem_cons_of_mem _ List.mem_cons_self) rfl helect
      | poll =>
          by_cases hstate : raft.state = .candidate
          · exact hnext _ [.acquire .poll] raft (by simp [Thread.move, hstate, Chance.expired])
          · exact hnext _ [] raft (by simp [Thread.move, hstate])
      | query term id =>
          by_cases hzero : isEntryCommitted raft term id = 0
          · exact hnext _ [.acquire (.query term id)] raft (by simp [Thread.move, hzero])
          · exact hnext _ [] raft (by simp [Thread.move, hzero])
      | handler addr packet => exact hrun _ ⟨_, rfl⟩ rfl
      | snapshot pc => exact hrun _ ⟨_, rfl⟩ rfl
      | leader t => exact hrun _ ⟨_, rfl⟩ rfl
      | append e term id => exact hrun _ ⟨_, rfl⟩ rfl

end Discipline

/-! ### Whole runs -/

section Runs

variable {raft : RaftState} {s s' : Process} {a : ℕ × Chance}

theorem Process.inv (h : Machine.Reaches Process.exec (.init raft) s) : Inv Thread.seen s :=
  h.invariant (fun _ _ _ hinv _ hx => hinv.exec Thread.disciplined hx) (inv_free rfl)

/-- What a step writes is a section made of the state as it is. -/
theorem Process.exec_section (h : Inv Thread.seen s) (hx : s.exec a = some s') :
    s'.shared = s.shared ∨ Section s.shared s'.shared := by
  obtain ⟨before, p, after, op, ps, hm⟩ := exec_moves hx
  cases p with
  | outside p =>
      left
      have hmove := hm.move
      generalize s'.shared = shared' at hmove
      cases move_outside hmove <;> rfl
  | inside p r =>
      obtain ⟨-, rfl⟩ := h.holder hm.thread rfl
      have hmove := hm.move
      generalize s'.shared = shared' at hmove
      cases move_inside hmove with
      | writes _ next hsection => exact Or.inr hsection
      | _ => exact Or.inl rfl

/-- **The sections are atomic**: however the threads of a server are
interleaved, its state goes through sections of the cluster's model, one after
the other; one thread at most is inside the lock, and what it has read is what
is there. -/
theorem sections_are_atomic (h : Machine.Reaches Process.exec (.init raft) s) :
    Relation.ReflTransGen Section raft s.shared ∧
    (∀ (j k : ℕ) p q r r', s.threads[j]? = some (Thread.inside p r) →
      s.threads[k]? = some (Thread.inside q r') → j = k) ∧
    ∀ (k : ℕ) p r, s.threads[k]? = some (Thread.inside p r) → s.taken = true ∧ r = s.shared := by
  have hinv := Process.inv h
  refine ⟨?_, fun j k p q r r' hj hk => hinv.unique hj hk rfl rfl,
    fun k p r hk => hinv.holder hk rfl⟩
  clear hinv
  induction h with
  | refl => exact .refl
  | tail hrun hstep ih =>
      obtain ⟨a, -, hx⟩ := hstep
      rcases Process.exec_section (Process.inv hrun) hx with heq | hsection
      · rw [heq]
        exact ih
      · exact ih.tail hsection

/-- The listener has handed the lock to the election thread. -/
def handOver : List (ℕ × Chance) := [(0, .timeout), (0, .go), (0, .go)]

theorem handOver_runs : (Machine.execAll Process.exec (.init (serverInit plainConfig 0))
    handOver).any (fun s => match s.threads[1]? with
      | some (Thread.inside .elect _) => s.taken
      | _ => false) = true := by
  decide

theorem election_thread_alone : ∃ s, Machine.Reaches Process.exec
    (.init (serverInit plainConfig 0)) s ∧ (∃ r, s.threads[1]? = some (Thread.inside .elect r)) ∧
    s.taken = true ∧ Relation.ReflTransGen Section (serverInit plainConfig 0) s.shared := by
  obtain ⟨s, hrun, hs⟩ := Machine.exists_of_execAll handOver_runs
  obtain ⟨hsections, -, hholder⟩ := sections_are_atomic hrun
  split at hs
  · rename_i r hr
    exact ⟨s, hrun, ⟨r, hr⟩, (hholder 1 _ r hr).1, hsections⟩
  · exact absurd hs (by simp)

/-- **The lock is not lost**: it is taken exactly while a thread is inside; only
this thread clears it, and finds it set; and by moves of its own and of the
thread it may hand the lock to it comes to clear it, unless its section makes
the process end. -/
theorem lock_is_not_lost (h : Machine.Reaches Process.exec (.init raft) s) :
    (s.taken = true ↔ ∃ t ∈ s.threads, ∃ p, t = Thread.inside p s.shared) ∧
    (∀ (k : ℕ) next r s', s.threads[k]? = some (Thread.inside (.release next) r) →
      s.exec (k, .go) = some s' → s.taken = true ∧ s'.taken = false) ∧
    (s.taken = true → ∃ s', Machine.Steps Process.exec (ByHolder Thread.seen) s s' ∧
      (s'.taken = false ∨ ∃ t ∈ s'.threads, t.Dies s'.shared)) := by
  have hinv := Process.inv h
  have hholder : s.taken = true → ∃ (k : ℕ) (p : InsidePc),
      s.threads[k]? = some (Thread.inside p s.shared) := by
    intro htaken
    have hone : s.threads.filterMap Thread.seen = [s.shared] := by
      have hall : s.threads.filterMap Thread.seen = _ := hinv
      rwa [htaken, if_pos rfl] at hall
    obtain ⟨t, ht, hseen⟩ := List.mem_filterMap.mp (hone ▸ List.mem_singleton_self s.shared)
    cases t with
    | outside p => exact absurd hseen (by simp [Thread.seen])
    | inside p r =>
        obtain rfl := Option.some.inj hseen
        obtain ⟨k, hk⟩ := List.mem_iff_getElem?.mp ht
        exact ⟨k, p, hk⟩
  refine ⟨⟨fun htaken => ?_, ?_⟩, fun k next r s' hk hx => ?_, fun htaken => ?_⟩
  · obtain ⟨k, p, hk⟩ := hholder htaken
    exact ⟨_, List.mem_of_getElem? hk, p, rfl⟩
  · rintro ⟨t, ht, p, rfl⟩
    obtain ⟨k, hk⟩ := List.mem_iff_getElem?.mp ht
    exact (hinv.holder hk rfl).1
  · obtain ⟨before, p, after, op, ps, hm⟩ := exec_moves hx
    obtain rfl := Option.some.inj (hk.symm.trans hm.thread)
    have hop : op = .release := by
      have hmove := hm.move
      simp only [Thread.move, Option.some.injEq, Prod.mk.injEq] at hmove
      exact hmove.1.symm
    subst hop
    obtain ⟨htaken, -, hfree⟩ := hinv.releases Thread.disciplined hm
    exact ⟨htaken, hfree⟩
  · obtain ⟨k, p, hk⟩ := hholder htaken
    obtain ⟨s', hsteps, hend⟩ := (p.frees s.shared).steps hk rfl
    rw [← htaken] at hsteps
    refine ⟨s', hsteps, hend.imp_right ?_⟩
    rintro ⟨t, ht, -, hdies⟩
    exact ⟨t, ht, hdies⟩

theorem election_thread_frees : ∃ s s', Machine.Reaches Process.exec
    (.init (serverInit plainConfig 0)) s ∧ s.taken = true ∧
    Machine.Steps Process.exec (ByHolder Thread.seen) s s' ∧
    (s'.taken = false ∨ ∃ t ∈ s'.threads, t.Dies s'.shared) := by
  obtain ⟨s, hrun, hs⟩ := Machine.exists_of_execAll handOver_runs
  have htaken : s.taken = true := by
    split at hs
    · exact hs
    · exact absurd hs (by simp)
  obtain ⟨s', hsteps, hend⟩ := (lock_is_not_lost hrun).2.2 htaken
  exact ⟨s, s', hrun, htaken, hsteps, hend⟩

end Runs

end RaftLock

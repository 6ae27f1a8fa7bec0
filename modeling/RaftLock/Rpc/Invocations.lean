import Mathlib.Data.List.Nodup
import RaftLock.Rpc.Session

/-!
The handlers a server calls: each request at most once, and for a client one
at a time.

The table remembers one request for each client, the last one let through. A
copy of another request is let through whatever its number is, also while a
handler is running. When this does not happen, the requests let through for a
client come in the order in which the client has made them, and each of them
after the handler of the one before has returned.
-/

namespace RaftLock

/-- From the moment a request is let through to the moment it is answered. -/
def RequestPc.active : RequestPc → Prop
  | .calling | .running | .returned _ => True
  | _ => False

/-- The request is later than the one in the entry. -/
def ClientProcessData.Before (e : ClientProcessData) (r : Request) : Prop :=
  e.session < r.session ∨ (e.session = r.session ∧ e.vtime < r.packet.vtime)

instance (e : ClientProcessData) (r : Request) : Decidable (e.Before r) :=
  inferInstanceAs (Decidable (_ ∨ _))

theorem ClientProcessData.Before.trans {e : ClientProcessData} {r r' : Request}
    (h : e.Before r)
    (h' : r.session < r'.session ∨ (r.session = r'.session ∧ r.packet.vtime ≤ r'.packet.vtime)) :
    e.Before r' := by
  unfold ClientProcessData.Before at h ⊢
  omega

/-- At most one of two threads has been let through for the same client. -/
def RequestThread.Apart (t u : RequestThread) : Prop :=
  t.pc.active → u.pc.active → t.request.packet.clientId ≠ u.request.packet.clientId

theorem RequestThread.Apart.symm {t u : RequestThread} (h : t.Apart u) : u.Apart t :=
  fun hu ht heq => h ht hu heq.symm

namespace RpcServer

structure Served (sv : RpcServer) : Prop where
  active : ∀ t ∈ sv.threads, t.pc.active → ∃ e, sv.table t.request.packet.clientId = some e ∧
    e.state = .processing ∧ e.session = t.request.session ∧ e.vtime = t.request.packet.vtime
  apart : sv.threads.Pairwise RequestThread.Apart
  invoked : ∀ r ∈ sv.invoked, ∃ e, sv.table r.packet.clientId = some e ∧ ¬ e.Before r
  calling : ∀ t ∈ sv.threads, t.pc = .calling → ∀ r ∈ sv.invoked, r.key ≠ t.request.key
  nodup : (sv.invoked.map Request.key).Nodup

/-- The threads other than thread `k`. -/
def rest (sv : RpcServer) (k : ℕ) : List RequestThread :=
  sv.threads.take k ++ sv.threads.drop (k + 1)

section Advance

variable {sv : RpcServer} {k : ℕ} {t u : RequestThread} {client : Option ClientProcessData}
  {pc : Option RequestPc} {called : List Request}

theorem mem_threads (hu : u ∈ sv.rest k) : u ∈ sv.threads := by
  rcases List.mem_append.mp hu with hu | hu
  · exact List.mem_of_mem_take hu
  · exact List.mem_of_mem_drop hu

theorem mem_advanced (ht : sv.threads[k]? = some t)
    (hu : u ∈ (sv.advanced k t client pc called).threads) :
    u ∈ sv.rest k ∨ ∃ p, pc = some p ∧ u = { t with pc := p } := by
  have hu := (List.replaceAt_perm ht _).2.mem_iff.mp hu
  rcases List.mem_append.mp hu with hu | hu
  · rw [Option.mem_toList, Option.map_eq_some_iff] at hu
    obtain ⟨p, hp, rfl⟩ := hu
    exact Or.inr ⟨p, hp, rfl⟩
  · exact Or.inl hu

theorem Served.apart_rest (h : Served sv) (ht : sv.threads[k]? = some t) :
    (∀ u ∈ sv.rest k, t.Apart u) ∧ (sv.rest k).Pairwise RequestThread.Apart := by
  have hpair := ((List.replaceAt_perm ht none).1.pairwise_iff fun h => h.symm).mp h.apart
  exact List.pairwise_cons.mp hpair

/-- What a step of thread `t` has to respect. -/
theorem Served.advance (h : Served sv) (ht : sv.threads[k]? = some t)
    (hself : ∀ p, pc = some p → p.active → ∃ e, client = some e ∧ e.state = .processing ∧
      e.session = t.request.session ∧ e.vtime = t.request.packet.vtime)
    (hkeep : ∀ u ∈ sv.rest k, u.pc.active →
      u.request.packet.clientId = t.request.packet.clientId →
      client = sv.table t.request.packet.clientId)
    (hapart : ∀ p, pc = some p → p.active → ∀ u ∈ sv.rest k, u.pc.active →
      t.request.packet.clientId ≠ u.request.packet.clientId)
    (hinvoked : ∀ r ∈ sv.invoked ++ called,
      r.packet.clientId = t.request.packet.clientId → ∃ e, client = some e ∧ ¬ e.Before r)
    (hcalled : ∀ r ∈ called, r = t.request)
    (hcalling : pc = some .calling → ∀ r ∈ sv.invoked ++ called, r.key ≠ t.request.key)
    (hothers : ∀ u ∈ sv.rest k, u.pc = .calling → ∀ r ∈ called, r.key ≠ u.request.key)
    (hnodup : ((sv.invoked ++ called).map Request.key).Nodup) :
    Served (sv.advanced k t client pc called) where
  active u hu hactive := by
    simp only [advanced, Function.update_apply]
    rcases mem_advanced ht hu with hu | ⟨p, hp, rfl⟩
    · split
      · rename_i heq
        rw [hkeep u hu hactive heq, ← heq]
        exact h.active u (mem_threads hu) hactive
      · exact h.active u (mem_threads hu) hactive
    · rw [if_pos rfl]
      exact hself p hp hactive
  apart := by
    refine ((List.replaceAt_perm ht _).2.pairwise_iff fun h => h.symm).mpr ?_
    cases pc with
    | none => exact (h.apart_rest ht).2
    | some p =>
        refine List.pairwise_cons.mpr ⟨fun u hu hp hactive => ?_, (h.apart_rest ht).2⟩
        exact hapart p rfl hp u hu hactive
  invoked r hr := by
    simp only [advanced, Function.update_apply]
    split
    · rename_i heq
      exact hinvoked r hr heq
    · rename_i hne
      rcases List.mem_append.mp hr with hr | hr
      · exact h.invoked r hr
      · rw [hcalled r hr] at hne
        exact absurd rfl hne
  calling u hu hpc r hr := by
    rcases mem_advanced ht hu with hu | ⟨p, hp, rfl⟩
    · rcases List.mem_append.mp hr with hr | hr
      · exact h.calling u (mem_threads hu) hpc r hr
      · exact hothers u hu hpc r hr
    · exact hcalling (by rw [hp]; exact congrArg some hpc) r hr
  nodup := hnodup

/-- A thread that has not been let through, and is not now. -/
theorem Served.move (h : Served sv) (ht : sv.threads[k]? = some t)
    (hpc : ∀ p, pc = some p → ¬ p.active) :
    Served (sv.advanced k t (sv.table t.request.packet.clientId) pc []) := by
  refine h.advance ht (fun p hp hactive => absurd hactive (hpc p hp)) (fun _ _ _ _ => rfl)
    (fun p hp hactive => absurd hactive (hpc p hp)) (fun r hr heq => ?_) (by simp)
    (fun hp => absurd trivial (hpc _ hp)) (by simp) (by simpa using h.nodup)
  rw [List.append_nil] at hr
  rw [← heq]
  exact h.invoked r hr

/-- A new entry is made for a client of which nothing has been let through. -/
theorem Served.create (h : Served sv) (ht : sv.threads[k]? = some t)
    (hnone : sv.table t.request.packet.clientId = none) :
    Served (sv.advanced k t (some (.create t.request.packet.clientId)) (some .check) []) := by
  refine h.advance ht ?_ (fun u hu hactive heq => ?_) ?_ (fun r hr heq => ?_) (by simp)
    (by simp) (by simp) (by simpa using h.nodup)
  · rintro p hp hactive
    cases hp
    exact hactive.elim
  · obtain ⟨e, he, -⟩ := h.active u (mem_threads hu) hactive
    rw [heq, hnone] at he
    exact absurd he (by simp)
  · rintro p hp hactive
    cases hp
    exact hactive.elim
  · rw [List.append_nil] at hr
    obtain ⟨e, he, -⟩ := h.invoked r hr
    rw [heq, hnone] at he
    exact absurd he (by simp)

/-- A later request is let through when no handler of the client is running. -/
theorem Served.letIn (h : Served sv) (ht : sv.threads[k]? = some t) {e : ClientProcessData}
    (he : sv.table t.request.packet.clientId = some e) (hstate : e.state = .waiting)
    (hlater : e.Before t.request) :
    Served (sv.advanced k t
      (some
        { e with
          state := .processing, vtime := t.request.packet.vtime, session := t.request.session })
      (some .calling) []) := by
  -- no thread of the client is under way
  have hidle : ∀ u ∈ sv.threads, u.pc.active →
      t.request.packet.clientId ≠ u.request.packet.clientId := by
    intro u hu hactive heq
    obtain ⟨e', he', hprocessing, -⟩ := h.active u hu hactive
    rw [← heq, he, Option.some.injEq] at he'
    rw [← he', hstate] at hprocessing
    exact absurd hprocessing (by simp)
  have hold : ∀ r ∈ sv.invoked, r.packet.clientId = t.request.packet.clientId → ¬ e.Before r := by
    intro r hr heq
    obtain ⟨e', he', hr'⟩ := h.invoked r hr
    rw [heq, he, Option.some.injEq] at he'
    rwa [he']
  refine h.advance ht ?_ (fun u hu hactive heq => ?_) (fun p hp _ u hu => ?_)
    (fun r hr heq => ?_) (by simp) (fun _ r hr hkey => ?_) (by simp) (by simpa using h.nodup)
  · exact fun p _ _ => ⟨_, rfl, rfl, rfl, rfl⟩
  · exact absurd heq.symm (hidle u (mem_threads hu) hactive)
  · exact hidle u (mem_threads hu)
  · rw [List.append_nil] at hr
    refine ⟨_, rfl, fun hbefore => hold r hr heq (hlater.trans ?_)⟩
    unfold ClientProcessData.Before at hbefore
    simp only at hbefore
    omega
  · rw [List.append_nil] at hr
    simp only [Request.key, Prod.mk.injEq] at hkey
    refine hold r hr hkey.1 (hlater.trans (Or.inr ?_))
    exact ⟨hkey.2.1.symm, hkey.2.2.ge⟩

/-- The handler is called. -/
theorem Served.invoke (h : Served sv) (ht : sv.threads[k]? = some t) (hpc : t.pc = .calling) :
    Served (sv.advanced k t (sv.table t.request.packet.clientId) (some .running) [t.request]) := by
  have hmem := List.mem_of_getElem? ht
  have hactive : t.pc.active := by
    rw [hpc]
    trivial
  obtain ⟨e, he, hstate, hsession, hvtime⟩ := h.active t hmem hactive
  refine h.advance ht (fun p _ _ => ⟨e, he, hstate, hsession, hvtime⟩) (fun _ _ _ _ => rfl)
    (fun p _ _ u hu => (h.apart_rest ht).1 u hu hactive) (fun r hr heq => ?_) (by simp)
    (by simp) (fun u hu hcalling r hr hkey => ?_) ?_
  · rcases List.mem_append.mp hr with hr | hr
    · rw [← heq]
      exact h.invoked r hr
    · refine ⟨e, he, fun hbefore => ?_⟩
      rw [List.mem_singleton.mp hr] at hbefore
      unfold ClientProcessData.Before at hbefore
      omega
  · rw [List.mem_singleton.mp hr] at hkey
    have hu' : u.pc.active := by
      rw [hcalling]
      trivial
    exact (h.apart_rest ht).1 u hu hactive hu' (congrArg Prod.fst hkey)
  · rw [List.map_append, List.nodup_append]
    refine ⟨h.nodup, List.nodup_singleton _, fun x hx y hy hxy => ?_⟩
    obtain ⟨r, hr, rfl⟩ := List.mem_map.mp hx
    rw [List.map_singleton, List.mem_singleton] at hy
    exact h.calling t hmem hpc r hr (hxy.trans hy)

/-- The handler has returned and its answer is kept. -/
theorem Served.finish (h : Served sv) (ht : sv.threads[k]? = some t) (hactive : t.pc.active)
    {e : ClientProcessData} (he : sv.table t.request.packet.clientId = some e) (answer : Answer) :
    Served (sv.advanced k t (some { e with state := .waiting, lastResponse := answer }) none
      []) := by
  refine h.advance ht (by simp) (fun u hu hu' heq => ?_) (by simp) (fun r hr heq => ?_) (by simp)
    (by simp) (by simp) (by simpa using h.nodup)
  · exact absurd heq.symm ((h.apart_rest ht).1 u hu hactive hu')
  · rw [List.append_nil] at hr
    obtain ⟨e', he', hr'⟩ := h.invoked r hr
    rw [heq, he, Option.some.injEq] at he'
    rw [← he'] at hr'
    exact ⟨_, rfl, hr'⟩

/-- The handler returns to `handle_packet`. -/
theorem Served.returns (h : Served sv) (ht : sv.threads[k]? = some t) (hpc : t.pc = .running)
    (reply : Reply) : Served (sv.goto k t (.returned reply)) := by
  have hactive : t.pc.active := by
    rw [hpc]
    trivial
  have hmove : sv.goto k t (.returned reply) =
      sv.advanced k t (sv.table t.request.packet.clientId) (some (.returned reply)) [] := by
    simp [goto, advanced]
  rw [hmove]
  refine h.advance ht (fun p _ _ => h.active t (List.mem_of_getElem? ht) hactive)
    (fun _ _ _ _ => rfl) (fun p _ _ u hu => (h.apart_rest ht).1 u hu hactive)
    (fun r hr heq => ?_) (by simp) (by simp) (by simp) (by simpa using h.nodup)
  rw [List.append_nil] at hr
  rw [← heq]
  exact h.invoked r hr

end Advance

/-- A request that is let through finds no handler of its client running, and
is later than the last one let through. -/
def Admits (sv : RpcServer) (k : ℕ) : Prop :=
  ∀ t ∈ sv.threads[k]?, t.pc = .check → ∀ e ∈ sv.table t.request.packet.clientId,
    e.vtime ≠ t.request.packet.vtime → e.state = .waiting ∧ e.Before t.request

instance (sv : RpcServer) (k : ℕ) : Decidable (sv.Admits k) :=
  inferInstanceAs (Decidable (∀ t ∈ sv.threads[k]?, t.pc = .check →
    ∀ e ∈ sv.table t.request.packet.clientId, e.vtime ≠ t.request.packet.vtime →
      e.state = .waiting ∧ e.Before t.request))

theorem Served.threadStep {sv : RpcServer} {k : ℕ} {t : RequestThread}
    {client : Option ClientProcessData} {pc : Option RequestPc} {called : List Request}
    {answer : Option AnswerDatagram} (h : Served sv) (hok : sv.Admits k)
    (ht : sv.threads[k]? = some t)
    (hadv : ThreadStep sv.role (sv.table t.request.packet.clientId) t client pc called answer) :
    Served (sv.advanced k t client pc called) := by
  have hpassive : ∀ q : RequestPc, ¬ q.active → ∀ p, some q = some p → ¬ p.active := by
    intro q hq p hp
    cases hp
    exact hq
  cases hadv with
  | lead hpc hrole => exact h.move ht (hpassive _ id)
  | turn hpc hrole => exact h.move ht (hpassive _ id)
  | redirect reply hpc hrc => exact h.move ht (by simp)
  | create hpc hnone => exact h.create ht hnone
  | found e hpc he =>
      rw [← he]
      exact h.move ht (hpassive _ id)
  | busy e reply hpc he hvtime hrc =>
      rw [← he]
      exact h.move ht (by simp)
  | repeated e hpc he hvtime hstate =>
      rw [← he]
      exact h.move ht (by simp)
  | letIn e hpc he hvtime =>
      obtain ⟨hstate, hlater⟩ := hok t ht hpc e he hvtime
      exact h.letIn ht he hstate hlater
  | invoke hpc => exact h.invoke ht hpc
  | finish e reply hpc he =>
      refine h.finish ht ?_ he _
      rw [hpc]
      trivial

theorem served_init : Served init := by
  constructor <;> simp [init]

end RpcServer

namespace Sessions

open RpcServer

/-- Every request that is let through comes in order. -/
def AdmitsInOrder (m : Sessions) : SessionAction → Prop
  | .thread s k => (m.servers s).Admits k
  | _ => True

instance (m : Sessions) (x : SessionAction) : Decidable (m.AdmitsInOrder x) :=
  match x with
  | .thread s k => inferInstanceAs (Decidable ((m.servers s).Admits k))
  | .connect _ | .call _ _ | .close _ | .timeout _ | .readError _ | .receive _ | .loseAnswer _
  | .loseRequest _ | .deliver _ | .handlerReturns _ _ _ | .role _ _ | .restart _ =>
    inferInstanceAs (Decidable True)

theorem served_exec {m m' : Sessions} {x : SessionAction} (h : ∀ s, Served (m.servers s))
    (hok : m.AdmitsInOrder x) (hx : m.exec x = some m') (s : Server) : Served (m'.servers s) := by
  have hs := h s
  have hstep := exec_server hx s
  generalize m'.servers s = sv' at hstep
  cases hstep with
  | idle => exact hs
  | deliver k request hk =>
      refine ⟨fun t ht hactive => ?_, ?_, hs.invoked, fun t ht hpc => ?_, hs.nodup⟩
      · rcases List.mem_append.mp ht with ht | ht
        · exact hs.active t ht hactive
        · rw [List.mem_singleton.mp ht] at hactive
          exact hactive.elim
      · refine List.pairwise_append.mpr ⟨hs.apart, List.pairwise_singleton _ _, ?_⟩
        intro t _ u hu _ hactive
        rw [List.mem_singleton.mp hu] at hactive
        exact hactive.elim
      · rcases List.mem_append.mp ht with ht | ht
        · exact hs.calling t ht hpc
        · rw [List.mem_singleton.mp ht] at hpc
          exact absurd hpc (by simp)
  | advance k t client pc called answer ht hadv => exact hs.threadStep hok ht hadv
  | returns k t reply reply' ht hpc => exact hs.returns ht hpc reply'
  | role role => exact ⟨hs.active, hs.apart, hs.invoked, hs.calling, hs.nodup⟩
  | restart => exact served_init

/-- A server calls a handler at most once for a request, and has at most one
handler running for a client. -/
theorem handlers_called_once {m : Sessions} (hrun : Machine.Steps exec AdmitsInOrder init m)
    (s : Server) :
    ((m.servers s).invoked.map Request.key).Nodup ∧
    ∀ (i j : ℕ) (t u : RequestThread), (m.servers s).threads[i]? = some t →
      (m.servers s).threads[j]? = some u → t.pc = .running → u.pc = .running →
      t.request.packet.clientId = u.request.packet.clientId → i = j := by
  have hinv : ∀ s, Served (m.servers s) :=
    hrun.invariant (fun _ _ _ h hok hx => served_exec h hok hx) fun _ => served_init
  refine ⟨(hinv s).nodup, fun i j t u hi hj ht hu hsame => ?_⟩
  obtain ⟨hilt, hi⟩ := List.getElem?_eq_some_iff.mp hi
  obtain ⟨hjlt, hj⟩ := List.getElem?_eq_some_iff.mp hj
  have hpair := List.pairwise_iff_getElem.mp (hinv s).apart
  have hactive : ∀ p : RequestPc, p = .running → p.active := by
    rintro p rfl
    trivial
  rcases Nat.lt_trichotomy i j with hlt | heq | hlt
  · have hapart := hpair i j hilt hjlt hlt
    rw [hi, hj] at hapart
    exact absurd hsame (hapart (hactive _ ht) (hactive _ hu))
  · exact heq
  · have hapart := hpair j i hjlt hilt hlt
    rw [hi, hj] at hapart
    exact absurd hsame.symm (hapart (hactive _ hu) (hactive _ ht))

/-- A thread goes on to its handler. -/
def serve (s : Server) (k : ℕ) : List SessionAction := List.replicate 4 (.thread s k)

/-- Its handler returns and the answer is sent. -/
def conclude (s : Server) (k : ℕ) (reply : Reply) : List SessionAction :=
  [.handlerReturns s k reply, .thread s k]

/-- Client `7` connects to server `0` and sends its request for the lock
twice; the first copy is handled and answered. -/
def acquired : List SessionAction :=
  [SessionAction.role 0 .leader, .connect 7, .deliver 0] ++ serve 0 0 ++
    conclude 0 0 ⟨0, .text ""⟩ ++
    [SessionAction.receive 0, .call 7 .acquire, .timeout 7, .deliver 0] ++ serve 0 0 ++
    conclude 0 0 ⟨0, .tag 1 1⟩ ++ [SessionAction.receive 0]

/-- The second copy comes before the next request, which is served after it. -/
def copyInTime : List SessionAction :=
  acquired ++ [SessionAction.deliver 0, .thread 0 0, .thread 0 0, .thread 0 0,
    .call 7 (.append [97] [98]), .deliver 0] ++ serve 0 0

/-- Server `s` has called the handler for the `n`-th request of the client's
session, and the handler is running. -/
def serving (m : Sessions) (s : Server) (c : ℤ) (session : ℕ) (n : ℤ) : Bool :=
  (m.servers s).threads.any fun t =>
    decide (t.pc = .running ∧ t.request.key = (c, session, n))

theorem copyInTime_runs : (Machine.execWhile exec (fun m x => decide (m.AdmitsInOrder x)) init
    copyInTime).any (fun m => m.serving 0 7 1 2) = true := by
  decide +kernel

theorem handlers_of_first_session : ∃ m, Machine.Steps exec AdmitsInOrder init m ∧
    m.serving 0 7 1 2 = true ∧ ((m.servers 0).invoked.map Request.key).Nodup ∧
    ∀ (i j : ℕ) (t u : RequestThread), (m.servers 0).threads[i]? = some t →
      (m.servers 0).threads[j]? = some u → t.pc = .running → u.pc = .running →
      t.request.packet.clientId = u.request.packet.clientId → i = j := by
  obtain ⟨m, hrun, hserving⟩ := Machine.exists_of_execWhile AdmitsInOrder
    (fun _ _ h => of_decide_eq_true h) copyInTime_runs
  obtain ⟨hnodup, hone⟩ := handlers_called_once hrun 0
  exact ⟨m, hrun, hserving, hnodup, hone⟩

/-- The second copy comes while the handler of the next request is running. -/
def copyTooLate : List SessionAction :=
  acquired ++ [SessionAction.call 7 (.append [97] [98]), .deliver 1] ++ serve 0 0 ++
    [SessionAction.deliver 0] ++ serve 0 1

/-- Two threads of one client are in their handlers. -/
def crowded (sv : RpcServer) : Bool :=
  match sv.threads[0]?, sv.threads[1]? with
  | some t, some u => decide (t.pc = .running ∧ u.pc = .running ∧
      t.request.packet.clientId = u.request.packet.clientId)
  | _, _ => false

theorem copyTooLate_runs : (Machine.execAll exec init copyTooLate).any (fun m =>
    decide (¬ ((m.servers 0).invoked.map Request.key).Nodup) && crowded (m.servers 0)) = true := by
  decide +kernel

/-- A late copy of a request is handled again, beside the next request. -/
theorem handler_called_twice : ∃ m, Machine.Reaches exec init m ∧
    ¬ ((m.servers 0).invoked.map Request.key).Nodup ∧
    ¬ ∀ (i j : ℕ) (t u : RequestThread), (m.servers 0).threads[i]? = some t →
      (m.servers 0).threads[j]? = some u → t.pc = .running → u.pc = .running →
      t.request.packet.clientId = u.request.packet.clientId → i = j := by
  obtain ⟨m, hrun, hm⟩ := Machine.exists_of_execAll copyTooLate_runs
  rw [Bool.and_eq_true, decide_eq_true_eq] at hm
  refine ⟨m, hrun, hm.1, fun hone => ?_⟩
  have hcrowded := hm.2
  unfold crowded at hcrowded
  split at hcrowded
  · rename_i t u ht hu
    rw [decide_eq_true_eq] at hcrowded
    exact absurd (hone 0 1 t u ht hu hcrowded.1 hcrowded.2.1 hcrowded.2.2) (by simp)
  · exact absurd hcrowded (by simp)

end Sessions

end RaftLock

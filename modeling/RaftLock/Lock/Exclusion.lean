import RaftLock.Lock.Handlers

/-!
Where a handler stands, and what it then has: a client in the middle of its
acquire has the lock, and so has a client whose pause has succeeded.

The first holds as long as the timer does not fire between the `timer_reset`
of `tmdspinlock_acquire` and the return of `handle_lock_acquire`, during which
it is armed. The second is what the pause is for.
-/

namespace RaftLock

namespace HandlerPc

/-- A handler that has called the lock is in that call or has seen it return;
any other is outside the lock. -/
def Calls (p : HandlerPc) (q : LockPc) : Prop :=
  match p.calls with
  | none => ∃ rc, q = .outside rc
  | some op => TimedLock.within op q = true

/-- The client has taken the lock and its `handle_lock_acquire` has not
returned. -/
def acquired : HandlerPc → LockPc → Bool
  | .acquire, .outside rc => decide (0 ≤ rc)
  | .acquireClear _, _ | .acquireClient, _ | .acquireId, _ | .acquireTerm, _
  | .acquireTag _, _ => true
  | _, _ => false

/-- The handler's pause has succeeded and it has not called the reset. -/
def Paused : HandlerPc → LockPc → Prop
  | .releasePause _ _, .outside rc | .append _ _, .outside rc => 0 ≤ rc
  | .releaseAppend _ _, _ | .appendSlot _ _ _, _ => True
  | _, _ => False

end HandlerPc

namespace LockServer

structure Placed (s : LockServer) (c : ℤ) : Prop where
  client : (∀ reply, s.handler c ≠ .returned reply) → c ≠ -1
  calls : (s.handler c).Calls (s.lock.pc c)
  acquired : (s.handler c).acquired (s.lock.pc c) = true →
    s.lock.holderId = c ∧ s.lock.firing = .asleep
  paused : (s.handler c).Paused (s.lock.pc c) → s.lock.guarded c = true

structure Exclusive (s : LockServer) : Prop where
  lock : s.lock.Inv
  placed : ∀ c, s.Placed c

/-- What of this holds whenever the timer fires. -/
structure Seated (s : LockServer) (c : ℤ) : Prop where
  client : (∀ reply, s.handler c ≠ .returned reply) → c ≠ -1
  calls : (s.handler c).Calls (s.lock.pc c)
  paused : (s.handler c).Paused (s.lock.pc c) → s.lock.guarded c = true

structure Steady (s : LockServer) : Prop where
  lock : s.lock.Inv
  seated : ∀ c, s.Seated c

/-- The timer does not fire on a client whose `handle_lock_acquire` is under
way. -/
def Unexpired (s : LockServer) : HandlerAction → Prop
  | .fire => s.lock.firing = .asleep →
      (s.handler s.lock.holderId).acquired (s.lock.pc s.lock.holderId) = false
  | _ => True

theorem Placed.seated {s : LockServer} {c : ℤ} (h : s.Placed c) : s.Seated c :=
  ⟨h.client, h.calls, h.paused⟩

theorem Exclusive.steady {s : LockServer} (h : s.Exclusive) : s.Steady :=
  ⟨h.lock, fun c => (h.placed c).seated⟩

theorem Steady.exclusive {s : LockServer} (h : s.Steady)
    (hacq : ∀ c, (s.handler c).acquired (s.lock.pc c) = true →
      s.lock.holderId = c ∧ s.lock.firing = .asleep) : s.Exclusive :=
  ⟨h.lock, fun c => ⟨(h.seated c).client, (h.seated c).calls, hacq c, (h.seated c).paused⟩⟩

theorem steady_init : init.Steady where
  lock := TimedLock.inv_init
  seated c :=
    { client := by simp [init]
      calls := ⟨0, rfl⟩
      paused := fun h => h.elim }

theorem exclusive_init : init.Exclusive :=
  steady_init.exclusive fun c h => absurd h (by simp [init, HandlerPc.acquired])

/-! ### The timer and the accesses to the lock -/

variable {s s' : LockServer} {c rc : ℤ}

theorem Steady.fire (h : s.Steady) {l : TimedLock} (hfire : s.lock.fire = some l) :
    { s with lock := l }.Steady := by
  obtain ⟨hpc, hguarded, -⟩ := TimedLock.fire_frame hfire
  refine ⟨TimedLock.fire_inv hfire h.lock, fun c => ⟨(h.seated c).client, ?_, ?_⟩⟩
  · simp only [hpc]
    exact (h.seated c).calls
  · simp only [hpc, hguarded]
    exact (h.seated c).paused

theorem Exclusive.fire (h : s.Exclusive) (hok : s.Unexpired .fire) {l : TimedLock}
    (hfire : s.lock.fire = some l) : { s with lock := l }.Exclusive := by
  refine (h.steady.fire hfire).exclusive fun c hacq => ?_
  -- nobody is in the middle of an acquire
  simp only [(TimedLock.fire_frame hfire).1] at hacq
  obtain ⟨hid, hasleep⟩ := (h.placed c).acquired hacq
  have hnot := hok hasleep
  rw [hid, hacq] at hnot
  exact absurd hnot (by simp)

section advance

variable {l l' : TimedLock} {p : HandlerPc} {op : LockOp}

theorem acquired_advance (hi : l.Inv) (hstep : l.Advances c l') (hop : p.calls = some op)
    (hcalls : TimedLock.within op (l.pc c) = true) (hacq : p.acquired (l'.pc c) = true) :
    l'.holderId = c ∧ l'.firing = .asleep := by
  cases p with
  | acquire =>
      simp only [HandlerPc.calls, Option.some.injEq] at hop
      subst hop
      unfold HandlerPc.acquired at hacq
      split at hacq <;> simp_all
      exact hstep.acquired hi hcalls ‹_› hacq
  | _ => simp_all [HandlerPc.calls, HandlerPc.acquired]

theorem paused_advance (hstep : l.Advances c l') (hop : p.calls = some op)
    (hcalls : TimedLock.within op (l.pc c) = true) (hp : p.Paused (l'.pc c)) :
    l'.guarded c = true := by
  unfold HandlerPc.Paused at hp
  split at hp
  · simp only [HandlerPc.calls, Option.some.injEq] at hop
    exact hstep.paused (hop ▸ hcalls) ‹_› hp
  · simp only [HandlerPc.calls, Option.some.injEq] at hop
    exact hstep.paused (hop ▸ hcalls) ‹_› hp
  · simp [HandlerPc.calls] at hop
  · simp [HandlerPc.calls] at hop
  · exact hp.elim

end advance

/-- A client with an access to the lock ahead waits for a call to return. -/
theorem Seated.waits (h : s.Seated c) (hin : ∀ rc, s.lock.pc c ≠ .outside rc) :
    ∃ op, (s.handler c).calls = some op ∧ TimedLock.within op (s.lock.pc c) = true := by
  have hcalls := h.calls
  unfold HandlerPc.Calls at hcalls
  cases hop : (s.handler c).calls with
  | some op =>
      rw [hop] at hcalls
      exact ⟨op, rfl, hcalls⟩
  | none =>
      rw [hop] at hcalls
      obtain ⟨rc, hrc⟩ := hcalls
      exact absurd hrc (hin rc)

theorem Steady.advance (h : s.Steady) {l : TimedLock} (hstep : s.lock.Advances c l) :
    { s with lock := l }.Steady := by
  obtain ⟨op, hop, hwithin⟩ := (h.seated c).waits hstep.inside
  refine ⟨hstep.inv h.lock, fun j => ?_⟩
  have hj := h.seated j
  by_cases hother : j = c
  · subst hother
    refine ⟨hj.client, ?_, fun hp => paused_advance hstep hop hwithin hp⟩
    simp only [HandlerPc.Calls, hop]
    exact hstep.stays hwithin
  · obtain ⟨hpc, hguarded⟩ := hstep.other hother
    refine ⟨hj.client, ?_, ?_⟩
    · simp only [hpc]
      exact hj.calls
    · simp only [hpc, hguarded]
      exact hj.paused

theorem Exclusive.advance (h : s.Exclusive) {l : TimedLock} (hstep : s.lock.Advances c l) :
    { s with lock := l }.Exclusive := by
  obtain ⟨op, hop, hwithin⟩ := (h.placed c).seated.waits hstep.inside
  refine (h.steady.advance hstep).exclusive fun j hacq => ?_
  by_cases hother : j = c
  · subst hother
    exact acquired_advance h.lock hstep hop hwithin hacq
  · simp only [(hstep.other hother).1] at hacq
    obtain ⟨hid, hasleep⟩ := (h.placed j).acquired hacq
    have hclient := (h.placed j).client
      (fun reply hret => by simp [hret, HandlerPc.acquired] at hacq)
    exact ⟨(hstep.holder_other h.lock hother hclient).mpr hid, hstep.firing.trans hasleep⟩

/-! ### The accesses outside the lock -/

/-- What a step of the handler of `c` outside the lock does to the handlers
and the lock: the handler goes on, or it calls the lock. Neither starts an
acquire or a pause that was not there, and a reset follows a pause. -/
inductive Moves (s : LockServer) (c rc : ℤ) (s' : LockServer) : Prop
  | goes (p : HandlerPc) (hhandler : s'.handler = Function.update s.handler c p)
      (hlock : s'.lock = s.lock) (hcalls : p.calls = none)
      (hacq : p.acquired (.outside rc) = true → (s.handler c).acquired (.outside rc) = true)
      (hpaused : p.Paused (.outside rc) → (s.handler c).Paused (.outside rc))
  | asks (p : HandlerPc) (op : LockOp) (hhandler : s'.handler = Function.update s.handler c p)
      (hlock : s'.lock = s.lock.goto c (TimedLock.start op)) (hcalls : p.calls = some op)
      (hreset : op = .resetIfOwner → (s.handler c).Paused (.outside rc))

/-- Moves to a place outside every acquire and pause. -/
theorem Moves.rest {p : HandlerPc} (hhandler : s'.handler = Function.update s.handler c p)
    (hlock : s'.lock = s.lock) (hcalls : p.calls = none)
    (hacq : p.acquired (.outside rc) = false) (hpaused : ¬ p.Paused (.outside rc)) :
    s.Moves c rc s' :=
  .goes p hhandler hlock hcalls (fun h => absurd (hacq.symm.trans h) (by simp))
    (fun h => absurd h hpaused)

theorem appendTurn_moves {filename buffer : Bytes} {i : ℕ}
    (hp : s.handler c = .appendSlot filename buffer i)
    (hstep : s.appendTurn c filename buffer i = some s') : s.Moves c rc s' := by
  have hpaused : (s.handler c).Paused (.outside rc) := by
    rw [hp]
    trivial
  simp only [LockServer.appendTurn] at hstep
  split_ifs at hstep <;> simp only [Option.some.injEq] at hstep <;> subst hstep
  · exact .asks _ .resetIfOwner rfl rfl rfl fun _ => hpaused
  · exact .asks _ .resetIfOwner rfl rfl rfl fun _ => hpaused
  · exact .goes _ rfl rfl rfl (by simp [HandlerPc.acquired]) fun _ => hpaused
  · exact .asks _ .resetIfOwner rfl rfl rfl fun _ => hpaused

theorem resume_moves {raft : RaftState} {out : Option LogEntry}
    (hstep : s.resume raft c rc = some (s', out)) : s.Moves c rc s' := by
  unfold LockServer.resume at hstep
  cases hp : s.handler c with
  | returned reply => simp [hp] at hstep
  | acquire =>
      simp only [hp] at hstep
      split_ifs at hstep with hneg <;> simp only [Option.some.injEq, Prod.mk.injEq] at hstep <;>
        obtain ⟨rfl, -⟩ := hstep
      · exact .rest rfl rfl rfl rfl not_false
      · exact .goes _ rfl rfl rfl (fun _ => hp ▸ decide_eq_true (not_lt.mp hneg)) fun hf => hf.elim
  | acquireClear k =>
      simp only [hp] at hstep
      split_ifs at hstep <;> simp only [Option.some.injEq, Prod.mk.injEq] at hstep <;>
        obtain ⟨rfl, -⟩ := hstep <;> exact .goes _ rfl rfl rfl (fun _ => hp ▸ rfl) fun hf => hf.elim
  | acquireClient | acquireId | acquireTerm =>
      simp only [hp, Option.some.injEq, Prod.mk.injEq] at hstep
      obtain ⟨rfl, -⟩ := hstep
      exact .goes _ rfl rfl rfl (fun _ => hp ▸ rfl) fun hf => hf.elim
  | acquireTag term =>
      simp only [hp, Option.some.injEq, Prod.mk.injEq] at hstep
      obtain ⟨rfl, -⟩ := hstep
      exact .rest rfl rfl rfl rfl not_false
  | release term id =>
      simp only [hp] at hstep
      split_ifs at hstep <;> simp only [Option.some.injEq, Prod.mk.injEq] at hstep <;>
        obtain ⟨rfl, -⟩ := hstep
      · exact .asks _ .pauseIfOwner rfl rfl rfl (by simp)
      · exact .rest rfl rfl rfl rfl not_false
  | releasePause term id =>
      simp only [hp] at hstep
      split_ifs at hstep with hzero <;> simp only [Option.some.injEq, Prod.mk.injEq] at hstep <;>
        obtain ⟨rfl, -⟩ := hstep
      · exact .goes _ rfl rfl rfl (by simp [HandlerPc.acquired]) fun _ => hp ▸ le_of_eq hzero.symm
      · exact .asks _ .release rfl rfl rfl (by simp)
  | releaseAppend term id =>
      simp only [hp, Option.some.injEq, Prod.mk.injEq] at hstep
      obtain ⟨rfl, -⟩ := hstep
      exact .asks _ .resetIfOwner rfl rfl rfl fun _ => hp ▸ trivial
  | releaseReset term id =>
      simp only [hp, Option.some.injEq, Prod.mk.injEq] at hstep
      obtain ⟨rfl, -⟩ := hstep
      exact .asks _ .release rfl rfl rfl (by simp)
  | releaseUnlock term id =>
      simp only [hp] at hstep
      split_ifs at hstep <;> simp only [Option.some.injEq, Prod.mk.injEq] at hstep <;>
        obtain ⟨rfl, -⟩ := hstep <;> exact .rest rfl rfl rfl rfl not_false
  | releasePoll term id =>
      simp only [hp] at hstep
      split_ifs at hstep <;> simp only [Option.some.injEq, Prod.mk.injEq] at hstep <;>
        obtain ⟨rfl, -⟩ := hstep
      · exact .rest (Function.update_eq_self c s.handler).symm rfl (hp ▸ rfl) (hp ▸ rfl)
          (hp ▸ not_false)
      all_goals exact .rest rfl rfl rfl rfl not_false
  | append filename buffer =>
      simp only [hp] at hstep
      split_ifs at hstep with hneg <;> simp only [Option.some.injEq, Prod.mk.injEq] at hstep <;>
        obtain ⟨rfl, -⟩ := hstep
      · exact .rest rfl rfl rfl rfl not_false
      · exact .goes _ rfl rfl rfl (by simp [HandlerPc.acquired]) fun _ => hp ▸ not_lt.mp hneg
  | appendSlot filename buffer i =>
      simp only [hp, Option.map_eq_some_iff, Prod.mk.injEq] at hstep
      obtain ⟨s₁, hturn, rfl, -⟩ := hstep
      exact appendTurn_moves hp hturn
  | appendReset filename buffer result =>
      simp only [hp] at hstep
      split_ifs at hstep <;> simp only [Option.some.injEq, Prod.mk.injEq] at hstep <;>
        obtain ⟨rfl, -⟩ := hstep <;> exact .rest rfl rfl rfl rfl not_false

/-- A call that has just been made has not returned. -/
theorem Seated.calling {p : HandlerPc} {op : LockOp} (hc : c ≠ -1) (hp : s.handler c = p)
    (hpc : s.lock.pc c = TimedLock.start op) (hcalls : p.calls = some op) : s.Seated c := by
  subst hp
  refine ⟨fun _ => hc, ?_, fun hpaused => ?_⟩
  · simp only [HandlerPc.Calls, hcalls, hpc]
    cases op <;> rfl
  · rw [hpc] at hpaused
    cases hq : s.handler c <;> cases op <;>
      simp_all [HandlerPc.Paused, HandlerPc.calls, TimedLock.start]

theorem not_acquired_calling {p : HandlerPc} {op : LockOp} (hcalls : p.calls = some op) :
    p.acquired (TimedLock.start op) = false := by
  cases p <;> cases op <;> simp_all [HandlerPc.acquired, HandlerPc.calls, TimedLock.start]

theorem Steady.moves (h : s.Steady) (hc : c ≠ -1) (hrc : s.lock.pc c = .outside rc)
    (hm : s.Moves c rc s') : s'.Steady := by
  have hs := h.seated c
  have hother : ∀ j, s'.handler j = s.handler j → s'.lock.pc j = s.lock.pc j →
      s'.lock.guarded = s.lock.guarded → s'.Seated j := by
    intro j hhandler hpc hguarded
    obtain ⟨hclient, hcalls, hpaused⟩ := h.seated j
    rw [← hhandler] at hclient
    rw [← hhandler, ← hpc] at hcalls hpaused
    exact ⟨hclient, hcalls, fun hp => hguarded ▸ hpaused hp⟩
  cases hm with
  | goes p hhandler hlock hcalls hacq hpaused =>
      refine ⟨hlock ▸ h.lock, fun j => ?_⟩
      by_cases hj : j = c
      · subst hj
        have hp : s'.handler j = p := by rw [hhandler, Function.update_self]
        refine ⟨fun _ => hc, ?_, ?_⟩
        · simp only [HandlerPc.Calls, hp, hcalls, hlock]
          exact ⟨rc, hrc⟩
        · rw [hp, hlock, hrc]
          exact fun h => hs.paused (hrc ▸ hpaused h)
      · exact hother j (by rw [hhandler, Function.update_of_ne hj]) (by rw [hlock]) (by rw [hlock])
  | asks p op hhandler hlock hcalls hreset =>
      refine ⟨hlock ▸ h.lock.enter hc hrc fun hop => hs.paused (hrc ▸ hreset hop), fun j => ?_⟩
      by_cases hj : j = c
      · subst hj
        exact .calling hc (by rw [hhandler, Function.update_self]) (by simp [hlock]) hcalls
      · exact hother j (by rw [hhandler, Function.update_of_ne hj]) (by simp [hlock, hj])
          (by simp [hlock])

theorem Exclusive.moves (h : s.Exclusive) (hc : c ≠ -1) (hrc : s.lock.pc c = .outside rc)
    (hm : s.Moves c rc s') : s'.Exclusive := by
  refine (h.steady.moves hc hrc hm).exclusive fun j hacq => ?_
  cases hm with
  | goes p hhandler hlock hcalls hacq' hpaused =>
      rw [hlock]
      refine (h.placed j).acquired ?_
      rw [hhandler, hlock, Function.update_apply] at hacq
      split_ifs at hacq with hj
      · subst hj
        rw [hrc] at hacq ⊢
        exact hacq' hacq
      · exact hacq
  | asks p op hhandler hlock hcalls hreset =>
      rw [hhandler, hlock, Function.update_apply, TimedLock.goto_pc] at hacq
      split_ifs at hacq with hj
      · exact absurd hacq (by simp [not_acquired_calling hcalls])
      · rw [hlock]
        exact (h.placed j).acquired hacq

theorem Steady.resume (h : s.Steady) {raft : RaftState} {out : Option LogEntry}
    (hstep : s.resume raft c rc = some (s', out)) : c ≠ -1 ∧ s.Moves c rc s' := by
  refine ⟨(h.seated c).client fun reply hret => ?_, resume_moves hstep⟩
  simp [LockServer.resume, hret] at hstep

theorem Exclusive.resume (h : s.Exclusive) {raft : RaftState} {out : Option LogEntry}
    (hrc : s.lock.pc c = .outside rc) (hstep : s.resume raft c rc = some (s', out)) :
    s'.Exclusive := by
  obtain ⟨hc, hm⟩ := h.steady.resume hstep
  exact h.moves hc hrc hm

theorem accept_moves {request : LockRequest} (hstep : s.accept c request = some s') :
    c ≠ -1 ∧ (∃ reply, s.handler c = .returned reply) ∧ ∀ rc, s.Moves c rc s' := by
  unfold LockServer.accept at hstep
  split at hstep
  · rename_i reply hp
    split_ifs at hstep with hc
    simp only [Option.some.injEq] at hstep
    subst hstep
    refine ⟨hc, ⟨reply, hp⟩, fun rc => ?_⟩
    cases request with
    | acquire => exact .asks _ .acquire rfl rfl rfl (by simp)
    | release term id => exact .rest rfl rfl rfl rfl not_false
    | append filename buffer => exact .asks _ .pauseIfOwner rfl rfl rfl (by simp)
  · exact absurd hstep (by simp)

/-- A client without a running handler is outside the lock. -/
theorem Seated.outside (h : s.Seated c) {reply : Reply} (hp : s.handler c = .returned reply) :
    ∃ rc, s.lock.pc c = .outside rc := by
  have hcalls := h.calls
  simp only [HandlerPc.Calls, HandlerPc.calls, hp] at hcalls
  exact hcalls

theorem Steady.accept (h : s.Steady) {request : LockRequest}
    (hstep : s.accept c request = some s') : s'.Steady := by
  obtain ⟨hc, ⟨reply, hp⟩, hm⟩ := accept_moves hstep
  obtain ⟨rc, hrc⟩ := (h.seated c).outside hp
  exact h.moves hc hrc (hm rc)

theorem Exclusive.accept (h : s.Exclusive) {request : LockRequest}
    (hstep : s.accept c request = some s') : s'.Exclusive := by
  obtain ⟨hc, ⟨reply, hp⟩, hm⟩ := accept_moves hstep
  obtain ⟨rc, hrc⟩ := (h.placed c).seated.outside hp
  exact h.moves hc hrc (hm rc)

/-- A step is one of the lock that the handler has called, or the handler
goes on. -/
theorem step_cases {raft : RaftState} {out : Option LogEntry}
    (hstep : s.step raft c = some (s', out)) :
    (∃ rc, s.lock.pc c = .outside rc ∧ s.resume raft c rc = some (s', out)) ∨
    (∃ l, s.lock.advance c = some l ∧ s' = { s with lock := l } ∧ out = none) := by
  unfold LockServer.step at hstep
  split at hstep
  · rename_i rc hrc
    exact Or.inl ⟨rc, hrc, hstep⟩
  · simp only [Option.map_eq_some_iff, Prod.mk.injEq] at hstep
    obtain ⟨l, hl, rfl, rfl⟩ := hstep
    exact Or.inr ⟨l, hl, rfl, rfl⟩

theorem Steady.step (h : s.Steady) {raft : RaftState} {out : Option LogEntry}
    (hstep : s.step raft c = some (s', out)) : s'.Steady := by
  rcases step_cases hstep with ⟨rc, hrc, hresume⟩ | ⟨l, hl, rfl, -⟩
  · obtain ⟨hc, hm⟩ := h.resume hresume
    exact h.moves hc hrc hm
  · exact h.advance (TimedLock.advance_cases hl)

theorem Exclusive.step (h : s.Exclusive) {raft : RaftState} {out : Option LogEntry}
    (hstep : s.step raft c = some (s', out)) : s'.Exclusive := by
  rcases step_cases hstep with ⟨rc, hrc, hresume⟩ | ⟨l, hl, rfl, -⟩
  · exact h.resume hrc hresume
  · exact h.advance (TimedLock.advance_cases hl)

/-- Only one client at a time is in the middle of an acquire. -/
theorem Exclusive.acquired_unique (h : s.Exclusive) {j : ℤ}
    (hc : (s.handler c).acquired (s.lock.pc c) = true)
    (hj : (s.handler j).acquired (s.lock.pc j) = true) : c = j :=
  ((h.placed c).acquired hc).1.symm.trans ((h.placed j).acquired hj).1

end LockServer

end RaftLock

import RaftLock.Lock.Isolation
import RaftLock.Lock.Threads

/-!
No handler is stuck.

A handler waits in two places only: for the timer thread, which has the timer's
lock while it fires, and for the lock flag. The first wait ends by itself. The
flag belongs to a client that gives it back in its own time, or to a holder
whose handler has returned; then the timer takes it away, once nobody owes the
timer anything. Since every pause is undone by the handler that has made it,
only clients in the middle of a pause can owe something, and they pay.
-/

namespace RaftLock

/-! ### What is left of a call -/

/-- The accesses that are left of an operation of the lock, at most. -/
def LockPc.left : LockPc → ℕ
  | .outside _ => 0
  | .acquireReset | .pauseResume _ | .releaseSwap | .resetTimer => 1
  | .acquireHold | .releaseHold | .resetCheck => 2
  | .acquireSwap | .pauseRecheck _ => 3
  | .acquireCheck | .pauseDisable _ => 4
  | .pauseCheck _ => 5

/-- The accesses of the timer thread until it sleeps. -/
def TimerPc.left : TimerPc → ℕ
  | .asleep => 0
  | .freeing => 1
  | .withdrawing => 2
  | .asserting => 3

/-- The stages that are left of a handler. -/
def HandlerPc.stages : HandlerPc → ℕ
  | .returned _ => 0
  | .acquireTag _ | .releasePoll _ _ | .appendReset _ _ _ => 1
  | .acquireTerm | .releaseUnlock _ _ => 2
  | .acquireId | .releaseReset _ _ => 3
  | .acquireClient | .releaseAppend _ _ => 4
  | .releasePause _ _ => 5
  | .release _ _ => 6
  | .acquireClear k => 5 + (maxTransactionEntries - k)
  | .acquire => 6 + maxTransactionEntries
  | .appendSlot _ _ i => 2 + (maxTransactionEntries - i)
  | .append _ _ => 3 + maxTransactionEntries

namespace TimedLock

variable {l l' : TimedLock} {o : Owner} {id : ℤ}

theorem Advances.left (h : l.Advances id l') (hswap : l.pc id ≠ .acquireSwap) :
    (l'.pc id).left < (l.pc id).left := by
  cases h with
  | spins hpc | takes hpc => exact absurd hpc hswap
  | _ => simp [*, LockPc.left]

/-- Only the timer thread stops a client in an operation. -/
theorem advance_of_asleep (hasleep : l.firing = .asleep) (hin : ∀ rc, l.pc id ≠ .outside rc) :
    ∃ l', l.advance id = some l' := by
  unfold advance
  cases hpc : l.pc id with
  | outside rc => exact absurd hpc (hin rc)
  | acquireSwap | pauseRecheck releasing | resetCheck =>
      simp only
      split_ifs <;> exact ⟨_, rfl⟩
  | _ =>
      simp only [hasleep, if_true]
      exact ⟨_, rfl⟩

theorem refusal_neg (releasing : Bool) : refusal releasing < 0 := by
  cases releasing <;> decide

/-- The timer thread goes on until it sleeps: the holder it asserts is there. -/
theorem Inv.fire (hi : l.Inv) (hf : l.firing ≠ .asleep) :
    ∃ l', l.fire = some l' ∧ l'.firing.left < l.firing.left ∧
      (l'.firing = .asleep → l'.lockFlag = 0) := by
  obtain ⟨o, hown, -⟩ := hi
  have hflag : l.lockFlag = 1 ∨ l.lockFlag = 0 := by
    rw [hown.flag]
    split_ifs
    · exact Or.inr rfl
    · exact Or.inl rfl
  cases hpc : l.firing with
  | asleep => exact absurd hpc hf
  | asserting =>
      obtain ⟨id, hid, -⟩ := hown.fired (Or.inl hpc)
      have hholder : l.holderId ≠ -1 := by
        rw [hown.holderId, hid]
        exact hown.client id (Or.inl hid)
      refine ⟨{ l with firing := .withdrawing }, ?_, Nat.lt_succ_self 2,
        fun h => absurd h (by simp)⟩
      simp only [TimedLock.fire, hpc]
      exact if_pos hholder
  | withdrawing =>
      refine ⟨{ l with holderId := -1, firing := .freeing }, ?_, Nat.lt_succ_self 1,
        fun h => absurd h (by simp)⟩
      simp only [TimedLock.fire, hpc]
  | freeing =>
      refine ⟨{ l with lockFlag := if l.lockFlag = 1 then 0 else l.lockFlag, firing := .asleep },
        ?_, Nat.lt_succ_self 0, fun _ => ?_⟩
      · simp only [TimedLock.fire, hpc]
      · rcases hflag with h | h <;> simp [h]

theorem Advances.other_paused (h : l.Advances id l') {j : ℤ} (hj : j ≠ id) :
    l'.paused j = l.paused j := by
  cases h <;> simp [hj]

theorem fire_paused (h : l.fire = some l') : l'.paused = l.paused := by
  unfold fire at h
  cases hf : l.firing <;> simp only [hf] at h <;> (try split_ifs at h) <;>
    simp only [Option.some.injEq] at h <;> subst h <;> rfl

end TimedLock

/-! ### Who has paused -/

/-- The handler has a pause to undo, or is undoing it. -/
def HandlerPc.Suspends (p : HandlerPc) (q : LockPc) : Prop :=
  p.Paused q ∨ q = .resetCheck ∨ q = .resetTimer

theorem HandlerPc.suspends_call {p : HandlerPc} {q : LockPc} {op : LockOp}
    (hop : p.calls = some op) : p.Suspends q ↔ q = .resetCheck ∨ q = .resetTimer ∨
      (op = .pauseIfOwner ∧ ∃ rc, 0 ≤ rc ∧ q = .outside rc) := by
  have hpaused : p.Paused q ↔ op = .pauseIfOwner ∧ ∃ rc, 0 ≤ rc ∧ q = .outside rc := by
    cases p <;> simp only [HandlerPc.calls, Option.some.injEq, reduceCtorEq] at hop <;>
      subst hop <;> cases q <;> simp [HandlerPc.Paused]
  unfold HandlerPc.Suspends
  rw [hpaused]
  exact or_rotate

namespace LockServer

/-- What a client has taken from the timer it gives back, and it does not wait
for a lock of its own. -/
structure Settled (s : LockServer) (c : ℤ) : Prop where
  guarded : (s.handler c).Suspends (s.lock.pc c) → s.lock.guarded c = true
  one : (s.handler c).Suspends (s.lock.pc c) → s.lock.paused c = 1
  none : ¬ (s.handler c).Suspends (s.lock.pc c) → s.lock.paused c = 0
  waiting : s.lock.pc c = .acquireSwap → s.lock.holderId ≠ c
  code : ∀ rc, s.lock.pc c = .outside rc → rc ≤ 0

variable {s s' : LockServer} {c j rc : ℤ} {raft : RaftState} {l : TimedLock} {op : LockOp}

theorem settled_init : init.Settled c where
  guarded h := by simp [init, TimedLock.init, HandlerPc.Suspends, HandlerPc.Paused] at h
  one h := by simp [init, TimedLock.init, HandlerPc.Suspends, HandlerPc.Paused] at h
  none _ := rfl
  waiting h := by simp [init, TimedLock.init] at h
  code rc h := by simp [init, TimedLock.init] at h; omega

theorem Settled.congr (h : s.Settled c) (hhandler : s'.handler c = s.handler c)
    (hpc : s'.lock.pc c = s.lock.pc c) (hguarded : s'.lock.guarded c = s.lock.guarded c)
    (hpaused : s'.lock.paused c = s.lock.paused c)
    (hholder : s.lock.pc c = .acquireSwap → s'.lock.holderId ≠ c) : s'.Settled c := by
  obtain ⟨h1, h2, h3, -, h5⟩ := h
  refine ⟨?_, ?_, ?_, ?_, ?_⟩
  · rw [hhandler, hpc, hguarded]
    exact h1
  · rw [hhandler, hpc, hpaused]
    exact h2
  · rw [hhandler, hpc, hpaused]
    exact h3
  · rw [hpc]
    exact hholder
  · rw [hpc]
    exact h5

/-- An access of the client's own. -/
theorem Settled.advance (h : s.Settled c) (hi : s.lock.Inv)
    (hop : (s.handler c).calls = some op) (hwithin : TimedLock.within op (s.lock.pc c) = true)
    (hadv : s.lock.advance c = some l) : ({ s with lock := l } : LockServer).Settled c := by
  obtain ⟨hguarded, hone, hnone, hwaiting, hcode⟩ := h
  have hsuspends := fun q => HandlerPc.suspends_call (q := q) hop
  have hholder : s.lock.guarded c = true → s.lock.holderId = c := hi.holder_of_guarded
  have hstep := TimedLock.advance_cases hadv
  cases hstep with
  | tries hpc =>
      have hid : s.lock.holderId ≠ c := by
        intro hid
        simp only [TimedLock.advance, hpc, if_pos hid] at hadv
        exact absurd (congrArg (fun l => l.pc c) (Option.some.inj hadv)) (by simp)
      constructor <;> grind -linarith
  | fails hpc =>
      -- the pause is in force, so the check does not fail
      have hid : s.lock.holderId = c := hholder (hguarded (Or.inr (Or.inl hpc)))
      simp only [TimedLock.advance, hpc] at hadv
      rw [if_neg (not_not.mpr hid)] at hadv
      exact absurd (congrArg (fun l => l.pc c) (Option.some.inj hadv)) (by simp)
  | pauses hpc hid =>
      have hpause : op = .pauseIfOwner := by
        rw [hpc] at hwithin
        cases op <;> simp_all [TimedLock.within]
      have hnow : (s.handler c).Suspends (.outside 0) :=
        (hsuspends _).mpr (Or.inr (Or.inr ⟨hpause, 0, le_rfl, rfl⟩))
      have hbefore : ¬ (s.handler c).Suspends (s.lock.pc c) := by
        rw [hpc, hsuspends]
        simp
      constructor <;> grind -linarith [Function.update_apply]
  | _ =>
      have hrefusal := TimedLock.refusal_neg
      constructor <;> grind -linarith [TimedLock.within, Function.update_apply]

/-- The next turn of the loop is in the pause, or calls the reset. -/
theorem appendTurn_suspends {filename buffer : Bytes} {i : ℕ}
    (hstep : s.appendTurn c filename buffer i = some s') :
    (s'.handler c).Suspends (s'.lock.pc c) := by
  simp only [LockServer.appendTurn] at hstep
  split_ifs at hstep <;> simp only [Option.some.injEq] at hstep <;> subst hstep
  · exact Or.inr (Or.inl (by simp [endAppend, TimedLock.start]))
  · exact Or.inr (Or.inl (by simp [endAppend, TimedLock.start]))
  · exact Or.inl (by simp [HandlerPc.Paused])
  · exact Or.inr (Or.inl (by simp [endAppend, TimedLock.start]))

/-- Outside the lock a handler neither forgets a pause nor makes one up. -/
theorem resume_suspends {out : Option LogEntry} (hpc : s.lock.pc c = .outside rc) (hrc : rc ≤ 0)
    (hstep : s.resume raft c rc = some (s', out)) :
    (s'.handler c).Suspends (s'.lock.pc c) ↔ (s.handler c).Suspends (s.lock.pc c) := by
  have hbefore : (s.handler c).Suspends (s.lock.pc c) ↔ (s.handler c).Paused (.outside rc) := by
    rw [hpc]
    simp [HandlerPc.Suspends]
  rw [hbefore]
  unfold LockServer.resume at hstep
  cases hp : s.handler c with
  | appendSlot filename buffer i =>
      simp only [hp, Option.map_eq_some_iff, Prod.mk.injEq] at hstep
      obtain ⟨s₁, hturn, rfl, -⟩ := hstep
      exact iff_of_true (appendTurn_suspends hturn) trivial
  | returned reply => simp [hp] at hstep
  | _ =>
      simp only [hp] at hstep
      (try split_ifs at hstep) <;> simp only [Option.some.injEq, Prod.mk.injEq] at hstep <;>
        obtain ⟨rfl, -⟩ := hstep <;>
        simp [HandlerPc.Suspends, HandlerPc.Paused, TimedLock.start, goto, setSlot, *] <;> omega

/-- A step of the handler of `c` outside the lock leaves most of the lock
alone. -/
theorem Moves.frame (hm : s.Moves c rc s') : s'.lock.guarded = s.lock.guarded ∧
    s'.lock.paused = s.lock.paused ∧ s'.lock.holderId = s.lock.holderId ∧
    s'.lock.firing = s.lock.firing ∧
    ∀ j, j ≠ c → s'.handler j = s.handler j ∧ s'.lock.pc j = s.lock.pc j := by
  cases hm with
  | goes p hhandler hlock =>
      refine ⟨by rw [hlock], by rw [hlock], by rw [hlock], by rw [hlock], fun j hj => ⟨?_, ?_⟩⟩
      · rw [hhandler, Function.update_of_ne hj]
      · rw [hlock]
  | asks p op hhandler hlock =>
      refine ⟨by rw [hlock]; rfl, by rw [hlock]; rfl, by rw [hlock]; rfl, by rw [hlock]; rfl,
        fun j hj => ⟨?_, ?_⟩⟩
      · rw [hhandler, Function.update_of_ne hj]
      · rw [hlock, TimedLock.goto_pc, if_neg hj]

theorem Moves.pc (hm : s.Moves c rc s') (hrc : s.lock.pc c = .outside rc) :
    s'.lock.pc c = .outside rc ∨ ∃ op, s'.lock.pc c = TimedLock.start op := by
  cases hm with
  | goes p hhandler hlock => exact Or.inl (hlock ▸ hrc)
  | asks p op hhandler hlock => exact Or.inr ⟨op, by simp [hlock]⟩

theorem Settled.moves (h : s.Settled c) (hrc : s.lock.pc c = .outside rc) (hm : s.Moves c rc s')
    (hsuspends : (s'.handler c).Suspends (s'.lock.pc c) ↔
      (s.handler c).Suspends (s.lock.pc c)) : s'.Settled c := by
  obtain ⟨hguarded, hpaused, -⟩ := hm.frame
  refine ⟨?_, ?_, ?_, ?_, ?_⟩
  · rw [hsuspends, hguarded]
    exact h.guarded
  · rw [hsuspends, hpaused]
    exact h.one
  · rw [hsuspends, hpaused]
    exact h.none
  · rcases hm.pc hrc with hpc | ⟨op, hpc⟩ <;> rw [hpc]
    · simp
    · cases op <;> simp [TimedLock.start]
  · rcases hm.pc hrc with hpc | ⟨op, hpc⟩ <;> rw [hpc]
    · rintro _ ⟨⟩
      exact h.code rc hrc
    · cases op <;> simp [TimedLock.start]

structure Tidy (s : LockServer) : Prop where
  steady : s.Steady
  settled : ∀ c, s.Settled c

theorem tidy_init : init.Tidy := ⟨steady_init, fun _ => settled_init⟩

theorem Tidy.moves (h : s.Tidy) (hc : c ≠ -1) (hrc : s.lock.pc c = .outside rc)
    (hm : s.Moves c rc s') (hsuspends : (s'.handler c).Suspends (s'.lock.pc c) ↔
      (s.handler c).Suspends (s.lock.pc c)) : s'.Tidy := by
  refine ⟨h.steady.moves hc hrc hm, fun j => ?_⟩
  rcases eq_or_ne j c with rfl | hj
  · exact (h.settled j).moves hrc hm hsuspends
  · obtain ⟨hguarded, hpaused, hholder, -, hothers⟩ := hm.frame
    obtain ⟨hhandler, hpc⟩ := hothers j hj
    exact (h.settled j).congr hhandler hpc (by rw [hguarded]) (by rw [hpaused])
      fun hswap => hholder ▸ (h.settled j).waiting hswap

theorem Tidy.resume {out : Option LogEntry} (h : s.Tidy) (hrc : s.lock.pc c = .outside rc)
    (hstep : s.resume raft c rc = some (s', out)) : s'.Tidy := by
  obtain ⟨hc, hm⟩ := h.steady.resume hstep
  exact h.moves hc hrc hm (resume_suspends hrc ((h.settled c).code rc hrc) hstep)

/-- A client in an operation of the lock is a client with a running handler. -/
theorem Tidy.client (h : s.Tidy) (hin : ∀ rc, s.lock.pc c ≠ .outside rc) : c ≠ -1 := by
  obtain ⟨op, hop, -⟩ := (h.steady.seated c).waits hin
  exact (h.steady.seated c).client fun reply hret => by simp [hret, HandlerPc.calls] at hop

theorem Tidy.advance (h : s.Tidy) (hadv : s.lock.advance c = some l) :
    ({ s with lock := l } : LockServer).Tidy := by
  have hstep := TimedLock.advance_cases hadv
  refine ⟨h.steady.advance hstep, fun j => ?_⟩
  rcases eq_or_ne j c with rfl | hj
  · obtain ⟨op, hop, hwithin⟩ := (h.steady.seated j).waits hstep.inside
    exact (h.settled j).advance h.steady.lock hop hwithin hadv
  · obtain ⟨hpc, hguarded⟩ := hstep.other hj
    refine (h.settled j).congr rfl hpc hguarded (hstep.other_paused hj) fun hswap => ?_
    have hclient : j ≠ -1 := h.client fun rc hrc => by simp [hswap] at hrc
    rw [ne_eq, show ({ s with lock := l } : LockServer).lock = l from rfl,
      hstep.holder_other h.steady.lock hj hclient]
    exact (h.settled j).waiting hswap

theorem Tidy.fire (h : s.Tidy) (hfire : s.lock.fire = some l) :
    ({ s with lock := l } : LockServer).Tidy := by
  obtain ⟨hpc, hguarded, hholder⟩ := TimedLock.fire_frame hfire
  refine ⟨h.steady.fire hfire, fun j => (h.settled j).congr rfl (by rw [hpc]) (by rw [hguarded])
    (by rw [TimedLock.fire_paused hfire]) fun hswap => ?_⟩
  rcases hholder with hsame | hgone
  · exact hsame ▸ (h.settled j).waiting hswap
  · exact hgone ▸ (h.client fun rc hrc => by simp [hswap] at hrc).symm

theorem Tidy.accept {request : LockRequest} (h : s.Tidy) (hstep : s.accept c request = some s') :
    s'.Tidy := by
  obtain ⟨hc, ⟨reply, hp⟩, hm⟩ := accept_moves hstep
  obtain ⟨rc, hrc⟩ := (h.steady.seated c).outside hp
  have hbefore : ¬ (s.handler c).Suspends (s.lock.pc c) := by
    rw [hp, hrc]
    simp [HandlerPc.Suspends, HandlerPc.Paused]
  refine h.moves hc hrc (hm rc) (iff_of_false ?_ hbefore)
  unfold LockServer.accept at hstep
  rw [hp] at hstep
  simp only [if_neg hc, Option.some.injEq] at hstep
  subst hstep
  cases request <;> simp [HandlerPc.Suspends, HandlerPc.Paused, TimedLock.start, goto, hrc]

theorem Tidy.step {out : Option LogEntry} (h : s.Tidy) (hstep : s.step raft c = some (s', out)) :
    s'.Tidy := by
  rcases step_cases hstep with ⟨rc, hrc, hresume⟩ | ⟨l, hl, rfl, -⟩
  · exact h.resume hrc hresume
  · exact h.advance hl

theorem Tidy.exec {x : HandlerAction} (h : s.Tidy) (hx : s.exec x = some s') : s'.Tidy := by
  cases x with
  | accept c request => exact h.accept hx
  | step c raft =>
      obtain ⟨⟨s', out⟩, hstep, rfl⟩ := Option.map_eq_some_iff.mp hx
      exact h.step hstep
  | fire =>
      obtain ⟨l, hl, rfl⟩ := Option.map_eq_some_iff.mp hx
      exact h.fire hl

/-! ### Running handlers to their end -/

/-- Steps of the handlers that run and of the timer: no request comes in, and
the Raft module stays as it is. -/
def Finishing (raft : RaftState) (_ : LockServer) : HandlerAction → Prop
  | .accept _ _ => False
  | .step _ r => r = raft
  | .fire => True

/-- The string that is to be copied does not fit. -/
def Overruns (s : LockServer) (c : ℤ) : Prop :=
  ∃ filename buffer i, s.handler c = .appendSlot filename buffer i ∧
    s.appendTurn c filename buffer i = none

theorem appendTurn_none {filename buffer : Bytes} {i : ℕ}
    (heq : s'.currentLogEntry = s.currentLogEntry) :
    s'.appendTurn c filename buffer i = none ↔ s.appendTurn c filename buffer i = none := by
  simp only [LockServer.appendTurn, heq]
  split_ifs <;> simp

/-- The handler of `c` has returned, or it asks for an entry that is not decided
yet. -/
def Rests (raft : RaftState) (s : LockServer) (c : ℤ) : Prop :=
  (∃ reply, s.handler c = .returned reply) ∨
    ∃ term id, s.handler c = .releasePoll term id ∧ isEntryCommitted raft term id = 0

/-- The handler of `c` cannot go on by itself. -/
def Stops (raft : RaftState) (s : LockServer) (c : ℤ) : Prop :=
  s.lock.pc c = .acquireSwap ∨ s.Rests raft c ∨ s.Overruns c

/-- What is left of the handler of `c`, at most. -/
def left (s : LockServer) (c : ℤ) : ℕ := 6 * (s.handler c).stages + (s.lock.pc c).left

/-- Only the handler of `c` and the timer have moved. -/
structure Only (s : LockServer) (c : ℤ) (s' : LockServer) : Prop where
  handler : ∀ j, j ≠ c → s'.handler j = s.handler j
  pc : ∀ j, j ≠ c → s'.lock.pc j = s.lock.pc j
  holder : s'.lock.holderId = s.lock.holderId ∨ s'.lock.holderId = -1 ∨ s'.lock.holderId = c

theorem Only.refl (s : LockServer) (c : ℤ) : s.Only c s :=
  ⟨fun _ _ => rfl, fun _ _ => rfl, .inl rfl⟩

theorem Only.trans {s₁ : LockServer} (h : s.Only c s₁) (h' : s₁.Only c s') : s.Only c s' := by
  refine ⟨fun j hj => (h'.handler j hj).trans (h.handler j hj),
    fun j hj => (h'.pc j hj).trans (h.pc j hj), ?_⟩
  rcases h'.holder with hsame | hgone
  · exact hsame ▸ h.holder
  · exact Or.inr hgone

theorem Tidy.steps (h : s.Tidy) (hs : Machine.Steps LockServer.exec (Finishing raft) s s') :
    s'.Tidy :=
  hs.invariant (fun _ _ _ h _ hx => h.exec hx) h

theorem Only.fire (hl : s.lock.fire = some l) (c : ℤ) :
    s.Only c { s with lock := l } := by
  obtain ⟨hpc, -, hholder⟩ := TimedLock.fire_frame hl
  exact ⟨fun _ _ => rfl, fun j _ => congrFun hpc j, hholder.imp_right Or.inl⟩

/-- The timer thread finishes what it has begun, and the flag is clear then. -/
theorem Tidy.sleeps (h : s.Tidy) (raft : RaftState) (c : ℤ) :
    ∃ l, Machine.Steps LockServer.exec (Finishing raft) s { s with lock := l } ∧
      l.firing = .asleep ∧ l.pc = s.lock.pc ∧ s.Only c { s with lock := l } ∧
      (l = s.lock ∨ l.lockFlag = 0) := by
  obtain ⟨m, hm⟩ : ∃ m, s.lock.firing.left ≤ m := ⟨_, le_rfl⟩
  induction m generalizing s with
  | zero =>
      have hasleep : s.lock.firing = .asleep := by
        cases hf : s.lock.firing <;> simp_all [TimerPc.left]
      exact ⟨s.lock, .refl, hasleep, rfl, .refl s c, Or.inl rfl⟩
  | succ m ih =>
      by_cases hasleep : s.lock.firing = .asleep
      · exact ⟨s.lock, .refl, hasleep, rfl, .refl s c, Or.inl rfl⟩
      obtain ⟨l, hl, hless, hflag⟩ := h.steady.lock.fire hasleep
      have hx : s.exec .fire = some { s with lock := l } := by
        simp only [LockServer.exec, hl, Option.map_some]
      obtain ⟨l', hsteps, hasleep', hpc, honly, hdone⟩ := ih (h.fire hl)
        (show l.firing.left ≤ m by omega)
      refine ⟨l', .head ⟨.fire, trivial, hx⟩ hsteps, hasleep',
        hpc.trans (TimedLock.fire_frame hl).1, (Only.fire hl c).trans honly, Or.inr ?_⟩
      rcases hdone with rfl | hzero
      · exact hflag hasleep'
      · exact hzero

theorem exec_advance (hadv : s.lock.advance c = some l) (raft : RaftState) :
    s.exec (.step c raft) = some { s with lock := l } := by
  have hin := (TimedLock.advance_cases hadv).inside
  simp only [LockServer.exec, LockServer.step, hadv, Option.map_some]

theorem exec_resume {out : Option LogEntry} (hrc : s.lock.pc c = .outside rc)
    (hstep : s.resume raft c rc = some (s', out)) : s.exec (.step c raft) = some s' := by
  simp only [LockServer.exec, LockServer.step, hrc, hstep, Option.map_some]

theorem Only.advance (hadv : s.lock.advance c = some l) : s.Only c { s with lock := l } := by
  have hstep := TimedLock.advance_cases hadv
  refine ⟨fun _ _ => rfl, fun j hj => (hstep.other hj).1, ?_⟩
  rcases hstep.holder with hsame | ⟨hgone, -⟩ | ⟨hnew, -⟩
  · exact Or.inl hsame
  · exact Or.inr (Or.inl hgone)
  · exact Or.inr (Or.inr hnew)

theorem Only.moves (hm : s.Moves c rc s') : s.Only c s' := by
  obtain ⟨-, -, hholder, -, hothers⟩ := hm.frame
  exact ⟨fun j hj => (hothers j hj).1, fun j hj => (hothers j hj).2, Or.inl hholder⟩

/-- Outside the lock a handler goes on, unless it has to stop. -/
theorem resume_turns (hrc : s.lock.pc c = .outside rc) (hmore : ¬ s.Stops raft c) :
    ∃ s' out, s.resume raft c rc = some (s', out) ∧ s'.left c < s.left c := by
  have hrest : ¬ s.Rests raft c := fun h => hmore (Or.inr (Or.inl h))
  have hzero : s.left c = 6 * (s.handler c).stages := by
    simp only [left, hrc, LockPc.left, Nat.add_zero]
  rw [hzero]
  cases hp : s.handler c with
  | returned reply => exact absurd (Or.inl ⟨reply, hp⟩) hrest
  | releasePoll term id =>
      have hdecided : ¬ isEntryCommitted raft term id = 0 := fun h =>
        hrest (Or.inr ⟨term, id, hp, h⟩)
      simp only [LockServer.resume, hp, if_neg hdecided]
      split_ifs <;> exact ⟨_, _, rfl, by simp [left, HandlerPc.stages, hrc, LockPc.left, goto]⟩
  | appendSlot filename buffer i =>
      have hfits : s.appendTurn c filename buffer i ≠ none := fun h =>
        hmore (Or.inr (Or.inr ⟨filename, buffer, i, hp, h⟩))
      obtain ⟨s', hs'⟩ := Option.ne_none_iff_exists'.mp hfits
      refine ⟨s', none, by simp only [LockServer.resume, hp, hs', Option.map_some], ?_⟩
      simp only [LockServer.appendTurn] at hs'
      split_ifs at hs' <;> simp only [Option.some.injEq] at hs' <;> subst hs' <;>
        simp [left, HandlerPc.stages, hrc, LockPc.left, goto, setSlot, endAppend,
          TimedLock.start] <;>
        omega
  | _ =>
      simp only [LockServer.resume, hp]
      (try split_ifs) <;> refine ⟨_, _, rfl, ?_⟩ <;>
        simp [left, HandlerPc.stages, hrc, LockPc.left, goto, setSlot, TimedLock.start] <;> omega

/-- While the timer thread sleeps, a handler that need not stop goes on. -/
theorem Tidy.turn (h : s.Tidy) (hasleep : s.lock.firing = .asleep) (hmore : ¬ s.Stops raft c) :
    ∃ s', s.exec (.step c raft) = some s' ∧ s'.left c < s.left c ∧ s.Only c s' := by
  by_cases hin : ∃ rc, s.lock.pc c = .outside rc
  · obtain ⟨rc, hrc⟩ := hin
    obtain ⟨s', out, hstep, hless⟩ := resume_turns hrc hmore
    exact ⟨s', exec_resume hrc hstep, hless, .moves (h.steady.resume hstep).2⟩
  · obtain ⟨l, hl⟩ := TimedLock.advance_of_asleep hasleep fun rc hrc => hin ⟨rc, hrc⟩
    refine ⟨_, exec_advance hl raft, ?_, .advance hl⟩
    have hless := (TimedLock.advance_cases hl).left fun hswap => hmore (Or.inl hswap)
    exact Nat.add_lt_add_left hless _

/-- A handler that need not stop goes on, once the timer thread sleeps. -/
theorem Tidy.goes (h : s.Tidy) (hmore : ¬ s.Stops raft c) :
    ∃ s', Machine.Steps LockServer.exec (Finishing raft) s s' ∧ s'.left c < s.left c ∧
      s.Only c s' := by
  obtain ⟨l, hsteps, hasleep, hpc, honly, -⟩ := h.sleeps raft c
  have hleft : ({ s with lock := l } : LockServer).left c = s.left c := by
    simp only [left, hpc]
  have hmore' : ¬ ({ s with lock := l } : LockServer).Stops raft c := by
    rintro (hswap | hrest | hover)
    · exact hmore (Or.inl ((congrFun hpc c).symm.trans hswap))
    · exact hmore (Or.inr (Or.inl hrest))
    · obtain ⟨filename, buffer, i, hp, hnone⟩ := hover
      have hsame : ({ s with lock := l } : LockServer).currentLogEntry = s.currentLogEntry := rfl
      exact hmore (Or.inr (Or.inr ⟨filename, buffer, i, hp, (appendTurn_none hsame).mp hnone⟩))
  obtain ⟨s', hx, hless, honly'⟩ := (h.steps hsteps).turn hasleep hmore'
  exact ⟨s', hsteps.tail ⟨.step c raft, rfl, hx⟩, hleft ▸ hless, honly.trans honly'⟩

/-- A handler runs until it has to stop. -/
theorem Tidy.runs (h : s.Tidy) (raft : RaftState) (c : ℤ) :
    ∃ s', Machine.Steps LockServer.exec (Finishing raft) s s' ∧ s.Only c s' ∧
      s'.left c ≤ s.left c ∧ s'.Stops raft c := by
  induction hn : s.left c using Nat.strong_induction_on generalizing s with
  | _ n ih =>
      by_cases hmore : s.Stops raft c
      · exact ⟨s, .refl, .refl s c, hn.le, hmore⟩
      obtain ⟨s₁, hsteps, hless, honly⟩ := h.goes hmore
      rw [hn] at hless
      obtain ⟨s₂, hsteps', honly', hle, hstops⟩ := ih _ hless (h.steps hsteps) rfl
      exact ⟨s₂, hsteps.trans hsteps', honly.trans honly', hle.trans hless.le, hstops⟩

/-- Only a handler at its beginning waits for the flag. -/
theorem Tidy.left_waiting (h : s.Tidy) (hc : s.lock.pc c = .acquireSwap) :
    s.left c = 6 * (6 + maxTransactionEntries) + 3 := by
  obtain ⟨op, hop, hwithin⟩ := (h.steady.seated c).waits fun rc hrc => by simp [hc] at hrc
  rw [hc] at hwithin
  have hacquire : s.handler c = .acquire := by
    cases op <;> simp only [TimedLock.within, Bool.false_eq_true] at hwithin
    cases hp : s.handler c <;> simp_all [HandlerPc.calls]
  rw [left, hacquire, hc]
  rfl

/-! ### The lock flag -/

/-- The flag can be cleared while `c` waits for it, or a copy overruns. -/
def Freed (raft : RaftState) (s : LockServer) (c : ℤ) : Prop :=
  ∃ s', Machine.Steps LockServer.exec (Finishing raft) s s' ∧ s'.lock.pc c = s.lock.pc c ∧
    s'.handler c = s.handler c ∧ (s'.lock.lockFlag = 0 ∨ ∃ j, s'.Overruns j)

theorem Freed.head {s₁ : LockServer} (hsteps : Machine.Steps LockServer.exec (Finishing raft) s s₁)
    (honly : s.Only j s₁) (hj : c ≠ j) (h : s₁.Freed raft c) : s.Freed raft c := by
  obtain ⟨s', hsteps', hpc, hhandler, hfree⟩ := h
  exact ⟨s', hsteps.trans hsteps', hpc.trans (honly.pc c hj),
    hhandler.trans (honly.handler c hj), hfree⟩

/-- The timer thread clears the flag when it has begun. -/
theorem Tidy.freed_firing (h : s.Tidy) (hf : s.lock.firing ≠ .asleep) : s.Freed raft c := by
  obtain ⟨l, hsteps, hasleep, hpc, -, hdone⟩ := h.sleeps raft c
  refine ⟨_, hsteps, congrFun hpc c, rfl, Or.inl ?_⟩
  rcases hdone with rfl | hzero
  · exact absurd hasleep hf
  · exact hzero

/-- A handler that has returned owes the timer nothing. -/
theorem Tidy.rests (h : s.Tidy) (hrest : s.Rests raft c) :
    (∃ rc, s.lock.pc c = .outside rc) ∧ s.lock.paused c = 0 := by
  have hcalls := (h.steady.seated c).calls
  have hquiet : (s.handler c).calls = none ∧ ∀ rc, ¬ (s.handler c).Paused (.outside rc) := by
    rcases hrest with ⟨reply, hp⟩ | ⟨term, id, hp, -⟩ <;> rw [hp] <;>
      simp [HandlerPc.calls, HandlerPc.Paused]
  simp only [HandlerPc.Calls, hquiet.1] at hcalls
  obtain ⟨rc, hrc⟩ := hcalls
  refine ⟨⟨rc, hrc⟩, (h.settled c).none ?_⟩
  rw [hrc]
  rintro (hpaused | hswap | hswap)
  · exact hquiet.2 rc hpaused
  · exact absurd hswap (by simp)
  · exact absurd hswap (by simp)

/-- Someone else who owes the timer something is about to give it back. -/
theorem Tidy.owing (h : s.Tidy) (hdebt : 0 < s.lock.debt j) (hj : s.lock.holderId ≠ j) :
    (∃ r, s.lock.pc j = .pauseRecheck r) ∨ ∃ r, s.lock.pc j = .pauseResume r := by
  have hpaused : s.lock.paused j = 0 := (h.settled j).none fun hsuspends =>
    hj (h.steady.lock.holder_of_guarded ((h.settled j).guarded hsuspends))
  rw [TimedLock.debt, hpaused, Nat.zero_add] at hdebt
  cases hpc : s.lock.pc j with
  | pauseRecheck r => exact Or.inl ⟨r, rfl⟩
  | pauseResume r => exact Or.inr ⟨r, rfl⟩
  | releaseHold =>
      obtain ⟨o, hown, -⟩ := h.steady.lock
      rw [hown.holderId, hown.holder j (Or.inr (Or.inl hpc))] at hj
      exact absurd rfl hj
  | _ =>
      rw [hpc] at hdebt
      exact absurd hdebt (by simp [TimedLock.pending])

/-- It gives it back. -/
theorem Tidy.resumes (h : s.Tidy) (raft : RaftState) (hasleep : s.lock.firing = .asleep)
    (hdebt : 0 < s.lock.debt j) (hj : s.lock.holderId ≠ j) :
    ∃ s', Machine.Steps LockServer.exec (Finishing raft) s s' ∧ s.Only j s' ∧
      s'.lock.firing = .asleep ∧ s'.lock.holderId = s.lock.holderId ∧
      s'.lock.timer = s.lock.timer + 1 := by
  have hlast : ∀ (l : TimedLock) (r : Bool), l.pc j = .pauseResume r → l.firing = .asleep →
      l.advance j =
        some { l.goto j (.outside (TimedLock.refusal r)) with timer := l.timer + 1 } := by
    intro l r hpc hf
    simp only [TimedLock.advance, hpc, if_pos hf]
  rcases h.owing hdebt hj with ⟨r, hpc⟩ | ⟨r, hpc⟩
  · have hfirst : s.lock.advance j = some (s.lock.goto j (.pauseResume r)) := by
      simp only [TimedLock.advance, hpc, if_pos hj]
    have hsecond := hlast (s.lock.goto j (.pauseResume r)) r (by simp) hasleep
    exact ⟨_, .tail (.single ⟨.step j raft, rfl, exec_advance hfirst raft⟩)
      ⟨.step j raft, rfl, exec_advance hsecond raft⟩,
      (Only.advance hfirst).trans (Only.advance hsecond), hasleep, rfl, rfl⟩
  · have hfirst := hlast s.lock r hpc hasleep
    exact ⟨_, .single ⟨.step j raft, rfl, exec_advance hfirst raft⟩, Only.advance hfirst, hasleep,
      rfl, rfl⟩

/-- The timer takes the lock from a holder whose handler has returned. -/
theorem Tidy.expires (h : s.Tidy) (hasleep : s.lock.firing = .asleep) (hid : j ≠ -1)
    (hholder : s.lock.holderId = j) (hrest : s.Rests raft j) (hc : s.lock.pc c = .acquireSwap) :
    s.Freed raft c := by
  induction hm : (1 - s.lock.timer).toNat using Nat.strong_induction_on generalizing s with
  | _ m ih =>
      obtain ⟨⟨rc, hrc⟩, hpaused⟩ := h.rests hrest
      obtain ⟨o, hown, hcount⟩ := h.steady.lock
      obtain ⟨n, hn, ht⟩ := hcount.owed
      have harmed : s.lock.armed o = 1 := by
        rw [hown.eq_holder hid hholder]
        exact if_pos ⟨by rw [hrc]; simp, hasleep⟩
      rw [harmed] at ht
      rcases Nat.eq_zero_or_pos n with rfl | hpos
      · have hfire : s.lock.fire = some { s.lock with timer := 0, firing := .asserting } := by
          simp only [TimedLock.fire, hasleep]
          exact if_pos (by omega)
        have hsteps : Machine.Steps LockServer.exec (Finishing raft) s
            { s with lock := { s.lock with timer := 0, firing := .asserting } } :=
          .single ⟨.fire, trivial, by simp only [LockServer.exec, hfire, Option.map_some]⟩
        have hcj : c ≠ j := fun heq => by simp [heq, hrc] at hc
        exact ((h.steps hsteps).freed_firing (by simp)).head hsteps (Only.fire hfire j) hcj
      · -- nobody can be fired at while somebody owes the timer something
        obtain ⟨i, hi⟩ := hn.exists_pos hpos
        have hij : s.lock.holderId ≠ i := by
          rw [hholder]
          rintro rfl
          rw [TimedLock.debt, hpaused, hrc] at hi
          exact absurd hi (by simp [TimedLock.pending])
        have hci : c ≠ i := by
          rintro rfl
          rcases h.owing hi hij with ⟨r, hpc⟩ | ⟨r, hpc⟩ <;>
            exact absurd (hc.symm.trans hpc) (by simp)
        obtain ⟨s₁, hsteps, honly, hasleep₁, hholder₁, htimer₁⟩ := h.resumes raft hasleep hi hij
        have hsame : s₁.handler j = s.handler j := honly.handler j (hholder ▸ hij)
        refine (ih _ ?_ (h.steps hsteps) hasleep₁ (hholder₁.trans hholder) ?_
          ((honly.pc c hci).trans hc) rfl).head hsteps honly hci
        · omega
        · unfold Rests
          rwa [hsame]

theorem Tidy.freed_leaver (h : s.Tidy) (hpc : s.lock.pc j = .releaseSwap)
    (hc : s.lock.pc c = .acquireSwap) : s.Freed raft c := by
  have hcj : c ≠ j := fun heq => by simp [heq, hpc] at hc
  have hadv : s.lock.advance j = some { s.lock.goto j (.outside 0) with
      lockFlag := if s.lock.lockFlag = 1 then 0 else s.lock.lockFlag } := by
    simp only [TimedLock.advance, hpc]
  obtain ⟨o, hown, -⟩ := h.steady.lock
  have hflag : s.lock.lockFlag = 1 := by
    rw [hown.flag, (hown.leaver j).mp hpc]
    rfl
  refine ⟨_, .single ⟨.step j raft, rfl, exec_advance hadv raft⟩, (Only.advance hadv).pc c hcj, rfl,
    Or.inl (if_pos hflag)⟩

/-- Whoever has the flag gives it back, or rests and loses it. -/
theorem Tidy.freed_owner (h : s.Tidy) {o : Owner} (hown : s.lock.Owned o)
    (ho : o = .taker j ∨ o = .holder j) (hc : s.lock.pc c = .acquireSwap) : s.Freed raft c := by
  have hcj : c ≠ j := by
    rintro rfl
    rcases ho with rfl | rfl
    · exact absurd (hc.symm.trans ((hown.taker c).mpr rfl)) (by simp)
    · exact (h.settled c).waiting hc hown.holderId
  have hj : j ≠ -1 := by
    rcases ho with rfl | rfl
    · exact h.client fun rc hrc => by simp [(hown.taker j).mpr rfl] at hrc
    · exact hown.client j (Or.inl rfl)
  obtain ⟨s₁, hsteps, honly, -, hstops⟩ := h.runs raft j
  refine Freed.head hsteps honly hcj ?_
  have h₁ := h.steps hsteps
  have hc₁ : s₁.lock.pc c = .acquireSwap := (honly.pc c hcj).trans hc
  by_cases hasleep : s₁.lock.firing = .asleep
  swap
  · exact h₁.freed_firing hasleep
  obtain ⟨o₁, hown₁, -⟩ := h₁.steady.lock
  cases ho₁ : o₁ with
  | nobody => exact ⟨s₁, .refl, rfl, rfl, Or.inl (hown₁.flag.trans (if_pos ho₁))⟩
  | timer => exact absurd (hasleep.symm.trans (hown₁.timer.mpr ho₁)) (by simp)
  | leaver k => exact h₁.freed_leaver ((hown₁.leaver k).mpr ho₁) hc₁
  | taker k =>
      have hk := (hown₁.taker k).mpr ho₁
      rcases eq_or_ne k j with rfl | hkj
      · rcases hstops with hswap | hrest | hover
        · exact absurd (hk.symm.trans hswap) (by simp)
        · obtain ⟨⟨rc, hrc⟩, -⟩ := h₁.rests hrest
          exact absurd (hk.symm.trans hrc) (by simp)
        · exact ⟨s₁, .refl, rfl, rfl, Or.inr ⟨k, hover⟩⟩
      · have hbefore := (hown.taker k).mp ((honly.pc k hkj).symm.trans hk)
        rcases ho with rfl | rfl
        · exact absurd (Owner.taker.inj hbefore).symm hkj
        · exact absurd hbefore (by simp)
  | holder k =>
      have hk : k ≠ -1 := hown₁.client k (Or.inl ho₁)
      have hid : s₁.lock.holderId = k := by
        rw [hown₁.holderId, ho₁]
        rfl
      have hkj : k = j := by
        rcases honly.holder with hsame | hgone | hnew
        · rw [hid, hown.holderId] at hsame
          rcases ho with rfl | rfl
          · exact absurd hsame hk
          · exact hsame
        · exact absurd (hid.symm.trans hgone) hk
        · exact hid.symm.trans hnew
      subst hkj
      rcases hstops with hswap | hrest | hover
      · exact absurd hid ((h₁.settled k).waiting hswap)
      · exact h₁.expires hasleep hk hid hrest hc₁
      · exact ⟨s₁, .refl, rfl, rfl, Or.inr ⟨k, hover⟩⟩

theorem Tidy.freed (h : s.Tidy) (hc : s.lock.pc c = .acquireSwap) : s.Freed raft c := by
  by_cases hasleep : s.lock.firing = .asleep
  swap
  · exact h.freed_firing hasleep
  obtain ⟨o, hown, -⟩ := h.steady.lock
  cases ho : o with
  | nobody => exact ⟨s, .refl, rfl, rfl, Or.inl (hown.flag.trans (if_pos ho))⟩
  | timer => exact absurd (hasleep.symm.trans (hown.timer.mpr ho)) (by simp)
  | leaver j => exact h.freed_leaver ((hown.leaver j).mpr ho) hc
  | taker j => exact h.freed_owner hown (Or.inl ho) hc
  | holder j => exact h.freed_owner hown (Or.inr ho) hc

/-- The handler of a client can come to its end, or a copy overruns. -/
theorem can_return (h : Machine.Reaches LockServer.exec .init s) (raft : RaftState) (c : ℤ) :
    ∃ s', Machine.Steps LockServer.exec (Finishing raft) s s' ∧
      (s'.Rests raft c ∨ ∃ j, s'.Overruns j) := by
  have ht : s.Tidy := h.invariant (fun _ _ _ h _ hx => h.exec hx) LockServer.tidy_init
  obtain ⟨s₁, hsteps, -, -, hstops⟩ := ht.runs raft c
  rcases hstops with hswap | hrest | hover
  · have h₁ := ht.steps hsteps
    have hfreed : s₁.Freed raft c := h₁.freed hswap
    obtain ⟨s₂, hsteps₂, hpc, -, hfree⟩ := hfreed
    have h₂ := h₁.steps hsteps₂
    rw [hswap] at hpc
    rcases hfree with hzero | hover
    · -- the flag is clear: the client takes it and does not come back to it
      have hadv : s₂.lock.advance c =
          some { s₂.lock.goto c .acquireHold with lockFlag := 1 } := by
        simp only [TimedLock.advance, hpc, if_pos hzero]
      have hstep : Machine.Steps LockServer.exec (LockServer.Finishing raft) s₂ _ :=
        .single ⟨.step c raft, rfl, LockServer.exec_advance hadv raft⟩
      obtain ⟨s₃, hsteps₃, -, hle, hstops⟩ := (h₂.steps hstep).runs raft c
      refine ⟨s₃, ((hsteps.trans hsteps₂).trans hstep).trans hsteps₃, ?_⟩
      rcases hstops with hswap' | hrest | hover
      · have hagain := ((h₂.steps hstep).steps hsteps₃).left_waiting hswap'
        have hbefore := h₂.left_waiting hpc
        simp only [LockServer.left, hpc, TimedLock.goto_pc, if_true,
          LockPc.left] at hle hbefore hagain
        omega
      · exact Or.inl hrest
      · exact Or.inr ⟨c, hover⟩
    · exact ⟨s₂, hsteps.trans hsteps₂, Or.inr hover⟩
  · exact ⟨s₁, hsteps, Or.inl hrest⟩
  · exact ⟨s₁, hsteps, Or.inr ⟨c, hover⟩⟩

end LockServer

/-! ### The threads -/

/-- The thread has returned, or it asks for an entry that is not decided yet. -/
def HandlerThread.Rests (raft : RaftState) (t : HandlerThread) : Prop :=
  (∃ reply, t.pc = .returned reply) ∨
    ∃ term id, t.pc = .releasePoll term id ∧ isEntryCommitted raft term id = 0

namespace HandlerThreads

variable {m m' : HandlerThreads} {raft : RaftState} {k : ℕ} {t : HandlerThread}

/-- Steps of the threads that run and of the timer: no handler is called, and
the Raft module stays as it is. -/
def Finishing (raft : RaftState) (_ : HandlerThreads) : ThreadAction → Prop
  | .accept _ _ => False
  | .step _ r => r = raft
  | .fire => True

/-- The string that the thread is to copy does not fit. -/
def Overruns (m : HandlerThreads) (t : HandlerThread) : Prop :=
  ∃ filename buffer i, t.pc = .appendSlot filename buffer i ∧
    (m.server.load t).appendTurn t.client filename buffer i = none

theorem Inv.rests (h : m.Inv) (ht : t ∈ m.threads) (hrest : m.server.Rests raft t.client) :
    t.Rests raft := by
  by_cases hrun : t.Running
  · have hhandler := (h.stands t ht hrun).handler
    unfold LockServer.Rests at hrest
    rwa [hhandler] at hrest
  · rw [HandlerThread.Running, Bool.not_eq_false] at hrun
    exact Or.inl (HandlerPc.ended_iff.mp hrun)

theorem Inv.overruns (h : m.Inv) {c : ℤ} (hover : m.server.Overruns c) :
    ∃ t ∈ m.threads, m.Overruns t := by
  obtain ⟨filename, buffer, i, hp, hnone⟩ := hover
  obtain ⟨t, ht, rfl, hrun⟩ := h.served c (hp ▸ rfl)
  have hstands := h.stands t ht hrun
  exact ⟨t, ht, filename, buffer, i, hstands.handler.symm.trans hp, hstands.load.symm ▸ hnone⟩

/-- What the clients can come to, the threads can. -/
theorem Inv.finishes (h : m.Inv) (ht : m.threads[k]? = some t) {s' : LockServer}
    (hsteps : Machine.Steps LockServer.exec (LockServer.Finishing raft) m.server s') :
    ∃ m', Machine.Steps HandlerThreads.exec (Finishing raft) m m' ∧ m'.server = s' ∧ m'.Inv ∧
      ∃ t', m'.threads[k]? = some t' ∧ t'.client = t.client := by
  refine hsteps.simulate (R := fun s (m' : HandlerThreads) => m'.server = s ∧ m'.Inv ∧
    ∃ t', m'.threads[k]? = some t' ∧ t'.client = t.client) (fun s m' y s' hR hok hy => ?_)
    ⟨rfl, h, t, ht, rfl⟩
  obtain ⟨rfl, hinv, t', ht', hclient⟩ := hR
  obtain ⟨x, m'', rfl, hone, hx, rfl⟩ := hinv.of_plain hy
  obtain ⟨t'', ht'', hclient'⟩ := exec_thread hx ht'
  refine ⟨x, m'', ?_, hx, rfl, (hinv.exec hone hx).2, t'', ht'', hclient'.trans hclient⟩
  cases x <;> exact hok

end HandlerThreads

/-- **No handler is stuck**: whatever the threads have done and whenever the
timer has fired, as long as no client has had two handlers running, a thread
can come to its end by steps of the threads that run and of the timer, for
which it may have to wait: it returns, or it is left with a question about an
entry that is not decided. The one thing that can come in between is a copy
that overruns its array. -/
theorem handlers_can_return {m : HandlerThreads}
    (h : Machine.Steps HandlerThreads.exec HandlerThreads.OneEach .init m) (raft : RaftState)
    {k : ℕ} {t : HandlerThread} (ht : m.threads[k]? = some t) :
    ∃ m' t', Machine.Steps HandlerThreads.exec (HandlerThreads.Finishing raft) m m' ∧
      m'.threads[k]? = some t' ∧ t'.client = t.client ∧
      (t'.Rests raft ∨ ∃ u ∈ m'.threads, m'.Overruns u) := by
  obtain ⟨hreach, hinv⟩ := HandlerThreads.server_run h
  obtain ⟨s', hsteps, hend⟩ := LockServer.can_return hreach raft t.client
  obtain ⟨m', hsteps', rfl, hinv', t', ht', hclient⟩ := hinv.finishes ht hsteps
  refine ⟨m', t', hsteps', ht', hclient, ?_⟩
  rcases hend with hrest | ⟨c, hover⟩
  · exact Or.inl (hinv'.rests (List.mem_of_getElem? ht') (hclient.symm ▸ hrest))
  · exact Or.inr (hinv'.overruns hover)

/-- Client `1` has the lock, its handler has returned, and client `2` waits. -/
def flagTaken : List ThreadAction :=
  .accept 1 .acquire :: List.replicate 20 (.step 0 firstTerm) ++
    .accept 2 .acquire :: List.replicate 2 (.step 1 firstTerm)

set_option maxRecDepth 10000 in
theorem flagTaken_runs : (Machine.execWhile HandlerThreads.exec
    (fun m x => decide (m.OneEach x)) .init flagTaken).any
    (fun m => decide (m.server.lock.lockFlag = 1 ∧ m.server.lock.holderId = 1 ∧
      m.threads = [⟨1, .returned ⟨0, .tag 1 1⟩, .outside 0, []⟩,
        ⟨2, .acquire, .acquireSwap, []⟩])) = true := by
  decide +kernel

theorem waiting_acquire_can_return : ∃ m : HandlerThreads,
    Machine.Steps HandlerThreads.exec HandlerThreads.OneEach .init m ∧
    (m.server.lock.lockFlag = 1 ∧ m.server.lock.holderId = 1 ∧
      m.threads = [⟨1, .returned ⟨0, .tag 1 1⟩, .outside 0, []⟩,
        ⟨2, .acquire, .acquireSwap, []⟩]) ∧
    ∃ m' t', Machine.Steps HandlerThreads.exec (HandlerThreads.Finishing firstTerm) m m' ∧
      m'.threads[1]? = some t' ∧ t'.client = 2 ∧
      (t'.Rests firstTerm ∨ ∃ u ∈ m'.threads, m'.Overruns u) := by
  obtain ⟨m, hrun, hm⟩ := Machine.exists_of_execWhile HandlerThreads.OneEach
    (fun _ _ h => of_decide_eq_true h) flagTaken_runs
  have hwaits := of_decide_eq_true hm
  have ht : m.threads[1]? = some ⟨2, .acquire, .acquireSwap, []⟩ := by
    rw [hwaits.2.2]
    rfl
  exact ⟨m, hrun, hwaits, handlers_can_return hrun firstTerm ht⟩

end RaftLock

import RaftLock.Library.Machine
import RaftLock.Library.Shares
import RaftLock.Raft.Types

/-!
The timed lock: `tmdspinlock.c` over `timer.c`, one access to the shared
memory at a time.

The state of the timer is only touched under `timer->lock`. An operation that
takes that lock, changes the state and gives the lock back is one step here;
the timer thread keeps it while it fires, and the others wait meanwhile.
-/

namespace RaftLock

abbrev eLock : ℤ := -4
abbrev eLockExp : ℤ := -5

inductive LockOp
  | acquire
  | pauseIfOwner
  | resetIfOwner
  | release
  deriving DecidableEq, Repr

/-- Where the thread of a client stands: outside the operations of the lock,
with what the last one returned, or before an access in one of them. The
argument of the pause says whether `tmdspinlock_release` has called it. -/
inductive LockPc
  | outside (rc : ℤ)
  | acquireCheck
  | acquireSwap
  | acquireHold
  | acquireReset
  | pauseCheck (releasing : Bool)
  | pauseDisable (releasing : Bool)
  | pauseRecheck (releasing : Bool)
  | pauseResume (releasing : Bool)
  | releaseHold
  | releaseSwap
  | resetCheck
  | resetTimer
  deriving DecidableEq, Repr

/-- Where the timer thread stands: asleep, or in `_tmdspinlock_handle_timer`
with the timer's lock held. -/
inductive TimerPc
  | asleep
  | asserting
  | withdrawing
  | freeing
  deriving DecidableEq, Repr

/-- `tmdspinlock_t` with the threads at work on it. `timer` is the state of
the timer. `paused` counts the successful pauses of a client that no reset of
it has undone, and `guarded` says that one of them is in force: neither
`tmdspinlock_reset_if_owner` nor `tmdspinlock_release` has ended it. -/
structure TimedLock where
  lockFlag : ℤ
  holderId : ℤ
  timer : ℤ
  firing : TimerPc
  pc : ℤ → LockPc
  paused : ℤ → ℕ
  guarded : ℤ → Bool

namespace TimedLock

/-- `tmdspinlock_init`. -/
def init : TimedLock :=
  { lockFlag := 0
    holderId := -1
    timer := 0
    firing := .asleep
    pc := fun _ => .outside 0
    paused := fun _ => 0
    guarded := fun _ => false }

def goto (l : TimedLock) (id : ℤ) (pc : LockPc) : TimedLock :=
  { l with pc := Function.update l.pc id pc }

def start : LockOp → LockPc
  | .acquire => .acquireCheck
  | .pauseIfOwner => .pauseCheck false
  | .resetIfOwner => .resetCheck
  | .release => .pauseCheck true

/-- The client calls an operation. It resets only after a pause of its own. -/
def call (l : TimedLock) (id : ℤ) (op : LockOp) : Option TimedLock :=
  match l.pc id with
  | .outside _ =>
    if id = -1 ∨ (op = .resetIfOwner ∧ l.paused id = 0) then none
    else some (l.goto id (start op))
  | _ => none

/-- What a pause without the lock returns: `tmdspinlock_release` turns the
`-1` into its own code. -/
def refusal : Bool → ℤ
  | false => -1
  | true => eLockExp

/-- The next access of the client in the operation it is in. -/
def advance (l : TimedLock) (id : ℤ) : Option TimedLock :=
  match l.pc id with
  | .outside _ => none
  | .acquireCheck =>
    some (l.goto id (if l.holderId = id then .outside eLock else .acquireSwap))
  | .acquireSwap =>
    if l.lockFlag = 0 then some { l.goto id .acquireHold with lockFlag := 1 } else some l
  | .acquireHold => some { l.goto id .acquireReset with holderId := id }
  | .acquireReset =>
    if l.firing = .asleep then some { l.goto id (.outside 0) with timer := l.timer + 1 } else none
  | .pauseCheck releasing =>
    some (l.goto id (if l.holderId ≠ id then .outside (refusal releasing)
      else .pauseDisable releasing))
  | .pauseDisable releasing =>
    if l.firing = .asleep then
      some { l.goto id (.pauseRecheck releasing) with timer := l.timer - 1 }
    else none
  | .pauseRecheck releasing =>
    if l.holderId ≠ id then some (l.goto id (.pauseResume releasing))
    else if releasing then some (l.goto id .releaseHold)
    else some
      { l.goto id (.outside 0) with
        paused := Function.update l.paused id (l.paused id + 1)
        guarded := Function.update l.guarded id true }
  | .pauseResume releasing =>
    if l.firing = .asleep then
      some { l.goto id (.outside (refusal releasing)) with timer := l.timer + 1 }
    else none
  | .releaseHold =>
    some
      { l.goto id .releaseSwap with
        holderId := -1
        guarded := Function.update l.guarded id false }
  | .releaseSwap =>
    some { l.goto id (.outside 0) with lockFlag := if l.lockFlag = 1 then 0 else l.lockFlag }
  | .resetCheck =>
    if l.holderId ≠ id then some (l.goto id (.outside (-1))) else some (l.goto id .resetTimer)
  | .resetTimer =>
    if l.firing = .asleep then
      some
        { l.goto id (.outside 0) with
          timer := l.timer + 1
          paused := Function.update l.paused id (l.paused id - 1)
          guarded := Function.update l.guarded id false }
    else none

/-- The next access of the timer thread: it fires when the state is `1`, and
then runs the handler. -/
def fire (l : TimedLock) : Option TimedLock :=
  match l.firing with
  | .asleep => if l.timer = 1 then some { l with timer := 0, firing := .asserting } else none
  | .asserting => if l.holderId ≠ -1 then some { l with firing := .withdrawing } else none
  | .withdrawing => some { l with holderId := -1, firing := .freeing }
  | .freeing =>
    some { l with lockFlag := if l.lockFlag = 1 then 0 else l.lockFlag, firing := .asleep }

end TimedLock

inductive LockAction
  | call (id : ℤ) (op : LockOp)
  | advance (id : ℤ)
  | fire
  deriving DecidableEq, Repr

namespace TimedLock

def exec (l : TimedLock) : LockAction → Option TimedLock
  | .call id op => l.call id op
  | .advance id => l.advance id
  | .fire => l.fire

abbrev Reachable (l : TimedLock) : Prop := Machine.Reaches exec init l

end TimedLock

/-! ### Who has the lock flag -/

/-- Who has set the lock flag: nobody, a client that is about to write its id,
the holder, a client that has cleared the id, or the timer that has. -/
inductive Owner
  | nobody
  | taker (id : ℤ)
  | holder (id : ℤ)
  | leaver (id : ℤ)
  | timer
  deriving DecidableEq

/-- What `holder_id` holds. -/
def Owner.id : Owner → ℤ
  | .holder id => id
  | _ => -1

namespace TimedLock

section goto

variable (l : TimedLock) (id : ℤ) (p : LockPc)

@[simp, grind =] theorem goto_pc (j : ℤ) :
    (l.goto id p).pc j = if j = id then p else l.pc j := by
  simp only [goto, Function.update_apply]

@[simp, grind =] theorem goto_lockFlag : (l.goto id p).lockFlag = l.lockFlag := rfl

@[simp, grind =] theorem goto_holderId : (l.goto id p).holderId = l.holderId := rfl

@[simp, grind =] theorem goto_timer : (l.goto id p).timer = l.timer := rfl

@[simp, grind =] theorem goto_firing : (l.goto id p).firing = l.firing := rfl

@[simp, grind =] theorem goto_paused : (l.goto id p).paused = l.paused := rfl

@[simp, grind =] theorem goto_guarded : (l.goto id p).guarded = l.guarded := rfl

end goto

/-- The share of a client in the timer's state: what its pauses have taken
from it and not given back. -/
def pending : LockPc → ℕ
  | .pauseRecheck _ | .pauseResume _ | .releaseHold => 1
  | _ => 0

def debt (l : TimedLock) (id : ℤ) : ℕ := l.paused id + pending (l.pc id)

/-- The holder's share in the timer's state, from its `timer_reset` on. -/
def armed (l : TimedLock) : Owner → ℤ
  | .holder id => if l.pc id ≠ .acquireReset ∧ l.firing = .asleep then 1 else 0
  | _ => 0

/-- `id` has paused, or is about to undo a pause. -/
def Pausing (l : TimedLock) (id : ℤ) : Prop :=
  l.guarded id = true ∨ l.pc id = .resetCheck ∨ l.pc id = .resetTimer

structure Owned (l : TimedLock) (o : Owner) : Prop where
  flag : l.lockFlag = if o = .nobody then 0 else 1
  holderId : l.holderId = o.id
  taker : ∀ id, l.pc id = .acquireHold ↔ o = .taker id
  leaver : ∀ id, l.pc id = .releaseSwap ↔ o = .leaver id
  timer : l.firing = .freeing ↔ o = .timer
  holder : ∀ id, l.pc id = .acquireReset ∨ l.pc id = .releaseHold ∨ l.guarded id = true →
    o = .holder id
  fired : l.firing = .asserting ∨ l.firing = .withdrawing →
    ∃ id, o = .holder id ∧ l.pc id ≠ .acquireReset
  client : ∀ id, o = .holder id ∨ (∀ rc, l.pc id ≠ .outside rc) → id ≠ -1

/-- The timer's state is the holder's share less what the pauses owe. -/
structure Counted (l : TimedLock) (o : Owner) : Prop where
  owed : ∃ n, AddsUpTo l.debt n ∧ l.timer = l.armed o - n
  quiet : l.firing ≠ .asleep → l.timer = 0
  paused : ∀ id, l.Pausing id → 0 < l.paused id

def Inv (l : TimedLock) : Prop := ∃ o, l.Owned o ∧ l.Counted o

theorem inv_init : init.Inv := by
  refine ⟨.nobody, ⟨rfl, rfl, ?_, ?_, ?_, ?_, ?_, ?_⟩, ⟨⟨0, AddsUpTo.zero, rfl⟩, ?_, ?_⟩⟩
  all_goals simp [init, Pausing]

/-! ### What a step can do -/

/-- The places at which a client has no part in the flag. -/
def bystander : LockPc → Bool
  | .acquireHold | .acquireReset | .releaseHold | .releaseSwap => false
  | _ => true

/-- The accesses of a client, branch by branch. -/
inductive Advances (l : TimedLock) (id : ℤ) : TimedLock → Prop
  | holds (hpc : l.pc id = .acquireCheck) (hid : l.holderId = id) :
      Advances l id (l.goto id (.outside eLock))
  | tries (hpc : l.pc id = .acquireCheck) : Advances l id (l.goto id .acquireSwap)
  | spins (hpc : l.pc id = .acquireSwap) : Advances l id l
  | takes (hpc : l.pc id = .acquireSwap) (hflag : l.lockFlag = 0) :
      Advances l id { l.goto id .acquireHold with lockFlag := 1 }
  | enters (hpc : l.pc id = .acquireHold) :
      Advances l id { l.goto id .acquireReset with holderId := id }
  | arms (hpc : l.pc id = .acquireReset) (hasleep : l.firing = .asleep) :
      Advances l id { l.goto id (.outside 0) with timer := l.timer + 1 }
  | refused (releasing : Bool) (hpc : l.pc id = .pauseCheck releasing) :
      Advances l id (l.goto id (.outside (refusal releasing)))
  | checks (releasing : Bool) (hpc : l.pc id = .pauseCheck releasing) :
      Advances l id (l.goto id (.pauseDisable releasing))
  | disables (releasing : Bool) (hpc : l.pc id = .pauseDisable releasing)
      (hasleep : l.firing = .asleep) :
      Advances l id { l.goto id (.pauseRecheck releasing) with timer := l.timer - 1 }
  | late (releasing : Bool) (hpc : l.pc id = .pauseRecheck releasing) :
      Advances l id (l.goto id (.pauseResume releasing))
  | parts (hpc : l.pc id = .pauseRecheck true) (hid : l.holderId = id) :
      Advances l id (l.goto id .releaseHold)
  | pauses (hpc : l.pc id = .pauseRecheck false) (hid : l.holderId = id) :
      Advances l id
        { l.goto id (.outside 0) with
          paused := Function.update l.paused id (l.paused id + 1)
          guarded := Function.update l.guarded id true }
  | resumes (releasing : Bool) (hpc : l.pc id = .pauseResume releasing)
      (hasleep : l.firing = .asleep) :
      Advances l id { l.goto id (.outside (refusal releasing)) with timer := l.timer + 1 }
  | leaves (hpc : l.pc id = .releaseHold) :
      Advances l id
        { l.goto id .releaseSwap with
          holderId := -1
          guarded := Function.update l.guarded id false }
  | frees (hpc : l.pc id = .releaseSwap) :
      Advances l id
        { l.goto id (.outside 0) with lockFlag := if l.lockFlag = 1 then 0 else l.lockFlag }
  | fails (hpc : l.pc id = .resetCheck) : Advances l id (l.goto id (.outside (-1)))
  | owns (hpc : l.pc id = .resetCheck) : Advances l id (l.goto id .resetTimer)
  | resets (hpc : l.pc id = .resetTimer) (hasleep : l.firing = .asleep) :
      Advances l id
        { l.goto id (.outside 0) with
          timer := l.timer + 1
          paused := Function.update l.paused id (l.paused id - 1)
          guarded := Function.update l.guarded id false }

variable {l l' : TimedLock} {o : Owner} {id : ℤ}

theorem advance_cases (h : l.advance id = some l') : l.Advances id l' := by
  unfold advance at h
  split at h
  · exact absurd h (by simp)
  · split_ifs at h with hid <;> simp only [Option.some.injEq] at h <;> subst h
    · exact .holds ‹_› hid
    · exact .tries ‹_›
  · split_ifs at h with hflag <;> simp only [Option.some.injEq] at h <;> subst h
    · exact .takes ‹_› hflag
    · exact .spins ‹_›
  · simp only [Option.some.injEq] at h
    subst h
    exact .enters ‹_›
  · split_ifs at h with hasleep
    simp only [Option.some.injEq] at h
    subst h
    exact .arms ‹_› hasleep
  · split_ifs at h with hid <;> simp only [Option.some.injEq] at h <;> subst h
    · exact .refused _ ‹_›
    · exact .checks _ ‹_›
  · split_ifs at h with hasleep
    simp only [Option.some.injEq] at h
    subst h
    exact .disables _ ‹_› hasleep
  · split_ifs at h with hnot hrel <;> simp only [Option.some.injEq] at h <;> subst h
    · exact .late _ ‹_›
    · subst hrel
      exact .parts ‹_› (not_not.mp hnot)
    · rw [Bool.not_eq_true] at hrel
      subst hrel
      exact .pauses ‹_› (not_not.mp hnot)
  · split_ifs at h with hasleep
    simp only [Option.some.injEq] at h
    subst h
    exact .resumes _ ‹_› hasleep
  · simp only [Option.some.injEq] at h
    subst h
    exact .leaves ‹_›
  · simp only [Option.some.injEq] at h
    subst h
    exact .frees ‹_›
  · split_ifs at h with hnot <;> simp only [Option.some.injEq] at h <;> subst h
    · exact .fails ‹_›
    · exact .owns ‹_›
  · split_ifs at h with hasleep
    simp only [Option.some.injEq] at h
    subst h
    exact .resets ‹_› hasleep

theorem Advances.inside (h : l.Advances id l') (rc : ℤ) : l.pc id ≠ .outside rc := by
  cases h <;> simp [*]

/-- A step of `id` that leaves the flag and its owner alone: the client and
the timer's state move together. -/
structure Passes (l : TimedLock) (id : ℤ) (l' : TimedLock) : Prop where
  lockFlag : l'.lockFlag = l.lockFlag
  holderId : l'.holderId = l.holderId
  firing : l'.firing = l.firing
  client : id ≠ -1
  other : ∀ j ≠ id, l'.pc j = l.pc j ∧ l'.paused j = l.paused j ∧ l'.guarded j = l.guarded j
  before : bystander (l.pc id) = true
  after : bystander (l'.pc id) = true
  share : l'.timer + l'.debt id = l.timer + l.debt id
  timer : l'.timer = l.timer ∨ l.firing = .asleep
  guarded : l'.guarded id = true → l.guarded id = true ∨ l.holderId = id
  paused : l'.Pausing id → 0 < l'.paused id ∨ (l.Pausing id ∧ l'.paused id = l.paused id)

theorem call_passes {op : LockOp} (h : l.call id op = some l') : l.Passes id l' := by
  unfold call at h
  split at h
  · rename_i rc hpc
    split_ifs at h with hbad
    simp only [Option.some.injEq] at h
    subst h
    constructor <;> cases op <;> grind -linarith [start, bystander, debt, pending, Pausing]
  · exact absurd h (by simp)

/-- Between two places without a part in the flag. -/
theorem Advances.passes (h : l.Advances id l') (hid : id ≠ -1)
    (hpaused : l.Pausing id → 0 < l.paused id) (hbefore : bystander (l.pc id) = true)
    (hafter : bystander (l'.pc id) = true) : l.Passes id l' := by
  cases h <;>
    first
      | grind -linarith [bystander]
      | (constructor <;> grind -linarith [bystander, debt, pending, Pausing, Function.update_apply])

/-! ### The invariant -/

/-- A step of one client moves the timer's state by as much as the client's
share and the holder's have moved. -/
theorem Counted.move {o' : Owner} (h : l.Counted o) (id : ℤ)
    (hother : ∀ j ≠ id, l'.pc j = l.pc j ∧ l'.paused j = l.paused j ∧ l'.guarded j = l.guarded j)
    (htimer : l'.timer - l'.armed o' + l'.debt id = l.timer - l.armed o + l.debt id)
    (hquiet : l'.firing ≠ .asleep → l'.timer = 0)
    (hpaused : l'.Pausing id → 0 < l'.paused id) : l'.Counted o' := by
  refine ⟨?_, hquiet, fun j hj => ?_⟩
  · obtain ⟨n, hn, ht⟩ := h.owed
    have hdebt : l'.debt = Function.update l.debt id (l'.debt id) := by
      ext j
      rw [Function.update_apply]
      split
      · rename_i hj
        rw [hj]
      · rename_i hj
        simp only [debt, (hother j hj).1, (hother j hj).2.1]
    refine ⟨n - l.debt id + l'.debt id, ?_, ?_⟩
    · have := hn.update id (l'.debt id)
      rwa [← hdebt] at this
    · have := hn.le id
      omega
  · by_cases hid : j = id
    · exact hid ▸ hpaused (hid ▸ hj)
    · obtain ⟨hpc, hp, hg⟩ := hother j hid
      rw [hp]
      exact h.paused j (by rwa [Pausing, hpc, hg] at hj)

theorem Owned.eq_holder (hown : l.Owned o) (hid : id ≠ -1) (h : l.holderId = id) :
    o = .holder id := by
  rw [hown.holderId] at h
  cases o with
  | holder j => exact congrArg Owner.holder h
  | _ => exact absurd h.symm hid

theorem Passes.armed (h : l.Passes id l') (o : Owner) : l'.armed o = l.armed o := by
  have hbefore := h.before
  have hafter := h.after
  cases o with
  | holder j =>
      simp only [TimedLock.armed, h.firing]
      by_cases hj : j = id
      · subst hj
        cases hpc : l.pc j <;> cases hpc' : l'.pc j <;> simp_all [bystander]
      · rw [(h.other j hj).1]
  | _ => rfl

theorem Passes.inv (h : l.Passes id l') (hi : l.Inv) : l'.Inv := by
  obtain ⟨o, hown, hcount⟩ := hi
  refine ⟨o, ?_, hcount.move id h.other ?_ ?_ ?_⟩
  · have hholder := hown.eq_holder h.client
    obtain ⟨f1, f2, f3, f4, f5, f6, f7, f8⟩ := hown
    obtain ⟨p1, p2, p3, p4, p5, p6, p7, -, -, p8, -⟩ := h
    constructor <;> grind -linarith [bystander, Owner.id]
  · rw [h.armed]
    have := h.share
    omega
  · intro hf
    rw [h.firing] at hf
    rw [h.timer.resolve_right hf]
    exact hcount.quiet hf
  · intro hp
    obtain hpos | ⟨hp, heq⟩ := h.paused hp
    · exact hpos
    · exact heq ▸ hcount.paused id hp

theorem Inv.takes (hi : l.Inv) (hpc : l.pc id = .acquireSwap) (hflag : l.lockFlag = 0) :
    Inv { l.goto id .acquireHold with lockFlag := 1 } := by
  obtain ⟨o, hown, hcount⟩ := hi
  have hfree := hown.flag
  refine ⟨.taker id, ?_, hcount.move id ?_ ?_ hcount.quiet ?_⟩
  · obtain ⟨f1, f2, f3, f4, f5, f6, f7, f8⟩ := hown
    constructor <;> grind -linarith [Owner.id]
  · grind -linarith
  · cases o <;> grind -linarith [armed, debt, pending]
  · have := hcount.paused id
    grind -linarith [Pausing]

theorem Inv.enters (hi : l.Inv) (hpc : l.pc id = .acquireHold) :
    Inv { l.goto id .acquireReset with holderId := id } := by
  obtain ⟨o, hown, hcount⟩ := hi
  have htaker := (hown.taker id).mp hpc
  refine ⟨.holder id, ?_, hcount.move id ?_ ?_ hcount.quiet ?_⟩
  · obtain ⟨f1, f2, f3, f4, f5, f6, f7, f8⟩ := hown
    constructor <;> grind -linarith [Owner.id]
  · grind -linarith
  · grind -linarith [armed, debt, pending]
  · have := hcount.paused id
    grind -linarith [Pausing]

theorem Inv.arms (hi : l.Inv) (hpc : l.pc id = .acquireReset) (hasleep : l.firing = .asleep) :
    Inv { l.goto id (.outside 0) with timer := l.timer + 1 } := by
  obtain ⟨o, hown, hcount⟩ := hi
  have hholder := hown.holder id (.inl hpc)
  refine ⟨o, ?_, hcount.move id ?_ ?_ ?_ ?_⟩
  · obtain ⟨f1, f2, f3, f4, f5, f6, f7, f8⟩ := hown
    constructor <;> grind -linarith [Owner.id]
  · grind -linarith
  · grind -linarith [armed, debt, pending]
  · grind -linarith
  · have := hcount.paused id
    grind -linarith [Pausing]

theorem Inv.parts (hi : l.Inv) (hpc : l.pc id = .pauseRecheck true) (hid : l.holderId = id) :
    Inv (l.goto id .releaseHold) := by
  obtain ⟨o, hown, hcount⟩ := hi
  refine ⟨o, ?_, hcount.move id ?_ ?_ hcount.quiet ?_⟩
  · have hholder := hown.eq_holder (hown.client id (by simp [hpc])) hid
    obtain ⟨f1, f2, f3, f4, f5, f6, f7, f8⟩ := hown
    constructor <;> grind -linarith [Owner.id]
  · grind -linarith
  · cases o <;> grind -linarith [armed, debt, pending]
  · have := hcount.paused id
    grind -linarith [Pausing]

theorem Inv.leaves (hi : l.Inv) (hpc : l.pc id = .releaseHold) :
    Inv
      { l.goto id .releaseSwap with
        holderId := -1
        guarded := Function.update l.guarded id false } := by
  obtain ⟨o, hown, hcount⟩ := hi
  have hholder := hown.holder id (.inr (.inl hpc))
  -- a pending pause keeps the timer from firing
  have hasleep : l.firing = .asleep := by
    obtain ⟨n, hn, ht⟩ := hcount.owed
    have hle := hn.le id
    have hquiet := hcount.quiet
    grind -linarith [armed, debt, pending]
  refine ⟨.leaver id, ?_, hcount.move id ?_ ?_ hcount.quiet ?_⟩
  · obtain ⟨f1, f2, f3, f4, f5, f6, f7, f8⟩ := hown
    constructor <;> grind -linarith [Owner.id, Function.update_apply]
  · grind -linarith [Function.update_apply]
  · grind -linarith [armed, debt, pending]
  · have := hcount.paused id
    grind -linarith [Pausing, Function.update_apply]

theorem Inv.frees (hi : l.Inv) (hpc : l.pc id = .releaseSwap) :
    Inv { l.goto id (.outside 0) with
      lockFlag := if l.lockFlag = 1 then 0 else l.lockFlag } := by
  obtain ⟨o, hown, hcount⟩ := hi
  have hleaver := (hown.leaver id).mp hpc
  refine ⟨.nobody, ?_, hcount.move id ?_ ?_ hcount.quiet ?_⟩
  · obtain ⟨f1, f2, f3, f4, f5, f6, f7, f8⟩ := hown
    constructor <;> grind -linarith [Owner.id]
  · grind -linarith
  · grind -linarith [armed, debt, pending]
  · have := hcount.paused id
    grind -linarith [Pausing]

theorem Advances.inv (h : l.Advances id l') (hi : l.Inv) : l'.Inv := by
  have hpass : bystander (l.pc id) = true → bystander (l'.pc id) = true → l'.Inv := by
    obtain ⟨o, hown, hcount⟩ := hi
    intro hbefore hafter
    exact (h.passes (hown.client id (.inr h.inside)) (hcount.paused id) hbefore hafter).inv
      ⟨o, hown, hcount⟩
  cases h with
  | spins _ => exact hi
  | takes hpc hflag => exact hi.takes hpc hflag
  | enters hpc => exact hi.enters hpc
  | arms hpc hasleep => exact hi.arms hpc hasleep
  | parts hpc hid => exact hi.parts hpc hid
  | leaves hpc => exact hi.leaves hpc
  | frees hpc => exact hi.frees hpc
  | _ => exact hpass (by simp [*, bystander]) (by simp [bystander])

/-- While the timer thread is in the handler nobody owes the timer anything,
so the holder can neither have paused nor be on its way out. -/
theorem Counted.debt_eq_zero (hcount : l.Counted o) (hf : l.firing ≠ .asleep) (id : ℤ) :
    l.debt id = 0 := by
  obtain ⟨n, hn, ht⟩ := hcount.owed
  have hquiet := hcount.quiet hf
  have hle := hn.le id
  cases o <;> grind -linarith [armed]

theorem fire_inv (h : l.fire = some l') (hi : l.Inv) : l'.Inv := by
  obtain ⟨o, hown, hcount⟩ := hi
  unfold fire at h
  split at h
  · rename_i hasleep
    split_ifs at h with hone
    simp only [Option.some.injEq] at h
    subst h
    -- the state is one: the lock is held, and no pause is owed
    obtain ⟨n, hn, ht⟩ := hcount.owed
    obtain ⟨id, hholder, hpc, hzero⟩ : ∃ id, o = .holder id ∧ l.pc id ≠ .acquireReset ∧ n = 0 := by
      cases o <;> grind -linarith [armed]
    refine ⟨o, ?_, ⟨⟨0, hzero ▸ hn, ?_⟩, fun _ => rfl, hcount.paused⟩⟩
    · obtain ⟨f1, f2, f3, f4, f5, f6, f7, f8⟩ := hown
      constructor <;> grind -linarith
    · simp [hholder, armed]
  · rename_i hasserting
    split_ifs at h
    simp only [Option.some.injEq] at h
    subst h
    refine ⟨o, ?_, ⟨?_, fun _ => hcount.quiet (by simp [hasserting]), hcount.paused⟩⟩
    · obtain ⟨f1, f2, f3, f4, f5, f6, f7, f8⟩ := hown
      constructor <;> grind -linarith
    · obtain ⟨n, hn, ht⟩ := hcount.owed
      refine ⟨n, hn, ?_⟩
      cases o <;> simp_all [armed]
  · rename_i hwithdrawing
    simp only [Option.some.injEq] at h
    subst h
    have hstay : ∀ id, l.pc id ≠ .releaseHold ∧ l.guarded id ≠ true := by
      intro id
      have hzero := hcount.debt_eq_zero (by simp [hwithdrawing]) id
      refine ⟨fun hpc => by simp [debt, pending, hpc] at hzero, fun hg => ?_⟩
      have := hcount.paused id (.inl hg)
      simp only [debt] at hzero
      omega
    refine ⟨.timer, ?_, ⟨?_, fun _ => hcount.quiet (by simp [hwithdrawing]), hcount.paused⟩⟩
    · obtain ⟨f1, f2, f3, f4, f5, f6, f7, f8⟩ := hown
      constructor <;> grind -linarith [Owner.id]
    · obtain ⟨n, hn, ht⟩ := hcount.owed
      refine ⟨n, hn, ?_⟩
      cases o <;> simp_all [armed]
  · rename_i hfreeing
    simp only [Option.some.injEq] at h
    subst h
    refine ⟨.nobody, ?_, ⟨?_, fun hf => absurd rfl hf, hcount.paused⟩⟩
    · obtain ⟨f1, f2, f3, f4, f5, f6, f7, f8⟩ := hown
      constructor <;> grind -linarith [Owner.id]
    · obtain ⟨n, hn, ht⟩ := hcount.owed
      refine ⟨n, hn, ?_⟩
      have := hown.timer.mp hfreeing
      simp_all [armed]

/-! ### What a call comes to -/

/-- The places of an operation, and the one after it. -/
def within : LockOp → LockPc → Bool
  | _, .outside _ => true
  | .acquire, .acquireCheck | .acquire, .acquireSwap | .acquire, .acquireHold
  | .acquire, .acquireReset => true
  | .pauseIfOwner, .pauseCheck r | .pauseIfOwner, .pauseDisable r
  | .pauseIfOwner, .pauseRecheck r | .pauseIfOwner, .pauseResume r => !r
  | .resetIfOwner, .resetCheck | .resetIfOwner, .resetTimer => true
  | .release, .pauseCheck r | .release, .pauseDisable r | .release, .pauseRecheck r
  | .release, .pauseResume r => r
  | .release, .releaseHold | .release, .releaseSwap => true
  | _, _ => false

namespace Advances

variable {j rc : ℤ} {op : LockOp}

theorem other (h : l.Advances id l') (hj : j ≠ id) :
    l'.pc j = l.pc j ∧ l'.guarded j = l.guarded j := by
  cases h <;> simp [hj]

theorem firing (h : l.Advances id l') : l'.firing = l.firing := by
  cases h <;> rfl

theorem stays (h : l.Advances id l') (hop : within op (l.pc id) = true) :
    within op (l'.pc id) = true := by
  cases h <;> cases op <;> simp_all [within]

/-- The holder changes only by its own release, or to a client that has taken
the flag. -/
theorem holder (h : l.Advances id l') :
    l'.holderId = l.holderId ∨ (l'.holderId = -1 ∧ l.pc id = .releaseHold) ∨
      (l'.holderId = id ∧ l.pc id = .acquireHold) := by
  cases h <;> simp [*]

theorem holder_other (h : l.Advances id l') (hi : l.Inv) (hj : j ≠ id) (hclient : j ≠ -1) :
    l'.holderId = j ↔ l.holderId = j := by
  obtain ⟨o, hown, -⟩ := hi
  have hid := hown.holderId
  rcases h.holder with hsame | ⟨hgone, hpc⟩ | ⟨hnew, hpc⟩
  · rw [hsame]
  · rw [hown.holder id (.inr (.inl hpc))] at hid
    simp only [hgone, hid, Owner.id]
    exact ⟨fun h => absurd h.symm hclient, fun h => absurd h.symm hj⟩
  · rw [(hown.taker id).mp hpc] at hid
    simp only [hnew, hid, Owner.id]
    exact ⟨fun h => absurd h.symm hj, fun h => absurd h.symm hclient⟩

theorem acquired (h : l.Advances id l') (hi : l.Inv) (hop : within .acquire (l.pc id) = true)
    (hpc : l'.pc id = .outside rc) (hrc : 0 ≤ rc) : l'.holderId = id ∧ l'.firing = .asleep := by
  cases h with
  | arms hreset hasleep =>
      obtain ⟨o, hown, -⟩ := hi
      refine ⟨?_, hasleep⟩
      show l.holderId = id
      rw [hown.holderId, hown.holder id (.inl hreset)]
      rfl
  | holds _ _ =>
      simp only [goto_pc, if_true, LockPc.outside.injEq, eLock] at hpc
      omega
  | _ => simp_all [within]

theorem paused (h : l.Advances id l') (hop : within .pauseIfOwner (l.pc id) = true)
    (hpc : l'.pc id = .outside rc) (hrc : 0 ≤ rc) : l'.guarded id = true := by
  cases h <;> simp_all [within, refusal] <;> omega

end Advances

/-- The timer thread moves no client, and takes the lock from its holder only. -/
theorem fire_frame (h : l.fire = some l') :
    l'.pc = l.pc ∧ l'.guarded = l.guarded ∧ (l'.holderId = l.holderId ∨ l'.holderId = -1) := by
  unfold fire at h
  split at h
  · split_ifs at h
    simp only [Option.some.injEq] at h
    subst h
    exact ⟨rfl, rfl, .inl rfl⟩
  · split_ifs at h
    simp only [Option.some.injEq] at h
    subst h
    exact ⟨rfl, rfl, .inl rfl⟩
  · simp only [Option.some.injEq] at h
    subst h
    exact ⟨rfl, rfl, .inr rfl⟩
  · simp only [Option.some.injEq] at h
    subst h
    exact ⟨rfl, rfl, .inl rfl⟩

/-- A client outside the lock calls an operation. -/
theorem Inv.enter {op : LockOp} {rc : ℤ} (hi : l.Inv) (hid : id ≠ -1) (hpc : l.pc id = .outside rc)
    (hreset : op = .resetIfOwner → l.guarded id = true) : (l.goto id (start op)).Inv := by
  have hcall : l.call id op = some (l.goto id (start op)) := by
    obtain ⟨o, -, hcount⟩ := hi
    simp only [call, hpc]
    rw [if_neg]
    rintro (h | ⟨h, hzero⟩)
    · exact hid h
    · have := hcount.paused id (.inl (hreset h))
      omega
  exact (call_passes hcall).inv hi

theorem exec_inv {x : LockAction} (h : l.exec x = some l') (hi : l.Inv) : l'.Inv := by
  cases x with
  | call id op => exact (call_passes h).inv hi
  | advance id => exact (advance_cases h).inv hi
  | fire => exact fire_inv h hi

theorem Reachable.inv (h : l.Reachable) : l.Inv :=
  h.invariant (fun _ _ _ hi _ hx => exec_inv hx hi) inv_init

theorem Inv.holder_of_guarded (hi : l.Inv) (h : l.guarded id = true) : l.holderId = id := by
  obtain ⟨o, hown, -⟩ := hi
  rw [hown.holderId, hown.holder id (.inr (.inr h))]
  rfl

theorem Inv.timer_le (hi : l.Inv) : l.timer ≤ if l.holderId = -1 then 0 else 1 := by
  obtain ⟨o, hown, hcount⟩ := hi
  obtain ⟨n, -, ht⟩ := hcount.owed
  have hholder := hown.holderId
  have hclient := hown.client
  cases o <;> grind -linarith [armed, Owner.id]

end TimedLock

/-- Whatever the clients and the timer do: the handler of the timer finds a
holder, the timer's state is at most one and at most zero while the flag is
clear, and a client that has paused keeps the lock until its reset or its
release. -/
theorem timed_lock_kept {l : TimedLock} (h : l.Reachable) :
    (l.firing = .asserting → l.holderId ≠ -1) ∧ l.timer ≤ 1 ∧
    (l.lockFlag = 0 → l.timer ≤ 0) ∧ ∀ id, l.guarded id = true → l.holderId = id := by
  have hi := h.inv
  have hle := hi.timer_le
  refine ⟨?_, ?_, ?_, fun id => hi.holder_of_guarded⟩
  · obtain ⟨o, hown, -⟩ := hi
    intro hf
    obtain ⟨id, rfl, -⟩ := hown.fired (.inl hf)
    rw [hown.holderId]
    exact hown.client id (.inl rfl)
  · split_ifs at hle <;> omega
  · obtain ⟨o, hown, -⟩ := hi
    intro hclear
    have hflag := hown.flag
    have hholder := hown.holderId
    cases o <;> grind -linarith [Owner.id]

/-- Client `1` acquires the lock and pauses; client `2` waits for the flag. -/
def firstPause : List LockAction :=
  [.call 1 .acquire, .advance 1, .advance 1, .call 2 .acquire, .advance 2, .advance 2, .advance 1,
    .advance 1, .call 1 .pauseIfOwner, .advance 1, .advance 1, .advance 1]

theorem firstPause_runs : (Machine.execAll TimedLock.exec .init firstPause).any
    (fun l => l.guarded 1 && decide (l.timer = 0)) = true := by
  decide +kernel

theorem first_pause_keeps_lock : ∃ l : TimedLock, l.Reachable ∧ l.guarded 1 = true ∧
    l.holderId = 1 ∧ l.timer ≤ 1 := by
  obtain ⟨l, hl, htest⟩ := Machine.exists_of_execAll firstPause_runs
  simp only [Bool.and_eq_true] at htest
  obtain ⟨-, hone, -, hheld⟩ := timed_lock_kept hl
  exact ⟨l, hl, htest.1, hheld 1 htest.1, hone⟩

end RaftLock

import RaftLock.Lock.Threads
import RaftLock.Lock.Verdicts

/-!
What `handle_lock_release` has done when it gives the lock up, and when it
returns `E_LOCK_EXP`.

It goes on to ask for the verdict on a transaction once its release of the lock
has succeeded, whether or not `Raft_append_entry` has stored the entry. And it
re-arms the timer behind the append, so that the lock can be taken from it
before it has released it itself.
-/

namespace RaftLock

/-! ### The lock during a release -/

namespace TimedLock

/-- `tmdspinlock_release` gives the lock up, or has done so. -/
def parting : LockPc → Bool
  | .releaseHold | .releaseSwap => true
  | .outside rc => decide (0 ≤ rc)
  | _ => false

/-- A pause that fails, or has failed, does so because the client does not
have the lock. -/
def Fails (l : TimedLock) (id : ℤ) : Prop :=
  match l.pc id with
  | .pauseResume _ => l.holderId ≠ id
  | .outside rc => rc ≠ 0 → l.holderId ≠ id
  | _ => True

/-- The client is in `tmdspinlock_release` without the lock. -/
def Ousted (l : TimedLock) (id : ℤ) : Prop := parting (l.pc id) = false ∧ l.holderId ≠ id

/-- The client is in `tmdspinlock_release` with the lock, which the timer
leaves alone, or has given it up. -/
def Firm (l : TimedLock) (id : ℤ) : Prop :=
  match l.pc id with
  | .releaseSwap => True
  | .outside rc => 0 ≤ rc
  | .pauseResume _ => False
  | _ => l.holderId = id ∧ l.firing = .asleep

variable {l l' : TimedLock} {id : ℤ}

theorem Fails.congr (h : l.Fails id) (hpc : l'.pc id = l.pc id)
    (hid : l'.holderId = id → l.holderId = id) : l'.Fails id := by
  unfold Fails at h ⊢
  rw [hpc]
  split at h
  · exact fun heq => h (hid heq)
  · exact fun hrc heq => h hrc (hid heq)
  · trivial

theorem Ousted.congr (h : l.Ousted id) (hpc : l'.pc id = l.pc id)
    (hid : l'.holderId = id → l.holderId = id) : l'.Ousted id :=
  ⟨hpc ▸ h.1, fun heq => h.2 (hid heq)⟩

theorem Firm.congr (h : l.Firm id) (hpc : l'.pc id = l.pc id)
    (hhas : l.holderId = id ∧ l.firing = .asleep → l'.holderId = id ∧ l'.firing = .asleep) :
    l'.Firm id := by
  unfold Firm at h ⊢
  rw [hpc]
  split at h
  · trivial
  · exact h
  · exact h
  · exact hhas h

theorem Inv.asleep_of_guarded (hi : l.Inv) (h : l.guarded id = true) : l.firing = .asleep := by
  obtain ⟨o, -, hcount⟩ := hi
  by_contra hf
  have hzero := hcount.debt_eq_zero hf id
  have hpos := hcount.paused id (.inl h)
  simp only [debt] at hzero
  omega

/-- A pause goes on, or fails without the lock. -/
theorem advance_fails (h : l.advance id = some l') (hw : within .pauseIfOwner (l.pc id) = true)
    (hf : l.Fails id) : l'.Fails id := by
  cases hpc : l.pc id with
  | pauseCheck r | pauseDisable r | pauseRecheck r | pauseResume r =>
      obtain rfl : r = false := by simpa [hpc, within] using hw
      simp only [advance, hpc] at h
      (try split_ifs at h) <;> simp only [Option.some.injEq] at h <;> subst h <;>
        simp_all [Fails]
  | outside rc => simp [advance, hpc] at h
  | _ => simp [hpc, within] at hw

theorem advance_ousted (h : l.advance id = some l') (hw : within .release (l.pc id) = true)
    (ho : l.Ousted id) : l'.Ousted id := by
  cases hpc : l.pc id with
  | pauseCheck r | pauseDisable r | pauseRecheck r | pauseResume r =>
      obtain rfl : r = true := by simpa [hpc, within] using hw
      simp only [advance, hpc] at h
      (try split_ifs at h) <;> simp only [Option.some.injEq] at h <;> subst h <;>
        simp_all [Ousted, parting, refusal]
  | outside rc => simp [advance, hpc] at h
  | releaseHold | releaseSwap => simp [Ousted, hpc, parting] at ho
  | _ => simp [hpc, within] at hw

theorem advance_firm (h : l.advance id = some l') (hw : within .release (l.pc id) = true)
    (hf : l.Firm id) : l'.Firm id := by
  cases hpc : l.pc id with
  | pauseCheck r | pauseDisable r | pauseRecheck r =>
      obtain rfl : r = true := by simpa [hpc, within] using hw
      simp only [advance, hpc] at h
      (try split_ifs at h) <;> simp only [Option.some.injEq] at h <;> subst h <;>
        simp_all [Firm]
  | releaseHold | releaseSwap =>
      simp only [advance, hpc, Option.some.injEq] at h
      subst h
      simp [Firm]
  | pauseResume r => simp [Firm, hpc] at hf
  | outside rc => simp [advance, hpc] at h
  | _ => simp [hpc, within] at hw

end TimedLock

/-! ### The steps of a release -/

namespace HandlerPc

/-- The handler has not come to `Raft_append_entry`, and is to return. -/
def fresh : HandlerPc → Bool
  | .returned _ | .releaseReset _ _ | .releaseUnlock _ _ | .releasePoll _ _ => false
  | _ => true

/-- The handler is between its pause and its release of the lock. -/
def releasing : HandlerPc → Bool
  | .releasePause _ _ | .releaseAppend _ _ | .releaseReset _ _ | .releaseUnlock _ _ => true
  | _ => false

end HandlerPc

namespace LockServer

/-- What a step of the handler of `c` outside the lock does to a release. -/
inductive Releases (s : LockServer) (c rc : ℤ) (s' : LockServer) : Option LogEntry → Prop
  | asks (term id : ℤ) (hp : s.handler c = .release term id)
      (hs' : s' = s.enter c .pauseIfOwner (.releasePause term id)) : Releases s c rc s' none
  | paused (term id : ℤ) (hp : s.handler c = .releasePause term id)
      (hs' : s' = s.goto c (.releaseAppend term id)) : Releases s c rc s' none
  | refused (term id : ℤ) (hp : s.handler c = .releasePause term id) (hrc : rc ≠ 0)
      (hs' : s' = s.enter c .release (.releaseUnlock term id)) : Releases s c rc s' none
  | appends (term id : ℤ) (hp : s.handler c = .releaseAppend term id)
      (hs' : s' = s.enter c .resetIfOwner (.releaseReset term id)) :
      Releases s c rc s' (some s.currentLogEntry)
  | rearmed (term id : ℤ) (hp : s.handler c = .releaseReset term id)
      (hs' : s' = s.enter c .release (.releaseUnlock term id)) : Releases s c rc s' none
  | expired (term id : ℤ) (hp : s.handler c = .releaseUnlock term id) (hrc : rc < 0)
      (reply : Reply) (hs' : s' = s.goto c (.returned reply)) : Releases s c rc s' none
  | freed (term id : ℤ) (hp : s.handler c = .releaseUnlock term id)
      (hs' : s' = s.goto c (.releasePoll term id)) : Releases s c rc s' none
  | polls (term id : ℤ) (hp : s.handler c = .releasePoll term id)
      (hp' : s'.handler c = .releasePoll term id ∨
        ∃ reply, s'.handler c = .returned reply ∧ reply.rc ≠ eLockExp) : Releases s c rc s' none
  | serves (hp : (s.handler c).fresh = true) (hp' : (s'.handler c).releasing = false) :
      Releases s c rc s' none

variable {s s' : LockServer} {raft : RaftState} {c j rc : ℤ} {out : Option LogEntry}

theorem resume_releases (hstep : s.resume raft c rc = some (s', out)) :
    s.Releases c rc s' out := by
  unfold LockServer.resume at hstep
  cases hp : s.handler c with
  | returned reply => simp [hp] at hstep
  | release term id =>
      simp only [hp] at hstep
      split_ifs at hstep <;> simp only [Option.some.injEq, Prod.mk.injEq] at hstep <;>
        obtain ⟨rfl, rfl⟩ := hstep
      · exact .asks term id hp rfl
      · exact .serves (hp ▸ rfl) (by simp [HandlerPc.releasing])
  | releasePause term id =>
      simp only [hp] at hstep
      split_ifs at hstep with hrc <;> simp only [Option.some.injEq, Prod.mk.injEq] at hstep <;>
        obtain ⟨rfl, rfl⟩ := hstep
      · exact .paused term id hp rfl
      · exact .refused term id hp hrc rfl
  | releaseAppend term id =>
      simp only [hp, Option.some.injEq, Prod.mk.injEq] at hstep
      obtain ⟨rfl, rfl⟩ := hstep
      exact .appends term id hp rfl
  | releaseReset term id =>
      simp only [hp, Option.some.injEq, Prod.mk.injEq] at hstep
      obtain ⟨rfl, rfl⟩ := hstep
      exact .rearmed term id hp rfl
  | releaseUnlock term id =>
      simp only [hp] at hstep
      split_ifs at hstep with hrc <;> simp only [Option.some.injEq, Prod.mk.injEq] at hstep <;>
        obtain ⟨rfl, rfl⟩ := hstep
      · exact .expired term id hp hrc _ rfl
      · exact .freed term id hp rfl
  | releasePoll term id =>
      simp only [hp] at hstep
      split_ifs at hstep <;> simp only [Option.some.injEq, Prod.mk.injEq] at hstep <;>
        obtain ⟨rfl, rfl⟩ := hstep
      · exact .polls term id hp (Or.inl hp)
      · exact .polls term id hp (Or.inr ⟨_, goto_handler _ _ _, by decide⟩)
      · exact .polls term id hp (Or.inr ⟨_, goto_handler _ _ _, by decide⟩)
  | appendSlot filename buffer i =>
      simp only [hp, Option.map_eq_some_iff, Prod.mk.injEq] at hstep
      obtain ⟨s₁, hturn, rfl, rfl⟩ := hstep
      simp only [LockServer.appendTurn] at hturn
      split_ifs at hturn <;> simp only [Option.some.injEq] at hturn <;> subst hturn <;>
        exact .serves (hp ▸ rfl) (by simp [endAppend, HandlerPc.releasing])
  | _ =>
      simp only [hp] at hstep
      (try split_ifs at hstep) <;>
        simp only [Option.some.injEq, Prod.mk.injEq] at hstep <;> obtain ⟨rfl, rfl⟩ := hstep <;>
        exact .serves (hp ▸ rfl) (by simp [HandlerPc.releasing])

/-! ### What a release has recorded -/

/-- The pause of `c` fails for want of the lock; its append has recorded the
entry, as `R` says; and its release of the lock comes behind one or the other. -/
def Warranted (R : ℤ → ℤ → Prop) (s : LockServer) (c : ℤ) : Prop :=
  match s.handler c with
  | .releasePause _ _ => s.lock.Fails c
  | .releaseReset term id => R term id
  | .releaseUnlock term id => R term id ∨ s.lock.Ousted c
  | _ => True

variable {R R' : ℤ → ℤ → Prop}

theorem Warranted.of_not_releasing (h : (s.handler c).releasing = false) : s.Warranted R c := by
  unfold Warranted
  cases hp : s.handler c <;> simp_all [HandlerPc.releasing]

theorem Warranted.mono (h : s.Warranted R c)
    (hR : ∀ term id, (s.handler c = .releaseReset term id ∨
      (s.handler c = .releaseUnlock term id ∧ ¬ s.lock.Ousted c)) → R term id → R' term id) :
    s.Warranted R' c := by
  unfold Warranted at h ⊢
  cases hp : s.handler c with
  | releaseReset term id =>
      simp only [hp] at h
      exact hR term id (Or.inl hp) h
  | releaseUnlock term id =>
      simp only [hp] at h
      by_cases hout : s.lock.Ousted c
      · exact Or.inr hout
      · exact Or.inl (hR term id (Or.inr ⟨hp, hout⟩) (h.resolve_right hout))
  | releasePause term id => simpa only [hp] using h
  | _ => trivial

/-- The lock may be taken from a client that stands still. -/
theorem Warranted.still (h : s.Warranted R c) (hhandler : s'.handler c = s.handler c)
    (hpc : s'.lock.pc c = s.lock.pc c)
    (hid : (s.handler c).releasing = true → s'.lock.holderId = c → s.lock.holderId = c) :
    s'.Warranted R c := by
  unfold Warranted at h ⊢
  rw [hhandler]
  cases hp : s.handler c with
  | releasePause term id =>
      simp only [hp] at h
      exact h.congr hpc (hid (hp ▸ rfl))
  | releaseReset term id => simpa only [hp] using h
  | releaseUnlock term id =>
      simp only [hp] at h
      exact h.imp_right fun hout => hout.congr hpc (hid (hp ▸ rfl))
  | _ => trivial

theorem Warranted.resume (h : s.Warranted R c) (hrc : s.lock.pc c = .outside rc)
    (hr : s.Releases c rc s' out)
    (happend : ∀ term id, s.handler c = .releaseAppend term id → R term id) : s'.Warranted R c := by
  unfold Warranted at h
  cases hr with
  | asks term id hp hs' =>
      subst hs'
      simp [Warranted, TimedLock.Fails, TimedLock.start]
  | paused term id hp hs' =>
      subst hs'
      simp [Warranted]
  | refused term id hp hne hs' =>
      subst hs'
      simp only [hp, TimedLock.Fails, hrc] at h
      simp only [Warranted, enter_handler]
      refine Or.inr ⟨?_, h hne⟩
      simp [TimedLock.start, TimedLock.parting]
  | appends term id hp hs' =>
      subst hs'
      simp only [Warranted, enter_handler]
      exact happend term id hp
  | rearmed term id hp hs' =>
      subst hs'
      simp only [hp] at h
      simp only [Warranted, enter_handler]
      exact Or.inl h
  | expired term id hp hneg reply hs' =>
      subst hs'
      simp [Warranted]
  | freed term id hp hs' =>
      subst hs'
      simp [Warranted]
  | polls term id hp hp' =>
      refine .of_not_releasing ?_
      rcases hp' with hp' | ⟨reply, hp', -⟩ <;> rw [hp'] <;> rfl
  | serves hp hp' => exact .of_not_releasing hp'

theorem Warranted.advance (h : s.Warranted R c) (hs : s.Seated c) {l : TimedLock}
    (hl : s.lock.advance c = some l) : Warranted R { s with lock := l } c := by
  obtain ⟨op, hop, hw⟩ := hs.waits (TimedLock.advance_cases hl).inside
  unfold Warranted at h ⊢
  simp only
  cases hp : s.handler c with
  | releasePause term id =>
      simp only [hp, HandlerPc.calls, Option.some.injEq] at h hop
      exact TimedLock.advance_fails hl (hop ▸ hw) h
  | releaseReset term id => simpa only [hp] using h
  | releaseUnlock term id =>
      simp only [hp, HandlerPc.calls, Option.some.injEq] at h hop
      exact h.imp_right (TimedLock.advance_ousted hl (hop ▸ hw))
  | _ => trivial

/-- The call of `Raft_append_entry` hands over the shared entry. -/
theorem Seated.step_append {term id : ℤ} (h : s.Seated c)
    (hp : s.handler c = .releaseAppend term id) (raft : RaftState) :
    s.step raft c =
      some (s.enter c .resetIfOwner (.releaseReset term id), some s.currentLogEntry) := by
  have hcalls := h.calls
  simp only [HandlerPc.Calls, HandlerPc.calls, hp] at hcalls
  obtain ⟨rc, hrc⟩ := hcalls
  simp only [LockServer.step, hrc, LockServer.resume, hp]

theorem Seated.client_of_releasing (h : s.Seated c) (hp : (s.handler c).releasing = true) :
    c ≠ -1 := by
  refine h.client fun reply hret => ?_
  rw [hret] at hp
  exact absurd hp (by simp [HandlerPc.releasing])

theorem Steady.warranted_step (hs : s.Steady) (hstep : s.step raft c = some (s', out))
    (happend : ∀ term id, s.handler c = .releaseAppend term id → R term id)
    (h : ∀ j, s.Warranted R j) (j : ℤ) : s'.Warranted R j := by
  rcases eq_or_ne j c with rfl | hj
  · rcases step_cases hstep with ⟨rc, hrc, hresume⟩ | ⟨l, hl, rfl, -⟩
    · exact (h j).resume hrc (resume_releases hresume) happend
    · exact (h j).advance (hs.seated j) hl
  · have he := hs.step_elsewhere hstep hj
    exact (h j).still he.handler he.pc fun hp =>
      (he.holder ((hs.seated j).client_of_releasing hp)).mp

theorem Steady.warranted_accept (hs : s.Steady) {request : LockRequest}
    (hstep : s.accept c request = some s') (h : ∀ j, s.Warranted R j) (j : ℤ) :
    s'.Warranted R j := by
  rcases eq_or_ne j c with rfl | hj
  · refine .of_not_releasing ?_
    rw [accept_handler hstep]
    cases request <;> rfl
  · have he := accept_elsewhere hstep hj
    exact (h j).still he.handler he.pc fun hp =>
      (he.holder ((hs.seated j).client_of_releasing hp)).mp

theorem Steady.warranted_fire (hs : s.Steady) {l : TimedLock} (hfire : s.lock.fire = some l)
    (h : ∀ j, s.Warranted R j) (j : ℤ) : Warranted R { s with lock := l } j := by
  obtain ⟨hpc, -, hholder⟩ := TimedLock.fire_frame hfire
  refine (h j).still rfl (congrFun hpc j) fun hp hid => ?_
  rcases hholder with hsame | hgone
  · exact hsame.symm.trans hid
  · exact absurd (hid.symm.trans hgone) ((hs.seated j).client_of_releasing hp)

/-- The release of `c` has called `Raft_append_entry`, and will give the lock
up unless it is taken from it. -/
def Pledged (s : LockServer) (c term id : ℤ) : Prop :=
  s.handler c = .releaseReset term id ∨
    (s.handler c = .releaseUnlock term id ∧ ¬ s.lock.Ousted c)

/-- The release of `c` has given the lock up and goes on to ask for the
verdict. -/
def GivesUp (s : LockServer) (c term id : ℤ) : Prop :=
  s.handler c = .releaseUnlock term id ∧
    (s.lock.pc c = .releaseSwap ∨ ∃ rc, 0 ≤ rc ∧ s.lock.pc c = .outside rc)

theorem Warranted.gives_up {term id : ℤ} (h : s.Warranted R c) (hgives : s.GivesUp c term id) :
    R term id := by
  obtain ⟨hp, hpc⟩ := hgives
  unfold Warranted at h
  simp only [hp] at h
  refine h.resolve_right fun hout => ?_
  have hparting := hout.1
  rcases hpc with hpc | ⟨rc, hrc, hpc⟩ <;> rw [hpc] at hparting <;>
    simp [TimedLock.parting] at hparting
  omega

end LockServer

/-! ### Released means logged -/

namespace Ledger

/-- `Raft_append_entry` stores the entry under the tag. -/
structure Admits (r : RaftState) (e : LogEntry) (term id : ℤ) : Prop where
  storing : Storing r
  term : r.currentTerm = term
  id : e.id = id

/-- The condition on runs: a release that calls `Raft_append_entry` has its
entry stored under its tag; and until it has given the lock up its server
handles no packet that replaces the entry. -/
def KeepsReleased (l : Ledger) : ManagerAction → Prop
  | .raft x => ∀ s c term id, (l.server s).Pledged c term id →
      x.Spares l.manager.cluster s (l.Appended term id)
  | .step s c none => ∀ term id, (l.server s).handler c = .releaseAppend term id →
      Admits (l.raft s) (l.server s).currentLogEntry term id
  | .step _ _ (some _) | .accept _ _ _ | .fire _ => True

structure ReleaseInv (l : Ledger) : Prop where
  steady : ∀ s, (l.server s).Steady
  down : ∀ s, l.up s = false → l.server s = .init
  warranted : ∀ s c, (l.server s).Warranted (l.Recorded s) c

theorem warranted_init (R : ℤ → ℤ → Prop) (c : ℤ) : LockServer.init.Warranted R c :=
  .of_not_releasing rfl

theorem releaseInv_init (config : Config) : ReleaseInv (init config) where
  steady _ := LockServer.steady_init
  down s hdown := absurd hdown (by simp [up, init, Manager.init, Cluster.init, Node.init])
  warranted _ c := warranted_init _ c

variable {l l' : Ledger} {x : ManagerAction} {s : Server}

/-- A release that outlives its call of `Raft_append_entry` has run it to its
end. -/
theorem exec_append {c : ℤ} {crashAt : Option ℕ} {term id : ℤ} (hs : (l.server s).Seated c)
    (hp : (l.server s).handler c = .releaseAppend term id)
    (hx : l.exec (.step s c crashAt) = some l') (hon : l'.up s = true) : crashAt = none ∧
      (appendEntry (l.raft s) (l.server s).currentLogEntry).fault = false ∧
      l'.raft s = (appendEntry (l.raft s) (l.server s).currentLogEntry).raft := by
  have hexec := Manager.exec_cases (exec_some hx).1
  have hhands := hs.step_append hp (l.raft s)
  unfold up at hon
  unfold raft
  generalize l'.manager = m' at hexec hon ⊢
  cases hexec with
  | serve _ _ _ k hup hstep =>
      have hnone := hstep.symm.trans hhands
      simp at hnone
  | append _ _ _ k e c' hup hstep hc' =>
      have hsame := hstep.symm.trans hhands
      simp only [Option.some.injEq, Prod.mk.injEq] at hsame
      obtain ⟨-, rfl⟩ := hsame
      exact Cluster.exec_append hc' hon

/-- What it has stored then is the client's entry under the tag. -/
theorem Admits.appended {c : ℤ} {crashAt : Option ℕ} {term id : ℤ}
    (h : Admits (l.raft s) (l.server s).currentLogEntry term id) (hs : (l.server s).Seated c)
    (hp : (l.server s).handler c = .releaseAppend term id)
    (hx : l.exec (.step s c crashAt) = some l') : l'.Appended term id
      { (l.server s).currentLogEntry with
        term := (l.raft s).currentTerm, nServersReplicated := 0, type := .clientLog } := by
  refine ⟨⟨h.term, h.id⟩, rfl, ?_⟩
  have hexec := Manager.exec_cases (exec_some hx).1
  have hhands := hs.step_append hp (l.raft s)
  generalize l'.manager = m' at hexec ⊢
  cases hexec with
  | serve _ _ _ k hup hstep =>
      have hnone := hstep.symm.trans hhands
      simp at hnone
  | append _ _ _ k e c' hup hstep hc' =>
      have hsame := hstep.symm.trans hhands
      simp only [Option.some.injEq, Prod.mk.injEq] at hsame
      obtain ⟨-, rfl⟩ := hsame
      have hstores : Manager.storedEntry (l.raft s) (l.server s).currentLogEntry =
          [{ (l.server s).currentLogEntry with
            term := (l.raft s).currentTerm, nServersReplicated := 1, type := .clientLog }] :=
        if_neg (by push Not; exact h.storing)
      refine List.mem_map.mpr ⟨{ (l.server s).currentLogEntry with
        term := (l.raft s).currentTerm, nServersReplicated := 1, type := .clientLog },
        List.mem_append_right _ ?_, rfl⟩
      show _ ∈ Manager.storedEntry (l.raft s) (l.server s).currentLogEntry
      rw [hstores]
      exact List.mem_singleton_self _

theorem ReleaseInv.exec (h : l.ReleaseInv) (hok : l.KeepsReleased x) (hx : l.exec x = some l') :
    l'.ReleaseInv := by
  have hm := (exec_some hx).1
  have hserves := Manager.exec_serves hm
  refine ⟨fun s => (hserves s).steady (h.steady s),
    fun s hdown => Manager.exec_idle hm (h.down s) (Or.inr hdown), fun s c => ?_⟩
  cases hon : l'.up s with
  | false =>
      have hinit : l'.server s = .init := Manager.exec_idle hm (h.down s) (Or.inr hon)
      rw [hinit]
      exact warranted_init _ c
  | true =>
      cases hup : l.up s with
      | false =>
          have hinit : l'.server s = .init := Manager.exec_idle hm (h.down s) (Or.inl hup)
          rw [hinit]
          exact warranted_init _ c
      | true =>
          have hwarranted : ∀ j, (l.server s).Warranted (l'.Recorded s) j := by
            refine fun j => (h.warranted s j).mono fun term id hpledged hrec => ?_
            refine hrec.exec hx hup hon ?_
            rintro a rfl
            exact hok s j term id hpledged
          have hs := hserves s
          unfold Ledger.server
          generalize l'.manager.server s = k at hs ⊢
          cases hs with
          | rests => exact hwarranted c
          | ends => exact warranted_init _ c
          | accepts _ request _ ha => exact (h.steady s).warranted_accept ha hwarranted c
          | steps c' crashAt _ out hstep =>
              refine (h.steady s).warranted_step hstep (fun term id hp => ?_) hwarranted c
              obtain ⟨rfl, hf, hraft⟩ := exec_append ((h.steady s).seated c') hp hx hon
              have hadmits := hok term id hp
              left
              rw [hraft]
              exact appendEntry_stores hadmits.storing hf
                (hadmits.appended ((h.steady s).seated c') hp hx)
          | fires lock hfire => exact (h.steady s).warranted_fire hfire hwarranted c

theorem recorded_of_givesUp {config : Config}
    (hrun : Machine.Steps exec KeepsReleased (.init config) l) {c term id : ℤ}
    (hgives : (l.server s).GivesUp c term id) : l.Recorded s term id := by
  have h : l.ReleaseInv := hrun.invariant (fun _ _ _ h hok hx => h.exec hok hx)
    (releaseInv_init config)
  exact (h.warranted s c).gives_up hgives

end Ledger

/-- The thread's release has given the lock up and goes on to ask for the
verdict. -/
def HandlerThread.GivesUp (t : HandlerThread) (term id : ℤ) : Prop :=
  t.pc = .releaseUnlock term id ∧
    (t.lockPc = .releaseSwap ∨ ∃ rc, 0 ≤ rc ∧ t.lockPc = .outside rc)

theorem LockServer.StandsWith.gives_up {s : LockServer} {logged : ℤ → List LogEntry}
    {t : HandlerThread} (h : s.StandsWith logged t) {term id : ℤ} :
    t.GivesUp term id ↔ s.GivesUp t.client term id := by
  rw [HandlerThread.GivesUp, LockServer.GivesUp, h.handler, h.pc]

theorem HandlerThread.GivesUp.running {t : HandlerThread} {term id : ℤ}
    (h : t.GivesUp term id) : t.Running := by
  rw [Running, h.1]
  rfl

/-- A release that has given the lock up is that of a thread. -/
theorem ThreadLedger.Inv.gives_up {m : ThreadLedger} (h : m.Inv) {s : Server} {c term id : ℤ}
    (hgives : (m.ledger.server s).GivesUp c term id) :
    ∃ t ∈ m.threads s, t.client = c ∧ t.GivesUp term id := by
  obtain ⟨t, ht, hclient, hp, hpc⟩ := h.served_by hgives.1 rfl
  exact ⟨t, ht, hclient, hp, hpc ▸ hgives.2⟩

/-- In a run in which no client has two handlers running, and every release has
its entry stored, and kept until it gives the lock up: once a thread has given
the lock up, the log or the snapshot of its server contains a client's entry
with the tag that `Raft_append_entry` has stored. The verdict asked for is on a
transaction that was appended. -/
theorem released_means_logged {config : Config} {m : ThreadLedger}
    (hrun : Machine.Steps ThreadLedger.exec (ThreadLedger.Meets Ledger.KeepsReleased)
      (.init config) m) {s : Server} {t : HandlerThread} (ht : t ∈ m.threads s) {term id : ℤ}
    (hgives : t.GivesUp term id) : m.ledger.Recorded s term id := by
  obtain ⟨hledger, hinv⟩ := ThreadLedger.ledger_run hrun
  have hstands := (hinv.threaded s).stands t ht hgives.running
  exact Ledger.recorded_of_givesUp hledger (hstands.gives_up.mp hgives)

namespace Ledger

instance (r : RaftState) (e : LogEntry) (term id : ℤ) : Decidable (Admits r e term id) :=
  decidable_of_iff ((r.state = .leader ∧ r.logCount ≠ r.startLogIndex + (logSize : ℤ)) ∧
    r.currentTerm = term ∧ e.id = id) ⟨fun h => ⟨h.1, h.2.1, h.2.2⟩, fun h => ⟨h.1, h.2, h.3⟩⟩

instance (l : Ledger) (term id : ℤ) : DecidablePred (l.Appended term id) := fun e =>
  inferInstanceAs (Decidable (e.Tagged term id ∧ e.type = .clientLog ∧ _))

instance (l : Ledger) (s : Server) (term id : ℤ) : Decidable (l.Recorded s term id) :=
  inferInstanceAs (Decidable (_ ∨ ∃ e ∈ l.compacted s, l.Appended term id e.core))

/-- The packet cannot replace an entry. -/
def harmless : Packet → Bool
  | .vote _ | .response _ => true
  | .append _ | .installSnapshot _ => false

/-- No request of another leader is handled, and the entries of releases are
stored. -/
def keepsReleased (l : Ledger) : ManagerAction → Bool
  | .raft (.deliver k none) => (l.manager.cluster.net[k]?).all fun d => harmless d.packet
  | .step s c none =>
    match (l.server s).handler c with
    | .releaseAppend term id => decide (Admits (l.raft s) (l.server s).currentLogEntry term id)
    | _ => true
  | _ => true

theorem keepsReleased_sound (l : Ledger) (x : ManagerAction) (h : l.keepsReleased x = true) :
    l.KeepsReleased x := by
  cases x with
  | raft x =>
      rintro s c term id - k d rfl hd -
      simp only [keepsReleased, hd, Option.all_some] at h
      intro i e he ht
      cases hp : d.packet <;> simp_all [harmless, Replaces]
  | step s c crashAt =>
      cases crashAt with
      | none =>
          intro term id hp
          simp only [keepsReleased, hp] at h
          exact of_decide_eq_true h
      | some k => trivial
  | accept => trivial
  | fire => trivial

/-- The release of client `c` at server `0`, up to the point where it has given
the lock up. -/
def gives (c : ℤ) : List ManagerAction :=
  .accept 0 c (.release 1 c) :: List.replicate 14 (.step 0 c none)

def firstGives : List ManagerAction := firstElection.map .raft ++ acquires 0 1 ++ gives 1

set_option maxRecDepth 10000 in
theorem firstGives_runs : (Machine.execWhile exec keepsReleased (.init plainConfig) firstGives).any
    (fun l => decide ((l.server 0).handler 1 = .releaseUnlock 1 1 ∧
      (l.server 0).lock.pc 1 = .outside 0)) = true := by
  decide +kernel

end Ledger

theorem first_release_logged : ∃ m : ThreadLedger, ∃ t ∈ m.threads 0,
    Machine.Steps ThreadLedger.exec (ThreadLedger.Meets Ledger.KeepsReleased)
      (.init plainConfig) m ∧
    t.client = 1 ∧ t.GivesUp 1 1 ∧ m.ledger.Recorded 0 1 1 := by
  obtain ⟨_, hledger, hl⟩ := Machine.exists_of_execWhile Ledger.KeepsReleased
    Ledger.keepsReleased_sound Ledger.firstGives_runs
  obtain ⟨hp, hpc⟩ := of_decide_eq_true hl
  obtain ⟨m, hrun, rfl, hinv⟩ := ThreadLedger.of_ledger hledger
  obtain ⟨t, ht, hclient, hgives⟩ := hinv.gives_up ⟨hp, Or.inr ⟨0, le_rfl, hpc⟩⟩
  exact ⟨m, t, ht, hrun, hclient, hgives, released_means_logged hrun ht hgives⟩

namespace Ledger

/-- Ninety-nine clients acquire and release the lock in turn, and none of
their entries is replicated; the entry of the next client does not fit. -/
def fullLog : List ManagerAction :=
  firstElection.map .raft ++
    (List.range 99).flatMap (fun k =>
      acquires 0 (k + 1) ++ gives (k + 1) ++ [ManagerAction.step 0 (k + 1) none]) ++
    acquires 0 100 ++ gives 100

set_option maxRecDepth 100000 in
theorem fullLog_runs : (Machine.execAll exec (.init plainConfig) fullLog).any
    (fun l => decide ((l.raft 0).state = .leader ∧ (l.raft 0).currentTerm = 1 ∧
      (l.server 0).currentLogEntry.client = 100 ∧ (l.server 0).currentLogEntry.id = 100 ∧
      (l.server 0).handler 100 = .releaseUnlock 1 100 ∧
      (l.server 0).lock.pc 100 = .outside 0 ∧ ¬ l.Recorded 0 1 100)) = true := by
  decide +kernel

end Ledger

/-- At a leader with a full log a client gives its lock up for a transaction
that is neither in the log nor in a snapshot, and no client has had two
handlers running. -/
theorem released_but_not_logged : ∃ m : ThreadLedger, ∃ t ∈ m.threads 0,
    Machine.Steps ThreadLedger.exec ThreadLedger.OneEach (.init plainConfig) m ∧
    (m.ledger.raft 0).state = .leader ∧ (m.ledger.raft 0).currentTerm = 1 ∧
    (m.ledger.server 0).currentLogEntry.client = 100 ∧
    (m.ledger.server 0).currentLogEntry.id = 100 ∧
    t.client = 100 ∧ t.GivesUp 1 100 ∧ ¬ m.ledger.Recorded 0 1 100 := by
  obtain ⟨_, hledger, hl⟩ := Machine.exists_of_execAll Ledger.fullLog_runs
  obtain ⟨hstate, hterm, hclient, hid, hp, hpc, hnot⟩ := of_decide_eq_true hl
  obtain ⟨m, hrun, rfl, hinv⟩ := ThreadLedger.of_ledger hledger
  obtain ⟨t, ht, htc, hgives⟩ := hinv.gives_up ⟨hp, Or.inr ⟨0, le_rfl, hpc⟩⟩
  exact ⟨m, t, ht, hrun.weaken fun _ _ h => h.1, hstate, hterm, hclient, hid, htc, hgives, hnot⟩

/-! ### Expired means not logged -/

namespace LockServer

variable {s s' : LockServer} {raft : RaftState} {c j rc : ℤ} {out : Option LogEntry}
  {logged : List LogEntry}

/-- A call that has logged something has the lock until it has given it up,
and does not come to `E_LOCK_EXP`. -/
def Accounted (logged : List LogEntry) (s : LockServer) (c : ℤ) : Prop :=
  match s.handler c with
  | .releaseReset _ _ => logged ≠ [] → s.lock.holderId = c ∧ s.lock.firing = .asleep
  | .releaseUnlock _ _ => logged ≠ [] → s.lock.Firm c
  | .releasePoll _ _ => True
  | .returned reply => reply.rc = eLockExp → logged = []
  | _ => logged = []

theorem Accounted.fresh (h : s.Accounted logged c) (hp : (s.handler c).fresh = true) :
    logged = [] := by
  unfold Accounted at h
  cases hq : s.handler c <;> simp_all [HandlerPc.fresh]

theorem accounted_nil (s : LockServer) (c : ℤ) (hp : (s.handler c).releasing = false) :
    s.Accounted [] c := by
  unfold Accounted
  cases hq : s.handler c <;> simp_all [HandlerPc.releasing]

theorem Accounted.still (h : s.Accounted logged c) (hhandler : s'.handler c = s.handler c)
    (hpc : s'.lock.pc c = s.lock.pc c)
    (hhas : (s.handler c).releasing = true → logged ≠ [] →
      s.lock.holderId = c ∧ s.lock.firing = .asleep →
      s'.lock.holderId = c ∧ s'.lock.firing = .asleep) : s'.Accounted logged c := by
  unfold Accounted at h ⊢
  rw [hhandler]
  cases hp : s.handler c with
  | releaseReset term id =>
      simp only [hp] at h
      exact fun hlogged => hhas (hp ▸ rfl) hlogged (h hlogged)
  | releaseUnlock term id =>
      simp only [hp] at h
      exact fun hlogged => (h hlogged).congr hpc (hhas (hp ▸ rfl) hlogged)
  | releasePoll term id => trivial
  | _ => simpa only [hp] using h

theorem Accounted.resume (h : s.Accounted logged c) (hrc : s.lock.pc c = .outside rc)
    (hr : s.Releases c rc s' none) : s'.Accounted logged c := by
  cases hr with
  | asks term id hp hs' =>
      subst hs'
      simp only [Accounted, enter_handler]
      exact h.fresh (hp ▸ rfl)
  | paused term id hp hs' =>
      subst hs'
      simp only [Accounted, goto_handler]
      exact h.fresh (hp ▸ rfl)
  | refused term id hp hne hs' =>
      subst hs'
      simp only [Accounted, enter_handler]
      exact fun hlogged => absurd (h.fresh (hp ▸ rfl)) hlogged
  | rearmed term id hp hs' =>
      subst hs'
      unfold Accounted at h
      simp only [hp] at h
      simp only [Accounted, enter_handler, TimedLock.Firm, enter_pc, TimedLock.start]
      exact h
  | expired term id hp hneg reply hs' =>
      subst hs'
      unfold Accounted at h
      simp only [hp, TimedLock.Firm, hrc] at h
      simp only [Accounted, goto_handler]
      refine fun _ => by_contra fun hlogged => ?_
      have := h hlogged
      omega
  | freed term id hp hs' =>
      subst hs'
      simp [Accounted]
  | polls term id hp hp' =>
      unfold Accounted
      rcases hp' with hp' | ⟨reply, hp', hne⟩ <;> simp only [hp']
      exact fun heq => absurd heq hne
  | serves hp hp' =>
      obtain rfl := h.fresh hp
      exact accounted_nil s' c hp'

/-- A client that appends has the lock, and its pause keeps the timer from
taking it. -/
theorem Steady.accounted_append {term id : ℤ} (hs : s.Steady)
    (hp : s.handler c = .releaseAppend term id) (logged : List LogEntry) :
    (s.enter c .resetIfOwner (.releaseReset term id)).Accounted logged c := by
  have hguarded : s.lock.guarded c = true := (hs.seated c).paused (by rw [hp]; trivial)
  simp only [Accounted, enter_handler]
  exact fun _ => ⟨hs.lock.holder_of_guarded hguarded, hs.lock.asleep_of_guarded hguarded⟩

theorem Accounted.advance (h : s.Accounted logged c) (hs : s.Seated c) {l : TimedLock}
    (hl : s.lock.advance c = some l) : Accounted logged { s with lock := l } c := by
  have hadvances := TimedLock.advance_cases hl
  obtain ⟨op, hop, hw⟩ := hs.waits hadvances.inside
  unfold Accounted at h ⊢
  simp only
  cases hp : s.handler c with
  | releaseReset term id =>
      simp only [hp, HandlerPc.calls, Option.some.injEq] at h hop
      subst hop
      refine fun hlogged => ⟨?_, hadvances.firing.trans (h hlogged).2⟩
      rcases hadvances.holder with hsame | ⟨-, hpc⟩ | ⟨-, hpc⟩
      · exact hsame.trans (h hlogged).1
      all_goals simp [hpc, TimedLock.within] at hw
  | releaseUnlock term id =>
      simp only [hp, HandlerPc.calls, Option.some.injEq] at h hop
      exact fun hlogged => TimedLock.advance_firm hl (hop ▸ hw) (h hlogged)
  | releasePoll term id => trivial
  | _ => simpa only [hp] using h

theorem Steady.accounted_step (hs : s.Steady) (hstep : s.step raft c = some (s', out))
    {before after : ℤ → List LogEntry} (hkept : ∀ i, i ≠ c → after i = before i)
    (hquiet : out = none → after c = before c) (h : ∀ i, s.Accounted (before i) i) (j : ℤ) :
    s'.Accounted (after j) j := by
  rcases eq_or_ne j c with rfl | hj
  · rcases step_cases hstep with ⟨rc, hrc, hresume⟩ | ⟨l, hl, rfl, rfl⟩
    · have hr := resume_releases hresume
      cases out with
      | none =>
          rw [hquiet rfl]
          exact (h j).resume hrc hr
      | some e =>
          cases hr with
          | appends term id hp hs' =>
              subst hs'
              exact hs.accounted_append hp _
    · rw [hquiet rfl]
      exact (h j).advance (hs.seated j) hl
  · have he := hs.step_elsewhere hstep hj
    rw [hkept j hj]
    refine (h j).still he.handler he.pc fun hp _ hhas => ⟨?_, he.firing.trans hhas.2⟩
    exact (he.holder ((hs.seated j).client_of_releasing hp)).mpr hhas.1

theorem Steady.accounted_accept (hs : s.Steady) {request : LockRequest}
    (hstep : s.accept c request = some s') {before : ℤ → List LogEntry}
    (h : ∀ i, s.Accounted (before i) i) (j : ℤ) :
    s'.Accounted (Function.update before c [] j) j := by
  rcases eq_or_ne j c with rfl | hj
  · rw [Function.update_self]
    refine accounted_nil s' j ?_
    rw [accept_handler hstep]
    cases request <;> rfl
  · have he := accept_elsewhere hstep hj
    rw [Function.update_of_ne hj]
    refine (h j).still he.handler he.pc fun hp _ hhas => ⟨?_, he.firing.trans hhas.2⟩
    exact (he.holder ((hs.seated j).client_of_releasing hp)).mpr hhas.1

theorem accounted_fire {l : TimedLock} (hfire : s.lock.fire = some l)
    {logged : ℤ → List LogEntry} (hok : s.lock.firing = .asleep →
      (s.handler s.lock.holderId).releasing = true → logged s.lock.holderId = [])
    (h : ∀ i, s.Accounted (logged i) i) (j : ℤ) : Accounted (logged j) { s with lock := l } j := by
  refine (h j).still rfl (congrFun (TimedLock.fire_frame hfire).1 j) ?_
  rintro hreleasing hlogged ⟨rfl, hasleep⟩
  exact absurd (hok hasleep hreleasing) hlogged

end LockServer

namespace Ledger

/-- The condition on runs: the timer does not fire on a client whose release
has put an entry into the log. -/
def SparesLogged (l : Ledger) : ManagerAction → Prop
  | .fire s => (l.server s).lock.firing = .asleep →
      ((l.server s).handler (l.server s).lock.holderId).releasing = true →
      l.logged s (l.server s).lock.holderId = []
  | .raft _ | .accept _ _ _ | .step _ _ _ => True

structure AccountInv (l : Ledger) : Prop where
  steady : ∀ s, (l.server s).Steady
  accounted : ∀ s c, (l.server s).Accounted (l.logged s c) c

theorem accounted_init (logged : List LogEntry) (c : ℤ) :
    LockServer.init.Accounted logged c := by
  simp [LockServer.Accounted, LockServer.init]

theorem accountInv_init (config : Config) : AccountInv (init config) where
  steady _ := LockServer.steady_init
  accounted _ c := accounted_init _ c

variable {l l' : Ledger} {x : ManagerAction} {s : Server}

/-- Only the steps of its own handlers are noted for a server. -/
theorem loggedAfter_rests (hother : ∀ c crashAt, x ≠ .step s c crashAt)
    (hcalls : ∀ c request, x ≠ .accept s c request) : l.loggedAfter x s = l.logged s := by
  cases x with
  | raft a => rfl
  | accept v c request =>
      have hne : s ≠ v := by
        rintro rfl
        exact hcalls c request rfl
      exact note_of_ne l.logged hne c []
  | step v c crashAt =>
      have hne : s ≠ v := by
        rintro rfl
        exact hother c crashAt rfl
      exact note_of_ne l.logged hne c _
  | fire v => rfl

theorem AccountInv.exec (h : l.AccountInv) (hok : l.SparesLogged x) (hx : l.exec x = some l') :
    l'.AccountInv := by
  obtain ⟨hm, hlogged, -⟩ := exec_some hx
  have hserves := Manager.exec_serves hm
  refine ⟨fun s => (hserves s).steady (h.steady s), fun s c => ?_⟩
  have hs := hserves s
  have hbefore := h.accounted s
  rw [hlogged]
  unfold Ledger.server
  generalize l'.manager.server s = k at hs ⊢
  cases hs with
  | rests _ hother hcalls =>
      rw [loggedAfter_rests hother hcalls]
      exact hbefore c
  | ends => exact accounted_init _ c
  | accepts c' request _ ha =>
      rw [loggedAfter, note_self]
      exact (h.steady s).accounted_accept ha hbefore c
  | steps c' crashAt _ out hstep =>
      have hstep' : (l.server s).step (l.raft s) c' = some (k, out) := hstep
      rw [loggedAfter, note_self]
      refine (h.steady s).accounted_step hstep' (fun i hi => Function.update_of_ne hi _ _)
        (fun hnone => ?_) hbefore c
      subst hnone
      simp only [Function.update_self, puts, hstep', List.append_nil]
  | fires lock hfire => exact LockServer.accounted_fire hfire hok hbefore c

theorem AccountInv.expired (h : l.AccountInv) {c : ℤ} {reply : Reply}
    (hreply : (l.server s).handler c = .returned reply) (hexpired : reply.rc = eLockExp) :
    l.logged s c = [] := by
  have hc := h.accounted s c
  unfold LockServer.Accounted at hc
  simp only [hreply] at hc
  exact hc hexpired

end Ledger

namespace ThreadLedger

/-- A thread that has returned does not move any more, while its client may
have the next one. -/
structure AccountInv (m : ThreadLedger) : Prop where
  account : m.ledger.AccountInv
  inv : m.Inv
  expired : ∀ s, ∀ t ∈ m.threads s, ∀ reply : Reply,
    t.pc = .returned reply → reply.rc = eLockExp → t.logged = []

theorem accountInv_init (config : Config) : (init config).AccountInv where
  account := Ledger.accountInv_init config
  inv := inv_init config
  expired s t ht := absurd ht (by simp [init])

theorem AccountInv.exec {m m' : ThreadLedger} {x : ThreadedAction} (h : m.AccountInv)
    (hok : Meets Ledger.SparesLogged m x) (hx : m.exec x = some m') : m'.AccountInv := by
  obtain ⟨hl, hinv⟩ := h.inv.exec hok.1 hx
  have haccount := h.account.exec hok.2 hl
  refine ⟨haccount, hinv, fun s t ht reply hreply hexpired => ?_⟩
  rcases exec_threads hx ht with hold | ⟨hp, hlogged⟩
  · exact h.expired s t hold reply hreply hexpired
  · rw [hlogged]
    exact haccount.expired (hp ▸ hreply) hexpired

end ThreadLedger

/-- In a run in which no client has two handlers running, and the timer does
not fire on a client whose release has put an entry into the log: a thread that
has returned `E_LOCK_EXP` has put none there. -/
theorem expired_means_not_logged {config : Config} {m : ThreadLedger}
    (hrun : Machine.Steps ThreadLedger.exec (ThreadLedger.Meets Ledger.SparesLogged)
      (.init config) m) {s : Server} {t : HandlerThread} (ht : t ∈ m.threads s) {reply : Reply}
    (hreply : t.pc = .returned reply) (hexpired : reply.rc = eLockExp) : t.logged = [] := by
  have h : m.AccountInv := hrun.invariant (fun _ _ _ h hok hx => h.exec hok hx)
    (ThreadLedger.accountInv_init config)
  exact h.expired s t ht reply hreply hexpired

instance (l : Ledger) (x : ManagerAction) : Decidable (l.SparesLogged x) :=
  match x with
  | .fire _ => inferInstanceAs (Decidable (_ → _ → _))
  | .raft _ | .accept _ _ _ | .step _ _ _ => inferInstanceAs (Decidable True)

/-- The reply of a release that has found the lock taken away. -/
def expiredReply : Reply := ⟨eLockExp, .text "lock released before being acquired"⟩

/-- The steps of the handlers as ones of thread `k`. -/
def ManagerAction.byThread (k : ℕ) : ManagerAction → ThreadedAction
  | .raft x => .raft x
  | .accept s c request => .accept s c request
  | .step s _ crashAt => .step s k crashAt
  | .fire s => .fire s

/-- The lock expires before its client releases it. -/
def lateRelease : List ThreadedAction :=
  (firstElection.map ManagerAction.raft ++ acquires 0 1 ++ expires 0).map (·.byThread 0) ++
    .accept 0 1 (.release 1 1) :: List.replicate 5 (.step 0 1 none)

set_option maxRecDepth 10000 in
theorem lateRelease_runs : (Machine.execWhile ThreadLedger.exec
    (fun m x => decide (ThreadLedger.Meets Ledger.SparesLogged m x)) (.init plainConfig)
    lateRelease).any
    (fun m => decide (∃ t ∈ m.threads 0, t.pc = .returned expiredReply)) = true := by
  decide +kernel

theorem late_release_not_logged : ∃ m : ThreadLedger, ∃ t ∈ m.threads 0,
    Machine.Steps ThreadLedger.exec (ThreadLedger.Meets Ledger.SparesLogged)
      (.init plainConfig) m ∧
    t.pc = .returned expiredReply ∧ t.logged = [] := by
  obtain ⟨m, hrun, hm⟩ := Machine.exists_of_execWhile (ThreadLedger.Meets Ledger.SparesLogged)
    (fun _ _ h => of_decide_eq_true h) lateRelease_runs
  obtain ⟨t, ht, hreply⟩ := of_decide_eq_true hm
  exact ⟨m, t, ht, hrun, hreply, expired_means_not_logged hrun ht hreply rfl⟩

/-- The release of client `1` has appended its entry and re-armed the timer,
which fires before it releases the lock. -/
def expiredRelease : List ThreadedAction :=
  (firstElection.map ManagerAction.raft ++ acquires 0 1).map (·.byThread 0) ++
    (releases 0 1 1 1 ++ expires 0).map (·.byThread 1) ++
    List.replicate 3 (.step 0 1 none)

set_option maxRecDepth 10000 in
theorem expiredRelease_runs : (Machine.execWhile ThreadLedger.exec
    (fun m x => decide (m.OneEach x)) (.init plainConfig) expiredRelease).any
    (fun m => decide (∃ t ∈ m.threads 0, t.pc = .returned expiredReply ∧
      t.logged ≠ [] ∧ m.ledger.Recorded 0 1 1)) = true := by
  decide +kernel

/-- A release returns `E_LOCK_EXP` for an entry that it has put into the log,
and no client has had two handlers running. -/
theorem expired_but_logged : ∃ m : ThreadLedger, ∃ t ∈ m.threads 0,
    Machine.Steps ThreadLedger.exec ThreadLedger.OneEach (.init plainConfig) m ∧
    t.pc = .returned expiredReply ∧ t.logged ≠ [] ∧ m.ledger.Recorded 0 1 1 := by
  obtain ⟨m, hrun, hm⟩ := Machine.exists_of_execWhile ThreadLedger.OneEach
    (fun _ _ h => of_decide_eq_true h) expiredRelease_runs
  obtain ⟨t, ht, h⟩ := of_decide_eq_true hm
  exact ⟨m, t, ht, hrun, h⟩

end RaftLock

import RaftLock.Library.Lists
import RaftLock.Library.Machine

/-!
Threads around a lock. Nothing here knows what the threads do.

A lock is a flag that is set and cleared with compare-and-swap, so it does not
know its holder, and clearing it is not checked. What keeps the threads apart is
their discipline: a thread between taking the lock and clearing it works on what
it has read of the shared state since, it may hand the lock on to a thread that
it starts, and nobody else writes. Then there is one such thread at most, it has
read what is there, and the lock is clear when there is none.
-/

namespace Mutex

/-- What a move does to the lock. -/
inductive Op
  | work
  | acquire
  | release
  deriving DecidableEq, Repr

structure State (σ P : Type*) where
  shared : σ
  taken : Bool
  threads : List P

variable {σ P C : Type*} {move : σ → P → C → Option (Op × σ × List P)} {seen : P → Option σ}

/-- The flag after an operation. A thread that finds it set when it wants to take
the lock tries again. -/
def flagAfter (taken : Bool) : Op → Option Bool
  | .work => some taken
  | .acquire => if taken = false then some true else none
  | .release => some (if taken = true then false else taken)

/-- Thread `a.1` makes a move. It goes on as the first of some threads, those
after it are new ones; when there are none, it has ended. -/
def exec (move : σ → P → C → Option (Op × σ × List P)) (s : State σ P) (a : ℕ × C) :
    Option (State σ P) :=
  match s.threads[a.1]? with
  | none => none
  | some p =>
    match move s.shared p a.2 with
    | none => none
    | some (op, shared, ps) =>
      (flagAfter s.taken op).map fun taken =>
        ⟨shared, taken, s.threads.take a.1 ++ ps ++ s.threads.drop (a.1 + 1)⟩

/-- The threads keep to the lock. `seen` is what a thread that has the lock has
read of the shared state. -/
structure Disciplined (move : σ → P → C → Option (Op × σ × List P)) (seen : P → Option σ) :
    Prop where
  outside : ∀ {s p c s' ps}, move s p c = some (.work, s', ps) → seen p = none →
    s' = s ∧ ps.filterMap seen = []
  inside : ∀ {s p c s' ps}, move s p c = some (.work, s', ps) → seen p = some s →
    ps.filterMap seen = [s']
  acquire : ∀ {s p c s' ps}, move s p c = some (.acquire, s', ps) →
    seen p = none ∧ s' = s ∧ ps.filterMap seen = [s]
  release : ∀ {s p c s' ps}, move s p c = some (.release, s', ps) →
    (seen p).isSome ∧ s' = s ∧ ps.filterMap seen = []

/-- One thread has the lock when it is taken, and has read what is there; none
has it when it is free. -/
def Inv (seen : P → Option σ) (s : State σ P) : Prop :=
  s.threads.filterMap seen = if s.taken then [s.shared] else []

/-! ### One step -/

section Steps

variable {s s' : State σ P} {a : ℕ × C} {p : P} {m : σ}

/-- A step, taken apart. -/
structure Moves (move : σ → P → C → Option (Op × σ × List P)) (s : State σ P) (a : ℕ × C)
    (s' : State σ P) (before : List P) (p : P) (after : List P) (op : Op) (ps : List P) : Prop where
  thread : s.threads[a.1]? = some p
  threads : s.threads = before ++ p :: after
  move : move s.shared p a.2 = some (op, s'.shared, ps)
  flag : flagAfter s.taken op = some s'.taken
  result : s'.threads = before ++ ps ++ after

theorem exec_moves (h : exec move s a = some s') :
    ∃ before p after op ps, Moves move s a s' before p after op ps := by
  unfold exec at h
  cases hp : s.threads[a.1]? with
  | none => simp [hp] at h
  | some p =>
      simp only [hp] at h
      cases hm : move s.shared p a.2 with
      | none => simp [hm] at h
      | some x =>
          obtain ⟨op, shared, ps⟩ := x
          simp only [hm] at h
          obtain ⟨taken, hflag, rfl⟩ := Option.map_eq_some_iff.mp h
          exact ⟨_, p, _, op, ps, hp, List.split_getElem? hp, hm, hflag, rfl⟩

theorem Inv.of_split (h : Inv seen s) {before after : List P}
    (hs : s.threads = before ++ p :: after) : before.filterMap seen ++ (seen p).toList ++
      after.filterMap seen = if s.taken then [s.shared] else [] := by
  have hinv : s.threads.filterMap seen = _ := h
  rw [hs, List.filterMap_append] at hinv
  rw [← hinv, List.append_assoc]
  congr 1
  cases hp : seen p <;> simp [hp]

/-- A thread that has the lock is the only one, and has read what is there. -/
theorem Inv.alone (h : Inv seen s) {before after : List P}
    (hs : s.threads = before ++ p :: after) (hp : seen p = some m) :
    s.taken = true ∧ m = s.shared ∧ before.filterMap seen = [] ∧ after.filterMap seen = [] := by
  have hsplit := h.of_split hs
  rw [hp] at hsplit
  cases htaken : s.taken with
  | false => simp [htaken] at hsplit
  | true =>
      rw [htaken, if_pos rfl] at hsplit
      have hlen := congrArg List.length hsplit
      simp only [List.length_append, Option.toList_some, List.length_singleton] at hlen
      have hbefore := List.length_eq_zero_iff.mp (by omega : (before.filterMap seen).length = 0)
      have hafter := List.length_eq_zero_iff.mp (by omega : (after.filterMap seen).length = 0)
      rw [hbefore, hafter] at hsplit
      exact ⟨rfl, by simpa using hsplit, hbefore, hafter⟩

theorem Inv.holder (h : Inv seen s) {k : ℕ} (hk : s.threads[k]? = some p)
    (hp : seen p = some m) : s.taken = true ∧ m = s.shared := by
  obtain ⟨htaken, hm, -, -⟩ := h.alone (List.split_getElem? hk) hp
  exact ⟨htaken, hm⟩

theorem filterMap_ne_nil {l : List P} (hp : p ∈ l) (hm : seen p = some m) :
    l.filterMap seen ≠ [] :=
  List.ne_nil_of_mem (List.mem_filterMap.mpr ⟨p, hp, hm⟩)

/-- Mutual exclusion. -/
theorem Inv.unique (h : Inv seen s) {j k : ℕ} {q : P} {m' : σ} (hj : s.threads[j]? = some p)
    (hk : s.threads[k]? = some q) (hp : seen p = some m) (hq : seen q = some m') : j = k := by
  obtain ⟨-, -, hbefore, hafter⟩ := h.alone (List.split_getElem? hj) hp
  rcases Nat.lt_trichotomy k j with hlt | heq | hlt
  · refine absurd hbefore (filterMap_ne_nil (List.mem_of_getElem? (i := k) ?_) hq)
    rw [List.getElem?_take_of_lt hlt, hk]
  · exact heq.symm
  · refine absurd hafter (filterMap_ne_nil (List.mem_of_getElem? (i := k - (j + 1)) ?_) hq)
    rw [List.getElem?_drop, ← hk]
    congr 1
    omega

/-- Only the thread that has the lock clears it, and it finds it set. -/
theorem Inv.releases (h : Inv seen s) (hd : Disciplined move seen) {before after ps : List P}
    (hm : Moves move s a s' before p after .release ps) :
    s.taken = true ∧ seen p = some s.shared ∧ s'.taken = false := by
  obtain ⟨hsome, -, -⟩ := hd.release hm.move
  obtain ⟨m, hp⟩ := Option.isSome_iff_exists.mp hsome
  obtain ⟨htaken, rfl⟩ := h.holder hm.thread hp
  refine ⟨htaken, hp, ?_⟩
  have hflag := hm.flag
  simp only [flagAfter, htaken, if_true, Option.some.injEq] at hflag
  exact hflag.symm

theorem Inv.exec (h : Inv seen s) (hd : Disciplined move seen)
    (hx : Mutex.exec move s a = some s') : Inv seen s' := by
  obtain ⟨before, p, after, op, ps, hm⟩ := exec_moves hx
  have hsplit := h.of_split hm.threads
  have hflag := hm.flag
  show s'.threads.filterMap seen = _
  rw [hm.result, List.filterMap_append, List.filterMap_append]
  cases op with
  | work =>
      simp only [flagAfter, Option.some.injEq] at hflag
      cases hp : seen p with
      | none =>
          obtain ⟨hsame, hnone⟩ := hd.outside hm.move hp
          rw [hp] at hsplit
          rw [hnone, hsame, ← hflag]
          exact hsplit
      | some m =>
          obtain ⟨htaken, rfl, hbefore, hafter⟩ := h.alone hm.threads hp
          rw [hbefore, hafter, hd.inside hm.move hp, ← hflag, htaken]
          rfl
  | acquire =>
      obtain ⟨hp, hsame, hone⟩ := hd.acquire hm.move
      simp only [flagAfter] at hflag
      split_ifs at hflag with hfree
      rw [hp, hfree] at hsplit
      obtain ⟨hbefore, hafter⟩ := List.append_eq_nil_iff.mp hsplit
      rw [List.append_eq_nil_iff] at hbefore
      rw [hbefore.1, hafter, hone, hsame, ← Option.some.inj hflag]
      rfl
  | release =>
      obtain ⟨-, hp, hfree⟩ := h.releases hd hm
      obtain ⟨-, -, hbefore, hafter⟩ := h.alone hm.threads hp
      rw [hbefore, hafter, (hd.release hm.move).2.2, hfree]
      rfl

/-- The lock is free and no thread has it. -/
theorem inv_free {shared : σ} {threads : List P} (h : threads.filterMap seen = []) :
    Inv seen ⟨shared, false, threads⟩ := h

end Steps

/-! ### Getting out -/

/-- A thread comes to clear the lock by moves of its own and of the threads it
hands the lock to, or comes to where it is `lost`. -/
inductive Frees (move : σ → P → C → Option (Op × σ × List P)) (seen : P → Option σ)
    (lost : σ → P → Prop) : σ → P → Prop
  | lost {s p} (h : lost s p) : Frees move seen lost s p
  | release {s p c s' ps} (h : move s p c = some (.release, s', ps)) : Frees move seen lost s p
  | work {s p c s' ps q} (h : move s p c = some (.work, s', ps)) (hq : q ∈ ps)
      (hseen : seen q = some s') (hrest : Frees move seen lost s' q) : Frees move seen lost s p

/-- The thread that moves has the lock. -/
def ByHolder (seen : P → Option σ) (s : State σ P) (a : ℕ × C) : Prop :=
  ∃ p m, s.threads[a.1]? = some p ∧ seen p = some m

/-- A lock that is taken is free again after moves of those that have it. -/
theorem Frees.steps {lost : σ → P → Prop} {s : σ} {p : P} (h : Frees move seen lost s p)
    {k : ℕ} {threads : List P} (hk : threads[k]? = some p) (hp : seen p = some s) :
    ∃ s', Machine.Steps (exec move) (ByHolder seen) ⟨s, true, threads⟩ s' ∧
      (s'.taken = false ∨ ∃ q ∈ s'.threads, seen q = some s'.shared ∧ lost s'.shared q) := by
  induction h generalizing k threads with
  | lost h => exact ⟨_, .refl, Or.inr ⟨_, List.mem_of_getElem? hk, hp, h⟩⟩
  | @release s p c s' ps h =>
      refine ⟨⟨s', false, threads.take k ++ ps ++ threads.drop (k + 1)⟩,
        .single ⟨(k, c), ⟨p, s, hk, hp⟩, ?_⟩, Or.inl rfl⟩
      simp [exec, hk, h, flagAfter]
  | @work s p c s' ps q h hq hseen hrest ih =>
      obtain ⟨j, hj⟩ := List.mem_iff_getElem?.mp hq
      have hlt : j < ps.length := (List.getElem?_eq_some_iff.mp hj).1
      have hlen : (threads.take k).length = k := by
        rw [List.length_take, Nat.min_eq_left]
        exact Nat.le_of_lt (List.getElem?_eq_some_iff.mp hk).1
      have hnext : (threads.take k ++ ps ++ threads.drop (k + 1))[k + j]? = some q := by
        rw [List.getElem?_append_left (by rw [List.length_append]; omega),
          List.getElem?_append_right (by omega), hlen, Nat.add_sub_cancel_left, hj]
      obtain ⟨s'', hsteps, hend⟩ := ih hnext hseen
      refine ⟨s'', .head ⟨(k, c), ⟨p, s, hk, hp⟩, ?_⟩ hsteps, hend⟩
      simp [exec, hk, h, flagAfter]

end Mutex

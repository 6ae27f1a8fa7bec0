import Mathlib.Logic.Relation
import Mathlib.Tactic.Common

/-!
Machines: a state, actions, and a partial function that takes a step. Nothing
here knows what the machine is.

A run is any number of steps, each of which meets a condition in the state it
is taken in. What holds at the start and is kept by every such step holds
along the run.
-/

namespace Machine

variable {σ α : Type*} {exec : σ → α → Option σ} {ok : σ → α → Prop} {s s' : σ}

/-- Any number of steps, each of which meets `ok` in the state it is taken in. -/
abbrev Steps (exec : σ → α → Option σ) (ok : σ → α → Prop) : σ → σ → Prop :=
  Relation.ReflTransGen fun s s' => ∃ a, ok s a ∧ exec s a = some s'

/-- Steps without a condition. -/
abbrev Reaches (exec : σ → α → Option σ) : σ → σ → Prop := Steps exec fun _ _ => True

theorem Steps.invariant {P : σ → Prop}
    (hstep : ∀ s a s', P s → ok s a → exec s a = some s' → P s') (h : Steps exec ok s s')
    (hs : P s) : P s' := by
  induction h with
  | refl => exact hs
  | tail _ hlast ih =>
      obtain ⟨a, hok, hx⟩ := hlast
      exact hstep _ a _ ih hok hx

theorem Steps.weaken {ok' : σ → α → Prop} (hok : ∀ s a, ok s a → ok' s a)
    (h : Steps exec ok s s') : Steps exec ok' s s' := by
  refine Relation.ReflTransGen.mono ?_ _ _ h
  rintro s s' ⟨a, ha, hx⟩
  exact ⟨a, hok s a ha, hx⟩

/-- A machine each of whose steps another one can take, between states that
belong together: then it can follow whole runs. -/
theorem Steps.simulate {τ β : Type*} {exec' : τ → β → Option τ} {ok' : τ → β → Prop}
    {R : σ → τ → Prop} (hstep : ∀ s t a s', R s t → ok s a → exec s a = some s' →
      ∃ b t', ok' t b ∧ exec' t b = some t' ∧ R s' t')
    (h : Steps exec ok s s') {t : τ} (hR : R s t) : ∃ t', Steps exec' ok' t t' ∧ R s' t' := by
  induction h with
  | refl => exact ⟨t, .refl, hR⟩
  | tail _ hlast ih =>
      obtain ⟨a, hok, hx⟩ := hlast
      obtain ⟨t₁, hsteps, hR₁⟩ := ih
      obtain ⟨b, t₂, hok', hx', hR₂⟩ := hstep _ t₁ a _ hR₁ hok hx
      exact ⟨t₂, hsteps.tail ⟨b, hok', hx'⟩, hR₂⟩

/-- The state after a list of steps, if each of them can be taken and passes
the test. -/
def execWhile (exec : σ → α → Option σ) (test : σ → α → Bool) (s : σ) : List α → Option σ
  | [] => some s
  | a :: as =>
    if test s a then
      match exec s a with
      | none => none
      | some s => execWhile exec test s as
    else none

/-- The state after a list of steps, if each of them can be taken. -/
def execAll (exec : σ → α → Option σ) (s : σ) (as : List α) : Option σ :=
  execWhile exec (fun _ _ => true) s as

theorem steps_of_execWhile {test : σ → α → Bool} (htest : ∀ s a, test s a = true → ok s a)
    {as : List α} (h : execWhile exec test s as = some s') : Steps exec ok s s' := by
  induction as generalizing s with
  | nil =>
      simp only [execWhile, Option.some.injEq] at h
      rw [h]
  | cons a as ih =>
      unfold execWhile at h
      split_ifs at h with ha
      cases hx : exec s a with
      | none =>
          rw [hx] at h
          exact absurd h (by simp)
      | some s₁ =>
          rw [hx] at h
          exact .head ⟨a, htest s a ha, hx⟩ (ih h)

/-- A run found by evaluation. -/
theorem exists_of_execWhile (ok : σ → α → Prop) {test : σ → α → Bool}
    (htest : ∀ s a, test s a = true → ok s a) {as : List α} {p : σ → Bool}
    (h : (execWhile exec test s as).any p = true) : ∃ s', Steps exec ok s s' ∧ p s' = true := by
  obtain ⟨s', hs', hp⟩ := (Option.any_eq_true _ _).mp h
  exact ⟨s', steps_of_execWhile htest hs', hp⟩

theorem exists_of_execAll {as : List α} {p : σ → Bool}
    (h : (execAll exec s as).any p = true) : ∃ s', Reaches exec s s' ∧ p s' = true :=
  exists_of_execWhile _ (fun _ _ _ => trivial) h

/-- A visit to `i` leaves the others as they are, whether they are still to be
visited or not: then all of a list can be visited. `P` is told how many visits
there have been. -/
theorem Steps.visit {ι : Type*} {P : ℕ → σ → Prop} {before after : ι → σ → Prop}
    (hvisit : ∀ i n s, P n s → before i s → ∃ s', Steps exec ok s s' ∧ P (n + 1) s' ∧
      after i s' ∧ ∀ j, j ≠ i → (before j s → before j s') ∧ (after j s → after j s'))
    {l : List ι} (hl : l.Nodup) {n : ℕ} (hs : P n s) (hbefore : ∀ i ∈ l, before i s) :
    ∃ s', Steps exec ok s s' ∧ P (n + l.length) s' ∧ (∀ i ∈ l, after i s') ∧
      ∀ j, j ∉ l → after j s → after j s' := by
  induction l generalizing s n with
  | nil => exact ⟨s, .refl, hs, by simp, fun _ _ h => h⟩
  | cons i l ih =>
      obtain ⟨hnot, hrest⟩ := List.nodup_cons.mp hl
      obtain ⟨s₁, hsteps, hP, hafter, hothers⟩ := hvisit i n s hs (hbefore i List.mem_cons_self)
      obtain ⟨s₂, hsteps', hP', hall, hkept⟩ := ih hrest hP fun j hj =>
        (hothers j (fun heq => hnot (heq ▸ hj))).1 (hbefore j (List.mem_cons_of_mem _ hj))
      refine ⟨s₂, hsteps.trans hsteps', ?_, fun j hj => ?_, fun j hj h => ?_⟩
      · rwa [List.length_cons, Nat.add_comm l.length, ← Nat.add_assoc]
      · rcases List.mem_cons.mp hj with rfl | hj
        · exact hkept j hnot hafter
        · exact hall j hj
      · rw [List.mem_cons, not_or] at hj
        exact hkept j hj.2 ((hothers j hj.1).2 h)

/-! ### Loops whose body can fail -/

section Turns

variable {body : σ → Option σ} {P : σ → Prop} {charge : σ → ℕ}

/-- The state after `n` turns of a loop, if none of them fails. -/
def turns (body : σ → Option σ) : ℕ → σ → Option σ
  | 0, s => some s
  | n + 1, s => (body s).bind (turns body n)

/-- A body that keeps `P` and takes something off the charge as long as there
is some: after that many turns the charge is gone, and it does not come back. -/
theorem turns_settle (hbody : ∀ s, P s → ∃ s', body s = some s' ∧ P s' ∧ charge s' ≤ charge s - 1)
    (n : ℕ) (hs : P s) (hn : charge s ≤ n) :
    ∃ s', turns body n s = some s' ∧ P s' ∧ charge s' = 0 := by
  induction n generalizing s with
  | zero => exact ⟨s, rfl, hs, by omega⟩
  | succ n ih =>
      obtain ⟨s₁, hs₁, hP, hcharge⟩ := hbody s hs
      obtain ⟨s', hs', h⟩ := ih hP (by omega)
      exact ⟨s', by rw [turns, hs₁, Option.bind_some, hs'], h⟩

end Turns

end Machine

import RaftLock.Safety.Simulation

/-!
`Raft_is_entry_committed`, read off its loop.

The loop stops at the first entry that has the tag or a later term, and its
answer depends on that entry and on the commit index alone. Where the terms of
the log do not go down, the answer can be said without the order of the loop:
an entry of a later term comes behind every entry with the tag.
-/

namespace RaftLock

def LogEntry.Tagged (e : LogEntry) (term id : ℤ) : Prop := e.term = term ∧ e.id = id

/-- The loop does not go on behind such an entry. -/
def LogEntry.Decisive (e : LogEntry) (term id : ℤ) : Prop := e.Tagged term id ∨ e.term > term

instance (e : LogEntry) (term id : ℤ) : Decidable (e.Tagged term id) :=
  inferInstanceAs (Decidable (_ ∧ _))

instance (e : LogEntry) (term id : ℤ) : Decidable (e.Decisive term id) :=
  inferInstanceAs (Decidable (_ ∨ _))

/-- The loop stops at `e`, the entry at `i`. -/
structure Decides (r : RaftState) (term id i : ℤ) (e : LogEntry) : Prop where
  entry : getLog r i = some e
  decisive : e.Decisive term id
  first : ∀ j e', j < i → getLog r j = some e' → ¬ e'.Decisive term id

/-- The answer once the loop has stopped at `e`, the entry at `i`. -/
def verdictOn (r : RaftState) (term id i : ℤ) (e : LogEntry) : ℤ :=
  if r.commitIndex ≥ i then if e.Tagged term id then 1 else -1 else 0

variable {r : RaftState} {term id : ℤ}

theorem Decides.unique {i i' : ℤ} {e e' : LogEntry} (h : Decides r term id i e)
    (h' : Decides r term id i' e') : i = i' ∧ e = e' := by
  have heq : i = i' := by
    rcases lt_trichotomy i i' with hlt | heq | hlt
    · exact absurd h.decisive (h'.first i e hlt h.entry)
    · exact heq
    · exact absurd h'.decisive (h.first i' e' hlt h'.entry)
  subst heq
  exact ⟨rfl, Option.some.inj (h.entry.symm.trans h'.entry)⟩

theorem isEntryCommittedFrom_spec {turns : ℕ} {i : ℤ} (hi : r.startLogIndex ≤ i)
    (hturns : i + turns = r.logCount)
    (hbefore : ∀ j e, j < i → getLog r j = some e → ¬ e.Decisive term id) :
    (∃ j e, Decides r term id j e ∧
      isEntryCommittedFrom r term id turns i = verdictOn r term id j e) ∨
    ((∀ j e, getLog r j = some e → ¬ e.Decisive term id) ∧
      isEntryCommittedFrom r term id turns i = 0) := by
  induction turns generalizing i with
  | zero =>
      refine Or.inr ⟨fun j e he => hbefore j e ?_ he, rfl⟩
      have hj := (getLog_some he).2.1
      simp only [Nat.cast_zero, add_zero] at hturns
      omega
  | succ turns ih =>
      have hget := getLog_of_mem (r := r) hi (by omega)
      generalize r.log (i - r.startLogIndex).toNat = e at hget
      simp only [isEntryCommittedFrom, hget]
      by_cases htag : e.term = term ∧ e.id = id
      · refine Or.inl ⟨i, e, ⟨hget, Or.inl htag, hbefore⟩, ?_⟩
        rw [if_pos htag, verdictOn, if_pos (show e.Tagged term id from htag)]
      · rw [if_neg htag]
        by_cases hlater : e.term > term
        · refine Or.inl ⟨i, e, ⟨hget, Or.inr hlater, hbefore⟩, ?_⟩
          rw [if_pos hlater, verdictOn, if_neg (show ¬ e.Tagged term id from htag)]
        · rw [if_neg hlater]
          refine ih (by omega) (by push_cast at hturns; omega) fun j e' hj he' => ?_
          rcases eq_or_ne j i with rfl | hne
          · obtain rfl : e = e' := Option.some.inj (hget.symm.trans he')
            exact fun hd => hd.elim htag hlater
          · exact hbefore j e' (by omega) he'

theorem isEntryCommitted_cases (r : RaftState) (term id : ℤ) :
    (∃ i e, Decides r term id i e ∧ isEntryCommitted r term id = verdictOn r term id i e) ∨
    ((∀ i e, getLog r i = some e → ¬ e.Decisive term id) ∧ isEntryCommitted r term id = 0) := by
  have hout : ∀ j e, j < r.startLogIndex → getLog r j = some e → ¬ e.Decisive term id := by
    intro j e hj he
    have hlo := (getLog_some he).1
    omega
  by_cases hempty : r.startLogIndex ≤ r.logCount
  · exact isEntryCommittedFrom_spec le_rfl (by omega) hout
  · refine Or.inr ⟨fun i e he => ?_, ?_⟩
    · have := getLog_some he
      omega
    · have hturns : (r.logCount - r.startLogIndex).toNat = 0 := by omega
      rw [isEntryCommitted, hturns]
      rfl

theorem Decides.verdict {i : ℤ} {e : LogEntry} (h : Decides r term id i e) :
    isEntryCommitted r term id = verdictOn r term id i e := by
  rcases isEntryCommitted_cases r term id with ⟨i', e', h', heq⟩ | ⟨hnone, -⟩
  · obtain ⟨rfl, rfl⟩ := h.unique h'
    exact heq
  · exact absurd h.decisive (hnone i e h.entry)

/-- A positive answer: the loop has stopped at a committed entry with the tag. -/
theorem isEntryCommitted_eq_one :
    isEntryCommitted r term id = 1 ↔
      ∃ i e, Decides r term id i e ∧ e.Tagged term id ∧ i ≤ r.commitIndex := by
  constructor
  · intro h
    rcases isEntryCommitted_cases r term id with ⟨i, e, hd, heq⟩ | ⟨-, heq⟩
    · rw [h, verdictOn] at heq
      split_ifs at heq with hi ht
      · exact ⟨i, e, hd, ht, hi⟩
      · exact absurd heq (by decide)
    · exact absurd (h.symm.trans heq) (by decide)
  · rintro ⟨i, e, hd, ht, hi⟩
    rw [hd.verdict, verdictOn, if_pos hi, if_pos ht]

/-- A negative answer: the loop has stopped at a committed entry of a later term. -/
theorem isEntryCommitted_eq_neg_one :
    isEntryCommitted r term id = -1 ↔
      ∃ i e, Decides r term id i e ∧ e.term > term ∧ i ≤ r.commitIndex := by
  constructor
  · intro h
    rcases isEntryCommitted_cases r term id with ⟨i, e, hd, heq⟩ | ⟨-, heq⟩
    · rw [h, verdictOn] at heq
      split_ifs at heq with hi ht
      exact ⟨i, e, hd, hd.decisive.resolve_left ht, hi⟩
    · exact absurd (h.symm.trans heq) (by decide)
  · rintro ⟨i, e, hd, hlater, hi⟩
    have hnot : ¬ e.Tagged term id := fun ht => absurd ht.1 (by omega)
    rw [hd.verdict, verdictOn, if_pos hi, if_neg hnot]

/-! ### The answer without the loop -/

/-- The terms of the retained entries do not go down. -/
def TermsOrdered (r : RaftState) : Prop :=
  ∀ {i j e e'}, i < j → getLog r i = some e → getLog r j = some e' → e.term ≤ e'.term

/-- An entry with the tag is left in the window. -/
def Retained (r : RaftState) (term id : ℤ) : Prop :=
  ∃ i e, getLog r i = some e ∧ e.Tagged term id

/-- A committed entry of the window has the tag. -/
def Confirmed (r : RaftState) (term id : ℤ) : Prop :=
  ∃ i e, getLog r i = some e ∧ i ≤ r.commitIndex ∧ e.Tagged term id

/-- A committed entry of the window has a later term. -/
def Outdated (r : RaftState) (term : ℤ) : Prop :=
  ∃ i e, getLog r i = some e ∧ i ≤ r.commitIndex ∧ e.term > term

/-- The loop stops no later than at an entry it may not go past. -/
theorem Decides.le {i j : ℤ} {e e' : LogEntry} (h : Decides r term id i e)
    (he' : getLog r j = some e') (hd : e'.Decisive term id) : i ≤ j := by
  by_contra hlt
  exact h.first j e' (by omega) he' hd

/-- An entry with the tag stops the loop, or one with the tag before it does. -/
theorem TermsOrdered.tagged_of_retained (h : TermsOrdered r) {i j : ℤ} {e e' : LogEntry}
    (hd : Decides r term id i e) (he' : getLog r j = some e') (ht : e'.Tagged term id) :
    e.Tagged term id := by
  refine hd.decisive.resolve_right fun hlater => ?_
  rcases lt_or_eq_of_le (hd.le he' (Or.inl ht)) with hij | rfl
  · have hle := h hij hd.entry he'
    rw [ht.1] at hle
    omega
  · obtain rfl : e = e' := Option.some.inj (hd.entry.symm.trans he')
    exact absurd ht.1 (by omega)

theorem TermsOrdered.verdict_positive (h : TermsOrdered r) :
    isEntryCommitted r term id = 1 ↔ Confirmed r term id := by
  rw [isEntryCommitted_eq_one]
  constructor
  · rintro ⟨i, e, hd, ht, hi⟩
    exact ⟨i, e, hd.entry, hi, ht⟩
  · rintro ⟨j, e', he', hj, ht⟩
    rcases isEntryCommitted_cases r term id with ⟨i, e, hd, -⟩ | ⟨hnone, -⟩
    · have hij := hd.le he' (Or.inl ht)
      exact ⟨i, e, hd, h.tagged_of_retained hd he' ht, by omega⟩
    · exact absurd (Or.inl ht) (hnone j e' he')

theorem TermsOrdered.verdict_negative (h : TermsOrdered r) :
    isEntryCommitted r term id = -1 ↔ ¬ Retained r term id ∧ Outdated r term := by
  rw [isEntryCommitted_eq_neg_one]
  constructor
  · rintro ⟨i, e, hd, hlater, hi⟩
    refine ⟨?_, i, e, hd.entry, hi, hlater⟩
    rintro ⟨j, e', he', ht⟩
    have hterm := (h.tagged_of_retained hd he' ht).1
    omega
  · rintro ⟨hnot, j, e', he', hj, hlater⟩
    rcases isEntryCommitted_cases r term id with ⟨i, e, hd, -⟩ | ⟨hnone, -⟩
    · have hij := hd.le he' (Or.inr hlater)
      refine ⟨i, e, hd, hd.decisive.resolve_left fun ht => hnot ⟨i, e, hd.entry, ht⟩, by omega⟩
    · exact absurd (Or.inr hlater) (hnone j e' he')

theorem isEntryCommitted_range (r : RaftState) (term id : ℤ) :
    isEntryCommitted r term id = 1 ∨ isEntryCommitted r term id = -1 ∨
      isEntryCommitted r term id = 0 := by
  rcases isEntryCommitted_cases r term id with ⟨i, e, -, heq⟩ | ⟨-, heq⟩
  · rw [heq, verdictOn]
    split_ifs <;> simp
  · exact Or.inr (Or.inr heq)

/-- In every state whose retained terms do not go down, the answer is `1` when
an entry with the tag is committed, `-1` when there is none with the tag and a
committed entry has a later term, and `0` otherwise. -/
theorem verdict_meets_specification {r : RaftState} {term id : ℤ} (hterms : TermsOrdered r) :
    (isEntryCommitted r term id = 1 ↔ Confirmed r term id) ∧
    (isEntryCommitted r term id = -1 ↔ ¬ Retained r term id ∧ Outdated r term) ∧
    (isEntryCommitted r term id = 0 ↔
      ¬ Confirmed r term id ∧ ¬ (¬ Retained r term id ∧ Outdated r term)) := by
  refine ⟨hterms.verdict_positive, hterms.verdict_negative, ?_⟩
  rw [← hterms.verdict_positive, ← hterms.verdict_negative]
  constructor
  · intro hzero
    rw [hzero]
    decide
  · rintro ⟨hone, hneg⟩
    exact ((isEntryCommitted_range r term id).resolve_left hone).resolve_left hneg

/-- A log of three entries, the last one of a later term. -/
def threeEntries : RaftState :=
  { serverInit (fun i => i.val) 0 with
    log := fun k => { (default : LogEntry) with term := if k < 2 then 1 else 3, id := k }
    logCount := 3
    commitIndex := 1 }

theorem threeEntries_confirmed : TermsOrdered threeEntries ∧ Confirmed threeEntries 1 1 := by
  have hget : ∀ {i e}, getLog threeEntries i = some e → 0 ≤ i ∧ i < 3 ∧
      e.term = (if i.toNat < 2 then 1 else 3) := by
    intro i e he
    obtain ⟨hlo, hhi, rfl⟩ := getLog_some he
    simp only [threeEntries, serverInit] at hlo hhi ⊢
    refine ⟨hlo, hhi, ?_⟩
    rw [sub_zero]
  have hterms : TermsOrdered threeEntries := by
    intro i j e e' hij he he'
    rw [(hget he).2.2, (hget he').2.2]
    split_ifs <;> omega
  exact ⟨hterms, (verdict_meets_specification hterms).1.mp (by decide)⟩

end RaftLock

import RaftLock.Consensus.Invariant
import Mathlib.Logic.Relation

/-!
What is committed stays committed, at the server that knows it and for the
system as a whole.
-/

namespace RaftLock.Consensus.Proto

variable {S E : Type} [Fintype S] [DecidableEq S] {tm : E → ℤ} {p p' : Proto S E}

/-- The servers before anything has happened. -/
def init : Proto S E :=
  { term := fun _ => 0
    log := fun _ => []
    voted := fun _ _ => none
    cand := fun _ _ => none
    lead := fun _ => none
    base := fun _ => []
    quorum := fun _ => ∅
    llog := fun _ => []
    acks := fun _ _ => 0
    clevel := fun _ => 0 }

omit [DecidableEq S] in
theorem inv_init : Inv tm (init : Proto S E) := by
  constructor <;> simp [init, Matched]

/-- The first `k` entries of the log of `s` are committed, and `s` is in a
position to know it: the leader that committed them was elected in a term `s`
has reached. -/
def Committed (p : Proto S E) (s : S) (k : ℕ) : Prop :=
  ∃ t ≤ p.term s, k ≤ p.clevel t ∧ (p.llog t).take k <+: p.log s

/-- The entry committed at place `i`, by whatever leader. -/
def CommittedEntry (p : Proto S E) (i : ℕ) (e : E) : Prop :=
  ∃ t, i < p.clevel t ∧ (p.llog t)[i]? = some e

omit [Fintype S] [DecidableEq S] in
theorem committed_zero (p : Proto S E) (s : S) : p.Committed s 0 :=
  ⟨p.term s, le_rfl, Nat.zero_le _, by simp⟩

omit [Fintype S] [DecidableEq S] in
theorem Committed.mono {s : S} {j k : ℕ} (h : p.Committed s k) (hjk : j ≤ k) :
    p.Committed s j := by
  obtain ⟨t, ht, hk, hpre⟩ := h
  exact ⟨t, ht, hjk.trans hk, (List.take_prefix_take_left hjk).trans hpre⟩

omit [DecidableEq S] in
theorem Committed.le_length (hinv : Inv tm p) {s : S} {k : ℕ} (h : p.Committed s k) :
    k ≤ (p.log s).length := by
  obtain ⟨t, -, hk, hpre⟩ := h
  have h1 := hinv.clevel_le t
  have h2 := hpre.length_le
  simp only [List.length_take] at h2
  omega

omit [DecidableEq S] in
theorem Committed.entry (hinv : Inv tm p) {s : S} {k i : ℕ} {e : E} (h : p.Committed s k)
    (hi : i < k) (he : (p.log s)[i]? = some e) : p.CommittedEntry i e := by
  obtain ⟨t, -, hk, hpre⟩ := h
  exact ⟨t, by omega, getElem?_of_take_prefix hpre (hk.trans (hinv.clevel_le t)) hi he⟩

omit [DecidableEq S] in
/-- Two leaders that both committed at place `i` committed one entry there. -/
theorem CommittedEntry.unique (hinv : Inv tm p) {i : ℕ} {e e' : E}
    (h : p.CommittedEntry i e) (h' : p.CommittedEntry i e') : e = e' := by
  obtain ⟨t, hi, he⟩ := h
  obtain ⟨t', hi', he'⟩ := h'
  have hpre := hinv.clevel_comparable (t := t) (u := t') hi hi' le_rfl
  have h1 := prefix_getElem? hpre (i := i) (by rw [List.getElem?_take_of_lt (by omega)]; exact he)
  rw [List.getElem?_take_of_lt (by omega), he', Option.some.injEq] at h1
  exact h1.symm

/-! What a step leaves as it was, or lets grow. -/

theorem Step.term_le (hs : Step tm p p') (s : S) : p.term s ≤ p'.term s := by
  cases hs with
  | bump v t ht =>
      by_cases hv : s = v
      · subst hv
        simpa [Proto.bump] using le_of_lt ht
      · simp [Proto.bump, hv]
  | campaign v =>
      by_cases hv : s = v
      · subst hv
        simp [Proto.campaign]
      · simp [Proto.campaign, hv]
  | _ => exact le_rfl

theorem Step.clevel_le (hs : Step tm p p') (t : ℤ) : p.clevel t ≤ p'.clevel t := by
  cases hs with
  | commit u n e he hterm hmaj => exact p.clevel_le_commit u (n + 1) t
  | _ => exact le_rfl

theorem Step.llog_prefix (hinv : Inv tm p) (hs : Step tm p p') (t : ℤ) :
    p.llog t <+: p'.llog t := by
  cases hs with
  | elect c e hcand hfree hmaj he => exact Grows.llog_prefix (hinv.elect_grows hfree) t
  | append c e hlead he => exact Grows.llog_prefix (hinv.append_grows hlead) t
  | _ => exact List.prefix_rfl

theorem Step.committedEntry (hinv : Inv tm p) (hs : Step tm p p') {i : ℕ} {e : E}
    (h : p.CommittedEntry i e) : p'.CommittedEntry i e := by
  obtain ⟨t, hi, he⟩ := h
  exact ⟨t, by have := hs.clevel_le t; omega, prefix_getElem? (hs.llog_prefix hinv t) he⟩

/-- An election is decided once. -/
theorem Step.lead_eq (hs : Step tm p p') {t : ℤ} {c : S} (h : p.lead t = some c) :
    p'.lead t = some c := by
  cases hs with
  | elect v e hcand hfree hmaj he =>
      have ht : t ≠ p.term v := by
        rintro rfl
        rw [hfree] at h
        exact absurd h (by simp)
      simpa [Proto.elect, ht] using h
  | _ => exact h

/-- A candidate stands with one log in a term. -/
theorem Step.cand_eq (hinv : Inv tm p) (hs : Step tm p p') {t : ℤ} {c : S} {L : List E}
    (h : p.cand t c = some L) : p'.cand t c = some L := by
  cases hs with
  | campaign v =>
      by_cases ht : t = p.term v + 1
      · subst ht
        have hc : c ≠ v := by
          rintro rfl
          have := hinv.cand_le _ _ _ h
          omega
        simpa [Proto.campaign, hc] using h
      · simpa [Proto.campaign, ht] using h
  | _ => exact h

theorem Step.acks_le (hs : Step tm p p') (s : S) (t : ℤ) : p.acks s t ≤ p'.acks s t := by
  cases hs with
  | ack v n hn hheld => exact p.acks_le_ack v n s t
  | _ => exact le_rfl

/-- A step changes the log of a server in one of three ways. -/
theorem Step.log_cases (hinv : Inv tm p) (hs : Step tm p p') (s : S) :
    p.log s <+: p'.log s ∨
    (∃ n, p.lead (p.term s) ≠ none ∧
      p'.log s = merge (p.log s) (p.llog (p.term s)) n) ∨
    ∃ t n, t ≤ p.term s ∧ n ≤ p.clevel t ∧
      ((p.log s).length ≤ n ∨ ¬ (p.llog t).take n <+: p.log s) ∧
      p'.log s = (p.llog t).take n := by
  cases hs with
  | elect c e hcand hfree hmaj he => exact Or.inl (Grows.log_prefix (hinv.elect_grows hfree) s)
  | append c e hlead he => exact Or.inl (Grows.log_prefix (hinv.append_grows hlead) s)
  | accept v n hlead =>
      by_cases hv : s = v
      · subst hv
        exact Or.inr (Or.inl ⟨n, hlead, by simp [Proto.accept]⟩)
      · exact Or.inl (by simp [Proto.accept, hv])
  | adopt v t n ht hn hlen =>
      by_cases hv : s = v
      · subst hv
        exact Or.inr (Or.inr ⟨t, n, ht, hn, hlen, by simp [Proto.adopt]⟩)
      · exact Or.inl (by simp [Proto.adopt, hv])
  | _ => exact Or.inl List.prefix_rfl

/-- A server never loses the committed beginning of its log. -/
theorem Step.committed (hinv : Inv tm p) (hs : Step tm p p') {s : S} {k : ℕ}
    (h : p.Committed s k) : p'.Committed s k := by
  rcases Nat.eq_zero_or_pos k with rfl | hpos
  · exact committed_zero p' s
  obtain ⟨t, ht, hk, hpre⟩ := h
  have hkl : k ≤ (p.llog t).length := hk.trans (hinv.clevel_le t)
  refine ⟨t, ht.trans (hs.term_le s), hk.trans (hs.clevel_le t), ?_⟩
  rw [take_prefix_of_isPrefix (hs.llog_prefix hinv t) hkl]
  rcases hs.log_cases hinv s with hgrow | ⟨n, hlead, hlog⟩ | ⟨u, n, hu, hn, hlen, hlog⟩
  · exact hpre.trans hgrow
  · rw [hlog]
    unfold merge
    split_ifs with hmerge
    · exact hpre
    · -- the new leader's log begins with what is committed, so a shorter cut
      -- of it would have left the old log alone
      have hin := hinv.clevel_prefix_llog ht hlead hk
      rcases Nat.le_total ((p.llog t).take k).length
        ((p.llog (p.term s)).take n).length with hle | hle
      · exact prefix_of_both hin (List.take_prefix _ _) hle
      · exact absurd ((prefix_of_both (List.take_prefix _ _) hin hle).trans hpre) hmerge
  · rw [hlog]
    rcases Nat.le_total k n with hkn | hnk
    · exact hinv.clevel_comparable hk hn hkn
    · exact prefix_of_replaced (hinv.clevel_le u) hn hlen List.prefix_rfl
        (hinv.clevel_comparable hn hk hnk) hpre

/-! Any number of steps. -/

abbrev Steps (tm : E → ℤ) : Proto S E → Proto S E → Prop := Relation.ReflTransGen (Step tm)

theorem Steps.inv (hinv : Inv tm p) (hs : Steps tm p p') : Inv tm p' := by
  induction hs with
  | refl => exact hinv
  | tail _ hstep ih => exact ih.step hstep

theorem Steps.committed (hinv : Inv tm p) (hs : Steps tm p p') {s : S} {k : ℕ}
    (h : p.Committed s k) : p'.Committed s k := by
  induction hs with
  | refl => exact h
  | tail hrun hstep ih => exact hstep.committed (Steps.inv hinv hrun) ih

theorem Steps.committedEntry (hinv : Inv tm p) (hs : Steps tm p p') {i : ℕ} {e : E}
    (h : p.CommittedEntry i e) : p'.CommittedEntry i e := by
  induction hs with
  | refl => exact h
  | tail hrun hstep ih => exact hstep.committedEntry (Steps.inv hinv hrun) ih

/-- A committed beginning is the same at every later moment. -/
theorem Steps.take_eq (hinv : Inv tm p) (hs : Steps tm p p') {s : S} {k : ℕ}
    (h : p.Committed s k) : (p'.log s).take k = (p.log s).take k := by
  have hinv' := Steps.inv hinv hs
  have h' := Steps.committed hinv hs h
  refine List.ext_getElem? fun i => ?_
  rcases Nat.lt_or_ge i k with hi | hi
  · have hlt : i < (p.log s).length := hi.trans_le (h.le_length hinv)
    have hlt' : i < (p'.log s).length := hi.trans_le (h'.le_length hinv')
    have hold := Steps.committedEntry hinv hs (h.entry hinv hi (List.getElem?_eq_getElem hlt))
    have hnew := h'.entry hinv' hi (List.getElem?_eq_getElem hlt')
    rw [List.getElem?_take_of_lt hi, List.getElem?_take_of_lt hi, List.getElem?_eq_getElem hlt,
      List.getElem?_eq_getElem hlt', hnew.unique hinv' hold]
  · simp [Nat.not_lt.mpr hi]

theorem Steps.term_le (hs : Steps tm p p') (s : S) : p.term s ≤ p'.term s := by
  induction hs with
  | refl => exact le_rfl
  | tail _ hstep ih => exact ih.trans (hstep.term_le s)

theorem Steps.clevel_le (hs : Steps tm p p') (t : ℤ) : p.clevel t ≤ p'.clevel t := by
  induction hs with
  | refl => exact le_rfl
  | tail _ hstep ih => exact ih.trans (hstep.clevel_le t)

theorem Steps.llog_prefix (hinv : Inv tm p) (hs : Steps tm p p') (t : ℤ) :
    p.llog t <+: p'.llog t := by
  induction hs with
  | refl => exact List.prefix_rfl
  | tail hrun hstep ih => exact ih.trans (hstep.llog_prefix (Steps.inv hinv hrun) t)

theorem Steps.lead_eq (hs : Steps tm p p') {t : ℤ} {c : S} (h : p.lead t = some c) :
    p'.lead t = some c := by
  induction hs with
  | refl => exact h
  | tail _ hstep ih => exact hstep.lead_eq ih

theorem Steps.cand_eq (hinv : Inv tm p) (hs : Steps tm p p') {t : ℤ} {c : S} {L : List E}
    (h : p.cand t c = some L) : p'.cand t c = some L := by
  induction hs with
  | refl => exact h
  | tail hrun hstep ih => exact hstep.cand_eq (Steps.inv hinv hrun) ih

theorem Steps.acks_le (hs : Steps tm p p') (s : S) (t : ℤ) : p.acks s t ≤ p'.acks s t := by
  induction hs with
  | refl => exact le_rfl
  | tail _ hstep ih => exact ih.trans (hstep.acks_le s t)

/-- The first `k` entries of the log of the leader of `t` are committed, by it
or by an earlier leader. -/
def CommittedAt (p : Proto S E) (t : ℤ) (k : ℕ) : Prop :=
  ∃ u ≤ t, k ≤ p.clevel u ∧ (p.llog u).take k <+: p.llog t

theorem Steps.committedAt (hinv : Inv tm p) (hs : Steps tm p p') {t : ℤ} {k : ℕ}
    (h : p.CommittedAt t k) : p'.CommittedAt t k := by
  obtain ⟨u, hu, hk, hpre⟩ := h
  refine ⟨u, hu, hk.trans (hs.clevel_le u), ?_⟩
  rw [take_prefix_of_isPrefix (hs.llog_prefix hinv u) (hk.trans (hinv.clevel_le u))]
  exact hpre.trans (hs.llog_prefix hinv t)

omit [Fintype S] [DecidableEq S] in
theorem CommittedAt.mono {t : ℤ} {j k : ℕ} (h : p.CommittedAt t k) (hjk : j ≤ k) :
    p.CommittedAt t j := by
  obtain ⟨u, hu, hk, hpre⟩ := h
  exact ⟨u, hu, hjk.trans hk, (List.take_prefix_take_left hjk).trans hpre⟩

omit [DecidableEq S] in
theorem CommittedAt.entry (hinv : Inv tm p) {t : ℤ} {k i : ℕ} {e : E} (h : p.CommittedAt t k)
    (hi : i < k) (he : (p.llog t)[i]? = some e) : p.CommittedEntry i e := by
  obtain ⟨u, -, hk, hpre⟩ := h
  exact ⟨u, by omega, getElem?_of_take_prefix hpre (hk.trans (hinv.clevel_le u)) hi he⟩

omit [Fintype S] [DecidableEq S] in
/-- What is committed at a server is committed at the leader of its term that
holds the same log, and back. -/
theorem Committed.committedAt {s : S} {k : ℕ} (h : p.Committed s k)
    (hlog : p.log s = p.llog (p.term s)) : p.CommittedAt (p.term s) k := by
  obtain ⟨u, hu, hk, hpre⟩ := h
  exact ⟨u, hu, hk, hlog ▸ hpre⟩

omit [DecidableEq S] in
/-- A server that holds enough of the log of a leader it has reached knows
what that leader has committed. -/
theorem CommittedAt.committed (hinv : Inv tm p) {s : S} {t : ℤ} {k n : ℕ}
    (h : p.CommittedAt t k) (ht : t ≤ p.term s) (hheld : (p.llog t).take n <+: p.log s)
    (hkn : k ≤ n) : p.Committed s k := by
  obtain ⟨u, hu, hk, hpre⟩ := h
  refine ⟨u, hu.trans ht, hk, (prefix_of_both hpre (List.take_prefix n _) ?_).trans hheld⟩
  have h1 := hpre.length_le
  have h2 := hk.trans (hinv.clevel_le u)
  simp only [List.length_take] at *
  omega

omit [DecidableEq S] in
/-- An entry of term `t` that a leader up to `t` has committed is committed by
the leader of `t`. -/
theorem Inv.clevel_of_own (hinv : Inv tm p) {t u : ℤ} {k m : ℕ} {Y : List E} {e : E} (hu : u ≤ t)
    (hm : m ≤ p.clevel u) (hk : k < m) (hpre : (p.llog u).take m <+: Y) (he : Y[k]? = some e)
    (ht : tm e = t) : k < p.clevel t := by
  have hx := getElem?_of_take_prefix hpre (hm.trans (hinv.clevel_le u)) hk he
  have hle := hinv.llog_le (List.mem_of_getElem? hx)
  obtain rfl : u = t := by omega
  omega

end RaftLock.Consensus.Proto

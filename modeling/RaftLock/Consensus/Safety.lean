import RaftLock.Consensus.Protocol

/-!
Leader completeness, and what follows from it: the entries a leader has
committed are in the log of every later leader, a server never loses the
committed beginning of its log, and no two servers commit different entries
at one place.

The invariant is `Proto.Inv`. Its two clauses with content are `kept` and
`vote_kept`: what a server has acknowledged to a leader it loses only to a
later leader elected without it, and a vote carries what the voter has
acknowledged over to the candidate. A first leader elected without committed
entries would have been elected by a server that holds them, so there is none
(`Inv.not_bad`).
-/

namespace RaftLock.Consensus

variable {S E : Type} {tm : E → ℤ} {p p' : Proto S E}

namespace Proto

theorem Matched.of_isPrefix {X Y : List E} (h : p.Matched tm X) (hY : Y <+: X) :
    p.Matched tm Y := by
  intro i e hi
  have hlt : i + 1 ≤ Y.length := (List.getElem?_eq_some_iff.mp hi).1
  rw [← take_prefix_of_isPrefix hY hlt]
  exact h i e (prefix_getElem? hY hi)

theorem Matched.mono {X : List E} (h : p.Matched tm X)
    (hll : ∀ t, p.llog t <+: p'.llog t) : p'.Matched tm X :=
  fun i e hi => (h i e hi).trans (hll _)

/-- A log that is matched lies inside the log of the leader of its last
entry. -/
theorem Matched.last {X : List E} (h : p.Matched tm X) {x : E} (hx : X.getLast? = some x) :
    X <+: p.llog (tm x) := by
  rw [List.getLast?_eq_getElem?] at hx
  have hlt : X.length - 1 < X.length := (List.getElem?_eq_some_iff.mp hx).1
  have := h _ _ hx
  rwa [List.take_of_length_le (by omega)] at this

theorem Matched.append {X : List E} (h : p.Matched tm X) {e : E}
    (he : X ++ [e] <+: p.llog (tm e)) : p.Matched tm (X ++ [e]) := by
  intro i x hi
  rcases Nat.lt_trichotomy i X.length with hlt | rfl | hgt
  · rw [List.getElem?_append_left hlt] at hi
    rw [List.take_append_of_le_length (by omega)]
    exact h i x hi
  · simp only [List.getElem?_concat_length, Option.some.injEq] at hi
    subst hi
    rwa [List.take_of_length_le (by simp)]
  · rw [List.getElem?_eq_none (by simp; omega)] at hi
    exact absurd hi (by simp)

theorem Own.pos {t : ℤ} {n : ℕ} (h : p.Own tm t n) : 0 < n := by
  obtain ⟨k, e, rfl, -, -⟩ := h
  omega

theorem Own.mono {t : ℤ} {n : ℕ} (h : p.Own tm t n) (hpre : p.llog t <+: p'.llog t) :
    p'.Own tm t n := by
  obtain ⟨k, e, hn, hk, he⟩ := h
  exact ⟨k, e, hn, prefix_getElem? hpre hk, he⟩

theorem Own.le_length {t : ℤ} {n : ℕ} (h : p.Own tm t n) : n ≤ (p.llog t).length := by
  obtain ⟨k, e, rfl, hk, -⟩ := h
  exact (List.getElem?_eq_some_iff.mp hk).1

/-- The log of a leader only grows, so a length that could be committed
before can be committed after, and back when it was there before. -/
theorem Own.of_isPrefix {t : ℤ} {n : ℕ} (h : p'.Own tm t n) (hpre : p.llog t <+: p'.llog t)
    (hn : n ≤ (p.llog t).length) : p.Own tm t n := by
  obtain ⟨k, e, rfl, hk, he⟩ := h
  refine ⟨k, e, rfl, ?_, he⟩
  obtain ⟨r, hr⟩ := hpre
  rw [← hr, List.getElem?_append_left (by omega)] at hk
  exact hk

namespace Inv

variable [Fintype S]

theorem llog_le (h : Inv tm p) {t : ℤ} {e : E} (he : e ∈ p.llog t) : tm e ≤ t := by
  cases hl : p.lead t with
  | none =>
      rw [h.lead_none t hl] at he
      exact absurd he (by simp)
  | some c =>
      obtain ⟨X, -, hX, hterm⟩ := h.lead_llog t c hl
      rw [hX, List.mem_append] at he
      rcases he with he | he
      · exact le_of_lt (h.cand_lt t c _ (h.lead_cand t c hl) e he)
      · exact le_of_eq (hterm e he)

/-- The last entry of a matched log has the highest term of it. -/
theorem le_last (h : Inv tm p) {X : List E} (hX : p.Matched tm X) {e x : E} (he : e ∈ X)
    (hx : X.getLast? = some x) : tm e ≤ tm x :=
  h.llog_le ((hX.last hx).subset he)

theorem lead_of_mem (h : Inv tm p) {t : ℤ} {e : E} (he : e ∈ p.llog t) : p.lead t ≠ none := by
  intro hl
  rw [h.lead_none t hl] at he
  exact absurd he (by simp)

theorem base_prefix (h : Inv tm p) {t : ℤ} (ht : p.lead t ≠ none) : p.base t <+: p.llog t := by
  obtain ⟨c, hc⟩ := Option.ne_none_iff_exists'.mp ht
  obtain ⟨X, -, hX, -⟩ := h.lead_llog t c hc
  exact ⟨X, hX.symm⟩

/-- The comparison a voter makes. If the voter's log begins with the first
`n` entries of the leader of `t`, the last of them that leader's own, then so
does the log of a candidate it finds up to date, unless a leader in between
was elected without them. -/
theorem upToDate_carries (h : Inv tm p) {X L : List E} (hX : p.Matched tm X)
    (hL : p.Matched tm L) {t t' : ℤ} (hlt : ∀ e ∈ L, tm e < t') (hup : UpToDate tm L X)
    {n : ℕ} (hown : p.Own tm t n) (hpre : (p.llog t).take n <+: X) :
    (p.llog t).take n <+: L ∨ ∃ u < t', p.Bad t n u := by
  obtain ⟨k, e, rfl, hk, rfl⟩ := hown
  have hklt : k < (p.llog (tm e)).length := (List.getElem?_eq_some_iff.mp hk).1
  have heX : X[k]? = some e :=
    prefix_getElem? hpre (by rw [List.getElem?_take_of_lt (by omega)]; exact hk)
  obtain ⟨x, hx⟩ : ∃ x, X.getLast? = some x := by
    cases hX' : X.getLast? with
    | none =>
        rw [List.getLast?_eq_none_iff] at hX'
        subst hX'
        exact absurd heX (by simp)
    | some x => exact ⟨x, rfl⟩
  have hex : tm e ≤ tm x := h.le_last hX (List.mem_of_getElem? heX) hx
  obtain ⟨l, hl, hcmp⟩ := hup x hx
  have hlmem : l ∈ L := List.mem_of_getLast? hl
  have hLl := hL.last hl
  rcases hcmp with hgt | ⟨heq, hlen⟩
  · -- the candidate's last entry is of a later term than the voter's
    have hlead : p.lead (tm l) ≠ none := h.lead_of_mem (hLl.subset hlmem)
    by_cases hb : (p.llog (tm e)).take (k + 1) <+: p.base (tm l)
    · left
      have hPl := hb.trans (h.base_prefix hlead)
      rcases Nat.le_total ((p.llog (tm e)).take (k + 1)).length L.length with hle | hle
      · exact prefix_of_both hPl hLl hle
      · -- a shorter log would end inside the old leader's entries
        have hLP := prefix_of_both hLl hPl hle
        have := h.llog_le ((List.take_prefix _ _).subset (hLP.subset hlmem))
        omega
    · exact Or.inr ⟨tm l, hlt l hlmem, by omega, hlead, hb⟩
  · left
    have hXl := hX.last hx
    rw [heq] at hXl
    exact hpre.trans (prefix_of_both hXl hLl hlen)

/-- **Leader completeness**: no leader is elected without entries that a
majority of the servers has held in the term of the leader that made the last
of them. -/
theorem not_bad (h : Inv tm p) {t : ℤ} {n : ℕ} (hown : p.Own tm t n)
    (hmaj : Majority (p.holders t n)) (u : ℤ) : ¬ p.Bad t n u := by
  suffices H : ∀ d : ℕ, ∀ u, (u - t).toNat = d → ¬ p.Bad t n u from H _ u rfl
  intro d
  induction d using Nat.strong_induction_on with
  | _ d ih =>
      rintro u rfl ⟨htu, hlead, hbase⟩
      obtain ⟨c, hc⟩ := Option.ne_none_iff_exists'.mp hlead
      obtain ⟨hQ, hvoted⟩ := h.lead_quorum u c hc
      obtain ⟨s, hsQ, hsh⟩ := hQ.inter hmaj
      have hacks : n ≤ p.acks s t := (Finset.mem_filter.mp hsh).2
      rcases h.vote_kept s c u _ (hvoted s hsQ) (Or.inr hsQ) (h.lead_cand u c hc) t n htu
        hacks hown with hcarry | ⟨w, hw, hbad⟩
      · exact hbase hcarry
      · have hlt : t < w := hbad.1
        exact ih (w - t).toNat (by omega) w rfl hbad

/-- The committed beginning of a leader's log. -/
theorem clevel_prefix_base (h : Inv tm p) {t u : ℤ} (htu : t < u) (hlead : p.lead u ≠ none)
    {n : ℕ} (hn : n ≤ p.clevel t) : (p.llog t).take n <+: p.base u := by
  rcases Nat.eq_zero_or_pos (p.clevel t) with h0 | hpos
  · have : n = 0 := by omega
    subst this
    simp
  · have hbad := h.not_bad (h.clevel_own t hpos) (h.clevel_holders t hpos) u
    have hfull : (p.llog t).take (p.clevel t) <+: p.base u := by
      by_contra hc
      exact hbad ⟨htu, hlead, hc⟩
    exact (List.take_prefix_take_left hn).trans hfull

theorem clevel_prefix_llog (h : Inv tm p) {t u : ℤ} (htu : t ≤ u) (hlead : p.lead u ≠ none)
    {n : ℕ} (hn : n ≤ p.clevel t) : (p.llog t).take n <+: p.llog u := by
  rcases Int.lt_or_eq_of_le htu with hlt | rfl
  · exact (h.clevel_prefix_base hlt hlead hn).trans (h.base_prefix hlead)
  · exact List.take_prefix _ _

theorem clevel_le (h : Inv tm p) (t : ℤ) : p.clevel t ≤ (p.llog t).length := by
  rcases Nat.eq_zero_or_pos (p.clevel t) with h0 | hpos
  · omega
  · exact (h.clevel_own t hpos).le_length

theorem lead_of_clevel (h : Inv tm p) {t : ℤ} (ht : 0 < p.clevel t) : p.lead t ≠ none := by
  intro hl
  have := h.clevel_le t
  rw [h.lead_none t hl] at this
  simp at this
  omega

/-- The committed beginnings of two leaders' logs, the shorter one first. -/
theorem clevel_comparable (h : Inv tm p) {t u : ℤ} {m n : ℕ} (hm : m ≤ p.clevel t)
    (hn : n ≤ p.clevel u) (hmn : m ≤ n) : (p.llog t).take m <+: (p.llog u).take n := by
  rcases Nat.eq_zero_or_pos m with rfl | hpos
  · simp
  have hlm : ((p.llog t).take m).length ≤ ((p.llog u).take n).length := by
    have := h.clevel_le t
    have := h.clevel_le u
    simp only [List.length_take]
    omega
  rcases le_total t u with htu | hut
  · exact prefix_of_both (h.clevel_prefix_llog htu (h.lead_of_clevel (by omega)) hm)
      (List.take_prefix _ _) hlm
  · exact prefix_of_both (List.take_prefix _ _)
      (h.clevel_prefix_llog hut (h.lead_of_clevel (by omega)) hn) hlm

variable [DecidableEq S]

/-- Two majorities elected in one term elected the same server. -/
theorem lead_eq_none (h : Inv tm p) {c : S} {t : ℤ} (hmaj : Majority (p.voters t c))
    (hne : p.lead t ≠ some c) : p.lead t = none := by
  cases hl : p.lead t with
  | none => rfl
  | some c' =>
      obtain ⟨hQ, hvoted⟩ := h.lead_quorum t c' hl
      obtain ⟨v, hv, hv'⟩ := hQ.inter hmaj
      have h1 := hvoted v hv
      have h2 : p.voted v t = some c := (Finset.mem_filter.mp hv').2
      rw [h1, Option.some.injEq] at h2
      exact absurd (h2 ▸ hl) hne

end Inv

end Proto

end RaftLock.Consensus

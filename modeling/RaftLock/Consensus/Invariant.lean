import RaftLock.Consensus.Safety

/-!
The invariant of the protocol is kept by every step, one lemma a step, and
with it the committed beginning of every log.
-/

namespace RaftLock.Consensus.Proto

variable {S E : Type} [Fintype S] [DecidableEq S] {tm : E → ℤ} {p p' : Proto S E}

/-! ### Counts that only grow -/

omit [Fintype S] in
theorem acks_le_ack (p : Proto S E) (s : S) (n : ℕ) (v : S) (t : ℤ) :
    p.acks v t ≤ (p.ack s n).acks v t := by
  by_cases hv : v = s
  · subst hv
    by_cases ht : t = p.term v
    · subst ht
      simp [ack]
    · simp [ack, ht]
  · simp [ack, hv]

omit [Fintype S] in
theorem ack_acks (p : Proto S E) (s : S) (n : ℕ) (v : S) (t : ℤ) :
    (p.ack s n).acks v t = p.acks v t ∨
      (v = s ∧ t = p.term s ∧ (p.ack s n).acks v t = n) := by
  by_cases hv : v = s
  · subst hv
    by_cases ht : t = p.term v
    · subst ht
      have hval : (p.ack v n).acks v (p.term v) = max (p.acks v (p.term v)) n := by
        simp [ack]
      rcases le_total (p.acks v (p.term v)) n with hle | hle
      · exact Or.inr ⟨rfl, rfl, hval.trans (max_eq_right hle)⟩
      · exact Or.inl (hval.trans (max_eq_left hle))
    · exact Or.inl (by simp [ack, ht])
  · exact Or.inl (by simp [ack, hv])

omit [Fintype S] [DecidableEq S] in
theorem clevel_le_commit (p : Proto S E) (t : ℤ) (n : ℕ) (u : ℤ) :
    p.clevel u ≤ (p.commit t n).clevel u := by
  by_cases hu : u = t
  · subst hu
    simp [commit]
  · simp [commit, hu]

omit [Fintype S] [DecidableEq S] in
theorem commit_clevel (p : Proto S E) (t : ℤ) (n : ℕ) (u : ℤ) :
    (p.commit t n).clevel u = p.clevel u ∨ (u = t ∧ (p.commit t n).clevel u = n) := by
  by_cases hu : u = t
  · subst hu
    have hval : (p.commit u n).clevel u = max (p.clevel u) n := by
      simp [commit]
    rcases le_total (p.clevel u) n with hle | hle
    · exact Or.inr ⟨rfl, hval.trans (max_eq_right hle)⟩
    · exact Or.inl (hval.trans (max_eq_left hle))
  · exact Or.inl (by simp [commit, hu])

namespace Inv

/-- A server that moves on to a term nobody can have led it in has nothing to
keep there. -/
theorem bump (h : Inv tm p) {s : S} {t : ℤ} (ht : p.term s < t) : Inv tm (p.bump s t) := by
  have hle : ∀ v, p.term v ≤ Function.update p.term s t v := by
    intro v
    by_cases hv : v = s
    · subst hv
      simpa using le_of_lt ht
    · simp [hv]
  exact
    { h with
      voted_le := fun v u c hv => (h.voted_le v u c hv).trans (hle v)
      cand_le := fun u c L hc => (h.cand_le u c L hc).trans (hle c)
      leader_log := by
        intro u c hl hterm
        by_cases hc : c = s
        · -- the leader of the new term would already have been in it
          subst hc
          have := h.cand_le u c _ (h.lead_cand u c hl)
          simp only [Proto.bump, Function.update_self] at hterm
          omega
        · simp only [Proto.bump, Function.update_of_ne hc] at hterm
          exact h.leader_log u c hl hterm
      log_le := fun v e he => (h.log_le v e he).trans (hle v)
      acks_term := fun v u hv => (h.acks_term v u hv).trans (hle v)
      held := by
        intro v
        by_cases hv : v = s
        · subst hv
          have : p.acks v t = 0 := by
            by_contra hne
            have := h.acks_term v t (by omega)
            omega
          simp [Proto.bump, this]
        · simpa [Proto.bump, hv] using h.held v
      kept := by
        intro v u n hn hown
        rcases h.kept v u n hn hown with hk | ⟨w, hw, hbad⟩
        · exact Or.inl hk
        · exact Or.inr ⟨w, hw.trans (hle v), hbad⟩ }

/-! ### Votes

A vote and a candidacy are recorded the same way: where there was none. -/

section Record

variable {A B C : Type} [DecidableEq A] [DecidableEq B] {f : A → B → Option C} {a a' : A}
  {b b' : B} {x y : C}

theorem recorded (h : Function.update f a (Function.update (f a) b (some x)) a' b' = some y) :
    (a' = a ∧ b' = b ∧ y = x) ∨ f a' b' = some y := by
  by_cases ha : a' = a
  · subst ha
    by_cases hb : b' = b
    · subst hb
      simp only [Function.update_self, Option.some.injEq] at h
      exact Or.inl ⟨rfl, rfl, h.symm⟩
    · rw [Function.update_self, Function.update_of_ne hb] at h
      exact Or.inr h
  · rw [Function.update_of_ne ha] at h
    exact Or.inr h

theorem record_kept (hnone : f a b = none) (h : f a' b' = some y) :
    Function.update f a (Function.update (f a) b (some x)) a' b' = some y := by
  by_cases ha : a' = a
  · subst ha
    have hb : b' ≠ b := by
      rintro rfl
      exact absurd (hnone.symm.trans h) (by simp)
    rwa [Function.update_self, Function.update_of_ne hb]
  · rwa [Function.update_of_ne ha]

end Record

section Votes

variable {s c : S} {t : ℤ}

omit [DecidableEq S] in
/-- Nobody has stood for election in a term it has not reached. -/
theorem cand_none (h : Inv tm p) (ht : p.term s < t) : p.cand t s = none := by
  by_contra hne
  obtain ⟨L, hL⟩ := Option.ne_none_iff_exists'.mp hne
  exact absurd (h.cand_le t s L hL) (by omega)

omit [DecidableEq S] in
theorem voted_none (h : Inv tm p) (ht : p.term s < t) : p.voted s t = none := by
  by_contra hne
  obtain ⟨c, hc⟩ := Option.ne_none_iff_exists'.mp hne
  exact absurd (h.voted_le s t c hc) (by omega)

/-- The candidate's vote for itself goes to the log it has, and the others'
votes of its new term to other candidates. -/
theorem campaign_vote_kept (h : Inv tm p) (s : S) {v d : S} {t' : ℤ} {L : List E}
    (hv : (p.campaign s).voted v t' = some d) (hq : p.lead t' = none ∨ v ∈ p.quorum t')
    (hd : (p.campaign s).cand t' d = some L) {n : ℕ} (htt : t < t') (hn : n ≤ p.acks v t)
    (hown : p.Own tm t n) : (p.llog t).take n <+: L ∨ ∃ u < t', p.Bad t n u := by
  rcases recorded hv with ⟨rfl, rfl, rfl⟩ | hv
  · have hL : L = p.log d := by
      rcases recorded hd with ⟨-, -, rfl⟩ | hd
      · rfl
      · exact absurd (h.cand_none (s := d) (Int.lt_succ _)) (by simp [hd])
    rw [hL]
    rcases h.kept d t n hn hown with hk | ⟨w, hw, hbad⟩
    · exact Or.inl hk
    · exact Or.inr ⟨w, by omega, hbad⟩
  · rcases recorded hd with ⟨rfl, rfl, rfl⟩ | hd
    · obtain ⟨M, hM⟩ := h.voted_cand v _ d hv
      exact absurd (h.cand_none (s := d) (Int.lt_succ _)) (by simp [hM])
    · exact h.vote_kept v d t' L hv hq hd t n htt hn hown

/-- A server that stands for election moves on to the next term first. -/
theorem campaign (h : Inv tm p) (s : S) : Inv tm (p.campaign s) := by
  have hbump := h.bump (Int.lt_succ (p.term s))
  have hle : ∀ v, p.term v ≤ (p.campaign s).term v := by
    intro v
    by_cases hv : v = s
    · subst hv
      simp [Proto.campaign]
    · simp [Proto.campaign, hv]
  have hvote : ∀ v u d, p.voted v u = some d → (p.campaign s).voted v u = some d :=
    fun _ _ _ hv => record_kept (h.voted_none (Int.lt_succ _)) hv
  have hcand : ∀ u d L, p.cand u d = some L → (p.campaign s).cand u d = some L :=
    fun _ _ _ hd => record_kept (h.cand_none (Int.lt_succ _)) hd
  exact
    { hbump with
      voted_le := by
        intro v u d hv
        rcases recorded hv with ⟨rfl, rfl, rfl⟩ | hv
        · simp [Proto.campaign]
        · exact (h.voted_le v u d hv).trans (hle v)
      voted_cand := by
        intro v u d hv
        rcases recorded hv with ⟨rfl, rfl, rfl⟩ | hv
        · exact ⟨p.log d, by simp [Proto.campaign]⟩
        · obtain ⟨L, hL⟩ := h.voted_cand v u d hv
          exact ⟨L, hcand u d L hL⟩
      cand_le := by
        intro u d L hd
        rcases recorded hd with ⟨rfl, rfl, rfl⟩ | hd
        · simp [Proto.campaign]
        · exact (h.cand_le u d L hd).trans (hle d)
      cand_lt := by
        intro u d L hd e he
        rcases recorded hd with ⟨rfl, rfl, rfl⟩ | hd
        · exact Int.lt_add_one_of_le (h.log_le d e he)
        · exact h.cand_lt u d L hd e he
      cand_matched := by
        intro u d L hd
        rcases recorded hd with ⟨rfl, rfl, rfl⟩ | hd
        · exact h.log_matched d
        · exact h.cand_matched u d L hd
      lead_quorum := by
        intro u d hl
        obtain ⟨hmaj, hvoted⟩ := h.lead_quorum u d hl
        exact ⟨hmaj, fun v hv => hvote v u d (hvoted v hv)⟩
      lead_cand := fun u d hl => hcand u d _ (h.lead_cand u d hl)
      vote_kept := fun v d t' L hv hq hd t n htt hn hown =>
        h.campaign_vote_kept s hv hq hd htt hn hown }

omit [DecidableEq S] in
/-- The voter has not voted yet, so its vote is not one of those that elected
the leader of its term, and no such leader can be the one to blame. -/
theorem grant_vote_kept (h : Inv tm p) {L : List E} (hnone : p.voted s (p.term s) = none)
    (hcand : p.cand (p.term s) c = some L) (hup : UpToDate tm L (p.log s))
    (hq : p.lead (p.term s) = none ∨ s ∈ p.quorum (p.term s)) {n : ℕ} (hn : n ≤ p.acks s t)
    (hown : p.Own tm t n) : (p.llog t).take n <+: L ∨ ∃ u < p.term s, p.Bad t n u := by
  have hlead : p.lead (p.term s) = none := by
    rcases hq with hq | hq
    · exact hq
    · by_contra hne
      obtain ⟨d, hd⟩ := Option.ne_none_iff_exists'.mp hne
      have hvoted := (h.lead_quorum _ _ hd).2 s hq
      exact absurd (hnone.symm.trans hvoted) (by simp)
  rcases h.kept s t n hn hown with hk | ⟨w, hw, hbad⟩
  · exact h.upToDate_carries (h.log_matched s) (h.cand_matched _ _ _ hcand)
      (h.cand_lt _ _ _ hcand) hup hown hk
  · refine Or.inr ⟨w, lt_of_le_of_ne hw ?_, hbad⟩
    rintro rfl
    exact absurd hlead hbad.2.1

theorem grant (h : Inv tm p) {L : List E} (hnone : p.voted s (p.term s) = none)
    (hcand : p.cand (p.term s) c = some L) (hup : UpToDate tm L (p.log s)) :
    Inv tm (p.grant s c) :=
  { h with
    voted_le := by
      intro v u d hv
      rcases recorded hv with ⟨rfl, rfl, rfl⟩ | hv
      · exact le_refl _
      · exact h.voted_le v u d hv
    voted_cand := by
      intro v u d hv
      rcases recorded hv with ⟨rfl, rfl, rfl⟩ | hv
      · exact ⟨L, hcand⟩
      · exact h.voted_cand v u d hv
    lead_quorum := by
      intro u d hl
      obtain ⟨hmaj, hvoted⟩ := h.lead_quorum u d hl
      exact ⟨hmaj, fun v hv => record_kept hnone (hvoted v hv)⟩
    vote_kept := by
      intro v d t' L' hv hq hd t n htt hn hown
      rcases recorded hv with ⟨rfl, rfl, rfl⟩ | hv
      · obtain rfl : L = L' := Option.some.inj (hcand.symm.trans hd)
        exact h.grant_vote_kept hnone hcand hup hq hn hown
      · exact h.vote_kept v d t' L' hv hq hd t n htt hn hown }

end Votes

end Inv

/-! ### Longer logs

Electing a leader and appending to its log both put an entry behind the log of
a server and make that the log of the leader of its term, which had the
server's log, or none. What the servers have acknowledged lies inside the old
one. -/

structure Grows (p : Proto S E) (c : S) (e : E) (p' : Proto S E) : Prop where
  term : p'.term = p.term
  voted : p'.voted = p.voted
  cand : p'.cand = p.cand
  acks : p'.acks = p.acks
  clevel : p'.clevel = p.clevel
  log : p'.log = Function.update p.log c (p.log c ++ [e])
  own : p'.llog (p.term c) = p.log c ++ [e]
  other : ∀ t, t ≠ p.term c → p'.llog t = p.llog t
  before : p.llog (p.term c) <+: p.log c
  /-- The earlier leaders stay, and so do the votes that count. -/
  led : ∀ t, p.lead t ≠ none → p'.lead t = p.lead t ∧ p'.base t = p.base t
  voter : ∀ t v, p'.lead t = none ∨ v ∈ p'.quorum t → p.lead t = none ∨ v ∈ p.quorum t

namespace Grows

variable {c v : S} {e : E} {t u : ℤ} {n : ℕ}

omit [Fintype S] in
theorem llog_prefix (g : p.Grows c e p') (t : ℤ) : p.llog t <+: p'.llog t := by
  by_cases ht : t = p.term c
  · subst ht
    rw [g.own]
    exact g.before.trans (List.prefix_append _ _)
  · rw [g.other t ht]

omit [Fintype S] in
theorem log_of_ne (g : p.Grows c e p') (hv : v ≠ c) : p'.log v = p.log v := by
  rw [g.log, Function.update_of_ne hv]

omit [Fintype S] in
theorem log_self (g : p.Grows c e p') : p'.log c = p.log c ++ [e] := by
  rw [g.log, Function.update_self]

omit [Fintype S] in
theorem log_prefix (g : p.Grows c e p') (v : S) : p.log v <+: p'.log v := by
  by_cases hv : v = c
  · subst hv
    rw [g.log_self]
    exact List.prefix_append _ _
  · rw [g.log_of_ne hv]

theorem take_eq (g : p.Grows c e p') (h : Inv tm p) (hn : n ≤ p.acks v t) :
    (p'.llog t).take n = (p.llog t).take n :=
  take_prefix_of_isPrefix (g.llog_prefix t) (hn.trans (h.acks_le v t))

theorem own_of_acked (g : p.Grows c e p') (h : Inv tm p) (hn : n ≤ p.acks v t)
    (hown : p'.Own tm t n) : p.Own tm t n :=
  hown.of_isPrefix (g.llog_prefix t) (hn.trans (h.acks_le v t))

theorem bad (g : p.Grows c e p') (h : Inv tm p) (hn : n ≤ p.acks v t) (hb : p.Bad t n u) :
    p'.Bad t n u := by
  obtain ⟨htu, hlead, hbase⟩ := hb
  obtain ⟨hlead', hbase'⟩ := g.led u hlead
  refine ⟨htu, hlead' ▸ hlead, ?_⟩
  rwa [hbase', g.take_eq h hn]

/-- The log of the server, and with it that of the leader, is matched. -/
theorem matched (g : p.Grows c e p') (h : Inv tm p) (he : tm e = p.term c) :
    p'.Matched tm (p.log c ++ [e]) :=
  ((h.log_matched c).mono g.llog_prefix).append (by rw [he, g.own])

theorem log_le (g : p.Grows c e p') (h : Inv tm p) (he : tm e = p.term c) :
    ∀ x ∈ p'.log v, tm x ≤ p.term v := by
  intro x hx
  by_cases hv : v = c
  · subst hv
    rw [g.log_self] at hx
    rcases List.mem_append.mp hx with hx | hx
    · exact h.log_le v x hx
    · rw [List.mem_singleton.mp hx]
      exact he.le
  · rw [g.log_of_ne hv] at hx
    exact h.log_le v x hx

/-- What is left to say about such a step is what the leaders are. -/
theorem inv (g : p.Grows c e p') (h : Inv tm p) (he : tm e = p.term c)
    (hquorum : ∀ t d, p'.lead t = some d →
      Majority (p'.quorum t) ∧ ∀ v ∈ p'.quorum t, p.voted v t = some d)
    (hnone : ∀ t, p'.lead t = none → p'.llog t = [])
    (hcand : ∀ t d, p'.lead t = some d → p.cand t d = some (p'.base t))
    (hllog : ∀ t d, p'.lead t = some d →
      ∃ X, X ≠ [] ∧ p'.llog t = p'.base t ++ X ∧ ∀ x ∈ X, tm x = t)
    (hleader : ∀ t d, p'.lead t = some d → p.term d = t → p'.log d = p'.llog t) :
    Inv tm p' where
  voted_le := by rw [g.voted, g.term]; exact h.voted_le
  voted_cand := by rw [g.voted, g.cand]; exact h.voted_cand
  cand_le := by rw [g.cand, g.term]; exact h.cand_le
  cand_lt := by rw [g.cand]; exact h.cand_lt
  cand_matched t d L hd := (h.cand_matched t d L (g.cand ▸ hd)).mono g.llog_prefix
  lead_quorum := by rw [g.voted]; exact hquorum
  lead_none := hnone
  lead_cand := by rw [g.cand]; exact hcand
  lead_llog := hllog
  llog_matched t := by
    by_cases ht : t = p.term c
    · rw [ht, g.own]
      exact g.matched h he
    · rw [g.other t ht]
      exact (h.llog_matched t).mono g.llog_prefix
  leader_log := by rw [g.term]; exact hleader
  log_le v := by rw [g.term]; exact g.log_le h he
  log_matched v := by
    by_cases hv : v = c
    · rw [hv, g.log_self]
      exact g.matched h he
    · rw [g.log_of_ne hv]
      exact (h.log_matched v).mono g.llog_prefix
  acks_le v t := by
    rw [g.acks]
    exact (h.acks_le v t).trans (g.llog_prefix t).length_le
  acks_term := by rw [g.acks, g.term]; exact h.acks_term
  held v := by
    rw [g.term, g.acks, g.take_eq h le_rfl]
    exact (h.held v).trans (g.log_prefix v)
  kept v t n hn hown := by
    rw [g.acks] at hn
    rw [g.term, g.take_eq h hn]
    rcases h.kept v t n hn (g.own_of_acked h hn hown) with hk | ⟨w, hw, hb⟩
    · exact Or.inl (hk.trans (g.log_prefix v))
    · exact Or.inr ⟨w, hw, g.bad h hn hb⟩
  vote_kept v d t' L hv hq hd t n htt hn hown := by
    rw [g.acks] at hn
    rw [g.take_eq h hn]
    rcases h.vote_kept v d t' L (g.voted ▸ hv) (g.voter t' v hq) (g.cand ▸ hd) t n htt hn
      (g.own_of_acked h hn hown) with hk | ⟨w, hw, hb⟩
    · exact Or.inl hk
    · exact Or.inr ⟨w, hw, g.bad h hn hb⟩
  clevel_own t ht := by
    rw [g.clevel] at ht ⊢
    exact (h.clevel_own t ht).mono (g.llog_prefix t)
  clevel_holders t ht := by
    have hsame : p'.holders t (p'.clevel t) = p.holders t (p.clevel t) := by
      rw [Proto.holders, Proto.holders, g.acks, g.clevel]
    rw [g.clevel] at ht
    rw [hsame]
    exact h.clevel_holders t ht

end Grows

namespace Inv

section Grow

variable {c : S} {e : E}

theorem elect_grows (h : Inv tm p) (hfree : p.lead (p.term c) = none) :
    p.Grows c e (p.elect c e) where
  term := rfl
  voted := rfl
  cand := rfl
  acks := rfl
  clevel := rfl
  log := rfl
  own := by simp [Proto.elect]
  other t ht := by simp [Proto.elect, ht]
  before := by
    rw [h.lead_none _ hfree]
    exact List.nil_prefix
  led t ht := by
    have hne : t ≠ p.term c := by
      rintro rfl
      exact ht hfree
    simp [Proto.elect, hne]
  voter t v hq := by
    by_cases ht : t = p.term c
    · exact Or.inl (ht ▸ hfree)
    · simpa [Proto.elect, ht] using hq

theorem append_grows (h : Inv tm p) (hlead : p.lead (p.term c) = some c) :
    p.Grows c e (p.append c e) where
  term := rfl
  voted := rfl
  cand := rfl
  acks := rfl
  clevel := rfl
  log := rfl
  own := by simp [Proto.append, h.leader_log _ c hlead rfl]
  other t ht := by simp [Proto.append, ht]
  before := by
    rw [h.leader_log _ c hlead rfl]
  led _ _ := ⟨rfl, rfl⟩
  voter _ _ hq := hq

theorem elect (h : Inv tm p) (hcand : p.cand (p.term c) c = some (p.log c))
    (hfree : p.lead (p.term c) = none) (hmaj : Majority (p.voters (p.term c) c))
    (he : tm e = p.term c) : Inv tm (p.elect c e) := by
  -- the leader of the candidate's term is new, the others are as before
  have hold : ∀ t, t ≠ p.term c → (p.elect c e).lead t = p.lead t ∧
      (p.elect c e).base t = p.base t ∧ (p.elect c e).quorum t = p.quorum t ∧
      (p.elect c e).llog t = p.llog t := by
    intro t ht
    simp [Proto.elect, ht]
  have hnew : ∀ d, (p.elect c e).lead (p.term c) = some d → d = c := by
    intro d hd
    simpa [Proto.elect, eq_comm] using hd
  refine (h.elect_grows hfree).inv h he (fun t d hl => ?_) (fun t hl => ?_) (fun t d hl => ?_)
    (fun t d hl => ?_) (fun t d hl hterm => ?_) <;> by_cases ht : t = p.term c
  · subst ht
    obtain rfl := hnew d hl
    simp only [Proto.elect, Function.update_self]
    exact ⟨hmaj, fun v hv => (Finset.mem_filter.mp hv).2⟩
  · rw [(hold t ht).1] at hl
    rw [(hold t ht).2.2.1]
    exact h.lead_quorum t d hl
  · subst ht
    simp [Proto.elect] at hl
  · rw [(hold t ht).1] at hl
    rw [(hold t ht).2.2.2]
    exact h.lead_none t hl
  · subst ht
    obtain rfl := hnew d hl
    simpa [Proto.elect] using hcand
  · rw [(hold t ht).1] at hl
    rw [(hold t ht).2.1]
    exact h.lead_cand t d hl
  · subst ht
    exact ⟨[e], by simp, by simp [Proto.elect], by simpa using he⟩
  · rw [(hold t ht).1] at hl
    rw [(hold t ht).2.1, (hold t ht).2.2.2]
    exact h.lead_llog t d hl
  · subst ht
    obtain rfl := hnew d hl
    simp [Proto.elect]
  · have hd : d ≠ c := by
      rintro rfl
      exact ht hterm.symm
    rw [(hold t ht).1] at hl
    rw [(hold t ht).2.2.2, (h.elect_grows hfree).log_of_ne hd]
    exact h.leader_log t d hl hterm

theorem append (h : Inv tm p) (hlead : p.lead (p.term c) = some c) (he : tm e = p.term c) :
    Inv tm (p.append c e) := by
  have hgrows := h.append_grows (e := e) hlead
  have hllog : ∀ t, p.lead t ≠ some c ∨ t ≠ p.term c → t ≠ p.term c := by
    rintro t (hne | hne) rfl
    · exact hne hlead
    · exact hne rfl
  refine hgrows.inv h he h.lead_quorum (fun t hl => ?_) h.lead_cand (fun t d hl => ?_)
    (fun t d hl hterm => ?_)
  · have hl : p.lead t = none := hl
    rw [hgrows.other t (hllog t (Or.inl (by simp [hl])))]
    exact h.lead_none t hl
  · obtain ⟨X, hX, hXl, hXt⟩ := h.lead_llog t d hl
    by_cases ht : t = p.term c
    · subst ht
      refine ⟨X ++ [e], by simp, by simp [Proto.append, hXl], fun x hx => ?_⟩
      rcases List.mem_append.mp hx with hx | hx
      · exact hXt x hx
      · rw [List.mem_singleton.mp hx, he]
    · rw [hgrows.other t ht]
      exact ⟨X, hX, hXl, hXt⟩
  · have hl : p.lead t = some d := hl
    by_cases hd : d = c
    · subst hd
      rw [← hterm, hgrows.own, hgrows.log_self]
    · have ht : t ≠ p.term c := by
        rintro rfl
        exact hd (Option.some.inj (hl.symm.trans hlead))
      rw [hgrows.other t ht, hgrows.log_of_ne hd]
      exact h.leader_log t d hl hterm

end Grow

/-! ### Other logs -/

/-- A server that takes another log. What it needs to be: matched, of terms
the server has reached, the leader's own log where the server leads, and
without loss of what the server is bound to keep. -/
theorem replace (h : Inv tm p) {s : S} {X : List E} (hmatched : p.Matched tm X)
    (hle : ∀ e ∈ X, tm e ≤ p.term s) (hleader : p.lead (p.term s) = some s → X = p.log s)
    (hheld : (p.llog (p.term s)).take (p.acks s (p.term s)) <+: X)
    (hkept : ∀ t n, n ≤ p.acks s t → p.Own tm t n → (p.llog t).take n <+: p.log s →
      (p.llog t).take n <+: X ∨ ∃ u ≤ p.term s, p.Bad t n u) :
    Inv tm (p.adopt s X) := by
  have hself : (p.adopt s X).log s = X := by simp [Proto.adopt]
  have hother : ∀ v, v ≠ s → (p.adopt s X).log v = p.log v := by
    intro v hv
    simp [Proto.adopt, hv]
  exact
    { h with
      leader_log := by
        intro u d hl hterm
        by_cases hd : d = s
        · subst hd
          have hterm' : p.term d = u := hterm
          rw [hself, hleader (hterm' ▸ hl)]
          exact h.leader_log u d hl hterm
        · rw [hother d hd]
          exact h.leader_log u d hl hterm
      log_le := by
        intro v e he
        by_cases hv : v = s
        · subst hv
          rw [hself] at he
          exact hle e he
        · rw [hother v hv] at he
          exact h.log_le v e he
      log_matched := by
        intro v
        by_cases hv : v = s
        · subst hv
          rw [hself]
          exact hmatched
        · rw [hother v hv]
          exact h.log_matched v
      held := by
        intro v
        by_cases hv : v = s
        · subst hv
          rw [hself]
          exact hheld
        · rw [hother v hv]
          exact h.held v
      kept := by
        intro v t n hn hown
        by_cases hv : v = s
        · subst hv
          rw [hself]
          rcases h.kept v t n hn hown with hk | hb
          · exact hkept t n hn hown hk
          · exact Or.inr hb
        · rw [hother v hv]
          exact h.kept v t n hn hown }

/-- A follower cuts off nothing that the leader's log has as well. -/
theorem accept (h : Inv tm p) {s : S} {n : ℕ} (hlead : p.lead (p.term s) ≠ none) :
    Inv tm (p.accept s n) := by
  have hreplace : p.accept s n =
      p.adopt s (merge (p.log s) (p.llog (p.term s)) n) := rfl
  rw [hreplace]
  by_cases hpre : (p.llog (p.term s)).take n <+: p.log s
  · rw [merge, if_pos hpre]
    exact h.replace (h.log_matched s) (h.log_le s) (fun _ => rfl) (h.held s)
      (fun t m _ _ hk => Or.inl hk)
  rw [merge, if_neg hpre]
  -- what lies in the leader's log as well as in the old log is not cut off
  have hcut : ∀ Y, Y <+: p.llog (p.term s) → Y <+: p.log s →
      Y <+: (p.llog (p.term s)).take n := by
    intro Y hY hYs
    rcases Nat.le_total Y.length ((p.llog (p.term s)).take n).length with hle | hle
    · exact prefix_of_both hY (List.take_prefix _ _) hle
    · exact absurd ((prefix_of_both (List.take_prefix _ _) hY hle).trans hYs) hpre
  refine h.replace ((h.llog_matched _).of_isPrefix (List.take_prefix _ _)) ?_ ?_ ?_ ?_
  · exact fun e he => h.llog_le ((List.take_prefix _ _).subset he)
  · intro hl
    rw [h.leader_log _ s hl rfl] at hpre
    exact absurd (List.take_prefix _ _) hpre
  · exact hcut _ (List.take_prefix _ _) (h.held s)
  · intro t m hm hown hk
    by_cases hY : (p.llog t).take m <+: p.llog (p.term s)
    · exact Or.inl (hcut _ hY hk)
    · refine Or.inr ⟨p.term s, le_rfl, ?_, hlead, fun hb => hY (hb.trans (h.base_prefix hlead))⟩
      have hle : t ≤ p.term s := h.acks_term s t (by have := hown.pos; omega)
      rcases Int.lt_or_eq_of_le hle with hlt | rfl
      · exact hlt
      · exact absurd (List.take_prefix _ _) hY

/-- A committed beginning of an earlier leader's log, which the logs of all
later leaders begin with. -/
theorem adopt (h : Inv tm p) {s : S} {t : ℤ} {n : ℕ} (ht : t ≤ p.term s)
    (hn : n ≤ p.clevel t) (hlen : (p.log s).length ≤ n ∨ ¬ (p.llog t).take n <+: p.log s) :
    Inv tm (p.adopt s ((p.llog t).take n)) := by
  have hin : ∀ u, t ≤ u → p.lead u ≠ none → (p.llog t).take n <+: p.llog u :=
    fun u htu hl => h.clevel_prefix_llog htu hl hn
  have hcut : ∀ Y Z, Y <+: Z → (p.llog t).take n <+: Z → Y <+: p.log s →
      Y <+: (p.llog t).take n :=
    fun Y Z hY hX hs => prefix_of_replaced (h.clevel_le t) hn hlen hY hX hs
  refine h.replace ((h.llog_matched t).of_isPrefix (List.take_prefix _ _)) ?_ ?_ ?_ ?_
  · exact fun e he => (h.llog_le ((List.take_prefix _ _).subset he)).trans ht
  · intro hl
    have hlog := h.leader_log _ s hl rfl
    have hpre := hin _ ht (by rw [hl]; simp)
    have hback := hcut (p.log s) _ (by rw [hlog]) hpre List.prefix_rfl
    rw [← hlog] at hpre
    exact hpre.eq_of_length (le_antisymm hpre.length_le hback.length_le)
  · rcases Nat.eq_zero_or_pos (p.acks s (p.term s)) with h0 | hpos
    · simp [h0]
    · have hl : p.lead (p.term s) ≠ none := by
        intro hl
        have := h.acks_le s (p.term s)
        rw [h.lead_none _ hl] at this
        simp at this
        omega
      exact hcut _ _ (List.take_prefix _ _) (hin _ ht hl) (h.held s)
  · intro u m hm hown hk
    rcases lt_trichotomy t u with htu | rfl | hut
    · have hl : p.lead u ≠ none := by
        intro hl
        have := hown.le_length
        rw [h.lead_none u hl] at this
        have := hown.pos
        simp at *
        omega
      exact Or.inl (hcut _ _ (List.take_prefix _ _) (hin u (le_of_lt htu) hl) hk)
    · exact Or.inl (hcut _ _ (List.take_prefix _ _) (List.take_prefix _ _) hk)
    · -- the entries reach beyond what an earlier leader made
      rcases Nat.eq_zero_or_pos n with rfl | hpos
      · rcases hlen with hnil | hne
        · have hlog : p.log s = [] := List.length_eq_zero_iff.mp (Nat.le_zero.mp hnil)
          rw [hlog] at hk
          rw [List.prefix_nil.mp hk]
          exact Or.inl List.nil_prefix
        · exact absurd (by simp) hne
      · have hl : p.lead t ≠ none := h.lead_of_clevel (by omega)
        by_cases hb : (p.llog u).take m <+: p.base t
        · exact Or.inl (hcut _ _ (hb.trans (h.base_prefix hl)) (List.take_prefix _ _) hk)
        · exact Or.inr ⟨t, ht, hut, hl, hb⟩

theorem ack (h : Inv tm p) {s : S} {n : ℕ} (hn : n ≤ (p.llog (p.term s)).length)
    (hheld : (p.llog (p.term s)).take n <+: p.log s) : Inv tm (p.ack s n) := by
  have hacks := p.ack_acks s n
  exact
    { h with
      acks_le := by
        intro v t
        rcases hacks v t with heq | ⟨rfl, rfl, heq⟩
        · exact heq ▸ h.acks_le v t
        · rw [heq]
          exact hn
      acks_term := by
        intro v t hpos
        rcases hacks v t with heq | ⟨rfl, rfl, -⟩
        · exact h.acks_term v t (heq ▸ hpos)
        · exact le_rfl
      held := by
        intro v
        have hterm : (p.ack s n).term v = p.term v := rfl
        have hll : (p.ack s n).llog = p.llog := rfl
        rw [hterm, hll]
        rcases hacks v (p.term v) with heq | ⟨rfl, -, heq⟩
        · rw [heq]
          exact h.held v
        · rw [heq]
          exact hheld
      kept := by
        intro v t m hm hown
        rcases hacks v t with heq | ⟨rfl, rfl, heq⟩
        · exact h.kept v t m (heq ▸ hm) hown
        · exact Or.inl ((List.take_prefix_take_left (heq ▸ hm)).trans hheld)
      vote_kept := by
        intro v d t' L hv hq hc t m htt hm hown
        rcases hacks v t with heq | ⟨rfl, rfl, -⟩
        · exact h.vote_kept v d t' L hv hq hc t m htt (heq ▸ hm) hown
        · -- the server has not voted in a later term yet
          have := h.voted_le v t' d hv
          omega
      clevel_holders := by
        intro t ht
        refine (h.clevel_holders t ht).mono fun v hv => ?_
        have := (Finset.mem_filter.mp hv).2
        exact Finset.mem_filter.mpr ⟨Finset.mem_univ v, this.trans (p.acks_le_ack s n v t)⟩ }

omit [DecidableEq S] in
theorem commit (h : Inv tm p) {t : ℤ} {n : ℕ} {e : E} (he : (p.llog t)[n]? = some e)
    (hterm : tm e = t) (hmaj : Majority (p.holders t (n + 1))) :
    Inv tm (p.commit t (n + 1)) := by
  have hcl := p.commit_clevel t (n + 1)
  exact
    { h with
      clevel_own := by
        intro u hpos
        rcases hcl u with heq | ⟨rfl, heq⟩
        · rw [heq] at hpos ⊢
          exact h.clevel_own u hpos
        · rw [heq]
          exact ⟨n, e, rfl, he, hterm⟩
      clevel_holders := by
        intro u hpos
        rcases hcl u with heq | ⟨rfl, heq⟩
        · rw [heq] at hpos ⊢
          exact h.clevel_holders u hpos
        · rw [heq]
          exact hmaj }

theorem step (h : Inv tm p) (hstep : Step tm p p') : Inv tm p' := by
  cases hstep with
  | bump s t ht => exact h.bump ht
  | campaign s => exact h.campaign s
  | grant s c L hnone hcand hup => exact h.grant hnone hcand hup
  | elect c e hcand hfree hmaj he => exact h.elect hcand hfree hmaj he
  | append c e hlead he => exact h.append hlead he
  | accept s n hlead => exact h.accept hlead
  | adopt s t n ht hn hlen => exact h.adopt ht hn hlen
  | ack s n hn hheld => exact h.ack hn hheld
  | commit t n e he hterm hmaj => exact h.commit he hterm hmaj

end Inv

end RaftLock.Consensus.Proto

import Mathlib.Data.Fintype.Card
import Mathlib.Data.Int.Order.Basic
import Mathlib.Tactic.Common
import Mathlib.Tactic.Linarith

/-!
Replicated logs under elected leaders, without messages.

A system of servers `S` keeps a log of entries `E` at each of them, an entry
carrying the term it was made in (`tm`). What the servers do is reduced to
nine kinds of steps on the state they keep across a crash; how a server comes
to know that it may take a step is not part of the description. Beside the
servers' own state the description keeps the history that arguments about
such systems are made of: every vote ever given, the log every candidate
stood for election with, the log of every leader, how much of a leader's log
each server has held in that leader's term, and how far each leader has
committed.
-/

namespace RaftLock.Consensus

variable {S E : Type}

section Quorum

variable [Fintype S]

/-- More than half of the servers. -/
def Majority (Q : Finset S) : Prop := Fintype.card S < 2 * Q.card

theorem Majority.mono {Q Q' : Finset S} (h : Majority Q) (hQ : Q ⊆ Q') : Majority Q' := by
  have := Finset.card_le_card hQ
  unfold Majority at *
  omega

theorem Majority.inter {Q Q' : Finset S} (h : Majority Q) (h' : Majority Q') :
    ∃ s, s ∈ Q ∧ s ∈ Q' := by
  classical
  have hsum := Finset.card_union_add_card_inter Q Q'
  have hle := Finset.card_le_univ (Q ∪ Q')
  unfold Majority at h h'
  have hpos : 0 < (Q ∩ Q').card := by omega
  obtain ⟨s, hs⟩ := Finset.card_pos.mp hpos
  exact ⟨s, Finset.mem_inter.mp hs⟩

end Quorum

/-! ### Prefixes -/

theorem take_prefix_of_isPrefix {l l' : List E} (h : l <+: l') {k : ℕ} (hk : k ≤ l.length) :
    l'.take k = l.take k := by
  obtain ⟨t, rfl⟩ := h
  exact List.take_append_of_le_length hk

theorem prefix_of_both {a b l : List E} (ha : a <+: l) (hb : b <+: l)
    (hlen : a.length ≤ b.length) : a <+: b :=
  List.prefix_of_prefix_length_le ha hb hlen

theorem prefix_getElem? {a l : List E} (h : a <+: l) {i : ℕ} {e : E} (hi : a[i]? = some e) :
    l[i]? = some e := by
  obtain ⟨t, rfl⟩ := h
  have hlt : i < a.length := by
    rw [List.getElem?_eq_some_iff] at hi
    exact hi.1
  rw [List.getElem?_append_left hlt, hi]

theorem getElem?_of_take_prefix {L X : List E} {k i : ℕ} {e : E} (h : L.take k <+: X)
    (hk : k ≤ L.length) (hi : i < k) (he : X[i]? = some e) : L[i]? = some e := by
  obtain ⟨t, rfl⟩ := h
  have hlt : i < (L.take k).length := by
    simp only [List.length_take]
    omega
  rwa [List.getElem?_append_left hlt, List.getElem?_take_of_lt hi] at he

/-- A log `X` replaced by the first `n` entries of `L`, which reach further or
are not at its beginning, loses nothing that lies in one log with them. -/
theorem prefix_of_replaced {X L Y Z : List E} {n m : ℕ} (hm : m ≤ L.length) (hn : n ≤ m)
    (hlen : X.length ≤ n ∨ ¬ L.take n <+: X) (hY : Y <+: Z) (hL : L.take n <+: Z)
    (hX : Y <+: X) : Y <+: L.take n := by
  rcases Nat.le_total Y.length (L.take n).length with hle | hle
  · exact prefix_of_both hY hL hle
  rcases hlen with hlen | hne
  · have := hX.length_le
    refine prefix_of_both hY hL ?_
    simp only [List.length_take] at *
    omega
  · exact absurd ((prefix_of_both hL hY hle).trans hX) hne

/-! ### The state -/

structure Proto (S E : Type) where
  /-- The current term of each server. -/
  term : S → ℤ
  log : S → List E
  /-- The vote a server gave in a term. -/
  voted : S → ℤ → Option S
  /-- The log a server stood for election with in a term. -/
  cand : ℤ → S → Option (List E)
  /-- The server elected in a term. -/
  lead : ℤ → Option S
  /-- The log the leader of a term was elected with. -/
  base : ℤ → List E
  /-- The voters that elected the leader of a term. -/
  quorum : ℤ → Finset S
  /-- The log of the leader of a term, as far as it got. -/
  llog : ℤ → List E
  /-- How much of the leader's log of a term a server has held in that term. -/
  acks : S → ℤ → ℕ
  /-- How much of its log the leader of a term has committed. -/
  clevel : ℤ → ℕ

/-- The log `L` is at least as up to date as `X`. -/
def UpToDate (tm : E → ℤ) (L X : List E) : Prop :=
  ∀ x, X.getLast? = some x →
    ∃ l, L.getLast? = some l ∧ (tm x < tm l ∨ (tm x = tm l ∧ X.length ≤ L.length))

/-- The log a server has after it took the first `n` entries of a leader's
log: what agreed with them and went on stays. -/
noncomputable def merge (X L : List E) (n : ℕ) : List E :=
  open Classical in if L.take n <+: X then X else L.take n

namespace Proto

/-- Every entry of `X` is preceded by what preceded it in the log of the
leader that made it. -/
def Matched (tm : E → ℤ) (p : Proto S E) (X : List E) : Prop :=
  ∀ i e, X[i]? = some e → X.take (i + 1) <+: p.llog (tm e)

/-- The leader of `u` was elected without the first `n` entries of the leader
of the earlier term `t`. -/
def Bad (p : Proto S E) (t : ℤ) (n : ℕ) (u : ℤ) : Prop :=
  t < u ∧ p.lead u ≠ none ∧ ¬ (p.llog t).take n <+: p.base u

/-- The entry that makes `n` a length the leader of `t` can commit: the last
of the first `n` entries is its own. -/
def Own (tm : E → ℤ) (p : Proto S E) (t : ℤ) (n : ℕ) : Prop :=
  ∃ k e, n = k + 1 ∧ (p.llog t)[k]? = some e ∧ tm e = t

variable [Fintype S] [DecidableEq S]

def voters (p : Proto S E) (t : ℤ) (c : S) : Finset S :=
  Finset.univ.filter fun v => p.voted v t = some c

/-- The servers that have held the first `n` entries of the leader of `t`. -/
def holders (p : Proto S E) (t : ℤ) (n : ℕ) : Finset S :=
  Finset.univ.filter fun s => n ≤ p.acks s t

def bump (p : Proto S E) (s : S) (t : ℤ) : Proto S E :=
  { p with term := Function.update p.term s t }

def campaign (p : Proto S E) (s : S) : Proto S E :=
  { p with
    term := Function.update p.term s (p.term s + 1)
    voted := Function.update p.voted s
      (Function.update (p.voted s) (p.term s + 1) (some s))
    cand := Function.update p.cand (p.term s + 1)
      (Function.update (p.cand (p.term s + 1)) s (some (p.log s))) }

def grant (p : Proto S E) (s c : S) : Proto S E :=
  { p with
    voted := Function.update p.voted s (Function.update (p.voted s) (p.term s) (some c)) }

def elect (p : Proto S E) (c : S) (e : E) : Proto S E :=
  { p with
    lead := Function.update p.lead (p.term c) (some c)
    base := Function.update p.base (p.term c) (p.log c)
    quorum := Function.update p.quorum (p.term c) (p.voters (p.term c) c)
    llog := Function.update p.llog (p.term c) (p.log c ++ [e])
    log := Function.update p.log c (p.log c ++ [e]) }

def append (p : Proto S E) (c : S) (e : E) : Proto S E :=
  { p with
    llog := Function.update p.llog (p.term c) (p.llog (p.term c) ++ [e])
    log := Function.update p.log c (p.log c ++ [e]) }

noncomputable def accept (p : Proto S E) (s : S) (n : ℕ) : Proto S E :=
  { p with log := Function.update p.log s (merge (p.log s) (p.llog (p.term s)) n) }

def adopt (p : Proto S E) (s : S) (P : List E) : Proto S E :=
  { p with log := Function.update p.log s P }

def ack (p : Proto S E) (s : S) (n : ℕ) : Proto S E :=
  { p with
    acks := Function.update p.acks s
      (Function.update (p.acks s) (p.term s) (max (p.acks s (p.term s)) n)) }

def commit (p : Proto S E) (t : ℤ) (n : ℕ) : Proto S E :=
  { p with clevel := Function.update p.clevel t (max (p.clevel t) n) }

/-- What the servers can do. -/
inductive Step (tm : E → ℤ) (p : Proto S E) : Proto S E → Prop
  /-- A server moves on to a later term. -/
  | bump (s : S) (t : ℤ) (ht : p.term s < t) : Step tm p (p.bump s t)
  /-- A server stands for election in the next term and votes for itself. -/
  | campaign (s : S) : Step tm p (p.campaign s)
  /-- A server gives its vote of the current term to a candidate whose log is
  at least as up to date as its own. -/
  | grant (s c : S) (L : List E) (hnone : p.voted s (p.term s) = none)
      (hcand : p.cand (p.term s) c = some L) (hup : UpToDate tm L (p.log s)) :
      Step tm p (p.grant s c)
  /-- A candidate with the votes of a majority becomes the leader and appends
  an entry of its term. -/
  | elect (c : S) (e : E) (hcand : p.cand (p.term c) c = some (p.log c))
      (hfree : p.lead (p.term c) = none) (hmaj : Majority (p.voters (p.term c) c))
      (he : tm e = p.term c) : Step tm p (p.elect c e)
  /-- A leader appends an entry of its term. -/
  | append (c : S) (e : E) (hlead : p.lead (p.term c) = some c) (he : tm e = p.term c) :
      Step tm p (p.append c e)
  /-- A server takes the beginning of the log of the leader of its term. -/
  | accept (s : S) (n : ℕ) (hlead : p.lead (p.term s) ≠ none) : Step tm p (p.accept s n)
  /-- A server replaces its log by committed entries that reach at least as
  far, or that it does not hold. -/
  | adopt (s : S) (t : ℤ) (n : ℕ) (ht : t ≤ p.term s) (hn : n ≤ p.clevel t)
      (hlen : (p.log s).length ≤ n ∨ ¬ (p.llog t).take n <+: p.log s) :
      Step tm p (p.adopt s ((p.llog t).take n))
  /-- A server is seen to hold the beginning of the log of the leader of its
  term. -/
  | ack (s : S) (n : ℕ) (hn : n ≤ (p.llog (p.term s)).length)
      (hheld : (p.llog (p.term s)).take n <+: p.log s) : Step tm p (p.ack s n)
  /-- A leader commits up to an entry of its own term that a majority of the
  servers has held. -/
  | commit (t : ℤ) (n : ℕ) (e : E) (he : (p.llog t)[n]? = some e) (hterm : tm e = t)
      (hmaj : Majority (p.holders t (n + 1))) : Step tm p (p.commit t (n + 1))

structure Inv (tm : E → ℤ) (p : Proto S E) : Prop where
  voted_le : ∀ s t c, p.voted s t = some c → t ≤ p.term s
  voted_cand : ∀ s t c, p.voted s t = some c → ∃ L, p.cand t c = some L
  cand_le : ∀ t c L, p.cand t c = some L → t ≤ p.term c
  cand_lt : ∀ t c L, p.cand t c = some L → ∀ e ∈ L, tm e < t
  cand_matched : ∀ t c L, p.cand t c = some L → p.Matched tm L
  lead_quorum : ∀ t c, p.lead t = some c →
    Majority (p.quorum t) ∧ ∀ v ∈ p.quorum t, p.voted v t = some c
  lead_none : ∀ t, p.lead t = none → p.llog t = []
  lead_cand : ∀ t c, p.lead t = some c → p.cand t c = some (p.base t)
  lead_llog : ∀ t c, p.lead t = some c →
    ∃ X, X ≠ [] ∧ p.llog t = p.base t ++ X ∧ ∀ e ∈ X, tm e = t
  llog_matched : ∀ t, p.Matched tm (p.llog t)
  leader_log : ∀ t c, p.lead t = some c → p.term c = t → p.log c = p.llog t
  log_le : ∀ s, ∀ e ∈ p.log s, tm e ≤ p.term s
  log_matched : ∀ s, p.Matched tm (p.log s)
  acks_le : ∀ s t, p.acks s t ≤ (p.llog t).length
  acks_term : ∀ s t, 0 < p.acks s t → t ≤ p.term s
  /-- A server still in the term of an acknowledgement still holds what it
  acknowledged. -/
  held : ∀ s, (p.llog (p.term s)).take (p.acks s (p.term s)) <+: p.log s
  /-- Later it loses it only to a leader elected without it. -/
  kept : ∀ s t n, n ≤ p.acks s t → p.Own tm t n →
    (p.llog t).take n <+: p.log s ∨ ∃ u ≤ p.term s, p.Bad t n u
  /-- A vote that counted was given by a server that still held what it had
  acknowledged, to a candidate that held it too, unless an earlier leader had
  been elected without it. -/
  vote_kept : ∀ s c t' L, p.voted s t' = some c → (p.lead t' = none ∨ s ∈ p.quorum t') →
    p.cand t' c = some L → ∀ t n, t < t' → n ≤ p.acks s t → p.Own tm t n →
    (p.llog t).take n <+: L ∨ ∃ u < t', p.Bad t n u
  clevel_own : ∀ t, 0 < p.clevel t → p.Own tm t (p.clevel t)
  clevel_holders : ∀ t, 0 < p.clevel t → Majority (p.holders t (p.clevel t))

end Proto

end RaftLock.Consensus

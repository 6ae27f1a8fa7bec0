import RaftLock.Raft.Cluster
import RaftLock.Raft.Sections

/-!
Answers of two followers, in either order.

An answer does two things on a leader. It moves the row of the follower that
gives it (next index, match index, request id), which depends on nothing but
that row and the ends of the log. And it may add to the counter of one entry
and with that move the commit index. Rows of two followers have nothing to do
with each other, so what is left is that two additions commute: whichever
comes second, an entry below the new commit index is not counted any more,
and the turns of the commit loop add up.

An entry outside the `log` array ends the process. It does in both orders:
a commit that would save the first answer from counting there has counted
further out itself.
-/

namespace RaftLock

open Outcome

namespace Commuting

/-- The calls of the commit handler among the effects: an entry of a leader is
passed over. -/
def calls (es : List Effect) : List (List TransactionEntry) :=
  es.filterMap fun
    | .commit _ e => if e.type = .leaderLog then none else some e.data
    | _ => none

/-- The states differ in the log at most, and in the log in counters of
committed entries only. -/
structure SameButCounters (r r' : RaftState) : Prop where
  rest : r' = { r with log := r'.log }
  core : ∀ k, (r'.log k).core = (r.log k).core
  above : ∀ k : ℕ, r.commitIndex < r.startLogIndex + k → r'.log k = r.log k

/-! ### The row of the follower -/

/-- What the leader keeps about a follower. -/
structure Row where
  next : ℤ
  matched : ℤ
  requestId : ℤ

def rowOf (r : RaftState) (id : ℤ) : Row := ⟨r.nextIndex id, r.matchIndex id, r.lastRequestId id⟩

/-- The row after an answer, if the log is `start .. count`. -/
def Row.after (row : Row) (start count : ℤ) (a : Response) : Row :=
  if a.requestId ≠ row.requestId then row
  else if row.next < start then { row with requestId := row.requestId + 1 }
  else if a.success = 0 then { row with next := row.next - 1, requestId := row.requestId + 1 }
  else if row.next < count then ⟨row.next + 1, row.next, row.requestId + 1⟩
  else { row with requestId := row.requestId + 1 }

def setRow (r : RaftState) (id : ℤ) (row : Row) : RaftState :=
  { r with
    nextIndex := Function.update r.nextIndex id row.next
    matchIndex := Function.update r.matchIndex id row.matched
    lastRequestId := Function.update r.lastRequestId id row.requestId }

/-- The leader with the answer entered in the row of its sender. -/
def acked (r : RaftState) (a : Response) : RaftState :=
  setRow (noted r a) a.id ((rowOf r a.id).after r.startLogIndex r.logCount a)

theorem rowOf_acked {r : RaftState} {a : Response} {id : ℤ} (hid : id ≠ a.id) :
    rowOf (acked r a) id = rowOf r id := by
  simp [rowOf, acked, setRow, noted, hid]

/-- Rows of two followers. -/
theorem acked_comm {r : RaftState} {a b : Response} (hid : a.id ≠ b.id) :
    acked (acked r a) b = acked (acked r b) a := by
  have hb := rowOf_acked (r := r) (a := a) hid.symm
  have ha := rowOf_acked (r := r) (a := b) hid
  have hends : ∀ c : Response, (acked r c).startLogIndex = r.startLogIndex ∧
      (acked r c).logCount = r.logCount := fun _ => ⟨rfl, rfl⟩
  unfold acked at hb ha ⊢
  rw [hb, ha]
  simp only [setRow, noted]
  rw [Function.update_comm hid, Function.update_comm hid, Function.update_comm hid,
    Function.update_comm hid]

/-! ### The counter of the entry -/

/-- The entry an answer may be counted for. -/
def answeredIndex (r : RaftState) (a : Response) : Option ℤ :=
  if a.requestId = r.lastRequestId a.id ∧ r.startLogIndex ≤ r.nextIndex a.id ∧ a.success ≠ 0 ∧
      r.nextIndex a.id < r.logCount then some (r.nextIndex a.id)
  else none

/-- It is counted: not committed yet, and of the leader's term. -/
def CountsAt (r : RaftState) (i : ℤ) : Prop :=
  i > r.commitIndex ∧ getLogTerm r i = r.currentTerm

instance (r : RaftState) (i : ℤ) : Decidable (CountsAt r i) := inferInstanceAs (Decidable (_ ∧ _))

def tallied (r : RaftState) (i : ℤ) : RaftState :=
  if CountsAt r i then { counted r i with commitIndex := countTarget r i } else r

/-- The turns of the commit loop that the count brings about. -/
def talliedTurns (r : RaftState) (i : ℤ) : List (ℤ × LogEntry) :=
  if CountsAt r i then commitTurns (counted r i) (countTarget r i) else []

theorem tallied_noted (r : RaftState) (a : Response) (i : ℤ) :
    tallied (noted r a) i = noted (tallied r i) a := by
  by_cases hc : CountsAt r i
  · have hc' : CountsAt (noted r a) i := hc
    rw [tallied, tallied, if_pos hc, if_pos hc']
    rfl
  · have hc' : ¬ CountsAt (noted r a) i := hc
    rw [tallied, tallied, if_neg hc, if_neg hc']

theorem ends_tallied (r : RaftState) (i : ℤ) :
    (tallied r i).startLogIndex = r.startLogIndex ∧ (tallied r i).logCount = r.logCount := by
  unfold tallied
  split_ifs <;> exact ⟨rfl, rfl⟩

theorem rowOf_tallied (r : RaftState) (i id : ℤ) : rowOf (tallied r i) id = rowOf r id := by
  unfold tallied
  split_ifs <;> rfl

theorem countReplica_eq {r : RaftState} {i : ℤ} (hcommit : r.startLogIndex ≤ r.commitIndex + 1)
    (hhi : i < r.logCount) :
    (CountsAt r i ∧ (logSize : ℤ) ≤ i - r.startLogIndex ∧ (countReplica r i).fault = true) ∨
    (¬ (CountsAt r i ∧ (logSize : ℤ) ≤ i - r.startLogIndex) ∧
      countReplica r i = emit (tallied r i) ((talliedTurns r i).map Effect.ofTurn)) := by
  by_cases hc : CountsAt r i
  · by_cases hroom : i - r.startLogIndex < (logSize : ℤ)
    · obtain ⟨-, -, heq⟩ := countReplica_ok hc.1 hc.2 (countReplica_fault hcommit hhi hroom)
      refine Or.inr ⟨fun h => absurd h.2 (not_le.mpr hroom), ?_⟩
      rw [heq, tallied, talliedTurns, if_pos hc, if_pos hc]
    · refine Or.inl ⟨hc, not_lt.mp hroom, ?_⟩
      by_contra hf
      rw [Bool.not_eq_true] at hf
      exact hroom (countReplica_ok hc.1 hc.2 hf).1
  · refine Or.inr ⟨fun h => hc h.1, ?_⟩
    have hskip : countReplica r i = ret r := if_neg hc
    rw [hskip, tallied, talliedTurns, if_neg hc, if_neg hc]
    rfl

/-! ### One answer -/

/-- The leader once the answer has been counted. -/
def tally (r : RaftState) (a : Response) : RaftState := (answeredIndex r a).elim r (tallied r)

def tallyTurns (r : RaftState) (a : Response) : List (ℤ × LogEntry) :=
  (answeredIndex r a).elim [] (talliedTurns r)

/-- The answer makes the leader count outside the array. -/
def Overruns (r : RaftState) (a : Response) : Prop :=
  ∃ i ∈ answeredIndex r a, CountsAt r i ∧ (logSize : ℤ) ≤ i - r.startLogIndex

/-- A log that fits the array is not left. -/
theorem not_overruns (h : r.logCount - r.startLogIndex ≤ (logSize : ℤ)) (a : Response) :
    ¬ Overruns r a := by
  rintro ⟨i, hi, -, hout⟩
  unfold answeredIndex at hi
  split_ifs at hi with hcount
  · obtain ⟨-, -, -, hlt⟩ := hcount
    rw [Option.mem_some_iff] at hi
    omega
  · exact absurd hi (by simp)

theorem calls_append (es es' : List Effect) : calls (es ++ es') = calls es ++ calls es' :=
  List.filterMap_append

/-- An answer of the leader's term on a leader. -/
theorem handleResponse_leader {r : RaftState} {a : Response} (hstate : r.state = .leader)
    (hterm : a.term = r.currentTerm) (hcommit : r.startLogIndex ≤ r.commitIndex + 1) :
    (Overruns r a ∧ (handleResponse r a).fault = true) ∨
    (¬ Overruns r a ∧ (handleResponse r a).fault = false ∧
      (handleResponse r a).raft = acked (tally r a) a ∧
      calls (handleResponse r a).effects = calls ((tallyTurns r a).map Effect.ofTurn)) := by
  have hleader : (noted r a).state = .leader := hstate
  -- an answer that is not counted
  have plain : ∀ o : Outcome, answeredIndex r a = none → o.fault = false →
      o.raft = acked r a → calls o.effects = [] →
      ¬ Overruns r a ∧ o.fault = false ∧ o.raft = acked (tally r a) a ∧
        calls o.effects = calls ((tallyTurns r a).map Effect.ofTurn) := by
    intro o hnone hf hr hcalls
    refine ⟨?_, hf, ?_, ?_⟩
    · rintro ⟨i, hi, -⟩
      rw [hnone] at hi
      exact absurd hi (by simp)
    · rw [hr, tally, hnone]
      rfl
    · rw [hcalls, tallyTurns, hnone]
      rfl
  rw [handleResponse_eq hterm, hleader]
  simp only
  by_cases hid : a.requestId = r.lastRequestId a.id
  swap
  · have hskip : ¬ a.requestId = (noted r a).lastRequestId a.id := hid
    rw [if_neg hskip]
    refine Or.inr (plain _ (if_neg fun h => hid h.1) rfl ?_ rfl)
    simp [ret, acked, setRow, Row.after, rowOf, noted, hid]
  have hopen : a.requestId = (noted r a).lastRequestId a.id := hid
  rw [if_pos hopen]
  by_cases hlow : r.nextIndex a.id < r.startLogIndex
  · have hinstall : (noted r a).nextIndex a.id < (noted r a).startLogIndex := hlow
    rw [if_pos hinstall]
    refine Or.inr (plain _ (if_neg fun h => absurd h.2.1 (not_le.mpr hlow)) rfl ?_ rfl)
    simp [handleInstallResponse, saveState, emit, acked, setRow, Row.after, rowOf, noted, hid,
      hlow]
  have happend : ¬ (noted r a).nextIndex a.id < (noted r a).startLogIndex := hlow
  rw [if_neg happend]
  unfold handleAppendResponse
  by_cases hs : a.success = 0
  · rw [if_pos hs, andThen_ret]
    refine Or.inr (plain _ (if_neg fun h => h.2.2.1 hs) rfl ?_ rfl)
    simp [saveState, emit, acked, setRow, Row.after, rowOf, noted, hid, hlow, hs]
  rw [if_neg hs]
  by_cases hlt : r.nextIndex a.id < r.logCount
  swap
  · have hend : ¬ (noted r a).nextIndex a.id < (noted r a).logCount := hlt
    rw [if_neg hend, andThen_ret]
    refine Or.inr (plain _ (if_neg fun h => hlt h.2.2.2) rfl ?_ rfl)
    simp [saveState, emit, acked, setRow, Row.after, rowOf, noted, hid, hlow, hs, hlt]
  have hmore : (noted r a).nextIndex a.id < (noted r a).logCount := hlt
  have hindex : answeredIndex r a = some (r.nextIndex a.id) :=
    if_pos ⟨hid, not_lt.mp hlow, hs, hlt⟩
  rw [if_pos hmore]
  rcases countReplica_eq (r := noted r a) (i := r.nextIndex a.id) hcommit hlt with
    ⟨hc, hout, hf⟩ | ⟨hin, heq⟩
  · refine Or.inl ⟨⟨_, hindex, hc, hout⟩, ?_⟩
    have hf : (countReplica (noted r a) ((noted r a).nextIndex a.id)).fault = true := hf
    simp [Outcome.andThen, hf]
  · refine Or.inr ⟨?_, ?_⟩
    · rintro ⟨i, hi, hi'⟩
      rw [hindex, Option.mem_some_iff] at hi
      subst hi
      exact hin hi'
    have heq : countReplica (noted r a) ((noted r a).nextIndex a.id) =
        emit (noted (tallied r (r.nextIndex a.id)) a)
          ((talliedTurns r (r.nextIndex a.id)).map Effect.ofTurn) := by
      rw [← tallied_noted]
      exact heq
    have hrow := rowOf_tallied r (r.nextIndex a.id) a.id
    have hends := ends_tallied r (r.nextIndex a.id)
    rw [heq, tally, tallyTurns, hindex, Option.elim_some, Option.elim_some, andThen_emit, acked,
      hrow, hends.1, hends.2]
    simp only [ret, List.append_nil, Outcome.andThen, saveState, emit, Bool.false_eq_true, if_false]
    refine ⟨trivial, ?_, ?_⟩
    · simp only [rowOf, Row.mk.injEq] at hrow
      simp [setRow, Row.after, rowOf, noted, hid, hlow, hs, hlt, hrow]
    · rw [calls_append]
      exact List.append_nil _

/-! ### Two counts -/

section Tallies

variable {r : RaftState} {i j : ℤ}

theorem SameButCounters.refl (r : RaftState) : SameButCounters r r :=
  ⟨rfl, fun _ => rfl, fun _ _ => rfl⟩

theorem SameButCounters.symm {r r' : RaftState} (h : SameButCounters r r') :
    SameButCounters r' r := by
  obtain ⟨hrest, hcore, habove⟩ := h
  have hcommit : r'.commitIndex = r.commitIndex := by rw [hrest]
  have hstart : r'.startLogIndex = r.startLogIndex := by rw [hrest]
  refine ⟨?_, fun k => (hcore k).symm, fun k hk => (habove k ?_).symm⟩
  · rw [hrest]
  · rwa [← hcommit, ← hstart]

theorem le_tallied (r : RaftState) (i : ℤ) : r.commitIndex ≤ (tallied r i).commitIndex := by
  unfold tallied
  split_ifs with hc
  · show r.commitIndex ≤ countTarget r i
    have := hc.1
    unfold countTarget
    split_ifs <;> omega
  · exact le_rfl

theorem tallied_le (h : CountsAt r i) : (tallied r i).commitIndex ≤ i := by
  rw [tallied, if_pos h]
  show countTarget r i ≤ i
  have := h.1
  unfold countTarget
  split_ifs <;> omega

theorem term_counted (r : RaftState) (i n : ℤ) :
    getLogTerm (counted r i) n = getLogTerm r n := by
  unfold getLogTerm counted
  simp only
  split_ifs
  · rfl
  · rcases eq_or_ne (n - r.startLogIndex).toNat (i - r.startLogIndex).toNat with hslot | hslot
    · rw [hslot, Function.update_self]
    · rw [Function.update_of_ne hslot]

theorem term_tallied (r : RaftState) (i n : ℤ) :
    getLogTerm (tallied r i) n = getLogTerm r n ∧ (tallied r i).currentTerm = r.currentTerm := by
  unfold tallied
  split_ifs
  · exact ⟨term_counted r i n, rfl⟩
  · exact ⟨rfl, rfl⟩

theorem counts_tallied_iff :
    CountsAt (tallied r i) j ↔ (tallied r i).commitIndex < j ∧ getLogTerm r j = r.currentTerm := by
  unfold CountsAt
  rw [(term_tallied r i j).1, (term_tallied r i j).2]

/-- What is not counted now is not counted after another count. -/
theorem not_counts_tallied (h : ¬ CountsAt r j) (i : ℤ) : ¬ CountsAt (tallied r i) j := by
  rw [counts_tallied_iff]
  exact fun hc => h ⟨lt_of_le_of_lt (le_tallied r i) hc.1, hc.2⟩

/-- A count leaves the counters of the other entries alone. -/
theorem countTarget_tallied
    (hslot : (j - r.startLogIndex).toNat ≠ (i - r.startLogIndex).toNat) :
    countTarget (tallied r i) j =
      if ((r.log (j - r.startLogIndex).toNat).nServersReplicated + 1) * 2 > (nServers : ℤ) then j
      else (tallied r i).commitIndex := by
  have hlog : (tallied r i).log (j - r.startLogIndex).toNat =
      r.log (j - r.startLogIndex).toNat := by
    unfold tallied
    split_ifs
    · exact Function.update_of_ne hslot ..
    · rfl
  rw [countTarget, (ends_tallied r i).1, hlog]

theorem slots_ne (hcommit : r.startLogIndex ≤ r.commitIndex + 1) (hi : CountsAt r i)
    (hij : i < j) :
    (j - r.startLogIndex).toNat ≠ (i - r.startLogIndex).toNat := by
  have := hi.1
  omega

/-- A later entry is counted after an earlier one as well. -/
theorem tallied_later (hi : CountsAt r i) (hj : CountsAt r j) (hij : i < j) :
    tallied (tallied r i) j =
      { counted (tallied r i) j with commitIndex := countTarget (tallied r i) j } :=
  if_pos (counts_tallied_iff.mpr ⟨lt_of_le_of_lt (tallied_le hi) hij, hj.2⟩)

/-- The later entry commits the earlier one, which is then not counted any more. -/
theorem tallied_comm_commits (hcommit : r.startLogIndex ≤ r.commitIndex + 1)
    (hi : CountsAt r i) (hj : CountsAt r j) (hij : i < j)
    (hmany : ((r.log (j - r.startLogIndex).toNat).nServersReplicated + 1) * 2 > (nServers : ℤ)) :
    SameButCounters (tallied (tallied r i) j) (tallied (tallied r j) i) := by
  have hslot := slots_ne hcommit hi hij
  have hri : tallied r i = { counted r i with commitIndex := countTarget r i } := if_pos hi
  have hrj : tallied r j = { counted r j with commitIndex := countTarget r j } := if_pos hj
  have hlast : tallied (tallied r j) i = tallied r j := by
    refine if_neg fun hc => ?_
    have hlt := (counts_tallied_iff.mp hc).1
    rw [hrj] at hlt
    have hj' : countTarget r j = j := if_pos hmany
    have : countTarget r j < i := hlt
    omega
  have hleft : countTarget (tallied r i) j = j := by
    rw [countTarget_tallied hslot, if_pos hmany]
  have hright : countTarget r j = j := if_pos hmany
  rw [tallied_later hi hj hij, hlast, hleft, hri, hrj, hright]
  refine ⟨rfl, fun k => ?_, fun k hk => ?_⟩
  · simp only [counted]
    rcases eq_or_ne k (j - r.startLogIndex).toNat with rfl | hkj
    · rw [Function.update_self, Function.update_self]
      rw [Function.update_of_ne hslot]
    · rw [Function.update_of_ne hkj, Function.update_of_ne hkj]
      rcases eq_or_ne k (i - r.startLogIndex).toNat with rfl | hki
      · rw [Function.update_self]
        rfl
      · rw [Function.update_of_ne hki]
  · have hlt : j < r.startLogIndex + k := hk
    simp only [counted]
    rw [Function.update_of_ne (by omega), Function.update_of_ne (by omega),
      Function.update_of_ne (by omega)]

/-- The later entry commits nothing, so the two counters are raised in either order. -/
theorem tallied_comm_counts (hcommit : r.startLogIndex ≤ r.commitIndex + 1)
    (hi : CountsAt r i) (hj : CountsAt r j) (hij : i < j)
    (hfew : ¬ ((r.log (j - r.startLogIndex).toNat).nServersReplicated + 1) * 2 >
      (nServers : ℤ)) :
    SameButCounters (tallied (tallied r i) j) (tallied (tallied r j) i) := by
  have hslot := slots_ne hcommit hi hij
  have hri : tallied r i = { counted r i with commitIndex := countTarget r i } := if_pos hi
  have hrj : tallied r j = { counted r j with commitIndex := countTarget r j } := if_pos hj
  have hj' : countTarget r j = r.commitIndex := if_neg hfew
  have hlast : tallied (tallied r j) i =
      { counted (tallied r j) i with commitIndex := countTarget (tallied r j) i } := by
    refine if_pos (counts_tallied_iff.mpr ⟨?_, hi.2⟩)
    rw [hrj]
    exact hj'.trans_lt hi.1
  have hleft : countTarget (tallied r i) j = countTarget r i := by
    rw [countTarget_tallied hslot, if_neg hfew, hri]
  have hright : countTarget (tallied r j) i = countTarget r i := by
    rw [countTarget_tallied hslot.symm, hrj, hj']
    rfl
  rw [tallied_later hi hj hij, hlast, hleft, hright, hri, hrj]
  have hlog : (counted (counted r j) i).log = (counted (counted r i) j).log := by
    unfold counted
    simp only
    rw [Function.update_of_ne hslot, Function.update_of_ne hslot.symm,
      Function.update_comm hslot]
  exact ⟨rfl, fun k => congrArg LogEntry.core (congrFun hlog k), fun k _ => congrFun hlog k⟩

theorem tallied_comm_of_lt (hcommit : r.startLogIndex ≤ r.commitIndex + 1) (hij : i < j) :
    SameButCounters (tallied (tallied r i) j) (tallied (tallied r j) i) := by
  by_cases hi : CountsAt r i
  swap
  · have hleft : tallied r i = r := if_neg hi
    have hright : tallied (tallied r j) i = tallied r j := if_neg (not_counts_tallied hi j)
    rw [hleft, hright]
    exact .refl _
  by_cases hj : CountsAt r j
  swap
  · have hleft : tallied (tallied r i) j = tallied r i := if_neg (not_counts_tallied hj i)
    have hright : tallied r j = r := if_neg hj
    rw [hleft, hright]
    exact .refl _
  by_cases hmany : ((r.log (j - r.startLogIndex).toNat).nServersReplicated + 1) * 2 >
      (nServers : ℤ)
  · exact tallied_comm_commits hcommit hi hj hij hmany
  · exact tallied_comm_counts hcommit hi hj hij hmany

theorem tallied_comm (hcommit : r.startLogIndex ≤ r.commitIndex + 1) (i j : ℤ) :
    SameButCounters (tallied (tallied r i) j) (tallied (tallied r j) i) := by
  rcases lt_trichotomy i j with hij | rfl | hji
  · exact tallied_comm_of_lt hcommit hij
  · exact .refl _
  · exact (tallied_comm_of_lt hcommit hji).symm

/-! ### The calls of two counts -/

/-- What the turn of an entry hands to the commit handler. -/
def handed (e : LogEntry) : Option (List TransactionEntry) :=
  if e.type = .leaderLog then none else some e.data

/-- The calls on the way from `c` to `n`. -/
def calledBetween (r : RaftState) (c n : ℤ) : List (List TransactionEntry) :=
  (List.range (n - c).toNat).filterMap fun k : ℕ =>
    handed (((getLog r (c + 1 + k)).map LogEntry.core).getD default)

theorem calls_turns (r : RaftState) (n : ℤ) :
    calls ((commitTurns r n).map Effect.ofTurn) = calledBetween r r.commitIndex n := by
  unfold calls commitTurns calledBetween
  rw [List.map_map, List.filterMap_map]
  refine List.filterMap_congr fun k _ => ?_
  simp only [Function.comp_apply, Effect.ofTurn]
  cases getLog r (r.commitIndex + 1 + k) <;> rfl

theorem calledBetween_append (r : RaftState) {c i n : ℤ} (hci : c ≤ i) (hin : i ≤ n) :
    calledBetween r c i ++ calledBetween r i n = calledBetween r c n := by
  unfold calledBetween
  rw [show (n - c).toNat = (i - c).toNat + (n - i).toNat by omega, List.range_add,
    List.filterMap_append, List.filterMap_map]
  congr 1
  refine List.filterMap_congr fun k _ => ?_
  simp only [Function.comp_apply]
  rw [show c + 1 + (((i - c).toNat + k : ℕ) : ℤ) = i + 1 + k by push_cast; omega]

theorem core_tallied (r : RaftState) (i n : ℤ) :
    (getLog (tallied r i) n).map LogEntry.core = (getLog r n).map LogEntry.core := by
  unfold tallied
  split_ifs
  · exact core_counted r i n
  · rfl

theorem calls_tallied (r : RaftState) (i : ℤ) :
    calls ((talliedTurns r i).map Effect.ofTurn) =
      calledBetween r r.commitIndex (tallied r i).commitIndex := by
  by_cases hc : CountsAt r i
  · rw [talliedTurns, tallied, if_pos hc, if_pos hc, calls_turns]
    unfold calledBetween
    simp only [core_counted]
    rfl
  · rw [talliedTurns, tallied, if_neg hc, if_neg hc]
    unfold calledBetween
    rw [sub_self]
    rfl

/-- The calls depend on the commit index the counts lead to only. -/
theorem calls_tallied_tallied (r : RaftState) (i j : ℤ) :
    calls ((talliedTurns r i).map Effect.ofTurn) ++
        calls ((talliedTurns (tallied r i) j).map Effect.ofTurn) =
      calledBetween r r.commitIndex (tallied (tallied r i) j).commitIndex := by
  rw [calls_tallied, calls_tallied, ← calledBetween_append r (le_tallied r i)
    (le_tallied (tallied r i) j)]
  congr 1
  unfold calledBetween
  simp only [core_tallied]

end Tallies

/-! ### Two answers -/

section Answers

variable {r s s' : RaftState} {a b : Response}

theorem ends_tally (r : RaftState) (a : Response) :
    (tally r a).startLogIndex = r.startLogIndex ∧ (tally r a).logCount = r.logCount := by
  unfold tally
  cases answeredIndex r a with
  | none => exact ⟨rfl, rfl⟩
  | some i => exact ends_tallied r i

theorem rowOf_tally (r : RaftState) (a : Response) (id : ℤ) :
    rowOf (tally r a) id = rowOf r id := by
  unfold tally
  cases answeredIndex r a with
  | none => rfl
  | some i => exact rowOf_tallied r i id

theorem le_tally (r : RaftState) (a : Response) : r.commitIndex ≤ (tally r a).commitIndex := by
  unfold tally
  cases answeredIndex r a with
  | none => exact le_rfl
  | some i => exact le_tallied r i

/-- The index depends on the sender's row and the ends of the log. -/
theorem answeredIndex_congr (hstart : s.startLogIndex = r.startLogIndex)
    (hcount : s.logCount = r.logCount) (hrow : rowOf s a.id = rowOf r a.id) :
    answeredIndex s a = answeredIndex r a := by
  simp only [rowOf, Row.mk.injEq] at hrow
  rw [answeredIndex, answeredIndex, hstart, hcount, hrow.1, hrow.2.2]

theorem answeredIndex_tally (r : RaftState) (a b : Response) :
    answeredIndex (tally r a) b = answeredIndex r b :=
  answeredIndex_congr (ends_tally r a).1 (ends_tally r a).2 (rowOf_tally r a b.id)

theorem answeredIndex_acked (hid : b.id ≠ a.id) :
    answeredIndex (acked s a) b = answeredIndex s b :=
  answeredIndex_congr rfl rfl (rowOf_acked hid)

theorem tally_acked (hid : b.id ≠ a.id) : tally (acked s a) b = acked (tally s b) a := by
  unfold tally
  rw [answeredIndex_acked hid]
  cases answeredIndex s b with
  | none => rfl
  | some i =>
      show tallied (acked s a) i = acked (tallied s i) a
      by_cases hc : CountsAt s i
      · have hc' : CountsAt (acked s a) i := hc
        rw [tallied, tallied, if_pos hc, if_pos hc']
        rfl
      · have hc' : ¬ CountsAt (acked s a) i := hc
        rw [tallied, tallied, if_neg hc, if_neg hc']

theorem tallyTurns_acked (hid : b.id ≠ a.id) : tallyTurns (acked s a) b = tallyTurns s b := by
  unfold tallyTurns
  rw [answeredIndex_acked hid]
  rfl

theorem overruns_acked (hid : b.id ≠ a.id) : Overruns (acked s a) b ↔ Overruns s b := by
  unfold Overruns
  rw [answeredIndex_acked hid]
  exact Iff.rfl

/-- An answer that runs out of the array does so after another one that does
not. -/
theorem overruns_tally (ha : ¬ Overruns r a) : Overruns (tally r a) b ↔ Overruns r b := by
  unfold Overruns
  rw [answeredIndex_tally, (ends_tally r a).1]
  cases hi : answeredIndex r a with
  | none =>
      have hnone : tally r a = r := by rw [tally, hi, Option.elim_none]
      rw [hnone]
  | some i =>
      have hsome : tally r a = tallied r i := by rw [tally, hi, Option.elim_some]
      rw [hsome]
      constructor
      · rintro ⟨j, hj, hc, hout⟩
        refine ⟨j, hj, ?_, hout⟩
        by_contra hnot
        exact not_counts_tallied hnot i hc
      · rintro ⟨j, hj, hc, hout⟩
        refine ⟨j, hj, counts_tallied_iff.mpr ⟨?_, hc.2⟩, hout⟩
        by_cases hci : CountsAt r i
        · have hroom : ¬ (logSize : ℤ) ≤ i - r.startLogIndex := fun h => ha ⟨i, hi, hci, h⟩
          have := tallied_le hci
          omega
        · have hsame : tallied r i = r := if_neg hci
          rw [hsame]
          exact hc.1

theorem calls_tally_tally (r : RaftState) (a b : Response) :
    calls ((tallyTurns r a).map Effect.ofTurn) ++
        calls ((tallyTurns (tally r a) b).map Effect.ofTurn) =
      calledBetween r r.commitIndex (tally (tally r a) b).commitIndex := by
  have hnone : calledBetween r r.commitIndex r.commitIndex = [] := by
    unfold calledBetween
    rw [sub_self]
    rfl
  unfold tallyTurns
  rw [answeredIndex_tally]
  unfold tally
  rw [show answeredIndex ((answeredIndex r a).elim r (tallied r)) b = answeredIndex r b from
    answeredIndex_tally r a b]
  cases answeredIndex r a with
  | none =>
      cases answeredIndex r b with
      | none => exact hnone.symm
      | some j => exact calls_tallied r j
  | some i =>
      cases answeredIndex r b with
      | none => exact (List.append_nil _).trans (calls_tallied r i)
      | some j => exact calls_tallied_tallied r i j

theorem tally_comm (hcommit : r.startLogIndex ≤ r.commitIndex + 1) (a b : Response) :
    SameButCounters (tally (tally r a) b) (tally (tally r b) a) := by
  have hb := answeredIndex_tally r a b
  have ha := answeredIndex_tally r b a
  unfold tally at ha hb ⊢
  rw [ha, hb]
  cases answeredIndex r a with
  | none => exact .refl _
  | some i =>
      cases answeredIndex r b with
      | none => exact .refl _
      | some j => exact tallied_comm hcommit i j

theorem SameButCounters.acked (h : SameButCounters s s') (a : Response) :
    SameButCounters (acked s a) (acked s' a) := by
  obtain ⟨hrest, hcore, habove⟩ := h
  refine ⟨?_, hcore, habove⟩
  rw [hrest]
  rfl

/-- Two answers of the leader's term, one after the other. -/
theorem handleResponse_both (hstate : r.state = .leader) (ha : a.term = r.currentTerm)
    (hb : b.term = r.currentTerm) (hcommit : r.startLogIndex ≤ r.commitIndex + 1)
    (hid : a.id ≠ b.id) :
    ((Overruns r a ∨ Overruns r b) ∧
      ((handleResponse r a).andThen fun r => handleResponse r b).fault = true) ∨
    (¬ (Overruns r a ∨ Overruns r b) ∧
      ((handleResponse r a).andThen fun r => handleResponse r b).fault = false ∧
      ((handleResponse r a).andThen fun r => handleResponse r b).raft =
        Commuting.acked (Commuting.acked (tally (tally r a) b) a) b ∧
      calls ((handleResponse r a).andThen fun r => handleResponse r b).effects =
        calledBetween r r.commitIndex (tally (tally r a) b).commitIndex) := by
  rcases handleResponse_leader hstate ha hcommit with ⟨hover, hf⟩ | ⟨hover, hf, hr, hcalls⟩
  · exact Or.inl ⟨Or.inl hover, by simp [Outcome.andThen, hf]⟩
  have hkeeps : (tally r a).state = r.state ∧ (tally r a).currentTerm = r.currentTerm := by
    unfold tally
    cases answeredIndex r a with
    | none => exact ⟨rfl, rfl⟩
    | some i =>
        show (tallied r i).state = _ ∧ (tallied r i).currentTerm = _
        unfold tallied
        split_ifs <;> exact ⟨rfl, rfl⟩
  have hle := le_tally r a
  have hstart := (ends_tally r a).1
  simp only [Outcome.andThen, hf, Bool.false_eq_true, if_false, calls_append, hcalls]
  rw [hr]
  rcases handleResponse_leader (r := Commuting.acked (tally r a) a) (a := b)
    (hkeeps.1.trans hstate) (hb.trans hkeeps.2.symm)
    (show (tally r a).startLogIndex ≤ (tally r a).commitIndex + 1 by omega) with
    ⟨hover', hf'⟩ | ⟨hover', hf', hr', hcalls'⟩
  · rw [overruns_acked hid.symm, overruns_tally hover] at hover'
    exact Or.inl ⟨Or.inr hover', hf'⟩
  · rw [overruns_acked hid.symm, overruns_tally hover] at hover'
    refine Or.inr ⟨fun h => h.elim hover hover', hf', ?_, ?_⟩
    · rw [hr', tally_acked hid.symm]
    · rw [hcalls', tallyTurns_acked hid.symm, calls_tally_tally]

end Answers

end Commuting

open Commuting in
/-- Two answers of followers that are not the same, on a leader, of its term:
in either order the process ends or neither, and if not, the leader is left in
the same state, up to counters of committed entries, after the same calls of
the commit handler. It does not end when the log fits its array. -/
theorem answers_commute (r : RaftState) (a b : Response) (hstate : r.state = .leader)
    (hcommit : r.startLogIndex - 1 ≤ r.commitIndex) (ha : a.term = r.currentTerm)
    (hb : b.term = r.currentTerm) (hid : a.id ≠ b.id) :
    ((handleResponse r a).andThen fun r => handleResponse r b).fault =
      ((handleResponse r b).andThen fun r => handleResponse r a).fault ∧
    (((handleResponse r a).andThen fun r => handleResponse r b).fault = false →
      SameButCounters ((handleResponse r a).andThen fun r => handleResponse r b).raft
        ((handleResponse r b).andThen fun r => handleResponse r a).raft ∧
      calls ((handleResponse r a).andThen fun r => handleResponse r b).effects =
        calls ((handleResponse r b).andThen fun r => handleResponse r a).effects) ∧
    (r.logCount - r.startLogIndex ≤ (logSize : ℤ) →
      ((handleResponse r a).andThen fun r => handleResponse r b).fault = false) := by
  have hcommit : r.startLogIndex ≤ r.commitIndex + 1 := by omega
  rcases handleResponse_both hstate ha hb hcommit hid with
    ⟨hover, hf⟩ | ⟨hover, hf, hr, hcalls⟩
  · rcases handleResponse_both hstate hb ha hcommit hid.symm with ⟨-, hf'⟩ | ⟨hover', -⟩
    · refine ⟨hf.trans hf'.symm, fun h => ?_, fun hfits => ?_⟩
      · rw [hf] at h
        exact absurd h (by decide)
      · exact (hover.elim (not_overruns hfits a) (not_overruns hfits b)).elim
    · exact absurd hover.symm hover'
  · rcases handleResponse_both hstate hb ha hcommit hid.symm with
      ⟨hover', -⟩ | ⟨-, hf', hr', hcalls'⟩
    · exact absurd hover'.symm hover
    · have hsame := tally_comm hcommit a b
      refine ⟨hf.trans hf'.symm, fun _ => ⟨?_, ?_⟩, fun _ => hf⟩
      · rw [hr, hr', acked_comm hid]
        exact (hsame.acked b).acked a
      · have hlast : (tally (tally r b) a).commitIndex = (tally (tally r a) b).commitIndex := by
          rw [hsame.rest]
        rw [hcalls, hcalls', hlast]

/-- A leader of five servers whose two followers `1` and `2` have been asked
about its two entries; the first one needs one more answer. -/
def twoOpen : RaftState :=
  { serverInit plainConfig 0 with
    currentTerm := 1
    state := .leader
    log := fun k => { (default : LogEntry) with
      term := 1, nServersReplicated := if k = 0 then 2 else 1 }
    logCount := 2
    nextIndex := fun i => if i = 1 then 0 else 1 }

open Commuting in
/-- The first answer commits the first entry, the second one does not: the
commit index goes from `-1` to `0`, and each follower's next index up by one. -/
theorem twoOpen_commute :
    ∃ r₁ r₂, ((handleResponse twoOpen ⟨1, 1, 1, 0⟩).andThen
        fun r => handleResponse r ⟨2, 1, 1, 0⟩).raft = r₁ ∧
      ((handleResponse twoOpen ⟨2, 1, 1, 0⟩).andThen
        fun r => handleResponse r ⟨1, 1, 1, 0⟩).raft = r₂ ∧
      ((handleResponse twoOpen ⟨1, 1, 1, 0⟩).andThen
        fun r => handleResponse r ⟨2, 1, 1, 0⟩).fault = false ∧
      SameButCounters r₁ r₂ ∧
      calls ((handleResponse twoOpen ⟨1, 1, 1, 0⟩).andThen
          fun r => handleResponse r ⟨2, 1, 1, 0⟩).effects =
        calls ((handleResponse twoOpen ⟨2, 1, 1, 0⟩).andThen
          fun r => handleResponse r ⟨1, 1, 1, 0⟩).effects ∧
      (twoOpen.commitIndex, twoOpen.nextIndex 1, twoOpen.nextIndex 2) = (-1, 0, 1) ∧
      (r₁.commitIndex, r₁.nextIndex 1, r₁.nextIndex 2) = (0, 1, 2) ∧
      (r₂.commitIndex, r₂.nextIndex 1, r₂.nextIndex 2) = (0, 1, 2) := by
  obtain ⟨-, hsame, hfits⟩ :=
    answers_commute twoOpen ⟨1, 1, 1, 0⟩ ⟨2, 1, 1, 0⟩ rfl (by decide) rfl rfl (by decide)
  have hf := hfits (by decide)
  obtain ⟨hstates, hcalls⟩ := hsame hf
  exact ⟨_, _, rfl, rfl, hf, hstates, hcalls, by decide, by decide, by decide⟩

end RaftLock

import Mathlib.Algebra.BigOperators.Ring.Finset
import Mathlib.Algebra.Group.Action.Defs
import Mathlib.Algebra.Order.BigOperators.Ring.Finset
import Mathlib.Data.Nat.Log
import RaftLock.Raft.Handlers

/-!
`Raft_print_state`, which a server runs when it wins an election.

The string is built in an array of 1024 characters, and nothing checks that it
fits. How long it gets depends on the number of retained entries and on how
many digits their indices and terms have.
-/

namespace RaftLock

/-- `sizeof(state_str)`. -/
abbrev stateStrSize : ℕ := 1024

/-- What one turn of the loop appends: the entry in slot `i` of the log. -/
def printEntry (raft : RaftState) (i : ℕ) : String :=
  (match (raft.log i).type with
    | .leaderLog => "l"
    | .clientLog => "") ++
  toString (i + raft.startLogIndex) ++ "(" ++ toString (raft.log i).term ++ ")" ++
  (if i + raft.startLogIndex ≤ raft.commitIndex then "c" else "") ++
  (if i < raft.logCount - raft.startLogIndex - 1 then ", " else "")

/-- `Raft_print_state`: the string `state_str` comes to hold. -/
def printState (raft : RaftState) : String :=
  (List.range (raft.logCount - raft.startLogIndex).toNat).foldl
    (fun str i => str ++ printEntry raft i)
    (toString raft.id ++ "(" ++ toString raft.currentTerm ++ ")\t" ++
      toString raft.startLogIndex ++ "[") ++ "]\n"

/-- The number of characters of `"%i"`. -/
def decimalWidth (x : ℤ) : ℕ := (if x < 0 then 1 else 0) + Nat.log 10 x.natAbs + 1

/-- The number of characters of an entry without the comma behind it. -/
def entryWidth (raft : RaftState) (i : ℕ) : ℕ :=
  (match (raft.log i).type with
    | .leaderLog => 1
    | .clientLog => 0) +
  decimalWidth (i + raft.startLogIndex) + decimalWidth (raft.log i).term + 2 +
  (if i + raft.startLogIndex ≤ raft.commitIndex then 1 else 0)

theorem length_repr (n : ℕ) : n.repr.length = Nat.log 10 n + 1 := by
  refine le_antisymm ?_ ?_
  · exact (Nat.length_repr_le_iff (Nat.succ_pos _)).mpr (Nat.lt_pow_succ_log_self (by decide) n)
  · by_contra hlt
    have hshort : n.repr.length ≤ Nat.log 10 n := by omega
    have hpos : 0 < n.repr.length := Nat.length_repr_pos
    have hn := (Nat.length_repr_le_iff (by omega)).mp hshort
    exact absurd (Nat.log_lt_of_lt_pow' (by omega) hn) (lt_irrefl _)

theorem length_decimal (x : ℤ) : (toString x).length = decimalWidth x := by
  unfold decimalWidth
  cases x with
  | ofNat n =>
      rw [if_neg (by simp), zero_add]
      exact length_repr n
  | negSucc n =>
      rw [if_pos (Int.negSucc_lt_zero n), Int.natAbs_negSucc]
      show ("-" ++ (n + 1).repr).length = _
      rw [String.length_append, length_repr, show "-".length = 1 from rfl, Nat.succ_eq_add_one]
      omega

theorem length_printEntry (raft : RaftState) (i : ℕ) :
    (printEntry raft i).length = entryWidth raft i +
      if i < raft.logCount - raft.startLogIndex - 1 then 2 else 0 := by
  unfold printEntry entryWidth
  simp only [String.length_append, length_decimal, apply_ite String.length]
  cases (raft.log i).type <;> simp only [show "".length = 0 from rfl, show "l".length = 1 from rfl,
    show "c".length = 1 from rfl, show ", ".length = 2 from rfl, show "(".length = 1 from rfl,
    show ")".length = 1 from rfl] <;> omega

theorem length_foldl_append (f : ℕ → String) (str : String) (n : ℕ) :
    ((List.range n).foldl (fun str i => str ++ f i) str).length =
      str.length + ∑ i ∈ Finset.range n, (f i).length := by
  induction n with
  | zero => rfl
  | succ n ih =>
      rw [List.range_succ, List.foldl_append, Finset.sum_range_succ, ← add_assoc, ← ih]
      exact String.length_append _ _

/-- There is a comma between any two entries. -/
theorem sum_commas (n : ℕ) :
    (∑ i ∈ Finset.range n, if (i : ℤ) < n - 1 then 2 else 0) = 2 * (n - 1) := by
  cases n with
  | zero => rfl
  | succ n =>
      have hcomma : ∀ i ∈ Finset.range n, (if (i : ℤ) < (n + 1 : ℕ) - 1 then 2 else 0) = 2 := by
        intro i hi
        rw [Finset.mem_range] at hi
        exact if_pos (by omega)
      rw [Finset.sum_range_succ, Finset.sum_congr rfl hcomma, if_neg (by omega)]
      simp only [Finset.sum_const, Finset.card_range, smul_eq_mul]
      omega

theorem length_printState (raft : RaftState) :
    (printState raft).length =
      decimalWidth raft.id + decimalWidth raft.currentTerm + decimalWidth raft.startLogIndex + 6 +
      ∑ i ∈ Finset.range (raft.logCount - raft.startLogIndex).toNat, entryWidth raft i +
      2 * ((raft.logCount - raft.startLogIndex).toNat - 1) := by
  unfold printState
  rw [String.length_append, length_foldl_append]
  simp only [String.length_append, length_decimal, length_printEntry, Finset.sum_add_distrib]
  have hcommas : (∑ i ∈ Finset.range (raft.logCount - raft.startLogIndex).toNat,
      if (i : ℤ) < raft.logCount - raft.startLogIndex - 1 then 2 else 0) =
      2 * ((raft.logCount - raft.startLogIndex).toNat - 1) := by
    rw [← sum_commas]
    refine Finset.sum_congr rfl fun i hi => ?_
    rw [Finset.mem_range] at hi
    rw [Int.toNat_of_nonneg (by omega)]
  rw [hcommas, show "(".length = 1 from rfl, show ")\t".length = 2 from rfl,
    show "[".length = 1 from rfl, show "]\n".length = 2 from rfl]
  omega

/-- For every state, the string fits into its array when the digits of the
indices and terms it shows, with the marks and the commas, leave room for the
final NUL. -/
theorem dump_fits_iff (raft : RaftState) :
    (printState raft).length < stateStrSize ↔
      decimalWidth raft.id + decimalWidth raft.currentTerm + decimalWidth raft.startLogIndex + 6 +
      ∑ i ∈ Finset.range (raft.logCount - raft.startLogIndex).toNat, entryWidth raft i +
      2 * ((raft.logCount - raft.startLogIndex).toNat - 1) < stateStrSize := by
  rw [length_printState]

/-- A full log of committed entries of term `100` that starts at index `100`. -/
def fullLog : RaftState :=
  { serverInit (fun i => i.val) 0 with
    currentTerm := 100
    log := fun _ => { (default : LogEntry) with term := 100 }
    startLogIndex := 100
    logCount := 200
    commitIndex := 199 }

/-- The dump of a full log runs out of its array. -/
theorem full_log_overruns : fullLog.logCount - fullLog.startLogIndex = (logSize : ℤ) ∧
    0 ≤ fullLog.id ∧ 0 ≤ fullLog.currentTerm ∧ 0 ≤ fullLog.startLogIndex ∧
    0 ≤ fullLog.commitIndex ∧ (∀ k, 0 ≤ (fullLog.log k).term) ∧
    ¬ (printState fullLog).length ≤ 1023 := by
  have hthree : ∀ x : ℤ, 100 ≤ x → 3 ≤ decimalWidth x := by
    intro x hx
    have hlog : 2 ≤ Nat.log 10 x.natAbs := Nat.le_log_of_pow_le (by decide) (by omega)
    unfold decimalWidth
    omega
  have hentry : ∀ i ∈ Finset.range 100, 9 ≤ entryWidth fullLog i := by
    intro i hi
    rw [Finset.mem_range] at hi
    have hindex := hthree (i + fullLog.startLogIndex) (by simp only [fullLog]; omega)
    have hterm := hthree (fullLog.log i).term le_rfl
    have hcommitted : i + fullLog.startLogIndex ≤ fullLog.commitIndex := by
      simp only [fullLog]
      omega
    unfold entryWidth
    rw [if_pos hcommitted]
    omega
  have hsum : 900 ≤ ∑ i ∈ Finset.range 100, entryWidth fullLog i := by
    have hall := Finset.card_nsmul_le_sum _ _ _ hentry
    rwa [Finset.card_range, smul_eq_mul] at hall
  have hcount : (fullLog.logCount - fullLog.startLogIndex).toNat = 100 := by decide
  have hlength := length_printState fullLog
  rw [hcount] at hlength
  refine ⟨by decide, by decide, by decide, by decide, by decide, fun k => ?_, ?_⟩
  · exact (by decide : (0 : ℤ) ≤ 100)
  · omega

end RaftLock

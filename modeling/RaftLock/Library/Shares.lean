import Mathlib.Algebra.BigOperators.Group.Finset.Basic
import Mathlib.Algebra.Order.BigOperators.Group.Finset
import Mathlib.Tactic.Common

/-!
The total of a function that is zero almost everywhere: what a shared counter
has to stand at when each of unboundedly many parties has moved it by its own
share.
-/

/-- The shares `f` add up to `n`. -/
def AddsUpTo {ι : Type*} (f : ι → ℕ) (n : ℕ) : Prop :=
  ∃ D : Finset ι, (∀ i ∉ D, f i = 0) ∧ ∑ i ∈ D, f i = n

namespace AddsUpTo

variable {ι : Type*} {f : ι → ℕ} {n : ℕ}

theorem zero : AddsUpTo (fun _ : ι => 0) 0 := ⟨∅, by simp, by simp⟩

theorem le (h : AddsUpTo f n) (i : ι) : f i ≤ n := by
  obtain ⟨D, hout, rfl⟩ := h
  by_cases hi : i ∈ D
  · exact Finset.single_le_sum (fun _ _ => Nat.zero_le _) hi
  · rw [hout i hi]
    exact Nat.zero_le _

theorem exists_pos (h : AddsUpTo f n) (hn : 0 < n) : ∃ i, 0 < f i := by
  obtain ⟨D, -, rfl⟩ := h
  obtain ⟨i, -, hi⟩ := Finset.exists_ne_zero_of_sum_ne_zero hn.ne'
  exact ⟨i, Nat.pos_of_ne_zero hi⟩

/-- One party changes its share. -/
theorem update [DecidableEq ι] (h : AddsUpTo f n) (i : ι) (v : ℕ) :
    AddsUpTo (Function.update f i v) (n - f i + v) := by
  obtain ⟨D, hout, rfl⟩ := h
  refine ⟨insert i D, fun j hj => ?_, ?_⟩
  · rw [Finset.mem_insert, not_or] at hj
    rw [Function.update_of_ne hj.1, hout j hj.2]
  · have hrest : ∑ j ∈ D, f j = f i + ∑ j ∈ D.erase i, f j := by
      by_cases hi : i ∈ D
      · exact (Finset.add_sum_erase D f hi).symm
      · rw [hout i hi, Finset.erase_eq_of_notMem hi, zero_add]
    rw [← Finset.insert_erase (Finset.mem_insert_self i D),
      Finset.sum_insert (Finset.notMem_erase i _), Finset.erase_insert_eq_erase,
      Function.update_self, hrest, Nat.add_sub_cancel_left, add_comm]
    congr 1
    refine Finset.sum_congr rfl fun j hj => ?_
    rw [Function.update_of_ne (Finset.ne_of_mem_erase hj)]

end AddsUpTo

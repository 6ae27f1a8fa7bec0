import Mathlib.Data.List.Basic
import Mathlib.Tactic.Common

/-!
A stream read in blocks. Nothing here knows what is read.

A reader asks for `n` elements at a time and stops at the first block that
comes back short. So it always ends with a short block, which is empty when
the stream is a multiple of `n` long.
-/

namespace Blocks

variable {α : Type*} {n : ℕ} {l b : List α}

def blocks (n : ℕ) (l : List α) : List (List α) :=
  if 0 < n ∧ n ≤ l.length then l.take n :: blocks n (l.drop n) else [l]
termination_by l.length

theorem blocks_short (h : l.length < n) : blocks n l = [l] := by
  rw [blocks, if_neg (by omega)]

theorem blocks_full (hn : 0 < n) (h : n ≤ l.length) :
    blocks n l = l.take n :: blocks n (l.drop n) := by
  rw [blocks, if_pos ⟨hn, h⟩]

/-- What holds of streams that end in the first block, and of a stream when it
holds of the rest. -/
theorem block_induction {P : List α → Prop} (hn : 0 < n) (hshort : ∀ l, l.length < n → P l)
    (hfull : ∀ l, n ≤ l.length → P (l.drop n) → P l) (l : List α) : P l := by
  rcases Nat.lt_or_ge l.length n with h | h
  · exact hshort l h
  · exact hfull l h (block_induction hn hshort hfull (l.drop n))
termination_by l.length
decreasing_by simp only [List.length_drop]; omega

theorem flatten_blocks (hn : 0 < n) (l : List α) : (blocks n l).flatten = l := by
  induction l using block_induction hn with
  | hshort l h => rw [blocks_short h, List.flatten_singleton]
  | hfull l h ih => rw [blocks_full hn h, List.flatten_cons, ih, List.take_append_drop]

theorem blocks_ne_nil (n : ℕ) (l : List α) : blocks n l ≠ [] := by
  rw [blocks]
  split <;> simp

theorem length_blocks (hn : 0 < n) (l : List α) : (blocks n l).length = l.length / n + 1 := by
  induction l using block_induction hn with
  | hshort l h => rw [blocks_short h, List.length_singleton, Nat.div_eq_of_lt h]
  | hfull l h ih =>
      rw [blocks_full hn h, List.length_cons, ih, List.length_drop, Nat.div_eq_sub_div hn h]

theorem length_le_of_mem (hn : 0 < n) (h : b ∈ blocks n l) : b.length ≤ n := by
  induction l using block_induction hn with
  | hshort l hl =>
      rw [blocks_short hl, List.mem_singleton] at h
      rw [h]
      omega
  | hfull l hl ih =>
      rw [blocks_full hn hl, List.mem_cons] at h
      rcases h with rfl | h
      · exact List.length_take_le n l
      · exact ih h

theorem mem_of_mem_blocks (hn : 0 < n) (h : b ∈ blocks n l) {x : α} (hx : x ∈ b) : x ∈ l := by
  rw [← flatten_blocks hn l]
  exact List.mem_flatten_of_mem h hx

/-- All blocks are short when there is only the last one. -/
theorem forall_short_iff (hn : 0 < n) : (∀ b ∈ blocks n l, b.length < n) ↔ l.length < n := by
  constructor
  · intro hall
    rcases Nat.lt_or_ge l.length n with h | h
    · exact h
    · have hfirst := hall (l.take n) (by rw [blocks_full hn h]; exact List.mem_cons_self)
      rw [List.length_take] at hfirst
      omega
  · intro h b hb
    rw [blocks_short h, List.mem_singleton] at hb
    exact hb ▸ h

end Blocks

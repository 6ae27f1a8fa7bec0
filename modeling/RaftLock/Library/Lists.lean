import Mathlib.Data.List.Perm.Basic
import Mathlib.Tactic.Common

/-!
Lists one place of which is looked at, changed or given up: the rest stays as
it is, and its order seldom matters.
-/

namespace List

variable {α β : Type*} {l : List α} {k : ℕ} {x y : α}

/-- What is at place `k` is replaced, or goes. -/
def replaceAt (l : List α) (k : ℕ) : Option α → List α
  | none => l.eraseIdx k
  | some x => l.set k x

theorem split_getElem? (h : l[k]? = some x) : l = l.take k ++ x :: l.drop (k + 1) := by
  obtain ⟨hk, rfl⟩ := List.getElem?_eq_some_iff.mp h
  rw [List.getElem_cons_drop]
  exact (List.take_append_drop k l).symm

theorem mem_replaceAt {z : Option α} (h : y ∈ l.replaceAt k z) : y ∈ l ∨ z = some y := by
  cases z with
  | none => exact Or.inl (List.mem_of_mem_eraseIdx h)
  | some x =>
      rcases List.mem_or_eq_of_mem_set h with h | rfl
      · exact Or.inl h
      · exact Or.inr rfl

theorem replaceAt_eq (h : l[k]? = some y) (z : Option α) :
    l.replaceAt k z = l.take k ++ z.toList ++ l.drop (k + 1) := by
  have hk : k < l.length := (List.getElem?_eq_some_iff.mp h).1
  cases z with
  | none => simp [replaceAt, List.eraseIdx_eq_take_drop_succ]
  | some x => simp [replaceAt, List.set_eq_take_append_cons_drop, hk]

/-- What is at place `k`, and the rest. -/
theorem replaceAt_perm (h : l[k]? = some y) (z : Option α) :
    (l.Perm (y :: (l.take k ++ l.drop (k + 1)))) ∧
      (l.replaceAt k z).Perm (z.toList ++ (l.take k ++ l.drop (k + 1))) := by
  constructor
  · conv_lhs => rw [split_getElem? h]
    exact List.perm_middle
  · rw [replaceAt_eq h, List.append_assoc]
    exact List.perm_append_comm_assoc _ _ _

theorem mem_replaceAt_of_mem {z : Option α} (hx : l[k]? = some x) (hy : y ∈ l)
    (hz : x = y → z = some y) : y ∈ l.replaceAt k z := by
  obtain ⟨hbefore, hafter⟩ := replaceAt_perm hx z
  rw [hafter.mem_iff]
  rcases List.mem_cons.mp (hbefore.mem_iff.mp hy) with rfl | hrest
  · rw [hz rfl]
    exact List.mem_cons_self
  · exact List.mem_append_right _ hrest

theorem map_replaceAt (f : α → β) (l : List α) (k : ℕ) (z : Option α) :
    (l.replaceAt k z).map f = (l.map f).replaceAt k (z.map f) := by
  cases z with
  | none => exact (List.eraseIdx_map f l k).symm
  | some x => exact List.map_set

theorem mem_eraseIdx_of_ne (hx : l[k]? = some x) (hy : y ∈ l) (hne : y ≠ x) :
    y ∈ l.eraseIdx k := by
  rw [split_getElem? hx] at hy
  rw [List.eraseIdx_eq_take_drop_succ]
  rcases List.mem_append.mp hy with hbefore | hafter
  · exact List.mem_append_left _ hbefore
  · exact List.mem_append_right _ (List.mem_of_ne_of_mem hne hafter)

end List

import Mathlib.Data.List.Induction
import Mathlib.Logic.Function.Basic
import Mathlib.Tactic.Common

/-!
Directories whose files are only appended to. Nothing here knows what is
written.

A directory maps names to contents. A list of writes is applied to it one by
one; laying the result over a directory of empty files is the same as applying
the writes to these.
-/

namespace Appends

variable {N B : Type*} [DecidableEq N]

/-- One write: the file is made if it is not there. -/
def append (f : N → Option (List B)) (w : N × List B) : N → Option (List B) :=
  Function.update f w.1 (some ((f w.1).getD [] ++ w.2))

def appendAll (f : N → Option (List B)) (ws : List (N × List B)) : N → Option (List B) :=
  ws.foldl append f

variable {f g : N → Option (List B)} {ws : List (N × List B)}

@[simp] theorem appendAll_nil (f : N → Option (List B)) : appendAll f [] = f := rfl

theorem appendAll_append (f : N → Option (List B)) (ws ws' : List (N × List B)) :
    appendAll f (ws ++ ws') = appendAll (appendAll f ws) ws' := List.foldl_append

theorem appendAll_concat (f : N → Option (List B)) (ws : List (N × List B)) (w : N × List B) :
    appendAll f (ws ++ [w]) = append (appendAll f ws) w := appendAll_append f ws [w]

/-- A file that no write names stays as it is. -/
theorem appendAll_of_notMem {n : N} (h : ∀ w ∈ ws, w.1 ≠ n) : appendAll f ws n = f n := by
  induction ws generalizing f with
  | nil => rfl
  | cons w ws ih =>
      have hrest := ih (f := append f w) fun v hv => h v (List.mem_cons_of_mem w hv)
      have hw : n ≠ w.1 := (h w List.mem_cons_self).symm
      exact hrest.trans (Function.update_of_ne hw _ f)

/-- The bytes that the writes append to the file `n`. -/
def bytesTo (n : N) (ws : List (N × List B)) : List B :=
  ws.flatMap fun w => if w.1 = n then w.2 else []

theorem bytesTo_append (n : N) (ws ws' : List (N × List B)) :
    bytesTo n (ws ++ ws') = bytesTo n ws ++ bytesTo n ws' := List.flatMap_append

theorem append_getD (f : N → Option (List B)) (w : N × List B) (n : N) :
    (append f w n).getD [] = (f n).getD [] ++ bytesTo n [w] := by
  by_cases hn : n = w.1
  · subst hn
    simp [append, bytesTo]
  · simp [append, bytesTo, hn, Ne.symm hn]

/-- A file holds what it held, and then what is written to it. -/
theorem appendAll_getD (f : N → Option (List B)) (ws : List (N × List B)) (n : N) :
    (appendAll f ws n).getD [] = (f n).getD [] ++ bytesTo n ws := by
  induction ws using List.reverseRecOn with
  | nil => exact (List.append_nil _).symm
  | append_singleton ws w ih =>
      rw [appendAll_concat, append_getD, ih, bytesTo_append, List.append_assoc]

/-- Where some of the writes are found again in what they were appended to. -/
theorem appendAll_read (f : N → Option (List B)) (ws₁ ws₂ ws₃ : List (N × List B)) (n : N) :
    (((appendAll f (ws₁ ++ ws₂ ++ ws₃) n).getD []).drop
      ((f n).getD [] ++ bytesTo n ws₁).length).take (bytesTo n ws₂).length = bytesTo n ws₂ := by
  rw [appendAll_getD, bytesTo_append, bytesTo_append, ← List.append_assoc, ← List.append_assoc,
    List.append_assoc _ (bytesTo n ws₂), List.drop_left, List.take_left]

theorem bytesTo_of_notMem {n : N} (h : ∀ w ∈ ws, w.1 ≠ n) : bytesTo n ws = [] :=
  List.flatMap_eq_nil_iff.mpr fun w hw => if_neg (h w hw)

/-- A file that is written to is there. -/
theorem appendAll_isSome {n : N} (h : ∃ w ∈ ws, w.1 = n) : (appendAll f ws n).isSome = true := by
  induction ws using List.reverseRecOn with
  | nil => simp at h
  | append_singleton ws w ih =>
      rw [appendAll_concat]
      by_cases hn : w.1 = n
      · subst hn
        simp [append]
      · obtain ⟨v, hv, hvn⟩ := h
        have hv' : v ∈ ws := by
          rcases List.mem_append.mp hv with hv | hv
          · exact hv
          · exact absurd ((List.mem_singleton.mp hv) ▸ hvn) hn
        rw [append, Function.update_of_ne (Ne.symm hn)]
        exact ih ⟨v, hv', hvn⟩

/-- Only the files that are named and the bytes for each of them matter, not
how the writes to different files lie. -/
theorem appendAll_congr {ws' : List (N × List B)}
    (hnames : ∀ n, (∃ w ∈ ws, w.1 = n) ↔ ∃ w ∈ ws', w.1 = n)
    (hbytes : ∀ n, bytesTo n ws = bytesTo n ws') : appendAll f ws = appendAll f ws' := by
  funext n
  by_cases hn : ∃ w ∈ ws, w.1 = n
  · obtain ⟨c, hc⟩ := Option.isSome_iff_exists.mp (appendAll_isSome (f := f) hn)
    obtain ⟨c', hc'⟩ := Option.isSome_iff_exists.mp
      (appendAll_isSome (f := f) ((hnames n).mp hn))
    have heq := appendAll_getD f ws n
    rw [hbytes, ← appendAll_getD, hc, hc'] at heq
    rw [hc, hc']
    exact congrArg some heq
  · have hn' := (not_congr (hnames n)).mp hn
    push Not at hn hn'
    rw [appendAll_of_notMem hn, appendAll_of_notMem hn']

/-- Writes to one file. -/
theorem appendAll_map (f : N → Option (List B)) (n : N) {bs : List (List B)} (hbs : bs ≠ []) :
    appendAll f (bs.map (Prod.mk n)) =
      Function.update f n (some ((f n).getD [] ++ bs.flatten)) := by
  induction bs generalizing f with
  | nil => exact absurd rfl hbs
  | cons b bs ih =>
      show appendAll (append f (n, b)) (bs.map (Prod.mk n)) = _
      cases bs with
      | nil => simp [append]
      | cons b' bs =>
          rw [ih _ (by simp), append, Function.update_idem, Function.update_self,
            Option.getD_some, List.flatten_cons (l := b), List.append_assoc]

/-- The files of `g`, and those of `f` that `g` does not have. -/
def overlay (f g : N → Option (List B)) : N → Option (List B) := fun n => (g n).or (f n)

theorem overlay_appendAll (hf : ∀ n, (f n).getD [] = []) (ws : List (N × List B)) :
    overlay f (appendAll (fun _ => none) ws) = appendAll f ws := by
  induction ws using List.reverseRecOn with
  | nil =>
      funext n
      rfl
  | append_singleton ws w ih =>
      rw [appendAll_concat, appendAll_concat, ← ih]
      funext n
      by_cases hn : n = w.1
      · subst hn
        simp only [overlay, append, Function.update_self, Option.some_or]
        cases hg : appendAll (fun _ => none) ws w.1 with
        | none => simp [hf]
        | some c => simp
      · simp [overlay, append, hn]

end Appends

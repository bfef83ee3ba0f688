import Mathlib.Logic.Function.Basic
import Mathlib.Tactic.Common

/-!
# Sequences of writes

A sequence of writes to the cells of a store, applied in order; in particular a sequence
that is cut off after any number of writes and then repeated from its start.
-/
namespace OsAudio.Lib

open Function (update update_self update_of_ne)

variable {κ β : Type*} [DecidableEq κ]

def applyWrites (d : κ → β) : List (κ × β) → κ → β
  | [] => d
  | (k, v) :: ws => applyWrites (update d k v) ws

theorem applyWrites_append (d : κ → β) (ws vs : List (κ × β)) :
    applyWrites d (ws ++ vs) = applyWrites (applyWrites d ws) vs := by
  induction ws generalizing d with
  | nil => rfl
  | cons w ws ih => exact ih _

theorem applyWrites_concat (d : κ → β) (ws : List (κ × β)) (k : κ) (v : β) :
    applyWrites d (ws ++ [(k, v)]) = update (applyWrites d ws) k v := by
  rw [applyWrites_append]
  rfl

/-- A cell that no write names keeps its value. -/
theorem applyWrites_other {d : κ → β} {ws : List (κ × β)} {k : κ} (untouched : ∀ w ∈ ws, w.1 ≠ k) :
    applyWrites d ws k = d k := by
  induction ws generalizing d with
  | nil => rfl
  | cons w ws ih =>
    have rest := @ih (update d w.1 w.2) fun v member => untouched v (by simp [member])
    have first := untouched w (by simp)
    exact rest.trans (update_of_ne first.symm _ _)

/-- Two stores agree after the same writes wherever they agreed before, and wherever
something was written. -/
theorem applyWrites_congr {d e : κ → β} {ws : List (κ × β)} {k : κ}
    (agree : (∃ w ∈ ws, w.1 = k) ∨ d k = e k) : applyWrites d ws k = applyWrites e ws k := by
  induction ws generalizing d e with
  | nil => simpa [applyWrites] using agree
  | cons w ws ih =>
    apply ih
    by_cases here : w.1 = k
    · right
      rw [← here, update_self, update_self]
    · rcases agree with ⟨v, member, key⟩ | same
      · rcases List.mem_cons.mp member with rfl | inside
        · exact absurd key here
        · exact Or.inl ⟨v, inside, key⟩
      · right
        rw [update_of_ne (Ne.symm here), update_of_ne (Ne.symm here), same]

/-- If every write to a cell has the value `v`, the cell ends as before or with `v`; and
with `v` if it is written at all. -/
theorem applyWrites_value {d : κ → β} {ws : List (κ × β)} {k : κ} {v : β}
    (values : ∀ w ∈ ws, w.1 = k → w.2 = v) :
    ((∃ w ∈ ws, w.1 = k) → applyWrites d ws k = v) ∧
    (applyWrites d ws k = d k ∨ applyWrites d ws k = v) := by
  induction ws generalizing d with
  | nil => exact ⟨by simp, Or.inl rfl⟩
  | cons w ws ih =>
    obtain ⟨written, either⟩ :=
      @ih (update d w.1 w.2) fun u member => values u (by simp [member])
    by_cases here : w.1 = k
    · have value : applyWrites d (w :: ws) k = v := by
        rcases either with same | same
        · refine same.trans ?_
          rw [← here, update_self]
          exact values w (by simp) here
        · exact same
      exact ⟨fun _ => value, Or.inr value⟩
    · refine ⟨?_, ?_⟩
      · rintro ⟨u, member, key⟩
        rcases List.mem_cons.mp member with rfl | inside
        · exact absurd key here
        · exact written ⟨u, inside, key⟩
      · rcases either with same | same
        · exact Or.inl (same.trans (update_of_ne (Ne.symm here) _ _))
        · exact Or.inr same

end OsAudio.Lib

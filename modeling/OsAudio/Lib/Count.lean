import Mathlib.Algebra.BigOperators.Group.Finset.Piecewise

/-!
# Counting after one change

How many members of a finite set have a property, and what their values add up to, when the
value at one member changes.
-/
namespace OsAudio.Lib

open Function (update update_self update_of_ne)

variable {ι : Type*} {S : Finset ι} {i : ι}

theorem sum_update_add [DecidableEq ι] (f : ι → Nat)
    (member : i ∈ S) (n : Nat) :
    ∑ j ∈ S, update f i n j + f i = ∑ j ∈ S, f j + n := by
  have split := Finset.sum_erase_add S f member
  have others : ∑ j ∈ S.erase i, update f i n j = ∑ j ∈ S.erase i, f j := by
    refine Finset.sum_congr rfl fun j inside => ?_
    rw [update_of_ne (Finset.ne_of_mem_erase inside)]
  rw [← Finset.sum_erase_add S _ member, others, update_self]
  omega

theorem card_filter_update {β : Type*} [DecidableEq ι] (member : i ∈ S)
    (g : ι → β) (b : β) (P : β → Prop) [DecidablePred P] :
    (S.filter fun j => P (update g i b j)).card + (if P (g i) then 1 else 0) =
      (S.filter fun j => P (g j)).card + if P b then 1 else 0 := by
  have others : ∑ j ∈ S.erase i, (if P (update g i b j) then 1 else 0) =
      ∑ j ∈ S.erase i, if P (g j) then 1 else 0 := by
    refine Finset.sum_congr rfl fun j inside => ?_
    rw [update_of_ne (Finset.ne_of_mem_erase inside)]
  rw [Finset.card_filter, Finset.card_filter, ← Finset.add_sum_erase S _ member,
    ← Finset.add_sum_erase S _ member, others, update_self]
  omega

/-- A member loses the property, and the others are as before. -/
theorem card_filter_insert_lost [DecidableEq ι] {x : ι} {P Q : ι → Prop}
    [DecidablePred P] [DecidablePred Q] (had : P x) (lost : ¬ Q x)
    (same : ∀ y ∈ S, y ≠ x → (Q y ↔ P y)) :
    ((insert x S).filter P).card = (S.filter Q).card + 1 := by
  have split : (insert x S).filter P = insert x (S.filter Q) := by
    ext y
    rw [Finset.mem_filter, Finset.mem_insert, Finset.mem_insert, Finset.mem_filter]
    by_cases equal : y = x
    · simp [equal, had]
    · simp only [equal, false_or]
      exact and_congr_right fun member => (same y member equal).symm
  rw [split, Finset.card_insert_of_notMem]
  exact fun member => lost (Finset.mem_filter.mp member).2

/-- The same for pairs, when the value changes at one pair. -/
theorem card_filter_update_pair {κ β : Type*} [DecidableEq ι] [DecidableEq κ]
    {T : Finset κ} {k : κ} (left : i ∈ S) (right : k ∈ T) (g : ι → κ → β) (b : β)
    (P : β → Prop) [DecidablePred P] :
    ((S ×ˢ T).filter fun p => P (update g i (update (g i) k b) p.1 p.2)).card +
        (if P (g i k) then 1 else 0) =
      ((S ×ˢ T).filter fun p => P (g p.1 p.2)).card + if P b then 1 else 0 := by
  have changed := card_filter_update (Finset.mk_mem_product left right) (fun p => g p.1 p.2) b P
  rw [← changed]
  congr 2
  refine Finset.filter_congr fun p _ => ?_
  by_cases here : p = (i, k)
  · subst here
    simp
  · rw [update_of_ne here]
    by_cases row : p.1 = i
    · have column : p.2 ≠ k := fun same => here (Prod.ext row same)
      rw [row, update_self, update_of_ne column]
    · rw [update_of_ne row]

end OsAudio.Lib

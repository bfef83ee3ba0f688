import Mathlib.Algebra.Order.BigOperators.Group.Finset
import Mathlib.Tactic.Linarith

/-!
# Budgets on an index forest

A forest is given by a parent function on a finite set of indices in which every
child has a larger index than its parent.  If every node's own cost together with
the budgets of its children stays within its budget, then the cost of a whole
subtree stays within the budget of its root.
-/
namespace OsAudio.Lib.Forest

variable (nodes : Finset Nat) (parent : Nat → Nat)

/-- The children of `i`: the nodes other than `i` itself whose parent is `i`. -/
def children (i : Nat) : Finset Nat := nodes.filter fun j => j ≠ i ∧ parent j = i

/-- `j` belongs to the subtree of `i`. -/
inductive Below (i : Nat) : Nat → Prop
  | root : Below i i
  | child {j : Nat} (member : j ∈ nodes) (above : Below i (parent j)) : Below i j

variable {nodes parent}

/-- A node strictly below `i` is below one of the children of `i`. -/
theorem Below.through_child {i j : Nat} (below : Below nodes parent i j) (different : j ≠ i) :
    ∃ c ∈ children nodes parent i, Below nodes parent c j := by
  induction below with
  | root => exact absurd rfl different
  | @child j member above ih =>
    by_cases direct : parent j = i
    · exact ⟨j, by simp [children, member, different, direct], .root⟩
    · obtain ⟨c, isChild, lower⟩ := ih direct
      exact ⟨c, isChild, .child member lower⟩

open Classical in
/-- The subtree of `i`, as a finite set of nodes. -/
noncomputable def subtree (nodes : Finset Nat) (parent : Nat → Nat) (i : Nat) : Finset Nat :=
  nodes.filter (Below nodes parent i)

private theorem sum_union_le (s t : Finset Nat) (f : Nat → Nat) :
    ∑ j ∈ s ∪ t, f j ≤ ∑ j ∈ s, f j + ∑ j ∈ t, f j := by
  have both : ∑ j ∈ s ∪ t, f j + ∑ j ∈ s ∩ t, f j = ∑ j ∈ s, f j + ∑ j ∈ t, f j :=
    Finset.sum_union_inter
  omega

private theorem sum_biUnion_le (s : Finset Nat) (t : Nat → Finset Nat) (f : Nat → Nat) :
    ∑ j ∈ s.biUnion t, f j ≤ ∑ c ∈ s, ∑ j ∈ t c, f j := by
  induction s using Finset.induction_on with
  | empty => simp
  | insert c s fresh ih =>
    rw [Finset.biUnion_insert, Finset.sum_insert fresh]
    exact (sum_union_le _ _ _).trans (Nat.add_le_add_left ih _)

open Classical in
/-- The subtree bound.  The induction runs from the largest index downwards:
`bound` is any number above all indices. -/
theorem sum_subtree_le {cost budget : Nat → Nat} {bound : Nat}
    (bounded : ∀ j ∈ nodes, j < bound)
    (increasing : ∀ j ∈ nodes, ∀ i, j ∈ children nodes parent i → i < j)
    (within : ∀ i ∈ nodes, cost i + ∑ c ∈ children nodes parent i, budget c ≤ budget i)
    (i : Nat) (member : i ∈ nodes) :
    ∑ j ∈ subtree nodes parent i, cost j ≤ budget i := by
  obtain ⟨gap, same⟩ : ∃ gap, gap = bound - i := ⟨_, rfl⟩
  induction gap using Nat.strong_induction_on generalizing i with
  | _ gap ih =>
    have split : subtree nodes parent i ⊆
        insert i ((children nodes parent i).biUnion (subtree nodes parent)) := by
      intro j inside
      simp only [subtree, Finset.mem_filter] at inside
      by_cases top : j = i
      · simp [top]
      · obtain ⟨c, isChild, lower⟩ := inside.2.through_child top
        simp only [Finset.mem_insert, Finset.mem_biUnion]
        exact Or.inr ⟨c, isChild, by simp [subtree, inside.1, lower]⟩
    have below : ∀ c ∈ children nodes parent i,
        ∑ j ∈ subtree nodes parent c, cost j ≤ budget c := by
      intro c isChild
      have inNodes : c ∈ nodes := (Finset.mem_filter.mp isChild).1
      have larger := increasing c inNodes i isChild
      have small := bounded c inNodes
      exact ih (bound - c) (by omega) c inNodes rfl
    calc ∑ j ∈ subtree nodes parent i, cost j
        ≤ ∑ j ∈ insert i ((children nodes parent i).biUnion (subtree nodes parent)), cost j :=
          Finset.sum_le_sum_of_subset split
      _ ≤ cost i + ∑ j ∈ (children nodes parent i).biUnion (subtree nodes parent), cost j :=
          (sum_union_le {i} _ _).trans (by simp)
      _ ≤ cost i + ∑ c ∈ children nodes parent i, ∑ j ∈ subtree nodes parent c, cost j :=
          Nat.add_le_add_left (sum_biUnion_le _ _ _) _
      _ ≤ cost i + ∑ c ∈ children nodes parent i, budget c :=
          Nat.add_le_add_left (Finset.sum_le_sum below) _
      _ ≤ budget i := within i member

end OsAudio.Lib.Forest

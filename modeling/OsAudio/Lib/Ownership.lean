import Mathlib.Logic.Function.Basic
import Mathlib.Tactic.Common

/-!
# Ownership of numbered resources

Places refer to numbered resources, the number 0 standing for none, and a map says which
resources in a range are in use.  `Owned` is the invariant of a correct allocator: no
resource is referred to twice, and exactly the resources referred to are in use.
-/
namespace OsAudio.Lib

open Function (update update_self update_of_ne)

variable {ι : Type*}

structure Owned (lo hi : Nat) (used : Nat → Prop) (ref : ι → Nat) : Prop where
  distinct : ∀ x y, ref x ≠ 0 → ref x = ref y → x = y
  range : ∀ x, ref x ≠ 0 → lo ≤ ref x ∧ ref x < hi
  exact : ∀ b, lo ≤ b → (used b ↔ ∃ x, ref x = b)

namespace Owned
variable {lo hi : Nat} {used : Nat → Prop} {ref : ι → Nat}

theorem congr (owned : Owned lo hi used ref) {used' : Nat → Prop} {ref' : ι → Nat}
    (sameUsed : ∀ b, lo ≤ b → (used' b ↔ used b)) (sameRef : ∀ x, ref' x = ref x) :
    Owned lo hi used' ref' := by
  obtain rfl : ref' = ref := funext sameRef
  exact ⟨owned.distinct, owned.range, fun b above => (sameUsed b above).trans (owned.exact b above)⟩

/-- A resource that is not in use is not referred to. -/
theorem fresh (owned : Owned lo hi used ref) {b : Nat} (above : lo ≤ b) (free : ¬ used b) (x : ι) :
    ref x ≠ b :=
  fun same => free ((owned.exact b above).mpr ⟨x, same⟩)

variable [DecidableEq ι]

/-- Taking a free resource. -/
theorem take (owned : Owned lo hi used ref) {b : Nat} (positive : 0 < lo) (above : lo ≤ b)
    (below : b < hi) (free : ¬ used b) {x : ι} (empty : ref x = 0) :
    Owned lo hi (fun c => c = b ∨ used c) (update ref x b) := by
  have fresh := owned.fresh above free
  refine ⟨?_, ?_, ?_⟩
  · intro y z some same
    by_cases left : y = x
    · by_cases right : z = x
      · rw [left, right]
      · rw [left, update_self, update_of_ne right] at same
        exact absurd same.symm (fresh z)
    · rw [update_of_ne left] at some same
      by_cases right : z = x
      · rw [right, update_self] at same
        exact absurd same (fresh y)
      · rw [update_of_ne right] at same
        exact owned.distinct y z some same
  · intro y some
    by_cases here : y = x
    · rw [here, update_self]
      exact ⟨above, below⟩
    · rw [update_of_ne here] at some ⊢
      exact owned.range y some
  · intro c least
    constructor
    · rintro (rfl | old)
      · exact ⟨x, update_self _ _ _⟩
      · obtain ⟨y, same⟩ := (owned.exact c least).mp old
        have other : y ≠ x := by
          rintro rfl
          omega
        exact ⟨y, by rw [update_of_ne other, same]⟩
    · rintro ⟨y, same⟩
      by_cases here : y = x
      · rw [here, update_self] at same
        exact Or.inl same.symm
      · rw [update_of_ne here] at same
        exact Or.inr ((owned.exact c least).mpr ⟨y, same⟩)

/-- Giving a resource back. -/
theorem drop (owned : Owned lo hi used ref) (positive : 0 < lo) {x : ι} (some : ref x ≠ 0) :
    Owned lo hi (fun c => c ≠ ref x ∧ used c) (update ref x 0) := by
  refine ⟨?_, ?_, ?_⟩
  · intro y z nonzero same
    by_cases left : y = x
    · rw [left, update_self] at nonzero
      exact absurd rfl nonzero
    · by_cases right : z = x
      · rw [right, update_self] at same
        exact absurd same nonzero
      · rw [update_of_ne left] at nonzero same
        rw [update_of_ne right] at same
        exact owned.distinct y z nonzero same
  · intro y nonzero
    by_cases here : y = x
    · rw [here, update_self] at nonzero
      exact absurd rfl nonzero
    · rw [update_of_ne here] at nonzero ⊢
      exact owned.range y nonzero
  · intro c least
    constructor
    · rintro ⟨different, old⟩
      obtain ⟨y, same⟩ := (owned.exact c least).mp old
      have other : y ≠ x := by
        rintro rfl
        exact different same.symm
      exact ⟨y, by rw [update_of_ne other, same]⟩
    · rintro ⟨y, same⟩
      by_cases here : y = x
      · rw [here, update_self] at same
        omega
      · rw [update_of_ne here] at same
        refine ⟨fun again => here ?_, (owned.exact c least).mpr ⟨y, same⟩⟩
        exact (owned.distinct x y some (again.symm.trans same.symm)).symm

end Owned

end OsAudio.Lib

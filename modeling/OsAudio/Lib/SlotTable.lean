import Mathlib.Logic.Function.Basic

/-!
# Finite maps in tables of slots

A table has a slot for every index, and a slot is empty or holds a key with its value.  If no two
slots hold the same key, the table is a partial map from keys to values; a new key goes to any empty
slot, and emptying its slot removes a key.
-/
namespace OsAudio.Lib

open Function (update update_self update_of_ne)

variable {ι K V : Type*} {table : ι → Option (K × V)}

/-- Some slot holds the key `k` with the value `v`. -/
def SlotHas (table : ι → Option (K × V)) (k : K) (v : V) : Prop := ∃ i, table i = some (k, v)

/-- No two slots hold the same key. -/
def SlotsDistinct (table : ι → Option (K × V)) : Prop :=
  ∀ i j k v w, table i = some (k, v) → table j = some (k, w) → i = j

/-- No slot holds the key. -/
def SlotFree (table : ι → Option (K × V)) (k : K) : Prop := ∀ v, ¬ SlotHas table k v

theorem SlotsDistinct.unique (distinct : SlotsDistinct table) {k : K} {v w : V} (left : SlotHas table k v)
    (right : SlotHas table k w) : v = w := by
  obtain ⟨i, here⟩ := left
  obtain ⟨j, there⟩ := right
  obtain rfl := distinct i j k v w here there
  rw [here] at there
  cases there
  rfl

section Change
variable [DecidableEq ι] {i : ι} {k : K} {v : V}

theorem slotHas_put (empty : table i = none) (k' : K) (v' : V) :
    SlotHas (update table i (some (k, v))) k' v' ↔ (k' = k ∧ v' = v) ∨ SlotHas table k' v' := by
  constructor
  · rintro ⟨j, has⟩
    by_cases here : j = i
    · rw [here, update_self] at has
      cases has
      exact Or.inl ⟨rfl, rfl⟩
    · rw [update_of_ne here] at has
      exact Or.inr ⟨j, has⟩
  · rintro (⟨rfl, rfl⟩ | ⟨j, has⟩)
    · exact ⟨i, update_self ..⟩
    · refine ⟨j, ?_⟩
      rw [update_of_ne, has]
      rintro rfl
      rw [empty] at has
      cases has

theorem SlotsDistinct.put (distinct : SlotsDistinct table) (new : SlotFree table k) :
    SlotsDistinct (update table i (some (k, v))) := by
  intro j j' k' w w' left right
  by_cases here : j = i <;> by_cases there : j' = i
  · rw [here, there]
  · rw [here, update_self] at left
    rw [update_of_ne there] at right
    cases left
    exact absurd ⟨j', right⟩ (new w')
  · rw [there, update_self] at right
    rw [update_of_ne here] at left
    cases right
    exact absurd ⟨j, left⟩ (new w)
  · rw [update_of_ne here] at left
    rw [update_of_ne there] at right
    exact distinct j j' k' w w' left right

theorem SlotsDistinct.has_erase (distinct : SlotsDistinct table) (here : table i = some (k, v)) (k' : K)
    (v' : V) : SlotHas (update table i none) k' v' ↔ k' ≠ k ∧ SlotHas table k' v' := by
  constructor
  · rintro ⟨j, has⟩
    have other : j ≠ i := by
      rintro rfl
      rw [update_self] at has
      cases has
    rw [update_of_ne other] at has
    refine ⟨?_, j, has⟩
    rintro rfl
    exact other (distinct j i _ _ _ has here)
  · rintro ⟨different, j, has⟩
    refine ⟨j, ?_⟩
    rw [update_of_ne, has]
    rintro rfl
    rw [here] at has
    cases has
    exact different rfl

theorem SlotsDistinct.erase (distinct : SlotsDistinct table) :
    SlotsDistinct (update table i none) := by
  have kept : ∀ j p, update table i none j = some p → table j = some p := by
    intro j p has
    by_cases here : j = i
    · rw [here, update_self] at has
      cases has
    · rwa [update_of_ne here] at has
  exact fun j j' k v w left right => distinct j j' k v w (kept j _ left) (kept j' _ right)

end Change

end OsAudio.Lib

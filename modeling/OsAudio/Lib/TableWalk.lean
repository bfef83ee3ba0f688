import Mathlib.Tactic.Common

/-!
# Walks over tables of records

A table holds records one behind the other, and the size of each is found in the record itself.  A
walk acts on the record at its pointer and moves on by the size, until the pointer reaches the end.
A pointer that leaves the address space has no meaning.
-/
namespace OsAudio.Lib

/-- What is known of a walk after some rounds. -/
inductive Walk (σ : Type*)
  | running (s : σ)
  | undefined (s : σ)
  | done (s : σ)

def Walk.state {σ : Type*} : Walk σ → σ
  | running s | undefined s | done s => s

variable {σ : Type*} (size : Nat → Nat) (act : Nat → σ → σ) (stop limit : Nat)

/-- At most `fuel` rounds of the walk from `p` on. -/
def walk : (fuel p : Nat) → σ → Walk σ
  | 0, _, s => .running s
  | fuel + 1, p, s =>
    if p < stop then
      if p + size p < limit then walk fuel (p + size p) (act p s) else .undefined (act p s)
    else .done s

/-- The records that the walk acts on. -/
def recordsFrom : (fuel p : Nat) → List Nat
  | 0, _ => []
  | fuel + 1, p =>
    if p < stop then p :: if p + size p < limit then recordsFrom fuel (p + size p) else []
    else []

variable {size act stop limit} {p q : Nat} {s : σ}

theorem walk_state (fuel : Nat) : (walk size act stop limit fuel p s).state =
    (recordsFrom size stop limit fuel p).foldl (fun s p => act p s) s := by
  induction fuel generalizing p s with
  | zero => rfl
  | succ fuel ih =>
    simp only [walk, recordsFrom]
    split
    · split
      · exact ih
      · rfl
    · rfl

theorem recordsFrom_lt (fuel : Nat) : ∀ q ∈ recordsFrom size stop limit fuel p, q < stop := by
  induction fuel generalizing p with
  | zero => simp [recordsFrom]
  | succ fuel ih =>
    simp only [recordsFrom]
    split
    · next here =>
      intro q member
      rcases List.mem_cons.mp member with rfl | later
      · exact here
      · split at later
        · exact ih q later
        · cases later
    · simp

/-- A record of size 0 is acted on for ever. -/
theorem walk_stuck (here : p < stop) (inside : p < limit) (empty : size p = 0) (fuel : Nat) :
    ∃ t, walk size act stop limit fuel p s = .running t := by
  induction fuel generalizing s with
  | zero => exact ⟨s, rfl⟩
  | succ fuel ih => simpa [walk, here, inside, empty] using @ih (act p s)

/-- The record at the pointer moves the walk on. -/
def Moves (size : Nat → Nat) (limit p : Nat) : Prop := 0 < size p ∧ p + size p < limit

variable {fuel : Nat} {t : σ}

theorem walk_moves (finished : walk size act stop limit fuel p s = .done t) :
    ∀ more, ∀ q ∈ recordsFrom size stop limit more p, Moves size limit q := by
  induction fuel generalizing p s with
  | zero => cases finished
  | succ fuel ih =>
    intro more q member
    cases more with
    | zero => cases member
    | succ more =>
      simp only [walk] at finished
      simp only [recordsFrom] at member
      split at finished
      · next here =>
        split at finished
        · next inside =>
          have rest := ih finished
          simp only [if_pos here, if_pos inside, List.mem_cons] at member
          rcases member with rfl | later
          · refine ⟨Nat.pos_of_ne_zero fun empty => ?_, inside⟩
            -- The walk goes on at the same record.
            have again := rest 1 q (by simp [recordsFrom, here, empty])
            exact absurd again.1 (by omega)
          · exact rest more q later
        · cases finished
      · next past =>
        rw [if_neg past] at member
        cases member

theorem walk_finishes (moves : ∀ fuel, ∀ q ∈ recordsFrom size stop limit fuel p, Moves size limit q) :
    walk size act stop limit (stop - p + 1) p s = .done
      ((recordsFrom size stop limit (stop - p + 1) p).foldl (fun s p => act p s) s) := by
  suffices ∀ fuel, stop - p < fuel → ∃ t, walk size act stop limit fuel p s = .done t by
    obtain ⟨t, finished⟩ := this (stop - p + 1) (Nat.lt_succ_self _)
    have state := @walk_state σ size act stop limit p s (stop - p + 1)
    rw [finished] at state ⊢
    exact congrArg Walk.done state
  intro fuel
  induction fuel generalizing p s with
  | zero => intro below; omega
  | succ fuel ih =>
    intro below
    simp only [walk]
    split
    · next here =>
      obtain ⟨moved, inside⟩ := moves 1 p (by simp [recordsFrom, here])
      rw [if_pos inside]
      refine ih (fun more q later => moves (more + 1) q ?_) (by omega)
      simp [recordsFrom, here, inside, later]
    · exact ⟨s, rfl⟩

theorem walk_more (finished : walk size act stop limit fuel p s = .done t) (more : Nat) :
    walk size act stop limit (fuel + more) p s = .done t := by
  induction fuel generalizing p s with
  | zero => cases finished
  | succ fuel ih =>
    rw [Nat.add_right_comm]
    simp only [walk] at finished ⊢
    split at finished
    · next here =>
      split at finished
      · next inside =>
        rw [if_pos here, if_pos inside]
        exact ih finished
      · cases finished
    · next past => rwa [if_neg past]

/-- The result does not depend on the number of rounds allowed. -/
theorem walk_unique {fuel' : Nat} {t' : σ} (finished : walk size act stop limit fuel p s = .done t)
    (finished' : walk size act stop limit fuel' p s = .done t') : t = t' := by
  have first := walk_more finished fuel'
  have second := walk_more finished' fuel
  rw [Nat.add_comm, first] at second
  exact Walk.done.inj second

/-- The walk comes to the end exactly when every record on the way moves it on. -/
theorem walk_done_iff : (∃ fuel t, walk size act stop limit fuel p s = .done t) ↔
    ∀ fuel, ∀ q ∈ recordsFrom size stop limit fuel p, Moves size limit q :=
  ⟨fun ⟨_, _, finished⟩ => walk_moves finished, fun moves => ⟨_, _, walk_finishes moves⟩⟩

end OsAudio.Lib

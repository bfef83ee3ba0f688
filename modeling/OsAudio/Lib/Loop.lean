import Mathlib.Tactic.Common

/-!
# Counting loops

`for (i = 0; i < n; i++)` over an explicit state, and the rule that proves an
assertion about the state after it from an assertion about each round.
-/
namespace OsAudio.Lib

/-- Runs `body 0`, `body 1`, …, `body (n - 1)` in this order. -/
def upTo {σ : Type*} : Nat → (Nat → σ → σ) → σ → σ
  | 0, _, s => s
  | n + 1, body, s => body n (upTo n body s)

theorem upTo_invariant {σ : Type*} {body : Nat → σ → σ} (inv : Nat → σ → Prop) {s : σ}
    (start : inv 0 s) (n : Nat) (round : ∀ i t, i < n → inv i t → inv (i + 1) (body i t)) :
    inv n (upTo n body s) := by
  induction n with
  | zero => exact start
  | succ n ih =>
    exact round n _ (Nat.lt_succ_self n) (ih fun i t below => round i t (by omega))

/-- Two loops in step. -/
theorem upTo_relation {σ τ : Type*} {body : Nat → σ → σ} {body' : Nat → τ → τ}
    (rel : Nat → σ → τ → Prop) {s : σ} {t : τ} (start : rel 0 s t) (n : Nat)
    (round : ∀ i s t, i < n → rel i s t → rel (i + 1) (body i s) (body' i t)) :
    rel n (upTo n body s) (upTo n body' t) := by
  induction n with
  | zero => exact start
  | succ n ih =>
    exact round n _ _ (Nat.lt_succ_self n) (ih fun i s t below => round i s t (by omega))

end OsAudio.Lib

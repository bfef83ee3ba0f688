import OsAudio.Lib.Prog

/-!
# Behaviours: what a machine may do, seen from above

A behaviour says which outcomes each call may have, on states that record only what matters
for a property.  It is a nondeterministic machine: what it leaves out of the state may turn
out in any way.  A program that ensures a property under a behaviour ensures it on every
machine that keeps to the behaviour, and a layer implemented by programs keeps to a behaviour
if each of its programs does.
-/
namespace OsAudio.Lib

/-- The outcomes that the calls of `S` may have. -/
abbrev Behaviour (S : Sig) (W σ : Type) := (op : S.Op) → σ → Outcome W σ (S.Res op) → Prop

def Outcome.map {W σ τ α : Type} (f : σ → τ) : Outcome W σ α → Outcome W τ α
  | .ok a s => .ok a (f s)
  | .stop w s => .stop w (f s)

/-- How a behaviour says that a call leaves the state as it was. -/
theorem idle {ρ σ : Type} {s : σ} (_ : ρ) (t : σ) (same : t = s) : t = s := same

namespace Prog
variable {S : Sig} {W σ α β : Type}

/-- Whatever the calls do within `beh`, the program ends with `Q` or stops for a reason in `E`. -/
def Ensures (beh : Behaviour S W σ) : Prog S W α → σ → (α → σ → Prop) → (W → Prop) → Prop
  | ret a, s, Q, _ => Q a s
  | stop w, _, _, E => E w
  | call op k, s, Q, E =>
    (∀ r t, beh op s (.ok r t) → (k r).Ensures beh t Q E) ∧ ∀ w t, beh op s (.stop w t) → E w

variable {beh : Behaviour S W σ} {Q : α → σ → Prop} {E : W → Prop} {s : σ}

theorem Ensures.ret {a : α} (post : Q a s) : Ensures beh (pure a) s Q E := post

theorem Ensures.stop {w : W} (allowed : E w) : Ensures beh (.stop w : Prog S W α) s Q E := allowed

theorem Ensures.op {c : S.Op} {Q : S.Res c → σ → Prop} (result : ∀ r t, beh c s (.ok r t) → Q r t)
    (stopped : ∀ w t, beh c s (.stop w t) → E w) : Ensures beh (Prog.op c) s Q E :=
  ⟨result, stopped⟩

theorem Ensures.bind {p : Prog S W β} {f : β → Prog S W α} {P : β → σ → Prop}
    (first : p.Ensures beh s P E) (rest : ∀ b t, P b t → (f b).Ensures beh t Q E) :
    (p >>= f).Ensures beh s Q E := by
  change (p.bind f).Ensures beh s Q E
  induction p generalizing s with
  | ret b => exact rest b s first
  | stop w => exact first
  | call op k ih => exact ⟨fun r t step => ih r (first.1 r t step), first.2⟩

/-- A program that ends in a state known from its result, and then the rest. -/
theorem Ensures.to {p : Prog S W β} {f : β → Prog S W α} {g : β → σ}
    (first : p.Ensures beh s (fun b t => t = g b) E) (rest : ∀ b, (f b).Ensures beh (g b) Q E) :
    (p >>= f).Ensures beh s Q E :=
  first.bind fun b _ same => same ▸ rest b

/-- A call that leaves the state as it was, and then the rest. -/
theorem Ensures.skip {c : S.Op} {k : S.Res c → Prog S W α}
    (same : ∀ r t, beh c s (.ok r t) → t = s) (rest : ∀ r, (k r).Ensures beh s Q fun _ => True) :
    (Prog.op c >>= k).Ensures beh s Q fun _ => True :=
  ⟨fun r t step => same r t step ▸ rest r, fun _ _ _ => trivial⟩

theorem Ensures.weaken {p : Prog S W α} {Q' : α → σ → Prop} {E' : W → Prop}
    (ensures : p.Ensures beh s Q E) (result : ∀ a t, Q a t → Q' a t) (stopped : ∀ w, E w → E' w) :
    p.Ensures beh s Q' E' := by
  induction p generalizing s with
  | ret a => exact result a s ensures
  | stop w => exact stopped w ensures
  | call op k ih =>
    exact ⟨fun r t step => ih r (ensures.1 r t step), fun w t step => stopped w (ensures.2 w t step)⟩

theorem Ensures.mono {p : Prog S W α} {Q' : α → σ → Prop} (ensures : p.Ensures beh s Q E)
    (result : ∀ a t, Q a t → Q' a t) : p.Ensures beh s Q' E :=
  ensures.weaken result fun _ allowed => allowed

/-- Whatever the calls do, the program leaves what `view` shows as it was, if it ends at all. -/
def Preserves {υ : Type} (beh : Behaviour S W σ) (view : σ → υ) (p : Prog S W α) : Prop :=
  ∀ s, p.Ensures beh s (fun _ t => view t = view s) fun _ => True

section Preserves
variable {υ : Type} {view : σ → υ}

theorem Preserves.ret (a : α) : Preserves beh view (pure a : Prog S W α) := fun _ => rfl

theorem Preserves.stop (w : W) : Preserves beh view (.stop w : Prog S W α) := fun _ => trivial

theorem Preserves.bind {p : Prog S W α} {f : α → Prog S W β} (first : p.Preserves beh view)
    (rest : ∀ a, (f a).Preserves beh view) : (p >>= f).Preserves beh view := by
  intro s
  refine (first s).bind fun a t kept => ?_
  exact (rest a t).mono fun b u later => later.trans kept

theorem Preserves.op {c : S.Op} (same : ∀ {s} r t, beh c s (.ok r t) → t = s) :
    (Prog.op c).Preserves beh view :=
  fun _ => ⟨fun r t step => congrArg view (same r t step), fun _ _ _ => trivial⟩

theorem Preserves.skip {c : S.Op} {k : S.Res c → Prog S W α}
    (same : ∀ {s} r t, beh c s (.ok r t) → t = s) (rest : ∀ r, (k r).Preserves beh view) :
    (Prog.op c >>= k).Preserves beh view :=
  (Preserves.op same).bind rest

theorem Preserves.ite {c : Prop} [Decidable c] {p q : Prog S W α} (yes : p.Preserves beh view)
    (no : q.Preserves beh view) : (if c then p else q).Preserves beh view := by
  split
  · exact yes
  · exact no

/-- The rule for a program that preserves the view as the first part of a sequence. -/
theorem Preserves.then {p : Prog S W β} {f : β → Prog S W α} {Q : α → σ → Prop} {s : σ}
    (first : p.Preserves beh view)
    (rest : ∀ b t, view t = view s → (f b).Ensures beh t Q fun _ => True) :
    (p >>= f).Ensures beh s Q fun _ => True :=
  (first s).bind rest

end Preserves

end Prog

namespace Machine
variable {S T : Sig} {W σ τ υ α : Type}

/-- `M` keeps to `beh` on what `view` shows of its states. -/
def Keeps (M : Machine S W τ) (beh : Behaviour S W σ) (view : τ → σ) : Prop :=
  ∀ op s, beh op (view s) ((M op s).map view)

theorem Keeps.run {M : Machine S W τ} {beh : Behaviour S W σ} {view : τ → σ}
    (keeps : M.Keeps beh view) {p : Prog S W α} {s : τ} {Q : α → σ → Prop} {E : W → Prop}
    (ensures : p.Ensures beh (view s) Q E) :
    M.Wp p s (fun a t => Q a (view t)) fun w _ => E w := by
  induction p generalizing s with
  | ret a => exact ensures
  | stop w => exact ensures
  | call op k ih =>
    have step := keeps op s
    unfold Wp
    simp only [Machine.run]
    cases done : M op s with
    | ok r t =>
      rw [done] at step
      exact ih r (ensures.1 r _ step)
    | stop w t =>
      rw [done] at step
      exact ensures.2 w _ step

/-- A layer keeps to a behaviour if the program of each of its calls does. -/
theorem Keeps.through {M : Machine S W τ} {beh : Behaviour S W σ} {view : τ → σ}
    (keeps : M.Keeps beh view) {impl : (op : T.Op) → Prog S W (T.Res op)}
    {beh' : Behaviour T W υ} {view' : σ → υ}
    (programs : ∀ op s, (impl op).Ensures beh s (fun r t => beh' op (view' s) (.ok r (view' t)))
      fun w => ∀ t, beh' op (view' s) (.stop w t)) :
    (M.through impl).Keeps beh' (view' ∘ view) := by
  intro op s
  have sat := keeps.run (programs op (view s))
  unfold Wp at sat
  unfold Machine.through
  cases done : M.run (impl op) s with
  | ok r t =>
    rw [done] at sat
    exact sat
  | stop w t =>
    rw [done] at sat
    exact sat (view' (view t))

end Machine

end OsAudio.Lib

import Mathlib.Tactic.Common

/-!
# Programs over an interface, machines and refinement

A program is a tree of calls to an interface `S`; what the calls do is said by a machine,
a function from calls and states to outcomes.  An outcome is a result with a new state,
or a stop (a panic, a wait that nobody ends) with a reason.  One layer of a system is
implemented on another by giving a program for each of its calls.

The refinement rule is proved once, for all programs: a relation between the states of
two machines that every single call preserves is preserved by every program.
-/
namespace OsAudio.Lib

/-- An interface: its calls and the type each call returns. -/
structure Sig where
  Op : Type
  Res : Op → Type

/-- Programs over `S` that may stop for a reason in `W`. -/
inductive Prog (S : Sig) (W α : Type) : Type
  | ret (a : α)
  | stop (w : W)
  | call (op : S.Op) (k : S.Res op → Prog S W α)

namespace Prog
variable {S T : Sig} {W α β γ : Type}

def bind : Prog S W α → (α → Prog S W β) → Prog S W β
  | ret a, f => f a
  | stop w, _ => stop w
  | call op k, f => call op fun r => (k r).bind f

instance : Monad (Prog S W) where
  pure := ret
  bind := bind

theorem bind_bind (p : Prog S W α) (f : α → Prog S W β) (g : β → Prog S W γ) :
    (p.bind f).bind g = p.bind fun a => (f a).bind g := by
  induction p with
  | ret a => rfl
  | stop w => rfl
  | call op k ih => exact congrArg (call op) (funext ih)

theorem bind_ret (p : Prog S W α) : p.bind ret = p := by
  induction p with
  | ret a => rfl
  | stop w => rfl
  | call op k ih => exact congrArg (call op) (funext ih)

instance : LawfulMonad (Prog S W) :=
  LawfulMonad.mk' _ bind_ret (fun _ _ => rfl) bind_bind

/-- A single call. -/
def op (c : S.Op) : Prog S W (S.Res c) := call c ret

/-- Replaces every call of an upper interface by the program that implements it. -/
def expand (impl : (op : T.Op) → Prog S W (T.Res op)) : Prog T W α → Prog S W α
  | ret a => ret a
  | stop w => stop w
  | call op k => (impl op).bind fun r => (k r).expand impl

theorem expand_bind (impl : (op : T.Op) → Prog S W (T.Res op)) (p : Prog T W α) (f : α → Prog T W β) :
    (p >>= f).expand impl = p.expand impl >>= fun a => (f a).expand impl := by
  change (p.bind f).expand impl = (p.expand impl).bind fun a => (f a).expand impl
  induction p with
  | ret a => rfl
  | stop w => rfl
  | call op k ih =>
    simp only [bind, expand, bind_bind]
    exact congrArg _ (funext ih)

theorem expand_op (impl : (op : T.Op) → Prog S W (T.Res op)) (c : T.Op) :
    (op c : Prog T W (T.Res c)).expand impl = impl c := bind_ret (impl c)

end Prog

inductive Outcome (W σ α : Type) : Type
  | ok (a : α) (s : σ)
  | stop (w : W) (s : σ)

namespace Outcome
variable {W σ τ α β : Type}

/-- `Q` holds of the result, or `E` of the reason for stopping. -/
def Sat (o : Outcome W σ α) (Q : α → σ → Prop) (E : W → σ → Prop) : Prop :=
  match o with
  | ok a s => Q a s
  | stop w s => E w s

variable {o : Outcome W σ α}

theorem Sat.mono {Q Q' : α → σ → Prop} {E E' : W → σ → Prop}
    (sat : o.Sat Q E) (result : ∀ a s, Q a s → Q' a s) (stopped : ∀ w s, E w s → E' w s) :
    o.Sat Q' E' := by
  cases o with
  | ok a s => exact result a s sat
  | stop w s => exact stopped w s sat

/-- The reason for stopping, if the outcome is a stop. -/
def reason : Outcome W σ α → Option W
  | ok _ _ => none
  | stop w _ => some w

def state : Outcome W σ α → σ
  | ok _ s => s
  | stop _ s => s

def result : Outcome W σ α → Option α
  | ok a _ => some a
  | stop _ _ => none

theorem eq_ok_of_result {a : α} (returned : o.result = some a) :
    o = .ok a o.state := by
  cases o with
  | ok b s => rw [Option.some.inj returned]; rfl
  | stop w s => cases returned

theorem ok_of_isSome (returned : o.result.isSome = true) :
    ∃ a, o = .ok a o.state := by
  cases o with
  | ok a s => exact ⟨a, rfl⟩
  | stop w s => cases returned

end Outcome

/-- What the calls of `S` do on states in `σ`. -/
abbrev Machine (S : Sig) (W σ : Type) := (op : S.Op) → σ → Outcome W σ (S.Res op)

namespace Machine
variable {S T : Sig} {W σ τ α β : Type}

def run (M : Machine S W σ) : Prog S W α → σ → Outcome W σ α
  | .ret a, s => .ok a s
  | .stop w, s => .stop w s
  | .call op k, s =>
    match M op s with
    | .ok r t => run M (k r) t
    | .stop w t => .stop w t

/-- The machine of an upper interface that is implemented on `M`. -/
def through (impl : (op : T.Op) → Prog S W (T.Res op)) (M : Machine S W σ) : Machine T W σ :=
  fun op s => M.run (impl op) s

/-- The calls a program makes, in order, with the states they are made in. -/
def trace (M : Machine S W σ) : Prog S W α → σ → List (S.Op × σ)
  | .ret _, _ => []
  | .stop _, _ => []
  | .call op k, s =>
    (op, s) ::
      match M op s with
      | .ok r t => trace M (k r) t
      | .stop _ _ => []

variable {M : Machine S W σ}

@[simp] theorem run_pure (a : α) (s : σ) : M.run (pure a : Prog S W α) s = .ok a s := rfl

@[simp] theorem run_ret (a : α) (s : σ) : M.run (.ret a : Prog S W α) s = .ok a s := rfl

@[simp] theorem run_stop (w : W) (s : σ) : M.run (.stop w : Prog S W α) s = .stop w s := rfl

@[simp] theorem run_op (c : S.Op) (s : σ) : M.run (Prog.op c) s = M c s := by
  simp only [Prog.op, run]
  cases M c s <;> rfl

theorem run_bind (p : Prog S W α) (f : α → Prog S W β) (s : σ) :
    M.run (p >>= f) s =
      match M.run p s with
      | .ok a t => M.run (f a) t
      | .stop w t => .stop w t := by
  change M.run (p.bind f) s = _
  induction p generalizing s with
  | ret a => rfl
  | stop w => rfl
  | call op k ih =>
    simp only [Prog.bind, run]
    cases M op s with
    | ok r t => exact ih r t
    | stop w t => rfl

variable {p : Prog S W α} {f : α → Prog S W β} {s t : σ}

theorem run_bind_ok {a : α}
    (first : M.run p s = .ok a t) : M.run (p >>= f) s = M.run (f a) t := by
  rw [run_bind, first]

theorem run_bind_stop {w : W}
    (first : M.run p s = .stop w t) : M.run (p >>= f) s = .stop w t := by
  rw [run_bind, first]

theorem run_expand (impl : (op : T.Op) → Prog S W (T.Res op)) (p : Prog T W α) (s : σ) :
    M.run (p.expand impl) s = (M.through impl).run p s := by
  induction p generalizing s with
  | ret a => rfl
  | stop w => rfl
  | call op k ih =>
    have step := run_bind (M := M) (impl op) (fun r => (k r).expand impl) s
    simp only [Prog.expand, run, through]
    refine step.trans ?_
    cases M.run (impl op) s with
    | ok r t => exact ih r t
    | stop w t => rfl

theorem trace_bind (p : Prog S W α) (f : α → Prog S W β) (s : σ) :
    M.trace (p >>= f) s = M.trace p s ++
      match M.run p s with
      | .ok a t => M.trace (f a) t
      | .stop _ _ => [] := by
  change M.trace (p.bind f) s = _
  induction p generalizing s with
  | ret a => rfl
  | stop w => rfl
  | call op k ih =>
    simp only [Prog.bind, run, trace, List.cons_append]
    cases M op s with
    | ok r t => exact congrArg _ (ih r t)
    | stop w t => rfl

/-- `p` runs from `s` to the result `a` and state `t`, by calls in `calm` only. -/
structure Passes (M : Machine S W σ) (calm : S.Op → σ → Prop) (p : Prog S W α) (s : σ) (a : α)
    (t : σ) : Prop where
  run : M.run p s = .ok a t
  calls : ∀ e ∈ M.trace p s, calm e.1 e.2

/-- `p` makes calls in `calm` and then one in `target`. -/
def Leads (M : Machine S W σ) (calm target : S.Op → σ → Prop) (p : Prog S W α) (s : σ) : Prop :=
  ∃ before op u after, M.trace p s = before ++ (op, u) :: after ∧ (∀ e ∈ before, calm e.1 e.2) ∧
    target op u

section Traces
variable {calm target : S.Op → σ → Prop} {p : Prog S W α} {f : α → Prog S W β} {s t u : σ}

theorem Passes.ret (a : α) (s : σ) : M.Passes calm (pure a) s a s :=
  ⟨rfl, fun _ member => nomatch member⟩

theorem trace_op (c : S.Op) (s : σ) : M.trace (Prog.op c : Prog S W _) s = [(c, s)] := by
  simp only [Prog.op, trace]
  cases M c s <;> rfl

theorem Passes.op {c : S.Op} {r : S.Res c} (fits : calm c s) (done : M c s = .ok r t) :
    M.Passes calm (Prog.op c) s r t := by
  refine ⟨(run_op c s).trans done, ?_⟩
  rw [trace_op]
  intro e member
  rwa [List.mem_singleton.mp member]

theorem Passes.bind {a : α} {b : β} (first : M.Passes calm p s a t)
    (rest : M.Passes calm (f a) t b u) : M.Passes calm (p >>= f) s b u := by
  refine ⟨(run_bind_ok first.run).trans rest.run, ?_⟩
  rw [trace_bind, first.run]
  intro e member
  rcases List.mem_append.mp member with early | late
  · exact first.calls e early
  · exact rest.calls e late

theorem Leads.op {c : S.Op} (hit : target c s) : M.Leads calm target (Prog.op c : Prog S W _) s :=
  ⟨[], c, s, [], trace_op c s, fun _ member => (nomatch member), hit⟩

theorem Leads.bind (first : M.Leads calm target p s) : M.Leads calm target (p >>= f) s := by
  obtain ⟨before, op, v, after, trace, calls, hit⟩ := first
  obtain ⟨more, longer⟩ : ∃ more, M.trace (p >>= f) s = M.trace p s ++ more := ⟨_, trace_bind p f s⟩
  refine ⟨before, op, v, after ++ more, ?_, calls, hit⟩
  rw [longer, trace, List.append_assoc, List.cons_append]

end Traces

/-! ## Assertions about runs -/

/-- Running `p` from `s` ends in a result satisfying `Q` or stops for a reason satisfying
`E`. -/
def Wp (M : Machine S W σ) (p : Prog S W α) (s : σ) (Q : α → σ → Prop) (E : W → σ → Prop) : Prop :=
  (M.run p s).Sat Q E

section Wp
variable {Q : α → σ → Prop} {E : W → σ → Prop} {s : σ}

theorem Wp.ret {a : α} (post : Q a s) : M.Wp (pure a) s Q E := post

theorem Wp.stop {w : W} (allowed : E w s) : M.Wp (.stop w : Prog S W α) s Q E := allowed

theorem Wp.op {c : S.Op} {Q : S.Res c → σ → Prop} (sat : (M c s).Sat Q E) :
    M.Wp (Prog.op c) s Q E := by
  unfold Wp
  rwa [run_op]

theorem Wp.bind {p : Prog S W β} {f : β → Prog S W α} {P : β → σ → Prop}
    (first : M.Wp p s P E) (rest : ∀ b t, P b t → M.Wp (f b) t Q E) : M.Wp (p >>= f) s Q E := by
  unfold Wp at first ⊢
  rw [run_bind]
  match M.run p s, first with
  | .ok b t, first => exact rest b t first
  | .stop w t, first => exact first

/-- The rule for sequences when the first program's rule takes any postcondition. -/
theorem Wp.seq {p : Prog S W β} {f : β → Prog S W α}
    (first : M.Wp p s (fun b t => M.Wp (f b) t Q E) E) : M.Wp (p >>= f) s Q E :=
  Wp.bind first fun _ _ rest => rest

variable {p : Prog S W α}

theorem Wp.mono {Q' : α → σ → Prop} (sat : M.Wp p s Q E)
    (result : ∀ a t, Q a t → Q' a t) : M.Wp p s Q' E :=
  Outcome.Sat.mono sat result fun _ _ stopped => stopped

theorem Wp.weaken {E' : W → σ → Prop} (sat : M.Wp p s Q E)
    (stopped : ∀ w t, E w t → E' w t) : M.Wp p s Q E' :=
  Outcome.Sat.mono sat (fun _ _ result => result) stopped

/-- A run that ends in a result satisfies the assertion's result part. -/
theorem Wp.of_ok {a : α} {t : σ} (sat : M.Wp p s Q E)
    (done : M.run p s = .ok a t) : Q a t := by
  unfold Wp at sat
  rwa [done] at sat

theorem Wp.any (p : Prog S W α) (s : σ) : M.Wp p s (fun _ _ => True) fun _ _ => True := by
  unfold Wp
  cases M.run p s with
  | ok a t => trivial
  | stop w t => trivial

/-- A run that may not stop ends in a result. -/
theorem Wp.returns (sat : M.Wp p s Q fun _ _ => False) :
    ∃ a t, M.run p s = .ok a t ∧ Q a t := by
  unfold Wp at sat
  match M.run p s, sat with
  | .ok a t, sat => exact ⟨a, t, rfl, sat⟩
  | .stop w t, sat => exact sat.elim

end Wp

/-- Running `p` from `s` makes calls in `calm` only, and ends in a result satisfying `Q` or stops
for a reason satisfying `E`. -/
structure Confined (M : Machine S W σ) (calm : S.Op → Prop) (p : Prog S W α) (s : σ)
    (Q : α → σ → Prop) (E : W → σ → Prop) : Prop where
  calls : ∀ e ∈ M.trace p s, calm e.1
  wp : M.Wp p s Q E

section Confined
variable {calm : S.Op → Prop} {Q : α → σ → Prop} {E : W → σ → Prop} {s : σ}

theorem Confined.ret {a : α} (post : Q a s) : M.Confined calm (pure a) s Q E :=
  ⟨fun _ member => (nomatch member), Wp.ret post⟩

theorem Confined.stop {w : W} (allowed : E w s) : M.Confined calm (.stop w : Prog S W α) s Q E :=
  ⟨fun _ member => (nomatch member), Wp.stop allowed⟩

theorem Confined.op {c : S.Op} {Q : S.Res c → σ → Prop} (fits : calm c)
    (sat : M.Wp (Prog.op c) s Q E) : M.Confined calm (Prog.op c) s Q E := by
  refine ⟨fun e member => ?_, sat⟩
  rw [trace_op] at member
  rwa [List.mem_singleton.mp member]

theorem Confined.bind {p : Prog S W β} {f : β → Prog S W α} {P : β → σ → Prop}
    (first : M.Confined calm p s P E) (rest : ∀ b t, P b t → M.Confined calm (f b) t Q E) :
    M.Confined calm (p >>= f) s Q E := by
  refine ⟨fun e member => ?_, first.wp.bind fun b t holds => (rest b t holds).wp⟩
  rw [trace_bind] at member
  rcases List.mem_append.mp member with early | late
  · exact first.calls e early
  · cases outcome : M.run p s with
    | ok b t =>
      rw [outcome] at late
      exact (rest b t (first.wp.of_ok outcome)).calls e late
    | stop w t =>
      rw [outcome] at late
      nomatch late

theorem Confined.seq {p : Prog S W β} {f : β → Prog S W α}
    (first : M.Confined calm p s (fun b t => M.Confined calm (f b) t Q E) E) :
    M.Confined calm (p >>= f) s Q E :=
  first.bind fun _ _ rest => rest

/-- The rule for a call of an upper layer, replaced by its program. -/
theorem Confined.expand {impl : (op : T.Op) → Prog S W (T.Res op)} {c : T.Op}
    {f : T.Res c → Prog T W α}
    (first : M.Confined calm (impl c) s (fun r t => M.Confined calm ((f r).expand impl) t Q E) E) :
    M.Confined calm ((Prog.op c >>= f).expand impl) s Q E := by
  rw [Prog.expand_bind, Prog.expand_op]
  exact .seq first

variable {p : Prog S W α}

theorem Confined.mono {Q' : α → σ → Prop} (confined : M.Confined calm p s Q E)
    (result : ∀ a t, Q a t → Q' a t) : M.Confined calm p s Q' E :=
  ⟨confined.calls, confined.wp.mono result⟩

theorem Confined.weaken {E' : W → σ → Prop} (confined : M.Confined calm p s Q E)
    (stopped : ∀ w t, E w t → E' w t) : M.Confined calm p s Q E' :=
  ⟨confined.calls, confined.wp.weaken stopped⟩

/-- What every call in `calm` keeps holds after a run of such calls. -/
theorem Confined.keeps {I : σ → Prop} {a : α} {t : σ} (confined : M.Confined calm p s Q E)
    (step : ∀ c u r u', calm c → I u → M c u = .ok r u' → I u') (start : I s)
    (done : M.run p s = .ok a t) : I t := by
  have calls := confined.calls
  clear confined
  induction p generalizing s with
  | ret b =>
    cases done
    exact start
  | stop w => cases done
  | call c k ih =>
    simp only [Machine.trace, List.mem_cons] at calls
    simp only [Machine.run] at done
    cases first : M c s with
    | stop w u =>
      rw [first] at done
      cases done
    | ok r u =>
      rw [first] at done calls
      refine ih r ?_ done fun e inside => calls e (Or.inr inside)
      exact step c s r u (calls (c, s) (Or.inl rfl)) start first

end Confined

end Machine

/-! ## Refinement -/

/-- How the outcome of a concrete call matches that of an abstract one.  `Rs` relates the
states at a common stop, `own` are the reasons for which the concrete side may stop alone,
and an abstract stop for a reason in `excuse` promises nothing. -/
def Outcome.Matches {W σ τ α : Type} (R Rs : σ → τ → Prop) (own excuse : W → Prop) :
    Outcome W σ α → Outcome W τ α → Prop
  | .ok a s, .ok b t => a = b ∧ R s t
  | .ok _ _, .stop v _ => excuse v
  | .stop w _, .ok _ _ => own w
  | .stop w s, .stop v t => (w = v ∧ Rs s t) ∨ own w ∨ excuse v

namespace Outcome
variable {W σ τ υ α : Type} {R Rs : σ → τ → Prop} {own excuse : W → Prop} {o : Outcome W σ α} {q : Outcome W τ α}

theorem Matches.weaken {Rs' : σ → τ → Prop} {own' : W → Prop} (matched : o.Matches R Rs own excuse q)
    (states : ∀ s t, Rs s t → Rs' s t) (reasons : ∀ w, own w → own' w) :
    o.Matches R Rs' own' excuse q := by
  match o, q, matched with
  | .ok .., .ok .., matched => exact matched
  | .ok .., .stop .., matched => exact matched
  | .stop w _, .ok .., matched => exact reasons w matched
  | .stop w _, .stop .., matched =>
    exact matched.imp (And.imp_right (states _ _)) (Or.imp_left (reasons w))

/-- A stop with an excuse matches anything. -/
theorem Matches.excused (o : Outcome W σ α) {v : W} (excused : excuse v) (t : τ) :
    o.Matches R Rs own excuse (.stop v t) := by
  cases o with
  | ok a s => exact excused
  | stop w s => exact Or.inr (Or.inr excused)

theorem Matches.trans {Q Qs : υ → σ → Prop} {own' : W → Prop} {u : Outcome W υ α}
    (left : u.Matches Q Qs own' excuse o) (right : o.Matches R Rs own excuse q)
    (apart : ∀ w, own w → ¬ excuse w) :
    u.Matches (fun u t => ∃ s, Q u s ∧ R s t) (fun u t => ∃ s, Qs u s ∧ Rs s t)
      (fun w => own' w ∨ own w) excuse q := by
  match u, o, q, left, right with
  | .ok .., .ok _ s, .ok .., left, right => exact ⟨left.1.trans right.1, s, left.2, right.2⟩
  | .ok .., .ok .., .stop .., _, right => exact right
  | .ok .., .stop v _, .ok .., left, right => exact absurd left (apart v right)
  | .ok .., .stop v _, .stop .., left, right =>
    rcases right with ⟨rfl, -⟩ | alone | excused
    · exact left
    · exact absurd left (apart v alone)
    · exact excused
  | .stop .., .ok .., .ok .., left, _ => exact Or.inl left
  | .stop .., .ok .., .stop .., _, right => exact Or.inr (Or.inr right)
  | .stop .., .stop v _, .ok .., left, right =>
    rcases left with ⟨rfl, -⟩ | alone | excused
    · exact Or.inr right
    · exact Or.inl alone
    · exact absurd excused (apart v right)
  | .stop .., .stop v s, .stop .., left, right =>
    rcases left with ⟨rfl, states⟩ | alone | excused
    · exact right.imp (fun same => ⟨same.1, s, states, same.2⟩) (Or.imp_left Or.inr)
    · exact Or.inr (Or.inl (Or.inl alone))
    · rcases right with ⟨rfl, -⟩ | alone | excused'
      · exact Or.inr (Or.inr excused)
      · exact absurd excused (apart v alone)
      · exact Or.inr (Or.inr excused')

end Outcome

namespace Machine
variable {S T : Sig} {W σ τ α : Type}

/-- Every call of `M` matches the same call of `N` from related states. -/
def Refines (M : Machine S W σ) (N : Machine S W τ) (R Rs : σ → τ → Prop)
    (own excuse : W → Prop) : Prop :=
  ∀ op s t, R s t → (M op s).Matches R Rs own excuse (N op t)

variable {M : Machine S W σ} {N : Machine S W τ} {R Rs : σ → τ → Prop} {own excuse : W → Prop}

variable {s : σ} {t : τ} {p : Prog S W α} {a : α}

/-- The refinement rule: what holds call by call holds for every program. -/
theorem Refines.run (refines : M.Refines N R Rs own excuse) (atRest : ∀ s t, R s t → Rs s t)
    (p : Prog S W α) (related : R s t) :
    (M.run p s).Matches R Rs own excuse (N.run p t) := by
  induction p generalizing s t with
  | ret a => exact ⟨rfl, related⟩
  | stop w => exact Or.inl ⟨rfl, atRest s t related⟩
  | call op k ih =>
    have step := refines op s t related
    simp only [Machine.run]
    match M op s, N op t, step with
    | .ok r s', .ok r' t', ⟨same, next⟩ =>
      subst same
      exact ih r next
    | .ok r s', .stop v t', step =>
      dsimp only
      cases M.run (k r) s' with
      | ok a u => exact step
      | stop w u => exact Or.inr (Or.inr step)
    | .stop w s', .ok r' t', step =>
      dsimp only
      cases N.run (k r') t' with
      | ok a u => exact step
      | stop v u => exact Or.inr (Or.inl step)
    | .stop w s', .stop v t', step => exact step

theorem Refines.weaken (refines : M.Refines N R Rs own excuse) {Rs' : σ → τ → Prop}
    {own' : W → Prop} (states : ∀ s t, Rs s t → Rs' s t) (reasons : ∀ w, own w → own' w) :
    M.Refines N R Rs' own' excuse :=
  fun op s t related => (refines op s t related).weaken states reasons

/-- What an assertion about the abstract machine says about a concrete run that returns. -/
theorem Refines.of_ok (refines : M.Refines N R Rs own excuse) (atRest : ∀ s t, R s t → Rs s t)
    {s' : σ} {Q : α → τ → Prop} {E : W → τ → Prop}
    (related : R s t) (asserts : N.Wp p t Q E) (answers : ∀ w u, E w u → ¬ excuse w)
    (done : M.run p s = .ok a s') : ∃ t', N.run p t = .ok a t' ∧ Q a t' ∧ R s' t' := by
  have matched := refines.run atRest p related
  rw [done] at matched
  unfold Wp at asserts
  match N.run p t, matched, asserts with
  | .ok b u, ⟨same, next⟩, asserts => exact ⟨u, by rw [same], same ▸ asserts, next⟩
  | .stop w u, matched, asserts => exact absurd matched (answers w u asserts)

/-- What the abstract machine returns, the concrete one returns, if it never stops alone. -/
theorem Refines.returns (refines : M.Refines N R Rs (fun _ => False) excuse)
    (atRest : ∀ s t, R s t → Rs s t) {t' : τ} (related : R s t)
    (done : N.run p t = .ok a t') : ∃ s', M.run p s = .ok a s' ∧ R s' t' := by
  have matched := refines.run atRest p related
  rw [done] at matched
  match M.run p s, matched with
  | .ok b u, ⟨same, next⟩ => exact ⟨u, by rw [same], next⟩
  | .stop w u, matched => exact matched.elim

/-- Where the abstract machine stops without an excuse, the concrete one stops for the same reason. -/
theorem Refines.stops (refines : M.Refines N R Rs (fun _ => False) excuse)
    (atRest : ∀ s t, R s t → Rs s t) {w : W} {t' : τ} (related : R s t)
    (stopped : N.run p t = .stop w t') (answers : ¬ excuse w) : (M.run p s).reason = some w := by
  have matched := refines.run atRest p related
  rw [stopped] at matched
  match M.run p s, matched with
  | .ok .., excused => exact absurd excused answers
  | .stop .., matched =>
    rcases matched with ⟨rfl, -⟩ | impossible | excused
    · rfl
    · exact impossible.elim
    · exact absurd excused answers

/-- Refinements compose, if the middle machine never stops alone with an excuse. -/
theorem Refines.trans {υ : Type} {L : Machine S W υ} {Q Qs : υ → σ → Prop} {own' : W → Prop}
    (lower : L.Refines M Q Qs own' excuse) (upper : M.Refines N R Rs own excuse)
    (apart : ∀ w, own w → ¬ excuse w) :
    L.Refines N (fun u t => ∃ s, Q u s ∧ R s t) (fun u t => ∃ s, Qs u s ∧ Rs s t)
      (fun w => own' w ∨ own w) excuse :=
  fun op u t ⟨s, first, second⟩ => (lower op u s first).trans (upper op s t second) apart

/-- Two implementations by the same programs on related machines are related. -/
theorem Refines.through (refines : M.Refines N R Rs own excuse) (atRest : ∀ s t, R s t → Rs s t)
    (impl : (op : T.Op) → Prog S W (T.Res op)) :
    (M.through impl).Refines (N.through impl) R Rs own excuse :=
  fun op _ _ related => refines.run atRest (impl op) related

/-- The machine on which the calls outside of `calm` stop. -/
def only (N : Machine S W τ) (calm : S.Op → Bool) (w : W) : Machine S W τ :=
  fun op t => if calm op then N op t else .stop w t

/-- A machine that matches another on some calls refines the one that has those calls only. -/
theorem Refines.only {calm : S.Op → Bool} {w : W} (excused : excuse w)
    (matched : ∀ op s t, calm op = true → R s t → (M op s).Matches R Rs own excuse (N op t)) :
    M.Refines (N.only calm w) R Rs own excuse := by
  intro op s t related
  unfold Machine.only
  split
  · next inside => exact matched op s t inside related
  · exact .excused _ excused _

/-- The concrete program makes the calls of the abstract one, unless the abstract program stops
with an excuse. -/
theorem Refines.calls (refines : M.Refines N R Rs own excuse) {calm : S.Op → Prop}
    (related : R s t)
    (confined : N.Confined calm p t (fun _ _ => True) fun w _ => ¬ excuse w) :
    ∀ e ∈ M.trace p s, calm e.1 := by
  obtain ⟨calls, clean⟩ := confined
  induction p generalizing s t with
  | ret a => exact fun _ member => nomatch member
  | stop w => exact fun _ member => nomatch member
  | call op k ih =>
    intro e member
    simp only [Machine.trace, List.mem_cons] at calls member
    rcases member with rfl | late
    · exact calls (op, t) (Or.inl rfl)
    have step := refines op s t related
    cases left : M op s with
    | stop w s' =>
      rw [left] at late
      nomatch late
    | ok r s' =>
      rw [left] at step late
      simp only [Wp, Machine.run] at clean
      cases right : N op t with
      | stop v t' =>
        rw [right] at step clean
        exact absurd step clean
      | ok r' t' =>
        rw [right] at step clean calls
        obtain ⟨rfl, next⟩ := step
        exact ih r next (fun e inside => calls e (Or.inr inside)) clean e late

/-- A run whose calls keep to a discipline under which the abstract machine has no excuse. -/
theorem Refines.guarded (refines : M.Refines N R Rs own excuse) {proper : S.Op → σ → Prop}
    (answers : ∀ op s t, R s t → proper op s → ∀ v u, N op t = .stop v u → ¬ excuse v)
    {s' : σ} (related : R s t)
    (all : ∀ e ∈ M.trace p s, proper e.1 e.2) (done : M.run p s = .ok a s') :
    ∃ t', N.run p t = .ok a t' ∧ R s' t' := by
  induction p generalizing s t with
  | ret b =>
    cases done
    exact ⟨t, rfl, related⟩
  | stop w => cases done
  | call op k ih =>
    have step := refines op s t related
    simp only [Machine.trace, List.mem_cons] at all
    simp only [Machine.run] at done ⊢
    cases left : M op s with
    | stop w u =>
      rw [left] at done
      cases done
    | ok r u =>
      rw [left] at step done all
      cases right : N op t with
      | stop v t' =>
        rw [right] at step
        exact absurd step (answers op s t related (all (op, s) (Or.inl rfl)) v t' right)
      | ok r' t' =>
        rw [right] at step
        obtain ⟨rfl, next⟩ := step
        exact ih r next (fun e inside => all e (Or.inr inside)) done

end Machine

end OsAudio.Lib

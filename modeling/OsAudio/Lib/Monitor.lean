import Mathlib.Logic.Function.Basic
import Mathlib.Tactic.Common

/-!
# Threads with locks, sleep and wakeup

Any number of threads run the same code over shared data.  An instruction takes or drops a
lock, sleeps on a channel, wakes up the sleepers of a channel, acts on the data, or goes on at
one of several points.  Falling asleep and dropping the lock is one step; a thread that was woken
up takes the lock again before it goes on.

Three rules are proved for every run: the lock discipline (`Reach.owner`), assertions at program
points that other threads do not disturb (`Reach.annotated`), and that no wakeup is lost
(`Reach.no_lost_wakeup`).
-/
namespace OsAudio.Lib

open Function (update update_self update_of_ne)

/-- What a thread does at a program point. -/
inductive Instr (T P D L C : Type) : Type
  | acquire (lock : L) (next : P)
  | release (lock : L) (next : P)
  | sleep (chan : C) (lock : L) (next : P)
  | wakeup (chan : C) (next : P)
  /-- An atomic action of the thread; where it has no result the thread does not go on. -/
  | act (effect : T → D → Option (D × P))
  | branch (targets : P → Prop)

/-- The points at which an instruction that leaves the data alone may go on. -/
def Instr.Jumps {T P D L C : Type} : Instr T P D L C → P → Prop
  | .acquire _ next, q => q = next
  | .release _ next, q => q = next
  | .sleep _ _ next, q => q = next
  | .wakeup _ next, q => q = next
  | .act _, _ => False
  | .branch targets, q => targets q

/-- A thread runs at a point, sleeps in the instruction at a point, or was woken up there. -/
inductive Status (P C : Type) : Type
  | running (point : P)
  | asleep (chan : C) (point : P)
  | woken (point : P)

namespace Status
variable {P C L : Type}

def point : Status P C → P
  | running p => p
  | asleep _ p => p
  | woken p => p

def wake [DecidableEq C] (chan : C) : Status P C → Status P C
  | running p => running p
  | asleep c p => if c = chan then woken p else asleep c p
  | woken p => woken p

/-- The lock a thread holds, when `held` is the lock held at each point. -/
def lock (held : P → Option L) : Status P C → Option L
  | running p => held p
  | asleep _ _ => none
  | woken _ => none

variable [DecidableEq C] {chan c : C} {p : P} {s : Status P C}

@[simp] theorem point_wake : (s.wake chan).point = s.point := by
  cases s with
  | running p => rfl
  | asleep c p =>
    simp only [wake]
    split <;> rfl
  | woken p => rfl

@[simp] theorem lock_wake (held : P → Option L) : (s.wake chan).lock held = s.lock held := by
  cases s with
  | running p => rfl
  | asleep c p =>
    simp only [wake]
    split <;> rfl
  | woken p => rfl

theorem wake_eq_running : s.wake chan = running p ↔ s = running p := by
  cases s with
  | running q => exact Iff.rfl
  | asleep c q =>
    simp only [wake]
    split <;> simp
  | woken q => simp [wake]

theorem wake_eq_asleep : s.wake chan = asleep c p ↔ s = asleep c p ∧ c ≠ chan := by
  cases s with
  | running q => simp [wake]
  | asleep d q =>
    simp only [wake]
    by_cases same : d = chan
    · rw [if_pos same]
      simp only [reduceCtorEq, asleep.injEq, false_iff, not_and, not_not, and_imp]
      rintro rfl -
      exact same
    · rw [if_neg same]
      simp only [asleep.injEq]
      refine ⟨fun equal => ⟨equal, equal.1 ▸ same⟩, And.left⟩
  | woken q => simp [wake]

end Status

/-- The threads, the owners of the locks and the data. -/
structure Threads (T P D L C : Type) where
  status : T → Status P C
  owner : L → Option T
  data : D

namespace Threads
variable {T P D L C : Type}

section Semantics
variable [DecidableEq T] [DecidableEq L] [DecidableEq C] (code : P → Instr T P D L C)

inductive Step : Threads T P D L C → Threads T P D L C → Prop
  | acquire {s : Threads T P D L C} {t : T} {p next : P} {l : L} (here : s.status t = .running p)
      (instr : code p = .acquire l next) (free : s.owner l = none) :
      Step s { s with
        status := update s.status t (.running next)
        owner := update s.owner l (some t) }
  | release {s : Threads T P D L C} {t : T} {p next : P} {l : L} (here : s.status t = .running p)
      (instr : code p = .release l next) :
      Step s { s with
        status := update s.status t (.running next)
        owner := update s.owner l none }
  | handOver {s : Threads T P D L C} {t : T} {p next : P} {l : L} {chan : C}
      (here : s.status t = .running p) (instr : code p = .sleep chan l next) :
      Step s { s with
        status := update s.status t (.asleep chan p)
        owner := update s.owner l none }
  | resume {s : Threads T P D L C} {t : T} {p next : P} {l : L} {chan : C}
      (here : s.status t = .woken p) (instr : code p = .sleep chan l next)
      (free : s.owner l = none) :
      Step s { s with
        status := update s.status t (.running next)
        owner := update s.owner l (some t) }
  | wakeup {s : Threads T P D L C} {t : T} {p next : P} {chan : C} (here : s.status t = .running p)
      (instr : code p = .wakeup chan next) :
      Step s { s with
        status := update (fun u => (s.status u).wake chan) t (.running next) }
  | act {s : Threads T P D L C} {t : T} {p next : P} {d : D} {effect : T → D → Option (D × P)}
      (here : s.status t = .running p) (instr : code p = .act effect)
      (done : effect t s.data = some (d, next)) :
      Step s { s with
        status := update s.status t (.running next)
        data := d }
  | branch {s : Threads T P D L C} {t : T} {p next : P} {targets : P → Prop}
      (here : s.status t = .running p) (instr : code p = .branch targets) (target : targets next) :
      Step s { s with status := update s.status t (.running next) }

/-- All threads at `start`, no lock taken. -/
def Initial (start : P) (init : D → Prop) (s : Threads T P D L C) : Prop :=
  (∀ t, s.status t = .running start) ∧ (∀ l, s.owner l = none) ∧ init s.data

inductive Reach (start : P) (init : D → Prop) : Threads T P D L C → Prop
  | start {s : Threads T P D L C} (initial : Initial start init s) : Reach start init s
  | step {s s' : Threads T P D L C} (reach : Reach start init s) (step : Step code s s') :
      Reach start init s'

end Semantics

variable {code : P → Instr T P D L C} {start : P} {init : D → Prop} {s s' : Threads T P D L C}

/-- Threads that do not run are in a `sleep`. -/
def Rests (code : P → Instr T P D L C) (s : Threads T P D L C) : Prop :=
  ∀ t, (∃ q, s.status t = .running q) ∨ ∃ c l next, code (s.status t).point = .sleep c l next

section Resting
variable [DecidableEq T]

theorem Rests.update (rests : Rests code s) {t : T} {st : Status P C} {owner : L → Option T} {d : D}
    (here : (∃ q, st = .running q) ∨ ∃ c l next, code st.point = .sleep c l next) :
    Rests code ⟨update s.status t st, owner, d⟩ :=
  (Function.forall_update_iff s.status fun _ st =>
    (∃ q, st = .running q) ∨ ∃ c l next, code st.point = .sleep c l next).mpr ⟨here, fun u _ => rests u⟩

variable [DecidableEq L] [DecidableEq C]

theorem Reach.rests (reach : Reach code start init s) : Rests code s := by
  induction reach with
  | start initial => exact fun t => .inl ⟨start, initial.1 t⟩
  | step _ taken ih =>
    cases taken with
    | acquire here instr free => exact ih.update (.inl ⟨_, rfl⟩)
    | release here instr => exact ih.update (.inl ⟨_, rfl⟩)
    | handOver here instr => exact ih.update (.inr ⟨_, _, _, instr⟩)
    | resume here instr free => exact ih.update (.inl ⟨_, rfl⟩)
    | @wakeup t p next chan here instr =>
      intro u
      by_cases thread : u = t
      · subst thread
        simp only [update_self]
        exact .inl ⟨next, rfl⟩
      · simp only [update_of_ne thread, Status.wake_eq_running, Status.point_wake]
        exact ih u
    | act here instr done => exact ih.update (.inl ⟨_, rfl⟩)
    | branch here instr target => exact ih.update (.inl ⟨_, rfl⟩)

end Resting

/-! ## Locks -/

/-- `held` says which lock a thread holds at each point. -/
structure LockMap (code : P → Instr T P D L C) (held : P → Option L) : Prop where
  acquire : ∀ {p l next}, code p = .acquire l next → held p = none ∧ held next = some l
  release : ∀ {p l next}, code p = .release l next → held p = some l ∧ held next = none
  sleep : ∀ {p c l next}, code p = .sleep c l next → held p = some l ∧ held next = some l
  wakeup : ∀ {p c next}, code p = .wakeup c next → held next = held p
  act : ∀ {p f t d d' next}, code p = .act f → f t d = some (d', next) → held next = held p
  branch : ∀ {p targets next}, code p = .branch targets → targets next → held next = held p

/-- The owner of each lock is the thread at a point where the lock is held. -/
def Owns (held : P → Option L) (s : Threads T P D L C) : Prop :=
  ∀ t l, s.owner l = some t ↔ (s.status t).lock held = some l

section Locks
variable {held : P → Option L}

/-- No lock changes hands. -/
theorem Owns.congr (owns : Owns held s) {status : T → Status P C} {d : D}
    (same : ∀ t, (status t).lock held = (s.status t).lock held) :
    Owns held ⟨status, s.owner, d⟩ := by
  intro t l
  rw [same]
  exact owns t l

variable {t : T} {l : L}

/-- Two threads do not hold the same lock. -/
theorem Owns.unique (owns : Owns held s) {u : T} (left : (s.status t).lock held = some l)
    (right : (s.status u).lock held = some l) : t = u := by
  have owner := (owns t l).mpr left
  rw [(owns u l).mpr right] at owner
  exact (Option.some.inj owner).symm

variable [DecidableEq T] [DecidableEq L]

/-- A thread without a lock takes the free lock `l`. -/
theorem Owns.take (owns : Owns held s) {st : Status P C}
    (before : (s.status t).lock held = none) (free : s.owner l = none)
    (after : st.lock held = some l) :
    Owns held { s with
      status := update s.status t st
      owner := update s.owner l (some t) } := by
  intro u k
  by_cases thread : u = t
  · subst thread
    simp only [update_self, after, Option.some.injEq]
    by_cases lock : k = l
    · subst lock
      simp
    · rw [update_of_ne lock]
      refine ⟨fun owner => ?_, fun same => absurd same.symm lock⟩
      have holds := (owns u k).mp owner
      rw [before] at holds
      cases holds
  · simp only [update_of_ne thread]
    by_cases lock : k = l
    · subst lock
      simp only [update_self, Option.some.injEq]
      refine ⟨fun same => absurd same.symm thread, fun holds => ?_⟩
      have owner := (owns u k).mpr holds
      rw [free] at owner
      cases owner
    · rw [update_of_ne lock]
      exact owns u k

/-- The thread that holds `l` drops it. -/
theorem Owns.drop (owns : Owns held s) {st : Status P C}
    (before : (s.status t).lock held = some l) (after : st.lock held = none) :
    Owns held { s with
      status := update s.status t st
      owner := update s.owner l none } := by
  intro u k
  by_cases thread : u = t
  · subst thread
    simp only [update_self, after]
    by_cases lock : k = l
    · subst lock
      simp
    · rw [update_of_ne lock]
      refine ⟨fun owner => ?_, nofun⟩
      have holds := (owns u k).mp owner
      rw [before] at holds
      exact absurd (Option.some.inj holds).symm lock
  · simp only [update_of_ne thread]
    by_cases lock : k = l
    · subst lock
      simp only [update_self]
      refine ⟨nofun, fun holds => ?_⟩
      have owner := (owns u k).mpr holds
      rw [(owns t k).mpr before] at owner
      exact absurd (Option.some.inj owner).symm thread
    · rw [update_of_ne lock]
      exact owns u k

variable [DecidableEq C]

theorem Owns.step (owns : Owns held s) (map : LockMap code held) (step : Step code s s') :
    Owns held s' := by
  cases step with
  | @acquire t p next l here instr free =>
    refine owns.take ?_ free (map.acquire instr).2
    rw [here]
    exact (map.acquire instr).1
  | @release t p next l here instr =>
    refine owns.drop ?_ (map.release instr).2
    rw [here]
    exact (map.release instr).1
  | @handOver t p next l chan here instr =>
    refine owns.drop ?_ rfl
    rw [here]
    exact (map.sleep instr).1
  | @resume t p next l chan here instr free =>
    refine owns.take ?_ free (map.sleep instr).2
    rw [here]
    rfl
  | @wakeup t p next chan here instr =>
    refine owns.congr fun u => ?_
    by_cases thread : u = t
    · rw [thread, update_self, here]
      exact map.wakeup instr
    · rw [update_of_ne thread, Status.lock_wake]
  | @act t p next d effect here instr done =>
    refine owns.congr fun u => ?_
    by_cases thread : u = t
    · rw [thread, update_self, here]
      exact map.act instr done
    · rw [update_of_ne thread]
  | @branch t p next targets here instr target =>
    refine owns.congr fun u => ?_
    by_cases thread : u = t
    · rw [thread, update_self, here]
      exact map.branch instr target
    · rw [update_of_ne thread]

theorem Reach.owner (reach : Reach code start init s) (map : LockMap code held)
    (outside : held start = none) : Owns held s := by
  induction reach with
  | start initial =>
    intro t l
    rw [initial.1 t, initial.2.1 l]
    simp [Status.lock, outside]
  | step _ step ih => exact ih.step map step

end Locks

/-! ## Assertions at program points -/

/-- `note p t d` is an assertion of thread `t` at point `p`, and `inv` holds throughout.  No step
of another thread disturbs an assertion. -/
structure Annotated (code : P → Instr T P D L C) (inv : D → Prop) (note : P → T → D → Prop) :
    Prop where
  act : ∀ {p f t d d' next}, code p = .act f → f t d = some (d', next) → inv d → note p t d →
    inv d' ∧ note next t d'
  others : ∀ {p f t d d' next r u}, code p = .act f → f t d = some (d', next) → inv d →
    note p t d → u ≠ t → note r u d → note r u d'
  jump : ∀ {p t d next}, (code p).Jumps next → note p t d → note next t d

section Assertions
variable {inv : D → Prop} {note : P → T → D → Prop}

def Noted (inv : D → Prop) (note : P → T → D → Prop) (s : Threads T P D L C) : Prop :=
  inv s.data ∧ ∀ t, note (s.status t).point t s.data

theorem Noted.here (noted : Noted inv note s) {t : T} {st : Status P C} (here : s.status t = st) :
    note st.point t s.data :=
  here ▸ noted.2 t

variable [DecidableEq T]

/-- One thread goes on and leaves the data alone. -/
theorem Noted.jump (noted : Noted inv note s) {t : T} {st : Status P C} {owner : L → Option T}
    (goes : note st.point t s.data) : Noted inv note ⟨update s.status t st, owner, s.data⟩ := by
  exact ⟨noted.1, (Function.forall_update_iff s.status fun u st => note st.point u s.data).mpr
    ⟨goes, fun u _ => noted.2 u⟩⟩

variable [DecidableEq L] [DecidableEq C]

theorem Noted.step (noted : Noted inv note s) (annotated : Annotated code inv note)
    (step : Step code s s') : Noted inv note s' := by
  cases step with
  | @acquire t p next l here instr free =>
    have jumps : (code p).Jumps next := by rw [instr]; rfl
    exact noted.jump (annotated.jump jumps (noted.here here))
  | @release t p next l here instr =>
    have jumps : (code p).Jumps next := by rw [instr]; rfl
    exact noted.jump (annotated.jump jumps (noted.here here))
  | @handOver t p next l chan here instr =>
    have before : note p t s.data := noted.here here
    exact noted.jump before
  | @resume t p next l chan here instr free =>
    have jumps : (code p).Jumps next := by rw [instr]; rfl
    exact noted.jump (annotated.jump jumps (noted.here here))
  | @wakeup t p next chan here instr =>
    have jumps : (code p).Jumps next := by rw [instr]; rfl
    refine ⟨noted.1, fun u => ?_⟩
    by_cases thread : u = t
    · subst thread
      simp only [update_self]
      exact annotated.jump jumps (noted.here here)
    · simp only [update_of_ne thread, Status.point_wake]
      exact noted.2 u
  | @act t p next d effect here instr done =>
    have after := annotated.act instr done noted.1 (noted.here here)
    exact ⟨after.1, (Function.forall_update_iff s.status fun u st => note st.point u d).mpr
      ⟨after.2, fun u other => annotated.others instr done noted.1 (noted.here here) other (noted.2 u)⟩⟩
  | @branch t p next targets here instr target =>
    have jumps : (code p).Jumps next := by rw [instr]; exact target
    exact noted.jump (annotated.jump jumps (noted.here here))

theorem Reach.annotated (reach : Reach code start init s) (annotated : Annotated code inv note)
    (first : ∀ d, init d → inv d ∧ ∀ t, note start t d) : Noted inv note s := by
  induction reach with
  | start initial =>
    obtain ⟨before, notes⟩ := first _ initial.2.2
    refine ⟨before, fun t => ?_⟩
    rw [initial.1 t]
    exact notes t
  | step _ step ih => exact ih.step annotated step

end Assertions

/-! ## Sleep and wakeup -/

/-- The threads that sleep at the points `sleeping` wait on `chan`, under `lock`, for `cond` to
become false.  Whoever makes it false holds the lock and is then at a point where it `owes` a
wakeup.  `good` is what is known of all reachable states. -/
structure Waits (code : P → Instr T P D L C) (held : P → Option L) (good : Threads T P D L C → Prop)
    (lock : L) (chan : C) (sleeping owes : P → Prop) (cond : D → Prop) : Prop where
  sleep : ∀ {p}, sleeping p → ∃ next, code p = .sleep chan lock next
  jump : ∀ {p next}, (code p).Jumps next → ¬ sleeping next
  enter : ∀ {s t p f d next}, good s → s.status t = .running p → code p = .act f →
    f t s.data = some (d, next) → sleeping next → cond d
  keep : ∀ {s t p f d next}, good s → s.status t = .running p → code p = .act f →
    f t s.data = some (d, next) → cond s.data → cond d ∨ owes next
  locked : ∀ {p}, owes p → held p = some lock
  settle : ∀ {p}, owes p → (∃ next, code p = .wakeup chan next) ∨
    ∃ f, code p = .act f ∧ ∀ t d d' next, f t d = some (d', next) → owes next

section Waiting
variable {held : P → Option L} {good : Threads T P D L C → Prop} {lock : L} {chan : C}
  {sleeping owes : P → Prop} {cond : D → Prop}

/-- A thread about to sleep sees the condition, and so does a sleeping thread unless a wakeup is
owed to it. -/
structure Awaited (code : P → Instr T P D L C) (sleeping owes : P → Prop) (cond : D → Prop)
    (s : Threads T P D L C) : Prop where
  falling : ∀ {t p}, s.status t = .running p → sleeping p → cond s.data
  asleep : ∀ {t c p}, s.status t = .asleep c p → sleeping p →
    cond s.data ∨ ∃ u q, s.status u = .running q ∧ owes q
  channel : ∀ {t c p}, s.status t = .asleep c p → ∃ l next, code p = .sleep c l next

variable {p next : P} {t : T}

theorem Waits.owes_of_jump (waits : Waits code held good lock chan sleeping owes cond)
    (owing : owes p) (jumps : (code p).Jumps next) : ∃ next, code p = .wakeup chan next := by
  rcases waits.settle owing with wakes | ⟨f, instr, -⟩
  · exact wakes
  · rw [instr] at jumps
    cases jumps

/-- A thread that does not owe the wakeup. -/
theorem Waits.free_of_jump (waits : Waits code held good lock chan sleeping owes cond)
    (here : s.status t = .running p) (jumps : (code p).Jumps next)
    (silent : ∀ n, code p ≠ .wakeup chan n) : ∀ q, s.status t = .running q → ¬ owes q := by
  intro q runs owing
  obtain rfl : q = p := by
    rw [here] at runs
    exact (Status.running.inj runs).symm
  obtain ⟨n, wakes⟩ := waits.owes_of_jump owing jumps
  exact silent n wakes

variable [DecidableEq T]

section
variable (awaited : Awaited code sleeping owes cond s)
include awaited

/-- A step of thread `t`, which takes the status `st`; the others may only wake up. -/
theorem Awaited.move {st : Status P C} {d : D} {owner : L → Option T} {status : T → Status P C}
    (runs : ∀ u q, u ≠ t → (status u = .running q ↔ s.status u = .running q))
    (rests : ∀ u c q, u ≠ t → status u = .asleep c q → s.status u = .asleep c q)
    (enters : ∀ q, st = .running q → sleeping q → cond d)
    (stops : ∀ c q, st = .asleep c q → (sleeping q → cond d) ∧ ∃ l next, code q = .sleep c l next)
    (stays : ∀ u q, u ≠ t → s.status u = .running q → sleeping q → cond s.data → cond d)
    (keeps : cond s.data → cond d ∨ ∃ q, st = .running q ∧ owes q)
    (pays : ∀ q u c r, s.status t = .running q → owes q → u ≠ t → status u = .asleep c r → sleeping r →
      ∃ q, st = .running q ∧ owes q) :
    Awaited code sleeping owes cond ⟨update status t st, owner, d⟩ := by
  refine ⟨?_, ?_, ?_⟩
  · intro u q here falls
    by_cases thread : u = t
    · subst thread
      simp only [update_self] at here
      exact enters q here falls
    · simp only [update_of_ne thread] at here
      have before := (runs u q thread).mp here
      exact stays u q thread before falls (awaited.falling before falls)
  · intro u c r here sleeps
    by_cases thread : u = t
    · subst thread
      simp only [update_self] at here
      exact .inl ((stops c r here).1 sleeps)
    · simp only [update_of_ne thread] at here
      rcases awaited.asleep (rests u c r thread here) sleeps with holds | ⟨v, q, before, owing⟩
      · rcases keeps holds with holds' | ⟨q, becomes, owing⟩
        · exact .inl holds'
        · exact .inr ⟨t, q, (update_self ..).trans becomes, owing⟩
      · by_cases debtor : v = t
        · subst debtor
          obtain ⟨q', becomes, owing'⟩ := pays q u c r before owing thread here sleeps
          exact .inr ⟨v, q', (update_self ..).trans becomes, owing'⟩
        · exact .inr ⟨v, q, (update_of_ne debtor ..).trans ((runs v q debtor).mpr before), owing⟩
  · intro u c r here
    by_cases thread : u = t
    · subst thread
      simp only [update_self] at here
      exact (stops c r here).2
    · simp only [update_of_ne thread] at here
      exact awaited.channel (rests u c r thread here)

/-- A step of one thread that leaves the data alone, wakes up nobody and pays no debt. -/
theorem Awaited.jump {owner : L → Option T} (awake : ¬ sleeping next)
    (free : ∀ q, s.status t = .running q → ¬ owes q) :
    Awaited code sleeping owes cond ⟨update s.status t (.running next), owner, s.data⟩ := by
  refine awaited.move (fun _ _ _ => .rfl) (fun _ _ _ _ => id) ?_ nofun (fun _ _ _ _ _ => id) .inl
    fun q _ _ _ runs owing => absurd owing (free q runs)
  rintro q ⟨⟩ falls
  exact absurd falls awake

theorem Awaited.handOver (waits : Waits code held good lock chan sleeping owes cond) {t : T}
    {p next : P} {l : L} {c : C} {owner : L → Option T} (here : s.status t = .running p)
    (instr : code p = .sleep c l next) :
    Awaited code sleeping owes cond ⟨update s.status t (.asleep c p), owner, s.data⟩ := by
  have free := waits.free_of_jump here (by rw [instr]; rfl) (by rw [instr]; nofun)
  refine awaited.move (fun _ _ _ => .rfl) (fun _ _ _ _ => id) nofun ?_ (fun _ _ _ _ _ => id) .inl
    fun q _ _ _ runs owing => absurd owing (free q runs)
  rintro c' q ⟨⟩
  exact ⟨awaited.falling here, l, next, instr⟩

theorem Awaited.act (waits : Waits code held good lock chan sleeping owes cond)
    (map : LockMap code held) (known : good s) (owns : Owns held s) {t : T} {p next : P} {d : D}
    {effect : T → D → Option (D × P)} (here : s.status t = .running p)
    (instr : code p = .act effect) (done : effect t s.data = some (d, next)) :
    Awaited code sleeping owes cond
      { s with status := update s.status t (.running next), data := d } := by
  have kept := waits.keep known here instr done
  refine awaited.move (fun _ _ _ => .rfl) (fun _ _ _ _ => id) ?_ nofun ?_ ?_ ?_
  · rintro q ⟨⟩ falls
    exact waits.enter known here instr done falls
  · intro u q other runs falls holds
    rcases kept holds with holds' | owing
    · exact holds'
    · -- Both threads would hold the lock.
      obtain ⟨n, sleeps⟩ := waits.sleep falls
      have mine : (s.status t).lock held = some lock := by
        rw [here]
        exact (map.act instr done).symm.trans (waits.locked owing)
      have theirs : (s.status u).lock held = some lock := by
        rw [runs]
        exact (map.sleep sleeps).1
      exact absurd (owns.unique theirs mine) other
  · exact fun holds => (kept holds).imp_right fun owing => ⟨next, rfl, owing⟩
  · intro q u c r runs owing _ _ _
    obtain rfl : p = q := by
      rw [here] at runs
      exact Status.running.inj runs
    rcases waits.settle owing with ⟨n, wakes⟩ | ⟨f, instr', later⟩
    · rw [instr] at wakes
      cases wakes
    · rw [instr] at instr'
      injection instr' with same
      subst same
      exact ⟨next, rfl, later _ _ _ _ done⟩

end

variable [DecidableEq C]

theorem Awaited.wakeup (awaited : Awaited code sleeping owes cond s)
    (waits : Waits code held good lock chan sleeping owes cond) {t : T} {p next : P} {c : C}
    (here : s.status t = .running p) (instr : code p = .wakeup c next) :
    Awaited code sleeping owes cond
      { s with status := update (fun u => (s.status u).wake c) t (.running next) } := by
  refine awaited.move (fun _ _ _ => Status.wake_eq_running) (fun _ _ _ _ rests => (Status.wake_eq_asleep.mp rests).1)
    ?_ nofun (fun _ _ _ _ _ => id) .inl ?_
  · rintro q ⟨⟩ falls
    exact absurd falls (waits.jump (p := p) (by rw [instr]; rfl))
  · -- The one who owes this wakeup did not make the one at hand: that went to another channel.
    intro q u d r runs owing _ rests sleeps
    obtain ⟨rests, other⟩ := Status.wake_eq_asleep.mp rests
    obtain rfl : p = q := by
      rw [here] at runs
      exact Status.running.inj runs
    obtain ⟨n, wakes⟩ := waits.owes_of_jump owing (by rw [instr]; rfl)
    rw [instr] at wakes
    obtain ⟨l, m, sleepsOn⟩ := awaited.channel rests
    obtain ⟨m', ours⟩ := waits.sleep sleeps
    rw [ours] at sleepsOn
    injection wakes with same
    injection sleepsOn with same'
    exact absurd (same'.symm.trans same.symm) other

variable [DecidableEq L]

theorem Awaited.step (awaited : Awaited code sleeping owes cond s)
    (waits : Waits code held good lock chan sleeping owes cond) (map : LockMap code held)
    (known : good s) (owns : Owns held s) (step : Step code s s') :
    Awaited code sleeping owes cond s' := by
  cases step with
  | @acquire t p next l here instr free =>
    have jumps : (code p).Jumps next := by rw [instr]; rfl
    exact awaited.jump (waits.jump jumps) (waits.free_of_jump here jumps (by rw [instr]; nofun))
  | @release t p next l here instr =>
    have jumps : (code p).Jumps next := by rw [instr]; rfl
    exact awaited.jump (waits.jump jumps) (waits.free_of_jump here jumps (by rw [instr]; nofun))
  | @handOver t p next l chan here instr => exact awaited.handOver waits here instr
  | @resume t p next l chan here instr free =>
    refine awaited.jump (waits.jump (p := p) (by rw [instr]; rfl)) fun q runs => ?_
    rw [here] at runs
    cases runs
  | @wakeup t p next chan here instr => exact awaited.wakeup waits here instr
  | @act t p next d effect here instr done =>
    exact awaited.act waits map known owns here instr done
  | @branch t p next targets here instr target =>
    have jumps : (code p).Jumps next := by rw [instr]; exact target
    exact awaited.jump (waits.jump jumps) (waits.free_of_jump here jumps (by rw [instr]; nofun))

/-- No wakeup is lost: in every reachable state in which the lock is free, the condition holds if
some thread is asleep waiting for it to become false. -/
theorem Reach.no_lost_wakeup (reach : Reach code start init s)
    (waits : Waits code held good lock chan sleeping owes cond) (map : LockMap code held)
    (outside : held start = none) (known : ∀ s, Reach code start init s → good s)
    (awake : ¬ sleeping start) {c : C} (free : s.owner lock = none)
    (asleep : s.status t = .asleep c p) (sleeps : sleeping p) : cond s.data := by
  have awaited : Awaited code sleeping owes cond s := by
    clear free asleep
    induction reach with
    | start initial =>
      refine ⟨?_, ?_, ?_⟩
      · intro u q runs falls
        rw [initial.1 u, Status.running.injEq] at runs
        exact absurd (runs ▸ falls) awake
      · intro u c q rests
        rw [initial.1 u] at rests
        cases rests
      · intro u c q rests
        rw [initial.1 u] at rests
        cases rests
    | step before step ih =>
      exact ih.step waits map (known _ before) (before.owner map outside) step
  rcases awaited.asleep asleep sleeps with holds | ⟨u, q, runs, owing⟩
  · exact holds
  · have locked : (s.status u).lock held = some lock := by
      rw [runs]
      exact waits.locked owing
    rw [((reach.owner map outside) u lock).mpr locked] at free
    cases free

end Waiting

end Threads

end OsAudio.Lib

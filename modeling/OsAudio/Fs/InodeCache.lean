import Mathlib.Algebra.Order.BigOperators.Group.Finset
import OsAudio.Fs.Inode
import OsAudio.Lib.Count

/-!
# The inode cache shared by threads

`inode_get`, `inode_dup`, `inode_lock`, `inode_unlock` and `inode_put` of `kern/fs/inode.c`,
called by any number of threads.  Each section under `inode_cache.lock` is one step, and so is
each access outside: the checks at the start of `inode_lock` and `inode_unlock`, the test of
`I_VALID` and the loading of the inode.  What `inode_put` does to the content of the inode it
frees is left out.

A state also records what the threads may rely on: how many references to an entry each has,
and which entries it has locked.
-/
namespace OsAudio.Fs.InodeCache
open OsAudio.Lib
open Function (update update_self update_of_ne update_eq_self)

/-! ## The source -/

structure Entry where
  dev : Nat
  inum : Nat
  ref : Int
  busy : Bool
  valid : Bool
  nlink : Nat
  deriving DecidableEq, Repr

/-- Where a thread stands in a call that takes several steps: in `inode_lock` before and after
it has set `I_BUSY` and while it loads the inode, in `inode_unlock` after its checks, and in
`inode_put` between its two sections. -/
inductive Phase
  | waiting
  | locking
  | loading
  | unlocking
  | freeing
  deriving DecidableEq, Repr

inductive Activity
  | idle
  | panicked
  | doing (phase : Phase) (ip : Fin nInode)
  deriving DecidableEq, Repr

structure State (T : Type) where
  entry : Fin nInode → Entry
  has : T → Fin nInode → Nat
  locked : T → Fin nInode → Bool
  activity : T → Activity

inductive Call
  | get (dev inum : Nat)
  | dup (ip : Fin nInode)
  | lock (ip : Fin nInode)
  | unlock (ip : Fin nInode)
  | put (ip : Fin nInode)
  deriving DecidableEq, Repr

def lookup (entry : Fin nInode → Entry) (dev inum : Nat) : Option (Fin nInode) :=
  (List.finRange nInode).find? fun ip =>
    0 < (entry ip).ref ∧ (entry ip).dev = dev ∧ (entry ip).inum = inum

def unused (entry : Fin nInode → Entry) : Option (Fin nInode) :=
  (List.finRange nInode).find? fun ip => (entry ip).ref = 0

section Source
variable {T : Type} [DecidableEq T]

/-- Thread `t` leaves entry `ip` as given, with `has` references to it, and goes on with the
given activity. -/
def State.set (s : State T) (t : T) (ip : Fin nInode) (e : Entry) (has : Nat) (locked : Bool)
    (a : Activity) : State T where
  entry := update s.entry ip e
  has := update s.has t (update (s.has t) ip has)
  locked := update s.locked t (update (s.locked t) ip locked)
  activity := update s.activity t a

def State.goto (s : State T) (t : T) (a : Activity) : State T :=
  { s with activity := update s.activity t a }

/-- The first step of a call. -/
def State.call (s : State T) (t : T) : Call → State T
  | .get dev inum =>
    match lookup s.entry dev inum with
    | some ip =>
      s.set t ip { s.entry ip with ref := (s.entry ip).ref + 1 } (s.has t ip + 1)
        (s.locked t ip) .idle
    | none =>
      match unused s.entry with
      | some ip =>
        s.set t ip { s.entry ip with dev := dev, inum := inum, ref := 1, busy := false, valid := false }
          (s.has t ip + 1) (s.locked t ip) .idle
      | none => s.goto t .panicked
  | .dup ip =>
    s.set t ip { s.entry ip with ref := (s.entry ip).ref + 1 } (s.has t ip + 1) (s.locked t ip) .idle
  | .lock ip =>
    if (s.entry ip).ref < 1 then s.goto t .panicked else s.goto t (.doing .waiting ip)
  | .unlock ip =>
    if (s.entry ip).busy = false ∨ (s.entry ip).ref < 1 then s.goto t .panicked
    else s.goto t (.doing .unlocking ip)
  | .put ip =>
    if (s.entry ip).ref = 1 ∧ (s.entry ip).valid = true ∧ (s.entry ip).nlink = 0 then
      if (s.entry ip).busy then s.goto t .panicked
      else
        s.set t ip { s.entry ip with busy := true } (s.has t ip) (s.locked t ip) (.doing .freeing ip)
    else
      s.set t ip { s.entry ip with ref := (s.entry ip).ref - 1 } (s.has t ip - 1) (s.locked t ip) .idle

/-- The next step of a call; `type` and `nlink` are what a load finds on the disk.  A thread
that sleeps in `inode_lock` tests `I_BUSY` whenever it is woken up. -/
def State.resume (s : State T) (t : T) (type nlink : Nat) : State T :=
  match s.activity t with
  | .idle => s
  | .panicked => s
  | .doing .waiting ip =>
    if (s.entry ip).busy then s
    else s.set t ip { s.entry ip with busy := true } (s.has t ip) true (.doing .locking ip)
  | .doing .locking ip =>
    if (s.entry ip).valid then s.goto t .idle else s.goto t (.doing .loading ip)
  | .doing .loading ip =>
    s.set t ip { s.entry ip with valid := true, nlink := nlink } (s.has t ip) (s.locked t ip)
      (if type = 0 then .panicked else .idle)
  | .doing .unlocking ip =>
    s.set t ip { s.entry ip with busy := false } (s.has t ip) false .idle
  | .doing .freeing ip =>
    s.set t ip { s.entry ip with busy := false, valid := false, ref := (s.entry ip).ref - 1 }
      (s.has t ip - 1) (s.locked t ip) .idle

/-- Some thread moves.  It starts calls under the condition `may`; between calls it may set the
link count of an inode it has locked. -/
inductive Step (may : State T → T → Call → Prop) (s : State T) : State T → Prop
  | call (t : T) (c : Call) (idle : s.activity t = .idle) (allowed : may s t c) :
      Step may s (s.call t c)
  | resume (t : T) (type nlink : Nat) : Step may s (s.resume t type nlink)
  | modify (t : T) (ip : Fin nInode) (nlink : Nat) (idle : s.activity t = .idle)
      (locked : s.locked t ip = true) :
      Step may s (s.set t ip { s.entry ip with nlink := nlink } (s.has t ip) true .idle)

def start : State T where
  entry := fun _ => ⟨0, 0, 0, false, false, 0⟩
  has := fun _ _ => 0
  locked := fun _ _ => false
  activity := fun _ => .idle

inductive Reach (may : State T → T → Call → Prop) : State T → Prop
  | start : Reach may start
  | step {s s' : State T} : Reach may s → Step may s s' → Reach may s'

/-- Threads put and unlock only references and locks they have. -/
def Call.Owned (s : State T) (t : T) : Call → Prop
  | .put ip => 0 < s.has t ip
  | .unlock ip => s.locked t ip = true
  | _ => True

/-- Threads also duplicate and lock only entries they have a reference to, and keep a reference
to the entries they have locked. -/
def Call.Kept (s : State T) (t : T) : Call → Prop
  | .get _ _ => True
  | .dup ip => 0 < s.has t ip
  | .lock ip => 0 < s.has t ip
  | .unlock ip => s.locked t ip = true
  | .put ip => 0 < s.has t ip ∧ (s.locked t ip = true → 1 < s.has t ip)

end Source

/-! ## One entry -/

/-- The thread has set `I_BUSY` and not cleared it. -/
def Uses (locked : Bool) (phase : Option Phase) : Prop :=
  locked = true ∨ phase = some .freeing

/-- What holds between an entry and a thread with the given references, lock and phase there. -/
structure Fit (e : Entry) (has : Nat) (locked : Bool) (phase : Option Phase) : Prop where
  kept : locked = true ∨ phase ≠ none → 0 < has
  inside : phase = some .locking ∨ phase = some .loading ∨ phase = some .unlocking → locked = true
  freeing : phase = some .freeing → locked = false
  valid : locked = true → phase ≠ some .locking → phase ≠ some .loading → e.valid = true
  busy : Uses locked phase → e.busy = true

/-- What holds between an entry and all threads. -/
structure Slot {T : Type} [Fintype T] (e : Entry) (has : T → Nat) (locked : T → Bool)
    (phase : T → Option Phase) : Prop where
  refs : e.ref = ((∑ t, has t : Nat) : Int)
  fit : ∀ t, Fit e (has t) (locked t) (phase t)
  only : ∀ t u, Uses (locked t) (phase t) → Uses (locked u) (phase u) → t = u
  someone : e.busy = true → ∃ t, Uses (locked t) (phase t)

section Slots
variable {T : Type} [Fintype T] {e e' : Entry} {has : T → Nat} {locked : T → Bool}
  {phase : T → Option Phase} {t : T} {n : Nat} {l : Bool} {p : Option Phase}

theorem Slot.ref_pos (slot : Slot e has locked phase) (t : T) (some : 0 < has t) : 0 < e.ref := by
  have below : has t ≤ ∑ u, has u := Finset.single_le_sum (fun _ _ => Nat.zero_le _) (Finset.mem_univ t)
  have refs := slot.refs
  omega

/-- An entry without references is not locked and no thread is at it. -/
theorem Slot.idle (slot : Slot e has locked phase) (none_left : e.ref = 0) (t : T) :
    has t = 0 ∧ locked t = false ∧ phase t = none := by
  have zero : has t = 0 := by
    by_contra some
    have positive := slot.ref_pos t (by omega)
    omega
  have kept := (slot.fit t).kept
  rw [zero] at kept
  refine ⟨zero, ?_, ?_⟩
  · cases held : locked t with
    | false => rfl
    | true => exact absurd (kept (.inl held)) (by omega)
  · by_contra busy
    exact absurd (kept (.inr busy)) (by omega)

variable [DecidableEq T]

theorem Slot.balance (slot : Slot e has locked phase) (refs : e'.ref + has t = e.ref + n) :
    e'.ref = ((∑ u, update has t n u : Nat) : Int) := by
  have sum := sum_update_add has (Finset.mem_univ t) n
  have before := slot.refs
  omega

theorem Fit.of_unused (fit : Fit e n l p) (free : ¬Uses l p) (e' : Entry) : Fit e' n l p where
  kept := fit.kept
  inside := fit.inside
  freeing := fit.freeing
  valid := fun held => absurd (.inl held) free
  busy := fun uses => absurd uses free

/-- The thread keeps `I_BUSY`, or does not have it and does not take it. -/
theorem Slot.move (slot : Slot e has locked phase) (refs : e'.ref + has t = e.ref + n)
    (busy : e'.busy = e.busy) (valid : e.valid = true → e'.valid = true) (fit : Fit e' n l p)
    (same : Uses l p ↔ Uses (locked t) (phase t)) :
    Slot e' (update has t n) (update locked t l) (update phase t p) := by
  have uses : ∀ u, Uses (update locked t l u) (update phase t p u) ↔
      Uses (locked u) (phase u) := by
    intro u
    by_cases equal : u = t
    · subst equal
      simpa using same
    · simp [equal]
  constructor
  · exact slot.balance refs
  · intro u
    by_cases equal : u = t
    · subst equal
      simpa using fit
    · have before := slot.fit u
      simp only [update_of_ne equal]
      exact ⟨before.kept, before.inside, before.freeing,
        fun held first second => valid (before.valid held first second),
        fun used => busy.trans (before.busy used)⟩
  · intro u v first second
    exact slot.only u v ((uses u).mp first) ((uses v).mp second)
  · intro set
    obtain ⟨u, used⟩ := slot.someone (busy ▸ set)
    exact ⟨u, (uses u).mpr used⟩

/-- No thread has the entry; the thread sets `I_BUSY`. -/
theorem Slot.take (slot : Slot e has locked phase) (free : e.busy = false)
    (refs : e'.ref + has t = e.ref + n) (fit : Fit e' n l p) (uses : Uses l p) :
    Slot e' (update has t n) (update locked t l) (update phase t p) := by
  have unused : ∀ u, ¬Uses (locked u) (phase u) := by
    intro u used
    have busy := (slot.fit u).busy used
    simp [free] at busy
  have others : ∀ u, Uses (update locked t l u) (update phase t p u) → u = t := by
    intro u used
    by_contra equal
    exact unused u (by simpa [equal] using used)
  constructor
  · exact slot.balance refs
  · intro u
    by_cases equal : u = t
    · subst equal
      simpa using fit
    · simpa [equal] using (slot.fit u).of_unused (unused u) e'
  · intro u v first second
    rw [others u first, others v second]
  · intro _
    exact ⟨t, by simpa using uses⟩

/-- No other thread has the entry, and `I_BUSY` is clear afterwards. -/
theorem Slot.clear (slot : Slot e has locked phase)
    (alone : ∀ u, u ≠ t → ¬Uses (locked u) (phase u)) (cleared : e'.busy = false)
    (refs : e'.ref + has t = e.ref + n) (fit : Fit e' n l p) :
    Slot e' (update has t n) (update locked t l) (update phase t p) := by
  have gone : ∀ u, ¬Uses (update locked t l u) (update phase t p u) := by
    intro u used
    by_cases equal : u = t
    · subst equal
      have busy := fit.busy (by simpa using used)
      simp [cleared] at busy
    · exact alone u equal (by simpa [equal] using used)
  constructor
  · exact slot.balance refs
  · intro u
    by_cases equal : u = t
    · subst equal
      simpa using fit
    · simpa [equal] using (slot.fit u).of_unused (alone u equal) e'
  · intro u v first _
    exact absurd first (gone u)
  · intro busy
    simp [cleared] at busy

end Slots

/-! ## The whole cache -/

/-- The phase of a thread at entry `ip`. -/
def Activity.phaseAt (ip : Fin nInode) : Activity → Option Phase
  | .idle => none
  | .panicked => none
  | .doing phase jp => if jp = ip then some phase else none

def Unique (entry : Fin nInode → Entry) : Prop :=
  ∀ ip jp, 0 < (entry ip).ref → 0 < (entry jp).ref → (entry ip).dev = (entry jp).dev →
    (entry ip).inum = (entry jp).inum → ip = jp

structure Inv {T : Type} [Fintype T] (s : State T) : Prop where
  unique : Unique s.entry
  slots : ∀ ip, Slot (s.entry ip) (s.has · ip) (s.locked · ip) fun t => (s.activity t).phaseAt ip

section Invariant
variable {T : Type} [DecidableEq T] {s : State T} {t : T} {ip : Fin nInode} {e : Entry} {n : Nat}
  {l : Bool} {a : Activity}

theorem update_at {α : Type} (f : T → Fin nInode → α) (value : α) (jp : Fin nInode) :
    (fun u => update f t (update (f t) ip value) u jp) =
      if jp = ip then update (f · ip) t value else (f · jp) := by
  funext u
  by_cases thread : u = t
  · subst thread
    by_cases slot : jp = ip
    · simp [slot]
    · simp [slot]
  · by_cases slot : jp = ip <;> simp [thread, slot]

theorem update_phaseAt (f : T → Activity) (jp : Fin nInode) :
    (fun u => (update f t a u).phaseAt jp) =
      update (fun u => (f u).phaseAt jp) t (a.phaseAt jp) := by
  funext u
  by_cases thread : u = t
  · subst thread
    simp
  · simp [thread]

variable [Fintype T]

/-- A step of thread `t` at entry `ip` concerns that entry only. -/
theorem Inv.set (inv : Inv s) (unique : Unique (update s.entry ip e))
    (before : ∀ jp, jp ≠ ip → (s.activity t).phaseAt jp = none)
    (after : ∀ jp, jp ≠ ip → a.phaseAt jp = none)
    (slot : Slot e (update (s.has · ip) t n) (update (s.locked · ip) t l)
      (update (fun u => (s.activity u).phaseAt ip) t (a.phaseAt ip))) :
    Inv (s.set t ip e n l a) := by
  constructor
  · exact unique
  · intro jp
    simp only [State.set, update_at, update_phaseAt]
    by_cases here : jp = ip
    · subst here
      simpa using slot
    · have same : update (fun u => (s.activity u).phaseAt jp) t (a.phaseAt jp) =
          fun u => (s.activity u).phaseAt jp := by
        rw [after jp here, ← before jp here]
        exact update_eq_self t _
      simpa [here, same] using inv.slots jp

/-- A step that changes only what the thread does. -/
theorem Inv.goto (inv : Inv s) (before : ∀ jp, jp ≠ ip → (s.activity t).phaseAt jp = none)
    (after : ∀ jp, jp ≠ ip → a.phaseAt jp = none)
    (fit : Fit (s.entry ip) (s.has t ip) (s.locked t ip) (a.phaseAt ip))
    (same : Uses (s.locked t ip) (a.phaseAt ip) ↔
      Uses (s.locked t ip) ((s.activity t).phaseAt ip)) : Inv (s.goto t a) := by
  have moved := inv.set (e := s.entry ip) (n := s.has t ip) (l := s.locked t ip) (a := a)
    (by simpa using inv.unique) before after
    ((inv.slots ip).move rfl rfl id fit same)
  simpa [State.set, State.goto] using moved

end Invariant

variable {entry : Fin nInode → Entry} {ip : Fin nInode}

/-- The entry keeps the inode it stands for, and is not revived. -/
theorem Unique.modify {e : Entry} (unique : Unique entry)
    (dev : e.dev = (entry ip).dev) (inum : e.inum = (entry ip).inum)
    (ref : 0 < e.ref → 0 < (entry ip).ref) : Unique (update entry ip e) := by
  have same : ∀ jp, (0 < (update entry ip e jp).ref → 0 < (entry jp).ref) ∧
      (update entry ip e jp).dev = (entry jp).dev ∧
      (update entry ip e jp).inum = (entry jp).inum := by
    intro jp
    by_cases here : jp = ip
    · subst here
      simpa using ⟨ref, dev, inum⟩
    · simp [here]
  intro ip jp first second devs inums
  obtain ⟨ref₁, dev₁, inum₁⟩ := same ip
  obtain ⟨ref₂, dev₂, inum₂⟩ := same jp
  exact unique ip jp (ref₁ first) (ref₂ second) (dev₁ ▸ dev₂ ▸ devs) (inum₁ ▸ inum₂ ▸ inums)

/-- An entry taken for an inode that no other entry stands for. -/
theorem Unique.recycle {e : Entry} (unique : Unique entry)
    (missing : ∀ jp, 0 < (entry jp).ref → (entry jp).dev = e.dev → (entry jp).inum ≠ e.inum) :
    Unique (update entry ip e) := by
  intro i j first second devs inums
  by_cases left : i = ip
  · by_cases right : j = ip
    · rw [left, right]
    · subst left
      simp only [update_self, update_of_ne right] at second devs inums
      exact absurd inums.symm (missing j second devs.symm)
  · by_cases right : j = ip
    · subst right
      simp only [update_self, update_of_ne left] at first devs inums
      exact absurd inums (missing i first devs)
    · simp only [update_of_ne left, update_of_ne right] at first second devs inums
      exact unique i j first second devs inums

theorem lookup_some {dev inum : Nat}
    (found : lookup entry dev inum = some ip) : 0 < (entry ip).ref := by
  have holds := List.find?_some found
  simp only [decide_eq_true_eq] at holds
  exact holds.1

theorem lookup_none {dev inum : Nat}
    (missing : lookup entry dev inum = none) (jp : Fin nInode) (ref : 0 < (entry jp).ref)
    (same : (entry jp).dev = dev) : (entry jp).inum ≠ inum := by
  intro equal
  have fails := List.find?_eq_none.mp missing jp (List.mem_finRange jp)
  simp [ref, same, equal] at fails

theorem unused_some (found : unused entry = some ip) :
    (entry ip).ref = 0 := by
  simpa using List.find?_some found

/-! ## Each step keeps the invariant -/

theorem phaseAt_doing {jp : Fin nInode} {phase : Phase} (other : jp ≠ ip) :
    (Activity.doing phase ip).phaseAt jp = none :=
  if_neg (Ne.symm other)

theorem phaseAt_self {phase : Phase} :
    (Activity.doing phase ip).phaseAt ip = some phase :=
  if_pos rfl

section Steps
variable {T : Type} {s : State T} {t : T} {ip : Fin nInode}

/-- A thread at entry `ip` is at no other entry. -/
theorem only_at {phase : Phase} (doing : s.activity t = .doing phase ip) (jp : Fin nInode)
    (other : jp ≠ ip) : (s.activity t).phaseAt jp = none := by
  rw [doing]
  exact phaseAt_doing other

variable [Fintype T]

theorem Inv.fit_doing (inv : Inv s) {phase : Phase} (doing : s.activity t = .doing phase ip) :
    Fit (s.entry ip) (s.has t ip) (s.locked t ip) (some phase) := by
  have fit := (inv.slots ip).fit t
  rwa [doing, phaseAt_self] at fit

theorem Inv.start : Inv (start : State T) := by
  constructor
  · intro ip jp used
    exact absurd used (lt_irrefl (0 : Int))
  · intro ip
    constructor
    · simp [InodeCache.start]
    · intro t
      constructor <;> simp [InodeCache.start, Uses, Activity.phaseAt]
    · intro t u used
      simp [InodeCache.start, Uses, Activity.phaseAt] at used
    · intro busy
      simp [InodeCache.start] at busy

variable [DecidableEq T]

section
variable (inv : Inv s)
include inv

section
variable (idle : s.activity t = .idle)
include idle

theorem Inv.panic : Inv (s.goto t .panicked) := by
  constructor
  · exact inv.unique
  · intro jp
    have same : (Activity.panicked).phaseAt jp = (s.activity t).phaseAt jp := by
      rw [idle]
      rfl
    simp only [State.goto, update_phaseAt, same, update_eq_self]
    exact inv.slots jp

/-- One more reference to an entry that is in use. -/
theorem Inv.addRef (used : 0 < (s.entry ip).ref) :
    Inv (s.set t ip { s.entry ip with ref := (s.entry ip).ref + 1 } (s.has t ip + 1)
      (s.locked t ip) .idle) := by
  have fit := (inv.slots ip).fit t
  simp only [idle] at fit
  apply inv.set
  · exact inv.unique.modify rfl rfl fun _ => used
  · simp [idle, Activity.phaseAt]
  · simp [Activity.phaseAt]
  · apply (inv.slots ip).move
    · push_cast
      ring
    · rfl
    · exact id
    · exact ⟨fun _ => Nat.succ_pos _, fit.inside, fit.freeing, fit.valid, fit.busy⟩
    · rw [idle]

/-- The first reference to an entry that was unused. -/
theorem Inv.recycle {dev inum : Nat} (free : (s.entry ip).ref = 0)
    (missing : lookup s.entry dev inum = none) :
    Inv (s.set t ip
      { s.entry ip with dev := dev, inum := inum, ref := 1, busy := false, valid := false }
      (s.has t ip + 1) (s.locked t ip) .idle) := by
  have slot := inv.slots ip
  obtain ⟨zero, unlocked, -⟩ := slot.idle free t
  have unused : ∀ u, ¬Uses (s.locked u ip) ((s.activity u).phaseAt ip) := by
    intro u used
    obtain ⟨-, held, phase⟩ := slot.idle free u
    simp [Uses, held, phase] at used
  apply inv.set
  · exact inv.unique.recycle (lookup_none missing)
  · simp [idle, Activity.phaseAt]
  · simp [Activity.phaseAt]
  · apply slot.clear
    · exact fun u _ => unused u
    · rfl
    · simp [free]
      omega
    · constructor <;> simp [unlocked, Uses, Activity.phaseAt]

theorem Inv.get (dev inum : Nat) : Inv (s.call t (.get dev inum)) := by
  cases found : lookup s.entry dev inum with
  | some ip =>
    simp only [State.call, found]
    exact inv.addRef idle (lookup_some found)
  | none =>
    cases free : unused s.entry with
    | some ip =>
      simp only [State.call, found, free]
      exact inv.recycle idle (unused_some free) found
    | none =>
      simp only [State.call, found, free]
      exact inv.panic idle

/-- `inode_lock` of an entry the thread has a reference to gets past its check. -/
theorem Inv.lock (has : 0 < s.has t ip) : Inv (s.call t (.lock ip)) := by
  have fit := (inv.slots ip).fit t
  simp only [idle] at fit
  simp only [State.call]
  split_ifs
  · exact inv.panic idle
  · apply inv.goto
    · simp [idle, Activity.phaseAt]
    · exact fun jp other => phaseAt_doing other
    · rw [phaseAt_self]
      exact ⟨fun _ => has, by simp, by simp, fun held _ _ => fit.valid held nofun nofun,
        by simpa [Uses, Activity.phaseAt] using fit.busy⟩
    · simp [Uses, idle, Activity.phaseAt]

theorem Inv.unlock (held : s.locked t ip = true) : Inv (s.call t (.unlock ip)) := by
  have fit := (inv.slots ip).fit t
  simp only [idle] at fit
  simp only [State.call]
  split_ifs
  · exact inv.panic idle
  · apply inv.goto
    · simp [idle, Activity.phaseAt]
    · exact fun jp other => phaseAt_doing other
    · rw [phaseAt_self]
      exact ⟨fun _ => fit.kept (.inl held), fun _ => held, by simp,
        fun _ _ _ => fit.valid held nofun nofun, fun _ => fit.busy (.inl held)⟩
    · simp [Uses, held]

/-- The first section of `inode_put`. -/
theorem Inv.put (has : 0 < s.has t ip) (keeps : s.locked t ip = true → 1 < s.has t ip) :
    Inv (s.call t (.put ip)) := by
  have slot := inv.slots ip
  have fit := slot.fit t
  simp only [idle] at fit
  simp only [State.call]
  split_ifs with last busy
  · exact inv.panic idle
  · have free : (s.entry ip).busy = false := by simpa using busy
    have unlocked : s.locked t ip = false := by
      by_contra held
      have set := fit.busy (.inl (by simpa using held))
      simp [free] at set
    apply inv.set
    · exact inv.unique.modify rfl rfl id
    · simp [idle, Activity.phaseAt]
    · exact fun jp other => phaseAt_doing other
    · apply slot.take free
      · rfl
      · rw [phaseAt_self]
        exact ⟨fun _ => has, by simp, fun _ => unlocked, by simp [unlocked], fun _ => rfl⟩
      · exact .inr phaseAt_self
  · apply inv.set
    · exact inv.unique.modify rfl rfl fun positive => by
        change 0 < (s.entry ip).ref - 1 at positive
        omega
    · simp [idle, Activity.phaseAt]
    · simp [Activity.phaseAt]
    · apply slot.move
      · change (s.entry ip).ref - 1 + _ = _
        push_cast [has]
        ring
      · rfl
      · exact id
      · refine ⟨fun kept => ?_, fit.inside, fit.freeing, fit.valid, fit.busy⟩
        have held : s.locked t ip = true := by simpa [Activity.phaseAt] using kept
        have more := keeps held
        omega
      · rw [idle]

theorem Inv.call (c : Call) (kept : c.Kept s t) : Inv (s.call t c) := by
  cases c with
  | get dev inum => exact inv.get idle dev inum
  | dup ip => exact inv.addRef idle ((inv.slots ip).ref_pos t kept)
  | lock ip => exact inv.lock idle kept
  | unlock ip => exact inv.unlock idle kept
  | put ip => exact inv.put idle kept.1 kept.2

end

/-- The section of `inode_lock`. -/
theorem Inv.setBusy (doing : s.activity t = .doing .waiting ip) (free : (s.entry ip).busy = false) :
    Inv (s.set t ip { s.entry ip with busy := true } (s.has t ip) true (.doing .locking ip)) := by
  have fit := inv.fit_doing doing
  apply inv.set
  · exact inv.unique.modify rfl rfl id
  · exact only_at doing
  · exact fun jp other => phaseAt_doing other
  · apply (inv.slots ip).take free
    · rfl
    · rw [phaseAt_self]
      exact ⟨fun _ => fit.kept (.inr nofun), fun _ => rfl, by simp, by simp, fun _ => rfl⟩
    · exact .inl rfl

theorem Inv.checkValid (doing : s.activity t = .doing .locking ip)
    (valid : (s.entry ip).valid = true) : Inv (s.goto t .idle) := by
  have fit := inv.fit_doing doing
  have held : s.locked t ip = true := fit.inside (.inl rfl)
  apply inv.goto
  · exact only_at doing
  · exact fun _ _ => rfl
  · exact ⟨fun _ => fit.kept (.inl held), fun _ => held, nofun, fun _ _ _ => valid,
      fun _ => fit.busy (.inl held)⟩
  · simp [Uses, held]

theorem Inv.startLoad (doing : s.activity t = .doing .locking ip) :
    Inv (s.goto t (.doing .loading ip)) := by
  have fit := inv.fit_doing doing
  have held : s.locked t ip = true := fit.inside (.inl rfl)
  apply inv.goto
  · exact only_at doing
  · exact fun jp other => phaseAt_doing other
  · rw [phaseAt_self]
    exact ⟨fun _ => fit.kept (.inl held), fun _ => held, by simp, by simp,
      fun _ => fit.busy (.inl held)⟩
  · simp [Uses, held]

/-- The end of `inode_lock`, whether it returns or finds an inode without type. -/
theorem Inv.load (doing : s.activity t = .doing .loading ip) (nlink : Nat) {a : Activity}
    (out : ∀ jp, a.phaseAt jp = none) :
    Inv (s.set t ip { s.entry ip with valid := true, nlink := nlink } (s.has t ip)
      (s.locked t ip) a) := by
  have fit := inv.fit_doing doing
  have held : s.locked t ip = true := fit.inside (.inr (.inl rfl))
  apply inv.set
  · exact inv.unique.modify rfl rfl id
  · exact only_at doing
  · exact fun jp _ => out jp
  · rw [out]
    apply (inv.slots ip).move
    · rfl
    · rfl
    · exact fun _ => rfl
    · exact ⟨fun _ => fit.kept (.inl held), fun _ => held, nofun, fun _ _ _ => rfl,
        fun _ => fit.busy (.inl held)⟩
    · simp [Uses, held]

/-- The section of `inode_unlock`. -/
theorem Inv.clearBusy (doing : s.activity t = .doing .unlocking ip) :
    Inv (s.set t ip { s.entry ip with busy := false } (s.has t ip) false .idle) := by
  have slot := inv.slots ip
  have held : s.locked t ip = true := (inv.fit_doing doing).inside (.inr (.inr rfl))
  apply inv.set
  · exact inv.unique.modify rfl rfl id
  · exact only_at doing
  · exact fun _ _ => rfl
  · apply slot.clear
    · exact fun u other used => other (slot.only u t used (.inl held))
    · rfl
    · rfl
    · constructor <;> simp [Uses, Activity.phaseAt]

/-- The second section of `inode_put`. -/
theorem Inv.freed (doing : s.activity t = .doing .freeing ip) :
    Inv (s.set t ip { s.entry ip with busy := false, valid := false, ref := (s.entry ip).ref - 1 }
      (s.has t ip - 1) (s.locked t ip) .idle) := by
  have slot := inv.slots ip
  have fit := inv.fit_doing doing
  have has : 0 < s.has t ip := fit.kept (.inr nofun)
  have unlocked : s.locked t ip = false := fit.freeing rfl
  have uses : Uses (s.locked t ip) ((s.activity t).phaseAt ip) := by
    rw [doing, phaseAt_self]
    exact .inr rfl
  apply inv.set
  · exact inv.unique.modify rfl rfl fun positive => by
      change 0 < (s.entry ip).ref - 1 at positive
      omega
  · exact only_at doing
  · exact fun _ _ => rfl
  · apply slot.clear
    · exact fun u other used => other (slot.only u t used uses)
    · rfl
    · change (s.entry ip).ref - 1 + _ = _
      push_cast [has]
      ring
    · constructor <;> simp [unlocked, Uses, Activity.phaseAt]

theorem Inv.resume (type nlink : Nat) : Inv (s.resume t type nlink) := by
  unfold State.resume
  split
  · exact inv
  · exact inv
  · rename_i ip doing
    split_ifs with busy
    · exact inv
    · exact inv.setBusy doing (by simpa using busy)
  · rename_i ip doing
    split_ifs with valid
    · exact inv.checkValid doing valid
    · exact inv.startLoad doing
  · rename_i ip doing
    apply inv.load doing
    intro jp
    split_ifs <;> rfl
  · rename_i ip doing
    exact inv.clearBusy doing
  · rename_i ip doing
    exact inv.freed doing

theorem Inv.modify (idle : s.activity t = .idle) (held : s.locked t ip = true) (nlink : Nat) :
    Inv (s.set t ip { s.entry ip with nlink := nlink } (s.has t ip) true .idle) := by
  have fit := (inv.slots ip).fit t
  simp only [idle, held] at fit
  apply inv.set
  · exact inv.unique.modify rfl rfl id
  · simp [idle, Activity.phaseAt]
  · exact fun _ _ => rfl
  · apply (inv.slots ip).move
    · rfl
    · rfl
    · exact id
    · exact ⟨fit.kept, fit.inside, fit.freeing, fit.valid, fit.busy⟩
    · simp [idle, held]

theorem Inv.step {s' : State T} (step : Step Call.Kept s s') : Inv s' := by
  cases step with
  | call t c idle kept => exact inv.call idle c kept
  | resume t type nlink => exact inv.resume type nlink
  | modify t ip nlink idle held => exact inv.modify idle held nlink

end

theorem Reach.inv (reach : Reach Call.Kept s) : Inv s := by
  induction reach with
  | start => exact Inv.start
  | step _ step ih => exact ih.step step

end Steps

/-! ## Every run -/

section Runs
variable {T : Type} [DecidableEq T]

/-- An entry with references keeps the inode it stands for. -/
theorem Step.ident {may : State T → T → Call → Prop} {s s' : State T} (step : Step may s s')
    (ip : Fin nInode) (used : (s.entry ip).ref ≠ 0) :
    (s'.entry ip).dev = (s.entry ip).dev ∧ (s'.entry ip).inum = (s.entry ip).inum := by
  -- Writing back an entry with the same inode changes no entry's inode.
  have keep : ∀ (t : T) (jp : Fin nInode) (e : Entry) (n : Nat) (l : Bool) (a : Activity),
      e.dev = (s.entry jp).dev → e.inum = (s.entry jp).inum →
      ((s.set t jp e n l a).entry ip).dev = (s.entry ip).dev ∧
      ((s.set t jp e n l a).entry ip).inum = (s.entry ip).inum := by
    intro t jp e n l a dev inum
    by_cases here : ip = jp
    · subst here
      simp [State.set, dev, inum]
    · simp [State.set, here]
  cases step with
  | call t c idle allowed =>
    cases c with
    | get dev inum =>
      simp only [State.call]
      split
      · exact keep _ _ _ _ _ _ rfl rfl
      · split
        · rename_i jp free
          have other : ip ≠ jp := fun equal => used (equal ▸ unused_some free)
          simp [State.set, other]
        · exact ⟨rfl, rfl⟩
    | dup jp => exact keep _ _ _ _ _ _ rfl rfl
    | lock jp =>
      simp only [State.call]
      split_ifs <;> exact ⟨rfl, rfl⟩
    | unlock jp =>
      simp only [State.call]
      split_ifs <;> exact ⟨rfl, rfl⟩
    | put jp =>
      simp only [State.call]
      split_ifs
      · exact ⟨rfl, rfl⟩
      · exact keep _ _ _ _ _ _ rfl rfl
      · exact keep _ _ _ _ _ _ rfl rfl
  | resume t type nlink =>
    unfold State.resume
    split
    · exact ⟨rfl, rfl⟩
    · exact ⟨rfl, rfl⟩
    · split_ifs
      · exact ⟨rfl, rfl⟩
      · exact keep _ _ _ _ _ _ rfl rfl
    · split_ifs <;> exact ⟨rfl, rfl⟩
    · exact keep _ _ _ _ _ _ rfl rfl
    · exact keep _ _ _ _ _ _ rfl rfl
    · exact keep _ _ _ _ _ _ rfl rfl
  | modify t jp nlink idle held => exact keep _ _ _ _ _ _ rfl rfl

/-- The thread has the entry locked, or frees it in `inode_put`. -/
def State.HasBusy (s : State T) (t : T) (ip : Fin nInode) : Prop :=
  s.locked t ip = true ∨ s.activity t = .doing .freeing ip

/-- The thread has returned from `inode_lock` and not yet unlocked the entry. -/
def State.Locked (s : State T) (t : T) (ip : Fin nInode) : Prop :=
  s.locked t ip = true ∧ s.activity t ≠ .doing .locking ip ∧ s.activity t ≠ .doing .loading ip

theorem phaseAt_eq_some {a : Activity} {ip : Fin nInode} {phase : Phase} :
    a.phaseAt ip = some phase ↔ a = .doing phase ip := by
  cases a with
  | idle => simp [Activity.phaseAt]
  | panicked => simp [Activity.phaseAt]
  | doing other jp =>
    by_cases here : jp = ip
    · simp [Activity.phaseAt, here]
    · simp [Activity.phaseAt, here]

/-- While every thread only duplicates, locks and puts entries it has a reference to, unlocks
what it has locked, and keeps a reference to an entry as long as it has it locked, each inode has
at most one entry in use and an entry in use keeps its inode, `I_BUSY` is set exactly while one
thread has the entry locked or frees it, and a thread that has locked an entry finds it valid. -/
theorem one_entry_per_inode [Fintype T] (s : State T) (reach : Reach Call.Kept s) :
    (∀ ip jp, 0 < (s.entry ip).ref → 0 < (s.entry jp).ref → (s.entry ip).dev = (s.entry jp).dev →
      (s.entry ip).inum = (s.entry jp).inum → ip = jp) ∧
    (∀ s', Step Call.Kept s s' → ∀ ip, 0 < (s.entry ip).ref →
      (s'.entry ip).dev = (s.entry ip).dev ∧ (s'.entry ip).inum = (s.entry ip).inum) ∧
    (∀ ip, (s.entry ip).busy = true ↔ ∃! t, s.HasBusy t ip) ∧
    (∀ t ip, s.Locked t ip → (s.entry ip).valid = true) := by
  have inv := reach.inv
  have uses : ∀ t ip, s.HasBusy t ip ↔ Uses (s.locked t ip) ((s.activity t).phaseAt ip) := by
    intro t ip
    unfold State.HasBusy Uses
    rw [phaseAt_eq_some]
  refine ⟨inv.unique, fun s' step ip used => step.ident ip (by omega), fun ip => ?_, ?_⟩
  · have slot := inv.slots ip
    constructor
    · intro busy
      obtain ⟨t, used⟩ := slot.someone busy
      refine ⟨t, (uses t ip).mpr used, fun u other => ?_⟩
      exact slot.only u t ((uses u ip).mp other) used
    · rintro ⟨t, used, -⟩
      exact (slot.fit t).busy ((uses t ip).mp used)
  · rintro t ip ⟨held, first, second⟩
    apply ((inv.slots ip).fit t).valid held
    · exact fun locking => first (phaseAt_eq_some.mp locking)
    · exact fun loading => second (phaseAt_eq_some.mp loading)

end Runs

/-- Two threads: the first one gets inode 5 and locks it. -/
def lockedByFirst : State Bool :=
  ((((start.call false (.get 1 5)).call false (.lock ⟨0, by decide⟩)).resume false 2 1).resume
    false 2 1).resume false 2 1

theorem lockedByFirst_reach {may : State Bool → Bool → Call → Prop}
    (get : may start false (.get 1 5))
    (lock : may (start.call false (.get 1 5)) false (.lock ⟨0, by decide⟩)) :
    Reach may lockedByFirst := by
  unfold lockedByFirst
  refine .step (.step (.step (.step (.step .start (.call _ _ ?_ get)) (.call _ _ ?_ lock))
    (.resume _ _ _)) (.resume _ _ _)) (.resume _ _ _)
  · rfl
  · decide

theorem one_entry_per_inode_locked :
    lockedByFirst.Locked false ⟨0, by decide⟩ ∧
    (lockedByFirst.entry ⟨0, by decide⟩).valid = true ∧
    ∃! t, lockedByFirst.HasBusy t ⟨0, by decide⟩ := by
  have reach : Reach Call.Kept lockedByFirst := by
    apply lockedByFirst_reach
    · trivial
    · change 0 < _
      decide
  obtain ⟨-, -, busy, valid⟩ := one_entry_per_inode lockedByFirst reach
  have held : lockedByFirst.Locked false ⟨0, by decide⟩ := by
    unfold State.Locked
    decide
  exact ⟨held, valid _ _ held, (busy _).mp (by decide)⟩

/-- A thread that puts its only reference before it unlocks the inode has a lock on an entry that
the next `inode_get` takes for another inode. -/
theorem put_before_unlock : ∃ s : State Bool, Reach Call.Owned s ∧
    (∃! t, s.HasBusy t ⟨0, by decide⟩) ∧ s.Locked false ⟨0, by decide⟩ ∧
    (s.entry ⟨0, by decide⟩).busy = false ∧ (s.entry ⟨0, by decide⟩).valid = false := by
  refine ⟨(lockedByFirst.call false (.put ⟨0, by decide⟩)).call true (.get 1 6),
    .step (.step (lockedByFirst_reach trivial trivial) (.call _ _ ?_ ?_)) (.call _ _ ?_ trivial), ?_⟩
  · decide
  · change 0 < _
    decide
  · decide
  · unfold State.HasBusy State.Locked ExistsUnique
    decide

end OsAudio.Fs.InodeCache

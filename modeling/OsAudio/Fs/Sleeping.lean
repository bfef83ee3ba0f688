import OsAudio.Fs.Inode
import OsAudio.Lib.Monitor

/-!
# Threads that wait for the log, an inode, a buffer or the disk

The functions of the file system that sleep, and those that wake up the sleepers, as code for
any number of threads: `begin_trans` and the end of `commit_trans`, `inode_lock`,
`inode_unlock` and `inode_put`, `bufcache_get` and `bufcache_release`, `ide_rw` and `ide_intr`.
Between them a thread does what it likes; it only passes buffers to `bufcache_release`,
`bufcache_write`, `log_write` and `ide_rw` that it got from `bufcache_get` and did not release
since.  The data the functions move is left out.
-/
namespace OsAudio.Fs
open OsAudio.Lib
open Function (update update_self update_apply update_of_ne)

/-! ## The code -/

/-- The spinlocks of the log, the inode cache, the buffer cache and the disk driver. -/
inductive LockName
  | log
  | inodeCache
  | bcache
  | ide
  deriving DecidableEq, Repr

/-- The addresses threads sleep on. -/
inductive Channel
  | log
  | inode (ip : Fin nInode)
  | buf (b : Fin nBuf)
  deriving DecidableEq, Repr

/-- The device and the sector a buffer holds. -/
abbrev Ident := Nat × Nat

/-- `dev` of a buffer that holds no sector, -1 as an unsigned word. -/
def noDev : Nat := 4294967295

/-- The fields the functions use, and the local variables of the threads: the buffers a thread has
with what it asked for, the inodes it is freeing, and the request an interrupt handler took. -/
structure Shared (T : Type) where
  busy : Bool
  ibusy : Fin nInode → Bool
  ivalid : Fin nInode → Bool
  ref : Fin nInode → Int
  nlink : Fin nInode → Nat
  /-- The list of all buffers, most recently used first. -/
  order : List (Fin nBuf)
  ident : Fin nBuf → Ident
  bbusy : Fin nBuf → Bool
  bvalid : Fin nBuf → Bool
  bdirty : Fin nBuf → Bool
  idequeue : List (Fin nBuf)
  havedisk1 : Bool
  holds : T → Fin nBuf → Option Ident
  freeing : T → List (Fin nInode)
  serving : T → Option (Fin nBuf)

/-- Program points.  Each function begins at the point of its name. -/
inductive Point
  | out
  | panicked (lock : Option LockName)
  | beginTrans
  | beginTest
  | beginSleep
  | beginDone
  | commitTrans
  | commitClear
  | commitWake
  | commitDone
  | inodeLock (ip : Fin nInode)
  | lockEnter (ip : Fin nInode)
  | lockTest (ip : Fin nInode)
  | lockSleep (ip : Fin nInode)
  | lockDone
  | inodeUnlock (ip : Fin nInode)
  | unlockEnter (ip : Fin nInode)
  | unlockClear (ip : Fin nInode)
  | unlockWake (ip : Fin nInode)
  | unlockDone
  | inodePut (ip : Fin nInode)
  | putTest (ip : Fin nInode)
  | putFree
  | putFreed (ip : Fin nInode)
  | putEnter (ip : Fin nInode)
  | putClear (ip : Fin nInode)
  | putWake (ip : Fin nInode)
  | putDrop (ip : Fin nInode)
  | putDone
  | fields (ip : Fin nInode) (ref : Int) (nlink : Nat) (valid : Bool)
  | bufcacheGet (id : Ident)
  | getScan (id : Ident)
  | getSleep (id : Ident) (b : Fin nBuf)
  | getDone
  | bufcacheRelease (b : Fin nBuf)
  | releaseEnter (b : Fin nBuf)
  | releaseMove (b : Fin nBuf)
  | releaseWake (b : Fin nBuf)
  | releaseDone
  | setDirty (b : Fin nBuf)
  | ideRw (b : Fin nBuf)
  | ideEnter (b : Fin nBuf)
  | ideAppend (b : Fin nBuf)
  | ideTest (b : Fin nBuf)
  | ideSleep (b : Fin nBuf)
  | ideDone
  | ideIntr
  | intrTake
  | intrMark (b : Fin nBuf)
  | intrWake (b : Fin nBuf)
  | intrDone

/-- What a thread outside these functions may do next. -/
def Point.Entry : Point → Prop
  | .beginTrans | .commitTrans | .inodeLock _ | .inodeUnlock _ | .inodePut _ | .putFreed _
  | .fields _ _ _ _ | .bufcacheGet _ | .bufcacheRelease _ | .setDirty _ | .ideRw _ | .ideIntr => True
  | _ => False

section Code
variable {T : Type} [DecidableEq T]

/-- The thread has buffer `b`, having asked for `id`, or has it no more. -/
def Shared.setHolds (d : Shared T) (t : T) (b : Fin nBuf) (id : Option Ident) : Shared T :=
  { d with holds := update d.holds t (update (d.holds t) b id) }

/-- The two loops of `bufcache_get`, in its critical section. -/
def getScanEffect (id : Ident) (t : T) (d : Shared T) : Shared T × Point :=
  match d.order.find? fun b => d.ident b = id with
  | some b =>
    if d.bbusy b then (d, .getSleep id b)
    else ({ d with bbusy := update d.bbusy b true }.setHolds t b (some id), .getDone)
  | none =>
    match d.order.reverse.find? fun b => !d.bbusy b && !d.bdirty b with
    | some b =>
      ({ d with
        ident := update d.ident b id
        bbusy := update d.bbusy b true
        bvalid := update d.bvalid b false
        bdirty := update d.bdirty b false }.setHolds t b (some id), .getDone)
    | none => (d, .panicked (some .bcache))

/-- The actions on the shared fields.  A thread that does not have the buffer it would need, or
is not freeing the inode, does not get there. -/
def Point.effect : Point → T → Shared T → Option (Shared T × Point)
  | .beginTest, _, d =>
    some (if d.busy then (d, .beginSleep) else ({ d with busy := true }, .beginDone))
  | .commitClear, _, d => some ({ d with busy := false }, .commitWake)
  | .inodeLock ip, _, d => some (d, if d.ref ip < 1 then .panicked none else .lockEnter ip)
  | .lockTest ip, _, d =>
    some (if d.ibusy ip then (d, .lockSleep ip)
      else ({ d with ibusy := update d.ibusy ip true }, .lockDone))
  | .inodeUnlock ip, _, d =>
    some (d, if !d.ibusy ip ∨ d.ref ip < 1 then .panicked none else .unlockEnter ip)
  | .unlockClear ip, _, d =>
    some ({ d with ibusy := update d.ibusy ip false }, .unlockWake ip)
  | .putTest ip, t, d =>
    if d.ref ip = 1 ∧ d.ivalid ip ∧ d.nlink ip = 0 then
      if d.ibusy ip then some (d, .panicked (some .inodeCache))
      else some ({ d with
        ibusy := update d.ibusy ip true
        freeing := update d.freeing t (ip :: d.freeing t) }, .putFree)
    else some (d, .putDrop ip)
  | .putFreed ip, t, d =>
    if (d.freeing t).head? = some ip then
      some ({ d with freeing := update d.freeing t (d.freeing t).tail }, .putEnter ip)
    else none
  | .putClear ip, _, d =>
    some ({ d with
      ibusy := update d.ibusy ip false
      ivalid := update d.ivalid ip false }, .putWake ip)
  | .putDrop ip, _, d => some ({ d with ref := update d.ref ip (d.ref ip - 1) }, .putDone)
  | .fields ip ref nlink valid, _, d =>
    some ({ d with
      ref := update d.ref ip ref
      nlink := update d.nlink ip nlink
      ivalid := update d.ivalid ip valid }, .out)
  | .getScan id, t, d => some (getScanEffect id t d)
  | .bufcacheRelease b, t, d =>
    if (d.holds t b).isSome then
      some (d, if d.bbusy b then .releaseEnter b else .panicked none)
    else none
  | .releaseMove b, t, d =>
    some ({ d with
      order := b :: d.order.erase b
      bbusy := update d.bbusy b false }.setHolds t b none, .releaseWake b)
  | .setDirty b, t, d =>
    if (d.holds t b).isSome then some ({ d with bdirty := update d.bdirty b true }, .out)
    else none
  | .ideRw b, t, d =>
    if (d.holds t b).isSome then
      some (d, if !d.bbusy b ∨ d.bvalid b ∧ !d.bdirty b ∨ (d.ident b).1 ≠ 0 ∧ !d.havedisk1 then
        .panicked none else .ideEnter b)
    else none
  | .ideAppend b, _, d => some ({ d with idequeue := d.idequeue ++ [b] }, .ideTest b)
  | .ideTest b, _, d => some (d, if d.bvalid b ∧ !d.bdirty b then .ideDone else .ideSleep b)
  | .intrTake, t, d =>
    match d.idequeue with
    | [] => some (d, .intrDone)
    | b :: rest =>
      some ({ d with
        idequeue := rest
        serving := update d.serving t (some b) }, .intrMark b)
  | .intrMark b, t, d =>
    some ({ d with
      bvalid := update d.bvalid b true
      bdirty := update d.bdirty b false
      serving := update d.serving t none }, .intrWake b)
  | _, _, _ => none

def fsCode : Point → Instr T Point (Shared T) LockName Channel
  | .out => .branch Point.Entry
  | .beginTrans => .acquire .log .beginTest
  | .beginSleep => .sleep .log .log .beginTest
  | .beginDone => .release .log .out
  | .commitTrans => .acquire .log .commitClear
  | .commitWake => .wakeup .log .commitDone
  | .commitDone => .release .log .out
  | .lockEnter ip => .acquire .inodeCache (.lockTest ip)
  | .lockSleep ip => .sleep (.inode ip) .inodeCache (.lockTest ip)
  | .lockDone => .release .inodeCache .out
  | .unlockEnter ip => .acquire .inodeCache (.unlockClear ip)
  | .unlockWake ip => .wakeup (.inode ip) .unlockDone
  | .unlockDone => .release .inodeCache .out
  | .inodePut ip => .acquire .inodeCache (.putTest ip)
  | .putFree => .release .inodeCache .out
  | .putEnter ip => .acquire .inodeCache (.putClear ip)
  | .putWake ip => .wakeup (.inode ip) (.putDrop ip)
  | .putDone => .release .inodeCache .out
  | .bufcacheGet id => .acquire .bcache (.getScan id)
  | .getSleep id b => .sleep (.buf b) .bcache (.getScan id)
  | .getDone => .release .bcache .out
  | .releaseEnter b => .acquire .bcache (.releaseMove b)
  | .releaseWake b => .wakeup (.buf b) .releaseDone
  | .releaseDone => .release .bcache .out
  | .ideEnter b => .acquire .ide (.ideAppend b)
  | .ideSleep b => .sleep (.buf b) .ide (.ideTest b)
  | .ideDone => .release .ide .out
  | .ideIntr => .acquire .ide .intrTake
  | .intrWake b => .wakeup (.buf b) .intrDone
  | .intrDone => .release .ide .out
  | p => .act p.effect

/-- The lock held at each point. -/
def Point.held : Point → Option LockName
  | .beginTest | .beginSleep | .beginDone | .commitClear | .commitWake | .commitDone => some .log
  | .lockTest _ | .lockSleep _ | .lockDone | .unlockClear _ | .unlockWake _ | .unlockDone
  | .putTest _ | .putFree | .putClear _ | .putWake _ | .putDrop _ | .putDone => some .inodeCache
  | .getScan _ | .getSleep _ _ | .getDone | .releaseMove _ | .releaseWake _ | .releaseDone =>
    some .bcache
  | .ideAppend _ | .ideTest _ | .ideSleep _ | .ideDone | .intrTake | .intrMark _ | .intrWake _
  | .intrDone => some .ide
  | .panicked lock => lock
  | _ => none

/-- After `bufcache_init`, with nothing under way. -/
structure Started (d : Shared T) : Prop where
  busy : d.busy = false
  ibusy : ∀ ip, d.ibusy ip = false
  order : d.order = (List.finRange nBuf).reverse
  ident : ∀ b, d.ident b = (noDev, 0)
  bbusy : ∀ b, d.bbusy b = false
  idequeue : d.idequeue = []
  holds : ∀ t b, d.holds t b = none
  serving : ∀ t, d.serving t = none

/-- The states that threads reach by running these functions. -/
abbrev FsReach : Threads T Point (Shared T) LockName Channel → Prop :=
  Threads.Reach fsCode Point.out Started

/-! ## What an action can do -/

/-- Every action with the state it is made in, the state it leaves and the point it goes on at. -/
inductive Acts (t : T) (d : Shared T) : Point → Shared T → Point → Prop
  | beginWait (busy : d.busy = true) : Acts t d .beginTest d .beginSleep
  | beginTake : Acts t d .beginTest { d with busy := true } .beginDone
  | commitClear : Acts t d .commitClear { d with busy := false } .commitWake
  | lockPanic (ip : Fin nInode) : Acts t d (.inodeLock ip) d (.panicked none)
  | lockCheck (ip : Fin nInode) : Acts t d (.inodeLock ip) d (.lockEnter ip)
  | lockWait (ip : Fin nInode) (busy : d.ibusy ip = true) : Acts t d (.lockTest ip) d (.lockSleep ip)
  | lockTake (ip : Fin nInode) :
      Acts t d (.lockTest ip) { d with ibusy := update d.ibusy ip true } .lockDone
  | unlockPanic (ip : Fin nInode) : Acts t d (.inodeUnlock ip) d (.panicked none)
  | unlockCheck (ip : Fin nInode) : Acts t d (.inodeUnlock ip) d (.unlockEnter ip)
  | unlockClear (ip : Fin nInode) :
      Acts t d (.unlockClear ip) { d with ibusy := update d.ibusy ip false } (.unlockWake ip)
  | putPanic (ip : Fin nInode) : Acts t d (.putTest ip) d (.panicked (some .inodeCache))
  | putFree (ip : Fin nInode) : Acts t d (.putTest ip) { d with
      ibusy := update d.ibusy ip true
      freeing := update d.freeing t (ip :: d.freeing t) } .putFree
  | putKeep (ip : Fin nInode) : Acts t d (.putTest ip) d (.putDrop ip)
  | putFreed (ip : Fin nInode) : Acts t d (.putFreed ip) { d with
      freeing := update d.freeing t (d.freeing t).tail } (.putEnter ip)
  | putClear (ip : Fin nInode) : Acts t d (.putClear ip) { d with
      ibusy := update d.ibusy ip false
      ivalid := update d.ivalid ip false } (.putWake ip)
  | putDrop (ip : Fin nInode) :
      Acts t d (.putDrop ip) { d with ref := update d.ref ip (d.ref ip - 1) } .putDone
  | fields (ip : Fin nInode) (ref : Int) (nlink : Nat) (valid : Bool) :
      Acts t d (.fields ip ref nlink valid) { d with
        ref := update d.ref ip ref
        nlink := update d.nlink ip nlink
        ivalid := update d.ivalid ip valid } .out
  | getWait (id : Ident) (b : Fin nBuf) (busy : d.bbusy b = true) :
      Acts t d (.getScan id) d (.getSleep id b)
  | getTake (id : Ident) (b : Fin nBuf) (found : d.ident b = id) (free : d.bbusy b = false) :
      Acts t d (.getScan id)
        ({ d with bbusy := update d.bbusy b true }.setHolds t b (some id)) .getDone
  | getRecycle (id : Ident) (b : Fin nBuf) (absent : ∀ c ∈ d.order, d.ident c ≠ id)
      (free : d.bbusy b = false) (clean : d.bdirty b = false) :
      Acts t d (.getScan id) ({ d with
        ident := update d.ident b id
        bbusy := update d.bbusy b true
        bvalid := update d.bvalid b false
        bdirty := update d.bdirty b false }.setHolds t b (some id)) .getDone
  | getPanic (id : Ident) : Acts t d (.getScan id) d (.panicked (some .bcache))
  | releasePanic (b : Fin nBuf) : Acts t d (.bufcacheRelease b) d (.panicked none)
  | releaseCheck (b : Fin nBuf) (has : (d.holds t b).isSome) :
      Acts t d (.bufcacheRelease b) d (.releaseEnter b)
  | releaseMove (b : Fin nBuf) : Acts t d (.releaseMove b) ({ d with
      order := b :: d.order.erase b
      bbusy := update d.bbusy b false }.setHolds t b none) (.releaseWake b)
  | setDirty (b : Fin nBuf) (has : (d.holds t b).isSome) :
      Acts t d (.setDirty b) { d with bdirty := update d.bdirty b true } .out
  | idePanic (b : Fin nBuf) : Acts t d (.ideRw b) d (.panicked none)
  | ideCheck (b : Fin nBuf) (has : (d.holds t b).isSome) : Acts t d (.ideRw b) d (.ideEnter b)
  | ideAppend (b : Fin nBuf) :
      Acts t d (.ideAppend b) { d with idequeue := d.idequeue ++ [b] } (.ideTest b)
  | ideFinish (b : Fin nBuf) : Acts t d (.ideTest b) d .ideDone
  | ideWait (b : Fin nBuf) (pending : ¬ (d.bvalid b = true ∧ d.bdirty b = false)) :
      Acts t d (.ideTest b) d (.ideSleep b)
  | intrSpurious : Acts t d .intrTake d .intrDone
  | intrTake (b : Fin nBuf) (rest : List (Fin nBuf)) (queue : d.idequeue = b :: rest) :
      Acts t d .intrTake { d with
        idequeue := rest
        serving := update d.serving t (some b) } (.intrMark b)
  | intrMark (b : Fin nBuf) : Acts t d (.intrMark b) { d with
      bvalid := update d.bvalid b true
      bdirty := update d.bdirty b false
      serving := update d.serving t none } (.intrWake b)

theorem getScan_acts (id : Ident) (t : T) (d : Shared T) :
    Acts t d (.getScan id) (getScanEffect id t d).1 (getScanEffect id t d).2 := by
  unfold getScanEffect
  split
  · rename_i b found
    have named := List.find?_some found
    simp only [decide_eq_true_eq] at named
    split
    · rename_i busy
      exact .getWait id b busy
    · rename_i free
      exact .getTake id b named (by simpa using free)
  · rename_i absent
    have none : ∀ c ∈ d.order, d.ident c ≠ id := by
      intro c member
      simpa using List.find?_eq_none.mp absent c member
    split
    · rename_i b found
      have usable := List.find?_some found
      simp only [Bool.and_eq_true, Bool.not_eq_true'] at usable
      exact .getRecycle id b none usable.1 usable.2
    · exact .getPanic id

theorem acts_of_effect {p q : Point} {t : T} {d d' : Shared T} (done : p.effect t d = some (d', q)) :
    Acts t d p d' q := by
  unfold Point.effect at done
  split at done
  · split at done <;> cases done
    · exact .beginWait ‹_›
    · exact .beginTake
  · cases done
    exact .commitClear
  · cases done
    split
    · exact .lockPanic _
    · exact .lockCheck _
  · split at done <;> cases done
    · exact .lockWait _ ‹_›
    · exact .lockTake _
  · cases done
    split
    · exact .unlockPanic _
    · exact .unlockCheck _
  · cases done
    exact .unlockClear _
  · split at done
    · split at done <;> cases done
      · exact .putPanic _
      · exact .putFree _
    · cases done
      exact .putKeep _
  · split at done <;> cases done
    exact .putFreed _
  · cases done
    exact .putClear _
  · cases done
    exact .putDrop _
  · cases done
    exact .fields _ _ _ _
  · rename_i id
    have acts := getScan_acts id t d
    rwa [Option.some.inj done] at acts
  · split at done <;> cases done
    split
    · exact .releaseCheck _ ‹_›
    · exact .releasePanic _
  · cases done
    exact .releaseMove _
  · split at done <;> cases done
    exact .setDirty _ ‹_›
  · split at done <;> cases done
    split
    · exact .idePanic _
    · exact .ideCheck _ ‹_›
  · cases done
    exact .ideAppend _
  · cases done
    split
    · exact .ideFinish _
    · rename_i pending
      exact .ideWait _ (by simpa using pending)
  · split at done <;> cases done
    · exact .intrSpurious
    · rename_i queue
      exact .intrTake _ _ queue
  · cases done
    exact .intrMark _
  · cases done

theorem acts_of_code {p q : Point} {t : T} {d d' : Shared T} {f : T → Shared T → Option (Shared T × Point)}
    (instr : fsCode p = .act f) (done : f t d = some (d', q)) : Acts t d p d' q := by
  obtain rfl : p.effect = f := by
    cases p <;> cases instr <;> rfl
  exact acts_of_effect done

/-! ## Locks -/

theorem fsCode_locks : Threads.LockMap (fsCode (T := T)) Point.held where
  acquire := by
    intro p l next instr
    cases p <;> cases instr <;> exact ⟨rfl, rfl⟩
  release := by
    intro p l next instr
    cases p <;> cases instr <;> exact ⟨rfl, rfl⟩
  sleep := by
    intro p c l next instr
    cases p <;> cases instr <;> exact ⟨rfl, rfl⟩
  wakeup := by
    intro p c next instr
    cases p <;> cases instr <;> rfl
  act := by
    intro p f t d d' next instr done
    cases acts_of_code instr done <;> rfl
  branch := by
    intro p targets next instr target
    cases p <;> cases instr
    cases next <;> first | rfl | cases target

/-! ## Buffers and their holders -/

/-- At most one buffer for a sector, at most one holder for a buffer. -/
structure OneHolder (d : Shared T) : Prop where
  listed : ∀ b, b ∈ d.order
  distinct : ∀ b c, (d.ident b).1 ≠ noDev → d.ident b = d.ident c → b = c
  held : ∀ b, d.bbusy b = true → ∃ t, (d.holds t b).isSome
  busy : ∀ t b id, d.holds t b = some id → d.bbusy b = true ∧ d.ident b = id
  single : ∀ t u b, (d.holds t b).isSome → (d.holds u b).isSome → t = u

section Holders
variable {d : Shared T} {t : T} {b : Fin nBuf}

theorem holds_setHolds (id : Option Ident) (u : T) (c : Fin nBuf) :
    (d.setHolds t b id).holds u c = if u = t ∧ c = b then id else d.holds u c := by
  unfold Shared.setHolds
  by_cases thread : u = t
  · subst thread
    by_cases same : c = b
    · simp [same]
    · simp [same]
  · simp [thread]

omit [DecidableEq T] in
theorem OneHolder.unheld (inv : OneHolder d) (free : d.bbusy b = false) (u : T) :
    d.holds u b = none := by
  cases holding : d.holds u b with
  | none => rfl
  | some id =>
    have busy := (inv.busy u b id holding).1
    rw [free] at busy
    cases busy

/-- The other busy buffers keep their holders. -/
theorem OneHolder.held_other (inv : OneHolder d) {x : Bool} {id : Option Ident} {c : Fin nBuf} (other : c ≠ b)
    (busy : update d.bbusy b x c = true) : ∃ u, ((d.setHolds t b id).holds u c).isSome := by
  rw [update_of_ne other] at busy
  obtain ⟨u, holding⟩ := inv.held c busy
  refine ⟨u, ?_⟩
  rw [holds_setHolds, if_neg fun both => other both.2]
  exact holding

/-- A buffer that nobody has gets a holder, with the identity it is asked for. -/
theorem OneHolder.take (inv : OneHolder d) {id : Ident} {ident : Fin nBuf → Ident}
    {valid dirty : Fin nBuf → Bool} (free : d.bbusy b = false) (here : ident b = id)
    (others : ∀ c, c ≠ b → ident c = d.ident c)
    (distinct : ∀ c e, (ident c).1 ≠ noDev → ident c = ident e → c = e) :
    OneHolder ({ d with
      ident := ident
      bbusy := update d.bbusy b true
      bvalid := valid
      bdirty := dirty }.setHolds t b (some id)) := by
  refine ⟨inv.listed, distinct, ?_, ?_, ?_⟩
  · intro c busy
    by_cases same : c = b
    · refine ⟨t, ?_⟩
      rw [holds_setHolds, if_pos ⟨rfl, same⟩]
      rfl
    · exact inv.held_other same busy
  · intro u c asked holding
    rw [holds_setHolds] at holding
    split at holding
    · rename_i both
      obtain ⟨rfl, rfl⟩ := both
      cases holding
      exact ⟨update_self .., here⟩
    · have before := inv.busy u c asked holding
      have other : c ≠ b := by
        rintro rfl
        rw [free] at before
        cases before.1
      refine ⟨?_, (others c other).trans before.2⟩
      exact (update_of_ne other ..).trans before.1
  · intro u v c left right
    rw [holds_setHolds] at left right
    by_cases same : c = b
    · subst same
      have none := inv.unheld free
      simp only [and_true] at left right
      split at left
      · rename_i first
        split at right
        · rename_i second
          exact first.trans second.symm
        · rw [none] at right
          cases right
      · rw [none] at left
        cases left
    · rw [if_neg fun both => same both.2] at left right
      exact inv.single u v c left right

/-- The holder of a buffer gives it back. -/
theorem OneHolder.drop (inv : OneHolder d) (has : (d.holds t b).isSome) :
    OneHolder ({ d with
      order := b :: d.order.erase b
      bbusy := update d.bbusy b false }.setHolds t b none) := by
  refine ⟨?_, inv.distinct, ?_, ?_, ?_⟩
  · intro c
    by_cases same : c = b
    · exact same ▸ List.mem_cons_self
    · exact .tail _ ((List.mem_erase_of_ne same).mpr (inv.listed c))
  · intro c busy
    by_cases same : c = b
    · subst same
      have now : update d.bbusy c false c = true := busy
      rw [update_self] at now
      cases now
    · exact inv.held_other same busy
  · intro u c asked holding
    rw [holds_setHolds] at holding
    split at holding
    · cases holding
    · rename_i apart
      have before := inv.busy u c asked holding
      have other : c ≠ b := by
        rintro rfl
        have holder : (d.holds u c).isSome := by
          have shown : d.holds u c = some asked := holding
          rw [shown]
          rfl
        exact apart ⟨inv.single u t c holder has, rfl⟩
      exact ⟨(update_of_ne other ..).trans before.1, before.2⟩
  · intro u v c left right
    rw [holds_setHolds] at left right
    split at left
    · cases left
    · split at right
      · cases right
      · exact inv.single u v c left right

omit [DecidableEq T] in
/-- Fields that do not matter here change. -/
theorem OneHolder.congr (inv : OneHolder d) {d' : Shared T} (order : d'.order = d.order)
    (ident : d'.ident = d.ident) (bbusy : d'.bbusy = d.bbusy) (holds : d'.holds = d.holds) :
    OneHolder d' := by
  constructor
  · rw [order]
    exact inv.listed
  · rw [ident]
    exact inv.distinct
  · rw [bbusy, holds]
    exact inv.held
  · rw [bbusy, holds, ident]
    exact inv.busy
  · rw [holds]
    exact inv.single

theorem Acts.oneHolder {p q : Point} {d' : Shared T} (acts : Acts t d p d' q) (inv : OneHolder d)
    (has : ∀ b, p = .releaseMove b → (d.holds t b).isSome) : OneHolder d' := by
  cases acts with
  | getTake id b found free =>
    exact inv.take free found (fun _ _ => rfl) inv.distinct
  | getRecycle id b absent free clean =>
    refine inv.take free (update_self ..) (fun c other => update_of_ne other ..) ?_
    intro c e device same
    by_cases left : c = b
    · by_cases right : e = b
      · exact left.trans right.symm
      · rw [left, update_self, update_of_ne right] at same
        exact absurd same.symm (absent e (inv.listed e))
    · by_cases right : e = b
      · rw [right, update_self, update_of_ne left] at same
        exact absurd same (absent c (inv.listed c))
      · rw [update_of_ne left] at same device
        rw [update_of_ne right] at same
        exact inv.distinct c e device same
  | releaseMove b => exact inv.drop (has b rfl)
  | _ => exact inv.congr rfl rfl rfl rfl

end Holders

/-! ## Requests to the disk -/

/-- The request for `b` is queued, taken by an interrupt handler, or done. -/
def Requested (d : Shared T) (b : Fin nBuf) : Prop :=
  b ∈ d.idequeue ∨ (∃ u, d.serving u = some b) ∨ (d.bvalid b = true ∧ d.bdirty b = false)

/-- The buffer that the thread has at a point, for which it made a request, that it serves. -/
def Point.uses : Point → Option (Fin nBuf)
  | .releaseEnter b | .releaseMove b | .ideEnter b | .ideAppend b | .ideTest b | .ideSleep b => some b
  | _ => none

def Point.awaits : Point → Option (Fin nBuf)
  | .ideTest b | .ideSleep b => some b
  | _ => none

def Point.serves : Point → Option (Fin nBuf)
  | .intrMark b => some b
  | _ => none

/-- What is known of a thread at a point. -/
structure Note (p : Point) (t : T) (d : Shared T) : Prop where
  serving : d.serving t = p.serves
  has : ∀ b, p.uses = some b → (d.holds t b).isSome
  requested : ∀ b, p.awaits = some b → Requested d b

theorem Point.uses_of_awaits {p : Point} {b : Fin nBuf} (awaits : p.awaits = some b) :
    p.uses = some b := by
  cases p <;> first | exact awaits | cases awaits

section Notes
variable {d d' : Shared T} {t u : T} {p q : Point} {b : Fin nBuf}

theorem Acts.serving (acts : Acts t d p d' q) (before : d.serving t = p.serves) (u : T) :
    d'.serving u = if u = t then q.serves else d.serving u := by
  have still : p.serves = none → q.serves = none →
      d.serving u = if u = t then q.serves else d.serving u := by
    intro left right
    split
    · rename_i same
      rw [same, before, left, right]
    · rfl
  cases acts with
  | intrTake b rest queue => exact update_apply ..
  | intrMark b => exact update_apply ..
  | _ => exact still rfl rfl

theorem Acts.holds (acts : Acts t d p d' q) (other : u ≠ t) : d'.holds u = d.holds u := by
  cases acts with
  | getTake id b found free => exact update_of_ne other ..
  | getRecycle id b absent free clean => exact update_of_ne other ..
  | releaseMove b => exact update_of_ne other ..
  | _ => rfl

/-- A request for a buffer stays until it is done, and the buffer stays as it is then: only its
holder could change it. -/
theorem Acts.requested (acts : Acts t d p d' q) (inv : OneHolder d) (note : Note p t d)
    (other : u ≠ t) (has : (d.holds u b).isSome) (requested : Requested d b) : Requested d' b := by
  obtain ⟨asked, holding⟩ := Option.isSome_iff_exists.mp has
  have busy := (inv.busy u b asked holding).1
  have serves := acts.serving note.serving
  cases acts with
  | getRecycle id c absent free clean =>
    have apart : b ≠ c := by
      rintro rfl
      rw [free] at busy
      cases busy
    rcases requested with queued | served | ⟨valid, clean⟩
    · exact .inl queued
    · exact .inr (.inl served)
    · exact .inr (.inr ⟨(update_of_ne apart ..).trans valid,
        (update_of_ne apart ..).trans clean⟩)
  | setDirty c mine =>
    have apart : b ≠ c := by
      rintro rfl
      exact other (inv.single u t b has mine)
    rcases requested with queued | served | ⟨valid, clean⟩
    · exact .inl queued
    · exact .inr (.inl served)
    · exact .inr (.inr ⟨valid, (update_of_ne apart ..).trans clean⟩)
  | ideAppend c =>
    rcases requested with queued | served | done
    · exact .inl (List.mem_append_left _ queued)
    · exact .inr (.inl served)
    · exact .inr (.inr done)
  | intrTake c rest queue =>
    rcases requested with queued | ⟨v, served⟩ | done
    · rw [queue] at queued
      rcases List.mem_cons.mp queued with rfl | later
      · exact .inr (.inl ⟨t, update_self ..⟩)
      · exact .inl later
    · refine .inr (.inl ⟨v, ?_⟩)
      have elsewhere : v ≠ t := by
        rintro rfl
        rw [note.serving] at served
        cases served
      exact (update_of_ne elsewhere ..).trans served
    · exact .inr (.inr done)
  | intrMark c =>
    by_cases same : b = c
    · subst same
      exact .inr (.inr ⟨update_self .., update_self ..⟩)
    · rcases requested with queued | ⟨v, served⟩ | ⟨valid, clean⟩
      · exact .inl queued
      · refine .inr (.inl ⟨v, ?_⟩)
        have elsewhere : v ≠ t := by
          rintro rfl
          rw [note.serving] at served
          exact same (Option.some.inj served).symm
        exact (update_of_ne elsewhere ..).trans served
      · exact .inr (.inr ⟨(update_of_ne same ..).trans valid,
          (update_of_ne same ..).trans clean⟩)
  | _ => exact requested

theorem Acts.note (acts : Acts t d p d' q) (note : Note p t d) : Note q t d' := by
  have serving : d'.serving t = q.serves := by
    rw [acts.serving note.serving, if_pos rfl]
  have idle : q.uses = none → Note q t d' := by
    intro unused
    refine ⟨serving, fun b uses => ?_, fun b awaits => ?_⟩
    · rw [unused] at uses
      cases uses
    · rw [Point.uses_of_awaits awaits] at unused
      cases unused
  cases acts with
  | releaseCheck b has =>
    refine ⟨serving, fun c uses => ?_, nofun⟩
    obtain rfl : b = c := Option.some.inj uses
    exact has
  | ideCheck b has =>
    refine ⟨serving, fun c uses => ?_, nofun⟩
    obtain rfl : b = c := Option.some.inj uses
    exact has
  | ideAppend b =>
    refine ⟨serving, note.has, fun c awaits => ?_⟩
    obtain rfl : b = c := Option.some.inj awaits
    exact .inl (List.mem_append_right _ (List.mem_singleton.mpr rfl))
  | ideWait b pending => exact ⟨serving, note.has, note.requested⟩
  | _ => exact idle rfl

omit [DecidableEq T] in
theorem Point.entry_idle (entry : q.Entry) : q.serves = none ∧ q.uses = none ∧ q.awaits = none := by
  cases q <;> first | exact ⟨rfl, rfl, rfl⟩ | cases entry

theorem fsCode_jump (jumps : (fsCode (T := T) p).Jumps q) :
    p.serves = q.serves ∧ p.uses = q.uses ∧ p.awaits = q.awaits := by
  cases p with
  | out =>
    obtain ⟨serves, uses, awaits⟩ := Point.entry_idle jumps
    exact ⟨serves.symm, uses.symm, awaits.symm⟩
  | _ => cases jumps <;> exact ⟨rfl, rfl, rfl⟩

theorem fsCode_annotated : Threads.Annotated (fsCode (T := T)) OneHolder Note where
  act := by
    intro p f t d d' next instr done inv note
    have acts := acts_of_code instr done
    refine ⟨acts.oneHolder inv fun b here => note.has b (by rw [here]; rfl), acts.note note⟩
  others := by
    intro p f t d d' next r u instr done inv note other theirs
    have acts := acts_of_code instr done
    refine ⟨?_, ?_, ?_⟩
    · rw [acts.serving note.serving, if_neg other]
      exact theirs.serving
    · intro b uses
      rw [acts.holds other]
      exact theirs.has b uses
    · intro b awaits
      exact acts.requested inv note other (theirs.has b (Point.uses_of_awaits awaits))
        (theirs.requested b awaits)
  jump := by
    intro p t d next jumps note
    obtain ⟨serves, uses, awaits⟩ := fsCode_jump jumps
    exact ⟨serves ▸ note.serving, fun b => uses ▸ note.has b, fun b => awaits ▸ note.requested b⟩

end Notes

/-! ## Sleepers -/

/-- What is known of every reachable state. -/
structure Known (s : Threads T Point (Shared T) LockName Channel) : Prop where
  noted : Threads.Noted OneHolder Note s
  owns : Threads.Owns Point.held s
  rests : Threads.Rests fsCode s

omit [DecidableEq T] in
theorem started_noted {d : Shared T} (started : Started d) :
    OneHolder d ∧ ∀ t, Note .out t d := by
  refine ⟨⟨?_, ?_, ?_, ?_, ?_⟩, fun t => ⟨started.serving t, nofun, nofun⟩⟩
  · intro b
    rw [started.order]
    exact List.mem_reverse.mpr (List.mem_finRange b)
  · intro b c device
    rw [started.ident] at device
    exact absurd rfl device
  · intro b busy
    rw [started.bbusy] at busy
    cases busy
  · intro t b id holding
    rw [started.holds] at holding
    cases holding
  · intro t u b holding
    rw [started.holds] at holding
    cases holding

theorem FsReach.known {s : Threads T Point (Shared T) LockName Channel} (reach : FsReach s) :
    Known s where
  noted := Threads.Reach.annotated reach fsCode_annotated fun _ => started_noted
  owns := Threads.Reach.owner reach fsCode_locks rfl
  rests := Threads.Reach.rests reach

section Waiting
variable {s : Threads T Point (Shared T) LockName Channel} {t : T} {p q : Point} {d : Shared T}
  {f : T → Shared T → Option (Shared T × Point)}

/-- No thread jumps to a point at which it sleeps. -/
theorem fsCode_awake (jumps : (fsCode (T := T) p).Jumps q) {c : Channel} {l : LockName} {n : Point} :
    fsCode (T := T) q ≠ .sleep c l n := by
  cases p with
  | out => cases q <;> first | exact False.elim jumps | nofun
  | _ => cases jumps <;> nofun

/-- A flag that is set stays set where flags are set. -/
theorem update_true {n : Nat} {flag : Fin n → Bool} {i : Fin n} (set : flag i = true) (j : Fin n) :
    update flag j true i = true := by
  rw [update_apply]
  split
  · rfl
  · exact set

theorem begin_waits : Threads.Waits (fsCode (T := T)) Point.held Known .log .log (· = .beginSleep)
    (· = .commitWake) (fun d => d.busy = true) where
  sleep := by
    rintro p rfl
    exact ⟨_, rfl⟩
  jump := by
    rintro p next jumps rfl
    exact fsCode_awake jumps rfl
  enter := by
    rintro s t p f d next - here instr done rfl
    cases acts_of_code instr done with
    | beginWait busy => exact busy
  keep := by
    intro s t p f d next _ here instr done busy
    cases acts_of_code instr done with
    | beginTake => exact .inl rfl
    | commitClear => exact .inr rfl
    | _ => exact .inl busy
  locked := by
    rintro p rfl
    rfl
  settle := by
    rintro p rfl
    exact .inl ⟨_, rfl⟩

theorem lock_waits (ip : Fin nInode) : Threads.Waits (fsCode (T := T)) Point.held Known .inodeCache
    (.inode ip) (· = .lockSleep ip) (fun p => p = .unlockWake ip ∨ p = .putWake ip)
    (fun d => d.ibusy ip = true) where
  sleep := by
    rintro p rfl
    exact ⟨_, rfl⟩
  jump := by
    rintro p next jumps rfl
    exact fsCode_awake jumps rfl
  enter := by
    rintro s t p f d next - here instr done rfl
    cases acts_of_code instr done with
    | lockWait ip busy => exact busy
  keep := by
    intro s t p f d next _ here instr done busy
    have clear : ∀ {i} {next : Point}, (ip = i → next = .unlockWake ip ∨ next = .putWake ip) →
        update s.data.ibusy i false ip = true ∨
          (next = .unlockWake ip ∨ next = .putWake ip) := by
      intro i next wakes
      by_cases same : ip = i
      · exact .inr (wakes same)
      · rw [update_of_ne same]
        exact .inl busy
    cases acts_of_code instr done with
    | lockTake i => exact .inl (update_true busy i)
    | putFree i => exact .inl (update_true busy i)
    | unlockClear i => exact clear fun same => .inl (by rw [same])
    | putClear i => exact clear fun same => .inr (by rw [same])
    | _ => exact .inl busy
  locked := by
    rintro p (rfl | rfl)
    · rfl
    · rfl
  settle := by
    rintro p (rfl | rfl)
    · exact .inl ⟨_, rfl⟩
    · exact .inl ⟨_, rfl⟩

theorem get_waits (b : Fin nBuf) : Threads.Waits (fsCode (T := T)) Point.held Known .bcache (.buf b)
    (fun p => ∃ id, p = .getSleep id b) (· = .releaseWake b) (fun d => d.bbusy b = true) where
  sleep := by
    rintro p ⟨id, rfl⟩
    exact ⟨_, rfl⟩
  jump := by
    rintro p next jumps ⟨id, rfl⟩
    exact fsCode_awake jumps rfl
  enter := by
    rintro s t p f d next - here instr done ⟨id, rfl⟩
    cases acts_of_code instr done with
    | getWait id b busy => exact busy
  keep := by
    intro s t p f d next _ here instr done busy
    cases acts_of_code instr done with
    | getTake id c found free => exact .inl (update_true busy c)
    | getRecycle id c absent free clean => exact .inl (update_true busy c)
    | releaseMove c =>
      by_cases same : b = c
      · exact .inr (by rw [same])
      · exact .inl ((update_of_ne same ..).trans busy)
    | _ => exact .inl busy
  locked := by
    rintro p rfl
    rfl
  settle := by
    rintro p rfl
    exact .inl ⟨_, rfl⟩

/-- A request that the thread under `ide_lk` finds unfinished is in the queue: no interrupt handler
can have taken it. -/
theorem Known.queued (known : Known s) {b : Fin nBuf} (here : s.status t = .running (.ideTest b))
    (pending : ¬ (s.data.bvalid b = true ∧ s.data.bdirty b = false)) : b ∈ s.data.idequeue := by
  have note : Note (.ideTest b) t s.data := known.noted.here here
  rcases note.requested b rfl with queued | ⟨u, serves⟩ | done
  · exact queued
  · have theirs := known.noted.2 u
    have point : (s.status u).point = .intrMark b := by
      have same := theirs.serving
      rw [serves] at same
      revert same
      cases (s.status u).point <;> intro same <;> cases same
      rfl
    rcases known.rests u with ⟨r, runs⟩ | ⟨c, l, n, sleeps⟩
    · rw [runs] at point
      obtain rfl : r = .intrMark b := point
      have mine : (s.status t).lock Point.held = some .ide := by
        rw [here]
        rfl
      have other : (s.status u).lock Point.held = some .ide := by
        rw [runs]
        rfl
      have same := known.owns.unique mine other
      rw [← same, here] at runs
      cases runs
    · rw [point] at sleeps
      cases sleeps
  · exact absurd done pending

theorem ide_waits (b : Fin nBuf) : Threads.Waits (fsCode (T := T)) Point.held Known .ide (.buf b)
    (· = .ideSleep b) (fun p => p = .intrMark b ∨ p = .intrWake b) (fun d => b ∈ d.idequeue) where
  sleep := by
    rintro p rfl
    exact ⟨_, rfl⟩
  jump := by
    rintro p next jumps rfl
    exact fsCode_awake jumps rfl
  enter := by
    rintro s t p f d next known here instr done rfl
    cases acts_of_code instr done with
    | ideWait b pending => exact known.queued here pending
  keep := by
    intro s t p f d next _ here instr done queued
    cases acts_of_code instr done with
    | ideAppend c => exact .inl (List.mem_append_left _ queued)
    | intrTake c rest queue =>
      rw [queue] at queued
      rcases List.mem_cons.mp queued with same | later
      · exact .inr (.inl (by rw [same]))
      · exact .inl later
    | _ => exact .inl queued
  locked := by
    rintro p (rfl | rfl)
    · rfl
    · rfl
  settle := by
    rintro p (rfl | rfl)
    · refine .inr ⟨_, rfl, fun t d d' next done => ?_⟩
      cases acts_of_effect done
      exact .inr rfl
    · exact .inl ⟨_, rfl⟩

end Waiting

/-! ## The results -/

/-- However the threads interleave: whenever the lock in question is free, the log is busy if a
thread is asleep in `begin_trans`, an inode is locked if one is asleep in `inode_lock` on it, a
buffer is held if one is asleep in `bufcache_get` on it, and a buffer is in the queue of the disk
if one is asleep in `ide_rw` on it. -/
theorem no_wakeup_lost (s : Threads T Point (Shared T) LockName Channel) (reach : FsReach s) :
    (s.owner .log = none → ∀ t c, s.status t = .asleep c .beginSleep → s.data.busy = true) ∧
    (s.owner .inodeCache = none → ∀ t c ip, s.status t = .asleep c (.lockSleep ip) →
      s.data.ibusy ip = true) ∧
    (s.owner .bcache = none → ∀ t c id b, s.status t = .asleep c (.getSleep id b) →
      s.data.bbusy b = true) ∧
    (s.owner .ide = none → ∀ t c b, s.status t = .asleep c (.ideSleep b) →
      b ∈ s.data.idequeue) := by
  have known : ∀ r : Threads T Point (Shared T) LockName Channel, FsReach r → Known r :=
    fun _ reach => reach.known
  refine ⟨?_, ?_, ?_, ?_⟩
  · intro free t c asleep
    exact reach.no_lost_wakeup begin_waits fsCode_locks rfl known nofun free asleep rfl
  · intro free t c ip asleep
    exact reach.no_lost_wakeup (lock_waits ip) fsCode_locks rfl known nofun free asleep rfl
  · intro free t c id b asleep
    exact reach.no_lost_wakeup (get_waits b) fsCode_locks rfl known nofun free asleep ⟨id, rfl⟩
  · intro free t c b asleep
    exact reach.no_lost_wakeup (ide_waits b) fsCode_locks rfl known nofun free asleep rfl

/-- A thread outside the functions calls one of them. -/
theorem FsReach.call {s : Threads T Point (Shared T) LockName Channel} (reach : FsReach s) (t : T)
    (p : Point) (here : s.status t = .running .out) (entry : p.Entry) :
    FsReach { s with status := update s.status t (.running p) } :=
  reach.step (.branch here rfl entry)

/-- Two threads, nothing under way. -/
def idlePair : Threads Bool Point (Shared Bool) LockName Channel where
  status _ := .running .out
  owner _ := none
  data :=
    { busy := false
      ibusy := fun _ => false
      ivalid := fun _ => false
      ref := fun _ => 0
      nlink := fun _ => 0
      order := (List.finRange nBuf).reverse
      ident := fun _ => (noDev, 0)
      bbusy := fun _ => false
      bvalid := fun _ => false
      bdirty := fun _ => false
      idequeue := []
      havedisk1 := false
      holds := fun _ _ => none
      freeing := fun _ => []
      serving := fun _ => none }

theorem idlePair_reach : FsReach idlePair := by
  refine .start ⟨fun _ => rfl, fun _ => rfl, ?_⟩
  exact ⟨rfl, fun _ => rfl, rfl, fun _ => rfl, fun _ => rfl, rfl, fun _ _ => rfl, fun _ => rfl⟩

/-- One thread is in a transaction, the other waits for the log. -/
theorem no_wakeup_lost_begin : ∃ s : Threads Bool Point (Shared Bool) LockName Channel,
    FsReach s ∧ s.owner .log = none ∧ s.status true = .asleep .log .beginSleep ∧
      s.data.busy = true := by
  have calls := idlePair_reach.call false .beginTrans rfl trivial
  have locks := calls.step (.acquire (t := false) rfl rfl rfl)
  have takes := locks.step (.act (t := false) rfl rfl rfl)
  have leaves := takes.step (.release (t := false) rfl rfl)
  have calls' := FsReach.call leaves true .beginTrans rfl trivial
  have locks' := calls'.step (.acquire (t := true) rfl rfl rfl)
  have waits := locks'.step (.act (t := true) rfl rfl rfl)
  have sleeps := waits.step (.handOver (t := true) rfl rfl)
  exact ⟨_, sleeps, rfl, rfl, (no_wakeup_lost _ sleeps).1 rfl true .log rfl⟩

/-- However the threads interleave: no two buffers hold the same sector; every buffer in use has
exactly one holder, and what a thread holds is in use and carries the identity the thread asked
for; and no step gives a dirty buffer another identity. -/
theorem one_buffer_one_holder (s : Threads T Point (Shared T) LockName Channel) (reach : FsReach s) :
    (∀ b c, (s.data.ident b).1 ≠ noDev → s.data.ident b = s.data.ident c → b = c) ∧
    (∀ b, s.data.bbusy b = true → ∃! t, (s.data.holds t b).isSome) ∧
    (∀ t b id, s.data.holds t b = some id → s.data.bbusy b = true ∧ s.data.ident b = id) ∧
    (∀ s', Threads.Step fsCode s s' → ∀ b, s.data.bdirty b = true →
      s'.data.ident b = s.data.ident b) := by
  have inv : OneHolder s.data := reach.known.noted.1
  refine ⟨inv.distinct, ?_, inv.busy, ?_⟩
  · intro b busy
    obtain ⟨t, holding⟩ := inv.held b busy
    exact ⟨t, holding, fun u other => inv.single u t b other holding⟩
  · intro s' step b dirty
    cases step with
    | act here instr done =>
      cases acts_of_code instr done with
      | getRecycle id c absent free clean =>
        refine update_of_ne ?_ ..
        rintro rfl
        rw [clean] at dirty
        cases dirty
      | _ => rfl
    | _ => rfl

/-- One thread has a buffer. -/
theorem one_buffer_one_holder_get : ∃ (s : Threads Bool Point (Shared Bool) LockName Channel)
    (b : Fin nBuf), FsReach s ∧ s.data.bbusy b = true ∧ s.data.holds false b = some (0, 5) ∧
      s.data.ident b = (0, 5) ∧ ∃! t, (s.data.holds t b).isSome := by
  have calls := idlePair_reach.call false (.bufcacheGet (0, 5)) rfl trivial
  have locks := calls.step (.acquire (t := false) rfl rfl rfl)
  have gets := locks.step (.act (t := false) rfl rfl rfl)
  have held := one_buffer_one_holder _ gets
  exact ⟨_, ⟨0, by decide⟩, gets, rfl, rfl, (held.2.2.1 false ⟨0, by decide⟩ (0, 5) rfl).2,
    held.2.1 ⟨0, by decide⟩ rfl⟩

end Code

end OsAudio.Fs

import OsAudio.Thread.Tqueue

/-!
# The scheduler

`kern/thread/PThread/PThread.c` on one CPU, from the state in which `kern_main`
(`kern/init/init.c`) switches to the first process.  Besides the kernel data of
`OsAudio.Proc.Spawn` a state records which thread the CPU executes, and for each other
thread where its kernel stack stands: `kctx_switch` stores that for the old thread and
continues the new one there.  The spinlock `sched_lk` is free whenever no operation is under
way.
-/
namespace OsAudio.Thread
open OsAudio.Lib OsAudio.Pmm OsAudio.Vmm OsAudio.Proc

def schedSlice : Nat := 5
def lapicTimerIntrFreq : Nat := 1000

/-- Where a thread continues after `kctx_switch`: at its entry point, in `thread_yield`, or in
`thread_sleep` with that function's local `pid`. -/
inductive Frame
  | entry
  | yield
  | sleep (pid : Nat)
  deriving DecidableEq, Repr

structure Sched where
  kernel : Kernel
  channel : Nat → Nat
  schedTicks : Nat
  running : Nat
  frame : Nat → Frame

/-! ## The source -/

def setCurid (k : Kernel) (curid : Nat) : Kernel := { k with curid := curid }

def tcbSetChan (s : Sched) (pid chan : Nat) : Sched :=
  { s with channel := Function.update s.channel pid chan }

/-- The rest of `thread_sleep`, or of `thread_yield`, in the thread just switched to. -/
def resume (s : Sched) : Sched :=
  match s.frame s.running with
  | .sleep pid => tcbSetChan s pid 0
  | .yield => s
  | .entry => s

/-- `kctx_switch`, called by `fromPid` at the given place. -/
def kctxSwitch (s : Sched) (fromPid toPid : Nat) (frame : Frame) : Sched :=
  resume { s with running := toPid, frame := Function.update s.frame fromPid frame }

def spawn (s : Sched) (id quota : Nat) : Sched :=
  let (pid, k) := threadSpawn s.kernel id quota
  { s with kernel := k, frame := Function.update s.frame pid .entry }

def threadYield (s : Sched) : Sched :=
  let oldCurPid := s.kernel.curid
  let k := tcbSetState s.kernel oldCurPid .ready
  let k := tqueueEnqueue k numIds oldCurPid
  let (newCurPid, k) := tqueueDequeue k numIds
  let k := tcbSetState k newCurPid .run
  let k := setCurid k newCurPid
  let s := { s with kernel := k }
  if oldCurPid ≠ newCurPid then kctxSwitch s oldCurPid newCurPid .yield else s

def schedUpdate (s : Sched) : Sched :=
  let ticks := (s.schedTicks + 1000 / lapicTimerIntrFreq) % 4294967296
  if schedSlice < ticks then threadYield { s with schedTicks := 0 }
  else { s with schedTicks := ticks }

def threadSleep (s : Sched) (chan : Nat) : Sched :=
  let pid := s.kernel.curid
  let s := tcbSetChan s pid chan
  let k := tcbSetState s.kernel pid .sleep
  let (newPid, k) := tqueueDequeue k numIds
  let k := tcbSetState k newPid .run
  let k := setCurid k newPid
  kctxSwitch { s with kernel := k } pid newPid (.sleep pid)

/-- One round of the loop of `thread_wakeup`. -/
def wakeOne (channel : Nat → Nat) (chan pid : Nat) (k : Kernel) : Kernel :=
  if (k.tcb pid).state = .sleep ∧ channel pid = chan then
    let k := tcbSetState k pid .ready
    tqueueEnqueue k numIds pid
  else k

def threadWakeup (s : Sched) (chan : Nat) : Sched :=
  { s with kernel := upTo numIds (wakeOne s.channel chan) s.kernel }

/-- The state after `thread_init`; the boot code runs as thread 0. -/
def bootSched (L : Layout) (rows : List MmapRow) (ram : Ram) : Sched :=
  { kernel := threadInit L rows ram
    channel := fun _ => 0
    schedTicks := 0
    running := 0
    frame := fun _ => .entry }

/-- `kern_main`, up to and including its `kctx_switch`. -/
def kernMain (L : Layout) (idle : Elf) (s : Sched) : Sched :=
  let (pid, k) := procCreate L idle s.kernel 1000
  let s := { s with frame := Function.update s.frame pid .entry }
  let k := tqueueRemove k numIds pid
  let k := tcbSetState k pid .run
  let k := setCurid k pid
  kctxSwitch { s with kernel := k } 0 pid .entry

/-! ## Runs -/

inductive SchedOp
  | spawn (id quota : Nat)
  | yield
  | update
  | sleep (chan : Nat)
  | wakeup (chan : Nat)

/-- `thread_spawn` gets the id of a dead thread from `kctx_new`, and `thread_sleep` is called
with a thread to switch to. -/
def SchedOp.Allowed (s : Sched) : SchedOp → Prop
  | .spawn id quota =>
    (kctxNew s.kernel id quota).1 < numIds ∧
      (s.kernel.tcb (kctxNew s.kernel id quota).1).state = .dead
  | .sleep _ => (s.kernel.tqueue numIds).head ≠ numIds
  | _ => True

def SchedOp.run (s : Sched) : SchedOp → Sched
  | .spawn id quota => Thread.spawn s id quota
  | .yield => threadYield s
  | .update => schedUpdate s
  | .sleep chan => threadSleep s chan
  | .wakeup chan => threadWakeup s chan

inductive SchedReach (L : Layout) (rows : List MmapRow) (ram : Ram) (idle : Elf) : Sched → Prop
  | start : SchedReach L rows ram idle (kernMain L idle (bootSched L rows ram))
  | step {s : Sched} (op : SchedOp) : SchedReach L rows ram idle s → op.Allowed s →
      SchedReach L rows ram idle (op.run s)

/-! ## The invariant -/

/-- No thread has the CPU: the ready queue holds the given threads, which are those in state
`TSTATE_READY`, every other queue is empty, and only the boot thread may be in state
`TSTATE_RUN`. -/
structure Parked (k : Kernel) (pids : List Nat) : Prop where
  queue : Holds k numIds pids
  ready : ∀ pid, pid ∈ pids ↔ pid < numIds ∧ (k.tcb pid).state = .ready
  empty : ∀ chid, chid ≠ numIds → k.tqueue chid = ⟨numIds, numIds⟩
  stopped : ∀ pid, pid < numIds → (k.tcb pid).state = .run → pid = 0

/-- The current thread has the CPU; the rest is as in `Parked`. -/
structure Dispatched (k : Kernel) (pids : List Nat) : Prop where
  queue : Holds k numIds pids
  ready : ∀ pid, pid ∈ pids ↔ pid < numIds ∧ (k.tcb pid).state = .ready
  empty : ∀ chid, chid ≠ numIds → k.tqueue chid = ⟨numIds, numIds⟩
  valid : k.curid < numIds
  current : (k.tcb k.curid).state = .run
  stopped : ∀ pid, pid < numIds → (k.tcb pid).state = .run → pid = k.curid ∨ pid = 0

/-- A well-formed scheduler: the thread on the CPU is the current one, and a thread that sleeps
will clean up its own channel. -/
structure SchedInv (s : Sched) (pids : List Nat) : Prop where
  dispatched : Dispatched s.kernel pids
  running : s.running = s.kernel.curid
  sleeper : ∀ pid own, s.frame pid = .sleep own → own = pid

variable {k : Kernel} {s : Sched} {pids : List Nat} {pid : Nat}

theorem Holds.congr {after : Kernel} {chid : Nat} (holds : Holds k chid pids)
    (linked : links after = links k) (ends : after.tqueue chid = k.tqueue chid) :
    Holds after chid pids := by
  unfold Holds at *
  rwa [linked, ends]

/-- A thread that is in no queue becomes ready and is queued. -/
theorem Holds.makeReady (holds : Holds k numIds pids) (valid : pid < numIds)
    (ready : ∀ other, other ∈ pids ↔ other < numIds ∧ (k.tcb other).state = .ready)
    (idle : (k.tcb pid).state ≠ .ready) :
    Holds (tqueueEnqueue (tcbSetState k pid .ready) numIds pid) numIds (pids ++ [pid]) ∧
    ∀ other, other ∈ pids ++ [pid] ↔ other < numIds ∧
      ((tqueueEnqueue (tcbSetState k pid .ready) numIds pid).tcb other).state = .ready := by
  have new : pid ∉ pids := fun member => idle ((ready pid).mp member).2
  refine ⟨Holds.enqueue (holds.congr (by simp) rfl) new (by omega), fun other => ?_⟩
  rw [tqueueEnqueue_framed.state, state_tcbSetState]
  by_cases equal : other = pid
  · subst equal
    simp [valid]
  · simp [equal, ready other]

/-- The head of the ready queue gets the CPU: the second half of `thread_yield` and
`thread_sleep`. -/
theorem Parked.dispatch {rest : List Nat} (parked : Parked k (pid :: rest)) :
    (tqueueDequeue k numIds).1 = pid ∧
    Dispatched (setCurid (tcbSetState (tqueueDequeue k numIds).2 pid .run) pid) rest := by
  obtain ⟨result, holds, framed⟩ := parked.queue.dequeue
  obtain ⟨valid, -⟩ := (parked.ready pid).mp (by simp)
  have nodup := List.nodup_cons.mp (Links.Queue.nodup parked.queue)
  refine ⟨result, ?_, fun other => ?_, fun chid other => ?_, valid, ?_, fun other below runs => ?_⟩
  · exact holds.congr (links_tcbSetState _ _ _) rfl
  · change _ ↔ _ ∧ ((tcbSetState _ pid .run).tcb other).state = _
    rw [state_tcbSetState, framed.state]
    by_cases equal : other = pid
    · simp [equal, nodup.1]
    · simpa [equal] using parked.ready other
  · exact (framed.queues chid other).trans (parked.empty chid other)
  · change ((tcbSetState _ pid .run).tcb pid).state = _
    simp
  · change ((tcbSetState _ pid .run).tcb other).state = _ at runs
    rw [state_tcbSetState, framed.state] at runs
    by_cases equal : other = pid
    · exact .inl equal
    · rw [if_neg equal] at runs
      exact .inr (parked.stopped other below runs)

/-- A frame is saved for a thread that does not sleep, or sleeps on its own channel. -/
theorem sleeper_update {frames : Nat → Frame} {frame : Frame}
    (sleeper : ∀ pid own, frames pid = .sleep own → own = pid) {fromPid : Nat}
    (self : ∀ pid, frame = .sleep pid → pid = fromPid) (pid own : Nat)
    (stored : Function.update frames fromPid frame pid = .sleep own) : own = pid := by
  by_cases equal : pid = fromPid
  · subst equal
    exact self own (by simpa using stored)
  · exact sleeper pid own (by simpa [equal] using stored)

/-- `kctx_switch` from the old current thread to the new one. -/
theorem SchedInv.switch {frame : Frame} (dispatched : Dispatched s.kernel pids)
    (sleeper : ∀ pid own, s.frame pid = .sleep own → own = pid) (fromPid : Nat)
    (self : ∀ pid, frame = .sleep pid → pid = fromPid) :
    SchedInv (kctxSwitch s fromPid s.kernel.curid frame) pids := by
  unfold kctxSwitch resume
  split <;> exact ⟨dispatched, rfl, sleeper_update sleeper self⟩

/-! ## Each operation keeps the invariant -/

/-- The thread `thread_yield` takes from the ready queue. -/
def yieldPid (s : Sched) : Nat :=
  (tqueueDequeue (tqueueEnqueue (tcbSetState s.kernel s.kernel.curid .ready) numIds
    s.kernel.curid) numIds).1

/-- The thread `thread_sleep` takes from the ready queue. -/
def sleepPid (s : Sched) : Nat :=
  (tqueueDequeue (tcbSetState s.kernel s.kernel.curid .sleep) numIds).1

/-- Once the current thread is not in state `TSTATE_RUN`, only the boot thread may be. -/
theorem Dispatched.stopped_others {state : TState} (dispatched : Dispatched k pids)
    (stops : state ≠ .run) (below : pid < numIds)
    (runs : ((tcbSetState k k.curid state).tcb pid).state = .run) : pid = 0 := by
  rw [state_tcbSetState] at runs
  by_cases equal : pid = k.curid
  · exact absurd (by simpa [equal] using runs) stops
  · rw [if_neg equal] at runs
    exact (dispatched.stopped pid below runs).resolve_left equal

/-- `thread_yield` puts the current thread behind the others and takes the first of all. -/
theorem SchedInv.yield_next (inv : SchedInv s pids) :
    ∃ rest, pids ++ [s.kernel.curid] = yieldPid s :: rest ∧ SchedInv (threadYield s) rest := by
  obtain ⟨dispatched, running, sleeper⟩ := inv
  have busy : (s.kernel.tcb s.kernel.curid).state ≠ .ready := by simp [dispatched.current]
  obtain ⟨holds, ready⟩ := dispatched.queue.makeReady dispatched.valid dispatched.ready busy
  have framed := @tqueueEnqueue_framed (tcbSetState s.kernel s.kernel.curid .ready) numIds
    s.kernel.curid
  -- The queue is not empty: the yielding thread itself is in it.
  obtain ⟨next, rest, split⟩ : ∃ next rest, pids ++ [s.kernel.curid] = next :: rest :=
    List.exists_cons_of_ne_nil (by simp)
  rw [split] at holds ready
  have parked : Parked (tqueueEnqueue (tcbSetState s.kernel s.kernel.curid .ready) numIds
      s.kernel.curid) (next :: rest) := by
    refine ⟨holds, ready, fun chid other => ?_, fun pid below runs => ?_⟩
    · exact (framed.queues chid other).trans (dispatched.empty chid other)
    · rw [framed.state] at runs
      exact dispatched.stopped_others (by simp) below runs
  obtain ⟨result, after⟩ := parked.dispatch
  have taken : yieldPid s = next := result
  refine ⟨rest, split.trans (by rw [taken]), ?_⟩
  unfold threadYield
  simp only [result]
  split_ifs with different
  · exact SchedInv.switch (s := ⟨_, s.channel, s.schedTicks, s.running, s.frame⟩) after sleeper
      s.kernel.curid (by simp)
  · refine ⟨after, ?_, sleeper⟩
    rw [running]
    exact not_not.mp different

theorem SchedInv.yield (inv : SchedInv s pids) : ∃ pids, SchedInv (threadYield s) pids := by
  obtain ⟨rest, -, after⟩ := inv.yield_next
  exact ⟨rest, after⟩

theorem SchedInv.update (inv : SchedInv s pids) : ∃ pids, SchedInv (schedUpdate s) pids := by
  obtain ⟨dispatched, running, sleeper⟩ := inv
  unfold schedUpdate
  dsimp only
  split_ifs
  · exact SchedInv.yield ⟨dispatched, running, sleeper⟩
  · exact ⟨pids, dispatched, running, sleeper⟩

/-- `thread_sleep` takes the first of the other threads. -/
theorem SchedInv.sleep_next {next : Nat} {rest : List Nat} (inv : SchedInv s (next :: rest))
    (chan : Nat) : sleepPid s = next ∧ SchedInv (threadSleep s chan) rest := by
  obtain ⟨dispatched, running, sleeper⟩ := inv
  have busy : (s.kernel.tcb s.kernel.curid).state = .run := dispatched.current
  have parked : Parked (tcbSetState s.kernel s.kernel.curid .sleep) (next :: rest) := by
    refine ⟨dispatched.queue.congr (by simp) rfl, fun pid => ?_, dispatched.empty,
      fun pid below runs => dispatched.stopped_others (by simp) below runs⟩
    rw [state_tcbSetState]
    by_cases equal : pid = s.kernel.curid
    · rw [dispatched.ready pid]
      simp [equal, busy]
    · simpa [equal] using dispatched.ready pid
  obtain ⟨result, after⟩ := parked.dispatch
  refine ⟨result, ?_⟩
  unfold threadSleep
  simp only [tcbSetChan, result]
  exact SchedInv.switch (s := ⟨_, _, s.schedTicks, s.running, s.frame⟩) after sleeper
    s.kernel.curid (fun own equal => (Frame.sleep.inj equal).symm)

theorem SchedInv.sleep (inv : SchedInv s pids) (chan : Nat)
    (someone : (s.kernel.tqueue numIds).head ≠ numIds) :
    ∃ pids, SchedInv (threadSleep s chan) pids := by
  cases pids with
  | nil => exact absurd ((Links.Queue.head_eq_null inv.dispatched.queue).mpr rfl) someone
  | cons next rest => exact ⟨rest, (inv.sleep_next chan).2⟩

/-- Putting one more thread into the ready queue, by `thread_spawn` or `thread_wakeup`. -/
theorem Dispatched.makeReady (dispatched : Dispatched k pids) (valid : pid < numIds)
    (idle : (k.tcb pid).state ≠ .ready) (notRunning : (k.tcb pid).state ≠ .run) :
    Dispatched (tqueueEnqueue (tcbSetState k pid .ready) numIds pid) (pids ++ [pid]) := by
  obtain ⟨holds, ready⟩ := dispatched.queue.makeReady valid dispatched.ready idle
  have framed := @tqueueEnqueue_framed (tcbSetState k pid .ready) numIds pid
  have other : k.curid ≠ pid := fun equal => notRunning (equal ▸ dispatched.current)
  have same : (tqueueEnqueue (tcbSetState k pid .ready) numIds pid).curid = k.curid := framed.curid
  refine ⟨holds, ready, fun chid different => ?_, ?_, ?_, fun thread below runs => ?_⟩
  · exact (framed.queues chid different).trans (dispatched.empty chid different)
  · rw [same]
    exact dispatched.valid
  · rw [same, framed.state, state_tcbSetState, if_neg other]
    exact dispatched.current
  · rw [framed.state, state_tcbSetState] at runs
    rw [same]
    by_cases equal : thread = pid
    · simp [equal] at runs
    · rw [if_neg equal] at runs
      exact dispatched.stopped thread below runs

section
variable (inv : SchedInv s pids)
include inv

/-- `thread_wakeup` puts the threads it wakes behind the others. -/
theorem SchedInv.wakeup_next (chan : Nat) :
    ∃ woken, SchedInv (threadWakeup s chan) (pids ++ woken) := by
  obtain ⟨dispatched, running, sleeper⟩ := inv
  -- Each round wakes at most one thread and leaves the current thread alone.
  obtain ⟨woken, after, same⟩ := @upTo_invariant _ (wakeOne s.channel chan)
    (fun _ k => ∃ woken, Dispatched k (pids ++ woken) ∧ k.curid = s.kernel.curid)
    _ ⟨[], by rwa [List.append_nil], rfl⟩ numIds (by
      rintro pid k below ⟨woken, before, same⟩
      unfold wakeOne
      split_ifs with asleep
      · refine ⟨woken ++ [pid], ?_, ?_⟩
        · rw [← List.append_assoc]
          exact before.makeReady below (by simp [asleep.1]) (by simp [asleep.1])
        · exact (@tqueueEnqueue_framed (tcbSetState k pid .ready) numIds pid).curid.trans same
      · exact ⟨woken, before, same⟩)
  unfold threadWakeup
  generalize upTo numIds (wakeOne s.channel chan) s.kernel = kernel at after same
  exact ⟨woken, after, running.trans same.symm, sleeper⟩

/-- `thread_spawn` puts the new thread behind the others. -/
theorem SchedInv.spawn_next {id quota : Nat} (valid : (kctxNew s.kernel id quota).1 < numIds)
    (dead : (s.kernel.tcb (kctxNew s.kernel id quota).1).state = .dead) :
    SchedInv (Thread.spawn s id quota) (pids ++ [(kctxNew s.kernel id quota).1]) := by
  obtain ⟨dispatched, running, sleeper⟩ := inv
  unfold Thread.spawn threadSpawn
  have same : (kctxNew s.kernel id quota).2.curid = s.kernel.curid := rfl
  have allocated : Dispatched (kctxNew s.kernel id quota).2 pids :=
    ⟨dispatched.queue, dispatched.ready, dispatched.empty, dispatched.valid, dispatched.current,
      dispatched.stopped⟩
  change ((kctxNew s.kernel id quota).2.tcb _).state = _ at dead
  generalize kctxNew s.kernel id quota = created at *
  obtain ⟨pid, k⟩ := created
  dsimp only at *
  have after := allocated.makeReady valid (by simp [dead]) (by simp [dead])
  have framed := @tqueueEnqueue_framed (tcbSetState k pid .ready) numIds pid
  exact ⟨after, running.trans (same.symm.trans framed.curid.symm), sleeper_update sleeper (by simp)⟩

theorem SchedInv.step (op : SchedOp) (allowed : op.Allowed s) :
    ∃ pids, SchedInv (op.run s) pids := by
  cases op with
  | spawn id quota => exact ⟨_, inv.spawn_next allowed.1 allowed.2⟩
  | yield => exact inv.yield
  | update => exact inv.update
  | sleep chan => exact inv.sleep chan allowed
  | wakeup chan =>
    obtain ⟨woken, after⟩ := inv.wakeup_next chan
    exact ⟨_, after⟩

end

/-! ## Boot -/

/-- `kern_main` takes the process it has just created out of the ready queue again and gives it
the CPU. -/
theorem SchedInv.kernMain {L : Layout} {idle : Elf} (before : Dispatched s.kernel [])
    (boot : s.kernel.curid = 0) (sleeper : ∀ pid own, s.frame pid = .sleep own → own = pid)
    (valid : (kctxNew s.kernel 0 1000).1 < numIds)
    (dead : (s.kernel.tcb (kctxNew s.kernel 0 1000).1).state = .dead) :
    SchedInv (Thread.kernMain L idle s) [] := by
  have allocated : Dispatched (kctxNew s.kernel 0 1000).2 [] :=
    ⟨before.queue, before.ready, before.empty, before.valid, before.current, before.stopped⟩
  have same : (kctxNew s.kernel 0 1000).2.curid = 0 := boot
  change ((kctxNew s.kernel 0 1000).2.tcb _).state = _ at dead
  unfold Thread.kernMain procCreate threadSpawn
  rw [boot]
  generalize kctxNew s.kernel 0 1000 = created at *
  obtain ⟨pid, k⟩ := created
  dsimp only at *
  have queued := allocated.makeReady valid (by simp [dead]) (by simp [dead])
  have framed := @tqueueEnqueue_framed (tcbSetState k pid .ready) numIds pid
  have curid : (tqueueEnqueue (tcbSetState k pid .ready) numIds pid).curid = 0 :=
    framed.curid.trans same
  generalize tqueueEnqueue (tcbSetState k pid .ready) numIds pid = spawned at *
  -- Loading the program changes memory only.
  have parked : Parked { spawned with vm := (elfLoad L idle spawned.vm pid).2 } [pid] := by
    refine ⟨queued.queue, queued.ready, queued.empty, fun thread below runs => ?_⟩
    exact (queued.stopped thread below runs).elim (fun equal => equal.trans curid) id
  obtain ⟨-, after⟩ := parked.dispatch
  rw [tqueueDequeue_eq parked.queue] at after
  exact SchedInv.switch (s := ⟨_, s.channel, s.schedTicks, s.running, _⟩) after
    (sleeper_update sleeper (by simp)) 0 (by simp)

section Boot
variable (L : Layout) (rows : List MmapRow) (ram : Ram)

theorem threadInit_dispatched : Dispatched (threadInit L rows ram) [] := by
  have states : ∀ pid, ((threadInit L rows ram).tcb pid).state = if pid = 0 then .run else .dead := by
    intro pid
    by_cases equal : pid = 0 <;> simp [threadInit, deadTcb, equal]
  refine ⟨Links.Queue.empty _ _, fun pid => ?_, fun _ _ => rfl, ?_, ?_, fun pid _ runs => ?_⟩
  · rw [states]
    by_cases equal : pid = 0 <;> simp [equal]
  · exact (by decide : 0 < numIds)
  · exact states 0
  · exact .inr (by simpa [states] using runs)

/-- The first process gets the id 1. -/
theorem kctxNew_first : (kctxNew (threadInit L rows ram) 0 1000).1 = 1 := by
  simp [kctxNew, allocMemQuota, containerSplit, threadInit, vmInit, containerInit, uint32]

theorem kernMain_inv (idle : Elf) : SchedInv (kernMain L idle (bootSched L rows ram)) [] := by
  have first := kctxNew_first L rows ram
  refine SchedInv.kernMain (threadInit_dispatched L rows ram) rfl (fun _ _ stored => ?_) ?_ ?_
  · cases stored
  · exact first ▸ (by decide : 1 < numIds)
  · change ((threadInit L rows ram).tcb (kctxNew (threadInit L rows ram) 0 1000).1).state = _
    rw [first]
    simp [threadInit, deadTcb]

end Boot

/-! ## Every run -/

theorem SchedReach.inv {L : Layout} {rows : List MmapRow} {ram : Ram} {idle : Elf}
    (reach : SchedReach L rows ram idle s) : ∃ pids, SchedInv s pids := by
  induction reach with
  | start => exact ⟨[], kernMain_inv L rows ram idle⟩
  | step op _ allowed ih =>
    obtain ⟨pids, inv⟩ := ih
    exact inv.step op allowed

/-- After any sequence of scheduler operations, the ready queue is a doubly linked list of the
ready threads, each once; the current thread runs, has the CPU and is in no queue; and of the
others only the boot thread is still marked as running. -/
theorem scheduler_invariant (L : Layout) (rows : List MmapRow) (ram : Ram) (idle : Elf)
    (s : Sched) (reach : SchedReach L rows ram idle s) :
    ∃ pids : List Nat,
      ((links s.kernel).Queue numIds (s.kernel.tqueue numIds).head (s.kernel.tqueue numIds).tail
        pids ∧
        ∀ pid, pid ∈ pids ↔ pid < numIds ∧ (s.kernel.tcb pid).state = .ready) ∧
      (s.kernel.curid < numIds ∧ (s.kernel.tcb s.kernel.curid).state = .run ∧
        s.kernel.curid ∉ pids ∧
        ∀ chid, chid < numIds → (s.kernel.tqueue chid).head = numIds ∧
          (s.kernel.tqueue chid).tail = numIds) ∧
      (∀ pid, pid < numIds → (s.kernel.tcb pid).state = .run →
        pid = s.kernel.curid ∨ pid = 0) ∧
      s.running = s.kernel.curid ∧
      (∀ pid own, s.frame pid = .sleep own → own = pid) := by
  obtain ⟨pids, dispatched, running, sleeper⟩ := reach.inv
  refine ⟨pids, ⟨dispatched.queue, dispatched.ready⟩, ⟨dispatched.valid, dispatched.current, ?_, ?_⟩,
    dispatched.stopped, running, sleeper⟩
  · intro member
    have ready := ((dispatched.ready _).mp member).2
    rw [dispatched.current] at ready
    cases ready
  · intro chid below
    simp [dispatched.empty chid (by omega)]

/-- A run in which the first process spawns a thread and sleeps, and that thread wakes it up and
yields. -/
def handOver : Sched :=
  [SchedOp.spawn 1 10, .sleep 7, .wakeup 7, .yield].foldl SchedOp.run
    (kernMain kernelLayout emptyElf (bootSched kernelLayout [] fun _ => 0))

theorem handOver_reach : SchedReach kernelLayout [] (fun _ => 0) emptyElf
    handOver := by
  unfold handOver
  simp only [List.foldl_cons, List.foldl_nil]
  refine .step .yield (.step (.wakeup 7) (.step (.sleep 7) (.step (.spawn 1 10) .start ?_) ?_)
    trivial) trivial
  · constructor <;> decide
  · change _ ≠ _
    decide

theorem scheduler_invariant_handOver :
    handOver.running = handOver.kernel.curid ∧ handOver.kernel.curid = 1 ∧
    (∃ pids, (links handOver.kernel).Queue numIds (handOver.kernel.tqueue numIds).head
      (handOver.kernel.tqueue numIds).tail pids ∧ 4 ∈ pids) := by
  obtain ⟨pids, ⟨queue, ready⟩, -, -, running, -⟩ :=
    scheduler_invariant _ _ _ _ handOver handOver_reach
  exact ⟨running, by decide +kernel, pids, queue, (ready 4).mpr (by decide +kernel)⟩

/-! ## The thread that gets the CPU -/

/-- The thread an operation takes from the ready queue, if it gives the CPU away. -/
def SchedOp.dequeued (s : Sched) : SchedOp → Option Nat
  | .yield => some (yieldPid s)
  | .update =>
    if schedSlice < (s.schedTicks + 1000 / lapicTimerIntrFreq) % 4294967296 then
      some (yieldPid s)
    else none
  | .sleep _ => some (sleepPid s)
  | .spawn _ _ => none
  | .wakeup _ => none

theorem kernel_kctxSwitch (fromPid toPid : Nat) (frame : Frame) :
    (kctxSwitch s fromPid toPid frame).kernel = s.kernel := by
  unfold kctxSwitch resume
  split <;> rfl

/-- The thread taken from the ready queue becomes the current one. -/
theorem SchedOp.curid_run {op : SchedOp} (dequeued : op.dequeued s = some pid) :
    (op.run s).kernel.curid = pid := by
  have yields : ∀ s : Sched, (threadYield s).kernel.curid = yieldPid s := by
    intro s
    unfold threadYield
    dsimp only
    split_ifs with different
    · rw [kernel_kctxSwitch]
      rfl
    · rfl
  cases op with
  | spawn id quota => cases dequeued
  | yield => exact (yields s).trans (Option.some.inj dequeued)
  | update =>
    simp only [SchedOp.dequeued] at dequeued
    split_ifs at dequeued with late
    simp only [SchedOp.run, schedUpdate, if_pos late]
    exact (yields _).trans (Option.some.inj dequeued)
  | sleep chan =>
    refine Eq.trans ?_ (Option.some.inj dequeued)
    simp only [SchedOp.run, threadSleep, kernel_kctxSwitch]
    rfl
  | wakeup chan => cases dequeued

/-- `thread_sleep` finds a thread to switch to exactly if the ready queue is not empty. -/
theorem sleepPid_lt (inv : SchedInv s pids) :
    sleepPid s < numIds ↔ (s.kernel.tqueue numIds).head ≠ numIds := by
  have queue : (links s.kernel).Queue numIds _ _ pids := inv.dispatched.queue
  have holds : Holds (tcbSetState s.kernel s.kernel.curid .sleep) numIds pids :=
    Holds.congr inv.dispatched.queue (by simp) rfl
  rw [ne_eq, Links.Queue.head_eq_null queue]
  cases pids with
  | nil =>
    have empty : (s.kernel.tqueue numIds).head = numIds :=
      (Links.Queue.head_eq_null queue).mpr rfl
    simp [sleepPid, tqueueDequeue, empty]
  | cons next rest =>
    have valid := ((inv.dispatched.ready next).mp (by simp)).1
    have result : sleepPid s = next := holds.dequeue.1
    simp [result, valid]

/-- `thread_yield` always finds one: the thread that yields is in the queue itself. -/
theorem yieldPid_lt (inv : SchedInv s pids) : yieldPid s < numIds := by
  obtain ⟨after, next⟩ := inv.yield
  have dequeued : SchedOp.yield.dequeued s = some (yieldPid s) := rfl
  have curid : (threadYield s).kernel.curid = yieldPid s := SchedOp.curid_run dequeued
  rw [← curid]
  exact next.dispatched.valid

/-- In every run in which threads are spawned under free ids and `thread_sleep` is called with
a thread in the ready queue, the current thread is a real one, and whatever the next operation
is, the thread it takes from the ready queue is the next current thread; that one is real too,
unless the operation is `thread_sleep` and the ready queue is empty. -/
theorem dequeued_valid (L : Layout) (rows : List MmapRow) (ram : Ram) (idle : Elf)
    (s : Sched) (reach : SchedReach L rows ram idle s) :
    s.kernel.curid < numIds ∧
    ∀ (op : SchedOp) (pid : Nat), op.dequeued s = some pid →
      (op.run s).kernel.curid = pid ∧
      (pid < numIds ↔ ∀ chan, op = .sleep chan → (s.kernel.tqueue numIds).head ≠ numIds) := by
  obtain ⟨pids, inv⟩ := reach.inv
  refine ⟨inv.dispatched.valid, fun op pid dequeued => ⟨SchedOp.curid_run dequeued, ?_⟩⟩
  have yields : yieldPid s < numIds := yieldPid_lt inv
  cases op with
  | spawn id quota => cases dequeued
  | yield =>
    obtain rfl := Option.some.inj dequeued
    simp [yields]
  | update =>
    simp only [SchedOp.dequeued] at dequeued
    split_ifs at dequeued with late
    obtain rfl := Option.some.inj dequeued
    simp [yields]
  | sleep chan =>
    obtain rfl := Option.some.inj dequeued
    rw [sleepPid_lt inv]
    simp
  | wakeup chan => cases dequeued

theorem dequeued_valid_handOver :
    handOver.kernel.curid < numIds ∧ (SchedOp.sleep 7).dequeued handOver = some 4 ∧
    ((SchedOp.sleep 7).run handOver).kernel.curid = 4 := by
  obtain ⟨valid, next⟩ := dequeued_valid _ _ _ _ handOver handOver_reach
  have head : (SchedOp.sleep 7).dequeued handOver = some 4 := by decide +kernel
  exact ⟨valid, head, (next _ _ head).1⟩

/-- The first process goes to sleep, to wait for the disk for instance, before there is another
one: the null index of the empty queue becomes the current thread. -/
theorem sleep_alone :
    ∃ s, SchedReach kernelLayout [] (fun _ => 0) emptyElf s ∧
      (SchedOp.sleep 7).dequeued s = some numIds ∧
      ((SchedOp.sleep 7).run s).kernel.curid = numIds := by
  have empty : (SchedOp.sleep 7).dequeued (kernMain kernelLayout emptyElf
      (bootSched kernelLayout [] fun _ => 0)) = some numIds := by decide
  exact ⟨_, .start, empty, SchedOp.curid_run empty⟩

end OsAudio.Thread

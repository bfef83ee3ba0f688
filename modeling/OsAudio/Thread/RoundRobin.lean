import OsAudio.Thread.Scheduler

/-!
# Round robin

The order in which the threads get the CPU.  Every operation adds threads at the end of the
ready queue only and takes at most its first thread away, so the threads in the queue are
dispatched in its order, whatever else happens in between.
-/
namespace OsAudio.Thread
open OsAudio.Lib OsAudio.Pmm OsAudio.Vmm OsAudio.Proc

/-- The current thread after each operation of a run that takes one from the ready queue. -/
def dispatches (s : Sched) : List SchedOp → List Nat
  | [] => []
  | op :: ops =>
    match op.dequeued s with
    | some _ => (op.run s).kernel.curid :: dispatches (op.run s) ops
    | none => dispatches (op.run s) ops

/-- Each `thread_spawn` of a run gets the id of a dead thread. -/
def FreshSpawns (s : Sched) : List SchedOp → Prop
  | [] => True
  | op :: ops =>
    (∀ id quota, op = .spawn id quota → op.Allowed s) ∧ FreshSpawns (op.run s) ops

variable {s : Sched} {pids : List Nat}

/-- What one operation does to a ready queue: it adds threads at the end, and if it dispatches
one, that is the first. -/
inductive Advance (after : Sched) (pids : List Nat) : Option Nat → Prop
  | keep (added : List Nat) : SchedInv after (pids ++ added) → Advance after pids none
  | dispatch (added : List Nat) (next : Nat) (rest : List Nat) : pids ++ added = next :: rest →
      SchedInv after rest → Advance after pids (some next)

theorem SchedInv.advance (inv : SchedInv s pids) (op : SchedOp)
    (fresh : ∀ id quota, op = .spawn id quota → op.Allowed s)
    (someone : ∀ chan, op = .sleep chan → pids ≠ []) :
    Advance (op.run s) pids (op.dequeued s) := by
  have yields : ∀ s, SchedInv s pids → Advance (threadYield s) pids (some (yieldPid s)) := by
    intro s inv
    obtain ⟨rest, split, after⟩ := inv.yield_next
    exact .dispatch _ _ rest split after
  cases op with
  | spawn id quota =>
    obtain ⟨valid, dead⟩ := fresh id quota rfl
    exact .keep _ (inv.spawn_next valid dead)
  | yield => exact yields s inv
  | update =>
    obtain ⟨dispatched, running, sleeper⟩ := inv
    simp only [SchedOp.run, SchedOp.dequeued, schedUpdate]
    split_ifs
    · exact yields { s with schedTicks := 0 } ⟨dispatched, running, sleeper⟩
    · refine .keep [] ?_
      rw [List.append_nil]
      exact ⟨dispatched, running, sleeper⟩
  | sleep chan =>
    cases pids with
    | nil => exact absurd rfl (someone chan rfl)
    | cons next rest =>
      obtain ⟨taken, after⟩ := inv.sleep_next chan
      rw [SchedOp.dequeued, taken]
      exact .dispatch [] next rest (List.append_nil _) after
  | wakeup chan =>
    obtain ⟨woken, after⟩ := inv.wakeup_next chan
    exact .keep woken after

/-- The first dispatches of a run are the threads of the ready queue, in its order. -/
theorem SchedInv.dispatches {ops : List SchedOp} (inv : SchedInv s pids)
    (fresh : FreshSpawns s ops) (k : Nat) (queued : k < pids.length)
    (happens : k < (Thread.dispatches s ops).length) :
    (Thread.dispatches s ops)[k]? = pids[k]? := by
  induction ops generalizing s pids k with
  | nil => exact absurd happens (Nat.not_lt_zero k)
  | cons op ops ih =>
    have nonempty : pids ≠ [] := by
      rintro rfl
      exact Nat.not_lt_zero k queued
    have step := inv.advance op fresh.1 fun _ _ => nonempty
    unfold Thread.dispatches at happens ⊢
    generalize taken : op.dequeued s = dequeued at step happens
    cases step with
    | keep added after =>
      have longer : k < (pids ++ added).length := by
        rw [List.length_append]
        omega
      exact (ih after fresh.2 k longer happens).trans (List.getElem?_append_left queued)
    | dispatch added next rest split after =>
      have current : (op.run s).kernel.curid = next := SchedOp.curid_run taken
      have extended : (pids ++ added)[k]? = pids[k]? := List.getElem?_append_left queued
      rw [← extended, split]
      cases k with
      | zero => simp [current]
      | succ k =>
        have sizes := congrArg List.length split
        simp only [List.length_append, List.length_cons] at sizes happens
        simpa using ih after fresh.2 k (by omega) (by omega)

/-- The threads that only yield get the CPU in turn. -/
theorem SchedInv.yields (inv : SchedInv s pids) (n : Nat) (window : n ≤ pids.length + 1) :
    Thread.dispatches s (List.replicate n .yield) = (pids ++ [s.kernel.curid]).take n := by
  induction n generalizing s pids with
  | zero => rfl
  | succ n ih =>
    obtain ⟨rest, split, after⟩ := inv.yield_next
    have taken : SchedOp.yield.dequeued s = some (yieldPid s) := rfl
    have current : (SchedOp.yield.run s).kernel.curid = yieldPid s := SchedOp.curid_run taken
    have sizes := congrArg List.length split
    simp only [List.length_append, List.length_cons, List.length_nil] at sizes
    have turns := ih after (by omega)
    rw [List.take_append_of_le_length (by omega)] at turns
    rw [split, List.take_succ_cons, ← turns, ← current]
    rfl

/-- From every reachable state in which the ready queue holds `pids`, and in every run in which
threads are spawned under free ids: the thread at position `k` of the queue becomes the current
one with the dequeue number `k + 1`, and not before.  If the ready threads and the current one
only yield, as many yields as there are threads give each of them the CPU once. -/
theorem round_robin (L : Layout) (rows : List MmapRow) (ram : Ram) (idle : Elf) (s : Sched)
    (reach : SchedReach L rows ram idle s) (pids : List Nat) (queue : Holds s.kernel numIds pids) :
    (∀ (ops : List SchedOp) (k pid : Nat), FreshSpawns s ops → pids[k]? = some pid →
      ∀ j ≤ k, j < (dispatches s ops).length →
        ((dispatches s ops)[j]? = some pid ↔ j = k)) ∧
    dispatches s (List.replicate (pids.length + 1) .yield) = pids ++ [s.kernel.curid] ∧
    (pids ++ [s.kernel.curid]).Nodup ∧
    ∀ pid, pid ∈ pids ↔ pid < numIds ∧ (s.kernel.tcb pid).state = .ready := by
  obtain ⟨others, inv⟩ := reach.inv
  obtain rfl : others = pids := Links.Queue.unique inv.dispatched.queue queue
  have distinct : others.Nodup := Links.Queue.nodup queue
  refine ⟨fun ops k pid fresh position j before happens => ?_, ?_, ?_, inv.dispatched.ready⟩
  · obtain ⟨queued, value⟩ := List.getElem?_eq_some_iff.mp position
    have earlier : j < others.length := Nat.lt_of_le_of_lt before queued
    rw [inv.dispatches fresh j earlier happens, ← position]
    exact List.getElem?_inj earlier distinct
  · rw [inv.yields _ (Nat.le_refl _), List.take_of_length_le (by simp)]
  · refine List.nodup_append.mpr ⟨distinct, List.nodup_singleton _, ?_⟩
    intro pid member other only equal
    rw [List.mem_singleton.mp only] at equal
    have ready := ((inv.dispatched.ready pid).mp member).2
    rw [equal, inv.dispatched.current] at ready
    cases ready

/-- The state after boot and some operations. -/
def afterBoot (ops : List SchedOp) : Sched :=
  ops.foldl SchedOp.run
    (kernMain kernelLayout emptyElf (bootSched kernelLayout [] fun _ => 0))

/-- The first process has spawned threads 4 and 5. -/
theorem afterBoot_spawned : SchedReach kernelLayout [] (fun _ => 0) emptyElf
    (afterBoot [.spawn 1 10, .spawn 1 10]) := by
  refine .step (.spawn 1 10) (.step (.spawn 1 10) .start ?_) ?_
  · constructor <;> decide
  · constructor <;> decide

theorem afterBoot_queue : Holds (afterBoot [.spawn 1 10, .spawn 1 10]).kernel numIds [4, 5] := by
  decide

theorem round_robin_spawned :
    (dispatches (afterBoot [.spawn 1 10, .spawn 1 10]) [.sleep 7, .wakeup 7, .yield])[1]? = some 5 ∧
    dispatches (afterBoot [.spawn 1 10, .spawn 1 10]) [.yield, .yield, .yield] = [4, 5, 1] := by
  obtain ⟨order, window, -, -⟩ := round_robin kernelLayout [] (fun _ => 0)
    emptyElf _ afterBoot_spawned [4, 5] afterBoot_queue
  have current : (afterBoot [.spawn 1 10, .spawn 1 10]).kernel.curid = 1 := by decide
  rw [current] at window
  refine ⟨(order _ 1 5 ?_ rfl 1 (Nat.le_refl 1) ?_).mpr rfl, window⟩
  · exact ⟨nofun, nofun, nofun, trivial⟩
  · decide

/-- Process 1 spawns process 4, which spawns process 13, and then eight more. -/
def manyChildren : Sched :=
  afterBoot ([.spawn 1 10, .yield, .spawn 4 1, .yield] ++ List.replicate 8 (.spawn 1 10))

/-- The processes 1, 4 and 5 all go to sleep and are woken up. -/
def allAsleep : Sched :=
  afterBoot [.spawn 1 10, .spawn 1 10, .sleep 7, .sleep 7, .sleep 7, .wakeup 7]

theorem manyChildren_reach : SchedReach kernelLayout [] (fun _ => 0) emptyElf
    manyChildren := by
  unfold manyChildren afterBoot
  simp only [List.replicate, List.cons_append, List.nil_append, List.foldl_cons, List.foldl_nil]
  iterate 8 refine .step (.spawn 1 10) ?_ (by constructor <;> decide)
  refine .step .yield ?_ trivial
  refine .step (.spawn 4 1) ?_ (by constructor <;> decide)
  refine .step .yield ?_ trivial
  exact .step (.spawn 1 10) .start (by constructor <;> decide)

/-- Two ways to lose threads.  The tenth child of process 1 gets the id 13, which process 4 has
given to its own first child, and the threads behind that one are cut off.  And when all threads
are asleep, the null index becomes the current thread; it yields and stays in the queue as its
tail, so that the next thread to be queued replaces all others. -/
theorem round_robin_fails :
    (SchedReach kernelLayout [] (fun _ => 0) emptyElf manyChildren ∧
      Holds manyChildren.kernel numIds [13, 4, 5, 6, 7, 8, 9, 10, 11, 12] ∧
      dispatches manyChildren [.spawn 1 10, .yield, .yield] = [13, 1]) ∧
    Holds allAsleep.kernel numIds [1, 4, 5] ∧
    dispatches allAsleep [.yield, .yield] = [1, 1] := by
  refine ⟨⟨manyChildren_reach, ?_, ?_⟩, ?_, ?_⟩ <;> decide +kernel

end OsAudio.Thread

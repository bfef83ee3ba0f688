import OsAudio.Fs.FileRead
import OsAudio.Trap.Syscall
import OsAudio.Proc.ElfPages

/-!
# What a system call reports

Every handler sets the error number, changes no other field of the trap frame than `eax` and
`ebx`, and keeps to the memory of its own objects, unless one of its unchecked pointers or
indices leads elsewhere.  The default case of the dispatcher does neither.
-/
namespace OsAudio.Trap
open OsAudio.Lib OsAudio.Pmm OsAudio.Vmm OsAudio.Thread

/-! ## The contract -/

/-- The store goes to an object of the call that makes it. -/
def Store.Owned (L : Layout) (s : System) : Store → Prop
  | .absolute _ => False
  | .fbuf i => i < fbufSize
  | .path i => i < pathSize
  | .sysBuf i => i < pageSize
  | .logSector i => i < Fs.logSize
  | .user pid access => access.Confined L pid
  | .child pid => pid < numIds ∧ (s.vm.mem.container pid).used = 0
  | .thread pid => pid < numIds

/-- Beside the file system only the memory of the current process may differ. -/
structure KeepsOthers (s t : System) : Prop where
  sched : t.sched = (s.withVm t.vm).sched
  containers : ∀ id, id ≠ s.curid → t.vm.mem.container id = s.vm.mem.container id

/-- The parts of the kernel that the selected call has no business with. -/
def Untouched (s : System) (tf : TrapFrame) (t : System) : Prop :=
  match SyscallNr.select (syscallGetArg1 tf) with
  | some .puts => t.fs = s.fs ∧ KeepsOthers s t
  | some .spawn => t.fs = s.fs ∧ t.curid = s.curid ∧
      ∀ id, id ≠ s.curid → id ≠ childId s (syscallGetArg3 tf) →
        t.vm.mem.container id = s.vm.mem.container id
  | some .yield => t.fs = s.fs ∧ t.vm = s.vm
  | some .produce => t = s
  | some .consume => t = s
  | none => t = s
  | some _ => KeepsOthers s t

/-- The call has reported its outcome and touched nothing else. -/
structure Reports (E : Env) (s : System) (tf : TrapFrame) (c : Call) : Prop where
  errno : ∃ errno, c.reported = some errno ∧ c.frame.regs.eax = BitVec.ofNat 32 errno.code ∧
    (SyscallNr.select (syscallGetArg1 tf) = none → errno = .invalCallnr)
  frame : ∃ eax ebx, c.frame = { tf with regs := { tf.regs with eax := eax, ebx := ebx } }
  owned : ∀ store ∈ c.stores, store.Owned E.layout s
  untouched : Untouched s tf c.system

/-- The open file that the call's descriptor names. -/
def System.descriptor (s : System) (tf : TrapFrame) : Option Nat :=
  Fs.descriptor s.fs s.curid (syscallGetArg2 tf)

/-- The call creates a process of its own: one that is not in use, whose executable lies in the user
range and finds its pages. -/
structure FreshChild (E : Env) (s : System) (elfId quota : Nat) : Prop where
  user : UserProc (childId s quota)
  other : childId s quota ≠ s.curid
  unused : (s.vm.mem.container (childId s quota)).used = 0
  pages : ∀ v ∈ (E.elfs elfId).pages, UserPage v
  enough : Proc.pagesToLoad E.layout s.vm.ram (childId s quota) (E.elfs elfId).pages ≤
    min quota (pagesAbove s.vm.mem.phys).card

/-- The arguments and the state lead to no store outside the objects of the call. -/
def Sound (E : Env) (s : System) (tf : TrapFrame) : Prop :=
  match SyscallNr.select (syscallGetArg1 tf) with
  | none => False
  | some .spawn =>
    Proc.Admitted s.sched.kernel E.leftCurid (syscallGetArg2 tf) (syscallGetArg3 tf) →
      FreshChild E s (syscallGetArg2 tf) (syscallGetArg3 tf)
  | some .open => s.fs.upper.rest.first = true → logHead s.fs ≤ Fs.logSize
  | some .close => (s.descriptor tf).isSome
  | some .stat => (s.descriptor tf).isSome
  | some .read =>
    ∃ f, s.descriptor tf = some f ∧
      ∀ count, Fs.readCount s.fs (s.fs.upper.rest.file f) (syscallGetArg4 tf) = some count →
        count ≤ fbufSize ∧
        CopyFits E.layout s.vm s.curid (syscallGetArg3 tf) E.fbuf (syscallGetArg4 tf)
  | some .write =>
    (s.descriptor tf).isSome ∧
      (accepted (syscallGetArg3 tf) E.fbuf (syscallGetArg4 tf) → syscallGetArg4 tf ≤ fbufSize)
  | some _ => True

/-- The kernel between two system calls: address spaces are isolated, a user process runs and
the ready queue is in order. -/
structure KernelInv (E : Env) (base : Ram) (s : System) : Prop where
  isolated : Isolated E.layout base s.vm
  user : UserProc s.curid
  sched : ∃ pids, SchedInv s.sched pids

/-! ## Reporting -/

/-- `d` is `e` with an error number and possibly a return value in its frame. -/
def Finishes (e d : Call) : Prop :=
  ∃ errno ebx, d = { e with
    frame := { e.frame with regs := { e.frame.regs with
      eax := BitVec.ofNat 32 (Errno.code errno), ebx := ebx } }
    reported := some errno }

theorem setErrno_finishes (e : Call) (errno : Errno) : Finishes e (e.setErrno errno) :=
  ⟨errno, e.frame.regs.ebx, rfl⟩

theorem answer_finishes (e : Call) (reply : Fs.Reply) : Finishes e (e.answer reply) := by
  unfold Call.answer
  split
  · next retval _ => exact ⟨.ofFs reply.errno, BitVec.ofInt 32 retval, rfl⟩
  · exact setErrno_finishes e _

variable {s : System} {d c : Call}

/-- A call that has finished reports, as far as its stores and the rest of the kernel allow. -/
theorem Finishes.reports_iff {E : Env} {tf : TrapFrame} {e : Call} {nr : SyscallNr}
    (finishes : Finishes e d) (frame : e.frame = tf)
    (valid : SyscallNr.select (syscallGetArg1 tf) = some nr) :
    Reports E s tf d ↔
      (∀ store ∈ e.stores, store.Owned E.layout s) ∧ Untouched s tf e.system := by
  obtain ⟨errno, ebx, rfl⟩ := finishes
  subst frame
  constructor
  · intro reports
    exact ⟨reports.owned, reports.untouched⟩
  · rintro ⟨owned, untouched⟩
    refine ⟨⟨errno, rfl, rfl, ?_⟩, ⟨_, ebx, rfl⟩, owned, untouched⟩
    intro invalid
    rw [valid] at invalid
    cases invalid

/-! ## Work on the way -/

/-- From `c` the call has come to `d`: the frame is as it was, and `added` are its stores. -/
structure Works (c d : Call) (added : List Store) : Prop where
  frame : d.frame = c.frame
  keeps : KeepsOthers c.system d.system
  stores : d.stores = c.stores ++ added

theorem KeepsOthers.refl (s : System) : KeepsOthers s s := ⟨rfl, fun _ _ => rfl⟩

theorem KeepsOthers.curid {t : System} (keeps : KeepsOthers s t) : t.curid = s.curid := by
  unfold System.curid
  rw [keeps.sched]
  rfl

theorem KeepsOthers.trans {t u : System} (first : KeepsOthers s t) (second : KeepsOthers t u) :
    KeepsOthers s u := by
  refine ⟨?_, fun id other => ?_⟩
  · rw [second.sched]
    unfold System.withVm
    dsimp only
    rw [first.sched]
    rfl
  · rw [second.containers id (first.curid ▸ other), first.containers id other]

theorem Works.refl (c : Call) : Works c c [] := ⟨rfl, .refl _, (List.append_nil _).symm⟩

theorem Works.trans {b : Call} {first second : List Store} (before : Works b c first)
    (after : Works c d second) : Works b d (first ++ second) := by
  refine ⟨after.frame.trans before.frame, before.keeps.trans after.keeps, ?_⟩
  rw [after.stores, before.stores, List.append_assoc]

/-- What the file system returned, and the state it has left. -/
theorem fileSystem_ok {α : Type} {prog : Fs.FsProg α} {a : α}
    (done : c.fileSystem prog = .ok (a, d)) :
    ∃ fs, (Fs.fsMachine fun _ => false).run (Fs.setCurid c.curid >>= fun _ => prog) c.system.fs =
        .ok a fs ∧
      d = { c with system := { c.system with fs := fs } } := by
  unfold Call.fileSystem at done
  dsimp only at done
  split at done
  · next result fs run =>
    injection done with same
    rw [Prod.mk.injEq] at same
    obtain ⟨rfl, rfl⟩ := same
    exact ⟨fs, run, rfl⟩
  · cases done

theorem fileSystem_of_run {α : Type} {c : Call} {prog : Fs.FsProg α} {a : α} {fs : Fs.FsState}
    (run : (Fs.fsMachine fun _ => false).run (Fs.setCurid c.curid >>= fun _ => prog) c.system.fs =
      .ok a fs) :
    c.fileSystem prog = .ok (a, { c with system := { c.system with fs := fs } }) := by
  unfold Call.fileSystem
  dsimp only
  rw [run]

section Handlers
variable {E : Env} {s : System} {tf : TrapFrame} {c d : Call}

/-- The state in which a handler is called. -/
abbrev entered (s : System) (tf : TrapFrame) : Call := ⟨s, tf, none, []⟩

theorem Works.stores_entered {e : Call} {added : List Store} (works : Works (entered s tf) e added) :
    e.stores = added := works.stores

/-- The handlers that may change the file system and the memory of the process. -/
theorem Works.reports_iff {e : Call} {added : List Store} {nr : SyscallNr}
    (works : Works (entered s tf) e added) (finishes : Finishes e d)
    (valid : SyscallNr.select (syscallGetArg1 tf) = some nr)
    (untouched : Untouched s tf e.system ↔ KeepsOthers s e.system) :
    Reports E s tf d ↔ ∀ store ∈ added, store.Owned E.layout s := by
  have frame : e.frame = tf := works.frame
  rw [finishes.reports_iff frame valid, works.stores_entered, untouched]
  exact and_iff_left works.keeps

/-- `container_split` changes the accounts of the parent and of the child only. -/
theorem containerSplit_other (m : Mem) {id quota other : Nat} (parent : other ≠ id)
    (child : other ≠ (containerSplit m id quota).1) :
    (containerSplit m id quota).2.container other = m.container other := by
  unfold containerSplit at child ⊢
  dsimp only at child ⊢
  rw [Function.update_of_ne parent, Function.update_of_ne child]

theorem procCreate_curid (L : Layout) (elf : Proc.Elf) (k : Proc.Kernel) (quota : Nat) :
    (Proc.procCreate L elf k quota).2.curid = k.curid :=
  (@tqueueEnqueue_framed _ numIds _).curid

/-- `sys_spawn` reports, provided the process it creates is a new one and its executable is
loaded into that process. -/
theorem sysSpawn_reports_iff (valid : SyscallNr.select (syscallGetArg1 tf) = some .spawn) :
    Reports E s tf (sysSpawn E (entered s tf)) ↔
      (Proc.Admitted s.sched.kernel E.leftCurid (syscallGetArg2 tf) (syscallGetArg3 tf) →
        (Store.child (childId s (syscallGetArg3 tf))).Owned E.layout s ∧
        ∀ a ∈ childAccesses E s (syscallGetArg2 tf) (syscallGetArg3 tf),
          a.Confined E.layout (childId s (syscallGetArg3 tf))) := by
  by_cases admitted : Proc.Admitted s.sched.kernel E.leftCurid (syscallGetArg2 tf) (syscallGetArg3 tf)
  · obtain ⟨kernel, final⟩ : ∃ kernel, (Proc.procCreate E.layout (E.elfs (syscallGetArg2 tf))
        s.sched.kernel (syscallGetArg3 tf)).2 = kernel := ⟨_, rfl⟩
    have finishes : Finishes (created E (entered s tf) kernel (syscallGetArg2 tf) (syscallGetArg3 tf))
        (sysSpawn E (entered s tf)) := by
      unfold sysSpawn
      dsimp only
      rw [Proc.sysSpawn_admitted admitted, if_pos admitted, final]
      exact ⟨_, BitVec.ofInt 32 _, rfl⟩
    have untouched : Untouched s tf
        (created E (entered s tf) kernel (syscallGetArg2 tf) (syscallGetArg3 tf)).system := by
      unfold Untouched
      rw [valid]
      refine ⟨rfl, ?_, fun id parent child => ?_⟩
      · change kernel.curid = _
        rw [← final, procCreate_curid]
        rfl
      · change kernel.vm.mem.container id = _
        rw [← final, (Proc.procCreate_result _ _ _ _).2 id child]
        exact containerSplit_other s.vm.mem parent child
    have frame : (created E (entered s tf) kernel (syscallGetArg2 tf) (syscallGetArg3 tf)).frame = tf :=
      rfl
    rw [finishes.reports_iff frame valid]
    simp only [created, Call.record, List.nil_append, List.forall_mem_cons, List.forall_mem_map,
      admitted, true_imp_iff]
    exact and_iff_left untouched
  · have finishes : Finishes (entered s tf) (sysSpawn E (entered s tf)) := by
      unfold sysSpawn
      dsimp only
      rw [if_neg admitted]
      exact ⟨_, BitVec.ofInt 32 _, rfl⟩
    have frame : (entered s tf).frame = tf := rfl
    rw [finishes.reports_iff frame valid]
    refine iff_of_true ⟨nofun, ?_⟩ fun passed => absurd passed admitted
    unfold Untouched
    rw [valid]
    exact ⟨rfl, rfl, fun _ _ _ => rfl⟩

/-- The pages that a new child can get. -/
theorem supply_child {m : Mem} {id quota : Nat} (small : quota < 4294967296)
    (other : (containerSplit m id quota).1 ≠ id) :
    supply (containerSplit m id quota).2 (containerSplit m id quota).1 =
      min quota (pagesAbove m.phys).card := by
  have account : (containerSplit m id quota).2.container (containerSplit m id quota).1 =
      ⟨int32 quota, 0, int32 id, 0, 1⟩ := by
    unfold containerSplit at other ⊢
    dsimp only at other ⊢
    rw [Function.update_of_ne other, Function.update_self]
  have left : quotaLeft (containerSplit m id quota).2 (containerSplit m id quota).1 = quota := by
    simp only [quotaLeft, containerGetQuota, containerGetUsage, account, uint32, int32]
    omega
  rw [supply, left]
  rfl

theorem FreshChild.reports {base : Ram} (inv : Isolated E.layout base s.vm)
    (bounds : TableBounds s.vm.mem.phys) (valid : SyscallNr.select (syscallGetArg1 tf) = some .spawn)
    (fresh : Proc.Admitted s.sched.kernel E.leftCurid (syscallGetArg2 tf) (syscallGetArg3 tf) →
      FreshChild E s (syscallGetArg2 tf) (syscallGetArg3 tf)) :
    Reports E s tf (sysSpawn E (entered s tf)) := by
  refine (sysSpawn_reports_iff valid).mpr fun admitted => ?_
  obtain ⟨user, other, unused, pages, enough⟩ := fresh admitted
  have supplied := @supply_child s.vm.mem s.curid (syscallGetArg3 tf) (BitVec.isLt _) other
  refine ⟨⟨user.2, unused⟩, Proc.elfLoad_confined _ (inv.split _ _) bounds user pages ?_⟩
  exact enough.trans supplied.ge

variable {α : Type} {prog : Fs.FsProg α}

/-- A handler goes on where the file system has returned. -/
theorem fileSystem_then {next : α × Call → Except Fs.Stop Call}
    (done : (c.fileSystem prog >>= next) = .ok d) :
    ∃ a e, c.fileSystem prog = .ok (a, e) ∧ next (a, e) = .ok d := by
  cases outcome : c.fileSystem prog with
  | ok result =>
    rw [outcome] at done
    exact ⟨result.1, result.2, rfl, done⟩
  | error w =>
    rw [outcome] at done
    cases done

/-- The program begins by looking up the open file of a descriptor. -/
def Opens {α : Type} (prog : Fs.FsProg α) (fd : Nat) : Prop :=
  ∃ next, prog = (Fs.openFile fd >>= next)

theorem sysClose_opens (fd : Nat) : Opens (Fs.sysClose fd) fd := ⟨_, rfl⟩

theorem sysRead_opens (fd n : Nat) : Opens (Fs.sysRead fd n) fd := ⟨_, rfl⟩

theorem sysFstat_opens (fd : Nat) : Opens (Fs.sysFstat fd) fd := ⟨_, rfl⟩

theorem writeProg_opens (fd n : Nat) (src : List Byte) : Opens (writeProg fd n src) fd := by
  unfold writeProg
  split
  · exact ⟨_, rfl⟩
  · exact ⟨_, rfl⟩

/-- The calls on descriptors find an open file if they return. -/
theorem Opens.found {fd : Nat} {a : α} (opens : Opens prog fd)
    (called : c.fileSystem prog = .ok (a, d)) :
    ∃ f, Fs.descriptor c.system.fs c.curid fd = some f := by
  obtain ⟨next, rfl⟩ := opens
  obtain ⟨fs, run, -⟩ := fileSystem_ok called
  rw [Fs.run_openFile] at run
  cases opened : Fs.descriptor c.system.fs c.curid fd with
  | none =>
    rw [opened] at run
    cases run
  | some f => exact ⟨f, rfl⟩

/-- And end in undefined behaviour if there is none. -/
theorem Opens.closed {fd : Nat} (opens : Opens prog fd)
    (closed : Fs.descriptor c.system.fs c.curid fd = none) (rest : α × Call → Except Fs.Stop Call) :
    (c.fileSystem prog >>= rest) = .error .undefined := by
  obtain ⟨next, rfl⟩ := opens
  have stopped : c.fileSystem (Fs.openFile fd >>= next) = .error .undefined := by
    unfold Call.fileSystem
    dsimp only
    rw [Fs.run_openFile, closed]
  rw [stopped]
  rfl

/-- The local `st` is not a user address, so `pt_copyout` refuses it. -/
theorem copyout_stat (E : Env) (vm : Vm) (kva pid : Nat) :
    ptCopyout E.layout vm kva pid E.st statSize = ⟨0, [], vm⟩ := by
  have kernel := E.st_kernel
  refine if_neg fun admitted => ?_
  have low := admitted.1.1
  simp only [statSize] at kernel
  omega

theorem storeBytes_other {ram : Ram} {addr other : Nat} {bytes : List Byte}
    (outside : ∀ i, i < bytes.length → (addr + i) % word / 4 * 4 ≠ other) :
    storeBytes ram addr bytes other = ram other := by
  unfold storeBytes
  refine upTo_invariant (fun _ (after : Ram) => after other = ram other) rfl bytes.length ?_
  intro i after below same
  rw [storeByte_other (outside i below), same]

end Handlers

/-- The calls that take a descriptor. -/
def SyscallNr.onDescriptor : SyscallNr → Bool
  | .close => true
  | .read => true
  | .write => true
  | .stat => true
  | _ => false

/-- A call on a descriptor that is not open. -/
theorem dispatch_closed {E : Env} {s : System} {tf : TrapFrame} {nr : SyscallNr}
    (selected : SyscallNr.select (syscallGetArg1 tf) = some nr) (takes : nr.onDescriptor = true)
    (closed : s.descriptor tf = none) : syscallDispatch E s tf = .error .undefined := by
  unfold syscallDispatch
  dsimp only
  rw [selected]
  cases nr with
  | close =>
    refine (sysClose_opens _).closed ?_ _
    exact closed
  | read =>
    refine (sysRead_opens _ _).closed ?_ _
    exact closed
  | write =>
    refine (writeProg_opens _ _ _).closed ?_ _
    exact closed
  | stat =>
    refine (sysFstat_opens _).closed ?_ _
    exact closed
  | _ => cases takes

/-- The placement in the built kernel, from the symbol table `obj/kern/kernel.sym`; the locals are
on the kernel stack of process 1. -/
def kernelEnv : Env where
  layout := kernelLayout
  elfs := fun _ => Proc.emptyElf
  fbuf := 0x00e12bc0
  sysBuf := fun pid => 0x009403e0 + pid * pageSize
  path := 0x0098ae00
  old := 0x0098ae00
  new := 0x0098ae80
  st := 0x0098af00
  leftCurid := 0
  leftArg := 0
  fbuf_kernel := ⟨by decide, by decide, by decide⟩
  st_kernel := by decide

/-- `kern_main` has just switched to the first process. -/
def firstSystem : System :=
  ⟨kernMain kernelLayout Proc.emptyElf (bootSched kernelLayout [] fun _ => 0),
    Fs.booted Fs.smallDisk⟩

theorem kernMain_vm (L : Layout) (sched : Sched) :
    (kernMain L Proc.emptyElf sched).kernel.vm =
      VmOp.run L sched.kernel.vm (.split sched.kernel.curid 1000) := by
  unfold kernMain
  dsimp only
  rw [kernel_kctxSwitch]
  refine (@tqueueRemove_framed _ numIds _).vm.trans ?_
  exact (@tqueueEnqueue_framed _ numIds _).vm

theorem firstSystem_curid : firstSystem.curid = 1 := by decide

theorem firstSystem_inv :
    KernelInv kernelEnv (vmInit kernelLayout [] fun _ => 0).ram firstSystem := by
  have reach : VmReach kernelLayout [] (fun _ => 0) firstSystem.vm := by
    unfold System.vm firstSystem
    rw [kernMain_vm]
    refine VmReach.step _ .init ?_
    simp only [VmOp.Allowed, containerSplit]
    decide
  have sched := kernMain_inv kernelLayout [] (fun _ => 0) Proc.emptyElf
  refine ⟨reach.isolated, ?_, [], sched⟩
  rw [firstSystem_curid]
  decide

end OsAudio.Trap

import OsAudio.Trap.WriteBuffer

/-!
# Calls on descriptors

`sys_read`, `sys_write`, `sys_close` and `sys_fstat` take the open file from `openfiles[fd]` without
looking at the range of `fd` and follow the pointer they find there without looking at it, so that
none of them ever rejects a descriptor.  `sys_fstat` fills in a structure on the kernel stack and then
hands it to `pt_copyout` as the place to copy to.
-/
namespace OsAudio.Trap
open OsAudio.Lib OsAudio.Pmm OsAudio.Vmm OsAudio.Thread

/-! ## Descriptors that are not open -/

/-- The call has refused its descriptor and left the file system as it was. -/
structure RejectsDescriptor (s : System) (c : Call) : Prop where
  errno : c.reported = some .badf
  result : c.frame.regs.ebx = BitVec.ofInt 32 (-1)
  files : c.system.fs.upper.rest.file = s.fs.upper.rest.file
  descriptors : c.system.fs.upper.rest.proc = s.fs.upper.rest.proc
  inodes : c.system.fs.upper.icache = s.fs.upper.icache
  disk : c.system.fs.disk = s.fs.disk

/-- No call refuses a descriptor that is outside the table or not open: it leaves the table or
follows a null pointer. -/
theorem badDescriptor_rejected_iff (E : Env) (s : System) (tf : TrapFrame) (nr : SyscallNr)
    (selected : SyscallNr.select (syscallGetArg1 tf) = some nr) (takes : nr.onDescriptor = true) :
    (s.descriptor tf = none → ∃ c, syscallDispatch E s tf = .ok c ∧ RejectsDescriptor s c) ↔
      (s.descriptor tf).isSome := by
  constructor
  · intro rejects
    by_contra absent
    have closed : s.descriptor tf = none := by simpa using absent
    obtain ⟨c, returned, -⟩ := rejects closed
    rw [dispatch_closed selected takes closed] at returned
    cases returned
  · intro opened closed
    rw [closed] at opened
    cases opened

/-- `close (fd)` -/
def closeFrame (fd : Word) : TrapFrame :=
  ⟨⟨0, 0, 0, 0, fd, 0, 0, 6⟩, 0, 0, 0, 0, 48, 0, 0, 0, 0, 0, 0, 0, 0⟩

theorem writer_closeFrame : writer.descriptor (closeFrame 1) = some 1 := by
  unfold System.descriptor
  rw [writer_curid, writer_fs]
  exact readerFs_files.2.1

/-- On an open descriptor there is nothing to reject. -/
theorem badDescriptor_rejected_writer :
    SyscallNr.select (syscallGetArg1 (closeFrame 1)) = some .close ∧
    (writer.descriptor (closeFrame 1) = none →
      ∃ c, syscallDispatch kernelEnv writer (closeFrame 1) = .ok c ∧ RejectsDescriptor writer c) := by
  refine ⟨rfl, (badDescriptor_rejected_iff kernelEnv writer (closeFrame 1) .close rfl rfl).mpr ?_⟩
  rw [writer_closeFrame]
  rfl

/-- The first process closes a descriptor that it has never opened, one past the table, and -1. -/
theorem badDescriptor_undefined :
    KernelInv kernelEnv (vmInit kernelLayout [] fun _ => 0).ram firstSystem ∧
    ∀ fd ∈ ([0, 16, 0xffffffff] : List Word), firstSystem.descriptor (closeFrame fd) = none ∧
      syscallDispatch kernelEnv firstSystem (closeFrame fd) = .error .undefined ∧
      ¬ ∃ c, syscallDispatch kernelEnv firstSystem (closeFrame fd) = .ok c ∧
        RejectsDescriptor firstSystem c := by
  refine ⟨firstSystem_inv, fun fd member => ?_⟩
  have closed : firstSystem.descriptor (closeFrame fd) = none := by
    simp only [List.mem_cons, List.not_mem_nil, or_false] at member
    rcases member with rfl | rfl | rfl
    · rfl
    · rfl
    · rfl
  have undefined := @dispatch_closed kernelEnv firstSystem (closeFrame fd) .close rfl rfl closed
  refine ⟨closed, undefined, ?_⟩
  rintro ⟨c, returned, -⟩
  rw [undefined] at returned
  cases returned

/-! ## The metadata of an open file -/

/-- `struct file_stat` -/
structure FileStat where
  type : Nat
  dev : Nat
  ino : Nat
  nlink : Nat
  size : Nat
  deriving DecidableEq, Repr

/-- The structure in memory; `none` is padding. -/
def FileStat.layout (st : FileStat) : List (Option Nat) :=
  let field (size v : Nat) := (List.range size).map fun i => some (Bytes.leByte v i).toNat
  field 2 st.type ++ [none, none] ++ field 4 st.dev ++ field 4 st.ino ++ field 2 st.nlink ++
    [none, none] ++ field 4 st.size

/-- What `inode_stat` copies from the inode of an open file once it is locked. -/
def metadata (s : Fs.FsState) (f : Nat) : FileStat :=
  let d := Fs.lockedDinode s (s.upper.rest.file f).ip
  ⟨d.type, Fs.rootDev, Fs.fileInum s f, d.nlink, d.size⟩

/-- The memory of a process at `va` holds the structure. -/
def HoldsStat (L : Layout) (ram : Ram) (pid va : Nat) (st : FileStat) : Prop :=
  ∀ i b, st.layout[i]? = some (some b) → userByte L ram pid (va + i) = some b

/-- The metadata of the file is where the caller asked for it, and there is no other change to the
memory of any process. -/
structure DeliversStat (E : Env) (s : System) (tf : TrapFrame) (f : Nat) (c : Call) : Prop where
  holds : HoldsStat E.layout c.vm.ram s.curid (syscallGetArg3 tf) (metadata s.fs f)
  others : ∀ pid va, UserAddr va →
    ¬ (pid = s.curid ∧ syscallGetArg3 tf ≤ va ∧ va < syscallGetArg3 tf + statSize) →
    userByte E.layout c.vm.ram pid va = userByte E.layout s.vm.ram pid va

theorem answer_vm (c : Call) (reply : Fs.Reply) : (c.answer reply).vm = c.vm := by
  obtain ⟨errno, ebx, same⟩ := answer_finishes c reply
  rw [same]
  rfl

/-- `sys_fstat` changes the memory of no process. -/
theorem sysFstat_vm {E : Env} {s : System} {tf : TrapFrame} {c : Call}
    (done : sysFstat E (entered s tf) = .ok c) : c.vm = s.vm := by
  obtain ⟨reply, e, called, rest⟩ := fileSystem_then done
  obtain ⟨fs, -, rfl⟩ := fileSystem_ok called
  dsimp only at rest
  split at rest
  · cases rest
    rw [answer_vm, Call.copyout, copyout_stat]
    rfl
  · cases rest
    rw [answer_vm]
    rfl

/-- When `sys_fstat` returns, the metadata of a file is in the caller's buffer exactly if it was there
before the call. -/
theorem sysFstat_delivers_iff (E : Env) (s : System) (tf : TrapFrame) (f : Nat) (c : Call)
    (done : sysFstat E (entered s tf) = .ok c) :
    DeliversStat E s tf f c ↔
      HoldsStat E.layout s.vm.ram s.curid (syscallGetArg3 tf) (metadata s.fs f) := by
  have same := sysFstat_vm done
  constructor
  · intro delivers
    have holds := delivers.holds
    rwa [same] at holds
  · intro held
    refine ⟨?_, fun pid va _ _ => ?_⟩
    · rwa [same]
    · rw [same]

/-- `fstat (0, 0x40000000)` -/
def statFrame : TrapFrame :=
  ⟨⟨0, 0, 0, 0, 0, 0, 0x40000000, 13⟩, 0, 0, 0, 0, 48, 0, 0, 0, 0, 0, 0, 0, 0⟩

theorem readerFs_stat :
    ((Fs.fsMachine fun _ => false).run (Fs.setCurid 1 >>= fun _ => Fs.sysFstat 0) readerFs).result =
      some ⟨.succ, some 0⟩ ∧
    (metadata readerFs 0).layout[0]? = some (some 2) := by decide +kernel

theorem sysFstat_of_run {E : Env} {s : System} {tf : TrapFrame} {fs : Fs.FsState}
    (run : (Fs.fsMachine fun _ => false).run (Fs.setCurid s.curid >>= fun _ =>
      Fs.sysFstat (syscallGetArg2 tf)) s.fs = .ok ⟨.succ, some 0⟩ fs) :
    sysFstat E (entered s tf) = .ok ((({ entered s tf with system := { s with fs := fs } } : Call).copyout
      E (syscallGetArg3 tf) E.st statSize).answer ⟨.succ, some 0⟩) := by
  have called := @fileSystem_of_run _ (entered s tf) _ _ _ run
  unfold sysFstat
  rw [called]
  rfl

theorem writer_stat : ∃ c, sysFstat kernelEnv (entered writer statFrame) = .ok c ∧
    c.reported = some .succ := by
  obtain ⟨run, -⟩ := readerFs_stat
  obtain ⟨fs, ended⟩ : ∃ fs, (Fs.fsMachine fun _ => false).run (Fs.setCurid writer.curid >>= fun _ =>
      Fs.sysFstat (syscallGetArg2 statFrame)) writer.fs = .ok ⟨.succ, some 0⟩ fs := by
    rw [writer_curid, writer_fs]
    exact ⟨_, Outcome.eq_ok_of_result run⟩
  exact ⟨_, sysFstat_of_run ended, rfl⟩

/-- The first byte of the buffer, 7, is not the one of the type, 2. -/
theorem writer_unstated :
    ¬ HoldsStat kernelLayout writer.vm.ram writer.curid (syscallGetArg3 statFrame) (metadata writer.fs 0) := by
  intro held
  rw [writer_fs, writer_curid] at held
  have byte := held 0 2 readerFs_stat.2
  exact absurd (writer_byte.symm.trans byte) (by decide)

/-- Process 1 asks for the metadata of its file. -/
theorem sysFstat_delivers_writer : ∃ c, sysFstat kernelEnv (entered writer statFrame) = .ok c ∧
    (DeliversStat kernelEnv writer statFrame 0 c ↔ HoldsStat kernelLayout writer.vm.ram writer.curid
      (syscallGetArg3 statFrame) (metadata writer.fs 0)) := by
  obtain ⟨c, done, -⟩ := writer_stat
  exact ⟨c, done, sysFstat_delivers_iff kernelEnv writer statFrame 0 c done⟩

/-- The buffer lies in the mapped page of the process, the call reports success, and the buffer is as
it was. -/
theorem sysFstat_undelivered :
    Isolated kernelLayout (vmInit kernelLayout fourPages fun _ => 0).ram writer.vm ∧
    UserProc writer.curid ∧ writer.descriptor statFrame = some 0 ∧
    vmUserLo ≤ syscallGetArg3 statFrame ∧ syscallGetArg3 statFrame + statSize ≤ vmUserHi ∧
    pagesMissing kernelLayout writer.vm.ram writer.curid (syscallGetArg3 statFrame) statSize = 0 ∧
    ∃ c, sysFstat kernelEnv (entered writer statFrame) = .ok c ∧ c.reported = some .succ ∧
      ¬ DeliversStat kernelEnv writer statFrame 0 c := by
  have opened : writer.descriptor statFrame = some 0 := by
    unfold System.descriptor
    rw [writer_curid, writer_fs]
    exact readerFs_files.1
  obtain ⟨frame, present, -⟩ := userByte_eq_some.mp writer_byte
  have mapped := @pagesMissing_present kernelLayout 1 vmUserLo statSize statSize writer.vm.ram frame
    (by decide) (by decide) (by decide) (by decide) present
  obtain ⟨c, done, success⟩ := writer_stat
  refine ⟨writer_isolated, writer_user, opened, by decide, by decide, ?_, c, done, success, ?_⟩
  · rw [writer_curid]
    exact mapped.trans rfl
  · intro delivers
    have holds := delivers.holds
    rw [sysFstat_vm done] at holds
    exact writer_unstated holds

end OsAudio.Trap

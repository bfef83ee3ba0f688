import OsAudio.Fs.Sysfile

/-!
# The running file system

The system calls as one type, the programs that issue any number of them on behalf of any
processes, the machine they run on (inode layer over log over buffer cache over disk) and
the state in which the kernel starts: `tcb_init` sets the current directory of every TCB by
`namei ("/")` before the first system call.
-/
namespace OsAudio.Fs
open OsAudio.Lib
open Function (update update_self update_eq_self)

/-! ## System calls -/

/-- The file system calls of `syscall_dispatch` with their arguments. -/
inductive Syscall
  | sysOpen (path : List Byte) (omode : Nat)
  | sysClose (fd : Nat)
  | sysRead (fd n : Nat)
  | sysWrite (fd : Nat) (src : List Byte)
  | sysMkdir (path : List Byte)
  | sysChdir (path : List Byte)
  | sysLink (old new : List Byte)
  | sysUnlink (path : List Byte)
  | sysFstat (fd : Nat)

/-- What a call does; its reply goes to the process. -/
def Syscall.body : Syscall → FsProg Unit
  | .sysOpen path omode => do let _ ← Fs.sysOpen path omode
  | .sysClose fd => do let _ ← Fs.sysClose fd
  | .sysRead fd n => do let _ ← Fs.sysRead fd n
  | .sysWrite fd src => do let _ ← Fs.sysWrite fd src
  | .sysMkdir path => do let _ ← Fs.sysMkdir path
  | .sysChdir path => do let _ ← Fs.sysChdir path
  | .sysLink old new => do let _ ← Fs.sysLink old new
  | .sysUnlink path => do let _ ← Fs.sysUnlink path
  | .sysFstat fd => do let _ ← Fs.sysFstat fd

/-- The scheduler lets process `pid` run. -/
def setCurid (pid : Nat) : FsProg Unit := do
  let mem ← getFs
  setFs { mem with curid := pid }

/-- The calls processes make, in the order in which they make them. -/
def session : List (Nat × Syscall) → FsProg Unit
  | [] => pure ()
  | (pid, call) :: calls => do
    setCurid pid
    call.body
    session calls

/-! ## The kernel -/

abbrev FsState := BufSys (LogMem (InodeMem FsMem))

def logMachine {μ : Type} (forbidden : Mark → Bool) :
    Machine (LogSig μ) Stop (BufSys (LogMem μ)) := (bufMachine forbidden).through logImpl

/-- The calls of the inode layer on the real buffer cache and log. -/
def fsMachine (forbidden : Mark → Bool) : Machine (InodeSig FsMem) Stop FsState :=
  (logMachine forbidden).through inodeImpl

section Memory
variable {μ : Type}

/-- The memory of the layers above the log. -/
def BufSys.upper (s : BufSys (LogMem μ)) : μ := s.mem.rest

def BufSys.withUpper (s : BufSys (LogMem μ)) (mem : μ) : BufSys (LogMem μ) :=
  { s with mem := { s.mem with rest := mem } }

@[simp] theorem upper_withUpper (s : BufSys (LogMem μ)) (mem : μ) : (s.withUpper mem).upper = mem :=
  rfl

end Memory

/-! ## Boot -/

/-- `inode_cache`, `ftable` and the TCBs as zeroed memory. -/
def zeroInode : Inode := ⟨⟨0, 0, 0, 0, 0, fun _ => 0⟩, 0, 0, false, false⟩
def zeroFile : File := ⟨.none, 0, false, false, 0, 0⟩
def zeroMem : InodeMem FsMem :=
  ⟨fun _ => zeroInode, ⟨fun _ => zeroFile, fun _ => ⟨fun _ => none, 0⟩, 0, true⟩⟩

/-- The file system's part of `tcb_init_at_id`. -/
def tcbInitAtId (pid : Nat) : FsProg Unit := do
  let cwd ← namei [slash]
  match cwd with
  | some ip => setProc pid ⟨fun _ => none, ip⟩
  | none => .stop .undefined

/-- The loop of `tcb_init`. -/
def tcbInit : (count : Nat) → FsProg Unit
  | 0 => pure ()
  | count + 1 => do
    tcbInit count
    tcbInitAtId count

/-- Memory after `tcb_init`: entry 0 of the inode cache is the root directory, to which every
TCB refers. -/
def bootMem (refs : Nat) : InodeMem FsMem :=
  { zeroMem with
    icache := update zeroMem.icache 0 { zeroInode with inum := rootIno, ref := refs } }

/-- The kernel when the first process makes its first system call. -/
def booted (disk : Nat → Bytes) : FsState := powerOn (bootMem numProcs) disk

section Boot
variable {forbidden : Mark → Bool}

theorem run_inodeOp (op : InodeOp FsMem) (s : FsState) :
    (fsMachine forbidden).run (Prog.op (S := InodeSig FsMem) op) s =
      (logMachine forbidden).run (inodeImpl op) s :=
  Machine.run_op (S := InodeSig FsMem) op s

theorem run_getMem {μ : Type} (s : BufSys (LogMem μ)) :
    (logMachine forbidden).run getMem s = .ok s.upper s := rfl

theorem run_setInode {ν : Type} (s : BufSys (LogMem (InodeMem ν))) (ip : Nat) (inode : Inode) :
    (logMachine forbidden).run (setInode ip inode) s = .ok ()
      (s.withUpper { s.upper with icache := update s.upper.icache ip inode }) := rfl

/-- `inode_get` on an inode that is in the cache. -/
theorem run_iget_cached {s : FsState} {inum ip : Nat} (found : cached s.upper.icache inum = some ip) :
    (fsMachine forbidden).run (iget inum) s = .ok ip (s.withUpper { s.upper with
      icache := update s.upper.icache ip
        { s.upper.icache ip with ref := (s.upper.icache ip).ref + 1 } }) := by
  refine (run_inodeOp (.get inum) s).trans ?_
  change (logMachine forbidden).run (inodeGet inum) s = _
  rw [inodeGet, Machine.run_bind_ok (run_getMem s)]
  simp only [found]
  rw [Machine.run_bind_ok (run_setInode ..)]
  rfl

/-- `inode_get` on an inode that is not in the cache. -/
theorem run_iget_fresh {s : FsState} {inum ip : Nat} (absent : cached s.upper.icache inum = none)
    (free : emptySlot s.upper.icache = some ip) :
    (fsMachine forbidden).run (iget inum) s = .ok ip (s.withUpper { s.upper with
      icache := update s.upper.icache ip
        { s.upper.icache ip with inum := inum, ref := 1, busy := false, valid := false } }) := by
  refine (run_inodeOp (.get inum) s).trans ?_
  change (logMachine forbidden).run (inodeGet inum) s = _
  rw [inodeGet, Machine.run_bind_ok (run_getMem s)]
  simp only [absent, free]
  rw [Machine.run_bind_ok (run_setInode ..)]
  rfl

theorem cached_first {icache : Nat → Inode} {inum : Nat} (used : 0 < (icache 0).ref)
    (named : (icache 0).inum = inum) : cached icache inum = some 0 := by
  have slots : List.range nInode = 0 :: (List.range 49).map Nat.succ := List.range_succ_eq_map
  rw [cached, slots]
  exact List.find?_cons_of_pos (by simp [used, named])

theorem run_iget_root {s : FsState} (used : 0 < (s.upper.icache 0).ref)
    (named : (s.upper.icache 0).inum = rootIno) :
    (fsMachine forbidden).run (iget rootIno) s = .ok 0 (s.withUpper { s.upper with
      icache := update s.upper.icache 0
        { s.upper.icache 0 with ref := (s.upper.icache 0).ref + 1 } }) :=
  run_iget_cached (cached_first used named)

/-- `namei ("/")` is one `inode_get`. -/
theorem namei_root : namei [slash] = (iget rootIno >>= fun ip => pure (some ip)) := rfl

theorem setProc_same (s : FsState) {pid : Nat} {proc : Proc}
    (same : s.upper.rest.proc pid = proc) :
    (fsMachine forbidden).run (setProc pid proc) s = .ok () s := by
  subst same
  have unchanged : (fsMachine forbidden).run (setProc pid (s.upper.rest.proc pid)) s =
      .ok () (s.withUpper { s.upper with rest := { s.upper.rest with
        proc := update s.upper.rest.proc pid (s.upper.rest.proc pid) } }) := rfl
  rw [unchanged, update_eq_self]
  rfl

theorem run_tcbInitAtId {s t : FsState} {pid ip : Nat}
    (got : (fsMachine forbidden).run (iget rootIno) s = .ok ip t)
    (same : t.upper.rest.proc pid = ⟨fun _ => none, ip⟩) :
    (fsMachine forbidden).run (tcbInitAtId pid) s = .ok () t := by
  rw [tcbInitAtId, namei_root, bind_assoc, Machine.run_bind_ok got]
  exact setProc_same t same

/-- `tcb_init` makes every TCB refer to the root directory, without reading the disk. -/
theorem run_tcbInit (disk : Nat → Bytes) (count : Nat) :
    (fsMachine forbidden).run (tcbInit (count + 1)) (powerOn zeroMem disk) =
      .ok () (powerOn (bootMem (count + 1 : Nat)) disk) := by
  induction count with
  | zero =>
    have absent : cached zeroMem.icache rootIno = none := by decide
    have first := @run_iget_fresh forbidden (powerOn zeroMem disk) rootIno 0 absent rfl
    exact run_tcbInitAtId first rfl
  | succ count ih =>
    rw [tcbInit, Machine.run_bind_ok ih]
    have used : 0 < ((bootMem (count + 1 : Nat)).icache 0).ref := by
      simp only [bootMem, update_self]
      omega
    have next := @run_iget_root forbidden (powerOn (bootMem (count + 1 : Nat)) disk) used rfl
    refine (run_tcbInitAtId next rfl).trans (congrArg (Outcome.ok ()) ?_)
    change powerOn _ disk = powerOn _ disk
    congr 1
    simp [bootMem, BufSys.upper, powerOn]

theorem run_boot_booted (forbidden : Mark → Bool) (disk : Nat → Bytes) :
    (fsMachine forbidden).run (tcbInit numProcs) (powerOn zeroMem disk) = .ok () (booted disk) :=
  run_tcbInit disk 63

end Boot

/-! ## A small disk -/

/-- A disk as `mkfs` builds it, with 64 sectors, 16 inodes and an empty root directory. -/
def smallDisk : Nat → Bytes := fun sector =>
  if sector = 1 then (((Bytes.zero.put 0 4 64).put 4 4 48).put 8 4 16).put 12 4 10
  else if sector = 2 then
    storeDinode Bytes.zero rootIno ⟨tDir, 0, 0, 1, bSize, fun i => if i = 0 then 6 else 0⟩
  else if sector = 5 then Bytes.zero.put 0 1 127
  else if sector = 6 then
    (Bytes.zero.copy 0 direntSize fun i => (direntBytes rootIno dot).getD i 0).copy direntSize direntSize
      fun i => (direntBytes rootIno dotdot).getD i 0
  else Bytes.zero

end OsAudio.Fs

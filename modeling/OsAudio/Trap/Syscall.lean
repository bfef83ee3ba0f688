import OsAudio.Fs.Session
import OsAudio.Thread.Scheduler
import OsAudio.Vmm.UserCopy

/-!
# System calls

`syscall_dispatch` (`kern/trap/TDispatch/TDispatch.c`) with the accessors of the trap frame
(`kern/trap/TSyscallArg/TSyscallArg.c`) and the handlers (`kern/trap/TSyscall/TSyscall.c` and the
trap frame's side of `kern/fs/sysfile.c`), over the scheduler, the address spaces and the file
system of the other modules.

A call under way carries, besides the kernel and the trap frame, the error number it has put into
the frame and the stores it has made to memory through pointers and indices it did not check
against the object they belong to.  Console output and the interrupt flag are not represented.
-/
namespace OsAudio.Trap
open OsAudio.Lib OsAudio.Pmm OsAudio.Vmm OsAudio.Thread

/-! ## The trap frame -/

abbrev Word := BitVec 32

/-- `pushregs` -/
structure PushRegs where
  edi : Word
  esi : Word
  ebp : Word
  oesp : Word
  ebx : Word
  edx : Word
  ecx : Word
  eax : Word
  deriving DecidableEq, Repr

/-- `tf_t` -/
structure TrapFrame where
  regs : PushRegs
  es : BitVec 16
  paddingEs : BitVec 16
  ds : BitVec 16
  paddingDs : BitVec 16
  trapno : Word
  err : Word
  eip : Word
  cs : BitVec 16
  paddingCs : BitVec 16
  eflags : Word
  esp : Word
  ss : BitVec 16
  paddingSs : BitVec 16
  deriving DecidableEq, Repr

/-- The offset of `regs.eax` in `tf_t`. -/
def eaxOffset : Nat := 28

/-- `enum __syscall_nr` -/
inductive SyscallNr
  | puts
  | spawn
  | yield
  | produce
  | consume
  | open
  | close
  | read
  | write
  | mkdir
  | chdir
  | link
  | unlink
  | stat
  deriving DecidableEq, Repr

/-- The `case` that a number selects. -/
def SyscallNr.select : Nat → Option SyscallNr
  | 0 => some .puts
  | 1 => some .spawn
  | 2 => some .yield
  | 3 => some .produce
  | 4 => some .consume
  | 5 => some .open
  | 6 => some .close
  | 7 => some .read
  | 8 => some .write
  | 9 => some .mkdir
  | 10 => some .chdir
  | 11 => some .link
  | 12 => some .unlink
  | 13 => some .stat
  | _ => none

/-- `enum __error_nr` -/
inductive Errno
  | succ
  | mem
  | ipc
  | invalCallnr
  | invalAddr
  | invalPid
  | invalReg
  | invalSeg
  | invalEvent
  | invalPort
  | invalHvm
  | invalChid
  | invalId
  | diskOp
  | hvmVmrun
  | hvmMmap
  | hvmReg
  | hvmSeg
  | hvmNeip
  | hvmInject
  | hvmIoport
  | hvmMsr
  | hvmIntrwin
  | exceedsQuota
  | maxNumChildenReached
  | invalChildId
  | nexist
  | create
  | fnf
  | badf
  deriving DecidableEq, Repr

/-- The enumeration counts from 0. -/
def Errno.code (errno : Errno) : Nat := errno.ctorIdx

def Errno.ofFs : Fs.Errno → Errno
  | .succ => .succ
  | .diskOp => .diskOp
  | .nexist => .nexist
  | .create => .create
  | .badf => .badf

def Errno.ofSpawn : Proc.Errno → Errno
  | .succ => .succ
  | .exceedsQuota => .exceedsQuota
  | .maxNumChildrenReached => .maxNumChildenReached
  | .invalChildId => .invalChildId
  | .invalPid => .invalPid

def syscallGetArg1 (tf : TrapFrame) : Nat := tf.regs.eax.toNat
def syscallGetArg2 (tf : TrapFrame) : Nat := tf.regs.ebx.toNat
def syscallGetArg3 (tf : TrapFrame) : Nat := tf.regs.ecx.toNat
def syscallGetArg4 (tf : TrapFrame) : Nat := tf.regs.edx.toNat

/-! ## Calls under way -/

def fbufSize : Nat := 10000
def pathSize : Nat := 128
/-- `sizeof (struct file_stat)` -/
def statSize : Nat := 20

/-- Where buffers lie, what the linked executables are, and what uninitialised places hold. -/
structure Env where
  layout : Layout
  elfs : Nat → Proc.Elf
  fbuf : Nat
  /-- `sys_buf[pid]` -/
  sysBuf : Nat → Nat
  /-- The locals `path`, `old`, `new` and `st` on the kernel stack. -/
  path : Nat
  old : Nat
  new : Nat
  st : Nat
  /-- `curid` in `sys_spawn` before it is assigned. -/
  leftCurid : Nat
  /-- The word on the stack that a call with one argument passes as the second one. -/
  leftArg : Nat
  fbuf_kernel : KernelBuffer layout fbuf fbufSize
  st_kernel : st + statSize ≤ vmUserLo

structure System where
  sched : Sched
  fs : Fs.FsState

def System.curid (s : System) : Nat := s.sched.kernel.curid
def System.vm (s : System) : Vm := s.sched.kernel.vm

def System.withVm (s : System) (vm : Vm) : System :=
  { s with sched := { s.sched with kernel := { s.sched.kernel with vm := vm } } }

/-- A store whose place depends on what the caller passes or on what a table holds. -/
inductive Store
  /-- A byte at a fixed address. -/
  | absolute (addr : Nat)
  /-- `fbuf[i]` -/
  | fbuf (i : Nat)
  /-- Element `i` of a local of 128 bytes for a path. -/
  | path (i : Nat)
  /-- `sys_buf[cur_pid][i]` -/
  | sysBuf (i : Nat)
  /-- `log.lh.sector[i]` -/
  | logSector (i : Nat)
  /-- A piece copied to the memory of process `pid`. -/
  | user (pid : Nat) (access : Access)
  /-- The tables of the new process `pid`. -/
  | child (pid : Nat)
  /-- The thread control block of `pid`. -/
  | thread (pid : Nat)

structure Call where
  system : System
  frame : TrapFrame
  reported : Option Errno
  stores : List Store

namespace Call

def vm (c : Call) : Vm := c.system.vm
def curid (c : Call) : Nat := c.system.curid

/-- `syscall_set_errno` -/
def setErrno (c : Call) (errno : Errno) : Call :=
  { c with
    frame := { c.frame with regs := { c.frame.regs with eax := BitVec.ofNat 32 errno.code } }
    reported := some errno }

/-- `syscall_set_retval1` -/
def setRetval1 (c : Call) (retval : Int) : Call :=
  { c with frame := { c.frame with regs := { c.frame.regs with ebx := BitVec.ofInt 32 retval } } }

def record (c : Call) (stores : List Store) : Call := { c with stores := c.stores ++ stores }

end Call

def bytesAt (ram : Ram) (addr n : Nat) : List Byte :=
  (List.range n).map fun i => BitVec.ofNat 8 (byteAt ram ((addr + i) % word))

/-- The bytes from an address on, up to the first zero; the address wraps around. -/
def stringAt (ram : Ram) : (fuel addr : Nat) → List Byte
  | 0, _ => []
  | fuel + 1, addr =>
    let b := byteAt ram (addr % word)
    if b = 0 then [] else BitVec.ofNat 8 b :: stringAt ram fuel (addr + 1)

/-- The string a `char *` points to. -/
def cString (ram : Ram) (addr : Nat) : List Byte := stringAt ram word addr

def storeBytes (ram : Ram) (addr : Nat) (bytes : List Byte) : Ram :=
  upTo bytes.length (fun i ram => storeByte ram ((addr + i) % word) (bytes.getD i 0).toNat) ram

namespace Call

/-- Bytes stored one after the other from an address on; `store` names the places. -/
def poke (c : Call) (addr : Nat) (bytes : List Byte) (store : Nat → Store) : Call :=
  { c with system := c.system.withVm ⟨c.vm.mem, storeBytes c.vm.ram addr bytes⟩ }.record
    ((List.range bytes.length).map store)

variable (E : Env)

/-- `pt_copyin (get_curid (), uva, kva, len)` -/
def copyin (c : Call) (uva kva len : Nat) (store : Nat → Store) : Nat × Call :=
  let copied := ptCopyin E.layout c.vm c.curid uva kva len
  (copied.copied,
    { c with system := c.system.withVm copied.vm }.record ((List.range copied.copied).map store))

/-- `pt_copyout (kva, get_curid (), uva, len)` -/
def copyout (c : Call) (kva uva len : Nat) : Call :=
  let copied := ptCopyout E.layout c.vm kva c.curid uva len
  { c with system := c.system.withVm copied.vm }.record (copied.accesses.map (.user c.curid))

/-- What the file system does for the current process. -/
def fileSystem {α : Type} (c : Call) (prog : Fs.FsProg α) : Except Fs.Stop (α × Call) :=
  let calling : Fs.FsProg α := do
    Fs.setCurid c.curid
    prog
  match (Fs.fsMachine fun _ => false).run calling c.system.fs with
  | .ok a fs => .ok (a, { c with system := { c.system with fs := fs } })
  | .stop w _ => .error w

/-- The end of a file system call. -/
def answer (c : Call) (reply : Fs.Reply) : Call :=
  match reply.retval1 with
  | some retval => (c.setRetval1 retval).setErrno (.ofFs reply.errno)
  | none => c.setErrno (.ofFs reply.errno)

end Call

/-! ## Handlers of the trap layer -/

section Handlers
variable (E : Env)

/-- The loop of `sys_puts`. -/
def putsFrom : (fuel remain curPos : Nat) → Call → Call
  | 0, _, _, c => c.setErrno .succ
  | fuel + 1, remain, curPos, c =>
    if remain = 0 then c.setErrno .succ
    else
      let nbytes := if remain < pageSize - 1 then remain else pageSize - 1
      let (copied, c) := c.copyin E curPos (E.sysBuf c.curid) nbytes .sysBuf
      if copied ≠ nbytes then c.setErrno .mem
      else
        let c := c.poke (E.sysBuf c.curid + nbytes) [0] fun i => .sysBuf (nbytes + i)
        putsFrom fuel (remain - nbytes) ((curPos + nbytes) % word) c

def sysPuts (c : Call) : Call :=
  let strUva := syscallGetArg2 c.frame
  let strLen := syscallGetArg3 c.frame
  if ¬ (vmUserLo ≤ strUva ∧ (strUva + strLen) % word ≤ vmUserHi) then c.setErrno .invalAddr
  else putsFrom E strLen strLen strUva c

instance (k : Proc.Kernel) (garbage elfId quota : Nat) :
    Decidable (Proc.Admitted k garbage elfId quota) :=
  inferInstanceAs (Decidable (_ ∧ _))

/-- The id of the process `sys_spawn` creates. -/
def childId (s : System) (quota : Nat) : Nat := (Proc.kctxNew s.sched.kernel s.curid quota).1

/-- The pieces of the executable that `sys_spawn` writes into the new process. -/
def childAccesses (s : System) (elfId quota : Nat) : List Access :=
  (Proc.elfLoad E.layout (E.elfs elfId) (Proc.kctxNew s.sched.kernel s.curid quota).2.vm
    (childId s quota)).1

/-- The call after `proc_create` has made `kernel` of the kernel. -/
def created (c : Call) (kernel : Proc.Kernel) (elfId quota : Nat) : Call :=
  let child := childId c.system quota
  let frame := Function.update c.system.sched.frame child .entry
  { c with system := { c.system with sched := { c.system.sched with
      kernel := kernel
      frame := frame } } }.record
    (.child child :: (childAccesses E c.system elfId quota).map (.user child))

def sysSpawn (c : Call) : Call :=
  let elfId := syscallGetArg2 c.frame
  let quota := syscallGetArg3 c.frame
  let k := c.system.sched.kernel
  let (result, kernel) := Proc.sysSpawn E.layout E.elfs k E.leftCurid elfId quota
  let c := if Proc.Admitted k E.leftCurid elfId quota then created E c kernel elfId quota else c
  (c.setErrno (.ofSpawn result.errno)).setRetval1 result.retval1

def sysYield (c : Call) : Call :=
  let sched := threadYield c.system.sched
  let c := { c with system := { c.system with sched := sched } }.record
    [.thread c.curid, .thread sched.kernel.curid]
  c.setErrno .succ

/-- `sys_produce`, apart from its messages. -/
def sysProduce (c : Call) : Call := c.setErrno .succ

/-- `sys_consume`, apart from its messages. -/
def sysConsume (c : Call) : Call := c.setErrno .succ

/-! ## Handlers of the file system -/

def sysRead (c : Call) : Except Fs.Stop Call := do
  let fd := syscallGetArg2 c.frame
  let n := syscallGetArg4 c.frame
  let ((reply, bytes), c) ← c.fileSystem (Fs.sysRead fd n)
  let c := c.poke E.fbuf bytes .fbuf
  if reply.errno = .succ then
    pure ((c.copyout E E.fbuf (syscallGetArg3 c.frame) n).answer reply)
  else pure (c.answer reply)

/-- `sys_write` after the copy, with a length that is negative as an `int`: the loop of
`file_write` ends at once and its result is -1. -/
def writeNegative (fd : Nat) : Fs.FsProg Fs.Reply := do
  let f ← Fs.openFile fd
  let mem ← Fs.getFs
  if !(mem.file f).writable then pure ⟨.badf, some (-1)⟩
  else if (mem.file f).type = .inode then pure ⟨.badf, some (-1)⟩
  else .stop (.panic .fileWrite)

def writeProg (fd n : Nat) (src : List Byte) : Fs.FsProg Fs.Reply :=
  if n < 2147483648 then Fs.sysWrite fd src else writeNegative fd

def sysWrite (c : Call) : Except Fs.Stop Call := do
  let fd := syscallGetArg2 c.frame
  let n := syscallGetArg4 c.frame
  let (_, c) := c.copyin E (syscallGetArg3 c.frame) E.fbuf n .fbuf
  let (reply, c) ← c.fileSystem (writeProg fd n (bytesAt c.vm.ram E.fbuf n))
  pure (c.answer reply)

def sysClose (c : Call) : Except Fs.Stop Call := do
  let (reply, c) ← c.fileSystem (Fs.sysClose (syscallGetArg2 c.frame))
  pure (c.answer reply)

/-- `sys_fstat`; it passes the user's buffer and its own in exchanged places. -/
def sysFstat (c : Call) : Except Fs.Stop Call := do
  let (reply, c) ← c.fileSystem (Fs.sysFstat (syscallGetArg2 c.frame))
  if reply.errno = .succ then
    pure ((c.copyout E (syscallGetArg3 c.frame) E.st statSize).answer reply)
  else pure (c.answer reply)

/-- `pt_copyin` of a path argument to a local, whether or not anything is copied. -/
def copyPath (c : Call) (uva kva : Nat) : Call := (c.copyin E uva kva pathSize .path).2

def sysLink (c : Call) : Except Fs.Stop Call := do
  let c := copyPath E c (syscallGetArg2 c.frame) E.old
  let c := copyPath E c (syscallGetArg3 c.frame) E.new
  let (reply, c) ← c.fileSystem (Fs.sysLink (cString c.vm.ram E.old) (cString c.vm.ram E.new))
  pure (c.answer reply)

/-- The system calls with one path. -/
def pathCall (prog : List Byte → Fs.FsProg Fs.Reply) (c : Call) : Except Fs.Stop Call := do
  let c := copyPath E c (syscallGetArg2 c.frame) E.path
  let (reply, c) ← c.fileSystem (prog (cString c.vm.ram E.path))
  pure (c.answer reply)

def sysUnlink (c : Call) : Except Fs.Stop Call := pathCall E Fs.sysUnlink c
def sysMkdir (c : Call) : Except Fs.Stop Call := pathCall E Fs.sysMkdir c
def sysChdir (c : Call) : Except Fs.Stop Call := pathCall E Fs.sysChdir c

/-- How many sector numbers `log_init` copies from the header on disk. -/
def logHead (s : Fs.FsState) : Nat :=
  let reading : Fs.BufProg (Fs.InodeMem Fs.FsMem) Fs.Log := do
    let sb ← Fs.readSuperblock
    let log ← Fs.getLog
    Fs.setLog (log.placed sb)
    Fs.readHead
    Fs.getLog
  match (Fs.bufMachine fun _ => false).run reading s with
  | .ok log _ => Fs.rounds log.n
  | .stop _ _ => 0

def sysOpen (c : Call) : Except Fs.Stop Call :=
  let c :=
    if c.system.fs.upper.rest.first then
      c.record ((List.range (logHead c.system.fs)).map .logSector)
    else c
  pathCall E (fun path => Fs.sysOpen path (syscallGetArg3 c.frame)) c

/-! ## Dispatch -/

/-- `syscall_set_errno (E_INVAL_CALLNR)`: the one argument is taken for the pointer to the trap
frame, and whatever is next on the stack for the error number. -/
def invalidCall (c : Call) : Call :=
  let addr := Errno.invalCallnr.code + eaxOffset
  c.poke addr ((List.range 4).map (Bytes.leByte E.leftArg)) fun i => .absolute (addr + i)

def syscallDispatch (s : System) (tf : TrapFrame) : Except Fs.Stop Call :=
  let c : Call := ⟨s, tf, none, []⟩
  match SyscallNr.select (syscallGetArg1 tf) with
  | some .puts => .ok (sysPuts E c)
  | some .spawn => .ok (sysSpawn E c)
  | some .yield => .ok (sysYield c)
  | some .produce => .ok (sysProduce c)
  | some .consume => .ok (sysConsume c)
  | some .open => sysOpen E c
  | some .close => sysClose c
  | some .read => sysRead E c
  | some .write => sysWrite E c
  | some .mkdir => sysMkdir E c
  | some .chdir => sysChdir E c
  | some .link => sysLink E c
  | some .unlink => sysUnlink E c
  | some .stat => sysFstat E c
  | none => .ok (invalidCall E c)

end Handlers

end OsAudio.Trap

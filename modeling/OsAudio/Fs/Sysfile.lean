import OsAudio.Fs.Dir

/-!
# Files and system calls

`kern/fs/file.c` and `kern/fs/sysfile.c`, as programs over the inode layer.  The bytes a
call copies from or to the user process are arguments and results; a descriptor or file
pointer the code does not check is undefined behaviour when it is out of range or null.
-/
namespace OsAudio.Fs
open OsAudio.Lib

def nFile : Nat := 100
def noFile : Nat := 16

def setFile (f : Nat) (file : File) : FsProg Unit := do
  let mem ← getFs
  setFs { mem with file := Function.update mem.file f file }

def setProc (pid : Nat) (proc : Proc) : FsProg Unit := do
  let mem ← getFs
  setFs { mem with proc := Function.update mem.proc pid proc }

/-! ## Files -/

def fileAlloc : FsProg (Option Nat) := do
  let mem ← getFs
  match (List.range nFile).find? fun f => (mem.file f).ref = 0 with
  | some f => do
    setFile f { mem.file f with ref := 1 }
    pure (some f)
  | none => pure none

def fileClose (f : Nat) : FsProg Unit := do
  let mem ← getFs
  let file := mem.file f
  if file.ref < 1 then .stop (.panic .fileClose)
  else if file.ref - 1 > 0 then setFile f { file with ref := file.ref - 1 }
  else do
    setFile f { file with ref := 0, type := .none }
    if file.type = .inode then do
      begin
      iput file.ip
      commit

/-- `file_stat`: the fields it copies, or nothing for the result -1. -/
def fileStat (f : Nat) : FsProg (Option InodeView) := do
  let mem ← getFs
  let file := mem.file f
  if file.type = .inode then do
    ilock file.ip
    let view ← look file.ip
    iunlock file.ip
    pure (some view)
  else pure none

/-- `file_read`: the bytes read, or nothing for the result -1. -/
def fileRead (f n : Nat) : FsProg (Option (List Byte)) := do
  let mem ← getFs
  let file := mem.file f
  if !file.readable then pure none
  else if file.type = .inode then do
    ilock file.ip
    let r ← iread file.ip file.off n
    match r with
    | some bytes => setFile f { file with off := (file.off + bytes.length) % 4294967296 }
    | none => pure ()
    iunlock file.ip
    pure r
  else .stop (.panic .fileRead)

/-- The largest number of bytes one transaction of `file_write` writes. -/
def maxWrite : Nat := (logSize - 1 - 1 - 2) / 2 * 512

/-- The loop of `file_write` over the bytes left; whether all were written. -/
def fileWriteFrom (f : Nat) : (fuel : Nat) → List Byte → FsProg Bool
  | 0, src => pure src.isEmpty
  | fuel + 1, src =>
    if src.isEmpty then pure true
    else do
      let chunk := src.take maxWrite
      begin
      let mem ← getFs
      let file := mem.file f
      ilock file.ip
      let r ← iwrite file.ip file.off chunk
      if r > 0 then setFile f { file with off := (file.off + r.toNat) % 4294967296 }
      iunlock file.ip
      commit
      if r < 0 then pure false
      else if r ≠ chunk.length then .stop (.panic .shortFileWrite)
      else fileWriteFrom f fuel (src.drop maxWrite)

/-- `file_write`: the number of bytes written, or -1. -/
def fileWrite (f : Nat) (src : List Byte) : FsProg Int := do
  let mem ← getFs
  let file := mem.file f
  if !file.writable then pure (-1)
  else if file.type = .inode then do
    let all ← fileWriteFrom f src.length src
    pure (if all then (src.length : Int) else -1)
  else .stop (.panic .fileWrite)

/-! ## System calls -/

inductive Errno
  | succ
  | diskOp
  | nexist
  | create
  | badf
  deriving DecidableEq, Repr

/-- The error number and the first return value; a call that does not set the latter
leaves it alone. -/
structure Reply where
  errno : Errno
  retval1 : Option Int
  deriving DecidableEq, Repr

def fdalloc (f : Nat) : FsProg (Option Nat) := do
  let mem ← getFs
  let proc := mem.proc mem.curid
  match (List.range noFile).find? fun fd => (proc.openfiles fd).isNone with
  | some fd => do
    setProc mem.curid { proc with openfiles := Function.update proc.openfiles fd (some f) }
    pure (some fd)
  | none => pure none

/-- The open file of a descriptor of the current process. -/
def openFile (fd : Nat) : FsProg Nat := do
  let mem ← getFs
  if noFile ≤ fd then .stop .undefined
  else
    match (mem.proc mem.curid).openfiles fd with
    | some f => pure f
    | none => .stop .undefined

def sysRead (fd n : Nat) : FsProg (Reply × List Byte) := do
  let f ← openFile fd
  let r ← fileRead f n
  match r with
  | none => pure (⟨.badf, some (-1)⟩, [])
  | some bytes => pure (⟨.succ, some bytes.length⟩, bytes)

def sysWrite (fd : Nat) (src : List Byte) : FsProg Reply := do
  let f ← openFile fd
  let r ← fileWrite f src
  if r < 0 then pure ⟨.badf, some (-1)⟩ else pure ⟨.succ, some src.length⟩

def sysClose (fd : Nat) : FsProg Reply := do
  let f ← openFile fd
  let mem ← getFs
  let proc := mem.proc mem.curid
  setProc mem.curid { proc with openfiles := Function.update proc.openfiles fd none }
  fileClose f
  pure ⟨.succ, some 0⟩

def sysFstat (fd : Nat) : FsProg Reply := do
  let f ← openFile fd
  let st ← fileStat f
  if st.isNone then pure ⟨.badf, some (-1)⟩ else pure ⟨.succ, some 0⟩

/-- `ip->nlink++` and `ip->nlink--` on a 16-bit field. -/
def inc16 (n : Nat) : Nat := (n + 1) % 65536
def dec16 (n : Nat) : Nat := (n + 65535) % 65536

/-- The error exit of `sys_link`. -/
def sysLinkBad (ip : Nat) : FsProg Reply := do
  ilock ip
  let view ← look ip
  setNlink ip (dec16 view.nlink)
  iupdate ip
  iunlockput ip
  commit
  pure ⟨.diskOp, none⟩

def sysLink (old new : List Byte) : FsProg Reply := do
  let found ← namei old
  match found with
  | none => pure ⟨.nexist, none⟩
  | some ip => do
    begin
    ilock ip
    let view ← look ip
    if view.type = tDir then do
      iunlockput ip
      commit
      pure ⟨.diskOp, none⟩
    else do
      fsMark .linkWrap (view.nlink = 65535)
      setNlink ip (inc16 view.nlink)
      iupdate ip
      iunlock ip
      let parent ← nameiparent new
      match parent with
      | none => sysLinkBad ip
      | some (dp, name) => do
        ilock dp
        let added ← dirLink dp name view.inum
        if added then do
          iunlockput dp
          iput ip
          commit
          pure ⟨.succ, none⟩
        else do
          iunlockput dp
          sysLinkBad ip

/-- The loop of `isdirempty` from `off` on. -/
def isdiremptyFrom (dp : Nat) : (count off : Nat) → FsProg Bool
  | 0, _ => pure true
  | count + 1, off => do
    let bytes ← iread dp off direntSize
    match bytes with
    | none => .stop (.panic .isdiremptyRead)
    | some bytes =>
      if bytes.length ≠ direntSize then .stop (.panic .isdiremptyRead)
      else if (direntOf bytes).inum ≠ 0 then pure false
      else isdiremptyFrom dp count (off + direntSize)

def isdirempty (dp : Nat) : FsProg Bool := do
  let view ← look dp
  isdiremptyFrom dp (entries view.size - 2) (2 * direntSize)

def dot : List Byte := [0x2e]
def dotdot : List Byte := [0x2e, 0x2e]

def numProcs : Nat := 64

/-- The error exit of `sys_unlink`. -/
def sysUnlinkBad (dp : Nat) : FsProg Reply := do
  iunlockput dp
  commit
  pure ⟨.diskOp, none⟩

def sysUnlink (path : List Byte) : FsProg Reply := do
  let parent ← nameiparent path
  match parent with
  | none => pure ⟨.diskOp, none⟩
  | some (dp, name) => do
    begin
    ilock dp
    if dirNamecmp (chars name) (chars dot) ∨ dirNamecmp (chars name) (chars dotdot) then
      sysUnlinkBad dp
    else do
      let found ← dirLookup dp name
      match found with
      | none => sysUnlinkBad dp
      | some (ip, off) => do
        ilock ip
        let view ← look ip
        if view.nlink = 0 ∨ 32768 ≤ view.nlink then .stop (.panic .unlinkNlink)
        else do
          let empty ← if view.type = tDir then isdirempty ip else pure true
          if !empty then do
            iunlockput ip
            sysUnlinkBad dp
          else do
            let mem ← getFs
            fsMark .unlinkCwd
              (view.type = tDir ∧ (List.range numProcs).any fun pid => (mem.proc pid).cwd = ip)
            let written ← iwrite dp off (List.replicate direntSize 0)
            if written ≠ direntSize then .stop (.panic .unlinkWritei)
            else do
              if view.type = tDir then do
                let parent ← look dp
                setNlink dp (dec16 parent.nlink)
                iupdate dp
              iunlockput dp
              let view ← look ip
              setNlink ip (dec16 view.nlink)
              iupdate ip
              iunlockput ip
              commit
              pure ⟨.succ, none⟩

/-- `create`: the locked inode. -/
def create (path : List Byte) (type major minor : Nat) : FsProg (Option Nat) := do
  let parent ← nameiparent path
  match parent with
  | none => pure none
  | some (dp, name) => do
    ilock dp
    let found ← dirLookup dp name
    match found with
    | some (ip, _) => do
      iunlockput dp
      ilock ip
      let view ← look ip
      if type = tFile ∧ view.type = tFile then pure (some ip)
      else do
        iunlockput ip
        pure none
    | none => do
      let ip ← ialloc type
      ilock ip
      setDev ip major minor
      setNlink ip 1
      iupdate ip
      let view ← look ip
      if type = tDir then do
        let parent ← look dp
        fsMark .linkWrap (parent.nlink = 65535)
        setNlink dp (inc16 parent.nlink)
        iupdate dp
        let first ← dirLink ip dot view.inum
        let second ← if first then dirLink ip dotdot parent.inum else pure false
        if !second then .stop (.panic .createDots)
      let added ← dirLink dp name view.inum
      if !added then .stop (.panic .createDirLink)
      iunlockput dp
      pure (some ip)

def oRdonly : Nat := 0x000
def oWronly : Nat := 0x001
def oRdwr : Nat := 0x002
def oCreate : Nat := 0x200

/-- The end of `sys_open`, once the inode is locked. -/
def openFinish (ip omode : Nat) : FsProg Reply := do
  let f ← fileAlloc
  match f with
  | none => do
    iunlockput ip
    pure ⟨.diskOp, some (-1)⟩
  | some f => do
    let fd ← fdalloc f
    match fd with
    | none => do
      fileClose f
      iunlockput ip
      pure ⟨.diskOp, some (-1)⟩
    | some fd => do
      iunlock ip
      let mem ← getFs
      setFile f { mem.file f with
        type := .inode
        ip := ip
        off := 0
        readable := omode &&& oWronly = 0
        writable := omode &&& oWronly ≠ 0 ∨ omode &&& oRdwr ≠ 0 }
      pure ⟨.succ, some fd⟩

def sysOpen (path : List Byte) (omode : Nat) : FsProg Reply := do
  let mem ← getFs
  if mem.first then do
    setFs { mem with first := false }
    Prog.op (S := InodeSig FsMem) .logInit
  if omode &&& oCreate ≠ 0 then do
    begin
    let ip ← create path tFile 0 0
    commit
    match ip with
    | none => pure ⟨.create, some (-1)⟩
    | some ip => openFinish ip omode
  else do
    let found ← namei path
    match found with
    | none => pure ⟨.nexist, some (-1)⟩
    | some ip => do
      ilock ip
      let view ← look ip
      if view.type = tDir ∧ omode ≠ oRdonly then do
        iunlockput ip
        pure ⟨.diskOp, some (-1)⟩
      else openFinish ip omode

def sysMkdir (path : List Byte) : FsProg Reply := do
  begin
  let ip ← create path tDir 0 0
  match ip with
  | none => do
    commit
    pure ⟨.diskOp, none⟩
  | some ip => do
    iunlockput ip
    commit
    pure ⟨.succ, none⟩

def sysChdir (path : List Byte) : FsProg Reply := do
  let mem ← getFs
  let pid := mem.curid
  let cwd ← look (mem.proc pid).cwd
  fsMark .chdirOrphan (cwd.ref = 1 ∧ cwd.valid ∧ cwd.nlink = 0)
  let found ← namei path
  match found with
  | none => pure ⟨.diskOp, none⟩
  | some ip => do
    ilock ip
    let view ← look ip
    if view.type ≠ tDir then do
      iunlockput ip
      pure ⟨.diskOp, none⟩
    else do
      iunlock ip
      let mem ← getFs
      iput (mem.proc pid).cwd
      let mem ← getFs
      setProc pid { mem.proc pid with cwd := ip }
      pure ⟨.succ, none⟩

end OsAudio.Fs

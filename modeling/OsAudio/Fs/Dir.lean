import OsAudio.Fs.Inode

/-!
# Directories and paths

`kern/fs/dir.c` and `kern/fs/path.c`, as programs over the inode layer.  C strings are
lists of bytes without the terminating zero.
-/
namespace OsAudio.Fs
open OsAudio.Lib

def dirSiz : Nat := 14
def rootDev : Nat := 1

inductive FdType
  | none
  | pipe
  | inode
  deriving DecidableEq, Repr

/-- `struct file` -/
structure File where
  type : FdType
  ref : Int
  readable : Bool
  writable : Bool
  ip : Nat
  off : Nat

/-- The file system's fields of `struct TCB`. -/
structure Proc where
  openfiles : Nat → Option Nat
  cwd : Nat

/-- `ftable`, the open files and current directories of the processes, the current
process and the static `first` of `sys_open`. -/
structure FsMem where
  file : Nat → File
  proc : Nat → Proc
  curid : Nat
  first : Bool

/-- Programs over the inode layer. -/
abbrev FsProg (α : Type) := Prog (InodeSig FsMem) Stop α

def iget (inum : Nat) : FsProg Nat := Prog.op (S := InodeSig FsMem) (.get inum)
def idup (ip : Nat) : FsProg Nat := Prog.op (S := InodeSig FsMem) (.dup ip)
def ilock (ip : Nat) : FsProg Unit := Prog.op (S := InodeSig FsMem) (.lock ip)
def iunlock (ip : Nat) : FsProg Unit := Prog.op (S := InodeSig FsMem) (.unlock ip)
def iput (ip : Nat) : FsProg Unit := Prog.op (S := InodeSig FsMem) (.put ip)
def iread (ip off n : Nat) : FsProg (Option (List Byte)) :=
  Prog.op (S := InodeSig FsMem) (.read ip off n)
def iwrite (ip off : Nat) (src : List Byte) : FsProg Int :=
  Prog.op (S := InodeSig FsMem) (.write ip off src)
def ialloc (type : Nat) : FsProg Nat := Prog.op (S := InodeSig FsMem) (.alloc type)
def iupdate (ip : Nat) : FsProg Unit := Prog.op (S := InodeSig FsMem) (.update ip)
def look (ip : Nat) : FsProg InodeView := Prog.op (S := InodeSig FsMem) (.look ip)
def setNlink (ip nlink : Nat) : FsProg Unit := Prog.op (S := InodeSig FsMem) (.setNlink ip nlink)
def setDev (ip major minor : Nat) : FsProg Unit :=
  Prog.op (S := InodeSig FsMem) (.setDev ip major minor)
def begin : FsProg Unit := Prog.op (S := InodeSig FsMem) .beginTrans
def commit : FsProg Unit := Prog.op (S := InodeSig FsMem) .commitTrans
def getFs : FsProg FsMem := Prog.op (S := InodeSig FsMem) .getMem
def setFs (mem : FsMem) : FsProg Unit := Prog.op (S := InodeSig FsMem) (.setMem mem)
def fsMark (mark : Mark) (hit : Bool) : FsProg Unit :=
  Prog.op (S := InodeSig FsMem) (.mark mark hit)

/-- `inode_unlockput` -/
def iunlockput (ip : Nat) : FsProg Unit := do
  iunlock ip
  iput ip

/-! ## Directories -/

/-- `struct dirent` from its 16 bytes. -/
structure Dirent where
  inum : Nat
  name : Nat → Byte

def direntOf (bytes : List Byte) : Dirent :=
  ⟨Bytes.le (fun i => bytes.getD i 0) 2, fun i => bytes.getD (2 + i) 0⟩

def direntSize : Nat := 16

/-- The characters of a C string: zero from its end on. -/
def chars (name : List Byte) : Nat → Byte := fun i => name.getD i 0

/-- `strncmp (p, q, n) == 0` -/
def strncmpEq (p q : Nat → Byte) : (n i : Nat) → Bool
  | 0, _ => true
  | n + 1, i => if p i = 0 then q i = 0 else if p i = q i then strncmpEq p q n (i + 1) else false

/-- `dir_namecmp (s, t) == 0` -/
def dirNamecmp (s t : Nat → Byte) : Bool := strncmpEq s t dirSiz 0

/-- `strncpy (de.name, name, DIRSIZ)` with the inode number in front. -/
def direntBytes (inum : Nat) (name : List Byte) : List Byte :=
  [Bytes.leByte inum 0, Bytes.leByte inum 1] ++ (List.range dirSiz).map (chars name)

/-- The loop of `dir_lookup` from `off` on. -/
def dirLookupFrom (dp : Nat) (name : List Byte) : (count off : Nat) → FsProg (Option (Nat × Nat))
  | 0, _ => pure none
  | count + 1, off => do
    let bytes ← iread dp off direntSize
    match bytes with
    | none => .stop (.panic .dirLinkRead)
    | some bytes =>
      if bytes.length ≠ direntSize then .stop (.panic .dirLinkRead)
      else
        let de := direntOf bytes
        if de.inum ≠ 0 ∧ dirNamecmp (chars name) de.name then do
          let ip ← iget de.inum
          pure (some (ip, off))
        else dirLookupFrom dp name count (off + direntSize)

/-- How many rounds a loop over the entries of a directory makes. -/
def entries (size : Nat) : Nat := (size + direntSize - 1) / direntSize

/-- `dir_lookup`: the inode and the offset of the entry. -/
def dirLookup (dp : Nat) (name : List Byte) : FsProg (Option (Nat × Nat)) := do
  let view ← look dp
  if view.type ≠ tDir then .stop (.panic .dirLookupNotDir)
  else dirLookupFrom dp name (entries view.size) 0

/-- The second loop of `dir_link`: the offset of an empty entry, or the end. -/
def emptyDirent (dp : Nat) : (count off : Nat) → FsProg Nat
  | 0, off => pure off
  | count + 1, off => do
    let bytes ← iread dp off direntSize
    match bytes with
    | none => .stop (.panic .dirLinkRead)
    | some bytes =>
      if bytes.length ≠ direntSize then .stop (.panic .dirLinkRead)
      else if (direntOf bytes).inum = 0 then pure off
      else emptyDirent dp count (off + direntSize)

/-- `dir_link`: whether the entry was added. -/
def dirLink (dp : Nat) (name : List Byte) (inum : Nat) : FsProg Bool := do
  let found ← dirLookup dp name
  match found with
  | some (ip, _) => do
    iput ip
    pure false
  | none => do
    let view ← look dp
    let off ← emptyDirent dp (entries view.size) 0
    let written ← iwrite dp off (direntBytes inum name)
    if written ≠ direntSize then .stop (.panic .dirLink)
    else pure true

/-! ## Paths -/

def slash : Byte := 0x2f

/-- `skipelem`: the next element, cut to `DIRSIZ - 1` characters, and the rest. -/
def skipelem (path : List Byte) : Option (List Byte × List Byte) :=
  let path := path.dropWhile (· == slash)
  if path.isEmpty then none
  else
    let elem := path.takeWhile (· != slash)
    let rest := (path.dropWhile (· != slash)).dropWhile (· == slash)
    some (elem.take (dirSiz - 1), rest)

/-- The loop of `namex`.  The result is the inode, with the last element read. -/
def namexFrom (nameiparent : Bool) :
    (fuel ip : Nat) → (path name : List Byte) → FsProg (Option (Nat × List Byte))
  | 0, _, _, _ => pure none
  | fuel + 1, ip, path, name =>
    match skipelem path with
    | none =>
      if nameiparent then do
        iput ip
        pure none
      else pure (some (ip, name))
    | some (name, path) => do
      ilock ip
      let view ← look ip
      if view.type ≠ tDir then do
        iunlockput ip
        pure none
      else if nameiparent ∧ path.isEmpty then do
        iunlock ip
        pure (some (ip, name))
      else do
        let next ← dirLookup ip name
        match next with
        | none => do
          iunlockput ip
          pure none
        | some (next, _) => do
          iunlockput ip
          namexFrom nameiparent fuel next path name

def namex (path : List Byte) (nameiparent : Bool) : FsProg (Option (Nat × List Byte)) := do
  if path.head? = some slash then do
    let ip ← iget rootIno
    namexFrom nameiparent (path.length + 1) ip path []
  else do
    let mem ← getFs
    let ip ← idup (mem.proc mem.curid).cwd
    namexFrom nameiparent (path.length + 1) ip path []

/-- The root directory, or the current directory of the process. -/
def pathStart (path : List Byte) : FsProg Nat :=
  if path.head? = some slash then iget rootIno
  else do
    let mem ← getFs
    idup (mem.proc mem.curid).cwd

theorem namex_start (path : List Byte) (parent : Bool) :
    namex path parent = pathStart path >>= fun ip => namexFrom parent (path.length + 1) ip path [] := by
  unfold namex pathStart
  split
  · rfl
  · rw [bind_assoc]

def namei (path : List Byte) : FsProg (Option Nat) := do
  let found ← namex path false
  pure (found.map (·.1))

def nameiparent (path : List Byte) : FsProg (Option (Nat × List Byte)) := namex path true

end OsAudio.Fs

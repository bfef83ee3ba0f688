import OsAudio.Fs.Block

/-!
# Inodes

`kern/fs/inode.c`, as programs over the log.  A pointer to an in-memory inode is its
index in `inode_cache`; the cache's spinlock is not represented.  `devsw` is never
assigned by the kernel, so an operation on a device with a valid major number follows a
null pointer.
-/
namespace OsAudio.Fs
open OsAudio.Lib

def nInode : Nat := 50
def nDirect : Nat := 12
def nIndirect : Nat := 128
def maxFile : Nat := nDirect + nIndirect
def nDev : Nat := 10
def rootIno : Nat := 1

def tDir : Nat := 1
def tFile : Nat := 2
def tDev : Nat := 3

/-- `struct dinode`: the 16-bit fields as unsigned numbers. -/
structure Dinode where
  type : Nat
  major : Nat
  minor : Nat
  nlink : Nat
  size : Nat
  addrs : Nat → Nat

/-- `struct inode`; the flag bits `I_BUSY` and `I_VALID` are separate. -/
structure Inode extends Dinode where
  inum : Nat
  ref : Int
  busy : Bool
  valid : Bool

/-- `inode_cache` next to the memory of the layers above. -/
structure InodeMem (ν : Type) where
  icache : Nat → Inode
  rest : ν

/-! ## The disk format -/

/-- The offset of inode `inum` in its block. -/
def dinodeOff (inum : Nat) : Nat := inum % ipb * 64

def loadDinode (data : Bytes) (inum : Nat) : Dinode :=
  let o := dinodeOff inum
  { type := data.get o 2
    major := data.get (o + 2) 2
    minor := data.get (o + 4) 2
    nlink := data.get (o + 6) 2
    size := data.get (o + 8) 4
    addrs := fun i => if i < nDirect + 1 then data.get (o + 12 + 4 * i) 4 else 0 }

def storeDinode (data : Bytes) (inum : Nat) (d : Dinode) : Bytes :=
  let o := dinodeOff inum
  let data := data.put o 2 d.type
  let data := data.put (o + 2) 2 d.major
  let data := data.put (o + 4) 2 d.minor
  let data := data.put (o + 6) 2 d.nlink
  let data := data.put (o + 8) 4 d.size
  data.copy (o + 12) (4 * (nDirect + 1)) (sectorBytes d.addrs)

/-- `memset (dip, 0, sizeof (*dip)); dip->type = type` -/
def freshDinode (data : Bytes) (inum type : Nat) : Bytes :=
  (data.copy (dinodeOff inum) 64 Bytes.zero).put (dinodeOff inum) 2 type

/-- Word `i` of an indirect block. -/
def entry (data : Bytes) (i : Nat) : Nat := data.get (4 * i) 4

/-! ## The inode cache -/

/-- Programs of this layer. -/
abbrev InodeProg (ν α : Type) := LogProg (InodeMem ν) α

section Programs
variable {ν : Type}

def getInode (ip : Nat) : InodeProg ν Inode := do
  let mem ← getMem
  pure (mem.icache ip)

def setInode (ip : Nat) (inode : Inode) : InodeProg ν Unit := do
  let mem ← getMem
  setMem { mem with icache := Function.update mem.icache ip inode }

/-- The cache entry of `inum`, if it is referenced. -/
def cached (icache : Nat → Inode) (inum : Nat) : Option Nat :=
  (List.range nInode).find? fun i => 0 < (icache i).ref ∧ (icache i).inum = inum

def emptySlot (icache : Nat → Inode) : Option Nat :=
  (List.range nInode).find? fun i => (icache i).ref = 0

def inodeGet (inum : Nat) : InodeProg ν Nat := do
  let mem ← getMem
  match cached mem.icache inum with
  | some ip => do
    setInode ip { mem.icache ip with ref := (mem.icache ip).ref + 1 }
    pure ip
  | none =>
    match emptySlot mem.icache with
    | some ip => do
      setInode ip { mem.icache ip with inum := inum, ref := 1, busy := false, valid := false }
      pure ip
    | none => .stop (.panic .inodeGetNoInodes)

/-- The loop of `inode_alloc` from `inum` on. -/
def inodeAllocFrom (type : Nat) : (count inum : Nat) → InodeProg ν Nat
  | 0, _ => .stop (.panic .inodeAllocNoInodes)
  | count + 1, inum => do
    let bp ← bread (iblock inum)
    if (loadDinode bp inum).type = 0 then do
      logStore (iblock inum) (freshDinode bp inum type)
      brelse (iblock inum)
      inodeGet inum
    else do
      brelse (iblock inum)
      inodeAllocFrom type count (inum + 1)

def inodeAlloc (type : Nat) : InodeProg ν Nat := do
  let sb ← superblock
  inodeAllocFrom type (sb.ninodes - 1) 1

def inodeUpdate (ip : Nat) : InodeProg ν Unit := do
  let inode ← getInode ip
  let bp ← bread (iblock inode.inum)
  logStore (iblock inode.inum) (storeDinode bp inode.inum inode.toDinode)
  brelse (iblock inode.inum)

def inodeDup (ip : Nat) : InodeProg ν Nat := do
  let inode ← getInode ip
  setInode ip { inode with ref := inode.ref + 1 }
  pure ip

def inodeLock (ip : Nat) : InodeProg ν Unit := do
  let inode ← getInode ip
  if inode.ref < 1 then .stop (.panic .inodeLock)
  else if inode.busy then .stop .sleep
  else if inode.valid then setInode ip { inode with busy := true }
  else do
    setInode ip { inode with busy := true }
    let bp ← bread (iblock inode.inum)
    brelse (iblock inode.inum)
    let d := loadDinode bp inode.inum
    setInode ip { inode with toDinode := d, busy := true, valid := true }
    if d.type = 0 then .stop (.panic .inodeLockNoType)

def inodeUnlock (ip : Nat) : InodeProg ν Unit := do
  let inode ← getInode ip
  if !inode.busy ∨ inode.ref < 1 then .stop (.panic .inodeUnlock)
  else setInode ip { inode with busy := false }

/-! ## Inode content -/

def setAddr (ip i addr : Nat) : InodeProg ν Unit := do
  let inode ← getInode ip
  setInode ip { inode with addrs := Function.update inode.addrs i addr }

/-- The block number in `addrs[i]`, allocated by `alloc` if it is still zero. -/
def addrOrAllocBy (alloc : InodeProg ν Nat) (ip i : Nat) : InodeProg ν Nat := do
  let inode ← getInode ip
  if inode.addrs i = 0 then do
    let addr ← alloc
    setAddr ip i addr
    pure addr
  else pure (inode.addrs i)

/-- The body of `bmap`, with any program in the place of `block_alloc`. -/
def bmapBy (alloc : InodeProg ν Nat) (ip bn : Nat) : InodeProg ν Nat := do
  if bn < nDirect then addrOrAllocBy alloc ip bn
  else if bn - nDirect < nIndirect then do
    let ind ← addrOrAllocBy alloc ip nDirect
    let a ← bread ind
    if entry a (bn - nDirect) = 0 then do
      let addr ← alloc
      logStore ind (a.put (4 * (bn - nDirect)) 4 addr)
      brelse ind
      pure addr
    else do
      brelse ind
      pure (entry a (bn - nDirect))
  else .stop (.panic .bmapOutOfRange)

def addrOrAlloc (ip i : Nat) : InodeProg ν Nat := addrOrAllocBy blockAlloc ip i

def bmap (ip bn : Nat) : InodeProg ν Nat := bmapBy blockAlloc ip bn

/-- The first loop of `inode_trunc` from `i` on. -/
def truncDirect (ip : Nat) : (count i : Nat) → InodeProg ν Unit
  | 0, _ => pure ()
  | count + 1, i => do
    let inode ← getInode ip
    if inode.addrs i ≠ 0 then do
      blockFree (inode.addrs i)
      setAddr ip i 0
    truncDirect ip count (i + 1)

/-- The loop of `inode_trunc` over an indirect block. -/
def truncEntries (a : Bytes) : (count j : Nat) → InodeProg ν Unit
  | 0, _ => pure ()
  | count + 1, j => do
    if entry a j ≠ 0 then blockFree (entry a j)
    truncEntries a count (j + 1)

def inodeTrunc (ip : Nat) : InodeProg ν Unit := do
  truncDirect ip nDirect 0
  let inode ← getInode ip
  let ind := inode.addrs nDirect
  if ind ≠ 0 then do
    let a ← bread ind
    truncEntries a nIndirect 0
    brelse ind
    blockFree ind
    setAddr ip nDirect 0
  let inode ← getInode ip
  setInode ip { inode with size := 0 }
  inodeUpdate ip

def inodePut (ip : Nat) : InodeProg ν Unit := do
  let inode ← getInode ip
  if inode.ref = 1 ∧ inode.valid ∧ inode.nlink = 0 then do
    if inode.busy then .stop (.panic .inodePutBusy)
    setInode ip { inode with busy := true }
    inodeTrunc ip
    let inode ← getInode ip
    setInode ip { inode with type := 0 }
    inodeUpdate ip
    let inode ← getInode ip
    setInode ip { inode with busy := false, valid := false }
  let inode ← getInode ip
  setInode ip { inode with ref := inode.ref - 1 }

/-- What a device operation does: -1 for a bad major number. -/
def devswMissing {α : Type} (major : Nat) (bad : α) : InodeProg ν α :=
  if 32768 ≤ major ∨ nDev ≤ major then pure bad else .stop .undefined

/-- `n` bytes of a block from `off` on. -/
def slice (data : Bytes) (off n : Nat) : List Byte := (List.range n).map fun i => data (off + i)

/-- The loop of `inode_read`, with `n` bytes left. -/
def readFrom (ip : Nat) : (fuel off n : Nat) → InodeProg ν (List Byte)
  | 0, _, _ => pure []
  | fuel + 1, off, n =>
    if n = 0 then pure []
    else do
      let bno ← bmap ip (off / bSize)
      let bp ← bread bno
      let m := min n (bSize - off % bSize)
      brelse bno
      let rest ← readFrom ip fuel (off + m) (n - m)
      pure (slice bp (off % bSize) m ++ rest)

/-- `inode_read`: the bytes delivered, or nothing for the result -1. -/
def inodeRead (ip off n : Nat) : InodeProg ν (Option (List Byte)) := do
  let inode ← getInode ip
  if inode.type = tDev then devswMissing inode.major none
  else if inode.size < off ∨ (off + n) % 4294967296 < off then pure none
  else do
    let n := if inode.size < (off + n) % 4294967296 then inode.size - off else n
    let bytes ← readFrom ip n off n
    pure (some bytes)

/-- The loop of `inode_write` over the bytes left; it returns the final offset. -/
def writeFrom (ip : Nat) : (fuel off : Nat) → List Byte → InodeProg ν Nat
  | 0, off, _ => pure off
  | fuel + 1, off, src =>
    if src.isEmpty then pure off
    else do
      let bno ← bmap ip (off / bSize)
      let bp ← bread bno
      let m := min src.length (bSize - off % bSize)
      logStore bno (bp.copy (off % bSize) m fun i => src.getD i 0)
      brelse bno
      writeFrom ip fuel (off + m) (src.drop m)

/-- `inode_write`: the number of bytes written, or -1. -/
def inodeWrite (ip off : Nat) (src : List Byte) : InodeProg ν Int := do
  let inode ← getInode ip
  let n := src.length
  if inode.type = tDev then devswMissing inode.major (-1)
  else if inode.size < off ∨ (off + n) % 4294967296 < off then pure (-1)
  else if maxFile * bSize < (off + n) % 4294967296 then pure (-1)
  else do
    let off ← writeFrom ip n off src
    let inode ← getInode ip
    if n > 0 ∧ inode.size < off then do
      setInode ip { inode with size := off }
      inodeUpdate ip
    pure n

end Programs

/-! ## The interface of the inode layer -/

/-- The functions of `inode.h` and the accesses to the fields of a locked inode, with the
transaction calls of the log that the layers above make. -/
inductive InodeOp (ν : Type)
  | get (inum : Nat)
  | dup (ip : Nat)
  | lock (ip : Nat)
  | unlock (ip : Nat)
  | put (ip : Nat)
  | read (ip off n : Nat)
  | write (ip off : Nat) (src : List Byte)
  | alloc (type : Nat)
  | update (ip : Nat)
  /-- `inum`, `type`, `nlink`, `size` of an inode -/
  | look (ip : Nat)
  | setNlink (ip nlink : Nat)
  | setDev (ip major minor : Nat)
  | beginTrans
  | commitTrans
  | logInit
  | getMem
  | setMem (mem : ν)
  | mark (mark : Mark) (hit : Bool)

/-- The fields of an inode that the layers above read. -/
structure InodeView where
  inum : Nat
  ref : Int
  valid : Bool
  type : Nat
  nlink : Nat
  size : Nat
  deriving DecidableEq, Repr

def InodeOp.Res {ν : Type} : InodeOp ν → Type
  | .get _ => Nat
  | .dup _ => Nat
  | .read _ _ _ => Option (List Byte)
  | .write _ _ _ => Int
  | .alloc _ => Nat
  | .look _ => InodeView
  | .getMem => ν
  | _ => Unit

def InodeSig (ν : Type) : Sig := ⟨InodeOp ν, InodeOp.Res⟩

def inodeImpl {ν : Type} : (op : InodeOp ν) → InodeProg ν op.Res
  | .get inum => inodeGet inum
  | .dup ip => inodeDup ip
  | .lock ip => inodeLock ip
  | .unlock ip => inodeUnlock ip
  | .put ip => inodePut ip
  | .read ip off n => inodeRead ip off n
  | .write ip off src => inodeWrite ip off src
  | .alloc type => inodeAlloc type
  | .update ip => inodeUpdate ip
  | .look ip => do
    let inode ← getInode ip
    pure ⟨inode.inum, inode.ref, inode.valid, inode.type, inode.nlink, inode.size⟩
  | .setNlink ip nlink => do
    let inode ← getInode ip
    setInode ip { inode with nlink := nlink }
  | .setDev ip major minor => do
    let inode ← getInode ip
    setInode ip { inode with major := major, minor := minor }
  | .beginTrans => Prog.op (S := LogSig (InodeMem ν)) .beginTrans
  | .commitTrans => Prog.op (S := LogSig (InodeMem ν)) .commitTrans
  | .logInit => Prog.op (S := LogSig (InodeMem ν)) .logInit
  | .getMem => do
    let mem ← getMem
    pure mem.rest
  | .setMem mem => do
    let old ← getMem
    setMem { old with rest := mem }
  | .mark mark hit => markIf mark hit

end OsAudio.Fs

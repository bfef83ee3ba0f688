import OsAudio.Fs.Mkfs
import OsAudio.Fs.Sysfile
import OsAudio.Lib.Loop

/-!
# mkfs

`kern/fs/mkfs.c`, the program on the host that builds the first image, as a program over the
image file and its counters.  The image is a file of sectors: a sector is read only if it lies
before the end of the file, and writing past the end makes the file longer.  Multi-byte numbers
are little-endian on the disk, whatever the host (`xshort`, `xint`).

An input file is what its `read` calls return, at most a buffer at a time.
-/
namespace OsAudio.Mkfs
open OsAudio.Lib OsAudio.Fs

/-- An argument of mkfs, with the chunks that reading the file delivers. -/
structure InputFile where
  argv : List Byte
  chunks : List (List Byte)
  text : ∀ c ∈ argv, c ≠ 0
  sized : ∀ chunk ∈ chunks, chunk ≠ [] ∧ chunk.length ≤ 512

def InputFile.content (f : InputFile) : List Byte := f.chunks.flatten

def underscore : Byte := 0x5f

/-- The name without a leading `_`. -/
def InputFile.name (f : InputFile) : List Byte :=
  if f.argv.head? = some underscore then f.argv.tail else f.argv

/-! ## The image and the counters -/

/-- Why mkfs exits without success. -/
inductive Abort
  /-- `read` in `rsect` did not return a sector. -/
  | rsect (sec : Nat)
  /-- `assert(rootino == ROOTINO)` -/
  | rootino
  /-- `assert(index(argv[i], '/') == 0)` -/
  | slash
  /-- `assert(fbn < MAXFILE)` -/
  | maxFile
  /-- `assert(used < 512*8)` -/
  | balloc
  deriving DecidableEq, Repr

/-- The image file, the counters of mkfs, and the inodes and blocks it has given out so far. -/
structure Build where
  disk : Nat → Bytes
  length : Nat
  freeblock : Nat
  usedblocks : Nat
  freeinode : Nat
  inodes : List Nat
  allocated : List Nat

inductive BuildOp
  | rsect (sec : Nat)
  | wsect (sec : Nat) (buf : Bytes)
  /-- `freeblock++; usedblocks++` -/
  | block
  /-- `freeinode++` -/
  | inode
  | used

def BuildOp.Res : BuildOp → Type
  | .rsect _ => Bytes
  | .wsect _ _ => Unit
  | .block => Nat
  | .inode => Nat
  | .used => Nat

def BuildSig : Sig := ⟨BuildOp, BuildOp.Res⟩

def buildMachine : Machine BuildSig Abort Build
  | .rsect sec, s => if sec < s.length then .ok (s.disk sec) s else .stop (.rsect sec) s
  | .wsect sec buf, s =>
    .ok () { s with disk := Function.update s.disk sec buf, length := max s.length (sec + 1) }
  | .block, s =>
    .ok s.freeblock { s with
      freeblock := s.freeblock + 1
      usedblocks := s.usedblocks + 1
      allocated := s.allocated ++ [s.freeblock] }
  | .inode, s =>
    .ok s.freeinode { s with freeinode := s.freeinode + 1, inodes := s.inodes ++ [s.freeinode] }
  | .used, s => .ok s.usedblocks s

abbrev BuildProg (α : Type) := Prog BuildSig Abort α

def rsect (sec : Nat) : BuildProg Bytes := Prog.op (S := BuildSig) (.rsect sec)
def wsect (sec : Nat) (buf : Bytes) : BuildProg Unit := Prog.op (S := BuildSig) (.wsect sec buf)
def nextBlock : BuildProg Nat := Prog.op (S := BuildSig) .block
def nextInode : BuildProg Nat := Prog.op (S := BuildSig) .inode
def usedblocks : BuildProg Nat := Prog.op (S := BuildSig) .used

/-! ## The source -/

def winode (inum : Nat) (din : Dinode) : BuildProg Unit := do
  let buf ← rsect (iblock inum)
  wsect (iblock inum) (storeDinode buf inum din)

def rinode (inum : Nat) : BuildProg Dinode := do
  let buf ← rsect (iblock inum)
  pure (loadDinode buf inum)

def ialloc (type : Nat) : BuildProg Nat := do
  let inum ← nextInode
  winode inum ⟨type, 0, 0, 1, 0, fun _ => 0⟩
  pure inum

def balloc (used : Nat) : BuildProg Unit :=
  if 512 * 8 ≤ used then .stop .balloc
  else wsect (mkfsSb.ninodes / ipb + 3) (upTo used (fun i buf => buf.setBit i) Bytes.zero)

/-- `if (xint(din.addrs[i]) == 0) din.addrs[i] = xint(freeblock++)` -/
def addrFor (i : Nat) (din : Dinode) : BuildProg Dinode :=
  if din.addrs i = 0 then do
    let x ← nextBlock
    pure { din with addrs := Function.update din.addrs i x }
  else pure din

/-- The part of the loop of `iappend` that finds the block with index `fbn`, or allocates it. -/
def blockFor (fbn : Nat) (din : Dinode) : BuildProg (Nat × Dinode) :=
  if fbn < nDirect then do
    let din ← addrFor fbn din
    pure (din.addrs fbn, din)
  else do
    let din ← addrFor nDirect din
    let indirect ← rsect (din.addrs nDirect)
    if entry indirect (fbn - nDirect) = 0 then do
      let x ← nextBlock
      wsect (din.addrs nDirect) (indirect.put (4 * (fbn - nDirect)) 4 x)
      pure (x, din)
    else pure (entry indirect (fbn - nDirect), din)

/-- The loop of `iappend` over the bytes left; each round takes one at least. -/
def iappendFrom : (fuel : Nat) → (p : List Byte) → (off : Nat) → Dinode → BuildProg (Nat × Dinode)
  | 0, _, off, din => pure (off, din)
  | fuel + 1, p, off, din =>
    if p.isEmpty then pure (off, din)
    else
      let fbn := off / 512
      if maxFile ≤ fbn then .stop .maxFile
      else do
        let (x, din) ← blockFor fbn din
        let n1 := min p.length ((fbn + 1) * 512 - off)
        let buf ← rsect x
        wsect x (buf.copy (off - fbn * 512) n1 fun i => p.getD i 0)
        iappendFrom fuel (p.drop n1) (off + n1) din

def iappend (inum : Nat) (p : List Byte) : BuildProg Unit := do
  let din ← rinode inum
  let (off, din) ← iappendFrom p.length p din.size din
  winode inum { din with size := off }

/-- The loop that reads a file and appends what it gets. -/
def iappendAll (inum : Nat) : List (List Byte) → BuildProg Unit
  | [] => pure ()
  | chunk :: chunks => do
    iappend inum chunk
    iappendAll inum chunks

/-- One round of the loop over the arguments. -/
def addFile (rootino : Nat) (f : InputFile) : BuildProg Unit :=
  if slash ∈ f.argv then .stop .slash
  else do
    let inum ← ialloc tFile
    iappend rootino (direntBytes inum f.name)
    iappendAll inum f.chunks

def addFiles (rootino : Nat) : List InputFile → BuildProg Unit
  | [] => pure ()
  | f :: files => do
    addFile rootino f
    addFiles rootino files

/-- The loop that makes the image `count` sectors long. -/
def wzeroes : (count : Nat) → BuildProg Unit
  | 0 => pure ()
  | count + 1 => do
    wzeroes count
    wsect count Bytes.zero

theorem wzeroes_zero : wzeroes 0 = pure () := rfl

theorem wzeroes_succ (count : Nat) : wzeroes (count + 1) = (do
    wzeroes count
    wsect count Bytes.zero) := rfl

-- Its thousand rounds are never to be unfolded.
attribute [irreducible] wzeroes

/-- `struct superblock` at the start of a sector. -/
def superblockBytes (sb : Superblock) : Bytes :=
  (((Bytes.zero.put 0 4 sb.size).put 4 4 sb.nblocks).put 8 4 sb.ninodes).put 12 4 sb.nlog

/-- `main`, from the point where the counters are set. -/
def mkfs (files : List InputFile) : BuildProg Unit := do
  wzeroes (mkfsSb.nblocks + mkfsSb.dataStart + mkfsSb.nlog)
  wsect 1 (superblockBytes mkfsSb)
  let rootino ← ialloc tDir
  if rootino ≠ rootIno then .stop .rootino
  else do
    iappend rootino (direntBytes rootino dot)
    iappend rootino (direntBytes rootino dotdot)
    addFiles rootino files
    let din ← rinode rootino
    winode rootino { din with size := (din.size / bSize + 1) * bSize }
    let used ← usedblocks
    balloc used

/-- The new, empty image file and the counters; `dataStart` is `usedblocks` as computed by
`main`. -/
def newBuild : Build where
  disk := fun _ => Bytes.zero
  length := 0
  freeblock := mkfsSb.dataStart
  usedblocks := mkfsSb.dataStart
  freeinode := 1
  inodes := []
  allocated := []

end OsAudio.Mkfs

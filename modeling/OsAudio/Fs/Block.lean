import OsAudio.Fs.Log

/-!
# Blocks

The block allocator of `kern/fs/block.c`, as programs over the log.
-/
namespace OsAudio.Fs
open OsAudio.Lib

/-- Inodes per block, bitmap bits per block. -/
def ipb : Nat := 8
def bpb : Nat := 4096

/-- `IBLOCK (i)`: the block containing inode `i`. -/
def iblock (inum : Nat) : Nat := inum / ipb + 2

/-- `BBLOCK (b, ninodes)`: the block containing the bit for block `b`. -/
def bblock (b ninodes : Nat) : Nat := b / bpb + ninodes / ipb + 3

/-- Programs over the log. -/
abbrev LogProg (μ α : Type) := Prog (LogSig μ) Stop α

section Programs
variable {μ : Type}

def bread (sector : Nat) : LogProg μ Bytes := Prog.op (S := LogSig μ) (.read sector)
def logStore (sector : Nat) (data : Bytes) : LogProg μ Unit :=
  Prog.op (S := LogSig μ) (.logWrite sector data)
def brelse (sector : Nat) : LogProg μ Unit := Prog.op (S := LogSig μ) (.release sector)
def logInitCall : LogProg μ Unit := Prog.op (S := LogSig μ) .logInit
def beginCall : LogProg μ Unit := Prog.op (S := LogSig μ) .beginTrans
def commitCall : LogProg μ Unit := Prog.op (S := LogSig μ) .commitTrans
def getMem : LogProg μ μ := Prog.op (S := LogSig μ) .getMem
def setMem (mem : μ) : LogProg μ Unit := Prog.op (S := LogSig μ) (.setMem mem)
def markIf (mark : Mark) (hit : Bool) : LogProg μ Unit := Prog.op (S := LogSig μ) (.mark mark hit)

def superblock : LogProg μ Superblock := do
  let bp ← bread 1
  brelse 1
  pure (superblockOf bp)

def blockZero (bno : Nat) : LogProg μ Unit := do
  let _ ← bread bno
  logStore bno Bytes.zero
  brelse bno

/-- The inner loop of `block_alloc`: the first clear bit among those of block `b` on. -/
def clearBitFrom (data : Bytes) (b size : Nat) : Option Nat :=
  (List.range (min bpb (size - b))).find? fun bi => !data.testBit bi

/-- The outer loop of `block_alloc` from `b` on.  Without a clear bit the function ends
without a return value; the `int` in which it counts overflows at 2^31. -/
def blockAllocFrom (sb : Superblock) : (count b : Nat) → LogProg μ Nat
  | 0, _ => .stop .undefined
  | count + 1, b => if 2147483648 ≤ b then .stop .undefined else do
    let bp ← bread (bblock b sb.ninodes)
    match clearBitFrom bp b sb.size with
    | some bi => do
      logStore (bblock b sb.ninodes) (bp.setBit bi)
      brelse (bblock b sb.ninodes)
      markIf .logBlock (sb.size - sb.nlog ≤ b + bi)
      blockZero (b + bi)
      pure (b + bi)
    | none => do
      brelse (bblock b sb.ninodes)
      blockAllocFrom sb count (b + bpb)

def blockAlloc : LogProg μ Nat := do
  let sb ← superblock
  blockAllocFrom sb ((sb.size + bpb - 1) / bpb) 0

def blockFree (b : Nat) : LogProg μ Unit := do
  let sb ← superblock
  let bp ← bread (bblock b sb.ninodes)
  let bi := b % bpb
  if !bp.testBit bi then .stop (.panic .freeingFreeBlock)
  else do
    logStore (bblock b sb.ninodes) (bp.clearBit bi)
    brelse (bblock b sb.ninodes)

end Programs

end OsAudio.Fs

import OsAudio.Fs.Bufcache
import OsAudio.Lib.CInt

/-!
# The log

`kern/fs/log.c` and the super block of `kern/fs/block.c`, as programs over the buffer
cache.  The spinlock of the log is not represented; a `begin_trans` that finds the log
busy sleeps until another process commits.
-/
namespace OsAudio.Fs
open OsAudio.Lib

/-- `struct superblock`; block 1 of the disk holds it. -/
structure Superblock where
  size : Nat
  nblocks : Nat
  ninodes : Nat
  nlog : Nat
  deriving DecidableEq, Repr

/-- `memmove (sb, bp->data, sizeof (*sb))`. -/
def superblockOf (data : Bytes) : Superblock :=
  ⟨data.get 0 4, data.get 4 4, data.get 8 4, data.get 12 4⟩

/-- `sb.size - sb.nlog`, an unsigned word. -/
def Superblock.logStart (sb : Superblock) : Nat := uint32 ((sb.size : Int) - sb.nlog)

/-- `struct log` with its `struct logheader`.  Sector numbers are unsigned words. -/
structure Log where
  start : Nat
  size : Int
  busy : Bool
  n : Nat
  sector : Nat → Nat

/-- `log` next to the memory of the layers above. -/
structure LogMem (μ : Type) where
  log : Log
  rest : μ

/-- The static `struct log` before `log_init`. -/
def bootLog : Log := ⟨0, 0, false, 0, fun _ => 0⟩

/-- The kernel after power on, before `log_init`. -/
def powerOn {μ : Type} (rest : μ) (disk : Nat → Bytes) : BufSys (LogMem μ) :=
  ⟨bufcacheInit, disk, [], ⟨bootLog, rest⟩⟩

/-- Programs over the buffer cache. -/
abbrev BufProg (μ α : Type) := Prog (BufSig (LogMem μ)) Stop α

section Programs
variable {μ : Type}

def bufRead (sector : Nat) : BufProg μ Bytes := Prog.op (S := BufSig (LogMem μ)) (.read sector)
def bufWrite (sector : Nat) (data : Bytes) : BufProg μ Unit :=
  Prog.op (S := BufSig (LogMem μ)) (.write sector data)
def bufSetDirty (sector : Nat) (data : Bytes) : BufProg μ Unit :=
  Prog.op (S := BufSig (LogMem μ)) (.setDirty sector data)
def bufRelease (sector : Nat) : BufProg μ Unit := Prog.op (S := BufSig (LogMem μ)) (.release sector)
def getLogMem : BufProg μ (LogMem μ) := Prog.op (S := BufSig (LogMem μ)) .getMem
def setLogMem (mem : LogMem μ) : BufProg μ Unit := Prog.op (S := BufSig (LogMem μ)) (.setMem mem)

def bufMark (mark : Mark) (hit : Bool) : BufProg μ Unit :=
  Prog.op (S := BufSig (LogMem μ)) (.mark mark hit)

def getLog : BufProg μ Log := do
  let mem ← getLogMem
  pure mem.log

def setLog (log : Log) : BufProg μ Unit := do
  let mem ← getLogMem
  setLogMem { mem with log := log }

def readSuperblock : BufProg μ Superblock := do
  let bp ← bufRead 1
  bufRelease 1
  pure (superblockOf bp)

/-- How often a loop with the `int` bound `n` runs. -/
def rounds (n : Nat) : Nat := (int32 n).toNat

/-- The sector of log block `i`, the header not counted. -/
def Log.slot (log : Log) (i : Nat) : Nat := (log.start + i + 1) % 4294967296

/-- The loop of `install_trans` from `tail` on, with `count` rounds left. -/
def installFrom (log : Log) : (count tail : Nat) → BufProg μ Unit
  | 0, _ => pure ()
  | count + 1, tail => do
    let lbuf ← bufRead (log.slot tail)
    let _ ← bufRead (log.sector tail)
    bufWrite (log.sector tail) lbuf
    bufRelease (log.slot tail)
    bufRelease (log.sector tail)
    installFrom log count (tail + 1)

def installTrans : BufProg μ Unit := do
  let log ← getLog
  installFrom log (rounds log.n) 0

/-- The `n` words `sector[0], …, sector[n - 1]` as bytes. -/
def sectorBytes (sector : Nat → Nat) : Bytes := fun k => Bytes.leByte (sector (k / 4)) (k % 4)

/-- The log header stored over the old contents of its block. -/
def headerInto (data : Bytes) (log : Log) : Bytes :=
  Bytes.copy (Bytes.put data 0 4 log.n) 4 (4 * rounds log.n) (sectorBytes log.sector)

/-- The log with the header in `data`. -/
def Log.withHeader (log : Log) (data : Bytes) : Log :=
  { log with
    n := data.get 0 4
    sector := fun i => if i < rounds (data.get 0 4) then data.get (4 + 4 * i) 4 else log.sector i }

def readHead : BufProg μ Unit := do
  let log ← getLog
  let buf ← bufRead log.start
  setLog (log.withHeader buf)
  bufRelease log.start

def writeHead : BufProg μ Unit := do
  let log ← getLog
  let buf ← bufRead log.start
  bufWrite log.start (headerInto buf log)
  bufRelease log.start

/-- `log.lh.n = 0` -/
def clearLog : BufProg μ Unit := do
  let log ← getLog
  setLog { log with n := 0 }

def recoverFromLog : BufProg μ Unit := do
  readHead
  installTrans
  clearLog
  writeHead

/-- The log where the super block places it. -/
def Log.placed (log : Log) (sb : Superblock) : Log :=
  { log with start := sb.logStart, size := int32 sb.nlog }

def logInit : BufProg μ Unit := do
  let sb ← readSuperblock
  let log ← getLog
  setLog (log.placed sb)
  recoverFromLog

def beginTrans : BufProg μ Unit := do
  let log ← getLog
  if log.busy then .stop .sleep else setLog { log with busy := true }

def commitTrans : BufProg μ Unit := do
  let log ← getLog
  if log.n > 0 then do
    writeHead
    installTrans
    clearLog
    writeHead
  let log ← getLog
  setLog { log with busy := false }

/-- The slot of `sector`: the one it was logged in before, or the next free one. -/
def Log.slotOf (log : Log) (sector : Nat) : Nat :=
  ((List.range log.n).find? fun i => log.sector i = sector).getD log.n

/-- `log_write` on a buffer whose new contents are `data`. -/
def logWrite (sector : Nat) (data : Bytes) : BufProg μ Unit := do
  let log ← getLog
  if log.n ≥ logSize ∨ (log.n : Int) ≥ log.size - 1 then .stop (.panic .tooBigTransaction)
  else if !log.busy then .stop (.panic .writeOutsideTrans)
  else do
    let i := log.slotOf sector
    setLog { log with sector := Function.update log.sector i sector }
    let _ ← bufRead (log.slot i)
    bufWrite (log.slot i) data
    bufRelease (log.slot i)
    let log ← getLog
    if i = log.n then setLog { log with n := log.n + 1 }
    bufSetDirty sector data

end Programs

/-! ## The interface of the log -/

/-- What the layers above the log call. -/
inductive LogOp (μ : Type)
  | read (sector : Nat)
  | logWrite (sector : Nat) (data : Bytes)
  | release (sector : Nat)
  | beginTrans
  | commitTrans
  | logInit
  | getMem
  | setMem (mem : μ)
  | mark (mark : Mark) (hit : Bool)

def LogOp.Res {μ : Type} : LogOp μ → Type
  | .read _ => Bytes
  | .getMem => μ
  | _ => Unit

def LogSig (μ : Type) : Sig := ⟨LogOp μ, LogOp.Res⟩

/-- The calls of the interface by the programs above. -/
def logImpl {μ : Type} : (op : LogOp μ) → BufProg μ op.Res
  | .read sector => bufRead sector
  | .logWrite sector data => logWrite sector data
  | .release sector => bufRelease sector
  | .beginTrans => beginTrans
  | .commitTrans => commitTrans
  | .logInit => logInit
  | .getMem => do
    let mem ← getLogMem
    pure mem.rest
  | .setMem mem => do
    let old ← getLogMem
    setLogMem { old with rest := mem }
  | .mark mark hit => bufMark mark hit

end OsAudio.Fs

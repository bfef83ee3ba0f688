import OsAudio.Lib.Bytes
import OsAudio.Lib.Prog

/-!
# The buffer cache

`kern/fs/bufcache.c` with the request part of `kern/dev/disk/ide.c`.  The cache is the
list of its `NBUF` buffers in most-recently-used order.  A pointer to a buffer that
`bufcache_read` returned is represented by the sector the buffer holds: a busy buffer is
never recycled, and no sector is in two buffers.  The code changes the data of a buffer
only right before it passes the buffer to `bufcache_write` or `log_write`, so the new
data is an argument of those calls.

There is one disk, so the device number is left out; a buffer whose `dev` is still -1
holds no sector.  Every sector write that reaches the disk is recorded in `issued`.
-/
namespace OsAudio.Fs
open OsAudio.Lib

def nBuf : Nat := 10
def logSize : Nat := 10
def bSize : Nat := 512

/-- The texts of `KERN_PANIC`. -/
inductive Panic
  | noBuffers
  | bwrite
  | brelse
  | ideNotBusy
  | ideNothingToDo
  | tooBigTransaction
  | writeOutsideTrans
  | freeingFreeBlock
  | inodeAllocNoInodes
  | inodeGetNoInodes
  | inodeLock
  | inodeLockNoType
  | inodeUnlock
  | inodePutBusy
  | bmapOutOfRange
  | dirLookupNotDir
  | dirLinkRead
  | dirLink
  | isdiremptyRead
  | unlinkNlink
  | unlinkWritei
  | createDots
  | createDirLink
  | fileClose
  | fileRead
  | fileWrite
  | shortFileWrite
  deriving DecidableEq, Repr

/-- Marks in the code that a class of runs may be restricted by; the code itself never
acts on them. -/
inductive Mark
  /-- `block_alloc` found its clear bit at a block of the log. -/
  | logBlock
  /-- `sys_chdir` is called from an unlinked directory that nothing else refers to. -/
  | chdirOrphan
  /-- `sys_unlink` removes a directory that is the current directory of a process. -/
  | unlinkCwd
  /-- A link count wraps around to zero. -/
  | linkWrap
  deriving DecidableEq, Repr

/-- Why a call does not return. -/
inductive Stop
  | panic (text : Panic)
  /-- `thread_sleep` on something only the sleeping call itself could release. -/
  | sleep
  /-- Undefined behaviour of C: a null pointer, or a missing return value. -/
  | undefined
  /-- The run is outside the class under consideration. -/
  | marked (mark : Mark)
  /-- An abstract machine has no answer for this use. -/
  | beyond
  deriving DecidableEq, Repr

/-- `struct buf`, with its flag bits. -/
structure Buf where
  busy : Bool
  valid : Bool
  dirty : Bool
  sector : Option Nat
  data : Bytes

/-- The cache, the disk and the rest of the kernel's memory. -/
structure BufSys (μ : Type) where
  bufs : List Buf
  disk : Nat → Bytes
  issued : List (Nat × Bytes)
  mem : μ

/-- What the layers above may ask of the buffer cache, and of memory. -/
inductive BufOp (μ : Type)
  | read (sector : Nat)
  | write (sector : Nat) (data : Bytes)
  /-- `b->flags |= B_DIRTY` -/
  | setDirty (sector : Nat) (data : Bytes)
  | release (sector : Nat)
  | getMem
  | setMem (mem : μ)
  | mark (mark : Mark) (hit : Bool)

def BufOp.Res {μ : Type} : BufOp μ → Type
  | .read _ => Bytes
  | .getMem => μ
  | _ => Unit

/-- The interface of the buffer cache. -/
def BufSig (μ : Type) : Sig := ⟨BufOp μ, BufOp.Res⟩

section Functions
variable {μ : Type}

def Buf.holds (sector : Nat) (b : Buf) : Bool := b.sector = some sector

def Buf.recyclable (b : Buf) : Bool := !b.busy && !b.dirty

/-- The buffer the pointer refers to. -/
def BufSys.buf? (s : BufSys μ) (sector : Nat) : Option Buf := s.bufs.find? (Buf.holds sector)

/-- Changes the buffer the pointer refers to. -/
def BufSys.modify (s : BufSys μ) (sector : Nat) (f : Buf → Buf) : BufSys μ :=
  { s with bufs := s.bufs.map fun b => if b.holds sector then f b else b }

/-- The last buffer in most-recently-used order that can be recycled. -/
def victim : List Buf → Option Nat
  | [] => none
  | b :: rest =>
    match victim rest with
    | some i => some (i + 1)
    | none => if b.recyclable then some 0 else none

def bufcacheGet (s : BufSys μ) (sector : Nat) : Outcome Stop (BufSys μ) Unit :=
  match s.buf? sector with
  | some b => if b.busy then .stop .sleep s else .ok () (s.modify sector fun b => { b with busy := true })
  | none =>
    match victim s.bufs with
    | some i =>
      let old := s.bufs.getD i ⟨false, false, false, none, Bytes.zero⟩
      .ok () { s with bufs := s.bufs.set i ⟨true, false, false, some sector, old.data⟩ }
    | none => .stop (.panic .noBuffers) s

def ideRw (s : BufSys μ) (sector : Nat) : Outcome Stop (BufSys μ) Unit :=
  match s.buf? sector with
  | none => .stop .undefined s
  | some b =>
    if !b.busy then .stop (.panic .ideNotBusy) s
    else if b.valid && !b.dirty then .stop (.panic .ideNothingToDo) s
    else if b.dirty then
      .ok () { s.modify sector fun b => { b with valid := true, dirty := false } with
        disk := Function.update s.disk sector b.data
        issued := s.issued ++ [(sector, b.data)] }
    else .ok () (s.modify sector fun b => { b with valid := true, data := s.disk sector })

def bufcacheRead (s : BufSys μ) (sector : Nat) : Outcome Stop (BufSys μ) Bytes :=
  match bufcacheGet s sector with
  | .stop w s => .stop w s
  | .ok _ s =>
    match s.buf? sector with
    | none => .stop .undefined s
    | some b =>
      if b.valid then .ok b.data s
      else
        match ideRw s sector with
        | .stop w s => .stop w s
        | .ok _ s => .ok (s.disk sector) s

def bufcacheWrite (s : BufSys μ) (sector : Nat) (data : Bytes) : Outcome Stop (BufSys μ) Unit :=
  match s.buf? sector with
  | none => .stop .undefined s
  | some b =>
    if !b.busy then .stop (.panic .bwrite) s
    else ideRw (s.modify sector fun b => { b with data := data, dirty := true }) sector

def setDirty (s : BufSys μ) (sector : Nat) (data : Bytes) : Outcome Stop (BufSys μ) Unit :=
  match s.buf? sector with
  | none => .stop .undefined s
  | some _ => .ok () (s.modify sector fun b => { b with data := data, dirty := true })

/-- The released buffer moves to the front of the list. -/
def bufcacheRelease (s : BufSys μ) (sector : Nat) : Outcome Stop (BufSys μ) Unit :=
  match s.buf? sector with
  | none => .stop .undefined s
  | some b =>
    if !b.busy then .stop (.panic .brelse) s
    else .ok () { s with
      bufs := { b with busy := false } :: s.bufs.eraseP (Buf.holds sector) }

/-- The buffer cache as a machine.  `forbidden` are the marks that end a run. -/
def bufMachine (forbidden : Mark → Bool) : Machine (BufSig μ) Stop (BufSys μ) := fun op s =>
  match op with
  | .read sector => bufcacheRead s sector
  | .write sector data => bufcacheWrite s sector data
  | .setDirty sector data => setDirty s sector data
  | .release sector => bufcacheRelease s sector
  | .getMem => .ok s.mem s
  | .setMem mem => .ok () { s with mem := mem }
  | .mark mark hit => if hit && forbidden mark then .stop (.marked mark) s else .ok () s

/-- `bufcache_init`. -/
def bufcacheInit : List Buf := List.replicate nBuf ⟨false, false, false, none, Bytes.zero⟩

end Functions

end OsAudio.Fs

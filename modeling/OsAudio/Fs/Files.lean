import OsAudio.Fs.Storage

/-!
# Files as byte strings

What the layers above `kern/fs/inode.c` see: every inode has a content, which is a list of bytes,
and the inode cache has copies of the fields of some inodes.  Blocks, the bitmap and the indirect
blocks do not show any more.  What is left of the log is the flag of the transaction and an upper
bound on the sectors the transaction has logged: one for the bitmap, one for each inode it has
touched and `spent` for contents.  Where a limit is set, a transaction that could log more sectors
is outside of this interface.
-/
namespace OsAudio.Fs
open OsAudio.Lib

/-- The fields of an inode that do not describe its content. -/
structure Attr where
  type : Nat
  major : Nat
  minor : Nat
  nlink : Nat
  deriving DecidableEq

/-- An inode; it is free if its type is zero. -/
structure Node extends Attr where
  data : List Byte

/-- An entry of the inode cache. -/
structure Slot extends Attr where
  size : Nat
  inum : Nat
  ref : Int
  busy : Bool
  valid : Bool

structure Files (ν : Type) where
  node : Nat → Node
  slot : Nat → Slot
  /-- `log_init` has run. -/
  up : Bool
  inTrans : Bool
  /-- The inodes whose blocks the transaction may have logged. -/
  touched : Finset Nat
  /-- How many sectors with contents the transaction may have logged. -/
  spent : Nat
  mem : ν

/-- How many sectors one transaction of a system call logs at most. -/
def opLimit : Nat := 7

/-- The limit is set and `n` is above it. -/
def exceeds (limit : Option Nat) (n : Nat) : Bool := limit.any fun m => decide (m < n)

/-- The list with `src` written from `off` on. -/
def splice (data : List Byte) (off : Nat) (src : List Byte) : List Byte :=
  data.take off ++ src ++ data.drop (off + src.length)

/-- How many sectors a write may log for the content: the blocks, and the indirect block. -/
def writeCost (off n : Nat) : Nat := span off n + if nDirect * bSize < off + n then 1 else 0

section Machine
variable {ν : Type}

def Files.setSlot (f : Files ν) (ip : Nat) (slot : Slot) : Files ν :=
  { f with slot := Function.update f.slot ip slot }

def Files.setNode (f : Files ν) (inum : Nat) (node : Node) : Files ν :=
  { f with node := Function.update f.node inum node }

/-- The transaction logs the block of inode `inum` and `cost` sectors of contents. -/
def Files.charge (f : Files ν) (inum cost : Nat) : Files ν :=
  { f with touched := insert inum f.touched, spent := f.spent + cost }

/-- How many sectors the transaction may have logged. -/
def Files.bill (f : Files ν) : Nat := 1 + f.touched.card + f.spent

/-- A step that logs the block of inode `inum` and `cost` sectors of contents, and then goes on
with `next`. -/
def logging {α : Type} (limit : Option Nat) (f : Files ν) (inum cost : Nat)
    (next : Files ν → Outcome Stop (Files ν) α) : Outcome Stop (Files ν) α :=
  if exceeds limit (f.charge inum cost).bill then .stop .beyond f
  else if f.up = false then .stop (.panic .tooBigTransaction) f
  else if f.inTrans = false then .stop (.panic .writeOutsideTrans) f
  else next (f.charge inum cost)

/-- The entry of inode `inum`, if it is referenced. -/
def slotFor (slot : Nat → Slot) (inum : Nat) : Option Nat :=
  (List.range nInode).find? fun i => 0 < (slot i).ref ∧ (slot i).inum = inum

def freeSlot (slot : Nat → Slot) : Option Nat :=
  (List.range nInode).find? fun i => (slot i).ref = 0

theorem slotFor_some {slot : Nat → Slot} {i ip : Nat} (found : slotFor slot i = some ip) :
    0 < (slot ip).ref ∧ (slot ip).inum = i := by
  have hit := List.find?_some found
  simpa using hit

theorem freeSlot_some {slot : Nat → Slot} {ip : Nat} (found : freeSlot slot = some ip) :
    ip < nInode ∧ (slot ip).ref = 0 := by
  have hit := List.find?_some found
  have member := List.mem_of_find?_eq_some found
  exact ⟨List.mem_range.mp member, of_decide_eq_true hit⟩

def filesGet (f : Files ν) (inum : Nat) : Outcome Stop (Files ν) Nat :=
  match slotFor f.slot inum with
  | some ip => .ok ip (f.setSlot ip { f.slot ip with ref := (f.slot ip).ref + 1 })
  | none =>
    match freeSlot f.slot with
    | some ip =>
      .ok ip (f.setSlot ip { f.slot ip with inum := inum, ref := 1, busy := false, valid := false })
    | none => .stop (.panic .inodeGetNoInodes) f

def filesDup (f : Files ν) (ip : Nat) : Outcome Stop (Files ν) Nat :=
  if (f.slot ip).ref < 1 then .stop .beyond f
  else .ok ip (f.setSlot ip { f.slot ip with ref := (f.slot ip).ref + 1 })

/-- The entry with the fields of its inode. -/
def Slot.load (s : Slot) (n : Node) : Slot :=
  ⟨n.toAttr, n.data.length, s.inum, s.ref, true, true⟩

def filesLock (ninodes : Nat) (f : Files ν) (ip : Nat) : Outcome Stop (Files ν) Unit :=
  let s := f.slot ip
  if s.ref < 1 then .stop (.panic .inodeLock) f
  else if s.busy then .stop .sleep f
  else if s.valid then .ok () (f.setSlot ip { s with busy := true })
  else if ninodes ≤ s.inum then .stop .beyond f
  else if (f.node s.inum).type = 0 then .stop (.panic .inodeLockNoType) f
  else .ok () (f.setSlot ip (s.load (f.node s.inum)))

def filesUnlock (f : Files ν) (ip : Nat) : Outcome Stop (Files ν) Unit :=
  if !(f.slot ip).busy ∨ (f.slot ip).ref < 1 then .stop (.panic .inodeUnlock) f
  else .ok () (f.setSlot ip { f.slot ip with busy := false })

/-- The inode of entry `ip` is freed and the entry given back. -/
def Files.free (f : Files ν) (ip : Nat) : Files ν :=
  let s := f.slot ip
  (f.setNode s.inum ⟨{ s.toAttr with type := 0 }, []⟩).setSlot ip
    ⟨{ s.toAttr with type := 0 }, 0, s.inum, 0, false, false⟩

def filesPut (limit : Option Nat) (f : Files ν) (ip : Nat) : Outcome Stop (Files ν) Unit :=
  let s := f.slot ip
  if s.ref = 1 ∧ s.valid ∧ s.nlink = 0 then
    if s.busy then .stop (.panic .inodePutBusy) f
    else logging limit f s.inum 0 fun g => .ok () (g.free ip)
  else .ok () (f.setSlot ip { s with ref := s.ref - 1 })

/-- Entry `ip` is a copy of its inode. -/
def Slot.inHand (s : Slot) : Prop := 0 < s.ref ∧ s.valid = true

instance (s : Slot) : Decidable s.inHand := inferInstanceAs (Decidable (_ ∧ _))

def devswResult {α : Type} (f : Files ν) (major : Nat) (bad : α) : Outcome Stop (Files ν) α :=
  if 32768 ≤ major ∨ nDev ≤ major then .ok bad f else .stop .undefined f

def filesRead (f : Files ν) (ip off n : Nat) : Outcome Stop (Files ν) (Option (List Byte)) :=
  let s := f.slot ip
  if ¬ s.inHand ∨ 4294967296 ≤ n then .stop .beyond f
  else if s.type = tDev then devswResult f s.major none
  else if s.size < off ∨ (off + n) % 4294967296 < off then .ok none f
  else .ok (some (((f.node s.inum).data.drop off).take n)) f

/-- The content is changed; an inode that grows gets the fields of the entry, too. -/
def Files.store (f : Files ν) (ip off : Nat) (src : List Byte) : Files ν :=
  let s := f.slot ip
  let n := f.node s.inum
  if s.size < off + src.length then
    (f.setNode s.inum ⟨s.toAttr, splice n.data off src⟩).setSlot ip { s with size := off + src.length }
  else f.setNode s.inum { n with data := splice n.data off src }

def filesWrite (limit : Option Nat) (f : Files ν) (ip off : Nat) (src : List Byte) :
    Outcome Stop (Files ν) Int :=
  let s := f.slot ip
  if ¬ s.inHand ∨ 4294967296 ≤ src.length then .stop .beyond f
  else if s.type = tDev then devswResult f s.major (-1)
  else if s.size < off ∨ (off + src.length) % 4294967296 < off then .ok (-1) f
  else if maxFile * bSize < (off + src.length) % 4294967296 then .ok (-1) f
  else if src = [] then .ok 0 f
  else
    logging limit f s.inum (writeCost off src.length) fun g =>
      .ok (src.length : Int) (g.store ip off src)

/-- The first free inode from `inum` on. -/
def freeNode (node : Nat → Node) (count inum : Nat) : Option Nat :=
  (List.range' inum count).find? fun i => (node i).type = 0

/-- The rest of `filesAlloc`, once the inode is found. -/
def allocNode (limit : Option Nat) (f : Files ν) (type : Nat) : Option Nat → Outcome Stop (Files ν) Nat
  | none => .stop (.panic .inodeAllocNoInodes) f
  | some inum => logging limit f inum 0 fun g => filesGet (g.setNode inum ⟨⟨type, 0, 0, 0⟩, []⟩) inum

def filesAlloc (limit : Option Nat) (ninodes : Nat) (f : Files ν) (type : Nat) :
    Outcome Stop (Files ν) Nat :=
  if type = 0 ∨ 65536 ≤ type then .stop .beyond f
  else allocNode limit f type (freeNode f.node (ninodes - 1) 1)

def filesUpdate (limit : Option Nat) (f : Files ν) (ip : Nat) : Outcome Stop (Files ν) Unit :=
  let s := f.slot ip
  if ¬ s.inHand then .stop .beyond f
  else logging limit f s.inum 0 fun g => .ok () (g.setNode s.inum ⟨s.toAttr, (g.node s.inum).data⟩)

def Slot.view (s : Slot) : InodeView := ⟨s.inum, s.ref, s.valid, s.type, s.nlink, s.size⟩

/-- The calls of the inode layer on files. -/
def filesMachine (limit : Option Nat) (ninodes : Nat) (forbidden : Mark → Bool) :
    Machine (InodeSig ν) Stop (Files ν) :=
  fun op f =>
    match op with
    | .get inum => filesGet f inum
    | .dup ip => filesDup f ip
    | .lock ip => filesLock ninodes f ip
    | .unlock ip => filesUnlock f ip
    | .put ip => filesPut limit f ip
    | .read ip off n => filesRead f ip off n
    | .write ip off src => filesWrite limit f ip off src
    | .alloc type => filesAlloc limit ninodes f type
    | .update ip => filesUpdate limit f ip
    | .look ip => .ok (f.slot ip).view f
    | .setNlink ip nlink =>
      if 65536 ≤ nlink then .stop .beyond f else .ok () (f.setSlot ip { f.slot ip with nlink := nlink })
    | .setDev ip major minor =>
      if 65536 ≤ major ∨ 65536 ≤ minor then .stop .beyond f
      else .ok () (f.setSlot ip { f.slot ip with major := major, minor := minor })
    | .beginTrans => if f.inTrans then .stop .sleep f else .ok () { f with inTrans := true }
    | .commitTrans => .ok () { f with inTrans := false, touched := ∅, spent := 0 }
    | .logInit => if f.inTrans then .stop .beyond f else .ok () { f with up := true }
    | .getMem => .ok f.mem f
    | .setMem mem => .ok () { f with mem := mem }
    | .mark mark hit => if hit && forbidden mark then .stop (.marked mark) f else .ok () f

end Machine

end OsAudio.Fs

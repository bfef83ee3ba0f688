import OsAudio.Fs.BlockRun

/-!
# The allocator on an image of mkfs

`kern/fs/mkfs.c` marks the first blocks of the image as used, one bitmap block at most;
`block_alloc` looks for a clear bit below `sb.size`; `log_init` places the log in the last
`sb.nlog` blocks.  Nothing marks the blocks of the log, so that the allocator hands out a
block of the data region only while the data region has a free one.
-/
namespace OsAudio.Fs
open OsAudio.Lib

/-- An image as `mkfs` leaves it: `used` is the final value of `usedblocks`, and the
blocks from there on are zero. -/
structure MkfsImage (sb : Superblock) (used : Nat) (disk : Nat → Bytes) : Prop where
  superblock : superblockOf (disk 1) = sb
  word : sb.size < 2147483648
  sized : sb.nblocks + sb.dataStart + sb.nlog = sb.size
  least : sb.dataStart ≤ used
  oneBlock : used < bpb
  bitmap : ∀ c, c / bpb ≤ sb.size / bpb → (inUse sb disk c = true ↔ c < used)
  zeroed : ∀ t, used ≤ t → disk t = Bytes.zero

/-- `b` is a data block: after the bitmap and before the log. -/
def Superblock.isData (sb : Superblock) (b : Nat) : Prop := sb.dataStart ≤ b ∧ b < sb.dataEnd

section Run
variable {μ : Type} (forbidden : Mark → Bool) (sb : Superblock)

/-- The log and the buffer cache as a machine for the layers above. -/
abbrev cacheMachine : Machine (LogSig μ) Stop (BufSys (LogMem μ)) :=
  (bufMachine forbidden).through logImpl

/-- The states the kernel reaches from an image of `mkfs`, with the block numbers that
`block_alloc` has returned.  Each `block_alloc` is called while a data block is free, each
`block_free` on a data block; other sectors may be logged in between. -/
inductive AllocRun : BufSys (LogMem μ) → List Nat → Prop
  | boot {used : Nat} {disk : Nat → Bytes} {rest : μ} {s : BufSys (LogMem μ)}
      (image : MkfsImage sb used disk) (fits : used ≤ sb.dataEnd)
      (started : (cacheMachine forbidden).run logInitCall
        (powerOn rest disk) = .ok () s) : AllocRun s []
  | beginTrans {s t : BufSys (LogMem μ)} {returned : List Nat} (before : AllocRun s returned)
      (done : (cacheMachine forbidden).run beginCall s = .ok () t) :
      AllocRun t returned
  | commitTrans {s t : BufSys (LogMem μ)} {returned : List Nat} (before : AllocRun s returned)
      (done : (cacheMachine forbidden).run commitCall s = .ok () t) :
      AllocRun t returned
  | alloc {s t : BufSys (LogMem μ)} {returned : List Nat} {b : Nat} (before : AllocRun s returned)
      (free : ∃ c, sb.isData c ∧ inUse sb s.content c = false)
      (done : (cacheMachine forbidden).run blockAlloc s = .ok b t) : AllocRun t (b :: returned)
  | free {s t : BufSys (LogMem μ)} {returned : List Nat} {b : Nat} (before : AllocRun s returned)
      (data : sb.isData b) (done : (cacheMachine forbidden).run (blockFree b) s = .ok () t) :
      AllocRun t returned
  | other {s t : BufSys (LogMem μ)} {returned : List Nat} {sector : Nat} {change : Bytes → Bytes}
      (before : AllocRun s returned) (home : sector < sb.dataEnd) (notSuper : sector ≠ 1)
      (notBitmap : ∀ c, c / bpb ≤ sb.size / bpb → bblock c sb.ninodes ≠ sector)
      (done : (cacheMachine forbidden).run (do
        let data ← bread sector
        logStore sector (change data)
        brelse sector) s = .ok () t) : AllocRun t returned

variable {forbidden sb}

/-- The volume that a state of such a run presents. -/
structure AllocInv (sb : Superblock) (v : Vol μ) : Prop where
  layout : Layout sb
  laid : v.Laid sb
  idle : v.held = ∅
  low : ∀ c < sb.dataStart, inUse sb v.data c = true

theorem Layout.covered (layout : Layout sb) {c : Nat} (below : c < sb.dataEnd) :
    c / bpb ≤ sb.size / bpb := by
  have := layout.dataEnd_le
  exact bitmap_of_lt (by omega)

theorem MkfsImage.layout {used : Nat} {disk : Nat → Bytes} (image : MkfsImage sb used disk) :
    Layout sb := by
  refine ⟨image.word, ?_⟩
  have := image.sized
  unfold Superblock.dataEnd
  omega

theorem AllocInv.content {a : BufSys (LogMem μ)} {v : Vol μ} (inv : AllocInv sb v)
    (showing : Shows a v) {c : Nat} (covered : c / bpb ≤ sb.size / bpb) :
    inUse sb a.content c = inUse sb v.data c := by
  have block := bblock_bounds covered
  have fits := inv.layout.fits
  rw [inUse, showing.content (inv.laid.home inv.layout (by omega)), inUse]

section Steps
variable {s t : BufSys (LogMem μ)} {v : Vol μ} {b : Nat}

/-- What a program on the volume keeps, it keeps in the kernel. -/
theorem Shows.keeps {α : Type} {p : LogProg μ α} {a : α} {P : α → Prop} {E : Stop → Vol μ → Prop}
    (showing : Shows s v) (asserts : (volMachine forbidden).Wp p v (fun r w => P r ∧ AllocInv sb w) E)
    (answers : ∀ w u, E w u → w ≠ .beyond) (done : (cacheMachine forbidden).run p s = .ok a t) :
    P a ∧ ∃ w, Shows t w ∧ AllocInv sb w := by
  obtain ⟨w, -, ⟨holds, kept⟩, after⟩ := (cache_refines forbidden).of_ok (fun _ _ _ => trivial) showing
    asserts answers done
  exact ⟨holds, w, after, kept⟩

theorem MkfsImage.booted {used : Nat} {disk : Nat → Bytes} {rest : μ} (image : MkfsImage sb used disk)
    (fits : used ≤ sb.dataEnd)
    (started : (cacheMachine forbidden).run logInitCall (powerOn rest disk) = .ok () s) :
    ∃ w, Shows s w ∧ AllocInv sb w := by
  have layout := image.layout
  have ends := layout.dataEnd_le
  have word := layout.word
  have start : (superblockOf (disk 1)).logStart = sb.dataEnd := by
    rw [image.superblock, Superblock.logStart]
    have := @uint32_natCast sb.dataEnd (by omega)
    rw [← this]
    congr 1
    omega
  have size : int32 (superblockOf (disk 1)).nlog = sb.nlog := by
    rw [image.superblock]
    exact int32_of_range (by omega) (by omega)
  let v : Vol μ := ⟨disk, false, false, ∅, ∅, sb.dataEnd, sb.nlog, rest⟩
  have laid : v.Laid sb := ⟨image.superblock, rfl, rfl⟩
  have header : (disk sb.dataEnd).get 0 4 = 0 := by
    rw [image.zeroed _ fits]
    exact Bytes.get_zero 0 4
  have showing := shows_powerOn rest start size
    (laid.home layout (t := 1) (by have := layout.fits; omega)) header
  refine (showing.keeps (P := fun _ => True) (E := fun _ _ => False) (.op ?_) nofun started).2
  change (volInit v).Sat _ _
  unfold volInit
  rw [if_neg (by simp [v])]
  refine ⟨trivial, layout, ⟨laid.superblock, rfl, rfl⟩, rfl, fun c below => ?_⟩
  have := layout.fits
  exact (image.bitmap c (layout.covered (by omega))).mpr (by have := image.least; omega)

variable (inv : AllocInv sb v)
include inv

theorem AllocInv.begin : (volMachine forbidden).Wp beginCall v (fun _ w => True ∧ AllocInv sb w)
    (fun w _ => w ≠ .beyond) := by
  apply Machine.Wp.op
  change (volBegin v).Sat _ _
  unfold volBegin
  split
  · nofun
  · exact ⟨trivial, inv.layout, inv.laid.again, inv.idle, inv.low⟩

theorem AllocInv.commit : (volMachine forbidden).Wp commitCall v (fun _ w => True ∧ AllocInv sb w)
    (fun w _ => w ≠ .beyond) := by
  apply Machine.Wp.op
  change (volCommit v).Sat _ _
  unfold volCommit
  rw [if_neg (by simp [inv.idle])]
  split
  · nofun
  · exact ⟨trivial, inv.layout, inv.laid.again, inv.idle, inv.low⟩

theorem AllocInv.alloc (free : ∃ c < sb.dataEnd, inUse sb v.data c = false) :
    (volMachine forbidden).Wp blockAlloc v (fun r w => sb.isData r ∧ AllocInv sb w) (Fails v.unlimited) := by
  have ready : AllocReady forbidden sb v v.unlimited ∅ :=
    ⟨inv.layout, inv.laid, by simp [inv.idle], by simp [inv.idle], inv.low, Or.inr free, False.elim,
      False.elim, False.elim, rfl, rfl⟩
  refine wp_blockAlloc ready fun r first high below _ _ => ⟨⟨high, below⟩, ?_⟩
  refine ⟨inv.layout, inv.laid.allocated inv.layout first.below high, inv.idle, fun c low => ?_⟩
  have := inv.layout.fits
  rw [inUse_allocated v high (inv.layout.covered (by omega)), inv.low c low, Bool.or_true]

theorem AllocInv.free (isData : sb.isData b) :
    (volMachine forbidden).Wp (blockFree b) v (fun _ w => True ∧ AllocInv sb w) (Fails v.unlimited) := by
  have ends := inv.layout.dataEnd_le
  have block := bblock_bounds (inv.layout.covered isData.2)
  obtain ⟨high, below⟩ := isData
  refine wp_blockFree inv.layout inv.laid (by omega) False.elim (by simp [inv.idle]) (by simp [inv.idle])
    (False.elim : _ → v.Room ∅) rfl rfl fun _ _ _ => ?_
  refine ⟨trivial, inv.layout, inv.laid.write (by omega), inv.idle, fun c low => ?_⟩
  rw [inUse_freed, inv.low c low, decide_eq_false (by omega)]
  rfl

theorem AllocInv.rewrite {sector : Nat} {change : Bytes → Bytes} (home : sector < sb.dataEnd)
    (notSuper : sector ≠ 1) (notBitmap : ∀ c, c / bpb ≤ sb.size / bpb → bblock c sb.ninodes ≠ sector) :
    (volMachine forbidden).Wp (do
      let data ← bread sector
      logStore sector (change data)
      brelse sector) v (fun _ w => True ∧ AllocInv sb w) (Fails v.unlimited) := by
  have ends := inv.layout.dataEnd_le
  have word := inv.layout.word
  refine wp_rewrite (inv.laid.home inv.layout home) (by simp [inv.idle]) (by simp [inv.idle])
    notSuper (by omega) (False.elim : _ → v.Room ∅) rfl rfl fun _ _ => ?_
  refine ⟨trivial, inv.layout, inv.laid.write notSuper, inv.idle, fun c low => ?_⟩
  have := inv.layout.fits
  rw [show (v.write sector (change (v.data sector))).data =
    Function.update v.data sector (change (v.data sector)) from rfl,
    inUse_update (notBitmap c (inv.layout.covered (by omega))), inv.low c low]

end Steps

theorem AllocRun.inv {s : BufSys (LogMem μ)} {returned : List Nat}
    (run : AllocRun forbidden sb s returned) :
    (∃ v, Shows s v ∧ AllocInv sb v) ∧ ∀ b ∈ returned, sb.isData b := by
  induction run with
  | boot image fits started => exact ⟨image.booted fits started, nofun⟩
  | beginTrans before done ih =>
    obtain ⟨⟨v, showing, inv⟩, data⟩ := ih
    exact ⟨(showing.keeps inv.begin (fun _ _ answers => answers) done).2, data⟩
  | commitTrans before done ih =>
    obtain ⟨⟨v, showing, inv⟩, data⟩ := ih
    exact ⟨(showing.keeps inv.commit (fun _ _ answers => answers) done).2, data⟩
  | alloc before free done ih =>
    obtain ⟨⟨v, showing, inv⟩, data⟩ := ih
    obtain ⟨c, isData, clear⟩ := free
    rw [inv.content showing (inv.layout.covered isData.2)] at clear
    obtain ⟨new, kept⟩ := showing.keeps (inv.alloc ⟨c, isData.2, clear⟩) (fun _ _ fails => fails.answers) done
    exact ⟨kept, List.forall_mem_cons.mpr ⟨new, data⟩⟩
  | free before isData done ih =>
    obtain ⟨⟨v, showing, inv⟩, data⟩ := ih
    exact ⟨(showing.keeps (inv.free isData) (fun _ _ fails => fails.answers) done).2, data⟩
  | other before home notSuper notBitmap done ih =>
    obtain ⟨⟨v, showing, inv⟩, data⟩ := ih
    exact ⟨(showing.keeps (inv.rewrite home notSuper notBitmap) (fun _ _ fails => fails.answers) done).2, data⟩

/-- While a data block is free before each allocation, every block that `block_alloc`
returns is a data block. -/
theorem blockAlloc_returns_data {s : BufSys (LogMem μ)} {returned : List Nat}
    (run : AllocRun forbidden sb s returned) : ∀ b ∈ returned, sb.isData b := run.inv.2

end Run

/-! ## Images -/

/-- The bits of the first `used` blocks, as `balloc` sets them. -/
def ballocBytes (used : Nat) : Bytes := fun k => BitVec.ofNat 8 (2 ^ min 8 (used - 8 * k) - 1)

theorem testBit_ballocBytes (used c : Nat) : (ballocBytes used).testBit c = decide (c < used) := by
  have bit : c % 8 < 8 := Nat.mod_lt _ (by decide)
  unfold Bytes.testBit ballocBytes
  rw [BitVec.getLsbD_ofNat, Nat.testBit_two_pow_sub_one, decide_eq_true bit, Bool.true_and]
  apply decide_eq_decide.mpr
  omega

/-- The image `mkfs` makes of empty files, up to the inodes, that has `used` used blocks. -/
def mkfsDisk (sb : Superblock) (used : Nat) : Nat → Bytes := fun t =>
  if t = 1 then
    (((Bytes.zero.put 0 4 sb.size).put 4 4 sb.nblocks).put 8 4 sb.ninodes).put 12 4 sb.nlog
  else if t = sb.ninodes / ipb + 3 then ballocBytes used
  else Bytes.zero

theorem mkfsDisk_image {sb : Superblock} {used : Nat} (word : sb.size < 2147483648)
    (sized : sb.nblocks + sb.dataStart + sb.nlog = sb.size) (inodes : sb.ninodes < 4294967296)
    (least : sb.dataStart ≤ used) (oneBlock : used < bpb) :
    MkfsImage sb used (mkfsDisk sb used) := by
  have low : sb.ninodes / ipb + 4 ≤ sb.dataStart ∧ 4 ≤ sb.dataStart := by
    unfold Superblock.dataStart bpb ipb
    omega
  refine ⟨?_, word, sized, least, oneBlock, fun c covered => ?_, fun t above => ?_⟩
  · unfold superblockOf mkfsDisk
    rw [if_pos rfl]
    simp (disch := omega) only [Bytes.get_put_outside, Bytes.get_put]
  · have notSuper : bblock c sb.ninodes ≠ 1 := by
      have := (bblock_bounds covered).1
      omega
    by_cases first : c / bpb = 0
    · have block : bblock c sb.ninodes = sb.ninodes / ipb + 3 := by
        unfold bblock
        omega
      have small : c % bpb = c := by
        unfold bpb at *
        omega
      rw [inUse, mkfsDisk, if_neg notSuper, if_pos block, small, testBit_ballocBytes, decide_eq_true_iff]
    · have block : bblock c sb.ninodes ≠ sb.ninodes / ipb + 3 := by
        unfold bblock
        omega
      have large : ¬ c < used := by
        unfold bpb at *
        omega
      rw [inUse, mkfsDisk, if_neg notSuper, if_neg block]
      simp [Bytes.testBit, Bytes.zero, large]
  · unfold mkfsDisk
    rw [if_neg (by omega), if_neg (by omega)]

/-- The sizes that `mkfs` uses. -/
def mkfsSb : Superblock := ⟨1024, 985, 200, 10⟩

theorem mkfsSb_image {used : Nat} (least : 29 ≤ used) (oneBlock : used < 4096) :
    MkfsImage mkfsSb used (mkfsDisk mkfsSb used) :=
  mkfsDisk_image (by decide) (by decide) (by decide) least oneBlock

/-- The kernel started on an image with two data blocks in use. -/
def mkfsBoot : BufSys (LogMem Unit) :=
  ((cacheMachine fun _ => false).run logInitCall
    (powerOn () (mkfsDisk mkfsSb 31))).state

/-- The same kernel inside its first transaction. -/
def mkfsBegun : BufSys (LogMem Unit) :=
  ((cacheMachine fun _ => false).run beginCall mkfsBoot).state

theorem mkfsBegun_run : AllocRun (fun _ => false) mkfsSb mkfsBegun [] := by
  have image := @mkfsSb_image 31 (by decide) (by decide)
  have booted : AllocRun (fun _ => false) mkfsSb mkfsBoot [] :=
    .boot image (by decide) (Outcome.eq_ok_of_result (by decide))
  exact .beginTrans booted (Outcome.eq_ok_of_result (by decide))

theorem blockAlloc_returns_data_first :
    ∃ t : BufSys (LogMem Unit), AllocRun (fun _ => false) mkfsSb t [31] ∧ ∀ b ∈ [31], mkfsSb.isData b := by
  have free : ∃ c, mkfsSb.isData c ∧ inUse mkfsSb mkfsBegun.content c = false := by
    refine ⟨40, ?_, by decide⟩
    unfold Superblock.isData
    decide
  have run := AllocRun.alloc mkfsBegun_run free (Outcome.eq_ok_of_result (a := 31) (by decide +kernel))
  exact ⟨_, run, blockAlloc_returns_data run⟩

/-- All data blocks are used: the first block that `block_alloc` returns is the header
block of the log. -/
theorem full_image_allocates_log :
    MkfsImage mkfsSb 1014 (mkfsDisk mkfsSb 1014) ∧
    ((cacheMachine fun _ => false).run (do
      logInitCall
      beginCall
      blockAlloc) (powerOn () (mkfsDisk mkfsSb 1014))).result = some 1014 ∧
    ¬ mkfsSb.isData 1014 := by
  refine ⟨mkfsSb_image (by decide) (by decide), by decide +kernel, ?_⟩
  unfold Superblock.isData
  decide

end OsAudio.Fs

import OsAudio.Fs.VolumeRules

/-!
# The block allocator on a volume

Where things are on the disk (`Layout`), which blocks the bitmap says are in use, and what
`block_alloc` and `block_free` do to it.
-/
namespace OsAudio.Fs
open OsAudio.Lib
open Function (update update_self update_of_ne)

/-- The first block after the bitmap. -/
def Superblock.dataStart (sb : Superblock) : Nat := sb.size / bpb + sb.ninodes / ipb + 4

/-- The first block of the log. -/
def Superblock.dataEnd (sb : Superblock) : Nat := sb.size - sb.nlog

/-- Inodes, bitmap, data and log follow each other. -/
structure Layout (sb : Superblock) : Prop where
  word : sb.size < 2147483648
  fits : sb.dataStart ≤ sb.dataEnd

/-- The bit for block `b`. -/
def inUse (sb : Superblock) (data : Nat → Bytes) (b : Nat) : Bool :=
  (data (bblock b sb.ninodes)).testBit (b % bpb)

section Layout
variable {sb : Superblock} {b : Nat}

theorem Layout.dataEnd_le (layout : Layout sb) : 4 ≤ sb.dataStart ∧ sb.dataEnd ≤ sb.size ∧
    sb.nlog + sb.dataEnd = sb.size := by
  have fits := layout.fits
  unfold Superblock.dataStart Superblock.dataEnd bpb ipb at *
  refine ⟨?_, ?_, ?_⟩ <;> omega

theorem bblock_bounds (below : b / bpb ≤ sb.size / bpb) :
    3 ≤ bblock b sb.ninodes ∧ sb.ninodes / ipb + 3 ≤ bblock b sb.ninodes ∧
    bblock b sb.ninodes < sb.dataStart := by
  unfold bblock Superblock.dataStart bpb ipb at *
  omega

theorem bitmap_of_lt (below : b < sb.size) : b / bpb ≤ sb.size / bpb :=
  Nat.div_le_div_right (Nat.le_of_lt below)

end Layout

/-- The volume has the layout that its super block describes. -/
structure Vol.Laid {μ : Type} (v : Vol μ) (sb : Superblock) : Prop where
  superblock : superblockOf (v.data 1) = sb
  start : v.start = sb.dataEnd
  size : v.size = sb.nlog

section Runs
variable {μ : Type} {forbidden : Mark → Bool} {v : Vol μ} {sb : Superblock}
  {targets : Finset Nat} {lim : Limits}

theorem Vol.Laid.region (laid : v.Laid sb) (layout : Layout sb) (t : Nat) :
    logRegion v.start v.size t ↔ sb.dataEnd ≤ t ∧ t < sb.size := by
  have ends := layout.dataEnd_le
  have word := layout.word
  rw [laid.start, laid.size]
  unfold logRegion
  rw [Int.toNat_natCast]
  constructor
  · rintro ⟨i, below, rfl⟩
    rw [Nat.mod_eq_of_lt (by omega)]
    omega
  · rintro ⟨low, high⟩
    refine ⟨t - sb.dataEnd, by omega, ?_⟩
    rw [Nat.mod_eq_of_lt (by omega)]
    omega

/-- The layout of the disk is that of another volume with the same super block and log. -/
theorem Vol.Laid.again {ν : Type} {w : Vol ν} (laid : v.Laid sb) (superblock : w.data 1 = v.data 1 := by rfl)
    (start : w.start = v.start := by rfl) (size : w.size = v.size := by rfl) : w.Laid sb :=
  ⟨superblock ▸ laid.superblock, start ▸ laid.start, size ▸ laid.size⟩

theorem Vol.Laid.home (laid : v.Laid sb) (layout : Layout sb) {t : Nat} (below : t < sb.dataEnd) :
    ¬ logRegion v.start v.size t := by
  rw [laid.region layout]
  omega

theorem Vol.Laid.write (laid : v.Laid sb) {sector : Nat} {data : Bytes} (other : sector ≠ 1) :
    (v.write sector data).Laid sb := by
  refine ⟨?_, laid.start, laid.size⟩
  rw [show (v.write sector data).data 1 = v.data 1 from update_of_ne (Ne.symm other) _ _]
  exact laid.superblock

theorem wp_superblock {Q : Superblock → Vol μ → Prop} (layout : Layout sb) (laid : v.Laid sb)
    (free : 1 ∉ v.held) (few : v.held.card ≤ 2) (room : lim.roomy → v.Room targets)
    (next : Q sb v) : (volMachine forbidden).Wp superblock v Q (Fails lim) := by
  have := layout.fits
  have := layout.dataEnd_le
  refine wp_observe (laid.home layout (by omega)) free few room ?_
  rw [laid.superblock]
  exact next

/-! ## Allocation -/

variable {b c r : Nat}

theorem clearBitFrom_some {data : Bytes} {size bi : Nat}
    (found : clearBitFrom data b size = some bi) :
    bi < bpb ∧ b + bi < size ∧ data.testBit bi = false ∧ ∀ c < bi, data.testBit c = true := by
  unfold clearBitFrom at found
  have member := List.mem_range.mp (List.mem_of_find?_eq_some found)
  have clear := List.find?_some found
  refine ⟨by omega, by omega, by simpa using clear, fun c before => ?_⟩
  obtain ⟨-, split⟩ := List.find?_eq_some_iff_append.mp found
  obtain ⟨front, back, range, all⟩ := split
  have position : front.length = bi := by
    have length := congrArg List.length range
    simp only [List.length_range, List.length_append, List.length_cons] at length
    have entry : (List.range (min bpb (size - b)))[front.length]? =
        (front ++ bi :: back)[front.length]? := by rw [range]
    rw [List.getElem?_range (by omega), List.getElem?_append_right (Nat.le_refl _), Nat.sub_self] at entry
    simpa using entry
  have inside : c ∈ front := by
    have entry : (List.range (min bpb (size - b)))[c]? = (front ++ bi :: back)[c]? := by rw [range]
    rw [List.getElem?_range (by omega), List.getElem?_append_left (by omega)] at entry
    exact List.mem_of_getElem? entry.symm
  simpa using all c inside

theorem clearBitFrom_none {data : Bytes} {size : Nat} (missing : clearBitFrom data b size = none) :
    ∀ c < bpb, b + c < size → data.testBit c = true := by
  intro c below inside
  have := List.find?_eq_none.mp missing c (List.mem_range.mpr (by omega))
  simpa using this

/-- The bits of one bitmap block. -/
theorem inUse_add {data : Nat → Bytes} (aligned : b % bpb = 0) (below : c < bpb) :
    inUse sb data (b + c) = (data (bblock b sb.ninodes)).testBit c := by
  have block : bblock (b + c) sb.ninodes = bblock b sb.ninodes := by
    unfold bblock bpb at *
    omega
  have bit : (b + c) % bpb = c := by
    unfold bpb at *
    omega
  rw [inUse, block, bit]

/-- `r` is the first block whose bit is clear. -/
structure FirstFree (sb : Superblock) (data : Nat → Bytes) (r : Nat) : Prop where
  below : r < sb.size
  clear : inUse sb data r = false
  least : ∀ c < r, inUse sb data c = true

/-- The state after block `r` was allocated. -/
def Vol.allocated (v : Vol μ) (sb : Superblock) (r : Nat) : Vol μ :=
  (v.write (bblock r sb.ninodes) ((v.data (bblock r sb.ninodes)).setBit (r % bpb))).write r Bytes.zero

theorem Vol.Laid.allocated (laid : v.Laid sb) (layout : Layout sb) (below : r < sb.size)
    (high : sb.dataStart ≤ r) : (v.allocated sb r).Laid sb := by
  have ends := layout.dataEnd_le
  have block := bblock_bounds (bitmap_of_lt below)
  exact (laid.write (by omega)).write (by omega)

/-- The blocks of the bitmap. -/
def Superblock.bitmap (sb : Superblock) : Finset Nat :=
  (Finset.range sb.size).image fun b => bblock b sb.ninodes

theorem bblock_mem_bitmap (below : b < sb.size) : bblock b sb.ninodes ∈ sb.bitmap :=
  Finset.mem_image_of_mem _ (Finset.mem_range.mpr below)

/-- What `block_alloc` relies on. -/
structure AllocReady (forbidden : Mark → Bool) (sb : Superblock) (v : Vol μ) (lim : Limits)
    (targets : Finset Nat) : Prop where
  layout : Layout sb
  laid : v.Laid sb
  few : v.held.card ≤ 1
  held : ∀ t ∈ v.held, sb.dataStart ≤ t ∧ inUse sb v.data t = true
  low : ∀ c < sb.dataStart, inUse sb v.data c = true
  safe : forbidden .logBlock = true ∨ ∃ c < sb.dataEnd, inUse sb v.data c = false
  spare : lim.spare → ∃ c < sb.dataEnd, inUse sb v.data c = false
  room : lim.roomy → v.Room targets
  bitmap : lim.roomy → sb.bitmap ⊆ targets
  up : v.up = lim.up
  flag : v.inTrans = lim.inTrans

theorem wp_blockZero {Q : Unit → Vol μ → Prop} (layout : Layout sb) (laid : v.Laid sb)
    (inside : sb.dataStart ≤ r ∧ r < sb.dataEnd) (free : r ∉ v.held) (few : v.held.card ≤ 1)
    (room : lim.roomy → v.Room targets) (up : v.up = lim.up) (flag : v.inTrans = lim.inTrans)
    (next : lim.up = true → lim.inTrans = true → Q () (v.write r Bytes.zero)) :
    (volMachine forbidden).Wp (blockZero r) v Q (Fails lim) := by
  have ends := layout.dataEnd_le
  have word := layout.word
  exact @wp_rewrite _ _ _ _ _ _ _ (fun _ => Bytes.zero) (laid.home layout inside.2) free few
    (by omega) (by omega) room up flag next

theorem wp_blockAllocFrom {Q : Nat → Vol μ → Prop}
    (ready : AllocReady forbidden sb v lim targets)
    (next : ∀ r, FirstFree sb v.data r → sb.dataStart ≤ r → r < sb.dataEnd → lim.up = true →
      lim.inTrans = true → Q r (v.allocated sb r)) {count : Nat} (aligned : b % bpb = 0)
    (rounds : (sb.size + bpb - 1) / bpb = b / bpb + count)
    (scanned : ∀ c < b, c < sb.size → inUse sb v.data c = true) :
    (volMachine forbidden).Wp (blockAllocFrom sb count b) v Q (Fails lim) := by
  have ends := ready.layout.dataEnd_le
  have fits := ready.layout.fits
  have word := ready.layout.word
  induction count generalizing b with
  | zero =>
    refine .stop ⟨nofun, nofun, nofun, nofun, nofun, fun _ _ _ yes => ?_⟩
    obtain ⟨c, below, clear⟩ := ready.spare yes
    have := scanned c (by unfold bpb at *; omega) (by omega)
    rw [this] at clear
    cases clear
  | succ count ih =>
    have inside : b < sb.size := by
      unfold bpb at *
      omega
    have block := bblock_bounds (bitmap_of_lt inside)
    have free : bblock b sb.ninodes ∉ v.held := fun member => by
      have := (ready.held _ member).1
      omega
    have home := ready.laid.home ready.layout (t := bblock b sb.ninodes) (by omega)
    have few := ready.few
    unfold blockAllocFrom
    rw [if_neg (by omega)]
    refine .seq (wp_bread home free (by omega) ready.room ?_)
    cases found : clearBitFrom (v.data (bblock b sb.ninodes)) b sb.size with
    | none =>
      refine .seq (wp_brelse_hold free ?_)
      have full := clearBitFrom_none found
      refine ih (by unfold bpb at *; omega) (by unfold bpb at *; omega) fun c before range => ?_
      by_cases old : c < b
      · exact scanned c old range
      · obtain ⟨d, rfl⟩ : ∃ d, c = b + d := ⟨c - b, by omega⟩
        rw [inUse_add aligned (by omega)]
        exact full d (by omega) range
    | some bi =>
      obtain ⟨small, below, clear, least⟩ := clearBitFrom_some found
      have bit : (b + bi) % bpb = bi := by
        unfold bpb at *
        omega
      have same : bblock (b + bi) sb.ninodes = bblock b sb.ninodes := by
        unfold bblock bpb at *
        omega
      have first : FirstFree sb v.data (b + bi) := by
        refine ⟨below, by rw [inUse_add aligned small]; exact clear, fun c before => ?_⟩
        by_cases old : c < b
        · exact scanned c old (by omega)
        · obtain ⟨d, rfl⟩ : ∃ d, c = b + d := ⟨c - b, by omega⟩
          rw [inUse_add aligned (by omega)]
          exact least d (by omega)
      have high : sb.dataStart ≤ b + bi := by
        by_contra low
        have := ready.low (b + bi) (by omega)
        rw [first.clear] at this
        cases this
      have notHeld : b + bi ∉ v.held := fun member => by
        have := (ready.held _ member).2
        rw [first.clear] at this
        cases this
      -- A clear bit before the log is found before one in the log.
      have early : (∃ c < sb.dataEnd, inUse sb v.data c = false) → b + bi < sb.dataEnd := by
        rintro ⟨c, before, isClear⟩
        by_contra late
        have := first.least c (by omega)
        rw [isClear] at this
        cases this
      have few' : (v.hold (bblock b sb.ninodes)).held.card ≤ 2 := by
        rw [show (v.hold (bblock b sb.ninodes)).held = insert (bblock b sb.ninodes) v.held from rfl,
          Finset.card_insert_of_notMem free]
        omega
      let w := v.write (bblock b sb.ninodes) ((v.data (bblock b sb.ninodes)).setBit bi)
      have notSuper : bblock b sb.ninodes ≠ 1 := by omega
      refine .seq (wp_logStore (Finset.mem_insert_self _ _) notSuper (by omega) few'
        (fun yes => (ready.room yes).hold) ready.up ready.flag fun up busy => ?_)
      rw [write_hold]
      refine .seq (wp_brelse_hold free ?_)
      refine .seq (wp_markIf (fun yes => ?_) fun allowed => ?_)
      · exact decide_eq_false (Nat.not_le.mpr (early (ready.spare yes)))
      have inData : b + bi < sb.dataEnd := by
        rcases ready.safe with banned | some
        · exact Nat.not_le.mp (of_decide_eq_false (allowed banned))
        · exact early some
      have room : lim.roomy → w.Room targets := fun yes =>
        (ready.room yes).write (ready.bitmap yes (bblock_mem_bitmap inside))
      refine .seq (wp_blockZero ready.layout (ready.laid.write notSuper) ⟨high, inData⟩ notHeld few room
        ready.up ready.flag fun _ _ => ?_)
      have final : w.write (b + bi) Bytes.zero = v.allocated sb (b + bi) := by
        rw [Vol.allocated, same, bit]
      rw [final]
      exact next (b + bi) first high inData up busy

/-- `block_alloc` takes the first block whose bit is clear. -/
theorem wp_blockAlloc {Q : Nat → Vol μ → Prop}
    (ready : AllocReady forbidden sb v lim targets)
    (next : ∀ r, FirstFree sb v.data r → sb.dataStart ≤ r → r < sb.dataEnd → lim.up = true →
      lim.inTrans = true → Q r (v.allocated sb r)) :
    (volMachine forbidden).Wp blockAlloc v Q (Fails lim) := by
  have ends := ready.layout.dataEnd_le
  have free : 1 ∉ v.held := fun member => by
    have := (ready.held _ member).1
    omega
  have few := ready.few
  refine .seq (wp_superblock ready.layout ready.laid free (by omega) ready.room ?_)
  exact wp_blockAllocFrom ready next rfl (by simp) fun c before => absurd before (Nat.not_lt_zero c)

/-! ## Freeing -/

/-- The state after block `b` was freed. -/
def Vol.freed (v : Vol μ) (sb : Superblock) (b : Nat) : Vol μ :=
  v.write (bblock b sb.ninodes) ((v.data (bblock b sb.ninodes)).clearBit (b % bpb))

theorem wp_blockFree {Q : Unit → Vol μ → Prop} (layout : Layout sb) (laid : v.Laid sb)
    (inside : b < sb.size) (used : lim.spare → inUse sb v.data b = true)
    (high : ∀ t ∈ v.held, sb.dataStart ≤ t) (few : v.held.card ≤ 1)
    (room : lim.roomy → v.Room targets) (up : v.up = lim.up) (flag : v.inTrans = lim.inTrans)
    (next : lim.up = true → lim.inTrans = true → inUse sb v.data b = true → Q () (v.freed sb b)) :
    (volMachine forbidden).Wp (blockFree b) v Q (Fails lim) := by
  have ends := layout.dataEnd_le
  have fits := layout.fits
  have word := layout.word
  have block := bblock_bounds (bitmap_of_lt inside)
  have free : bblock b sb.ninodes ∉ v.held := fun member => by
    have := high _ member
    omega
  have freeSuper : 1 ∉ v.held := fun member => by
    have := high _ member
    omega
  refine .seq (wp_superblock layout laid freeSuper (by omega) room ?_)
  have home := laid.home layout (t := bblock b sb.ninodes) (by omega)
  have few' : (v.hold (bblock b sb.ninodes)).held.card ≤ 2 := by
    rw [show (v.hold (bblock b sb.ninodes)).held = insert (bblock b sb.ninodes) v.held from rfl,
      Finset.card_insert_of_notMem free]
    omega
  refine .seq (wp_bread home free (by omega) room ?_)
  dsimp only
  cases bit : (v.data (bblock b sb.ninodes)).testBit (b % bpb) with
  | false =>
    refine .stop ⟨nofun, nofun, nofun, nofun, nofun, fun _ _ _ yes => ?_⟩
    rw [inUse, bit] at used
    cases used yes
  | true => ?_
  rw [if_neg (by decide)]
  refine .seq (wp_logStore (Finset.mem_insert_self _ _) (by omega) (by omega) few'
    (fun yes => (room yes).hold) up flag fun ready busy => ?_)
  refine wp_brelse (Finset.mem_insert_self _ _) ?_
  rw [write_hold]
  have final := release_hold (v := v.freed sb b) free
  rw [Vol.freed] at final
  rw [final]
  exact next ready busy bit

/-! ## The bitmap after a change -/

theorem inUse_update {data : Nat → Bytes} {sector : Nat} {bytes : Bytes}
    (other : bblock c sb.ninodes ≠ sector) :
    inUse sb (update data sector bytes) c = inUse sb data c := by
  rw [inUse, update_of_ne other, inUse]

theorem bblock_eq_iff : bblock c sb.ninodes = bblock b sb.ninodes ↔ c / bpb = b / bpb := by
  unfold bblock
  omega

theorem bit_eq_iff (block : bblock c sb.ninodes = bblock b sb.ninodes) : c % bpb = b % bpb ↔ c = b := by
  rw [bblock_eq_iff] at block
  unfold bpb at *
  omega

theorem inUse_setBit (data : Nat → Bytes) (b c : Nat) :
    inUse sb (update data (bblock b sb.ninodes)
      ((data (bblock b sb.ninodes)).setBit (b % bpb))) c = (decide (c = b) || inUse sb data c) := by
  by_cases block : bblock c sb.ninodes = bblock b sb.ninodes
  · simp only [inUse, block, update_self, Bytes.testBit_setBit, bit_eq_iff block]
  · have other : c ≠ b := fun same => block (by rw [same])
    simp [inUse_update block, other]

theorem inUse_clearBit (data : Nat → Bytes) (b c : Nat) :
    inUse sb (update data (bblock b sb.ninodes)
      ((data (bblock b sb.ninodes)).clearBit (b % bpb))) c = (!decide (c = b) && inUse sb data c) := by
  by_cases block : bblock c sb.ninodes = bblock b sb.ninodes
  · simp only [inUse, block, update_self, Bytes.testBit_clearBit, bit_eq_iff block]
  · have other : c ≠ b := fun same => block (by rw [same])
    simp [inUse_update block, other]

/-- After an allocation one more block is in use. -/
theorem inUse_allocated (v : Vol μ) (high : sb.dataStart ≤ r)
    (covered : c / bpb ≤ sb.size / bpb) :
    inUse sb (v.allocated sb r).data c = (decide (c = r) || inUse sb v.data c) := by
  have block := bblock_bounds covered
  have other : bblock c sb.ninodes ≠ r := by omega
  exact (inUse_update other).trans (inUse_setBit v.data r c)

theorem inUse_freed (v : Vol μ) (b c : Nat) :
    inUse sb (v.freed sb b).data c = (!decide (c = b) && inUse sb v.data c) :=
  inUse_clearBit v.data b c

end Runs

end OsAudio.Fs

import OsAudio.Fs.BlockRun
import OsAudio.Fs.Inode
import OsAudio.Lib.Ownership
import Mathlib.Order.Interval.Finset.Nat

/-!
# The blocks of the inodes

Which blocks belong to an inode with given addresses, directly or through the indirect block,
and the invariant of the allocator: no block belongs to two places, and the bitmap marks
exactly the blocks that belong to some place.  The addresses are a parameter, since those of an
inode that is being changed are in memory first.
-/
namespace OsAudio.Fs
open OsAudio.Lib
open Function (update update_self update_apply update_of_ne)

/-- The block with index `i` of an inode with addresses `a`; index `maxFile` stands for the
indirect block. -/
def blockNo (data : Nat → Bytes) (a : Nat → Nat) (i : Nat) : Nat :=
  if i < nDirect then a i
  else if i < maxFile then if a nDirect = 0 then 0 else entry (data (a nDirect)) (i - nDirect)
  else if i = maxFile then a nDirect
  else 0

/-- The block numbers in all places, for inodes with addresses `A`. -/
def places (data : Nat → Bytes) (A : Nat → Nat → Nat) : Nat × Nat → Nat :=
  fun p => blockNo data (A p.1) p.2

/-- The bitmap has a bit for the block, and it is set. -/
def taken (sb : Superblock) (data : Nat → Bytes) (b : Nat) : Prop :=
  b / bpb ≤ sb.size / bpb ∧ inUse sb data b = true

/-- The blocks before the data are marked, and the data blocks that are marked are those that
`ref` refers to, each from one place. -/
structure Allotted (sb : Superblock) (data : Nat → Bytes) (ref : Nat × Nat → Nat) : Prop where
  low : ∀ c < sb.dataStart, inUse sb data c = true
  owned : Owned sb.dataStart sb.dataEnd (taken sb data) ref

abbrev Storage (sb : Superblock) (data : Nat → Bytes) (A : Nat → Nat → Nat) : Prop :=
  Allotted sb data (places data A)

/-- Neither the super block, nor a block of inodes, nor one of the bitmap. -/
def OffBitmap (sb : Superblock) (t : Nat) : Prop := t < sb.ninodes / ipb + 3 ∨ sb.dataStart ≤ t

section Blocks
variable {sb : Superblock} {data data' : Nat → Bytes} {A A' : Nat → Nat → Nat} {a : Nat → Nat}
  {inum i r : Nat}

theorem blockNo_direct (below : i < nDirect) : blockNo data a i = a i := if_pos below

theorem blockNo_indirect : blockNo data a maxFile = a nDirect := by
  rw [blockNo, if_neg (by decide), if_neg (by decide), if_pos rfl]

theorem blockNo_entry (high : nDirect ≤ i) (below : i < maxFile) :
    blockNo data a i = if a nDirect = 0 then 0 else entry (data (a nDirect)) (i - nDirect) := by
  rw [blockNo, if_neg (by omega), if_pos below]

theorem blockNo_beyond (high : maxFile < i) : blockNo data a i = 0 := by
  have : nDirect ≤ maxFile := by decide
  rw [blockNo, if_neg (by omega), if_neg (by omega), if_neg (by omega)]

theorem blockNo_congr (same : a nDirect ≠ 0 → data' (a nDirect) = data (a nDirect)) (i : Nat) :
    blockNo data' a i = blockNo data a i := by
  unfold blockNo
  by_cases none : a nDirect = 0
  · simp only [none, if_true]
  · rw [same none]

theorem blockNo_zero (none : ∀ i, a i = 0) (i : Nat) : blockNo data a i = 0 := by
  unfold blockNo
  simp only [none, if_true]
  split <;> [rfl; split <;> [rfl; split <;> rfl]]

theorem Storage.range (storage : Storage sb data A) (some : blockNo data (A inum) i ≠ 0) :
    sb.dataStart ≤ blockNo data (A inum) i ∧ blockNo data (A inum) i < sb.dataEnd :=
  storage.owned.range (inum, i) some

variable {j off n m size : Nat} {data'' : Nat → Bytes}

theorem Storage.distinct (storage : Storage sb data A) {k : Nat}
    (some : blockNo data (A inum) i ≠ 0) (same : blockNo data (A inum) i = blockNo data (A j) k) :
    inum = j ∧ i = k := by
  have equal := storage.owned.distinct (inum, i) (j, k) some same
  exact ⟨congrArg Prod.fst equal, congrArg Prod.snd equal⟩

theorem Storage.inUse (storage : Storage sb data A)
    (some : blockNo data (A inum) i ≠ 0) : inUse sb data (blockNo data (A inum) i) = true := by
  have range := storage.range some
  exact ((storage.owned.exact _ range.1).mpr ⟨(inum, i), rfl⟩).2

/-- A block whose bit is clear belongs to no inode. -/
theorem Storage.fresh (storage : Storage sb data A) (high : sb.dataStart ≤ r)
    (clear : Fs.inUse sb data r = false) : blockNo data (A inum) i ≠ r := by
  refine storage.owned.fresh high (fun used => ?_) (inum, i)
  rw [used.2] at clear
  cases clear

/-! ## Taking a block -/

/-- The contents after block `r` was allocated. -/
def allocData (sb : Superblock) (data : Nat → Bytes) (r : Nat) : Nat → Bytes :=
  update (update data (bblock r sb.ninodes)
    ((data (bblock r sb.ninodes)).setBit (r % bpb))) r Bytes.zero

/-- What `block_alloc` found. -/
structure Vacant (sb : Superblock) (data : Nat → Bytes) (r : Nat) : Prop where
  high : sb.dataStart ≤ r
  below : r < sb.dataEnd
  clear : inUse sb data r = false

section
variable (vacant : Vacant sb data r)
include vacant

theorem Vacant.covered (layout : Layout sb) : r / bpb ≤ sb.size / bpb := by
  have := layout.dataEnd_le
  have := vacant.below
  exact bitmap_of_lt (by omega)

theorem Vacant.positive (layout : Layout sb) : 0 < r := by
  have := layout.dataEnd_le
  have := vacant.high
  omega

theorem Vacant.inUse {c : Nat} (covered : c / bpb ≤ sb.size / bpb) :
    inUse sb (allocData sb data r) c = (decide (c = r) || inUse sb data c) := by
  have block := bblock_bounds covered
  have := vacant.high
  have other : bblock c sb.ninodes ≠ r := by omega
  exact (inUse_update other).trans (inUse_setBit data r c)

theorem Vacant.allocData_of_ne (layout : Layout sb) {t : Nat} (other : t ≠ r)
    (off : OffBitmap sb t) : allocData sb data r t = data t := by
  have block := bblock_bounds (vacant.covered layout)
  have different : t ≠ bblock r sb.ninodes := by
    rintro rfl
    rcases off with low | high
    · omega
    · omega
  rw [allocData, update_of_ne other, update_of_ne different]

end

theorem allocData_self : allocData sb data r r = Bytes.zero := update_self ..

/-- The inode `inum` may have got more blocks, and its blocks and the bitmap other contents. -/
structure Grows (sb : Superblock) (inum : Nat) (data data' : Nat → Bytes) (A A' : Nat → Nat → Nat) :
    Prop where
  storage : Storage sb data' A'
  others : ∀ j, j ≠ inum → A' j = A j
  keeps : ∀ i, blockNo data (A inum) i ≠ 0 → blockNo data' (A' inum) i = blockNo data (A inum) i
  frame : ∀ t, OffBitmap sb t → (∀ i, blockNo data' (A' inum) i ≠ t) → data' t = data t

theorem Grows.refl (storage : Storage sb data A) : Grows sb inum data data A A :=
  ⟨storage, fun _ _ => rfl, fun _ _ => rfl, fun _ _ _ => rfl⟩

theorem Grows.trans {A'' : Nat → Nat → Nat}
    (first : Grows sb inum data data' A A') (second : Grows sb inum data' data'' A' A'') :
    Grows sb inum data data'' A A'' := by
  refine ⟨second.storage, fun j other => (second.others j other).trans (first.others j other), ?_, ?_⟩
  · intro i some
    have kept := first.keeps i some
    exact (second.keeps i (kept ▸ some)).trans kept
  · intro t off elsewhere
    rw [second.frame t off elsewhere]
    refine first.frame t off fun i same => ?_
    by_cases zero : t = 0
    · exact elsewhere (maxFile + 1) ((blockNo_beyond (Nat.lt_succ_self _)).trans zero.symm)
    · exact elsewhere i ((second.keeps i (same ▸ zero)).trans same)

/-- What the other inodes have stays as it is. -/
theorem Grows.other (grows : Grows sb inum data data' A A') {j : Nat} (other : j ≠ inum) (i : Nat) :
    blockNo data' (A' j) i = blockNo data (A j) i ∧
      (blockNo data (A j) i ≠ 0 → data' (blockNo data (A j) i) = data (blockNo data (A j) i)) := by
  have untouched : ∀ k, blockNo data' (A' j) k ≠ 0 →
      data' (blockNo data' (A' j) k) = data (blockNo data' (A' j) k) := by
    intro k some
    refine grows.frame _ (Or.inr (grows.storage.range some).1) fun l same => other ?_
    exact (grows.storage.distinct some same.symm).1
  have same : blockNo data' (A' j) i = blockNo data (A j) i := by
    have addrs := grows.others j other
    rw [addrs]
    refine blockNo_congr (fun some => ?_) i
    have indirect := untouched maxFile
    rw [blockNo_indirect, addrs] at indirect
    exact indirect some
  refine ⟨same, fun some => ?_⟩
  rw [← same] at some ⊢
  exact untouched i some

/-- Blocks that `block_alloc` may hand out without touching the log. -/
def freeBlocks (sb : Superblock) (data : Nat → Bytes) : Finset Nat :=
  (Finset.Ico sb.dataStart sb.dataEnd).filter fun b => inUse sb data b = false

/-- Place `i` of inode `inum` has got block `r`, and the other data blocks have kept their contents. -/
structure Mapped (sb : Superblock) (inum i r : Nat) (data data' : Nat → Bytes)
    (A A' : Nat → Nat → Nat) : Prop extends Grows sb inum data data' A A' where
  block : blockNo data' (A' inum) i = r
  some : r ≠ 0
  rest : ∀ k, k ≠ i → k < maxFile ∨ i < nDirect →
    blockNo data' (A' inum) k = blockNo data (A inum) k
  bytes : ∀ k, k < maxFile → blockNo data (A inum) k ≠ 0 →
    data' (blockNo data (A inum) k) = data (blockNo data (A inum) k)

section
variable (storage : Storage sb data A) (layout : Layout sb) (vacant : Vacant sb data r)
include storage layout vacant

/-- Place `i` of inode `inum` gets the vacant block `r`. -/
theorem Storage.take (empty : blockNo data (A inum) i = 0) (others : ∀ j, j ≠ inum → A' j = A j)
    (bits : ∀ c, c / bpb ≤ sb.size / bpb → Fs.inUse sb data' c = (decide (c = r) || Fs.inUse sb data c))
    (place : ∀ k, blockNo data' (A' inum) k = if k = i then r else blockNo data (A inum) k)
    (elsewhere : ∀ j, j ≠ inum → ∀ k, blockNo data' (A j) k = blockNo data (A j) k)
    (frame : ∀ t, OffBitmap sb t → t ≠ r → t ≠ A' inum nDirect → data' t = data t) :
    Mapped sb inum i r data data' A A' ∧
      (freeBlocks sb data').card + 1 = (freeBlocks sb data).card := by
  have positive := layout.dataEnd_le
  have unused : ¬ taken sb data r := by
    rintro ⟨-, used⟩
    rw [vacant.clear] at used
    cases used
  have taken' : ∀ b, taken sb data' b ↔ b = r ∨ taken sb data b := by
    intro b
    unfold taken
    by_cases covered : b / bpb ≤ sb.size / bpb
    · rw [bits b covered]
      simp [covered]
    · have other : b ≠ r := by
        rintro rfl
        exact covered (vacant.covered layout)
      simp [covered, other]
  have moved : ∀ y, places data' A' y = update (places data A) (inum, i) r y := by
    rintro ⟨j, k⟩
    by_cases inode : j = inum
    · subst inode
      rw [update_apply]
      simpa only [places, Prod.mk.injEq, true_and] using place k
    · rw [update_of_ne fun same => inode (congrArg Prod.fst same)]
      simpa only [places, others j inode] using elsewhere j inode k
  have storage' : Storage sb data' A' := by
    refine ⟨fun c low => ?_, ?_⟩
    · have fits := layout.fits
      rw [bits c (bitmap_of_lt (by omega)), storage.low c low, Bool.or_true]
    · have owned := storage.owned.take (by omega) vacant.high vacant.below unused (x := (inum, i)) empty
      exact owned.congr (fun b _ => taken' b) moved
  have same : blockNo data' (A' inum) i = r := (place i).trans (if_pos rfl)
  refine ⟨⟨⟨storage', others, fun k some => ?_, fun t off elsewhere => ?_⟩, same, ?_,
    fun k apart _ => (place k).trans (if_neg apart), fun k below some => ?_⟩, ?_⟩
  · refine (place k).trans (if_neg ?_)
    rintro rfl
    exact some empty
  · refine frame t off (fun equal => elsewhere i (same.trans equal.symm)) fun equal => ?_
    exact elsewhere maxFile (blockNo_indirect.trans equal.symm)
  · exact Nat.pos_iff_ne_zero.mp (vacant.positive layout)
  · have apart : k ≠ i := by
      rintro rfl
      exact some empty
    have kept : blockNo data' (A' inum) k = blockNo data (A inum) k := (place k).trans (if_neg apart)
    refine frame _ (Or.inr (storage.range some).1) (storage.fresh vacant.high vacant.clear) fun equal => ?_
    rw [← kept] at equal some
    have places := storage'.distinct some (equal.trans blockNo_indirect.symm)
    omega
  · have erased : freeBlocks sb data' = (freeBlocks sb data).erase r := by
      ext b
      simp only [freeBlocks, Finset.mem_filter, Finset.mem_Ico, Finset.mem_erase]
      constructor
      · rintro ⟨range, clear⟩
        rw [bits b (bitmap_of_lt (by omega))] at clear
        simp only [Bool.or_eq_false_iff, decide_eq_false_iff_not] at clear
        exact ⟨clear.1, range, clear.2⟩
      · rintro ⟨other, range, clear⟩
        refine ⟨range, ?_⟩
        rw [bits b (bitmap_of_lt (by omega)), clear, decide_eq_false other]
        rfl
    have member : r ∈ freeBlocks sb data :=
      Finset.mem_filter.mpr ⟨Finset.mem_Ico.mpr ⟨vacant.high, vacant.below⟩, vacant.clear⟩
    rw [erased, Finset.card_erase_add_one member]

/-- The indirect blocks keep their contents when a block is allocated. -/
theorem Storage.indirect_allocData (j : Nat) (some : A j nDirect ≠ 0) :
    allocData sb data r (A j nDirect) = data (A j nDirect) := by
  have named : blockNo data (A j) maxFile = A j nDirect := blockNo_indirect
  refine vacant.allocData_of_ne layout ?_ (Or.inr ?_)
  · rw [← named]
    exact storage.fresh vacant.high vacant.clear
  · rw [← named] at some ⊢
    exact (storage.range some).1

theorem Storage.blockNo_allocData (j i : Nat) :
    blockNo (allocData sb data r) (A j) i = blockNo data (A j) i :=
  blockNo_congr (storage.indirect_allocData layout vacant j) i

end

theorem entry_zero (i : Nat) : entry Bytes.zero i = 0 := Bytes.get_zero _ _

/-- The contents after entry `i` of an indirect block was set. -/
def setEntry (data : Nat → Bytes) (ind i r : Nat) : Nat → Bytes :=
  update data ind ((data ind).put (4 * i) 4 r)

theorem entry_put {b : Bytes} {i r : Nat} (word : r < 4294967296) :
    entry (b.put (4 * i) 4 r) j = if j = i then r else entry b j := by
  by_cases same : j = i
  · subst same
    rw [if_pos rfl]
    exact Bytes.get_put word
  · rw [if_neg same]
    exact Bytes.get_put_outside (by omega)

theorem blockNo_setEntry (indirect : a nDirect ≠ 0) (high : nDirect ≤ i) (below : i < maxFile)
    (word : r < 4294967296) (k : Nat) :
    blockNo (setEntry data (a nDirect) (i - nDirect) r) a k = if k = i then r else blockNo data a k := by
  by_cases direct : k < nDirect
  · rw [blockNo_direct direct, blockNo_direct direct, if_neg (by omega)]
  by_cases inside : k < maxFile
  · have same : k - nDirect = i - nDirect ↔ k = i := by omega
    simp only [blockNo_entry (Nat.le_of_not_lt direct) inside, if_neg indirect, setEntry, update_self,
      entry_put word, same]
  · rw [if_neg (by omega)]
    by_cases last : k = maxFile
    · rw [last, blockNo_indirect, blockNo_indirect]
    · rw [blockNo_beyond (by omega), blockNo_beyond (by omega)]

/-- An entry of an indirect block is set. -/
theorem Storage.take_entry (storage : Storage sb data A) (layout : Layout sb)
    (vacant : Vacant sb data r) (high : nDirect ≤ i) (below : i < maxFile)
    (indirect : A inum nDirect ≠ 0) (empty : entry (data (A inum nDirect)) (i - nDirect) = 0) :
    Mapped sb inum i r data (setEntry (allocData sb data r) (A inum nDirect) (i - nDirect) r) A A ∧
      (freeBlocks sb (setEntry (allocData sb data r) (A inum nDirect) (i - nDirect) r)).card + 1 =
        (freeBlocks sb data).card := by
  have named : blockNo data (A inum) maxFile = A inum nDirect := blockNo_indirect
  have range := storage.range (named ▸ indirect)
  rw [named] at range
  have word : r < 4294967296 := by
    have := layout.word
    have := layout.dataEnd_le
    have := vacant.below
    omega
  have free : blockNo data (A inum) i = 0 := by
    rw [blockNo_entry high below, if_neg indirect, empty]
  refine storage.take layout vacant free (fun _ _ => rfl) (fun c covered => ?_) (fun k => ?_)
    (fun j inode k => ?_) fun t off other indirect => (update_of_ne indirect ..).trans
      (vacant.allocData_of_ne layout other off)
  · have block := bblock_bounds covered
    rw [setEntry, inUse_update (by omega)]
    exact vacant.inUse covered
  · rw [blockNo_setEntry indirect high below word, storage.blockNo_allocData layout vacant]
  · refine Eq.trans (blockNo_congr (fun some => ?_) k) (storage.blockNo_allocData layout vacant j k)
    have apart : A j nDirect ≠ A inum nDirect := by
      intro same
      have mine : blockNo data (A j) maxFile = A j nDirect := blockNo_indirect
      exact inode (storage.distinct (mine ▸ some) (mine.trans (same.trans named.symm))).1
    exact update_of_ne apart ..

/-- The indirect block is allocated first, then the data block. -/
theorem Mapped.after {A'' : Nat → Nat → Nat} {q : Nat}
    (first : Mapped sb inum maxFile q data data' A A') (second : Mapped sb inum i r data' data'' A' A'')
    (high : nDirect ≤ i) : Mapped sb inum i r data data'' A A'' := by
  refine ⟨first.toGrows.trans second.toGrows, second.block, second.some, fun l apart small => ?_,
    fun l below some => ?_⟩
  · have below : l < maxFile := by omega
    exact (second.rest l apart small).trans (first.rest l (Nat.ne_of_lt below) (Or.inl below))
  have kept := first.keeps l some
  have later := second.bytes l below (kept ▸ some)
  rw [kept] at later
  rw [later, first.bytes l below some]

/-- The place of address `i`: a data block or the indirect block. -/
def addrPlace (i : Nat) : Nat := if i < nDirect then i else maxFile

theorem blockNo_addrPlace (le : i ≤ nDirect) : blockNo data a (addrPlace i) = a i := by
  unfold addrPlace
  split
  · exact blockNo_direct ‹_›
  · obtain rfl : i = nDirect := by omega
    exact blockNo_indirect

/-- An address is set; the entries of a new indirect block are zero. -/
theorem blockNo_setAddr (le : i ≤ nDirect) (empty : a i = 0)
    (zero : i = nDirect → ∀ j, entry (data r) j = 0) (k : Nat) :
    blockNo data (update a i r) k = if k = addrPlace i then r else blockNo data a k := by
  by_cases place : k = addrPlace i
  · rw [if_pos place, place, blockNo_addrPlace le, update_self]
  rw [if_neg place]
  unfold addrPlace at place
  split at place
  · unfold blockNo
    rw [update_of_ne place, update_of_ne (by omega)]
  · obtain rfl : i = nDirect := by omega
    by_cases direct : k < nDirect
    · rw [blockNo_direct direct, blockNo_direct direct, update_of_ne (by omega)]
    · by_cases inside : k < maxFile
      · rw [blockNo_entry (by omega) inside, blockNo_entry (by omega) inside, if_pos empty, update_self,
          zero rfl, ite_self]
      · rw [blockNo_beyond (by omega), blockNo_beyond (by omega)]

/-- An address of the inode is set. -/
theorem Storage.take_addr (storage : Storage sb data A) (layout : Layout sb)
    (vacant : Vacant sb data r) (le : i ≤ nDirect) (empty : A inum i = 0) :
    Mapped sb inum (addrPlace i) r data (allocData sb data r) A
        (update A inum (update (A inum) i r)) ∧
      (freeBlocks sb (allocData sb data r)).card + 1 = (freeBlocks sb data).card := by
  refine storage.take layout vacant ((blockNo_addrPlace le).trans empty)
    (fun j other => update_of_ne other ..) (fun c => vacant.inUse) (fun k => ?_)
    (fun j _ => storage.blockNo_allocData layout vacant j)
    fun t off other _ => vacant.allocData_of_ne layout other off
  rw [update_self, blockNo_setAddr le empty (fun _ j => by rw [allocData_self, entry_zero]),
    storage.blockNo_allocData layout vacant]

/-! ## Freeing blocks -/

/-- The contents after block `b` was freed. -/
def freedData (sb : Superblock) (data : Nat → Bytes) (b : Nat) : Nat → Bytes :=
  update data (bblock b sb.ninodes) ((data (bblock b sb.ninodes)).clearBit (b % bpb))

/-- Place `x` gives its block back. -/
theorem Allotted.free {ref : Nat × Nat → Nat} (allotted : Allotted sb data ref) (layout : Layout sb)
    {x : Nat × Nat} (some : ref x ≠ 0) :
    Allotted sb (freedData sb data (ref x)) (update ref x 0) := by
  have ends := layout.dataEnd_le
  have range := allotted.owned.range x some
  have bits : ∀ c, Fs.inUse sb (freedData sb data (ref x)) c =
      (!decide (c = ref x) && Fs.inUse sb data c) := inUse_clearBit data (ref x)
  refine ⟨fun c low => ?_, ?_⟩
  · rw [bits, allotted.low c low, decide_eq_false (by omega)]
    rfl
  · refine (allotted.owned.drop (by omega) some).congr (fun b _ => ?_) fun _ => rfl
    unfold taken
    rw [bits]
    simp only [Bool.and_eq_true, Bool.not_eq_true', decide_eq_false_iff_not]
    exact ⟨fun ⟨covered, other, used⟩ => ⟨other, covered, used⟩,
      fun ⟨other, covered, used⟩ => ⟨covered, other, used⟩⟩

/-- The first `k` places of inode `inum` have given their blocks back. -/
def cleared (ref : Nat × Nat → Nat) (inum k : Nat) : Nat × Nat → Nat :=
  fun p => if p.1 = inum ∧ p.2 < k then 0 else ref p

theorem cleared_succ (ref : Nat × Nat → Nat) (inum k : Nat) :
    cleared ref inum (k + 1) = update (cleared ref inum k) (inum, k) 0 := by
  funext p
  rw [update_apply]
  unfold cleared
  by_cases here : p = (inum, k)
  · rw [if_pos here, if_pos (by rw [here]; exact ⟨rfl, Nat.lt_succ_self k⟩)]
  · rw [if_neg here]
    have same : (p.1 = inum ∧ p.2 < k + 1) ↔ (p.1 = inum ∧ p.2 < k) := by
      refine ⟨fun ⟨inode, below⟩ => ⟨inode, ?_⟩, fun ⟨inode, below⟩ => ⟨inode, by omega⟩⟩
      have other : p.2 ≠ k := fun place => here (Prod.ext inode place)
      omega
    simp only [same]

/-! ## Writing a block -/

/-- A block of inodes gets other contents. -/
theorem Storage.write_inodes (storage : Storage sb data A) (layout : Layout sb) {t : Nat}
    (below : t < sb.ninodes / ipb + 3) (bytes : Bytes) :
    Storage sb (update data t bytes) A ∧
      (∀ j k, blockNo (update data t bytes) (A j) k = blockNo data (A j) k) ∧
      ∀ b, sb.dataStart ≤ b → update data t bytes b = data b := by
  have ends := layout.dataEnd_le
  have fits := layout.fits
  have start : sb.ninodes / ipb + 4 ≤ sb.dataStart := by
    unfold Superblock.dataStart bpb
    omega
  have high : ∀ b, sb.dataStart ≤ b → update data t bytes b = data b := by
    intro b above
    exact update_of_ne (by omega) ..
  have same : ∀ j k, blockNo (update data t bytes) (A j) k = blockNo data (A j) k := by
    intro j k
    refine blockNo_congr (fun some => high _ ?_) k
    have named : blockNo data (A j) maxFile = A j nDirect := blockNo_indirect
    rw [← named] at some ⊢
    exact (storage.range some).1
  have bits : ∀ c, Fs.inUse sb (update data t bytes) c = Fs.inUse sb data c := by
    intro c
    refine inUse_update ?_
    unfold bblock bpb
    omega
  refine ⟨⟨fun c low => (bits c).trans (storage.low c low), ?_⟩, same, high⟩
  refine storage.owned.congr (fun b _ => ?_) fun y => same y.1 y.2
  unfold taken
  rw [bits]


theorem Storage.apart_indirect (storage : Storage sb data A) (block : blockNo data (A inum) i = r)
    (some : r ≠ 0) (below : i < maxFile) (j : Nat) : A j nDirect ≠ r := by
  intro same
  have named : blockNo data (A j) maxFile = A j nDirect := blockNo_indirect
  have equal := (storage.distinct (block ▸ some) (block.trans (same.symm.trans named.symm))).2
  omega

/-- A data block gets other contents. -/
theorem Storage.write_block (storage : Storage sb data A) (layout : Layout sb)
    (block : blockNo data (A inum) i = r) (some : r ≠ 0) (below : i < maxFile) (bytes : Bytes) :
    Grows sb inum data (update data r bytes) A A ∧
      (∀ j k, blockNo (update data r bytes) (A j) k = blockNo data (A j) k) ∧
      freeBlocks sb (update data r bytes) = freeBlocks sb data := by
  have range := storage.range (block ▸ some)
  rw [block] at range
  have same : ∀ j k, blockNo (update data r bytes) (A j) k = blockNo data (A j) k := by
    intro j k
    refine blockNo_congr (fun _ => ?_) k
    exact update_of_ne (storage.apart_indirect block some below j) ..
  have bits : ∀ c, c / bpb ≤ sb.size / bpb →
      Fs.inUse sb (update data r bytes) c = Fs.inUse sb data c := by
    intro c covered
    have := bblock_bounds covered
    exact inUse_update (by omega)
  have fits := layout.fits
  have ends := layout.dataEnd_le
  refine ⟨⟨⟨fun c low => ?_, ?_⟩, fun _ _ => rfl, fun k _ => same inum k, fun t _ elsewhere => ?_⟩, same, ?_⟩
  · rw [bits c (bitmap_of_lt (by omega)), storage.low c low]
  · refine storage.owned.congr (fun b _ => ?_) fun y => same y.1 y.2
    unfold taken
    constructor
    · rintro ⟨covered, used⟩
      exact ⟨covered, bits b covered ▸ used⟩
    · rintro ⟨covered, used⟩
      exact ⟨covered, (bits b covered).trans used⟩
  · refine update_of_ne (fun equal => elsewhere i ?_) ..
    rw [same, block, equal]
  · refine Finset.filter_congr fun b member => ?_
    have range := Finset.mem_Ico.mp member
    rw [bits b (bitmap_of_lt (by omega))]

/-- How many blocks `bmap` allocates for index `bn`. -/
def missing (data : Nat → Bytes) (a : Nat → Nat) (bn : Nat) : Nat :=
  (if nDirect ≤ bn ∧ a nDirect = 0 then 1 else 0) + if blockNo data a bn = 0 then 1 else 0

theorem missing_eq_zero {bn : Nat} (below : bn < maxFile) (some : blockNo data a bn ≠ 0) :
    missing data a bn = 0 := by
  have indirect : ¬ (nDirect ≤ bn ∧ a nDirect = 0) := by
    rintro ⟨high, none⟩
    rw [blockNo_entry high below, if_pos none] at some
    exact some rfl
  rw [missing, if_neg indirect, if_neg some]

/-- The number of blocks that `n` bytes from `off` on touch. -/
def span (off n : Nat) : Nat := if n = 0 then 0 else (off % bSize + n + (bSize - 1)) / bSize

/-- How many blocks a write of `n` bytes from `off` on allocates. -/
def lacking (data : Nat → Bytes) (a : Nat → Nat) (off n : Nat) : Nat :=
  ((Finset.Ico (off / bSize) (off / bSize + span off n)).filter fun i => blockNo data a i = 0).card +
    if nDirect < off / bSize + span off n ∧ 0 < n ∧ a nDirect = 0 then 1 else 0

theorem lacking_zero (off : Nat) : lacking data a off 0 = 0 := by
  simp [lacking, span]

theorem missing_le_lacking (some : n ≠ 0) :
    missing data a (off / bSize) ≤ lacking data a off n := by
  have long : 0 < span off n := by
    rw [span, if_neg some]
    unfold bSize
    omega
  have positive : 0 < n := Nat.pos_iff_ne_zero.mpr some
  unfold missing lacking
  rw [Nat.add_comm]
  refine Nat.add_le_add ?_ ?_
  · split
    · rename_i none
      refine Finset.card_pos.mpr ⟨off / bSize, Finset.mem_filter.mpr ⟨?_, none⟩⟩
      exact Finset.mem_Ico.mpr ⟨Nat.le_refl _, by omega⟩
    · exact Nat.zero_le _
  · split
    · rename_i indirect
      rw [if_pos ⟨by omega, positive, indirect.2⟩]
    · exact Nat.zero_le _

theorem span_step (some : n ≠ 0) (chunk : m = min n (bSize - off % bSize)) :
    span off n = span (off + m) (n - m) + 1 := by
  unfold span bSize at *
  rw [if_neg some]
  split
  · omega
  · omega

theorem span_block (chunk : m = min n (bSize - off % bSize)) (more : n - m ≠ 0) :
    (off + m) / bSize = off / bSize + 1 := by
  unfold bSize at *
  omega

/-- The blocks of the first chunk are allocated first. -/
theorem Mapped.lacking_step
    (mapped : Mapped sb inum (off / bSize) r data data' A A')
    (later : ∀ k, blockNo data'' (A' inum) k = blockNo data' (A' inum) k) (some : n ≠ 0)
    (chunk : m = min n (bSize - off % bSize)) (bound : off + n ≤ maxFile * bSize) :
    lacking data (A inum) off n =
      missing data (A inum) (off / bSize) + lacking data'' (A' inum) (off + m) (n - m) := by
  have rounds := span_step some chunk
  obtain ⟨b, block⟩ : ∃ b, b = off / bSize := ⟨_, rfl⟩
  rw [← block] at mapped
  have first : b + span off n ≤ maxFile := by
    unfold span bSize at *
    rw [if_neg some]
    omega
  have split : Finset.Ico b (b + span off n) = insert b (Finset.Ico (b + 1) (b + span off n)) := by
    ext k
    simp only [Finset.mem_Ico, Finset.mem_insert]
    omega
  have head : ∀ P : Nat → Prop, ∀ [DecidablePred P],
      ((Finset.Ico b (b + span off n)).filter P).card =
        (if P b then 1 else 0) + ((Finset.Ico (b + 1) (b + span off n)).filter P).card := by
    intro P _
    rw [split, Finset.filter_insert]
    split
    · rw [Finset.card_insert_of_notMem (by simp), Nat.add_comm]
    · rw [Nat.zero_add]
  have tail : (Finset.Ico (b + 1) (b + span off n)).filter (fun i => blockNo data (A inum) i = 0) =
      (Finset.Ico (b + 1) (b + span off n)).filter fun i => blockNo data'' (A' inum) i = 0 := by
    refine Finset.filter_congr fun k member => ?_
    have range := Finset.mem_Ico.mp member
    rw [later, mapped.rest k (by omega) (Or.inl (by omega))]
  unfold lacking missing
  rw [← block, head, tail]
  by_cases more : n - m = 0
  · have last : span off n = 1 := by
      rw [rounds, more]
      rfl
    have none : span (off + m) 0 = 0 := rfl
    have positive : 0 < n := Nat.pos_iff_ne_zero.mpr some
    simp only [last, none, more, Nat.lt_succ_iff, positive, true_and, Nat.add_zero, Finset.Ico_self,
      Finset.filter_empty, Finset.card_empty, Nat.lt_irrefl, false_and, and_false, if_false]
    omega
  · have next : (off + m) / bSize = b + 1 := by
      rw [span_block chunk more, block]
    have count : b + span off n = b + 1 + span (off + m) (n - m) := by omega
    have positive : 0 < n ∧ 0 < n - m := by omega
    have long : 0 < span (off + m) (n - m) := by
      rw [span, if_neg more]
      unfold bSize
      omega
    rw [next, count]
    have reach : nDirect ≤ b → nDirect < b + 1 + span (off + m) (n - m) := by omega
    by_cases direct : b < nDirect
    · have same : A' inum nDirect = A inum nDirect := by
        have kept := mapped.rest maxFile (by have : nDirect ≤ maxFile := by decide
                                             omega) (Or.inr direct)
        rwa [blockNo_indirect, blockNo_indirect] at kept
      rw [same]
      simp only [positive, true_and, Nat.not_le.mpr direct, false_and, if_false]
      omega
    · have present : A' inum nDirect ≠ 0 := by
        intro none
        have below : b < maxFile := by omega
        have value := mapped.block
        rw [blockNo_entry (Nat.not_lt.mp direct) below, if_pos none] at value
        exact mapped.some value.symm
      simp only [positive, true_and, Nat.not_lt.mp direct, reach (Nat.not_lt.mp direct), present,
        and_false, if_false]
      omega

/-! ## Contents -/

/-- Byte `k` of the inode with addresses `a`. -/
def byteAt (data : Nat → Bytes) (a : Nat → Nat) (k : Nat) : Byte :=
  data (blockNo data a (k / bSize)) (k % bSize)

/-- The first `size` bytes of the inode with addresses `a`. -/
def contentOf (data : Nat → Bytes) (a : Nat → Nat) (size : Nat) : List Byte :=
  (List.range size).map (byteAt data a)

@[simp] theorem length_contentOf (size : Nat) : (contentOf data a size).length = size := by
  simp [contentOf]

/-- All blocks of the first `size` bytes are there. -/
def Covers (data : Nat → Bytes) (a : Nat → Nat) (size : Nat) : Prop :=
  ∀ i, i * bSize < size → blockNo data a i ≠ 0

theorem contentOf_congr {a' : Nat → Nat}
    (same : ∀ k, k < size → byteAt data' a' k = byteAt data a k) :
    contentOf data' a' size = contentOf data a size := by
  refine List.map_congr_left fun k member => ?_
  exact same k (List.mem_range.mp member)

theorem Grows.content_other (grows : Grows sb inum data data' A A') (other : j ≠ inum)
    (covers : Covers data (A j) size) : contentOf data' (A' j) size = contentOf data (A j) size := by
  refine contentOf_congr fun k below => ?_
  have kept := grows.other other (k / bSize)
  unfold byteAt
  rw [kept.1, kept.2 (covers _ (Nat.lt_of_le_of_lt (Nat.div_mul_le_self k bSize) below))]

theorem Grows.covers_other (grows : Grows sb inum data data' A A') (other : j ≠ inum)
    (covers : Covers data (A j) size) : Covers data' (A' j) size := by
  intro i below
  rw [(grows.other other i).1]
  exact covers i below

end Blocks

end OsAudio.Fs

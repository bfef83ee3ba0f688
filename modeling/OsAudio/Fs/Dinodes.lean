import OsAudio.Fs.Files

/-!
# Inodes on the disk

The inodes that the blocks of inodes hold, with the contents their addresses lead to, and what
storing one inode changes: the others stay as they are.
-/
namespace OsAudio.Fs
open OsAudio.Lib
open Function (update update_self update_of_ne)

/-! ## The format -/

/-- The numbers fit into the fields. -/
structure Dinode.Small (d : Dinode) : Prop where
  type : d.type < 65536
  major : d.major < 65536
  minor : d.minor < 65536
  nlink : d.nlink < 65536
  size : d.size < 4294967296
  addrs : ∀ i, i ≤ nDirect → d.addrs i < 4294967296

/-- The inode as the disk has it: only the first addresses are stored. -/
def Dinode.trim (d : Dinode) : Dinode :=
  { d with addrs := fun i => if i < nDirect + 1 then d.addrs i else 0 }

/-- Position `i` is not in the part of the block that inode `inum` takes. -/
def OffDinode (inum i : Nat) : Prop := i < dinodeOff inum ∨ dinodeOff inum + 64 ≤ i

section Format
variable {bytes bytes' : Bytes} {inum : Nat} {d : Dinode}

theorem loadDinode_congr (same : ∀ i, ¬ OffDinode inum i → bytes' i = bytes i) :
    loadDinode bytes' inum = loadDinode bytes inum := by
  have field : ∀ o n, o + n ≤ 64 →
      bytes'.get (dinodeOff inum + o) n = bytes.get (dinodeOff inum + o) n := by
    intro o n inside
    refine Bytes.get_congr fun i low high => same i ?_
    unfold OffDinode
    omega
  have addrs : (fun i => if i < nDirect + 1 then bytes'.get (dinodeOff inum + 12 + 4 * i) 4 else 0) =
      fun i => if i < nDirect + 1 then bytes.get (dinodeOff inum + 12 + 4 * i) 4 else 0 := by
    funext i
    split
    · next below =>
      have := field (12 + 4 * i) 4 (by unfold nDirect at below; omega)
      rwa [← Nat.add_assoc] at this
    · rfl
  have type := field 0 2 (by omega)
  rw [Nat.add_zero] at type
  unfold loadDinode
  simp only [type, field 2 2 (by omega), field 4 2 (by omega), field 6 2 (by omega),
    field 8 4 (by omega), addrs]

theorem storeDinode_off {i : Nat} (off : OffDinode inum i) : storeDinode bytes inum d i = bytes i := by
  unfold OffDinode at off
  unfold storeDinode nDirect
  simp only [Bytes.put]
  rw [Bytes.copy_outside (by omega), Bytes.copy_outside (by omega), Bytes.copy_outside (by omega),
    Bytes.copy_outside (by omega), Bytes.copy_outside (by omega), Bytes.copy_outside (by omega)]

theorem freshDinode_off {i type : Nat} (off : OffDinode inum i) :
    freshDinode bytes inum type i = bytes i := by
  unfold OffDinode at off
  unfold freshDinode Bytes.put
  rw [Bytes.copy_outside (by omega), Bytes.copy_outside (by omega)]

theorem loadDinode_storeDinode (small : d.Small) : loadDinode (storeDinode bytes inum d) inum = d.trim := by
  obtain ⟨o, off⟩ : ∃ o, o = dinodeOff inum := ⟨_, rfl⟩
  have addrs : (fun i => if i < nDirect + 1 then
      (storeDinode bytes inum d).get (o + 12 + 4 * i) 4 else 0) = d.trim.addrs := by
    funext i
    simp only [Dinode.trim]
    split
    · next below =>
      unfold storeDinode
      rw [← off, Bytes.get_copy_inside (by omega) (by omega), show o + 12 + 4 * i - (o + 12) = 4 * i by omega]
      exact get_sectorBytes (small.addrs i (by omega))
    · rfl
  unfold loadDinode
  simp only [← off, addrs]
  have word : (4294967296 : Nat) = 256 ^ 4 := by decide
  have half : (65536 : Nat) = 256 ^ 2 := by decide
  unfold storeDinode
  simp only [← off]
  congr 1
  · rw [Bytes.get_copy_outside (by omega), Bytes.get_put_outside (by omega),
      Bytes.get_put_outside (by omega), Bytes.get_put_outside (by omega),
      Bytes.get_put_outside (by omega)]
    exact Bytes.get_put (half ▸ small.type)
  · rw [Bytes.get_copy_outside (by omega), Bytes.get_put_outside (by omega),
      Bytes.get_put_outside (by omega), Bytes.get_put_outside (by omega)]
    exact Bytes.get_put (half ▸ small.major)
  · rw [Bytes.get_copy_outside (by omega), Bytes.get_put_outside (by omega),
      Bytes.get_put_outside (by omega)]
    exact Bytes.get_put (half ▸ small.minor)
  · rw [Bytes.get_copy_outside (by omega), Bytes.get_put_outside (by omega)]
    exact Bytes.get_put (half ▸ small.nlink)
  · rw [Bytes.get_copy_outside (by omega)]
    exact Bytes.get_put (word ▸ small.size)

theorem loadDinode_freshDinode {type : Nat} (small : type < 65536) :
    loadDinode (freshDinode bytes inum type) inum = ⟨type, 0, 0, 0, 0, fun _ => 0⟩ := by
  obtain ⟨o, off⟩ : ∃ o, o = dinodeOff inum := ⟨_, rfl⟩
  have half : (65536 : Nat) = 256 ^ 2 := by decide
  have clear : ∀ k n, 2 ≤ k → k + n ≤ 64 → (freshDinode bytes inum type).get (o + k) n = 0 := by
    intro k n high inside
    unfold freshDinode
    rw [← off, Bytes.get_put_outside (by omega), Bytes.get_copy_inside (by omega) (by omega), Bytes.get_zero]
  have addrs : (fun i => if i < nDirect + 1 then
      (freshDinode bytes inum type).get (o + 12 + 4 * i) 4 else 0) = fun _ => 0 := by
    funext i
    split
    · next below =>
      rw [Nat.add_assoc]
      exact clear _ 4 (by omega) (by unfold nDirect at below; omega)
    · rfl
  have first : (freshDinode bytes inum type).get o 2 = type := by
    unfold freshDinode
    rw [← off]
    exact Bytes.get_put (half ▸ small)
  unfold loadDinode
  simp only [← off, addrs, first, clear 2 2 (by omega) (by omega), clear 4 2 (by omega) (by omega),
    clear 6 2 (by omega) (by omega), clear 8 4 (by omega) (by omega)]

theorem loadDinode_small (bytes : Bytes) (inum : Nat) : (loadDinode bytes inum).Small := by
  have half : (65536 : Nat) = 256 ^ 2 := by decide
  have word : (4294967296 : Nat) = 256 ^ 4 := by decide
  refine ⟨?_, ?_, ?_, ?_, ?_, fun i le => ?_⟩
  · exact half ▸ Bytes.get_lt ..
  · exact half ▸ Bytes.get_lt ..
  · exact half ▸ Bytes.get_lt ..
  · exact half ▸ Bytes.get_lt ..
  · exact word ▸ Bytes.get_lt ..
  · simp only [loadDinode]
    rw [if_pos (by omega)]
    exact word ▸ Bytes.get_lt ..

end Format

/-! ## The inodes of a disk -/

/-- Inode `inum` on the disk. -/
def dinodeOf (data : Nat → Bytes) (inum : Nat) : Dinode := loadDinode (data (iblock inum)) inum

/-- The inode with its content. -/
def nodeOf (data : Nat → Bytes) (inum : Nat) : Node :=
  let d := dinodeOf data inum
  ⟨⟨d.type, d.major, d.minor, d.nlink⟩, if d.type = 0 then [] else contentOf data d.addrs d.size⟩

/-- The addresses of the allocated inodes. -/
def addrsOf (sb : Superblock) (data : Nat → Bytes) (inum : Nat) : Nat → Nat :=
  if inum < sb.ninodes ∧ (dinodeOf data inum).type ≠ 0 then (dinodeOf data inum).addrs else fun _ => 0

/-- The content of an inode of size `size` with addresses `a` is there, and nothing beyond it. -/
structure Filled (data : Nat → Bytes) (a : Nat → Nat) (size : Nat) : Prop where
  small : size ≤ maxFile * bSize
  covers : Covers data a size
  tight : ∀ i, i < maxFile → size ≤ i * bSize → blockNo data a i = 0

/-- The disk is a file system as far as blocks are concerned: no block has two owners, the bitmap
is exact and no file has holes. -/
structure Intact (sb : Superblock) (data : Nat → Bytes) : Prop where
  storage : Storage sb data (addrsOf sb data)
  filled : ∀ j < sb.ninodes, (dinodeOf data j).type ≠ 0 →
    Filled data (dinodeOf data j).addrs (dinodeOf data j).size

section Disk
variable {sb : Superblock} {data data' : Nat → Bytes} {bytes : Bytes} {inum j : Nat} {a a' : Nat → Nat}

theorem dinodeOf_update_self : dinodeOf (update data (iblock inum) bytes) inum =
    loadDinode bytes inum := by
  rw [dinodeOf, update_self]

theorem dinodeOf_update_other (off : ∀ i, OffDinode inum i → bytes i = data (iblock inum) i)
    (other : j ≠ inum) : dinodeOf (update data (iblock inum) bytes) j = dinodeOf data j := by
  unfold dinodeOf
  by_cases block : iblock j = iblock inum
  · rw [block, update_self]
    refine loadDinode_congr fun i inside => off i ?_
    unfold OffDinode dinodeOff iblock ipb at *
    omega
  · rw [update_of_ne block]

theorem dinodeOf_congr (same : data' (iblock j) = data (iblock j)) : dinodeOf data' j = dinodeOf data j := by
  rw [dinodeOf, same]
  rfl

theorem blockNo_ext (same : ∀ i, i ≤ nDirect → a' i = a i) (i : Nat) :
    blockNo data a' i = blockNo data a i := by
  unfold blockNo
  rw [same nDirect (Nat.le_refl _)]
  split
  · exact same i (by omega)
  · rfl

theorem contentOf_ext (same : ∀ i, i ≤ nDirect → a' i = a i) (size : Nat) :
    contentOf data a' size = contentOf data a size := by
  refine contentOf_congr fun k _ => ?_
  unfold byteAt
  rw [blockNo_ext same]

theorem Filled.ext {size : Nat} (filled : Filled data a size) (same : ∀ i, i ≤ nDirect → a' i = a i) :
    Filled data a' size := by
  refine ⟨filled.small, fun i below => ?_, fun i inside beyond => ?_⟩
  · rw [blockNo_ext same]
    exact filled.covers i below
  · rw [blockNo_ext same]
    exact filled.tight i inside beyond

theorem Filled.empty (none : ∀ i, i ≤ nDirect → a i = 0) : Filled data a 0 := by
  refine ⟨Nat.zero_le _, nofun, fun i _ _ => ?_⟩
  rw [blockNo_ext (a := fun _ => 0) none]
  exact blockNo_zero (fun _ => rfl) i

theorem iblock_low (layout : Layout sb) (below : inum < sb.ninodes) :
    iblock inum < sb.ninodes / ipb + 3 ∧ iblock inum < sb.dataStart := by
  have := layout.fits
  have : inum / 8 ≤ sb.ninodes / 8 := Nat.div_le_div_right (by omega)
  unfold iblock Superblock.dataStart bpb ipb
  omega

theorem Intact.addrsOf_eq (below : j < sb.ninodes) (used : (dinodeOf data j).type ≠ 0) :
    addrsOf sb data j = (dinodeOf data j).addrs := if_pos ⟨below, used⟩

theorem addrsOf_free (free : ¬ (j < sb.ninodes ∧ (dinodeOf data j).type ≠ 0)) :
    addrsOf sb data j = fun _ => 0 := if_neg free

/-- Contents do not depend on the blocks of inodes. -/
theorem Filled.content_inodes {size t : Nat} {A : Nat → Nat → Nat} (storage : Storage sb data A)
    (layout : Layout sb) (below : t < sb.ninodes / ipb + 3) (bytes : Bytes)
    (filled : Filled data (A j) size) :
    Filled (update data t bytes) (A j) size ∧
      contentOf (update data t bytes) (A j) size = contentOf data (A j) size := by
  obtain ⟨-, same, high⟩ := storage.write_inodes layout below bytes
  refine ⟨⟨filled.small, fun i inside => ?_, fun i inside beyond => ?_⟩,
    contentOf_congr fun k inside => ?_⟩
  · rw [same]
    exact filled.covers i inside
  · rw [same]
    exact filled.tight i inside beyond
  · have some := filled.covers (k / bSize) (Nat.lt_of_le_of_lt (Nat.div_mul_le_self k bSize) inside)
    unfold byteAt
    rw [same, high _ (storage.range some).1]

/-- One inode is stored; `A` are the addresses of all inodes once it is. -/
structure Storing (sb : Superblock) (data : Nat → Bytes) (A : Nat → Nat → Nat) (inum : Nat)
    (bytes : Bytes) : Prop where
  layout : Layout sb
  below : inum < sb.ninodes
  storage : Storage sb data A
  others : ∀ j, j ≠ inum → A j = addrsOf sb data j
  off : ∀ i, OffDinode inum i → bytes i = data (iblock inum) i
  addrs : ∀ i, i ≤ nDirect →
    A inum i = if (loadDinode bytes inum).type = 0 then 0 else (loadDinode bytes inum).addrs i
  rest : ∀ j < sb.ninodes, j ≠ inum → (dinodeOf data j).type ≠ 0 →
    Filled data (dinodeOf data j).addrs (dinodeOf data j).size
  filled : (loadDinode bytes inum).type ≠ 0 → Filled data (A inum) (loadDinode bytes inum).size

variable {A : Nat → Nat → Nat}

section
variable (storing : Storing sb data A inum bytes)
include storing

theorem Storing.addrsOf_other (other : j ≠ inum) :
    addrsOf sb (update data (iblock inum) bytes) j = A j := by
  rw [storing.others j other]
  unfold addrsOf
  rw [dinodeOf_update_other storing.off other]

theorem Storing.addrsOf_self {i : Nat} (le : i ≤ nDirect) :
    addrsOf sb (update data (iblock inum) bytes) inum i = A inum i := by
  rw [storing.addrs i le]
  unfold addrsOf
  rw [dinodeOf_update_self]
  split
  · next used => rw [if_neg used.2]
  · next free =>
    have zero : (loadDinode bytes inum).type = 0 := by
      by_contra used
      exact free ⟨storing.below, used⟩
    rw [if_pos zero]

theorem Storing.blocks (j i : Nat) :
    blockNo (update data (iblock inum) bytes)
      (addrsOf sb (update data (iblock inum) bytes) j) i =
      blockNo (update data (iblock inum) bytes) (A j) i := by
  by_cases here : j = inum
  · subst here
    exact blockNo_ext (fun k le => storing.addrsOf_self le) i
  · rw [storing.addrsOf_other here]

/-- The other inodes and their contents stay. -/
theorem Storing.node_other (below : j < sb.ninodes) (other : j ≠ inum) :
    nodeOf (update data (iblock inum) bytes) j = nodeOf data j := by
  unfold nodeOf
  rw [dinodeOf_update_other storing.off other]
  by_cases free : (dinodeOf data j).type = 0
  · simp only [if_pos free]
  · have filled := storing.rest j below other free
    dsimp only
    rw [← Intact.addrsOf_eq below free, ← storing.others j other] at filled ⊢
    simp only [if_neg free, (filled.content_inodes storing.storage storing.layout
      (iblock_low storing.layout storing.below).1 bytes).2]

theorem Storing.node_self :
    nodeOf (update data (iblock inum) bytes) inum =
      let d := loadDinode bytes inum
      ⟨⟨d.type, d.major, d.minor, d.nlink⟩, if d.type = 0 then [] else contentOf data (A inum) d.size⟩ := by
  unfold nodeOf
  rw [dinodeOf_update_self]
  by_cases free : (loadDinode bytes inum).type = 0
  · simp only [if_pos free]
  · have same : ∀ i, i ≤ nDirect → (loadDinode bytes inum).addrs i = A inum i := by
      intro i le
      rw [storing.addrs i le, if_neg free]
    simp only [if_neg free]
    rw [contentOf_ext same, ((storing.filled free).content_inodes storing.storage
      storing.layout (iblock_low storing.layout storing.below).1 bytes).2]

theorem Storing.intact : Intact sb (update data (iblock inum) bytes) := by
  have low := (iblock_low storing.layout storing.below).1
  obtain ⟨storage, -⟩ := storing.storage.write_inodes storing.layout low bytes
  refine ⟨⟨storage.low, storage.owned.congr (fun _ _ => Iff.rfl) fun y => storing.blocks y.1 y.2⟩, ?_⟩
  intro j below used
  by_cases here : j = inum
  · subst here
    rw [dinodeOf_update_self] at used ⊢
    refine ((storing.filled used).content_inodes storing.storage storing.layout low bytes).1.ext fun i le => ?_
    rw [storing.addrs i le, if_neg used]
  · rw [dinodeOf_update_other storing.off here] at used ⊢
    have filled := storing.rest j below here used
    rw [← Intact.addrsOf_eq below used, ← storing.others j here] at filled ⊢
    exact (filled.content_inodes storing.storage storing.layout low bytes).1

end

/-- An inode without blocks is stored where there was one without blocks. -/
theorem Intact.storing (intact : Intact sb data) (layout : Layout sb) (below : inum < sb.ninodes)
    (off : ∀ i, OffDinode inum i → bytes i = data (iblock inum) i)
    (none : ∀ i, i ≤ nDirect → addrsOf sb data inum i = 0)
    (empty : (loadDinode bytes inum).type ≠ 0 → (loadDinode bytes inum).size = 0)
    (blank : (loadDinode bytes inum).type ≠ 0 → ∀ i, i ≤ nDirect → (loadDinode bytes inum).addrs i = 0) :
    Storing sb data (addrsOf sb data) inum bytes := by
  refine ⟨layout, below, intact.storage, fun _ _ => rfl, off, fun i le => ?_,
    fun j inside _ used => intact.filled j inside used, fun used => ?_⟩
  · rw [none i le]
    split
    · rfl
    · next used => exact (blank used i le).symm
  · rw [empty used]
    exact Filled.empty none

/-! ## Contents that change -/

section Grows
variable {A' : Nat → Nat → Nat}

section
variable (grows : Grows sb inum data data' A A') (layout : Layout sb)
include grows layout

theorem Grows.dinode (below : j < sb.ninodes) : dinodeOf data' j = dinodeOf data j := by
  have low := iblock_low layout below
  refine dinodeOf_congr (grows.frame _ (Or.inl low.1) fun i same => ?_)
  by_cases none : blockNo data' (A' inum) i = 0
  · rw [none] at same
    unfold iblock ipb at same
    omega
  · have := (grows.storage.range none).1
    omega

theorem Grows.addrsOf (j : Nat) : Fs.addrsOf sb data' j = Fs.addrsOf sb data j := by
  by_cases below : j < sb.ninodes
  · unfold Fs.addrsOf
    rw [grows.dinode layout below]
  · rw [addrsOf_free fun used => below used.1, addrsOf_free fun used => below used.1]

/-- The other inodes keep their contents. -/
theorem Grows.rest (below : j < sb.ninodes) (other : j ≠ inum) (addrs : A j = Fs.addrsOf sb data j)
    (intact : Intact sb data) :
    nodeOf data' j = nodeOf data j ∧
      ((dinodeOf data' j).type ≠ 0 → Filled data' (dinodeOf data' j).addrs (dinodeOf data' j).size) := by
  have same := grows.dinode layout below
  unfold nodeOf
  rw [same]
  by_cases free : (dinodeOf data j).type = 0
  · simp only [if_pos free]
    exact ⟨trivial, fun used => absurd free used⟩
  · have filled := intact.filled j below free
    rw [Intact.addrsOf_eq below free] at addrs
    rw [← addrs] at filled
    have kept := grows.content_other other filled.covers
    have covers := grows.covers_other other filled.covers
    have tight : ∀ i, i < maxFile → (dinodeOf data j).size ≤ i * bSize → blockNo data' (A' j) i = 0 := by
      intro i inside beyond
      rw [(grows.other other i).1]
      exact filled.tight i inside beyond
    rw [grows.others j other, addrs] at kept covers tight
    simp only [if_neg free]
    exact ⟨congrArg _ kept, fun _ => ⟨filled.small, covers, tight⟩⟩

end

end Grows

/-- An inode and its content depend on the block of the inode and on the data blocks. -/
theorem Intact.frame (intact : Intact sb data) (below : j < sb.ninodes)
    (inode : data' (iblock j) = data (iblock j))
    (same : ∀ t, sb.dataStart ≤ t → t < sb.dataEnd → data' t = data t) :
    dinodeOf data' j = dinodeOf data j ∧ nodeOf data' j = nodeOf data j ∧
      ((dinodeOf data j).type ≠ 0 → Filled data' (dinodeOf data j).addrs (dinodeOf data j).size) := by
  have dinode : dinodeOf data' j = dinodeOf data j := dinodeOf_congr inode
  refine ⟨dinode, ?_⟩
  unfold nodeOf
  rw [dinode]
  by_cases free : (dinodeOf data j).type = 0
  · simp only [if_pos free]
    exact ⟨trivial, fun used => absurd free used⟩
  obtain ⟨a, addrs⟩ : ∃ a, a = (dinodeOf data j).addrs := ⟨_, rfl⟩
  have filled := intact.filled j below free
  have high : ∀ i, blockNo data a i ≠ 0 → data' (blockNo data a i) = data (blockNo data a i) := by
    intro i some
    rw [addrs, ← Intact.addrsOf_eq below free] at some ⊢
    exact same _ (intact.storage.range some).1 (intact.storage.range some).2
  have blocks : ∀ i, blockNo data' a i = blockNo data a i := by
    refine blockNo_congr fun some => ?_
    have indirect := high maxFile
    rw [blockNo_indirect] at indirect
    exact indirect some
  simp only [if_neg free]
  rw [← addrs] at filled ⊢
  refine ⟨congrArg _ (contentOf_congr fun k inside => ?_), fun _ => ⟨filled.small, fun i inside => ?_,
    fun i inside beyond => ?_⟩⟩
  · have some := filled.covers (k / bSize) (Nat.lt_of_le_of_lt (Nat.div_mul_le_self k bSize) inside)
    rw [byteAt, byteAt, blocks, high _ some]
  · rw [blocks]
    exact filled.covers i inside
  · rw [blocks]
    exact filled.tight i inside beyond

/-- Inodes and contents do not depend on the bitmap. -/
theorem Intact.rebit (intact : Intact sb data) (layout : Layout sb)
    (same : ∀ t, OffBitmap sb t → data' t = data t) (below : j < sb.ninodes) :
    dinodeOf data' j = dinodeOf data j ∧ nodeOf data' j = nodeOf data j ∧
      ((dinodeOf data j).type ≠ 0 → Filled data' (dinodeOf data j).addrs (dinodeOf data j).size) :=
  intact.frame below (same _ (Or.inl (iblock_low layout below).1)) fun t high _ => same t (Or.inr high)

end Disk

end OsAudio.Fs

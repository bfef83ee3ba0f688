import OsAudio.Fs.Dinodes
import OsAudio.Fs.InodeRun
import OsAudio.Lib.Count
import OsAudio.Mkfs.Program

/-!
# What mkfs builds

Until its end mkfs keeps the used blocks in a counter only; `Build.marked` is the image with the
bitmap that this counter stands for.  On it the blocks of the inodes obey the same invariant as
on the disk of the running kernel, and every inode holds exactly the bytes appended to it.

The sectors of the log are ordinary sectors to mkfs, so `buildSb` counts them as data.
-/
namespace OsAudio.Mkfs
open OsAudio.Lib OsAudio.Fs
open Function (update update_comm update_idem update_self update_of_ne update_eq_self)

/-- The layout mkfs works with. -/
def buildSb : Superblock := ⟨1024, 995, 200, 0⟩

theorem buildSb_start : buildSb.dataStart = 29 := rfl

theorem buildSb_end : buildSb.dataEnd = 1024 := rfl

theorem buildSb_layout : Layout buildSb := ⟨by decide, by decide⟩

/-! ## The bitmap -/

/-- The buffer `balloc` writes. -/
def usedBits (used : Nat) : Bytes := upTo used (fun i buf => buf.setBit i) Bytes.zero

theorem testBit_usedBits (used c : Nat) : (usedBits used).testBit c = decide (c < used) := by
  induction used with
  | zero => simp [usedBits, upTo, Bytes.testBit, Bytes.zero]
  | succ used ih =>
    change ((usedBits used).setBit used).testBit c = _
    rw [Bytes.testBit_setBit, ih, ← Bool.decide_or]
    apply decide_eq_decide.mpr
    omega

/-- The image with the bitmap written. -/
def Build.marked (s : Build) : Nat → Bytes := update s.disk 28 (usedBits s.freeblock)

section Marked
variable {s : Build}

theorem marked_of_ne {t : Nat} (other : t ≠ 28) : s.marked t = s.disk t :=
  update_of_ne other ..

theorem inUse_marked {c : Nat} (covered : c / bpb ≤ buildSb.size / bpb) :
    inUse buildSb s.marked c = decide (c < s.freeblock) := by
  have first : c / bpb = 0 := Nat.le_zero.mp covered
  have block : bblock c buildSb.ninodes = 28 := by
    rw [bblock, first]
    rfl
  have small : c % bpb = c := by
    unfold bpb at *
    omega
  rw [inUse, block, small, Build.marked, update_self, testBit_usedBits]

end Marked

/-! ## The calls -/

section Ops
variable {s : Build} {E : Abort → Build → Prop}

/-- The state after `wsect`. -/
def Build.store (s : Build) (sec : Nat) (buf : Bytes) : Build :=
  { s with disk := update s.disk sec buf, length := max s.length (sec + 1) }

/-- The state after a block was taken from `freeblock`. -/
def Build.take (s : Build) : Build :=
  { s with
    freeblock := s.freeblock + 1
    usedblocks := s.usedblocks + 1
    allocated := s.allocated ++ [s.freeblock] }

variable {sec : Nat}

theorem wp_rsect {Q : Bytes → Build → Prop} (inside : sec < s.length → Q (s.disk sec) s)
    (outside : s.length ≤ sec → E (.rsect sec) s) : buildMachine.Wp (rsect sec) s Q E := by
  apply Machine.Wp.op
  by_cases below : sec < s.length
  · simp only [buildMachine, if_pos below]
    exact inside below
  · simp only [buildMachine, if_neg below]
    exact outside (Nat.not_lt.mp below)

theorem wp_wsect {buf : Bytes} {Q : Unit → Build → Prop} (next : Q () (s.store sec buf)) :
    buildMachine.Wp (wsect sec buf) s Q E :=
  Machine.Wp.op next

theorem wp_nextBlock {Q : Nat → Build → Prop} (next : Q s.freeblock s.take) :
    buildMachine.Wp nextBlock s Q E :=
  Machine.Wp.op next

theorem marked_store {buf : Bytes} (other : sec ≠ 28) :
    (s.store sec buf).marked = update s.marked sec buf :=
  update_comm other ..

end Ops

/-! ## Blocks -/

/-- The counters agree, and the blocks from `freeblock` on are empty. -/
structure Based (s : Build) : Prop where
  length : s.length = 1024
  used : s.usedblocks = s.freeblock
  low : 29 ≤ s.freeblock
  high : s.freeblock ≤ 1024
  given : s.allocated = List.range' 29 (s.freeblock - 29)
  zeroed : ∀ t, s.freeblock ≤ t → s.marked t = Bytes.zero

/-- What does not change while blocks are allocated and written. -/
structure Kept (s s' : Build) : Prop where
  length : s'.length = s.length
  freeinode : s'.freeinode = s.freeinode
  inodes : s'.inodes = s.inodes
  system : ∀ t, 0 < t → t < 29 → s'.disk t = s.disk t

section Blocks
variable {s s' : Build} {A A' : Nat → Nat → Nat} {inum i r : Nat} {din : Dinode}
  {E : Abort → Build → Prop}

theorem Kept.refl (s : Build) : Kept s s := ⟨rfl, rfl, rfl, fun _ _ _ => rfl⟩

theorem Kept.trans {s'' : Build} (first : Kept s s') (second : Kept s' s'') : Kept s s'' where
  length := second.length.trans first.length
  freeinode := second.freeinode.trans first.freeinode
  inodes := second.inodes.trans first.inodes
  system := fun t low high => (second.system t low high).trans (first.system t low high)

theorem Kept.take (s : Build) : Kept s s.take := ⟨rfl, rfl, rfl, fun _ _ _ => rfl⟩

theorem Kept.store (length : s.length = 1024) {sec : Nat} (low : 29 ≤ sec) (high : sec < 1024)
    (buf : Bytes) : Kept s (s.store sec buf) := by
  refine ⟨?_, rfl, rfl, fun t _ below => update_of_ne (by omega) ..⟩
  simp only [Build.store, length]
  omega

theorem Based.take (based : Based s) (room : s.freeblock < 1024) : Based s.take := by
  have low := based.low
  constructor
  · exact based.length
  · exact congrArg (· + 1) based.used
  · simp only [Build.take]
    omega
  · exact room
  · have count : s.freeblock + 1 - 29 = s.freeblock - 29 + 1 := by omega
    simp only [Build.take, based.given]
    rw [count, List.range'_concat]
    congr 2
    omega
  · intro t above
    simp only [Build.take] at above
    have other : t ≠ 28 := by omega
    have zero := based.zeroed t (by omega)
    rw [marked_of_ne other] at zero ⊢
    exact zero

theorem Based.store (based : Based s) {sec : Nat} (low : 29 ≤ sec) (high : sec < s.freeblock)
    (buf : Bytes) : Based (s.store sec buf) := by
  have other : sec ≠ 28 := by omega
  have top := based.high
  constructor
  · simp only [Build.store, based.length]
    omega
  · exact based.used
  · exact based.low
  · exact based.high
  · exact based.given
  · intro t above
    change s.freeblock ≤ t at above
    rw [marked_store other, update_of_ne (by omega)]
    exact based.zeroed t above

theorem covered_of_lt {c : Nat} (below : c ≤ 1024) : c / bpb ≤ buildSb.size / bpb := by
  unfold bpb
  change c / 4096 ≤ 0
  omega

theorem Based.vacant (based : Based s) (room : s.freeblock < 1024) :
    Vacant buildSb s.marked s.freeblock := by
  refine ⟨based.low, room, ?_⟩
  rw [inUse_marked (covered_of_lt based.high)]
  simp

/-- Taking the next block is an allocation on the marked image. -/
theorem Based.marked_take (based : Based s) (room : s.freeblock < 1024) :
    s.take.marked = allocData buildSb s.marked s.freeblock := by
  have low := based.low
  have first : s.freeblock / bpb = 0 := by
    unfold bpb
    omega
  have small : s.freeblock % bpb = s.freeblock := by
    unfold bpb
    omega
  have block : bblock s.freeblock buildSb.ninodes = 28 := by
    rw [bblock, first]
    rfl
  have bits : (s.marked 28).setBit s.freeblock = usedBits (s.freeblock + 1) := by
    rw [Build.marked, update_self]
    rfl
  rw [allocData, block, small, bits]
  funext t
  by_cases here : t = s.freeblock
  · have other : t ≠ 28 := by omega
    have zero := based.zeroed t (by omega)
    rw [marked_of_ne other] at zero
    rw [marked_of_ne other, here, update_self, ← here]
    exact zero
  · rw [update_of_ne here]
    simp only [Build.marked, update_idem]
    rfl

/-- A block of an inode lies between the bitmap and the next free block. -/
theorem Storage.block_range (storage : Storage buildSb s.marked A)
    (some : blockNo s.marked (A inum) i ≠ 0) :
    29 ≤ blockNo s.marked (A inum) i ∧ blockNo s.marked (A inum) i < 1024 ∧
      blockNo s.marked (A inum) i < s.freeblock := by
  have range := storage.range some
  rw [buildSb_start, buildSb_end] at range
  have set := storage.inUse some
  rw [inUse_marked (covered_of_lt (by omega))] at set
  exact ⟨range.1, range.2, by simpa using set⟩

theorem Mapped.found {data : Nat → Bytes} {sb : Superblock} (storage : Storage sb data A)
    (block : blockNo data (A inum) i = r) (some : r ≠ 0) : Mapped sb inum i r data data A A :=
  ⟨Grows.refl storage, block, some, fun _ _ _ => rfl, fun _ _ _ => rfl⟩

section
variable (based : Based s) (storage : Storage buildSb s.marked A) (addrs : din.addrs = A inum)
include based storage addrs

/-- `din.addrs[i]` is there, or is the next block. -/
theorem wp_addrFor {Q : Dinode → Build → Prop} (le : i ≤ nDirect)
    (full : A inum i = 0 → s.freeblock = 1024 → ∀ s', s'.length = 1024 →
      Q { din with addrs := update din.addrs i 1024 } s')
    (next : ∀ A' s', Mapped buildSb inum (addrPlace i) (A' inum i) s.marked s'.marked A A' →
      (A inum i = 0 → s'.marked (A' inum i) = Bytes.zero) → Based s' → Kept s s' →
      s'.freeblock = s.freeblock + (if A inum i = 0 then 1 else 0) →
      Q { din with addrs := A' inum } s') : buildMachine.Wp (addrFor i din) s Q E := by
  unfold addrFor
  rw [addrs]
  by_cases empty : A inum i = 0
  · rw [if_pos empty]
    apply Machine.Wp.seq
    apply wp_nextBlock
    apply Machine.Wp.ret
    by_cases room : s.freeblock < 1024
    · obtain ⟨mapped, -⟩ := storage.take_addr buildSb_layout (based.vacant room) le empty
      rw [← based.marked_take room] at mapped
      obtain ⟨A', changed⟩ : ∃ A', A' = update A inum
        (update (A inum) i s.freeblock) := ⟨_, rfl⟩
      have addrs' : A' inum = update (A inum) i s.freeblock := by
        rw [changed, update_self]
      have here : A' inum i = s.freeblock := by
        rw [addrs', update_self]
      rw [← changed, ← here] at mapped
      rw [← addrs']
      have fresh : s.take.marked (A' inum i) = Bytes.zero := by
        rw [here, based.marked_take room]
        exact allocData_self
      apply next A' s.take mapped (fun _ => fresh) (based.take room) (Kept.take s)
      rw [if_pos empty]
      rfl
    · have last : s.freeblock = 1024 := by
        have := based.high
        omega
      have result := full empty last s.take based.length
      rwa [addrs, ← last] at result
  · rw [if_neg empty]
    apply Machine.Wp.ret
    have found := Mapped.found storage (blockNo_addrPlace le) empty
    have result := next A s found (fun none => absurd none empty) based (Kept.refl s)
      (by rw [if_neg empty, Nat.add_zero])
    rwa [← addrs] at result

/-- The indirect block is there; its entry is, or becomes the next block. -/
theorem wp_entryFor {Q : Nat × Dinode → Build → Prop} {fbn : Nat} (high : nDirect ≤ fbn)
    (below : fbn < maxFile) (indirect : A inum nDirect ≠ 0)
    (full : blockNo s.marked (A inum) fbn = 0 → s.freeblock = 1024 → ∀ s', s'.length = 1024 →
      Q (1024, din) s') (next : ∀ x s', Mapped buildSb inum fbn x s.marked s'.marked A A →
      (blockNo s.marked (A inum) fbn = 0 → s'.marked x = Bytes.zero) → Based s' → Kept s s' →
      s'.freeblock = s.freeblock + (if blockNo s.marked (A inum) fbn = 0 then 1 else 0) →
      Q (x, din) s') :
    buildMachine.Wp (do
      let indirect ← rsect (din.addrs nDirect)
      if entry indirect (fbn - nDirect) = 0 then do
        let x ← nextBlock
        wsect (din.addrs nDirect) (indirect.put (4 * (fbn - nDirect)) 4 x)
        pure (x, din)
      else pure (entry indirect (fbn - nDirect), din)) s Q E := by
  have named : blockNo s.marked (A inum) maxFile = A inum nDirect := blockNo_indirect
  obtain ⟨low, top, used⟩ := Storage.block_range storage (named ▸ indirect)
  rw [named] at low top used
  have other : A inum nDirect ≠ 28 := by omega
  have value : blockNo s.marked (A inum) fbn = entry (s.disk (A inum nDirect)) (fbn - nDirect) := by
    rw [blockNo_entry high below, if_neg indirect, marked_of_ne other]
  rw [addrs]
  apply Machine.Wp.seq
  apply wp_rsect
  · intro _
    by_cases empty : entry (s.disk (A inum nDirect)) (fbn - nDirect) = 0
    · rw [if_pos empty]
      apply Machine.Wp.seq
      apply wp_nextBlock
      apply Machine.Wp.seq
      apply wp_wsect
      apply Machine.Wp.ret
      by_cases room : s.freeblock < 1024
      · obtain ⟨mapped, -⟩ := storage.take_entry buildSb_layout (based.vacant room) high below
          indirect (by rwa [marked_of_ne other])
        have stored : setEntry (allocData buildSb s.marked s.freeblock) (A inum nDirect)
            (fbn - nDirect) s.freeblock = (s.take.store (A inum nDirect)
              ((s.disk (A inum nDirect)).put (4 * (fbn - nDirect)) 4 s.freeblock)).marked := by
          rw [marked_store other, ← based.marked_take room, setEntry, marked_of_ne other]
          rfl
        have fresh : setEntry (allocData buildSb s.marked s.freeblock) (A inum nDirect)
            (fbn - nDirect) s.freeblock s.freeblock = Bytes.zero := by
          rw [setEntry, update_of_ne (by omega)]
          exact allocData_self
        rw [stored] at mapped fresh
        have taken := based.take room
        apply next _ _ mapped (fun _ => fresh)
        · exact taken.store low (Nat.lt_succ_of_lt used) _
        · exact (Kept.take s).trans (Kept.store taken.length low top _)
        · rw [value, if_pos empty]
          rfl
      · have last : s.freeblock = 1024 := by
          have := based.high
          omega
        rw [last]
        apply full (value.trans empty) last
        simp only [Build.store, Build.take, based.length]
        omega
    · rw [if_neg empty]
      apply Machine.Wp.ret
      have found := Mapped.found storage value empty
      have there : blockNo s.marked (A inum) fbn ≠ 0 := value ▸ empty
      exact next _ s found (fun none => absurd none there) based (Kept.refl s)
        (by rw [value, if_neg empty, Nat.add_zero])
  · intro beyond
    rw [based.length] at beyond
    omega

/-- The block with index `fbn` of the inode is found or allocated, while there are free sectors;
otherwise mkfs stops, or tries to use a sector behind the end of the image. -/
theorem wp_blockFor {Q : Nat × Dinode → Build → Prop} {fbn : Nat} (below : fbn < maxFile)
    (full : 1024 < s.freeblock + missing s.marked (A inum) fbn →
      (∀ w s', E w s') ∧ ∀ x d s', 1024 ≤ x → s'.length = 1024 → Q (x, d) s')
    (next : ∀ A' x s', Mapped buildSb inum fbn x s.marked s'.marked A A' →
      (blockNo s.marked (A inum) fbn = 0 → s'.marked x = Bytes.zero) → Based s' → Kept s s' →
      s'.freeblock = s.freeblock + missing s.marked (A inum) fbn →
      Q (x, { din with addrs := A' inum }) s') : buildMachine.Wp (blockFor fbn din) s Q E := by
  unfold blockFor
  by_cases direct : fbn < nDirect
  · rw [if_pos direct]
    have place : addrPlace fbn = fbn := if_pos direct
    have needs : missing s.marked (A inum) fbn = if A inum fbn = 0 then 1 else 0 := by
      have near : ¬ (nDirect ≤ fbn ∧ A inum nDirect = 0) := by omega
      rw [missing, if_neg near, blockNo_direct direct, Nat.zero_add]
    apply Machine.Wp.seq
    apply wp_addrFor based storage addrs (by omega)
    · intro empty last s' length
      apply Machine.Wp.ret
      refine (full ?_).2 _ _ _ ?_ length
      · rw [needs, if_pos empty, last]
        omega
      · simp
    · intro A' s' mapped fresh based' kept count
      apply Machine.Wp.ret
      rw [place] at mapped
      rw [← @blockNo_direct s.marked (A inum) fbn direct] at fresh
      exact next A' _ s' mapped fresh based' kept (by rw [count, needs])
  · rw [if_neg direct]
    have high : nDirect ≤ fbn := Nat.not_lt.mp direct
    have place : addrPlace nDirect = maxFile := if_neg (Nat.lt_irrefl _)
    have needs : missing s.marked (A inum) fbn = (if A inum nDirect = 0 then 1 else 0) +
        if blockNo s.marked (A inum) fbn = 0 then 1 else 0 := by
      simp only [missing, high, true_and]
    apply Machine.Wp.seq
    apply wp_addrFor based storage addrs (Nat.le_refl _)
    · -- The indirect block itself lies behind the end.
      intro empty last s' length
      have beyond := full (by rw [needs, if_pos empty, last]; omega)
      apply Machine.Wp.seq
      apply wp_rsect
      · intro inside
        simp only [update_self, length] at inside
        omega
      · intro _
        exact beyond.1 _ _
    · intro A₁ s₁ first _ based₁ kept₁ count₁
      rw [place] at first
      have indirect : A₁ inum nDirect ≠ 0 := first.some
      have rest : blockNo s₁.marked (A₁ inum) fbn = blockNo s.marked (A inum) fbn :=
        first.rest fbn (Nat.ne_of_lt below) (.inl below)
      apply wp_entryFor based₁ first.storage rfl high below indirect
      · intro empty last s' length
        rw [rest] at empty
        refine (full ?_).2 _ _ _ (Nat.le_refl _) length
        simp only [needs, empty, if_true]
        omega
      · intro x s₂ second fresh based₂ kept₂ count₂
        rw [rest] at fresh
        apply next A₁ x s₂ (first.after second high) fresh based₂ (kept₁.trans kept₂)
        rw [count₂, rest, count₁, needs, Nat.add_assoc]

end

end Blocks

/-! ## Contents -/

/-- How many blocks a file of `len` bytes takes, with its indirect block. -/
def blocksFor (len : Nat) : Nat := (len + 511) / 512 + if nDirect * 512 < len then 1 else 0

theorem blocksFor_mono {a b : Nat} (le : a ≤ b) : blocksFor a ≤ blocksFor b := by
  have rounded : (a + 511) / 512 ≤ (b + 511) / 512 := Nat.div_le_div_right (by omega)
  unfold blocksFor
  split_ifs <;> omega

/-- An inode with addresses `a` holds exactly the given bytes; the rest of its last block is zero. -/
structure Holding (data : Nat → Bytes) (a : Nat → Nat) (bytes : List Byte) : Prop where
  small : bytes.length ≤ maxFile * bSize
  blocks : ∀ i, i < maxFile → (blockNo data a i ≠ 0 ↔ i * bSize < bytes.length)
  indirect : a nDirect ≠ 0 ↔ nDirect * bSize < bytes.length
  content : contentOf data a bytes.length = bytes
  tail : ∀ k, bytes.length ≤ k → k / bSize < maxFile → blockNo data a (k / bSize) ≠ 0 →
    byteAt data a k = 0

section Contents
variable {data data' : Nat → Bytes} {A A' : Nat → Nat → Nat} {inum : Nat} {a : Nat → Nat}
  {bytes p : List Byte} {r n1 : Nat}

theorem Holding.covers (holding : Holding data a bytes) : Covers data a bytes.length := by
  intro i inside
  have small := holding.small
  refine (holding.blocks i ?_).mpr inside
  unfold bSize at *
  omega

theorem Holding.tight (holding : Holding data a bytes) (i : Nat) (inside : i < maxFile)
    (beyond : bytes.length ≤ i * bSize) : blockNo data a i = 0 := by
  by_contra some
  have := (holding.blocks i inside).mp some
  omega

/-- Byte `k` of what the inode holds. -/
theorem Holding.byteAt_eq (holding : Holding data a bytes) {k : Nat} (below : k < bytes.length) :
    byteAt data a k = bytes.getD k 0 := by
  have same := congrArg (fun l => l.getD k 0) holding.content
  simpa [contentOf, below] using same

/-- The other inodes hold what they held. -/
theorem Holding.other {sb : Superblock} (holding : Holding data (A inum) bytes) {j : Nat}
    (grows : Grows sb j data data' A A') (other : inum ≠ j) : Holding data' (A' inum) bytes := by
  constructor
  · exact holding.small
  · intro i below
    rw [(grows.other other i).1]
    exact holding.blocks i below
  · rw [grows.others inum other]
    exact holding.indirect
  · rw [grows.content_other other holding.covers]
    exact holding.content
  · intro k beyond below some
    obtain ⟨block, bytes⟩ := grows.other other (k / bSize)
    rw [block] at some
    rw [byteAt, block, bytes some]
    exact holding.tail k beyond below some

/-- How many blocks are missing for the next chunk. -/
theorem Holding.missing_eq (holding : Holding data a bytes) (some : 0 < n1)
    (chunk : n1 ≤ bSize - bytes.length % bSize) (below : bytes.length / bSize < maxFile) :
    blocksFor (bytes.length + n1) = blocksFor bytes.length + missing data a (bytes.length / bSize) := by
  have block := holding.blocks (bytes.length / bSize) below
  have indirect := holding.indirect
  unfold missing blocksFor
  by_cases start : bytes.length / bSize * bSize < bytes.length
  · have present := block.mpr start
    rw [if_neg present]
    by_cases far : nDirect * bSize < bytes.length
    · have there := indirect.mpr far
      simp only [there, and_false, if_false]
      unfold bSize nDirect at *
      split_ifs <;> omega
    · have near : ¬ nDirect ≤ bytes.length / bSize := by
        unfold bSize nDirect at *
        omega
      simp only [near, false_and, if_false]
      unfold bSize nDirect at *
      split_ifs <;> omega
  · have absent : blockNo data a (bytes.length / bSize) = 0 := by
      by_contra present
      exact start (block.mp present)
    rw [if_pos absent]
    by_cases far : nDirect * bSize < bytes.length
    · have there := indirect.mpr far
      simp only [there, and_false, if_false]
      unfold bSize nDirect at *
      split_ifs <;> omega
    · have none : a nDirect = 0 := by
        by_contra there
        exact far (indirect.mp there)
      simp only [none, and_true]
      unfold bSize nDirect at *
      split_ifs <;> omega

/-- The inode holds one chunk more, written into the block that was found for it. -/
theorem Holding.append (holding : Holding data (A inum) bytes)
    (mapped : Mapped buildSb inum (bytes.length / bSize) r data data' A A')
    (fresh : blockNo data (A inum) (bytes.length / bSize) = 0 → data' r = Bytes.zero)
    (below : bytes.length / bSize < maxFile) (some : 0 < n1)
    (chunk : n1 = min p.length (bSize - bytes.length % bSize)) :
    Holding (update data' r ((data' r).copy (bytes.length % bSize) n1 fun i => p.getD i 0))
      (A' inum) (bytes ++ p.take n1) := by
  obtain ⟨off, length⟩ : ∃ off, off = bytes.length := ⟨_, rfl⟩
  rw [← length] at mapped fresh below chunk ⊢
  have fits : n1 ≤ bSize - off % bSize := by omega
  have total : (bytes ++ p.take n1).length = off + n1 := by
    rw [List.length_append, List.length_take]
    omega
  obtain ⟨-, same, -⟩ := mapped.storage.write_block buildSb_layout mapped.block mapped.some below
    ((data' r).copy (off % bSize) n1 fun i => p.getD i 0)
  have byte : ∀ k, blockNo data' (A' inum) (k / bSize) ≠ 0 →
      byteAt (update data' r ((data' r).copy (off % bSize) n1 fun i => p.getD i 0)) (A' inum) k =
        if off ≤ k ∧ k < off + n1 then p.getD (k - off) 0 else byteAt data' (A' inum) k :=
    byteAt_write mapped.storage buildSb_layout mapped.block mapped.some below fits
  constructor
  · rw [total]
    unfold bSize at *
    omega
  · intro i inside
    rw [total, same]
    by_cases here : i = off / bSize
    · subst here
      rw [mapped.block]
      simp only [ne_eq, mapped.some, not_false_eq_true, true_iff]
      unfold bSize at *
      omega
    · rw [mapped.rest i here (.inl inside), holding.blocks i inside, ← length]
      unfold bSize at *
      omega
  · rw [total]
    by_cases near : off / bSize < nDirect
    · have far : maxFile ≠ off / bSize := by omega
      have kept := mapped.rest maxFile far (.inr near)
      rw [blockNo_indirect, blockNo_indirect] at kept
      rw [kept, holding.indirect, ← length]
      unfold bSize at *
      omega
    · have there : A' inum nDirect ≠ 0 := by
        intro none
        have value := mapped.block
        rw [blockNo_entry (Nat.not_lt.mp near) below, if_pos none] at value
        exact mapped.some value.symm
      have reached : nDirect * bSize ≤ off :=
        Nat.le_trans (Nat.mul_le_mul_right _ (Nat.not_lt.mp near)) (Nat.div_mul_le_self ..)
      simp only [ne_eq, there, not_false_eq_true, true_iff]
      exact Nat.lt_of_le_of_lt reached (Nat.lt_add_of_pos_right some)
  · rw [total]
    apply List.ext_getElem
    · simp [total]
    · intro k left right
      have inside : k < off + n1 := by simpa using left
      have present : blockNo data' (A' inum) (k / bSize) ≠ 0 := by
        by_cases old : k < off
        · have was := holding.covers (k / bSize) (by unfold bSize; omega)
          rw [mapped.keeps _ was]
          exact was
        · rw [show k / bSize = off / bSize by unfold bSize at *; omega, mapped.block]
          exact mapped.some
      simp only [contentOf, List.getElem_map, List.getElem_range]
      rw [byte k present]
      by_cases old : k < off
      · have was := holding.covers (k / bSize) (by unfold bSize; omega)
        have below' : k / bSize < maxFile := by
          unfold bSize at *
          omega
        rw [if_neg (by omega), byteAt, mapped.keeps _ was, mapped.bytes _ below' was]
        have value := holding.byteAt_eq (length ▸ old)
        rw [byteAt] at value
        rw [value, List.getElem_append_left (length ▸ old)]
        simp [length ▸ old]
      · rw [if_pos (by omega), List.getElem_append_right (by omega)]
        simp only [List.getElem_take, ← length]
        rw [List.getD_eq_getElem?_getD, List.getElem?_eq_getElem (by omega)]
        rfl
  · rw [total]
    intro k beyond inside present
    rw [same] at present
    rw [byte k present, if_neg (by omega)]
    by_cases here : k / bSize = off / bSize
    · rw [byteAt, here, mapped.block]
      by_cases absent : blockNo data (A inum) (off / bSize) = 0
      · rw [fresh absent]
        rfl
      · have old := mapped.keeps _ absent
        rw [mapped.block] at old
        rw [old, mapped.bytes _ below absent, ← here]
        exact holding.tail k (by omega) inside (here ▸ absent)
    · -- The blocks behind the one just written are not there.
      rw [mapped.rest _ here (.inl inside), holding.blocks _ inside, ← length] at present
      unfold bSize at *
      omega

end Contents

/-- The inodes with addresses `A` hold the files `F`, and nothing else is in the blocks. -/
structure Stored (s : Build) (A : Nat → Nat → Nat) (F : Nat → List Byte) : Prop extends Based s where
  storage : Storage buildSb s.marked A
  holding : ∀ j, Holding s.marked (A j) (F j)
  count : s.freeblock = 29 + ∑ j ∈ Finset.range 208, blocksFor (F j).length

/-- The file may grow to `len` bytes. -/
def Room (s : Build) (old len : Nat) : Prop :=
  len ≤ maxFile * bSize ∧ s.freeblock + blocksFor len ≤ 1024 + blocksFor old

section Append
variable {s s' : Build} {A A' : Nat → Nat → Nat} {F : Nat → List Byte} {inum : Nat} {p : List Byte}
  {E : Abort → Build → Prop}

/-- The file of one inode grows. -/
theorem Stored.grow {bytes : List Byte} {k : Nat} (stored : Stored s A F) (small : inum < 208)
    (based : Based s') (grows : Grows buildSb inum s.marked s'.marked A A')
    (holding : Holding s'.marked (A' inum) bytes) (count : s'.freeblock = s.freeblock + k)
    (more : blocksFor bytes.length = blocksFor (F inum).length + k) :
    Stored s' A' (update F inum bytes) := by
  refine ⟨based, grows.storage, fun j => ?_, ?_⟩
  · by_cases here : j = inum
    · rw [here, update_self]
      exact holding
    · rw [update_of_ne here]
      exact (stored.holding j).other grows here
  · have sum := sum_update_add (fun j => blocksFor (F j).length) (Finset.mem_range.mpr small)
      (blocksFor bytes.length)
    have same : ∀ j, blocksFor (update F inum bytes j).length =
        update (fun j => blocksFor (F j).length) inum (blocksFor bytes.length) j := by
      intro j
      by_cases here : j = inum
      · simp [here]
      · simp [here]
    have before := stored.count
    simp only [same]
    omega

/-- One round of the loop of `iappend`, once it has its block. -/
theorem Stored.round {r n1 : Nat} (stored : Stored s A F) (small : inum < 208)
    (mapped : Mapped buildSb inum ((F inum).length / bSize) r s.marked s'.marked A A')
    (fresh : blockNo s.marked (A inum) ((F inum).length / bSize) = 0 → s'.marked r = Bytes.zero)
    (based : Based s')
    (count : s'.freeblock = s.freeblock + missing s.marked (A inum) ((F inum).length / bSize))
    (below : (F inum).length / bSize < maxFile) (some : 0 < n1)
    (chunk : n1 = min p.length (bSize - (F inum).length % bSize)) :
    Stored (s'.store r ((s'.disk r).copy ((F inum).length % bSize) n1 fun i => p.getD i 0)) A'
        (update F inum (F inum ++ p.take n1)) ∧
      Kept s' (s'.store r ((s'.disk r).copy ((F inum).length % bSize) n1 fun i => p.getD i 0)) ∧
      r < 1024 := by
  have holding := stored.holding inum
  obtain ⟨low, top, used⟩ := Storage.block_range mapped.storage (mapped.block ▸ mapped.some)
  rw [mapped.block] at low top used
  have other : r ≠ 28 := by omega
  have kept := Kept.store based.length low top
    ((s'.disk r).copy ((F inum).length % bSize) n1 fun i => p.getD i 0)
  refine ⟨?_, kept, top⟩
  have data : (s'.store r ((s'.disk r).copy ((F inum).length % bSize) n1 fun i => p.getD i 0)).marked =
      update s'.marked r ((s'.marked r).copy ((F inum).length % bSize) n1
        fun i => p.getD i 0) := by
    rw [marked_store other, marked_of_ne other]
  have grows := (mapped.storage.write_block buildSb_layout mapped.block mapped.some below
    ((s'.marked r).copy ((F inum).length % bSize) n1 fun i => p.getD i 0)).1
  rw [← data] at grows
  apply stored.grow small (based.store low used _) (mapped.toGrows.trans grows) _ count
  · rw [List.length_append, List.length_take, Nat.min_eq_left (by omega)]
    exact holding.missing_eq some (by omega) below
  · rw [data]
    exact holding.append mapped fresh below some chunk

theorem Stored.room_self (stored : Stored s A F) (inum : Nat) :
    Room s (F inum).length (F inum).length :=
  ⟨(stored.holding inum).small, Nat.add_le_add_right stored.high _⟩

/-- The loop of `iappend`: the file gets all the bytes if there is room for them, and otherwise
mkfs stops. -/
theorem wp_iappendFrom {Q : Nat × Dinode → Build → Prop} {fuel off : Nat} {din : Dinode}
    (stored : Stored s A F) (small : inum < 208) (addrs : din.addrs = A inum)
    (enough : p.length ≤ fuel) (length : (F inum).length = off)
    (stop : ¬ Room s off (off + p.length) → ∀ w s', E w s')
    (next : ∀ A' s', Room s off (off + p.length) →
      Stored s' A' (update F inum (F inum ++ p)) → (∀ j, j ≠ inum → A' j = A j) →
      Kept s s' → Q (off + p.length, { din with addrs := A' inum }) s') :
    buildMachine.Wp (iappendFrom fuel p off din) s Q E := by
  induction fuel generalizing s A F p din off with
  | zero =>
    have done : p = [] := List.length_eq_zero_iff.mp (by omega)
    subst done
    have result := next A s (length ▸ stored.room_self inum)
    rw [List.append_nil, update_eq_self, ← addrs] at result
    exact .ret (result stored (fun _ _ => rfl) (Kept.refl s))
  | succ fuel ih =>
    unfold iappendFrom
    by_cases done : p = []
    · subst done
      have result := next A s (length ▸ stored.room_self inum)
      rw [List.append_nil, update_eq_self, ← addrs] at result
      exact .ret (result stored (fun _ _ => rfl) (Kept.refl s))
    rw [if_neg (by simpa using done)]
    have some : 0 < p.length := List.length_pos_iff.mpr done
    dsimp only
    by_cases deep : maxFile ≤ off / 512
    · rw [if_pos deep]
      apply Machine.Wp.stop
      apply stop
      rintro ⟨fits, -⟩
      unfold bSize at fits
      omega
    rw [if_neg deep]
    have below : off / bSize < maxFile := Nat.not_le.mp deep
    obtain ⟨n1, chunk⟩ : ∃ n1, n1 = min p.length (bSize - off % bSize) := ⟨_, rfl⟩
    have rest : min p.length ((off / 512 + 1) * 512 - off) = n1 := by
      unfold bSize at chunk
      omega
    have place : off - off / 512 * 512 = off % bSize := by
      unfold bSize
      omega
    have step : 0 < n1 ∧ n1 ≤ p.length := by
      unfold bSize at chunk
      omega
    rw [rest, place]
    subst length
    have needs := (stored.holding inum).missing_eq step.1 (by omega) below
    have mono := blocksFor_mono (show (F inum).length + n1 ≤ (F inum).length + p.length by omega)
    apply Machine.Wp.seq
    apply wp_blockFor stored.toBased stored.storage addrs below
    · intro excess
      have crowded : ¬ Room s (F inum).length ((F inum).length + p.length) := by
        rintro ⟨-, fits⟩
        omega
      refine ⟨stop crowded, fun x d s' beyond size => ?_⟩
      apply Machine.Wp.seq
      apply wp_rsect
      · intro inside
        omega
      · intro _
        exact stop crowded _ _
    · intro A' x s' mapped fresh based kept count
      obtain ⟨stored', kept', top⟩ := stored.round small mapped fresh based count below step.1 chunk
      apply Machine.Wp.seq
      apply wp_rsect
      · intro _
        apply Machine.Wp.seq
        apply wp_wsect
        -- The file is longer by `n1`, and what is left to append shorter by as much.
        have left : (p.drop n1).length = p.length - n1 := List.length_drop
        have total : (F inum).length + n1 + (p.drop n1).length = (F inum).length + p.length := by
          omega
        have whole : p.take n1 ++ p.drop n1 = p := List.take_append_drop ..
        have same : ∀ len, Room (s'.store x ((s'.disk x).copy ((F inum).length % bSize) n1
            fun i => p.getD i 0)) ((F inum).length + n1) len ↔ Room s (F inum).length len := by
          intro len
          unfold Room
          change _ ∧ s'.freeblock + _ ≤ _ ↔ _
          rw [count, needs]
          omega
        apply ih stored' rfl (by omega)
        · rw [update_self, List.length_append, List.length_take, Nat.min_eq_left step.2]
        · rw [total, same]
          exact stop
        · intro A'' s'' room stored'' others kept''
          rw [total, same] at room
          rw [total]
          apply next A'' s'' room
          · rwa [update_self, update_idem, List.append_assoc, whole] at stored''
          · intro j other
            exact (others j other).trans (mapped.others j other)
          · exact kept.trans (kept'.trans kept'')
      · intro beyond
        rw [based.length] at beyond
        omega

end Append

end OsAudio.Mkfs

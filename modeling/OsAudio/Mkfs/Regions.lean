import Mathlib.Algebra.BigOperators.Fin
import OsAudio.Fs.Dirents
import OsAudio.Mkfs.Image

/-!
# Where mkfs puts things

The inodes and blocks that mkfs gives out, against the regions of the image, and the root
directory, whose size mkfs rounds up without regard to the blocks it has.
-/
namespace OsAudio.Mkfs
open OsAudio.Lib OsAudio.Fs
open Function (update_self update_of_ne)

/-! ## The numbers of the inodes -/

/-- What the calls may do to `freeinode` and to the inodes given out. -/
def numbering : Behaviour BuildSig Abort (Nat × List Nat) := fun (op : BuildOp) s o =>
  match op, o with
  | .inode, .ok r t => r = s.1 ∧ t = (s.1 + 1, s.2 ++ [s.1])
  | .rsect _, .ok _ t => t = s
  | .wsect _ _, .ok _ t => t = s
  | .block, .ok _ t => t = s
  | .used, .ok _ t => t = s
  | _, .stop _ _ => True

theorem buildMachine_keeps : buildMachine.Keeps numbering fun s => (s.freeinode, s.inodes) := by
  intro (op : BuildOp) s
  cases op with
  | rsect sec =>
    simp only [buildMachine]
    split
    · rfl
    · trivial
  | wsect sec buf => rfl
  | block => rfl
  | inode => exact ⟨rfl, rfl⟩
  | used => rfl

/-- The program allocates no inode. -/
abbrev Numbered {α : Type} (p : BuildProg α) : Prop := p.Preserves numbering id

theorem numbered_rsect (sec : Nat) : Numbered (rsect sec) :=
  fun _ => .op (fun _ _ same => same) fun _ _ _ => trivial

theorem numbered_wsect (sec : Nat) (buf : Bytes) : Numbered (wsect sec buf) :=
  fun _ => .op (fun _ _ same => same) fun _ _ _ => trivial

theorem numbered_nextBlock : Numbered nextBlock :=
  fun _ => .op (fun _ _ same => same) fun _ _ _ => trivial

theorem numbered_winode (inum : Nat) (din : Dinode) : Numbered (winode inum din) :=
  .bind (numbered_rsect _) fun _ => numbered_wsect _ _

theorem numbered_rinode (inum : Nat) : Numbered (rinode inum) :=
  .bind (numbered_rsect _) fun _ => .ret _

theorem numbered_addrFor (i : Nat) (din : Dinode) : Numbered (addrFor i din) :=
  .ite (.bind numbered_nextBlock fun _ => .ret _) (.ret _)

theorem numbered_blockFor (fbn : Nat) (din : Dinode) : Numbered (blockFor fbn din) :=
  .ite (.bind (numbered_addrFor _ _) fun _ => .ret _) <|
    .bind (numbered_addrFor _ _) fun _ => .bind (numbered_rsect _) fun _ =>
      .ite (.bind numbered_nextBlock fun _ => .bind (numbered_wsect _ _) fun _ => .ret _) (.ret _)

theorem numbered_iappendFrom (fuel : Nat) (p : List Byte) (off : Nat) (din : Dinode) :
    Numbered (iappendFrom fuel p off din) := by
  induction fuel generalizing p off din with
  | zero => exact .ret _
  | succ fuel ih =>
    refine .ite (.ret _) (.ite (.stop _) (.bind (numbered_blockFor _ _) fun r => ?_))
    exact .bind (numbered_rsect _) fun _ => .bind (numbered_wsect _ _) fun _ => ih _ _ _

theorem numbered_iappend (inum : Nat) (p : List Byte) : Numbered (iappend inum p) :=
  .bind (numbered_rinode _) fun _ => .bind (numbered_iappendFrom _ _ _ _) fun _ =>
    numbered_winode _ _

theorem numbered_iappendAll (inum : Nat) (chunks : List (List Byte)) :
    Numbered (iappendAll inum chunks) := by
  induction chunks with
  | nil => exact .ret _
  | cons chunk chunks ih => exact .bind (numbered_iappend _ _) fun _ => ih

theorem numbered_wzeroes (count : Nat) : Numbered (wzeroes count) := by
  induction count with
  | zero =>
    rw [wzeroes_zero]
    exact .ret _
  | succ count ih =>
    rw [wzeroes_succ]
    exact .bind ih fun _ => numbered_wsect _ _

theorem ensures_ialloc (type n : Nat) (given : List Nat) :
    (ialloc type).Ensures numbering (n, given)
      (fun r t => r = n ∧ t = (n + 1, given ++ [n])) fun _ => True := by
  refine Prog.Ensures.bind (P := fun r t => r = n ∧ t = (n + 1, given ++ [n])) ?_ ?_
  · exact .op (fun _ _ step => step) fun _ _ _ => trivial
  · rintro r t ⟨rfl, rfl⟩
    exact (numbered_winode _ _).then fun _ _ same => .ret ⟨rfl, same⟩

theorem ensures_addFiles (rootino n : Nat) (given : List Nat) (files : List InputFile) :
    (addFiles rootino files).Ensures numbering (n, given)
      (fun _ t => t = (n + files.length, given ++ List.range' n files.length)) fun _ => True := by
  induction files generalizing n given with
  | nil => exact .ret (by simp)
  | cons f files ih =>
    have one : (addFile rootino f).Ensures numbering (n, given)
        (fun _ t => t = (n + 1, given ++ [n])) fun _ => True := by
      unfold addFile
      split
      · exact .stop trivial
      · refine (ensures_ialloc _ _ _).bind ?_
        rintro r t ⟨rfl, rfl⟩
        refine (numbered_iappend _ _).then fun _ t same => ?_
        exact (numbered_iappendAll _ _ t).mono fun _ u kept => kept.trans same
    refine one.bind ?_
    rintro _ t rfl
    refine (ih (n + 1) (given ++ [n])).mono ?_
    rintro _ t rfl
    rw [List.length_cons, List.range'_succ, List.append_assoc]
    congr 1
    omega

/-- The inodes that mkfs gives out are numbered from one on. -/
theorem ensures_mkfs (files : List InputFile) :
    (mkfs files).Ensures numbering (1, [])
      (fun _ t => t.2 = List.range' 1 (files.length + 1)) fun _ => True := by
  refine (numbered_wzeroes _).then fun _ t₁ zeroed => ?_
  obtain rfl : t₁ = (1, []) := zeroed
  refine (numbered_wsect _ _).then fun _ t₂ written => ?_
  obtain rfl : t₂ = (1, []) := written
  refine (ensures_ialloc _ _ _).bind ?_
  rintro r t ⟨rfl, rfl⟩
  rw [if_neg (by decide)]
  refine (numbered_iappend _ _).then fun _ t₃ dot => ?_
  obtain rfl : t₃ = (2, [1]) := dot
  refine (numbered_iappend _ _).then fun _ t₄ dotdot => ?_
  obtain rfl : t₄ = (2, [1]) := dotdot
  refine (ensures_addFiles _ _ _ _).bind ?_
  rintro _ t rfl
  refine (numbered_rinode _).then fun _ t₅ read => ?_
  refine (numbered_winode _ _).then fun _ t₆ stored => ?_
  have used : Numbered usedblocks := fun _ => .op (fun _ _ same => same) fun _ _ _ => trivial
  refine used.then fun _ t₇ same => ?_
  have bits : ∀ n, Numbered (balloc n) := fun n => .ite (.stop _) (numbered_wsect _ _)
  refine (bits _ t₇).mono fun _ t₈ last => ?_
  have final := ((last.trans same).trans stored).trans read
  change t₈ = _ at final
  rw [final]
  rfl

theorem mkfs_inodes {files : List InputFile} {s : Build}
    (done : buildMachine.run (mkfs files) newBuild = .ok () s) :
    s.inodes = List.range' 1 (files.length + 1) :=
  (buildMachine_keeps.run (ensures_mkfs files)).of_ok done

/-! ## The files of the image -/

/-- The entries of the root directory for the arguments. -/
def dirents : (inum : Nat) → List InputFile → List Byte
  | _, [] => []
  | inum, f :: files => direntBytes inum f.name ++ dirents (inum + 1) files

section Files
variable {F : Nat → List Byte} {inum j : Nat} {files : List InputFile}

@[simp] theorem length_dirents (inum : Nat) (files : List InputFile) :
    (dirents inum files).length = 16 * files.length := by
  induction files generalizing inum with
  | nil => rfl
  | cons f files ih =>
    simp only [dirents, List.length_append, length_direntBytes, direntSize, ih, List.length_cons]
    omega

theorem withFile_root (F : Nat → List Byte) (f : InputFile) (high : rootIno < inum) :
    withFile F inum f rootIno = F rootIno ++ direntBytes inum f.name := by
  rw [withFile, extend, update_of_ne (by omega), extend, update_self]

theorem withFile_self (F : Nat → List Byte) (f : InputFile) (high : rootIno < inum) :
    withFile F inum f inum = F inum ++ f.content := by
  have other : inum ≠ rootIno := by omega
  rw [withFile, extend, update_self, extend, update_of_ne other]

theorem withFile_other (F : Nat → List Byte) (f : InputFile) (root : j ≠ rootIno) (other : j ≠ inum) :
    withFile F inum f j = F j := by
  rw [withFile, extend, update_of_ne other, extend, update_of_ne root]

theorem withFiles_root (F : Nat → List Byte) (files : List InputFile) (high : rootIno < inum) :
    withFiles F inum files rootIno = F rootIno ++ dirents inum files := by
  induction files generalizing F inum with
  | nil => exact (List.append_nil _).symm
  | cons f files ih =>
    rw [withFiles, ih _ (by omega), withFile_root F f high, List.append_assoc]
    rfl

/-- The inodes outside of the range of the arguments are left as they were. -/
theorem withFiles_other (F : Nat → List Byte) (files : List InputFile) (root : j ≠ rootIno)
    (outside : j < inum ∨ inum + files.length ≤ j) : withFiles F inum files j = F j := by
  induction files generalizing F inum with
  | nil => rfl
  | cons f files ih =>
    rw [List.length_cons] at outside
    rw [withFiles, ih _ (by omega), withFile_other F f root (by omega)]

theorem withFiles_get (F : Nat → List Byte) (high : rootIno < inum) {i : Nat} (inside : i < files.length) :
    withFiles F inum files (inum + i) = F (inum + i) ++ files[i].content := by
  induction files generalizing F inum i with
  | nil => cases inside
  | cons f files ih =>
    cases i with
    | zero =>
      rw [Nat.add_zero, withFiles, withFiles_other _ files (by omega) (by omega),
        withFile_self F f high]
      rfl
    | succ i =>
      have place : inum + (i + 1) = inum + 1 + i := by omega
      rw [place, withFiles, ih _ (by omega) (Nat.lt_of_succ_lt_succ inside),
        withFile_other F f (by omega) (by omega)]
      rfl

/-- The root directory: itself twice, then the arguments. -/
theorem imageFiles_root (files : List InputFile) : imageFiles files rootIno =
    direntBytes rootIno dot ++ direntBytes rootIno dotdot ++ dirents 2 files := by
  rw [imageFiles, withFiles_root _ _ (by decide), rootFiles, extend_extend, extend,
    update_self, List.nil_append]

theorem rootFiles_other (root : j ≠ rootIno) : rootFiles j = [] := by
  rw [rootFiles, extend_extend, extend, update_of_ne root]

/-- Argument `i` is the file of inode `i + 2`. -/
theorem imageFiles_get {i : Nat} (inside : i < files.length) :
    imageFiles files (i + 2) = files[i].content := by
  have other : i + 2 ≠ rootIno := by
    unfold rootIno
    omega
  rw [imageFiles, Nat.add_comm i 2, withFiles_get _ (by decide) inside, Nat.add_comm 2 i,
    rootFiles_other other, List.nil_append]

theorem imageFiles_other (outside : j = 0 ∨ files.length + 2 ≤ j) : imageFiles files j = [] := by
  have root : j ≠ rootIno := by
    unfold rootIno
    omega
  rw [imageFiles, withFiles_other _ _ root (by omega), rootFiles_other root]

theorem length_imageFiles_root (files : List InputFile) :
    (imageFiles files rootIno).length = 16 * (files.length + 2) := by
  rw [imageFiles_root]
  simp only [List.length_append, length_direntBytes, direntSize, length_dirents]
  omega

end Files

/-- The blocks of the image that are used in the end. -/
def blocksUsed (files : List InputFile) : Nat :=
  29 + blocksFor (16 * (files.length + 2)) + (files.map fun f => blocksFor f.content.length).sum

/-- The sectors up to `last` have room for the files, and no file is too long. -/
structure FitsBelow (files : List InputFile) (last : Nat) : Prop where
  plainNames : ∀ f ∈ files, slash ∉ f.argv
  short : ∀ f ∈ files, f.content.length ≤ maxFile * bSize
  root : 16 * (files.length + 2) ≤ maxFile * bSize
  room : blocksUsed files ≤ last

section Used
variable {files : List InputFile}

section
variable (few : files.length ≤ 206)
include few

theorem sum_blocksFor :
    29 + ∑ j ∈ Finset.range 208, blocksFor (imageFiles files j).length = blocksUsed files := by
  have count : 208 = files.length + 2 + (206 - files.length) := by omega
  have nothing : ∑ j ∈ Finset.range (206 - files.length),
      blocksFor (imageFiles files (files.length + 2 + j)).length = 0 := by
    refine Finset.sum_eq_zero fun j _ => ?_
    rw [imageFiles_other (by omega)]
    rfl
  have each : ∑ j ∈ Finset.range files.length, blocksFor (imageFiles files (j + 2)).length =
      (files.map fun f => blocksFor f.content.length).sum := by
    rw [Finset.sum_range, ← Fin.sum_univ_fun_getElem]
    refine Finset.sum_congr rfl fun j _ => ?_
    rw [imageFiles_get j.isLt]
  have first : blocksFor (imageFiles files 0).length = 0 := by
    rw [imageFiles_other (.inl rfl)]
    rfl
  have root : blocksFor (imageFiles files 1).length = blocksFor (16 * (files.length + 2)) := by
    rw [← length_imageFiles_root files]
    rfl
  rw [count, Finset.sum_range_add, nothing, Finset.sum_range_succ', Finset.sum_range_succ', each,
    first, root, blocksUsed]
  omega

theorem fits_iff :
    (∀ f ∈ files, slash ∉ f.argv) ∧ Fits (imageFiles files) ↔ FitsBelow files 1024 := by
  unfold Fits
  rw [sum_blocksFor few]
  constructor
  · rintro ⟨named, short, room⟩
    refine ⟨named, fun f member => ?_, ?_, room⟩
    · obtain ⟨i, inside, rfl⟩ := List.getElem_of_mem member
      rw [← imageFiles_get inside]
      exact short _
    · rw [← length_imageFiles_root]
      exact short _
  · intro fits
    refine ⟨fits.plainNames, fun j => ?_, fits.room⟩
    by_cases root : j = rootIno
    · rw [root, length_imageFiles_root]
      exact fits.root
    · by_cases inside : j = 0 ∨ files.length + 2 ≤ j
      · rw [imageFiles_other inside]
        exact Nat.zero_le _
      · have place : j = j - 2 + 2 := by
          unfold rootIno at root
          omega
        have below : j - 2 < files.length := by omega
        rw [place, imageFiles_get below]
        exact fits.short _ (List.getElem_mem below)

/-- What a successful run of mkfs leaves. -/
theorem mkfs_done {s : Build} (done : buildMachine.run (mkfs files) newBuild = .ok () s) :
    ∃ t, s = t.finish ∧ Built t (imageFiles files) (imageSizes files) ∧
      t.freeinode = files.length + 2 ∧ FitsBelow files 1024 := by
  have sat : buildMachine.Wp (mkfs files) newBuild (fun _ s => ∃ t, s = t.finish ∧
      Built t (imageFiles files) (imageSizes files) ∧ t.freeinode = files.length + 2 ∧
      FitsBelow files 1024) fun _ _ => True := by
    apply wp_mkfs few
    · intro _ _ _
      trivial
    · intro t named built freeinode
      exact ⟨t, rfl, built, freeinode, (fits_iff few).mp ⟨named, built.fits⟩⟩
  exact sat.of_ok done

/-- mkfs succeeds if the files fit. -/
theorem mkfs_succeeds (fits : FitsBelow files 1024) :
    ∃ s, buildMachine.run (mkfs files) newBuild = .ok () s := by
  have sat : buildMachine.Wp (mkfs files) newBuild (fun _ _ => True) fun _ _ => False := by
    obtain ⟨named, room⟩ := (fits_iff few).mpr fits
    apply wp_mkfs few
    · rintro (⟨f, member, slashed⟩ | crowded)
      · exact absurd slashed (named f member)
      · exact absurd room crowded
    · intro _ _ _ _
      trivial
  obtain ⟨_, s, done, -⟩ := sat.returns
  exact ⟨s, done⟩

end

end Used

/-- An empty file with the name `a`. -/
def emptyFile : InputFile := ⟨[0x61], [], by decide, by simp⟩

theorem emptyFiles_fit {n : Nat} (few : n ≤ 206) : FitsBelow (List.replicate n emptyFile) 1024 := by
  have plainName : slash ∉ emptyFile.argv := by decide
  constructor
  · intro f member
    rw [List.eq_of_mem_replicate member]
    exact plainName
  · intro f member
    rw [List.eq_of_mem_replicate member]
    decide
  · rw [List.length_replicate]
    unfold maxFile bSize nDirect nIndirect
    omega
  · have root : blocksFor (16 * (n + 2)) ≤ blocksFor 3328 := blocksFor_mono (by omega)
    have nothing : blocksFor emptyFile.content.length = 0 := by decide
    have bound : blocksFor 3328 = 7 := by decide
    rw [blocksUsed, List.length_replicate, List.map_replicate, List.sum_replicate, nothing,
      nsmul_zero]
    omega

/-! ## The regions -/

/-- The inodes lie before the bitmap and are among the inodes of the file system, the blocks lie
between the bitmap and the log, and the bitmap marks the blocks below `usedblocks`. -/
structure InRegions (s : Build) : Prop where
  inodes : ∀ inum ∈ s.inodes, iblock inum < mkfsSb.ninodes / ipb + 3 ∧ inum < mkfsSb.ninodes
  blocks : ∀ b ∈ s.allocated, mkfsSb.dataStart ≤ b ∧ b < mkfsSb.size - mkfsSb.nlog
  bitmap : ∀ b < bpb, inUse mkfsSb s.disk b = decide (b < s.usedblocks)

section Finish
variable {t : Build} {files : List InputFile} {F : Nat → List Byte} {size : Nat → Nat}

theorem Built.finish_disk (built : Built t F size) : t.finish.disk = t.marked := by
  rw [Build.marked, ← built.used]
  rfl

theorem Built.freeblock_eq (few : files.length ≤ 206) (built : Built t (imageFiles files) size) :
    t.freeblock = blocksUsed files := by
  rw [built.count, sum_blocksFor few]

theorem Built.finish_bitmap (built : Built t F size) {b : Nat} (below : b < bpb) :
    inUse mkfsSb t.finish.disk b = decide (b < t.finish.usedblocks) := by
  have block : bblock b mkfsSb.ninodes = 28 := by
    rw [bblock, Nat.div_eq_of_lt below]
    rfl
  rw [inUse, block, Nat.mod_eq_of_lt below, built.finish_disk, Build.marked, update_self,
    testBit_usedBits, ← built.used]
  rfl

end Finish

/-- After a successful run everything is in its region exactly if there were at most 198 files and
their blocks end before the log. -/
theorem mkfs_regions (files : List InputFile) (s : Build)
    (done : buildMachine.run (mkfs files) newBuild = .ok () s) :
    InRegions s ↔ files.length ≤ 198 ∧ blocksUsed files ≤ 1014 := by
  have numbers := mkfs_inodes done
  constructor
  · intro regions
    have member : files.length + 1 ∈ s.inodes := by
      rw [numbers, List.mem_range'_1]
      omega
    have last := (regions.inodes _ member).2
    have few : files.length ≤ 198 := by
      change files.length + 1 < 200 at last
      omega
    refine ⟨few, ?_⟩
    obtain ⟨t, rfl, built, -, -⟩ := mkfs_done (by omega) done
    have used := built.freeblock_eq (by omega)
    have low := built.low
    by_contra crowded
    -- The last block given out lies in the log.
    have given : t.freeblock - 1 ∈ t.finish.allocated := by
      change t.freeblock - 1 ∈ t.allocated
      rw [built.given, List.mem_range'_1]
      omega
    have below : t.freeblock - 1 < 1014 := (regions.blocks _ given).2
    omega
  · rintro ⟨few, room⟩
    obtain ⟨t, rfl, built, -, -⟩ := mkfs_done (by omega) done
    have used := built.freeblock_eq (by omega)
    constructor
    · intro inum member
      rw [numbers, List.mem_range'_1] at member
      have below : inum < 200 := by omega
      refine ⟨?_, below⟩
      change iblock inum < 28
      unfold iblock ipb
      omega
    · intro b member
      change b ∈ t.allocated at member
      rw [built.given, List.mem_range'_1] at member
      change 29 ≤ b ∧ b < 1014
      omega
    · intro b below
      exact built.finish_bitmap below

/-- An image without files. -/
theorem mkfs_regions_nil : ∃ s, buildMachine.run (mkfs []) newBuild = .ok () s ∧ InRegions s := by
  have fits : FitsBelow [] 1024 := emptyFiles_fit (Nat.zero_le 206)
  obtain ⟨s, done⟩ := mkfs_succeeds (by decide) fits
  exact ⟨s, done, (mkfs_regions [] s done).mpr (by decide)⟩

/-- With 199 files, however small, the last one gets an inode the file system does not have. -/
theorem inode_overrun : ∃ s, buildMachine.run (mkfs (List.replicate 199 emptyFile)) newBuild = .ok () s ∧
    200 ∈ s.inodes ∧ ¬ InRegions s := by
  have count : (List.replicate 199 emptyFile).length = 199 := List.length_replicate
  obtain ⟨s, done⟩ := mkfs_succeeds (by omega) (emptyFiles_fit (by decide : 199 ≤ 206))
  have member : 200 ∈ s.inodes := by
    rw [mkfs_inodes done, count, List.mem_range'_1]
    decide
  refine ⟨s, done, member, fun regions => ?_⟩
  exact absurd (regions.inodes 200 member).2 (by decide)

/-! ## Holes -/

/-- Every inode of the image has a block for each block index below the end of its size. -/
def HoleFree (s : Build) : Prop :=
  ∀ inum, inum < mkfsSb.ninodes ∨ inum ∈ s.inodes → (dinodeOf s.disk inum).type ≠ 0 →
    ∀ i, i * bSize < (dinodeOf s.disk inum).size →
      i < maxFile ∧ blockNo s.disk (dinodeOf s.disk inum).addrs i ≠ 0

section Holes
variable {t : Build} {files : List InputFile} {F : Nat → List Byte} {size : Nat → Nat} {inum : Nat}

theorem Built.finish_dinode (built : Built t F size) (small : inum < 208) :
    dinodeOf t.finish.disk inum = dinodeOf t.disk inum := by
  have low := (iblock_small small).1
  rw [built.finish_disk]
  exact dinodeOf_congr (marked_of_ne (by omega))

/-- The inodes of the image are those given out. -/
theorem Built.inode_range (built : Built t F size) (used : (dinodeOf t.finish.disk inum).type ≠ 0)
    (listed : inum < 200 ∨ inum ∈ t.inodes) : 0 < inum ∧ inum < t.freeinode := by
  have start := built.start
  by_contra outside
  rcases listed with small | member
  · have blank := built.blank inum (by omega) (by omega)
    rw [built.finish_dinode (by omega), blank] at used
    exact used rfl
  · rw [built.inodes, List.mem_range'_1] at member
    omega

/-- The blocks an inode of the image has are those that its file takes. -/
theorem Built.finish_blocks (built : Built t F size) (positive : 0 < inum) (below : inum < t.freeinode)
    {i : Nat} (inside : i < maxFile) :
    blockNo t.finish.disk (dinodeOf t.finish.disk inum).addrs i ≠ 0 ↔ i * bSize < (F inum).length := by
  have few := built.few
  have table : tableOf t inum = (dinodeOf t.disk inum).addrs := if_pos ⟨positive, below⟩
  rw [built.finish_dinode (by omega), built.finish_disk, ← table]
  exact (built.holding inum).blocks i inside

end Holes

/-- The image has no holes exactly if the root directory does not end with a full block. -/
theorem holeFree_iff {files : List InputFile} {s : Build}
    (done : buildMachine.run (mkfs files) newBuild = .ok () s) (few : files.length ≤ 206) :
    HoleFree s ↔ (files.length + 2) % 32 ≠ 0 := by
  obtain ⟨t, rfl, built, freeinode, -⟩ := mkfs_done few done
  have root : rootIno < t.freeinode := by
    rw [freeinode]
    unfold rootIno
    omega
  have length := length_imageFiles_root files
  have rounded : (dinodeOf t.finish.disk rootIno).size = (16 * (files.length + 2) / bSize + 1) * bSize := by
    rw [built.finish_dinode (by decide), (built.plain rootIno (by decide) root).size, imageSizes,
      update_self, length]
  constructor
  · intro whole full
    have kind : (dinodeOf t.finish.disk rootIno).type = tDir := by
      rw [built.finish_dinode (by decide), (built.plain rootIno (by decide) root).type]
      rfl
    have last := whole rootIno (.inl (by decide)) (by rw [kind]; decide)
      (16 * (files.length + 2) / bSize) (by rw [rounded]; unfold bSize; omega)
    rw [built.finish_blocks (by decide) root last.1, length] at last
    have := last.2
    unfold bSize at this
    omega
  · intro partly inum listed used i inside
    obtain ⟨positive, below⟩ := built.inode_range used listed
    have short := (built.holding inum).small
    have size : (dinodeOf t.finish.disk inum).size = imageSizes files inum := by
      rw [built.finish_dinode (by omega), (built.plain inum positive below).size]
    have enough : i * bSize < (imageFiles files inum).length := by
      by_cases here : inum = rootIno
      · subst here
        rw [rounded] at inside
        rw [length]
        unfold bSize at *
        omega
      · rwa [size, imageSizes, update_of_ne here] at inside
    have least : i < maxFile := by
      unfold bSize at *
      omega
    exact ⟨least, (built.finish_blocks positive below least).mpr enough⟩

/-- With 30 files the root directory fills its block exactly, and its size says two. -/
theorem root_hole : ∃ s, buildMachine.run (mkfs (List.replicate 30 emptyFile)) newBuild = .ok () s ∧
    (dinodeOf s.disk rootIno).size = 1024 ∧ blockNo s.disk (dinodeOf s.disk rootIno).addrs 1 = 0 ∧
    ¬ HoleFree s := by
  have count : (List.replicate 30 emptyFile).length = 30 := List.length_replicate
  obtain ⟨s, done⟩ := mkfs_succeeds (by omega) (emptyFiles_fit (by decide : 30 ≤ 206))
  obtain ⟨t, rfl, built, freeinode, -⟩ := mkfs_done (by omega) done
  have root : rootIno < t.freeinode := by
    rw [freeinode]
    unfold rootIno
    omega
  have length := length_imageFiles_root (List.replicate 30 emptyFile)
  rw [count] at length
  have plain := built.plain rootIno (by decide) root
  have size : (dinodeOf t.finish.disk rootIno).size = 1024 := by
    rw [built.finish_dinode (by decide), plain.size, imageSizes, update_self, length]
    rfl
  have hole : blockNo t.finish.disk (dinodeOf t.finish.disk rootIno).addrs 1 = 0 := by
    by_contra there
    rw [← ne_eq, built.finish_blocks (by decide) root (by decide), length] at there
    exact absurd there (by decide)
  have kind : (dinodeOf t.finish.disk rootIno).type ≠ 0 := by
    rw [built.finish_dinode (by decide), plain.type]
    decide
  refine ⟨_, done, size, hole, fun whole => ?_⟩
  exact (whole rootIno (.inl (by decide)) kind 1 (by rw [size]; decide)).2 hole

end OsAudio.Mkfs

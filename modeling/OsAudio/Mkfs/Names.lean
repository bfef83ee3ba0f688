import OsAudio.Mkfs.ReadBack

/-!
# Looking up the files of an image by name

mkfs stores up to `DIRSIZ` characters of a name, without a terminating zero if it needs them all;
`skipelem` cuts an element of a path to `DIRSIZ - 1` characters, and `dir_namecmp` compares the two.
-/
namespace OsAudio.Mkfs
open OsAudio.Lib OsAudio.Fs

/-! ## The entries of the root directory -/

/-- Entry `j` of a directory. -/
def direntAt (bytes : List Byte) (j : Nat) : List Byte :=
  (List.range direntSize).map fun i => bytes.getD (direntSize * j + i) 0

section Entries
variable {bytes rest : List Byte} {j : Nat}

@[simp] theorem length_direntAt (bytes : List Byte) (j : Nat) : (direntAt bytes j).length = direntSize := by
  simp [direntAt]

theorem direntAt_zero (length : bytes.length = direntSize) : direntAt (bytes ++ rest) 0 = bytes := by
  apply List.ext_getElem
  · rw [length_direntAt, length]
  · intro i left right
    simp [direntAt, List.getD_eq_getElem?_getD, List.getElem?_append_left right,
      List.getElem?_eq_getElem right]

theorem direntAt_append {m : Nat} (length : bytes.length = direntSize * m) :
    direntAt (bytes ++ rest) (m + j) = direntAt rest j := by
  apply List.map_congr_left
  intro i _
  rw [List.getD_eq_getElem?_getD, List.getElem?_append_right (by rw [length, Nat.mul_add]; omega),
    List.getD_eq_getElem?_getD, length]
  congr 2
  rw [Nat.mul_add]
  omega

theorem direntAt_beyond (length : bytes.length ≤ direntSize * j) :
    direntAt bytes j = List.replicate direntSize 0 := by
  apply List.ext_getElem
  · simp
  · intro i left right
    simp only [direntAt, List.getElem_map, List.getElem_range, List.getElem_replicate]
    rw [List.getD_eq_getElem?_getD, List.getElem?_eq_none (by omega)]
    rfl

theorem direntAt_dirents {files : List InputFile} {inum i : Nat} (inside : i < files.length) :
    direntAt (dirents inum files) i = direntBytes (inum + i) files[i].name := by
  induction files generalizing inum i with
  | nil => cases inside
  | cons f files ih =>
    cases i with
    | zero => exact direntAt_zero (length_direntBytes ..)
    | succ i =>
      have later : inum + (i + 1) = inum + 1 + i := by omega
      have skip : direntAt (direntBytes inum f.name ++ dirents (inum + 1) files) (i + 1) =
          direntAt (dirents (inum + 1) files) i := by
        rw [Nat.add_comm i 1, direntAt_append (length_direntBytes ..)]
      rw [dirents, skip, ih (Nat.lt_of_succ_lt_succ inside), later]
      rfl

theorem inum_direntBytes {inum : Nat} {name : List Byte} (small : inum < 65536) :
    (direntOf (direntBytes inum name)).inum = inum :=
  (direntOf_direntBytes inum name).1.trans (Nat.mod_eq_of_lt small)

/-- `dir_lookup` stops at an entry exactly if it has the name it looks for. -/
theorem hit_iff {key name : List Byte} {inum : Nat} (keyText : ∀ c ∈ key, c ≠ 0)
    (nameText : ∀ c ∈ name, c ≠ 0) (short : key.length < dirSiz) (some : inum ≠ 0)
    (small : inum < 65536) : Hit key (direntBytes inum name) ↔ name = key := by
  have whole : nameOf (chars key) = key := by
    rw [nameOf_chars fun zero => keyText 0 zero rfl, List.take_of_length_le (Nat.le_of_lt short)]
  rw [Hit, inum_direntBytes small, dirNamecmp_iff, nameOf_congr (direntOf_direntBytes inum name).2, whole,
    and_iff_right some]
  constructor
  · intro same
    by_contra different
    exact nameOf_chars_ne short (fun zero => nameText 0 zero rfl) different same.symm
  · rintro rfl
    exact whole.symm

theorem not_hit_empty {key : List Byte} : ¬ Hit key (List.replicate direntSize 0) := by
  rintro ⟨some, -⟩
  exact some (by decide)

end Entries

section Root
variable {files : List InputFile}

theorem direntAt_dot (files : List InputFile) :
    direntAt (imageFiles files rootIno) 0 = direntBytes rootIno dot := by
  rw [imageFiles_root, List.append_assoc]
  exact direntAt_zero (length_direntBytes ..)

theorem direntAt_dotdot (files : List InputFile) :
    direntAt (imageFiles files rootIno) 1 = direntBytes rootIno dotdot := by
  rw [imageFiles_root, List.append_assoc]
  exact (direntAt_append (length_direntBytes ..)).trans (direntAt_zero (length_direntBytes ..))

theorem direntAt_file {i : Nat} (inside : i < files.length) :
    direntAt (imageFiles files rootIno) (i + 2) = direntBytes (i + 2) files[i].name := by
  have length : (direntBytes rootIno dot ++ direntBytes rootIno dotdot).length = direntSize * 2 := by
    rw [List.length_append, length_direntBytes, length_direntBytes]
    rfl
  rw [imageFiles_root, Nat.add_comm i 2, direntAt_append length, direntAt_dirents inside]

theorem direntAt_end {j : Nat} (beyond : files.length + 2 ≤ j) :
    direntAt (imageFiles files rootIno) j = List.replicate direntSize 0 := by
  apply direntAt_beyond
  rw [length_imageFiles_root]
  exact Nat.mul_le_mul_left 16 beyond

theorem InputFile.mem_argv (f : InputFile) {c : Byte} (member : c ∈ f.name) : c ∈ f.argv := by
  unfold InputFile.name at member
  split at member
  · exact List.mem_of_mem_tail member
  · exact member

theorem InputFile.name_text (f : InputFile) : ∀ c ∈ f.name, c ≠ 0 :=
  fun c member => f.text c (f.mem_argv member)

end Root

/-! ## The lookup -/

section Lookup
variable {t : Build} {files : List InputFile} {forbidden : Mark → Bool} {up : Bool}
  {E : Stop → Vol (InodeMem FsMem) → Prop}

/-- The root directory in the inode cache. -/
theorem rooted_slot (disk : Nat → Bytes) (up : Bool) :
    (mountedVol disk up).rooted.mem.icache 0 =
      ⟨dinodeOf disk rootIno, rootIno, numProcs + 1, true, true⟩ := by
  rw [Vol.rooted, setInode_self]
  rfl

/-- `inode_get` while the root directory is locked. -/
theorem wp_iget_rooted {disk : Nat → Bytes} {inum : Nat} {Q : Nat → Vol (InodeMem FsMem) → Prop}
    (next : ∀ ip w, 1 < (w.mem.icache 0).ref → (w.mem.icache 0).busy = true →
      ((w.unlocked 0).mem.icache ip).inum = inum → Q ip w) :
    (fsVolume forbidden).Wp (iget inum) (mountedVol disk up).rooted Q E := by
  have slot := rooted_slot disk up
  obtain ⟨v, rooted⟩ : ∃ v, v = (mountedVol disk up).rooted := ⟨_, rfl⟩
  have rest : ∀ ip, ip ≠ 0 → v.mem.icache ip = zeroInode := by
    intro ip other
    rw [rooted, Vol.rooted, setInode_other _ _ other]
    exact Function.update_of_ne other ..
  rw [← rooted] at slot ⊢
  have many : (v.mem.icache 0).ref = 65 := by
    rw [slot]
    rfl
  by_cases root : inum = rootIno
  · apply wp_iget_cached (cached_first (by omega) (by rw [slot, root]))
    apply next
    · simp only [setInode_self]
      omega
    · rw [setInode_self, slot]
    · rw [Vol.unlocked, setInode_self, setInode_self, slot, root]
  · have absent : cached v.mem.icache inum = none := by
      refine cached_boot (by rw [slot]) (fun ip other => ?_) root
      rw [rest ip other]
      rfl
    have free : emptySlot v.mem.icache = some 1 := by
      refine emptySlot_second (by omega) ?_
      rw [rest 1 (by decide)]
      rfl
    have first : (0 : Nat) ≠ 1 := by decide
    apply wp_iget_fresh absent free
    apply next
    · rw [setInode_other _ _ first]
      omega
    · rw [setInode_other _ _ first, slot]
    · rw [Vol.unlocked, setInode_other _ _ first.symm, setInode_self]

/-- The image of some files as mkfs leaves it, with nothing in the log region. -/
structure OnImage (t : Build) (files : List InputFile) : Prop where
  built : Built t (imageFiles files) (imageSizes files)
  freeinode : t.freeinode = files.length + 2
  few : files.length ≤ 198
  room : t.freeblock ≤ 1014

theorem OnImage.root_dinode (image : OnImage t files) :
    (dinodeOf t.finish.disk rootIno).type = tDir ∧
      (dinodeOf t.finish.disk rootIno).size = (16 * (files.length + 2) / bSize + 1) * bSize ∧
      (dinodeOf t.finish.disk rootIno).addrs = tableOf t rootIno := by
  have built := image.built
  have inside : 0 < rootIno ∧ rootIno < t.freeinode := by
    rw [image.freeinode]
    unfold rootIno
    omega
  have plain := built.plain rootIno inside.1 inside.2
  rw [built.finish_dinode (by decide)]
  refine ⟨plain.type, ?_, (if_pos inside).symm⟩
  rw [plain.size, imageSizes, Function.update_self, length_imageFiles_root]

/-- The bytes of the root directory on the image: behind the entries there are zeros. -/
theorem OnImage.root_byte (image : OnImage t files) {k : Nat} (below : k / bSize < maxFile)
    (some : blockNo t.finish.disk (tableOf t rootIno) (k / bSize) ≠ 0) :
    byteAt t.finish.disk (tableOf t rootIno) k = (imageFiles files rootIno).getD k 0 := by
  have holding := image.built.holding rootIno
  rw [image.built.finish_disk] at some ⊢
  by_cases inside : k < (imageFiles files rootIno).length
  · exact holding.byteAt_eq inside
  · rw [holding.tail k (Nat.not_lt.mp inside) below some, List.getD_eq_getElem?_getD,
      List.getElem?_eq_none (Nat.not_lt.mp inside)]
    rfl

theorem OnImage.mounted (image : OnImage t files) (up : Bool) :
    Mounted mkfsSb (tableOf t) (mountedVol t.finish.disk up).rooted :=
  (image.built.mounted image.room up).setInode 0 _

variable {i j : Nat}

theorem entry_block {n : Nat} (present : direntSize * j / bSize * bSize < 16 * n)
    (inside : i * bSize < direntSize * j + direntSize) : i * bSize < 16 * n := by
  have first : i ≤ j / 32 := by
    unfold bSize direntSize at inside
    omega
  have block : direntSize * j / bSize = j / 32 := by
    unfold bSize direntSize
    omega
  rw [block] at present
  exact Nat.lt_of_le_of_lt (Nat.mul_le_mul_right _ first) present

/-- An entry in a block that the root directory has is read as it is. -/
theorem OnImage.wp_entry (image : OnImage t files)
    {R : Option (List Byte) → Vol (InodeMem FsMem) → Prop}
    (listed : direntSize * j < (dinodeOf t.finish.disk rootIno).size)
    (present : direntSize * j / bSize * bSize < 16 * (files.length + 2))
    (next : R (some (direntAt (imageFiles files rootIno) j)) (mountedVol t.finish.disk up).rooted) :
    (fsVolume forbidden).Wp (iread 0 (direntSize * j) direntSize) (mountedVol t.finish.disk up).rooted
      R E := by
  have few := image.few
  have slot := rooted_slot t.finish.disk up
  have mounted := image.mounted up
  have holding := image.built.holding rootIno
  have length := length_imageFiles_root files
  obtain ⟨type, size, addrs⟩ := image.root_dinode
  rw [size] at listed
  have small : direntSize * j + direntSize ≤ 3584 := by
    unfold bSize direntSize at *
    omega
  have limit : 3584 ≤ maxFile * bSize := by decide
  have covers : Covers t.finish.disk (tableOf t rootIno) (direntSize * j + direntSize) := by
    intro i inside
    rw [image.built.finish_disk]
    refine (holding.blocks i ?_).mpr ?_
    · exact Nat.lt_of_mul_lt_mul_right (Nat.lt_of_lt_of_le inside (Nat.le_trans small limit))
    · rw [length]
      exact entry_block present inside
  have bytes : ((List.range direntSize).map fun i =>
      byteAt t.finish.disk (tableOf t rootIno) (direntSize * j + i)) =
      direntAt (imageFiles files rootIno) j := by
    apply List.map_congr_left
    intro i member
    have inside := List.mem_range.mp member
    have start := Nat.div_mul_le_self (direntSize * j + i) bSize
    apply image.root_byte
    · have below := Nat.lt_of_lt_of_le (Nat.add_lt_add_left inside _) small
      exact Nat.lt_of_mul_lt_mul_right (Nat.lt_of_le_of_lt start (Nat.lt_of_lt_of_le below limit))
    · exact covers _ (Nat.lt_of_le_of_lt start (Nat.add_lt_add_left inside _))
  have least : direntSize = min direntSize
      (((mountedVol t.finish.disk up).rooted.mem.icache 0).size - direntSize * j) := by
    rw [slot, size]
    unfold bSize direntSize at listed ⊢
    omega
  rw [← bytes] at next
  refine wp_iread mounted ?_ ?_ ?_ ?_ least (Nat.le_trans small limit) covers next
  · rw [slot, addrs]
  · rw [slot, type]
    decide
  · rw [slot, size]
    exact Nat.le_of_lt listed
  · exact Nat.lt_of_le_of_lt small (by decide)

/-- An entry in a block that the root directory lacks stops the kernel. -/
theorem OnImage.wp_hole (image : OnImage t files)
    {R : Option (List Byte) → Vol (InodeMem FsMem) → Prop}
    (listed : direntSize * j < (dinodeOf t.finish.disk rootIno).size)
    (absent : 16 * (files.length + 2) ≤ direntSize * j / bSize * bSize) :
    (fsVolume forbidden).Wp (iread 0 (direntSize * j) direntSize) (mountedVol t.finish.disk up).rooted
      R fun w _ => w ≠ .beyond := by
  have few := image.few
  have slot := rooted_slot t.finish.disk up
  have holding := image.built.holding rootIno
  have length := length_imageFiles_root files
  obtain ⟨type, size, addrs⟩ := image.root_dinode
  rw [size] at listed
  have direct : direntSize * j / bSize < nDirect := by
    unfold bSize direntSize nDirect at *
    omega
  have none : tableOf t rootIno (direntSize * j / bSize) = 0 := by
    have blocks := holding.blocks (direntSize * j / bSize) (by unfold maxFile; omega)
    rw [length, blockNo_direct direct] at blocks
    by_contra some
    exact absurd (blocks.mp some) (Nat.not_lt.mpr absent)
  apply wp_iread_hole (image.mounted up) (by decide)
  · rintro ⟨-, busy⟩
    cases busy
  · rw [slot, type]
    decide
  · rw [slot, size]
    exact listed
  · decide
  · unfold bSize direntSize at *
    omega
  · exact direct
  · rw [slot, addrs, none]

/-- The names under which the kernel finds a file of the image. -/
def Findable (name : List Byte) : Prop :=
  1 ≤ name.length ∧ name.length < dirSiz ∧ name ≠ dot ∧ name ≠ dotdot

instance (name : List Byte) : Decidable (Findable name) :=
  inferInstanceAs (Decidable (_ ∧ _ ∧ _ ∧ _))

/-- The file system's answer names this inode. -/
def Names (inum : Nat) (r : Option Nat) (w : Vol (InodeMem FsMem)) : Prop :=
  ∃ ip, r = some ip ∧ (w.mem.icache ip).inum = inum

theorem listed_of_lt {size : Nat} (below : j < entries size) : direntSize * j < size := by
  unfold entries direntSize at *
  omega

section
variable (image : OnImage t files)
include image

theorem OnImage.inode_lt (inside : i < files.length) : i + 2 < 65536 := by
  have := image.few
  omega

/-- The entries that have the name `key`, and the inodes they lead to. -/
theorem OnImage.hit_cases {key : List Byte} (text : ∀ c ∈ key, c ≠ 0) (short : key.length < dirSiz)
    (hit : Hit key (direntAt (imageFiles files rootIno) j)) :
    (j < 2 ∧ (direntOf (direntAt (imageFiles files rootIno) j)).inum = rootIno ∧
        (key = dot ∨ key = dotdot)) ∨
      ∃ i, ∃ inside : i < files.length, j = i + 2 ∧ files[i].name = key ∧
        (direntOf (direntAt (imageFiles files rootIno) j)).inum = i + 2 := by
  match j with
  | 0 =>
    rw [direntAt_dot] at hit ⊢
    have named := (hit_iff text (by decide) short (by decide) (by decide)).mp hit
    exact .inl ⟨by decide, inum_direntBytes (by decide), .inl named.symm⟩
  | 1 =>
    rw [direntAt_dotdot] at hit ⊢
    have named := (hit_iff text (by decide) short (by decide) (by decide)).mp hit
    exact .inl ⟨by decide, inum_direntBytes (by decide), .inr named.symm⟩
  | i + 2 =>
    by_cases inside : i < files.length
    · rw [direntAt_file inside] at hit ⊢
      have named := (hit_iff text files[i].name_text short (Nat.succ_ne_zero _)
        (image.inode_lt inside)).mp hit
      exact .inr ⟨i, inside, rfl, named, inum_direntBytes (image.inode_lt inside)⟩
    · rw [direntAt_end (by omega)] at hit
      exact absurd hit not_hit_empty

theorem OnImage.entries_le : files.length + 2 ≤ entries (dinodeOf t.finish.disk rootIno).size := by
  rw [image.root_dinode.2.1]
  unfold entries bSize direntSize
  omega

/-- A lookup in the root directory ends at the first entry that matches, behind the last one, or at
the first entry in a block that is not there. -/
theorem OnImage.wp_lookup {elem : List Byte} {Q : Option Nat → Vol (InodeMem FsMem) → Prop}
    (some : elem ≠ []) (single : slash ∉ elem)
    (found : ∀ j ip w, Hit (elem.take (dirSiz - 1)) (direntAt (imageFiles files rootIno) j) →
      (∀ i < j, ¬ Hit (elem.take (dirSiz - 1)) (direntAt (imageFiles files rootIno) i)) →
      (w.mem.icache ip).inum = (direntOf (direntAt (imageFiles files rootIno) j)).inum →
      Q (Option.some ip) w) (missing : (∀ i < files.length + 2,
      ¬ Hit (elem.take (dirSiz - 1)) (direntAt (imageFiles files rootIno) i)) → ∀ w, Q none w)
    (hole : ∀ j, j < entries (dinodeOf t.finish.disk rootIno).size →
      (∀ i < j, ¬ Hit (elem.take (dirSiz - 1)) (direntAt (imageFiles files rootIno) i)) →
      16 * (files.length + 2) ≤ direntSize * j / bSize * bSize → ∀ w v, w ≠ .beyond → E w v) :
    (fsVolume forbidden).Wp (namei (slash :: elem)) (mountedVol t.finish.disk up) Q E := by
  obtain ⟨type, size, -⟩ := image.root_dinode
  apply wp_namei_root (image.built.mounted image.room up) rfl some single (by decide) type
  refine wp_dirLookupFrom (k := 0) (length_direntAt (imageFiles files rootIno)) ?_ ?_
  · intro j _ below clear R
    rw [Nat.zero_add] at below
    have before := fun i less => clear i (Nat.zero_le i) less
    by_cases present : direntSize * j / bSize * bSize < 16 * (files.length + 2)
    · refine .inl ⟨image.wp_entry (listed_of_lt below) present, fun hit => ?_⟩
      apply wp_iget_rooted
      intro ip w others busy number
      exact ⟨others, busy, found j ip _ hit before number⟩
    · have beyond := Nat.not_lt.mp present
      exact .inr ((image.wp_hole (listed_of_lt below) beyond).weaken (hole j below before beyond))
  · intro clear
    rw [rooted_slot]
    refine ⟨?_, rfl, missing (fun i inside => clear i (Nat.zero_le _) ?_) _⟩
    · change (1 : Int) < 65
      decide
    · rw [Nat.zero_add]
      exact Nat.lt_of_lt_of_le inside image.entries_le

/-- The entry of a file is found under its name. -/
theorem OnImage.wp_find (distinct : (files.map fun f => f.name.take dirSiz).Nodup)
    (inside : i < files.length) (findable : Findable files[i].name)
    (single : slash ∉ files[i].name) :
    (fsVolume forbidden).Wp (namei (slash :: files[i].name)) (mountedVol t.finish.disk up)
      (Names (i + 2)) E := by
  obtain ⟨some, short, notDot, notDotdot⟩ := findable
  have text := files[i].name_text
  have whole : files[i].name.take (dirSiz - 1) = files[i].name := List.take_of_length_le (by omega)
  have mine : Hit files[i].name (direntAt (imageFiles files rootIno) (i + 2)) := by
    rw [direntAt_file inside]
    exact (hit_iff text text short (Nat.succ_ne_zero _) (image.inode_lt inside)).mpr rfl
  apply image.wp_lookup (List.length_pos_iff.mp some) single
  · rw [whole]
    intro j ip w hit _ number
    refine ⟨ip, rfl, number.trans ?_⟩
    rcases image.hit_cases text short hit with ⟨-, -, root⟩ | ⟨k, below, rfl, named, number⟩
    · exact absurd root (not_or.mpr ⟨notDot, notDotdot⟩)
    · -- Another file with this name would have the same stored name.
      have left : k < (files.map fun f => f.name.take dirSiz).length := by simpa using below
      have right : i < (files.map fun f => f.name.take dirSiz).length := by simpa using inside
      have stored : (files.map fun f => f.name.take dirSiz)[k] =
          (files.map fun f => f.name.take dirSiz)[i] := by simp [named]
      rw [number, distinct.getElem_inj_iff.mp stored]
  · rw [whole]
    intro clear
    exact absurd mine (clear (i + 2) (by omega))
  · rw [whole]
    intro j _ clear beyond
    have reached : j ≤ i + 2 := by
      by_contra later
      exact clear (i + 2) (by omega) mine
    have start := Nat.div_mul_le_self (direntSize * j) bSize
    unfold direntSize at *
    omega

/-- Under another name of a file, its entry is not found. -/
theorem OnImage.wp_miss (inside : i < files.length) (other : ¬ Findable files[i].name)
    (single : slash ∉ files[i].name) :
    (fsVolume forbidden).Wp (namei (slash :: files[i].name)) (mountedVol t.finish.disk up)
      (fun r w => ¬ Names (i + 2) r w) fun w _ => w ≠ .beyond := by
  by_cases none : files[i].name = []
  · -- The path is the root directory itself.
    have found : cached (bootMem numProcs).icache rootIno = some 0 := cached_first (by decide) rfl
    rw [none, namei_root]
    apply Machine.Wp.seq
    apply wp_iget_cached (show cached (mountedVol t.finish.disk up).mem.icache rootIno = some 0 from found)
    apply Machine.Wp.ret
    rintro ⟨ip, here, number⟩
    obtain rfl := Option.some.inj here
    rw [setInode_self] at number
    change 1 = i + 2 at number
    omega
  have short : (files[i].name.take (dirSiz - 1)).length < dirSiz := by
    rw [List.length_take]
    unfold dirSiz
    omega
  have text : ∀ c ∈ files[i].name.take (dirSiz - 1), c ≠ 0 :=
    fun c member => files[i].name_text c (List.mem_of_mem_take member)
  apply image.wp_lookup none single
  · rintro j ip w hit clear number ⟨jp, here, found⟩
    obtain rfl := Option.some.inj here
    rw [number] at found
    rcases image.hit_cases text short hit with ⟨-, root, -⟩ | ⟨k, within, rfl, named, here⟩
    · rw [root] at found
      unfold rootIno at found
      omega
    · obtain rfl : k = i := by omega
      -- The name was not cut, so it is one of the two that stand before.
      rw [← named] at text short clear
      have positive : 1 ≤ files[k].name.length := List.length_pos_iff.mpr none
      have special : files[k].name = dot ∨ files[k].name = dotdot := by
        by_contra neither
        exact other ⟨positive, short, not_or.mp neither⟩
      rcases special with first | second
      · refine clear 0 (by omega) ?_
        rw [direntAt_dot, ← first]
        exact (hit_iff text text short (by decide) (by decide)).mpr rfl
      · refine clear 1 (by omega) ?_
        rw [direntAt_dotdot, ← second]
        exact (hit_iff text text short (by decide) (by decide)).mpr rfl
  · rintro _ w ⟨ip, here, -⟩
    cases here
  · intro _ _ _ _ w _ answered
    exact answered

/-- Where the root directory has all its blocks, every lookup returns. -/
theorem OnImage.wp_scan (partly : (files.length + 2) % 32 ≠ 0) {elem : List Byte} (some : elem ≠ [])
    (single : slash ∉ elem) :
    (fsVolume forbidden).Wp (namei (slash :: elem)) (mountedVol t.finish.disk up) (fun _ _ => True) E := by
  apply image.wp_lookup some single
  · intros
    trivial
  · intros
    trivial
  · intro j below _ beyond
    have listed := listed_of_lt below
    rw [image.root_dinode.2.1] at listed
    unfold bSize direntSize at *
    omega

/-- The kernel finds a file of the image exactly under the names it can look up. -/
theorem OnImage.namei_iff (distinct : (files.map fun f => f.name.take dirSiz).Nodup)
    (inside : i < files.length) (single : slash ∉ files[i].name) :
    (∃ ip k, (fsMachine forbidden).run (logStart up >>= fun _ => namei (slash :: files[i].name))
        (booted t.finish.disk) = .ok (some ip) k ∧ (k.upper.icache ip).inum = i + 2) ↔
      Findable files[i].name := by
  constructor
  · rintro ⟨ip, k, done, number⟩
    by_contra other
    obtain ⟨w, same, misses⟩ := image.built.of_ok image.room (image.wp_miss inside other single) done
    rw [same] at number
    exact misses ⟨ip, rfl, number⟩
  · intro findable
    obtain ⟨r, k, w, done, same, ip, rfl, number⟩ := image.built.returns image.room
      (image.wp_find distinct inside findable single)
    rw [← same] at number
    exact ⟨ip, k, done, number⟩

end

end Lookup

theorem onImage_of_done {files : List InputFile} {s : Build}
    (done : buildMachine.run (mkfs files) newBuild = .ok () s) (few : files.length ≤ 198)
    (room : blocksUsed files ≤ 1014) :
    ∃ t, s = t.finish ∧ OnImage t files ∧ ∀ f ∈ files, slash ∉ f.name := by
  obtain ⟨t, final, built, freeinode, fits⟩ := mkfs_done (by omega) done
  refine ⟨t, final, ⟨built, freeinode, few, ?_⟩, ?_⟩
  · rw [built.freeblock_eq (by omega)]
    exact room
  · intro f member slashed
    exact fits.plainNames f member (f.mem_argv slashed)

/-- A successful image without inodes in the bitmap has no holes exactly if the root directory does
not end with a full block; on such an image, with nothing in the log region, the kernel completes
every lookup in the root directory outside of a transaction, where allocating a block would stop
it. -/
theorem mkfs_holes (files : List InputFile) (s : Build)
    (done : buildMachine.run (mkfs files) newBuild = .ok () s) (few : files.length ≤ 206) :
    (HoleFree s ↔ (files.length + 2) % 32 ≠ 0) ∧
      (HoleFree s → files.length ≤ 198 → blocksUsed files ≤ 1014 →
        ∀ elem : List Byte, elem ≠ [] → slash ∉ elem → ∀ (forbidden : Mark → Bool) (up : Bool),
          ∃ r k, (fsMachine forbidden).run (logStart up >>= fun _ => namei (slash :: elem))
            (booted s.disk) = .ok r k) := by
  have holes := holeFree_iff done few
  refine ⟨holes, fun whole inodes room elem some single forbidden up => ?_⟩
  obtain ⟨t, rfl, image, -⟩ := onImage_of_done done inodes room
  have scan : (fsVolume forbidden).Wp (namei (slash :: elem)) (mountedVol t.finish.disk up)
      (fun _ _ => True) fun _ _ => False := image.wp_scan (holes.mp whole) some single
  obtain ⟨r, k, -, returned, -⟩ := image.built.returns image.room scan
  exact ⟨r, k, returned⟩

theorem mkfs_holes_nil : ∃ s, buildMachine.run (mkfs []) newBuild = .ok () s ∧ HoleFree s := by
  have fits : FitsBelow [] 1024 := emptyFiles_fit (Nat.zero_le 206)
  obtain ⟨s, done⟩ := mkfs_succeeds (by decide) fits
  exact ⟨s, done, (mkfs_holes [] s done (by decide)).1.mpr (by decide)⟩

/-- On an image in its regions whose files have different names, as far as they are stored, the
path of a file leads to its inode exactly if the name is neither empty nor longer than 13
characters, and is not one of the entries of the directory itself. -/
theorem mkfs_namei (files : List InputFile) (s : Build)
    (done : buildMachine.run (mkfs files) newBuild = .ok () s) (few : files.length ≤ 198)
    (room : blocksUsed files ≤ 1014) (distinct : (files.map fun f => f.name.take dirSiz).Nodup)
    (i inum : Nat) (inside : i < files.length) (assigned : s.inodes[i + 1]? = some inum)
    (forbidden : Mark → Bool) (up : Bool) :
    (∃ ip k, (fsMachine forbidden).run (logStart up >>= fun _ => namei (slash :: files[i].name))
        (booted s.disk) = .ok (some ip) k ∧ (k.upper.icache ip).inum = inum) ↔
      1 ≤ files[i].name.length ∧ files[i].name.length < dirSiz ∧
        files[i].name ≠ dot ∧ files[i].name ≠ dotdot := by
  rw [mkfs_inodes done, List.getElem?_range' (by omega)] at assigned
  obtain rfl : i + 2 = inum := by
    have := Option.some.inj assigned
    omega
  obtain ⟨t, rfl, image, single⟩ := onImage_of_done done few room
  exact image.namei_iff distinct inside (single _ (List.getElem_mem inside))

/-- The file `a` is found. -/
theorem mkfs_namei_note : ∃ s, buildMachine.run (mkfs [noteFile]) newBuild = .ok () s ∧
    ∃ ip k, (fsMachine fun _ => false).run (logStart true >>= fun _ => namei [slash, 0x61])
      (booted s.disk) = .ok (some ip) k ∧ (k.upper.icache ip).inum = 2 := by
  obtain ⟨s, done⟩ := mkfs_succeeds (by decide) (noteFile_fits.mono (by decide : 1014 ≤ 1024))
  have assigned : s.inodes[0 + 1]? = some 2 := by
    rw [mkfs_inodes done]
    rfl
  exact ⟨s, done, (mkfs_namei [noteFile] s done (by decide) (by decide) (by decide) 0 2 (by decide)
    assigned (fun _ => false) true).mpr (by decide)⟩

/-- A file with a name of 14 characters. -/
def longFile : InputFile :=
  ⟨[0x61, 0x62, 0x63, 0x64, 0x65, 0x66, 0x67, 0x68, 0x69, 0x6a, 0x6b, 0x6c, 0x6d, 0x6e], [], by decide,
    emptyFile.sized⟩

/-- A name of 14 characters is stored in full, but looked up without its last character. -/
theorem long_name_lost : ∃ s, buildMachine.run (mkfs [longFile]) newBuild = .ok () s ∧
    s.inodes[0 + 1]? = some 2 ∧
    ¬ ∃ ip k, (fsMachine fun _ => false).run (logStart true >>= fun _ => namei (slash :: longFile.name))
      (booted s.disk) = .ok (some ip) k ∧ (k.upper.icache ip).inum = 2 := by
  have fits : FitsBelow [longFile] 1024 := by
    constructor
    · intro f member
      obtain rfl := List.mem_singleton.mp member
      decide
    · intro f member
      obtain rfl := List.mem_singleton.mp member
      decide
    · decide
    · decide
  obtain ⟨s, done⟩ := mkfs_succeeds (by decide) fits
  obtain ⟨t, rfl, image, single⟩ := onImage_of_done done (by decide) (by decide)
  refine ⟨_, done, ?_, fun found => ?_⟩
  · rw [mkfs_inodes done]
    rfl
  · have inside : 0 < [longFile].length := by decide
    have findable := (image.namei_iff (by decide) inside (single _ (List.getElem_mem inside))).mp found
    have cut : ¬ Findable longFile.name := by decide
    exact cut findable

end OsAudio.Mkfs

import OsAudio.Fs.Mounted
import OsAudio.Mkfs.Regions

/-!
# The kernel reads an image of mkfs

The kernel is started on the image, with or without `log_init`, and reads the inodes that mkfs has
written, by their numbers.
-/
namespace OsAudio.Mkfs
open OsAudio.Lib OsAudio.Fs

/-- `log_init`, which the first `sys_open` calls, may have run. -/
def logStart (up : Bool) : FsProg Unit :=
  if up then Prog.op (S := InodeSig FsMem) .logInit else pure ()

/-- What the kernel sees of the disk after boot. -/
def mountedVol (disk : Nat → Bytes) (up : Bool) : Vol (InodeMem FsMem) :=
  ⟨disk, up, false, ∅, ∅, 1014, 10, bootMem numProcs⟩

theorem superblockOf_image : superblockOf (superblockBytes mkfsSb) = mkfsSb := by
  decide

/-! ## The image as a volume -/

section Mount
variable {t : Build} {F : Nat → List Byte} {size : Nat → Nat} {α : Type} {forbidden : Mark → Bool}
  {up : Bool}

/-- Without blocks in the log, the layout of the kernel is as good as that of mkfs. -/
theorem Built.mounted (built : Built t F size) (fits : t.freeblock ≤ 1014) (up : Bool) :
    Mounted mkfsSb (tableOf t) (mountedVol t.finish.disk up) := by
  have super : t.finish.disk 1 = superblockBytes mkfsSb := by
    rw [built.finish_disk, marked_of_ne (by decide), built.super]
  refine ⟨⟨by decide, by decide⟩, ⟨?_, rfl, rfl⟩, rfl, rfl, by decide, ?_⟩
  · exact (congrArg superblockOf super).trans superblockOf_image
  · change Storage mkfsSb t.finish.disk (tableOf t)
    rw [built.finish_disk]
    have owned := built.storage.owned
    refine ⟨built.storage.low, owned.distinct, fun x some => ?_, owned.exact⟩
    have range := Storage.block_range built.storage some
    exact ⟨range.1, Nat.lt_of_lt_of_le range.2.2 fits⟩

theorem Built.shows_image (built : Built t F size) (fits : t.freeblock ≤ 1014) :
    Shows (booted t.finish.disk) (mountedVol t.finish.disk false) := by
  have mounted := built.mounted fits false
  have super : superblockOf (t.finish.disk 1) = mkfsSb := mounted.laid.superblock
  have header : (t.finish.disk 1014).get 0 4 = 0 := by
    rw [built.finish_disk, built.zeroed 1014 fits, Bytes.get_zero]
  have outside : 1 < mkfsSb.dataEnd := by decide
  refine shows_powerOn _ ?_ ?_ (mounted.laid.home mounted.layout outside) header
  · rw [super]
    decide
  · rw [super]
    decide

theorem run_logStart (disk : Nat → Bytes) (up : Bool) :
    (fsVolume forbidden).run (logStart up) (mountedVol disk false) = .ok () (mountedVol disk up) := by
  cases up with
  | false => rfl
  | true => rfl

/-- What the calls return on the volume, the kernel returns. -/
theorem Built.returns (built : Built t F size) (fits : t.freeblock ≤ 1014) {p : FsProg α}
    {Q : α → Vol (InodeMem FsMem) → Prop}
    (sat : (fsVolume forbidden).Wp p (mountedVol t.finish.disk up) Q fun _ _ => False) :
    ∃ a s w, (fsMachine forbidden).run (logStart up >>= fun _ => p) (booted t.finish.disk) = .ok a s ∧
      s.upper = w.mem ∧ Q a w := by
  obtain ⟨a, w, done, post⟩ := sat.returns
  have whole := (Machine.run_bind_ok (f := fun _ => p)
    (@run_logStart forbidden t.finish.disk up)).trans done
  obtain ⟨s, real, presented⟩ := (fs_refines forbidden).returns (fun _ _ _ => trivial)
    (built.shows_image fits) whole
  exact ⟨a, s, w, real, presented.upper_eq, post⟩

/-- What holds of every result on the volume holds of the kernel's result. -/
theorem Built.of_ok (built : Built t F size) (fits : t.freeblock ≤ 1014) {p : FsProg α}
    {Q : α → Vol (InodeMem FsMem) → Prop} {a : α} {s : FsState}
    (sat : (fsVolume forbidden).Wp p (mountedVol t.finish.disk up) Q fun w _ => w ≠ .beyond)
    (done : (fsMachine forbidden).run (logStart up >>= fun _ => p) (booted t.finish.disk) = .ok a s) :
    ∃ w, s.upper = w.mem ∧ Q a w := by
  have whole : (fsVolume forbidden).Wp (logStart up >>= fun _ => p) (mountedVol t.finish.disk false) Q
      fun w _ => w ≠ .beyond := by
    unfold Machine.Wp
    rw [Machine.run_bind_ok (run_logStart t.finish.disk up)]
    exact sat
  obtain ⟨w, -, post, presented⟩ := (fs_refines forbidden).of_ok (fun _ _ _ => trivial)
    (built.shows_image fits) whole (fun _ _ other => other) done
  exact ⟨w, presented.upper_eq, post⟩

end Mount

/-! ## Reading a file -/

/-- `inode_get`, `inode_lock` and `inode_read`, with the fields that `inode_lock` loads. -/
def readBack (inum off n : Nat) : FsProg (InodeView × Option (List Byte)) := do
  let ip ← iget inum
  ilock ip
  let view ← look ip
  let bytes ← iread ip off n
  pure (view, bytes)

theorem emptySlot_second {icache : Nat → Inode} (used : (icache 0).ref ≠ 0) (free : (icache 1).ref = 0) :
    emptySlot icache = some 1 := by
  have slots : List.range nInode = 0 :: 1 :: (List.range 48).map (· + 2) := by decide
  rw [emptySlot, slots, List.find?_cons_of_neg (by simpa using used)]
  exact List.find?_cons_of_pos (by simpa using free)

/-- Only the root directory is referenced. -/
theorem cached_boot {inum : Nat} {icache : Nat → Inode} (root : (icache 0).inum = rootIno)
    (rest : ∀ ip, ip ≠ 0 → (icache ip).ref = 0) (other : inum ≠ rootIno) : cached icache inum = none := by
  apply List.find?_eq_none.mpr
  intro ip _
  by_cases first : ip = 0
  · rw [first, root]
    simpa using fun _ => other.symm
  · rw [rest ip first]
    simp

section Read
variable {t : Build} {F : Nat → List Byte} {size : Nat → Nat} {forbidden : Mark → Bool} {up : Bool}
  {inum : Nat}

/-- The kernel finds the size that mkfs has written, and the bytes it has appended. -/
theorem Built.wp_readBack (built : Built t F size) (fits : t.freeblock ≤ 1014) {off n : Nat}
    (low : rootIno < inum) (below : inum < t.freeinode) (sized : size inum = (F inum).length)
    (start : off ≤ (F inum).length) (word : off + n < 4294967296) :
    (fsVolume forbidden).Wp (readBack inum off n) (mountedVol t.finish.disk up)
      (fun r _ => r.1.inum = inum ∧ r.1.type = tFile ∧ r.1.size = (F inum).length ∧
        r.2 = some (((F inum).drop off).take n)) fun _ _ => False := by
  have few := built.few
  have mounted := built.mounted fits up
  have holding := built.holding inum
  have positive : 0 < inum := Nat.lt_trans (by decide) low
  have dinode : dinodeOf t.finish.disk inum = dinodeOf t.disk inum := built.finish_dinode (by omega)
  have plain := built.plain inum positive below
  have table : tableOf t inum = (dinodeOf t.disk inum).addrs := if_pos ⟨positive, below⟩
  have kind : kindOf inum = tFile := if_neg (by omega)
  have rest : ∀ ip, ip ≠ 0 → ((bootMem numProcs).icache ip).ref = 0 := by
    intro ip other
    simp only [bootMem, Function.update_of_ne other]
    rfl
  have absent : cached (bootMem numProcs).icache inum = none := cached_boot rfl rest (by omega)
  have free : emptySlot (bootMem numProcs).icache = some 1 := emptySlot_second (by decide) rfl
  obtain ⟨v, image⟩ : ∃ v, v = mountedVol t.finish.disk up := ⟨_, rfl⟩
  have boot : v.mem = bootMem numProcs := by
    rw [image]
    rfl
  have data : v.data = t.finish.disk := by
    rw [image]
    rfl
  rw [← image] at mounted ⊢
  rw [← boot] at absent free
  apply Machine.Wp.seq
  apply wp_iget_fresh absent free
  apply Machine.Wp.seq
  have entry : dinodeOf v.data inum = dinodeOf t.disk inum := by rw [data, dinode]
  apply wp_ilock (mounted.setInode 1 _)
  · simp only [setInode_self, Int.le_refl]
  · simp only [setInode_self]
  · simp only [setInode_self]
  · simp only [setInode_self]
    have := (iblock_small (by omega : inum < 208)).1
    exact Nat.lt_trans this (by decide)
  · simp only [setInode_self, setInode_data, entry, plain.type, kind]
    decide
  rw [setInode_setInode]
  obtain ⟨inode, loaded⟩ : ∃ inode : Inode, inode = { v.mem.icache 1 with
    toDinode := dinodeOf v.data inum, inum := inum, ref := 1, busy := true, valid := true } := ⟨_, rfl⟩
  change (fsVolume forbidden).Wp _ (v.setInode 1 { v.mem.icache 1 with
    toDinode := dinodeOf v.data inum, inum := inum, ref := 1, busy := true, valid := true }) _ _
  rw [← loaded]
  have slot := setInode_self v 1 inode
  have same : inode.toDinode = dinodeOf t.disk inum ∧ inode.inum = inum := by
    rw [loaded, ← entry]
    exact ⟨rfl, rfl⟩
  have disk : (v.setInode 1 inode).data = t.marked := by
    rw [setInode_data, data, built.finish_disk]
  have length : inode.size = (F inum).length := by
    rw [same.1, plain.size, sized]
  have type : inode.type = tFile := by
    rw [same.1, plain.type, kind]
  apply Machine.Wp.seq
  apply wp_look
  apply Machine.Wp.seq
  have short := holding.small
  apply wp_iread (mounted.setInode 1 inode)
  · rw [slot, same.1, table]
  · rw [slot, type]
    decide
  · rw [slot, length]
    exact start
  · exact word
  · rw [slot, length]
  · omega
  · intro i inside
    rw [disk]
    exact holding.covers i (by omega)
  · apply Machine.Wp.ret
    rw [disk, slot, ← contentOf_take rfl, holding.content]
    exact ⟨same.2, type, length, rfl⟩

end Read

theorem FitsBelow.mono {files : List InputFile} {last more : Nat} (fits : FitsBelow files last)
    (le : last ≤ more) : FitsBelow files more :=
  ⟨fits.plainNames, fits.short, fits.root, Nat.le_trans fits.room le⟩

/-- Files that fit between the bitmap and the log are all on the image, and the kernel reads each
of them back, from its inode, whatever part of it is asked for. -/
theorem mkfs_readBack (files : List InputFile) (few : files.length ≤ 198)
    (fits : FitsBelow files 1014) :
    ∃ s, buildMachine.run (mkfs files) newBuild = .ok () s ∧
      ∀ i inum (inside : i < files.length), s.inodes[i + 1]? = some inum →
        ∀ (forbidden : Mark → Bool) (up : Bool) (off n : Nat), off ≤ files[i].content.length →
          off + n < 4294967296 →
          ∃ view t, (fsMachine forbidden).run (logStart up >>= fun _ => readBack inum off n)
              (booted s.disk) = .ok (view, some ((files[i].content.drop off).take n)) t ∧
            view.type = tFile ∧ view.size = files[i].content.length := by
  obtain ⟨s, done⟩ := mkfs_succeeds (by omega) (fits.mono (by decide))
  refine ⟨s, done, ?_⟩
  intro i inum inside assigned forbidden up off n start word
  rw [mkfs_inodes done, List.getElem?_range' (by omega)] at assigned
  obtain rfl : i + 2 = inum := by
    have := Option.some.inj assigned
    omega
  obtain ⟨t, rfl, built, freeinode, -⟩ := mkfs_done (by omega) done
  have room : t.freeblock ≤ 1014 := by
    rw [built.freeblock_eq (by omega)]
    exact fits.room
  have low : rootIno < i + 2 := by
    unfold rootIno
    omega
  have content := imageFiles_get inside
  have sized : imageSizes files (i + 2) = (imageFiles files (i + 2)).length := by
    rw [imageSizes, Function.update_of_ne (by omega)]
    rfl
  rw [← content] at start ⊢
  have read : (fsVolume forbidden).Wp (readBack (i + 2) off n) (mountedVol t.finish.disk up) _ _ :=
    built.wp_readBack room low (by omega) sized start word
  obtain ⟨⟨view, bytes⟩, k, w, returned, -, -, type, size, delivered⟩ := built.returns room read
  obtain rfl : bytes = _ := delivered
  exact ⟨view, k, returned, type, size⟩

/-- A file of three bytes. -/
def noteFile : InputFile := ⟨[0x61], [[1, 2], [3]], emptyFile.text, by simp⟩

theorem noteFile_fits : FitsBelow [noteFile] 1014 := by
  constructor
  · intro f member
    obtain rfl := List.mem_singleton.mp member
    decide
  · intro f member
    obtain rfl := List.mem_singleton.mp member
    decide
  · decide
  · decide

theorem mkfs_readBack_note : ∃ s, buildMachine.run (mkfs [noteFile]) newBuild = .ok () s ∧
    ∃ view t, (fsMachine fun _ => false).run (logStart true >>= fun _ => readBack 2 0 3)
      (booted s.disk) = .ok (view, some [1, 2, 3]) t ∧ view.type = tFile ∧ view.size = 3 := by
  obtain ⟨s, done, reads⟩ := mkfs_readBack [noteFile] (by decide) noteFile_fits
  have assigned : s.inodes[0 + 1]? = some 2 := by
    rw [mkfs_inodes done]
    rfl
  exact ⟨s, done, reads 0 2 (by decide) assigned (fun _ => false) true 0 3 (by decide) (by decide)⟩

end OsAudio.Mkfs

import OsAudio.Fs.FilesAlloc

/-!
# Files have no holes

Every sequence of calls of the inode layer keeps the blocks of each inode in step with its size,
as long as no block of the log is handed out, and so reading never allocates.  The calls are any
program over the inode layer, in particular the functions on directories; a caller has to keep to
`Proper`: it reads, writes and updates inodes that it has locked, and locks inodes of the image.

On a disk whose data blocks are all in use, `block_alloc` hands out blocks of the log, and the
transaction that writes to them overwrites what it has logged.
-/
namespace OsAudio.Fs
open OsAudio.Lib

/-! ## Images -/

/-- Every allocated inode has a block for each index below `ceil (size / BSIZE)`, and none from
there on. -/
def NoHoles (sb : Superblock) (data : Nat → Bytes) : Prop :=
  ∀ j, j < sb.ninodes → (dinodeOf data j).type ≠ 0 →
    (dinodeOf data j).size ≤ maxFile * bSize ∧
    ∀ i, i < maxFile → (blockNo data (dinodeOf data j).addrs i ≠ 0 ↔
      i < ((dinodeOf data j).size + (bSize - 1)) / bSize)

/-- A disk with an empty log, whose inodes share no blocks and whose bitmap is exact. -/
structure Formatted (sb : Superblock) (disk : Nat → Bytes) : Prop where
  superblock : superblockOf (disk 1) = sb
  layout : Layout sb
  header : (disk sb.dataEnd).get 0 4 = 0
  storage : Storage sb disk (addrsOf sb disk)

section Images
variable {sb : Superblock} {data data' disk : Nat → Bytes}

theorem index_lt_iff (size i : Nat) : i < (size + (bSize - 1)) / bSize ↔ i * bSize < size := by
  unfold bSize
  omega

theorem noHoles_iff : NoHoles sb data ↔ ∀ j, j < sb.ninodes → (dinodeOf data j).type ≠ 0 →
    Filled data (dinodeOf data j).addrs (dinodeOf data j).size := by
  unfold NoHoles
  simp only [index_lt_iff]
  constructor
  · intro full j below used
    obtain ⟨small, blocks⟩ := full j below used
    refine ⟨small, fun i inside => (blocks i ?_).mpr inside, fun i inside beyond => ?_⟩
    · unfold bSize at *
      omega
    · by_contra some
      have := (blocks i inside).mp some
      omega
  · intro full j below used
    have filled := full j below used
    refine ⟨filled.small, fun i inside => ⟨fun some => ?_, filled.covers i⟩⟩
    by_contra beyond
    exact some (filled.tight i inside (Nat.not_lt.mp beyond))

theorem Formatted.intact (formatted : Formatted sb disk) (full : NoHoles sb disk) : Intact sb disk :=
  ⟨formatted.storage, fun j below used => noHoles_iff.mp full j below used⟩

/-- What the log region holds does not matter. -/
theorem Intact.beforeLog (intact : Intact sb data) (layout : Layout sb)
    (same : ∀ t, t < sb.dataEnd → data' t = data t) {j : Nat} (below : j < sb.ninodes) :
    dinodeOf data' j = dinodeOf data j ∧ nodeOf data' j = nodeOf data j ∧
      ((dinodeOf data j).type ≠ 0 → Filled data' (dinodeOf data j).addrs (dinodeOf data j).size) := by
  have fits := layout.fits
  refine intact.frame below (same _ ?_) fun t _ high => same t high
  have := (iblock_low layout below).2
  omega

theorem Intact.noHoles (intact : Intact sb data) (layout : Layout sb)
    (same : ∀ t, t < sb.dataEnd → data' t = data t) : NoHoles sb data' := by
  refine noHoles_iff.mpr fun j below => ?_
  obtain ⟨dinode, -, filled⟩ := intact.beforeLog layout same below
  rw [dinode]
  intro used
  exact filled used

end Images

/-! ## The kernel and files -/

section Kernel
variable {ν : Type} {limit : Option Nat} {forbidden : Mark → Bool} {sb : Superblock} {disk : Nat → Bytes}

/-- The files on a disk. -/
def filesOn (disk : Nat → Bytes) (mem : InodeMem ν) : Files ν :=
  ⟨nodeOf disk, fun ip => slotOf (mem.icache ip), false, false, ∅, 0, mem.rest⟩

/-- The kernel is in a state in which its disk holds the files. -/
def Serves (limit : Option Nat) (sb : Superblock) (s : BufSys (LogMem (InodeMem ν))) (f : Files ν) : Prop :=
  ∃ v, Shows s v ∧ Holds limit sb v f

theorem serves_powerOn (formatted : Formatted sb disk) (full : NoHoles sb disk) {mem : InodeMem ν}
    (cache : Cache sb.ninodes disk mem.icache) (one : exceeds limit 1 = false) :
    Serves limit sb (powerOn mem disk) (filesOn disk mem) := by
  have layout := formatted.layout
  have ends := layout.dataEnd_le
  have word := layout.word
  have fits := layout.fits
  have start : (superblockOf (disk 1)).logStart = sb.dataEnd := by
    rw [formatted.superblock, Superblock.logStart]
    have exact := uint32_of_range (x := (sb.size : Int) - sb.nlog) (by omega) (by omega)
    unfold Superblock.dataEnd at *
    omega
  have size : int32 (superblockOf (disk 1)).nlog = sb.nlog := by
    rw [formatted.superblock, int32_of_range (by omega) (by omega)]
  have laid : (⟨disk, false, false, ∅, ∅, sb.dataEnd, sb.nlog, mem⟩ : Vol (InodeMem ν)).Laid sb :=
    ⟨formatted.superblock, rfl, rfl⟩
  refine ⟨_, shows_powerOn mem start size (laid.home layout (by omega)) formatted.header, ?_⟩
  exact ⟨layout, laid, rfl, rfl, rfl, rfl, rfl, cache, formatted.intact full, fun _ _ => rfl, fun _ => rfl,
    ⟨∅, Nat.zero_le _, Finset.empty_subset _⟩, one⟩

/-- What the inode layer does on a volume, the kernel does. -/
theorem serves_of_holds {N : Machine (InodeSig FsMem) Stop (Files FsMem)}
    (upper : (fsVolume forbidden).Refines N (Holds limit sb) (fun _ _ => True) (Own limit sb) (· = .beyond)) :
    (fsMachine forbidden).Refines N (Serves limit sb) (fun _ _ => True) (Own limit sb) (· = .beyond) := by
  have whole := (fs_refines forbidden).trans upper fun _ own => own.answers
  refine whole.weaken (fun _ _ _ => trivial) ?_
  rintro w (impossible | own)
  · exact impossible.elim
  · exact own

theorem serves_refines (safe : forbidden .logBlock = true) :
    (fsMachine forbidden).Refines (filesMachine limit sb.ninodes forbidden) (Serves limit sb)
      (fun _ _ => True) (Own limit sb) (· = .beyond) :=
  serves_of_holds (files_refine safe)

theorem serves_refines_only :
    (fsMachine forbidden).Refines
      ((filesMachine limit sb.ninodes forbidden).only InodeOp.keepsBlocks .beyond) (Serves limit sb)
      (fun _ _ => True) (Own limit sb) (· = .beyond) :=
  serves_of_holds files_refine_only

end Kernel

/-! ## Reading -/

section Reading
variable {limit : Option Nat} {forbidden : Mark → Bool} {sb : Superblock} {v : Vol (InodeMem FsMem)}
  {f : Files FsMem} {ip : Nat}

/-- `inode_read` on a locked inode only reads. -/
theorem Holds.reads_inodeRead (holds : Holds limit sb v f) (hand : (f.slot ip).inHand) (off : Nat) {n : Nat}
    (short : n < 4294967296) :
    (volMachine forbidden).Confined LogOp.ReadsOnly (inodeRead ip off n) v (fun _ v' => v' = v)
      fun w _ => w ≠ .beyond := by
  have hand := holds.inHand hand
  have bound := (hand.filled holds).small
  unfold inodeRead
  refine .seq (reads_getInode ?_)
  split
  · unfold devswMissing
    split
    · exact .ret rfl
    · exact .stop nofun
  split
  · exact .ret rfl
  next good =>
  simp only [not_or, Nat.not_lt] at good
  dsimp only
  rw [readLength bound good.1 short good.2]
  refine .seq (.weaken (hand.reads_content holds rfl good.1 (.ret rfl)) fun _ _ fails => fails.answers)

theorem reads_inodeGet (inum : Nat) : (volMachine forbidden).Confined LogOp.ReadsOnly (inodeGet inum) v
    (fun _ _ => True) fun w _ => w ≠ .beyond := by
  unfold inodeGet
  refine .seq (reads_getMem ?_)
  split
  · exact .seq (.seq (reads_getMem (reads_setMem (.ret trivial))))
  · split
    · exact .seq (.seq (reads_getMem (reads_setMem (.ret trivial))))
    · exact .stop nofun

theorem Holds.reads_dirLookupFrom (holds : Holds limit sb v f) (hand : (f.slot ip).inHand) (name : List Byte)
    (count off : Nat) :
    (volMachine forbidden).Confined LogOp.ReadsOnly ((dirLookupFrom ip name count off).expand inodeImpl) v
      (fun _ _ => True) fun w _ => w ≠ .beyond := by
  induction count generalizing off with
  | zero => exact .ret trivial
  | succ count ih =>
    unfold dirLookupFrom
    refine .expand (T := InodeSig FsMem) (c := .read ip off direntSize) ?_
    refine (holds.reads_inodeRead hand off (by decide)).mono fun bytes t same => ?_
    subst same
    cases bytes with
    | none => exact .stop (by simp)
    | some bytes =>
      dsimp only
      split
      · exact .stop (by simp)
      split
      · exact .expand (T := InodeSig FsMem) ((reads_inodeGet _).mono fun _ _ _ => .ret trivial)
      · exact ih _

/-- The view of an entry. -/
theorem reads_look (ip : Nat) {Q : InodeView → Vol (InodeMem FsMem) → Prop}
    {E : Stop → Vol (InodeMem FsMem) → Prop} (next : ∀ view, Q view v) :
    (volMachine forbidden).Confined LogOp.ReadsOnly (inodeImpl (.look ip)) v Q E :=
  .seq (reads_getInode (.ret (next _)))

section
variable (holds : Holds limit sb v f) (hand : (f.slot ip).inHand)
include holds hand

theorem Holds.reads_dirLookup (name : List Byte) :
    (volMachine forbidden).Confined LogOp.ReadsOnly ((dirLookup ip name).expand inodeImpl) v
      (fun _ _ => True) fun w _ => w ≠ .beyond := by
  refine .expand (T := InodeSig FsMem) (c := .look ip) (reads_look ip fun view => ?_)
  split
  · exact .stop nofun
  · exact holds.reads_dirLookupFrom hand name _ _

theorem Holds.reads_isdiremptyFrom (count off : Nat) :
    (volMachine forbidden).Confined LogOp.ReadsOnly ((isdiremptyFrom ip count off).expand inodeImpl) v
      (fun _ _ => True) fun w _ => w ≠ .beyond := by
  induction count generalizing off with
  | zero => exact .ret trivial
  | succ count ih =>
    unfold isdiremptyFrom
    refine .expand (T := InodeSig FsMem) (c := .read ip off direntSize) ?_
    refine (holds.reads_inodeRead hand off (by decide)).mono fun bytes t same => ?_
    subst same
    cases bytes with
    | none => exact .stop nofun
    | some bytes =>
      dsimp only
      split
      · exact .stop nofun
      split
      · exact .ret trivial
      · exact ih _

theorem Holds.reads_isdirempty :
    (volMachine forbidden).Confined LogOp.ReadsOnly ((isdirempty ip).expand inodeImpl) v
      (fun _ _ => True) fun w _ => w ≠ .beyond :=
  .expand (T := InodeSig FsMem) (c := .look ip) (reads_look ip fun _ => holds.reads_isdiremptyFrom hand _ _)

end

end Reading

/-! ## Proper calls -/

/-- The fields of the entry have been read from the disk, and somebody refers to it. -/
def Inode.loaded (inode : Inode) : Prop := 0 < inode.ref ∧ inode.valid = true

instance (inode : Inode) : Decidable inode.loaded := inferInstanceAs (Decidable (_ ∧ _))

/-- What a caller of the inode layer has to keep to: it works on inodes it has locked and locks
inodes of the image, and numbers fit into their types. -/
def Proper (ninodes : Nat) (s : FsState) : InodeOp FsMem → Prop
  | .dup ip => 0 < (s.upper.icache ip).ref
  | .lock ip => (s.upper.icache ip).inum < ninodes
  | .read ip _ n => (s.upper.icache ip).loaded ∧ n < 4294967296
  | .write ip _ src => (s.upper.icache ip).loaded ∧ src.length < 4294967296
  | .update ip => (s.upper.icache ip).loaded
  | .alloc type => type ≠ 0 ∧ type < 65536
  | .setNlink _ nlink => nlink < 65536
  | .setDev _ major minor => major < 65536 ∧ minor < 65536
  | .logInit => s.mem.log.busy = false
  | _ => True

instance (ninodes : Nat) (s : FsState) (op : (InodeSig FsMem).Op) : Decidable (Proper ninodes s op) := by
  cases op <;> unfold Proper <;> infer_instance

section Answers
variable {forbidden : Mark → Bool} {sb : Superblock} {s : FsState} {f : Files FsMem}

/-- The outcome is one that the interface of files describes. -/
abbrev Outcome.Answers {α : Type} (o : Outcome Stop (Files FsMem) α) : Prop :=
  o.Sat (fun _ _ => True) fun w _ => w ≠ .beyond

theorem answers_logging {α : Type} {inum cost : Nat} {next : Files FsMem → Outcome Stop (Files FsMem) α}
    (rest : ∀ g, Outcome.Answers (next g)) : Outcome.Answers (logging none f inum cost next) := by
  unfold logging
  rw [if_neg (by simp [exceeds])]
  split
  · rintro ⟨⟩
  split
  · rintro ⟨⟩
  · exact rest _

theorem answers_get (inum : Nat) : Outcome.Answers (filesGet f inum) := by
  unfold filesGet
  split
  · trivial
  · split
    · trivial
    · exact nofun

theorem answers_devsw {α : Type} (major : Nat) (bad : α) : Outcome.Answers (devswResult f major bad) := by
  unfold devswResult
  split
  · trivial
  · exact nofun

theorem answers_lock {ninodes ip : Nat} (inside : (f.slot ip).inum < ninodes) :
    Outcome.Answers (filesLock ninodes f ip) := by
  unfold filesLock
  dsimp only
  rw [if_neg (Nat.not_le.mpr inside)]
  split
  · exact nofun
  split
  · exact nofun
  split
  · trivial
  split
  · exact nofun
  · trivial

theorem answers_put (ip : Nat) : Outcome.Answers (filesPut none f ip) := by
  unfold filesPut
  dsimp only
  split
  · split
    · exact nofun
    · exact answers_logging fun _ => trivial
  · trivial

/-- The test that `filesRead` and `filesWrite` begin with. -/
theorem inHand_and_short {ip n : Nat} (hand : (f.slot ip).inHand) (short : n < 4294967296) :
    ¬ (¬ (f.slot ip).inHand ∨ 4294967296 ≤ n) := by
  rintro (out | long)
  · exact out hand
  · omega

theorem answers_read {ip off n : Nat} (hand : (f.slot ip).inHand) (short : n < 4294967296) :
    Outcome.Answers (filesRead f ip off n) := by
  unfold filesRead
  dsimp only
  rw [if_neg (inHand_and_short hand short)]
  split
  · exact answers_devsw _ _
  split <;> trivial

theorem answers_write {ip off : Nat} {src : List Byte} (hand : (f.slot ip).inHand)
    (short : src.length < 4294967296) : Outcome.Answers (filesWrite none f ip off src) := by
  unfold filesWrite
  dsimp only
  rw [if_neg (inHand_and_short hand short)]
  split
  · exact answers_devsw _ _
  split
  · trivial
  split
  · trivial
  split
  · trivial
  · exact answers_logging fun _ => trivial

theorem answers_alloc {ninodes type : Nat} (some : type ≠ 0) (small : type < 65536) :
    Outcome.Answers (filesAlloc none ninodes f type) := by
  unfold filesAlloc allocNode
  rw [if_neg (by omega)]
  split
  · exact nofun
  · exact answers_logging fun _ => answers_get _

theorem answers_update {ip : Nat} (hand : (f.slot ip).inHand) : Outcome.Answers (filesUpdate none f ip) := by
  unfold filesUpdate
  dsimp only
  rw [if_neg (not_not.mpr hand)]
  exact answers_logging fun _ => trivial

variable {limit : Option Nat}

section
variable (serves : Serves limit sb s f)
include serves

theorem Serves.slot (ip : Nat) : f.slot ip = slotOf (s.upper.icache ip) := by
  obtain ⟨v, presented, holds⟩ := serves
  rw [presented.upper_eq]
  exact holds.slot ip

theorem Serves.inHand {ip : Nat} (loaded : (s.upper.icache ip).loaded) : (f.slot ip).inHand := by
  rw [serves.slot ip]
  exact loaded

theorem Serves.busy : s.mem.log.busy = f.inTrans := by
  obtain ⟨v, ⟨b, caches, presents⟩, holds⟩ := serves
  rw [caches.mem, presents.busy]
  exact holds.flag

/-- Proper calls are described by the interface of files. -/
theorem Serves.answers {op : InodeOp FsMem} (proper : Proper sb.ninodes s op) :
    Outcome.Answers (filesMachine none sb.ninodes forbidden op f) := by
  have slot := serves.slot
  cases op with
  | get inum => exact answers_get inum
  | dup ip =>
    change Outcome.Answers (filesDup f ip)
    have used : ¬ (f.slot ip).ref < 1 := by
      rw [slot ip]
      exact Int.not_lt.mpr proper
    rw [filesDup, if_neg used]
    trivial
  | lock ip =>
    refine answers_lock ?_
    rw [slot ip]
    exact proper
  | unlock ip =>
    change Outcome.Answers (filesUnlock f ip)
    unfold filesUnlock
    split
    · exact nofun
    · trivial
  | put ip => exact answers_put ip
  | read ip off n => exact answers_read (serves.inHand proper.1) proper.2
  | write ip off src => exact answers_write (serves.inHand proper.1) proper.2
  | alloc type => exact answers_alloc proper.1 proper.2
  | update ip => exact answers_update (serves.inHand proper)
  | look ip => trivial
  | setNlink ip nlink =>
    change Outcome.Answers (if 65536 ≤ nlink then _ else _)
    rw [if_neg (Nat.not_le.mpr proper)]
    trivial
  | setDev ip major minor =>
    change Outcome.Answers (if 65536 ≤ major ∨ 65536 ≤ minor then _ else _)
    rw [if_neg (by rintro (large | large); exacts [absurd proper.1 (by omega), absurd proper.2 (by omega)])]
    trivial
  | beginTrans =>
    change Outcome.Answers (if f.inTrans then _ else _)
    split
    · exact nofun
    · trivial
  | commitTrans => trivial
  | logInit =>
    change Outcome.Answers (if f.inTrans then _ else _)
    have calm : f.inTrans = false := serves.busy.symm.trans proper
    rw [if_neg (by simp [calm])]
    trivial
  | getMem => trivial
  | setMem mem => trivial
  | mark mark hit =>
    change Outcome.Answers (if hit && forbidden mark then _ else _)
    split
    · exact nofun
    · trivial

end

end Answers

/-! ## Runs -/

section Runs
variable {forbidden : Mark → Bool} {sb : Superblock} {disk : Nat → Bytes}

/-- After boot, only the root directory is in the inode cache, and it has not been read yet. -/
theorem cache_bootMem (ninodes : Nat) (disk : Nat → Bytes) (refs : Nat) :
    Cache ninodes disk (bootMem refs).icache := by
  have empty : Cache ninodes disk zeroMem.icache :=
    ⟨fun _ used => absurd used (Int.lt_irrefl 0), fun _ used => absurd used (Int.lt_irrefl 0),
      fun _ used => absurd used (Int.lt_irrefl 0), fun _ _ used => absurd used (Int.lt_irrefl 0)⟩
  refine empty.set (fun _ => by decide) nofun nofun fun _ jp _ used => ?_
  exact absurd used (Int.lt_irrefl 0)

variable {limit : Option Nat} {s : FsState} {f : Files FsMem}

theorem serves_booted (formatted : Formatted sb disk) (full : NoHoles sb disk)
    (one : exceeds limit 1 = false) :
    Serves limit sb (booted disk) (filesOn disk (bootMem numProcs)) :=
  serves_powerOn formatted full (cache_bootMem ..) one

/-- The files are those on the disk, as the kernel sees it. -/
theorem Serves.node (serves : Serves limit sb s f)
    {j : Nat} (below : j < sb.ninodes) : f.node j = nodeOf s.content j := by
  obtain ⟨v, presented, holds⟩ := serves
  refine (holds.nodes j below).trans (holds.intact.beforeLog holds.layout (fun t early => ?_) below).2.1.symm
  exact presented.content (holds.laid.home holds.layout early)

theorem Serves.noHoles (serves : Serves limit sb s f) :
    NoHoles sb s.content := by
  obtain ⟨v, presented, holds⟩ := serves
  refine holds.intact.noHoles holds.layout fun t below => ?_
  exact presented.content (holds.laid.home holds.layout below)

section Follows
variable {α : Type} {p : FsProg α} {a : α} {t : FsState} (safe : forbidden .logBlock = true)
include safe

/-- What proper calls return, they return on files, and the kernel stays in step with the files. -/
theorem Serves.follows (serves : Serves none sb s f)
    (proper : ∀ e ∈ (fsMachine forbidden).trace p s, Proper sb.ninodes e.2 e.1)
    (done : (fsMachine forbidden).run p s = .ok a t) :
    ∃ g, (filesMachine none sb.ninodes forbidden).run p f = .ok a g ∧ Serves none sb t g := by
  have answers : ∀ op s f, Serves none sb s f → Proper sb.ninodes s op →
      ∀ w u, filesMachine none sb.ninodes forbidden op f = .stop w u → w ≠ .beyond := by
    intro op s f serves proper w u stopped
    have answers : Outcome.Answers (filesMachine none sb.ninodes forbidden op f) := serves.answers proper
    rwa [stopped] at answers
  exact (serves_refines safe).guarded answers serves proper done

theorem Serves.run (serves : Serves none sb s f)
    (proper : ∀ e ∈ (fsMachine forbidden).trace p s, Proper sb.ninodes e.2 e.1)
    (done : (fsMachine forbidden).run p s = .ok a t) : ∃ g, Serves none sb t g :=
  (serves.follows safe proper done).imp fun _ => And.right

variable (formatted : Formatted sb disk) (full : NoHoles sb disk)
include formatted full

/-- What calls return on files, they return from boot on, or the kernel stops for a reason of its own,
which is none of the panics that `Own` excludes. -/
theorem kernel_answers_as_files (one : exceeds limit 1 = false)
    (answered : (filesMachine limit sb.ninodes forbidden).run p (filesOn disk (bootMem numProcs)) = .ok a f) :
    ∃ o, (fsMachine forbidden).run p (booted disk) = o ∧
      o.Sat (fun b t => b = a ∧ Serves limit sb t f) fun w _ => Own limit sb w := by
  have matched := (serves_refines safe).run (fun _ _ _ => trivial) p (serves_booted formatted full one)
  rw [answered] at matched
  refine ⟨_, rfl, ?_⟩
  cases done : (fsMachine forbidden).run p (booted disk) with
  | ok b t =>
    rw [done] at matched
    exact matched
  | stop w t =>
    rw [done] at matched
    exact matched

/-- Proper calls return from boot on what they return on files, with the same files at the end.  What
the kernel then sees before the log is intact, and the inode cache has copies of the inodes there. -/
theorem kernel_follows_files
    (proper : ∀ e ∈ (fsMachine forbidden).trace p (booted disk), Proper sb.ninodes e.2 e.1)
    (done : (fsMachine forbidden).run p (booted disk) = .ok a t) :
    ∃ f data, (filesMachine none sb.ninodes forbidden).run p (filesOn disk (bootMem numProcs)) = .ok a f ∧
      (∀ j < sb.ninodes, f.node j = nodeOf data j) ∧ (∀ b < sb.dataEnd, data b = t.content b) ∧
      Intact sb data ∧ Cache sb.ninodes data t.upper.icache := by
  have start : Serves none sb (booted disk) _ := serves_booted formatted full rfl
  obtain ⟨f, returned, v, presented, holds⟩ := start.follows safe proper done
  refine ⟨f, v.data, returned, holds.nodes, fun b below => ?_, holds.intact, ?_⟩
  · exact (presented.content (holds.laid.home holds.layout below)).symm
  · rw [presented.upper_eq]
    exact holds.cache

end Follows

/-- In a state that any proper calls of the inode layer lead to, without handing out a block of the
log, no file has holes, and so reading, looking up a name and testing whether a directory is empty
neither log nor allocate. -/
theorem proper_calls_leave_no_holes (safe : forbidden .logBlock = true) (formatted : Formatted sb disk)
    (full : NoHoles sb disk) {α : Type} (p : FsProg α) (a : α) (t : FsState)
    (proper : ∀ e ∈ (fsMachine forbidden).trace p (booted disk), Proper sb.ninodes e.2 e.1)
    (done : (fsMachine forbidden).run p (booted disk) = .ok a t) :
    NoHoles sb t.content ∧
    ∀ ip, (t.upper.icache ip).loaded →
      (∀ off n, n < 4294967296 →
        ∀ e ∈ (logMachine forbidden).trace (inodeRead ip off n) t, LogOp.ReadsOnly e.1) ∧
      (∀ name, ∀ e ∈ (logMachine forbidden).trace ((dirLookup ip name).expand inodeImpl) t,
        LogOp.ReadsOnly e.1) ∧
      ∀ e ∈ (logMachine forbidden).trace ((isdirempty ip).expand inodeImpl) t, LogOp.ReadsOnly e.1 := by
  have start : Serves none sb (booted disk) _ := serves_booted formatted full rfl
  obtain ⟨f, serves⟩ := start.run safe proper done
  refine ⟨serves.noHoles, fun ip loaded => ?_⟩
  have hand : (f.slot ip).inHand := by
    rw [serves.slot ip]
    exact loaded
  obtain ⟨v, presented, holds⟩ := serves
  refine ⟨fun off n short => ?_, fun name => ?_, ?_⟩
  · refine (cache_refines forbidden).calls presented ?_
    exact (holds.reads_inodeRead hand off short).mono fun _ _ _ => trivial
  · exact (cache_refines forbidden).calls presented (holds.reads_dirLookup hand name)
  · exact (cache_refines forbidden).calls presented (holds.reads_isdirempty hand)

end Runs

/-! ## Disks with nothing but a root directory -/

/-- A disk like `smallDisk`, with another super block. -/
structure Rooted (sb : Superblock) (disk : Nat → Bytes) : Prop where
  superblock : superblockOf (disk 1) = sb
  inodes : sb.ninodes = 16
  data : 7 ≤ sb.dataEnd
  size : sb.size < 4096
  rest : ∀ t, t ≠ 1 → disk t = smallDisk t

section Rooted
variable {sb : Superblock} {disk : Nat → Bytes}

theorem smallDisk_high {t : Nat} (high : 7 ≤ t) : smallDisk t = Bytes.zero := by
  unfold smallDisk
  rw [if_neg (by omega), if_neg (by omega), if_neg (by omega), if_neg (by omega)]

/-- The root directory. -/
def rootDinode : Dinode := ⟨tDir, 0, 0, 1, bSize, fun i => if i = 0 then 6 else 0⟩

section
variable (rooted : Rooted sb disk)
include rooted

theorem Rooted.dinode_root : dinodeOf disk rootIno = rootDinode.trim := by
  have small : rootDinode.Small := by
    refine ⟨by decide, by decide, by decide, by decide, by decide, fun i _ => ?_⟩
    change (if i = 0 then 6 else 0) < 4294967296
    split <;> omega
  unfold dinodeOf
  rw [rooted.rest _ (by decide)]
  exact loadDinode_storeDinode small

theorem Rooted.dinode_other {j : Nat} (below : j < 16) (other : j ≠ rootIno) :
    (dinodeOf disk j).type = 0 := by
  have free : (loadDinode Bytes.zero j).type = 0 := Bytes.get_zero _ _
  unfold dinodeOf
  rw [rooted.rest _ (by unfold iblock ipb; omega)]
  by_cases first : iblock j = 2
  · have block : smallDisk (iblock j) = storeDinode Bytes.zero rootIno rootDinode := by
      rw [first]
      rfl
    rw [block, loadDinode_congr fun i inside => storeDinode_off ?_, free]
    unfold OffDinode dinodeOff rootIno iblock ipb at *
    omega
  · have block : smallDisk (iblock j) = Bytes.zero := by
      have third : iblock j = 3 := by
        unfold iblock ipb at *
        omega
      rw [third]
      rfl
    rw [block, free]

/-- Only the root directory has a block. -/
theorem Rooted.places (y : Nat × Nat) :
    Fs.places disk (addrsOf sb disk) y = if y = (rootIno, 0) then 6 else 0 := by
  obtain ⟨j, i⟩ := y
  unfold Fs.places
  by_cases root : j = rootIno
  · subst root
    have used : rootIno < sb.ninodes ∧ (dinodeOf disk rootIno).type ≠ 0 := by
      rw [rooted.inodes, rooted.dinode_root]
      exact ⟨by decide, by decide⟩
    rw [addrsOf, if_pos used, rooted.dinode_root]
    have indirect : rootDinode.trim.addrs nDirect = 0 := rfl
    dsimp only
    unfold blockNo
    rw [indirect, if_pos rfl]
    by_cases first : i = 0
    · subst first
      rfl
    · have none : rootDinode.trim.addrs i = 0 := by
        change (if i < nDirect + 1 then if i = 0 then 6 else 0 else 0) = 0
        rw [if_neg first]
        split <;> rfl
      have other : ((rootIno, i) : Nat × Nat) ≠ (rootIno, 0) := fun same => first (congrArg Prod.snd same)
      rw [none, if_neg other]
      split
      · rfl
      split
      · rfl
      split <;> rfl
  · have free : ¬ (j < sb.ninodes ∧ (dinodeOf disk j).type ≠ 0) := by
      rintro ⟨below, used⟩
      rw [rooted.inodes] at below
      exact used (rooted.dinode_other below root)
    rw [addrsOf_free free, blockNo_zero (fun _ => rfl), if_neg (by simp [root])]

theorem Rooted.dataStart : sb.dataStart = 6 := by
  have inodes := rooted.inodes
  have size := rooted.size
  unfold Superblock.dataStart bpb ipb
  omega

theorem Rooted.inUse_iff {b : Nat} (below : b < 4096) : inUse sb disk b = true ↔ b < 7 := by
  have block : bblock b sb.ninodes = 5 := by
    rw [rooted.inodes]
    unfold bblock bpb ipb
    omega
  have bits : smallDisk 5 = Bytes.zero.put 0 1 127 := rfl
  unfold inUse
  rw [block, rooted.rest 5 (by decide), bits, show b % bpb = b from Nat.mod_eq_of_lt below]
  by_cases first : b < 8
  · have low : ∀ b < 8, ((Bytes.zero.put 0 1 127).testBit b = true ↔ b < 7) := by decide
    exact low b first
  · have outside : (Bytes.zero.put 0 1 127) (b / 8) = 0 := Bytes.copy_outside (by omega)
    have clear : (0 : Byte).getLsbD (b % 8) = false := BitVec.getLsbD_zero
    rw [Bytes.testBit, outside, clear]
    exact ⟨nofun, by omega⟩

theorem Rooted.formatted : Formatted sb disk := by
  have start := rooted.dataStart
  have high := rooted.data
  have size := rooted.size
  have inodes := rooted.inodes
  have owner : ∀ x, Fs.places disk (addrsOf sb disk) x ≠ 0 → x = (rootIno, 0) := by
    intro x some
    rw [rooted.places] at some
    by_contra other
    exact some (if_neg other)
  refine ⟨rooted.superblock, ⟨by omega, by omega⟩, ?_, ⟨fun c below => ?_, ?_, ?_, ?_⟩⟩
  · rw [rooted.rest _ (by omega), smallDisk_high high]
    exact Bytes.get_zero _ _
  · rw [start] at below
    exact (rooted.inUse_iff (by omega)).mpr (by omega)
  · intro x y some same
    have first := owner x some
    exact first.trans (owner y (same ▸ some)).symm
  · intro x some
    rw [rooted.places, if_pos (owner x some)]
    omega
  · intro b above
    constructor
    · rintro ⟨covered, used⟩
      have below : b < 4096 := by
        unfold bpb at covered
        omega
      have := (rooted.inUse_iff below).mp used
      refine ⟨(rootIno, 0), ?_⟩
      rw [rooted.places, if_pos rfl]
      omega
    · rintro ⟨x, named⟩
      have some : Fs.places disk (addrsOf sb disk) x ≠ 0 := by omega
      rw [rooted.places, if_pos (owner x some)] at named
      exact ⟨by unfold bpb; omega, (rooted.inUse_iff (by omega)).mpr (by omega)⟩

theorem Rooted.noHoles : NoHoles sb disk := by
  refine noHoles_iff.mpr fun j below used => ?_
  rw [rooted.inodes] at below
  by_cases root : j = rootIno
  · subst root
    have blocks : ∀ i, blockNo disk (dinodeOf disk rootIno).addrs i = if i = 0 then 6 else 0 := by
      intro i
      rw [← Intact.addrsOf_eq (rooted.inodes ▸ below) used]
      refine (rooted.places (rootIno, i)).trans (if_congr ?_ rfl rfl)
      exact ⟨fun same => congrArg Prod.snd same, fun first => first ▸ rfl⟩
    have size : (dinodeOf disk rootIno).size = 512 := by
      rw [rooted.dinode_root]
      rfl
    rw [size]
    refine ⟨by decide, fun i inside => ?_, fun i _ beyond => ?_⟩
    · rw [blocks, if_pos (by unfold bSize at inside; omega)]
      decide
    · rw [blocks, if_neg (by unfold bSize at beyond; omega)]
  · exact absurd (rooted.dinode_other below root) used

end

end Rooted

/-- A run stops when `block_alloc` hands out a block of the log. -/
def noLogBlock (mark : Mark) : Bool := mark = .logBlock

theorem smallDisk_rooted : Rooted ⟨64, 48, 16, 10⟩ smallDisk :=
  ⟨by decide, rfl, by decide, by decide, fun _ _ => rfl⟩

/-- A file is written, removed and closed while a directory is made. -/
def writingSession : List (Nat × Syscall) :=
  [(1, .sysOpen [slash, 0x61] (oCreate + oRdwr)), (1, .sysWrite 0 [1, 2, 3]), (2, .sysMkdir [slash, 0x64]),
    (2, .sysUnlink [slash, 0x61]), (1, .sysClose 0)]

theorem writing_runs :
    (((fsMachine noLogBlock).run (session writingSession) (booted smallDisk)).result = some () ∧
      ∀ e ∈ (fsMachine noLogBlock).trace (session writingSession) (booted smallDisk), Proper 16 e.2 e.1) ∧
    ((filesMachine (some opLimit) 16 noLogBlock).run (session writingSession)
      (filesOn smallDisk (bootMem numProcs))).result = some () := by decide +kernel

theorem writing_leaves_no_holes :
    ((fsMachine noLogBlock).run (session writingSession) (booted smallDisk)).result = some () ∧
    NoHoles ⟨64, 48, 16, 10⟩
      ((fsMachine noLogBlock).run (session writingSession) (booted smallDisk)).state.content := by
  obtain ⟨⟨returned, proper⟩, -⟩ := writing_runs
  exact ⟨returned, (proper_calls_leave_no_holes rfl smallDisk_rooted.formatted smallDisk_rooted.noHoles
    (session writingSession) () _ proper (Outcome.eq_ok_of_result returned)).1⟩

theorem writing_answered :
    ∃ o, (fsMachine noLogBlock).run (session writingSession) (booted smallDisk) = o ∧
      o.Sat (fun _ _ => True) fun w _ => Own (some opLimit) ⟨64, 48, 16, 10⟩ w := by
  obtain ⟨o, done, sat⟩ := kernel_answers_as_files rfl smallDisk_rooted.formatted
    smallDisk_rooted.noHoles rfl (Outcome.eq_ok_of_result writing_runs.2)
  exact ⟨o, done, sat.mono (fun _ _ _ => trivial) fun _ _ own => own⟩

theorem writing_follows_files :
    ∃ f, (filesMachine none 16 noLogBlock).run (session writingSession)
      (filesOn smallDisk (bootMem numProcs)) = .ok () f := by
  obtain ⟨⟨done, proper⟩, -⟩ := writing_runs
  obtain ⟨f, data, returned, -⟩ := kernel_follows_files rfl smallDisk_rooted.formatted
    smallDisk_rooted.noHoles proper (Outcome.eq_ok_of_result done)
  exact ⟨f, returned⟩

/-- A disk with 17 sectors, on which the root directory has the only data block. -/
def crampedDisk : Nat → Bytes := fun sector =>
  if sector = 1 then (((Bytes.zero.put 0 4 17).put 4 4 1).put 8 4 16).put 12 4 10 else smallDisk sector

theorem crampedDisk_rooted : Rooted ⟨17, 1, 16, 10⟩ crampedDisk :=
  ⟨by decide, rfl, by decide, by decide, fun _ other => if_neg other⟩

/-- Three files are written.  The block of the second is the log slot in which its transaction
keeps the bitmap, so its byte becomes the first byte of the bitmap. -/
def crampedSession (byte : Byte) : List (Nat × Syscall) :=
  [(1, .sysOpen [slash, 0x61] (oCreate + oRdwr)), (1, .sysWrite 0 [1]),
    (1, .sysOpen [slash, 0x62] (oCreate + oRdwr)), (1, .sysWrite 1 [byte]),
    (1, .sysOpen [slash, 0x63] (oCreate + oRdwr)), (1, .sysWrite 2 [1])]

/-- The kernel after the three writes. -/
def crampedState (byte : Byte) : FsState :=
  ((fsMachine fun _ => false).run (session (crampedSession byte)) (booted crampedDisk)).state

/-- The third file gets block 0, which stands for no block. -/
theorem log_block_makes_a_hole :
    Formatted ⟨17, 1, 16, 10⟩ crampedDisk ∧ NoHoles ⟨17, 1, 16, 10⟩ crampedDisk ∧
    (∀ e ∈ (fsMachine fun _ => false).trace (session (crampedSession 0xfe)) (booted crampedDisk),
      Proper 16 e.2 e.1) ∧
    ((fsMachine fun _ => false).run (session (crampedSession 0xfe)) (booted crampedDisk)).result = some () ∧
    ¬ NoHoles ⟨17, 1, 16, 10⟩ (crampedState 0xfe).content := by
  have checked : (∀ e ∈ (fsMachine fun _ => false).trace (session (crampedSession 0xfe)) (booted crampedDisk),
        Proper 16 e.2 e.1) ∧
      ((fsMachine fun _ => false).run (session (crampedSession 0xfe)) (booted crampedDisk)).result = some () ∧
      (dinodeOf (crampedState 0xfe).content 4).type = 2 ∧ (dinodeOf (crampedState 0xfe).content 4).size = 1 ∧
      blockNo (crampedState 0xfe).content (dinodeOf (crampedState 0xfe).content 4).addrs 0 = 0 := by
    decide +kernel
  obtain ⟨proper, returned, type, size, block⟩ := checked
  refine ⟨crampedDisk_rooted.formatted, crampedDisk_rooted.noHoles, proper, returned, fun full => ?_⟩
  have blocks := (full 4 (by decide) (by rw [type]; decide)).2 0 (by decide)
  rw [size] at blocks
  exact blocks.mpr (by decide) block

end OsAudio.Fs

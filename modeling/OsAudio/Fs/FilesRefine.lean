import OsAudio.Fs.Mounted

/-!
# The inode layer implements files

The functions of `kern/fs/inode.c`, run on a volume whose blocks are in order, do what the calls
of `filesMachine` say, as long as no block of the log region is handed out.  They may stop alone
when blocks run out, and when the log or the buffer cache is full; within the limits of `Bounded`
the latter does not happen.
-/
namespace OsAudio.Fs
open OsAudio.Lib
open Function (update update_self update_of_ne)

/-! ## The relation -/

/-- A cache entry is a copy of the inode `d`; the link count and the device numbers may have been
changed. -/
structure Copies (inode : Inode) (d : Dinode) : Prop where
  type : inode.type = d.type
  alive : d.type ≠ 0
  major : inode.major < 65536
  minor : inode.minor < 65536
  nlink : inode.nlink < 65536
  size : inode.size = d.size
  addrs : ∀ i, i ≤ nDirect → inode.addrs i = d.addrs i

/-- The referenced entries of the inode cache name different inodes, and the valid ones are
copies of them. -/
structure Cache (ninodes : Nat) (data : Nat → Bytes) (icache : Nat → Inode) : Prop where
  range : ∀ ip, 0 < (icache ip).ref → ip < nInode
  live : ∀ ip, 0 < (icache ip).ref → (icache ip).valid = true → (icache ip).inum < ninodes
  copies : ∀ ip, 0 < (icache ip).ref → (icache ip).valid = true →
    Copies (icache ip) (dinodeOf data (icache ip).inum)
  unique : ∀ ip jp, 0 < (icache ip).ref → 0 < (icache jp).ref → (icache ip).inum = (icache jp).inum →
    ip = jp

def slotOf (inode : Inode) : Slot :=
  ⟨⟨inode.type, inode.major, inode.minor, inode.nlink⟩, inode.size, inode.inum, inode.ref, inode.busy,
    inode.valid⟩

/-- The limits under which no transaction is too big. -/
structure Bounded (limit : Option Nat) (sb : Superblock) : Prop where
  few : limit = some opLimit
  bitmap : sb.size ≤ bpb
  log : sb.nlog = logSize

section Relation
variable {ν : Type}

/-- The volume `v` holds the files `f`. -/
structure Holds (limit : Option Nat) (sb : Superblock) (v : Vol (InodeMem ν)) (f : Files ν) : Prop where
  layout : Layout sb
  laid : v.Laid sb
  idle : v.held = ∅
  up : v.up = f.up
  flag : v.inTrans = f.inTrans
  rest : v.mem.rest = f.mem
  slots : f.slot = fun ip => slotOf (v.mem.icache ip)
  cache : Cache sb.ninodes v.data v.mem.icache
  intact : Intact sb v.data
  nodes : ∀ j < sb.ninodes, f.node j = nodeOf v.data j
  calm : v.inTrans = false → v.logged = ∅
  logged : ∃ D : Finset Nat, D.card ≤ f.spent ∧ v.logged ⊆ sb.bitmap ∪ f.touched.image iblock ∪ D
  budget : exceeds limit f.bill = false

/-- The reasons for which the code may stop where files do not. -/
structure Own (limit : Option Nat) (sb : Superblock) (w : Stop) : Prop where
  answers : w ≠ .beyond
  typed : w ≠ .panic .inodeLockNoType
  outside : w ≠ .panic .writeOutsideTrans
  tooBig : Bounded limit sb → w ≠ .panic .tooBigTransaction
  noBuffers : Bounded limit sb → w ≠ .panic .noBuffers

abbrev FilesMatch (limit : Option Nat) (sb : Superblock) {α : Type} : Outcome Stop (Vol (InodeMem ν)) α →
    Outcome Stop (Files ν) α → Prop :=
  Outcome.Matches (Holds limit sb) (fun _ _ => True) (Own limit sb) (· = .beyond)

/-- The match of a call on `v` that stores nothing, and within the limits returns where files do. -/
abbrev QuietMatch (limit : Option Nat) (sb : Superblock) (v : Vol (InodeMem ν)) {α : Type} :
    Outcome Stop (Vol (InodeMem ν)) α → Outcome Stop (Files ν) α → Prop :=
  Outcome.Matches (fun w g => w.data = v.data ∧ Holds limit sb w g) (fun _ _ => True)
    (fun w => Own limit sb w ∧ ¬ Bounded limit sb) (· = .beyond)

/-- What is known about the limits in a step that logs, and in one that only reads. -/
def Files.lims (limit : Option Nat) (sb : Superblock) (f : Files ν) : Limits :=
  ⟨Bounded limit sb, False, f.up, f.inTrans⟩
def reading (limit : Option Nat) (sb : Superblock) : Limits := ⟨Bounded limit sb, True, true, true⟩

variable {limit : Option Nat} {forbidden : Mark → Bool} {sb : Superblock} {v : Vol (InodeMem ν)} {f : Files ν} {α : Type}
  {p : LogProg (InodeMem ν) α}

variable {w : Stop} {f' : Files ν} {n : Nat}

theorem Fails.own {lim : Limits} (fails : Fails lim w v) (roomy : lim.roomy = Bounded limit sb)
    (up : lim.up = true) (flag : lim.inTrans = true) : Own limit sb w := by
  refine ⟨fails.answers, fails.typed, fun outside => ?_, fun bounded big => ?_, fun bounded full => ?_⟩
  · exact absurd (flag.symm.trans (fails.outside outside).2) nofun
  · exact fails.tooBig big up (roomy ▸ bounded)
  · exact fails.noBuffers full (roomy ▸ bounded)

theorem Fails.quiet (fails : Fails (reading limit sb) w v) : Own limit sb w ∧ ¬ Bounded limit sb :=
  ⟨fails.own rfl rfl rfl, fails.crowded rfl rfl trivial⟩

theorem quiet_matches {q : Outcome Stop (Vol (InodeMem ν)) α} {o : Outcome Stop (Files ν) α}
    (quiet : QuietMatch limit sb v q o) : FilesMatch limit sb q o := by
  cases q with
  | ok a w =>
    cases o with
    | ok b g => exact ⟨quiet.1, quiet.2.2⟩
    | stop r g => exact quiet
  | stop r w =>
    cases o with
    | ok b g => exact quiet.1
    | stop r' g => exact quiet.imp_right (Or.imp_left And.left)

section Matches
variable {R : Vol (InodeMem ν) → Files ν → Prop} {own : Stop → Prop}

/-- A match is an assertion about the run. -/
theorem matches_of_wp {o : Outcome Stop (Files ν) α}
    (wp : (volMachine forbidden).Wp p v
      (fun a v' => Outcome.Matches R (fun _ _ => True) own (· = .beyond) (.ok a v') o)
      fun w v' => Outcome.Matches R (fun _ _ => True) own (· = .beyond) (.stop w v') o) :
    ((volMachine forbidden).run p v).Matches R (fun _ _ => True) own (· = .beyond) o := by
  unfold Machine.Wp at wp
  cases run : (volMachine forbidden).run p v with
  | ok a v' => rwa [run] at wp
  | stop w v' => rwa [run] at wp

theorem matches_ok {b : α}
    (wp : (volMachine forbidden).Wp p v (fun a v' => a = b ∧ R v' f') fun w _ => own w) :
    ((volMachine forbidden).run p v).Matches R (fun _ _ => True) own (· = .beyond) (.ok b f') :=
  matches_of_wp wp

/-- A program that does what a call on files does. -/
theorem matches_result {o : Outcome Stop (Files ν) α}
    (wp : (volMachine forbidden).Wp p v (fun a v' => ∃ g, o = .ok a g ∧ R v' g) fun w _ => ∃ g, o = .stop w g) :
    ((volMachine forbidden).run p v).Matches R (fun _ _ => True) own (· = .beyond) o := by
  refine matches_of_wp (Outcome.Sat.mono wp ?_ ?_)
  · rintro a v' ⟨g, rfl, related⟩
    exact ⟨rfl, related⟩
  · rintro w v' ⟨g, rfl⟩
    exact Or.inl ⟨rfl, trivial⟩

theorem matches_stop
    (wp : (volMachine forbidden).Wp p v (fun _ _ => False) fun w' _ => w' = w ∨ own w') :
    ((volMachine forbidden).run p v).Matches R (fun _ _ => True) own (· = .beyond) (.stop w f') :=
  matches_of_wp (Outcome.Sat.mono wp (fun _ _ => False.elim) fun _ _ allowed =>
    allowed.imp (fun same => ⟨same, trivial⟩) Or.inl)

end Matches

theorem Own.stops (own : Own limit sb w) (v : Vol (InodeMem ν)) (o : Outcome Stop (Files ν) α) :
    FilesMatch limit sb (.stop w v) o := by
  cases o with
  | ok a f => exact own
  | stop w f => exact Or.inr (Or.inl own)

/-- A step that logs. -/
theorem matches_logging {inum cost : Nat} {next : Files ν → Outcome Stop (Files ν) α}
    (wp : exceeds limit (f.charge inum cost).bill = false →
      (volMachine forbidden).Wp p v
        (fun a v' => f.up = true ∧ f.inTrans = true ∧
          ∃ g, next (f.charge inum cost) = .ok a g ∧ Holds limit sb v' g)
        fun w v' => Fails (f.lims limit sb) w v' ∨
          (f.up = true ∧ f.inTrans = true ∧ ∃ g, next (f.charge inum cost) = .stop w g)) :
    FilesMatch limit sb ((volMachine forbidden).run p v) (logging limit f inum cost next) := by
  unfold logging
  split
  · exact .excused _ (by rfl) _
  next small =>
  have sat := wp (Bool.eq_false_iff.mpr small)
  split
  · next down =>
    refine matches_of_wp (Outcome.Sat.mono sat (fun _ _ done => absurd (down.symm.trans done.1) nofun) ?_)
    rintro w v' (fails | ⟨up, -⟩)
    · by_cases big : w = .panic .tooBigTransaction
      · exact Or.inl ⟨big, trivial⟩
      · refine Or.inr (Or.inl ⟨fails.answers, fails.typed, fun outside => ?_, fun _ => big,
          fun bounded full => fails.noBuffers full bounded⟩)
        exact absurd (down.symm.trans (fails.outside outside).1) nofun
    · exact absurd (down.symm.trans up) nofun
  next up =>
  rw [Bool.not_eq_false] at up
  split
  · next idle =>
    refine matches_of_wp (Outcome.Sat.mono sat (fun _ _ done => absurd (idle.symm.trans done.2.1) nofun) ?_)
    rintro w v' (fails | ⟨-, busy, -⟩)
    · by_cases outside : w = .panic .writeOutsideTrans
      · exact Or.inl ⟨outside, trivial⟩
      · exact Or.inr (Or.inl ⟨fails.answers, fails.typed, outside,
          fun bounded big => fails.tooBig big up bounded,
          fun bounded full => fails.noBuffers full bounded⟩)
    · exact absurd (idle.symm.trans busy) nofun
  next busy =>
  rw [Bool.not_eq_false] at busy
  refine matches_of_wp (Outcome.Sat.mono sat ?_ ?_)
  · rintro a v' ⟨-, -, g, result, holds⟩
    rw [result]
    exact ⟨rfl, holds⟩
  · rintro w v' (fails | ⟨-, -, g, result⟩)
    · exact (fails.own rfl up busy).stops _ _
    · rw [result]
      exact Or.inl ⟨rfl, trivial⟩

theorem wp_of_matches {o : Outcome Stop (Files ν) α}
    (matched : FilesMatch limit sb ((volMachine forbidden).run p v) o) :
    (volMachine forbidden).Wp p v (fun a v' => FilesMatch limit sb (.ok a v') o)
      fun w v' => FilesMatch limit sb (.stop w v') o := by
  unfold Machine.Wp
  cases run : (volMachine forbidden).run p v with
  | ok a v' => rwa [run] at matched
  | stop w v' => rwa [run] at matched

/-! ## Room in the log -/

/-- The sectors a transaction may have logged. -/
def targetSet (sb : Superblock) (touched D : Finset Nat) : Finset Nat :=
  sb.bitmap ∪ touched.image iblock ∪ D

theorem card_bitmap (bounded : Bounded limit sb) : sb.bitmap.card ≤ 1 := by
  refine Finset.card_le_one.mpr fun a first b second => ?_
  obtain ⟨c, below, rfl⟩ := Finset.mem_image.mp first
  obtain ⟨d, below', rfl⟩ := Finset.mem_image.mp second
  have := bounded.bitmap
  have := Finset.mem_range.mp below
  have := Finset.mem_range.mp below'
  unfold bblock bpb at *
  omega

/-- What does not exceed the limit. -/
theorem Bounded.within (bounded : Bounded limit sb) (few : exceeds limit n = false) :
    n ≤ opLimit := by
  rw [bounded.few] at few
  simpa [exceeds] using few

theorem exceeds_mono {m : Nat} (few : exceeds limit m = false) (le : n ≤ m) :
    exceeds limit n = false := by
  cases limit with
  | none => rfl
  | some most =>
    simp only [exceeds, Option.any_some, decide_eq_false_iff_not, Nat.not_lt] at few ⊢
    omega

theorem card_targetSet (bounded : Bounded limit sb) (touched D : Finset Nat) :
    (targetSet sb touched D).card ≤ 1 + touched.card + D.card := by
  have := card_bitmap bounded
  have := Finset.card_image_le (s := touched) (f := iblock)
  have := Finset.card_union_le sb.bitmap (touched.image iblock)
  have := Finset.card_union_le (sb.bitmap ∪ touched.image iblock) D
  unfold targetSet
  omega

theorem targetSet_mono {touched touched' D D' : Finset Nat} (inodes : touched ⊆ touched') (more : D ⊆ D') :
    targetSet sb touched D ⊆ targetSet sb touched' D' :=
  Finset.union_subset_union (Finset.union_subset_union (Finset.Subset.refl _)
    (Finset.image_subset_image inodes)) more

theorem room_targetSet {touched D : Finset Nat} (laid : v.Laid sb) (logged : v.logged ⊆ targetSet sb touched D)
    (few : exceeds limit (1 + touched.card + D.card) = false) (bounded : Bounded limit sb) :
    v.Room (targetSet sb touched D) := by
  have card := card_targetSet bounded touched D
  have size := laid.size
  have log := bounded.log
  have few := bounded.within few
  unfold opLimit at few
  refine ⟨logged, ?_, ?_⟩
  · unfold nBuf
    omega
  · rw [size, log]
    unfold logSize
    omega

/-- There is room for a step that logs the block of an inode and nothing else. -/
theorem Holds.room_inode (holds : Holds limit sb v f) (inum : Nat)
    (few : exceeds limit (f.charge inum 0).bill = false) :
    ∃ targets, v.logged ⊆ targets ∧ iblock inum ∈ targets ∧ sb.bitmap ⊆ targets ∧
      (∃ D : Finset Nat, D.card ≤ f.spent ∧ targets = targetSet sb (insert inum f.touched) D) ∧
      (Bounded limit sb → v.Room targets) := by
  obtain ⟨D, small, logged⟩ := holds.logged
  have more : v.logged ⊆ targetSet sb (insert inum f.touched) D :=
    Finset.Subset.trans logged (targetSet_mono (Finset.subset_insert _ _) (Finset.Subset.refl _))
  refine ⟨_, more, ?_, ?_, ⟨D, small, rfl⟩, room_targetSet holds.laid more ?_⟩
  · refine Finset.mem_union_left _ (Finset.mem_union_right _ ?_)
    exact Finset.mem_image_of_mem _ (Finset.mem_insert_self _ _)
  · exact Finset.Subset.trans Finset.subset_union_left Finset.subset_union_left
  · refine exceeds_mono few ?_
    simp only [Files.bill, Files.charge]
    omega

theorem Holds.room (holds : Holds limit sb v f) : ∃ targets, Bounded limit sb → v.Room targets := by
  obtain ⟨D, small, logged⟩ := holds.logged
  refine ⟨_, room_targetSet holds.laid logged (exceeds_mono holds.budget ?_)⟩
  unfold Files.bill
  omega

/-! ## The cache -/

section Cache
variable {ninodes : Nat} {data data' : Nat → Bytes} {icache : Nat → Inode} {ip : Nat} {inode : Inode}

theorem Cache.set (cache : Cache ninodes data icache) (range : 0 < inode.ref → ip < nInode)
    (live : 0 < inode.ref → inode.valid = true → inode.inum < ninodes)
    (copies : 0 < inode.ref → inode.valid = true → Copies inode (dinodeOf data inode.inum))
    (unique : 0 < inode.ref → ∀ jp, jp ≠ ip → 0 < (icache jp).ref → (icache jp).inum ≠ inode.inum) :
    Cache ninodes data (update icache ip inode) := by
  have other : ∀ jp, jp ≠ ip → update icache ip inode jp = icache jp :=
    fun jp apart => update_of_ne apart ..
  have self : update icache ip inode ip = inode := update_self ..
  refine ⟨fun jp => ?_, fun jp => ?_, fun jp => ?_, fun jp kp => ?_⟩
  · by_cases here : jp = ip
    · subst here
      rwa [self]
    · rw [other jp here]
      exact cache.range jp
  · by_cases here : jp = ip
    · subst here
      rwa [self]
    · rw [other jp here]
      exact cache.live jp
  · by_cases here : jp = ip
    · subst here
      rwa [self]
    · rw [other jp here]
      exact cache.copies jp
  · by_cases first : jp = ip
    · by_cases second : kp = ip
      · exact fun _ _ _ => first.trans second.symm
      · rw [first, self, other kp second]
        exact fun used used' same => absurd same.symm (unique used kp second used')
    · by_cases second : kp = ip
      · rw [second, self, other jp first]
        exact fun used used' same => absurd same (unique used' jp first used)
      · rw [other jp first, other kp second]
        exact cache.unique jp kp

/-- An entry keeps its inode. -/
theorem Cache.touch (cache : Cache ninodes data icache) (live : 0 < inode.ref → 0 < (icache ip).ref)
    (named : inode.inum = (icache ip).inum)
    (below : 0 < inode.ref → inode.valid = true → inode.inum < ninodes)
    (copies : 0 < inode.ref → inode.valid = true → Copies inode (dinodeOf data inode.inum)) :
    Cache ninodes data (update icache ip inode) := by
  refine cache.set (fun used => cache.range ip (live used)) below copies ?_
  intro used jp apart used' same
  exact apart (cache.unique jp ip used' (live used) (same.trans named))

/-- The disk may change where no entry is a copy. -/
theorem Cache.disk (cache : Cache ninodes data icache)
    (same : ∀ jp, 0 < (icache jp).ref → (icache jp).valid = true →
      dinodeOf data' (icache jp).inum = dinodeOf data (icache jp).inum) :
    Cache ninodes data' icache := by
  refine ⟨cache.range, cache.live, fun jp used valid => ?_, cache.unique⟩
  rw [same jp used valid]
  exact cache.copies jp used valid

end Cache

section
variable (holds : Holds limit sb v f)
include holds

/-- An entry of the inode cache is set. -/
theorem Holds.setInode {ip : Nat} {inode : Inode}
    (cache : Cache sb.ninodes v.data (update v.mem.icache ip inode)) :
    Holds limit sb (v.setInode ip inode) (f.setSlot ip (slotOf inode)) := by
  refine { holds with laid := holds.laid.again, cache := cache, slots := ?_ }
  change update f.slot ip (slotOf inode) = fun jp => slotOf (update v.mem.icache ip inode jp)
  funext jp
  by_cases here : jp = ip
  · rw [here, update_self, update_self]
  · rw [update_of_ne here, update_of_ne here, holds.slots]

theorem Holds.slot (ip : Nat) : f.slot ip = slotOf (v.mem.icache ip) := by
  rw [holds.slots]

theorem Holds.fields (ip : Nat) :
    (f.slot ip).type = (v.mem.icache ip).type ∧ (f.slot ip).major = (v.mem.icache ip).major ∧
    (f.slot ip).size = (v.mem.icache ip).size ∧ (f.slot ip).inum = (v.mem.icache ip).inum := by
  rw [holds.slot ip]
  exact ⟨rfl, rfl, rfl, rfl⟩

/-! ## Calls that do not log -/

theorem wp_inodeGet (inum : Nat) :
    (volMachine forbidden).Wp (inodeGet inum) v
      (fun a v' => ∃ g, filesGet f inum = .ok a g ∧ v'.data = v.data ∧ Holds limit sb v' g)
      fun w _ => ∃ g, filesGet f inum = .stop w g := by
  have same : slotFor f.slot inum = cached v.mem.icache inum := by
    rw [holds.slots]
    rfl
  have vacant : freeSlot f.slot = emptySlot v.mem.icache := by
    rw [holds.slots]
    rfl
  unfold filesGet inodeGet
  rw [same, vacant]
  refine .seq (wp_getMem ?_)
  cases found : cached v.mem.icache inum with
  | some ip =>
    have used := List.find?_some found
    simp only [decide_eq_true_eq] at used
    refine .seq (wp_setInode ⟨_, rfl, rfl, ?_⟩)
    rw [holds.slot ip]
    refine holds.setInode (holds.cache.touch (fun _ => used.1) rfl
      (fun _ valid => holds.cache.live ip used.1 valid) fun _ valid => ?_)
    exact { holds.cache.copies ip used.1 valid with }
  | none =>
    have absent := List.find?_eq_none.mp found
    cases empty : emptySlot v.mem.icache with
    | some ip =>
      have bound := List.mem_range.mp (List.mem_of_find?_eq_some empty)
      refine .seq (wp_setInode ⟨_, rfl, rfl, ?_⟩)
      rw [holds.slot ip]
      refine holds.setInode (holds.cache.set (fun _ => bound) nofun nofun ?_)
      intro _ jp _ used same
      exact absent jp (List.mem_range.mpr (holds.cache.range jp used)) (by simp [used, same])
    | none => exact Machine.Wp.stop ⟨_, rfl⟩

theorem filesGet_matches (inum : Nat) :
    QuietMatch limit sb v ((volMachine forbidden).run (inodeGet inum) v) (filesGet f inum) :=
  matches_result (wp_inodeGet holds inum)

theorem filesDup_matches (ip : Nat) :
    QuietMatch limit sb v ((volMachine forbidden).run (inodeDup ip) v) (filesDup f ip) := by
  unfold filesDup
  split
  · exact .excused _ (by rfl) _
  next used =>
  rw [holds.slot ip] at used ⊢
  have used' : 0 < (v.mem.icache ip).ref := by
    simp only [slotOf] at used
    omega
  refine matches_ok (.seq (wp_getInode (.seq (wp_setInode ⟨rfl, rfl, ?_⟩))))
  refine holds.setInode (holds.cache.touch (fun _ => used') rfl
    (fun _ valid => holds.cache.live ip used' valid) fun _ valid => ?_)
  exact { holds.cache.copies ip used' valid with }

theorem filesUnlock_matches (ip : Nat) :
    QuietMatch limit sb v ((volMachine forbidden).run (inodeUnlock ip) v) (filesUnlock f ip) := by
  unfold filesUnlock inodeUnlock
  rw [holds.slot ip]
  split
  · next bad =>
    refine matches_stop (.seq (wp_getInode ?_))
    rw [if_pos (by exact bad)]
    exact Machine.Wp.stop (Or.inl rfl)
  · next good =>
    refine matches_ok (.seq (wp_getInode ?_))
    rw [if_neg (by exact good)]
    refine wp_setInode ⟨rfl, rfl, holds.setInode (holds.cache.touch (fun used => used) rfl
      (fun used valid => holds.cache.live ip used valid) fun used valid => ?_)⟩
    exact { holds.cache.copies ip used valid with }

theorem Holds.home {inum : Nat} (below : inum < sb.ninodes) :
    ¬ logRegion v.start v.size (iblock inum) := by
  rw [holds.laid.region holds.layout]
  have := (iblock_low holds.layout below).2
  have := holds.layout.fits
  omega

end

/-- An entry gets the fields of its inode. -/
theorem slotOf_load {inode : Inode} {data : Nat → Bytes} (used : (dinodeOf data inode.inum).type ≠ 0) :
    slotOf { inode with toDinode := dinodeOf data inode.inum, busy := true, valid := true } =
      (slotOf inode).load (nodeOf data inode.inum) := by
  unfold slotOf Slot.load nodeOf
  simp only [if_neg used, length_contentOf]

/-- `inode_lock` on an entry that is not valid yet. -/
theorem wp_inodeLock_stale (holds : Holds limit sb v f) {ip : Nat} (used : 0 < (v.mem.icache ip).ref)
    (below : (v.mem.icache ip).inum < sb.ninodes) (free : (v.mem.icache ip).busy = false) (stale : (v.mem.icache ip).valid = false) :
    (volMachine forbidden).Wp (inodeLock ip) v
      (fun _ v' => (f.node (f.slot ip).inum).type ≠ 0 ∧ v'.data = v.data ∧
        Holds limit sb v' (f.setSlot ip ((f.slot ip).load (f.node (f.slot ip).inum))))
      fun w _ => ((f.node (f.slot ip).inum).type = 0 ∧ w = .panic .inodeLockNoType) ∨
        Own limit sb w ∧ ¬ Bounded limit sb := by
  obtain ⟨targets, room⟩ := holds.room
  rw [holds.slot ip, show (slotOf (v.mem.icache ip)).inum = (v.mem.icache ip).inum from rfl,
    holds.nodes _ below]
  unfold inodeLock
  refine .seq (wp_getInode ?_)
  rw [if_neg (by omega), if_neg (by simp [free]), if_neg (by simp [stale])]
  have unheld := Vol.unheld holds.idle
  have few := v.few_held holds.idle 2
  refine .seq (wp_setInode (.seq (.weaken (E := Fails (reading limit sb)) (wp_bread (holds.home below)
    (unheld _) few (fun bounded => (room bounded).setInode ip _) ?_)
      fun w _ fails => Or.inr fails.quiet)))
  refine .seq (wp_brelse_hold (by exact unheld _) ?_)
  refine .seq (wp_setInode ?_)
  rw [setInode_setInode]
  change (volMachine forbidden).Wp (if (dinodeOf v.data (v.mem.icache ip).inum).type = 0 then _ else _) _ _ _
  split
  · next free =>
    exact Machine.Wp.stop (Or.inl ⟨free, rfl⟩)
  · next alive =>
    refine .ret ⟨alive, rfl, ?_⟩
    rw [← slotOf_load alive]
    refine holds.setInode (holds.cache.touch (fun _ => used) rfl (fun _ _ => below) fun _ _ => ?_)
    have small := loadDinode_small (v.data (iblock (v.mem.icache ip).inum)) (v.mem.icache ip).inum
    exact ⟨rfl, alive, small.major, small.minor, small.nlink, rfl, fun _ _ => rfl⟩

theorem filesLock_matches (holds : Holds limit sb v f) (ip : Nat) :
    QuietMatch limit sb v ((volMachine forbidden).run (inodeLock ip) v) (filesLock sb.ninodes f ip) := by
  unfold filesLock
  dsimp only
  split
  · next dead =>
    refine matches_stop (.seq (wp_getInode ?_))
    rw [holds.slot ip] at dead
    rw [if_pos (by exact dead)]
    exact Machine.Wp.stop (Or.inl rfl)
  next used =>
  have alive : 0 < (v.mem.icache ip).ref := by
    simp only [holds.slot ip, slotOf] at used
    omega
  split
  · next busy =>
    rw [holds.slot ip] at used busy
    refine matches_stop (.seq (wp_getInode ?_))
    rw [if_neg (by exact used), if_pos (by exact busy)]
    exact Machine.Wp.stop (Or.inl rfl)
  next free =>
  split
  · next valid =>
    rw [holds.slot ip] at used free valid ⊢
    refine matches_ok (.seq (wp_getInode ?_))
    rw [if_neg (by exact used), if_neg (by exact free), if_pos (by exact valid)]
    refine wp_setInode ⟨rfl, rfl, holds.setInode (holds.cache.touch (fun _ => alive) rfl
      (fun _ _ => holds.cache.live ip alive valid) fun _ _ => ?_)⟩
    exact { holds.cache.copies ip alive valid with }
  next stale =>
  split
  · exact .excused _ (by rfl) _
  next inside =>
  have below : (v.mem.icache ip).inum < sb.ninodes := by
    simpa [holds.slot ip, slotOf] using inside
  have load : (volMachine forbidden).Wp (inodeLock ip) v _ _ := wp_inodeLock_stale holds alive below
    (by simpa [holds.slot ip, slotOf] using free) (by simpa [holds.slot ip, slotOf] using stale)
  split
  · next none =>
    refine matches_stop (Outcome.Sat.mono load (fun _ _ loaded => loaded.1 none) fun w _ allowed => ?_)
    exact allowed.imp_left fun stopped => stopped.2
  · next some =>
    refine matches_ok (Outcome.Sat.mono load (fun _ _ loaded => ⟨rfl, loaded.2⟩) fun w _ allowed => ?_)
    exact allowed.resolve_left fun stopped => some stopped.1

/-! ## Reading -/

/-- The addresses of all inodes, those of `inum` taken from the entry `ip` of the cache. -/
def Vol.addrs (v : Vol (InodeMem ν)) (sb : Superblock) (ip inum : Nat) : Nat → Nat → Nat :=
  update (addrsOf sb v.data) inum (v.mem.icache ip).addrs

/-- A valid entry of the cache with what it is a copy of. -/
structure InHand (sb : Superblock) (v : Vol (InodeMem ν)) (ip inum : Nat) : Prop where
  used : 0 < (v.mem.icache ip).ref
  valid : (v.mem.icache ip).valid = true
  named : (v.mem.icache ip).inum = inum
  below : inum < sb.ninodes
  copies : Copies (v.mem.icache ip) (dinodeOf v.data inum)

theorem Holds.inHand (holds : Holds limit sb v f) {ip : Nat} (hand : (f.slot ip).inHand) :
    InHand sb v ip (f.slot ip).inum := by
  rw [holds.slot ip] at hand ⊢
  exact ⟨hand.1, hand.2, rfl, holds.cache.live ip hand.1 hand.2, holds.cache.copies ip hand.1 hand.2⟩

variable {ip inum : Nat}

section
variable (hand : InHand sb v ip inum)
include hand

theorem InHand.addrs_self (i : Nat) (le : i ≤ nDirect) :
    v.addrs sb ip inum inum i = addrsOf sb v.data inum i := by
  rw [Vol.addrs, update_self, hand.copies.addrs i le,
    Intact.addrsOf_eq hand.below hand.copies.alive]

theorem InHand.stands (holds : Holds limit sb v f) : Stands sb ip inum (v.addrs sb ip inum) v := by
  refine ⟨holds.layout, holds.laid, holds.idle, ⟨holds.intact.storage.low, ?_⟩, ?_⟩
  · refine holds.intact.storage.owned.congr (fun _ _ => Iff.rfl) ?_
    rintro ⟨j, i⟩
    by_cases here : j = inum
    · subst here
      exact blockNo_ext hand.addrs_self i
    · simp only [places, Vol.addrs, update_of_ne here]
  · rw [Vol.addrs, update_self]

theorem InHand.filled (holds : Holds limit sb v f) :
    Filled v.data (v.addrs sb ip inum inum) (v.mem.icache ip).size := by
  rw [hand.copies.size]
  refine (holds.intact.filled inum hand.below hand.copies.alive).ext fun i le => ?_
  rw [Vol.addrs, update_self, hand.copies.addrs i le]

theorem InHand.node (holds : Holds limit sb v f) :
    (f.node inum).data = contentOf v.data (v.addrs sb ip inum inum) (v.mem.icache ip).size := by
  rw [holds.nodes inum hand.below, hand.copies.size]
  unfold nodeOf
  simp only [if_neg hand.copies.alive]
  refine contentOf_ext (fun i le => ?_) _
  rw [Vol.addrs, update_self, hand.copies.addrs i le]

end

theorem devsw_matches (holds : Holds limit sb v f) (major : Nat) (bad : α) :
    QuietMatch limit sb v ((volMachine forbidden).run (devswMissing major bad) v) (devswResult f major bad) := by
  unfold devswMissing devswResult
  split
  · exact matches_ok (.ret ⟨rfl, rfl, holds⟩)
  · exact matches_stop (Machine.Wp.stop (Or.inl rfl))

theorem run_getInode_bind {k : Inode → LogProg (InodeMem ν) α} :
    (volMachine forbidden).run (getInode ip >>= k) v =
      (volMachine forbidden).run (k (v.mem.icache ip)) v :=
  Machine.run_bind_ok rfl

/-- The loop of `inode_read` on an inode in hand. -/
theorem InHand.reads_content (hand : InHand sb v ip inum) (holds : Holds limit sb v f) {off m : Nat}
    (least : m = min n ((v.mem.icache ip).size - off)) (le : off ≤ (v.mem.icache ip).size)
    {Q : List Byte → Vol (InodeMem ν) → Prop} (next : Q (((f.node inum).data.drop off).take n) v) :
    (volMachine forbidden).Confined LogOp.ReadsOnly (readFrom ip m off m) v Q (Fails (reading limit sb)) := by
  have filled := hand.filled holds
  have bound := filled.small
  obtain ⟨targets, room⟩ := holds.room
  refine reads_readFrom (hand.stands holds) room (Nat.le_refl _) (by omega) ?_ ?_
  · exact fun i below => filled.covers i (by omega)
  · rwa [hand.node holds, contentOf_take least] at next

/-- How many bytes `inode_read` reads. -/
theorem readLength {size off : Nat} (bound : size ≤ maxFile * bSize) (le : off ≤ size)
    (short : n < 4294967296) (fits : off ≤ (off + n) % 4294967296) :
    (if size < (off + n) % 4294967296 then size - off else n) = min n (size - off) := by
  have : size ≤ 71680 := bound
  have whole : (off + n) % 4294967296 = off + n := by omega
  rw [whole]
  split <;> omega

theorem filesRead_matches (holds : Holds limit sb v f) (ip off n : Nat) :
    QuietMatch limit sb v ((volMachine forbidden).run (inodeRead ip off n) v) (filesRead f ip off n) := by
  unfold filesRead
  dsimp only
  split
  · exact .excused _ (by rfl) _
  next good =>
  simp only [not_or, not_not, Nat.not_le] at good
  have hand := holds.inHand good.1
  have bound := (hand.filled holds).small
  obtain ⟨type, major, size, -⟩ := holds.fields ip
  rw [type, major, size]
  unfold inodeRead
  rw [run_getInode_bind]
  by_cases device : (v.mem.icache ip).type = tDev
  · rw [if_pos device, if_pos device]
    exact devsw_matches holds _ _
  rw [if_neg device, if_neg device]
  by_cases bad : (v.mem.icache ip).size < off ∨ (off + n) % 4294967296 < off
  · rw [if_pos bad, if_pos bad]
    exact matches_ok (.ret ⟨rfl, rfl, holds⟩)
  rw [if_neg bad, if_neg bad]
  simp only [not_or, Nat.not_lt] at bad
  dsimp only
  rw [readLength bound bad.1 good.2 bad.2]
  exact matches_ok (.seq (.weaken (hand.reads_content holds rfl bad.1 (.ret ⟨rfl, rfl, holds⟩)).wp
    fun _ _ fails => fails.quiet))

end Relation

end OsAudio.Fs

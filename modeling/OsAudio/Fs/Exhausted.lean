import OsAudio.Fs.FileCalls

/-!
# A disk without free blocks

`block_alloc` ends without a return value when no bit of the bitmap is clear.  `bmap` stores what
then comes back in the inode or in the indirect block.
-/
namespace OsAudio.Fs
open OsAudio.Lib
open Function (update update_self update_of_ne)

/-- Every bit of the bitmap is set. -/
def Exhausted (sb : Superblock) (data : Nat → Bytes) : Prop := ∀ b, b < sb.size → inUse sb data b = true

section Blocks
variable {μ : Type} {forbidden : Mark → Bool} {sb : Superblock} {v : Vol μ} {targets : Finset Nat}

theorem wp_blockAllocFrom_exhausted (layout : Layout sb) (laid : v.Laid sb) (full : Exhausted sb v.data)
    (high : ∀ t ∈ v.held, sb.dataStart ≤ t) (few : v.held.card ≤ 1) (room : v.Room targets)
    {count b : Nat} (aligned : b % bpb = 0) (rounds : (sb.size + bpb - 1) / bpb = b / bpb + count) :
    (volMachine forbidden).Wp (blockAllocFrom sb count b) v (fun _ _ => False)
      fun w u => w = .undefined ∧ u = v := by
  have ends := layout.dataEnd_le
  have fits := layout.fits
  have word := layout.word
  induction count generalizing b with
  | zero => exact .stop ⟨rfl, rfl⟩
  | succ count ih =>
    have inside : b < sb.size := by
      unfold bpb at *
      omega
    have block := bblock_bounds (bitmap_of_lt inside)
    have free : bblock b sb.ninodes ∉ v.held := fun member => by
      have := high _ member
      omega
    unfold blockAllocFrom
    rw [if_neg (by omega)]
    refine .seq (.weaken (E := Fails ample) (wp_bread (laid.home layout (by omega)) free (by omega)
      (fun _ => room) ?_) fun _ _ fails => fails.never.elim)
    cases found : clearBitFrom (v.data (bblock b sb.ninodes)) b sb.size with
    | none =>
      refine .seq (wp_brelse_hold free ?_)
      exact ih (by unfold bpb at *; omega) (by unfold bpb at *; omega)
    | some bi =>
      obtain ⟨small, below, clear, -⟩ := clearBitFrom_some found
      have used := full (b + bi) below
      rw [inUse_add aligned small, clear] at used
      cases used

/-- `block_alloc` comes to its end and has changed nothing. -/
theorem wp_blockAlloc_exhausted (layout : Layout sb) (laid : v.Laid sb) (full : Exhausted sb v.data)
    (high : ∀ t ∈ v.held, sb.dataStart ≤ t) (few : v.held.card ≤ 1) (room : v.Room targets) :
    (volMachine forbidden).Wp blockAlloc v (fun _ _ => False) fun w u => w = .undefined ∧ u = v := by
  have ends := layout.dataEnd_le
  have fits := layout.fits
  have free : 1 ∉ v.held := fun member => by
    have := high _ member
    omega
  refine .seq (.weaken (E := Fails ample) (wp_superblock layout laid free (by omega) (fun _ => room) ?_)
    fun _ _ fails => fails.never.elim)
  exact wp_blockAllocFrom_exhausted layout laid full high few room rfl (by simp)

end Blocks

section Inodes
variable {ν : Type} {forbidden : Mark → Bool} {sb : Superblock} {v : Vol (InodeMem ν)} {ip : Nat}
  {targets : Finset Nat}

/-- `bmap` on an index whose block is missing gets to the end of `block_alloc`. -/
theorem wp_bmap_exhausted (sited : Sited sb ip v) (full : Exhausted sb v.data) (room : v.Room targets)
    {bn : Nat} (below : bn < maxFile) (absent : blockNo v.data (v.mem.icache ip).addrs bn = 0) :
    (volMachine forbidden).Wp (bmap ip bn) v (fun _ _ => False) fun w _ => w = .undefined := by
  have layout := sited.layout
  have alloc : (volMachine forbidden).Wp blockAlloc v (fun _ _ => False) fun w _ => w = .undefined :=
    (wp_blockAlloc_exhausted layout sited.laid full (by simp [sited.idle]) (by simp [sited.idle]) room).weaken
      fun _ _ ends => ends.1
  unfold bmap bmapBy
  by_cases direct : bn < nDirect
  · rw [blockNo_direct direct] at absent
    rw [if_pos direct]
    refine .seq (wp_getInode ?_)
    rw [if_pos absent]
    exact .seq (alloc.mono fun _ _ impossible => impossible.elim)
  · have high : nDirect ≤ bn := Nat.not_lt.mp direct
    have inside : bn - nDirect < nIndirect := by
      unfold maxFile at below
      omega
    rw [blockNo_entry high below] at absent
    rw [if_neg direct, if_pos inside]
    by_cases pointer : (v.mem.icache ip).addrs nDirect = 0
    · refine .seq (.seq (wp_getInode ?_))
      rw [if_pos pointer]
      exact .seq (alloc.mono fun _ _ impossible => impossible.elim)
    · rw [if_neg pointer] at absent
      have range := sited.indirect pointer
      have free : (v.mem.icache ip).addrs nDirect ∉ v.held := v.unheld sited.idle _
      have held := v.hold_held sited.idle ((v.mem.icache ip).addrs nDirect)
      refine .seq (.seq (wp_getInode ?_))
      rw [if_neg pointer]
      refine .ret (.seq (.weaken (E := Fails ample) (wp_bread (sited.laid.home layout range.2) free
        (by simp [sited.idle]) (fun _ => room) ?_) fun _ _ fails => fails.never.elim))
      rw [if_pos absent]
      have again := @wp_blockAlloc_exhausted _ forbidden sb (v.hold ((v.mem.icache ip).addrs nDirect)) targets
        layout sited.laid.again full
        (by rw [held]; simpa using range.1) (by rw [held]; simp) room.hold
      exact .seq ((again.weaken fun _ _ ends => ends.1).mono fun _ _ impossible => impossible.elim)

theorem Exhausted.write {data : Nat → Bytes} {r : Nat} {bytes : Bytes} (full : Exhausted sb data)
    (layout : Layout sb) (high : sb.dataStart ≤ r) : Exhausted sb (update data r bytes) := by
  intro b below
  have ends := layout.dataEnd_le
  have fits := layout.fits
  have block := @bblock_bounds sb b (bitmap_of_lt below)
  unfold inUse
  rw [update_of_ne (by omega)]
  exact full b below

/-- Bytes in a block of the file leave its block numbers alone. -/
theorem Sited.write (sited : Sited sb ip v) {i : Nat} (bytes : Bytes) (below : i < maxFile)
    (some : blockNo v.data (v.mem.icache ip).addrs i ≠ 0) :
    Sited sb ip (v.write (blockNo v.data (v.mem.icache ip).addrs i) bytes) ∧
    ∀ j, blockNo (v.write (blockNo v.data (v.mem.icache ip).addrs i) bytes).data
      ((v.write (blockNo v.data (v.mem.icache ip).addrs i) bytes).mem.icache ip).addrs j =
        blockNo v.data (v.mem.icache ip).addrs j := by
  have range := sited.range i (Nat.le_of_lt below) some
  have ends := sited.layout.dataEnd_le
  have same : ∀ j, blockNo (v.write (blockNo v.data (v.mem.icache ip).addrs i) bytes).data
      ((v.write (blockNo v.data (v.mem.icache ip).addrs i) bytes).mem.icache ip).addrs j =
        blockNo v.data (v.mem.icache ip).addrs j :=
    blockNo_congr fun _ => update_of_ne (Ne.symm (sited.apart i below some)) ..
  refine ⟨⟨sited.layout, sited.laid.write (by omega), sited.idle, fun j le present => ?_,
    fun j less present => ?_⟩, same⟩
  · rw [same] at present ⊢
    exact sited.range j le present
  · rw [same] at present ⊢
    exact sited.apart j less present

variable {fuel off : Nat} {src : List Byte}

/-- One round of `inode_write` on a block that is there. -/
theorem Sited.wp_writeFrom_succ (lim : Limits) {Q : Nat → Vol (InodeMem ν) → Prop}
    {E : Stop → Vol (InodeMem ν) → Prop} {m : Nat} (sited : Sited sb ip v)
    (nonempty : src ≠ []) (below : off / bSize < maxFile) (chunk : m = min src.length (bSize - off % bSize))
    (some : blockNo v.data (v.mem.icache ip).addrs (off / bSize) ≠ 0) (room : lim.roomy → v.Room targets)
    (up : v.up = lim.up) (flag : v.inTrans = lim.inTrans) (fails : ∀ w u, Fails lim w u → E w u)
    (next : ∀ bytes, (volMachine forbidden).Wp (writeFrom ip fuel (off + m) (src.drop m))
      (v.write (blockNo v.data (v.mem.icache ip).addrs (off / bSize)) bytes) Q E) :
    (volMachine forbidden).Wp (writeFrom ip (fuel + 1) off src) v Q E := by
  have layout := sited.layout
  have ends := layout.dataEnd_le
  have word := layout.word
  have range := sited.range _ (Nat.le_of_lt below) some
  have free : blockNo v.data (v.mem.icache ip).addrs (off / bSize) ∉ v.held := v.unheld sited.idle _
  unfold writeFrom
  rw [if_neg (by simpa using nonempty)]
  refine .seq (.weaken (E := Fails lim) (reads_bmapBy blockAlloc sited below some room ?_).wp fails)
  refine .seq (.weaken (E := Fails lim) (wp_bread (sited.laid.home layout range.2) free
    (by simp [sited.idle]) room ?_) fails)
  refine .seq (.weaken (E := Fails lim) (wp_logStore (Finset.mem_insert_self _ _) (by omega) (by omega)
    (v.few_hold sited.idle 1) (fun yes => (room yes).hold) up flag fun _ _ => ?_) fails)
  rw [write_hold]
  refine .seq (wp_brelse_hold free ?_)
  rw [← chunk]
  exact next _

/-- The loop of `inode_write`, where a block is missing. -/
theorem wp_writeFrom_exhausted {k : Nat} (sited : Sited sb ip v)
    (full : Exhausted sb v.data) (up : v.up = true) (flag : v.inTrans = true) (room : v.Room targets)
    (enough : src.length ≤ fuel) (bound : off + src.length ≤ maxFile * bSize)
    (low : off ≤ k) (high : k < off + src.length)
    (absent : blockNo v.data (v.mem.icache ip).addrs (k / bSize) = 0)
    (counted : ∀ j, off ≤ j → j < off + src.length → blockNo v.data (v.mem.icache ip).addrs (j / bSize) ≠ 0 →
      blockNo v.data (v.mem.icache ip).addrs (j / bSize) ∈ targets) :
    (volMachine forbidden).Wp (writeFrom ip fuel off src) v (fun _ _ => False) fun w _ => w = .undefined := by
  induction fuel generalizing off src v with
  | zero => omega
  | succ fuel ih =>
    have nonempty : src ≠ [] := List.ne_nil_of_length_pos (by omega)
    obtain ⟨m, chunk⟩ : ∃ m, m = min src.length (bSize - off % bSize) := ⟨_, rfl⟩
    have step : 0 < m ∧ m ≤ src.length := by
      unfold bSize at chunk
      omega
    have below : off / bSize < maxFile := by
      unfold bSize at *
      omega
    by_cases first : blockNo v.data (v.mem.icache ip).addrs (off / bSize) = 0
    · unfold writeFrom
      rw [if_neg (by simpa using nonempty)]
      exact .seq ((wp_bmap_exhausted sited full room below first).mono fun _ _ impossible => impossible.elim)
    · have range := sited.range _ (Nat.le_of_lt below) first
      have later : off + m ≤ k := by
        by_contra early
        refine first ?_
        rwa [show off / bSize = k / bSize by unfold bSize at *; omega]
      have length : (src.drop m).length = src.length - m := List.length_drop
      refine sited.wp_writeFrom_succ ample nonempty below chunk first (fun _ => room) up flag
        (fun _ _ fails => fails.never.elim) fun bytes => ?_
      obtain ⟨sited', same⟩ := sited.write bytes below first
      refine ih sited' (full.write sited.layout range.1) up flag (room.write (counted off (Nat.le_refl _)
        (by omega) first)) (by omega) (by omega) later (by omega) ((same _).trans absent) fun j lo hi some => ?_
      rw [same] at some ⊢
      exact counted j (by omega) (by omega) some

/-- Nothing is known about the room in the log and the cache, and nothing else is missing. -/
def Vol.crowded (v : Vol (InodeMem ν)) : Limits := ⟨False, True, v.up, v.inTrans⟩

/-- The run stops for a reason that is known, and not at a missing return value. -/
abbrev DefinedStop (w : Stop) (_ : Vol (InodeMem ν)) : Prop := w ≠ .undefined ∧ w ≠ .beyond

theorem Fails.defined {u : Vol (InodeMem ν)} {w : Stop} (fails : Fails v.crowded w u) : DefinedStop w u := by
  refine ⟨?_, fails.answers⟩
  rintro rfl
  exact fails.short nofun nofun nofun trivial

theorem crowded_room {P : Prop} : v.crowded.roomy → P := False.elim

/-- The loop of `inode_write`, where all blocks are there. -/
theorem wp_writeFrom_covered (sited : Sited sb ip v)
    (bound : off + src.length ≤ maxFile * bSize)
    (covered : ∀ j, off ≤ j → j < off + src.length → blockNo v.data (v.mem.icache ip).addrs (j / bSize) ≠ 0) :
    (volMachine forbidden).Wp (writeFrom ip fuel off src) v
      (fun _ u => Sited sb ip u ∧ u.mem = v.mem) DefinedStop := by
  induction fuel generalizing off src v with
  | zero => exact .ret ⟨sited, rfl⟩
  | succ fuel ih =>
    by_cases done : src = []
    · subst done
      exact .ret ⟨sited, rfl⟩
    have positive : 0 < src.length := List.length_pos_iff.mpr done
    obtain ⟨m, chunk⟩ : ∃ m, m = min src.length (bSize - off % bSize) := ⟨_, rfl⟩
    have below : off / bSize < maxFile := by
      unfold bSize at *
      omega
    have first := covered off (Nat.le_refl _) (by omega)
    have length : (src.drop m).length = src.length - m := List.length_drop
    refine sited.wp_writeFrom_succ v.crowded done below chunk first (crowded_room : _ → v.Room ∅) rfl rfl
      (fun _ _ fails => fails.defined) fun bytes => ?_
    obtain ⟨sited', same⟩ := sited.write bytes below first
    refine ih sited' (by omega) fun j lo hi => ?_
    rw [same]
    exact covered j (by omega) (by omega)

/-- What `inode_write` does before its loop. -/
theorem wp_inodeWrite_accepted {Q : Int → Vol (InodeMem ν) → Prop}
    {E : Stop → Vol (InodeMem ν) → Prop} (file : (v.mem.icache ip).type ≠ tDev)
    (le : off ≤ (v.mem.icache ip).size) (bound : off + src.length ≤ maxFile * bSize)
    (next : (volMachine forbidden).Wp (writeFrom ip src.length off src) v (fun off w =>
      (volMachine forbidden).Wp (do
        let inode ← getInode ip
        if src.length > 0 ∧ inode.size < off then do
          setInode ip { inode with size := off }
          inodeUpdate ip
        pure (src.length : Int)) w Q E) E) :
    (volMachine forbidden).Wp (inodeWrite ip off src) v Q E := by
  have long : maxFile * bSize = 71680 := by decide
  have whole : (off + src.length) % 4294967296 = off + src.length := by omega
  refine .seq (wp_getInode ?_)
  dsimp only
  rw [if_neg file, whole, if_neg (by omega), if_neg (Nat.not_lt.mpr bound)]
  exact .seq next

/-- `inode_write`, where all blocks are there. -/
theorem wp_inodeWrite_covered (sited : Sited sb ip v)
    (known : (v.mem.icache ip).inum < sb.ninodes) (file : (v.mem.icache ip).type ≠ tDev)
    (le : off ≤ (v.mem.icache ip).size) (bound : off + src.length ≤ maxFile * bSize)
    (covered : ∀ j, off ≤ j → j < off + src.length → blockNo v.data (v.mem.icache ip).addrs (j / bSize) ≠ 0) :
    (volMachine forbidden).Wp (inodeWrite ip off src) v (fun _ _ => True) DefinedStop := by
  refine wp_inodeWrite_accepted file le bound ((wp_writeFrom_covered sited bound covered).mono fun off u ends => ?_)
  obtain ⟨after, mem⟩ := ends
  refine .seq (wp_getInode ?_)
  split
  · have named : ((u.setInode ip { u.mem.icache ip with size := off }).mem.icache ip).inum =
        (v.mem.icache ip).inum := by
      rw [← mem]
      unfold Vol.setInode
      dsimp only
      rw [update_self]
    have updates : (volMachine forbidden).Wp (inodeUpdate ip) (u.setInode ip { u.mem.icache ip with size := off })
        (fun _ _ => True) (Fails u.crowded) :=
      wp_inodeUpdate after.layout after.laid.again after.idle named
        known (crowded_room : _ → (u.setInode ip _).Room ∅) rfl rfl fun _ _ => trivial
    exact .seq (wp_setInode (.seq ((updates.weaken fun _ _ fails => fails.defined).mono fun _ _ _ => .ret trivial)))
  · exact .ret trivial

/-- A block number of the inode is another one than before. -/
structure Misled (sb : Superblock) (ip : Nat) (v w : Vol (InodeMem ν)) : Prop where
  laid : w.Laid sb
  home : (w.mem.icache ip).addrs nDirect < sb.dataEnd
  changed : ∃ i ≤ maxFile, blockNo w.data (w.mem.icache ip).addrs i ≠ blockNo v.data (v.mem.icache ip).addrs i

theorem Sited.home (sited : Sited sb ip v) : (v.mem.icache ip).addrs nDirect < sb.dataEnd := by
  have ends := sited.layout.dataEnd_le
  have fits := sited.layout.fits
  by_cases none : (v.mem.icache ip).addrs nDirect = 0
  · omega
  · exact (sited.indirect none).2

/-- If 2 is what comes back from `block_alloc`, then `bmap` stores it. -/
theorem wp_bmapBy_left (sited : Sited sb ip v) (up : v.up = true) (flag : v.inTrans = true)
    (room : v.Room targets) {bn : Nat} (below : bn < maxFile)
    (absent : blockNo v.data (v.mem.icache ip).addrs bn = 0) :
    (volMachine forbidden).Wp (bmapBy (pure 2) ip bn) v (fun _ w => Misled sb ip v w) (Fails ample) := by
  have layout := sited.layout
  have laid := sited.laid
  have ends := layout.dataEnd_le
  have fits := layout.fits
  have word := layout.word
  have idle := sited.idle
  have set : ∀ i, ((v.setAddrs ip (update (v.mem.icache ip).addrs i 2)).mem.icache ip).addrs =
      update (v.mem.icache ip).addrs i 2 := by
    intro i
    unfold Vol.setAddrs Vol.setInode
    dsimp only
    rw [update_self]
  unfold bmapBy
  by_cases direct : bn < nDirect
  · have empty := absent
    rw [blockNo_direct direct] at empty
    rw [if_pos direct]
    refine .seq (wp_getInode ?_)
    rw [if_pos empty]
    refine .seq (.ret (.seq (wp_setAddr (.ret ⟨laid.again, ?_, bn, by omega, ?_⟩))))
    · rw [set, update_of_ne (by omega)]
      exact sited.home
    · rw [set, blockNo_direct direct, update_self, absent]
      decide
  · have high : nDirect ≤ bn := Nat.not_lt.mp direct
    have inside : bn - nDirect < nIndirect := by
      unfold maxFile at below
      omega
    rw [if_neg direct, if_pos inside]
    by_cases pointer : (v.mem.icache ip).addrs nDirect = 0
    · refine .seq (.seq (wp_getInode ?_))
      rw [if_pos pointer]
      refine .seq (.ret (.seq (wp_setAddr (.ret ?_))))
      -- The block of inodes in sector 2 is now taken for the indirect block.
      have misled : ∀ w : Vol (InodeMem ν), w.Laid sb →
          w.mem = (v.setAddrs ip (update (v.mem.icache ip).addrs nDirect 2)).mem → Misled sb ip v w := by
        intro w laid' mem
        refine ⟨laid', ?_, maxFile, Nat.le_refl _, ?_⟩
        · rw [mem, set, update_self]
          omega
        · rw [mem, set, blockNo_indirect, update_self, blockNo_indirect, pointer]
          decide
      have free : 2 ∉ v.held := v.unheld idle _
      refine .seq (wp_bread (laid.home layout (by omega)) free (by simp [Vol.setAddrs, Vol.setInode, idle])
        (fun _ => room.setInode ip _) ?_)
      split
      · refine .seq (.ret (.seq (wp_logStore (Finset.mem_insert_self _ _) (by decide) (by decide)
          (v.few_hold idle 1) (fun _ => (room.setInode ip _).hold) up flag fun _ _ => ?_)))
        refine .seq (wp_brelse (Finset.mem_insert_self _ _) (.ret (misled _ ?_ rfl)))
        have stored := @Vol.Laid.write _ v sb laid 2 ((v.data 2).put (4 * (bn - nDirect)) 4 2) (by decide)
        exact ⟨stored.superblock, stored.start, stored.size⟩
      · exact .seq (wp_brelse (Finset.mem_insert_self _ _)
          (.ret (misled _ laid.again rfl)))
    · have empty := absent
      rw [blockNo_entry high below, if_neg pointer] at empty
      have range := sited.indirect pointer
      have free : (v.mem.icache ip).addrs nDirect ∉ v.held := v.unheld idle _
      refine .seq (.seq (wp_getInode ?_))
      rw [if_neg pointer]
      refine .ret (.seq (wp_bread (laid.home layout range.2) free (by simp [idle]) (fun _ => room) ?_))
      rw [if_pos empty]
      refine .seq (.ret (.seq (wp_logStore (Finset.mem_insert_self _ _) (by omega) (by omega)
        (v.few_hold idle 1) (fun _ => room.hold) up flag fun _ _ => ?_)))
      refine .seq (wp_brelse (Finset.mem_insert_self _ _) (.ret ⟨?_, sited.home, bn, by omega, ?_⟩))
      · have stored := @Vol.Laid.write _ v sb laid ((v.mem.icache ip).addrs nDirect)
          ((v.data ((v.mem.icache ip).addrs nDirect)).put (4 * (bn - nDirect)) 4 2) (by omega)
        exact ⟨stored.superblock, stored.start, stored.size⟩
      · change blockNo (update v.data ((v.mem.icache ip).addrs nDirect) _) (v.mem.icache ip).addrs bn ≠ _
        rw [absent, blockNo_entry high below, if_neg pointer, update_self, entry_put (by decide),
          if_pos rfl]
        decide

end Inodes

/-! ## The kernel -/

section Kernel
variable {sb : Superblock} {s : FsState} {f : Files FsMem} {ip : Nat}

/-- The block number in place `i` of entry `ip` of the inode cache, as the kernel sees it. -/
def blockNumber (s : FsState) (ip i : Nat) : Nat := blockNo s.content (s.upper.icache ip).addrs i

theorem Shows.blockNumber {v : Vol (InodeMem FsMem)} (presented : Shows s v) (layout : Layout sb)
    (laid : v.Laid sb) (home : (v.mem.icache ip).addrs nDirect < sb.dataEnd) (i : Nat) :
    Fs.blockNumber s ip i = blockNo v.data (v.mem.icache ip).addrs i := by
  unfold Fs.blockNumber
  rw [presented.upper_eq]
  exact blockNo_congr (fun _ => presented.content (laid.home layout home)) i

variable {v : Vol (InodeMem FsMem)} {α : Type} {p : LogProg (InodeMem FsMem) α}

theorem Shows.exhausted (presented : Shows s v) (layout : Layout sb)
    (laid : v.Laid sb) (full : Exhausted sb s.content) : Exhausted sb v.data := by
  intro b below
  have ends := layout.dataEnd_le
  have fits := layout.fits
  have block := @bblock_bounds sb b (bitmap_of_lt below)
  have used := full b below
  unfold inUse at used ⊢
  rwa [presented.content (laid.home layout (by omega))] at used

/-- A program that gets to a missing return value on the volume does so in the kernel. -/
theorem Shows.undefined (presented : Shows s v)
    (stops : (volMachine fun _ => false).Wp p v (fun _ _ => False) fun w _ => w = .undefined) :
    ((logMachine fun _ => false).run p s).reason = some .undefined := by
  unfold Machine.Wp at stops
  cases right : (volMachine fun _ => false).run p v with
  | ok a w =>
    rw [right] at stops
    exact stops.elim
  | stop reason w =>
    rw [right] at stops
    obtain rfl : reason = .undefined := stops
    exact (cache_refines fun _ => false).stops (fun _ _ _ => trivial) presented right nofun

/-- A program that stays clear of missing return values on the volume does so in the kernel. -/
theorem Shows.defined (presented : Shows s v)
    (stops : (volMachine fun _ => false).Wp p v (fun _ _ => True) DefinedStop) :
    ((logMachine fun _ => false).run p s).reason ≠ some .undefined := by
  unfold Machine.Wp at stops
  cases right : (volMachine fun _ => false).run p v with
  | ok a w =>
    obtain ⟨t, returned, -⟩ := (cache_refines fun _ => false).returns (fun _ _ _ => trivial) presented right
    rw [show (logMachine fun _ => false).run p s = .ok a t from returned]
    nofun
  | stop reason w =>
    rw [right] at stops
    obtain ⟨known, answers⟩ : DefinedStop reason w := stops
    rw [show ((logMachine fun _ => false).run p s).reason = some reason from
      (cache_refines fun _ => false).stops (fun _ _ _ => trivial) presented right answers]
    exact fun undefined => known (Option.some.inj undefined)

/-- A program that returns on the volume returns in the kernel. -/
theorem Shows.returns (presented : Shows s v)
    {Q : α → Vol (InodeMem FsMem) → Prop}
    (asserts : (volMachine fun _ => false).Wp p v Q (Fails ample)) :
    ∃ a t w, (logMachine fun _ => false).run p s = .ok a t ∧ Q a w ∧ Shows t w := by
  obtain ⟨a, w, done, post⟩ := (asserts.weaken fun _ _ fails => fails.never).returns
  obtain ⟨t, run, after⟩ := (cache_refines fun _ => false).returns (fun _ _ _ => trivial) presented done
  exact ⟨a, t, w, run, post, after⟩

/-- With every bit of the bitmap set, `block_alloc` comes to its end, where no value is returned.
Whatever then comes back, `bmap` leaves all block numbers alone exactly if the block it looks for is
there, and `inode_write` stays clear of the end of `block_alloc` exactly if all blocks of its bytes
are. -/
theorem exhausted_contained_iff {v : Vol (InodeMem FsMem)} (presented : Shows s v) (sited : Sited sb ip v)
    (full : Exhausted sb s.content) (up : v.up = true) (begun : v.inTrans = true)
    {targets : Finset Nat} (room : v.Room targets) :
    ((logMachine fun _ => false).run blockAlloc s).reason = some .undefined ∧
    (∀ bn, bn < maxFile →
      ((∀ left r t, (logMachine fun _ => false).run (bmapBy (pure left) ip bn) s = .ok r t →
        ∀ i, i ≤ maxFile → blockNumber t ip i = blockNumber s ip i) ↔ blockNumber s ip bn ≠ 0)) ∧
    ∀ off (src : List Byte), (s.upper.icache ip).inum < sb.ninodes → (s.upper.icache ip).type ≠ tDev →
      off ≤ (s.upper.icache ip).size → off + src.length ≤ maxFile * bSize →
      (∀ k, off ≤ k → k < off + src.length → blockNumber s ip (k / bSize) ≠ 0 →
        blockNumber s ip (k / bSize) ∈ targets) →
      (((fsMachine fun _ => false).run (iwrite ip off src) s).reason ≠ some .undefined ↔
        ∀ k, off ≤ k → k < off + src.length → blockNumber s ip (k / bSize) ≠ 0) := by
  have layout := sited.layout
  have laid := sited.laid
  have idle := sited.idle
  have full := presented.exhausted layout laid full
  have numbers := @Shows.blockNumber sb s ip v presented layout laid sited.home
  simp only [numbers]
  rw [presented.upper_eq]
  refine ⟨?_, fun bn below => ⟨fun kept absent => ?_, fun present left r t returned i le => ?_⟩,
    fun off src known file le bound counted => ?_⟩
  · exact presented.undefined ((wp_blockAlloc_exhausted layout laid full (by simp [idle]) (by simp [idle])
      room).weaken fun _ _ ends => ends.1)
  · obtain ⟨r, t, w, run, misled, after⟩ :=
      presented.returns (wp_bmapBy_left sited up begun room below absent)
    obtain ⟨i, le, changed⟩ := misled.changed
    refine changed ?_
    rw [← after.blockNumber layout misled.laid misled.home]
    exact kept 2 r t run i le
  · have reads : (volMachine fun _ => false).Wp (bmapBy (pure left) ip bn) v (fun _ w => w = v) (Fails ample) :=
      (reads_bmapBy (pure left) sited below present (fun _ => room) rfl).wp
    obtain ⟨r', t', w, run, rfl, after⟩ := presented.returns reads
    rw [run] at returned
    obtain ⟨-, rfl⟩ := Outcome.ok.inj returned
    exact after.blockNumber layout laid sited.home i
  · have same : (fsMachine fun _ => false).run (iwrite ip off src) s =
        (logMachine fun _ => false).run (inodeWrite ip off src) s := run_inodeOp (.write ip off src) s
    rw [same]
    constructor
    · intro contained k low high absent
      refine contained (presented.undefined (wp_inodeWrite_accepted file le bound ?_))
      exact (wp_writeFrom_exhausted sited full up begun room (Nat.le_refl _) bound low high absent counted).mono
        fun _ _ impossible => impossible.elim
    · intro covered
      exact presented.defined (wp_inodeWrite_covered sited known file le bound covered)

end Kernel

/-! ## A full disk -/

/-- A disk with 17 sectors whose bitmap has all bits set. -/
def fullDisk : Nat → Bytes := fun sector =>
  if sector = 5 then ((Bytes.zero.put 0 1 255).put 1 1 255).put 2 1 1 else crampedDisk sector

/-- A process locks the root directory in a transaction. -/
def rootLocking : FsProg Unit := do
  Prog.op (S := InodeSig FsMem) .logInit
  begin
  let ip ← iget rootIno
  ilock ip

def fullKernel : FsState := ((fsMachine fun _ => false).run rootLocking (booted fullDisk)).state

/-- The volume that `fullKernel` presents. -/
def fullVolume : Vol (InodeMem FsMem) :=
  ((fsVolume fun _ => false).run rootLocking
    ⟨fullDisk, false, false, ∅, ∅, 7, 10, bootMem numProcs⟩).state

theorem fullVolume_state :
    ((fsVolume fun _ => false).run rootLocking
      ⟨fullDisk, false, false, ∅, ∅, 7, 10, bootMem numProcs⟩).result = some () ∧
    superblockOf (fullVolume.data 1) = ⟨17, 1, 16, 10⟩ ∧ fullVolume.start = 7 ∧ fullVolume.size = 10 ∧
    fullVolume.held = ∅ ∧ fullVolume.logged = ∅ ∧ fullVolume.up = true ∧ fullVolume.inTrans = true ∧
    (fullVolume.mem.icache 0).inum = rootIno ∧ (fullVolume.mem.icache 0).type = tDir ∧
    (fullVolume.mem.icache 0).size = 512 ∧ (fullVolume.mem.icache 0).addrs nDirect = 0 ∧
    ∀ i, i ≤ maxFile → blockNo fullVolume.data (fullVolume.mem.icache 0).addrs i = if i = 0 then 6 else 0 := by
  decide +kernel

theorem fullKernel_exhausted : Exhausted ⟨17, 1, 16, 10⟩ fullKernel.content := by
  have bits : ∀ b, b < 17 → inUse ⟨17, 1, 16, 10⟩ fullKernel.content b = true := by decide
  exact bits

theorem fullKernel_shows : Shows fullKernel fullVolume := by
  have start : Shows (booted fullDisk) ⟨fullDisk, false, false, ∅, ∅, 7, 10, bootMem numProcs⟩ := by
    refine shows_powerOn (bootMem numProcs) (by decide) (by decide) ?_ (by decide)
    have laid : (⟨fullDisk, false, false, ∅, ∅, 7, 10, bootMem numProcs⟩ : Vol (InodeMem FsMem)).Laid
        ⟨17, 1, 16, 10⟩ := ⟨by decide, rfl, rfl⟩
    exact laid.home ⟨by decide, by decide⟩ (by decide)
  have returned := Outcome.eq_ok_of_result fullVolume_state.1
  obtain ⟨s, run, shows'⟩ := (fs_refines fun _ => false).returns (fun _ _ _ => trivial) start returned
  unfold fullKernel
  rw [run]
  exact shows'

theorem fullVolume_sited : Sited ⟨17, 1, 16, 10⟩ 0 fullVolume := by
  obtain ⟨-, superblock, start, size, held, -, -, -, -, -, -, pointer, blocks⟩ := fullVolume_state
  refine ⟨⟨by decide, by decide⟩, ⟨superblock, start, size⟩, held, fun i le some => ?_, fun i below some => ?_⟩
  · rw [blocks i le] at some ⊢
    split at some
    · next first =>
      rw [if_pos first]
      decide
    · exact absurd rfl some
  · rw [pointer]
    exact some

/-- On the full disk, a write inside the root directory does not get to the end of `block_alloc`,
but a write that makes it longer does. -/
theorem exhausted_contained_root :
    ((fsMachine fun _ => false).run (iwrite 0 0 [1]) fullKernel).reason ≠ some .undefined ∧
    ¬ ((fsMachine fun _ => false).run (iwrite 0 512 [1]) fullKernel).reason ≠ some .undefined := by
  obtain ⟨-, superblock, start, size, held, logged, up, begun, inum, type, length, pointer, blocks⟩ :=
    fullVolume_state
  have room : fullVolume.Room {6} := by
    refine ⟨?_, ?_, ?_⟩
    · rw [logged]
      exact Finset.empty_subset _
    · decide
    · rw [size]
      decide
  have numbers : ∀ i, i ≤ maxFile → blockNumber fullKernel 0 i = if i = 0 then 6 else 0 := by
    intro i le
    rw [fullKernel_shows.blockNumber fullVolume_sited.layout fullVolume_sited.laid fullVolume_sited.home]
    exact blocks i le
  rw [← fullKernel_shows.upper_eq] at inum type length
  obtain ⟨-, -, writes⟩ := exhausted_contained_iff fullKernel_shows fullVolume_sited fullKernel_exhausted up begun
    room
  have file : (fullKernel.upper.icache 0).type ≠ tDev := by
    rw [type]
    decide
  have known : (fullKernel.upper.icache 0).inum < 16 := by
    rw [inum]
    decide
  constructor
  · refine (writes 0 [1] known file (Nat.zero_le _) (by decide) fun k _ high _ => ?_).mpr fun k _ high => ?_
    · obtain rfl : k = 0 := by simpa using high
      rw [numbers _ (by decide)]
      decide
    · obtain rfl : k = 0 := by simpa using high
      rw [numbers _ (by decide)]
      decide
  · rw [writes 512 [1] known file (by omega) (by decide) fun k low high some => ?_]
    · intro covered
      refine covered 512 (Nat.le_refl _) (by decide) ?_
      rw [numbers _ (by decide)]
      rfl
    · obtain rfl : k = 512 := by
        simp only [List.length_cons, List.length_nil] at high
        omega
      rw [numbers _ (by decide)] at some
      exact absurd rfl some

/-- A process opens the root directory and makes a directory in it. -/
def makingDirectory : List (Nat × Syscall) :=
  [(1, .sysOpen [slash] oRdonly), (1, .sysMkdir [slash, 0x64])]

/-- On the full disk `mkdir` gets to the end of `block_alloc`, and if 77 comes back from there when
the root directory grows, then block 77 belongs to the root directory. -/
theorem exhausted_stores_anything :
    Exhausted ⟨17, 1, 16, 10⟩ fullKernel.content ∧
    ((fsMachine fun _ => false).run (session makingDirectory) (booted fullDisk)).reason = some .undefined ∧
    ((fsMachine fun _ => false).run (iwrite 0 512 [1]) fullKernel).reason = some .undefined ∧
    blockNumber fullKernel 0 1 = 0 ∧
    ∃ t, (logMachine fun _ => false).run (bmapBy (pure 77) 0 1) fullKernel = .ok 77 t ∧ blockNumber t 0 1 = 77 := by
  have checked :
      ((fsMachine fun _ => false).run (session makingDirectory) (booted fullDisk)).reason = some .undefined ∧
      ((fsMachine fun _ => false).run (iwrite 0 512 [1]) fullKernel).reason = some .undefined ∧
      blockNumber fullKernel 0 1 = 0 ∧
      ((logMachine fun _ => false).run (bmapBy (pure 77) 0 1) fullKernel).result = some 77 ∧
      blockNumber ((logMachine fun _ => false).run (bmapBy (pure 77) 0 1) fullKernel).state 0 1 = 77 := by
    decide +kernel
  obtain ⟨made, written, absent, returned, stored⟩ := checked
  exact ⟨fullKernel_exhausted, made, written, absent, _, Outcome.eq_ok_of_result returned, stored⟩

end OsAudio.Fs

import OsAudio.Fs.FilesWrite

/-!
# The inode layer implements files: giving back and allocating inodes

The last reference to an inode without links frees its blocks and the inode; an inode is
allocated as the first free one.
-/
namespace OsAudio.Fs
open OsAudio.Lib
open Function (update update_idem update_self update_of_ne)

section Relation
variable {ν : Type} {limit : Option Nat} {forbidden : Mark → Bool} {sb : Superblock}
  {v : Vol (InodeMem ν)} {f : Files ν} {ip inum : Nat}

/-! ## Giving back -/

/-- The addresses of all inodes once `inum` has lost its blocks. -/
def withoutBlocks (sb : Superblock) (data : Nat → Bytes) (inum : Nat) : Nat → Nat → Nat :=
  update (addrsOf sb data) inum fun _ => 0

variable {lim : Limits} {v₁ v' : Vol (InodeMem ν)} {inode : Inode} {type : Nat}

/-- The inode is stored after all its blocks have been freed. -/
theorem InHand.freed (hand : InHand sb v ip inum) (holds : Holds limit sb v f)
    (data : v₁.data = v.data)
    (frees : Frees sb lim inum (places v.data (v.addrs sb ip inum)) v₁ (maxFile + 1) v') {bytes : Bytes}
    (off : ∀ i, OffDinode inum i → bytes i = v'.data (iblock inum) i)
    (empty : (loadDinode bytes inum).size = 0)
    (blank : ∀ i, i ≤ nDirect → (loadDinode bytes inum).addrs i = 0) :
    Storing sb v'.data (withoutBlocks sb v.data inum) inum bytes := by
  have layout := holds.layout
  have same : ∀ t, OffBitmap sb t → v'.data t = v.data t := fun t out =>
    (frees.frame t out).trans (congrFun data t)
  have none : withoutBlocks sb v.data inum inum = fun _ => 0 := update_self ..
  have other : ∀ j, j ≠ inum → withoutBlocks sb v.data inum j = addrsOf sb v.data j :=
    fun j apart => update_of_ne apart ..
  refine ⟨layout, hand.below, ⟨frees.allotted.low, ?_⟩, fun j apart => ?_, off, fun i le => ?_,
    fun j below _ used => ?_, fun _ => ?_⟩
  · refine frees.allotted.owned.congr (fun _ _ => Iff.rfl) ?_
    rintro ⟨j, i⟩
    unfold places cleared
    dsimp only
    by_cases here : j = inum
    · rw [here, none, blockNo_zero fun _ => rfl]
      split
      · rfl
      · next high =>
        refine (blockNo_beyond ?_).symm
        by_contra low
        exact high ⟨rfl, by omega⟩
    · rw [if_neg fun both => here both.1, other j here, Vol.addrs, update_of_ne here]
      refine blockNo_congr (fun some => ?_) i
      have place : blockNo v.data (addrsOf sb v.data j) maxFile = addrsOf sb v.data j nDirect :=
        blockNo_indirect
      have range := holds.intact.storage.range (place.symm ▸ some)
      rw [place] at range
      exact same _ (Or.inr range.1)
  · rw [other j apart]
    unfold addrsOf
    by_cases below : j < sb.ninodes
    · rw [(holds.intact.rebit layout same below).1]
    · rw [if_neg fun used => below used.1, if_neg fun used => below used.1]
  · rw [none, blank i le]
    split <;> rfl
  · obtain ⟨dinode, -, filled⟩ := holds.intact.rebit layout same below
    rw [dinode] at used ⊢
    exact filled used
  · rw [empty, none]
    exact Filled.empty fun _ _ => rfl

/-- An entry without blocks. -/
def emptied (inode : Inode) (busy : Bool) : Inode :=
  { inode with size := 0, addrs := clearedAddrs inode.addrs (nDirect + 1), busy := busy }

theorem emptied_small (small : inode.toDinode.Small) (busy : Bool) :
    (emptied inode busy).toDinode.Small := by
  refine ⟨small.type, small.major, small.minor, small.nlink, ?_, fun i le => ?_⟩
  · exact Nat.zero_lt_succ _
  · have none : (emptied inode busy).addrs i = 0 := if_pos (Nat.lt_succ_of_le le)
    rw [none]
    exact Nat.zero_lt_succ _

theorem Works.setInode {A : Nat → Nat → Nat} (works : Works forbidden sb lim ip inum A v)
    (same : inode.addrs = A inum) :
    Works forbidden sb lim ip inum A (v.setInode ip inode) := by
  have laid := works.laid
  refine ⟨⟨works.layout, laid.again, works.idle, works.storage, ?_⟩,
    works.up, works.flag, works.safe⟩
  rw [← same]
  exact congrArg (fun e : Inode => e.addrs) (update_self ..)

theorem setInode_write (v : Vol (InodeMem ν)) (ip sector : Nat) (bytes : Bytes) (inode : Inode) :
    (v.write sector bytes).setInode ip inode = (v.setInode ip inode).write sector bytes := rfl

/-- What `inode_trunc` leaves of an inode. -/
theorem truncated_eq {a : Nat → Nat}
    (entry : v₁.mem.icache ip = { inode with busy := true }) (addrs : inode.addrs = a)
    (mem : v'.mem = (v₁.setAddrs ip (clearedAddrs a (nDirect + 1))).mem) :
    v'.truncated ip inum = (v'.setInode ip (emptied inode true)).write (iblock inum)
      (storeDinode (v'.data (iblock inum)) inum (emptied inode true).toDinode) := by
  have now : v'.mem.icache ip = { inode with busy := true, addrs := clearedAddrs a (nDirect + 1) } := by
    rw [mem]
    exact (update_self ..).trans (by rw [entry])
  have self : (v'.setInode ip (emptied inode true)).mem.icache ip = emptied inode true :=
    update_self ..
  unfold Vol.truncated
  rw [now, ← addrs]
  exact congrArg (fun e : Inode => (v'.setInode ip (emptied inode true)).write (iblock inum)
    (storeDinode (v'.data (iblock inum)) inum e.toDinode)) self

/-- The entry of an inode that has been freed. -/
def released (inode : Inode) : Inode :=
  { emptied inode false with type := 0, valid := false, ref := 0 }

/-- The inode is stored as a free one, and its entry given back. -/
theorem InHand.given_back (hand : InHand sb v ip inum) (holds : Holds limit sb v f)
    (named : inum = (f.slot ip).inum) {u : Vol (InodeMem ν)} (data : v₁.data = v.data)
    (frees : Frees sb lim inum (places v.data (v.addrs sb ip inum)) v₁ (maxFile + 1) v')
    (idle : v₁.held = ∅) (up : lim.up = f.up) (flag : lim.inTrans = f.inTrans) (busy : f.inTrans = true)
    (few : exceeds limit (f.charge inum 0).bill = false) {D : Finset Nat} (small : D.card ≤ f.spent)
    (logged : v₁.logged ⊆ targetSet sb (insert inum f.touched) D)
    (mem : u.mem = { v.mem with icache := update v.mem.icache ip (released (v.mem.icache ip)) })
    (stored : u = { v' with mem := u.mem }.write (iblock inum)
      (storeDinode (v'.data (iblock inum)) inum (emptied (v.mem.icache ip) true).toDinode)) :
    Holds limit sb (u.write (iblock inum) (storeDinode (u.data (iblock inum)) inum
      { emptied (v.mem.icache ip) true with type := 0 }.toDinode)) ((f.charge inum 0).free ip) := by
  obtain ⟨inode, here⟩ : ∃ inode, inode = v.mem.icache ip := ⟨_, rfl⟩
  have old : inode.toDinode.Small := here ▸ hand.small
  have small₁ := emptied_small old true
  have small₂ : { emptied inode true with type := 0 }.toDinode.Small :=
    ⟨Nat.zero_lt_succ _, small₁.major, small₁.minor, small₁.nlink, small₁.size, small₁.addrs⟩
  rw [← here] at mem stored ⊢
  have layout := holds.layout
  -- First the inode without blocks, then the free inode.
  have first : Storing sb v'.data (withoutBlocks sb v.data inum) inum
      (storeDinode (v'.data (iblock inum)) inum (emptied inode true).toDinode) := by
    refine hand.freed holds data frees (fun i off => storeDinode_off off) ?_ fun i le => ?_
    · rw [loadDinode_storeDinode small₁]
      rfl
    · rw [loadDinode_storeDinode small₁]
      exact (if_pos (Nat.lt_succ_of_le le)).trans (if_pos (Nat.lt_succ_of_le le))
  have disk : u.data = update v'.data (iblock inum)
      (storeDinode (v'.data (iblock inum)) inum (emptied inode true).toDinode) := by
    rw [stored]
    rfl
  have intact : Intact sb u.data := disk ▸ first.intact
  have loaded : loadDinode (storeDinode (u.data (iblock inum)) inum
      { emptied inode true with type := 0 }.toDinode) inum = _ := loadDinode_storeDinode small₂
  have second : Storing sb u.data (addrsOf sb u.data) inum (storeDinode (u.data (iblock inum)) inum
      { emptied inode true with type := 0 }.toDinode) := by
    refine intact.storing layout hand.below (fun i off => storeDinode_off off) (fun i le => ?_) ?_ ?_
    · rw [disk, first.addrsOf_self le, withoutBlocks, update_self]
    · rw [loaded]
      exact fun used => absurd rfl used
    · rw [loaded]
      exact fun used => absurd rfl used
  have same : ∀ t, OffBitmap sb t → v'.data t = v.data t := fun t out =>
    (frees.frame t out).trans (congrFun data t)
  have laid := frees.laid
  refine Saved.holds ⟨second, ?_, ?_, ?_, ?_, busy, ?_, ?_, ?_, ?_, fun j below other => ?_,
    ⟨D, small, ?_⟩, Finset.mem_insert_self _ _, few⟩
  · have apart : iblock inum ≠ 1 := by
      unfold iblock ipb
      omega
    rw [stored]
    refine Vol.Laid.write ?_ apart
    exact laid.again
  · rw [stored]
    exact frees.held.trans idle
  · rw [stored]
    exact frees.up.trans up
  · rw [stored]
    exact frees.flag.trans flag
  · rw [mem]
    exact holds.rest
  · rw [mem]
    change update f.slot ip _ = fun jp => slotOf (update v.mem.icache ip (released inode) jp)
    funext jp
    by_cases self : jp = ip
    · rw [self, update_self, update_self]
      change (⟨{ (f.slot ip).toAttr with type := 0 }, 0, (f.slot ip).inum, 0, false, false⟩ : Slot) = _
      rw [holds.slot ip, ← here]
      rfl
    · rw [update_of_ne self, update_of_ne self, holds.slot jp]
  · rw [mem]
    have number : (released inode).inum = inum := by
      rw [here]
      exact hand.named
    refine holds.cache.store hand.used (number.trans hand.named.symm) (number.symm ▸ hand.below)
      (fun j below other => ?_) fun used => absurd used (Int.lt_irrefl 0)
    rw [number] at other
    rw [dinodeOf_update_other second.off other, disk, dinodeOf_update_other first.off other]
    exact (holds.intact.rebit layout same below).1
  · change update f.node (f.slot ip).inum _ inum = _
    rw [← named, update_self, loaded]
    change (⟨{ (f.slot ip).toAttr with type := 0 }, []⟩ : Node) = _
    rw [holds.slot ip, ← here]
    rfl
  · change update f.node (f.slot ip).inum _ j = _
    rw [← named, update_of_ne other, holds.nodes j below, disk, first.node_other below other]
    exact (holds.intact.rebit layout same below).2.1.symm
  · rw [stored]
    refine Finset.insert_subset ?_ (frees.logged.trans (Finset.union_subset logged ?_))
    · refine Finset.mem_union_left _ (Finset.mem_union_right _ ?_)
      exact Finset.mem_image_of_mem _ (Finset.mem_insert_self _ _)
    · exact Finset.subset_union_left.trans Finset.subset_union_left

/-- The inode is stored once its blocks have been freed. -/
theorem Frees.stored {u : Vol (InodeMem ν)} {ref : Nat × Nat → Nat} {k : Nat} {bytes : Bytes} {T : Finset Nat}
    (frees : Frees sb lim inum ref v₁ k v') (stored : u = (v'.setInode ip inode).write (iblock inum) bytes)
    (bitmap : sb.bitmap ⊆ T) (mine : iblock inum ∈ T) (room : lim.roomy → v₁.Room T) :
    u.Laid sb ∧ (lim.roomy → u.Room T) := by
  subst stored
  have apart : iblock inum ≠ 1 := by
    unfold iblock ipb
    omega
  refine ⟨Vol.Laid.write (v := v'.setInode ip inode) frees.laid.again apart, fun yes => ⟨?_, (room yes).cache, ?_⟩⟩
  · exact Finset.insert_subset mine (frees.logged.trans (Finset.union_subset (room yes).logged bitmap))
  · change _ ≤ v'.size
    rw [frees.size]
    exact (room yes).log

/-- `inode_put` of the last reference to an inode without links. -/
theorem wp_inodePut_last (safe : forbidden .logBlock = true) (holds : Holds limit sb v f)
    (hand : InHand sb v ip inum) (named : inum = (f.slot ip).inum) (last : (v.mem.icache ip).ref = 1)
    (unlinked : (v.mem.icache ip).nlink = 0) (free : (v.mem.icache ip).busy = false)
    (few : exceeds limit (f.charge inum 0).bill = false) :
    (volMachine forbidden).Wp (inodePut ip) v
      (fun _ v' => f.up = true ∧ f.inTrans = true ∧ Holds limit sb v' ((f.charge inum 0).free ip))
      (Fails (f.lims limit sb)) := by
  obtain ⟨targets, logged, -, bitmap, ⟨D, small, rfl⟩, room⟩ := holds.room_inode inum few
  have works := hand.works holds safe
  unfold inodePut
  refine .seq (wp_getInode ?_)
  rw [if_pos ⟨last, hand.valid, unlinked⟩, if_neg (by simp [free])]
  refine .seq (wp_setInode ?_)
  obtain ⟨inode, here⟩ : ∃ inode, inode = v.mem.icache ip := ⟨_, rfl⟩
  rw [← here] at last ⊢
  obtain ⟨v₁, marked⟩ : ∃ v₁, v₁ = v.setInode ip { inode with busy := true } := ⟨_, rfl⟩
  have entry : v₁.mem.icache ip = { inode with busy := true } := by
    rw [marked]
    exact update_self ..
  have addrs : inode.addrs = v.addrs sb ip inum inum := by
    rw [here, works.addrs]
  have works₁ : Works forbidden sb (f.lims limit sb) ip inum (v.addrs sb ip inum) v₁ :=
    marked ▸ works.setInode addrs
  have room₁ : (f.lims limit sb).roomy → v₁.Room (targetSet sb (insert inum f.touched) D) :=
    fun yes => marked ▸ (room yes).setInode ip _
  have data : v₁.data = v.data := by
    rw [marked]
    rfl
  have named₁ : (v₁.mem.icache ip).inum = inum := by
    rw [entry, here]
    exact hand.named
  rw [← marked]
  refine .seq (wp_inodeTrunc works₁ named₁ hand.below room₁ bitmap fun v' frees mem up busy => ?_)
  rw [truncated_eq entry addrs mem]
  obtain ⟨bytes, first⟩ : ∃ bytes, bytes =
    storeDinode (v'.data (iblock inum)) inum (emptied inode true).toDinode := ⟨_, rfl⟩
  rw [← first]
  obtain ⟨u, cleared⟩ : ∃ u, u = (v'.setInode ip (emptied inode true)).write (iblock inum) bytes := ⟨_, rfl⟩
  have entry' : u.mem.icache ip = emptied inode true := by
    rw [cleared]
    exact update_self ..
  have mine : iblock inum ∈ targetSet sb (insert inum f.touched) D :=
    Finset.mem_union_left _ (Finset.mem_union_right _ (Finset.mem_image_of_mem _ (Finset.mem_insert_self _ _)))
  obtain ⟨laid, room₂⟩ := frees.stored cleared bitmap mine room₁
  rw [← cleared]
  refine .seq (wp_getInode (.seq (wp_setInode ?_)))
  rw [entry']
  obtain ⟨e, final⟩ : ∃ e : Inode, e = { emptied inode true with type := 0 } := ⟨_, rfl⟩
  change (volMachine forbidden).Wp _ (u.setInode ip { emptied inode true with type := 0 }) _ _
  rw [← final]
  have self : (u.setInode ip e).mem.icache ip = e := setInode_self ..
  refine .seq (wp_inodeUpdate holds.layout laid.again ?_ ?_ hand.below (fun yes => (room₂ yes).setInode ip e)
    ?_ ?_ fun _ _ => ?_)
  · rw [cleared]
    exact frees.held.trans works₁.idle
  · rw [self, final, here]
    exact hand.named
  · rw [cleared]
    exact frees.up
  · rw [cleared]
    exact frees.flag
  rw [self]
  obtain ⟨w, written⟩ : ∃ w, w = (u.setInode ip e).write (iblock inum)
    (storeDinode (u.data (iblock inum)) inum e.toDinode) := ⟨_, rfl⟩
  have self' : w.mem.icache ip = e := by
    rw [written]
    exact self
  change (volMachine forbidden).Wp _ ((u.setInode ip e).write (iblock inum)
    (storeDinode (u.data (iblock inum)) inum e.toDinode)) _ _
  rw [← written]
  refine .seq (wp_getInode (.seq (wp_setInode ?_)))
  rw [self']
  refine .seq (wp_getInode (wp_setInode ⟨up, busy, ?_⟩))
  rw [setInode_self, setInode_setInode, written, setInode_write, setInode_setInode]
  have gone : ({ e with ref := e.ref - 1, busy := false, valid := false } : Inode) = released inode := by
    rw [final]
    change ({ released inode with ref := inode.ref - 1 } : Inode) = released inode
    rw [last]
    rfl
  change Holds limit sb ((u.setInode ip { e with ref := e.ref - 1, busy := false, valid := false }).write
    (iblock inum) _) _
  rw [gone, final, here]
  refine hand.given_back holds named data (data ▸ frees) works₁.idle rfl rfl busy few small
    (marked ▸ logged) ?_ ?_
  · rw [cleared, ← here]
    change ({ v'.mem with icache := update (update v'.mem.icache ip _) ip _ } : InodeMem ν) = _
    rw [update_idem, mem, marked]
    simp only [Vol.setAddrs, Vol.setInode, update_idem]
  · rw [cleared, first, here]
    rfl

theorem filesPut_matches (safe : forbidden .logBlock = true) (holds : Holds limit sb v f) (ip : Nat) :
    FilesMatch limit sb ((volMachine forbidden).run (inodePut ip) v) (filesPut limit f ip) := by
  unfold filesPut
  dsimp only
  have slot := holds.slot ip
  by_cases last : (f.slot ip).ref = 1 ∧ (f.slot ip).valid = true ∧ (f.slot ip).nlink = 0
  · rw [if_pos last]
    have last' : (v.mem.icache ip).ref = 1 ∧ (v.mem.icache ip).valid = true ∧ (v.mem.icache ip).nlink = 0 := by
      rw [slot] at last
      exact last
    split
    · next busy =>
      rw [slot] at busy
      refine matches_stop (.seq (wp_getInode ?_))
      rw [if_pos last', if_pos (by exact busy)]
      exact .seq (Machine.Wp.stop (Or.inl rfl))
    · next free =>
      rw [slot] at free
      have hand : InHand sb v ip (f.slot ip).inum := holds.inHand ⟨by omega, last.2.1⟩
      refine matches_logging fun few => ?_
      refine Outcome.Sat.mono (wp_inodePut_last safe holds hand rfl last'.1 last'.2.2
        (Bool.eq_false_iff.mpr free) few) ?_ fun _ _ fails => Or.inl fails
      rintro _ v' ⟨up, busy, after⟩
      exact ⟨up, busy, _, rfl, after⟩
  · rw [if_neg last]
    have last' : ¬ ((v.mem.icache ip).ref = 1 ∧ (v.mem.icache ip).valid = true ∧
        (v.mem.icache ip).nlink = 0) := by
      rw [slot] at last
      exact last
    refine matches_ok (.seq (wp_getInode ?_))
    rw [if_neg last', slot]
    refine .seq (wp_getInode (wp_setInode ⟨rfl, holds.setInode ?_⟩))
    have live : 0 < (v.mem.icache ip).ref - 1 → 0 < (v.mem.icache ip).ref := by omega
    refine holds.cache.touch live rfl (fun used valid => holds.cache.live ip (live used) valid)
      fun used valid => ?_
    exact { holds.cache.copies ip (live used) valid with }

/-! ## Allocating -/

theorem freeNode_succ (node : Nat → Node) (count inum : Nat) :
    freeNode node (count + 1) inum =
      if (node inum).type = 0 then some inum else freeNode node count (inum + 1) := by
  unfold freeNode
  rw [List.range'_succ, List.find?_cons]
  by_cases free : (node inum).type = 0 <;> simp [free]

section
variable (holds : Holds limit sb v f)
include holds

/-- An inode is made on a volume. -/
theorem Holds.fresh (below : inum < sb.ninodes) (free : (f.node inum).type = 0) (some : type ≠ 0)
    (small : type < 65536) (busy : f.inTrans = true)
    (few : exceeds limit (f.charge inum 0).bill = false) :
    Holds limit sb (v.write (iblock inum) (freshDinode (v.data (iblock inum)) inum type))
      ((f.charge inum 0).setNode inum ⟨⟨type, 0, 0, 0⟩, []⟩) := by
  have none : (dinodeOf v.data inum).type = 0 := by
    rw [holds.nodes inum below] at free
    exact free
  have loaded : loadDinode (freshDinode (v.data (iblock inum)) inum type) inum = _ :=
    loadDinode_freshDinode small
  obtain ⟨D, count, logged⟩ := holds.logged
  have storing : Storing sb v.data (addrsOf sb v.data) inum (freshDinode (v.data (iblock inum)) inum type) := by
    refine holds.intact.storing holds.layout below (fun i off => freshDinode_off off) (fun i _ => ?_) ?_ ?_
    · rw [addrsOf_free fun used => used.2 none]
    · rw [loaded]
      exact fun _ => rfl
    · rw [loaded]
      exact fun _ _ _ => rfl
  refine Saved.holds ⟨storing, holds.laid, holds.idle, holds.up, holds.flag, busy, holds.rest, holds.slots, ?_, ?_,
    fun j inside other => ?_, ⟨D, count, ?_⟩, Finset.mem_insert_self _ _, few⟩
  · refine holds.cache.disk fun jp used valid => ?_
    refine dinodeOf_update_other storing.off fun same => ?_
    have alive := (holds.cache.copies jp used valid).alive
    rw [same] at alive
    exact alive none
  · change update f.node inum _ inum = _
    rw [update_self, loaded]
    simp only [if_neg some]
    rfl
  · change update f.node inum _ j = _
    rw [update_of_ne other]
    exact holds.nodes j inside
  · exact logged.trans (targetSet_mono (Finset.subset_insert _ _) (Finset.Subset.refl _))

theorem allocFound_matches (below : inum < sb.ninodes) (free : (f.node inum).type = 0)
    (some : type ≠ 0) (small : type < 65536) (count : Nat) :
    FilesMatch limit sb ((volMachine forbidden).run (inodeAllocFrom type (count + 1) inum) v)
      (logging limit f inum 0 fun g => filesGet (g.setNode inum ⟨⟨type, 0, 0, 0⟩, []⟩) inum) := by
  have none : (loadDinode (v.data (iblock inum)) inum).type = 0 := by
    rw [holds.nodes inum below] at free
    exact free
  have unheld : iblock inum ∉ v.held := v.unheld holds.idle _
  have low := iblock_low holds.layout below
  have fits := holds.layout.fits
  have word := holds.layout.word
  have ends := holds.layout.dataEnd_le
  have apart : iblock inum ≠ 1 := by
    unfold iblock ipb
    omega
  refine matches_logging fun few => ?_
  obtain ⟨targets, -, -, -, -, room⟩ := holds.room_inode inum few
  refine .seq (.weaken (wp_bread (holds.home below) unheld (v.few_held holds.idle 2) room ?_)
    fun _ _ fails => Or.inl fails)
  rw [if_pos none]
  refine .seq (.weaken (E := Fails (f.lims limit sb)) (wp_logStore (Finset.mem_insert_self _ _) apart (by omega)
    (v.few_hold holds.idle 1)    (fun yes => (room yes).hold) holds.up holds.flag fun up busy => ?_) fun _ _ fails => Or.inl fails)
  rw [write_hold]
  refine .seq (wp_brelse_hold unheld ?_)
  refine Outcome.Sat.mono (wp_inodeGet (holds.fresh below free some small busy few) inum) ?_ ?_
  · rintro ip v' ⟨g, result, -, after⟩
    exact ⟨up, busy, g, result, after⟩
  · rintro w v' ⟨g, result⟩
    exact Or.inr ⟨up, busy, g, result⟩

theorem inodeAllocFrom_matches (some : type ≠ 0) (small : type < 65536) {count : Nat}
    (ends : inum + count ≤ sb.ninodes) :
    FilesMatch limit sb ((volMachine forbidden).run (inodeAllocFrom type count inum) v)
      (allocNode limit f type (freeNode f.node count inum)) := by
  induction count generalizing inum with
  | zero => exact Or.inl ⟨rfl, trivial⟩
  | succ count ih =>
    rw [freeNode_succ]
    by_cases free : (f.node inum).type = 0
    · rw [if_pos free]
      exact allocFound_matches holds (by omega) free some small count
    · rw [if_neg free]
      have used : (loadDinode (v.data (iblock inum)) inum).type ≠ 0 := by
        rw [holds.nodes inum (by omega)] at free
        exact free
      obtain ⟨targets, room⟩ := holds.room
      have unheld : iblock inum ∉ v.held := v.unheld holds.idle _
      have next := ih (show inum + 1 + count ≤ sb.ninodes by omega)
      unfold inodeAllocFrom
      refine matches_of_wp (.seq (.weaken (E := Fails (reading limit sb)) (wp_bread (holds.home (by omega))
        unheld (v.few_held holds.idle 2) room ?_) fun _ _ fails => ?_))
      · rw [if_neg used]
        refine .seq (wp_brelse_hold unheld ?_)
        exact wp_of_matches next
      · exact (fails.own rfl rfl rfl).stops _ _

theorem filesAlloc_matches (type : Nat) :
    FilesMatch limit sb ((volMachine forbidden).run (inodeAlloc type) v)
      (filesAlloc limit sb.ninodes f type) := by
  unfold filesAlloc
  split
  · exact .excused _ (by rfl) _
  next good =>
  simp only [not_or, Nat.not_le] at good
  obtain ⟨targets, room⟩ := holds.room
  have low := holds.layout.fits
  have found : FilesMatch limit sb ((volMachine forbidden).run (inodeAllocFrom type (sb.ninodes - 1) 1) v)
      (allocNode limit f type (freeNode f.node (sb.ninodes - 1) 1)) := by
    by_cases none : sb.ninodes = 0
    · rw [none]
      exact Or.inl ⟨rfl, trivial⟩
    · exact inodeAllocFrom_matches holds good.1 good.2 (by omega)
  refine matches_of_wp (.seq (.weaken (E := Fails (reading limit sb)) (wp_superblock holds.layout holds.laid
    (v.unheld holds.idle 1) (v.few_held holds.idle 2) room ?_)
    fun _ _ fails => ?_))
  · exact wp_of_matches found
  · exact (fails.own rfl rfl rfl).stops _ _

/-! ## Fields, memory and transactions -/

theorem filesLook_matches (ip : Nat) :
    QuietMatch limit sb v ((volMachine forbidden).run (inodeImpl (.look ip)) v)
      (.ok (f.slot ip).view f : Outcome Stop (Files ν) InodeView) := by
  refine matches_ok (.seq (wp_getInode (.ret ⟨?_, rfl, holds⟩)))
  rw [holds.slot ip]
  rfl

/-- The code sets fields of an entry that `iupdate` will store. -/
theorem Holds.setFields (size : inode.size = (v.mem.icache ip).size)
    (addrs : inode.addrs = (v.mem.icache ip).addrs) (type : inode.type = (v.mem.icache ip).type)
    (same : inode.inum = (v.mem.icache ip).inum) (ref : inode.ref = (v.mem.icache ip).ref)
    (valid : inode.valid = (v.mem.icache ip).valid)
    (small : 0 < (v.mem.icache ip).ref → (v.mem.icache ip).valid = true →
      inode.major < 65536 ∧ inode.minor < 65536 ∧ inode.nlink < 65536) :
    Holds limit sb (v.setInode ip inode) (f.setSlot ip (slotOf inode)) := by
  refine holds.setInode (holds.cache.touch ?_ same ?_ ?_)
  · rw [ref]
    exact fun used => used
  · rw [ref, valid, same]
    exact holds.cache.live ip
  · rw [ref, valid, same]
    intro used loaded
    have copies := holds.cache.copies ip used loaded
    obtain ⟨major, minor, nlink⟩ := small used loaded
    exact ⟨type.trans copies.type, copies.alive, major, minor, nlink, size.trans copies.size,
      fun i le => addrs ▸ copies.addrs i le⟩

theorem filesSetNlink_matches (ip nlink : Nat) :
    QuietMatch limit sb v ((volMachine forbidden).run (inodeImpl (.setNlink ip nlink)) v)
      (if 65536 ≤ nlink then .stop .beyond f
        else .ok () (f.setSlot ip { f.slot ip with nlink := nlink }) : Outcome Stop (Files ν) Unit) := by
  split
  · exact .excused _ (by rfl) _
  next small =>
  refine matches_ok (.seq (wp_getInode (wp_setInode ⟨rfl, rfl, ?_⟩)))
  rw [holds.slot ip]
  refine holds.setFields rfl rfl rfl rfl rfl rfl fun used valid => ?_
  have copies := holds.cache.copies ip used valid
  exact ⟨copies.major, copies.minor, Nat.not_le.mp small⟩

theorem filesSetDev_matches (ip major minor : Nat) :
    QuietMatch limit sb v ((volMachine forbidden).run (inodeImpl (.setDev ip major minor)) v)
      (if 65536 ≤ major ∨ 65536 ≤ minor then .stop .beyond f
        else .ok () (f.setSlot ip { f.slot ip with major := major, minor := minor }) :
          Outcome Stop (Files ν) Unit) := by
  split
  · exact .excused _ (by rfl) _
  next small =>
  simp only [not_or, Nat.not_le] at small
  refine matches_ok (.seq (wp_getInode (wp_setInode ⟨rfl, rfl, ?_⟩)))
  rw [holds.slot ip]
  refine holds.setFields rfl rfl rfl rfl rfl rfl fun used valid => ?_
  exact ⟨small.1, small.2, (holds.cache.copies ip used valid).nlink⟩

end

/-- A call of the inode layer that is one call of the log. -/
theorem single_matches (op : (LogSig (InodeMem ν)).Op)
    {o : Outcome Stop (Files ν) ((LogSig (InodeMem ν)).Res op)}
    (matched : QuietMatch limit sb v (volMachine forbidden op v) o) :
    QuietMatch limit sb v ((volMachine forbidden).run (Prog.op op) v) o := by
  rwa [Machine.run_op]

section
variable (holds : Holds limit sb v f)
include holds

theorem filesBegin_matches :
    QuietMatch limit sb v (volBegin v)
      (if f.inTrans then .stop .sleep f else .ok () { f with inTrans := true }) := by
  unfold volBegin
  rw [holds.flag]
  split
  · exact Or.inl ⟨rfl, trivial⟩
  · exact ⟨rfl, rfl, { holds with
      laid := holds.laid.again, flag := rfl, calm := nofun }⟩

theorem filesCommit_matches :
    QuietMatch limit sb v (volCommit v) (.ok () { f with inTrans := false, touched := ∅, spent := 0 }) := by
  unfold volCommit
  rw [if_neg (not_not.mpr holds.idle)]
  split
  · next full =>
    have small : ¬ Bounded limit sb := by
      intro bounded
      obtain ⟨targets, room⟩ := holds.room
      have := (room bounded).few
      omega
    exact ⟨⟨nofun, nofun, nofun, fun bounded => absurd bounded small, fun bounded => absurd bounded small⟩, small⟩
  · refine ⟨rfl, rfl, { holds with
      laid := holds.laid.again, flag := rfl, calm := fun _ => rfl,
      logged := ⟨∅, Nat.zero_le _, Finset.empty_subset _⟩, budget := exceeds_mono holds.budget ?_ }⟩
    simp only [Files.bill, Finset.card_empty]
    omega

theorem filesInit_matches :
    QuietMatch limit sb v (volInit v) (if f.inTrans then .stop .beyond f else .ok () { f with up := true }) := by
  split
  · exact .excused _ (by rfl) _
  next calm =>
  have idle : v.inTrans = false := by
    rw [holds.flag]
    exact Bool.eq_false_iff.mpr calm
  unfold volInit
  rw [if_neg (by simp [holds.idle, holds.calm idle])]
  exact ⟨rfl, rfl, { holds with
    laid := holds.laid.again, up := rfl }⟩

theorem filesMark_matches (mark : Mark) (hit : Bool) :
    QuietMatch limit sb v (if hit && forbidden mark then .stop (.marked mark) v else .ok () v)
      (if hit && forbidden mark then .stop (.marked mark) f else .ok () f) := by
  split
  · exact Or.inl ⟨rfl, trivial⟩
  · exact ⟨rfl, rfl, holds⟩

end

/-! ## The refinement -/

/-- The call neither allocates nor frees blocks, if files have no holes. -/
def InodeOp.keepsBlocks {ν : Type} : InodeOp ν → Bool
  | .put _ => false
  | .write _ _ _ => false
  | _ => true

/-- The call stores nothing in blocks. -/
def InodeOp.storesNone {ν : Type} : InodeOp ν → Bool
  | .put _ => false
  | .write _ _ _ => false
  | .alloc _ => false
  | .update _ => false
  | _ => true

theorem files_quiet (op : (InodeSig ν).Op) (none : InodeOp.storesNone op = true) (holds : Holds limit sb v f) :
    QuietMatch limit sb v ((volMachine forbidden).through (inodeImpl (ν := ν)) op v)
      (filesMachine limit sb.ninodes forbidden op f) := by
  cases op with
  | put ip => cases none
  | write ip off src => cases none
  | alloc type => cases none
  | update ip => cases none
  | get inum => exact filesGet_matches holds inum
  | dup ip => exact filesDup_matches holds ip
  | lock ip => exact filesLock_matches holds ip
  | unlock ip => exact filesUnlock_matches holds ip
  | read ip off n => exact filesRead_matches holds ip off n
  | look ip => exact filesLook_matches holds ip
  | setNlink ip nlink => exact filesSetNlink_matches holds ip nlink
  | setDev ip major minor => exact filesSetDev_matches holds ip major minor
  | beginTrans => exact single_matches .beginTrans (filesBegin_matches holds)
  | commitTrans => exact single_matches .commitTrans (filesCommit_matches holds)
  | logInit => exact single_matches .logInit (filesInit_matches holds)
  | getMem => exact matches_ok (.seq (wp_getMem (.ret ⟨holds.rest, rfl, holds⟩)))
  | setMem mem =>
    refine matches_ok (.seq (wp_getMem (wp_setMem ⟨rfl, rfl, ?_⟩)))
    exact { holds with
      laid := holds.laid.again, rest := rfl }
  | mark mark hit => exact single_matches (.mark mark hit) (filesMark_matches holds mark hit)

/-- A call of the inode layer on a volume does what the call on files does, if it allocates no
block or no block of the log is handed out. -/
theorem files_match (op : (InodeSig ν).Op)
    (safe : InodeOp.keepsBlocks op = true ∨ forbidden .logBlock = true) (holds : Holds limit sb v f) :
    FilesMatch limit sb ((volMachine forbidden).through (inodeImpl (ν := ν)) op v)
      (filesMachine limit sb.ninodes forbidden op f) := by
  cases op with
  | put ip => exact filesPut_matches (safe.resolve_left nofun) holds ip
  | write ip off src => exact filesWrite_matches (safe.resolve_left nofun) holds ip off src
  | alloc type => exact filesAlloc_matches holds type
  | update ip => exact filesUpdate_matches holds ip
  | _ => exact quiet_matches (files_quiet _ rfl holds)

/-- The inode layer on a volume implements files. -/
theorem files_refine (safe : forbidden .logBlock = true) :
    ((volMachine forbidden).through (inodeImpl (ν := ν))).Refines (filesMachine limit sb.ninodes forbidden)
      (Holds limit sb) (fun _ _ => True) (Own limit sb) (· = .beyond) :=
  fun op _ _ holds => files_match op (Or.inr safe) holds

/-- Without the calls that allocate or free blocks, it does so whatever blocks are handed out. -/
theorem files_refine_only :
    ((volMachine forbidden).through (inodeImpl (ν := ν))).Refines
      ((filesMachine limit sb.ninodes forbidden).only InodeOp.keepsBlocks .beyond)
      (Holds limit sb) (fun _ _ => True) (Own limit sb) (· = .beyond) :=
  .only rfl fun op _ _ calm holds => files_match op (Or.inl calm) holds

end Relation

end OsAudio.Fs

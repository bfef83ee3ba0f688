import OsAudio.Fs.FilesRefine

/-!
# The inode layer implements files: calls that log

Updating an inode, writing, giving back an inode and allocating one.  Each ends by storing one
inode in its block; `Saved` says what has to be known before that, and `files_refine` puts the
calls together.
-/
namespace OsAudio.Fs
open OsAudio.Lib
open Function (update update_idem update_self update_of_ne update_eq_self)

section Relation
variable {ν : Type} {limit : Option Nat} {forbidden : Mark → Bool} {sb : Superblock}
  {v : Vol (InodeMem ν)} {f : Files ν} {ip inum : Nat}

/-! ## Storing an inode -/

/-- The disk changes for the inode of one entry, and the entry becomes a copy of it again. -/
theorem Cache.store {ninodes : Nat} {data data' : Nat → Bytes} {icache : Nat → Inode} {inode : Inode}
    (cache : Cache ninodes data icache) (used : 0 < (icache ip).ref)
    (named : inode.inum = (icache ip).inum) (below : inode.inum < ninodes)
    (others : ∀ j, j < ninodes → j ≠ inode.inum → dinodeOf data' j = dinodeOf data j)
    (copies : 0 < inode.ref → inode.valid = true → Copies inode (dinodeOf data' inode.inum)) :
    Cache ninodes data' (update icache ip inode) := by
  -- In between, the entry is not valid, so that no entry is a copy of the inode that changes.
  have stale : Cache ninodes data (update icache ip { icache ip with valid := false }) :=
    cache.touch (fun _ => used) rfl nofun nofun
  have moved : Cache ninodes data' (update icache ip { icache ip with valid := false }) := by
    refine stale.disk fun jp live valid => ?_
    by_cases here : jp = ip
    · subst here
      rw [update_self] at valid
      cases valid
    · rw [update_of_ne here] at live valid ⊢
      refine others _ (cache.live jp live valid) fun same => here ?_
      exact cache.unique jp ip live used (same.trans named)
  have again : Cache ninodes data' (update
      (update icache ip { icache ip with valid := false }) ip inode) := by
    refine moved.touch (fun _ => ?_) ?_ (fun _ _ => below) copies
    · rw [update_self]
      exact used
    · rw [update_self]
      exact named
  rwa [update_idem] at again

/-- One inode is to be stored, on a volume `w` that holds the other files of `f'`. -/
structure Saved (limit : Option Nat) (sb : Superblock) (w : Vol (InodeMem ν)) (f' : Files ν)
    (A : Nat → Nat → Nat) (inum : Nat) (bytes : Bytes) : Prop where
  storing : Storing sb w.data A inum bytes
  laid : w.Laid sb
  idle : w.held = ∅
  up : w.up = f'.up
  flag : w.inTrans = f'.inTrans
  busy : f'.inTrans = true
  rest : w.mem.rest = f'.mem
  slots : f'.slot = fun ip => slotOf (w.mem.icache ip)
  cache : Cache sb.ninodes (update w.data (iblock inum) bytes) w.mem.icache
  node : f'.node inum =
    let d := loadDinode bytes inum
    ⟨⟨d.type, d.major, d.minor, d.nlink⟩, if d.type = 0 then [] else contentOf w.data (A inum) d.size⟩
  others : ∀ j < sb.ninodes, j ≠ inum → f'.node j = nodeOf w.data j
  logged : ∃ D : Finset Nat, D.card ≤ f'.spent ∧ w.logged ⊆ targetSet sb f'.touched D
  touched : inum ∈ f'.touched
  budget : exceeds limit f'.bill = false

theorem Saved.holds {w : Vol (InodeMem ν)} {f' : Files ν} {A : Nat → Nat → Nat} {bytes : Bytes}
    (saved : Saved limit sb w f' A inum bytes) :
    Holds limit sb (w.write (iblock inum) bytes) f' := by
  have storing := saved.storing
  refine ⟨storing.layout, saved.laid.write ?_, saved.idle, saved.up, saved.flag, saved.rest,
    saved.slots, saved.cache, storing.intact, fun j below => ?_, fun idle => ?_, ?_, saved.budget⟩
  · unfold iblock ipb
    omega
  · by_cases here : j = inum
    · subst here
      exact saved.node.trans storing.node_self.symm
    · exact (saved.others j below here).trans (storing.node_other below here).symm
  · exact absurd ((saved.flag.symm.trans idle).symm.trans saved.busy) nofun
  · obtain ⟨D, small, logged⟩ := saved.logged
    refine ⟨D, small, Finset.insert_subset ?_ logged⟩
    exact Finset.mem_union_left _ (Finset.mem_union_right _ (Finset.mem_image_of_mem _ saved.touched))

theorem InHand.small (hand : InHand sb v ip inum) : (v.mem.icache ip).toDinode.Small := by
  have small := loadDinode_small (v.data (iblock inum)) inum
  have copies := hand.copies
  refine ⟨copies.type ▸ small.type, copies.major, copies.minor, copies.nlink, copies.size ▸ small.size,
    fun i le => ?_⟩
  rw [copies.addrs i le]
  exact small.addrs i le

theorem InHand.alive (hand : InHand sb v ip inum) : (v.mem.icache ip).type ≠ 0 := by
  rw [hand.copies.type]
  exact hand.copies.alive

/-- An entry is a copy of the inode that was stored from it. -/
theorem Copies.stored {inode : Inode} {bytes : Bytes} (small : inode.toDinode.Small)
    (alive : inode.type ≠ 0) :
    Copies inode (loadDinode (storeDinode bytes inum inode.toDinode) inum) := by
  rw [loadDinode_storeDinode small]
  exact ⟨rfl, alive, small.major, small.minor, small.nlink, rfl,
    fun i le => (if_pos (Nat.lt_succ_of_le le)).symm⟩

/-- The entry `ip` of the cache is stored as it is. -/
theorem InHand.storing (hand : InHand sb v ip inum) (holds : Holds limit sb v f) :
    Storing sb v.data (v.addrs sb ip inum) inum
      (storeDinode (v.data (iblock inum)) inum (v.mem.icache ip).toDinode) := by
  have loaded : loadDinode (storeDinode (v.data (iblock inum)) inum _) inum = _ :=
    loadDinode_storeDinode hand.small
  refine ⟨holds.layout, hand.below, (hand.stands holds).storage, fun j other => ?_,
    fun i off => storeDinode_off off, fun i le => ?_, fun j below _ used => holds.intact.filled j below used,
    fun _ => ?_⟩
  · exact update_of_ne other ..
  · have alive : (v.mem.icache ip).toDinode.trim.type ≠ 0 := hand.alive
    rw [loaded, if_neg alive, Vol.addrs, update_self]
    exact (if_pos (Nat.lt_succ_of_le le)).symm
  · rw [loaded]
    exact hand.filled holds

theorem filesUpdate_matches (holds : Holds limit sb v f) (ip : Nat) :
    FilesMatch limit sb ((volMachine forbidden).run (inodeUpdate ip) v) (filesUpdate limit f ip) := by
  unfold filesUpdate
  dsimp only
  split
  · exact .excused _ (by rfl) _
  next good =>
  have hand := holds.inHand (not_not.mp good)
  obtain ⟨inum, named⟩ : ∃ inum, inum = (f.slot ip).inum := ⟨_, rfl⟩
  rw [← named] at hand ⊢
  refine matches_logging fun few => ?_
  obtain ⟨targets, logged, -, -, ⟨D, small, rfl⟩, room⟩ := holds.room_inode inum few
  refine Machine.Wp.weaken (wp_inodeUpdate holds.layout holds.laid holds.idle hand.named hand.below
    room holds.up holds.flag fun up busy => ⟨up, busy, _, rfl, ?_⟩) fun _ _ fails => Or.inl fails
  have loaded : loadDinode (storeDinode (v.data (iblock inum)) inum _) inum = _ :=
    loadDinode_storeDinode hand.small
  have storing := hand.storing holds
  refine Saved.holds ⟨storing, holds.laid, holds.idle, holds.up, holds.flag, busy, holds.rest, holds.slots,
    ?_, ?_, ?_, ⟨D, small, logged⟩, Finset.mem_insert_self _ _, few⟩
  · have stored : Cache sb.ninodes (update v.data (iblock inum) (storeDinode
        (v.data (iblock inum)) inum (v.mem.icache ip).toDinode))
        (update v.mem.icache ip (v.mem.icache ip)) := by
      refine holds.cache.store hand.used rfl (hand.named.symm ▸ hand.below) (fun j _ other => ?_) fun _ _ => ?_
      · rw [hand.named] at other
        exact dinodeOf_update_other storing.off other
      · rw [hand.named, dinodeOf_update_self]
        exact Copies.stored hand.small hand.alive
    rwa [update_eq_self] at stored
  · change update f.node inum _ inum = _
    rw [update_self, loaded, holds.slot ip]
    have alive : ¬ (v.mem.icache ip).type = 0 := hand.alive
    simp only [Dinode.trim, slotOf]
    congr 1
    exact (hand.node holds).trans (if_neg alive).symm
  · intro j below other
    change update f.node inum _ j = _
    rw [update_of_ne other]
    exact holds.nodes j below

/-! ## Writing -/

theorem length_splice {data src : List Byte} {off : Nat} (le : off ≤ data.length) :
    (splice data off src).length = max data.length (off + src.length) := by
  simp only [splice, List.length_append, List.length_take, List.length_drop]
  omega

theorem getElem?_splice {data src : List Byte} {off : Nat} (le : off ≤ data.length) (k : Nat) :
    (splice data off src)[k]? =
      if off ≤ k ∧ k < off + src.length then src[k - off]? else data[k]? := by
  have front : (data.take off).length = off := by rw [List.length_take, Nat.min_eq_left le]
  unfold splice
  by_cases before : k < off
  · rw [List.append_assoc, List.getElem?_append_left (by omega), List.getElem?_take, if_pos before,
      if_neg (by omega)]
  · rw [List.append_assoc, List.getElem?_append_right (by omega), front]
    by_cases inside : k < off + src.length
    · rw [List.getElem?_append_left (by omega), if_pos (by omega)]
    · rw [List.getElem?_append_right (by omega), List.getElem?_drop, if_neg (by omega)]
      congr 1
      omega

section Wrote
variable {lim : Limits} {A A' : Nat → Nat → Nat} {v' : Vol (InodeMem ν)} {off size : Nat} {src : List Byte}

theorem Wrote.content (wrote : Wrote forbidden sb lim ip inum A v off src A' v')
    (covers : Covers v.data (A inum) size) (le : off ≤ size)
    (bound : max size (off + src.length) ≤ maxFile * bSize) :
    contentOf v'.data (A' inum) (max size (off + src.length)) =
      splice (contentOf v.data (A inum) size) off src := by
  refine List.ext_getElem? fun k => ?_
  rw [getElem?_splice (by rwa [length_contentOf])]
  unfold contentOf
  rw [List.getElem?_map, List.getElem?_map]
  by_cases here : off ≤ k ∧ k < off + src.length
  · rw [if_pos here, List.getElem?_range (by omega), Option.map_some,
      wrote.bytes k (by omega) (Or.inr here), if_pos here, List.getElem?_eq_getElem (by omega),
      List.getD_eq_getElem?_getD, List.getElem?_eq_getElem (by omega)]
    rfl
  · rw [if_neg here]
    by_cases below : k < size
    · have some := covers (k / bSize) (Nat.lt_of_le_of_lt (Nat.div_mul_le_self k bSize) below)
      rw [List.getElem?_range (by omega), List.getElem?_range below, Option.map_some, Option.map_some,
        wrote.bytes k (by omega) (Or.inl some), if_neg here]
    · rw [List.getElem?_eq_none (by rw [List.length_range]; omega),
        List.getElem?_eq_none (by rw [List.length_range]; omega)]
      rfl

theorem Wrote.filled (wrote : Wrote forbidden sb lim ip inum A v off src A' v')
    (filled : Filled v.data (A inum) size) (le : off ≤ size)
    (bound : max size (off + src.length) ≤ maxFile * bSize) :
    Filled v'.data (A' inum) (max size (off + src.length)) := by
  refine ⟨bound, fun i below => ?_, fun i inside beyond => ?_⟩
  · by_cases old : i * bSize < size
    · rw [wrote.grows.keeps i (filled.covers i old)]
      exact filled.covers i old
    · have some := wrote.covers (i * bSize) (by omega) (by omega)
      rwa [Nat.mul_div_cancel i (by decide)] at some
  · rw [wrote.rest i inside fun k low high same => ?_]
    · exact filled.tight i inside (by omega)
    · have := Nat.div_mul_le_self k bSize
      rw [same] at this
      omega

end Wrote

theorem Storage.addr_lt {data : Nat → Bytes} {A : Nat → Nat → Nat} (storage : Storage sb data A)
    (layout : Layout sb) (j : Nat) {i : Nat} (le : i ≤ nDirect) : A j i < 4294967296 := by
  have place : blockNo data (A j) (addrPlace i) = A j i := blockNo_addrPlace le
  have := layout.word
  have := layout.dataEnd_le
  by_cases none : A j i = 0
  · omega
  · have range := storage.range (place.symm ▸ none)
    omega

/-- Where a write may log. -/
theorem Holds.within (holds : Holds limit sb v f) {off n : Nat} {far : Bool}
    (reaches : far = decide (nDirect * bSize < off + n))
    (few : exceeds limit (f.charge inum (writeCost off n)).bill = false) (a : Nat → Nat) :
    ∃ D : Finset Nat, D.card ≤ f.spent ∧
      Within sb (targetSet sb (insert inum f.touched) D) far a ∅ v ∧
      Fits (f.lims limit sb) v.size
        ((targetSet sb (insert inum f.touched) D).card + far.toNat + ((∅ : Finset Nat).card + span off n)) := by
  obtain ⟨D, small, logged⟩ := holds.logged
  have more : v.logged ⊆ targetSet sb (insert inum f.touched) D :=
    Finset.Subset.trans logged (targetSet_mono (Finset.subset_insert _ _) (Finset.Subset.refl _))
  refine ⟨D, small, ⟨Finset.Subset.trans Finset.subset_union_left Finset.subset_union_left, ?_⟩, fun bounded => ?_⟩
  · exact Finset.Subset.trans more (Finset.Subset.trans Finset.subset_union_left Finset.subset_union_left)
  · have card := card_targetSet bounded (insert inum f.touched) D
    have cost : writeCost off n = span off n + far.toNat := by
      rw [writeCost, reaches]
      by_cases far : nDirect * bSize < off + n <;> simp [far]
    have size := holds.laid.size
    have log := bounded.log
    have few := bounded.within few
    simp only [Files.bill, Files.charge, opLimit] at few
    rw [Finset.card_empty, size, log]
    unfold nBuf logSize
    omega

/-- What a transaction has logged after a write. -/
theorem Within.logged_write {D R : Finset Nat} {far : Bool} {a : Nat → Nat} {off n : Nat}
    {v' : Vol (InodeMem ν)} (within : Within sb (targetSet sb (insert inum f.touched) D) far a R v')
    (reaches : far = decide (nDirect * bSize < off + n)) (small : D.card ≤ f.spent) (few : R.card ≤ span off n) :
    ∃ D' : Finset Nat, D'.card ≤ (f.charge inum (writeCost off n)).spent ∧
      v'.logged ⊆ targetSet sb (f.charge inum (writeCost off n)).touched D' := by
  refine ⟨D ∪ indSet far a ∪ R, ?_, ?_⟩
  · have first := Finset.card_union_le D (indSet far a)
    have second := Finset.card_union_le (D ∪ indSet far a) R
    have indirect := card_indSet far a
    have cost : writeCost off n = span off n + far.toNat := by
      rw [writeCost, reaches]
      by_cases far : nDirect * bSize < off + n <;> simp [far]
    simp only [Files.charge]
    omega
  · intro t member
    have inside := within.logged member
    simp only [targetSet, Files.charge, Finset.mem_union] at inside ⊢
    tauto

variable {A A' : Nat → Nat → Nat} {v' : Vol (InodeMem ν)} {off : Nat} {src : List Byte}

/-- A write inside the content. -/
theorem Holds.overwritten (holds : Holds limit sb v f) (hand : InHand sb v ip inum)
    (wrote : Wrote forbidden sb (f.lims limit sb) ip inum (v.addrs sb ip inum) v off src A' v')
    (inside : off + src.length ≤ (v.mem.icache ip).size) (some : src ≠ []) {cost : Nat}
    (few : exceeds limit (f.charge inum cost).bill = false)
    (logged : ∃ D' : Finset Nat, D'.card ≤ (f.charge inum cost).spent ∧
      v'.logged ⊆ targetSet sb (f.charge inum cost).touched D') :
    Holds limit sb v' ((f.charge inum cost).setNode inum
      { f.node inum with data := splice (f.node inum).data off src }) := by
  have filled := hand.filled holds
  have layout := holds.layout
  have grows := wrote.grows
  obtain rfl : A' = v.addrs sb ip inum := by
    refine wrote.same fun k low high => filled.covers (k / bSize) ?_
    exact Nat.lt_of_le_of_lt (Nat.div_mul_le_self k bSize) (by omega)
  have mem : v'.mem = v.mem := by
    rw [wrote.mem, Vol.addrs, update_self, setAddrs_same]
  have dinodes : ∀ j, j < sb.ninodes → dinodeOf v'.data j = dinodeOf v.data j :=
    fun j below => grows.dinode layout below
  have max : max (v.mem.icache ip).size (off + src.length) = (v.mem.icache ip).size := by omega
  have content := wrote.content filled.covers (by omega) (by rw [max]; exact filled.small)
  have still := wrote.filled filled (by omega) (by rw [max]; exact filled.small)
  rw [max] at content still
  have addrs : ∀ i, i ≤ nDirect → (dinodeOf v.data inum).addrs i = v.addrs sb ip inum inum i := by
    intro i le
    rw [hand.addrs_self i le, Intact.addrsOf_eq hand.below hand.copies.alive]
  refine ⟨layout, wrote.works.laid, wrote.works.idle, wrote.works.up, wrote.works.flag, ?_, ?_, ?_, ?_, ?_, ?_,
    logged, few⟩
  · rw [mem]
    exact holds.rest
  · rw [mem]
    exact holds.slots
  · rw [mem]
    exact holds.cache.disk fun jp used valid => dinodes _ (holds.cache.live jp used valid)
  · refine ⟨⟨grows.storage.low, ?_⟩, fun j below used => ?_⟩
    · refine grows.storage.owned.congr (fun _ _ => Iff.rfl) ?_
      rintro ⟨j, i⟩
      simp only [places, grows.addrsOf layout]
      by_cases here : j = inum
      · subst here
        exact blockNo_ext (fun k le => (hand.addrs_self k le).symm) i
      · rw [Vol.addrs, update_of_ne here]
    · by_cases here : j = inum
      · subst here
        rw [dinodes j below, ← hand.copies.size]
        exact still.ext addrs
      · exact (grows.rest layout below here (update_of_ne here ..) holds.intact).2 used
  · intro j below
    by_cases here : j = inum
    · subst here
      change update f.node j _ j = _
      rw [update_self, hand.node holds, ← content]
      unfold nodeOf
      rw [dinodes j below]
      simp only [if_neg hand.copies.alive, ← hand.copies.size, contentOf_ext addrs]
      have node := holds.nodes j below
      rw [node]
      rfl
    · change update f.node inum _ j = _
      rw [update_of_ne here, (grows.rest layout below here (update_of_ne here ..) holds.intact).1]
      exact holds.nodes j below
  · intro idle
    rw [wrote.works.flag, (wrote.logs some).2] at idle
    cases idle

/-- The entry of the cache after a write that makes the inode grow. -/
def grownInode (inode : Inode) (a : Nat → Nat) (size : Nat) : Inode :=
  { inode with addrs := a, size := size }

/-- A write beyond the end of the content, once the inode is stored. -/
theorem Holds.grown (holds : Holds limit sb v f) (hand : InHand sb v ip inum)
    (wrote : Wrote forbidden sb (f.lims limit sb) ip inum (v.addrs sb ip inum) v off src A' v')
    (le : off ≤ (v.mem.icache ip).size) (beyond : (v.mem.icache ip).size < off + src.length)
    (bound : off + src.length ≤ maxFile * bSize) (busy : f.inTrans = true) {cost : Nat}
    (few : exceeds limit (f.charge inum cost).bill = false)
    (logged : ∃ D' : Finset Nat, D'.card ≤ (f.charge inum cost).spent ∧
      v'.logged ⊆ targetSet sb (f.charge inum cost).touched D')
    {w : Vol (InodeMem ν)}
    (set : w = v'.setInode ip (grownInode (v.mem.icache ip) (A' inum) (off + src.length))) :
    Holds limit sb (w.write (iblock inum) (storeDinode (w.data (iblock inum)) inum (w.mem.icache ip).toDinode))
      (((f.charge inum cost).setNode inum
        ⟨(f.slot ip).toAttr, splice (f.node inum).data off src⟩).setSlot ip
          { f.slot ip with size := off + src.length }) := by
  obtain ⟨inode, grown⟩ : ∃ inode, inode = grownInode (v.mem.icache ip) (A' inum) (off + src.length) := ⟨_, rfl⟩
  rw [← grown] at set
  have filled := hand.filled holds
  have layout := holds.layout
  have grows := wrote.grows
  have copies := hand.copies
  have icache : w.mem.icache = update v.mem.icache ip inode := by
    rw [set]
    change update v'.mem.icache ip inode = _
    rw [wrote.mem]
    exact update_idem ..
  have self : w.mem.icache ip = inode := by rw [icache, update_self]
  have data : w.data = v'.data := by rw [set]; rfl
  have max : max (v.mem.icache ip).size (off + src.length) = off + src.length := by omega
  have content := wrote.content filled.covers le (by rw [max]; exact bound)
  have longer := wrote.filled filled le (by rw [max]; exact bound)
  rw [max] at content longer
  have alive : inode.type ≠ 0 := by
    rw [grown]
    exact hand.alive
  have named : inode.inum = inum := by
    rw [grown]
    exact hand.named
  have small : inode.toDinode.Small := by
    have old := hand.small
    rw [grown]
    refine ⟨old.type, old.major, old.minor, old.nlink, ?_, fun i le => grows.storage.addr_lt layout inum le⟩
    have : off + src.length ≤ 71680 := bound
    change off + src.length < 4294967296
    omega
  rw [self]
  have loaded : loadDinode (storeDinode (w.data (iblock inum)) inum inode.toDinode) inum = inode.toDinode.trim :=
    loadDinode_storeDinode small
  have storing : Storing sb w.data A' inum (storeDinode (w.data (iblock inum)) inum inode.toDinode) := by
    refine ⟨layout, hand.below, data ▸ grows.storage, fun j other => ?_, fun i off => storeDinode_off off,
      fun i le => ?_, fun j below other used => ?_, fun _ => ?_⟩
    · rw [grows.others j other, data, grows.addrsOf layout]
      exact update_of_ne other ..
    · rw [loaded, if_neg (by exact alive), grown]
      exact (if_pos (Nat.lt_succ_of_le le)).symm
    · rw [data] at used ⊢
      exact (grows.rest layout below other (update_of_ne other ..) holds.intact).2 used
    · rw [loaded, data, grown]
      exact longer
  refine Saved.holds ⟨storing, ?_, ?_, ?_, ?_, busy, ?_, ?_, ?_, ?_, ?_, ?_, Finset.mem_insert_self _ _, few⟩
  · rw [set]
    exact wrote.works.laid.again
  · rw [set]
    exact wrote.works.idle
  · rw [set]
    exact wrote.works.up
  · rw [set]
    exact wrote.works.flag
  · rw [set]
    change v'.mem.rest = f.mem
    rw [wrote.mem]
    exact holds.rest
  · rw [icache]
    change update f.slot ip _ = _
    funext jp
    by_cases here : jp = ip
    · rw [here, update_self, update_self, holds.slot ip, grown]
      rfl
    · rw [update_of_ne here, update_of_ne here, holds.slot jp]
  · rw [icache]
    refine holds.cache.store hand.used (named.trans hand.named.symm) (named.symm ▸ hand.below)
      (fun j below other => ?_) fun _ _ => ?_
    · rw [named] at other
      rw [dinodeOf_update_other storing.off other, data]
      exact grows.dinode layout below
    · rw [named, dinodeOf_update_self]
      exact Copies.stored small alive
  · change update f.node inum _ inum = _
    rw [update_self, loaded, data, hand.node holds, ← content, holds.slot ip]
    dsimp only [Dinode.trim]
    rw [if_neg alive, grown]
    rfl
  · intro j below other
    change update f.node inum _ j = _
    rw [update_of_ne other, data,
      (grows.rest layout below other (update_of_ne other ..) holds.intact).1]
    exact holds.nodes j below
  · rw [set]
    exact logged

/-- The entry of the cache after the loop of `inode_write`. -/
theorem Wrote.entry {lim : Limits} (wrote : Wrote forbidden sb lim ip inum A v off src A' v') :
    v'.mem.icache ip = { v.mem.icache ip with addrs := A' inum } := by
  rw [wrote.mem]
  exact update_self ..

theorem InHand.works (hand : InHand sb v ip inum) (holds : Holds limit sb v f)
    (safe : forbidden .logBlock = true) :
    Works forbidden sb (f.lims limit sb) ip inum (v.addrs sb ip inum) v :=
  ⟨hand.stands holds, holds.up, holds.flag, Or.inl safe⟩

theorem filesWrite_matches (safe : forbidden .logBlock = true) (holds : Holds limit sb v f) (ip off : Nat)
    (src : List Byte) :
    FilesMatch limit sb ((volMachine forbidden).run (inodeWrite ip off src) v)
      (filesWrite limit f ip off src) := by
  unfold filesWrite
  dsimp only
  split
  · exact .excused _ (by rfl) _
  next good =>
  simp only [not_or, not_not, Nat.not_le] at good
  obtain ⟨hand, short⟩ := good
  have hand := holds.inHand hand
  have filled := hand.filled holds
  have bound : (v.mem.icache ip).size ≤ 71680 := filled.small
  obtain ⟨type, major, size, -⟩ := holds.fields ip
  obtain ⟨inum, named⟩ : ∃ inum, inum = (f.slot ip).inum := ⟨_, rfl⟩
  rw [← named] at hand ⊢
  rw [type, major, size]
  unfold inodeWrite
  rw [run_getInode_bind]
  by_cases device : (v.mem.icache ip).type = tDev
  · rw [if_pos device, if_pos device]
    exact quiet_matches (devsw_matches holds _ _)
  rw [if_neg device, if_neg device]
  by_cases bad : (v.mem.icache ip).size < off ∨ (off + src.length) % 4294967296 < off
  · rw [if_pos bad, if_pos bad]
    exact matches_ok (.ret ⟨rfl, holds⟩)
  rw [if_neg bad, if_neg bad]
  simp only [not_or, Nat.not_lt] at bad
  have whole : (off + src.length) % 4294967296 = off + src.length := by omega
  rw [whole]
  by_cases large : maxFile * bSize < off + src.length
  · rw [if_pos large, if_pos large]
    exact matches_ok (.ret ⟨rfl, holds⟩)
  rw [if_neg large, if_neg large]
  rw [Nat.not_lt] at large
  by_cases empty : src = []
  · subst empty
    rw [if_pos rfl]
    refine matches_ok (.seq (Machine.Wp.ret (.seq (wp_getInode ?_))))
    rw [if_neg fun both => Nat.lt_irrefl 0 both.1]
    exact .ret ⟨rfl, holds⟩
  rw [if_neg empty]
  have some : src.length > 0 := List.length_pos_iff.mpr empty
  refine matches_logging fun few => Machine.Wp.weaken ?_ fun _ _ fails => Or.inl fails
  obtain ⟨D, small, within, fits⟩ := holds.within rfl few ((v.addrs sb ip inum) inum)
  have works : Works forbidden sb (f.lims limit sb) ip inum (v.addrs sb ip inum) v := hand.works holds safe
  refine .seq (wp_writeFrom works (Nat.le_refl _) large (fun far => decide_eq_true far) within fits nofun ?_)
  rintro A' v' wrote ⟨R, count, within'⟩
  rw [Finset.card_empty, Nat.zero_add] at count
  have logs := wrote.logs empty
  have logged := within'.logged_write rfl small count
  refine .seq (wp_getInode ?_)
  rw [wrote.entry]
  by_cases grows : (v.mem.icache ip).size < off + src.length
  · rw [if_pos ⟨some, grows⟩]
    have fits' : Fits (f.lims limit sb) v'.size _ := wrote.size ▸ fits
    obtain ⟨targets, room⟩ : ∃ targets, (f.lims limit sb).roomy → v'.Room targets :=
      ⟨_, within'.room (fits'.mono (by rw [Finset.card_empty]; omega))⟩
    obtain ⟨w, set⟩ : ∃ w, w = v'.setInode ip (grownInode (v.mem.icache ip) (A' inum) (off + src.length)) :=
      ⟨_, rfl⟩
    have entry : w.mem.icache ip = grownInode (v.mem.icache ip) (A' inum) (off + src.length) := by
      rw [set]
      exact update_self ..
    have room' : (f.lims limit sb).roomy → w.Room targets := by
      rw [set]
      exact fun yes => (room yes).setInode ip _
    have grown := holds.grown hand wrote bad.1 grows large logs.2 few logged set
    refine .seq (wp_setInode ?_)
    change (volMachine forbidden).Wp _ (v'.setInode ip (grownInode (v.mem.icache ip) (A' inum) _)) _ _
    rw [← set]
    refine .seq (wp_inodeUpdate holds.layout ?_ ?_ (entry ▸ hand.named) hand.below
      room' ?_ ?_ fun _ _ => .ret ⟨logs.1, logs.2, _, rfl, ?_⟩)
    · rw [set]
      exact wrote.works.laid.again
    · rw [set]
      exact wrote.works.idle
    · rw [set]
      exact wrote.works.up
    · rw [set]
      exact wrote.works.flag
    · have result : (f.charge inum (writeCost off src.length)).store ip off src = _ := if_pos (size ▸ grows)
      rw [result]
      subst named
      exact grown
  · rw [if_neg fun both => grows both.2]
    refine .ret ⟨logs.1, logs.2, _, rfl, ?_⟩
    have result : (f.charge inum (writeCost off src.length)).store ip off src = _ := if_neg (size ▸ grows)
    rw [result]
    subst named
    exact holds.overwritten hand wrote (Nat.not_lt.mp grows) empty few logged

end Relation

end OsAudio.Fs

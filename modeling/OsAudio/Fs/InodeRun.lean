import OsAudio.Fs.Storage

/-!
# Inodes on a volume

What the functions of `kern/fs/inode.c` that use the blocks of an inode do on a volume: `bmap`
finds or allocates a block, and the loops of `inode_read`, `inode_write` and `inode_trunc` read,
write and free the content.
-/
namespace OsAudio.Fs
open OsAudio.Lib
open Function (update update_idem update_self update_apply update_of_ne update_eq_self update_eq_self_iff)

section Runs
variable {ν : Type} {forbidden : Mark → Bool} {sb : Superblock} {lim : Limits} {ip inum : Nat}
  {A : Nat → Nat → Nat} {v : Vol (InodeMem ν)}

/-! ## Memory -/

/-- Entry `ip` of the inode cache is set. -/
def Vol.setInode (v : Vol (InodeMem ν)) (ip : Nat) (inode : Inode) : Vol (InodeMem ν) :=
  { v with mem := { v.mem with icache := update v.mem.icache ip inode } }

variable {E : Stop → Vol (InodeMem ν) → Prop} {Q : Unit → Vol (InodeMem ν) → Prop}
  {i count bn off fuel : Nat} {data : Nat → Bytes} {targets : Finset Nat}

theorem wp_getInode {Q : Inode → Vol (InodeMem ν) → Prop}
    (next : Q (v.mem.icache ip) v) : (volMachine forbidden).Wp (getInode ip) v Q E :=
  .seq (wp_getMem next)

theorem reads_getInode {Q : Inode → Vol (InodeMem ν) → Prop}
    (next : Q (v.mem.icache ip) v) :
    (volMachine forbidden).Confined LogOp.ReadsOnly (getInode ip) v Q E :=
  .seq (reads_getMem (.ret next))

theorem wp_setInode
    {inode : Inode} (next : Q () (v.setInode ip inode)) :
    (volMachine forbidden).Wp (setInode ip inode) v Q E :=
  .seq (wp_getMem (wp_setMem next))

theorem Vol.Room.setInode (room : v.Room targets) (ip : Nat) (inode : Inode) :
    (v.setInode ip inode).Room targets := ⟨room.logged, room.cache, room.log⟩

/-- The addresses of an entry of the inode cache are set. -/
def Vol.setAddrs (v : Vol (InodeMem ν)) (ip : Nat) (a : Nat → Nat) : Vol (InodeMem ν) :=
  v.setInode ip { v.mem.icache ip with addrs := a }

theorem setAddrs_same (v : Vol (InodeMem ν)) (ip : Nat) :
    v.setAddrs ip (v.mem.icache ip).addrs = v := by
  unfold Vol.setAddrs Vol.setInode
  rw [update_eq_self]

theorem setAddrs_again {w : Vol (InodeMem ν)} {a : Nat → Nat} (mem : w.mem = (v.setAddrs ip a).mem)
    (b : Nat → Nat) : (w.setAddrs ip b).mem = (v.setAddrs ip b).mem := by
  simp only [Vol.setAddrs, Vol.setInode, mem, update_self, update_idem]

theorem wp_setAddr
    {addr : Nat}
    (next : Q () (v.setAddrs ip (update (v.mem.icache ip).addrs i addr))) :
    (volMachine forbidden).Wp (setAddr ip i addr) v Q E :=
  .seq (wp_getInode (wp_setInode next))

/-! ## Working on an inode -/

/-- Between two steps of a function that uses entry `ip` of the inode cache, for inode `inum`; `A`
has the addresses of all inodes. -/
structure Stands (sb : Superblock) (ip inum : Nat) (A : Nat → Nat → Nat) (v : Vol (InodeMem ν)) :
    Prop where
  layout : Layout sb
  laid : v.Laid sb
  idle : v.held = ∅
  storage : Storage sb v.data A
  addrs : (v.mem.icache ip).addrs = A inum

/-- The same for a function that may allocate blocks or write. -/
structure Works (forbidden : Mark → Bool) (sb : Superblock) (lim : Limits) (ip inum : Nat)
    (A : Nat → Nat → Nat) (v : Vol (InodeMem ν)) : Prop extends Stands sb ip inum A v where
  up : v.up = lim.up
  flag : v.inTrans = lim.inTrans
  safe : forbidden .logBlock = true ∨ lim.spare

/-- The indirect block, where it counts. -/
def indSet (far : Bool) (a : Nat → Nat) : Finset Nat := if far ∧ a nDirect ≠ 0 then {a nDirect} else ∅

theorem card_indSet (far : Bool) (a : Nat → Nat) : (indSet far a).card ≤ far.toNat := by
  unfold indSet
  cases far with
  | true => split <;> simp
  | false => simp

/-- Only sectors of `S`, the indirect block and `R` have been logged. -/
structure Within (sb : Superblock) (S : Finset Nat) (far : Bool) (a : Nat → Nat) (R : Finset Nat)
    (v : Vol (InodeMem ν)) : Prop where
  bitmap : sb.bitmap ⊆ S
  logged : v.logged ⊆ S ∪ indSet far a ∪ R

/-- The log and the cache have room for `count` sectors. -/
def Fits (lim : Limits) (size : Int) (count : Nat) : Prop :=
  lim.roomy → count + 3 ≤ nBuf ∧ (count : Int) + 2 ≤ size

variable {S R : Finset Nat} {far : Bool} {a : Nat → Nat}

theorem Fits.mono {size : Int} {less : Nat} (fits : Fits lim size count) (le : less ≤ count) :
    Fits lim size less := by
  intro yes
  have := fits yes
  constructor <;> omega

theorem Within.room (within : Within sb S far a R v)
    (fits : Fits lim v.size (S.card + far.toNat + R.card)) (yes : lim.roomy) :
    v.Room (S ∪ indSet far a ∪ R) := by
  have left := Finset.card_union_le (S ∪ indSet far a) R
  have right := Finset.card_union_le S (indSet far a)
  have indirect := card_indSet far a
  have limit := fits yes
  refine ⟨within.logged, ?_, ?_⟩ <;> omega

theorem Within.grown (within : Within sb S far a R v) (r : Nat) : v.logged ⊆ S ∪ indSet far a ∪ insert r R :=
  within.logged.trans (Finset.union_subset_union_right (Finset.subset_insert ..))

/-- The sectors logged once block `r` has been allocated. -/
theorem Within.allocated (within : Within sb S far a R v) {r : Nat} (below : r < sb.size) :
    insert r (insert (bblock r sb.ninodes) v.logged) ⊆ S ∪ indSet far a ∪ insert r R := by
  refine Finset.insert_subset ?_ (Finset.insert_subset ?_ (within.grown r))
  · exact Finset.mem_union_right _ (Finset.mem_insert_self ..)
  · have member := within.bitmap (bblock_mem_bitmap below)
    exact Finset.mem_union_left _ (Finset.mem_union_left _ member)

theorem exists_free (some : 0 < (freeBlocks sb data).card) :
    ∃ c < sb.dataEnd, inUse sb data c = false := by
  obtain ⟨c, member⟩ := Finset.card_pos.mp some
  obtain ⟨range, clear⟩ := Finset.mem_filter.mp member
  exact ⟨c, (Finset.mem_Ico.mp range).2, clear⟩

/-- `block_alloc` may be called, also while an indirect block is held. -/
theorem Works.allocReady (works : Works forbidden sb lim ip inum A v)
    (within : Within sb S far (A inum) R v) (fits : Fits lim v.size (S.card + far.toNat + R.card))
    (vacant : lim.spare → 0 < (freeBlocks sb v.data).card) (held : Finset Nat) (few : held.card ≤ 1)
    (blocks : ∀ t ∈ held, t ≠ 0 ∧ ∃ j i, blockNo v.data (A j) i = t) :
    AllocReady forbidden sb { v with held := held } lim (S ∪ indSet far (A inum) ∪ R) := by
  refine ⟨works.layout, works.laid.again, few, ?_,
    works.storage.low, ?_, fun yes => exists_free (vacant yes), fun yes => ?_, fun yes => ?_, works.up,
    works.flag⟩
  · intro t member
    obtain ⟨some, j, i, named⟩ := blocks t member
    rw [← named] at some ⊢
    exact ⟨(works.storage.range some).1, works.storage.inUse some⟩
  · exact works.safe.imp_right fun yes => exists_free (vacant yes)
  · have room := within.room fits yes
    exact ⟨room.logged, room.cache, room.log⟩
  · exact (within.bitmap.trans Finset.subset_union_left).trans Finset.subset_union_left

/-- Index `i` of the inode has block `r`, in the state `v'` with addresses `A'`, whether it had it
before or not. -/
structure Supplied (forbidden : Mark → Bool) (sb : Superblock) (lim : Limits) (ip inum : Nat)
    (A : Nat → Nat → Nat) (v : Vol (InodeMem ν)) (i need r : Nat) (A' : Nat → Nat → Nat)
    (v' : Vol (InodeMem ν)) : Prop where
  mapped : Mapped sb inum i r v.data v'.data A A'
  works : Works forbidden sb lim ip inum A' v'
  mem : v'.mem = (v.setAddrs ip (A' inum)).mem
  size : v'.size = v.size
  cost : (freeBlocks sb v'.data).card + need = (freeBlocks sb v.data).card
  same : need = 0 → v' = v ∧ A' = A
  logs : need ≠ 0 → lim.up = true ∧ lim.inTrans = true

section
variable (works : Works forbidden sb lim ip inum A v)
include works

/-- The block is there. -/
theorem Works.supplied (some : blockNo v.data (A inum) i ≠ 0) :
    Supplied forbidden sb lim ip inum A v i 0 (blockNo v.data (A inum) i) A v := by
  refine ⟨⟨Grows.refl works.storage, rfl, some, fun _ _ _ => rfl, fun _ _ _ => rfl⟩, works, ?_, rfl, rfl,
    fun _ => ⟨rfl, rfl⟩, fun wrong => absurd rfl wrong⟩
  rw [← works.addrs, setAddrs_same]

theorem Works.addr_mem {r : Nat} {d : Nat → Bytes} {logged : Finset Nat} (i : Nat) :
    ({ v with data := d, logged := logged }.setAddrs ip
      (update (v.mem.icache ip).addrs i r)).mem =
      (v.setAddrs ip (update A inum (update (A inum) i r) inum)).mem := by
  rw [update_self, ← works.addrs]
  rfl

/-- An address is read, or set to a fresh block. -/
theorem wp_addrOrAlloc {Q : Nat → Vol (InodeMem ν) → Prop} (le : i ≤ nDirect)
    (within : Within sb S far (A inum) R v) (fits : Fits lim v.size (S.card + far.toNat + R.card))
    (vacant : lim.spare → A inum i = 0 → 0 < (freeBlocks sb v.data).card)
    (next : ∀ r A' v', Supplied forbidden sb lim ip inum A v (addrPlace i)
      (if A inum i = 0 then 1 else 0) r A' v' → A' inum i = r →
      v'.logged ⊆ S ∪ indSet far (A inum) ∪ insert r R → Q r v') :
    (volMachine forbidden).Wp (addrOrAlloc ip i) v Q (Fails lim) := by
  refine .seq (wp_getInode ?_)
  rw [works.addrs]
  by_cases empty : A inum i = 0
  · rw [if_pos empty]
    have ready := works.allocReady within fits (fun yes => vacant yes empty) ∅ (by simp) (by simp)
    have idle : { v with held := ∅ } = v := by rw [← works.idle]
    rw [idle] at ready
    refine .seq (wp_blockAlloc ready fun r first high below up busy => ?_)
    have free : Vacant sb v.data r := ⟨high, below, first.clear⟩
    obtain ⟨mapped, count⟩ := works.storage.take_addr works.layout free le empty
    refine .seq (wp_setAddr ?_)
    refine next r _ _ ⟨mapped, ?_, works.addr_mem i, rfl, ?_, ?_, fun _ => ⟨up, busy⟩⟩ ?_ ?_
    · have laid := works.laid.allocated works.layout first.below high
      refine ⟨⟨works.layout, laid.again, works.idle, mapped.storage, ?_⟩,
        works.up, works.flag, works.safe⟩
      exact (congrArg (fun mem => (mem.icache ip).addrs) (works.addr_mem i)).trans
        (congrArg Dinode.addrs (congrArg Inode.toDinode (update_self ..)))
    · rw [if_pos empty]
      exact count
    · rw [if_pos empty]
      nofun
    · rw [update_self, update_self]
    · exact within.allocated first.below
  · rw [if_neg empty]
    have named : blockNo v.data (A inum) (addrPlace i) = A inum i := blockNo_addrPlace le
    have supplied := works.supplied (i := addrPlace i) (named ▸ empty)
    rw [named] at supplied
    refine .ret (next _ A v ?_ rfl ?_)
    · rw [if_neg empty]
      exact supplied
    · exact within.grown _

end

theorem indSet_mono {A' : Nat → Nat → Nat} {data' : Nat → Bytes}
    (grows : Grows sb inum data data' A A') : indSet far (A inum) ⊆ indSet far (A' inum) := by
  have kept := grows.keeps maxFile
  rw [blockNo_indirect, blockNo_indirect] at kept
  unfold indSet
  by_cases counts : far ∧ A inum nDirect ≠ 0
  · rw [if_pos counts, kept counts.2, if_pos ⟨counts.1, counts.2⟩]
  · rw [if_neg counts]
    exact Finset.empty_subset _

theorem mem_indSet {a : Nat → Nat} (counts : far = true) (some : a nDirect ≠ 0) :
    a nDirect ∈ indSet far a := by
  rw [indSet, if_pos ⟨counts, some⟩]
  exact Finset.mem_singleton_self _

/-- An entry of the indirect block is read, or set to a fresh block. -/
theorem wp_indirectEntry {Q : Nat → Vol (InodeMem ν) → Prop}
    (works : Works forbidden sb lim ip inum A v) (high : nDirect ≤ bn) (below : bn < maxFile)
    (indirect : A inum nDirect ≠ 0) (counts : far = true)
    (within : Within sb S far (A inum) R v)
    (fits : Fits lim v.size (S.card + far.toNat + (R.card + 1)))
    (vacant : lim.spare → blockNo v.data (A inum) bn = 0 → 0 < (freeBlocks sb v.data).card)
    (next : ∀ r v', Supplied forbidden sb lim ip inum A v bn
      (if blockNo v.data (A inum) bn = 0 then 1 else 0) r A v' →
      Within sb S far (A inum) (insert r R) v' → Q r v') :
    (volMachine forbidden).Wp (do
      let a ← bread (A inum nDirect)
      if entry a (bn - nDirect) = 0 then do
        let addr ← blockAlloc
        logStore (A inum nDirect) (a.put (4 * (bn - nDirect)) 4 addr)
        brelse (A inum nDirect)
        pure addr
      else do
        brelse (A inum nDirect)
        pure (entry a (bn - nDirect))) v Q (Fails lim) := by
  obtain ⟨ind, named⟩ : ∃ ind, ind = A inum nDirect := ⟨_, rfl⟩
  rw [← named] at indirect ⊢
  have place : blockNo v.data (A inum) maxFile = ind := blockNo_indirect.trans named.symm
  have range := works.storage.range (place ▸ indirect)
  rw [place] at range
  have layout := works.layout.dataEnd_le
  have word := works.layout.word
  have free : ind ∉ v.held := v.unheld works.idle _
  have few := @Vol.few_hold _ v ind works.idle
  have before : Fits lim v.size (S.card + far.toNat + R.card) := fits.mono (by omega)
  refine .seq (wp_bread (works.laid.home works.layout range.2) free (by simp [works.idle])
    (within.room before) ?_)
  have value : blockNo v.data (A inum) bn = entry (v.data ind) (bn - nDirect) := by
    rw [blockNo_entry high below, ← named, if_neg indirect]
  by_cases empty : entry (v.data ind) (bn - nDirect) = 0
  · rw [if_pos empty]
    rw [value, empty] at vacant next
    have ready := works.allocReady within before (fun yes => vacant yes rfl) {ind} (by simp) (by
      intro t member
      rw [Finset.mem_singleton.mp member]
      exact ⟨indirect, inum, maxFile, place⟩)
    have holding : { v with held := {ind} } = v.hold ind := by
      rw [Vol.hold, works.idle]
      rfl
    rw [holding] at ready
    refine .seq (wp_blockAlloc ready fun r first highR belowR up busy => ?_)
    have free' : Vacant sb v.data r := ⟨highR, belowR, first.clear⟩
    have old : allocData sb v.data r ind = v.data ind := by
      have kept := works.storage.indirect_allocData works.layout free' inum (named ▸ indirect)
      rwa [← named] at kept
    obtain ⟨mapped, count⟩ := works.storage.take_entry works.layout free' high below (named ▸ indirect)
      (named ▸ empty)
    rw [setEntry, ← named, old] at mapped count
    have logged := within.allocated first.below
    have within' : Within sb S far (A inum) (insert r R) ((v.hold ind).allocated sb r) :=
      ⟨within.bitmap, logged⟩
    have fits' : Fits lim v.size (S.card + far.toNat + (insert r R).card) := by
      have := Finset.card_insert_le r R
      exact fits.mono (by omega)
    refine .seq (wp_logStore (Finset.mem_insert_self _ _) (by omega) (by omega)
      (few 1) (within'.room fits') works.up works.flag fun _ _ => ?_)
    refine .seq (wp_brelse (Finset.mem_insert_self _ _) ?_)
    let w := (v.allocated sb r).write ind ((v.data ind).put (4 * (bn - nDirect)) 4 r)
    have released : ((((v.hold ind).allocated sb r).write ind
        ((v.data ind).put (4 * (bn - nDirect)) 4 r)).release ind) = w :=
      release_hold (v := w) free
    rw [released]
    refine .ret (next r w ⟨mapped, ?_, ?_, rfl, ?_, by simp, fun _ => ⟨up, busy⟩⟩ ⟨within.bitmap, ?_⟩)
    · have laid : w.Laid sb := (works.laid.allocated works.layout first.below highR).write (by omega)
      exact ⟨⟨works.layout, laid, works.idle, mapped.storage, works.addrs⟩, works.up, works.flag, works.safe⟩
    · rw [← works.addrs, setAddrs_same]
      rfl
    · rw [if_pos rfl]
      exact count
    · refine Finset.insert_subset ?_ logged
      rw [named]
      exact Finset.mem_union_left _ (Finset.mem_union_right _ (mem_indSet counts (named ▸ indirect)))
  · rw [if_neg empty]
    refine .seq (wp_brelse_hold free ?_)
    have supplied := works.supplied (i := bn) (by rw [value]; exact empty)
    rw [value] at supplied
    refine .ret (next _ v ?_ ⟨within.bitmap, ?_⟩)
    · rw [value, if_neg empty]
      exact supplied
    · exact within.grown _

/-- `bmap` finds the block of index `bn`, or allocates it. -/
theorem wp_bmap {Q : Nat → Vol (InodeMem ν) → Prop}
    (works : Works forbidden sb lim ip inum A v) (below : bn < maxFile)
    (reaches : nDirect ≤ bn → far = true) (within : Within sb S far (A inum) R v)
    (fits : Fits lim v.size (S.card + far.toNat + (R.card + 1)))
    (vacant : lim.spare → missing v.data (A inum) bn ≤ (freeBlocks sb v.data).card)
    (next : ∀ r A' v', Supplied forbidden sb lim ip inum A v bn (missing v.data (A inum) bn) r A' v' →
      Within sb S far (A' inum) (insert r R) v' → Q r v') :
    (volMachine forbidden).Wp (bmap ip bn) v Q (Fails lim) := by
  unfold bmap bmapBy
  by_cases direct : bn < nDirect
  · rw [if_pos direct]
    have value : blockNo v.data (A inum) bn = A inum bn := blockNo_direct direct
    have need : missing v.data (A inum) bn = if A inum bn = 0 then 1 else 0 := by
      rw [missing, if_neg (by omega), value, Nat.zero_add]
    have place : addrPlace bn = bn := if_pos direct
    refine wp_addrOrAlloc works (Nat.le_of_lt direct) within (fits.mono (by omega)) ?_ ?_
    · intro yes empty
      have enough := vacant yes
      rwa [need, if_pos empty] at enough
    · intro r A' v' supplied _ logged
      rw [place, ← need] at supplied
      refine next r A' v' supplied ⟨within.bitmap, logged.trans ?_⟩
      exact Finset.union_subset_union_left
        (Finset.union_subset_union_right (indSet_mono supplied.mapped.toGrows))
  · have high : nDirect ≤ bn := Nat.not_lt.mp direct
    have counts := reaches high
    have inside : bn - nDirect < nIndirect := by
      unfold maxFile at below
      omega
    have need : missing v.data (A inum) bn = (if A inum nDirect = 0 then 1 else 0) +
        if blockNo v.data (A inum) bn = 0 then 1 else 0 := by
      simp only [missing, high, true_and]
    have place : addrPlace nDirect = maxFile := if_neg (Nat.lt_irrefl _)
    rw [if_neg direct, if_pos inside]
    refine .seq (wp_addrOrAlloc works (Nat.le_refl _) within (fits.mono (by omega)) ?_ ?_)
    · intro yes empty
      have enough := vacant yes
      rw [need, if_pos empty] at enough
      omega
    · intro ind A' v' supplied here logged
      rw [place] at supplied
      subst here
      have some : A' inum nDirect ≠ 0 := supplied.mapped.some
      have kept : blockNo v'.data (A' inum) bn = blockNo v.data (A inum) bn :=
        supplied.mapped.rest bn (Nat.ne_of_lt below) (Or.inl below)
      have within' : Within sb S far (A' inum) R v' := by
        refine ⟨within.bitmap, logged.trans ?_⟩
        refine Finset.union_subset (Finset.union_subset ?_ ?_) (Finset.insert_subset ?_ ?_)
        · exact Finset.subset_union_left.trans Finset.subset_union_left
        · exact ((indSet_mono supplied.mapped.toGrows).trans Finset.subset_union_right).trans
            Finset.subset_union_left
        · exact Finset.mem_union_left _ (Finset.mem_union_right _ (mem_indSet counts some))
        · exact Finset.subset_union_right
      have fits' : Fits lim v'.size (S.card + far.toNat + (R.card + 1)) := by
        rw [supplied.size]
        exact fits
      refine wp_indirectEntry supplied.works high below some counts within' fits' ?_ ?_
      · intro yes empty
        have enough := vacant yes
        have cost := supplied.cost
        rw [kept] at empty
        rw [need, if_pos empty] at enough
        omega
      · intro r v'' later within''
        rw [kept] at later
        refine next r A' v'' ⟨?_, later.works, ?_, later.size.trans supplied.size, ?_, ?_, ?_⟩ within''
        · exact supplied.mapped.after later.mapped high
        · have unchanged : v''.mem = v'.mem := by
            rw [later.mem, ← supplied.works.addrs, setAddrs_same]
          exact unchanged.trans supplied.mem
        · have first := supplied.cost
          have second := later.cost
          omega
        · intro none
          have first := supplied.same (by omega)
          have second := later.same (by omega)
          exact ⟨second.1.trans first.1, first.2⟩
        · intro _
          by_cases first : A inum nDirect = 0
          · exact supplied.logs (by simp [first])
          · refine later.logs ?_
            rw [if_neg first] at need
            omega

/-- The blocks of entry `ip` of the inode cache are data blocks, and the indirect block is not one of
the others. -/
structure Sited (sb : Superblock) (ip : Nat) (v : Vol (InodeMem ν)) : Prop where
  layout : Layout sb
  laid : v.Laid sb
  idle : v.held = ∅
  range : ∀ i, i ≤ maxFile → blockNo v.data (v.mem.icache ip).addrs i ≠ 0 →
    sb.dataStart ≤ blockNo v.data (v.mem.icache ip).addrs i ∧
      blockNo v.data (v.mem.icache ip).addrs i < sb.dataEnd
  apart : ∀ i, i < maxFile → blockNo v.data (v.mem.icache ip).addrs i ≠ 0 →
    blockNo v.data (v.mem.icache ip).addrs i ≠ (v.mem.icache ip).addrs nDirect

theorem Stands.sited (stands : Stands sb ip inum A v) : Sited sb ip v := by
  refine ⟨stands.layout, stands.laid, stands.idle, fun i _ some => ?_, fun i below some same => ?_⟩
  · rw [stands.addrs] at some ⊢
    exact stands.storage.range some
  · rw [stands.addrs] at some same
    have place := (stands.storage.distinct some (same.trans blockNo_indirect.symm)).2
    omega

theorem Sited.indirect (sited : Sited sb ip v) (some : (v.mem.icache ip).addrs nDirect ≠ 0) :
    sb.dataStart ≤ (v.mem.icache ip).addrs nDirect ∧ (v.mem.icache ip).addrs nDirect < sb.dataEnd := by
  have place : blockNo v.data (v.mem.icache ip).addrs maxFile = (v.mem.icache ip).addrs nDirect :=
    blockNo_indirect
  have range := sited.range maxFile (Nat.le_refl _) (place ▸ some)
  rwa [place] at range

/-- `bmap` on an index whose block is there does not allocate. -/
theorem reads_bmapBy {Q : Nat → Vol (InodeMem ν) → Prop}
    (alloc : InodeProg ν Nat) (sited : Sited sb ip v) (below : bn < maxFile)
    (some : blockNo v.data (v.mem.icache ip).addrs bn ≠ 0) (room : lim.roomy → v.Room targets)
    (next : Q (blockNo v.data (v.mem.icache ip).addrs bn) v) :
    (volMachine forbidden).Confined LogOp.ReadsOnly (bmapBy alloc ip bn) v Q (Fails lim) := by
  unfold bmapBy
  by_cases direct : bn < nDirect
  · rw [blockNo_direct direct] at some next
    rw [if_pos direct]
    refine .seq (reads_getInode ?_)
    rw [if_neg some]
    exact .ret next
  · have inside : bn - nDirect < nIndirect := by
      unfold maxFile at below
      omega
    have value := @blockNo_entry v.data (v.mem.icache ip).addrs bn (Nat.not_lt.mp direct) below
    have indirect : (v.mem.icache ip).addrs nDirect ≠ 0 := by
      intro none
      rw [value, if_pos none] at some
      exact some rfl
    rw [value, if_neg indirect] at some next
    have range := sited.indirect indirect
    have low := sited.layout.dataEnd_le
    have free : (v.mem.icache ip).addrs nDirect ∉ v.held := v.unheld sited.idle _
    rw [if_neg direct, if_pos inside]
    refine .seq (.seq (reads_getInode ?_))
    rw [if_neg indirect]
    refine .ret (.seq (reads_bread (by omega) (wp_bread (sited.laid.home sited.layout range.2) free
      (by simp [sited.idle]) room ?_)))
    rw [if_neg some]
    refine .seq (reads_brelse (wp_brelse_hold free ?_))
    exact .ret next

theorem reads_bmap {Q : Nat → Vol (InodeMem ν) → Prop}
    (stands : Stands sb ip inum A v) (below : bn < maxFile)
    (some : blockNo v.data (A inum) bn ≠ 0) (room : lim.roomy → v.Room targets)
    (next : Q (blockNo v.data (A inum) bn) v) :
    (volMachine forbidden).Confined LogOp.ReadsOnly (bmap ip bn) v Q (Fails lim) := by
  rw [← stands.addrs] at some next
  exact reads_bmapBy blockAlloc stands.sited below some room next

/-! ## Reading -/

theorem byteAt_chunk {m : Nat} (chunk : m ≤ bSize - off % bSize)
    (below : i < m) : byteAt data a (off + i) = data (blockNo data a (off / bSize)) (off % bSize + i) := by
  unfold bSize at *
  have block : (off + i) / 512 = off / 512 := by omega
  have place : (off + i) % 512 = off % 512 + i := by omega
  unfold byteAt bSize
  rw [block, place]

/-- The loop of `inode_read` where all blocks are there. -/
theorem reads_readFrom {Q : List Byte → Vol (InodeMem ν) → Prop}
    (stands : Stands sb ip inum A v) (room : lim.roomy → v.Room targets)
    {n : Nat} (enough : n ≤ fuel) (bound : off + n ≤ maxFile * bSize)
    (covers : Covers v.data (A inum) (off + n))
    (next : Q ((List.range n).map fun i => byteAt v.data (A inum) (off + i)) v) :
    (volMachine forbidden).Confined LogOp.ReadsOnly (readFrom ip fuel off n) v Q (Fails lim) := by
  induction fuel generalizing off n Q with
  | zero =>
    obtain rfl : n = 0 := by omega
    exact .ret next
  | succ fuel ih =>
    unfold readFrom
    by_cases done : n = 0
    · subst done
      rw [if_pos rfl]
      exact .ret next
    rw [if_neg done]
    obtain ⟨m, chunk⟩ : ∃ m, m = min n (bSize - off % bSize) := ⟨_, rfl⟩
    have inside : off / bSize * bSize < off + n := by
      have := Nat.div_mul_le_self off bSize
      omega
    have some := covers _ inside
    have below : off / bSize < maxFile := by
      unfold bSize at *
      omega
    have range := stands.storage.range some
    have low := stands.layout.dataEnd_le
    have free : blockNo v.data (A inum) (off / bSize) ∉ v.held := v.unheld stands.idle _
    refine .seq (reads_bmap stands below some room ?_)
    refine .seq (reads_bread (by omega) (wp_bread (stands.laid.home stands.layout range.2) free
      (by simp [stands.idle]) room ?_))
    refine .seq (reads_brelse (wp_brelse_hold free ?_))
    rw [← chunk]
    have step : 0 < m ∧ m ≤ n := by
      unfold bSize at chunk
      omega
    refine .seq (ih (by omega) (by omega) (by rwa [show off + m + (n - m) = off + n by omega]) ?_)
    refine .ret ?_
    have whole : (List.range n).map (fun i => byteAt v.data (A inum) (off + i)) =
        slice (v.data (blockNo v.data (A inum) (off / bSize))) (off % bSize) m ++
          (List.range (n - m)).map fun i => byteAt v.data (A inum) (off + m + i) := by
      rw [show n = m + (n - m) by omega, List.range_add, List.map_append, List.map_map,
        show m + (n - m) - m = n - m by omega]
      refine congrArg₂ _ (List.map_congr_left fun i member => ?_) (List.map_congr_left fun i _ => ?_)
      · exact byteAt_chunk (by omega) (List.mem_range.mp member)
      · exact congrArg _ (Nat.add_assoc ..).symm
    rw [← whole]
    exact next

/-! ## Writing -/

/-- The bytes `src` have been written from `off` on. -/
structure Wrote (forbidden : Mark → Bool) (sb : Superblock) (lim : Limits) (ip inum : Nat)
    (A : Nat → Nat → Nat) (v : Vol (InodeMem ν)) (off : Nat) (src : List Byte) (A' : Nat → Nat → Nat)
    (v' : Vol (InodeMem ν)) : Prop where
  grows : Grows sb inum v.data v'.data A A'
  works : Works forbidden sb lim ip inum A' v'
  mem : v'.mem = (v.setAddrs ip (A' inum)).mem
  size : v'.size = v.size
  cost : (freeBlocks sb v'.data).card + lacking v.data (A inum) off src.length =
    (freeBlocks sb v.data).card
  bytes : ∀ k, k < maxFile * bSize →
    blockNo v.data (A inum) (k / bSize) ≠ 0 ∨ (off ≤ k ∧ k < off + src.length) →
    byteAt v'.data (A' inum) k =
      if off ≤ k ∧ k < off + src.length then src.getD (k - off) 0 else byteAt v.data (A inum) k
  covers : ∀ k, off ≤ k → k < off + src.length → blockNo v'.data (A' inum) (k / bSize) ≠ 0
  rest : ∀ i, i < maxFile → (∀ k, off ≤ k → k < off + src.length → k / bSize ≠ i) →
    blockNo v'.data (A' inum) i = blockNo v.data (A inum) i
  same : (∀ k, off ≤ k → k < off + src.length → blockNo v.data (A inum) (k / bSize) ≠ 0) → A' = A
  logs : src ≠ [] → lim.up = true ∧ lim.inTrans = true

/-- One chunk of a write, inside block `r`. -/
theorem byteAt_write (storage : Storage sb data A) (layout : Layout sb)
    {m r : Nat} {src : List Byte} (block : blockNo data (A inum) (off / bSize) = r) (some : r ≠ 0)
    (below : off / bSize < maxFile) (chunk : m ≤ bSize - off % bSize) (k : Nat)
    (inside : blockNo data (A inum) (k / bSize) ≠ 0) :
    byteAt (update data r ((data r).copy (off % bSize) m fun i => src.getD i 0)) (A inum) k =
      if off ≤ k ∧ k < off + m then src.getD (k - off) 0 else byteAt data (A inum) k := by
  have same := (storage.write_block layout block some below
    ((data r).copy (off % bSize) m fun i => src.getD i 0)).2.1 inum (k / bSize)
  rw [byteAt, same]
  by_cases here : k / bSize = off / bSize
  · rw [here, block, update_self]
    by_cases written : off ≤ k ∧ k < off + m
    · rw [if_pos written, Bytes.copy_inside (by unfold bSize at *; omega) (by unfold bSize at *; omega)]
      congr 1
      unfold bSize at *
      omega
    · rw [if_neg written, Bytes.copy_outside (by unfold bSize at *; omega), byteAt, here, block]
  · have other : blockNo data (A inum) (k / bSize) ≠ r := by
      intro equal
      exact here (storage.distinct inside (equal.trans block.symm)).2
    have outside : ¬ (off ≤ k ∧ k < off + m) := by
      unfold bSize at *
      omega
    rw [update_of_ne other, if_neg outside, byteAt]

theorem Works.wrote_nil (works : Works forbidden sb lim ip inum A v) (off : Nat) :
    Wrote forbidden sb lim ip inum A v off [] A v := by
  refine ⟨Grows.refl works.storage, works, ?_, rfl, ?_, fun k _ _ => ?_, fun k low high => ?_,
    fun _ _ _ => rfl, fun _ => rfl, fun wrong => absurd rfl wrong⟩
  · rw [← works.addrs, setAddrs_same]
  · rw [List.length_nil, lacking_zero, Nat.add_zero]
  · rw [if_neg (by simp)]
  · simp only [List.length_nil] at high
    omega

/-- A block is supplied and a chunk written into it. -/
theorem Supplied.write {off m r : Nat} {A' : Nat → Nat → Nat} {v' w : Vol (InodeMem ν)} {src : List Byte}
    (supplied : Supplied forbidden sb lim ip inum A v (off / bSize) (missing v.data (A inum) (off / bSize))
      r A' v')
    (below : off / bSize < maxFile) (positive : 0 < m) (chunk : m ≤ bSize - off % bSize)
    (length : m ≤ src.length) (bound : off + m ≤ maxFile * bSize) (logs : lim.up = true ∧ lim.inTrans = true)
    (written : w = v'.write r ((v'.data r).copy (off % bSize) m fun i => src.getD i 0)) :
    Wrote forbidden sb lim ip inum A v off (src.take m) A' w ∧
    ∀ k, blockNo w.data (A' inum) k = blockNo v'.data (A' inum) k := by
  subst written
  have mapped := supplied.mapped
  have layout := supplied.works.layout
  have ends := layout.dataEnd_le
  have range := mapped.storage.range (mapped.block ▸ mapped.some)
  rw [mapped.block] at range
  obtain ⟨grows, same, count⟩ := mapped.storage.write_block layout mapped.block mapped.some below
    ((v'.data r).copy (off % bSize) m fun i => src.getD i 0)
  have taken : (src.take m).length = m := List.length_take_of_le length
  have here : ∀ k, off ≤ k → k < off + m → blockNo v'.data (A' inum) (k / bSize) = r := by
    intro k low high
    rw [show k / bSize = off / bSize by unfold bSize at *; omega, mapped.block]
  refine ⟨⟨mapped.toGrows.trans grows, ?_, supplied.mem, supplied.size, ?_, ?_, ?_, ?_, ?_, fun _ => logs⟩,
    same inum⟩ <;> try rw [taken]
  · have old := supplied.works
    exact ⟨⟨layout, old.laid.write (by omega), old.idle, grows.storage, old.addrs⟩, old.up, old.flag, old.safe⟩
  · have step := mapped.lacking_step (same inum) (Nat.pos_iff_ne_zero.mp positive)
      (Nat.min_eq_left chunk).symm bound
    rw [Nat.sub_self, lacking_zero] at step
    rw [step, show freeBlocks sb (v'.write r _).data = freeBlocks sb v'.data from count]
    exact supplied.cost
  · intro k small inside
    have present : blockNo v'.data (A' inum) (k / bSize) ≠ 0 := by
      rcases inside with some | ⟨low, high⟩
      · rw [mapped.keeps _ some]
        exact some
      · rw [here k low high]
        exact mapped.some
    refine (byteAt_write mapped.storage layout mapped.block mapped.some below chunk k present).trans ?_
    by_cases written : off ≤ k ∧ k < off + m
    · rw [if_pos written, if_pos written, List.getD_eq_getElem?_getD, List.getD_eq_getElem?_getD,
        List.getElem?_take_of_lt (by omega)]
    · rw [if_neg written, if_neg written]
      have some := inside.resolve_right written
      rw [byteAt, byteAt, mapped.keeps _ some, mapped.bytes _ (Nat.div_lt_of_lt_mul ?_) some]
      rwa [Nat.mul_comm]
  · intro k low high
    rw [show blockNo (v'.write r _).data _ _ = _ from same inum _, here k low high]
    exact mapped.some
  · intro i inside elsewhere
    have other := (elsewhere off (Nat.le_refl _) (by omega)).symm
    exact (same inum i).trans (mapped.rest i other (Or.inl inside))
  · intro present
    exact (supplied.same (missing_eq_zero below (present off (Nat.le_refl _) (by omega)))).2

/-- A chunk is written, then the rest. -/
theorem Wrote.append {m : Nat} {A' A'' : Nat → Nat → Nat} {v' v'' : Vol (InodeMem ν)} {src : List Byte}
    (first : Wrote forbidden sb lim ip inum A v off (src.take m) A' v')
    (second : Wrote forbidden sb lim ip inum A' v' (off + m) (src.drop m) A'' v'') (le : m ≤ src.length)
    (some : src.take m ≠ [])
    (cost : lacking v.data (A inum) off src.length =
      lacking v.data (A inum) off m + lacking v'.data (A' inum) (off + m) (src.length - m)) :
    Wrote forbidden sb lim ip inum A v off src A'' v'' := by
  obtain ⟨grows, -, mem, size, cost₁, bytes, covers, rest, same, logs⟩ := first
  obtain ⟨grows', works, mem', size', cost₂, bytes', covers', rest', same', -⟩ := second
  rw [List.length_take_of_le le] at cost₁ bytes covers rest same
  rw [List.length_drop] at cost₂ bytes' covers' rest' same'
  have split : ∀ k, k < off + m + (src.length - m) ↔ k < off + src.length := by omega
  simp only [split] at bytes' covers' rest' same'
  refine ⟨grows.trans grows', works, mem'.trans (setAddrs_again mem _), size'.trans size, by omega,
    fun k small inside => ?_, fun k low high => ?_, fun i inside elsewhere => ?_, fun present => ?_,
    fun _ => logs some⟩
  · have present : blockNo v'.data (A' inum) (k / bSize) ≠ 0 ∨ (off + m ≤ k ∧ k < off + src.length) := by
      rcases inside with some | range
      · rw [grows.keeps _ some]
        exact Or.inl some
      · exact (Nat.lt_or_ge k (off + m)).imp (covers k range.1) fun later => ⟨later, range.2⟩
    rw [bytes' k small present]
    by_cases later : off + m ≤ k ∧ k < off + src.length
    · rw [if_pos later, if_pos (by omega), List.getD_eq_getElem?_getD, List.getElem?_drop,
        List.getD_eq_getElem?_getD, show m + (k - (off + m)) = k - off by omega]
    · rw [if_neg later]
      refine (bytes k small (inside.imp_right fun range => by omega)).trans ?_
      by_cases now : off ≤ k ∧ k < off + m
      · rw [if_pos now, if_pos (by omega), List.getD_eq_getElem?_getD, List.getD_eq_getElem?_getD,
          List.getElem?_take_of_lt (by omega)]
      · rw [if_neg now, if_neg (by omega)]
  · by_cases later : off + m ≤ k
    · exact covers' k later high
    · have here := covers k low (by omega)
      rw [grows'.keeps _ here]
      exact here
  · rw [rest' i inside fun k low high => elsewhere k (by omega) high,
      rest i inside fun k low high => elsewhere k low (by omega)]
  · have before := same fun k low high => present k low (by omega)
    rw [same' fun k low high => ?_, before]
    rw [grows.keeps _ (present k (by omega) high)]
    exact present k (by omega) high

/-- The loop of `inode_write`. -/
theorem wp_writeFrom {Q : Nat → Vol (InodeMem ν) → Prop} {src : List Byte}
    (works : Works forbidden sb lim ip inum A v) (enough : src.length ≤ fuel)
    (bound : off + src.length ≤ maxFile * bSize)
    (reaches : nDirect * bSize < off + src.length → far = true)
    (within : Within sb S far (A inum) R v)
    (fits : Fits lim v.size (S.card + far.toNat + (R.card + span off src.length)))
    (vacant : lim.spare → lacking v.data (A inum) off src.length ≤ (freeBlocks sb v.data).card)
    (next : ∀ A' v', Wrote forbidden sb lim ip inum A v off src A' v' →
      (∃ R' : Finset Nat, R'.card ≤ R.card + span off src.length ∧ Within sb S far (A' inum) R' v') →
      Q (off + src.length) v') :
    (volMachine forbidden).Wp (writeFrom ip fuel off src) v Q (Fails lim) := by
  induction fuel generalizing off src A v R Q with
  | zero =>
    obtain rfl : src = [] := List.length_eq_zero_iff.mp (by omega)
    exact .ret (next A v (works.wrote_nil off) ⟨R, Nat.le_refl _, within⟩)
  | succ fuel ih =>
    unfold writeFrom
    by_cases done : src = []
    · subst done
      exact .ret (next A v (works.wrote_nil off) ⟨R, Nat.le_refl _, within⟩)
    have nonempty : src.length ≠ 0 := fun zero => done (List.length_eq_zero_iff.mp zero)
    rw [if_neg (by simpa using done)]
    obtain ⟨m, chunk⟩ : ∃ m, m = min src.length (bSize - off % bSize) := ⟨_, rfl⟩
    have step : 0 < m ∧ m ≤ src.length ∧ m ≤ bSize - off % bSize := by
      unfold bSize at *
      omega
    have rounds := span_step nonempty chunk
    have below : off / bSize < maxFile := by
      unfold bSize at *
      omega
    have layout := works.layout
    have ends := layout.dataEnd_le
    have word := layout.word
    have first : lim.spare → missing v.data (A inum) (off / bSize) ≤ (freeBlocks sb v.data).card :=
      fun yes => Nat.le_trans (missing_le_lacking nonempty) (vacant yes)
    refine .seq (wp_bmap works below (fun high => reaches ?_) within (fits.mono (by omega)) first ?_)
    · unfold bSize at *
      omega
    intro r A' v' supplied within'
    have mapped := supplied.mapped
    have range := mapped.storage.range (mapped.block ▸ mapped.some)
    rw [mapped.block] at range
    have free : r ∉ v'.held := v'.unheld supplied.works.idle _
    have count := Finset.card_insert_le r R
    have room := within'.room (show Fits lim v'.size _ from supplied.size ▸ fits.mono (by omega))
    refine .seq (wp_bread (supplied.works.laid.home layout range.2) free (by simp [supplied.works.idle])
      room ?_)
    rw [← chunk]
    obtain ⟨w, written⟩ : ∃ w, w = v'.write r ((v'.data r).copy (off % bSize) m fun i => src.getD i 0) :=
      ⟨_, rfl⟩
    refine .seq (wp_logStore (Finset.mem_insert_self _ _) (by omega) (by omega)
      (v'.few_hold supplied.works.idle 1) (fun yes => (room yes).hold) supplied.works.up supplied.works.flag
      fun up busy => ?_)
    rw [write_hold]
    refine .seq (wp_brelse_hold free ?_)
    rw [← written]
    obtain ⟨chunked, same⟩ := supplied.write below step.1 step.2.2 step.2.1 (by omega) ⟨up, busy⟩ written
    have within'' : Within sb S far (A' inum) (insert r R) w := by
      refine ⟨within.bitmap, ?_⟩
      rw [written]
      exact Finset.insert_subset (Finset.mem_union_right _ (Finset.mem_insert_self ..)) within'.logged
    have length : (src.drop m).length = src.length - m := List.length_drop
    have taken : (src.take m).length = m := List.length_take_of_le step.2.1
    have cost := chunked.cost
    have later := mapped.lacking_step same nonempty chunk bound
    have alone := mapped.lacking_step same (Nat.pos_iff_ne_zero.mp step.1) (Nat.min_eq_left step.2.2).symm
      (by omega)
    rw [taken] at cost
    rw [Nat.sub_self, lacking_zero] at alone
    refine ih chunked.works (by omega) (by omega) (fun long => reaches (by omega)) within'' ?_ ?_ ?_
    · rw [length, chunked.size]
      exact fits.mono (by omega)
    · intro yes
      have enough := vacant yes
      rw [length]
      omega
    · intro A'' v'' wrote ⟨R', few, logged⟩
      rw [length] at few
      exact (show off + m + (src.drop m).length = off + src.length by omega) ▸ next A'' v''
        (chunked.append wrote step.2.1 (List.ne_nil_of_length_pos (by omega)) (by omega)) ⟨R', by omega, logged⟩

/-! ## Truncating -/

/-- The first `k` blocks of inode `inum` have been freed, since the state `v₀` in which the blocks
were given by `ref`. -/
structure Frees (sb : Superblock) (lim : Limits) (inum : Nat) (ref : Nat × Nat → Nat)
    (v₀ : Vol (InodeMem ν)) (k : Nat) (v : Vol (InodeMem ν)) : Prop where
  layout : Layout sb
  laid : v.Laid sb
  held : v.held = v₀.held
  up : v.up = lim.up
  flag : v.inTrans = lim.inTrans
  allotted : Allotted sb v.data (cleared ref inum k)
  frame : ∀ t, OffBitmap sb t → v.data t = v₀.data t
  logged : v.logged ⊆ v₀.logged ∪ sb.bitmap
  size : v.size = v₀.size

variable {ref : Nat × Nat → Nat} {v₀ : Vol (InodeMem ν)} {k : Nat}

section
variable (frees : Frees sb lim inum ref v₀ k v)
include frees

theorem Frees.skip (none : ref (inum, k) = 0) : Frees sb lim inum ref v₀ (k + 1) v := by
  refine { frees with allotted := ?_ }
  have same : cleared ref inum (k + 1) = cleared ref inum k := by
    rw [cleared_succ, update_eq_self_iff]
    rw [cleared, if_neg (by simp), none]
  rw [same]
  exact frees.allotted

theorem Frees.room (room : v₀.Room (v₀.logged ∪ sb.bitmap)) : v.Room (v₀.logged ∪ sb.bitmap) := by
  refine ⟨frees.logged, room.cache, ?_⟩
  rw [frees.size]
  exact room.log

/-- The inode cache is none of what has been freed. -/
theorem Frees.setAddrs (a : Nat → Nat) :
    Frees sb lim inum ref v₀ k (v.setAddrs ip a) := { frees with laid := frees.laid.again }

/-- Freeing the next block. -/
theorem wp_freeNext {Q : Unit → Vol (InodeMem ν) → Prop} (some : ref (inum, k) ≠ 0)
    (high : ∀ t ∈ v₀.held, sb.dataStart ≤ t) (few : v₀.held.card ≤ 1)
    (room : lim.roomy → v₀.Room (v₀.logged ∪ sb.bitmap))
    (next : ∀ v', Frees sb lim inum ref v₀ (k + 1) v' → v'.mem = v.mem → lim.up = true →
      lim.inTrans = true → Q () v') :
    (volMachine forbidden).Wp (blockFree (ref (inum, k))) v Q (Fails lim) := by
  have same : cleared ref inum k (inum, k) = ref (inum, k) := by
    rw [cleared, if_neg (by simp)]
  have range := frees.allotted.owned.range (inum, k) (same ▸ some)
  rw [same] at range
  have ends := frees.layout.dataEnd_le
  have inside : ref (inum, k) < sb.size := by omega
  have block := bblock_bounds (bitmap_of_lt inside)
  refine wp_blockFree frees.layout frees.laid inside (fun _ => ?_) (frees.held ▸ high)
    (frees.held ▸ few) (fun yes => frees.room (room yes)) frees.up frees.flag fun up busy _ => ?_
  · exact ((frees.allotted.owned.exact _ range.1).mpr ⟨(inum, k), same⟩).2
  · refine next _ ⟨frees.layout, frees.laid.write (by omega), frees.held, frees.up, frees.flag, ?_, ?_, ?_,
      frees.size⟩ rfl up busy
    · rw [cleared_succ]
      have allotted := frees.allotted.free frees.layout (x := (inum, k)) (same ▸ some)
      rwa [same] at allotted
    · intro t off
      refine (update_of_ne ?_ ..).trans (frees.frame t off)
      rintro rfl
      rcases off with low | above
      · omega
      · omega
    · refine Finset.insert_subset ?_ frees.logged
      exact Finset.mem_union_right _ (bblock_mem_bitmap inside)

end

/-- The addresses when the first `k` have been cleared. -/
def clearedAddrs (a : Nat → Nat) (k : Nat) : Nat → Nat := fun i => if i < k then 0 else a i

theorem clearedAddrs_succ (a : Nat → Nat) (k : Nat) :
    clearedAddrs a (k + 1) = update (clearedAddrs a k) k 0 := by
  funext i
  rw [update_apply]
  unfold clearedAddrs
  by_cases here : i = k
  · rw [if_pos here, if_pos (by omega)]
  · rw [if_neg here]
    exact if_congr (by omega) rfl rfl

/-- The first loop of `inode_trunc`. -/
theorem wp_truncDirect {a : Nat → Nat}
    (frees : Frees sb lim inum ref v₀ k v) (idle : v₀.held = ∅)
    (room : lim.roomy → v₀.Room (v₀.logged ∪ sb.bitmap)) (rounds : k + count = nDirect)
    (blocks : ∀ i, i < nDirect → ref (inum, i) = a i)
    (mem : v.mem = (v₀.setAddrs ip (clearedAddrs a k)).mem)
    (next : ∀ v', Frees sb lim inum ref v₀ nDirect v' →
      v'.mem = (v₀.setAddrs ip (clearedAddrs a nDirect)).mem → Q () v') :
    (volMachine forbidden).Wp (truncDirect ip count k) v Q (Fails lim) := by
  induction count generalizing k v with
  | zero =>
    obtain rfl : k = nDirect := by omega
    exact .ret (next v frees mem)
  | succ count ih =>
    unfold truncDirect
    have value : (v.mem.icache ip).addrs k = ref (inum, k) := by
      rw [mem, blocks k (by omega)]
      simp [Vol.setAddrs, Vol.setInode, clearedAddrs]
    refine .seq (wp_getInode ?_)
    rw [value]
    by_cases none : ref (inum, k) = 0
    · rw [if_neg (not_not.mpr none)]
      refine ih (frees.skip none) (by omega) ?_
      rw [mem, clearedAddrs_succ, update_eq_self_iff.mpr]
      rw [clearedAddrs, if_neg (by omega), ← blocks k (by omega), none]
    · rw [if_pos none]
      refine .seq (wp_freeNext frees none (by simp [idle]) (by simp [idle]) room fun v' frees' same _ _ => ?_)
      refine .seq (wp_setAddr ?_)
      have addrs : update (v'.mem.icache ip).addrs k 0 = clearedAddrs a (k + 1) := by
        rw [same, mem, clearedAddrs_succ]
        simp [Vol.setAddrs, Vol.setInode]
      rw [addrs]
      exact ih (frees'.setAddrs _) (by omega) (setAddrs_again (same.trans mem) _)

theorem Frees.skipTo (frees : Frees sb lim inum ref v₀ k v)
    (none : ∀ i, k ≤ i → i < k + count → ref (inum, i) = 0) :
    Frees sb lim inum ref v₀ (k + count) v := by
  induction count with
  | zero => exact frees
  | succ count ih =>
    have before := ih fun i low high => none i low (by omega)
    exact before.skip (none _ (by omega) (by omega))

/-- The loop of `inode_trunc` over the indirect block. -/
theorem wp_truncEntries {bytes : Bytes} {j : Nat}
    (frees : Frees sb lim inum ref v₀ (nDirect + j) v) (high : ∀ t ∈ v₀.held, sb.dataStart ≤ t)
    (few : v₀.held.card ≤ 1) (room : lim.roomy → v₀.Room (v₀.logged ∪ sb.bitmap))
    (rounds : j + count = nIndirect)
    (blocks : ∀ i, i < nIndirect → ref (inum, nDirect + i) = entry bytes i)
    (next : ∀ v', Frees sb lim inum ref v₀ maxFile v' → v'.mem = v.mem → Q () v') :
    (volMachine forbidden).Wp (truncEntries bytes count j) v Q (Fails lim) := by
  induction count generalizing j v with
  | zero =>
    obtain rfl : j = nIndirect := by omega
    exact .ret (next v frees rfl)
  | succ count ih =>
    unfold truncEntries
    rw [← blocks j (by omega)]
    by_cases none : ref (inum, nDirect + j) = 0
    · rw [if_neg (not_not.mpr none)]
      exact ih (frees.skip none) (by omega) next
    · rw [if_pos none]
      refine .seq (wp_freeNext frees none high few room fun v' frees' same _ _ => ?_)
      exact ih frees' (by omega) fun v'' later unchanged => next v'' later (unchanged.trans same)

theorem wp_inodeUpdate
    (layout : Layout sb) (laid : v.Laid sb) (idle : v.held = ∅)
    (named : (v.mem.icache ip).inum = inum) (below : inum < sb.ninodes)
    (room : lim.roomy → v.Room targets) (up : v.up = lim.up) (flag : v.inTrans = lim.inTrans)
    (next : lim.up = true → lim.inTrans = true → Q () (v.write (iblock inum)
      (storeDinode (v.data (iblock inum)) inum (v.mem.icache ip).toDinode))) :
    (volMachine forbidden).Wp (inodeUpdate ip) v Q (Fails lim) := by
  have fits := layout.fits
  have ends := layout.dataEnd_le
  have word := layout.word
  have start : iblock inum < sb.ninodes / ipb + 3 ∧ sb.ninodes / ipb + 4 ≤ sb.dataStart := by
    unfold iblock Superblock.dataStart bpb ipb
    omega
  have notSuper : 2 ≤ iblock inum := by
    unfold iblock ipb
    omega
  refine .seq (wp_getInode ?_)
  rw [named]
  exact @wp_rewrite _ _ _ _ _ _ _ (fun bytes => storeDinode bytes inum (v.mem.icache ip).toDinode)
    (laid.home layout (by omega)) (by simp [idle]) (by simp [idle]) (by omega) (by omega) room up flag
    next

/-- What `inode_trunc` leaves, once the blocks have been freed. -/
def Vol.truncated (v : Vol (InodeMem ν)) (ip inum : Nat) : Vol (InodeMem ν) :=
  let w := v.setInode ip { v.mem.icache ip with size := 0 }
  w.write (iblock inum) (storeDinode (w.data (iblock inum)) inum (w.mem.icache ip).toDinode)

theorem Works.frees (works : Works forbidden sb lim ip inum A v) :
    Frees sb lim inum (places v.data A) v 0 v := by
  refine ⟨works.layout, works.laid, rfl, works.up, works.flag, ?_, fun _ _ => rfl, Finset.subset_union_left,
    rfl⟩
  have same : cleared (places v.data A) inum 0 = places v.data A := by
    funext p
    rw [cleared, if_neg (by omega)]
  rw [same]
  exact works.storage

/-- Without an indirect block there is nothing left after the direct ones. -/
theorem Frees.skipIndirect (frees : Frees sb lim inum (places v₀.data A) v₀ nDirect v)
    (none : A inum nDirect = 0) : Frees sb lim inum (places v₀.data A) v₀ (maxFile + 1) v := by
  change Frees sb lim inum (places v₀.data A) v₀ (nDirect + (nIndirect + 1)) v
  refine frees.skipTo fun i low high => ?_
  by_cases last : i = maxFile
  · rw [last]
    exact blockNo_indirect.trans none
  · have inside : i < maxFile := by
      unfold maxFile at *
      omega
    exact (blockNo_entry low inside).trans (if_pos none)

/-- The part of `inode_trunc` that frees the indirect block and the blocks in it. -/
theorem wp_truncIndirect {p : InodeProg ν Unit} (works : Works forbidden sb lim ip inum A v₀)
    (frees : Frees sb lim inum (places v₀.data A) v₀ nDirect v)
    (mem : v.mem = (v₀.setAddrs ip (clearedAddrs (A inum) nDirect)).mem) (none : A inum nDirect ≠ 0)
    (room : lim.roomy → v₀.Room (v₀.logged ∪ sb.bitmap))
    (next : ∀ v', Frees sb lim inum (places v₀.data A) v₀ (maxFile + 1) v' →
      v'.mem = (v₀.setAddrs ip (clearedAddrs (A inum) (nDirect + 1))).mem →
      (volMachine forbidden).Wp p v' Q (Fails lim)) :
    (volMachine forbidden).Wp (do
      let a ← bread (A inum nDirect)
      truncEntries a nIndirect 0
      brelse (A inum nDirect)
      blockFree (A inum nDirect)
      setAddr ip nDirect 0
      p) v Q (Fails lim) := by
  obtain ⟨ind, indirect⟩ : ∃ ind, ind = A inum nDirect := ⟨_, rfl⟩
  rw [← indirect] at none ⊢
  have place : places v₀.data A (inum, maxFile) = ind := blockNo_indirect.trans indirect.symm
  have range := works.storage.owned.range (inum, maxFile) (place ▸ none)
  rw [place] at range
  have idle := frees.held.trans works.idle
  have high : ∀ t ∈ (v₀.hold ind).held, sb.dataStart ≤ t := by
    intro t member
    rw [v₀.hold_held works.idle, Finset.mem_singleton] at member
    omega
  have holding : Frees sb lim inum (places v₀.data A) (v₀.hold ind) nDirect (v.hold ind) :=
    { frees with laid := frees.laid.again, held := congrArg (insert ind) frees.held }
  have entries : ∀ i, i < nIndirect → places v₀.data A (inum, nDirect + i) = entry (v.data ind) i := by
    intro i inside
    rw [frees.frame ind (Or.inr range.1), indirect]
    refine (blockNo_entry (Nat.le_add_right ..) (Nat.add_lt_add_left inside nDirect)).trans ?_
    rw [if_neg (indirect ▸ none), Nat.add_sub_cancel_left]
  refine .seq (wp_bread (frees.laid.home works.layout range.2) (v.unheld idle _) (v.few_held idle 2)
    (fun yes => frees.room (room yes)) ?_)
  refine .seq (wp_truncEntries (j := 0) holding high (v₀.few_hold works.idle 0) (fun yes => (room yes).hold)
    (by decide) entries fun v₂ frees₂ mem₂ => ?_)
  refine .seq (wp_brelse (frees₂.held ▸ Finset.mem_insert_self ..) ?_)
  have released : Frees sb lim inum (places v₀.data A) v₀ maxFile (v₂.release ind) := by
    refine { frees₂ with laid := frees₂.laid.again, held := ?_ }
    rw [show (v₂.release ind).held = v₂.held.erase ind from rfl, frees₂.held, v₀.hold_held works.idle,
      works.idle]
    simp
  have freeing := @wp_freeNext ν forbidden sb lim inum (v₂.release ind) (places v₀.data A) v₀ maxFile
  rw [place] at freeing
  refine .seq (freeing released none (by simp [works.idle]) (by simp [works.idle]) room
    fun v₃ frees₃ mem₃ _ _ => ?_)
  refine .seq (wp_setAddr ?_)
  have mem' : v₃.mem = (v₀.setAddrs ip (clearedAddrs (A inum) nDirect)).mem := mem₃.trans (mem₂.trans mem)
  have addrs : update (v₃.mem.icache ip).addrs nDirect 0 = clearedAddrs (A inum) (nDirect + 1) := by
    rw [mem', clearedAddrs_succ]
    simp [Vol.setAddrs, Vol.setInode]
  rw [addrs]
  exact next _ (frees₃.setAddrs _) (setAddrs_again mem' _)

/-- `inode_trunc` frees all blocks of the inode. -/
theorem wp_inodeTrunc
    (works : Works forbidden sb lim ip inum A v) (named : (v.mem.icache ip).inum = inum)
    (below : inum < sb.ninodes) (room : lim.roomy → v.Room targets)
    (bitmap : sb.bitmap ⊆ targets)
    (next : ∀ v', Frees sb lim inum (places v.data A) v (maxFile + 1) v' →
      v'.mem = (v.setAddrs ip (clearedAddrs (A inum) (nDirect + 1))).mem → lim.up = true →
      lim.inTrans = true → Q () (v'.truncated ip inum)) :
    (volMachine forbidden).Wp (inodeTrunc ip) v Q (Fails lim) := by
  have room₀ : lim.roomy → v.Room (v.logged ∪ sb.bitmap) := by
    intro yes
    have old := room yes
    have le := Finset.card_le_card (Finset.union_subset old.logged bitmap)
    have cache := old.cache
    have log := old.log
    exact ⟨Finset.subset_union_left, by omega, by omega⟩
  have mem₀ : v.mem = (v.setAddrs ip (clearedAddrs (A inum) 0)).mem := by
    rw [show clearedAddrs (A inum) 0 = (v.mem.icache ip).addrs from works.addrs.symm, setAddrs_same]
  -- The last part, which is the same whether there is an indirect block or not.
  have finish : ∀ v', Frees sb lim inum (places v.data A) v (maxFile + 1) v' →
      v'.mem = (v.setAddrs ip (clearedAddrs (A inum) (nDirect + 1))).mem →
      (volMachine forbidden).Wp (do
        let inode ← getInode ip
        setInode ip { inode with size := 0 }
        inodeUpdate ip) v' Q (Fails lim) := by
    intro v' frees mem
    refine .seq (wp_getInode (.seq (wp_setInode ?_)))
    let w := v'.setInode ip { v'.mem.icache ip with size := 0 }
    have named' : (w.mem.icache ip).inum = inum := by
      simp [w, Vol.setInode, mem, Vol.setAddrs, named]
    have room' : lim.roomy → w.Room (v.logged ∪ sb.bitmap) := fun yes =>
      (frees.room (room₀ yes)).setInode ip _
    exact wp_inodeUpdate works.layout frees.laid.again
      (frees.held.trans works.idle) named' below room' frees.up frees.flag fun up busy =>
        next v' frees mem up busy
  unfold inodeTrunc
  refine .seq (wp_truncDirect works.frees works.idle room₀ (by decide) (fun i direct => blockNo_direct direct)
    mem₀ fun v₁ frees mem => ?_)
  refine .seq (wp_getInode ?_)
  have value : (v₁.mem.icache ip).addrs nDirect = A inum nDirect := by
    rw [mem]
    simp [Vol.setAddrs, Vol.setInode, clearedAddrs]
  dsimp only
  rw [value]
  by_cases none : A inum nDirect = 0
  · rw [if_neg (not_not.mpr none)]
    refine finish v₁ (frees.skipIndirect none) ?_
    rw [mem, clearedAddrs_succ, update_eq_self_iff.mpr]
    rw [clearedAddrs, if_neg (Nat.lt_irrefl _), none]
  · rw [if_pos none]
    exact wp_truncIndirect works frees mem none room₀ finish

end Runs

end OsAudio.Fs

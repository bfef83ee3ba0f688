import OsAudio.Lib.SlotTable
import OsAudio.Fs.Dirents
import OsAudio.Fs.FileCalls

/-!
# Directories as finite maps

A directory is a table of slots that hold a name with an inode number.  `dir_lookup` searches the
table, `dir_link` puts a new name into the first empty slot, and `sys_unlink` empties the slot that
`dir_lookup` has found.
-/
namespace OsAudio.Fs
open OsAudio.Lib
open Function (update update_self update_of_ne)

/-! ## The table -/

def direntSlot (entry : Dirent) : Option (List Byte × Nat) :=
  if entry.inum = 0 then none else some (nameOf entry.name, entry.inum)

/-- The slots of a directory with the content `data`. -/
def dirSlots (data : List Byte) (k : Nat) : Option (List Byte × Nat) := direntSlot (entryAt data k)

section Table
variable {data src name : List Byte} {k inum : Nat}

theorem dirSlots_splice (size : src.length = direntSize) (inside : direntSize * k ≤ data.length) :
    dirSlots (splice data (direntSize * k) src) =
      update (dirSlots data) k (direntSlot (direntOf src)) := by
  funext j
  unfold dirSlots
  rw [entryAt_splice size inside]
  by_cases here : j = k
  · rw [here, if_pos rfl, update_self]
  · rw [if_neg here, update_of_ne here]

theorem direntSlot_direntBytes (name : List Byte) (some : inum ≠ 0) (word : inum < 65536) :
    direntSlot (direntOf (direntBytes inum name)) = .some (nameOf (chars name), inum) := by
  obtain ⟨number, letters⟩ := direntOf_direntBytes inum name
  rw [Nat.mod_eq_of_lt word] at number
  unfold direntSlot
  rw [number, if_neg some, nameOf_congr letters]

theorem direntSlot_zeros : direntSlot (direntOf (List.replicate direntSize 0)) = none :=
  if_pos direntOf_zeros

theorem dirSlots_empty (empty : (entryAt data k).inum = 0) : dirSlots data k = none := if_pos empty

theorem Match.slot (matched : Match data name k) :
    dirSlots data k = some (nameOf (chars name), (entryAt data k).inum) := by
  unfold dirSlots direntSlot
  rw [if_neg matched.1, matched.2]

theorem match_of_slot (slot : dirSlots data k = some (nameOf (chars name), inum)) :
    Match data name k ∧ (entryAt data k).inum = inum := by
  unfold dirSlots direntSlot at slot
  split at slot
  · cases slot
  · next live =>
    obtain ⟨same, rfl⟩ := Prod.mk.inj (Option.some.inj slot)
    exact ⟨⟨live, same.symm⟩, rfl⟩

theorem slotFree_iff : SlotFree (dirSlots data) (nameOf (chars name)) ↔ ∀ j, ¬ Match data name j := by
  constructor
  · intro free j matched
    exact free _ ⟨j, matched.slot⟩
  · rintro missing v ⟨j, slot⟩
    exact missing j (match_of_slot slot).1

end Table

/-! ## The calls on a directory -/

/-- Entry `dp` is a locked directory with whole entries. -/
structure Directory (f : Files FsMem) (ninodes dp inum : Nat) : Prop extends
    Usable true f ninodes dp inum where
  dir : (f.node inum).type = tDir
  whole : (f.node inum).data.length % direntSize = 0

/-- What `inode_get` does to an entry of the cache. -/
inductive Got (f : Files FsMem) (i ip : Nat) (slot : Slot) : Prop
  | again (used : 0 < (f.slot ip).ref) (named : (f.slot ip).inum = i)
      (same : slot = { f.slot ip with ref := (f.slot ip).ref + 1 })
  | new (empty : (f.slot ip).ref = 0)
      (same : slot = { f.slot ip with inum := i, ref := 1, busy := false, valid := false })

/-- The entries of the cache that are free. -/
def freeEntries (f : Files FsMem) : Finset Nat := (Finset.range nInode).filter fun i => (f.slot i).ref = 0

/-- So many entries of the cache are free. -/
def CacheRoom (n : Nat) (f : Files FsMem) : Prop := n ≤ (freeEntries f).card

/-- Nothing is different but the fields of unused entries of the cache. -/
structure Kept (f g : Files FsMem) : Prop where
  node : g.node = f.node
  mem : g.mem = f.mem
  ref : ∀ i, (g.slot i).ref = (f.slot i).ref
  slot : ∀ i, 0 < (f.slot i).ref → g.slot i = f.slot i

section Calls
variable {ninodes : Nat} {forbidden : Mark → Bool} {t : Stocked FsMem} {f : Files FsMem}
  {dp inum i ip : Nat} {slot : Slot} {name : List Byte} {E : Stop → Stocked FsMem → Prop}

theorem stock_look {Q : InodeView → Stocked FsMem → Prop} (next : Q (t.files.slot ip).view t) :
    (stockMachine ninodes forbidden).Wp (look ip) t Q E := wp_stock rfl rfl next

/-- `inode_get` while an entry of the cache is free. -/
theorem CacheRoom.iget {Q : Nat → Stocked FsMem → Prop} (room : CacheRoom 1 t.files)
    (next : ∀ ip slot, Got t.files i ip slot → Q ip { t with files := t.files.setSlot ip slot }) :
    (stockMachine ninodes forbidden).Wp (iget i) t Q E := by
  have unfolded : filesMachine (some opLimit) ninodes forbidden (.get i) t.files = filesGet t.files i := rfl
  unfold filesGet at unfolded
  cases found : slotFor t.files.slot i with
  | some ip =>
    rw [found] at unfolded
    obtain ⟨used, named⟩ := slotFor_some found
    exact wp_stock rfl unfolded (next ip _ (.again used named rfl))
  | none =>
    rw [found] at unfolded
    cases free : freeSlot t.files.slot with
    | some ip =>
      rw [free] at unfolded
      exact wp_stock rfl unfolded (next ip _ (.new (freeSlot_some free).2 rfl))
    | none =>
      obtain ⟨j, member⟩ := Finset.card_pos.mp room
      obtain ⟨below, empty⟩ := Finset.mem_filter.mp member
      have absent := List.find?_eq_none.mp free j (List.mem_range.mpr (Finset.mem_range.mp below))
      exact absurd (decide_eq_true empty) absent

theorem Got.named (got : Got f i ip slot) : slot.inum = i := by
  cases got with
  | again _ named same => rw [same, ← named]
  | new _ same => rw [same]

theorem Got.ref (got : Got f i ip slot) : slot.ref = (f.slot ip).ref + 1 := by
  cases got with
  | again _ _ same => rw [same]
  | new empty same => rw [same, empty]; rfl

/-- A call that changes one entry takes at most that one. -/
theorem CacheRoom.setSlot {n : Nat} (room : CacheRoom (n + 1) f) (ip : Nat) (slot : Slot) :
    CacheRoom n (f.setSlot ip slot) := by
  have rest : (freeEntries f).erase ip ⊆ freeEntries (f.setSlot ip slot) := by
    intro j member
    obtain ⟨other, free⟩ := Finset.mem_erase.mp member
    obtain ⟨below, empty⟩ := Finset.mem_filter.mp free
    refine Finset.mem_filter.mpr ⟨below, ?_⟩
    exact (congrArg Slot.ref (update_of_ne other ..)).trans empty
  have less := Finset.card_le_card rest
  have most := Finset.pred_card_le_card_erase (s := freeEntries f) (a := ip)
  unfold CacheRoom at *
  omega

theorem CacheRoom.congr {n : Nat} {g : Files FsMem} (room : CacheRoom n f)
    (refs : ∀ j, (g.slot j).ref = (f.slot j).ref) : CacheRoom n g := by
  unfold CacheRoom freeEntries at *
  simpa only [refs] using room

/-- The directory is still locked after `inode_get`. -/
theorem Directory.got (directory : Directory f ninodes dp inum) (got : Got f i ip slot) :
    Directory (f.setSlot ip slot) ninodes dp inum := by
  have used := directory.used
  have counted : ∃ ref, 0 < ref ∧ (f.setSlot ip slot).slot dp = { f.slot dp with ref := ref } := by
    by_cases here : ip = dp
    · subst here
      cases got with
      | new empty _ => omega
      | again _ _ same => exact ⟨_, by omega, (update_self ..).trans same⟩
    · exact ⟨_, used, update_of_ne (Ne.symm here) ..⟩
  obtain ⟨ref, positive, same⟩ := counted
  exact ⟨directory.toUsable.counted positive same rfl rfl, directory.dir, directory.whole⟩

/-- `inode_put` right after `inode_get` does not free the inode. -/
theorem Got.quiet (got : Got f i ip slot) : ¬ (slot.ref = 1 ∧ slot.valid = true ∧ slot.nlink = 0) := by
  rintro ⟨last, valid, -⟩
  cases got with
  | again used _ same =>
    rw [same] at last
    change (f.slot ip).ref + 1 = 1 at last
    omega
  | new _ same =>
    rw [same] at valid
    cases valid

theorem Got.iput {Q : Unit → Stocked FsMem → Prop} (got : Got f i ip slot) (stock : Nat)
    (next : ∀ g, Kept f g → Q () ⟨g, stock⟩) :
    (stockMachine ninodes forbidden).Wp (iput ip) ⟨f.setSlot ip slot, stock⟩ Q E := by
  have self : (f.setSlot ip slot).slot ip = slot := update_self ..
  refine .op ?_
  change (Stocked.put ⟨f.setSlot ip slot, stock⟩ ip).Sat Q E
  unfold Stocked.put filesPut
  dsimp only
  rw [self, if_neg got.quiet, if_neg got.quiet]
  refine next _ ⟨rfl, rfl, fun j => ?_, fun j used => ?_⟩
  · by_cases here : j = ip
    · subst here
      refine (congrArg Slot.ref (update_self ..)).trans ?_
      change slot.ref - 1 = _
      rw [got.ref]
      omega
    · refine congrArg Slot.ref ((update_of_ne here ..).trans (update_of_ne here ..))
  · by_cases here : j = ip
    · subst here
      refine (update_self ..).trans ?_
      cases got with
      | again _ _ same =>
        rw [same]
        change { f.slot j with ref := (f.slot j).ref + 1 - 1 } = _
        rw [Int.add_sub_cancel]
      | new empty _ => omega
    · exact (update_of_ne here ..).trans (update_of_ne here ..)

/-- Reading an entry. -/
theorem Directory.iread_entry {k : Nat} {Q : Option (List Byte) → Stocked FsMem → Prop}
    (directory : Directory t.files ninodes dp inum)
    (inside : direntSize * (k + 1) ≤ (t.files.node inum).data.length)
    (next : ∀ bytes, bytes.length = direntSize → direntOf bytes = entryAt (t.files.node inum).data k →
      Q (some bytes) t) :
    (stockMachine ninodes forbidden).Wp (iread dp (direntSize * k) direntSize) t Q E := by
  rw [Nat.mul_add] at inside
  refine directory.iread (by decide) fun r delivered => ?_
  unfold Node.delivered at delivered
  rw [directory.dir, if_neg (by rw [not_or]; exact ⟨by decide, by omega⟩)] at delivered
  rw [delivered]
  refine next _ ?_ rfl
  rw [List.length_take, List.length_drop, Nat.min_eq_left]
  omega

section Lookup
variable {Q : Option (Nat × Nat) → Stocked FsMem → Prop}
  (directory : Directory t.files ninodes dp inum)
  (missing : (∀ j, ¬ Match (t.files.node inum).data name j) → Q none t)
  (found : ∀ j, Match (t.files.node inum).data name j →
    (stockMachine ninodes forbidden).Wp (iget (entryAt (t.files.node inum).data j).inum) t
      (fun ip => Q (some (ip, direntSize * j))) E)
include directory missing found

/-- The loop of `dir_lookup`. -/
theorem Directory.dirLookupFrom {count k : Nat}
    (ends : (t.files.node inum).data.length = direntSize * (k + count))
    (before : ∀ j < k, ¬ Match (t.files.node inum).data name j) :
    (stockMachine ninodes forbidden).Wp (dirLookupFrom dp name count (direntSize * k)) t Q E := by
  induction count generalizing k with
  | zero =>
    refine .ret (missing fun j matched => ?_)
    have live := lt_of_live matched.1
    refine before j ?_ matched
    rw [ends] at live
    exact Nat.lt_of_mul_lt_mul_left live
  | succ count ih =>
    refine .seq (directory.iread_entry ?_ fun bytes size entry => ?_)
    · rw [ends]
      exact Nat.mul_le_mul_left _ (by omega)
    dsimp only
    rw [if_neg (not_not.mpr size), entry]
    split
    · next hit =>
      refine .seq ((found k ⟨hit.1, (dirNamecmp_iff _ _).mp hit.2⟩).mono fun ip u post => ?_)
      exact .ret post
    · next miss =>
      have rest := @ih (k + 1) (by rw [ends]; congr 1; omega) fun j below matched => ?_
      · rw [Nat.mul_add, Nat.mul_one] at rest
        exact rest
      · rcases Nat.eq_or_lt_of_le (Nat.le_of_lt_succ below) with rfl | early
        · exact miss ⟨matched.1, (dirNamecmp_iff _ _).mpr matched.2⟩
        · exact before j early matched

/-- `dir_lookup` -/
theorem Directory.dirLookup : (stockMachine ninodes forbidden).Wp (dirLookup dp name) t Q E := by
  obtain ⟨type, size⟩ := directory.current ⟨directory.used, directory.loaded rfl⟩
  refine .seq (stock_look ?_)
  unfold Slot.view
  dsimp only
  rw [type, size, if_neg (not_not.mpr directory.dir)]
  refine @Directory.dirLookupFrom ninodes forbidden t dp inum name E Q directory missing found _ 0 ?_ nofun
  rw [Nat.zero_add]
  exact (entries_whole directory.whole).symm

end Lookup

/-- The search for an empty entry. -/
theorem Directory.emptyDirent {count k : Nat} {Q : Nat → Stocked FsMem → Prop}
    (directory : Directory t.files ninodes dp inum)
    (ends : (t.files.node inum).data.length = direntSize * (k + count))
    (before : ∀ j < k, (entryAt (t.files.node inum).data j).inum ≠ 0)
    (next : ∀ j, FirstEmpty (t.files.node inum).data j → Q (direntSize * j) t) :
    (stockMachine ninodes forbidden).Wp (emptyDirent dp count (direntSize * k)) t Q E := by
  induction count generalizing k with
  | zero => exact .ret (next k ⟨ends.ge, entryAt_end ends.le, before⟩)
  | succ count ih =>
    refine .seq (directory.iread_entry ?_ fun bytes size entry => ?_)
    · rw [ends]
      exact Nat.mul_le_mul_left _ (by omega)
    dsimp only
    rw [if_neg (not_not.mpr size), entry]
    split
    · next empty =>
      refine .ret (next k ⟨?_, empty, before⟩)
      rw [ends]
      exact Nat.mul_le_mul_left _ (by omega)
    · next live =>
      have rest := @ih (k + 1) (by rw [ends]; congr 1; omega) fun j below => ?_
      · rw [Nat.mul_add, Nat.mul_one] at rest
        exact rest
      · rcases Nat.eq_or_lt_of_le (Nat.le_of_lt_succ below) with rfl | early
        · exact live
        · exact before j early

/-- The transaction may still write an entry into the directory, and there are blocks for it. -/
structure EntryRoom (t : Stocked FsMem) (inum k : Nat) : Prop where
  begun : t.files.inTrans = true
  few : (t.files.charge inum 2).bill ≤ opLimit
  place : direntSize * k ≤ (t.files.node inum).data.length
  fits : direntSize * (k + 1) ≤ maxFile * bSize
  blocks : growth (t.files.node inum).data.length (direntSize * k) direntSize ≤ t.stock

/-- Overwriting an entry. -/
theorem Directory.iwrite_entry {k : Nat} {src : List Byte} {Q : Int → Stocked FsMem → Prop}
    (directory : Directory t.files ninodes dp inum) (size : src.length = direntSize)
    (room : EntryRoom t inum k)
    (next : ∀ u, Directory u.files ninodes dp inum →
      (u.files.node inum).data = splice (t.files.node inum).data (direntSize * k) src →
      (∀ j, (u.files.slot j).ref = (t.files.slot j).ref) → Q direntSize u) :
    (stockMachine ninodes forbidden).Wp (iwrite dp (direntSize * k) src) t Q E := by
  have file : (t.files.node inum).type ≠ tDev := by
    rw [directory.dir]
    decide
  have takes : (t.files.node inum).Takes (direntSize * k) src.length := by
    refine ⟨file, room.place, ?_⟩
    rw [size]
    exact room.fits
  have few : (t.files.charge inum (writeCost (direntSize * k) src.length)).bill ≤ opLimit := by
    rw [size]
    exact Nat.le_trans (Nat.add_le_add_left (Nat.add_le_add_left (writeCost_entry k) _) _) room.few
  refine directory.iwrite_stored ?_ takes room.begun few ?_ ?_
  · intro nil
    rw [nil] at size
    exact absurd size (by decide)
  · rw [size]
    exact room.blocks
  obtain ⟨usable, data, type⟩ := @Usable.store ninodes dp inum t.files (direntSize * k)
    (writeCost (direntSize * k) src.length) src directory.toUsable takes
  rw [size] at usable data type ⊢
  refine next _ ⟨usable, type.trans directory.dir, ?_⟩ data fun j => Files.store_ref
  rw [data]
  exact (length_splice_entry directory.whole size room.place).2

/-- `dir_link` -/
theorem Directory.dirLink {i : Nat} {Q : Bool → Stocked FsMem → Prop}
    (directory : Directory t.files ninodes dp inum) (cache : CacheRoom 1 t.files)
    (room : ∀ k, FirstEmpty (t.files.node inum).data k → EntryRoom t inum k)
    (taken : ∀ j g, Match (t.files.node inum).data name j → Kept t.files g → Q false { t with files := g })
    (added : (∀ j, ¬ Match (t.files.node inum).data name j) → ∀ k, FirstEmpty (t.files.node inum).data k →
      ∀ u, Directory u.files ninodes dp inum →
        (u.files.node inum).data = splice (t.files.node inum).data (direntSize * k) (direntBytes i name) →
        (∀ j, (u.files.slot j).ref = (t.files.slot j).ref) → Q true u) :
    (stockMachine ninodes forbidden).Wp (dirLink dp name i) t Q E := by
  obtain ⟨-, size⟩ := directory.current ⟨directory.used, directory.loaded rfl⟩
  refine .seq (directory.dirLookup (fun missing => ?_) fun j matched => cache.iget fun ip slot got => ?_)
  · refine .seq (stock_look (.seq ?_))
    change Machine.Wp _ (Fs.emptyDirent dp (entries (t.files.slot dp).size) 0) _ _ _
    rw [size]
    refine @Directory.emptyDirent ninodes forbidden t dp inum E _ 0 _ directory ?_ nofun fun k empty => ?_
    · rw [Nat.zero_add]
      exact (entries_whole directory.whole).symm
    refine .seq (directory.iwrite_entry (length_direntBytes i name) (room k empty) fun u after data refs => ?_)
    exact .ret (added missing k empty u after data refs)
  · exact .seq (got.iput t.stock fun g kept => .ret (taken j g matched kept))

end Calls

/-! ## The kernel -/

/-- The inode and the content of the directory of entry `dp`. -/
def dirInum (s : FsState) (dp : Nat) : Nat := (s.upper.icache dp).inum
def dirBytes (s : FsState) (dp : Nat) : List Byte := (nodeOf s.content (dirInum s dp)).data

/-- The blocks that the transaction has logged, other than those of the bitmap and of inode `inum`. -/
def loggedBesides (sb : Superblock) (s : FsState) (inum : Nat) : Finset Nat :=
  (Finset.range s.mem.log.n).image s.mem.log.sector \ (sb.bitmap ∪ {iblock inum})

/-- In a transaction, entry `dp` is a locked directory with whole entries, the log has room for a new
one, and `inode_get` finds entries for the directory's inodes in the cache. -/
structure DirReady (sb : Superblock) (s : FsState) (dp : Nat) : Prop where
  opened : s.mem.log.size ≠ 0
  begun : s.mem.log.busy = true
  few : (loggedBesides sb s (dirInum s dp)).card ≤ 3
  known : dirInum s dp < sb.ninodes
  used : 0 < (s.upper.icache dp).ref
  locked : (s.upper.icache dp).busy = true
  loaded : (s.upper.icache dp).valid = true
  directory : (nodeOf s.content (dirInum s dp)).type = tDir
  whole : (dirBytes s dp).length % direntSize = 0
  cache : 2 ≤ ((Finset.range nInode).filter fun i => (s.upper.icache i).ref = 0).card

/-- `dir_lookup` returns, and `found` is the number of the inode it returns. -/
def Finds (s : FsState) (dp : Nat) (name : List Byte) (found : Option Nat) : Prop :=
  ∃ r t, (fsMachine fun _ => false).run (dirLookup dp name) s = .ok r t ∧
    r.map (fun p => (t.upper.icache p.1).inum) = found

/-- Nothing is different but the fields of unused entries of the cache. -/
structure Untouched (sb : Superblock) (s t : FsState) : Prop where
  content : ∀ b < sb.dataEnd, t.content b = s.content b
  rest : t.upper.rest = s.upper.rest
  ref : ∀ i, (t.upper.icache i).ref = (s.upper.icache i).ref
  slot : ∀ i, 0 < (s.upper.icache i).ref → slotOf (t.upper.icache i) = slotOf (s.upper.icache i)

section Kernel
variable {sb : Superblock} {s : FsState} {f : Files FsMem} {t : Stocked FsMem} {dp inum : Nat}
  {name : List Byte}

theorem Supplies.serves (supplies : Supplies sb s t) : Serves (some opLimit) sb s t.files := by
  obtain ⟨v, presented, stocks⟩ := supplies
  exact ⟨v, presented, stocks.holds⟩

variable {v : Vol (InodeMem FsMem)} {limit : Option Nat} {s' : FsState}

theorem Shows.logged (presented : Shows s v) (up : v.up = true) :
    v.logged = (Finset.range s.mem.log.n).image s.mem.log.sector := by
  obtain ⟨b, caches, presents⟩ := presented
  have dirty := (presents.logState up).dirty
  rw [← presents.logged, caches.mem]
  ext sector
  rw [dirty sector]
  simp

/-- The files of a kernel in a transaction that works on inode `inum`, with all its free blocks. -/
def Files.charged (f : Files FsMem) (sb : Superblock) (s : FsState) (inum : Nat) : Stocked FsMem :=
  ⟨{ f with touched := {inum}, spent := (loggedBesides sb s inum).card }, (freeBlocks sb s.content).card⟩

theorem Serves.charged (serves : Serves none sb s f) (opened : s.mem.log.size ≠ 0)
    (few : (loggedBesides sb s inum).card ≤ 3) : Supplies sb s (f.charged sb s inum) := by
  have up := serves.up opened
  obtain ⟨v, presented, holds⟩ := serves
  have logged := presented.logged (holds.up.trans up)
  unfold Files.charged
  refine ⟨v, presented, ⟨{ holds with logged := ⟨loggedBesides sb s inum, Nat.le_refl _, ?_⟩, budget := ?_ }, ?_⟩⟩
  · rw [logged]
    intro b member
    rw [Finset.image_singleton, Finset.mem_union]
    by_cases own : b ∈ sb.bitmap ∪ {iblock inum}
    · exact Or.inl own
    · exact Or.inr (Finset.mem_sdiff.mpr ⟨member, own⟩)
  · unfold exceeds Files.bill
    dsimp only
    rw [Finset.card_singleton, Option.any_some, decide_eq_false_iff_not]
    unfold opLimit
    omega
  · rw [presented.freeBlocks holds.layout holds.laid]

theorem Serves.directory (serves : Serves none sb s f) (ready : DirReady sb s dp) :
    Directory (f.charged sb s (dirInum s dp)).files sb.ninodes dp (dirInum s dp) := by
  have dir := ready.directory
  have usable := serves.usableAt ready.opened ready.known ready.used ready.locked (fun _ => ready.loaded)
    (by change (nodeOf s.content (dirInum s dp)).type ≠ 0; rw [dir]; decide)
    fun device => absurd (dir.symm.trans device) (by decide)
  refine ⟨usable.congr rfl rfl rfl, ?_, ?_⟩
  · change (f.node (dirInum s dp)).type = tDir
    rw [serves.node ready.known]
    exact dir
  · change (f.node (dirInum s dp)).data.length % direntSize = 0
    rw [serves.node ready.known]
    exact ready.whole

theorem Serves.cacheRoom (serves : Serves limit sb s f) : freeEntries f =
    (Finset.range nInode).filter fun i => (s.upper.icache i).ref = 0 := by
  unfold freeEntries
  refine Finset.filter_congr fun i _ => ?_
  rw [serves.slot i]
  rfl

section
variable (bounded : Bounded (some opLimit) sb) (supplies : Supplies sb s t)
  (directory : Directory t.files sb.ninodes dp inum) (cache : CacheRoom 1 t.files)
include bounded supplies directory cache

/-- What `dir_lookup` answers in the kernel. -/
theorem Supplies.lookup (name : List Byte) :
    ((∀ j, ¬ Match (t.files.node inum).data name j) ∧
      ∃ s', (fsMachine fun _ => false).run (dirLookup dp name) s = .ok none s') ∨
    ∃ j ip slot s', Match (t.files.node inum).data name j ∧
      Got t.files (entryAt (t.files.node inum).data j).inum ip slot ∧
      (fsMachine fun _ => false).run (dirLookup dp name) s = .ok (some (ip, direntSize * j)) s' ∧
      Supplies sb s' { t with files := t.files.setSlot ip slot } := by
  have answer : (stockMachine sb.ninodes noLogBlock).Wp (dirLookup dp name) t
      (fun r u => ((∀ j, ¬ Match (t.files.node inum).data name j) ∧ r = none) ∨
        ∃ j ip slot, Match (t.files.node inum).data name j ∧
          Got t.files (entryAt (t.files.node inum).data j).inum ip slot ∧ r = some (ip, direntSize * j) ∧
          u = { t with files := t.files.setSlot ip slot })
      fun _ _ => False := by
    refine directory.dirLookup (fun missing => Or.inl ⟨missing, rfl⟩) fun j matched => ?_
    exact cache.iget fun ip slot got => Or.inr ⟨j, ip, slot, matched, got, rfl, rfl⟩
  obtain ⟨r, s', u, run, post, after⟩ := supplies.returns bounded answer
  rcases post with ⟨missing, rfl⟩ | ⟨j, ip, slot, matched, got, rfl, rfl⟩
  · exact Or.inl ⟨missing, s', run⟩
  · exact Or.inr ⟨j, ip, slot, s', matched, got, run, after⟩

theorem Supplies.finds_none_iff :
    Finds s dp name none ↔ SlotFree (dirSlots (t.files.node inum).data) (nameOf (chars name)) := by
  rw [slotFree_iff]
  rcases supplies.lookup bounded directory cache name with
    ⟨missing, s', run⟩ | ⟨j, ip, slot, s', matched, got, run, after⟩
  · exact iff_of_true ⟨none, s', run, rfl⟩ missing
  · refine iff_of_false ?_ fun missing => missing j matched
    rintro ⟨r, s'', other, absent⟩
    rw [run] at other
    cases other
    cases absent

theorem Supplies.finds_some_iff (distinct : SlotsDistinct (dirSlots (t.files.node inum).data))
    {v : Nat} :
    Finds s dp name (some v) ↔ SlotHas (dirSlots (t.files.node inum).data) (nameOf (chars name)) v := by
  rcases supplies.lookup bounded directory cache name with
    ⟨missing, s', run⟩ | ⟨j, ip, slot, s', matched, got, run, after⟩
  · refine iff_of_false ?_ (slotFree_iff.mpr missing v)
    rintro ⟨r, s'', other, present⟩
    rw [run] at other
    cases other
    cases present
  · have has : SlotHas (dirSlots (t.files.node inum).data) (nameOf (chars name))
        (entryAt (t.files.node inum).data j).inum := ⟨j, matched.slot⟩
    have named : (s'.upper.icache ip).inum = (entryAt (t.files.node inum).data j).inum := by
      have same := congrArg Slot.inum (after.serves.slot ip)
      refine same.symm.trans ?_
      exact (congrArg Slot.inum (update_self ..)).trans got.named
    constructor
    · rintro ⟨r, s'', other, present⟩
      rw [run] at other
      cases other
      obtain rfl := Option.some.inj present
      change SlotHas _ _ (s'.upper.icache ip).inum
      rwa [named]
    · intro holds
      refine ⟨_, s', run, ?_⟩
      rw [distinct.unique holds has, Option.map_some, named]

/-- Lookups of a name that two directories have the same for. -/
theorem Supplies.finds_congr {t' : Stocked FsMem}
    (distinct : SlotsDistinct (dirSlots (t.files.node inum).data)) (supplies' : Supplies sb s' t')
    (directory' : Directory t'.files sb.ninodes dp inum) (cache' : CacheRoom 1 t'.files)
    (distinct' : SlotsDistinct (dirSlots (t'.files.node inum).data))
    (same : ∀ v, SlotHas (dirSlots (t'.files.node inum).data) (nameOf (chars name)) v ↔
      SlotHas (dirSlots (t.files.node inum).data) (nameOf (chars name)) v) (found : Option Nat) :
    Finds s' dp name found ↔ Finds s dp name found := by
  cases found with
  | none =>
    rw [supplies'.finds_none_iff bounded directory' cache', supplies.finds_none_iff bounded directory cache]
    exact forall_congr' fun v => not_congr (same v)
  | some v =>
    rw [supplies'.finds_some_iff bounded directory' cache' distinct',
      supplies.finds_some_iff bounded directory cache distinct]
    exact same v

end

/-- What a program only reads is the same afterwards. -/
theorem reads_keep {α : Type} {p : LogProg (InodeMem FsMem) α} {w : Vol (InodeMem FsMem)} {a : α}
    {forbidden : Mark → Bool} {Q : α → Vol (InodeMem FsMem) → Prop} {E : Stop → Vol (InodeMem FsMem) → Prop}
    (confined : (volMachine forbidden).Confined LogOp.ReadsOnly p v Q E)
    (done : (volMachine forbidden).run p v = .ok a w) :
    w.data = v.data ∧ w.start = v.start ∧ w.size = v.size := by
  refine confined.keeps (I := fun u => u.data = v.data ∧ u.start = v.start ∧ u.size = v.size) ?_
    ⟨rfl, rfl, rfl⟩ done
  intro c u r u' calm same step
  cases c with
  | read sector =>
    change volRead u sector = _ at step
    unfold volRead at step
    split at step
    · cases step
    split at step
    · cases step
    split at step
    · cases step
    · cases step
      exact same
  | release sector =>
    change volRelease u sector = _ at step
    unfold volRelease at step
    split at step
    · cases step
      exact same
    · cases step
  | getMem =>
    cases step
    exact same
  | setMem mem =>
    cases step
    exact same
  | logWrite => exact calm.elim
  | beginTrans => exact calm.elim
  | commitTrans => exact calm.elim
  | logInit => exact calm.elim
  | mark => exact calm.elim

/-- A program that only reads keeps the contents of the disk. -/
theorem Supplies.content_kept {α : Type} {p : FsProg α} {a : α} (supplies : Supplies sb s t)
    (reads : ∀ v, Holds (some opLimit) sb v t.files →
      (volMachine fun _ => false).Confined LogOp.ReadsOnly (p.expand inodeImpl) v (fun _ _ => True)
        fun w _ => w ≠ .beyond)
    (run : (fsMachine fun _ => false).run p s = .ok a s') {b : Nat} (below : b < sb.dataEnd) :
    s'.content b = s.content b := by
  obtain ⟨v, presented, stocks⟩ := supplies
  have confined := reads v stocks.holds
  have done : (logMachine fun _ => false).run (p.expand inodeImpl) s = .ok a s' :=
    (Machine.run_expand (T := InodeSig FsMem) inodeImpl p s).trans run
  obtain ⟨w, reached, -, after⟩ := (cache_refines fun _ => false).of_ok (fun _ _ _ => trivial) presented
    confined.wp (fun _ _ answers => answers) done
  obtain ⟨data, start, size⟩ := reads_keep confined reached
  have home := stocks.holds.laid.home stocks.holds.layout below
  rw [after.content (by rwa [start, size]), presented.content home, data]

/-- `inode_put` that does not free the inode only changes the cache. -/
theorem reads_put {ip : Nat} {forbidden : Mark → Bool}
    (holds : Holds limit sb v f)
    (more : ¬ ((f.slot ip).ref = 1 ∧ (f.slot ip).valid = true ∧ (f.slot ip).nlink = 0)) :
    (volMachine forbidden).Confined LogOp.ReadsOnly ((iput ip).expand inodeImpl) v (fun _ _ => True)
      fun w _ => w ≠ .beyond := by
  have expanded : (iput ip).expand inodeImpl = inodePut ip :=
    Prog.expand_op (T := InodeSig FsMem) inodeImpl (.put ip)
  rw [expanded]
  rw [holds.slot ip] at more
  refine .seq (reads_getInode ?_)
  rw [if_neg (by exact more)]
  exact .seq (reads_getInode (.seq (reads_getMem (reads_setMem trivial))))

theorem Kept.untouched {g : Files FsMem} (kept : Kept f g)
    (serves : Serves limit sb s f) (after : Serves limit sb s' g)
    (content : ∀ b < sb.dataEnd, s'.content b = s.content b) : Untouched sb s s' := by
  refine ⟨content, ?_, fun i => ?_, fun i used => ?_⟩
  · rw [← after.mem, ← serves.mem, kept.mem]
  · have same := kept.ref i
    rw [after.slot, serves.slot] at same
    exact same
  · have same := kept.slot i
    rw [after.slot, serves.slot] at same
    exact same used

/-- `dir_link` for a name that the directory has. -/
theorem Supplies.link_taken (bounded : Bounded (some opLimit) sb) (supplies : Supplies sb s t)
    (directory : Directory t.files sb.ninodes dp inum) (cache : CacheRoom 1 t.files) {j : Nat}
    (matched : Match (t.files.node inum).data name j) (i : Nat) :
    ∃ s', (fsMachine fun _ => false).run (dirLink dp name i) s = .ok false s' ∧ Untouched sb s s' := by
  rcases supplies.lookup bounded directory cache name with
    ⟨missing, -⟩ | ⟨k, ip, slot, s', -, got, looked, after⟩
  · exact absurd matched (missing j)
  obtain ⟨_, s'', u, put, kept, last⟩ := after.returns bounded
    (@Got.iput sb.ninodes noLogBlock t.files _ ip slot (fun _ _ => False) (fun _ u => Kept t.files u.files) got
      t.stock fun g kept => kept)
  refine ⟨s'', ?_, kept.untouched supplies.serves last.serves fun b below => ?_⟩
  · unfold dirLink
    rw [Machine.run_bind_ok looked]
    exact Machine.run_bind_ok put
  · have first := supplies.content_kept (fun v holds => holds.reads_dirLookup
      ⟨directory.used, directory.loaded rfl⟩ name) looked below
    have second := after.content_kept (fun v holds => reads_put holds ?_) put below
    · exact second.trans first
    · rw [show (t.files.setSlot ip slot).slot ip = slot from update_self ..]
      exact got.quiet

/-- `dir_link` for a new name. -/
theorem Supplies.link_added (bounded : Bounded (some opLimit) sb) (supplies : Supplies sb s t)
    (directory : Directory t.files sb.ninodes dp inum) (cache : CacheRoom 1 t.files)
    (missing : ∀ j, ¬ Match (t.files.node inum).data name j)
    (room : ∀ k, FirstEmpty (t.files.node inum).data k → EntryRoom t inum k) (i : Nat) :
    ∃ s' u k, (fsMachine fun _ => false).run (dirLink dp name i) s = .ok true s' ∧
      FirstEmpty (t.files.node inum).data k ∧ Supplies sb s' u ∧ Directory u.files sb.ninodes dp inum ∧
      (u.files.node inum).data = splice (t.files.node inum).data (direntSize * k) (direntBytes i name) ∧
      ∀ j, (u.files.slot j).ref = (t.files.slot j).ref := by
  have links : (stockMachine sb.ninodes noLogBlock).Wp (dirLink dp name i) t
      (fun r u => r = true ∧ ∃ k, FirstEmpty (t.files.node inum).data k ∧
        Directory u.files sb.ninodes dp inum ∧
        (u.files.node inum).data = splice (t.files.node inum).data (direntSize * k) (direntBytes i name) ∧
        ∀ j, (u.files.slot j).ref = (t.files.slot j).ref)
      fun _ _ => False := by
    refine directory.dirLink cache room (fun j g matched => absurd matched (missing j)) ?_
    exact fun _ k first u after data refs => ⟨rfl, k, first, after, data, refs⟩
  obtain ⟨r, s', u, run, ⟨rfl, k, first, after, data, refs⟩, supplied⟩ := supplies.returns bounded links
  exact ⟨s', u, k, run, first, supplied, after, data, refs⟩

/-- An entry that is in use may always be overwritten. -/
theorem Directory.entryRoom {f : Files FsMem} {stock k : Nat} (directory : Directory f sb.ninodes dp inum)
    (begun : f.inTrans = true) (few : (f.charge inum 2).bill ≤ opLimit)
    (live : (entryAt (f.node inum).data k).inum ≠ 0) : EntryRoom ⟨f, stock⟩ inum k := by
  have below := lt_of_live live
  have small := directory.small
  have ends : direntSize * (k + 1) ≤ (f.node inum).data.length := by
    have whole := directory.whole
    unfold direntSize at *
    omega
  refine ⟨begun, few, below.le, ends.trans small, ?_⟩
  unfold growth
  rw [Nat.mul_add, Nat.mul_one] at ends
  rw [Nat.max_eq_left ends, Nat.sub_self]
  exact Nat.zero_le _

end Kernel

/-- A name that `dir_link` stores whole. -/
structure FileName (name : List Byte) : Prop where
  nonempty : name ≠ []
  short : name.length < dirSiz
  terminated : 0 ∉ name

theorem FileName.nameOf_eq {name : List Byte} (good : FileName name) : nameOf (chars name) = name := by
  rw [nameOf_chars good.terminated, List.take_of_length_le good.short.le]

/-- Entry `dp` is a directory with distinct names, in a transaction that may change an entry of it. -/
structure Listing (sb : Superblock) (s : FsState) (t : Stocked FsMem) (dp inum : Nat) : Prop extends
    Directory t.files sb.ninodes dp inum where
  supplies : Supplies sb s t
  cache : CacheRoom 2 t.files
  distinct : SlotsDistinct (dirSlots (t.files.node inum).data)
  begun : t.files.inTrans = true
  few : (t.files.charge inum 2).bill ≤ opLimit

section Map
variable {sb : Superblock} {s : FsState} {f : Files FsMem} {t : Stocked FsMem} {dp inum i : Nat}
  {name : List Byte}

theorem Serves.listing (serves : Serves none sb s f) (ready : DirReady sb s dp)
    (distinct : SlotsDistinct (dirSlots (dirBytes s dp))) :
    Listing sb s (f.charged sb s (dirInum s dp)) dp (dirInum s dp) := by
  refine ⟨serves.directory ready, serves.charged ready.opened ready.few, ?_, ?_,
    serves.busy.symm.trans ready.begun, ?_⟩
  · unfold CacheRoom
    change 2 ≤ (freeEntries f).card
    rw [serves.cacheRoom]
    exact ready.cache
  · change SlotsDistinct (dirSlots (f.node (dirInum s dp)).data)
    rw [serves.node ready.known]
    exact distinct
  · have few := ready.few
    unfold Files.charged Files.charge Files.bill
    dsimp only
    rw [Finset.insert_eq_of_mem (Finset.mem_singleton_self _), Finset.card_singleton]
    unfold opLimit
    omega

theorem Directory.bytes (directory : Directory t.files sb.ninodes dp inum) (supplies : Supplies sb s t) :
    dirBytes s dp = (t.files.node inum).data := by
  have serves := supplies.serves
  have named := directory.named
  rw [serves.slot] at named
  change dirInum s dp = inum at named
  unfold dirBytes
  rw [named, serves.node directory.known]

section
variable (listing : Listing sb s t dp inum)
include listing

theorem Listing.one : CacheRoom 1 t.files :=
  Nat.le_of_succ_le listing.cache

section
variable (bounded : Bounded (some opLimit) sb)
include bounded

theorem Listing.found_iff {v : Nat} :
    Finds s dp name (some v) ↔ SlotHas (dirSlots (t.files.node inum).data) (nameOf (chars name)) v :=
  listing.supplies.finds_some_iff bounded listing.toDirectory listing.one listing.distinct

theorem Listing.absent_iff :
    Finds s dp name none ↔ SlotFree (dirSlots (t.files.node inum).data) (nameOf (chars name)) :=
  listing.supplies.finds_none_iff bounded listing.toDirectory listing.one

theorem Listing.answers (name : List Byte) : ∃ found, Finds s dp name found := by
  rcases listing.supplies.lookup bounded listing.toDirectory listing.one name with
    ⟨-, s', run⟩ | ⟨j, ip, slot, s', -, -, run, -⟩
  · exact ⟨none, none, s', run, rfl⟩
  · exact ⟨_, _, s', run, rfl⟩

/-- `dir_link` adds a new name. -/
theorem Listing.link (good : FileName name) (some : i ≠ 0) (word : i < 65536)
    (room : ∀ k, FirstEmpty (t.files.node inum).data k → EntryRoom t inum k)
    (absent : Finds s dp name none) :
    ∃ s' k, (fsMachine fun _ => false).run (dirLink dp name i) s = .ok true s' ∧
      FirstEmpty (dirBytes s dp) k ∧
      dirBytes s' dp = splice (dirBytes s dp) (direntSize * k) (direntBytes i name) ∧
      SlotsDistinct (dirSlots (dirBytes s' dp)) ∧ Finds s' dp name (.some i) ∧
      ∀ other, 0 ∉ other → other ≠ name → ∀ found, Finds s' dp other found ↔ Finds s dp other found := by
  have free := (listing.absent_iff bounded).mp absent
  obtain ⟨s', u, k, run, first, supplied, after, data, refs⟩ := listing.supplies.link_added bounded
    listing.toDirectory listing.one (slotFree_iff.mp free) room i
  have table := @dirSlots_splice (t.files.node inum).data (direntBytes i name) k (length_direntBytes ..)
    first.place
  rw [direntSlot_direntBytes name some word, ← data] at table
  have distinct : SlotsDistinct (dirSlots (u.files.node inum).data) := by
    rw [table]
    exact listing.distinct.put free
  have cache : CacheRoom 1 u.files := listing.one.congr refs
  refine ⟨s', k, run, ?_⟩
  rw [listing.bytes listing.supplies, after.bytes supplied]
  refine ⟨first, data, distinct, ?_, fun other terminated different => ?_⟩
  · rw [supplied.finds_some_iff bounded after cache distinct, table, slotHas_put (dirSlots_empty first.empty)]
    exact Or.inl ⟨rfl, rfl⟩
  · refine listing.supplies.finds_congr bounded listing.toDirectory listing.one listing.distinct supplied
      after cache distinct fun v => ?_
    rw [table, slotHas_put (dirSlots_empty first.empty), good.nameOf_eq]
    exact or_iff_right fun same => nameOf_chars_ne good.short terminated different same.1

/-- Zeros at the offset that `dir_lookup` reports remove the name. -/
theorem Listing.erase (good : FileName name) {ip off : Nat} {s' : FsState}
    (looked : (fsMachine fun _ => false).run (dirLookup dp name) s = .ok (.some (ip, off)) s') :
    ∃ s'', (fsMachine fun _ => false).run (iwrite dp off (List.replicate direntSize 0)) s' =
        .ok direntSize s'' ∧
      Finds s'' dp name none ∧
      ∀ other, 0 ∉ other → other ≠ name → ∀ found, Finds s'' dp other found ↔ Finds s dp other found := by
  rcases listing.supplies.lookup bounded listing.toDirectory listing.one name with
    ⟨-, _, none⟩ | ⟨k, jp, slot, _, matched, got, run, between⟩
  · rw [none] at looked
    cases looked
  rw [run] at looked
  cases looked
  have directory := listing.got got
  have zeros : (stockMachine sb.ninodes noLogBlock).Wp
      (iwrite dp (direntSize * k) (List.replicate direntSize 0)) { t with files := t.files.setSlot ip slot }
      (fun n u => n = direntSize ∧ Directory u.files sb.ninodes dp inum ∧
        (u.files.node inum).data = splice (t.files.node inum).data (direntSize * k)
          (List.replicate direntSize 0) ∧
        ∀ j, (u.files.slot j).ref = ((t.files.setSlot ip slot).slot j).ref)
      fun _ _ => False := by
    refine directory.iwrite_entry List.length_replicate
      (directory.entryRoom listing.begun listing.few matched.1) ?_
    exact fun u after data refs => ⟨rfl, after, data, refs⟩
  obtain ⟨n, s'', u, wrote, ⟨rfl, after, data, refs⟩, supplied⟩ := between.returns bounded zeros
  have table := @dirSlots_splice (t.files.node inum).data (List.replicate direntSize 0) k List.length_replicate
    (lt_of_live matched.1).le
  rw [direntSlot_zeros, ← data] at table
  have distinct : SlotsDistinct (dirSlots (u.files.node inum).data) := by
    rw [table]
    exact listing.distinct.erase
  have cache : CacheRoom 1 u.files := (listing.cache.setSlot ip slot).congr refs
  refine ⟨s'', wrote, ?_, fun other terminated different => ?_⟩
  · rw [supplied.finds_none_iff bounded after cache, table]
    intro v has
    exact ((listing.distinct.has_erase matched.slot _ _).mp has).1 rfl
  · refine listing.supplies.finds_congr bounded listing.toDirectory listing.one listing.distinct supplied
      after cache distinct fun v => ?_
    rw [table, listing.distinct.has_erase matched.slot, good.nameOf_eq]
    exact and_iff_right (nameOf_chars_ne good.short terminated different)

end

end

end Map

section Result
variable {sb : Superblock} {s : FsState} {f : Files FsMem} {dp inum : Nat} {name : List Byte}

/-- A directory whose names are distinct is a finite map from names to inode numbers, in which
`dir_lookup` looks a name up, `dir_link` adds a new name and zeros at the offset that `dir_lookup`
reports remove one. -/
theorem directory_is_map (bounded : Bounded (some opLimit) sb) (serves : Serves none sb s f)
    (ready : DirReady sb s dp) (distinct : SlotsDistinct (dirSlots (dirBytes s dp))) (good : FileName name)
    (some : inum ≠ 0) (word : inum < 65536)
    (room : ∀ k, FirstEmpty (dirBytes s dp) k → direntSize * (k + 1) ≤ maxFile * bSize ∧
      growth (dirBytes s dp).length (direntSize * k) direntSize ≤ (freeBlocks sb s.content).card) :
    (∀ any, ∃ found, Finds s dp any found) ∧
    (∀ old, Finds s dp name (.some old) →
      ∃ t, (fsMachine fun _ => false).run (dirLink dp name inum) s = .ok false t ∧ Untouched sb s t) ∧
    (Finds s dp name none →
      ∃ t k, (fsMachine fun _ => false).run (dirLink dp name inum) s = .ok true t ∧
        FirstEmpty (dirBytes s dp) k ∧
        dirBytes t dp = splice (dirBytes s dp) (direntSize * k) (direntBytes inum name) ∧
        SlotsDistinct (dirSlots (dirBytes t dp)) ∧ Finds t dp name (.some inum) ∧
        ∀ other, 0 ∉ other → other ≠ name → ∀ found, Finds t dp other found ↔ Finds s dp other found) ∧
    ∀ ip off s', (fsMachine fun _ => false).run (dirLookup dp name) s = .ok (.some (ip, off)) s' →
      ∃ t, (fsMachine fun _ => false).run (iwrite dp off (List.replicate direntSize 0)) s' =
          .ok direntSize t ∧
        Finds t dp name none ∧
        ∀ other, 0 ∉ other → other ≠ name → ∀ found, Finds t dp other found ↔ Finds s dp other found := by
  have listing := serves.listing ready distinct
  have bytes := listing.bytes listing.supplies
  refine ⟨listing.answers bounded, fun old found => ?_, fun absent => ?_, fun ip off s' => ?_⟩
  · obtain ⟨j, slot⟩ := (listing.found_iff bounded).mp found
    exact listing.supplies.link_taken bounded listing.toDirectory listing.one (match_of_slot slot).1 inum
  · refine listing.link bounded good some word (fun k first => ?_) absent
    have place := first.place
    rw [← bytes] at first
    obtain ⟨fits, blocks⟩ := room k first
    refine ⟨listing.begun, listing.few, place, fits, ?_⟩
    rw [← bytes]
    exact blocks
  · exact listing.erase bounded good

end Result

/-! ## The root directory of a small disk -/

/-- A transaction that works on the root directory. -/
def openRoot : FsProg Nat := do
  begin
  let dp ← iget rootIno
  ilock dp
  pure dp

/-- The kernel with the locked root directory, after a process has created a file. -/
def rootLocked : FsState :=
  ((fsMachine noLogBlock).run (session creating >>= fun _ => openRoot) (booted roomyDisk)).state

theorem rootLocked_state :
    ((fsMachine noLogBlock).run (session creating >>= fun _ => openRoot) (booted roomyDisk)).result = some 0 ∧
    (∀ e ∈ (fsMachine noLogBlock).trace (session creating >>= fun _ => openRoot) (booted roomyDisk),
      Proper 16 e.2 e.1) ∧
    (rootLocked.mem.log.size ≠ 0 ∧ rootLocked.mem.log.busy = true ∧ rootLocked.mem.log.n = 0) ∧
    (dirInum rootLocked 0 = 1 ∧ 0 < (rootLocked.upper.icache 0).ref ∧
      (rootLocked.upper.icache 0).busy = true ∧ (rootLocked.upper.icache 0).valid = true) ∧
    (nodeOf rootLocked.content 1).type = tDir ∧
    (dirBytes rootLocked 0).length = 512 ∧
    (∀ i < 32, 3 ≤ i → (entryAt (dirBytes rootLocked 0) i).inum = 0) ∧
    (∀ i < 3, ∀ j < 3, (dirSlots (dirBytes rootLocked 0) i).map Prod.fst =
      (dirSlots (dirBytes rootLocked 0) j).map Prod.fst → i = j) ∧
    2 ≤ ((Finset.range nInode).filter fun i => (rootLocked.upper.icache i).ref = 0).card ∧
    ((fsMachine fun _ => false).run (dirLookup 0 [0x62]) rootLocked).result = some none := by decide +kernel

theorem rootLocked_serves : ∃ files, Serves none ⟨200, 184, 16, 10⟩ rootLocked files := by
  obtain ⟨returned, proper, -⟩ := rootLocked_state
  have start : Serves none ⟨200, 184, 16, 10⟩ (booted roomyDisk) _ :=
    serves_booted roomyDisk_rooted.formatted roomyDisk_rooted.noHoles rfl
  exact start.run rfl proper (Outcome.eq_ok_of_result returned)

theorem rootLocked_ready : DirReady ⟨200, 184, 16, 10⟩ rootLocked 0 := by
  obtain ⟨-, -, ⟨opened, begun, clean⟩, ⟨inum, used, locked, loaded⟩, type, length, -, -, cache, -⟩ := rootLocked_state
  refine ⟨opened, begun, ?_, ?_, used, locked, loaded, ?_, ?_, cache⟩
  · unfold loggedBesides
    rw [clean, Finset.range_zero, Finset.image_empty, Finset.empty_sdiff, Finset.card_empty]
    exact Nat.zero_le 3
  · rw [inum]
    decide
  · rw [inum]
    exact type
  · rw [length]
    decide

theorem rootLocked_distinct : SlotsDistinct (dirSlots (dirBytes rootLocked 0)) := by
  obtain ⟨-, -, -, -, -, length, rest, names, -⟩ := rootLocked_state
  have below : ∀ i p, dirSlots (dirBytes rootLocked 0) i = some p → i < 3 := by
    intro i p slot
    by_contra late
    have empty : (entryAt (dirBytes rootLocked 0) i).inum = 0 := by
      by_cases inside : i < 32
      · exact rest i inside (Nat.not_lt.mp late)
      · exact entryAt_end (by rw [length]; unfold direntSize; omega)
    rw [dirSlots_empty empty] at slot
    cases slot
  intro i j k v w left right
  refine names i (below i _ left) j (below j _ right) ?_
  rw [left, right]
  rfl

/-- The root directory gets a second name for the new file. -/
theorem rootLocked_links :
    (∃ files, Serves none ⟨200, 184, 16, 10⟩ rootLocked files) ∧ DirReady ⟨200, 184, 16, 10⟩ rootLocked 0 ∧
    ∃ t, (fsMachine fun _ => false).run (dirLink 0 [0x62] 2) rootLocked = .ok true t ∧
      Finds t 0 [0x62] (some 2) := by
  obtain ⟨files, serves⟩ := rootLocked_serves
  refine ⟨⟨files, serves⟩, rootLocked_ready, ?_⟩
  obtain ⟨-, -, -, -, -, length, rest, -, -, without⟩ := rootLocked_state
  have absent : Finds rootLocked 0 [0x62] none :=
    ⟨none, _, Outcome.eq_ok_of_result without, rfl⟩
  have map := @directory_is_map _ _ _ 0 2 [0x62] roomy_bounded serves rootLocked_ready rootLocked_distinct
    ⟨by decide, by decide, by decide⟩ (by decide) (by decide) fun k first => ?_
  · obtain ⟨t, k, run, -, -, -, found, -⟩ := map.2.2.1 absent
    exact ⟨t, run, found⟩
  have early : k ≤ 3 := by
    by_contra late
    exact first.before 3 (Nat.not_le.mp late) (rest 3 (by decide) (Nat.le_refl 3))
  have limit := maxFile_bytes.1
  rw [length, limit]
  unfold direntSize
  refine ⟨by omega, ?_⟩
  unfold growth
  rw [Nat.max_eq_left (by omega), Nat.sub_self]
  exact Nat.zero_le _

end OsAudio.Fs

import OsAudio.Fs.Supply

/-!
# `file_read` and `file_write` as whole calls

`file_write` cuts its bytes into pieces of `maxWrite` bytes and gives each piece a transaction of its
own.  With enough free blocks the calls return, and what they return and leave in the file is a
function of the file and the offset.
-/
namespace OsAudio.Fs
open OsAudio.Lib
open Function (update update_self update_of_ne)

/-! ## What the calls do to a file -/

/-- How many of `n` bytes `file_write` puts into the file: all, or the pieces that fit. -/
def Node.written (node : Node) (off n : Nat) : Nat :=
  if node.type = tDev ∨ node.data.length < off then 0
  else if off + n ≤ maxFile * bSize then n
  else (maxFile * bSize - off) / maxWrite * maxWrite

/-- The content after `file_write`. -/
def Node.wrote (node : Node) (off : Nat) (src : List Byte) : List Byte :=
  splice node.data off (src.take (node.written off src.length))

/-- How many blocks `file_write` takes. -/
def Node.demand (node : Node) (off n : Nat) : Nat :=
  if node.data.length < off then 0 else growth node.data.length off (node.written off n)

/-- What `file_read` delivers. -/
def Node.delivered (node : Node) (off n : Nat) : Option (List Byte) :=
  if node.type = tDev ∨ node.data.length < off then none else some ((node.data.drop off).take n)

theorem maxFile_bytes : maxFile * bSize = 71680 ∧ maxWrite = 1536 := by decide

theorem blocksFor_mono {a b : Nat} (le : a ≤ b) : blocksFor a ≤ blocksFor b := by
  unfold blocksFor nDirect bSize
  split_ifs <;> omega

/-- Two writes, one after the other, take the blocks that one write of all bytes takes. -/
theorem growth_add (size off a b : Nat) :
    growth size off (a + b) = growth size off a + growth (max size (off + a)) (off + a) b := by
  have first : blocksFor size ≤ blocksFor (max size (off + a)) := blocksFor_mono (by omega)
  have second : blocksFor (max size (off + a)) ≤ blocksFor (max size (off + (a + b))) :=
    blocksFor_mono (by omega)
  have whole : max (max size (off + a)) (off + a + b) = max size (off + (a + b)) := by omega
  unfold growth
  rw [whole]
  omega

section Written
variable {node after : Node} {off n : Nat} {src : List Byte}

theorem Node.written_le : node.written off n ≤ n := by
  unfold Node.written
  split
  · exact Nat.zero_le _
  split
  · exact Nat.le_refl _
  · have := Nat.div_mul_le_self (maxFile * bSize - off) maxWrite
    omega

/-- All bytes are written exactly if there are none or the inode takes them. -/
theorem Node.written_eq_iff (small : node.data.length ≤ maxFile * bSize) :
    node.written off n = n ↔ n = 0 ∨ node.Takes off n := by
  unfold Node.written Node.Takes
  split
  · next refused => omega
  next file =>
  rw [not_or, Nat.not_lt] at file
  split
  · next fits => exact iff_of_true rfl (Or.inr ⟨file.1, file.2, fits⟩)
  · next long =>
    have := Nat.div_mul_le_self (maxFile * bSize - off) maxWrite
    omega

theorem Node.Takes.written (takes : node.Takes off n) : node.written off n = n := by
  unfold Node.written
  rw [if_neg (by have := takes.1; have := takes.2; omega), if_pos takes.2.2]

theorem Node.Takes.wrote (takes : node.Takes off src.length) : node.wrote off src = splice node.data off src := by
  unfold Node.wrote
  rw [takes.written, List.take_length]

/-- A first piece that the inode does not take is the last one. -/
theorem Node.written_refused (refused : ¬ node.Takes off (min maxWrite n)) :
    node.written off n = 0 := by
  obtain ⟨whole, piece⟩ := maxFile_bytes
  unfold Node.written
  split
  · rfl
  next file =>
  rw [not_or, Nat.not_lt] at file
  unfold Node.Takes at refused
  rw [whole] at refused ⊢
  rw [piece] at refused ⊢
  rw [if_neg (by omega)]
  omega

theorem Node.wrote_of_written_zero (none : node.written off src.length = 0) :
    node.wrote off src = node.data := by
  unfold Node.wrote
  rw [none, List.take_zero, splice_nil]

theorem Node.length_wrote (inside : off ≤ node.data.length) :
    (node.wrote off src).length = max node.data.length (off + node.written off src.length) := by
  unfold Node.wrote
  rw [length_splice inside, List.length_take, Nat.min_eq_left Node.written_le]

/-- That `m` of `m + n` bytes are written before the others makes no difference: no byte is taken,
or all fit, or the first ones are whole pieces of `file_write`. -/
def Node.Apart (node : Node) (off m n : Nat) : Prop :=
  ¬ (node.type = tDev ∨ node.data.length < off) →
    off + (m + n) ≤ maxFile * bSize ∨ node.Takes off m ∧ maxWrite ∣ m

theorem Node.Apart.takes {m : Nat} (apart : node.Apart off m n)
    (file : ¬ (node.type = tDev ∨ node.data.length < off)) : node.Takes off m := by
  rcases apart file with all | pieces
  · rw [not_or, Nat.not_lt] at file
    exact ⟨file.1, file.2, by omega⟩
  · exact pieces.1

/-- After the first bytes, the rest is written as if all were written at once. -/
theorem Node.written_append (type : after.type = node.type) (data : after.data = node.wrote off src)
    (apart : node.Apart off src.length n) :
    node.written off (src.length + n) =
      node.written off src.length + after.written (off + node.written off src.length) n := by
  obtain ⟨whole, piece⟩ := maxFile_bytes
  by_cases refused : node.type = tDev ∨ node.data.length < off
  · have none : ∀ m, node.written off m = 0 := fun m => if_pos refused
    have same := data.trans (Node.wrote_of_written_zero (none _))
    rw [none, none, Nat.zero_add, Nat.add_zero]
    exact (if_pos (by rwa [type, same])).symm
  have fits := apart.takes refused
  have length := data ▸ @Node.length_wrote node off src fits.2.1
  rw [fits.written] at length ⊢
  have bound := fits.2.2
  have second : ¬ (after.type = tDev ∨ after.data.length < off + src.length) := by
    rw [type, length]
    omega
  have pieces : off + (src.length + n) ≤ 71680 ∨ 1536 ∣ src.length := by
    rcases apart refused with all | ⟨-, divides⟩
    · exact Or.inl (whole ▸ all)
    · exact Or.inr (piece ▸ divides)
  unfold Node.written
  rw [if_neg second, if_neg (by omega), whole, piece]
  rw [whole] at bound
  by_cases all : off + (src.length + n) ≤ 71680
  · rw [if_pos all, if_pos (by omega)]
  · rw [if_neg all, if_neg (by omega)]
    omega

theorem Node.demand_append (type : after.type = node.type) (data : after.data = node.wrote off src)
    (apart : node.Apart off src.length n) :
    node.demand off (src.length + n) =
      node.demand off src.length + after.demand (off + node.written off src.length) n := by
  have count := Node.written_append type data apart
  unfold Node.demand
  by_cases late : node.data.length < off
  · have none : node.written off src.length = 0 := if_pos (Or.inr late)
    rw [data, Node.wrote_of_written_zero none, none, if_pos late, if_pos late, Nat.add_zero, if_pos late]
  · have length := data ▸ @Node.length_wrote node off src (Nat.not_lt.mp late)
    rw [if_neg late, if_neg late, if_neg (by omega), length, count, growth_add]

theorem Node.demand_first (apart : node.Apart off src.length n) :
    node.demand off src.length ≤ node.demand off (src.length + n) := by
  have whole := @Node.demand_append node { node with data := node.wrote off src } off n src rfl rfl apart
  omega

theorem Node.wrote_append {rest : List Byte} (type : after.type = node.type)
    (data : after.data = node.wrote off src) (apart : node.Apart off src.length rest.length) :
    node.wrote off (src ++ rest) = after.wrote (off + node.written off src.length) rest := by
  have count := Node.written_append type data apart
  rw [← List.length_append] at count
  by_cases refused : node.type = tDev ∨ node.data.length < off
  · have none : ∀ m, node.written off m = 0 := fun m => if_pos refused
    rw [none, none, Nat.zero_add, Nat.add_zero] at count
    rw [none, Nat.add_zero, Node.wrote_of_written_zero (none _), Node.wrote_of_written_zero count.symm,
      data, Node.wrote_of_written_zero (none _)]
  have fits := apart.takes refused
  rw [fits.wrote] at data
  rw [fits.written] at count ⊢
  unfold Node.wrote
  rw [count, data, splice_append fits.2.1, List.take_length_add_append]

end Written

/-! ## The calls of the inode layer -/

/-- The major number of entry `ip` once it is locked. -/
def Files.major {ν : Type} (f : Files ν) (ip : Nat) : Nat :=
  if (f.slot ip).valid then (f.slot ip).major else (f.node (f.slot ip).inum).major

/-- Entry `ip` is referenced, and its inode `inum` is allocated and not a device with a driver. -/
structure Usable (busy : Bool) (f : Files FsMem) (ninodes ip inum : Nat) : Prop extends Entry f ip inum where
  known : inum < ninodes
  used : 0 < (f.slot ip).ref
  lock : (f.slot ip).busy = busy
  loaded : busy = true → (f.slot ip).valid = true
  alive : (f.node inum).type ≠ 0
  driver : (f.node inum).type = tDev → 32768 ≤ f.major ip ∨ nDev ≤ f.major ip
  up : f.up = true

section Calls
variable {ninodes : Nat} {forbidden : Mark → Bool} {t : Stocked FsMem} {ip inum : Nat}
  {E : Stop → Stocked FsMem → Prop}

variable {f : Files FsMem} {Q : Unit → Stocked FsMem → Prop} {off : Nat} {src : List Byte}

/-- An entry that differs in its reference count only. -/
theorem Usable.counted {g : Files FsMem} {busy : Bool} {ref : Int} (usable : Usable busy f ninodes ip inum)
    (used : 0 < ref) (slot : g.slot ip = { f.slot ip with ref := ref }) (node : g.node = f.node)
    (up : g.up = f.up) : Usable busy g ninodes ip inum := by
  obtain ⟨⟨named, current, small⟩, known, old, lock, loaded, alive, driver, opened⟩ := usable
  refine ⟨⟨?_, fun hand => ?_, ?_⟩, known, ?_, ?_, ?_, ?_, ?_, up.trans opened⟩
  all_goals simp only [Files.major, slot, node] at *
  · exact named
  · exact current ⟨old, hand.2⟩
  · exact small
  · exact used
  · exact lock
  · exact loaded
  · exact alive
  · exact driver

theorem Usable.congr {g : Files FsMem} {busy : Bool} (usable : Usable busy f ninodes ip inum)
    (node : g.node = f.node) (slot : g.slot = f.slot) (up : g.up = f.up) :
    Usable busy g ninodes ip inum :=
  usable.counted usable.used (congrFun slot ip) node up

/-- The new state of the entry of a usable inode. -/
theorem Usable.setSlot {f : Files FsMem} {busy : Bool} {slot : Slot} (usable : Usable busy f ninodes ip inum)
    (inum_eq : slot.inum = inum) (ref : slot.ref = (f.slot ip).ref)
    (loaded : slot.busy = true → slot.valid = true)
    (current : slot.valid = true →
      slot.type = (f.node inum).type ∧ slot.size = (f.node inum).data.length ∧ slot.major = f.major ip)
    (unread : slot.valid = false → (f.slot ip).valid = false) :
    Usable slot.busy (f.setSlot ip slot) ninodes ip inum := by
  have here : (f.setSlot ip slot).slot ip = slot := update_self ..
  refine ⟨⟨?_, fun hand => ?_, usable.small⟩, usable.known, ?_, ?_, ?_, usable.alive, fun device => ?_, usable.up⟩
  · rw [here, inum_eq]
  · rw [here] at hand ⊢
    exact ⟨(current hand.2).1, (current hand.2).2.1⟩
  · rw [here, ref]
    exact usable.used
  · rw [here]
  · rw [here]
    exact loaded
  · -- The major number is the one that locking gives, whether or not the copy is valid.
    have major : (f.setSlot ip slot).major ip = f.major ip := by
      unfold Files.major
      rw [here]
      by_cases valid : slot.valid = true
      · rw [if_pos valid]
        exact (current valid).2.2
      · have old := unread (Bool.not_eq_true _ ▸ valid)
        rw [if_neg valid, old, if_neg nofun, inum_eq, usable.named]
        rfl
    rw [major]
    exact usable.driver device

/-- Only the lock of an entry that has been read changes. -/
theorem Usable.setBusy {f : Files FsMem} {busy : Bool} (usable : Usable busy f ninodes ip inum)
    (valid : (f.slot ip).valid = true) (b : Bool) :
    Usable b (f.setSlot ip { f.slot ip with busy := b }) ninodes ip inum := by
  have current := usable.current ⟨usable.used, valid⟩
  have major : f.major ip = (f.slot ip).major := if_pos valid
  exact @Usable.setSlot ninodes ip inum f busy { f.slot ip with busy := b } usable usable.named rfl
    (fun _ => valid) (fun _ => ⟨current.1, current.2, major.symm⟩) fun unread => unread

theorem Usable.hand (usable : Usable true f ninodes ip inum) : (f.slot ip).inHand :=
  ⟨usable.used, usable.loaded rfl⟩

/-- The number by which a call would find the driver of a locked device. -/
theorem Usable.noDriver (usable : Usable true f ninodes ip inum) (device : (f.node inum).type = tDev) :
    32768 ≤ (f.slot ip).major ∨ nDev ≤ (f.slot ip).major := by
  have driver := usable.driver device
  unfold Files.major at driver
  rwa [if_pos usable.hand.2] at driver

theorem wp_stock {op : (InodeSig FsMem).Op} {a : (InodeSig FsMem).Res op} {g : Files FsMem}
    {Q : (InodeSig FsMem).Res op → Stocked FsMem → Prop}
    (plain : stockMachine ninodes forbidden op t =
      t.call (filesMachine (some opLimit) ninodes forbidden op t.files))
    (done : filesMachine (some opLimit) ninodes forbidden op t.files = .ok a g)
    (next : Q a { t with files := g }) : (stockMachine ninodes forbidden).Wp (Prog.op op) t Q E := by
  refine .op ?_
  rw [plain, done]
  exact next

theorem stock_getFs {Q : FsMem → Stocked FsMem → Prop} (next : Q t.files.mem t) :
    (stockMachine ninodes forbidden).Wp getFs t Q E := wp_stock rfl rfl next

theorem stock_setFile {i : Nat} {file : File}
    (next : Q () { t with files := { t.files with
      mem := { t.files.mem with file := update t.files.mem.file i file } } }) :
    (stockMachine ninodes forbidden).Wp (setFile i file) t Q E :=
  .seq (stock_getFs (wp_stock rfl rfl next))

theorem stock_begin (calm : t.files.inTrans = false)
    (next : Q () { t with files := { t.files with inTrans := true } }) :
    (stockMachine ninodes forbidden).Wp begin t Q E := by
  refine wp_stock rfl ?_ next
  change (if t.files.inTrans then _ else _) = _
  rw [calm, if_neg nofun]

theorem stock_commit
    (next : Q () { t with files := { t.files with inTrans := false, touched := ∅, spent := 0 } }) :
    (stockMachine ninodes forbidden).Wp commit t Q E := wp_stock rfl rfl next

theorem Usable.ilock (usable : Usable false t.files ninodes ip inum)
    (next : ∀ slot, Usable true (t.files.setSlot ip slot) ninodes ip inum →
      Q () { t with files := t.files.setSlot ip slot }) :
    (stockMachine ninodes forbidden).Wp (ilock ip) t Q E := by
  have used := usable.used
  have known := usable.known
  have named := usable.named
  by_cases valid : (t.files.slot ip).valid = true
  · refine wp_stock rfl ?_ (next _ (usable.setBusy valid true))
    change filesLock ninodes t.files ip = _
    unfold filesLock
    rw [if_neg (by omega), usable.lock, if_neg nofun, if_pos valid]
    rfl
  · refine wp_stock rfl ?_ (next ((t.files.slot ip).load (t.files.node (t.files.slot ip).inum))
      (@Usable.setSlot ninodes ip inum t.files false ((t.files.slot ip).load _) usable named rfl
        (fun _ => rfl) (fun _ => ?_) nofun))
    · change filesLock ninodes t.files ip = _
      unfold filesLock
      rw [if_neg (by omega), usable.lock, if_neg nofun, if_neg valid, if_neg (by omega),
        if_neg (by rw [named]; exact usable.alive)]
      rfl
    · unfold Files.major
      rw [if_neg valid, named]
      exact ⟨rfl, rfl, rfl⟩

section
variable (usable : Usable true t.files ninodes ip inum)
include usable

theorem Usable.iunlock (next : ∀ slot, Usable false (t.files.setSlot ip slot) ninodes ip inum →
      Q () { t with files := t.files.setSlot ip slot }) :
    (stockMachine ninodes forbidden).Wp (iunlock ip) t Q E := by
  have used := usable.used
  refine wp_stock rfl ?_ (next _ (usable.setBusy (usable.loaded rfl) false))
  change filesUnlock t.files ip = _
  unfold filesUnlock
  rw [usable.lock, if_neg (by rw [not_or]; exact ⟨nofun, by omega⟩)]
  rfl

/-- `inode_read` on a locked inode. -/
theorem Usable.iread {n : Nat} {Q : Option (List Byte) → Stocked FsMem → Prop}
    (short : n < 2147483648) (next : ∀ r, r = (t.files.node inum).delivered off n → Q r t) :
    (stockMachine ninodes forbidden).Wp (iread ip off n) t Q E := by
  have hand := usable.hand
  have small := usable.small
  have limits := maxFile_bytes
  obtain ⟨type, size⟩ := usable.current hand
  refine @wp_stock ninodes forbidden t E (.read ip off n) _ t.files Q rfl ?_ (next _ rfl)
  change filesRead t.files ip off n = .ok ((t.files.node inum).delivered off n) t.files
  unfold filesRead Node.delivered devswResult
  dsimp only
  rw [type, size, usable.named, if_neg (by rw [not_or, not_not]; exact ⟨hand, by omega⟩)]
  by_cases device : (t.files.node inum).type = tDev
  · rw [if_pos device, if_pos (usable.noDriver device), if_pos (Or.inl device)]
  · rw [if_neg device]
    by_cases late : (t.files.node inum).data.length < off
    · rw [if_pos (Or.inl late), if_pos (Or.inr late)]
    · rw [if_neg (by omega), if_neg (by rw [not_or]; exact ⟨device, late⟩)]

/-- `inode_write` refuses bytes that the inode does not take. -/
theorem Usable.iwrite_refused {Q : Int → Stocked FsMem → Prop} (short : src.length ≤ maxWrite)
    (refused : ¬ (t.files.node inum).Takes off src.length) (next : Q (-1) t) :
    (stockMachine ninodes forbidden).Wp (iwrite ip off src) t Q E := by
  have hand := usable.hand
  have small := usable.small
  obtain ⟨whole, piece⟩ := maxFile_bytes
  obtain ⟨type, size⟩ := usable.current hand
  have same : filesWrite (some opLimit) t.files ip off src = .ok (-1) t.files := by
    unfold filesWrite devswResult
    dsimp only
    rw [type, size, if_neg (by rw [not_or, not_not]; exact ⟨hand, by omega⟩)]
    by_cases device : (t.files.node inum).type = tDev
    · rw [if_pos device, if_pos (usable.noDriver device)]
    · rw [if_neg device]
      split
      · rfl
      · next inside =>
        rw [if_pos]
        unfold Node.Takes at refused
        omega
  refine .op ?_
  change (t.write ip off src).Sat Q E
  unfold Stocked.write
  rw [same]
  exact next

end

theorem Files.store_slot {f : Files FsMem} {off : Nat} {src : List Byte} :
    (∃ size, (f.store ip off src).slot ip = { f.slot ip with size := size }) ∧
      (f.store ip off src).up = f.up := by
  unfold Files.store
  dsimp only
  split
  · exact ⟨⟨_, update_self ..⟩, rfl⟩
  · exact ⟨⟨(f.slot ip).size, rfl⟩, rfl⟩

theorem Files.store_ref {j : Nat} :
    ((f.store ip off src).slot j).ref = (f.slot j).ref := by
  by_cases here : j = ip
  · obtain ⟨⟨size, slot⟩, -⟩ := @Files.store_slot ip f off src
    rw [here, slot]
  · unfold Files.store
    dsimp only
    split
    · exact congrArg Slot.ref (update_of_ne here ..)
    · rfl

theorem Usable.store {f : Files FsMem} {off cost : Nat} {src : List Byte}
    (usable : Usable true f ninodes ip inum) (takes : (f.node inum).Takes off src.length) :
    Usable true ((f.charge inum cost).store ip off src) ninodes ip inum ∧
    (((f.charge inum cost).store ip off src).node inum).data = splice (f.node inum).data off src ∧
    (((f.charge inum cost).store ip off src).node inum).type = (f.node inum).type := by
  obtain ⟨entry, data, kind, -⟩ := @Entry.store f ip inum off cost src usable.toEntry usable.hand takes
  obtain ⟨⟨size, slot⟩, up⟩ := @Files.store_slot ip (f.charge inum cost) off src
  refine ⟨⟨entry, usable.known, ?_, ?_, fun _ => ?_, ?_, fun device => ?_, up.trans usable.up⟩, data, kind⟩
  · rw [slot]
    exact usable.used
  · rw [slot]
    exact usable.lock
  · rw [slot]
    exact usable.loaded rfl
  · rw [kind]
    exact usable.alive
  · exact absurd (kind.symm.trans device) takes.1

/-- A write of a piece of a file in a new transaction is within the limit. -/
theorem Files.bill_piece {n : Nat} (clean : f.touched = ∅ ∧ f.spent = 0)
    (positive : 0 < n) (short : n ≤ maxWrite) : (f.charge inum (writeCost off n)).bill ≤ opLimit := by
  have piece := maxFile_bytes.2
  have span : span off n = (off % 512 + n + 511) / 512 := if_neg (by omega)
  unfold Files.bill Files.charge writeCost
  rw [clean.1, clean.2, span]
  dsimp only
  rw [insert_empty_eq, Finset.card_singleton]
  unfold opLimit
  split <;> omega

/-- `inode_write` within the limit of a transaction stores bytes that the inode takes. -/
theorem Usable.iwrite_stored {Q : Int → Stocked FsMem → Prop}
    (usable : Usable true t.files ninodes ip inum) (some : src ≠ [])
    (takes : (t.files.node inum).Takes off src.length) (begun : t.files.inTrans = true)
    (few : (t.files.charge inum (writeCost off src.length)).bill ≤ opLimit)
    (enough : growth (t.files.node inum).data.length off src.length ≤ t.stock)
    (next : Q src.length ⟨(t.files.charge inum (writeCost off src.length)).store ip off src,
      t.stock - growth (t.files.node inum).data.length off src.length⟩) :
    (stockMachine ninodes forbidden).Wp (iwrite ip off src) t Q E := by
  have hand := usable.hand
  have small := usable.small
  have whole := maxFile_bytes.1
  obtain ⟨type, size⟩ := usable.current hand
  obtain ⟨file, inside, bound⟩ := takes
  have positive : 0 < src.length := List.length_pos_iff.mpr some
  have same : filesWrite (.some opLimit) t.files ip off src =
      .ok src.length ((t.files.charge inum (writeCost off src.length)).store ip off src) := by
    unfold filesWrite logging exceeds
    dsimp only
    rw [type, size, usable.named, if_neg (by rw [not_or, not_not]; exact ⟨hand, by omega⟩), if_neg file,
      if_neg (by omega), if_neg (by omega), if_neg some, usable.up, begun]
    rw [if_neg (by simpa using few), if_neg nofun, if_neg nofun]
  refine .op ?_
  change (t.write ip off src).Sat Q E
  unfold Stocked.write
  rw [same, size]
  dsimp only
  rw [if_neg (by omega), if_neg (by omega)]
  exact next

end Calls

/-! ## Writing -/

/-- The log is open and no transaction has begun. -/
structure Quiescent (f : Files FsMem) : Prop where
  idle : f.inTrans = false
  clean : f.touched = ∅ ∧ f.spent = 0

/-- `u` is `t` after `file_write` of `src` to open file `i`. -/
structure Stored (ninodes i inum : Nat) (src : List Byte) (t u : Stocked FsMem) : Prop where
  usable : Usable false u.files ninodes (t.files.mem.file i).ip inum
  calm : Quiescent u.files
  file : u.files.mem.file i = { t.files.mem.file i with
    off := (t.files.mem.file i).off + (t.files.node inum).written (t.files.mem.file i).off src.length }
  data : (u.files.node inum).data = (t.files.node inum).wrote (t.files.mem.file i).off src
  type : (u.files.node inum).type = (t.files.node inum).type
  stock : t.stock ≤ u.stock + (t.files.node inum).demand (t.files.mem.file i).off src.length

section Writing
variable {ninodes : Nat} {forbidden : Mark → Bool} {t u : Stocked FsMem} {i inum : Nat} {src : List Byte}

/-- Two writes, one after the other, that count as one. -/
theorem Stored.append {rest : List Byte} {w : Stocked FsMem} (first : Stored ninodes i inum src t u)
    (second : Stored ninodes i inum rest u w)
    (apart : (t.files.node inum).Apart (t.files.mem.file i).off src.length rest.length) :
    Stored ninodes i inum (src ++ rest) t w := by
  have type := first.type
  have data := first.data
  have offset : (u.files.mem.file i).off = (t.files.mem.file i).off +
      (t.files.node inum).written (t.files.mem.file i).off src.length := by rw [first.file]
  have usable := second.usable
  have file := second.file
  have content := second.data
  have stock := second.stock
  have before := first.stock
  rw [first.file] at usable
  rw [offset, first.file] at file
  rw [offset] at content stock
  refine ⟨usable, second.calm, ?_, ?_, second.type.trans type, ?_⟩
  · rw [file, List.length_append, Node.written_append type data apart, Nat.add_assoc]
  · rw [content, Node.wrote_append type data apart]
  · rw [List.length_append, Node.demand_append type data apart]
    omega

/-- Where `file_write` cuts, the two parts count as one write. -/
theorem Node.Takes.apart {node : Node} {off : Nat} (takes : node.Takes off (src.take maxWrite).length) :
    node.Apart off (src.take maxWrite).length (src.drop maxWrite).length := by
  have bound := takes.2.2
  intro _
  by_cases last : src.length ≤ maxWrite
  · exact Or.inl (by rw [List.length_drop]; omega)
  · exact Or.inr ⟨takes, by rw [List.length_take, Nat.min_eq_left (by omega)]⟩

/-- What a first piece leaves to write. -/
theorem Stored.rest (first : Stored ninodes i inum (src.take maxWrite) t u)
    (takes : (t.files.node inum).Takes (t.files.mem.file i).off (src.take maxWrite).length)
    (enough : (t.files.node inum).demand (t.files.mem.file i).off src.length ≤ t.stock) :
    (u.files.node inum).demand (u.files.mem.file i).off (src.drop maxWrite).length ≤ u.stock ∧
    ((u.files.node inum).written (u.files.mem.file i).off (src.drop maxWrite).length =
        (src.drop maxWrite).length ↔
      (t.files.node inum).written (t.files.mem.file i).off src.length = src.length) := by
  have count := Node.written_append first.type first.data takes.apart
  have blocks := Node.demand_append first.type first.data takes.apart
  have stock := first.stock
  have split := length_cut src maxWrite
  have offset : (u.files.mem.file i).off = (t.files.mem.file i).off +
      (t.files.node inum).written (t.files.mem.file i).off (src.take maxWrite).length := by rw [first.file]
  rw [split, ← offset] at count blocks
  rw [takes.written] at count
  omega

/-- A write that stores nothing. -/
theorem Stored.none (usable : Usable false u.files ninodes (t.files.mem.file i).ip inum) (calm : Quiescent u.files)
    (written : (t.files.node inum).written (t.files.mem.file i).off src.length = 0)
    (mem : u.files.mem = t.files.mem) (node : u.files.node = t.files.node) (stock : u.stock = t.stock) :
    Stored ninodes i inum src t u := by
  refine ⟨usable, calm, ?_, ?_, by rw [node], by omega⟩
  · rw [mem, written, Nat.add_zero]
  · rw [node, Node.wrote_of_written_zero written]

theorem Usable.fileWriteFrom {fuel : Nat} (usable : Usable false t.files ninodes (t.files.mem.file i).ip inum)
    (calm : Quiescent t.files) (fueled : src.length ≤ fuel)
    (enough : (t.files.node inum).demand (t.files.mem.file i).off src.length ≤ t.stock) :
    (stockMachine ninodes forbidden).Wp (fileWriteFrom i fuel src) t
      (fun all u => Stored ninodes i inum src t u ∧ (all = true ↔
        (t.files.node inum).written (t.files.mem.file i).off src.length = src.length))
      fun _ _ => False := by
  have empty : src = [] → (t.files.node inum).written (t.files.mem.file i).off src.length = 0 := by
    rintro rfl
    exact Nat.le_zero.mp Node.written_le
  induction fuel generalizing t src with
  | zero =>
    obtain rfl : src = [] := List.length_eq_zero_iff.mp (Nat.le_zero.mp fueled)
    exact .ret ⟨.none usable calm (empty rfl) rfl rfl rfl, iff_of_true rfl (empty rfl)⟩
  | succ fuel ih =>
    unfold Fs.fileWriteFrom
    split
    · next done =>
      obtain rfl : src = [] := List.isEmpty_iff.mp done
      exact .ret ⟨.none usable calm (empty rfl) rfl rfl rfl, iff_of_true rfl (empty rfl)⟩
    next nonempty =>
    have positive : 0 < src.length :=
      List.length_pos_iff.mpr fun empty => nonempty (List.isEmpty_iff.mpr empty)
    have chunk : (src.take maxWrite).length = min maxWrite src.length := List.length_take
    obtain ⟨whole, piece⟩ := maxFile_bytes
    dsimp only
    refine .seq (stock_begin calm.idle (.seq (stock_getFs ?_)))
    dsimp only
    have begun : Usable false { t.files with inTrans := true } ninodes (t.files.mem.file i).ip inum :=
      usable.congr rfl rfl rfl
    refine .seq (begun.ilock fun slot locked => ?_)
    by_cases takes : (t.files.node inum).Takes (t.files.mem.file i).off (src.take maxWrite).length
    · have bound := takes.2.2
      have need : (t.files.node inum).demand (t.files.mem.file i).off (src.take maxWrite).length =
          growth (t.files.node inum).data.length (t.files.mem.file i).off (src.take maxWrite).length := by
        unfold Node.demand
        rw [if_neg (Nat.not_lt.mpr takes.2.1), takes.written]
      -- What the first piece leaves is a state from which the rest is written.
      have rest : ∀ w, Stored ninodes i inum (src.take maxWrite) t w →
          (stockMachine ninodes forbidden).Wp (Fs.fileWriteFrom i fuel (src.drop maxWrite)) w
            (fun all u => Stored ninodes i inum src t u ∧ (all = true ↔
              (t.files.node inum).written (t.files.mem.file i).off src.length = src.length))
            fun _ _ => False := by
        intro w first
        have usable' := first.usable
        obtain ⟨stock, whole⟩ := first.rest takes enough
        refine (ih (by rwa [first.file]) first.calm (by rw [List.length_drop]; omega) stock ?_).mono
          fun all u ends => ?_
        · intro none
          rw [none]
          exact Nat.le_zero.mp Node.written_le
        have both := first.append ends.1 takes.apart
        rw [List.take_append_drop] at both
        exact ⟨both, ends.2.trans whole⟩
      refine .seq (locked.iwrite_stored (List.ne_nil_of_length_pos (by omega)) takes rfl
        (Files.bill_piece calm.clean (by omega) (by omega)) ?_ ?_)
      · have first := Node.demand_first takes.apart
        rw [length_cut] at first
        change growth (t.files.node inum).data.length _ _ ≤ t.stock
        omega
      rw [if_pos (by omega)]
      refine .seq (stock_setFile ?_)
      obtain ⟨written, data, type⟩ := @Usable.store ninodes _ inum _ (t.files.mem.file i).off
        (writeCost (t.files.mem.file i).off (src.take maxWrite).length) (src.take maxWrite) locked takes
      have moved : ∀ files : FsMem, Usable true { Files.store _ _ _ _ with mem := files } ninodes
          (t.files.mem.file i).ip inum := fun _ => written.congr rfl rfl rfl
      refine .seq ((moved _).iunlock fun slot' unlocked => .seq (stock_commit ?_))
      rw [if_neg (by omega), if_neg (not_not.mpr rfl)]
      refine rest _ ⟨unlocked.congr rfl rfl rfl, ⟨rfl, rfl, rfl⟩, ?_, ?_, type, ?_⟩
      · change update _ i _ i = _
        rw [update_self, Int.toNat_natCast, Nat.mod_eq_of_lt (by omega), takes.written]
      · rw [takes.wrote]
        exact data
      · rw [need]
        exact le_tsub_add
    · have refused := Node.written_refused (chunk ▸ takes)
      refine .seq (locked.iwrite_refused (by omega) takes ?_)
      rw [if_neg (by decide)]
      refine .seq (locked.iunlock fun slot' unlocked => .seq (stock_commit ?_))
      rw [if_pos (by decide)]
      refine .ret ⟨.none (unlocked.congr rfl rfl rfl) ⟨rfl, rfl, rfl⟩ refused rfl rfl rfl,
        iff_of_false (by simp) ?_⟩
      rw [refused]
      omega

/-- `file_write` on a writable descriptor. -/
theorem Usable.fileWrite (usable : Usable false t.files ninodes (t.files.mem.file i).ip inum)
    (calm : Quiescent t.files) (writable : (t.files.mem.file i).writable = true)
    (inode : (t.files.mem.file i).type = .inode)
    (enough : (t.files.node inum).demand (t.files.mem.file i).off src.length ≤ t.stock) :
    (stockMachine ninodes forbidden).Wp (fileWrite i src) t
      (fun r u => Stored ninodes i inum src t u ∧
        r = if (t.files.node inum).written (t.files.mem.file i).off src.length = src.length then
          (src.length : Int) else -1)
      fun _ _ => False := by
  unfold Fs.fileWrite
  refine .seq (stock_getFs ?_)
  dsimp only
  rw [writable, Bool.not_true, if_neg nofun, if_pos inode]
  refine .bind (usable.fileWriteFrom calm (Nat.le_refl _) enough) fun all u ends => .ret ⟨ends.1, ?_⟩
  exact if_congr ends.2 rfl rfl

/-- Consecutive calls of `file_write`. -/
def fileWrites (i : Nat) : List (List Byte) → FsProg (List Int)
  | [] => pure []
  | src :: rest => do
    let r ← fileWrite i src
    let rs ← fileWrites i rest
    pure (r :: rs)

/-- Consecutive writes that stay below the limit leave what one write of all bytes leaves. -/
theorem Usable.fileWrites {pieces : List (List Byte)}
    (usable : Usable false t.files ninodes (t.files.mem.file i).ip inum) (calm : Quiescent t.files)
    (writable : (t.files.mem.file i).writable = true) (inode : (t.files.mem.file i).type = .inode)
    (bound : ¬ ((t.files.node inum).type = tDev ∨ (t.files.node inum).data.length < (t.files.mem.file i).off) →
      (t.files.mem.file i).off + pieces.flatten.length ≤ maxFile * bSize)
    (enough : (t.files.node inum).demand (t.files.mem.file i).off pieces.flatten.length ≤ t.stock) :
    (stockMachine ninodes forbidden).Wp (fileWrites i pieces) t
      (fun _ u => Stored ninodes i inum pieces.flatten t u) fun _ _ => False := by
  induction pieces generalizing t with
  | nil => exact .ret (.none usable calm (Nat.le_zero.mp Node.written_le) rfl rfl rfl)
  | cons src rest ih =>
    rw [List.flatten_cons, List.length_append] at bound enough
    have apart : (t.files.node inum).Apart (t.files.mem.file i).off src.length rest.flatten.length :=
      fun file => Or.inl (bound file)
    have less := Node.demand_first apart
    refine .bind (usable.fileWrite calm writable inode (by omega)) fun r u ends => ?_
    obtain ⟨first, -⟩ := ends
    have blocks := Node.demand_append first.type first.data apart
    have stock := first.stock
    have written := @Node.written_le (t.files.node inum) (t.files.mem.file i).off src.length
    have offset : (u.files.mem.file i).off = (t.files.mem.file i).off +
        (t.files.node inum).written (t.files.mem.file i).off src.length := by rw [first.file]
    rw [← offset] at blocks
    refine .bind (ih (by rw [first.file]; exact first.usable) first.calm (by rw [first.file]; exact writable)
      (by rw [first.file]; exact inode) (fun file => ?_) (by omega)) fun rs w second => .ret ?_
    · have taken : ¬ ((t.files.node inum).type = tDev ∨
          (t.files.node inum).data.length < (t.files.mem.file i).off) := by
        intro refused
        have none : (t.files.node inum).written (t.files.mem.file i).off src.length = 0 := if_pos refused
        rw [offset, none, Nat.add_zero, first.type, first.data, Node.wrote_of_written_zero none] at file
        exact file refused
      have := bound taken
      omega
    rw [List.flatten_cons]
    exact first.append second apart

end Writing

/-! ## Reading -/

/-- `u` is `t` after calls of `file_read` on open file `i` that have moved its offset to `off`. -/
structure Delivered (ninodes i inum off : Nat) (t u : Stocked FsMem) : Prop where
  usable : Usable false u.files ninodes (t.files.mem.file i).ip inum
  file : u.files.mem.file i = { t.files.mem.file i with off := off }
  node : u.files.node = t.files.node

section Reading
variable {ninodes : Nat} {forbidden : Mark → Bool} {t u : Stocked FsMem} {i inum n : Nat}

/-- `file_read` on a readable descriptor. -/
theorem Usable.fileRead (usable : Usable false t.files ninodes (t.files.mem.file i).ip inum)
    (readable : (t.files.mem.file i).readable = true) (inode : (t.files.mem.file i).type = .inode)
    (short : n < 2147483648) :
    (stockMachine ninodes forbidden).Wp (fileRead i n) t
      (fun r u => r = (t.files.node inum).delivered (t.files.mem.file i).off n ∧
        Delivered ninodes i inum ((t.files.mem.file i).off + (r.getD []).length) t u)
      fun _ _ => False := by
  have small := usable.small
  have limits := maxFile_bytes
  unfold Fs.fileRead
  refine .seq (stock_getFs ?_)
  dsimp only
  rw [if_neg (by rw [readable]; nofun), if_pos inode]
  refine .seq (usable.ilock fun slot locked => .seq (locked.iread short fun r result => ?_))
  change r = (t.files.node inum).delivered (t.files.mem.file i).off n at result
  cases r with
  | none =>
    exact .seq (locked.iunlock fun slot' unlocked => .ret ⟨result, unlocked, rfl, rfl⟩)
  | some bytes =>
    have length : bytes.length ≤ (t.files.node inum).data.length - (t.files.mem.file i).off ∧
        (t.files.mem.file i).off ≤ (t.files.node inum).data.length := by
      unfold Node.delivered at result
      split at result
      · cases result
      next file =>
      rw [Option.some.inj result, List.length_take, List.length_drop]
      omega
    refine .seq (stock_setFile ?_)
    have moved : ∀ files : FsMem, Usable true { t.files.setSlot (t.files.mem.file i).ip slot with mem := files }
        ninodes (t.files.mem.file i).ip inum := fun _ => locked.congr rfl rfl rfl
    refine .seq ((moved _).iunlock fun slot' unlocked => .ret ⟨result, unlocked, ?_, rfl⟩)
    change update t.files.mem.file i _ i = _
    rw [update_self, Nat.mod_eq_of_lt (by omega)]
    rfl

/-- Consecutive calls of `file_read`. -/
def fileReads (i : Nat) : List Nat → FsProg (List (Option (List Byte)))
  | [] => pure []
  | n :: rest => do
    let r ← fileRead i n
    let rs ← fileReads i rest
    pure (r :: rs)

/-- The results of several reads, one after the other; `none` if one of them has failed. -/
def concatenated : List (Option (List Byte)) → Option (List Byte)
  | [] => some []
  | r :: rs => r.bind fun bytes => (concatenated rs).map (bytes ++ ·)

theorem Node.delivered_add {node : Node} {off m : Nat} {bytes : List Byte}
    (first : node.delivered off m = some bytes) :
    node.delivered off (m + n) = (node.delivered (off + bytes.length) n).map (bytes ++ ·) := by
  unfold Node.delivered at first ⊢
  split at first
  · cases first
  next file =>
  obtain rfl := Option.some.inj first
  rw [not_or, Nat.not_lt] at file
  have length : ((node.data.drop off).take m).length = min m (node.data.length - off) := by
    rw [List.length_take, List.length_drop]
  rw [if_neg (by omega), if_neg (by omega), Option.map_some, List.take_add, length]
  congr 2
  rw [List.drop_drop]
  by_cases all : m ≤ node.data.length - off
  · rw [Nat.min_eq_left all]
  · rw [List.drop_of_length_le (by omega), List.drop_of_length_le (by omega)]

/-- Consecutive reads deliver what one read of all bytes delivers. -/
theorem Usable.fileReads {lengths : List Nat}
    (usable : Usable false t.files ninodes (t.files.mem.file i).ip inum)
    (readable : (t.files.mem.file i).readable = true) (inode : (t.files.mem.file i).type = .inode)
    (short : lengths.sum < 2147483648) :
    (stockMachine ninodes forbidden).Wp (fileReads i lengths) t
      (fun rs _ => concatenated rs = if lengths = [] then some []
        else (t.files.node inum).delivered (t.files.mem.file i).off lengths.sum)
      fun _ _ => False := by
  induction lengths generalizing t with
  | nil => exact .ret rfl
  | cons n rest ih =>
    rw [List.sum_cons] at short
    refine .bind (usable.fileRead readable inode (by omega)) fun r u ends => ?_
    obtain ⟨result, delivered⟩ := ends
    refine .bind (ih (by rw [delivered.file]; exact delivered.usable) (by rw [delivered.file]; exact readable)
      (by rw [delivered.file]; exact inode) (by omega)) fun rs _ tail => .ret ?_
    rw [delivered.file, delivered.node] at tail
    dsimp only at tail
    rw [if_neg (List.cons_ne_nil _ _), List.sum_cons]
    unfold concatenated
    rw [tail]
    cases r with
    | none =>
      unfold Node.delivered at result ⊢
      split at result
      · next refused =>
        rw [if_pos refused]
        rfl
      · cases result
    | some bytes =>
      split
      · next last =>
        rw [last, List.sum_nil, Nat.add_zero, ← result]
        exact congrArg some (List.append_nil bytes)
      · rw [Node.delivered_add result.symm]
        rfl

end Reading

/-! ## The kernel -/

/-- The log is open and no transaction is in progress. -/
structure Resting (s : FsState) : Prop where
  opened : s.mem.log.size ≠ 0
  idle : s.mem.log.busy = false

/-- The major number of the inode of open file `i` once it is locked. -/
def fileMajor (s : FsState) (i : Nat) : Nat :=
  let inode := s.upper.icache (s.upper.rest.file i).ip
  if inode.valid then inode.major else (nodeOf s.content inode.inum).major

/-- Open file `i` is one of an inode that is allocated, not locked and not a device with a driver:
no driver is set up, so that a call of one goes through a null pointer. -/
structure FileReady (sb : Superblock) (s : FsState) (i : Nat) : Prop where
  inode : (s.upper.rest.file i).type = .inode
  known : fileInum s i < sb.ninodes
  used : 0 < (s.upper.icache (s.upper.rest.file i).ip).ref
  unlocked : (s.upper.icache (s.upper.rest.file i).ip).busy = false
  alive : (nodeOf s.content (fileInum s i)).type ≠ 0
  driver : (nodeOf s.content (fileInum s i)).type = tDev → 32768 ≤ fileMajor s i ∨ nDev ≤ fileMajor s i

section Kernel
variable {sb : Superblock} {s : FsState} {f : Files FsMem} {i : Nat}

theorem Serves.up {limit : Option Nat} (serves : Serves limit sb s f) (opened : s.mem.log.size ≠ 0) :
    f.up = true := by
  obtain ⟨v, ⟨b, caches, presents⟩, holds⟩ := serves
  rw [← holds.up]
  by_contra down
  rw [caches.mem] at opened
  exact opened (presents.unset (Bool.not_eq_true _ ▸ down)).1

/-- The files of a kernel between transactions, with all its free blocks. -/
def Files.stocked (f : Files FsMem) (sb : Superblock) (s : FsState) : Stocked FsMem :=
  ⟨{ f with touched := ∅, spent := 0 }, (freeBlocks sb s.content).card⟩

theorem Serves.usableAt {busy : Bool} {ip : Nat} (serves : Serves none sb s f) (opened : s.mem.log.size ≠ 0)
    (known : (s.upper.icache ip).inum < sb.ninodes) (used : 0 < (s.upper.icache ip).ref)
    (lock : (s.upper.icache ip).busy = busy) (loaded : busy = true → (s.upper.icache ip).valid = true)
    (alive : (nodeOf s.content (s.upper.icache ip).inum).type ≠ 0)
    (driver : (nodeOf s.content (s.upper.icache ip).inum).type = tDev →
      32768 ≤ f.major ip ∨ nDev ≤ f.major ip) :
    Usable busy f sb.ninodes ip (s.upper.icache ip).inum := by
  have slot := serves.slot ip
  rw [← serves.node known] at alive driver
  refine ⟨serves.entry known, known, ?_, ?_, ?_, alive, driver, serves.up opened⟩
  · rw [slot]
    exact used
  · rw [slot]
    exact lock
  · rw [slot]
    exact loaded

theorem Serves.usable (serves : Serves none sb s f) (resting : Resting s) (ready : FileReady sb s i) :
    Usable false (f.stocked sb s).files sb.ninodes (s.upper.rest.file i).ip (fileInum s i) := by
  have slot := serves.slot (s.upper.rest.file i).ip
  have node := serves.node ready.known
  have major : f.major (s.upper.rest.file i).ip = fileMajor s i := by
    unfold Files.major fileMajor
    rw [slot]
    change (if _ then _ else (f.node (fileInum s i)).major) = _
    rw [node]
    rfl
  have usable := serves.usableAt resting.opened ready.known ready.used ready.unlocked nofun ready.alive
    (by rw [major]; exact ready.driver)
  exact usable.congr rfl rfl rfl

theorem Serves.calm (serves : Serves none sb s f) (resting : Resting s) : Quiescent (f.stocked sb s).files :=
  ⟨serves.busy.symm.trans resting.idle, rfl, rfl⟩

/-- What a program that writes to open file `i` leaves in the kernel. -/
theorem Serves.stores (bounded : Bounded (some opLimit) sb) (serves : Serves none sb s f)
    (resting : Resting s) (ready : FileReady sb s i) {α : Type} {p : FsProg α} {P : α → Prop} {src : List Byte}
    (asserts : (stockMachine sb.ninodes noLogBlock).Wp p (f.stocked sb s)
      (fun r u => Stored sb.ninodes i (fileInum s i) src (f.stocked sb s) u ∧ P r) fun _ _ => False) :
    ∃ r t, (fsMachine fun _ => false).run p s = .ok r t ∧ P r ∧
      fileBytes t i = (nodeOf s.content (fileInum s i)).wrote (s.upper.rest.file i).off src ∧
      t.upper.rest.file i = { s.upper.rest.file i with
        off := (s.upper.rest.file i).off +
          (nodeOf s.content (fileInum s i)).written (s.upper.rest.file i).off src.length } := by
  obtain ⟨r, t, u, run, ⟨stored, value⟩, v, presented, stocks⟩ :=
    (serves.supplies (serves.busy.symm.trans resting.idle)).returns bounded asserts
  have after : Serves (some opLimit) sb t u.files := ⟨v, presented, stocks.holds⟩
  have file := stored.file
  have data := stored.data
  have named := stored.usable.named
  change u.files.mem.file i = { f.mem.file i with
    off := (f.mem.file i).off + (f.node (fileInum s i)).written (f.mem.file i).off src.length } at file
  change _ = (f.node (fileInum s i)).wrote (f.mem.file i).off src at data
  change (u.files.slot (f.mem.file i).ip).inum = fileInum s i at named
  rw [after.mem, serves.mem, serves.node ready.known] at file
  rw [serves.mem, serves.node ready.known, after.node ready.known] at data
  rw [after.slot, serves.mem] at named
  refine ⟨r, t, run, value, ?_, file⟩
  have same : fileInum t i = fileInum s i := by
    unfold fileInum at named ⊢
    rw [file]
    exact named
  unfold fileBytes
  rw [same]
  exact data

/-- `file_write` on a writable descriptor, with enough free blocks. -/
theorem Serves.fileWrite (bounded : Bounded (some opLimit) sb) (serves : Serves none sb s f)
    (resting : Resting s) (ready : FileReady sb s i) (writable : (s.upper.rest.file i).writable = true)
    {src : List Byte} (enough : (nodeOf s.content (fileInum s i)).demand (s.upper.rest.file i).off src.length ≤
      (freeBlocks sb s.content).card) :
    ∃ r t, (fsMachine fun _ => false).run (fileWrite i src) s = .ok r t ∧
      r = (if (nodeOf s.content (fileInum s i)).written (s.upper.rest.file i).off src.length = src.length then
        (src.length : Int) else -1) ∧
      fileBytes t i = (nodeOf s.content (fileInum s i)).wrote (s.upper.rest.file i).off src ∧
      t.upper.rest.file i = { s.upper.rest.file i with
        off := (s.upper.rest.file i).off +
          (nodeOf s.content (fileInum s i)).written (s.upper.rest.file i).off src.length } := by
  refine serves.stores bounded resting ready ?_
  have usable := serves.usable resting ready
  rw [← serves.mem] at usable writable enough ⊢
  rw [← serves.node ready.known] at enough ⊢
  have inode := ready.inode
  rw [← serves.mem] at inode
  exact usable.fileWrite (serves.calm resting) writable inode enough

end Kernel

/-! ## A file on a disk with 200 sectors -/

/-- A disk with 184 data blocks, of which the root directory has the first. -/
def roomyDisk : Nat → Bytes := fun sector =>
  if sector = 1 then (((Bytes.zero.put 0 4 200).put 4 4 184).put 8 4 16).put 12 4 10 else smallDisk sector

theorem roomyDisk_rooted : Rooted ⟨200, 184, 16, 10⟩ roomyDisk :=
  ⟨by decide, rfl, by decide, by decide, fun _ other => if_neg other⟩

/-- A process creates a file. -/
def creating : List (Nat × Syscall) := [(1, .sysOpen [slash, 0x61] (oCreate + oRdwr))]

def created : FsState := ((fsMachine noLogBlock).run (session creating) (booted roomyDisk)).state

theorem created_state :
    ((fsMachine noLogBlock).run (session creating) (booted roomyDisk)).result = some () ∧
    (∀ e ∈ (fsMachine noLogBlock).trace (session creating) (booted roomyDisk), Proper 16 e.2 e.1) ∧
    (created.mem.log.size ≠ 0 ∧ created.mem.log.busy = false) ∧
    ((created.upper.rest.file 0).type = .inode ∧ (created.upper.rest.file 0).readable = true ∧
      (created.upper.rest.file 0).writable = true ∧ (created.upper.rest.file 0).off = 0) ∧
    (fileInum created 0 < 16 ∧ 0 < (created.upper.icache (created.upper.rest.file 0).ip).ref ∧
      (created.upper.icache (created.upper.rest.file 0).ip).busy = false) ∧
    ((nodeOf created.content (fileInum created 0)).type = 2 ∧ fileBytes created 0 = []) ∧
    150 ≤ (freeBlocks ⟨200, 184, 16, 10⟩ created.content).card := by decide +kernel

theorem created_serves : ∃ files, Serves none ⟨200, 184, 16, 10⟩ created files := by
  obtain ⟨returned, proper, -⟩ := created_state
  have start : Serves none ⟨200, 184, 16, 10⟩ (booted roomyDisk) _ :=
    serves_booted roomyDisk_rooted.formatted roomyDisk_rooted.noHoles rfl
  exact start.run rfl proper (Outcome.eq_ok_of_result returned)

theorem created_resting : Resting created := by
  obtain ⟨-, -, ⟨opened, idle⟩, -⟩ := created_state
  exact ⟨opened, idle⟩

theorem created_ready : FileReady ⟨200, 184, 16, 10⟩ created 0 := by
  obtain ⟨-, -, -, ⟨inode, -⟩, ⟨known, used, unlocked⟩, ⟨type, -⟩, -⟩ := created_state
  refine ⟨inode, known, used, unlocked, ?_, fun device => ?_⟩
  · rw [type]
    nofun
  · rw [type] at device
    exact absurd device (by decide)

theorem roomy_bounded : Bounded (some opLimit) ⟨200, 184, 16, 10⟩ := ⟨rfl, by decide, rfl⟩

/-- The new file takes no more blocks than there are. -/
theorem created_demand (n : Nat) :
    (nodeOf created.content (fileInum created 0)).demand (created.upper.rest.file 0).off n ≤
      (freeBlocks ⟨200, 184, 16, 10⟩ created.content).card := by
  obtain ⟨-, -, -, ⟨-, -, -, start⟩, -, ⟨type, empty⟩, free⟩ := created_state
  unfold fileBytes at empty
  have written : (nodeOf created.content (fileInum created 0)).written 0 n ≤ maxFile * bSize := by
    unfold Node.written
    split
    · exact Nat.zero_le _
    split
    · omega
    · exact Nat.div_mul_le_self ..
  have blocks := blocksFor_mono written
  have most : blocksFor (maxFile * bSize) = 141 := by decide
  unfold Node.demand growth
  rw [empty, start, List.length_nil, Nat.zero_max, Nat.zero_add, if_neg (Nat.lt_irrefl 0)]
  omega

/-! ## All or nothing -/

section Whole
variable {sb : Superblock} {s : FsState} {f : Files FsMem} {i : Nat}

/-- `file_write` with enough free blocks returns.  It returns the number of bytes and puts them all
at the offset, or it returns -1; then it has put the pieces that fit there and has moved the offset
past them. -/
theorem fileWrite_all_or_pieces (bounded : Bounded (some opLimit) sb) (serves : Serves none sb s f)
    (resting : Resting s) (ready : FileReady sb s i) (writable : (s.upper.rest.file i).writable = true)
    (src : List Byte)
    (enough : (nodeOf s.content (fileInum s i)).demand (s.upper.rest.file i).off src.length ≤
      (freeBlocks sb s.content).card) :
    ∃ r t, (fsMachine fun _ => false).run (fileWrite i src) s = .ok r t ∧
      let node := nodeOf s.content (fileInum s i)
      let off := (s.upper.rest.file i).off
      let fit := (maxFile * bSize - off) / maxWrite * maxWrite
      (src = [] ∨ node.Takes off src.length →
        r = src.length ∧ fileBytes t i = splice (fileBytes s i) off src ∧
          (t.upper.rest.file i).off = off + src.length) ∧
      (¬ (src = [] ∨ node.Takes off src.length) →
        r = -1 ∧
        (node.type = tDev ∨ node.data.length < off →
          fileBytes t i = fileBytes s i ∧ (t.upper.rest.file i).off = off) ∧
        (¬ (node.type = tDev ∨ node.data.length < off) →
          fileBytes t i = splice (fileBytes s i) off (src.take fit) ∧
            (t.upper.rest.file i).off = off + fit)) := by
  obtain ⟨r, t, run, result, bytes, file⟩ := serves.fileWrite bounded resting ready writable enough
  have small := (serves.entry ready.known).small
  have all := @Node.written_eq_iff (nodeOf s.content (fileInum s i)) (s.upper.rest.file i).off src.length
    (by rw [← serves.node ready.known]; exact small)
  rw [List.length_eq_zero_iff] at all
  have offset : (t.upper.rest.file i).off = (s.upper.rest.file i).off +
      (nodeOf s.content (fileInum s i)).written (s.upper.rest.file i).off src.length := by rw [file]
  unfold Node.wrote at bytes
  refine ⟨r, t, run, fun takes => ?_, fun rest => ⟨?_, fun refused => ?_, fun taken => ?_⟩⟩
  · have written := all.mpr takes
    rw [written, List.take_length] at bytes
    rw [written] at offset
    rw [if_pos written] at result
    exact ⟨result, bytes, offset⟩
  · rw [if_neg fun written => rest (all.mp written)] at result
    exact result
  · have none : (nodeOf s.content (fileInum s i)).written (s.upper.rest.file i).off src.length = 0 :=
      if_pos refused
    rw [none, List.take_zero, splice_nil] at bytes
    rw [none, Nat.add_zero] at offset
    exact ⟨bytes, offset⟩
  · have fit : (nodeOf s.content (fileInum s i)).written (s.upper.rest.file i).off src.length =
        (maxFile * bSize - (s.upper.rest.file i).off) / maxWrite * maxWrite := by
      unfold Node.written
      rw [if_neg taken, if_neg]
      intro fits
      rw [not_or, Nat.not_lt] at taken
      exact rest (Or.inr ⟨taken.1, taken.2, fits⟩)
    rw [fit] at bytes offset
    exact ⟨bytes, offset⟩

end Whole

/-- Three bytes are written to the new file. -/
theorem fileWrite_three_bytes :
    ∃ r t, (fsMachine fun _ => false).run (fileWrite 0 [1, 2, 3]) created = .ok r t ∧
      r = 3 ∧ fileBytes t 0 = [1, 2, 3] := by
  obtain ⟨files, serves⟩ := created_serves
  obtain ⟨-, -, -, ⟨-, -, writable, start⟩, -, ⟨type, empty⟩, -⟩ := created_state
  obtain ⟨r, t, run, whole, -⟩ := fileWrite_all_or_pieces roomy_bounded serves created_resting created_ready
    writable [1, 2, 3] (created_demand _)
  have takes : (nodeOf created.content (fileInum created 0)).Takes (created.upper.rest.file 0).off 3 := by
    unfold Node.Takes
    rw [type, start]
    exact ⟨by decide, Nat.zero_le _, by decide⟩
  obtain ⟨result, bytes, -⟩ := whole (Or.inr takes)
  rw [empty, start] at bytes
  exact ⟨r, t, run, result, bytes⟩

/-- One byte more than a file can have. -/
def tooLong : List Byte := List.replicate (maxFile * bSize + 1) 0

theorem tooLong_length : tooLong.length = maxFile * bSize + 1 := List.length_replicate

/-- A write beyond the greatest size a file can have returns -1, but its first 46 pieces are in the
file. -/
theorem fileWrite_keeps_pieces :
    (∃ files, Serves none ⟨200, 184, 16, 10⟩ created files) ∧ Resting created ∧
    FileReady ⟨200, 184, 16, 10⟩ created 0 ∧ (created.upper.rest.file 0).writable = true ∧
    (nodeOf created.content (fileInum created 0)).demand (created.upper.rest.file 0).off tooLong.length ≤
      (freeBlocks ⟨200, 184, 16, 10⟩ created.content).card ∧
    (created.upper.rest.file 0).off = 0 ∧ fileBytes created 0 = [] ∧
    ∃ t, (fsMachine fun _ => false).run (fileWrite 0 tooLong) created = .ok (-1) t ∧
      fileBytes t 0 = tooLong.take 70656 ∧ (t.upper.rest.file 0).off = 70656 := by
  obtain ⟨files, serves⟩ := created_serves
  obtain ⟨-, -, -, ⟨-, -, writable, start⟩, -, ⟨type, empty⟩, -⟩ := created_state
  obtain ⟨r, t, run, result, bytes, file⟩ :=
    serves.fileWrite roomy_bounded created_resting created_ready writable (created_demand tooLong.length)
  have fit : (nodeOf created.content (fileInum created 0)).written 0 tooLong.length = 70656 := by
    unfold fileBytes at empty
    unfold Node.written
    rw [type, empty, tooLong_length]
    decide
  unfold Node.wrote at bytes
  rw [start, fit, if_neg (by rw [tooLong_length]; decide)] at result
  rw [start, fit] at bytes file
  subst result
  refine ⟨⟨files, serves⟩, created_resting, created_ready, writable, created_demand _, start, empty, t, run, ?_, ?_⟩
  · unfold fileBytes at empty
    rw [bytes, empty]
    unfold splice
    rw [List.take_nil, List.drop_nil, List.nil_append, List.append_nil]
  · rw [file]

/-! ## Pieces -/

section Pieces
variable {sb : Superblock} {s : FsState} {f : Files FsMem} {i : Nat}

/-- Consecutive writes to one file, and one write of all the bytes, return and leave the same content
and offset; consecutive reads deliver what one read of all the bytes delivers. -/
theorem pieces_as_one_call (bounded : Bounded (some opLimit) sb) (serves : Serves none sb s f)
    (resting : Resting s) (ready : FileReady sb s i) :
    (∀ pieces : List (List Byte), (s.upper.rest.file i).writable = true →
      ((nodeOf s.content (fileInum s i)).type ≠ tDev → (s.upper.rest.file i).off ≤ (fileBytes s i).length →
        (s.upper.rest.file i).off + pieces.flatten.length ≤ maxFile * bSize) →
      (nodeOf s.content (fileInum s i)).demand (s.upper.rest.file i).off pieces.flatten.length ≤
        (freeBlocks sb s.content).card →
      ∃ rs u r t, (fsMachine fun _ => false).run (fileWrites i pieces) s = .ok rs u ∧
        (fsMachine fun _ => false).run (fileWrite i pieces.flatten) s = .ok r t ∧
        fileBytes u i = fileBytes t i ∧ (u.upper.rest.file i).off = (t.upper.rest.file i).off) ∧
    ∀ lengths : List Nat, lengths ≠ [] → (s.upper.rest.file i).readable = true →
      lengths.sum < 2147483648 →
      ∃ rs u r t, (fsMachine fun _ => false).run (fileReads i lengths) s = .ok rs u ∧
        (fsMachine fun _ => false).run (fileRead i lengths.sum) s = .ok r t ∧ concatenated rs = r := by
  have usable := serves.usable resting ready
  have inode := ready.inode
  have supplied := serves.supplies (serves.busy.symm.trans resting.idle)
  have node := serves.node ready.known
  rw [← serves.mem] at usable inode
  constructor
  · intro pieces writable bound enough
    obtain ⟨r, t, one, -, bytes, file⟩ := serves.fileWrite bounded resting ready writable enough
    rw [← serves.mem, ← node] at enough
    have asserts : (stockMachine sb.ninodes noLogBlock).Wp (fileWrites i pieces) (f.stocked sb s)
        (fun _ u => Stored sb.ninodes i (fileInum s i) pieces.flatten (f.stocked sb s) u ∧ True)
        fun _ _ => False := by
      refine (usable.fileWrites (serves.calm resting) ?_ inode (fun taken => ?_) enough).mono
        fun _ _ stored => ⟨stored, trivial⟩
      · change (f.mem.file i).writable = true
        rw [serves.mem]
        exact writable
      · change ¬ ((f.node _).type = tDev ∨ (f.node _).data.length < (f.mem.file i).off) at taken
        change (f.mem.file i).off + _ ≤ _
        rw [node, serves.mem, not_or, Nat.not_lt] at taken
        rw [serves.mem]
        exact bound taken.1 taken.2
    obtain ⟨rs, u, many, -, bytes', file'⟩ := serves.stores bounded resting ready asserts
    exact ⟨rs, u, r, t, many, one, bytes'.trans bytes.symm, by rw [file, file']⟩
  · intro lengths some readable short
    rw [← serves.mem] at readable
    obtain ⟨rs, u, -, many, all, -⟩ := supplied.returns bounded (usable.fileReads readable inode short)
    obtain ⟨r, t, -, one, ⟨whole, -⟩, -⟩ := supplied.returns bounded (usable.fileRead readable inode short)
    rw [if_neg some] at all
    exact ⟨rs, u, r, t, many, one, all.trans whole.symm⟩

end Pieces

/-- Two pieces written to the new file, and two reads at its end. -/
theorem pieces_of_three_bytes :
    (∃ rs u r t, (fsMachine fun _ => false).run (fileWrites 0 [[1, 2], [3]]) created = .ok rs u ∧
      (fsMachine fun _ => false).run (fileWrite 0 [1, 2, 3]) created = .ok r t ∧
      fileBytes u 0 = fileBytes t 0 ∧ (u.upper.rest.file 0).off = (t.upper.rest.file 0).off) ∧
    ∃ rs u r t, (fsMachine fun _ => false).run (fileReads 0 [1, 2]) created = .ok rs u ∧
      (fsMachine fun _ => false).run (fileRead 0 3) created = .ok r t ∧ concatenated rs = r := by
  obtain ⟨files, serves⟩ := created_serves
  obtain ⟨-, -, -, ⟨-, readable, writable, start⟩, -⟩ := created_state
  obtain ⟨writes, reads⟩ := pieces_as_one_call roomy_bounded serves created_resting created_ready
  refine ⟨writes [[1, 2], [3]] writable (fun _ _ => ?_) (created_demand _), reads [1, 2] nofun readable (by decide)⟩
  rw [start]
  decide

end OsAudio.Fs

import OsAudio.Fs.FileRead
import OsAudio.Fs.Holes

/-!
# The bytes `file_read` and `file_write` move

What the two functions do in terms of files: one delivers bytes of the content from the offset of
the descriptor on, the other puts bytes there.
-/
namespace OsAudio.Fs
open OsAudio.Lib
open Function (update update_self)

/-! ## Calls on files -/

/-- The machine has the calls on files that allocate no blocks. -/
def HasReads (ninodes : Nat) (forbidden : Mark → Bool)
    (M : Machine (InodeSig FsMem) Stop (Files FsMem)) : Prop :=
  ∀ op, InodeOp.keepsBlocks op = true → M op = filesMachine none ninodes forbidden op

/-- The reasons to stop that files know. -/
abbrev KnownStop (w : Stop) (_ : Files FsMem) : Prop := w ≠ .beyond

section Calls
variable {ninodes : Nat} {forbidden : Mark → Bool} {M : Machine (InodeSig FsMem) Stop (Files FsMem)}
  {f : Files FsMem} {ip : Nat}

theorem hasReads_only :
    HasReads ninodes forbidden ((filesMachine none ninodes forbidden).only InodeOp.keepsBlocks .beyond) := by
  intro op calm
  funext g
  exact if_pos calm

theorem hasReads_all : HasReads ninodes forbidden (filesMachine none ninodes forbidden) :=
  fun _ _ => rfl

variable {E : Stop → Files FsMem → Prop} {Q : Unit → Files FsMem → Prop}

section
variable (has : HasReads ninodes forbidden M)
include has

theorem HasReads.op {op : (InodeSig FsMem).Op} {Q : (InodeSig FsMem).Res op → Files FsMem → Prop}
    (calm : InodeOp.keepsBlocks op = true)
    (sat : (filesMachine none ninodes forbidden op f).Sat Q E) : M.Wp (Prog.op op) f Q E := by
  refine .op ?_
  rwa [has op calm]

theorem HasReads.getFs {Q : FsMem → Files FsMem → Prop} (next : Q f.mem f) :
    M.Wp getFs f Q E := has.op rfl next

theorem HasReads.setFs {mem : FsMem} (next : Q () { f with mem := mem }) :
    M.Wp (setFs mem) f Q E := has.op rfl next

theorem HasReads.setFile {i : Nat} {file : File}
    (next : Q () { f with mem := { f.mem with file := update f.mem.file i file } }) :
    M.Wp (setFile i file) f Q E := .seq (has.getFs (has.setFs next))

theorem HasReads.begin (next : Q () { f with inTrans := true }) : M.Wp begin f Q KnownStop := by
  refine has.op rfl ?_
  change (if f.inTrans then .stop .sleep f else .ok () { f with inTrans := true } : Outcome _ _ _).Sat Q KnownStop
  split
  · exact nofun
  · exact next

theorem HasReads.commit {Q : Unit → Files FsMem → Prop} {E : Stop → Files FsMem → Prop}
    (next : Q () { f with inTrans := false, touched := ∅, spent := 0 }) : M.Wp commit f Q E :=
  has.op rfl next

/-- `inode_lock` puts the inode in hand. -/
theorem HasReads.ilock (known : (f.slot ip).inum < ninodes)
    (next : ∀ slot, slot.inHand → slot.busy = true → slot.inum = (f.slot ip).inum →
      slot = { f.slot ip with busy := true } ∧ (f.slot ip).inHand ∨
        slot = (f.slot ip).load (f.node (f.slot ip).inum) → Q () (f.setSlot ip slot)) :
    M.Wp (ilock ip) f Q KnownStop := by
  refine has.op rfl ?_
  change (filesLock ninodes f ip).Sat Q KnownStop
  unfold filesLock
  dsimp only
  split
  · exact nofun
  next used =>
  have used : 0 < (f.slot ip).ref := by omega
  split
  · exact nofun
  split
  · next valid => exact next _ ⟨used, valid⟩ rfl rfl (Or.inl ⟨rfl, used, valid⟩)
  split
  · next beyond => exact absurd known (Nat.not_lt.mpr beyond)
  split
  · exact nofun
  · exact next _ ⟨used, rfl⟩ rfl rfl (Or.inr rfl)

theorem HasReads.iunlock (next : Q () (f.setSlot ip { f.slot ip with busy := false })) :
    M.Wp (iunlock ip) f Q KnownStop := by
  refine has.op rfl ?_
  change (filesUnlock f ip).Sat Q KnownStop
  unfold filesUnlock
  split
  · exact nofun
  · exact next

/-- `inode_read` on an inode in hand. -/
theorem HasReads.iread {off n : Nat} {Q : Option (List Byte) → Files FsMem → Prop}
    (hand : (f.slot ip).inHand) (short : n < 4294967296) (bad : Q none f)
    (good : Q (some (((f.node (f.slot ip).inum).data.drop off).take n)) f) :
    M.Wp (iread ip off n) f Q KnownStop := by
  refine has.op rfl ?_
  change (filesRead f ip off n).Sat Q KnownStop
  unfold filesRead devswResult
  dsimp only
  split
  · next out => exact absurd out (by simp only [not_or, not_not]; exact ⟨hand, by omega⟩)
  split
  · split
    · exact bad
    · exact nofun
  split
  · exact bad
  · exact good

/-- A call on a descriptor begins by looking up the open file. -/
theorem HasReads.openFile {α : Type} {pid fd i : Nat} {next : Nat → FsProg α}
    {Q : α → Files FsMem → Prop} (small : fd < noFile)
    (opened : (f.mem.proc pid).openfiles fd = some i)
    (rest : M.Wp (next i) { f with mem := { f.mem with curid := pid } } Q KnownStop) :
    M.Wp (setCurid pid >>= fun _ => openFile fd >>= next) f Q KnownStop := by
  refine .seq (.seq (has.getFs (has.setFs ?_)))
  refine .seq (.seq (has.getFs ?_))
  rw [if_neg (Nat.not_le.mpr small)]
  dsimp only
  rw [opened]
  exact .ret rest

end

end Calls

/-! ## Runs without marks -/

section Marks
variable {forbidden : Mark → Bool}

theorem marks_buf {μ : Type} : (bufMachine (μ := μ) fun _ => false).Refines (bufMachine forbidden) Eq Eq
    (fun _ => False) fun w => ∃ mark, forbidden mark = true ∧ w = .marked mark := by
  have same : ∀ {α : Type} (o : Outcome Stop (BufSys μ) α), o.Matches Eq Eq (fun _ => False)
      (fun w => ∃ mark, forbidden mark = true ∧ w = .marked mark) o := by
    intro α o
    cases o with
    | ok a s => exact ⟨rfl, rfl⟩
    | stop w s => exact Or.inl ⟨rfl, rfl⟩
  rintro op s t rfl
  cases op with
  | mark mark hit =>
    unfold bufMachine
    dsimp only
    rw [Bool.and_false, if_neg nofun]
    split
    · next marked => exact ⟨mark, (Bool.and_eq_true_iff.mp marked).2, rfl⟩
    · exact ⟨rfl, rfl⟩
  | _ => exact same _

theorem marks_fs : (fsMachine fun _ => false).Refines (fsMachine forbidden) Eq Eq (fun _ => False)
    fun w => ∃ mark, forbidden mark = true ∧ w = .marked mark := by
  have logs := Machine.Refines.through (T := LogSig (InodeMem FsMem)) (@marks_buf forbidden _)
    (fun _ _ same => same) logImpl
  exact Machine.Refines.through (T := InodeSig FsMem) logs (fun _ _ same => same) inodeImpl

/-- A run that meets none of the marks is the same on the machine that stops at them. -/
theorem run_unmarked {α : Type} {p : FsProg α} {s t : FsState} {a : α}
    (unmarked : ∀ mark, forbidden mark = true →
      ((fsMachine forbidden).run p s).reason ≠ some (.marked mark))
    (done : (fsMachine fun _ => false).run p s = .ok a t) : (fsMachine forbidden).run p s = .ok a t := by
  have matched := (@marks_fs forbidden).run (fun _ _ same => same) p (rfl : s = s)
  rw [done] at matched
  cases marked : (fsMachine forbidden).run p s with
  | ok b u =>
    rw [marked] at matched
    obtain ⟨rfl, rfl⟩ := matched
    rfl
  | stop w u =>
    rw [marked] at matched unmarked
    obtain ⟨mark, hit, rfl⟩ := matched
    exact absurd rfl (unmarked mark hit)

end Marks

/-! ## Reading -/

section Reading
variable {ninodes : Nat} {forbidden : Mark → Bool} {M : Machine (InodeSig FsMem) Stop (Files FsMem)}
  {f : Files FsMem} {n : Nat}

/-- `file_read` changes no file and delivers bytes of the content. -/
theorem HasReads.fileRead (has : HasReads ninodes forbidden M) (i : Nat)
    (known : (f.slot (f.mem.file i).ip).inum < ninodes) (short : n < 4294967296) :
    M.Wp (fileRead i n) f
      (fun r g => g.node = f.node ∧ ∀ bytes, r = some bytes →
        bytes = ((f.node (f.slot (f.mem.file i).ip).inum).data.drop (f.mem.file i).off).take n)
      KnownStop := by
  unfold Fs.fileRead
  refine .seq (has.getFs ?_)
  dsimp only
  split
  · exact .ret ⟨rfl, nofun⟩
  split
  · refine .seq (has.ilock known fun slot hand busy inum _ => ?_)
    have here : (f.setSlot (f.mem.file i).ip slot).slot (f.mem.file i).ip = slot :=
      update_self ..
    refine .seq (has.iread (by rwa [here]) short ?_ ?_)
    · exact .seq (has.iunlock (.ret ⟨rfl, nofun⟩))
    · rw [here, inum]
      refine .seq (has.setFile (.seq (has.iunlock (.ret ⟨rfl, ?_⟩))))
      rintro bytes ⟨⟩
      rfl
  · exact .stop nofun

/-- The inode that an open file of the kernel refers to. -/
def fileInum (s : FsState) (i : Nat) : Nat := (s.upper.icache (s.upper.rest.file i).ip).inum

/-- The bytes of that file. -/
def fileBytes (s : FsState) (i : Nat) : List Byte := (nodeOf s.content (fileInum s i)).data

theorem Serves.mem {limit : Option Nat} {sb : Superblock} {s : FsState} (serves : Serves limit sb s f) :
    f.mem = s.upper.rest := by
  obtain ⟨v, presented, holds⟩ := serves
  rw [presented.upper_eq, holds.rest]

/-- A `sys_read` that succeeds has delivered bytes of the file from the old offset on; no file has
changed. -/
theorem Serves.sysRead_bytes {sb : Superblock} {s t : FsState} (serves : Serves none sb s f)
    {pid fd i : Nat} (opened : descriptor s pid fd = some i) (known : fileInum s i < sb.ninodes)
    (short : n < 4294967296) {reply : Reply} {bytes : List Byte}
    (returned : (fsMachine forbidden).run (setCurid pid >>= fun _ => sysRead fd n) s =
      .ok (reply, bytes) t) :
    (reply.errno = .succ → bytes = ((fileBytes s i).drop (s.upper.rest.file i).off).take n) ∧
    (∃ g, Serves none sb t g) ∧ ∀ j, j < sb.ninodes → nodeOf t.content j = nodeOf s.content j := by
  have slot : (f.slot (s.upper.rest.file i).ip).inum = fileInum s i := by
    rw [serves.slot]
    rfl
  have has : HasReads sb.ninodes forbidden _ := hasReads_only
  have asserts : ((filesMachine none sb.ninodes forbidden).only InodeOp.keepsBlocks .beyond).Wp
      (setCurid pid >>= fun _ => sysRead fd n) f
      (fun r g => g.node = f.node ∧ (r.1.errno = .succ →
        r.2 = ((f.node (fileInum s i)).data.drop (s.upper.rest.file i).off).take n)) KnownStop := by
    unfold descriptor at opened
    split at opened
    · cases opened
    next small =>
    refine has.openFile (Nat.not_le.mp small) (by rw [serves.mem]; exact opened) ?_
    refine .bind (has.fileRead i ?_ short) fun r g read => ?_
    · dsimp only
      rw [serves.mem, slot]
      exact known
    · dsimp only at read
      rw [serves.mem, slot] at read
      cases r with
      | none => exact .ret ⟨read.1, nofun⟩
      | some bytes => exact .ret ⟨read.1, fun _ => read.2 bytes rfl⟩
  obtain ⟨g, -, ⟨nodes, content⟩, after⟩ := serves_refines_only.of_ok (fun _ _ _ => trivial) serves
    asserts (fun _ _ known beyond => known beyond) returned
  rw [serves.node known] at content
  refine ⟨content, ⟨g, after⟩, fun j below => ?_⟩
  rw [← after.node below, nodes, serves.node below]

end Reading

/-! ## Writing -/

/-- The inode takes `n` bytes at `off`. -/
def Node.Takes (node : Node) (off n : Nat) : Prop :=
  node.type ≠ tDev ∧ off ≤ node.data.length ∧ off + n ≤ maxFile * bSize

instance (node : Node) (off n : Nat) : Decidable (node.Takes off n) :=
  inferInstanceAs (Decidable (_ ∧ _))

section Writing
variable {ninodes : Nat} {forbidden : Mark → Bool} {f : Files FsMem} {ip : Nat}

theorem splice_nil (data : List Byte) (off : Nat) : splice data off [] = data := by
  simp [splice]

variable {off inum : Nat} {src : List Byte}

/-- Two writes, one after the other. -/
theorem splice_append {data first second : List Byte} (le : off ≤ data.length) :
    splice (splice data off first) (off + first.length) second = splice data off (first ++ second) := by
  have longer : off + first.length ≤ (splice data off first).length := by
    rw [length_splice le]
    omega
  refine List.ext_getElem? fun k => ?_
  rw [getElem?_splice longer, getElem?_splice le, getElem?_splice le, List.length_append]
  by_cases late : off + first.length ≤ k
  · by_cases inside : k < off + first.length + second.length
    · rw [if_pos ⟨late, inside⟩, if_pos (by omega), List.getElem?_append_right (by omega)]
      congr 1
      omega
    · rw [if_neg (by omega), if_neg (by omega), if_neg (by omega)]
  · rw [if_neg (by omega)]
    by_cases early : off ≤ k
    · rw [if_pos (by omega), if_pos (by omega), List.getElem?_append_left (by omega)]
    · rw [if_neg (by omega), if_neg (by omega)]

theorem length_cut (src : List Byte) (m : Nat) : (src.take m).length + (src.drop m).length = src.length := by
  rw [← List.length_append, List.take_append_drop]

/-- After its first bytes, the inode takes the rest exactly if it takes them all. -/
theorem Node.Takes.rest {node node' : Node} {m : Nat}
    (first : node.Takes off (src.take m).length) (data : node'.data = splice node.data off (src.take m))
    (type : node'.type = node.type) :
    src.drop m = [] ∨ node'.Takes (off + (src.take m).length) (src.drop m).length ↔
      node.Takes off src.length := by
  obtain ⟨file, inside, bound⟩ := first
  have whole := length_cut src m
  unfold Node.Takes
  rw [type, data, length_splice inside]
  constructor
  · rintro (none | ⟨-, -, rest⟩)
    · rw [none, List.length_nil] at whole
      exact ⟨file, inside, by omega⟩
    · exact ⟨file, inside, by omega⟩
  · rintro ⟨-, -, all⟩
    exact Or.inr ⟨file, by omega, by omega⟩

/-- Entry `ip` of the cache is one for inode `inum`; if it is a copy, it has the type and the size of
the inode. -/
structure Entry (f : Files FsMem) (ip inum : Nat) : Prop where
  named : (f.slot ip).inum = inum
  current : (f.slot ip).inHand →
    (f.slot ip).type = (f.node inum).type ∧ (f.slot ip).size = (f.node inum).data.length
  small : (f.node inum).data.length ≤ maxFile * bSize

theorem Entry.ilock {Q : Unit → Files FsMem → Prop} (entry : Entry f ip inum)
    (known : inum < ninodes) (next : ∀ g, Entry g ip inum → (g.slot ip).inHand → g.node = f.node →
      g.mem = f.mem → Q () g) :
    (filesMachine none ninodes forbidden).Wp (ilock ip) f Q KnownStop := by
  obtain ⟨named, current, small⟩ := entry
  refine hasReads_all.ilock (by rwa [named]) fun slot hand _ same load => ?_
  have here : (f.setSlot ip slot).slot ip = slot := update_self ..
  refine next _ ⟨?_, fun _ => ?_, small⟩ (by rwa [here]) rfl rfl
  · rw [here, same, named]
  · rw [here]
    rcases load with ⟨rfl, before⟩ | rfl
    · exact current before
    · rw [named]
      exact ⟨rfl, rfl⟩

theorem Entry.iunlock {Q : Unit → Files FsMem → Prop} (entry : Entry f ip inum)
    (next : ∀ g, Entry g ip inum → g.node = f.node → g.mem = f.mem → Q () g) :
    (filesMachine none ninodes forbidden).Wp (iunlock ip) f Q KnownStop := by
  obtain ⟨named, current, small⟩ := entry
  refine hasReads_all.iunlock (next _ ⟨?_, ?_, small⟩ rfl rfl)
  · change (update f.slot ip _ ip).inum = inum
    rwa [update_self]
  · change (update f.slot ip _ ip).inHand → (update f.slot ip _ ip).type = _ ∧
      (update f.slot ip _ ip).size = _
    rw [update_self]
    exact current

/-- What `inode_write` makes of the inode in hand. -/
theorem Entry.store {inum off cost : Nat} {src : List Byte} (entry : Entry f ip inum)
    (hand : (f.slot ip).inHand) (takes : (f.node inum).Takes off src.length) :
    Entry ((f.charge inum cost).store ip off src) ip inum ∧
    (((f.charge inum cost).store ip off src).node inum).data = splice (f.node inum).data off src ∧
    (((f.charge inum cost).store ip off src).node inum).type = (f.node inum).type ∧
    ((f.charge inum cost).store ip off src).mem = f.mem := by
  obtain ⟨named, current, small⟩ := entry
  obtain ⟨type, size⟩ := current hand
  have length := @length_splice (f.node inum).data src off takes.2.1
  have bound := takes.2.2
  have slots : (f.charge inum cost).slot = f.slot := rfl
  have nodes : (f.charge inum cost).node = f.node := rfl
  unfold Files.store
  dsimp only
  rw [slots, nodes, named]
  split
  · next grows =>
    refine ⟨⟨?_, fun _ => ?_, ?_⟩, ?_, ?_, rfl⟩
    · simp only [Files.setSlot, Files.setNode, Files.charge, update_self]
    · simp only [Files.setSlot, Files.setNode, Files.charge, update_self, length]
      exact ⟨trivial, by omega⟩
    · simp only [Files.setSlot, Files.setNode, Files.charge, update_self, length]
      omega
    · simp only [Files.setSlot, Files.setNode, Files.charge, update_self]
    · simpa only [Files.setSlot, Files.setNode, Files.charge, update_self] using type
  · next inside =>
    refine ⟨⟨named, fun _ => ?_, ?_⟩, ?_, ?_, rfl⟩
    · simp only [Files.setNode, Files.charge, update_self, length]
      exact ⟨type, by omega⟩
    · simp only [Files.setNode, Files.charge, update_self, length]
      omega
    · simp only [Files.setNode, Files.charge, update_self]
    · simp only [Files.setNode, Files.charge, update_self]

/-- `inode_write` on an inode in hand. -/
theorem Entry.iwrite {Q : Int → Files FsMem → Prop}
    (entry : Entry f ip inum) (hand : (f.slot ip).inHand) (some : src ≠ [])
    (short : src.length ≤ maxWrite)
    (bad : ¬ (f.node inum).Takes off src.length → Q (-1) f)
    (good : (f.node inum).Takes off src.length → ∀ g, Entry g ip inum →
      (g.node inum).data = splice (f.node inum).data off src → (g.node inum).type = (f.node inum).type →
      g.mem = f.mem → Q src.length g) :
    (filesMachine none ninodes forbidden).Wp (iwrite ip off src) f Q KnownStop := by
  have limits : maxFile * bSize = 71680 ∧ maxWrite = 1536 := by decide
  have small := entry.small
  obtain ⟨type, size⟩ := entry.current hand
  refine .op ?_
  change (filesWrite none f ip off src).Sat Q KnownStop
  unfold filesWrite devswResult
  dsimp only
  rw [type, size, entry.named]
  split
  · next out => exact absurd out (by simp only [not_or, not_not]; exact ⟨hand, by omega⟩)
  split
  · next device =>
    split
    · exact bad fun takes => takes.1 device
    · exact nofun
  next file =>
  split
  · next beyond => exact bad fun takes => by have := takes.2; omega
  split
  · next long => exact bad fun takes => by have := takes.2; omega
  next fits inside =>
  unfold logging
  split
  · next exceeds => cases exceeds
  split
  · exact nofun
  split
  · exact nofun
  · have takes : (f.node inum).Takes off src.length := ⟨file, by omega, by omega⟩
    obtain ⟨after, data, kind, mem⟩ :=
      @Entry.store f ip inum off (writeCost off src.length) src entry hand takes
    exact good takes _ after data kind mem

theorem wp_fileWriteFrom {i fuel : Nat} (entry : Entry f (f.mem.file i).ip inum)
    (known : inum < ninodes) (enough : src.length ≤ fuel) :
    (filesMachine none ninodes forbidden).Wp (fileWriteFrom i fuel src) f
      (fun all g => (all = true ↔ src = [] ∨ (f.node inum).Takes (f.mem.file i).off src.length) ∧
        (all = true → (g.node inum).data = splice (f.node inum).data (f.mem.file i).off src ∧
          (g.mem.file i).off = (f.mem.file i).off + src.length))
      KnownStop := by
  have has : HasReads ninodes forbidden (filesMachine none ninodes forbidden) := hasReads_all
  induction fuel generalizing f src with
  | zero =>
    obtain rfl : src = [] := List.length_eq_zero_iff.mp (Nat.le_zero.mp enough)
    refine .ret ⟨by simp, fun _ => ⟨?_, rfl⟩⟩
    rw [splice_nil]
  | succ fuel ih =>
    unfold fileWriteFrom
    split
    · next empty =>
      obtain rfl : src = [] := List.isEmpty_iff.mp empty
      refine .ret ⟨by simp, fun _ => ⟨?_, rfl⟩⟩
      rw [splice_nil]
    next nonempty =>
    have some : src ≠ [] := fun empty => nonempty (List.isEmpty_iff.mpr empty)
    have positive : 0 < src.length := List.length_pos_iff.mpr some
    have chunk : (src.take maxWrite).length = min maxWrite src.length := List.length_take
    have limit : maxWrite = 1536 := by decide
    dsimp only
    refine .seq (has.begin (.seq (has.getFs ?_)))
    dsimp only
    have begun : Entry { f with inTrans := true } (f.mem.file i).ip inum := ⟨entry.named, entry.current, entry.small⟩
    refine .seq (begun.ilock known fun g locked hand node mem => ?_)
    dsimp only at node mem
    refine .seq (locked.iwrite hand (fun empty => ?_) (by omega) (fun refused => ?_) fun takes h written data type same => ?_)
    · rw [empty, List.length_nil] at chunk
      omega
    · rw [if_neg (by decide)]
      refine .seq (locked.iunlock fun g' _ node' mem' => .seq (has.commit ?_))
      rw [if_pos (by decide)]
      refine .ret ⟨iff_of_false nofun ?_, nofun⟩
      rintro (empty | takes)
      · exact some empty
      · refine refused ?_
        rw [node]
        have bound := takes.2.2
        exact ⟨takes.1, takes.2.1, by omega⟩
    · rw [if_pos (by omega)]
      refine .seq (has.setFile ?_)
      have moved : ∀ file, Entry { h with mem := { h.mem with file := update h.mem.file i file } }
          (f.mem.file i).ip inum := fun _ => ⟨written.named, written.current, written.small⟩
      refine .seq ((moved _).iunlock fun g' unlocked node' mem' => .seq (has.commit ?_))
      rw [if_neg (by omega), if_neg (not_not.mpr rfl)]
      dsimp only at node' mem'
      rw [node] at takes data type
      have bounds : maxFile * bSize = 71680 := by decide
      have advanced : g'.mem.file i =
          { f.mem.file i with off := (f.mem.file i).off + (src.take maxWrite).length } := by
        rw [mem']
        dsimp only
        rw [update_self, Int.toNat_natCast, Nat.mod_eq_of_lt]
        have := takes.2.2
        omega
      have rest := @ih { g' with inTrans := false, touched := ∅, spent := 0 } (src.drop maxWrite) ?_ ?_
      · refine rest.mono fun all k holds => ?_
        dsimp only at holds
        rw [advanced, node', takes.rest data type] at holds
        obtain ⟨success, content⟩ := holds
        refine ⟨?_, fun done => ?_⟩
        · rw [success]
          exact (or_iff_right some).symm
        · obtain ⟨bytes, offset⟩ := content done
          rw [bytes, offset, data, splice_append takes.2.1, List.take_append_drop]
          refine ⟨rfl, ?_⟩
          rw [Nat.add_assoc, length_cut]
      · dsimp only
        rw [advanced]
        exact ⟨unlocked.named, unlocked.current, unlocked.small⟩
      · rw [List.length_drop]
        omega

/-- `file_write` on a writable descriptor. -/
theorem wp_fileWrite {i inum : Nat} {src : List Byte} (entry : Entry f (f.mem.file i).ip inum)
    (known : inum < ninodes) (writable : (f.mem.file i).writable = true) :
    (filesMachine none ninodes forbidden).Wp (fileWrite i src) f
      (fun r g => if src = [] ∨ (f.node inum).Takes (f.mem.file i).off src.length then
        r = src.length ∧ (g.node inum).data = splice (f.node inum).data (f.mem.file i).off src ∧
          (g.mem.file i).off = (f.mem.file i).off + src.length
      else r = -1) KnownStop := by
  unfold fileWrite
  refine .seq (hasReads_all.getFs ?_)
  dsimp only
  rw [writable, Bool.not_true, if_neg nofun]
  split
  · refine .bind (wp_fileWriteFrom entry known (Nat.le_refl _)) fun all g holds => .ret ?_
    obtain ⟨success, content⟩ := holds
    split
    · next takes =>
      have done := success.mpr takes
      exact ⟨if_pos done, content done⟩
    · next refused => exact if_neg (fun done => refused (success.mp done))
  · exact .stop nofun

/-- The entries of the cache in a kernel that serves files. -/
theorem Serves.entry {sb : Superblock} {s : FsState} (serves : Serves none sb s f)
    (known : (s.upper.icache ip).inum < sb.ninodes) : Entry f ip (s.upper.icache ip).inum := by
  have named : (f.slot ip).inum = (s.upper.icache ip).inum := by
    rw [serves.slot]
    rfl
  obtain ⟨v, -, holds⟩ := serves
  refine ⟨named, fun hand => ?_, ?_⟩
  · have copy := holds.inHand hand
    obtain ⟨type, -, size, -⟩ := holds.fields ip
    rw [named] at copy
    rw [type, size, copy.node holds, length_contentOf, holds.nodes _ known]
    exact ⟨copy.copies.type, rfl⟩
  · rw [holds.nodes _ known]
    unfold nodeOf
    dsimp only
    split
    · exact Nat.zero_le _
    · next used =>
      rw [length_contentOf]
      exact (holds.intact.filled _ known used).small

/-- A `sys_write` on a writable descriptor, without a block of the log: it puts the bytes at the
offset, and succeeds, if the inode takes them all. -/
theorem Serves.sysWrite_bytes (safe : forbidden .logBlock = true) {sb : Superblock} {s t : FsState}
    (serves : Serves none sb s f) {pid fd i : Nat} (opened : descriptor s pid fd = some i)
    (known : fileInum s i < sb.ninodes) (writable : (s.upper.rest.file i).writable = true)
    {reply : Reply}
    (returned : (fsMachine forbidden).run (setCurid pid >>= fun _ => sysWrite fd src) s = .ok reply t) :
    if src = [] ∨ (nodeOf s.content (fileInum s i)).Takes (s.upper.rest.file i).off src.length then
      reply = ⟨.succ, some src.length⟩ ∧
      (nodeOf t.content (fileInum s i)).data =
        splice (fileBytes s i) (s.upper.rest.file i).off src ∧
      (t.upper.rest.file i).off = (s.upper.rest.file i).off + src.length
    else reply = ⟨.badf, some (-1)⟩ := by
  have has : HasReads sb.ninodes forbidden (filesMachine none sb.ninodes forbidden) := hasReads_all
  have mem := serves.mem
  have node := serves.node known
  have asserts : (filesMachine none sb.ninodes forbidden).Wp
      (setCurid pid >>= fun _ => sysWrite fd src) f
      (fun r g => if src = [] ∨ (f.node (fileInum s i)).Takes (s.upper.rest.file i).off src.length then
        r = ⟨.succ, some src.length⟩ ∧
        (g.node (fileInum s i)).data =
          splice (f.node (fileInum s i)).data (s.upper.rest.file i).off src ∧
        (g.mem.file i).off = (s.upper.rest.file i).off + src.length
      else r = ⟨.badf, some (-1)⟩) KnownStop := by
    unfold descriptor at opened
    split at opened
    · cases opened
    next small =>
    refine has.openFile (Nat.not_le.mp small) (by rw [mem]; exact opened) ?_
    have entry := serves.entry known
    refine .bind (@wp_fileWrite _ _ { f with mem := { f.mem with curid := pid } } i (fileInum s i) src
      ?_ known ?_) fun r g holds => ?_
    · dsimp only
      rw [mem]
      exact ⟨entry.named, entry.current, entry.small⟩
    · dsimp only
      rwa [mem]
    · dsimp only at holds
      rw [mem] at holds
      split at holds
      · next takes =>
        obtain ⟨rfl, content⟩ := holds
        rw [if_neg (by omega)]
        refine .ret ?_
        rw [if_pos takes]
        exact ⟨rfl, content⟩
      · next refused =>
        subst holds
        rw [if_pos (by decide)]
        refine .ret ?_
        rw [if_neg refused]
  obtain ⟨g, -, post, after⟩ := (serves_refines safe).of_ok (fun _ _ _ => trivial) serves asserts
    (fun _ _ known beyond => known beyond) returned
  rwa [node, after.node known, after.mem] at post

end Writing

end OsAudio.Fs

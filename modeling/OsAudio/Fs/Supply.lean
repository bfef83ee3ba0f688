import OsAudio.Fs.FileBytes

/-!
# Files with blocks to spare

The inode layer may stop where files do not, when no data block is left.  Here files come with a
stock, a number of data blocks that are known to be free, and a write that makes a file grow takes
from it.  Within the limits of `Bounded` the kernel then never stops where this interface returns
(`stock_refines`), so that what is proved to return on it returns in the kernel.
-/
namespace OsAudio.Fs
open OsAudio.Lib

/-! ## How many blocks a file takes -/

/-- The blocks of a file without holes: those of the content, and the indirect block. -/
def blocksFor (size : Nat) : Nat :=
  (size + (bSize - 1)) / bSize + if nDirect * bSize < size then 1 else 0

/-- How many blocks a write of `n` bytes at `off` adds to a file. -/
def growth (size off n : Nat) : Nat := blocksFor (max size (off + n)) - blocksFor size

theorem Filled.indirect {data : Nat → Bytes} {a : Nat → Nat} {size : Nat} (filled : Filled data a size)
    (long : nDirect * bSize < size) : a nDirect ≠ 0 := by
  intro none
  have some := filled.covers nDirect long
  rw [blockNo_entry (Nat.le_refl _) (by decide), if_pos none] at some
  exact some rfl

/-- A file without holes lacks at most the blocks by which it grows. -/
theorem Filled.lacking_le {data : Nat → Bytes} {a : Nat → Nat} {size off n : Nat}
    (filled : Filled data a size) (le : off ≤ size) : lacking data a off n ≤ growth size off n := by
  have span : n ≠ 0 → span off n = (off % 512 + n + 511) / 512 := fun some => if_neg some
  have none : n = 0 → Fs.span off n = 0 := fun zero => if_pos zero
  have blocks : ((Finset.Ico (off / bSize) (off / bSize + Fs.span off n)).filter
      fun i => blockNo data a i = 0).card ≤ (off + n + 511) / 512 - (size + 511) / 512 := by
    rw [← Nat.card_Ico]
    refine Finset.card_le_card fun i member => ?_
    obtain ⟨range, absent⟩ := Finset.mem_filter.mp member
    obtain ⟨low, high⟩ := Finset.mem_Ico.mp range
    have late : ¬ i * bSize < size := fun inside => filled.covers i inside absent
    unfold bSize at low high late
    rw [Finset.mem_Ico]
    by_cases zero : n = 0
    · have := none zero
      omega
    · have := span zero
      omega
  unfold lacking growth blocksFor
  by_cases extra : nDirect < off / bSize + Fs.span off n ∧ 0 < n ∧ a nDirect = 0
  · rw [if_pos extra]
    obtain ⟨far, positive, absent⟩ := extra
    have short : ¬ nDirect * bSize < size := fun long => filled.indirect long absent
    have := span (by omega)
    unfold nDirect bSize at *
    rw [if_neg short, if_pos (by omega)]
    omega
  · rw [if_neg extra]
    unfold nDirect bSize at *
    split_ifs <;> omega

/-! ## The interface -/

structure Stocked (ν : Type) where
  files : Files ν
  /-- So many data blocks at least are free. -/
  stock : Nat

section Machine
variable {ν α : Type}

/-- A call that takes nothing from the stock.  Where files stop, nothing is promised. -/
def Stocked.call (s : Stocked ν) : Outcome Stop (Files ν) α → Outcome Stop (Stocked ν) α
  | .ok a g => .ok a { s with files := g }
  | .stop _ _ => .stop .beyond s

def Stocked.write (s : Stocked ν) (ip off : Nat) (src : List Byte) : Outcome Stop (Stocked ν) Int :=
  let need := growth (s.files.slot ip).size off src.length
  match filesWrite (some opLimit) s.files ip off src with
  | .ok r g =>
    if r ≤ 0 then .ok r { s with files := g }
    else if s.stock < need then .stop .beyond s
    else .ok r ⟨g, s.stock - need⟩
  | .stop _ _ => .stop .beyond s

/-- `inode_put` that does not free the inode. -/
def Stocked.put (s : Stocked ν) (ip : Nat) : Outcome Stop (Stocked ν) Unit :=
  let slot := s.files.slot ip
  if slot.ref = 1 ∧ slot.valid ∧ slot.nlink = 0 then .stop .beyond s
  else s.call (filesPut (some opLimit) s.files ip)

/-- The calls of the inode layer on files with a stock of blocks. -/
def stockMachine (ninodes : Nat) (forbidden : Mark → Bool) :
    Machine (InodeSig ν) Stop (Stocked ν) := fun op s =>
  match op with
  | .write ip off src => s.write ip off src
  | .put ip => s.put ip
  | .alloc _ => .stop .beyond s
  | op => s.call (filesMachine (some opLimit) ninodes forbidden op s.files)

/-- The volume holds the files and has the blocks. -/
structure Stocks (sb : Superblock) (v : Vol (InodeMem ν)) (s : Stocked ν) : Prop where
  holds : Holds (some opLimit) sb v s.files
  free : s.stock ≤ (freeBlocks sb v.data).card

end Machine

/-! ## Calls that do not stop -/

section Calls
variable {ν α : Type} {sb : Superblock} {limit : Option Nat} {forbidden : Mark → Bool}
  {v : Vol (InodeMem ν)} {f : Files ν} {p : LogProg (InodeMem ν) α} {ip inum : Nat}

/-- The program returns and takes no block. -/
def TakesNone (forbidden : Mark → Bool) (sb : Superblock) (p : LogProg (InodeMem ν) α)
    (v : Vol (InodeMem ν)) : Prop :=
  (volMachine forbidden).Wp p v (fun _ w => freeBlocks sb w.data = freeBlocks sb v.data) fun _ _ => False

variable {g : Files ν} {b : Unit} {off : Nat}

/-- Storing an inode leaves the bitmap alone. -/
theorem freeBlocks_iblock {data : Nat → Bytes} {bytes : Bytes} (below : inum < sb.ninodes) :
    freeBlocks sb (Function.update data (iblock inum) bytes) = freeBlocks sb data := by
  unfold freeBlocks
  refine Finset.filter_congr fun c _ => ?_
  rw [inUse_update]
  unfold bblock iblock bpb ipb
  omega

theorem takesNone_update (bounded : Bounded limit sb) (holds : Holds limit sb v f)
    (returns : filesUpdate limit f ip = .ok b g) : TakesNone forbidden sb (inodeUpdate ip) v := by
  unfold filesUpdate logging at returns
  dsimp only at returns
  split at returns
  · cases returns
  next good =>
  have hand := holds.inHand (not_not.mp good)
  split at returns
  · cases returns
  next few =>
  split at returns
  · cases returns
  next up =>
  split at returns
  · cases returns
  next busy =>
  obtain ⟨targets, -, -, -, -, room⟩ := holds.room_inode _ (Bool.eq_false_iff.mpr few)
  refine .weaken (E := Fails ample) (wp_inodeUpdate holds.layout holds.laid holds.idle hand.named hand.below
    (fun _ => room bounded) (holds.up.trans (Bool.not_eq_false _ ▸ up))
    (holds.flag.trans (Bool.not_eq_false _ ▸ busy)) fun _ _ => ?_) fun _ _ fails => fails.never
  exact freeBlocks_iblock hand.below

/-- `inode_write` within the limits of the transaction. -/
theorem InHand.wp_inodeWrite {lim : Limits} {off : Nat} {src : List Byte} (hand : InHand sb v ip inum)
    (holds : Holds limit sb v f) (safe : forbidden .logBlock = true ∨ lim.spare) (up : v.up = lim.up)
    (flag : v.inTrans = lim.inTrans) (roomy : lim.roomy → Bounded limit sb)
    (file : (v.mem.icache ip).type ≠ tDev) (le : off ≤ (v.mem.icache ip).size)
    (bound : off + src.length ≤ maxFile * bSize)
    (few : exceeds limit (f.charge inum (writeCost off src.length)).bill = false)
    (vacant : lim.spare → lacking v.data (v.mem.icache ip).addrs off src.length ≤ (freeBlocks sb v.data).card) :
    (volMachine forbidden).Wp (inodeWrite ip off src) v
      (fun r w => r = src.length ∧ (freeBlocks sb w.data).card +
        lacking v.data (v.mem.icache ip).addrs off src.length = (freeBlocks sb v.data).card)
      (Fails lim) := by
  have long : maxFile * bSize = 71680 := by decide
  have whole : (off + src.length) % 4294967296 = off + src.length := by omega
  have addrs : v.addrs sb ip inum inum = (v.mem.icache ip).addrs := Function.update_self ..
  refine .seq (wp_getInode ?_)
  dsimp only
  rw [if_neg file, whole, if_neg (by omega), if_neg (Nat.not_lt.mpr bound)]
  obtain ⟨D, small, within, fits⟩ := holds.within rfl few (v.addrs sb ip inum inum)
  have fits : Fits lim v.size _ := fun yes => fits (roomy yes)
  have works : Works forbidden sb lim ip inum (v.addrs sb ip inum) v :=
    ⟨hand.stands holds, up, flag, safe⟩
  rw [← addrs] at vacant ⊢
  refine .seq (wp_writeFrom works (Nat.le_refl _) bound (fun far => decide_eq_true far) within fits vacant ?_)
  rintro A' w wrote ⟨R, count, within'⟩
  rw [Finset.card_empty, Nat.zero_add] at count
  refine .seq (wp_getInode ?_)
  split
  · have fits' : Fits lim w.size _ := wrote.size ▸ fits
    have room := within'.room (fits'.mono (by rw [Finset.card_empty]; omega))
    refine .seq (wp_setInode (.seq (wp_inodeUpdate holds.layout
      wrote.works.laid.again wrote.works.idle ?_ hand.below
      (fun yes => (room yes).setInode ip _) wrote.works.up wrote.works.flag fun _ _ => .ret ⟨rfl, ?_⟩)))
    · refine (congrArg Inode.inum (Function.update_self ..)).trans ?_
      rw [wrote.entry]
      exact hand.named
    · refine (congrArg (fun blocks : Finset Nat => blocks.card + _) (freeBlocks_iblock hand.below)).trans ?_
      exact wrote.cost
  · exact .ret ⟨rfl, wrote.cost⟩

/-! ## The refinement -/

abbrev StockMatch (sb : Superblock) : Outcome Stop (Vol (InodeMem ν)) α → Outcome Stop (Stocked ν) α → Prop :=
  Outcome.Matches (Stocks sb) (fun _ _ => True) (fun _ => False) (· = .beyond)

variable {s : Stocked ν}

/-- A call that does what files do and returns where they do, without a block taken. -/
theorem Stocks.call (stocks : Stocks sb v s) {o : Outcome Stop (Files ν) α}
    (matched : FilesMatch (some opLimit) sb ((volMachine forbidden).run p v) o)
    (quiet : ∀ b g, o = .ok b g → TakesNone forbidden sb p v) :
    StockMatch sb ((volMachine forbidden).run p v) (s.call o) := by
  cases o with
  | stop w g => exact .excused _ (by rfl) s
  | ok b g =>
    have returns := quiet b g rfl
    unfold TakesNone Machine.Wp at returns
    cases run : (volMachine forbidden).run p v with
    | ok a w =>
      rw [run] at matched returns
      refine ⟨matched.1, matched.2, ?_⟩
      have same : freeBlocks sb w.data = freeBlocks sb v.data := returns
      rw [same]
      exact stocks.free
    | stop reason w =>
      rw [run] at returns
      exact returns.elim

theorem Stocks.put (safe : forbidden .logBlock = true) (stocks : Stocks sb v s) (ip : Nat) :
    StockMatch sb ((volMachine forbidden).run (inodePut ip) v) (s.put ip) := by
  unfold Stocked.put
  dsimp only
  split
  · exact .excused _ (by rfl) s
  next more =>
  refine stocks.call (filesPut_matches safe stocks.holds ip) fun b g _ => ?_
  rw [stocks.holds.slot ip] at more
  refine .seq (wp_getInode ?_)
  rw [if_neg (by exact more)]
  exact .seq (wp_getInode (wp_setInode rfl))

/-- A write that is refused, or has nothing to write. -/
theorem takesNone_write {src : List Byte} {r : Int} (holds : Holds limit sb v f)
    (returns : filesWrite limit f ip off src = .ok r g) (none : r ≤ 0) :
    TakesNone forbidden sb (inodeWrite ip off src) v := by
  unfold filesWrite devswResult logging at returns
  obtain ⟨type, major, size, -⟩ := holds.fields ip
  dsimp only at returns
  rw [type, major, size] at returns
  split at returns
  · cases returns
  refine .seq (wp_getInode ?_)
  dsimp only
  split at returns
  · next device =>
    rw [if_pos device]
    unfold devswMissing
    split at returns
    · next bad =>
      rw [if_pos bad]
      exact .ret rfl
    · cases returns
  next file =>
  rw [if_neg file]
  split at returns
  · next bad =>
    rw [if_pos bad]
    exact .ret rfl
  next inside =>
  rw [if_neg inside]
  split at returns
  · next bad =>
    rw [if_pos bad]
    exact .ret rfl
  next fits =>
  rw [if_neg fits]
  split at returns
  · next empty =>
    subst empty
    refine .seq (Machine.Wp.ret (.seq (wp_getInode ?_)))
    rw [if_neg fun both => Nat.lt_irrefl 0 both.1]
    exact .ret rfl
  next some =>
  have positive := List.length_pos_iff.mpr some
  split at returns
  · cases returns
  split at returns
  · cases returns
  split at returns
  · cases returns
  · cases returns
    omega

/-- A write that files take. -/
theorem filesWrite_taken {src : List Byte} {r : Int}
    (returns : filesWrite limit f ip off src = .ok r g) (some : 0 < r)
    (small : (f.slot ip).size ≤ maxFile * bSize) :
    (f.slot ip).inHand ∧ (f.slot ip).type ≠ tDev ∧ off ≤ (f.slot ip).size ∧
    off + src.length ≤ maxFile * bSize ∧
    exceeds limit (f.charge (f.slot ip).inum (writeCost off src.length)).bill = false ∧
    f.up = true ∧ f.inTrans = true := by
  have long : maxFile * bSize = 71680 := by decide
  unfold filesWrite devswResult logging at returns
  dsimp only at returns
  split at returns
  · cases returns
  next good =>
  simp only [not_or, not_not, Nat.not_le] at good
  split at returns
  · split at returns
    · cases returns
      cases some
    · cases returns
  next file =>
  split at returns
  · cases returns
    cases some
  next inside =>
  split at returns
  · cases returns
    cases some
  next fits =>
  split at returns
  · cases returns
    exact absurd some (Int.lt_irrefl 0)
  split at returns
  · cases returns
  next few =>
  split at returns
  · cases returns
  next up =>
  split at returns
  · cases returns
  next busy =>
  exact ⟨good.1, file, by omega, by omega, Bool.eq_false_iff.mpr few, Bool.not_eq_false _ ▸ up,
    Bool.not_eq_false _ ▸ busy⟩

theorem Stocks.write (bounded : Bounded (some opLimit) sb) (safe : forbidden .logBlock = true)
    (stocks : Stocks sb v s) (ip off : Nat) (src : List Byte) :
    StockMatch sb ((volMachine forbidden).run (inodeWrite ip off src) v) (s.write ip off src) := by
  have holds := stocks.holds
  have matched : FilesMatch (some opLimit) sb ((volMachine forbidden).run (inodeWrite ip off src) v) _ :=
    filesWrite_matches safe holds ip off src
  unfold Stocked.write
  dsimp only
  cases result : filesWrite (some opLimit) s.files ip off src with
  | stop w g => exact .excused _ (by rfl) s
  | ok r g =>
    rw [result] at matched
    dsimp only
    split
    · next none => exact stocks.call matched fun _ _ _ => takesNone_write holds result none
    next taken =>
    split
    · exact .excused _ (by rfl) s
    next enough =>
    obtain ⟨-, -, size, -⟩ := holds.fields ip
    have hand : (s.files.slot ip).inHand → InHand sb v ip (s.files.slot ip).inum :=
      fun inHand => holds.inHand inHand
    have small : (s.files.slot ip).inHand → (s.files.slot ip).size ≤ maxFile * bSize := by
      intro inHand
      rw [size]
      exact ((hand inHand).filled holds).small
    have inHand : (s.files.slot ip).inHand := by
      by_contra out
      unfold filesWrite at result
      dsimp only at result
      rw [if_pos (Or.inl out)] at result
      cases result
    obtain ⟨-, file, inside, bound, few, up, busy⟩ :=
      filesWrite_taken result (Int.not_le.mp taken) (small inHand)
    have hand := hand inHand
    obtain ⟨type, -, -, -⟩ := holds.fields ip
    rw [type] at file
    rw [size] at inside enough ⊢
    have filled := hand.filled holds
    have addrs : v.addrs sb ip (s.files.slot ip).inum (s.files.slot ip).inum = (v.mem.icache ip).addrs :=
      Function.update_self ..
    rw [addrs] at filled
    have lacks := filled.lacking_le (n := src.length) inside
    have free := stocks.free
    have written := @InHand.wp_inodeWrite ν sb (some opLimit) forbidden v s.files ip _ ample off src hand holds
      (Or.inl safe) (holds.up.trans up) (holds.flag.trans busy) (fun _ => bounded) file inside bound few
      fun _ => by omega
    unfold Machine.Wp at written
    cases run : (volMachine forbidden).run (inodeWrite ip off src) v with
    | ok a w =>
      rw [run] at matched written
      refine ⟨matched.1, matched.2, ?_⟩
      have cost := written.2
      dsimp only
      omega
    | stop reason w =>
      rw [run] at written
      exact written.never.elim

/-- A call that stores nothing. -/
theorem Stocks.quiet (bounded : Bounded (some opLimit) sb) (stocks : Stocks sb v s)
    {q : Outcome Stop (Vol (InodeMem ν)) α} {o : Outcome Stop (Files ν) α}
    (quiet : QuietMatch (some opLimit) sb v q o) : StockMatch sb q (s.call o) := by
  cases o with
  | stop w g => exact .excused _ (by rfl) s
  | ok b g =>
    cases q with
    | ok a w =>
      obtain ⟨same, data, holds⟩ := quiet
      exact ⟨same, holds, data ▸ stocks.free⟩
    | stop reason w => exact absurd bounded quiet.2

/-- Within the limits, the inode layer on a volume returns where files with a stock of blocks do. -/
theorem stock_match (bounded : Bounded (some opLimit) sb) (safe : forbidden .logBlock = true)
    (op : (InodeSig ν).Op) (stocks : Stocks sb v s) :
    StockMatch sb ((volMachine forbidden).through (inodeImpl (ν := ν)) op v)
      (stockMachine sb.ninodes forbidden op s) := by
  cases op with
  | write ip off src => exact stocks.write bounded safe ip off src
  | put ip => exact stocks.put safe ip
  | alloc type => exact .excused _ (by rfl) s
  | update ip =>
    exact stocks.call (filesUpdate_matches stocks.holds ip) fun _ _ returns =>
      takesNone_update bounded stocks.holds returns
  | _ => exact stocks.quiet bounded (files_quiet _ rfl stocks.holds)

end Calls

/-! ## The kernel -/

section Kernel
variable {sb : Superblock} {forbidden : Mark → Bool} {s : FsState}

/-- The kernel serves files and has a stock of blocks for them. -/
def Supplies (sb : Superblock) (s : FsState) (t : Stocked FsMem) : Prop := ∃ v, Shows s v ∧ Stocks sb v t

/-- The kernel returns where files with a stock of blocks do. -/
theorem stock_refines (bounded : Bounded (some opLimit) sb) (safe : forbidden .logBlock = true) :
    (fsMachine forbidden).Refines (stockMachine sb.ninodes forbidden) (Supplies sb) (fun _ _ => True)
      (fun _ => False) (· = .beyond) := by
  have upper : (fsVolume forbidden).Refines (stockMachine sb.ninodes forbidden) (Stocks sb)
      (fun _ _ => True) (fun _ => False) (· = .beyond) :=
    fun op _ _ stocks => stock_match bounded safe op stocks
  refine ((fs_refines forbidden).trans upper fun _ impossible => impossible.elim).weaken
    (fun _ _ _ => trivial) ?_
  rintro w (impossible | impossible)
  · exact impossible
  · exact impossible

/-- What is proved to return on files with a stock returns in the kernel, whether or not the kernel
is watched for blocks of the log. -/
theorem Supplies.returns (bounded : Bounded (some opLimit) sb) {t : Stocked FsMem} (supplies : Supplies sb s t)
    {α : Type} {p : FsProg α} {Q : α → Stocked FsMem → Prop}
    (asserts : (stockMachine sb.ninodes noLogBlock).Wp p t Q fun _ _ => False) :
    ∃ a s' t', (fsMachine fun _ => false).run p s = .ok a s' ∧ Q a t' ∧ Supplies sb s' t' := by
  obtain ⟨a, t', done, post⟩ := asserts.returns
  obtain ⟨s', run, after⟩ := (stock_refines bounded rfl).returns (fun _ _ _ => trivial) supplies done
  refine ⟨a, s', t', ?_, post, after⟩
  have matched := (@marks_fs noLogBlock).run (fun _ _ same => same) p (rfl : s = s)
  rw [run] at matched
  cases free : (fsMachine fun _ => false).run p s with
  | ok b u =>
    rw [free] at matched
    obtain ⟨rfl, rfl⟩ := matched
    rfl
  | stop w u =>
    rw [free] at matched
    exact matched.elim

/-- The bitmap as the kernel sees it is the one of the volume. -/
theorem Shows.freeBlocks {v : Vol (InodeMem FsMem)} (presented : Shows s v) (layout : Layout sb)
    (laid : v.Laid sb) : Fs.freeBlocks sb s.content = Fs.freeBlocks sb v.data := by
  have ends := layout.dataEnd_le
  have fits := layout.fits
  unfold Fs.freeBlocks
  refine Finset.filter_congr fun c member => ?_
  have below := (Finset.mem_Ico.mp member).2
  have block := @bblock_bounds sb c (bitmap_of_lt (by omega))
  unfold inUse
  rw [presented.content (laid.home layout (by omega))]

/-- Between transactions the stock may be all free blocks. -/
theorem Serves.supplies {f : Files FsMem} (serves : Serves none sb s f) (calm : f.inTrans = false) :
    Supplies sb s ⟨{ f with touched := ∅, spent := 0 }, (freeBlocks sb s.content).card⟩ := by
  obtain ⟨v, presented, holds⟩ := serves
  refine ⟨v, presented, ⟨{ holds with logged := ⟨∅, Nat.le_refl _, ?_⟩, budget := rfl }, ?_⟩⟩
  · rw [holds.calm (holds.flag.trans calm)]
    exact Finset.empty_subset _
  · rw [presented.freeBlocks holds.layout holds.laid]

end Kernel

end OsAudio.Fs

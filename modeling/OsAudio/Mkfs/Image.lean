import Mathlib.Algebra.Order.BigOperators.Group.Finset
import OsAudio.Lib.Behaviour
import OsAudio.Mkfs.Build

/-!
# The image of mkfs

A whole run of mkfs, as long as the inodes it allocates lie before the bitmap: it succeeds exactly
if the files fit, and every inode on the image then holds the bytes of its file.
-/
namespace OsAudio.Mkfs
open OsAudio.Lib OsAudio.Fs
open Function (update update_idem update_self update_of_ne update_eq_self)

/-- The type of the inode: the root is a directory, the others are files. -/
def kindOf (inum : Nat) : Nat := if inum = rootIno then tDir else tFile

/-- The addresses of the inodes allocated so far. -/
def tableOf (s : Build) (j : Nat) : Nat → Nat :=
  if 0 < j ∧ j < s.freeinode then (dinodeOf s.disk j).addrs else fun _ => 0

/-- An inode as mkfs writes it, up to its addresses. -/
structure Plain (d : Dinode) (kind size : Nat) : Prop where
  type : d.type = kind
  major : d.major = 0
  minor : d.minor = 0
  nlink : d.nlink = 1
  size : d.size = size

theorem Plain.resize {d : Dinode} {kind size : Nat} (plain : Plain d kind size) (a : Nat → Nat) (n : Nat) :
    { d with addrs := a, size := n } = (⟨kind, 0, 0, 1, n, a⟩ : Dinode) := by
  rw [plain.type, plain.major, plain.minor, plain.nlink]

/-- The inodes allocated so far have the sizes `size` and hold the files `F`; the others are
still empty. -/
structure Built (s : Build) (F : Nat → List Byte) (size : Nat → Nat) : Prop
    extends Stored s (tableOf s) F where
  start : 1 ≤ s.freeinode
  few : s.freeinode ≤ 208
  inodes : s.inodes = List.range' 1 (s.freeinode - 1)
  super : s.disk 1 = superblockBytes mkfsSb
  plain : ∀ j, 0 < j → j < s.freeinode → Plain (dinodeOf s.disk j) (kindOf j) (size j)
  blank : ∀ j, j < 208 → j = 0 ∨ s.freeinode ≤ j → dinodeOf s.disk j = ⟨0, 0, 0, 0, 0, fun _ => 0⟩
  empty : ∀ j, j = 0 ∨ s.freeinode ≤ j → F j = []

/-! ## Storing an inode -/

section Record
variable {s t : Build} {A A' : Nat → Nat → Nat} {F : Nat → List Byte} {size : Nat → Nat}
  {inum : Nat} {E : Abort → Build → Prop}

theorem iblock_small (small : inum < 208) : iblock inum < 28 ∧ 2 ≤ iblock inum := by
  unfold iblock ipb
  omega

theorem wp_rinode {Q : Dinode → Build → Prop} (length : s.length = 1024) (small : inum < 208)
    (next : Q (dinodeOf s.disk inum) s) : buildMachine.Wp (rinode inum) s Q E := by
  have low := (iblock_small small).1
  apply Machine.Wp.seq
  apply wp_rsect
  · intro _
    exact .ret next
  · intro beyond
    omega

theorem wp_winode {Q : Unit → Build → Prop} {din : Dinode} (length : s.length = 1024)
    (small : inum < 208)
    (next : Q () (s.store (iblock inum) (storeDinode (s.disk (iblock inum)) inum din))) :
    buildMachine.Wp (winode inum din) s Q E := by
  have low := (iblock_small small).1
  apply Machine.Wp.seq
  apply wp_rsect
  · intro _
    exact wp_wsect next
  · intro beyond
    omega

theorem Holding.ext {data : Nat → Bytes} {a a' : Nat → Nat} {bytes : List Byte}
    (holding : Holding data a bytes) (same : ∀ i, i ≤ nDirect → a' i = a i) :
    Holding data a' bytes := by
  constructor
  · exact holding.small
  · intro i below
    rw [blockNo_ext same]
    exact holding.blocks i below
  · rw [same nDirect (Nat.le_refl _)]
    exact holding.indirect
  · rw [contentOf_ext same]
    exact holding.content
  · intro k beyond below
    rw [byteAt, blockNo_ext same]
    exact holding.tail k beyond below

theorem Stored.ext (stored : Stored s A F) (same : ∀ j i, i ≤ nDirect → A' j i = A j i) :
    Stored s A' F := by
  constructor
  · exact stored.toBased
  · refine ⟨stored.storage.low, ?_⟩
    exact stored.storage.owned.congr (fun _ _ => Iff.rfl) fun y => blockNo_ext (same y.1) y.2
  · intro j
    exact (stored.holding j).ext (same j)
  · exact stored.count

/-- A sector before the bitmap gets other contents. -/
theorem Stored.write_inodes (stored : Stored s A F) {sec : Nat} (low : sec < 28) (buf : Bytes) :
    Stored (s.store sec buf) A F := by
  obtain ⟨storage, same, high⟩ := stored.storage.write_inodes buildSb_layout low buf
  have data : (s.store sec buf).marked = update s.marked sec buf := marked_store (by omega)
  have bottom := stored.low
  constructor
  · constructor
    · simp only [Build.store, stored.length]
      omega
    · exact stored.used
    · exact stored.low
    · exact stored.high
    · exact stored.given
    · intro t above
      change s.freeblock ≤ t at above
      rw [data, high t (by rw [buildSb_start]; omega)]
      exact stored.zeroed t above
  · rw [data]
    exact storage
  · intro j
    rw [data]
    have holding := stored.holding j
    constructor
    · exact holding.small
    · intro i below
      rw [same]
      exact holding.blocks i below
    · exact holding.indirect
    · have kept := (Filled.content_inodes stored.storage buildSb_layout low buf
        ⟨holding.small, holding.covers, holding.tight⟩).2
      rw [kept]
      exact holding.content
    · intro k beyond below some
      rw [same] at some
      rw [byteAt, same, high _ (stored.storage.range some).1]
      exact holding.tail k beyond below some
  · exact stored.count

/-- The addresses of an inode are numbers of sectors of the image. -/
theorem Stored.addr_lt (stored : Stored s A F) {i : Nat} (le : i ≤ nDirect) : A inum i < 1024 := by
  by_cases none : A inum i = 0
  · omega
  · have place : blockNo s.marked (A inum) (addrPlace i) = A inum i := blockNo_addrPlace le
    rw [← place] at none ⊢
    exact (Storage.block_range stored.storage none).2.1

/-- An inode is stored, with the file that its addresses lead to. -/
theorem Built.record {bytes : List Byte} {n : Nat} (built : Built s F size)
    (stored : Stored t A (update F inum bytes)) (others : ∀ j, j ≠ inum → A j = tableOf s j)
    (system : ∀ sec, 0 < sec → sec < 29 → t.disk sec = s.disk sec) (positive : 0 < inum)
    (near : inum ≤ s.freeinode) (top : t.freeinode = max s.freeinode (inum + 1))
    (few : t.freeinode ≤ 208) (inodes : t.inodes = List.range' 1 (t.freeinode - 1)) (word : n < 4294967296) :
    Built (t.store (iblock inum) (storeDinode (t.disk (iblock inum)) inum
      ⟨kindOf inum, 0, 0, 1, n, A inum⟩)) (update F inum bytes)
      (update size inum n) := by
  have start := built.start
  have small : inum < 208 := by omega
  have low := iblock_small small
  obtain ⟨d, written⟩ : ∃ d : Dinode, d = ⟨kindOf inum, 0, 0, 1, n, A inum⟩ := ⟨_, rfl⟩
  have fits : d.Small := by
    rw [written]
    have half : 1 < 65536 := by decide
    refine ⟨?_, Nat.succ_pos _, Nat.succ_pos _, half, word, fun i le => ?_⟩
    · simp only [kindOf]
      split <;> decide
    · have bound : A inum i < 1024 := stored.addr_lt le
      exact Nat.lt_trans bound (by decide)
  rw [← written]
  have stored' := stored.write_inodes low.1 (storeDinode (t.disk (iblock inum)) inum d)
  obtain ⟨u, final⟩ : ∃ u, u = t.store (iblock inum) (storeDinode (t.disk (iblock inum)) inum d) :=
    ⟨_, rfl⟩
  rw [← final] at stored' ⊢
  have disk : u.disk = update t.disk (iblock inum)
      (storeDinode (t.disk (iblock inum)) inum d) := by
    rw [final]
    rfl
  have freeinode : u.freeinode = t.freeinode := by
    rw [final]
    rfl
  have self : dinodeOf u.disk inum = d.trim := by
    rw [disk, dinodeOf_update_self, loadDinode_storeDinode fits]
  have other : ∀ j, j < 208 → j ≠ inum → dinodeOf u.disk j = dinodeOf s.disk j := by
    intro j below different
    have place := iblock_small below
    rw [disk, dinodeOf_update_other (fun i off => storeDinode_off off) different]
    exact dinodeOf_congr (system _ (by omega) (by omega))
  have table : ∀ j i, i ≤ nDirect → tableOf u j i = A j i := by
    intro j i le
    unfold tableOf
    by_cases here : j = inum
    · subst here
      rw [if_pos (by omega), self, written]
      exact if_pos (by omega)
    · rw [others j here]
      unfold tableOf
      by_cases inside : 0 < j ∧ j < s.freeinode
      · rw [if_pos inside, if_pos (by omega), other j (by omega) here]
      · rw [if_neg inside, if_neg (by omega)]
  constructor
  · exact stored'.ext table
  · omega
  · omega
  · rw [freeinode, ← inodes, final]
    rfl
  · rw [disk, update_of_ne (by omega), system 1 (by omega) (by omega)]
    exact built.super
  · intro j some below
    by_cases here : j = inum
    · subst here
      rw [self, written, update_self]
      exact ⟨rfl, rfl, rfl, rfl, rfl⟩
    · rw [update_of_ne here, other j (by omega) here]
      exact built.plain j some (by omega)
  · intro j below free
    rw [other j below (by omega)]
    exact built.blank j below (by omega)
  · intro j free
    rw [update_of_ne (by omega)]
    exact built.empty j (by omega)

end Record

/-! ## Appending to files -/

/-- All files are short enough, and there are enough sectors for them. -/
def Fits (F : Nat → List Byte) : Prop :=
  (∀ j, (F j).length ≤ maxFile * bSize) ∧
    29 + ∑ j ∈ Finset.range 208, blocksFor (F j).length ≤ 1024

/-- The files with `p` appended to that of `inum`. -/
def extend (F : Nat → List Byte) (inum : Nat) (p : List Byte) : Nat → List Byte :=
  update F inum (F inum ++ p)

def sizes (F : Nat → List Byte) (j : Nat) : Nat := (F j).length

section Append
variable {s s' : Build} {F G : Nat → List Byte} {size : Nat → Nat} {inum : Nat} {p : List Byte}
  {E : Abort → Build → Prop}

theorem Fits.mono (fits : Fits G) (less : ∀ j, (F j).length ≤ (G j).length) : Fits F := by
  refine ⟨fun j => Nat.le_trans (less j) (fits.1 j), ?_⟩
  have sum : ∑ j ∈ Finset.range 208, blocksFor (F j).length ≤
      ∑ j ∈ Finset.range 208, blocksFor (G j).length :=
    Finset.sum_le_sum fun j _ => blocksFor_mono (less j)
  have := fits.2
  omega

theorem length_extend (F : Nat → List Byte) (inum : Nat) (p : List Byte) (j : Nat) :
    (F j).length ≤ (extend F inum p j).length := by
  unfold extend
  by_cases here : j = inum
  · rw [here, update_self, List.length_append]
    omega
  · rw [update_of_ne here]

theorem extend_extend (F : Nat → List Byte) (inum : Nat) (p q : List Byte) :
    extend (extend F inum p) inum q = extend F inum (p ++ q) := by
  simp only [extend, update_self, update_idem, List.append_assoc]

theorem sizes_extend (F : Nat → List Byte) (inum : Nat) (p : List Byte) :
    sizes (extend F inum p) = update (sizes F) inum ((F inum).length + p.length) := by
  funext j
  unfold sizes extend
  by_cases here : j = inum
  · rw [here, update_self, update_self, List.length_append]
  · rw [update_of_ne here, update_of_ne here]

theorem Built.fits (built : Built s F size) : Fits F := by
  refine ⟨fun j => (built.holding j).small, ?_⟩
  rw [← built.count]
  exact built.high

/-- There is room for the longer file exactly if the files then fit. -/
theorem Built.room_iff (built : Built s F size) (small : inum < 208) :
    Room s (F inum).length ((F inum).length + p.length) ↔ Fits (extend F inum p) := by
  have sum := sum_update_add (fun j => blocksFor (F j).length) (Finset.mem_range.mpr small)
    (blocksFor ((F inum).length + p.length))
  have count := built.count
  have same : ∀ j, blocksFor (extend F inum p j).length = update
      (fun j => blocksFor (F j).length) inum (blocksFor ((F inum).length + p.length)) j := by
    intro j
    have size := congrFun (sizes_extend F inum p) j
    unfold sizes at size
    rw [size]
    by_cases here : j = inum
    · rw [here, update_self, update_self]
    · rw [update_of_ne here, update_of_ne here]
  unfold Room Fits
  simp only [same]
  constructor
  · rintro ⟨short, room⟩
    refine ⟨fun j => ?_, by omega⟩
    by_cases here : j = inum
    · rw [here, extend, update_self, List.length_append]
      exact short
    · rw [extend, update_of_ne here]
      exact (built.holding j).small
  · rintro ⟨short, room⟩
    refine ⟨?_, by omega⟩
    have longest := short inum
    rwa [extend, update_self, List.length_append] at longest

/-- `iappend` appends the bytes if the files still fit, and stops otherwise. -/
theorem wp_iappend {Q : Unit → Build → Prop} (built : Built s F (sizes F)) (positive : 0 < inum)
    (below : inum < s.freeinode) (stop : ¬ Fits (extend F inum p) → ∀ w s', E w s')
    (next : ∀ s', Built s' (extend F inum p) (sizes (extend F inum p)) →
      s'.freeinode = s.freeinode → Q () s') :
    buildMachine.Wp (iappend inum p) s Q E := by
  have few := built.few
  have small : inum < 208 := by omega
  have plain := built.plain inum positive below
  have addrs : (dinodeOf s.disk inum).addrs = tableOf s inum := by
    rw [tableOf, if_pos ⟨positive, below⟩]
  apply Machine.Wp.seq
  apply wp_rinode built.length small
  apply Machine.Wp.seq
  apply wp_iappendFrom built.toStored small addrs (Nat.le_refl _) plain.size.symm
  · rw [plain.size]
    intro crowded
    apply stop
    rwa [← built.room_iff small]
  · intro A' t _ stored others kept
    have length : (F inum ++ p).length = (dinodeOf s.disk inum).size + p.length := by
      rw [List.length_append, plain.size]
      rfl
    have short := (stored.holding inum).small
    rw [update_self, length] at short
    have freeinode := kept.freeinode
    apply wp_winode (kept.length.trans built.length) small
    have recorded := built.record stored others kept.system positive (by omega) (by omega) (by omega)
      (by rw [kept.inodes, freeinode, built.inodes])
      (Nat.lt_of_le_of_lt short (by decide))
    rw [← plain.resize] at recorded
    apply next
    · rw [sizes_extend, ← List.length_append, length]
      exact recorded
    · exact freeinode

/-- The loop that copies a file. -/
theorem wp_iappendAll {Q : Unit → Build → Prop} {chunks : List (List Byte)}
    (built : Built s F (sizes F)) (positive : 0 < inum) (below : inum < s.freeinode)
    (stop : ¬ Fits (extend F inum chunks.flatten) → ∀ w s', E w s')
    (next : ∀ s', Built s' (extend F inum chunks.flatten) (sizes (extend F inum chunks.flatten)) →
      s'.freeinode = s.freeinode → Q () s') :
    buildMachine.Wp (iappendAll inum chunks) s Q E := by
  induction chunks generalizing s F with
  | nil =>
    have same : extend F inum [] = F := by
      rw [extend, List.append_nil, update_eq_self]
    rw [List.flatten_nil, same] at next
    exact .ret (next s built rfl)
  | cons chunk chunks ih =>
    rw [List.flatten_cons, ← extend_extend] at stop next
    apply Machine.Wp.seq
    apply wp_iappend built positive below
    · intro crowded
      exact stop fun fits => crowded (fits.mono (length_extend _ inum _))
    · intro t built' freeinode
      apply ih built' (freeinode ▸ below) stop
      intro s' built'' freeinode'
      exact next s' built'' (freeinode'.trans freeinode)

/-- `ialloc` writes an empty inode. -/
theorem wp_ialloc {Q : Nat → Build → Prop} {type : Nat} (built : Built s F (sizes F))
    (room : s.freeinode < 208) (kind : type = kindOf s.freeinode)
    (next : ∀ s', Built s' F (sizes F) → s'.freeinode = s.freeinode + 1 → Q s.freeinode s') :
    buildMachine.Wp (ialloc type) s Q E := by
  have start := built.start
  have nothing : F s.freeinode = [] := built.empty _ (.inr (Nat.le_refl _))
  have none : tableOf s s.freeinode = fun _ => 0 := if_neg (by omega)
  obtain ⟨t, taken⟩ : ∃ t, t = { s with
    freeinode := s.freeinode + 1, inodes := s.inodes ++ [s.freeinode] } := ⟨_, rfl⟩
  have stored : Stored t (tableOf s) (update F s.freeinode []) := by
    rw [← nothing, update_eq_self, taken]
    have whole := built.toStored
    exact ⟨⟨whole.length, whole.used, whole.low, whole.high, whole.given, whole.zeroed⟩,
      whole.storage, whole.holding, whole.count⟩
  have freeinode : t.freeinode = s.freeinode + 1 := by rw [taken]
  have inodes : t.inodes = List.range' 1 (t.freeinode - 1) := by
    have count : s.freeinode = s.freeinode - 1 + 1 := by omega
    rw [freeinode, Nat.add_sub_cancel, count, List.range'_concat, taken, ← built.inodes]
    simp only [Nat.one_mul]
    rw [Nat.add_comm 1, ← count]
  have disk : t.disk = s.disk := by rw [taken]
  apply Machine.Wp.seq
  apply Machine.Wp.op
  change buildMachine.Wp (do
    winode s.freeinode ⟨type, 0, 0, 1, 0, fun _ => 0⟩
    pure s.freeinode) { s with
      freeinode := s.freeinode + 1, inodes := s.inodes ++ [s.freeinode] } Q E
  rw [← taken]
  apply Machine.Wp.seq
  apply wp_winode stored.length room
  apply Machine.Wp.ret
  have recorded := built.record stored (fun _ _ => rfl) (fun _ _ _ => by rw [disk]) start
    (Nat.le_refl _) (by omega) (by omega) inodes (Nat.succ_pos _)
  have same : update (sizes F) s.freeinode 0 = sizes F := by
    have zero : sizes F s.freeinode = 0 := by rw [sizes, nothing, List.length_nil]
    rw [← zero, update_eq_self]
  rw [none, ← kind, same, ← nothing, update_eq_self] at recorded
  exact next _ recorded freeinode

end Append

/-! ## The arguments -/

/-- The files of the image after one more argument. -/
def withFile (F : Nat → List Byte) (inum : Nat) (f : InputFile) : Nat → List Byte :=
  extend (extend F rootIno (direntBytes inum f.name)) inum f.content

def withFiles (F : Nat → List Byte) : (inum : Nat) → List InputFile → Nat → List Byte
  | _, [] => F
  | inum, f :: files => withFiles (withFile F inum f) (inum + 1) files

section Arguments
variable {s : Build} {F : Nat → List Byte} {E : Abort → Build → Prop}

theorem length_withFile (F : Nat → List Byte) (inum : Nat) (f : InputFile) (j : Nat) :
    (F j).length ≤ (withFile F inum f j).length :=
  Nat.le_trans (length_extend ..) (length_extend ..)

theorem length_withFiles (F : Nat → List Byte) (inum : Nat) (files : List InputFile) (j : Nat) :
    (F j).length ≤ (withFiles F inum files j).length := by
  induction files generalizing F inum with
  | nil => exact Nat.le_refl _
  | cons f files ih => exact Nat.le_trans (length_withFile F inum f j) (ih ..)

theorem wp_addFile {Q : Unit → Build → Prop} {f : InputFile} (built : Built s F (sizes F))
    (root : rootIno < s.freeinode) (room : s.freeinode < 208)
    (stop : slash ∈ f.argv ∨ ¬ Fits (withFile F s.freeinode f) → ∀ w s', E w s')
    (next : ∀ s', slash ∉ f.argv → Built s' (withFile F s.freeinode f)
      (sizes (withFile F s.freeinode f)) → s'.freeinode = s.freeinode + 1 → Q () s') :
    buildMachine.Wp (addFile rootIno f) s Q E := by
  unfold addFile
  by_cases named : slash ∈ f.argv
  · rw [if_pos named]
    exact .stop (stop (.inl named) _ _)
  rw [if_neg named]
  have kind : tFile = kindOf s.freeinode := by
    unfold kindOf
    rw [if_neg (by omega)]
  apply Machine.Wp.seq
  apply wp_ialloc built room kind
  intro s₁ built₁ freeinode₁
  apply Machine.Wp.seq
  apply wp_iappend built₁ (Nat.succ_pos _) (by omega)
  · intro crowded
    refine stop (.inr fun fits => crowded ?_)
    exact fits.mono (length_extend _ s.freeinode _)
  · intro s₂ built₂ freeinode₂
    apply wp_iappendAll built₂ (by omega) (by omega)
    · intro crowded
      exact stop (.inr crowded)
    · intro s₃ built₃ freeinode₃
      exact next s₃ named built₃ (by omega)

theorem wp_addFiles {Q : Unit → Build → Prop} {files : List InputFile} (built : Built s F (sizes F))
    (root : rootIno < s.freeinode) (room : s.freeinode + files.length ≤ 208)
    (stop : (∃ f ∈ files, slash ∈ f.argv) ∨ ¬ Fits (withFiles F s.freeinode files) → ∀ w s', E w s')
    (next : ∀ s', (∀ f ∈ files, slash ∉ f.argv) → Built s' (withFiles F s.freeinode files)
      (sizes (withFiles F s.freeinode files)) → s'.freeinode = s.freeinode + files.length → Q () s') :
    buildMachine.Wp (addFiles rootIno files) s Q E := by
  induction files generalizing s F with
  | nil => exact .ret (next s (by simp) built rfl)
  | cons f files ih =>
    rw [List.length_cons] at room next
    apply Machine.Wp.seq
    apply wp_addFile built root (by omega)
    · rintro (named | crowded)
      · exact stop (.inl ⟨f, List.mem_cons_self, named⟩)
      · refine stop (.inr fun fits => crowded ?_)
        exact fits.mono (length_withFiles _ _ files)
    · intro t named built' freeinode
      apply ih built' (by omega) (by omega)
      · rw [freeinode]
        rintro (⟨g, member, slashed⟩ | crowded)
        · exact stop (.inl ⟨g, List.mem_cons_of_mem _ member, slashed⟩)
        · exact stop (.inr crowded)
      · rw [freeinode]
        intro s' rest built'' freeinode'
        refine next s' ?_ built'' (by omega)
        exact List.forall_mem_cons.mpr ⟨named, rest⟩

end Arguments

/-! ## The whole run -/

/-- The root directory before any argument. -/
def rootFiles : Nat → List Byte :=
  extend (extend (fun _ => []) rootIno (direntBytes rootIno dot)) rootIno (direntBytes rootIno dotdot)

/-- The files of the image: the root directory and the arguments, from inode 2 on. -/
def imageFiles (files : List InputFile) : Nat → List Byte := withFiles rootFiles 2 files

/-- The sizes on the image; that of the root directory is rounded up, to a full block more if it
is one already. -/
def imageSizes (files : List InputFile) : Nat → Nat :=
  update (sizes (imageFiles files)) rootIno
    (((imageFiles files rootIno).length / bSize + 1) * bSize)

/-- The state after `balloc`. -/
def Build.finish (t : Build) : Build := t.store 28 (usedBits t.usedblocks)

section Main
variable {s : Build} {E : Abort → Build → Prop}

variable {Q : Unit → Build → Prop}

theorem wp_wzeroes {count : Nat}
    (next : Q () { newBuild with length := count }) : buildMachine.Wp (wzeroes count) newBuild Q E := by
  induction count generalizing Q with
  | zero =>
    rw [wzeroes_zero]
    exact .ret next
  | succ count ih =>
    rw [wzeroes_succ]
    apply Machine.Wp.seq
    apply ih
    apply wp_wsect
    have same : update newBuild.disk count Bytes.zero = newBuild.disk :=
      update_eq_self count newBuild.disk
    have longer : max count (count + 1) = count + 1 := by omega
    simp only [Build.store, same, longer]
    exact next

/-- The image with nothing but the super block. -/
def emptyBuild : Build := { newBuild with length := 1024 }.store 1 (superblockBytes mkfsSb)

theorem emptyBuild_disk {t : Nat} (other : t ≠ 1) : emptyBuild.disk t = Bytes.zero :=
  update_of_ne other ..

theorem loadDinode_zero (inum : Nat) : loadDinode Bytes.zero inum = ⟨0, 0, 0, 0, 0, fun _ => 0⟩ := by
  simp [loadDinode]

theorem emptyBuild_built : Built emptyBuild (fun _ => []) (sizes fun _ => []) := by
  have none : tableOf emptyBuild = fun _ _ => 0 := by
    funext j
    exact if_neg fun inside => Nat.lt_irrefl _ (Nat.lt_of_lt_of_le inside.2 inside.1)
  have free : ∀ t, 29 ≤ t → emptyBuild.marked t = Bytes.zero := by
    intro t above
    rw [marked_of_ne (by omega), emptyBuild_disk (by omega)]
  have first : emptyBuild.freeblock = 29 := rfl
  have nowhere : ∀ i, blockNo emptyBuild.marked (fun _ => 0) i = 0 := blockNo_zero fun _ => rfl
  refine ⟨⟨⟨?_, ?_, ?_, ?_, ?_, free⟩, ?_, ?_, ?_⟩, ?_, ?_, ?_, ?_, ?_, ?_, ?_⟩
  · rfl
  · rfl
  · exact Nat.le_refl _
  · decide
  · rfl
  · rw [none]
    refine ⟨fun c low => ?_, fun x y some => ?_, fun x some => ?_, fun b above => ?_⟩
    · rw [buildSb_start] at low
      rw [inUse_marked (covered_of_lt (by omega))]
      simpa [first] using low
    · exact absurd (nowhere _) some
    · exact absurd (nowhere _) some
    · rw [buildSb_start] at above
      refine ⟨fun ⟨covered, used⟩ => ?_, fun ⟨x, same⟩ => ?_⟩
      · rw [inUse_marked covered, first] at used
        have := of_decide_eq_true used
        omega
      · have := (nowhere _).symm.trans same
        omega
  · intro j
    rw [none]
    refine ⟨Nat.zero_le _, fun i _ => ?_, ?_, ?_, fun k _ _ some => ?_⟩
    · simp [nowhere]
    · simp
    · rfl
    · exact absurd (nowhere _) some
  · have nothing : blocksFor ([] : List Byte).length = 0 := rfl
    rw [first, nothing, Finset.sum_const_zero, Nat.add_zero]
  · decide
  · decide
  · rfl
  · simp only [emptyBuild, Build.store, update_self]
  · intro j positive below
    exact absurd positive (Nat.not_lt.mpr (Nat.le_of_lt_succ below))
  · intro j below _
    have place := iblock_small below
    rw [dinodeOf, emptyBuild_disk (by omega), loadDinode_zero]
  · intro j _
    rfl

/-- The end of `main`: the size of the root directory, then the bitmap. -/
theorem wp_close {F : Nat → List Byte} (built : Built s F (sizes F))
    (root : rootIno < s.freeinode)
    (next : ∀ t, Built t F (update (sizes F) rootIno (((F rootIno).length / bSize + 1) * bSize)) →
      t.freeinode = s.freeinode → Q () t.finish) :
    buildMachine.Wp (do
      let din ← rinode rootIno
      winode rootIno { din with size := (din.size / bSize + 1) * bSize }
      let used ← usedblocks
      balloc used) s Q E := by
  have plain := built.plain rootIno (by decide) root
  have size : (dinodeOf s.disk rootIno).size = (F rootIno).length := plain.size
  have addrs : (dinodeOf s.disk rootIno).addrs = tableOf s rootIno := by
    rw [tableOf, if_pos ⟨by decide, root⟩]
  have same : Stored s (tableOf s) (update F rootIno (F rootIno)) := by
    rw [update_eq_self]
    exact built.toStored
  have word : ((F rootIno).length / bSize + 1) * bSize < 4294967296 := by
    have short := (built.holding rootIno).small
    change (F rootIno).length ≤ 71680 at short
    unfold bSize
    omega
  have recorded := built.record same (fun _ _ => rfl) (fun _ _ _ => rfl) (by decide)
    (Nat.le_of_lt root) (by omega) built.few built.inodes word
  rw [update_eq_self, ← plain.resize, ← addrs, ← size] at recorded
  apply Machine.Wp.seq
  apply wp_rinode built.length (by decide)
  apply Machine.Wp.seq
  apply wp_winode built.length (by decide)
  apply Machine.Wp.seq
  apply Machine.Wp.op
  have bounded : ¬ 512 * 8 ≤ s.usedblocks := by
    have high := built.high
    have used := built.used
    omega
  change buildMachine.Wp (balloc s.usedblocks) _ Q E
  unfold balloc
  rw [if_neg bounded]
  apply wp_wsect
  rw [size] at recorded ⊢
  exact next _ recorded rfl

theorem emptyBuild_freeinode : emptyBuild.freeinode = 1 := rfl

/-- A run of mkfs for so few files that the inodes lie before the bitmap. -/
theorem wp_mkfs {files : List InputFile} (few : files.length ≤ 206)
    (stop : (∃ f ∈ files, slash ∈ f.argv) ∨ ¬ Fits (imageFiles files) → ∀ w s', E w s')
    (next : ∀ t, (∀ f ∈ files, slash ∉ f.argv) → Built t (imageFiles files) (imageSizes files) →
      t.freeinode = files.length + 2 → Q () t.finish) :
    buildMachine.Wp (mkfs files) newBuild Q E := by
  have total : mkfsSb.nblocks + mkfsSb.dataStart + mkfsSb.nlog = 1024 := by decide
  have tight : ∀ w s', ¬ Fits rootFiles → E w s' := by
    intro w s' crowded
    refine stop (.inr fun fits => crowded ?_) w s'
    exact fits.mono (length_withFiles _ _ files)
  unfold mkfs
  rw [total]
  apply Machine.Wp.seq
  apply wp_wzeroes
  apply Machine.Wp.seq
  apply wp_wsect
  rw [← emptyBuild]
  apply Machine.Wp.seq
  apply wp_ialloc emptyBuild_built (by decide) (by decide)
  rw [emptyBuild_freeinode]
  intro s₁ built₁ freeinode₁
  rw [if_neg (by decide)]
  apply Machine.Wp.seq
  apply wp_iappend built₁ (by decide) (by omega)
  · intro crowded w s'
    exact tight w s' fun fits => crowded (fits.mono (length_extend _ rootIno _))
  intro s₂ built₂ freeinode₂
  apply Machine.Wp.seq
  apply wp_iappend built₂ (by decide) (by omega)
  · intro crowded w s'
    exact tight w s' crowded
  intro s₃ built₃ freeinode₃
  have two : s₃.freeinode = 2 := by omega
  apply Machine.Wp.seq
  apply wp_addFiles built₃ (by rw [two]; decide) (by omega)
  · rw [two]
    exact stop
  rw [two]
  intro s₄ named built₄ freeinode₄
  exact wp_close built₄ (by rw [freeinode₄]; unfold rootIno; omega)
    fun t built₅ freeinode₅ => next t named built₅ (by omega)

end Main

end OsAudio.Mkfs

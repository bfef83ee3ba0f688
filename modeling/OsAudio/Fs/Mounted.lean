import Mathlib.Data.List.TakeWhile
import OsAudio.Fs.Dinodes
import OsAudio.Fs.InodeRun
import OsAudio.Fs.Session

/-!
# Reading a volume

The calls of the inode layer and the path lookup on a volume that nobody writes: the blocks the
files need are there, the log is empty, and the only thing that changes is the inode cache.
-/
namespace OsAudio.Fs
open OsAudio.Lib

/-- The inode layer on a volume. -/
def fsVolume (forbidden : Mark → Bool) : Machine (InodeSig FsMem) Stop (Vol (InodeMem FsMem)) :=
  (volMachine forbidden).through inodeImpl

theorem fs_refines (forbidden : Mark → Bool) :
    (fsMachine forbidden).Refines (fsVolume forbidden) Shows (fun _ _ => True) (fun _ => False)
      (· = .beyond) :=
  Machine.Refines.through (T := InodeSig FsMem) (cache_refines forbidden) (fun _ _ _ => trivial)
    inodeImpl

theorem Shows.upper_eq {s : FsState} {v : Vol (InodeMem FsMem)} (presented : Shows s v) :
    s.upper = v.mem := by
  obtain ⟨b, caches, presents⟩ := presented
  rw [BufSys.upper, caches.mem, presents.mem]

/-! ## Calls that do not write -/

/-- The limits of a run that lacks nothing. -/
def ample : Limits := ⟨True, True, true, true⟩

section Calls
variable {sb : Superblock} {A : Nat → Nat → Nat} {forbidden : Mark → Bool}
  {v : Vol (InodeMem FsMem)} {E : Stop → Vol (InodeMem FsMem) → Prop} {ip inum : Nat}

/-- A run in a transaction with blocks to spare stops only for lack of room. -/
theorem Fails.crowded {μ : Type} {u : Vol μ} {w : Stop} {lim : Limits} (fails : Fails lim w u)
    (up : lim.up = true) (flag : lim.inTrans = true) (spare : lim.spare) : ¬ lim.roomy := by
  intro roomy
  by_cases outside : w = .panic .writeOutsideTrans
  · exact absurd (flag.symm.trans (fails.outside outside).2) nofun
  by_cases big : w = .panic .tooBigTransaction
  · exact fails.tooBig big up roomy
  by_cases none : w = .panic .noBuffers
  · exact fails.noBuffers none roomy
  exact fails.short outside big none spare

theorem Fails.never {μ : Type} {u : Vol μ} {w : Stop} (fails : Fails ample w u) : False :=
  fails.crowded rfl rfl trivial trivial

/-- The volume has the inodes with addresses `A`, and no transaction has touched it. -/
structure Mounted (sb : Superblock) (A : Nat → Nat → Nat) (v : Vol (InodeMem FsMem)) : Prop where
  layout : Layout sb
  laid : v.Laid sb
  idle : v.held = ∅
  quiet : v.logged = ∅
  log : 2 ≤ sb.nlog
  storage : Storage sb v.data A

theorem Mounted.room (mounted : Mounted sb A v) : v.Room ∅ := by
  refine ⟨?_, by decide, ?_⟩
  · rw [mounted.quiet]
  · have log := mounted.log
    rw [mounted.laid.size, Finset.card_empty]
    omega

theorem Mounted.setInode (mounted : Mounted sb A v) (ip : Nat) (inode : Inode) :
    Mounted sb A (v.setInode ip inode) :=
  ⟨mounted.layout, mounted.laid.again, mounted.idle,
    mounted.quiet, mounted.log, mounted.storage⟩

variable {ν : Type} {Q : Nat → Vol (InodeMem FsMem) → Prop} {off n : Nat}

theorem setInode_setInode (v : Vol (InodeMem ν)) (ip : Nat) (first second : Inode) :
    (v.setInode ip first).setInode ip second = v.setInode ip second := by
  unfold Vol.setInode
  simp only [Function.update_idem]

@[simp] theorem setInode_self (v : Vol (InodeMem ν)) (ip : Nat) (inode : Inode) :
    (v.setInode ip inode).mem.icache ip = inode := by
  simp only [Vol.setInode, Function.update_self]

@[simp] theorem setInode_other (v : Vol (InodeMem ν)) {ip jp : Nat} (inode : Inode)
    (other : jp ≠ ip) :
    (v.setInode ip inode).mem.icache jp = v.mem.icache jp := by
  simp only [Vol.setInode, Function.update_of_ne other]

@[simp] theorem setInode_data (v : Vol (InodeMem ν)) (ip : Nat) (inode : Inode) :
    (v.setInode ip inode).data = v.data := rfl

/-- A call is the program that implements it. -/
theorem wp_call {op : InodeOp FsMem} {Q : op.Res → Vol (InodeMem FsMem) → Prop}
    (sat : (volMachine forbidden).Wp (inodeImpl op) v Q E) :
    (fsVolume forbidden).Wp (Prog.op (S := InodeSig FsMem) op) v Q E :=
  Machine.Wp.op (S := InodeSig FsMem) (c := op) sat

theorem wp_iget_cached
    (found : cached v.mem.icache inum = some ip)
    (next : Q ip (v.setInode ip { v.mem.icache ip with ref := (v.mem.icache ip).ref + 1 })) :
    (fsVolume forbidden).Wp (iget inum) v Q E := by
  apply wp_call
  change (volMachine forbidden).Wp (inodeGet inum) v Q E
  apply Machine.Wp.seq
  apply wp_getMem
  rw [found]
  apply Machine.Wp.seq
  apply wp_setInode
  exact .ret next

theorem wp_iget_fresh
    (absent : cached v.mem.icache inum = none) (free : emptySlot v.mem.icache = some ip)
    (next : Q ip (v.setInode ip
      { v.mem.icache ip with inum := inum, ref := 1, busy := false, valid := false })) :
    (fsVolume forbidden).Wp (iget inum) v Q E := by
  apply wp_call
  change (volMachine forbidden).Wp (inodeGet inum) v Q E
  apply Machine.Wp.seq
  apply wp_getMem
  rw [absent, free]
  apply Machine.Wp.seq
  apply wp_setInode
  exact .ret next

/-- `inode_lock` loads the inode. -/
theorem wp_ilock {Q : Unit → Vol (InodeMem FsMem) → Prop} (mounted : Mounted sb A v)
    (used : 1 ≤ (v.mem.icache ip).ref) (free : (v.mem.icache ip).busy = false)
    (stale : (v.mem.icache ip).valid = false) (home : iblock (v.mem.icache ip).inum < sb.dataEnd)
    (alive : (dinodeOf v.data (v.mem.icache ip).inum).type ≠ 0)
    (next : Q () (v.setInode ip { v.mem.icache ip with
      toDinode := dinodeOf v.data (v.mem.icache ip).inum, busy := true, valid := true })) :
    (fsVolume forbidden).Wp (ilock ip) v Q E := by
  have unheld := Vol.unheld mounted.idle
  have few := v.few_held mounted.idle 2
  apply wp_call
  change (volMachine forbidden).Wp (inodeLock ip) v Q E
  apply Machine.Wp.seq
  apply wp_getInode
  rw [if_neg (by omega), if_neg (by simp [free]), if_neg (by simp [stale])]
  apply Machine.Wp.seq
  apply wp_setInode
  apply Machine.Wp.seq
  refine .weaken (E := Fails ample) (wp_bread (mounted.laid.home mounted.layout home) (unheld _) few
    (fun _ => (mounted.setInode ip _).room) ?_) fun w _ fails => fails.never.elim
  apply Machine.Wp.seq
  apply wp_brelse (Finset.mem_insert_self _ _)
  rw [release_hold (by exact unheld _)]
  apply Machine.Wp.seq
  apply wp_setInode
  rw [setInode_setInode]
  change (volMachine forbidden).Wp
    (if (dinodeOf v.data (v.mem.icache ip).inum).type = 0 then _ else _) _ _ _
  rw [if_neg alive]
  exact .ret next

theorem wp_look {Q : InodeView → Vol (InodeMem FsMem) → Prop}
    (next : let inode := v.mem.icache ip
      Q ⟨inode.inum, inode.ref, inode.valid, inode.type, inode.nlink, inode.size⟩ v) :
    (fsVolume forbidden).Wp (look ip) v Q E := by
  apply wp_call
  apply Machine.Wp.seq
  apply wp_getInode
  exact .ret next

theorem wp_iunlock {Q : Unit → Vol (InodeMem FsMem) → Prop} (used : 1 ≤ (v.mem.icache ip).ref)
    (busy : (v.mem.icache ip).busy = true)
    (next : Q () (v.setInode ip { v.mem.icache ip with busy := false })) :
    (fsVolume forbidden).Wp (iunlock ip) v Q E := by
  apply wp_call
  change (volMachine forbidden).Wp (inodeUnlock ip) v Q E
  apply Machine.Wp.seq
  apply wp_getInode
  have held : ¬ ((!(v.mem.icache ip).busy) = true ∨ (v.mem.icache ip).ref < 1) := by
    simp only [busy, Bool.not_true, Bool.false_eq_true, false_or]
    omega
  rw [if_neg held]
  exact wp_setInode next

/-- `inode_put` of an inode with other references. -/
theorem wp_iput {Q : Unit → Vol (InodeMem FsMem) → Prop} (others : 1 < (v.mem.icache ip).ref)
    (next : Q () (v.setInode ip { v.mem.icache ip with ref := (v.mem.icache ip).ref - 1 })) :
    (fsVolume forbidden).Wp (iput ip) v Q E := by
  apply wp_call
  change (volMachine forbidden).Wp (inodePut ip) v Q E
  apply Machine.Wp.seq
  apply wp_getInode
  rw [if_neg (by omega)]
  apply Machine.Wp.seq
  apply wp_getInode
  exact wp_setInode next

theorem contentOf_take {data : Nat → Bytes} {a : Nat → Nat} {size m : Nat}
    (length : m = min n (size - off)) :
    ((contentOf data a size).drop off).take n = (List.range m).map fun i => byteAt data a (off + i) := by
  refine List.ext_getElem ?_ fun i first second => ?_
  · simp [length]
  · simp [contentOf]

/-- `inode_read` where the blocks are there. -/
theorem wp_iread {Q : Option (List Byte) → Vol (InodeMem FsMem) → Prop} {m : Nat}
    (mounted : Mounted sb A v) (addrs : (v.mem.icache ip).addrs = A inum)
    (file : (v.mem.icache ip).type ≠ tDev) (start : off ≤ (v.mem.icache ip).size)
    (word : off + n < 4294967296) (length : m = min n ((v.mem.icache ip).size - off))
    (small : off + m ≤ maxFile * bSize) (covers : Covers v.data (A inum) (off + m))
    (next : Q (some ((List.range m).map fun i => byteAt v.data (A inum) (off + i))) v) :
    (fsVolume forbidden).Wp (iread ip off n) v Q E := by
  have stands : Stands sb ip inum A v :=
    ⟨mounted.layout, mounted.laid, mounted.idle, mounted.storage, addrs⟩
  have sum : (off + n) % 4294967296 = off + n := Nat.mod_eq_of_lt word
  have least : (if (v.mem.icache ip).size < off + n then (v.mem.icache ip).size - off else n) = m := by
    split <;> omega
  apply wp_call
  change (volMachine forbidden).Wp (inodeRead ip off n) v Q E
  apply Machine.Wp.seq
  apply wp_getInode
  rw [if_neg file, sum, if_neg (by omega)]
  dsimp only
  rw [least]
  apply Machine.Wp.seq
  refine .weaken (E := Fails ample) (reads_readFrom stands (fun _ => mounted.room) (Nat.le_refl _) small
    covers ?_).wp fun w _ fails => fails.never.elim
  exact .ret next

/-- `block_alloc` cannot log the bitmap outside of a transaction. -/
theorem wp_blockAlloc_refused (mounted : Mounted sb A v)
    (single : sb.size ≤ bpb) (refused : ¬ (v.up = true ∧ v.inTrans = true)) :
    (volMachine forbidden).Wp blockAlloc v Q fun w _ => w ≠ .beyond := by
  have unheld := Vol.unheld mounted.idle
  have few := v.few_held mounted.idle 2
  have ends := mounted.layout.dataEnd_le
  have fits := mounted.layout.fits
  have count : (sb.size + bpb - 1) / bpb = 1 := by
    unfold bpb at *
    omega
  have first : 0 / bpb ≤ sb.size / bpb := Nat.zero_le _
  have block := bblock_bounds first
  apply Machine.Wp.seq
  refine .weaken (E := Fails ample) (wp_superblock mounted.layout mounted.laid (unheld _) few
    (fun _ => mounted.room) ?_) fun w _ fails => fails.never.elim
  rw [count]
  apply Machine.Wp.seq
  refine .weaken (E := Fails ample) (wp_bread (mounted.laid.home mounted.layout (by omega)) (unheld _)
    few (fun _ => mounted.room) ?_) fun w _ fails => fails.never.elim
  cases clearBitFrom (v.data (bblock 0 sb.ninodes)) 0 sb.size with
  | some bi =>
    apply Machine.Wp.seq
    apply Machine.Wp.op
    change (volLogWrite (v.hold _) _ _).Sat _ _
    have word := mounted.layout.word
    have held : ¬ (bblock 0 sb.ninodes ∉ (v.hold (bblock 0 sb.ninodes)).held ∨
        bblock 0 sb.ninodes = 1 ∨ 4294967296 ≤ bblock 0 sb.ninodes) := by
      rintro (missing | super | large)
      · exact missing (Finset.mem_insert_self _ _)
      · omega
      · omega
    unfold volLogWrite
    rw [if_neg held]
    split
    · rintro ⟨⟩
    · next ready =>
      have up : v.up = true := by simpa [Vol.hold] using (not_or.mp ready).1
      have idle : ¬ (v.hold (bblock 0 sb.ninodes)).inTrans := fun busy => refused ⟨up, busy⟩
      rw [if_pos idle]
      rintro ⟨⟩
  | none =>
    apply Machine.Wp.seq
    apply wp_brelse (Finset.mem_insert_self _ _)
    apply Machine.Wp.stop
    rintro ⟨⟩

/-- `inode_read` where a direct block is missing. -/
theorem wp_iread_hole {Q : Option (List Byte) → Vol (InodeMem FsMem) → Prop}
    (mounted : Mounted sb A v) (single : sb.size ≤ bpb) (refused : ¬ (v.up = true ∧ v.inTrans = true))
    (file : (v.mem.icache ip).type ≠ tDev) (start : off < (v.mem.icache ip).size) (some : 0 < n)
    (word : off + n < 4294967296) (direct : off / bSize < nDirect)
    (hole : (v.mem.icache ip).addrs (off / bSize) = 0) :
    (fsVolume forbidden).Wp (iread ip off n) v Q fun w _ => w ≠ .beyond := by
  have sum : (off + n) % 4294967296 = off + n := Nat.mod_eq_of_lt word
  obtain ⟨m, count⟩ : ∃ m, m + 1 =
      if (v.mem.icache ip).size < off + n then (v.mem.icache ip).size - off else n := by
    split
    · exact ⟨(v.mem.icache ip).size - off - 1, by omega⟩
    · exact ⟨n - 1, by omega⟩
  apply wp_call
  change (volMachine forbidden).Wp (inodeRead ip off n) v Q _
  apply Machine.Wp.seq
  apply wp_getInode
  rw [if_neg file, sum, if_neg (by omega)]
  dsimp only
  rw [← count]
  apply Machine.Wp.seq
  unfold readFrom
  rw [if_neg (Nat.succ_ne_zero m)]
  apply Machine.Wp.seq
  unfold bmap bmapBy
  rw [if_pos direct]
  apply Machine.Wp.seq
  apply wp_getInode
  rw [if_pos hole]
  apply Machine.Wp.seq
  exact wp_blockAlloc_refused mounted single refused

end Calls

/-! ## Names -/

/-- `dir_lookup` stops at this entry. -/
def Hit (name bytes : List Byte) : Prop :=
  (direntOf bytes).inum ≠ 0 ∧ dirNamecmp (chars name) (direntOf bytes).name = true

section Names
variable {forbidden : Mark → Bool} {v : Vol (InodeMem FsMem)} {dp : Nat} {name : List Byte}
  {E : Stop → Vol (InodeMem FsMem) → Prop} {entry : Nat → List Byte}

/-- The loop of `dir_lookup`.  Each entry it comes to has to be readable, unless the run may stop
there. -/
theorem wp_dirLookupFrom {Q : Option (Nat × Nat) → Vol (InodeMem FsMem) → Prop} {count k : Nat}
    (sized : ∀ j, (entry j).length = direntSize)
    (each : ∀ j, k ≤ j → j < k + count → (∀ i, k ≤ i → i < j → ¬ Hit name (entry i)) → ∀ R,
      (R (some (entry j)) v → (fsVolume forbidden).Wp (iread dp (direntSize * j) direntSize) v R E) ∧
      (Hit name (entry j) → (fsVolume forbidden).Wp (iget (direntOf (entry j)).inum) v
        (fun ip w => Q (some (ip, direntSize * j)) w) E) ∨
      (fsVolume forbidden).Wp (iread dp (direntSize * j) direntSize) v R E)
    (last : (∀ i, k ≤ i → i < k + count → ¬ Hit name (entry i)) → Q none v) :
    (fsVolume forbidden).Wp (dirLookupFrom dp name count (direntSize * k)) v Q E := by
  induction count generalizing k with
  | zero =>
    apply Machine.Wp.ret
    apply last
    intro i low high
    omega
  | succ count ih =>
    unfold dirLookupFrom
    apply Machine.Wp.seq
    rcases each k (Nat.le_refl _) (by omega) (fun i low high => by omega) _ with ⟨reads, found⟩ | stops
    · apply reads
      dsimp only
      rw [if_neg (fun short => short (sized k))]
      by_cases hit : Hit name (entry k)
      · rw [if_pos ⟨hit.1, hit.2⟩]
        apply Machine.Wp.seq
        exact (found hit).mono fun ip w result => .ret result
      · rw [if_neg fun both => hit ⟨both.1, both.2⟩]
        have step : direntSize * k + direntSize = direntSize * (k + 1) := by rw [Nat.mul_succ]
        rw [step]
        apply ih
        · intro j low high clear
          refine each j (by omega) (by omega) fun i after before => ?_
          by_cases here : i = k
          · rw [here]
            exact hit
          · exact clear i (by omega) before
        · intro clear
          apply last
          intro i after before
          by_cases here : i = k
          · rw [here]
            exact hit
          · exact clear i (by omega) (by omega)
    · exact stops

/-- The kernel after boot, with the root directory read into the inode cache and locked. -/
def Vol.rooted (v : Vol (InodeMem FsMem)) : Vol (InodeMem FsMem) :=
  v.setInode 0 { v.mem.icache 0 with
    ref := (v.mem.icache 0).ref + 1, toDinode := dinodeOf v.data (v.mem.icache 0).inum,
    busy := true, valid := true }

/-- `inode_unlockput` of an inode with other references. -/
def Vol.unlocked (v : Vol (InodeMem FsMem)) (ip : Nat) : Vol (InodeMem FsMem) :=
  v.setInode ip { v.mem.icache ip with busy := false, ref := (v.mem.icache ip).ref - 1 }

theorem wp_iunlockput {Q : Unit → Vol (InodeMem FsMem) → Prop} {ip : Nat}
    (others : 1 < (v.mem.icache ip).ref) (busy : (v.mem.icache ip).busy = true)
    (next : Q () (v.unlocked ip)) : (fsVolume forbidden).Wp (iunlockput ip) v Q E := by
  apply Machine.Wp.seq
  apply wp_iunlock (by omega) busy
  apply wp_iput
  · rw [setInode_self]
    exact others
  · rw [setInode_setInode, setInode_self]
    exact next

theorem skipelem_single {elem : List Byte} (some : elem ≠ []) (single : slash ∉ elem) :
    skipelem (slash :: elem) = Option.some (elem.take (dirSiz - 1), []) := by
  have apart : ∀ c ∈ elem, c ≠ slash := fun c member same => single (same ▸ member)
  have start : (slash :: elem).dropWhile (· == slash) = elem := by
    cases elem with
    | nil => exact absurd rfl some
    | cons c rest => simp [apart c List.mem_cons_self]
  have whole : elem.takeWhile (· != slash) = elem := by
    rw [List.takeWhile_eq_self_iff]
    intro c member
    simpa using apart c member
  have nothing : elem.dropWhile (· != slash) = [] := by
    rw [List.dropWhile_eq_nil_iff]
    intro c member
    simpa using apart c member
  have filled : ¬ elem.isEmpty = true := by simpa using some
  rw [skipelem, start, if_neg filled, whole, nothing]
  rfl

/-- `namei` on a name in the root directory, in the first state after boot. -/
theorem wp_namei_root {Q : Option Nat → Vol (InodeMem FsMem) → Prop} {sb : Superblock}
    {A : Nat → Nat → Nat} {elem : List Byte} (mounted : Mounted sb A v)
    (boot : v.mem.icache = (bootMem numProcs).icache)
    (some : elem ≠ []) (single : slash ∉ elem) (home : iblock rootIno < sb.dataEnd)
    (root : (dinodeOf v.data rootIno).type = tDir)
    (search : (fsVolume forbidden).Wp
      (dirLookupFrom 0 (elem.take (dirSiz - 1)) (entries (dinodeOf v.data rootIno).size) 0) v.rooted
      (fun r w => 1 < (w.mem.icache 0).ref ∧ (w.mem.icache 0).busy = true ∧
        Q (r.map (·.1)) (w.unlocked 0)) E) :
    (fsVolume forbidden).Wp (namei (slash :: elem)) v Q E := by
  have slot : v.mem.icache 0 = (bootMem numProcs).icache 0 := by rw [boot]
  have ref : (v.mem.icache 0).ref = 64 := by
    rw [slot]
    rfl
  have inum : (v.mem.icache 0).inum = rootIno := by
    rw [slot]
    rfl
  have idle : (v.mem.icache 0).busy = false ∧ (v.mem.icache 0).valid = false := by
    rw [slot]
    exact ⟨rfl, rfl⟩
  have absolute : (slash :: elem).head? = Option.some slash := rfl
  apply Machine.Wp.seq
  unfold namex
  rw [if_pos absolute]
  apply Machine.Wp.seq
  apply wp_iget_cached (cached_first (by omega) inum)
  unfold namexFrom
  rw [skipelem_single some single]
  apply Machine.Wp.seq
  apply wp_ilock (mounted.setInode 0 _)
  · simp only [setInode_self]
    omega
  · simp only [setInode_self]
    exact idle.1
  · simp only [setInode_self]
    exact idle.2
  · simp only [setInode_self, inum]
    exact home
  · simp only [setInode_self, setInode_data, inum, root]
    decide
  rw [setInode_setInode]
  change (fsVolume forbidden).Wp _ v.rooted _ _
  have kind : (v.rooted.mem.icache 0).type = tDir := by
    simp only [Vol.rooted, setInode_self, inum]
    exact root
  apply Machine.Wp.seq
  apply wp_look
  dsimp only
  rw [if_neg (fun other => other kind), if_neg nofun]
  apply Machine.Wp.seq
  apply Machine.Wp.seq
  apply wp_look
  dsimp only
  rw [if_neg (fun other => other kind)]
  have size : (v.rooted.mem.icache 0).size = (dinodeOf v.data rootIno).size := by
    simp only [Vol.rooted, setInode_self, inum]
  rw [size]
  refine search.mono ?_
  rintro r w ⟨others, busy, result⟩
  cases r with
  | none =>
    apply Machine.Wp.seq
    apply wp_iunlockput others busy
    exact .ret result
  | some found =>
    apply Machine.Wp.seq
    apply wp_iunlockput others busy
    exact .ret result

end Names

end OsAudio.Fs

import OsAudio.Fs.Mkfs

/-!
# The block allocator in a transaction

`block_alloc` and `block_free` of `kern/fs/block.c` on the real buffer cache and log, for any super
block and any contents: nothing is assumed about where inodes and data lie, or which blocks the bitmap
has in use.  Only super block and bitmap are apart from the log, which writes to its own blocks
whenever a block is stored.  The runs are made on the ideal cache and carried over to the real one.
-/
namespace OsAudio.Fs
open OsAudio.Lib
open Function (update update_self update_of_ne)

/-! ## Single calls -/

section Runs
variable {μ : Type}

/-- The log on the ideal cache. -/
abbrev idealLog : Machine (LogSig μ) Stop (Ideal (LogMem μ)) :=
  (idealMachine fun _ => false).through logImpl

/-- Inside a transaction, no block is held and `k` more blocks can be logged. -/
structure LogReady (start : Nat) (size : Int) (k : Nat) (s : Ideal (LogMem μ)) : Prop where
  log : LogState start size s
  busy : s.mem.log.busy = true
  idle : s.held = ∅
  buffers : s.mem.log.n + k < nBuf
  slots : (s.mem.log.n : Int) + k < size - 1

variable {start : Nat} {size : Int} {k : Nat} {s : Ideal (LogMem μ)} {sb : Superblock}

section
variable (ready : LogReady start size k s)
include ready

theorem LogReady.free (t : Nat) : t ∉ s.held := by
  rw [ready.idle]
  exact Finset.notMem_empty t

theorem LogReady.read (t : Nat) : idealLog.run (bread t) s = .ok (s.content t) (s.hold t) := by
  have room : s.room := by
    have buffers := ready.buffers
    rw [Ideal.room, ready.idle, Finset.empty_union, ready.log.dirty_card]
    omega
  exact (Machine.run_op ..).trans ((run_bufRead s t).trans (idealRead_ok (ready.free t) (.inr room)))

theorem LogReady.release (t : Nat) : idealLog.run (brelse t) (s.hold t) = .ok () s :=
  (Machine.run_op ..).trans ((run_bufRelease _ t).trans (release_read (ready.free t)))

/-- A block that is logged already takes no more room. -/
theorem LogReady.store {t : Nat} (more : t ∈ s.dirty ∨ 0 < k) (home : ¬ logRegion start size t)
    (word : t < 4294967296) (data : Bytes) :
    idealLog.run (logStore t data) (s.hold t) = .ok () ((s.logged t data).hold t) ∧
    LogReady start size (k - 1) (s.logged t data) := by
  obtain ⟨log, busy, idle, buffers, slots⟩ := ready
  have few : s.mem.log.n < logSize := by
    simp only [nBuf, logSize] at *
    omega
  have fits : (s.mem.log.n : Int) < size - 1 := by omega
  have count := log.dirty_card
  have grown : (insert t s.dirty).card + (k - 1) ≤ s.mem.log.n + k ∧ (insert t s.dirty).card < nBuf := by
    rcases more with logged | positive
    · rw [Finset.insert_eq_of_mem logged]
      omega
    · have := Finset.card_insert_le t s.dirty
      omega
  have after := @LogState.logged μ start size s t data log few fits home word
  have length := after.dirty_card
  rw [log.logged_dirty fits] at length
  have room : (s.hold t).room := by
    rw [Ideal.room, Ideal.hold, idle, Finset.insert_union, Finset.empty_union]
    exact grown.2
  have run := @run_logWrite μ (fun _ => false) start size (s.hold t) (log.hold home) t data busy few fits
    (Finset.mem_insert_self t _) room
  exact ⟨(Machine.run_op ..).trans run, after, busy, idle, by omega, by omega⟩

theorem LogReady.content {t u : Nat} (data : Bytes) (home : ¬ logRegion start size u) :
    (s.logged t data).content u = update s.content t data u :=
  ready.log.logged_content (by have := ready.slots; omega) home

theorem LogReady.dirty (t : Nat) (data : Bytes) : (s.logged t data).dirty = insert t s.dirty :=
  ready.log.logged_dirty (by have := ready.slots; omega)

theorem LogReady.superblock : idealLog.run superblock s = .ok (superblockOf (s.content 1)) s := by
  rw [Fs.superblock, Machine.run_bind_ok (ready.read 1), Machine.run_bind_ok (ready.release 1)]
  rfl

theorem LogReady.blockZero {t : Nat} (more : t ∈ s.dirty ∨ 0 < k) (home : ¬ logRegion start size t)
    (word : t < 4294967296) :
    idealLog.run (blockZero t) s = .ok () (s.logged t Bytes.zero) ∧
    LogReady start size (k - 1) (s.logged t Bytes.zero) := by
  obtain ⟨store, after⟩ := ready.store more home word Bytes.zero
  rw [Fs.blockZero, Machine.run_bind_ok (ready.read t), Machine.run_bind_ok store]
  exact ⟨after.release t, after⟩

end

variable {count b r : Nat}

/-- The bit of block `r` has been set. -/
def Ideal.marked (s : Ideal (LogMem μ)) (sb : Superblock) (r : Nat) : Ideal (LogMem μ) :=
  s.logged (bblock r sb.ninodes) ((s.content (bblock r sb.ninodes)).setBit (r % bpb))

/-- The state after `block_alloc` has returned `r`. -/
def Ideal.allocated (s : Ideal (LogMem μ)) (sb : Superblock) (r : Nat) : Ideal (LogMem μ) :=
  (s.marked sb r).logged r Bytes.zero

theorem bblock_word (sized : sb.ninodes < 4294967296) (small : b < 4294967296) :
    bblock b sb.ninodes < 4294967296 := by
  unfold bblock bpb ipb
  omega

/-- The state after `block_free (b)`. -/
def Ideal.freed (s : Ideal (LogMem μ)) (sb : Superblock) (b : Nat) : Ideal (LogMem μ) :=
  s.logged (bblock b sb.ninodes) ((s.content (bblock b sb.ninodes)).clearBit (b % bpb))

/-- Block `r` has been taken: its bit is set, it is all zero, and there is no other change outside of
the log. -/
structure Takes (sb : Superblock) (inLog : Nat → Prop) (before after : Nat → Bytes) (r : Nat) : Prop where
  bits : ∀ c < sb.size, inUse sb after c = (decide (c = r) || inUse sb before c)
  marked : after (bblock r sb.ninodes) = (before (bblock r sb.ninodes)).setBit (r % bpb)
  zeroed : after r = Bytes.zero
  others : ∀ t, ¬ inLog t → t ≠ r → t ≠ bblock r sb.ninodes → after t = before t

theorem inUse_congr {before after : Nat → Bytes} {c : Nat}
    (same : after (bblock c sb.ninodes) = before (bblock c sb.ninodes)) :
    inUse sb after c = inUse sb before c := by
  rw [inUse, same, inUse]

variable (apart : ∀ t ∈ sb.bitmap, ¬ logRegion start size t)
include apart

/-- What every block outside of the log holds after `block_alloc`. -/
theorem LogReady.allocated_content (ready : LogReady start size 2 s) (sized : sb.ninodes < 4294967296)
    (below : r < sb.size) (small : r < 4294967296) {t : Nat} (home : ¬ logRegion start size t) :
    (s.allocated sb r).content t = update (update s.content (bblock r sb.ninodes)
      ((s.content (bblock r sb.ninodes)).setBit (r % bpb))) r Bytes.zero t := by
  obtain ⟨-, marked⟩ := ready.store (.inr (by decide)) (apart _ (bblock_mem_bitmap below))
    (bblock_word sized small) ((s.content (bblock r sb.ninodes)).setBit (r % bpb))
  refine (marked.content _ home).trans ?_
  by_cases here : t = r
  · rw [here, update_self, update_self]
  · rw [update_of_ne here, update_of_ne here]
    exact ready.content _ home

/-- A block outside the bitmap is taken. -/
theorem LogReady.takes (ready : LogReady start size 2 s) (sized : sb.ninodes < 4294967296) (below : r < sb.size)
    (small : r < 4294967296) (outside : r ∉ sb.bitmap) (home : ¬ logRegion start size r) :
    Takes sb (logRegion start size) s.content (s.allocated sb r).content r := by
  have content := @LogReady.allocated_content μ start size s sb r apart ready sized below small
  have other : ∀ c < sb.size, bblock c sb.ninodes ≠ r := by
    rintro c inside rfl
    exact outside (bblock_mem_bitmap inside)
  refine ⟨fun c inside => ?_, ?_, ?_, fun t home different others => ?_⟩
  · refine (inUse_congr (content (apart _ (bblock_mem_bitmap inside)))).trans ?_
    exact (inUse_update (other c inside)).trans (inUse_setBit s.content r c)
  · rw [content (apart _ (bblock_mem_bitmap below)), update_of_ne (other r below), update_self]
  · rw [content home, update_self]
  · rw [content home, update_of_ne different, update_of_ne others]

end Runs

section Cache
variable {μ α : Type} {s : BufSys (LogMem μ)} {v : Vol μ} {b : Ideal (LogMem μ)} {p : LogProg μ α}
  {sb : Superblock}

/-- Inside a transaction, no buffer is held, and cache and log have room for two more blocks. -/
structure Begun (s : BufSys (LogMem μ)) (v : Vol μ) : Prop where
  shows : Shows s v
  up : v.up = true
  inTrans : v.inTrans = true
  idle : v.held = ∅
  buffers : v.logged.card + 2 < nBuf
  slots : (v.logged.card : Int) + 2 < v.size - 1

theorem Begun.ready (begun : Begun s v) :
    ∃ b, Caches s b ∧ LogReady v.start v.size 2 b ∧ b.content = s.content := by
  obtain ⟨⟨b, caches, presents⟩, up, inTrans, idle, buffers, slots⟩ := begun
  rw [presents.card] at buffers slots
  refine ⟨b, caches, ⟨presents.logState up, presents.busy.trans inTrans, ?_, buffers, slots⟩, ?_⟩
  · exact presents.held.trans idle
  · exact funext fun t => (caches.content_eq t).symm

end Cache

/-- A disk with a block of inodes. -/
def freeSuper : Superblock := ⟨64, 0, 8, 10⟩

end OsAudio.Fs

import OsAudio.Fs.IdealCache
import OsAudio.Fs.Log
import OsAudio.Lib.Writes

/-!
# Runs of the log

What the functions of `kern/fs/log.c` do on the ideal cache.  `LogState` is the invariant
of the log between two calls from above: the logged sectors are distinct, lie outside the
log, are exactly the dirty ones, and their contents are also in their slots.
-/
namespace OsAudio.Fs
open OsAudio.Lib
open Function (update update_self update_of_ne)

/-- The sectors of the log on disk: its header and its slots. -/
def logRegion (start : Nat) (size : Int) (sector : Nat) : Prop :=
  ∃ i < size.toNat, sector = (start + i) % 4294967296

instance (start : Nat) (size : Int) (sector : Nat) : Decidable (logRegion start size sector) :=
  inferInstanceAs (Decidable (∃ i < size.toNat, sector = (start + i) % 4294967296))

theorem logRegion_slot {log : Log} {i : Nat} (below : (i : Int) < log.size - 1) :
    logRegion log.start log.size (log.slot i) := by
  refine ⟨i + 1, by omega, ?_⟩
  rw [Log.slot, Nat.add_assoc]

theorem logRegion_start {start : Nat} {size : Int} (word : start < 4294967296) (nonempty : 0 < size) :
    logRegion start size start :=
  ⟨0, by omega, by rw [Nat.add_zero, Nat.mod_eq_of_lt word]⟩

theorem slot_ne_start {log : Log} {i : Nat} (below : i < logSize) :
    log.slot i ≠ log.start := by
  unfold Log.slot
  have : logSize = 10 := rfl
  omega

variable {log : Log} {i : Nat} {data : Bytes}

theorem slot_inj {j : Nat} (left : i < logSize) (right : j < logSize)
    (same : log.slot i = log.slot j) : i = j := by
  unfold Log.slot at same
  have : logSize = 10 := rfl
  omega

theorem rounds_small {n : Nat} (small : n ≤ logSize) : rounds n = n := by
  have : logSize = 10 := rfl
  unfold rounds
  rw [int32_of_range (by omega) (by omega), Int.toNat_natCast]

/-! ## The header block -/

theorem headerInto_n (small : log.n ≤ logSize) :
    (headerInto data log).get 0 4 = log.n := by
  have : logSize = 10 := rfl
  rw [headerInto, Bytes.get_copy_outside (Or.inl (by omega)), Bytes.get_put (by omega)]

theorem get_sectorBytes {sector : Nat → Nat} (word : sector i < 4294967296) :
    (sectorBytes sector).get (4 * i) 4 = sector i := by
  have bytes : ∀ k < 4, sectorBytes sector (4 * i + k) = Bytes.leByte (sector i) k := by
    intro k below
    unfold sectorBytes
    rw [show (4 * i + k) / 4 = i by omega, show (4 * i + k) % 4 = k by omega]
  exact (Bytes.le_congr bytes).trans (Bytes.le_leByte (by omega))

theorem headerInto_sector (small : log.n ≤ logSize)
    (below : i < log.n) (word : log.sector i < 4294967296) :
    (headerInto data log).get (4 + 4 * i) 4 = log.sector i := by
  rw [headerInto, rounds_small small, Bytes.get_copy_inside (by omega) (by omega),
    show 4 + 4 * i - 4 = 4 * i by omega, get_sectorBytes word]

/-- Clearing a header that is clear changes nothing. -/
theorem headerInto_clear (clear : data.get 0 4 = 0) (none : log.n = 0) :
    headerInto data log = data := by
  funext k
  rw [headerInto, none, show 4 * rounds 0 = 0 from rfl, Bytes.copy_outside (by omega), Bytes.put]
  by_cases first : k < 4
  · rw [Bytes.copy_inside (by omega) (by omega), Nat.sub_zero]
    have zero : Bytes.leByte 0 k = 0 := by simp [Bytes.leByte]
    rw [zero]
    simp only [Bytes.get, Bytes.le, Nat.zero_add] at clear
    apply BitVec.eq_of_toNat_eq
    have : k = 0 ∨ k = 1 ∨ k = 2 ∨ k = 3 := by omega
    rcases this with rfl | rfl | rfl | rfl <;> simp <;> omega
  · rw [Bytes.copy_outside (by omega)]

section Runs
variable {μ : Type} {forbidden : Mark → Bool}

/-! ## Single calls -/

section
variable (s : Ideal (LogMem μ))
include s

@[simp] theorem run_bufRead (sector : Nat) :
    (idealMachine forbidden).run (bufRead sector) s = idealRead s sector := Machine.run_op _ _

@[simp] theorem run_bufWrite (sector : Nat) (data : Bytes) :
    (idealMachine forbidden).run (bufWrite sector data) s = idealWrite s sector data :=
  Machine.run_op _ _

@[simp] theorem run_bufSetDirty (sector : Nat) (data : Bytes) :
    (idealMachine forbidden).run (bufSetDirty sector data) s = idealSetDirty s sector data :=
  Machine.run_op _ _

@[simp] theorem run_bufRelease (sector : Nat) :
    (idealMachine forbidden).run (bufRelease sector) s = idealRelease s sector := Machine.run_op _ _

@[simp] theorem run_bufMark (mark : Mark) (hit : Bool) :
    (idealMachine forbidden).run (bufMark mark hit) s =
      if hit && forbidden mark then .stop (.marked mark) s else .ok () s := Machine.run_op _ _

@[simp] theorem run_getLog :
    (idealMachine forbidden).run getLog s = .ok s.mem.log s := rfl

end

/-- The same state with another log record in memory. -/
def Ideal.withLog (s : Ideal (LogMem μ)) (log : Log) : Ideal (LogMem μ) :=
  { s with mem := { s.mem with log := log } }

@[simp] theorem run_setLog (s : Ideal (LogMem μ)) (log : Log) :
    (idealMachine forbidden).run (setLog log) s = .ok () (s.withLog log) := rfl

theorem withLog_withLog (s : Ideal (LogMem μ)) (log other : Log) :
    (s.withLog log).withLog other = s.withLog other := rfl

/-- The effect of writing sectors through to the disk. -/
def Ideal.stored (s : Ideal μ) (ws : List (Nat × Bytes)) : Ideal μ :=
  { s with
    content := applyWrites s.content ws
    disk := applyWrites s.disk ws
    issued := s.issued ++ ws
    dirty := s.dirty \ (ws.map Prod.fst).toFinset }

theorem withLog_stored (s : Ideal (LogMem μ)) (ws : List (Nat × Bytes)) (log : Log) :
    (s.stored ws).withLog log = (s.withLog log).stored ws := rfl

theorem stored_nil (s : Ideal μ) : s.stored [] = s := by
  cases s
  simp [Ideal.stored, applyWrites]

theorem stored_append (s : Ideal μ) (ws vs : List (Nat × Bytes)) :
    (s.stored ws).stored vs = s.stored (ws ++ vs) := by
  simp only [Ideal.stored, applyWrites_append, List.append_assoc, List.map_append,
    List.toFinset_append, Finset.sdiff_sdiff_left']
  congr 1
  ext t
  simp only [Finset.mem_inter, Finset.mem_sdiff, Finset.mem_union]
  tauto

/-- The state in which `sector` is held as well. -/
def Ideal.hold (s : Ideal μ) (sector : Nat) : Ideal μ := { s with held := insert sector s.held }

theorem withLog_hold (s : Ideal (LogMem μ)) (sector : Nat) (log : Log) :
    (s.hold sector).withLog log = (s.withLog log).hold sector := rfl

/-- Room for one more sector in the cache. -/
def Ideal.room (s : Ideal μ) : Prop := (s.held ∪ s.dirty).card < nBuf

variable {sector : Nat} {s : Ideal (LogMem μ)}

theorem idealRead_ok {s : Ideal μ} (free : sector ∉ s.held)
    (room : sector ∈ s.dirty ∨ s.room) :
    idealRead s sector = .ok (s.content sector) (s.hold sector) := by
  unfold idealRead Ideal.hold
  rw [if_neg free, if_neg]
  rintro ⟨clean, full⟩
  rcases room with dirty | room
  · exact clean dirty
  · exact absurd room (Nat.not_lt.mpr full)

/-- A block is read, written through and released. -/
theorem run_rewrite (change : Bytes → Bytes)
    (free : sector ∉ s.held) (room : sector ∈ s.dirty ∨ s.room) :
    (idealMachine forbidden).run (do
      let data ← bufRead sector
      bufWrite sector (change data)
      bufRelease sector) s = .ok () (s.stored [(sector, change (s.content sector))]) := by
  rw [Machine.run_bind, run_bufRead, idealRead_ok free room]
  simp only [Machine.run_bind, run_bufWrite, run_bufRelease, idealWrite, Ideal.hold,
    Finset.mem_insert_self, if_true, idealRelease, Finset.erase_insert free, Ideal.stored, applyWrites, List.map_cons,
    List.map_nil]
  congr 2
  ext t
  simp [and_comm]

theorem run_writeHead {s : Ideal (LogMem μ)} (free : s.mem.log.start ∉ s.held)
    (room : s.mem.log.start ∈ s.dirty ∨ s.room) :
    (idealMachine forbidden).run writeHead s =
      .ok () (s.stored [(s.mem.log.start, headerInto (s.content s.mem.log.start) s.mem.log)]) := by
  unfold writeHead
  rw [Machine.run_bind, run_getLog]
  exact run_rewrite (fun data => headerInto data s.mem.log) free room

/-- The writes of `install_trans` from `tail` on. -/
def installs (log : Log) (content : Nat → Bytes) (count tail : Nat) : List (Nat × Bytes) :=
  (List.range' tail count).map fun i => (log.sector i, content (log.slot i))

theorem run_installFrom {s : Ideal (LogMem μ)} {log : Log} {count tail : Nat} (idle : s.held = ∅)
    (few : s.dirty.card < nBuf)
    (apart : ∀ i < tail + count, ∀ j < tail + count, log.sector i ≠ log.slot j)
    (slotClean : ∀ i < tail + count, log.slot i ∉ s.dirty)
    (present : s.dirty = ∅ ∨
      (∀ i < tail + count, tail ≤ i → log.sector i ∈ s.dirty) ∧
      ∀ i < tail + count, ∀ j < tail + count, log.sector i = log.sector j → i = j) :
    (idealMachine forbidden).run (installFrom log count tail) s =
      .ok () (s.stored (installs log s.content count tail)) := by
  induction count generalizing tail s with
  | zero => exact congrArg _ (stored_nil s).symm
  | succ count ih =>
    let next := s.stored [(log.sector tail, s.content (log.slot tail))]
    have different := apart tail (by omega) tail (by omega)
    have step : ∀ p : BufProg μ Unit, (idealMachine forbidden).run (do
        let lbuf ← bufRead (log.slot tail)
        let _ ← bufRead (log.sector tail)
        bufWrite (log.sector tail) lbuf
        bufRelease (log.slot tail)
        bufRelease (log.sector tail)
        p) s = (idealMachine forbidden).run p next := by
      intro p
      have first : idealRead s (log.slot tail) =
          .ok (s.content (log.slot tail)) { s with held := {log.slot tail} } := by
        have room : s.room := by simpa [Ideal.room, idle] using few
        simpa [idle, Ideal.hold] using idealRead_ok (by simp [idle]) (Or.inr room)
      have second : idealRead { s with held := {log.slot tail} } (log.sector tail) =
          .ok (s.content (log.sector tail))
            { s with held := {log.sector tail, log.slot tail} } := by
        apply idealRead_ok (by simpa using different)
        rcases present with none | ⟨logged, -⟩
        · exact Or.inr (by simp [Ideal.room, none, nBuf])
        · exact Or.inl (logged tail (by omega) (Nat.le_refl _))
      simp only [Machine.run_bind, run_bufRead, first, second, run_bufWrite, run_bufRelease,
        idealWrite, idealRelease, Finset.mem_insert_self, Finset.mem_insert, Finset.mem_singleton,
        different.symm, if_true, or_true, Finset.mem_erase, ne_eq, not_false_eq_true, true_and,
        different]
      congr 1
      simp only [next, Ideal.stored, applyWrites, idle, List.map_cons, List.map_nil]
      congr 1
      · ext t
        simp
        tauto
      · ext t
        simp [and_comm]
    have sameSlots : ∀ i < tail + 1 + count, next.content (log.slot i) = s.content (log.slot i) := by
      intro i below
      apply update_of_ne
      exact (apart tail (by omega) i (by omega)).symm
    have subset : next.dirty ⊆ s.dirty := Finset.sdiff_subset
    have rest := @ih next (tail + 1) idle (Nat.lt_of_le_of_lt (Finset.card_le_card subset) few)
      (fun i below j other => apart i (by omega) j (by omega))
      (fun i below inside => slotClean i (by omega) (subset inside)) ?_
    · rw [installFrom, step, rest]
      congr 1
      have writes : installs log next.content count (tail + 1) =
          installs log s.content count (tail + 1) := by
        apply List.map_congr_left
        intro i member
        rw [List.mem_range'_1] at member
        rw [sameSlots i (by omega)]
      rw [writes, stored_append]
      rfl
    · rcases present with none | ⟨logged, distinct⟩
      · exact Or.inl (by simp [next, Ideal.stored, none])
      · refine Or.inr ⟨fun i below low => ?_, fun i below j other =>
          distinct i (by omega) j (by omega)⟩
        simp only [next, Ideal.stored, List.map_cons, List.map_nil, Finset.mem_sdiff,
          List.toFinset_cons, List.toFinset_nil, insert_empty_eq, Finset.mem_singleton]
        refine ⟨logged i (by omega) (by omega), fun same => ?_⟩
        have := distinct i (by omega) tail (by omega) same
        omega

/-- `write_head`, `install_trans`, `log.lh.n = 0`, `write_head`: the part of `commit_trans`
that `recover_from_log` shares from its second step on. -/
theorem run_finish {s : Ideal (LogMem μ)} (idle : s.held = ∅) (few : s.dirty.card < nBuf)
    (small : s.mem.log.n ≤ logSize)
    (apart : ∀ i < s.mem.log.n, ∀ j < s.mem.log.n, s.mem.log.sector i ≠ s.mem.log.slot j)
    (slotClean : ∀ i < s.mem.log.n, s.mem.log.slot i ∉ s.dirty)
    (present : s.dirty = ∅ ∨ (∀ i < s.mem.log.n, s.mem.log.sector i ∈ s.dirty) ∧
      ∀ i < s.mem.log.n, ∀ j < s.mem.log.n, s.mem.log.sector i = s.mem.log.sector j → i = j)
    (notStart : ∀ i < s.mem.log.n, s.mem.log.sector i ≠ s.mem.log.start) :
    (idealMachine forbidden).run (do
      installTrans
      clearLog
      writeHead) s =
      .ok () ((s.withLog { s.mem.log with n := 0 }).stored
        (installs s.mem.log s.content s.mem.log.n 0 ++
          [(s.mem.log.start, headerInto (s.content s.mem.log.start) { s.mem.log with n := 0 })])) := by
  have install := @run_installFrom μ forbidden s s.mem.log s.mem.log.n 0 idle few
    (by simpa using apart) (by simpa using slotClean) (by simpa using present)
  have first : (idealMachine forbidden).run installTrans s =
      .ok () (s.stored (installs s.mem.log s.content s.mem.log.n 0)) := by
    unfold installTrans
    rw [Machine.run_bind_ok (run_getLog s), rounds_small small]
    exact install
  rw [Machine.run_bind_ok first]
  have kept : applyWrites s.content (installs s.mem.log s.content s.mem.log.n 0) s.mem.log.start =
      s.content s.mem.log.start := by
    apply applyWrites_other
    intro w member
    obtain ⟨i, inside, rfl⟩ := List.mem_map.mp member
    rw [List.mem_range'_1] at inside
    exact notStart i (by omega)
  have second : (idealMachine forbidden).run clearLog
      (s.stored (installs s.mem.log s.content s.mem.log.n 0)) = .ok ()
      ((s.withLog { s.mem.log with n := 0 }).stored
        (installs s.mem.log s.content s.mem.log.n 0)) := rfl
  rw [Machine.run_bind_ok second, run_writeHead, stored_append]
  · rw [← kept]
    rfl
  · simp [Ideal.withLog, Ideal.stored, idle]
  · refine Or.inr (Nat.lt_of_le_of_lt (Finset.card_le_card ?_) few)
    simp [Ideal.withLog, Ideal.stored, idle]

/-! ## Recovery -/

/-- A block that is read and released leaves no trace. -/
theorem release_read {s : Ideal μ} (free : sector ∉ s.held) :
    idealRelease (s.hold sector) sector = .ok () s := by
  unfold idealRelease Ideal.hold
  rw [if_pos (Finset.mem_insert_self _ _), Finset.erase_insert free]

theorem run_readSuperblock (free : 1 ∉ s.held)
    (room : 1 ∈ s.dirty ∨ s.room) :
    (idealMachine forbidden).run readSuperblock s = .ok (superblockOf (s.content 1)) s := by
  unfold readSuperblock
  simp only [Machine.run_bind, run_bufRead, idealRead_ok free room, run_bufRelease,
    release_read free, Machine.run_pure]

/-- A block is read into the log record and released. -/
theorem run_loadLog (load : Bytes → Log)
    (free : sector ∉ s.held) (room : sector ∈ s.dirty ∨ s.room) :
    (idealMachine forbidden).run (do
      let data ← bufRead sector
      setLog (load data)
      bufRelease sector) s = .ok () (s.withLog (load (s.content sector))) := by
  rw [Machine.run_bind_ok ((run_bufRead s _).trans (idealRead_ok free room)),
    Machine.run_bind_ok (run_setLog _ _), run_bufRelease, withLog_hold, release_read]
  exact free

theorem run_readHead {s : Ideal (LogMem μ)} (free : s.mem.log.start ∉ s.held)
    (room : s.mem.log.start ∈ s.dirty ∨ s.room) :
    (idealMachine forbidden).run readHead s =
      .ok () (s.withLog (s.mem.log.withHeader (s.content s.mem.log.start))) := by
  unfold readHead
  rw [Machine.run_bind_ok (run_getLog s)]
  exact run_loadLog s.mem.log.withHeader free room

/-- The writes of `recover_from_log` once the header is in `log`. -/
def recoveryWrites (log : Log) (disk : Nat → Bytes) : List (Nat × Bytes) :=
  installs log disk log.n 0 ++ [(log.start, headerInto (disk log.start) { log with n := 0 })]

/-- What recovery needs of the header it finds. -/
structure Recoverable (log : Log) : Prop where
  few : log.n ≤ logSize
  apart : ∀ i < log.n, ∀ j < log.n, log.sector i ≠ log.slot j
  notStart : ∀ i < log.n, log.sector i ≠ log.start

theorem run_recoverFromLog {s : Ideal (LogMem μ)} {log : Log} (idle : s.held = ∅)
    (saved : s.dirty = ∅) (read : s.mem.log.withHeader (s.content s.mem.log.start) = log)
    (good : Recoverable log) :
    (idealMachine forbidden).run recoverFromLog s =
      .ok () ((s.withLog { log with n := 0 }).stored (recoveryWrites log s.content)) := by
  have room : s.room := by simp [Ideal.room, idle, saved, nBuf]
  have head := @run_readHead μ forbidden s (by simp [idle]) (Or.inr room)
  have finish := @run_finish μ forbidden (s.withLog log) idle (by simp [Ideal.withLog, saved, nBuf])
    good.few good.apart (by simp [Ideal.withLog, saved]) (Or.inl saved) good.notStart
  unfold recoverFromLog
  rw [Machine.run_bind_ok head, read]
  exact finish

theorem run_logInit_placed {log : Log}
    (placed : s.mem.log.placed (superblockOf (s.content 1)) = log) (free : 1 ∉ s.held)
    (room : s.room) :
    (idealMachine forbidden).run logInit s =
      (idealMachine forbidden).run recoverFromLog (s.withLog log) := by
  unfold logInit
  rw [Machine.run_bind_ok (run_readSuperblock free (Or.inr room)), Machine.run_bind_ok (run_getLog s),
    placed, Machine.run_bind_ok (run_setLog _ _)]

theorem run_logInit {s : Ideal (LogMem μ)} {log : Log} (idle : s.held = ∅) (saved : s.dirty = ∅)
    (placed : s.mem.log.placed (superblockOf (s.content 1)) = log)
    (good : Recoverable (log.withHeader (s.content log.start))) :
    (idealMachine forbidden).run logInit s =
      .ok () ((s.withLog { log.withHeader (s.content log.start) with n := 0 }).stored
        (recoveryWrites (log.withHeader (s.content log.start)) s.content)) := by
  have room : s.room := by simp [Ideal.room, idle, saved, nBuf]
  have recover := @run_recoverFromLog μ forbidden (s.withLog log) _ idle saved rfl good
  rw [run_logInit_placed placed (by simp [idle]) room, recover, withLog_withLog]
  rfl

/-! ## The log between calls -/

structure LogState (start : Nat) (size : Int) (s : Ideal (LogMem μ)) : Prop where
  begins : s.mem.log.start = start
  length : s.mem.log.size = size
  word : start < 4294967296
  few : s.mem.log.n ≤ logSize
  fits : s.mem.log.n ≠ 0 → (s.mem.log.n : Int) ≤ size - 1
  distinct : ∀ i < s.mem.log.n, ∀ j < s.mem.log.n, s.mem.log.sector i = s.mem.log.sector j → i = j
  home : ∀ i < s.mem.log.n, ¬ logRegion start size (s.mem.log.sector i)
  words : ∀ i < s.mem.log.n, s.mem.log.sector i < 4294967296
  dirty : ∀ t, t ∈ s.dirty ↔ ∃ i < s.mem.log.n, s.mem.log.sector i = t
  slots : ∀ i < s.mem.log.n, s.content (s.mem.log.slot i) = s.content (s.mem.log.sector i)
  clean : ∀ t, t ∉ s.dirty → s.content t = s.disk t
  header : (s.disk start).get 0 4 = 0
  outside : ∀ t ∈ s.held, ¬ logRegion start size t

section LogState
variable {start : Nat} {size : Int} {s : Ideal (LogMem μ)}

/-- Nothing is logged, and the disk has all contents. -/
theorem LogState.of_empty (begins : s.mem.log.start = start) (length : s.mem.log.size = size)
    (word : start < 4294967296) (empty : s.mem.log.n = 0) (saved : s.dirty = ∅)
    (clean : ∀ t, s.content t = s.disk t) (header : (s.disk start).get 0 4 = 0)
    (idle : s.held = ∅) : LogState start size s := by
  have absent : ∀ i, ¬ i < s.mem.log.n := by
    rw [empty]
    exact fun i => Nat.not_lt_zero i
  constructor
  case begins => exact begins
  case length => exact length
  case word => exact word
  case few => exact empty ▸ Nat.zero_le _
  case fits => exact fun logged => absurd empty logged
  case distinct => exact fun i below => absurd below (absent i)
  case home => exact fun i below => absurd below (absent i)
  case words => exact fun i below => absurd below (absent i)
  case dirty => simp [saved, empty]
  case slots => exact fun i below => absurd below (absent i)
  case clean => exact fun t _ => clean t
  case header => exact header
  case outside => simp [idle]

theorem LogState.dirty_card (inv : LogState start size s) : s.dirty.card = s.mem.log.n := by
  have image : s.dirty = (Finset.range s.mem.log.n).image s.mem.log.sector := by
    ext t
    simp [inv.dirty]
  rw [image, Finset.card_image_of_injOn, Finset.card_range]
  intro i left j right same
  simp only [Finset.coe_range, Set.mem_Iio] at left right
  exact inv.distinct i left j right same

theorem LogState.dirty_home (inv : LogState start size s) {t : Nat} (logged : t ∈ s.dirty) :
    ¬ logRegion start size t := by
  obtain ⟨i, below, rfl⟩ := (inv.dirty t).mp logged
  exact inv.home i below

theorem LogState.slot_region (inv : LogState start size s) {i : Nat}
    (below : (i : Int) < size - 1) : logRegion start size (s.mem.log.slot i) := by
  have inside := @logRegion_slot s.mem.log i (by rw [inv.length]; exact below)
  rwa [inv.begins, inv.length] at inside

theorem slotOf_cases (log : Log) (sector : Nat) :
    (log.slotOf sector < log.n ∧ log.sector (log.slotOf sector) = sector) ∨
    (log.slotOf sector = log.n ∧ ∀ i < log.n, log.sector i ≠ sector) := by
  unfold Log.slotOf
  cases found : (List.range log.n).find? fun i => log.sector i = sector with
  | some i =>
    have member := List.mem_of_find?_eq_some found
    have key := List.find?_some found
    exact Or.inl ⟨List.mem_range.mp member, by simpa using key⟩
  | none =>
    refine Or.inr ⟨rfl, fun i below => ?_⟩
    simpa using List.find?_eq_none.mp found i (List.mem_range.mpr below)

theorem slotOf_le (log : Log) (sector : Nat) : log.slotOf sector ≤ log.n := by
  rcases slotOf_cases log sector with ⟨below, -⟩ | ⟨last, -⟩ <;> omega

/-- The log record after `sector` was logged. -/
def Log.after (log : Log) (sector : Nat) : Log :=
  { log with
    sector := update log.sector (log.slotOf sector) sector
    n := if log.slotOf sector = log.n then log.n + 1 else log.n }

/-- The state after `log_write`. -/
def Ideal.logged (s : Ideal (LogMem μ)) (sector : Nat) (data : Bytes) : Ideal (LogMem μ) :=
  let slot := s.mem.log.slot (s.mem.log.slotOf sector)
  { s with
    content := update (update s.content slot data) sector data
    disk := update s.disk slot data
    issued := s.issued ++ [(slot, data)]
    dirty := insert sector (s.dirty.erase slot)
    mem := { s.mem with log := s.mem.log.after sector } }

theorem logged_hold (s : Ideal (LogMem μ)) (held sector : Nat) (data : Bytes) :
    (s.hold held).logged sector data = (s.logged sector data).hold held := rfl

variable {sector : Nat} {data : Bytes} {log : Log}

/-- `log_write` after its checks: the contents go to slot `i`, and the buffer is dirty. -/
theorem run_logSlot {i slot : Nat} (free : slot ∉ s.held) (room : s.room)
    (held : sector ∈ s.held) :
    (idealMachine forbidden).run (do
      let _ ← bufRead slot
      bufWrite slot data
      bufRelease slot
      let log ← getLog
      if i = log.n then setLog { log with n := log.n + 1 }
      bufSetDirty sector data) s = .ok () { s with
        content := update (update s.content slot data) sector data
        disk := update s.disk slot data
        issued := s.issued ++ [(slot, data)]
        dirty := insert sector (s.dirty.erase slot)
        mem := { s.mem with log := { s.mem.log with
          n := if i = s.mem.log.n then s.mem.log.n + 1 else s.mem.log.n } } } := by
  rw [Machine.run_bind_ok ((run_bufRead s _).trans (idealRead_ok free (Or.inr room)))]
  by_cases new : i = s.mem.log.n
  · simp [Machine.run_bind, idealWrite, Ideal.hold, idealRelease, Finset.erase_insert free, new,
      idealSetDirty, Ideal.withLog, held]
  · simp [Machine.run_bind, idealWrite, Ideal.hold, idealRelease, Finset.erase_insert free, new,
      idealSetDirty, held]

/-- The checks at the head of `log_write`. -/
theorem run_logWrite_checks (current : s.mem.log = log)
    (few : log.n < logSize) (fits : (log.n : Int) < log.size - 1) (busy : log.busy = true) :
    (idealMachine forbidden).run (logWrite sector data) s =
      (idealMachine forbidden).run (do
        let _ ← bufRead (log.slot (log.slotOf sector))
        bufWrite (log.slot (log.slotOf sector)) data
        bufRelease (log.slot (log.slotOf sector))
        let log' ← getLog
        if log.slotOf sector = log'.n then setLog { log' with n := log'.n + 1 }
        bufSetDirty sector data)
        (s.withLog { log with
          sector := update log.sector (log.slotOf sector) sector }) := by
  have limit : ¬ (log.n ≥ logSize ∨ (log.n : Int) ≥ log.size - 1) := by omega
  unfold logWrite
  rw [Machine.run_bind_ok (run_getLog s), current, if_neg limit, busy]
  rfl

theorem run_logWrite (inv : LogState start size s) {sector : Nat} (data : Bytes)
    (busy : s.mem.log.busy = true) (few : s.mem.log.n < logSize)
    (fits : (s.mem.log.n : Int) < size - 1) (held : sector ∈ s.held) (room : s.room) :
    (idealMachine forbidden).run (logWrite sector data) s = .ok () (s.logged sector data) := by
  have place := slotOf_le s.mem.log sector
  have inside := inv.slot_region (i := s.mem.log.slotOf sector) (by omega)
  have free : s.mem.log.slot (s.mem.log.slotOf sector) ∉ s.held := fun member =>
    inv.outside _ member inside
  rw [run_logWrite_checks rfl few (by rw [inv.length]; exact fits) busy]
  exact run_logSlot free room held

theorem run_logWrite_tooBig
    (full : s.mem.log.n ≥ logSize ∨ (s.mem.log.n : Int) ≥ s.mem.log.size - 1) :
    (idealMachine forbidden).run (logWrite sector data) s = .stop (.panic .tooBigTransaction) s := by
  unfold logWrite
  rw [Machine.run_bind_ok (run_getLog s), if_pos full]
  rfl

theorem run_logWrite_outside (few : s.mem.log.n < logSize)
    (fits : (s.mem.log.n : Int) < s.mem.log.size - 1) (idle : s.mem.log.busy = false) :
    (idealMachine forbidden).run (logWrite sector data) s = .stop (.panic .writeOutsideTrans) s := by
  have limit : ¬ (s.mem.log.n ≥ logSize ∨ (s.mem.log.n : Int) ≥ s.mem.log.size - 1) := by omega
  unfold logWrite
  rw [Machine.run_bind_ok (run_getLog s), if_neg limit, idle]
  rfl

theorem run_logWrite_full (inv : LogState start size s) {sector : Nat} {data : Bytes}
    (busy : s.mem.log.busy = true) (few : s.mem.log.n < logSize)
    (fits : (s.mem.log.n : Int) < size - 1) (full : ¬ s.room) :
    ∃ log, (idealMachine forbidden).run (logWrite sector data) s =
      .stop (.panic .noBuffers) (s.withLog log) := by
  have place := slotOf_le s.mem.log sector
  have inside := inv.slot_region (i := s.mem.log.slotOf sector) (by omega)
  refine ⟨{ s.mem.log with sector := update s.mem.log.sector (s.mem.log.slotOf sector) sector },
    (run_logWrite_checks rfl few (by rw [inv.length]; exact fits) busy).trans ?_⟩
  apply Machine.run_bind_stop
  rw [run_bufRead, idealRead, if_neg, if_pos]
  · exact ⟨fun member => inv.dirty_home member inside, Nat.not_lt.mp full⟩
  · exact fun member => inv.outside _ member inside

/-- Holding one more sector outside the log. -/
theorem LogState.hold (inv : LogState start size s)
    (home : ¬ logRegion start size sector) : LogState start size (s.hold sector) :=
  { inv with
    outside := by
      intro t member
      rcases Finset.mem_insert.mp member with rfl | old
      · exact home
      · exact inv.outside t old }

/-- The entries of the log record after `sector` was logged. -/
theorem after_entry {log : Log} {sector j : Nat} (below : j < (log.after sector).n)
    (distinct : ∀ i < log.n, ∀ j < log.n, log.sector i = log.sector j → i = j) :
    (j = log.slotOf sector ∧ (log.after sector).sector j = sector) ∨
    (j ≠ log.slotOf sector ∧ j < log.n ∧ (log.after sector).sector j = log.sector j ∧
      log.sector j ≠ sector) := by
  by_cases here : j = log.slotOf sector
  · exact Or.inl ⟨here, by simp [Log.after, here]⟩
  · have entry : (log.after sector).sector j = log.sector j := by simp [Log.after, here]
    simp only [Log.after] at below
    rcases slotOf_cases log sector with ⟨old, same⟩ | ⟨new, absent⟩
    · rw [if_neg (by omega)] at below
      refine Or.inr ⟨here, below, entry, fun equal => here ?_⟩
      exact distinct j below _ old (equal.trans same.symm)
    · rw [if_pos new] at below
      exact Or.inr ⟨here, by omega, entry, absent j (by omega)⟩

theorem after_logged {t : Nat} :
    (∃ j < (log.after sector).n, (log.after sector).sector j = t) ↔
      t = sector ∨ ∃ j < log.n, log.sector j = t := by
  have place := slotOf_le log sector
  have inside : log.slotOf sector < (log.after sector).n := by
    simp only [Log.after]
    split <;> omega
  constructor
  · rintro ⟨j, below, rfl⟩
    by_cases here : j = log.slotOf sector
    · exact Or.inl (by simp [Log.after, here])
    · refine Or.inr ⟨j, ?_, by simp [Log.after, here]⟩
      simp only [Log.after] at below
      split at below <;> omega
  · rintro (rfl | ⟨j, below, rfl⟩)
    · exact ⟨_, inside, by simp [Log.after]⟩
    · by_cases here : j = log.slotOf sector
      · rcases slotOf_cases log sector with ⟨-, same⟩ | ⟨new, -⟩
        · exact ⟨_, inside, by simp [Log.after, here, same]⟩
        · omega
      · refine ⟨j, ?_, by simp [Log.after, here]⟩
        simp only [Log.after]
        split <;> omega

section Logged
variable {sector : Nat} {data : Bytes} (inv : LogState start size s)
  (few : s.mem.log.n < logSize) (fits : (s.mem.log.n : Int) < size - 1)
include inv fits

theorem LogState.slotOf_region : logRegion start size (s.mem.log.slot (s.mem.log.slotOf sector)) := by
  have := slotOf_le s.mem.log sector
  exact inv.slot_region (by omega)

theorem LogState.logged_content {t : Nat} (outside : ¬ logRegion start size t) :
    (s.logged sector data).content t = update s.content sector data t := by
  have other : t ≠ s.mem.log.slot (s.mem.log.slotOf sector) := fun same =>
    outside (same ▸ inv.slotOf_region fits)
  by_cases here : t = sector
  · simp [Ideal.logged, here]
  · simp [Ideal.logged, here, other]

theorem LogState.logged_dirty : (s.logged sector data).dirty = insert sector s.dirty := by
  have absent : s.mem.log.slot (s.mem.log.slotOf sector) ∉ s.dirty := fun member =>
    inv.dirty_home member (inv.slotOf_region fits)
  simp [Ideal.logged, Finset.erase_eq_of_notMem absent]

include few

theorem LogState.logged (home : ¬ logRegion start size sector) (word : sector < 4294967296) :
    LogState start size (s.logged sector data) := by
  have place := slotOf_le s.mem.log sector
  have region := @LogState.slotOf_region _ _ _ _ sector inv fits
  have notStart := @slot_ne_start s.mem.log (s.mem.log.slotOf sector) (by omega)
  have entry := @after_entry s.mem.log sector
  have count : (s.mem.log.after sector).n ≤ s.mem.log.n + 1 := by
    simp only [Log.after]
    split <;> omega
  have slotNe : ∀ t, ¬ logRegion start size t → t ≠ s.mem.log.slot (s.mem.log.slotOf sector) :=
    fun t outside same => outside (same ▸ region)
  constructor
  case begins => exact inv.begins
  case length => exact inv.length
  case word => exact inv.word
  case few => exact Nat.le_trans count few
  case fits =>
    intro _
    have : ((s.logged sector data).mem.log.n : Int) ≤ s.mem.log.n + 1 := by exact_mod_cast count
    omega
  case distinct =>
    intro i left j right same
    rcases entry left inv.distinct with ⟨first, key⟩ | ⟨first, below, key, different⟩
    · rcases entry right inv.distinct with ⟨second, key'⟩ | ⟨second, below', key', different'⟩
      · rw [first, second]
      · exact absurd (key'.symm.trans (same.symm.trans key)) different'
    · rcases entry right inv.distinct with ⟨second, key'⟩ | ⟨second, below', key', different'⟩
      · exact absurd (key.symm.trans (same.trans key')) different
      · exact inv.distinct i below j below' (key.symm.trans (same.trans key'))
  case home =>
    intro i below
    change ¬ logRegion start size ((s.mem.log.after sector).sector i)
    rcases entry below inv.distinct with ⟨-, key⟩ | ⟨-, old, key, -⟩
    · rwa [key]
    · rw [key]
      exact inv.home i old
  case words =>
    intro i below
    change (s.mem.log.after sector).sector i < 4294967296
    rcases entry below inv.distinct with ⟨-, key⟩ | ⟨-, old, key, -⟩
    · rwa [key]
    · rw [key]
      exact inv.words i old
  case dirty =>
    intro t
    rw [inv.logged_dirty fits, Finset.mem_insert, inv.dirty]
    exact after_logged.symm
  case slots =>
    intro i below
    rcases entry below inv.distinct with ⟨here, key⟩ | ⟨other, old, key, different⟩
    · have left : (s.logged sector data).content (s.mem.log.slot i) = data := by
        rw [here]
        simp [Ideal.logged, (slotNe sector home).symm]
      refine left.trans ?_
      rw [show (s.logged sector data).mem.log.sector i = sector from key]
      simp [Ideal.logged]
    · have apart : s.mem.log.slot i ≠ s.mem.log.slot (s.mem.log.slotOf sector) := fun same =>
        other (slot_inj (by omega) (by omega) same)
      have inside := inv.slot_region (i := i) (by omega)
      have notSector : s.mem.log.slot i ≠ sector := fun same => home (same ▸ inside)
      have left : (s.logged sector data).content (s.mem.log.slot i) =
          s.content (s.mem.log.slot i) := by
        simp [Ideal.logged, notSector, apart]
      refine left.trans ((inv.slots i old).trans ?_)
      rw [show (s.logged sector data).mem.log.sector i = s.mem.log.sector i from key,
        inv.logged_content fits (inv.home i old), update_of_ne different]
  case clean =>
    intro t clean
    rw [inv.logged_dirty fits, Finset.mem_insert, not_or] at clean
    simp only [Ideal.logged]
    rw [update_of_ne clean.1]
    by_cases here : t = s.mem.log.slot (s.mem.log.slotOf sector)
    · rw [here, update_self, update_self]
    · rw [update_of_ne here, update_of_ne here, inv.clean t clean.2]
  case header =>
    have same : (s.logged sector data).disk start = s.disk start := by
      apply update_of_ne
      rw [← inv.begins]
      exact notStart.symm
    rw [same]
    exact inv.header
  case outside => exact inv.outside

end Logged

/-! ## Commit -/

/-- The writes of `commit_trans`: the header, the installs, the cleared header. -/
def commitWrites (log : Log) (content : Nat → Bytes) : List (Nat × Bytes) :=
  (log.start, headerInto (content log.start) log) :: (installs log content log.n 0 ++
    [(log.start, headerInto (headerInto (content log.start) log) { log with n := 0 })])

/-- The state after `commit_trans`. -/
def Ideal.committed (s : Ideal (LogMem μ)) : Ideal (LogMem μ) :=
  (s.withLog { s.mem.log with n := 0, busy := false }).stored (commitWrites s.mem.log s.content)

theorem mem_installs {content : Nat → Bytes} {w : Nat × Bytes} :
    w ∈ installs log content log.n 0 ↔ ∃ i < log.n, w = (log.sector i, content (log.slot i)) := by
  simp [installs, List.mem_range'_1, eq_comm]

section Commit
variable (inv : LogState start size s)
include inv

section
variable (logged : s.mem.log.n ≠ 0)
include logged

theorem LogState.start_region : logRegion start size start := by
  have := inv.fits logged
  exact logRegion_start inv.word (by omega)

theorem LogState.slot_inside {i : Nat} (below : i < s.mem.log.n) :
    logRegion start size (s.mem.log.slot i) := by
  have := inv.fits logged
  exact inv.slot_region (by omega)

theorem run_commitTrans (idle : s.held = ∅) (few : s.mem.log.n < nBuf) :
    (idealMachine forbidden).run commitTrans s =
      .ok () s.committed := by
  have inside := inv.start_region logged
  have sectorNe : ∀ i < s.mem.log.n, ∀ t, logRegion start size t → s.mem.log.sector i ≠ t :=
    fun i below t region same => inv.home i below (same ▸ region)
  have card := inv.dirty_card
  have clean : s.mem.log.start ∉ s.dirty := by
    rw [inv.begins]
    exact fun member => inv.dirty_home member inside
  let H := headerInto (s.content s.mem.log.start) s.mem.log
  let next := s.stored [(s.mem.log.start, H)]
  have dirty : next.dirty = s.dirty := by
    simp [next, Ideal.stored, Finset.sdiff_singleton_eq_erase, Finset.erase_eq_of_notMem clean]
  have head := @run_writeHead μ forbidden s (by simp [idle])
    (Or.inr (by simpa [Ideal.room, idle, card] using few))
  have slotNe : ∀ i < s.mem.log.n, s.mem.log.slot i ≠ s.mem.log.start := fun i below =>
    slot_ne_start (Nat.lt_of_lt_of_le below inv.few)
  have writes : installs s.mem.log next.content s.mem.log.n 0 =
      installs s.mem.log s.content s.mem.log.n 0 := by
    apply List.map_congr_left
    intro i member
    rw [List.mem_range'_1] at member
    have same : next.content (s.mem.log.slot i) = s.content (s.mem.log.slot i) :=
      update_of_ne (slotNe i (by omega)) _ _
    rw [same]
  have finish := @run_finish μ forbidden next idle (by rw [dirty, card]; exact few) inv.few
    (fun i below j other => sectorNe i below _ (inv.slot_inside logged other))
    (fun i below => by
      rw [dirty]
      exact fun member => inv.dirty_home member (inv.slot_inside logged below))
    (Or.inr ⟨fun i below => by rw [dirty]; exact (inv.dirty _).mpr ⟨i, below, rfl⟩, inv.distinct⟩)
    (fun i below => sectorNe i below _ (by
      rw [show next.mem.log.start = start from inv.begins]
      exact inside))
  have stored : next.content s.mem.log.start = H := update_self _ _ _
  have log : next.mem.log = s.mem.log := rfl
  rw [log, writes, stored] at finish
  have shape : (do
      writeHead
      installTrans
      clearLog
      writeHead
      let log ← getLog
      setLog { log with busy := false } : BufProg μ Unit) = (do
      writeHead
      (do
        installTrans
        clearLog
        writeHead)
      let log ← getLog
      setLog { log with busy := false }) := by
    simp only [bind_assoc]
  unfold commitTrans
  rw [Machine.run_bind_ok (run_getLog s), if_pos (Nat.pos_of_ne_zero logged), shape,
    Machine.run_bind_ok head, Machine.run_bind_ok finish, Machine.run_bind_ok (run_getLog _),
    run_setLog, withLog_stored, withLog_withLog, withLog_stored, stored_append]
  rfl

theorem run_commitTrans_full (idle : s.held = ∅) (full : nBuf ≤ s.mem.log.n) :
    (idealMachine forbidden).run commitTrans s = .stop (.panic .noBuffers) s := by
  have clean : s.mem.log.start ∉ s.dirty := by
    rw [inv.begins]
    exact fun member => inv.dirty_home member (inv.start_region logged)
  have read : (idealMachine forbidden).run (bufRead s.mem.log.start) s =
      .stop (.panic .noBuffers) s := by
    rw [run_bufRead, idealRead, if_neg (by simp [idle]), if_pos]
    exact ⟨clean, by simpa [idle, inv.dirty_card] using full⟩
  have head : (idealMachine forbidden).run writeHead s = .stop (.panic .noBuffers) s := by
    unfold writeHead
    rw [Machine.run_bind_ok (run_getLog s), Machine.run_bind_stop read]
  unfold commitTrans
  rw [Machine.run_bind_ok (run_getLog s), if_pos (Nat.pos_of_ne_zero logged),
    Machine.run_bind_stop head]

end

theorem LogState.commit_written {t : Nat} (dirty : t ∈ s.dirty) :
    ∃ w ∈ commitWrites s.mem.log s.content, w.1 = t := by
  obtain ⟨i, below, key⟩ := (inv.dirty t).mp dirty
  refine ⟨(s.mem.log.sector i, s.content (s.mem.log.slot i)), ?_, key⟩
  simp only [commitWrites, List.mem_cons, List.mem_append, mem_installs]
  exact Or.inr (Or.inl ⟨i, below, rfl⟩)

/-- A home sector has its contents on disk once all writes of a commit are done. -/
theorem LogState.commit_home (logged : s.mem.log.n ≠ 0) {d : Nat → Bytes} {t : Nat}
    (outside : ¬ logRegion start size t)
    (same : t ∉ s.dirty → d t = s.content t) :
    applyWrites d (commitWrites s.mem.log s.content) t = s.content t := by
  have notStart : s.mem.log.start ≠ t := by
    rw [inv.begins]
    rintro rfl
    exact outside (inv.start_region logged)
  have values : ∀ w ∈ commitWrites s.mem.log s.content, w.1 = t → w.2 = s.content t := by
    intro w member key
    simp only [commitWrites, List.mem_cons, List.mem_append, List.not_mem_nil, or_false,
      mem_installs] at member
    rcases member with rfl | ⟨i, below, rfl⟩ | rfl
    · exact absurd key notStart
    · exact (inv.slots i below).trans (congrArg _ key)
    · exact absurd key notStart
  obtain ⟨written, either⟩ := @applyWrites_value _ _ _ d _ t _ values
  by_cases dirty : t ∈ s.dirty
  · exact written (inv.commit_written dirty)
  · rcases either with kept | value
    · rw [kept, same dirty]
    · exact value

theorem LogState.committed_dirty : s.committed.dirty = ∅ := by
  apply Finset.sdiff_eq_empty_iff_subset.mpr
  intro t member
  rw [List.mem_toFinset, List.mem_map]
  exact inv.commit_written member

theorem LogState.committed_header : (s.committed.disk start).get 0 4 = 0 := by
  have last : s.committed.disk start =
      headerInto (headerInto (s.content s.mem.log.start) s.mem.log) { s.mem.log with n := 0 } := by
    simp only [Ideal.committed, Ideal.stored, commitWrites, ← List.cons_append, applyWrites_concat]
    rw [← inv.begins, update_self]
  rw [last]
  exact headerInto_n (Nat.zero_le _)

theorem LogState.committed (idle : s.held = ∅) : LogState start size s.committed := by
  refine .of_empty inv.begins inv.length inv.word rfl inv.committed_dirty (fun t => ?_)
    inv.committed_header idle
  apply applyWrites_congr
  by_cases dirty : t ∈ s.dirty
  · exact Or.inl (inv.commit_written dirty)
  · exact Or.inr (inv.clean t dirty)

end Commit

end LogState

end Runs

end OsAudio.Fs

import OsAudio.Fs.LogRun

/-!
# Crash atomicity of the log

A transaction reads sectors, changes and logs them, and commits.  The machine may stop
after any of the sector writes this issues, and again during each recovery.  On disk
there are two kinds of states to recover from: a clear header (`Clear`), and a full header
with some of the logged sectors installed (`Pending`).  Every write of a commit and of a
recovery keeps the disk in one of the two, and recovery always ends in the first.
-/
namespace OsAudio.Fs
open OsAudio.Lib
open Function (update update_self update_of_ne update_eq_self)

/-! ## Disks to recover from -/

/-- The header is clear and the home sectors are those of `image`. -/
structure Clear (start : Nat) (size : Int) (image disk : Nat → Bytes) : Prop where
  header : (disk start).get 0 4 = 0
  home : ∀ t, ¬ logRegion start size t → disk t = image t

/-- The entry `i` of a header block. -/
def headerSector (header : Bytes) (i : Nat) : Nat := header.get (4 + 4 * i) 4

/-- The header and the slots hold a transaction from `pre` to `post`; some of its sectors
may be installed. -/
structure Pending (start : Nat) (size : Int) (pre post disk : Nat → Bytes) : Prop where
  word : start < 4294967296
  logged : (disk start).get 0 4 ≠ 0
  few : (disk start).get 0 4 ≤ logSize
  fits : ((disk start).get 0 4 : Int) ≤ size - 1
  home : ∀ i < (disk start).get 0 4, ¬ logRegion start size (headerSector (disk start) i)
  slots : ∀ i < (disk start).get 0 4,
    disk ((start + i + 1) % 4294967296) = post (headerSector (disk start) i)
  progress : ∀ t, ¬ logRegion start size t →
    disk t = post t ∨ (disk t = pre t ∧ ∃ i < (disk start).get 0 4, headerSector (disk start) i = t)

/-- The log record in memory has the contents of the header on disk. -/
structure HasHeader (start : Nat) (disk : Nat → Bytes) (log : Log) : Prop where
  begins : log.start = start
  n : log.n = (disk start).get 0 4
  sector : ∀ i < log.n, log.sector i = headerSector (disk start) i

section Pending
variable {start : Nat} {size : Int} {pre post disk : Nat → Bytes} {log : Log}
  (pending : Pending start size pre post disk)
include pending

theorem Pending.start_region : logRegion start size start := by
  have := pending.fits
  have := pending.logged
  exact logRegion_start pending.word (by omega)

theorem Pending.slot_region {i : Nat} (below : i < (disk start).get 0 4) :
    logRegion start size ((start + i + 1) % 4294967296) := by
  have := pending.fits
  exact ⟨i + 1, by omega, by rw [Nat.add_assoc]⟩

variable (read : HasHeader start disk log)
include read

theorem Pending.recoverable : Recoverable log := by
  have home : ∀ i < log.n, ¬ logRegion start size (log.sector i) := by
    intro i below
    rw [read.sector i below]
    exact pending.home i (read.n ▸ below)
  refine ⟨read.n ▸ pending.few, fun i below j other same => home i below ?_,
    fun i below same => home i below ?_⟩
  · rw [same, Log.slot, read.begins]
    exact pending.slot_region (read.n ▸ other)
  · rw [same, read.begins]
    exact pending.start_region

/-- Each install writes the new contents of a logged sector. -/
theorem Pending.installs_value {w : Nat × Bytes} (member : w ∈ installs log disk log.n 0) :
    ∃ i < (disk start).get 0 4, w = (headerSector (disk start) i, post (headerSector (disk start) i)) := by
  obtain ⟨i, below, rfl⟩ := mem_installs.mp member
  have inside : i < (disk start).get 0 4 := read.n ▸ below
  refine ⟨i, inside, ?_⟩
  rw [read.sector i below, ← pending.slots i inside, Log.slot, read.begins]

/-- After any number of installs the disk is as good as before. -/
theorem Pending.installed (k : Nat) :
    Pending start size pre post (applyWrites disk ((installs log disk log.n 0).take k)) := by
  have value : ∀ w ∈ (installs log disk log.n 0).take k,
      ∃ i < (disk start).get 0 4, w = (headerSector (disk start) i, post (headerSector (disk start) i)) :=
    fun w member => pending.installs_value read (List.mem_of_mem_take member)
  have region : ∀ t, logRegion start size t →
      applyWrites disk ((installs log disk log.n 0).take k) t = disk t := by
    intro t inside
    apply applyWrites_other
    intro w member same
    obtain ⟨i, below, rfl⟩ := value w member
    change headerSector (disk start) i = t at same
    exact pending.home i below (same ▸ inside)
  have header := region start pending.start_region
  refine ⟨pending.word, ?_, ?_, ?_, ?_, ?_, ?_⟩ <;> rw [header]
  · exact pending.logged
  · exact pending.few
  · exact pending.fits
  · exact pending.home
  · intro i below
    rw [region _ (pending.slot_region below)]
    exact pending.slots i below
  · intro t outside
    have values : ∀ w ∈ (installs log disk log.n 0).take k, w.1 = t → w.2 = post t := by
      intro w member same
      obtain ⟨i, below, rfl⟩ := value w member
      exact congrArg post same
    rcases (applyWrites_value (d := disk) values).2 with kept | new
    · rw [kept]
      exact pending.progress t outside
    · exact Or.inl new

/-- The writes that finish a commit or a recovery, cut off after `k`. -/
theorem Pending.finish (k : Nat) :
    (k ≤ log.n → Pending start size pre post (applyWrites disk ((recoveryWrites log disk).take k))) ∧
    (log.n < k → Clear start size post (applyWrites disk ((recoveryWrites log disk).take k))) := by
  have count : (installs log disk log.n 0).length = log.n := by simp [installs]
  refine ⟨fun before => ?_, fun after => ?_⟩
  · rw [recoveryWrites, List.take_append_of_le_length (by omega)]
    exact pending.installed read k
  · rw [recoveryWrites, List.take_of_length_le (by simp [count]; omega), applyWrites_concat, read.begins]
    have every : (installs log disk log.n 0).take log.n = installs log disk log.n 0 :=
      List.take_of_length_le (by omega)
    have done := pending.installed read log.n
    rw [every] at done
    refine ⟨?_, fun t outside => ?_⟩
    · rw [update_self]
      exact headerInto_n (Nat.zero_le _)
    · have notStart : t ≠ start := fun same => outside (same ▸ pending.start_region)
      rw [update_of_ne notStart]
      have values : ∀ w ∈ installs log disk log.n 0, w.1 = t → w.2 = post t := by
        intro w member same
        obtain ⟨i, below, rfl⟩ := pending.installs_value read member
        exact congrArg post same
      obtain ⟨written, either⟩ := applyWrites_value (d := disk) values
      rcases pending.progress t outside with new | ⟨-, i, below, key⟩
      · rcases either with kept | new'
        · exact kept.trans new
        · exact new'
      · apply written
        refine ⟨(log.sector i, disk (log.slot i)), mem_installs.mpr ⟨i, read.n ▸ below, rfl⟩, ?_⟩
        exact (read.sector i (read.n ▸ below)).trans key

end Pending

/-! ## Recovery -/

/-- The log as it stands on disk. -/
def diskLog (disk : Nat → Bytes) : Log :=
  let log := bootLog.placed (superblockOf (disk 1))
  log.withHeader (disk log.start)

/-- The super block places the log at `start`. -/
def Placed (start : Nat) (size : Int) (disk : Nat → Bytes) : Prop :=
  (diskLog disk).start = start ∧ (diskLog disk).size = size

section Recovery
variable {μ : Type} {forbidden : Mark → Bool} {start : Nat} {size : Int}
  {pre post disk : Nat → Bytes}

theorem hasHeader_diskLog (placed : Placed start size disk) (few : (disk start).get 0 4 ≤ logSize) :
    HasHeader start disk (diskLog disk) := by
  obtain ⟨begins, -⟩ := placed
  unfold diskLog at begins ⊢
  generalize bootLog.placed (superblockOf (disk 1)) = log at begins ⊢
  change log.start = start at begins
  subst begins
  refine ⟨rfl, rfl, fun i below => ?_⟩
  simp only [Log.withHeader] at below ⊢
  rw [rounds_small few, if_pos below, headerSector]

theorem run_boot (rest : μ) (good : Recoverable (diskLog disk)) :
    ∃ t u, (bufMachine forbidden).run logInit (powerOn rest disk) = .ok () t ∧ Caches t u ∧
      u = (Ideal.mk disk disk [] ∅ ∅ ⟨{ diskLog disk with n := 0 }, rest⟩).stored
        (recoveryWrites (diskLog disk) disk) := by
  have ideal := @run_logInit μ forbidden ⟨disk, disk, [], ∅, ∅, ⟨bootLog, rest⟩⟩ _ rfl rfl rfl good
  obtain ⟨t, run, caches⟩ := (bufMachine_refines forbidden).returns (fun _ _ same => same)
    (caches_init disk [] (⟨bootLog, rest⟩ : LogMem μ)) ideal
  exact ⟨t, _, run, caches, rfl⟩

theorem Clear.recoverable (clear : Clear start size pre disk) (placed : Placed start size disk) :
    Recoverable (diskLog disk) ∧ recoveryWrites (diskLog disk) disk = [(start, disk start)] := by
  have read := hasHeader_diskLog placed (by rw [clear.header]; exact Nat.zero_le _)
  have none : (diskLog disk).n = 0 := read.n.trans clear.header
  refine ⟨⟨by omega, fun i below => by omega, fun i below => by omega⟩, ?_⟩
  rw [recoveryWrites, none, read.begins, headerInto_clear clear.header rfl]
  rfl

/-- Recovery of a disk with a clear header, cut off anywhere, changes nothing. -/
theorem Clear.recovery (clear : Clear start size pre disk) (placed : Placed start size disk)
    (k : Nat) : applyWrites disk ((recoveryWrites (diskLog disk) disk).take k) = disk := by
  rw [(clear.recoverable placed).2]
  cases k with
  | zero => rfl
  | succ k =>
    rw [List.take_of_length_le (by simp)]
    exact update_eq_self start disk

/-- The disks that recovery may find between the images `pre` and `post`. -/
def Consistent (start : Nat) (size : Int) (pre post disk : Nat → Bytes) : Prop :=
  Clear start size pre disk ∨ Clear start size post disk ∨ Pending start size pre post disk

section
variable (consistent : Consistent start size pre post disk) (placed : Placed start size disk)
include consistent placed

theorem Consistent.recoverable : Recoverable (diskLog disk) := by
  rcases consistent with clear | clear | pending
  · exact (clear.recoverable placed).1
  · exact (clear.recoverable placed).1
  · exact pending.recoverable (hasHeader_diskLog placed pending.few)

/-- The disk that recovery leaves if it stops after `k` writes. -/
theorem Consistent.recovery (k : Nat) :
    Consistent start size pre post
      (applyWrites disk ((recoveryWrites (diskLog disk) disk).take k)) := by
  rcases consistent with clear | clear | pending
  · exact Or.inl (by rwa [clear.recovery placed])
  · exact Or.inr (Or.inl (by rwa [clear.recovery placed]))
  · have finish := pending.finish (hasHeader_diskLog placed pending.few) k
    by_cases before : k ≤ (diskLog disk).n
    · exact Or.inr (Or.inr (finish.1 before))
    · exact Or.inr (Or.inl (finish.2 (by omega)))

/-- The disk that a completed recovery leaves. -/
theorem Consistent.recovered :
    Clear start size pre (applyWrites disk (recoveryWrites (diskLog disk) disk)) ∨
    Clear start size post (applyWrites disk (recoveryWrites (diskLog disk) disk)) := by
  have all := List.take_length (l := recoveryWrites (diskLog disk) disk)
  rw [← all]
  rcases consistent with clear | clear | pending
  · exact Or.inl (by rwa [clear.recovery placed])
  · exact Or.inr (by rwa [clear.recovery placed])
  · have finish := pending.finish (hasHeader_diskLog placed pending.few)
      (recoveryWrites (diskLog disk) disk).length
    exact Or.inr (finish.2 (by simp [recoveryWrites, installs]))

end

end Recovery

/-! ## Transactions -/

/-- The steps of a transaction: the sector to change, and how its contents change. -/
abbrev Steps := List (Nat × (Bytes → Bytes))

section Transaction
variable {μ : Type} {forbidden : Mark → Bool}

def txnStep (sector : Nat) (change : Bytes → Bytes) : BufProg μ Unit := do
  let data ← bufRead sector
  logWrite sector (change data)
  bufRelease sector

def txnSteps : Steps → BufProg μ Unit
  | [] => pure ()
  | step :: steps => do
    txnStep step.1 step.2
    txnSteps steps

def transaction (steps : Steps) : BufProg μ Unit := do
  beginTrans
  txnSteps steps
  commitTrans

/-- The contents of all sectors after the steps. -/
def applySteps (image : Nat → Bytes) : Steps → Nat → Bytes
  | [] => image
  | step :: steps => applySteps (update image step.1 (step.2 (image step.1))) steps

variable {start : Nat} {size : Int} {origin s : Ideal (LogMem μ)} {image : Nat → Bytes}

/-- From `origin` to `s` sectors were written to slots of the log only. -/
def OnlySlots (start : Nat) (size : Int) (origin s : Ideal (LogMem μ)) : Prop :=
  ∃ ws, s.issued = origin.issued ++ ws ∧ s.disk = applyWrites origin.disk ws ∧
    ∀ w ∈ ws, logRegion start size w.1 ∧ w.1 ≠ start

/-- The state inside a transaction that began in `origin` and should by now have brought
the home sectors to `image`. -/
structure InTransaction (start : Nat) (size : Int) (origin : Ideal (LogMem μ))
    (image : Nat → Bytes) (s : Ideal (LogMem μ)) : Prop where
  log : LogState start size s
  busy : s.mem.log.busy = true
  idle : s.held = ∅
  content : ∀ t, ¬ logRegion start size t → s.content t = image t
  slots : OnlySlots start size origin s

theorem txnStep_keeps (inside : InTransaction start size origin image s) {sector : Nat}
    {change : Bytes → Bytes} (home : ¬ logRegion start size sector) (word : sector < 4294967296) :
    (idealMachine forbidden).Wp (txnStep sector change) s
      (fun _ t => InTransaction start size origin
        (update image sector (change (image sector))) t)
      (fun w t => w ≠ .beyond ∧ OnlySlots start size origin t) := by
  have inv := inside.log
  have free : sector ∉ s.held := by simp [inside.idle]
  unfold Machine.Wp txnStep
  by_cases room : sector ∈ s.dirty ∨ s.room
  · rw [Machine.run_bind_ok ((run_bufRead s _).trans (idealRead_ok free room)),
      inside.content sector home]
    by_cases big : s.mem.log.n ≥ logSize ∨ (s.mem.log.n : Int) ≥ s.mem.log.size - 1
    · rw [Machine.run_bind_stop (run_logWrite_tooBig (s := s.hold sector) big)]
      exact ⟨nofun, inside.slots⟩
    have few : s.mem.log.n < logSize := by omega
    have fits : (s.mem.log.n : Int) < size - 1 := by
      rw [← inv.length]
      omega
    have held := inv.hold home
    by_cases slot : (s.hold sector).room
    · have wrote := @run_logWrite _ forbidden _ _ _ held _ (change (image sector)) inside.busy
        few fits (Finset.mem_insert_self _ _) slot
      rw [Machine.run_bind_ok wrote, logged_hold, run_bufRelease,
        release_read (s := s.logged sector (change (image sector))) free]
      obtain ⟨ws, issued, disk, slots⟩ := inside.slots
      refine ⟨inv.logged few fits home word, inside.busy, inside.idle, ?_, ?_⟩
      · intro t outside
        refine (inv.logged_content fits outside).trans ?_
        by_cases here : t = sector
        · rw [here, update_self, update_self]
        · rw [update_of_ne here, update_of_ne here]
          exact inside.content t outside
      · refine ⟨ws ++ [(s.mem.log.slot (s.mem.log.slotOf sector), change (image sector))], ?_, ?_, ?_⟩
        · rw [← List.append_assoc, ← issued]
          rfl
        · rw [applyWrites_concat, ← disk]
          rfl
        · intro w member
          rcases List.mem_append.mp member with old | new
          · exact slots w old
          · obtain rfl := List.mem_singleton.mp new
            have place := slotOf_le s.mem.log sector
            refine ⟨inv.slotOf_region fits, ?_⟩
            rw [← inv.begins]
            exact slot_ne_start (by omega)
    · obtain ⟨log, stopped⟩ := @run_logWrite_full _ forbidden _ _ _ held sector
        (change (image sector)) inside.busy few fits slot
      rw [Machine.run_bind_stop stopped]
      exact ⟨nofun, inside.slots⟩
  · have stopped : (idealMachine forbidden).run (bufRead sector) s = .stop (.panic .noBuffers) s := by
      rw [not_or] at room
      rw [run_bufRead, idealRead, if_neg free, if_pos ⟨room.1, Nat.not_lt.mp room.2⟩]
    rw [Machine.run_bind_stop stopped]
    exact ⟨nofun, inside.slots⟩

theorem txnSteps_keep {steps : Steps} (home : ∀ step ∈ steps, ¬ logRegion start size step.1)
    (words : ∀ step ∈ steps, step.1 < 4294967296)
    (inside : InTransaction start size origin image s) :
    (idealMachine forbidden).Wp (txnSteps steps) s
      (fun _ t => InTransaction start size origin (applySteps image steps) t)
      (fun w t => w ≠ .beyond ∧ OnlySlots start size origin t) := by
  induction steps generalizing s image with
  | nil => exact inside
  | cons step steps ih =>
    refine .bind (txnStep_keeps inside (home step (by simp)) (words step (by simp))) ?_
    intro _ t next
    exact ih (fun other member => home other (by simp [member]))
      (fun other member => words other (by simp [member])) next

/-- A state between two transactions. -/
structure AtRest (start : Nat) (size : Int) (s : Ideal (LogMem μ)) : Prop where
  log : LogState start size s
  idle : s.held = ∅
  free : s.mem.log.busy = false
  empty : s.mem.log.n = 0

theorem LogState.saved (log : LogState start size s) (empty : s.mem.log.n = 0) : s.content = s.disk := by
  funext t
  apply log.clean
  rw [log.dirty]
  rintro ⟨i, below, -⟩
  rw [empty] at below
  exact Nat.not_lt_zero i below

theorem AtRest.saved (rest : AtRest start size s) : s.content = s.disk := rest.log.saved rest.empty

section Ends
variable {steps : Steps} (rest : AtRest start size s)
  (home : ∀ step ∈ steps, ¬ logRegion start size step.1) (words : ∀ step ∈ steps, step.1 < 4294967296)
include rest home words

/-- How a transaction ends: it stops having written slots only, it has nothing to commit,
or it commits all its steps. -/
theorem transaction_run :
    (∃ w t, (idealMachine forbidden).run (transaction steps) s = .stop w t ∧ w ≠ .beyond ∧
      OnlySlots start size s t) ∨
    ∃ t u, (idealMachine forbidden).run (transaction steps) s = .ok () u ∧
      InTransaction start size s (applySteps s.content steps) t ∧
      ((t.mem.log.n = 0 ∧ u = t.withLog { t.mem.log with busy := false }) ∨
        (t.mem.log.n ≠ 0 ∧ u = t.committed)) := by
  have begun : (idealMachine forbidden).run beginTrans s =
      .ok () (s.withLog { s.mem.log with busy := true }) := by
    unfold beginTrans
    rw [Machine.run_bind_ok (run_getLog s), rest.free]
    rfl
  have inside : InTransaction start size s s.content (s.withLog { s.mem.log with busy := true }) :=
    ⟨{ rest.log with }, rfl, rest.idle, fun _ _ => rfl, [], by simp [Ideal.withLog], rfl, by simp⟩
  have steps' := @txnSteps_keep _ forbidden _ _ _ _ _ _ home words inside
  unfold transaction
  rw [Machine.run_bind_ok begun]
  unfold Machine.Wp at steps'
  cases outcome : (idealMachine forbidden).run (txnSteps steps)
      (s.withLog { s.mem.log with busy := true }) with
  | stop w t =>
    rw [outcome] at steps'
    exact Or.inl ⟨w, t, Machine.run_bind_stop outcome, steps'⟩
  | ok _ t =>
    rw [outcome] at steps'
    rw [Machine.run_bind_ok outcome]
    by_cases none : t.mem.log.n = 0
    · refine Or.inr ⟨t, _, ?_, steps', Or.inl ⟨none, rfl⟩⟩
      unfold commitTrans
      rw [Machine.run_bind_ok (run_getLog t), if_neg (by omega)]
      rfl
    · by_cases few : t.mem.log.n < nBuf
      · exact Or.inr ⟨t, _, run_commitTrans steps'.log none steps'.idle few, steps', Or.inr ⟨none, rfl⟩⟩
      · have stopped := @run_commitTrans_full _ forbidden _ _ _ steps'.log none steps'.idle
          (Nat.not_lt.mp few)
        exact Or.inl ⟨_, t, stopped, by simp, steps'.slots⟩

theorem transaction_answers :
    ((idealMachine forbidden).run (transaction steps) s).reason ≠ some .beyond := by
  rcases @transaction_run μ forbidden start size s steps rest home words with
    ⟨w, t, stopped, answers, -⟩ | ⟨t, u, done, -⟩
  · rw [stopped]
    exact fun beyond => answers (Option.some.inj beyond)
  · rw [done]
    nofun

/-- A transaction that returns leaves its result on disk and is ready for the next one. -/
theorem transaction_done {u : Ideal (LogMem μ)}
    (done : (idealMachine forbidden).run (transaction steps) s = .ok () u) :
    AtRest start size u ∧
    ∀ x, ¬ logRegion start size x → u.disk x = applySteps s.disk steps x := by
  rcases @transaction_run μ forbidden start size s steps rest home words with
    ⟨w, t, stopped, -⟩ | ⟨t, v, done', inside, ends⟩
  · rw [stopped] at done
    cases done
  · rw [done'] at done
    cases done
    rcases ends with ⟨none, rfl⟩ | ⟨logged, rfl⟩
    · refine ⟨⟨{ inside.log with }, inside.idle, rfl, none⟩, fun x outside => ?_⟩
      rw [← rest.saved, ← inside.content x outside, inside.log.saved none]
      rfl
    · refine ⟨⟨inside.log.committed inside.idle, inside.idle, rfl, rfl⟩, fun x outside => ?_⟩
      rw [← rest.saved, ← inside.content x outside]
      exact inside.log.commit_home logged outside fun clean => (inside.log.clean x clean).symm

end Ends

/-! ## Cutting a transaction off -/

theorem clear_of_slots {disk : Nat → Bytes} {ws : List (Nat × Bytes)}
    (header : (disk start).get 0 4 = 0) (slots : ∀ w ∈ ws, logRegion start size w.1 ∧ w.1 ≠ start) :
    Clear start size disk (applyWrites disk ws) := by
  refine ⟨?_, fun t outside => ?_⟩
  · rw [applyWrites_other fun w member => (slots w member).2]
    exact header
  · apply applyWrites_other
    rintro w member rfl
    exact outside (slots w member).1

/-- Writing the header makes the transaction pending, and what `commit_trans` then writes
is what a recovery would write. -/
theorem InTransaction.commit {post : Nat → Bytes} {t : Ideal (LogMem μ)}
    (inside : InTransaction start size origin post t) (logged : t.mem.log.n ≠ 0) :
    ∃ disk H, disk = update t.disk start H ∧
      Pending start size origin.disk post disk ∧ HasHeader start disk t.mem.log ∧
      commitWrites t.mem.log t.content = (start, H) :: recoveryWrites t.mem.log disk := by
  have inv := inside.log
  let H := headerInto (t.content t.mem.log.start) t.mem.log
  let disk := update t.disk start H
  have startIn := inv.start_region logged
  have stored : disk start = H := update_self _ _ _
  have n : H.get 0 4 = t.mem.log.n := headerInto_n inv.few
  have sector : ∀ i < t.mem.log.n, headerSector H i = t.mem.log.sector i := fun i below =>
    headerInto_sector inv.few below (inv.words i below)
  have slot : ∀ i < t.mem.log.n, disk (t.mem.log.slot i) = t.content (t.mem.log.slot i) := by
    intro i below
    have notStart : t.mem.log.slot i ≠ start := by
      rw [← inv.begins]
      exact slot_ne_start (Nat.lt_of_lt_of_le below inv.few)
    have clean : t.mem.log.slot i ∉ t.dirty := fun member =>
      inv.dirty_home member (inv.slot_inside logged below)
    rw [show disk (t.mem.log.slot i) = t.disk (t.mem.log.slot i) from
      update_of_ne notStart _ _, inv.clean _ clean]
  have slotEq : ∀ i, t.mem.log.slot i = (start + i + 1) % 4294967296 := by
    intro i
    rw [Log.slot, inv.begins]
  refine ⟨disk, H, rfl, ?_, ⟨inv.begins, ?_, ?_⟩, ?_⟩
  · obtain ⟨ws, -, written, slots⟩ := inside.slots
    refine ⟨inv.word, ?_, ?_, ?_, ?_, ?_, ?_⟩ <;> rw [stored, n]
    · exact logged
    · exact inv.few
    · exact inv.fits logged
    · intro i below
      rw [sector i below]
      exact inv.home i below
    · intro i below
      rw [sector i below, ← slotEq, slot i below, inv.slots i below]
      exact inside.content _ (inv.home i below)
    · intro x outside
      have notStart : x ≠ start := fun same => outside (same ▸ startIn)
      have kept : disk x = origin.disk x := by
        rw [show disk x = t.disk x from update_of_ne notStart _ _, written]
        apply applyWrites_other
        rintro w member rfl
        exact outside (slots w member).1
      by_cases dirty : x ∈ t.dirty
      · obtain ⟨i, below, key⟩ := (inv.dirty x).mp dirty
        exact Or.inr ⟨kept, i, below, (sector i below).trans key⟩
      · left
        rw [show disk x = t.disk x from update_of_ne notStart _ _, ← inv.clean x dirty]
        exact inside.content x outside
  · rw [stored, n]
  · intro i below
    rw [stored, sector i below]
  · have same : installs t.mem.log disk t.mem.log.n 0 =
        installs t.mem.log t.content t.mem.log.n 0 := by
      apply List.map_congr_left
      intro i member
      rw [List.mem_range'_1] at member
      rw [slot i (by omega)]
    rw [recoveryWrites, same, inv.begins, stored, commitWrites]
    simp only [H, inv.begins]

/-- The disk after the first `k` writes of a transaction. -/
theorem transaction_cut {steps : Steps} {outcome : Outcome Stop (Ideal (LogMem μ)) Unit}
    (rest : AtRest start size s) (home : ∀ step ∈ steps, ¬ logRegion start size step.1)
    (words : ∀ step ∈ steps, step.1 < 4294967296)
    (runs : (idealMachine forbidden).run (transaction steps) s = outcome) (k : Nat) :
    Consistent start size s.disk (applySteps s.disk steps)
      (applyWrites s.disk ((outcome.state.issued.drop s.issued.length).take k)) ∧
    (outcome.result = some () → (outcome.state.issued.drop s.issued.length).length ≤ k →
      Clear start size (applySteps s.disk steps)
        (applyWrites s.disk ((outcome.state.issued.drop s.issued.length).take k))) := by
  have saved := rest.saved
  have cut : ∀ ws : List (Nat × Bytes), (∀ w ∈ ws, logRegion start size w.1 ∧ w.1 ≠ start) →
      Clear start size s.disk (applyWrites s.disk (ws.take k)) := fun ws slots =>
    clear_of_slots rest.log.header fun w member => slots w (List.mem_of_mem_take member)
  rcases @transaction_run μ forbidden start size s steps rest home words with
    ⟨w, t, stopped, -, ws, issued, -, slots⟩ | ⟨t, u, done, inside, ⟨none, rfl⟩ | ⟨logged, rfl⟩⟩
  · rw [stopped] at runs
    subst runs
    simp only [Outcome.state, issued, List.drop_left]
    exact ⟨Or.inl (cut ws slots), by rintro ⟨⟩⟩
  · obtain ⟨ws, issued, disk, slots⟩ := inside.slots
    have same : ∀ x, ¬ logRegion start size x → s.disk x = applySteps s.disk steps x := by
      intro x outside
      rw [← saved, ← inside.content x outside, inside.log.saved none, disk, saved]
      exact ((clear_of_slots rest.log.header slots).home x outside).symm
    have clear := cut ws slots
    rw [done] at runs
    subst runs
    simp only [Outcome.state, Ideal.withLog, issued, List.drop_left]
    refine ⟨Or.inl clear, fun _ _ => ⟨clear.header, fun x outside => ?_⟩⟩
    rw [clear.home x outside, same x outside]
  · obtain ⟨ws, issued, written, slots⟩ := inside.slots
    obtain ⟨disk, H, stored, pending, header, writes⟩ := inside.commit logged
    rw [saved] at pending
    rw [done] at runs
    subst runs
    have all : t.committed.issued = s.issued ++ (ws ++ (start, H) :: recoveryWrites t.mem.log disk) := by
      rw [show t.committed.issued = t.issued ++ commitWrites t.mem.log t.content from rfl, issued,
        writes, List.append_assoc]
    simp only [Outcome.state, all, List.drop_left]
    by_cases before : k ≤ ws.length
    · rw [List.take_append_of_le_length before]
      refine ⟨Or.inl (cut ws slots), fun _ long => ?_⟩
      simp only [List.length_append, List.length_cons] at long
      omega
    · obtain ⟨j, rfl⟩ : ∃ j, k = ws.length + (j + 1) := ⟨k - ws.length - 1, by omega⟩
      rw [List.take_length_add_append, List.take_succ_cons, applyWrites_append, ← written]
      change Consistent start size s.disk _ (applyWrites (update t.disk start H) _) ∧
        (_ → _ → Clear start size _ (applyWrites (update t.disk start H) _))
      rw [← stored]
      obtain ⟨early, complete⟩ := pending.finish header j
      constructor
      · by_cases before : j ≤ t.mem.log.n
        · exact Or.inr (Or.inr (early before))
        · exact Or.inr (Or.inl (complete (by omega)))
      · intro _ long
        apply complete
        simp [recoveryWrites, installs] at long
        omega

end Transaction

/-! ## The real cache -/

section System
variable {μ : Type} (forbidden : Mark → Bool) (rest : μ)

/-- The sector lies in the log that the super block of `disk` describes. -/
def inLog (disk : Nat → Bytes) (sector : Nat) : Prop :=
  logRegion (diskLog disk).start (diskLog disk).size sector

/-- A transaction on home sectors that does not move the log. -/
structure Admissible (disk : Nat → Bytes) (steps : Steps) : Prop where
  home : ∀ step ∈ steps, ¬ inLog disk step.1
  words : ∀ step ∈ steps, step.1 < 4294967296
  size : (superblockOf (applySteps disk steps 1)).size = (superblockOf (disk 1)).size
  nlog : (superblockOf (applySteps disk steps 1)).nlog = (superblockOf (disk 1)).nlog

/-- The states of a machine that was started on a disk with a clear log header and has
completed transactions since. -/
inductive Uptime : BufSys (LogMem μ) → Prop
  | boot {disk : Nat → Bytes} {s : BufSys (LogMem μ)}
      (clear : (disk (diskLog disk).start).get 0 4 = 0) (superblock : ¬ inLog disk 1)
      (started : (bufMachine forbidden).run logInit (powerOn rest disk) = .ok () s) : Uptime s
  | commit {s t : BufSys (LogMem μ)} {steps : Steps} (up : Uptime s)
      (good : Admissible s.disk steps)
      (done : (bufMachine forbidden).run (transaction steps) s = .ok () t) : Uptime t

/-- The sector writes a program issues, in order. -/
def writesOf (p : BufProg μ Unit) (s : BufSys (LogMem μ)) : List (Nat × Bytes) :=
  ((bufMachine forbidden).run p s).state.issued.drop s.issued.length

/-- The disks after any number of recoveries that were each stopped after some writes. -/
inductive Restarts (disk : Nat → Bytes) : (Nat → Bytes) → Prop
  | first : Restarts disk disk
  | again {found : Nat → Bytes} (before : Restarts disk found) (k : Nat) :
      Restarts disk (applyWrites found ((writesOf forbidden logInit (powerOn rest found)).take k))

variable {forbidden rest}

/-- A run on the real cache issues the writes of the run on the ideal one. -/
theorem run_agrees {a : BufSys (LogMem μ)} {b : Ideal (LogMem μ)} (caches : Caches a b)
    (p : BufProg μ Unit) (answers : ((idealMachine forbidden).run p b).reason ≠ some .beyond) :
    ((bufMachine forbidden).run p a).result = ((idealMachine forbidden).run p b).result ∧
    Caches ((bufMachine forbidden).run p a).state ((idealMachine forbidden).run p b).state := by
  have matched := (bufMachine_refines forbidden).run (fun _ _ same => same) p caches
  cases left : (bufMachine forbidden).run p a with
  | ok x s =>
    cases right : (idealMachine forbidden).run p b with
    | ok y t =>
      rw [left, right] at matched
      exact ⟨congrArg some matched.1, matched.2⟩
    | stop v t =>
      rw [left, right] at matched
      rw [right] at answers
      exact absurd (congrArg some matched) answers
  | stop w s =>
    cases right : (idealMachine forbidden).run p b with
    | ok y t =>
      rw [left, right] at matched
      exact matched.elim
    | stop v t =>
      rw [left, right] at matched
      rw [right] at answers
      rcases matched with ⟨-, caches⟩ | impossible | beyond
      · exact ⟨rfl, caches⟩
      · exact impossible.elim
      · exact absurd (congrArg some beyond) answers

variable {disk : Nat → Bytes} {start : Nat} {size : Int}

theorem writesOf_logInit (good : Recoverable (diskLog disk)) :
    writesOf forbidden logInit (powerOn rest disk) = recoveryWrites (diskLog disk) disk := by
  obtain ⟨t, u, run, caches, final⟩ := @run_boot _ forbidden _ rest good
  rw [writesOf, run]
  change t.issued = _
  rw [caches.issued, final]
  rfl

/-- The machine is between transactions, and the super block places the log where it is. -/
structure Ready (start : Nat) (size : Int) (s : BufSys (LogMem μ)) : Prop where
  rest : ∃ b, Caches s b ∧ AtRest start size b
  placed : Placed start size s.disk
  superblock : ¬ logRegion start size 1

theorem placed_of_same {image : Nat → Bytes}
    (placed : Placed start size image)
    (sizeEq : (superblockOf (disk 1)).size = (superblockOf (image 1)).size)
    (nlogEq : (superblockOf (disk 1)).nlog = (superblockOf (image 1)).nlog) :
    Placed start size disk := by
  obtain ⟨begins, length⟩ := placed
  refine ⟨?_, ?_⟩
  · rw [← begins]
    simp only [diskLog, Log.withHeader, Log.placed, Superblock.logStart, sizeEq, nlogEq]
  · rw [← length]
    simp only [diskLog, Log.withHeader, Log.placed, nlogEq]

theorem Ready.home {s : BufSys (LogMem μ)} (ready : Ready start size s)
    {t : Nat} : inLog s.disk t ↔ logRegion start size t := by
  rw [inLog, ready.placed.1, ready.placed.2]

theorem Uptime.ready {s : BufSys (LogMem μ)} (up : Uptime forbidden rest s) :
    ∃ start size, Ready start size s := by
  induction up with
  | @boot disk s clear superblock started =>
    have clean : Clear (diskLog disk).start (diskLog disk).size disk disk := ⟨clear, fun _ _ => rfl⟩
    have placed : Placed (diskLog disk).start (diskLog disk).size disk := ⟨rfl, rfl⟩
    obtain ⟨good, writes⟩ := clean.recoverable placed
    obtain ⟨t, u, run, caches, rfl⟩ := @run_boot _ forbidden _ rest good
    rw [started] at run
    cases run
    have same : applyWrites disk (recoveryWrites (diskLog disk) disk) = disk := by
      rw [writes]
      exact update_eq_self _ _
    have word : (diskLog disk).start < 4294967296 := uint32_lt _
    refine ⟨_, _, ⟨_, caches, .of_empty rfl rfl word rfl (Finset.empty_sdiff _) (fun _ => rfl) ?_ rfl,
      rfl, rfl, rfl⟩, ?_, superblock⟩
    · change (applyWrites disk (recoveryWrites (diskLog disk) disk) _).get 0 4 = 0
      rw [same]
      exact clear
    · rw [caches.disk]
      change Placed _ _ (applyWrites disk _)
      rwa [same]
  | @commit s t steps up good done ih =>
    obtain ⟨start, size, ready⟩ := ih
    obtain ⟨b, caches, atRest⟩ := ready.rest
    have home : ∀ step ∈ steps, ¬ logRegion start size step.1 := fun step member =>
      mt ready.home.mpr (good.home step member)
    obtain ⟨result, after⟩ := run_agrees caches (transaction steps)
      (@transaction_answers _ forbidden _ _ _ _ atRest home good.words)
    cases outcome : (idealMachine forbidden).run (transaction steps) b with
    | stop w u =>
      rw [outcome, done] at result
      cases result
    | ok _ u =>
      rw [outcome, done] at after
      obtain ⟨rested, disk⟩ := transaction_done atRest home good.words outcome
      have sb : t.disk 1 = applySteps s.disk steps 1 := by
        rw [show t.disk = u.disk from after.disk, disk 1 ready.superblock, caches.disk]
      refine ⟨start, size, ⟨u, after, rested⟩, ?_, ready.superblock⟩
      apply placed_of_same ready.placed
      · rw [sb]
        exact good.size
      · rw [sb]
        exact good.nlog

/-- The super block of a disk that recovery may find is the old or the new one. -/
theorem Consistent.superblock {pre post : Nat → Bytes}
    (consistent : Consistent start size pre post disk) (outside : ¬ logRegion start size 1) :
    disk 1 = pre 1 ∨ disk 1 = post 1 := by
  rcases consistent with clear | clear | pending
  · exact Or.inl (clear.home 1 outside)
  · exact Or.inr (clear.home 1 outside)
  · rcases pending.progress 1 outside with new | ⟨old, -⟩
    · exact Or.inr new
    · exact Or.inl old

/-- Crash atomicity.  A machine that was started on a disk with a clear header runs a
transaction and is stopped after any number `k` of its sector writes; recovery is then
started and stopped any number of times.  The next recovery completes, and leaves in all
sectors outside the log the contents from before the transaction, or in all of them those
from after it; the latter if the transaction had returned. -/
theorem crash_atomicity {s : BufSys (LogMem μ)} {steps : Steps} (up : Uptime forbidden rest s)
    (good : Admissible s.disk steps) (k : Nat) {found : Nat → Bytes}
    (restarts : Restarts forbidden rest
      (applyWrites s.disk ((writesOf forbidden (transaction steps) s).take k)) found) :
    ∃ t, (bufMachine forbidden).run logInit (powerOn rest found) = .ok () t ∧
      ((∀ x, ¬ inLog s.disk x → t.disk x = s.disk x) ∨
        (∀ x, ¬ inLog s.disk x → t.disk x = applySteps s.disk steps x)) ∧
      (((bufMachine forbidden).run (transaction steps) s).result = some () →
        (writesOf forbidden (transaction steps) s).length ≤ k →
        ∀ x, ¬ inLog s.disk x → t.disk x = applySteps s.disk steps x) := by
  obtain ⟨start, size, ready⟩ := up.ready
  obtain ⟨b, caches, atRest⟩ := ready.rest
  have home : ∀ step ∈ steps, ¬ logRegion start size step.1 := fun step member =>
    mt ready.home.mpr (good.home step member)
  obtain ⟨result, after⟩ := run_agrees caches (transaction steps)
    (@transaction_answers _ forbidden _ _ _ _ atRest home good.words)
  obtain ⟨consistent, committed⟩ :=
    @transaction_cut _ forbidden _ _ _ _ _ atRest home good.words rfl k
  have writes : writesOf forbidden (transaction steps) s =
      ((idealMachine forbidden).run (transaction steps) b).state.issued.drop b.issued.length := by
    rw [writesOf, after.issued, caches.issued]
  rw [← writes, ← caches.disk] at consistent committed
  -- Recovery always finds the log in the same place.
  have placed : ∀ disk, Consistent start size s.disk (applySteps s.disk steps) disk →
      Placed start size disk := by
    intro disk found
    rcases found.superblock ready.superblock with old | new
    · exact placed_of_same ready.placed (by rw [old]) (by rw [old])
    · exact placed_of_same ready.placed (by rw [new, good.size]) (by rw [new, good.nlog])
  have kept : Consistent start size s.disk (applySteps s.disk steps) found ∧
      (Clear start size (applySteps s.disk steps)
        (applyWrites s.disk ((writesOf forbidden (transaction steps) s).take k)) →
        Clear start size (applySteps s.disk steps) found) := by
    induction restarts with
    | first => exact ⟨consistent, id⟩
    | again before j ih =>
      obtain ⟨here, clear⟩ := ih
      have there := placed _ here
      rw [writesOf_logInit (here.recoverable there)]
      refine ⟨here.recovery there j, fun done => ?_⟩
      rw [(clear done).recovery there]
      exact clear done
  have there := placed _ kept.1
  obtain ⟨t, u, run, cached, final⟩ :=
    @run_boot _ forbidden _ rest (kept.1.recoverable there)
  have disk : t.disk = applyWrites found (recoveryWrites (diskLog found) found) := by
    rw [cached.disk, final]
    rfl
  refine ⟨t, run, ?_, ?_⟩
  · rcases kept.1.recovered there with clear | clear
    · left
      intro x outside
      rw [disk, clear.home x (mt ready.home.mpr outside)]
    · right
      intro x outside
      rw [disk, clear.home x (mt ready.home.mpr outside)]
  · intro returned long x outside
    have clear := kept.2 (committed (result ▸ returned) long)
    have all := clear.recovery there (recoveryWrites (diskLog found) found).length
    rw [List.take_length] at all
    rw [disk, all, clear.home x (mt ready.home.mpr outside)]

end System

/-! ## An example, and a transaction that moves the log -/

/-- A disk of 20 sectors of which the last 5 are the log. -/
def tinyDisk : Nat → Bytes := fun sector =>
  if sector = 1 then Bytes.put (Bytes.put Bytes.zero 0 4 20) 12 4 5 else Bytes.zero

def tinyBoot : BufSys (LogMem Unit) :=
  ((bufMachine fun _ => false).run logInit (powerOn () tinyDisk)).state

theorem tinyBoot_up : Uptime (fun _ => false) () tinyBoot := by
  have clear : (tinyDisk (diskLog tinyDisk).start).get 0 4 = 0 := by decide
  have outside : ¬ inLog tinyDisk 1 := by
    unfold inLog
    decide
  exact .boot clear outside (Outcome.eq_ok_of_result (by decide))

theorem tinyBoot_inLog (sector : Nat) : inLog tinyBoot.disk sector ↔ logRegion 15 5 sector := by
  have begins : (diskLog tinyBoot.disk).start = 15 := by decide
  have length : (diskLog tinyBoot.disk).size = 5 := by decide
  rw [inLog, begins, length]

theorem crash_atomicity_tiny :
    Admissible tinyBoot.disk [(3, fun data => Bytes.put data 0 1 7)] ∧
    ∃ t, (bufMachine fun _ => false).run logInit (powerOn ()
        (applyWrites tinyBoot.disk ((writesOf (fun _ => false)
          (transaction [(3, fun data => Bytes.put data 0 1 7)]) tinyBoot).take 2))) = .ok () t ∧
      ((∀ x, ¬ inLog tinyBoot.disk x → t.disk x = tinyBoot.disk x) ∨
        (∀ x, ¬ inLog tinyBoot.disk x →
          t.disk x = applySteps tinyBoot.disk [(3, fun data => Bytes.put data 0 1 7)] x)) := by
  have good : Admissible tinyBoot.disk [(3, fun data => Bytes.put data 0 1 7)] := by
    refine ⟨?_, by simp, rfl, rfl⟩
    simp only [List.mem_singleton, forall_eq, tinyBoot_inLog]
    decide
  obtain ⟨t, run, either, -⟩ := crash_atomicity tinyBoot_up good 2 .first
  exact ⟨good, t, run, either⟩

/-- A transaction that changes the size in the super block, and one more sector. -/
def moveLog : Steps :=
  [(1, fun data => Bytes.put data 0 4 30), (3, fun data => Bytes.put data 0 1 7)]

/-- The machine stops when the new super block is installed and sector 3 is not: recovery
then looks for the log elsewhere, and sector 3 keeps its old contents. -/
theorem moved_log_lost :
    Uptime (fun _ => false) () tinyBoot ∧
    (moveLog.length : Int) ≤ (diskLog tinyBoot.disk).size - 1 ∧
    (∀ step ∈ moveLog, ¬ inLog tinyBoot.disk step.1 ∧ step.1 < 4294967296) ∧
    ∃ found t, Restarts (fun _ => false) () (applyWrites tinyBoot.disk
        ((writesOf (fun _ => false) (transaction moveLog) tinyBoot).take 4)) found ∧
      (bufMachine fun _ => false).run logInit (powerOn () found) = .ok () t ∧
      (∃ x, ¬ inLog tinyBoot.disk x ∧ t.disk x ≠ tinyBoot.disk x) ∧
      (∃ x, ¬ inLog tinyBoot.disk x ∧ t.disk x ≠ applySteps tinyBoot.disk moveLog x) := by
  refine ⟨tinyBoot_up, by decide, ?_, _, _, .first,
    Outcome.eq_ok_of_result (by decide), ⟨1, ?_, ?_⟩, ⟨3, ?_, ?_⟩⟩
  · simp only [moveLog, tinyBoot_inLog]
    decide
  · rw [tinyBoot_inLog]
    decide
  · intro same
    have byte := congrFun same 0
    revert byte
    decide
  · rw [tinyBoot_inLog]
    decide
  · intro same
    have byte := congrFun same 0
    revert byte
    decide

end OsAudio.Fs

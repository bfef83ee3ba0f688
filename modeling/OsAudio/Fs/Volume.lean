import OsAudio.Fs.LogRun

/-!
# The volume

What the layers above the log see: sectors with contents, some of them held, and a
transaction in which a bounded number of sectors may be logged.  Slots, header and
installing do not show any more, except through the limits on the number of sectors.

`volume_refines` proves that the programs of the log implement this, for every program
above that stays out of the log region, leaves the super block alone and logs only
sectors it holds.
-/
namespace OsAudio.Fs
open OsAudio.Lib
open Function (update update_of_ne update_eq_self)

structure Vol (μ : Type) where
  data : Nat → Bytes
  /-- `log_init` has run. -/
  up : Bool
  inTrans : Bool
  logged : Finset Nat
  held : Finset Nat
  start : Nat
  size : Int
  mem : μ

section Machine
variable {μ : Type}

def Vol.hold (v : Vol μ) (sector : Nat) : Vol μ := { v with held := insert sector v.held }
def Vol.release (v : Vol μ) (sector : Nat) : Vol μ := { v with held := v.held.erase sector }
def Vol.write (v : Vol μ) (sector : Nat) (data : Bytes) : Vol μ :=
  { v with data := update v.data sector data, logged := insert sector v.logged }

def volRead (v : Vol μ) (sector : Nat) : Outcome Stop (Vol μ) Bytes :=
  if logRegion v.start v.size sector then .stop .beyond v
  else if sector ∈ v.held then .stop .sleep v
  else if sector ∉ v.logged ∧ nBuf ≤ (v.held ∪ v.logged).card then .stop (.panic .noBuffers) v
  else .ok (v.data sector) (v.hold sector)

def volLogWrite (v : Vol μ) (sector : Nat) (data : Bytes) : Outcome Stop (Vol μ) Unit :=
  if sector ∉ v.held ∨ sector = 1 ∨ 4294967296 ≤ sector then .stop .beyond v
  else if ¬ v.up ∨ logSize ≤ v.logged.card ∨ v.size - 1 ≤ v.logged.card then
    .stop (.panic .tooBigTransaction) v
  else if ¬ v.inTrans then .stop (.panic .writeOutsideTrans) v
  else if nBuf ≤ (v.held ∪ v.logged).card then .stop (.panic .noBuffers) v
  else .ok () (v.write sector data)

def volRelease (v : Vol μ) (sector : Nat) : Outcome Stop (Vol μ) Unit :=
  if sector ∈ v.held then .ok () (v.release sector) else .stop .beyond v

def volBegin (v : Vol μ) : Outcome Stop (Vol μ) Unit :=
  if v.inTrans then .stop .sleep v else .ok () { v with inTrans := true }

def volCommit (v : Vol μ) : Outcome Stop (Vol μ) Unit :=
  if v.held ≠ ∅ then .stop .beyond v
  else if nBuf ≤ v.logged.card then .stop (.panic .noBuffers) v
  else .ok () { v with inTrans := false, logged := ∅ }

def volInit (v : Vol μ) : Outcome Stop (Vol μ) Unit :=
  if v.held ≠ ∅ ∨ v.logged ≠ ∅ then .stop .beyond v else .ok () { v with up := true }

def volMachine (forbidden : Mark → Bool) : Machine (LogSig μ) Stop (Vol μ) := fun op v =>
  match op with
  | .read sector => volRead v sector
  | .logWrite sector data => volLogWrite v sector data
  | .release sector => volRelease v sector
  | .beginTrans => volBegin v
  | .commitTrans => volCommit v
  | .logInit => volInit v
  | .getMem => .ok v.mem v
  | .setMem mem => .ok () { v with mem := mem }
  | .mark mark hit => if hit && forbidden mark then .stop (.marked mark) v else .ok () v

/-- The log record as it is, or as `log_init` will place it. -/
def Vol.logView (v : Vol μ) (log : Log) : Log :=
  if v.up then log else { log with start := v.start, size := v.size }

/-- The ideal cache `b` and the log in it present the volume `v`. -/
structure Presents (b : Ideal (LogMem μ)) (v : Vol μ) : Prop where
  log : LogState v.start v.size (b.withLog (v.logView b.mem.log))
  unset : v.up = false → b.mem.log.size = 0 ∧ b.mem.log.n = 0
  busy : b.mem.log.busy = v.inTrans
  data : ∀ t, ¬ logRegion v.start v.size t → b.content t = v.data t
  logged : b.dirty = v.logged
  held : b.held = v.held
  calm : v.inTrans = false → v.logged = ∅
  mem : b.mem.rest = v.mem
  superblock : ¬ logRegion v.start v.size 1
  placed : (superblockOf (v.data 1)).logStart = v.start ∧ int32 (superblockOf (v.data 1)).nlog = v.size

end Machine

/-! ## The refinement -/

section Refinement
variable {μ : Type} {forbidden : Mark → Bool} {b : Ideal (LogMem μ)} {v : Vol μ}

abbrev VolMatch {α : Type} : Outcome Stop (Ideal (LogMem μ)) α → Outcome Stop (Vol μ) α → Prop :=
  Outcome.Matches Presents (fun _ _ => True) (fun _ => False) (· = .beyond)

theorem logView_n (v : Vol μ) (log : Log) : (v.logView log).n = log.n := by
  unfold Vol.logView
  split <;> rfl

section
variable (presents : Presents b v)
include presents

theorem Presents.card : v.logged.card = b.mem.log.n := by
  rw [← presents.logged, ← logView_n v b.mem.log]
  exact presents.log.dirty_card

theorem Presents.logState (up : v.up = true) : LogState v.start v.size b := by
  have log := presents.log
  rwa [Vol.logView, if_pos up] at log

/-- The flag `busy` does not matter for the state of the log. -/
theorem Presents.setBusy (busy : Bool) :
    LogState v.start v.size (b.withLog (v.logView { b.mem.log with busy := busy })) := by
  have log := presents.log
  unfold Vol.logView at log ⊢
  revert log
  cases v.up with
  | true => exact fun log => { log with }
  | false => exact fun log => { log with }

theorem volRead_matches (sector : Nat) : VolMatch (idealRead b sector) (volRead v sector) := by
  unfold volRead
  by_cases region : logRegion v.start v.size sector
  · rw [if_pos region]
    exact .excused _ (by rfl) _
  · rw [if_neg region]
    by_cases busy : sector ∈ v.held
    · rw [if_pos busy, idealRead, if_pos (presents.held ▸ busy)]
      exact Or.inl ⟨rfl, trivial⟩
    · have free : sector ∉ b.held := presents.held ▸ busy
      rw [if_neg busy]
      by_cases full : sector ∉ v.logged ∧ nBuf ≤ (v.held ∪ v.logged).card
      · rw [if_pos full, idealRead, if_neg free, if_pos (by rwa [presents.held, presents.logged])]
        exact Or.inl ⟨rfl, trivial⟩
      · have room : sector ∈ b.dirty ∨ b.room := by
          rw [Ideal.room, presents.held, presents.logged]
          by_cases dirty : sector ∈ v.logged
          · exact Or.inl dirty
          · exact Or.inr (Nat.not_le.mp fun many => full ⟨dirty, many⟩)
        rw [if_neg full, idealRead_ok free room]
        exact ⟨presents.data sector region, { presents with
          log := presents.log.hold region
          held := congrArg (insert sector) presents.held }⟩

theorem volRelease_matches (sector : Nat) :
    VolMatch (idealRelease b sector) (volRelease v sector) := by
  unfold idealRelease volRelease
  by_cases held : sector ∈ v.held
  · rw [if_pos held, if_pos (presents.held ▸ held)]
    refine ⟨rfl, { presents with log := { presents.log with outside := ?_ }, held := ?_ }⟩
    · intro t member
      exact presents.log.outside t (Finset.mem_of_mem_erase member)
    · exact congrArg (fun set => set.erase sector) presents.held
  · rw [if_neg held, if_neg (presents.held ▸ held)]
    exact Or.inl ⟨rfl, trivial⟩

theorem Presents.limit :
    (b.mem.log.n ≥ logSize ∨ (b.mem.log.n : Int) ≥ b.mem.log.size - 1) ↔
      (¬ v.up ∨ logSize ≤ v.logged.card ∨ v.size - 1 ≤ v.logged.card) := by
  rw [presents.card]
  cases up : v.up with
  | true =>
    rw [(presents.logState up).length]
    simp
  | false =>
    obtain ⟨size, n⟩ := presents.unset up
    rw [size, n]
    simp

theorem volLogWrite_matches (sector : Nat) (data : Bytes) :
    VolMatch ((idealMachine forbidden).run (logWrite sector data) b) (volLogWrite v sector data) := by
  unfold volLogWrite
  by_cases misuse : sector ∉ v.held ∨ sector = 1 ∨ 4294967296 ≤ sector
  · rw [if_pos misuse]
    exact .excused _ (by rfl) _
  rw [if_neg misuse]
  simp only [not_or, not_not, Nat.not_le] at misuse
  obtain ⟨held, notSuper, word⟩ := misuse
  by_cases big : ¬ v.up ∨ logSize ≤ v.logged.card ∨ v.size - 1 ≤ v.logged.card
  · rw [if_pos big, run_logWrite_tooBig (presents.limit.mpr big)]
    exact Or.inl ⟨rfl, trivial⟩
  rw [if_neg big]
  simp only [not_or, not_not, Nat.not_le, Int.not_le] at big
  obtain ⟨up, few, fits⟩ := big
  have inv := presents.logState up
  rw [presents.card] at few fits
  by_cases idle : ¬ v.inTrans
  · have busy : b.mem.log.busy = false := by
      rw [presents.busy]
      simpa using idle
    rw [if_pos idle, run_logWrite_outside few (by rw [inv.length]; exact fits) busy]
    exact Or.inl ⟨rfl, trivial⟩
  have busy : b.mem.log.busy = true := by
    rw [presents.busy]
    simpa using idle
  rw [if_neg idle]
  have inside : sector ∈ b.held := presents.held ▸ held
  have home := inv.outside sector inside
  by_cases full : nBuf ≤ (v.held ∪ v.logged).card
  · obtain ⟨log, stopped⟩ := @run_logWrite_full μ forbidden _ _ b inv sector data busy few fits
      (by rw [Ideal.room, presents.held, presents.logged]; exact Nat.not_lt.mpr full)
    rw [if_pos full, stopped]
    exact Or.inl ⟨rfl, trivial⟩
  · have room : b.room := by
      rw [Ideal.room, presents.held, presents.logged]
      exact Nat.not_le.mp full
    rw [if_neg full, run_logWrite inv data busy few fits inside room]
    refine ⟨rfl, ?_⟩
    constructor
    case log =>
      rw [Vol.logView, if_pos (show (v.write sector data).up = true from up)]
      exact inv.logged few fits home word
    case unset => exact fun down => absurd (up.symm.trans down) (by simp)
    case busy => exact presents.busy
    case data =>
      intro t outside
      rw [inv.logged_content fits outside]
      by_cases here : t = sector
      · simp [Vol.write, here]
      · simpa [Vol.write, here] using presents.data t outside
    case logged => rw [inv.logged_dirty fits, presents.logged]; rfl
    case held => exact presents.held
    case calm =>
      intro calm
      exact absurd calm (by simpa [Vol.write] using idle)
    case mem => exact presents.mem
    case superblock => exact presents.superblock
    case placed =>
      rw [show (v.write sector data).data 1 = v.data 1 from update_of_ne (Ne.symm notSuper) _ _]
      exact presents.placed

theorem volBegin_matches : VolMatch ((idealMachine forbidden).run beginTrans b) (volBegin v) := by
  unfold volBegin beginTrans
  rw [Machine.run_bind_ok (run_getLog b), presents.busy]
  cases inTrans : v.inTrans with
  | true => exact Or.inl ⟨rfl, trivial⟩
  | false =>
    exact ⟨rfl, { presents with
      log := presents.setBusy true
      unset := presents.unset
      busy := rfl
      calm := nofun }⟩

theorem volCommit_matches :
    VolMatch ((idealMachine forbidden).run commitTrans b) (volCommit v) := by
  unfold volCommit
  by_cases held : v.held ≠ ∅
  · rw [if_pos held]
    exact .excused _ (by rfl) _
  rw [if_neg held, presents.card]
  have idle : b.held = ∅ := presents.held.trans (not_not.mp held)
  by_cases logged : b.mem.log.n = 0
  · have empty : v.logged = ∅ := Finset.card_eq_zero.mp (presents.card.trans logged)
    rw [logged, if_neg (by decide), commitTrans, Machine.run_bind_ok (run_getLog b),
      if_neg (by omega), Machine.run_bind_ok (run_getLog b), run_setLog]
    exact ⟨rfl, { presents with
      log := presents.setBusy false
      unset := presents.unset
      busy := rfl
      logged := presents.logged.trans empty
      calm := fun _ => rfl }⟩
  have up : v.up = true := by
    cases up : v.up with
    | true => rfl
    | false => exact absurd (presents.unset up).2 logged
  have inv := presents.logState up
  by_cases full : nBuf ≤ b.mem.log.n
  · rw [if_pos full, run_commitTrans_full inv logged idle full]
    exact Or.inl ⟨rfl, trivial⟩
  · rw [if_neg full, run_commitTrans inv logged idle (Nat.not_le.mp full)]
    refine ⟨rfl, ?_⟩
    constructor
    case log =>
      rw [Vol.logView, if_pos up]
      exact inv.committed idle
    case unset => exact fun down => absurd (up.symm.trans down) nofun
    case busy => rfl
    case data =>
      intro t outside
      have same : b.committed.content t = b.content t :=
        inv.commit_home logged outside fun _ => rfl
      exact same.trans (presents.data t outside)
    case logged => exact inv.committed_dirty
    case held => exact presents.held
    case calm => exact fun _ => rfl
    case mem => exact presents.mem
    case superblock => exact presents.superblock
    case placed => exact presents.placed

theorem volInit_matches : VolMatch ((idealMachine forbidden).run logInit b) (volInit v) := by
  unfold volInit
  by_cases misuse : v.held ≠ ∅ ∨ v.logged ≠ ∅
  · rw [if_pos misuse]
    exact .excused _ (by rfl) _
  rw [if_neg misuse]
  simp only [not_or, not_not] at misuse
  have idle : b.held = ∅ := presents.held.trans misuse.1
  have saved : b.dirty = ∅ := presents.logged.trans misuse.2
  have sb : superblockOf (b.content 1) = superblockOf (v.data 1) := by
    rw [presents.data 1 presents.superblock]
  have clean : ∀ t, b.content t = b.disk t := fun t => presents.log.clean t (by
    rw [show (b.withLog (v.logView b.mem.log)).dirty = b.dirty from rfl, saved]
    exact Finset.notMem_empty t)
  obtain ⟨log, placed⟩ : ∃ log, b.mem.log.placed (superblockOf (b.content 1)) = log := ⟨_, rfl⟩
  have begins : log.start = v.start := by
    rw [← placed, Log.placed, sb]
    exact presents.placed.1
  have length : log.size = v.size := by
    rw [← placed, Log.placed, sb]
    exact presents.placed.2
  have header : (b.content log.start).get 0 4 = 0 := by
    rw [begins, clean]
    exact presents.log.header
  have none : (log.withHeader (b.content log.start)).n = 0 := header
  have run := @run_logInit μ forbidden b log idle saved placed
    ⟨by rw [none]; exact Nat.zero_le _, by rw [none]; exact fun i below => absurd below (Nat.not_lt_zero i),
      by rw [none]; exact fun i below => absurd below (Nat.not_lt_zero i)⟩
  have writes : recoveryWrites (log.withHeader (b.content log.start)) b.content =
      [(log.start, b.content log.start)] := by
    rw [recoveryWrites, none,
      show (log.withHeader (b.content log.start)).start = log.start from rfl,
      headerInto_clear header rfl]
    rfl
  rw [writes] at run
  rw [run]
  have content : update b.content log.start (b.content log.start) = b.content :=
    update_eq_self _ _
  have disk : update b.disk log.start (b.content log.start) = b.disk := by
    rw [clean]
    exact update_eq_self _ _
  have log' : LogState v.start v.size
      ((b.withLog { log.withHeader (b.content log.start) with n := 0 }).stored
        [(log.start, b.content log.start)]) := by
    refine .of_empty begins length presents.log.word rfl ?_ (fun t => ?_) ?_ idle
    · change b.dirty \ _ = ∅
      rw [saved, Finset.empty_sdiff]
    · change update b.content _ _ t = update b.disk _ _ t
      rw [content, disk, clean]
    · change (update b.disk _ _ v.start).get 0 4 = 0
      rw [disk]
      exact presents.log.header
  refine ⟨rfl, { presents with log := log', unset := nofun, busy := ?_, data := ?_, logged := ?_ }⟩
  · change log.busy = v.inTrans
    rw [← placed]
    exact presents.busy
  · intro t outside
    change update b.content _ _ t = v.data t
    rw [content, presents.data t outside]
  · change b.dirty \ _ = v.logged
    rw [saved, Finset.empty_sdiff, misuse.2]

end

/-- The programs of the log implement the volume. -/
theorem volume_refines (forbidden : Mark → Bool) :
    ((idealMachine forbidden).through logImpl : Machine (LogSig μ) Stop (Ideal (LogMem μ))).Refines
      (volMachine forbidden) Presents (fun _ _ => True) (fun _ => False) (· = .beyond) := by
  intro op b v presents
  cases op with
  | read sector =>
    have run : (idealMachine forbidden).run (bufRead sector) b = _ := run_bufRead b sector
    have matched := volRead_matches presents sector
    rwa [← run] at matched
  | logWrite sector data => exact volLogWrite_matches presents sector data
  | release sector =>
    have run : (idealMachine forbidden).run (bufRelease sector) b = _ := run_bufRelease b sector
    have matched := volRelease_matches presents sector
    rwa [← run] at matched
  | beginTrans => exact volBegin_matches presents
  | commitTrans => exact volCommit_matches presents
  | logInit => exact volInit_matches presents
  | getMem => exact ⟨presents.mem, presents⟩
  | setMem mem => exact ⟨rfl, { presents with log := { presents.log with }, mem := rfl }⟩
  | mark mark hit =>
    have run : (idealMachine forbidden).run (bufMark mark hit) b = _ := run_bufMark b mark hit
    have matched : VolMatch (if hit && forbidden mark then .stop (.marked mark) b else .ok () b)
        (if hit && forbidden mark then .stop (.marked mark) v else .ok () v) := by
      cases hit && forbidden mark with
      | true => exact Or.inl ⟨rfl, trivial⟩
      | false => exact ⟨rfl, presents⟩
    rwa [← run] at matched

/-! ## From the real cache to the volume -/

/-- The real cache, with the log in it, presents the volume. -/
def Shows (a : BufSys (LogMem μ)) (v : Vol μ) : Prop := ∃ b, Caches a b ∧ Presents b v

theorem cache_refines (forbidden : Mark → Bool) :
    ((bufMachine forbidden).through logImpl : Machine (LogSig μ) Stop (BufSys (LogMem μ))).Refines
      (volMachine forbidden) Shows (fun _ _ => True) (fun _ => False) (· = .beyond) := by
  have lower := Machine.Refines.through (T := LogSig μ) (bufMachine_refines forbidden)
    (fun _ _ same => same) logImpl
  refine (lower.trans (volume_refines forbidden) fun _ impossible => impossible.elim).weaken
    (fun _ _ _ => trivial) ?_
  rintro w (impossible | impossible) <;> exact impossible

/-- The contents of a sector as the kernel sees them. -/
def BufSys.content (s : BufSys μ) (sector : Nat) : Bytes :=
  match s.buf? sector with
  | some b => b.data
  | none => s.disk sector

theorem Caches.content_eq {a : BufSys μ} {b : Ideal μ} (caches : Caches a b) (sector : Nat) :
    a.content sector = b.content sector := by
  unfold BufSys.content
  cases found : a.buf? sector with
  | some x => exact (caches.find found).2.2.1
  | none =>
    rw [caches.disk]
    exact (caches.clean sector (caches.find_none found).2.2).symm

/-- A machine just started on a disk with a clear log header. -/
theorem shows_powerOn {disk : Nat → Bytes} {start : Nat} {size : Int} (rest : μ)
    (begins : (superblockOf (disk 1)).logStart = start)
    (length : int32 (superblockOf (disk 1)).nlog = size) (outside : ¬ logRegion start size 1)
    (header : (disk start).get 0 4 = 0) :
    Shows (powerOn rest disk) ⟨disk, false, false, ∅, ∅, start, size, rest⟩ := by
  refine ⟨_, caches_init disk [] (LogMem.mk bootLog rest), ?_⟩
  constructor
  case log =>
    refine .of_empty rfl rfl ?_ rfl rfl (fun _ => rfl) header rfl
    rw [← begins]
    exact uint32_lt _
  case unset => exact fun _ => ⟨rfl, rfl⟩
  case busy => rfl
  case data => exact fun _ _ => rfl
  case logged => rfl
  case held => rfl
  case calm => exact fun _ => rfl
  case mem => rfl
  case superblock => exact outside
  case placed => exact ⟨begins, length⟩

theorem Shows.content {a : BufSys (LogMem μ)} (shows_ : Shows a v) {t : Nat}
    (home : ¬ logRegion v.start v.size t) : a.content t = v.data t := by
  obtain ⟨b, caches, presents⟩ := shows_
  rw [caches.content_eq, presents.data t home]

end Refinement

end OsAudio.Fs

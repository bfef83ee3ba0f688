import OsAudio.Fs.Crash

/-!
# Coherence of the buffer cache

One client reads home sectors, logs new contents of sectors it holds, releases them, and
begins and commits transactions.  However the ten buffers are recycled and the log slots
pass through the same cache, each read returns what the client logged last, and a commit
leaves no dirty buffer behind.
-/
namespace OsAudio.Fs
open OsAudio.Lib

variable {μ : Type} {forbidden : Mark → Bool} {start : Nat} {size : Int}

/-! ## Sectors held by somebody else -/

/-- `s` is `t` with the sectors `others` held as well. -/
structure Lent (others : Finset Nat) (s t : Ideal μ) : Prop where
  eq : s = { t with held := t.held ∪ others }
  apart : Disjoint t.held others

/-- With more sectors held a call may fail to return, but otherwise does the same. -/
theorem lent_refines (others : Finset Nat) :
    (idealMachine forbidden : Machine (BufSig μ) Stop (Ideal μ)).Refines (idealMachine forbidden)
      (Lent others) (fun _ _ => True) (· ≠ .beyond) (· = .beyond) := by
  rintro op _ t ⟨rfl, apart⟩
  cases op with
  | read sector =>
    change Outcome.Matches _ _ _ _ (idealRead _ sector) (idealRead t sector)
    unfold idealRead
    dsimp only
    by_cases held : sector ∈ t.held ∪ others
    · rw [if_pos held]
      split_ifs
      · exact .inr (.inl nofun)
      · exact .inr (.inl nofun)
      · exact fun impossible => nomatch impossible
    rw [if_neg held]
    rw [Finset.mem_union, not_or] at held
    rw [if_neg held.1]
    by_cases full : sector ∉ t.dirty ∧ nBuf ≤ (t.held ∪ others ∪ t.dirty).card
    · rw [if_pos full]
      split_ifs
      · exact .inr (.inl nofun)
      · exact fun impossible => nomatch impossible
    · have room : ¬ (sector ∉ t.dirty ∧ nBuf ≤ (t.held ∪ t.dirty).card) := by
        rintro ⟨clean, many⟩
        refine full ⟨clean, many.trans (Finset.card_le_card ?_)⟩
        exact Finset.union_subset_union_left Finset.subset_union_left
      rw [if_neg full, if_neg room]
      refine ⟨rfl, ?_, ?_⟩
      · simp only [Finset.insert_union]
      · exact Finset.disjoint_insert_left.mpr ⟨held.2, apart⟩
  | write sector data =>
    change Outcome.Matches _ _ _ _ (idealWrite _ sector data) (idealWrite t sector data)
    unfold idealWrite
    by_cases held : sector ∈ t.held
    · rw [if_pos held, if_pos (Finset.mem_union_left _ held)]
      exact ⟨rfl, rfl, apart⟩
    · rw [if_neg held]
      exact .excused _ (by rfl) _
  | setDirty sector data =>
    change Outcome.Matches _ _ _ _ (idealSetDirty _ sector data) (idealSetDirty t sector data)
    unfold idealSetDirty
    by_cases held : sector ∈ t.held
    · rw [if_pos held, if_pos (Finset.mem_union_left _ held)]
      exact ⟨rfl, rfl, apart⟩
    · rw [if_neg held]
      exact .excused _ (by rfl) _
  | release sector =>
    change Outcome.Matches _ _ _ _ (idealRelease _ sector) (idealRelease t sector)
    unfold idealRelease
    by_cases held : sector ∈ t.held
    · rw [if_pos held, if_pos (Finset.mem_union_left _ held)]
      have notOther : sector ∉ others := Finset.disjoint_left.mp apart held
      refine ⟨rfl, ?_, apart.mono_left (Finset.erase_subset _ _)⟩
      simp only [Finset.erase_union_distrib, Finset.erase_eq_of_notMem notOther]
    · rw [if_neg held]
      exact .excused _ (by rfl) _
  | getMem => exact ⟨rfl, rfl, apart⟩
  | setMem mem => exact ⟨rfl, rfl, apart⟩
  | mark mark hit =>
    change Outcome.Matches _ _ _ _ (if _ then _ else _) (if _ then _ else _)
    split_ifs
    · exact .inl ⟨rfl, trivial⟩
    · exact ⟨rfl, rfl, apart⟩

/-! ## The calls on the ideal cache -/

section Calls
variable {s : Ideal (LogMem μ)}

abbrev Answers (w : Stop) (_ : Ideal (LogMem μ)) : Prop := w ≠ .beyond

theorem wp_read (sector : Nat) :
    (idealMachine forbidden).Wp (bufRead sector) s
      (fun data t => data = s.content sector ∧ t = s.hold sector) Answers := by
  unfold Machine.Wp
  rw [run_bufRead]
  unfold idealRead
  split_ifs
  · exact fun impossible => nomatch impossible
  · exact fun impossible => nomatch impossible
  · exact ⟨rfl, rfl⟩

theorem wp_release {sector : Nat} (held : sector ∈ s.held) :
    (idealMachine forbidden).Wp (bufRelease sector) s
      (fun _ t => t = { s with held := s.held.erase sector }) Answers := by
  unfold Machine.Wp
  rw [run_bufRelease, idealRelease, if_pos held]
  rfl

theorem wp_beginTrans :
    (idealMachine forbidden).Wp beginTrans s
      (fun _ t => t = s.withLog { s.mem.log with busy := true }) Answers := by
  unfold Machine.Wp beginTrans
  rw [Machine.run_bind_ok (run_getLog s)]
  split_ifs
  · exact fun impossible => nomatch impossible
  · rfl

theorem wp_logWrite (inv : LogState start size s) {sector : Nat} (data : Bytes)
    (held : sector ∈ s.held) (busy : s.mem.log.busy = true) :
    (idealMachine forbidden).Wp (logWrite sector data) s
      (fun _ t => t = s.logged sector data ∧ s.mem.log.n < logSize ∧
        (s.mem.log.n : Int) < size - 1) Answers := by
  unfold Machine.Wp
  by_cases big : s.mem.log.n ≥ logSize ∨ (s.mem.log.n : Int) ≥ s.mem.log.size - 1
  · rw [run_logWrite_tooBig big]
    exact fun impossible => nomatch impossible
  have few : s.mem.log.n < logSize := by omega
  have fits : (s.mem.log.n : Int) < size - 1 := by
    rw [← inv.length]
    omega
  by_cases room : s.room
  · rw [run_logWrite inv data busy few fits held room]
    exact ⟨rfl, few, fits⟩
  · obtain ⟨log, stopped⟩ := @run_logWrite_full _ forbidden _ _ _ inv sector data busy few fits room
    rw [stopped]
    exact fun impossible => nomatch impossible

/-- What a commit leaves: the same home sectors, now on disk, and a free log. -/
structure Committed (start : Nat) (size : Int) (s t : Ideal (LogMem μ)) : Prop where
  log : LogState start size t
  held : t.held = s.held
  busy : t.mem.log.busy = false
  clean : t.dirty = ∅
  content : ∀ sector, ¬ logRegion start size sector → t.content sector = s.content sector

/-- A commit by a client that holds no sector. -/
theorem wp_commitTrans_idle (inv : LogState start size s) (idle : s.held = ∅) :
    (idealMachine forbidden).Wp commitTrans s (fun _ t => Committed start size s t) Answers := by
  unfold Machine.Wp
  by_cases none : s.mem.log.n = 0
  · have clean : s.dirty = ∅ := Finset.card_eq_zero.mp (inv.dirty_card.trans none)
    unfold commitTrans
    rw [Machine.run_bind_ok (run_getLog s), if_neg (by omega), Machine.run_bind_ok (run_getLog s),
      run_setLog]
    exact ⟨{ inv with }, rfl, rfl, clean, fun _ _ => rfl⟩
  by_cases few : s.mem.log.n < nBuf
  · rw [run_commitTrans inv none idle few]
    refine ⟨inv.committed idle, rfl, rfl, inv.committed_dirty, fun sector home => ?_⟩
    exact inv.commit_home none home fun _ => rfl
  · rw [run_commitTrans_full inv none idle (Nat.not_lt.mp few)]
    exact fun impossible => nomatch impossible

/-- A commit by a client that may hold sectors.  If one of them was logged, the commit never
returns. -/
theorem wp_commitTrans (inv : LogState start size s) :
    (idealMachine forbidden).Wp commitTrans s (fun _ t => Committed start size s t) Answers := by
  have idle : LogState start size { s with held := ∅ } :=
    { inv with outside := fun _ member => absurd member (Finset.notMem_empty _) }
  have wp := @wp_commitTrans_idle _ forbidden _ _ _ idle rfl
  have lent : Lent s.held s { s with held := ∅ } :=
    ⟨by simp only [Finset.empty_union], Finset.disjoint_empty_left _⟩
  have matched := (@lent_refines _ forbidden s.held).run (fun _ _ _ => trivial) commitTrans lent
  unfold Machine.Wp at wp ⊢
  cases right : (idealMachine forbidden).run commitTrans { s with held := ∅ } with
  | ok _ t =>
    rw [right] at wp matched
    cases left : (idealMachine forbidden).run commitTrans s with
    | ok _ u =>
      rw [left] at matched
      obtain ⟨-, rfl, -⟩ := matched
      have none : t.held = ∅ := wp.held
      refine ⟨{ wp.log with outside := ?_ }, ?_, wp.busy, wp.clean, wp.content⟩
      · rw [none, Finset.empty_union]
        exact inv.outside
      · simp only [none, Finset.empty_union]
    | stop w u =>
      rw [left] at matched
      exact matched
  | stop v t =>
    rw [right] at wp matched
    cases left : (idealMachine forbidden).run commitTrans s with
    | ok _ u =>
      rw [left] at matched
      exact absurd matched wp
    | stop w u =>
      rw [left] at matched
      rcases matched with ⟨rfl, -⟩ | answers | beyond
      · exact wp
      · exact answers
      · exact absurd beyond wp

end Calls

/-! ## The client -/

/-- The kernel, and what its client may expect: the sectors it holds, whether it is in a
transaction, and the contents it logged last for each sector, or found there at first. -/
structure Client (μ : Type) where
  sys : BufSys (LogMem μ)
  held : Finset Nat
  inTrans : Bool
  last : Nat → Bytes

/-- The client's calls that return, for a log at `start`. -/
inductive Uses (forbidden : Mark → Bool) (start : Nat) (size : Int) : Client μ → Client μ → Prop
  | read {c : Client μ} {s : BufSys (LogMem μ)} {sector : Nat} {data : Bytes}
      (home : ¬ logRegion start size sector) (word : sector < 4294967296)
      (returned : (bufMachine forbidden).run (bufRead sector) c.sys = .ok data s) :
      Uses forbidden start size c { c with sys := s, held := insert sector c.held }
  | logWrite {c : Client μ} {s : BufSys (LogMem μ)} {sector : Nat} {data : Bytes}
      (held : sector ∈ c.held) (inTrans : c.inTrans = true)
      (returned : (bufMachine forbidden).run (logWrite sector data) c.sys = .ok () s) :
      Uses forbidden start size c { c with sys := s, last := Function.update c.last sector data }
  | release {c : Client μ} {s : BufSys (LogMem μ)} {sector : Nat} (held : sector ∈ c.held)
      (returned : (bufMachine forbidden).run (bufRelease sector) c.sys = .ok () s) :
      Uses forbidden start size c { c with sys := s, held := c.held.erase sector }
  | begin {c : Client μ} {s : BufSys (LogMem μ)} (idle : c.inTrans = false)
      (returned : (bufMachine forbidden).run beginTrans c.sys = .ok () s) :
      Uses forbidden start size c { c with sys := s, inTrans := true }
  | commit {c : Client μ} {s : BufSys (LogMem μ)} (inTrans : c.inTrans = true)
      (returned : (bufMachine forbidden).run commitTrans c.sys = .ok () s) :
      Uses forbidden start size c { c with sys := s, inTrans := false }

/-- The clients of a kernel that was started on `disk`. -/
inductive Served (forbidden : Mark → Bool) (rest : μ) (disk : Nat → Bytes) : Client μ → Prop
  | boot {s : BufSys (LogMem μ)} (good : Recoverable (diskLog disk))
      (started : (bufMachine forbidden).run logInit (powerOn rest disk) = .ok () s) :
      Served forbidden rest disk ⟨s, ∅, false, s.disk⟩
  | call {c d : Client μ} (served : Served forbidden rest disk c)
      (uses : Uses forbidden (diskLog disk).start (diskLog disk).size c d) :
      Served forbidden rest disk d

/-- The client's expectations hold on an ideal cache that the real one implements. -/
structure Meets (start : Nat) (size : Int) (c : Client μ) (b : Ideal (LogMem μ)) : Prop where
  caches : Caches c.sys b
  log : LogState start size b
  held : b.held = c.held
  busy : b.mem.log.busy = c.inTrans
  content : ∀ sector, ¬ logRegion start size sector → b.content sector = c.last sector
  words : ∀ sector ∈ b.held, sector < 4294967296

section Client
variable {c d : Client μ} {b : Ideal (LogMem μ)}

/-- The step from a call on the ideal cache to the same call on the real one. -/
theorem Meets.call {α : Type} {p : BufProg μ α} {a : α} {s : BufSys (LogMem μ)}
    {Q : α → Ideal (LogMem μ) → Prop} (meets : Meets start size c b)
    (wp : (idealMachine forbidden).Wp p b Q Answers)
    (returned : (bufMachine forbidden).run p c.sys = .ok a s) : ∃ t, Q a t ∧ Caches s t := by
  obtain ⟨t, -, post, caches⟩ := (bufMachine_refines forbidden).of_ok (fun _ _ same => same)
    meets.caches wp (fun _ _ answers => answers) returned
  exact ⟨t, post, caches⟩

theorem Uses.meets (uses : Uses forbidden start size c d) (meets : Meets start size c b) :
    ∃ b', Meets start size d b' := by
  cases uses with
  | @read s sector data home word returned =>
    obtain ⟨t, ⟨-, rfl⟩, caches⟩ := meets.call (wp_read sector) returned
    refine ⟨_, caches, meets.log.hold home, congrArg (insert sector) meets.held, meets.busy,
      meets.content, fun other member => ?_⟩
    rcases Finset.mem_insert.mp member with rfl | old
    · exact word
    · exact meets.words other old
  | @logWrite s sector data held inTrans returned =>
    have inside : sector ∈ b.held := meets.held ▸ held
    obtain ⟨t, ⟨rfl, few, fits⟩, caches⟩ :=
      meets.call (wp_logWrite meets.log data inside (meets.busy.trans inTrans)) returned
    refine ⟨_, caches, meets.log.logged few fits (meets.log.outside sector inside)
      (meets.words sector inside), meets.held, meets.busy, fun other home => ?_, meets.words⟩
    rw [meets.log.logged_content fits home]
    by_cases same : other = sector
    · simp [same]
    · simpa [same] using meets.content other home
  | @release s sector held returned =>
    obtain ⟨t, rfl, caches⟩ := meets.call (wp_release (meets.held ▸ held)) returned
    refine ⟨_, caches, { meets.log with outside := fun other member => ?_ }, ?_, meets.busy,
      meets.content, fun other member => ?_⟩
    · exact meets.log.outside other (Finset.mem_of_mem_erase member)
    · exact congrArg (fun set => set.erase sector) meets.held
    · exact meets.words other (Finset.mem_of_mem_erase member)
  | begin idle returned =>
    obtain ⟨t, rfl, caches⟩ := meets.call wp_beginTrans returned
    exact ⟨_, caches, { meets.log with }, meets.held, rfl, meets.content, meets.words⟩
  | commit inTrans returned =>
    obtain ⟨t, committed, caches⟩ := meets.call (wp_commitTrans meets.log) returned
    refine ⟨t, caches, committed.log, committed.held.trans meets.held, committed.busy,
      fun sector home => ?_, fun sector member => ?_⟩
    · exact (committed.content sector home).trans (meets.content sector home)
    · exact meets.words sector (committed.held ▸ member)

variable {rest : μ} {disk : Nat → Bytes}

/-- After `log_init` nothing is logged and the disk has all contents. -/
theorem boot_meets {s : BufSys (LogMem μ)} (good : Recoverable (diskLog disk))
    (started : (bufMachine forbidden).run logInit (powerOn rest disk) = .ok () s) :
    ∃ b, Meets (diskLog disk).start (diskLog disk).size ⟨s, ∅, false, s.disk⟩ b := by
  obtain ⟨t, b, run, caches, final⟩ := @run_boot _ forbidden _ rest good
  rw [started] at run
  cases run
  have word : (diskLog disk).start < 4294967296 := uint32_lt _
  have same : b.content = b.disk := by
    rw [final]
    rfl
  have header : (b.disk (diskLog disk).start).get 0 4 = 0 := by
    rw [final]
    simp only [Ideal.stored, recoveryWrites, applyWrites_concat, Function.update_self]
    exact headerInto_n (Nat.zero_le _)
  have log : LogState (diskLog disk).start (diskLog disk).size b := by
    refine .of_empty ?_ ?_ word ?_ ?_ (fun t => by rw [same]) header ?_
    all_goals rw [final]
    · rfl
    · rfl
    · rfl
    · exact Finset.empty_sdiff _
    · rfl
  refine ⟨b, caches, log, ?_, ?_, fun sector _ => ?_, ?_⟩
  · rw [final]
    rfl
  · rw [final]
    rfl
  · rw [same, ← caches.disk]
  · rw [final]
    exact fun sector member => absurd member (Finset.notMem_empty _)

theorem Served.meets (served : Served forbidden rest disk c) :
    ∃ b, Meets (diskLog disk).start (diskLog disk).size c b := by
  induction served with
  | boot good started => exact boot_meets good started
  | call _ uses ih =>
    obtain ⟨b, meets⟩ := ih
    exact uses.meets meets

/-- Whatever the client did before, a read returns what it logged last for the sector, or what
was on disk; and after a commit no buffer is dirty and each valid one agrees with the disk. -/
theorem cache_coherent (forbidden : Mark → Bool) (rest : μ) (disk : Nat → Bytes) (c : Client μ)
    (served : Served forbidden rest disk c) :
    (∀ sector data s, ¬ inLog disk sector →
      (bufMachine forbidden).run (bufRead sector) c.sys = .ok data s → data = c.last sector) ∧
    (∀ s, (bufMachine forbidden).run commitTrans c.sys = .ok () s → ∀ x ∈ s.bufs,
      x.dirty = false ∧
      (x.valid = true → ∀ sector, x.sector = some sector → x.data = s.disk sector)) := by
  obtain ⟨b, meets⟩ := served.meets
  refine ⟨fun sector data s home returned => ?_, fun s returned x member => ?_⟩
  · obtain ⟨-, ⟨value, -⟩, -⟩ := meets.call (wp_read sector) returned
    exact value.trans (meets.content sector home)
  · obtain ⟨t, committed, caches⟩ := meets.call (wp_commitTrans meets.log) returned
    have clean : ∀ sector, sector ∉ t.dirty := by simp [committed.clean]
    refine ⟨?_, fun _ sector holds => ?_⟩
    · cases dirty : x.dirty with
      | false => rfl
      | true =>
        obtain ⟨sector, holds⟩ := caches.pinned x member (.inr dirty)
        exact absurd ((caches.dirty sector).mpr ⟨x, member, holds, dirty⟩) (clean sector)
    · rw [(caches.loaded x member sector holds).2, caches.clean sector (clean sector), caches.disk]

end Client

/-! ## A client of a small disk -/

def quiet : Mark → Bool := fun _ => false

/-- The client has read sector 3 in a transaction. -/
def tinyReader : Client Unit :=
  let begun := ((bufMachine quiet).run beginTrans tinyBoot).state
  ⟨((bufMachine quiet).run (bufRead 3) begun).state, {3}, true, tinyBoot.disk⟩

/-- The client has logged new contents of sector 3 and released it. -/
def tinyWriter : Client Unit :=
  let logged := ((bufMachine quiet).run (logWrite 3 fun _ => 7) tinyReader.sys).state
  ⟨((bufMachine quiet).run (bufRelease 3) logged).state, ∅, true,
    Function.update tinyBoot.disk 3 fun _ => 7⟩

theorem tinyWriter_served : Served quiet () tinyDisk tinyWriter := by
  have good : Recoverable (diskLog tinyDisk) := by
    have none : (diskLog tinyDisk).n = 0 := by decide
    exact ⟨by omega, fun i below => by omega, fun i below => by omega⟩
  have home : ¬ logRegion (diskLog tinyDisk).start (diskLog tinyDisk).size 3 := by decide
  obtain ⟨data, read⟩ := Outcome.ok_of_isSome (o := (bufMachine quiet).run (bufRead 3)
    ((bufMachine quiet).run beginTrans tinyBoot).state) (by decide)
  have boot : Served quiet () tinyDisk ⟨tinyBoot, ∅, false, tinyBoot.disk⟩ :=
    .boot good (Outcome.eq_ok_of_result (by decide))
  have begun := boot.call (.begin rfl (Outcome.eq_ok_of_result (by decide)))
  have reads := begun.call (.read home (by decide) read)
  have logged := reads.call (@Uses.logWrite _ quiet _ _ _ _ 3 (fun _ => 7)
    (Finset.mem_insert_self 3 ∅) rfl (Outcome.eq_ok_of_result (by decide)))
  exact logged.call (.release (Finset.mem_insert_self 3 ∅)
    (Outcome.eq_ok_of_result (by decide)))

theorem cache_coherent_tinyWriter :
    (∃ s, (bufMachine quiet).run (bufRead 3) tinyWriter.sys = .ok (fun _ => 7) s) ∧
    ∃ s, (bufMachine quiet).run commitTrans tinyWriter.sys = .ok () s ∧
      ∀ x ∈ s.bufs, x.dirty = false := by
  obtain ⟨reads, commits⟩ := cache_coherent quiet () tinyDisk tinyWriter tinyWriter_served
  have home : ¬ inLog tinyDisk 3 := by
    unfold inLog
    decide
  obtain ⟨data, read⟩ := Outcome.ok_of_isSome (o := (bufMachine quiet).run (bufRead 3) tinyWriter.sys)
    (by decide)
  have value : data = fun _ => 7 := reads 3 data _ home read
  subst value
  have commit := Outcome.eq_ok_of_result (o := (bufMachine quiet).run commitTrans tinyWriter.sys)
    (a := ()) (by decide)
  exact ⟨⟨_, read⟩, _, commit, fun x member => (commits _ commit x member).1⟩

end OsAudio.Fs

import OsAudio.Dev.Ide

/-!
# Errors of the drive

Calls of `bufcache_read` and `bufcache_release` of `kern/fs/bufcache.c` over the disk driver, where
the drive may report errors: `ide_intr` polls the status register in `ide_wait` before it takes the
data.  Each section under a lock is one step, and any number of calls are under way at a time.
-/
namespace OsAudio.Dev
open OsAudio.Lib

/-! ## The source -/

def ideBsy : Nat := 0x80
def ideDrdy : Nat := 0x40
def ideDf : Nat := 0x20
def ideErr : Nat := 0x01

def ready (r : Nat) : Bool := r &&& (ideBsy ||| ideDrdy) = ideDrdy

/-- `ide_wait` on the values that the status register takes in turn; `none` while it still polls. -/
def ideWait (checkerr : Bool) : List Nat → Option Int
  | [] => none
  | r :: rest =>
    if ready r then some (if checkerr && r &&& (ideDf ||| ideErr) ≠ 0 then -1 else 0)
    else ideWait checkerr rest

/-- Where a call has its buffer: before the test of `B_VALID`, in `ide_rw`, or back with the caller. -/
inductive Stage
  | testing
  | waiting
  | returned
  deriving DecidableEq

/-- A call of `bufcache_read` for a device and a sector. -/
inductive Phase (B : Type)
  | idle
  | getting (id : Nat × Nat)
  | has (stage : Stage) (id : Nat × Nat) (b : B)
  deriving DecidableEq

/-- The driver with its buffers, their list from the most recently used one on, and the calls. -/
structure Cache (T B δ : Type) where
  ide : Ide T B δ
  order : List B
  phase : T → Phase B

section Source
variable {T B δ : Type}

/-- `ide_intr` with the values of the status register and what the data register holds. -/
def ideIntrPolling [DecidableEq B] (s : Ide T B δ) (statuses : List Nat) (found : δ) : Option (Ide T B δ) :=
  match s.idequeue with
  | none => some s
  | some b =>
    if (s.buf b).dirty then some (ideIntr s found)
    else (ideWait true statuses).map fun r => ideIntr s (if 0 ≤ r then found else (s.buf b).data)

/-- `bufcache_get`: the buffer and its new content; `none` if it sleeps or panics. -/
def bufcacheGet (order : List B) (buf : B → Buf δ) (id : Nat × Nat) : Option (B × Buf δ) :=
  match order.find? fun b => (buf b).dev = id.1 ∧ (buf b).sector = id.2 with
  | some b => if (buf b).busy then none else some (b, { buf b with busy := true })
  | none => (order.reverse.find? fun b => !(buf b).busy && !(buf b).dirty).map fun b =>
      (b, { buf b with dev := id.1, sector := id.2, busy := true, valid := false, dirty := false })

variable [DecidableEq T] [DecidableEq B]

def Cache.setBuf (s : Cache T B δ) (b : B) (value : Buf δ) : Cache T B δ :=
  { s with ide := { s.ide with buf := Function.update s.ide.buf b value } }

def Cache.setPhase (s : Cache T B δ) (t : T) (phase : Phase B) : Cache T B δ :=
  { s with phase := Function.update s.phase t phase }

/-- The steps of the calls and of the drive.  The status register may take the values in `may` during
an interrupt; the drive has the data of the sector unless it reports an error. -/
inductive ReadStep [Fintype B] (havedisk1 : Bool) (may : List Nat → Prop) (s : Cache T B δ) : Cache T B δ → Prop
  | call (t : T) (id : Nat × Nat) (idle : s.phase t = .idle) :
      ReadStep havedisk1 may s (s.setPhase t (.getting id))
  | get (t : T) (id : Nat × Nat) (b : B) (value : Buf δ) (getting : s.phase t = .getting id)
      (got : bufcacheGet s.order s.ide.buf id = some (b, value)) :
      ReadStep havedisk1 may s ((s.setBuf b value).setPhase t (.has .testing id b))
  | hit (t : T) (id : Nat × Nat) (b : B) (testing : s.phase t = .has .testing id b)
      (valid : (s.ide.buf b).valid = true) : ReadStep havedisk1 may s (s.setPhase t (.has .returned id b))
  | rw (t : T) (id : Nat × Nat) (b : B) (ide : Ide T B δ) (testing : s.phase t = .has .testing id b)
      (invalid : (s.ide.buf b).valid = false) (queued : ideRw havedisk1 s.ide t b = some ide) :
      ReadStep havedisk1 may s ({ s with ide := ide }.setPhase t (.has .waiting id b))
  | wake (t : T) (id : Nat × Nat) (r : Request B δ) (waiting : s.phase t = .has .waiting id r.buf)
      (asks : s.ide.inside t = some r) (back : (retest s.ide t).inside t = none) :
      ReadStep havedisk1 may s ({ s with ide := retest s.ide t }.setPhase t (.has .returned id r.buf))
  | release (t : T) (id : Nat × Nat) (b : B) (returned : s.phase t = .has .returned id b) :
      ReadStep havedisk1 may s
        ({ s with order := b :: s.order.erase b }.setBuf b { s.ide.buf b with busy := false } |>.setPhase t .idle)
  | execute (c : Command δ) (rest : List (Command δ)) (first : s.ide.commands = c :: rest)
      (pending : c.found = none) : ReadStep havedisk1 may s { s with ide := execute s.ide c rest }
  | interrupt (c : Command δ) (rest : List (Command δ)) (statuses : List Nat) (found : δ) (ide : Ide T B δ)
      (first : s.ide.commands = c :: rest) (allowed : may statuses)
      (executed : c.found = some found ∨ ideWait true statuses = some (-1))
      (handled : ideIntrPolling { s.ide with commands := rest } statuses found = some ide) :
      ReadStep havedisk1 may s { s with ide := ide }

/-- The state after `bufcache_init`. -/
structure Boot (s : Cache T B δ) : Prop where
  quiet : Quiet s.ide
  flags : ∀ b, (s.ide.buf b).busy = false ∧ (s.ide.buf b).valid = false ∧ (s.ide.buf b).dirty = false
  idle : ∀ t, s.phase t = .idle

inductive ReadRun [Fintype B] (havedisk1 : Bool) (may : List Nat → Prop) : Cache T B δ → Prop
  | boot {s : Cache T B δ} (boot : Boot s) : ReadRun havedisk1 may s
  | step {s s' : Cache T B δ} : ReadRun havedisk1 may s → ReadStep havedisk1 may s s' → ReadRun havedisk1 may s'

/-- When the drive becomes ready, it reports no error. -/
def NoError (statuses : List Nat) : Prop :=
  ∀ r, statuses.find? ready = some r → r &&& (ideDf ||| ideErr) = 0

end Source

/-! ## The invariant -/

/-- The buffers are clean, what the drive has found is what the sector holds, and so is the data of a
valid buffer.  A call has the buffer to itself, and the buffer is for what the call asks for. -/
structure Sound {T B δ : Type} (s : Cache T B δ) (queue : List B) : Prop where
  ide : Inv False s.ide queue
  clean : ∀ b, (s.ide.buf b).dirty = false
  found : ∀ c ∈ s.ide.commands, ∀ v, c.found = some v → v = s.ide.disk c.address
  content : ∀ b, (s.ide.buf b).valid = true → (s.ide.buf b).data = s.ide.disk (s.ide.buf b).address
  owned : ∀ t stage id b, s.phase t = .has stage id b →
    (s.ide.buf b).busy = true ∧ (s.ide.buf b).dev = id.1 ∧ (s.ide.buf b).sector = id.2
  sole : ∀ t u stage stage' id id' b, s.phase t = .has stage id b → s.phase u = .has stage' id' b → t = u
  inside : ∀ t r, s.ide.inside t = some r → ∃ id, s.phase t = .has .waiting id r.buf
  returned : ∀ t id b, s.phase t = .has .returned id b → (s.ide.buf b).valid = true

section Invariant
variable {T B δ : Type} {s : Cache T B δ} {queue : List B}

theorem Sound.boot (boot : Boot s) : Sound s [] where
  ide := Inv.start boot.quiet
  clean b := (boot.flags b).2.2
  found := by simp [boot.quiet.commands]
  content := by simp [boot.flags]
  owned := by simp [boot.idle]
  sole := by simp [boot.idle]
  inside := by simp [boot.quiet.inside]
  returned := by simp [boot.idle]

theorem ideWait_noError {statuses : List Nat} (fine : NoError statuses) :
    ideWait true statuses = none ∨ ideWait true statuses = some 0 := by
  induction statuses with
  | nil => exact .inl rfl
  | cons r rest ih =>
    simp only [ideWait]
    split
    · next here => simp [fine r (by simp [here])]
    · next polls => exact ih fun q first => fine q (by simpa [polls] using first)

variable {id : Nat × Nat} {b : B} {t : T}

theorem bufcacheGet_spec {order : List B} {buf : B → Buf δ} {value : Buf δ}
    (got : bufcacheGet order buf id = some (b, value)) :
    (buf b).busy = false ∧ (value.busy = true ∧ value.dev = id.1 ∧ value.sector = id.2) ∧
      (value.dirty = true → (buf b).dirty = true) ∧
      (value.valid = true → (buf b).valid = true ∧ value.data = (buf b).data ∧ value.address = (buf b).address) := by
  unfold bufcacheGet at got
  split at got
  · next cached =>
    have same := List.find?_some cached
    split at got
    · cases got
    · next free =>
      obtain ⟨rfl, rfl⟩ := by simpa using got
      simp_all [Buf.address]
  · obtain ⟨x, recycled, equal⟩ := Option.map_eq_some_iff.mp got
    have free := List.find?_some recycled
    obtain ⟨rfl, rfl⟩ := by simpa using equal
    simp_all

/-- Nobody has a buffer that is not busy. -/
theorem Sound.unused (sound : Sound s queue) (free : (s.ide.buf b).busy = false) (u : T)
    (stage : Stage) (id : Nat × Nat) : s.phase u ≠ .has stage id b := by
  intro has
  have busy := (sound.owned u stage id b has).1
  simp [free] at busy

/-- A change to a buffer that no call has. -/
theorem Sound.setBuf [DecidableEq B] (sound : Sound s queue) {b : B} {value : Buf δ}
    (unused : ∀ u stage id, s.phase u ≠ .has stage id b) (clean : value.dirty = false)
    (content : value.valid = true → value.data = s.ide.disk value.address) : Sound (s.setBuf b value) queue := by
  have same : ∀ u stage id c, s.phase u = .has stage id c → (s.setBuf b value).ide.buf c = s.ide.buf c := by
    intro u stage id c has
    refine Function.update_of_ne ?_ ..
    rintro rfl
    exact unused u stage id has
  refine { sound with ide := sound.ide.touch value ?_, clean := ?_, content := ?_, owned := ?_, returned := ?_ }
  · rintro u r asks rfl
    obtain ⟨id, waiting⟩ := sound.inside u r asks
    exact unused u _ id waiting
  · intro c
    by_cases here : c = b
    · simp [Cache.setBuf, here, clean]
    · simp [Cache.setBuf, here, sound.clean c]
  · intro c
    by_cases here : c = b
    · simpa [Cache.setBuf, here] using content
    · simpa [Cache.setBuf, here] using sound.content c
  · intro u stage id c has
    rw [same u stage id c has]
    exact sound.owned u stage id c has
  · intro u id c has
    rw [same u _ id c has]
    exact sound.returned u id c has

/-- A call outside of `ide_rw` goes on with a buffer that no other call has, or without one. -/
theorem Sound.setPhase [DecidableEq T] (sound : Sound s queue) {phase : Phase B}
    (outside : s.ide.inside t = none)
    (has : ∀ stage id b, phase = .has stage id b →
      ((s.ide.buf b).busy = true ∧ (s.ide.buf b).dev = id.1 ∧ (s.ide.buf b).sector = id.2) ∧
      (∀ u stage' id', s.phase u = .has stage' id' b → u = t) ∧
      (stage = .returned → (s.ide.buf b).valid = true)) : Sound (s.setPhase t phase) queue := by
  have cases : ∀ u stage id b, (s.setPhase t phase).phase u = .has stage id b →
      u = t ∧ phase = .has stage id b ∨ u ≠ t ∧ s.phase u = .has stage id b := by
    intro u stage id b now
    by_cases here : u = t
    · subst here
      exact .inl ⟨rfl, by simpa [Cache.setPhase] using now⟩
    · exact .inr ⟨here, by simpa [Cache.setPhase, here] using now⟩
  refine { sound with owned := ?_, sole := ?_, inside := ?_, returned := ?_ }
  · intro u stage id b now
    rcases cases u stage id b now with ⟨-, new⟩ | ⟨-, old⟩
    · exact (has stage id b new).1
    · exact sound.owned u stage id b old
  · intro u v stage stage' id id' b now now'
    rcases cases u stage id b now with ⟨rfl, new⟩ | ⟨other, old⟩
    · rcases cases v stage' id' b now' with ⟨rfl, -⟩ | ⟨-, old'⟩
      · rfl
      · exact ((has stage id b new).2.1 v stage' id' old').symm
    · rcases cases v stage' id' b now' with ⟨rfl, new'⟩ | ⟨-, old'⟩
      · exact (has stage' id' b new').2.1 u stage id old
      · exact sound.sole _ _ _ _ _ _ _ old old'
  · intro u r asks
    have other : u ≠ t := by
      rintro rfl
      rw [show s.ide.inside u = _ from asks] at outside
      cases outside
    obtain ⟨id, waiting⟩ := sound.inside u r asks
    exact ⟨id, by simpa [Cache.setPhase, other] using waiting⟩
  · intro u id b now
    rcases cases u .returned id b now with ⟨-, new⟩ | ⟨-, old⟩
    · exact (has _ id b new).2.2 rfl
    · exact sound.returned u id b old

/-- A call that is not at the loop of `ide_rw` is not in `ide_rw`. -/
theorem Sound.outside (sound : Sound s queue) (elsewhere : ∀ id b, s.phase t ≠ .has .waiting id b) :
    s.ide.inside t = none := by
  by_contra inside
  obtain ⟨r, asks⟩ := Option.ne_none_iff_exists'.mp inside
  obtain ⟨id, waiting⟩ := sound.inside t r asks
  exact elsewhere id r.buf waiting

/-- The call goes on with the buffer it has. -/
theorem Sound.advance [DecidableEq T] (sound : Sound s queue) {stage stage' : Stage}
    (outside : s.ide.inside t = none) (has : s.phase t = .has stage id b)
    (valid : stage' = .returned → (s.ide.buf b).valid = true) :
    Sound (s.setPhase t (.has stage' id b)) queue := by
  refine sound.setPhase outside fun _ _ _ equal => ?_
  obtain ⟨rfl, rfl, rfl⟩ := by simpa using equal
  exact ⟨sound.owned t stage _ _ has, fun u _ _ other => sound.sole _ _ _ _ _ _ _ other has, valid⟩

/-- `ide_rw` appends the buffer of the call to the queue. -/
theorem Sound.rw [DecidableEq T] [DecidableEq B] [Fintype B] (sound : Sound s queue) {havedisk1 : Bool}
    {ide : Ide T B δ} (testing : s.phase t = .has .testing id b)
    (queued : ideRw havedisk1 s.ide t b = some ide) :
    Sound ({ s with ide := ide }.setPhase t (.has .waiting id b)) (queue ++ [b]) := by
  have out := sound.outside (t := t) (by simp [testing])
  have distinct : Distinct s.ide b := by
    rintro u r asks rfl
    obtain ⟨id', waiting⟩ := sound.inside u r asks
    obtain rfl := sound.sole u t _ _ _ _ _ waiting testing
    rw [testing] at waiting
    cases waiting
  have inv := sound.ide.rw out distinct False.elim queued
  have later : Sound (s.setPhase t (.has .waiting id b)) queue := sound.advance out testing (by simp)
  rw [ideRw_eq sound.ide.path sound.ide.nodup (sound.ide.new distinct) havedisk1 t] at queued
  split at queued
  · cases queued
  · obtain rfl := Option.some.inj queued
    refine { later with ide := inv, found := ?_, inside := ?_ }
    · intro c member v equal
      rcases List.mem_append.mp member with old | new
      · exact sound.found c old v equal
      · split at new
        · obtain rfl := List.mem_singleton.mp new
          cases equal
        · cases new
    · intro u r asks
      by_cases here : u = t
      · subst here
        obtain rfl := by simpa [Cache.setPhase] using asks
        exact ⟨id, by simp [Cache.setPhase]⟩
      · obtain ⟨id', waiting⟩ := sound.inside u r (by simpa [Cache.setPhase, here] using asks)
        exact ⟨id', by simpa [Cache.setPhase, here] using waiting⟩

/-- A call leaves the loop of `ide_rw`. -/
theorem Sound.wake [DecidableEq T] (sound : Sound s queue) {r : Request B δ}
    (waiting : s.phase t = .has .waiting id r.buf) (asks : s.ide.inside t = some r)
    (back : (retest s.ide t).inside t = none) :
    Sound ({ s with ide := retest s.ide t }.setPhase t (.has .returned id r.buf)) queue := by
  obtain ⟨clean, -, -⟩ := retest_returns asks back
  have inv := sound.ide.retest t
  have valid : (s.ide.buf r.buf).valid = true := by simp_all [Buf.clean]
  simp only [retest, asks, if_pos clean] at inv ⊢
  have left : Sound { s with ide := { s.ide with inside := Function.update s.ide.inside t none } } queue := by
    refine { sound with ide := inv, inside := fun u q stays => sound.inside u q ?_ }
    by_cases here : u = t
    · simp [here] at stays
    · simpa [here] using stays
  exact left.advance (by simp) waiting fun _ => valid

/-- The drive finds what the sector holds. -/
theorem Sound.execute (sound : Sound s queue) {c : Command δ} {rest : List (Command δ)}
    (first : s.ide.commands = c :: rest) : Sound { s with ide := execute s.ide c rest } queue := by
  obtain ⟨b, tail, rfl, rfl, -, write⟩ := sound.ide.command_eq first
  have reads : c.write = none := by simp [write, Buf.command, sound.clean b]
  have inv := sound.ide.execute first
  simp only [Dev.execute, reads] at inv ⊢
  refine { sound with ide := inv, found := ?_ }
  intro k member v equal
  obtain rfl := List.mem_singleton.mp member
  exact (Option.some.inj equal).symm

/-- Without an error, the handler takes the data of the sector. -/
theorem Sound.interrupt [DecidableEq B] (sound : Sound s queue) {c : Command δ} {rest : List (Command δ)}
    {statuses : List Nat} {v : δ} {ide : Ide T B δ} (first : s.ide.commands = c :: rest) (fine : NoError statuses)
    (executed : c.found = some v ∨ ideWait true statuses = some (-1))
    (handled : ideIntrPolling { s.ide with commands := rest } statuses v = some ide) :
    ∃ tail, Sound { s with ide := ide } tail := by
  obtain ⟨b, tail, rfl, rfl, address, -⟩ := sound.ide.command_eq first
  have head : s.ide.idequeue = some b := sound.ide.path.head_eq
  have polled : ideWait true statuses = some 0 := by
    rcases ideWait_noError fine with polls | done
    · simp [ideIntrPolling, head, sound.clean b, polls] at handled
    · exact done
  have result : ideIntr { s.ide with commands := [] } v = ide := by
    simpa [ideIntrPolling, head, sound.clean b, polled] using handled
  have found : c.found = some v := by simpa [polled] using executed
  obtain ⟨queue, inv⟩ := sound.ide.interrupt first found
  have after := ideIntr_eq (s := { s.ide with commands := [] }) sound.ide.path v
  rw [result] at inv after
  have same : ∀ x, x ≠ b → ide.buf x = s.ide.buf x := fun x other => by simp [after, other]
  have self : ide.buf b = { s.ide.buf b with data := v, valid := true } := by
    simp [after, Buf.complete, sound.clean b]
  refine ⟨queue, inv, ?_, ?_, ?_, ?_, sound.sole, ?_, ?_⟩
  · intro x
    by_cases here : x = b
    · simp [here, self, sound.clean b]
    · simp [same x here, sound.clean x]
  · intro k member w equal
    rw [after] at member
    obtain ⟨x, -, rfl⟩ := List.mem_map.mp member
    cases equal
  · intro x valid
    dsimp only at valid ⊢
    by_cases here : x = b
    · rw [here, self, after, sound.found c (by simp [first]) v found, address]
      rfl
    · rw [same x here] at valid ⊢
      rw [after]
      exact sound.content x valid
  · intro t stage id x has
    dsimp only
    by_cases here : x = b
    · rw [here, self]
      exact sound.owned t stage id b (here ▸ has)
    · rw [same x here]
      exact sound.owned t stage id x has
  · rw [after]
    exact sound.inside
  · intro t id x has
    dsimp only
    by_cases here : x = b
    · simp [here, self]
    · rw [same x here]
      exact sound.returned t id x has

end Invariant

/-! ## Every run -/

section Runs
variable {T B δ : Type} [DecidableEq T] [DecidableEq B] [Fintype B] {havedisk1 : Bool} {s : Cache T B δ}

theorem Sound.step {queue : List B} (sound : Sound s queue) {s' : Cache T B δ}
    (step : ReadStep havedisk1 NoError s s') : ∃ queue, Sound s' queue := by
  cases step with
  | call t id idle => exact ⟨queue, sound.setPhase (sound.outside (by simp [idle])) (by simp)⟩
  | get t id b value getting got =>
    obtain ⟨free, has, dirty, content⟩ := bufcacheGet_spec got
    have unused := sound.unused free
    have clean : value.dirty = false := by
      by_contra set
      simpa [sound.clean b] using dirty (by simpa using set)
    have changed : Sound (s.setBuf b value) queue := by
      refine sound.setBuf unused clean fun valid => ?_
      obtain ⟨old, data, address⟩ := content valid
      rw [data, address]
      exact sound.content b old
    refine ⟨queue, changed.setPhase (sound.outside (by simp [getting])) fun _ _ _ equal => ?_⟩
    obtain ⟨rfl, rfl, rfl⟩ := by simpa using equal
    refine ⟨by simpa [Cache.setBuf] using has, fun u stage id' other => absurd other (unused u stage id'), by simp⟩
  | hit t id b testing valid =>
    exact ⟨queue, sound.advance (sound.outside (by simp [testing])) testing fun _ => valid⟩
  | rw t id b ide testing invalid queued => exact ⟨_, sound.rw testing queued⟩
  | wake t id r waiting asks back => exact ⟨queue, sound.wake waiting asks back⟩
  | release t id b returned =>
    have idle : Sound (s.setPhase t .idle) queue :=
      sound.setPhase (sound.outside (by simp [returned])) (by simp)
    have unused : ∀ u stage id', (s.setPhase t .idle).phase u ≠ .has stage id' b := by
      intro u stage id' has
      by_cases here : u = t
      · simp [Cache.setPhase, here] at has
      · exact here (sound.sole u t _ _ _ _ b (by simpa [Cache.setPhase, here] using has) returned)
    have freed := @Sound.setBuf _ _ _ _ _ _ idle b { s.ide.buf b with busy := false } unused (sound.clean b)
      (sound.content b)
    exact ⟨queue, { freed with }⟩
  | execute c rest first pending => exact ⟨queue, sound.execute first⟩
  | interrupt c rest statuses found ide first allowed executed handled =>
    exact sound.interrupt first allowed executed handled

/-- While the drive reports no error, every valid buffer holds the contents of its sector, and
`bufcache_read` returns a valid buffer for the device and the sector it was asked for. -/
theorem reads_faithful (havedisk1 : Bool) (s : Cache T B δ) (run : ReadRun havedisk1 NoError s) :
    (∀ b, (s.ide.buf b).valid = true → (s.ide.buf b).data = s.ide.disk (s.ide.buf b).address) ∧
    ∀ t id b, s.phase t = .has .returned id b →
      ((s.ide.buf b).dev, (s.ide.buf b).sector) = id ∧ (s.ide.buf b).valid = true ∧
      (s.ide.buf b).data = s.ide.disk (s.ide.buf b).address := by
  have sound : ∃ queue, Sound s queue := by
    induction run with
    | boot boot => exact ⟨[], Sound.boot boot⟩
    | step _ step ih =>
      obtain ⟨queue, sound⟩ := ih
      exact sound.step step
  obtain ⟨queue, sound⟩ := sound
  refine ⟨sound.content, fun t id b returned => ?_⟩
  obtain ⟨-, dev, sector⟩ := sound.owned t _ id b returned
  have valid := sound.returned t id b returned
  exact ⟨Prod.ext dev sector, valid, sound.content b valid⟩

end Runs

/-- A cache of one buffer after `bufcache_init`; every sector holds 7. -/
def oneBuffer : Cache Unit Unit Nat where
  ide := ⟨fun _ => ⟨4294967295, 0, false, false, false, 0⟩, fun _ => none, none, fun _ => 7, [],
    fun _ => none, [], [], []⟩
  order := [()]
  phase := fun _ => .idle

/-- Sector 5 is to be read. -/
def readQueued : Cache Unit Unit Nat :=
  let s := oneBuffer.setBuf () ⟨0, 5, true, false, false, 0⟩
  { s with ide := (ideRw false s.ide () ()).getD s.ide }.setPhase () (.has .waiting (0, 5) ())

/-- The drive has read the sector and raised its interrupt. -/
def readFinished (statuses : List Nat) : Cache Unit Unit Nat :=
  let ide := execute readQueued.ide ⟨(0, 5), none, none⟩ []
  { readQueued with ide := (ideIntrPolling { ide with commands := [] } statuses 7).getD ide }

/-- The call has returned. -/
def readReturned (statuses : List Nat) : Cache Unit Unit Nat :=
  { readFinished statuses with ide := retest (readFinished statuses).ide () }.setPhase ()
    (.has .returned (0, 5) ())

theorem readReturned_run {may : List Nat → Prop} {statuses : List Nat}
    (status : statuses = [0x40] ∨ statuses = [0x41]) (allowed : may statuses) :
    ReadRun false may (readReturned statuses) := by
  have boot : Boot oneBuffer := ⟨⟨rfl, rfl, fun _ => rfl, rfl, rfl, rfl⟩, fun _ => ⟨rfl, rfl, rfl⟩, fun _ => rfl⟩
  have queued : ReadRun false may readQueued := by
    refine .step (.step (.step (.boot boot) (.call () (0, 5) rfl)) (.get () (0, 5) () _ rfl rfl)) ?_
    exact .rw () (0, 5) () _ rfl rfl rfl
  have executed := ReadRun.step queued (.execute ⟨(0, 5), none, none⟩ [] rfl rfl)
  have finished : ReadRun false may (readFinished statuses) := by
    refine .step executed ?_
    rcases status with rfl | rfl <;>
      exact .interrupt ⟨(0, 5), none, some 7⟩ [] _ 7 _ rfl allowed (.inl rfl) rfl
  refine .step finished ?_
  rcases status with rfl | rfl <;> exact .wake () (0, 5) ⟨(), false, 0⟩ rfl rfl rfl

/-- A read without an error returns what the sector holds. -/
theorem readReturned_faithful : ReadRun false NoError (readReturned [0x40]) ∧
    ((readReturned [0x40]).ide.buf ()).data = (readReturned [0x40]).ide.disk (0, 5) := by
  have run : ReadRun false NoError (readReturned [0x40]) :=
    readReturned_run (.inl rfl) fun r first => by
      obtain rfl := by simpa [ready, ideBsy, ideDrdy] using first
      rfl
  exact ⟨run, ((reads_faithful false _ run).2 () (0, 5) () rfl).2.2⟩

/-- The drive reports an error, and `bufcache_read` returns a valid buffer with what was in it. -/
theorem failedRead_returned : ReadRun false (fun _ => True) (readReturned [0x41]) ∧
    (readReturned [0x41]).phase () = .has .returned (0, 5) () ∧
    ((readReturned [0x41]).ide.buf ()).valid = true ∧
    ((readReturned [0x41]).ide.buf ()).data ≠
      (readReturned [0x41]).ide.disk ((readReturned [0x41]).ide.buf ()).address :=
  ⟨readReturned_run (.inr rfl) trivial, rfl, rfl, by decide⟩

end OsAudio.Dev

import OsAudio.Lib.LinkedList

/-!
# The disk driver

`ide_rw`, `ide_start` and `ide_intr` of `kern/dev/disk/ide.c`, called by any number of threads
and by the completion interrupts of the drive.  Each section under `ide_lk` is one step.  The
drive executes its commands one after the other and then raises one interrupt for each; it
reports no error.  A thread that sleeps in `ide_rw` may test the flags of its buffer again at
any time, so a wakeup meant for another thread makes no difference.

A state also records the requests in the order in which they were queued, started and
finished, and what each thread in `ide_rw` asked for.
-/
namespace OsAudio.Dev
open OsAudio.Lib
open Function (update update_self update_of_ne)

/-! ## The source -/

structure Buf (δ : Type) where
  dev : Nat
  sector : Nat
  busy : Bool
  valid : Bool
  dirty : Bool
  data : δ

/-- The drive and the sector on it that `ide_start` puts into the registers. -/
def Buf.address {δ : Type} (b : Buf δ) : Nat × Nat :=
  (b.dev % 2,
    b.sector % 256 + 256 * (b.sector / 256 % 256) + 65536 * (b.sector / 65536 % 256) +
      16777216 * (b.sector / 16777216 % 16))

/-- The test `(b->flags & (B_VALID|B_DIRTY)) == B_VALID`. -/
def Buf.clean {δ : Type} (b : Buf δ) : Bool := b.valid && !b.dirty

/-- A command the drive was given and whose interrupt was not taken yet: a write with its data,
or a read.  `found` is the content of the sector once the command is executed. -/
structure Command (δ : Type) where
  address : Nat × Nat
  write : Option δ
  found : Option δ
  deriving DecidableEq

/-- A call of `ide_rw`: whether it is to write, and the data of the buffer at the call. -/
structure Request (B δ : Type) where
  buf : B
  write : Bool
  data : δ

structure Ide (T B δ : Type) where
  buf : B → Buf δ
  qnext : B → Option B
  idequeue : Option B
  disk : Nat × Nat → δ
  commands : List (Command δ)
  inside : T → Option (Request B δ)
  enqueued : List B
  started : List B
  finished : List B

section Source
variable {T B δ : Type}

/-- The command `ide_start` gives to the drive. -/
def Buf.command (b : Buf δ) : Command δ where
  address := b.address
  write := if b.dirty then some b.data else none
  found := none

def ideStart (s : Ide T B δ) (b : B) : Ide T B δ :=
  { s with
    commands := s.commands ++ [(s.buf b).command]
    started := s.started ++ [b] }

/-- `*pp = b` and the start of the disk, where `pp` is the link of `owner` or the head. -/
def enqueue [DecidableEq B] (s : Ide T B δ) (b : B) (owner : Option B) : Ide T B δ :=
  let (qnext, idequeue) := linkAt s.qnext s.idequeue owner b
  let s := { s with qnext := qnext, idequeue := idequeue, enqueued := s.enqueued ++ [b] }
  if s.idequeue = some b then ideStart s b else s

/-- `ide_rw` until it sleeps; `none` if it panics, or if the queue has no end. -/
def ideRw [DecidableEq T] [DecidableEq B] [Fintype B] (havedisk1 : Bool) (s : Ide T B δ) (t : T)
    (b : B) : Option (Ide T B δ) :=
  if (s.buf b).busy = false then none
  else if (s.buf b).clean then none
  else if (s.buf b).dev ≠ 0 ∧ havedisk1 = false then none
  else
    let request : Request B δ := ⟨b, (s.buf b).dirty, (s.buf b).data⟩
    let s := { s with
      qnext := update s.qnext b none
      inside := update s.inside t (some request) }
    (findEnd s.qnext (Fintype.card B + 1) none s.idequeue).map (enqueue s b)

/-- The thread tests the flags of its buffer and returns from `ide_rw`, or sleeps on. -/
def retest [DecidableEq T] (s : Ide T B δ) (t : T) : Ide T B δ :=
  match s.inside t with
  | none => s
  | some r => if (s.buf r.buf).clean then { s with inside := update s.inside t none } else s

/-- `ide_intr`; `found` is what the data register of the drive holds. -/
def ideIntr [DecidableEq B] (s : Ide T B δ) (found : δ) : Ide T B δ :=
  match s.idequeue with
  | none => s
  | some b =>
    let old := s.buf b
    let data := if old.dirty then old.data else found
    let s := { s with
      idequeue := s.qnext b
      buf := update s.buf b { old with data := data, valid := true, dirty := false }
      finished := s.finished ++ [b] }
    match s.idequeue with
    | none => s
    | some next => ideStart s next

/-- The drive executes its first command. -/
def execute (s : Ide T B δ) (c : Command δ) (rest : List (Command δ)) : Ide T B δ :=
  match c.write with
  | some data =>
    { s with
      disk := update s.disk c.address data
      commands := { c with found := some data } :: rest }
  | none => { s with commands := { c with found := some (s.disk c.address) } :: rest }

/-- A thread calls `ide_rw` under the condition `may`, or goes on in it; the drive executes a
command or raises the interrupt of one; or somebody changes a buffer that is in no request. -/
inductive Step [DecidableEq T] [DecidableEq B] [Fintype B] (havedisk1 : Bool)
    (may : Ide T B δ → B → Prop) (s : Ide T B δ) : Ide T B δ → Prop
  | rw {s' : Ide T B δ} (t : T) (b : B) (out : s.inside t = none) (allowed : may s b)
      (queued : ideRw havedisk1 s t b = some s') : Step havedisk1 may s s'
  | retest (t : T) : Step havedisk1 may s (retest s t)
  | execute (c : Command δ) (rest : List (Command δ)) (first : s.commands = c :: rest)
      (pending : c.found = none) : Step havedisk1 may s (execute s c rest)
  | interrupt (c : Command δ) (rest : List (Command δ)) (found : δ)
      (first : s.commands = c :: rest) (executed : c.found = some found) :
      Step havedisk1 may s (ideIntr { s with commands := rest } found)
  | touch (b : B) (value : Buf δ) (unused : ∀ t r, s.inside t = some r → r.buf ≠ b) :
      Step havedisk1 may s { s with buf := update s.buf b value }

/-- Nothing is queued, started or asked for. -/
structure Quiet (s : Ide T B δ) : Prop where
  idequeue : s.idequeue = none
  commands : s.commands = []
  inside : ∀ t, s.inside t = none
  enqueued : s.enqueued = []
  started : s.started = []
  finished : s.finished = []

inductive Reach [DecidableEq T] [DecidableEq B] [Fintype B] (havedisk1 : Bool)
    (may : Ide T B δ → B → Prop) : Ide T B δ → Prop
  | start {s : Ide T B δ} (quiet : Quiet s) : Reach havedisk1 may s
  | step {s s' : Ide T B δ} : Reach havedisk1 may s → Step havedisk1 may s s' →
      Reach havedisk1 may s'

/-- The buffer is in no other call of `ide_rw`. -/
def Distinct (s : Ide T B δ) (b : B) : Prop :=
  ∀ t r, s.inside t = some r → r.buf ≠ b

/-- Nor is another buffer for the same sector. -/
def Apart (s : Ide T B δ) (b : B) : Prop :=
  ∀ t r, s.inside t = some r → r.buf ≠ b ∧ (s.buf r.buf).address ≠ (s.buf b).address

end Source

/-! ## The invariant -/

/-- The buffers of `queue` are linked from `idequeue` on, in the order of the requests; those
before them are finished, and the first one is started.  Its command is the only one of the
drive.  The buffers in the queue are as they were when `ide_rw` was called, and the others of
the threads in `ide_rw` are clean.  If `sole`, the requests are for different sectors, and
what the drive or the interrupt handler has done is still there. -/
structure Inv {T B δ : Type} (sole : Prop) (s : Ide T B δ) (queue : List B) : Prop where
  path : ListSeg s.qnext s.idequeue queue
  nodup : queue.Nodup
  enqueued : s.enqueued = s.finished ++ queue
  started : s.started = s.finished ++ queue.take 1
  commands : s.commands.map (fun c => { c with found := none }) =
    (queue.take 1).map fun b => (s.buf b).command
  owner : ∀ t u r q, s.inside t = some r → s.inside u = some q → r.buf = q.buf → t = u
  asked : ∀ b ∈ queue, ∃ t r, s.inside t = some r ∧ r.buf = b
  pending : ∀ t r, s.inside t = some r → r.buf ∈ queue →
    (s.buf r.buf).clean = false ∧ (s.buf r.buf).dirty = r.write ∧ (s.buf r.buf).data = r.data
  settled : ∀ t r, s.inside t = some r → r.buf ∉ queue → (s.buf r.buf).clean = true
  apart : sole → ∀ t u r q, s.inside t = some r → s.inside u = some q →
    (s.buf r.buf).address = (s.buf q.buf).address → t = u
  found : sole → ∀ b c v, queue.head? = some b → c ∈ s.commands → c.found = some v →
    s.disk (s.buf b).address = v ∧ ((s.buf b).dirty = true → v = (s.buf b).data)
  result : sole → ∀ t r, s.inside t = some r → r.buf ∉ queue →
    if r.write then s.disk (s.buf r.buf).address = r.data
    else (s.buf r.buf).data = s.disk (s.buf r.buf).address

section Invariant
variable {T B δ : Type} {sole : Prop} {s : Ide T B δ} {queue : List B}

theorem Inv.start (quiet : Quiet s) : Inv sole s [] := by
  obtain ⟨idequeue, commands, inside, enqueued, started, finished⟩ := quiet
  constructor <;> simp_all [ListSeg]

variable {c : Command δ} {rest : List (Command δ)} {b : B}

section
variable (inv : Inv sole s queue)
include inv

/-- The drive has at most one command, that of the head of the queue. -/
theorem Inv.command_eq (first : s.commands = c :: rest) :
    ∃ b tail, queue = b :: tail ∧ rest = [] ∧ c.address = (s.buf b).address ∧
      c.write = (s.buf b).command.write := by
  have equal := inv.commands
  rw [first] at equal
  cases queue with
  | nil => simp at equal
  | cons b tail =>
    obtain ⟨same, none_left⟩ := List.cons.inj equal
    have address := congrArg Command.address same
    have write := congrArg Command.write same
    refine ⟨b, tail, rfl, ?_, address, write⟩
    simpa using none_left

theorem Inv.retest [DecidableEq T] (t : T) : Inv sole (retest s t) queue := by
  unfold Dev.retest
  cases asks : s.inside t with
  | none => exact inv
  | some r =>
    dsimp only
    split_ifs with clean
    · -- The buffer is not in the queue, so nobody in the queue loses its thread.
      have left : ∀ u q, update s.inside t none u = some q → s.inside u = some q ∧ u ≠ t := by
        intro u q stays
        by_cases equal : u = t
        · simp [equal] at stays
        · exact ⟨by simpa [equal] using stays, equal⟩
      have done : r.buf ∉ queue := by
        intro member
        have dirty := (inv.pending t r asks member).1
        simp [clean] at dirty
      refine { inv with
        owner := fun u v q p first second => inv.owner u v q p (left u q first).1 (left v p second).1
        asked := fun b member => ?_
        pending := fun u q stays => inv.pending u q (left u q stays).1
        settled := fun u q stays => inv.settled u q (left u q stays).1
        apart := fun alone u v q p first second =>
          inv.apart alone u v q p (left u q first).1 (left v p second).1
        result := fun alone u q stays => inv.result alone u q (left u q stays).1 }
      obtain ⟨u, q, asks', rfl⟩ := inv.asked b member
      have other : u ≠ t := by
        rintro rfl
        rw [asks] at asks'
        obtain rfl := Option.some.inj asks'
        exact done member
      exact ⟨u, q, by simpa [other] using asks', rfl⟩
    · exact inv

/-- The command of the head of the queue is executed, with `v` in its sector afterwards. -/
theorem Inv.executed (first : s.commands = c :: rest) {disk : Nat × Nat → δ} {v : δ}
    (others : ∀ a, a ≠ c.address → disk a = s.disk a) (stored : disk c.address = v)
    (written : ∀ data, c.write = some data → v = data) :
    Inv sole { s with disk := disk, commands := { c with found := some v } :: rest } queue := by
  obtain ⟨b, tail, rfl, rfl, address, write⟩ := inv.command_eq first
  -- The other requests are for other sectors.
  have elsewhere : sole → ∀ t r, s.inside t = some r → r.buf ∉ b :: tail →
      (s.buf r.buf).address ≠ c.address := by
    intro alone t r asks outside equal
    obtain ⟨u, q, asks', rfl⟩ := inv.asked b (by simp)
    obtain rfl := inv.apart alone t u r q asks asks' (equal.trans address)
    rw [asks] at asks'
    obtain rfl := Option.some.inj asks'
    exact outside (by simp)
  refine { inv with commands := ?_, found := ?_, result := ?_ }
  · have commands := inv.commands
    rwa [first] at commands
  · intro alone b' k w head member found
    obtain rfl := Option.some.inj head
    obtain rfl := List.mem_singleton.mp member
    obtain rfl := Option.some.inj found
    refine ⟨address ▸ stored, fun dirty => written _ ?_⟩
    rw [write]
    exact if_pos dirty
  · intro alone t r asks outside
    dsimp only
    rw [others _ (elsewhere alone t r asks outside)]
    exact inv.result alone t r asks outside

theorem Inv.execute (first : s.commands = c :: rest) : Inv sole (execute s c rest) queue := by
  unfold Dev.execute
  split
  · rename_i data writes
    apply inv.executed first
    · exact fun a other => update_of_ne other _ _
    · exact update_self _ _ _
    · intro stored equal
      rw [writes] at equal
      exact Option.some.inj equal
  · rename_i reads
    apply inv.executed first
    · exact fun _ _ => rfl
    · rfl
    · intro stored equal
      rw [reads] at equal
      cases equal

/-- A buffer in no request is not in the queue. -/
theorem Inv.new (distinct : Distinct s b) : b ∉ queue := by
  intro member
  obtain ⟨u, r, asks, same⟩ := inv.asked b member
  exact distinct u r asks same

end

variable [DecidableEq B]

/-- A change to a buffer that is in no request. -/
theorem Inv.touch (inv : Inv sole s queue) (value : Buf δ)
    (unused : ∀ t r, s.inside t = some r → r.buf ≠ b) :
    Inv sole { s with buf := update s.buf b value } queue := by
  have same : ∀ t r, s.inside t = some r → update s.buf b value r.buf = s.buf r.buf :=
    fun t r asks => update_of_ne (unused t r asks) _ _
  have queued : ∀ c ∈ queue, update s.buf b value c = s.buf c := by
    intro c member
    obtain ⟨t, r, asks, rfl⟩ := inv.asked c member
    exact same t r asks
  refine { inv with
    commands := ?_, pending := ?_, settled := ?_, apart := ?_, found := ?_, result := ?_ }
  · refine inv.commands.trans (List.map_congr_left fun c member => ?_)
    dsimp only
    rw [queued c (List.mem_of_mem_take member)]
  · intro t r asks
    dsimp only
    rw [same t r asks]
    exact inv.pending t r asks
  · intro t r asks
    dsimp only
    rw [same t r asks]
    exact inv.settled t r asks
  · intro alone t u r q first second
    dsimp only
    rw [same t r first, same u q second]
    exact inv.apart alone t u r q first second
  · intro alone c k v head
    dsimp only
    rw [queued c (List.mem_of_head? head)]
    exact inv.found alone c k v head
  · intro alone t r asks
    dsimp only
    rw [same t r asks]
    exact inv.result alone t r asks

/-- What the interrupt handler makes of the buffer. -/
def Buf.complete (old : Buf δ) (v : δ) : Buf δ :=
  { old with data := if old.dirty then old.data else v, valid := true, dirty := false }

/-- The interrupt handler takes the head off the queue and starts the next request. -/
theorem ideIntr_eq {tail : List B} (path : ListSeg s.qnext s.idequeue (b :: tail)) (v : δ) :
    ideIntr s v = { s with
      buf := update s.buf b ((s.buf b).complete v)
      idequeue := s.qnext b
      finished := s.finished ++ [b]
      commands := s.commands ++ (tail.take 1).map fun x => (update s.buf b ((s.buf b).complete v) x).command
      started := s.started ++ tail.take 1 } := by
  obtain ⟨head, linked⟩ := path
  unfold ideIntr
  cases tail with
  | nil =>
    have none_left : s.qnext b = none := linked
    simp [head, none_left, Buf.complete]
  | cons x rest =>
    have next : s.qnext b = some x := linked.1
    simp [head, next, ideStart, Buf.complete]

theorem Inv.interrupt (inv : Inv sole s queue) {v : δ}
    (first : s.commands = c :: rest) (executed : c.found = some v) :
    ∃ tail, Inv sole (ideIntr { s with commands := rest } v) tail := by
  obtain ⟨b, tail, rfl, rfl, -, -⟩ := inv.command_eq first
  obtain ⟨fresh, nodup⟩ := List.nodup_cons.mp inv.nodup
  refine ⟨tail, ?_⟩
  -- The handler changes flags and data of the head only.
  obtain ⟨after, changed⟩ : ∃ after, update s.buf b ((s.buf b).complete v) = after := ⟨_, rfl⟩
  have same : ∀ x, x ≠ b → after x = s.buf x := fun x other => changed ▸ update_of_ne other _ _
  have self : after b = (s.buf b).complete v := changed ▸ update_self _ _ _
  have address : ∀ x, (after x).address = (s.buf x).address := by
    intro x
    by_cases here : x = b
    · subst here
      rw [self]
      rfl
    · rw [same x here]
  rw [ideIntr_eq (s := { s with commands := [] }) inv.path]
  dsimp only
  rw [changed]
  constructor
  · exact inv.path.2
  · exact nodup
  · simp [inv.enqueued]
  · simp [inv.started]
  · simp [Buf.command, Function.comp_def]
  · exact inv.owner
  · exact fun x member => inv.asked x (by simp [member])
  · intro t r asks member
    dsimp only
    rw [same r.buf fun equal => fresh (equal ▸ member)]
    exact inv.pending t r asks (by simp [member])
  · intro t r asks outside
    dsimp only
    by_cases here : r.buf = b
    · rw [here, self]
      rfl
    · rw [same r.buf here]
      exact inv.settled t r asks (by simp [here, outside])
  · intro alone t u r q asks asks'
    dsimp only
    rw [address, address]
    exact inv.apart alone t u r q asks asks'
  · intro alone x k w _ member found
    obtain ⟨y, -, rfl⟩ := List.mem_map.mp member
    cases found
  · intro alone t r asks outside
    dsimp only
    rw [address]
    by_cases here : r.buf = b
    · obtain ⟨stored, written⟩ := inv.found alone b c v rfl (by simp [first]) executed
      obtain ⟨-, dirty, data⟩ := inv.pending t r asks (by simp [here])
      rw [here] at dirty data ⊢
      rw [self, ← dirty, stored]
      split_ifs with writes
      · exact (written writes).trans data
      · exact if_neg writes
    · rw [same r.buf here]
      exact inv.result alone t r asks (by simp [here, outside])

variable [DecidableEq T] [Fintype B]

/-- `ide_rw` finds the end of the queue and appends the buffer. -/
theorem ideRw_eq (path : ListSeg s.qnext s.idequeue queue) (nodup : queue.Nodup) (new : b ∉ queue)
    (havedisk1 : Bool) (t : T) :
    ideRw havedisk1 s t b =
      if (s.buf b).busy = false ∨ (s.buf b).clean ∨ (s.buf b).dev ≠ 0 ∧ havedisk1 = false then none
      else
        let linked := linkAt (update s.qnext b none) s.idequeue queue.getLast? b
        some { s with
          qnext := linked.1
          idequeue := linked.2
          inside := update s.inside t (some ⟨b, (s.buf b).dirty, (s.buf b).data⟩)
          enqueued := s.enqueued ++ [b]
          commands := s.commands ++ (if queue = [] then [(s.buf b).command] else [])
          started := s.started ++ (if queue = [] then [b] else []) } := by
  have ends := findEnd_path (path.relink new none) (Nat.lt_succ_of_le nodup.length_le_card) none
  unfold ideRw
  by_cases busy : (s.buf b).busy = false
  · simp [busy]
  · by_cases clean : (s.buf b).clean
    · simp [busy, clean]
    · by_cases absent : (s.buf b).dev ≠ 0 ∧ havedisk1 = false
      · simp [busy, clean, absent]
      · rw [if_neg busy, if_neg clean, if_neg absent, if_neg (by simp_all)]
        dsimp only
        rw [ends]
        simp only [Option.map_some, Option.or_none, enqueue]
        cases queue with
        | nil => simp [linkAt, ideStart]
        | cons x rest =>
          have head : s.idequeue = some x := path.1
          have other : x ≠ b := fun equal => new (by simp [equal])
          have last : (x :: rest).getLast? = some ((x :: rest).getLast (by simp)) :=
            List.getLast?_eq_some_getLast (by simp)
          rw [last]
          simp [linkAt, head, other]

theorem Inv.rw (inv : Inv sole s queue) {havedisk1 : Bool} {t : T} {s' : Ide T B δ}
    (out : s.inside t = none) (distinct : Distinct s b) (apart : sole → Apart s b)
    (queued : ideRw havedisk1 s t b = some s') : Inv sole s' (queue ++ [b]) := by
  have new := inv.new distinct
  rw [ideRw_eq inv.path inv.nodup new havedisk1 t] at queued
  by_cases fails : (s.buf b).busy = false ∨ (s.buf b).clean ∨ (s.buf b).dev ≠ 0 ∧ havedisk1 = false
  · rw [if_pos fails] at queued
    cases queued
  rw [if_neg fails] at queued
  obtain rfl := Option.some.inj queued
  have dirty : (s.buf b).clean = false := by
    by_contra clean
    exact fails (.inr (.inl (by simpa using clean)))
  let request : Request B δ := ⟨b, (s.buf b).dirty, (s.buf b).data⟩
  -- A thread in `ide_rw` is the new one, or was there before with another buffer.
  have asks : ∀ u r, update s.inside t (some request) u = some r →
      u = t ∧ r = request ∨ s.inside u = some r ∧ u ≠ t ∧ r.buf ≠ b := by
    intro u r stored
    by_cases equal : u = t
    · subst equal
      exact .inl ⟨rfl, by simpa using stored.symm⟩
    · have before : s.inside u = some r := by simpa [equal] using stored
      exact .inr ⟨before, equal, distinct u r before⟩
  constructor
  · exact (inv.path.relink new none).append inv.nodup new (update_self _ _ _)
  · exact List.nodup_append.mpr ⟨inv.nodup, by simp, by
      intro x member y single equal
      exact new (by simpa [equal, List.mem_singleton.mp single] using member)⟩
  · simp [inv.enqueued]
  · cases queue <;> simp [inv.started]
  · have commands := inv.commands
    cases queue with
    | nil => simpa [Buf.command] using commands
    | cons x rest => simpa using commands
  · intro u v r q first second same
    obtain ⟨rfl, rfl⟩ | ⟨before, -, other⟩ := asks u r first
    · obtain ⟨rfl, -⟩ | ⟨-, -, other⟩ := asks v q second
      · rfl
      · exact absurd same.symm other
    · obtain ⟨rfl, rfl⟩ | ⟨before', -, -⟩ := asks v q second
      · exact absurd same other
      · exact inv.owner u v r q before before' same
  · intro x member
    obtain old | single := List.mem_append.mp member
    · obtain ⟨u, r, before, same⟩ := inv.asked x old
      have other : u ≠ t := by
        rintro rfl
        rw [out] at before
        cases before
      exact ⟨u, r, by simpa [other] using before, same⟩
    · exact ⟨t, request, by simp [request], (List.mem_singleton.mp single).symm⟩
  · intro u r stored member
    obtain ⟨rfl, rfl⟩ | ⟨before, -, other⟩ := asks u r stored
    · exact ⟨dirty, rfl, rfl⟩
    · exact inv.pending u r before (by simpa [other] using member)
  · intro u r stored outside
    obtain ⟨rfl, rfl⟩ | ⟨before, -, other⟩ := asks u r stored
    · exact absurd (by simp [request]) outside
    · exact inv.settled u r before fun member => outside (by simp [member])
  · intro alone u v r q first second same
    obtain ⟨rfl, rfl⟩ | ⟨before, -, -⟩ := asks u r first
    · obtain ⟨rfl, -⟩ | ⟨before, -, -⟩ := asks v q second
      · rfl
      · exact absurd same.symm (apart alone v q before).2
    · obtain ⟨rfl, rfl⟩ | ⟨before', -, -⟩ := asks v q second
      · exact absurd same (apart alone u r before).2
      · exact inv.apart alone u v r q before before' same
  · intro alone x k v head member found
    cases queue with
    | nil =>
      have none_left : s.commands = [] := by simpa using inv.commands
      simp only [none_left, if_pos, List.nil_append, List.mem_singleton] at member
      subst member
      cases found
    | cons y rest =>
      exact inv.found alone x k v (by simpa using head) (by simpa using member) found
  · intro alone u r stored outside
    obtain ⟨rfl, rfl⟩ | ⟨before, -, other⟩ := asks u r stored
    · exact absurd (by simp [request]) outside
    · exact inv.result alone u r before fun member => outside (by simp [member])

end Invariant

/-! ## Every run -/

/-- A thread that returns from `ide_rw` has a clean buffer. -/
theorem retest_returns {T B δ : Type} [DecidableEq T] {s : Ide T B δ} {t : T} {r : Request B δ} (asks : s.inside t = some r)
    (returns : (retest s t).inside t = none) :
    (s.buf r.buf).clean = true ∧ (retest s t).buf = s.buf ∧ (retest s t).disk = s.disk := by
  unfold retest at *
  rw [asks] at returns ⊢
  dsimp only at *
  by_cases clean : (s.buf r.buf).clean
  · rw [if_pos clean]
    exact ⟨clean, rfl, rfl⟩
  · rw [if_neg clean, asks] at returns
    cases returns

section Runs
variable {T B δ : Type} [DecidableEq T] [DecidableEq B] [Fintype B] {havedisk1 : Bool} {sole : Prop}
  {s : Ide T B δ} {may : Ide T B δ → B → Prop}

theorem Inv.step {queue : List B} (inv : Inv sole s queue) {s' : Ide T B δ}
    (distinct : ∀ b, may s b → Distinct s b) (apart : sole → ∀ b, may s b → Apart s b)
    (step : Step havedisk1 may s s') : ∃ queue, Inv sole s' queue := by
  cases step with
  | rw t b out allowed queued =>
    exact ⟨_, inv.rw out (distinct b allowed) (fun alone => apart alone b allowed) queued⟩
  | retest t => exact ⟨queue, inv.retest t⟩
  | execute c rest first pending => exact ⟨queue, inv.execute first⟩
  | interrupt c rest found first executed => exact inv.interrupt first executed
  | touch b value unused => exact ⟨queue, inv.touch value unused⟩

theorem Reach.inv (distinct : ∀ s b, may s b → Distinct s b)
    (apart : sole → ∀ s b, may s b → Apart s b) (reach : Reach havedisk1 may s) :
    ∃ queue, Inv sole s queue := by
  induction reach with
  | start quiet => exact ⟨[], Inv.start quiet⟩
  | step _ step ih =>
    obtain ⟨queue, inv⟩ := ih
    exact inv.step (distinct _) (fun alone => apart alone _) step

theorem Reach.call (reach : Reach havedisk1 may s) {t : T} {b : B} (out : s.inside t = none)
    (allowed : may s b) (queued : (ideRw havedisk1 s t b).isSome) :
    Reach havedisk1 may ((ideRw havedisk1 s t b).getD s) := by
  refine .step reach (.rw t b out allowed ?_)
  exact (Option.getD_of_ne_none (Option.isSome_iff_ne_none.mp queued) s).symm

/-- While distinct buffers are passed to `ide_rw`, requests are started once each in the order in
which they were queued, the drive has at most one command and it is that of the head of the
queue, `ide_rw` always finds the end of the queue, and it returns with `B_VALID` set and
`B_DIRTY` clear.  If moreover the buffers in `ide_rw` at the same time are for different
sectors, the buffer of a read then holds what the sector holds, and the sector of a write what
the buffer held at the call. -/
theorem ide_requests (havedisk1 : Bool) (s : Ide T B δ) (reach : Reach havedisk1 Distinct s) :
    (∃ queue, ListSeg s.qnext s.idequeue queue ∧ s.enqueued = s.finished ++ queue ∧
      s.started = s.finished ++ queue.take 1) ∧
    (s.commands.length ≤ 1 ∧ (s.idequeue ≠ none → s.commands ≠ []) ∧
      ∀ c ∈ s.commands, ∃ b, s.idequeue = some b ∧ c.address = (s.buf b).address ∧
        c.write = if (s.buf b).dirty then some (s.buf b).data else none) ∧
    (∀ t b, Distinct s b → (s.buf b).busy = true → (s.buf b).clean = false →
      ((s.buf b).dev = 0 ∨ havedisk1 = true) → (ideRw havedisk1 s t b).isSome) ∧
    (∀ t r, s.inside t = some r → (retest s t).inside t = none →
      ((retest s t).buf r.buf).valid = true ∧ ((retest s t).buf r.buf).dirty = false ∧
      (Reach havedisk1 Apart s →
        if r.write then (retest s t).disk ((retest s t).buf r.buf).address = r.data
        else ((retest s t).buf r.buf).data =
          (retest s t).disk ((retest s t).buf r.buf).address)) := by
  obtain ⟨queue, inv⟩ := @Reach.inv _ _ _ _ _ _ _ False _ _ (fun _ _ distinct => distinct)
    False.elim reach
  refine ⟨⟨queue, inv.path, inv.enqueued, inv.started⟩, ⟨?_, ?_, ?_⟩, ?_, ?_⟩
  · cases commands : s.commands with
    | nil => simp
    | cons c rest =>
      obtain ⟨-, -, -, rfl, -, -⟩ := inv.command_eq commands
      simp
  · intro used empty
    have equal := inv.commands
    have head := inv.path.head_eq
    cases queue with
    | nil => exact used head
    | cons b tail => simp [empty] at equal
  · intro c member
    obtain ⟨first, rest, commands⟩ := List.exists_cons_of_ne_nil (List.ne_nil_of_mem member)
    obtain ⟨b, tail, rfl, rfl, address, write⟩ := inv.command_eq commands
    rw [commands] at member
    obtain rfl := List.mem_singleton.mp member
    exact ⟨b, inv.path.1, address, write⟩
  · intro t b distinct busy dirty present
    rw [ideRw_eq inv.path inv.nodup (inv.new distinct) havedisk1 t, if_neg]
    · rfl
    · rintro (fails | fails | ⟨other, absent⟩)
      · simp [busy] at fails
      · simp [dirty] at fails
      · exact present.elim other (by simp [absent])
  · intro t r asks returns
    obtain ⟨clean, buf, disk⟩ := retest_returns asks returns
    rw [buf, disk]
    have flags : (s.buf r.buf).valid = true ∧ (s.buf r.buf).dirty = false := by
      simpa [Buf.clean] using clean
    refine ⟨flags.1, flags.2, fun sole => ?_⟩
    obtain ⟨queue', inv'⟩ := @Reach.inv _ _ _ _ _ _ _ True _ _
      (fun _ _ apart u q asks => (apart u q asks).1) (fun _ _ _ apart => apart) sole
    apply inv'.result trivial t r asks
    intro member
    have dirty := (inv'.pending t r asks member).1
    simp [clean] at dirty

end Runs

/-- Two threads have a buffer each, one to be read from sector 5 and one to be written to the
given sector. -/
def twoBuffers (sector : Nat) : Ide Bool Bool Nat where
  buf := fun b => if b then ⟨0, sector, true, true, true, 7⟩ else ⟨0, 5, true, false, false, 0⟩
  qnext := fun _ => none
  idequeue := none
  disk := fun _ => 0
  commands := []
  inside := fun _ => none
  enqueued := []
  started := []
  finished := []

def firstCalled (sector : Nat) : Ide Bool Bool Nat :=
  (ideRw false (twoBuffers sector) false false).getD (twoBuffers sector)

def bothCalled (sector : Nat) : Ide Bool Bool Nat :=
  (ideRw false (firstCalled sector) true true).getD (firstCalled sector)

/-- The drive has read sector 5 and raised its interrupt, and has then done the write. -/
def bothExecuted (sector : Nat) : Ide Bool Bool Nat :=
  execute
    (ideIntr { execute (bothCalled sector) ⟨(0, 5), none, none⟩ [] with commands := [] } 0)
    ⟨(0, sector), some 7, none⟩ []

theorem bothExecuted_reach {may : Ide Bool Bool Nat → Bool → Prop} {sector : Nat}
    (valid : sector = 5 ∨ sector = 6) (first : may (twoBuffers sector) false)
    (second : may (firstCalled sector) true) : Reach false may (bothExecuted sector) := by
  have quiet : Quiet (twoBuffers sector) := ⟨rfl, rfl, fun _ => rfl, rfl, rfl, rfl⟩
  have called : Reach false may (firstCalled sector) := by
    apply (Reach.start quiet).call rfl first
    rcases valid with rfl | rfl <;> decide
  have both : Reach false may (bothCalled sector) := by
    apply called.call _ second
    · rcases valid with rfl | rfl <;> decide
    · rcases valid with rfl | rfl <;> decide
  refine .step (.step (.step both (.execute _ _ ?_ rfl))
    (.interrupt ⟨(0, 5), none, some 0⟩ [] 0 ?_ rfl)) (.execute _ _ ?_ rfl)
  · rcases valid with rfl | rfl <;> decide
  · rcases valid with rfl | rfl <;> decide
  · rcases valid with rfl | rfl <;> decide

theorem firstCalled_request {sector : Nat} (valid : sector = 5 ∨ sector = 6) {t : Bool}
    {r : Request Bool Nat} (asks : (firstCalled sector).inside t = some r) :
    r = ⟨false, false, 0⟩ := by
  have first : (firstCalled sector).inside = fun t => if t then none else some ⟨false, false, 0⟩ := by
    funext t
    rcases valid with rfl | rfl <;> cases t <;> rfl
  rw [first] at asks
  cases t with
  | true => cases asks
  | false => exact (Option.some.inj asks).symm

/-- With the write to sector 6, the first thread returns with what sector 5 holds. -/
theorem ide_requests_apart :
    Reach false Apart (bothExecuted 6) ∧
    (bothExecuted 6).inside false = some ⟨false, false, 0⟩ ∧
    (retest (bothExecuted 6) false).inside false = none ∧
    ((retest (bothExecuted 6) false).buf false).data =
      (retest (bothExecuted 6) false).disk ((retest (bothExecuted 6) false).buf false).address := by
  have alone : Apart (twoBuffers 6) false := fun _ _ asks => by cases asks
  have apart : Apart (firstCalled 6) true := by
    intro t r asks
    rw [firstCalled_request (.inr rfl) asks]
    decide
  have reach : Reach false Apart (bothExecuted 6) := bothExecuted_reach (.inr rfl) alone apart
  have distinct : Reach false Distinct (bothExecuted 6) :=
    bothExecuted_reach (.inr rfl) (fun t r asks => (alone t r asks).1) fun t r asks =>
      (apart t r asks).1
  obtain ⟨-, -, -, returns⟩ := ide_requests false (bothExecuted 6) distinct
  have asks : (bothExecuted 6).inside false = some ⟨false, false, 0⟩ := by rfl
  have back : (retest (bothExecuted 6) false).inside false = none := by rfl
  exact ⟨reach, asks, back, by simpa using (returns false _ asks back).2.2 reach⟩

/-- With the write to sector 5 too, the first thread returns from its read with the old content
of the sector: the drive has done the write since. -/
theorem read_overtaken : ∃ s : Ide Bool Bool Nat, Reach false Distinct s ∧
    s.inside false = some ⟨false, false, 0⟩ ∧ (retest s false).inside false = none ∧
    ((retest s false).buf false).data ≠
      (retest s false).disk ((retest s false).buf false).address := by
  refine ⟨bothExecuted 5, bothExecuted_reach (.inl rfl) ?_ ?_, by rfl, by rfl, by decide⟩
  · intro t r asks
    cases asks
  · intro t r asks
    rw [firstCalled_request (.inl rfl) asks]
    decide

end OsAudio.Dev

import OsAudio.Fs.Volume
import OsAudio.Fs.Block

/-!
# Rules for programs on a volume

Assertions about the calls of the log, for programs that respect the log region.  A run
may stop because a limit of the log or of the cache is reached, because it logs outside a
transaction, or for lack of something else.  What is known about these limits is a parameter
of the rules: `roomy` stands for whatever a caller assumes about the room left, and as long
as it implies `Room`, no stop for lack of room happens; likewise `spare` for everything else.
-/
namespace OsAudio.Fs
open OsAudio.Lib

/-- What is known about the limits a run may meet. -/
structure Limits where
  /-- The log and the cache have room. -/
  roomy : Prop
  /-- Nothing else that the run needs is missing. -/
  spare : Prop
  up : Bool
  inTrans : Bool

section Rules
variable {μ : Type} {forbidden : Mark → Bool}

/-- Nothing is known about the limits. -/
def Vol.unlimited (v : Vol μ) : Limits := ⟨False, False, v.up, v.inTrans⟩

/-- How a run may stop. -/
structure Fails (lim : Limits) (w : Stop) (_ : Vol μ) : Prop where
  answers : w ≠ .beyond
  typed : w ≠ .panic .inodeLockNoType
  outside : w = .panic .writeOutsideTrans → lim.up = true ∧ lim.inTrans = false
  tooBig : w = .panic .tooBigTransaction → lim.up = true → ¬ lim.roomy
  noBuffers : w = .panic .noBuffers → ¬ lim.roomy
  short : w ≠ .panic .writeOutsideTrans → w ≠ .panic .tooBigTransaction → w ≠ .panic .noBuffers →
    ¬ lim.spare

/-- There is room in the log and the cache for the sectors of `targets` and one more. -/
structure Vol.Room (v : Vol μ) (targets : Finset Nat) : Prop where
  logged : v.logged ⊆ targets
  cache : targets.card + 3 ≤ nBuf
  log : (targets.card : Int) + 2 ≤ v.size

variable {v : Vol μ} {targets : Finset Nat} {lim : Limits} {sector : Nat} {data : Bytes}

theorem Vol.Room.few (room : v.Room targets) :
    v.logged.card + 3 ≤ nBuf ∧ (v.logged.card : Int) + 2 ≤ v.size := by
  have le := Finset.card_le_card room.logged
  have cache := room.cache
  have log := room.log
  constructor <;> omega

theorem Vol.Room.write (room : v.Room targets) (known : sector ∈ targets) :
    (v.write sector data).Room targets :=
  ⟨Finset.insert_subset known room.logged, room.cache, room.log⟩

theorem Vol.Room.hold (room : v.Room targets) : (v.hold sector).Room targets :=
  ⟨room.logged, room.cache, room.log⟩

theorem held_union_card (few : v.held.card ≤ 2) (room : v.logged.card + 3 ≤ nBuf) :
    (v.held ∪ v.logged).card < nBuf := by
  have := Finset.card_union_le v.held v.logged
  omega

theorem wp_bread {Q : Bytes → Vol μ → Prop} (home : ¬ logRegion v.start v.size sector)
    (free : sector ∉ v.held) (few : v.held.card ≤ 2) (room : lim.roomy → v.Room targets)
    (next : Q (v.data sector) (v.hold sector)) :
    (volMachine forbidden).Wp (bread sector) v Q (Fails lim) := by
  apply Machine.Wp.op
  change (volRead v sector).Sat Q (Fails lim)
  unfold volRead
  rw [if_neg home, if_neg free]
  split
  · next full =>
    refine ⟨nofun, nofun, nofun, nofun, fun _ yes => ?_, fun _ _ other => absurd rfl other⟩
    have := held_union_card few (room yes).few.1
    omega
  · exact next

variable {Q : Unit → Vol μ → Prop} {E : Stop → Vol μ → Prop}

theorem wp_logStore (held : sector ∈ v.held) (notSuper : sector ≠ 1)
    (word : sector < 4294967296) (few : v.held.card ≤ 2) (room : lim.roomy → v.Room targets)
    (up : v.up = lim.up) (flag : v.inTrans = lim.inTrans)
    (next : lim.up = true → lim.inTrans = true → Q () (v.write sector data)) :
    (volMachine forbidden).Wp (logStore sector data) v Q (Fails lim) := by
  apply Machine.Wp.op
  change (volLogWrite v sector data).Sat Q (Fails lim)
  unfold volLogWrite
  rw [if_neg (by simp only [not_or, not_not, Nat.not_le]; exact ⟨held, notSuper, word⟩)]
  split
  · next big =>
    refine ⟨nofun, nofun, nofun, fun _ ready yes => ?_, nofun, fun _ other => absurd rfl other⟩
    have limit := (room yes).few
    have : nBuf = logSize := rfl
    rcases big with down | many | many
    · exact down (up.trans ready)
    · omega
    · omega
  · next fits =>
    have ready : lim.up = true := by
      rw [← up]
      simpa using (not_or.mp fits).1
    split
    · next idle =>
      refine ⟨nofun, nofun, fun _ => ⟨ready, ?_⟩, nofun, nofun, fun other => absurd rfl other⟩
      rw [← flag]
      simpa using idle
    · next busy =>
      split
      · next full =>
        refine ⟨nofun, nofun, nofun, nofun, fun _ yes => ?_, fun _ _ other => absurd rfl other⟩
        have := held_union_card few (room yes).few.1
        omega
      · refine next ready ?_
        rw [← flag]
        simpa using busy

theorem wp_brelse (held : sector ∈ v.held)
    (next : Q () (v.release sector)) : (volMachine forbidden).Wp (brelse sector) v Q E := by
  apply Machine.Wp.op
  change (volRelease v sector).Sat Q E
  unfold volRelease
  rwa [if_pos held]

theorem wp_getMem {Q : μ → Vol μ → Prop} (next : Q v.mem v) :
    (volMachine forbidden).Wp getMem v Q E := Machine.Wp.op next

theorem wp_setMem {mem : μ}
    (next : Q () { v with mem := mem }) : (volMachine forbidden).Wp (setMem mem) v Q E :=
  Machine.Wp.op next

theorem wp_markIf {mark : Mark} {hit : Bool}
    (clear : lim.spare → hit = false) (next : (forbidden mark = true → hit = false) → Q () v) :
    (volMachine forbidden).Wp (markIf mark hit) v Q (Fails lim) := by
  apply Machine.Wp.op
  change (if hit && forbidden mark then Outcome.stop (Stop.marked mark) v else .ok () v).Sat Q _
  cases hit with
  | false => exact next fun _ => rfl
  | true =>
    cases banned : forbidden mark with
    | false => exact next (by simp [banned])
    | true =>
      exact ⟨nofun, nofun, nofun, nofun, nofun, fun _ _ _ yes => absurd (clear yes) nofun⟩

/-! ## Common shapes -/

theorem Vol.unheld (idle : v.held = ∅) (t : Nat) : t ∉ v.held := by
  rw [idle]
  exact Finset.notMem_empty t

theorem Vol.few_held (idle : v.held = ∅) (n : Nat) : v.held.card ≤ n := by
  rw [idle]
  exact Nat.zero_le n

theorem Vol.hold_held (idle : v.held = ∅) (sector : Nat) : (v.hold sector).held = {sector} := by
  rw [Vol.hold, idle]
  rfl

theorem Vol.few_hold (idle : v.held = ∅) (n : Nat) : (v.hold sector).held.card ≤ n + 1 := by
  rw [v.hold_held idle, Finset.card_singleton]
  omega

theorem release_hold (free : sector ∉ v.held) : (v.hold sector).release sector = v := by
  unfold Vol.hold Vol.release
  rw [Finset.erase_insert free]

/-- The sector that was read last is released. -/
theorem wp_brelse_hold (free : sector ∉ v.held) (next : Q () v) :
    (volMachine forbidden).Wp (brelse sector) (v.hold sector) Q E := by
  refine wp_brelse (Finset.mem_insert_self _ _) ?_
  rwa [release_hold free]

theorem write_hold (v : Vol μ) (sector : Nat) (data : Bytes) (held : Nat) :
    (v.hold held).write sector data = (v.write sector data).hold held := rfl

/-- A sector is read and released. -/
theorem wp_observe {α : Type} {Q : α → Vol μ → Prop} {p : Bytes → LogProg μ α}
    (home : ¬ logRegion v.start v.size sector) (free : sector ∉ v.held) (few : v.held.card ≤ 2)
    (room : lim.roomy → v.Room targets)
    (next : (volMachine forbidden).Wp (p (v.data sector)) v Q (Fails lim)) :
    (volMachine forbidden).Wp (do
      let data ← bread sector
      brelse sector
      p data) v Q (Fails lim) := by
  refine .seq (wp_bread home free few room ?_)
  exact .seq (wp_brelse_hold free next)

/-- A sector is read, changed, logged and released. -/
theorem wp_rewrite {Q : Unit → Vol μ → Prop} {change : Bytes → Bytes}
    (home : ¬ logRegion v.start v.size sector) (free : sector ∉ v.held) (few : v.held.card ≤ 1)
    (notSuper : sector ≠ 1) (word : sector < 4294967296) (room : lim.roomy → v.Room targets)
    (up : v.up = lim.up) (flag : v.inTrans = lim.inTrans)
    (next : lim.up = true → lim.inTrans = true →
      Q () (v.write sector (change (v.data sector)))) :
    (volMachine forbidden).Wp (do
      let data ← bread sector
      logStore sector (change data)
      brelse sector) v Q (Fails lim) := by
  have few' : (v.hold sector).held.card ≤ 2 := by
    rw [show (v.hold sector).held = insert sector v.held from rfl, Finset.card_insert_of_notMem free]
    omega
  refine .seq (wp_bread home free (by omega) room ?_)
  refine .seq (wp_logStore (Finset.mem_insert_self _ _) notSuper word few'
    (fun yes => (room yes).hold) up flag fun ready busy => ?_)
  rw [write_hold]
  exact wp_brelse_hold free (next ready busy)

/-! ## Reading -/

/-- The calls of a program that only reads.  `block_alloc`, `block_free` and `inode_alloc` begin by
reading the super block, so they are not among such programs. -/
def LogOp.ReadsOnly : LogOp μ → Prop
  | .read sector => sector ≠ 1
  | .release _ => True
  | .getMem => True
  | .setMem _ => True
  | _ => False

theorem reads_bread {Q : Bytes → Vol μ → Prop} (other : sector ≠ 1)
    (wp : (volMachine forbidden).Wp (bread sector) v Q E) :
    (volMachine forbidden).Confined LogOp.ReadsOnly (bread sector) v Q E :=
  .op (S := LogSig μ) (c := .read sector) other wp

theorem reads_brelse
    (wp : (volMachine forbidden).Wp (brelse sector) v Q E) :
    (volMachine forbidden).Confined LogOp.ReadsOnly (brelse sector) v Q E :=
  .op (S := LogSig μ) (c := .release sector) trivial wp

theorem reads_getMem {Q : μ → Vol μ → Prop} (next : Q v.mem v) :
    (volMachine forbidden).Confined LogOp.ReadsOnly getMem v Q E :=
  .op (S := LogSig μ) (c := .getMem) trivial (wp_getMem next)

theorem reads_setMem {mem : μ}
    (next : Q () { v with mem := mem }) :
    (volMachine forbidden).Confined LogOp.ReadsOnly (setMem mem) v Q E :=
  .op (S := LogSig μ) (c := .setMem mem) trivial (wp_setMem next)

end Rules

end OsAudio.Fs

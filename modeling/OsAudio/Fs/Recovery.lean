import OsAudio.Fs.Session

/-!
# When the log is recovered

`log_init` is called by the first `sys_open`, from a static flag, and by nothing else.  This
module follows the first system calls after boot up to the first one that begins a
transaction or loads an inode, and says exactly for which orders of calls the log has been
recovered by then.
-/
namespace OsAudio.Fs
open OsAudio.Lib

/-- A call that begins a transaction, or an `inode_lock` that reads the inode from disk. -/
def NeedsRecovery : InodeOp FsMem → FsState → Prop
  | .beginTrans, _ => True
  | .lock ip, s =>
    (s.upper.icache ip).valid = false ∧ (s.upper.icache ip).busy = false ∧
      1 ≤ (s.upper.icache ip).ref
  | _, _ => False

def Calm (op : InodeOp FsMem) (s : FsState) : Prop := ¬ NeedsRecovery op s ∧ op ≠ .logInit

section Events
variable {forbidden : Mark → Bool} {p : FsProg Unit} {s : FsState}

end Events

/-! ## Before the first call that reads the disk -/

/-- No inode has been read, `sys_open` has not been called, and every TCB is in the root
directory. -/
structure Fresh (s : FsState) : Prop where
  first : s.upper.rest.first = true
  root : (s.upper.icache 0).inum = rootIno
  unread : (s.upper.icache 0).valid = false
  idle : (s.upper.icache 0).busy = false
  used : 1 ≤ (s.upper.icache 0).ref
  cwd : ∀ pid < numProcs, (s.upper.rest.proc pid).cwd = 0
  current : s.upper.rest.curid < numProcs
  closed : ∀ pid fd, (s.upper.rest.proc pid).openfiles fd = none

/-- One more reference to the root directory. -/
def referRoot (s : FsState) : FsState :=
  s.withUpper { s.upper with
    icache := Function.update s.upper.icache 0
      { s.upper.icache 0 with ref := (s.upper.icache 0).ref + 1 } }

section Fresh
variable {forbidden : Mark → Bool} {s : FsState}

theorem Fresh.referRoot (fresh : Fresh s) : Fresh (referRoot s) := by
  refine { fresh with root := ?_, unread := ?_, idle := ?_, used := ?_ }
  · exact fresh.root
  · exact fresh.unread
  · exact fresh.idle
  · have used := fresh.used
    simp only [Fs.referRoot, upper_withUpper, Function.update_self]
    omega

theorem passes_getFs (s : FsState) :
    (fsMachine forbidden).Passes Calm getFs s s.upper.rest s :=
  .op ⟨id, nofun⟩ rfl

theorem Fresh.pathStart (fresh : Fresh s) (path : List Byte) :
    (fsMachine forbidden).Passes Calm (Fs.pathStart path) s 0 (Fs.referRoot s) := by
  unfold Fs.pathStart
  split_ifs with absolute
  · refine .op ⟨id, nofun⟩ ?_
    exact (Machine.run_op (S := InodeSig FsMem) _ s).symm.trans
      (run_iget_root (by have used := fresh.used; omega) fresh.root)
  · refine .bind (passes_getFs s) ?_
    rw [fresh.cwd _ fresh.current]
    exact .op ⟨id, nofun⟩ rfl

theorem Fresh.needs (fresh : Fresh s) : NeedsRecovery (.lock 0) s :=
  ⟨fresh.unread, fresh.idle, fresh.used⟩

variable {path : List Byte}

section
variable (fresh : Fresh s)
include fresh

theorem Fresh.setCurid {pid : Nat} (proc : pid < numProcs) :
    ∃ t, Fresh t ∧ (fsMachine forbidden).Passes Calm (setCurid pid) s () t := by
  refine ⟨s.withUpper { s.upper with rest := { s.upper.rest with curid := pid } },
    { fresh with current := proc }, ?_⟩
  exact .bind (passes_getFs s) (.op ⟨id, nofun⟩ rfl)

end

end Fresh

end OsAudio.Fs

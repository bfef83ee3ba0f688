import Mathlib.Algebra.Group.Pi.Lemmas
import OsAudio.Fs.Session
import OsAudio.Lib.Behaviour

/-!
# What the lower layers do to memory

The behaviour of the lower layers as far as the memory above them is concerned, whatever is
on the disk: the buffer cache and the log leave it alone and may return any data; the inode
layer changes a reference count only in `inode_get`, `inode_dup`, `inode_alloc` and
`inode_put`, by one.
-/
namespace OsAudio.Fs
open OsAudio.Lib

/-! ## Memory above the buffer cache and the log -/

section Memory
variable {μ : Type}

/-- The buffer cache as seen by a layer that looks at its own memory only. -/
def bufMemory : Behaviour (BufSig μ) Stop μ := fun (op : BufOp μ) m o =>
  match op, o with
  | _, .stop _ _ => True
  | .getMem, .ok r t => r = m ∧ t = m
  | .setMem m', .ok _ t => t = m'
  | _, .ok _ t => t = m

/-- The log likewise. -/
def logMemory : Behaviour (LogSig μ) Stop μ := fun (op : LogOp μ) m o =>
  match op, o with
  | _, .stop _ _ => True
  | .getMem, .ok r t => r = m ∧ t = m
  | .setMem m', .ok _ t => t = m'
  | _, .ok _ t => t = m

variable {s t : BufSys μ} {sector : Nat}

theorem bufcacheGet_mem (got : bufcacheGet s sector = .ok () t) :
    t.mem = s.mem := by
  unfold bufcacheGet at got
  split at got
  · split at got
    · cases got
    · cases got
      rfl
  · split at got
    · cases got
      rfl
    · cases got

theorem ideRw_mem (done : ideRw s sector = .ok () t) :
    t.mem = s.mem := by
  unfold ideRw at done
  split at done
  · cases done
  · split_ifs at done <;> cases done <;> rfl

theorem bufcacheRead_mem {data : Bytes}
    (done : bufcacheRead s sector = .ok data t) : t.mem = s.mem := by
  unfold bufcacheRead at done
  split at done
  · cases done
  · rename_i u got
    have kept := bufcacheGet_mem got
    split at done
    · cases done
    · split at done
      · cases done
        exact kept
      · split at done
        · cases done
        · rename_i v moved
          cases done
          exact (ideRw_mem moved).trans kept

theorem bufMachine_keeps (forbidden : Mark → Bool) :
    (bufMachine forbidden).Keeps (bufMemory (μ := μ)) BufSys.mem := by
  intro (op : BufOp μ) s
  cases done : bufMachine forbidden op s with
  | stop w t => cases op <;> trivial
  | ok r t =>
    cases op with
    | read sector => exact bufcacheRead_mem done
    | write sector data =>
      simp only [bufMachine, bufcacheWrite] at done
      split at done
      · cases done
      · split_ifs at done
        exact (ideRw_mem done).trans rfl
    | setDirty sector data =>
      simp only [bufMachine, setDirty] at done
      split at done
      · cases done
      · cases done
        rfl
    | release sector =>
      simp only [bufMachine, bufcacheRelease] at done
      split at done
      · cases done
      · split_ifs at done
        cases done
        rfl
    | getMem =>
      cases done
      exact ⟨rfl, rfl⟩
    | setMem mem =>
      cases done
      rfl
    | mark mark hit =>
      simp only [bufMachine] at done
      split_ifs at done
      cases done
      rfl

/-- A program of the log leaves the memory above the log alone. -/
abbrev Aside {α : Type} (p : BufProg μ α) : Prop := p.Preserves bufMemory LogMem.rest

theorem aside_getLog : Aside (getLog : BufProg μ _) :=
  fun _ => ⟨fun _ _ same => congrArg _ same.2, fun _ _ _ => trivial⟩

theorem aside_setLog (log : Log) : Aside (setLog log : BufProg μ _) := by
  intro m
  refine ⟨fun r t same => ⟨fun _ u stored => ?_, fun _ _ _ => trivial⟩, fun _ _ _ => trivial⟩
  obtain ⟨rfl, -⟩ := same
  obtain rfl : u = ⟨log, r.rest⟩ := stored
  exact rfl

theorem aside_installFrom (log : Log) (count tail : Nat) :
    Aside (installFrom log count tail : BufProg μ _) := by
  induction count generalizing tail with
  | zero => exact .ret ()
  | succ count ih =>
    exact .skip idle fun _ => .skip idle fun _ => .skip idle fun _ =>
      .skip idle fun _ => .skip idle fun _ => ih (tail + 1)

theorem aside_installTrans : Aside (installTrans : BufProg μ _) :=
  .bind aside_getLog fun _ => aside_installFrom _ _ _

theorem aside_writeHead : Aside (writeHead : BufProg μ _) :=
  .bind aside_getLog fun _ => .skip idle fun _ => .skip idle fun _ => .op idle

theorem aside_clearLog : Aside (clearLog : BufProg μ _) :=
  .bind aside_getLog fun _ => aside_setLog _

theorem aside_logInit : Aside (logInit : BufProg μ _) := by
  have head : Aside (readHead : BufProg μ _) :=
    .bind aside_getLog fun _ => .skip idle fun _ => .bind (aside_setLog _) fun _ => .op idle
  have super : Aside (readSuperblock : BufProg μ _) :=
    .skip idle fun _ => .skip idle fun _ => .ret _
  exact .bind super fun _ => .bind aside_getLog fun _ => .bind (aside_setLog _) fun _ =>
    .bind head fun _ => .bind aside_installTrans fun _ => .bind aside_clearLog fun _ => aside_writeHead

theorem aside_beginTrans : Aside (beginTrans : BufProg μ _) :=
  .bind aside_getLog fun _ => .ite (.stop _) (aside_setLog _)

theorem aside_commitTrans : Aside (commitTrans : BufProg μ _) := by
  have last : Aside (do setLog { (← getLog) with busy := false } : BufProg μ Unit) :=
    .bind aside_getLog fun _ => aside_setLog _
  refine .bind aside_getLog fun _ => .ite ?_ last
  exact .bind aside_writeHead fun _ => .bind aside_installTrans fun _ => .bind aside_clearLog fun _ =>
    .bind aside_writeHead fun _ => last

theorem aside_logWrite (sector : Nat) (data : Bytes) : Aside (logWrite sector data : BufProg μ _) := by
  refine .bind aside_getLog fun _ => .ite (.stop _) (.ite (.stop _) ?_)
  refine .bind (aside_setLog _) fun _ => .skip idle fun _ => .skip idle fun _ =>
    .skip idle fun _ => .bind aside_getLog fun _ => .ite ?_ (.op idle)
  exact .bind (aside_setLog _) fun _ => .op idle

theorem logMachine_keeps (forbidden : Mark → Bool) :
    (logMachine forbidden).Keeps (logMemory (μ := μ)) BufSys.upper := by
  refine (bufMachine_keeps forbidden).through fun (op : LogOp μ) m => ?_
  suffices returns : (logImpl op).Ensures bufMemory m
      (fun r t => logMemory op m.rest (.ok r t.rest)) fun _ => True from
    returns.weaken (fun _ _ done => done) fun w _ t => by cases op <;> trivial
  cases op with
  | read _ | release _ | mark _ _ =>
    exact .op (fun _ _ same => congrArg LogMem.rest same) fun _ _ _ => trivial
  | logWrite sector data => exact aside_logWrite sector data m
  | beginTrans => exact aside_beginTrans m
  | commitTrans => exact aside_commitTrans m
  | logInit => exact aside_logInit m
  | getMem =>
    refine ⟨fun r t same => ?_, fun _ _ _ => trivial⟩
    obtain ⟨rfl, rfl⟩ := same
    exact ⟨rfl, rfl⟩
  | setMem mem =>
    refine ⟨fun r t same => ⟨fun _ u stored => ?_, fun _ _ _ => trivial⟩, fun _ _ _ => trivial⟩
    exact congrArg LogMem.rest stored

end Memory

/-! ## The inode layer -/

/-- The reference counts of the inode cache and the memory above it. -/
structure Refs where
  ref : Nat → Int
  fs : FsMem

/-- `n` more references to entry `ip`. -/
def Refs.add (s : Refs) (ip : Nat) (n : Int) : Refs := { s with ref := s.ref + Pi.single ip n }

def refsOf (m : InodeMem FsMem) : Refs := ⟨fun ip => (m.icache ip).ref, m.rest⟩

/-- The inode layer as seen by someone who counts references. -/
def inodeRefs : Behaviour (InodeSig FsMem) Stop Refs := fun (op : InodeOp FsMem) s o =>
  match op, o with
  | _, .stop _ _ => True
  | .get _, .ok ip t => t = s.add ip 1
  | .dup ip, .ok r t => r = ip ∧ t = s.add ip 1
  | .put ip, .ok _ t => t = s.add ip (-1)
  | .alloc _, .ok ip t => t = s.add ip 1
  | .getMem, .ok r t => r = s.fs ∧ t = s
  | .setMem fs, .ok _ t => t = { s with fs := fs }
  | _, .ok _ t => t = s

/-- A program of the inode layer changes no reference count. -/
abbrev Still {α : Type} (p : InodeProg FsMem α) : Prop := p.Preserves logMemory refsOf

section Inodes
variable {m : InodeMem FsMem} {ip : Nat}

/-- Reading an entry, and then the rest. -/
theorem ensures_getInode {α : Type} {k : Inode → InodeProg FsMem α} {Q : α → InodeMem FsMem → Prop}
    (rest : (k (m.icache ip)).Ensures logMemory m Q fun _ => True) :
    (getInode ip >>= k).Ensures logMemory m Q fun _ => True := by
  refine ⟨fun r t same => ?_, fun _ _ _ => trivial⟩
  obtain ⟨rfl, rfl⟩ := same
  exact rest

theorem ensures_setInode (inode : Inode) :
    (setInode ip inode).Ensures logMemory m
      (fun _ t => t = { m with icache := Function.update m.icache ip inode }) fun _ => True := by
  refine ⟨fun r t same => ⟨fun _ u stored => ?_, fun _ _ _ => trivial⟩, fun _ _ _ => trivial⟩
  obtain ⟨rfl, -⟩ := same
  exact stored

theorem refsOf_update (m : InodeMem FsMem) (ip : Nat) (inode : Inode) {n : Int}
    (changed : inode.ref = (m.icache ip).ref + n) :
    refsOf { m with icache := Function.update m.icache ip inode } = (refsOf m).add ip n := by
  simp only [refsOf, Refs.add, Refs.mk.injEq, and_true]
  funext i
  by_cases same : i = ip
  · subst same
    simp [changed]
  · simp [Function.update_of_ne same, Pi.single_eq_of_ne same]

theorem Refs.add_zero (s : Refs) (ip : Nat) : s.add ip 0 = s := by
  simp [Refs.add]

/-- Storing an entry with the reference count it has. -/
theorem ensures_setInode_same {inode : Inode} (same : inode.ref = (refsOf m).ref ip) :
    (setInode ip inode).Ensures logMemory m (fun _ t => refsOf t = refsOf m) fun _ => True := by
  refine (ensures_setInode inode).mono ?_
  rintro - t rfl
  rw [refsOf_update m ip inode (n := 0) (by rw [same]; exact (Int.add_zero _).symm), Refs.add_zero]

theorem ensures_setInode_add {inode : Inode} {n : Int} (changed : inode.ref = (refsOf m).ref ip + n) :
    (setInode ip inode).Ensures logMemory m (fun _ t => refsOf t = (refsOf m).add ip n)
      fun _ => True := by
  refine (ensures_setInode inode).mono ?_
  rintro - t rfl
  exact refsOf_update m ip inode changed

theorem still_getInode (ip : Nat) : Still (getInode ip) :=
  fun _ => ⟨fun _ _ same => congrArg refsOf same.2, fun _ _ _ => trivial⟩

/-- Reading an entry and storing it changed elsewhere. -/
theorem still_modify (ip : Nat) {f : Inode → Inode} (same : ∀ inode, (f inode).ref = inode.ref) :
    Still (getInode ip >>= fun inode => setInode ip (f inode)) := by
  intro m
  refine ensures_getInode ?_
  exact ensures_setInode_same (same _)

theorem still_superblock : Still superblock :=
  .skip idle fun _ => .skip idle fun _ => .ret _

theorem still_blockZero (bno : Nat) : Still (blockZero bno) :=
  .skip idle fun _ => .skip idle fun _ => .op idle

theorem still_blockAllocFrom (sb : Superblock) (count b : Nat) : Still (blockAllocFrom sb count b) := by
  induction count generalizing b with
  | zero => exact .stop _
  | succ count ih =>
    refine .ite (.stop _) (.skip idle fun bp => ?_)
    split
    · exact .skip idle fun _ => .skip idle fun _ =>
        .skip idle fun _ => .bind (still_blockZero _) fun _ => .ret _
    · exact .skip idle fun _ => ih _

theorem still_blockAlloc : Still blockAlloc :=
  .bind still_superblock fun _ => still_blockAllocFrom _ _ _

theorem still_blockFree (b : Nat) : Still (blockFree b) :=
  .bind still_superblock fun _ => .skip idle fun _ => .ite (.stop _)
    (.skip idle fun _ => .op idle)

theorem still_setAddr (ip i addr : Nat) : Still (setAddr ip i addr) :=
  still_modify ip fun _ => rfl

theorem still_addrOrAlloc (ip i : Nat) : Still (addrOrAlloc ip i) :=
  .bind (still_getInode ip) fun _ => .ite
    (.bind still_blockAlloc fun _ => .bind (still_setAddr ip i _) fun _ => .ret _) (.ret _)

theorem still_bmap (ip bn : Nat) : Still (bmap ip bn) := by
  refine .ite (still_addrOrAlloc ip bn) (.ite ?_ (.stop _))
  refine .bind (still_addrOrAlloc ip nDirect) fun _ => .skip idle fun _ => .ite ?_ ?_
  · exact .bind still_blockAlloc fun _ => .skip idle fun _ =>
      .skip idle fun _ => .ret _
  · exact .skip idle fun _ => .ret _

theorem still_readFrom (ip fuel off n : Nat) : Still (readFrom ip fuel off n) := by
  induction fuel generalizing off n with
  | zero => exact .ret _
  | succ fuel ih =>
    exact .ite (.ret _) (.bind (still_bmap ip _) fun _ => .skip idle fun _ =>
      .skip idle fun _ => .bind (ih _ _) fun _ => .ret _)

theorem still_writeFrom (ip fuel off : Nat) (src : List Byte) : Still (writeFrom ip fuel off src) := by
  induction fuel generalizing off src with
  | zero => exact .ret _
  | succ fuel ih =>
    exact .ite (.ret _) (.bind (still_bmap ip _) fun _ => .skip idle fun _ =>
      .skip idle fun _ => .skip idle fun _ => ih _ _)

theorem still_inodeUpdate (ip : Nat) : Still (inodeUpdate ip) :=
  .bind (still_getInode ip) fun _ => .skip idle fun _ => .skip idle fun _ => .op idle

theorem still_devswMissing {α : Type} (major : Nat) (bad : α) :
    Still (devswMissing major bad) :=
  .ite (.ret _) (.stop _)

theorem still_inodeRead (ip off n : Nat) : Still (inodeRead ip off n) :=
  .bind (still_getInode ip) fun _ => .ite (still_devswMissing _ _) (.ite (.ret _)
    (.bind (still_readFrom ip _ _ _) fun _ => .ret _))

/-- `still_modify` with a program after it. -/
theorem modify_then {α : Type} {f : Inode → Inode} {k : InodeProg FsMem α}
    {Q : α → InodeMem FsMem → Prop} (same : ∀ inode, (f inode).ref = inode.ref)
    (rest : ∀ t, refsOf t = refsOf m → k.Ensures logMemory t Q fun _ => True) :
    (getInode ip >>= fun inode => setInode ip (f inode) >>= fun _ => k).Ensures logMemory m Q
      fun _ => True := by
  have grouped := (still_modify ip same).then (f := fun _ => k) fun _ t kept => rest t kept
  rwa [bind_assoc] at grouped

theorem still_inodeWrite (ip off : Nat) (src : List Byte) : Still (inodeWrite ip off src) := by
  refine .bind (still_getInode ip) fun _ => .ite (still_devswMissing _ _) (.ite (.ret _)
    (.ite (.ret _) (.bind (still_writeFrom ip _ _ _) fun off => ?_)))
  intro m
  refine ensures_getInode ?_
  split
  · refine (ensures_setInode_same (by rfl)).bind fun _ u kept => ?_
    exact (still_inodeUpdate ip).then fun _ v later => .ret (later.trans kept)
  · exact .ret rfl

theorem still_truncDirect (ip count i : Nat) : Still (truncDirect ip count i) := by
  induction count generalizing i with
  | zero => exact .ret _
  | succ count ih =>
    exact .bind (still_getInode ip) fun _ => .ite (.bind (still_blockFree _) fun _ =>
      .bind (still_setAddr ip i 0) fun _ => ih _) (ih _)

theorem still_truncEntries (a : Bytes) (count j : Nat) : Still (truncEntries a count j) := by
  induction count generalizing j with
  | zero => exact .ret _
  | succ count ih => exact .ite (.bind (still_blockFree _) fun _ => ih _) (ih _)

theorem still_inodeTrunc (ip : Nat) : Still (inodeTrunc ip) := by
  have last : Still (getInode ip >>= fun inode =>
      setInode ip { inode with size := 0 } >>= fun _ => inodeUpdate ip) :=
    fun _ => modify_then (fun _ => rfl) fun t kept =>
      (still_inodeUpdate ip t).mono fun _ _ later => later.trans kept
  refine .bind (still_truncDirect ip _ _) fun _ => .bind (still_getInode ip) fun _ => .ite ?_ last
  exact .skip idle fun _ => .bind (still_truncEntries _ _ _) fun _ =>
    .skip idle fun _ => .bind (still_blockFree _) fun _ =>
    .bind (still_setAddr ip _ _) fun _ => last

theorem still_inodeLock (ip : Nat) : Still (inodeLock ip) := by
  intro m
  refine ensures_getInode ?_
  split
  · exact .stop trivial
  split
  · exact .stop trivial
  split
  · exact ensures_setInode_same rfl
  · refine (ensures_setInode_same (by rfl)).bind fun _ u busy => ?_
    refine .skip idle fun bp => .skip idle fun _ => ?_
    refine (ensures_setInode_same (by rw [busy]; rfl)).bind fun _ x loaded => ?_
    split
    · exact .stop trivial
    · exact .ret (loaded.trans busy)

theorem still_inodeUnlock (ip : Nat) : Still (inodeUnlock ip) := by
  intro m
  refine ensures_getInode ?_
  split
  · exact .stop trivial
  · exact ensures_setInode_same rfl

/-- `inode_get` adds one reference to the entry it returns. -/
theorem ensures_inodeGet (inum : Nat) :
    (inodeGet inum).Ensures logMemory m (fun ip t => refsOf t = (refsOf m).add ip 1)
      fun _ => True := by
  refine Prog.Ensures.bind (P := fun mem t => mem = m ∧ t = m)
    ⟨fun _ _ same => same, fun _ _ _ => trivial⟩ fun mem t => ?_
  rintro ⟨rfl, rfl⟩
  split
  · rename_i ip found
    exact (ensures_setInode_add (by rfl)).bind fun _ u added => .ret added
  · split
    · rename_i ip empty
      have unused := List.find?_some empty
      refine (ensures_setInode_add ?_).bind fun _ u added => .ret added
      simp only [decide_eq_true_eq] at unused
      simp only [refsOf, unused, Int.zero_add]
    · exact .stop trivial

theorem ensures_inodeAllocFrom (type count inum : Nat) :
    (inodeAllocFrom type count inum).Ensures logMemory m
      (fun ip t => refsOf t = (refsOf m).add ip 1) fun _ => True := by
  induction count generalizing inum m with
  | zero => exact .stop trivial
  | succ count ih =>
    refine .skip idle fun bp => ?_
    split
    · exact .skip idle fun _ => .skip idle fun _ => ensures_inodeGet inum
    · exact .skip idle fun _ => ih (inum + 1)

theorem ensures_inodePut :
    (inodePut ip).Ensures logMemory m (fun _ t => refsOf t = (refsOf m).add ip (-1))
      fun _ => True := by
  have last : ∀ t : InodeMem FsMem, refsOf t = refsOf m →
      (getInode ip >>= fun inode => setInode ip { inode with ref := inode.ref - 1 }).Ensures
        logMemory t (fun _ u => refsOf u = (refsOf m).add ip (-1)) fun _ => True := by
    intro t kept
    refine ensures_getInode ?_
    exact (ensures_setInode_add (by rfl)).mono fun _ v dropped => dropped.trans (by rw [kept])
  refine ensures_getInode ?_
  split
  · split
    · exact .stop trivial
    · refine (ensures_setInode_same (by rfl)).bind fun _ u busy => ?_
      refine (still_inodeTrunc ip).then fun _ v truncated => ?_
      refine modify_then (fun _ => rfl) fun w typed => (still_inodeUpdate ip).then fun _ x written => ?_
      refine modify_then (fun _ => rfl) fun y free => last y ?_
      rw [free, written, typed, truncated, busy]
  · exact last m rfl

theorem fsMachine_keeps (forbidden : Mark → Bool) :
    (fsMachine forbidden).Keeps inodeRefs (refsOf ∘ BufSys.upper) := by
  refine (logMachine_keeps forbidden).through fun (op : InodeOp FsMem) m => ?_
  suffices returns : (inodeImpl op).Ensures logMemory m
      (fun r t => inodeRefs op (refsOf m) (.ok r (refsOf t))) fun _ => True from
    returns.weaken (fun _ _ done => done) fun w _ t => by cases op <;> trivial
  cases op with
  | get inum => exact ensures_inodeGet inum
  | dup ip =>
    refine ensures_getInode ?_
    exact (ensures_setInode_add (n := 1) (by rfl)).bind fun _ u added => .ret ⟨rfl, added⟩
  | lock ip => exact still_inodeLock ip m
  | unlock ip => exact still_inodeUnlock ip m
  | put ip => exact ensures_inodePut
  | read ip off n => exact still_inodeRead ip off n m
  | write ip off src => exact still_inodeWrite ip off src m
  | alloc type =>
    refine still_superblock.then fun sb t kept => ?_
    refine (ensures_inodeAllocFrom _ _ _).mono fun ip u added => ?_
    rwa [kept] at added
  | update ip => exact still_inodeUpdate ip m
  | look ip => exact (still_getInode ip).bind (fun _ => .ret _) m
  | setNlink ip nlink => exact still_modify ip (f := fun inode => { inode with nlink := nlink }) (fun _ => rfl) m
  | setDev ip major minor =>
    exact still_modify ip (f := fun inode => { inode with major := major, minor := minor })
      (fun _ => rfl) m
  | beginTrans | commitTrans | logInit | mark _ _ =>
    exact .op (fun _ _ same => congrArg refsOf same) fun _ _ _ => trivial
  | getMem =>
    refine ⟨fun r t same => ?_, fun _ _ _ => trivial⟩
    obtain ⟨rfl, rfl⟩ := same
    exact ⟨rfl, rfl⟩
  | setMem mem =>
    refine ⟨fun r t same => ⟨fun _ u stored => ?_, fun _ _ _ => trivial⟩, fun _ _ _ => trivial⟩
    obtain ⟨rfl, -⟩ := same
    exact congrArg refsOf stored

end Inodes

end OsAudio.Fs

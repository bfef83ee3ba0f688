import OsAudio.Fs.Session

/-!
# How many bytes `file_read` delivers

In any state of the kernel, the number of bytes a `file_read` that returns has delivered is
fixed by the open file, by the inode as `inode_lock` finds it and by the number asked for.
-/
namespace OsAudio.Fs
open OsAudio.Lib

/-! ## What the state holds before the call -/

section State
variable {μ : Type}

/-- What `bufcache_read` returns for the sector. -/
def BufSys.loaded (s : BufSys μ) (sector : Nat) : Bytes :=
  match s.buf? sector with
  | some b => if b.valid || b.dirty then b.data else s.disk sector
  | none => s.disk sector

/-- The inode as it is once it is locked. -/
def lockedDinode (s : FsState) (ip : Nat) : Dinode :=
  let inode := s.upper.icache ip
  if inode.valid then inode.toDinode else loadDinode (s.loaded (iblock inode.inum)) inode.inum

/-- The number of bytes `inode_read` delivers, if its result is not -1. -/
def inodeCount (d : Dinode) (off n : Nat) : Option Nat :=
  if d.type = tDev then none
  else if d.size < off ∨ (off + n) % 4294967296 < off then none
  else some (if d.size < (off + n) % 4294967296 then d.size - off else n)

/-- The number of bytes `file_read` delivers, if its result is not -1. -/
def readCount (s : FsState) (file : File) (n : Nat) : Option Nat :=
  if !file.readable then none else inodeCount (lockedDinode s file.ip) file.off n

/-- The open file a descriptor of process `pid` names. -/
def descriptor (s : FsState) (pid fd : Nat) : Option Nat :=
  if noFile ≤ fd then none else (s.upper.rest.proc pid).openfiles fd

/-- The state in which process `pid` makes a call. -/
def calling (s : FsState) (pid : Nat) : FsState :=
  s.withUpper { s.upper with rest := { s.upper.rest with curid := pid } }

end State

/-! ## The buffer cache -/

section Buffers
variable {μ : Type} {s t : BufSys μ} {sector : Nat}

theorem buf?_modify (s : BufSys μ) (sector : Nat) {f : Buf → Buf}
    (same : ∀ b, (f b).sector = b.sector) :
    (s.modify sector f).buf? sector = (s.buf? sector).map f := by
  unfold BufSys.modify BufSys.buf?
  induction s.bufs with
  | nil => rfl
  | cons b bufs ih =>
    by_cases holds : b.holds sector = true
    · have kept : (f b).holds sector = true := by
        unfold Buf.holds at holds ⊢
        rwa [same]
      rw [List.map_cons, if_pos holds, List.find?_cons_of_pos kept, List.find?_cons_of_pos holds]
      rfl
    · rw [List.map_cons, if_neg holds, List.find?_cons_of_neg holds, List.find?_cons_of_neg holds]
      exact ih

theorem buf?_set {i : Nat} {b : Buf} (absent : s.buf? sector = none) (inside : i < s.bufs.length)
    (holds : b.holds sector = true) :
    ({ s with bufs := s.bufs.set i b } : BufSys μ).buf? sector = some b := by
  unfold BufSys.buf? at absent ⊢
  dsimp only
  induction bufs : s.bufs generalizing s i with
  | nil =>
    rw [bufs] at inside
    exact absurd inside (Nat.not_lt_zero i)
  | cons first rest ih =>
    rw [bufs] at absent inside
    have all := List.find?_eq_none.mp absent
    cases i with
    | zero => exact List.find?_cons_of_pos holds
    | succ i =>
      rw [List.set_cons_succ, List.find?_cons_of_neg (all first List.mem_cons_self)]
      refine @ih { s with bufs := rest } i ?_ (Nat.lt_of_succ_lt_succ inside) rfl
      exact List.find?_eq_none.mpr fun b member => all b (.tail _ member)

theorem victim_lt {bufs : List Buf} {i : Nat} (found : victim bufs = some i) : i < bufs.length := by
  induction bufs generalizing i with
  | nil => cases found
  | cons b bufs ih =>
    unfold victim at found
    rcases later : victim bufs with _ | j
    · rw [later] at found
      dsimp only at found
      split at found
      · rw [← Option.some.inj found]
        exact Nat.zero_lt_succ _
      · cases found
    · rw [later] at found
      rw [← Option.some.inj found]
      exact Nat.succ_lt_succ (ih later)

/-- `bufcache_get` leaves a buffer for the sector that reads as the sector did before. -/
theorem bufcacheGet_loaded (got : bufcacheGet s sector = .ok () t) :
    t.mem = s.mem ∧ ∃ b, t.buf? sector = some b ∧
      (if b.valid || b.dirty then b.data else t.disk sector) = s.loaded sector := by
  unfold bufcacheGet at got
  rcases found : s.buf? sector with _ | b
  · rw [found] at got
    dsimp only at got
    rcases free : victim s.bufs with _ | i
    · rw [free] at got
      cases got
    · rw [free] at got
      injection got with _ state
      subst state
      refine ⟨rfl, _, buf?_set found (victim_lt free) ?_, ?_⟩
      · simp [Buf.holds]
      · simp [BufSys.loaded, found]
  · rw [found] at got
    dsimp only at got
    split at got
    · cases got
    · injection got with _ state
      subst state
      refine ⟨rfl, { b with busy := true }, ?_, ?_⟩
      · have marked := @buf?_modify μ s sector (fun b => { b with busy := true }) fun _ => rfl
        rwa [found] at marked
      · simp [BufSys.loaded, found, BufSys.modify]

theorem bufcacheRead_loaded {data : Bytes} (read : bufcacheRead s sector = .ok data t) :
    data = s.loaded sector ∧ t.mem = s.mem := by
  unfold bufcacheRead at read
  rcases got : bufcacheGet s sector with ⟨_, u⟩ | ⟨w, u⟩
  · obtain ⟨mem, b, found, shows⟩ := bufcacheGet_loaded got
    rw [got] at read
    simp only [found] at read
    rw [← shows, ← mem]
    split at read
    · next valid =>
      injection read with same state
      subst same state
      simp [valid]
    · next invalid =>
      have fresh : b.valid = false := by simpa using invalid
      simp only [ideRw, found, fresh, Bool.false_and] at read
      split at read
      · next stopped => split at stopped <;> cases read
      · next done =>
        split at done
        · cases done
        · injection read with same state
          subst same state
          split at done
          · cases done
          · split at done
            · next dirty =>
              injection done with _ after
              subst after
              simp [dirty, BufSys.modify]
            · next clean =>
              injection done with _ after
              subst after
              simp [fresh, clean, BufSys.modify]
  · rw [got] at read
    cases read

theorem bufcacheRelease_mem (released : bufcacheRelease s sector = .ok () t) : t.mem = s.mem := by
  unfold bufcacheRelease at released
  split at released
  · cases released
  · split at released
    · cases released
    · injection released with _ state
      rw [← state]

end Buffers

/-! ## The programs -/

section Programs
variable {forbidden : Mark → Bool}

section Log
variable {μ : Type} {s : BufSys (LogMem μ)} {sector : Nat}

theorem wp_bread_loaded {Q : Bytes → BufSys (LogMem μ) → Prop}
    (next : ∀ t, t.mem = s.mem → Q (s.loaded sector) t) :
    (logMachine forbidden).Wp (bread sector) s Q fun _ _ => True := by
  refine .op ?_
  change (bufMachine forbidden).Wp (Prog.op (S := BufSig (LogMem μ)) (.read sector)) s Q _
  refine .op ?_
  change Outcome.Sat (bufcacheRead s sector) Q _
  cases read : bufcacheRead s sector with
  | ok data t =>
    obtain ⟨rfl, mem⟩ := bufcacheRead_loaded read
    exact next t mem
  | stop w t => trivial

theorem wp_brelse_mem {Q : Unit → BufSys (LogMem μ) → Prop} (next : ∀ t, t.mem = s.mem → Q () t) :
    (logMachine forbidden).Wp (brelse sector) s Q fun _ _ => True := by
  refine .op ?_
  change (bufMachine forbidden).Wp (Prog.op (S := BufSig (LogMem μ)) (.release sector)) s Q _
  refine .op ?_
  change Outcome.Sat (bufcacheRelease s sector) Q _
  cases released : bufcacheRelease s sector with
  | ok data t => exact next t (bufcacheRelease_mem released)
  | stop w t => trivial

end Log

variable {s : FsState} {ip off n : Nat}

theorem wp_getInode_log {Q : Inode → FsState → Prop} {E : Stop → FsState → Prop}
    (next : Q (s.upper.icache ip) s) : (logMachine forbidden).Wp (getInode ip) s Q E := next

theorem wp_getFs {Q : FsMem → FsState → Prop} {E : Stop → FsState → Prop}
    (next : Q s.upper.rest s) : (fsMachine forbidden).Wp getFs s Q E := next

/-- `inode_lock` loads the inode and leaves the layers above alone. -/
theorem wp_inodeLock_loaded {Q : Unit → FsState → Prop}
    (next : ∀ t, (t.upper.icache ip).toDinode = lockedDinode s ip → t.upper.rest = s.upper.rest →
      Q () t) :
    (logMachine forbidden).Wp (inodeLock ip) s Q fun _ _ => True := by
  unfold inodeLock
  refine .seq (wp_getInode_log ?_)
  split
  · exact .stop trivial
  split
  · exact .stop trivial
  split
  · next valid =>
    refine next _ ?_ rfl
    change (Function.update s.upper.icache ip _ ip).toDinode = _
    simp only [lockedDinode, valid, if_true, Function.update_self]
  · next invalid =>
    refine .seq ?_
    change (logMachine forbidden).Wp _ (s.withUpper _) Q _
    refine .seq (wp_bread_loaded fun t mem => ?_)
    refine .seq (wp_brelse_mem fun u mem' => ?_)
    have rest : u.upper.rest = s.upper.rest := by
      rw [BufSys.upper, mem', mem]
      rfl
    refine .seq ?_
    change (logMachine forbidden).Wp _ (u.withUpper _) Q _
    split
    · exact .stop trivial
    · refine next _ ?_ rest
      have unread : (s.upper.icache ip).valid = false := by simpa using invalid
      simp only [lockedDinode, unread, upper_withUpper, Function.update_self]
      rfl

/-- `inode_read` delivers as many bytes as its loop is told to. -/
theorem wp_readFrom_length {ν : Type} {t : BufSys (LogMem (InodeMem ν))} {fuel : Nat}
    (enough : n ≤ fuel) :
    (logMachine forbidden).Wp (readFrom ip fuel off n) t (fun bytes _ => bytes.length = n)
      fun _ _ => True := by
  induction fuel generalizing off n t with
  | zero => exact .ret (Nat.le_zero.mp enough).symm
  | succ fuel ih =>
    unfold readFrom
    split
    · next none => exact .ret none.symm
    · have offset : off % bSize < bSize := Nat.mod_lt _ (by decide)
      refine .bind (.any _ _) fun bno t _ => ?_
      refine .bind (.any _ _) fun bp t _ => ?_
      refine .bind (.any _ _) fun _ t _ => ?_
      refine .bind (ih (by omega)) fun rest t length => .ret ?_
      rw [List.length_append, length]
      simp only [slice, List.length_map, List.length_range]
      omega

theorem wp_inodeRead_count :
    (logMachine forbidden).Wp (inodeRead ip off n) s
      (fun bytes _ => bytes.map List.length = inodeCount (s.upper.icache ip).toDinode off n)
      fun _ _ => True := by
  unfold inodeRead inodeCount
  refine .seq (wp_getInode_log ?_)
  split
  · unfold devswMissing
    split
    · exact .ret rfl
    · exact .stop trivial
  · split
    · exact .ret rfl
    · refine .bind (wp_readFrom_length (Nat.le_refl _)) fun bytes t length => .ret ?_
      rw [Option.map_some, length]

/-- `file_read` delivers the number of bytes the state before fixes. -/
theorem wp_fileRead_count (f : Nat) :
    (fsMachine forbidden).Wp (fileRead f n) s
      (fun bytes _ => bytes.map List.length = readCount s (s.upper.rest.file f) n)
      fun _ _ => True := by
  unfold fileRead readCount
  refine .seq (wp_getFs ?_)
  dsimp only
  split
  · exact .ret rfl
  · split
    · refine .seq (.op ?_)
      change (logMachine forbidden).Wp (inodeLock _) s _ _
      refine wp_inodeLock_loaded fun t locked rest => ?_
      have delivered := @wp_inodeRead_count forbidden t (s.upper.rest.file f).ip
        (s.upper.rest.file f).off n
      refine .bind (.op delivered) fun bytes u count => ?_
      rw [locked] at count
      cases bytes with
      | some bytes =>
        refine .bind (.any _ _) fun _ u _ => ?_
        exact .bind (.any _ _) fun _ u _ => .ret count
      | none => exact .bind (.any _ _) fun _ u _ => .ret count
    · exact .stop trivial

/-- A call on a descriptor begins by looking up the open file. -/
theorem run_openFile {α : Type} (pid fd : Nat) (next : Nat → FsProg α) :
    (fsMachine forbidden).run (setCurid pid >>= fun _ => openFile fd >>= next) s =
      match descriptor s pid fd with
      | some f => (fsMachine forbidden).run (next f) (calling s pid)
      | none => .stop .undefined (calling s pid) := by
  have switched : (fsMachine forbidden).run (setCurid pid) s = .ok () (calling s pid) := rfl
  have looked : (fsMachine forbidden).run (openFile fd) (calling s pid) =
      match descriptor s pid fd with
      | some f => .ok f (calling s pid)
      | none => .stop .undefined (calling s pid) := by
    have memory : (fsMachine forbidden).run getFs (calling s pid) =
        .ok (calling s pid).upper.rest (calling s pid) := rfl
    rw [openFile, Machine.run_bind_ok memory]
    unfold descriptor
    split
    · rfl
    · change (fsMachine forbidden).run
        (match (s.upper.rest.proc pid).openfiles fd with
          | some f => pure f
          | none => .stop .undefined) _ = _
      cases (s.upper.rest.proc pid).openfiles fd with
      | some f => rfl
      | none => rfl
  rw [Machine.run_bind_ok switched, Machine.run_bind, looked]
  cases descriptor s pid fd with
  | some f => rfl
  | none => rfl

/-- What `sys_read` has delivered when it returns. -/
theorem run_sysRead_count {pid fd : Nat} {reply : Reply} {bytes : List Byte} {t : FsState}
    (returned : (fsMachine forbidden).run (setCurid pid >>= fun _ => sysRead fd n) s =
      .ok (reply, bytes) t) :
    ∃ f, descriptor s pid fd = some f ∧
      (reply.errno = .succ ∧ readCount s (s.upper.rest.file f) n = some bytes.length ∨
        reply.errno = .badf ∧ readCount s (s.upper.rest.file f) n = none ∧ bytes = []) := by
  unfold sysRead at returned
  rw [run_openFile] at returned
  rcases opened : descriptor s pid fd with _ | f
  · rw [opened] at returned
    cases returned
  rw [opened] at returned
  refine ⟨f, rfl, ?_⟩
  have counted : (fsMachine forbidden).Wp (fileRead f n) (calling s pid)
      (fun bytes _ => Option.map List.length bytes = readCount s (s.upper.rest.file f) n)
      fun _ _ => True := wp_fileRead_count f
  dsimp only at returned
  rw [Machine.run_bind] at returned
  cases delivered : (fsMachine forbidden).run (fileRead f n) (calling s pid) with
  | ok r u =>
    have count := counted.of_ok delivered
    rw [delivered] at returned
    cases r with
    | none =>
      cases returned
      exact .inr ⟨rfl, count.symm, rfl⟩
    | some bytes =>
      cases returned
      exact .inl ⟨rfl, count.symm⟩
  | stop w u =>
    rw [delivered] at returned
    cases returned

/-- The return value of `sys_read`: how many bytes it has delivered, or -1. -/
theorem run_sysRead_retval {pid fd : Nat} {reply : Reply} {bytes : List Byte} {t : FsState}
    (returned : (fsMachine forbidden).run (setCurid pid >>= fun _ => sysRead fd n) s =
      .ok (reply, bytes) t) :
    reply.retval1 = some (if reply.errno = .succ then (bytes.length : Int) else -1) := by
  have asserts : (fsMachine forbidden).Wp (setCurid pid >>= fun _ => sysRead fd n) s
      (fun r _ => r.1.retval1 = some (if r.1.errno = .succ then (r.2.length : Int) else -1))
      fun _ _ => True := by
    unfold sysRead
    refine .bind (.any _ _) fun _ _ _ => .bind (.any _ _) fun f _ _ => .bind (.any _ _) fun r _ _ => ?_
    cases r with
    | none => exact .ret rfl
    | some bytes => exact .ret rfl
  exact asserts.of_ok returned

end Programs

end OsAudio.Fs

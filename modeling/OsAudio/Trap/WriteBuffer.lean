import OsAudio.Trap.ReadBuffer

/-!
# What `sys_write` puts into a file

`sys_write` copies the bytes of the process to `fbuf` without looking at the size of the buffer or
at the result of the copy, and then writes as many bytes of `fbuf` as it was asked for to the file.
-/
namespace OsAudio.Trap
open OsAudio.Lib OsAudio.Pmm OsAudio.Vmm OsAudio.Thread

/-! ## The property -/

/-- The byte of a process at an address of its own. -/
def callerByte (L : Layout) (ram : Ram) (pid va : Nat) : Option Nat :=
  if UserAddr va then userByte L ram pid va else none

/-- `sys_write` has put the bytes of the process into the file and says so, or it has failed and says
so; in any case it has copied to nothing but `fbuf`. -/
structure WritesOrFails (E : Env) (s : System) (tf : TrapFrame) (f : Nat) (c : Call) : Prop where
  outcome : c.reported = some .succ ∧ c.frame.regs.ebx = BitVec.ofNat 32 (syscallGetArg4 tf) ∨
    c.reported = some .badf ∧ c.frame.regs.ebx = BitVec.ofInt 32 (-1)
  written : c.reported = some .succ → ∀ i, i < syscallGetArg4 tf →
    (Fs.nodeOf c.system.fs.content (Fs.fileInum s.fs f)).data[(s.fs.upper.rest.file f).off + i]?.map
        BitVec.toNat =
      callerByte E.layout c.vm.ram s.curid (syscallGetArg3 tf + i) ∧
    ∀ b, callerByte E.layout s.vm.ram s.curid (syscallGetArg3 tf + i) = some b →
      callerByte E.layout c.vm.ram s.curid (syscallGetArg3 tf + i) = some b
  advanced : c.reported = some .succ →
    (c.system.fs.upper.rest.file f).off = (s.fs.upper.rest.file f).off + syscallGetArg4 tf
  staged : ∀ i, Store.fbuf i ∈ c.stores → i < fbufSize

/-- The copy is refused or fits into `fbuf`, and if `file_write` has something to write and can do so,
all the bytes are there to be copied. -/
def StagesAll (E : Env) (s : System) (tf : TrapFrame) (f : Nat) : Prop :=
  (accepted (syscallGetArg3 tf) E.fbuf (syscallGetArg4 tf) → syscallGetArg4 tf ≤ fbufSize) ∧
  (0 < syscallGetArg4 tf → syscallGetArg4 tf < 2147483648 →
    (Fs.nodeOf s.fs.content (Fs.fileInum s.fs f)).Takes (s.fs.upper.rest.file f).off (syscallGetArg4 tf) →
    vmUserLo ≤ syscallGetArg3 tf ∧ syscallGetArg3 tf + syscallGetArg4 tf ≤ vmUserHi ∧
    pagesMissing E.layout s.vm.ram s.curid (syscallGetArg3 tf) (syscallGetArg4 tf) ≤
      supply s.vm.mem s.curid)

/-! ## The call -/

section Call
variable {E : Env} {s : System} {tf : TrapFrame} {base : Ram}

/-- The copy `sys_write` makes of the bytes of the process. -/
def writeCopy (E : Env) (s : System) (tf : TrapFrame) : Copied :=
  ptCopyin E.layout s.vm s.curid (syscallGetArg3 tf) E.fbuf (syscallGetArg4 tf)

/-- What `sys_write` has `file_write` do. -/
def writeRun (forbidden : Fs.Mark → Bool) (E : Env) (s : System) (tf : TrapFrame) :
    Outcome Fs.Stop Fs.FsState Fs.Reply :=
  (Fs.fsMachine forbidden).run (Fs.setCurid s.curid >>= fun _ => writeProg (syscallGetArg2 tf)
    (syscallGetArg4 tf) (bytesAt (writeCopy E s tf).vm.ram E.fbuf (syscallGetArg4 tf))) s.fs

/-- The end of `sys_write`, after `file_write`. -/
def writeEnds (E : Env) (s : System) (tf : TrapFrame) (fs : Fs.FsState) (reply : Fs.Reply) : Call :=
  (⟨{ s.withVm (writeCopy E s tf).vm with fs := fs }, tf, none,
    (List.range (writeCopy E s tf).copied).map .fbuf⟩ : Call).answer reply

theorem sysWrite_ok {c : Call} (done : sysWrite E (entered s tf) = .ok c) : ∃ reply fs,
    writeRun (fun _ => false) E s tf = .ok reply fs ∧ c = writeEnds E s tf fs reply := by
  obtain ⟨reply, e, called, rest⟩ := fileSystem_then done
  obtain ⟨fs, run, rfl⟩ := fileSystem_ok called
  cases rest
  exact ⟨reply, fs, run, rfl⟩

theorem sysWrite_of_run {reply : Fs.Reply} {fs : Fs.FsState}
    (run : writeRun (fun _ => false) E s tf = .ok reply fs) :
    sysWrite E (entered s tf) = .ok (writeEnds E s tf fs reply) := by
  have called := @fileSystem_of_run _
    ((entered s tf).copyin E (syscallGetArg3 tf) E.fbuf (syscallGetArg4 tf) .fbuf).2 (writeProg (syscallGetArg2 tf)
      (syscallGetArg4 tf) (bytesAt (writeCopy E s tf).vm.ram E.fbuf (syscallGetArg4 tf))) _ _ run
  exact congrArg (fun r => r >>= fun p => pure (p.2.answer p.1)) called

variable {fs : Fs.FsState} {reply : Fs.Reply}

theorem writeEnds_fields :
    (writeEnds E s tf fs reply).vm = (writeCopy E s tf).vm ∧
    (writeEnds E s tf fs reply).system.fs = fs ∧
    (writeEnds E s tf fs reply).stores = (List.range (writeCopy E s tf).copied).map .fbuf ∧
    (writeEnds E s tf fs reply).reported = some (.ofFs reply.errno) := by
  unfold writeEnds Call.answer
  split
  · exact ⟨rfl, rfl, rfl, rfl⟩
  · exact ⟨rfl, rfl, rfl, rfl⟩

theorem writeEnds_ebx {retval : Int} (value : reply.retval1 = some retval) :
    (writeEnds E s tf fs reply).frame.regs.ebx = BitVec.ofInt 32 retval := by
  unfold writeEnds Call.answer
  rw [value]
  rfl

/-- A length that is negative as an `int` is refused. -/
theorem writeRun_negative {forbidden : Fs.Mark → Bool} (negative : 2147483648 ≤ syscallGetArg4 tf)
    (run : writeRun forbidden E s tf = .ok reply fs) : reply = ⟨.badf, some (-1)⟩ := by
  have asserts : (Fs.fsMachine forbidden).Wp (Fs.setCurid s.curid >>= fun _ => writeProg
      (syscallGetArg2 tf) (syscallGetArg4 tf)
      (bytesAt (writeCopy E s tf).vm.ram E.fbuf (syscallGetArg4 tf))) s.fs
      (fun r _ => r = ⟨.badf, some (-1)⟩) fun _ _ => True := by
    unfold writeProg
    rw [if_neg (Nat.not_lt.mpr negative)]
    unfold writeNegative
    refine .bind (.any _ _) fun _ _ _ => .bind (.any _ _) fun f _ _ => .bind (.any _ _) fun mem _ _ => ?_
    split
    · exact .ret rfl
    split
    · exact .ret rfl
    · exact .stop trivial
  exact asserts.of_ok run

/-- All that is staged is in `fbuf`. -/
theorem staged_iff : (∀ i, Store.fbuf i ∈ (writeEnds E s tf fs reply).stores → i < fbufSize) ↔
    (accepted (syscallGetArg3 tf) E.fbuf (syscallGetArg4 tf) → syscallGetArg4 tf ≤ fbufSize) := by
  have copied : (writeCopy E s tf).copied =
      if accepted (syscallGetArg3 tf) E.fbuf (syscallGetArg4 tf) then syscallGetArg4 tf else 0 := copy_copied
  rw [writeEnds_fields.2.2.1, copied]
  simp only [List.mem_map, List.mem_range, Store.fbuf.injEq, exists_eq_right]
  constructor
  · intro all admitted
    rw [if_pos admitted] at all
    by_contra more
    exact absurd (all fbufSize (by omega)) (Nat.lt_irrefl _)
  · intro bound i below
    split at below
    · next admitted => exact Nat.lt_of_lt_of_le below (bound admitted)
    · exact absurd below (Nat.not_lt_zero i)

end Call

/-! ## The memory of the process -/

section Memory
variable {E : Env} {s : System} {tf : TrapFrame} {base : Ram}

@[simp] theorem length_bytesAt (ram : Ram) (addr n : Nat) : (bytesAt ram addr n).length = n := by
  simp [bytesAt]

theorem getElem?_bytesAt {ram : Ram} {addr n i : Nat} (fits : addr + n ≤ word) (below : i < n) :
    (bytesAt ram addr n)[i]?.map BitVec.toNat = some (byteAt ram (addr + i)) := by
  have place : (addr + i) % word = addr + i := Nat.mod_eq_of_lt (by omega)
  have small := byteAt_lt ram (addr + i)
  unfold bytesAt
  rw [List.getElem?_map, List.getElem?_range below, Option.map_some, Option.map_some, place,
    BitVec.toNat_ofNat, Nat.mod_eq_of_lt (by omega)]

theorem writeCopy_accepted (admitted : accepted (syscallGetArg3 tf) E.fbuf (syscallGetArg4 tf)) :
    writeCopy E s tf = copyLoop E.layout .copyin s.curid (syscallGetArg4 tf) s.vm (syscallGetArg3 tf)
      E.fbuf (syscallGetArg4 tf) := if_pos admitted

theorem callerByte_user {L : Layout} {ram : Ram} {pid va : Nat} (user : UserAddr va) :
    callerByte L ram pid va = userByte L ram pid va := if_pos user

/-- A copy that gets all its pages fills `fbuf` with the bytes of the process. -/
theorem writeCopy_all (inv : Isolated E.layout base s.vm) (user : UserProc s.curid)
    (bounds : TableBounds s.vm.mem.phys) (short : syscallGetArg4 tf ≤ fbufSize)
    (low : vmUserLo ≤ syscallGetArg3 tf) (high : syscallGetArg3 tf + syscallGetArg4 tf ≤ vmUserHi)
    (enough : pagesMissing E.layout s.vm.ram s.curid (syscallGetArg3 tf) (syscallGetArg4 tf) ≤
      supply s.vm.mem s.curid) :
    CopiedIn E.layout base s.curid (syscallGetArg3 tf) E.fbuf (syscallGetArg4 tf) s.vm
      (writeCopy E s tf).vm := by
  have buffer := E.fbuf_kernel.shorter short
  rw [writeCopy_accepted (accepted_of_range low high E.fbuf_kernel.low)]
  refine copyLoop_copyin inv user (Nat.le_refl _) low high buffer ?_
  exact (copyLoop_mapped_iff inv bounds user (Nat.le_refl _) low high fun _ => buffer).mpr enough

/-- The process has all the bytes after the copy exactly if it could get all the pages. -/
theorem callerByte_copied_iff (inv : Isolated E.layout base s.vm) (user : UserProc s.curid)
    (bounds : TableBounds s.vm.mem.phys) (more : 0 < syscallGetArg4 tf)
    (short : accepted (syscallGetArg3 tf) E.fbuf (syscallGetArg4 tf) → syscallGetArg4 tf ≤ fbufSize) :
    (∀ i, i < syscallGetArg4 tf →
      callerByte E.layout (writeCopy E s tf).vm.ram s.curid (syscallGetArg3 tf + i) ≠ none) ↔
    vmUserLo ≤ syscallGetArg3 tf ∧ syscallGetArg3 tf + syscallGetArg4 tf ≤ vmUserHi ∧
    pagesMissing E.layout s.vm.ram s.curid (syscallGetArg3 tf) (syscallGetArg4 tf) ≤
      supply s.vm.mem s.curid := by
  constructor
  · intro all
    have addresses : ∀ i, i < syscallGetArg4 tf → UserAddr (syscallGetArg3 tf + i) := by
      intro i below
      by_contra outside
      exact all i below (if_neg outside)
    have low : vmUserLo ≤ syscallGetArg3 tf := (addresses 0 more).1
    have high := (addresses (syscallGetArg4 tf - 1) (by omega)).2
    have top : syscallGetArg3 tf + syscallGetArg4 tf ≤ vmUserHi := by omega
    have admitted := accepted_of_range low top E.fbuf_kernel.low
    have buffer := E.fbuf_kernel.shorter (short admitted)
    rw [writeCopy_accepted admitted] at all
    have mapped := (copyLoop_copyin_pages inv user (Nat.le_refl _) low top buffer).2.mpr ?_
    · exact ⟨low, top,
        (copyLoop_mapped_iff inv bounds user (Nat.le_refl _) low top fun _ => buffer).mp mapped⟩
    intro i below absent
    apply all i below
    rw [callerByte_user (addresses i below), userByte, absent, Option.map_none]
  · rintro ⟨low, high, enough⟩ i below
    have copied := writeCopy_all inv user bounds (short (accepted_of_range low high E.fbuf_kernel.low)) low high enough
    rw [callerByte_user ⟨by omega, by omega⟩, copied.bytes i below]
    nofun

end Memory

/-! ## The theorem -/

section File
variable {E : Env} {s : System} {tf : TrapFrame} {base : Ram} {fs : Fs.FsState} {reply : Fs.Reply} {f : Nat}

/-- A call that fails has only its copy to answer for. -/
theorem writesOrFails_badf (failed : reply = ⟨.badf, some (-1)⟩) :
    WritesOrFails E s tf f (writeEnds E s tf fs reply) ↔
      (accepted (syscallGetArg3 tf) E.fbuf (syscallGetArg4 tf) → syscallGetArg4 tf ≤ fbufSize) := by
  subst failed
  have reported := (@writeEnds_fields E s tf fs ⟨.badf, some (-1)⟩).2.2.2
  have unsuccessful : (writeEnds E s tf fs ⟨.badf, some (-1)⟩).reported ≠ some .succ := by
    rw [reported]
    nofun
  constructor
  · intro writes
    exact staged_iff.mp writes.staged
  · intro short
    exact ⟨Or.inr ⟨reported, writeEnds_ebx rfl⟩, fun success => absurd success unsuccessful,
      fun success => absurd success unsuccessful, staged_iff.mpr short⟩

/-- What `file_write` does with the bytes in `fbuf`. -/
theorem writeRun_bytes {sb : Fs.Superblock} {files : Fs.Files Fs.FsMem}
    (serves : Fs.Serves none sb s.fs files) (opened : s.descriptor tf = some f)
    (known : Fs.fileInum s.fs f < sb.ninodes) (writable : (s.fs.upper.rest.file f).writable = true)
    (unlogged : (writeRun Fs.noLogBlock E s tf).reason ≠ some (.marked .logBlock))
    (positive : syscallGetArg4 tf < 2147483648)
    (run : writeRun (fun _ => false) E s tf = .ok reply fs) :
    if syscallGetArg4 tf = 0 ∨ (Fs.nodeOf s.fs.content (Fs.fileInum s.fs f)).Takes
        (s.fs.upper.rest.file f).off (syscallGetArg4 tf) then
      reply = ⟨.succ, some (syscallGetArg4 tf : Nat)⟩ ∧
      (Fs.nodeOf fs.content (Fs.fileInum s.fs f)).data =
        Fs.splice (Fs.fileBytes s.fs f) (s.fs.upper.rest.file f).off
          (bytesAt (writeCopy E s tf).vm.ram E.fbuf (syscallGetArg4 tf)) ∧
      (fs.upper.rest.file f).off = (s.fs.upper.rest.file f).off + syscallGetArg4 tf
    else reply = ⟨.badf, some (-1)⟩ := by
  have unmarked : ∀ mark, Fs.noLogBlock mark = true →
      (writeRun Fs.noLogBlock E s tf).reason ≠ some (.marked mark) := by
    intro mark forbidden
    cases mark
    all_goals first | exact unlogged | cases forbidden
  have safe := Fs.run_unmarked unmarked run
  unfold writeProg at safe
  rw [if_pos positive] at safe
  have bytes := serves.sysWrite_bytes rfl opened known writable safe
  simp only [← List.length_eq_zero_iff, length_bytesAt] at bytes
  exact bytes

/-- The bytes of the file at the old offset, after `file_write`, are those of `fbuf`. -/
theorem getElem?_written {i : Nat} (place : (s.fs.upper.rest.file f).off ≤ (Fs.fileBytes s.fs f).length)
    (data : (Fs.nodeOf fs.content (Fs.fileInum s.fs f)).data =
      Fs.splice (Fs.fileBytes s.fs f) (s.fs.upper.rest.file f).off
        (bytesAt (writeCopy E s tf).vm.ram E.fbuf (syscallGetArg4 tf)))
    (below : i < syscallGetArg4 tf) :
    (Fs.nodeOf fs.content (Fs.fileInum s.fs f)).data[(s.fs.upper.rest.file f).off + i]? =
      (bytesAt (writeCopy E s tf).vm.ram E.fbuf (syscallGetArg4 tf))[i]? := by
  rw [data, Fs.getElem?_splice place, length_bytesAt, if_pos ⟨by omega, by omega⟩, Nat.add_sub_cancel_left]

/-- A call that succeeds must have had all the bytes of the process. -/
theorem writesOrFails_succ (inv : Isolated E.layout base s.vm) (user : UserProc s.curid)
    (bounds : TableBounds s.vm.mem.phys) (succeeded : reply = ⟨.succ, some (syscallGetArg4 tf : Nat)⟩)
    (place : 0 < syscallGetArg4 tf → (s.fs.upper.rest.file f).off ≤ (Fs.fileBytes s.fs f).length)
    (data : (Fs.nodeOf fs.content (Fs.fileInum s.fs f)).data =
      Fs.splice (Fs.fileBytes s.fs f) (s.fs.upper.rest.file f).off
        (bytesAt (writeCopy E s tf).vm.ram E.fbuf (syscallGetArg4 tf)))
    (offset : (fs.upper.rest.file f).off = (s.fs.upper.rest.file f).off + syscallGetArg4 tf) :
    WritesOrFails E s tf f (writeEnds E s tf fs reply) ↔
      (accepted (syscallGetArg3 tf) E.fbuf (syscallGetArg4 tf) → syscallGetArg4 tf ≤ fbufSize) ∧
      (0 < syscallGetArg4 tf →
        vmUserLo ≤ syscallGetArg3 tf ∧ syscallGetArg3 tf + syscallGetArg4 tf ≤ vmUserHi ∧
        pagesMissing E.layout s.vm.ram s.curid (syscallGetArg3 tf) (syscallGetArg4 tf) ≤
          supply s.vm.mem s.curid) := by
  obtain ⟨vm, after, -, reported⟩ := @writeEnds_fields E s tf fs reply
  have success : (writeEnds E s tf fs reply).reported = some .succ := by
    rw [reported, succeeded]
    rfl
  constructor
  · intro writes
    have short := staged_iff.mp writes.staged
    refine ⟨short, fun more => (callerByte_copied_iff inv user bounds more short).mp ?_⟩
    intro i below absent
    have seen := (writes.written success i below).1
    rw [after, getElem?_written (place more) data below, vm, absent, Option.map_eq_none_iff,
      List.getElem?_eq_none_iff, length_bytesAt] at seen
    omega
  · rintro ⟨short, present⟩
    refine ⟨Or.inl ⟨success, ?_⟩, fun _ i below => ?_, fun _ => by rw [after, offset],
      staged_iff.mpr short⟩
    · rw [@writeEnds_ebx E s tf fs reply (syscallGetArg4 tf : Nat) (by rw [succeeded])]
      exact BitVec.ofInt_natCast 32 _
    · have more := Nat.zero_lt_of_lt below
      obtain ⟨low, high, enough⟩ := present more
      have few := short (accepted_of_range low high E.fbuf_kernel.low)
      have copied := writeCopy_all inv user bounds few low high enough
      have mine : UserAddr (syscallGetArg3 tf + i) := ⟨by omega, by omega⟩
      rw [after, getElem?_written (place more) data below, vm, getElem?_bytesAt (fbuf_fits E few) below,
        callerByte_user mine, callerByte_user mine, copied.bytes i below]
      refine ⟨rfl, fun b seen => ?_⟩
      rw [← copied.bytes i below]
      exact copied.memory _ mine b seen

end File

/-- When `sys_write` on a writable descriptor returns and no block of the log was handed out on the way,
then it has put the bytes of the process into the file, advanced the offset and returned their number, or
has returned -1, and has copied to nothing but `fbuf`, if and only if it staged at most `sizeof (fbuf)`
bytes and, in case the file takes them, all of them were there. -/
theorem sysWrite_writes_iff (E : Env) (base : Ram) (s : System) (tf : TrapFrame) (sb : Fs.Superblock)
    (files : Fs.Files Fs.FsMem) (f : Nat) (c : Call) (inv : Isolated E.layout base s.vm)
    (user : UserProc s.curid) (bounds : TableBounds s.vm.mem.phys)
    (serves : Fs.Serves none sb s.fs files) (opened : s.descriptor tf = some f)
    (known : Fs.fileInum s.fs f < sb.ninodes) (writable : (s.fs.upper.rest.file f).writable = true)
    (unlogged : (writeRun Fs.noLogBlock E s tf).reason ≠ some (.marked .logBlock))
    (done : sysWrite E (entered s tf) = .ok c) :
    WritesOrFails E s tf f c ↔ StagesAll E s tf f := by
  obtain ⟨reply, fs, run, rfl⟩ := sysWrite_ok done
  by_cases negative : 2147483648 ≤ syscallGetArg4 tf
  · rw [writesOrFails_badf (writeRun_negative negative run)]
    exact ⟨fun short => ⟨short, fun _ positive => absurd positive (Nat.not_lt.mpr negative)⟩, And.left⟩
  have positive := Nat.not_le.mp negative
  have bytes := writeRun_bytes serves opened known writable unlogged positive run
  split at bytes
  · next takes =>
    obtain ⟨succeeded, data, offset⟩ := bytes
    have place : 0 < syscallGetArg4 tf →
        (s.fs.upper.rest.file f).off ≤ (Fs.fileBytes s.fs f).length := by
      intro more
      exact (takes.resolve_left (Nat.ne_of_gt more)).2.1
    rw [writesOrFails_succ inv user bounds succeeded place data offset]
    refine and_congr_right fun _ => ⟨fun present more _ _ => present more, fun present more => ?_⟩
    exact present more positive (takes.resolve_left (Nat.ne_of_gt more))
  · next refused =>
    rw [writesOrFails_badf bytes]
    exact ⟨fun short => ⟨short, fun _ _ takes => absurd (Or.inr takes) refused⟩, And.left⟩

/-! ## A byte more -/

/-- Process 1 has the byte of the file in its memory, and so has `fbuf`. -/
def writer : System := reader.withVm (readCopy kernelEnv reader (readFrame 1) [7]).vm

/-- `write (0, buf, 1)` -/
def writeFrame (buf : Word) : TrapFrame :=
  ⟨⟨0, 0, 0, 0, 0, 1, buf, 8⟩, 0, 0, 0, 0, 48, 0, 0, 0, 0, 0, 0, 0, 0⟩

theorem writer_curid : writer.curid = 1 := (withVm_fs reader _ reader.fs).1.trans reader_curid

theorem writer_vm : writer.vm = (readCopy kernelEnv reader (readFrame 1) [7]).vm := (withVm_fs reader _ reader.fs).2.1

theorem writer_fs : writer.fs = readerFs := (withVm_fs reader _ reader.fs).2.2.trans reader_fs

/-- Bytes in `fbuf` are copied to the page of process 1. -/
theorem reader_copied {tf : TrapFrame} {bytes : List Byte} (buf : syscallGetArg3 tf = vmUserLo)
    (length : syscallGetArg4 tf = bytes.length) (more : 0 < bytes.length) (few : bytes.length ≤ pageSize) :
    CopiedOut kernelLayout (vmInit kernelLayout fourPages fun _ => 0).ram 1 vmUserLo kernelEnv.fbuf
      bytes.length (filled kernelEnv reader.vm bytes) (readCopy kernelEnv reader tf bytes).vm := by
  have fits : bytes.length ≤ fbufSize := few.trans (by decide)
  have high : syscallGetArg3 tf + syscallGetArg4 tf ≤ vmUserHi := by
    rw [buf, length]
    exact (Nat.add_le_add_left few vmUserLo).trans (by decide)
  have short : syscallGetArg4 tf ≤ fbufSize := length ▸ fits
  have admitted : accepted (syscallGetArg3 tf) kernelEnv.fbuf (syscallGetArg4 tf) :=
    accepted_of_range (Nat.le_of_eq buf.symm) high kernelEnv.fbuf_kernel.low
  have enough : pagesMissing kernelEnv.layout reader.vm.ram reader.curid (syscallGetArg3 tf)
      (syscallGetArg4 tf) ≤ supply reader.vm.mem reader.curid := by
    rw [reader_vm, reader_curid, buf, length]
    exact (Nat.le_of_eq (reader_pages more few)).trans (Nat.zero_le _)
  have mapped := (@readCopy_mapped_iff kernelEnv reader tf _ bytes reader_isolated reader_user
    reader_bounds fits short admitted high).mpr enough
  have copied := readCopy_all reader_isolated reader_user fits short admitted high mapped
  rwa [reader_curid, buf, length] at copied

theorem writer_copied : CopiedOut kernelLayout (vmInit kernelLayout fourPages fun _ => 0).ram 1 vmUserLo
    kernelEnv.fbuf 1 (filled kernelEnv reader.vm [7]) writer.vm := by
  rw [writer_vm]
  exact @reader_copied (readFrame 1) [7] rfl rfl (by decide) (by decide)

theorem writer_isolated : Isolated kernelLayout (vmInit kernelLayout fourPages fun _ => 0).ram writer.vm :=
  writer_copied.isolated

theorem writer_user : UserProc writer.curid := by
  rw [writer_curid]
  decide

theorem writer_bounds : TableBounds writer.vm.mem.phys := by
  rw [writer_vm]
  exact readCopy_bounds reader_bounds

theorem writer_fbuf : byteAt writer.vm.ram kernelEnv.fbuf = 7 := by
  have word : KernelWord kernelLayout (kernelEnv.fbuf / 4 * 4) :=
    kernelEnv.fbuf_kernel.kernelWord (show 0 < fbufSize by decide)
  have filled := @byteAt_filled kernelEnv [7] reader.vm (by decide) 0 (by decide)
  rw [byteAt_congr (writer_copied.kernel _ word)]
  exact Option.some.inj filled

theorem writer_byte : userByte kernelLayout writer.vm.ram 1 vmUserLo = some 7 := by
  have copied := writer_copied.bytes 0 (by decide)
  have filled := @byteAt_filled kernelEnv [7] reader.vm (by decide) 0 (by decide)
  exact copied.trans filled

theorem writer_supplied : pagesMissing kernelEnv.layout writer.vm.ram writer.curid
    (syscallGetArg3 (writeFrame 0x40000000)) (syscallGetArg4 (writeFrame 0x40000000)) ≤
      supply writer.vm.mem writer.curid := by
  obtain ⟨frame, present, -⟩ := userByte_eq_some.mp writer_byte
  have missing := @pagesMissing_present kernelLayout 1 vmUserLo 1 1 writer.vm.ram frame (by decide) (by decide)
    (by decide) (by decide) present
  rw [writer_curid]
  change pagesMissing kernelLayout writer.vm.ram 1 vmUserLo 1 ≤ _
  rw [missing]
  exact Nat.zero_le _

/-- The write of the byte at the end of the file. -/
theorem readerFs_write :
    (readerFs.upper.rest.file 0).writable = true ∧ (readerFs.upper.rest.file 0).off = 1 ∧
    ((Fs.fsMachine Fs.noLogBlock).run (Fs.setCurid 1 >>= fun _ => Fs.sysWrite 0 [7]) readerFs).result =
      some ⟨.succ, some 1⟩ ∧
    ((Fs.fsMachine fun _ => false).run (Fs.setCurid 1 >>= fun _ => Fs.sysWrite 0 [7]) readerFs).result =
      some ⟨.succ, some 1⟩ ∧
    (Fs.nodeOf ((Fs.fsMachine fun _ => false).run (Fs.setCurid 1 >>= fun _ => Fs.sysWrite 0 [7])
      readerFs).state.content (Fs.fileInum readerFs 0)).data[1]? = some 7 := by decide +kernel

/-- With the byte in `fbuf`, this is what `sys_write` has `file_write` do. -/
theorem writer_run {forbidden : Fs.Mark → Bool} {buf : Word}
    (staged : byteAt (writeCopy kernelEnv writer (writeFrame buf)).vm.ram kernelEnv.fbuf = 7) :
    writeRun forbidden kernelEnv writer (writeFrame buf) =
      (Fs.fsMachine forbidden).run (Fs.setCurid 1 >>= fun _ => Fs.sysWrite 0 [7]) readerFs := by
  have bytes : bytesAt (writeCopy kernelEnv writer (writeFrame buf)).vm.ram kernelEnv.fbuf 1 = [7] := by
    change [BitVec.ofNat 8 (byteAt _ (kernelEnv.fbuf + 0))] = [7]
    rw [Nat.add_zero, staged]
    rfl
  unfold writeRun
  rw [writer_curid, writer_fs]
  change (Fs.fsMachine forbidden).run (Fs.setCurid 1 >>= fun _ => Fs.sysWrite 0 (bytesAt _ _ 1)) readerFs = _
  rw [bytes]

theorem writer_descriptor (buf : Word) : writer.descriptor (writeFrame buf) = some 0 := by
  unfold System.descriptor
  rw [writer_curid, writer_fs]
  exact readerFs_files.1

theorem writer_serves : ∃ files, Fs.Serves none ⟨64, 48, 16, 10⟩ writer.fs files := by
  rw [writer_fs]
  exact reader_serves

theorem writer_unlogged {buf : Word}
    (staged : byteAt (writeCopy kernelEnv writer (writeFrame buf)).vm.ram kernelEnv.fbuf = 7) :
    (writeRun Fs.noLogBlock kernelEnv writer (writeFrame buf)).reason ≠ some (.marked .logBlock) := by
  obtain ⟨-, -, run, -⟩ := readerFs_write
  rw [writer_run staged, Outcome.eq_ok_of_result run]
  nofun

/-- Process 1 writes the byte it has read. -/
theorem sysWrite_writes_writer : ∃ files c, Fs.Serves none ⟨64, 48, 16, 10⟩ writer.fs files ∧
    sysWrite kernelEnv (entered writer (writeFrame 0x40000000)) = .ok c ∧
    WritesOrFails kernelEnv writer (writeFrame 0x40000000) 0 c := by
  obtain ⟨files, serves⟩ := writer_serves
  obtain ⟨writable, -, -, run, -⟩ := readerFs_write
  have known := readerFs_files.2.2.1
  rw [← writer_fs] at writable known
  have copied := @writeCopy_all kernelEnv writer (writeFrame 0x40000000) _ writer_isolated writer_user
    writer_bounds (by decide) (by decide) (by decide) writer_supplied
  have staged : byteAt (writeCopy kernelEnv writer (writeFrame 0x40000000)).vm.ram kernelEnv.fbuf = 7 := by
    have kept := copied.memory vmUserLo (by decide) 7 (by rw [writer_curid]; exact writer_byte)
    exact Option.some.inj ((copied.bytes 0 (by decide)).symm.trans kept)
  have ended := Outcome.eq_ok_of_result run
  rw [← writer_run staged] at ended
  refine ⟨files, _, serves, sysWrite_of_run ended, ?_⟩
  refine (sysWrite_writes_iff kernelEnv _ writer (writeFrame 0x40000000) ⟨64, 48, 16, 10⟩ files 0 _
    writer_isolated writer_user writer_bounds serves (writer_descriptor _) known writable
    (writer_unlogged staged) (sysWrite_of_run ended)).mpr ?_
  exact ⟨fun _ => by decide, fun _ _ _ => ⟨by decide, by decide, writer_supplied⟩⟩

/-- A write from address 0 puts what `fbuf` holds into the file and reports success. -/
theorem sysWrite_stale :
    Isolated kernelLayout (vmInit kernelLayout fourPages fun _ => 0).ram writer.vm ∧
    UserProc writer.curid ∧ (∃ files, Fs.Serves none ⟨64, 48, 16, 10⟩ writer.fs files) ∧
    writer.descriptor (writeFrame 0) = some 0 ∧ (writer.fs.upper.rest.file 0).writable = true ∧
    (writeRun Fs.noLogBlock kernelEnv writer (writeFrame 0)).reason ≠ some (.marked .logBlock) ∧
    ∃ c, sysWrite kernelEnv (entered writer (writeFrame 0)) = .ok c ∧
      c.reported = some .succ ∧ c.frame.regs.ebx = 1 ∧
      (Fs.nodeOf c.system.fs.content (Fs.fileInum writer.fs 0)).data[1]? = some 7 ∧
      callerByte kernelLayout c.vm.ram writer.curid 0 = none ∧
      ¬ WritesOrFails kernelEnv writer (writeFrame 0) 0 c := by
  obtain ⟨writable, offset, -, run, written⟩ := readerFs_write
  have refused : (writeCopy kernelEnv writer (writeFrame 0)).vm = writer.vm := by
    unfold writeCopy ptCopyin copy
    rw [if_neg (by decide)]
  have staged : byteAt (writeCopy kernelEnv writer (writeFrame 0)).vm.ram kernelEnv.fbuf = 7 := by
    rw [refused]
    exact writer_fbuf
  obtain ⟨fs, ended, written⟩ : ∃ fs, writeRun (fun _ => false) kernelEnv writer (writeFrame 0) =
      .ok ⟨.succ, some 1⟩ fs ∧ (Fs.nodeOf fs.content (Fs.fileInum readerFs 0)).data[1]? = some 7 := by
    rw [writer_run staged]
    exact ⟨_, Outcome.eq_ok_of_result run, written⟩
  obtain ⟨-, after, -, reported⟩ := @writeEnds_fields kernelEnv writer (writeFrame 0) fs ⟨.succ, some 1⟩
  have returned := @writeEnds_ebx kernelEnv writer (writeFrame 0) fs ⟨.succ, some 1⟩ 1 rfl
  have outside : ∀ ram, callerByte kernelLayout ram writer.curid 0 = none := fun _ => if_neg (by decide)
  rw [← after, ← writer_fs] at written
  rw [← writer_fs] at writable offset
  refine ⟨writer_isolated, writer_user, writer_serves, writer_descriptor 0, writable,
    writer_unlogged staged, _, sysWrite_of_run ended, reported, returned, written, outside _, ?_⟩
  intro writes
  obtain ⟨same, -⟩ := writes.written reported 0 (by decide)
  rw [offset] at same
  exact absurd (same.trans (outside _)) (by rw [written]; nofun)

end OsAudio.Trap

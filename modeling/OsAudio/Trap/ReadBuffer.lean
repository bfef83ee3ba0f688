import OsAudio.Fs.FileBytes
import OsAudio.Trap.Dispatch
import OsAudio.Vmm.Alike

/-!
# What `sys_read` lets a process see

All processes read files through the one buffer `fbuf`.  `sys_read` fills as much of it as
`file_read` delivers and then copies as much as the process asked for, so after a short read the
process gets bytes that an earlier call has left there.
-/
namespace OsAudio.Trap
open OsAudio.Lib OsAudio.Pmm OsAudio.Vmm OsAudio.Thread

/-! ## The property -/

/-- The systems differ in what the `size` bytes from `kva` on hold, if at all. -/
structure SameBut (kva size : Nat) (s t : System) : Prop where
  rest : t = s.withVm ⟨s.vm.mem, t.vm.ram⟩
  words : ∀ w, (∀ i, i < size → (kva + i) % word / 4 * 4 ≠ w) → t.vm.ram w = s.vm.ram w
  bytes : ∀ addr, addr < kva ∨ kva + size ≤ addr → byteAt t.vm.ram addr = byteAt s.vm.ram addr

/-- The call has written the bytes `[buf, buf + r)` of the process and no others, and they are
those of `file` from `off` on. -/
structure Delivered (E : Env) (s : System) (buf r : Nat) (file : List Byte) (off : Nat) (c : Call) :
    Prop where
  confined : ∀ a, Store.user s.curid a ∈ c.stores → a.Confined E.layout s.curid
  written : ∀ va, (∃ a, Store.user s.curid a ∈ c.stores ∧ a.va ≤ va ∧ va < a.va + a.size) ↔
    buf ≤ va ∧ va < buf + r
  content : ∀ i, i < r →
    userByte E.layout c.vm.ram s.curid (buf + i) = file[off + i]?.map BitVec.toNat
  others : ∀ va, UserAddr va → va < buf ∨ buf + r ≤ va → ∀ b,
    userByte E.layout s.vm.ram s.curid va = some b → userByte E.layout c.vm.ram s.curid va = some b

/-- The memory of the process after the call does not depend on what `fbuf` held, and a result
`r ≥ 0` says how many bytes of the file were written to it. -/
structure RevealsFile (E : Env) (s : System) (tf : TrapFrame) (file : List Byte) (off : Nat)
    (c : Call) : Prop where
  unaffected : ∀ t, SameBut E.fbuf fbufSize s t → ∃ d, sysRead E (entered t tf) = .ok d ∧
    ∀ va, UserAddr va → userByte E.layout d.vm.ram s.curid va = userByte E.layout c.vm.ram s.curid va
  delivered : ∀ r : Nat, c.frame.regs.ebx.toInt = r →
    Delivered E s (syscallGetArg3 tf) r file off c

/-- Of `r` bytes read, none is copied because there are none and nothing is copied, or all are
copied and they are all that is copied. -/
def CleanCopy (E : Env) (s : System) (tf : TrapFrame) (r : Nat) : Prop :=
  r = 0 ∧ (¬ accepted (syscallGetArg3 tf) E.fbuf (syscallGetArg4 tf) ∨ syscallGetArg4 tf = 0) ∨
  r = syscallGetArg4 tf ∧ accepted (syscallGetArg3 tf) E.fbuf (syscallGetArg4 tf) ∧
    syscallGetArg3 tf + syscallGetArg4 tf ≤ vmUserHi ∧
    pagesMissing E.layout s.vm.ram s.curid (syscallGetArg3 tf) (syscallGetArg4 tf) ≤
      supply s.vm.mem s.curid

/-! ## The call -/

section Call
variable {E : Env} {s t : System} {tf : TrapFrame} {base : Ram}

/-- `fbuf` with the bytes that were read. -/
def filled (E : Env) (vm : Vm) (bytes : List Byte) : Vm := ⟨vm.mem, storeBytes vm.ram E.fbuf bytes⟩

/-- The end of `sys_read`, after `file_read`. -/
def readEnds (E : Env) (c : Call) (reply : Fs.Reply) (bytes : List Byte) : Call :=
  let c := c.poke E.fbuf bytes .fbuf
  if reply.errno = .succ then
    (c.copyout E E.fbuf (syscallGetArg3 c.frame) (syscallGetArg4 c.frame)).answer reply
  else c.answer reply

/-- What `sys_read` has `file_read` do. -/
def readRun (s : System) (tf : TrapFrame) : Outcome Fs.Stop Fs.FsState (Fs.Reply × List Byte) :=
  (Fs.fsMachine fun _ => false).run (Fs.setCurid s.curid >>= fun _ =>
    Fs.sysRead (syscallGetArg2 tf) (syscallGetArg4 tf)) s.fs

theorem sysRead_of_run {reply : Fs.Reply} {bytes : List Byte} {fs : Fs.FsState}
    (run : readRun s tf = .ok (reply, bytes) fs) :
    sysRead E (entered s tf) = .ok (readEnds E (entered { s with fs := fs } tf) reply bytes) := by
  have called := @fileSystem_of_run _ (entered s tf) (Fs.sysRead (syscallGetArg2 tf) (syscallGetArg4 tf))
    _ _ run
  unfold sysRead readEnds
  dsimp only
  rw [called]
  change (if _ then _ else _) = _
  split
  · rfl
  · rfl

theorem sysRead_ok {c : Call} (done : sysRead E (entered s tf) = .ok c) : ∃ reply bytes fs,
    readRun s tf = .ok (reply, bytes) fs ∧
      c = readEnds E (entered { s with fs := fs } tf) reply bytes := by
  obtain ⟨⟨reply, bytes⟩, e, called, -⟩ := fileSystem_then done
  obtain ⟨fs, run, -⟩ := fileSystem_ok called
  refine ⟨reply, bytes, fs, run, ?_⟩
  rw [sysRead_of_run run] at done
  exact (Except.ok.inj done).symm

variable {fs : Fs.FsState} {reply : Fs.Reply} {bytes : List Byte}

/-- The copy `sys_read` makes of what was read. -/
def readCopy (E : Env) (s : System) (tf : TrapFrame) (bytes : List Byte) : Copied :=
  ptCopyout E.layout (filled E s.vm bytes) E.fbuf s.curid (syscallGetArg3 tf) (syscallGetArg4 tf)

theorem readEnds_failure (failed : reply.errno ≠ .succ) (none : bytes = []) :
    (readEnds E (entered { s with fs := fs } tf) reply bytes).vm = s.vm ∧
    (readEnds E (entered { s with fs := fs } tf) reply bytes).stores = [] := by
  subst none
  unfold readEnds
  dsimp only
  rw [if_neg failed]
  obtain ⟨errno, ebx, result⟩ := answer_finishes
    ((entered { s with fs := fs } tf).poke E.fbuf [] .fbuf) reply
  rw [result]
  exact ⟨rfl, rfl⟩

theorem readEnds_success (success : reply.errno = .succ) :
    (readEnds E (entered { s with fs := fs } tf) reply bytes).vm = (readCopy E s tf bytes).vm ∧
    (readEnds E (entered { s with fs := fs } tf) reply bytes).stores =
      (List.range bytes.length).map .fbuf ++ (readCopy E s tf bytes).accesses.map (.user s.curid) := by
  unfold readEnds
  dsimp only
  rw [if_pos success]
  obtain ⟨errno, ebx, result⟩ := answer_finishes
    (((entered { s with fs := fs } tf).poke E.fbuf bytes .fbuf).copyout E E.fbuf (syscallGetArg3 tf)
      (syscallGetArg4 tf)) reply
  refine ⟨(congrArg Call.vm result).trans rfl, (congrArg Call.stores result).trans rfl⟩

theorem readEnds_user (success : reply.errno = .succ) (a : Access) :
    Store.user s.curid a ∈ (readEnds E (entered { s with fs := fs } tf) reply bytes).stores ↔
      a ∈ (readCopy E s tf bytes).accesses := by
  rw [(readEnds_success success).2]
  simp

theorem readEnds_ebx {retval : Int} (value : reply.retval1 = some retval) :
    (readEnds E (entered { s with fs := fs } tf) reply bytes).frame.regs.ebx = BitVec.ofInt 32 retval := by
  unfold readEnds Call.answer
  dsimp only
  rw [value]
  split
  · rfl
  · rfl

end Call

/-! ## The memory of the process -/

section Memory
variable {E : Env} {s t : System} {tf : TrapFrame} {base : Ram} {bytes : List Byte}

theorem fbuf_fits (E : Env) {n : Nat} (fits : n ≤ fbufSize) : E.fbuf + n ≤ word := by
  have kernel := E.fbuf_kernel.kernel
  simp only [vmUserLo] at kernel
  simp only [word]
  omega

variable {vm : Vm}

section
variable (inv : Isolated E.layout base vm) (fits : bytes.length ≤ fbufSize)
include inv fits

theorem leaves_filled : Leaves E.layout vm (filled E vm bytes).ram :=
  inv.leaves_buffer E.fbuf_kernel fits fun _ outside => storeBytes_other outside

theorem isolated_filled :
    Isolated E.layout base (filled E vm bytes) := inv.write (leaves_filled inv fits)

theorem userByte_filled {pid va : Nat} (proc : UserProc pid) (user : UserAddr va) :
    userByte E.layout (filled E vm bytes).ram pid va = userByte E.layout vm.ram pid va :=
  inv.buffer_userByte proc E.fbuf_kernel fits (fun _ outside => storeBytes_other outside) user

end

theorem byteAt_storeBytes (ram : Ram) {addr : Nat} (fits : addr + bytes.length ≤ word) (b : Nat) :
    byteAt (storeBytes ram addr bytes) b =
      if addr ≤ b ∧ b < addr + bytes.length then (bytes.getD (b - addr) 0).toNat else byteAt ram b :=
  @byteAt_stores ram addr bytes.length (fun i _ => (bytes.getD i 0).toNat)
    (fun i => (bytes.getD i 0).toNat) fits (fun i _ => (bytes.getD i 0).isLt) (fun _ _ _ _ => rfl) b

theorem byteAt_filled (vm : Vm) (fits : bytes.length ≤ fbufSize) {i : Nat} (below : i < bytes.length) :
    some (byteAt (filled E vm bytes).ram (E.fbuf + i)) = bytes[i]?.map BitVec.toNat := by
  have stored : byteAt (filled E vm bytes).ram (E.fbuf + i) = (bytes.getD i 0).toNat := by
    refine (byteAt_storeBytes vm.ram (fbuf_fits E fits) (E.fbuf + i)).trans ?_
    rw [if_pos (by omega), Nat.add_sub_cancel_left]
  rw [stored, List.getD_eq_getElem?_getD, List.getElem?_eq_getElem below]
  rfl

theorem alike_filled {ram ram' : Ram} (alike : Alike E.fbuf fbufSize 0 ram ram')
    (fits : bytes.length ≤ fbufSize) :
    Alike E.fbuf fbufSize bytes.length (storeBytes ram E.fbuf bytes) (storeBytes ram' E.fbuf bytes) :=
  alike.stores (fbuf_fits E fits) fun i => (bytes.getD i 0).isLt

section SameBut
variable {L : Layout} {kva size : Nat}

section
variable (same : SameBut kva size s t)
include same

theorem SameBut.alike : Alike kva size 0 s.vm.ram t.vm.ram :=
  ⟨same.words, nofun⟩

theorem SameBut.curid : t.curid = s.curid := by
  rw [same.rest]
  rfl

theorem SameBut.mem : t.vm.mem = s.vm.mem := by
  rw [same.rest]
  rfl

theorem SameBut.leaves (buffer : KernelBuffer L kva size) (inv : Isolated L base s.vm) :
    Leaves L s.vm t.vm.ram :=
  inv.leaves_buffer buffer (Nat.le_refl _) same.words

theorem SameBut.isolated (buffer : KernelBuffer L kva size) (inv : Isolated L base s.vm) :
    Isolated L base t.vm := by
  have stored : Isolated L base ⟨s.vm.mem, t.vm.ram⟩ := inv.write (same.leaves buffer inv)
  have memory : t.vm = ⟨s.vm.mem, t.vm.ram⟩ := congrArg System.vm same.rest
  rwa [memory]

end

end SameBut

/-- A copy that is refused or has no length leaves memory as it is. -/
theorem readCopy_nothing
    (nothing : ¬ accepted (syscallGetArg3 tf) E.fbuf (syscallGetArg4 tf) ∨ syscallGetArg4 tf = 0) :
    (readCopy E s tf bytes).accesses = [] ∧ (readCopy E s tf bytes).vm = filled E s.vm bytes := by
  unfold readCopy ptCopyout copy
  split
  · next admitted =>
    rw [nothing.resolve_left (not_not.mpr admitted)]
    exact ⟨rfl, rfl⟩
  · exact ⟨rfl, rfl⟩

theorem readCopy_accepted (admitted : accepted (syscallGetArg3 tf) E.fbuf (syscallGetArg4 tf)) :
    readCopy E s tf bytes = copyLoop E.layout .copyout s.curid (syscallGetArg4 tf) (filled E s.vm bytes)
      (syscallGetArg3 tf) E.fbuf (syscallGetArg4 tf) := if_pos admitted

/-- What the pages of an accepted copy depend on, before the call. -/
theorem readCopy_mapped_iff (inv : Isolated E.layout base s.vm) (user : UserProc s.curid)
    (bounds : TableBounds s.vm.mem.phys) (fits : bytes.length ≤ fbufSize)
    (short : syscallGetArg4 tf ≤ fbufSize)
    (admitted : accepted (syscallGetArg3 tf) E.fbuf (syscallGetArg4 tf))
    (high : syscallGetArg3 tf + syscallGetArg4 tf ≤ vmUserHi) :
    (∀ a ∈ (readCopy E s tf bytes).accesses, a.Mapped E.layout s.curid) ↔
      pagesMissing E.layout s.vm.ram s.curid (syscallGetArg3 tf) (syscallGetArg4 tf) ≤
        supply s.vm.mem s.curid := by
  have low := admitted.1.1
  rw [readCopy_accepted admitted,
    copyLoop_mapped_iff (isolated_filled inv fits) bounds user (Nat.le_refl _) low high
      (fun _ => E.fbuf_kernel.shorter short), (leaves_filled inv fits).pagesMissing user low high]
  rfl

/-- A copy that finds its pages delivers the buffer. -/
theorem readCopy_all (inv : Isolated E.layout base s.vm) (user : UserProc s.curid)
    (fits : bytes.length ≤ fbufSize) (short : syscallGetArg4 tf ≤ fbufSize)
    (admitted : accepted (syscallGetArg3 tf) E.fbuf (syscallGetArg4 tf))
    (high : syscallGetArg3 tf + syscallGetArg4 tf ≤ vmUserHi)
    (mapped : ∀ a ∈ (readCopy E s tf bytes).accesses, a.Mapped E.layout s.curid) :
    CopiedOut E.layout base s.curid (syscallGetArg3 tf) E.fbuf (syscallGetArg4 tf)
      (filled E s.vm bytes) (readCopy E s tf bytes).vm := by
  rw [readCopy_accepted admitted] at mapped ⊢
  exact copyLoop_copyout (isolated_filled inv fits) user (Nat.le_refl _) admitted.1.1 high
    (E.fbuf_kernel.shorter short) mapped

theorem readCopy_bounds (bounds : TableBounds s.vm.mem.phys) :
    TableBounds (readCopy E s tf bytes).vm.mem.phys := by
  unfold readCopy ptCopyout copy
  split
  · exact bounds_copyLoop bounds
  · exact bounds

/-- The pieces of the copy cover as many bytes as `sys_read` returns only if that is how many it was
asked for, or nothing was copied. -/
theorem readCopy_written {r : Nat} (admitted : accepted (syscallGetArg3 tf) E.fbuf (syscallGetArg4 tf))
    (high : syscallGetArg3 tf + syscallGetArg4 tf ≤ vmUserHi) :
    (∀ va, (∃ a ∈ (readCopy E s tf bytes).accesses, a.va ≤ va ∧ va < a.va + a.size) ↔
      syscallGetArg3 tf ≤ va ∧ va < syscallGetArg3 tf + r) ↔ r = syscallGetArg4 tf := by
  rw [readCopy_accepted admitted]
  simp only [copyLoop_covers (Nat.le_refl _) high]
  constructor
  · intro same
    have first := same (syscallGetArg3 tf + r)
    have second := same (syscallGetArg3 tf + syscallGetArg4 tf)
    omega
  · rintro rfl va
    exact Iff.rfl

section
variable (inv : Isolated E.layout base s.vm) (user : UserProc s.curid)
  (bounds : TableBounds s.vm.mem.phys) (short : syscallGetArg4 tf ≤ fbufSize)
include inv user bounds short

/-- Behind the bytes that were read, the process gets what the buffer held. -/
theorem readCopy_stale (admitted : accepted (syscallGetArg3 tf) E.fbuf (syscallGetArg4 tf))
    (high : syscallGetArg3 tf + syscallGetArg4 tf ≤ vmUserHi)
    (enough : pagesMissing E.layout s.vm.ram s.curid (syscallGetArg3 tf) (syscallGetArg4 tf) ≤
      supply s.vm.mem s.curid) {i : Nat} (behind : bytes.length ≤ i)
    (below : i < syscallGetArg4 tf) :
    userByte E.layout (readCopy E s tf bytes).vm.ram s.curid (syscallGetArg3 tf + i) =
      some (byteAt s.vm.ram (E.fbuf + i)) := by
  have fits : bytes.length ≤ fbufSize := by omega
  have mapped := (@readCopy_mapped_iff E s tf base bytes inv user bounds fits short admitted high).mpr
    enough
  rw [(readCopy_all inv user fits short admitted high mapped).bytes i below]
  refine congrArg some ((byteAt_storeBytes s.vm.ram (fbuf_fits E fits) (E.fbuf + i)).trans (if_neg ?_))
  omega

/-- Systems that differ in such a byte differ in what the process sees. -/
theorem readCopy_differs (admitted : accepted (syscallGetArg3 tf) E.fbuf (syscallGetArg4 tf))
    (high : syscallGetArg3 tf + syscallGetArg4 tf ≤ vmUserHi)
    (enough : pagesMissing E.layout s.vm.ram s.curid (syscallGetArg3 tf) (syscallGetArg4 tf) ≤
      supply s.vm.mem s.curid) {i : Nat} (behind : bytes.length ≤ i) (below : i < syscallGetArg4 tf)
    (same : SameBut E.fbuf fbufSize s t)
    (differ : byteAt t.vm.ram (E.fbuf + i) ≠ byteAt s.vm.ram (E.fbuf + i)) :
    userByte E.layout (readCopy E t tf bytes).vm.ram s.curid (syscallGetArg3 tf + i) ≠
      userByte E.layout (readCopy E s tf bytes).vm.ram s.curid (syscallGetArg3 tf + i) := by
  have curid := same.curid
  have mem := same.mem
  have enough' : pagesMissing E.layout t.vm.ram t.curid (syscallGetArg3 tf) (syscallGetArg4 tf) ≤
      supply t.vm.mem t.curid := by
    rw [curid, mem, (same.leaves E.fbuf_kernel inv).pagesMissing user admitted.1.1 high]
    exact enough
  have seen := readCopy_stale inv user bounds short admitted high enough behind below
  have seen' := readCopy_stale (same.isolated E.fbuf_kernel inv) (by rwa [curid]) (by rwa [mem]) short admitted high
    enough' behind below
  rw [curid] at seen'
  rw [seen, seen']
  exact fun equal => differ (Option.some.inj equal)

/-! ## Sufficiency -/

/-- The bytes that were read arrive at the process. -/
theorem delivered_of_copy {c : Call} {file : List Byte} {off r : Nat}
    (vm : c.vm = (readCopy E s tf bytes).vm)
    (stores : ∀ a, Store.user s.curid a ∈ c.stores ↔ a ∈ (readCopy E s tf bytes).accesses)
    (read : bytes = (file.drop off).take (syscallGetArg4 tf)) (count : bytes.length = r)
    (clean : CleanCopy E s tf r) : Delivered E s (syscallGetArg3 tf) r file off c := by
  rcases clean with ⟨none, nothing⟩ | ⟨all, admitted, high, enough⟩
  · have fits : bytes.length ≤ fbufSize := by
      rw [count, none]
      exact Nat.zero_le _
    obtain ⟨accesses, kept⟩ := @readCopy_nothing E s tf bytes nothing
    rw [accesses] at stores
    rw [kept] at vm
    refine ⟨fun a member => ?_, fun va => ?_, fun i below => ?_, fun va address _ b seen => ?_⟩
    · exact absurd ((stores a).mp member) List.not_mem_nil
    · refine iff_of_false (fun ⟨a, member, _⟩ => ?_) (by omega)
      exact absurd ((stores a).mp member) List.not_mem_nil
    · omega
    · rw [vm, userByte_filled inv fits user address, seen]
  · have fits : bytes.length ≤ fbufSize := by omega
    have mapped := (@readCopy_mapped_iff E s tf base bytes inv user bounds fits short admitted high).mpr
      enough
    obtain ⟨-, content, others, -⟩ := readCopy_all inv user fits short admitted high mapped
    have confined : ∀ a ∈ (readCopy E s tf bytes).accesses, a.Confined E.layout s.curid :=
      copy_confined_iff.mpr fun _ => Or.inr ⟨high, mapped⟩
    rw [← vm] at content others
    refine ⟨fun a member => ?_, ?_, fun i below => ?_, fun va address outside b seen => ?_⟩
    · exact confined a ((stores a).mp member)
    · simp only [stores]
      exact (readCopy_written admitted high).mpr all
    · rw [content i (by omega), byteAt_filled s.vm fits (by omega), read, List.getElem?_take_of_lt (by omega),
        List.getElem?_drop]
    · refine others va address (by omega) b ?_
      rw [userByte_filled inv fits user address, seen]

/-- What the process sees after a clean copy does not depend on what the buffer held. -/
theorem unaffected_of_copy (fits : bytes.length ≤ fbufSize) (clean : CleanCopy E s tf bytes.length)
    (same : SameBut E.fbuf fbufSize s t) {va : Nat} (address : UserAddr va) :
    userByte E.layout (readCopy E t tf bytes).vm.ram s.curid va =
      userByte E.layout (readCopy E s tf bytes).vm.ram s.curid va := by
  have curid := same.curid
  have mem := same.mem
  have buffers := alike_filled same.alike fits
  have left := isolated_filled inv fits
  have right := isolated_filled (same.isolated E.fbuf_kernel inv) fits
  rcases clean with ⟨-, nothing⟩ | ⟨all, admitted, high, enough⟩
  · rw [(readCopy_nothing nothing).2, (readCopy_nothing nothing).2]
    exact @Alike.userByte E.layout base (filled E s.vm bytes) (filled E t.vm bytes) _ _ _ _ _ buffers
      E.fbuf_kernel left mem user address
  · have mapped := (@readCopy_mapped_iff E s tf base bytes inv user bounds fits short admitted high).mpr
      enough
    have after := (readCopy_all inv user fits short admitted high mapped).isolated
    rw [readCopy_accepted admitted] at mapped after
    rw [readCopy_accepted admitted, readCopy_accepted admitted, curid]
    obtain ⟨copies, memory⟩ := @Alike.copyLoop E.layout base (filled E s.vm bytes) (filled E t.vm bytes)
      E.fbuf fbufSize bytes.length s.curid buffers E.fbuf_kernel left (syscallGetArg4 tf) (syscallGetArg3 tf) 0
      (syscallGetArg4 tf) right mem user (by omega) fits admitted.1.1 high mapped
    exact copies.userByte E.fbuf_kernel after memory user address

end

end Memory

/-! ## The theorem -/

theorem toInt_ofInt_length {n : Nat} (fits : n ≤ fbufSize) : (BitVec.ofInt 32 (n : Int)).toInt = n := by
  unfold fbufSize at fits
  rw [BitVec.toInt_ofInt]
  refine Int.bmod_eq_of_le ?_ ?_ <;> omega

/-- When `sys_read` of at most `sizeof (fbuf)` bytes returns, then the memory of the process does not
depend on what `fbuf` held before and exactly the bytes of the file that it reports are new in it, if and
only if it has read nothing and copied nothing, or it has read all it was asked for and found all pages to
copy to. -/
theorem sysRead_reveals_iff (E : Env) (base : Ram) (s : System) (tf : TrapFrame) (sb : Fs.Superblock)
    (files : Fs.Files Fs.FsMem) (f : Nat) (c : Call) (inv : Isolated E.layout base s.vm)
    (user : UserProc s.curid) (bounds : TableBounds s.vm.mem.phys)
    (serves : Fs.Serves none sb s.fs files) (opened : s.descriptor tf = some f)
    (known : Fs.fileInum s.fs f < sb.ninodes) (short : syscallGetArg4 tf ≤ fbufSize)
    (done : sysRead E (entered s tf) = .ok c) :
    RevealsFile E s tf (Fs.fileBytes s.fs f) (s.fs.upper.rest.file f).off c ↔
      ∀ r, Fs.readCount s.fs (s.fs.upper.rest.file f) (syscallGetArg4 tf) = some r →
        CleanCopy E s tf r := by
  obtain ⟨reply, bytes, fs, run, rfl⟩ := sysRead_ok done
  have word : syscallGetArg4 tf < 4294967296 := by
    unfold fbufSize at short
    omega
  obtain ⟨content, -⟩ := serves.sysRead_bytes opened known word run
  have retval := Fs.run_sysRead_retval run
  obtain ⟨g, found, delivered⟩ := Fs.run_sysRead_count run
  obtain rfl : f = g := Option.some.inj (opened.symm.trans found)
  -- Another content of `fbuf` does not change what the file system does.
  have again : ∀ t, SameBut E.fbuf fbufSize s t → sysRead E (entered t tf) =
      .ok (readEnds E (entered { t with fs := fs } tf) reply bytes) := by
    intro t same
    refine sysRead_of_run ?_
    rw [same.rest]
    exact run
  rcases delivered with ⟨success, count⟩ | ⟨failure, none, empty⟩
  · have bytesRead := content success
    have fits : bytes.length ≤ fbufSize := by
      rw [bytesRead, List.length_take]
      omega
    rw [if_pos success] at retval
    have result := toInt_ofInt_length fits
    rw [← @readEnds_ebx E s tf fs reply bytes _ retval] at result
    have vm := (@readEnds_success E s tf fs reply bytes success).1
    have stores := @readEnds_user E s tf fs reply bytes success
    rw [count]
    simp only [Option.some.injEq, forall_eq']
    constructor
    · intro reveals
      obtain ⟨confined, written, -, -⟩ := reveals.delivered bytes.length result
      simp only [stores] at confined written
      have pages := copy_confined_iff.mp confined
      by_cases admitted : accepted (syscallGetArg3 tf) E.fbuf (syscallGetArg4 tf)
      · rcases pages admitted with zero | ⟨high, mapped⟩
        · refine Or.inl ⟨?_, Or.inr zero⟩
          rw [bytesRead, zero, List.take_zero, List.length_nil]
        · have all := (readCopy_written admitted high).mp written
          exact Or.inr ⟨all, admitted, high,
            (readCopy_mapped_iff inv user bounds fits short admitted high).mp mapped⟩
      · refine Or.inl ⟨?_, Or.inl admitted⟩
        rw [(readCopy_nothing (Or.inl admitted)).1] at written
        by_contra some
        obtain ⟨a, member, -⟩ := (written (syscallGetArg3 tf)).mpr ⟨Nat.le_refl _, by omega⟩
        exact absurd member List.not_mem_nil
    · intro clean
      refine ⟨fun t same => ⟨_, again t same, fun va address => ?_⟩, fun r value => ?_⟩
      · have vm' := (@readEnds_success E t tf fs reply bytes success).1
        rw [vm, vm']
        exact unaffected_of_copy inv user bounds short fits clean same address
      · obtain rfl : bytes.length = r := by
          rw [result] at value
          exact_mod_cast value
        exact delivered_of_copy inv user bounds short vm stores bytesRead rfl clean
  · have failed : reply.errno ≠ .succ := by
      rw [failure]
      nofun
    rw [if_neg failed] at retval
    have result := @readEnds_ebx E s tf fs reply bytes _ retval
    have vm := (@readEnds_failure E s tf fs reply bytes failed empty).1
    refine iff_of_true ⟨fun t same => ⟨_, again t same, fun va address => ?_⟩, fun r value => ?_⟩ ?_
    · have vm' := (@readEnds_failure E t tf fs reply bytes failed empty).1
      rw [vm, vm']
      exact same.alike.userByte E.fbuf_kernel inv same.mem user address
    · rw [result] at value
      exact absurd value (by simp)
    · rw [none]
      nofun

/-! ## A file of one byte -/

/-- Process 1 writes one byte to a file and opens the file once more. -/
def readerSession : List (Nat × Fs.Syscall) :=
  [(1, .sysOpen [Fs.slash, 0x61] (Fs.oCreate + Fs.oRdwr)), (1, .sysWrite 0 [7]),
    (1, .sysOpen [Fs.slash, 0x61] Fs.oRdwr)]

def readerFs : Fs.FsState :=
  ((Fs.fsMachine Fs.noLogBlock).run (Fs.session readerSession) (Fs.booted Fs.smallDisk)).state

/-- Process 1 runs and has mapped its lowest page. -/
def reader : System := { firstSystem.withVm firstMapping with fs := readerFs }

/-- `read (fd, 0x40000000, 1)` -/
def readFrame (fd : Word) : TrapFrame :=
  ⟨⟨0, 0, 0, 0, fd, 1, 0x40000000, 7⟩, 0, 0, 0, 0, 48, 0, 0, 0, 0, 0, 0, 0, 0⟩

theorem reader_session :
    ((Fs.fsMachine Fs.noLogBlock).run (Fs.session readerSession) (Fs.booted Fs.smallDisk)).result =
      some () ∧
    ∀ e ∈ (Fs.fsMachine Fs.noLogBlock).trace (Fs.session readerSession) (Fs.booted Fs.smallDisk),
      Fs.Proper 16 e.2 e.1 := by decide +kernel

theorem reader_serves : ∃ files, Fs.Serves none ⟨64, 48, 16, 10⟩ readerFs files := by
  obtain ⟨returned, proper⟩ := reader_session
  have start : Fs.Serves none ⟨64, 48, 16, 10⟩ (Fs.booted Fs.smallDisk) _ :=
    Fs.serves_booted Fs.smallDisk_rooted.formatted Fs.smallDisk_rooted.noHoles rfl
  exact start.run rfl proper (Outcome.eq_ok_of_result returned)

/-- The first descriptor is at the end of the file, the second one at its start. -/
theorem readerFs_files :
    Fs.descriptor readerFs 1 0 = some 0 ∧ Fs.descriptor readerFs 1 1 = some 1 ∧
    Fs.fileInum readerFs 0 < 16 ∧ Fs.fileInum readerFs 1 < 16 ∧
    Fs.readCount readerFs (readerFs.upper.rest.file 1) 1 = some 1 ∧
    ((Fs.fsMachine fun _ => false).run (Fs.setCurid 1 >>= fun _ => Fs.sysRead 0 1) readerFs).result =
      some (⟨.succ, some 0⟩, []) ∧
    ((Fs.fsMachine fun _ => false).run (Fs.setCurid 1 >>= fun _ => Fs.sysRead 1 1) readerFs).result =
      some (⟨.succ, some 1⟩, [7]) := by decide +kernel

theorem withVm_fs (s : System) (vm : Vm) (fs : Fs.FsState) :
    ({ s.withVm vm with fs := fs } : System).curid = s.curid ∧
    ({ s.withVm vm with fs := fs } : System).vm = vm ∧
    ({ s.withVm vm with fs := fs } : System).fs = fs :=
  ⟨rfl, rfl, rfl⟩

theorem reader_vm : reader.vm = firstMapping := (withVm_fs firstSystem firstMapping readerFs).2.1

theorem reader_fs : reader.fs = readerFs := (withVm_fs firstSystem firstMapping readerFs).2.2

theorem reader_curid : reader.curid = 1 :=
  (withVm_fs firstSystem firstMapping readerFs).1.trans firstSystem_curid

theorem reader_bounds : TableBounds reader.vm.mem.phys := by
  rw [reader_vm]
  exact firstMapping_reach.bounds

theorem reader_pages {n : Nat} (more : 0 < n) (few : n ≤ pageSize) :
    pagesMissing kernelLayout firstMapping.ram 1 vmUserLo n = 0 := by
  obtain ⟨frame, present⟩ : ∃ frame, userFrame kernelLayout firstMapping.ram 1 (vmUserLo / pageSize) =
      some frame := by
    refine Option.ne_none_iff_exists'.mp fun absent => ?_
    have zero := userFrame_eq_none.mp absent
    rw [firstMapping_present] at zero
    cases zero
  rw [pagesMissing_present more (Nat.le_refl n) ((Nat.zero_add n).symm ▸ few) (by decide) present,
    Nat.sub_self]
  rfl

theorem reader_isolated : Isolated kernelLayout (vmInit kernelLayout fourPages fun _ => 0).ram reader.vm := by
  rw [reader_vm]
  exact firstMapping_reach.isolated

theorem reader_user : UserProc reader.curid := by
  rw [reader_curid]
  decide

theorem reader_read {s : System} (same : s.fs = readerFs ∧ s.curid = 1) {fd : Word} {reply : Fs.Reply}
    {bytes : List Byte}
    (read : ((Fs.fsMachine fun _ => false).run (Fs.setCurid 1 >>= fun _ => Fs.sysRead fd.toNat 1)
      readerFs).result = some (reply, bytes)) : ∃ fs, readRun s (readFrame fd) = .ok (reply, bytes) fs := by
  unfold readRun
  rw [same.1, same.2]
  exact ⟨_, Outcome.eq_ok_of_result read⟩

theorem reader_supplied (fd : Word) : pagesMissing kernelEnv.layout reader.vm.ram reader.curid
    (syscallGetArg3 (readFrame fd)) (syscallGetArg4 (readFrame fd)) ≤ supply reader.vm.mem reader.curid := by
  rw [reader_vm, reader_curid]
  have none := @reader_pages 1 (by decide) (by decide)
  change pagesMissing kernelLayout firstMapping.ram 1 vmUserLo 1 ≤ _
  rw [none]
  exact Nat.zero_le _

/-- Process 1 reads the one byte of the file from its start. -/
theorem sysRead_reveals_reader : ∃ files c, Fs.Serves none ⟨64, 48, 16, 10⟩ reader.fs files ∧
    sysRead kernelEnv (entered reader (readFrame 1)) = .ok c ∧
    RevealsFile kernelEnv reader (readFrame 1) (Fs.fileBytes reader.fs 1)
      (reader.fs.upper.rest.file 1).off c := by
  obtain ⟨files, serves⟩ := reader_serves
  obtain ⟨-, opened, -, known, count, -, read⟩ := readerFs_files
  obtain ⟨fs, run⟩ := @reader_read reader ⟨reader_fs, reader_curid⟩ 1 _ _ read
  rw [← reader_fs] at serves opened known count
  have done := @sysRead_of_run kernelEnv reader (readFrame 1) _ _ _ run
  have descriptor : reader.descriptor (readFrame 1) = some 1 := by
    unfold System.descriptor
    rw [reader_curid]
    exact opened
  refine ⟨files, _, serves, done, ?_⟩
  refine (sysRead_reveals_iff kernelEnv _ reader (readFrame 1) ⟨64, 48, 16, 10⟩ files 1 _ reader_isolated
    reader_user reader_bounds serves descriptor known (by decide) done).mpr fun r delivered => ?_
  obtain rfl : 1 = r := Option.some.inj (count.symm.trans delivered)
  exact Or.inr ⟨rfl, by decide, by decide, reader_supplied 1⟩

/-- The same system after another call has left another byte at the start of `fbuf`. -/
def otherReader : System :=
  reader.withVm ⟨reader.vm.mem,
    storeByte reader.vm.ram kernelEnv.fbuf ((byteAt reader.vm.ram kernelEnv.fbuf + 1) % 256)⟩

theorem otherReader_same : SameBut kernelEnv.fbuf fbufSize reader otherReader := by
  refine ⟨rfl, fun w outside => ?_, fun addr outside => ?_⟩
  · refine storeByte_other ?_
    exact outside 0 (by decide)
  · refine (byteAt_storeByte _ (Nat.mod_lt _ (by decide)) addr).trans (if_neg ?_)
    rintro rfl
    exact absurd outside (by decide)

theorem byteAt_successor (ram : Ram) (addr : Nat) :
    byteAt (storeByte ram addr ((byteAt ram addr + 1) % 256)) addr ≠ byteAt ram addr := by
  rw [byteAt_storeByte ram (Nat.mod_lt _ (by decide)), if_pos rfl]
  have small := byteAt_lt ram addr
  omega

theorem otherReader_byte : byteAt otherReader.vm.ram kernelEnv.fbuf ≠ byteAt reader.vm.ram kernelEnv.fbuf :=
  byteAt_successor reader.vm.ram kernelEnv.fbuf

/-- A read at the end of the file returns 0 and copies what `fbuf` holds to the process. -/
theorem sysRead_leaks : Isolated kernelLayout (vmInit kernelLayout fourPages fun _ => 0).ram reader.vm ∧
    UserProc reader.curid ∧ (∃ files, Fs.Serves none ⟨64, 48, 16, 10⟩ reader.fs files) ∧
    SameBut kernelEnv.fbuf fbufSize reader otherReader ∧
    ∃ c d, sysRead kernelEnv (entered reader (readFrame 0)) = .ok c ∧
      sysRead kernelEnv (entered otherReader (readFrame 0)) = .ok d ∧
      c.frame.regs.ebx = 0 ∧ d.frame.regs.ebx = 0 ∧
      userByte kernelLayout d.vm.ram reader.curid vmUserLo ≠
        userByte kernelLayout c.vm.ram reader.curid vmUserLo ∧
      ∀ file off, ¬ RevealsFile kernelEnv reader (readFrame 0) file off c := by
  have same := otherReader_same
  obtain ⟨-, -, -, -, -, read, -⟩ := readerFs_files
  obtain ⟨fs, run⟩ := @reader_read reader ⟨reader_fs, reader_curid⟩ 0 _ _ read
  have unchanged : otherReader.fs = readerFs := (withVm_fs reader _ reader.fs).2.2.trans reader_fs
  obtain ⟨fs', run'⟩ := @reader_read otherReader ⟨unchanged, same.curid.trans reader_curid⟩ 0 _ _ read
  have done := @sysRead_of_run kernelEnv reader (readFrame 0) _ _ _ run
  have done' := @sysRead_of_run kernelEnv otherReader (readFrame 0) _ _ _ run'
  have admitted : accepted (syscallGetArg3 (readFrame 0)) kernelEnv.fbuf (syscallGetArg4 (readFrame 0)) := by
    decide
  have differs := @readCopy_differs kernelEnv reader otherReader (readFrame 0) _ [] reader_isolated reader_user
    reader_bounds (by decide) admitted (by decide) (reader_supplied 0) 0 (Nat.le_refl _) (by decide) same
    otherReader_byte
  rw [← (@readEnds_success kernelEnv reader (readFrame 0) fs ⟨.succ, some 0⟩ [] rfl).1,
    ← (@readEnds_success kernelEnv otherReader (readFrame 0) fs' ⟨.succ, some 0⟩ [] rfl).1] at differs
  refine ⟨reader_isolated, reader_user, ?_, same, _, _, done, done', ?_, ?_, differs, fun file off reveals => ?_⟩
  · rw [reader_fs]
    exact reader_serves
  · exact @readEnds_ebx kernelEnv reader (readFrame 0) fs ⟨.succ, some 0⟩ [] 0 rfl
  · exact @readEnds_ebx kernelEnv otherReader (readFrame 0) fs' ⟨.succ, some 0⟩ [] 0 rfl
  · obtain ⟨d, again, equal⟩ := reveals.unaffected otherReader same
    rw [done'] at again
    obtain rfl := Except.ok.inj again
    exact differs (equal _ (by decide))

end OsAudio.Trap

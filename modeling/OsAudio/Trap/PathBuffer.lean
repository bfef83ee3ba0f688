import OsAudio.Trap.WriteBuffer

/-!
# The paths of system calls

`sys_open`, `sys_mkdir`, `sys_chdir`, `sys_unlink` and `sys_link` copy 128 bytes from the address of a
path to a local of that size and have the file system parse the local up to the first zero.  They do not
look at the result of the copy, so a copy that is refused leaves them with what the stack held, and the
copy of a longer string has no end.
-/
namespace OsAudio.Trap
open OsAudio.Lib OsAudio.Pmm OsAudio.Vmm OsAudio.Thread

/-! ## Strings in memory -/

section Strings
variable {ram : Ram}

theorem stringAt_eq {text : List Byte} {fuel addr : Nat} (plain : ∀ c ∈ text, c ≠ 0)
    (bytes : ∀ i, i ≤ text.length → byteAt ram ((addr + i) % word) = (text.getD i 0).toNat)
    (enough : text.length < fuel) : stringAt ram fuel addr = text := by
  induction text generalizing fuel addr with
  | nil =>
    obtain ⟨fuel, rfl⟩ := Nat.exists_eq_add_one.mpr enough
    have zero : byteAt ram (addr % word) = 0 := bytes 0 (Nat.le_refl _)
    simp [stringAt, zero]
  | cons c text ih =>
    obtain ⟨fuel, rfl⟩ := Nat.exists_eq_add_one.mpr (Nat.zero_lt_of_lt enough)
    have first : byteAt ram (addr % word) = c.toNat := bytes 0 (Nat.zero_le _)
    have nonzero : c.toNat ≠ 0 := by
      intro zero
      exact plain c List.mem_cons_self (BitVec.eq_of_toNat_eq zero)
    have rest : stringAt ram fuel (addr + 1) = text := by
      refine ih (fun d member => plain d (.tail _ member)) (fun i below => ?_)
        (Nat.lt_of_succ_lt_succ enough)
      have next := bytes (i + 1) (Nat.succ_le_succ below)
      rw [List.getD_cons_succ] at next
      rwa [Nat.add_right_comm, Nat.add_assoc]
    simp [stringAt, first, nonzero, rest]

theorem le_length_stringAt {n fuel addr : Nat}
    (nonzero : ∀ i, i < n → byteAt ram ((addr + i) % word) ≠ 0) (enough : n ≤ fuel) :
    n ≤ (stringAt ram fuel addr).length := by
  induction n generalizing fuel addr with
  | zero => exact Nat.zero_le _
  | succ n ih =>
    obtain ⟨fuel, rfl⟩ := Nat.exists_eq_add_one.mpr (Nat.zero_lt_of_lt enough)
    have first : byteAt ram (addr % word) ≠ 0 := nonzero 0 (Nat.succ_pos n)
    have rest : n ≤ (stringAt ram fuel (addr + 1)).length := by
      refine ih (fun i below => ?_) (Nat.le_of_succ_le_succ enough)
      have next := nonzero (i + 1) (Nat.succ_lt_succ below)
      rwa [Nat.add_right_comm, Nat.add_assoc]
    simp [stringAt, first, rest]

end Strings

/-! ## The calls -/

/-- The system calls with a path. -/
inductive PathCall
  | open
  | mkdir
  | chdir
  | unlink
  | link
  deriving DecidableEq, Repr

namespace PathCall

def nr : PathCall → SyscallNr
  | .open => .open
  | .mkdir => .mkdir
  | .chdir => .chdir
  | .unlink => .unlink
  | .link => .link

/-- The addresses of the paths, each with the local it is copied to. -/
def args (E : Env) (tf : TrapFrame) : PathCall → List (Nat × Nat)
  | .link => [(syscallGetArg2 tf, E.old), (syscallGetArg3 tf, E.new)]
  | _ => [(syscallGetArg2 tf, E.path)]

/-- What the file system is asked to do if `string` tells what the locals hold. -/
def prog (E : Env) (tf : TrapFrame) (string : Nat → List Byte) : PathCall → Fs.FsProg Fs.Reply
  | .open => Fs.sysOpen (string E.path) (syscallGetArg3 tf)
  | .mkdir => Fs.sysMkdir (string E.path)
  | .chdir => Fs.sysChdir (string E.path)
  | .unlink => Fs.sysUnlink (string E.path)
  | .link => Fs.sysLink (string E.old) (string E.new)

end PathCall

/-- Memory after the paths have been copied. -/
def staged (L : Layout) (pid : Nat) (vm : Vm) (args : List (Nat × Nat)) : Vm :=
  args.foldl (fun vm arg => (ptCopyin L vm pid arg.1 arg.2 pathSize).vm) vm

/-- The error number, the return value and the file system after a call. -/
def Call.result (c : Call) : Option Errno × Word × Fs.FsState :=
  (c.reported, c.frame.regs.ebx, c.system.fs)

/-- The result of a call that only has the file system run a program. -/
def Call.request (c : Call) (prog : Fs.FsProg Fs.Reply) :
    Except Fs.Stop (Option Errno × Word × Fs.FsState) :=
  (c.fileSystem prog).map fun (reply, d) => (d.answer reply).result

/-! ## The property -/

/-- A process has the string `text` at the address `uva`, terminator included. -/
structure UserString (L : Layout) (ram : Ram) (pid uva : Nat) (text : List Byte) : Prop where
  plain : ∀ c ∈ text, c ≠ 0
  low : vmUserLo ≤ uva
  high : uva + text.length < vmUserHi
  bytes : ∀ i, i ≤ text.length → userByte L ram pid (uva + i) = some (text.getD i 0).toNat

/-- The call does what the file system does for the strings of the process, or fails and leaves the file
system alone; it fails for an address outside the user range; and no path that it has the file system
parse goes on behind its local. -/
structure PathSafe (E : Env) (tf : TrapFrame) (call : PathCall) (t : System) : Prop where
  inside : ∀ text : Nat → List Byte,
    (∀ arg ∈ call.args E tf, UserString E.layout t.vm.ram t.curid arg.1 (text arg.2)) →
    (syscallDispatch E t tf).map Call.result = (entered t tf).request (call.prog E tf text) ∨
    ∃ c, syscallDispatch E t tf = .ok c ∧ c.reported ≠ some .succ ∧ c.system.fs = t.fs
  outside : (∃ arg ∈ call.args E tf, ¬ UserAddr arg.1) →
    ∃ c, syscallDispatch E t tf = .ok c ∧ c.reported ≠ some .succ
  within : ∀ arg ∈ call.args E tf,
    (cString (staged E.layout t.curid t.vm (call.args E tf)).ram arg.2).length < pathSize

/-- The systems differ in what the locals of the call hold, if at all. -/
def SameButLocals (E : Env) (tf : TrapFrame) (call : PathCall) : System → System → Prop :=
  Relation.ReflTransGen fun s t => ∃ arg ∈ call.args E tf, SameBut arg.2 pathSize s t

/-- The copy of a path is not refused and has its terminator. -/
def Stageable (L : Layout) (s : System) (uva : Nat) : Prop :=
  vmUserLo ≤ uva ∧ uva + pathSize ≤ vmUserHi ∧
    ∃ text, UserString L s.vm.ram s.curid uva text ∧ text.length < pathSize

/-! ## What the file system is asked to do -/

section Request
variable {E : Env} {t : System} {tf : TrapFrame} {call : PathCall}

theorem answer_result (c : Call) (reply : Fs.Reply) : (c.answer reply).result =
    (some (.ofFs reply.errno), (reply.retval1.map (BitVec.ofInt 32)).getD c.frame.regs.ebx,
      c.system.fs) := by
  unfold Call.answer
  cases reply.retval1 with
  | none => rfl
  | some retval => rfl

/-- The file system looks at its own state and at who is running. -/
theorem request_congr {c d : Call} (frame : d.frame = c.frame) (curid : d.curid = c.curid)
    (fs : d.system.fs = c.system.fs) (prog : Fs.FsProg Fs.Reply) : d.request prog = c.request prog := by
  unfold Call.request Call.fileSystem
  rw [curid, fs]
  dsimp only
  split
  · simp only [Except.map, answer_result, frame]
  · rfl

/-- A handler that ends with the reply of the file system. -/
theorem map_result_answer {c d : Call} (frame : d.frame = c.frame) (curid : d.curid = c.curid)
    (fs : d.system.fs = c.system.fs) (prog : Fs.FsProg Fs.Reply) :
    (d.fileSystem prog >>= fun r => (pure (r.2.answer r.1) : Except Fs.Stop Call)).map Call.result =
      c.request prog := by
  rw [← request_congr frame curid fs]
  unfold Call.request
  cases d.fileSystem prog with
  | ok r => rfl
  | error w => rfl

theorem pathCall_request (c : Call) (prog : List Byte → Fs.FsProg Fs.Reply) :
    (pathCall E prog c).map Call.result = c.request (prog (cString
      (ptCopyin E.layout c.vm c.curid (syscallGetArg2 c.frame) E.path pathSize).vm.ram E.path)) :=
  @map_result_answer c (copyPath E c (syscallGetArg2 c.frame) E.path) rfl rfl rfl _

/-- A call with paths asks the file system to act on what the locals hold after the copies. -/
theorem syscallDispatch_request (number : SyscallNr.select (syscallGetArg1 tf) = some call.nr) :
    (syscallDispatch E t tf).map Call.result = (entered t tf).request
      (call.prog E tf (cString (staged E.layout t.curid t.vm (call.args E tf)).ram)) := by
  unfold syscallDispatch
  rw [number]
  cases call with
  | «open» =>
    simp only [PathCall.nr, sysOpen]
    split
    · refine (pathCall_request _ _).trans ?_
      exact @request_congr (entered t tf) (Call.record _ _) rfl rfl rfl _
    · exact pathCall_request (entered t tf) _
  | mkdir => exact pathCall_request (entered t tf) _
  | chdir => exact pathCall_request (entered t tf) _
  | unlink => exact pathCall_request (entered t tf) _
  | link =>
    exact @map_result_answer (entered t tf) (copyPath E (copyPath E (entered t tf)
      (syscallGetArg2 tf) E.old) (syscallGetArg3 tf) E.new) rfl rfl rfl _

end Request

/-! ## The copies -/

/-- The copy of a path from the address is not refused. -/
def Reached (uva : Nat) : Prop := vmUserLo ≤ uva ∧ uva + pathSize ≤ vmUserHi

instance (uva : Nat) : Decidable (Reached uva) := inferInstanceAs (Decidable (_ ∧ _))

/-- From `s` to `t`, the paths have been copied to their locals as far as they are there, and where a copy
is refused the local has kept what it held. -/
structure Staging (L : Layout) (base : Ram) (pid : Nat) (args : List (Nat × Nat)) (s t : Vm) : Prop where
  isolated : Isolated L base t
  copied : ∀ arg ∈ args, Reached arg.1 → ∀ i, i < pathSize → ∀ b,
    userByte L s.ram pid (arg.1 + i) = some b → byteAt t.ram (arg.2 + i) = b
  refused : ∀ arg ∈ args, ¬ Reached arg.1 → ∀ i, i < pathSize →
    byteAt t.ram (arg.2 + i) = byteAt s.ram (arg.2 + i)
  memory : ∀ va, UserAddr va → ∀ b, userByte L s.ram pid va = some b → userByte L t.ram pid va = some b
  kernel : ∀ addr, KernelWord L (addr / 4 * 4) →
    (∀ arg ∈ args, addr < arg.2 ∨ arg.2 + pathSize ≤ addr) → byteAt t.ram addr = byteAt s.ram addr

/-- Two locals do not overlap. -/
def Apart (arg other : Nat × Nat) : Prop :=
  arg.2 + pathSize ≤ other.2 ∨ other.2 + pathSize ≤ arg.2

section Copies
variable {L : Layout} {base : Ram} {pid : Nat} {s t u : Vm} {arg : Nat × Nat} {args : List (Nat × Nat)}

theorem accepted_iff_reached {uva kva : Nat} (buffer : KernelBuffer L kva pathSize)
    (unwrapped : uva + pathSize < word) : accepted uva kva pathSize ↔ Reached uva := by
  have kernel := buffer.kernel
  unfold accepted Reached
  simp only [vmUserLo, vmUserHi, word, pathSize] at *
  omega

theorem staging_copyin (inv : Isolated L base s) (proc : UserProc pid)
    (buffer : KernelBuffer L arg.2 pathSize) (unwrapped : arg.1 + pathSize < word) :
    Staging L base pid [arg] s (ptCopyin L s pid arg.1 arg.2 pathSize).vm := by
  have admitted := accepted_iff_reached buffer unwrapped
  unfold ptCopyin copy
  split
  · next accept =>
    have reached := admitted.mp accept
    obtain ⟨low, high⟩ := reached
    obtain ⟨⟨isolated, bytes, memory, kernel, -⟩, -⟩ := copyLoop_copyin_pages inv proc (Nat.le_refl _)
      low high buffer
    refine ⟨isolated, fun other member _ => ?_, fun other member unreached => ?_, memory,
      fun addr word outside => kernel addr word (outside arg List.mem_cons_self)⟩
    · rw [List.mem_singleton.mp member]
      exact fun i below b seen => bytes i below b (memory _ ⟨by omega, by omega⟩ b seen)
    · rw [List.mem_singleton.mp member] at unreached
      exact absurd ⟨low, high⟩ unreached
  · next refuse =>
    refine ⟨inv, fun other member reached => ?_, fun _ _ _ _ _ => rfl, fun _ _ _ seen => seen,
      fun _ _ _ => rfl⟩
    rw [List.mem_singleton.mp member] at reached
    exact absurd (admitted.mpr reached) refuse

/-- A later copy leaves an earlier local as it is. -/
theorem Staging.apart (later : Staging L base pid args s t) (buffer : KernelBuffer L arg.2 pathSize)
    (apart : ∀ other ∈ args, Apart arg other) {i : Nat} (below : i < pathSize) :
    byteAt t.ram (arg.2 + i) = byteAt s.ram (arg.2 + i) := by
  refine later.kernel _ (buffer.kernelWord below) fun other member => ?_
  have disjoint := apart other member
  unfold Apart at disjoint
  omega

theorem Staging.cons (first : Staging L base pid [arg] s t) (later : Staging L base pid args t u)
    (buffer : KernelBuffer L arg.2 pathSize) (buffers : ∀ other ∈ args, KernelBuffer L other.2 pathSize)
    (apart : ∀ other ∈ args, Apart arg other) : Staging L base pid (arg :: args) s u := by
  have head := List.mem_singleton_self arg
  refine ⟨later.isolated, List.forall_mem_cons.mpr ⟨fun reached i below b seen => ?_,
    fun other member reached i below b seen => ?_⟩, List.forall_mem_cons.mpr
      ⟨fun unreached i below => ?_, fun other member unreached i below => ?_⟩,
    fun va user b seen => later.memory va user b (first.memory va user b seen),
    fun addr word outside => ?_⟩
  · rw [later.apart buffer apart below]
    exact first.copied arg head reached i below b seen
  · have user : UserAddr (other.1 + i) := by
      obtain ⟨low, high⟩ := reached
      exact ⟨by omega, by omega⟩
    exact later.copied other member reached i below b (first.memory _ user b seen)
  · rw [later.apart buffer apart below]
    exact first.refused arg head unreached i below
  · rw [later.refused other member unreached i below]
    refine first.kernel _ ((buffers other member).kernelWord below) fun same equal => ?_
    rw [List.mem_singleton.mp equal]
    have disjoint := apart other member
    unfold Apart at disjoint
    omega
  · obtain ⟨before, rest⟩ := List.forall_mem_cons.mp outside
    rw [later.kernel addr word rest]
    refine first.kernel addr word fun same equal => ?_
    rw [List.mem_singleton.mp equal]
    exact before

theorem staging_staged (inv : Isolated L base s) (proc : UserProc pid)
    (buffers : ∀ arg ∈ args, KernelBuffer L arg.2 pathSize) (apart : args.Pairwise Apart)
    (unwrapped : ∀ arg ∈ args, arg.1 + pathSize < word) :
    Staging L base pid args s (staged L pid s args) := by
  induction args generalizing s with
  | nil => exact ⟨inv, nofun, nofun, fun _ _ _ seen => seen, fun _ _ _ => rfl⟩
  | cons arg args ih =>
    obtain ⟨buffer, others⟩ := List.forall_mem_cons.mp buffers
    obtain ⟨bounded, rest⟩ := List.forall_mem_cons.mp unwrapped
    obtain ⟨disjoint, pairwise⟩ := List.pairwise_cons.mp apart
    have first := staging_copyin inv proc buffer bounded
    exact first.cons (ih first.isolated others pairwise rest) buffer others disjoint

theorem local_fits {kva i : Nat} (buffer : KernelBuffer L kva pathSize) (below : i < pathSize) :
    (kva + i) % word = kva + i := by
  have kernel := buffer.kernel
  refine Nat.mod_eq_of_lt ?_
  simp only [vmUserLo, word] at *
  omega

/-- The local of a path that is short enough holds the string of the process. -/
theorem Staging.cString (staging : Staging L base pid args s t) (member : arg ∈ args)
    (buffer : KernelBuffer L arg.2 pathSize) (reached : Reached arg.1) {text : List Byte}
    (string : UserString L s.ram pid arg.1 text) (short : text.length < pathSize) :
    Trap.cString t.ram arg.2 = text := by
  refine stringAt_eq string.plain (fun i below => ?_) (short.trans (by decide))
  rw [local_fits buffer (by omega)]
  exact staging.copied arg member reached i (by omega) _ (string.bytes i below)

end Copies

/-! ## Other contents of the locals -/

section Locals
variable {E : Env} {L : Layout} {base : Ram} {s t : System} {tf : TrapFrame} {call : PathCall}

variable {kva : Nat}

/-- What systems with other contents of the locals have in common. -/
structure Kin (E : Env) (base : Ram) (s t : System) : Prop where
  isolated : Isolated E.layout base t.vm
  curid : t.curid = s.curid
  memory : ∀ va, UserAddr va →
    userByte E.layout t.vm.ram s.curid va = userByte E.layout s.vm.ram s.curid va

theorem SameButLocals.kin (same : SameButLocals E tf call s t) (inv : Isolated E.layout base s.vm)
    (user : UserProc s.curid) (buffers : ∀ arg ∈ call.args E tf, KernelBuffer E.layout arg.2 pathSize) :
    Kin E base s t := by
  induction same with
  | refl => exact ⟨inv, rfl, fun _ _ => rfl⟩
  | tail earlier last ih =>
    obtain ⟨arg, member, differ⟩ := last
    have buffer := buffers arg member
    refine ⟨differ.isolated buffer ih.isolated, ?_, fun va address => ?_⟩
    · exact differ.curid.trans ih.curid
    · rw [ih.isolated.buffer_userByte user buffer (Nat.le_refl _) differ.words address]
      exact ih.memory va address

theorem Kin.userString (kin : Kin E base s t) {uva : Nat} {text : List Byte} :
    UserString E.layout t.vm.ram t.curid uva text ↔ UserString E.layout s.vm.ram s.curid uva text := by
  have bytes : vmUserLo ≤ uva → uva + text.length < vmUserHi → ∀ i, i ≤ text.length →
      userByte E.layout t.vm.ram t.curid (uva + i) = userByte E.layout s.vm.ram s.curid (uva + i) := by
    intro low high i below
    rw [kin.curid]
    exact kin.memory _ ⟨by omega, by omega⟩
  constructor
  · rintro ⟨plain, low, high, same⟩
    exact ⟨plain, low, high, fun i below => (bytes low high i below).symm.trans (same i below)⟩
  · rintro ⟨plain, low, high, same⟩
    exact ⟨plain, low, high, fun i below => (bytes low high i below).trans (same i below)⟩

/-- The system with other bytes in a local. -/
def withLocal (s : System) (kva : Nat) (bytes : List Byte) : System :=
  s.withVm ⟨s.vm.mem, storeBytes s.vm.ram kva bytes⟩

theorem byteAt_withLocal {bytes : List Byte} (buffer : KernelBuffer L kva pathSize)
    (fits : bytes.length ≤ pathSize) (b : Nat) : byteAt (withLocal s kva bytes).vm.ram b =
      if kva ≤ b ∧ b < kva + bytes.length then (bytes.getD (b - kva) 0).toNat else byteAt s.vm.ram b := by
  have kernel := buffer.kernel
  refine byteAt_storeBytes s.vm.ram ?_ b
  simp only [vmUserLo, word] at *
  omega

theorem sameBut_withLocal {bytes : List Byte}
    (buffer : KernelBuffer L kva pathSize) (fits : bytes.length ≤ pathSize) :
    SameBut kva pathSize s (withLocal s kva bytes) := by
  refine ⟨rfl, fun w outside => storeBytes_other fun i below => outside i (by omega),
    fun addr outside => ?_⟩
  rw [byteAt_withLocal buffer fits, if_neg (by omega)]

end Locals

/-! ## The theorem -/

section UserStrings
variable {L : Layout} {ram : Ram} {pid uva : Nat} {text other : List Byte}

section
variable (string : UserString L ram pid uva text)
include string

theorem UserString.byte {i : Nat} (below : i < text.length) :
    userByte L ram pid (uva + i) = some text[i].toNat := by
  rw [string.bytes i (Nat.le_of_lt below), List.getD_eq_getElem?_getD, List.getElem?_eq_getElem below]
  rfl

theorem UserString.byte_ne_zero {i : Nat} (below : i < text.length) : text[i].toNat ≠ 0 := by
  intro zero
  exact string.plain _ (List.getElem_mem below) (BitVec.eq_of_toNat_eq zero)

theorem UserString.terminator : userByte L ram pid (uva + text.length) = some 0 := by
  rw [string.bytes _ (Nat.le_refl _), List.getD_eq_getElem?_getD,
    List.getElem?_eq_none (Nat.le_refl _)]
  rfl

theorem UserString.length_le (again : UserString L ram pid uva other) :
    text.length ≤ other.length := by
  by_contra longer
  have below : other.length < text.length := Nat.not_le.mp longer
  have here := (string.byte below).symm.trans again.terminator
  exact string.byte_ne_zero below (Option.some.inj here)

/-- There is one string at an address. -/
theorem UserString.unique (again : UserString L ram pid uva other) : text = other := by
  refine List.ext_getElem (Nat.le_antisymm (string.length_le again) (again.length_le string)) ?_
  intro i below below'
  have here := (string.byte below).symm.trans (again.byte below')
  exact BitVec.eq_of_toNat_eq (Option.some.inj here)

end

end UserStrings

theorem PathCall.prog_congr {E : Env} {tf : TrapFrame} {call : PathCall} {string other : Nat → List Byte}
    (same : ∀ arg ∈ call.args E tf, string arg.2 = other arg.2) :
    call.prog E tf string = call.prog E tf other := by
  cases call <;> simp_all [PathCall.args, PathCall.prog]

section Theorem
variable {E : Env} {base : Ram} {s t : System} {tf : TrapFrame} {call : PathCall}

theorem Stageable.reached {L : Layout} {uva : Nat} (stageable : Stageable L s uva) : Reached uva :=
  ⟨stageable.1, stageable.2.1⟩

theorem Reached.unwrapped {uva : Nat} (reached : Reached uva) : uva + pathSize < word := by
  obtain ⟨-, high⟩ := reached
  simp only [vmUserHi, word] at *
  omega

/-- Paths that can be staged are acted on. -/
theorem pathSafe_of_stageable (inv : Isolated E.layout base s.vm) (user : UserProc s.curid)
    (number : SyscallNr.select (syscallGetArg1 tf) = some call.nr)
    (buffers : ∀ arg ∈ call.args E tf, KernelBuffer E.layout arg.2 pathSize)
    (apart : (call.args E tf).Pairwise Apart)
    (stageable : ∀ arg ∈ call.args E tf, Stageable E.layout s arg.1)
    (same : SameButLocals E tf call s t) : PathSafe E tf call t := by
  have kin := same.kin inv user buffers
  have staging := staging_staged kin.isolated (kin.curid ▸ user) buffers apart
    fun arg member => (stageable arg member).reached.unwrapped
  have strings : ∀ arg ∈ call.args E tf, ∃ text, UserString E.layout t.vm.ram t.curid arg.1 text ∧
      text.length < pathSize ∧
      cString (staged E.layout t.curid t.vm (call.args E tf)).ram arg.2 = text := by
    intro arg member
    obtain ⟨text, string, short⟩ := (stageable arg member).2.2
    have there := kin.userString.mpr string
    exact ⟨text, there, short, staging.cString member (buffers arg member)
      (stageable arg member).reached there short⟩
  refine ⟨fun text given => Or.inl ?_, fun ⟨arg, member, outside⟩ => ?_, fun arg member => ?_⟩
  · rw [syscallDispatch_request number]
    refine congrArg _ (PathCall.prog_congr fun arg member => ?_)
    obtain ⟨found, string, -, read⟩ := strings arg member
    exact read.trans (string.unique (given arg member))
  · obtain ⟨low, high⟩ := (stageable arg member).reached
    refine absurd ⟨low, ?_⟩ outside
    unfold pathSize at high
    omega
  · obtain ⟨found, -, short, read⟩ := strings arg member
    rwa [read]

/-- A path that cannot be staged is parsed behind its local, if that holds no zero. -/
theorem not_pathSafe_of_unstageable (inv : Isolated E.layout base s.vm) (user : UserProc s.curid)
    (buffers : ∀ arg ∈ call.args E tf, KernelBuffer E.layout arg.2 pathSize)
    (apart : (call.args E tf).Pairwise Apart)
    (unwrapped : ∀ arg ∈ call.args E tf, arg.1 + pathSize < word) {arg : Nat × Nat}
    (member : arg ∈ call.args E tf)
    (string : UserAddr arg.1 → ∃ text, UserString E.layout s.vm.ram s.curid arg.1 text)
    (unstageable : ¬ Stageable E.layout s arg.1) :
    ∃ t, SameButLocals E tf call s t ∧ ¬ PathSafe E tf call t := by
  have buffer := buffers arg member
  have overlong : ∀ t, SameButLocals E tf call s t →
      (∀ i, i < pathSize →
        byteAt (staged E.layout t.curid t.vm (call.args E tf)).ram (arg.2 + i) ≠ 0) →
      ∃ t, SameButLocals E tf call s t ∧ ¬ PathSafe E tf call t := by
    intro t same nonzero
    refine ⟨t, same, fun safe => absurd (safe.within arg member) (Nat.not_lt.mpr ?_)⟩
    refine le_length_stringAt (fun i below => ?_) (by decide)
    rw [local_fits buffer below]
    exact nonzero i below
  by_cases reached : Reached arg.1
  · -- The string is longer than the local.
    refine overlong s .refl fun i below => ?_
    have address : UserAddr arg.1 := by
      obtain ⟨low, high⟩ := reached
      unfold pathSize at high
      exact ⟨low, by omega⟩
    obtain ⟨text, there⟩ := string address
    have long : pathSize ≤ text.length := by
      by_contra short
      exact unstageable ⟨reached.1, reached.2, text, there, Nat.not_le.mp short⟩
    have staging := staging_staged inv user buffers apart unwrapped
    have inside : i < text.length := Nat.lt_of_lt_of_le below long
    rw [staging.copied arg member reached i below _ (there.byte inside)]
    exact there.byte_ne_zero inside
  · -- The copy is refused.
    obtain ⟨ones, length, nonzero⟩ : ∃ ones : List Byte, ones.length = pathSize ∧
        ∀ i, i < pathSize → (ones.getD i 0).toNat ≠ 0 := by
      refine ⟨List.replicate pathSize 1, List.length_replicate, fun i below => ?_⟩
      rw [List.getD_eq_getElem?_getD, List.getElem?_replicate, if_pos below]
      decide
    have same : SameButLocals E tf call s (withLocal s arg.2 ones) :=
      .single ⟨arg, member, sameBut_withLocal buffer (Nat.le_of_eq length)⟩
    have kin := same.kin inv user buffers
    have staging := staging_staged kin.isolated (kin.curid ▸ user) buffers apart unwrapped
    refine overlong _ same fun i below => ?_
    rw [kin.curid, staging.refused arg member reached i below, byteAt_withLocal buffer (Nat.le_of_eq length),
      if_pos (by omega), Nat.add_sub_cancel_left]
    exact nonzero i below

end Theorem

/-- For paths that are strings of the process or lie at addresses outside the user range, and not in the
last 127 bytes of the address space: whatever its locals hold, a call with paths acts on the strings or
fails without effect, fails for an address outside the range, and has no path parsed behind its local, if
and only if 128 bytes from each address on are in the user range and have the end of the string among
them. -/
theorem path_calls_safe_iff (E : Env) (base : Ram) (s : System) (tf : TrapFrame) (call : PathCall)
    (inv : Isolated E.layout base s.vm) (user : UserProc s.curid)
    (number : SyscallNr.select (syscallGetArg1 tf) = some call.nr)
    (buffers : ∀ arg ∈ call.args E tf, KernelBuffer E.layout arg.2 pathSize)
    (apart : (call.args E tf).Pairwise Apart)
    (strings : ∀ arg ∈ call.args E tf, arg.1 + pathSize < word ∧
      (UserAddr arg.1 → ∃ text, UserString E.layout s.vm.ram s.curid arg.1 text)) :
    (∀ t, SameButLocals E tf call s t → PathSafe E tf call t) ↔
      ∀ arg ∈ call.args E tf, Stageable E.layout s arg.1 := by
  constructor
  · intro safe arg member
    by_contra unstageable
    obtain ⟨t, same, exposed⟩ := not_pathSafe_of_unstageable inv user buffers apart
      (fun other also => (strings other also).1) member (strings arg member).2 unstageable
    exact exposed (safe t same)
  · intro stageable t same
    exact pathSafe_of_stageable inv user number buffers apart stageable same

/-! ## A path from nowhere -/

/-- `mkdir (path)` -/
def mkdirFrame (path : Word) : TrapFrame :=
  ⟨⟨0, 0, 0, 0, path, 3, 0x40000000, 9⟩, 0, 0, 0, 0, 48, 0, 0, 0, 0, 0, 0, 0, 0⟩

theorem kernelEnv_path : KernelBuffer kernelLayout kernelEnv.path pathSize :=
  ⟨by decide, by decide, by decide⟩

/-- Process 1 has the string `/b` at its lowest address. -/
def namer : System :=
  reader.withVm (readCopy kernelEnv reader (mkdirFrame 0x40000000) [Fs.slash, 0x62, 0]).vm

theorem namer_curid : namer.curid = 1 := (withVm_fs reader _ reader.fs).1.trans reader_curid

theorem namer_copied : CopiedOut kernelLayout (vmInit kernelLayout fourPages fun _ => 0).ram 1 vmUserLo
    kernelEnv.fbuf 3 (filled kernelEnv reader.vm [Fs.slash, 0x62, 0]) namer.vm := by
  have vm : namer.vm = (readCopy kernelEnv reader (mkdirFrame 0x40000000) [Fs.slash, 0x62, 0]).vm :=
    (withVm_fs reader _ reader.fs).2.1
  rw [vm]
  exact @reader_copied (mkdirFrame 0x40000000) [Fs.slash, 0x62, 0] rfl rfl (by decide) (by decide)

theorem namer_string : UserString kernelLayout namer.vm.ram namer.curid vmUserLo [Fs.slash, 0x62] := by
  refine ⟨by decide, Nat.le_refl _, by decide, fun i below => ?_⟩
  have inside : i < 3 := Nat.lt_succ_of_le below
  rw [namer_curid, namer_copied.bytes i inside]
  refine (@byteAt_filled kernelEnv [Fs.slash, 0x62, 0] reader.vm (by decide) i inside).trans ?_
  have same : ∀ i, i < 3 → ([Fs.slash, 0x62, 0] : List Byte)[i]?.map BitVec.toNat =
      some (([Fs.slash, 0x62] : List Byte).getD i 0).toNat := by decide
  exact same i inside

/-- `mkdir` of the string of process 1 acts on it, whatever the local holds. -/
theorem path_calls_safe_namer :
    UserString kernelLayout namer.vm.ram namer.curid vmUserLo [Fs.slash, 0x62] ∧
    ∀ t, SameButLocals kernelEnv (mkdirFrame 0x40000000) .mkdir namer t →
      PathSafe kernelEnv (mkdirFrame 0x40000000) .mkdir t := by
  have user : UserProc namer.curid := by
    rw [namer_curid]
    decide
  refine ⟨namer_string, (path_calls_safe_iff kernelEnv _ namer (mkdirFrame 0x40000000) .mkdir
    namer_copied.isolated user rfl ?_ (List.pairwise_singleton _ _) ?_).mpr ?_⟩
  · exact List.forall_mem_singleton.mpr kernelEnv_path
  · exact List.forall_mem_singleton.mpr ⟨by decide, fun _ => ⟨_, namer_string⟩⟩
  · exact List.forall_mem_singleton.mpr ⟨by decide, by decide, _, namer_string, by decide⟩

/-- The local `path` still holds `/b` from an earlier call. -/
def haunted : System := withLocal reader kernelEnv.path [Fs.slash, 0x62, 0]

theorem haunted_same : SameBut kernelEnv.path pathSize reader haunted :=
  sameBut_withLocal kernelEnv_path (by decide)

theorem haunted_fs : haunted.fs = readerFs := (withVm_fs reader _ reader.fs).2.2.trans reader_fs

theorem haunted_curid : haunted.curid = 1 := (withVm_fs reader _ reader.fs).1.trans reader_curid

/-- The copy from address 0 is refused, and the file system is given what the local held. -/
theorem haunted_path : cString (staged kernelEnv.layout haunted.curid haunted.vm
    (PathCall.mkdir.args kernelEnv (mkdirFrame 0))).ram kernelEnv.path = [Fs.slash, 0x62] := by
  have refused : staged kernelEnv.layout haunted.curid haunted.vm
      (PathCall.mkdir.args kernelEnv (mkdirFrame 0)) = haunted.vm := by
    change (copy _ _ _ _ 0 _ _).vm = _
    unfold copy
    rw [if_neg (by decide)]
  have bytes : ∀ i, i < 3 → (kernelEnv.path ≤ kernelEnv.path + i ∧
      kernelEnv.path + i < kernelEnv.path + 3) ∧
      ([Fs.slash, 0x62, 0] : List Byte).getD (kernelEnv.path + i - kernelEnv.path) 0 =
        ([Fs.slash, 0x62] : List Byte).getD i 0 := by decide
  rw [refused]
  refine stringAt_eq (by decide) (fun i below => ?_) (by decide)
  obtain ⟨inside, same⟩ := bytes i (Nat.lt_succ_of_le below)
  rw [local_fits kernelEnv_path (Nat.lt_of_le_of_lt below (by decide))]
  refine (byteAt_withLocal kernelEnv_path (by decide) _).trans ((if_pos inside).trans ?_)
  rw [same]

theorem readerFs_mkdir :
    ((Fs.fsMachine fun _ => false).run (Fs.setCurid 1 >>= fun _ => Fs.sysMkdir [Fs.slash, 0x62])
      readerFs).result = some ⟨.succ, none⟩ ∧
    (Fs.nodeOf readerFs.content 3).type = 0 ∧
    (Fs.nodeOf ((Fs.fsMachine fun _ => false).run (Fs.setCurid 1 >>= fun _ =>
      Fs.sysMkdir [Fs.slash, 0x62]) readerFs).state.content 3).type = 1 := by decide +kernel

/-- `mkdir` with the address 0 makes a directory of the name the local holds and reports success. -/
theorem mkdir_stale_path :
    Isolated kernelLayout (vmInit kernelLayout fourPages fun _ => 0).ram haunted.vm ∧
    UserProc haunted.curid ∧ ¬ UserAddr (syscallGetArg2 (mkdirFrame 0)) ∧
    (Fs.nodeOf haunted.fs.content 3).type = 0 ∧
    ∃ c, syscallDispatch kernelEnv haunted (mkdirFrame 0) = .ok c ∧ c.reported = some .succ ∧
      (Fs.nodeOf c.system.fs.content 3).type = 1 ∧ ¬ PathSafe kernelEnv (mkdirFrame 0) .mkdir haunted := by
  obtain ⟨fs, free, run, made⟩ : ∃ fs, (Fs.nodeOf readerFs.content 3).type = 0 ∧
      (Fs.fsMachine fun _ => false).run (Fs.setCurid 1 >>= fun _ => Fs.sysMkdir [Fs.slash, 0x62])
        readerFs = .ok ⟨.succ, none⟩ fs ∧ (Fs.nodeOf fs.content 3).type = 1 :=
    ⟨_, readerFs_mkdir.2.1, Outcome.eq_ok_of_result readerFs_mkdir.1, readerFs_mkdir.2.2⟩
  have requested := @syscallDispatch_request kernelEnv haunted (mkdirFrame 0) .mkdir rfl
  have called := @fileSystem_of_run _ (entered haunted (mkdirFrame 0)) (Fs.sysMkdir [Fs.slash, 0x62])
    ⟨.succ, none⟩ _ (by
      change (Fs.fsMachine fun _ => false).run (Fs.setCurid haunted.curid >>= _) haunted.fs = _
      rw [haunted_curid, haunted_fs]
      exact run)
  have prog : PathCall.mkdir.prog kernelEnv (mkdirFrame 0) (cString (staged kernelEnv.layout haunted.curid
      haunted.vm (PathCall.mkdir.args kernelEnv (mkdirFrame 0))).ram) = Fs.sysMkdir [Fs.slash, 0x62] :=
    congrArg Fs.sysMkdir haunted_path
  rw [prog, Call.request, called] at requested
  obtain ⟨c, done, reported, after⟩ : ∃ c, syscallDispatch kernelEnv haunted (mkdirFrame 0) = .ok c ∧
      c.reported = some .succ ∧ (Fs.nodeOf c.system.fs.content 3).type = 1 := by
    cases outcome : syscallDispatch kernelEnv haunted (mkdirFrame 0) with
    | error w =>
      rw [outcome] at requested
      cases requested
    | ok c =>
      rw [outcome] at requested
      have result := Except.ok.inj requested
      refine ⟨c, rfl, congrArg Prod.fst result, ?_⟩
      have same : c.system.fs = fs := congrArg (·.2.2) result
      rw [same]
      exact made
  have outside : ¬ UserAddr (syscallGetArg2 (mkdirFrame 0)) := by decide
  refine ⟨haunted_same.isolated kernelEnv_path reader_isolated, ?_, outside, ?_, c, done, reported, after,
    fun safe => ?_⟩
  · rw [haunted_curid]
    decide
  · rw [haunted_fs]
    exact free
  · obtain ⟨d, again, failed⟩ := safe.outside ⟨_, List.mem_singleton_self _, outside⟩
    obtain rfl := Except.ok.inj (done.symm.trans again)
    exact failed reported

end OsAudio.Trap

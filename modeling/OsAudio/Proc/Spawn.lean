import OsAudio.Pmm.Quota
import OsAudio.Vmm.UserCopy

/-!
# Spawning a process

`sys_spawn` (`kern/trap/TSyscall/TSyscall.c`) with what it calls: `proc_create`
(`kern/proc/PProc/PProc.c`), `thread_spawn` (`kern/thread/PThread/PThread.c`), the ready
queue (`kern/thread/PTQueueInit/PTQueueInit.c`) and `elf_load` (`kern/lib/elf.c`).

`sys_spawn` passes its local `curid` to `container_can_consume` and
`container_get_nchildren` before assigning it, so the value those two calls see is an
argument here.  Arrays are total functions: an index beyond an array reads and writes
whatever lies there.
-/
namespace OsAudio.Proc
open OsAudio.Lib OsAudio.Pmm OsAudio.Vmm
open Function (update update_self update_of_ne)

inductive TState
  | ready
  | run
  | sleep
  | dead
  deriving DecidableEq, Repr

/-- The scheduling fields of `struct TCB`; `NUM_IDS` stands for no thread. -/
structure TCB where
  state : TState
  prev : Nat
  next : Nat
  deriving DecidableEq, Repr

structure TQueue where
  head : Nat
  tail : Nat
  deriving DecidableEq, Repr

/-- The state of the kernel as seen by one CPU. -/
structure Kernel where
  vm : Vm
  tcb : Nat → TCB
  tqueue : Nat → TQueue
  curid : Nat

def deadTcb : TCB := ⟨.dead, numIds, numIds⟩

/-! ## Threads -/

def tcbSetState (k : Kernel) (pid : Nat) (state : TState) : Kernel :=
  { k with tcb := update k.tcb pid { k.tcb pid with state := state } }

def tcbSetPrev (k : Kernel) (pid prevPid : Nat) : Kernel :=
  { k with tcb := update k.tcb pid { k.tcb pid with prev := prevPid } }

def tcbSetNext (k : Kernel) (pid nextPid : Nat) : Kernel :=
  { k with tcb := update k.tcb pid { k.tcb pid with next := nextPid } }

def tqueueSetHead (k : Kernel) (chid head : Nat) : Kernel :=
  { k with tqueue := update k.tqueue chid { k.tqueue chid with head := head } }

def tqueueSetTail (k : Kernel) (chid tail : Nat) : Kernel :=
  { k with tqueue := update k.tqueue chid { k.tqueue chid with tail := tail } }

def tqueueEnqueue (k : Kernel) (chid pid : Nat) : Kernel :=
  let tail := (k.tqueue chid).tail
  if tail = numIds then
    let k := tcbSetPrev k pid numIds
    let k := tcbSetNext k pid numIds
    let k := tqueueSetHead k chid pid
    tqueueSetTail k chid pid
  else
    let k := tcbSetNext k tail pid
    let k := tcbSetPrev k pid tail
    let k := tcbSetNext k pid numIds
    tqueueSetTail k chid pid

/-- `kctx_new`, up to the saved registers of the new thread. -/
def kctxNew (k : Kernel) (id quota : Nat) : Nat × Kernel :=
  let (pid, vm) := allocMemQuota k.vm id quota
  (pid, { k with vm := vm })

def threadSpawn (k : Kernel) (id quota : Nat) : Nat × Kernel :=
  let (pid, k) := kctxNew k id quota
  let k := tcbSetState k pid .ready
  (pid, tqueueEnqueue k numIds pid)

/-! ## Loading the executable -/

/-- The fields of a program header that `elf_load` uses. -/
structure ProgHdr where
  pType : Nat
  pOffset : Nat
  pVa : Nat
  pFilesz : Nat
  pMemsz : Nat
  pFlags : Nat

/-- An executable linked into the kernel: where it lies and its program headers. -/
structure Elf where
  exe : Nat
  progs : List ProgHdr

def rounddown (a n : Nat) : Nat := a - a % n
def roundup (a n : Nat) : Nat := rounddown ((a + n - 1) % word) n

def ProgHdr.perm (ph : ProgHdr) : Nat :=
  if ph.pFlags / 2 % 2 = 1 then pteU ||| pteP ||| pteW else pteU ||| pteP

/-- How often the inner loop of `elf_load` runs. -/
def ProgHdr.rounds (ph : ProgHdr) : Nat :=
  (roundup ((ph.pVa + ph.pMemsz) % word) pageSize - rounddown ph.pVa pageSize) / pageSize

variable (L : Layout)

/-- The body of the inner loop, with the pieces it writes. -/
def elfLoadPage (ph : ProgHdr) (s : Vm) (pid va fa : Nat) : List Access × Vm :=
  let zva := (ph.pVa + ph.pFilesz) % word
  let s := (allocPage L s pid va ph.perm).2
  if va < rounddown zva pageSize then
    let copied := ptCopyout L s fa pid va pageSize
    (copied.accesses, copied.vm)
  else if va < zva ∧ ph.pFilesz ≠ 0 then
    let cleared := ptMemset L s pid va 0 pageSize
    let copied := ptCopyout L cleared.vm fa pid va (zva - va)
    (cleared.accesses ++ copied.accesses, copied.vm)
  else
    let cleared := ptMemset L s pid va 0 pageSize
    (cleared.accesses, cleared.vm)

/-- The body of the outer loop, after the pieces in `loaded` have been written. -/
def elfLoadSegment (elf : Elf) (pid : Nat) (loaded : List Access × Vm) (ph : ProgHdr) :
    List Access × Vm :=
  if ph.pType ≠ 1 then loaded
  else
    let va := rounddown ph.pVa pageSize
    let fa := elf.exe + rounddown ph.pOffset pageSize
    upTo ph.rounds (fun i loaded =>
      let page := elfLoadPage L ph loaded.2 pid (va + i * pageSize) ((fa + i * pageSize) % word)
      (loaded.1 ++ page.1, page.2)) loaded

/-- `elf_load`, with all pieces it writes. -/
def elfLoad (elf : Elf) (s : Vm) (pid : Nat) : List Access × Vm :=
  elf.progs.foldl (elfLoadSegment L elf pid) ([], s)

/-! ## The system call -/

/-- `proc_create`, up to the initial user registers of the new process. -/
def procCreate (elf : Elf) (k : Kernel) (quota : Nat) : Nat × Kernel :=
  let (pid, k) := threadSpawn k k.curid quota
  (pid, { k with vm := (elfLoad L elf k.vm pid).2 })

inductive Errno
  | succ
  | exceedsQuota
  | maxNumChildrenReached
  | invalChildId
  | invalPid
  deriving DecidableEq, Repr

/-- The error number and the first return value left in the trap frame. -/
structure SpawnResult where
  errno : Errno
  retval1 : Nat
  deriving DecidableEq, Repr

/-- `sys_spawn`.  `garbage` is the value of the uninitialised local `curid`; `elfs` are the
executables with ids 1 to 4. -/
def sysSpawn (elfs : Nat → Elf) (k : Kernel) (garbage elfId quota : Nat) : SpawnResult × Kernel :=
  let qok := containerCanConsume k.vm.mem garbage quota
  let nc := containerGetNchildren k.vm.mem garbage
  let curid := k.curid
  if qok = 0 then (⟨.exceedsQuota, numIds⟩, k)
  else if numIds < (curid * maxChildren + 1 + maxChildren) % 4294967296 then
    (⟨.maxNumChildrenReached, numIds⟩, k)
  else if nc = maxChildren then (⟨.invalChildId, numIds⟩, k)
  else if elfId = 1 ∨ elfId = 2 ∨ elfId = 3 ∨ elfId = 4 then
    let (newPid, k) := procCreate L (elfs elfId) k quota
    if newPid = numIds then (⟨.invalPid, numIds⟩, k) else (⟨.succ, newPid⟩, k)
  else (⟨.invalPid, numIds⟩, k)

/-! ## What the caller of `sys_spawn` may rely on -/

/-- A process id that no process uses: its container is unused, its thread is dead and not
linked into a queue, and its page directory maps no user memory. -/
structure Idle (k : Kernel) (id : Nat) : Prop where
  container : k.vm.mem.container id = zeroContainer
  thread : k.tcb id = deadTcb
  directory : ∀ pde, UserPde pde → getPdirEntry L k.vm.ram id pde = 0

/-- The consistency of containers, threads and page directories. -/
structure ProcInv (k : Kernel) : Prop where
  tree : TreeIndexed k.vm.mem.container
  fan : ∀ id, id < numIds → 0 ≤ (k.vm.mem.container id).nchildren ∧
    (k.vm.mem.container id).nchildren ≤ 3
  bounds : ∀ id, id < numIds → 0 ≤ (k.vm.mem.container id).usage ∧
    (k.vm.mem.container id).usage ≤ (k.vm.mem.container id).quota ∧
    (k.vm.mem.container id).quota < 2147483648
  idle : ∀ id, id < numIds → (k.vm.mem.container id).used = 0 → Idle L k id

/-- The caller has the quota and a free child slot, and all its child ids exist. -/
def MaySpawn (k : Kernel) (quota : Nat) : Prop :=
  (k.vm.mem.container k.curid).usage + quota ≤ (k.vm.mem.container k.curid).quota ∧
  (k.vm.mem.container k.curid).nchildren < maxChildren ∧
  k.curid * maxChildren + maxChildren < numIds

/-- A child was created: allowed by the caller's own account, under an id that was not in
use, and charged to the caller. -/
structure Spawned (k : Kernel) (quota : Nat) (result : SpawnResult × Kernel) : Prop where
  may : MaySpawn k quota
  errno : result.1.errno = .succ
  range : result.1.retval1 < numIds
  idle : Idle L k result.1.retval1
  charged : result.2.vm.mem.container k.curid =
    { k.vm.mem.container k.curid with
      usage := (k.vm.mem.container k.curid).usage + quota
      nchildren := (k.vm.mem.container k.curid).nchildren + 1 }

/-- No child was created: the failure is reported and nothing has changed. -/
structure Refused (k : Kernel) (result : SpawnResult × Kernel) : Prop where
  errno : result.1.errno ≠ .succ
  retval : result.1.retval1 = numIds
  unchanged : result.2 = k

/-- What the code tests before it creates the child; the first and the third test look at
the container the uninitialised variable happens to name. -/
def Admitted (k : Kernel) (garbage elfId quota : Nat) : Prop :=
  containerCanConsume k.vm.mem garbage quota ≠ 0 ∧
  ¬ numIds < (k.curid * maxChildren + 1 + maxChildren) % 4294967296 ∧
  containerGetNchildren k.vm.mem garbage ≠ maxChildren ∧
  (elfId = 1 ∨ elfId = 2 ∨ elfId = 3 ∨ elfId = 4)

/-! ## Loading an executable only consumes the child's account -/

theorem containerAlloc_other (m : Mem) (pid id : Nat) (other : id ≠ pid) :
    (containerAlloc m pid).2.container id = m.container id := by
  unfold containerAlloc
  dsimp only
  split
  · rfl
  · exact update_of_ne other _ _

theorem mapPage_container (s : Vm) (pid va page perm id : Nat) (other : id ≠ pid) :
    (mapPage L s pid va page perm).2.mem.container id = s.mem.container id := by
  have table : (allocPtbl L s pid va).2.mem.container id = s.mem.container id := by
    unfold allocPtbl
    dsimp only
    split <;> exact containerAlloc_other s.mem pid id other
  unfold mapPage
  by_cases registered : getPdirEntryByVa L s.ram pid va ≠ 0
  · simp only [if_pos registered]
    split <;> rfl
  · simp only [if_neg registered]
    split <;> split <;> exact table

theorem allocPage_container (s : Vm) (pid va perm id : Nat) (other : id ≠ pid) :
    (allocPage L s pid va perm).2.mem.container id = s.mem.container id := by
  unfold allocPage
  dsimp only
  split
  · exact containerAlloc_other s.mem pid id other
  · rw [mapPage_container L _ pid va _ perm id other]
    exact containerAlloc_other s.mem pid id other

theorem copyLoop_container {dir : Direction} {pid fuel uva kva len id : Nat} {s : Vm} (other : id ≠ pid) :
    (copyLoop L dir pid fuel s uva kva len).vm.mem.container id = s.mem.container id := by
  induction fuel generalizing s uva kva len with
  | zero => rfl
  | succ fuel ih =>
    by_cases done : len = 0
    · simp [copyLoop, done]
    obtain ⟨a, next, -, -, touched, -, -, rest, loop⟩ :=
      @copyLoop_succ L dir pid fuel uva kva len s done
    have allocated : a.vm.mem.container id = s.mem.container id := by
      unfold touch at touched
      split at touched
      · rw [Prod.mk.injEq] at touched
        rw [touched.2]
        exact allocPage_container L s pid uva _ id other
      · rw [Prod.mk.injEq] at touched
        rw [touched.2]
    rw [loop, rest]
    exact ih.trans allocated

theorem copy_container {dir : Direction} {pid uva kva len id : Nat} {s : Vm} (other : id ≠ pid) :
    (copy L dir s pid uva kva len).vm.mem.container id = s.mem.container id := by
  unfold copy
  split
  · exact copyLoop_container L other
  · rfl

theorem elfLoadPage_container (ph : ProgHdr) (s : Vm) (pid va fa id : Nat) (other : id ≠ pid) :
    (elfLoadPage L ph s pid va fa).2.mem.container id = s.mem.container id := by
  have mapped := allocPage_container L s pid va ph.perm id other
  unfold elfLoadPage
  dsimp only
  split
  · exact (copy_container L other).trans mapped
  · split
    · exact (copy_container L other).trans ((copyLoop_container L other).trans mapped)
    · exact (copyLoop_container L other).trans mapped

theorem elfLoadSegment_container (elf : Elf) (ph : ProgHdr) (loaded : List Access × Vm) (pid id : Nat)
    (other : id ≠ pid) :
    (elfLoadSegment L elf pid loaded ph).2.mem.container id = loaded.2.mem.container id := by
  unfold elfLoadSegment
  split
  · rfl
  · refine upTo_invariant (fun _ (t : List Access × Vm) =>
      t.2.mem.container id = loaded.2.mem.container id) rfl _ ?_
    intro i t _ same
    exact (elfLoadPage_container L ph t.2 pid _ _ id other).trans same

theorem elfLoad_container (elf : Elf) (s : Vm) (pid id : Nat) (other : id ≠ pid) :
    (elfLoad L elf s pid).2.mem.container id = s.mem.container id := by
  have run : ∀ (progs : List ProgHdr) (loaded : List Access × Vm),
      (progs.foldl (elfLoadSegment L elf pid) loaded).2.mem.container id = loaded.2.mem.container id := by
    intro progs
    induction progs with
    | nil => exact fun _ => rfl
    | cons ph progs ih =>
      exact fun loaded => (ih _).trans (elfLoadSegment_container L elf ph loaded pid id other)
  exact run elf.progs ([], s)

theorem tqueueEnqueue_vm (k : Kernel) (chid pid : Nat) : (tqueueEnqueue k chid pid).vm = k.vm := by
  unfold tqueueEnqueue
  dsimp only
  split <;> rfl

theorem threadSpawn_result (k : Kernel) (id quota : Nat) :
    (threadSpawn k id quota).1 = (containerSplit k.vm.mem id quota).1 ∧
    (threadSpawn k id quota).2.vm.mem = (containerSplit k.vm.mem id quota).2 := by
  refine ⟨rfl, ?_⟩
  unfold threadSpawn
  dsimp only
  rw [tqueueEnqueue_vm]
  rfl

theorem procCreate_result (elf : Elf) (k : Kernel) (quota : Nat) :
    (procCreate L elf k quota).1 = (containerSplit k.vm.mem k.curid quota).1 ∧
    (∀ id, id ≠ (containerSplit k.vm.mem k.curid quota).1 →
      (procCreate L elf k quota).2.vm.mem.container id =
        (containerSplit k.vm.mem k.curid quota).2.container id) := by
  refine ⟨rfl, ?_⟩
  intro id other
  have spawned := threadSpawn_result k k.curid quota
  unfold procCreate
  dsimp only
  rw [elfLoad_container L elf _ _ id (spawned.1 ▸ other), spawned.2]

/-! ## The admission theorem -/

section Admission
variable {L} {k : Kernel} {elfs : Nat → Elf} {garbage elfId quota : Nat}

theorem sysSpawn_refused (rejected : ¬ Admitted k garbage elfId quota) :
    Refused k (sysSpawn L elfs k garbage elfId quota) := by
  unfold sysSpawn
  dsimp only
  split
  · exact ⟨nofun, rfl, rfl⟩
  · next consume =>
    split
    · exact ⟨nofun, rfl, rfl⟩
    · next ids =>
      split
      · exact ⟨nofun, rfl, rfl⟩
      · next children =>
        rw [if_neg fun elf => rejected ⟨consume, ids, children, elf⟩]
        exact ⟨nofun, rfl, rfl⟩

theorem sysSpawn_admitted (admitted : Admitted k garbage elfId quota) :
    sysSpawn L elfs k garbage elfId quota =
      (if (procCreate L (elfs elfId) k quota).1 = numIds then ⟨.invalPid, numIds⟩
        else ⟨.succ, (procCreate L (elfs elfId) k quota).1⟩,
        (procCreate L (elfs elfId) k quota).2) := by
  obtain ⟨consume, ids, children, elf⟩ := admitted
  simp only [sysSpawn, if_neg consume, if_neg ids, if_neg children, if_pos elf]
  split <;> rfl

/-- The child count of the caller always grows, so a call that reaches `proc_create` has
changed the containers. -/
theorem procCreate_counted (inv : ProcInv L k) (current : k.curid < numIds) (elf : Elf) :
    ((procCreate L elf k quota).2.vm.mem.container k.curid).nchildren =
      (k.vm.mem.container k.curid).nchildren + 1 := by
  obtain ⟨low, high⟩ := inv.fan k.curid current
  obtain ⟨nc, count⟩ : ∃ nc : Nat, (k.vm.mem.container k.curid).nchildren = nc :=
    ⟨_, (Int.toNat_of_nonneg low).symm⟩
  simp only [numIds] at current
  have children : uint32 (nc : Int) = nc := uint32_natCast (by omega)
  have index : (containerSplit k.vm.mem k.curid quota).1 = k.curid * 3 + 1 + nc := by
    simp only [containerSplit, maxChildren, count, children]
    omega
  rw [(procCreate_result L elf k quota).2 k.curid (by omega)]
  simp only [containerSplit, update_self, count, children]
  exact int32_of_range (by omega) (by omega)

theorem sysSpawn_spawned (inv : ProcInv L k) (current : k.curid < numIds)
    (admitted : Admitted k garbage elfId quota)
    (fits : (k.vm.mem.container k.curid).usage + quota ≤ (k.vm.mem.container k.curid).quota)
    (room : (k.vm.mem.container k.curid).nchildren < maxChildren) :
    Spawned L k quota (sysSpawn L elfs k garbage elfId quota) := by
  obtain ⟨low, -⟩ := inv.fan k.curid current
  obtain ⟨nonneg, -, small⟩ := inv.bounds k.curid current
  obtain ⟨nc, count⟩ : ∃ nc : Nat, (k.vm.mem.container k.curid).nchildren = nc :=
    ⟨_, (Int.toNat_of_nonneg low).symm⟩
  have few : nc < 3 := by
    simp only [maxChildren] at room
    omega
  have ids := admitted.2.1
  simp only [numIds, maxChildren] at ids current
  rw [Nat.mod_eq_of_lt (by omega)] at ids
  have range : k.curid * maxChildren + maxChildren < numIds := by
    simp only [numIds, maxChildren]
    omega
  have range' : 3 * k.curid + 3 < numIds := by
    simp only [numIds, maxChildren] at range ⊢
    omega
  have split := containerSplit_eq k.vm.mem k.curid quota nc count few range nonneg fits small
  have unused := inv.tree.child_unused count few range'
  obtain ⟨pid, containers⟩ := procCreate_result L (elfs elfId) k quota
  rw [split] at pid containers
  dsimp only at pid containers
  rw [sysSpawn_admitted admitted, pid, if_neg (by omega)]
  refine ⟨⟨fits, room, range⟩, rfl, ?_, ?_, ?_⟩
  · have small : 3 * k.curid + 1 + nc < numIds := by omega
    exact small
  · exact inv.idle (3 * k.curid + 1 + nc) (by omega) unused
  · dsimp only
    rw [containers k.curid (by omega), splitTable_self]

/-- `sys_spawn` creates a child only as far as the caller's own account allows, and
otherwise reports a failure and changes nothing, exactly if its tests, made on whatever
container the uninitialised variable names, let nothing through that the caller's own
quota and child count forbid. -/
theorem sysSpawn_charged_iff (L : Layout) (elfs : Nat → Elf) (k : Kernel)
    (garbage elfId quota : Nat) (inv : ProcInv L k) (current : k.curid < numIds) :
    (Spawned L k quota (sysSpawn L elfs k garbage elfId quota) ∨
      Refused k (sysSpawn L elfs k garbage elfId quota)) ↔
    (Admitted k garbage elfId quota →
      (k.vm.mem.container k.curid).usage + quota ≤ (k.vm.mem.container k.curid).quota ∧
      (k.vm.mem.container k.curid).nchildren < maxChildren) := by
  constructor
  · rintro (spawned | refused) admitted
    · exact ⟨spawned.may.1, spawned.may.2.1⟩
    · have unchanged := refused.unchanged
      rw [sysSpawn_admitted admitted] at unchanged
      have counted := @procCreate_counted L k quota inv current (elfs elfId)
      dsimp only at unchanged
      rw [unchanged] at counted
      omega
  · intro sound
    by_cases admitted : Admitted k garbage elfId quota
    · exact Or.inl (sysSpawn_spawned inv current admitted (sound admitted).1 (sound admitted).2)
    · exact Or.inr (sysSpawn_refused admitted)

end Admission

/-! ## Boot -/

/-- The state after `thread_init`, for one CPU. -/
def threadInit (rows : List MmapRow) (ram : Ram) : Kernel :=
  { vm := vmInit L rows ram
    tcb := update (fun _ => deadTcb) 0 { deadTcb with state := .run }
    tqueue := fun _ => ⟨numIds, numIds⟩
    curid := 0 }

/-- A root with a quota of ten pages and one child, process 1, that has no quota at all;
process 1 is running. -/
def noQuota : Kernel :=
  { vm :=
      ⟨⟨bootPhysMem, update (update (fun _ => zeroContainer) 0 ⟨10, 0, 0, 1, 1⟩) 1
        ⟨0, 0, 0, 0, 1⟩⟩, (vmInit kernelLayout [] fun _ => 0).ram⟩
    tcb := update (update (fun _ => deadTcb) 0 { deadTcb with state := .ready }) 1
      { deadTcb with state := .run }
    tqueue := update (fun _ => ⟨numIds, numIds⟩) numIds ⟨0, 0⟩
    curid := 1 }

theorem noQuota_cases (id : Nat) :
    id = 0 ∧ noQuota.vm.mem.container id = ⟨10, 0, 0, 1, 1⟩ ∨
    id = 1 ∧ noQuota.vm.mem.container id = ⟨0, 0, 0, 0, 1⟩ ∨
    (id ≠ 0 ∧ id ≠ 1) ∧ noQuota.vm.mem.container id = zeroContainer := by
  by_cases zero : id = 0
  · left
    subst zero
    exact ⟨rfl, rfl⟩
  · by_cases one : id = 1
    · right
      left
      subst one
      exact ⟨rfl, rfl⟩
    · right
      right
      refine ⟨⟨zero, one⟩, ?_⟩
      simp only [noQuota, update_of_ne one, update_of_ne zero]

theorem noQuota_inv : ProcInv kernelLayout noQuota := by
  have slot : ∀ j, j < numIds → j ≠ 0 → ((noQuota.vm.mem.container j).used ≠ 0 ↔
      (noQuota.vm.mem.container ((j - 1) / 3)).used ≠ 0 ∧
        ((j - 1) % 3 : Nat) < (noQuota.vm.mem.container ((j - 1) / 3)).nchildren) := by
    decide
  have parent : ∀ j, j < numIds → j ≠ 0 → (noQuota.vm.mem.container j).used ≠ 0 →
      (noQuota.vm.mem.container j).parent = ((j - 1) / 3 : Nat) := by
    decide
  refine ⟨⟨⟨by decide, by decide⟩, fun j other below => slot j below other,
    fun j other below => parent j below other, by decide⟩, by decide, by decide, ?_⟩
  · intro id below unused
    have other : id ≠ 0 ∧ id ≠ 1 ∧ noQuota.vm.mem.container id = zeroContainer := by
      rcases noQuota_cases id with ⟨-, same⟩ | ⟨-, same⟩ | ⟨⟨zero, one⟩, same⟩
      · rw [same] at unused
        exact absurd unused (by decide)
      · rw [same] at unused
        exact absurd unused (by decide)
      · exact ⟨zero, one, same⟩
    refine ⟨other.2.2, ?_, ?_⟩
    · simp only [noQuota, update_of_ne other.1, update_of_ne other.2.1]
    · intro pde user
      exact (vmInit_entry [] _ below user).trans (if_neg other.1)

def emptyElf : Elf := ⟨0, []⟩

theorem sysSpawn_charged_noQuota :
    ProcInv kernelLayout noQuota ∧ Admitted noQuota 0 1 0 ∧
      (Spawned kernelLayout noQuota 0 (sysSpawn kernelLayout (fun _ => emptyElf) noQuota 0 1 0) ∨
        Refused noQuota (sysSpawn kernelLayout (fun _ => emptyElf) noQuota 0 1 0)) := by
  refine ⟨noQuota_inv, ⟨by decide, by decide, by decide, by decide⟩, ?_⟩
  exact (sysSpawn_charged_iff kernelLayout (fun _ => emptyElf) noQuota 0 1 0 noQuota_inv
    (by decide)).mpr fun _ => ⟨by decide, by decide⟩

/-- If the uninitialised variable happens to be 0, a process without any quota spawns a
child with a quota of one page. -/
theorem sysSpawn_overdraws :
    ProcInv kernelLayout noQuota ∧ noQuota.curid < numIds ∧
      (sysSpawn kernelLayout (fun _ => emptyElf) noQuota 0 1 1).1 = ⟨.succ, 4⟩ ∧
      ¬ MaySpawn noQuota 1 ∧
      ¬ (Spawned kernelLayout noQuota 1 (sysSpawn kernelLayout (fun _ => emptyElf) noQuota 0 1 1) ∨
        Refused noQuota (sysSpawn kernelLayout (fun _ => emptyElf) noQuota 0 1 1)) := by
  have admitted : Admitted noQuota 0 1 1 := ⟨by decide, by decide, by decide, by decide⟩
  have result : (sysSpawn kernelLayout (fun _ => emptyElf) noQuota 0 1 1).1 = ⟨.succ, 4⟩ := by
    rw [sysSpawn_admitted admitted, (procCreate_result _ _ _ _).1]
    decide
  have overdrawn : ¬ MaySpawn noQuota 1 := by
    intro may
    exact absurd may.1 (by decide)
  refine ⟨noQuota_inv, by decide, result, overdrawn, ?_⟩
  rintro (spawned | refused)
  · exact overdrawn spawned.may
  · exact refused.errno (by rw [result])

end OsAudio.Proc

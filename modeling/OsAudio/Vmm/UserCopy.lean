import OsAudio.Vmm.Isolation
import Mathlib.Tactic.Ring

/-!
# Copying from and to user memory

`pt_copyin`, `pt_copyout` and `pt_memset` (`kern/lib/pmap.c`).  They walk the pages of a user
address range, allocate a page that is not present, and copy through the physical address that
the page-table entry then gives; their loops differ in what is moved only.  The loop records
every piece it copies, with the state in which it does so.

Addresses and lengths are 32-bit words, so `uva + len` wraps.  Physical memory is addressed
by aligned words as in `OsAudio.Vmm.PageTable`; the kernel runs on the identity map, so `kva`
is a physical address.
-/
namespace OsAudio.Vmm
open OsAudio.Lib OsAudio.Pmm
open Function (update update_self update_of_ne)

/-! ## The source -/

def word : Nat := 4294967296

def byteAt (ram : Ram) (addr : Nat) : Nat := ram (addr / 4 * 4) / 256 ^ (addr % 4) % 256

def storeByte (ram : Ram) (addr value : Nat) : Ram :=
  let old := ram (addr / 4 * 4)
  let place := 256 ^ (addr % 4)
  update ram (addr / 4 * 4)
    (old / (256 * place) * (256 * place) + value * place + old % place)

def memcpy (ram : Ram) (dst src size : Nat) : Ram :=
  upTo size (fun i ram => storeByte ram ((dst + i) % word) (byteAt ram ((src + i) % word))) ram

def memset (ram : Ram) (dst c size : Nat) : Ram :=
  upTo size (fun i ram => storeByte ram ((dst + i) % word) c) ram

inductive Direction
  | copyin
  | copyout
  | memset (c : Nat)
  deriving DecidableEq, Repr

/-- The `memcpy` or `memset` of the loop. -/
def Direction.move (dir : Direction) (ram : Ram) (kva pa size : Nat) : Ram :=
  match dir with
  | .copyin => memcpy ram kva pa size
  | .copyout => memcpy ram pa kva size
  | .memset c => Vmm.memset ram pa c size

/-- One piece of a copy: the state it is made in, its user address, the physical address used
for it, its length, and what `alloc_page` returned if it was called. -/
structure Access where
  vm : Vm
  va : Nat
  pa : Nat
  size : Nat
  alloc : Option Nat

structure Copied where
  copied : Nat
  accesses : List Access
  vm : Vm

variable (L : Layout)

/-- The start of a round: a page that is not present is allocated. -/
def touch (s : Vm) (pid va : Nat) : Option Nat × Vm :=
  if getPtblEntryByVa L s.ram pid va % 2 = 0 then
    let (result, s) := allocPage L s pid va (pteP ||| pteU ||| pteW)
    (some result, s)
  else (none, s)

/-- The loop, with at most `fuel` rounds. -/
def copyLoop (dir : Direction) (pid : Nat) : (fuel : Nat) → Vm → (uva kva len : Nat) → Copied
  | 0, s, _, _, _ => ⟨0, [], s⟩
  | fuel + 1, s, uva, kva, len =>
    if len = 0 then ⟨0, [], s⟩
    else
      let (alloc, s) := touch L s pid uva
      let pa := getPtblEntryByVa L s.ram pid uva / pageSize * pageSize + uva % pageSize
      let size := if len < pageSize - pa % pageSize then len else pageSize - pa % pageSize
      let rest := copyLoop dir pid fuel ⟨s.mem, dir.move s.ram kva pa size⟩ ((uva + size) % word)
        ((kva + size) % word) (len - size)
      ⟨size + rest.copied, ⟨s, uva, pa, size, alloc⟩ :: rest.accesses, rest.vm⟩

/-- The checks before the loop. -/
def accepted (uva kva len : Nat) : Prop :=
  (vmUserLo ≤ uva ∧ (uva + len) % word ≤ vmUserHi) ∧ ¬ vmUserHi < (kva + len) % word

instance (uva kva len : Nat) : Decidable (accepted uva kva len) :=
  inferInstanceAs (Decidable (_ ∧ _))

def copy (dir : Direction) (s : Vm) (pid uva kva len : Nat) : Copied :=
  if accepted uva kva len then copyLoop L dir pid len s uva kva len else ⟨0, [], s⟩

def ptCopyin (s : Vm) (pmapId uva kva len : Nat) : Copied := copy L .copyin s pmapId uva kva len

def ptCopyout (s : Vm) (kva pmapId uva len : Nat) : Copied := copy L .copyout s pmapId uva kva len

def ptMemset (s : Vm) (pmapId va c len : Nat) : Copied := copyLoop L (.memset c) pmapId len s va 0 len

/-! ## Confinement -/

/-- Every byte of the piece lies, at a user address, in the frame that the page table of the
process maps there. -/
def Access.Confined (pid : Nat) (a : Access) : Prop :=
  ∀ i, i < a.size → vmUserLo ≤ a.va + i ∧ a.va + i < vmUserHi ∧
    getPtblEntryByVa L a.vm.ram pid (a.va + i) % 2 = pteP ∧
    (a.pa + i) / pageSize = getPtblEntryByVa L a.vm.ram pid (a.va + i) / pageSize

/-- The page of the piece is present when the piece is copied. -/
def Access.Mapped (pid : Nat) (a : Access) : Prop :=
  getPtblEntryByVa L a.vm.ram pid a.va % 2 = pteP

/-- The shape of a piece: it ends in the page it starts in. -/
structure Access.Shaped (pid : Nat) (a : Access) : Prop where
  pa : a.pa = getPtblEntryByVa L a.vm.ram pid a.va / pageSize * pageSize + a.va % pageSize
  positive : 0 < a.size
  inside : a.va % pageSize + a.size ≤ pageSize

variable {L}

theorem getPtblEntryByVa_samePage {ram : Ram} {pid va other : Nat}
    (same : va / pageSize = other / pageSize) :
    getPtblEntryByVa L ram pid va = getPtblEntryByVa L ram pid other := by
  have pde : pdeOf va = pdeOf other := by
    simp only [pdeOf, pageSize] at same ⊢
    omega
  have pte : pteOf va = pteOf other := by
    simp only [pteOf, pageSize] at same ⊢
    omega
  unfold getPtblEntryByVa
  rw [pde, pte]

variable {pid uva kva len size other : Nat} {s : Vm} {ram : Ram}

/-- A piece is confined when its page is present and in the user range. -/
theorem Access.Shaped.confined_iff {a : Access} (shaped : a.Shaped L pid) :
    a.Confined L pid ↔ (vmUserLo ≤ a.va ∧ a.va < vmUserHi) ∧ a.Mapped L pid := by
  have positive := shaped.positive
  have inside := shaped.inside
  constructor
  · intro confined
    obtain ⟨low, high, present, -⟩ := confined 0 positive
    exact ⟨⟨low, high⟩, present⟩
  · rintro ⟨⟨low, high⟩, mapped⟩ i below
    have page : (a.va + i) / pageSize = a.va / pageSize := by
      simp only [pageSize] at inside ⊢
      omega
    rw [getPtblEntryByVa_samePage page]
    refine ⟨by omega, ?_, mapped, ?_⟩
    · simp only [vmUserHi, pageSize] at high inside ⊢
      omega
    · rw [shaped.pa]
      simp only [pageSize] at inside ⊢
      omega

theorem copyLoop_succ {dir : Direction} {pid fuel uva kva len : Nat} {s : Vm} (more : len ≠ 0) :
    ∃ a next, a.Shaped L pid ∧ a.va = uva ∧ (a.alloc, a.vm) = touch L s pid uva ∧
      a.size ≤ len ∧ (a.size = len ∨ a.size = pageSize - uva % pageSize) ∧
      next = copyLoop L dir pid fuel ⟨a.vm.mem, dir.move a.vm.ram kva a.pa a.size⟩
        ((uva + a.size) % word) ((kva + a.size) % word) (len - a.size) ∧
      copyLoop L dir pid (fuel + 1) s uva kva len =
        ⟨a.size + next.copied, a :: next.accesses, next.vm⟩ := by
  rw [copyLoop, if_neg more]
  rcases touched : touch L s pid uva with ⟨alloc, t⟩
  dsimp only
  have offset : (getPtblEntryByVa L t.ram pid uva / pageSize * pageSize + uva % pageSize) %
      pageSize = uva % pageSize := by
    simp only [pageSize]
    omega
  have small : uva % pageSize < pageSize := Nat.mod_lt _ (by decide)
  rw [offset]
  obtain ⟨size, chosen⟩ : ∃ size, (if len < pageSize - uva % pageSize then len
      else pageSize - uva % pageSize) = size := ⟨_, rfl⟩
  rw [chosen]
  have cases : size = len ∧ len < pageSize - uva % pageSize ∨
      size = pageSize - uva % pageSize ∧ pageSize - uva % pageSize ≤ len := by
    split at chosen <;> omega
  refine ⟨⟨t, uva, _, size, alloc⟩, _, ⟨rfl, ?_, ?_⟩, rfl, rfl, ?_, ?_, rfl, rfl⟩
  all_goals
    dsimp only
    omega

/-- Every piece of a copy has the shape of a piece, and together they cover the range. -/
theorem copyLoop_shaped {dir : Direction} {fuel : Nat} :
    ∀ a ∈ (copyLoop L dir pid fuel s uva kva len).accesses, a.Shaped L pid := by
  induction fuel generalizing s uva kva len with
  | zero => simp [copyLoop]
  | succ fuel ih =>
    by_cases done : len = 0
    · simp [copyLoop, done]
    · obtain ⟨a, next, shaped, -, -, -, -, rest, loop⟩ := @copyLoop_succ L dir pid fuel uva kva len s done
      rw [loop]
      intro other member
      rcases List.mem_cons.mp member with rfl | later
      · exact shaped
      · rw [rest] at later
        exact ih other later

/-- The loop needs no more rounds than there are bytes: it copies all of them. -/
theorem copyLoop_copied {dir : Direction} {fuel : Nat} (enough : len ≤ fuel) :
    (copyLoop L dir pid fuel s uva kva len).copied = len := by
  induction fuel generalizing s uva kva len with
  | zero =>
    rw [Nat.le_zero.mp enough]
    rfl
  | succ fuel ih =>
    by_cases done : len = 0
    · simp [copyLoop, done]
    · obtain ⟨a, next, shaped, -, -, bound, -, rest, loop⟩ :=
        @copyLoop_succ L dir pid fuel uva kva len s done
      have positive := shaped.positive
      rw [loop, rest]
      dsimp only
      rw [ih (by omega)]
      omega

/-- The pieces stay in the user range exactly when the range does, counted without wrapping. -/
theorem copyLoop_range {dir : Direction} {pid fuel uva kva len : Nat} {s : Vm} (enough : len ≤ fuel) :
    (∀ a ∈ (copyLoop L dir pid fuel s uva kva len).accesses, vmUserLo ≤ a.va ∧ a.va < vmUserHi) ↔
      len = 0 ∨ vmUserLo ≤ uva ∧ uva + len ≤ vmUserHi := by
  induction fuel generalizing s uva kva len with
  | zero => simp [copyLoop, Nat.le_zero.mp enough]
  | succ fuel ih =>
    by_cases done : len = 0
    · simp [copyLoop, done]
    obtain ⟨a, next, shaped, start, -, bound, size, rest, loop⟩ :=
      @copyLoop_succ L dir pid fuel uva kva len s done
    have positive := shaped.positive
    have inside := shaped.inside
    rw [start] at inside
    rw [loop, rest]
    simp only [List.forall_mem_cons]
    rw [ih (by omega), start]
    simp only [vmUserLo, vmUserHi, pageSize, word] at *
    omega

theorem word_of_range (high : uva + len ≤ vmUserHi) (bound : size ≤ len) :
    (uva + size) % word = uva + size := by
  simp only [vmUserHi] at high
  exact Nat.mod_eq_of_lt (by simp only [word]; omega)

/-! ## Allocation on demand -/

/-- `ram` has the page directories, the identity page tables and all registered page tables
of `s`. -/
structure Leaves (L : Layout) (s : Vm) (ram : Ram) : Prop where
  idptbl : ∀ i j, i < 1024 → j < 1024 → ram (idptblAddr L i j) = s.ram (idptblAddr L i j)
  pdirs : ∀ p k, p < numIds → k < 1024 → getPdirEntry L ram p k = getPdirEntry L s.ram p k
  tables : ∀ p k page, UserProc p → UserPde k → tablePage L s.ram p k = some page →
    ∀ j, j < 1024 → ram (page * pageSize + j * 4) = s.ram (page * pageSize + j * 4)

/-- A write that leaves page tables alone keeps the isolation of address spaces. -/
theorem Isolated.write {s : Vm} {base ram : Ram} (inv : Isolated L base s) (leaves : Leaves L s ram) :
    Isolated L base ⟨s.mem, ram⟩ := by
  obtain ⟨idptbl, pdirs, tables⟩ := leaves
  have pages : ∀ slot : Slot, slot.User → slot.page L ram = slot.page L s.ram := by
    intro slot user
    cases slot with
    | table p k =>
      have small := user.2.2
      simp only [Slot.page, tablePage, pdirs p k user.1.2 (by omega)]
    | frame p v =>
      obtain ⟨proc, page⟩ := user
      have pde := userPde_of_page page
      have small := pde.2
      refine userFrame_congr (pdirs p _ proc.2 (by omega)) fun table registered => ?_
      exact tables p _ table proc pde registered _ (by omega)
  refine ⟨fun i j row column => ?_, fun p k below small kernel => ?_, inv.normal, ?_, ?_⟩
  · exact (idptbl i j row column).trans (inv.idptbl i j row column)
  · exact (pdirs p k below small).trans (inv.kernelPart p k below small kernel)
  · intro slot page user refers
    exact inv.owned slot page user ((pages slot user).symm.trans refers)
  · intro a b page userA userB refersA refersB
    exact inv.distinct a b page userA userB ((pages a userA).symm.trans refersA)
      ((pages b userB).symm.trans refersB)

theorem userFrame_eq (ram : Ram) (pid va : Nat) : userFrame L ram pid (va / pageSize) =
    if getPtblEntryByVa L ram pid va % 2 = pteP then some (getPtblEntryByVa L ram pid va / pageSize)
    else none := by
  have page : va / pageSize * pageSize / pageSize = va / pageSize := by
    simp only [pageSize]
    omega
  unfold userFrame
  rw [getPtblEntryByVa_samePage page]

theorem userFrame_present {va frame : Nat}
    (mapped : userFrame L ram pid (va / pageSize) = some frame) :
    getPtblEntryByVa L ram pid va % 2 = pteP ∧ getPtblEntryByVa L ram pid va / pageSize = frame := by
  rw [userFrame_eq] at mapped
  split at mapped
  · next present => exact ⟨present, Option.some.inj mapped⟩
  · cases mapped

section Allocation
variable {s : Vm} {base : Ram} {pid va perm page : Nat}

/-- `set_ptbl_entry_by_va` behind a registered table makes the page present. -/
theorem Isolated.setPtblEntryByVa_present (inv : Isolated L base s) {table : Nat}
    (proc : UserProc pid) (low : vmUserLo ≤ va) (high : va < vmUserHi) (small : page < vmUserHiPi)
    (bits : perm < 4096) (present : perm % 2 = pteP)
    (registered : tablePage L s.ram pid (pdeOf va) = some table) :
    getPtblEntryByVa L (Vmm.setPtblEntryByVa L s.ram pid va page perm) pid va % 2 = pteP := by
  obtain ⟨user, -, pde, pte⟩ := userPage_of_range low high
  have stored := inv.setPtblEntry_page proc user (pde ▸ registered) small bits present
    (.frame pid (va / pageSize)) ⟨proc, user⟩
  rw [if_pos rfl, ← pde, ← pte] at stored
  exact (userFrame_present stored).1

/-- `map_page` fails only for want of a page table, and then the page is still missing. -/
theorem Isolated.mapPage_present (inv : Isolated L base s) (fresh : Fresh L s page)
    (proc : UserProc pid) (low : vmUserLo ≤ va) (high : va < vmUserHi) (bits : perm < 4096)
    (present : perm % 2 = pteP) :
    (Vmm.mapPage L s pid va page perm).1 ≠ magicNumber ↔
      getPtblEntryByVa L (Vmm.mapPage L s pid va page perm).2.ram pid va % 2 = pteP := by
  obtain ⟨-, pde, -, -⟩ := userPage_of_range low high
  unfold Vmm.mapPage
  by_cases registered : getPdirEntryByVa L s.ram pid va ≠ 0
  · have stored := inv.setPtblEntryByVa_present proc low high (inv.normal page fresh.norm).2 bits
      present (tablePage_eq_some registered)
    simp only [if_pos registered, if_pos (show (0 : Nat) ≠ magicNumber by decide), stored, iff_true]
    decide
  simp only [if_neg registered]
  obtain ⟨after, success⟩ := inv.allocPtbl fresh proc pde
  by_cases failed : (Vmm.allocPtbl L s pid va).1 = 0
  · have unchanged : (Vmm.allocPtbl L s pid va).2.ram = s.ram := by
      unfold Vmm.allocPtbl at failed ⊢
      rcases alloc : containerAlloc s.mem pid with ⟨pi, mem⟩
      rw [alloc] at failed
      dsimp only at failed ⊢
      split at failed
      · next nonzero => exact absurd failed nonzero
      · next zero => rw [if_neg zero]
    have missing : getPdirEntry L s.ram pid (pdeOf va) = 0 := not_not.mp registered
    simp only [failed, if_true, ne_eq, not_true_eq_false, if_false, unchanged, false_iff]
    rw [getPtblEntryByVa, if_pos missing]
    decide
  · obtain ⟨still, table, behind⟩ := success failed
    have index : (Vmm.allocPtbl L s pid va).1 ≠ magicNumber := by
      unfold Vmm.allocPtbl at failed ⊢
      rcases alloc : containerAlloc s.mem pid with ⟨pi, mem⟩
      rw [alloc] at failed
      dsimp only at failed ⊢
      have nonzero : pi ≠ 0 := by
        rintro rfl
        simp at failed
      have range := inv.normal pi ((containerAlloc_page alloc).2.2 nonzero).1
      rw [if_pos nonzero]
      simp only [vmUserHiPi, vmUserHi, pageSize] at range
      simp only [magicNumber]
      omega
    have stored := after.setPtblEntryByVa_present proc low high (after.normal page still.norm).2
      bits present behind
    simp only [failed, if_false, if_pos index, stored, iff_true]
    exact index

/-- `alloc_page` on a missing page returns the magic number exactly when the page is missing
afterwards. -/
theorem Isolated.allocPage_present (inv : Isolated L base s) (proc : UserProc pid)
    (low : vmUserLo ≤ va) (high : va < vmUserHi) (bits : perm < 4096) (present : perm % 2 = pteP)
    (missing : getPtblEntryByVa L s.ram pid va % 2 = 0) :
    (Vmm.allocPage L s pid va perm).1 ≠ magicNumber ↔
      getPtblEntryByVa L (Vmm.allocPage L s pid va perm).2.ram pid va % 2 = pteP := by
  unfold Vmm.allocPage
  rcases alloc : containerAlloc s.mem pid with ⟨pi, mem⟩
  obtain ⟨allocated, new⟩ := inv.alloc alloc
  dsimp only
  split
  · simp [missing, pteP]
  · next nonzero => exact allocated.mapPage_present (new nonzero) proc low high bits present

end Allocation

/-! ## Pieces that are mapped and pieces that were allocated -/

theorem storeByte_other {addr value : Nat} (outside : addr / 4 * 4 ≠ other) :
    storeByte ram addr value other = ram other := by
  unfold storeByte
  exact update_of_ne outside.symm _ _

theorem stores_other {dst : Nat} {value : Nat → Ram → Nat}
    (outside : ∀ i, i < size → (dst + i) % word / 4 * 4 ≠ other) :
    upTo size (fun i ram => storeByte ram ((dst + i) % word) (value i ram)) ram other = ram other := by
  refine upTo_invariant (fun _ (after : Ram) => after other = ram other) rfl size ?_
  intro i after below same
  rw [storeByte_other (outside i below), same]

theorem memcpy_other {dst src : Nat}
    (outside : ∀ i, i < size → (dst + i) % word / 4 * 4 ≠ other) :
    memcpy ram dst src size other = ram other := stores_other outside

/-- What is moved to user memory changes the piece only. -/
theorem Direction.move_other {dir : Direction} (toUser : dir ≠ .copyin) {pa : Nat}
    (outside : ∀ i, i < size → (pa + i) % word / 4 * 4 ≠ other) :
    dir.move ram kva pa size other = ram other := by
  cases dir with
  | copyin => exact absurd rfl toUser
  | copyout => exact memcpy_other outside
  | memset c => exact stores_other outside

/-- A buffer in kernel memory, away from the page directories and the identity page tables. -/
structure KernelBuffer (L : Layout) (kva len : Nat) : Prop where
  kernel : kva + len ≤ vmUserLo
  pdirs : kva + len ≤ L.pdirPool * pageSize ∨ (L.pdirPool + numIds) * pageSize ≤ kva
  idptbl : kva + len ≤ L.idptbl * pageSize ∨ (L.idptbl + 1024) * pageSize ≤ kva

theorem KernelBuffer.low (buffer : KernelBuffer L kva len) : kva ≤ vmUserLo :=
  Nat.le_of_add_right_le buffer.kernel

/-- A range of user addresses is not refused. -/
theorem accepted_of_range (low : vmUserLo ≤ uva) (high : uva + len ≤ vmUserHi) (kernel : kva ≤ vmUserLo) :
    accepted uva kva len := by
  simp only [accepted, vmUserLo, vmUserHi, word] at *
  omega

theorem KernelBuffer.advance (buffer : KernelBuffer L kva len)
    (bound : size ≤ len) : KernelBuffer L ((kva + size) % word) (len - size) := by
  obtain ⟨kernel, pdirs, idptbl⟩ := buffer
  have small : (kva + size) % word = kva + size := by
    simp only [vmUserLo] at kernel
    exact Nat.mod_eq_of_lt (by simp only [word]; omega)
  rw [small]
  refine ⟨by omega, ?_, ?_⟩
  · rcases pdirs with before | behind
    · exact .inl (by omega)
    · exact .inr (by omega)
  · rcases idptbl with before | behind
    · exact .inl (by omega)
    · exact .inr (by omega)

section Pieces
variable {s : Vm} {base : Ram} {pid : Nat}

section
variable (inv : Isolated L base s)
include inv

/-- Stores into a kernel buffer do not touch page tables. -/
theorem Isolated.leaves_buffer {kva size len : Nat} {ram : Ram} (buffer : KernelBuffer L kva len)
    (bound : size ≤ len)
    (same : ∀ other, (∀ i, i < size → (kva + i) % word / 4 * 4 ≠ other) → ram other = s.ram other) :
    Leaves L s ram := by
  obtain ⟨kernel, pdirs, idptbl⟩ := buffer
  have inRange : ∀ i, i < size → (kva + i) % word = kva + i := by
    intro i below
    simp only [vmUserLo] at kernel
    exact Nat.mod_eq_of_lt (by simp only [word]; omega)
  refine ⟨fun i j row column => ?_, fun p k below small => ?_,
    fun p k page proc pde registered j small => ?_⟩
  all_goals
    refine same _ fun i below => ?_
    rw [inRange i below]
  · simp only [idptblAddr, pageSize] at idptbl ⊢
    omega
  · simp only [pdirAddr, pageSize] at pdirs ⊢
    omega
  · have user := (inv.table_user proc pde registered).1
    simp only [vmUserLoPi, vmUserLo, pageSize] at user kernel ⊢
    omega

/-- Stores into a frame of a process do not touch page tables. -/
theorem Isolated.leaves_frame (proc : UserProc pid) {v frame : Nat} {ram : Ram} (user : UserPage v)
    (refers : userFrame L s.ram pid v = some frame)
    (same : ∀ w, w / pageSize ≠ frame → ram w = s.ram w) : Leaves L s ram := by
  have owned := inv.normal frame (inv.owned (.frame pid v) frame ⟨proc, user⟩ refers).1
  refine ⟨fun i j row column => ?_, fun p k below small => ?_,
    fun p k table other pde registered j small => ?_⟩
  all_goals refine same _ fun inside => ?_
  · have kernel := L.idptbl_kernel
    simp only [idptblAddr, pageSize] at inside
    omega
  · have kernel := L.pdirPool_kernel
    simp only [pdirAddr, pageSize] at inside
    omega
  · have equal : table = frame := by
      simp only [pageSize] at inside
      omega
    have slot := inv.distinct (.table p k) (.frame pid v) frame ⟨other, pde⟩ ⟨proc, user⟩
      (equal ▸ registered) refers
    cases slot

/-- The frame of a mapped piece, and the place of the piece in it. -/
theorem Isolated.piece_frame (proc : UserProc pid) {a : Access} (shaped : a.Shaped L pid)
    (state : a.vm = s) (low : vmUserLo ≤ a.va) (high : a.va < vmUserHi) (mapped : a.Mapped L pid) :
    ∃ frame, userFrame L s.ram pid (a.va / pageSize) = some frame ∧
      a.pa = frame * pageSize + a.va % pageSize ∧ vmUserLoPi ≤ frame ∧ frame < vmUserHiPi := by
  subst state
  obtain ⟨user, -, -, -⟩ := userPage_of_range low high
  have refers : userFrame L a.vm.ram pid (a.va / pageSize) =
      some (getPtblEntryByVa L a.vm.ram pid a.va / pageSize) := (userFrame_eq ..).trans (if_pos mapped)
  have owned := inv.owned (.frame pid (a.va / pageSize)) _ ⟨proc, user⟩ refers
  exact ⟨_, refers, shaped.pa, inv.normal _ owned.1⟩

/-- Copying into a frame of the process does not touch page tables. -/
theorem Isolated.leaves_piece (proc : UserProc pid) {a : Access} (shaped : a.Shaped L pid)
    (state : a.vm = s) (low : vmUserLo ≤ a.va) (high : a.va < vmUserHi) (mapped : a.Mapped L pid)
    {dir : Direction} (toUser : dir ≠ .copyin) (kva : Nat) :
    Leaves L s (dir.move s.ram kva a.pa a.size) := by
  obtain ⟨frame, refers, place, bounds⟩ := inv.piece_frame proc shaped state low high mapped
  have inside := shaped.inside
  refine inv.leaves_frame proc (userPage_of_range low high).1 refers fun w outside => ?_
  refine Direction.move_other toUser fun i below same => outside ?_
  rw [← same, place]
  simp only [vmUserHiPi, vmUserHi, pageSize, word] at *
  omega

/-- The start of a round keeps isolation. -/
theorem Isolated.touch (proc : UserProc pid) {va : Nat} (low : vmUserLo ≤ va)
    (high : va < vmUserHi) : Isolated L base (Vmm.touch L s pid va).2 := by
  unfold Vmm.touch
  split
  · exact inv.allocPage proc low high (by decide) (by decide)
  · exact inv

end

/-- Memory after a round of the loop that copies the piece `a`. -/
def Access.moved (dir : Direction) (kva : Nat) (a : Access) : Vm :=
  ⟨a.vm.mem, dir.move a.vm.ram kva a.pa a.size⟩

/-- A round of a copy that stays in the user range. -/
structure Round (L : Layout) (base : Ram) (dir : Direction) (pid uva kva len : Nat) (s : Vm)
    (a : Access) : Prop where
  before : Isolated L base s
  low : vmUserLo ≤ uva
  high : uva + len ≤ vmUserHi
  buffer : dir = .copyin → KernelBuffer L kva len
  shaped : a.Shaped L pid
  start : a.va = uva
  touched : (a.alloc, a.vm) = touch L s pid uva
  bound : a.size ≤ len
  size : a.size = len ∨ a.size = pageSize - uva % pageSize
  isolated : Isolated L base a.vm

variable {dir : Direction} {uva kva len : Nat} {a : Access}

theorem Round.below (round : Round L base dir pid uva kva len s a) : uva < vmUserHi := by
  have positive := round.shaped.positive
  have bound := round.bound
  have high := round.high
  omega

theorem Round.leaves (round : Round L base dir pid uva kva len s a) (proc : UserProc pid)
    (mapped : dir ≠ .copyin → a.Mapped L pid) : Leaves L a.vm (a.moved dir kva).ram := by
  have low := round.start ▸ round.low
  have below := round.start ▸ round.below
  by_cases isCopyin : dir = .copyin
  · subst isCopyin
    exact round.isolated.leaves_buffer (round.buffer rfl) round.bound fun _ => memcpy_other
  · exact round.isolated.leaves_piece proc round.shaped rfl low below (mapped isCopyin) isCopyin kva

theorem copyLoop_round {fuel : Nat} (inv : Isolated L base s) (proc : UserProc pid) (more : len ≠ 0)
    (low : vmUserLo ≤ uva) (high : uva + len ≤ vmUserHi) (buffer : dir = .copyin → KernelBuffer L kva len) :
    ∃ a next, Round L base dir pid uva kva len s a ∧
      next = copyLoop L dir pid fuel (a.moved dir kva) (uva + a.size) ((kva + a.size) % word)
        (len - a.size) ∧
      copyLoop L dir pid (fuel + 1) s uva kva len =
        ⟨a.size + next.copied, a :: next.accesses, next.vm⟩ := by
  obtain ⟨a, next, shaped, start, touched, bound, size, rest, loop⟩ :=
    @copyLoop_succ L dir pid fuel uva kva len s more
  have kept := inv.touch proc low (show uva < vmUserHi by omega)
  rw [← touched] at kept
  rw [word_of_range high bound] at rest
  exact ⟨a, next, ⟨inv, low, high, buffer, shaped, start, touched, bound, size, kept⟩, rest, loop⟩

/-- What holds of a copy that stays in the user range, by induction on its rounds.  Memory is isolated
after a round unless it has copied to a page that is missing. -/
theorem copyLoop_rounds {P : Vm → Nat → Nat → Nat → Copied → Prop} {fuel : Nat} (proc : UserProc pid)
    (stop : ∀ s uva kva, Isolated L base s → P s uva kva 0 ⟨0, [], s⟩)
    (step : ∀ s uva kva len a rest, Round L base dir pid uva kva len s a →
      ((dir ≠ .copyin → a.Mapped L pid) →
        P (a.moved dir kva) (uva + a.size) ((kva + a.size) % word) (len - a.size) rest) →
      P s uva kva len ⟨a.size + rest.copied, a :: rest.accesses, rest.vm⟩)
    (inv : Isolated L base s) (enough : len ≤ fuel) (low : vmUserLo ≤ uva) (high : uva + len ≤ vmUserHi)
    (buffer : dir = .copyin → KernelBuffer L kva len) :
    P s uva kva len (copyLoop L dir pid fuel s uva kva len) := by
  induction fuel generalizing s uva kva len with
  | zero =>
    obtain rfl : len = 0 := Nat.le_zero.mp enough
    exact stop s uva kva inv
  | succ fuel ih =>
    by_cases done : len = 0
    · subst done
      rw [copyLoop, if_pos rfl]
      exact stop s uva kva inv
    obtain ⟨a, next, round, rest, loop⟩ := @copyLoop_round L s base pid dir uva kva len fuel inv proc done
      low high buffer
    have positive := round.shaped.positive
    have bound := round.bound
    rw [loop]
    refine step s uva kva len a next round fun mapped => ?_
    rw [rest]
    exact ih (round.isolated.write (round.leaves proc mapped)) (by omega) (by omega) (by omega)
      fun isCopyin => (buffer isCopyin).advance bound

end Pieces

/-! ## Both functions -/

section Copy
variable {s : Vm} {pid uva kva len : Nat} {dir : Direction}

/-- Both functions return the length they were asked for, or 0. -/
theorem copy_copied : (copy L dir s pid uva kva len).copied = if accepted uva kva len then len else 0 := by
  unfold copy
  split
  · exact copyLoop_copied (Nat.le_refl len)
  · rfl

/-- A copy is confined exactly when it is refused, or its range does not wrap and each of its
pages is mapped when its turn comes. -/
theorem copy_confined_iff :
    (∀ a ∈ (copy L dir s pid uva kva len).accesses, a.Confined L pid) ↔
      (accepted uva kva len → len = 0 ∨ uva + len ≤ vmUserHi ∧
        ∀ a ∈ (copy L dir s pid uva kva len).accesses, a.Mapped L pid) := by
  unfold copy
  by_cases admitted : accepted uva kva len
  · have low : vmUserLo ≤ uva := admitted.1.1
    have range := @copyLoop_range L dir pid len uva kva len s (Nat.le_refl len)
    have split : (∀ a ∈ (copyLoop L dir pid len s uva kva len).accesses, a.Confined L pid) ↔
        (∀ a ∈ (copyLoop L dir pid len s uva kva len).accesses,
          vmUserLo ≤ a.va ∧ a.va < vmUserHi) ∧
        ∀ a ∈ (copyLoop L dir pid len s uva kva len).accesses, a.Mapped L pid := by
      rw [← forall₂_and]
      exact forall₂_congr fun a member => (copyLoop_shaped a member).confined_iff
    rw [if_pos admitted, split, range]
    by_cases none : len = 0
    · simp [none, copyLoop]
    · simp [none, low, admitted]
  · simp [admitted]

end Copy

/-! ## The same page tables -/

/-- The two states agree on allocation, on all page directories and on all registered page
tables. -/
structure SameTables (L : Layout) (s t : Vm) : Prop where
  mem : t.mem = s.mem
  pdirs : ∀ p k, p < numIds → k < 1024 → getPdirEntry L t.ram p k = getPdirEntry L s.ram p k
  tables : ∀ p k page, UserProc p → UserPde k → tablePage L s.ram p k = some page →
    ∀ j, j < 1024 → t.ram (page * pageSize + j * 4) = s.ram (page * pageSize + j * 4)

section SameTables
variable {L : Layout} {s t : Vm} {pid va : Nat}

theorem Leaves.sameTables {ram : Ram} (leaves : Leaves L s ram) : SameTables L s ⟨s.mem, ram⟩ :=
  ⟨rfl, leaves.pdirs, leaves.tables⟩

theorem SameTables.tablePage (same : SameTables L s t) {p k : Nat} (proc : p < numIds)
    (pde : k < 1024) : Vmm.tablePage L t.ram p k = Vmm.tablePage L s.ram p k := by
  simp only [Vmm.tablePage, same.pdirs p k proc pde]

/-- The entry of a user page is read from the tables. -/
theorem SameTables.entry (same : SameTables L s t) (proc : UserProc pid) (low : vmUserLo ≤ va)
    (high : va < vmUserHi) : getPtblEntryByVa L t.ram pid va = getPtblEntryByVa L s.ram pid va := by
  obtain ⟨-, pde, -, -⟩ := userPage_of_range low high
  have index : pdeOf va < 1024 := pde.lt
  have small : pteOf va < 1024 := Nat.mod_lt _ (by decide)
  have dir := same.pdirs pid (pdeOf va) proc.2 index
  unfold getPtblEntryByVa
  rw [dir]
  split
  · rfl
  · next present =>
    simp only [getPtblEntry, ptblAddr, dir]
    exact same.tables pid (pdeOf va) _ proc pde (tablePage_eq_some present) _ small

end SameTables

end OsAudio.Vmm

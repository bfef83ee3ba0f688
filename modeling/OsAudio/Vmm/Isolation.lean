import OsAudio.Vmm.PageTable

/-!
# Memory isolation

Every page that a user-range page-directory or page-table entry of a process refers to
is referred to by that entry alone, is allocated and has normal permission; the kernel's
part of every page directory and the identity page tables never change.  A *slot* is a
place that can refer to a page: a user-range directory entry or a user-range page of the
address space.  Both kinds of writes (registering a page table, mapping a frame) store a
page that no slot refers to yet, because `palloc` returned it as unallocated.
-/
namespace OsAudio.Vmm
open OsAudio.Lib OsAudio.Pmm
open Function (update update_self update_of_ne)

variable (L : Layout)

/-- The page table registered in a directory entry. -/
def tablePage (ram : Ram) (procIndex pdeIndex : Nat) : Option Nat :=
  let pde := getPdirEntry L ram procIndex pdeIndex
  if pde = 0 then none else some (pde / pageSize)

/-- The frame that the page `vpage` of the virtual address space is mapped to, if its
page-table entry is present. -/
def userFrame (ram : Ram) (procIndex vpage : Nat) : Option Nat :=
  let pte := getPtblEntryByVa L ram procIndex (vpage * pageSize)
  if pte % 2 = pteP then some (pte / pageSize) else none

def UserProc (procIndex : Nat) : Prop := 1 ≤ procIndex ∧ procIndex < numIds
def UserPde (pdeIndex : Nat) : Prop := 256 ≤ pdeIndex ∧ pdeIndex < 960

instance (i : Nat) : Decidable (UserProc i) := inferInstanceAs (Decidable (_ ∧ _))
instance (i : Nat) : Decidable (UserPde i) := inferInstanceAs (Decidable (_ ∧ _))

theorem UserPde.lt {k : Nat} (pde : UserPde k) : k < 1024 := Nat.lt_trans pde.2 (by decide)

theorem userPde_of_page {v : Nat} (page : UserPage v) : UserPde (v / 1024) := by
  simp only [UserPage, UserPde, vmUserLoPi, vmUserHiPi, vmUserLo, vmUserHi, pageSize] at *
  omega

theorem userPage_of_range {va : Nat} (low : vmUserLo ≤ va) (high : va < vmUserHi) :
    UserPage (va / pageSize) ∧ UserPde (pdeOf va) ∧ pdeOf va = va / pageSize / 1024 ∧
      pteOf va = va / pageSize % 1024 := by
  simp only [vmUserLo, vmUserHi] at low high
  simp only [UserPage, UserPde, pdeOf, pteOf, vmUserLoPi, vmUserHiPi, vmUserLo, vmUserHi, pageSize]
  refine ⟨by omega, by omega, by omega, trivial⟩

/-! ## Runs -/

inductive VmOp
  | split (id quota : Nat)
  | allocPage (procIndex vaddr perm : Nat)

def VmOp.Allowed (s : Vm) : VmOp → Prop
  | .split id quota => id < numIds ∧ (containerSplit s.mem id quota).1 < numIds ∧
      (s.mem.container (containerSplit s.mem id quota).1).used = 0
  | .allocPage procIndex vaddr perm => UserProc procIndex ∧ vmUserLo ≤ vaddr ∧ vaddr < vmUserHi ∧
      perm < 4096 ∧ perm % 2 = pteP

def VmOp.run (s : Vm) : VmOp → Vm
  | .split id quota => (allocMemQuota s id quota).2
  | .allocPage procIndex vaddr perm => (Vmm.allocPage L s procIndex vaddr perm).2

/-- The states reached from the one after `pdir_init_kern`. -/
inductive VmReach (rows : List MmapRow) (ram : Ram) : Vm → Prop
  | init : VmReach rows ram (vmInit L rows ram)
  | step {s : Vm} (op : VmOp) (before : VmReach rows ram s) (allowed : op.Allowed s) :
      VmReach rows ram (op.run L s)

/-! ## Slots and what they refer to -/

inductive Slot
  | table (procIndex pdeIndex : Nat)
  | frame (procIndex vpage : Nat)
  deriving DecidableEq

def Slot.User : Slot → Prop
  | .table procIndex pdeIndex => UserProc procIndex ∧ UserPde pdeIndex
  | .frame procIndex vpage => UserProc procIndex ∧ UserPage vpage

def Slot.page (ram : Ram) : Slot → Option Nat
  | .table procIndex pdeIndex => tablePage L ram procIndex pdeIndex
  | .frame procIndex vpage => userFrame L ram procIndex vpage

/-- The frames mapped through the directory entry `pdeIndex` of `procIndex`. -/
def Slot.Through (procIndex pdeIndex : Nat) : Slot → Prop
  | .table _ _ => False
  | .frame q vpage => q = procIndex ∧ vpage / 1024 = pdeIndex

/-- The invariant.  `base` is the memory after initialisation. -/
structure Isolated (base : Ram) (s : Vm) : Prop where
  idptbl : ∀ i j, i < 1024 → j < 1024 → s.ram (idptblAddr L i j) = base (idptblAddr L i j)
  kernelPart : ∀ p k, p < numIds → k < 1024 → (UserProc p → kernelPde k) →
    getPdirEntry L s.ram p k = getPdirEntry L base p k
  normal : ∀ i, atIsNorm s.mem.phys i = 1 → vmUserLoPi ≤ i ∧ i < vmUserHiPi
  owned : ∀ (slot : Slot) (page : Nat), slot.User → slot.page L s.ram = some page →
    atIsNorm s.mem.phys page = 1 ∧ atIsAllocated s.mem.phys page = 1
  distinct : ∀ (a b : Slot) (page : Nat), a.User → b.User → a.page L s.ram = some page →
    b.page L s.ram = some page → a = b

/-! ## Addresses -/

theorem pdeOf_page (vpage : Nat) : pdeOf (vpage * pageSize) = vpage / 1024 := by
  simp only [pdeOf, pageSize]
  omega

theorem pteOf_page (vpage : Nat) : pteOf (vpage * pageSize) = vpage % 1024 := by
  simp only [pteOf, pageSize]
  omega

theorem addr_inj {a b i j : Nat} (same : a * pageSize + i * 4 = b * pageSize + j * 4)
    (left : i < 1024) (right : j < 1024) : a = b ∧ i = j := by
  simp only [pageSize] at same
  omega

variable {L}

/-- A word in a page of the user range is not a directory entry. -/
theorem pdirAddr_ne_user {p k page i : Nat} (proc : p < numIds) (pde : k < 1024)
    (user : vmUserLoPi ≤ page) (index : i < 1024) : pdirAddr L p k ≠ page * pageSize + i * 4 := by
  intro same
  have kernel := L.pdirPool_kernel
  have := (addr_inj same pde index).1
  omega

theorem idptblAddr_ne_user {i j page k : Nat} (pde : i < 1024) (pte : j < 1024)
    (user : vmUserLoPi ≤ page) (index : k < 1024) : idptblAddr L i j ≠ page * pageSize + k * 4 := by
  intro same
  have kernel := L.idptbl_kernel
  have := (addr_inj same pte index).1
  omega

theorem idptblAddr_ne_pdirAddr {i j p k : Nat} (row : i < 1024) (pte : j < 1024)
    (proc : p < numIds) (pde : k < 1024) : idptblAddr L i j ≠ pdirAddr L p k := by
  intro same
  have apart := L.disjoint
  have := (addr_inj same pte pde).1
  omega

theorem pdirAddr_inj {p q j k : Nat} (same : pdirAddr L p j = pdirAddr L q k)
    (left : j < 1024) (right : k < 1024) : p = q ∧ j = k := by
  have := addr_inj same left right
  omega

/-! ## The frame behind a registered table -/

theorem userFrame_none {ram : Ram} {p v : Nat} (empty : tablePage L ram p (v / 1024) = none) :
    userFrame L ram p v = none := by
  have zero : getPdirEntry L ram p (v / 1024) = 0 := by
    by_contra registered
    simp [tablePage, registered] at empty
  simp [userFrame, getPtblEntryByVa, pdeOf_page, zero, pteP]

theorem ptblAddr_of_table {ram : Ram} {p k page : Nat} (registered : tablePage L ram p k = some page) (j : Nat) :
    ptblAddr L ram p k j = page * pageSize + j * 4 ∧ getPdirEntry L ram p k ≠ 0 := by
  unfold tablePage at registered
  dsimp only at registered
  split at registered
  · cases registered
  · next present =>
    obtain rfl := Option.some.inj registered
    exact ⟨rfl, present⟩

theorem tablePage_congr {before after : Ram} {p k : Nat}
    (entry : getPdirEntry L after p k = getPdirEntry L before p k) :
    tablePage L after p k = tablePage L before p k := by
  simp only [tablePage, entry]

theorem userFrame_some {ram : Ram} {p v page : Nat}
    (registered : tablePage L ram p (v / 1024) = some page) :
    userFrame L ram p v =
      if ram (page * pageSize + v % 1024 * 4) % 2 = pteP then
        some (ram (page * pageSize + v % 1024 * 4) / pageSize) else none := by
  obtain ⟨address, present⟩ := ptblAddr_of_table registered (v % 1024)
  simp only [userFrame, getPtblEntryByVa, getPtblEntry, pdeOf_page, pteOf_page, if_neg present, address]

/-- A page of the address space reads only its own directory entry and, behind it, one
word of its own page table. -/
theorem userFrame_congr {before after : Ram} {p v : Nat}
    (entry : getPdirEntry L after p (v / 1024) = getPdirEntry L before p (v / 1024))
    (word : ∀ page, tablePage L before p (v / 1024) = some page →
      after (page * pageSize + v % 1024 * 4) = before (page * pageSize + v % 1024 * 4)) :
    userFrame L after p v = userFrame L before p v := by
  have table := tablePage_congr entry
  rcases registered : tablePage L before p (v / 1024) with _ | page
  · rw [userFrame_none registered, userFrame_none (table.trans registered)]
  · rw [userFrame_some registered, userFrame_some (table.trans registered), word page registered]

/-! ## The two kinds of writes -/

section Writes
variable {s : Vm} {base : Ram} (inv : Isolated L base s)
include inv

theorem Isolated.table_user {p k page : Nat} (proc : UserProc p) (pde : UserPde k)
    (registered : tablePage L s.ram p k = some page) : vmUserLoPi ≤ page ∧ page < vmUserHiPi :=
  inv.normal page (inv.owned (.table p k) page ⟨proc, pde⟩ registered).1

/-- Two pages of the address space with the same page-table page are in the range of the
same directory entry of the same process. -/
theorem Isolated.same_table {p q j k page : Nat} (left : UserProc p ∧ UserPde j)
    (right : UserProc q ∧ UserPde k) (first : tablePage L s.ram p j = some page)
    (second : tablePage L s.ram q k = some page) : p = q ∧ j = k := by
  have same := inv.distinct (.table p j) (.table q k) page left right first second
  simpa using same

/-- Mapping a frame: only the written page of the address space changes. -/
theorem Isolated.setPtblEntry_page {p v frame perm table : Nat} (proc : UserProc p)
    (user : UserPage v) (registered : tablePage L s.ram p (v / 1024) = some table)
    (small : frame < vmUserHiPi) (bits : perm < 4096) (present : perm % 2 = pteP)
    (slot : Slot) (inside : slot.User) :
    slot.page L (setPtblEntry L s.ram p (v / 1024) (v % 1024) frame perm) =
      if slot = .frame p v then some frame else slot.page L s.ram := by
  have pde := userPde_of_page user
  have range := inv.table_user proc pde registered
  obtain ⟨target, -⟩ := ptblAddr_of_table registered (v % 1024)
  have entries : ∀ q k, q < numIds → k < 1024 →
      getPdirEntry L (setPtblEntry L s.ram p (v / 1024) (v % 1024) frame perm) q k =
        getPdirEntry L s.ram q k := by
    intro q k below small
    simp only [getPdirEntry, setPtblEntry, target]
    rw [update_of_ne (pdirAddr_ne_user below small range.1 (by omega))]
  have sameTable : ∀ q k, q < numIds → k < 1024 →
      tablePage L (setPtblEntry L s.ram p (v / 1024) (v % 1024) frame perm) q k =
        tablePage L s.ram q k := fun q k below small => tablePage_congr (entries q k below small)
  cases slot with
  | table q k =>
    obtain ⟨⟨-, below⟩, -, high⟩ := inside
    simp only [Slot.page, reduceCtorEq, if_false]
    exact sameTable q k below (by omega)
  | frame q w =>
    obtain ⟨⟨positive, below⟩, low, high⟩ := inside
    simp only [vmUserLoPi, vmUserHiPi, vmUserLo, vmUserHi, pageSize] at low high small
    simp only [Slot.page, Slot.frame.injEq]
    split
    · next same =>
      obtain ⟨rfl, rfl⟩ := same
      rw [userFrame_some ((sameTable q (w / 1024) below (by omega)).trans registered)]
      have value : setPtblEntry L s.ram q (w / 1024) (w % 1024) frame perm
          (table * pageSize + w % 1024 * 4) = frame * pageSize + perm := by
        rw [setPtblEntry, target, update_self]
        simp only [pageSize]
        omega
      have bit : (frame * pageSize + perm) % 2 = pteP := by
        simp only [pageSize]
        omega
      have index : (frame * pageSize + perm) / pageSize = frame := by
        simp only [pageSize]
        omega
      rw [value, if_pos bit, index]
    · next different =>
      apply userFrame_congr (entries q (w / 1024) below (by omega))
      intro page behind
      simp only [setPtblEntry, target]
      apply update_of_ne
      intro same
      -- The same word means the same table page, and so the same directory entry.
      have word := addr_inj same (by omega) (by omega)
      rw [word.1] at behind
      have place := inv.same_table ⟨⟨positive, below⟩, by simp only [UserPde]; omega⟩ ⟨proc, pde⟩
        behind registered
      exact different ⟨place.1, by omega⟩

end Writes

/-- The clearing loop of `alloc_ptbl`: all words of the page become zero, nothing else
changes. -/
theorem clearPtbl_ram {ram : Ram} {p k page : Nat} (proc : p < numIds) (pde : k < 1024)
    (registered : getPdirEntry L ram p k / pageSize = page) (user : vmUserLoPi ≤ page) :
    (∀ j, j < 1024 →
      upTo 1024 (fun i ram => rmvPtblEntry L ram p k i) ram (page * pageSize + j * 4) = 0) ∧
    (∀ a, (∀ j, j < 1024 → a ≠ page * pageSize + j * 4) →
      upTo 1024 (fun i ram => rmvPtblEntry L ram p k i) ram a = ram a) := by
  refine upTo_invariant
    (fun n (after : Ram) => (∀ j, j < n → after (page * pageSize + j * 4) = 0) ∧
      ∀ a, (∀ j, j < 1024 → a ≠ page * pageSize + j * 4) → after a = ram a)
    ⟨by omega, fun _ _ => rfl⟩ 1024 ?_
  rintro i after below ⟨cleared, kept⟩
  have entry : getPdirEntry L after p k = getPdirEntry L ram p k :=
    kept _ fun j small => pdirAddr_ne_user proc pde user small
  simp only [rmvPtblEntry, ptblAddr, entry, registered]
  refine ⟨?_, ?_⟩
  · intro j small
    by_cases last : j = i
    · rw [last, update_self]
    · rw [update_of_ne, cleared j (by omega)]
      intro same
      have := addr_inj same (by omega) (by omega)
      omega
  · intro a outside
    rw [update_of_ne (outside i below), kept a outside]

/-- The memory after a new page table is registered and cleared. -/
def withTable (L : Layout) (ram : Ram) (p k page : Nat) : Ram :=
  upTo 1024 (fun i ram => rmvPtblEntry L ram p k i) (setPdirEntry L ram p k page)

theorem ptPermPtu_eq : ptPermPtu = 7 := rfl

theorem withTable_entry {ram : Ram} {p k page : Nat} (proc : p < numIds) (pde : k < 1024)
    (low : vmUserLoPi ≤ page) (high : page < vmUserHiPi) :
    getPdirEntry L (withTable L ram p k page) p k = page * pageSize + ptPermPtu ∧
    (∀ j, j < 1024 → withTable L ram p k page (page * pageSize + j * 4) = 0) ∧
    (∀ a, a ≠ pdirAddr L p k → (∀ j, j < 1024 → a ≠ page * pageSize + j * 4) →
      withTable L ram p k page a = ram a) := by
  have entry : getPdirEntry L (setPdirEntry L ram p k page) p k = page * pageSize + ptPermPtu := by
    simp only [vmUserHiPi, vmUserHi, pageSize] at high
    simp only [getPdirEntry, setPdirEntry, update_self, pageSize, ptPermPtu_eq]
    omega
  have registered : getPdirEntry L (setPdirEntry L ram p k page) p k / pageSize = page := by
    rw [entry]
    simp only [pageSize, ptPermPtu_eq]
    omega
  obtain ⟨cleared, kept⟩ := clearPtbl_ram proc pde registered low
  refine ⟨?_, cleared, ?_⟩
  · rw [← entry]
    unfold getPdirEntry withTable
    exact kept _ fun j small => pdirAddr_ne_user proc pde low small
  · intro a notEntry outside
    unfold withTable
    rw [kept a outside]
    exact update_of_ne notEntry _ _

/-- The directories after a new page table is registered. -/
theorem withTable_tables {ram : Ram} {p k page : Nat} (proc : p < numIds) (pde : k < 1024)
    (low : vmUserLoPi ≤ page) (high : page < vmUserHiPi) :
    tablePage L (withTable L ram p k page) p k = some page ∧
    ∀ q j, q < numIds → j < 1024 → ¬ (q = p ∧ j = k) →
      getPdirEntry L (withTable L ram p k page) q j = getPdirEntry L ram q j := by
  obtain ⟨entry, -, kept⟩ := @withTable_entry L ram p k page proc pde low high
  refine ⟨?_, fun q j below index different => ?_⟩
  · simp only [tablePage, entry, pageSize, ptPermPtu_eq]
    rw [if_neg (by omega), Option.some.injEq]
    omega
  · refine kept _ (fun same => different (pdirAddr_inj same index pde)) fun i bound => ?_
    exact pdirAddr_ne_user below index low bound

/-- Registering a page that no table slot refers to: the directory entry now refers to it,
nothing is mapped through that entry and all other slots keep their page. -/
theorem withTable_page {ram : Ram} {p k page : Nat} (proc : UserProc p) (pde : UserPde k)
    (low : vmUserLoPi ≤ page) (high : page < vmUserHiPi)
    (tables : ∀ q j table, UserProc q → UserPde j → tablePage L ram q j = some table →
      vmUserLoPi ≤ table)
    (fresh : ∀ q j, UserProc q → UserPde j → tablePage L ram q j ≠ some page)
    (slot : Slot) (inside : slot.User) :
    (slot = .table p k → slot.page L (withTable L ram p k page) = some page) ∧
    (slot.Through p k → slot.page L (withTable L ram p k page) = none) ∧
    (slot ≠ .table p k → ¬ slot.Through p k →
      slot.page L (withTable L ram p k page) = slot.page L ram) := by
  have small : k < 1024 := pde.lt
  obtain ⟨-, cleared, kept⟩ := @withTable_entry L ram p k page proc.2 small low high
  obtain ⟨own, others⟩ := @withTable_tables L ram p k page proc.2 small low high
  cases slot with
  | table q j =>
    obtain ⟨⟨-, below⟩, user⟩ := inside
    refine ⟨?_, fun through => through.elim, ?_⟩
    · intro same
      simp only [Slot.table.injEq] at same
      simp only [Slot.page, same.1, same.2, own]
    · intro different _
      exact tablePage_congr (others q j below user.lt fun same => different (by rw [same.1, same.2]))
  | frame q v =>
    obtain ⟨user, userPage⟩ := inside
    have range := userPde_of_page userPage
    have index := range.2
    refine ⟨by simp, ?_, ?_⟩
    · rintro ⟨rfl, rfl⟩
      simp only [Slot.page]
      rw [userFrame_some own, cleared _ (by omega)]
      simp [pteP]
    · intro _ elsewhere
      apply userFrame_congr (others q (v / 1024) user.2 (by omega) elsewhere)
      intro table behind
      apply kept
      · exact (pdirAddr_ne_user proc.2 small (tables q _ table user range behind) (by omega)).symm
      · intro j bound same
        have word := addr_inj same (by omega) bound
        rw [word.1] at behind
        exact fresh q (v / 1024) user range behind

/-! ## Steps -/

/-- A page that may be stored into a slot: allocated, of normal permission and not
referred to by any slot. -/
structure Fresh (L : Layout) (s : Vm) (page : Nat) : Prop where
  norm : atIsNorm s.mem.phys page = 1
  allocated : atIsAllocated s.mem.phys page = 1
  unused : ∀ slot : Slot, slot.User → slot.page L s.ram ≠ some page

theorem containerAlloc_page {m after : Mem} {id page : Nat}
    (alloc : containerAlloc m id = (page, after)) :
    (∀ i, atIsNorm after.phys i = atIsNorm m.phys i) ∧
    (∀ i, atIsAllocated m.phys i = 1 → atIsAllocated after.phys i = 1) ∧
    (page ≠ 0 → atIsNorm m.phys page = 1 ∧ atIsAllocated m.phys page = 0 ∧
      atIsAllocated after.phys page = 1) := by
  unfold containerAlloc at alloc
  dsimp only at alloc
  split at alloc
  · cases alloc
    exact ⟨fun _ => rfl, fun _ old => old, fun nonzero => absurd rfl nonzero⟩
  · simp only [Prod.mk.injEq] at alloc
    obtain ⟨rfl, rfl⟩ := alloc
    refine ⟨palloc_norm m.phys, fun _ => palloc_keeps, fun nonzero => ?_⟩
    obtain ⟨first, phys⟩ := palloc_found nonzero
    refine ⟨first.available.1, first.available.2, ?_⟩
    rw [phys]
    exact (atIsAllocated_atSetAllocated ..).trans (if_pos rfl)

section Steps
variable {s : Vm} {base : Ram}

theorem Isolated.alloc (inv : Isolated L base s) {id page : Nat} {mem : Mem}
    (alloc : containerAlloc s.mem id = (page, mem)) :
    Isolated L base ⟨mem, s.ram⟩ ∧ (page ≠ 0 → Fresh L ⟨mem, s.ram⟩ page) := by
  obtain ⟨norm, kept, new⟩ := containerAlloc_page alloc
  refine ⟨⟨inv.idptbl, inv.kernelPart, ?_, ?_, inv.distinct⟩, ?_⟩
  · intro i normal
    exact inv.normal i ((norm i).symm.trans normal)
  · intro slot i user refers
    obtain ⟨normal, allocated⟩ := inv.owned slot i user refers
    exact ⟨(norm i).trans normal, kept i allocated⟩
  · intro nonzero
    obtain ⟨normal, free, allocated⟩ := new nonzero
    refine ⟨(norm page).trans normal, allocated, ?_⟩
    intro slot user refers
    have old := (inv.owned slot page user refers).2
    omega

/-- An allocated page is still fresh after another allocation, which returns another page. -/
theorem Fresh.alloc {page other id : Nat} {mem : Mem} (fresh : Fresh L s page)
    (alloc : containerAlloc s.mem id = (other, mem)) :
    Fresh L ⟨mem, s.ram⟩ page ∧ (other ≠ 0 → other ≠ page) := by
  obtain ⟨norm, kept, new⟩ := containerAlloc_page alloc
  refine ⟨⟨(norm page).trans fresh.norm, kept page fresh.allocated, fresh.unused⟩, ?_⟩
  intro nonzero same
  have free := (new nonzero).2.1
  have taken := fresh.allocated
  rw [same] at free
  omega

/-- Storing a fresh page into one slot, and possibly emptying others, keeps the
invariant if the kernel's entries are left alone. -/
theorem Isolated.store (inv : Isolated L base s) {page : Nat} (fresh : Fresh L s page)
    {ram : Ram} (target : Slot)
    (pages : ∀ (slot : Slot) (other : Nat), slot.User → slot.page L ram = some other →
      slot = target ∧ other = page ∨ slot.page L s.ram = some other)
    (idptbl : ∀ i j, i < 1024 → j < 1024 → ram (idptblAddr L i j) = s.ram (idptblAddr L i j))
    (kernelPart : ∀ p k, p < numIds → k < 1024 → (UserProc p → kernelPde k) →
      getPdirEntry L ram p k = getPdirEntry L s.ram p k) :
    Isolated L base ⟨s.mem, ram⟩ := by
  refine ⟨?_, ?_, inv.normal, ?_, ?_⟩
  · intro i j row column
    exact (idptbl i j row column).trans (inv.idptbl i j row column)
  · intro p k proc pde kernel
    exact (kernelPart p k proc pde kernel).trans (inv.kernelPart p k proc pde kernel)
  · intro slot other user refers
    rcases pages slot other user refers with ⟨-, rfl⟩ | old
    · exact ⟨fresh.norm, fresh.allocated⟩
    · exact inv.owned slot other user old
  · intro a b other userA userB refersA refersB
    rcases pages a other userA refersA with ⟨rfl, rfl⟩ | oldA
    · rcases pages b other userB refersB with ⟨rfl, -⟩ | oldB
      · rfl
      · exact absurd oldB (fresh.unused b userB)
    · rcases pages b other userB refersB with ⟨rfl, rfl⟩ | oldB
      · exact absurd oldA (fresh.unused a userA)
      · exact inv.distinct a b other userA userB oldA oldB

/-- `set_ptbl_entry_by_va` with a fresh page behind a registered table. -/
theorem Isolated.setPtblEntryByVa (inv : Isolated L base s) {p vaddr page perm table : Nat}
    (fresh : Fresh L s page) (proc : UserProc p) (low : vmUserLo ≤ vaddr) (high : vaddr < vmUserHi)
    (bits : perm < 4096) (present : perm % 2 = pteP)
    (registered : tablePage L s.ram p (pdeOf vaddr) = some table) :
    Isolated L base ⟨s.mem, Vmm.setPtblEntryByVa L s.ram p vaddr page perm⟩ := by
  obtain ⟨user, pde, pdeEq, pteEq⟩ := userPage_of_range low high
  have range := inv.table_user proc pde registered
  obtain ⟨target, -⟩ := ptblAddr_of_table registered (pteOf vaddr)
  rw [pdeEq, pteEq] at target
  rw [pdeEq] at registered
  have effect := inv.setPtblEntry_page proc user registered (inv.normal page fresh.norm).2 bits present
  have address : Vmm.setPtblEntryByVa L s.ram p vaddr page perm =
      Vmm.setPtblEntry L s.ram p (vaddr / pageSize / 1024) (vaddr / pageSize % 1024) page perm := by
    simp only [Vmm.setPtblEntryByVa, pdeEq, pteEq]
  rw [address]
  refine inv.store fresh (.frame p (vaddr / pageSize)) ?_ ?_ ?_
  · intro slot other inside refers
    rw [effect slot inside] at refers
    split at refers
    · next same => exact Or.inl ⟨same, (Option.some.inj refers).symm⟩
    · exact Or.inr refers
  · intro i j row column
    rw [setPtblEntry, target, update_of_ne]
    exact idptblAddr_ne_user row column range.1 (by omega)
  · intro q k below index _
    rw [getPdirEntry, setPtblEntry, target, update_of_ne]
    · rfl
    · exact pdirAddr_ne_user below index range.1 (by omega)

theorem Isolated.withTable_slot (inv : Isolated L base s) {p k page : Nat} (fresh : Fresh L s page)
    (proc : UserProc p) (pde : UserPde k) (slot : Slot) (inside : slot.User) :
    (slot = .table p k → slot.page L (Vmm.withTable L s.ram p k page) = some page) ∧
    (slot.Through p k → slot.page L (Vmm.withTable L s.ram p k page) = none) ∧
    (slot ≠ .table p k → ¬ slot.Through p k →
      slot.page L (Vmm.withTable L s.ram p k page) = slot.page L s.ram) :=
  have range := inv.normal page fresh.norm
  withTable_page proc pde range.1 range.2
    (fun _ _ _ user userPde registered => (inv.table_user user userPde registered).1)
    (fun q j user userPde => fresh.unused (.table q j) ⟨user, userPde⟩) slot inside

/-- Registering and clearing a fresh page table in an empty user-range entry. -/
theorem Isolated.withTable (inv : Isolated L base s) {p k page : Nat} (fresh : Fresh L s page)
    (proc : UserProc p) (pde : UserPde k) :
    Isolated L base ⟨s.mem, Vmm.withTable L s.ram p k page⟩ ∧
    (∀ other, Fresh L s other → other ≠ page →
      Fresh L ⟨s.mem, Vmm.withTable L s.ram p k page⟩ other) := by
  have range := inv.normal page fresh.norm
  have index : k < 1024 := pde.lt
  have kept := (@withTable_entry L s.ram p k page proc.2 index range.1 range.2).2.2
  have pages : ∀ (slot : Slot) (other : Nat), slot.User →
      slot.page L (Vmm.withTable L s.ram p k page) = some other →
      slot = .table p k ∧ other = page ∨ slot.page L s.ram = some other := by
    intro slot other user refers
    obtain ⟨own, through, rest⟩ := inv.withTable_slot fresh proc pde slot user
    by_cases target : slot = .table p k
    · rw [own target] at refers
      exact Or.inl ⟨target, (Option.some.inj refers).symm⟩
    · by_cases below : slot.Through p k
      · rw [through below] at refers
        cases refers
      · rw [rest target below] at refers
        exact Or.inr refers
  refine ⟨inv.store fresh (.table p k) pages ?_ ?_, ?_⟩
  · intro i j row column
    apply kept
    · exact idptblAddr_ne_pdirAddr row column proc.2 index
    · intro w small
      exact idptblAddr_ne_user row column range.1 small
  · intro q j below small kernel
    apply kept
    · intro same
      obtain ⟨rfl, rfl⟩ := pdirAddr_inj same small index
      have := kernel proc
      simp only [kernelPde, UserPde] at this pde
      omega
    · intro w bound
      exact pdirAddr_ne_user below small range.1 bound
  · intro other fresher different
    refine ⟨fresher.norm, fresher.allocated, ?_⟩
    intro slot user refers
    rcases pages slot other user refers with ⟨-, same⟩ | old
    · exact different same
    · exact fresher.unused slot user old

theorem tablePage_eq_some {ram : Ram} {p k : Nat} (present : getPdirEntry L ram p k ≠ 0) :
    tablePage L ram p k = some (getPdirEntry L ram p k / pageSize) := by
  simp only [tablePage, if_neg present]

/-- `alloc_ptbl` keeps the invariant, keeps other fresh pages fresh and, when it succeeds,
leaves a registered table behind. -/
theorem Isolated.allocPtbl (inv : Isolated L base s) {p vadr page : Nat} (fresh : Fresh L s page)
    (proc : UserProc p) (pde : UserPde (pdeOf vadr)) :
    Isolated L base (Vmm.allocPtbl L s p vadr).2 ∧
    ((Vmm.allocPtbl L s p vadr).1 ≠ 0 → Fresh L (Vmm.allocPtbl L s p vadr).2 page ∧
      ∃ table, tablePage L (Vmm.allocPtbl L s p vadr).2.ram p (pdeOf vadr) = some table) := by
  unfold Vmm.allocPtbl
  rcases alloc : containerAlloc s.mem p with ⟨pi, mem⟩
  obtain ⟨allocated, new⟩ := inv.alloc alloc
  obtain ⟨kept, different⟩ := fresh.alloc alloc
  dsimp only
  split
  · next nonzero =>
    have range := allocated.normal pi (new nonzero).norm
    have registered := allocated.withTable (new nonzero) proc pde
    have index : pdeOf vadr < 1024 := pde.lt
    have entry := (@withTable_entry L s.ram p _ pi proc.2 index range.1 range.2).1
    have present : getPdirEntry L (Vmm.withTable L s.ram p (pdeOf vadr) pi) p (pdeOf vadr) ≠ 0 := by
      rw [entry, ptPermPtu_eq]
      omega
    exact ⟨registered.1, fun _ => ⟨registered.2 page kept (different nonzero).symm, _,
      tablePage_eq_some present⟩⟩
  · next zero => exact ⟨allocated, fun nonzero => absurd nonzero zero⟩

theorem Isolated.mapPage (inv : Isolated L base s) {p vadr page perm : Nat} (fresh : Fresh L s page)
    (proc : UserProc p) (low : vmUserLo ≤ vadr) (high : vadr < vmUserHi)
    (bits : perm < 4096) (present : perm % 2 = pteP) :
    Isolated L base (Vmm.mapPage L s p vadr page perm).2 := by
  obtain ⟨-, pde, -⟩ := userPage_of_range low high
  unfold Vmm.mapPage
  by_cases registered : getPdirEntryByVa L s.ram p vadr ≠ 0
  · simp only [if_pos registered]
    rw [if_pos (by decide)]
    exact inv.setPtblEntryByVa fresh proc low high bits present (tablePage_eq_some registered)
  · simp only [if_neg registered]
    obtain ⟨after, success⟩ := inv.allocPtbl fresh proc pde
    by_cases failed : (Vmm.allocPtbl L s p vadr).1 = 0
    · simp only [failed, if_true]
      exact after
    · simp only [failed, if_false]
      obtain ⟨still, table, behind⟩ := success failed
      split
      · exact after.setPtblEntryByVa still proc low high bits present behind
      · exact after

theorem Isolated.allocPage (inv : Isolated L base s) {p vaddr perm : Nat}
    (proc : UserProc p) (low : vmUserLo ≤ vaddr) (high : vaddr < vmUserHi)
    (bits : perm < 4096) (present : perm % 2 = pteP) :
    Isolated L base (Vmm.allocPage L s p vaddr perm).2 := by
  unfold Vmm.allocPage
  rcases alloc : containerAlloc s.mem p with ⟨pi, mem⟩
  obtain ⟨allocated, new⟩ := inv.alloc alloc
  dsimp only
  split
  · exact allocated
  · next nonzero => exact allocated.mapPage (new nonzero) proc low high bits present

theorem Isolated.step (inv : Isolated L base s) (op : VmOp) (allowed : op.Allowed s) :
    Isolated L base (op.run L s) := by
  cases op with
  | split id quota => exact ⟨inv.idptbl, inv.kernelPart, inv.normal, inv.owned, inv.distinct⟩
  | allocPage p vaddr perm =>
    obtain ⟨proc, low, high, bits, present⟩ := allowed
    exact inv.allocPage proc low high bits present

end Steps

/-! ## The initial state -/

theorem setPdir_get {ram : Ram} {p q j k value : Nat} (left : j < 1024) (right : k < 1024) :
    getPdirEntry L (update ram (pdirAddr L p j) value) q k =
      if q = p ∧ k = j then value else getPdirEntry L ram q k := by
  unfold getPdirEntry
  split
  · next same => rw [same.1, same.2, update_self]
  · next different =>
    apply update_of_ne
    intro same
    have := pdirAddr_inj same right left
    exact different this

/-- The entry `pdir_init` stores at `pde_index`, for every process. -/
def initialEntry (L : Layout) (k : Nat) : Nat :=
  if kernelPde k then idptblAddr L k 0 + ptPermPtu else ptPermUp

private theorem initRow_entry (ram : Ram) (i q j : Nat) (small : j < 1024) :
    getPdirEntry L (upTo 1024 (fun j ram =>
      if kernelPde j then setPdirEntryIdentity L ram i j else rmvPdirEntry L ram i j) ram) q j =
      if q = i then initialEntry L j else getPdirEntry L ram q j := by
  have loop : ∀ q j, j < 1024 → getPdirEntry L (upTo 1024 (fun j ram =>
      if kernelPde j then setPdirEntryIdentity L ram i j else rmvPdirEntry L ram i j) ram) q j =
      if q = i ∧ j < 1024 then initialEntry L j else getPdirEntry L ram q j := by
    refine upTo_invariant (fun n (after : Ram) => ∀ q j, j < 1024 → getPdirEntry L after q j =
      if q = i ∧ j < n then initialEntry L j else getPdirEntry L ram q j) (by simp) 1024 ?_
    intro n after below ih q j small
    have store : getPdirEntry L
        (if kernelPde n then setPdirEntryIdentity L after i n else rmvPdirEntry L after i n) q j =
        if q = i ∧ j = n then initialEntry L n else getPdirEntry L after q j := by
      unfold initialEntry
      split <;> exact setPdir_get below small
    rw [store, ih q j small]
    grind
  rw [loop q j small]
  simp [small]

theorem pdirInit_entry (ram : Ram) {p k : Nat} (proc : p < numIds) (index : k < 1024) :
    getPdirEntry L (pdirInit L ram) p k = initialEntry L k := by
  have loop : ∀ q j, q < numIds → j < 1024 → getPdirEntry L (pdirInit L ram) q j =
      initialEntry L j := by
    refine upTo_invariant (fun n (after : Ram) => ∀ q j, q < n → j < 1024 →
      getPdirEntry L after q j = initialEntry L j) (by omega) numIds ?_
    intro n after below ih q j small bound
    rw [initRow_entry after n q j bound]
    split
    · rfl
    · exact ih q j (by omega) bound
  exact loop p k proc index

theorem pdirInitKern_entry (ram : Ram) {p k : Nat} (index : k < 1024) :
    getPdirEntry L (pdirInitKern L ram) p k =
      if p = 0 ∧ 256 ≤ k ∧ k < 256 + (960 - 256) then idptblAddr L k 0 + ptPermPtu
      else getPdirEntry L ram p k := by
  refine upTo_invariant (fun n (after : Ram) => getPdirEntry L after p k =
    if p = 0 ∧ 256 ≤ k ∧ k < 256 + n then idptblAddr L k 0 + ptPermPtu
    else getPdirEntry L ram p k) ?_ (960 - 256) ?_
  · rw [if_neg (by omega)]
  · intro n after below ih
    rw [setPdirEntryIdentity, setPdir_get (by omega) index, ih]
    grind

/-- The user-range directory entries after `pdir_init_kern`: empty, except that process 0
has the identity map. -/
theorem vmInit_entry (rows : List MmapRow) (ram : Ram) {p k : Nat} (proc : p < numIds)
    (pde : UserPde k) : getPdirEntry L (vmInit L rows ram).ram p k =
      if p = 0 then idptblAddr L k 0 + ptPermPtu else 0 := by
  simp only [UserPde] at pde
  have index : k < 1024 := by omega
  have user : ¬ kernelPde k := by
    simp only [kernelPde]
    omega
  simp only [vmInit]
  rw [pdirInitKern_entry _ index, pdirInit_entry _ proc index, initialEntry, if_neg user]
  by_cases zero : p = 0
  · rw [if_pos ⟨zero, by omega⟩, if_pos zero]
  · rw [if_neg (fun both => zero both.1), if_neg zero]
    rfl

theorem vmInit_isolated (rows : List MmapRow) (ram : Ram) :
    Isolated L (vmInit L rows ram).ram (vmInit L rows ram) := by
  have empty : ∀ p k, UserProc p → UserPde k →
      tablePage L (vmInit L rows ram).ram p k = none := by
    intro p k proc pde
    have entry := @vmInit_entry L rows ram p k proc.2 pde
    have positive := proc.1
    rw [if_neg (by omega)] at entry
    simp only [tablePage, entry, if_true]
  have nothing : ∀ slot : Slot, slot.User → slot.page L (vmInit L rows ram).ram = none := by
    intro slot user
    cases slot with
    | table p k => exact empty p k user.1 user.2
    | frame p v =>
      apply userFrame_none
      have range := user.2
      simp only [UserPage, vmUserLoPi, vmUserHiPi, vmUserLo, vmUserHi, pageSize] at range
      exact empty p _ user.1 (by simp only [UserPde]; omega)
  refine ⟨fun _ _ _ _ => rfl, fun _ _ _ _ _ => rfl, pmemInit_norm_range rows, ?_, ?_⟩
  · intro slot page user refers
    rw [nothing slot user] at refers
    cases refers
  · intro a b page userA userB refers
    rw [nothing a userA] at refers
    cases refers

theorem VmReach.isolated {rows : List MmapRow} {ram : Ram} {s : Vm} (reach : VmReach L rows ram s) :
    Isolated L (vmInit L rows ram).ram s := by
  induction reach with
  | init => exact vmInit_isolated rows ram
  | step op before allowed ih => exact ih.step op allowed

/-! ## The isolation theorem -/

/-- The table pages of process 0 are those of the identity page table. -/
theorem Isolated.process_zero {rows : List MmapRow} {ram : Ram} {s : Vm}
    (inv : Isolated L (vmInit L rows ram).ram s) {k : Nat} (pde : UserPde k) :
    tablePage L s.ram 0 k = some (L.idptbl + k) := by
  have range := pde
  simp only [UserPde] at range
  have entry : getPdirEntry L s.ram 0 k = idptblAddr L k 0 + ptPermPtu := by
    rw [inv.kernelPart 0 k (by decide) (by omega) (fun user => by have := user.1; omega)]
    rw [vmInit_entry rows ram (by decide) pde, if_pos rfl]
  simp only [tablePage, entry, idptblAddr, ptPermPtu_eq, pageSize]
  rw [if_neg (by omega)]
  congr 1
  omega

/-- In every state reached from initialisation by `container_split` and `alloc_page`:
the identity page tables and the kernel's directory entries are as initialised; the page
tables registered in user-range entries are distinct; the frames mapped in user-range
pages are distinct from one another and from every such page table; and for the
processes other than 0 all these pages are allocated and of normal permission. -/
theorem memory_isolation (L : Layout) (rows : List MmapRow) (ram : Ram) (s : Vm)
    (reach : VmReach L rows ram s) :
    (∀ i j, i < 1024 → j < 1024 →
      s.ram (idptblAddr L i j) = (vmInit L rows ram).ram (idptblAddr L i j)) ∧
    (∀ p k, p < numIds → k < 1024 → kernelPde k →
      getPdirEntry L s.ram p k = getPdirEntry L (vmInit L rows ram).ram p k) ∧
    (∀ p q j k page, p < numIds → q < numIds → UserPde j → UserPde k →
      tablePage L s.ram p j = some page → tablePage L s.ram q k = some page → p = q ∧ j = k) ∧
    (∀ p q v w frame, UserProc p → UserProc q → UserPage v → UserPage w →
      userFrame L s.ram p v = some frame → userFrame L s.ram q w = some frame → p = q ∧ v = w) ∧
    (∀ p q v k frame, UserProc p → q < numIds → UserPage v → UserPde k →
      userFrame L s.ram p v = some frame → tablePage L s.ram q k ≠ some frame) ∧
    (∀ p k page, UserProc p → UserPde k → tablePage L s.ram p k = some page →
      atIsNorm s.mem.phys page = 1 ∧ atIsAllocated s.mem.phys page = 1) ∧
    (∀ p v frame, UserProc p → UserPage v → userFrame L s.ram p v = some frame →
      atIsNorm s.mem.phys frame = 1 ∧ atIsAllocated s.mem.phys frame = 1) := by
  have inv := reach.isolated
  have kernel := L.idptbl_kernel
  -- Tables of process 0 lie in kernel memory, all other pages in the user range.
  have split : ∀ p, p < numIds → p = 0 ∨ UserProc p := by
    intro p below
    simp only [UserProc]
    omega
  have zero : ∀ k page, UserPde k → tablePage L s.ram 0 k = some page →
      page = L.idptbl + k ∧ page < vmUserLoPi := by
    intro k page pde registered
    rw [inv.process_zero pde, Option.some.injEq] at registered
    simp only [UserPde] at pde
    omega
  refine ⟨inv.idptbl, fun p k proc index range => inv.kernelPart p k proc index fun _ => range,
    ?_, ?_, ?_, fun p k page proc pde => inv.owned (.table p k) page ⟨proc, pde⟩,
    fun p v frame proc user => inv.owned (.frame p v) frame ⟨proc, user⟩⟩
  · intro p q j k page procP procQ pdeJ pdeK first second
    rcases split p procP with rfl | userP
    · rcases split q procQ with rfl | userQ
      · have := (zero j page pdeJ first).1
        have := (zero k page pdeK second).1
        omega
      · have := (zero j page pdeJ first).2
        have := (inv.table_user userQ pdeK second).1
        omega
    · rcases split q procQ with rfl | userQ
      · have := (zero k page pdeK second).2
        have := (inv.table_user userP pdeJ first).1
        omega
      · exact inv.same_table ⟨userP, pdeJ⟩ ⟨userQ, pdeK⟩ first second
  · intro p q v w frame procP procQ pageV pageW first second
    have same := inv.distinct (.frame p v) (.frame q w) frame ⟨procP, pageV⟩ ⟨procQ, pageW⟩ first second
    simpa using same
  · intro p q v k frame procP procQ pageV pdeK mapped registered
    rcases split q procQ with rfl | userQ
    · have := (zero k frame pdeK registered).2
      have := inv.normal frame (inv.owned (.frame p v) frame ⟨procP, pageV⟩ mapped).1
      omega
    · have same := inv.distinct (.frame p v) (.table q k) frame ⟨procP, pageV⟩ ⟨userQ, pdeK⟩
        mapped registered
      cases same

/-- Four pages of usable memory at the bottom of the user range. -/
def fourPages : List MmapRow := [⟨vmUserLo, 4 * pageSize, true⟩]

/-- Container 0 gives a quota of two pages to its first child, which then maps the lowest
user page. -/
def firstMapping : Vm :=
  VmOp.run kernelLayout
    (VmOp.run kernelLayout (vmInit kernelLayout fourPages fun _ => 0) (.split 0 2))
    (.allocPage 1 vmUserLo ptPermPtu)

theorem firstMapping_reach : VmReach kernelLayout fourPages (fun _ => 0) firstMapping := by
  unfold firstMapping
  apply VmReach.step
  · apply VmReach.step _ .init
    simp only [VmOp.Allowed, vmInit, containerInit, containerSplit, update_self]
    decide
  · exact ⟨by decide, by decide, by decide, by decide, by decide⟩

theorem memory_isolation_firstMapping :
    VmReach kernelLayout fourPages (fun _ => 0) firstMapping ∧
      ∀ q k frame, q < numIds → UserPde k →
        userFrame kernelLayout firstMapping.ram 1 vmUserLoPi = some frame →
        tablePage kernelLayout firstMapping.ram q k ≠ some frame := by
  refine ⟨firstMapping_reach, ?_⟩
  intro q k frame proc pde mapped
  exact (memory_isolation kernelLayout fourPages _ _ firstMapping_reach).2.2.2.2.1 1 q vmUserLoPi k frame
    (by decide) proc (by decide) pde mapped

/-- Process 0 is the exception to the last clause: its user-range entries register the
identity page tables, which are kernel memory and never allocated. -/
theorem process_zero_unallocated :
    VmReach kernelLayout fourPages (fun _ => 0) (vmInit kernelLayout fourPages fun _ => 0) ∧
    ∃ page, tablePage kernelLayout (vmInit kernelLayout fourPages fun _ => 0).ram 0 256 = some page ∧
      atIsNorm (vmInit kernelLayout fourPages fun _ => 0).mem.phys page ≠ 1 ∧
      atIsAllocated (vmInit kernelLayout fourPages fun _ => 0).mem.phys page ≠ 1 := by
  refine ⟨.init, kernelLayout.idptbl + 256, ?_, ?_, ?_⟩
  · exact (vmInit_isolated fourPages fun _ => 0).process_zero (by decide)
  · intro norm
    exact absurd (pmemInit_norm_range fourPages _ norm).1 (by decide)
  · simp only [vmInit, containerInit]
    rw [pmemInit_free]
    decide

end OsAudio.Vmm

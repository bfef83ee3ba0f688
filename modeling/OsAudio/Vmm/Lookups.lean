import OsAudio.Vmm.FailedAlloc

/-!
# Page tables as finite maps

What a process sees of its page tables is the entry that `get_ptbl_entry_by_va` finds for each
address.  `map_page` and `unmap_page` change this map at one page of one process and nowhere else:
the page tables behind different directory entries are different pages, and a new one is cleared
before it is used.  Which frames the entries name is of no importance here.
-/
namespace OsAudio.Vmm
open OsAudio.Lib OsAudio.Pmm
open Function (update update_self update_of_ne)

/-! ## Runs -/

/-- The states reached from the one after `pdir_init_kern` by mapping and unmapping user pages of
processes other than 0, with any quotas. -/
inductive MapReach (L : Layout) (rows : List MmapRow) (ram : Ram) : Vm → Prop
  | init : MapReach L rows ram (vmInit L rows ram)
  | split {s : Vm} (id quota : Nat) (before : MapReach L rows ram s) :
      MapReach L rows ram (allocMemQuota s id quota).2
  | map {s : Vm} (p va pageIndex perm : Nat) (proc : UserProc p) (low : vmUserLo ≤ va)
      (high : va < vmUserHi) (before : MapReach L rows ram s) :
      MapReach L rows ram (mapPage L s p va pageIndex perm).2
  | unmap {s : Vm} (p va : Nat) (proc : UserProc p) (low : vmUserLo ≤ va) (high : va < vmUserHi)
      (before : MapReach L rows ram s) : MapReach L rows ram (unmapPage L s p va).2
  | alloc {s : Vm} (p va perm : Nat) (proc : UserProc p) (low : vmUserLo ≤ va)
      (high : va < vmUserHi) (before : MapReach L rows ram s) :
      MapReach L rows ram (allocPage L s p va perm).2

/-! ## Where page tables are -/

/-- The kernel's part of every directory, and all of process 0's, refers to the identity page
tables; the page tables of the other processes are distinct, allocated and of normal permission. -/
structure Tables (L : Layout) (s : Vm) : Prop where
  bounds : TableBounds s.mem.phys
  normal : ∀ i, atIsNorm s.mem.phys i = 1 → vmUserLoPi ≤ i ∧ i < vmUserHiPi
  kernel : ∀ p k, p < numIds → k < 1024 → ¬ (UserProc p ∧ UserPde k) →
    getPdirEntry L s.ram p k = idptblAddr L k 0 + ptPermPtu
  owned : ∀ p k page, UserProc p → UserPde k → tablePage L s.ram p k = some page →
    atIsNorm s.mem.phys page = 1 ∧ atIsAllocated s.mem.phys page = 1
  distinct : ∀ p q j k page, UserProc p → UserPde j → UserProc q → UserPde k →
    tablePage L s.ram p j = some page → tablePage L s.ram q k = some page → p = q ∧ j = k

variable {L : Layout} {s : Vm}

/-- The entry of an address is a word of the table behind its directory entry. -/
theorem getPtblEntryByVa_eq (ram : Ram) (p va : Nat) :
    getPtblEntryByVa L ram p va =
      match tablePage L ram p (pdeOf va) with
      | none => 0
      | some table => ram (table * pageSize + pteOf va * 4) := by
  unfold getPtblEntryByVa getPtblEntry ptblAddr tablePage
  dsimp only
  split
  · rfl
  · rfl

theorem pteOf_lt (va : Nat) : pteOf va < 1024 := Nat.mod_lt _ (by decide)

theorem pdeOf_lt {va : Nat} (address : va < 4294967296) : pdeOf va < 1024 := by
  unfold pdeOf
  omega

/-- Addresses of one page have one directory index and one table index, and only those. -/
theorem samePage_iff (va other : Nat) :
    other / pageSize = va / pageSize ↔ pdeOf other = pdeOf va ∧ pteOf other = pteOf va := by
  simp only [pdeOf, pteOf, pageSize]
  omega

section Writes
variable (inv : Tables L s)
include inv

/-- The table behind a user-range entry is in the user range, all others are identity tables. -/
theorem Tables.place {p k table : Nat} (proc : p < numIds) (index : k < 1024)
    (registered : tablePage L s.ram p k = some table) :
    (UserProc p ∧ UserPde k ∧ vmUserLoPi ≤ table) ∨
      (table = L.idptbl + k ∧ table < vmUserLoPi) := by
  by_cases user : UserProc p ∧ UserPde k
  · have norm := (inv.owned p k table user.1 user.2 registered).1
    exact Or.inl ⟨user.1, user.2, (inv.normal table norm).1⟩
  · refine Or.inr ?_
    have entry := inv.kernel p k proc index user
    have identity := L.idptbl_kernel
    simp only [tablePage, entry, idptblAddr, ptPermPtu_eq, pageSize] at registered
    rw [if_neg (by omega), Option.some.injEq] at registered
    omega

/-- A table page that is not the one of `p` and `k` lies elsewhere. -/
theorem Tables.apart {p q j k page table : Nat} (proc : UserProc p) (pde : UserPde k)
    (registered : tablePage L s.ram p k = some page) (other : q < numIds) (index : j < 1024)
    (behind : tablePage L s.ram q j = some table) (different : ¬ (q = p ∧ j = k)) :
    table ≠ page := by
  rintro rfl
  have low := (inv.normal table (inv.owned p k table proc pde registered).1).1
  rcases inv.place other index behind with ⟨otherProc, otherPde, -⟩ | ⟨-, below⟩
  · exact different (inv.distinct q p j k table otherProc otherPde proc pde behind registered)
  · omega

/-- A word stored in the table of `p` and `k`: the directories stay, and one entry changes. -/
theorem Tables.write (value : Nat) {p k j page : Nat} (proc : UserProc p) (pde : UserPde k) (word : j < 1024)
    (registered : tablePage L s.ram p k = some page) :
    Tables L ⟨s.mem, update s.ram (page * pageSize + j * 4) value⟩ ∧
    ∀ q va, q < numIds → va < 4294967296 →
      getPtblEntryByVa L (update s.ram (page * pageSize + j * 4) value) q va =
        if q = p ∧ pdeOf va = k ∧ pteOf va = j then value else getPtblEntryByVa L s.ram q va := by
  have low := (inv.normal page (inv.owned p k page proc pde registered).1).1
  have entries : ∀ q i, q < numIds → i < 1024 →
      getPdirEntry L (update s.ram (page * pageSize + j * 4) value) q i =
        getPdirEntry L s.ram q i := by
    intro q i below index
    exact update_of_ne (pdirAddr_ne_user below index low word) _ _
  have tables : ∀ q i, q < numIds → i < 1024 →
      tablePage L (update s.ram (page * pageSize + j * 4) value) q i =
        tablePage L s.ram q i := fun q i below index => tablePage_congr (entries q i below index)
  have users : ∀ q i, UserProc q → UserPde i →
      tablePage L (update s.ram (page * pageSize + j * 4) value) q i =
        tablePage L s.ram q i := fun q i user range => tables q i user.2 range.lt
  refine ⟨⟨inv.bounds, inv.normal, ?_, ?_, ?_⟩, ?_⟩
  · intro q i below index kernel
    exact (entries q i below index).trans (inv.kernel q i below index kernel)
  · intro q i table user range behind
    exact inv.owned q i table user range ((users q i user range).symm.trans behind)
  · intro q r i l table userQ rangeI userR rangeL first second
    exact inv.distinct q r i l table userQ rangeI userR rangeL
      ((users q i userQ rangeI).symm.trans first) ((users r l userR rangeL).symm.trans second)
  · intro q va below address
    rw [getPtblEntryByVa_eq, getPtblEntryByVa_eq, tables q (pdeOf va) below (pdeOf_lt address)]
    by_cases same : q = p ∧ pdeOf va = k
    · obtain ⟨rfl, rfl⟩ := same
      rw [registered]
      dsimp only
      by_cases here : pteOf va = j
      · rw [if_pos ⟨rfl, rfl, here⟩, here, update_self]
      · rw [if_neg fun all => here all.2.2]
        apply update_of_ne
        intro equal
        exact here (addr_inj equal (pteOf_lt va) word).2
    · rw [if_neg fun all => same ⟨all.1, all.2.1⟩]
      rcases behind : tablePage L s.ram q (pdeOf va) with _ | table
      · rfl
      · apply update_of_ne
        intro equal
        exact inv.apart proc pde registered below (pdeOf_lt address) behind same
          (addr_inj equal (pteOf_lt va) word).1

/-- A page that may become a page table: allocated, of normal permission and not one yet. -/
def Unregistered (L : Layout) (s : Vm) (page : Nat) : Prop :=
  atIsNorm s.mem.phys page = 1 ∧ atIsAllocated s.mem.phys page = 1 ∧
    ∀ q i, UserProc q → UserPde i → tablePage L s.ram q i ≠ some page

/-- A new page table in an empty directory entry: no entry of any address changes. -/
theorem Tables.withTable {p k page : Nat} (proc : UserProc p) (pde : UserPde k)
    (empty : getPdirEntry L s.ram p k = 0) (fresh : Unregistered L s page) :
    Tables L ⟨s.mem, Vmm.withTable L s.ram p k page⟩ ∧
    tablePage L (Vmm.withTable L s.ram p k page) p k = some page ∧
    ∀ q va, q < numIds → va < 4294967296 →
      getPtblEntryByVa L (Vmm.withTable L s.ram p k page) q va = getPtblEntryByVa L s.ram q va := by
  obtain ⟨norm, allocated, unused⟩ := fresh
  obtain ⟨low, high⟩ := inv.normal page norm
  obtain ⟨-, cleared, kept⟩ := @withTable_entry L s.ram p k page proc.2 pde.lt low high
  obtain ⟨own, others⟩ := @withTable_tables L s.ram p k page proc.2 pde.lt low high
  have tables : ∀ q i, q < numIds → i < 1024 → ¬ (q = p ∧ i = k) →
      tablePage L (Vmm.withTable L s.ram p k page) q i = tablePage L s.ram q i :=
    fun q i below small different => tablePage_congr (others q i below small different)
  have users : ∀ q i table, UserProc q → UserPde i →
      tablePage L (Vmm.withTable L s.ram p k page) q i = some table →
      (q = p ∧ i = k ∧ table = page) ∨ tablePage L s.ram q i = some table := by
    intro q i table user range behind
    by_cases same : q = p ∧ i = k
    · rw [same.1, same.2, own, Option.some.injEq] at behind
      exact Or.inl ⟨same.1, same.2, behind.symm⟩
    · rw [tables q i user.2 range.lt same] at behind
      exact Or.inr behind
  refine ⟨⟨inv.bounds, inv.normal, ?_, ?_, ?_⟩, own, ?_⟩
  · intro q i below small kernel
    have different : ¬ (q = p ∧ i = k) := by
      rintro ⟨rfl, rfl⟩
      exact kernel ⟨proc, pde⟩
    exact (others q i below small different).trans (inv.kernel q i below small kernel)
  · intro q i table user range behind
    rcases users q i table user range behind with ⟨-, -, rfl⟩ | old
    · exact ⟨norm, allocated⟩
    · exact inv.owned q i table user range old
  · intro q r i l table userQ rangeI userR rangeL first second
    rcases users q i table userQ rangeI first with ⟨rfl, rfl, rfl⟩ | oldFirst
    · rcases users r l table userR rangeL second with ⟨rfl, rfl, -⟩ | oldSecond
      · exact ⟨rfl, rfl⟩
      · exact absurd oldSecond (unused r l userR rangeL)
    · rcases users r l table userR rangeL second with ⟨rfl, rfl, rfl⟩ | oldSecond
      · exact absurd oldFirst (unused q i userQ rangeI)
      · exact inv.distinct q r i l table userQ rangeI userR rangeL oldFirst oldSecond
  · intro q va below address
    have small := pdeOf_lt address
    by_cases same : q = p ∧ pdeOf va = k
    · obtain ⟨rfl, rfl⟩ := same
      have nothing : getPtblEntryByVa L s.ram q va = 0 := if_pos empty
      rw [nothing, getPtblEntryByVa_eq, own]
      exact cleared (pteOf va) (pteOf_lt va)
    · rw [getPtblEntryByVa_eq, getPtblEntryByVa_eq, tables q (pdeOf va) below small same]
      rcases behind : tablePage L s.ram q (pdeOf va) with _ | table
      · rfl
      · -- The words of another table are neither the new entry nor in the new page.
        apply kept
        · intro equal
          rcases inv.place below small behind with ⟨user, range, above⟩ | kernel
          · exact pdirAddr_ne_user proc.2 pde.lt above (pteOf_lt va) equal.symm
          · rw [kernel.1] at equal
            exact idptblAddr_ne_pdirAddr small (pteOf_lt va) proc.2 pde.lt equal
        · intro j bound equal
          have page := (addr_inj equal (pteOf_lt va) bound).1
          rcases inv.place below small behind with ⟨user, range, above⟩ | kernel
          · exact unused q (pdeOf va) user range (page ▸ behind)
          · omega

end Writes

/-! ## Steps -/

/-- The entries of all addresses are the same. -/
def SameLookups (L : Layout) (ram after : Ram) : Prop :=
  ∀ q va, q < numIds → va < 4294967296 →
    getPtblEntryByVa L after q va = getPtblEntryByVa L ram q va

/-- The entry of the page at `va` of process `p` becomes `value`, the others are the same. -/
def MapsTo (L : Layout) (ram after : Ram) (p va value : Nat) : Prop :=
  ∀ q other, q < numIds → other < 4294967296 →
    getPtblEntryByVa L after q other =
      if q = p ∧ other / pageSize = va / pageSize then value else getPtblEntryByVa L ram q other

section Steps
variable (inv : Tables L s)
include inv

/-- An allocation for the container layer returns a page that is no page table. -/
theorem Tables.containerAlloc (id : Nat) :
    Tables L ⟨(Pmm.containerAlloc s.mem id).2, s.ram⟩ ∧
    ((Pmm.containerAlloc s.mem id).1 ≠ 0 →
      Unregistered L ⟨(Pmm.containerAlloc s.mem id).2, s.ram⟩ (Pmm.containerAlloc s.mem id).1) := by
  have bounds := inv.bounds.containerAlloc id
  rcases alloc : Pmm.containerAlloc s.mem id with ⟨page, mem⟩
  rw [alloc] at bounds
  obtain ⟨norm, kept, new⟩ := containerAlloc_page alloc
  refine ⟨⟨bounds, ?_, inv.kernel, ?_, inv.distinct⟩, fun nonzero => ?_⟩
  · intro i normal
    exact inv.normal i ((norm i).symm.trans normal)
  · intro p k table proc pde registered
    obtain ⟨normal, taken⟩ := inv.owned p k table proc pde registered
    exact ⟨(norm table).trans normal, kept table taken⟩
  · obtain ⟨normal, free, marked⟩ := new nonzero
    refine ⟨(norm page).trans normal, marked, fun q i user range registered => ?_⟩
    have taken := (inv.owned q i page user range registered).2
    omega

/-- `set_ptbl_entry_by_va` and `rmv_ptbl_entry_by_va`: one store into a registered table. -/
theorem Tables.setWord (value : Nat) {p va : Nat} (proc : UserProc p) (low : vmUserLo ≤ va)
    (high : va < vmUserHi) (registered : getPdirEntry L s.ram p (pdeOf va) ≠ 0) :
    Tables L ⟨s.mem, update s.ram (ptblAddr L s.ram p (pdeOf va) (pteOf va)) value⟩ ∧
    MapsTo L s.ram (update s.ram (ptblAddr L s.ram p (pdeOf va) (pteOf va)) value) p va
      value := by
  obtain ⟨-, pde, -⟩ := userPage_of_range low high
  obtain ⟨kept, entries⟩ := inv.write value proc pde (pteOf_lt va)
    (tablePage_eq_some registered)
  refine ⟨kept, fun q other below address => ?_⟩
  simp only [samePage_iff]
  exact entries q other below address

theorem Tables.mapPage {p va page perm : Nat} (proc : UserProc p) (low : vmUserLo ≤ va)
    (high : va < vmUserHi) :
    Tables L (Vmm.mapPage L s p va page perm).2 ∧
    ((Vmm.mapPage L s p va page perm).1 ≠ magicNumber →
      MapsTo L s.ram (Vmm.mapPage L s p va page perm).2.ram p va
        ((page * pageSize + perm) % 4294967296)) ∧
    ((Vmm.mapPage L s p va page perm).1 = magicNumber →
      SameLookups L s.ram (Vmm.mapPage L s p va page perm).2.ram) := by
  have index := containerAlloc_ne_magic inv.bounds p
  obtain ⟨allocated, fresh⟩ := inv.containerAlloc p
  rcases mapPage_cases s p va page perm index with
    ⟨registered, result⟩ | ⟨missing, none, result⟩ | ⟨missing, found, result⟩
  · obtain ⟨kept, maps⟩ := inv.setWord ((page * pageSize + perm) % 4294967296) proc low high
      registered
    rw [result]
    exact ⟨kept, fun _ => maps, fun failed => absurd failed (Nat.zero_ne_add_one 1048576)⟩
  · rw [result]
    exact ⟨allocated, fun succeeded => absurd rfl succeeded, fun _ _ _ _ _ => rfl⟩
  · obtain ⟨tabled, registered, same⟩ :=
      allocated.withTable proc (userPage_of_range low high).2.1 missing (fresh found)
    have present : getPdirEntry L (Vmm.withTable L s.ram p (pdeOf va) (Pmm.containerAlloc s.mem p).1) p
        (pdeOf va) ≠ 0 := by
      intro empty
      simp only [tablePage, empty, if_true, reduceCtorEq] at registered
    obtain ⟨kept, maps⟩ := tabled.setWord ((page * pageSize + perm) % 4294967296) proc low high
      present
    rw [result]
    refine ⟨kept, fun _ q other below address => ?_, fun failed => absurd failed index⟩
    refine (maps q other below address).trans ?_
    rw [same q other below address]

theorem Tables.unmapPage {p va : Nat} (proc : UserProc p) (low : vmUserLo ≤ va) (high : va < vmUserHi) :
    Tables L (Vmm.unmapPage L s p va).2 ∧
    (Vmm.unmapPage L s p va).1 = getPtblEntryByVa L s.ram p va ∧
    MapsTo L s.ram (Vmm.unmapPage L s p va).2.ram p va 0 := by
  unfold Vmm.unmapPage
  by_cases mapped : getPtblEntryByVa L s.ram p va ≠ 0
  · have registered : getPdirEntry L s.ram p (pdeOf va) ≠ 0 := fun empty => mapped (if_pos empty)
    obtain ⟨kept, maps⟩ := inv.setWord 0 proc low high registered
    simp only [if_pos mapped]
    exact ⟨kept, trivial, maps⟩
  · have nothing : getPtblEntryByVa L s.ram p va = 0 := not_not.mp mapped
    simp only [if_neg mapped]
    refine ⟨inv, trivial, fun q other below address => ?_⟩
    split
    · next same =>
      have entry : getPtblEntryByVa L s.ram p other = getPtblEntryByVa L s.ram p va := by
        obtain ⟨pde, pte⟩ := (samePage_iff va other).mp same.2
        simp only [getPtblEntryByVa, pde, pte]
      rw [same.1, entry, nothing]
    · rfl

theorem Tables.allocPage {p va perm : Nat} (proc : UserProc p) (low : vmUserLo ≤ va)
    (high : va < vmUserHi) : Tables L (Vmm.allocPage L s p va perm).2 := by
  obtain ⟨allocated, -⟩ := inv.containerAlloc p
  rcases allocPage_cases s p va perm with ⟨-, result⟩ | ⟨-, result⟩
  · rw [result]
    exact allocated
  · rw [result]
    exact (allocated.mapPage proc low high).1

end Steps

theorem vmInit_tables (rows : List MmapRow) (ram : Ram) : Tables L (vmInit L rows ram) := by
  have nothing : ∀ p k page, UserProc p → UserPde k →
      tablePage L (vmInit L rows ram).ram p k ≠ some page := by
    intro p k page proc pde
    have entry := @vmInit_entry L rows ram p k proc.2 pde
    rw [if_neg (Nat.ne_of_gt proc.1)] at entry
    simp only [tablePage, entry, if_true, ne_eq, reduceCtorEq, not_false_eq_true]
  refine ⟨pmemInit_bounded rows, pmemInit_norm_range rows, ?_, ?_, ?_⟩
  · intro p k proc index kernel
    by_cases pde : UserPde k
    · have zero : p = 0 := by
        by_contra other
        exact kernel ⟨⟨Nat.one_le_iff_ne_zero.mpr other, proc⟩, pde⟩
      exact (vmInit_entry rows ram proc pde).trans (if_pos zero)
    · have outside : kernelPde k := by
        simp only [UserPde] at pde
        simp only [kernelPde]
        omega
      simp only [vmInit]
      rw [pdirInitKern_entry _ index, pdirInit_entry _ proc index, initialEntry, if_pos outside, ite_self]
  · intro p k page proc pde registered
    exact absurd registered (nothing p k page proc pde)
  · intro p q j k page procP pdeJ procQ pdeK registered
    exact absurd registered (nothing p j page procP pdeJ)

theorem MapReach.tables {rows : List MmapRow} {ram : Ram} (reach : MapReach L rows ram s) :
    Tables L s := by
  induction reach with
  | init => exact vmInit_tables rows ram
  | split id quota before ih => exact ⟨ih.bounds, ih.normal, ih.kernel, ih.owned, ih.distinct⟩
  | map p va page perm proc low high before ih => exact (ih.mapPage proc low high).1
  | unmap p va proc low high before ih => exact (ih.unmapPage proc low high).1
  | alloc p va perm proc low high before ih => exact ih.allocPage proc low high

/-- In every reachable state, for every user address of a process other than 0: a `map_page` that
succeeds sets the entry of all addresses of the page, one that fails changes no entry, and
`unmap_page` returns the entry and clears it; the entries of all other addresses, and of all
addresses of other processes, stay. -/
theorem page_tables_finite_map (L : Layout) (rows : List MmapRow) (ram : Ram) (s : Vm)
    (reach : MapReach L rows ram s) (p va : Nat) (proc : UserProc p) (low : vmUserLo ≤ va)
    (high : va < vmUserHi) :
    (∀ page perm, page < 1048576 → perm < 4096 →
      ((mapPage L s p va page perm).1 ≠ magicNumber →
        MapsTo L s.ram (mapPage L s p va page perm).2.ram p va (page * pageSize + perm)) ∧
      ((mapPage L s p va page perm).1 = magicNumber →
        SameLookups L s.ram (mapPage L s p va page perm).2.ram)) ∧
    (unmapPage L s p va).1 = getPtblEntryByVa L s.ram p va ∧
    MapsTo L s.ram (unmapPage L s p va).2.ram p va 0 := by
  have inv := reach.tables
  refine ⟨fun page perm small bits => ?_, (inv.unmapPage proc low high).2⟩
  have value : (page * pageSize + perm) % 4294967296 = page * pageSize + perm := by
    simp only [pageSize]
    omega
  have maps := (@Tables.mapPage L s inv p va page perm proc low high).2
  rwa [value] at maps

/-- Process 1 maps a page, for which it needs its quota of one page. -/
theorem page_tables_finite_map_first :
    MapReach kernelLayout fourPages (fun _ => 0) onePageQuota ∧
    getPtblEntryByVa kernelLayout (mapPage kernelLayout onePageQuota 1 vmUserLo 300000 ptPermPtu).2.ram 1
      (vmUserLo + 5) = 300000 * pageSize + ptPermPtu := by
  have reach : MapReach kernelLayout fourPages (fun _ => 0) onePageQuota := .split 0 1 .init
  have succeeds : (mapPage kernelLayout onePageQuota 1 vmUserLo 300000 ptPermPtu).1 ≠ magicNumber := by
    intro failed
    have none := ((mapPage_eq_magic reach.tables.bounds 1 vmUserLo 300000 ptPermPtu).mp failed).2
    rcases (supply_eq_zero _ 1).mp none with full | exhausted
    · rw [containerGetUsage, containerGetQuota, onePageQuota_container] at full
      exact absurd full (by decide)
    · have last : onePageQuota.mem.phys.lastPallocIndex = 262144 := by
        change (pmemInit fourPages).lastPallocIndex = _
        rw [pmemInit, setPerms_last]
        rfl
      have nps : onePageQuota.mem.phys.nps = 262149 := by
        change (pmemInit fourPages).nps = _
        rw [pmemInit_nps]
        decide
      have table : (pmemInit fourPages).table 262145 = ⟨2, 0⟩ := by
        rw [pmemInit_table]
        decide
      refine exhausted 262145 (by rw [last]; decide) (by rw [nps]; decide) ⟨?_, ?_⟩
      · rw [atIsNorm_eq_one]
        change 2 ≤ ((pmemInit fourPages).table 262145).perm
        rw [table]
      · exact pmemInit_free fourPages 262145
  obtain ⟨maps, -⟩ := page_tables_finite_map kernelLayout fourPages (fun _ => 0) onePageQuota reach 1
    vmUserLo (by decide) (by decide) (by decide)
  have entry := (maps 300000 ptPermPtu (by decide) (by decide)).1 succeeds 1 (vmUserLo + 5) (by decide)
    (by decide)
  exact ⟨reach, entry.trans (if_pos (by decide))⟩

end OsAudio.Vmm

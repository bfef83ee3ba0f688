import OsAudio.Pmm.Charging
import OsAudio.Vmm.Isolation

/-!
# Failed page allocations

`alloc_page` takes a frame and, if the address has no page table yet, a page for one.  Nothing is
given back when the second allocation fails, and `container_alloc` itself may charge for a page it
does not return.
-/
namespace OsAudio.Vmm
open OsAudio.Lib OsAudio.Pmm

variable (L : Layout)

/-! ## Reachable memory -/

/-- What any calls of the memory functions, and any stores of the running programs, make of memory
after `pdir_init_kern`. -/
inductive VmRuns (rows : List MmapRow) : Vm → Prop
  | init (ram : Ram) : VmRuns rows (vmInit L rows ram)
  | split {s : Vm} (id quota : Nat) (before : VmRuns rows s) :
      VmRuns rows (allocMemQuota s id quota).2
  | free {s : Vm} (id page : Nat) (before : VmRuns rows s) :
      VmRuns rows ⟨containerFree s.mem id page, s.ram⟩
  | map {s : Vm} (procIndex vadr pageIndex perm : Nat) (before : VmRuns rows s) :
      VmRuns rows (mapPage L s procIndex vadr pageIndex perm).2
  | unmap {s : Vm} (procIndex vadr : Nat) (before : VmRuns rows s) :
      VmRuns rows (unmapPage L s procIndex vadr).2
  | alloc {s : Vm} (procIndex vaddr perm : Nat) (before : VmRuns rows s) :
      VmRuns rows (allocPage L s procIndex vaddr perm).2
  | store {s : Vm} (ram : Ram) (before : VmRuns rows s) : VmRuns rows ⟨s.mem, ram⟩

variable {L}

/-- `map_page` either finds a page table, or has to make one and gets no page for it, or makes
one. -/
theorem mapPage_cases (s : Vm) (p va page perm : Nat)
    (index : (containerAlloc s.mem p).1 ≠ magicNumber) :
    (getPdirEntry L s.ram p (pdeOf va) ≠ 0 ∧
      mapPage L s p va page perm = (0, ⟨s.mem, setPtblEntryByVa L s.ram p va page perm⟩)) ∨
    (getPdirEntry L s.ram p (pdeOf va) = 0 ∧ (containerAlloc s.mem p).1 = 0 ∧
      mapPage L s p va page perm = (magicNumber, ⟨(containerAlloc s.mem p).2, s.ram⟩)) ∨
    (getPdirEntry L s.ram p (pdeOf va) = 0 ∧ (containerAlloc s.mem p).1 ≠ 0 ∧
      mapPage L s p va page perm = ((containerAlloc s.mem p).1, ⟨(containerAlloc s.mem p).2,
        setPtblEntryByVa L (withTable L s.ram p (pdeOf va) (containerAlloc s.mem p).1) p va page
          perm⟩)) := by
  unfold mapPage getPdirEntryByVa allocPtbl setPdirEntryByVa withTable
  by_cases registered : getPdirEntry L s.ram p (pdeOf va) = 0
  · right
    generalize containerAlloc s.mem p = taken at *
    by_cases none : taken.1 = 0
    · left
      simp [registered, none]
    · right
      simp [registered, none, index]
  · left
    simp [registered, magicNumber]

/-- `alloc_page` gets a frame and maps it, or fails at once. -/
theorem allocPage_cases (s : Vm) (p va perm : Nat) :
    ((containerAlloc s.mem p).1 = 0 ∧
      allocPage L s p va perm = (magicNumber, ⟨(containerAlloc s.mem p).2, s.ram⟩)) ∨
    ((containerAlloc s.mem p).1 ≠ 0 ∧
      allocPage L s p va perm =
        mapPage L ⟨(containerAlloc s.mem p).2, s.ram⟩ p va (containerAlloc s.mem p).1 perm) := by
  unfold allocPage
  by_cases none : (containerAlloc s.mem p).1 = 0
  · exact Or.inl ⟨none, if_pos none⟩
  · exact Or.inr ⟨none, if_neg none⟩

variable {m : Mem} {s : Vm}

theorem containerAlloc_ne_magic (bounds : TableBounds m.phys) (id : Nat) :
    (containerAlloc m id).1 ≠ magicNumber := by
  rcases containerAlloc_cases m id with ⟨-, result⟩ | ⟨-, result⟩
  · rw [result]
    exact Nat.zero_ne_add_one 1048576
  · rw [result]
    intro magic
    change (palloc m.phys).1 = 1048577 at magic
    have nonzero : (palloc m.phys).1 ≠ 0 := by omega
    have below := (palloc_found nonzero).1.below
    have pages := bounds.pages
    omega

/-- `map_page` uses the container layer at most once. -/
theorem mapPage_mem (s : Vm) (bounds : TableBounds s.mem.phys) (p va page perm : Nat) :
    (mapPage L s p va page perm).2.mem = s.mem ∨
      (mapPage L s p va page perm).2.mem = (containerAlloc s.mem p).2 := by
  rcases mapPage_cases s p va page perm (containerAlloc_ne_magic bounds p) with
    ⟨-, result⟩ | ⟨-, -, result⟩ | ⟨-, -, result⟩
  · rw [result]
    exact Or.inl rfl
  · rw [result]
    exact Or.inr rfl
  · rw [result]
    exact Or.inr rfl

theorem MemReach.mapPage {rows : List MmapRow} {s : Vm} (reach : MemReach rows s.mem)
    (p va page perm : Nat) : MemReach rows (Vmm.mapPage L s p va page perm).2.mem := by
  rcases @mapPage_mem L s reach.bounds p va page perm with same | charged
  · rw [same]
    exact reach
  · rw [charged]
    exact reach.alloc p

theorem VmRuns.mem {rows : List MmapRow} (runs : VmRuns L rows s) : MemReach rows s.mem := by
  induction runs with
  | init ram => exact .init
  | split id quota before ih => exact ih.split id quota
  | free id page before ih => exact ih.free id page
  | map p va page perm before ih => exact MemReach.mapPage ih p va page perm
  | @unmap s p va before ih =>
    unfold unmapPage
    dsimp only
    split
    · exact ih
    · exact ih
  | @alloc s p va perm before ih =>
    have charged := ih.alloc p
    rcases allocPage_cases s p va perm with ⟨-, result⟩ | ⟨-, result⟩
    · rw [result]
      exact charged
    · rw [result]
      exact MemReach.mapPage charged p va _ perm
  | store ram before ih => exact ih

/-! ## When `alloc_page` fails -/

/-- The pages `alloc_page` takes: a frame, and a page table if there is none. -/
def pagesNeeded (L : Layout) (ram : Ram) (p va : Nat) : Nat :=
  if getPdirEntry L ram p (pdeOf va) = 0 then 2 else 1

/-- `map_page` fails exactly if it needs a page table and gets no page for it. -/
theorem mapPage_eq_magic (bounds : TableBounds s.mem.phys) (p va page perm : Nat) :
    (mapPage L s p va page perm).1 = magicNumber ↔
      getPdirEntry L s.ram p (pdeOf va) = 0 ∧ supply s.mem p = 0 := by
  have index := containerAlloc_ne_magic bounds p
  rw [← containerAlloc_eq_zero bounds p]
  rcases mapPage_cases s p va page perm index with
    ⟨registered, result⟩ | ⟨missing, none, result⟩ | ⟨missing, found, result⟩
  · rw [result]
    exact iff_of_false (Nat.zero_ne_add_one 1048576) fun failed => registered failed.1
  · rw [result]
    exact iff_of_true rfl ⟨missing, none⟩
  · rw [result]
    exact iff_of_false index fun failed => found failed.2

/-- `alloc_page` fails exactly if the process cannot get as many pages as it needs. -/
theorem allocPage_eq_magic {s : Vm} (bounds : TableBounds s.mem.phys) (p va perm : Nat) :
    (allocPage L s p va perm).1 = magicNumber ↔ supply s.mem p < pagesNeeded L s.ram p va := by
  have failure := containerAlloc_eq_zero bounds p
  unfold pagesNeeded
  rcases allocPage_cases s p va perm with ⟨none, result⟩ | ⟨found, result⟩
  · have empty := failure.mp none
    rw [result, empty]
    refine iff_of_true rfl ?_
    split <;> omega
  · have rest := supply_containerAlloc bounds found
    rw [result, mapPage_eq_magic (bounds.containerAlloc p)]
    split
    · next missing =>
      rw [and_iff_right missing]
      dsimp only
      omega
    · next registered =>
      refine iff_of_false (fun failed => registered failed.1) ?_
      omega

/-! ## What a failure costs -/

/-- Allocation table, charges and page tables are the same. -/
structure SameMemory (L : Layout) (s t : Vm) : Prop where
  table : ∀ i, t.mem.phys.table i = s.mem.phys.table i
  usage : ∀ id, (t.mem.container id).usage = (s.mem.container id).usage
  pdirs : ∀ p k, getPdirEntry L t.ram p k = getPdirEntry L s.ram p k
  ptbls : ∀ p k j, getPtblEntry L t.ram p k j = getPtblEntry L s.ram p k j

/-- A charged page shows in the account of the process. -/
theorem containerAlloc_charged {id : Nat}
    (room : containerGetUsage m id ≠ containerGetQuota m id) :
    ((containerAlloc m id).2.container id).usage ≠ (m.container id).usage ∧
    (containerAlloc m id).1 = (palloc m.phys).1 ∧
    (containerAlloc m id).2.phys = (palloc m.phys).2 := by
  rcases containerAlloc_cases m id with ⟨full, -⟩ | ⟨-, result⟩
  · exact absurd full room
  · rw [result]
    refine ⟨?_, rfl, rfl⟩
    dsimp only
    rw [Function.update_self]
    exact int32_succ_ne _

/-- The table keeps the mark of an allocated page through another allocation. -/
theorem containerAlloc_keeps {i : Nat} (id : Nat) (taken : atIsAllocated m.phys i = 1) :
    atIsAllocated (containerAlloc m id).2.phys i = 1 := by
  rcases containerAlloc_cases m id with ⟨-, result⟩ | ⟨-, result⟩
  · rw [result]
    exact taken
  · rw [result]
    exact palloc_keeps taken

/-- If there is quota left, a failing `alloc_page` has cost something: either the frame stays
allocated, or the process is charged for it all the same. -/
theorem failed_allocPage_costs (bounds : TableBounds s.mem.phys) {p va perm : Nat}
    (room : containerGetUsage s.mem p ≠ containerGetQuota s.mem p) :
    ¬ SameMemory L s (allocPage L s p va perm).2 := by
  intro same
  obtain ⟨charged, page, phys⟩ := containerAlloc_charged room
  rcases allocPage_cases s p va perm with ⟨-, result⟩ | ⟨found, result⟩
  · rw [result] at same
    exact charged (same.usage p)
  · rw [result] at same
    rw [page] at found
    obtain ⟨first, marked⟩ := palloc_found found
    have taken : atIsAllocated (containerAlloc s.mem p).2.phys (palloc s.mem.phys).1 = 1 := by
      rw [phys, marked]
      exact (atIsAllocated_atSetAllocated ..).trans (if_pos rfl)
    have still : atIsAllocated (mapPage L ⟨(containerAlloc s.mem p).2, s.ram⟩ p va
        (containerAlloc s.mem p).1 perm).2.mem.phys (palloc s.mem.phys).1 = 1 := by
      rcases @mapPage_mem L ⟨(containerAlloc s.mem p).2, s.ram⟩ (bounds.containerAlloc p) p va
        (containerAlloc s.mem p).1 perm with once | twice
      · rw [once]
        exact taken
      · rw [twice]
        exact containerAlloc_keeps p taken
    rw [atIsAllocated_eq_one, same.table] at still
    exact still (atIsAllocated_eq_zero.mp first.available.2)

/-- In every reachable state a failing `alloc_page` leaves the allocation table, all accounts and
all page tables as they were if and only if the quota of the process is used up already, or both its
quota and the pages above `last_palloc_index` suffice for the frame and the page table it needs. -/
theorem failed_allocPage_iff (L : Layout) (rows : List MmapRow) (s : Vm) (runs : VmRuns L rows s)
    (p va perm : Nat) :
    ((allocPage L s p va perm).1 = magicNumber → SameMemory L s (allocPage L s p va perm).2) ↔
      (containerGetUsage s.mem p = containerGetQuota s.mem p ∨
        pagesNeeded L s.ram p va ≤ quotaLeft s.mem p ∧
        pagesNeeded L s.ram p va ≤ (pagesAbove s.mem.phys).card) := by
  have failure := @allocPage_eq_magic L s runs.mem.bounds p va perm
  rw [← Nat.le_min, ← supply, ← Nat.not_lt, ← failure]
  constructor
  · intro free
    by_contra costs
    rw [not_or, not_not] at costs
    exact failed_allocPage_costs runs.mem.bounds costs.1 (free costs.2)
  · rintro (full | success) failed
    · have refused : containerAlloc s.mem p = (0, s.mem) := if_pos full
      simp only [allocPage, refused, if_true]
      exact ⟨fun _ => rfl, fun _ => rfl, fun _ _ => rfl, fun _ _ _ => rfl⟩
    · exact absurd failed success

/-- A process without quota is refused and nothing changes. -/
theorem failed_allocPage_refused :
    VmRuns kernelLayout fourPages (vmInit kernelLayout fourPages fun _ => 0) ∧
    ((allocPage kernelLayout (vmInit kernelLayout fourPages fun _ => 0) 1 vmUserLo ptPermPtu).1 =
      magicNumber →
      SameMemory kernelLayout (vmInit kernelLayout fourPages fun _ => 0)
        (allocPage kernelLayout (vmInit kernelLayout fourPages fun _ => 0) 1 vmUserLo ptPermPtu).2) := by
  have start : VmRuns kernelLayout fourPages (vmInit kernelLayout fourPages fun _ => 0) := .init _
  have full : containerGetUsage (vmInit kernelLayout fourPages fun _ => 0).mem 1 =
      containerGetQuota (vmInit kernelLayout fourPages fun _ => 0).mem 1 := by
    simp only [containerGetUsage, containerGetQuota, vmInit, containerInit,
      Function.update_of_ne one_ne_zero]
    rfl
  exact ⟨start, (failed_allocPage_iff kernelLayout fourPages _ start 1 vmUserLo ptPermPtu).mpr
    (Or.inl full)⟩

/-- Process 1 has a quota of one page. -/
def onePageQuota : Vm := (allocMemQuota (vmInit kernelLayout fourPages fun _ => 0) 0 1).2

theorem onePageQuota_container : onePageQuota.mem.container 1 = ⟨1, 0, 0, 0, 1⟩ := by
  simp only [onePageQuota, allocMemQuota, vmInit, containerInit, containerSplit, Function.update_self]
  decide

/-- The frame uses up the quota, so there is no page for the page table: `alloc_page` fails, and the
frame stays allocated and charged. -/
theorem failed_allocPage_leaks :
    VmRuns kernelLayout fourPages onePageQuota ∧
    (allocPage kernelLayout onePageQuota 1 vmUserLo ptPermPtu).1 = magicNumber ∧
    ¬ SameMemory kernelLayout onePageQuota
      (allocPage kernelLayout onePageQuota 1 vmUserLo ptPermPtu).2 := by
  have runs : VmRuns kernelLayout fourPages onePageQuota := .split 0 1 (.init _)
  have own := onePageQuota_container
  have missing : getPdirEntry kernelLayout onePageQuota.ram 1 (pdeOf vmUserLo) = 0 :=
    (@vmInit_entry kernelLayout fourPages (fun _ => 0) 1 (pdeOf vmUserLo) (by decide)
      (by decide)).trans (if_neg (by decide))
  have left : quotaLeft onePageQuota.mem 1 = 1 := by
    rw [quotaLeft, containerGetUsage, containerGetQuota, own]
    rfl
  have room : containerGetUsage onePageQuota.mem 1 ≠ containerGetQuota onePageQuota.mem 1 := by
    rw [containerGetUsage, containerGetQuota, own]
    decide
  refine ⟨runs, (allocPage_eq_magic runs.mem.bounds 1 vmUserLo ptPermPtu).mpr ?_,
    failed_allocPage_costs runs.mem.bounds room⟩
  rw [pagesNeeded, if_pos missing, supply, left]
  omega

end OsAudio.Vmm

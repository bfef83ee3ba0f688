import OsAudio.Pmm.Quota

/-!
# Checking and charging quotas

`container_can_consume` adds in 32 bits, so an amount near `2^32` passes the check before
`container_split`.  `container_alloc` charges the container before it knows whether `palloc` finds a
page, and does not take the charge back when there is none.
-/
namespace OsAudio.Pmm
open OsAudio.Lib
open Function (update update_self update_of_ne)

/-! ## The check -/

def WithinQuota (m : Mem) (id : Nat) : Prop :=
  0 ≤ (m.container id).usage ∧ (m.container id).usage ≤ (m.container id).quota

/-- The check, as a comparison of exact numbers with the sum taken modulo `2^32`. -/
theorem containerCanConsume_eq_one {m : Mem} {id n : Nat} (within : WithinQuota m id)
    (small : (m.container id).quota < 2147483648) :
    containerCanConsume m id n = 1 ↔
      ((m.container id).usage + n) % 4294967296 ≤ (m.container id).quota := by
  obtain ⟨nonneg, limited⟩ := within
  have u32 : (uint32 (m.container id).usage : Int) = (m.container id).usage :=
    uint32_of_range nonneg (by omega)
  have q32 : (uint32 (m.container id).quota : Int) = (m.container id).quota :=
    uint32_of_range (by omega) (by omega)
  unfold containerCanConsume
  split
  · next exceeded =>
    refine iff_of_false Nat.zero_ne_one ?_
    omega
  · next fits =>
    refine iff_of_true rfl ?_
    omega

variable {m : Mem}

/-- A split of an amount that is really left over keeps parent and child within their quotas, even if
the index of the child is the parent's own. -/
theorem containerSplit_within {id n : Nat} (within : WithinQuota m id)
    (small : (m.container id).quota < 2147483648)
    (fits : (m.container id).usage + n ≤ (m.container id).quota) :
    WithinQuota (containerSplit m id n).2 id ∧
      WithinQuota (containerSplit m id n).2 (containerSplit m id n).1 := by
  obtain ⟨nonneg, limited⟩ := within
  have n32 : int32 (n : Int) = n := int32_of_range (by omega) (by omega)
  have u32 : (uint32 (m.container id).usage : Int) = (m.container id).usage :=
    uint32_of_range nonneg (by omega)
  have s32 : int32 ((m.container id).usage + n) = (m.container id).usage + n :=
    int32_of_range (by omega) (by omega)
  unfold containerSplit WithinQuota
  dsimp only
  generalize (id * maxChildren + 1 + uint32 (m.container id).nchildren) % 4294967296 = child
  by_cases same : child = id
  · have z32 : (uint32 0 : Int) + n = n := by
      rw [uint32_of_range (Int.le_refl 0) (by decide), Int.zero_add]
    subst same
    simp only [update_self, z32, n32]
    omega
  · rw [update_self, update_of_ne same, update_self,
      update_of_ne (Ne.symm same)]
    simp only [u32, s32, n32]
    omega

/-- The check admits exactly the amounts that are left, and what it admits can be split off, if and
only if usage and amount do not reach `2^32` together. -/
theorem canConsume_exact_iff (m : Mem) (id n : Nat) (within : WithinQuota m id)
    (small : (m.container id).quota < 2147483648) (amount : n < 4294967296) :
    ((containerCanConsume m id n = 1 ↔ (m.container id).usage + n ≤ (m.container id).quota) ∧
      (containerCanConsume m id n = 1 →
        WithinQuota (containerSplit m id n).2 id ∧
        WithinQuota (containerSplit m id n).2 (containerSplit m id n).1)) ↔
      (m.container id).usage + n < 4294967296 := by
  have check := @containerCanConsume_eq_one m id n within small
  obtain ⟨nonneg, limited⟩ := within
  constructor
  · rintro ⟨exact, -⟩
    by_contra wraps
    have admitted := exact.mp (check.mpr (by omega))
    omega
  · intro room
    have exact : containerCanConsume m id n = 1 ↔
        (m.container id).usage + n ≤ (m.container id).quota := by
      rw [check, Int.emod_eq_of_lt (by omega) room]
    exact ⟨exact, fun admitted => containerSplit_within ⟨nonneg, limited⟩ small (exact.mp admitted)⟩

/-- A container with 10 pages, 4 of them in use. -/
def tenPages : Mem := ⟨bootPhysMem, fun _ => ⟨10, 4, 0, 0, 1⟩⟩

theorem canConsume_exact_tenPages :
    WithinQuota tenPages 0 ∧ (containerCanConsume tenPages 0 6 = 1 ↔ (4 : Int) + 6 ≤ 10) :=
  ⟨⟨by decide, by decide⟩, ((canConsume_exact_iff tenPages 0 6 ⟨by decide, by decide⟩ (by decide)
    (by decide)).mpr (by decide)).1⟩

/-- An amount of `2^32 - 1` passes, and the child starts with a quota below its usage. -/
theorem canConsume_wraps :
    WithinQuota tenPages 0 ∧ containerCanConsume tenPages 0 4294967295 = 1 ∧
    ¬ (tenPages.container 0).usage + 4294967295 ≤ (tenPages.container 0).quota ∧
    ((containerSplit tenPages 0 4294967295).2.container 1).usage = 0 ∧
    ((containerSplit tenPages 0 4294967295).2.container 1).quota = -1 := by
  refine ⟨⟨by decide, by decide⟩, by decide, by decide, by decide, by decide⟩

/-! ## The charge -/

/-- What any calls of the container layer make of memory after initialisation, whatever their
arguments. -/
inductive MemReach (rows : List MmapRow) : Mem → Prop
  | init : MemReach rows (containerInit rows)
  | split {m : Mem} (id quota : Nat) (before : MemReach rows m) :
      MemReach rows (containerSplit m id quota).2
  | alloc {m : Mem} (id : Nat) (before : MemReach rows m) : MemReach rows (containerAlloc m id).2
  | free {m : Mem} (id page : Nat) (before : MemReach rows m) :
      MemReach rows (containerFree m id page)

/-- `container_alloc` leaves everything alone when the quota is used up, and else charges one page
and allocates. -/
theorem containerAlloc_cases (m : Mem) (id : Nat) :
    (containerGetUsage m id = containerGetQuota m id ∧ containerAlloc m id = (0, m)) ∨
    (containerGetUsage m id ≠ containerGetQuota m id ∧
      containerAlloc m id = ((palloc m.phys).1, ⟨(palloc m.phys).2, update m.container id
        { m.container id with usage := int32 (containerGetUsage m id + 1) }⟩)) := by
  by_cases full : containerGetUsage m id = containerGetQuota m id
  · exact Or.inl ⟨full, if_pos full⟩
  · exact Or.inr ⟨full, if_neg full⟩

theorem TableBounds.containerAlloc (bounds : TableBounds m.phys) (id : Nat) :
    TableBounds (Pmm.containerAlloc m id).2.phys := by
  rcases containerAlloc_cases m id with ⟨-, result⟩ | ⟨-, result⟩
  · rw [result]
    exact bounds
  · rw [result]
    exact bounds.palloc

theorem TableBounds.containerFree (bounds : TableBounds m.phys) (id page : Nat) :
    TableBounds (Pmm.containerFree m id page).phys := by
  unfold Pmm.containerFree
  dsimp only
  split
  · split
    · exact bounds.pfree page
    · exact bounds.pfree page
  · exact bounds

theorem MemReach.bounds {rows : List MmapRow} (reach : MemReach rows m) :
    TableBounds m.phys := by
  induction reach with
  | init => exact pmemInit_bounded rows
  | split id quota before ih => exact ih
  | alloc id before ih => exact ih.containerAlloc id
  | free id page before ih => exact ih.containerFree id page

/-- The charge is a real one: the field changes. -/
theorem int32_succ_ne (usage : Int) : int32 (uint32 usage + 1) ≠ usage := by
  unfold int32 uint32
  omega

/-- How often the usage can still be raised before it equals the quota. -/
def quotaLeft (m : Mem) (id : Nat) : Nat :=
  (containerGetQuota m id + 4294967296 - containerGetUsage m id) % 4294967296

/-- The pages `palloc` still comes across. -/
def pagesAbove (m : PhysMem) : Finset Nat :=
  (Finset.range m.nps).filter fun i => m.lastPallocIndex < i ∧ Available m i

/-- The number of pages a container can get, one after the other. -/
def supply (m : Mem) (id : Nat) : Nat := min (quotaLeft m id) (pagesAbove m.phys).card

theorem mem_pagesAbove {m : PhysMem} {i : Nat} :
    i ∈ pagesAbove m ↔ m.lastPallocIndex < i ∧ i < m.nps ∧ Available m i := by
  rw [pagesAbove, Finset.mem_filter, Finset.mem_range]
  exact and_left_comm

theorem quotaLeft_eq_zero (m : Mem) (id : Nat) :
    quotaLeft m id = 0 ↔ containerGetUsage m id = containerGetQuota m id := by
  have usage : containerGetUsage m id < 4294967296 := uint32_lt _
  have quota : containerGetQuota m id < 4294967296 := uint32_lt _
  unfold quotaLeft
  omega

theorem supply_eq_zero (m : Mem) (id : Nat) :
    supply m id = 0 ↔ containerGetUsage m id = containerGetQuota m id ∨
      ∀ i, m.phys.lastPallocIndex < i → i < m.phys.nps → ¬ Available m.phys i := by
  rw [supply, Nat.min_eq_zero_iff, quotaLeft_eq_zero, Finset.card_eq_zero]
  refine or_congr_right (Finset.eq_empty_iff_forall_notMem.trans (forall_congr' fun i => ?_))
  rw [mem_pagesAbove]
  exact ⟨fun none above below available => none ⟨above, below, available⟩,
    fun none found => none found.1 found.2.1 found.2.2⟩

theorem containerAlloc_eq_zero (bounds : TableBounds m.phys) (id : Nat) :
    (containerAlloc m id).1 = 0 ↔ supply m id = 0 := by
  rw [supply_eq_zero]
  rcases containerAlloc_cases m id with ⟨full, result⟩ | ⟨room, result⟩
  · rw [result]
    exact iff_of_true rfl (Or.inl full)
  · rw [result, or_iff_right room]
    exact bounds.palloc_eq_zero

/-- A page that is handed out is the lowest of those above, and the next ones remain. -/
theorem pagesAbove_palloc {m : PhysMem} (bounds : TableBounds m) (found : (palloc m).1 ≠ 0) :
    (palloc m).1 ∈ pagesAbove m ∧ pagesAbove (palloc m).2 = (pagesAbove m).erase (palloc m).1 := by
  obtain ⟨first, after⟩ := palloc_found found
  generalize (palloc m).1 = page at *
  have above := first.start
  rw [bounds.start] at above
  refine ⟨mem_pagesAbove.mpr ⟨above, first.below, first.available⟩, ?_⟩
  ext i
  rw [after, Finset.mem_erase, mem_pagesAbove, mem_pagesAbove]
  have available : i ≠ page → (Available (atSetAllocated m page 1) i ↔ Available m i) := by
    intro other
    unfold Available
    rw [atIsNorm_atSetAllocated, atIsAllocated_atSetAllocated, if_neg other]
  constructor
  · rintro ⟨later, below, free⟩
    have behind : page < i := later
    have other : i ≠ page := Nat.ne_of_gt behind
    exact ⟨other, by omega, below, (available other).mp free⟩
  · rintro ⟨other, later, below, free⟩
    have behind : page < i := by
      by_contra before
      exact first.least i (by rw [bounds.start]; omega) (by omega) free
    exact ⟨behind, below, (available other).mpr free⟩

/-- Each page handed out is one less. -/
theorem supply_containerAlloc (bounds : TableBounds m.phys) {id : Nat}
    (found : (containerAlloc m id).1 ≠ 0) :
    supply (containerAlloc m id).2 id + 1 = supply m id := by
  rcases containerAlloc_cases m id with ⟨-, result⟩ | ⟨room, result⟩
  · rw [result] at found
    exact absurd rfl found
  · rw [result] at found ⊢
    obtain ⟨member, pages⟩ := pagesAbove_palloc bounds found
    have card := Finset.card_erase_add_one member
    have usage : containerGetUsage m id < 4294967296 := uint32_lt _
    have quota : containerGetQuota m id < 4294967296 := uint32_lt _
    have raised : uint32 (int32 ((containerGetUsage m id : Int) + 1)) =
        (containerGetUsage m id + 1) % 4294967296 := by
      unfold uint32 int32
      omega
    have left : (containerGetQuota m id + 4294967296 - (containerGetUsage m id + 1) % 4294967296) %
        4294967296 + 1 =
        (containerGetQuota m id + 4294967296 - containerGetUsage m id) % 4294967296 := by
      omega
    simp only [supply, quotaLeft, containerGetUsage, containerGetQuota, update_self, pages]
    simp only [containerGetUsage, containerGetQuota] at raised left
    rw [raised, ← left, ← card, Nat.add_min_add_right]

/-- In every reachable state a failing `container_alloc` leaves the usage of all containers and the
allocation table as they were if and only if the quota is used up or a page above `last_palloc_index`
is available. -/
theorem failed_containerAlloc_iff (rows : List MmapRow) (m : Mem) (reach : MemReach rows m)
    (id : Nat) :
    ((containerAlloc m id).1 = 0 →
      (∀ j, ((containerAlloc m id).2.container j).usage = (m.container j).usage) ∧
      ∀ i, (containerAlloc m id).2.phys.table i = m.phys.table i) ↔
      (containerGetUsage m id = containerGetQuota m id ∨
        ∃ i, m.phys.lastPallocIndex < i ∧ i < m.phys.nps ∧ Available m.phys i) := by
  have failure := containerAlloc_eq_zero reach.bounds id
  constructor
  · intro free
    by_contra costs
    rw [not_or] at costs
    have none : supply m id = 0 := (supply_eq_zero m id).mpr (Or.inr fun i above below available =>
      costs.2 ⟨i, above, below, available⟩)
    have failed := failure.mpr none
    have same := (free failed).1 id
    rcases containerAlloc_cases m id with ⟨full, -⟩ | ⟨-, result⟩
    · exact costs.1 full
    · rw [result] at same
      dsimp only at same
      rw [update_self] at same
      exact int32_succ_ne _ same
  · intro condition failed
    rcases containerAlloc_cases m id with ⟨-, result⟩ | ⟨room, -⟩
    · rw [result]
      exact ⟨fun _ => rfl, fun _ => rfl⟩
    · obtain ⟨i, above, below, available⟩ := condition.resolve_left room
      have none := ((supply_eq_zero m id).mp (failure.mp failed)).resolve_left room
      exact absurd available (none i above below)

/-- A container without quota is refused free of charge. -/
theorem failed_containerAlloc_unused :
    MemReach onePage (containerInit onePage) ∧ (containerAlloc (containerInit onePage) 1).1 = 0 ∧
    ∀ j, ((containerAlloc (containerInit onePage) 1).2.container j).usage =
      ((containerInit onePage).container j).usage := by
  have full : containerGetUsage (containerInit onePage) 1 = containerGetQuota (containerInit onePage) 1 := by
    simp only [containerGetUsage, containerGetQuota, containerInit, update_of_ne one_ne_zero]
    rfl
  have start : MemReach onePage (containerInit onePage) := .init
  have failed : (containerAlloc (containerInit onePage) 1).1 = 0 :=
    (containerAlloc_eq_zero start.bounds 1).mpr ((supply_eq_zero _ 1).mpr (Or.inl full))
  have free := (failed_containerAlloc_iff onePage (containerInit onePage) start 1).mpr (Or.inl full)
  exact ⟨start, failed, (free failed).1⟩

theorem containerAlloc_charges {m : Mem} {id : Nat} (room : containerGetUsage m id ≠ containerGetQuota m id)
    (unused : (m.container id).usage = 0) (failed : (palloc m.phys).1 = 0) :
    (containerAlloc m id).1 = 0 ∧ ((containerAlloc m id).2.container id).usage = 1 := by
  rcases containerAlloc_cases m id with ⟨full, -⟩ | ⟨-, result⟩
  · exact absurd full room
  · rw [result]
    dsimp only
    rw [update_self, containerGetUsage, unused]
    exact ⟨failed, rfl⟩

/-- The root container of a machine with one usable page pays for a page it does not get. -/
theorem failed_containerAlloc_charged :
    MemReach onePage (containerInit onePage) ∧ (containerAlloc (containerInit onePage) 0).1 = 0 ∧
    ((containerInit onePage).container 0).usage = 0 ∧
    ((containerAlloc (containerInit onePage) 0).2.container 0).usage = 1 := by
  have start : MemReach onePage (containerInit onePage) := .init
  have quota : 1 ≤ ((containerInit onePage).container 0).quota := onePage_quota
  have root := quotaInit_root onePage
  have small : ((containerInit onePage).container 0).quota < 2147483648 :=
    (quotaInit_inv onePage).bounds 0 (by decide)
  have usage : ((containerInit onePage).container 0).usage = 0 := congrArg SContainer.usage root
  have room : containerGetUsage (containerInit onePage) 0 ≠
      containerGetQuota (containerInit onePage) 0 := by
    have q32 : (containerGetQuota (containerInit onePage) 0 : Int) =
        ((containerInit onePage).container 0).quota := uint32_of_range (by omega) (by omega)
    have u32 : (containerGetUsage (containerInit onePage) 0 : Int) = 0 := by
      rw [containerGetUsage, usage]
      rfl
    omega
  have failed : (palloc (containerInit onePage).phys).1 = 0 := onePage_exhausted
  obtain ⟨zero, one⟩ := containerAlloc_charges room usage failed
  exact ⟨start, zero, usage, one⟩

end OsAudio.Pmm

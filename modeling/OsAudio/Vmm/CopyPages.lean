import OsAudio.Vmm.UserMemory

/-!
# Which copies find their pages

A copy to or from user memory needs a page for every page of its range that is missing, and one
for every page table.  It gets them one after the other, so it finds all its pages exactly if the
process can still get that many.
-/
namespace OsAudio.Vmm
open OsAudio.Lib OsAudio.Pmm

/-- The pages of a range of addresses. -/
def rangePages (uva len : Nat) : Finset Nat := (Finset.range len).image fun i => (uva + i) / pageSize

/-- The directory entries of a range of addresses. -/
def rangePdes (uva len : Nat) : Finset Nat := (Finset.range len).image fun i => pdeOf (uva + i)

/-- How many pages are missing in a range, page tables included. -/
def pagesMissing (L : Layout) (ram : Ram) (pid uva len : Nat) : Nat :=
  ((rangePages uva len).filter fun v => userFrame L ram pid v = none).card +
    ((rangePdes uva len).filter fun k => tablePage L ram pid k = none).card

section Pages
variable {L : Layout} {base : Ram} {s : Vm} {pid uva len size : Nat}

/-- The range after its first piece. -/
theorem image_range_split {f : Nat → Nat} (positive : 0 < size) (bound : size ≤ len)
    (same : ∀ i, i < size → f (uva + i) = f uva) :
    (Finset.range len).image (fun i => f (uva + i)) =
      insert (f uva) ((Finset.range (len - size)).image fun i => f (uva + size + i)) := by
  ext v
  simp only [Finset.mem_insert, Finset.mem_image, Finset.mem_range]
  constructor
  · rintro ⟨i, below, rfl⟩
    by_cases first : i < size
    · exact Or.inl (same i first)
    · refine Or.inr ⟨i - size, by omega, congrArg f ?_⟩
      omega
  · rintro (rfl | ⟨i, below, rfl⟩)
    · exact ⟨0, by omega, rfl⟩
    · exact ⟨size + i, by omega, congrArg f (by omega)⟩

theorem rangePages_split (positive : 0 < size) (bound : size ≤ len)
    (inside : uva % pageSize + size ≤ pageSize) :
    rangePages uva len = insert (uva / pageSize) (rangePages (uva + size) (len - size)) := by
  refine @image_range_split uva len size (fun va => va / pageSize) positive bound fun i below => ?_
  unfold pageSize at *
  omega

theorem rangePdes_split (positive : 0 < size) (bound : size ≤ len)
    (inside : uva % pageSize + size ≤ pageSize) :
    rangePdes uva len = insert (pdeOf uva) (rangePdes (uva + size) (len - size)) := by
  refine @image_range_split uva len size pdeOf positive bound fun i below => ?_
  unfold pdeOf pageSize at *
  omega

variable {ram : Ram}

theorem tablePage_eq_none {k : Nat} :
    tablePage L ram pid k = none ↔ getPdirEntry L ram pid k = 0 := by
  unfold tablePage
  dsimp only
  split
  · next empty => simp [empty]
  · next registered => simp [registered]

theorem rangePages_user {v : Nat} (low : vmUserLo ≤ uva) (high : uva + len ≤ vmUserHi)
    (member : v ∈ rangePages uva len) : UserPage v := by
  obtain ⟨i, below, rfl⟩ := Finset.mem_image.mp member
  have := Finset.mem_range.mp below
  exact (userPage_of_range (show vmUserLo ≤ uva + i by omega) (by omega)).1

theorem rangePdes_user {k : Nat} (low : vmUserLo ≤ uva) (high : uva + len ≤ vmUserHi)
    (member : k ∈ rangePdes uva len) : UserPde k := by
  obtain ⟨i, below, rfl⟩ := Finset.mem_image.mp member
  have := Finset.mem_range.mp below
  exact (userPage_of_range (show vmUserLo ≤ uva + i by omega) (by omega)).2.1

/-- Memories with the same tables miss the same pages. -/
theorem Leaves.pagesMissing (leaves : Leaves L s ram) (proc : UserProc pid)
    (low : vmUserLo ≤ uva) (high : uva + len ≤ vmUserHi) :
    Vmm.pagesMissing L ram pid uva len = Vmm.pagesMissing L s.ram pid uva len := by
  unfold Vmm.pagesMissing
  congr 2
  · refine Finset.filter_congr fun v member => ?_
    rw [leaves.userFrame proc (rangePages_user low high member)]
  · refine Finset.filter_congr fun k member => ?_
    have := (rangePdes_user low high member).2
    rw [leaves.sameTables.tablePage proc.2 (by omega)]

theorem userFrame_registered {frame : Nat} (user : UserAddr uva)
    (present : userFrame L ram pid (uva / pageSize) = some frame) :
    tablePage L ram pid (pdeOf uva) ≠ none := by
  intro empty
  rw [(userPage_of_range user.1 user.2).2.2.1] at empty
  exact absurd ((userFrame_none empty).symm.trans present) nofun

/-- A first page that is there costs nothing. -/
theorem pagesMissing_present {ram : Ram} {frame : Nat} (positive : 0 < size) (bound : size ≤ len)
    (inside : uva % pageSize + size ≤ pageSize) (user : UserAddr uva)
    (present : userFrame L ram pid (uva / pageSize) = some frame) :
    pagesMissing L ram pid uva len = pagesMissing L ram pid (uva + size) (len - size) := by
  unfold pagesMissing
  rw [rangePages_split positive bound inside, rangePdes_split positive bound inside, Finset.filter_insert,
    if_neg (by rw [present]; nofun), Finset.filter_insert, if_neg (userFrame_registered user present)]

/-- The page tables that are missing, before and after `alloc_page`. -/
theorem Remaps.tablesMissing {t : Vm} (remaps : Remaps L pid uva s t) (proc : UserProc pid)
    (registered : tablePage L t.ram pid (pdeOf uva) ≠ none) {pdes : Finset Nat}
    (user : ∀ k ∈ pdes, UserPde k) :
    ((insert (pdeOf uva) pdes).filter fun k => tablePage L s.ram pid k = none).card + 1 =
      (pdes.filter fun k => tablePage L t.ram pid k = none).card + pagesNeeded L s.ram pid uva := by
  have others : ∀ k ∈ pdes, k ≠ pdeOf uva →
      (tablePage L t.ram pid k = none ↔ tablePage L s.ram pid k = none) := by
    intro k member other
    have same := remaps.slots (.table pid k) ⟨proc, user k member⟩ nofun (Or.inr (by simp [other]))
    simp only [Slot.page] at same
    rw [same]
  unfold pagesNeeded
  by_cases empty : getPdirEntry L s.ram pid (pdeOf uva) = 0
  · have lost : ((insert (pdeOf uva) pdes).filter fun k => tablePage L s.ram pid k = none).card =
        (pdes.filter fun k => tablePage L t.ram pid k = none).card + 1 :=
      card_filter_insert_lost (tablePage_eq_none.mpr empty) registered others
    rw [if_pos empty, lost]
  · have before : tablePage L s.ram pid (pdeOf uva) ≠ none := fun none =>
      empty (tablePage_eq_none.mp none)
    have same : (pdes.filter fun k => tablePage L s.ram pid k = none) =
        pdes.filter fun k => tablePage L t.ram pid k = none := by
      refine Finset.filter_congr fun k member => ?_
      by_cases own : k = pdeOf uva
      · rw [own]
        exact iff_of_false before registered
      · exact (others k member own).symm
    rw [if_neg empty, Finset.filter_insert, if_neg before, same]

/-- A first page that is missing costs what `alloc_page` takes for it. -/
theorem Extends.pagesMissing {t : Vm} {frame : Nat} (grown : Extends L pid uva s t)
    (proc : UserProc pid) (positive : 0 < size) (bound : size ≤ len)
    (inside : uva % pageSize + size ≤ pageSize) (low : vmUserLo ≤ uva) (high : uva + len ≤ vmUserHi)
    (missing : userFrame L s.ram pid (uva / pageSize) = none)
    (present : userFrame L t.ram pid (uva / pageSize) = some frame) :
    Vmm.pagesMissing L s.ram pid uva len =
      Vmm.pagesMissing L t.ram pid (uva + size) (len - size) + pagesNeeded L s.ram pid uva := by
  have pages : ((rangePages uva len).filter fun v => userFrame L s.ram pid v = none).card =
      ((rangePages (uva + size) (len - size)).filter fun v =>
        userFrame L t.ram pid v = none).card + 1 := by
    rw [rangePages_split positive bound inside]
    refine card_filter_insert_lost missing (by rw [present]; nofun) fun v member other => ?_
    have user : (Slot.frame pid v).User := ⟨proc, rangePages_user (by omega) (by omega) member⟩
    have same := grown.slots (.frame pid v) user (Or.inr ⟨by simp [other], nofun⟩)
    simp only [Slot.page] at same
    rw [same]
  have tables := grown.remaps.tablesMissing proc
    (userFrame_registered (show UserAddr uva from ⟨low, by omega⟩) present)
    fun k => @rangePdes_user (uva + size) (len - size) k (by omega) (by omega)
  unfold Vmm.pagesMissing
  rw [pages, rangePdes_split positive bound inside]
  omega

/-- A first page that is missing has its price. -/
theorem pagesNeeded_le {ram : Ram} (more : 0 < len)
    (missing : userFrame L ram pid (uva / pageSize) = none) :
    pagesNeeded L ram pid uva ≤ pagesMissing L ram pid uva len := by
  have pages : 0 < ((rangePages uva len).filter fun v => userFrame L ram pid v = none).card :=
    Finset.card_pos.mpr ⟨uva / pageSize, Finset.mem_filter.mpr
      ⟨Finset.mem_image.mpr ⟨0, Finset.mem_range.mpr more, rfl⟩, missing⟩⟩
  unfold pagesNeeded pagesMissing
  split
  · next empty =>
    have tables : 0 < ((rangePdes uva len).filter fun k => tablePage L ram pid k = none).card :=
      Finset.card_pos.mpr ⟨pdeOf uva, Finset.mem_filter.mpr
        ⟨Finset.mem_image.mpr ⟨0, Finset.mem_range.mpr more, rfl⟩, tablePage_eq_none.mpr empty⟩⟩
    omega
  · omega

/-! ## Rounds -/

/-- What `alloc_page` takes, if it succeeds. -/
theorem supply_allocPage (inv : Isolated L base s) (bounds : TableBounds s.mem.phys) {va perm : Nat}
    (success : (allocPage L s pid va perm).1 ≠ magicNumber) :
    supply (allocPage L s pid va perm).2.mem pid + pagesNeeded L s.ram pid va = supply s.mem pid := by
  rcases allocPage_cases s pid va perm with ⟨-, result⟩ | ⟨found, result⟩
  · rw [result] at success
    exact absurd rfl success
  have once := supply_containerAlloc bounds found
  obtain ⟨allocated, -⟩ := inv.alloc (rfl : containerAlloc s.mem pid = (_, _))
  unfold pagesNeeded
  rw [result] at success ⊢
  rcases mapPage_cases ⟨(containerAlloc s.mem pid).2, s.ram⟩ pid va (containerAlloc s.mem pid).1 perm
    (allocated.ne_magic pid) with ⟨registered, mapped⟩ | ⟨-, -, mapped⟩ | ⟨empty, again, mapped⟩
  · rw [mapped, if_neg registered]
    exact once
  · rw [mapped] at success
    exact absurd rfl success
  · have twice := supply_containerAlloc (bounds.containerAlloc pid) again
    rw [mapped, if_pos empty]
    dsimp only at twice ⊢
    omega

theorem bounds_allocPage (bounds : TableBounds s.mem.phys) (va perm : Nat) :
    TableBounds (allocPage L s pid va perm).2.mem.phys := by
  have charged := bounds.containerAlloc pid
  rcases allocPage_cases s pid va perm with ⟨-, result⟩ | ⟨-, result⟩
  · rw [result]
    exact charged
  · rw [result]
    rcases @mapPage_mem L ⟨(containerAlloc s.mem pid).2, s.ram⟩ charged pid va
      (containerAlloc s.mem pid).1 perm with same | again
    · rw [same]
      exact charged
    · rw [again]
      exact charged.containerAlloc pid

theorem VmReach.bounds {rows : List MmapRow} {ram : Ram} (reach : VmReach L rows ram s) : TableBounds s.mem.phys := by
  induction reach with
  | init => exact pmemInit_bounded rows
  | step op _ _ ih =>
    cases op with
    | split id quota => exact ih
    | allocPage p va perm => exact bounds_allocPage ih va perm

theorem bounds_touch (bounds : TableBounds s.mem.phys) (va : Nat) :
    TableBounds (touch L s pid va).2.mem.phys := by
  unfold touch
  split
  · exact bounds_allocPage bounds va _
  · exact bounds

theorem bounds_copyLoop {dir : Direction} {fuel uva kva len : Nat} (bounds : TableBounds s.mem.phys) :
    TableBounds (copyLoop L dir pid fuel s uva kva len).vm.mem.phys := by
  induction fuel generalizing s uva kva len with
  | zero => exact bounds
  | succ fuel ih =>
    by_cases done : len = 0
    · rw [copyLoop, if_pos done]
      exact bounds
    obtain ⟨a, next, -, -, touched, -, -, rest, loop⟩ :=
      @copyLoop_succ L dir pid fuel uva kva len s done
    have still : TableBounds (touch L s pid uva).2.mem.phys := bounds_touch bounds uva
    rw [← touched] at still
    rw [loop, rest]
    exact ih still

/-- What the start of a round does about its page: it is there, or it is allocated at its price,
or it is too expensive and stays away. -/
theorem touch_cases (inv : Isolated L base s) (bounds : TableBounds s.mem.phys)
    (proc : UserProc pid) {va : Nat} (user : UserAddr va) :
    ((∃ frame, userFrame L s.ram pid (va / pageSize) = some frame) ∧ touch L s pid va = (none, s)) ∨
    (userFrame L s.ram pid (va / pageSize) = none ∧
      (∃ frame, userFrame L (touch L s pid va).2.ram pid (va / pageSize) = some frame) ∧
      supply (touch L s pid va).2.mem pid + pagesNeeded L s.ram pid va = supply s.mem pid) ∨
    (userFrame L s.ram pid (va / pageSize) = none ∧
      userFrame L (touch L s pid va).2.ram pid (va / pageSize) = none ∧
      supply s.mem pid < pagesNeeded L s.ram pid va) := by
  by_cases missing : getPtblEntryByVa L s.ram pid va % 2 = 0
  · have absent := (@userFrame_eq_none L pid s.ram va).mpr missing
    have result : touch L s pid va = (some (allocPage L s pid va (pteP ||| pteU ||| pteW)).1,
        (allocPage L s pid va (pteP ||| pteU ||| pteW)).2) := if_pos missing
    have backed := @Isolated.allocPage_present L s base pid va (pteP ||| pteU ||| pteW) inv proc user.1
      user.2 (by decide) (by decide) missing
    have failure := @allocPage_eq_magic L s bounds pid va (pteP ||| pteU ||| pteW)
    rw [result]
    dsimp only
    right
    by_cases success : (allocPage L s pid va (pteP ||| pteU ||| pteW)).1 = magicNumber
    · right
      refine ⟨absent, userFrame_eq_none.mpr ?_, failure.mp success⟩
      have still : ¬ _ % 2 = 1 := (not_congr backed).mp (not_not.mpr success)
      omega
    · left
      refine ⟨absent, Option.ne_none_iff_exists'.mp fun still => ?_, supply_allocPage inv bounds success⟩
      have zero := userFrame_eq_none.mp still
      rw [backed.mp success] at zero
      cases zero
  · left
    refine ⟨Option.ne_none_iff_exists'.mp fun absent => missing (userFrame_eq_none.mp absent), ?_⟩
    exact if_neg missing

/-- A copy inside the user range finds all its pages exactly if the process can get as many as are
missing. -/
theorem copyLoop_mapped_iff {dir : Direction} {fuel uva kva len : Nat} (inv : Isolated L base s)
    (bounds : TableBounds s.mem.phys) (proc : UserProc pid) (enough : len ≤ fuel)
    (low : vmUserLo ≤ uva) (high : uva + len ≤ vmUserHi) (buffer : dir = .copyin → KernelBuffer L kva len) :
    (∀ a ∈ (copyLoop L dir pid fuel s uva kva len).accesses, a.Mapped L pid) ↔
      pagesMissing L s.ram pid uva len ≤ supply s.mem pid := by
  revert bounds
  refine copyLoop_rounds (P := fun s uva _ len c => TableBounds s.mem.phys →
    ((∀ a ∈ c.accesses, a.Mapped L pid) ↔ pagesMissing L s.ram pid uva len ≤ supply s.mem pid)) proc
    (fun _ _ _ _ _ => iff_of_true nofun (Nat.zero_le _)) ?_ inv enough low high buffer
  intro s uva kva len a rest round later bounds
  have positive := round.shaped.positive
  have bound := round.bound
  have low := round.low
  have high := round.high
  have inside := round.start ▸ round.shaped.inside
  have user := round.user
  have grown := round.grown proc
  have still : TableBounds (touch L s pid uva).2.mem.phys := bounds_touch bounds uva
  have cases := touch_cases round.before bounds proc user
  rw [← round.touched] at still cases
  -- What the rest of the range needs, once the piece is copied.
  have further : a.Mapped L pid → ((∀ b ∈ rest.accesses, b.Mapped L pid) ↔
      pagesMissing L a.vm.ram pid (uva + a.size) (len - a.size) ≤ supply a.vm.mem pid) := by
    intro mapped
    rw [later (fun _ => mapped) still,
      (round.leaves proc fun _ => mapped).pagesMissing proc (by omega) (by omega)]
    rfl
  rw [List.forall_mem_cons, and_congr_right further, Access.mapped_iff, round.start]
  rcases cases with ⟨⟨frame, present⟩, same⟩ | ⟨missing, ⟨frame, present⟩, price⟩ |
    ⟨missing, absent, price⟩
  · obtain ⟨-, unchanged⟩ := Prod.mk.inj same
    rw [unchanged, pagesMissing_present positive bound inside user present]
    exact and_iff_right ⟨frame, present⟩
  · dsimp only at present price
    rw [grown.pagesMissing proc positive bound inside low high missing present,
      and_iff_right ⟨frame, present⟩]
    omega
  · have dear := @pagesNeeded_le L pid uva len s.ram (by omega) missing
    refine iff_of_false (fun both => ?_) (by omega)
    dsimp only at absent
    rw [absent] at both
    obtain ⟨⟨frame, present⟩, -⟩ := both
    cases present

/-! ## Confined copies -/

/-- The request is refused, or its range does not wrap around and the process can get the pages that
are missing in it. -/
def CopyFits (L : Layout) (s : Vm) (pid uva kva len : Nat) : Prop :=
  accepted uva kva len → len = 0 ∨ uva + len ≤ vmUserHi ∧
    pagesMissing L s.ram pid uva len ≤ supply s.mem pid

end Pages

/-! ## A small machine -/

/-- Process 1 has a quota of `n` pages; three pages are available. -/
def granted (n : Nat) : Vm := (allocMemQuota (vmInit kernelLayout fourPages fun _ => 0) 0 n).2

theorem granted_mem (n : Nat) : (granted n).mem = (containerSplit (containerInit fourPages) 0 n).2 := rfl

theorem granted_ram (n : Nat) : (granted n).ram = (vmInit kernelLayout fourPages fun _ => 0).ram := rfl

theorem Isolated.split {L : Layout} {base : Ram} {s : Vm} (inv : Isolated L base s) (id quota : Nat) :
    Isolated L base (allocMemQuota s id quota).2 :=
  ⟨inv.idptbl, inv.kernelPart, inv.normal, inv.owned, inv.distinct⟩

theorem granted_isolated (n : Nat) :
    Isolated kernelLayout (vmInit kernelLayout fourPages fun _ => 0).ram (granted n) :=
  (vmInit_isolated fourPages fun _ => 0).split 0 n

theorem granted_bounds (n : Nat) : TableBounds (granted n).mem.phys := by
  rw [granted_mem]
  exact (MemReach.split 0 n (.init : MemReach fourPages _)).bounds

theorem granted_entry (n : Nat) {k : Nat} (pde : UserPde k) :
    getPdirEntry kernelLayout (granted n).ram 1 k = 0 := by
  rw [granted_ram]
  exact (vmInit_entry fourPages _ (by decide) pde).trans (if_neg (by decide))

theorem granted_missing (n : Nat) {uva len : Nat} (low : vmUserLo ≤ uva) (high : uva + len ≤ vmUserHi) :
    pagesMissing kernelLayout (granted n).ram 1 uva len = (rangePages uva len).card + (rangePdes uva len).card := by
  have empty : ∀ k, UserPde k → tablePage kernelLayout (granted n).ram 1 k = none :=
    fun k pde => tablePage_eq_none.mpr (granted_entry n pde)
  have pdes : ∀ v ∈ rangePages uva len, UserPde (v / 1024) := by
    intro v member
    have user := rangePages_user low high member
    simp only [UserPage, UserPde, vmUserLoPi, vmUserHiPi, vmUserLo, vmUserHi, pageSize] at *
    omega
  unfold pagesMissing
  rw [Finset.filter_true_of_mem fun k member => empty k (rangePdes_user low high member),
    Finset.filter_true_of_mem fun v member => userFrame_none (empty _ (pdes v member))]

theorem granted_above (n : Nat) : pagesAbove (granted n).mem.phys = {262145, 262146, 262147} := by
  have last : (granted n).mem.phys.lastPallocIndex = 262144 := by
    rw [show (granted n).mem.phys = pmemInit fourPages from rfl, pmemInit, setPerms_last]
    rfl
  have nps : (granted n).mem.phys.nps = 262149 := by
    rw [show (granted n).mem.phys = pmemInit fourPages from rfl, pmemInit, setPerms_nps]
    decide
  ext i
  rw [mem_pagesAbove, last, nps]
  constructor
  · rintro ⟨low, high, norm, -⟩
    have last : i ≠ 262148 := by
      rintro rfl
      have table := pmemInit_table fourPages 262148
      rw [show (granted n).mem.phys = pmemInit fourPages from rfl, atIsNorm_eq_one, table] at norm
      revert norm
      decide
    simp
    omega
  · intro member
    have range : 262144 < i ∧ i < 262148 := by
      simp at member
      omega
    refine ⟨range.1, by omega, ?_, pmemInit_free fourPages i⟩
    have table := pmemInit_table fourPages i
    have count : countPages fourPages = 262149 := by decide
    rw [count, if_pos (by omega)] at table
    rw [show (granted n).mem.phys = pmemInit fourPages from rfl, atIsNorm_eq_one, table]
    obtain rfl | rfl | rfl : i = 262145 ∨ i = 262146 ∨ i = 262147 := by omega
    all_goals decide

theorem granted_quota (n : Nat) : quotaLeft (granted n).mem 1 = n % 4294967296 := by
  have child : (granted n).mem.container 1 = ⟨int32 n, 0, 0, 0, 1⟩ := by
    simp only [granted_mem, containerInit, containerSplit, Function.update_self]
    rfl
  simp only [quotaLeft, containerGetQuota, containerGetUsage, child, uint32, int32]
  omega

theorem granted_supply : supply (granted 2).mem 1 = 2 := by
  rw [supply, granted_quota, granted_above]
  decide

theorem firstMapping_present :
    getPtblEntryByVa kernelLayout firstMapping.ram 1 vmUserLo % 2 = pteP := by
  have step (s : Vm) : VmOp.run kernelLayout s (.allocPage 1 vmUserLo ptPermPtu) =
      (allocPage kernelLayout s 1 vmUserLo ptPermPtu).2 := rfl
  have mapped : firstMapping = (allocPage kernelLayout (granted 2) 1 vmUserLo ptPermPtu).2 := by
    rw [firstMapping, step]
    rfl
  have empty := granted_entry 2 (show UserPde (pdeOf vmUserLo) by decide)
  have missing : getPtblEntryByVa kernelLayout (granted 2).ram 1 vmUserLo % 2 = 0 := by
    rw [getPtblEntryByVa, if_pos empty]
  rw [mapped]
  refine ((granted_isolated 2).allocPage_present (by decide) (by decide) (by decide) (by decide)
    (by decide) missing).mp fun failed => ?_
  rw [allocPage_eq_magic (granted_bounds 2), granted_supply, pagesNeeded, if_pos empty] at failed
  exact absurd failed (by decide)

end OsAudio.Vmm

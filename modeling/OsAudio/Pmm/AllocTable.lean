import Mathlib.Logic.Function.Basic
import Mathlib.Tactic.Common

/-!
# The physical allocation table

`kern/pmm/MATIntro/MATIntro.c` (the table), `kern/pmm/MATInit/MATInit.c` (its
initialisation from the memory map) and `kern/pmm/MATOp/MATOp.c` (the page
allocator).  The spinlock around the table is not represented: every function
here runs as one critical section.
-/
namespace OsAudio.Pmm

def pageSize : Nat := 4096
def vmUserLo : Nat := 0x40000000
def vmUserHi : Nat := 0xF0000000
def vmUserLoPi : Nat := vmUserLo / pageSize
def vmUserHiPi : Nat := vmUserHi / pageSize

/-- A page of the user range. -/
def UserPage (i : Nat) : Prop := vmUserLoPi ≤ i ∧ i < vmUserHiPi

instance (i : Nat) : Decidable (UserPage i) := inferInstanceAs (Decidable (_ ∧ _))

/-- One entry of `AT`: permission 0 is reserved by the BIOS, 1 is kernel only and
anything above is normal; `allocated` is 0 for a free page. -/
structure ATStruct where
  perm : Nat
  allocated : Nat
  deriving DecidableEq, Repr

/-- `NUM_PAGES`, `AT` and the static `last_palloc_index`. -/
structure PhysMem where
  nps : Nat
  table : Nat → ATStruct
  lastPallocIndex : Nat

def getNps (m : PhysMem) : Nat := m.nps

def atIsNorm (m : PhysMem) (pageIndex : Nat) : Nat :=
  let tperm := (m.table pageIndex).perm
  if tperm = 0 then 0 else if tperm = 1 then 0 else 1

def atSetPerm (m : PhysMem) (pageIndex normVal : Nat) : PhysMem :=
  { m with table := Function.update m.table pageIndex ⟨normVal, 0⟩ }

def atIsAllocated (m : PhysMem) (pageIndex : Nat) : Nat :=
  if (m.table pageIndex).allocated = 0 then 0 else 1

def atSetAllocated (m : PhysMem) (pageIndex allocated : Nat) : PhysMem :=
  { m with table := Function.update m.table pageIndex ⟨(m.table pageIndex).perm, allocated⟩ }

/-- The table and its counters before any initialisation: C statics are zero,
`last_palloc_index` starts at 262144. -/
def bootPhysMem : PhysMem := ⟨0, fun _ => ⟨0, 0⟩, 262144⟩

/-! ## Initialisation from the memory map -/

/-- A row of the memory map, as `get_mms`, `get_mml` and `is_usable` report it. -/
structure MmapRow where
  start : Nat
  len : Nat
  usable : Bool
  deriving DecidableEq, Repr

/-- `maxs = (s + l) / PAGESIZE + 1`, the sum taken in 32 bits. -/
def rowTop (row : MmapRow) : Nat := (row.start + row.len) % 4294967296 / pageSize + 1

/-- The first loop of `pmem_init`. -/
def countPages (rows : List MmapRow) : Nat :=
  rows.foldl (fun nps row => if rowTop row > nps then rowTop row else nps) 0

def rowCovers (row : MmapRow) (i : Nat) : Bool :=
  row.start ≤ i * pageSize % 4294967296 &&
    (i + 1) * pageSize % 4294967296 ≤ (row.len + row.start) % 4294967296

/-- The inner loop of `pmem_init`: it stops at the first row that covers the page
and keeps that row's usability. -/
def pagePerm (rows : List MmapRow) (i : Nat) : Nat :=
  if i < vmUserLoPi ∨ vmUserHiPi ≤ i then 1
  else match rows.find? (rowCovers · i) with
    | some row => if row.usable then 2 else 0
    | none => 0

/-- The second loop of `pmem_init`, over the pages below `i`. -/
def setPerms (rows : List MmapRow) (m : PhysMem) : Nat → PhysMem
  | 0 => m
  | i + 1 => atSetPerm (setPerms rows m i) i (pagePerm rows i)

def pmemInit (rows : List MmapRow) : PhysMem :=
  let nps := countPages rows
  setPerms rows { bootPhysMem with nps := nps } nps

/-! ## The page allocator -/

/-- The scan of `palloc`: `index` runs upwards until it reaches `tnps` or a free
page with normal permission is found.  `tnps` stands for "none found". -/
def pallocScan (m : PhysMem) (tnps : Nat) : Nat → Nat → Nat
  | 0, _ => tnps
  | fuel + 1, index =>
    if index < tnps then
      if atIsNorm m index = 1 ∧ atIsAllocated m index = 0 then index
      else pallocScan m tnps fuel (index + 1)
    else tnps

/-- `last_palloc_index + 1`, an unsigned sum. -/
def pallocStart (m : PhysMem) : Nat := (m.lastPallocIndex + 1) % 4294967296

def palloc (m : PhysMem) : Nat × PhysMem :=
  let tnps := getNps m
  let found := pallocScan m tnps tnps (pallocStart m)
  if found = tnps then (0, { m with lastPallocIndex := 0 % tnps })
  else (found, { atSetAllocated m found 1 with lastPallocIndex := found % tnps })

def pfree (m : PhysMem) (pfreeIndex : Nat) : PhysMem := atSetAllocated m pfreeIndex 0

/-! ## What the functions do to the table -/

variable {m : PhysMem} {i : Nat}

theorem atIsNorm_eq_one : atIsNorm m i = 1 ↔ 2 ≤ (m.table i).perm := by
  unfold atIsNorm
  dsimp only
  split
  · omega
  · split <;> omega

theorem atIsAllocated_eq_zero :
    atIsAllocated m i = 0 ↔ (m.table i).allocated = 0 := by
  unfold atIsAllocated
  split <;> simp_all

theorem atIsAllocated_eq_one :
    atIsAllocated m i = 1 ↔ (m.table i).allocated ≠ 0 := by
  unfold atIsAllocated
  split <;> simp_all

theorem atIsNorm_atSetAllocated (m : PhysMem) (i v j : Nat) :
    atIsNorm (atSetAllocated m i v) j = atIsNorm m j := by
  unfold atIsNorm atSetAllocated
  by_cases same : j = i
  · subst same
    simp
  · simp [same]

theorem atIsAllocated_atSetAllocated (m : PhysMem) (i v j : Nat) :
    atIsAllocated (atSetAllocated m i v) j =
      if j = i then (if v = 0 then 0 else 1) else atIsAllocated m j := by
  unfold atIsAllocated atSetAllocated
  by_cases same : j = i
  · subst same
    simp
  · simp [same]

/-- A page that may be handed out. -/
def Available (m : PhysMem) (i : Nat) : Prop := atIsNorm m i = 1 ∧ atIsAllocated m i = 0

instance (m : PhysMem) (i : Nat) : Decidable (Available m i) := inferInstanceAs (Decidable (_ ∧ _))

/-- The page that the scan of `palloc` stops at. -/
structure FirstAvailable (m : PhysMem) (i : Nat) : Prop where
  start : pallocStart m ≤ i
  below : i < m.nps
  available : Available m i
  least : ∀ j, pallocStart m ≤ j → j < i → ¬ Available m j

/-- With enough fuel the scan finds the first available page, or there is none up to `tnps`. -/
theorem pallocScan_cases (m : PhysMem) (tnps : Nat) (fuel index : Nat) (enough : tnps ≤ index + fuel) :
    (pallocScan m tnps fuel index = tnps ∧ ∀ i, index ≤ i → i < tnps → ¬ Available m i) ∨
    (index ≤ pallocScan m tnps fuel index ∧ pallocScan m tnps fuel index < tnps ∧
      Available m (pallocScan m tnps fuel index) ∧
      ∀ i, index ≤ i → i < pallocScan m tnps fuel index → ¬ Available m i) := by
  induction fuel generalizing index with
  | zero => exact Or.inl ⟨rfl, by omega⟩
  | succ fuel ih =>
    unfold pallocScan
    split
    · next below =>
      split
      · next free => exact Or.inr ⟨Nat.le_refl _, below, free, by omega⟩
      · next taken =>
        have here : ∀ i, index ≤ i → index + 1 ≤ i ∨ ¬ Available m i := by
          intro i above
          by_cases same : i = index
          · exact Or.inr (same ▸ taken)
          · exact Or.inl (by omega)
        rcases ih (index + 1) (by omega) with ⟨none, rest⟩ | ⟨later, inside, free, rest⟩
        · refine Or.inl ⟨none, fun i above small => ?_⟩
          exact (here i above).elim (fun next => rest i next small) id
        · refine Or.inr ⟨by omega, inside, free, fun i above small => ?_⟩
          exact (here i above).elim (fun next => rest i next small) id
    · exact Or.inl ⟨rfl, by omega⟩

/-- Either no page from the start of the scan on is available and the table is left alone, or the
first one is marked and returned. -/
theorem palloc_cases (m : PhysMem) :
    (palloc m = (0, { m with lastPallocIndex := 0 }) ∧
      ∀ i, pallocStart m ≤ i → i < m.nps → ¬ Available m i) ∨
    ∃ i, FirstAvailable m i ∧ palloc m = (i, { atSetAllocated m i 1 with lastPallocIndex := i }) := by
  unfold palloc
  dsimp only [getNps]
  rcases pallocScan_cases m m.nps m.nps (pallocStart m) (by omega) with
    ⟨none, rest⟩ | ⟨start, below, free, least⟩
  · refine Or.inl ⟨?_, rest⟩
    rw [if_pos none, Nat.zero_mod]
  · refine Or.inr ⟨_, ⟨start, below, free, least⟩, ?_⟩
    rw [if_neg (by omega), Nat.mod_eq_of_lt below]

theorem palloc_nps (m : PhysMem) : (palloc m).2.nps = m.nps := by
  rcases palloc_cases m with ⟨result, -⟩ | ⟨i, -, result⟩
  · rw [result]
  · rw [result]
    rfl

theorem palloc_norm (m : PhysMem) (i : Nat) : atIsNorm (palloc m).2 i = atIsNorm m i := by
  rcases palloc_cases m with ⟨result, -⟩ | ⟨page, -, result⟩
  · rw [result]
    rfl
  · rw [result]
    exact atIsNorm_atSetAllocated m page 1 i

/-- No page is freed by an allocation. -/
theorem palloc_keeps (taken : atIsAllocated m i = 1) :
    atIsAllocated (palloc m).2 i = 1 := by
  rcases palloc_cases m with ⟨result, -⟩ | ⟨page, -, result⟩
  · rw [result]
    exact taken
  · rw [result]
    refine (atIsAllocated_atSetAllocated m page 1 i).trans ?_
    split
    · rfl
    · exact taken

/-- A page other than 0 is the first available one and is marked allocated. -/
theorem palloc_found (nonzero : (palloc m).1 ≠ 0) :
    FirstAvailable m (palloc m).1 ∧
    (palloc m).2 = { atSetAllocated m (palloc m).1 1 with lastPallocIndex := (palloc m).1 } := by
  rcases palloc_cases m with ⟨result, -⟩ | ⟨i, first, result⟩
  · rw [result] at nonzero
    exact absurd rfl nonzero
  · rw [result]
    exact ⟨first, rfl⟩

section
variable (rows : List MmapRow)
include rows

theorem setPerms_nps (m : PhysMem) (n : Nat) : (setPerms rows m n).nps = m.nps := by
  induction n with
  | zero => rfl
  | succ n ih => simpa [setPerms, atSetPerm] using ih

theorem setPerms_last (m : PhysMem) (n : Nat) :
    (setPerms rows m n).lastPallocIndex = m.lastPallocIndex := by
  induction n with
  | zero => rfl
  | succ n ih => simpa [setPerms, atSetPerm] using ih

theorem setPerms_table (m : PhysMem) (n i : Nat) :
    (setPerms rows m n).table i = if i < n then ⟨pagePerm rows i, 0⟩ else m.table i := by
  induction n with
  | zero => simp [setPerms]
  | succ n ih =>
    simp only [setPerms, atSetPerm]
    by_cases last : i = n
    · subst last
      simp
    · rw [Function.update_of_ne last, ih]
      have : i < n + 1 ↔ i < n := by omega
      simp [this]

theorem pmemInit_table (i : Nat) :
    (pmemInit rows).table i = if i < countPages rows then ⟨pagePerm rows i, 0⟩ else ⟨0, 0⟩ := by
  simp only [pmemInit, setPerms_table, bootPhysMem]

/-- After initialisation no page is allocated, whatever the memory map. -/
theorem pmemInit_free (i : Nat) : atIsAllocated (pmemInit rows) i = 0 := by
  rw [atIsAllocated_eq_zero]
  rw [pmemInit_table]
  split <;> rfl

/-- Only pages of the user range are ever given normal permission. -/
theorem pmemInit_norm_range (i : Nat) (norm : atIsNorm (pmemInit rows) i = 1) :
    vmUserLoPi ≤ i ∧ i < vmUserHiPi := by
  rw [atIsNorm_eq_one] at norm
  rw [pmemInit_table] at norm
  split at norm
  · by_cases kernel : i < vmUserLoPi ∨ vmUserHiPi ≤ i
    · simp [pagePerm, kernel] at norm
    · omega
  · simp at norm

end

end OsAudio.Pmm

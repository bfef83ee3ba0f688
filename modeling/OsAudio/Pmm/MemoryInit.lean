import Mathlib.Data.List.Find
import OsAudio.Dev.MemoryMap
import OsAudio.Lib.Prog
import OsAudio.Pmm.Container
import OsAudio.Pmm.NextFit

/-!
# The allocation table and the memory map

`pmem_init` fills the allocation table from the memory map that `pmmap_init` has built.  A page of
the user range gets the type of the first range that contains it, whatever other ranges say about
it.  The last part follows every access of `pmem_init`, `container_init` and `palloc` to the table,
which has `2^20` entries.
-/
namespace OsAudio.Pmm
open OsAudio.Lib OsAudio.Dev

/-! ## The rows of the memory map -/

/-- What `get_mms`, `get_mml` and `is_usable` report for the indices below `get_size()`. -/
def mmapRows (s : Pmmaps) : List MmapRow :=
  (List.range (getSize s)).map fun idx => ⟨getMms s idx, getMml s idx, isUsable s idx⟩

/-- An entry as a row. -/
def rowOf (slot : Pmmap) : MmapRow :=
  ⟨slot.start, (slot.endAddr + 4294967296 - slot.start) % 4294967296, slot.type = memRam⟩

theorem mmapRows_eq {s : Pmmaps} (map : MemoryMap s) : mmapRows s = s.entries.map rowOf := by
  have length : s.cells.length = s.nentries := by
    rw [map.count]
    exact (List.length_map _).symm
  refine List.ext_getElem ?_ fun idx below _ => ?_
  · simp [mmapRows, getSize, map.count]
  · have inside : idx < s.nentries := by simpa [mmapRows, getSize] using below
    have bound : idx < s.cells.length := length ▸ inside
    have slot : slotAt s idx = some (s.slots s.cells[idx]) := by
      unfold slotAt
      rw [List.getElem?_eq_getElem bound]
      exact if_neg (Nat.ne_of_lt inside)
    simp only [mmapRows, List.getElem_map, List.getElem_range, getMms, getMml, isUsable, slot, Pmmaps.entries]
    rfl

section Row
variable {slot : Pmmap}

/-- The length of a range does not wrap around. -/
theorem rowOf_end (ordered : slot.start ≤ slot.endAddr) (word : slot.endAddr < 4294967296) :
    (rowOf slot).start + (rowOf slot).len = slot.endAddr := by
  change slot.start + (slot.endAddr + 4294967296 - slot.start) % 4294967296 = slot.endAddr
  omega

/-- The page lies entirely inside the range. -/
def Contains (slot : Pmmap) (i : Nat) : Prop := slot.start ≤ i * pageSize ∧ (i + 1) * pageSize ≤ slot.endAddr

instance (slot : Pmmap) (i : Nat) : Decidable (Contains slot i) := inferInstanceAs (Decidable (_ ∧ _))

/-- A byte of the page lies in the range. -/
def Meets (slot : Pmmap) (i : Nat) : Prop :=
  ∃ a, slot.start ≤ a ∧ a < slot.endAddr ∧ i * pageSize ≤ a ∧ a < (i + 1) * pageSize

/-- On pages of the user range the test of `pmem_init` is exact. -/
theorem rowCovers_iff (ordered : slot.start ≤ slot.endAddr) (word : slot.endAddr < 4294967296) {i : Nat}
    (user : UserPage i) : rowCovers (rowOf slot) i = true ↔ Contains slot i := by
  have ends := rowOf_end ordered word
  have top := user.2
  have start : (rowOf slot).start = slot.start := rfl
  unfold rowCovers Contains
  rw [Bool.and_eq_true, decide_eq_true_iff, decide_eq_true_iff, Nat.add_comm (rowOf slot).len, ends, start]
  unfold vmUserHiPi vmUserHi pageSize at *
  omega

end Row

/-! ## Which pages are available -/

/-- The page lies inside a usable range, and no byte of it in a range of another type. -/
def Usable (entries : List Pmmap) (i : Nat) : Prop :=
  (∃ slot ∈ entries, slot.type = memRam ∧ Contains slot i) ∧
    ∀ slot ∈ entries, slot.type ≠ memRam → ¬ Meets slot i

/-- The table says exactly which pages are usable, and no page is allocated. -/
structure TableExact (entries : List Pmmap) (m : PhysMem) : Prop where
  usable : ∀ i, i < m.nps → UserPage i → Usable entries i → (m.table i).perm = 2
  reserved : ∀ i, i < m.nps → UserPage i → ¬ Usable entries i → (m.table i).perm = 0
  kernel : ∀ i, i < m.nps → ¬ UserPage i → (m.table i).perm = 1
  free : ∀ i, (m.table i).allocated = 0

/-- Where a usable range is the first one to contain a page, no range of another type has a byte in
the page. -/
def FirstDecides (entries : List Pmmap) : Prop :=
  ∀ i before slot after, UserPage i → entries = before ++ slot :: after → slot.type = memRam →
    Contains slot i → (∀ earlier ∈ before, ¬ Contains earlier i) →
    ∀ other ∈ entries, other.type ≠ memRam → ¬ Meets other i

theorem contains_meets {slot : Pmmap} {i : Nat} (contains : Contains slot i) : Meets slot i := by
  obtain ⟨low, high⟩ := contains
  unfold pageSize at low high
  refine ⟨i * 4096, low, ?_, Nat.le_refl _, ?_⟩
  · omega
  · unfold pageSize
    omega

section Exact
variable {s : Pmmaps} {i : Nat}

/-- The loop over the ranges never lowers `nps`. -/
theorem le_countFrom (rows : List MmapRow) (nps : Nat) :
    nps ≤ rows.foldl (fun nps row => if rowTop row > nps then rowTop row else nps) nps := by
  induction rows generalizing nps with
  | nil => exact Nat.le_refl nps
  | cons first rest ih =>
    refine Nat.le_trans ?_ (ih _)
    dsimp only
    split <;> omega

/-- Every page of a range is below `nps`. -/
theorem rowTop_le_countPages {rows : List MmapRow} {row : MmapRow} (member : row ∈ rows) :
    rowTop row ≤ countPages rows := by
  obtain ⟨before, after, rfl⟩ := List.append_of_mem member
  unfold countPages
  rw [List.foldl_append, List.foldl_cons]
  refine Nat.le_trans ?_ (le_countFrom after _)
  split <;> omega

/-- The permission of a page in the user range is that of the first range to contain it. -/
theorem perm_eq (map : MemoryMap s) (below : i < countPages (mmapRows s)) (user : UserPage i) :
    ((pmemInit (mmapRows s)).table i).perm = match s.entries.find? (fun slot => Contains slot i) with
      | some slot => if slot.type = memRam then 2 else 0
      | none => 0 := by
  have same : (s.entries.map rowOf).find? (rowCovers · i) =
      (s.entries.find? fun slot => Contains slot i).map rowOf := by
    rw [List.find?_map]
    refine congrArg (Option.map rowOf) (List.find?_congr fun slot member => ?_)
    rw [Function.comp_apply, Bool.eq_iff_iff, decide_eq_true_iff]
    exact rowCovers_iff (map.ordered slot member) (map.word slot member) user
  have inside : ¬ (i < vmUserLoPi ∨ vmUserHiPi ≤ i) := by
    have := user.1
    have := user.2
    omega
  rw [pmemInit_table, if_pos below]
  change pagePerm (mmapRows s) i = _
  unfold pagePerm
  rw [if_neg inside, mmapRows_eq map, same]
  cases s.entries.find? fun slot => Contains slot i with
  | none => rfl
  | some slot => simp [rowOf]

/-- A page that lies in a range is below `nps`. -/
theorem below_nps (map : MemoryMap s) {slot : Pmmap} (member : slot ∈ s.entries)
    (contains : Contains slot i) : i < countPages (mmapRows s) := by
  have row : rowOf slot ∈ mmapRows s := by
    rw [mmapRows_eq map]
    exact List.mem_map_of_mem member
  have top := rowTop_le_countPages row
  have ends := rowOf_end (map.ordered slot member) (map.word slot member)
  have word := map.word slot member
  have high := contains.2
  unfold rowTop at top
  rw [ends] at top
  unfold pageSize at top high
  omega

/-- After `pmem_init` the table says which pages are usable exactly when, for every page, the first
range that contains it is not a usable one while another range reserves a byte of the page. -/
theorem tableExact_iff (map : MemoryMap s) :
    TableExact s.entries (pmemInit (mmapRows s)) ↔ FirstDecides s.entries := by
  constructor
  · intro exact i before slot after user split ram contains earlier other member type meets
    have among : slot ∈ s.entries := by
      rw [split]
      exact List.mem_append_right before List.mem_cons_self
    have below := below_nps map among contains
    have found : s.entries.find? (fun slot => Contains slot i) = some slot := by
      refine List.find?_eq_some_iff_append.mpr ⟨decide_eq_true contains, before, after, split, fun x early => ?_⟩
      simpa using earlier x early
    have two := perm_eq map below user
    rw [found] at two
    have zero := exact.reserved i (by rwa [pmemInit_nps]) user fun usable => usable.2 other member type meets
    rw [zero] at two
    simp [ram] at two
  · intro decides
    refine ⟨fun i below user usable => ?_, fun i below user unusable => ?_, fun i below kernel => ?_, fun i => ?_⟩
    · obtain ⟨⟨slot, member, ram, contains⟩, others⟩ := usable
      rw [pmemInit_nps] at below
      rw [perm_eq map below user]
      cases found : s.entries.find? fun slot => Contains slot i with
      | none => exact absurd contains (by simpa using List.find?_eq_none.mp found slot member)
      | some first =>
        have among := List.mem_of_find?_eq_some found
        have inside : Contains first i := by simpa using List.find?_some found
        have type : first.type = memRam := by
          by_contra other
          exact others first among other (contains_meets inside)
        simp only [type, if_true]
    · rw [pmemInit_nps] at below
      rw [perm_eq map below user]
      cases found : s.entries.find? fun slot => Contains slot i with
      | none => rfl
      | some first =>
        obtain ⟨contains, before, after, split, earlier⟩ := List.find?_eq_some_iff_append.mp found
        have contains : Contains first i := of_decide_eq_true contains
        refine if_neg fun ram => unusable ⟨⟨first, List.mem_of_find?_eq_some found, ram, contains⟩, ?_⟩
        exact decides i before first after user split ram contains fun x early => by simpa using earlier x early
    · rw [pmemInit_nps] at below
      rw [pmemInit_table, if_pos below]
      refine if_pos ?_
      by_contra inside
      exact kernel ⟨by omega, by omega⟩
    · exact atIsAllocated_eq_zero.mp (pmemInit_free (mmapRows s) i)

end Exact

/-- For any memory map, the table is exact after `pmem_init` exactly when the first range to contain a
page decides rightly. -/
theorem reserved_memory_iff (mmap : List MbootMmap) (few : mmap.length ≤ numSlots)
    (words : ∀ p ∈ mmap, p.Words) (types : ∀ p ∈ mmap, p.baseAddrHigh = 0 → KnownType p.type) :
    ∃ s, pmmapInit mmap = .ok s ∧
      (TableExact s.entries (pmemInit (mmapRows s)) ↔ FirstDecides s.entries) := by
  obtain ⟨s, ran, map, -⟩ := pmmapInit_returns few words types
  exact ⟨s, ran, tableExact_iff map⟩

/-- Usable memory from 1 GB on, and a page in it that the firmware keeps. -/
def keptPage : List MbootMmap :=
  [⟨0x40000000, 0, 0x10000000, 0, memRam⟩, ⟨0x40001000, 0, 0x1000, 0, memReserved⟩]

theorem keptPage_iff : ∃ s, pmmapInit keptPage = .ok s ∧
    (TableExact s.entries (pmemInit (mmapRows s)) ↔ FirstDecides s.entries) :=
  reserved_memory_iff keptPage (by decide) (by decide) (by decide)

/-- The page that the firmware keeps is marked available. -/
theorem keptPage_available :
    ∃ s, pmmapInit keptPage = .ok s ∧ ⟨0x40001000, 0x40002000, memReserved⟩ ∈ s.entries ∧
      Contains ⟨0x40001000, 0x40002000, memReserved⟩ 0x40001 ∧ UserPage 0x40001 ∧
      0x40001 < (pmemInit (mmapRows s)).nps ∧ ((pmemInit (mmapRows s)).table 0x40001).perm = 2 := by
  obtain ⟨s, ran, map, entries⟩ := @pmmapInit_returns keptPage (by decide) (by decide) (by decide)
  have listed : s.entries =
      [⟨0x40000000, 0x50000000, memRam⟩, ⟨0x40001000, 0x40002000, memReserved⟩] := entries.trans (by decide)
  have user : UserPage 0x40001 := ⟨by decide, by decide⟩
  have below : 0x40001 < countPages (mmapRows s) := by
    rw [mmapRows_eq map, listed]
    decide
  refine ⟨s, ran, ?_, by decide, user, ?_, ?_⟩
  · rw [listed]
    decide
  · rwa [pmemInit_nps]
  · rw [perm_eq map below user, listed]
    decide

/-! ## Accesses to the table -/

/-- The calls through which the table and its counters are reached. -/
inductive AtOp
  | getNps
  | setNps (nps : Nat)
  | isNorm (pageIndex : Nat)
  | setPerm (pageIndex normVal : Nat)
  | isAllocated (pageIndex : Nat)
  | setAllocated (pageIndex allocated : Nat)
  | lastPallocIndex
  | setLastPallocIndex (index : Nat)
  deriving DecidableEq, Repr

/-- The entry of `AT` that a call touches. -/
def AtOp.index : AtOp → Option Nat
  | .isNorm i | .setPerm i _ | .isAllocated i | .setAllocated i _ => some i
  | .getNps | .setNps _ | .lastPallocIndex | .setLastPallocIndex _ => none

def AtSig : Sig where
  Op := AtOp
  Res
    | .getNps | .isNorm _ | .isAllocated _ | .lastPallocIndex => Nat
    | .setNps _ | .setPerm _ _ | .setAllocated _ _ | .setLastPallocIndex _ => Unit

abbrev AtProg := Prog AtSig Empty

def atMachine : Machine AtSig Empty PhysMem
  | .getNps, m => .ok (getNps m) m
  | .setNps nps, m => .ok () { m with nps := nps }
  | .isNorm i, m => .ok (atIsNorm m i) m
  | .setPerm i v, m => .ok () (atSetPerm m i v)
  | .isAllocated i, m => .ok (atIsAllocated m i) m
  | .setAllocated i v, m => .ok () (atSetAllocated m i v)
  | .lastPallocIndex, m => .ok m.lastPallocIndex m
  | .setLastPallocIndex i, m => .ok () { m with lastPallocIndex := i }

/-- The table has `2^20` entries. -/
def InTable (op : AtSig.Op) (_ : PhysMem) : Prop := ∀ i, AtOp.index op = some i → i < 1048576

def callGetNps : AtProg Nat := Prog.op (S := AtSig) .getNps
def callSetNps (nps : Nat) : AtProg Unit := Prog.op (S := AtSig) (.setNps nps)
def callIsNorm (i : Nat) : AtProg Nat := Prog.op (S := AtSig) (.isNorm i)
def callSetPerm (i v : Nat) : AtProg Unit := Prog.op (S := AtSig) (.setPerm i v)
def callIsAllocated (i : Nat) : AtProg Nat := Prog.op (S := AtSig) (.isAllocated i)
def callSetAllocated (i v : Nat) : AtProg Unit := Prog.op (S := AtSig) (.setAllocated i v)
def callLast : AtProg Nat := Prog.op (S := AtSig) .lastPallocIndex
def callSetLast (i : Nat) : AtProg Unit := Prog.op (S := AtSig) (.setLastPallocIndex i)

/-- The second loop of `pmem_init`, from page `i` on. -/
def pmemLoop (rows : List MmapRow) : (count i : Nat) → AtProg Unit
  | 0, _ => pure ()
  | count + 1, i => do
    callSetPerm i (pagePerm rows i)
    pmemLoop rows count (i + 1)

/-- `pmem_init`, once the memory map is there. -/
def pmemInitCalls (rows : List MmapRow) : AtProg Unit := do
  callSetNps (countPages rows)
  pmemLoop rows (countPages rows) 0

/-- The loop of `container_init`, from page `i` on. -/
def quotaLoop : (count i quota : Nat) → AtProg Nat
  | 0, _, quota => pure quota
  | count + 1, i, quota => do
    let norm ← callIsNorm i
    let used ← callIsAllocated i
    if norm = 1 ∧ used = 0 then quotaLoop count (i + 1) (quota + 1)
    else quotaLoop count (i + 1) quota

/-- The part of `container_init` that reads the table. -/
def realQuotaCalls : AtProg Nat := do
  let nps ← callGetNps
  quotaLoop (nps - 1) 1 0

/-- The loop of `palloc`. -/
def pallocLoop (tnps : Nat) : (fuel index : Nat) → AtProg Nat
  | 0, _ => pure tnps
  | fuel + 1, index =>
    if index < tnps then do
      let norm ← callIsNorm index
      if norm = 1 then do
        let used ← callIsAllocated index
        if used = 0 then pure index else pallocLoop tnps fuel (index + 1)
      else pallocLoop tnps fuel (index + 1)
    else pure tnps

def pallocCalls : AtProg Nat := do
  let tnps ← callGetNps
  let last ← callLast
  let free ← pallocLoop tnps tnps ((last + 1) % 4294967296)
  if free = tnps then do
    callSetLast (0 % tnps)
    pure 0
  else do
    callSetAllocated free 1
    callSetLast (free % tnps)
    pure free

section Accesses
variable {rows : List MmapRow} {m : PhysMem}

/-- A call that touches no entry. -/
theorem passes_counter (op : AtSig.Op) {r : AtSig.Res op} {m' : PhysMem} (index : AtOp.index op = none)
    (done : atMachine op m = .ok r m') : atMachine.Passes InTable (Prog.op op) m r m' :=
  .op (fun _ touched => absurd (index.symm.trans touched) nofun) done

/-- A call that touches an entry of the table. -/
theorem passes_entry (op : AtSig.Op) {r : AtSig.Res op} {m' : PhysMem} {i : Nat}
    (index : AtOp.index op = some i) (inside : i < 1048576) (done : atMachine op m = .ok r m') :
    atMachine.Passes InTable (Prog.op op) m r m' :=
  .op (fun _ touched => Option.some.inj (index.symm.trans touched) ▸ inside) done

/-- The calls of `pmem_init` fill the table as `setPerms` does, and stay inside it. -/
theorem pmemLoop_passes (count i : Nat) (inside : i + count ≤ 1048576) :
    atMachine.Passes InTable (pmemLoop rows count i) (setPerms rows m i) () (setPerms rows m (i + count)) := by
  induction count generalizing i with
  | zero => exact .ret () _
  | succ count ih =>
    have rest := ih (i + 1) (by omega)
    rw [Nat.add_right_comm i 1 count] at rest
    exact .bind (passes_entry (.setPerm i (pagePerm rows i)) rfl (by omega) rfl) rest

theorem pmemInitCalls_passes (rows : List MmapRow) (m : PhysMem) :
    atMachine.Passes InTable (pmemInitCalls rows) m ()
      (setPerms rows { m with nps := countPages rows } (countPages rows)) := by
  have loop := @pmemLoop_passes rows { m with nps := countPages rows } (countPages rows) 0
    (by rw [Nat.zero_add]; exact countPages_le rows)
  rw [Nat.zero_add] at loop
  exact .bind (passes_counter (.setNps (countPages rows)) rfl rfl) loop

theorem quotaLoop_passes (count i : Nat) (first : 1 ≤ i) (inside : i + count ≤ 1048576) :
    atMachine.Passes InTable (quotaLoop count i (realQuota m i)) m (realQuota m (i + count)) m := by
  induction count generalizing i with
  | zero => exact .ret _ m
  | succ count ih =>
    have rest := ih (i + 1) (by omega) (by omega)
    rw [Nat.add_right_comm i 1 count] at rest
    refine .bind (passes_entry (.isNorm i) rfl (by omega) rfl)
      (.bind (passes_entry (.isAllocated i) rfl (by omega) rfl) ?_)
    change atMachine.Passes InTable (if atIsNorm m i = 1 ∧ atIsAllocated m i = 0 then
      quotaLoop count (i + 1) (realQuota m i + 1) else quotaLoop count (i + 1) (realQuota m i)) m _ m
    split
    · next both =>
      have counted : realQuota m (i + 1) = realQuota m i + 1 := if_pos ⟨first, both⟩
      rwa [counted] at rest
    · next neither =>
      have skipped : realQuota m (i + 1) = realQuota m i := if_neg fun all => neither all.2
      rwa [skipped] at rest

theorem realQuotaCalls_passes (bounded : m.nps ≤ 1048576) :
    atMachine.Passes InTable realQuotaCalls m (realQuota m m.nps) m := by
  refine .bind (passes_counter .getNps rfl rfl) ?_
  change atMachine.Passes InTable (quotaLoop (m.nps - 1) 1 0) m (realQuota m m.nps) m
  rcases Nat.eq_zero_or_pos m.nps with zero | positive
  · rw [zero]
    exact .ret 0 m
  · have loop := @quotaLoop_passes m (m.nps - 1) 1 (Nat.le_refl 1) (by omega)
    rw [show 1 + (m.nps - 1) = m.nps by omega] at loop
    exact loop

theorem pallocLoop_passes (tnps fuel index : Nat) (bounded : tnps ≤ 1048576) :
    atMachine.Passes InTable (pallocLoop tnps fuel index) m (pallocScan m tnps fuel index) m := by
  induction fuel generalizing index with
  | zero => exact .ret tnps m
  | succ fuel ih =>
    unfold pallocLoop pallocScan
    split
    · next below =>
      refine .bind (passes_entry (.isNorm index) rfl (by omega) rfl) ?_
      change atMachine.Passes InTable (if atIsNorm m index = 1 then _ else _) m _ m
      split
      · next norm =>
        refine .bind (passes_entry (.isAllocated index) rfl (by omega) rfl) ?_
        change atMachine.Passes InTable (if atIsAllocated m index = 0 then _ else _) m _ m
        split
        · next free =>
          rw [if_pos ⟨norm, free⟩]
          exact .ret index m
        · next used =>
          rw [if_neg fun both => used both.2]
          exact ih (index + 1)
      · next other =>
        rw [if_neg fun both => other both.1]
        exact ih (index + 1)
    · exact .ret tnps m

theorem pallocCalls_passes (bounded : m.nps ≤ 1048576) :
    atMachine.Passes InTable pallocCalls m (palloc m).1 (palloc m).2 := by
  refine .bind (passes_counter .getNps rfl rfl) (.bind (passes_counter .lastPallocIndex rfl rfl)
    (.bind (pallocLoop_passes m.nps m.nps (pallocStart m) bounded) ?_))
  change atMachine.Passes InTable (if pallocScan m m.nps m.nps (pallocStart m) = m.nps then _ else _) m _ _
  split
  · next none =>
    have result : palloc m = (0, { m with lastPallocIndex := 0 % m.nps }) := if_pos none
    rw [result]
    exact .bind (passes_counter (.setLastPallocIndex (0 % m.nps)) rfl rfl) (.ret _ _)
  · next some =>
    have result : palloc m = (pallocScan m m.nps m.nps (pallocStart m),
        { atSetAllocated m (pallocScan m m.nps m.nps (pallocStart m)) 1 with
          lastPallocIndex := pallocScan m m.nps m.nps (pallocStart m) % m.nps }) := if_neg some
    have below : pallocScan m m.nps m.nps (pallocStart m) < m.nps := by
      rcases pallocScan_cases m m.nps m.nps (pallocStart m) (by omega) with ⟨none, -⟩ | ⟨-, below, -, -⟩
      · exact absurd none some
      · exact below
    rw [result]
    generalize pallocScan m m.nps m.nps (pallocStart m) = free at below
    exact .bind (passes_entry (.setAllocated free 1) rfl (by omega) rfl)
      (.bind (passes_counter (.setLastPallocIndex (free % m.nps)) rfl rfl) (.ret _ _))

end Accesses

/-- No sum of `pmem_init` wraps around, and no call leaves the table. -/
structure InBounds (s : Pmmaps) : Prop where
  ranges : ∀ slot ∈ s.entries, slot.start ≤ slot.endAddr
  sums : ∀ row ∈ mmapRows s, row.start + row.len < 4294967296
  ends : ∀ i, UserPage i → (i + 1) * pageSize < 4294967296
  tops : ∀ row ∈ mmapRows s, (row.start + row.len) / pageSize + 1 ≤ 1048576
  nps : countPages (mmapRows s) ≤ 1048576
  pmemInit : ∀ m : PhysMem, atMachine.Passes InTable (pmemInitCalls (mmapRows s)) m ()
    (setPerms (mmapRows s) { m with nps := countPages (mmapRows s) } (countPages (mmapRows s)))
  containerInit : atMachine.Passes InTable realQuotaCalls (Pmm.pmemInit (mmapRows s))
    (realQuota (Pmm.pmemInit (mmapRows s)) (countPages (mmapRows s))) (Pmm.pmemInit (mmapRows s))
  palloc : ∀ ops, atMachine.Passes InTable pallocCalls (allocRun (Pmm.pmemInit (mmapRows s)) ops)
    (Pmm.palloc (allocRun (Pmm.pmemInit (mmapRows s)) ops)).1
    (Pmm.palloc (allocRun (Pmm.pmemInit (mmapRows s)) ops)).2
  initialised : ∀ (m : PhysMem) (i : Nat), i < countPages (mmapRows s) →
    (setPerms (mmapRows s) { m with nps := countPages (mmapRows s) } (countPages (mmapRows s))).table i =
      ⟨pagePerm (mmapRows s) i, 0⟩

theorem inBounds {s : Pmmaps} (map : MemoryMap s) : InBounds s := by
  have sums : ∀ row ∈ mmapRows s, row.start + row.len < 4294967296 := by
    intro row member
    rw [mmapRows_eq map] at member
    obtain ⟨slot, among, rfl⟩ := List.mem_map.mp member
    rw [rowOf_end (map.ordered slot among) (map.word slot among)]
    exact map.word slot among
  refine ⟨map.ordered, sums, fun i user => ?_, fun row member => ?_, countPages_le _, ?_, ?_, fun ops => ?_,
    fun m i below => ?_⟩
  · have top := user.2
    unfold vmUserHiPi vmUserHi pageSize at *
    omega
  · have small := sums row member
    unfold pageSize
    omega
  · exact fun m => pmemInitCalls_passes (mmapRows s) m
  · have passes := @realQuotaCalls_passes (Pmm.pmemInit (mmapRows s)) (pmemInit_bounded _).pages
    rwa [pmemInit_nps] at passes
  · exact pallocCalls_passes ((pmemInit_bounded _).run ops).pages
  · rw [setPerms_table, if_pos below]

/-- For any multiboot memory map of at most 128 entries: `pmmap_init` stores ranges that end at
`0xffffffff` at the latest, and either stops at an entry of unknown type, or returns a map on which
`pmem_init`, `container_init` and `palloc` never wrap around and never leave the table. -/
theorem no_overflow_at_limit (mmap : List MbootMmap) (few : mmap.length ≤ numSlots)
    (words : ∀ p ∈ mmap, p.Words) :
    (∃ s, insertAll mmap bootPmmaps = .ok s ∧
      ∀ slot ∈ s.entries, slot.start ≤ slot.endAddr ∧ slot.endAddr < 4294967296) ∧
    ((pmmapInit mmap = .error .sublistNr ∧ ∃ p ∈ mmap, p.baseAddrHigh = 0 ∧ ¬ KnownType p.type) ∨
      ∃ s, pmmapInit mmap = .ok s ∧ InBounds s) := by
  constructor
  · obtain ⟨s, cells, ran, -, entries, -, -⟩ := inserts_return (Nat.le_trans (length_mmapRanges_le mmap) few)
    refine ⟨s, (insertAll_eq mmap bootPmmaps).trans ran, ?_⟩
    rw [entries]
    exact mmapRanges_bounded words
  · by_cases types : ∀ p ∈ mmap, p.baseAddrHigh = 0 → KnownType p.type
    · obtain ⟨s, ran, map, -⟩ := pmmapInit_returns few words types
      exact Or.inr ⟨s, ran, inBounds map⟩
    · push Not at types
      obtain ⟨p, member, low, unknown⟩ := types
      exact Or.inl ⟨pmmapInit_unknown few member low unknown, p, member, low, unknown⟩

/-- Usable memory that ends at 4 GB, and some behind it. -/
def fullMemory : List MbootMmap :=
  [⟨0, 0, 0xffffffff, 0, memRam⟩, ⟨0x40000000, 0, 0xc0000000, 0, memReserved⟩, ⟨0, 1, 0, 1, memRam⟩]

theorem fullMemory_inBounds :
    (∃ s, insertAll fullMemory bootPmmaps = .ok s ∧
      ∀ slot ∈ s.entries, slot.start ≤ slot.endAddr ∧ slot.endAddr < 4294967296) ∧
    ((pmmapInit fullMemory = .error .sublistNr ∧ ∃ p ∈ fullMemory, p.baseAddrHigh = 0 ∧ ¬ KnownType p.type) ∨
      ∃ s, pmmapInit fullMemory = .ok s ∧ InBounds s) :=
  no_overflow_at_limit fullMemory (by decide) (by decide)

end OsAudio.Pmm

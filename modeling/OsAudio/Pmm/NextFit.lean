import OsAudio.Pmm.AllocTable

/-!
# Runs of the page allocator

Any sequence of `palloc` and `pfree` calls.  A page stays marked from the `palloc` that returns it
to the next `pfree` of it, so it is not handed out twice; and `palloc` looks at the pages above
`last_palloc_index` only, so it can fail while pages below are free.
-/
namespace OsAudio.Pmm

inductive AllocOp
  | palloc
  | pfree (index : Nat)
  deriving DecidableEq, Repr

def AllocOp.run (m : PhysMem) : AllocOp → PhysMem
  | .palloc => (Pmm.palloc m).2
  | .pfree index => Pmm.pfree m index

/-- The table after the calls. -/
def allocRun (m : PhysMem) (ops : List AllocOp) : PhysMem := ops.foldl AllocOp.run m

/-! ## Exclusive allocation -/

variable {m : PhysMem} {i : Nat}

/-- One call leaves an allocated page allocated, unless it frees that page. -/
theorem AllocOp.run_keeps {op : AllocOp} (other : op ≠ .pfree i)
    (taken : atIsAllocated m i = 1) : atIsAllocated (op.run m) i = 1 := by
  cases op with
  | palloc => exact palloc_keeps taken
  | pfree index =>
    have different : i ≠ index := by
      rintro rfl
      exact other rfl
    exact (atIsAllocated_atSetAllocated m index 0 i).trans ((if_neg different).trans taken)

theorem allocRun_keeps {ops : List AllocOp} (unfreed : .pfree i ∉ ops)
    (taken : atIsAllocated m i = 1) : atIsAllocated (allocRun m ops) i = 1 := by
  induction ops generalizing m with
  | nil => exact taken
  | cons op ops ih =>
    rw [List.mem_cons, not_or] at unfreed
    exact ih unfreed.2 (AllocOp.run_keeps (Ne.symm unfreed.1) taken)

/-- After any calls, from any table and any `last_palloc_index`: a page other than 0 that `palloc`
returns is below `nps`, was free with normal permission and is the only entry to change; the result
0 changes no entry, unless the scan starts at page 0 (`last_palloc_index + 1` wraps around) and finds
it available, so that it is marked although 0 stands for failure; and a page that is returned again
was freed in between. -/
theorem palloc_exclusive (m : PhysMem) (before between : List AllocOp) :
    let s := allocRun m before
    let i := (palloc s).1
    let t := (palloc s).2
    (i ≠ 0 → i < s.nps ∧ atIsNorm s i = 1 ∧ (s.table i).allocated = 0 ∧
      (t.table i).perm = (s.table i).perm ∧ (t.table i).allocated = 1 ∧
      ∀ j, j ≠ i → t.table j = s.table j) ∧
    (i = 0 → t.table =
      if pallocStart s = 0 ∧ 0 < s.nps ∧ Available s 0 then (atSetAllocated s 0 1).table
      else s.table) ∧
    (i ≠ 0 → (palloc (allocRun t between)).1 = i → .pfree i ∈ between) := by
  generalize allocRun m before = s
  refine ⟨fun nonzero => ?_, fun zero => ?_, fun nonzero again => ?_⟩
  · obtain ⟨first, table⟩ := palloc_found nonzero
    have free := atIsAllocated_eq_zero.mp first.available.2
    refine ⟨first.below, first.available.1, free, ?_⟩
    rw [table]
    refine ⟨?_, ?_, fun j other => ?_⟩
    · simp only [atSetAllocated, Function.update_self]
    · simp only [atSetAllocated, Function.update_self]
    · exact Function.update_of_ne other _ _
  · rcases palloc_cases s with ⟨result, none⟩ | ⟨i, first, result⟩
    · have unavailable : ¬ (pallocStart s = 0 ∧ 0 < s.nps ∧ Available s 0) := by
        rintro ⟨start, pages, available⟩
        exact none 0 (Nat.le_of_eq start) pages available
      rw [if_neg unavailable, result]
    · have page : i = 0 := by
        rw [result] at zero
        exact zero
      subst page
      have start : pallocStart s = 0 := Nat.le_zero.mp first.start
      rw [if_pos ⟨start, first.below, first.available⟩, result]
  · by_contra unfreed
    obtain ⟨-, table⟩ := palloc_found nonzero
    have marked : atIsAllocated (palloc s).2 (palloc s).1 = 1 := by
      rw [table]
      exact (atIsAllocated_atSetAllocated ..).trans (if_pos rfl)
    have still := allocRun_keeps unfreed marked
    have free : atIsAllocated (allocRun (palloc s).2 between) (palloc s).1 = 0 := by
      have second := (palloc_found (again.trans_ne nonzero)).1.available.2
      rwa [again] at second
    omega

/-- A table with one page of normal permission, and the last index before `last_palloc_index + 1`
wraps around. -/
def wrapping : PhysMem := ⟨1, fun _ => ⟨2, 0⟩, 4294967295⟩

/-- The result is 0, as for a failure, but page 0 is now allocated. -/
theorem palloc_wrapping : 1 ≤ wrapping.nps ∧ wrapping.lastPallocIndex < 4294967296 ∧
    (palloc wrapping).1 = 0 ∧ (wrapping.table 0).allocated = 0 ∧
    ((palloc wrapping).2.table 0).allocated = 1 := by
  decide

/-! ## Exhaustion -/

/-- What the calls keep: the table has at most `2^20` entries and `last_palloc_index` is one of
them. -/
structure TableBounds (m : PhysMem) : Prop where
  pages : m.nps ≤ 1048576
  last : m.lastPallocIndex < 1048576

/-- The scan starts behind `last_palloc_index`, not at 0. -/
theorem TableBounds.start (bounded : TableBounds m) : pallocStart m = m.lastPallocIndex + 1 := by
  have small := bounded.last
  exact Nat.mod_eq_of_lt (by omega)

theorem TableBounds.palloc (bounded : TableBounds m) : TableBounds (Pmm.palloc m).2 := by
  have pages := bounded.pages
  rcases palloc_cases m with ⟨result, -⟩ | ⟨i, first, result⟩
  · rw [result]
    exact ⟨pages, Nat.zero_lt_succ _⟩
  · have below := first.below
    rw [result]
    exact ⟨pages, Nat.lt_of_lt_of_le below pages⟩

theorem TableBounds.pfree (bounded : TableBounds m) (index : Nat) :
    TableBounds (Pmm.pfree m index) :=
  ⟨bounded.pages, bounded.last⟩

theorem TableBounds.run (bounded : TableBounds m) (ops : List AllocOp) :
    TableBounds (allocRun m ops) := by
  induction ops generalizing m with
  | nil => exact bounded
  | cons op ops ih =>
    cases op with
    | palloc => exact ih bounded.palloc
    | pfree index => exact ih (bounded.pfree index)

theorem countPages_le (rows : List MmapRow) : countPages rows ≤ 1048576 := by
  have rowBound : ∀ row : MmapRow, rowTop row ≤ 1048576 := by
    intro row
    simp only [rowTop, pageSize]
    omega
  have general : ∀ (rest : List MmapRow) (nps : Nat), nps ≤ 1048576 →
      rest.foldl (fun nps row => if rowTop row > nps then rowTop row else nps) nps ≤ 1048576 := by
    intro rest
    induction rest with
    | nil => exact fun nps bound => bound
    | cons row rest ih =>
      intro nps bound
      apply ih
      dsimp only
      split
      · exact rowBound row
      · exact bound
  exact general rows 0 (by omega)

theorem pmemInit_nps (rows : List MmapRow) : (pmemInit rows).nps = countPages rows := by
  simp [pmemInit, setPerms_nps]

theorem pmemInit_bounded (rows : List MmapRow) : TableBounds (pmemInit rows) := by
  refine ⟨?_, ?_⟩
  · rw [pmemInit_nps]
    exact countPages_le rows
  · rw [pmemInit, setPerms_last]
    exact Nat.lt_of_sub_pos (by decide : 0 < 1048576 - 262144)

/-- `palloc` fails exactly if no page above `last_palloc_index` is available. -/
theorem TableBounds.palloc_eq_zero (bounded : TableBounds m) :
    (Pmm.palloc m).1 = 0 ↔ ∀ i, m.lastPallocIndex < i → i < m.nps → ¬ Available m i := by
  have start := bounded.start
  rcases palloc_cases m with ⟨result, none⟩ | ⟨i, first, result⟩
  · rw [start] at none
    rw [result]
    exact iff_of_true rfl none
  · have above := first.start
    rw [start] at above
    rw [result]
    refine iff_of_false ?_ fun none => none i above first.below first.available
    change i ≠ 0
    omega

/-- From initialisation on, `palloc` fails exactly when memory is exhausted if and only if an
available page at or below `last_palloc_index` does not come without one above. -/
theorem palloc_exhausted_iff (rows : List MmapRow) (ops : List AllocOp) :
    let m := allocRun (pmemInit rows) ops
    ((palloc m).1 = 0 ↔ ∀ i, i < m.nps → ¬ Available m i) ↔
      ((∃ i, i ≤ m.lastPallocIndex ∧ i < m.nps ∧ Available m i) →
        ∃ i, m.lastPallocIndex < i ∧ i < m.nps ∧ Available m i) := by
  intro m
  have bounded : TableBounds m := (pmemInit_bounded rows).run ops
  rw [bounded.palloc_eq_zero]
  constructor
  · rintro complete ⟨i, -, inside, available⟩
    by_contra nothing
    refine complete.mp (fun j above small free => nothing ⟨j, above, small, free⟩) i inside available
  · intro above
    refine ⟨fun none i inside available => ?_, fun none i _ inside => none i inside⟩
    by_cases low : i ≤ m.lastPallocIndex
    · obtain ⟨j, later, small, free⟩ := above ⟨i, low, inside, available⟩
      exact none j later small free
    · exact none i (by omega) inside available

/-- A machine with exactly one page of usable memory in the user range. -/
def onePage : List MmapRow := [⟨vmUserLo, pageSize, true⟩]

theorem onePage_count : countPages onePage = 262146 := by decide

theorem onePage_table (below : i < 262146) :
    (pmemInit onePage).table i = ⟨pagePerm onePage i, 0⟩ := by
  rw [pmemInit_table, onePage_count, if_pos below]

/-- The scan starts behind the only page. -/
theorem onePage_exhausted : (palloc (pmemInit onePage)).1 = 0 := by
  have last : (pmemInit onePage).lastPallocIndex = 262144 := by
    rw [pmemInit, setPerms_last]
    rfl
  rw [(pmemInit_bounded onePage).palloc_eq_zero, pmemInit_nps, onePage_count, last]
  intro i above below available
  have page : i = 262145 := by omega
  have norm := atIsNorm_eq_one.mp available.1
  rw [page, onePage_table (by decide)] at norm
  exact absurd norm (by decide)

/-- The first call after initialisation: the scan starts behind the first user page, which is the
only available one. -/
theorem palloc_onePage :
    1 ≤ countPages onePage ∧ (palloc (allocRun (pmemInit onePage) [])).1 = 0 ∧
    262144 < (allocRun (pmemInit onePage) []).nps ∧
    Available (allocRun (pmemInit onePage) []) 262144 := by
  change _ ∧ (palloc (pmemInit onePage)).1 = 0 ∧ 262144 < (pmemInit onePage).nps ∧
    Available (pmemInit onePage) 262144
  rw [pmemInit_nps, onePage_count]
  refine ⟨by decide, onePage_exhausted, by decide, ?_, pmemInit_free onePage _⟩
  rw [atIsNorm_eq_one, onePage_table (by decide)]
  decide

end OsAudio.Pmm

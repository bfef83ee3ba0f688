import OsAudio.Lib.Count
import OsAudio.Lib.Forest
import OsAudio.Pmm.Container
import OsAudio.Pmm.NextFit
import Mathlib.Algebra.BigOperators.Ring.Finset

/-!
# Hierarchical memory quotas

Runs of `container_split`, `container_alloc` and `container_free` from
`container_init`.  A ghost map records which container each page was handed to, so
that "the pages currently allocated to `id`" can be counted; the code never reads it.
The container tree is stored by index arithmetic: child `k` of `id` has index
`3 * id + 1 + k`, and `TreeIndexed` is what that encoding preserves.
-/
namespace OsAudio.Pmm
open OsAudio.Lib
open Function (update update_self update_of_ne)

/-- The machine with the ghost owner of every page. -/
structure QuotaSys where
  mem : Mem
  owner : Nat → Option Nat

inductive QuotaOp where
  | split (id quota : Nat)
  | alloc (id : Nat)
  | free (id page : Nat)

def quotaInit (rows : List MmapRow) : QuotaSys := ⟨containerInit rows, fun _ => none⟩

/-- What the callers of the three functions guarantee. -/
def QuotaOp.Allowed (s : QuotaSys) : QuotaOp → Prop
  | .split id quota =>
    id < numIds ∧ (s.mem.container id).used ≠ 0 ∧
      (s.mem.container id).nchildren < maxChildren ∧
      id * maxChildren + maxChildren < numIds ∧
      (s.mem.container id).usage + quota ≤ (s.mem.container id).quota
  | .alloc id => id < numIds
  | .free id page => id < numIds ∧ s.owner page = some id

def QuotaOp.run (s : QuotaSys) : QuotaOp → QuotaSys
  | .split id quota => { s with mem := (containerSplit s.mem id quota).2 }
  | .alloc id =>
    let (i, mem) := containerAlloc s.mem id
    ⟨mem, if i = 0 then s.owner else update s.owner i (some id)⟩
  | .free id page => ⟨containerFree s.mem id page, update s.owner page none⟩

/-- States reached by allowed operations from `container_init`. -/
inductive QuotaReach (rows : List MmapRow) : QuotaSys → Prop
  | init : QuotaReach rows (quotaInit rows)
  | step {s : QuotaSys} (op : QuotaOp) (before : QuotaReach rows s) (ok : op.Allowed s) :
      QuotaReach rows (op.run s)

/-- The ids in use. -/
def usedIds (c : Nat → SContainer) : Finset Nat :=
  (Finset.range numIds).filter fun id => (c id).used ≠ 0

def parentOf (c : Nat → SContainer) (id : Nat) : Nat := (c id).parent.toNat

/-- Used containers, other than `id` itself, whose parent is `id`. -/
def childrenOf (c : Nat → SContainer) (id : Nat) : Finset Nat :=
  Forest.children (usedIds c) (parentOf c) id

def childQuota (c : Nat → SContainer) (id : Nat) : Int := ∑ j ∈ childrenOf c id, (c j).quota

/-- Pages currently allocated to `id`. -/
def pagesOf (s : QuotaSys) (id : Nat) : Nat :=
  ((Finset.range s.mem.phys.nps).filter fun p => s.owner p = some id).card

/-- The index encoding of the tree. -/
structure TreeIndexed (c : Nat → SContainer) : Prop where
  root : (c 0).used ≠ 0 ∧ (c 0).parent = 0
  slot : ∀ j, j ≠ 0 → j < numIds →
    ((c j).used ≠ 0 ↔ (c ((j - 1) / 3)).used ≠ 0 ∧ ((j - 1) % 3 : Nat) < (c ((j - 1) / 3)).nchildren)
  parent : ∀ j, j ≠ 0 → j < numIds → (c j).used ≠ 0 → (c j).parent = ((j - 1) / 3 : Nat)
  unused : ∀ j, j < numIds → (c j).used = 0 → c j = zeroContainer

structure QuotaInv (s : QuotaSys) : Prop where
  tree : TreeIndexed s.mem.container
  fan : ∀ id, id < numIds → 0 ≤ (s.mem.container id).nchildren ∧ (s.mem.container id).nchildren ≤ 3
  bounds : ∀ id, id < numIds → (s.mem.container id).quota < 2147483648
  charged : ∀ id, id < numIds →
    (pagesOf s id : Int) + childQuota s.mem.container id ≤ (s.mem.container id).usage
  limited : ∀ id, id < numIds → (s.mem.container id).usage ≤ (s.mem.container id).quota
  nonneg : ∀ id, id < numIds → 0 ≤ (s.mem.container id).usage
  owned : ∀ p id, s.owner p = some id →
    p < s.mem.phys.nps ∧ atIsAllocated s.mem.phys p = 1 ∧ id < numIds ∧
      (s.mem.container id).used ≠ 0

/-! ## The three operations, without machine arithmetic -/

/-- `CONTAINER` after a split whose sums stay in range. -/
def splitTable (c : Nat → SContainer) (id quota child : Nat) : Nat → SContainer :=
  update (update c child ⟨quota, 0, id, 0, 1⟩) id
    { c id with usage := (c id).usage + quota, nchildren := (c id).nchildren + 1 }

theorem containerSplit_eq (m : Mem) (id quota nc : Nat)
    (count : (m.container id).nchildren = nc) (room : nc < 3) (range : id * maxChildren + maxChildren < numIds)
    (nonneg : 0 ≤ (m.container id).usage)
    (fits : (m.container id).usage + quota ≤ (m.container id).quota)
    (small : (m.container id).quota < 2147483648) :
    containerSplit m id quota =
      (3 * id + 1 + nc, { m with container := splitTable m.container id quota (3 * id + 1 + nc) }) := by
  simp only [maxChildren, numIds] at range
  have children : uint32 (nc : Int) = nc := uint32_natCast (by omega)
  have index : (id * 3 + 1 + nc) % 4294967296 = 3 * id + 1 + nc := by omega
  have different : id ≠ 3 * id + 1 + nc := by omega
  have u32 : (uint32 (m.container id).usage : Int) = (m.container id).usage :=
    uint32_of_range nonneg (by omega)
  have q32 : int32 (quota : Int) = quota := int32_of_range (by omega) (by omega)
  have i32 : int32 (id : Int) = id := int32_of_range (by omega) (by omega)
  have s32 : int32 ((m.container id).usage + quota) = (m.container id).usage + quota :=
    int32_of_range (by omega) (by omega)
  have n32 : int32 ((nc : Int) + 1) = nc + 1 := int32_of_range (by omega) (by omega)
  simp only [containerSplit, maxChildren, children, index, splitTable,
    update_of_ne different, u32, q32, i32, s32, n32, count]

/-- Either the quota is used up and nothing happens, or the usage grows by one and
`palloc` decides the result. -/
theorem containerAlloc_eq (m : Mem) (id : Nat) (nonneg : 0 ≤ (m.container id).usage)
    (limited : (m.container id).usage ≤ (m.container id).quota)
    (small : (m.container id).quota < 2147483648) :
    containerAlloc m id =
      if (m.container id).usage = (m.container id).quota then (0, m)
      else ((palloc m.phys).1, ⟨(palloc m.phys).2, update m.container id
        { m.container id with usage := (m.container id).usage + 1 }⟩) := by
  have u32 : (uint32 (m.container id).usage : Int) = (m.container id).usage :=
    uint32_of_range nonneg (by omega)
  have q32 : (uint32 (m.container id).quota : Int) = (m.container id).quota :=
    uint32_of_range (by omega) (by omega)
  have test : uint32 (m.container id).usage = uint32 (m.container id).quota ↔
      (m.container id).usage = (m.container id).quota := by
    constructor
    · intro same
      rw [← u32, ← q32, same]
    · intro same
      rw [same]
  simp only [containerAlloc, test]
  split
  · rfl
  · next below =>
    rw [u32, int32_of_range (by omega) (by omega)]

/-! ## The tree encoding under a split -/

section Split
variable {c : Nat → SContainer} {id quota nc : Nat}

theorem splitTable_child : splitTable c id quota (3 * id + 1 + nc) (3 * id + 1 + nc) =
    ⟨quota, 0, id, 0, 1⟩ := by
  unfold splitTable
  rw [update_of_ne (by omega), update_self]

theorem splitTable_self : splitTable c id quota (3 * id + 1 + nc) id =
    { c id with usage := (c id).usage + quota, nchildren := (c id).nchildren + 1 } := by
  simp [splitTable]

theorem splitTable_other {j : Nat} (notChild : j ≠ 3 * id + 1 + nc) (notParent : j ≠ id) :
    splitTable c id quota (3 * id + 1 + nc) j = c j := by
  simp [splitTable, notChild, notParent]

/-- The next child's slot is free: the encoding says a slot is used exactly when its
number is below the parent's child count. -/
theorem TreeIndexed.child_unused (tree : TreeIndexed c) (count : (c id).nchildren = nc)
    (room : nc < 3) (range : 3 * id + 3 < numIds) : (c (3 * id + 1 + nc)).used = 0 := by
  by_contra used
  have place := (tree.slot (3 * id + 1 + nc) (by omega) (by omega)).mp used
  have up : (3 * id + 1 + nc - 1) / 3 = id := by omega
  have offset : (3 * id + 1 + nc - 1) % 3 = nc := by omega
  rw [up, offset, count] at place
  omega

theorem splitTable_used (used : (c id).used ≠ 0) (j : Nat) :
    (splitTable c id quota (3 * id + 1 + nc) j).used ≠ 0 ↔ (c j).used ≠ 0 ∨ j = 3 * id + 1 + nc := by
  by_cases child : j = 3 * id + 1 + nc
  · simp [child, splitTable_child]
  · by_cases self : j = id
    · simp [self, splitTable_self, used]
    · simp [splitTable_other child self, child]

theorem TreeIndexed.split (tree : TreeIndexed c) (count : (c id).nchildren = nc) (room : nc < 3)
    (range : 3 * id + 3 < numIds) (used : (c id).used ≠ 0) :
    TreeIndexed (splitTable c id quota (3 * id + 1 + nc)) := by
  have fresh := tree.child_unused count room range
  have zero := tree.unused _ (by omega) fresh
  have usedAt := @splitTable_used c id quota nc used
  have countAt : ∀ j, j ≠ id →
      ((splitTable c id quota (3 * id + 1 + nc)) j).nchildren = (c j).nchildren := by
    intro j self
    by_cases child : j = 3 * id + 1 + nc
    · rw [child, splitTable_child, zero]
      rfl
    · rw [splitTable_other child self]
  refine ⟨⟨(usedAt 0).mpr (Or.inl tree.root.1), ?_⟩, ?_, ?_, ?_⟩
  · by_cases self : 0 = id
    · rw [← self]
      have := @splitTable_self c 0 quota nc
      simp only [Nat.mul_zero] at this
      simp only [Nat.mul_zero, this]
      exact tree.root.2
    · rw [splitTable_other (by omega) self]
      exact tree.root.2
  · intro j positive below
    rw [usedAt j, usedAt ((j - 1) / 3)]
    by_cases parent : (j - 1) / 3 = id
    · rw [parent, splitTable_self]
      have old := tree.slot j positive below
      rw [parent] at old
      rw [old]
      simp only [used, ne_eq, not_false_eq_true, true_or, true_and, count]
      omega
    · rw [countAt _ parent, tree.slot j positive below]
      constructor
      · rintro (old | new)
        · exact ⟨Or.inl old.1, old.2⟩
        · omega
      · rintro ⟨old | new, small⟩
        · exact Or.inl ⟨old, small⟩
        · rw [new, zero] at small
          simp [zeroContainer] at small
          omega
  · intro j positive below isUsed
    by_cases child : j = 3 * id + 1 + nc
    · rw [child, splitTable_child]
      simp only
      omega
    · have oldUsed : (c j).used ≠ 0 := by
        rcases (usedAt j).mp isUsed with old | new
        · exact old
        · exact absurd new child
      have old := tree.parent j positive below oldUsed
      by_cases self : j = id
      · rw [self] at old ⊢
        rw [splitTable_self]
        exact old
      · rw [splitTable_other child self]
        exact old
  · intro j below isUnused
    obtain ⟨old, child⟩ := not_or.mp (mt (usedAt j).mpr (not_not.mpr isUnused))
    rw [not_not] at old
    have self : j ≠ id := by
      rintro rfl
      exact used old
    rw [splitTable_other child self]
    exact tree.unused j below old

end Split

/-! ## The sums -/

variable {c : Nat → SContainer} {id : Nat}

theorem mem_childrenOf {j : Nat} : j ∈ childrenOf c id ↔
    (j < numIds ∧ (c j).used ≠ 0) ∧ j ≠ id ∧ parentOf c j = id := by
  simp [childrenOf, Forest.children, usedIds]

/-- Only used, parent and quota of the entries matter for the sum over the children. -/
theorem childQuota_congr {c' : Nat → SContainer} (id : Nat)
    (same : ∀ j, j < numIds → (c' j).used = (c j).used ∧ (c' j).parent = (c j).parent ∧
      (c' j).quota = (c j).quota) : childQuota c' id = childQuota c id := by
  have sets : childrenOf c' id = childrenOf c id := by
    ext j
    simp only [mem_childrenOf, parentOf]
    by_cases below : j < numIds
    · rw [(same j below).1, (same j below).2.1]
    · simp [below]
  unfold childQuota
  rw [sets]
  exact Finset.sum_congr rfl fun j member => (same j (mem_childrenOf.mp member).1.1).2.2

theorem childrenOf_split {quota nc : Nat} (tree : TreeIndexed c)
    (count : (c id).nchildren = nc) (room : nc < 3) (range : 3 * id + 3 < numIds)
    (used : (c id).used ≠ 0) (j : Nat) :
    childrenOf (splitTable c id quota (3 * id + 1 + nc)) j =
      if j = id then insert (3 * id + 1 + nc) (childrenOf c id) else childrenOf c j := by
  have member : ∀ k, k ∈ childrenOf (splitTable c id quota (3 * id + 1 + nc)) j ↔
      k ∈ childrenOf c j ∨ (k = 3 * id + 1 + nc ∧ j = id) := by
    intro k
    have fresh := tree.child_unused count room range
    rw [mem_childrenOf, mem_childrenOf]
    unfold parentOf
    by_cases child : k = 3 * id + 1 + nc
    · rw [child, splitTable_child, fresh]
      simp
      omega
    · by_cases self : k = id
      · rw [self, splitTable_self]
        simp
        omega
      · rw [splitTable_other child self]
        simp [child]
  ext k
  rw [member]
  split
  · next same =>
    subst same
    simp [or_comm]
  · next other => simp [other]

theorem childQuota_split {quota nc : Nat} (tree : TreeIndexed c)
    (count : (c id).nchildren = nc) (room : nc < 3) (range : 3 * id + 3 < numIds)
    (used : (c id).used ≠ 0) (j : Nat) :
    childQuota (splitTable c id quota (3 * id + 1 + nc)) j =
      childQuota c j + if j = id then (quota : Int) else 0 := by
  have quotas : ∀ k, k ≠ 3 * id + 1 + nc →
      (splitTable c id quota (3 * id + 1 + nc) k).quota = (c k).quota := by
    intro k child
    by_cases self : k = id
    · rw [self, splitTable_self]
    · rw [splitTable_other child self]
  have fresh := tree.child_unused count room range
  have absent : ∀ i, 3 * id + 1 + nc ∉ childrenOf c i := fun i inside =>
    (mem_childrenOf.mp inside).1.2 fresh
  unfold childQuota
  rw [childrenOf_split tree count room range used j]
  split
  · next same =>
    subst same
    rw [Finset.sum_insert (absent j), splitTable_child, add_comm]
    congr 1
    exact Finset.sum_congr rfl fun k inside => quotas k (by rintro rfl; exact absent j inside)
  · rw [add_zero]
    exact Finset.sum_congr rfl fun k inside => quotas k (by rintro rfl; exact absent j inside)

/-- Nothing is a child of an unused container. -/
theorem TreeIndexed.childQuota_unused (tree : TreeIndexed c)
    (unused : (c id).used = 0) : childQuota c id = 0 := by
  have empty : childrenOf c id = ∅ := by
    apply Finset.eq_empty_of_forall_notMem
    intro j inside
    obtain ⟨⟨below, used⟩, different, parent⟩ := mem_childrenOf.mp inside
    by_cases zero : j = 0
    · subst zero
      rw [parentOf, tree.root.2] at parent
      exact different parent
    · have up := tree.parent j zero below used
      have place := ((tree.slot j zero below).mp used).1
      rw [parentOf, up, Int.toNat_natCast] at parent
      rw [parent] at place
      exact place unused
  rw [childQuota, empty, Finset.sum_empty]

theorem pagesOf_eq_zero {s : QuotaSys} (none : ∀ p, s.owner p ≠ some id) :
    pagesOf s id = 0 := by
  unfold pagesOf
  rw [Finset.card_eq_zero]
  exact Finset.filter_eq_empty_iff.mpr fun p _ => none p

/-- Handing a page to a container, or taking one away, changes one count by one. -/
theorem pagesOf_update {s s' : QuotaSys} {p : Nat} {new : Option Nat} (id : Nat)
    (pages : s'.mem.phys.nps = s.mem.phys.nps) (inside : p < s.mem.phys.nps)
    (owner : s'.owner = update s.owner p new) :
    pagesOf s' id + (if s.owner p = some id then 1 else 0) =
      pagesOf s id + (if new = some id then 1 else 0) := by
  unfold pagesOf
  rw [pages, owner]
  exact card_filter_update (Finset.mem_range.mpr inside) s.owner new (· = some id)

/-! ## Every operation keeps the invariant -/

theorem realQuota_le (m : PhysMem) (n : Nat) : realQuota m n ≤ n := by
  induction n with
  | zero => exact Nat.le_refl 0
  | succ n ih =>
    unfold realQuota
    split <;> omega

theorem quotaInit_inv (rows : List MmapRow) : QuotaInv (quotaInit rows) := by
  have small : realQuota (pmemInit rows) (getNps (pmemInit rows)) ≤ 1048576 := by
    refine (realQuota_le _ _).trans ?_
    rw [getNps, pmemInit_nps]
    exact countPages_le rows
  have quota32 : int32 (realQuota (pmemInit rows) (getNps (pmemInit rows)) : Int) =
      realQuota (pmemInit rows) (getNps (pmemInit rows)) := int32_of_range (by omega) (by omega)
  have root : (quotaInit rows).mem.container 0 =
      ⟨realQuota (pmemInit rows) (getNps (pmemInit rows)), 0, 0, 0, 1⟩ := by
    simp [quotaInit, containerInit, quota32]
  have rest : ∀ j, j ≠ 0 → (quotaInit rows).mem.container j = zeroContainer := by
    intro j other
    simp [quotaInit, containerInit, other]
  have tree : TreeIndexed (quotaInit rows).mem.container := by
    refine ⟨by simp [root], ?_, ?_, ?_⟩
    · intro j other _
      rw [rest j other]
      by_cases top : (j - 1) / 3 = 0
      · rw [top, root]
        simp [zeroContainer]
        omega
      · rw [rest _ top]
        simp [zeroContainer]
    · intro j other _ used
      rw [rest j other] at used
      exact absurd rfl used
    · intro j _ unused
      by_cases top : j = 0
      · rw [top, root] at unused
        simp at unused
      · exact rest j top
  have noPages : ∀ id, pagesOf (quotaInit rows) id = 0 := fun id =>
    pagesOf_eq_zero fun p => by simp [quotaInit]
  have noChildren : ∀ id, id < numIds → childQuota (quotaInit rows).mem.container id = 0 := by
    intro id below
    by_cases top : id = 0
    · apply Finset.sum_eq_zero
      intro j inside
      obtain ⟨_, different, _⟩ := mem_childrenOf.mp inside
      rw [rest j (by omega)]
      rfl
    · exact tree.childQuota_unused (by rw [rest id top]; rfl)
  have entry : ∀ id, (0 ≤ ((quotaInit rows).mem.container id).nchildren ∧
        ((quotaInit rows).mem.container id).nchildren ≤ 3) ∧
      ((quotaInit rows).mem.container id).quota < 2147483648 ∧
      ((quotaInit rows).mem.container id).usage = 0 ∧ 0 ≤ ((quotaInit rows).mem.container id).quota := by
    intro id
    by_cases top : id = 0
    · rw [top, root]
      dsimp only
      omega
    · simp [rest id top, zeroContainer]
  refine ⟨tree, fun id _ => (entry id).1, fun id _ => (entry id).2.1, fun id below => ?_, fun id _ => ?_,
    fun id _ => (entry id).2.2.1.ge, fun p id owner => ?_⟩
  · rw [noPages, noChildren id below, (entry id).2.2.1]
    exact Int.le_refl 0
  · rw [(entry id).2.2.1]
    exact (entry id).2.2.2
  · simp [quotaInit] at owner

section Steps
variable {s : QuotaSys}

theorem QuotaInv.childCount (inv : QuotaInv s) {id quota : Nat}
    (ok : (QuotaOp.split id quota).Allowed s) :
    ∃ nc : Nat, (s.mem.container id).nchildren = nc ∧ nc < 3 ∧ 3 * id + 3 < numIds ∧
      containerSplit s.mem id quota = (3 * id + 1 + nc,
        { s.mem with container := splitTable s.mem.container id quota (3 * id + 1 + nc) }) := by
  obtain ⟨below, used, room, range, fits⟩ := ok
  obtain ⟨fanLow, -⟩ := inv.fan id below
  have cast : (s.mem.container id).nchildren = ((s.mem.container id).nchildren.toNat : Int) := by
    omega
  simp only [maxChildren, numIds] at room range
  refine ⟨(s.mem.container id).nchildren.toNat, cast, by omega, by simp only [numIds]; omega, ?_⟩
  exact containerSplit_eq s.mem id quota _ cast (by omega) (by simp only [maxChildren, numIds]; omega)
    (inv.nonneg id below) fits (inv.bounds id below)

theorem QuotaInv.split (inv : QuotaInv s) {id quota : Nat}
    (ok : (QuotaOp.split id quota).Allowed s) : QuotaInv ((QuotaOp.split id quota).run s) := by
  obtain ⟨nc, count, room, range, result⟩ := inv.childCount ok
  obtain ⟨below, used, -, -, fits⟩ := ok
  have fresh := inv.tree.child_unused count room range
  have zero := inv.tree.unused _ (by omega) fresh
  have tree := @TreeIndexed.split _ _ quota _ inv.tree count room range used
  simp only [QuotaOp.run, result]
  have cases : ∀ j, j = 3 * id + 1 + nc ∨ j = id ∨ (j ≠ 3 * id + 1 + nc ∧ j ≠ id) := by
    intro j
    omega
  have entry : ∀ j, j < numIds → ∀ e, e = splitTable s.mem.container id quota (3 * id + 1 + nc) j →
      (0 ≤ e.nchildren ∧ e.nchildren ≤ 3) ∧ e.quota < 2147483648 ∧ e.usage ≤ e.quota ∧ 0 ≤ e.usage := by
    rintro j small e rfl
    have bound := inv.bounds id below
    have nonneg := inv.nonneg id below
    rcases cases j with rfl | rfl | ⟨child, self⟩
    · rw [splitTable_child]
      dsimp only
      omega
    · rw [splitTable_self]
      dsimp only
      omega
    · rw [splitTable_other child self]
      exact ⟨inv.fan j small, inv.bounds j small, inv.limited j small, inv.nonneg j small⟩
  refine ⟨tree, fun j small => (entry j small _ rfl).1, fun j small => (entry j small _ rfl).2.1, fun j small => ?_,
    fun j small => (entry j small _ rfl).2.2.1, fun j small => (entry j small _ rfl).2.2.2, fun p j owner => ?_⟩
  · have pages : pagesOf ⟨{ s.mem with
        container := splitTable s.mem.container id quota (3 * id + 1 + nc) }, s.owner⟩ j =
        pagesOf s j := rfl
    rw [pages]
    simp only [childQuota_split inv.tree count room range used j]
    have old := inv.charged j small
    rcases cases j with rfl | rfl | ⟨child, self⟩
    · rw [inv.tree.childQuota_unused fresh, zero] at old
      rw [inv.tree.childQuota_unused fresh]
      simp only [splitTable_child, zeroContainer] at old ⊢
      split <;> omega
    · simp only [splitTable_self, if_pos]
      omega
    · simp only [splitTable_other child self, if_neg self]
      omega
  · obtain ⟨inside, allocated, small, isUsed⟩ := inv.owned p j owner
    exact ⟨inside, allocated, small, (splitTable_used used j).mpr (.inl isUsed)⟩

/-- A change of one container's usage keeps everything the invariant says about
the shape of the tree; what remains is the accounting of that container. -/
theorem QuotaInv.recharge (inv : QuotaInv s) {id : Nat} {usage : Int} {phys : PhysMem}
    {owner : Nat → Option Nat} (below : id < numIds)
    (charged : ∀ j, j < numIds → ∀ container, (pagesOf ⟨⟨phys, container⟩, owner⟩ j : Int) ≤
      pagesOf s j + if j = id then usage - (s.mem.container id).usage else 0)
    (limited : usage ≤ (s.mem.container id).quota) (nonneg : 0 ≤ usage)
    (unused : (s.mem.container id).used = 0 → usage = 0)
    (owned : ∀ p j, owner p = some j → p < phys.nps ∧ atIsAllocated phys p = 1 ∧ j < numIds ∧
      (s.mem.container j).used ≠ 0) :
    QuotaInv ⟨⟨phys, update s.mem.container id
      { s.mem.container id with usage := usage }⟩, owner⟩ := by
  have field : ∀ j, update s.mem.container id
      { s.mem.container id with usage := usage } j =
      { s.mem.container j with usage := if j = id then usage else (s.mem.container j).usage } := by
    intro j
    by_cases self : j = id
    · subst self
      simp
    · simp [self]
  refine ⟨⟨?_, ?_, ?_, ?_⟩, ?_, ?_, ?_, ?_, ?_, ?_⟩ <;> simp only [field]
  · exact inv.tree.root
  · exact inv.tree.slot
  · exact inv.tree.parent
  · intro j small isUnused
    have old := inv.tree.unused j small isUnused
    by_cases self : j = id
    · subst self
      simp only [if_pos, unused isUnused]
      rw [old]
      rfl
    · simp only [if_neg self]
      exact old
  · exact inv.fan
  · exact inv.bounds
  · intro j small
    rw [childQuota_congr (c := s.mem.container) j (fun k _ => by simp [field])]
    have old := inv.charged j small
    have pages := charged j small (update s.mem.container id { s.mem.container id with usage := usage })
    simp only at pages
    split at pages
    · next self =>
      subst self
      rw [if_pos rfl]
      omega
    · next self =>
      rw [if_neg self]
      omega
  · intro j small
    split
    · next self => exact self ▸ limited
    · exact inv.limited j small
  · intro j small
    split
    · exact nonneg
    · exact inv.nonneg j small
  · exact owned

theorem QuotaInv.alloc (inv : QuotaInv s) {id : Nat} (below : id < numIds) :
    QuotaInv ((QuotaOp.alloc id).run s) := by
  have limited := inv.limited id below
  have nonneg := inv.nonneg id below
  simp only [QuotaOp.run, containerAlloc_eq s.mem id nonneg limited (inv.bounds id below)]
  split
  · exact inv
  · next room =>
    have used : (s.mem.container id).used ≠ 0 := by
      intro unused
      apply room
      rw [inv.tree.unused id below unused]
      rfl
    simp only
    have nps := palloc_nps s.mem.phys
    by_cases zero : (palloc s.mem.phys).1 = 0
    · rw [if_pos zero]
      refine inv.recharge below ?_ (by omega) (by omega) (fun unused => absurd unused used) ?_
      · intro j _ container
        simp only [pagesOf, nps]
        split <;> omega
      · intro p j owner
        obtain ⟨lt, allocated, small, isUsed⟩ := inv.owned p j owner
        exact ⟨by omega, palloc_keeps allocated, small, isUsed⟩
    · rw [if_neg zero]
      obtain ⟨first, phys⟩ := palloc_found zero
      have free := first.available.2
      have inside := first.below
      have unowned : s.owner (palloc s.mem.phys).1 = none := by
        cases owner : s.owner (palloc s.mem.phys).1 with
        | none => rfl
        | some j =>
          have := (inv.owned _ j owner).2.1
          omega
      refine inv.recharge below ?_ (by omega) (by omega) (fun unused => absurd unused used) ?_
      · intro j _ container
        have count := @pagesOf_update s ⟨⟨(palloc s.mem.phys).2, container⟩,
          update s.owner (palloc s.mem.phys).1 (some id)⟩ _ _ j nps inside rfl
        simp only [unowned, reduceCtorEq, if_false, Option.some.injEq, eq_comm (a := id)] at count
        split at count <;> split <;> omega
      · intro p j owner
        by_cases new : p = (palloc s.mem.phys).1
        · subst new
          rw [update_self] at owner
          cases owner
          refine ⟨by omega, ?_, below, used⟩
          rw [phys]
          exact (atIsAllocated_atSetAllocated ..).trans (if_pos rfl)
        · rw [update_of_ne new] at owner
          obtain ⟨lt, allocated, small, isUsed⟩ := inv.owned p j owner
          exact ⟨by omega, palloc_keeps allocated, small, isUsed⟩

theorem QuotaInv.free (inv : QuotaInv s) {id page : Nat}
    (ok : (QuotaOp.free id page).Allowed s) : QuotaInv ((QuotaOp.free id page).run s) := by
  obtain ⟨below, owner⟩ := ok
  obtain ⟨inside, allocated, -, used⟩ := inv.owned page id owner
  have count := fun (s' : QuotaSys) (nps : s'.mem.phys.nps = s.mem.phys.nps)
    (taken : s'.owner = update s.owner page none) (j : Nat) =>
    @pagesOf_update s s' _ _ j nps inside taken
  have children : ∀ j, 0 ≤ childQuota s.mem.container j := by
    intro j
    apply Finset.sum_nonneg
    intro k member
    have small := (mem_childrenOf.mp member).1.1
    exact (inv.nonneg k small).trans (inv.limited k small)
  have positive : 0 < (s.mem.container id).usage := by
    have one := count ⟨s.mem, update s.owner page none⟩ rfl rfl id
    rw [owner] at one
    simp only [if_true, reduceCtorEq, if_false] at one
    have old := inv.charged id below
    have := children id
    omega
  have bound := inv.bounds id below
  have limited := inv.limited id below
  have step : (QuotaOp.free id page).run s = ⟨⟨pfree s.mem.phys page,
      update s.mem.container id
        { s.mem.container id with usage := (s.mem.container id).usage - 1 }⟩,
      update s.owner page none⟩ := by
    simp only [QuotaOp.run, containerFree, allocated, if_true, if_pos positive,
      int32_of_range (x := (s.mem.container id).usage - 1) (by omega) (by omega)]
  rw [step]
  refine inv.recharge below ?_ (by omega) (by omega) (fun unused => absurd unused used) ?_
  · intro j _ container
    have one := count ⟨⟨pfree s.mem.phys page, container⟩, update s.owner page none⟩ rfl rfl j
    simp only [owner, reduceCtorEq, if_false, Option.some.injEq, eq_comm (a := id)] at one
    split at one <;> split <;> omega
  · intro p j taken
    by_cases freed : p = page
    · subst freed
      simp at taken
    · rw [update_of_ne freed] at taken
      obtain ⟨lt, isAllocated, small, isUsed⟩ := inv.owned p j taken
      refine ⟨lt, ?_, small, isUsed⟩
      rw [pfree, atIsAllocated_atSetAllocated, if_neg freed]
      exact isAllocated

end Steps

theorem QuotaReach.inv {rows : List MmapRow} {s : QuotaSys} (reach : QuotaReach rows s) :
    QuotaInv s := by
  induction reach with
  | init => exact quotaInit_inv rows
  | step op _ ok ih =>
    cases op with
    | split id quota => exact ih.split ok
    | alloc id => exact ih.alloc ok
    | free id page => exact ih.free ok

/-! ## The quota hierarchy -/

theorem QuotaInv.subtree_le {s : QuotaSys} (inv : QuotaInv s) (below : id < numIds)
    (used : (s.mem.container id).used ≠ 0) :
    ((∑ j ∈ Forest.subtree (usedIds s.mem.container) (parentOf s.mem.container) id,
      pagesOf s j : Nat) : Int) ≤ (s.mem.container id).quota := by
  have quotaNonneg : ∀ j, j < numIds → 0 ≤ (s.mem.container j).quota := fun j small =>
    (inv.nonneg j small).trans (inv.limited j small)
  have bound := @Forest.sum_subtree_le (usedIds s.mem.container) (parentOf s.mem.container)
    (pagesOf s) (fun j => (s.mem.container j).quota.toNat) numIds
    (fun j member => by simpa using (Finset.mem_filter.mp member).1)
    (by
      -- A child sits at `3 * parent + 1 + k`, so parents have smaller indices.
      intro j _ i isChild
      obtain ⟨⟨small, isUsed⟩, different, parent⟩ := mem_childrenOf.mp isChild
      by_cases top : j = 0
      · rw [parentOf, top, inv.tree.root.2] at parent
        omega
      · rw [parentOf, inv.tree.parent j top small isUsed, Int.toNat_natCast] at parent
        omega)
    (by
      intro i member
      have small : i < numIds := by simpa using (Finset.mem_filter.mp member).1
      have own := inv.charged i small
      have top := inv.limited i small
      have cast : ((∑ c ∈ childrenOf s.mem.container i, (s.mem.container c).quota.toNat : Nat) : Int) =
          childQuota s.mem.container i := by
        rw [Nat.cast_sum, childQuota]
        exact Finset.sum_congr rfl fun c inside =>
          Int.toNat_of_nonneg (quotaNonneg c (mem_childrenOf.mp inside).1.1)
      have goal : pagesOf s i + ∑ c ∈ childrenOf s.mem.container i, (s.mem.container c).quota.toNat ≤
          (s.mem.container i).quota.toNat := by
        omega
      exact goal)
    id (by simp [usedIds, below, used])
  have := quotaNonneg id below
  omega

/-- In every reachable state: a split returns an id below `NUM_IDS` that was unused;
every used container's pages and its children's quotas are covered by its usage, and
its usage by its quota; and so a whole subtree never holds more pages than the quota
at its root. -/
theorem quota_hierarchy (rows : List MmapRow) (s : QuotaSys) (reach : QuotaReach rows s) :
    (∀ id quota, (QuotaOp.split id quota).Allowed s →
      (containerSplit s.mem id quota).1 < numIds ∧
      (s.mem.container (containerSplit s.mem id quota).1).used = 0) ∧
    (∀ id, id < numIds → (s.mem.container id).used ≠ 0 →
      (pagesOf s id : Int) + childQuota s.mem.container id ≤ (s.mem.container id).usage ∧
      (s.mem.container id).usage ≤ (s.mem.container id).quota) ∧
    (∀ id, id < numIds → (s.mem.container id).used ≠ 0 →
      ((∑ j ∈ Forest.subtree (usedIds s.mem.container) (parentOf s.mem.container) id,
        pagesOf s j : Nat) : Int) ≤ (s.mem.container id).quota) := by
  have inv := reach.inv
  refine ⟨?_, ?_, ?_⟩
  · intro id quota ok
    obtain ⟨nc, count, room, range, result⟩ := inv.childCount ok
    rw [result]
    exact ⟨by simp only; omega, inv.tree.child_unused count room range⟩
  · intro id below _
    exact ⟨inv.charged id below, inv.limited id below⟩
  · intro id below used
    exact inv.subtree_le below used

theorem realQuota_pos (m : PhysMem) (n i : Nat) (low : 1 ≤ i) (high : i < n)
    (norm : atIsNorm m i = 1) (free : atIsAllocated m i = 0) : 0 < realQuota m n := by
  induction n with
  | zero => omega
  | succ n ih =>
    unfold realQuota
    split
    · omega
    · next skipped =>
      apply ih
      by_contra last
      have here : i = n := by omega
      subst here
      exact skipped ⟨low, norm, free⟩

theorem root_quota_pos (rows : List MmapRow) (i : Nat) (low : 1 ≤ i) (high : i < countPages rows)
    (norm : 2 ≤ pagePerm rows i) : 1 ≤ ((quotaInit rows).mem.container 0).quota := by
  have nps := pmemInit_nps rows
  have positive : 0 < realQuota (pmemInit rows) (pmemInit rows).nps := by
    apply realQuota_pos _ _ i low (by omega) _ (pmemInit_free rows i)
    rw [atIsNorm_eq_one, pmemInit_table, if_pos high]
    exact norm
  have small := realQuota_le (pmemInit rows) (pmemInit rows).nps
  have bound := countPages_le rows
  simp only [quotaInit, containerInit, update_self, getNps]
  rw [int32_of_range (by omega) (by omega)]
  omega

theorem onePage_quota : 1 ≤ ((quotaInit onePage).mem.container 0).quota :=
  root_quota_pos onePage 262144 (by decide) (by decide) (by decide)

theorem quotaInit_root (rows : List MmapRow) : (quotaInit rows).mem.container 0 =
    ⟨int32 (realQuota (pmemInit rows) (pmemInit rows).nps), 0, 0, 0, 1⟩ := by
  simp only [quotaInit, containerInit, update_self, getNps]

theorem onePage_split : QuotaReach onePage ((QuotaOp.split 0 1).run (quotaInit onePage)) := by
  have quota := onePage_quota
  have root := quotaInit_root onePage
  refine .step _ .init ⟨by decide, ?_, ?_, by decide, ?_⟩
  · rw [root]
    exact one_ne_zero
  · rw [root]
    decide
  · rw [root] at quota ⊢
    exact_mod_cast quota

theorem quota_hierarchy_onePage :
    let s := (QuotaOp.split 0 1).run (quotaInit onePage)
    QuotaReach onePage s ∧ (s.mem.container 1).used = 1 ∧
      ((pagesOf s 0 : Int) + childQuota s.mem.container 0 ≤ (s.mem.container 0).usage) := by
  have used : ∀ id, id = 0 ∨ id = 1 →
      (((QuotaOp.split 0 1).run (quotaInit onePage)).mem.container id).used = 1 := by
    rintro id (rfl | rfl) <;> decide
  refine ⟨onePage_split, used 1 (Or.inr rfl), ?_⟩
  have root := used 0 (Or.inl rfl)
  exact ((quota_hierarchy onePage _ onePage_split).2.1 0 (by decide) (by omega)).1

end OsAudio.Pmm

import OsAudio.Lib.CInt
import OsAudio.Pmm.AllocTable

/-!
# Containers

`kern/pmm/MContainer/MContainer.c`: the quota accounting of processes above the
page allocator.  The fields of `struct SContainer` are C `int`s; the functions
take and return `unsigned int`s, so the conversions are written out.
-/
namespace OsAudio.Pmm
open OsAudio.Lib

def numIds : Nat := 64
def maxChildren : Nat := 3

structure SContainer where
  quota : Int
  usage : Int
  parent : Int
  nchildren : Int
  used : Int
  deriving DecidableEq, Repr

/-- The allocation table together with `CONTAINER`. -/
structure Mem where
  phys : PhysMem
  container : Nat → SContainer

def zeroContainer : SContainer := ⟨0, 0, 0, 0, 0⟩

/-- The counting loop of `container_init`, over the pages from 1 up to `n`. -/
def realQuota (m : PhysMem) : Nat → Nat
  | 0 => 0
  | n + 1 =>
    if 1 ≤ n ∧ atIsNorm m n = 1 ∧ atIsAllocated m n = 0 then realQuota m n + 1
    else realQuota m n

def containerInit (rows : List MmapRow) : Mem :=
  let phys := pmemInit rows
  { phys := phys
    container := Function.update (fun _ => zeroContainer) 0
      ⟨int32 (realQuota phys (getNps phys)), 0, 0, 0, 1⟩ }

def containerGetNchildren (m : Mem) (id : Nat) : Nat := uint32 (m.container id).nchildren
def containerGetQuota (m : Mem) (id : Nat) : Nat := uint32 (m.container id).quota
def containerGetUsage (m : Mem) (id : Nat) : Nat := uint32 (m.container id).usage

/-- `usage + n > quota` with `n` unsigned: both sides are compared as unsigned
numbers and the sum wraps. -/
def containerCanConsume (m : Mem) (id n : Nat) : Nat :=
  if uint32 (m.container id).quota < (uint32 (m.container id).usage + n) % 4294967296 then 0 else 1

def containerSplit (m : Mem) (id quota : Nat) : Nat × Mem :=
  let nc := uint32 (m.container id).nchildren
  let child := (id * maxChildren + 1 + nc) % 4294967296
  let c1 := Function.update m.container child ⟨int32 quota, 0, int32 id, 0, 1⟩
  let c2 := Function.update c1 id
    { c1 id with
      usage := int32 (uint32 (c1 id).usage + quota)
      nchildren := int32 (nc + 1) }
  (child, { m with container := c2 })

def containerAlloc (m : Mem) (id : Nat) : Nat × Mem :=
  let u := uint32 (m.container id).usage
  let q := uint32 (m.container id).quota
  if u = q then (0, m)
  else
    let charged := Function.update m.container id
      { m.container id with usage := int32 (u + 1) }
    let (i, phys) := palloc m.phys
    (i, { phys := phys, container := charged })

def containerFree (m : Mem) (id pageIndex : Nat) : Mem :=
  if atIsAllocated m.phys pageIndex = 1 then
    let phys := pfree m.phys pageIndex
    if (m.container id).usage > 0 then
      { phys := phys
        container := Function.update m.container id
          { m.container id with usage := int32 ((m.container id).usage - 1) } }
    else { m with phys := phys }
  else m

end OsAudio.Pmm

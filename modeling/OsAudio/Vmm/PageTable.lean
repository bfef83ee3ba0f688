import OsAudio.Lib.Loop
import OsAudio.Pmm.Container

/-!
# Two-level page tables

`kern/vmm/MPTIntro/MPTIntro.c` (entries), `kern/vmm/MPTOp/MPTOp.c` (entries by virtual
address), `kern/vmm/MPTComm/MPTComm.c`, `kern/vmm/MPTKern/MPTKern.c` and
`kern/vmm/MPTNew/MPTNew.c`.  Page directories, the identity page tables and the page
tables inside allocated pages all live in one physical memory, addressed by bytes and
accessed one aligned word at a time.  The page-table spinlock is not represented.
-/
namespace OsAudio.Vmm
open OsAudio.Lib OsAudio.Pmm

def pteP : Nat := 0x001
def pteW : Nat := 0x002
def pteU : Nat := 0x004
def pteG : Nat := 0x100
def ptPermUp : Nat := 0
def ptPermPtu : Nat := pteP ||| pteW ||| pteU
def magicNumber : Nat := 1048577

/-- Where the linker puts `PDirPool` and `IDPTbl`, as page indices: both are page
aligned, disjoint and in kernel memory below `VM_USERLO`. -/
structure Layout where
  pdirPool : Nat
  idptbl : Nat
  pdirPool_kernel : pdirPool + numIds ≤ vmUserLoPi
  idptbl_kernel : idptbl + 1024 ≤ vmUserLoPi
  disjoint : idptbl + 1024 ≤ pdirPool ∨ pdirPool + numIds ≤ idptbl

/-- The placement in the built kernel, from the symbol table `obj/kern/kernel.sym`. -/
def kernelLayout : Layout :=
  ⟨0x00dcc000 / pageSize, 0x009cc000 / pageSize, by decide, by decide, by decide⟩

abbrev Ram := Nat → Nat

/-- Physical memory with the allocation table and the containers. -/
structure Vm where
  mem : Mem
  ram : Ram

variable (L : Layout)

/-- The address of `PDirPool[proc_index][pde_index]`. -/
def pdirAddr (procIndex pdeIndex : Nat) : Nat := (L.pdirPool + procIndex) * pageSize + pdeIndex * 4

/-- The address of `IDPTbl[pde_index][pte_index]`. -/
def idptblAddr (pdeIndex pteIndex : Nat) : Nat := (L.idptbl + pdeIndex) * pageSize + pteIndex * 4

/-! ## Entries -/

def getPdirEntry (ram : Ram) (procIndex pdeIndex : Nat) : Nat := ram (pdirAddr L procIndex pdeIndex)

def setPdirEntry (ram : Ram) (procIndex pdeIndex pageIndex : Nat) : Ram :=
  Function.update ram (pdirAddr L procIndex pdeIndex)
    ((pageIndex * pageSize + ptPermPtu) % 4294967296)

def setPdirEntryIdentity (ram : Ram) (procIndex pdeIndex : Nat) : Ram :=
  Function.update ram (pdirAddr L procIndex pdeIndex) (idptblAddr L pdeIndex 0 + ptPermPtu)

def rmvPdirEntry (ram : Ram) (procIndex pdeIndex : Nat) : Ram :=
  Function.update ram (pdirAddr L procIndex pdeIndex) ptPermUp

/-- `(PDirPool[proc_index][pde_index] & 0xfffff000) + pte_index * 4`. -/
def ptblAddr (ram : Ram) (procIndex pdeIndex pteIndex : Nat) : Nat :=
  getPdirEntry L ram procIndex pdeIndex / pageSize * pageSize + pteIndex * 4

def getPtblEntry (ram : Ram) (procIndex pdeIndex pteIndex : Nat) : Nat :=
  ram (ptblAddr L ram procIndex pdeIndex pteIndex)

def setPtblEntry (ram : Ram) (procIndex pdeIndex pteIndex pageIndex perm : Nat) : Ram :=
  Function.update ram (ptblAddr L ram procIndex pdeIndex pteIndex)
    ((pageIndex * pageSize + perm) % 4294967296)

def setPtblEntryIdentity (ram : Ram) (pdeIndex pteIndex perm : Nat) : Ram :=
  Function.update ram (idptblAddr L pdeIndex pteIndex)
    (((pdeIndex * 1024 + pteIndex) * pageSize + perm) % 4294967296)

def rmvPtblEntry (ram : Ram) (procIndex pdeIndex pteIndex : Nat) : Ram :=
  Function.update ram (ptblAddr L ram procIndex pdeIndex pteIndex) 0

/-! ## Entries by virtual address -/

def pdeOf (vaddr : Nat) : Nat := vaddr / (4096 * 1024)
def pteOf (vaddr : Nat) : Nat := vaddr / 4096 % 1024

def getPtblEntryByVa (ram : Ram) (procIndex vaddr : Nat) : Nat :=
  if getPdirEntry L ram procIndex (pdeOf vaddr) = 0 then 0
  else getPtblEntry L ram procIndex (pdeOf vaddr) (pteOf vaddr)

def getPdirEntryByVa (ram : Ram) (procIndex vaddr : Nat) : Nat :=
  getPdirEntry L ram procIndex (pdeOf vaddr)

def rmvPtblEntryByVa (ram : Ram) (procIndex vaddr : Nat) : Ram :=
  rmvPtblEntry L ram procIndex (pdeOf vaddr) (pteOf vaddr)

def setPtblEntryByVa (ram : Ram) (procIndex vaddr pageIndex perm : Nat) : Ram :=
  setPtblEntry L ram procIndex (pdeOf vaddr) (pteOf vaddr) pageIndex perm

def setPdirEntryByVa (ram : Ram) (procIndex vaddr pageIndex : Nat) : Ram :=
  setPdirEntry L ram procIndex (pdeOf vaddr) pageIndex

/-! ## Initialisation -/

def kernelPde (i : Nat) : Prop := i < 256 ∨ 960 ≤ i

instance (i : Nat) : Decidable (kernelPde i) := inferInstanceAs (Decidable (_ ∨ _))

/-- `idptbl_init`, after `container_init`. -/
def idptblInit (ram : Ram) : Ram :=
  upTo 1024 (fun i ram =>
    let perm := if kernelPde i then pteP ||| pteW ||| pteG else pteP ||| pteW
    upTo 1024 (fun j ram => setPtblEntryIdentity L ram i j perm) ram) ram

/-- The two loops of `pdir_init`. -/
def pdirInit (ram : Ram) : Ram :=
  upTo numIds (fun i ram =>
    upTo 1024 (fun j ram =>
      if kernelPde j then setPdirEntryIdentity L ram i j else rmvPdirEntry L ram i j) ram) ram

/-- The loop of `pdir_init_kern`: the directory of process 0 becomes the identity map. -/
def pdirInitKern (ram : Ram) : Ram :=
  upTo (960 - 256) (fun i ram => setPdirEntryIdentity L ram 0 (256 + i)) ram

/-- The state after `pdir_init_kern`, for any memory map and any contents of the
physical memory at power on. -/
def vmInit (rows : List MmapRow) (ram : Ram) : Vm :=
  ⟨containerInit rows, pdirInitKern L (pdirInit L (idptblInit L ram))⟩

/-! ## Allocation and mapping -/

def allocPtbl (s : Vm) (procIndex vadr : Nat) : Nat × Vm :=
  let (pi, mem) := containerAlloc s.mem procIndex
  if pi ≠ 0 then
    let ram := setPdirEntryByVa L s.ram procIndex vadr pi
    (pi, ⟨mem, upTo 1024 (fun i ram => rmvPtblEntry L ram procIndex (pdeOf vadr) i) ram⟩)
  else (pi, ⟨mem, s.ram⟩)

def mapPage (s : Vm) (procIndex vadr pageIndex perm : Nat) : Nat × Vm :=
  let (result, s) :=
    if getPdirEntryByVa L s.ram procIndex vadr ≠ 0 then (0, s)
    else
      let (result, s) := allocPtbl L s procIndex vadr
      (if result = 0 then magicNumber else result, s)
  if result ≠ magicNumber then
    (result, ⟨s.mem, setPtblEntryByVa L s.ram procIndex vadr pageIndex perm⟩)
  else (result, s)

def unmapPage (s : Vm) (procIndex vadr : Nat) : Nat × Vm :=
  let ptblEntry := getPtblEntryByVa L s.ram procIndex vadr
  if ptblEntry ≠ 0 then (ptblEntry, ⟨s.mem, rmvPtblEntryByVa L s.ram procIndex vadr⟩)
  else (ptblEntry, s)

def allocPage (s : Vm) (procIndex vaddr perm : Nat) : Nat × Vm :=
  let (pi, mem) := containerAlloc s.mem procIndex
  if pi = 0 then (magicNumber, ⟨mem, s.ram⟩)
  else mapPage L ⟨mem, s.ram⟩ procIndex vaddr pi perm

/-- `alloc_mem_quota`. -/
def allocMemQuota (s : Vm) (id quota : Nat) : Nat × Vm :=
  let (child, mem) := containerSplit s.mem id quota
  (child, ⟨mem, s.ram⟩)

end OsAudio.Vmm

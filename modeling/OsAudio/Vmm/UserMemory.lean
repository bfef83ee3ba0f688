import OsAudio.Vmm.FailedAlloc
import OsAudio.Vmm.UserCopy

/-!
# What copies do to user memory

The bytes a process sees at its addresses, and how `pt_copyin` and `pt_copyout` change them.
A copy that finds or gets a page for every address moves exactly the bytes it was asked to move;
whether it gets them depends on the number of missing pages and on what the process may still
allocate.
-/
namespace OsAudio.Vmm
open OsAudio.Lib OsAudio.Pmm

/-! ## Bytes in memory -/

theorem byteAt_lt (ram : Ram) (addr : Nat) : byteAt ram addr < 256 := Nat.mod_lt _ (by decide)

variable {ram : Ram}

theorem byteAt_congr {ram' : Ram} {addr : Nat} (same : ram' (addr / 4 * 4) = ram (addr / 4 * 4)) :
    byteAt ram' addr = byteAt ram addr := by
  unfold byteAt
  rw [same]

theorem byteAt_storeByte (ram : Ram) {addr value : Nat} (small : value < 256) (other : Nat) :
    byteAt (storeByte ram addr value) other =
      if other = addr then value else byteAt ram other := by
  by_cases word : other / 4 * 4 = addr / 4 * 4
  · unfold byteAt storeByte
    rw [word, Function.update_self]
    generalize ram (addr / 4 * 4) = old
    have place : addr % 4 = 0 ∨ addr % 4 = 1 ∨ addr % 4 = 2 ∨ addr % 4 = 3 := by omega
    have offset : other % 4 = 0 ∨ other % 4 = 1 ∨ other % 4 = 2 ∨ other % 4 = 3 := by omega
    have same : other = addr ↔ other % 4 = addr % 4 := by omega
    rw [if_congr same rfl rfl]
    rcases place with place | place | place | place <;>
      rcases offset with offset | offset | offset | offset <;>
        rw [place, offset] <;> norm_num <;> omega
  · have different : other ≠ addr := fun equal => word (by rw [equal])
    rw [if_neg different]
    exact byteAt_congr (storeByte_other (Ne.symm word))

/-- A loop that stores known bytes one after the other. -/
theorem byteAt_stores {ram : Ram} {dst size : Nat} {value : Nat → Ram → Nat} {bytes : Nat → Nat}
    (fits : dst + size ≤ word) (small : ∀ i, i < size → bytes i < 256)
    (known : ∀ i (after : Ram), i < size →
      (∀ b, b < dst ∨ dst + size ≤ b → byteAt after b = byteAt ram b) → value i after = bytes i)
    (b : Nat) :
    byteAt (upTo size (fun i ram => storeByte ram ((dst + i) % word) (value i ram)) ram) b =
      if dst ≤ b ∧ b < dst + size then bytes (b - dst) else byteAt ram b := by
  revert b
  refine upTo_invariant (fun n (after : Ram) => ∀ b, byteAt after b =
    if dst ≤ b ∧ b < dst + n then bytes (b - dst) else byteAt ram b) ?_ size ?_
  · intro b
    rw [if_neg (by omega)]
  · intro i after below stored b
    have place : (dst + i) % word = dst + i := Nat.mod_eq_of_lt (by omega)
    have read : value i after = bytes i := by
      refine known i after below fun b outside => ?_
      rw [stored b, if_neg (by omega)]
    rw [place, read, byteAt_storeByte after (small i below) b, stored b]
    by_cases last : b = dst + i
    · rw [if_pos last, if_pos (by omega), last, Nat.add_sub_cancel_left]
    · rw [if_neg last]
      exact if_congr (by omega) rfl rfl

/-- `memcpy` between places that do not overlap. -/
theorem byteAt_memcpy {dst src size : Nat} (fits : dst + size ≤ word)
    (source : src + size ≤ word) (apart : dst + size ≤ src ∨ src + size ≤ dst) (b : Nat) :
    byteAt (memcpy ram dst src size) b =
      if dst ≤ b ∧ b < dst + size then byteAt ram (src + (b - dst)) else byteAt ram b := by
  refine @byteAt_stores ram dst size (fun i after => byteAt after ((src + i) % word))
    (fun i => byteAt ram (src + i)) fits (fun i _ => byteAt_lt ram _) ?_ b
  intro i after below same
  have place : (src + i) % word = src + i := Nat.mod_eq_of_lt (by omega)
  rw [place]
  exact same _ (by omega)

/-- `memcpy` from anywhere changes no byte outside its destination. -/
theorem byteAt_memcpy_outside {dst src size b : Nat} (fits : dst + size ≤ word)
    (outside : b < dst ∨ dst + size ≤ b) : byteAt (memcpy ram dst src size) b = byteAt ram b := by
  refine upTo_invariant (fun _ (after : Ram) => byteAt after b = byteAt ram b) rfl size ?_
  intro i after below same
  have place : (dst + i) % word = dst + i := Nat.mod_eq_of_lt (by omega)
  rw [place, byteAt_storeByte after (byteAt_lt after _) b, if_neg (by omega), same]

/-! ## The memory of a process -/

/-- The byte at an address of a process, if its page is present. -/
def userByte (L : Layout) (ram : Ram) (pid va : Nat) : Option Nat :=
  (userFrame L ram pid (va / pageSize)).map fun frame =>
    byteAt ram (frame * pageSize + va % pageSize)

def UserAddr (va : Nat) : Prop := vmUserLo ≤ va ∧ va < vmUserHi

instance (va : Nat) : Decidable (UserAddr va) := inferInstanceAs (Decidable (_ ∧ _))

/-- A word of kernel memory that is no entry of a page directory. -/
structure KernelWord (L : Layout) (w : Nat) : Prop where
  kernel : w < vmUserLo
  pdirs : w < L.pdirPool * pageSize ∨ (L.pdirPool + numIds) * pageSize ≤ w

section Memory
variable {L : Layout} {base : Ram} {s : Vm} {pid va perm : Nat}

theorem UserAddr.page (user : UserAddr va) : UserPage (va / pageSize) :=
  (userPage_of_range user.1 user.2).1

variable {ram : Ram} {a : Access} {v page kva len : Nat} {t : Vm}

theorem userByte_eq_some {b : Nat} : userByte L ram pid va = some b ↔
    ∃ frame, userFrame L ram pid (va / pageSize) = some frame ∧
      byteAt ram (frame * pageSize + va % pageSize) = b := by
  unfold userByte
  rw [Option.map_eq_some_iff]

theorem userFrame_eq_none {ram : Ram} {va : Nat} :
    userFrame L ram pid (va / pageSize) = none ↔ getPtblEntryByVa L ram pid va % 2 = 0 := by
  rw [userFrame_eq]
  split
  · next present => simp [present, pteP]
  · next absent =>
    unfold pteP at absent
    simp only [true_iff]
    omega

theorem Access.mapped_iff :
    a.Mapped L pid ↔ ∃ frame, userFrame L a.vm.ram pid (a.va / pageSize) = some frame := by
  rw [← Option.ne_none_iff_exists', ne_eq, userFrame_eq_none]
  unfold Access.Mapped pteP
  omega

theorem Isolated.frame_user (inv : Isolated L base s) (proc : UserProc pid) {frame : Nat}
    (page : UserPage v) (mapped : userFrame L s.ram pid v = some frame) :
    vmUserLoPi ≤ frame ∧ frame < vmUserHiPi :=
  inv.normal frame (inv.owned (.frame pid v) frame ⟨proc, page⟩ mapped).1

/-- What `alloc_page` for `va` leaves as it was: all pages that are in use, their contents, the
pages of other addresses and the kernel's memory. -/
structure Extends (L : Layout) (pid va : Nat) (s t : Vm) : Prop where
  slots : ∀ slot : Slot, slot.User →
    slot.page L s.ram ≠ none ∨ slot ≠ .frame pid (va / pageSize) ∧ slot ≠ .table pid (pdeOf va) →
    slot.page L t.ram = slot.page L s.ram
  frames : ∀ p v frame, UserProc p → UserPage v → userFrame L s.ram p v = some frame →
    ∀ w, w / pageSize = frame → t.ram w = s.ram w
  kernel : ∀ w, KernelWord L w → t.ram w = s.ram w

theorem Extends.refl (s : Vm) : Extends L pid va s s :=
  ⟨fun _ _ _ => rfl, fun _ _ _ _ _ _ _ _ => rfl, fun _ _ => rfl⟩

theorem Extends.keeps (grown : Extends L pid va s t) {slot : Slot}
    (user : slot.User) (refers : slot.page L s.ram = some page) : slot.page L t.ram = some page := by
  refine (grown.slots slot user (Or.inl ?_)).trans refers
  rw [refers]
  nofun

/-- What `alloc_page` for `va` leaves as it was, if there may be a page at `va` before. -/
structure Remaps (L : Layout) (pid va : Nat) (s t : Vm) : Prop where
  slots : ∀ slot : Slot, slot.User → slot ≠ .frame pid (va / pageSize) →
    slot.page L s.ram ≠ none ∨ slot ≠ .table pid (pdeOf va) → slot.page L t.ram = slot.page L s.ram
  frames : ∀ p v frame, UserProc p → UserPage v → userFrame L s.ram p v = some frame →
    ∀ w, w / pageSize = frame → t.ram w = s.ram w
  kernel : ∀ w, KernelWord L w → t.ram w = s.ram w

theorem Extends.remaps (grown : Extends L pid va s t) : Remaps L pid va s t :=
  ⟨fun slot user other same => grown.slots slot user (same.imp_right fun table => ⟨other, table⟩),
    grown.frames, grown.kernel⟩

theorem Extends.trans_remaps {u : Vm} (first : Extends L pid va s t) (second : Remaps L pid va t u) :
    Remaps L pid va s u := by
  refine ⟨fun slot user other same => ?_, fun p v frame user userPage mapped w inside => ?_,
    fun w kernel => ?_⟩
  · have once := first.slots slot user (same.imp_right fun table => ⟨other, table⟩)
    refine (second.slots slot user other ?_).trans once
    rwa [once]
  · have slot : (Slot.frame p v).User := ⟨user, userPage⟩
    have still := first.keeps slot mapped
    rw [second.frames p v frame user userPage still w inside]
    exact first.frames p v frame user userPage mapped w inside
  · rw [second.kernel w kernel, first.kernel w kernel]

/-- A page that was missing is new. -/
theorem Remaps.extends (remaps : Remaps L pid va s t)
    (missing : userFrame L s.ram pid (va / pageSize) = none) : Extends L pid va s t := by
  refine ⟨fun slot user same => remaps.slots slot user ?_ (same.imp_right And.right), remaps.frames,
    remaps.kernel⟩
  rintro rfl
  rcases same with used | other
  · exact used missing
  · exact other.1 rfl

theorem Extends.userByte {t : Vm} {addr : Nat} (grown : Extends L pid va s t) {p : Nat}
    (proc : UserProc p) (user : UserAddr addr) {b : Nat}
    (seen : Vmm.userByte L s.ram p addr = some b) : Vmm.userByte L t.ram p addr = some b := by
  obtain ⟨frame, mapped, value⟩ := userByte_eq_some.mp seen
  have slot : (Slot.frame p (addr / pageSize)).User := ⟨proc, user.page⟩
  refine userByte_eq_some.mpr ⟨frame, grown.keeps slot mapped, ?_⟩
  rw [← value]
  refine byteAt_congr (grown.frames p _ frame proc user.page mapped _ ?_)
  have offset : addr % pageSize < pageSize := Nat.mod_lt _ (by decide)
  unfold pageSize at *
  omega

section
variable (inv : Isolated L base s)
include inv

/-- A new page table in an empty directory entry. -/
theorem Isolated.withTable_extends (proc : UserProc pid) (pde : UserPde (pdeOf va))
    (fresh : Fresh L s page) (empty : tablePage L s.ram pid (pdeOf va) = none) :
    Extends L pid va s ⟨s.mem, Vmm.withTable L s.ram pid (pdeOf va) page⟩ := by
  have range := inv.normal page fresh.norm
  have index : pdeOf va < 1024 := pde.lt
  have kept := (@withTable_entry L s.ram pid (pdeOf va) page proc.2 index range.1 range.2).2.2
  refine ⟨fun slot user same => ?_, fun p v frame user userPage mapped w inside => ?_,
    fun w kernel => ?_⟩
  · obtain ⟨-, through, rest⟩ := inv.withTable_slot fresh proc pde slot user
    by_cases behind : slot.Through pid (pdeOf va)
    · refine (through behind).trans ?_
      cases slot with
      | table q j => exact behind.elim
      | frame q v =>
        obtain ⟨rfl, equal⟩ := behind
        exact (userFrame_none (equal ▸ empty)).symm
    · refine rest ?_ behind
      rintro rfl
      rcases same with used | other
      · exact used empty
      · exact other.2 rfl
  · have low := (inv.frame_user user userPage mapped).1
    refine kept w (fun entry => ?_) fun j small address => ?_
    · have kernel := L.pdirPool_kernel
      have := proc.2
      simp only [entry, pdirAddr, pageSize] at inside
      omega
    · have equal : frame = page := by
        simp only [address, pageSize] at inside
        omega
      exact fresh.unused (.frame p v) ⟨user, userPage⟩ (equal ▸ mapped)
  · obtain ⟨low, outside⟩ := kernel
    refine kept w (fun entry => ?_) fun j small address => ?_
    · have := proc.2
      simp only [pdirAddr, pageSize] at entry outside
      omega
    · have high := range.1
      simp only [vmUserLoPi, vmUserLo, pageSize] at address low high
      omega

/-- A frame mapped at an address. -/
theorem Isolated.setPtblEntryByVa_remaps (proc : UserProc pid) (user : UserAddr va)
    (fresh : Fresh L s page) (bits : perm < 4096) (present : perm % 2 = pteP)
    (registered : getPdirEntry L s.ram pid (pdeOf va) ≠ 0) :
    Remaps L pid va s ⟨s.mem, Vmm.setPtblEntryByVa L s.ram pid va page perm⟩ := by
  obtain ⟨userPage, pde, pdeEq, pteEq⟩ := userPage_of_range user.1 user.2
  have table := tablePage_eq_some registered
  have range := inv.table_user proc pde table
  have effect := inv.setPtblEntry_page proc userPage (pdeEq ▸ table) (inv.normal page fresh.norm).2
    bits present
  rw [← pdeEq, ← pteEq] at effect
  have target : ptblAddr L s.ram pid (pdeOf va) (pteOf va) / pageSize =
      getPdirEntry L s.ram pid (pdeOf va) / pageSize := by
    unfold ptblAddr pteOf pageSize
    omega
  have other : ∀ w, w / pageSize ≠ getPdirEntry L s.ram pid (pdeOf va) / pageSize →
      Vmm.setPtblEntryByVa L s.ram pid va page perm w = s.ram w := by
    intro w outside
    refine Function.update_of_ne (fun address => outside ?_) _ _
    rw [address, target]
  refine ⟨fun slot user different _ => (effect slot user).trans (if_neg different),
    fun p v frame user userPage mapped w inside => ?_, fun w kernel => ?_⟩
  · refine other w fun same => ?_
    have equal : getPdirEntry L s.ram pid (pdeOf va) / pageSize = frame := by rw [← same, inside]
    rw [equal] at table
    exact absurd (inv.distinct (.frame p v) (.table pid (pdeOf va)) frame ⟨user, userPage⟩ ⟨proc, pde⟩
      mapped table) nofun
  · refine other w fun same => ?_
    have low := kernel.kernel
    have high := range.1
    rw [← same] at high
    simp only [vmUserLoPi, vmUserLo, pageSize] at low high
    omega

theorem Isolated.ne_magic (id : Nat) : (containerAlloc s.mem id).1 ≠ magicNumber := by
  intro magic
  rcases alloc : containerAlloc s.mem id with ⟨page, mem⟩
  rw [alloc] at magic
  dsimp only at magic
  have nonzero : page ≠ 0 := by
    rw [magic]
    decide
  have high := (inv.normal page ((containerAlloc_page alloc).2.2 nonzero).1).2
  rw [magic] at high
  exact absurd high (by decide)

theorem Isolated.allocPage_remaps (proc : UserProc pid) (user : UserAddr va) (bits : perm < 4096)
    (present : perm % 2 = pteP) : Remaps L pid va s (Vmm.allocPage L s pid va perm).2 := by
  obtain ⟨-, pde, -, -⟩ := userPage_of_range user.1 user.2
  have charged : ∀ mem, Extends L pid va s ⟨mem, s.ram⟩ := fun mem =>
    ⟨fun _ _ _ => rfl, fun _ _ _ _ _ _ _ _ => rfl, fun _ _ => rfl⟩
  rcases allocPage_cases s pid va perm with ⟨-, result⟩ | ⟨found, result⟩
  · rw [result]
    exact (charged _).remaps
  obtain ⟨allocated, new⟩ := inv.alloc (rfl : containerAlloc s.mem pid = (_, _))
  have fresh := new found
  rw [result]
  rcases mapPage_cases ⟨(containerAlloc s.mem pid).2, s.ram⟩ pid va (containerAlloc s.mem pid).1 perm
    (allocated.ne_magic pid) with ⟨registered, mapped⟩ | ⟨-, -, mapped⟩ | ⟨empty, again, mapped⟩
  · rw [mapped]
    exact (charged _).trans_remaps
      (allocated.setPtblEntryByVa_remaps proc user fresh bits present registered)
  · rw [mapped]
    exact (charged _).remaps
  · rw [mapped]
    obtain ⟨later, newTable⟩ := allocated.alloc (rfl : containerAlloc _ pid = (_, _))
    obtain ⟨still, different⟩ := fresh.alloc (rfl : containerAlloc _ pid = (_, _))
    have noTable : tablePage L s.ram pid (pdeOf va) = none := by
      simp only [tablePage, if_pos (show getPdirEntry L s.ram pid (pdeOf va) = 0 from empty)]
    have range := later.normal _ (newTable again).norm
    have index : pdeOf va < 1024 := pde.lt
    have entry := (@withTable_entry L s.ram pid (pdeOf va) _ proc.2 index range.1 range.2).1
    obtain ⟨kept, keptFresh⟩ := later.withTable (newTable again) proc pde
    have tabled := later.withTable_extends proc pde (newTable again) noTable
    refine Extends.trans_remaps ⟨tabled.slots, tabled.frames, tabled.kernel⟩
      (kept.setPtblEntryByVa_remaps proc user (keptFresh _ still (different again).symm) bits present ?_)
    rw [entry, ptPermPtu_eq]
    exact Nat.succ_ne_zero _

/-- The start of a round of a copy. -/
theorem Isolated.touch_extends (proc : UserProc pid) (user : UserAddr va) :
    Extends L pid va s (Vmm.touch L s pid va).2 := by
  unfold Vmm.touch
  by_cases missing : getPtblEntryByVa L s.ram pid va % 2 = 0
  · rw [if_pos missing]
    exact (inv.allocPage_remaps proc user (by decide) (by decide)).extends (userFrame_eq_none.mpr missing)
  · rw [if_neg missing]
    exact .refl s

end

/-! ## Pieces -/

theorem Leaves.userFrame (leaves : Leaves L s ram) (proc : UserProc pid)
    (page : UserPage v) : Vmm.userFrame L ram pid v = Vmm.userFrame L s.ram pid v := by
  have pde := userPde_of_page page
  have small := pde.2
  refine userFrame_congr (leaves.pdirs pid _ proc.2 (by omega)) fun table registered => ?_
  exact leaves.tables pid _ table proc pde registered _ (by omega)

section
variable (inv : Isolated L base s) (proc : UserProc pid)
include inv proc

/-- Stores into a frame of a process change the bytes of its page and no others. -/
theorem Isolated.frame_userByte {frame q : Nat} (page : UserPage v)
    (refers : Vmm.userFrame L s.ram pid v = some frame)
    (same : ∀ w, w / pageSize ≠ frame → ram w = s.ram w) (proc' : UserProc q) (user : UserAddr va) :
    userByte L ram q va = if q = pid ∧ va / pageSize = v then
      some (byteAt ram (frame * pageSize + va % pageSize)) else userByte L s.ram q va := by
  unfold userByte
  rw [(inv.leaves_frame proc page refers same).userFrame proc' user.page]
  split
  · next here =>
    obtain ⟨rfl, rfl⟩ := here
    rw [refers, Option.map_some]
  · next elsewhere =>
    cases other : Vmm.userFrame L s.ram q (va / pageSize) with
    | none => rfl
    | some frame' =>
      have apart : frame' ≠ frame := by
        rintro rfl
        have slots := inv.distinct (.frame q (va / pageSize)) (.frame pid v) frame' ⟨proc', user.page⟩
          ⟨proc, page⟩ other refers
        exact elsewhere (by simpa using slots)
      rw [Option.map_some, Option.map_some]
      refine congrArg some (byteAt_congr (same _ fun inside => apart ?_))
      unfold pageSize at *
      omega

/-- Copying out changes the bytes of the piece and no others. -/
theorem Isolated.copyout_userByte (shaped : a.Shaped L pid) (state : a.vm = s)
    (first : UserAddr a.va) (mapped : a.Mapped L pid) {q : Nat} (kernel : kva + a.size ≤ vmUserLo)
    (proc' : UserProc q) (user : UserAddr va) :
    userByte L (Direction.copyout.move s.ram kva a.pa a.size) q va =
      if q = pid ∧ a.va ≤ va ∧ va < a.va + a.size then some (byteAt s.ram (kva + (va - a.va)))
      else userByte L s.ram q va := by
  obtain ⟨frame, refers, place, low, high⟩ := inv.piece_frame proc shaped state first.1 first.2 mapped
  have inside := shaped.inside
  have outside : ∀ w, w / pageSize ≠ frame → Direction.copyout.move s.ram kva a.pa a.size w = s.ram w := by
    intro w elsewhere
    refine memcpy_other fun i below same => elsewhere ?_
    rw [← same, place]
    simp only [vmUserHiPi, vmUserHi, pageSize, word] at *
    omega
  have copied : ∀ b, byteAt (Direction.copyout.move s.ram kva a.pa a.size) b =
      if a.pa ≤ b ∧ b < a.pa + a.size then byteAt s.ram (kva + (b - a.pa)) else byteAt s.ram b := by
    simp only [vmUserLoPi, vmUserHiPi, vmUserLo, vmUserHi, pageSize] at low high kernel inside place
    refine byteAt_memcpy ?_ ?_ ?_
    · unfold word
      omega
    · unfold word
      omega
    · omega
  rw [inv.frame_userByte proc first.page refers outside proc' user]
  by_cases page : q = pid ∧ va / pageSize = a.va / pageSize
  · rw [if_pos page, copied, place]
    obtain ⟨rfl, page⟩ := page
    have seen : userByte L s.ram q va = some (byteAt s.ram (frame * pageSize + va % pageSize)) :=
      userByte_eq_some.mpr ⟨frame, page ▸ refers, rfl⟩
    unfold pageSize at *
    by_cases within : a.va ≤ va ∧ va < a.va + a.size
    · rw [if_pos (by omega), if_pos ⟨rfl, within⟩]
      congr 2
      omega
    · rw [if_neg (by omega), if_neg fun both => within both.2, seen]
  · rw [if_neg page, if_neg (by unfold pageSize at *; omega)]

/-- Stores into a kernel buffer leave the memory of all processes alone. -/
theorem Isolated.buffer_userByte {size : Nat} (buffer : KernelBuffer L kva len) (bound : size ≤ len)
    (outside : ∀ other, (∀ i, i < size → (kva + i) % word / 4 * 4 ≠ other) → ram other = s.ram other)
    (user : UserAddr va) : userByte L ram pid va = userByte L s.ram pid va := by
  have same := (inv.leaves_buffer buffer bound outside).userFrame proc user.page
  have kernel := buffer.kernel
  unfold userByte
  rw [same]
  cases mapped : Vmm.userFrame L s.ram pid (va / pageSize) with
  | none => rfl
  | some frame =>
    have low := (inv.frame_user proc user.page mapped).1
    rw [Option.map_some, Option.map_some]
    refine congrArg some (byteAt_congr (outside _ fun i below => ?_))
    simp only [vmUserLoPi, vmUserLo, pageSize, word] at *
    omega

end

theorem KernelBuffer.shorter {less : Nat} (buffer : KernelBuffer L kva len) (bound : less ≤ len) :
    KernelBuffer L kva less := by
  obtain ⟨kernel, pdirs, idptbl⟩ := buffer
  exact ⟨by omega, by omega, by omega⟩

theorem KernelBuffer.kernelWord {i : Nat} (buffer : KernelBuffer L kva len) (below : i < len) :
    KernelWord L ((kva + i) / 4 * 4) := by
  obtain ⟨kernel, pdirs, -⟩ := buffer
  refine ⟨by omega, ?_⟩
  unfold pageSize at *
  omega

/-- A piece copied out leaves the kernel's memory alone. -/
theorem Isolated.copyout_kernel (inv : Isolated L base s) (proc : UserProc pid)
    (shaped : a.Shaped L pid) (state : a.vm = s) (first : UserAddr a.va) (mapped : a.Mapped L pid)
    (kva : Nat) {w : Nat} (kernel : KernelWord L w) :
    Direction.copyout.move s.ram kva a.pa a.size w = s.ram w := by
  obtain ⟨frame, -, place, low, high⟩ := inv.piece_frame proc shaped state first.1 first.2 mapped
  have inside := shaped.inside
  have below := kernel.kernel
  refine memcpy_other fun i small => ?_
  simp only [vmUserLoPi, vmUserHiPi, vmUserLo, vmUserHi, pageSize, word] at *
  omega

/-! ## Rounds of the loop -/

section Rounds
variable {dir : Direction} {uva kva len : Nat} {a : Access}

section
variable (round : Round L base dir pid uva kva len s a)
include round

theorem Round.user : UserAddr uva := ⟨round.low, round.below⟩

theorem Round.grown (proc : UserProc pid) : Extends L pid uva s a.vm := by
  have grown := round.before.touch_extends proc round.user
  rwa [← round.touched] at grown

theorem Round.ahead (buffer : KernelBuffer L kva len) : (kva + a.size) % word = kva + a.size := by
  have kernel := buffer.kernel
  have bound := round.bound
  simp only [vmUserLo] at kernel
  exact Nat.mod_eq_of_lt (by simp only [word]; omega)

end

end Rounds

/-- The pieces of a copy that does not wrap around cover its range. -/
theorem copyLoop_covers {dir : Direction} {fuel uva : Nat} (enough : len ≤ fuel)
    (high : uva + len ≤ vmUserHi) (va : Nat) :
    (∃ a ∈ (copyLoop L dir pid fuel s uva kva len).accesses, a.va ≤ va ∧ va < a.va + a.size) ↔
      uva ≤ va ∧ va < uva + len := by
  induction fuel generalizing s uva kva len with
  | zero =>
    obtain rfl : len = 0 := Nat.le_zero.mp enough
    exact iff_of_false (by simp [copyLoop]) (by omega)
  | succ fuel ih =>
    by_cases done : len = 0
    · rw [copyLoop, if_pos done]
      exact iff_of_false (by simp) (by omega)
    obtain ⟨a, next, shaped, start, -, bound, -, rest, loop⟩ :=
      @copyLoop_succ L dir pid fuel uva kva len s done
    have positive := shaped.positive
    rw [loop, rest, word_of_range high bound]
    simp only [List.exists_mem_cons_iff]
    rw [ih (by omega) (by omega), start]
    omega

/-! ## Copying out -/

/-- From `s` to `t`, the bytes of a kernel buffer have been copied to user addresses. -/
structure CopiedOut (L : Layout) (base : Ram) (pid uva kva len : Nat) (s t : Vm) : Prop where
  isolated : Isolated L base t
  bytes : ∀ i, i < len → userByte L t.ram pid (uva + i) = some (byteAt s.ram (kva + i))
  others : ∀ va, UserAddr va → va < uva ∨ uva + len ≤ va → ∀ b,
    userByte L s.ram pid va = some b → userByte L t.ram pid va = some b
  kernel : ∀ w, KernelWord L w → t.ram w = s.ram w

theorem copyLoop_copyout {fuel uva : Nat} (inv : Isolated L base s) (proc : UserProc pid)
    (enough : len ≤ fuel) (low : vmUserLo ≤ uva) (high : uva + len ≤ vmUserHi)
    (buffer : KernelBuffer L kva len)
    (mapped : ∀ a ∈ (copyLoop L .copyout pid fuel s uva kva len).accesses, a.Mapped L pid) :
    CopiedOut L base pid uva kva len s (copyLoop L .copyout pid fuel s uva kva len).vm := by
  revert buffer mapped
  refine copyLoop_rounds (P := fun s uva kva len c => KernelBuffer L kva len →
    (∀ a ∈ c.accesses, a.Mapped L pid) → CopiedOut L base pid uva kva len s c.vm) proc
    (fun _ _ _ inv _ _ => ⟨inv, by omega, fun _ _ _ _ seen => seen, fun _ _ => rfl⟩) ?_ inv enough low high
    nofun
  intro s uva kva len a rest round later buffer mapped
  obtain ⟨here, mapped⟩ := List.forall_mem_cons.mp mapped
  have start := round.start
  have bound := round.bound
  have low := round.low
  have high := round.high
  have kernel := buffer.kernel
  have first : UserAddr a.va := start ▸ round.user
  have grown := round.grown proc
  obtain ⟨isolated, bytes, others, unchanged⟩ := later (fun _ => here) (buffer.advance bound) mapped
  rw [round.ahead buffer] at bytes
  have moved : ∀ va, UserAddr va → userByte L (a.moved .copyout kva).ram pid va = _ := fun va user =>
    round.isolated.copyout_userByte proc round.shaped rfl first here
      (show kva + a.size ≤ vmUserLo by omega) proc user
  have still : ∀ w, KernelWord L w → (a.moved .copyout kva).ram w = s.ram w := fun w word =>
    (round.isolated.copyout_kernel proc round.shaped rfl first here kva word).trans (grown.kernel w word)
  refine ⟨isolated, fun i below => ?_, fun va user outside b seen => ?_, fun w word => ?_⟩
  · have word := buffer.kernelWord below
    by_cases now : i < a.size
    · have user : UserAddr (uva + i) := ⟨by omega, by omega⟩
      refine others (uva + i) user (Or.inl (by omega)) _ ?_
      rw [moved _ user, start, if_pos (by omega), Nat.add_sub_cancel_left]
      exact congrArg some (byteAt_congr (grown.kernel _ word))
    · have delivered := bytes (i - a.size) (by omega)
      rw [show uva + a.size + (i - a.size) = uva + i by omega,
        show kva + a.size + (i - a.size) = kva + i by omega] at delivered
      exact delivered.trans (congrArg some (byteAt_congr (still _ word)))
  · refine others va user (by omega) b ?_
    rw [moved va user, start, if_neg (by omega)]
    exact grown.userByte proc user seen
  · exact (unchanged w word).trans (still w word)

/-! ## Copying in -/

/-- From `s` to `t`, bytes at user addresses have been copied to a kernel buffer. -/
structure CopiedIn (L : Layout) (base : Ram) (pid uva kva len : Nat) (s t : Vm) : Prop where
  isolated : Isolated L base t
  bytes : ∀ i, i < len → userByte L t.ram pid (uva + i) = some (byteAt t.ram (kva + i))
  memory : ∀ va, UserAddr va → ∀ b,
    userByte L s.ram pid va = some b → userByte L t.ram pid va = some b
  kernel : ∀ addr, KernelWord L (addr / 4 * 4) → addr < kva ∨ kva + len ≤ addr →
    byteAt t.ram addr = byteAt s.ram addr

/-- From `s` to `t`, those bytes at user addresses that are there have been copied to a kernel
buffer.  Pages before the range are as they were. -/
structure CopiedPresent (L : Layout) (base : Ram) (pid uva kva len : Nat) (s t : Vm) : Prop where
  isolated : Isolated L base t
  bytes : ∀ i, i < len → ∀ b, userByte L t.ram pid (uva + i) = some b → byteAt t.ram (kva + i) = b
  memory : ∀ va, UserAddr va → ∀ b,
    userByte L s.ram pid va = some b → userByte L t.ram pid va = some b
  kernel : ∀ addr, KernelWord L (addr / 4 * 4) → addr < kva ∨ kva + len ≤ addr →
    byteAt t.ram addr = byteAt s.ram addr
  pages : ∀ v, UserPage v → (len ≠ 0 → v < uva / pageSize) →
    userFrame L t.ram pid v = userFrame L s.ram pid v

/-- Bytes of a piece whose page is there. -/
theorem Isolated.copyin_byte (inv : Isolated L base s) (proc : UserProc pid)
    (shaped : a.Shaped L pid) (state : a.vm = s) (first : UserAddr a.va) {i b : Nat}
    (kernel : kva + a.size ≤ vmUserLo) (below : i < a.size)
    (seen : userByte L s.ram pid (a.va + i) = some b) :
    byteAt (Direction.copyin.move s.ram kva a.pa a.size) (kva + i) = b := by
  have inside := shaped.inside
  have page : (a.va + i) / pageSize = a.va / pageSize := by
    simp only [pageSize] at inside ⊢
    omega
  obtain ⟨frame, present, value⟩ := userByte_eq_some.mp seen
  rw [page] at present
  obtain ⟨frame', refers, place, low, high⟩ := inv.piece_frame proc shaped state first.1 first.2
    (Access.mapped_iff.mpr ⟨frame, state ▸ present⟩)
  obtain rfl : frame = frame' := Option.some.inj (present.symm.trans refers)
  simp only [vmUserLoPi, vmUserHiPi, vmUserLo, vmUserHi, pageSize] at low high kernel inside place value
  refine (byteAt_memcpy ?_ ?_ ?_ (kva + i)).trans ?_
  · unfold word
    omega
  · unfold word
    omega
  · omega
  · rw [if_pos (by omega), Nat.add_sub_cancel_left, place, ← value]
    refine congrArg (byteAt s.ram) ?_
    omega

section Copyin
variable {uva kva len : Nat} {a : Access}

/-- What a round of `pt_copyin` leaves alone. -/
theorem Round.copyin_keeps (round : Round L base .copyin pid uva kva len s a) (proc : UserProc pid) :
    (∀ va, UserAddr va → userByte L (a.moved .copyin kva).ram pid va = userByte L a.vm.ram pid va) ∧
    (∀ addr, KernelWord L (addr / 4 * 4) → addr < kva ∨ kva + a.size ≤ addr →
      byteAt (a.moved .copyin kva).ram addr = byteAt s.ram addr) ∧
    ∀ v, UserPage v → userFrame L (a.moved .copyin kva).ram pid v = userFrame L a.vm.ram pid v := by
  have buffer := round.buffer rfl
  have kernel := buffer.kernel
  have bound := round.bound
  have fits : kva + a.size ≤ word := by
    simp only [vmUserLo] at kernel
    simp only [word]
    omega
  refine ⟨fun va user => ?_, fun addr word outside => ?_, fun v page => ?_⟩
  · exact round.isolated.buffer_userByte proc buffer bound (fun _ => memcpy_other) user
  · exact (byteAt_memcpy_outside fits outside).trans (byteAt_congr ((round.grown proc).kernel _ word))
  · exact (round.leaves proc (by simp)).userFrame proc page

/-- The page of the first piece is not touched by the rounds after it. -/
theorem Round.copyin_page {t : Vm} (round : Round L base .copyin pid uva kva len s a) (proc : UserProc pid)
    (pages : ∀ v, UserPage v → (len - a.size ≠ 0 → v < (uva + a.size) / pageSize) →
      userFrame L t.ram pid v = userFrame L (a.moved .copyin kva).ram pid v) :
    userFrame L t.ram pid (uva / pageSize) = userFrame L a.vm.ram pid (uva / pageSize) := by
  have size := round.size
  have bound := round.bound
  refine (pages _ round.user.page fun more => ?_).trans ((round.copyin_keeps proc).2.2 _ round.user.page)
  unfold pageSize at *
  omega

theorem Round.samePage {dir : Direction} (round : Round L base dir pid uva kva len s a) {i : Nat}
    (below : i < a.size) : (uva + i) / pageSize = uva / pageSize := by
  have inside := round.start ▸ round.shaped.inside
  simp only [pageSize] at inside ⊢
  omega

theorem CopiedPresent.round {t : Vm} (round : Round L base .copyin pid uva kva len s a) (proc : UserProc pid)
    (later : CopiedPresent L base pid (uva + a.size) (kva + a.size) (len - a.size) (a.moved .copyin kva) t) :
    CopiedPresent L base pid uva kva len s t := by
  have buffer := round.buffer rfl
  have kernel := buffer.kernel
  have bound := round.bound
  have low := round.low
  have high := round.high
  have start := round.start
  have grown := round.grown proc
  have page := round.copyin_page proc later.pages
  obtain ⟨sameBytes, sameKernel, samePages⟩ := round.copyin_keeps proc
  refine ⟨later.isolated, fun i below b seen => ?_, fun va user b seen => ?_, fun addr word outside => ?_,
    fun v user before => ?_⟩
  · by_cases now : i < a.size
    · have user : UserAddr (uva + i) := ⟨by omega, by omega⟩
      -- The page was there when the piece was copied, with the byte that is there now.
      obtain ⟨frame, mapped, -⟩ := userByte_eq_some.mp seen
      rw [round.samePage now, page] at mapped
      have there : userByte L a.vm.ram pid (uva + i) = some _ :=
        userByte_eq_some.mpr ⟨frame, (round.samePage now).symm ▸ mapped, rfl⟩
      have now' := later.memory _ user _ ((sameBytes _ user).trans there)
      rw [later.kernel (kva + i) (buffer.kernelWord below) (Or.inl (by omega))]
      refine round.isolated.copyin_byte proc round.shaped rfl (start ▸ round.user) (by omega) now ?_
      rw [start, there, ← now', seen]
    · have delivered := later.bytes (i - a.size) (by omega) b
      rw [show uva + a.size + (i - a.size) = uva + i by omega,
        show kva + a.size + (i - a.size) = kva + i by omega] at delivered
      exact delivered seen
  · exact later.memory va user b ((sameBytes va user).trans (grown.userByte proc user seen))
  · rw [later.kernel addr word (by omega), sameKernel addr word (by omega)]
  · have positive := round.shaped.positive
    have earlier := before (by omega)
    rw [later.pages v user fun _ => Nat.lt_of_lt_of_le earlier (Nat.div_le_div_right (Nat.le_add_right _ _)),
      samePages v user]
    refine grown.slots (.frame pid v) ⟨proc, user⟩ (Or.inr ⟨fun same => ?_, nofun⟩)
    exact absurd (Slot.frame.inj same).2 (Nat.ne_of_lt earlier)

/-- `pt_copyin` copies what is there, and each of its pages is there at the end exactly if it was there
when it was copied. -/
theorem copyLoop_copyin_pages {fuel : Nat} (inv : Isolated L base s) (proc : UserProc pid)
    (enough : len ≤ fuel) (low : vmUserLo ≤ uva) (high : uva + len ≤ vmUserHi)
    (buffer : KernelBuffer L kva len) :
    CopiedPresent L base pid uva kva len s (copyLoop L .copyin pid fuel s uva kva len).vm ∧
    ((∀ a ∈ (copyLoop L .copyin pid fuel s uva kva len).accesses, a.Mapped L pid) ↔ ∀ i, i < len →
      userFrame L (copyLoop L .copyin pid fuel s uva kva len).vm.ram pid ((uva + i) / pageSize) ≠ none) := by
  refine copyLoop_rounds (P := fun s uva kva len c => CopiedPresent L base pid uva kva len s c.vm ∧
    ((∀ a ∈ c.accesses, a.Mapped L pid) ↔ ∀ i, i < len →
      userFrame L c.vm.ram pid ((uva + i) / pageSize) ≠ none)) proc (fun s uva kva inv => ?_)
    (fun s uva kva len a rest round later => ?_) inv enough low high fun _ => buffer
  · refine ⟨⟨inv, by omega, fun _ _ _ seen => seen, fun _ _ _ => rfl, fun _ _ _ => rfl⟩, ?_⟩
    exact iff_of_true nofun (by omega)
  have positive := round.shaped.positive
  have bound := round.bound
  obtain ⟨copied, pages⟩ := later nofun
  rw [round.ahead (round.buffer rfl)] at copied
  have page := round.copyin_page proc copied.pages
  refine ⟨.round round proc copied, ?_⟩
  have first : a.Mapped L pid ↔ userFrame L rest.vm.ram pid (uva / pageSize) ≠ none := by
    rw [page, Access.mapped_iff, round.start, Option.ne_none_iff_exists']
  rw [List.forall_mem_cons, pages, first]
  constructor
  · intro both i below
    by_cases now : i < a.size
    · rw [round.samePage now]
      exact both.1
    · have there := both.2 (i - a.size) (by omega)
      rwa [show uva + a.size + (i - a.size) = uva + i by omega] at there
  · intro all
    refine ⟨all 0 (by omega), fun i below => ?_⟩
    rw [Nat.add_assoc]
    exact all (a.size + i) (by omega)

theorem copyLoop_copyin {fuel : Nat} (inv : Isolated L base s) (proc : UserProc pid)
    (enough : len ≤ fuel) (low : vmUserLo ≤ uva) (high : uva + len ≤ vmUserHi)
    (buffer : KernelBuffer L kva len)
    (mapped : ∀ a ∈ (copyLoop L .copyin pid fuel s uva kva len).accesses, a.Mapped L pid) :
    CopiedIn L base pid uva kva len s (copyLoop L .copyin pid fuel s uva kva len).vm := by
  obtain ⟨copied, pages⟩ := @copyLoop_copyin_pages L base s pid uva kva len fuel inv proc enough low high
    buffer
  refine ⟨copied.isolated, fun i below => ?_, copied.memory, copied.kernel⟩
  obtain ⟨frame, there⟩ := Option.ne_none_iff_exists'.mp (pages.mp mapped i below)
  have seen := userByte_eq_some.mpr ⟨frame, there, rfl⟩
  rw [seen, copied.bytes i below _ seen]

end Copyin

end Memory

end OsAudio.Vmm

import OsAudio.Vmm.CopyPages

/-!
# Memories that differ in a buffer only

Two runs of the kernel whose memories differ in what a kernel buffer held before.  Page tables are
the same in both, so both do the same with them; a copy from those bytes of the buffer that have
been overwritten in both gives the processes the same memory.
-/
namespace OsAudio.Vmm
open OsAudio.Lib OsAudio.Pmm
open Function (update update_apply)

/-- The memories agree outside of the buffer of `size` bytes at `kva`, and on the first `n` bytes
of the buffer. -/
structure Alike (kva size n : Nat) (ram ram' : Ram) : Prop where
  words : ∀ w, (∀ i, i < size → (kva + i) % word / 4 * 4 ≠ w) → ram' w = ram w
  bytes : ∀ i, i < n → byteAt ram' (kva + i) = byteAt ram (kva + i)

section Stores
variable {kva size n : Nat} {ram ram' : Ram}

theorem Alike.update (alike : Alike kva size n ram ram') (addr value : Nat) :
    Alike kva size n (update ram addr value) (update ram' addr value) := by
  refine ⟨fun w outside => ?_, fun i below => ?_⟩
  · rw [update_apply, update_apply, alike.words w outside]
  · have same := alike.bytes i below
    unfold byteAt at same ⊢
    rw [update_apply, update_apply]
    split
    · rfl
    · exact same

theorem Alike.storeByte (alike : Alike kva size n ram ram') (addr : Nat) {value : Nat}
    (small : value < 256) :
    Alike kva size n (Vmm.storeByte ram addr value) (Vmm.storeByte ram' addr value) := by
  refine ⟨fun w outside => ?_, fun i below => ?_⟩
  · unfold Vmm.storeByte
    rw [update_apply, update_apply]
    split
    · next here =>
      rw [← here, alike.words w outside]
    · exact alike.words w outside
  · rw [byteAt_storeByte ram small, byteAt_storeByte ram' small, alike.bytes i below]

/-- The same bytes stored into the buffer become bytes both memories agree on. -/
theorem Alike.stores (alike : Alike kva size 0 ram ram') {bytes : Nat → Nat} {count : Nat}
    (fits : kva + count ≤ word) (small : ∀ i, bytes i < 256) :
    Alike kva size count
      (upTo count (fun i ram => Vmm.storeByte ram ((kva + i) % word) (bytes i)) ram)
      (upTo count (fun i ram => Vmm.storeByte ram ((kva + i) % word) (bytes i)) ram') := by
  refine upTo_relation (Alike kva size) alike count fun i after after' below same => ?_
  have stored := same.storeByte ((kva + i) % word) (small i)
  refine ⟨stored.words, fun j bound => ?_⟩
  by_cases last : j = i
  · have place : (kva + i) % word = kva + i := Nat.mod_eq_of_lt (by omega)
    rw [last, place, byteAt_storeByte _ (small i), byteAt_storeByte _ (small i), if_pos rfl, if_pos rfl]
  · exact stored.bytes j (by omega)

/-- A copy from the bytes both memories agree on. -/
theorem Alike.memcpy (alike : Alike kva size n ram ram') {dst start count : Nat}
    (inside : start + count ≤ n) (fits : kva + n ≤ word) :
    Alike kva size n (Vmm.memcpy ram dst (kva + start) count) (Vmm.memcpy ram' dst (kva + start) count) := by
  refine upTo_relation (fun _ => Alike kva size n) alike count fun i after after' below same => ?_
  have place : (kva + start + i) % word = kva + (start + i) := by
    rw [Nat.add_assoc]
    exact Nat.mod_eq_of_lt (by omega)
  rw [place, same.bytes (start + i) (by omega)]
  exact same.storeByte _ (byteAt_lt after _)

end Stores

section Tables
variable {L : Layout} {base : Ram} {s t : Vm} {kva size n pid va perm : Nat} {ram ram' : Ram}

theorem KernelBuffer.outside (buffer : KernelBuffer L kva size) {w : Nat}
    (apart : vmUserLo ≤ w ∨ ∃ p k, p < numIds ∧ k < 1024 ∧ w = pdirAddr L p k) :
    ∀ i, i < size → (kva + i) % word / 4 * 4 ≠ w := by
  obtain ⟨kernel, pdirs, -⟩ := buffer
  intro i below
  have place : (kva + i) % word = kva + i := by
    simp only [vmUserLo] at kernel
    exact Nat.mod_eq_of_lt (by simp only [word]; omega)
  rw [place]
  rcases apart with user | ⟨p, k, proc, pde, rfl⟩
  · omega
  · simp only [pdirAddr, pageSize] at pdirs ⊢
    omega

theorem Alike.pdirs (alike : Alike kva size n ram ram') (buffer : KernelBuffer L kva size) {p k : Nat}
    (proc : p < numIds) (pde : k < 1024) : getPdirEntry L ram' p k = getPdirEntry L ram p k :=
  alike.words _ (buffer.outside (Or.inr ⟨p, k, proc, pde, rfl⟩))

theorem Alike.sameTables (alike : Alike kva size n s.ram t.ram) (buffer : KernelBuffer L kva size)
    (inv : Isolated L base s) (mem : t.mem = s.mem) : SameTables L s t := by
  refine ⟨mem, fun p k proc pde => alike.pdirs buffer proc pde, fun p k page proc pde registered j small => ?_⟩
  refine alike.words _ (buffer.outside (Or.inl ?_))
  have user := (inv.table_user proc pde registered).1
  simp only [vmUserLoPi, vmUserLo, pageSize] at user ⊢
  omega

theorem Alike.setPtblEntryByVa (alike : Alike kva size n ram ram') (buffer : KernelBuffer L kva size)
    (proc : UserProc pid) (pde : pdeOf va < 1024) (page : Nat) :
    Alike kva size n (Vmm.setPtblEntryByVa L ram pid va page perm)
      (Vmm.setPtblEntryByVa L ram' pid va page perm) := by
  unfold Vmm.setPtblEntryByVa setPtblEntry ptblAddr
  rw [alike.pdirs buffer proc.2 pde]
  exact alike.update _ _

theorem Alike.withTable (alike : Alike kva size n ram ram') (buffer : KernelBuffer L kva size)
    (proc : UserProc pid) {k : Nat} (pde : k < 1024) (page : Nat) :
    Alike kva size n (Vmm.withTable L ram pid k page) (Vmm.withTable L ram' pid k page) := by
  refine upTo_relation (fun _ => Alike kva size n) (alike.update _ _) 1024 fun i after after' _ same => ?_
  unfold rmvPtblEntry ptblAddr
  rw [same.pdirs buffer proc.2 pde]
  exact same.update _ _

/-- What `map_page` does. -/
theorem mapPage_vm (page : Nat) (index : (containerAlloc s.mem pid).1 ≠ magicNumber) :
    (mapPage L s pid va page perm).2 =
      if getPdirEntry L s.ram pid (pdeOf va) ≠ 0 then
        ⟨s.mem, Vmm.setPtblEntryByVa L s.ram pid va page perm⟩
      else if (containerAlloc s.mem pid).1 = 0 then ⟨(containerAlloc s.mem pid).2, s.ram⟩
      else ⟨(containerAlloc s.mem pid).2, Vmm.setPtblEntryByVa L
        (Vmm.withTable L s.ram pid (pdeOf va) (containerAlloc s.mem pid).1) pid va page perm⟩ := by
  rcases mapPage_cases s pid va page perm index with ⟨registered, result⟩ | ⟨empty, none, result⟩ |
    ⟨empty, found, result⟩
  · rw [result, if_pos registered]
  · rw [result, if_neg (not_not.mpr empty), if_pos none]
  · rw [result, if_neg (not_not.mpr empty), if_neg found]

section
variable (alike : Alike kva size n s.ram t.ram) (buffer : KernelBuffer L kva size)
  (inv : Isolated L base s)
include alike buffer inv

section
variable (mem : t.mem = s.mem) (proc : UserProc pid) (user : UserAddr va)
include mem proc user

/-- `alloc_page` in memories that agree outside of the buffer. -/
theorem Alike.allocPage :
    Alike kva size n (Vmm.allocPage L s pid va perm).2.ram (Vmm.allocPage L t pid va perm).2.ram ∧
    (Vmm.allocPage L t pid va perm).2.mem = (Vmm.allocPage L s pid va perm).2.mem := by
  have pde : pdeOf va < 1024 := by
    have := (userPage_of_range user.1 user.2).2.1.2
    omega
  obtain ⟨allocated, -⟩ := inv.alloc (rfl : containerAlloc s.mem pid = (_, _))
  have index : (containerAlloc (containerAlloc s.mem pid).2 pid).1 ≠ magicNumber := allocated.ne_magic pid
  unfold Vmm.allocPage
  rw [mem]
  dsimp only
  split
  · exact ⟨alike, rfl⟩
  · rw [mapPage_vm _ index, mapPage_vm _ index, alike.pdirs buffer proc.2 pde]
    split
    · exact ⟨alike.setPtblEntryByVa buffer proc pde _, rfl⟩
    split
    · exact ⟨alike, rfl⟩
    · exact ⟨(alike.withTable buffer proc pde _).setPtblEntryByVa buffer proc pde _, rfl⟩

theorem Alike.touch :
    Alike kva size n (Vmm.touch L s pid va).2.ram (Vmm.touch L t pid va).2.ram ∧
    (Vmm.touch L t pid va).2.mem = (Vmm.touch L s pid va).2.mem := by
  have same := (alike.sameTables buffer inv mem).entry proc user.1 user.2
  unfold Vmm.touch
  rw [same]
  split
  · exact alike.allocPage buffer inv mem proc user
  · exact ⟨alike, mem⟩

/-- A process sees the same bytes in both memories. -/
theorem Alike.userByte : Vmm.userByte L t.ram pid va = Vmm.userByte L s.ram pid va := by
  have frames : userFrame L t.ram pid (va / pageSize) = userFrame L s.ram pid (va / pageSize) := by
    rw [userFrame_eq, userFrame_eq, (alike.sameTables buffer inv mem).entry proc user.1 user.2]
  unfold Vmm.userByte
  rw [frames]
  cases mapped : userFrame L s.ram pid (va / pageSize) with
  | none => rfl
  | some frame =>
    have low := (inv.frame_user proc user.page mapped).1
    refine congrArg some (byteAt_congr (alike.words _ (buffer.outside (Or.inl ?_))))
    simp only [vmUserLoPi, vmUserLo, pageSize] at low ⊢
    omega

end

/-- A copy from the bytes both memories agree on keeps them alike. -/
theorem Alike.copyLoop {fuel uva start len : Nat} (inv' : Isolated L base t) (mem : t.mem = s.mem)
    (proc : UserProc pid) (inside : start + len ≤ n) (bound : n ≤ size) (low : vmUserLo ≤ uva)
    (high : uva + len ≤ vmUserHi)
    (mapped : ∀ a ∈ (Vmm.copyLoop L .copyout pid fuel s uva (kva + start) len).accesses, a.Mapped L pid) :
    Alike kva size n (Vmm.copyLoop L .copyout pid fuel s uva (kva + start) len).vm.ram
      (Vmm.copyLoop L .copyout pid fuel t uva (kva + start) len).vm.ram ∧
    (Vmm.copyLoop L .copyout pid fuel t uva (kva + start) len).vm.mem =
      (Vmm.copyLoop L .copyout pid fuel s uva (kva + start) len).vm.mem := by
  induction fuel generalizing s t uva start len with
  | zero => exact ⟨alike, mem⟩
  | succ fuel ih =>
    by_cases done : len = 0
    · rw [Vmm.copyLoop, Vmm.copyLoop, if_pos done, if_pos done]
      exact ⟨alike, mem⟩
    have kernel := buffer.kernel
    have part : KernelBuffer L (kva + start) len := by
      obtain ⟨-, pdirs, idptbl⟩ := buffer
      exact ⟨by omega, by omega, by omega⟩
    obtain ⟨a, next, round, rest, loop⟩ := @copyLoop_round L s base pid .copyout uva (kva + start) len fuel
      inv proc done low high (by simp)
    obtain ⟨b, next', round', rest', loop'⟩ := @copyLoop_round L t base pid .copyout uva (kva + start) len
      fuel inv' proc done low high (by simp)
    rw [round.ahead part, Nat.add_assoc] at rest
    rw [round'.ahead part, Nat.add_assoc] at rest'
    rw [loop, rest] at mapped
    obtain ⟨here, mappedLater⟩ := List.forall_mem_cons.mp mapped
    have first : UserAddr uva := ⟨low, by omega⟩
    obtain ⟨grown, same⟩ := alike.touch buffer inv mem proc first
    rw [← round.touched, ← round'.touched] at grown same
    have entries := (grown.sameTables buffer round.isolated same).entry proc first.1 first.2
    dsimp only at entries
    have there : b.Mapped L pid := by
      rw [Access.Mapped, round'.start, entries, ← round.start]
      exact here
    -- Both pieces are at the same place.
    have sizes : b.size = a.size := by
      have inside := round.shaped.inside
      have inside' := round'.shaped.inside
      rw [round.start] at inside
      rw [round'.start] at inside'
      have bounds := round.bound
      have bounds' := round'.bound
      rcases round.size with whole | page <;> rcases round'.size with whole' | page' <;> omega
    have places : b.pa = a.pa := by
      rw [round.shaped.pa, round'.shaped.pa, round.start, round'.start, entries]
    have moved : Alike kva size n (a.moved .copyout (kva + start)).ram
        (b.moved .copyout (kva + start)).ram := by
      have bounds := round.bound
      unfold Access.moved Direction.move
      rw [sizes, places]
      exact grown.memcpy (by omega) (by simp only [vmUserLo, word] at kernel ⊢; omega)
    have after := round.isolated.write (round.leaves proc fun _ => here)
    have after' := round'.isolated.write (round'.leaves proc fun _ => there)
    have positive := round.shaped.positive
    have bounds := round.bound
    rw [loop, loop', rest, rest', sizes]
    exact ih moved after after' same (by omega) (by omega) (by omega) mappedLater

end

end Tables

end OsAudio.Vmm

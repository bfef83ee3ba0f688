import OsAudio.Vmm.CopyPages
import OsAudio.Vmm.Lookups

/-!
# Correct copies

A copy to or from user memory that finds or gets all its pages moves the bytes and leaves alone what
was mapped before: the entries with their permissions, and the bytes behind them, of all processes.
It gets its pages if there are enough of them above `last_palloc_index`; the quota alone does not
give them.
-/
namespace OsAudio.Vmm
open OsAudio.Lib OsAudio.Pmm

/-- Entries that are present stay, and so do the bytes behind them but for those in `changed`. -/
structure Preserved (L : Layout) (changed : Nat → Nat → Prop) (s t : Vm) : Prop where
  entries : ∀ q va, UserProc q → UserAddr va → getPtblEntryByVa L s.ram q va % 2 = pteP →
    getPtblEntryByVa L t.ram q va = getPtblEntryByVa L s.ram q va
  bytes : ∀ q va b, UserProc q → UserAddr va → ¬ changed q va → userByte L s.ram q va = some b →
    userByte L t.ram q va = some b

/-- What `pt_copyout` is to return and to do. -/
structure CopiesOut (L : Layout) (pid uva kva len : Nat) (s : Vm) (r : Copied) : Prop where
  copied : r.copied = len
  bytes : ∀ i, i < len → userByte L r.vm.ram pid (uva + i) = some (byteAt s.ram (kva + i))
  kept : Preserved L (fun q va => q = pid ∧ uva ≤ va ∧ va < uva + len) s r.vm
  kernel : ∀ w, KernelWord L w → r.vm.ram w = s.ram w

/-- What `pt_copyin` is to return and to do. -/
structure CopiesIn (L : Layout) (pid uva kva len : Nat) (s : Vm) (r : Copied) : Prop where
  copied : r.copied = len
  bytes : ∀ i, i < len → userByte L r.vm.ram pid (uva + i) = some (byteAt r.vm.ram (kva + i))
  kept : Preserved L (fun _ _ => False) s r.vm
  kernel : ∀ addr, KernelWord L (addr / 4 * 4) → addr < kva ∨ kva + len ≤ addr →
    byteAt r.vm.ram addr = byteAt s.ram addr

section Copies
variable {L : Layout} {rows : List MmapRow} {ram : Ram} {s t u : Vm} {pid va : Nat}
  {changed : Nat → Nat → Prop}

theorem Preserved.refl : Preserved L changed s s := ⟨fun _ _ _ _ _ => rfl, fun _ _ _ _ _ _ seen => seen⟩

theorem Preserved.trans (first : Preserved L changed s t) (second : Preserved L changed t u) :
    Preserved L changed s u := by
  refine ⟨fun q va proc user present => ?_, fun q va b proc user other seen => ?_⟩
  · have once := first.entries q va proc user present
    exact (second.entries q va proc user (once ▸ present)).trans once
  · exact second.bytes q va b proc user other (first.bytes q va b proc user other seen)

theorem Preserved.mono {more : Nat → Nat → Prop} (kept : Preserved L changed s t)
    (wider : ∀ q va, changed q va → more q va) : Preserved L more s t :=
  ⟨kept.entries, fun q va b proc user other => kept.bytes q va b proc user fun here => other (wider q va here)⟩

/-- The tables of an isolated memory. -/
theorem Isolated.tables (inv : Isolated L (vmInit L rows ram).ram s) (bounds : TableBounds s.mem.phys) :
    Tables L s where
  bounds := bounds
  normal := inv.normal
  kernel p k proc index outside := by
    rw [inv.kernelPart p k proc index fun user => by
      by_contra notKernel
      exact outside ⟨user, by simp only [kernelPde, UserPde] at *; omega⟩]
    exact (vmInit_tables rows ram).kernel p k proc index outside
  owned p k page proc pde := inv.owned (.table p k) page ⟨proc, pde⟩
  distinct p q j k page procP pdeJ procQ pdeK first second := by
    simpa using inv.distinct (.table p j) (.table q k) page ⟨procP, pdeJ⟩ ⟨procQ, pdeK⟩ first second

/-- The entries after `alloc_page`. -/
theorem Tables.allocPage_maps (inv : Tables L s) {perm : Nat} (proc : UserProc pid) (user : UserAddr va) :
    ((Vmm.allocPage L s pid va perm).1 ≠ magicNumber →
      MapsTo L s.ram (Vmm.allocPage L s pid va perm).2.ram pid va
        (((Pmm.containerAlloc s.mem pid).1 * pageSize + perm) % 4294967296)) ∧
    ((Vmm.allocPage L s pid va perm).1 = magicNumber →
      SameLookups L s.ram (Vmm.allocPage L s pid va perm).2.ram) := by
  obtain ⟨allocated, -⟩ := inv.containerAlloc pid
  rcases allocPage_cases s pid va perm with ⟨-, result⟩ | ⟨-, result⟩
  · rw [result]
    exact ⟨fun success => absurd rfl success, fun _ _ _ _ _ => rfl⟩
  · rw [result]
    exact (allocated.mapPage proc user.1 user.2).2

theorem UserAddr.word (user : UserAddr va) : va < 4294967296 := by
  have high := user.2
  simp only [vmUserHi] at high
  omega

theorem Isolated.touch_preserved (inv : Isolated L (vmInit L rows ram).ram s) (bounds : TableBounds s.mem.phys)
    (proc : UserProc pid) (user : UserAddr va) : Preserved L changed s (Vmm.touch L s pid va).2 := by
  refine ⟨fun q other proc' user' present => ?_, fun q other b proc' user' _ seen =>
    (inv.touch_extends proc user).userByte proc' user' seen⟩
  unfold Vmm.touch
  split
  · next missing =>
    obtain ⟨success, failure⟩ := @Tables.allocPage_maps L s pid va (inv.tables bounds)
      (pteP ||| pteU ||| pteW) proc user
    by_cases failed : (Vmm.allocPage L s pid va (pteP ||| pteU ||| pteW)).1 = magicNumber
    · exact failure failed q other proc'.2 user'.word
    · refine (success failed q other proc'.2 user'.word).trans (if_neg ?_)
      rintro ⟨rfl, same⟩
      rw [getPtblEntryByVa_samePage same, missing] at present
      cases present
  · rfl

theorem Leaves.entry {after : Ram} (leaves : Leaves L s after) {q : Nat} (proc : UserProc q) (user : UserAddr va) :
    getPtblEntryByVa L after q va = getPtblEntryByVa L s.ram q va :=
  leaves.sameTables.entry proc user.1 user.2

/-- All rounds of a copy that finds or gets its pages. -/
theorem copyLoop_preserved {dir : Direction} {fuel uva kva len : Nat}
    (inv : Isolated L (vmInit L rows ram).ram s) (bounds : TableBounds s.mem.phys) (proc : UserProc pid)
    (enough : len ≤ fuel) (low : vmUserLo ≤ uva) (high : uva + len ≤ vmUserHi)
    (buffer : KernelBuffer L kva len) (copies : ∀ c, dir ≠ .memset c)
    (mapped : ∀ a ∈ (copyLoop L dir pid fuel s uva kva len).accesses, a.Mapped L pid) :
    Preserved L (fun q va => dir = .copyout ∧ q = pid ∧ uva ≤ va ∧ va < uva + len) s
      (copyLoop L dir pid fuel s uva kva len).vm := by
  refine copyLoop_rounds (P := fun s uva kva len c => TableBounds s.mem.phys → KernelBuffer L kva len →
    (∀ a ∈ c.accesses, a.Mapped L pid) → Preserved L (fun q va => dir = .copyout ∧ q = pid ∧ uva ≤ va ∧
      va < uva + len) s c.vm) proc (fun _ _ _ _ _ _ _ => .refl) ?_ inv enough low high (fun _ => buffer) bounds
    buffer mapped
  intro s uva kva len a rest round later bounds buffer mapped
  obtain ⟨here, mapped⟩ := List.forall_mem_cons.mp mapped
  have start := round.start
  have bound := round.bound
  have kernel := buffer.kernel
  have first : UserAddr a.va := start ▸ round.user
  have touched := @Isolated.touch_preserved L rows ram s pid uva
    (fun q va => dir = .copyout ∧ q = pid ∧ uva ≤ va ∧ va < uva + len) round.before bounds proc round.user
  have bounds' := @bounds_touch L s pid bounds uva
  rw [← round.touched] at touched bounds'
  have leaves := round.leaves proc fun _ => here
  have moved : Preserved L (fun q va => dir = .copyout ∧ q = pid ∧ uva ≤ va ∧ va < uva + len) a.vm
      (a.moved dir kva) := by
    refine ⟨fun q va proc' user _ => leaves.entry proc' user, fun q va b proc' user other seen => ?_⟩
    cases dir with
    | copyin =>
      exact (round.isolated.buffer_userByte proc' buffer bound (fun _ => memcpy_other) user).trans seen
    | copyout =>
      refine (round.isolated.copyout_userByte proc round.shaped rfl first here
        (show kva + a.size ≤ vmUserLo by omega) proc' user).trans ((if_neg ?_).trans seen)
      rintro ⟨rfl, within⟩
      exact other ⟨rfl, rfl, by omega⟩
    | memset c => exact absurd rfl (copies c)
  refine (touched.trans moved).trans ((later (fun _ => here) bounds' (buffer.advance bound) mapped).mono ?_)
  rintro q va ⟨rfl, rfl, within⟩
  exact ⟨rfl, rfl, by omega⟩

/-- After `pt_copyin`, the process has all pages of the range exactly if it could get those that were
missing. -/
theorem ptCopyin_complete_iff {base : Ram} {uva kva len : Nat} (inv : Isolated L base s)
    (bounds : TableBounds s.mem.phys) (proc : UserProc pid) (low : vmUserLo ≤ uva)
    (high : uva + len ≤ vmUserHi) (buffer : KernelBuffer L kva len) :
    (∀ i, i < len → userFrame L (copyLoop L .copyin pid len s uva kva len).vm.ram pid
      ((uva + i) / pageSize) ≠ none) ↔ pagesMissing L s.ram pid uva len ≤ supply s.mem pid := by
  rw [← copyLoop_mapped_iff inv bounds proc (Nat.le_refl len) low high fun _ => buffer]
  exact (copyLoop_copyin_pages inv proc (Nat.le_refl len) low high buffer).2.symm

/-- With quota for the missing pages, copies are correct exactly when there are as many available pages
above `last_palloc_index`. -/
theorem user_copies_correct_iff (L : Layout) (rows : List MmapRow) (ram : Ram) (s : Vm)
    (inv : Isolated L (vmInit L rows ram).ram s) (bounds : TableBounds s.mem.phys) (pid uva kva back len : Nat)
    (proc : UserProc pid) (low : vmUserLo ≤ uva) (high : uva + len ≤ vmUserHi) (buffer : KernelBuffer L kva len)
    (buffer' : KernelBuffer L back len) (quota : pagesMissing L s.ram pid uva len ≤ quotaLeft s.mem pid) :
    (CopiesOut L pid uva kva len s (ptCopyout L s kva pid uva len) ∧
      CopiesIn L pid uva kva len s (ptCopyin L s pid uva kva len) ∧
      ∀ i, i < len → byteAt (ptCopyin L (ptCopyout L s kva pid uva len).vm pid uva back len).vm.ram (back + i) =
        byteAt s.ram (kva + i)) ↔
    pagesMissing L s.ram pid uva len ≤ (pagesAbove s.mem.phys).card := by
  have admitted := accepted_of_range low high buffer.low
  have admitted' := accepted_of_range low high buffer'.low
  have pages : pagesMissing L s.ram pid uva len ≤ (pagesAbove s.mem.phys).card ↔
      pagesMissing L s.ram pid uva len ≤ supply s.mem pid := by
    unfold supply
    omega
  simp only [ptCopyout, ptCopyin, copy, if_pos admitted, if_pos admitted']
  rw [pages]
  constructor
  · rintro ⟨-, copied, -⟩
    refine (ptCopyin_complete_iff inv bounds proc low high buffer).mp fun i below absent => ?_
    have seen := copied.bytes i below
    rw [userByte, absent] at seen
    cases seen
  · intro enough
    have mapped : ∀ dir, ∀ a ∈ (copyLoop L dir pid len s uva kva len).accesses, a.Mapped L pid := fun dir =>
      (copyLoop_mapped_iff inv bounds proc (Nat.le_refl len) low high fun _ => buffer).mpr enough
    have out := copyLoop_copyout inv proc (Nat.le_refl len) low high buffer (mapped .copyout)
    have into := copyLoop_copyin inv proc (Nat.le_refl len) low high buffer (mapped .copyin)
    have again := (copyLoop_copyin_pages out.isolated proc (Nat.le_refl len) low high buffer').1
    refine ⟨⟨copyLoop_copied (Nat.le_refl len), out.bytes, ?_, out.kernel⟩,
      ⟨copyLoop_copied (Nat.le_refl len), into.bytes, ?_, into.kernel⟩,
      fun i below => again.bytes i below _ (again.memory _ ⟨by omega, by omega⟩ _ (out.bytes i below))⟩
    · exact (copyLoop_preserved inv bounds proc (Nat.le_refl len) low high buffer
        (fun _ => Direction.noConfusion) (mapped .copyout)).mono fun _ _ => And.right
    · exact (copyLoop_preserved inv bounds proc (Nat.le_refl len) low high buffer
        (fun _ => Direction.noConfusion) (mapped .copyin)).mono fun _ _ here => Direction.noConfusion here.1

end Copies

/-! ## A small machine -/

/-- A byte is copied to the lowest page, which has neither frame nor page table yet. -/
theorem granted_two_correct :
    CopiesOut kernelLayout 1 vmUserLo 0x100000 1 (granted 2)
      (ptCopyout kernelLayout (granted 2) 0x100000 1 vmUserLo 1) := by
  have missing : pagesMissing kernelLayout (granted 2).ram 1 vmUserLo 1 = 2 :=
    (granted_missing 2 (by decide) (by decide)).trans (by decide)
  have quota := granted_quota 2
  refine ((user_copies_correct_iff kernelLayout fourPages (fun _ => 0) (granted 2) (granted_isolated 2)
    (granted_bounds 2) 1 vmUserLo 0x100000 0x100000 1 (by decide) (by decide) (by decide) ?_ ?_ ?_).mpr ?_).1
  · exact ⟨by decide, by decide, by decide⟩
  · exact ⟨by decide, by decide, by decide⟩
  · rw [missing, quota]
  · rw [missing, granted_above]
    decide

/-- Two bytes on both sides of a boundary between page tables: the quota is enough, but the last page
is not found. -/
theorem granted_four_incomplete :
    pagesMissing kernelLayout (granted 4).ram 1 0x403fffff 2 ≤ quotaLeft (granted 4).mem 1 ∧
    ¬ CopiesIn kernelLayout 1 0x403fffff 0x100000 2 (granted 4)
      (ptCopyin kernelLayout (granted 4) 1 0x403fffff 0x100000 2) := by
  have missing : pagesMissing kernelLayout (granted 4).ram 1 0x403fffff 2 = 4 :=
    (granted_missing 4 (by decide) (by decide)).trans (by decide)
  have quota := granted_quota 4
  refine ⟨by rw [missing, quota], fun copied => ?_⟩
  have complete := @ptCopyin_complete_iff kernelLayout (granted 4) 1 _ 0x403fffff 0x100000 2 (granted_isolated 4)
    (granted_bounds 4) (by decide) (by decide) (by decide) ⟨by decide, by decide, by decide⟩
  rw [missing, supply, quota, granted_above] at complete
  refine absurd (complete.mp fun i below absent => ?_) (by decide)
  have seen := copied.bytes i below
  rw [ptCopyin, copy, if_pos (by decide), userByte, absent] at seen
  cases seen

end OsAudio.Vmm

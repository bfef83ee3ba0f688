import OsAudio.Proc.Spawn
import OsAudio.Vmm.CopyPages

/-!
# Which executables find their pages

`elf_load` maps a page for every page of the loadable segments and then writes to it.  The result of
`alloc_page` is not looked at, so what is written stays inside the new process only if the process can
get the pages and the page tables for them.
-/
namespace OsAudio.Proc
open OsAudio.Lib OsAudio.Pmm OsAudio.Vmm

/-- The pages that the inner loop goes through. -/
def ProgHdr.pages (ph : ProgHdr) : List Nat :=
  if ph.pType = 1 then List.range' (ph.pVa / pageSize) ph.rounds else []

def Elf.pages (elf : Elf) : List Nat := elf.progs.flatMap ProgHdr.pages

/-- How many pages it takes to load the given ones, with the page tables that are missing. -/
def pagesToLoad (L : Layout) (ram : Ram) (pid : Nat) (pages : List Nat) : Nat :=
  pages.length + ((pages.map (· / 1024)).toFinset.filter fun k => tablePage L ram pid k = none).card

/-- What has been written so far is inside the process, and the pages of `rest` can still be loaded. -/
structure Loading (L : Layout) (base : Ram) (pid : Nat) (rest : List Nat) (loaded : List Access × Vm) :
    Prop where
  isolated : Isolated L base loaded.2
  bounds : TableBounds loaded.2.mem.phys
  enough : pagesToLoad L loaded.2.ram pid rest ≤ supply loaded.2.mem pid
  confined : ∀ a ∈ loaded.1, a.Confined L pid

section Pages
variable {L : Layout} {base : Ram} {s t : Vm} {pid v : Nat} {rest : List Nat}

theorem page_start (v : Nat) : v * pageSize / pageSize = v ∧ v * pageSize % pageSize = 0 := by
  unfold pageSize
  omega

theorem userAddr_of_page (page : UserPage v) : UserAddr (v * pageSize) := by
  simp only [UserPage, UserAddr, vmUserLoPi, vmUserHiPi, vmUserLo, vmUserHi, pageSize] at *
  omega

theorem pdes_user (user : ∀ u ∈ rest, UserPage u) : ∀ k ∈ (rest.map (· / 1024)).toFinset, UserPde k := by
  intro k member
  obtain ⟨u, inRest, rfl⟩ := List.mem_map.mp (List.mem_toFinset.mp member)
  exact userPde_of_page (user u inRest)

theorem pagesToLoad_leaves {after : Ram} (leaves : Leaves L s after) (proc : UserProc pid)
    (user : ∀ u ∈ rest, UserPage u) : pagesToLoad L after pid rest = pagesToLoad L s.ram pid rest := by
  unfold pagesToLoad
  congr 2
  refine Finset.filter_congr fun k member => ?_
  rw [leaves.sameTables.tablePage proc.2 (pdes_user user k member).lt]

/-- The price of the first page. -/
theorem pagesToLoad_cons {frame : Nat} (remaps : Remaps L pid (v * pageSize) s t) (proc : UserProc pid)
    (page : UserPage v) (user : ∀ u ∈ rest, UserPage u) (present : userFrame L t.ram pid v = some frame) :
    pagesToLoad L s.ram pid (v :: rest) =
      pagesToLoad L t.ram pid rest + pagesNeeded L s.ram pid (v * pageSize) := by
  have registered := @userFrame_registered L pid (v * pageSize) t.ram frame (userAddr_of_page page)
    (by rw [(page_start v).1, present])
  have tables := remaps.tablesMissing proc registered (pdes_user user)
  rw [pdeOf_page] at tables
  simp only [pagesToLoad, List.map_cons, List.toFinset_cons, List.length_cons]
  omega

theorem pagesNeeded_le_toLoad (ram : Ram) :
    pagesNeeded L ram pid (v * pageSize) ≤ pagesToLoad L ram pid (v :: rest) := by
  unfold pagesNeeded pagesToLoad
  rw [pdeOf_page, List.length_cons]
  split
  · next empty =>
    have tables : 0 < (((v :: rest).map (· / 1024)).toFinset.filter fun k =>
        tablePage L ram pid k = none).card :=
      Finset.card_pos.mpr ⟨v / 1024, by simp [tablePage_eq_none.mpr empty]⟩
    omega
  · omega

/-- Writing to a page that is there stays in its frame. -/
theorem copyLoop_page {dir : Direction} (toUser : dir ≠ .copyin) {fuel kva len frame : Nat}
    (inv : Isolated L base s) (proc : UserProc pid) (page : UserPage v)
    (present : userFrame L s.ram pid v = some frame) (fits : len ≤ pageSize) :
    (∀ a ∈ (copyLoop L dir pid fuel s (v * pageSize) kva len).accesses, a.Confined L pid) ∧
    ∃ ram, (copyLoop L dir pid fuel s (v * pageSize) kva len).vm = ⟨s.mem, ram⟩ ∧ Leaves L s ram := by
  have nothing : ∀ fuel (t : Vm) uva kva, copyLoop L dir pid fuel t uva kva 0 = ⟨0, [], t⟩ := by
    intro fuel t uva kva
    cases fuel <;> rfl
  have refl : Leaves L s s.ram := ⟨fun _ _ _ _ => rfl, fun _ _ _ _ => rfl, fun _ _ _ _ _ _ _ _ => rfl⟩
  rcases fuel with _ | fuel
  · exact ⟨nofun, s.ram, rfl, refl⟩
  by_cases none : len = 0
  · rw [none, nothing]
    exact ⟨nofun, s.ram, rfl, refl⟩
  obtain ⟨a, next, shaped, start, touched, bound, size, further, loop⟩ :=
    @copyLoop_succ L dir pid fuel (v * pageSize) kva len s none
  obtain ⟨mapped, -⟩ := @userFrame_present L pid s.ram (v * pageSize) frame (by rw [(page_start v).1, present])
  have found : touch L s pid (v * pageSize) = (.none, s) := if_neg (by rw [mapped]; decide)
  have state : a.vm = s := (Prod.mk.inj (touched.trans found)).2
  have whole : a.size = len := by
    rw [(page_start v).2] at size
    omega
  have user := userAddr_of_page page
  rw [← start] at user
  have isMapped : a.Mapped L pid := by
    rw [Access.Mapped, state, start]
    exact mapped
  rw [loop, further, whole, Nat.sub_self, nothing, state]
  refine ⟨fun b member => ?_, _, rfl, ?_⟩
  · rw [List.mem_singleton.mp member]
    exact shaped.confined_iff.mpr ⟨user, isMapped⟩
  · rw [← whole]
    exact inv.leaves_piece proc shaped state user.1 user.2 isMapped toUser kva

theorem ProgHdr.perm_bits (ph : ProgHdr) : ph.perm < 4096 ∧ ph.perm % 2 = pteP := by
  unfold ProgHdr.perm
  split <;> decide

/-- A page that `alloc_page` reports as mapped is there. -/
theorem allocPage_present (inv : Isolated L base s) (proc : UserProc pid) {va perm : Nat} (user : UserAddr va)
    (bits : perm < 4096) (present : perm % 2 = pteP)
    (success : (allocPage L s pid va perm).1 ≠ magicNumber) :
    ∃ frame, userFrame L (allocPage L s pid va perm).2.ram pid (va / pageSize) = some frame := by
  obtain ⟨allocated, fresh⟩ := inv.alloc (rfl : containerAlloc s.mem pid = (_, _))
  rcases allocPage_cases s pid va perm with ⟨-, result⟩ | ⟨found, result⟩
  · exact absurd (congrArg Prod.fst result) success
  · rw [result] at success ⊢
    have mapped := (allocated.mapPage_present (fresh found) proc user.1 user.2 bits present).mp success
    exact ⟨_, (userFrame_eq _ _ _).trans (if_pos mapped)⟩

end Pages

/-! ## Loading -/

section Loading
variable {L : Layout} {base : Ram} {t : Vm} {pid v frame : Nat} {rest : List Nat} {written : List Access}
  {loaded : List Access × Vm} {ph : ProgHdr}

/-- `alloc_page` for the first of the pages. -/
theorem Loading.alloc (loading : Loading L base pid (v :: rest) (written, t)) (proc : UserProc pid)
    (user : ∀ u ∈ v :: rest, UserPage u) (ph : ProgHdr) :
    Loading L base pid rest (written, (allocPage L t pid (v * pageSize) ph.perm).2) ∧
    ∃ frame, userFrame L (allocPage L t pid (v * pageSize) ph.perm).2.ram pid v = some frame := by
  obtain ⟨inv, bounds, enough, confined⟩ := loading
  obtain ⟨page, later⟩ := List.forall_mem_cons.mp user
  obtain ⟨bits, perm⟩ := ph.perm_bits
  have start := userAddr_of_page page
  have dear := @pagesNeeded_le_toLoad L pid v rest t.ram
  dsimp only at inv bounds enough
  have success : (allocPage L t pid (v * pageSize) ph.perm).1 ≠ magicNumber := by
    rw [ne_eq, allocPage_eq_magic bounds]
    omega
  obtain ⟨frame, present⟩ := allocPage_present inv proc start bits perm success
  have price := supply_allocPage inv bounds success
  rw [(page_start v).1] at present
  rw [pagesToLoad_cons (inv.allocPage_remaps proc start bits perm) proc page later present] at enough
  refine ⟨⟨inv.allocPage proc start.1 start.2 bits perm, bounds_allocPage bounds _ _, ?_, confined⟩, frame, present⟩
  dsimp only
  omega

section
variable (loading : Loading L base pid rest (written, t)) (proc : UserProc pid)
  (user : ∀ u ∈ v :: rest, UserPage u) (present : userFrame L t.ram pid v = some frame)
include loading proc user present

/-- Writing to a page that is there. -/
theorem Loading.write {dir : Direction} (toUser : dir ≠ .copyin) {fuel kva len : Nat}
    (fits : len ≤ pageSize) :
    Loading L base pid rest (written ++ (copyLoop L dir pid fuel t (v * pageSize) kva len).accesses,
      (copyLoop L dir pid fuel t (v * pageSize) kva len).vm) ∧
    userFrame L (copyLoop L dir pid fuel t (v * pageSize) kva len).vm.ram pid v = some frame := by
  obtain ⟨inv, bounds, enough, confined⟩ := loading
  obtain ⟨page, later⟩ := List.forall_mem_cons.mp user
  obtain ⟨pieces, ram, result, leaves⟩ := @copyLoop_page L base t pid v dir toUser fuel kva len frame inv proc page
    present fits
  rw [result]
  refine ⟨⟨inv.write leaves, bounds, ?_, List.forall_mem_append.mpr ⟨confined, pieces⟩⟩,
    (leaves.userFrame proc page).trans present⟩
  rw [pagesToLoad_leaves leaves proc later]
  exact enough

theorem Loading.memset {c len : Nat} (fits : len ≤ pageSize) :
    Loading L base pid rest (written ++ (ptMemset L t pid (v * pageSize) c len).accesses,
      (ptMemset L t pid (v * pageSize) c len).vm) ∧
    userFrame L (ptMemset L t pid (v * pageSize) c len).vm.ram pid v = some frame :=
  loading.write proc user present (Direction.noConfusion : Direction.memset c ≠ .copyin) fits

theorem Loading.copyout {fa len : Nat} (fits : len ≤ pageSize) :
    Loading L base pid rest (written ++ (ptCopyout L t fa pid (v * pageSize) len).accesses,
      (ptCopyout L t fa pid (v * pageSize) len).vm) := by
  unfold ptCopyout copy
  split
  · exact (loading.write proc user present (show Direction.copyout ≠ .copyin by decide) fits).1
  · rwa [List.append_nil]

end

/-- A round of the inner loop, for the first of the pages. -/
theorem Loading.page (loading : Loading L base pid (v :: rest) loaded) (proc : UserProc pid)
    (user : ∀ u ∈ v :: rest, UserPage u) (fa : Nat) :
    Loading L base pid rest (loaded.1 ++ (elfLoadPage L ph loaded.2 pid (v * pageSize) fa).1,
      (elfLoadPage L ph loaded.2 pid (v * pageSize) fa).2) := by
  obtain ⟨allocated, frame, present⟩ := loading.alloc proc user ph
  obtain ⟨cleared, still⟩ := allocated.memset proc user present (c := 0) (Nat.le_refl pageSize)
  unfold elfLoadPage
  dsimp only
  split
  · exact allocated.copyout proc user present (Nat.le_refl _)
  · next incomplete =>
    split
    · rw [← List.append_assoc]
      refine cleared.copyout proc user still ?_
      unfold rounddown pageSize at *
      omega
    · exact cleared

/-- The inner loop. -/
theorem Loading.segment {elf : Elf} (loading : Loading L base pid (ph.pages ++ rest) loaded) (proc : UserProc pid)
    (user : ∀ u ∈ ph.pages ++ rest, UserPage u) :
    Loading L base pid rest (elfLoadSegment L elf pid loaded ph) := by
  unfold elfLoadSegment
  unfold ProgHdr.pages at loading user
  split
  · next other => rwa [if_neg other, List.nil_append] at loading
  · next load =>
    rw [if_pos (not_not.mp load)] at loading user
    have finished : rest = List.range' (ph.pVa / pageSize + ph.rounds) (ph.rounds - ph.rounds) ++ rest := by
      rw [Nat.sub_self, List.range'_zero, List.nil_append]
    rw [finished]
    refine upTo_invariant (fun i loaded => Loading L base pid
      (List.range' (ph.pVa / pageSize + i) (ph.rounds - i) ++ rest) loaded) loading ph.rounds ?_
    · intro i before below loading
      have first : List.range' (ph.pVa / pageSize + i) (ph.rounds - i) =
          (ph.pVa / pageSize + i) :: List.range' (ph.pVa / pageSize + (i + 1)) (ph.rounds - (i + 1)) := by
        rw [show ph.rounds - i = ph.rounds - (i + 1) + 1 by omega, List.range'_succ]
        rfl
      have start : rounddown ph.pVa pageSize + i * pageSize = (ph.pVa / pageSize + i) * pageSize := by
        unfold rounddown pageSize
        omega
      have later : ∀ u ∈ List.range' (ph.pVa / pageSize + i) (ph.rounds - i) ++ rest, UserPage u := by
        intro u member
        rw [List.mem_append, List.mem_range'_1] at member
        refine user u (List.mem_append.mpr (member.imp_left fun range => List.mem_range'_1.mpr ?_))
        omega
      rw [first, List.cons_append] at loading later
      rw [start]
      exact loading.page proc later _

/-- What `elf_load` writes stays inside the process, if the segments are in the user range and the
process can get the pages for them. -/
theorem elfLoad_confined (elf : Elf) {s : Vm} (inv : Isolated L base s) (bounds : TableBounds s.mem.phys)
    (proc : UserProc pid) (user : ∀ v ∈ elf.pages, UserPage v)
    (enough : pagesToLoad L s.ram pid elf.pages ≤ supply s.mem pid) :
    ∀ a ∈ (elfLoad L elf s pid).1, a.Confined L pid := by
  have run : ∀ (progs : List ProgHdr) (loaded : List Access × Vm), (∀ v ∈ progs.flatMap ProgHdr.pages, UserPage v) →
      Loading L base pid (progs.flatMap ProgHdr.pages) loaded →
      Loading L base pid [] (progs.foldl (elfLoadSegment L elf pid) loaded) := by
    intro progs
    induction progs with
    | nil => exact fun _ _ loading => loading
    | cons ph progs ih =>
      intro loaded user loading
      rw [List.flatMap_cons] at user loading
      exact ih _ (fun v member => user v (List.mem_append_right _ member)) (loading.segment proc user)
  exact (run elf.progs ([], s) user ⟨inv, bounds, enough, nofun⟩).confined

end Loading

end OsAudio.Proc

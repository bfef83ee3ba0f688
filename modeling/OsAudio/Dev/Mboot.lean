import OsAudio.Lib.LinkedList

/-!
# The physical memory map

`kern/dev/mboot.c`: the entries of the multiboot memory map are put into a list that is sorted by
their start, neighbours of the same type that overlap are merged, and the list is threaded a second
time by type.  The slots of the entries, the heads of the lists and their links are the statics of
the file; a walk over a list gives up after more cells than there are slots, which would mean that
it never ends.
-/
namespace OsAudio.Dev
open OsAudio.Lib
open Function (update update_self update_of_ne)

/-! ## Model -/

def memRam : Nat := 1
def memReserved : Nat := 2
def memAcpi : Nat := 3
def memNvs : Nat := 4

/-- `PMMAP_SUBLIST_NR`; there is no list for the result -1. -/
def pmmapSublistNr (type : Nat) : Option Nat :=
  if type = memRam then some 0
  else if type = memReserved then some 1
  else if type = memAcpi then some 2
  else if type = memNvs then some 3
  else none

/-- `struct pmmap` without its links. -/
structure Pmmap where
  start : Nat
  endAddr : Nat
  type : Nat
  deriving DecidableEq, Repr

def numSlots : Nat := 128

/-- The statics of the file: the slots, the links `next` and `type_next` of each slot, and the first
slot of `pmmap_list` and of each `pmmap_sublist`. -/
structure Pmmaps where
  slots : Nat → Pmmap
  slotsNextFree : Nat
  next : Nat → Option Nat
  typeNext : Nat → Option Nat
  list : Option Nat
  sublist : Nat → Option Nat
  maxUsableMemory : Nat
  memNpages : Nat
  nentries : Nat

/-- C statics are zero, and `pmmap_init` empties the lists. -/
def bootPmmaps : Pmmaps :=
  ⟨fun _ => ⟨0, 0, 0⟩, 0, fun _ => none, fun _ => none, none, fun _ => none, 0, 0, 0⟩

/-- Why the code does not get on: more than 128 entries, an entry whose type has no list, or a list
that never ends. -/
inductive BootStop
  | tooManyEntries
  | sublistNr
  | endless
  deriving DecidableEq, Repr

def pmmapInsert (s : Pmmaps) (start endAddr type : Nat) : Except BootStop Pmmaps :=
  if s.slotsNextFree = numSlots then .error .tooManyEntries
  else
    let freeSlot := s.slotsNextFree
    let slots := update s.slots freeSlot ⟨start, endAddr, type⟩
    match findBefore s.next (fun slot => start < (slots slot).start) (numSlots + 1) none s.list with
    | none => .error .endless
    | some lastSlot =>
      let (next, list) := insertAt s.next s.list lastSlot freeSlot
      .ok { s with slots := slots, slotsNextFree := freeSlot + 1, next := next, list := list }

/-- The test of the first step of `pmmap_merge`. -/
def Absorbs (slot nextSlot : Pmmap) : Prop :=
  slot.start ≤ nextSlot.start ∧ nextSlot.start ≤ slot.endAddr ∧ slot.type = nextSlot.type

instance (slot nextSlot : Pmmap) : Decidable (Absorbs slot nextSlot) :=
  inferInstanceAs (Decidable (_ ∧ _ ∧ _))

/-- The entry that has absorbed the next one. -/
def Pmmap.absorb (slot nextSlot : Pmmap) : Pmmap :=
  { slot with endAddr := max slot.endAddr nextSlot.endAddr }

/-- The loop of the first step of `pmmap_merge`, from `link` on. -/
def mergeFrom : (fuel : Nat) → (link : Option Nat) → (Nat → Pmmap) → (Nat → Option Nat) →
    Except BootStop ((Nat → Pmmap) × (Nat → Option Nat))
  | 0, _, _, _ => .error .endless
  | _ + 1, none, slots, next => .ok (slots, next)
  | fuel + 1, some slot, slots, next =>
    match next slot with
    | none => .ok (slots, next)
    | some nextSlot =>
      if Absorbs (slots slot) (slots nextSlot) then
        let slots := update slots slot ((slots slot).absorb (slots nextSlot))
        let next := removeAfter next slot
        mergeFrom fuel (next slot) slots next
      else mergeFrom fuel (next slot) slots next

/-- Step 1 of `pmmap_merge`. -/
def mergeOverlapped (s : Pmmaps) : Except BootStop Pmmaps := do
  let (slots, next) ← mergeFrom (numSlots + 1) s.list s.slots s.next
  .ok { s with slots := slots, next := next }

/-- The loop of the second step of `pmmap_merge`, from `link` on. -/
def sublistFrom (s : Pmmaps) : (fuel : Nat) → (link : Option Nat) → (lastSlot : Nat → Option Nat) →
    (typeNext : Nat → Option Nat) → (sublist : Nat → Option Nat) →
    Except BootStop ((Nat → Option Nat) × (Nat → Option Nat) × (Nat → Option Nat))
  | 0, _, _, _, _ => .error .endless
  | _ + 1, none, lastSlot, typeNext, sublist => .ok (lastSlot, typeNext, sublist)
  | fuel + 1, some slot, lastSlot, typeNext, sublist =>
    match pmmapSublistNr (s.slots slot).type with
    | none => .error .sublistNr
    | some nr =>
      let (typeNext, first) := insertAt typeNext (sublist nr) (lastSlot nr) slot
      sublistFrom s fuel (s.next slot) (update lastSlot nr (some slot)) typeNext
        (update sublist nr first)

def pmmapMerge (s : Pmmaps) : Except BootStop Pmmaps := do
  let s ← mergeOverlapped s
  let (lastSlot, typeNext, sublist) ←
    sublistFrom s (numSlots + 1) s.list (fun _ => none) s.typeNext s.sublist
  let s := { s with typeNext := typeNext, sublist := sublist }
  match lastSlot 0 with
  | some slot => .ok { s with maxUsableMemory := (s.slots slot).endAddr }
  | none => .ok s

/-- `mboot_mmap_t`; the code does not read `size`. -/
structure MbootMmap where
  baseAddrLow : Nat
  baseAddrHigh : Nat
  lengthLow : Nat
  lengthHigh : Nat
  type : Nat
  deriving DecidableEq, Repr

/-- The end of the range that is inserted for an entry. -/
def MbootMmap.endAddr (p : MbootMmap) : Nat :=
  if p.lengthHigh ≠ 0 ∨ 0xffffffff - p.baseAddrLow ≤ p.lengthLow then 0xffffffff
  else p.baseAddrLow + p.lengthLow

/-- The loop of `pmmap_init` over the entries of the multiboot information. -/
def insertAll : List MbootMmap → Pmmaps → Except BootStop Pmmaps
  | [], s => .ok s
  | p :: rest, s =>
    if p.baseAddrHigh ≠ 0 then insertAll rest s
    else do
      let s ← pmmapInsert s p.baseAddrLow p.endAddr p.type
      insertAll rest s

/-- The slots of `pmmap_list`, in order. -/
def Pmmaps.cells (s : Pmmaps) : List Nat := cellsFrom s.next (numSlots + 1) s.list

/-- The entries of `pmmap_list`, in order. -/
def Pmmaps.entries (s : Pmmaps) : List Pmmap := s.cells.map s.slots

def pmmapInit (mmap : List MbootMmap) : Except BootStop Pmmaps := do
  let s ← insertAll mmap bootPmmaps
  let s ← pmmapMerge s
  .ok { s with
    nentries := s.nentries + s.cells.length
    memNpages := (s.maxUsableMemory - s.maxUsableMemory % 4096) / 4096 }

def getSize (s : Pmmaps) : Nat := s.nentries

/-- The entry with index `idx`; the getters return 0 where there is none. -/
def slotAt (s : Pmmaps) (idx : Nat) : Option Pmmap :=
  match s.cells[idx]? with
  | some slot => if idx = s.nentries then none else some (s.slots slot)
  | none => none

def getMms (s : Pmmaps) (idx : Nat) : Nat :=
  match slotAt s idx with
  | some slot => slot.start
  | none => 0

/-- `slot->end - slot->start`, an unsigned difference. -/
def getMml (s : Pmmaps) (idx : Nat) : Nat :=
  match slotAt s idx with
  | some slot => (slot.endAddr + 4294967296 - slot.start) % 4294967296
  | none => 0

def isUsable (s : Pmmaps) (idx : Nat) : Bool :=
  match slotAt s idx with
  | some slot => slot.type = memRam
  | none => false

/-! ## What the functions do to the entries -/

/-- `pmmap_insert` on the entries: the new one comes before the first that starts later. -/
def insertEntry (slot : Pmmap) (entries : List Pmmap) : List Pmmap :=
  entries.takeWhile (fun other => !decide (slot.start < other.start)) ++
    slot :: entries.dropWhile (fun other => !decide (slot.start < other.start))

/-- Step 1 of `pmmap_merge` on the entries: it goes on behind an entry that has been absorbed. -/
def mergeEntries : List Pmmap → List Pmmap
  | [] => []
  | [slot] => [slot]
  | slot :: nextSlot :: rest =>
    if Absorbs slot nextSlot then slot.absorb nextSlot :: mergeEntries rest
    else slot :: mergeEntries (nextSlot :: rest)

/-- The slots `cells` are those of `pmmap_list`. -/
structure Linked (s : Pmmaps) (cells : List Nat) : Prop where
  path : ListSeg s.next s.list cells
  nodup : cells.Nodup
  used : ∀ slot ∈ cells, slot < s.slotsNextFree
  room : s.slotsNextFree ≤ numSlots

section Linked
variable {s : Pmmaps} {cells : List Nat}

theorem Linked.short (linked : Linked s cells) : cells.length ≤ numSlots := by
  have inside : cells ⊆ List.range numSlots := fun slot member =>
    List.mem_range.mpr (Nat.lt_of_lt_of_le (linked.used slot member) linked.room)
  have short := (linked.nodup.subperm inside).length_le
  rwa [List.length_range] at short

theorem Linked.cells_eq (linked : Linked s cells) : s.cells = cells :=
  cellsFrom_path linked.path (Nat.le_succ_of_le linked.short)

theorem Linked.entries_eq (linked : Linked s cells) : s.entries = cells.map s.slots := by
  unfold Pmmaps.entries
  rw [linked.cells_eq]

theorem linked_boot : Linked bootPmmaps [] := ⟨rfl, List.nodup_nil, nofun, Nat.zero_le _⟩

/-- `pmmap_insert` takes the next slot and puts it in its place in the list. -/
theorem Linked.insert (linked : Linked s cells) (free : s.slotsNextFree < numSlots)
    (start endAddr type : Nat) :
    ∃ t cells', pmmapInsert s start endAddr type = .ok t ∧ Linked t cells' ∧
      t.entries = insertEntry ⟨start, endAddr, type⟩ s.entries ∧
      t.slotsNextFree = s.slotsNextFree + 1 ∧ t.sublist = s.sublist ∧ t.nentries = s.nentries := by
  obtain ⟨slots, changed⟩ : ∃ slots, slots = update s.slots s.slotsNextFree ⟨start, endAddr, type⟩ :=
    ⟨_, rfl⟩
  have new : s.slotsNextFree ∉ cells := fun member => Nat.lt_irrefl _ (linked.used _ member)
  have here : slots s.slotsNextFree = ⟨start, endAddr, type⟩ := by
    rw [changed, update_self]
  have there : ∀ slot ∈ cells, slots slot = s.slots slot := by
    intro slot member
    rw [changed]
    refine update_of_ne ?_ ..
    rintro rfl
    exact new member
  obtain ⟨early, isEarly⟩ : ∃ early, early = cells.takeWhile fun slot => !decide (start < (slots slot).start) :=
    ⟨_, rfl⟩
  obtain ⟨late, isLate⟩ : ∃ late, late = cells.dropWhile fun slot => !decide (start < (slots slot).start) :=
    ⟨_, rfl⟩
  have whole : early ++ late = cells := by
    rw [isEarly, isLate]
    exact List.takeWhile_append_dropWhile
  have found := @findBefore_path Nat s.next s.list cells linked.path
    (fun slot => decide (start < (slots slot).start)) (numSlots + 1) (Nat.lt_succ_of_le linked.short) none
  rw [Option.or_none, ← isEarly] at found
  have path := linked.path
  have nodup := linked.nodup
  rw [← whole] at path nodup new
  have result : Linked { s with
      slots := slots
      slotsNextFree := s.slotsNextFree + 1
      next := (insertAt s.next s.list early.getLast? s.slotsNextFree).1
      list := (insertAt s.next s.list early.getLast? s.slotsNextFree).2 }
      (early ++ s.slotsNextFree :: late) := by
    refine ⟨path.insert nodup new, ?_, fun slot member => ?_, free⟩
    · rw [List.nodup_middle]
      exact List.nodup_cons.mpr ⟨new, nodup⟩
    · rcases List.mem_append.mp member with before | after
      · exact Nat.lt_succ_of_lt (linked.used slot (whole ▸ List.mem_append_left late before))
      · rcases List.mem_cons.mp after with rfl | after
        · exact Nat.lt_succ_self _
        · exact Nat.lt_succ_of_lt (linked.used slot (whole ▸ List.mem_append_right early after))
  refine ⟨_, _, ?_, result, ?_, rfl, rfl, rfl⟩
  · unfold pmmapInsert
    rw [if_neg (Nat.ne_of_lt free)]
    dsimp only
    rw [← changed, found]
  · rw [result.entries_eq, linked.entries_eq]
    have same : cells.map s.slots = cells.map slots :=
      List.map_congr_left fun slot member => (there slot member).symm
    change (early ++ s.slotsNextFree :: late).map slots = _
    unfold insertEntry
    rw [same, List.takeWhile_map, List.dropWhile_map, List.map_append, List.map_cons, here, isEarly, isLate]
    rfl

/-- The loop of step 1 merges the entries from `link` on and leaves the others alone. -/
theorem mergeFrom_spec {head : Option Nat} (fuel : Nat) (rest before : List Nat) (slots : Nat → Pmmap)
    (next : Nat → Option Nat) (path : ListSeg next head (before ++ rest)) (nodup : (before ++ rest).Nodup)
    (enough : rest.length < fuel) :
    ∃ slots' next' rest', mergeFrom fuel rest.head? slots next = .ok (slots', next') ∧
      ListSeg next' head (before ++ rest') ∧ rest'.Sublist rest ∧
      rest'.map slots' = mergeEntries (rest.map slots) ∧ ∀ slot, slot ∉ rest → slots' slot = slots slot := by
  induction fuel generalizing rest before slots next with
  | zero => omega
  | succ fuel ih =>
    match rest, path.tail with
    | [], _ => exact ⟨slots, next, [], rfl, path, List.Sublist.refl _, rfl, fun _ _ => rfl⟩
    | [slot], tail =>
      refine ⟨slots, next, [slot], ?_, path, List.Sublist.refl _, rfl, fun _ _ => rfl⟩
      have last : next slot = none := tail.2
      simp only [mergeFrom, List.head?_cons, last]
    | slot :: nextSlot :: rest, tail =>
      have second : next slot = some nextSlot := tail.2.1
      have third : next nextSlot = rest.head? := ListSeg.head_eq tail.2.2
      have apart := List.nodup_append.mp nodup
      have fresh : slot ∉ nextSlot :: rest := (List.nodup_cons.mp apart.2.1).1
      by_cases absorbs : Absorbs (slots slot) (slots nextSlot)
      · have cut := path.removeAfter nodup
        have shorter : (before ++ slot :: rest).Sublist (before ++ slot :: nextSlot :: rest) :=
          (List.Sublist.refl before).append ((List.sublist_cons_self nextSlot rest).cons_cons slot)
        have after : removeAfter next slot slot = rest.head? := by
          unfold removeAfter
          rw [update_self, second]
          exact third
        rw [List.append_cons] at cut
        obtain ⟨slots', next', rest', ran, path', sub, content, others⟩ := ih rest (before ++ [slot])
          (update slots slot ((slots slot).absorb (slots nextSlot))) (removeAfter next slot) cut
          (by rw [← List.append_cons]; exact nodup.sublist shorter)
          (by simp only [List.length_cons] at enough; omega)
        refine ⟨slots', next', slot :: rest', ?_, ?_, (sub.cons nextSlot).cons_cons slot, ?_, fun other absent => ?_⟩
        · simp only [mergeFrom, List.head?_cons, second, if_pos absorbs, after]
          exact ran
        · rwa [← List.append_cons] at path'
        · have unread : ∀ other ∈ rest, update slots slot ((slots slot).absorb (slots nextSlot)) other =
              slots other := by
            intro other member
            refine update_of_ne ?_ ..
            rintro rfl
            exact fresh (List.mem_cons_of_mem nextSlot member)
          simp only [List.map_cons, mergeEntries, if_pos absorbs]
          rw [content, others slot (fun member => fresh (List.mem_cons_of_mem nextSlot member)),
            update_self, List.map_congr_left unread]
        · rw [others other fun member => absent (by simp [member])]
          exact update_of_ne (fun equal => absent (by simp [equal])) ..
      · obtain ⟨slots', next', rest', ran, path', sub, content, others⟩ :=
          ih (nextSlot :: rest) (before ++ [slot]) slots next (by rwa [← List.append_cons])
            (by rwa [← List.append_cons]) (by simp only [List.length_cons] at enough ⊢; omega)
        refine ⟨slots', next', slot :: rest', ?_, ?_, sub.cons_cons slot, ?_, fun other absent => ?_⟩
        · simp only [mergeFrom, List.head?_cons, second, if_neg absorbs]
          exact ran
        · rwa [← List.append_cons] at path'
        · rw [List.map_cons, content, others slot fresh]
          simp only [List.map_cons, mergeEntries, if_neg absorbs]
        · exact others other fun member => absent (List.mem_cons_of_mem slot member)

/-- Step 1 of `pmmap_merge` merges the entries. -/
theorem Linked.mergeOverlapped (linked : Linked s cells) :
    ∃ t cells', Dev.mergeOverlapped s = .ok t ∧ Linked t cells' ∧ t.entries = mergeEntries s.entries ∧
      t.sublist = s.sublist ∧ t.nentries = s.nentries := by
  obtain ⟨slots, next, cells', ran, path, sub, content, -⟩ :=
    mergeFrom_spec (numSlots + 1) cells [] s.slots s.next linked.path linked.nodup
      (Nat.lt_succ_of_le linked.short)
  rw [← linked.path.head_eq] at ran
  have result : Linked { s with slots := slots, next := next } cells' :=
    ⟨path, linked.nodup.sublist sub, fun slot member => linked.used slot (sub.subset member), linked.room⟩
  refine ⟨_, _, ?_, result, ?_, rfl, rfl⟩
  · unfold Dev.mergeOverlapped
    rw [ran]
    rfl
  · rw [result.entries_eq, linked.entries_eq]
    exact content

/-- The slots of the entries that belong to a sublist. -/
def ofSublist (s : Pmmaps) (nr : Nat) (cells : List Nat) : List Nat :=
  cells.filter fun slot => decide (pmmapSublistNr (s.slots slot).type = some nr)

/-- The slots of each sublist are threaded, and the last one of each is known. -/
def Threaded (s : Pmmaps) (cells : List Nat) (lastSlot typeNext sublist : Nat → Option Nat) : Prop :=
  ∀ nr, ListSeg typeNext (sublist nr) (ofSublist s nr cells) ∧
    lastSlot nr = (ofSublist s nr cells).getLast?

/-- One round of step 2. -/
theorem Threaded.step {lastSlot typeNext sublist : Nat → Option Nat} {slot nr : Nat}
    (threaded : Threaded s cells lastSlot typeNext sublist) (nodup : cells.Nodup) (new : slot ∉ cells)
    (type : pmmapSublistNr (s.slots slot).type = some nr) :
    Threaded s (cells ++ [slot]) (update lastSlot nr (some slot))
      (insertAt typeNext (sublist nr) (lastSlot nr) slot).1
      (update sublist nr (insertAt typeNext (sublist nr) (lastSlot nr) slot).2) := by
  intro other
  obtain ⟨path, last⟩ := threaded nr
  have absent : ∀ k, slot ∉ ofSublist s k cells := fun k member => new (List.mem_of_mem_filter member)
  by_cases same : other = nr
  · subst same
    have longer : ofSublist s other (cells ++ [slot]) = ofSublist s other cells ++ [slot] := by
      unfold ofSublist
      rw [List.filter_append, List.filter_singleton]
      simp [type]
    have inserted : ListSeg _ _ _ := ListSeg.insert
      (x := slot) (show ListSeg typeNext (sublist other) (ofSublist s other cells ++ []) by rwa [List.append_nil])
      (by rw [List.append_nil]; exact nodup.filter _) (by rw [List.append_nil]; exact absent other)
    rw [longer, last, update_self, update_self, List.getLast?_append, List.getLast?_singleton]
    exact ⟨inserted, rfl⟩
  · have unchanged : ofSublist s other (cells ++ [slot]) = ofSublist s other cells := by
      unfold ofSublist
      rw [List.filter_append, List.filter_singleton]
      simp [type, Ne.symm same]
    obtain ⟨path', last'⟩ := threaded other
    rw [unchanged, update_of_ne same, update_of_ne same]
    refine ⟨path'.congr fun z member => insertAt_other ?_ ?_, last'⟩
    · rintro rfl
      exact absent other member
    · rw [last]
      intro ends
      have first := of_decide_eq_true (List.mem_filter.mp member).2
      have second := of_decide_eq_true (List.mem_filter.mp (List.mem_of_getLast? ends)).2
      exact same (Option.some.inj (first.symm.trans second))

/-- The loop of step 2 threads the slots from `link` on, if there is a list for each. -/
theorem sublistFrom_spec (fuel : Nat) (rest before : List Nat) (lastSlot typeNext sublist : Nat → Option Nat)
    (path : ListSeg s.next rest.head? rest) (nodup : (before ++ rest).Nodup) (enough : rest.length < fuel)
    (threaded : Threaded s before lastSlot typeNext sublist)
    (known : ∀ slot ∈ rest, pmmapSublistNr (s.slots slot).type ≠ none) :
    ∃ lastSlot' typeNext' sublist',
      sublistFrom s fuel rest.head? lastSlot typeNext sublist = .ok (lastSlot', typeNext', sublist') ∧
      Threaded s (before ++ rest) lastSlot' typeNext' sublist' := by
  induction fuel generalizing rest before lastSlot typeNext sublist with
  | zero => omega
  | succ fuel ih =>
    cases rest with
    | nil =>
      refine ⟨lastSlot, typeNext, sublist, rfl, ?_⟩
      rwa [List.append_nil]
    | cons slot rest =>
      obtain ⟨-, linked⟩ := path
      obtain ⟨nr, type⟩ := Option.ne_none_iff_exists'.mp (known slot List.mem_cons_self)
      have apart := List.nodup_append.mp nodup
      have new : slot ∉ before := fun member => apart.2.2 slot member slot List.mem_cons_self rfl
      have step := threaded.step apart.1 new type
      have next := linked.head_eq
      rw [List.append_cons] at nodup
      obtain ⟨lastSlot', typeNext', sublist', ran, done⟩ := ih rest (before ++ [slot]) _ _ _ (next ▸ linked) nodup
        (by simpa using enough) step fun other member => known other (List.mem_cons_of_mem slot member)
      rw [← List.append_cons] at done
      refine ⟨lastSlot', typeNext', sublist', ?_, done⟩
      simp only [List.head?_cons, sublistFrom, type, next]
      exact ran

/-- An entry whose type has no list stops step 2. -/
theorem sublistFrom_unknown (fuel : Nat) (rest : List Nat) (lastSlot typeNext sublist : Nat → Option Nat)
    (path : ListSeg s.next rest.head? rest) (enough : rest.length < fuel) {slot : Nat} (member : slot ∈ rest)
    (unknown : pmmapSublistNr (s.slots slot).type = none) :
    sublistFrom s fuel rest.head? lastSlot typeNext sublist = .error .sublistNr := by
  induction fuel generalizing rest lastSlot typeNext sublist with
  | zero => omega
  | succ fuel ih =>
    cases rest with
    | nil => exact absurd member List.not_mem_nil
    | cons first rest =>
      obtain ⟨-, linked⟩ := path
      have next := linked.head_eq
      rcases List.mem_cons.mp member with rfl | later
      · simp only [List.head?_cons, sublistFrom, unknown]
      · simp only [List.head?_cons, sublistFrom, next]
        cases pmmapSublistNr (s.slots first).type with
        | none => rfl
        | some nr => exact ih rest _ _ _ (next ▸ linked) (by simpa using enough) later

/-- Merging keeps the types. -/
theorem type_mergeEntries (entries : List Pmmap) (type : Nat) :
    (∃ slot ∈ mergeEntries entries, slot.type = type) ↔ ∃ slot ∈ entries, slot.type = type := by
  fun_induction mergeEntries entries with
  | case1 => rfl
  | case2 only => rfl
  | case3 first second rest absorbs ih =>
    have kept : (first.absorb second).type = first.type := rfl
    simp only [List.exists_mem_cons_iff, ih, kept, absorbs.2.2, or_self_left]
  | case4 first second rest apart ih => rw [List.exists_mem_cons_iff, List.exists_mem_cons_iff, ih]

/-- `pmmap_merge` merges the entries and threads them by type. -/
theorem Linked.merge (linked : Linked s cells) (fresh : ∀ nr, s.sublist nr = none)
    (known : ∀ slot ∈ s.entries, pmmapSublistNr slot.type ≠ none) :
    ∃ t cells', pmmapMerge s = .ok t ∧ Linked t cells' ∧ t.entries = mergeEntries s.entries ∧
      t.nentries = s.nentries ∧ ∀ nr, ListSeg t.typeNext (t.sublist nr) (ofSublist t nr cells') := by
  obtain ⟨t, cells', merged, linked', entries, lists, count⟩ := linked.mergeOverlapped
  have first := linked'.path.head_eq
  have listed : ∀ slot ∈ cells', pmmapSublistNr (t.slots slot).type ≠ none := by
    intro slot member
    have among : t.slots slot ∈ t.entries := by
      rw [linked'.entries_eq]
      exact List.mem_map_of_mem member
    rw [entries] at among
    obtain ⟨other, original, type⟩ := (type_mergeEntries ..).mp ⟨_, among, rfl⟩
    rw [← type]
    exact known other original
  have start : Threaded t [] (fun _ => none) t.typeNext t.sublist := fun nr =>
    ⟨(congrFun lists nr).trans (fresh nr), rfl⟩
  obtain ⟨lastSlot, typeNext, sublist, ran, threaded⟩ := sublistFrom_spec (numSlots + 1) cells' []
    (fun _ => none) t.typeNext t.sublist (first ▸ linked'.path) linked'.nodup
    (Nat.lt_succ_of_le linked'.short) start listed
  rw [← first] at ran
  have parts : pmmapMerge s = match lastSlot 0 with
      | some slot => .ok { t with
        typeNext := typeNext, sublist := sublist, maxUsableMemory := (t.slots slot).endAddr }
      | none => .ok { t with typeNext := typeNext, sublist := sublist } := by
    unfold pmmapMerge
    rw [merged]
    simp only [bind, Except.bind, ran]
  rw [parts]
  cases lastSlot 0 with
  | some slot =>
    exact ⟨_, cells', rfl, ⟨linked'.path, linked'.nodup, linked'.used, linked'.room⟩, entries, count,
      fun nr => (threaded nr).1⟩
  | none =>
    exact ⟨_, cells', rfl, ⟨linked'.path, linked'.nodup, linked'.used, linked'.room⟩, entries, count,
      fun nr => (threaded nr).1⟩

/-- An entry whose type has no list stops `pmmap_merge`. -/
theorem Linked.merge_unknown (linked : Linked s cells) {slot : Pmmap} (member : slot ∈ mergeEntries s.entries)
    (unknown : pmmapSublistNr slot.type = none) : pmmapMerge s = .error .sublistNr := by
  obtain ⟨t, cells', merged, linked', entries, -, -⟩ := linked.mergeOverlapped
  have first := linked'.path.head_eq
  rw [← entries, linked'.entries_eq] at member
  obtain ⟨cell, among, rfl⟩ := List.mem_map.mp member
  have stopped := sublistFrom_unknown (numSlots + 1) cells' (fun _ => none) t.typeNext t.sublist
    (first ▸ linked'.path) (Nat.lt_succ_of_le linked'.short) among unknown
  rw [← first] at stopped
  unfold pmmapMerge
  rw [merged]
  simp only [bind, Except.bind, stopped]

end Linked

/-! ## Sequences of insertions -/

/-- Calls of `pmmap_insert`. -/
def pmmapInserts : List Pmmap → Pmmaps → Except BootStop Pmmaps
  | [], s => .ok s
  | slot :: rest, s => do
    let s ← pmmapInsert s slot.start slot.endAddr slot.type
    pmmapInserts rest s

/-- The ranges that `pmmap_init` inserts. -/
def mmapRanges (mmap : List MbootMmap) : List Pmmap :=
  (mmap.filter fun p => decide (p.baseAddrHigh = 0)).map fun p => ⟨p.baseAddrLow, p.endAddr, p.type⟩

theorem insertAll_eq (mmap : List MbootMmap) (s : Pmmaps) :
    insertAll mmap s = pmmapInserts (mmapRanges mmap) s := by
  induction mmap generalizing s with
  | nil => rfl
  | cons p rest ih =>
    unfold insertAll
    split
    · next high =>
      rw [ih]
      simp only [mmapRanges, List.filter_cons, high, decide_false]
      rfl
    · next low =>
      have low : p.baseAddrHigh = 0 := by_contra low
      simp only [ih, mmapRanges, List.filter_cons, low, decide_true, if_true]
      rfl

theorem Linked.inserts {s : Pmmaps} {cells : List Nat} (linked : Linked s cells) (inserted : List Pmmap)
    (room : s.slotsNextFree + inserted.length ≤ numSlots) :
    ∃ t cells', pmmapInserts inserted s = .ok t ∧ Linked t cells' ∧
      t.entries = inserted.foldl (fun entries slot => insertEntry slot entries) s.entries ∧
      t.sublist = s.sublist ∧ t.nentries = s.nentries := by
  induction inserted generalizing s cells with
  | nil => exact ⟨s, cells, rfl, linked, rfl, rfl, rfl⟩
  | cons slot rest ih =>
    rw [List.length_cons] at room
    obtain ⟨t, cells', ran, linked', entries, free, lists, count⟩ :=
      linked.insert (by omega) slot.start slot.endAddr slot.type
    obtain ⟨u, cells'', ran', linked'', entries', lists', count'⟩ := ih linked' (by omega)
    refine ⟨u, cells'', ?_, linked'', ?_, lists'.trans lists, count'.trans count⟩
    · simp only [pmmapInserts, ran]
      exact ran'
    · rw [entries', entries]
      rfl

end OsAudio.Dev

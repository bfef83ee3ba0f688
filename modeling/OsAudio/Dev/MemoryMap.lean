import OsAudio.Dev.Mboot

/-!
# Sorting and merging the memory map

What `pmmap_insert` and `pmmap_merge` leave, for any sequence of ranges: the list is sorted, the
entries of each type cover the addresses that were inserted with this type, and each sublist is the
list restricted to its type.  Step 1 of `pmmap_merge` goes on behind the entry it has just absorbed
and does not look at the one after it again, so a chain of three ranges is left in two pieces.
-/
namespace OsAudio.Dev
open OsAudio.Lib

/-! ## Order -/

/-- The entries are sorted by their start. -/
def SortedByStart (entries : List Pmmap) : Prop := entries.Pairwise fun a b => a.start ≤ b.start

variable {slot a b : Pmmap} {entries rest : List Pmmap} {type : Nat} {mmap : List MbootMmap}

theorem mem_insertEntry {other : Pmmap} :
    other ∈ insertEntry slot entries ↔ other = slot ∨ other ∈ entries := by
  unfold insertEntry
  rw [List.mem_append, List.mem_cons]
  nth_rewrite 3 [← List.takeWhile_append_dropWhile (p := fun other => !decide (slot.start < other.start))
    (l := entries)]
  rw [List.mem_append]
  tauto

/-- From the first entry that starts later on, all of them do. -/
theorem SortedByStart.later {other : Pmmap} (sorted : SortedByStart entries)
    (member : other ∈ entries.dropWhile fun other => !decide (slot.start < other.start)) :
    slot.start < other.start := by
  induction entries with
  | nil => exact absurd member List.not_mem_nil
  | cons first rest ih =>
    obtain ⟨least, sorted⟩ := List.pairwise_cons.mp sorted
    by_cases early : slot.start < first.start
    · rw [List.dropWhile_cons_of_neg (by simpa using early)] at member
      rcases List.mem_cons.mp member with rfl | later
      · exact early
      · exact Nat.lt_of_lt_of_le early (least other later)
    · rw [List.dropWhile_cons_of_pos (by simpa using early)] at member
      exact ih sorted member

theorem SortedByStart.insertEntry (sorted : SortedByStart entries) (slot : Pmmap) :
    SortedByStart (insertEntry slot entries) := by
  have parts : SortedByStart (entries.takeWhile (fun other => !decide (slot.start < other.start)) ++
      entries.dropWhile (fun other => !decide (slot.start < other.start))) := by
    rwa [List.takeWhile_append_dropWhile]
  obtain ⟨early, late, between⟩ := List.pairwise_append.mp parts
  refine List.pairwise_append.mpr ⟨early, List.pairwise_cons.mpr ⟨fun other member => ?_, late⟩, ?_⟩
  · exact Nat.le_of_lt (sorted.later member)
  · intro a before b after
    rcases List.mem_cons.mp after with rfl | after
    · have stays := List.all_eq_true.mp List.all_takeWhile a before
      simpa using stays
    · exact between a before b after

/-- Merging drops entries and keeps the starts of the others. -/
theorem starts_mergeEntries (entries : List Pmmap) :
    ((mergeEntries entries).map Pmmap.start).Sublist (entries.map Pmmap.start) := by
  fun_induction mergeEntries entries with
  | case1 => exact List.Sublist.refl _
  | case2 only => exact List.Sublist.refl _
  | case3 first second rest absorbs ih => exact (ih.cons second.start).cons_cons first.start
  | case4 first second rest apart ih => exact ih.cons_cons first.start

theorem SortedByStart.mergeEntries (sorted : SortedByStart entries) :
    SortedByStart (mergeEntries entries) := by
  have starts : (entries.map Pmmap.start).Pairwise (· ≤ ·) := List.pairwise_map.mpr sorted
  exact List.pairwise_map.mp (starts.sublist (starts_mergeEntries entries))

/-! ## Coverage -/

/-- Address `a` lies in a range of the given type. -/
def Covered (entries : List Pmmap) (type a : Nat) : Prop :=
  ∃ slot ∈ entries, slot.type = type ∧ slot.start ≤ a ∧ a < slot.endAddr

theorem covered_cons {a : Nat} :
    Covered (slot :: rest) type a ↔
      (slot.type = type ∧ slot.start ≤ a ∧ a < slot.endAddr) ∨ Covered rest type a := by
  unfold Covered
  rw [List.exists_mem_cons_iff]

/-- The range that has absorbed another covers what the two did. -/
theorem absorb_covers {nextSlot : Pmmap} (absorbs : Absorbs slot nextSlot) (type a : Nat) :
    ((slot.absorb nextSlot).type = type ∧ (slot.absorb nextSlot).start ≤ a ∧ a < (slot.absorb nextSlot).endAddr) ↔
      (slot.type = type ∧ slot.start ≤ a ∧ a < slot.endAddr) ∨
        (nextSlot.type = type ∧ nextSlot.start ≤ a ∧ a < nextSlot.endAddr) := by
  obtain ⟨order, overlap, same⟩ := absorbs
  change slot.type = type ∧ slot.start ≤ a ∧ a < max slot.endAddr nextSlot.endAddr ↔ _
  omega

theorem covered_mergeEntries (entries : List Pmmap) (type a : Nat) :
    Covered (mergeEntries entries) type a ↔ Covered entries type a := by
  fun_induction mergeEntries entries with
  | case1 => exact Iff.rfl
  | case2 only => exact Iff.rfl
  | case3 first second rest absorbs ih =>
    rw [covered_cons, covered_cons, covered_cons, absorb_covers absorbs, ih, or_assoc]
  | case4 first second rest apart ih => rw [covered_cons, covered_cons, ih]

/-! ## The list before merging -/

/-- The entries of the list after the calls of `pmmap_insert`. -/
def insertedEntries (inserted : List Pmmap) : List Pmmap :=
  inserted.foldl (fun entries slot => insertEntry slot entries) []

theorem mem_insertedEntries {inserted : List Pmmap} :
    slot ∈ insertedEntries inserted ↔ slot ∈ inserted := by
  have general : ∀ entries, slot ∈ inserted.foldl (fun entries slot => insertEntry slot entries) entries ↔
      slot ∈ entries ∨ slot ∈ inserted := by
    induction inserted with
    | nil => simp
    | cons first rest ih =>
      intro entries
      rw [List.foldl_cons, ih, mem_insertEntry, List.mem_cons]
      tauto
  unfold insertedEntries
  rw [general]
  simp

theorem sorted_insertedEntries (inserted : List Pmmap) : SortedByStart (insertedEntries inserted) := by
  have general : ∀ entries, SortedByStart entries →
      SortedByStart (inserted.foldl (fun entries slot => insertEntry slot entries) entries) := by
    induction inserted with
    | nil => exact fun _ sorted => sorted
    | cons first rest ih => exact fun entries sorted => ih _ (sorted.insertEntry first)
  exact general [] List.Pairwise.nil

/-- The calls of `pmmap_insert` return while there are slots. -/
theorem inserts_return {inserted : List Pmmap} (few : inserted.length ≤ numSlots) :
    ∃ s cells, pmmapInserts inserted bootPmmaps = .ok s ∧ Linked s cells ∧
      s.entries = insertedEntries inserted ∧ (∀ nr, s.sublist nr = none) ∧ s.nentries = 0 := by
  obtain ⟨s, cells, ran, linked, entries, lists, count⟩ := linked_boot.inserts inserted
    (Nat.le_trans (Nat.zero_add _).le few)
  rw [linked_boot.entries_eq] at entries
  exact ⟨s, cells, ran, linked, entries, fun nr => congrFun lists nr, count⟩

/-- A type that has a list. -/
def KnownType (type : Nat) : Prop :=
  type = memRam ∨ type = memReserved ∨ type = memAcpi ∨ type = memNvs

instance (type : Nat) : Decidable (KnownType type) := inferInstanceAs (Decidable (_ ∨ _ ∨ _ ∨ _))

theorem knownType_iff : KnownType type ↔ pmmapSublistNr type ≠ none := by
  unfold KnownType pmmapSublistNr
  split
  · simp_all
  split
  · simp_all
  split
  · simp_all
  split
  · simp_all
  · simp_all

theorem type_of_sublistNr {nr : Nat} (number : pmmapSublistNr type = some nr) : type = nr + 1 := by
  unfold pmmapSublistNr at number
  split at number
  · next ram => exact ram.trans (congrArg (· + 1) (Option.some.inj number))
  split at number
  · next reserved => exact reserved.trans (congrArg (· + 1) (Option.some.inj number))
  split at number
  · next acpi => exact acpi.trans (congrArg (· + 1) (Option.some.inj number))
  split at number
  · next nvs => exact nvs.trans (congrArg (· + 1) (Option.some.inj number))
  · cases number

/-- For any ranges of known types, inserted in any order and then merged: the list is sorted by start,
the entries of each type cover exactly the addresses inserted with this type, and each sublist holds
the entries of its type in the order of the list. -/
theorem memory_map_faithful (inserted : List Pmmap) (few : inserted.length ≤ numSlots)
    (types : ∀ slot ∈ inserted, KnownType slot.type) :
    ∃ s cells, (pmmapInserts inserted bootPmmaps >>= pmmapMerge) = .ok s ∧ ListSeg s.next s.list cells ∧
      SortedByStart (cells.map s.slots) ∧
      (∀ type a, Covered (cells.map s.slots) type a ↔ Covered inserted type a) ∧
      ∀ type nr, pmmapSublistNr type = some nr →
        ListSeg s.typeNext (s.sublist nr) (cells.filter fun slot => (s.slots slot).type = type) := by
  obtain ⟨s, cells, ran, linked, entries, fresh, -⟩ := inserts_return few
  have known : ∀ slot ∈ s.entries, pmmapSublistNr slot.type ≠ none := by
    intro slot member
    rw [entries, mem_insertedEntries] at member
    exact knownType_iff.mp (types slot member)
  obtain ⟨t, cells', merged, linked', entries', -, threads⟩ := linked.merge fresh known
  rw [linked'.entries_eq, entries] at entries'
  refine ⟨t, cells', ?_, linked'.path, ?_, fun type a => ?_, fun type nr number => ?_⟩
  · rw [ran]
    exact merged
  · rw [entries']
    exact (sorted_insertedEntries inserted).mergeEntries
  · rw [entries', covered_mergeEntries]
    unfold Covered
    simp only [mem_insertedEntries]
  · have same : ofSublist t nr cells' = cells'.filter fun slot => (t.slots slot).type = type := by
      unfold ofSublist
      refine List.filter_congr fun slot _ => decide_eq_decide.mpr ⟨fun other => ?_, fun equal => ?_⟩
      · exact (type_of_sublistNr other).trans (type_of_sublistNr number).symm
      · rw [equal, number]
    rw [← same]
    exact threads nr

/-- Four ranges, neither in order nor disjoint. -/
def fourRanges : List Pmmap :=
  [⟨0x100000, 0x200000, memRam⟩, ⟨0, 0x9fc00, memRam⟩, ⟨0x9fc00, 0xa0000, memReserved⟩,
    ⟨0x180000, 0x300000, memRam⟩]

theorem fourRanges_faithful :
    fourRanges.length ≤ numSlots ∧ (∀ slot ∈ fourRanges, KnownType slot.type) ∧
    ∃ s cells, (pmmapInserts fourRanges bootPmmaps >>= pmmapMerge) = .ok s ∧ ListSeg s.next s.list cells ∧
      SortedByStart (cells.map s.slots) ∧
      (∀ type a, Covered (cells.map s.slots) type a ↔ Covered fourRanges type a) ∧
      ∀ type nr, pmmapSublistNr type = some nr →
        ListSeg s.typeNext (s.sublist nr) (cells.filter fun slot => (s.slots slot).type = type) :=
  ⟨by decide, by decide, memory_map_faithful fourRanges (by decide) (by decide)⟩

/-! ## The map of the machine -/

/-- A memory map, as `pmmap_init` leaves it: every entry is a range of 32-bit addresses. -/
structure MemoryMap (s : Pmmaps) : Prop where
  count : s.nentries = s.entries.length
  ordered : ∀ slot ∈ s.entries, slot.start ≤ slot.endAddr
  word : ∀ slot ∈ s.entries, slot.endAddr < 4294967296

/-- Merging keeps a bound on the ranges. -/
theorem mergeEntries_bounded {bound : Nat}
    (bounded : ∀ slot ∈ entries, slot.start ≤ slot.endAddr ∧ slot.endAddr < bound) :
    ∀ slot ∈ mergeEntries entries, slot.start ≤ slot.endAddr ∧ slot.endAddr < bound := by
  fun_induction mergeEntries entries with
  | case1 => exact bounded
  | case2 only => exact bounded
  | case3 first second rest absorbs ih =>
    intro slot member
    rcases List.mem_cons.mp member with rfl | later
    · have one := bounded first List.mem_cons_self
      have two := bounded second (by simp)
      change first.start ≤ max first.endAddr second.endAddr ∧ max first.endAddr second.endAddr < bound
      omega
    · exact ih (fun other among => bounded other (by simp [among])) slot later
  | case4 first second rest apart ih =>
    intro slot member
    rcases List.mem_cons.mp member with rfl | later
    · exact bounded slot List.mem_cons_self
    · exact ih (fun other among => bounded other (List.mem_cons_of_mem first among)) slot later

/-- The fields of an entry are 32-bit words. -/
def MbootMmap.Words (p : MbootMmap) : Prop :=
  p.baseAddrLow < 4294967296 ∧ p.baseAddrHigh < 4294967296 ∧ p.lengthLow < 4294967296 ∧
    p.lengthHigh < 4294967296 ∧ p.type < 4294967296

instance (p : MbootMmap) : Decidable p.Words := inferInstanceAs (Decidable (_ ∧ _ ∧ _ ∧ _ ∧ _))

/-- An entry of the multiboot map becomes a range that ends at `0xffffffff` at the latest. -/
theorem MbootMmap.endAddr_bounds {p : MbootMmap} (words : p.Words) :
    p.baseAddrLow ≤ p.endAddr ∧ p.endAddr < 4294967296 := by
  have low := words.1
  unfold MbootMmap.endAddr
  split
  · omega
  · next short => omega

theorem mmapRanges_bounded (words : ∀ p ∈ mmap, p.Words) :
    ∀ slot ∈ insertedEntries (mmapRanges mmap), slot.start ≤ slot.endAddr ∧ slot.endAddr < 4294967296 := by
  intro slot member
  obtain ⟨p, kept, rfl⟩ := List.mem_map.mp (mem_insertedEntries.mp member)
  exact MbootMmap.endAddr_bounds (words p (List.mem_of_mem_filter kept))

theorem length_mmapRanges_le (mmap : List MbootMmap) : (mmapRanges mmap).length ≤ mmap.length := by
  unfold mmapRanges
  rw [List.length_map]
  exact List.length_filter_le ..

/-- An entry that `pmmap_init` inserts. -/
theorem mem_mmapRanges :
    slot ∈ mmapRanges mmap ↔
      ∃ p ∈ mmap, p.baseAddrHigh = 0 ∧ ⟨p.baseAddrLow, p.endAddr, p.type⟩ = slot := by
  unfold mmapRanges
  simp only [List.mem_map, List.mem_filter, decide_eq_true_iff, and_assoc]

/-- With at most 128 entries of known types, `pmmap_init` returns. -/
theorem pmmapInit_returns {mmap : List MbootMmap} (few : mmap.length ≤ numSlots) (words : ∀ p ∈ mmap, p.Words)
    (types : ∀ p ∈ mmap, p.baseAddrHigh = 0 → KnownType p.type) :
    ∃ s, pmmapInit mmap = .ok s ∧ MemoryMap s ∧
      s.entries = mergeEntries (insertedEntries (mmapRanges mmap)) := by
  obtain ⟨s, cells, ran, linked, entries, fresh, zero⟩ :=
    inserts_return (Nat.le_trans (length_mmapRanges_le mmap) few)
  have known : ∀ slot ∈ s.entries, pmmapSublistNr slot.type ≠ none := by
    intro slot member
    rw [entries, mem_insertedEntries, mem_mmapRanges] at member
    obtain ⟨p, among, low, rfl⟩ := member
    exact knownType_iff.mp (types p among low)
  obtain ⟨t, cells', merged, linked', entries', count, -⟩ := linked.merge fresh known
  rw [entries] at entries'
  have bounded := mergeEntries_bounded (mmapRanges_bounded words)
  rw [← entries'] at bounded
  refine ⟨{ t with
    nentries := t.nentries + t.cells.length
    memNpages := (t.maxUsableMemory - t.maxUsableMemory % 4096) / 4096 }, ?_, ⟨?_, ?_, ?_⟩, entries'⟩
  · unfold pmmapInit
    rw [insertAll_eq, ran]
    simp only [bind, Except.bind, merged]
  · change t.nentries + t.cells.length = (t.cells.map t.slots).length
    rw [count, zero, Nat.zero_add, List.length_map]
  · exact fun slot member => (bounded slot member).1
  · exact fun slot member => (bounded slot member).2

/-- An entry of unknown type below 4 GB stops `pmmap_init`. -/
theorem pmmapInit_unknown (few : mmap.length ≤ numSlots) {p : MbootMmap}
    (member : p ∈ mmap) (low : p.baseAddrHigh = 0) (unknown : ¬ KnownType p.type) :
    pmmapInit mmap = .error .sublistNr := by
  obtain ⟨s, cells, ran, linked, entries, -, -⟩ :=
    inserts_return (Nat.le_trans (length_mmapRanges_le mmap) few)
  have inserted : ⟨p.baseAddrLow, p.endAddr, p.type⟩ ∈ s.entries := by
    rw [entries, mem_insertedEntries, mem_mmapRanges]
    exact ⟨p, member, low, rfl⟩
  obtain ⟨other, among, type⟩ := (type_mergeEntries ..).mpr ⟨_, inserted, rfl⟩
  have none : pmmapSublistNr other.type = none := by
    rw [type]
    by_contra listed
    exact unknown (knownType_iff.mpr listed)
  unfold pmmapInit
  rw [insertAll_eq, ran]
  simp only [bind, Except.bind, linked.merge_unknown among none]

/-! ## Completeness of merging -/

/-- The second range has the type of the first and starts at or before its end. -/
def Touches (a b : Pmmap) : Prop := a.type = b.type ∧ b.start ≤ a.endAddr

/-- No entry touches the next one. -/
def Separate (entries : List Pmmap) : Prop := entries.IsChain fun a b => ¬ Touches a b

/-- The second of three entries touches the first, and the third touches one of them. -/
def Chained (a b c : Pmmap) : Prop := Touches a b ∧ b.type = c.type ∧ c.start ≤ max a.endAddr b.endAddr

/-- No three entries in a row are chained. -/
def Unchained (entries : List Pmmap) : Prop :=
  ∀ before a b c after, entries = before ++ a :: b :: c :: after → ¬ Chained a b c

theorem SortedByStart.absorbs_iff (sorted : SortedByStart (a :: b :: rest)) :
    Absorbs a b ↔ Touches a b := by
  have order : a.start ≤ b.start := (List.pairwise_cons.mp sorted).1 b List.mem_cons_self
  unfold Absorbs Touches
  tauto

theorem unchained_short (short : entries.length ≤ 2) : Unchained entries := by
  intro before a b c after equal
  rw [equal] at short
  simp only [List.length_append, List.length_cons] at short
  omega

theorem unchained_cons {c : Pmmap} :
    Unchained (a :: b :: c :: rest) ↔ ¬ Chained a b c ∧ Unchained (b :: c :: rest) := by
  constructor
  · intro unchained
    refine ⟨unchained [] a b c rest rfl, fun before x y z after equal => ?_⟩
    exact unchained (a :: before) x y z after (congrArg (a :: ·) equal)
  · rintro ⟨first, others⟩ before x y z after equal
    cases before with
    | nil =>
      obtain ⟨rfl, rfl, rfl, -⟩ : a = x ∧ b = y ∧ c = z ∧ rest = after := by simpa using equal
      exact first
    | cons w before =>
      obtain ⟨-, equal⟩ := List.cons.inj equal
      exact others before x y z after equal

/-- The first entry keeps its start and its type. -/
theorem mergeEntries_cons (slot : Pmmap) (rest : List Pmmap) :
    ∃ first others, mergeEntries (slot :: rest) = first :: others ∧ first.start = slot.start ∧
      first.type = slot.type := by
  cases rest with
  | nil => exact ⟨slot, [], rfl, rfl, rfl⟩
  | cons second rest =>
    unfold mergeEntries
    split
    · exact ⟨_, _, rfl, rfl, rfl⟩
    · exact ⟨_, _, rfl, rfl, rfl⟩

/-- An entry touches the first of the merged ones if it touches the first before. -/
theorem separate_cons_merge :
    Separate (a :: mergeEntries (slot :: rest)) ↔
      ¬ Touches a slot ∧ Separate (mergeEntries (slot :: rest)) := by
  obtain ⟨first, others, equal, start, type⟩ := mergeEntries_cons slot rest
  unfold Separate Touches
  rw [equal, List.isChain_cons_cons, start, type]

theorem Unchained.tail (unchained : Unchained (a :: rest)) : Unchained rest :=
  fun before x y z after equal => unchained (a :: before) x y z after (congrArg (a :: ·) equal)

/-- Behind an entry that nothing touches, chains can start only at the next one. -/
theorem unchained_of_apart (apart : ¬ Touches a b) :
    Unchained (a :: b :: rest) ↔ Unchained (b :: rest) := by
  cases rest with
  | nil => exact iff_of_true (unchained_short (by simp)) (unchained_short (by simp))
  | cons c rest =>
    rw [unchained_cons]
    exact and_iff_right fun chained => apart chained.1

/-- Merging separates the entries exactly when no three of them are chained. -/
theorem SortedByStart.separate_iff (sorted : SortedByStart entries) :
    Separate (Dev.mergeEntries entries) ↔ Unchained entries := by
  fun_induction Dev.mergeEntries entries with
  | case1 => exact iff_of_true List.IsChain.nil (unchained_short (by simp))
  | case2 only => exact iff_of_true (List.IsChain.singleton only) (unchained_short (by simp))
  | case3 a b rest absorbs ih =>
    obtain ⟨same, overlap⟩ := sorted.absorbs_iff.mp absorbs
    have sorted' : SortedByStart rest := (List.pairwise_cons.mp (List.pairwise_cons.mp sorted).2).2
    cases rest with
    | nil => exact iff_of_true (List.IsChain.singleton _) (unchained_short (by simp))
    | cons c rest =>
      have chained : Chained a b c ↔ Touches (a.absorb b) c := by
        unfold Chained Touches Pmmap.absorb
        dsimp only
        rw [same]
        exact and_iff_right ⟨rfl, overlap⟩
      rw [separate_cons_merge, ih sorted', unchained_cons, chained]
      refine and_congr_right fun apart => ⟨fun others => ?_, Unchained.tail⟩
      -- Were `c` to touch `b`, it would touch the entry that has absorbed `b`.
      refine (unchained_of_apart fun touches => apart ?_).mpr others
      exact ⟨same.trans touches.1, Nat.le_trans touches.2 (Nat.le_max_right ..)⟩
  | case4 a b rest absorbs ih =>
    have apart : ¬ Touches a b := fun touches => absorbs (sorted.absorbs_iff.mpr touches)
    rw [separate_cons_merge, ih (List.pairwise_cons.mp sorted).2, unchained_of_apart apart]
    exact and_iff_right apart

theorem length_mergeEntries_le (entries : List Pmmap) : (mergeEntries entries).length ≤ entries.length := by
  have starts := (starts_mergeEntries entries).length_le
  rwa [List.length_map, List.length_map] at starts

/-- Merging changes nothing exactly when the entries are separate. -/
theorem SortedByStart.merge_fixed_iff (sorted : SortedByStart entries) :
    Dev.mergeEntries entries = entries ↔ Separate entries := by
  fun_induction Dev.mergeEntries entries with
  | case1 => exact iff_of_true rfl List.IsChain.nil
  | case2 only => exact iff_of_true rfl (List.IsChain.singleton only)
  | case3 a b rest absorbs ih =>
    refine iff_of_false (fun equal => ?_) fun separate => ?_
    · have shorter := length_mergeEntries_le rest
      have length := congrArg List.length equal
      simp only [List.length_cons] at length
      omega
    · exact (List.isChain_cons_cons.mp separate).1 (sorted.absorbs_iff.mp absorbs)
  | case4 a b rest absorbs ih =>
    have apart : ¬ Touches a b := fun touches => absorbs (sorted.absorbs_iff.mpr touches)
    have rest_fixed := ih (List.pairwise_cons.mp sorted).2
    unfold Separate at rest_fixed ⊢
    rw [List.isChain_cons_cons, ← rest_fixed, List.cons.injEq]
    tauto

/-- For any ranges, step 1 of `pmmap_merge` leaves no entry that touches the one before it, or,
equivalently, changes nothing when it is made again, exactly when no three entries in a row are
chained. -/
theorem merging_complete_iff (inserted : List Pmmap) (few : inserted.length ≤ numSlots) :
    ∃ s t u, pmmapInserts inserted bootPmmaps = .ok s ∧ mergeOverlapped s = .ok t ∧
      mergeOverlapped t = .ok u ∧ (Separate t.entries ↔ Unchained s.entries) ∧
      (u.entries = t.entries ↔ Unchained s.entries) := by
  obtain ⟨s, cells, ran, linked, entries, -, -⟩ := inserts_return few
  obtain ⟨t, cells', merged, linked', entries', -, -⟩ := linked.mergeOverlapped
  obtain ⟨u, -, again, -, entries'', -, -⟩ := linked'.mergeOverlapped
  have sorted : SortedByStart s.entries := by
    rw [entries]
    exact sorted_insertedEntries inserted
  refine ⟨s, t, u, ran, merged, again, ?_, ?_⟩
  · rw [entries']
    exact sorted.separate_iff
  · rw [entries'', entries', sorted.mergeEntries.merge_fixed_iff]
    exact sorted.separate_iff

/-- Three ranges of usable memory, each of which overlaps the next. -/
def threeRanges : List Pmmap :=
  [⟨0x100000, 0x300000, memRam⟩, ⟨0x200000, 0x500000, memRam⟩, ⟨0x400000, 0x600000, memRam⟩]

theorem threeRanges_complete_iff :
    ∃ s t u, pmmapInserts threeRanges bootPmmaps = .ok s ∧ mergeOverlapped s = .ok t ∧
      mergeOverlapped t = .ok u ∧ (Separate t.entries ↔ Unchained s.entries) ∧
      (u.entries = t.entries ↔ Unchained s.entries) :=
  merging_complete_iff threeRanges (by decide)

/-- The first two ranges are merged, and the third is left although it overlaps the result. -/
theorem threeRanges_left_apart :
    ((pmmapInserts threeRanges bootPmmaps >>= mergeOverlapped).map Pmmaps.entries) =
      .ok [⟨0x100000, 0x500000, memRam⟩, ⟨0x400000, 0x600000, memRam⟩] ∧
    Touches ⟨0x100000, 0x500000, memRam⟩ ⟨0x400000, 0x600000, memRam⟩ ∧
    ((pmmapInserts threeRanges bootPmmaps >>= mergeOverlapped >>= mergeOverlapped).map Pmmaps.entries) =
      .ok [⟨0x100000, 0x600000, memRam⟩] := by
  refine ⟨by rfl, ⟨rfl, by decide⟩, by rfl⟩

end OsAudio.Dev

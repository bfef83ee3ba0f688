import Mathlib.Data.List.Induction
import OsAudio.Lib.Bytes
import OsAudio.Lib.TableWalk

/-!
# Finding the processors

`pcpu_mp_init` and `mp_init_fallback` of `kern/dev/pcpu_mp.c`: both walk over a table that the
firmware has left in memory, the MADT or the MP configuration table, and note the processors and the
I/O APICs in it.  What they do after the walk (the interrupt mode register, the boot code of the other
processors) changes none of this.  The counters count records of one table, so they do not wrap
around.
-/
namespace OsAudio.Dev
open OsAudio.Lib

def numCpus : Nat := 8
def maxIoapic : Nat := 16
def addressSpace : Nat := 4294967296

/-- The fields of `struct pcpuinfo` that the tables fill in. -/
structure PcpuInfo where
  lapicid : Nat
  bsp : Bool
  deriving DecidableEq, Repr

/-- `ncpu`, the array `pcpu`, the locals `ap_idx` and `found_bsp`, the registered I/O APICs, and the
records that were processed. -/
structure Cpus where
  ncpu : Nat
  pcpu : Nat → PcpuInfo
  apIdx : Nat
  foundBsp : Bool
  ioapics : List (Nat × Nat × Nat)
  processed : List Nat

/-- `pcpu_set_zero` has cleared the array. -/
def bootCpus : Cpus := ⟨0, fun _ => ⟨0, false⟩, 1, false, [], []⟩

/-- The assertion at its start holds in all calls: the first processor is entered as number 0. -/
def pcpuMpInitCpu (s : Cpus) (idx lapicId : Nat) (isBsp : Bool) : Cpus :=
  if numCpus ≤ idx then s else { s with pcpu := Function.update s.pcpu idx ⟨lapicId, isBsp⟩ }

def ioapicRegister (s : Cpus) (addr id gsi : Nat) : Cpus :=
  if maxIoapic ≤ s.ioapics.length then s else { s with ioapics := s.ioapics ++ [(addr, id, gsi)] }

def addAp (s : Cpus) (lapicId : Nat) : Cpus :=
  let s := pcpuMpInitCpu s s.apIdx lapicId false
  { s with apIdx := s.apIdx + 1, ncpu := s.ncpu + 1 }

def addBsp (s : Cpus) (lapicId : Nat) : Cpus :=
  let s := pcpuMpInitCpu s 0 lapicId true
  { s with ncpu := s.ncpu + 1 }

/-! ## The MADT -/

/-- The LAPIC id in the record, if it is one of an enabled processor. -/
def enabledLapic (mem : Bytes) (p : Nat) : Option Nat :=
  if (mem p).toNat = 0 ∧ Bytes.get mem (p + 4) 4 % 2 = 1 then some (mem (p + 3)).toNat else none

/-- One round of the loop of `pcpu_mp_init`. -/
def madtRecord (mem : Bytes) (p : Nat) (s : Cpus) : Cpus :=
  let s := { s with processed := s.processed ++ [p] }
  match enabledLapic mem p with
  | some id => if s.foundBsp then addAp s id else addBsp { s with foundBsp := true } id
  | none =>
    if (mem p).toNat = 1 then
      ioapicRegister s (Bytes.get mem (p + 4) 4) (mem (p + 2)).toNat (Bytes.get mem (p + 8) 4)
    else s

/-- `hdr->length` -/
def madtSize (mem : Bytes) (p : Nat) : Nat := (mem (p + 1)).toNat

/-- The end of the MADT. -/
def madtEnd (mem : Bytes) (madt : Nat) : Nat := madt + Bytes.get mem (madt + 4) 4

/-- The loop of `pcpu_mp_init` over the MADT at address `madt`. -/
def pcpuMpInit (mem : Bytes) (madt fuel : Nat) : Walk Cpus :=
  if addressSpace ≤ madtEnd mem madt then .undefined bootCpus
  else walk (madtSize mem) (madtRecord mem) (madtEnd mem madt) addressSpace fuel (madt + 44) bootCpus

/-- The records of the MADT that the loop comes to within `fuel` rounds. -/
def madtRecords (mem : Bytes) (madt fuel : Nat) : List Nat :=
  recordsFrom (madtSize mem) (madtEnd mem madt) addressSpace fuel (madt + 44)

/-- `sum` of `acpi.c` and `pcpu_mp.c`; its second argument is an `int`. -/
def sumBytes (mem : Bytes) (addr len : Nat) : Nat :=
  if len < 2147483648 then ((List.range len).map fun i => (mem (addr + i)).toNat).sum % 256 else 0

/-- The test by which `acpi_probe_rsdt_ent` and `acpi_probe_xsdt_ent` accept a table. -/
def AcceptsMadt (mem : Bytes) (hdr : Nat) : Prop :=
  Bytes.get mem hdr 4 = 0x43495041 ∧ sumBytes mem hdr (Bytes.get mem (hdr + 4) 4) = 0

/-! ## The MP configuration table -/

/-- How far the loop of `mp_init_fallback` moves; it stays where it is on a type it does not know. -/
def mpSize (mem : Bytes) (p : Nat) : Nat :=
  match (mem p).toNat with
  | 0 => 20
  | 1 | 2 | 3 | 4 => 8
  | _ => 0

/-- One round of the loop of `mp_init_fallback`. -/
def mpRecord (mem : Bytes) (p : Nat) (s : Cpus) : Cpus :=
  let s := { s with processed := s.processed ++ [p] }
  match (mem p).toNat with
  | 0 =>
    let flags := (mem (p + 3)).toNat
    if flags % 2 = 0 then s
    else if flags / 2 % 2 = 1 then addBsp s (mem (p + 1)).toNat
    else addAp s (mem (p + 1)).toNat
  | 2 => ioapicRegister s (Bytes.get mem (p + 4) 4) (mem (p + 1)).toNat 0
  | _ => s

def mpEnd (mem : Bytes) (conf : Nat) : Nat := conf + Bytes.get mem (conf + 4) 2

/-- The loop of `mp_init_fallback` over the table at address `conf`. -/
def mpInitFallback (mem : Bytes) (conf fuel : Nat) : Walk Cpus :=
  if addressSpace ≤ mpEnd mem conf then .undefined bootCpus
  else walk (mpSize mem) (mpRecord mem) (mpEnd mem conf) addressSpace fuel (conf + 44) bootCpus

def mpRecords (mem : Bytes) (conf fuel : Nat) : List Nat :=
  recordsFrom (mpSize mem) (mpEnd mem conf) addressSpace fuel (conf + 44)

/-- The tests of `mpconfig`: the signature `PCMP`, the version and the checksum. -/
def AcceptsMpconf (mem : Bytes) (conf : Nat) : Prop :=
  Bytes.get mem conf 4 = 0x504d4350 ∧ ((mem (conf + 6)).toNat = 1 ∨ (mem (conf + 6)).toNat = 4) ∧
    sumBytes mem conf (Bytes.get mem (conf + 4) 2) = 0

/-! ## Termination -/

/-- The walk comes to the end of the table, and no record at or behind the end is processed. -/
def Terminates (run : Nat → Walk Cpus) (stop : Nat) : Prop :=
  (∃ fuel t, run fuel = .done t) ∧ ∀ fuel, ∀ p ∈ (run fuel).state.processed, p < stop

section Termination
variable {mem : Bytes} {size : Nat → Nat} {act : Nat → Cpus → Cpus} {stop first : Nat}

/-- A walk that notes the records it processes, over a table that lies below 4 GB. -/
theorem terminates_iff (notes : ∀ p s, (act p s).processed = s.processed ++ [p]) :
    Terminates (fun fuel => if addressSpace ≤ stop then .undefined bootCpus
      else walk size act stop addressSpace fuel first bootCpus) stop ↔
    stop < addressSpace ∧
      ∀ fuel, ∀ p ∈ recordsFrom size stop addressSpace fuel first, Moves size addressSpace p := by
  by_cases outside : addressSpace ≤ stop
  · simp only [Terminates, if_pos outside]
    constructor
    · rintro ⟨⟨fuel, t, finished⟩, -⟩
      cases finished
    · intro below
      omega
  · have processed : ∀ fuel, (walk size act stop addressSpace fuel first bootCpus).state.processed =
        recordsFrom size stop addressSpace fuel first := by
      intro fuel
      rw [walk_state]
      have general : ∀ (ps : List Nat) (s : Cpus),
          (ps.foldl (fun s p => act p s) s).processed = s.processed ++ ps := by
        intro ps
        induction ps with
        | nil => simp
        | cons p ps ih => simp [ih, notes]
      exact general _ bootCpus
    simp only [Terminates, if_neg outside, processed, walk_done_iff]
    constructor
    · exact fun both => ⟨by omega, both.1⟩
    · exact fun both => ⟨both.2, fun fuel => recordsFrom_lt fuel⟩

section Init
variable (s : Cpus) (idx id : Nat) (bsp : Bool)

@[simp] theorem processed_init : (pcpuMpInitCpu s idx id bsp).processed = s.processed := by
  unfold pcpuMpInitCpu
  split <;> rfl

@[simp] theorem ncpu_init : (pcpuMpInitCpu s idx id bsp).ncpu = s.ncpu := by
  unfold pcpuMpInitCpu
  split <;> rfl

@[simp] theorem apIdx_init : (pcpuMpInitCpu s idx id bsp).apIdx = s.apIdx := by
  unfold pcpuMpInitCpu
  split <;> rfl

@[simp] theorem foundBsp_init : (pcpuMpInitCpu s idx id bsp).foundBsp = s.foundBsp := by
  unfold pcpuMpInitCpu
  split <;> rfl

/-- A slot of the array is filled in. -/
theorem pcpu_init {i : Nat} (below : i < numCpus) :
    (pcpuMpInitCpu s idx id bsp).pcpu i = if i = idx then ⟨id, bsp⟩ else s.pcpu i := by
  unfold pcpuMpInitCpu
  split
  · rw [if_neg (by omega)]
  · exact Function.update_apply ..

end Init

theorem processed_ioapic (s : Cpus) (addr id gsi : Nat) : (ioapicRegister s addr id gsi).processed = s.processed := by
  unfold ioapicRegister
  split <;> rfl

theorem madtRecord_processed (p : Nat) (s : Cpus) : (madtRecord mem p s).processed = s.processed ++ [p] := by
  unfold madtRecord
  cases enabledLapic mem p with
  | some id =>
    dsimp only
    split
    · simp [addAp]
    · simp [addBsp]
  | none =>
    dsimp only
    split
    · exact processed_ioapic ..
    · rfl

theorem mpRecord_processed (p : Nat) (s : Cpus) : (mpRecord mem p s).processed = s.processed ++ [p] := by
  unfold mpRecord
  dsimp only
  split
  · split
    · rfl
    · split
      · simp [addBsp]
      · simp [addAp]
  · exact processed_ioapic ..
  · rfl

theorem mpSize_pos {p : Nat} : 0 < mpSize mem p ↔ (mem p).toNat ≤ 4 := by
  unfold mpSize
  generalize (mem p).toNat = type
  match type with
  | 0 | 1 | 2 | 3 | 4 => simp
  | other + 5 => simp

end Termination

/-- The walk over a MADT ends exactly when the table lies below 4 GB and every record it comes to has
a length other than 0 and ends below 4 GB; the walk over an MP configuration table, when the same holds
with a known type in place of the length. -/
theorem table_walks_terminate_iff (mem : Bytes) (madt conf : Nat) :
    (Terminates (pcpuMpInit mem madt) (madtEnd mem madt) ↔
      madtEnd mem madt < addressSpace ∧ ∀ fuel, ∀ p ∈ madtRecords mem madt fuel,
        madtSize mem p ≠ 0 ∧ p + madtSize mem p < addressSpace) ∧
    (Terminates (mpInitFallback mem conf) (mpEnd mem conf) ↔
      mpEnd mem conf < addressSpace ∧ ∀ fuel, ∀ p ∈ mpRecords mem conf fuel,
        (mem p).toNat ≤ 4 ∧ p + mpSize mem p < addressSpace) := by
  constructor
  · refine (terminates_iff madtRecord_processed).trans ?_
    simp only [Moves, Nat.pos_iff_ne_zero, madtRecords]
  · refine (terminates_iff mpRecord_processed).trans ?_
    simp only [Moves, mpSize_pos, mpRecords]

/-- A memory that holds the given bytes at address `0x1000`. -/
def memoryWith (bytes : List Byte) : Bytes := fun i => if 0x1000 ≤ i then bytes.getD (i - 0x1000) 0 else 0

/-- A MADT with one record, of length 0. -/
def emptyRecord : Bytes := memoryWith
  ([0x41, 0x50, 0x49, 0x43, 46, 0, 0, 0, 1, 0xb4] ++ List.replicate 34 0 ++ [0, 0])

/-- An MP configuration table with one record, of type 5. -/
def unknownRecord : Bytes := memoryWith
  ([0x50, 0x43, 0x4d, 0x50, 45, 0, 1, 0x9d] ++ List.replicate 36 0 ++ [5])

/-- Both tables are accepted, and neither walk ends. -/
theorem walks_stuck :
    AcceptsMadt emptyRecord 0x1000 ∧ (∀ fuel, ∃ s, pcpuMpInit emptyRecord 0x1000 fuel = .running s) ∧
    AcceptsMpconf unknownRecord 0x1000 ∧ ∀ fuel, ∃ s, mpInitFallback unknownRecord 0x1000 fuel = .running s := by
  refine ⟨⟨by decide, by decide⟩, fun fuel => ?_, ⟨by decide, by decide, by decide⟩, fun fuel => ?_⟩
  · exact walk_stuck (by decide) (by decide) (by decide) fuel
  · exact walk_stuck (by decide) (by decide) (by decide) fuel

/-! ## Enumeration -/

/-- The LAPIC ids of the enabled processors, in the order of the MADT. -/
def processors (mem : Bytes) (madt : Nat) : List Nat :=
  (madtRecords mem madt (madtEnd mem madt - (madt + 44) + 1)).filterMap (enabledLapic mem)

/-- `pcpu_cpu_lapicid`: nothing if the assertion fails or the index is outside of the array. -/
def pcpuCpuLapicid (s : Cpus) (cpuIdx : Nat) : Option Nat :=
  if cpuIdx < s.ncpu ∧ cpuIdx < numCpus then some (s.pcpu cpuIdx).lapicid else none

/-- What is to hold after `pcpu_mp_init`, for the ids of the enabled processors. -/
structure Enumerates (ids : List Nat) (s : Cpus) : Prop where
  bounded : s.ncpu ≤ numCpus
  ordered : ∀ i, i < s.ncpu → ids[i]? = some (s.pcpu i).lapicid
  boot : ∀ i, i < numCpus → ((s.pcpu i).bsp = true ↔ i = 0)
  real : ∀ i, i < s.ncpu → ∃ id ∈ ids, pcpuCpuLapicid s i = some id

/-- What the loop has entered after it has come to processors with these ids. -/
structure Entered (ids : List Nat) (s : Cpus) : Prop where
  ncpu : s.ncpu = ids.length
  found : s.foundBsp = true ↔ ids ≠ []
  apIdx : s.apIdx = max 1 ids.length
  slots : ∀ i, i < numCpus → s.pcpu i = ⟨ids[i]?.getD 0, decide (i = 0 ∧ ids ≠ [])⟩

theorem entered_boot : Entered [] bootCpus := ⟨rfl, by simp [bootCpus], rfl, by simp [bootCpus]⟩

variable {s : Cpus}

theorem Entered.addBsp (entered : Entered [] s) (id : Nat) :
    Entered [id] (Dev.addBsp { s with foundBsp := true } id) := by
  refine ⟨?_, ?_, ?_, fun i below => ?_⟩
  · simp [Dev.addBsp, entered.ncpu]
  · simp [Dev.addBsp]
  · simp [Dev.addBsp, entered.apIdx]
  · have slot := entered.slots i below
    simp only [Dev.addBsp, pcpu_init _ _ _ _ below, slot]
    cases i <;> simp

theorem Entered.addAp {ids : List Nat} (entered : Entered ids s) (some : ids ≠ []) (id : Nat) :
    Entered (ids ++ [id]) (Dev.addAp s id) := by
  have positive := List.length_pos_iff.mpr some
  have next : s.apIdx = ids.length := by
    rw [entered.apIdx]
    omega
  refine ⟨?_, ?_, ?_, fun i below => ?_⟩
  · simp [Dev.addAp, entered.ncpu]
  · simp [Dev.addAp, entered.found, some]
  · simp [Dev.addAp, next]
  · simp only [Dev.addAp, pcpu_init _ _ _ _ below, entered.slots i below, next]
    split
    · next here => simp [here, some]
    · next other =>
      rcases Nat.lt_or_gt_of_ne other with early | late
      · simp [List.getElem?_append_left early, some]
      · have absent : ids[i]? = none := List.getElem?_eq_none (by omega)
        have absent' : (ids ++ [id])[i]? = none := List.getElem?_eq_none (by simp; omega)
        simp [absent, absent', some]

/-- One round of the loop. -/
theorem Entered.record {mem : Bytes} {s : Cpus} {ids : List Nat} (entered : Entered ids s) (p : Nat) :
    Entered (ids ++ (enabledLapic mem p).toList) (madtRecord mem p s) := by
  have noted : Entered ids { s with processed := s.processed ++ [p] } :=
    ⟨entered.ncpu, entered.found, entered.apIdx, entered.slots⟩
  unfold madtRecord
  cases enabledLapic mem p with
  | some id =>
    dsimp only
    split
    · next found => exact noted.addAp (entered.found.mp found) id
    · next first =>
      have none : ids = [] := by
        by_contra some
        exact first (entered.found.mpr some)
      subst none
      exact noted.addBsp id
  | none =>
    rw [Option.toList_none, List.append_nil]
    dsimp only
    split
    · unfold ioapicRegister
      split
      · exact noted
      · exact ⟨entered.ncpu, entered.found, entered.apIdx, entered.slots⟩
    · exact noted

/-- All rounds of the loop. -/
theorem entered_fold (mem : Bytes) (ps : List Nat) :
    Entered (ps.filterMap (enabledLapic mem)) (ps.foldl (fun s p => madtRecord mem p s) bootCpus) := by
  induction ps using List.reverseRecOn with
  | nil => exact entered_boot
  | append_singleton ps p ih =>
    have step := @Entered.record mem _ _ ih p
    rw [List.filterMap_append, List.foldl_append]
    cases lapic : enabledLapic mem p <;> simpa [lapic] using step

/-- With the processors entered, the enumeration is right exactly when there is at least one and each
has a slot. -/
theorem Entered.enumerates_iff {ids : List Nat} (entered : Entered ids s) :
    Enumerates ids s ↔ ids ≠ [] ∧ ids.length ≤ numCpus := by
  have first := entered.slots 0 (by decide)
  constructor
  · intro right
    refine ⟨?_, entered.ncpu ▸ right.bounded⟩
    have boot := (right.boot 0 (by decide)).mpr rfl
    rw [first] at boot
    simpa using boot
  · rintro ⟨some, few⟩
    have bounded : s.ncpu ≤ numCpus := entered.ncpu ▸ few
    have ordered : ∀ i, i < s.ncpu → ids[i]? = Option.some (s.pcpu i).lapicid := by
      intro i below
      rw [entered.slots i (by omega)]
      rw [entered.ncpu] at below
      simp [List.getElem?_eq_getElem below]
    refine ⟨bounded, ordered, fun i below => ?_, fun i below => ?_⟩
    · rw [entered.slots i below]
      simp [some]
    · refine ⟨_, List.mem_of_getElem? (ordered i below), ?_⟩
      simp only [pcpuCpuLapicid, if_pos (And.intro below (Nat.lt_of_lt_of_le below bounded))]

/-- On a MADT without records of length 0, the enumeration returns and is right exactly when the table
and its records lie below 4 GB and the table has at least one enabled processor and at most eight. -/
theorem cpu_enumeration_iff (mem : Bytes) (madt : Nat)
    (lengths : ∀ fuel, ∀ p ∈ madtRecords mem madt fuel, madtSize mem p ≠ 0) :
    (∃ fuel s, pcpuMpInit mem madt fuel = .done s ∧ Enumerates (processors mem madt) s) ↔
      madtEnd mem madt < addressSpace ∧
      (∀ fuel, ∀ p ∈ madtRecords mem madt fuel, p + madtSize mem p < addressSpace) ∧
      processors mem madt ≠ [] ∧ (processors mem madt).length ≤ numCpus := by
  by_cases outside : addressSpace ≤ madtEnd mem madt
  · simp only [pcpuMpInit, if_pos outside]
    constructor
    · rintro ⟨fuel, s, finished, -⟩
      cases finished
    · intro below
      omega
  · simp only [pcpuMpInit, if_neg outside]
    constructor
    · rintro ⟨fuel, s, finished, right⟩
      have moves := walk_moves finished
      have result := walk_unique finished (walk_finishes moves)
      have entered := entered_fold mem (madtRecords mem madt (madtEnd mem madt - (madt + 44) + 1))
      unfold madtRecords at entered
      rw [← result] at entered
      exact ⟨by omega, fun more p member => (moves more p member).2, entered.enumerates_iff.mp right⟩
    · rintro ⟨-, inside, processors⟩
      have moves : ∀ fuel, ∀ p ∈ madtRecords mem madt fuel, Moves (madtSize mem) addressSpace p :=
        fun fuel p member => ⟨Nat.pos_of_ne_zero (lengths fuel p member), inside fuel p member⟩
      exact ⟨_, _, walk_finishes moves, (entered_fold mem _).enumerates_iff.mpr processors⟩

/-- A MADT with `n` enabled processors. -/
def madtOf (n checksum : Nat) : Bytes := memoryWith
  ([0x41, 0x50, 0x49, 0x43, BitVec.ofNat 8 (44 + 8 * n), 0, 0, 0, 1, BitVec.ofNat 8 checksum] ++
    List.replicate 34 0 ++
    (List.range n).flatMap fun i => [0, 8, BitVec.ofNat 8 i, BitVec.ofNat 8 i, 1, 0, 0, 0])

/-- Two processors are enumerated. -/
theorem twoProcessors_enumerated : AcceptsMadt (madtOf 2 0x92) 0x1000 ∧
    ∃ fuel s, pcpuMpInit (madtOf 2 0x92) 0x1000 fuel = .done s ∧
      Enumerates (processors (madtOf 2 0x92) 0x1000) s := by
  have finished : ∃ s, walk (madtSize (madtOf 2 0x92)) (madtRecord (madtOf 2 0x92)) 0x103c addressSpace 3 0x102c
      bootCpus = .done s := ⟨_, rfl⟩
  have moves := walk_moves finished.choose_spec
  refine ⟨⟨by decide, by decide⟩, ?_⟩
  exact (cpu_enumeration_iff (madtOf 2 0x92) 0x1000 fun fuel p member => (moves fuel p member).1.ne').mpr
    ⟨by decide, fun fuel p member => (moves fuel p member).2, by decide, by decide⟩

/-- Nine processors are counted, but only eight have a slot. -/
theorem nineProcessors_unbounded : AcceptsMadt (madtOf 9 0xd5) 0x1000 ∧
    ∃ s, pcpuMpInit (madtOf 9 0xd5) 0x1000 10 = .done s ∧ s.ncpu = 9 ∧ pcpuCpuLapicid s 8 = none :=
  ⟨⟨by decide, by decide +kernel⟩, _, rfl, by decide, by decide⟩

end OsAudio.Dev

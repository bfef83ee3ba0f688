import OsAudio.Dev.ReadErrors
import OsAudio.Fs.Sleeping

/-!
# The buffer cache over the disk driver

`bufcache_get`, `ide_rw` and `ide_intr` are modelled with the links and the drive in the driver, with
the fields that threads wait for, and as calls that run alone.  The threads' steps are the driver's,
and a call that runs alone does what the steps of the driver do.
-/
namespace OsAudio.Fs
open OsAudio.Lib
open Function (update update_self update_apply update_of_ne)

/-! ## The threads -/

section Threads
variable {T δ : Type}

/-- The buffer of the threads, which has no data. -/
def Shared.buf (d : Shared T) (b : Fin nBuf) : Dev.Buf Unit :=
  ⟨(d.ident b).1, (d.ident b).2, d.bbusy b, d.bvalid b, d.bdirty b, ()⟩

def withoutData (b : Dev.Buf δ) : Dev.Buf Unit := ⟨b.dev, b.sector, b.busy, b.valid, b.dirty, ()⟩

/-- The threads use the driver's buffers, and its queue as a list. -/
structure Projects (d : Shared T) (ide : Dev.Ide T (Fin nBuf) δ) : Prop where
  same : ∀ b, d.buf b = withoutData (ide.buf b)
  path : ListSeg ide.qnext ide.idequeue d.idequeue
  nodup : d.idequeue.Nodup

variable {d : Shared T} {ide : Dev.Ide T (Fin nBuf) δ} {b : Fin nBuf} {t : T}

theorem Projects.fields (projects : Projects d ide) (b : Fin nBuf) :
    d.ident b = ((ide.buf b).dev, (ide.buf b).sector) ∧ d.bbusy b = (ide.buf b).busy ∧
      d.bvalid b = (ide.buf b).valid ∧ d.bdirty b = (ide.buf b).dirty := by
  simpa [Shared.buf, withoutData, Prod.ext_iff, and_assoc] using projects.same b

/-- One buffer is changed in both. -/
theorem Projects.change (projects : Projects d ide) {e : Shared T} {x : Dev.Buf δ}
    (here : e.buf b = withoutData x) (others : ∀ c ≠ b, e.buf c = d.buf c)
    (queue : e.idequeue = d.idequeue) : Projects e { ide with buf := update ide.buf b x } := by
  refine ⟨fun c => ?_, queue ▸ projects.path, queue ▸ projects.nodup⟩
  dsimp only
  by_cases same : c = b
  · rw [same, here, update_self]
  · rw [others c same, projects.same, update_of_ne same]

variable [DecidableEq T]

/-- The two loops of `bufcache_get` choose the same buffer. -/
theorem Projects.get (projects : Projects d ide) (id : Ident) (t : T) :
    match Dev.bufcacheGet d.order ide.buf id with
    | some (b, value) => (getScanEffect id t d).2 = .getDone ∧
        Projects (getScanEffect id t d).1 { ide with buf := update ide.buf b value }
    | none => (getScanEffect id t d).1 = d ∧ (getScanEffect id t d).2 ≠ .getDone := by
  have cached (b : Fin nBuf) : d.ident b = id ↔ (ide.buf b).dev = id.1 ∧ (ide.buf b).sector = id.2 := by
    rw [(projects.fields b).1, Prod.ext_iff]
  have free (b : Fin nBuf) : (!d.bbusy b && !d.bdirty b) = (!(ide.buf b).busy && !(ide.buf b).dirty) := by
    rw [(projects.fields b).2.1, (projects.fields b).2.2.2]
  unfold getScanEffect Dev.bufcacheGet
  simp only [cached, free]
  cases d.order.find? fun b => (ide.buf b).dev = id.1 ∧ (ide.buf b).sector = id.2 with
  | some b =>
    obtain ⟨ident, busy, valid, dirty⟩ := projects.fields b
    dsimp only
    rw [busy]
    split_ifs
    · exact ⟨rfl, nofun⟩
    · refine ⟨rfl, projects.change ?_ (fun c other => ?_) rfl⟩
      · simp [Shared.buf, withoutData, Shared.setHolds, ident, valid, dirty]
      · simp [Shared.buf, Shared.setHolds, other]
  | none =>
    cases d.order.reverse.find? fun b => !(ide.buf b).busy && !(ide.buf b).dirty with
    | none => exact ⟨rfl, nofun⟩
    | some b =>
      refine ⟨rfl, projects.change ?_ (fun c other => ?_) rfl⟩
      · simp [Shared.buf, withoutData, Shared.setHolds]
      · simp [Shared.buf, Shared.setHolds, other]

/-- `ide_rw` refuses the same calls, and appends the buffer to the queue. -/
theorem Projects.rw (projects : Projects d ide) (has : (d.holds t b).isSome) (fresh : b ∉ d.idequeue) :
    match Dev.ideRw d.havedisk1 ide t b with
    | some ide' => (Point.ideRw b).effect t d = some (d, .ideEnter b) ∧
        ∃ d', (Point.ideAppend b).effect t d = some (d', .ideTest b) ∧ Projects d' ide'
    | none => (Point.ideRw b).effect t d = some (d, .panicked none) := by
  obtain ⟨ident, busy, valid, dirty⟩ := projects.fields b
  have refused : (!d.bbusy b ∨ d.bvalid b ∧ !d.bdirty b ∨ (d.ident b).1 ≠ 0 ∧ !d.havedisk1) ↔
      (ide.buf b).busy = false ∨ (ide.buf b).clean ∨ (ide.buf b).dev ≠ 0 ∧ d.havedisk1 = false := by
    simp [ident, busy, valid, dirty, Dev.Buf.clean]
  have queued := Dev.ideRw_eq projects.path projects.nodup fresh d.havedisk1 t
  split at queued
  · next fails => simp only [queued, Point.effect, has, if_true, if_pos (refused.mpr fails)]
  · next passes =>
    simp only [queued, Point.effect, has, if_true, if_neg (mt refused.mp passes)]
    refine ⟨trivial, _, rfl, projects.same, ?_, ?_⟩
    · exact (projects.path.relink fresh none).append projects.nodup fresh (update_self ..)
    · exact List.concat_eq_append ▸ projects.nodup.concat fresh

/-- `ide_intr` takes the same buffer off the queue. -/
theorem Projects.intr (projects : Projects d ide) (t : T) (found : δ) :
    match d.idequeue with
    | [] => Point.intrTake.effect t d = some (d, .intrDone) ∧ Dev.ideIntr ide found = ide
    | b :: _ => ∃ taken marked, Point.intrTake.effect t d = some (taken, .intrMark b) ∧
        (Point.intrMark b).effect t taken = some (marked, .intrWake b) ∧
        Projects marked (Dev.ideIntr ide found) := by
  have path := projects.path
  cases queue : d.idequeue with
  | nil =>
    rw [queue] at path
    have empty : ide.idequeue = none := path
    simp [Point.effect, queue, Dev.ideIntr, empty]
  | cons b rest =>
    rw [queue] at path
    obtain ⟨ident, busy, -, -⟩ := projects.fields b
    have marked := projects.change (b := b) (x := (ide.buf b).complete found)
      (e := { d with bvalid := update d.bvalid b true, bdirty := update d.bdirty b false })
      (by simp [Shared.buf, withoutData, ident, busy, Dev.Buf.complete]) (fun c other => by simp [Shared.buf, other]) rfl
    refine ⟨{ d with idequeue := rest, serving := update d.serving t (some b) }, _, ?_, rfl, ?_⟩
    · simp only [Point.effect, queue]
    · rw [Dev.ideIntr_eq path]
      exact ⟨marked.same, path.2, (queue ▸ projects.nodup).of_cons⟩

/-- A thread leaves `ide_rw` at the same test. -/
theorem Projects.retest (projects : Projects d ide) {r : Dev.Request (Fin nBuf) δ}
    (asks : ide.inside t = some r) :
    (Point.ideTest r.buf).effect t d =
      some (d, if (Dev.retest ide t).inside t = none then .ideDone else .ideSleep r.buf) := by
  obtain ⟨-, -, valid, dirty⟩ := projects.fields r.buf
  simp only [Point.effect, valid, dirty, Dev.retest, asks, Dev.Buf.clean]
  by_cases clean : (ide.buf r.buf).valid = true ∧ (ide.buf r.buf).dirty = false
  · simp [clean]
  · simp [clean, asks]

end Threads

/-! ## Calls that run alone -/

section Alone
variable {T B μ : Type}

/-- The buffer without its device; only the first disk has sectors. -/
def ofDriver (b : Dev.Buf Bytes) : Buf where
  busy := b.busy
  valid := b.valid
  dirty := b.dirty
  sector := if b.dev = 0 then some b.sector else none
  data := b.data

/-- The cache shows the driver's buffers, in most-recently-used order, and the sectors of its first disk
that have an address. -/
structure OnDriver (s : BufSys μ) (order : List B) (ide : Dev.Ide T B Bytes) : Prop where
  bufs : s.bufs = order.map fun b => ofDriver (ide.buf b)
  nodup : order.Nodup
  unique : ∀ b ∈ order, ∀ c ∈ order, ∀ sector, (ofDriver (ide.buf b)).holds sector →
    (ofDriver (ide.buf c)).holds sector → b = c
  disk : ∀ sector < 2 ^ 28, s.disk sector = ide.disk (0, sector)

variable {s : BufSys μ} {order : List B} {ide : Dev.Ide T B Bytes} {b : B} {sector : Nat}

theorem holds_ofDriver {b : Dev.Buf Bytes} : (ofDriver b).holds sector = true ↔ b.dev = 0 ∧ b.sector = sector := by
  simp [Buf.holds, ofDriver]

theorem OnDriver.buf? (on : OnDriver s order ide) (sector : Nat) :
    s.buf? sector = (order.find? fun b => (ide.buf b).dev = 0 ∧ (ide.buf b).sector = sector).map
      fun b => ofDriver (ide.buf b) := by
  rw [BufSys.buf?, on.bufs, List.find?_map]
  congr 2
  funext b
  exact Bool.eq_iff_iff.mpr (holds_ofDriver.trans (decide_eq_true_iff ..).symm)

variable [DecidableEq B]

/-- The last buffer that can be recycled, by its place and by a search from the end. -/
theorem victim_map (nodup : order.Nodup) (view : B → Buf) : victim (order.map view) =
    (order.reverse.find? fun b => (view b).recyclable).map order.idxOf := by
  induction order with
  | nil => rfl
  | cons b rest ih =>
    obtain ⟨new, nodup⟩ := List.nodup_cons.mp nodup
    rw [List.map_cons, victim, ih nodup, List.reverse_cons, List.find?_append]
    cases found : rest.reverse.find? fun b => (view b).recyclable with
    | none => by_cases free : (view b).recyclable = true <;> simp [free]
    | some c =>
      have other : b ≠ c := by
        rintro rfl
        exact new (List.mem_reverse.mp (List.mem_of_find?_eq_some found))
      simp [List.idxOf_cons_ne _ other]

/-- One buffer is changed, and holds no sector that another one holds. -/
theorem OnDriver.change (on : OnDriver s order ide) {s' : BufSys μ} {value : Dev.Buf Bytes}
    (bufs : s'.bufs = order.map fun c => ofDriver (update ide.buf b value c)) (disk : s'.disk = s.disk)
    (alone : ∀ c ∈ order, ∀ k, (ofDriver value).holds k → (ofDriver (ide.buf c)).holds k → c = b) :
    OnDriver s' order { ide with buf := update ide.buf b value } := by
  refine ⟨bufs, on.nodup, fun c first e second k => ?_, disk ▸ on.disk⟩
  dsimp only
  rw [update_apply, update_apply]
  split_ifs with left right right
  · exact fun _ _ => left.trans right.symm
  · exact fun mine other => left.trans (alone e second k mine other).symm
  · exact fun other mine => (alone c first k mine other).trans right.symm
  · exact on.unique c first e second k

/-- A buffer is changed that holds the sector. -/
theorem OnDriver.modify (on : OnDriver s order ide) (member : b ∈ order)
    (holds : (ofDriver (ide.buf b)).holds sector) {f : Buf → Buf} {value : Dev.Buf Bytes}
    (changed : f (ofDriver (ide.buf b)) = ofDriver value)
    (same : (ofDriver value).sector = (ofDriver (ide.buf b)).sector) :
    OnDriver (s.modify sector f) order { ide with buf := update ide.buf b value } := by
  refine on.change ?_ rfl fun c inside k mine other => ?_
  · rw [BufSys.modify, on.bufs, List.map_map]
    refine List.map_congr_left fun c inside => ?_
    dsimp only [Function.comp]
    by_cases here : c = b
    · rw [here, if_pos holds, changed, update_self]
    · rw [if_neg fun other => here (on.unique c inside b member sector other holds), update_of_ne here]
  · unfold Buf.holds at mine
    rw [same] at mine
    exact on.unique c inside b member k other mine

/-- `bufcache_get` chooses the same buffer. -/
theorem OnDriver.get (on : OnDriver s order ide) (sector : Nat) :
    match Dev.bufcacheGet order ide.buf (0, sector) with
    | some (b, value) => ∃ s', bufcacheGet s sector = .ok () s' ∧
        OnDriver s' order { ide with buf := update ide.buf b value }
    | none => ∃ w, bufcacheGet s sector = .stop w s := by
  unfold bufcacheGet Dev.bufcacheGet
  rw [on.buf?]
  cases found : order.find? fun b => (ide.buf b).dev = 0 ∧ (ide.buf b).sector = sector with
  | some b =>
    have holds := holds_ofDriver.mpr (by simpa using List.find?_some found)
    simp only [Option.map_some]
    by_cases busy : (ide.buf b).busy = true
    · rw [if_pos busy, if_pos (show (ofDriver (ide.buf b)).busy = true from busy)]
      exact ⟨_, rfl⟩
    · rw [if_neg busy, if_neg (show ¬ (ofDriver (ide.buf b)).busy = true from busy)]
      exact ⟨_, rfl, on.modify (List.mem_of_find?_eq_some found) holds rfl rfl⟩
  | none =>
    have absent := List.find?_eq_none.mp found
    have free : (order.reverse.find? fun b => (ofDriver (ide.buf b)).recyclable) =
        order.reverse.find? fun b => !(ide.buf b).busy && !(ide.buf b).dirty := rfl
    simp only [Option.map_none]
    rw [on.bufs, victim_map on.nodup, free]
    cases chosen : order.reverse.find? fun b => !(ide.buf b).busy && !(ide.buf b).dirty with
    | none => exact ⟨_, rfl⟩
    | some b =>
      have member := List.mem_reverse.mp (List.mem_of_find?_eq_some chosen)
      refine ⟨_, rfl, on.change ?_ rfl fun c inside k mine other => ?_⟩
      · have changed := on.nodup.map_update (ofDriver ∘ ide.buf) b
          (ofDriver ⟨0, sector, true, false, false, (ide.buf b).data⟩)
        rw [if_pos member, ← Function.comp_update] at changed
        refine Eq.trans ?_ changed.symm
        simp only [List.getD_eq_getElem?_getD, List.getElem?_map, List.getElem?_idxOf member, Option.map_some]
        rfl
      · obtain ⟨-, rfl⟩ := holds_ofDriver.mp mine
        exact absurd (decide_eq_true (holds_ofDriver.mp other)) (absent c inside)

/-- Nothing is under way in the driver, and the thread is not in `ide_rw`. -/
def Rests (ide : Dev.Ide T B Bytes) (t : T) : Prop :=
  ide.idequeue = none ∧ ide.commands = [] ∧ ide.inside t = none

variable [DecidableEq T] [Fintype B] {t : T} {havedisk1 : Bool}

/-- A request goes through the driver and the drive, and the call returns. -/
theorem ideRw_alone (rests : Rests ide t) (first : (ide.buf b).dev = 0) (busy : (ide.buf b).busy = true)
    (todo : (ide.buf b).clean = false) :
    ∃ ide', Relation.TransGen (Dev.Step havedisk1 fun _ _ => True) ide ide' ∧ Rests ide' t ∧
      ide'.buf = update ide.buf b ((ide.buf b).complete (ide.disk (ide.buf b).address)) ∧
      ide'.disk = if (ide.buf b).dirty then update ide.disk (ide.buf b).address (ide.buf b).data
        else ide.disk := by
  obtain ⟨queue, commands, out⟩ := rests
  have queued := Dev.ideRw_eq (b := b) (show ListSeg ide.qnext _ [] from queue) .nil List.not_mem_nil havedisk1 t
  rw [if_neg (by simp [busy, todo, first])] at queued
  obtain ⟨v, reads⟩ : ∃ v, v = if (ide.buf b).dirty then (ide.buf b).data else ide.disk (ide.buf b).address :=
    ⟨_, rfl⟩
  refine ⟨_, .head (.rw t b out trivial queued) (.head (.execute (ide.buf b).command [] ?_ rfl)
    (.head (.interrupt { (ide.buf b).command with found := some v } [] v ?_ rfl) (.single (.retest t)))), ?_⟩
  · simp [commands]
  · cases dirty : (ide.buf b).dirty <;> simp_all [Dev.execute, Dev.Buf.command]
  · cases dirty : (ide.buf b).dirty <;> simp_all [Rests, Dev.execute, Dev.Buf.command, Dev.ideIntr,
      Dev.retest, linkAt, Dev.Buf.complete, Dev.Buf.clean]

/-- `ide_rw` does to the buffer and the disk what the driver and the drive do. -/
theorem OnDriver.rw (on : OnDriver s order ide) (rests : Rests ide t) (member : b ∈ order)
    (first : (ide.buf b).dev = 0) (small : (ide.buf b).sector < 2 ^ 28) :
    if (ide.buf b).busy = false ∨ (ide.buf b).clean then
      Dev.ideRw havedisk1 ide t b = none ∧ ∃ text, ideRw s (ide.buf b).sector = .stop (.panic text) s
    else ∃ s' ide', ideRw s (ide.buf b).sector = .ok () s' ∧ OnDriver s' order ide' ∧
      Relation.TransGen (Dev.Step havedisk1 fun _ _ => True) ide ide' ∧ Rests ide' t := by
  have holds : (ofDriver (ide.buf b)).holds (ide.buf b).sector = true := holds_ofDriver.mpr ⟨first, rfl⟩
  have here : s.buf? (ide.buf b).sector = some (ofDriver (ide.buf b)) := by
    rw [on.buf?]
    cases found : order.find? fun c => (ide.buf c).dev = 0 ∧ (ide.buf c).sector = (ide.buf b).sector with
    | none => exact absurd (decide_eq_true ⟨first, rfl⟩) (List.find?_eq_none.mp found b member)
    | some c =>
      have other := holds_ofDriver.mpr (by simpa using List.find?_some found)
      rw [on.unique c (List.mem_of_find?_eq_some found) b member _ other holds]
      rfl
  have address : (ide.buf b).address = (0, (ide.buf b).sector) := by
    unfold Dev.Buf.address
    rw [first]
    congr 1
    omega
  unfold ideRw
  rw [here]
  dsimp only [ofDriver]
  by_cases busy : (ide.buf b).busy = true
  · by_cases clean : (ide.buf b).clean = true
    · rw [if_pos (.inr clean)]
      exact ⟨by simp [Dev.ideRw, busy, clean], .ideNothingToDo, by simp_all [Dev.Buf.clean]⟩
    · have todo : ¬ ((ide.buf b).valid && !(ide.buf b).dirty) = true := clean
      obtain ⟨ide', run, quiet, buf, disk⟩ := ideRw_alone rests first busy (by simpa using clean)
      rw [if_neg (by simp [busy, clean]), if_neg (by simp [busy]), if_neg todo]
      rw [address] at buf disk
      -- What either branch makes of the buffer is what the interrupt handler makes of it.
      have after := @OnDriver.modify T B μ s order ide b (ide.buf b).sector _ on member holds
      split_ifs at disk ⊢ with dirty
      · refine ⟨_, ide', rfl, ?_, run, quiet⟩
        obtain ⟨bufs, nodup, unique, -⟩ := @after (fun b => { b with valid := true, dirty := false })
          ((ide.buf b).complete (ide.disk (0, (ide.buf b).sector))) (by simp [ofDriver, Dev.Buf.complete, dirty]) rfl
        refine ⟨buf ▸ bufs, nodup, buf ▸ unique, fun k below => ?_⟩
        simp [disk, update_apply, on.disk k below]
      · obtain ⟨bufs, nodup, unique, -⟩ := @after
          (fun old => { old with valid := true, data := s.disk (ide.buf b).sector })
          ((ide.buf b).complete (ide.disk (0, (ide.buf b).sector)))
          (by simp_all [ofDriver, Dev.Buf.complete, on.disk _ small]) rfl
        exact ⟨_, ide', rfl, ⟨buf ▸ bufs, nodup, buf ▸ unique, disk ▸ on.disk⟩, run, quiet⟩
  · rw [if_pos (.inl (by simpa using busy))]
    exact ⟨by simp_all [Dev.ideRw], .ideNotBusy, by simp_all⟩

end Alone

end OsAudio.Fs

import OsAudio.Fs.Bufcache
import Mathlib.Data.Finset.Card

/-!
# The buffer cache without buffers

What the layers above see of the cache: every sector has contents, some sectors are held,
and the sectors whose contents the disk does not have yet are dirty.  Which buffer a
sector is in and in what order buffers are recycled does not show, except that there must
be a buffer that is neither held nor dirty when another sector is read.

`bufMachine_refines` proves that the real cache behaves exactly so, for every program
that only writes and releases buffers it holds.
-/
namespace OsAudio.Fs
open OsAudio.Lib

structure Ideal (μ : Type) where
  content : Nat → Bytes
  disk : Nat → Bytes
  issued : List (Nat × Bytes)
  held : Finset Nat
  dirty : Finset Nat
  mem : μ

section Ideal
variable {μ : Type}

def idealRead (s : Ideal μ) (sector : Nat) : Outcome Stop (Ideal μ) Bytes :=
  if sector ∈ s.held then .stop .sleep s
  else if sector ∉ s.dirty ∧ nBuf ≤ (s.held ∪ s.dirty).card then .stop (.panic .noBuffers) s
  else .ok (s.content sector) { s with held := insert sector s.held }

def idealWrite (s : Ideal μ) (sector : Nat) (data : Bytes) : Outcome Stop (Ideal μ) Unit :=
  if sector ∈ s.held then
    .ok () { s with
      content := Function.update s.content sector data
      disk := Function.update s.disk sector data
      issued := s.issued ++ [(sector, data)]
      dirty := s.dirty.erase sector }
  else .stop .beyond s

def idealSetDirty (s : Ideal μ) (sector : Nat) (data : Bytes) : Outcome Stop (Ideal μ) Unit :=
  if sector ∈ s.held then
    .ok () { s with
      content := Function.update s.content sector data
      dirty := insert sector s.dirty }
  else .stop .beyond s

def idealRelease (s : Ideal μ) (sector : Nat) : Outcome Stop (Ideal μ) Unit :=
  if sector ∈ s.held then .ok () { s with held := s.held.erase sector } else .stop .beyond s

def idealMachine (forbidden : Mark → Bool) : Machine (BufSig μ) Stop (Ideal μ) := fun op s =>
  match op with
  | .read sector => idealRead s sector
  | .write sector data => idealWrite s sector data
  | .setDirty sector data => idealSetDirty s sector data
  | .release sector => idealRelease s sector
  | .getMem => .ok s.mem s
  | .setMem mem => .ok () { s with mem := mem }
  | .mark mark hit => if hit && forbidden mark then .stop (.marked mark) s else .ok () s

/-- The real cache `a` presents the contents of the ideal one. -/
structure Caches (a : BufSys μ) (b : Ideal μ) : Prop where
  length : a.bufs.length = nBuf
  apart : a.bufs.Pairwise fun x y => x.sector = none ∨ x.sector ≠ y.sector
  pinned : ∀ x ∈ a.bufs, x.busy = true ∨ x.dirty = true → ∃ s, x.sector = some s
  loaded : ∀ x ∈ a.bufs, ∀ s, x.sector = some s → x.valid = true ∧ x.data = b.content s
  clean : ∀ s, s ∉ b.dirty → b.content s = b.disk s
  held : ∀ s, s ∈ b.held ↔ ∃ x ∈ a.bufs, x.sector = some s ∧ x.busy = true
  dirty : ∀ s, s ∈ b.dirty ↔ ∃ x ∈ a.bufs, x.sector = some s ∧ x.dirty = true
  disk : a.disk = b.disk
  issued : a.issued = b.issued
  mem : a.mem = b.mem

/-! ## Lists of buffers -/

theorem holds_iff {sector : Nat} {x : Buf} : x.holds sector = true ↔ x.sector = some sector := by
  simp [Buf.holds]

variable {l : List Buf}

theorem find_perm {p : Buf → Bool} {x : Buf} (found : l.find? p = some x) :
    p x = true ∧ l.Perm (x :: l.eraseP p) := by
  induction l with
  | nil => cases found
  | cons y l ih =>
    by_cases first : p y
    · simp only [List.find?_cons_of_pos first, Option.some.injEq] at found
      subst found
      exact ⟨first, by simp [List.eraseP_cons_of_pos first]⟩
    · rw [List.find?_cons_of_neg first] at found
      obtain ⟨holds, perm⟩ := ih found
      refine ⟨holds, ?_⟩
      rw [List.eraseP_cons_of_neg first]
      exact (perm.cons y).trans (List.Perm.swap x y _)

theorem modify_perm {l rest : List Buf} {x : Buf} {sector : Nat} {f : Buf → Buf}
    (split : l.Perm (x :: rest)) (holds : x.sector = some sector)
    (others : ∀ y ∈ rest, y.sector ≠ some sector) :
    (l.map fun b => if b.holds sector then f b else b).Perm (f x :: rest) := by
  have mapped := split.map fun b => if b.holds sector then f b else b
  have same : rest.map (fun b => if b.holds sector then f b else b) = rest := by
    rw [List.map_congr_left (g := id), List.map_id]
    intro y member
    have : ¬ y.holds sector = true := fun h => others y member (holds_iff.mp h)
    simp [this]
  rw [List.map_cons, if_pos (holds_iff.mpr holds), same] at mapped
  exact mapped

theorem victim_none (nothing : victim l = none) : ∀ x ∈ l, x.recyclable = false := by
  induction l with
  | nil => simp
  | cons y l ih =>
    simp only [victim] at nothing
    cases later : victim l with
    | some i =>
      rw [later] at nothing
      cases nothing
    | none =>
      rw [later] at nothing
      intro x member
      rcases List.mem_cons.mp member with rfl | inside
      · simpa using nothing
      · exact ih later x inside

theorem victim_perm {i : Nat} (chosen : victim l = some i) :
    ∃ old rest, old.recyclable = true ∧ l.Perm (old :: rest) ∧
      ∀ new, (l.set i new).Perm (new :: rest) := by
  induction l generalizing i with
  | nil => cases chosen
  | cons y l ih =>
    simp only [victim] at chosen
    cases later : victim l with
    | some j =>
      rw [later] at chosen
      obtain rfl := Option.some.inj chosen
      obtain ⟨old, rest, recyclable, perm, set⟩ := ih later
      refine ⟨old, y :: rest, recyclable, (perm.cons y).trans (.swap old y rest), fun new => ?_⟩
      exact ((set new).cons y).trans (.swap new y rest)
    | none =>
      rw [later] at chosen
      dsimp only at chosen
      split at chosen
      · next recyclable =>
        obtain rfl := Option.some.inj chosen
        exact ⟨y, l, recyclable, .refl _, fun new => .refl _⟩
      · cases chosen

/-! ## Keeping the relation -/

section Relation
variable {a : BufSys μ} {b : Ideal μ}

variable {x : Buf} {sector : Nat}

theorem apart_symm {y : Buf} (apart : x.sector = none ∨ x.sector ≠ y.sector) :
    y.sector = none ∨ y.sector ≠ x.sector := by
  rcases apart with empty | different
  · by_cases other : y.sector = none
    · exact Or.inl other
    · exact Or.inr fun same => other (same.trans empty)
  · exact Or.inr different.symm

/-- No other buffer holds the sector of a given one. -/
theorem Caches.others (caches : Caches a b) {rest : List Buf}
    (split : a.bufs.Perm (x :: rest)) (holds : x.sector = some sector) :
    ∀ y ∈ rest, y.sector ≠ some sector := by
  have apart := (split.pairwise_iff apart_symm).mp caches.apart
  intro y member same
  rcases (List.pairwise_cons.mp apart).1 y member with empty | different
  · rw [holds] at empty
    cases empty
  · exact different (holds.trans same.symm)

/-- The sectors of the buffers with a flag, once one buffer was replaced by a buffer for `sector`. -/
theorem flagged_replace {flag : Buf → Bool} {l l' rest : List Buf} {old new : Buf} {S S' : Finset Nat}
    (before : l.Perm (old :: rest)) (after : l'.Perm (new :: rest))
    (others : ∀ y ∈ rest, y.sector ≠ some sector) (holds : new.sector = some sector)
    (recycled : old.sector = some sector ∨ flag old = false)
    (was : ∀ t, t ∈ S ↔ ∃ y ∈ l, y.sector = some t ∧ flag y = true)
    (now : ∀ t, t ∈ S' ↔ if t = sector then flag new = true else t ∈ S) (t : Nat) :
    t ∈ S' ↔ ∃ y ∈ l', y.sector = some t ∧ flag y = true := by
  simp only [now, was, before.mem_iff, after.mem_iff, List.mem_cons, or_and_right, exists_or,
    exists_eq_left, holds, Option.some.injEq]
  by_cases same : t = sector
  · have only : ¬ ∃ y ∈ rest, y.sector = some sector ∧ flag y = true := fun ⟨y, tail, key, _⟩ =>
      others y tail key
    simp [same, only]
  · have gone : ¬ (old.sector = some t ∧ flag old = true) := by
      rintro ⟨key, set⟩
      rcases recycled with here | clear
      · exact same (Option.some.inj (key.symm.trans here))
      · simp [clear] at set
    simp [same, gone, Ne.symm same]

/-- One buffer is replaced by a buffer for `sector`, which no other buffer holds; a
buffer that held another sector before was neither busy nor dirty. -/
theorem Caches.replace (caches : Caches a b) {old new : Buf} {rest : List Buf} {sector : Nat}
    (before : a.bufs.Perm (old :: rest)) (others : ∀ y ∈ rest, y.sector ≠ some sector)
    (recycled : old.sector = some sector ∨ old.recyclable = true)
    {a' : BufSys μ} {b' : Ideal μ} (after : a'.bufs.Perm (new :: rest))
    (holds : new.sector = some sector) (valid : new.valid = true)
    (data : new.data = b'.content sector)
    (clean : sector ∉ b'.dirty → b'.content sector = b'.disk sector)
    (contents : ∀ t, t ≠ sector → b'.content t = b.content t ∧ b'.disk t = b.disk t)
    (held : ∀ t, t ∈ b'.held ↔ if t = sector then new.busy = true else t ∈ b.held)
    (dirty : ∀ t, t ∈ b'.dirty ↔ if t = sector then new.dirty = true else t ∈ b.dirty)
    (disk : a'.disk = b'.disk) (issued : a'.issued = b'.issued) (mem : a'.mem = b'.mem) :
    Caches a' b' := by
  have apart := (List.pairwise_cons.mp ((before.pairwise_iff apart_symm).mp caches.apart)).2
  have member : ∀ y, y ∈ a'.bufs ↔ y = new ∨ y ∈ rest := fun y =>
    after.mem_iff.trans List.mem_cons
  have kept : ∀ y ∈ rest, y ∈ a.bufs := fun y inside =>
    before.mem_iff.mpr (List.mem_cons_of_mem _ inside)
  have free : old.sector = some sector ∨ old.busy = false ∧ old.dirty = false := by
    simpa [Buf.recyclable] using recycled
  refine ⟨?_, ?_, ?_, ?_, ?_,
    flagged_replace before after others holds (free.imp_right And.left) caches.held held,
    flagged_replace before after others holds (free.imp_right And.right) caches.dirty dirty,
    disk, issued, mem⟩
  · rw [after.length_eq, List.length_cons]
    have := before.length_eq
    rw [List.length_cons, caches.length] at this
    omega
  · rw [after.pairwise_iff apart_symm, List.pairwise_cons]
    refine ⟨fun y inside => Or.inr ?_, apart⟩
    rw [holds]
    exact (others y inside).symm
  · intro y inside pinned
    rcases (member y).mp inside with rfl | tail
    · exact ⟨sector, holds⟩
    · exact caches.pinned y (kept y tail) pinned
  · intro y inside t key
    rcases (member y).mp inside with rfl | tail
    · rw [holds, Option.some.injEq] at key
      exact ⟨valid, key ▸ data⟩
    · have different : t ≠ sector := by
        intro same
        exact others y tail (same ▸ key)
      rw [(contents t different).1]
      exact caches.loaded y (kept y tail) t key
  · intro t isClean
    by_cases same : t = sector
    · rw [same] at isClean ⊢
      exact clean isClean
    · rw [(contents t same).1, (contents t same).2]
      apply caches.clean
      intro old
      exact isClean ((dirty t).mpr (by rwa [if_neg same]))

/-- The buffers that cannot be recycled are exactly those of the held and dirty sectors. -/
theorem Caches.pinned_card (caches : Caches a b) :
    (b.held ∪ b.dirty).card = (a.bufs.filter fun x => !x.recyclable).length := by
  have same : b.held ∪ b.dirty =
      ((a.bufs.filter fun x => !x.recyclable).filterMap Buf.sector).toFinset := by
    ext t
    simp only [Finset.mem_union, List.mem_toFinset, List.mem_filterMap, List.mem_filter,
      Buf.recyclable, Bool.not_and, Bool.not_not, Bool.or_eq_true, caches.held, caches.dirty]
    constructor
    · rintro (⟨x, inside, key, busy⟩ | ⟨x, inside, key, dirty⟩)
      · exact ⟨x, ⟨inside, Or.inl busy⟩, key⟩
      · exact ⟨x, ⟨inside, Or.inr dirty⟩, key⟩
    · rintro ⟨x, ⟨inside, busy | dirty⟩, key⟩
      · exact Or.inl ⟨x, inside, key, busy⟩
      · exact Or.inr ⟨x, inside, key, dirty⟩
  have nodup : ((a.bufs.filter fun x => !x.recyclable).filterMap Buf.sector).Nodup := by
    apply (List.Pairwise.filterMap Buf.sector ?_ (caches.apart.filter _))
    intro x y apart s left t right equal
    rcases apart with empty | different
    · rw [empty] at left
      cases left
    · exact different (left.trans (equal ▸ right.symm))
  have everyKey : ∀ l : List Buf, (∀ x ∈ l, ∃ s, x.sector = some s) →
      (l.filterMap Buf.sector).length = l.length := by
    intro l
    induction l with
    | nil => exact fun _ => rfl
    | cons x l ih =>
      intro keys
      obtain ⟨s, key⟩ := keys x (by simp)
      rw [List.filterMap_cons_some key, List.length_cons, List.length_cons,
        ih fun y inside => keys y (by simp [inside])]
  rw [same, List.toFinset_card_of_nodup nodup, everyKey]
  intro x inside
  obtain ⟨member, pinned⟩ := List.mem_filter.mp inside
  simp only [Buf.recyclable, Bool.not_and, Bool.not_not, Bool.or_eq_true] at pinned
  exact caches.pinned x member pinned

/-- There is a buffer to recycle exactly if the held and dirty sectors leave one. -/
theorem Caches.full_iff (caches : Caches a b) :
    nBuf ≤ (b.held ∪ b.dirty).card ↔ ∀ x ∈ a.bufs, x.recyclable = false := by
  rw [caches.pinned_card, ← caches.length]
  constructor
  · intro full
    have all := (List.filter_sublist (l := a.bufs) (p := fun x => !x.recyclable)).eq_of_length_le full
    intro x inside
    rw [← all] at inside
    simpa using (List.mem_filter.mp inside).2
  · intro full
    rw [List.filter_eq_self.mpr]
    intro x inside
    simp [full x inside]

theorem find_unique {l rest : List Buf} (split : l.Perm (x :: rest))
    (holds : x.sector = some sector) (others : ∀ y ∈ rest, y.sector ≠ some sector) :
    l.find? (Buf.holds sector) = some x := by
  have inside : x ∈ l := split.mem_iff.mpr (by simp)
  cases found : l.find? (Buf.holds sector) with
  | none => exact absurd (holds_iff.mpr holds) (List.find?_eq_none.mp found x inside)
  | some y =>
    have member := List.mem_of_find?_eq_some found
    have key := holds_iff.mp (List.find?_some found)
    rcases List.mem_cons.mp (split.mem_iff.mp member) with rfl | tail
    · rfl
    · exact absurd key (others y tail)

/-- What a pointer refers to. -/
theorem Caches.find (caches : Caches a b) (found : a.buf? sector = some x) :
    x.sector = some sector ∧ x.valid = true ∧ x.data = b.content sector ∧
    (x.busy = true ↔ sector ∈ b.held) ∧ (x.dirty = true ↔ sector ∈ b.dirty) ∧
    ∃ rest, a.bufs.Perm (x :: rest) ∧ rest = a.bufs.eraseP (Buf.holds sector) ∧
      ∀ y ∈ rest, y.sector ≠ some sector := by
  obtain ⟨holds, perm⟩ := find_perm found
  have key := holds_iff.mp holds
  have inside : x ∈ a.bufs := perm.mem_iff.mpr (by simp)
  have others := caches.others perm key
  obtain ⟨valid, data⟩ := caches.loaded x inside sector key
  have only : ∀ y ∈ a.bufs, y.sector = some sector → y = x := by
    intro y member same
    rcases List.mem_cons.mp (perm.mem_iff.mp member) with rfl | tail
    · rfl
    · exact absurd same (others y tail)
  have flag : ∀ p : Buf → Bool,
      p x = true ↔ ∃ y ∈ a.bufs, y.sector = some sector ∧ p y = true := fun p =>
    ⟨fun set => ⟨x, inside, key, set⟩, fun ⟨y, member, same, set⟩ => only y member same ▸ set⟩
  exact ⟨key, valid, data, (flag _).trans (caches.held _).symm, (flag _).trans (caches.dirty _).symm,
    _, perm, rfl, others⟩

theorem Caches.find_none (caches : Caches a b) (missing : a.buf? sector = none) :
    (∀ y ∈ a.bufs, y.sector ≠ some sector) ∧ sector ∉ b.held ∧ sector ∉ b.dirty := by
  have absent : ∀ y ∈ a.bufs, y.sector ≠ some sector := fun y inside key =>
    absurd (holds_iff.mpr key) (List.find?_eq_none.mp missing y inside)
  refine ⟨absent, ?_, ?_⟩
  · rw [caches.held]
    rintro ⟨y, inside, key, -⟩
    exact absent y inside key
  · rw [caches.dirty]
    rintro ⟨y, inside, key, -⟩
    exact absent y inside key

/-- The buffer of a sector that is held. -/
theorem Caches.find_held (caches : Caches a b) (held : sector ∈ b.held) :
    ∃ x, a.buf? sector = some x := by
  cases found : a.buf? sector with
  | none => exact absurd held (caches.find_none found).2.1
  | some x => exact ⟨x, rfl⟩

end Relation

/-! ## The refinement -/

abbrev CacheMatch {α : Type} : Outcome Stop (BufSys μ) α → Outcome Stop (Ideal μ) α → Prop :=
  Outcome.Matches Caches Caches (fun _ => False) (· = .beyond)

section Refinement
variable {a : BufSys μ} {b : Ideal μ}

section
variable (caches : Caches a b) (sector : Nat)
include caches sector

theorem read_matches : CacheMatch (bufcacheRead a sector) (idealRead b sector) := by
  unfold bufcacheRead bufcacheGet idealRead
  cases found : a.buf? sector with
  | some x =>
    obtain ⟨key, valid, data, busy, dirty, rest, perm, -, others⟩ := caches.find found
    by_cases held : sector ∈ b.held
    · simp only [busy.mpr held, if_true, if_pos held]
      exact Or.inl ⟨rfl, caches⟩
    · have idle : x.busy = false := by simpa [held] using busy
      have room : ¬ (sector ∉ b.dirty ∧ nBuf ≤ (b.held ∪ b.dirty).card) := by
        rintro ⟨clean, full⟩
        have inside : x ∈ a.bufs := perm.mem_iff.mpr (by simp)
        have pinned := caches.full_iff.mp full x inside
        have isClean : x.dirty = false := by simpa [clean] using dirty
        simp [Buf.recyclable, idle, isClean] at pinned
      have after := @modify_perm a.bufs rest x sector (fun b => { b with busy := true }) perm key others
      have again : (a.modify sector fun b => { b with busy := true }).buf? sector =
          some { x with busy := true } := find_unique after key others
      simp only [idle, Bool.false_eq_true, if_false, if_neg held, if_neg room, again, valid, if_true]
      refine ⟨data, caches.replace perm others (Or.inl key) after key valid data
        (caches.clean sector) (fun _ _ => ⟨rfl, rfl⟩) ?_ ?_ caches.disk caches.issued caches.mem⟩
      · intro t
        split <;> simp [*]
      · intro t
        split <;> simp [*]
  | none =>
    obtain ⟨absent, notHeld, notDirty⟩ := caches.find_none found
    simp only [if_neg notHeld, notDirty, not_false_eq_true, true_and]
    cases chosen : victim a.bufs with
    | none =>
      rw [if_pos (caches.full_iff.mpr (victim_none chosen))]
      exact Or.inl ⟨rfl, caches⟩
    | some i =>
      obtain ⟨old, rest, recyclable, perm, set⟩ := victim_perm chosen
      have room : ¬ nBuf ≤ (b.held ∪ b.dirty).card := by
        intro full
        have pinned := caches.full_iff.mp full old (perm.mem_iff.mpr (by simp))
        rw [recyclable] at pinned
        cases pinned
      have others : ∀ y ∈ rest, y.sector ≠ some sector := fun y inside =>
        absent y (perm.mem_iff.mpr (by simp [inside]))
      rw [if_neg room]
      dsimp only
      generalize (a.bufs.getD i ⟨false, false, false, none, Bytes.zero⟩).data = stale
      have blank := set ⟨true, false, false, some sector, stale⟩
      have again : BufSys.buf? { a with bufs := a.bufs.set i ⟨true, false, false, some sector, stale⟩ }
          sector = some ⟨true, false, false, some sector, stale⟩ := find_unique blank rfl others
      have after := @modify_perm _ rest _ sector
        (fun b => { b with valid := true, data := a.disk sector }) blank rfl others
      have value : a.disk sector = b.content sector := by
        rw [caches.disk, caches.clean sector notDirty]
      simp only [again, ideRw, Bool.not_true, Bool.false_eq_true, if_false, Bool.false_and]
      refine ⟨value, caches.replace perm others (Or.inr recyclable) after rfl rfl value
        (caches.clean sector) (fun _ _ => ⟨rfl, rfl⟩) ?_ ?_ caches.disk caches.issued caches.mem⟩
      · intro t
        split <;> simp [*]
      · intro t
        split <;> simp [*]

theorem write_matches (data : Bytes) :
    CacheMatch (bufcacheWrite a sector data) (idealWrite b sector data) := by
  unfold bufcacheWrite idealWrite
  by_cases held : sector ∈ b.held
  · obtain ⟨x, found⟩ := caches.find_held held
    obtain ⟨key, valid, -, busy, -, rest, perm, -, others⟩ := caches.find found
    have isBusy := busy.mpr held
    have stored := @modify_perm a.bufs rest x sector (fun b => { b with data := data, dirty := true })
      perm key others
    have again : (a.modify sector fun b => { b with data := data, dirty := true }).buf? sector =
        some { x with data := data, dirty := true } := find_unique stored key others
    have after := @modify_perm _ rest _ sector (fun b => { b with valid := true, dirty := false })
      stored key others
    simp only [if_pos held, found, isBusy, Bool.not_true, Bool.false_eq_true, if_false, ideRw, again,
      Bool.and_false, if_true]
    refine ⟨rfl, caches.replace perm others (Or.inl key) after key rfl (by simp) (by simp)
      (fun t other => by simp [other]) ?_ ?_ ?_ ?_ caches.mem⟩
    · intro t
      split <;> simp [*]
    · intro t
      split <;> simp [*]
    · simp only [BufSys.modify, caches.disk]
    · simp only [BufSys.modify, caches.issued]
  · rw [if_neg held]
    exact .excused _ (by rfl) _

theorem setDirty_matches (data : Bytes) :
    CacheMatch (setDirty a sector data) (idealSetDirty b sector data) := by
  unfold setDirty idealSetDirty
  by_cases held : sector ∈ b.held
  · obtain ⟨x, found⟩ := caches.find_held held
    obtain ⟨key, valid, -, busy, -, rest, perm, -, others⟩ := caches.find found
    have isBusy := busy.mpr held
    have after := @modify_perm a.bufs rest x sector (fun b => { b with data := data, dirty := true })
      perm key others
    rw [if_pos held, found]
    refine ⟨rfl, caches.replace perm others (Or.inl key) after key valid (by simp) (by simp)
      (fun t other => by simp [other]) ?_ ?_ caches.disk caches.issued caches.mem⟩
    · intro t
      split <;> simp [*]
    · intro t
      split <;> simp [*]
  · rw [if_neg held]
    exact .excused _ (by rfl) _

theorem release_matches : CacheMatch (bufcacheRelease a sector) (idealRelease b sector) := by
  unfold bufcacheRelease idealRelease
  by_cases held : sector ∈ b.held
  · obtain ⟨x, found⟩ := caches.find_held held
    obtain ⟨key, valid, data, busy, dirty, rest, perm, erased, others⟩ := caches.find found
    simp only [if_pos held, found, busy.mpr held, Bool.not_true, Bool.false_eq_true, if_false]
    rw [← erased]
    refine ⟨rfl, @Caches.replace _ _ _ caches x { x with busy := false } rest sector perm others
      (Or.inl key) _ _ (.refl _) key valid data (caches.clean sector) (fun _ _ => ⟨rfl, rfl⟩) ?_ ?_
      caches.disk caches.issued caches.mem⟩
    · intro t
      split <;> simp [*]
    · intro t
      split <;> simp [*]
  · rw [if_neg held]
    exact .excused _ (by rfl) _

end

/-- The real buffer cache refines the ideal one. -/
theorem bufMachine_refines (forbidden : Mark → Bool) :
    (bufMachine forbidden : Machine (BufSig μ) Stop (BufSys μ)).Refines (idealMachine forbidden)
      Caches Caches (fun _ => False) (· = .beyond) := by
  intro op a b caches
  cases op with
  | read sector => exact read_matches caches sector
  | write sector data => exact write_matches caches sector data
  | setDirty sector data => exact setDirty_matches caches sector data
  | release sector => exact release_matches caches sector
  | getMem => exact ⟨caches.mem, caches⟩
  | setMem mem =>
    exact ⟨rfl, caches.length, caches.apart, caches.pinned, caches.loaded, caches.clean, caches.held,
      caches.dirty, caches.disk, caches.issued, rfl⟩
  | mark mark hit =>
    simp only [bufMachine, idealMachine]
    split
    · exact Or.inl ⟨rfl, caches⟩
    · exact ⟨rfl, caches⟩

end Refinement

/-- An empty cache presents the disk. -/
theorem caches_init (disk : Nat → Bytes) (issued : List (Nat × Bytes)) (mem : μ) :
    Caches ⟨bufcacheInit, disk, issued, mem⟩ ⟨disk, disk, issued, ∅, ∅, mem⟩ := by
  have empty : ∀ x ∈ bufcacheInit, x = ⟨false, false, false, none, Bytes.zero⟩ := fun x inside =>
    List.eq_of_mem_replicate inside
  refine ⟨by simp [bufcacheInit], ?_, ?_, ?_, fun _ _ => rfl, ?_, ?_, rfl, rfl, rfl⟩
  · exact List.pairwise_replicate.mpr (Or.inr (Or.inl rfl))
  · intro x inside pinned
    simp [empty x inside] at pinned
  · intro x inside s key
    simp [empty x inside] at key
  · intro s
    simp only [Finset.notMem_empty, false_iff, not_exists, not_and]
    intro x inside key
    simp [empty x inside] at key
  · intro s
    simp only [Finset.notMem_empty, false_iff, not_exists, not_and]
    intro x inside key
    simp [empty x inside] at key

/-- After `bufcache_init`, every program does on the real cache what it does on the ideal one: which
buffers have been recycled does not show. -/
theorem cache_recycling_hidden (forbidden : Mark → Bool) (disk : Nat → Bytes) (mem : μ) {α : Type}
    (p : Prog (BufSig μ) Stop α) :
    ((bufMachine forbidden).run p ⟨bufcacheInit, disk, [], mem⟩).Matches Caches Caches (fun _ => False)
      (· = .beyond) ((idealMachine forbidden).run p ⟨disk, disk, [], ∅, ∅, mem⟩) :=
  (bufMachine_refines forbidden).run (fun _ _ same => same) p (caches_init disk [] mem)

end Ideal

end OsAudio.Fs

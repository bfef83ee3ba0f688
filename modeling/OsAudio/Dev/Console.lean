import Mathlib.Data.List.Induction
import OsAudio.Lib.Bytes

/-!
# Line editing

`readline` of `kern/dev/console.c` edits one line in `linebuf`, with the characters that `cons_getc`
returns.
-/
namespace OsAudio.Dev
open OsAudio.Lib
open Function (update update_self update_of_ne)

def bufLen : Nat := 1024

/-- How `readline` ends. -/
inductive Readline
  | line (linebuf : Nat → Byte)
  /-- A negative character: the result is `NULL`. -/
  | readError
  /-- A write at or beyond index `bufLen`. -/
  | outside
  /-- `getchar` waits for more input. -/
  | waiting

/-- `readline` from its loop on, with the characters that `cons_getc` returns.  `getchar` passes over
those that are zero. -/
def readline : List Byte → Nat → (Nat → Byte) → Readline
  | [], _, _ => .waiting
  | c :: input, i, linebuf =>
    if c = 0 then readline input i linebuf
    else if c.toInt < 0 then .readError
    else if (c = 0x08 ∨ c = 0x7f) ∧ 0 < i then readline input (i - 1) linebuf
    else if 0x20 ≤ c.toInt ∧ i < bufLen - 1 then
      if i < bufLen then readline input (i + 1) (update linebuf i c) else .outside
    else if c = 0x0a ∨ c = 0x0d then
      if i < bufLen then .line (update linebuf i 0) else .outside
    else readline input i linebuf

/-- The string at position `pos`, cut off after `fuel` characters. -/
def stringAt (str : Nat → Byte) : (fuel pos : Nat) → List Byte
  | 0, _ => []
  | fuel + 1, pos => if str pos = 0 then [] else str pos :: stringAt str fuel (pos + 1)

/-- What one character does to a line, by intent. -/
def edit (line : List Byte) (c : Byte) : List Byte :=
  if 0x20 ≤ c.toNat ∧ c.toNat ≤ 0x7e then if line.length < bufLen - 1 then line ++ [c] else line
  else if c = 0x08 ∨ c = 0x7f then line.dropLast
  else line

def edited (input : List Byte) : List Byte := input.foldl edit []

/-- What one character does to the line in `linebuf`. -/
def key (line : List Byte) (c : Byte) : List Byte :=
  if (c = 0x08 ∨ c = 0x7f) ∧ line ≠ [] then line.dropLast
  else if 0x20 ≤ c.toNat ∧ line.length < bufLen - 1 then line ++ [c]
  else line

/-- The tests overlap: with no character to remove, `DEL` passes for a printable one. -/
theorem key_eq_edit {line : List Byte} {c : Byte} (positive : c.toNat < 128)
    (removes : c = 0x7f → line ≠ []) : key line c = edit line c := by
  unfold key edit
  by_cases del : c = 0x7f
  · simp [del, removes del]
  · have other : c.toNat ≠ 127 := fun same => del (BitVec.eq_of_toNat_eq same)
    have high : c.toNat ≤ 126 := by omega
    by_cases back : c = 0x08
    · by_cases empty : line = [] <;> simp [back, empty]
    · simp only [del, back, or_self, false_and, if_false, high, and_true]
      split <;> split <;> simp_all

theorem stringAt_eq {str : Nat → Byte} {text : List Byte} {fuel pos : Nat} (short : text.length < fuel)
    (chars : ∀ k, ∀ below : k < text.length, str (pos + k) = text[k]) (nonzero : ∀ c ∈ text, c ≠ 0)
    (ends : str (pos + text.length) = 0) : stringAt str fuel pos = text := by
  induction text generalizing fuel pos with
  | nil => cases fuel <;> simp_all [stringAt]
  | cons c text ih =>
    obtain ⟨fuel, rfl⟩ : ∃ m, fuel = m + 1 := ⟨fuel - 1, by omega⟩
    have first : str pos = c := chars 0 (Nat.zero_lt_succ _)
    have moved : ∀ k, pos + 1 + k = pos + (k + 1) := fun k => by omega
    rw [stringAt, first, if_neg (nonzero c List.mem_cons_self)]
    refine congrArg _ (ih (Nat.lt_of_succ_lt_succ short) (fun k below => ?_)
      (fun d member => nonzero d (.tail _ member)) ?_)
    · rw [moved]
      exact chars (k + 1) (Nat.succ_lt_succ below)
    · rw [moved]
      exact ends

/-- The editor at work: the line is in the first characters of `linebuf`. -/
structure Editing (text : List Byte) (linebuf : Nat → Byte) : Prop where
  room : text.length < bufLen
  chars : ∀ k, ∀ below : k < text.length, linebuf k = text[k]
  nonzero : ∀ c ∈ text, c ≠ 0

theorem editing_nil (linebuf : Nat → Byte) : Editing [] linebuf := ⟨by decide, by simp, by simp⟩

section Editing
variable {line input : List Byte} {linebuf : Nat → Byte} {c stop : Byte}

theorem Editing.removed (editing : Editing line linebuf) : Editing line.dropLast linebuf := by
  refine ⟨?_, fun k below => ?_, fun c member => editing.nonzero c (List.dropLast_subset _ member)⟩
  · rw [List.length_dropLast]
    exact (Nat.sub_le _ _).trans_lt editing.room
  · rw [List.getElem_dropLast]
    exact editing.chars k _

theorem Editing.added (editing : Editing line linebuf) (some : c ≠ 0) (room : line.length < bufLen - 1) :
    Editing (line ++ [c]) (update linebuf line.length c) := by
  refine ⟨?_, fun k below => ?_, ?_⟩
  · rw [List.length_append, List.length_singleton]
    omega
  · rw [List.length_append, List.length_singleton] at below
    rw [List.getElem_append]
    split
    · next old => rw [update_of_ne old.ne, editing.chars k old]
    · next new =>
      obtain rfl : k = line.length := by omega
      simp
  · simpa [or_imp, forall_and] using ⟨editing.nonzero, some⟩

/-- Up to the end of the line, `readline` does what `key` says. -/
theorem Editing.readline (editing : Editing line linebuf) (ends : stop = 0x0a ∨ stop = 0x0d)
    (positive : ∀ c ∈ input, c.toNat < 128) (inside : ∀ c ∈ input, c ≠ 0x0a ∧ c ≠ 0x0d) :
    ∃ result, readline (input ++ [stop]) line.length linebuf = .line result ∧
      stringAt result bufLen 0 = input.foldl key line := by
  induction input generalizing line linebuf with
  | nil =>
    rw [List.foldl_nil]
    refine ⟨update linebuf line.length 0, ?_, stringAt_eq editing.room (fun k below => ?_) editing.nonzero ?_⟩
    · rcases ends with rfl | rfl <;> simp [Dev.readline, editing.room]
    · rw [Nat.zero_add, update_of_ne below.ne, editing.chars k below]
    · rw [Nat.zero_add, update_self]
  | cons c input ih =>
    have low := positive c List.mem_cons_self
    have value : c.toInt = c.toNat := BitVec.toInt_eq_toNat_of_lt (by omega)
    have rest := fun {line linebuf} (editing : Editing line linebuf) =>
      ih editing (fun c member => positive c (.tail _ member)) fun c member => inside c (.tail _ member)
    simp only [List.cons_append, Dev.readline, List.foldl_cons, key, value, ← List.length_pos_iff]
    by_cases zero : c = 0
    · subst zero
      simpa using rest editing
    rw [if_neg zero, if_neg (by omega)]
    split
    · rw [← List.length_dropLast]
      exact rest editing.removed
    split
    · next printable =>
      have room : 0x20 ≤ c.toNat ∧ line.length < bufLen - 1 := by exact_mod_cast printable
      rw [if_pos editing.room, if_pos room]
      simpa using rest (editing.added zero room.2)
    · next ignored =>
      have other : ¬ (0x20 ≤ c.toNat ∧ line.length < bufLen - 1) := by exact_mod_cast ignored
      rw [if_neg (not_or.mpr (inside c List.mem_cons_self)), if_neg other]
      exact rest editing

end Editing

theorem keys_eq_edited {input : List Byte} (positive : ∀ c ∈ input, c.toNat < 128)
    (removes : ∀ before, before ++ [0x7f] <+: input → edited before ≠ []) :
    input.foldl key [] = edited input := by
  induction input using List.reverseRecOn with
  | nil => rfl
  | append_singleton input c ih =>
    have same := ih (fun c member => positive c (by simp [member])) fun before first =>
      removes before (first.trans (List.prefix_append _ _))
    rw [edited, List.foldl_append, List.foldl_append, same]
    refine key_eq_edit (positive c (by simp)) fun del => ?_
    exact removes input (del ▸ List.prefix_rfl)

/-- `readline` returns at the end of every line without writing outside `linebuf`; and it returns
what the characters of the line make of it, wherever the line ends, exactly if no `DEL` comes while
there is nothing to remove. -/
theorem readline_edits_iff {input : List Byte} {stop : Byte} (linebuf : Nat → Byte)
    (ends : stop = 0x0a ∨ stop = 0x0d) (positive : ∀ c ∈ input, 0 ≤ c.toInt)
    (inside : ∀ c ∈ input, c ≠ 0x0a ∧ c ≠ 0x0d) :
    (∃ result, readline (input ++ [stop]) 0 linebuf = .line result) ∧
    ((∀ line, line <+: input → ∃ result, readline (line ++ [stop]) 0 linebuf = .line result ∧
        stringAt result bufLen 0 = edited line) ↔
      ∀ before, before ++ [0x7f] <+: input → edited before ≠ []) := by
  have positive : ∀ c ∈ input, c.toNat < 128 := by
    intro c member
    have := positive c member
    rw [BitVec.toInt_eq_toNat_cond] at this
    split at this <;> omega
  have typed := fun line (first : line <+: input) => (editing_nil linebuf).readline ends
    (fun c member => positive c (first.subset member)) fun c member => inside c (first.subset member)
  obtain ⟨result, returned, -⟩ := typed input List.prefix_rfl
  refine ⟨⟨result, returned⟩, fun right before first empty => ?_, fun removes line first => ?_⟩
  · have same : ∀ line, line <+: input → line.foldl key [] = edited line := by
      intro line first
      obtain ⟨result, returned, text⟩ := typed line first
      obtain ⟨result', returned', text'⟩ := right line first
      rw [← text, ← text', Readline.line.inj (returned.symm.trans returned')]
    have extended := same _ first
    rw [edited, List.foldl_append, List.foldl_append, same _ ((List.prefix_append _ _).trans first),
      ← edited, empty] at extended
    exact absurd extended (by decide)
  · obtain ⟨result, returned, text⟩ := typed line first
    refine ⟨result, returned, text.trans (keys_eq_edited (fun c member => positive c (first.subset member)) ?_)⟩
    exact fun before start => removes before (start.trans first)

theorem readline_edits_typo : ∃ result,
    readline ([0x6f, 0x08, 0x6b] ++ [0x0a]) 0 (fun _ => 0) = .line result ∧
      stringAt result bufLen 0 = [0x6b] :=
  (readline_edits_iff _ (.inl rfl) (by decide) (by decide)).2.mpr
    (fun _ first => absurd (first.subset (List.mem_append_right _ List.mem_cons_self)) (by decide)) _
    List.prefix_rfl

/-- `DEL` on an empty line becomes a character of the line. -/
theorem readline_stores_del : ∃ result, readline ([0x7f] ++ [0x0a]) 0 (fun _ => 0) = .line result ∧
    stringAt result bufLen 0 = [0x7f] ∧ edited [0x7f] = [] := by
  obtain ⟨result, returned, text⟩ :=
    (editing_nil _).readline (.inl rfl) (show ∀ c ∈ [0x7f#8], c.toNat < 128 by decide) (by decide)
  exact ⟨result, returned, text, rfl⟩

end OsAudio.Dev

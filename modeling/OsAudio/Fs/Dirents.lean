import OsAudio.Fs.FilesWrite

/-!
# The entries of a directory

The content of a directory as a table of entries, what writing one entry changes, and what
`dir_namecmp` compares.
-/
namespace OsAudio.Fs
open OsAudio.Lib

/-! ## Entries -/

/-- Entry `k` of a directory with the content `data`. -/
def entryAt (data : List Byte) (k : Nat) : Dirent :=
  direntOf ((data.drop (direntSize * k)).take direntSize)

section Entries
variable {data src : List Byte} {k : Nat}

/-- Behind the end there are only empty entries. -/
theorem entryAt_end (behind : data.length ≤ direntSize * k) : (entryAt data k).inum = 0 := by
  rw [entryAt, List.drop_eq_nil_of_le behind]
  rfl

theorem lt_of_live (live : (entryAt data k).inum ≠ 0) : direntSize * k < data.length := by
  by_contra behind
  exact live (entryAt_end (Nat.not_lt.mp behind))

/-- Writing an entry changes that entry. -/
theorem entryAt_splice (size : src.length = direntSize) (inside : direntSize * k ≤ data.length) (j : Nat) :
    entryAt (splice data (direntSize * k) src) j = if j = k then direntOf src else entryAt data j := by
  unfold entryAt
  rw [← apply_ite direntOf]
  congr 1
  refine List.ext_getElem? fun i => ?_
  rw [List.getElem?_take]
  unfold direntSize at *
  by_cases small : i < 16
  · rw [if_pos small, List.getElem?_drop, getElem?_splice inside]
    by_cases here : j = k
    · subst here
      rw [if_pos (by omega), if_pos rfl, Nat.add_sub_cancel_left]
    · rw [if_neg (by omega), if_neg here, List.getElem?_take, if_pos small, List.getElem?_drop]
  · rw [if_neg small]
    split
    · exact (List.getElem?_eq_none (by omega)).symm
    · rw [List.getElem?_take, if_neg small]

theorem length_splice_entry (whole : data.length % direntSize = 0) (size : src.length = direntSize)
    (inside : direntSize * k ≤ data.length) :
    (splice data (direntSize * k) src).length = max data.length (direntSize * (k + 1)) ∧
      (splice data (direntSize * k) src).length % direntSize = 0 := by
  rw [length_splice inside, size]
  unfold direntSize at *
  omega

@[simp] theorem length_direntBytes (inum : Nat) (name : List Byte) :
    (direntBytes inum name).length = direntSize := by
  simp [direntBytes, dirSiz, direntSize]

theorem direntOf_direntBytes (inum : Nat) (name : List Byte) :
    (direntOf (direntBytes inum name)).inum = inum % 65536 ∧
    ∀ i < dirSiz, (direntOf (direntBytes inum name)).name i = chars name i := by
  refine ⟨?_, fun i below => ?_⟩
  · refine Eq.trans (Bytes.le_congr fun i below => ?_) (Bytes.le_leByte_mod inum 2)
    rcases i with _ | _ | i
    · rfl
    · rfl
    · omega
  · have place : (direntBytes inum name)[2 + i]? = some (chars name i) := by
      unfold direntBytes
      rw [List.getElem?_append_right (by simp), List.getElem?_map]
      simp [below]
    simp only [direntOf, List.getD_eq_getElem?_getD, place, Option.getD_some]

theorem direntOf_zeros : (direntOf (List.replicate direntSize 0)).inum = 0 := by decide

/-- An entry lies in one block. -/
theorem writeCost_entry (k : Nat) : writeCost (direntSize * k) direntSize ≤ 2 := by
  have span : span (direntSize * k) direntSize = (direntSize * k % 512 + direntSize + 511) / 512 :=
    if_neg (by decide)
  unfold writeCost
  rw [span]
  unfold direntSize
  split <;> omega

theorem entries_whole (whole : data.length % direntSize = 0) :
    direntSize * entries data.length = data.length := by
  unfold entries direntSize at *
  omega

end Entries

/-! ## Names -/

/-- The characters of a name field, up to a zero. -/
def nameOf (p : Nat → Byte) : List Byte := ((List.range dirSiz).map p).takeWhile (· ≠ 0)

theorem takeWhile_letter {c : Byte} (letter : c ≠ 0) (rest : List Byte) :
    (c :: rest).takeWhile (· ≠ 0) = c :: rest.takeWhile (· ≠ 0) :=
  List.takeWhile_cons_of_pos (decide_eq_true letter)

theorem takeWhile_ends {c : Byte} (ends : c = 0) (rest : List Byte) :
    (c :: rest).takeWhile (· ≠ 0) = [] :=
  List.takeWhile_cons_of_neg (by simp [ends])

theorem strncmpEq_iff (p q : Nat → Byte) (n i : Nat) : strncmpEq p q n i = true ↔
    ((List.range' i n).map p).takeWhile (· ≠ 0) = ((List.range' i n).map q).takeWhile (· ≠ 0) := by
  induction n generalizing i with
  | zero => simp [strncmpEq]
  | succ n ih =>
    unfold strncmpEq
    rw [List.range'_succ, List.map_cons, List.map_cons]
    by_cases ends : p i = 0
    · rw [if_pos ends, takeWhile_ends ends]
      by_cases too : q i = 0
      · rw [takeWhile_ends too]
        exact iff_of_true (decide_eq_true too) rfl
      · rw [takeWhile_letter too]
        exact iff_of_false (fun same => too (of_decide_eq_true same)) nofun
    · rw [if_neg ends, takeWhile_letter ends]
      by_cases same : p i = q i
      · rw [if_pos same, ih, takeWhile_letter (same ▸ ends), same,
          List.cons.injEq, and_iff_right rfl]
      · rw [if_neg same]
        refine iff_of_false nofun fun equal => ?_
        by_cases too : q i = 0
        · rw [takeWhile_ends too] at equal
          cases equal
        · rw [takeWhile_letter too, List.cons.injEq] at equal
          exact same equal.1

/-- `dir_namecmp` compares the names. -/
theorem dirNamecmp_iff (s t : Nat → Byte) : dirNamecmp s t = true ↔ nameOf s = nameOf t := by
  unfold dirNamecmp nameOf
  rw [strncmpEq_iff, List.range_eq_range']

theorem nameOf_congr {s t : Nat → Byte} (same : ∀ i < dirSiz, s i = t i) : nameOf s = nameOf t := by
  unfold nameOf
  congr 1
  refine List.map_congr_left fun i member => same i (List.mem_range.mp member)

theorem map_chars (name : List Byte) (n : Nat) :
    (List.range n).map (chars name) = name.take n ++ List.replicate (n - name.length) 0 := by
  refine List.ext_getElem? fun i => ?_
  rw [List.getElem?_map, List.getElem?_append, List.getElem?_take, List.length_take, List.getElem?_replicate]
  by_cases below : i < n
  · rw [List.getElem?_range below, Option.map_some, if_pos below, chars, List.getD_eq_getElem?_getD]
    by_cases inside : i < name.length
    · rw [if_pos (by omega), List.getElem?_eq_getElem inside, Option.getD_some]
    · rw [if_neg (by omega), if_pos (by omega), List.getElem?_eq_none (by omega), Option.getD_none]
  · rw [List.getElem?_eq_none (by rw [List.length_range]; omega), Option.map_none, if_neg below,
      if_neg (by omega), if_neg (by omega)]

/-- The name that `dir_namecmp` sees of a C string. -/
theorem nameOf_chars {name : List Byte} (terminated : 0 ∉ name) : nameOf (chars name) = name.take dirSiz := by
  unfold nameOf
  rw [map_chars, List.takeWhile_append_of_pos, List.takeWhile_replicate_eq_filter]
  · simp
  · intro c member
    refine decide_eq_true fun zero => terminated ?_
    exact zero ▸ List.mem_of_mem_take member

/-- C strings are different names, if one is shorter than a name may be. -/
theorem nameOf_chars_ne {name other : List Byte} (short : name.length < dirSiz) (terminated : 0 ∉ other)
    (different : other ≠ name) : nameOf (chars other) ≠ name := by
  rw [nameOf_chars terminated]
  intro same
  have length := congrArg List.length same
  rw [List.length_take] at length
  rw [List.take_of_length_le (by omega)] at same
  exact different same

/-- Entry `k` is in use and has the name `name`. -/
def Match (data name : List Byte) (k : Nat) : Prop :=
  (entryAt data k).inum ≠ 0 ∧ nameOf (chars name) = nameOf (entryAt data k).name

/-- Entry `k` is the first empty one, or the one behind the end. -/
structure FirstEmpty (data : List Byte) (k : Nat) : Prop where
  place : direntSize * k ≤ data.length
  empty : (entryAt data k).inum = 0
  before : ∀ j, j < k → (entryAt data j).inum ≠ 0

end OsAudio.Fs

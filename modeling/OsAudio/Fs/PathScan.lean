import OsAudio.Fs.References
import OsAudio.Fs.Dirents

/-!
# Parsing paths

`skipelem` walks over the characters of a path in memory and writes the next element to a buffer.
Called until it returns 0, it goes through the elements of the path: the runs of characters between
slashes, cut to the length of a name.  `namei` and `nameiparent` look these elements up one after the
other.
-/
namespace OsAudio.Fs
open OsAudio.Lib

/-! ## The elements of a path -/

/-- The runs of characters other than slashes. -/
def runs (path : List Byte) : List (List Byte) := (path.splitOn slash).filter (· ≠ [])

/-- The elements of a path. -/
def elements (path : List Byte) : List (List Byte) := (runs path).map (List.take (dirSiz - 1))

section Elements
variable {path elem rest : List Byte}

theorem runs_slash (path : List Byte) : runs (slash :: path) = runs path := by
  unfold runs List.splitOn
  rw [List.splitOnP_cons_eq_if_modifyHead, if_pos (beq_self_eq_true slash),
    List.filter_cons_of_neg (p := (· ≠ [])) (by simp)]

theorem runs_dropWhile (path : List Byte) : runs (path.dropWhile (· == slash)) = runs path := by
  induction path with
  | nil => rfl
  | cons c path ih =>
    by_cases same : c = slash
    · rw [List.dropWhile_cons_of_pos (p := (· == slash)) (beq_iff_eq.mpr same), ih, same, runs_slash]
    · rw [List.dropWhile_cons_of_neg (p := (· == slash)) (by simpa using same)]

/-- A run in front. -/
theorem runs_run (some : elem ≠ []) (letters : ∀ c ∈ elem, (c == slash) = false)
    (ends : rest = [] ∨ ∃ tail, rest = slash :: tail) : runs (elem ++ rest) = elem :: runs rest := by
  have filled : decide (elem ≠ []) = true := decide_eq_true some
  rcases ends with rfl | ⟨tail, rfl⟩
  · unfold runs List.splitOn
    rw [List.append_nil, List.splitOnP_eq_singleton letters, List.splitOnP_nil,
      List.filter_cons_of_pos (p := (· ≠ [])) filled]
    rfl
  · rw [runs_slash]
    unfold runs List.splitOn
    rw [List.splitOnP_append_cons_of_forall_mem letters slash (beq_self_eq_true slash),
      List.filter_cons_of_pos (p := (· ≠ [])) filled]

/-- What is left where a loop over characters stops. -/
theorem dropWhile_stops (p : Byte → Bool) (l : List Byte) :
    l.dropWhile p = [] ∨ ∃ c tail, l.dropWhile p = c :: tail ∧ p c = false := by
  cases left : l.dropWhile p with
  | nil => exact Or.inl rfl
  | cons c tail =>
    refine Or.inr ⟨c, tail, rfl, ?_⟩
    have first := List.head?_dropWhile_not p l
    rw [left] at first
    exact first

/-- `skipelem` takes the first element off. -/
theorem skipelem_eq (path : List Byte) :
    (skipelem path = none ∧ elements path = []) ∨
    ∃ elem rest, skipelem path = some (elem, rest) ∧ elements path = elem :: elements rest := by
  unfold skipelem elements
  rw [← runs_dropWhile path]
  rcases dropWhile_stops (· == slash) path with nil | ⟨c, tail, cons, letter⟩
  · rw [nil]
    exact Or.inl ⟨rfl, rfl⟩
  refine Or.inr ?_
  rw [cons]
  have letters : ∀ d ∈ (c :: tail).takeWhile (· != slash), (d == slash) = false := by
    intro d member
    simpa using List.mem_takeWhile_imp member
  have first : (c :: tail).takeWhile (· != slash) ≠ [] := by
    rw [List.takeWhile_cons_of_pos (p := (· != slash)) (by simpa using letter)]
    exact List.cons_ne_nil _ _
  have ends : (c :: tail).dropWhile (· != slash) = [] ∨
      ∃ tail', (c :: tail).dropWhile (· != slash) = slash :: tail' := by
    rcases dropWhile_stops (· != slash) (c :: tail) with nil | ⟨d, tail', cons', stops⟩
    · exact Or.inl nil
    · obtain rfl : d = slash := by simpa using stops
      exact Or.inr ⟨tail', cons'⟩
  have split := runs_run first letters ends
  rw [List.takeWhile_append_dropWhile] at split
  refine ⟨_, _, if_neg nofun, ?_⟩
  rw [split, List.map_cons, runs_dropWhile]

theorem length_le_of_mem_elements (member : elem ∈ elements path) : elem.length < dirSiz := by
  obtain ⟨run, -, rfl⟩ := List.mem_map.mp member
  rw [List.length_take]
  unfold dirSiz
  omega

end Elements

/-! ## The characters in memory -/

/-- `while (cond (*path)) path++`, if it ends within `fuel` rounds. -/
def skipChars (cond : Byte → Bool) (str : Nat → Byte) : (fuel path : Nat) → Option Nat
  | 0, _ => none
  | fuel + 1, path => if cond (str path) then skipChars cond str fuel (path + 1) else some path

/-- `memmove (name, s, len)` and `name[len] = 0`, as writes to the buffer. -/
def nameWrites (str : Nat → Byte) (s len : Nat) : List (Nat × Byte) :=
  (List.range len).map (fun i => (i, str (s + i))) ++ [(len, 0)]

/-- `skipelem` on the characters `str` in memory: the path that is left and the writes to `name`, or
the null pointer. -/
def skipelemAt (fuel : Nat) (str : Nat → Byte) (path : Nat) : Option (Option (Nat × List (Nat × Byte))) := do
  let path ← skipChars (· == slash) str fuel path
  if str path = 0 then some none
  else do
    let s := path
    let path ← skipChars (fun c => c != slash && c != 0) str fuel path
    let len := path - s
    let writes := if dirSiz ≤ len then nameWrites str s (dirSiz - 1) else nameWrites str s len
    let path ← skipChars (· == slash) str fuel path
    some (some (path, writes))

/-- The writes of the calls of `skipelem`, up to the one that returns 0. -/
def scanPath (fuel : Nat) (str : Nat → Byte) : (calls path : Nat) → Option (List (List (Nat × Byte)))
  | 0, _ => none
  | calls + 1, path => do
    let next ← skipelemAt fuel str path
    match next with
    | none => some []
    | some (path, writes) => do
      let rest ← scanPath fuel str calls path
      some (writes :: rest)

/-- The string at `pos` in memory. -/
structure CString (str : Nat → Byte) (pos : Nat) (text : List Byte) : Prop where
  terminated : 0 ∉ text
  char : ∀ i ≤ text.length, str (pos + i) = chars text i

section Memory
variable {str : Nat → Byte} {pos fuel : Nat} {text path : List Byte} {cond : Byte → Bool}

theorem CString.head (string : CString str pos text) : str pos = chars text 0 := string.char 0 (Nat.zero_le _)

theorem CString.tail {c : Byte} (string : CString str pos (c :: text)) : CString str (pos + 1) text := by
  refine ⟨fun zero => string.terminated (List.mem_cons_of_mem c zero), fun i inside => ?_⟩
  have char := string.char (i + 1) (Nat.succ_le_succ inside)
  rw [show pos + 1 + i = pos + (i + 1) by omega, char]
  exact List.getD_cons_succ ..

theorem CString.head_ne {c : Byte} (string : CString str pos (c :: text)) : str pos = c ∧ c ≠ 0 := by
  refine ⟨string.head.trans (List.getD_cons_zero ..), ?_⟩
  rintro rfl
  exact string.terminated (List.mem_cons_self ..)

/-- A loop over characters that stops at the end of the string. -/
theorem CString.skipChars (string : CString str pos text) (stops : cond 0 = false) (fueled : text.length < fuel) :
    skipChars cond str fuel pos = some (pos + (text.takeWhile cond).length) ∧
      CString str (pos + (text.takeWhile cond).length) (text.dropWhile cond) := by
  induction text generalizing pos fuel with
  | nil =>
    obtain ⟨fuel, rfl⟩ := Nat.exists_eq_succ_of_ne_zero (Nat.ne_of_gt fueled)
    refine ⟨?_, string⟩
    rw [Fs.skipChars, string.head, if_neg (by rw [show chars [] 0 = 0 from rfl, stops]; nofun)]
    rfl
  | cons c text ih =>
    obtain ⟨fuel, rfl⟩ := Nat.exists_eq_succ_of_ne_zero (Nat.ne_of_gt (Nat.lt_of_le_of_lt (Nat.zero_le _) fueled))
    rw [Fs.skipChars, string.head_ne.1]
    by_cases more : cond c = true
    · obtain ⟨moved, rest⟩ := @ih (pos + 1) fuel string.tail (Nat.lt_of_succ_lt_succ fueled)
      rw [if_pos more, moved, List.takeWhile_cons_of_pos more, List.dropWhile_cons_of_pos more, List.length_cons]
      rw [show pos + ((text.takeWhile cond).length + 1) = pos + 1 + (text.takeWhile cond).length by omega]
      exact ⟨rfl, rest⟩
    · rw [if_neg more, List.takeWhile_cons_of_neg more, List.dropWhile_cons_of_neg more]
      exact ⟨rfl, string⟩

/-- In a string, the test for its end makes no difference. -/
theorem takeWhile_terminated (terminated : 0 ∉ text) :
    text.takeWhile (fun c => c != slash && c != 0) = text.takeWhile (· != slash) ∧
    text.dropWhile (fun c => c != slash && c != 0) = text.dropWhile (· != slash) := by
  induction text with
  | nil => exact ⟨rfl, rfl⟩
  | cons c text ih =>
    have more : (c != 0) = true := bne_iff_ne.mpr fun zero => terminated (zero ▸ List.mem_cons_self ..)
    obtain ⟨taken, left⟩ := ih fun zero => terminated (List.mem_cons_of_mem c zero)
    rw [List.takeWhile_cons, List.takeWhile_cons, List.dropWhile_cons, List.dropWhile_cons, more, Bool.and_true,
      taken, left]
    exact ⟨rfl, rfl⟩

/-- The buffer has the element as a string, whatever was in it. -/
theorem nameWrites_string {elem : List Byte} {s : Nat} (terminated : 0 ∉ elem)
    (letters : ∀ i < elem.length, str (s + i) = chars elem i) (name : Nat → Byte) :
    CString (applyWrites name (nameWrites str s elem.length)) 0 elem := by
  refine ⟨terminated, fun i inside => ?_⟩
  rw [Nat.zero_add]
  refine (applyWrites_value fun w member here => ?_).1 ?_
  · rcases List.mem_append.mp member with copied | last
    · obtain ⟨j, below, rfl⟩ := List.mem_map.mp copied
      obtain rfl : j = i := here
      exact letters j (List.mem_range.mp below)
    · obtain rfl := List.mem_singleton.mp last
      obtain rfl : elem.length = i := here
      unfold chars
      rw [List.getD_eq_getElem?_getD, List.getElem?_eq_none (Nat.le_refl _), Option.getD_none]
  · rcases Nat.lt_or_eq_of_le inside with below | rfl
    · exact ⟨(i, str (s + i)), List.mem_append_left _ (List.mem_map.mpr ⟨i, List.mem_range.mpr below, rfl⟩), rfl⟩
    · exact ⟨_, List.mem_append_right _ (List.mem_singleton_self _), rfl⟩

/-- The writes of a call stay within the buffer. -/
theorem nameWrites_inside {s len : Nat} (short : len < dirSiz) :
    (nameWrites str s len).length ≤ dirSiz ∧ ∀ w ∈ nameWrites str s len, w.1 < dirSiz := by
  unfold nameWrites
  refine ⟨?_, fun w member => ?_⟩
  · rw [List.length_append, List.length_map, List.length_range, List.length_singleton]
    exact short
  · rcases List.mem_append.mp member with copied | last
    · obtain ⟨j, below, rfl⟩ := List.mem_map.mp copied
      exact Nat.lt_trans (List.mem_range.mp below) short
    · obtain rfl := List.mem_singleton.mp last
      exact short

/-- `skipelem` in memory does to a string what `skipelem` does to a list of characters. -/
theorem CString.skipelemAt (string : CString str pos path) (fueled : path.length < fuel) :
    (skipelem path = none → skipelemAt fuel str pos = some none) ∧
    ∀ elem rest, skipelem path = some (elem, rest) → ∃ next s,
      skipelemAt fuel str pos = some (some (next, nameWrites str s elem.length)) ∧ CString str next rest ∧
        0 ∉ elem ∧ ∀ i < elem.length, str (s + i) = chars elem i := by
  obtain ⟨first, start⟩ := @CString.skipChars str pos fuel path (· == slash) string (by decide) fueled
  generalize pos + (path.takeWhile (· == slash)).length = s at first start
  have shorter := (List.dropWhile_suffix (l := path) (· == slash)).length_le
  unfold Fs.skipelemAt skipelem
  rw [first]
  dsimp only [Option.bind_eq_bind, Option.bind_some]
  generalize path.dropWhile (· == slash) = path' at start shorter
  cases path' with
  | nil =>
    rw [start.head]
    refine ⟨fun _ => if_pos rfl, fun elem rest taken => ?_⟩
    cases taken
  | cons c tail =>
    obtain ⟨char, letter⟩ := start.head_ne
    refine ⟨nofun, fun elem rest taken => ?_⟩
    rw [char, if_neg letter]
    obtain ⟨second, middle⟩ := @CString.skipChars str s fuel (c :: tail) (fun c => c != slash && c != 0) start
      (by decide) (Nat.lt_of_le_of_lt shorter fueled)
    obtain ⟨takes, drops⟩ := takeWhile_terminated start.terminated
    rw [takes] at second middle
    rw [drops] at middle
    have between := (List.dropWhile_suffix (l := c :: tail) (· != slash)).length_le
    have enough : ((c :: tail).dropWhile (· != slash)).length < fuel := by omega
    obtain ⟨third, last⟩ := @CString.skipChars str _ fuel _ (· == slash) middle (by decide) enough
    obtain ⟨rfl, rfl⟩ := Prod.mk.inj (Option.some.inj taken)
    rw [second]
    dsimp only [Option.bind_some]
    rw [third, Nat.add_sub_cancel_left]
    refine ⟨_, s, ?_, last, fun zero => ?_, fun i below => ?_⟩
    · rw [List.length_take]
      unfold dirSiz
      split
      · rw [Nat.min_eq_left (by omega)]
        rfl
      · rw [Nat.min_eq_right (by omega)]
        rfl
    · exact start.terminated ((List.takeWhile_sublist _).mem (List.mem_of_mem_take zero))
    · have longer := (List.takeWhile_prefix (l := c :: tail) (· != slash)).length_le
      rw [List.length_take] at below
      have same : (c :: tail)[i]? = ((c :: tail).takeWhile (· != slash))[i]? := by
        conv_lhs => rw [← List.takeWhile_append_dropWhile (p := (· != slash)) (l := c :: tail)]
        exact List.getElem?_append_left (by omega)
      rw [start.char i (by omega)]
      unfold chars
      rw [List.getD_eq_getElem?_getD, List.getD_eq_getElem?_getD, List.getElem?_take, if_pos (by omega), same]

/-- The calls of `skipelem` on a string go through its elements. -/
theorem CString.scanPath (string : CString str pos path) (fueled : path.length < fuel) {calls : Nat}
    (enough : path.length < calls) : ∃ writes, scanPath fuel str calls pos = some writes ∧
      List.Forall₂ (fun ws elem => (∀ name, CString (applyWrites name ws) 0 elem) ∧ ws.length ≤ dirSiz ∧
        ∀ w ∈ ws, w.1 < dirSiz) writes (elements path) := by
  induction calls generalizing pos path with
  | zero => omega
  | succ calls ih =>
    obtain ⟨ends, goes⟩ := string.skipelemAt fueled
    unfold Fs.scanPath
    rcases skipelem_eq path with ⟨absent, nil⟩ | ⟨elem, rest, found, cons⟩
    · rw [ends absent, nil]
      exact ⟨[], rfl, .nil⟩
    · obtain ⟨next, s, call, left, terminated, letters⟩ := goes elem rest found
      have shorter := skipelem_shorter found
      obtain ⟨writes, others, each⟩ := ih left (by omega) (by omega)
      rw [call, cons]
      refine ⟨nameWrites str s elem.length :: writes, ?_, .cons ⟨?_, ?_⟩ each⟩
      · dsimp only [Option.bind_eq_bind, Option.bind_some]
        rw [others]
        rfl
      · exact nameWrites_string terminated letters
      · exact nameWrites_inside (length_le_of_mem_elements (cons ▸ List.mem_cons_self ..))

end Memory

/-! ## Looking up the elements -/

/-- One step of a walk: the inode with the name in the directory of entry `ip`, which is given back. -/
def lookupStep (ip : Nat) (name : List Byte) : FsProg (Option Nat) := do
  ilock ip
  let view ← look ip
  if view.type ≠ tDir then do
    iunlockput ip
    pure none
  else do
    let next ← dirLookup ip name
    iunlockput ip
    pure (next.map (·.1))

/-- The names are looked up one after the other. -/
def foldPath : List (List Byte) → Nat → FsProg (Option Nat)
  | [], ip => pure (some ip)
  | name :: names, ip => do
    let next ← lookupStep ip name
    match next with
    | none => pure none
    | some next => foldPath names next

/-- The directory of entry `dp` is the parent, unless it is not a directory. -/
def checkParent (name : List Byte) (dp : Nat) : FsProg (Option (Nat × List Byte)) := do
  ilock dp
  let view ← look dp
  if view.type ≠ tDir then do
    iunlockput dp
    pure none
  else do
    iunlock dp
    pure (some (dp, name))

/-- All names but the last are looked up. -/
def foldParent (names : List (List Byte)) (ip : Nat) : FsProg (Option (Nat × List Byte)) :=
  match names.getLast? with
  | none => do
    iput ip
    pure none
  | some name => do
    let parent ← foldPath names.dropLast ip
    match parent with
    | none => pure none
    | some dp => checkParent name dp

variable {path : List Byte}

theorem elements_of_none (absent : skipelem path = none) : elements path = [] := by
  rcases skipelem_eq path with ⟨-, nil⟩ | ⟨elem, rest, found, -⟩
  · exact nil
  · rw [absent] at found
    cases found

theorem elements_of_some {elem rest : List Byte} (found : skipelem path = some (elem, rest)) :
    elements path = elem :: elements rest := by
  rcases skipelem_eq path with ⟨absent, -⟩ | ⟨elem', rest', found', cons⟩
  · rw [absent] at found
    cases found
  · rw [found'] at found
    cases found
    exact cons

/-- The loop of `namex` for `namei`. -/
theorem namexFrom_namei {fuel : Nat} (fueled : path.length < fuel) (ip : Nat)
    (name : List Byte) : (namexFrom false fuel ip path name >>= fun found => pure (found.map (·.1))) =
      foldPath (elements path) ip := by
  induction fuel generalizing path ip name with
  | zero => omega
  | succ fuel ih =>
    unfold namexFrom
    cases split : skipelem path with
    | none =>
      rw [elements_of_none split]
      rfl
    | some both =>
      obtain ⟨elem, rest⟩ := both
      have shorter := skipelem_shorter split
      rw [elements_of_some split]
      unfold foldPath lookupStep
      simp only [bind_assoc]
      refine bind_congr fun _ => bind_congr fun view => ?_
      split
      · simp only [bind_assoc, pure_bind, Option.map_none]
      · rw [if_neg (by simp)]
        simp only [bind_assoc, pure_bind]
        refine bind_congr fun next => ?_
        cases next with
        | none => simp only [bind_assoc, pure_bind, Option.map_none]
        | some next =>
          simp only [bind_assoc, Option.map_some]
          exact bind_congr fun _ => ih (by omega) next.1 elem

/-- What `skipelem` leaves is empty if there is no element in it. -/
theorem elements_left {elem rest : List Byte} (found : skipelem path = some (elem, rest)) :
    rest.isEmpty = true ↔ elements rest = [] := by
  constructor
  · intro empty
    rw [List.isEmpty_iff.mp empty]
    rfl
  · intro nil
    unfold skipelem at found
    dsimp only at found
    split at found
    · cases found
    obtain ⟨-, rfl⟩ := Prod.mk.inj (Option.some.inj found)
    generalize (path.dropWhile (· == slash)).dropWhile (· != slash) = left at nil ⊢
    rcases dropWhile_stops (· == slash) left with done | ⟨c, tail, cons, letter⟩
    · rw [done]
      rfl
    · rw [cons] at nil
      rcases skipelem_eq (c :: tail) with ⟨absent, -⟩ | ⟨elem', rest', -, more⟩
      · unfold skipelem at absent
        rw [List.dropWhile_cons_of_neg (p := (· == slash)) (by rw [letter]; nofun)] at absent
        cases absent
      · rw [more] at nil
        cases nil

theorem foldParent_cons {names : List (List Byte)} (some : names ≠ []) (name : List Byte) (ip : Nat) :
    foldParent (name :: names) ip = (lookupStep ip name >>= fun next =>
      match next with
      | none => pure none
      | .some next => foldParent names next) := by
  obtain ⟨last, more⟩ : ∃ last, names.getLast? = .some last := ⟨_, List.getLast?_eq_some_getLast some⟩
  unfold foldParent
  rw [List.getLast?_cons_of_ne_nil some, more, List.dropLast_cons_of_ne_nil some]
  dsimp only
  rw [foldPath, bind_assoc]
  refine bind_congr fun next => ?_
  cases next with
  | none => rfl
  | some next => rfl

/-- The loop of `namex` for `nameiparent`. -/
theorem namexFrom_nameiparent {fuel : Nat} (fueled : path.length < fuel) (ip : Nat)
    (name : List Byte) : namexFrom true fuel ip path name = foldParent (elements path) ip := by
  induction fuel generalizing path ip name with
  | zero => omega
  | succ fuel ih =>
    unfold namexFrom
    cases split : skipelem path with
    | none =>
      rw [elements_of_none split]
      rfl
    | some both =>
      obtain ⟨elem, rest⟩ := both
      have shorter := skipelem_shorter split
      have left := elements_left split
      rw [elements_of_some split]
      by_cases last : elements rest = []
      · rw [last]
        refine bind_congr fun _ => bind_congr fun view => ?_
        split
        · rfl
        · rw [if_pos ⟨rfl, left.mpr last⟩]
          rfl
      · rw [foldParent_cons last, lookupStep]
        simp only [bind_assoc]
        refine bind_congr fun _ => bind_congr fun view => ?_
        split
        · simp only [bind_assoc, pure_bind]
        · rw [if_neg fun both => last (left.mp both.2)]
          simp only [bind_assoc, pure_bind]
          refine bind_congr fun next => ?_
          cases next with
          | none => simp only [Option.map_none]
          | some next =>
            simp only [Option.map_some]
            exact bind_congr fun _ => ih (by omega) next.1 elem

/-- `skipelem` goes through the elements of a path, and `namei` and `nameiparent` look all of them, or
all but the last, up from the root directory or the current one. -/
theorem path_parsing_exact :
    (∀ str pos path fuel, CString str pos path → path.length < fuel →
      ∃ writes, scanPath fuel str fuel pos = some writes ∧
        List.Forall₂ (fun ws elem => (∀ name, CString (applyWrites name ws) 0 elem) ∧ ws.length ≤ dirSiz ∧
          ∀ w ∈ ws, w.1 < dirSiz) writes (elements path)) ∧
    (∀ path, namei path = pathStart path >>= foldPath (elements path)) ∧
    ∀ path, nameiparent path = pathStart path >>= foldParent (elements path) := by
  refine ⟨fun str pos path fuel string fueled => string.scanPath fueled fueled, fun path => ?_, fun path => ?_⟩
  · unfold namei
    rw [namex_start, bind_assoc]
    exact bind_congr fun ip => namexFrom_namei (Nat.lt_succ_self _) ip []
  · unfold nameiparent
    rw [namex_start]
    exact bind_congr fun ip => namexFrom_nameiparent (Nat.lt_succ_self _) ip []

/-- The path `//a/b` has two elements. -/
theorem path_parsing_two :
    ∃ writes, scanPath 7 (chars [slash, slash, 0x61, slash, 0x62]) 7 0 = some writes ∧
      List.Forall₂ (fun ws elem => (∀ name, CString (applyWrites name ws) 0 elem) ∧ ws.length ≤ dirSiz ∧
        ∀ w ∈ ws, w.1 < dirSiz) writes [[0x61], [0x62]] := by
  have two : elements [slash, slash, 0x61, slash, 0x62] = [[0x61], [0x62]] := by decide
  rw [← two]
  refine path_parsing_exact.1 _ 0 _ 7 ⟨by decide, fun i _ => ?_⟩ (by decide)
  rw [Nat.zero_add]

end OsAudio.Fs

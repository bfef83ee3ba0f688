import Mathlib.Data.Fintype.Card
import Mathlib.Data.List.Nodup
import Mathlib.Tactic.Common

/-!
# Singly linked lists with an unlinked end

Cells are threaded on one `next` field, and the owner of the list keeps its head.  A cell is
added at the end by walking the links until one is null and storing the cell there, or in the
middle by walking to the place and linking it behind the last cell seen; a cell is cut out behind
the one before it.
-/
namespace OsAudio.Lib

open Function (update update_self update_of_ne)
variable {ι : Type*}

/-- The cells found from `head` on, in order. -/
def ListSeg (next : ι → Option ι) : Option ι → List ι → Prop
  | head, [] => head = none
  | head, x :: rest => head = some x ∧ ListSeg next (next x) rest

/-- Where the walk from `link` on ends: the cell whose link is null, or `none` if the head
itself is.  The walk gives up after `fuel` cells. -/
def findEnd (next : ι → Option ι) : (fuel : Nat) → (owner link : Option ι) → Option (Option ι)
  | 0, _, _ => none
  | _ + 1, owner, none => some owner
  | fuel + 1, _, some x => findEnd next fuel (some x) (next x)

/-- Store `x` in the link of `owner`, or in the head. -/
def linkAt [DecidableEq ι] (next : ι → Option ι) (head owner : Option ι) (x : ι) :
    (ι → Option ι) × Option ι :=
  match owner with
  | none => (next, some x)
  | some last => (update next last (some x), head)

/-- The last cell before the first one in `stop`; the walk gives up after `fuel` cells. -/
def findBefore (next : ι → Option ι) (stop : ι → Bool) :
    (fuel : Nat) → (owner link : Option ι) → Option (Option ι)
  | 0, _, _ => none
  | _ + 1, owner, none => some owner
  | fuel + 1, owner, some x => if stop x then some owner else findBefore next stop fuel (some x) (next x)

/-- Link `x` behind `owner`, or as the first cell. -/
def insertAt [DecidableEq ι] (next : ι → Option ι) (head owner : Option ι) (x : ι) :
    (ι → Option ι) × Option ι :=
  match owner with
  | none => (update next x head, some x)
  | some y => (update (update next x (next y)) y (some x), head)

/-- Cut out the cell behind `x`. -/
def removeAfter [DecidableEq ι] (next : ι → Option ι) (x : ι) : ι → Option ι :=
  update next x ((next x).bind next)

/-- At most `fuel` cells from `link` on. -/
def cellsFrom (next : ι → Option ι) : (fuel : Nat) → (link : Option ι) → List ι
  | 0, _ => []
  | _ + 1, none => []
  | fuel + 1, some x => x :: cellsFrom next fuel (next x)

section ListSeg
variable {next : ι → Option ι} {head : Option ι} {x : ι} {xs : List ι}

theorem ListSeg.head_eq (path : ListSeg next head xs) : head = xs.head? := by
  cases xs with
  | nil => exact path
  | cons y rest => exact path.1

/-- The second part of a path is a path. -/
theorem ListSeg.tail {ys : List ι} (path : ListSeg next head (xs ++ ys)) : ListSeg next ys.head? ys := by
  induction xs generalizing head with
  | nil =>
    have first := path.head_eq
    exact first ▸ path
  | cons x xs ih => exact ih path.2

section
variable (path : ListSeg next head xs)
include path

/-- A path depends on the links of its own cells only. -/
theorem ListSeg.congr {other : ι → Option ι} (same : ∀ y ∈ xs, other y = next y) :
    ListSeg other head xs := by
  induction xs generalizing head with
  | nil => exact path
  | cons y rest ih =>
    obtain ⟨first, linked⟩ := path
    refine ⟨first, ?_⟩
    rw [same y (by simp)]
    exact ih linked fun z member => same z (by simp [member])

theorem ListSeg.relink [DecidableEq ι] (new : x ∉ xs) (link : Option ι) :
    ListSeg (update next x link) head xs := by
  refine path.congr fun y member => update_of_ne ?_ _ _
  rintro rfl
  exact new member

/-- The walk ends at the last cell, given a step for each cell and one more. -/
theorem findEnd_path {fuel : Nat} (enough : xs.length < fuel) (owner : Option ι) :
    findEnd next fuel owner head = some (xs.getLast?.or owner) := by
  induction xs generalizing head fuel owner with
  | nil =>
    cases fuel with
    | zero => simp at enough
    | succ fuel =>
      cases path
      simp [findEnd]
  | cons y rest ih =>
    cases fuel with
    | zero => simp at enough
    | succ fuel =>
      obtain ⟨rfl, linked⟩ := path
      have rest_enough : rest.length < fuel := by simpa using enough
      simp only [findEnd, ih linked rest_enough]
      cases rest with
      | nil => simp
      | cons z rest =>
        rw [List.getLast?_cons_cons, List.getLast?_eq_some_getLast (by simp)]
        rfl

/-- Linking a cell behind the last one appends it. -/
theorem ListSeg.append [DecidableEq ι] (nodup : xs.Nodup) (new : x ∉ xs) (last : next x = none) :
    ListSeg (linkAt next head xs.getLast? x).1 (linkAt next head xs.getLast? x).2 (xs ++ [x]) := by
  induction xs generalizing head with
  | nil => exact ⟨rfl, last⟩
  | cons y rest ih =>
    obtain ⟨rfl, linked⟩ := path
    obtain ⟨fresh, nodup⟩ := List.nodup_cons.mp nodup
    have different : x ≠ y := fun equal => new (by simp [equal])
    cases rest with
    | nil =>
      refine ⟨rfl, ?_, ?_⟩
      · simp [linkAt]
      · change update next y (some x) x = none
        simpa [different] using last
    | cons z rest =>
      have appended := ih linked nodup fun member => new (by simp [member])
      have ends : (z :: rest).getLast? = some ((z :: rest).getLast (by simp)) :=
        List.getLast?_eq_some_getLast (by simp)
      have other : y ≠ (z :: rest).getLast (by simp) := by
        intro equal
        exact fresh (equal ▸ List.getLast_mem (by simp))
      have whole : (y :: z :: rest).getLast? = (z :: rest).getLast? := List.getLast?_cons_cons
      rw [whole, ends]
      rw [ends] at appended
      refine ⟨rfl, ?_⟩
      simpa [linkAt, other] using appended

/-- The walk stops where the cells in `stop` begin. -/
theorem findBefore_path {stop : ι → Bool} {fuel : Nat} (enough : xs.length < fuel)
    (owner : Option ι) :
    findBefore next stop fuel owner head = some ((xs.takeWhile fun x => !stop x).getLast?.or owner) := by
  induction xs generalizing head fuel owner with
  | nil =>
    cases fuel with
    | zero => simp at enough
    | succ fuel =>
      cases path
      simp [findBefore]
  | cons y rest ih =>
    cases fuel with
    | zero => simp at enough
    | succ fuel =>
      obtain ⟨rfl, linked⟩ := path
      have rest_enough : rest.length < fuel := by simpa using enough
      unfold findBefore
      split
      · next stops => simp [stops]
      · next goes =>
        have goes : stop y = false := Bool.eq_false_of_not_eq_true goes
        rw [ih linked rest_enough, List.takeWhile_cons_of_pos (by simp [goes]), List.getLast?_cons]
        cases (rest.takeWhile fun x => !stop x).getLast? <;> rfl

/-- The cells found from the head on are those of the path. -/
theorem cellsFrom_path {fuel : Nat} (enough : xs.length ≤ fuel) :
    cellsFrom next fuel head = xs := by
  induction xs generalizing head fuel with
  | nil =>
    cases path
    cases fuel <;> rfl
  | cons y rest ih =>
    cases fuel with
    | zero => simp at enough
    | succ fuel =>
      obtain ⟨rfl, linked⟩ := path
      exact congrArg (y :: ·) (ih linked (by simpa using enough))

end

variable [DecidableEq ι] {ys : List ι} {y : ι}

/-- Linking a cell changes its own link and that of the cell before it. -/
theorem insertAt_other {owner : Option ι} {z : ι} (other : z ≠ x) (apart : owner ≠ some z) :
    (insertAt next head owner x).1 z = next z := by
  cases owner with
  | none => exact update_of_ne other ..
  | some w =>
    have different : z ≠ w := fun equal => apart (congrArg some equal.symm)
    change update (update next x (next w)) w (some x) z = next z
    rw [update_of_ne different, update_of_ne other]

/-- Linking a cell behind a first part of the path puts it there. -/
theorem ListSeg.insert (path : ListSeg next head (xs ++ ys)) (nodup : (xs ++ ys).Nodup)
    (new : x ∉ xs ++ ys) :
    ListSeg (insertAt next head xs.getLast? x).1 (insertAt next head xs.getLast? x).2 (xs ++ x :: ys) := by
  induction xs generalizing head with
  | nil =>
    have kept : ∀ z ∈ ys, update next x head z = next z := by
      intro z member
      refine update_of_ne ?_ ..
      rintro rfl
      exact new member
    refine ⟨rfl, ?_⟩
    change ListSeg _ (update next x head x) ys
    rw [update_self]
    exact path.congr kept
  | cons z rest ih =>
    obtain ⟨rfl, linked⟩ := path
    obtain ⟨fresh, nodup⟩ := List.nodup_cons.mp nodup
    have apart : x ≠ z := fun equal => new (by simp [equal])
    cases rest with
    | nil =>
      refine ⟨rfl, ?_, ?_⟩
      · simp [insertAt]
      · change ListSeg _ (update (update next x (next z)) z (some x) x) ys
        rw [update_of_ne apart, update_self]
        refine ListSeg.congr linked fun w member => ?_
        have other : w ≠ z := fun equal => fresh (equal ▸ member)
        have absent : w ≠ x := fun equal => new (by simp [← equal, show w ∈ ys from member])
        rw [List.getLast?_singleton]
        change update (update next x (next z)) z (some x) w = next w
        rw [update_of_ne other, update_of_ne absent]
    | cons w rest =>
      have inserted := ih linked nodup fun member => new (by
        rw [List.cons_append]
        exact List.mem_cons_of_mem z member)
      have ends : (w :: rest).getLast? = some ((w :: rest).getLast (by simp)) :=
        List.getLast?_eq_some_getLast (by simp)
      have other : z ≠ (w :: rest).getLast (by simp) := by
        intro equal
        have member : (w :: rest).getLast (by simp) ∈ w :: rest := List.getLast_mem (by simp)
        exact fresh (List.mem_append_left ys (equal ▸ member))
      rw [List.getLast?_cons_cons, ends]
      rw [ends] at inserted
      refine ⟨rfl, ?_⟩
      change ListSeg _ (update (update next x _) _ (some x) z) _
      rw [update_of_ne other, update_of_ne apart.symm]
      exact inserted

/-- Cutting out a cell leaves the others. -/
theorem ListSeg.removeAfter (path : ListSeg next head (xs ++ x :: y :: ys))
    (nodup : (xs ++ x :: y :: ys).Nodup) : ListSeg (removeAfter next x) head (xs ++ x :: ys) := by
  induction xs generalizing head with
  | nil =>
    obtain ⟨rfl, second, linked⟩ := path
    have fresh := (List.nodup_cons.mp nodup).1
    refine ⟨rfl, ?_⟩
    unfold Lib.removeAfter
    rw [update_self, second]
    refine ListSeg.congr linked fun z member => update_of_ne ?_ ..
    rintro rfl
    exact fresh (List.mem_cons_of_mem y member)
  | cons z rest ih =>
    obtain ⟨rfl, linked⟩ := path
    obtain ⟨fresh, nodup⟩ := List.nodup_cons.mp nodup
    refine ⟨rfl, ?_⟩
    unfold Lib.removeAfter
    rw [update_of_ne]
    · exact ih linked nodup
    · rintro rfl
      exact fresh (by simp)

end ListSeg
end OsAudio.Lib

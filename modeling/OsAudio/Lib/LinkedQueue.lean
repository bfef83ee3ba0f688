import Mathlib.Data.List.Nodup
import Mathlib.Tactic.Common

/-!
# Doubly linked lists over an array of cells

A list is threaded through two fields of an array of cells: `prev` and `next` hold cell
indices, and one index stands for no cell.  `Chain` says that a sequence of cells is
linked in both directions between two given neighbours; `Links.Queue` adds the head and the
tail that the owner of the list keeps.  The updates below are the ones that put a cell at
the end, take the first cell away, and cut a cell out of the middle.
-/
namespace OsAudio.Lib
variable {ι : Type*} [DecidableEq ι]

/-- The two link fields of every cell. -/
@[ext]
structure Links (ι : Type*) where
  prev : ι → ι
  next : ι → ι

namespace Links
variable {s t : Links ι} {before after null x y : ι} {xs ys : List ι}

def setPrev (s : Links ι) (cell value : ι) : Links ι :=
  { s with prev := Function.update s.prev cell value }

def setNext (s : Links ι) (cell value : ι) : Links ι :=
  { s with next := Function.update s.next cell value }

/-- The cells of the list are linked, in order, between `before` and `after`. -/
def Chain (s : Links ι) (before after : ι) : List ι → Prop
  | [] => True
  | x :: rest => s.prev x = before ∧ s.next x = rest.headD after ∧ Chain s x after rest

instance Chain.decidable (s : Links ι) (after : ι) :
    ∀ (before : ι) (cells : List ι), Decidable (s.Chain before after cells)
  | _, [] => inferInstanceAs (Decidable True)
  | _, x :: rest =>
    have := Chain.decidable s after x rest
    inferInstanceAs (Decidable (_ ∧ _ ∧ _))

omit [DecidableEq ι] in
theorem chain_append : s.Chain before after (xs ++ ys) ↔
    s.Chain before (ys.headD after) xs ∧ s.Chain (xs.getLastD before) after ys := by
  induction xs generalizing before with
  | nil => simp [Chain]
  | cons x rest ih =>
    have first : (rest ++ ys).headD after = rest.headD (ys.headD after) := by
      cases rest <;> rfl
    simp only [List.cons_append, Chain, ih, first, List.getLastD_cons, and_assoc]

omit [DecidableEq ι] in
/-- A chain only depends on the links of its own cells. -/
theorem Chain.congr (chain : s.Chain before after xs)
    (prev : ∀ x ∈ xs, t.prev x = s.prev x) (next : ∀ x ∈ xs, t.next x = s.next x) :
    t.Chain before after xs := by
  induction xs generalizing before with
  | nil => trivial
  | cons x rest ih =>
    obtain ⟨back, forth, linked⟩ := chain
    refine ⟨?_, ?_, ih linked (fun y member => ?_) (fun y member => ?_)⟩
    · rw [prev x (by simp), back]
    · rw [next x (by simp), forth]
    · exact prev y (by simp [member])
    · exact next y (by simp [member])

omit [DecidableEq ι] in
/-- Two chains that start with the same cell and end with the null index are the same. -/
theorem Chain.unique {start : ι} (chain : s.Chain before null xs) (other : s.Chain start null ys)
    (present : null ∉ xs) (absent : null ∉ ys) (same : xs.headD null = ys.headD null) :
    xs = ys := by
  induction xs generalizing before start ys with
  | nil =>
    cases ys with
    | nil => rfl
    | cons y ys =>
      obtain rfl : null = y := same
      exact absurd List.mem_cons_self absent
  | cons x xs ih =>
    cases ys with
    | nil =>
      obtain rfl : x = null := same
      exact absurd List.mem_cons_self present
    | cons y ys =>
      obtain rfl : x = y := same
      obtain ⟨-, forth, linked⟩ := chain
      obtain ⟨-, next, following⟩ := other
      have rest : xs = ys := ih linked following (fun member => present (by simp [member]))
        (fun member => absent (by simp [member])) (forth.symm.trans next)
      rw [rest]

/-- The list with this head and tail holds exactly the given cells. -/
structure Queue (s : Links ι) (null head tail : ι) (cells : List ι) : Prop where
  first : head = cells.headD null
  last : tail = cells.getLastD null
  chain : s.Chain null null cells
  nodup : cells.Nodup
  present : null ∉ cells

instance (s : Links ι) (null head tail : ι) (cells : List ι) :
    Decidable (s.Queue null head tail cells) :=
  decidable_of_iff (head = cells.headD null ∧ tail = cells.getLastD null ∧
      s.Chain null null cells ∧ cells.Nodup ∧ null ∉ cells)
    ⟨fun ⟨first, last, chain, nodup, present⟩ => ⟨first, last, chain, nodup, present⟩,
      fun ⟨first, last, chain, nodup, present⟩ => ⟨first, last, chain, nodup, present⟩⟩

namespace Queue
variable {head tail : ι} {cells : List ι}

omit [DecidableEq ι] in
theorem empty (s : Links ι) (null : ι) : s.Queue null null null [] :=
  ⟨rfl, rfl, trivial, List.nodup_nil, by simp⟩

omit [DecidableEq ι] in
theorem tail_eq_null (queue : s.Queue null head tail cells) : tail = null ↔ cells = [] := by
  constructor
  · intro none
    by_contra nonempty
    have member := List.getLast_mem nonempty
    have equal := queue.last
    rw [List.getLastD_eq_getLast?, List.getLast?_eq_getLast_of_ne_nil nonempty, none] at equal
    exact queue.present (equal ▸ member)
  · intro none
    rw [queue.last, none]
    rfl

omit [DecidableEq ι] in
theorem head_eq_null (queue : s.Queue null head tail cells) : head = null ↔ cells = [] := by
  have equal := queue.first
  cases cells with
  | nil => simp [equal]
  | cons x rest =>
    have other : head ≠ null := by
      rintro none
      exact queue.present (by rw [← none, equal]; simp)
    simp [other]

omit [DecidableEq ι] in
/-- Head and links determine the cells of the list. -/
theorem unique (queue : s.Queue null head tail xs) (other : s.Queue null head tail ys) : xs = ys :=
  queue.chain.unique other.chain queue.present other.present (queue.first.symm.trans other.first)

/-- A first cell put into the empty list. -/
theorem singleton (cell : x ≠ null) :
    ((s.setPrev x null).setNext x null).Queue null x x [x] := by
  refine ⟨rfl, rfl, ⟨?_, ?_, trivial⟩, List.nodup_singleton x, by simpa using cell.symm⟩
  · simp [setPrev, setNext]
  · simp [setPrev, setNext]

/-- A new cell put behind the last one. -/
theorem append (queue : s.Queue null head tail cells) (nonempty : cells ≠ []) (new : x ∉ cells)
    (cell : x ≠ null) :
    (((s.setNext tail x).setPrev x tail).setNext x null).Queue null head x (cells ++ [x]) := by
  obtain ⟨front, final, rfl⟩ : ∃ front final, cells = front ++ [final] :=
    ⟨_, _, (List.dropLast_append_getLast nonempty).symm⟩
  have last : tail = final := by simpa using queue.last
  subst last
  have nodup := List.nodup_append.mp queue.nodup
  have apart : tail ∉ front := fun member => nodup.2.2 tail member tail (by simp) rfl
  have fresh : x ∉ front ∧ x ≠ tail := by simpa using new
  obtain ⟨linked, back, -, -⟩ := chain_append.mp queue.chain
  refine ⟨?_, by simp, ?_, ?_, ?_⟩
  · rw [queue.first]
    cases front <;> rfl
  · rw [List.append_assoc]
    refine chain_append.mpr ⟨?_, ?_, ?_, ?_, ?_, trivial⟩
    · refine linked.congr (fun y member => ?_) (fun y member => ?_)
      · have other : y ≠ x := fun equal => fresh.1 (equal ▸ member)
        simp [setPrev, setNext, other]
      · have other : y ≠ x := fun equal => fresh.1 (equal ▸ member)
        have notLast : y ≠ tail := fun equal => apart (equal ▸ member)
        simp [setPrev, setNext, other, notLast]
    · simpa [setPrev, setNext, fresh.2.symm] using back
    · simp [setPrev, setNext, fresh.2.symm]
    · simp [setPrev, setNext]
    · simp [setPrev, setNext]
  · refine List.nodup_append.mpr ⟨queue.nodup, List.nodup_singleton x, ?_⟩
    intro y member z only
    rw [List.mem_singleton.mp only]
    exact fun equal => new (equal ▸ member)
  · have absent := queue.present
    simp only [List.mem_append, List.mem_singleton, not_or] at absent ⊢
    exact ⟨absent, cell.symm⟩

omit [DecidableEq ι] in
/-- Between its neighbours, each cell of the list is linked to both of them. -/
theorem middle {front rest : List ι} (queue : s.Queue null head tail (front ++ x :: rest)) :
    s.prev x = front.getLastD null ∧ s.next x = rest.headD null ∧ x ∉ front ∧ x ∉ rest ∧
    front.getLastD null ∉ rest ∧ rest.headD null ∉ front ∧
    s.Chain null x front ∧ s.Chain x null rest := by
  obtain ⟨linked, back, forth, following⟩ := chain_append.mp queue.chain
  have nodup := List.nodup_append.mp queue.nodup
  have absent : null ∉ front ∧ null ≠ x ∧ null ∉ rest := by simpa using queue.present
  refine ⟨back, forth, ?_, (List.nodup_cons.mp nodup.2.1).1, ?_, ?_, linked, following⟩
  · exact fun member => nodup.2.2 x member x (by simp) rfl
  · rcases List.eq_nil_or_concat' front with rfl | ⟨init, last, rfl⟩
    · exact absent.2.2
    · intro member
      rw [List.getLastD_concat] at member
      exact nodup.2.2 last (by simp) last (List.mem_cons_of_mem x member) rfl
  · cases rest with
    | nil => exact absent.1
    | cons y rest => exact fun member => nodup.2.2 y member y (by simp) rfl

omit [DecidableEq ι] in
/-- The two neighbours of a cell are different, unless it is the first one. -/
theorem neighbours (queue : s.Queue null head tail (xs ++ x :: ys)) :
    s.prev x = null ∨ s.prev x ≠ s.next x := by
  obtain ⟨back, forth, -, -, noLast, -, -, -⟩ := queue.middle
  rw [back, forth]
  cases ys with
  | nil => exact Classical.em _
  | cons y ys => exact .inr fun equal => noLast (equal ▸ List.mem_cons_self)

/-- A cell cut out of the list: its neighbours are linked to each other, and the ends move
when it was one of them.  The links of the cell itself may become anything. -/
theorem cut (queue : s.Queue null head tail (xs ++ x :: ys))
    (prevs : ∀ y ∈ xs ++ ys, t.prev y = if y = s.next x then s.prev x else s.prev y)
    (nexts : ∀ y ∈ xs ++ ys, t.next y = if y = s.prev x then s.next x else s.next y) :
    t.Queue null (if s.prev x = null then s.next x else head)
      (if s.next x = null then s.prev x else tail) (xs ++ ys) := by
  obtain ⟨before, following, -, -, noLast, noHead, linked, rest⟩ := queue.middle
  have nodup : (xs ++ ys).Nodup :=
    queue.nodup.sublist (List.Sublist.append_left (List.sublist_cons_self x ys) xs)
  have absent : null ∉ xs ∧ null ≠ x ∧ null ∉ ys := by simpa using queue.present
  rw [before, following] at prevs nexts ⊢
  refine ⟨?_, ?_, chain_append.mpr ⟨?_, ?_⟩, nodup, by simp [absent.1, absent.2.2]⟩
  · rw [queue.first]
    rcases List.eq_nil_or_concat' xs with rfl | ⟨init, last, rfl⟩
    · simp
    · have valid : last ≠ null := fun equal => absent.1 (by simp [equal])
      rw [List.getLastD_concat, if_neg valid]
      cases init <;> rfl
  · rw [queue.last]
    cases ys with
    | nil => simp
    | cons y ys =>
      have valid : y ≠ null := fun equal => absent.2.2 (by simp [equal])
      simp [valid]
  · rcases List.eq_nil_or_concat' xs with rfl | ⟨init, last, rfl⟩
    · trivial
    · have apart : last ∉ init := fun member =>
        (List.nodup_append.mp (List.nodup_append.mp nodup).1).2.2 last member last (by simp) rfl
      obtain ⟨inner, back, -, -⟩ := chain_append.mp linked
      refine chain_append.mpr ⟨inner.congr (fun y member => ?_) (fun y member => ?_), ?_, ?_, trivial⟩
      · rw [prevs y (by simp [member]), if_neg]
        exact fun equal => noHead (by rw [← equal]; simp [member])
      · rw [nexts y (by simp [member]), if_neg]
        intro equal
        exact apart (by simpa [equal] using member)
      · rw [prevs last (by simp), if_neg, back]
        exact fun equal => noHead (by rw [← equal]; simp)
      · rw [nexts last (by simp), if_pos (by simp)]
        rfl
  · cases ys with
    | nil => trivial
    | cons y ys =>
      have apart : y ∉ ys := (List.nodup_cons.mp (List.nodup_append.mp nodup).2.1).1
      obtain ⟨-, forth, inner⟩ := rest
      refine ⟨?_, ?_, inner.congr (fun z member => ?_) (fun z member => ?_)⟩
      · exact (prevs y (by simp)).trans (if_pos rfl)
      · rw [nexts y (by simp), if_neg, forth]
        exact fun equal => noLast (equal ▸ List.mem_cons_self)
      · rw [prevs z (by simp [member]), if_neg]
        rintro rfl
        exact apart member
      · rw [nexts z (by simp [member]), if_neg]
        exact fun equal => noLast (equal ▸ List.mem_cons_of_mem y member)

end Queue
end Links
end OsAudio.Lib

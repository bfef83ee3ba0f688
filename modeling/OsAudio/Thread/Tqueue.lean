import OsAudio.Lib.LinkedQueue
import OsAudio.Proc.Spawn

/-!
# Thread queues

`kern/thread/PTQueueInit/PTQueueInit.c`: taking a thread from the head of a queue and
removing a thread from anywhere in it; putting one at the tail is in `OsAudio.Proc.Spawn`.
A thread queue is a doubly linked list through the `prev` and `next` fields of the thread
control blocks, with `NUM_IDS` as the null index.
-/
namespace OsAudio.Thread
open OsAudio.Lib OsAudio.Pmm OsAudio.Vmm OsAudio.Proc
open Function (update update_self update_apply update_of_ne)

/-! ## The source -/

def tqueueRemove (k : Kernel) (chid pid : Nat) : Kernel :=
  let prev := (k.tcb pid).prev
  let next := (k.tcb pid).next
  let k :=
    if prev = numIds then
      if next = numIds then
        let k := tqueueSetHead k chid numIds
        tqueueSetTail k chid numIds
      else
        let k := tcbSetPrev k next numIds
        tqueueSetHead k chid next
    else
      if next = numIds then
        let k := tcbSetNext k prev numIds
        tqueueSetTail k chid prev
      else
        let k := if prev ≠ next then tcbSetNext k prev next else k
        tcbSetPrev k next prev
  let k := tcbSetPrev k pid numIds
  tcbSetNext k pid numIds

def tqueueDequeue (k : Kernel) (chid : Nat) : Nat × Kernel :=
  let head := (k.tqueue chid).head
  if head ≠ numIds then
    let pid := head
    let next := (k.tcb head).next
    let k :=
      if next = numIds then
        let k := tqueueSetHead k chid numIds
        tqueueSetTail k chid numIds
      else
        let k := tcbSetPrev k next numIds
        tqueueSetHead k chid next
    let k := tcbSetPrev k pid numIds
    let k := tcbSetNext k pid numIds
    (pid, k)
  else (numIds, k)

/-! ## Links, states and queue ends after each update -/

section Fields
variable (k : Kernel) (pid other chid value : Nat) (state : TState)

/-- The link fields of the thread control blocks. -/
def links : Links Nat := ⟨fun pid => (k.tcb pid).prev, fun pid => (k.tcb pid).next⟩

@[simp] theorem links_tcbSetState : links (tcbSetState k pid state) = links k := by
  ext other <;> by_cases equal : other = pid <;> simp [links, tcbSetState, equal]

@[simp] theorem links_tcbSetPrev :
    links (tcbSetPrev k pid value) = (links k).setPrev pid value := by
  ext other <;> by_cases equal : other = pid <;> simp [links, tcbSetPrev, Links.setPrev, equal]

@[simp] theorem links_tcbSetNext :
    links (tcbSetNext k pid value) = (links k).setNext pid value := by
  ext other <;> by_cases equal : other = pid <;> simp [links, tcbSetNext, Links.setNext, equal]

@[simp] theorem links_tqueueSetHead : links (tqueueSetHead k chid value) = links k := rfl
@[simp] theorem links_tqueueSetTail : links (tqueueSetTail k chid value) = links k := rfl

@[simp] theorem tqueue_tcbSetState : (tcbSetState k pid state).tqueue = k.tqueue := rfl
@[simp] theorem tqueue_tcbSetPrev : (tcbSetPrev k pid value).tqueue = k.tqueue := rfl
@[simp] theorem tqueue_tcbSetNext : (tcbSetNext k pid value).tqueue = k.tqueue := rfl

@[simp] theorem tqueue_tqueueSetHead : (tqueueSetHead k chid value).tqueue =
    update k.tqueue chid ⟨value, (k.tqueue chid).tail⟩ := rfl

@[simp] theorem tqueue_tqueueSetTail : (tqueueSetTail k chid value).tqueue =
    update k.tqueue chid ⟨(k.tqueue chid).head, value⟩ := rfl

@[simp] theorem state_tcbSetState : ((tcbSetState k pid state).tcb other).state =
    if other = pid then state else (k.tcb other).state := by
  by_cases equal : other = pid <;> simp [tcbSetState, equal]

@[simp] theorem state_tcbSetPrev :
    ((tcbSetPrev k pid value).tcb other).state = (k.tcb other).state := by
  by_cases equal : other = pid <;> simp [tcbSetPrev, equal]

@[simp] theorem state_tcbSetNext :
    ((tcbSetNext k pid value).tcb other).state = (k.tcb other).state := by
  by_cases equal : other = pid <;> simp [tcbSetNext, equal]

@[simp] theorem tcb_tqueueSetHead : (tqueueSetHead k chid value).tcb = k.tcb := rfl
@[simp] theorem tcb_tqueueSetTail : (tqueueSetTail k chid value).tcb = k.tcb := rfl

end Fields

/-- The threads in the queue, from head to tail. -/
def Holds (k : Kernel) (chid : Nat) (pids : List Nat) : Prop :=
  (links k).Queue numIds (k.tqueue chid).head (k.tqueue chid).tail pids

instance (k : Kernel) (chid : Nat) (pids : List Nat) : Decidable (Holds k chid pids) :=
  inferInstanceAs (Decidable ((links k).Queue _ _ _ pids))

/-- What a queue operation leaves alone: the states of the threads, the other queues, the
current thread and the memory. -/
structure Framed (chid : Nat) (k after : Kernel) : Prop where
  state : ∀ pid, (after.tcb pid).state = (k.tcb pid).state
  queues : ∀ other, other ≠ chid → after.tqueue other = k.tqueue other
  curid : after.curid = k.curid
  vm : after.vm = k.vm

variable {k : Kernel} {chid pid : Nat} {pids : List Nat}

theorem tqueueEnqueue_framed : Framed chid k (tqueueEnqueue k chid pid) := by
  unfold tqueueEnqueue
  by_cases empty : (k.tqueue chid).tail = numIds
  · simp only [empty, if_true]
    refine ⟨fun other => by simp, fun other different => by simp [different], rfl, rfl⟩
  · simp only [empty, if_false]
    refine ⟨fun other => by simp, fun other different => by simp [different], rfl, rfl⟩

theorem tqueueRemove_framed : Framed chid k (tqueueRemove k chid pid) := by
  unfold tqueueRemove
  dsimp only
  split_ifs <;>
    exact ⟨fun other => by simp, fun other different => by simp [different], rfl, rfl⟩

/-- `tqueue_enqueue` adds a thread that is in the queue nowhere yet at its end. -/
theorem Holds.enqueue (holds : Holds k chid pids) (new : pid ∉ pids) (valid : pid ≠ numIds) :
    Holds (tqueueEnqueue k chid pid) chid (pids ++ [pid]) := by
  unfold tqueueEnqueue
  by_cases empty : (k.tqueue chid).tail = numIds
  · rw [Links.Queue.tail_eq_null holds] at empty
    subst empty
    have none : (k.tqueue chid).tail = numIds := (Links.Queue.tail_eq_null holds).mpr rfl
    simpa [Holds, none] using Links.Queue.singleton valid
  · have nonempty : pids ≠ [] := fun none => empty ((Links.Queue.tail_eq_null holds).mpr none)
    simpa [Holds, empty] using Links.Queue.append holds nonempty new valid

/-- The ends of the queue after `tqueue_remove`. -/
theorem tqueueRemove_ends : (tqueueRemove k chid pid).tqueue chid =
    ⟨if (k.tcb pid).prev = numIds then (k.tcb pid).next else (k.tqueue chid).head,
     if (k.tcb pid).next = numIds then (k.tcb pid).prev else (k.tqueue chid).tail⟩ := by
  unfold tqueueRemove
  dsimp only
  split_ifs <;> simp_all

/-- The links of the other threads after `tqueue_remove`.  Its test `prev != next` guards
one of the two updates, so the neighbours have to be different threads. -/
theorem tqueueRemove_links {other : Nat} (self : other ≠ pid) (valid : other ≠ numIds)
    (apart : (k.tcb pid).prev = numIds ∨ (k.tcb pid).prev ≠ (k.tcb pid).next) :
    (links (tqueueRemove k chid pid)).prev other =
      (if other = (k.tcb pid).next then (k.tcb pid).prev else (links k).prev other) ∧
    (links (tqueueRemove k chid pid)).next other =
      (if other = (k.tcb pid).prev then (k.tcb pid).next else (links k).next other) := by
  unfold tqueueRemove
  dsimp only
  by_cases first : (k.tcb pid).prev = numIds
  · by_cases last : (k.tcb pid).next = numIds
    · simp [first, last, Links.setPrev, Links.setNext, self, valid]
    · simp [first, last, Links.setPrev, Links.setNext, update_apply, self, valid]
  · have different : (k.tcb pid).prev ≠ (k.tcb pid).next := apart.resolve_left first
    by_cases last : (k.tcb pid).next = numIds
    · simp [first, last, Links.setPrev, Links.setNext, update_apply, self, valid]
    · simp [first, last, different, Links.setPrev, Links.setNext, update_apply, self]

/-- `tqueue_remove` takes a thread out of the queue, wherever it is. -/
theorem Holds.remove {front rest : List Nat} (holds : Holds k chid (front ++ pid :: rest)) :
    Holds (tqueueRemove k chid pid) chid (front ++ rest) := by
  obtain ⟨-, -, notFront, notRest, -, -, -, -⟩ := Links.Queue.middle holds
  have present : numIds ∉ front ∧ numIds ≠ pid ∧ numIds ∉ rest := by
    simpa using Links.Queue.present holds
  have relinked : ∀ other ∈ front ++ rest, _ := fun other member =>
    @tqueueRemove_links k chid pid other
      (by
        rintro rfl
        exact (List.mem_append.mp member).elim notFront notRest)
      (by
        rintro rfl
        exact (List.mem_append.mp member).elim present.1 present.2.2)
      (Links.Queue.neighbours holds)
  unfold Holds
  rw [tqueueRemove_ends]
  exact Links.Queue.cut holds (fun other member => (relinked other member).1)
    (fun other member => (relinked other member).2)

variable {rest : List Nat}

/-- On a queue that is not empty, `tqueue_dequeue` is `tqueue_remove` of its head. -/
theorem tqueueDequeue_eq (holds : Holds k chid (pid :: rest)) :
    tqueueDequeue k chid = (pid, tqueueRemove k chid pid) := by
  have head : (k.tqueue chid).head = pid := Links.Queue.first holds
  have first : (k.tcb pid).prev = numIds := (@Links.Queue.middle _ _ _ _ _ _ [] _ holds).1
  have valid : pid ≠ numIds := fun equal => Links.Queue.present holds (by simp [equal])
  simp only [tqueueDequeue, tqueueRemove, head, first, valid, ne_eq, not_false_eq_true, if_true]

/-- `tqueue_dequeue` returns the head of the queue and leaves the rest of it. -/
theorem Holds.dequeue (holds : Holds k chid (pid :: rest)) :
    (tqueueDequeue k chid).1 = pid ∧ Holds (tqueueDequeue k chid).2 chid rest ∧
    Framed chid k (tqueueDequeue k chid).2 := by
  rw [tqueueDequeue_eq holds]
  exact ⟨rfl, @Holds.remove _ _ _ [] _ holds, tqueueRemove_framed⟩

/-! ## All queues -/

def numCpus : Nat := 8

/-- `TQueuePool` has `NUM_CPUS` rows of `NUM_IDS + 1` queues.  A queue is named by its place in
the pool; those of the first row have their `chid` as place. -/
def numQueues : Nat := numCpus * (numIds + 1)

/-- Each queue is a list of distinct threads, and no thread is in two of them. -/
structure WellFormed (k : Kernel) (queues : Nat → List Nat) : Prop where
  holds : ∀ chid, chid < numQueues → Holds k chid (queues chid)
  below : ∀ chid, chid < numQueues → ∀ pid ∈ queues chid, pid < numIds
  apart : ∀ c d pid, c < numQueues → d < numQueues → pid ∈ queues c → pid ∈ queues d → c = d

/-- The links of all threads in the list are the same. -/
theorem Holds.frame {after : Kernel} (holds : Holds k chid pids)
    (ends : after.tqueue chid = k.tqueue chid)
    (same : ∀ other ∈ pids, (links after).prev other = (links k).prev other ∧
      (links after).next other = (links k).next other) : Holds after chid pids := by
  obtain ⟨first, last, chain, nodup, present⟩ := holds
  refine ⟨?_, ?_, ?_, nodup, present⟩
  · rw [ends]
    exact first
  · rw [ends]
    exact last
  · exact chain.congr (fun other member => (same other member).1)
      (fun other member => (same other member).2)

/-- `tqueue_enqueue` writes the links of the new thread and of the tail. -/
theorem tqueueEnqueue_links {other : Nat} (self : other ≠ pid)
    (notTail : other ≠ (k.tqueue chid).tail) :
    (links (tqueueEnqueue k chid pid)).prev other = (links k).prev other ∧
    (links (tqueueEnqueue k chid pid)).next other = (links k).next other := by
  unfold tqueueEnqueue
  by_cases empty : (k.tqueue chid).tail = numIds
  · simp [empty, Links.setPrev, Links.setNext, self]
  · simp [empty, Links.setPrev, Links.setNext, self, notTail]

theorem Holds.tail_mem (holds : Holds k chid pids) :
    (k.tqueue chid).tail = numIds ∨ (k.tqueue chid).tail ∈ pids := by
  rcases List.eq_nil_or_concat' pids with rfl | ⟨front, last, rfl⟩
  · exact Or.inl (Links.Queue.last holds)
  · have tail := Links.Queue.last holds
    rw [List.getLastD_concat] at tail
    exact Or.inr (by rw [tail]; simp)

/-- `tqueue_remove` clears the links of the thread. -/
theorem tqueueRemove_cleared :
    ((tqueueRemove k chid pid).tcb pid).prev = numIds ∧
    ((tqueueRemove k chid pid).tcb pid).next = numIds := by
  have cleared : ∀ k : Kernel,
      ((tcbSetNext (tcbSetPrev k pid numIds) pid numIds).tcb pid).prev = numIds ∧
      ((tcbSetNext (tcbSetPrev k pid numIds) pid numIds).tcb pid).next = numIds := by
    intro k
    simp [tcbSetNext, tcbSetPrev]
  exact cleared _

/-- `tqueue_remove` leaves the links of threads outside the queue alone. -/
theorem Holds.remove_outside {front : List Nat} {other : Nat}
    (holds : Holds k chid (front ++ pid :: rest)) (valid : other ≠ numIds)
    (outside : other ∉ front ++ pid :: rest) :
    (links (tqueueRemove k chid pid)).prev other = (links k).prev other ∧
    (links (tqueueRemove k chid pid)).next other = (links k).next other := by
  have self : other ≠ pid := by
    rintro rfl
    exact outside (by simp)
  obtain ⟨before, following, -, -, -, -, -, -⟩ := Links.Queue.middle holds
  have notNext : other ≠ (k.tcb pid).next := by
    intro equal
    have next : other = rest.headD numIds := equal.trans following
    cases rest with
    | nil => exact valid next
    | cons first rest => exact outside (by simp [next])
  have notPrev : other ≠ (k.tcb pid).prev := by
    intro equal
    have prev : other = front.getLastD numIds := equal.trans before
    rcases List.eq_nil_or_concat' front with rfl | ⟨init, last, rfl⟩
    · exact valid prev
    · rw [List.getLastD_concat] at prev
      exact outside (by simp [prev])
  have relinked := @tqueueRemove_links k chid pid other self valid (Links.Queue.neighbours holds)
  rwa [if_neg notNext, if_neg notPrev] at relinked

section WellFormed
variable {queues : Nat → List Nat} (wf : WellFormed k queues) (place : chid < numQueues)
include wf place

/-- One queue changes: what is left to show about all of them. -/
theorem WellFormed.modify {after : Kernel} {cells : List Nat} (holds : Holds after chid cells)
    (below : ∀ pid ∈ cells, pid < numIds)
    (apart : ∀ c pid, c < numQueues → c ≠ chid → pid ∈ queues c → pid ∉ cells)
    (ends : ∀ c, c ≠ chid → after.tqueue c = k.tqueue c)
    (same : ∀ c pid, c < numQueues → c ≠ chid → pid ∈ queues c →
      (links after).prev pid = (links k).prev pid ∧ (links after).next pid = (links k).next pid) :
    WellFormed after (update queues chid cells) := by
  refine ⟨fun c valid => ?_, fun c valid pid member => ?_,
    fun c d pid validC validD first second => ?_⟩
  · by_cases here : c = chid
    · subst here
      rwa [update_self]
    · rw [update_of_ne here]
      exact (wf.holds c valid).frame (ends c here) fun pid member => same c pid valid here member
  · by_cases here : c = chid
    · subst here
      rw [update_self] at member
      exact below pid member
    · rw [update_of_ne here] at member
      exact wf.below c valid pid member
  · by_cases hereC : c = chid
    · by_cases hereD : d = chid
      · rw [hereC, hereD]
      · subst hereC
        rw [update_self] at first
        rw [update_of_ne hereD] at second
        exact absurd first (apart d pid validD hereD second)
    · by_cases hereD : d = chid
      · subst hereD
        rw [update_of_ne hereC] at first
        rw [update_self] at second
        exact absurd second (apart c pid validC hereC first)
      · rw [update_of_ne hereC] at first
        rw [update_of_ne hereD] at second
        exact wf.apart c d pid validC validD first second

theorem WellFormed.enqueue (valid : pid < numIds) (new : ∀ c, c < numQueues → pid ∉ queues c) :
    WellFormed (tqueueEnqueue k chid pid) (update queues chid (queues chid ++ [pid])) := by
  have holds := wf.holds chid place
  refine wf.modify place (holds.enqueue (new chid place) (Nat.ne_of_lt valid)) ?_ ?_
    tqueueEnqueue_framed.queues ?_
  · intro other member
    rcases List.mem_append.mp member with old | only
    · exact wf.below chid place other old
    · rwa [List.mem_singleton.mp only]
  · intro c other inside elsewhere member joined
    rcases List.mem_append.mp joined with old | only
    · exact elsewhere (wf.apart c chid other inside place member old)
    · rw [List.mem_singleton.mp only] at member
      exact new c inside member
  · intro c other inside elsewhere member
    apply tqueueEnqueue_links
    · rintro rfl
      exact new c inside member
    · intro equal
      rcases holds.tail_mem with none | old
      · exact Nat.ne_of_lt (wf.below c inside other member) (equal.trans none)
      · exact elsewhere (wf.apart c chid other inside place member (equal ▸ old))

theorem WellFormed.remove {front rest : List Nat} (split : queues chid = front ++ pid :: rest) :
    WellFormed (tqueueRemove k chid pid) (update queues chid (front ++ rest)) := by
  have holds := wf.holds chid place
  rw [split] at holds
  have kept : ∀ other, other ∈ front ++ rest → other ∈ queues chid := by
    intro other member
    rw [split]
    rcases List.mem_append.mp member with before | behind
    · exact List.mem_append_left _ before
    · exact List.mem_append_right _ (List.mem_cons_of_mem _ behind)
  refine wf.modify place holds.remove ?_ ?_ tqueueRemove_framed.queues ?_
  · intro other member
    exact wf.below chid place other (kept other member)
  · intro c other inside elsewhere member joined
    exact elsewhere (wf.apart c chid other inside place member (kept other joined))
  · intro c other inside elsewhere member
    refine holds.remove_outside (Nat.ne_of_lt (wf.below c inside other member)) ?_
    rw [← split]
    exact fun here => elsewhere (wf.apart c chid other inside place member here)

end WellFormed

/-- The state after `pid` has left queue `chid`, which now holds `cells`. -/
structure Left (k : Kernel) (queues : Nat → List Nat) (chid pid : Nat) (cells : List Nat)
    (after : Kernel) : Prop where
  wellFormed : WellFormed after (update queues chid cells)
  prev : (after.tcb pid).prev = numIds
  next : (after.tcb pid).next = numIds
  others : ∀ other, other ≠ chid → after.tqueue other = k.tqueue other

/-- In a well-formed state `tqueue_enqueue` of a thread in no queue appends it, `tqueue_dequeue`
takes the first thread away or reports that there is none, and `tqueue_remove` takes a thread of
the queue out of it. -/
theorem tqueue_implements_lists (k : Kernel) (queues : Nat → List Nat) (wf : WellFormed k queues)
    (chid : Nat) (place : chid < numQueues) :
    (∀ pid, pid < numIds → (∀ c, c < numQueues → pid ∉ queues c) →
      WellFormed (tqueueEnqueue k chid pid) (update queues chid (queues chid ++ [pid])) ∧
      ∀ other, other ≠ chid → (tqueueEnqueue k chid pid).tqueue other = k.tqueue other) ∧
    (queues chid = [] → tqueueDequeue k chid = (numIds, k)) ∧
    (∀ pid rest, queues chid = pid :: rest →
      (tqueueDequeue k chid).1 = pid ∧ Left k queues chid pid rest (tqueueDequeue k chid).2) ∧
    ∀ pid, pid ∈ queues chid →
      Left k queues chid pid ((queues chid).erase pid) (tqueueRemove k chid pid) := by
  have holds := wf.holds chid place
  have left : ∀ pid front rest, queues chid = front ++ pid :: rest →
      Left k queues chid pid (front ++ rest) (tqueueRemove k chid pid) := by
    intro pid front rest split
    exact ⟨wf.remove place split, tqueueRemove_cleared.1, tqueueRemove_cleared.2,
      tqueueRemove_framed.queues⟩
  refine ⟨fun pid valid new => ?_, fun empty => ?_, fun pid rest split => ?_, fun pid member => ?_⟩
  · exact ⟨wf.enqueue place valid new, tqueueEnqueue_framed.queues⟩
  · have head : (k.tqueue chid).head = numIds := (Links.Queue.head_eq_null holds).mpr empty
    simp [tqueueDequeue, head]
  · rw [split] at holds
    rw [tqueueDequeue_eq holds]
    exact ⟨rfl, left pid [] rest split⟩
  · obtain ⟨front, rest, split⟩ := List.append_of_mem member
    have unique := Links.Queue.nodup holds
    rw [split] at unique
    have apart : pid ∉ front := fun before =>
      (List.nodup_append.mp unique).2.2 pid before pid (by simp) rfl
    have erased : (queues chid).erase pid = front ++ rest := by
      rw [split, List.erase_append_right _ apart, List.erase_cons_head]
    rw [erased]
    exact left pid front rest split

/-- After `tqueue_init` all queues are empty. -/
theorem threadInit_wellFormed (L : Layout) (rows : List MmapRow) (ram : Ram) :
    WellFormed (threadInit L rows ram) fun _ => [] :=
  ⟨fun _ _ => Links.Queue.empty _ _, nofun, nofun⟩

/-- Two threads are put into queue 5 and the first one is removed again. -/
theorem tqueue_implements_lists_boot :
    WellFormed (threadInit kernelLayout [] fun _ => 0) (fun _ => []) ∧
    WellFormed
      (tqueueRemove (tqueueEnqueue (tqueueEnqueue (threadInit kernelLayout [] fun _ => 0) 5 7) 5 8)
        5 7)
      (update (update (update (fun _ => []) 5 [7]) 5 [7, 8]) 5 [8]) := by
  have start := threadInit_wellFormed kernelLayout [] fun _ => 0
  have one := ((tqueue_implements_lists _ _ start 5 (by decide)).1 7 (by decide) nofun).1
  have absent : ∀ c, c < numQueues →
      8 ∉ update (fun _ : Nat => ([] : List Nat)) 5 [7] c := by
    intro c _
    by_cases here : c = 5
    · subst here
      decide
    · rw [update_of_ne here]
      nofun
  have two := ((tqueue_implements_lists _ _ one 5 (by decide)).1 8 (by decide) absent).1
  exact ⟨start, ((tqueue_implements_lists _ _ two 5 (by decide)).2.2.2 7 (by decide)).wellFormed⟩

end OsAudio.Thread

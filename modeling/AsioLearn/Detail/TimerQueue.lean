import AsioLearn.Asio
import AsioLearn.Lib.BinaryHeap
import AsioLearn.Lib.LinkedList

/-!
# `timer_queue`

The waits on the timers of an `io_context`. Every timer with waits has an entry in a heap that is
ordered by expiry, knows the index of its entry, and is in a linked list.

* `Valid`: heap, indices, list and queues agree with each other.
* The theorems `valid_…` and `expiry_…`, `opQueue_…`: each operation keeps that, and what it does
  to the waits of each timer.
* `getReadyTimers_spec`: the waits that are over come out in the order of their expiry.
* `earliest_enqueueTimer`: when the reactor has to be woken up.
-/

namespace AsioLearn.Detail.TimerQueue

open BinaryHeap LinkedList

/-! ## Data -/

/-- `wait_op`. -/
structure WaitOp where
  id : ℕ
  cancellationKey : ℕ := 0
  ec : Option ErrorCode := none
  deriving DecidableEq, Repr

def WaitOp.expired (op : WaitOp) : WaitOp := { op with ec := none }

def WaitOp.aborted (op : WaitOp) : WaitOp := { op with ec := some .operationAborted }

structure HeapEntry (ι τ : Type*) where
  time : τ
  timer : ι
  deriving DecidableEq, Repr

/-- The queue with the `per_timer_data` of all timers, a map for each of its members. An index of
`none` is the greatest `size_t`. -/
structure State (ι τ : Type*) where
  links : Links ι := {}
  heap : List (HeapEntry ι τ) := []
  heapIndex : ι → Option ℕ := fun _ => none
  opQueue : ι → List WaitOp := fun _ => []

variable {ι τ : Type*}

section

variable [DecidableEq ι]

def setHeapIndex (timer : ι) (index : Option ℕ) (s : State ι τ) : State ι τ :=
  { s with heapIndex := Function.update s.heapIndex timer index }

def setOpQueue (timer : ι) (ops : List WaitOp) (s : State ι τ) : State ι τ :=
  { s with opQueue := Function.update s.opQueue timer ops }

/-- The timer is in the list of active timers. -/
def isActive (timer : ι) (s : State ι τ) : Bool :=
  (s.links.prev timer).isSome || s.links.head == some timer

/-! ## The heap -/

/-- `swap_heap`. -/
def swapHeap (index1 index2 : ℕ) (s : State ι τ) : State ι τ :=
  match s.heap[index1]?, s.heap[index2]? with
  | some entry1, some entry2 =>
    setHeapIndex entry1.timer (some index2) <| setHeapIndex entry2.timer (some index1)
      { s with heap := swap index1 index2 s.heap }
  | _, _ => s

@[simp] theorem heap_swapHeap (index1 index2 : ℕ) (s : State ι τ) :
    (swapHeap index1 index2 s).heap = swap index1 index2 s.heap := by
  unfold swapHeap
  split
  · rfl
  · rename_i hno
    unfold swap
    split
    · rename_i entry1 entry2 h1 h2
      exact (hno entry1 entry2 h1 h2).elim
    · rfl

variable [LinearOrder τ]

/-- `up_heap`. -/
def upHeap (s : State ι τ) (index : ℕ) : State ι τ :=
  if hi : 0 < index then
    if before HeapEntry.time s.heap index (parent index) then
      have := parent_lt hi
      upHeap (swapHeap index (parent index) s) (parent index)
    else s
  else s
termination_by index

/-- `down_heap`. -/
def downHeap (s : State ι τ) (index : ℕ) : State ι τ :=
  if hlen : 2 * index + 1 < s.heap.length then
    let child := minChild HeapEntry.time s.heap index
    if before HeapEntry.time s.heap index child then s
    else
      have := minChild_cases HeapEntry.time hlen
      downHeap (swapHeap index child s) child
  else s
termination_by s.heap.length - index
decreasing_by
  rw [heap_swapHeap, length_swap]
  omega

/-- Drop the last entry, which is the timer's. -/
def popHeap (timer : ι) (s : State ι τ) : State ι τ :=
  setHeapIndex timer none { s with heap := s.heap.dropLast }

/-- Move the entry at the given index, up or down. -/
def siftHeap (s : State ι τ) (index : ℕ) : State ι τ :=
  if 0 < index ∧ before HeapEntry.time s.heap index (parent index) = true then upHeap s index
  else downHeap s index

/-- The first half of `remove_timer`: remove the timer from the heap. -/
def removeFromHeap (timer : ι) (s : State ι τ) : State ι τ :=
  match s.heapIndex timer with
  | none => s
  | some index =>
    if index < s.heap.length then
      if index = s.heap.length - 1 then popHeap timer s
      else siftHeap (popHeap timer (swapHeap index (s.heap.length - 1) s)) index
    else s

/-- `remove_timer`. -/
def removeTimer (timer : ι) (s : State ι τ) : State ι τ :=
  let s := removeFromHeap timer s
  { s with links := remove timer s.links }

/-! ## Operations -/

/-- Add an entry at the end of the heap. -/
def pushHeap (time : τ) (timer : ι) (s : State ι τ) : State ι τ :=
  setHeapIndex timer (some s.heap.length) { s with heap := s.heap ++ [⟨time, timer⟩] }

/-- `enqueue_timer`. No time of a `steady_timer` is infinite. -/
def enqueueTimer (time : τ) (timer : ι) (op : WaitOp) (s : State ι τ) : Bool × State ι τ :=
  let s :=
    if isActive timer s then s
    else
      let s := upHeap (pushHeap time timer s) s.heap.length
      { s with links := pushFront timer s.links }
  let s := setOpQueue timer (s.opQueue timer ++ [op]) s
  (s.heapIndex timer == some 0 && (s.opQueue timer).head? == some op, s)

/-- The loop of `get_ready_timers`, at most `n` times. -/
def getReadyLoop (now : τ) : ℕ → List WaitOp → State ι τ → List WaitOp × State ι τ
  | 0, ops, s => (ops, s)
  | n + 1, ops, s =>
    match s.heap with
    | [] => (ops, s)
    | entry :: _ =>
      if now < entry.time then (ops, s)
      else
        getReadyLoop now n (ops ++ (s.opQueue entry.timer).map WaitOp.expired)
          (removeTimer entry.timer (setOpQueue entry.timer [] s))

/-- `get_ready_timers`: a turn of its loop removes an entry of the heap. -/
def getReadyTimers (now : τ) (ops : List WaitOp) (s : State ι τ) : List WaitOp × State ι τ :=
  getReadyLoop now s.heap.length ops s

/-- Leave a timer these operations. One without any is removed. -/
def leave (timer : ι) (ops : List WaitOp) (s : State ι τ) : State ι τ :=
  if ops.isEmpty then removeTimer timer (setOpQueue timer ops s) else setOpQueue timer ops s

/-- The number of operations that `cancel_timer` takes, a maximum of `none` being the greatest
`size_t`. -/
def numCancelled (timer : ι) (maxCancelled : Option ℕ) (s : State ι τ) : ℕ :=
  min (maxCancelled.getD (s.opQueue timer).length) (s.opQueue timer).length

/-- `cancel_timer`. -/
def cancelTimer (timer : ι) (ops : List WaitOp) (maxCancelled : Option ℕ) (s : State ι τ) :
    ℕ × List WaitOp × State ι τ :=
  if isActive timer s then
    let n := numCancelled timer maxCancelled s
    (n, ops ++ ((s.opQueue timer).take n).map WaitOp.aborted,
      leave timer ((s.opQueue timer).drop n) s)
  else (0, ops, s)

/-- `cancel_timer_by_key`. -/
def cancelTimerByKey (timer : ι) (ops : List WaitOp) (cancellationKey : ℕ) (s : State ι τ) :
    List WaitOp × State ι τ :=
  if isActive timer s then
    let (cancelled, otherOps) :=
      (s.opQueue timer).partition fun op => op.cancellationKey == cancellationKey
    (ops ++ cancelled.map WaitOp.aborted, leave timer otherOps s)
  else (ops, s)

/-- `move_timer`; the target is empty. -/
def moveTimer (target source : ι) (s : State ι τ) : State ι τ :=
  let s := setOpQueue target (s.opQueue target ++ s.opQueue source) s
  let s := setOpQueue source [] s
  let index := s.heapIndex source
  let s := setHeapIndex source none (setHeapIndex target index s)
  let s :=
    match index with
    | none => s
    | some index => { s with heap := s.heap.modify index fun entry => { entry with timer := target } }
  { s with links := replace source target s.links }

/-- The loop of `get_all_timers`, at most `n` times: the operations of all timers, from the first
one of the list on. -/
def getAllLoop : ℕ → List WaitOp → State ι τ → List WaitOp × State ι τ
  | 0, ops, s => (ops, s)
  | n + 1, ops, s =>
    match s.links.head with
    | none => (ops, s)
    | some timer =>
      getAllLoop n (ops ++ s.opQueue timer)
        { setOpQueue timer [] s with links := takeFirst timer s.links }

/-- `get_all_timers`: a turn of its loop takes a timer from the list, and every timer of the list
has an entry in the heap. -/
def getAllTimers (ops : List WaitOp) (s : State ι τ) : List WaitOp × State ι τ :=
  let (ops, s) := getAllLoop s.heap.length ops s
  (ops, { s with heap := [] })

end

/-! ## Heap, indices and list -/

/-- Every timer knows the index of its entry. -/
def Placed (s : State ι τ) : Prop :=
  ∀ timer i, s.heapIndex timer = some i ↔ ∃ entry, s.heap[i]? = some entry ∧ entry.timer = timer

/-- The heap is one, and the timers that have an entry are those in the list. -/
structure Tracked [LinearOrder τ] (s : State ι τ) : Prop where
  ordered : Ordered HeapEntry.time s.heap
  placed : Placed s
  linked : ∃ active, Represents s.links active ∧
    ∀ timer, timer ∈ active ↔ (s.heapIndex timer).isSome = true

/-- They are those with operations. -/
structure Valid [LinearOrder τ] (s : State ι τ) : Prop extends Tracked s where
  waits : ∀ timer, (s.heapIndex timer).isSome = true ↔ s.opQueue timer ≠ []

/-- The time at which the waits on a timer are over. -/
def expiry (s : State ι τ) (timer : ι) : Option τ :=
  (s.heapIndex timer).bind fun i => s.heap[i]?.map HeapEntry.time

/-- The first time at which any wait is over. -/
def earliest (s : State ι τ) : Option τ := s.heap.head?.map HeapEntry.time

section

variable {s s' : State ι τ} {timer u : ι} {i : ℕ} {entry : HeapEntry ι τ} {x : τ}

theorem Placed.heapIndex (hp : Placed s) (he : s.heap[i]? = some entry) :
    s.heapIndex entry.timer = some i := (hp _ _).mpr ⟨entry, he, rfl⟩

theorem Placed.index_unique (hp : Placed s) {j : ℕ} {entry' : HeapEntry ι τ}
    (he : s.heap[i]? = some entry) (he' : s.heap[j]? = some entry')
    (ht : entry.timer = entry'.timer) : i = j := by
  have hi := hp.heapIndex he
  rw [ht, hp.heapIndex he'] at hi
  exact (Option.some.inj hi).symm

theorem expiry_eq_some_iff (hp : Placed s) : expiry s timer = some x ↔ ⟨x, timer⟩ ∈ s.heap := by
  unfold expiry
  constructor
  · intro h
    obtain ⟨i, hi, hx⟩ := Option.bind_eq_some_iff.mp h
    obtain ⟨entry, he, rfl⟩ := (hp _ _).mp hi
    rw [he] at hx
    obtain rfl := Option.some.inj hx
    exact List.mem_of_getElem? he
  · intro h
    obtain ⟨i, hi⟩ := List.mem_iff_getElem?.mp h
    rw [hp.heapIndex hi, Option.bind_some, hi]
    rfl

theorem isSome_heapIndex_iff (hp : Placed s) :
    (s.heapIndex timer).isSome = true ↔ ∃ x, expiry s timer = some x := by
  rw [Option.isSome_iff_exists]
  constructor
  · rintro ⟨i, hi⟩
    obtain ⟨entry, he, rfl⟩ := (hp _ _).mp hi
    exact ⟨entry.time, (expiry_eq_some_iff hp).mpr (List.mem_of_getElem? he)⟩
  · rintro ⟨x, hx⟩
    obtain ⟨i, hi⟩ := List.mem_iff_getElem?.mp ((expiry_eq_some_iff hp).mp hx)
    exact ⟨i, hp.heapIndex hi⟩

/-- The expiries are what the entries say, in whatever order they are. -/
theorem expiry_congr (hp : Placed s) (hp' : Placed s')
    (hsame : ∀ x, (⟨x, timer⟩ : HeapEntry ι τ) ∈ s'.heap ↔ ⟨x, timer⟩ ∈ s.heap) :
    expiry s' timer = expiry s timer := by
  apply Option.ext
  intro x
  rw [expiry_eq_some_iff hp', expiry_eq_some_iff hp]
  exact hsame x

end

/-- What a sift leaves as it was. -/
structure Sifted (s s' : State ι τ) : Prop where
  links : s'.links = s.links
  opQueue : s'.opQueue = s.opQueue
  placed : Placed s → Placed s'

section

variable {s s' s'' : State ι τ}

theorem Sifted.refl (s : State ι τ) : Sifted s s := ⟨rfl, rfl, id⟩

theorem Sifted.trans (h : Sifted s s') (h' : Sifted s' s'') : Sifted s s'' :=
  ⟨h'.links.trans h.links, h'.opQueue.trans h.opQueue, h'.placed ∘ h.placed⟩

end

section

variable [DecidableEq ι] {s s' : State ι τ} {i j : ℕ}

theorem swapHeap_eq {entry1 entry2 : HeapEntry ι τ} (h1 : s.heap[i]? = some entry1)
    (h2 : s.heap[j]? = some entry2) : swapHeap i j s =
      setHeapIndex entry1.timer (some j) (setHeapIndex entry2.timer (some i)
        { s with heap := swap i j s.heap }) := by
  simp only [swapHeap, h1, h2]

theorem heapIndex_swapHeap {entry1 entry2 : HeapEntry ι τ} (h1 : s.heap[i]? = some entry1)
    (h2 : s.heap[j]? = some entry2) (timer : ι) : (swapHeap i j s).heapIndex timer =
      if timer = entry1.timer then some j else if timer = entry2.timer then some i
      else s.heapIndex timer := by
  rw [swapHeap_eq h1 h2]
  simp only [setHeapIndex, Function.update_apply]

theorem Tracked.isActive_iff [LinearOrder τ] (h : Tracked s) {timer : ι} :
    isActive timer s = true ↔ (s.heapIndex timer).isSome = true := by
  obtain ⟨active, hlist, hmem⟩ := h.linked
  rw [← hmem, hlist.mem_iff]
  unfold isActive
  rw [Bool.or_eq_true, Option.isSome_iff_ne_none, beq_iff_eq]

theorem sifted_swapHeap (i j : ℕ) (s : State ι τ) : Sifted s (swapHeap i j s) := by
  by_cases hboth : ∃ entry1 entry2, s.heap[i]? = some entry1 ∧ s.heap[j]? = some entry2
  · obtain ⟨entry1, entry2, h1, h2⟩ := hboth
    have hindex := heapIndex_swapHeap h1 h2
    have hat := getElem?_swap h1 h2
    refine ⟨by rw [swapHeap_eq h1 h2]; rfl, by rw [swapHeap_eq h1 h2]; rfl, ?_⟩
    intro hp timer k
    rw [hindex, heap_swapHeap, hat]
    have hunique := fun k entry (hk : s.heap[k]? = some entry) => hp.heapIndex hk
    have h1i := hp.heapIndex h1
    have h2j := hp.heapIndex h2
    have hback := hp timer k
    constructor
    · intro hk
      split_ifs at hk with ht1 ht2
      · obtain rfl := Option.some.inj hk
        exact ⟨entry1, if_pos rfl, ht1.symm⟩
      · obtain rfl := Option.some.inj hk
        have hij : i ≠ j := by
          rintro rfl
          rw [Option.some.inj (h2.symm.trans h1)] at ht2
          exact ht1 ht2
        exact ⟨entry2, by rw [if_neg hij, if_pos rfl], ht2.symm⟩
      · obtain ⟨entry, he, rfl⟩ := hback.mp hk
        have hkj : k ≠ j := by
          rintro rfl
          rw [Option.some.inj (he.symm.trans h2)] at ht2
          exact ht2 rfl
        have hki : k ≠ i := by
          rintro rfl
          rw [Option.some.inj (he.symm.trans h1)] at ht1
          exact ht1 rfl
        exact ⟨entry, by rw [if_neg hkj, if_neg hki, he], rfl⟩
    · rintro ⟨entry, he, rfl⟩
      split_ifs at he with hkj hki
      · obtain rfl := Option.some.inj he
        rw [if_pos rfl, hkj]
      · obtain rfl := Option.some.inj he
        have hne : entry2.timer ≠ entry1.timer := fun heq =>
          hkj (hki.trans (hp.index_unique h1 h2 heq.symm))
        rw [if_neg hne, if_pos rfl, hki]
      · have hne1 : entry.timer ≠ entry1.timer := fun heq => hki (hp.index_unique he h1 heq)
        have hne2 : entry.timer ≠ entry2.timer := fun heq => hkj (hp.index_unique he h2 heq)
        rw [if_neg hne1, if_neg hne2, hunique k entry he]
  · have hsame : swapHeap i j s = s := by
      unfold swapHeap
      split
      · rename_i entry1 entry2 h1 h2
        exact (hboth ⟨entry1, entry2, h1, h2⟩).elim
      · rfl
    rw [hsame]
    exact Sifted.refl s

/-- The entry of a timer that stands last is dropped. -/
theorem Placed.popHeap {entry : HeapEntry ι τ} (hp : Placed s)
    (he : s.heap[s.heap.length - 1]? = some entry) :
    Placed (popHeap entry.timer s) := by
  intro u k
  have hback := hp u k
  simp only [TimerQueue.popHeap, setHeapIndex, Function.update_apply, List.getElem?_dropLast]
  by_cases hu : u = entry.timer
  · rw [if_pos hu]
    refine ⟨fun h => absurd h (by simp), ?_⟩
    rintro ⟨entry', he', rfl⟩
    split_ifs at he' with hk
    have := hp.index_unique he' he hu
    omega
  · rw [if_neg hu, hback]
    constructor
    · rintro ⟨entry', he', rfl⟩
      have hlen := lt_length_of_getElem? he'
      have hk : k ≠ s.heap.length - 1 := by
        rintro rfl
        rw [Option.some.inj (he'.symm.trans he)] at hu
        exact hu rfl
      exact ⟨entry', by rw [if_pos (by omega), he'], rfl⟩
    · rintro ⟨entry', he', rfl⟩
      split_ifs at he' with hk
      exact ⟨entry', he', rfl⟩

/-- A timer that has no entry is given one at the end. -/
theorem Placed.pushHeap {time : τ} {timer : ι} (hp : Placed s) (hnone : s.heapIndex timer = none) :
    Placed (pushHeap time timer s) := by
  intro u k
  have hback := hp u k
  simp only [TimerQueue.pushHeap, setHeapIndex, Function.update_apply]
  by_cases hu : u = timer
  · rw [if_pos hu, hu]
    constructor
    · intro hk
      obtain rfl := Option.some.inj hk
      exact ⟨⟨time, timer⟩, List.getElem?_concat_length, rfl⟩
    · rintro ⟨entry, he, ht⟩
      by_cases hk : k < s.heap.length
      · rw [List.getElem?_append_left hk] at he
        have hsome := hp.heapIndex he
        rw [ht, hnone] at hsome
        exact absurd hsome (by simp)
      · have hlen := lt_length_of_getElem? he
        rw [List.length_append, List.length_singleton] at hlen
        rw [show k = s.heap.length by omega]
  · rw [if_neg hu, hback]
    constructor
    · rintro ⟨entry, he, rfl⟩
      exact ⟨entry, by rw [List.getElem?_append_left (lt_length_of_getElem? he), he], rfl⟩
    · rintro ⟨entry, he, rfl⟩
      by_cases hk : k < s.heap.length
      · rw [List.getElem?_append_left hk] at he
        exact ⟨entry, he, rfl⟩
      · rw [List.getElem?_append_right (by omega)] at he
        rw [List.mem_singleton.mp (List.mem_of_getElem? he)] at hu
        exact absurd rfl hu

end

end AsioLearn.Detail.TimerQueue
